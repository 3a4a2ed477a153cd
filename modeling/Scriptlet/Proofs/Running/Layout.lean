import Scriptlet.Proofs.Reading.Success
import Scriptlet.Proofs.Running.Evaluation
/-!
# Layout and names of sources do not matter

Two texts with the same lexemes do the same: in sessions that are equal up to positions their runs end alike and leave
sessions that are again equal up to positions (`run_layout`).  Such texts may differ in blanks, in the marks between
statements, in the quotes of strings and in the zeros before a number, and in the names of their sources.
-/
namespace Scriptlet

open Grammar

/-! ## Runs with positions moved -/

def Ending.relocate (φ : Position → Position) : Ending → Ending
  | .value v => .value (v.relocate φ)
  | .problem p => .problem ⟨p.cause, p.span.relocate φ⟩
  | .error e => .error (e.relocate φ)
  | .fault f => .fault f

def Session.relocate (φ : Position → Position) (s : Session) : Session := { s with world := s.world.relocate φ }

/-- The session without its positions. -/
def Session.bare (s : Session) : Session := s.relocate fun _ => .forgotten

theorem Links.eq_of_grows {φ : Position → Position} {kept : Nat → Option (Array Datum)} {S : Links} {w w' : World}
    (hS : Links.Grows Eq S) (h : World.Linked φ kept S w w') : S = Eq := by
  funext n n'
  refine propext ⟨fun hn => ?_, fun hn => hS n n' hn⟩
  exact (h.unique (hS n n rfl) hn).1 rfl

theorem Value.linked_eq {φ : Position → Position} {v v' : Value} (h : Value.Linked φ Eq v v') : v' = v.relocate φ := by
  obtain ⟨d, site⟩ := v
  obtain ⟨d', site'⟩ := v'
  obtain ⟨hd, hs⟩ := h
  have hd := Datum.linked_eq_iff.1 hd
  simp only at hd hs
  rw [Value.relocate, hd, hs]

/-- **An evaluation with its positions moved ends with its positions moved.** -/
theorem Session.evaluate_relocate (φ : Position → Position) (s : Session) (name : String) (n : Node) :
    (s.relocate φ).evaluate name (n.relocate φ) =
      ((s.evaluate name n).1.relocate φ, (s.evaluate name n).2.relocate φ) := by
  obtain ⟨w, limits⟩ := s
  have hworld : World.Linked φ (fun _ => none) Eq w (w.relocate φ) := World.linked_eq_iff.2 rfl
  obtain ⟨S, hS, hw, hr⟩ := eval_tracks limits limits.evaluation n (rootContext name) w (w.relocate φ) hworld
  have hEq := Links.eq_of_grows hS hw
  subst hEq
  have hw := World.linked_eq_iff.1 hw
  have hroot : (rootContext name).relocate φ = rootContext name := rfl
  rw [hroot] at hw hr
  unfold Session.evaluate Session.relocate Session.perform
  simp only
  generalize (eval limits limits.evaluation n (rootContext name)).run w = x at hw hr ⊢
  generalize (eval limits limits.evaluation (n.relocate φ) (rootContext name)).run (w.relocate φ) = y at hw hr ⊢
  obtain ⟨x, w₁⟩ := x
  obtain ⟨y, w₁'⟩ := y
  simp only at hw
  subst hw
  cases x with
  | ok v =>
    cases y with
    | error e => cases hr
    | ok v' =>
      have hv := Value.linked_eq hr
      subst hv
      rfl
  | error e =>
    cases y with
    | ok v' => cases hr
    | error e' =>
      have he : e' = e.relocate φ := hr
      subst he
      cases e <;> rfl

/-! ## Bindings -/

theorem Session.isPreludeBinding_relocate (φ : Position → Position) (b : String × Datum) :
    isPreludeBinding (b.1, b.2.relocate φ) = isPreludeBinding b := by
  obtain ⟨name, d⟩ := b
  cases d with
  | function f =>
    have hf : ∀ g, isPreludeBinding (name, .function g) = false := by
      intro g
      unfold isPreludeBinding
      split
      · rename_i h
        cases h
      · rfl
    exact (hf _).trans (hf f).symm
  | _ => rfl

theorem Scope.sorted_map {α β : Type} (f : α → β) (s : Scope α) :
    (s.map f).sorted = s.sorted.map fun e => (e.1, e.2.map f) := by
  unfold Scope.sorted Scope.map
  rw [List.map_mergeSort (s := fun a b => decide (a.1 ≤ b.1))]
  intro a _ b _
  rfl

/-- What names are bound to moves with the session. -/
theorem Session.bindings_relocate (φ : Position → Position) (s : Session) :
    (s.relocate φ).bindings = s.bindings.map fun b => (b.1, b.2.relocate φ) := by
  have hscopes : (s.relocate φ).world.scopes.all = s.world.scopes.all.map (Scope.map (Datum.relocate φ)) := rfl
  unfold Session.bindings
  rw [hscopes, Array.getElem?_map]
  cases s.world.scopes.all[globalScope]? with
  | none => rfl
  | some scope =>
    have hkeep : (fun b => !isPreludeBinding b) ∘ (fun b : String × Datum => (b.1, b.2.relocate φ)) =
        fun b => !isPreludeBinding b := by
      funext b
      exact congrArg (!·) (isPreludeBinding_relocate φ b)
    have hbound : ∀ es : List (String × Option Datum),
        ((es.map fun e => (e.1, e.2.map (Datum.relocate φ))).filterMap fun e => e.2.map (e.1, ·)) =
          (es.filterMap fun e => e.2.map (e.1, ·)).map fun b => (b.1, b.2.relocate φ) := by
      intro es
      rw [List.filterMap_map, List.map_filterMap]
      congr 1
      funext e
      simp only [Function.comp_apply]
      cases e.2 <;> rfl
    simp only [Option.map_some, Scope.sorted_map]
    rw [hbound, List.filter_map, hkeep]

/-! ## Texts with the same lexemes -/

section Reading

variable {tokens tokens' : List Token} (hne : tokens ≠ []) (hlex : tokens.map Token.lexeme = tokens'.map Token.lexeme)

include hne hlex

/-- The same lexemes are read alike: to the same tree but for positions, or to a refusal at the same token. -/
theorem program_layout (d : Nat) :
    mapResult (fun _ => .forgotten) Node.bare (program d (.start tokens)).result =
        mapResult (fun _ => .forgotten) Node.bare (program d (.start tokens')).result ∧
      (program d (.start tokens)).taken = (program d (.start tokens')).taken := by
  have hne' : tokens' ≠ [] := by
    rintro rfl
    exact hne (List.map_eq_nil_iff.1 hlex)
  have hbare : tokens.map (Token.relocate fun _ => .forgotten) = tokens'.map (Token.relocate fun _ => .forgotten) :=
    (Token.map_bare_eq_iff tokens tokens').2 hlex
  have h := (program_follows (fun _ => .forgotten) d).reply [] [] hne 0
  have h' := (program_follows (fun _ => .forgotten) d).reply [] [] hne' 0
  rw [hbare] at h
  simp only [List.nil_append, List.length_nil, Nat.add_zero, ← Cursor.start_eq_on] at h h'
  exact ⟨h.result.symm.trans h'.result, h.taken.symm.trans h'.taken⟩

/-- A token number for what is shown. -/
theorem shown_getElem? (i : Nat) : ∃ k : Nat, tokens[k]? = some (Cursor.shown tokens i) ∧
    tokens'[k]? = some (Cursor.shown tokens' i) := by
  have hlen : tokens.length = tokens'.length := by
    rw [← List.length_map, hlex, List.length_map]
  have hpos := List.length_pos_iff.2 hne
  by_cases hi : i < tokens.length
  · refine ⟨i, ?_, ?_⟩
    · rw [Cursor.shown_of_lt hi, List.getElem?_eq_getElem hi]
    · rw [Cursor.shown_of_lt (hlen ▸ hi), List.getElem?_eq_getElem (hlen ▸ hi)]
  · refine ⟨tokens.length - 1, ?_, ?_⟩
    · rw [Cursor.shown_eq_last (by omega), List.getLastD_eq_getLast?, List.getLast?_eq_getElem?,
        List.getElem?_eq_getElem (by omega)]
      rfl
    · rw [Cursor.shown_eq_last (by omega), List.getLastD_eq_getLast?, List.getLast?_eq_getElem?, hlen,
        List.getElem?_eq_getElem (by omega)]
      rfl

end Reading

/-- Two endings that differ in positions only.  Problems are at the same token, each shown where the token stands in its own
text; errors have the same reason and the same calls. -/
inductive Ending.Alike (tokens tokens' : List Token) : Ending → Ending → Prop where
  | value {v v' : Value} (h : v.bare = v'.bare) : Alike tokens tokens' (.value v) (.value v')
  | problem {cause : Cause} {k : Nat} {t t' : Token} (ht : tokens[k]? = some t) (ht' : tokens'[k]? = some t') :
    Alike tokens tokens' (.problem ⟨cause, t.span⟩) (.problem ⟨cause, t'.span⟩)
  | error {e e' : RuntimeError} (h : e.bare = e'.bare) : Alike tokens tokens' (.error e) (.error e')
  | fault (f : Fault) : Alike tokens tokens' (.fault f) (.fault f)

/-- Trees and sessions that are equal up to positions are evaluated alike. -/
theorem Session.evaluate_layout (tokens tokens' : List Token) {s s' : Session} (hs : s.bare = s'.bare) {n n' : Node}
    (hn : n.bare = n'.bare) (name : String) :
    Ending.Alike tokens tokens' (s.evaluate name n).1 (s'.evaluate name n').1 ∧
      (s.evaluate name n).2.bare = (s'.evaluate name n').2.bare := by
  have h := s.evaluate_relocate (fun _ => .forgotten) name n
  have h' := s'.evaluate_relocate (fun _ => .forgotten) name n'
  have hpair : (s.bare).evaluate name n.bare = (s'.bare).evaluate name n'.bare := by rw [hs, hn]
  obtain ⟨hending, hsession⟩ := Prod.mk.inj ((h.symm.trans hpair).trans h')
  refine ⟨?_, hsession⟩
  -- An evaluation ends in no problem.
  unfold Session.evaluate Session.perform at hending ⊢
  simp only at hending ⊢
  generalize (eval s.limits s.limits.evaluation n (rootContext name)).run s.world = x at hending ⊢
  generalize (eval s'.limits s'.limits.evaluation n' (rootContext name)).run s'.world = y at hending ⊢
  obtain ⟨x, w⟩ := x
  obtain ⟨y, w'⟩ := y
  rcases x with (e | f) | v <;> rcases y with (e' | f') | v' <;>
    simp only [Ending.relocate, Ending.value.injEq, Ending.error.injEq, Ending.fault.injEq, reduceCtorEq] at hending
  · exact .error hending
  · subst hending
    exact .fault f
  · exact .value hending

theorem Session.run_eq {s : Session} {name : String} {source : Source} {tokens : List Token}
    (h : Scan.tokens source = .ok tokens) : s.run name source =
      match (program s.limits.reading (.start tokens)).result with
      | .ok n => s.evaluate name n
      | .error (.unexpected e span) => (.problem ⟨.expected e, span⟩, s)
      | .error .tooDeep => (.fault .tooDeep, s) := by
  unfold Session.run Parse.program Parse.scan Parse.settle
  rw [h]
  simp only [bind, Except.bind]
  rcases (program s.limits.reading (.start tokens)).result with (_ | _) | n <;> rfl

/-- A refusal is at the token that has been come to. -/
theorem program_span {tokens : List Token} (hne : tokens ≠ []) {d : Nat} {e : Expected} {span : Span}
    (h : (program d (.start tokens)).result = .error (.unexpected e span)) :
    span = (Cursor.shown tokens (program d (.start tokens)).taken).span := by
  rw [Cursor.start_eq_on] at h ⊢
  have hspan := (program_follows id d).span_eq hne h
  rwa [Nat.zero_add] at hspan

theorem run_alike {source source' : Source} {tokens tokens' : List Token} (h : Scan.tokens source = .ok tokens)
    (h' : Scan.tokens source' = .ok tokens') (hlex : tokens.map Token.lexeme = tokens'.map Token.lexeme)
    {s s' : Session} (hs : s.bare = s'.bare) (name : String) :
    Ending.Alike tokens tokens' (s.run name source).1 (s'.run name source').1 ∧
      (s.run name source).2.bare = (s'.run name source').2.bare := by
  have hne := (Ended.of_tokens h).ne_nil
  have hne' := (Ended.of_tokens h').ne_nil
  have hlimits : s.bare.limits = s'.bare.limits := congrArg Session.limits hs
  have hlimits : s.limits = s'.limits := hlimits
  obtain ⟨hresult, htaken⟩ := program_layout hne hlex s.limits.reading
  obtain ⟨k, ht, ht'⟩ := shown_getElem? hne hlex (program s.limits.reading (.start tokens)).taken
  rw [Session.run_eq h, Session.run_eq h', ← hlimits]
  cases hx : (program s.limits.reading (.start tokens)).result with
  | ok n =>
    rw [hx] at hresult
    obtain ⟨n', hy, hn⟩ := mapResult_eq_ok.1 hresult.symm
    rw [hy]
    exact Session.evaluate_layout tokens tokens' hs hn.symm name
  | error r =>
    rw [hx] at hresult
    cases hy : (program s.limits.reading (.start tokens')).result with
    | ok n' =>
      rw [hy] at hresult
      cases hresult
    | error r' =>
      rw [hy] at hresult
      cases r with
      | tooDeep =>
        cases r' with
        | tooDeep => exact ⟨.fault _, hs⟩
        | unexpected e' span' => cases hresult
      | unexpected e span =>
        cases r' with
        | tooDeep => cases hresult
        | unexpected e' span' =>
          have hspan := program_span hne hx
          have hspan' := program_span hne' hy
          rw [← htaken] at hspan'
          have he : e = e' := by
            injection hresult with hresult
            injection hresult
          subst he hspan hspan'
          exact ⟨.problem ht ht', hs⟩

/-- **Layout and names of sources never influence meaning.**  Two texts with the same lexemes, run in sessions that are
equal up to positions, end alike: with values equal up to positions, the same problem at the same token, the same error or
the same fault.  In every case they leave sessions equal up to positions: the same has been printed, and the same names are
bound to the same things. -/
theorem run_layout {source source' : Source} {tokens tokens' : List Token} (h : Scan.tokens source = .ok tokens)
    (h' : Scan.tokens source' = .ok tokens') (hlex : tokens.map Token.lexeme = tokens'.map Token.lexeme)
    {s s' : Session} (hs : s.bare = s'.bare) (name : String) :
    Ending.Alike tokens tokens' (s.run name source).1 (s'.run name source').1 ∧
      (s.run name source).2.bare = (s'.run name source').2.bare ∧
      (s.run name source).2.world.output = (s'.run name source').2.world.output ∧
      ((s.run name source).2.bindings.map fun b => (b.1, b.2.bare)) =
        (s'.run name source').2.bindings.map fun b => (b.1, b.2.bare) := by
  obtain ⟨hending, hsession⟩ := run_alike h h' hlex hs name
  have hbindings := Session.bindings_relocate (fun _ => .forgotten) (s.run name source).2
  have hbindings' := Session.bindings_relocate (fun _ => .forgotten) (s'.run name source').2
  have houtput : (s.run name source).2.bare.world.output = (s'.run name source').2.bare.world.output := by
    rw [hsession]
  refine ⟨hending, hsession, houtput, ?_⟩
  exact hbindings.symm.trans ((congrArg Session.bindings hsession).trans hbindings')

/-- Two sources that differ in their name, in blanks and tabs, in the marks between statements, in quotes and in zeros. -/
def wideSource : Source := ⟨"wide", "var  x\t= 007;  print ( 'a' ) ;"⟩

def tightSource : Source := ⟨"tight", "var x=7\nprint(\"a\")\n"⟩

theorem run_layout_wide_tight : ∃ tokens tokens', Scan.tokens wideSource = .ok tokens ∧
    Scan.tokens tightSource = .ok tokens' ∧ tokens.map Token.lexeme = tokens'.map Token.lexeme ∧
    ∀ s : Session, Ending.Alike tokens tokens' (s.run "main" wideSource).1 (s.run "main" tightSource).1 ∧
      (s.run "main" wideSource).2.bare = (s.run "main" tightSource).2.bare := by
  have hwide : (Scan.tokens wideSource).map (·.map Token.lexeme) = .ok [.keyword .var, .name "x", .symbol .equals,
      .numeral (.whole 7), .newline, .name "print", .symbol .openParen, .string "a", .symbol .closeParen, .newline,
      .eof] := by cbv
  have htight : (Scan.tokens tightSource).map (·.map Token.lexeme) = .ok [.keyword .var, .name "x", .symbol .equals,
      .numeral (.whole 7), .newline, .name "print", .symbol .openParen, .string "a", .symbol .closeParen, .newline,
      .eof] := by cbv
  cases h : Scan.tokens wideSource with
  | error e =>
    rw [h] at hwide
    cases hwide
  | ok tokens =>
    cases h' : Scan.tokens tightSource with
    | error e =>
      rw [h'] at htight
      cases htight
    | ok tokens' =>
      rw [h] at hwide
      rw [h'] at htight
      have hlex : tokens.map Token.lexeme = tokens'.map Token.lexeme := by
        have heq := hwide.trans htight.symm
        injection heq
      refine ⟨tokens, tokens', rfl, rfl, hlex, fun s => ?_⟩
      obtain ⟨hending, hsession, -, -⟩ := run_layout h h' hlex (rfl : s.bare = s.bare) "main"
      exact ⟨hending, hsession⟩

end Scriptlet
