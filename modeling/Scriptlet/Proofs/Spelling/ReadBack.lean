import Scriptlet.Proofs.Spelling.Phrases
/-!
# Trees are read back

The lexemes of an expressible tree are read to the tree, and so its text is: `parse_print`.

The proof is an induction on the tree.  Its hypothesis `ReadsBack` is about the lexemes of a tree in front of a closing
parenthesis or the end; a tree in parentheses is then an atom, and can stand in front of anything but an opening
parenthesis.  The tokens have no positions here, so the tree that is read has none either; a text with positions is read to a
tree that loses them to the same one, since readings follow one another.
-/
namespace Scriptlet

open Grammar Production Reading

/-- What stands after a whole expression: a closing parenthesis, or the end. -/
def isFinal (l : Lexeme) : Bool := l.isEof || l.isSymbol .closeParen

def ReadsBack (tokens : List Token) (n : Node) : Prop :=
  ∀ i j, Covers tokens i n.lexemes j → isFinal (Cursor.shown tokens j).lexeme = true →
    Accepts tokens .expression i n.bare j

theorem isFinal_cases {l : Lexeme} (h : isFinal l = true) : l = .eof ∨ l = .symbol .closeParen := by
  simpa [isFinal] using h

theorem continues_of_isFinal {l : Lexeme} (h : isFinal l = true) : continues l = false := by
  rcases isFinal_cases h with rfl | rfl <;> rfl

theorem Node.wrappedAll_eq_map (ns : List Node) : Node.wrappedAll ns = ns.map fun n => wrapped n.lexemes := by
  induction ns with
  | nil => rfl
  | cons n rest ih => rw [Node.wrappedAll, List.map_cons, ih]

section Parentheses

variable {tokens : List Token} {n : Node} (hn : ReadsBack tokens n)

include hn

/-- A tree in parentheses is an atom. -/
theorem wrapped_atomic : Atomic tokens (wrapped n.lexemes) n.bare where
  start := ⟨_, _, rfl, rfl, rfl, rfl⟩
  read := by
    intro i j h
    obtain ⟨k, hk, hclose⟩ := h.tail.split
    have hfinal : isFinal (Cursor.shown tokens k).lexeme = true := by
      rw [hclose.head]
      rfl
    have hj := hclose.tail.eq_of_nil
    subst hj
    exact accepts_parenthesised h.head (hn _ _ hk hfinal) hclose.head

theorem wrapped_expression {i j : Nat} (h : Covers tokens i (wrapped n.lexemes) j)
    (hnext : continues (Cursor.shown tokens j).lexeme = false) : Accepts tokens .expression i n.bare j :=
  (wrapped_atomic hn).phrase.expression h hnext

end Parentheses

/-! ## Atoms and operators -/

section Nodes

variable {tokens : List Token}

/-- An atom that begins with neither `not`, `var` nor a minus sign is an expression. -/
theorem readsBack_of_atom {n : Node} {x : Lexeme} {u : List Lexeme} (hlex : n.lexemes = x :: u) (hx : leads x = false)
    (hminus : x.isSymbol .minus = false)
    (h : ∀ i j, Covers tokens i n.lexemes j → isFinal (Cursor.shown tokens j).lexeme = true →
      Accepts tokens .atom i n.bare j) : ReadsBack tokens n := by
  intro i j hij hfinal
  have hatom := h i j hij hfinal
  rw [hlex] at hij
  have hstart := hij.head
  refine expression_of_atom hij.2.1 ?_ (continues_of_isFinal hfinal) ?_ hatom
  · rw [hstart]
    exact hx
  · rw [hstart]
    exact hminus

theorem readsBack_of_phrase {n : Node} (h : Phrase tokens n.lexemes n.bare) : ReadsBack tokens n := by
  intro i j hij hfinal
  exact h.expression hij (continues_of_isFinal hfinal)

section Spans

variable (hbare : ∀ i, (Cursor.shown tokens i).span = .forgotten)

include hbare

theorem readsBack_number (x : Numeral) (span : Span) : ReadsBack tokens (.number x span) :=
  readsBack_of_phrase (atomic_number hbare x).phrase

theorem readsBack_string (s : String) (span : Span) : ReadsBack tokens (.string s span) :=
  readsBack_of_phrase (atomic_string hbare s).phrase

theorem readsBack_access (name : Name) : ReadsBack tokens (.access name) :=
  readsBack_of_phrase (atomic_access hbare name.text).phrase

theorem readsBack_assign (name : Name) {value : Node} (hv : ReadsBack tokens value) :
    ReadsBack tokens (.assign name value) :=
  readsBack_of_phrase ((wrapped_atomic hv).phrase.assign hbare name.text)

theorem readsBack_unary {op : Token} (hop : (op.lexeme.isSymbol .minus || op.lexeme.isKeyword .not) = true)
    {operand : Node} (ho : ReadsBack tokens operand) : ReadsBack tokens (.unary op operand) := by
  rw [Bool.or_eq_true, Lexeme.isSymbol_iff, Lexeme.isKeyword_iff] at hop
  rcases hop with hminus | hnot
  · exact readsBack_of_phrase ((wrapped_atomic ho).opposite hbare op hminus)
  · exact readsBack_of_phrase ((wrapped_atomic ho).negation hbare op hnot)

end Spans

theorem readsBack_binary (ht : Ended tokens) {left right : Node} {op : Lexeme}
    (hop : (BinaryOp.ofLexeme? op).isSome = true) (hl : ReadsBack tokens left) (hr : ReadsBack tokens right) :
    ReadsBack tokens (.binary left op right) :=
  readsBack_of_phrase ((wrapped_atomic hl).binary ht hop (wrapped_atomic hr))

end Nodes

/-! ## Rows -/

section Rows

variable {tokens : List Token} (ht : Ended tokens) (hbare : ∀ i, (Cursor.shown tokens i).span = .forgotten)

/-- Trees in parentheses, with their lexemes. -/
def wrappedPhrases (ns : List Node) : List (List Lexeme × Node) := ns.map fun n => (wrapped n.lexemes, n.bare)

theorem map_fst_wrappedPhrases (ns : List Node) : (wrappedPhrases ns).map Prod.fst = Node.wrappedAll ns := by
  rw [wrappedPhrases, List.map_map, Node.wrappedAll_eq_map]
  rfl

theorem map_snd_wrappedPhrases (ns : List Node) :
    (wrappedPhrases ns).map Prod.snd = Node.relocateAll (fun _ => .forgotten) ns := by
  rw [wrappedPhrases, List.map_map, Node.relocateAll_eq_map]
  rfl

theorem phrase_of_mem_wrappedPhrases {ns : List Node} (hns : ∀ n ∈ ns, ReadsBack tokens n) :
    ∀ p ∈ wrappedPhrases ns, Phrase tokens p.1 p.2 := by
  intro p hp
  obtain ⟨n, hn, rfl⟩ := List.mem_map.1 hp
  exact (wrapped_atomic (hns n hn)).phrase

include ht

theorem readsBack_call {callee : Node} {arguments : List Node} (hc : ReadsBack tokens callee)
    (hargs : ∀ n ∈ arguments, ReadsBack tokens n) : ReadsBack tokens (.call callee arguments) := by
  have hcall := (wrapped_atomic hc).call ht (phrase_of_mem_wrappedPhrases hargs)
  rw [map_fst_wrappedPhrases, map_snd_wrappedPhrases] at hcall
  exact readsBack_of_phrase hcall

include hbare in
theorem readsBack_list {items : List Node} (span : Span) (hitems : ∀ n ∈ items, ReadsBack tokens n) :
    ReadsBack tokens (.list items span) := by
  have hlist := atomic_list ht (phrase_of_mem_wrappedPhrases hitems) hbare
  rw [map_fst_wrappedPhrases, map_snd_wrappedPhrases] at hlist
  exact readsBack_of_phrase hlist.phrase

end Rows

/-! ## Bodies and choices -/

def Body.ReadsBack (tokens : List Token) : Body → Prop
  | .inline n => Scriptlet.ReadsBack tokens n
  | .block (.list items _) => items ≠ [] ∧ ∀ n ∈ items, Scriptlet.ReadsBack tokens n
  | .block _ => False

def Case.ReadsBack (tokens : List Token) : Case → Prop
  | .mk test body => Scriptlet.ReadsBack tokens test ∧ body.ReadsBack tokens

/-- What stands after the first branch of a choice. -/
def tailLexemes (otherwise : Option Body) (afterBlock : Bool) (more : List Case) : List Lexeme :=
  Case.moreLexemes more ++ (Body.elseLexemes otherwise ++ closing (endsInBlock otherwise afterBlock more))

/-- A branch of a choice ends in front of the lexeme. -/
def endsBranch (l : Lexeme) : Bool := isFinal l || l.isKeyword .elif || l.isKeyword .else_ || l.isKeyword .end_

theorem endsBranch_cases {l : Lexeme} (h : endsBranch l = true) :
    l = .eof ∨ l = .symbol .closeParen ∨ l = .keyword .elif ∨ l = .keyword .else_ ∨ l = .keyword .end_ := by
  simpa [endsBranch, isFinal, or_assoc] using h

theorem continues_of_endsBranch {l : Lexeme} (h : endsBranch l = true) : continues l = false := by
  rcases endsBranch_cases h with rfl | rfl | rfl | rfl | rfl <;> rfl

theorem starts_of_endsBranch {l : Lexeme} (h : endsBranch l = true) : l.starts = false := by
  rcases endsBranch_cases h with rfl | rfl | rfl | rfl | rfl <;> rfl

theorem ne_newline_of_endsBranch {l : Lexeme} (h : endsBranch l = true) : l ≠ .newline := by
  rintro rfl
  cases h

section Branches

variable {tokens : List Token} (ht : Ended tokens) (hbare : ∀ i, (Cursor.shown tokens i).span = .forgotten)

theorem endsBranch_tail {otherwise : Option Body} {afterBlock : Bool} {more : List Case} {i j : Nat}
    (h : Covers tokens i (tailLexemes otherwise afterBlock more) j)
    (hfinal : isFinal (Cursor.shown tokens j).lexeme = true) : endsBranch (Cursor.shown tokens i).lexeme = true := by
  cases more with
  | cons c rest =>
    rw [h.head]
    rfl
  | nil =>
    cases otherwise with
    | some b =>
      rw [h.head]
      rfl
    | none =>
      cases afterBlock with
      | true =>
        rw [h.head]
        rfl
      | false =>
        cases h.eq_of_nil
        rw [endsBranch, hfinal]
        rfl

include ht hbare

theorem block_accepted {items : List Node} (hne : items ≠ []) (hitems : ∀ n ∈ items, ReadsBack tokens n) {i j : Nat}
    (h : Covers tokens i (lines (Node.wrappedAll items)) j)
    (hends : endsBranch (Cursor.shown tokens j).lexeme = true) :
    Accepts tokens .statements i ⟨items.map Node.bare, .forgotten, 0⟩ j := by
  rw [← map_fst_wrappedPhrases] at h
  have hread := lines_accepted ht (phrase_of_mem_wrappedPhrases hitems) (mt List.map_eq_nil_iff.1 hne) h
    (starts_of_endsBranch hends) (ne_newline_of_endsBranch hends)
  rw [hbare, hbare, map_snd_wrappedPhrases, Node.relocateAll_eq_map] at hread
  exact hread

theorem body_accepted {b : Body} (hb : b.ReadsBack tokens) {i j : Nat}
    (h : Covers tokens i (b.lexemes ++ closing b.isBlock) j)
    (hnext : continues (Cursor.shown tokens j).lexeme = false) :
    FromDepth fun d => Reads (bodyForm (readAt d)) (.on tokens i) b.bare (.on tokens j) := by
  cases b with
  | inline n =>
    rw [Body.isBlock, closing, if_neg Bool.false_ne_true, List.append_nil] at h
    refine body_inline ?_ (wrapped_expression hb h hnext)
    rw [h.head]
    rfl
  | block n =>
    cases n with
    | list items span =>
      rw [Body.lexemes] at h
      obtain ⟨k, hblock, hend⟩ := h.split
      have hj := hend.tail.eq_of_nil
      subst hj
      have hread := block_accepted ht hbare hb.1 hb.2 hblock.tail (by rw [hend.head]; rfl)
      show FromDepth fun d => Reads (bodyForm (readAt d)) _ (.block (.list (Node.relocateAll _ items) .forgotten)) _
      rw [Node.relocateAll_eq_map]
      exact body_block hblock.head hread hend.head
    | _ => cases hb

theorem choiceFrom_accepted {otherwise : Option Body} {kw : Keyword} {c : Case} {more : List Case}
    (hc : c.ReadsBack tokens)
    (htail : (c.body.isBlock = true → more ≠ [] ∨ otherwise ≠ none) → ∀ i j,
      Covers tokens i (tailLexemes otherwise c.body.isBlock more) j → isFinal (Cursor.shown tokens j).lexeme = true →
      Accepts tokens .choiceTail i ⟨more.map Case.bare, otherwise.map Body.bare⟩ j) {i j : Nat}
    (h : Covers tokens i (.keyword kw :: (c.lexemes ++ tailLexemes otherwise c.body.isBlock more)) j)
    (hfinal : isFinal (Cursor.shown tokens j).lexeme = true) :
    FromDepth fun d => Reads (choiceFrom (readAt d) kw) (.on tokens i)
      ⟨c.bare, more.map Case.bare, otherwise.map Body.bare⟩ (.on tokens j) := by
  obtain ⟨test, body⟩ := c
  obtain ⟨hc, hb⟩ := hc
  obtain ⟨m, hcase, hrest⟩ := h.tail.split
  rw [Case.lexemes] at hcase
  obtain ⟨k, htest, hbody⟩ := hcase.split
  have hends := endsBranch_tail hrest hfinal
  have htest := wrapped_expression hc htest (by rw [hbody.head]; rfl)
  cases body with
  | inline n =>
    have hinline := wrapped_expression hb hbody.tail (continues_of_endsBranch hends)
    refine choiceFrom_inline h.head htest hbody.head ?_ hinline (htail (fun h => by cases h) m j hrest hfinal)
    rw [hbody.tail.head]
    rfl
  | block n =>
    cases n with
    | list items span =>
      have hlines := hbody.tail
      rw [Body.lexemes] at hlines
      have hblock := block_accepted ht hbare hb.1 hb.2 hlines.tail hends
      show FromDepth fun d => Reads (choiceFrom (readAt d) kw) _
        ⟨.mk test.bare (.block (.list (Node.relocateAll _ items) .forgotten)), _, _⟩ _
      rw [Node.relocateAll_eq_map]
      by_cases hlast : more = [] ∧ otherwise = none
      · -- Nothing follows, and the block is closed.
        obtain ⟨rfl, rfl⟩ := hlast
        have hj := hrest.tail.eq_of_nil
        subst hj
        exact choiceFrom_closed h.head htest hbody.head hlines.head hblock hrest.head
      · -- The keyword of the next branch ends the block.
        have hopen := Classical.not_and_iff_not_or_not.1 hlast
        refine choiceFrom_block h.head htest hbody.head hlines.head hblock ?_ (htail (fun _ => hopen) m j hrest hfinal)
        cases more with
        | cons c rest =>
          rw [hrest.head]
          rfl
        | nil =>
          cases otherwise with
          | some b =>
            rw [hrest.head]
            rfl
          | none => exact absurd ⟨rfl, rfl⟩ hlast
    | _ => cases hb

theorem tail_accepted {otherwise : Option Body} (ho : ∀ b ∈ otherwise, b.ReadsBack tokens) :
    ∀ {more : List Case} {afterBlock : Bool}, (∀ c ∈ more, c.ReadsBack tokens) →
      (afterBlock = true → more ≠ [] ∨ otherwise ≠ none) → ∀ i j,
      Covers tokens i (tailLexemes otherwise afterBlock more) j → isFinal (Cursor.shown tokens j).lexeme = true →
      Accepts tokens .choiceTail i ⟨more.map Case.bare, otherwise.map Body.bare⟩ j
  | [], afterBlock, _, hopen, i, j, h, hfinal => by
    cases otherwise with
    | some b =>
      refine tail_otherwise (by rw [h.head]; rfl) (accepts_else h.head ?_)
      exact body_accepted ht hbare (ho b rfl) h.tail (continues_of_isFinal hfinal)
    | none =>
      cases afterBlock with
      | true =>
        have hopen := hopen rfl
        simp at hopen
      | false =>
        have hj := h.eq_of_nil
        subst hj
        refine tail_otherwise ?_ (accepts_no_else ?_)
        all_goals rcases isFinal_cases hfinal with hl | hl <;> rw [hl] <;> rfl
  | c :: rest, afterBlock, hmore, _, i, j, h, hfinal => by
    have hc := hmore c List.mem_cons_self
    have hrest : ∀ d ∈ rest, d.ReadsBack tokens := fun d hd => hmore d (List.mem_cons_of_mem c hd)
    have hrow : Covers tokens i (.keyword .elif :: (c.lexemes ++ tailLexemes otherwise c.body.isBlock rest)) j := by
      simpa [tailLexemes, Case.moreLexemes, endsInBlock] using h
    exact tail_elif h.head (choiceFrom_accepted ht hbare hc (tail_accepted ho hrest) hrow hfinal)

theorem readsBack_choice {otherwise : Option Body} {first : Case} {more : List Case} (hf : first.ReadsBack tokens)
    (hm : ∀ c ∈ more, c.ReadsBack tokens) (ho : ∀ b ∈ otherwise, b.ReadsBack tokens) :
    ReadsBack tokens (.choice first more otherwise) := by
  refine readsBack_of_atom rfl rfl rfl fun i j h hfinal => ?_
  have hread := choiceFrom_accepted ht hbare hf (tail_accepted ht hbare ho hm) h hfinal
  show Accepts tokens .atom i (.choice first.bare (Case.relocateAll _ more) (Body.relocateOption _ otherwise)) j
  rw [Case.relocateAll_eq_map, Body.relocateOption_eq_map]
  exact accepts_atom_choice h.head (accepts_choice hread)

theorem readsBack_count (name : Name) {first last : Node} {step : Option Node} {body : Body}
    (hf : ReadsBack tokens first) (hl : ReadsBack tokens last) (hs : ∀ n ∈ step, ReadsBack tokens n)
    (hb : body.ReadsBack tokens) : ReadsBack tokens (.count name first last step body) := by
  refine readsBack_of_atom rfl rfl rfl fun i j h hfinal => accepts_atom_count h.head ?_
  rw [Node.lexemes] at h
  obtain ⟨k, hfirst, hto⟩ := h.tail.tail.tail.split
  obtain ⟨l, hlast, hrest⟩ := hto.tail.split
  obtain ⟨m, hstep, hdo⟩ := hrest.split
  have hnext := continues_of_isFinal hfinal
  have hbody := body_accepted ht hbare hb hdo.tail hnext
  have hfirst := wrapped_expression hf hfirst (by rw [hto.head]; rfl)
  cases step with
  | none =>
    have hm := hstep.eq_of_nil
    subst hm
    have hlast := wrapped_expression hl hlast (by rw [hdo.head]; rfl)
    have hread := accepts_count h.head h.tail.head h.tail.tail.head hfirst hto.head hlast hdo.head hbody
    rw [hbare] at hread
    exact hread
  | some n =>
    have hlast := wrapped_expression hl hlast (by rw [hstep.head]; rfl)
    have hby := wrapped_expression (hs n rfl) hstep.tail (by rw [hdo.head]; rfl)
    have hread := accepts_count_by h.head h.tail.head h.tail.tail.head hfirst hto.head hlast hstep.head hby hdo.head hbody
    rw [hbare] at hread
    exact hread

omit ht in
theorem parameter_piece (x : Name) :
    Piece tokens (fun _ => expectName .parameter) (fun _ => true) [.name x.text] x.bare := by
  intro i j h _
  have hj := h.tail.eq_of_nil
  subst hj
  refine .of_forall fun d => reads_expectName.2 ⟨h.head, ?_, (Cursor.next_on tokens i).symm⟩
  rw [Cursor.on_current, hbare]
  rfl

theorem parameters_accepted {names : List Name} {i j : Nat}
    (h : Covers tokens i (commaRow (names.map ([.name ·.text])) ++ [.symbol .closeParen]) j) :
    Reads parametersForm (.on tokens i) (names.map Name.bare) (.on tokens j) := by
  obtain ⟨k, hrow, hclose⟩ := h.split
  have hj := hclose.tail.eq_of_nil
  subst hj
  cases names with
  | nil =>
    have hk := hrow.eq_of_nil
    subst hk
    rw [parametersForm, reads_lexeme_bind, Cursor.on_current, hclose.head]
    show Reads (expectSymbol .closeParen .parameterOrClose >>= _) _ _ _
    rw [reads_expectSymbol_bind, Cursor.next_on]
    exact ⟨hclose.head, reads_pure.2 ⟨rfl, rfl⟩⟩
  | cons x xs =>
    have hx := parameter_piece hbare x
    have hps : ∀ p ∈ xs.map fun x => ([Lexeme.name x.text], x.bare),
        Piece tokens (fun _ => expectName .parameter) (fun _ => true) p.1 p.2 := by
      intro p hp
      obtain ⟨y, _, rfl⟩ := List.mem_map.1 hp
      exact parameter_piece hbare y
    rw [List.map_cons, commaRow, List.flatMap_map] at hrow
    obtain ⟨d, hread⟩ := commaSeparated_accepted ht (fun _ => expectName_sound ht .parameter) rfl hx _ hps
      (i := i) (j := k) (by rw [List.flatMap_map]; exact hrow) rfl (by rw [hclose.head]; rfl)
    have hread := hread d (Nat.le_refl d)
    rw [List.map_map] at hread
    rw [parametersForm, reads_lexeme_bind, Cursor.on_current, hrow.head]
    refine reads_bind.2 ⟨_, _, hread, ?_⟩
    rw [reads_expectSymbol_bind, Cursor.next_on]
    exact ⟨hclose.head, reads_pure.2 ⟨rfl, rfl⟩⟩

/-- A function from its parameters on. -/
theorem functionRest_accepted (name : Option Name) {names : List Name} {body : Body} (hb : body.ReadsBack tokens)
    {i j : Nat} (h : Covers tokens i (commaRow (names.map ([.name ·.text])) ++ .symbol .closeParen ::
      (arrow body.isBlock ++ (body.lexemes ++ closing body.isBlock))) j)
    (hnext : continues (Cursor.shown tokens j).lexeme = false) :
    FromDepth fun d => Reads (functionRest (readAt d) name) (.on tokens i)
      (.function name (names.map Name.bare) body.bare) (.on tokens j) := by
  rw [List.append_cons] at h
  obtain ⟨k, hnames, hrest⟩ := h.split
  have hnames := parameters_accepted ht hbare hnames
  cases body with
  | inline n =>
    have hrest : Covers tokens k (.symbol .arrow :: (wrapped n.lexemes ++ [])) j := hrest
    rw [List.append_nil] at hrest
    exact functionRest_arrow hnames hrest.head (wrapped_expression hb hrest.tail hnext)
  | block n =>
    cases n with
    | list items span =>
      have hrest : Covers tokens k (.newline :: (lines (Node.wrappedAll items) ++ [.keyword .end_])) j := hrest
      obtain ⟨l, hlines, hend⟩ := hrest.tail.split
      have hj := hend.tail.eq_of_nil
      subst hj
      have hblock := block_accepted ht hbare hb.1 hb.2 hlines (by rw [hend.head]; rfl)
      show FromDepth fun d => Reads (functionRest (readAt d) name) _
        (.function name _ (.block (.list (Node.relocateAll _ items) .forgotten))) _
      rw [Node.relocateAll_eq_map]
      exact functionRest_block hnames hrest.head hblock hend.head
    | _ => cases hb

theorem readsBack_function (name : Option Name) (names : List Name) {body : Body} (hb : body.ReadsBack tokens) :
    ReadsBack tokens (.function name names body) := by
  refine readsBack_of_atom rfl rfl rfl fun i j h hfinal => accepts_atom_function h.head ?_
  have hnext := continues_of_isFinal hfinal
  rw [Node.lexemes] at h
  cases name with
  | none =>
    have hopen := h.tail
    exact accepts_unnamed h.head hopen.head (functionRest_accepted ht hbare none hb hopen.tail hnext)
  | some x =>
    have hx := h.tail
    have hread := functionRest_accepted ht hbare (some x.bare) hb hx.tail.tail hnext
    refine accepts_named h.head hx.head hx.tail.head ?_
    rw [hbare]
    exact hread

end Branches

/-! ## Every tree -/

mutual

theorem Node.readsBack {tokens : List Token} (ht : Ended tokens)
    (hbare : ∀ i, (Cursor.shown tokens i).span = .forgotten) :
    ∀ n : Node, n.isExpressible = true → ReadsBack tokens n
  | .number x span, _ => readsBack_number hbare x span
  | .string s span, _ => readsBack_string hbare s span
  | .list items span, h => readsBack_list ht hbare span (Node.readsBack_all ht hbare items h)
  | .access name, _ => readsBack_access hbare name
  | .assign name value, h => by
    rw [Node.isExpressible, Bool.and_eq_true] at h
    exact readsBack_assign hbare name (value.readsBack ht hbare h.2)
  | .binary left op right, h => by
    rw [Node.isExpressible, Bool.and_eq_true, Bool.and_eq_true] at h
    exact readsBack_binary ht h.1.2 (left.readsBack ht hbare h.1.1) (right.readsBack ht hbare h.2)
  | .unary op operand, h => by
    rw [Node.isExpressible, Bool.and_eq_true] at h
    exact readsBack_unary hbare h.1 (operand.readsBack ht hbare h.2)
  | .choice first more last, h => by
    rw [Node.isExpressible, Bool.and_eq_true, Bool.and_eq_true] at h
    exact readsBack_choice ht hbare (first.readsBack ht hbare h.1.1) (Case.readsBack_all ht hbare more h.1.2)
      (Body.readsBack_option ht hbare last h.2)
  | .count name first last step body, h => by
    simp only [Node.isExpressible, Bool.and_eq_true] at h
    obtain ⟨⟨⟨⟨_, hfirst⟩, hlast⟩, hstep⟩, hbody⟩ := h
    exact readsBack_count ht hbare name (first.readsBack ht hbare hfirst) (last.readsBack ht hbare hlast)
      (Node.readsBack_option ht hbare step hstep) (body.readsBack ht hbare hbody)
  | .function name parameters body, h => by
    rw [Node.isExpressible, Bool.and_eq_true] at h
    exact readsBack_function ht hbare name parameters (body.readsBack ht hbare h.2)
  | .call callee arguments, h => by
    rw [Node.isExpressible, Bool.and_eq_true] at h
    exact readsBack_call ht (callee.readsBack ht hbare h.1) (Node.readsBack_all ht hbare arguments h.2)
  | .loop _ _, h => by cases h
  | .lone _, h => by cases h

theorem Node.readsBack_all {tokens : List Token} (ht : Ended tokens)
    (hbare : ∀ i, (Cursor.shown tokens i).span = .forgotten) :
    ∀ ns : List Node, Node.allExpressible ns = true → ∀ n ∈ ns, ReadsBack tokens n
  | [], _ => fun n hn => by cases hn
  | n :: rest, h => by
    rw [Node.allExpressible, Bool.and_eq_true] at h
    have hn := n.readsBack ht hbare h.1
    have hrest := Node.readsBack_all ht hbare rest h.2
    intro m hm
    rcases List.mem_cons.1 hm with rfl | hm
    · exact hn
    · exact hrest m hm

theorem Node.readsBack_option {tokens : List Token} (ht : Ended tokens)
    (hbare : ∀ i, (Cursor.shown tokens i).span = .forgotten) :
    ∀ n? : Option Node, Node.optionExpressible n? = true → ∀ n ∈ n?, ReadsBack tokens n
  | none, _ => fun n hn => by cases hn
  | some n, h => by
    have hn := n.readsBack ht hbare h
    rintro m ⟨⟩
    exact hn

theorem Body.readsBack {tokens : List Token} (ht : Ended tokens)
    (hbare : ∀ i, (Cursor.shown tokens i).span = .forgotten) :
    ∀ b : Body, b.isExpressible = true → b.ReadsBack tokens
  | .inline n, h => n.readsBack ht hbare h
  | .block (.list items _), h => by
    rw [Body.isExpressible, Bool.and_eq_true] at h
    refine ⟨?_, Node.readsBack_all ht hbare items h.2⟩
    rintro rfl
    cases h.1
  | .block (.number _ _), h | .block (.string _ _), h | .block (.access _), h | .block (.assign _ _), h
  | .block (.binary _ _ _), h | .block (.unary _ _), h | .block (.choice _ _ _), h | .block (.count _ _ _ _ _), h
  | .block (.loop _ _), h | .block (.function _ _ _), h | .block (.call _ _), h | .block (.lone _), h => by cases h

theorem Body.readsBack_option {tokens : List Token} (ht : Ended tokens)
    (hbare : ∀ i, (Cursor.shown tokens i).span = .forgotten) :
    ∀ b? : Option Body, Body.optionExpressible b? = true → ∀ b ∈ b?, b.ReadsBack tokens
  | none, _ => fun b hb => by cases hb
  | some b, h => by
    have hb := b.readsBack ht hbare h
    rintro c ⟨⟩
    exact hb

theorem Case.readsBack {tokens : List Token} (ht : Ended tokens)
    (hbare : ∀ i, (Cursor.shown tokens i).span = .forgotten) :
    ∀ c : Case, c.isExpressible = true → c.ReadsBack tokens
  | .mk test body, h => by
    rw [Case.isExpressible, Bool.and_eq_true] at h
    exact ⟨test.readsBack ht hbare h.1, body.readsBack ht hbare h.2⟩

theorem Case.readsBack_all {tokens : List Token} (ht : Ended tokens)
    (hbare : ∀ i, (Cursor.shown tokens i).span = .forgotten) :
    ∀ cs : List Case, Case.allExpressible cs = true → ∀ c ∈ cs, c.ReadsBack tokens
  | [], _ => fun c hc => by cases hc
  | c :: rest, h => by
    rw [Case.allExpressible, Bool.and_eq_true] at h
    have hc := c.readsBack ht hbare h.1
    have hrest := Case.readsBack_all ht hbare rest h.2
    intro d hd
    rcases List.mem_cons.1 hd with rfl | hd
    · exact hc
    · exact hrest d hd

end

section Trees

variable {tokens : List Token} (ht : Ended tokens) (hbare : ∀ i, (Cursor.shown tokens i).span = .forgotten)

include ht hbare

/-- The lexemes of a tree, up to the end, are read as one statement. -/
theorem statement_accepted {n : Node} (hn : n.isExpressible = true) {j : Nat} (h : Covers tokens 0 n.lexemes j)
    (hend : (Cursor.shown tokens j).lexeme = .eof) :
    Accepts tokens .statements 0 ⟨[n.bare], .forgotten, 0⟩ j := by
  have hread := n.readsBack ht hbare hn 0 j h (by rw [hend]; rfl)
  refine hread.succ fun d hread => ?_
  -- A newline begins no expression.
  have hstart : (Cursor.shown tokens 0).lexeme ≠ .newline := by
    intro hline
    exact (readAt_refuses d .expression rfl).not_reads (by rw [Cursor.on_current, hline]; rfl) hread
  have hzero := reads_newlines_zero h.lt_length hstart
  have hzero' := reads_newlines_zero h.2.1 (by rw [hend]; simp)
  have hrow : Reads (repeating (nextStatement (readAt d)) ⟨[n.bare], 0, true⟩) (.on tokens j) ⟨[n.bare], 0, true⟩
      (.on tokens j) :=
    reads_repeating_none h.2.1 (reads_bind.2 ⟨0, _, hzero', reads_pure.2 ⟨rfl, rfl⟩⟩)
  show Reads (statementsForm (readAt d)) _ _ _
  rw [statementsForm, reads_current_bind, Cursor.on_current, hbare]
  refine reads_bind.2 ⟨0, _, hzero, reads_bind.2 ⟨n.bare, _, hread, reads_bind.2 ⟨_, _, hrow, ?_⟩⟩⟩
  rw [reads_current_bind, Cursor.on_current, hbare]
  exact reads_pure.2 ⟨rfl, rfl⟩

end Trees

/-! ## The text of a tree -/

theorem covers_all (ls : List Lexeme) : Covers (bareTokens (ls ++ [.eof])) 0 ls ls.length := by
  refine ⟨Nat.zero_le _, ?_, ?_⟩
  · simp [bareTokens]
  · rw [between, bareTokens, List.drop_zero, Nat.sub_zero, ← List.map_take, List.map_map, List.take_left]
    exact List.map_id ls

/-- **Every expressible tree can be written and read back**: whatever the source is called, and with enough depth, its text
is one statement, and the tree of this statement is the same up to positions. -/
theorem parse_print (t : Node) (ht : t.isExpressible = true) :
    ∃ depth, ∀ (limits : Limits) (name : String), depth ≤ limits.reading →
      ∃ n span, Parse.program limits ⟨name, t.print⟩ = .ok (.list [n] span) ∧ n.bare = t.bare := by
  have hscans := scans_print ht
  have hended : Ended (bareTokens (t.lexemes ++ [.eof])) := by
    refine Ended.of_lexemes (fun l hl => hscans.ne_eof l hl) ?_
    rw [bareTokens, List.map_map]
    exact List.map_id _
  have hcovers := covers_all t.lexemes
  have hlast : (Cursor.shown (bareTokens (t.lexemes ++ [.eof])) t.lexemes.length).lexeme = .eof := by
    refine hended.shown_last ?_
    simp [bareTokens]
  obtain ⟨depth, hread⟩ := statement_accepted hended (span_bareTokens (by simp)) ht hcovers hlast
  refine ⟨depth, fun limits name hdepth => ?_⟩
  have hprogram := reads_program.2 ⟨_, hread limits.reading hdepth, hlast, rfl⟩
  rw [← Cursor.start_eq_on] at hprogram
  have hscans : Scan.Scans (Source.mk name t.print).text.toList t.lexemes := hscans
  obtain ⟨tree, htree, hbare⟩ := (parse_bare_iff hscans).2 hprogram.1
  -- Only a list is a list without its positions.
  cases tree with
  | list items span =>
    obtain ⟨hitems, _⟩ := Node.list.inj hbare
    rw [Node.relocateAll_eq_map, List.map_eq_singleton_iff] at hitems
    obtain ⟨n, rfl, hn⟩ := hitems
    exact ⟨n, span, htree, hn⟩
  | _ => cases hbare

/-- A function with a block, in it a choice between a block and an expression. -/
def absoluteValue : Node :=
  let x : Node := .access ⟨"x", .forgotten⟩
  let isNegative : Node := .binary x (.symbol .less) (.number (.whole 0) .forgotten)
  let opposite : Node := .unary ⟨.symbol .minus, .forgotten⟩ x
  .function (some ⟨"abs", .forgotten⟩) [⟨"x", .forgotten⟩]
    (.block (.list [.choice (.mk isNegative (.block (.list [opposite] .forgotten))) [] (some (.inline x))] .forgotten))

theorem parse_print_absoluteValue : absoluteValue.isExpressible = true ∧
    ∃ depth, ∀ (limits : Limits) (name : String), depth ≤ limits.reading →
      ∃ n span, Parse.program limits ⟨name, absoluteValue.print⟩ = .ok (.list [n] span) ∧
        n.bare = absoluteValue.bare := by
  have h : absoluteValue.isExpressible = true := by decide +kernel
  exact ⟨h, parse_print absoluteValue h⟩

end Scriptlet
