import Scriptlet.Proofs.Conduct.Ensures
/-!
# The faults of arithmetic

An operation on scalars, the text of a value and the filling of a template can end in a fault, but never in an internal one.
-/
namespace Scriptlet

/-! ## Conversions -/

theorem Text.toInt_ordinary (s : String) : Ordinary (Text.toInt s) := by
  unfold Text.toInt
  simp only
  split
  · exact .error rfl
  · exact .ite (.error rfl) (.ok _)

theorem Text.ofInt_ordinary (n : Int) : Ordinary (Text.ofInt n) := .ite (.ok _) (.error rfl)

namespace Scalar

theorem toFloat_ordinary (n : Int) : Ordinary (toFloat n) := by
  unfold toFloat
  split
  · exact .ok _
  · exact .error rfl

theorem toText_ordinary (x : Scalar) : Ordinary x.toText := by
  cases x with
  | int n => exact Text.ofInt_ordinary n
  | _ => exact .ok _

theorem toInt_ordinary (x : Scalar) : Ordinary x.toInt := by
  cases x with
  | int n => exact .ok n
  | float x => exact .ite (.error rfl) (.ite (.error rfl) (.ok _))
  | complex z => exact .error rfl
  | text s => exact Text.toInt_ordinary s

theorem toComplex_ordinary (x : Scalar) : Ordinary x.toComplex := by
  cases x with
  | int n => exact .bind (toFloat_ordinary n) fun _ => .ok _
  | text s => exact .error rfl
  | _ => exact .ok _

theorem operands_ordinary (x y : Scalar) : Ordinary (operands x y) := by
  unfold operands
  split
  · exact .error rfl
  · exact .error rfl
  · exact .ok _
  · exact .bind (toFloat_ordinary _) fun _ => .ok _
  · exact .bind (toFloat_ordinary _) fun _ => .ok _
  · exact .ok _
  · exact .bind (toComplex_ordinary _) fun _ => .bind (toComplex_ordinary _) fun _ => .ok _

theorem realOperands_ordinary (x y : Scalar) : Ordinary (realOperands x y) := by
  unfold realOperands
  split
  · exact .ok _
  · exact .bind (toFloat_ordinary _) fun _ => .ok _
  · exact .bind (toFloat_ordinary _) fun _ => .ok _
  · exact .ok _
  · exact .error rfl

theorem copies_ordinary {tooLong : Fault} (h : tooLong.isInternal = false) (size : Nat) (n : Int) :
    Ordinary (copies tooLong size n) :=
  .ite (.error rfl) (.ite (.error h) (.ite (.error rfl) (.ite (.ok _) (.ok _))))

theorem repeatText_ordinary (s : String) (y : Scalar) : Ordinary (repeatText s y) := by
  cases y with
  | int n => exact .bind (copies_ordinary rfl _ n) fun _ => .ok _
  | _ => exact .error rfl

end Scalar

namespace Complex

theorem div_ordinary (a b : Complex) : Ordinary (a.div b) :=
  .ite (.ite (.error rfl) (.ok _)) (.ite (.ok _) (.ok _))

theorem powGeneral_ordinary (a b : Complex) : Ordinary (a.powGeneral b) :=
  .ite (.ok _) (.ite (.ite (.ok _) (.error rfl)) (.ite (.error rfl) (.ok _)))

theorem pow_ordinary (a b : Complex) : Ordinary (a.pow b) := by
  have hfinite : ∀ p : Complex, Ordinary (if p.re.isInf || p.im.isInf then .error .outOfRange else .ok p) :=
    fun p => .ite (.error rfl) (.ok _)
  exact .ite (.ite (hfinite _) (.bind (div_ordinary _ _) hfinite)) (.bind (powGeneral_ordinary a b) hfinite)

end Complex

/-! ## Templates -/

namespace Template

/-- A step of filling a template that never ends in an internal fault. -/
def OrdinaryFilling {α : Type} (m : Filling α) : Prop := ∀ r, Ordinary (m.run r)

section Filling

variable {α β : Type}

theorem OrdinaryFilling.pure (a : α) : OrdinaryFilling (Pure.pure a : Filling α) := fun _ => .ok _

theorem OrdinaryFilling.throw {f : Fault} (h : f.isInternal = false) : OrdinaryFilling (throw f : Filling α) :=
  fun _ => .error h

theorem OrdinaryFilling.bind {m : Filling α} {f : α → Filling β} (hm : OrdinaryFilling m)
    (hf : ∀ a, OrdinaryFilling (f a)) : OrdinaryFilling (m >>= f) :=
  fun r => .bind (hm r) fun a => hf a.1 a.2

theorem OrdinaryFilling.get_bind {f : Rest → Filling β} (hf : ∀ r, OrdinaryFilling (f r)) :
    OrdinaryFilling (get >>= f) := fun r => hf r r

theorem OrdinaryFilling.set_bind (r : Rest) {f : PUnit → Filling β} (hf : OrdinaryFilling (f ⟨⟩)) :
    OrdinaryFilling (set r >>= f) := fun _ => hf r

theorem OrdinaryFilling.lift {x : Except Fault α} (hx : Ordinary x) : OrdinaryFilling (liftM x : Filling α) :=
  fun _ => .bind hx fun _ => .ok _

end Filling

theorem takeArgument_ordinary : OrdinaryFilling takeArgument := by
  refine .get_bind fun r => ?_
  split
  · exact .set_bind _ (.pure _)
  · exact .throw rfl

theorem takeWhile_ordinary (test : Char → Bool) : OrdinaryFilling (takeWhile test) :=
  .get_bind fun _ => .set_bind _ (.pure _)

theorem takeIf_ordinary (test : Char → Bool) : OrdinaryFilling (takeIf test) := by
  refine .get_bind fun r => ?_
  split
  · split
    · exact .set_bind _ (.pure _)
    · exact .pure _
  · exact .pure _

theorem takeLetter_ordinary : OrdinaryFilling takeLetter := by
  refine .get_bind fun r => ?_
  split
  · exact .set_bind _ (.pure _)
  · exact .throw rfl

theorem takeMeasure_ordinary (bound : Nat) : OrdinaryFilling (takeMeasure bound) := by
  refine .bind (takeIf_ordinary _) fun star => ?_
  cases star with
  | true =>
    refine .bind takeArgument_ordinary fun x => ?_
    split
    · split
      · exact .throw rfl
      · exact .pure _
    · exact .throw rfl
  | false =>
    refine .bind (takeWhile_ordinary _) fun digits => ?_
    simp only
    split
    · exact .pure _
    · split
      · exact .pure _
      · exact .throw rfl

theorem takePlace_ordinary : OrdinaryFilling takePlace := by
  refine .bind (takeWhile_ordinary _) fun flags => .bind (takeMeasure_ordinary _) fun width => ?_
  refine .bind (takeIf_ordinary _) fun dot => ?_
  have hrest : ∀ precision : Option Nat, OrdinaryFilling (do
      let _ ← takeIf ['h', 'l', 'L'].contains
      return (⟨flags.contains '-' || (width.getD 0) < 0, flags.contains '+', flags.contains ' ', flags.contains '#',
        flags.contains '0', (width.getD 0).natAbs, precision⟩ : Place)) :=
    fun precision => .bind (takeIf_ordinary _) fun _ => .pure _
  cases dot with
  | true => exact .bind (takeMeasure_ordinary _) fun n => hrest _
  | false => exact hrest _

namespace Place

variable (p : Place)

theorem fill_ordinary (zeros : Bool) (lead body : String) : Ordinary (p.fill zeros lead body) := by
  unfold Place.fill
  exact .ite (.error rfl) (.ite (.ok _) (.ite (.ok _) (.ok _)))

theorem word_ordinary (s : String) : Ordinary (p.word s) := p.fill_ordinary _ _ _

theorem integer_ordinary (mark : String) {digits : Nat → Except Fault (List Char)} (h : ∀ n, Ordinary (digits n))
    (n : Int) : Ordinary (p.integer mark digits n) :=
  .ite (.error rfl) (.bind (h _) fun _ => p.fill_ordinary _ _ _)

theorem decimal_ordinary (n : Int) : Ordinary (p.decimal n) :=
  p.integer_ordinary _ (fun _ => .bind (Text.ofInt_ordinary _) fun _ => .ok _) n

theorem based_ordinary (mark : String) (digits : Nat → List Char) (x : Scalar) : Ordinary (p.based mark digits x) := by
  cases x with
  | int n => exact p.integer_ordinary mark (fun _ => .ok _) n
  | _ => exact .error rfl

theorem real_ordinary (style : Binary64.Style) (letters : String → String) (x : Scalar) :
    Ordinary (p.real style letters x) := by
  cases x with
  | int n => exact .bind (Scalar.toFloat_ordinary n) fun _ => p.fill_ordinary _ _ _
  | float x => exact p.fill_ordinary _ _ _
  | _ => exact .error rfl

theorem character_ordinary (x : Scalar) : Ordinary (p.character x) := by
  cases x with
  | int n => exact .ite (.error rfl) (p.fill_ordinary _ _ _)
  | text s => exact .ite (p.fill_ordinary _ _ _) (.error rfl)
  | _ => exact .error rfl

theorem literal_ordinary (shown : Char → Bool) (x : Scalar) : Ordinary (p.literal shown x) := by
  cases x with
  | text s => exact p.word_ordinary _
  | _ => exact .bind (Scalar.toText_ordinary _) fun _ => p.word_ordinary _

theorem whole_ordinary (x : Scalar) : Ordinary (whole x) := by
  cases x with
  | text s => exact .error rfl
  | int n => exact Scalar.toInt_ordinary (.int n)
  | float x => exact Scalar.toInt_ordinary (.float x)
  | complex z => exact Scalar.toInt_ordinary (.complex z)

theorem convert_ordinary (letter : Char) (x : Scalar) : Ordinary (p.convert letter x) := by
  have hdecimal : Ordinary (do p.decimal (← whole x)) := .bind (whole_ordinary x) p.decimal_ordinary
  unfold convert
  split
  · exact .bind (Scalar.toText_ordinary x) fun _ => p.word_ordinary _
  all_goals first
    | exact hdecimal
    | exact p.literal_ordinary _ x
    | exact p.based_ordinary _ _ x
    | exact p.real_ordinary _ _ x
    | exact p.character_ordinary x
    | exact .error rfl

end Place

theorem fillMark_ordinary : OrdinaryFilling fillMark := by
  refine .get_bind fun r => ?_
  split
  · exact .bind takeLetter_ordinary fun _ => .pure _
  · exact .throw rfl
  · refine .bind takePlace_ordinary fun place => .bind takeLetter_ordinary fun letter => ?_
    exact .bind takeArgument_ordinary fun x => .lift (place.convert_ordinary letter x)

theorem fillFrom_ordinary : ∀ fuel : Nat, OrdinaryFilling (fillFrom fuel)
  | 0 => .pure _
  | fuel + 1 => by
    refine .bind (takeWhile_ordinary _) fun plain => .bind (takeIf_ordinary _) fun mark => ?_
    cases mark with
    | true => exact .bind fillMark_ordinary fun filled => .bind (fillFrom_ordinary fuel) fun _ => .pure _
    | false => exact .pure _

theorem fill_ordinary (template : String) (x : Scalar) : Ordinary (fill template x) :=
  .bind (fillFrom_ordinary _ _) fun _ => .ite (.error rfl) (.ok _)

end Template

/-! ## Operators -/

namespace Scalar

theorem add_ordinary (x y : Scalar) : Ordinary (x.add y) := by
  cases x <;> cases y
  case text.text => exact .ok _
  all_goals
    refine .bind (operands_ordinary _ _) fun o => ?_
    cases o <;> exact .ok _

theorem sub_ordinary (x y : Scalar) : Ordinary (x.sub y) := by
  refine .bind (operands_ordinary x y) fun o => ?_
  cases o <;> exact .ok _

theorem mul_ordinary (x y : Scalar) : Ordinary (x.mul y) := by
  unfold mul
  split
  · exact .bind (repeatText_ordinary _ _) fun _ => .ok _
  · exact .bind (repeatText_ordinary _ _) fun _ => .ok _
  · refine .bind (operands_ordinary _ _) fun o => ?_
    cases o <;> exact .ok _

theorem div_ordinary (x y : Scalar) : Ordinary (x.div y) := by
  refine .bind (operands_ordinary x y) fun o => ?_
  cases o with
  | ints a b =>
    simp only
    split
    · exact .ok _
    · exact .error rfl
  | floats a b => exact .ok _
  | complexes a b => exact .bind (Complex.div_ordinary a b) fun _ => .ok _

theorem floorDiv_ordinary (x y : Scalar) : Ordinary (x.floorDiv y) := by
  refine .bind (realOperands_ordinary x y) fun o => ?_
  cases o <;> exact .ok _

theorem mod_ordinary (x y : Scalar) : Ordinary (x.mod y) := by
  unfold mod
  split
  · exact .bind (Template.fill_ordinary _ _) fun _ => .ok _
  · refine .bind (realOperands_ordinary _ _) fun o => ?_
    cases o <;> exact .ite (.error rfl) (.ok _)

theorem floatPow_ordinary (x y : Float) : Ordinary (floatPow x y) := by
  refine .ite (.ok _) (.ite (.ok _) (.ite (.ok _) (.ite (.ite (.ok _) (.ite (.ok _) (.ok _))) ?_)))
  refine .ite (.ite (.ok _) (.ok _)) (.ite (.ite (.error rfl) (.ok _)) ?_)
  exact .ite (.bind (Complex.pow_ordinary _ _) fun _ => .ok _) (.ite (.error rfl) (.ok _))

theorem intPow_ordinary (a : Int) (n : Nat) : Ordinary (intPow a n) :=
  .ite (.ok _) (.ite (.error rfl) (.ok _))

theorem pow_ordinary (x y : Scalar) : Ordinary (x.pow y) := by
  refine .bind (operands_ordinary x y) fun o => ?_
  cases o with
  | ints a b =>
    refine .ite (.bind (intPow_ordinary _ _) fun _ => .ok _) ?_
    exact .bind (toFloat_ordinary a) fun _ => .bind (toFloat_ordinary b) fun _ => floatPow_ordinary _ _
  | floats a b => exact floatPow_ordinary a b
  | complexes a b => exact .bind (Complex.pow_ordinary a b) fun _ => .ok _

theorem order_ordinary (x y : Scalar) : Ordinary (x.order y) := by
  unfold order
  split
  all_goals first | exact .ok _ | exact .error rfl

theorem lt_ordinary (x y : Scalar) : Ordinary (x.lt y) := .bind (order_ordinary x y) fun _ => .ok _

theorem gt_ordinary (x y : Scalar) : Ordinary (x.gt y) := .bind (order_ordinary x y) fun _ => .ok _

theorem le_ordinary (x y : Scalar) : Ordinary (x.le y) := .bind (order_ordinary x y) fun _ => .ok _

theorem ge_ordinary (x y : Scalar) : Ordinary (x.ge y) := .bind (order_ordinary x y) fun _ => .ok _

end Scalar

theorem BinaryOp.onScalars_ordinary (op : BinaryOp) (x y : Scalar) : Ordinary (op.onScalars x y) := by
  cases op with
  | add => exact Scalar.add_ordinary x y
  | sub => exact Scalar.sub_ordinary x y
  | mul => exact Scalar.mul_ordinary x y
  | mod => exact Scalar.mod_ordinary x y
  | div => exact Scalar.div_ordinary x y
  | floorDiv => exact Scalar.floorDiv_ordinary x y
  | pow => exact Scalar.pow_ordinary x y
  | eq | ne => exact .ok _
  | lt => exact .bind (Scalar.lt_ordinary x y) fun _ => .ok _
  | gt => exact .bind (Scalar.gt_ordinary x y) fun _ => .ok _
  | le => exact .bind (Scalar.le_ordinary x y) fun _ => .ok _
  | ge => exact .bind (Scalar.ge_ordinary x y) fun _ => .ok _
  | and | or => exact .bind (Scalar.toInt_ordinary _) fun _ => .ok _

/-! ## Values -/

theorem Datum.payload_ordinary (d : Datum) : Ordinary d.payload := by
  cases d with
  | null | number _ | string _ => exact .ok _
  | _ => exact .error rfl

theorem Value.repeatItems_ordinary (items : Array Datum) (y : Scalar) : Ordinary (Value.repeatItems items y) := by
  cases y with
  | int n => exact .bind (Scalar.copies_ordinary rfl _ n) fun _ => .ok _
  | _ => exact .error rfl

theorem World.text_ordinary (w : World) (depth : Nat) (d : Datum) : Ordinary (w.text depth d) := by
  induction depth generalizing d with
  | zero => exact .error rfl
  | succ depth ih =>
    cases d with
    | number x => exact Scalar.toText_ordinary x
    | list cell =>
      have hall : ∀ ds : List Datum, Ordinary (ds.mapM (w.text depth)) := by
        intro ds
        induction ds with
        | nil => exact .ok _
        | cons d ds hds =>
          rw [List.mapM_cons]
          exact .bind (ih d) fun _ => .bind hds fun _ => .ok _
      exact .bind (hall _) fun _ => .ok _
    | _ => exact .ok _

end Scriptlet
