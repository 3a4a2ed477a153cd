/-!
# Repetition by doubling

Many copies of one thing joined together: the copies of a text or a list, the factors of a power.  The copies are doubled
along the binary digits of their number, so that few joins are made even for a large number.
-/
namespace Scriptlet.Repetition

/-- Joins `n` copies of `unit` to `done`, for an `n` of at most `digits` binary digits. -/
def onto {α : Type} (join : α → α → α) : (digits n : Nat) → (unit done : α) → α
  | 0, _, _, done => done
  | digits + 1, n, unit, done =>
    if n = 0 then done
    else
      let done := if n % 2 = 1 then join done unit else done
      if n = 1 then done else onto join digits (n / 2) (join unit unit) done

/-- Joins `n` copies of `unit` to `empty`. -/
def times {α : Type} (join : α → α → α) (empty : α) (n : Nat) (unit : α) : α := onto join (n.log2 + 1) n unit empty

end Scriptlet.Repetition
