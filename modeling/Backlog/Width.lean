/-!
# Arithmetic that sees its intermediate results

Times and delays are exact integers. A formula over them is written once, with a rule
that receives every intermediate result together with the width of the word that has to
hold it. Run with `exactly` the formula computes; run with `checked` it fails as soon as
one result does not fit.
-/

namespace Backlog

/-- The widths of the signed words that hold results. -/
inductive Width where
  | narrow
  | wide
  deriving DecidableEq, Repr

namespace Width

/-- The greatest number a word holds. -/
def greatest : Width → Int
  | .narrow => 2147483647
  | .wide => 9223372036854775807

/-- The numbers a word holds reach one further below zero than above. -/
def Holds (w : Width) (n : Int) : Prop := -w.greatest - 1 ≤ n ∧ n ≤ w.greatest

instance (w : Width) (n : Int) : Decidable (w.Holds n) :=
  inferInstanceAs (Decidable (_ ∧ _))

end Width

/-- A rule for intermediate results. -/
abbrev Keep (m : Type → Type) := Width → Int → m Int

/-- Every result passes. -/
def exactly : Keep Id := fun _ n => n

/-- Only a result that fits its word passes. -/
def checked : Keep Option := fun w n => if w.Holds n then some n else none

@[simp] theorem exactly_apply (w : Width) (n : Int) : exactly w n = n := rfl

@[simp] theorem checked_eq_some {w : Width} {n k : Int} :
    checked w n = some k ↔ w.Holds n ∧ n = k := by
  by_cases h : w.Holds n <;> simp [checked, h]

theorem checked_of_holds {w : Width} {n : Int} (h : w.Holds n) : checked w n = some n := by
  simp [h]

/-- A rule is lenient if it lets every result pass that fits its word. Where all results fit, a
formula comes to the same with every such rule. -/
def Keep.Lenient {m : Type → Type} [Monad m] (keep : Keep m) : Prop :=
  ∀ ⦃w n⦄, w.Holds n → keep w n = pure n

theorem lenient_exactly : Keep.Lenient exactly := fun _ _ _ => rfl

theorem lenient_checked : Keep.Lenient checked := fun _ _ => checked_of_holds

end Backlog
