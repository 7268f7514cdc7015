import Backlog.World.Step

/-!
# Runs under a condition

What the client promises of its moves is a condition on the world in which a move is made.
A run keeps the condition if each of its moves does.
-/

namespace Backlog.World

/-- Every move is made in a world where `P` allows it. -/
def Along (P : World → Move → Prop) : World → List Move → Prop
  | _, [] => True
  | w, mv :: moves => P w mv ∧ Along P (w.step mv) moves

/-- The worlds that moves lead to which `P` allows. -/
def ReachableBy (P : World → Move → Prop) (w : World) : Prop :=
  ∃ now moves, (start now).Along P moves ∧ w = (start now).run moves

theorem ReachableBy.reachable {P : World → Move → Prop} {w : World} (h : ReachableBy P w) :
    Reachable w := by
  obtain ⟨now, moves, -, hw⟩ := h
  exact ⟨now, moves, hw⟩

theorem along_true (w : World) (moves : List Move) : w.Along (fun _ _ => True) moves := by
  induction moves generalizing w with
  | nil => trivial
  | cons mv moves ih => exact ⟨trivial, ih _⟩

theorem Along.and {P Q : World → Move → Prop} {w : World} {moves : List Move}
    (hp : w.Along P moves) (hq : w.Along Q moves) : w.Along (fun w mv => P w mv ∧ Q w mv) moves := by
  induction moves generalizing w with
  | nil => trivial
  | cons mv moves ih => exact ⟨⟨hp.1, hq.1⟩, ih hp.2 hq.2⟩

theorem Along.mono {P Q : World → Move → Prop} (hpq : ∀ w mv, P w mv → Q w mv) {w : World}
    {moves : List Move} (h : w.Along P moves) : w.Along Q moves := by
  induction moves generalizing w with
  | nil => trivial
  | cons mv moves ih => exact ⟨hpq w mv h.1, ih h.2⟩

theorem along_append {P : World → Move → Prop} {w : World} {ms ns : List Move} :
    w.Along P (ms ++ ns) ↔ w.Along P ms ∧ (w.run ms).Along P ns := by
  induction ms generalizing w with
  | nil => simp [Along]
  | cons mv ms ih => simp only [List.cons_append, Along, ih, run_cons, and_assoc]

/-- What an allowed move keeps is kept by a run of them. -/
theorem Along.run {P : World → Move → Prop} {I : World → Prop}
    (step : ∀ w mv, I w → P w mv → I (w.step mv)) {w : World} {moves : List Move}
    (h : w.Along P moves) (hi : I w) : I (w.run moves) := by
  induction moves generalizing w with
  | nil => exact hi
  | cons mv moves ih => exact ih h.2 (step w mv hi h.1)

/-- What holds at the start and is kept by every allowed move holds wherever they lead. -/
theorem ReachableBy.induction {P : World → Move → Prop} {I : World → Prop}
    (start : ∀ now, I (start now)) (step : ∀ w mv, I w → P w mv → I (w.step mv)) {w : World}
    (h : ReachableBy P w) : I w := by
  obtain ⟨now, moves, ha, rfl⟩ := h
  exact ha.run step (start now)

end Backlog.World
