import Mathlib.Data.Nat.ModEq
import Mathlib.Logic.Function.Basic

/- A circular array of cap cells and the run of count cells that begins at start. -/
namespace Ring
variable {α : Type*} {cap : Nat} [NeZero cap]

/-- The cells at start, start + 1, .., start + count - 1, modulo cap. -/
def segment (cells : Fin cap → α) (start : Nat) : Nat → List α
  | 0 => []
  | count + 1 => segment cells start count ++ [cells (Fin.ofNat cap (start + count))]

theorem apart_of_lt {start i j : Nat} (before : i < j) (within : j < cap) :
    Fin.ofNat cap (start + i) ≠ Fin.ofNat cap (start + j) := by
  intro same
  have same := congrArg Fin.val same
  simp only [Fin.val_ofNat] at same
  have shifted : i % cap = j % cap := Nat.ModEq.add_left_cancel' start same
  rw [Nat.mod_eq_of_lt (by omega), Nat.mod_eq_of_lt within] at shifted
  omega

theorem segment_update (cells : Fin cap → α) (start j : Nat) (a : α) (within : j < cap) :
    ∀ {count}, count ≤ j →
      segment (Function.update cells (Fin.ofNat cap (start + j)) a) start count =
        segment cells start count := by
  intro count
  induction count with
  | zero =>
    intro _
    rfl
  | succ count ih =>
    intro le
    simp only [segment]
    rw [ih (by omega), Function.update_of_ne (apart_of_lt (by omega) within)]

theorem segment_push (cells : Fin cap → α) (start count : Nat) (a : α) (room : count < cap) :
    segment (Function.update cells (Fin.ofNat cap (start + count)) a) start (count + 1) =
      segment cells start count ++ [a] := by
  simp only [segment]
  rw [segment_update cells start count a room (Nat.le_refl count), Function.update_self]

theorem segment_pop (cells : Fin cap → α) (start count : Nat) :
    segment cells start (count + 1) =
      cells (Fin.ofNat cap start) :: segment cells (start + 1) count := by
  induction count with
  | zero => rfl
  | succ count ih =>
    have last : start + 1 + count = start + (count + 1) := by omega
    rw [segment, ih]
    simp only [segment, List.cons_append, last]

/-- A segment depends on its start modulo cap only. -/
theorem segment_mod (cells : Fin cap → α) (start count : Nat) :
    segment cells (start % cap) count = segment cells start count := by
  induction count with
  | zero => rfl
  | succ count ih =>
    have cell : Fin.ofNat cap (start % cap + count) = Fin.ofNat cap (start + count) := by
      apply Fin.ext
      simp
    simp only [segment]
    rw [ih, cell]

end Ring
