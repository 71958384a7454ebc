import Mathlib.Algebra.GroupWithZero.Nat
import Mathlib.Data.Nat.Notation
import Mathlib.Tactic.TypeStar

/-!
# Packing in order

`packed size room l` is how many items of `l` go into `room` when they are put in one after the other until
one does not fit.
-/

namespace DagonFs.Lib.Packing

variable {α : Type*} (size : α → ℕ)

/-- The number of items from the front of the list that fit. -/
def packed : ℕ → List α → ℕ
  | _, [] => 0
  | room, a :: l => if size a ≤ room then packed (room - size a) l + 1 else 0

variable {size}

theorem packed_le_length (room : ℕ) (l : List α) : packed size room l ≤ l.length := by
  induction l generalizing room with
  | nil => exact Nat.le_refl _
  | cons a l ih =>
    rw [packed]
    split
    · exact Nat.succ_le_succ (ih _)
    · exact Nat.zero_le _

/-- All items fit when their sizes together do. -/
theorem packed_eq_length_iff {room : ℕ} {l : List α} :
    packed size room l = l.length ↔ (l.map size).sum ≤ room := by
  induction l generalizing room with
  | nil => simp [packed]
  | cons a l ih =>
    rw [packed, List.length_cons, List.map_cons, List.sum_cons]
    split
    · rw [Nat.add_right_cancel_iff, ih]
      omega
    · omega

theorem packed_pos_iff {room : ℕ} {a : α} {l : List α} :
    0 < packed size room (a :: l) ↔ size a ≤ room := by
  rw [packed]
  split
  · rename_i h
    exact iff_of_true (Nat.succ_pos _) h
  · rename_i h
    exact iff_of_false (Nat.lt_irrefl 0) h

/-- The first two fit when their sizes together do. -/
theorem two_le_packed {room : ℕ} {a b : α} {l : List α} (h : size a + size b ≤ room) :
    2 ≤ packed size room (a :: b :: l) := by
  rw [packed, if_pos (by omega), packed, if_pos (by omega)]
  omega

/-- An item that is packed fits by itself. -/
theorem size_le_of_lt_packed {room i : ℕ} {l : List α} {a : α} (hi : i < packed size room l)
    (hget : l[i]? = some a) : size a ≤ room := by
  induction l generalizing room i with
  | nil => cases hget
  | cons b l ih =>
    rw [packed] at hi
    split at hi
    · cases i with
      | zero =>
        obtain rfl := Option.some.inj hget
        assumption
      | succ i => exact Nat.le_trans (ih (Nat.lt_of_succ_lt_succ hi) hget) (Nat.sub_le _ _)
    · omega

/-- Two neighbours that do not fit together are not packed together. -/
theorem packed_le_of_pair {room i : ℕ} {l : List α} {a b : α} (ha : l[i]? = some a)
    (hb : l[i + 1]? = some b) (h : room < size a + size b) : packed size room l ≤ i + 1 := by
  induction l generalizing room i with
  | nil => cases ha
  | cons c l ih =>
    rw [packed]
    split
    · cases i with
      | zero =>
        obtain rfl := Option.some.inj ha
        cases l with
        | nil => cases hb
        | cons d l =>
          obtain rfl := Option.some.inj hb
          have hnone : packed size (room - size c) (d :: l) = 0 := if_neg (by omega)
          exact Nat.succ_le_succ (Nat.le_of_eq hnone)
      | succ i => exact Nat.succ_le_succ (ih ha hb (by omega))
    · exact Nat.zero_le _

end DagonFs.Lib.Packing
