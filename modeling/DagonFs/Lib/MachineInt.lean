import DagonFs.Lib.Collective
import Mathlib.Tactic.NormNum
import Mathlib.Tactic.Ring

/-!
# Fixed-width integers

The integer types of C++ as ranges of `ℤ`.  A conversion to an unsigned type of `w` bits reduces modulo
`2 ^ w` (`toUnsigned`), so unsigned arithmetic is exact arithmetic followed by this conversion; a
conversion to a signed type takes the congruent value of its range (`toSigned`).  Signed arithmetic
reduces nothing: outside the range of the type it is undefined (`signed`).

* `toSigned_toUnsigned`: narrowing does not see the reductions before it.
* `fillInts_eq`: a loop that fills arrays with a signed running offset fills them as the loop on numbers
  does, when the sum of all counts is in the range; `prefixSum_lt_of_exact` says that only then.
-/

namespace DagonFs.Lib.MachineInt

open DagonFs.Lib.Collective

/-- The range of a signed type of `w + 1` bits. -/
def InRange (w : ℕ) (x : ℤ) : Prop := -2 ^ w ≤ x ∧ x < 2 ^ w

instance (w : ℕ) (x : ℤ) : Decidable (InRange w x) := inferInstanceAs (Decidable (_ ∧ _))

/-- Conversion to an unsigned type of `w` bits. -/
def toUnsigned (w : ℕ) (x : ℤ) : ℕ := (x % 2 ^ w).toNat

/-- Conversion to a signed type of `w` bits. -/
def toSigned (w : ℕ) (x : ℤ) : ℤ := x.bmod (2 ^ w)

/-- The value of signed arithmetic in `w` bits. -/
def signed (w : ℕ) (x : ℤ) : Option ℤ := if InRange (w - 1) x then some x else none

variable {w w' : ℕ} {x : ℤ}

theorem toUnsigned_cast (w : ℕ) (x : ℤ) : (toUnsigned w x : ℤ) = x % 2 ^ w :=
  Int.toNat_of_nonneg (Int.emod_nonneg x (by positivity))

theorem toUnsigned_of_lt {k : ℕ} (h : k < 2 ^ w) : toUnsigned w k = k := by
  have hcast : ((k : ℤ) % 2 ^ w) = ((k % 2 ^ w : ℕ) : ℤ) := by push_cast; rfl
  rw [toUnsigned, hcast, Int.toNat_natCast, Nat.mod_eq_of_lt h]

theorem toUnsigned_mul_of_lt {j k : ℕ} (h : j * k < 2 ^ w) : toUnsigned w (j * k) = j * k := by
  rw [← Int.natCast_mul]
  exact toUnsigned_of_lt h

/-- Narrowing does not see an earlier reduction to a type that is at least as wide. -/
theorem toSigned_toUnsigned (h : w ≤ w') : toSigned w (toUnsigned w' x) = toSigned w x := by
  have hdvd : ((2 ^ w : ℕ) : ℤ) ∣ 2 ^ w' := by
    push_cast
    exact pow_dvd_pow 2 h
  rw [toSigned, toSigned, toUnsigned_cast, ← Int.emod_bmod (x % 2 ^ w'), Int.emod_emod_of_dvd x hdvd,
    Int.emod_bmod]

theorem toSigned_of_inRange (hw : 0 < w) (h : InRange (w - 1) x) : toSigned w x = x := by
  have hpow : (2 : ℤ) ^ w = 2 ^ (w - 1) * 2 := by rw [← pow_succ, Nat.sub_add_cancel hw]
  have hlo : -2 ^ (w - 1) ≤ x := h.1
  have hhi : x < 2 ^ (w - 1) := h.2
  apply Int.bmod_eq_of_le_mul_two
  · push_cast
    omega
  · push_cast
    omega

theorem signed_of_inRange (h : InRange (w - 1) x) : signed w x = some x := if_pos h

theorem signed_eq_some {y : ℤ} : signed w x = some y ↔ InRange (w - 1) x ∧ x = y := by
  unfold signed
  split
  · rename_i hrange
    simp [hrange]
  · rename_i hrange
    simp [hrange]

/-- A natural number below the bound is in the range. -/
theorem inRange_of_lt {k : ℕ} (h : k < 2 ^ w) : InRange w k := by
  have hpos : (0 : ℤ) < 2 ^ w := by positivity
  have hlt : (k : ℤ) < 2 ^ w := by exact_mod_cast h
  exact ⟨by omega, hlt⟩

/-! ### A running offset -/

/-- A `Layout` of signed integers. -/
structure IntLayout where
  counts : List ℤ
  displs : List ℤ
  offset : ℤ
  deriving DecidableEq

/-- The loop of `fillLayout`, with an offset of `w` bits. -/
def fillInts (w : ℕ) (count : ℕ → ℤ) : ℕ → Option IntLayout
  | 0 => some ⟨[], [], 0⟩
  | i + 1 =>
    (fillInts w count i).bind fun l =>
      (signed w (l.offset + count i)).map fun offset =>
        ⟨l.counts ++ [count i], l.displs ++ [l.offset], offset⟩

/-- The same numbers, as integers. -/
def ofLayout (l : Layout) : IntLayout := ⟨l.counts.map (↑), l.displs.map (↑), l.offset⟩

/-- The arrays for `n` ranks hold these counts, and their prefix sums. -/
structure IntLayout.Exact (n : ℕ) (count : ℕ → ℕ) (l : IntLayout) : Prop where
  counts : ∀ i < n, l.counts[i]? = some (count i : ℤ)
  displs : ∀ i < n, l.displs[i]? = some (prefixSum count i : ℤ)
  offset : l.offset = prefixSum count n

theorem ofLayout_exact (count : ℕ → ℕ) (n : ℕ) : (ofLayout (fillLayout count n)).Exact n count where
  counts i hi := by simp [ofLayout, fillLayout_counts count hi]
  displs i hi := by simp [ofLayout, fillLayout_displs count hi]
  offset := by simp [ofLayout]

variable {count : ℕ → ℤ} {count' : ℕ → ℕ} {n : ℕ}

theorem fillInts_eq (hcount : ∀ i < n, count i = count' i) (hsum : prefixSum count' n < 2 ^ (w - 1)) :
    fillInts w count n = some (ofLayout (fillLayout count' n)) := by
  induction n with
  | zero => rfl
  | succ n ih =>
    have hbefore : prefixSum count' n < 2 ^ (w - 1) :=
      (prefixSum_mono count' (Nat.le_succ n)).trans_lt hsum
    have hoffset : (prefixSum count' n : ℤ) + count' n = (prefixSum count' (n + 1) : ℕ) := by
      rw [prefixSum]
      push_cast
      rfl
    rw [fillInts, ih (fun i hi => hcount i (Nat.lt_succ_of_lt hi)) hbefore, Option.bind_some]
    simp only [ofLayout, fillLayout_offset]
    rw [hcount n (Nat.lt_succ_self n), hoffset, signed_of_inRange (inRange_of_lt hsum)]
    simp [fillLayout, prefixSum]

/-- An offset that the loop ends with is in the range. -/
theorem fillInts_offset {l : IntLayout} (h : fillInts w count n = some l) : l.offset < 2 ^ (w - 1) := by
  cases n with
  | zero =>
    cases h
    positivity
  | succ n =>
    obtain ⟨before, -, hlast⟩ := Option.bind_eq_some_iff.mp h
    obtain ⟨offset, hsigned, rfl⟩ := Option.map_eq_some_iff.mp hlast
    obtain ⟨hrange, rfl⟩ := signed_eq_some.mp hsigned
    exact hrange.2

theorem prefixSum_lt_of_exact {l : IntLayout} (h : fillInts w count n = some l)
    (hexact : l.Exact n count') : prefixSum count' n < 2 ^ (w - 1) := by
  have hlt := fillInts_offset h
  rw [hexact.offset] at hlt
  exact_mod_cast hlt

end DagonFs.Lib.MachineInt
