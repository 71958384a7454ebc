import Mathlib.Algebra.BigOperators.Group.Finset.Basic
import Mathlib.Algebra.Order.BigOperators.Group.Finset
import Mathlib.Data.List.Perm.Basic
import Mathlib.Tactic.Ring

/-!
# Counting the entries of ordered maps

`occurrences t p` counts the entries of a map whose value meets `p`; `total f n p` counts them over the
first `n` maps of a family.  The rules say how the counts change when one key is set or erased, in the
additive form (`new + lost = old + gained`) that arithmetic can use without subtraction.
-/

namespace DagonFs.Lib.EntryCount

open Std (ExtTreeMap TransOrd LawfulEqOrd)

variable {κ ν : Type*} [Ord κ] [TransOrd κ]

/-- One for a value that meets `p`. -/
def hit (p : ν → Bool) (v : ν) : ℕ := if p v then 1 else 0

/-- The number of entries whose value meets `p`. -/
def occurrences (t : ExtTreeMap κ ν) (p : ν → Bool) : ℕ := t.toList.countP fun e => p e.2

@[simp] theorem occurrences_empty (p : ν → Bool) : occurrences (∅ : ExtTreeMap κ ν) p = 0 := by
  have h : (∅ : ExtTreeMap κ ν).toList = [] := ExtTreeMap.toList_eq_nil_iff.mpr rfl
  rw [occurrences, h]
  rfl

/-! ### Families of maps -/

/-- The number of entries of the first `n` maps whose value meets `p`. -/
def total (f : ℕ → ExtTreeMap κ ν) (n : ℕ) (p : ν → Bool) : ℕ :=
  ∑ i ∈ Finset.range n, occurrences (f i) p

@[simp] theorem total_succ (f : ℕ → ExtTreeMap κ ν) (n : ℕ) (p : ν → Bool) :
    total f (n + 1) p = total f n p + occurrences (f n) p :=
  Finset.sum_range_succ _ n

theorem total_congr {f g : ℕ → ExtTreeMap κ ν} {n : ℕ} {p q : ν → Bool}
    (h : ∀ i < n, occurrences (f i) p = occurrences (g i) q) : total f n p = total g n q :=
  Finset.sum_congr rfl fun i hi => h i (Finset.mem_range.mp hi)

/-- Changing the map at one index changes the total by what that map's count changes. -/
theorem total_change {f g : ℕ → ExtTreeMap κ ν} {n i : ℕ} (p : ν → Bool) (hi : i < n)
    (hne : ∀ j, j ≠ i → g j = f j) :
    total g n p + occurrences (f i) p = total f n p + occurrences (g i) p := by
  have hmem : i ∈ Finset.range n := Finset.mem_range.mpr hi
  have hrest : ∑ j ∈ (Finset.range n).erase i, occurrences (g j) p =
      ∑ j ∈ (Finset.range n).erase i, occurrences (f j) p :=
    Finset.sum_congr rfl fun j hj => by rw [hne j (Finset.ne_of_mem_erase hj)]
  rw [total, total, ← Finset.add_sum_erase _ _ hmem, ← Finset.add_sum_erase (Finset.range n) _ hmem,
    hrest]
  ring

/-! ### Setting and erasing one key -/

section Keys

variable [LawfulEqOrd κ]

theorem nodup_toList (t : ExtTreeMap κ ν) : t.toList.Nodup :=
  t.distinct_keys_toList.imp fun {a b} h hab => h (by rw [hab]; exact Std.compare_self)

/-- Setting a key puts one entry in front of what erasing it leaves. -/
theorem toList_insert_perm (t : ExtTreeMap κ ν) (k : κ) (v : ν) :
    (t.insert k v).toList.Perm ((k, v) :: (t.erase k).toList) := by
  have hnew : (k, v) ∉ (t.erase k).toList := by
    rw [ExtTreeMap.mem_toList_iff_getElem?_eq_some]
    simp
  refine (List.perm_ext_iff_of_nodup (nodup_toList _)
    (List.nodup_cons.mpr ⟨hnew, nodup_toList _⟩)).mpr ?_
  rintro ⟨k', v'⟩
  simp only [List.mem_cons, ExtTreeMap.mem_toList_iff_getElem?_eq_some, Prod.mk.injEq,
    ExtTreeMap.getElem?_insert, ExtTreeMap.getElem?_erase]
  by_cases hk : k = k'
  · subst hk
    simp [eq_comm]
  · simp [hk, Ne.symm hk]

theorem toList_perm_of_some {t : ExtTreeMap κ ν} {k : κ} {v : ν} (h : t[k]? = some v) :
    t.toList.Perm ((k, v) :: (t.erase k).toList) := by
  have hsame : t.insert k v = t := by
    refine ExtTreeMap.ext_getElem? fun k' => ?_
    rw [ExtTreeMap.getElem?_insert]
    split
    · rename_i hk
      rw [← Std.compare_eq_iff_eq.mp hk, h]
    · rfl
  have hperm := toList_insert_perm t k v
  rwa [hsame] at hperm

theorem erase_of_none {t : ExtTreeMap κ ν} {k : κ} (h : t[k]? = none) : t.erase k = t := by
  refine ExtTreeMap.ext_getElem? fun k' => ?_
  rw [ExtTreeMap.getElem?_erase]
  split
  · rename_i hk
    rw [← Std.compare_eq_iff_eq.mp hk, h]
  · rfl

theorem occurrences_insert (t : ExtTreeMap κ ν) (p : ν → Bool) (k : κ) (v : ν) :
    occurrences (t.insert k v) p = occurrences (t.erase k) p + hit p v := by
  rw [occurrences, (toList_insert_perm t k v).countP_eq, List.countP_cons]
  rfl

/-- Erasing a key loses its entry. -/
theorem occurrences_erase_of_some {t : ExtTreeMap κ ν} {k : κ} {v : ν} (p : ν → Bool)
    (h : t[k]? = some v) : occurrences (t.erase k) p + hit p v = occurrences t p := by
  rw [occurrences, occurrences, (toList_perm_of_some h).countP_eq, List.countP_cons]
  rfl

/-- Setting a new key gains one entry. -/
theorem occurrences_insert_of_none {t : ExtTreeMap κ ν} {k : κ} (p : ν → Bool) (v : ν)
    (h : t[k]? = none) : occurrences (t.insert k v) p = occurrences t p + hit p v := by
  rw [occurrences_insert, erase_of_none h]

/-- Setting a key that is there replaces its entry. -/
theorem occurrences_insert_of_some {t : ExtTreeMap κ ν} {k : κ} {u : ν} (p : ν → Bool) (v : ν)
    (h : t[k]? = some u) :
    occurrences (t.insert k v) p + hit p u = occurrences t p + hit p v := by
  have := occurrences_erase_of_some p h
  rw [occurrences_insert]
  omega

theorem occurrences_congr {t : ExtTreeMap κ ν} {p q : ν → Bool}
    (h : ∀ (k : κ) v, t[k]? = some v → p v = q v) : occurrences t p = occurrences t q := by
  refine List.countP_congr fun e he => ?_
  rw [h e.1 e.2 (ExtTreeMap.mem_toList_iff_getElem?_eq_some.mp he)]

theorem occurrences_pos_iff {t : ExtTreeMap κ ν} {p : ν → Bool} :
    0 < occurrences t p ↔ ∃ (k : κ) (v : ν), t[k]? = some v ∧ p v = true := by
  rw [occurrences, List.countP_pos_iff]
  constructor
  · rintro ⟨⟨k, v⟩, hmem, hp⟩
    exact ⟨k, v, ExtTreeMap.mem_toList_iff_getElem?_eq_some.mp hmem, hp⟩
  · rintro ⟨k, v, hget, hp⟩
    exact ⟨(k, v), ExtTreeMap.mem_toList_iff_getElem?_eq_some.mpr hget, hp⟩

theorem total_pos_iff {f : ℕ → ExtTreeMap κ ν} {n : ℕ} {p : ν → Bool} :
    0 < total f n p ↔ ∃ i < n, ∃ (k : κ) (v : ν), (f i)[k]? = some v ∧ p v = true := by
  rw [total, Finset.sum_pos_iff]
  simp only [Finset.mem_range, occurrences_pos_iff]

end Keys

end DagonFs.Lib.EntryCount
