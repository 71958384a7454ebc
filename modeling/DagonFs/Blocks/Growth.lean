import DagonFs.Blocks.Distribution
import Mathlib.Data.List.Infix

/-!
# The ranks that a block list records

`addDataBlocksTo` gives the new blocks their ranks round robin.  The first of them gets the rank that the last block
of the list has, not the next one: so the ranks depend on the lengths at which the list has grown.

* `recordedRank`: the rank of entry `i`, by these lengths.
* `grown_eq`: a list that calls of `addDataBlocksTo` have built, entry by entry.
* `grown_in_steps_iff`: when growing a list in steps is growing it at once.
* `recordedRank_eq_owner_iff`: when the recorded ranks are the owners of the blocks.
-/

namespace DagonFs

open DagonFs.Lib.BlockSplit

variable {w B inode : ℕ}

/-- The rank of entry `i` of a list that has grown at the lengths `growths`. -/
def recordedRank (w : ℕ) (growths : List ℕ) : ℕ → ℕ
  | 0 => 0
  | i + 1 => if i + 1 ∈ growths then recordedRank w growths i else nextRank w (recordedRank w growths i)

/-- Only the growths up to an entry matter for it. -/
theorem recordedRank_congr {growths growths' : List ℕ} {i : ℕ}
    (h : ∀ j, 0 < j → j ≤ i → (j ∈ growths ↔ j ∈ growths')) :
    recordedRank w growths i = recordedRank w growths' i := by
  induction i with
  | zero => rfl
  | succ i ih =>
    have hbefore := ih fun j hpos hj => h j hpos (Nat.le_succ_of_le hj)
    have hself := h (i + 1) (Nat.succ_pos i) (Nat.le_refl _)
    simp only [recordedRank, hbefore, hself]

/-! ### One growth -/

/-- Entry by entry, what a growth adds. -/
theorem addDataBlocksLoop_eq (fuel r : ℕ) (l : List DataBlock) :
    addDataBlocksLoop w B inode fuel r l = l ++ (List.range fuel).map fun j =>
      ⟨inode, none, (l.length + j) * B, (nextRank w)^[j] r, l.length + j⟩ := by
  induction fuel generalizing r l with
  | zero => simp [addDataBlocksLoop]
  | succ fuel ih =>
    have hshift : ∀ j, l.length + (1 + j) = l.length + (j + 1) := fun j => by rw [Nat.add_comm 1 j]
    rw [addDataBlocksLoop, ih, List.range_succ_eq_map]
    simp [DataBlock.new, Nat.add_assoc, hshift, Function.comp_def]

theorem addDataBlocksTo_eq (l : List DataBlock) (nblocks : ℕ) :
    addDataBlocksTo w B l nblocks inode = l ++ (List.range nblocks).map fun j =>
      ⟨inode, none, (l.length + j) * B,
        (nextRank w)^[j] ((l.getLast?).elim 0 DataBlock.processRank), l.length + j⟩ := by
  rw [addDataBlocksTo, Int.toNat_natCast, addDataBlocksLoop_eq]

/-- The entries have the ranks that the growths give them. -/
def Ranked (w : ℕ) (growths : List ℕ) (l : List DataBlock) : Prop :=
  ∀ i block, l[i]? = some block → block.processRank = recordedRank w growths i

/-- The rank that the next growth begins with. -/
theorem lastRank_eq {growths : List ℕ} {l : List DataBlock} (h : Ranked w growths l)
    (hmem : l.length ∈ growths) :
    (l.getLast?).elim 0 DataBlock.processRank = recordedRank w growths l.length := by
  cases hlen : l.length with
  | zero =>
    rw [List.length_eq_zero_iff.mp hlen]
    rfl
  | succ i =>
    rw [hlen] at hmem
    have hlt : i < l.length := by omega
    have hlast : l.getLast? = some l[i] := by
      rw [List.getLast?_eq_getElem?, hlen, Nat.add_sub_cancel, List.getElem?_eq_getElem hlt]
    rw [hlast, recordedRank, if_pos hmem]
    exact h i _ (List.getElem?_eq_getElem hlt)

/-- After the last growth the ranks go round robin. -/
theorem recordedRank_add {growths : List ℕ} {m : ℕ} (hle : ∀ g ∈ growths, g ≤ m) (j : ℕ) :
    recordedRank w growths (m + j) = (nextRank w)^[j] (recordedRank w growths m) := by
  induction j with
  | zero => rfl
  | succ j ih =>
    have hno : m + j + 1 ∉ growths := fun hmem => by
      have := hle _ hmem
      omega
    rw [← Nat.add_assoc, recordedRank, if_neg hno, ih, Function.iterate_succ_apply']

/-- **One growth** of a list, at its length. -/
theorem Ranked.grow {growths : List ℕ} {l : List DataBlock} (h : Ranked w growths l)
    (hmem : l.length ∈ growths) (hle : ∀ g ∈ growths, g ≤ l.length) (nblocks : ℕ) :
    Ranked w growths (addDataBlocksTo w B l nblocks inode) := by
  intro i block hblock
  rw [addDataBlocksTo_eq, lastRank_eq h hmem] at hblock
  rcases Nat.lt_or_ge i l.length with hlt | hge
  · rw [List.getElem?_append_left hlt] at hblock
    exact h i block hblock
  · obtain ⟨j, rfl⟩ := Nat.exists_eq_add_of_le hge
    rw [List.getElem?_append_right hge, Nat.add_sub_cancel_left, List.getElem?_map,
      Option.map_eq_some_iff] at hblock
    obtain ⟨k, hk, rfl⟩ := hblock
    obtain ⟨hj, rfl⟩ := List.getElem?_eq_some_iff.mp hk
    show (nextRank w)^[(List.range nblocks)[j]] _ = _
    rw [List.getElem_range, recordedRank_add hle]

/-! ### The lengths of a list over its calls -/

/-- The lengths that a list has had, where calls leave it with length `length calls`. -/
def lengthsReached (length : List ℕ → ℕ) (calls : List ℕ) : List ℕ := calls.inits.map length

section Lengths

variable {length : List ℕ → ℕ} {calls : List ℕ} {a m : ℕ}

theorem mem_lengthsReached :
    m ∈ lengthsReached length calls ↔ ∃ earlier, earlier <+: calls ∧ length earlier = m := by
  simp only [lengthsReached, List.mem_map, List.mem_inits]

theorem mem_lengthsReached_snoc :
    m ∈ lengthsReached length (calls ++ [a]) ↔ m ∈ lengthsReached length calls ∨ m = length (calls ++ [a]) := by
  simp only [mem_lengthsReached, List.prefix_concat_iff]
  constructor
  · rintro ⟨earlier, rfl | hearlier, rfl⟩
    · exact Or.inr rfl
    · exact Or.inl ⟨earlier, hearlier, rfl⟩
  · rintro (⟨earlier, hearlier, hlength⟩ | rfl)
    · exact ⟨earlier, Or.inr hearlier, hlength⟩
    · exact ⟨_, Or.inl rfl, rfl⟩

theorem length_mem_lengthsReached (length : List ℕ → ℕ) (calls : List ℕ) :
    length calls ∈ lengthsReached length calls :=
  mem_lengthsReached.mpr ⟨calls, List.prefix_refl calls, rfl⟩

/-- A list that only gets longer. -/
theorem le_of_mem_lengthsReached (hmono : ∀ calls a, length calls ≤ length (calls ++ [a]))
    (h : m ∈ lengthsReached length calls) : m ≤ length calls := by
  induction calls using List.reverseRecOn with
  | nil =>
    obtain ⟨earlier, hearlier, rfl⟩ := mem_lengthsReached.mp h
    rw [List.prefix_nil.mp hearlier]
  | append_singleton calls a ih =>
    rcases mem_lengthsReached_snoc.mp h with hold | rfl
    · exact (ih hold).trans (hmono calls a)
    · exact Nat.le_refl _

/-- A later growth is none of the lengths before it. -/
theorem recordedRank_snoc {i : ℕ} (hi : i < length (calls ++ [a])) :
    recordedRank w (lengthsReached length (calls ++ [a])) i = recordedRank w (lengthsReached length calls) i := by
  refine recordedRank_congr fun j _ hj => ?_
  rw [mem_lengthsReached_snoc]
  exact or_iff_left (Nat.ne_of_lt (Nat.lt_of_le_of_lt hj hi))

end Lengths

/-! ### Growing in steps -/

/-- What calls of `addDataBlocksTo` build, one after the other. -/
def grown (w B inode : ℕ) (calls : List ℕ) : List DataBlock :=
  calls.foldl (fun blockList (nblocks : ℕ) => addDataBlocksTo w B blockList nblocks inode) []

theorem grown_snoc (calls : List ℕ) (a : ℕ) :
    grown w B inode (calls ++ [a]) = addDataBlocksTo w B (grown w B inode calls) a inode := by
  rw [grown, List.foldl_append]
  rfl

theorem grown_length (calls : List ℕ) : (grown w B inode calls).length = calls.sum := by
  induction calls using List.reverseRecOn with
  | nil => rfl
  | append_singleton calls a ih =>
    rw [grown_snoc, addDataBlocksTo_length, ih, Int.toNat_natCast, List.sum_append, List.sum_singleton]

theorem le_of_mem_sums {calls : List ℕ} {m : ℕ} (h : m ∈ lengthsReached List.sum calls) : m ≤ calls.sum := by
  refine le_of_mem_lengthsReached (fun calls a => ?_) h
  rw [List.sum_append]
  exact Nat.le_add_right _ _

theorem grown_ranked (calls : List ℕ) :
    Ranked w (lengthsReached List.sum calls) (grown w B inode calls) := by
  induction calls using List.reverseRecOn with
  | nil =>
    intro i block hblock
    cases hblock
  | append_singleton calls a ih =>
    have hlen : (grown w B inode calls).length = calls.sum := grown_length calls
    have hmem := length_mem_lengthsReached List.sum calls
    rw [← hlen] at hmem
    intro i block hblock
    have hi := (List.getElem?_eq_some_iff.mp hblock).1
    rw [grown_length] at hi
    rw [grown_snoc] at hblock
    rw [recordedRank_snoc hi]
    exact ih.grow hmem (fun g hg => hlen ▸ le_of_mem_sums hg) a i block hblock

/-- **A list that has grown**, entry by entry. -/
theorem grown_eq (calls : List ℕ) : grown w B inode calls = (List.range calls.sum).map fun i =>
    ⟨inode, none, i * B, recordedRank w (lengthsReached List.sum calls) i, i⟩ := by
  induction calls using List.reverseRecOn with
  | nil => rfl
  | append_singleton calls a ih =>
    have hlen : (grown w B inode calls).length = calls.sum := grown_length calls
    have hmem := length_mem_lengthsReached List.sum calls
    rw [← hlen] at hmem
    have hsum : (calls ++ [a]).sum = calls.sum + a := by rw [List.sum_append, List.sum_singleton]
    have hlast := lastRank_eq (grown_ranked calls) hmem
    rw [grown_snoc, addDataBlocksTo_eq, hlast, hlen, hsum, List.range_add, List.map_append, List.map_map, ih]
    congr 1
    · refine List.map_congr_left fun i hi => ?_
      rw [recordedRank_snoc (hsum ▸ Nat.lt_add_right a (List.mem_range.mp hi))]
    · refine List.map_congr_left fun j hj => ?_
      show _ = DataBlock.mk inode none _ (recordedRank w _ (calls.sum + j)) _
      rw [recordedRank_snoc (hsum ▸ Nat.add_lt_add_left (List.mem_range.mp hj) _),
        recordedRank_add fun g hg => le_of_mem_sums hg]

/-! ### When the ranks go on round robin -/

theorem nextRank_eq_self_iff {r : ℕ} (hr : w = 1 → r = 0) : nextRank w r = r ↔ w = 1 := by
  unfold nextRank
  split <;> omega

theorem nextRank_mod (w i : ℕ) : nextRank w (i % w) = (i + 1) % w := by
  rcases Nat.eq_zero_or_pos w with rfl | hw
  · simp [nextRank]
  · have hlt := Nat.mod_lt i hw
    have hdiv := Nat.div_add_mod i w
    unfold nextRank
    split
    · rename_i hlast
      rw [← hdiv, Nat.add_assoc, hlast, Nat.mul_add_mod_self_left, Nat.mod_self]
    · rename_i hlast
      rw [← Nat.mod_add_mod, Nat.mod_eq_of_lt (by omega : i % w + 1 < w)]

/-- The entries of a list go round robin when it has grown at no length between the first and the last. -/
theorem recordedRank_eq_mod_iff {growths : List ℕ} {m : ℕ} :
    (∀ i < m, recordedRank w growths i = i % w) ↔ w = 1 ∨ ∀ g ∈ growths, g = 0 ∨ m ≤ g := by
  constructor
  · intro h
    by_contra hnot
    push Not at hnot
    obtain ⟨hw, g, hg, hpos, hlt⟩ := hnot
    obtain ⟨i, rfl⟩ := Nat.exists_eq_succ_of_ne_zero hpos
    have hi := h i (Nat.lt_of_succ_lt hlt)
    have hsucc := h (i + 1) hlt
    rw [recordedRank, if_pos hg, hi, ← nextRank_mod] at hsucc
    exact hw ((nextRank_eq_self_iff fun hw1 => by rw [hw1, Nat.mod_one]).mp hsucc.symm)
  · intro h i hi
    induction i with
    | zero => rw [Nat.zero_mod, recordedRank]
    | succ i ih =>
      have hprev := ih (Nat.lt_of_succ_lt hi)
      rw [recordedRank, hprev, ← nextRank_mod]
      split
      · rename_i hmem
        rcases h with rfl | hgrowths
        · rw [Nat.mod_one]
          rfl
        · have := hgrowths _ hmem
          omega
      · rfl

/-- The calls find the list empty or finished when at most one of them adds blocks. -/
theorem sums_iff (calls : List ℕ) :
    (∀ g ∈ lengthsReached List.sum calls, g = 0 ∨ calls.sum ≤ g) ↔ calls.countP (0 < ·) ≤ 1 := by
  induction calls using List.reverseRecOn with
  | nil => simp [lengthsReached]
  | append_singleton calls a ih =>
    have hall : (∀ g ∈ lengthsReached List.sum (calls ++ [a]), g = 0 ∨ (calls ++ [a]).sum ≤ g) ↔
        ∀ g ∈ lengthsReached List.sum calls, g = 0 ∨ calls.sum + a ≤ g := by
      simp only [mem_lengthsReached_snoc, List.sum_append, List.sum_singleton, or_imp, forall_and, forall_eq]
      exact and_iff_left (Or.inr (Nat.le_refl _))
    rw [hall, List.countP_append, List.countP_singleton]
    rcases Nat.eq_zero_or_pos a with rfl | hpos
    · exact ih
    · -- nothing may be there before
      have hzero : (∀ g ∈ lengthsReached List.sum calls, g = 0 ∨ calls.sum + a ≤ g) ↔ calls.sum = 0 := by
        constructor
        · intro h
          rcases h _ (length_mem_lengthsReached _ calls) with hsum | hle
          · exact hsum
          · omega
        · intro hsum g hg
          exact Or.inl (Nat.le_zero.mp (hsum ▸ le_of_mem_sums hg))
      have hcount : calls.countP (0 < ·) = 0 ↔ calls.sum = 0 := by
        simp [List.countP_eq_zero, List.sum_eq_zero_iff_forall_eq_nat]
      rw [hzero, ← hcount, if_pos (decide_eq_true hpos)]
      omega

/-- A list whose ranks go round robin, entry by entry. -/
theorem grown_eq_mod {calls : List ℕ} (h : w = 1 ∨ calls.countP (0 < ·) ≤ 1) :
    grown w B inode calls = (List.range calls.sum).map fun i => ⟨inode, none, i * B, i % w, i⟩ := by
  have hranks := recordedRank_eq_mod_iff.mpr (h.imp_right (sums_iff calls).mpr)
  rw [grown_eq]
  refine List.map_congr_left fun i hi => ?_
  rw [hranks i (List.mem_range.mp hi)]

/-- **When growing a list in steps is growing it at once**, with the ranks round robin: on one process, or when at
most one of the calls adds blocks. -/
theorem grown_in_steps_iff (w B inode : ℕ) (calls : List ℕ) (a b : ℕ) :
    (addDataBlocksTo w B (addDataBlocksTo w B (grown w B inode calls) a inode) b inode =
        addDataBlocksTo w B (grown w B inode calls) (a + b) inode ∧
      ∀ i block, (addDataBlocksTo w B (addDataBlocksTo w B (grown w B inode calls) a inode) b inode)[i]? =
          some block →
        block.progressiveNumber = i ∧ block.absoluteBytes = i * B ∧ block.processRank = i % w) ↔
      w = 1 ∨ (calls ++ [a, b]).countP (0 < ·) ≤ 1 := by
  have hsteps : addDataBlocksTo w B (addDataBlocksTo w B (grown w B inode calls) a inode) b inode =
      grown w B inode (calls ++ [a, b]) := by
    rw [← grown_snoc, ← grown_snoc, List.append_assoc]
    rfl
  have honce : addDataBlocksTo w B (grown w B inode calls) (a + b) inode =
      grown w B inode (calls ++ [a + b]) := by
    rw [← Nat.cast_add, ← grown_snoc]
  rw [hsteps, honce]
  constructor
  · rintro ⟨-, hentries⟩
    have hranks : ∀ i < (calls ++ [a, b]).sum,
        recordedRank w (lengthsReached List.sum (calls ++ [a, b])) i = i % w := by
      intro i hi
      refine (hentries i ⟨inode, none, i * B, recordedRank w (lengthsReached List.sum (calls ++ [a, b])) i, i⟩ ?_).2.2
      rw [grown_eq, List.getElem?_map, List.getElem?_range hi]
      rfl
    exact (recordedRank_eq_mod_iff.mp hranks).imp_right (sums_iff _).mp
  · intro h
    have hmerged : w = 1 ∨ (calls ++ [a + b]).countP (0 < ·) ≤ 1 := by
      have hone : (if 0 < a + b then 1 else 0) ≤ (if 0 < b then 1 else 0) + if 0 < a then 1 else 0 := by
        split_ifs <;> omega
      refine h.imp_right fun hcount => ?_
      simp only [List.countP_append, List.countP_cons, List.countP_nil, decide_eq_true_eq] at hcount ⊢
      omega
    rw [grown_eq_mod h, grown_eq_mod hmerged]
    constructor
    · simp
    · intro i block hblock
      rw [List.getElem?_map, Option.map_eq_some_iff] at hblock
      obtain ⟨j, hj, rfl⟩ := hblock
      obtain ⟨hi, rfl⟩ := List.getElem?_eq_some_iff.mp hj
      rw [List.getElem_range]
      exact ⟨rfl, rfl, rfl⟩

/-- **Growing in steps is not growing at once.**  Two processes, one block and one more: both are given to the
first process. -/
theorem not_grown_in_steps : ¬ ∀ (w B inode : ℕ) (calls : List ℕ) (a b : ℕ), 0 < w →
    addDataBlocksTo w B (addDataBlocksTo w B (grown w B inode calls) a inode) b inode =
        addDataBlocksTo w B (grown w B inode calls) (a + b) inode ∧
      ∀ i block, (addDataBlocksTo w B (addDataBlocksTo w B (grown w B inode calls) a inode) b inode)[i]? =
          some block →
        block.progressiveNumber = i ∧ block.absoluteBytes = i * B ∧ block.processRank = i % w := by
  intro h
  have hsteps := (h 2 4 2 [] 1 1 (by decide)).1
  revert hsteps
  decide

/-! ### When the ranks are the owners -/

theorem nextRank_of_lt {r : ℕ} (hr : r + 1 < w) : nextRank w r = r + 1 := if_neg (Nat.ne_of_lt hr)

/-- **The recorded ranks are the owners** of `N` blocks on one process, or when the list has grown at exactly the
places between two blocks of the same owner. -/
theorem recordedRank_eq_owner_iff {N n : ℕ} (hn : 0 < n) {growths : List ℕ} :
    (∀ i < N, recordedRank n growths i = owner N n i) ↔
      n = 1 ∨ ∀ i, i + 1 < N → (i + 1 ∈ growths ↔ owner N n (i + 1) = owner N n i) := by
  -- what one entry adds to the entries before it
  have hsucc : ∀ i, i + 1 < N → n ≠ 1 → recordedRank n growths i = owner N n i →
      (recordedRank n growths (i + 1) = owner N n (i + 1) ↔
        (i + 1 ∈ growths ↔ owner N n (i + 1) = owner N n i)) := by
    intro i hi hn1 hprev
    have hne : nextRank n (owner N n i) ≠ owner N n i := fun h =>
      hn1 ((nextRank_eq_self_iff fun h1 => absurd h1 hn1).mp h)
    have hlt := (owner_spec hn hi).1
    rw [recordedRank, hprev]
    rcases owner_succ (n := n) hi with hsame | hnext
    · rw [hsame]
      by_cases hmem : i + 1 ∈ growths
      · simp [hmem]
      · simp [hmem, hne]
    · rw [hnext] at hlt
      rw [hnext, nextRank_of_lt hlt]
      by_cases hmem : i + 1 ∈ growths
      · simp [hmem]
      · simp [hmem]
  constructor
  · intro h
    by_cases hn1 : n = 1
    · exact Or.inl hn1
    · exact Or.inr fun i hi => (hsucc i hi hn1 (h i (Nat.lt_of_succ_lt hi))).mp (h (i + 1) hi)
  · intro h i hi
    by_cases hn1 : n = 1
    · subst hn1
      rw [recordedRank_eq_mod_iff.mpr (Or.inl rfl) i hi, Nat.mod_one]
      exact (Nat.lt_one_iff.mp (owner_spec hn hi).1).symm
    · have hgrowths := h.resolve_left hn1
      induction i with
      | zero => rw [owner_zero hn hi, recordedRank]
      | succ i ih => exact (hsucc i hi hn1 (ih (Nat.lt_of_succ_lt hi))).mpr (hgrowths i hi)

/-! ### The list after a write -/

theorem Ranked.setAddresses {growths : List ℕ} {l : List DataBlock} (h : Ranked w growths l)
    (addresses : List (Option Address)) (k : ℕ) : Ranked w growths (setAddresses addresses k l) := by
  intro i block hblock
  rw [setAddresses_getElem?] at hblock
  split at hblock
  · obtain ⟨old, hold, rfl⟩ := Option.map_eq_some_iff.mp hblock
    exact h i old hold
  · exact h i block hblock

theorem Ranked.recordAddresses {L : Launch} {growths : List ℕ} {l : List DataBlock}
    (h : Ranked L.mpiWorldSize growths l) (hmem : l.length ∈ growths) (hle : ∀ g ∈ growths, g ≤ l.length)
    (blocks : ℕ) (addresses : List (Option Address)) :
    Ranked L.mpiWorldSize growths (recordAddresses L inode blocks addresses l) := by
  unfold DagonFs.recordAddresses
  refine Ranked.setAddresses ?_ addresses blocks
  split
  · obtain ⟨additionBlocks, hblocks⟩ := Int.eq_ofNat_of_zero_le (Int.le_of_lt ‹_›)
    rw [hblocks]
    exact h.grow hmem hle additionBlocks
  · exact h

end DagonFs
