import DagonFs.Blocks.Store

/-!
# Blocks that no list has

A write allocates all its blocks anew.  The entries of the list get the new addresses, and the blocks that they had
before are not freed.

* `allocated_step`: the blocks after a write are those before it and the new ones.
* `Tidy`: what holds after every sequence of writes; `noneLost_step`: when one write loses no block.
* `noneLost_run`: after a sequence of writes every block is in exactly one place exactly when no inode has been
  written twice with a block.
-/

namespace DagonFs.DataPath

open DagonFs.Lib.BlockSplit DagonFs.Lib.Runs

/-- The address in entry `i` of the list of inode `x`. -/
def Store.addressAt (st : Store) (x i : ℕ) : Option Address := ((st.blockList x)[i]?).bind DataBlock.getData

/-- A block that some process has allocated; writes free none. -/
def Allocated (L : Launch) (st : Store) (a : Address) : Prop :=
  a.rank < L.mpiWorldSize ∧ a.index < (st.heaps a.rank).length

/-- Every block is in exactly one entry of exactly one list.  The buffers that blocks are scattered to, which
nodes and peers do not free, are not counted. -/
def NoneLost (L : Launch) (st : Store) : Prop :=
  ∀ a, Allocated L st a → ∃! place : ℕ × ℕ, st.addressAt place.1 place.2 = some a

/-- The address that block `i` of a write gets. -/
def newAddress (L : Launch) (heaps : ℕ → Heap) (blocks i : ℕ) : Address :=
  ⟨owner blocks L.mpiWorldSize i, (heaps (owner blocks L.mpiWorldSize i)).length +
    (i - start blocks L.mpiWorldSize (owner blocks L.mpiWorldSize i))⟩

variable {L : Launch} {st st' : Store} {writes : List BlockWrite} {w : BlockWrite} {a : Address} {x i : ℕ}

/-! ### One write -/

theorem newAddress_inj {heaps : ℕ → Heap} {blocks j : ℕ} (hi : i < blocks) (hj : j < blocks)
    (h : newAddress L heaps blocks i = newAddress L heaps blocks j) : i = j := by
  have hlo := (owner_spec L.worldSize_pos hi).2.1
  have hlo' := (owner_spec L.worldSize_pos hj).2.1
  obtain ⟨hrank, hindex⟩ := Address.mk.inj h
  rw [hrank] at hlo hindex
  omega

/-- A rank's part of the new blocks. -/
theorem newBlocks_length (L : Launch) (buffer : List UInt8) (blocks : ℕ) {rank : ℕ} (hr : rank < L.mpiWorldSize) :
    (newBlocks L buffer blocks rank).length = share blocks L.mpiWorldSize rank := by
  rw [newBlocks, if_pos hr, List.length_map, List.length_range, effectiveBlocks]

theorem not_allocated_new (st : Store) {blocks : ℕ} (i : ℕ) : ¬ Allocated L st (newAddress L st.heaps blocks i) :=
  fun h => Nat.not_lt.mpr (Nat.le_add_right _ _) h.2

/-- **The blocks after a write.** -/
theorem allocated_step (hw : Stepped L st st' w) : Allocated L st' a ↔
    Allocated L st a ∨ ∃ i < w.blocks L, newAddress L st.heaps (w.blocks L) i = a := by
  constructor
  · rintro ⟨hr, hlt⟩
    rw [hw.heaps, List.length_append, newBlocks_length L _ _ hr] at hlt
    rcases Nat.lt_or_ge a.index (st.heaps a.rank).length with hold | hnew
    · exact Or.inl ⟨hr, hold⟩
    · -- the block of its place in the rank's part
      obtain ⟨j, hj⟩ := Nat.exists_eq_add_of_le hnew
      have hjs : j < share (w.blocks L) L.mpiWorldSize a.rank := by omega
      refine Or.inr ⟨_, start_add_lt L.worldSize_pos hr hjs, ?_⟩
      rw [newAddress, owner_start_add L.worldSize_pos hr hjs, Nat.add_sub_cancel_left, ← hj]
  · rintro (⟨hr, hlt⟩ | ⟨i, hi, rfl⟩)
    · refine ⟨hr, ?_⟩
      rw [hw.heaps, List.length_append]
      exact Nat.lt_add_right _ hlt
    · obtain ⟨hr, hlo, hhi⟩ := owner_spec L.worldSize_pos hi
      refine ⟨hr, ?_⟩
      show _ + _ < (st'.heaps (owner (w.blocks L) L.mpiWorldSize i)).length
      rw [start_succ] at hhi
      rw [hw.heaps, List.length_append, newBlocks_length L _ _ hr]
      omega

/-- The addresses after a write. -/
theorem addressAt_new (hw : Stepped L st st' w) (hi : i < w.blocks L) :
    st'.addressAt w.inode i = some (newAddress L st.heaps (w.blocks L) i) := by
  obtain ⟨block, hblock, hdata⟩ := recordAddresses_new L w.inode
    (newAddresses L st.heaps (w.blocks L)) (st.blockList w.inode) hi
  rw [Store.addressAt, hw.list, hblock, Option.bind_some, hdata, List.getD_eq_getElem?_getD,
    newAddresses_getElem? st.heaps hi]
  rfl

theorem addressAt_old (hw : Stepped L st st' w) (h : x = w.inode → w.blocks L ≤ i) :
    st'.addressAt x i = st.addressAt x i := by
  by_cases hx : x = w.inode
  · subst hx
    rw [Store.addressAt, hw.list, recordAddresses_old _ _ _ _ (h rfl)]
    rfl
  · rw [Store.addressAt, hw.others x hx]
    rfl

/-- An address is that of a new block, or it was there before. -/
theorem addressAt_step (hw : Stepped L st st' w) (h : st'.addressAt x i = some a) :
    (x = w.inode ∧ i < w.blocks L ∧ newAddress L st.heaps (w.blocks L) i = a) ∨
      (x = w.inode → w.blocks L ≤ i) ∧ st.addressAt x i = some a := by
  by_cases hnew : x = w.inode ∧ i < w.blocks L
  · obtain ⟨rfl, hi⟩ := hnew
    rw [addressAt_new hw hi] at h
    exact Or.inl ⟨rfl, hi, Option.some.inj h⟩
  · have hold : x = w.inode → w.blocks L ≤ i := fun hx => Nat.le_of_not_lt fun hi => hnew ⟨hx, hi⟩
    exact Or.inr ⟨hold, by rw [← h, addressAt_old hw hold]⟩

/-! ### Sequences of writes -/

/-- The addresses in the lists are those of blocks, and no two entries have the same one; the list of an inode has
none until it is written with a block, and begins with one from then on. -/
structure Tidy (L : Launch) (st : Store) (writes : List BlockWrite) : Prop where
  listed : ∀ x i a, st.addressAt x i = some a → Allocated L st a
  unique : ∀ x i y j a, st.addressAt x i = some a → st.addressAt y j = some a → x = y ∧ i = j
  empty : ∀ x, (blockCounts L writes x).countP (0 < ·) = 0 → ∀ i, st.addressAt x i = none
  first : ∀ x, (blockCounts L writes x).countP (0 < ·) ≠ 0 → ∃ a, st.addressAt x 0 = some a

/-- The step lemma. -/
theorem Tidy.step (h : Tidy L st writes) (hw : Stepped L st st' w) : Tidy L st' (writes ++ [w]) := by
  constructor
  case listed =>
    intro x i a ha
    rw [allocated_step hw]
    rcases addressAt_step hw ha with ⟨-, hi, hnew⟩ | ⟨-, hold⟩
    · exact Or.inr ⟨i, hi, hnew⟩
    · exact Or.inl (h.listed x i a hold)
  case unique =>
    intro x i y j a hx hy
    rcases addressAt_step hw hx with ⟨hxw, hi, hnew⟩ | ⟨-, hold⟩
    · rcases addressAt_step hw hy with ⟨hyw, hj, hnew'⟩ | ⟨-, hold'⟩
      · exact ⟨hxw.trans hyw.symm, newAddress_inj hi hj (hnew.trans hnew'.symm)⟩
      · exact absurd (h.listed y j a hold') (hnew ▸ not_allocated_new st i)
    · rcases addressAt_step hw hy with ⟨-, hj, hnew'⟩ | ⟨-, hold'⟩
      · exact absurd (h.listed x i a hold) (hnew' ▸ not_allocated_new st j)
      · exact h.unique x i y j a hold hold'
  case empty =>
    intro x hcount i
    rw [blockCounts_snoc] at hcount
    by_cases hx : w.inode = x
    · rw [if_pos hx, List.countP_append, List.countP_singleton, Nat.add_eq_zero_iff] at hcount
      have hzero : w.blocks L = 0 := by simpa using hcount.2
      rw [addressAt_old hw fun _ => hzero ▸ Nat.zero_le i]
      exact h.empty x hcount.1 i
    · rw [if_neg hx] at hcount
      rw [addressAt_old hw fun hsame => absurd hsame.symm hx]
      exact h.empty x hcount i
  case first =>
    intro x hcount
    rw [blockCounts_snoc] at hcount
    by_cases hx : w.inode = x
    · subst hx
      rcases Nat.eq_zero_or_pos (w.blocks L) with hzero | hpos
      · rw [if_pos rfl, List.countP_append, List.countP_singleton, hzero] at hcount
        rw [addressAt_old hw fun _ => hzero.le]
        exact h.first _ hcount
      · exact ⟨_, addressAt_new hw hpos⟩
    · rw [if_neg hx] at hcount
      rw [addressAt_old hw fun hsame => absurd hsame.symm hx]
      exact h.first x hcount

/-- **When a write loses no block**: when nothing was lost before, and it has no blocks or the list was empty. -/
theorem noneLost_step (h : Tidy L st writes) (hw : Stepped L st st' w) : NoneLost L st' ↔
    NoneLost L st ∧ (w.blocks L = 0 ∨ (blockCounts L writes w.inode).countP (0 < ·) = 0) := by
  constructor
  · intro hnone
    have hplaces : ∀ a, Allocated L st a →
        ∃ x i, (x = w.inode → w.blocks L ≤ i) ∧ st.addressAt x i = some a := by
      intro a ha
      obtain ⟨⟨x, i⟩, hplace, -⟩ := hnone a ((allocated_step hw).mpr (Or.inl ha))
      rcases addressAt_step hw hplace with ⟨-, -, hnew⟩ | hold
      · exact absurd ha (hnew ▸ not_allocated_new st i)
      · exact ⟨x, i, hold⟩
    constructor
    · intro a ha
      obtain ⟨x, i, -, hold⟩ := hplaces a ha
      refine ⟨(x, i), hold, ?_⟩
      rintro ⟨y, j⟩ hother
      obtain ⟨rfl, rfl⟩ := h.unique y j x i a hother hold
      rfl
    · -- the first entry of a list that is not empty would be overwritten
      by_contra hboth
      obtain ⟨hblocks, hcount⟩ := not_or.mp hboth
      obtain ⟨a, ha⟩ := h.first w.inode hcount
      obtain ⟨x, i, hkept, hold⟩ := hplaces a (h.listed _ _ a ha)
      obtain ⟨rfl, rfl⟩ := h.unique x i w.inode 0 a hold ha
      exact hblocks (Nat.le_zero.mp (hkept rfl))
  · rintro ⟨hnone, hfree⟩ a ha
    have hstays : ∀ y j, st.addressAt y j = some a → st'.addressAt y j = some a := by
      intro y j hy
      rw [addressAt_old hw fun hsame => ?_]
      · exact hy
      · subst hsame
        rcases hfree with hzero | hcount
        · exact hzero ▸ Nat.zero_le j
        · rw [h.empty _ hcount] at hy
          cases hy
    rcases (allocated_step hw).mp ha with hold | ⟨i, hi, hnew⟩
    · obtain ⟨⟨x, i⟩, hplace, hunique⟩ := hnone a hold
      refine ⟨(x, i), hstays x i hplace, ?_⟩
      rintro ⟨y, j⟩ hother
      rcases addressAt_step hw hother with ⟨-, -, hnew⟩ | ⟨-, hy⟩
      · exact absurd hold (hnew ▸ not_allocated_new st j)
      · exact hunique (y, j) hy
    · refine ⟨(w.inode, i), (addressAt_new hw hi).trans (congrArg some hnew), ?_⟩
      rintro ⟨y, j⟩ hother
      rcases addressAt_step hw hother with ⟨rfl, hj, hnew'⟩ | ⟨-, hy⟩
      · rw [newAddress_inj hi hj (hnew.trans hnew'.symm)]
      · exact absurd (h.listed y j a hy) (hnew ▸ not_allocated_new st i)

/-- At most one write of each inode has a block. -/
def WrittenOnce (L : Launch) (writes : List BlockWrite) : Prop :=
  ∀ x, (blockCounts L writes x).countP (0 < ·) ≤ 1

theorem writtenOnce_snoc : WrittenOnce L (writes ++ [w]) ↔ WrittenOnce L writes ∧
    (w.blocks L = 0 ∨ (blockCounts L writes w.inode).countP (0 < ·) = 0) := by
  have hself : (blockCounts L (writes ++ [w]) w.inode).countP (0 < ·) =
      (blockCounts L writes w.inode).countP (0 < ·) + if 0 < w.blocks L then 1 else 0 := by
    rw [blockCounts_snoc, if_pos rfl, List.countP_append, List.countP_singleton]
    simp only [decide_eq_true_eq]
  have hother : ∀ x, w.inode ≠ x → blockCounts L (writes ++ [w]) x = blockCounts L writes x := by
    intro x hx
    rw [blockCounts_snoc, if_neg hx]
  constructor
  · intro h
    have hw := h w.inode
    rw [hself] at hw
    refine ⟨fun x => ?_, ?_⟩
    · by_cases hx : w.inode = x
      · subst hx
        exact (Nat.le_add_right _ _).trans hw
      · exact hother x hx ▸ h x
    · split at hw
      · exact Or.inr (by omega)
      · exact Or.inl (by omega)
  · rintro ⟨h, hw⟩ x
    by_cases hx : w.inode = x
    · subst hx
      have hx := h w.inode
      rw [hself]
      split
      · omega
      · exact hx
    · rw [hother x hx]
      exact h x

/-- Where no block has been written. -/
structure Unwritten (st : Store) : Prop where
  lists : ∀ x, st.blockList x = []
  heaps : ∀ rank, st.heaps rank = []

theorem Unwritten.tidy (h : Unwritten st) : Tidy L st [] := by
  have hnone : ∀ x i, st.addressAt x i = none := by
    intro x i
    rw [Store.addressAt, h.lists]
    rfl
  constructor
  case listed =>
    intro x i a ha
    rw [hnone] at ha
    cases ha
  case unique =>
    intro x i y j a ha
    rw [hnone] at ha
    cases ha
  case empty => exact fun x _ i => hnone x i
  case first => exact fun x hcount => absurd rfl hcount

/-- **The run lemma.** -/
theorem noneLost_run (hempty : Unwritten st) (hrun : run (Store.step L) st writes = some st') :
    Tidy L st' writes ∧ (NoneLost L st' ↔ WrittenOnce L writes) := by
  refine history_run (I := fun writes st => Tidy L st writes ∧ (NoneLost L st ↔ WrittenOnce L writes))
    ?_ ?_ hrun
  · refine ⟨hempty.tidy, iff_of_true ?_ fun x => Nat.zero_le 1⟩
    rintro a ⟨-, hlt⟩
    rw [hempty.heaps] at hlt
    exact absurd hlt (Nat.not_lt_zero _)
  · intro writes w st₁ st₂ h hstep
    obtain ⟨htidy, honce⟩ := h
    have hw := Store.step_spec hstep
    exact ⟨htidy.step hw, by rw [noneLost_step htidy hw, honce, writtenOnce_snoc]⟩

end DagonFs.DataPath
