import DagonFs.ClientServer.BlockWrites

/-!
# The block tables of the nodes

A node pushes its blocks of every write behind those that its table has for the inode; the master gives the new
addresses to the entries that it has.

* `tableInv_run`: what a table has behind its older entries is what the master has of that rank.
* `tablesAgree_iff`: when the two agree.
-/

namespace DagonFs.DataPath

open DagonFs.Lib.Collective DagonFs.Lib.BlockSplit DagonFs.Lib.Runs DagonFs.System

variable {L : Launch} {s s' : System} {writes : List BlockWrite} {x rank : ℕ} {w : BlockWrite}

/-- The addresses in the table of a node. -/
def nodeAddresses (s : System) (rank x : ℕ) : List (Option Address) :=
  (s.dataBlockPointers rank x).map DataBlock.getData

/-- The addresses of one rank in the first `blocks` entries of the master's list. -/
def masterAddresses (s : System) (rank x blocks : ℕ) : List (Option Address) :=
  (((s.blockList x).take blocks).map DataBlock.getData).filter
    fun address => address.map Address.rank = some rank

/-- The loop of a node, by the addresses. -/
theorem pushBlocks_getData (inode rank : ℕ) {addresses : List (Option Address)} {k : ℕ}
    (hk : k ≤ addresses.length) (l : List DataBlock) :
    (NodeProcessCode.pushBlocks inode rank addresses k l).map DataBlock.getData =
      l.map DataBlock.getData ++ addresses.take k := by
  induction k with
  | zero => simp [NodeProcessCode.pushBlocks]
  | succ k ih =>
    have hlt : k < addresses.length := hk
    rw [NodeProcessCode.pushBlocks, List.map_append, ih hlt.le, List.append_assoc,
      List.take_succ_eq_append_getElem hlt, List.getD_eq_getElem?_getD, List.getElem?_eq_getElem hlt]
    rfl

/-- What a write does to the tables of the nodes. -/
theorem nodeAddresses_step (hstep : systemStep L s w = some s') (hpos : 0 < rank) (hr : rank < L.mpiWorldSize) :
    nodeAddresses s' rank w.inode =
        nodeAddresses s rank w.inode ++ rankAddresses L s.heaps (w.blocks L) rank ∧
      ∀ y, y ≠ w.inode → nodeAddresses s' rank y = nodeAddresses s rank y := by
  have hblocks : numberOfBlocks L.blockSize w.fileSize = w.blocks L :=
    numberOfBlocks_eq_ceilDiv L.blockSize_pos w.fileSize
  have hfit := le_of_dagonFS_Write hstep
  rw [hblocks] at hfit
  obtain ⟨localScatBuf, -, hwrite⟩ := dagonFS_Write_eq w.inode hblocks hfit (s := s)
  obtain rfl := Option.some.inj (hwrite.symm.trans hstep)
  constructor
  · show List.map _ (if _ then _ else _ : List DataBlock) = _
    rw [if_pos ⟨hpos, hr, rfl⟩, storeBlocks_eq, pushBlocks_getData _ _ (by simp)]
    show nodeAddresses s rank w.inode ++ _ = _
    rw [List.take_of_length_le (by simp)]
    rfl
  · intro y hy
    show List.map _ (if _ then _ else _ : List DataBlock) = _
    rw [if_neg fun h => hy h.2.2]
    rfl

/-- What it does to the master's entries. -/
theorem masterAddresses_step (hstep : systemStep L s w = some s') (hr : rank < L.mpiWorldSize) :
    masterAddresses s' rank w.inode (w.blocks L) = rankAddresses L s.heaps (w.blocks L) rank ∧
      ∀ y blocks, y ≠ w.inode → masterAddresses s' rank y blocks = masterAddresses s rank y blocks := by
  have hstepped := Store.step_spec (storeOf_step hstep)
  constructor
  · have hlist : s'.blockList w.inode = _ := hstepped.list
    rw [masterAddresses, hlist, take_recordAddresses _ _ _ (newAddresses_length _ _ _)]
    exact filter_newAddresses s.heaps _ hr
  · intro y blocks hy
    have hlist : s'.blockList y = s.blockList y := hstepped.others y hy
    rw [masterAddresses, hlist]
    rfl

/-- The table of a node after writes: of the last write of the inode it has what the master has, behind what the
earlier writes have left. -/
structure TableInv (L : Launch) (s : System) (writes : List BlockWrite) (rank x : ℕ) : Prop where
  empty : nodeAddresses s rank x = [] ↔ ∀ v ∈ writesTo writes x, v.blocks L ≤ rank
  last : ∀ w, (writesTo writes x).getLast? = some w → ∃ old,
    nodeAddresses s rank x = old ++ masterAddresses s rank x (w.blocks L) ∧
      (old = [] ↔ ∀ v ∈ (writesTo writes x).dropLast, v.blocks L ≤ rank)

/-- The step lemma. -/
theorem TableInv.step (h : TableInv L s writes rank x) (hpos : 0 < rank) (hr : rank < L.mpiWorldSize)
    (hstep : systemStep L s w = some s') : TableInv L s' (writes ++ [w]) rank x := by
  obtain ⟨hnode, hnodes⟩ := nodeAddresses_step hstep hpos hr
  obtain ⟨hmaster, hmasters⟩ := masterAddresses_step hstep hr
  by_cases hx : w.inode = x
  · subst hx
    constructor
    · rw [hnode, List.append_eq_nil_iff, h.empty, rankAddresses_eq_nil_iff hr, writesTo_snoc, if_pos rfl]
      simp [or_imp, forall_and]
    · intro v hv
      rw [writesTo_snoc, if_pos rfl, List.getLast?_concat] at hv
      obtain rfl := Option.some.inj hv
      refine ⟨nodeAddresses s rank w.inode, by rw [hnode, hmaster], ?_⟩
      rw [writesTo_snoc, if_pos rfl, List.dropLast_concat]
      exact h.empty
  · constructor
    · rw [hnodes x (Ne.symm hx), writesTo_snoc, if_neg hx]
      exact h.empty
    · intro v hv
      rw [writesTo_snoc, if_neg hx] at hv ⊢
      rw [hnodes x (Ne.symm hx), hmasters x _ (Ne.symm hx)]
      exact h.last v hv

/-- **The run lemma**, from empty tables. -/
theorem tableInv_run (hempty : nodeAddresses s rank x = []) (hpos : 0 < rank) (hr : rank < L.mpiWorldSize)
    (hrun : run (systemStep L) s writes = some s') : TableInv L s' writes rank x := by
  refine history_run (I := fun writes s => TableInv L s writes rank x) ?_ ?_ hrun
  · constructor
    · rw [hempty]
      simp [writesTo]
    · intro w hw
      cases hw
  · intro writes w s₁ s₂ h hstep
    exact h.step hpos hr hstep

/-- **When the table of a node agrees with the master's**: when no earlier write of the inode has given the node a
block. -/
theorem tablesAgree_iff {process : Ids} (hrun : run (systemStep L) (System.mounted process) writes = some s)
    (hlast : (writesTo writes x).getLast? = some w) (hpos : 0 < rank) (hr : rank < L.mpiWorldSize) :
    nodeAddresses s rank x = masterAddresses s rank x (w.blocks L) ↔
      ∀ v ∈ (writesTo writes x).dropLast, v.blocks L ≤ rank := by
  obtain ⟨old, htable, hold⟩ := (tableInv_run rfl hpos hr hrun).last w hlast
  rw [htable, List.append_left_eq_self, hold]

/-- Two processes: a file of one block, which the master has, is written again with three. -/
theorem tablesAgree_iff_grown : ∃ s, run (systemStep ⟨2, 4, by decide, by decide⟩) (System.mounted ⟨0, 0⟩)
      [⟨2, [1, 2, 3, 4], 4⟩, ⟨2, [1, 2, 3, 4, 5, 6, 7, 8, 9, 0, 0, 0], 9⟩] = some s ∧
    nodeAddresses s 1 2 = masterAddresses s 1 2 3 := by
  have hdefined : (run (systemStep ⟨2, 4, by decide, by decide⟩) (System.mounted ⟨0, 0⟩)
      [⟨2, [1, 2, 3, 4], 4⟩, ⟨2, [1, 2, 3, 4, 5, 6, 7, 8, 9, 0, 0, 0], 9⟩]).isSome = true := by
    decide +kernel
  obtain ⟨s, hrun⟩ := Option.isSome_iff_exists.mp hdefined
  exact ⟨s, hrun, (tablesAgree_iff (x := 2) hrun rfl Nat.one_pos (by decide)).mpr (by decide)⟩

/-- **A table that keeps old blocks.**  Two processes, a file of two blocks written twice: the node has the
addresses of both its blocks, the master the second one. -/
theorem not_tablesAgree : ¬ ∀ (L : Launch) (process : Ids) (writes : List BlockWrite) (s : System) (x : ℕ)
    (w : BlockWrite) (rank : ℕ), run (systemStep L) (System.mounted process) writes = some s →
      (writesTo writes x).getLast? = some w → 0 < rank → rank < L.mpiWorldSize →
        nodeAddresses s rank x = masterAddresses s rank x (w.blocks L) := by
  intro h
  have hfacts : (run (systemStep ⟨2, 4, by decide, by decide⟩) (System.mounted ⟨0, 0⟩)
      [⟨2, [1, 2, 3, 4, 5, 6, 7, 8], 8⟩, ⟨2, [1, 2, 3, 4, 5, 6, 7, 8], 8⟩]).map
        (fun s => decide (nodeAddresses s 1 2 = masterAddresses s 1 2 2)) = some false := by decide +kernel
  obtain ⟨s, hrun, hdiffer⟩ := Option.map_eq_some_iff.mp hfacts
  exact of_decide_eq_false hdiffer (h _ _ _ s 2 _ 1 hrun rfl Nat.one_pos (by decide))

end DagonFs.DataPath
