import DagonFs.Blocks.Distribution
import DagonFs.Lib.Runs
import Mathlib.Data.Set.Basic

/-!
# The block lists and the blocks in memory

A `Store` is what the distributed operations work on: the block lists of the process that issues them, and the
blocks in each rank's memory.  A write keeps the new blocks behind the old ones of their ranks, and records
their addresses (`Store.write`).

* `newAddresses_getElem?`: where block `i` of a write is.
* `Store.step`: sequences of writes.
-/

namespace DagonFs.DataPath

open DagonFs.Lib.Collective DagonFs.Lib.BlockSplit DagonFs.Lib.Runs

/-- The block lists of rank 0, and the blocks that each rank has allocated to keep (not its buffers). -/
structure Store where
  blockList : ℕ → List DataBlock
  heaps : ℕ → Heap

/-- Rank `rank`'s blocks of the buffer of a write. -/
def newBlocks (L : Launch) (buffer : List UInt8) (blocks rank : ℕ) : Heap :=
  if rank < L.mpiWorldSize then
    (List.range (effectiveBlocks L rank blocks)).map fun j =>
      blockAt L.blockSize buffer (start blocks L.mpiWorldSize rank + j)
  else []

/-- The addresses that rank 0 gathers, when each rank puts its new blocks after its old ones. -/
def newAddresses (L : Launch) (heaps : ℕ → Heap) (blocks : ℕ) : List (Option Address) :=
  (List.range L.mpiWorldSize).flatMap fun rank =>
    (List.range (effectiveBlocks L rank blocks)).map fun j => some ⟨rank, (heaps rank).length + j⟩

namespace Store

variable (L : Launch) (st : Store)

/-- A write: every rank keeps its part of the buffer, rank 0 the addresses. -/
def write (buffer : List UInt8) (inode fileSize : ℕ) : Option Store :=
  let blocks := numberOfBlocks L.blockSize fileSize
  if blocks * L.blockSize ≤ buffer.length then
    some {
      blockList := Function.update st.blockList inode
        (recordAddresses L inode blocks (newAddresses L st.heaps blocks) (st.blockList inode))
      heaps := fun rank => st.heaps rank ++ newBlocks L buffer blocks rank }
  else none

/-- The addresses in the lists of a store. -/
def addresses (st : Store) : Set Address :=
  {a | ∃ x, ∃ b ∈ st.blockList x, b.getData = some a}

end Store

/-! ### One write -/

section Write

variable {L : Launch} {blocks : ℕ}

/-- What one rank's store loop adds. -/
theorem storeBlocks_segment {rank : ℕ} (hr : rank < L.mpiWorldSize) {buffer : List UInt8}
    {local_ : List UInt8} (hlocal : local_ =
      (buffer.drop (start blocks L.mpiWorldSize rank * L.blockSize)).take
        (share blocks L.mpiWorldSize rank * L.blockSize)) (heap : Heap) :
    (storeBlocks L.blockSize rank local_ (effectiveBlocks L rank blocks) heap).1 =
      heap ++ newBlocks L buffer blocks rank := by
  rw [storeBlocks_eq, newBlocks, if_pos hr]
  show heap ++ _ = heap ++ _
  congr 1
  refine List.map_congr_left fun j hj => ?_
  have hj : j < share blocks L.mpiWorldSize rank := List.mem_range.mp hj
  rw [hlocal, blockAt_segment _ _ _ _ hj]

/-- What the gather of the addresses gives. -/
theorem flatMap_stored (heaps : ℕ → Heap) (local_ : ℕ → List UInt8) :
    ((List.range L.mpiWorldSize).flatMap fun rank => (storeBlocks L.blockSize rank (local_ rank)
      (effectiveBlocks L rank blocks) (heaps rank)).2) = newAddresses L heaps blocks := by
  simp only [storeBlocks_eq, newAddresses]

theorem update_blockList {f g : ℕ → List DataBlock} {inode : ℕ} {l : List DataBlock}
    (hself : g inode = l) (hothers : ∀ x, x ≠ inode → g x = f x) : g = Function.update f inode l := by
  funext x
  by_cases hx : x = inode
  · subst hx
    rw [Function.update_self, hself]
  · rw [Function.update_of_ne hx, hothers x hx]

theorem newAddresses_length (L : Launch) (heaps : ℕ → Heap) (blocks : ℕ) :
    (newAddresses L heaps blocks).length = blocks := by
  have hlen : ∀ rank < L.mpiWorldSize, ((List.range (effectiveBlocks L rank blocks)).map fun j =>
      (some ⟨rank, (heaps rank).length + j⟩ : Option Address)).length =
        share blocks L.mpiWorldSize rank := by
    intro rank _
    rw [List.length_map, List.length_range, effectiveBlocks]
  rw [newAddresses, length_flatMap_pieces hlen, prefixSum_share, start_self _ L.worldSize_pos]

/-- The new addresses of one rank. -/
def rankAddresses (L : Launch) (heaps : ℕ → Heap) (blocks rank : ℕ) : List (Option Address) :=
  (List.range (effectiveBlocks L rank blocks)).map fun j => some ⟨rank, (heaps rank).length + j⟩

theorem rankAddresses_eq_nil_iff {heaps : ℕ → Heap} {rank : ℕ} (hr : rank < L.mpiWorldSize) :
    rankAddresses L heaps blocks rank = [] ↔ blocks ≤ rank := by
  rw [rankAddresses, List.map_eq_nil_iff, List.range_eq_nil, effectiveBlocks, share_eq_zero_iff hr]

/-- Of the gathered addresses, the ones that a rank has given. -/
theorem filter_newAddresses (heaps : ℕ → Heap) (blocks : ℕ) {rank : ℕ} (hr : rank < L.mpiWorldSize) :
    (newAddresses L heaps blocks).filter (fun address => address.map Address.rank = some rank) =
      rankAddresses L heaps blocks rank := by
  have hpiece : ∀ r, (rankAddresses L heaps blocks r).filter
      (fun address => address.map Address.rank = some rank) =
        if r = rank then rankAddresses L heaps blocks rank else [] := by
    intro r
    split
    · rename_i hsame
      subst hsame
      refine List.filter_eq_self.mpr fun address haddress => ?_
      obtain ⟨j, -, rfl⟩ := List.mem_map.mp haddress
      simp
    · rename_i hother
      refine List.filter_eq_nil_iff.mpr fun address haddress => ?_
      obtain ⟨j, -, rfl⟩ := List.mem_map.mp haddress
      simpa using hother
  show ((List.range L.mpiWorldSize).flatMap (rankAddresses L heaps blocks)).filter _ = _
  rw [List.filter_flatMap, List.flatMap_congr fun r _ => hpiece r]
  generalize rankAddresses L heaps blocks rank = piece
  have hone : ∀ m, (List.range m).flatMap (fun r => if r = rank then piece else []) =
      if rank < m then piece else [] := by
    intro m
    induction m with
    | zero => rfl
    | succ m ih =>
      rw [List.range_succ, List.flatMap_append, ih, List.flatMap_singleton]
      rcases Nat.lt_trichotomy m rank with h | rfl | h
      · rw [if_neg (by omega), if_neg (by omega), if_neg (by omega), List.append_nil]
      · rw [if_neg (Nat.lt_irrefl _), if_pos rfl, if_pos (Nat.lt_succ_self _), List.nil_append]
      · rw [if_pos h, if_neg (by omega), if_pos (by omega), List.append_nil]
  rw [hone, if_pos hr]

/-- A new address is one of a rank's new blocks. -/
theorem mem_newAddresses {heaps : ℕ → Heap} {blocks : ℕ} {a : Address} :
    some a ∈ newAddresses L heaps blocks ↔ a.rank < L.mpiWorldSize ∧
      (heaps a.rank).length ≤ a.index ∧
      a.index < (heaps a.rank).length + effectiveBlocks L a.rank blocks := by
  simp only [newAddresses, List.mem_flatMap, List.mem_range, List.mem_map, Option.some.injEq]
  constructor
  · rintro ⟨rank, hr, j, hj, rfl⟩
    exact ⟨hr, Nat.le_add_right _ _, Nat.add_lt_add_left hj _⟩
  · rintro ⟨hr, hlo, hhi⟩
    exact ⟨a.rank, hr, a.index - (heaps a.rank).length, by omega,
      by rw [Nat.add_sub_cancel' hlo]⟩

/-- **Where block `i` of a write is**: in the memory of its owner, behind the blocks that were there. -/
theorem newAddresses_getElem? (heaps : ℕ → Heap) {i : ℕ} (hi : i < blocks) :
    (newAddresses L heaps blocks)[i]? = some (some ⟨owner blocks L.mpiWorldSize i,
      (heaps (owner blocks L.mpiWorldSize i)).length +
        (i - start blocks L.mpiWorldSize (owner blocks L.mpiWorldSize i))⟩) := by
  obtain ⟨hr, hlo, hhi⟩ := owner_spec L.worldSize_pos hi
  generalize owner blocks L.mpiWorldSize i = r at hr hlo hhi ⊢
  obtain ⟨j, rfl⟩ := Nat.exists_eq_add_of_le hlo
  have hj : j < share blocks L.mpiWorldSize r := by
    rw [start_succ] at hhi
    omega
  have hlen : ∀ k < L.mpiWorldSize, ((List.range (effectiveBlocks L k blocks)).map fun j =>
      (some ⟨k, (heaps k).length + j⟩ : Option Address)).length = share blocks L.mpiWorldSize k := by
    intro k _
    rw [List.length_map, List.length_range, effectiveBlocks]
  have hpiece := getElem?_flatMap hlen hr hj
  rw [prefixSum_share] at hpiece
  have hround : (List.range (effectiveBlocks L r blocks))[j]? = some j := List.getElem?_range hj
  rw [newAddresses, hpiece, Nat.add_sub_cancel_left, List.getElem?_map, hround]
  rfl

end Write

/-! ### Sequences of writes -/

/-- One `DAGonFS_Write`. -/
structure BlockWrite where
  inode : ℕ
  buffer : List UInt8
  fileSize : ℕ

/-- The blocks of the file that is written. -/
def BlockWrite.blocks (L : Launch) (w : BlockWrite) : ℕ := w.fileSize ⌈/⌉ L.blockSize

def Store.step (L : Launch) (st : Store) (w : BlockWrite) : Option Store :=
  st.write L w.buffer w.inode w.fileSize

/-- What a write leaves. -/
structure Stepped (L : Launch) (st st' : Store) (w : BlockWrite) : Prop where
  fits : w.blocks L * L.blockSize ≤ w.buffer.length
  list : st'.blockList w.inode = recordAddresses L w.inode (w.blocks L)
    (newAddresses L st.heaps (w.blocks L)) (st.blockList w.inode)
  others : ∀ x, x ≠ w.inode → st'.blockList x = st.blockList x
  heaps : ∀ rank, st'.heaps rank = st.heaps rank ++ newBlocks L w.buffer (w.blocks L) rank

theorem Store.step_spec {L : Launch} {st st' : Store} {w : BlockWrite} (h : st.step L w = some st') :
    Stepped L st st' w := by
  have hblocks : numberOfBlocks L.blockSize w.fileSize = w.blocks L :=
    numberOfBlocks_eq_ceilDiv L.blockSize_pos w.fileSize
  rw [Store.step, Store.write, hblocks] at h
  split at h
  · rename_i hfit
    obtain rfl := Option.some.inj h
    exact ⟨hfit, Function.update_self .., fun x hx => Function.update_of_ne hx .., fun _ => rfl⟩
  · cases h

/-- The writes of one inode. -/
def writesTo (writes : List BlockWrite) (x : ℕ) : List BlockWrite := writes.filter fun w => w.inode = x

theorem writesTo_snoc (writes : List BlockWrite) (w : BlockWrite) (x : ℕ) :
    writesTo (writes ++ [w]) x = if w.inode = x then writesTo writes x ++ [w] else writesTo writes x := by
  by_cases hx : w.inode = x
  · simp [writesTo, hx]
  · simp [writesTo, hx]

/-- The numbers of blocks of these writes. -/
def blockCounts (L : Launch) (writes : List BlockWrite) (x : ℕ) : List ℕ :=
  (writesTo writes x).map (BlockWrite.blocks L)

theorem blockCounts_snoc (L : Launch) (writes : List BlockWrite) (w : BlockWrite) (x : ℕ) :
    blockCounts L (writes ++ [w]) x =
      if w.inode = x then blockCounts L writes x ++ [w.blocks L] else blockCounts L writes x := by
  rw [blockCounts, writesTo_snoc]
  split
  · rw [List.map_append]
    rfl
  · rfl

end DagonFs.DataPath
