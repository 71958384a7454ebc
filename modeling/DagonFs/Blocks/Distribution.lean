import DagonFs.Blocks.DataBlock
import DagonFs.Lib.BlockSplit
import Mathlib.Algebra.Order.Floor.Div

/-!
# Distributing blocks over the processes

What every `DAGonFS_Write` and `DAGonFS_Read` is made of, in both models of the file system: the number
of blocks of a file, the arrays for the collectives, the loop that stores the blocks a rank has received
in its own memory, the loop that copies blocks back from addresses, and the loop that records the
addresses in a block list.

* `stored_addresses`: after the store loops of all ranks, the gathered address of block `i` is in the
  memory of the owner of block `i`, where the bytes of block `i` are.
* `loaded_blocks`: the load loops of all ranks, from such addresses, give back the blocks in order.
-/

namespace DagonFs

open DagonFs.Lib.Collective DagonFs.Lib.BlockSplit

/-- How the program is started: the number of processes and `FILE_SYSTEM_SINGLE_BLOCK_SIZE`. -/
structure Launch where
  mpiWorldSize : ℕ
  blockSize : ℕ
  worldSize_pos : 0 < mpiWorldSize
  blockSize_pos : 0 < blockSize

/-- `sizeof(PointerPacket)`. -/
def pointerPacketSize : ℕ := 8

/-- `size / FILE_SYSTEM_SINGLE_BLOCK_SIZE + (size % FILE_SYSTEM_SINGLE_BLOCK_SIZE > 0)`. -/
def numberOfBlocks (blockSize size : ℕ) : ℕ :=
  size / blockSize + if 0 < size % blockSize then 1 else 0

/-- `numberOfBlocksForRequest` of a read. -/
def numberOfBlocksForRequest (blockSize fileSize reqSize : ℕ) : ℕ :=
  if fileSize < reqSize then numberOfBlocks blockSize fileSize else numberOfBlocks blockSize reqSize

/-- What the other ranks learn of an operation. -/
structure IORequestPacket where
  inode : ℕ
  fileSize : ℕ
  reqSize : ℕ
  offset : ℕ
  deriving DecidableEq

/-- The blocks that one process has allocated, in order. -/
abbrev Heap := List (List UInt8)

section Loops

variable (L : Launch) (blockSize rank : ℕ)

/-- The arrays of a collective: `(blockPerProcess + (i < remainingBlocks)) * width` bytes for rank `i`. -/
def blockLayout (blocks width : ℕ) : Layout :=
  fillLayout (fun i => share blocks L.mpiWorldSize i * width) L.mpiWorldSize

/-- `blockPerProcess + (rank < remainingBlocks)`. -/
def effectiveBlocks (blocks : ℕ) : ℕ := share blocks L.mpiWorldSize rank

/-- The bytes that `memcpy` takes from block `i` of a buffer. -/
def blockAt (buf : List UInt8) (i : ℕ) : List UInt8 := (buf.drop (i * blockSize)).take blockSize

/-- The first `i` rounds of the store loop: allocate a block, copy, keep the address. -/
def storeBlocks (localScatBuf : List UInt8) : ℕ → Heap → Heap × List (Option Address)
  | 0, heap => (heap, [])
  | i + 1, heap =>
    let (heap, localGathBuf) := storeBlocks localScatBuf i heap
    (heap ++ [blockAt blockSize localScatBuf i], localGathBuf ++ [some ⟨rank, heap.length⟩])

/-- What is at an address, read by `rank`. -/
def deref (heap : Heap) : Option Address → Option (List UInt8)
  | none => none
  | some a => if a.rank = rank then heap[a.index]? else none

/-- The first `i` rounds of the load loop: copy the block at each address. -/
def loadBlocks (heap : Heap) (addresses : List (Option Address)) : ℕ → Option (List UInt8)
  | 0 => some []
  | i + 1 =>
    (loadBlocks heap addresses i).bind fun localGathBuf =>
      (addresses[i]?).bind fun address => (deref rank heap address).map (localGathBuf ++ ·)

/-- The first `i` rounds of `inodeBlockList[i]->setData(addresses[i].address)`. -/
def setAddresses (addresses : List (Option Address)) : ℕ → List DataBlock → List DataBlock
  | 0, inodeBlockList => inodeBlockList
  | i + 1, inodeBlockList =>
    (setAddresses addresses i inodeBlockList).modify i (·.setData (addresses.getD i none))

/-- The block list after a write: it grows if it is too short, and its first blocks get the new
addresses. -/
def recordAddresses (inode numberOfBlocks : ℕ) (addresses : List (Option Address))
    (inodeBlockList : List DataBlock) : List DataBlock :=
  let additionBlocks : ℤ := numberOfBlocks - inodeBlockList.length
  let inodeBlockList :=
    if 0 < additionBlocks then
      addDataBlocksTo L.mpiWorldSize L.blockSize inodeBlockList additionBlocks inode
    else inodeBlockList
  setAddresses addresses numberOfBlocks inodeBlockList

/-- The first `i` rounds of `addressesToScat[i].address = dataBlockList[i]->getData()`. -/
def getAddresses (dataBlockList : List DataBlock) : ℕ → Option (List (Option Address))
  | 0 => some []
  | i + 1 =>
    (getAddresses dataBlockList i).bind fun addressesToScat =>
      (dataBlockList[i]?).map fun dataBlock => addressesToScat ++ [dataBlock.getData]

/-- One local computation on each of the `n` ranks; defined when every rank's is. -/
def everyRank {α : Type} (n : ℕ) (local_ : ℕ → Option (List α)) : Option (ℕ → List α) :=
  if ∀ rank < n, (local_ rank).isSome then some fun rank => (local_ rank).getD [] else none

/-- The second half of a read: every rank copies its blocks from the addresses that it has received,
and the root gathers them. -/
def loadAndGather (root : ℕ) (gatherCall : ℕ → VectorCall) (heaps : ℕ → Heap)
    (addresses : ℕ → List (Option Address)) (blocks : ℕ) : Option (List UInt8) :=
  (everyRank L.mpiWorldSize fun rank =>
      loadBlocks rank (heaps rank) (addresses rank) (effectiveBlocks L rank blocks)).bind
    fun localGathBuf =>
      -- the buffer before the gather fills it
      let readBuff := List.replicate (blocks * L.blockSize) 0
      gatherv L.mpiWorldSize 1 root gatherCall localGathBuf readBuff

end Loops

/-! ### Numbers of blocks -/

theorem numberOfBlocks_zero (B : ℕ) : numberOfBlocks B 0 = 0 := by simp [numberOfBlocks]

theorem le_numberOfBlocks_mul {B : ℕ} (hB : 0 < B) (size : ℕ) : size ≤ numberOfBlocks B size * B := by
  have hdiv : B * (size / B) + size % B = size := Nat.div_add_mod size B
  have hmod : size % B < B := Nat.mod_lt size hB
  rw [numberOfBlocks, Nat.add_mul, Nat.mul_comm (size / B)]
  split <;> omega

/-- The number of blocks is the least that holds the file. -/
theorem numberOfBlocks_le_iff {B : ℕ} (hB : 0 < B) (size k : ℕ) :
    numberOfBlocks B size ≤ k ↔ size ≤ k * B := by
  constructor
  · intro h
    exact (le_numberOfBlocks_mul hB size).trans (Nat.mul_le_mul_right B h)
  · intro h
    by_contra hlt
    have hk : k + 1 ≤ numberOfBlocks B size := Nat.lt_of_not_le hlt
    have hdiv : B * (size / B) + size % B = size := Nat.div_add_mod size B
    have hle : size / B ≤ k := by
      have := Nat.div_le_div_right (c := B) h
      rwa [Nat.mul_div_cancel _ hB] at this
    rw [numberOfBlocks] at hk
    split at hk
    · have hq : size / B = k := by omega
      rw [hq, Nat.mul_comm] at hdiv
      omega
    · omega

theorem numberOfBlocks_mono {B : ℕ} (hB : 0 < B) : Monotone (numberOfBlocks B) := by
  intro a b h
  rw [numberOfBlocks_le_iff hB]
  exact h.trans (le_numberOfBlocks_mul hB b)

theorem numberOfBlocks_eq_ceilDiv {B : ℕ} (hB : 0 < B) (size : ℕ) : numberOfBlocks B size = size ⌈/⌉ B := by
  apply le_antisymm
  · rw [numberOfBlocks_le_iff hB, Nat.mul_comm, ← smul_eq_mul]
    exact (ceilDiv_le_iff_le_smul hB).mp (Nat.le_refl _)
  · rw [ceilDiv_le_iff_le_smul hB, smul_eq_mul, Nat.mul_comm]
    exact le_numberOfBlocks_mul hB size

/-! ### The collectives on blocks

A block is `e` elements of `w` bytes: the bytes of the block, or its one address. -/

section Collectives

variable {α : Type} {L : Launch} {N e w root : ℕ} {calls : ℕ → VectorCall}

theorem blockLayout_eq (L : Launch) (N e w : ℕ) :
    blockLayout L N (e * w) =
      fillLayout (fun i => share N L.mpiWorldSize i * e * w) L.mpiWorldSize := by
  simp only [blockLayout, Nat.mul_assoc]

theorem prefixSum_blocks (L : Launch) (N e i : ℕ) :
    prefixSum (fun j => share N L.mpiWorldSize j * e) i = start N L.mpiWorldSize i * e := by
  rw [prefixSum_mul, prefixSum_share]

/-- The ranks call with the arrays for `N` blocks of `e * w` bytes, and each with its own count. -/
def CallsFor (L : Launch) (N width root : ℕ) (calls : ℕ → VectorCall) : Prop :=
  ∀ i < L.mpiWorldSize, calls i = .own root (blockLayout L N width) i ∨
    calls i = .inPlace root (blockLayout L N width)

theorem CallsFor.root_layout {width : ℕ} (h : CallsFor L N width root calls)
    (hroot : root < L.mpiWorldSize) : (calls root).layout = blockLayout L N width := by
  rcases h root hroot with h | h <;> rw [h] <;> rfl

theorem CallsFor.counts (h : CallsFor L N (e * w) root calls) :
    ∀ i < L.mpiWorldSize, (calls i).root = root ∧ ((calls i).localCount = none ∨
      (calls i).localCount = some (share N L.mpiWorldSize i * e * w)) := by
  intro i hi
  rcases h i hi with h | h
  · refine ⟨by rw [h]; rfl, Or.inr ?_⟩
    rw [h, VectorCall.own, blockLayout_eq, entry_counts hi]
  · exact ⟨by rw [h]; rfl, Or.inl (by rw [h]; rfl)⟩

theorem scatterv_blocks (hw : 0 < w) (hroot : root < L.mpiWorldSize)
    (hcalls : CallsFor L N (e * w) root calls) {sendBuf : List α} (hfit : N * e ≤ sendBuf.length) :
    ∃ local_, scatterv L.mpiWorldSize w root calls sendBuf = some local_ ∧
      ∀ i < L.mpiWorldSize, local_ i =
        (sendBuf.drop (start N L.mpiWorldSize i * e)).take (share N L.mpiWorldSize i * e) := by
  have hlayout := hcalls.root_layout hroot
  rw [blockLayout_eq] at hlayout
  have htotal := prefixSum_blocks L N e L.mpiWorldSize
  rw [start_self N L.worldSize_pos] at htotal
  rw [← htotal] at hfit
  have hscatter := scatterv_fillLayout hw hlayout hcalls.counts hfit
  simpa only [prefixSum_blocks] using hscatter

/-- A scatter that is defined has all `N` blocks to send. -/
theorem le_of_scatterv (hw : 0 < w) (hroot : root < L.mpiWorldSize)
    (hcalls : CallsFor L N (e * w) root calls) {sendBuf : List α} {local_ : ℕ → List α}
    (h : scatterv L.mpiWorldSize w root calls sendBuf = some local_) : N * e ≤ sendBuf.length := by
  unfold scatterv at h
  split at h
  · rename_i hfits
    have hlast : L.mpiWorldSize - 1 < L.mpiWorldSize := Nat.sub_one_lt_of_lt L.worldSize_pos
    have hseg := hfits.2 _ hlast
    rw [hcalls.root_layout hroot, blockLayout_eq, entry_counts hlast, entry_displs hlast,
      Nat.mul_div_cancel _ hw, Nat.mul_div_cancel _ hw, prefixSum_blocks, ← Nat.add_mul, ← start_succ,
      Nat.sub_add_cancel L.worldSize_pos, start_self N L.worldSize_pos] at hseg
    exact hseg
  · cases h

theorem gatherv_blocks (hw : 0 < w) (hroot : root < L.mpiWorldSize)
    (hcalls : CallsFor L N (e * w) root calls) {pieces : ℕ → List α} {recvBuf : List α}
    (hlen : ∀ i < L.mpiWorldSize, (pieces i).length = share N L.mpiWorldSize i * e)
    (hfit : N * e = recvBuf.length) :
    gatherv L.mpiWorldSize w root calls pieces recvBuf =
      some ((List.range L.mpiWorldSize).flatMap pieces) := by
  have hlayout := hcalls.root_layout hroot
  rw [blockLayout_eq] at hlayout
  have htotal := prefixSum_blocks L N e L.mpiWorldSize
  rw [start_self N L.worldSize_pos] at htotal
  exact gatherv_fillLayout hw hlayout hcalls.counts hlen (htotal.trans hfit)

end Collectives

/-! ### Blocks of a buffer -/

theorem blockAt_length {B i : ℕ} {buf : List UInt8} (h : (i + 1) * B ≤ buf.length) :
    (blockAt B buf i).length = B := by
  rw [Nat.succ_mul] at h
  rw [blockAt, List.length_take, List.length_drop]
  omega

/-- Block `j` of the segment that begins at block `first` is block `first + j` of the buffer. -/
theorem blockAt_segment (B first count : ℕ) (buf : List UInt8) {j : ℕ} (hj : j < count) :
    blockAt B ((buf.drop (first * B)).take (count * B)) j = blockAt B buf (first + j) := by
  have hfit : (j + 1) * B ≤ count * B := Nat.mul_le_mul_right B hj
  rw [Nat.succ_mul] at hfit
  rw [blockAt, blockAt, List.drop_take, List.drop_drop, List.take_take, ← Nat.add_mul,
    Nat.min_eq_left (by omega)]

/-- The blocks of a buffer, one after the other. -/
theorem flatMap_blockAt (B : ℕ) (buf : List UInt8) (N : ℕ) :
    (List.range N).flatMap (blockAt B buf) = buf.take (N * B) := by
  induction N with
  | zero => simp
  | succ N ih =>
    rw [List.range_succ, List.flatMap_append, ih, List.flatMap_singleton, blockAt, Nat.succ_mul,
      List.take_add]

/-- A buffer that is put together from blocks has them as its blocks. -/
theorem blockAt_flatMap {B N i : ℕ} {f : ℕ → List UInt8} (hlen : ∀ j < N, (f j).length = B)
    (hi : i < N) : blockAt B ((List.range N).flatMap f) i = f i := by
  induction N with
  | zero => omega
  | succ N ih =>
    have hlast := hlen N (Nat.lt_succ_self N)
    have hflat : ((List.range N).flatMap f).length = N * B := by
      rw [List.length_flatMap, List.map_congr_left (g := fun _ => B)]
      · simp
      · intro j hj
        exact hlen j (Nat.lt_succ_of_lt (List.mem_range.mp hj))
    rw [List.range_succ, List.flatMap_append, List.flatMap_singleton, blockAt]
    rcases Nat.lt_or_ge i N with hlt | hge
    · have hfit : (i + 1) * B ≤ N * B := Nat.mul_le_mul_right B hlt
      rw [Nat.succ_mul] at hfit
      rw [List.drop_append_of_le_length (by omega), List.take_append_of_le_length
        (by rw [List.length_drop]; omega)]
      exact ih (fun j hj => hlen j (Nat.lt_succ_of_lt hj)) hlt
    · obtain rfl : i = N := by omega
      rw [← hflat, List.drop_left, ← hlast, List.take_length]

/-! ### The loops -/

/-- The store loop appends its blocks to the heap, and keeps their addresses. -/
theorem storeBlocks_eq (B rank : ℕ) (buf : List UInt8) (k : ℕ) (heap : Heap) :
    storeBlocks B rank buf k heap =
      (heap ++ (List.range k).map (blockAt B buf),
        (List.range k).map fun j => some ⟨rank, heap.length + j⟩) := by
  induction k with
  | zero => simp [storeBlocks]
  | succ k ih =>
    rw [storeBlocks, ih]
    simp [List.range_succ]

/-- The heap after the store loop begins with the heap before it. -/
theorem storeBlocks_prefix (B rank : ℕ) (buf : List UInt8) (k : ℕ) (heap : Heap) :
    heap <+: (storeBlocks B rank buf k heap).1 := by
  rw [storeBlocks_eq]
  exact List.prefix_append heap _

/-- `address` is an address of `rank`'s memory, where `bytes` are. -/
def Holds (heaps : ℕ → Heap) (rank : ℕ) (address : Option Address) (bytes : List UInt8) : Prop :=
  ∃ index, address = some ⟨rank, index⟩ ∧ (heaps rank)[index]? = some bytes

theorem Holds.mono {heaps heaps' : ℕ → Heap} (hmono : ∀ rank, heaps rank <+: heaps' rank)
    {rank : ℕ} {address : Option Address} {bytes : List UInt8} (h : Holds heaps rank address bytes) :
    Holds heaps' rank address bytes := by
  obtain ⟨index, haddress, hget⟩ := h
  refine ⟨index, haddress, ?_⟩
  obtain ⟨tail, htail⟩ := hmono rank
  have hlt : index < (heaps rank).length := (List.getElem?_eq_some_iff.mp hget).1
  rw [← htail, List.getElem?_append_left hlt, hget]

theorem Holds.deref {heaps : ℕ → Heap} {rank : ℕ} {address : Option Address} {bytes : List UInt8}
    (h : Holds heaps rank address bytes) : deref rank (heaps rank) address = some bytes := by
  obtain ⟨index, rfl, hget⟩ := h
  rw [DagonFs.deref, if_pos rfl, hget]

/-- **The addresses after the store loops of all ranks.**  Rank `r` has stored the blocks of its
segment of the buffer; the address gathered for block `i` is the owner's, and holds block `i`. -/
theorem stored_addresses {L : Launch} {N : ℕ} {buf : List UInt8} {local_ : ℕ → List UInt8}
    (heaps : ℕ → Heap)
    (hlocal : ∀ r < L.mpiWorldSize, local_ r =
      (buf.drop (start N L.mpiWorldSize r * L.blockSize)).take
        (share N L.mpiWorldSize r * L.blockSize)) {i : ℕ} (hi : i < N) :
    ∃ address, ((List.range L.mpiWorldSize).flatMap fun r =>
        (storeBlocks L.blockSize r (local_ r) (effectiveBlocks L r N) (heaps r)).2)[i]? = some address ∧
      Holds (fun r => (storeBlocks L.blockSize r (local_ r) (effectiveBlocks L r N) (heaps r)).1)
        (owner N L.mpiWorldSize i) address (blockAt L.blockSize buf i) := by
  obtain ⟨hr, hlo, hhi⟩ := owner_spec L.worldSize_pos hi
  generalize owner N L.mpiWorldSize i = r at hr hlo hhi ⊢
  obtain ⟨j, rfl⟩ := Nat.exists_eq_add_of_le hlo
  have hj : j < share N L.mpiWorldSize r := by
    rw [start_succ] at hhi
    omega
  refine ⟨some ⟨r, (heaps r).length + j⟩, ?_, (heaps r).length + j, rfl, ?_⟩
  · -- element `j` of rank `r`'s piece
    have hlen : ∀ k < L.mpiWorldSize, (storeBlocks L.blockSize k (local_ k) (effectiveBlocks L k N)
        (heaps k)).2.length = share N L.mpiWorldSize k := by
      intro k _
      rw [storeBlocks_eq, List.length_map, List.length_range, effectiveBlocks]
    have hpiece := getElem?_flatMap hlen hr hj
    rw [prefixSum_share] at hpiece
    rw [hpiece, storeBlocks_eq, effectiveBlocks]
    simp [hj]
  · have hblock : blockAt L.blockSize (local_ r) j =
        blockAt L.blockSize buf (start N L.mpiWorldSize r + j) := by
      rw [hlocal r hr, blockAt_segment _ _ _ _ hj]
    simp only [storeBlocks_eq, effectiveBlocks]
    rw [List.getElem?_append_right (Nat.le_add_right _ _), Nat.add_sub_cancel_left, ← hblock]
    simp [hj]

/-- The load loop from addresses that all hold blocks of this rank. -/
theorem loadBlocks_eq {heaps : ℕ → Heap} {rank : ℕ} {addresses : List (Option Address)}
    {content : ℕ → List UInt8} {k : ℕ}
    (h : ∀ j < k, ∃ address, addresses[j]? = some address ∧ Holds heaps rank address (content j)) :
    loadBlocks rank (heaps rank) addresses k = some ((List.range k).flatMap content) := by
  induction k with
  | zero => rfl
  | succ k ih =>
    obtain ⟨address, hget, hholds⟩ := h k (Nat.lt_succ_self k)
    rw [loadBlocks, ih fun j hj => h j (Nat.lt_succ_of_lt hj)]
    simp [hget, hholds.deref, List.range_succ]

/-- The load loop depends on what is at the addresses that it uses. -/
theorem loadBlocks_congr {rank k : ℕ} {heap heap' : Heap} {addresses addresses' : List (Option Address)}
    (h : ∀ j < k, (addresses[j]?).bind (deref rank heap) = (addresses'[j]?).bind (deref rank heap')) :
    loadBlocks rank heap addresses k = loadBlocks rank heap' addresses' k := by
  induction k with
  | zero => rfl
  | succ k ih =>
    have hround : ∀ (heap : Heap) (addresses : List (Option Address)) (localGathBuf : List UInt8),
        (addresses[k]?).bind (fun address => (deref rank heap address).map (localGathBuf ++ ·)) =
          ((addresses[k]?).bind (deref rank heap)).map (localGathBuf ++ ·) := by
      intro heap addresses localGathBuf
      cases addresses[k]? <;> rfl
    rw [loadBlocks, loadBlocks, ih fun j hj => h j (Nat.lt_succ_of_lt hj)]
    simp only [hround, h k (Nat.lt_succ_self k)]

/-- The load loop ends exactly when every address it uses is one of this rank's blocks. -/
theorem loadBlocks_isSome_iff {heap : Heap} {rank : ℕ} {addresses : List (Option Address)} {k : ℕ} :
    (loadBlocks rank heap addresses k).isSome ↔
      ∀ j < k, ∃ a : Address, addresses[j]? = some (some a) ∧ a.rank = rank ∧ a.index < heap.length := by
  induction k with
  | zero => simp [loadBlocks]
  | succ k ih =>
    have hlast : ((addresses[k]?).bind (deref rank heap)).isSome ↔
        ∃ a : Address, addresses[k]? = some (some a) ∧ a.rank = rank ∧ a.index < heap.length := by
      rcases addresses[k]? with _ | _ | a
      · simp
      · simp [deref]
      · by_cases hrank : a.rank = rank <;> simp [deref, hrank]
    have hround : (loadBlocks rank heap addresses (k + 1)).isSome ↔
        (loadBlocks rank heap addresses k).isSome ∧ ((addresses[k]?).bind (deref rank heap)).isSome := by
      rw [loadBlocks]
      cases loadBlocks rank heap addresses k <;> cases addresses[k]? <;> simp
    rw [hround, hlast, ih, Nat.forall_lt_succ_right]

theorem getAddresses_eq {dataBlockList : List DataBlock} {k : ℕ} (h : k ≤ dataBlockList.length) :
    getAddresses dataBlockList k = some ((dataBlockList.take k).map DataBlock.getData) := by
  induction k with
  | zero => simp [getAddresses]
  | succ k ih =>
    have hlt : k < dataBlockList.length := h
    rw [getAddresses, ih hlt.le, List.getElem?_eq_getElem hlt, List.take_succ_eq_append_getElem hlt,
      List.map_append]
    rfl

theorem getAddresses_isSome_iff {dataBlockList : List DataBlock} {k : ℕ} :
    (getAddresses dataBlockList k).isSome ↔ k ≤ dataBlockList.length := by
  constructor
  · intro h
    induction k with
    | zero => exact Nat.zero_le _
    | succ k ih =>
      rw [getAddresses] at h
      by_contra hlt
      rw [List.getElem?_eq_none (by omega)] at h
      cases hget : getAddresses dataBlockList k <;> simp [hget] at h
  · intro h
    rw [getAddresses_eq h]
    rfl

theorem setAddresses_length (addresses : List (Option Address)) (k : ℕ) (l : List DataBlock) :
    (setAddresses addresses k l).length = l.length := by
  induction k with
  | zero => rfl
  | succ k ih => rw [setAddresses, List.length_modify, ih]

/-- The blocks reached by the loop hold the new addresses, the others are as they were. -/
theorem setAddresses_getElem? (addresses : List (Option Address)) (k : ℕ) (l : List DataBlock) (i : ℕ) :
    (setAddresses addresses k l)[i]? =
      if i < k then (l[i]?).map (·.setData (addresses.getD i none)) else l[i]? := by
  induction k with
  | zero => simp [setAddresses]
  | succ k ih =>
    rw [setAddresses, List.getElem?_modify, ih]
    rcases Nat.lt_trichotomy i k with h | h | h
    · simp [h, Nat.ne_of_gt h, Nat.lt_succ_of_lt h]
    · subst h
      simp
    · simp [Nat.ne_of_lt h, Nat.not_lt.mpr h.le, Nat.not_lt.mpr (Nat.succ_le_of_lt h)]

/-- The list grows to the number of blocks, and never gets shorter. -/
theorem recordAddresses_length (L : Launch) (inode blocks : ℕ) (addresses : List (Option Address))
    (l : List DataBlock) :
    (recordAddresses L inode blocks addresses l).length = max l.length blocks := by
  rw [recordAddresses, setAddresses_length]
  split
  · rw [addDataBlocksTo_length]
    omega
  · omega

/-- The first blocks get the addresses of the write. -/
theorem recordAddresses_new (L : Launch) (inode : ℕ) {blocks i : ℕ}
    (addresses : List (Option Address)) (l : List DataBlock) (hi : i < blocks) :
    ∃ block, (recordAddresses L inode blocks addresses l)[i]? = some block ∧
      block.getData = addresses.getD i none := by
  have hlen := recordAddresses_length L inode blocks addresses l
  rw [recordAddresses, setAddresses_length] at hlen
  rw [recordAddresses, setAddresses_getElem?, if_pos hi, List.getElem?_eq_getElem (by omega)]
  exact ⟨_, rfl, rfl⟩

/-- Past them the list is as it was. -/
theorem recordAddresses_old (L : Launch) (inode : ℕ) {blocks i : ℕ}
    (addresses : List (Option Address)) (l : List DataBlock) (hi : blocks ≤ i) :
    (recordAddresses L inode blocks addresses l)[i]? = l[i]? := by
  have hlen := recordAddresses_length L inode blocks addresses l
  rw [recordAddresses, setAddresses_length] at hlen
  rw [recordAddresses, setAddresses_getElem?, if_neg (Nat.not_lt.mpr hi)]
  split
  · rename_i hgrows
    rw [if_pos hgrows] at hlen
    rw [List.getElem?_eq_none (by omega), List.getElem?_eq_none (by omega)]
  · rfl

/-- All of the first blocks' addresses, in order. -/
theorem take_recordAddresses (L : Launch) (inode : ℕ) {blocks : ℕ} {addresses : List (Option Address)}
    (l : List DataBlock) (hlen : addresses.length = blocks) :
    ((recordAddresses L inode blocks addresses l).take blocks).map DataBlock.getData = addresses := by
  refine List.ext_getElem? fun i => ?_
  rw [List.getElem?_map, List.getElem?_take]
  split
  · rename_i hi
    obtain ⟨block, hblock, hdata⟩ := recordAddresses_new L inode addresses l hi
    rw [hblock, Option.map_some, hdata, List.getD_eq_getElem?_getD,
      List.getElem?_eq_getElem (hlen ▸ hi), Option.getD_some]
  · rw [List.getElem?_eq_none (by omega), Option.map_none]

theorem everyRank_eq {α : Type} {n : ℕ} {local_ : ℕ → Option (List α)} {pieces : ℕ → List α}
    (h : ∀ rank < n, local_ rank = some (pieces rank)) :
    ∃ pieces', everyRank n local_ = some pieces' ∧ ∀ rank < n, pieces' rank = pieces rank := by
  refine ⟨_, if_pos fun rank hr => by rw [h rank hr]; rfl, fun rank hr => ?_⟩
  rw [h rank hr]
  rfl

theorem everyRank_isSome_iff {α : Type} {n : ℕ} {local_ : ℕ → Option (List α)} :
    (everyRank n local_).isSome ↔ ∀ rank < n, (local_ rank).isSome := by
  unfold everyRank
  split
  · rename_i h
    simpa using h
  · rename_i h
    simpa using h

/-- The second half of a read depends on what the load loops of the ranks give. -/
theorem loadAndGather_congr {L : Launch} {root blocks : ℕ} {gatherCall : ℕ → VectorCall}
    {heaps heaps' : ℕ → Heap} {addresses addresses' : ℕ → List (Option Address)}
    (h : ∀ rank < L.mpiWorldSize,
      loadBlocks rank (heaps rank) (addresses rank) (effectiveBlocks L rank blocks) =
        loadBlocks rank (heaps' rank) (addresses' rank) (effectiveBlocks L rank blocks)) :
    loadAndGather L root gatherCall heaps addresses blocks =
      loadAndGather L root gatherCall heaps' addresses' blocks := by
  have hdefined : (∀ rank < L.mpiWorldSize, (loadBlocks rank (heaps rank) (addresses rank)
      (effectiveBlocks L rank blocks)).isSome) ↔ ∀ rank < L.mpiWorldSize, (loadBlocks rank
      (heaps' rank) (addresses' rank) (effectiveBlocks L rank blocks)).isSome :=
    forall₂_congr fun rank hr => by rw [h rank hr]
  unfold loadAndGather everyRank
  split
  · rename_i hall
    rw [if_pos (hdefined.mp hall), Option.bind_some, Option.bind_some]
    exact gatherv_congr fun rank hr => congrArg (·.getD []) (h rank hr)
  · rename_i hall
    rw [if_neg (hall ∘ hdefined.mpr)]

/-- The buffer that the root has gathered has all blocks. -/
theorem length_of_loadAndGather {L : Launch} {root blocks : ℕ} {gatherCall : ℕ → VectorCall}
    {heaps : ℕ → Heap} {addresses : ℕ → List (Option Address)} {content : List UInt8}
    (h : loadAndGather L root gatherCall heaps addresses blocks = some content) :
    content.length = blocks * L.blockSize := by
  obtain ⟨localGathBuf, -, hgather⟩ := Option.bind_eq_some_iff.mp h
  rw [length_of_gatherv Nat.one_pos hgather, List.length_replicate]

/-- **The second half of a read** gives back the content, if every rank has the addresses of its own
part of the blocks. -/
theorem loadAndGather_eq {L : Launch} {root blocks : ℕ} {gatherCall : ℕ → VectorCall}
    {heaps : ℕ → Heap} {addresses : ℕ → List (Option Address)} {content : List UInt8}
    (hroot : root < L.mpiWorldSize) (hcalls : CallsFor L blocks L.blockSize root gatherCall)
    (hcontent : content.length = blocks * L.blockSize)
    (hholds : ∀ rank < L.mpiWorldSize, ∀ j < effectiveBlocks L rank blocks, ∃ address,
      (addresses rank)[j]? = some address ∧ Holds heaps rank address
        (blockAt L.blockSize content (start blocks L.mpiWorldSize rank + j))) :
    loadAndGather L root gatherCall heaps addresses blocks = some content := by
  have hload : ∀ rank < L.mpiWorldSize, loadBlocks rank (heaps rank) (addresses rank)
      (effectiveBlocks L rank blocks) = some ((List.range (share blocks L.mpiWorldSize rank)).flatMap
        fun j => blockAt L.blockSize content (start blocks L.mpiWorldSize rank + j)) :=
    fun rank hr => loadBlocks_eq (hholds rank hr)
  obtain ⟨pieces, hpieces, hpiece⟩ := everyRank_eq hload
  have hsizes : ∀ rank < L.mpiWorldSize,
      (pieces rank).length = share blocks L.mpiWorldSize rank * L.blockSize := by
    intro rank hr
    rw [hpiece rank hr, List.length_flatMap, List.map_congr_left (g := fun _ => L.blockSize)]
    · simp
    · intro j hj
      have hlt := start_add_lt L.worldSize_pos hr (List.mem_range.mp hj)
      exact blockAt_length (hcontent ▸ Nat.mul_le_mul_right _ hlt)
  have hroom : blocks * L.blockSize = (List.replicate (blocks * L.blockSize) (0 : UInt8)).length := by
    simp
  have hall : (List.range L.mpiWorldSize).flatMap pieces = content := by
    rw [List.flatMap_congr fun rank hr => hpiece rank (List.mem_range.mp hr),
      flatMap_parts L.worldSize_pos, flatMap_blockAt, ← hcontent, List.take_length]
  rw [← Nat.mul_one L.blockSize] at hcalls
  rw [loadAndGather, hpieces, Option.bind_some,
    gatherv_blocks Nat.one_pos hroot hcalls hsizes hroom, hall]

end DagonFs
