import DagonFs.Blocks.Distribution
import DagonFs.Nodes.Effects
import DagonFs.Lib.Runs

/-!
# The distributed operations of the peer-to-peer model

Every peer runs the whole file system, has its own copy of the block lists, and may be the source of an
operation.  `dagonFS_Write` and `dagonFS_Read` are one round of the operation on all ranks: each rank's
`DAGonFS_Write` or `DAGonFS_Read`, joined at the collectives.  An all-gather leaves the addresses of
all blocks with every rank, so that any rank can be the source of the next read.

* `dagonFS_Write_spec`, `dagonFS_Read_spec`: what one operation does.
* `lastWrite_read`: after any sequence of writes, a read at any peer gives the bytes of the last write.

`none` stands for undefined behaviour, as in the client-server model.
-/

namespace DagonFs.PeerToPeer

open DagonFs.Lib.Collective DagonFs.Lib.BlockSplit DagonFs.Lib.Runs

/-- One process: its inode table, its block lists, and the blocks that it has allocated. -/
structure Peer where
  iNodeManager : Nodes
  blocksManager : Blocks
  heap : Heap

/-- The block list that a peer has for an inode. -/
def Peer.blockList (p : Peer) (inode : ℕ) : List DataBlock :=
  p.blocksManager.getDataBlockListOfInode inode

/-- The size that a peer has for an inode. -/
def Peer.stSize (p : Peer) (inode : ℕ) : Option ℕ :=
  (p.iNodeManager.getINodeByINodeNumber inode).map fun i => i.attr.stSize

namespace DistributedCode

variable (L : Launch) (sourceRank rank : ℕ)

/-! ### The calls of one rank -/

def writeScatter (fileSize : ℕ) : VectorCall :=
  .own sourceRank (blockLayout L (numberOfBlocks L.blockSize fileSize) L.blockSize) rank

/-- The all-gather has no root. -/
def writeAllgather (fileSize : ℕ) : VectorCall :=
  .own 0 (blockLayout L (numberOfBlocks L.blockSize fileSize) pointerPacketSize) rank

def readScatter (blocks : ℕ) : VectorCall :=
  .own sourceRank (blockLayout L blocks pointerPacketSize) rank

def readGather (blocks : ℕ) : VectorCall := .own sourceRank (blockLayout L blocks L.blockSize) rank

/-- `st_size` and `st_blocks` at a rank that is not the source. -/
def setSize (fileSize blocks : ℕ) (i : INode) : INode :=
  { i with attr := { i.attr with stSize := fileSize, stBlocks := blocks } }

/-- The end of `DAGonFS_Write` on one rank, from the all-gather on. -/
def finishWrite (p : Peer) (inode fileSize : ℕ) (heap : Heap) (addresses : List (Option Address)) :
    Option Peer :=
  let dataBlockList := recordAddresses L inode (numberOfBlocks L.blockSize fileSize) addresses
    (p.blockList inode)
  let p := { p with
    heap := heap, blocksManager := p.blocksManager.setBlockListForInode inode dataBlockList }
  if rank = sourceRank then some p
  else (p.iNodeManager.getINodeByINodeNumber inode).map fun _ =>
    { p with iNodeManager :=
        p.iNodeManager.modifyINode inode (setSize fileSize dataBlockList.length) }

end DistributedCode

open DistributedCode

variable (L : Launch) (peers : ℕ → Peer)

/-- Every rank of the world goes on to its new state; defined when each one's is. -/
def everyPeer (next : ℕ → Option Peer) : Option (ℕ → Peer) :=
  if ∀ rank < L.mpiWorldSize, (next rank).isSome then
    some fun rank => if rank < L.mpiWorldSize then (next rank).getD (peers rank) else peers rank
  else none

/-- `DAGonFS_Write` on every rank, with `buffer` at the source. -/
def dagonFS_Write (sourceRank : ℕ) (buffer : List UInt8) (inode fileSize : ℕ) : Option (ℕ → Peer) :=
  let blocks := numberOfBlocks L.blockSize fileSize
  (scatterv L.mpiWorldSize 1 sourceRank (writeScatter L sourceRank · fileSize) buffer).bind
    fun localScatBuf =>
      let stored := fun rank => storeBlocks L.blockSize rank (localScatBuf rank)
        (effectiveBlocks L rank blocks) (peers rank).heap
      -- each rank's array of addresses, before the all-gather fills it
      let addresses := fun _ => List.replicate blocks none
      (allgatherv L.mpiWorldSize pointerPacketSize (writeAllgather L · fileSize)
          (fun rank => (stored rank).2) addresses).bind fun addresses =>
        everyPeer L peers fun rank => finishWrite L sourceRank rank (peers rank) inode fileSize
          (stored rank).1 (addresses rank)

/-- `DAGonFS_Read` on every rank: the buffer that the source returns. -/
def dagonFS_Read (sourceRank : ℕ) (ioRequest : IORequestPacket) : Option (Option (List UInt8)) :=
  if ioRequest.fileSize = 0 then some none
  else
    let blocks := numberOfBlocksForRequest L.blockSize ioRequest.fileSize ioRequest.reqSize
    (getAddresses ((peers sourceRank).blockList ioRequest.inode) blocks).bind fun addressesToScat =>
      (scatterv L.mpiWorldSize pointerPacketSize sourceRank (readScatter L sourceRank · blocks)
          addressesToScat).bind fun localScatBuf =>
        (loadAndGather L sourceRank (readGather L sourceRank · blocks) (fun rank => (peers rank).heap)
          localScatBuf blocks).map some

/-! ### What one operation does -/

variable {L peers}

theorem callsFor_own {N width root : ℕ} :
    CallsFor L N width root fun rank => .own root (blockLayout L N width) rank :=
  fun _ _ => Or.inl rfl

/-- Every rank has, for each of the first blocks of an inode, an address of the rank that owns the
block, where the block of the buffer is. -/
def Stored (L : Launch) (peers : ℕ → Peer) (inode blocks : ℕ) (buffer : List UInt8) : Prop :=
  ∀ t < L.mpiWorldSize, ∀ i < blocks, ∃ block, ((peers t).blockList inode)[i]? = some block ∧
    Holds (fun rank => (peers rank).heap) (owner blocks L.mpiWorldSize i) block.getData
      (blockAt L.blockSize buffer i)

/-- What a write leaves behind. -/
structure Written (L : Launch) (peers peers' : ℕ → Peer) (sourceRank : ℕ) (buffer : List UInt8)
    (inode fileSize : ℕ) : Prop where
  inodes : ∀ rank, (peers' rank).iNodeManager.iNodes.length = (peers rank).iNodeManager.iNodes.length
  heaps : ∀ rank, (peers rank).heap <+: (peers' rank).heap
  stored : Stored L peers' inode (numberOfBlocks L.blockSize fileSize) buffer
  lists : ∀ rank x, x ≠ inode → (peers' rank).blockList x = (peers rank).blockList x
  size : ∀ rank < L.mpiWorldSize, rank ≠ sourceRank → (peers' rank).stSize inode = some fileSize
  sizes : ∀ rank x, x ≠ inode → (peers' rank).stSize x = (peers rank).stSize x

/-- What the end of `DAGonFS_Write` leaves on one rank. -/
structure Finished (L : Launch) (sourceRank rank inode fileSize : ℕ) (heap : Heap)
    (addresses : List (Option Address)) (p p' : Peer) : Prop where
  heap_eq : p'.heap = heap
  inodes : p'.iNodeManager.iNodes.length = p.iNodeManager.iNodes.length
  blockList : p'.blockList inode =
    recordAddresses L inode (numberOfBlocks L.blockSize fileSize) addresses (p.blockList inode)
  lists : ∀ x, x ≠ inode → p'.blockList x = p.blockList x
  size : rank ≠ sourceRank → p'.stSize inode = some fileSize
  sizes : ∀ x, x ≠ inode → p'.stSize x = p.stSize x

theorem finishWrite_spec (L : Launch) (sourceRank rank : ℕ) {inode : ℕ} (fileSize : ℕ) {p : Peer}
    (heap : Heap) (addresses : List (Option Address)) (hinode : inode < p.iNodeManager.iNodes.length) :
    ∃ p', finishWrite L sourceRank rank p inode fileSize heap addresses = some p' ∧
      Finished L sourceRank rank inode fileSize heap addresses p p' := by
  have hlist : ∀ l x, x ≠ inode → (p.blocksManager.setBlockListForInode inode
      l).getDataBlockListOfInode x = p.blockList x := fun l x hx =>
    p.blocksManager.getDataBlockListOfInode_set_ne l hx
  unfold finishWrite
  split
  · rename_i hsource
    exact ⟨_, rfl, rfl, rfl, Blocks.getDataBlockListOfInode_set .., hlist _, fun h => absurd hsource h,
      fun _ _ => rfl⟩
  · have hget := List.getElem?_eq_getElem hinode
    simp only [Nodes.getINodeByINodeNumber, hget, Option.map_some]
    refine ⟨_, rfl, rfl, Nodes.modifyINode_length .., Blocks.getDataBlockListOfInode_set .., hlist _,
      fun _ => ?_, fun x hx => ?_⟩
    · simp only [Peer.stSize, Nodes.getINodeByINodeNumber, Nodes.modifyINode_getElem?, if_pos, hget]
      rfl
    · simp only [Peer.stSize, Nodes.getINodeByINodeNumber, Nodes.modifyINode_getElem?,
        if_neg (Ne.symm hx)]

theorem everyPeer_eq {next : ℕ → Option Peer} {after : ℕ → Peer}
    (h : ∀ rank < L.mpiWorldSize, next rank = some (after rank)) :
    everyPeer L peers next =
      some fun rank => if rank < L.mpiWorldSize then after rank else peers rank := by
  rw [everyPeer, if_pos fun rank hr => by rw [h rank hr]; rfl]
  congr 1
  funext rank
  split
  · rename_i hr
    rw [h rank hr]
    rfl
  · rfl

/-- A rank of the world has gone on to its new state. -/
theorem everyPeer_some {next : ℕ → Option Peer} {peers' : ℕ → Peer}
    (h : everyPeer L peers next = some peers') {t : ℕ} (ht : t < L.mpiWorldSize) :
    next t = some (peers' t) := by
  unfold everyPeer at h
  split at h
  · rename_i hall
    obtain rfl := Option.some.inj h
    obtain ⟨p', hp'⟩ := Option.isSome_iff_exists.mp (hall t ht)
    simp only [if_pos ht, hp', Option.getD_some]
  · cases h

theorem everyPeer_away {next : ℕ → Option Peer} {peers' : ℕ → Peer}
    (h : everyPeer L peers next = some peers') {t : ℕ} (ht : ¬ t < L.mpiWorldSize) : peers' t = peers t := by
  unfold everyPeer at h
  split at h
  · obtain rfl := Option.some.inj h
    exact if_neg ht
  · cases h

/-- A write that is defined has ended on every rank. -/
theorem dagonFS_Write_ends {peers' : ℕ → Peer} {sourceRank inode fileSize : ℕ} {buffer : List UInt8}
    (h : dagonFS_Write L peers sourceRank buffer inode fileSize = some peers') {t : ℕ}
    (ht : t < L.mpiWorldSize) : ∃ (heap : Heap) (addresses : List (Option Address)),
      finishWrite L sourceRank t (peers t) inode fileSize heap addresses = some (peers' t) := by
  obtain ⟨localScatBuf, -, h⟩ := Option.bind_eq_some_iff.mp h
  obtain ⟨addresses, -, h⟩ := Option.bind_eq_some_iff.mp h
  exact ⟨_, _, everyPeer_some h ht⟩

/-- The collectives of a write: every rank stores its segment of the buffer, and has the addresses of
all blocks in rank order. -/
theorem dagonFS_Write_eq (peers : ℕ → Peer) {sourceRank fileSize N : ℕ} {buffer : List UInt8} (inode : ℕ)
    (hN : numberOfBlocks L.blockSize fileSize = N) (hsource : sourceRank < L.mpiWorldSize)
    (hfit : N * L.blockSize ≤ buffer.length) :
    ∃ (localScatBuf : ℕ → List UInt8) (all : ℕ → List (Option Address)),
      (∀ rank < L.mpiWorldSize, localScatBuf rank =
        (buffer.drop (start N L.mpiWorldSize rank * L.blockSize)).take
          (share N L.mpiWorldSize rank * L.blockSize)) ∧
      (∀ t < L.mpiWorldSize, all t = (List.range L.mpiWorldSize).flatMap fun rank =>
        (storeBlocks L.blockSize rank (localScatBuf rank) (effectiveBlocks L rank N)
          (peers rank).heap).2) ∧
      dagonFS_Write L peers sourceRank buffer inode fileSize = everyPeer L peers fun rank =>
        finishWrite L sourceRank rank (peers rank) inode fileSize (storeBlocks L.blockSize rank
          (localScatBuf rank) (effectiveBlocks L rank N) (peers rank).heap).1 (all rank) := by
  have hscatter : CallsFor L N (L.blockSize * 1) sourceRank (writeScatter L sourceRank · fileSize) := by
    rw [Nat.mul_one, ← hN]
    exact callsFor_own
  obtain ⟨localScatBuf, hlocal, hsegments⟩ := scatterv_blocks Nat.one_pos hsource hscatter hfit
  have hgather : ∀ rank < L.mpiWorldSize, (writeAllgather L rank fileSize).layout =
      fillLayout (fun j => share N L.mpiWorldSize j * pointerPacketSize) L.mpiWorldSize ∧
      (writeAllgather L rank fileSize).localCount =
        some (share N L.mpiWorldSize rank * pointerPacketSize) := by
    intro rank hr
    rw [← hN]
    exact ⟨rfl, congrArg some (entry_counts hr)⟩
  have hpieces : ∀ rank < L.mpiWorldSize, (storeBlocks L.blockSize rank (localScatBuf rank)
      (effectiveBlocks L rank N) (peers rank).heap).2.length = share N L.mpiWorldSize rank := by
    intro rank _
    rw [storeBlocks_eq, List.length_map, List.length_range, effectiveBlocks]
  have hroom : ∀ rank < L.mpiWorldSize, prefixSum (share N L.mpiWorldSize) L.mpiWorldSize =
      (List.replicate N (none : Option Address)).length := by
    intro rank _
    rw [prefixSum_share, start_self N L.worldSize_pos, List.length_replicate]
  obtain ⟨all, hall, haddresses⟩ := allgatherv_fillLayout (by decide : 0 < pointerPacketSize) hgather
    hpieces hroom
  refine ⟨localScatBuf, all, hsegments, haddresses, ?_⟩
  simp only [dagonFS_Write, hN, hlocal, hall, Option.bind_some]

/-- A distributed write that is defined had all its blocks in the buffer. -/
theorem le_of_dagonFS_Write {sourceRank inode fileSize : ℕ} {buffer : List UInt8} {peers' : ℕ → Peer}
    (hsource : sourceRank < L.mpiWorldSize)
    (h : dagonFS_Write L peers sourceRank buffer inode fileSize = some peers') :
    numberOfBlocks L.blockSize fileSize * L.blockSize ≤ buffer.length := by
  obtain ⟨localScatBuf, hlocal, -⟩ := Option.bind_eq_some_iff.mp h
  have hscatter : CallsFor L (numberOfBlocks L.blockSize fileSize) (L.blockSize * 1) sourceRank
      (writeScatter L sourceRank · fileSize) := by
    rw [Nat.mul_one]
    exact callsFor_own
  exact le_of_scatterv Nat.one_pos hsource hscatter hlocal

/-- A write ends on every rank, with the segments that it stores and the addresses that it records. -/
theorem dagonFS_Write_finished {sourceRank inode fileSize N : ℕ} {buffer : List UInt8}
    (hN : numberOfBlocks L.blockSize fileSize = N) (hsource : sourceRank < L.mpiWorldSize)
    (hfit : N * L.blockSize ≤ buffer.length)
    (hinode : ∀ rank < L.mpiWorldSize, inode < (peers rank).iNodeManager.iNodes.length) :
    ∃ (localScatBuf : ℕ → List UInt8) (all : ℕ → List (Option Address)) (peers' : ℕ → Peer),
      (∀ rank < L.mpiWorldSize, localScatBuf rank =
        (buffer.drop (start N L.mpiWorldSize rank * L.blockSize)).take
          (share N L.mpiWorldSize rank * L.blockSize)) ∧
      (∀ t < L.mpiWorldSize, all t = (List.range L.mpiWorldSize).flatMap fun rank =>
        (storeBlocks L.blockSize rank (localScatBuf rank) (effectiveBlocks L rank N)
          (peers rank).heap).2) ∧
      dagonFS_Write L peers sourceRank buffer inode fileSize = some peers' ∧
      (∀ rank < L.mpiWorldSize, Finished L sourceRank rank inode fileSize (storeBlocks L.blockSize rank
        (localScatBuf rank) (effectiveBlocks L rank N) (peers rank).heap).1 (all rank) (peers rank)
        (peers' rank)) ∧
      ∀ rank, ¬ rank < L.mpiWorldSize → peers' rank = peers rank := by
  obtain ⟨localScatBuf, all, hsegments, haddresses, hwrite⟩ :=
    dagonFS_Write_eq peers inode hN hsource hfit
  -- each rank's state after the all-gather
  have hfinish : ∀ rank, ∃ p', rank < L.mpiWorldSize →
      finishWrite L sourceRank rank (peers rank) inode fileSize (storeBlocks L.blockSize rank
        (localScatBuf rank) (effectiveBlocks L rank N) (peers rank).heap).1 (all rank) = some p' ∧
      Finished L sourceRank rank inode fileSize (storeBlocks L.blockSize rank (localScatBuf rank)
        (effectiveBlocks L rank N) (peers rank).heap).1 (all rank) (peers rank) p' := by
    intro rank
    by_cases hr : rank < L.mpiWorldSize
    · obtain ⟨p', hp'⟩ := finishWrite_spec L sourceRank rank fileSize (storeBlocks L.blockSize rank
        (localScatBuf rank) (effectiveBlocks L rank N) (peers rank).heap).1 (all rank) (hinode rank hr)
      exact ⟨p', fun _ => hp'⟩
    · exact ⟨peers rank, fun h => absurd h hr⟩
  choose after hafter using hfinish
  refine ⟨localScatBuf, all, fun rank => if rank < L.mpiWorldSize then after rank else peers rank,
    hsegments, haddresses, ?_, ?_, ?_⟩
  · rw [hwrite]
    exact everyPeer_eq fun rank hr => (hafter rank hr).1
  · intro rank hr
    simp only [if_pos hr]
    exact (hafter rank hr).2
  · intro rank hr
    exact if_neg hr

/-- **A distributed write.** -/
theorem dagonFS_Write_spec {sourceRank inode fileSize : ℕ} {buffer : List UInt8}
    (hsource : sourceRank < L.mpiWorldSize)
    (hfit : numberOfBlocks L.blockSize fileSize * L.blockSize ≤ buffer.length)
    (hinode : ∀ rank < L.mpiWorldSize, inode < (peers rank).iNodeManager.iNodes.length) :
    ∃ peers', dagonFS_Write L peers sourceRank buffer inode fileSize = some peers' ∧
      Written L peers peers' sourceRank buffer inode fileSize := by
  generalize hN : numberOfBlocks L.blockSize fileSize = N at hfit
  obtain ⟨localScatBuf, all, peers', hsegments, haddresses, hwrite, hfinished, haway⟩ :=
    dagonFS_Write_finished hN hsource hfit hinode
  refine ⟨peers', hwrite, ?_⟩
  constructor
  case inodes =>
    intro rank
    by_cases hr : rank < L.mpiWorldSize
    · exact (hfinished rank hr).inodes
    · rw [haway rank hr]
  case heaps =>
    intro rank
    by_cases hr : rank < L.mpiWorldSize
    · rw [(hfinished rank hr).heap_eq]
      exact storeBlocks_prefix ..
    · rw [haway rank hr]
  case lists =>
    intro rank x hx
    by_cases hr : rank < L.mpiWorldSize
    · exact (hfinished rank hr).lists x hx
    · rw [haway rank hr]
  case size => exact fun rank hr hne => (hfinished rank hr).size hne
  case sizes =>
    intro rank x hx
    by_cases hr : rank < L.mpiWorldSize
    · exact (hfinished rank hr).sizes x hx
    · rw [haway rank hr]
  case stored =>
    rw [hN]
    intro t ht i hi
    obtain ⟨block, hblock, hdata⟩ := recordAddresses_new L inode (all t) ((peers t).blockList inode) hi
    obtain ⟨address, hget, index, haddress, hbytes⟩ :=
      stored_addresses (fun rank => (peers rank).heap) hsegments hi
    obtain ⟨howner, -, -⟩ := owner_spec L.worldSize_pos hi
    refine ⟨block, ?_, index, ?_, ?_⟩
    · rw [(hfinished t ht).blockList, hN, hblock]
    · rw [hdata, haddresses t ht, List.getD_eq_getElem?_getD, hget, haddress]
      rfl
    · show ((peers' _).heap)[index]? = _
      rw [(hfinished _ howner).heap_eq]
      exact hbytes

/-- **A distributed read**, at any source, of blocks that are stored. -/
theorem dagonFS_Read_spec {sourceRank inode fileSize offset : ℕ} {buffer : List UInt8}
    (hsource : sourceRank < L.mpiWorldSize)
    (hfit : numberOfBlocks L.blockSize fileSize * L.blockSize ≤ buffer.length)
    (hstored : Stored L peers inode (numberOfBlocks L.blockSize fileSize) buffer) :
    ∃ buf, dagonFS_Read L peers sourceRank ⟨inode, fileSize, fileSize, offset⟩ = some buf ∧
      (buf.getD []).take fileSize = buffer.take fileSize := by
  by_cases hzero : fileSize = 0
  · subst hzero
    exact ⟨none, rfl, rfl⟩
  have hblocks : numberOfBlocksForRequest L.blockSize fileSize fileSize =
      numberOfBlocks L.blockSize fileSize := if_neg (Nat.lt_irrefl _)
  have hsize := le_numberOfBlocks_mul L.blockSize_pos fileSize
  simp only [dagonFS_Read, if_neg hzero, hblocks]
  generalize numberOfBlocks L.blockSize fileSize = N at hfit hstored hsize ⊢
  have hlen : N ≤ ((peers sourceRank).blockList inode).length := by
    by_contra hshort
    obtain ⟨_, hlast, -⟩ := hstored sourceRank hsource (N - 1) (by omega)
    have := (List.getElem?_eq_some_iff.mp hlast).1
    omega
  have hscatter : CallsFor L N (1 * pointerPacketSize) sourceRank (readScatter L sourceRank · N) := by
    rw [Nat.one_mul]
    exact callsFor_own
  have hroom : N * 1 ≤ ((((peers sourceRank).blockList inode).take N).map DataBlock.getData).length := by
    rw [List.length_map, List.length_take]
    omega
  obtain ⟨localScatBuf, hlocal, hsegments⟩ :=
    scatterv_blocks (by decide : 0 < pointerPacketSize) hsource hscatter hroom
  have hparts : ∀ rank < L.mpiWorldSize, ∀ j < effectiveBlocks L rank N, ∃ address,
      (localScatBuf rank)[j]? = some address ∧ Holds (fun rank => (peers rank).heap) rank address
        (blockAt L.blockSize (buffer.take (N * L.blockSize)) (start N L.mpiWorldSize rank + j)) := by
    intro rank hr j hj
    rw [effectiveBlocks] at hj
    have hlt := start_add_lt L.worldSize_pos hr hj
    obtain ⟨block, hblock, hbytes⟩ := hstored sourceRank hsource _ hlt
    rw [owner_start_add L.worldSize_pos hr hj] at hbytes
    refine ⟨block.getData, ?_, ?_⟩
    · rw [hsegments rank hr, List.getElem?_take, if_pos (by omega), List.getElem?_drop, Nat.mul_one,
        List.getElem?_map, List.getElem?_take, if_pos hlt, hblock]
      rfl
    · have hsame := blockAt_segment L.blockSize 0 N buffer hlt
      rw [Nat.zero_mul, List.drop_zero, Nat.zero_add] at hsame
      rwa [hsame]
  have hgather : CallsFor L N L.blockSize sourceRank (readGather L sourceRank · N) := callsFor_own
  have hcontent : (buffer.take (N * L.blockSize)).length = N * L.blockSize := by
    rw [List.length_take]
    omega
  rw [getAddresses_eq hlen, Option.bind_some, hlocal, Option.bind_some,
    loadAndGather_eq hsource hgather hcontent hparts]
  refine ⟨_, rfl, ?_⟩
  rw [Option.getD_some, List.take_take, Nat.min_eq_left hsize]

/-- The buffer that a read returns has the blocks of the file. -/
theorem length_of_dagonFS_Read {sourceRank inode fileSize offset : ℕ} {buf : Option (List UInt8)}
    (h : dagonFS_Read L peers sourceRank ⟨inode, fileSize, fileSize, offset⟩ = some buf) :
    (buf.getD []).length = numberOfBlocks L.blockSize fileSize * L.blockSize := by
  unfold dagonFS_Read at h
  split at h
  · rename_i hzero
    obtain rfl := Option.some.inj h
    obtain rfl : fileSize = 0 := hzero
    rw [numberOfBlocks_zero, Nat.zero_mul]
    rfl
  · have hblocks : numberOfBlocksForRequest L.blockSize fileSize fileSize =
        numberOfBlocks L.blockSize fileSize := if_neg (Nat.lt_irrefl _)
    obtain ⟨addressesToScat, -, h⟩ := Option.bind_eq_some_iff.mp h
    obtain ⟨localScatBuf, -, h⟩ := Option.bind_eq_some_iff.mp h
    obtain ⟨readBuff, hload, rfl⟩ := Option.map_eq_some_iff.mp h
    rw [Option.getD_some, length_of_loadAndGather hload, hblocks]

/-! ### Sequences of writes -/

/-- One completed `DAGonFS_Write`: its source, the inode, and the bytes at the source. -/
structure Write where
  sourceRank : ℕ
  inode : ℕ
  buffer : List UInt8
  fileSize : ℕ

/-- All ranks carry the write out. -/
def Write.step (L : Launch) (peers : ℕ → Peer) (w : Write) : Option (ℕ → Peer) :=
  dagonFS_Write L peers w.sourceRank w.buffer w.inode w.fileSize

/-- The source is a rank, its buffer has whole blocks, as `FuseWrite` allocates them, and the inode is
registered on all peers. -/
structure Write.Valid (L : Launch) (peers : ℕ → Peer) (w : Write) : Prop where
  source : w.sourceRank < L.mpiWorldSize
  wholeBlocks : numberOfBlocks L.blockSize w.fileSize * L.blockSize ≤ w.buffer.length
  registered : ∀ rank < L.mpiWorldSize, w.inode < (peers rank).iNodeManager.iNodes.length

/-- The last write to an inode. -/
def lastWrite (writes : List Write) (inode : ℕ) : Option Write :=
  writes.foldl (fun last w => if w.inode = inode then some w else last) none

theorem lastWrite_snoc (writes : List Write) (w : Write) (inode : ℕ) :
    lastWrite (writes ++ [w]) inode = if w.inode = inode then some w else lastWrite writes inode := by
  simp [lastWrite, List.foldl_append]

/-- The peers hold the last write of every inode. -/
structure Holding (L : Launch) (peers : ℕ → Peer) (writes : List Write) : Prop where
  wholeBlocks : ∀ inode w, lastWrite writes inode = some w →
    numberOfBlocks L.blockSize w.fileSize * L.blockSize ≤ w.buffer.length
  stored : ∀ inode w, lastWrite writes inode = some w →
    Stored L peers inode (numberOfBlocks L.blockSize w.fileSize) w.buffer
  size : ∀ inode w, lastWrite writes inode = some w → ∀ t < L.mpiWorldSize, t ≠ w.sourceRank →
    (peers t).stSize inode = some w.fileSize

/-- **The step lemma**: a write is the last one of its inode, and disturbs no other. -/
theorem Holding.step {peers' : ℕ → Peer} {writes : List Write} {w : Write}
    (h : Holding L peers writes) (hvalid : w.Valid L peers)
    (hw : Written L peers peers' w.sourceRank w.buffer w.inode w.fileSize) :
    Holding L peers' (writes ++ [w]) := by
  refine ⟨fun inode v hv => ?_, fun inode v hv => ?_, fun inode v hv t ht hne => ?_⟩ <;>
    rw [lastWrite_snoc] at hv <;> split at hv
  · obtain rfl := Option.some.inj hv
    exact hvalid.wholeBlocks
  · exact h.wholeBlocks inode v hv
  · rename_i hinode
    obtain rfl := Option.some.inj hv
    exact hinode ▸ hw.stored
  · rename_i hinode
    intro t ht i hi
    obtain ⟨block, hblock, hholds⟩ := h.stored inode v hv t ht i hi
    exact ⟨block, by rw [hw.lists t inode (Ne.symm hinode), hblock], hholds.mono hw.heaps⟩
  · rename_i hinode
    obtain rfl := Option.some.inj hv
    exact hinode ▸ hw.size t ht hne
  · rename_i hinode
    rw [hw.sizes t inode (Ne.symm hinode)]
    exact h.size inode v hv t ht hne

/-- The run lemma. -/
theorem holding_run (writes : List Write) (hvalid : ∀ w ∈ writes, w.Valid L peers) :
    ∃ peers', run (Write.step L) peers writes = some peers' ∧ Holding L peers' writes ∧
      ∀ rank, (peers' rank).iNodeManager.iNodes.length = (peers rank).iNodeManager.iNodes.length := by
  induction writes using List.reverseRecOn with
  | nil =>
    refine ⟨peers, rfl, ⟨?_, ?_, ?_⟩, fun _ => rfl⟩ <;> intro inode w hw <;> cases hw
  | append_singleton writes w ih =>
    obtain ⟨peers₁, hrun, hhold, hlen⟩ := ih fun v hv => hvalid v (by simp [hv])
    have hw := hvalid w (by simp)
    have hw₁ : w.Valid L peers₁ := ⟨hw.source, hw.wholeBlocks, fun rank hr => by
      rw [hlen rank]
      exact hw.registered rank hr⟩
    obtain ⟨peers₂, hstep, hwritten⟩ := dagonFS_Write_spec hw₁.source hw₁.wholeBlocks hw₁.registered
    exact ⟨peers₂, run_snoc hrun hstep, hhold.step hw₁ hwritten, fun rank =>
      (hwritten.inodes rank).trans (hlen rank)⟩

/-- **The last write wins on every peer.**  A sequence of writes ends; afterwards a read of a written
inode, at any peer, returns a buffer that begins with the bytes of the last write, and every peer but
the source of that write has its size. -/
theorem lastWrite_read (L : Launch) (peers : ℕ → Peer) (writes : List Write)
    (hvalid : ∀ w ∈ writes, w.Valid L peers) :
    ∃ peers', run (Write.step L) peers writes = some peers' ∧
      ∀ inode w, lastWrite writes inode = some w → ∀ t < L.mpiWorldSize,
        (∀ offset, ∃ buf,
          dagonFS_Read L peers' t ⟨inode, w.fileSize, w.fileSize, offset⟩ = some buf ∧
          (buf.getD []).take w.fileSize = w.buffer.take w.fileSize) ∧
        (t ≠ w.sourceRank → (peers' t).stSize inode = some w.fileSize) := by
  obtain ⟨peers', hrun, hhold, -⟩ := holding_run writes hvalid
  refine ⟨peers', hrun, fun inode w hw t ht => ⟨fun offset => ?_, hhold.size inode w hw t ht⟩⟩
  exact dagonFS_Read_spec ht (hhold.wholeBlocks inode w hw) (hhold.stored inode w hw)

/-- A file grows to two blocks at the first peer, then shrinks to one at the second. -/
theorem lastWrite_read_shrunk :
    let peers := fun _ : ℕ => (⟨⟨List.replicate 2 (Nodes.createEmptyINode .regularFile), []⟩,
      Blocks.new, []⟩ : Peer)
    let L : Launch := ⟨2, 4, by decide, by decide⟩
    ∃ peers' buf, run (Write.step L) peers
        [⟨0, 1, [1, 2, 3, 4, 5, 6, 7, 0], 7⟩, ⟨1, 1, [8, 9, 10, 0], 3⟩] = some peers' ∧
      dagonFS_Read L peers' 0 ⟨1, 3, 3, 0⟩ = some buf ∧ (buf.getD []).take 3 = [8, 9, 10] ∧
      (peers' 0).stSize 1 = some 3 := by
  intro peers L
  obtain ⟨peers', hrun, hread⟩ := lastWrite_read L peers
    [⟨0, 1, [1, 2, 3, 4, 5, 6, 7, 0], 7⟩, ⟨1, 1, [8, 9, 10, 0], 3⟩] (by
      intro w hw
      simp only [List.mem_cons, List.not_mem_nil, or_false] at hw
      obtain rfl | rfl := hw
      · exact ⟨by decide, by decide, fun _ _ => Nat.one_lt_two⟩
      · exact ⟨by decide, by decide, fun _ _ => Nat.one_lt_two⟩)
  obtain ⟨hbytes, hsize⟩ := hread 1 ⟨1, 1, [8, 9, 10, 0], 3⟩ rfl 0 Nat.two_pos
  obtain ⟨buf, hbuf, hcontent⟩ := hbytes 0
  exact ⟨peers', buf, hrun, hbuf, hcontent, hsize Nat.zero_ne_one⟩

end DagonFs.PeerToPeer
