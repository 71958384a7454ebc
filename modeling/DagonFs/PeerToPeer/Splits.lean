import DagonFs.ClientServer.System
import DagonFs.PeerToPeer.DistributedCode

/-!
# One split of the blocks in all operations

`MasterProcessCode`, `NodeProcessCode` and `DistributedCode` each fill arrays for two collectives in a write and for
two in a read: one moves the blocks, the other their addresses.  All of these loops split the blocks alike.

* `layout_eq`: every loop fills the arrays with the shares of the blocks.
* `layout_isSplit`: so the arrays of every loop are a partition, with the same owner for each block.
-/

namespace DagonFs

open DagonFs.Lib.Collective DagonFs.Lib.BlockSplit

/-- Who fills the arrays. -/
inductive Role where
  | master
  | node (rank : ℕ)
  | peer (sourceRank rank : ℕ)

/-- `DAGonFS_Write` and `DAGonFS_Read`. -/
inductive Transfer where
  | write (fileSize : ℕ)
  | read (fileSize reqSize : ℕ)

/-- What a collective moves of each block: its bytes, or a `PointerPacket`. -/
inductive Moved where
  | data
  | address

/-- The number of blocks that the operation works on. -/
def Transfer.blocks (L : Launch) : Transfer → ℕ
  | .write fileSize => numberOfBlocks L.blockSize fileSize
  | .read fileSize reqSize => numberOfBlocksForRequest L.blockSize fileSize reqSize

/-- The element size. -/
def Moved.width (L : Launch) : Moved → ℕ
  | .data => L.blockSize
  | .address => pointerPacketSize

/-- The call for which a loop fills the arrays. -/
def Role.call (L : Launch) : Role → Transfer → Moved → VectorCall
  | .master, .write fileSize, .data => MasterProcessCode.writeScatter L fileSize
  | .master, .write fileSize, .address => MasterProcessCode.writeGather L fileSize
  | .master, .read fileSize reqSize, .address =>
    MasterProcessCode.readScatter L (numberOfBlocksForRequest L.blockSize fileSize reqSize)
  | .master, .read fileSize reqSize, .data =>
    MasterProcessCode.readGather L (numberOfBlocksForRequest L.blockSize fileSize reqSize)
  | .node rank, .write fileSize, .data => NodeProcessCode.writeScatter L rank fileSize
  | .node rank, .write fileSize, .address => NodeProcessCode.writeGather L rank fileSize
  | .node rank, .read fileSize reqSize, .address =>
    NodeProcessCode.readScatter L rank (numberOfBlocksForRequest L.blockSize fileSize reqSize)
  | .node rank, .read fileSize reqSize, .data =>
    NodeProcessCode.readGather L rank (numberOfBlocksForRequest L.blockSize fileSize reqSize)
  | .peer sourceRank rank, .write fileSize, .data =>
    PeerToPeer.DistributedCode.writeScatter L sourceRank rank fileSize
  | .peer _ rank, .write fileSize, .address => PeerToPeer.DistributedCode.writeAllgather L rank fileSize
  | .peer sourceRank rank, .read fileSize reqSize, .address =>
    PeerToPeer.DistributedCode.readScatter L sourceRank rank
      (numberOfBlocksForRequest L.blockSize fileSize reqSize)
  | .peer sourceRank rank, .read fileSize reqSize, .data =>
    PeerToPeer.DistributedCode.readGather L sourceRank rank
      (numberOfBlocksForRequest L.blockSize fileSize reqSize)

variable (L : Launch) (role : Role) (t : Transfer) (m : Moved)

theorem layout_eq : (role.call L t m).layout = blockLayout L (t.blocks L) (m.width L) := by
  cases role <;> cases t <;> cases m <;> rfl

theorem Moved.width_pos : 0 < m.width L := by
  cases m with
  | data => exact L.blockSize_pos
  | address => show 0 < pointerPacketSize; decide

/-- Every number of blocks is that of a write, and of a read. -/
theorem exists_transfer (N : ℕ) :
    (∃ fileSize, (Transfer.write fileSize).blocks L = N) ∧
      ∃ fileSize reqSize, (Transfer.read fileSize reqSize).blocks L = N := by
  have hblocks : numberOfBlocks L.blockSize (N * L.blockSize) = N := by
    rw [numberOfBlocks, Nat.mul_div_cancel _ L.blockSize_pos, Nat.mul_mod_left]
    rfl
  refine ⟨⟨N * L.blockSize, hblocks⟩, N * L.blockSize, N * L.blockSize, ?_⟩
  show numberOfBlocksForRequest _ _ _ = N
  rw [numberOfBlocksForRequest, if_neg (Nat.lt_irrefl _), hblocks]

/-- **The split is a partition, the same everywhere**: in both programs, in writes and reads, on every rank, for the
blocks and for their addresses; and the blocks that a rank works on are its count over the element size. -/
theorem layout_isSplit :
    IsSplit L.mpiWorldSize (t.blocks L) (m.width L) (role.call L t m).layout ∧
      ∀ rank < L.mpiWorldSize, effectiveBlocks L rank (t.blocks L) =
        entry (role.call L t m).layout.counts rank / m.width L := by
  rw [layout_eq]
  refine ⟨isSplit_fillLayout L.worldSize_pos (m.width_pos L) _, fun rank hr => ?_⟩
  rw [blockLayout, entry_counts hr, Nat.mul_div_cancel _ (m.width_pos L), effectiveBlocks]

end DagonFs
