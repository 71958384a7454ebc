import DagonFs.Blocks.Distribution
import DagonFs.FileSystem.State

/-!
# The distributed operations of the client-server model

One master (rank 0) runs the file system and holds the block lists; every process, the master
included, holds blocks.  `MasterProcessCode` and `NodeProcessCode` give the arguments that the two
kinds of process pass to each collective and what they do with the result; `dagonFS_Write` and
`dagonFS_Read` are one round of the operation on all ranks.  The broadcasts of the request give every
node the inode and the sizes that the master has.

`none` stands for undefined behaviour: arguments of a collective that do not match, a segment outside
a buffer, an index past the end of a block list, an address that is not the rank's own.
-/

namespace DagonFs

open DagonFs.Lib.Collective

/-- The processes: the master's file system, the blocks that each rank has allocated, and the lists
that each node keeps of its own blocks. -/
structure System where
  fs : FileSystem
  heaps : ℕ → Heap
  dataBlockPointers : ℕ → ℕ → List DataBlock

/-- The master's value at rank 0, the node's at every other rank. -/
def byRank {α : Type} (master : α) (node : ℕ → α) (rank : ℕ) : α :=
  if rank = 0 then master else node rank

namespace MasterProcessCode

variable (L : Launch)

def writeScatter (fileSize : ℕ) : VectorCall :=
  .own 0 (blockLayout L (numberOfBlocks L.blockSize fileSize) L.blockSize) 0

def writeGather (fileSize : ℕ) : VectorCall :=
  .own 0 (blockLayout L (numberOfBlocks L.blockSize fileSize) pointerPacketSize) 0

def readScatter (blocks : ℕ) : VectorCall := .inPlace 0 (blockLayout L blocks pointerPacketSize)
def readGather (blocks : ℕ) : VectorCall := .own 0 (blockLayout L blocks L.blockSize) 0

/-- The master's block table after a write. -/
def savePointers (bs : Blocks) (inode numberOfBlocks : ℕ) (addresses : List (Option Address)) :
    Blocks :=
  let bs := if !bs.blockListExistForInode inode then bs.createEmptyBlockListForInode inode else bs
  let inodeBlockList := bs.getDataBlockListOfInode inode
  bs.setBlockListForInode inode (recordAddresses L inode numberOfBlocks addresses inodeBlockList)

end MasterProcessCode

namespace NodeProcessCode

variable (L : Launch)

def writeScatter (rank fileSize : ℕ) : VectorCall :=
  .own 0 (blockLayout L (numberOfBlocks L.blockSize fileSize) L.blockSize) rank

def writeGather (rank fileSize : ℕ) : VectorCall :=
  .own 0 (blockLayout L (numberOfBlocks L.blockSize fileSize) pointerPacketSize) rank

def readScatter (rank blocks : ℕ) : VectorCall := .own 0 (blockLayout L blocks pointerPacketSize) rank
def readGather (rank blocks : ℕ) : VectorCall := .own 0 (blockLayout L blocks L.blockSize) rank

/-- The first `i` rounds of the loop that lists the node's new blocks. -/
def pushBlocks (inode rank : ℕ) (addresses : List (Option Address)) :
    ℕ → List DataBlock → List DataBlock
  | 0, inodeBlockList => inodeBlockList
  | i + 1, inodeBlockList =>
    pushBlocks inode rank addresses i inodeBlockList ++
      [((DataBlock.new inode).setData (addresses.getD i none)).setRank rank]

end NodeProcessCode

namespace System

variable (L : Launch) (s : System)

def setFs (fs : FileSystem) : System := { s with fs := fs }

/-- The file system is mounted on rank 0, and no process has a block. -/
def mounted (process : Ids) : System := ⟨FileSystem.mounted process, fun _ => [], fun _ _ => []⟩

/-- `DAGonFS_Write` on every rank. -/
def dagonFS_Write (buffer : List UInt8) (inode fileSize : ℕ) : Option System :=
  let blocks := numberOfBlocks L.blockSize fileSize
  let scatterCall := byRank (MasterProcessCode.writeScatter L fileSize)
    (NodeProcessCode.writeScatter L · fileSize)
  let gatherCall := byRank (MasterProcessCode.writeGather L fileSize)
    (NodeProcessCode.writeGather L · fileSize)
  (scatterv L.mpiWorldSize 1 0 scatterCall buffer).bind fun localScatBuf =>
    let stored := fun rank =>
      storeBlocks L.blockSize rank (localScatBuf rank) (effectiveBlocks L rank blocks) (s.heaps rank)
    -- the master's array of addresses, before the gather fills it
    let addresses := List.replicate blocks none
    (gatherv L.mpiWorldSize pointerPacketSize 0 gatherCall (fun rank => (stored rank).2)
        addresses).map fun addresses =>
      { fs := { s.fs with
          blocksManager :=
            MasterProcessCode.savePointers L s.fs.blocksManager inode blocks addresses }
        heaps := fun rank => if rank < L.mpiWorldSize then (stored rank).1 else s.heaps rank
        dataBlockPointers := fun rank ino =>
          if 0 < rank ∧ rank < L.mpiWorldSize ∧ ino = inode then
            NodeProcessCode.pushBlocks inode rank (stored rank).2 (effectiveBlocks L rank blocks)
              (s.dataBlockPointers rank ino)
          else s.dataBlockPointers rank ino }

/-- The addresses of `DAGonFS_Read` as each rank has them after the scatter.  The master scatters with
`MPI_IN_PLACE`, and goes on with the whole array. -/
def scatterAddresses (inode blocks : ℕ) : Option (ℕ → List (Option Address)) :=
  let scatterCall := byRank (MasterProcessCode.readScatter L blocks)
    (NodeProcessCode.readScatter L · blocks)
  (getAddresses (s.fs.blocksManager.getDataBlockListOfInode inode) blocks).bind fun addressesToScat =>
    (scatterv L.mpiWorldSize pointerPacketSize 0 scatterCall addressesToScat).map
      fun addressesFromScat => byRank addressesToScat addressesFromScat

/-- `DAGonFS_Read` on every rank: the buffer that the master returns, `nullptr` for an empty file.
The offset of the request is not looked at. -/
def dagonFS_Read (ioRequest : IORequestPacket) : Option (Option (List UInt8)) :=
  if ioRequest.fileSize = 0 then some none
  else
    let blocks := numberOfBlocksForRequest L.blockSize ioRequest.fileSize ioRequest.reqSize
    let gatherCall := byRank (MasterProcessCode.readGather L blocks)
      (NodeProcessCode.readGather L · blocks)
    (s.scatterAddresses L ioRequest.inode blocks).bind fun addresses =>
      (loadAndGather L 0 gatherCall s.heaps addresses blocks).map some

end System

end DagonFs
