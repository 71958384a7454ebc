import Mathlib.Data.Int.Notation
import Mathlib.Data.Nat.Notation
import Mathlib.Logic.Function.Basic

/-!
# Data blocks

The table of the blocks of every file (`Blocks`) and the growth of one file's block list
(`addDataBlocksTo`).  A block holds the address of its bytes in the memory of one process.

An `Address` records the process whose `malloc` returned it; the pointer means nothing to another
process, so reading through it is only defined there.
-/

namespace DagonFs

/-- A pointer to one allocated block: the rank whose `malloc` returned it, and its place among that
rank's blocks. -/
structure Address where
  rank : ℕ
  index : ℕ
  deriving DecidableEq

structure DataBlock where
  inode : ℕ
  dataBlockAddress : Option Address
  absoluteBytes : ℕ
  processRank : ℕ
  progressiveNumber : ℕ
  deriving DecidableEq

namespace DataBlock

def new (inode : ℕ) : DataBlock := ⟨inode, none, 0, 0, 0⟩

def getData (b : DataBlock) : Option Address := b.dataBlockAddress

def setData (b : DataBlock) (address : Option Address) : DataBlock :=
  { b with dataBlockAddress := address }

def getRank (b : DataBlock) : ℕ := b.processRank

def setRank (b : DataBlock) (rank : ℕ) : DataBlock := { b with processRank := rank }

end DataBlock

/-- `FileSystemDataBlocks`; `none` for an inode that has no key. -/
structure Blocks where
  fileSystemDataBlocks : ℕ → Option (List DataBlock)

namespace Blocks

def new : Blocks := ⟨fun _ => none⟩

/-- A list that exists is kept. -/
def createEmptyBlockListForInode (bs : Blocks) (inode : ℕ) : Blocks :=
  if (bs.fileSystemDataBlocks inode).isNone then
    ⟨Function.update bs.fileSystemDataBlocks inode (some [])⟩
  else bs

def setBlockListForInode (bs : Blocks) (inode : ℕ) (blockList : List DataBlock) : Blocks :=
  ⟨Function.update bs.fileSystemDataBlocks inode (some blockList)⟩

/-- The comparison is with `end()`, so the answer is that there is no list. -/
def blockListExistForInode (bs : Blocks) (inode : ℕ) : Bool := (bs.fileSystemDataBlocks inode).isNone

/-- `operator[]` of a map: an absent key reads as the empty list. -/
def getDataBlockListOfInode (bs : Blocks) (inode : ℕ) : List DataBlock :=
  (bs.fileSystemDataBlocks inode).getD []

@[simp] theorem getDataBlockListOfInode_create (bs : Blocks) (inode x : ℕ) :
    (bs.createEmptyBlockListForInode inode).getDataBlockListOfInode x =
      bs.getDataBlockListOfInode x := by
  unfold createEmptyBlockListForInode getDataBlockListOfInode
  split
  · rename_i hnone
    by_cases hx : x = inode
    · subst hx
      simp [Option.isNone_iff_eq_none.mp hnone]
    · simp [hx]
  · rfl

/-- The creation that the distributed writes begin with has no effect on any list. -/
@[simp] theorem getDataBlockListOfInode_createIf (bs : Blocks) (inode x : ℕ) :
    (if !bs.blockListExistForInode inode then bs.createEmptyBlockListForInode inode
      else bs).getDataBlockListOfInode x = bs.getDataBlockListOfInode x := by
  split
  · exact getDataBlockListOfInode_create bs inode x
  · rfl

@[simp] theorem getDataBlockListOfInode_set (bs : Blocks) (inode : ℕ) (l : List DataBlock) :
    (bs.setBlockListForInode inode l).getDataBlockListOfInode inode = l := by
  simp [setBlockListForInode, getDataBlockListOfInode]

theorem getDataBlockListOfInode_set_ne (bs : Blocks) {inode x : ℕ} (l : List DataBlock)
    (hx : x ≠ inode) :
    (bs.setBlockListForInode inode l).getDataBlockListOfInode x = bs.getDataBlockListOfInode x := by
  simp [setBlockListForInode, getDataBlockListOfInode, hx]

end Blocks

/-! ### Growing a block list -/

/-- The rank after `rank`, round robin. -/
def nextRank (mpiWorldSize rank : ℕ) : ℕ := if rank + 1 = mpiWorldSize then 0 else rank + 1

/-- The loop of `addDataBlocksTo`: `fuel` blocks still to add, the next one on rank `rank_i`. -/
def addDataBlocksLoop (mpiWorldSize blockSize inode : ℕ) :
    ℕ → ℕ → List DataBlock → List DataBlock
  | 0, _, blockList => blockList
  | fuel + 1, rank_i, blockList =>
    let i := blockList.length
    let dataBlock := { DataBlock.new inode with
      processRank := rank_i, progressiveNumber := i, absoluteBytes := i * blockSize }
    addDataBlocksLoop mpiWorldSize blockSize inode fuel (nextRank mpiWorldSize rank_i)
      (blockList ++ [dataBlock])

/-- `addDataBlocksTo`: new blocks get their ranks round robin, from the rank of the last block on.
A negative `nblocks` adds none. -/
def addDataBlocksTo (mpiWorldSize blockSize : ℕ) (blockList : List DataBlock) (nblocks : ℤ)
    (inode : ℕ) : List DataBlock :=
  let lastRank := (blockList.getLast?).elim 0 DataBlock.processRank
  addDataBlocksLoop mpiWorldSize blockSize inode nblocks.toNat lastRank blockList

theorem addDataBlocksLoop_length (w B inode fuel r : ℕ) (l : List DataBlock) :
    (addDataBlocksLoop w B inode fuel r l).length = l.length + fuel := by
  induction fuel generalizing r l with
  | zero => rfl
  | succ fuel ih =>
    rw [addDataBlocksLoop, ih, List.length_append, List.length_singleton]
    omega

/-- The list grows to the size asked for, and never shrinks. -/
theorem addDataBlocksTo_length (w B : ℕ) (l : List DataBlock) (nblocks : ℤ) (inode : ℕ) :
    (addDataBlocksTo w B l nblocks inode).length = l.length + nblocks.toNat :=
  addDataBlocksLoop_length ..

theorem addDataBlocksLoop_prefix (w B inode fuel r : ℕ) (l : List DataBlock) :
    l <+: addDataBlocksLoop w B inode fuel r l := by
  induction fuel generalizing r l with
  | zero => exact List.prefix_refl l
  | succ fuel ih => exact (List.prefix_append l _).trans (ih _ _)

/-- The blocks that are there keep their addresses. -/
theorem addDataBlocksTo_prefix (w B : ℕ) (l : List DataBlock) (nblocks : ℤ) (inode : ℕ) :
    l <+: addDataBlocksTo w B l nblocks inode :=
  addDataBlocksLoop_prefix ..

/-- A block that is added has its place in the list as its number. -/
theorem addDataBlocksLoop_numbers (w B inode : ℕ) {fuel r i : ℕ} {l : List DataBlock}
    {block : DataBlock} (hi : l.length ≤ i)
    (h : (addDataBlocksLoop w B inode fuel r l)[i]? = some block) :
    block.progressiveNumber = i ∧ block.absoluteBytes = i * B := by
  induction fuel generalizing r l with
  | zero =>
    have hnone : l[i]? = none := List.getElem?_eq_none hi
    cases hnone.symm.trans h
  | succ fuel ih =>
    rw [addDataBlocksLoop] at h
    rcases Nat.eq_or_lt_of_le hi with rfl | hlt
    · -- the block of this round stays where the rounds after it find it
      obtain ⟨tail, htail⟩ := addDataBlocksLoop_prefix w B inode fuel (nextRank w r)
        (l ++ [{ DataBlock.new inode with
          processRank := r, progressiveNumber := l.length, absoluteBytes := l.length * B }])
      rw [← htail, List.append_assoc, List.getElem?_append_right (Nat.le_refl _), Nat.sub_self] at h
      cases h
      exact ⟨rfl, rfl⟩
    · exact ih (by rwa [List.length_append, List.length_singleton]) h

/-- So all blocks that a growth adds are numbered by their places. -/
theorem addDataBlocksTo_numbers (w B : ℕ) {l : List DataBlock} {nblocks : ℤ} {inode i : ℕ}
    {block : DataBlock} (hi : l.length ≤ i)
    (h : (addDataBlocksTo w B l nblocks inode)[i]? = some block) :
    block.progressiveNumber = i ∧ block.absoluteBytes = i * B :=
  addDataBlocksLoop_numbers w B inode hi h

end DagonFs
