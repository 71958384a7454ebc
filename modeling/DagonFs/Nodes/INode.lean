import Mathlib.Data.Nat.Notation
import Mathlib.Tactic.Ring

/-!
# Inodes

`INode` and its subclasses `File`, `Directory`, `SymbolicLink` and `SpecialINode`.  An inode keeps the
lookup count the kernel holds on it, the deletion mark, its number, its extended attributes and the part
of its `fuse_entry_param` that the file system reads back; what a subclass adds is its `Kind`, so that a
`dynamic_cast` is a match.

An inode number (`fuse_ino_t`) is the position of the inode in the table; a directory's children are the
ordered map from names to numbers.  The unsigned 64-bit counters `st_nlink` and
`m_nlookup` wrap at both ends.
-/

namespace DagonFs

/-- The bytes of a C string, without the final NUL.  Names compare byte by byte, as `std::string`. -/
abbrev Name := List UInt8

/-- The children of a directory: `map<string, fuse_ino_t>`. -/
abbrev Children := Std.ExtTreeMap Name ℕ

/-- The extended attributes: `map<string, pair<void *, size_t>>`, the bytes and their number. -/
abbrev XAttrs := Std.ExtTreeMap Name (List UInt8)

inductive INodeType where
  | regularFile
  | directory
  | symbolicLink
  | specialInodeTypeNoBlock
  deriving DecidableEq

/-- The attributes of `struct stat` that the file system sets and reads. -/
structure Stat where
  stMode : ℕ
  stNlink : ℕ
  stUid : ℕ
  stGid : ℕ
  stSize : ℕ
  stBlocks : ℕ
  deriving DecidableEq

/-- `memset(&inode->m_fuseEntryParam, 0, …)`. -/
def Stat.zero : Stat := ⟨0, 0, 0, 0, 0, 0⟩

/-- `File`: the content buffer, `none` for a null pointer, and the flag that it has been written. -/
structure File where
  mBuf : Option (List UInt8)
  isWaitingForDistributedWrite : Bool

/-- `Directory`.  The cached absolute name and the parent are set in the peer-to-peer model only. -/
structure Directory where
  mChildren : Children
  dirName : Name
  parentDir : Option ℕ

/-- What the subclass of an inode adds to it. -/
inductive Kind where
  | file (f : File)
  | directory (d : Directory)
  | symbolicLink (mLink : Name)
  | specialINode (mType : INodeType)

structure INode where
  mNlookup : ℕ
  markedForDeletion : Bool
  inodeNumber : ℕ
  attr : Stat
  kind : Kind
  mXattr : XAttrs

/-! ### Directories -/

def Directory.new : Directory := ⟨∅, [], none⟩

def Directory.childINodeNumberWithName (d : Directory) (name : Name) : Option ℕ := d.mChildren[name]?

/-- Point `name` at `ino`; the old number, 0 where there was none, is returned with the directory. -/
def Directory.updateChild (d : Directory) (name : Name) (ino : ℕ) : Directory × ℕ :=
  ({ d with mChildren := d.mChildren.insert name ino }, d.mChildren[name]?.getD 0)

def Directory.deleteChild (d : Directory) (name : Name) : Directory × ℕ :=
  ({ d with mChildren := d.mChildren.erase name }, d.mChildren[name]?.getD 0)

/-- The names `.` and `..`. -/
def dot : Name := [46]
def dotDot : Name := [46, 46]

/-- Some child is named neither `.` nor `..`. -/
def Directory.hasChildren (d : Directory) : Bool :=
  d.mChildren.toList.any fun e => e.1 != dot && e.1 != dotDot

/-! ### Files -/

def File.new : File := ⟨none, false⟩

def File.setWaiting (f : File) : File := { f with isWaitingForDistributedWrite := true }
def File.removeWaiting (f : File) : File := { f with isWaitingForDistributedWrite := false }

/-- `free(m_buf); m_buf = nullptr`. -/
def File.freeBuf (f : File) : File := { f with mBuf := none }

/-! ### Casts -/

def Kind.new : INodeType → Kind
  | .regularFile => .file File.new
  | .directory => .directory Directory.new
  | .symbolicLink => .symbolicLink []
  | .specialInodeTypeNoBlock => .specialINode .specialInodeTypeNoBlock

def INode.asDirectory (i : INode) : Option Directory :=
  match i.kind with
  | .directory d => some d
  | _ => none

def INode.asFile (i : INode) : Option File :=
  match i.kind with
  | .file f => some f
  | _ => none

/-- The entries of a directory, none for any other inode. -/
def INode.children (i : INode) : Children :=
  match i.kind with
  | .directory d => d.mChildren
  | _ => ∅

def INode.isDirectory (i : INode) : Bool := i.asDirectory.isSome

/-- A regular file or a symbolic link: the inodes that may have several names. -/
def INode.isFileOrLink (i : INode) : Bool :=
  match i.kind with
  | .file _ => true
  | .symbolicLink _ => true
  | _ => false

def INode.setDirectory (i : INode) (d : Directory) : INode := { i with kind := .directory d }
def INode.setFile (i : INode) (f : File) : INode := { i with kind := .file f }

/-! ### Reference and link counts -/

/-- Increment of an unsigned 64-bit counter. -/
def incr (k : ℕ) : ℕ := if k = 2 ^ 64 - 1 then 0 else k + 1

/-- Decrement of an unsigned 64-bit counter. -/
def decr (k : ℕ) : ℕ := if k = 0 then 2 ^ 64 - 1 else k - 1

def INode.lookup (i : INode) : INode := { i with mNlookup := incr i.mNlookup }

/-- `m_nlookup -= nlookup`, on unsigned 64-bit integers. -/
def INode.forget (i : INode) (nlookup : ℕ) : INode :=
  { i with mNlookup :=
      if nlookup ≤ i.mNlookup then i.mNlookup - nlookup else i.mNlookup + 2 ^ 64 - nlookup }

def INode.forgotten (i : INode) : Bool := i.mNlookup == 0
def INode.hasNoLinks (i : INode) : Bool := i.attr.stNlink == 0
def INode.markForDeletion (i : INode) : INode := { i with markedForDeletion := true }
def INode.isDeleted (i : INode) : Bool := i.markedForDeletion

def INode.addHardLink (i : INode) : INode :=
  { i with attr := { i.attr with stNlink := incr i.attr.stNlink } }

/-- After decrementing, if the number of hard links reaches 0, the inode is considered as deleted. -/
def INode.removeHardLink (i : INode) : INode :=
  let i := { i with attr := { i.attr with stNlink := decr i.attr.stNlink } }
  if i.hasNoLinks then i.markForDeletion else i

/-- `while (!HasNoLinks()) RemoveHardLink();`, the loop body run at most `fuel` times. -/
def INode.removeHardLinks : ℕ → INode → INode
  | 0, i => i
  | fuel + 1, i => if i.hasNoLinks then i else INode.removeHardLinks fuel i.removeHardLink

/-- The loop ends after as many rounds as there are links. -/
def INode.removeAllHardLinks (i : INode) : INode := INode.removeHardLinks i.attr.stNlink i

/-! ### What each operation leaves alone -/

theorem incr_eq {k : ℕ} (h : k + 1 < 2 ^ 64) : incr k = k + 1 := if_neg (by omega)

theorem incr_ne (k : ℕ) : incr k ≠ k := by
  unfold incr
  split <;> omega

@[simp] theorem decr_succ (k : ℕ) : decr (k + 1) = k := by simp [decr]

theorem decr_eq {k : ℕ} (h : 0 < k) : decr k = k - 1 := by simp [decr, Nat.ne_of_gt h]

namespace INode

section Frame

variable (i : INode)

@[simp] theorem addHardLink_stNlink : i.addHardLink.attr.stNlink = incr i.attr.stNlink := rfl
@[simp] theorem addHardLink_kind : i.addHardLink.kind = i.kind := rfl
@[simp] theorem addHardLink_mNlookup : i.addHardLink.mNlookup = i.mNlookup := rfl
@[simp] theorem addHardLink_marked : i.addHardLink.markedForDeletion = i.markedForDeletion := rfl

@[simp] theorem lookup_stNlink : i.lookup.attr.stNlink = i.attr.stNlink := rfl
@[simp] theorem lookup_kind : i.lookup.kind = i.kind := rfl
@[simp] theorem lookup_mNlookup : i.lookup.mNlookup = incr i.mNlookup := rfl
@[simp] theorem lookup_marked : i.lookup.markedForDeletion = i.markedForDeletion := rfl

@[simp] theorem forget_stNlink (k : ℕ) : (i.forget k).attr.stNlink = i.attr.stNlink := rfl
@[simp] theorem forget_kind (k : ℕ) : (i.forget k).kind = i.kind := rfl

@[simp] theorem removeHardLink_stNlink : i.removeHardLink.attr.stNlink = decr i.attr.stNlink := by
  simp only [removeHardLink]
  split <;> rfl

@[simp] theorem removeHardLink_kind : i.removeHardLink.kind = i.kind := by
  simp only [removeHardLink]
  split <;> rfl

@[simp] theorem removeHardLink_mNlookup : i.removeHardLink.mNlookup = i.mNlookup := by
  simp only [removeHardLink]
  split <;> rfl

/-- The mark is set exactly when the count reaches 0. -/
@[simp] theorem removeHardLink_marked :
    i.removeHardLink.markedForDeletion = (i.markedForDeletion || decr i.attr.stNlink == 0) := by
  by_cases h : decr i.attr.stNlink = 0 <;>
    simp [removeHardLink, hasNoLinks, markForDeletion, h]

@[simp] theorem setDirectory_attr (d : Directory) : (i.setDirectory d).attr = i.attr := rfl
@[simp] theorem setDirectory_mNlookup (d : Directory) : (i.setDirectory d).mNlookup = i.mNlookup := rfl
@[simp] theorem setDirectory_marked (d : Directory) :
    (i.setDirectory d).markedForDeletion = i.markedForDeletion := rfl

end Frame

/-- The loop of `FuseRmdir` ends with no link left, and touches nothing but the count and the mark. -/
theorem removeHardLinks_spec (fuel : ℕ) (i : INode) (h : i.attr.stNlink ≤ fuel) :
    (removeHardLinks fuel i).attr.stNlink = 0 ∧
      (removeHardLinks fuel i).kind = i.kind ∧
      (removeHardLinks fuel i).mNlookup = i.mNlookup := by
  induction fuel generalizing i with
  | zero => exact ⟨by simpa [removeHardLinks] using h, rfl, rfl⟩
  | succ fuel ih =>
    rw [removeHardLinks]
    split
    · rename_i hzero
      exact ⟨by simpa [hasNoLinks] using hzero, rfl, rfl⟩
    · rename_i hpos
      have hpos' : 0 < i.attr.stNlink := Nat.pos_of_ne_zero (by simpa [hasNoLinks] using hpos)
      have hle : i.removeHardLink.attr.stNlink ≤ fuel := by
        rw [removeHardLink_stNlink, decr_eq hpos']
        omega
      obtain ⟨hlink, hkind, hlook⟩ := ih i.removeHardLink hle
      exact ⟨hlink, by rw [hkind, removeHardLink_kind], by rw [hlook, removeHardLink_mNlookup]⟩

@[simp] theorem removeAllHardLinks_stNlink (i : INode) : i.removeAllHardLinks.attr.stNlink = 0 :=
  (removeHardLinks_spec _ i (le_refl _)).1

@[simp] theorem removeAllHardLinks_kind (i : INode) : i.removeAllHardLinks.kind = i.kind :=
  (removeHardLinks_spec _ i (le_refl _)).2.1

@[simp] theorem removeAllHardLinks_mNlookup (i : INode) :
    i.removeAllHardLinks.mNlookup = i.mNlookup :=
  (removeHardLinks_spec _ i (le_refl _)).2.2

end INode

end DagonFs
