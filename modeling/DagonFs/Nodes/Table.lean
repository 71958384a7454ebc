import DagonFs.Lib.EntryCount
import DagonFs.Nodes.INode

/-!
# The inode table

`Nodes`: the vector of inodes and the queue of deleted inode numbers.  Handlers work on inodes through
pointers into the table, so each pointer operation is a `modifyINode` at a position here.

The functions of the second half read one fact each off a table (`childrenOf`, `nlinkOf`, …).  They are
total, with the value of an inode that has nothing where there is no inode, and `names` and
`subdirectories` count entries; the `simp` lemmas say what each operation does to each of them.
-/

namespace DagonFs

open DagonFs.Lib.EntryCount

structure Nodes where
  iNodes : List INode
  deletedINodes : List ℕ

namespace Nodes

def getINodeByINodeNumber (ns : Nodes) (ino : ℕ) : Option INode := ns.iNodes[ino]?
def getNumberOfINodes (ns : Nodes) : ℕ := ns.iNodes.length
def getNumberOfDeletedINodes (ns : Nodes) : ℕ := ns.deletedINodes.length

def createEmptyINode (type : INodeType) : INode := ⟨0, false, 0, Stat.zero, Kind.new type, ∅⟩

def setINodeAt (ns : Nodes) (ino : ℕ) (i : INode) : Nodes :=
  { ns with iNodes := ns.iNodes.set ino i }

/-- The new inode goes to the end of the table; its number is its position. -/
def addINode (ns : Nodes) (i : INode) : Nodes × ℕ :=
  ({ ns with iNodes := ns.iNodes ++ [i] }, ns.iNodes.length)

def initializeINode (i : INode) (ino : ℕ) (mode nlink gid uid : ℕ) : INode :=
  { i with
    inodeNumber := ino
    attr := { Stat.zero with stMode := mode, stGid := gid, stUid := uid, stNlink := nlink } }

def deleteINode (ns : Nodes) (ino : ℕ) : Nodes :=
  { ns with deletedINodes := ns.deletedINodes ++ [ino] }

/-- The number at the front of the queue; the front of an empty queue is undefined. -/
def reclaimINode (ns : Nodes) : Option (ℕ × Nodes) :=
  match ns.deletedINodes with
  | [] => none
  | ino :: rest => some (ino, { ns with deletedINodes := rest })

/-- An operation through a pointer to the inode at a position. -/
def modifyINode (ns : Nodes) (ino : ℕ) (f : INode → INode) : Nodes :=
  { ns with iNodes := ns.iNodes.modify ino f }

/-- What an operation does to an inode that may be no directory. -/
def onDirectory (f : Directory → Directory) (i : INode) : INode :=
  match i.kind with
  | .directory d => i.setDirectory (f d)
  | _ => i

def updateChild (ns : Nodes) (dir : ℕ) (name : Name) (ino : ℕ) : Nodes :=
  ns.modifyINode dir (onDirectory fun d => (d.updateChild name ino).1)

def deleteChild (ns : Nodes) (dir : ℕ) (name : Name) : Nodes :=
  ns.modifyINode dir (onDirectory fun d => (d.deleteChild name).1)

def addHardLink (ns : Nodes) (ino : ℕ) : Nodes := ns.modifyINode ino INode.addHardLink
def removeHardLink (ns : Nodes) (ino : ℕ) : Nodes := ns.modifyINode ino INode.removeHardLink
def removeAllHardLinks (ns : Nodes) (ino : ℕ) : Nodes := ns.modifyINode ino INode.removeAllHardLinks
def lookupINode (ns : Nodes) (ino : ℕ) : Nodes := ns.modifyINode ino INode.lookup
def forget (ns : Nodes) (ino : ℕ) (nlookup : ℕ) : Nodes := ns.modifyINode ino (·.forget nlookup)

/-! ### Reading a table -/

def directoryAt (ns : Nodes) (x : ℕ) : Option Directory := ns.iNodes[x]?.bind INode.asDirectory
def childrenOf (ns : Nodes) (x : ℕ) : Children := (ns.iNodes[x]?).elim ∅ INode.children
def nlinkOf (ns : Nodes) (x : ℕ) : ℕ := (ns.iNodes[x]?).elim 0 fun i => i.attr.stNlink
def nlookupOf (ns : Nodes) (x : ℕ) : ℕ := (ns.iNodes[x]?).elim 0 INode.mNlookup
def isMarked (ns : Nodes) (x : ℕ) : Bool := (ns.iNodes[x]?).elim false INode.markedForDeletion
def isDirectory (ns : Nodes) (x : ℕ) : Bool := (ns.iNodes[x]?).elim false INode.isDirectory
def isFileOrLink (ns : Nodes) (x : ℕ) : Bool := (ns.iNodes[x]?).elim false INode.isFileOrLink

/-- The number of (directory, name) entries that hold a number. -/
def names (ns : Nodes) (x : ℕ) : ℕ := total ns.childrenOf ns.iNodes.length (· == x)

/-- The number of a directory's children that are directories. -/
def subdirectories (ns : Nodes) (d : ℕ) : ℕ := occurrences (ns.childrenOf d) ns.isDirectory

/-- Every entry names an inode of the table. -/
def EntriesValid (ns : Nodes) : Prop :=
  ∀ (d : ℕ) (name : Name) (x : ℕ), (ns.childrenOf d)[name]? = some x → x < ns.iNodes.length

section Reading

variable (ns : Nodes)

theorem childrenOf_of_length_le {x : ℕ} (h : ns.iNodes.length ≤ x) : ns.childrenOf x = ∅ := by
  rw [childrenOf, List.getElem?_eq_none h]
  rfl

theorem isDirectory_of_length_le {x : ℕ} (h : ns.iNodes.length ≤ x) : ns.isDirectory x = false := by
  rw [isDirectory, List.getElem?_eq_none h]
  rfl

theorem lt_of_isDirectory {x : ℕ} (h : ns.isDirectory x = true) : x < ns.iNodes.length := by
  by_contra hlen
  rw [isDirectory_of_length_le ns (Nat.le_of_not_lt hlen)] at h
  exact Bool.false_ne_true h

theorem isDirectory_eq_isSome {x : ℕ} : ns.isDirectory x = (ns.directoryAt x).isSome := by
  rw [isDirectory, directoryAt]
  cases ns.iNodes[x]? <;> rfl

theorem childrenOf_of_directoryAt {x : ℕ} {d : Directory} (h : ns.directoryAt x = some d) :
    ns.childrenOf x = d.mChildren := by
  obtain ⟨i, hi, hd⟩ := Option.bind_eq_some_iff.mp h
  rw [childrenOf, hi]
  obtain ⟨_, _, _, _, k⟩ := i
  cases k <;> simp_all [INode.asDirectory, INode.children]

/-- Only directories have children. -/
theorem childrenOf_of_not_isDirectory {x : ℕ} (h : ns.isDirectory x = false) : ns.childrenOf x = ∅ := by
  rw [isDirectory] at h
  rw [childrenOf]
  cases hget : ns.iNodes[x]? with
  | none => rfl
  | some i =>
    rw [hget] at h
    obtain ⟨_, _, _, _, k⟩ := i
    cases k with
    | directory d => cases h
    | _ => rfl

/-- A file is no directory. -/
theorem ne_of_isFileOrLink {z d : ℕ} (hz : ns.isFileOrLink z = true) (hd : ns.isDirectory d = true) :
    z ≠ d := by
  rintro rfl
  rw [isFileOrLink] at hz
  rw [isDirectory] at hd
  cases hget : ns.iNodes[z]? with
  | none => rw [hget] at hz; cases hz
  | some i =>
    rw [hget] at hz hd
    obtain ⟨_, _, _, _, k⟩ := i
    cases k <;> simp_all [INode.isFileOrLink, INode.isDirectory, INode.asDirectory]

theorem names_pos_iff {x : ℕ} :
    0 < ns.names x ↔ ∃ (d : ℕ) (name : Name), (ns.childrenOf d)[name]? = some x := by
  rw [names, total_pos_iff]
  constructor
  · rintro ⟨d, -, name, v, hget, hv⟩
    exact ⟨d, name, by rw [hget, beq_iff_eq.mp hv]⟩
  · rintro ⟨d, name, hget⟩
    refine ⟨d, ?_, name, x, hget, beq_self_eq_true x⟩
    by_contra hlen
    rw [childrenOf_of_length_le ns (Nat.le_of_not_lt hlen)] at hget
    simp at hget

theorem names_eq_zero_iff {x : ℕ} :
    ns.names x = 0 ↔ ∀ (d : ℕ) (name : Name), (ns.childrenOf d)[name]? ≠ some x := by
  rw [← Nat.le_zero, ← Nat.not_lt, names_pos_iff]
  simp

/-- A number past the end of the table has no name. -/
theorem names_of_length_le (hv : ns.EntriesValid) {x : ℕ} (h : ns.iNodes.length ≤ x) :
    ns.names x = 0 :=
  ns.names_eq_zero_iff.mpr fun d name hget => by
    have := hv d name x hget
    omega

end Reading

/-! ### What an operation through a pointer does -/

section Modify

variable (ns : Nodes) {ino : ℕ}

@[simp] theorem modifyINode_length (f : INode → INode) :
    (ns.modifyINode ino f).iNodes.length = ns.iNodes.length := List.length_modify ..

@[simp] theorem modifyINode_deletedINodes (f : INode → INode) :
    (ns.modifyINode ino f).deletedINodes = ns.deletedINodes := rfl

theorem modifyINode_getElem? (f : INode → INode) (x : ℕ) :
    (ns.modifyINode ino f).iNodes[x]? = if ino = x then ns.iNodes[x]?.map f else ns.iNodes[x]? := by
  rw [modifyINode, List.getElem?_modify]
  split <;> simp

/-- An operation that has no effect on the inode it is used on. -/
theorem modifyINode_eq_self {ns : Nodes} {f : INode → INode} {i : INode}
    (hget : ns.iNodes[ino]? = some i) (hf : f i = i) : ns.modifyINode ino f = ns := by
  obtain ⟨l, q⟩ := ns
  simp only [modifyINode, Nodes.mk.injEq, and_true]
  refine List.ext_getElem? fun x => ?_
  rw [List.getElem?_modify]
  split
  · rename_i hx
    rw [← hx, hget]
    exact congrArg some hf
  · exact Option.map_id'

/-- An operation that does not touch what a reading depends on leaves the reading as it was. -/
theorem modifyINode_elim {β : Type} (f : INode → INode) (default : β) (read : INode → β)
    (h : ∀ i, read (f i) = read i) (x : ℕ) :
    ((ns.modifyINode ino f).iNodes[x]?).elim default read = (ns.iNodes[x]?).elim default read := by
  rw [modifyINode_getElem?]
  split
  · cases ns.iNodes[x]? <;> simp [h]
  · rfl

/-- What a reading is after an operation that changes it. -/
theorem modifyINode_elim_self {β : Type} (f : INode → INode) (default : β) (read : INode → β)
    (g : β → β) (h : ∀ i, read (f i) = g (read i)) (hino : ino < ns.iNodes.length) :
    ((ns.modifyINode ino f).iNodes[ino]?).elim default read =
      g ((ns.iNodes[ino]?).elim default read) := by
  rw [modifyINode_getElem?, if_pos rfl, List.getElem?_eq_getElem hino]
  simp [h]

theorem modifyINode_elim_ne {β : Type} (f : INode → INode) (default : β) (read : INode → β)
    {x : ℕ} (hx : x ≠ ino) :
    ((ns.modifyINode ino f).iNodes[x]?).elim default read = (ns.iNodes[x]?).elim default read := by
  rw [modifyINode_getElem?, if_neg (Ne.symm hx)]

end Modify

theorem onDirectory_isDirectory (f : Directory → Directory) (i : INode) :
    (onDirectory f i).isDirectory = i.isDirectory := by
  obtain ⟨_, _, _, _, k⟩ := i
  cases k <;> rfl

theorem onDirectory_isFileOrLink (f : Directory → Directory) (i : INode) :
    (onDirectory f i).isFileOrLink = i.isFileOrLink := by
  obtain ⟨_, _, _, _, k⟩ := i
  cases k <;> rfl

theorem onDirectory_attr (f : Directory → Directory) (i : INode) : (onDirectory f i).attr = i.attr := by
  obtain ⟨_, _, _, _, k⟩ := i
  cases k <;> rfl

theorem onDirectory_mNlookup (f : Directory → Directory) (i : INode) :
    (onDirectory f i).mNlookup = i.mNlookup := by
  obtain ⟨_, _, _, _, k⟩ := i
  cases k <;> rfl

theorem onDirectory_marked (f : Directory → Directory) (i : INode) :
    (onDirectory f i).markedForDeletion = i.markedForDeletion := by
  obtain ⟨_, _, _, _, k⟩ := i
  cases k <;> rfl

end Nodes

end DagonFs
