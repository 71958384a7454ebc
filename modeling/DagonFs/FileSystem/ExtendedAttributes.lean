import DagonFs.FileSystem.Namespace
import DagonFs.Lib.Buffer
import DagonFs.Lib.Runs

/-!
# Extended attributes

`INode::SetXAttr`, `INode::RemoveXAttr` and the four handlers on them.  The handlers of Linux pass the
position 0.  `SetXAttr` looks at the two flags the wrong way round and never shortens a value, and
`FuseGetXAttr` refuses a buffer that is longer than the value.

`Attributes` is the store as `setxattr(2)` and its siblings have it: a finite map from names to values.
`refines_iff` says for which requests the file system does what the map does.
-/

namespace DagonFs

open DagonFs.Lib.Buffer DagonFs.Lib.Runs

/-- The flags `XATTR_CREATE` and `XATTR_REPLACE`. -/
def xattrCreate : ℕ := 0x1
def xattrReplace : ℕ := 0x2

def creates (flags : ℕ) : Bool := flags &&& xattrCreate != 0
def replaces (flags : ℕ) : Bool := flags &&& xattrReplace != 0

namespace INode

/-- `SetXAttr`; `newBuf` is what `realloc` has given, with the bytes in the new part of the buffer. -/
def setXAttr (i : INode) (name : Name) (value : List UInt8) (flags position : ℕ)
    (newBuf : Option (ℕ → UInt8)) : INode × Option Errno :=
  if i.mXattr[name]?.isNone && creates flags then (i, some .eexist)
  else if i.mXattr[name]?.isSome && replaces flags then (i, some .enodata)
  else
    let newExtent := value.length + position
    -- `m_xattr[name]` puts an empty value where there is none
    let old := i.mXattr[name]?.getD []
    let store := fun buf => { i with mXattr := i.mXattr.insert name buf }
    if old.length < newExtent then
      match newBuf with
      | none => (store old, some .e2big)
      | some junk => (store (splice (grow old newExtent junk) position value), none)
    else (store (splice old position value), none)

def removeXAttr (i : INode) (name : Name) : INode × Option Errno :=
  if i.mXattr[name]?.isNone then (i, some .enodata)
  else ({ i with mXattr := i.mXattr.erase name }, none)

end INode

/-- The names of a list of attributes, each with its final NUL. -/
def nameList (m : XAttrs) : List UInt8 := m.keys.flatMap (· ++ [0])

namespace FileSystem

variable (fs : FileSystem)

/-- The check that the handlers begin with, and the inode they go on with. -/
def atINode (ino : ℕ) (k : INode → Result) : Result :=
  if fs.iNodeManager.getNumberOfINodes ≤ ino then fs.reply (.err .enoent)
  else (fs.iNodeManager.getINodeByINodeNumber ino).bind k

/-- `fuse_reply_err(req, ret_val)`. -/
def retVal : Option Errno → Reply
  | none => .ok
  | some e => .err e

def fuseSetXAttr (ino : ℕ) (name : Name) (value : List UInt8) (flags : ℕ)
    (newBuf : Option (ℕ → UInt8)) : Result :=
  fs.atINode ino fun inode =>
    let r := inode.setXAttr name value flags 0 newBuf
    some (fs.setNodes (fs.iNodeManager.setINodeAt ino r.1), [retVal r.2])

def fuseGetXAttr (ino : ℕ) (name : Name) (size : ℕ) : Result :=
  fs.atINode ino fun inode =>
    match inode.mXattr[name]? with
    | none => fs.reply (.err .enodata)
    | some value =>
      if size = 0 then fs.reply (.xattr value.length)
      else if value.length < size then fs.reply (.err .erange)
      else fs.reply (.buf (value.take size))

/-- `FuseListXAttr` does not return after it has replied with the size; `alloc` says whether its buffer
can be allocated. -/
def fuseListXAttr (ino size : ℕ) (alloc : Bool) : Result :=
  fs.atINode ino fun inode =>
    let listSize := (nameList inode.mXattr).length
    let sized := if size = 0 then [Reply.xattr listSize] else []
    let listed :=
      if size < listSize then Reply.err .erange
      else if alloc then .buf (nameList inode.mXattr) else .err .eio
    some (fs, sized ++ [listed])

def fuseRemoveXAttr (ino : ℕ) (name : Name) : Result :=
  fs.atINode ino fun inode =>
    let r := inode.removeXAttr name
    some (fs.setNodes (fs.iNodeManager.setINodeAt ino r.1), [retVal r.2])

/-- A request that changes the attributes of an inode, with the bytes that `realloc` finds. -/
inductive XAttrRequest where
  | set (name : Name) (value : List UInt8) (flags : ℕ) (junk : ℕ → UInt8)
  | remove (name : Name)

def handleXAttr (ino : ℕ) : XAttrRequest → Result
  | .set name value flags junk => fs.fuseSetXAttr ino name value flags (some junk)
  | .remove name => fs.fuseRemoveXAttr ino name

/-- A request that reads the attributes of an inode into a buffer of `size` bytes. -/
inductive XAttrQuery where
  | get (name : Name) (size : ℕ)
  | list (size : ℕ)

def queryXAttr (ino : ℕ) : XAttrQuery → Result
  | .get name size => fs.fuseGetXAttr ino name size
  | .list size => fs.fuseListXAttr ino size true

end FileSystem

/-! ### The store as a finite map -/

namespace Attributes

open FileSystem

/-- What a request does to the map, and the reply. -/
def perform (m : XAttrs) : XAttrRequest → XAttrs × Reply
  | .set name value flags _ =>
    if creates flags && m[name]?.isSome then (m, .err .eexist)
    else if replaces flags && m[name]?.isNone then (m, .err .enodata)
    else (m.insert name value, .ok)
  | .remove name => if m[name]?.isNone then (m, .err .enodata) else (m.erase name, .ok)

/-- The reply to a query.  Size 0 asks for the length; a list into a buffer that is not large enough is
left open. -/
def Answers (m : XAttrs) (replies : List Reply) : XAttrQuery → Prop
  | .get name size => replies =
      [match m[name]? with
      | none => .err .enodata
      | some value =>
        if size = 0 then .xattr value.length
        else if value.length ≤ size then .buf value else .err .erange]
  | .list size => 0 < size → (nameList m).length ≤ size → replies = [.buf (nameList m)]

/-- The map after a request. -/
def step (m : XAttrs) (r : XAttrRequest) : Option XAttrs := some (perform m r).1

/-- A set does what the map does: it has neither flag, and the value is not shorter than the one there
is. -/
def Settable (m : XAttrs) : XAttrRequest → Prop
  | .set name value flags _ => creates flags = false ∧ replaces flags = false ∧
      ∀ old ∈ m[name]?, old.length ≤ value.length
  | .remove _ => True

instance (m : XAttrs) : ∀ r : XAttrRequest, Decidable (Settable m r)
  | .set name value flags _ => inferInstanceAs (Decidable (creates flags = false ∧ replaces flags = false ∧
      ∀ old ∈ m[name]?, old.length ≤ value.length))
  | .remove _ => isTrue trivial

/-- A get asks for the length, or has a buffer of exactly that length. -/
def Exact (m : XAttrs) : XAttrQuery → Prop
  | .get name size => ∀ value ∈ m[name]?, size = 0 ∨ size = value.length
  | .list _ => True

end Attributes

namespace FileSystem

open Attributes

/-- From the map `m`, every request is replied to as the map says and leaves the inode with the values of
the map, and then the query is answered as the map says. -/
def Refines (ino : ℕ) (query : XAttrQuery) : FileSystem → XAttrs → List XAttrRequest → Prop
  | fs, m, [] => ∃ replies, fs.queryXAttr ino query = some (fs, replies) ∧ Answers m replies query
  | fs, m, r :: rs => ∃ fs' i, fs.handleXAttr ino r = some (fs', [(perform m r).2]) ∧
      fs'.iNodeManager.iNodes[ino]? = some i ∧ i.mXattr = (perform m r).1 ∧
      Refines ino query fs' (perform m r).1 rs

section Refines

variable {fs : FileSystem} {ino : ℕ} {i : INode}

theorem atINode_eq (hget : fs.iNodeManager.iNodes[ino]? = some i) (k : INode → Result) :
    fs.atINode ino k = k i := by
  have hlt : ino < fs.iNodeManager.iNodes.length := (List.getElem?_eq_some_iff.mp hget).1
  rw [atINode, Nodes.getNumberOfINodes, if_neg (Nat.not_le.mpr hlt), Nodes.getINodeByINodeNumber, hget]
  rfl

/-- What a request does to the inode. -/
def XAttrRequest.onINode (i : INode) : XAttrRequest → INode × Option Errno
  | .set name value flags junk => i.setXAttr name value flags 0 (some junk)
  | .remove name => i.removeXAttr name

theorem handleXAttr_eq (hget : fs.iNodeManager.iNodes[ino]? = some i) (r : XAttrRequest) :
    fs.handleXAttr ino r = some (fs.setNodes (fs.iNodeManager.setINodeAt ino (r.onINode i).1),
      [retVal (r.onINode i).2]) := by
  cases r with
  | set name value flags junk => rw [handleXAttr, fuseSetXAttr, atINode_eq hget]; rfl
  | remove name => rw [handleXAttr, fuseRemoveXAttr, atINode_eq hget]; rfl

/-- A value that is written from the start is followed by what is left of a longer old one. -/
theorem splice_zero (old value : List UInt8) :
    splice old 0 value = value ++ old.drop value.length := by
  simp [splice]

/-- A set without flags stores the value, and behind it the rest of a longer old value. -/
theorem setXAttr_mXattr (i : INode) (name : Name) (value : List UInt8) {flags : ℕ} (junk : ℕ → UInt8)
    (hcreates : creates flags = false) (hreplaces : replaces flags = false) :
    (i.setXAttr name value flags 0 (some junk)).2 = none ∧
      (i.setXAttr name value flags 0 (some junk)).1.mXattr =
        i.mXattr.insert name (value ++ (i.mXattr[name]?.getD []).drop value.length) := by
  simp only [INode.setXAttr, hcreates, hreplaces, Bool.and_false, Bool.false_eq_true, if_false,
    Nat.add_zero, splice_zero]
  split
  · rename_i hlt
    rw [List.drop_eq_nil_of_le hlt.le, List.drop_eq_nil_of_le (by rw [length_grow])]
    exact ⟨rfl, rfl⟩
  · exact ⟨rfl, rfl⟩

/-- With a flag, a set fails where the map does not, or the other way round. -/
theorem setXAttr_flagged (i : INode) (name : Name) (value : List UInt8) {flags : ℕ} (junk : ℕ → UInt8)
    (hflags : creates flags = true ∨ replaces flags = true) :
    retVal (i.setXAttr name value flags 0 (some junk)).2 ≠
      (perform i.mXattr (.set name value flags junk)).2 := by
  have hdone : ∀ old : List UInt8, (if old.length < value.length + 0 then
      (({ i with mXattr := i.mXattr.insert name (splice (grow old (value.length + 0) junk) 0 value) } :
        INode), (none : Option Errno))
      else ({ i with mXattr := i.mXattr.insert name (splice old 0 value) }, none)).2 = none := by
    intro old
    split <;> rfl
  cases hname : i.mXattr[name]? with
  | none =>
    cases hcreates : creates flags with
    | true =>
      cases hreplaces : replaces flags <;>
        simp [INode.setXAttr, perform, hname, hcreates, hreplaces, retVal]
    | false =>
      have hreplaces : replaces flags = true := by simpa [hcreates] using hflags
      simp only [INode.setXAttr, perform, hname, hcreates, hreplaces, Option.getD_none, Option.isNone_none,
        Option.isSome_none, Bool.and_false, Bool.and_true, Bool.false_eq_true, if_false, if_true, hdone]
      exact fun h => by cases h
  | some old =>
    cases hreplaces : replaces flags with
    | true =>
      cases hcreates : creates flags <;>
        simp [INode.setXAttr, perform, hname, hcreates, hreplaces, retVal]
    | false =>
      have hcreates : creates flags = true := by simpa [hreplaces] using hflags
      simp only [INode.setXAttr, perform, hname, hcreates, hreplaces, Option.getD_some, Option.isNone_some,
        Option.isSome_some, Bool.and_false, Bool.and_true, Bool.false_eq_true, if_false, if_true, hdone]
      exact fun h => by cases h

/-- One request does what the map does exactly when it is settable. -/
theorem settable_iff (i : INode) (r : XAttrRequest) :
    Settable i.mXattr r ↔ retVal (r.onINode i).2 = (perform i.mXattr r).2 ∧
      (r.onINode i).1.mXattr = (perform i.mXattr r).1 := by
  cases r with
  | remove name =>
    cases hname : i.mXattr[name]? <;>
      simp [Settable, XAttrRequest.onINode, INode.removeXAttr, perform, hname, retVal]
  | set name value flags junk =>
    show _ ∧ _ ∧ _ ↔ _
    by_cases hflags : creates flags = true ∨ replaces flags = true
    · have hwrong := setXAttr_flagged i name value junk hflags
      constructor
      · intro h
        simp [h.1, h.2.1] at hflags
      · intro h
        exact absurd h.1 hwrong
    · obtain ⟨hcreates, hreplaces⟩ := not_or.mp hflags
      rw [Bool.not_eq_true] at hcreates hreplaces
      obtain ⟨hreply, hstore⟩ := setXAttr_mXattr i name value junk hcreates hreplaces
      have hperform : perform i.mXattr (.set name value flags junk) = (i.mXattr.insert name value, .ok) := by
        simp [perform, hcreates, hreplaces]
      rw [XAttrRequest.onINode, hreply, hstore, hperform]
      simp only [hcreates, hreplaces, true_and, retVal]
      constructor
      · intro hshort
        congr 1
        cases hname : i.mXattr[name]? with
        | none => simp
        | some old => simpa using hshort old hname
      · intro hsame old hold
        have hvalue := congrArg (·[name]?) hsame
        simp only [Std.ExtTreeMap.getElem?_insert_self, Option.some.injEq] at hvalue
        have hlen := congrArg List.length hvalue
        rw [Option.mem_def.mp hold] at hlen
        simp only [List.length_append, List.length_drop, Option.getD_some] at hlen
        omega

/-- A query is answered as the map says exactly when it is exact. -/
theorem exact_iff (hget : fs.iNodeManager.iNodes[ino]? = some i) (query : XAttrQuery) :
    Exact i.mXattr query ↔
      ∃ replies, fs.queryXAttr ino query = some (fs, replies) ∧ Answers i.mXattr replies query := by
  cases query with
  | list size =>
    simp only [Exact, true_iff]
    refine ⟨_, by rw [queryXAttr, fuseListXAttr, atINode_eq hget], fun hpos hroom => ?_⟩
    rw [if_neg (Nat.ne_of_gt hpos), if_neg (Nat.not_lt.mpr hroom), if_pos rfl]
    rfl
  | get name size =>
    cases hname : i.mXattr[name]? with
    | none =>
      simp only [Exact, hname]
      refine ⟨fun _ => ⟨[.err .enodata], ?_, ?_⟩, fun _ value hvalue => by cases hvalue⟩
      · simp only [queryXAttr, fuseGetXAttr, atINode_eq hget, hname]
        rfl
      · rw [Answers, hname]
    | some value =>
      have hquery : fs.queryXAttr ino (.get name size) =
          some (fs, [if size = 0 then .xattr value.length
            else if value.length < size then .err .erange else .buf (value.take size)]) := by
        simp only [queryXAttr, fuseGetXAttr, atINode_eq hget, hname]
        split
        · rfl
        · split <;> rfl
      simp only [Exact, hname, hquery, Answers, Option.mem_def, Option.some.injEq, forall_eq',
        Prod.mk.injEq, true_and, exists_eq_left', List.cons.injEq, and_true]
      constructor
      · intro hexact
        rcases hexact with hzero | hlen
        · rw [if_pos hzero, if_pos hzero]
        · rw [hlen, if_neg (lt_irrefl _), if_pos (le_refl _), List.take_length]
      · intro hsame
        by_contra hexact
        obtain ⟨hpos, hne⟩ := not_or.mp hexact
        rw [if_neg hpos, if_neg hpos] at hsame
        -- a longer buffer is refused, and a shorter one is filled
        rcases Nat.lt_or_ge value.length size with hlt | hge
        · rw [if_pos hlt, if_pos hlt.le] at hsame
          cases hsame
        · rw [if_neg (Nat.not_lt.mpr hge), if_neg (by omega)] at hsame
          cases hsame

end Refines

/-- **The attributes of an inode refine a finite map** exactly when every set has neither of the flags and
no value that is shorter than the one it replaces, and a get has a buffer of the length of the value. -/
theorem refines_iff {fs : FileSystem} {ino : ℕ} {i : INode} (hget : fs.iNodeManager.iNodes[ino]? = some i)
    (requests : List XAttrRequest) (query : XAttrQuery) :
    Refines ino query fs i.mXattr requests ↔ Along Attributes.step Settable i.mXattr requests ∧
      ∀ m, run Attributes.step i.mXattr requests = some m → Exact m query := by
  induction requests generalizing fs i with
  | nil => simpa [Refines, Along] using (exact_iff hget query).symm
  | cons r rs ih =>
    have hlt : ino < fs.iNodeManager.iNodes.length := (List.getElem?_eq_some_iff.mp hget).1
    have hstep := handleXAttr_eq hget r
    have hget' : (fs.setNodes (fs.iNodeManager.setINodeAt ino
        (r.onINode i).1)).iNodeManager.iNodes[ino]? = some (r.onINode i).1 := by
      simp [setNodes, Nodes.setINodeAt, hlt]
    have hrest := ih hget'
    constructor
    · intro h
      obtain ⟨fs', i', hres, hi', hsame, hfollows⟩ := h
      obtain ⟨rfl, hreply⟩ := Prod.mk.inj (Option.some.inj (hstep.symm.trans hres))
      obtain rfl := Option.some.inj (hget'.symm.trans hi')
      rw [← hsame, hrest, hsame] at hfollows
      have hset := (settable_iff i r).mpr ⟨(List.cons.inj hreply).1, hsame⟩
      exact ⟨⟨hset, fun m hm => Option.some.inj hm ▸ hfollows.1⟩, hfollows.2⟩
    · intro h
      obtain ⟨⟨hset, hrun⟩, hexact⟩ := h
      obtain ⟨hreply, hsame⟩ := (settable_iff i r).mp hset
      refine ⟨_, (r.onINode i).1, hreply ▸ hstep, hget', hsame, ?_⟩
      rw [← hsame, hrest, hsame]
      exact ⟨hrun _ rfl, hexact⟩

/-- The root directory as it is mounted. -/
def mountedRoot : INode :=
  Nodes.initializeINode (Nodes.createEmptyINode .directory) rootINode (sIfdir ||| 0o777) 3 0 0

/-- An attribute is set twice, to a longer value the second time, another is removed that is not there,
and the value is read with a buffer of its length. -/
theorem refines_growing : Refines rootINode (.get [97] 2) (mounted ⟨0, 0⟩) mountedRoot.mXattr
    [.set [97] [1] 0 (fun _ => 7), .set [97] [2, 3] 0 (fun _ => 7), .remove [98]] := by
  have hroot : (mounted ⟨0, 0⟩).iNodeManager.iNodes[rootINode]? = some mountedRoot := rfl
  refine (refines_iff hroot _ _).mpr ⟨by decide +kernel, fun m hm => ?_⟩
  have hvalue : (some m).map (fun m => m[([97] : Name)]?) = some (some [2, 3]) := by
    rw [← hm]
    decide +kernel
  have hlast : m[([97] : Name)]? = some [2, 3] := Option.some.inj hvalue
  intro value hget
  obtain rfl := Option.some.inj (hlast.symm.trans hget)
  exact Or.inr rfl

/-- `setxattr` with `XATTR_CREATE` of a name that is not there is answered with `EEXIST`. -/
theorem not_refines_create : ¬ ∀ (fs : FileSystem) (ino : ℕ) (i : INode) (requests : List XAttrRequest)
    (query : XAttrQuery), fs.iNodeManager.iNodes[ino]? = some i →
      Refines ino query fs i.mXattr requests := by
  intro h
  obtain ⟨fs', i, hres, -⟩ := h (mounted ⟨0, 0⟩) rootINode mountedRoot
    [.set [97] [1] xattrCreate (fun _ => 7)] (.list 0) rfl
  have hreply : ((mounted ⟨0, 0⟩).handleXAttr rootINode
      (.set [97] [1] xattrCreate (fun _ => 7))).map Prod.snd = some [.err .eexist] := by decide +kernel
  have hspec : (Attributes.perform mountedRoot.mXattr (.set [97] [1] xattrCreate (fun _ => 7))).2 = .ok := by
    decide +kernel
  rw [hres, hspec] at hreply
  cases hreply

end FileSystem

end DagonFs
