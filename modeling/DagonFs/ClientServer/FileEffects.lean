import DagonFs.ClientServer.FileState

/-!
# The effect of a file request

`Effect` lists what a request that is answered may have done: nothing to any file, or one edit of the
file it names, after a distributed write where a flush has stored the buffer.  `handle_effect` derives it
from the handlers, so that a proof about runs of requests goes by cases on `Effect` and does not look at
the handlers again.
-/

namespace DagonFs

open DagonFs.Lib.Buffer DagonFs.Lib.BlockSplit

namespace FileState

variable (L : Launch) (v : FileState)

/-- The buffer that a write copies into: `realloc`ed first, when the blocks are too few. -/
def writeBuffer (off : ℕ) (data : List UInt8) (junk : ℕ → UInt8) : Option (List UInt8) :=
  if L.blockSize * v.stBlocks < off + data.length then
    some (grow v.file.bytes (numberOfBlocks L.blockSize (off + data.length) * L.blockSize) junk)
  else v.file.mBuf

/-- The file after a write. -/
def wrote (off : ℕ) (data : List UInt8) (junk : ℕ → UInt8) : FileState where
  stSize := max v.stSize (off + data.length)
  stBlocks :=
    if L.blockSize * v.stBlocks < off + data.length then numberOfBlocks L.blockSize (off + data.length)
    else v.stBlocks
  file := ⟨(v.writeBuffer L off data junk).map (splice · off data), true⟩

variable {L v} in
/-- The bytes of a write that stays inside of the buffer, or makes it longer, have room. -/
theorem le_length_writeBuffer {off : ℕ} {data : List UInt8} {junk : ℕ → UInt8}
    (h : off + data.length ≤ v.file.bytes.length ∨ L.blockSize * v.stBlocks < off + data.length) :
    off + data.length ≤ ((v.writeBuffer L off data junk).getD []).length := by
  rw [writeBuffer]
  split
  · rw [Option.getD_some, length_grow]
    exact le_numberOfBlocks_mul L.blockSize_pos _
  · rename_i hkeeps
    exact h.resolve_right hkeeps

/-- There are bytes in the buffer that a flush will store. -/
def IsDirty : Prop := v.file.mBuf.isSome = true ∧ v.file.isWaitingForDistributedWrite = true

instance : Decidable v.IsDirty := inferInstanceAs (Decidable (_ ∧ _))

end FileState

namespace System

/-- No file is changed, and nothing is stored. -/
structure SameFiles (s s' : System) : Prop where
  files : ∀ x, s'.iNodeManager.fileAt x = s.iNodeManager.fileAt x
  queue : s'.iNodeManager.deletedINodes = s.iNodeManager.deletedINodes
  blockList : s'.blockList = s.blockList
  heaps : s'.heaps = s.heaps

theorem SameFiles.refl (s : System) : SameFiles s s := ⟨fun _ => rfl, rfl, rfl, rfl⟩

/-- The inode whose file a request is about.  A write without a buffer is refused before it looks. -/
def Request.target : Request → Option ℕ
  | .create .. => none
  | .open ino _ => some ino
  | .read ino _ _ => some ino
  | .write ino buf _ _ => buf.map fun _ => ino
  | .setAttr ino _ _ => some ino
  | .flush ino => some ino
  | .release ino => some ino

/-- What a request that is answered does. -/
inductive Effect (L : Launch) (s s' : System) : Request → Prop
  | created {ctx : Ids} {parent : ℕ} {name : Name} {flags : ℕ} {fs : FileSystem} {replies : List Reply}
    (hrun : s.fs.fuseCreate ctx parent name flags = some (fs, replies)) (hs : s' = s.setFs fs) :
    Effect L s s' (.create ctx parent name flags)
  | refused {r : Request} (hnone : ∀ ino, r.target = some ino → s.iNodeManager.fileAt ino = none)
    (hsame : SameFiles s s') : Effect L s s' r
  | dropped {ino flags : ℕ} {v : FileState} (hfile : s.iNodeManager.fileAt ino = some v)
    (hflags : opensForWriting flags = true) (he : Edited s s' ino { v with stSize := 0, stBlocks := 0 }) :
    Effect L s s' (.open ino flags)
  | loaded {ino flags : ℕ} {v : FileState} {buf : Option (List UInt8)}
    (hfile : s.iNodeManager.fileAt ino = some v) (hflags : opensForWriting flags = false)
    (hread : s.dagonFS_Read L ⟨ino, v.stSize, v.stSize, 0⟩ = some buf)
    (he : Edited s s' ino { v with file := { v.file with mBuf := buf } }) : Effect L s s' (.open ino flags)
  | read {ino size off : ℕ} {v : FileState} (hfile : s.iNodeManager.fileAt ino = some v)
    (hsame : SameFiles s s') : Effect L s s' (.read ino size off)
  | wrote {ino off : ℕ} {data : List UInt8} {junk : ℕ → UInt8} {v : FileState}
    (hfile : s.iNodeManager.fileAt ino = some v)
    (hfit : off + data.length ≤ ((v.writeBuffer L off data junk).getD []).length)
    (he : Edited s s' ino (v.wrote L off data junk)) : Effect L s s' (.write ino (some data) off junk)
  | resized {ino toSet : ℕ} {attr : Stat} {v : FileState} (hfile : s.iNodeManager.fileAt ino = some v)
    (he : Edited s s' ino
      { v with stSize := if isSet toSet fuseSetAttrSize then attr.stSize else v.stSize }) :
    Effect L s s' (.setAttr ino attr toSet)
  | unbuffered {ino : ℕ} {v : FileState} (hfile : s.iNodeManager.fileAt ino = some v)
    (hbuf : v.file.mBuf = none) (hsame : SameFiles s s') : Effect L s s' (.flush ino)
  | freed {ino : ℕ} {v : FileState} (hfile : s.iNodeManager.fileAt ino = some v)
    (hclean : v.file.isWaitingForDistributedWrite = false)
    (he : Edited s s' ino { v with file := v.file.freeBuf }) : Effect L s s' (.flush ino)
  | distributed {ino : ℕ} {v : FileState} {buf : List UInt8} {s₁ : System}
    (hfile : s.iNodeManager.fileAt ino = some v) (hbuf : v.file.mBuf = some buf)
    (hwaiting : v.file.isWaitingForDistributedWrite = true)
    (hwrite : s.dagonFS_Write L buf ino v.stSize = some s₁)
    (he : Edited s₁ s' ino { v with file := v.file.removeWaiting.freeBuf }) : Effect L s s' (.flush ino)
  | released {ino : ℕ} {v : FileState} (hfile : s.iNodeManager.fileAt ino = some v)
    (he : Edited s s' ino { v with file := v.file.freeBuf }) : Effect L s s' (.release ino)

variable {L : Launch} {s s' : System} {replies : List Reply} {ino : ℕ} {v : FileState}

/-! ### Requests that name a file -/

section File

variable (hfile : s.iNodeManager.fileAt ino = some v)
include hfile

/-- A write is answered exactly when the bytes fit the buffer. -/
theorem fuseWrite_eq (data : List UInt8) (off : ℕ) (junk : ℕ → UInt8) :
    s.fuseWrite L ino (some data) off junk =
      if off + data.length ≤ ((v.writeBuffer L off data junk).getD []).length then
        some ((s.setFs (s.fs.updateUsedBlocks ((v.wrote L off data junk).stBlocks - v.stBlocks))).modifyINode
          ino (putFile (v.wrote L off data junk).stSize (v.wrote L off data junk).stBlocks
            (v.wrote L off data junk).file), [.write data.length])
      else none := by
  obtain ⟨i, hsize, hblocks, hkind, hwith⟩ := withINode_file hfile
  have hmax : (if v.stSize < off + data.length then off + data.length else v.stSize) =
      max v.stSize (off + data.length) := by
    split <;> omega
  simp only [fuseWrite, hwith, hkind, hsize, hblocks, hmax]
  rfl

theorem fuseWrite_edited (data : List UInt8) (off : ℕ) (junk : ℕ → UInt8) : ∃ s',
    Edited s s' ino (v.wrote L off data junk) ∧ s.fuseWrite L ino (some data) off junk =
      if off + data.length ≤ ((v.writeBuffer L off data junk).getD []).length then
        some (s', [.write data.length])
      else none := ⟨_, edited_putFile hfile _ _ _ _, fuseWrite_eq hfile data off junk⟩

theorem setAttr_edited (attr : Stat) (toSet : ℕ) : Edited s (s.modifyINode ino
    (Nodes.setINodeAttributes attr toSet)) ino
      { v with stSize := if isSet toSet fuseSetAttrSize then attr.stSize else v.stSize } := by
  apply edited_modifyINode hfile
  intro i hi
  obtain ⟨_, _, _, _, k, _⟩ := i
  cases k with
  | file f =>
    obtain rfl := Option.some.inj hi
    rfl
  | _ => cases hi

end File

/-! ### Requests that name no file -/

/-- An inode of another kind, or a number past the end of the table. -/
theorem kind_of_fileAt_none (hnone : s.iNodeManager.fileAt ino = none) {i : INode}
    (hget : s.iNodeManager.getINodeByINodeNumber ino = some i) (f : File) : i.kind ≠ .file f := by
  intro hkind
  rw [Nodes.getINodeByINodeNumber] at hget
  rw [Nodes.fileAt, hget, Option.bind_some, INode.fileState, INode.asFile, hkind] at hnone
  cases hnone

/-- A change of an inode that is no file, and stays none. -/
theorem sameFiles_modifyINode {f : INode → INode} (hnone : s.iNodeManager.fileAt ino = none)
    (hf : ∀ i : INode, i.fileState = none → (f i).fileState = none) :
    SameFiles s (s.modifyINode ino f) := by
  refine ⟨fun x => ?_, rfl, rfl, rfl⟩
  by_cases hx : x = ino
  · subst hx
    rw [hnone]
    show (s.iNodeManager.modifyINode x f).fileAt x = none
    rw [Nodes.fileAt, Nodes.modifyINode_getElem?, if_pos rfl]
    rw [Nodes.fileAt] at hnone
    cases hget : s.iNodeManager.iNodes[x]? with
    | none => rfl
    | some i =>
      rw [hget] at hnone
      exact hf i hnone
  · exact Nodes.fileAt_modifyINode_ne _ f hx

/-- Whatever state the handler ends with has the files of `s`. -/
def Unchanged (s : System) (res : Result) : Prop :=
  ∀ s' replies, res = some (s', replies) → SameFiles s s'

theorem unchanged_none : Unchanged s none := by
  intro s' replies h
  cases h

theorem unchanged_some (h : SameFiles s s') : Unchanged s (some (s', replies)) := by
  intro s₁ r hr
  obtain ⟨rfl, -⟩ := Prod.mk.inj (Option.some.inj hr)
  exact h

theorem unchanged_reply (r : Reply) : Unchanged s (s.reply r) := unchanged_some (SameFiles.refl s)

/-- Past its check a handler goes on with an inode that is no file. -/
theorem unchanged_withINode {k : INode → Result} (hnone : s.iNodeManager.fileAt ino = none)
    (h : ∀ i : INode, (∀ f, i.kind ≠ .file f) → Unchanged s (k i)) :
    Unchanged s (s.withINode ino k) := by
  unfold withINode
  split
  · exact unchanged_reply _
  · cases hget : s.iNodeManager.getINodeByINodeNumber ino with
    | none => exact unchanged_none
    | some i => exact h i (kind_of_fileAt_none hnone hget)

/-- A request that names no file changes none. -/
theorem sameFiles_of_target {r : Request} (htarget : r.target = some ino)
    (hnone : s.iNodeManager.fileAt ino = none) : Unchanged s (s.handle L r) := by
  cases r with
  | create ctx parent name flags => cases htarget
  | «open» x flags =>
    obtain rfl := Option.some.inj htarget
    apply unchanged_withINode hnone
    intro i hkind
    cases hk : i.kind with
    | file f => exact absurd hk (hkind f)
    | _ => exact unchanged_reply _
  | read x size off =>
    obtain rfl := Option.some.inj htarget
    apply unchanged_withINode hnone
    intro i hkind
    cases hk : i.kind with
    | file f => exact absurd hk (hkind f)
    | _ => exact unchanged_reply _
  | write x buf off junk =>
    cases buf with
    | none => cases htarget
    | some data =>
      obtain rfl := Option.some.inj htarget
      apply unchanged_withINode hnone
      intro i hkind
      cases hk : i.kind with
      | file f => exact absurd hk (hkind f)
      | _ => exact unchanged_reply _
  | setAttr x attr toSet =>
    obtain rfl := Option.some.inj htarget
    show Unchanged s (s.fuseSetAttr x attr toSet)
    unfold fuseSetAttr
    cases s.iNodeManager.getINodeByINodeNumber x with
    | none => exact unchanged_none
    | some i =>
      apply unchanged_some
      apply sameFiles_modifyINode hnone
      intro i hi
      obtain ⟨_, _, _, _, k, _⟩ := i
      cases k with
      | file f => cases hi
      | _ => rfl
  | flush x =>
    obtain rfl := Option.some.inj htarget
    apply unchanged_withINode hnone
    intro i hkind
    cases hk : i.kind with
    | file f => exact absurd hk (hkind f)
    | _ =>
      rw [INode.asFile, hk]
      exact unchanged_none
  | release x =>
    obtain rfl := Option.some.inj htarget
    apply unchanged_withINode hnone
    intro i hkind
    have hother : SameFiles s (s.modifyINode x (onFile File.freeBuf)) := by
      apply sameFiles_modifyINode hnone
      intro i hi
      obtain ⟨_, _, _, _, k, _⟩ := i
      cases k with
      | file f => cases hi
      | _ => rfl
    cases hk : i.kind with
    | directory d => exact unchanged_reply _
    | _ => exact unchanged_some hother

/-! ### Every request -/

/-- **The effect of a request that is answered.** -/
theorem handle_effect {r : Request} (hrun : s.handle L r = some (s', replies)) : Effect L s s' r := by
  by_cases hnone : ∀ ino, r.target = some ino → s.iNodeManager.fileAt ino = none
  · cases r with
    | create ctx parent name flags =>
      obtain ⟨⟨fs, replies'⟩, hfs, hend⟩ := Option.map_eq_some_iff.mp hrun
      obtain ⟨rfl, -⟩ := Prod.mk.inj hend
      exact .created hfs rfl
    | write ino buf off junk =>
      cases buf with
      | none =>
        obtain ⟨rfl, -⟩ := Prod.mk.inj (Option.some.inj hrun)
        exact .refused hnone (SameFiles.refl s)
      | some data =>
        exact .refused hnone (sameFiles_of_target rfl (hnone ino rfl) s' replies hrun)
    | «open» ino _ | read ino _ _ | setAttr ino _ _ | flush ino | release ino =>
      exact .refused hnone (sameFiles_of_target rfl (hnone ino rfl) s' replies hrun)
  · simp only [not_forall] at hnone
    obtain ⟨ino, htarget, hsome⟩ := hnone
    obtain ⟨v, hfile⟩ := Option.ne_none_iff_exists'.mp hsome
    cases r with
    | create ctx parent name flags => cases htarget
    | «open» x flags =>
      obtain rfl := Option.some.inj htarget
      cases hflags : opensForWriting flags with
      | true =>
        obtain ⟨s₁, hopen, he⟩ := fuseOpen_drops (L := L) hfile hflags
        obtain ⟨rfl, -⟩ := Prod.mk.inj (Option.some.inj (hopen.symm.trans hrun))
        exact .dropped hfile hflags he
      | false =>
        obtain ⟨i, hsize, -, hkind, hwith⟩ := withINode_file hfile
        simp only [handle, fuseOpen, hwith, hkind, hflags, hsize] at hrun
        obtain ⟨buf, hread, hend⟩ := Option.map_eq_some_iff.mp hrun
        obtain ⟨rfl, -⟩ := Prod.mk.inj hend
        exact .loaded hfile hflags hread (edited_onFile hfile fun f => { f with mBuf := buf })
    | read x size off =>
      obtain rfl := Option.some.inj htarget
      obtain ⟨i, -, -, hkind, hwith⟩ := withINode_file hfile
      simp only [handle, fuseRead, hwith, hkind] at hrun
      by_cases hoff : i.attr.stSize < off
      · rw [if_pos hoff] at hrun
        cases hrun
      · rw [if_neg hoff] at hrun
        generalize (if i.attr.stSize < off + size then i.attr.stSize - off else size) = bytesRead at hrun
        split at hrun
        · obtain ⟨rfl, -⟩ := Prod.mk.inj (Option.some.inj hrun)
          exact .read hfile (SameFiles.refl s)
        · cases hrun
    | write x buf off junk =>
      cases buf with
      | none => cases htarget
      | some data =>
        obtain rfl := Option.some.inj htarget
        rw [handle, fuseWrite_eq hfile] at hrun
        split at hrun
        · rename_i hfit
          obtain ⟨rfl, -⟩ := Prod.mk.inj (Option.some.inj hrun)
          exact .wrote hfile hfit (edited_putFile hfile _ _ _ _)
        · cases hrun
    | setAttr x attr toSet =>
      obtain rfl := Option.some.inj htarget
      obtain ⟨i, -, hend⟩ := Option.map_eq_some_iff.mp hrun
      obtain ⟨rfl, -⟩ := Prod.mk.inj hend
      exact .resized hfile (setAttr_edited hfile attr toSet)
    | flush x =>
      obtain rfl := Option.some.inj htarget
      cases hbuf : v.file.mBuf with
      | none =>
        obtain ⟨rfl, -⟩ := Prod.mk.inj (Option.some.inj ((fuseFlush_empty hfile hbuf).symm.trans hrun))
        exact .unbuffered hfile hbuf (SameFiles.refl s)
      | some buf =>
        cases hwaiting : v.file.isWaitingForDistributedWrite with
        | false =>
          obtain ⟨s₁, hflush, he⟩ := fuseFlush_unwritten (L := L) hfile hbuf hwaiting
          obtain ⟨rfl, -⟩ := Prod.mk.inj (Option.some.inj (hflush.symm.trans hrun))
          exact .freed hfile hwaiting he
        | true =>
          obtain ⟨i, hsize, -, hkind, hwith⟩ := withINode_file hfile
          simp only [handle, fuseFlush, hwith, INode.asFile, hkind, Option.bind_some, hbuf, hwaiting,
            if_pos, hsize] at hrun
          obtain ⟨s₁, hwrite, hend⟩ := Option.map_eq_some_iff.mp hrun
          obtain ⟨rfl, -⟩ := Prod.mk.inj hend
          have hfile₁ : s₁.iNodeManager.fileAt x = some v := by
            obtain ⟨s₂, hspec, hwritten⟩ := dagonFS_Write_spec x (le_of_dagonFS_Write hwrite) (s := s)
            obtain rfl : s₁ = s₂ := Option.some.inj (hwrite.symm.trans hspec)
            rw [← hfile, iNodeManager, hwritten.iNodeManager, iNodeManager]
          exact .distributed hfile hbuf hwaiting hwrite
            (edited_onFile hfile₁ fun f => f.removeWaiting.freeBuf)
    | release x =>
      obtain rfl := Option.some.inj htarget
      obtain ⟨s₁, hrelease, he⟩ := fuseRelease_file hfile
      obtain ⟨rfl, -⟩ := Prod.mk.inj (Option.some.inj (hrelease.symm.trans hrun))
      exact .released hfile he

end System

end DagonFs
