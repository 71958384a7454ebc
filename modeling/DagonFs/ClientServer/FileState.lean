import DagonFs.ClientServer.Distributed
import DagonFs.ClientServer.Files
import DagonFs.FileSystem.Changes

/-!
# What a file handler does to the files

`fileAt` reads one file off the inode table: its size, its blocks and the open buffer.  A handler edits
one file (`Edited`); the block lists and the heaps are changed by the distributed write of a flush only.
-/

namespace DagonFs

open DagonFs.Lib.Buffer

/-- The state of a regular file in the inode table. -/
structure FileState where
  stSize : ℕ
  stBlocks : ℕ
  file : File

def INode.fileState (i : INode) : Option FileState :=
  i.asFile.map fun f => ⟨i.attr.stSize, i.attr.stBlocks, f⟩

/-- A file as it is created. -/
def FileState.new : FileState := ⟨0, 0, File.new⟩

theorem INode.fileState_eq_some {i : INode} {v : FileState} (h : i.fileState = some v) :
    i.attr.stSize = v.stSize ∧ i.attr.stBlocks = v.stBlocks ∧ i.kind = .file v.file := by
  obtain ⟨_, _, _, _, k⟩ := i
  cases k with
  | file f =>
    obtain rfl := Option.some.inj h
    exact ⟨rfl, rfl, rfl⟩
  | _ => cases h

namespace Nodes

/-- The file with number `x`, if there is one. -/
def fileAt (ns : Nodes) (x : ℕ) : Option FileState := ns.iNodes[x]?.bind INode.fileState

theorem lt_of_fileAt {ns : Nodes} {x : ℕ} {v : FileState} (h : ns.fileAt x = some v) :
    x < ns.iNodes.length := by
  obtain ⟨i, hget, -⟩ := Option.bind_eq_some_iff.mp h
  exact (List.getElem?_eq_some_iff.mp hget).1

theorem fileAt_modifyINode_ne (ns : Nodes) {ino x : ℕ} (f : INode → INode) (hx : x ≠ ino) :
    (ns.modifyINode ino f).fileAt x = ns.fileAt x := by
  rw [fileAt, modifyINode_getElem?, if_neg (Ne.symm hx), fileAt]

theorem fileAt_modifyINode_self {ns : Nodes} {ino : ℕ} {f : INode → INode} {v v' : FileState}
    (hfile : ns.fileAt ino = some v) (hf : ∀ i, i.fileState = some v → (f i).fileState = some v') :
    (ns.modifyINode ino f).fileAt ino = some v' := by
  obtain ⟨i, hget, hi⟩ := Option.bind_eq_some_iff.mp hfile
  rw [fileAt, modifyINode_getElem?, if_pos rfl, hget]
  exact hf i hi

/-- An operation that does not touch what `fileAt` reads. -/
theorem fileAt_modifyINode_same (ns : Nodes) {f : INode → INode}
    (hf : ∀ i, (f i).fileState = i.fileState) (ino x : ℕ) :
    (ns.modifyINode ino f).fileAt x = ns.fileAt x := by
  rw [fileAt, modifyINode_getElem?, fileAt]
  split
  · cases ns.iNodes[x]? <;> simp [hf]
  · rfl

theorem fileAt_updateChild (ns : Nodes) (dir : ℕ) (name : Name) (ino x : ℕ) :
    (ns.updateChild dir name ino).fileAt x = ns.fileAt x := by
  refine ns.fileAt_modifyINode_same (fun i => ?_) dir x
  obtain ⟨_, _, _, _, k⟩ := i
  cases k <;> rfl

theorem fileAt_lookupINode (ns : Nodes) (ino x : ℕ) : (ns.lookupINode ino).fileAt x = ns.fileAt x := by
  have hsame : ∀ i : INode, i.lookup.fileState = i.fileState := fun _ => rfl
  exact ns.fileAt_modifyINode_same hsame ino x

/-- The other files, after an inode has been registered, named and looked up. -/
theorem Registered.fileAt_looked {ns ns' : Nodes} {ino : ℕ} {i : INode} (h : Registered ns ns' ino i) (p : ℕ)
    (name : Name) (x : ℕ) (hx : x ≠ ino) :
    ((ns'.updateChild p name ino).lookupINode ino).fileAt x = ns.fileAt x := by
  rw [fileAt_lookupINode, fileAt_updateChild, fileAt, h.others x hx, fileAt]

end Nodes

namespace FileSystem

open DagonFs.Nodes

/-- What `FuseCreate` does: an error that changes nothing, or a new empty file at the end of the
table, whose number is in the reply. -/
theorem fuseCreate_spec (fs : FileSystem) (ctx : Ids) (parent : ℕ) (name : Name) (flags : ℕ)
    (hqueue : fs.iNodeManager.deletedINodes = []) :
    (∃ e, fs.fuseCreate ctx parent name flags = some (fs, [.err e])) ∨
    ∃ fs' attr, fs.fuseCreate ctx parent name flags =
        some (fs', [.create fs.iNodeManager.iNodes.length attr]) ∧
      fs'.iNodeManager.deletedINodes = [] ∧
      (∀ x, fs'.blocksManager.getDataBlockListOfInode x = fs.blocksManager.getDataBlockListOfInode x) ∧
      fs'.iNodeManager.fileAt fs.iNodeManager.iNodes.length = some FileState.new ∧
      ∀ x, x ≠ fs.iNodeManager.iNodes.length →
        fs'.iNodeManager.fileAt x = fs.iNodeManager.fileAt x := by
  unfold fuseCreate withDirectory
  split
  · exact Or.inl ⟨_, rfl⟩
  rename_i hparent
  split
  · exact Or.inl ⟨_, rfl⟩
  split
  · exact Or.inl ⟨_, rfl⟩
  · right
    obtain ⟨fs₁, hreg, htable, hqueue₁, hblocks⟩ := registerINode_end fs .regularFile
      (sIfreg ||| 0o777) 1 ctx.gid ctx.uid hqueue
    have hne : fs.iNodeManager.iNodes.length ≠ parent := by
      rw [getNumberOfINodes] at hparent
      omega
    have hlooked := getElem?_looked name hne htable.get
    have hothers := htable.fileAt_looked parent name
    have hlists : ∀ x, (fs₁.blocksManager.createEmptyBlockListForInode
        fs.iNodeManager.iNodes.length).getDataBlockListOfInode x =
          fs.blocksManager.getDataBlockListOfInode x := by
      intro x
      rw [Blocks.getDataBlockListOfInode_create, hblocks]
    simp only [withINode, hreg, insertChild, if_neg hne, Option.bind_some, getINodeByINodeNumber,
      setNodes]
    split
    · rw [modifyINode_getElem?, if_pos rfl, hlooked]
      refine ⟨_, _, rfl, hqueue₁, hlists, ?_, fun x hx => ?_⟩
      · rw [fileAt, modifyINode_getElem?, if_pos rfl, hlooked]
        rfl
      · rw [fileAt_modifyINode_ne _ _ hx, hothers x hx]
    · rw [hlooked]
      refine ⟨_, _, rfl, hqueue₁, hlists, ?_, hothers⟩
      rw [fileAt, hlooked]
      rfl

/-- What `FuseCreate` has done when it ends, whatever is queued for reuse: the new empty file is at the
number that it replies. -/
theorem fuseCreate_files {fs fs' : FileSystem} {ctx : Ids} {parent flags : ℕ} {name : Name}
    {replies : List Reply} (h : fs.fuseCreate ctx parent name flags = some (fs', replies)) :
    (∃ e, fs' = fs ∧ replies = [.err e]) ∨
    ∃ ino attr, replies = [.create ino attr] ∧ fs'.iNodeManager.fileAt ino = some FileState.new ∧
      (∀ x, x ≠ ino → fs'.iNodeManager.fileAt x = fs.iNodeManager.fileAt x) ∧
      ∀ x, fs'.blocksManager.getDataBlockListOfInode x = fs.blocksManager.getDataBlockListOfInode x := by
  unfold fuseCreate withDirectory at h
  split at h
  · obtain ⟨rfl, rfl⟩ := Prod.mk.inj (Option.some.inj h)
    exact Or.inl ⟨_, rfl, rfl⟩
  split at h
  · obtain ⟨rfl, rfl⟩ := Prod.mk.inj (Option.some.inj h)
    exact Or.inl ⟨_, rfl, rfl⟩
  split at h
  · obtain ⟨rfl, rfl⟩ := Prod.mk.inj (Option.some.inj h)
    exact Or.inl ⟨_, rfl, rfl⟩
  · right
    simp only [withINode] at h
    split at h
    · cases h
    rename_i fs₁ ino hreg
    obtain ⟨fs₂, hinsert, h⟩ := Option.bind_eq_some_iff.mp h
    obtain ⟨inode, hget, hend⟩ := Option.map_eq_some_iff.mp h
    obtain ⟨htable, hblocks⟩ := registerINode_registered hreg
    unfold insertChild at hinsert
    split at hinsert
    · cases hinsert
    rename_i hne
    obtain rfl := Option.some.inj hinsert
    obtain ⟨rfl, rfl⟩ := Prod.mk.inj hend
    have hlooked := getElem?_looked name hne htable.get
    have hothers := htable.fileAt_looked parent name
    have hlists : ∀ x, (fs₁.blocksManager.createEmptyBlockListForInode ino).getDataBlockListOfInode x =
        fs.blocksManager.getDataBlockListOfInode x := by
      intro x
      rw [Blocks.getDataBlockListOfInode_create, hblocks]
    simp only [setNodes] at hget ⊢
    split at hget
    · rename_i hflags
      rw [if_pos hflags]
      rw [getINodeByINodeNumber, modifyINode_getElem?, if_pos rfl, hlooked] at hget
      obtain rfl := Option.some.inj hget
      refine ⟨ino, _, rfl, ?_, ?_, hlists⟩
      · rw [fileAt, modifyINode_getElem?, if_pos rfl, hlooked]
        rfl
      · intro x hx
        rw [fileAt_modifyINode_ne _ _ hx, hothers x hx]
    · rename_i hflags
      rw [if_neg hflags]
      rw [getINodeByINodeNumber, hlooked] at hget
      obtain rfl := Option.some.inj hget
      refine ⟨ino, _, rfl, ?_, hothers, hlists⟩
      rw [fileAt, hlooked]
      rfl

end FileSystem

namespace System

open DagonFs.Nodes

/-- The table operations of a handler have left file `ino` as `v`, and touched no other file, no block
list and no heap. -/
structure Edited (s s' : System) (ino : ℕ) (v : FileState) : Prop where
  self : s'.iNodeManager.fileAt ino = some v
  others : ∀ x, x ≠ ino → s'.iNodeManager.fileAt x = s.iNodeManager.fileAt x
  queue : s'.iNodeManager.deletedINodes = s.iNodeManager.deletedINodes
  blockList : s'.blockList = s.blockList
  heaps : s'.heaps = s.heaps

variable {L : Launch} {s : System} {ino : ℕ} {v : FileState}

theorem edited_modifyINode {v' : FileState} {f : INode → INode}
    (hfile : s.iNodeManager.fileAt ino = some v)
    (hf : ∀ i, i.fileState = some v → (f i).fileState = some v') :
    Edited s (s.modifyINode ino f) ino v' :=
  ⟨fileAt_modifyINode_self hfile hf, fun _ hx => fileAt_modifyINode_ne _ _ hx, rfl, rfl, rfl⟩

/-- An operation on the `File` part of a file. -/
theorem onFile_fileState (g : File → File) {i : INode} (h : i.fileState = some v) :
    (onFile g i).fileState = some { v with file := g v.file } := by
  obtain ⟨_, _, _, _, k⟩ := i
  cases k with
  | file f =>
    obtain rfl := Option.some.inj h
    rfl
  | _ => cases h

/-- The truncation of an open. -/
theorem clearSize_fileState {i : INode} (h : i.fileState = some v) :
    (FileSystem.clearSize i).fileState = some { v with stSize := 0, stBlocks := 0 } := by
  obtain ⟨_, _, _, _, k⟩ := i
  cases k with
  | file f =>
    obtain rfl := Option.some.inj h
    rfl
  | _ => cases h

theorem edited_onFile (hfile : s.iNodeManager.fileAt ino = some v) (g : File → File) :
    Edited s (s.modifyINode ino (onFile g)) ino { v with file := g v.file } :=
  edited_modifyINode hfile fun _ hi => onFile_fileState g hi

/-- A write also adjusts the count of used blocks. -/
theorem edited_putFile (hfile : s.iNodeManager.fileAt ino = some v) (blocksAdded : ℤ)
    (stSize stBlocks : ℕ) (file : File) :
    Edited s ((s.setFs (s.fs.updateUsedBlocks blocksAdded)).modifyINode ino
      (putFile stSize stBlocks file)) ino ⟨stSize, stBlocks, file⟩ :=
  have hput : ∀ i : INode, i.fileState = some v →
      (putFile stSize stBlocks file i).fileState = some ⟨stSize, stBlocks, file⟩ := fun _ _ => rfl
  ⟨fileAt_modifyINode_self hfile hput, fun _ hx => fileAt_modifyINode_ne _ _ hx, rfl, rfl, rfl⟩

/-- A handler called on a file gets past its checks with the file's inode. -/
theorem withINode_file (hfile : s.iNodeManager.fileAt ino = some v) :
    ∃ i : INode, i.attr.stSize = v.stSize ∧ i.attr.stBlocks = v.stBlocks ∧ i.kind = .file v.file ∧
      ∀ k : INode → Result, s.withINode ino k = k i := by
  obtain ⟨i, hget, hi⟩ := Option.bind_eq_some_iff.mp hfile
  obtain ⟨hsize, hblocks, hkind⟩ := INode.fileState_eq_some hi
  refine ⟨i, hsize, hblocks, hkind, fun k => ?_⟩
  rw [withINode, getNumberOfINodes, if_neg (Nat.not_le.mpr (lt_of_fileAt hfile)), getINodeByINodeNumber, hget]
  rfl

/-! ### One handler after the other -/

section Handlers

variable (hfile : s.iNodeManager.fileAt ino = some v)
include hfile

/-- An open for writing sets the size to 0 and keeps the buffer. -/
theorem fuseOpen_drops {flags : ℕ} (hflags : opensForWriting flags = true) :
    ∃ s', s.fuseOpen L ino flags = some (s', [.opened]) ∧
      Edited s s' ino { v with stSize := 0, stBlocks := 0 } := by
  obtain ⟨i, -, -, hkind, hwith⟩ := withINode_file hfile
  refine ⟨s.modifyINode ino FileSystem.clearSize, ?_, edited_modifyINode hfile fun _ => clearSize_fileState⟩
  simp only [fuseOpen, hwith, hkind, if_pos hflags]

/-- Any other open loads the buffer. -/
theorem fuseOpen_loads {flags : ℕ} (hflags : opensForWriting flags = false)
    {buf : Option (List UInt8)} (hread : s.dagonFS_Read L ⟨ino, v.stSize, v.stSize, 0⟩ = some buf) :
    ∃ s', s.fuseOpen L ino flags = some (s', [.opened]) ∧
      Edited s s' ino { v with file := { v.file with mBuf := buf } } := by
  obtain ⟨i, hsize, -, hkind, hwith⟩ := withINode_file hfile
  refine ⟨_, ?_, edited_onFile hfile fun f => { f with mBuf := buf }⟩
  simp only [fuseOpen, hwith, hkind, hflags, hsize, hread]
  rfl

/-- A read inside the file. -/
theorem fuseRead_file {size off : ℕ} (hoff : off ≤ v.stSize) (hbytes : v.stSize ≤ v.file.bytes.length) :
    s.fuseRead ino size off =
      some (s, [.buf ((v.file.bytes.drop off).take (min size (v.stSize - off)))]) := by
  obtain ⟨i, hsize, -, hkind, hwith⟩ := withINode_file hfile
  have hcount : (if v.stSize < off + size then v.stSize - off else size) = min size (v.stSize - off) := by
    split <;> omega
  simp only [fuseRead, hwith, hkind, hsize, if_neg (Nat.not_lt.mpr hoff), hcount]
  rw [if_pos (by omega)]
  rfl

/-- A write to a buffer that has the room its block count says.  The buffer is grown first if it has to
be; what was in it stays in front. -/
theorem fuseWrite_file {data : List UInt8} {off : ℕ} (junk : ℕ → UInt8) (hdata : 1 ≤ data.length)
    (hroom : v.file.bytes.length = v.stBlocks * L.blockSize) :
    ∃ (s' : System) (buf : List UInt8), s.fuseWrite L ino (some data) off junk = some (s', [.write data.length]) ∧
      Edited s s' ino
        { stSize := max v.stSize (off + data.length)
          stBlocks := max v.stBlocks (numberOfBlocks L.blockSize (off + data.length))
          file := ⟨some (splice buf off data), true⟩ } ∧
      buf.length = max v.stBlocks (numberOfBlocks L.blockSize (off + data.length)) * L.blockSize ∧
      ∀ (k : ℕ) (a : UInt8), v.file.bytes[k]? = some a → buf[k]? = some a := by
  obtain ⟨i, hsize, hblocks, hkind, hwith⟩ := withINode_file hfile
  have hmax : (if v.stSize < off + data.length then off + data.length else v.stSize) =
      max v.stSize (off + data.length) := by
    split <;> omega
  have hleast := numberOfBlocks_le_iff L.blockSize_pos (off + data.length)
  by_cases hgrows : L.blockSize * v.stBlocks < off + data.length
  · -- the buffer is reallocated
    have hmore : max v.stBlocks (numberOfBlocks L.blockSize (off + data.length)) =
        numberOfBlocks L.blockSize (off + data.length) := by
      have := (hleast v.stBlocks).not.mpr (by rw [Nat.mul_comm]; omega)
      omega
    have hfits := le_numberOfBlocks_mul L.blockSize_pos (off + data.length)
    rw [hmore]
    refine ⟨_, grow v.file.bytes (numberOfBlocks L.blockSize (off + data.length) * L.blockSize) junk,
      ?_, edited_putFile hfile (numberOfBlocks L.blockSize (off + data.length) - v.stBlocks) _ _ _,
      length_grow .., fun k a hk => ?_⟩
    · simp only [fuseWrite, hwith, hkind, hblocks, hsize, if_pos hgrows, Option.getD_some, length_grow,
        if_pos hfits, hmax, Option.map_some]
      rfl
    · have hlt : k < v.file.bytes.length := (List.getElem?_eq_some_iff.mp hk).1
      rw [getElem?_grow junk hlt, hk]
      rw [hroom, Nat.mul_comm] at hlt
      omega
  · have hfits : off + data.length ≤ v.file.bytes.length := by
      rw [hroom, Nat.mul_comm]
      omega
    have hsame : max v.stBlocks (numberOfBlocks L.blockSize (off + data.length)) = v.stBlocks := by
      have := (hleast v.stBlocks).mpr (hroom ▸ hfits)
      omega
    obtain ⟨buf, hbuf⟩ : ∃ buf, v.file.mBuf = some buf := by
      cases hbuf : v.file.mBuf with
      | some buf => exact ⟨buf, rfl⟩
      | none =>
        rw [File.bytes, hbuf] at hfits
        simp only [Option.getD_none, List.length_nil] at hfits
        omega
    have hbytes : v.file.bytes = buf := by rw [File.bytes, hbuf]; rfl
    rw [hbytes] at hroom hfits ⊢
    rw [hsame]
    refine ⟨_, buf, ?_, edited_putFile hfile (v.stBlocks - v.stBlocks) _ _ _, hroom, fun _ _ hk => hk⟩
    simp only [fuseWrite, hwith, hkind, hblocks, hsize, if_neg hgrows, hbuf, Option.getD_some,
      if_pos hfits, hmax, Option.map_some]
    rfl

theorem fuseFlush_empty (hbuf : v.file.mBuf = none) : s.fuseFlush L ino = some (s, [.ok]) := by
  obtain ⟨i, -, -, hkind, hwith⟩ := withINode_file hfile
  simp only [fuseFlush, hwith, INode.asFile, hkind, Option.bind_some, hbuf]
  rfl

/-- The flush of a buffer that has not been written to only frees it. -/
theorem fuseFlush_unwritten {buf : List UInt8} (hbuf : v.file.mBuf = some buf)
    (hclean : v.file.isWaitingForDistributedWrite = false) :
    ∃ s', s.fuseFlush L ino = some (s', [.ok]) ∧ Edited s s' ino { v with file := v.file.freeBuf } := by
  obtain ⟨i, -, -, hkind, hwith⟩ := withINode_file hfile
  refine ⟨_, ?_, edited_onFile hfile _⟩
  simp only [fuseFlush, hwith, INode.asFile, hkind, Option.bind_some, hbuf, hclean]
  rfl

/-- The flush of a buffer that has been written to distributes it first. -/
theorem fuseFlush_written {buf : List UInt8} (hbuf : v.file.mBuf = some buf)
    (hwaiting : v.file.isWaitingForDistributedWrite = true)
    (hfit : numberOfBlocks L.blockSize v.stSize * L.blockSize ≤ buf.length) :
    ∃ s₁ s', s.fuseFlush L ino = some (s', [.ok]) ∧
      Written L s s₁ buf ino (numberOfBlocks L.blockSize v.stSize) ∧
      Edited s₁ s' ino { v with file := v.file.removeWaiting.freeBuf } := by
  obtain ⟨i, hsize, -, hkind, hwith⟩ := withINode_file hfile
  obtain ⟨s₁, hwrite, hwritten⟩ := dagonFS_Write_spec ino hfit (s := s)
  have hfile₁ : s₁.iNodeManager.fileAt ino = some v := by
    rw [← hfile, iNodeManager, hwritten.iNodeManager, iNodeManager]
  refine ⟨s₁, _, ?_, hwritten, edited_onFile hfile₁ fun f => f.removeWaiting.freeBuf⟩
  simp only [fuseFlush, hwith, INode.asFile, hkind, Option.bind_some, hbuf, hwaiting, if_pos, hsize,
    hwrite, Option.map_some]

theorem fuseRelease_file : ∃ s', s.fuseRelease ino = some (s', [.ok]) ∧
    Edited s s' ino { v with file := v.file.freeBuf } := by
  obtain ⟨i, -, -, hkind, hwith⟩ := withINode_file hfile
  refine ⟨_, ?_, edited_onFile hfile _⟩
  simp only [fuseRelease, hwith, hkind]

end Handlers

end System

end DagonFs
