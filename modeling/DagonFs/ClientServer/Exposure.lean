import DagonFs.ClientServer.Contents

/-!
# What a read exposes

Two runs of the file system in lockstep: the same requests, but for the bytes of writes and for what is in
newly allocated memory (`Similar`).  `serveStep_like`: they stay alike.

`Differ` says where the bytes of two runs may differ for file `x` to be the same: in other files, and at
positions that are discarded later on.  `sameReads_of_differ`: a read that asks for written bytes only is
answered alike in both runs.
-/

namespace DagonFs

open DagonFs.Lib.Buffer DagonFs.Lib.Runs

/-- The same request, but for the bytes that it writes and those in newly allocated memory. -/
inductive FuseRequest.Similar : FuseRequest → FuseRequest → Prop
  | refl (r : FuseRequest) : Similar r r
  | write {ino off : ℕ} {buf buf' : Option (List UInt8)} {junk junk' : ℕ → UInt8} {alloc : Bool}
    (hlength : buf.map List.length = buf'.map List.length) :
    Similar (.write ino buf off junk alloc) (.write ino buf' off junk' alloc)
  | setXAttr {ino : ℕ} {name : Name} {value : List UInt8} {flags : ℕ} {newBuf newBuf' : Option (ℕ → UInt8)}
    (halloc : newBuf.isSome = newBuf'.isSome) :
    Similar (.setXAttr ino name value flags newBuf) (.setXAttr ino name value flags newBuf')

/-! ### Files without bytes -/

def FileState.blank (v : FileState) : FileState := { v with file := v.file.blank }

theorem INode.blank_fileState (i : INode) : i.blank.fileState = i.fileState.map FileState.blank := by
  obtain ⟨_, _, _, _, k, _⟩ := i
  cases k <;> rfl

theorem FileSystem.Like.fileAt {fs fs' : FileSystem} (h : fs.Like fs') (x : ℕ) :
    (fs.iNodeManager.fileAt x).map FileState.blank = (fs'.iNodeManager.fileAt x).map FileState.blank := by
  have hget := h.getINode x
  rw [Nodes.getINodeByINodeNumber, Nodes.getINodeByINodeNumber] at hget
  have hmap : ∀ o : Option INode, (o.bind INode.fileState).map FileState.blank =
      (o.map INode.blank).bind INode.fileState := by
    intro o
    cases o with
    | none => rfl
    | some i => exact i.blank_fileState.symm
  rw [Nodes.fileAt, Nodes.fileAt, hmap, hget, ← hmap]

/-- What is left of a file without its bytes. -/
theorem File.blank_eq_iff {f f' : File} : f.blank = f'.blank ↔
    f.mBuf.map List.length = f'.mBuf.map List.length ∧
      f.isWaitingForDistributedWrite = f'.isWaitingForDistributedWrite := by
  have hlengths : ∀ o o' : Option (List UInt8), o.map (fun bytes => bytes.map fun _ => (0 : UInt8)) =
      o'.map (fun bytes => bytes.map fun _ => (0 : UInt8)) ↔ o.map List.length = o'.map List.length := by
    intro o o'
    cases o with
    | none => cases o' <;> simp
    | some bytes =>
      cases o' with
      | none => simp
      | some bytes' => simp
  rw [File.blank, File.blank, File.mk.injEq, hlengths]

theorem FileState.blank_eq_iff {v v' : FileState} : v.blank = v'.blank ↔
    v.stSize = v'.stSize ∧ v.stBlocks = v'.stBlocks ∧
      v.file.mBuf.map List.length = v'.file.mBuf.map List.length ∧
      v.file.isWaitingForDistributedWrite = v'.file.isWaitingForDistributedWrite := by
  rw [FileState.blank, FileState.blank, FileState.mk.injEq, File.blank_eq_iff]

theorem File.length_bytes {f f' : File} (h : f.mBuf.map List.length = f'.mBuf.map List.length) :
    f.bytes.length = f'.bytes.length := by
  have hlength : ∀ o : Option (List UInt8), (o.getD []).length = (o.map List.length).getD 0 := by
    intro o
    cases o <;> rfl
  rw [File.bytes, hlength, h, ← hlength, File.bytes]

theorem FileState.isDirty_congr {v v' : FileState} (h : v.blank = v'.blank) : v.IsDirty ↔ v'.IsDirty := by
  obtain ⟨-, -, hbuf, hwaiting⟩ := FileState.blank_eq_iff.mp h
  have hsome : v.file.mBuf.isSome = v'.file.mBuf.isSome := by
    rw [← Option.isSome_map (f := List.length), hbuf, Option.isSome_map]
  rw [IsDirty, IsDirty, hsome, hwaiting]

/-- A write copies into the buffer, whose length is that of the `realloc`ed one. -/
theorem FileState.wrote_lengths (v : FileState) (L : Launch) (off : ℕ) {data : List UInt8}
    {junk : ℕ → UInt8}
    (hfit : data.length = 0 ∨ off + data.length ≤ ((v.writeBuffer L off data junk).getD []).length) :
    (v.wrote L off data junk).file.mBuf.map List.length =
      if L.blockSize * v.stBlocks < off + data.length then
        some (numberOfBlocks L.blockSize (off + data.length) * L.blockSize)
      else v.file.mBuf.map List.length := by
  have hspliced : (v.wrote L off data junk).file.mBuf.map List.length =
      (v.writeBuffer L off data junk).map List.length := by
    show ((v.writeBuffer L off data junk).map (splice · off data)).map List.length = _
    cases hbuf : v.writeBuffer L off data junk with
    | none => rfl
    | some buf =>
      rw [hbuf] at hfit
      refine congrArg some ?_
      rcases hfit with hnone | hle
      · rw [List.length_eq_zero_iff.mp hnone]
        simp [splice]
      · exact length_splice hle
  rw [hspliced, FileState.writeBuffer]
  split
  · rw [Option.map_some, length_grow]
  · rfl

/-- Two writes of as many bytes. -/
theorem FileState.wrote_blank {v v' : FileState} (h : v.blank = v'.blank) (L : Launch) (off : ℕ)
    {data data' : List UInt8} (hdata : data.length = data'.length) {junk junk' : ℕ → UInt8}
    (hfit : data.length = 0 ∨ off + data.length ≤ ((v.writeBuffer L off data junk).getD []).length)
    (hfit' : data'.length = 0 ∨
      off + data'.length ≤ ((v'.writeBuffer L off data' junk').getD []).length) :
    (v.wrote L off data junk).blank = (v'.wrote L off data' junk').blank := by
  obtain ⟨hsize, hblocks, hbuf, -⟩ := FileState.blank_eq_iff.mp h
  apply FileState.blank_eq_iff.mpr
  rw [wrote_lengths v L off hfit, wrote_lengths v' L off hfit', hblocks, hbuf, hdata]
  refine ⟨?_, ?_, rfl, rfl⟩
  · show max v.stSize (off + data.length) = max v'.stSize (off + data'.length)
    rw [hsize, hdata]
  · simp only [FileState.wrote, hblocks, hdata]

namespace System

variable {L : Launch} {entrySize : Name → ℕ} {s s' : System}

/-- Where both handlers return, their file systems are alike. -/
def AlikeEnds (o o' : Outcome System) : Prop :=
  ∀ s₁ s₁', o.state = some s₁ → o'.state = some s₁' → s₁.fs.Like s₁'.fs

section AlikeEnds

variable {o o' : Outcome System}

theorem alikeEnds_undefined (calls : List ReplyCall) : AlikeEnds ⟨calls, none⟩ o := by
  intro _ _ h
  cases h

theorem alikeEnds_undefined_right (calls : List ReplyCall) : AlikeEnds o ⟨calls, none⟩ := by
  intro _ _ _ h
  cases h

theorem alikeEnds_at (h : s.fs.Like s'.fs) (calls calls' : List ReplyCall) :
    AlikeEnds ⟨calls, some s⟩ ⟨calls', some s'⟩ := by
  intro s₁ s₁' h₁ h₁'
  obtain rfl := Option.some.inj h₁
  obtain rfl := Option.some.inj h₁'
  exact h

theorem alikeEnds_of {res res' : Result} (h : ∀ s₁ r s₁' r', res = some (s₁, r) →
    res' = some (s₁', r') → s₁.fs.Like s₁'.fs) : AlikeEnds (.of res) (.of res') := by
  intro s₁ s₁' h₁ h₁'
  obtain ⟨r, hres⟩ := of_state h₁
  obtain ⟨r', hres'⟩ := of_state h₁'
  exact h s₁ r s₁' r' hres hres'

/-- The handlers may stop where they have no memory. -/
theorem alikeEnds_ite {p p' : Prop} [Decidable p] [Decidable p'] (calls calls' : List ReplyCall)
    (h : AlikeEnds o o') : AlikeEnds (if p then ⟨calls, none⟩ else o) (if p' then ⟨calls', none⟩ else o') := by
  split
  · exact alikeEnds_undefined calls
  · split
    · exact alikeEnds_undefined_right calls'
    · exact h

end AlikeEnds

/-! ### Handlers in lockstep -/

section Lockstep

variable (h : s.fs.Like s'.fs)
include h

/-- One operation of each run on the inode of a number. -/
theorem like_modifyINode {f f' : INode → INode} (ino : ℕ)
    (hf : ∀ i i', s.iNodeManager.iNodes[ino]? = some i → s'.iNodeManager.iNodes[ino]? = some i' →
      i.blank = i'.blank → (f i).blank = (f' i').blank) :
    (s.modifyINode ino f).fs.Like (s'.modifyINode ino f').fs :=
  h.setNodes (Nodes.blank_modifyINode_pair h.nodes hf)

theorem alikeEnds_reply (r r' : Reply) : AlikeEnds (.of (s.reply r)) (.of (s'.reply r')) :=
  alikeEnds_at h _ _

theorem alikeEnds_withINode {ino : ℕ} {k k' : INode → Result}
    (hk : ∀ i i', s.iNodeManager.iNodes[ino]? = some i → s'.iNodeManager.iNodes[ino]? = some i' →
      i.blank = i'.blank → AlikeEnds (.of (k i)) (.of (k' i'))) :
    AlikeEnds (.of (s.withINode ino k)) (.of (s'.withINode ino k')) := by
  have hget := h.getINode ino
  rw [Nodes.getINodeByINodeNumber, Nodes.getINodeByINodeNumber] at hget
  rcases s.withINode_cases ino with ⟨hlen, hwith⟩ | ⟨i, hi, hwith⟩
  · rcases s'.withINode_cases ino with ⟨-, hwith'⟩ | ⟨i', hi', -⟩
    · rw [hwith, hwith']
      exact alikeEnds_reply h _ _
    · have hlt := (List.getElem?_eq_some_iff.mp hi').1
      have hsame : s.iNodeManager.iNodes.length = s'.iNodeManager.iNodes.length := h.length
      omega
  · rcases s'.withINode_cases ino with ⟨hlen', -⟩ | ⟨i', hi', hwith'⟩
    · have hlt := (List.getElem?_eq_some_iff.mp hi).1
      have hsame : s.iNodeManager.iNodes.length = s'.iNodeManager.iNodes.length := h.length
      omega
    · rw [hwith, hwith']
      apply hk i i' hi hi'
      have hsome : (some i).map INode.blank = (some i').map INode.blank := by
        rw [← hi, ← hi']
        exact hget
      exact Option.some.inj hsome

end Lockstep

/-- Two inodes that differ in bytes are both files, or of the same kind. -/
theorem kind_cases {i i' : INode} (h : i.blank = i'.blank) :
    (∃ f f', i.kind = .file f ∧ i'.kind = .file f' ∧ f.blank = f'.blank) ∨
      i.kind = i'.kind ∧ ∀ f, i.kind ≠ .file f := by
  obtain ⟨-, -, -, -, hkind⟩ := blank_eq_cases h
  cases hi : i.kind with
  | file f =>
    cases hi' : i'.kind with
    | file f' =>
      rw [hi, hi'] at hkind
      exact Or.inl ⟨f, f', rfl, rfl, Kind.file.inj hkind⟩
    | _ =>
      rw [hi, hi'] at hkind
      cases hkind
  | _ =>
    cases hi' : i'.kind with
    | file f' =>
      rw [hi, hi'] at hkind
      cases hkind
    | _ =>
      rw [hi, hi'] at hkind
      exact Or.inr ⟨hkind, fun f hf => by cases hf⟩

theorem natural_setINodeAttributes (attr : Stat) (toSet : ℕ) :
    Natural (Nodes.setINodeAttributes attr toSet) := fun _ => rfl

theorem natural_freeBuf : Natural (onFile File.freeBuf) := by
  intro i
  obtain ⟨_, _, _, _, k, _⟩ := i
  cases k <;> rfl

/-- Two files get buffers of the same length. -/
theorem onFile_blank {i i' : INode} (h : i.blank = i'.blank) {g g' : File → File}
    (hg : ∀ f f', i.kind = .file f → i'.kind = .file f' → f.blank = f'.blank →
      (g f).blank = (g' f').blank) : (onFile g i).blank = (onFile g' i').blank := by
  obtain ⟨hlookup, hmarked, hnumber, hattr, -⟩ := blank_eq_cases h
  rcases kind_cases h with ⟨f, f', hi, hi', hf⟩ | ⟨hkind, hnone⟩
  · have hnew := hg f f' hi hi' hf
    simp only [onFile, hi, hi', INode.setFile, INode.blank, Kind.blank, hlookup, hmarked, hnumber, hattr, hnew]
  · have hself : ∀ {j : INode} (g : File → File), (∀ f, j.kind ≠ .file f) → onFile g j = j := by
      intro j g hj
      unfold onFile
      split
      · rename_i f hf
        exact absurd hf (hj f)
      · rfl
    rw [hself g hnone, hself g' (hkind ▸ hnone), h]

/-- How long the buffer is that an open loads. -/
theorem lengths_of_dagonFS_Read {x size : ℕ} {buf : Option (List UInt8)}
    (hread : s.dagonFS_Read L ⟨x, size, size, 0⟩ = some buf) : buf.map List.length =
      if size = 0 then none else some (numberOfBlocks L.blockSize size * L.blockSize) := by
  have hlength := length_of_dagonFS_Read hread
  by_cases hzero : size = 0
  · rw [dagonFS_Read, if_pos hzero] at hread
    obtain rfl := Option.some.inj hread
    rw [if_pos hzero]
    rfl
  · simp only [dagonFS_Read, if_neg hzero] at hread
    obtain ⟨addresses, -, hload⟩ := Option.bind_eq_some_iff.mp hread
    obtain ⟨content, -, rfl⟩ := Option.map_eq_some_iff.mp hload
    rw [if_neg hzero]
    exact congrArg some hlength

/-- A distributed write changes the block table only. -/
theorem dagonFS_Write_fs {s₁ : System} {buffer : List UInt8} {x size : ℕ}
    (hwrite : s.dagonFS_Write L buffer x size = some s₁) :
    ∃ blocksManager, s₁.fs = { s.fs with blocksManager := blocksManager } := by
  obtain ⟨localScatBuf, -, hgather⟩ := Option.bind_eq_some_iff.mp hwrite
  obtain ⟨addresses, -, rfl⟩ := Option.map_eq_some_iff.mp hgather
  exact ⟨_, rfl⟩

/-- The handlers that set extended attributes change nothing else. -/
theorem like_setsINode (ino : ℕ) {g : INode → INode × Option Errno} {s₁ : System}
    (hg : ∀ i, ∃ m, (g i).1 = { i with mXattr := m }) (hstate : (s.ofFs (.of (s.fs.atINode ino fun i =>
      some (s.fs.setNodes (s.fs.iNodeManager.setINodeAt ino (g i).1), [FileSystem.retVal (g i).2])))).state =
        some s₁) : s.fs.Like s₁.fs := by
  rcases s.fs.atINode_cases ino with ⟨-, hk⟩ | ⟨i, hget, hk⟩
  · rw [hk] at hstate
    obtain rfl := Option.some.inj hstate
    exact FileSystem.Like.refl _
  · rw [hk] at hstate
    obtain rfl := Option.some.inj hstate
    refine ⟨?_, rfl, rfl⟩
    show s.fs.iNodeManager.blank = (s.fs.iNodeManager.setINodeAt ino (g i).1).blank
    obtain ⟨m, hm⟩ := hg i
    have hsame : (g i).1.blank = i.blank := by
      rw [hm]
      rfl
    have hlt : ino < s.fs.iNodeManager.iNodes.length := (List.getElem?_eq_some_iff.mp hget).1
    rw [Nodes.blank_setINodeAt, hsame, Nodes.setINodeAt, Nodes.blank, Nodes.mk.injEq]
    refine ⟨?_, rfl⟩
    apply List.ext_getElem?
    intro y
    rw [List.getElem?_set]
    by_cases hy : ino = y
    · subst hy
      rw [if_pos rfl, List.length_map, if_pos hlt, List.getElem?_map, hget]
      rfl
    · rw [if_neg hy]

section Handlers

variable (h : s.fs.Like s'.fs)
include h

theorem like_onFile (ino : ℕ) {g g' : File → File} (hg : ∀ f f', f.blank = f'.blank →
    (g f).blank = (g' f').blank) :
    (s.modifyINode ino (onFile g)).fs.Like (s'.modifyINode ino (onFile g')).fs := by
  apply like_modifyINode h
  intro i i' _ _ hi
  exact onFile_blank hi fun f f' _ _ hf => hg f f' hf

theorem like_modifyINode_natural {f : INode → INode} (hf : Natural f) (ino : ℕ) :
    (s.modifyINode ino f).fs.Like (s'.modifyINode ino f).fs := h.modifyINode hf ino

theorem serveOpen_alike (ino flags : ℕ) (alloc : Bool) :
    AlikeEnds (s.serveOpen L ino flags alloc) (s'.serveOpen L ino flags alloc) := by
  apply alikeEnds_ite
  apply alikeEnds_withINode h
  intro i i' _ _ hi
  obtain ⟨-, -, -, hattr, -⟩ := blank_eq_cases hi
  rcases kind_cases hi with ⟨f, f', hkind, hkind', -⟩ | ⟨hkind, hnone⟩
  · simp only [hkind, hkind', hattr]
    split
    · exact alikeEnds_at (like_modifyINode_natural h natural_clearSize ino) _ _
    · apply alikeEnds_of
      intro s₁ r s₁' r' hrun hrun'
      obtain ⟨buf, hread, hend⟩ := Option.map_eq_some_iff.mp hrun
      obtain ⟨buf', hread', hend'⟩ := Option.map_eq_some_iff.mp hrun'
      obtain ⟨rfl, -⟩ := Prod.mk.inj hend
      obtain ⟨rfl, -⟩ := Prod.mk.inj hend'
      apply like_onFile h
      intro g g' hg
      obtain ⟨-, hwaiting⟩ := File.blank_eq_iff.mp hg
      apply File.blank_eq_iff.mpr
      rw [lengths_of_dagonFS_Read hread, lengths_of_dagonFS_Read hread']
      exact ⟨rfl, hwaiting⟩
  · rw [← hkind]
    cases hk : i.kind with
    | file f => exact absurd hk (hnone f)
    | _ => exact alikeEnds_reply h _ _

/-- A number is a file in both runs, or in none. -/
theorem like_fileAt (x : ℕ) : (s.iNodeManager.fileAt x = none ∧ s'.iNodeManager.fileAt x = none) ∨
    ∃ v v', s.iNodeManager.fileAt x = some v ∧ s'.iNodeManager.fileAt x = some v' ∧ v.blank = v'.blank := by
  have hblank : (s.iNodeManager.fileAt x).map FileState.blank =
      (s'.iNodeManager.fileAt x).map FileState.blank := h.fileAt x
  cases hfile : s.iNodeManager.fileAt x with
  | none =>
    rw [hfile] at hblank
    exact Or.inl ⟨rfl, Option.map_eq_none_iff.mp hblank.symm⟩
  | some v =>
    rw [hfile] at hblank
    obtain ⟨v', hfile', hv⟩ := Option.map_eq_some_iff.mp hblank.symm
    exact Or.inr ⟨v, v', rfl, hfile', hv.symm⟩

theorem like_putWritten (ino : ℕ) (v v' : FileState) {w w' : FileState} (hw : w.blank = w'.blank) :
    (s.putWritten ino v w).fs.Like (s'.putWritten ino v' w').fs := by
  have hused : (s.setFs (s.fs.updateUsedBlocks (w.stBlocks - v.stBlocks))).fs.Like
      (s'.setFs (s'.fs.updateUsedBlocks (w'.stBlocks - v'.stBlocks))).fs :=
    ⟨h.nodes, h.reclaiming, h.process⟩
  apply like_modifyINode hused
  intro i i' _ _ hi
  obtain ⟨hlookup, hmarked, hnumber, hattr, -⟩ := blank_eq_cases hi
  simp only [FileState.blank, FileState.mk.injEq] at hw
  simp only [putFile, INode.blank, Kind.blank, hlookup, hmarked, hnumber, hattr, hw]

theorem serveWrite_alike (ino off : ℕ) {buf buf' : Option (List UInt8)} (junk junk' : ℕ → UInt8)
    (alloc : Bool) (hlength : buf.map List.length = buf'.map List.length) :
    AlikeEnds (s.serveWrite L ino buf off junk alloc) (s'.serveWrite L ino buf' off junk' alloc) := by
  cases buf with
  | none =>
    cases buf' with
    | none => exact alikeEnds_reply h _ _
    | some data' => cases hlength
  | some data =>
    cases buf' with
    | none => cases hlength
    | some data' =>
      have hdata : data.length = data'.length := Option.some.inj hlength
      unfold serveWrite
      rcases like_fileAt h ino with ⟨hfile, hfile'⟩ | ⟨v, v', hfile, hfile', hv⟩
      · rw [hfile, hfile']
        apply alikeEnds_withINode h
        intro i i' hget _ hi
        rcases kind_cases hi with ⟨f, -, hkind, -, -⟩ | ⟨hkind, hnone⟩
        · exact absurd hkind (kind_of_fileAt_none hfile hget f)
        · dsimp only
          rw [← hkind]
          cases hk : i.kind with
          | file f => exact absurd hk (hnone f)
          | _ => exact alikeEnds_reply h _ _
      · rw [hfile, hfile']
        apply alikeEnds_ite
        split
        · rename_i hfit
          split
          · rename_i hfit'
            exact alikeEnds_at (like_putWritten h ino v v' (FileState.wrote_blank hv L off hdata hfit hfit')) _ _
          · exact alikeEnds_undefined_right _
        · exact alikeEnds_undefined _

theorem serveSetAttr_alike (ino : ℕ) (attr : Stat) (toSet : ℕ) :
    AlikeEnds (s.serveSetAttr ino attr toSet) (s'.serveSetAttr ino attr toSet) := by
  apply alikeEnds_ite
  apply alikeEnds_of
  intro s₁ r s₁' r' hrun hrun'
  obtain ⟨i, -, hend⟩ := Option.map_eq_some_iff.mp hrun
  obtain ⟨i', -, hend'⟩ := Option.map_eq_some_iff.mp hrun'
  obtain ⟨rfl, -⟩ := Prod.mk.inj hend
  obtain ⟨rfl, -⟩ := Prod.mk.inj hend'
  exact like_modifyINode_natural h (natural_setINodeAttributes attr toSet) ino

theorem serveFlush_alike (ino : ℕ) (alloc : Bool) :
    AlikeEnds (s.serveFlush L ino alloc) (s'.serveFlush L ino alloc) := by
  apply alikeEnds_ite
  apply alikeEnds_withINode h
  intro i i' _ _ hi
  obtain ⟨-, -, -, hattr, -⟩ := blank_eq_cases hi
  rcases kind_cases hi with ⟨f, f', hkind, hkind', hf⟩ | ⟨hkind, hnone⟩
  · obtain ⟨hbuf, hwaiting⟩ := File.blank_eq_iff.mp hf
    simp only [INode.asFile, hkind, hkind', hattr, Option.bind_some]
    cases hb : f.mBuf with
    | none =>
      rw [hb] at hbuf
      rw [Option.map_eq_none_iff.mp hbuf.symm]
      exact alikeEnds_reply h _ _
    | some buf =>
      rw [hb] at hbuf
      obtain ⟨buf', hb', -⟩ := Option.map_eq_some_iff.mp hbuf.symm
      rw [hb']
      simp only [hwaiting]
      split
      · apply alikeEnds_of
        intro s₁ r s₁' r' hrun hrun'
        obtain ⟨s₂, hwrite, hend⟩ := Option.map_eq_some_iff.mp hrun
        obtain ⟨s₂', hwrite', hend'⟩ := Option.map_eq_some_iff.mp hrun'
        obtain ⟨rfl, -⟩ := Prod.mk.inj hend
        obtain ⟨rfl, -⟩ := Prod.mk.inj hend'
        have hwritten : s₂.fs.Like s₂'.fs := by
          obtain ⟨_, hfs⟩ := dagonFS_Write_fs hwrite
          obtain ⟨_, hfs'⟩ := dagonFS_Write_fs hwrite'
          rw [hfs, hfs']
          exact ⟨h.nodes, h.reclaiming, h.process⟩
        apply like_onFile hwritten
        intro g g' hg
        exact File.blank_eq_iff.mpr ⟨rfl, rfl⟩
      · exact alikeEnds_at (like_modifyINode_natural h natural_freeBuf ino) _ _
  · have hnoFile : ∀ {j : INode}, (∀ f, j.kind ≠ .file f) → j.asFile = none := by
      intro j hj
      unfold INode.asFile
      split
      · rename_i f hf
        exact absurd hf (hj f)
      · rfl
    rw [hnoFile hnone, hnoFile (hkind ▸ hnone)]
    exact alikeEnds_undefined _

theorem fuseRelease_alike (ino : ℕ) : AlikeEnds (.of (s.fuseRelease ino)) (.of (s'.fuseRelease ino)) := by
  apply alikeEnds_withINode h
  intro i i' _ _ hi
  have hfreed := like_modifyINode_natural h natural_freeBuf ino
  rcases kind_cases hi with ⟨f, f', hkind, hkind', -⟩ | ⟨hkind, -⟩
  · rw [hkind, hkind']
    exact alikeEnds_at hfreed _ _
  · rw [← hkind]
    cases i.kind with
    | directory d => exact alikeEnds_reply h _ _
    | _ => exact alikeEnds_at hfreed _ _

/-- A namespace request. -/
theorem names_alike (r : FileSystem.Request) :
    AlikeEnds (s.ofFs (.of (s.fs.handle r))) (s'.ofFs (.of (s'.fs.handle r))) := by
  have hends : ∀ {fs fs₁ : FileSystem}, (Outcome.of (fs.handle r)).state = some fs₁ →
      ∃ replies, fs.handle r = some (fs₁, replies) := by
    intro fs fs₁ hstate
    cases hres : fs.handle r with
    | none =>
      rw [hres] at hstate
      cases hstate
    | some res =>
      rw [hres] at hstate
      obtain rfl := Option.some.inj hstate
      exact ⟨res.2, rfl⟩
  intro s₁ s₁' h₁ h₁'
  obtain ⟨fs, hfs, rfl⟩ := Option.map_eq_some_iff.mp h₁
  obtain ⟨fs', hfs', rfl⟩ := Option.map_eq_some_iff.mp h₁'
  obtain ⟨replies, hrun⟩ := hends hfs
  obtain ⟨replies', hrun'⟩ := hends hfs'
  exact FileSystem.handle_like h r fs replies fs' replies' hrun hrun'

/-- **Similar requests keep two systems alike.** -/
theorem serveStep_like {r r' : FuseRequest} (hr : r.Similar r') {s₁ s₁' : System}
    (hstep : s.serveStep L entrySize r = some s₁) (hstep' : s'.serveStep L entrySize r' = some s₁') :
    s₁.fs.Like s₁'.fs := by
  cases hr with
  | write hlength => exact serveWrite_alike h _ _ _ _ _ hlength s₁ s₁' hstep hstep'
  | setXAttr _ =>
    have hself := like_setsINode _ (fun i => setXAttr_mXattr i _ _ _ 0 _) hstep
    have hself' := like_setsINode _ (fun i => setXAttr_mXattr i _ _ _ 0 _) hstep'
    exact hself.symm.trans (h.trans hself')
  | refl =>
    cases r with
    | names r => exact names_alike h r s₁ s₁' hstep hstep'
    | setAttr ino attr toSet => exact serveSetAttr_alike h ino attr toSet s₁ s₁' hstep hstep'
    | «open» ino flags alloc => exact serveOpen_alike h ino flags alloc s₁ s₁' hstep hstep'
    | write ino buf off junk alloc =>
      exact serveWrite_alike h ino off junk junk alloc rfl s₁ s₁' hstep hstep'
    | flush ino alloc => exact serveFlush_alike h ino alloc s₁ s₁' hstep hstep'
    | release ino => exact fuseRelease_alike h ino s₁ s₁' hstep hstep'
    | setXAttr ino name value flags newBuf =>
      have hset := fun i => setXAttr_mXattr i name value flags 0 newBuf
      have hself := like_setsINode ino hset hstep
      exact hself.symm.trans (h.trans (like_setsINode ino hset hstep'))
    | removeXAttr ino name =>
      have hremove := fun i => removeXAttr_mXattr i name
      have hself := like_setsINode ino hremove hstep
      exact hself.symm.trans (h.trans (like_setsINode ino hremove hstep'))
    | _ =>
      obtain rfl := serveStep_asks rfl hstep
      obtain rfl := serveStep_asks rfl hstep'
      exact h

end Handlers

end System

/-! ### Two runs -/

/-- The byte that a request writes at position `k` of file `x`. -/
def FuseRequest.byteTo (x k : ℕ) : FuseRequest → Option UInt8
  | .write ino (some data) off _ _ => if ino = x then Patch.byteAt ⟨off, data⟩ k else none
  | _ => none

namespace System

/-- The request drops what file `x` has at position `k`: it truncates the file, or makes another one with
the same number. -/
def Discards (x k : ℕ) (s : System) : FuseRequest → Prop
  | .names r => s.fs.Makes r x
  | .open ino flags _ => ino = x ∧ opensForWriting flags = true
  | .setAttr ino attr toSet => ino = x ∧ isSet toSet fuseSetAttrSize = true ∧ attr.stSize ≤ k
  | _ => False

section Runs

variable (L : Launch) (entrySize : Name → ℕ) (x : ℕ)

/-- The requests to come discard nothing at position `k` of file `x`. -/
def Kept (s : System) (rs : List FuseRequest) (k : ℕ) : Prop :=
  Along (serveStep L entrySize) (fun s r => ¬ s.Discards x k r) s rs

/-- The second run has the requests of the first, but for the bytes written to other files, bytes of file
`x` that are discarded later, and what is in newly allocated memory. -/
def Differ : System → List FuseRequest → List FuseRequest → Prop
  | _, [], [] => True
  | s, r :: rs, r' :: rs' => r.Similar r' ∧ ∀ s₁, s.serveStep L entrySize r = some s₁ →
      (∀ k, Kept L entrySize x s₁ rs k → r.byteTo x k = r'.byteTo x k) ∧ Differ s₁ rs rs'
  | _, _, _ => False

end Runs

variable {L : Launch} {entrySize : Name → ℕ} {x : ℕ} {s s' : System}

/-- Runs that differ in other files and in newly allocated memory only. -/
theorem differ_of_sameBytes {rs rs' : List FuseRequest} (h : List.Forall₂ (fun r r' =>
    FuseRequest.Similar r r' ∧ ∀ k, r.byteTo x k = r'.byteTo x k) rs rs') (s : System) :
    Differ L entrySize x s rs rs' := by
  induction h generalizing s with
  | nil => trivial
  | cons hr _ ih => exact ⟨hr.1, fun s₁ _ => ⟨fun k _ => hr.2 k, ih s₁⟩⟩

theorem isDirty_congr (h : s.fs.Like s'.fs) (x : ℕ) : s.isDirty x = s'.isDirty x := by
  rcases like_fileAt h x with ⟨hfile, hfile'⟩ | ⟨v, v', hfile, hfile', hv⟩
  · rw [isDirty, isDirty, hfile, hfile']
  · rw [isDirty, isDirty, hfile, hfile', Option.any_some, Option.any_some, decide_eq_decide]
    exact FileState.isDirty_congr hv

/-- Two writes of the same byte at a position. -/
theorem written_write_congr {ino off : ℕ} {buf buf' : Option (List UInt8)} {junk junk' : ℕ → UInt8}
    {alloc : Bool} {c c' : Contents} {k : ℕ} (hlength : buf.map List.length = buf'.map List.length)
    (hbyte : (FuseRequest.write ino buf off junk alloc).byteTo x k =
      (FuseRequest.write ino buf' off junk' alloc).byteTo x k)
    (hc : c.buffered k = c'.buffered k ∧ c.stored k = c'.stored k) :
    (s.written x c (.write ino buf off junk alloc)).buffered k =
        (s'.written x c' (.write ino buf' off junk' alloc)).buffered k ∧
      (s.written x c (.write ino buf off junk alloc)).stored k =
        (s'.written x c' (.write ino buf' off junk' alloc)).stored k := by
  cases buf with
  | none =>
    cases buf' with
    | none => exact hc
    | some data' => cases hlength
  | some data =>
    cases buf' with
    | none => cases hlength
    | some data' =>
      by_cases hx : ino = x
      · simp only [FuseRequest.byteTo, if_pos hx] at hbyte
        simp only [written, if_pos hx, Contents.write, hbyte, hc.1]
        exact ⟨trivial, hc.2⟩
      · simp only [written, if_neg hx]
        exact hc

/-- What has been written is followed alike, at the positions that the request does not discard. -/
theorem written_congr (h : s.fs.Like s'.fs) {r r' : FuseRequest} (hr : r.Similar r') {c c' : Contents}
    {k : ℕ} (hbyte : r.byteTo x k = r'.byteTo x k)
    (hc : ¬ s.Discards x k r → c.buffered k = c'.buffered k ∧ c.stored k = c'.stored k) :
    (s.written x c r).buffered k = (s'.written x c' r').buffered k ∧
      (s.written x c r).stored k = (s'.written x c' r').stored k := by
  cases hr with
  | write hlength => exact written_write_congr hlength hbyte (hc id)
  | setXAttr _ => exact hc id
  | refl =>
    cases r with
    | names r =>
      by_cases hmakes : s.fs.Makes r x
      · have hmakes' := (h.makes r x).mp hmakes
        rw [written, written, if_pos hmakes, if_pos hmakes']
        exact ⟨rfl, rfl⟩
      · have hmakes' := (h.makes r x).not.mp hmakes
        simp only [written, if_neg hmakes, if_neg hmakes']
        exact hc hmakes
    | «open» ino flags alloc =>
      by_cases hx : ino = x
      · rw [written, written, if_pos hx, if_pos hx]
        split
        · exact ⟨rfl, rfl⟩
        · rename_i hflags
          have hold := hc fun hdiscards => hflags hdiscards.2
          exact ⟨hold.2, hold.2⟩
      · simp only [written, if_neg hx]
        exact hc fun hdiscards => hx hdiscards.1
    | setAttr ino attr toSet =>
      by_cases hset : ino = x ∧ isSet toSet fuseSetAttrSize = true
      · simp only [written, if_pos hset, Contents.cut]
        by_cases hk : k < attr.stSize
        · rw [if_pos hk, if_pos hk, if_pos hk, if_pos hk]
          exact hc fun hdiscards => absurd hk (Nat.not_lt.mpr hdiscards.2.2)
        · rw [if_neg hk, if_neg hk, if_neg hk, if_neg hk]
          exact ⟨rfl, rfl⟩
      · simp only [written, if_neg hset]
        exact hc fun hdiscards => hset ⟨hdiscards.1, hdiscards.2.1⟩
    | write ino buf off junk alloc => exact written_write_congr rfl hbyte (hc id)
    | flush ino alloc =>
      have hold := hc id
      simp only [written, isDirty_congr h]
      split
      · split
        · exact ⟨rfl, hold.1⟩
        · exact ⟨rfl, hold.2⟩
      · exact hold
    | release ino =>
      have hold := hc id
      simp only [written]
      split
      · exact ⟨rfl, hold.2⟩
      · exact hold
    | _ => exact hc id

end System

namespace Watched

open DagonFs.System

variable {L : Launch} {entrySize : Name → ℕ} {x : ℕ}

/-- The two systems are alike, and have the same bytes of file `x` at the positions to be kept. -/
structure Paired (L : Launch) (entrySize : Name → ℕ) (x : ℕ) (t t' : Watched) (rs : List FuseRequest) :
    Prop where
  like : t.system.fs.Like t'.system.fs
  bytes : ∀ k, Kept L entrySize x t.system rs k →
    t.contents.buffered k = t'.contents.buffered k ∧ t.contents.stored k = t'.contents.stored k

theorem paired_run {rs rs' : List FuseRequest} {t t' t₁ t₁' : Watched}
    (hdiffer : Differ L entrySize x t.system rs rs') (h : Paired L entrySize x t t' rs)
    (hrun : run (step L entrySize x) t rs = some t₁) (hrun' : run (step L entrySize x) t' rs' = some t₁') :
    Paired L entrySize x t₁ t₁' [] := by
  induction rs generalizing rs' t t' with
  | nil =>
    cases rs' with
    | nil =>
      obtain rfl := Option.some.inj hrun
      obtain rfl := Option.some.inj hrun'
      exact h
    | cons r' rs' => exact hdiffer.elim
  | cons r rs ih =>
    cases rs' with
    | nil => exact hdiffer.elim
    | cons r' rs' =>
      obtain ⟨u, hu, hrest⟩ := Option.bind_eq_some_iff.mp hrun
      obtain ⟨u', hu', hrest'⟩ := Option.bind_eq_some_iff.mp hrun'
      obtain ⟨s₁, hstep, rfl⟩ := Option.map_eq_some_iff.mp hu
      obtain ⟨s₁', hstep', rfl⟩ := Option.map_eq_some_iff.mp hu'
      obtain ⟨hsimilar, hnext⟩ := hdiffer
      obtain ⟨hbytes, hlater⟩ := hnext s₁ hstep
      refine ih hlater ⟨serveStep_like h.like hsimilar hstep hstep', ?_⟩ hrest hrest'
      intro k hkept
      apply written_congr h.like hsimilar (hbytes k hkept)
      intro hstays
      exact h.bytes k (Along.cons hstays hstep hkept)

/-- Watching a file does not change the run. -/
theorem run_of_system {s' : System} {rs : List FuseRequest} (t : Watched)
    (hrun : run (serveStep L entrySize) t.system rs = some s') :
    ∃ t', run (step L entrySize x) t rs = some t' ∧ t'.system = s' := by
  induction rs generalizing t with
  | nil => exact ⟨t, rfl, Option.some.inj hrun⟩
  | cons r rs ih =>
    obtain ⟨s₁, hs₁, hrest⟩ := Option.bind_eq_some_iff.mp hrun
    obtain ⟨t', ht', hsystem⟩ := ih ⟨s₁, t.system.written x t.contents r⟩ hrest
    refine ⟨t', ?_, hsystem⟩
    rw [run_cons, step, hs₁]
    exact ht'

end Watched

namespace System

variable {L : Launch} {entrySize : Name → ℕ} {x : ℕ} {s s' : System} {v : FileState}

/-- A read of bytes before the end of the file. -/
theorem fuseRead_inside (hfile : s.iNodeManager.fileAt x = some v) {size off : ℕ}
    (hinside : off + size ≤ v.stSize) : s.fuseRead x size off =
      if off + size ≤ v.file.bytes.length then some (s, [.buf ((v.file.bytes.drop off).take size)])
      else none := by
  obtain ⟨i, hsize, -, hkind, hwith⟩ := withINode_file hfile
  have hcount : (if v.stSize < off + size then v.stSize - off else size) = size :=
    if_neg (Nat.not_lt.mpr hinside)
  have hoff : ¬ v.stSize < off := by omega
  simp only [fuseRead, hwith, hkind, hsize, if_neg hoff, hcount]
  rfl

/-- **A file exposes no other data where it has been written.**  Two runs from the mounted file system
differ in the bytes written to other files, in bytes of file `x` that were discarded, and in newly
allocated memory.  A read before the end of file `x`, of bytes that have been written, gets the same
reply in both. -/
theorem sameReads_of_differ {process : Ids} {rs rs' : List FuseRequest} {t : Watched}
    (hdiffer : Differ L entrySize x (System.mounted process) rs rs')
    (hrun : run (Watched.step L entrySize x) (Watched.mounted process) rs = some t)
    (hrun' : run (serveStep L entrySize) (System.mounted process) rs' = some s')
    (hfile : t.system.iNodeManager.fileAt x = some v) {size off : ℕ} (hinside : off + size ≤ v.stSize)
    (hwritten : ∀ k, off ≤ k → k < off + size → (t.contents.buffered k).isSome = true) :
    (t.system.fuseRead x size off).map Prod.snd = (s'.fuseRead x size off).map Prod.snd := by
  obtain ⟨t', ht', rfl⟩ := Watched.run_of_system (x := x) (Watched.mounted process) hrun'
  have hpaired : Watched.Paired L entrySize x t t' [] := by
    refine Watched.paired_run hdiffer ⟨FileSystem.Like.refl _, ?_⟩ hrun ht'
    intro k _
    exact ⟨rfl, rfl⟩
  rcases like_fileAt hpaired.like x with ⟨hnone, -⟩ | ⟨v₁, v', hfile₁, hfile', hblank⟩
  · rw [hnone] at hfile
    cases hfile
  · obtain rfl : v = v₁ := Option.some.inj (hfile.symm.trans hfile₁)
    obtain ⟨hsize, -, hlengths, -⟩ := FileState.blank_eq_iff.mp hblank
    have hbytes : (v.file.bytes.drop off).take size = (v'.file.bytes.drop off).take size := by
      apply List.ext_getElem?
      intro j
      rw [List.getElem?_take, List.getElem?_take, List.getElem?_drop, List.getElem?_drop]
      by_cases hj : j < size
      · rw [if_pos hj, if_pos hj]
        have hsome := hwritten (off + j) (Nat.le_add_right off j) (Nat.add_lt_add_left hj off)
        obtain ⟨b, hb⟩ := Option.isSome_iff_exists.mp hsome
        have hb' : t'.contents.buffered (off + j) = some b :=
          (hpaired.bytes (off + j) trivial).1.symm.trans hb
        obtain ⟨hget, -⟩ := ((Watched.inv_run hrun).recorded v hfile).buffered _ b hb
        obtain ⟨hget', -⟩ := ((Watched.inv_run ht').recorded v' hfile').buffered _ b hb'
        rw [hget, hget']
      · rw [if_neg hj, if_neg hj]
    rw [fuseRead_inside hfile hinside, fuseRead_inside hfile' (hsize ▸ hinside), hbytes,
      File.length_bytes hlengths]
    split <;> rfl

/-- A session on files `a` and `b`: `other` is written to `b`, and `cut` to `a`, which is then cut off.  File
`a` is written on, flushed and opened; its buffer is allocated where the bytes are `junk`. -/
def cutSession (other cut junk : UInt8) : List FuseRequest :=
  [.names (.create ⟨0, 0⟩ 1 [97] oRdwr), .names (.create ⟨0, 0⟩ 1 [98] oRdwr),
    .write 3 (some [other]) 0 (fun _ => junk) true, .write 2 (some [1, 2, cut]) 0 (fun _ => junk) true,
    .setAttr 2 ⟨0, 0, 0, 0, 2, 0⟩ fuseSetAttrSize, .write 2 (some [4]) 2 (fun _ => junk) true,
    .flush 2 true, .open 2 oRdwr true]

theorem differ_cutSession (L : Launch) (entrySize : Name → ℕ) (s : System)
    (other other' cut cut' junk junk' : UInt8) :
    Differ L entrySize 2 s (cutSession other cut junk) (cutSession other' cut' junk') := by
  refine ⟨.refl _, fun s₁ _ => ⟨fun _ _ => rfl, .refl _, fun s₂ _ => ⟨fun _ _ => rfl, .write rfl,
    fun s₃ _ => ⟨fun _ _ => rfl, .write rfl, fun s₄ _ => ⟨?_, ?_⟩⟩⟩⟩⟩
  · -- the bytes differ at the position that is cut off
    intro k hkept
    have hlt : k < 2 := by
      by_contra hle
      exact hkept.1 ⟨rfl, by decide, Nat.le_of_not_lt hle⟩
    match k, hlt with
    | 0, _ => rfl
    | 1, _ => rfl
  · refine differ_of_sameBytes ?_ s₄
    exact .cons ⟨.refl _, fun _ => rfl⟩ (.cons ⟨.write rfl, fun _ => rfl⟩
      (.cons ⟨.refl _, fun _ => rfl⟩ (.cons ⟨.refl _, fun _ => rfl⟩ .nil)))

/-- Two such sessions, on two processes. -/
theorem sameReads_of_differ_cut : ∃ t s',
    run (Watched.step ⟨2, 4, by decide, by decide⟩ (fun _ => 32) 2) (Watched.mounted ⟨0, 0⟩)
      (cutSession 5 3 7) = some t ∧
    run (serveStep ⟨2, 4, by decide, by decide⟩ fun _ => 32) (System.mounted ⟨0, 0⟩)
      (cutSession 6 9 8) = some s' ∧
    (t.system.fuseRead 2 3 0).map Prod.snd = (s'.fuseRead 2 3 0).map Prod.snd := by
  have hfacts : (run (Watched.step ⟨2, 4, by decide, by decide⟩ (fun _ => 32) 2) (Watched.mounted ⟨0, 0⟩)
      (cutSession 5 3 7)).map (fun t => ((t.system.iNodeManager.fileAt 2).map FileState.stSize,
        (List.range 3).all fun k => (t.contents.buffered k).isSome)) = some (some 3, true) := by
    decide +kernel
  have hdefined : (run (serveStep ⟨2, 4, by decide, by decide⟩ fun _ => 32) (System.mounted ⟨0, 0⟩)
      (cutSession 6 9 8)).isSome = true := by
    decide +kernel
  obtain ⟨t, hrun, ht⟩ := Option.map_eq_some_iff.mp hfacts
  obtain ⟨s', hrun'⟩ := Option.isSome_iff_exists.mp hdefined
  obtain ⟨hsize, hall⟩ := Prod.mk.inj ht
  obtain ⟨v, hfile, hv⟩ := Option.map_eq_some_iff.mp hsize
  have hinside : 0 + 3 ≤ v.stSize := Nat.le_of_eq hv.symm
  have hwritten : ∀ k, 0 ≤ k → k < 0 + 3 → (t.contents.buffered k).isSome = true := by
    intro k _ hk
    exact List.all_eq_true.mp hall k (List.mem_range.mpr hk)
  have hdiffer := differ_cutSession ⟨2, 4, by decide, by decide⟩ (fun _ => 32) (System.mounted ⟨0, 0⟩)
    5 6 3 9 7 8
  exact ⟨t, s', hrun, hrun', sameReads_of_differ hdiffer hrun hrun' hfile hinside hwritten⟩

/-- **A file exposes data that was not written to it.**  One byte is written past the end of a new file; the
bytes before it are what `realloc` has found in the memory. -/
theorem not_sameReads_of_differ : ¬ ∀ (L : Launch) (entrySize : Name → ℕ) (x : ℕ) (process : Ids)
    (rs rs' : List FuseRequest) (s s' : System) (v : FileState) (size off : ℕ),
    Differ L entrySize x (System.mounted process) rs rs' →
    run (serveStep L entrySize) (System.mounted process) rs = some s →
    run (serveStep L entrySize) (System.mounted process) rs' = some s' →
    s.iNodeManager.fileAt x = some v → off + size ≤ v.stSize →
    (s.fuseRead x size off).map Prod.snd = (s'.fuseRead x size off).map Prod.snd := by
  intro h
  have hfacts : ∀ junk : UInt8, junk = 7 ∨ junk = 8 →
      (run (serveStep ⟨1, 4, by decide, by decide⟩ fun _ => 32) (System.mounted ⟨0, 0⟩)
        [.names (.create ⟨0, 0⟩ 1 [97] oRdwr), .write 2 (some [1]) 2 (fun _ => junk) true]).map (fun s =>
          ((s.iNodeManager.fileAt 2).map FileState.stSize, (s.fuseRead 2 2 0).map Prod.snd)) =
        some (some 3, some [.buf [junk, junk]]) := by
    rintro junk (rfl | rfl)
    · decide +kernel
    · decide +kernel
  obtain ⟨s, hrun, hs⟩ := Option.map_eq_some_iff.mp (hfacts 7 (Or.inl rfl))
  obtain ⟨s', hrun', hs'⟩ := Option.map_eq_some_iff.mp (hfacts 8 (Or.inr rfl))
  obtain ⟨hsize, hread⟩ := Prod.mk.inj hs
  obtain ⟨-, hread'⟩ := Prod.mk.inj hs'
  obtain ⟨v, hfile, hv⟩ := Option.map_eq_some_iff.mp hsize
  have hinside : 0 + 2 ≤ v.stSize := by omega
  have hdiffer : Differ ⟨1, 4, by decide, by decide⟩ (fun _ => 32) 2 (System.mounted ⟨0, 0⟩)
      [.names (.create ⟨0, 0⟩ 1 [97] oRdwr), .write 2 (some [1]) 2 (fun _ => 7) true]
      [.names (.create ⟨0, 0⟩ 1 [97] oRdwr), .write 2 (some [1]) 2 (fun _ => 8) true] := by
    refine differ_of_sameBytes ?_ _
    exact .cons ⟨.refl _, fun _ => rfl⟩ (.cons ⟨.write rfl, fun _ => rfl⟩ .nil)
  have hsame := h _ _ 2 _ _ _ s s' v 2 0 hdiffer hrun hrun' hfile hinside
  rw [hread, hread'] at hsame
  cases hsame

end System

end DagonFs
