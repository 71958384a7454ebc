import DagonFs.ClientServer.FileEffects
import DagonFs.FileSystem.Answers

/-!
# Every request and its replies

`FuseRequest` has one case for each of the thirty handlers that the constructor of the file system
registers, with the outcome of what the handler allocates with `malloc` and `realloc`; `System.serve` says
how the handler ends.  Where it is defined, `System.handle` is what `serve` does (`serve_of_handle`).

`serve_answeredOnce_iff`: after any run of requests, the requests that are answered exactly once are the
`Answerable` ones.
-/

namespace DagonFs

open DagonFs.Lib.Buffer DagonFs.Lib.Runs

/-- A request of the kernel to any of the handlers. -/
inductive FuseRequest where
  /-- Lookup, forget, and the requests that change names. -/
  | names (r : FileSystem.Request)
  | getAttr (ino : ℕ)
  | setAttr (ino : ℕ) (attr : Stat) (toSet : ℕ)
  | readLink (ino : ℕ)
  | open (ino flags : ℕ) (alloc : Bool)
  | read (ino size off : ℕ)
  | write (ino : ℕ) (buf : Option (List UInt8)) (off : ℕ) (junk : ℕ → UInt8) (alloc : Bool)
  | flush (ino : ℕ) (alloc : Bool)
  | release (ino : ℕ)
  | fsync (ino : ℕ)
  | openDir (ino : ℕ)
  | readDir (ino size : ℕ) (off : DirOffset) (alloc : Bool)
  | releaseDir (ino : ℕ)
  | fsyncDir (ino : ℕ)
  | statfs (ino : ℕ)
  | setXAttr (ino : ℕ) (name : Name) (value : List UInt8) (flags : ℕ) (newBuf : Option (ℕ → UInt8))
  | getXAttr (ino : ℕ) (name : Name) (size : ℕ)
  | listXAttr (ino size : ℕ) (alloc : Bool)
  | removeXAttr (ino : ℕ) (name : Name)
  | access (ctx : Ids) (ino mask : ℕ)
  | getLock (ino : ℕ)

namespace System

variable (L : Launch) (entrySize : Name → ℕ) (s : System)

/-- A handler that uses the master's file system only. -/
def ofFs (o : Outcome FileSystem) : Outcome System := o.map s.setFs

/-- `FuseSetAttr`: past the end of the table it replies, and goes on with an inode that is not there. -/
def serveSetAttr (ino : ℕ) (attr : Stat) (toSet : ℕ) : Outcome System :=
  if s.iNodeManager.getNumberOfINodes ≤ ino then ⟨[.err], none⟩ else .of (s.fuseSetAttr ino attr toSet)

/-- The open loads blocks, into a buffer that the master allocates. -/
def loadsBlocks (ino flags : ℕ) : Bool :=
  (s.iNodeManager.fileAt ino).any fun v => !opensForWriting flags && v.stSize != 0

/-- `FuseOpen` aborts when the buffer of the distributed read cannot be allocated. -/
def serveOpen (ino flags : ℕ) (alloc : Bool) : Outcome System :=
  if s.loadsBlocks ino flags && !alloc then ⟨[], none⟩ else .of (s.fuseOpen L ino flags)

/-- `FuseRead` of a file: past the end it replies twice.  The reply is called with the address that the
offset gives, also where the buffer does not have the bytes. -/
def serveRead (ino size off : ℕ) : Outcome System :=
  match s.iNodeManager.fileAt ino with
  | none => .of (s.fuseRead ino size off)
  | some v => if v.stSize < off then ⟨[.buf, .buf], none⟩ else ⟨[.buf], some s⟩

/-- The state after a write to a file. -/
def putWritten (ino : ℕ) (v v' : FileState) : System :=
  (s.setFs (s.fs.updateUsedBlocks (v'.stBlocks - v.stBlocks))).modifyINode ino
    (putFile v'.stSize v'.stBlocks v'.file)

/-- `FuseWrite`: when `realloc` fails it replies, and goes on to the copy, from there to a second reply if
there is nothing to copy. -/
def serveWrite (ino : ℕ) (buf : Option (List UInt8)) (off : ℕ) (junk : ℕ → UInt8) (alloc : Bool) :
    Outcome System :=
  match buf, s.iNodeManager.fileAt ino with
  | some data, some v =>
    if L.blockSize * v.stBlocks < off + data.length ∧ alloc = false then
      ⟨if data.length = 0 then [.write, .write] else [.write], none⟩
    else if data.length = 0 ∨ off + data.length ≤ ((v.writeBuffer L off data junk).getD []).length then
      ⟨[.write], some (s.putWritten ino v (v.wrote L off data junk))⟩
    else ⟨[], none⟩
  | buf, _ => .of (s.fuseWrite L ino buf off junk)

/-- The flush stores blocks, from memory that every process allocates. -/
def storesBlocks (ino : ℕ) : Bool :=
  (s.iNodeManager.fileAt ino).any fun v => decide v.IsDirty && v.stSize != 0

/-- `FuseFlush` does not look at the memory that the distributed write allocates. -/
def serveFlush (ino : ℕ) (alloc : Bool) : Outcome System :=
  if s.storesBlocks ino && !alloc then ⟨[], none⟩ else .of (s.fuseFlush L ino)

def serve : FuseRequest → Outcome System
  | .names r => s.ofFs (.of (s.fs.handle r))
  | .getAttr ino => s.ofFs (s.fs.fuseGetAttr ino)
  | .setAttr ino attr toSet => s.serveSetAttr ino attr toSet
  | .readLink ino => s.ofFs (.of (s.fs.fuseReadLink ino))
  | .open ino flags alloc => s.serveOpen L ino flags alloc
  | .read ino size off => s.serveRead ino size off
  | .write ino buf off junk alloc => s.serveWrite L ino buf off junk alloc
  | .flush ino alloc => s.serveFlush L ino alloc
  | .release ino => .of (s.fuseRelease ino)
  | .fsync ino => s.ofFs (.of (s.fs.fuseFsync ino))
  | .openDir ino => s.ofFs (.of (s.fs.fuseOpenDir ino))
  | .readDir ino size off alloc => s.ofFs (s.fs.fuseReadDir entrySize ino size off alloc)
  | .releaseDir ino => s.ofFs (.of (s.fs.fuseReleaseDir ino))
  | .fsyncDir ino => s.ofFs (.of (s.fs.fuseFsyncDir ino))
  | .statfs _ => s.ofFs (.of s.fs.fuseStatfs)
  | .setXAttr ino name value flags newBuf =>
    s.ofFs (.of (s.fs.fuseSetXAttr ino name value flags newBuf))
  | .getXAttr ino name size => s.ofFs (.of (s.fs.fuseGetXAttr ino name size))
  | .listXAttr ino size alloc => s.ofFs (.of (s.fs.fuseListXAttr ino size alloc))
  | .removeXAttr ino name => s.ofFs (.of (s.fs.fuseRemoveXAttr ino name))
  | .access ctx ino mask => s.ofFs (.of (s.fs.fuseAccess ctx ino mask))
  | .getLock ino => s.ofFs (s.fs.fuseGetLock ino)

/-- The state after a request whose handler returns. -/
def serveStep (r : FuseRequest) : Option System := (s.serve L entrySize r).state

/-- The condition under which a request is answered once, on the request and the state before it. -/
def Answerable : FuseRequest → Prop
  | .names r => s.fs.Answerable r
  | .getAttr ino => ino < s.iNodeManager.getNumberOfINodes
  | .setAttr ino _ _ => ino < s.iNodeManager.getNumberOfINodes
  | .open ino flags alloc => ∀ v ∈ s.iNodeManager.fileAt ino, opensForWriting flags = false →
      v.stSize ≠ 0 → alloc = true ∧ WellAddressed L s ino (numberOfBlocks L.blockSize v.stSize)
  | .read ino _ off => ∀ v ∈ s.iNodeManager.fileAt ino, off ≤ v.stSize
  | .write ino buf off _ alloc => ∀ data ∈ buf, ∀ v ∈ s.iNodeManager.fileAt ino,
      if L.blockSize * v.stBlocks < off + data.length then alloc = true
      else data.length = 0 ∨ off + data.length ≤ v.file.bytes.length
  | .flush ino alloc => ino < s.iNodeManager.getNumberOfINodes → ∃ v,
      s.iNodeManager.fileAt ino = some v ∧ (v.IsDirty → v.stSize ≠ 0 →
        alloc = true ∧ numberOfBlocks L.blockSize v.stSize * L.blockSize ≤ v.file.bytes.length)
  | .readDir ino size off alloc => ∀ dir ∈ s.iNodeManager.directoryAt ino,
      FileSystem.DirReadable entrySize dir size off alloc
  | .listXAttr ino size _ => ino < s.iNodeManager.getNumberOfINodes → size ≠ 0
  | .getLock ino => s.iNodeManager.getNumberOfINodes ≤ ino
  | _ => True

/-! ### The state between two requests -/

/-- The master's table is in range, and the processes have whole blocks. -/
structure Serving (L : Launch) (s : System) : Prop where
  table : FileSystem.InTable s.iNodeManager
  sized : BlocksSized L s

theorem serving_mounted (L : Launch) (process : Ids) : Serving L (System.mounted process) :=
  ⟨(FileSystem.mounted_wellFormed process).inTable, blocksSized_mounted L process⟩

variable {L : Launch} {s : System} {ino : ℕ} {v : FileState}

/-- A change of one inode, no directory gaining or losing an entry. -/
theorem Serving.modifyINode (h : Serving L s) {f : INode → INode}
    (hf : ∀ i, s.iNodeManager.iNodes[ino]? = some i → (f i).children = i.children) :
    Serving L (s.modifyINode ino f) := ⟨h.table.modifyINode hf, h.sized⟩

theorem onFile_children (g : File → File) (i : INode) : (onFile g i).children = i.children := by
  obtain ⟨_, _, _, _, k⟩ := i
  cases k <;> rfl

theorem Serving.onFile (h : Serving L s) (ino : ℕ) (g : File → File) :
    Serving L (s.modifyINode ino (onFile g)) := h.modifyINode fun i _ => onFile_children g i

theorem Serving.dagonFS_Write (h : Serving L s) {s' : System} {buffer : List UInt8} {fileSize : ℕ}
    (hrun : s.dagonFS_Write L buffer ino fileSize = some s') : Serving L s' := by
  refine ⟨?_, h.sized.dagonFS_Write hrun⟩
  obtain ⟨s₁, hspec, hwritten⟩ := dagonFS_Write_spec ino (le_of_dagonFS_Write hrun) (s := s)
  obtain rfl : s' = s₁ := Option.some.inj (hrun.symm.trans hspec)
  rw [iNodeManager, hwritten.iNodeManager]
  exact h.table

/-- A handler on the master's file system. -/
theorem ends_ofFs (h : Serving L s) {o : Outcome FileSystem}
    (ho : o.Ends fun fs => FileSystem.InTable fs.iNodeManager) : (s.ofFs o).Ends (Serving L) := by
  apply Outcome.ends_map
  intro fs hfs
  exact ⟨ho fs hfs, h.sized⟩

theorem ends_ofFs_same (h : Serving L s) {o : Outcome FileSystem} (ho : o.Ends (· = s.fs)) :
    (s.ofFs o).Ends (Serving L) := by
  apply ends_ofFs h
  intro fs hfs
  rw [ho fs hfs]
  exact h.table

/-- The check on the inode number fails, or the handler goes on with the inode. -/
theorem withINode_cases (s : System) (ino : ℕ) :
    (s.iNodeManager.iNodes.length ≤ ino ∧ ∀ k, s.withINode ino k = s.reply (.err .enoent)) ∨
    ∃ inode, s.iNodeManager.iNodes[ino]? = some inode ∧ ∀ k, s.withINode ino k = k inode := by
  by_cases hino : s.iNodeManager.iNodes.length ≤ ino
  · left
    refine ⟨hino, ?_⟩
    intro k
    rw [withINode, Nodes.getNumberOfINodes, if_pos hino]
  · right
    have hget := List.getElem?_eq_getElem (Nat.lt_of_not_le hino)
    refine ⟨_, hget, ?_⟩
    intro k
    rw [withINode, Nodes.getNumberOfINodes, if_neg hino, Nodes.getINodeByINodeNumber, hget]
    rfl

section Ends

variable (h : Serving L s)
include h

theorem ends_reply (r : Reply) : (Outcome.of (s.reply r)).Ends (Serving L) := Outcome.ends_at _ h

theorem ends_withINode {k : INode → Result} (hk : ∀ i, s.iNodeManager.iNodes[ino]? = some i →
    (Outcome.of (k i)).Ends (Serving L)) : (Outcome.of (s.withINode ino k)).Ends (Serving L) := by
  rcases s.withINode_cases ino with ⟨-, hwith⟩ | ⟨i, hget, hwith⟩
  · rw [hwith]
    exact ends_reply h _
  · rw [hwith]
    exact hk i hget

theorem serveSetAttr_ends (attr : Stat) (toSet : ℕ) :
    (s.serveSetAttr ino attr toSet).Ends (Serving L) := by
  refine Outcome.ends_ite (Outcome.ends_undefined _) (Outcome.ends_of ?_)
  intro s' replies hrun
  obtain ⟨i, -, hend⟩ := Option.map_eq_some_iff.mp hrun
  obtain ⟨rfl, -⟩ := Prod.mk.inj hend
  exact h.modifyINode fun _ _ => rfl

theorem serveOpen_ends (flags : ℕ) (alloc : Bool) : (s.serveOpen L ino flags alloc).Ends (Serving L) := by
  refine Outcome.ends_ite (Outcome.ends_undefined _) (ends_withINode h ?_)
  intro i hget
  cases i.kind with
  | file f =>
    apply Outcome.ends_of
    intro s' replies hrun
    dsimp only at hrun
    split at hrun
    · obtain ⟨rfl, -⟩ := Prod.mk.inj (Option.some.inj hrun)
      exact h.modifyINode fun _ _ => rfl
    · obtain ⟨buf, -, hend⟩ := Option.map_eq_some_iff.mp hrun
      obtain ⟨rfl, -⟩ := Prod.mk.inj hend
      exact h.onFile ino _
  | _ => exact ends_reply h _

theorem serveRead_ends (size off : ℕ) : (s.serveRead ino size off).Ends (Serving L) := by
  unfold serveRead
  cases hfile : s.iNodeManager.fileAt ino with
  | some v => exact Outcome.ends_ite (Outcome.ends_undefined _) (Outcome.ends_at _ h)
  | none =>
    apply ends_withINode h
    intro i hget
    cases hkind : i.kind with
    | file f => exact absurd hkind (kind_of_fileAt_none hfile hget f)
    | _ => exact ends_reply h _

theorem serveWrite_ends (buf : Option (List UInt8)) (off : ℕ) (junk : ℕ → UInt8) (alloc : Bool) :
    (s.serveWrite L ino buf off junk alloc).Ends (Serving L) := by
  unfold serveWrite
  cases buf with
  | none => exact ends_reply h _
  | some data =>
    cases hfile : s.iNodeManager.fileAt ino with
    | some v =>
      refine Outcome.ends_ite (Outcome.ends_undefined _)
        (Outcome.ends_ite (Outcome.ends_at _ ?_) (Outcome.ends_undefined _))
      have hused : Serving L (s.setFs (s.fs.updateUsedBlocks
          ((v.wrote L off data junk).stBlocks - v.stBlocks))) := ⟨h.table, h.sized⟩
      apply hused.modifyINode
      intro i hget
      -- the inode is a file before and after
      obtain ⟨i', hget', hi⟩ := Option.bind_eq_some_iff.mp hfile
      obtain rfl : i = i' := Option.some.inj (hget.symm.trans hget')
      obtain ⟨-, -, hkind⟩ := INode.fileState_eq_some hi
      have hnone : i.children = ∅ := by rw [INode.children, hkind]
      rw [hnone]
      rfl
    | none =>
      apply ends_withINode h
      intro i hget
      cases hkind : i.kind with
      | file f => exact absurd hkind (kind_of_fileAt_none hfile hget f)
      | _ => exact ends_reply h _

theorem serveFlush_ends (alloc : Bool) : (s.serveFlush L ino alloc).Ends (Serving L) := by
  refine Outcome.ends_ite (Outcome.ends_undefined _) (ends_withINode h ?_)
  intro i hget
  apply Outcome.ends_of
  intro s' replies hrun
  obtain ⟨f, -, hrun⟩ := Option.bind_eq_some_iff.mp hrun
  cases hbuf : f.mBuf with
  | none =>
    rw [hbuf] at hrun
    obtain ⟨rfl, -⟩ := Prod.mk.inj (Option.some.inj hrun)
    exact h
  | some buf =>
    simp only [hbuf] at hrun
    split at hrun
    · obtain ⟨s₁, hwrite, hend⟩ := Option.map_eq_some_iff.mp hrun
      obtain ⟨rfl, -⟩ := Prod.mk.inj hend
      exact (h.dagonFS_Write hwrite).onFile ino _
    · obtain ⟨rfl, -⟩ := Prod.mk.inj (Option.some.inj hrun)
      exact h.onFile ino _

theorem fuseRelease_ends : (Outcome.of (s.fuseRelease ino)).Ends (Serving L) := by
  apply ends_withINode h
  intro i hget
  cases i.kind with
  | directory d => exact ends_reply h _
  | _ => exact Outcome.ends_at _ (h.onFile ino _)

end Ends

/-- **A request that is served keeps the master's table and the blocks in order.** -/
theorem serveStep_serving {entrySize : Name → ℕ} {s' : System} (h : Serving L s) (r : FuseRequest)
    (hstep : s.serveStep L entrySize r = some s') : Serving L s' := by
  have hends : (s.serve L entrySize r).Ends (Serving L) := by
    cases r with
    | names r =>
      apply ends_ofFs h
      exact Outcome.ends_of fun fs' replies hrun => FileSystem.handle_inTable h.table hrun
    | getAttr ino => exact ends_ofFs_same h (s.fs.fuseGetAttr_ends ino)
    | setAttr ino attr toSet => exact serveSetAttr_ends h attr toSet
    | readLink ino => exact ends_ofFs_same h (FileSystem.fuseReadLink_repliesOnly ino).ends
    | «open» ino flags alloc => exact serveOpen_ends h flags alloc
    | read ino size off => exact serveRead_ends h size off
    | write ino buf off junk alloc => exact serveWrite_ends h buf off junk alloc
    | flush ino alloc => exact serveFlush_ends h alloc
    | release ino => exact fuseRelease_ends h
    | fsync ino | fsyncDir ino => exact ends_ofFs_same h (FileSystem.synced_repliesOnly ino).ends
    | openDir ino | releaseDir ino =>
      exact ends_ofFs_same h (FileSystem.unlessFile_repliesOnly ino _).ends
    | readDir ino size off alloc =>
      exact ends_ofFs_same h (s.fs.fuseReadDir_ends entrySize ino size off alloc)
    | statfs ino => exact ends_ofFs_same h (FileSystem.repliesOnly_reply _).ends
    | setXAttr ino name value flags newBuf =>
      exact ends_ofFs h (FileSystem.setsINode_spec h.table ino
        fun i => FileSystem.setXAttr_kind i name value flags 0 newBuf).2
    | getXAttr ino name size =>
      exact ends_ofFs_same h (FileSystem.fuseGetXAttr_repliesOnly ino name size).ends
    | listXAttr ino size alloc => exact ends_ofFs_same h (s.fs.fuseListXAttr_ends ino size alloc)
    | removeXAttr ino name =>
      exact ends_ofFs h (FileSystem.setsINode_spec h.table ino
        fun i => FileSystem.removeXAttr_kind i name).2
    | access ctx ino mask => exact ends_ofFs_same h (FileSystem.fuseAccess_repliesOnly ctx ino mask).ends
    | getLock ino => exact ends_ofFs_same h (s.fs.fuseGetLock_ends ino)
  exact hends s' hstep

/-! ### How often a request is answered -/

/-- The check that the inode is a file refuses, with one reply. -/
theorem answeredOnce_notFile {k : INode → Result} (hnone : s.iNodeManager.fileAt ino = none)
    (hk : ∀ i : INode, (∀ f, i.kind ≠ .file f) → (Outcome.of (k i)).AnsweredOnce) :
    (Outcome.of (s.withINode ino k)).AnsweredOnce := by
  rcases s.withINode_cases ino with ⟨-, hwith⟩ | ⟨i, hget, hwith⟩
  · rw [hwith]
    exact Outcome.answeredOnce_one _ s
  · rw [hwith]
    exact hk i (kind_of_fileAt_none hnone hget)

theorem serveSetAttr_answeredOnce_iff (attr : Stat) (toSet : ℕ) :
    (s.serveSetAttr ino attr toSet).AnsweredOnce ↔ ino < s.iNodeManager.getNumberOfINodes := by
  unfold serveSetAttr
  split
  · rename_i hlen
    exact iff_of_false (Outcome.not_answeredOnce_undefined _) (Nat.not_lt.mpr hlen)
  · rename_i hlen
    have hlt := Nat.lt_of_not_le hlen
    refine iff_of_true ?_ hlt
    have hget : s.iNodeManager.getINodeByINodeNumber ino = some s.iNodeManager.iNodes[ino] :=
      List.getElem?_eq_getElem hlt
    rw [fuseSetAttr, hget]
    exact Outcome.answeredOnce_one _ _

/-- An open that loads blocks is answered when their buffer is there, and the list addresses them well. -/
theorem serveOpen_answeredOnce_iff (hsized : BlocksSized L s) (flags : ℕ) (alloc : Bool) :
    (s.serveOpen L ino flags alloc).AnsweredOnce ↔ ∀ v ∈ s.iNodeManager.fileAt ino,
      opensForWriting flags = false → v.stSize ≠ 0 →
        alloc = true ∧ WellAddressed L s ino (numberOfBlocks L.blockSize v.stSize) := by
  cases hfile : s.iNodeManager.fileAt ino with
  | none =>
    have hloads : s.loadsBlocks ino flags = false := by rw [loadsBlocks, hfile]; rfl
    rw [serveOpen, hloads]
    refine iff_of_true (answeredOnce_notFile hfile ?_) (fun v hv => by cases hv)
    intro i hkind
    cases hk : i.kind with
    | file f => exact absurd hk (hkind f)
    | _ => exact Outcome.answeredOnce_one _ s
  | some v =>
    simp only [Option.mem_def, Option.some.injEq, forall_eq']
    have hloads : s.loadsBlocks ino flags = (!opensForWriting flags && v.stSize != 0) := by
      rw [loadsBlocks, hfile]
      rfl
    rw [serveOpen, hloads]
    cases hflags : opensForWriting flags with
    | true =>
      obtain ⟨s', hopen, -⟩ := fuseOpen_drops (L := L) hfile hflags
      rw [hopen]
      exact iff_of_true (Outcome.answeredOnce_one _ s') (fun hfalse => by cases hfalse)
    | false =>
      by_cases hsize : v.stSize = 0
      · -- an empty file has nothing to load
        have hread : s.dagonFS_Read L ⟨ino, v.stSize, v.stSize, 0⟩ = some none := by
          rw [dagonFS_Read, if_pos hsize]
        obtain ⟨s', hopen, -⟩ := fuseOpen_loads hfile hflags hread
        rw [hopen, hsize]
        exact iff_of_true (Outcome.answeredOnce_one _ s') fun _ hne => absurd rfl hne
      · simp only [Bool.not_false, Bool.true_and, bne_iff_ne.mpr hsize, forall_const, ne_eq, hsize,
          not_false_eq_true]
        cases alloc with
        | false => exact iff_of_false (Outcome.not_answeredOnce_undefined _) fun h => by cases h.1
        | true =>
          simp only [Bool.not_true, Bool.false_eq_true, if_false, true_and]
          constructor
          · intro hanswered
            obtain ⟨s', replies, hopen, -⟩ := Outcome.answeredOnce_of_iff.mp hanswered
            obtain ⟨i, hstSize, -, hkind, hwith⟩ := withINode_file hfile
            simp only [fuseOpen, hwith, hkind, hflags, hstSize] at hopen
            obtain ⟨buf, hread, -⟩ := Option.map_eq_some_iff.mp hopen
            exact wellAddressed_of_dagonFS_Read hsize (Option.isSome_iff_exists.mpr ⟨buf, hread⟩)
          · intro hwell
            obtain ⟨content, hread, -⟩ := dagonFS_Read_of_wellAddressed hsized hsize hwell
            obtain ⟨s', hopen, -⟩ := fuseOpen_loads (L := L) hfile hflags hread
            rw [hopen]
            exact Outcome.answeredOnce_one _ s'

theorem serveRead_answeredOnce_iff (size off : ℕ) : (s.serveRead ino size off).AnsweredOnce ↔
    ∀ v ∈ s.iNodeManager.fileAt ino, off ≤ v.stSize := by
  unfold serveRead
  cases hfile : s.iNodeManager.fileAt ino with
  | none =>
    refine iff_of_true (answeredOnce_notFile hfile ?_) (fun v hv => by cases hv)
    intro i hkind
    cases hk : i.kind with
    | file f => exact absurd hk (hkind f)
    | _ => exact Outcome.answeredOnce_one _ s
  | some v =>
    simp only [Option.mem_def, Option.some.injEq, forall_eq', ← Nat.not_lt]
    split
    · rename_i hlt
      exact iff_of_false (Outcome.not_answeredOnce_undefined _) (not_not_intro hlt)
    · rename_i hle
      exact iff_of_true (Outcome.answeredOnce_one _ s) hle

/-- A write is answered once when its bytes fit the buffer, `realloc`ed where it has to be. -/
theorem serveWrite_answeredOnce_iff (buf : Option (List UInt8)) (off : ℕ) (junk : ℕ → UInt8)
    (alloc : Bool) : (s.serveWrite L ino buf off junk alloc).AnsweredOnce ↔
      ∀ data ∈ buf, ∀ v ∈ s.iNodeManager.fileAt ino,
        if L.blockSize * v.stBlocks < off + data.length then alloc = true
        else data.length = 0 ∨ off + data.length ≤ v.file.bytes.length := by
  unfold serveWrite
  cases buf with
  | none => exact iff_of_true (Outcome.answeredOnce_one _ s) (fun data hdata => by cases hdata)
  | some data =>
    cases hfile : s.iNodeManager.fileAt ino with
    | none =>
      refine iff_of_true (answeredOnce_notFile hfile ?_) (fun _ _ v hv => by cases hv)
      intro i hkind
      cases hk : i.kind with
      | file f => exact absurd hk (hkind f)
      | _ => exact Outcome.answeredOnce_one _ s
    | some v =>
      simp only [Option.mem_def, Option.some.injEq, forall_eq']
      by_cases hgrows : L.blockSize * v.stBlocks < off + data.length
      · rw [if_pos hgrows]
        cases alloc with
        | false =>
          rw [if_pos ⟨hgrows, rfl⟩]
          exact iff_of_false (Outcome.not_answeredOnce_undefined _) Bool.false_ne_true
        | true =>
          have hfits : off + data.length ≤ ((v.writeBuffer L off data junk).getD []).length := by
            rw [FileState.writeBuffer, if_pos hgrows, Option.getD_some, length_grow]
            exact le_numberOfBlocks_mul L.blockSize_pos _
          rw [if_neg fun hfalse => Bool.false_ne_true hfalse.2.symm, if_pos (Or.inr hfits)]
          exact iff_of_true (Outcome.answeredOnce_one _ _) rfl
      · have hbuffer : (v.writeBuffer L off data junk).getD [] = v.file.bytes := by
          rw [FileState.writeBuffer, if_neg hgrows, File.bytes]
        rw [if_neg hgrows, if_neg fun hfalse => hgrows hfalse.1, hbuffer]
        exact Outcome.answeredOnce_ite _ _ _ _

theorem serveFlush_answeredOnce_iff (alloc : Bool) : (s.serveFlush L ino alloc).AnsweredOnce ↔
    (ino < s.iNodeManager.getNumberOfINodes → ∃ v, s.iNodeManager.fileAt ino = some v ∧
      (v.IsDirty → v.stSize ≠ 0 →
        alloc = true ∧ numberOfBlocks L.blockSize v.stSize * L.blockSize ≤ v.file.bytes.length)) := by
  cases hfile : s.iNodeManager.fileAt ino with
  | none =>
    have hstores : s.storesBlocks ino = false := by rw [storesBlocks, hfile]; rfl
    rw [serveFlush, hstores]
    show (Outcome.of (s.withINode ino _)).AnsweredOnce ↔ _
    rcases s.withINode_cases ino with ⟨hlen, hwith⟩ | ⟨i, hget, hwith⟩
    · rw [hwith]
      exact iff_of_true (Outcome.answeredOnce_one _ s) fun hlt => absurd hlt (Nat.not_lt.mpr hlen)
    · -- an inode of another kind has no buffer to look at
      have hnoFile : i.asFile = none := by
        cases hkind : i.kind with
        | file f => exact absurd hkind (kind_of_fileAt_none hfile hget f)
        | _ => rw [INode.asFile, hkind]
      rw [hwith, hnoFile]
      refine iff_of_false (Outcome.not_answeredOnce_undefined []) ?_
      intro h
      obtain ⟨v, hv, -⟩ := h (List.getElem?_eq_some_iff.mp hget).1
      cases hv
  | some v =>
    have hlt : ino < s.iNodeManager.getNumberOfINodes := by
      obtain ⟨i, hget, -⟩ := Option.bind_eq_some_iff.mp hfile
      exact (List.getElem?_eq_some_iff.mp hget).1
    have hstores : s.storesBlocks ino = (decide v.IsDirty && v.stSize != 0) := by
      rw [storesBlocks, hfile]
      rfl
    simp only [hlt, forall_const, Option.some.injEq, exists_eq_left', serveFlush, hstores]
    cases hbuf : v.file.mBuf with
    | none =>
      have hclean : ¬ v.IsDirty := by rw [FileState.IsDirty, hbuf]; simp
      rw [decide_eq_false hclean, fuseFlush_empty hfile hbuf]
      exact iff_of_true (Outcome.answeredOnce_one _ s) fun hdirty => absurd hdirty hclean
    | some buf =>
      cases hwaiting : v.file.isWaitingForDistributedWrite with
      | false =>
        have hclean : ¬ v.IsDirty := by rw [FileState.IsDirty, hwaiting]; simp
        obtain ⟨s', hflush, -⟩ := fuseFlush_unwritten (L := L) hfile hbuf hwaiting
        rw [decide_eq_false hclean, hflush]
        exact iff_of_true (Outcome.answeredOnce_one _ s') fun hdirty => absurd hdirty hclean
      | true =>
        have hdirty : v.IsDirty := ⟨by rw [hbuf]; rfl, hwaiting⟩
        have hbytes : v.file.bytes = buf := by rw [File.bytes, hbuf]; rfl
        simp only [hdirty, decide_true, Bool.true_and, forall_const, hbytes]
        by_cases hsize : v.stSize = 0
        · have hfit : numberOfBlocks L.blockSize v.stSize * L.blockSize ≤ buf.length := by
            rw [hsize, numberOfBlocks_zero, Nat.zero_mul]
            exact Nat.zero_le _
          obtain ⟨_, s', hflush, -⟩ := fuseFlush_written hfile hbuf hwaiting hfit
          rw [hflush, hsize]
          exact iff_of_true (Outcome.answeredOnce_one _ s') fun hne => absurd rfl hne
        · simp only [bne_iff_ne.mpr hsize, ne_eq, hsize, not_false_eq_true, forall_const, Bool.true_and]
          cases alloc with
          | false => exact iff_of_false (Outcome.not_answeredOnce_undefined _) fun h => by cases h.1
          | true =>
            simp only [Bool.not_true, Bool.false_eq_true, if_false, true_and]
            constructor
            · intro hanswered
              obtain ⟨s', replies, hflush, -⟩ := Outcome.answeredOnce_of_iff.mp hanswered
              obtain ⟨i, hstSize, -, hkind, hwith⟩ := withINode_file hfile
              simp only [fuseFlush, hwith, INode.asFile, hkind, Option.bind_some, hbuf, hwaiting, if_pos,
                hstSize] at hflush
              obtain ⟨s₁, hwrite, -⟩ := Option.map_eq_some_iff.mp hflush
              exact le_of_dagonFS_Write hwrite
            · intro hfit
              obtain ⟨_, s', hflush, -⟩ := fuseFlush_written hfile hbuf hwaiting hfit
              rw [hflush]
              exact Outcome.answeredOnce_one _ s'

theorem fuseRelease_answeredOnce : (Outcome.of (s.fuseRelease ino)).AnsweredOnce := by
  unfold fuseRelease
  rcases s.withINode_cases ino with ⟨-, hwith⟩ | ⟨i, -, hwith⟩
  · rw [hwith]
    exact Outcome.answeredOnce_one _ s
  · rw [hwith]
    cases i.kind with
    | directory d => exact Outcome.answeredOnce_one _ s
    | _ => exact Outcome.answeredOnce_one _ _

/-- **How often a request is answered**, between two requests. -/
theorem serve_answeredOnce_iff (h : Serving L s) (entrySize : Name → ℕ) (r : FuseRequest) :
    (s.serve L entrySize r).AnsweredOnce ↔ s.Answerable L entrySize r := by
  cases r with
  | names r =>
    exact (Outcome.answeredOnce_map _ _).trans (FileSystem.handle_answeredOnce_iff h.table r)
  | getAttr ino => exact (Outcome.answeredOnce_map _ _).trans (s.fs.fuseGetAttr_answeredOnce_iff ino)
  | setAttr ino attr toSet => exact serveSetAttr_answeredOnce_iff attr toSet
  | readLink ino =>
    have hone := (@FileSystem.fuseReadLink_repliesOnly s.fs ino).answeredOnce
    exact iff_of_true ((Outcome.answeredOnce_map _ _).mpr hone) trivial
  | «open» ino flags alloc => exact serveOpen_answeredOnce_iff h.sized flags alloc
  | read ino size off => exact serveRead_answeredOnce_iff size off
  | write ino buf off junk alloc => exact serveWrite_answeredOnce_iff buf off junk alloc
  | flush ino alloc => exact serveFlush_answeredOnce_iff alloc
  | release ino => exact iff_of_true fuseRelease_answeredOnce trivial
  | fsync ino | fsyncDir ino =>
    have hone := (@FileSystem.synced_repliesOnly s.fs ino).answeredOnce
    exact iff_of_true ((Outcome.answeredOnce_map _ _).mpr hone) trivial
  | openDir ino =>
    have hone := (@FileSystem.unlessFile_repliesOnly s.fs ino .opened).answeredOnce
    exact iff_of_true ((Outcome.answeredOnce_map _ _).mpr hone) trivial
  | readDir ino size off alloc =>
    exact (Outcome.answeredOnce_map _ _).trans (s.fs.fuseReadDir_answeredOnce_iff entrySize size off alloc)
  | releaseDir ino =>
    have hone := (@FileSystem.unlessFile_repliesOnly s.fs ino .ok).answeredOnce
    exact iff_of_true ((Outcome.answeredOnce_map _ _).mpr hone) trivial
  | statfs ino =>
    exact iff_of_true ((Outcome.answeredOnce_map _ _).mpr (Outcome.answeredOnce_one _ s.fs)) trivial
  | setXAttr ino name value flags newBuf =>
    have hone := (FileSystem.setsINode_spec h.table ino
      fun i => FileSystem.setXAttr_kind i name value flags 0 newBuf).1
    exact iff_of_true ((Outcome.answeredOnce_map _ _).mpr hone) trivial
  | getXAttr ino name size =>
    have hone := (@FileSystem.fuseGetXAttr_repliesOnly s.fs ino name size).answeredOnce
    exact iff_of_true ((Outcome.answeredOnce_map _ _).mpr hone) trivial
  | listXAttr ino size alloc =>
    exact (Outcome.answeredOnce_map _ _).trans (s.fs.fuseListXAttr_answeredOnce_iff ino size alloc)
  | removeXAttr ino name =>
    have hone := (FileSystem.setsINode_spec h.table ino fun i => FileSystem.removeXAttr_kind i name).1
    exact iff_of_true ((Outcome.answeredOnce_map _ _).mpr hone) trivial
  | access ctx ino mask =>
    have hone := (@FileSystem.fuseAccess_repliesOnly s.fs ctx ino mask).answeredOnce
    exact iff_of_true ((Outcome.answeredOnce_map _ _).mpr hone) trivial
  | getLock ino => exact (Outcome.answeredOnce_map _ _).trans (s.fs.fuseGetLock_answeredOnce_iff ino)

/-- **After any run of requests**, a request is answered exactly once if and only if it is `Answerable`. -/
theorem answeredOnce_of_run_iff (L : Launch) (entrySize : Name → ℕ) (process : Ids)
    (requests : List FuseRequest) {s : System}
    (hrun : run (serveStep L entrySize) (System.mounted process) requests = some s) (r : FuseRequest) :
    (s.serve L entrySize r).AnsweredOnce ↔ s.Answerable L entrySize r := by
  have hserving : Serving L s := by
    refine invariant_always (I := Serving L) ?_ (serving_mounted L process) hrun
    intro s₁ r₁ s₂ h₁ hstep
    exact serveStep_serving h₁ r₁ hstep
  exact serve_answeredOnce_iff hserving entrySize r

/-- A flush right after the first write to a new file. -/
theorem answeredOnce_of_run_flush : ∃ s, run (serveStep ⟨2, 4, by decide, by decide⟩ fun _ => 32)
      (System.mounted ⟨0, 0⟩)
      [.names (.create ⟨0, 0⟩ 1 [97] 0), .write 2 (some [1]) 0 (fun _ => 0) true] = some s ∧
    (s.serve ⟨2, 4, by decide, by decide⟩ (fun _ => 32) (.flush 2 true)).AnsweredOnce := by
  have hfile : (run (serveStep ⟨2, 4, by decide, by decide⟩ fun _ => 32) (System.mounted ⟨0, 0⟩)
      [.names (.create ⟨0, 0⟩ 1 [97] 0), .write 2 (some [1]) 0 (fun _ => 0) true]).map (fun s =>
        (s.iNodeManager.fileAt 2).map fun v => (v.stSize, v.file.bytes.length)) = some (some (1, 4)) := by
    decide +kernel
  obtain ⟨s, hrun, hs⟩ := Option.map_eq_some_iff.mp hfile
  obtain ⟨v, hv, hsizes⟩ := Option.map_eq_some_iff.mp hs
  obtain ⟨hsize, hlength⟩ := Prod.mk.inj hsizes
  refine ⟨s, hrun, (answeredOnce_of_run_iff _ _ _ _ hrun _).mpr fun _ => ⟨v, hv, fun _ _ => ⟨rfl, ?_⟩⟩⟩
  rw [hsize, hlength]
  decide

/-- **A request without a reply.**  The lock on the root of a new file system is not replied to. -/
theorem not_answeredOnce_of_run : ¬ ∀ (L : Launch) (entrySize : Name → ℕ) (process : Ids)
    (requests : List FuseRequest) (s : System),
    run (serveStep L entrySize) (System.mounted process) requests = some s →
    ∀ r, (s.serve L entrySize r).AnsweredOnce := by
  intro h
  have hreplied := h ⟨1, 4, by decide, by decide⟩ (fun _ => 32) ⟨0, 0⟩ [] _ rfl (.getLock 1)
  have hsilent : ((System.mounted ⟨0, 0⟩).serve ⟨1, 4, by decide, by decide⟩ (fun _ => 32)
      (.getLock 1)).calls = [] := by decide +kernel
  rw [Outcome.AnsweredOnce, hsilent] at hreplied
  cases hreplied.1

/-! ### Where a handler has a defined end -/

/-- The request as it reaches the handlers, all memory being there. -/
def Request.served : Request → FuseRequest
  | .create ctx parent name flags => .names (.create ctx parent name flags)
  | .open ino flags => .open ino flags true
  | .read ino size off => .read ino size off
  | .write ino buf off junk => .write ino buf off junk true
  | .setAttr ino attr toSet => .setAttr ino attr toSet
  | .flush ino => .flush ino true
  | .release ino => .release ino

theorem fuseWrite_putWritten (hfile : s.iNodeManager.fileAt ino = some v) (data : List UInt8) (off : ℕ)
    (junk : ℕ → UInt8) : s.fuseWrite L ino (some data) off junk =
      if off + data.length ≤ ((v.writeBuffer L off data junk).getD []).length then
        some (s.putWritten ino v (v.wrote L off data junk), [.write data.length])
      else none := fuseWrite_eq hfile data off junk

/-- **`serve` goes on as `handle` does**, wherever `handle` has a defined end. -/
theorem serve_of_handle (entrySize : Name → ℕ) {r : Request} {res : System × List Reply}
    (h : s.handle L r = some res) : s.serve L entrySize r.served = Outcome.of (some res) := by
  rw [← h]
  cases r with
  | create ctx parent name flags =>
    show s.ofFs (Outcome.of (s.fs.fuseCreate ctx parent name flags)) =
      Outcome.of (s.fuseCreate ctx parent name flags)
    rw [fuseCreate]
    cases s.fs.fuseCreate ctx parent name flags <;> rfl
  | «open» ino flags =>
    show s.serveOpen L ino flags true = _
    rw [serveOpen, Bool.not_true, Bool.and_false]
    rfl
  | flush ino =>
    show s.serveFlush L ino true = _
    rw [serveFlush, Bool.not_true, Bool.and_false]
    rfl
  | release ino => rfl
  | setAttr ino attr toSet =>
    have hlt : ino < s.iNodeManager.getNumberOfINodes := by
      obtain ⟨i, hget, -⟩ := Option.map_eq_some_iff.mp h
      exact (List.getElem?_eq_some_iff.mp hget).1
    exact if_neg (Nat.not_le.mpr hlt)
  | read ino size off =>
    show s.serveRead ino size off = Outcome.of (s.fuseRead ino size off)
    rw [serveRead]
    cases hfile : s.iNodeManager.fileAt ino with
    | none => rfl
    | some v =>
      obtain ⟨i, hsize, -, hkind, hwith⟩ := withINode_file hfile
      simp only [handle, fuseRead, hwith, hkind, hsize] at h ⊢
      split at h
      · cases h
      · rename_i hoff
        rw [if_neg hoff, if_neg hoff]
        generalize (if v.stSize < off + size then v.stSize - off else size) = bytesRead at h ⊢
        split at h
        · rename_i hbytes
          rw [if_pos hbytes]
          rfl
        · cases h
  | write ino buf off junk =>
    show s.serveWrite L ino buf off junk true = Outcome.of (s.fuseWrite L ino buf off junk)
    unfold serveWrite
    cases buf with
    | none => rfl
    | some data =>
      cases hfile : s.iNodeManager.fileAt ino with
      | none => rfl
      | some v =>
        have hwrite := fuseWrite_putWritten (L := L) hfile data off junk
        rw [handle, hwrite] at h
        rw [hwrite]
        split at h
        · rename_i hfits
          simp only [hfits, or_true, if_true, and_false, Bool.true_eq_false, if_false]
          rfl
        · cases h

end System

end DagonFs
