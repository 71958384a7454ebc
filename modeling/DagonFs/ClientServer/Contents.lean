import DagonFs.ClientServer.Replies
import DagonFs.FileSystem.OtherFiles

/-!
# What has been written to a file

`Contents` follows one inode number through a run of requests: the bytes that were written to the file
since it was made and that no truncation has dropped, as far as they are in the buffer, and as far as a
flush has stored them.  `watched_of_run`: they are where the system looks for them.
-/

namespace DagonFs

open DagonFs.Lib.Buffer DagonFs.Lib.BlockSplit DagonFs.Lib.Runs

/-- The bytes written to a file, by position: those in its buffer, and those that a flush has stored. -/
structure Contents where
  buffered : ℕ → Option UInt8
  stored : ℕ → Option UInt8

namespace Contents

def empty : Contents := ⟨fun _ => none, fun _ => none⟩

variable (c : Contents)

def load : Contents := ⟨c.stored, c.stored⟩
def store : Contents := ⟨fun _ => none, c.buffered⟩
def free : Contents := ⟨fun _ => none, c.stored⟩

def write (off : ℕ) (data : List UInt8) : Contents :=
  ⟨fun k => (Patch.byteAt ⟨off, data⟩ k).or (c.buffered k), c.stored⟩

/-- The bytes before `size`. -/
def cut (size : ℕ) : Contents :=
  ⟨fun k => if k < size then c.buffered k else none, fun k => if k < size then c.stored k else none⟩

end Contents

namespace System

/-- The next flush of the file stores its buffer. -/
def isDirty (s : System) (x : ℕ) : Bool := (s.iNodeManager.fileAt x).any fun v => decide v.IsDirty

/-- The contents of file `x` after a request. -/
def written (x : ℕ) (s : System) (c : Contents) : FuseRequest → Contents
  | .names r => if s.fs.Makes r x then .empty else c
  | .open ino flags _ => if ino = x then (if opensForWriting flags then .empty else c.load) else c
  | .write ino (some data) off _ _ => if ino = x then c.write off data else c
  | .setAttr ino attr toSet =>
    if ino = x ∧ isSet toSet fuseSetAttrSize = true then c.cut attr.stSize else c
  | .flush ino _ => if ino = x then (if s.isDirty x then c.store else c.free) else c
  | .release ino => if ino = x then c.free else c
  | _ => c

end System

/-- The system with the contents of one file. -/
structure Watched where
  system : System
  contents : Contents

namespace Watched

/-- The file system is mounted, and nothing has been written. -/
def mounted (process : Ids) : Watched := ⟨System.mounted process, .empty⟩

def step (L : Launch) (entrySize : Name → ℕ) (x : ℕ) (t : Watched) (r : FuseRequest) : Option Watched :=
  (t.system.serveStep L entrySize r).map fun s => ⟨s, t.system.written x t.contents r⟩

end Watched

/-! ### What a request does to the files -/

/-- The inode whose contents a request is about. -/
def FuseRequest.target : FuseRequest → Option ℕ
  | .open ino _ _ => some ino
  | .write ino buf _ _ _ => buf.map fun _ => ino
  | .setAttr ino _ _ => some ino
  | .flush ino _ => some ino
  | .release ino => some ino
  | _ => none

/-- The request is to none of the handlers that may change something. -/
def FuseRequest.asks : FuseRequest → Bool
  | .names _ => false
  | .open .. => false
  | .write .. => false
  | .setAttr .. => false
  | .flush .. => false
  | .release _ => false
  | .setXAttr .. => false
  | .removeXAttr .. => false
  | _ => true

namespace System

/-- What a request that is served does to the files. -/
inductive Served (L : Launch) (s s' : System) : FuseRequest → Prop
  | named {r : FileSystem.Request} {fs : FileSystem} {replies : List Reply}
    (hrun : s.fs.handle r = some (fs, replies)) (hs : s' = s.setFs fs) : Served L s s' (.names r)
  | quiet {r : FuseRequest} (hnone : ∀ ino, r.target = some ino → s.iNodeManager.fileAt ino = none)
    (hsame : SameFiles s s') : Served L s s' r
  | opened {ino flags : ℕ} {alloc : Bool} (h : Effect L s s' (.open ino flags)) :
    Served L s s' (.open ino flags alloc)
  | wrote {ino off : ℕ} {data : List UInt8} {junk : ℕ → UInt8} {alloc : Bool} {v : FileState}
    (hfile : s.iNodeManager.fileAt ino = some v)
    (hfit : data.length = 0 ∨ off + data.length ≤ ((v.writeBuffer L off data junk).getD []).length)
    (he : Edited s s' ino (v.wrote L off data junk)) : Served L s s' (.write ino (some data) off junk alloc)
  | resized {ino toSet : ℕ} {attr : Stat} (h : Effect L s s' (.setAttr ino attr toSet)) :
    Served L s s' (.setAttr ino attr toSet)
  | flushed {ino : ℕ} {alloc : Bool} (h : Effect L s s' (.flush ino)) : Served L s s' (.flush ino alloc)
  | released {ino : ℕ} (h : Effect L s s' (.release ino)) : Served L s s' (.release ino)

variable {L : Launch} {entrySize : Name → ℕ} {s s' : System} {x : ℕ} {v : FileState}

/-- A state that a handler's outcome has is one that the handler ends with. -/
theorem of_state {res : Result} (h : (Outcome.of res).state = some s') :
    ∃ replies, res = some (s', replies) := by
  cases res with
  | none => cases h
  | some r =>
    obtain rfl := Option.some.inj h
    exact ⟨r.2, rfl⟩

theorem eq_of_ofFs {o : Outcome FileSystem} (ho : o.Ends (· = s.fs)) (h : (s.ofFs o).state = some s') :
    s' = s := by
  obtain ⟨fs, hfs, rfl⟩ := Option.map_eq_some_iff.mp h
  obtain rfl := ho fs hfs
  rfl

/-- The handlers of extended attributes set an inode to one with the same file. -/
theorem sameFiles_setsINode (ino : ℕ) {g : INode → INode × Option Errno}
    (hg : ∀ i, ∃ m, (g i).1 = { i with mXattr := m }) (h : (s.ofFs (Outcome.of (s.fs.atINode ino fun i =>
      some (s.fs.setNodes (s.fs.iNodeManager.setINodeAt ino (g i).1), [FileSystem.retVal (g i).2])))).state =
        some s') : SameFiles s s' := by
  rcases s.fs.atINode_cases ino with ⟨-, hk⟩ | ⟨i, hget, hk⟩
  · rw [hk] at h
    obtain rfl := Option.some.inj h
    exact SameFiles.refl s
  · rw [hk] at h
    obtain rfl := Option.some.inj h
    refine ⟨?_, rfl, rfl, rfl⟩
    intro y
    show (s.fs.iNodeManager.setINodeAt ino (g i).1).fileAt y = s.fs.iNodeManager.fileAt y
    rw [Nodes.fileAt, Nodes.fileAt, Nodes.setINodeAt, List.getElem?_set]
    by_cases hy : ino = y
    · subst hy
      rw [if_pos rfl, if_pos (List.getElem?_eq_some_iff.mp hget).1, hget]
      obtain ⟨m, hm⟩ := hg i
      rw [hm]
      rfl
    · rw [if_neg hy]

theorem setXAttr_mXattr (i : INode) (name : Name) (value : List UInt8) (flags position : ℕ)
    (newBuf : Option (ℕ → UInt8)) :
    ∃ m, (i.setXAttr name value flags position newBuf).1 = { i with mXattr := m } := by
  unfold INode.setXAttr
  split
  · exact ⟨_, rfl⟩
  · split
    · exact ⟨_, rfl⟩
    · dsimp only
      split
      · cases newBuf <;> exact ⟨_, rfl⟩
      · exact ⟨_, rfl⟩

theorem removeXAttr_mXattr (i : INode) (name : Name) :
    ∃ m, (i.removeXAttr name).1 = { i with mXattr := m } := by
  unfold INode.removeXAttr
  split
  · exact ⟨_, rfl⟩
  · exact ⟨_, rfl⟩

/-- A write is served with its effect, or it has found no file. -/
theorem served_write {buf : Option (List UInt8)} {ino off : ℕ} {junk : ℕ → UInt8} {alloc : Bool}
    (h : (s.serveWrite L ino buf off junk alloc).state = some s') :
    Served L s s' (.write ino buf off junk alloc) := by
  unfold serveWrite at h
  cases buf with
  | none =>
    obtain rfl := Option.some.inj h
    exact .quiet (fun _ hino => by cases hino) (SameFiles.refl s)
  | some data =>
    cases hfile : s.iNodeManager.fileAt ino with
    | none =>
      rw [hfile] at h
      obtain ⟨replies, hrun⟩ := of_state h
      have hsame := sameFiles_of_target (r := .write ino (some data) off junk) rfl hfile s' replies hrun
      refine .quiet ?_ hsame
      intro x hx
      obtain rfl := Option.some.inj hx
      exact hfile
    | some v =>
      simp only [hfile] at h
      split at h
      · cases h
      · split at h
        · rename_i hfit
          obtain rfl := Option.some.inj h
          exact .wrote hfile hfit (edited_putFile hfile _ _ _ _)
        · cases h

/-- A query changes nothing. -/
theorem serveStep_asks {r : FuseRequest} (hasks : r.asks = true)
    (hstep : s.serveStep L entrySize r = some s') : s' = s := by
  cases r with
  | names | setAttr | «open» | write | flush | release | setXAttr | removeXAttr => cases hasks
  | read ino size off =>
    change (s.serveRead ino size off).state = some s' at hstep
    unfold serveRead at hstep
    cases hfile : s.iNodeManager.fileAt ino with
    | none =>
      rw [hfile] at hstep
      obtain ⟨replies, hrun⟩ := of_state hstep
      unfold fuseRead at hrun
      rcases s.withINode_cases ino with ⟨-, hwith⟩ | ⟨i, hget, hwith⟩
      · rw [hwith] at hrun
        exact (Prod.mk.inj (Option.some.inj hrun)).1.symm
      · rw [hwith] at hrun
        cases hkind : i.kind with
        | file f => exact absurd hkind (kind_of_fileAt_none hfile hget f)
        | _ =>
          rw [hkind] at hrun
          exact (Prod.mk.inj (Option.some.inj hrun)).1.symm
    | some v =>
      simp only [hfile] at hstep
      split at hstep
      · cases hstep
      · exact (Option.some.inj hstep).symm
  | getAttr ino => exact eq_of_ofFs (s.fs.fuseGetAttr_ends ino) hstep
  | readLink ino => exact eq_of_ofFs (FileSystem.fuseReadLink_repliesOnly ino).ends hstep
  | fsync ino | fsyncDir ino => exact eq_of_ofFs (FileSystem.synced_repliesOnly ino).ends hstep
  | openDir ino | releaseDir ino =>
    exact eq_of_ofFs (FileSystem.unlessFile_repliesOnly ino _).ends hstep
  | readDir ino size off alloc =>
    exact eq_of_ofFs (s.fs.fuseReadDir_ends entrySize ino size off alloc) hstep
  | statfs ino => exact eq_of_ofFs (FileSystem.repliesOnly_reply _).ends hstep
  | getXAttr ino name size =>
    exact eq_of_ofFs (FileSystem.fuseGetXAttr_repliesOnly ino name size).ends hstep
  | listXAttr ino size alloc => exact eq_of_ofFs (s.fs.fuseListXAttr_ends ino size alloc) hstep
  | access ctx ino mask =>
    exact eq_of_ofFs (FileSystem.fuseAccess_repliesOnly ctx ino mask).ends hstep
  | getLock ino => exact eq_of_ofFs (s.fs.fuseGetLock_ends ino) hstep

/-- A request on the namespace that is served. -/
theorem handle_of_serveStep {r : FileSystem.Request} (hstep : s.serveStep L entrySize (.names r) = some s') :
    ∃ fs replies, s.fs.handle r = some (fs, replies) ∧ s' = s.setFs fs := by
  obtain ⟨fs, hfs, rfl⟩ := Option.map_eq_some_iff.mp hstep
  cases hhandle : s.fs.handle r with
  | none =>
    rw [hhandle] at hfs
    cases hfs
  | some res =>
    rw [hhandle] at hfs
    obtain rfl := Option.some.inj hfs
    exact ⟨res.1, res.2, rfl, rfl⟩

/-- **The effect of a request that is served.** -/
theorem served_of_serveStep {r : FuseRequest} (hstep : s.serveStep L entrySize r = some s') :
    Served L s s' r := by
  cases r with
  | names r =>
    obtain ⟨fs, replies, hrun, hs⟩ := handle_of_serveStep hstep
    exact .named hrun hs
  | «open» ino flags alloc =>
    change (s.serveOpen L ino flags alloc).state = some s' at hstep
    unfold serveOpen at hstep
    split at hstep
    · cases hstep
    · obtain ⟨replies, hrun⟩ := of_state hstep
      exact .opened (handle_effect hrun)
  | write ino buf off junk alloc => exact served_write hstep
  | setAttr ino attr toSet =>
    change (s.serveSetAttr ino attr toSet).state = some s' at hstep
    unfold serveSetAttr at hstep
    split at hstep
    · cases hstep
    · obtain ⟨replies, hrun⟩ := of_state hstep
      exact .resized (handle_effect hrun)
  | flush ino alloc =>
    change (s.serveFlush L ino alloc).state = some s' at hstep
    unfold serveFlush at hstep
    split at hstep
    · cases hstep
    · obtain ⟨replies, hrun⟩ := of_state hstep
      exact .flushed (handle_effect hrun)
  | release ino =>
    obtain ⟨replies, hrun⟩ := of_state hstep
    exact .released (handle_effect hrun)
  | setXAttr ino name value flags newBuf =>
    refine .quiet (fun _ hino => by cases hino) ?_
    exact sameFiles_setsINode ino (fun i => setXAttr_mXattr i name value flags 0 newBuf) hstep
  | removeXAttr ino name =>
    refine .quiet (fun _ hino => by cases hino) ?_
    exact sameFiles_setsINode ino (fun i => removeXAttr_mXattr i name) hstep
  | _ =>
    obtain rfl := serveStep_asks rfl hstep
    exact .quiet (fun _ hino => by cases hino) (SameFiles.refl _)

/-! ### Where the bytes are -/

/-- The block list has an address for the block of position `k`, and the block has byte `b` there. -/
def StoredAt (L : Launch) (s : System) (x k : ℕ) (b : UInt8) : Prop :=
  ∃ (block : DataBlock) (a : Address) (bytes : List UInt8),
    (s.blockList x)[k / L.blockSize]? = some block ∧ block.getData = some a ∧
      (s.heaps a.rank)[a.index]? = some bytes ∧ bytes[k % L.blockSize]? = some b

/-- File `x` has its block list, and no block has gone. -/
structure Undisturbed (s s' : System) (x : ℕ) : Prop where
  file : s'.iNodeManager.fileAt x = s.iNodeManager.fileAt x
  blockList : s'.blockList x = s.blockList x
  heaps : ∀ rank, s.heaps rank <+: s'.heaps rank

theorem SameFiles.undisturbed (h : SameFiles s s') (x : ℕ) : Undisturbed s s' x :=
  ⟨h.files x, by rw [h.blockList], fun rank => by rw [h.heaps]⟩

theorem Edited.undisturbed {ino : ℕ} (h : Edited s s' ino v) (hx : x ≠ ino) : Undisturbed s s' x :=
  ⟨h.others x hx, by rw [h.blockList], fun rank => by rw [h.heaps]⟩

theorem Written.undisturbed {buffer : List UInt8} {ino blocks : ℕ} (h : Written L s s' buffer ino blocks)
    (hx : x ≠ ino) : Undisturbed s s' x :=
  ⟨congrArg (Nodes.fileAt · x) h.iNodeManager, h.others x hx, h.heaps⟩

theorem Undisturbed.trans {s₁ : System} (h : Undisturbed s s₁ x) (h₁ : Undisturbed s₁ s' x) :
    Undisturbed s s' x :=
  ⟨h₁.file.trans h.file, h₁.blockList.trans h.blockList,
    fun rank => (h.heaps rank).trans (h₁.heaps rank)⟩

theorem StoredAt.mono {k : ℕ} {b : UInt8} (h : StoredAt L s x k b) (hlist : s'.blockList x = s.blockList x)
    (hheaps : ∀ rank, s.heaps rank <+: s'.heaps rank) : StoredAt L s' x k b := by
  obtain ⟨block, a, bytes, hblock, hdata, hget, hb⟩ := h
  refine ⟨block, a, bytes, hlist ▸ hblock, hdata, ?_, hb⟩
  obtain ⟨tail, htail⟩ := hheaps a.rank
  have hlt : a.index < (s.heaps a.rank).length := (List.getElem?_eq_some_iff.mp hget).1
  rw [← htail, List.getElem?_append_left hlt, hget]

/-- A request that is not about file `x`, or finds no file there. -/
theorem Effect.undisturbed {r : Request} (h : Effect L s s' r) (hcreate : ∀ ctx parent name flags,
    r ≠ .create ctx parent name flags) (hx : r.target = some x → s.iNodeManager.fileAt x = none) :
    Undisturbed s s' x := by
  have hne : ∀ {ino : ℕ} {v : FileState}, s.iNodeManager.fileAt ino = some v → r.target = some ino →
      x ≠ ino := by
    rintro ino v hfile htarget rfl
    rw [hx htarget] at hfile
    cases hfile
  cases h with
  | @created ctx parent name flags fs replies hrun hs => exact absurd rfl (hcreate ctx parent name flags)
  | refused _ hsame | read _ hsame | unbuffered _ _ hsame => exact hsame.undisturbed x
  | dropped hfile _ he | loaded hfile _ _ he | wrote hfile _ he | resized hfile he | freed hfile _ he
  | released hfile he => exact he.undisturbed (hne hfile rfl)
  | distributed hfile _ _ hwrite he =>
    obtain ⟨s₂, hspec, hwritten⟩ := dagonFS_Write_spec _ (le_of_dagonFS_Write hwrite) (s := s)
    obtain rfl := Option.some.inj (hwrite.symm.trans hspec)
    exact (hwritten.undisturbed (hne hfile rfl)).trans (he.undisturbed (hne hfile rfl))

/-- The same for every request that is served. -/
theorem Served.undisturbed {r : FuseRequest} (h : Served L s s' r)
    (hmakes : ∀ r₀, r = .names r₀ → ¬ s.fs.Makes r₀ x)
    (hx : r.target = some x → s.iNodeManager.fileAt x = none) : Undisturbed s s' x := by
  cases h with
  | named hrun hs =>
    obtain ⟨hfile, hlist⟩ := FileSystem.handle_leavesFile (hmakes _ rfl) _ _ hrun
    rw [hs]
    exact ⟨hfile, hlist, fun rank => List.prefix_refl _⟩
  | quiet _ hsame => exact hsame.undisturbed x
  | opened heff | resized heff | flushed heff | released heff =>
    refine heff.undisturbed ?_ hx
    intro _ _ _ _ hr
    cases hr
  | wrote hfile _ he =>
    apply he.undisturbed
    rintro rfl
    rw [hx rfl] at hfile
    cases hfile

/-- What was written to a file is in its buffer, and where its blocks are, and inside the size and the
blocks of the file. -/
structure Recorded (L : Launch) (s : System) (x : ℕ) (c : Contents) (v : FileState) : Prop where
  buffered : ∀ k b, c.buffered k = some b →
    v.file.bytes[k]? = some b ∧ k < v.stSize ∧ k < L.blockSize * v.stBlocks
  stored : ∀ k b, c.stored k = some b →
    StoredAt L s x k b ∧ k < v.stSize ∧ k < L.blockSize * v.stBlocks

theorem recorded_empty (L : Launch) (s : System) (x : ℕ) (v : FileState) : Recorded L s x .empty v :=
  ⟨fun _ _ h => (by cases h), fun _ _ h => (by cases h)⟩

variable {c : Contents}

theorem Recorded.mono (h : Recorded L s x c v) (hlist : s'.blockList x = s.blockList x)
    (hheaps : ∀ rank, s.heaps rank <+: s'.heaps rank) : Recorded L s' x c v := by
  refine ⟨h.buffered, ?_⟩
  intro k b hk
  obtain ⟨hat, hbounds⟩ := h.stored k b hk
  exact ⟨hat.mono hlist hheaps, hbounds⟩

/-- An edit of the table changes no block. -/
theorem Recorded.edited {w : FileState} (h : Recorded L s x c v) (he : Edited s s' x w) :
    Recorded L s' x c v :=
  h.mono (by rw [he.blockList]) fun rank => by rw [he.heaps]

/-- The buffer is gone. -/
theorem Recorded.free (h : Recorded L s x c v) (f : File) : Recorded L s x c.free { v with file := f } :=
  ⟨fun _ _ hk => (by cases hk), h.stored⟩

/-- The file is resized, with what is left before the new size. -/
theorem Recorded.cut (h : Recorded L s x c v) (size : ℕ) :
    Recorded L s x (c.cut size) { v with stSize := size } := by
  constructor
  · intro k b hk
    obtain ⟨hlt, hk⟩ := Option.ite_none_right_eq_some.mp hk
    obtain ⟨hget, -, hblocks⟩ := h.buffered k b hk
    exact ⟨hget, hlt, hblocks⟩
  · intro k b hk
    obtain ⟨hlt, hk⟩ := Option.ite_none_right_eq_some.mp hk
    obtain ⟨hat, -, hblocks⟩ := h.stored k b hk
    exact ⟨hat, hlt, hblocks⟩

/-- A position inside a file is in one of its blocks. -/
theorem block_lt {k size : ℕ} (hk : k < size) : k / L.blockSize < numberOfBlocks L.blockSize size := by
  have hle := le_numberOfBlocks_mul L.blockSize_pos size
  exact Nat.div_lt_of_lt_mul (by rw [Nat.mul_comm]; omega)

theorem getElem?_blockAt (L : Launch) (buf : List UInt8) (k : ℕ) :
    (blockAt L.blockSize buf (k / L.blockSize))[k % L.blockSize]? = buf[k]? := by
  have hmod := Nat.mod_lt k L.blockSize_pos
  have hdiv := Nat.div_add_mod' k L.blockSize
  rw [blockAt, List.getElem?_take, if_pos hmod, List.getElem?_drop, hdiv]

/-- A flush stores what is in the buffer. -/
theorem Recorded.store {buf : List UInt8} {s₁ : System} (h : Recorded L s x c v)
    (hbuf : v.file.bytes = buf) (hw : Written L s s₁ buf x (numberOfBlocks L.blockSize v.stSize))
    (f : File) : Recorded L s₁ x c.store { v with file := f } := by
  refine ⟨fun _ _ hk => (by cases hk), ?_⟩
  intro k b hk
  obtain ⟨hget, hsize, hblocks⟩ := h.buffered k b hk
  obtain ⟨block, hblock, index, hdata, hheap⟩ := hw.new (k / L.blockSize) (block_lt hsize)
  refine ⟨⟨block, _, _, hblock, hdata, hheap, ?_⟩, hsize, hblocks⟩
  rw [getElem?_blockAt, ← hbuf, hget]

/-- An open that loads the buffer finds what the flush has stored. -/
theorem Recorded.load {buf : Option (List UInt8)} (h : Recorded L s x c v) (hsized : BlocksSized L s)
    (hread : s.dagonFS_Read L ⟨x, v.stSize, v.stSize, 0⟩ = some buf) :
    Recorded L s x c.load { v with file := { v.file with mBuf := buf } } := by
  refine ⟨?_, h.stored⟩
  intro k b hk
  obtain ⟨⟨block, a, bytes, hblock, hdata, hget, hb⟩, hsize, hblocks⟩ := h.stored k b hk
  refine ⟨?_, hsize, hblocks⟩
  have hpos : v.stSize ≠ 0 := Nat.ne_of_gt (Nat.zero_lt_of_lt hsize)
  have hwell := wellAddressed_of_dagonFS_Read hpos (Option.isSome_iff_exists.mpr ⟨buf, hread⟩)
  obtain ⟨content, hcontent, -, hholds⟩ := @dagonFS_Read_of_wellAddressed L s x _ 0 hsized hpos hwell
  obtain rfl : buf = some content := Option.some.inj (hread.symm.trans hcontent)
  -- the block of the list is the one that the buffer was loaded from
  obtain ⟨block', hblock', index, hdata', hget'⟩ := hholds (k / L.blockSize) (block_lt hsize)
  obtain rfl : block = block' := Option.some.inj (hblock.symm.trans hblock')
  obtain rfl : a = _ := Option.some.inj (hdata.symm.trans hdata')
  obtain rfl : bytes = _ := Option.some.inj (hget.symm.trans hget')
  rw [getElem?_blockAt] at hb
  exact hb

/-- The buffer that a write copies into has what was inside the blocks. -/
theorem getElem?_writeBuffer {k : ℕ} (off : ℕ) (data : List UInt8) (junk : ℕ → UInt8)
    (hk : k < v.file.bytes.length) (hblocks : k < L.blockSize * v.stBlocks) :
    ((v.writeBuffer L off data junk).getD [])[k]? = v.file.bytes[k]? := by
  rw [FileState.writeBuffer]
  split
  · rename_i hgrows
    have hle := le_numberOfBlocks_mul L.blockSize_pos (off + data.length)
    exact getElem?_grow junk hk (by omega)
  · rfl

/-- The buffer after a write. -/
theorem bytes_wrote_eq {off : ℕ} {data : List UInt8} {junk : ℕ → UInt8} (hfit : data.length = 0 ∨
    off + data.length ≤ ((v.writeBuffer L off data junk).getD []).length) :
    (v.wrote L off data junk).file.bytes = splice ((v.writeBuffer L off data junk).getD []) off data := by
  rw [FileState.wrote, File.bytes]
  cases hbuf : v.writeBuffer L off data junk with
  | some buf => rfl
  | none =>
    -- there is nothing to copy to a null pointer
    rw [hbuf] at hfit
    have hempty : data = [] := by
      rcases hfit with hnone | hle
      · exact List.length_eq_zero_iff.mp hnone
      · apply List.length_eq_zero_iff.mp
        simp only [Option.getD_none, List.length_nil] at hle
        omega
    rw [hempty]
    simp [splice]

theorem bytes_wrote {off : ℕ} {data : List UInt8} {junk : ℕ → UInt8} (hfit : data.length = 0 ∨
    off + data.length ≤ ((v.writeBuffer L off data junk).getD []).length) (k : ℕ) :
    (v.wrote L off data junk).file.bytes[k]? =
      (Patch.byteAt ⟨off, data⟩ k).or ((v.writeBuffer L off data junk).getD [])[k]? := by
  have hstart : data.length = 0 ∨ off ≤ ((v.writeBuffer L off data junk).getD []).length :=
    hfit.imp id (Nat.le_trans (Nat.le_add_right _ _))
  rw [bytes_wrote_eq hfit, ← getElem?_splice_patch hstart]

/-- A write puts its bytes into the buffer, and keeps the others inside the blocks. -/
theorem Recorded.write {off : ℕ} {data : List UInt8} {junk : ℕ → UInt8} (h : Recorded L s x c v)
    (hfit : data.length = 0 ∨ off + data.length ≤ ((v.writeBuffer L off data junk).getD []).length) :
    Recorded L s x (c.write off data) (v.wrote L off data junk) := by
  have hsize : v.stSize ≤ (v.wrote L off data junk).stSize := Nat.le_max_left _ _
  have hnew : off + data.length ≤ (v.wrote L off data junk).stSize := Nat.le_max_right _ _
  have hmul := le_numberOfBlocks_mul L.blockSize_pos (off + data.length)
  rw [Nat.mul_comm] at hmul
  have hblocks : L.blockSize * v.stBlocks ≤ L.blockSize * (v.wrote L off data junk).stBlocks ∧
      off + data.length ≤ L.blockSize * (v.wrote L off data junk).stBlocks := by
    simp only [FileState.wrote]
    split <;> omega
  constructor
  · intro k b hk
    rw [bytes_wrote hfit]
    have hk' : (Patch.byteAt ⟨off, data⟩ k).or (c.buffered k) = some b := hk
    cases hpatch : Patch.byteAt ⟨off, data⟩ k with
    | some a =>
      rw [hpatch] at hk'
      obtain rfl : a = b := Option.some.inj hk'
      have hlt : k < off + data.length := by
        by_contra hle
        rw [Patch.byteAt_eq_none (Nat.le_of_not_lt hle)] at hpatch
        cases hpatch
      exact ⟨rfl, by omega, by omega⟩
    | none =>
      rw [hpatch] at hk'
      obtain ⟨hget, hlt, hroom⟩ := h.buffered k b hk'
      have hin : k < v.file.bytes.length := (List.getElem?_eq_some_iff.mp hget).1
      refine ⟨?_, by omega, by omega⟩
      rw [Option.none_or, getElem?_writeBuffer off data junk hin hroom, hget]
  · intro k b hk
    obtain ⟨hat, hlt, hroom⟩ := h.stored k b hk
    exact ⟨hat, by omega, by omega⟩

/-- A request that is not about the contents leaves them. -/
theorem written_of_target {r : FuseRequest} (hmakes : ∀ r₀, r = .names r₀ → ¬ s.fs.Makes r₀ x)
    (hx : r.target ≠ some x) : s.written x c r = c := by
  have hne : ∀ {ino : ℕ}, r.target = some ino → ino ≠ x := by
    rintro ino htarget rfl
    exact hx htarget
  cases r with
  | names r => exact if_neg (hmakes r rfl)
  | «open» | flush | release => exact if_neg (hne rfl)
  | setAttr => exact if_neg fun h => hne rfl h.1
  | write ino buf off junk alloc =>
    cases buf with
    | none => rfl
    | some data => exact if_neg (hne rfl)
  | _ => rfl

/-- The step on file `x` itself. -/
theorem Served.recorded {r : FuseRequest} {v' : FileState} (hserved : Served L s s' r)
    (hsized : BlocksSized L s) (htarget : r.target = some x) (hfile : s.iNodeManager.fileAt x = some v)
    (hfile' : s'.iNodeManager.fileAt x = some v') (h : Recorded L s x c v) :
    Recorded L s' x (s.written x c r) v' := by
  have hself : ∀ {w : FileState}, s.iNodeManager.fileAt x = some w → v = w := fun hw =>
    Option.some.inj (hfile.symm.trans hw)
  have hedit : ∀ {s₁ : System} {w : FileState}, Edited s₁ s' x w → v' = w := fun he =>
    Option.some.inj (hfile'.symm.trans he.self)
  have hfound : ∀ {r₀ : Request}, r₀.target = some x →
      ¬ ∀ ino, r₀.target = some ino → s.iNodeManager.fileAt ino = none := by
    intro r₀ h₀ hnone
    rw [hnone x h₀] at hfile
    cases hfile
  cases hserved with
  | named => cases htarget
  | quiet hnone _ =>
    rw [hnone x htarget] at hfile
    cases hfile
  | opened heff =>
    obtain rfl := Option.some.inj htarget
    simp only [written, if_true]
    cases heff with
    | refused hnone _ => exact absurd hnone (hfound rfl)
    | dropped _ hflags _ =>
      rw [if_pos hflags]
      exact recorded_empty L s' _ v'
    | loaded hw hflags hread he =>
      obtain rfl := hself hw
      obtain rfl := hedit he
      rw [hflags, if_neg Bool.false_ne_true]
      exact (h.load hsized hread).edited he
  | wrote hw hfit he =>
    obtain rfl := Option.some.inj htarget
    obtain rfl := hself hw
    obtain rfl := hedit he
    simp only [written, if_true]
    exact (h.write hfit).edited he
  | resized heff =>
    obtain rfl := Option.some.inj htarget
    simp only [written, true_and]
    cases heff with
    | refused hnone _ => exact absurd hnone (hfound rfl)
    | resized hw he =>
      obtain rfl := hself hw
      obtain rfl := hedit he
      split
      · exact (h.cut _).edited he
      · exact h.edited he
  | flushed heff =>
    obtain rfl := Option.some.inj htarget
    simp only [written, if_true, isDirty, hfile, Option.any_some, decide_eq_true_eq]
    cases heff with
    | refused hnone _ => exact absurd hnone (hfound rfl)
    | unbuffered hw hbuf hsame =>
      obtain rfl := hself hw
      have hclean : ¬ v.IsDirty := by
        rw [FileState.IsDirty, hbuf]
        exact fun hdirty => Bool.false_ne_true hdirty.1
      obtain rfl : v = v' := Option.some.inj (((hsame.files _).trans hfile).symm.trans hfile')
      rw [if_neg hclean]
      exact (h.free _).mono (by rw [hsame.blockList]) fun rank => by rw [hsame.heaps]
    | freed hw hclean he =>
      obtain rfl := hself hw
      obtain rfl := hedit he
      have hnot : ¬ v.IsDirty := fun hdirty => Bool.false_ne_true (hclean.symm.trans hdirty.2)
      rw [if_neg hnot]
      exact (h.free _).edited he
    | distributed hw hbuf hwaiting hwrite he =>
      obtain rfl := hself hw
      obtain rfl := hedit he
      obtain ⟨s₂, hspec, hwritten⟩ := dagonFS_Write_spec _ (le_of_dagonFS_Write hwrite) (s := s)
      obtain rfl := Option.some.inj (hwrite.symm.trans hspec)
      have hbytes := congrArg (Option.getD · []) hbuf
      rw [if_pos ⟨Option.isSome_iff_exists.mpr ⟨_, hbuf⟩, hwaiting⟩]
      exact (h.store hbytes hwritten _).edited he
  | released heff =>
    obtain rfl := Option.some.inj htarget
    simp only [written, if_true]
    cases heff with
    | refused hnone _ => exact absurd hnone (hfound rfl)
    | released hw he =>
      obtain rfl := hself hw
      obtain rfl := hedit he
      exact (h.free _).edited he

end System

namespace Watched

open DagonFs.System

/-- What was written to the file is where the system looks for it. -/
structure Inv (L : Launch) (x : ℕ) (t : Watched) : Prop where
  serving : Serving L t.system
  recorded : ∀ v, t.system.iNodeManager.fileAt x = some v → Recorded L t.system x t.contents v

variable {L : Launch} {entrySize : Name → ℕ} {x : ℕ}

theorem inv_mounted (L : Launch) (x : ℕ) (process : Ids) : Inv L x (mounted process) :=
  ⟨serving_mounted L process, fun v _ => recorded_empty L _ x v⟩

/-- **The step lemma.** -/
theorem step_inv {t t' : Watched} {r : FuseRequest} (h : Inv L x t)
    (hstep : t.step L entrySize x r = some t') : Inv L x t' := by
  obtain ⟨s', hserve, rfl⟩ := Option.map_eq_some_iff.mp hstep
  have hserved := served_of_serveStep hserve
  refine ⟨serveStep_serving h.serving r hserve, ?_⟩
  intro v' hfile'
  show Recorded L s' x (t.system.written x t.contents r) v'
  by_cases hmakes : ∃ r₀, r = .names r₀ ∧ t.system.fs.Makes r₀ x
  · obtain ⟨r₀, rfl, hmakes⟩ := hmakes
    have hempty : t.system.written x t.contents (.names r₀) = .empty := if_pos hmakes
    rw [hempty]
    exact recorded_empty L s' x v'
  · have hleaves : ∀ r₀, r = .names r₀ → ¬ t.system.fs.Makes r₀ x :=
      fun r₀ hr hr₀ => hmakes ⟨r₀, hr, hr₀⟩
    cases hfile : t.system.iNodeManager.fileAt x with
    | none =>
      -- a number that is no file stays none
      have hund := hserved.undisturbed hleaves fun _ => hfile
      rw [hund.file, hfile] at hfile'
      cases hfile'
    | some v =>
      by_cases htarget : r.target = some x
      · exact hserved.recorded h.serving.sized htarget hfile hfile' (h.recorded v hfile)
      · have hund := hserved.undisturbed hleaves fun heq => absurd heq htarget
        rw [hund.file, hfile] at hfile'
        obtain rfl := Option.some.inj hfile'
        rw [written_of_target hleaves htarget]
        exact (h.recorded v hfile).mono hund.blockList hund.heaps

/-- **After any run of requests** what was written to the file is where the system looks for it. -/
theorem inv_run {process : Ids} {requests : List FuseRequest} {t : Watched}
    (hrun : run (step L entrySize x) (mounted process) requests = some t) : Inv L x t :=
  invariant_always (fun _ _ _ hI hstep => step_inv hI hstep) (inv_mounted L x process) hrun

end Watched

end DagonFs
