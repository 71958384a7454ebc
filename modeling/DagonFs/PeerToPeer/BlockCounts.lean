import DagonFs.ClientServer.Overwrites
import DagonFs.PeerToPeer.Sizes

/-!
# Block counts after distributed writes

`FuseWrite` takes `st_blocks` for the number of blocks in the buffer.  At the source of a distributed write it
counts the blocks of the size; every other peer takes it from the length of its block list, which gets longer
with a file that has grown and never gets shorter.

* `Distributed`: what a completed write leaves, at its source and at the others; `run_ends`: every sequence of
  writes completes.
* `blocksMatch_iff`: after a sequence of writes the counts are those of the last size exactly when no other
  peer's block list was longer before it.
* `fuseWrite_overruns`: where one was longer, a later write runs past the buffer.
-/

namespace DagonFs

open DagonFs.Nodes DagonFs.Lib.Buffer DagonFs.Lib.Runs

namespace PeerToPeer

/-- The block count that a peer has for an inode. -/
def Peer.stBlocks (p : Peer) (inode : ℕ) : Option ℕ :=
  (p.iNodeManager.getINodeByINodeNumber inode).map fun i => i.attr.stBlocks

/-- A file that is written in one session. -/
structure FileWrite where
  rank : ℕ
  flags : ℕ
  /-- `O_TRUNC` is set, or `O_WRONLY`, which `FuseOpen` does not tell from it. -/
  cuts : opensForWriting flags = true
  writes : List SessionWrite

namespace FileWrite

variable (L : Launch) (w : FileWrite)

/-- The writes reach up to here. -/
def fileSize : ℕ := extent (w.writes.map SessionWrite.patch)

def blocks : ℕ := w.fileSize ⌈/⌉ L.blockSize

/-- The open and the writes. -/
def events (x : ℕ) : List FileEvent :=
  .open w.rank x w.flags :: w.writes.map fun c => .write (some c.patch.data) c.patch.off c.junk

/-- The bytes of a file in one write. -/
def ofBytes (rank : ℕ) (data : List UInt8) : FileWrite :=
  ⟨rank, oWronly ||| oTrunc, rfl, [⟨⟨0, data⟩, fun _ => 0⟩]⟩

end FileWrite

namespace Peers

variable (L : Launch) (x : ℕ) (s : Peers)

def stBlocks (rank : ℕ) : Option ℕ := (s.processes rank).peer.stBlocks x

def blockList (rank : ℕ) : List DataBlock := (s.processes rank).peer.blockList x

/-- A completed distributed write of file `x`: a session whose flush stores the file. -/
def distribute (w : FileWrite) : Option Peers :=
  (run (step L) s (w.events x)).bind fun s =>
    if s.stores w.rank x then run (step L) s [.flush, .release] else none

/-- Every peer has the block count of the size, and it is the number of blocks in the buffer that an open loads
there. -/
def BlocksMatch (size : ℕ) : Prop :=
  ∀ t < L.mpiWorldSize, s.stBlocks x t = some (size ⌈/⌉ L.blockSize) ∧
    ∀ flags processes, opensForWriting flags = false →
      fuseOpen L s.processes t x flags = some (processes, [.opened]) →
        ∃ v, (processes t).fs.iNodeManager.fileAt x = some v ∧
          L.blockSize * v.stBlocks = v.file.bytes.length

end Peers

/-! ### One file of one process -/

/-- A handler has left file `x` of process `rank` as `v`, and touched no other process and no block list. -/
structure Edits (s s' : ℕ → Process) (rank x : ℕ) (v : FileState) : Prop where
  self : (s' rank).fs.iNodeManager.fileAt x = some v
  others : ∀ t, t ≠ rank → s' t = s t
  blockList : ∀ t, (s' t).peer.blockList = (s t).peer.blockList

variable {L : Launch} {s s' s'' : ℕ → Process} {rank x : ℕ} {v v' : FileState} {replies : List Reply}

theorem Edits.trans (h : Edits s s' rank x v) (h' : Edits s' s'' rank x v') : Edits s s'' rank x v' := by
  constructor
  case self => exact h'.self
  case others => exact fun t ht => (h'.others t ht).trans (h.others t ht)
  case blockList => exact fun t => (h'.blockList t).trans (h.blockList t)

theorem edits_update {fs : FileSystem} (hself : fs.iNodeManager.fileAt x = some v)
    (hlists : ∀ y, fs.blocksManager.getDataBlockListOfInode y = (s rank).peer.blockList y) :
    Edits s (Function.update s rank { s rank with fs := fs }) rank x v := by
  constructor
  case self =>
    rw [Function.update_self]
    exact hself
  case others => exact fun t ht => Function.update_of_ne ht _ _
  case blockList =>
    intro t
    funext y
    by_cases ht : t = rank
    · subst ht
      rw [Function.update_self]
      exact hlists y
    · rw [Function.update_of_ne ht]

theorem edits_modifyINode {f : INode → INode} (hfile : (s rank).fs.iNodeManager.fileAt x = some v)
    (hf : ∀ i : INode, i.fileState = some v → (f i).fileState = some v') :
    Edits s (modifyINode s rank x f) rank x v' :=
  edits_update (fileAt_modifyINode_self hfile hf) fun _ => rfl

theorem edits_locally {res : System.Result} {s₁ : System} {r : List Reply} (hres : res = some (s₁, r))
    (he : System.Edited (s rank).system s₁ x v) (h : locally s rank res = some (s', replies)) :
    Edits s s' rank x v := by
  rw [hres] at h
  obtain ⟨rfl, -⟩ := Prod.mk.inj (Option.some.inj h)
  exact edits_update he.self fun y => congrFun he.blockList y

theorem stat_of_fileAt {p : Process} (h : p.fs.iNodeManager.fileAt x = some v) :
    p.peer.stSize x = some v.stSize ∧ p.peer.stBlocks x = some v.stBlocks := by
  obtain ⟨i, hget, hi⟩ := Option.bind_eq_some_iff.mp h
  obtain ⟨hsize, hblocks, -⟩ := INode.fileState_eq_some hi
  have hstat : p.peer.iNodeManager.getINodeByINodeNumber x = some i := hget
  rw [Peer.stSize, Peer.stBlocks, hstat, Option.map_some, Option.map_some, hsize, hblocks]
  exact ⟨rfl, rfl⟩

/-! ### The handlers -/

/-- An open that succeeds cuts the file or loads it. -/
theorem fuseOpen_edits {flags : ℕ} (h : fuseOpen L s rank x flags = some (s', [.opened])) :
    ∃ v, (s rank).fs.iNodeManager.fileAt x = some v ∧
      if opensForWriting flags then Edits s s' rank x { v with stSize := 0, stBlocks := 0 }
      else ∃ buf, dagonFS_Read L (fun r => (s r).peer) rank ⟨x, v.stSize, v.stSize, 0⟩ = some buf ∧
        Edits s s' rank x { v with file := { v.file with mBuf := buf } } := by
  unfold fuseOpen withINode at h
  split at h
  · cases h
  obtain ⟨inode, hget, h⟩ := Option.bind_eq_some_iff.mp h
  cases hkind : inode.kind with
  | file f =>
    have hfile : (s rank).fs.iNodeManager.fileAt x = some ⟨inode.attr.stSize, inode.attr.stBlocks, f⟩ := by
      rw [getINodeByINodeNumber] at hget
      rw [fileAt, hget, Option.bind_some, INode.fileState, INode.asFile, hkind]
      rfl
    refine ⟨_, hfile, ?_⟩
    simp only [hkind] at h
    split at h
    · rename_i hflags
      rw [if_pos hflags]
      obtain ⟨rfl, -⟩ := Prod.mk.inj (Option.some.inj h)
      exact edits_modifyINode hfile fun _ => System.clearSize_fileState
    · rename_i hflags
      rw [if_neg hflags]
      obtain ⟨buf, hread, hend⟩ := Option.map_eq_some_iff.mp h
      obtain ⟨rfl, -⟩ := Prod.mk.inj hend
      exact ⟨buf, hread, edits_modifyINode hfile fun i hi => System.onFile_fileState _ hi⟩
  | directory | symbolicLink | specialINode =>
    simp only [hkind] at h
    cases h

theorem withINode_file (hfile : (s rank).fs.iNodeManager.fileAt x = some v) :
    ∃ i : INode, i.attr.stSize = v.stSize ∧ i.kind = .file v.file ∧
      ∀ k : INode → PeersResult, withINode s rank x k = k i := by
  obtain ⟨i, hget, hi⟩ := Option.bind_eq_some_iff.mp hfile
  obtain ⟨hsize, -, hkind⟩ := INode.fileState_eq_some hi
  refine ⟨i, hsize, hkind, fun k => ?_⟩
  rw [withINode, getNumberOfINodes, if_neg (Nat.not_le.mpr (lt_of_fileAt hfile)), getINodeByINodeNumber, hget]
  rfl

section File

variable (hfile : (s rank).fs.iNodeManager.fileAt x = some v)
include hfile

theorem fuseOpen_cuts {flags : ℕ} (hflags : opensForWriting flags = true) :
    fuseOpen L s rank x flags = some (modifyINode s rank x FileSystem.clearSize, [.opened]) := by
  obtain ⟨i, -, hkind, hwith⟩ := withINode_file hfile
  simp only [fuseOpen, hwith, hkind, if_pos hflags]

theorem fuseWrite_edits {data : List UInt8} {off : ℕ} {junk : ℕ → UInt8}
    (h : fuseWrite L s rank x (some data) off junk = some (s', replies)) :
    Edits s s' rank x (v.wrote L off data junk) := by
  obtain ⟨s₁, he, hwrite⟩ := System.fuseWrite_edited (s := (s rank).system) (L := L) hfile data off junk
  split at hwrite
  · exact edits_locally hwrite he h
  · -- the bytes do not fit the buffer
    rw [fuseWrite, hwrite] at h
    cases h

theorem fuseRelease_file : ∃ s', fuseRelease s rank x = some (s', [.ok]) ∧
    Edits s s' rank x { v with file := v.file.freeBuf } := by
  obtain ⟨s₁, hrelease, he⟩ := System.fuseRelease_file (s := (s rank).system) hfile
  have hlocal : fuseRelease s rank x = some (_, [.ok]) := congrArg (locally s rank) hrelease
  exact ⟨_, hlocal, edits_locally hrelease he hlocal⟩

/-- A flush of a buffer that has been written is a distributed write, with the size of the file. -/
theorem fuseFlush_eq {buf : List UInt8} (hbuf : v.file.mBuf = some buf)
    (hwaiting : v.file.isWaitingForDistributedWrite = true) :
    fuseFlush L s rank x = (dagonFS_Write L (fun r => (s r).peer) rank buf x v.stSize).map fun peers =>
      (modifyINode (fun r => (s r).setPeer (peers r)) rank x
        (System.onFile fun f => f.removeWaiting.freeBuf), [.ok]) := by
  obtain ⟨i, hsize, hkind, hwith⟩ := withINode_file hfile
  simp only [fuseFlush, hwith, INode.asFile, hkind, Option.bind_some, hbuf, if_pos hwaiting, hsize]

end File

/-- The end of a distributed write on one rank: the block list has the blocks of the file, and what it had
more. -/
theorem finishWrite_counts {sourceRank t fileSize : ℕ} {p p' : Peer} {heap : Heap}
    {addresses : List (Option Address)}
    (h : DistributedCode.finishWrite L sourceRank t p x fileSize heap addresses = some p') :
    (p'.blockList x).length = max (p.blockList x).length (numberOfBlocks L.blockSize fileSize) ∧
      if t = sourceRank then p'.iNodeManager = p.iNodeManager
      else p'.stSize x = some fileSize ∧ p'.stBlocks x = some (p'.blockList x).length := by
  unfold DistributedCode.finishWrite at h
  have hlist : ∀ l : List DataBlock, (p.blocksManager.setBlockListForInode x
      l).getDataBlockListOfInode x = l := fun l => Blocks.getDataBlockListOfInode_set ..
  have hlength := recordAddresses_length L x (numberOfBlocks L.blockSize fileSize) addresses (p.blockList x)
  split at h
  · rename_i hsource
    rw [if_pos hsource]
    obtain rfl := Option.some.inj h
    refine ⟨?_, rfl⟩
    rw [← hlength]
    exact congrArg List.length (hlist _)
  · rename_i hsource
    rw [if_neg hsource]
    obtain ⟨i, hget, rfl⟩ := Option.map_eq_some_iff.mp h
    have hset : (p.iNodeManager.modifyINode x (DistributedCode.setSize fileSize (recordAddresses L x
        (numberOfBlocks L.blockSize fileSize) addresses (p.blockList x)).length)).iNodes[x]? =
          some (DistributedCode.setSize fileSize (recordAddresses L x
            (numberOfBlocks L.blockSize fileSize) addresses (p.blockList x)).length i) := by
      rw [getINodeByINodeNumber] at hget
      rw [modifyINode_getElem?, if_pos rfl, hget]
      rfl
    refine ⟨?_, ?_, ?_⟩
    · rw [← hlength]
      exact congrArg List.length (hlist _)
    · rw [Peer.stSize, getINodeByINodeNumber, hset]
      rfl
    · rw [Peer.stBlocks, getINodeByINodeNumber, hset, Option.map_some]
      exact congrArg (fun l : List DataBlock => some l.length) (hlist _).symm

theorem setSize_fileState {fileSize blocks : ℕ} {i : INode} (h : i.fileState = some v) :
    (DistributedCode.setSize fileSize blocks i).fileState = some ⟨fileSize, blocks, v.file⟩ := by
  obtain ⟨_, _, _, _, k⟩ := i
  cases k with
  | file f =>
    obtain rfl := Option.some.inj h
    rfl
  | _ => cases h

theorem finishWrite_fileAt {sourceRank t fileSize : ℕ} {p p' : Peer} {heap : Heap}
    {addresses : List (Option Address)} (hne : t ≠ sourceRank) (hfile : p.iNodeManager.fileAt x = some v)
    (h : DistributedCode.finishWrite L sourceRank t p x fileSize heap addresses = some p') :
    ∃ blocks, p'.iNodeManager.fileAt x = some ⟨fileSize, blocks, v.file⟩ := by
  unfold DistributedCode.finishWrite at h
  rw [if_neg hne] at h
  obtain ⟨i, -, rfl⟩ := Option.map_eq_some_iff.mp h
  exact ⟨_, fileAt_modifyINode_self hfile fun _ => setSize_fileState⟩

/-- What a flush does after its distributed write. -/
theorem flushed_edits {peers : ℕ → Peer} {buf : List UInt8} {fileSize : ℕ} (hsource : rank < L.mpiWorldSize)
    (hfile : (s rank).fs.iNodeManager.fileAt x = some v)
    (hwrite : dagonFS_Write L (fun r => (s r).peer) rank buf x fileSize = some peers) :
    Edits (fun r => (s r).setPeer (peers r)) (modifyINode (fun r => (s r).setPeer (peers r)) rank x
      (System.onFile fun f => f.removeWaiting.freeBuf)) rank x
        { v with file := v.file.removeWaiting.freeBuf } := by
  obtain ⟨_, _, hend⟩ := dagonFS_Write_ends hwrite hsource
  have hnodes := (finishWrite_counts hend).2
  rw [if_pos rfl] at hnodes
  have hkept : ((s rank).setPeer (peers rank)).fs.iNodeManager.fileAt x = some v := by
    show (peers rank).iNodeManager.fileAt x = some v
    rw [hnodes]
    exact hfile
  exact edits_modifyINode hkept fun i hi => System.onFile_fileState _ hi

/-! ### A completed write -/

namespace Peers

/-- The writes of an open handle. -/
theorem run_writes_edits {processes : ℕ → Process} {unsent : Bool} {p : Peers} {v : FileState}
    (hfile : (processes rank).fs.iNodeManager.fileAt x = some v) (writes : List SessionWrite)
    (h : run (step L) ⟨processes, some ⟨rank, x, unsent⟩⟩
      (writes.map fun c => .write (some c.patch.data) c.patch.off c.junk) = some p) :
    (∃ unsent', p.session = some ⟨rank, x, unsent'⟩) ∧
      Edits processes p.processes rank x (v.wroteAll L writes) := by
  induction writes generalizing processes unsent v with
  | nil =>
    obtain rfl := Option.some.inj h
    exact ⟨⟨unsent, rfl⟩, hfile, fun _ _ => rfl, fun _ => rfl⟩
  | cons c writes ih =>
    obtain ⟨p₁, hstep, hrest⟩ := Option.bind_eq_some_iff.mp h
    obtain ⟨⟨processes₁, replies⟩, hwrite, rfl⟩ := Option.map_eq_some_iff.mp hstep
    have he : Edits processes processes₁ rank x _ := fuseWrite_edits hfile hwrite
    obtain ⟨hsession, he'⟩ := ih he.self hrest
    exact ⟨hsession, he.trans he'⟩

/-- No handle is opened by writes. -/
theorem session_of_run_writes {p p' : Peers} (hclosed : p.session = none) {writes : List SessionWrite}
    (h : run (step L) p (writes.map fun c => .write (some c.patch.data) c.patch.off c.junk) = some p') :
    p'.session = none := by
  cases writes with
  | nil =>
    obtain rfl := Option.some.inj h
    exact hclosed
  | cons c writes =>
    obtain ⟨p₁, hstep, -⟩ := Option.bind_eq_some_iff.mp h
    rw [step, hclosed] at hstep
    cases hstep

/-- What a completed write leaves. -/
structure Distributed (L : Launch) (x : ℕ) (w : FileWrite) (s s' : Peers) : Prop where
  source : w.rank < L.mpiWorldSize
  lists : ∀ t < L.mpiWorldSize, (s'.blockList x t).length = max (s.blockList x t).length (w.blocks L)
  size : ∀ t < L.mpiWorldSize, (s'.processes t).peer.stSize x = some w.fileSize
  stBlocks : ∀ t < L.mpiWorldSize,
    s'.stBlocks x t = some (if t = w.rank then w.blocks L else (s'.blockList x t).length)
  closed : s'.session = none
  freed : ∃ v, (s'.processes w.rank).fs.iNodeManager.fileAt x = some v ∧ v.file.mBuf = none
  kept : ∀ t < L.mpiWorldSize, t ≠ w.rank → ∀ v, (s.processes t).fs.iNodeManager.fileAt x = some v →
    ∃ v', (s'.processes t).fs.iNodeManager.fileAt x = some v' ∧ v'.file = v.file

/-- The distributed write of a flush, and the edits of its source after it. -/
theorem distributed_of_write {s s' : Peers} {w : FileWrite} {v v' : FileState} {processes : ℕ → Process}
    {peers : ℕ → Peer} {buf : List UInt8} (hsource : w.rank < L.mpiWorldSize)
    (he : Edits s.processes processes w.rank x v) (hsize : v.stSize = w.fileSize)
    (hblocks : v.stBlocks = w.blocks L)
    (hwrite : dagonFS_Write L (fun r => (processes r).peer) w.rank buf x v.stSize = some peers)
    (he' : Edits (fun r => (processes r).setPeer (peers r)) s'.processes w.rank x v')
    (hsame : v'.stSize = v.stSize ∧ v'.stBlocks = v.stBlocks) (hclosed : s'.session = none)
    (hfreed : v'.file.mBuf = none) : Distributed L x w s s' := by
  have hnumber : numberOfBlocks L.blockSize v.stSize = w.blocks L := by
    rw [hsize]
    exact numberOfBlocks_eq_ceilDiv L.blockSize_pos w.fileSize
  have hlist : ∀ t, s'.blockList x t = (peers t).blockList x := fun t => congrFun (he'.blockList t) x
  have hends : ∀ t < L.mpiWorldSize, ((peers t).blockList x).length =
      max (s.blockList x t).length (w.blocks L) ∧ (t ≠ w.rank →
        (peers t).stSize x = some v.stSize ∧ (peers t).stBlocks x = some ((peers t).blockList x).length) := by
    intro t ht
    obtain ⟨_, _, hend⟩ := dagonFS_Write_ends hwrite ht
    obtain ⟨hlength, hstat⟩ := finishWrite_counts hend
    rw [he.blockList t, hnumber] at hlength
    refine ⟨hlength, fun hne => ?_⟩
    rwa [if_neg hne] at hstat
  have hself := stat_of_fileAt he'.self
  rw [hsame.1, hsame.2, hsize, hblocks] at hself
  constructor
  case source => exact hsource
  case lists =>
    intro t ht
    rw [hlist]
    exact (hends t ht).1
  case size =>
    intro t ht
    by_cases hne : t = w.rank
    · rw [hne]
      exact hself.1
    · rw [he'.others t hne, ← hsize]
      exact ((hends t ht).2 hne).1
  case stBlocks =>
    intro t ht
    by_cases hne : t = w.rank
    · rw [if_pos hne, hne]
      exact hself.2
    · rw [if_neg hne, hlist, stBlocks, he'.others t hne]
      exact ((hends t ht).2 hne).2
  case closed => exact hclosed
  case freed => exact ⟨v', he'.self, hfreed⟩
  case kept =>
    intro t ht hne v₀ hfile
    obtain ⟨_, _, hend⟩ := dagonFS_Write_ends hwrite ht
    have hsame : (processes t).peer.iNodeManager.fileAt x = some v₀ := by
      rw [he.others t hne]
      exact hfile
    obtain ⟨blocks, hkept⟩ := finishWrite_fileAt hne hsame hend
    rw [he'.others t hne]
    exact ⟨_, hkept, rfl⟩

/-- **A completed write.** -/
theorem distribute_spec {s s' : Peers} {w : FileWrite} (h : s.distribute L x w = some s') :
    Distributed L x w s s' := by
  obtain ⟨s₁, hevents, hend⟩ := Option.bind_eq_some_iff.mp h
  split at hend
  case isFalse => cases hend
  rename_i hstores
  obtain ⟨s₂, hfirst, hwrites⟩ := Option.bind_eq_some_iff.mp hevents
  obtain ⟨s₃, hsecond, hlast⟩ := Option.bind_eq_some_iff.mp hend
  simp only [step] at hfirst
  split at hfirst
  case isFalse => cases hfirst
  rename_i hstart
  obtain ⟨⟨processes, replies⟩, hopen, rfl⟩ := Option.map_eq_some_iff.mp hfirst
  by_cases hreplies : replies = [.opened]
  case neg =>
    -- without a handle there is nothing to flush
    have hclosed := session_of_run_writes (if_neg hreplies) hwrites
    rw [step, hclosed] at hsecond
    cases hsecond
  subst hreplies
  rw [if_pos rfl] at hwrites
  -- the file that the flush stores
  obtain ⟨v₀, -, hopened⟩ := fuseOpen_edits hopen
  rw [if_pos w.cuts] at hopened
  obtain ⟨⟨unsent, hsession⟩, hwritten⟩ := run_writes_edits hopened.self w.writes hwrites
  generalize hv : FileState.wroteAll L { v₀ with stSize := 0, stBlocks := 0 } w.writes = v at hwritten
  have hsize : v.stSize = w.fileSize := by
    rw [← hv, FileState.stSize_wroteAll]
    exact Nat.zero_max _
  have hblocks : v.stBlocks = w.blocks L := by
    rw [← hv, FileState.stBlocks_wroteAll (numberOfBlocks_zero L.blockSize).symm, hv, hsize]
    exact numberOfBlocks_eq_ceilDiv L.blockSize_pos w.fileSize
  have hdirty : v.IsDirty := by
    rw [stores, hwritten.self, Option.any_some] at hstores
    exact of_decide_eq_true hstores
  obtain ⟨buf, hbuf⟩ := Option.isSome_iff_exists.mp hdirty.1
  -- the flush and the release
  rw [step, hsession] at hsecond
  obtain ⟨⟨processes₁, replies⟩, hflush, rfl⟩ := Option.map_eq_some_iff.mp hsecond
  rw [fuseFlush_eq hwritten.self hbuf hdirty.2] at hflush
  obtain ⟨peers, hwrite, hflush⟩ := Option.map_eq_some_iff.mp hflush
  obtain ⟨rfl, -⟩ := Prod.mk.inj hflush
  obtain ⟨s₄, hthird, hlast⟩ := Option.bind_eq_some_iff.mp hlast
  obtain rfl := Option.some.inj hlast
  obtain ⟨⟨processes₂, replies⟩, hrelease, rfl⟩ := Option.map_eq_some_iff.mp hthird
  have hflushed := flushed_edits hstart.1 hwritten.self hwrite
  obtain ⟨_, hanswer, hreleased⟩ := fuseRelease_file hflushed.self
  obtain ⟨rfl, -⟩ := Prod.mk.inj (Option.some.inj (hanswer.symm.trans hrelease))
  exact distributed_of_write hstart.1 (hopened.trans hwritten) hsize hblocks hwrite
    (hflushed.trans hreleased) ⟨rfl, rfl⟩ rfl rfl

/-! ### Every write completes -/

variable {s s' : Peers} {w : FileWrite} {t : ℕ}

/-- No handle is open, and every peer has the file. -/
structure Ready (L : Launch) (x : ℕ) (s : Peers) : Prop where
  closed : s.session = none
  files : ∀ t < L.mpiWorldSize, ∃ v, (s.processes t).fs.iNodeManager.fileAt x = some v ∧ v.file.mBuf = none

/-- The write is at a peer, and there is something to store. -/
def Writable (L : Launch) (w : FileWrite) : Prop := w.rank < L.mpiWorldSize ∧ 0 < w.fileSize

theorem run_writes_ends {processes : ℕ → Process} (unsent : Bool) {v : FileState}
    (hfile : (processes rank).fs.iNodeManager.fileAt x = some v) (hv : v.Whole L)
    (writes : List SessionWrite) : ∃ p, run (step L) ⟨processes, some ⟨rank, x, unsent⟩⟩
      (writes.map fun c => .write (some c.patch.data) c.patch.off c.junk) = some p := by
  induction writes generalizing processes unsent v with
  | nil => exact ⟨_, rfl⟩
  | cons c writes ih =>
    obtain ⟨s₁, he, hwrite⟩ := System.fuseWrite_edited (s := (processes rank).system) (L := L) hfile
      c.patch.data c.patch.off c.junk
    rw [if_pos (hv.fits _ _ _)] at hwrite
    have hlocal : fuseWrite L processes rank x (some c.patch.data) c.patch.off c.junk =
        some (_, [.write c.patch.data.length]) := congrArg (locally processes rank) hwrite
    obtain ⟨p, hrun⟩ := ih _ (fuseWrite_edits hfile hlocal).self (hv.wrote _ _ _)
    refine ⟨p, ?_⟩
    rw [List.map_cons, run_cons, step, Option.bind_some, hlocal]
    exact hrun

theorem Distributed.ready (h : Distributed L x w s s') (hs : Ready L x s) : Ready L x s' := by
  refine ⟨h.closed, fun t ht => ?_⟩
  by_cases hne : t = w.rank
  · rw [hne]
    exact h.freed
  · obtain ⟨v, hfile, hbuf⟩ := hs.files t ht
    obtain ⟨v', hfile', hsame⟩ := h.kept t ht hne v hfile
    exact ⟨v', hfile', by rw [hsame, hbuf]⟩

/-- The flush finds the blocks of the file in the buffer. -/
theorem flush_ends {p : Peers} {unsent : Bool} {v : FileState} (hsource : rank < L.mpiWorldSize)
    (hsession : p.session = some ⟨rank, x, unsent⟩)
    (hfile : (p.processes rank).fs.iNodeManager.fileAt x = some v) (hv : v.Whole L) (hdirty : v.IsDirty)
    (hregistered : ∀ t < L.mpiWorldSize, x < (p.processes t).peer.iNodeManager.iNodes.length) :
    (run (step L) p [.flush, .release]).isSome = true := by
  obtain ⟨buf, hbuf⟩ := Option.isSome_iff_exists.mp hdirty.1
  have hroom : numberOfBlocks L.blockSize v.stSize * L.blockSize ≤ buf.length := by
    rw [← hv.stBlocks, ← hv.bytes, File.bytes, hbuf]
    exact Nat.le_refl _
  obtain ⟨peers, hwrite, -⟩ := dagonFS_Write_spec hsource hroom hregistered
  have hflush := fuseFlush_eq (L := L) hfile hbuf hdirty.2
  rw [hwrite, Option.map_some] at hflush
  obtain ⟨_, hrelease, -⟩ := fuseRelease_file (flushed_edits hsource hfile hwrite).self
  simp only [run_cons, run_nil, step, hsession, Option.bind_some, hflush, Option.map_some, hrelease,
    Option.isSome_some]

/-- The step lemma: a session that writes a byte is a completed write. -/
theorem distribute_ends (h : Ready L x s) (hw : Writable L w) :
    ∃ s', s.distribute L x w = some s' ∧ Ready L x s' := by
  obtain ⟨hsource, hpos⟩ := hw
  obtain ⟨v₀, hfile₀, hbuf₀⟩ := h.files w.rank hsource
  have hopen := fuseOpen_cuts (L := L) hfile₀ w.cuts
  obtain ⟨_, hfile, hopened⟩ := fuseOpen_edits hopen
  obtain rfl := Option.some.inj (hfile₀.symm.trans hfile)
  rw [if_pos w.cuts] at hopened
  have hwhole : FileState.Whole L { v₀ with stSize := 0, stBlocks := 0 } := by
    refine ⟨(numberOfBlocks_zero L.blockSize).symm, ?_⟩
    rw [Nat.zero_mul, File.bytes, hbuf₀]
    rfl
  obtain ⟨s₁, hwrites⟩ := run_writes_ends (s.truncates w.rank x w.flags) hopened.self hwhole w.writes
  obtain ⟨⟨unsent, hsession⟩, hwritten⟩ := run_writes_edits hopened.self w.writes hwrites
  have hnonempty : w.writes ≠ [] := by
    intro hnil
    rw [FileWrite.fileSize, hnil] at hpos
    exact absurd hpos (Nat.lt_irrefl 0)
  have hdirty := hwhole.isDirty_wroteAll hnonempty (by
    rw [FileState.stSize_wroteAll]
    exact hpos.trans_le (Nat.le_max_right _ _))
  have hregistered : ∀ t < L.mpiWorldSize, x < (s₁.processes t).peer.iNodeManager.iNodes.length := by
    intro t ht
    by_cases hne : t = w.rank
    · rw [hne]
      exact lt_of_fileAt hwritten.self
    · obtain ⟨_, hfile, -⟩ := h.files t ht
      rw [(hopened.trans hwritten).others t hne]
      exact lt_of_fileAt hfile
  have hstores : s₁.stores w.rank x = true := by
    rw [stores, hwritten.self, Option.any_some]
    exact decide_eq_true hdirty
  obtain ⟨s', hend⟩ := Option.isSome_iff_exists.mp
    (flush_ends hsource hsession hwritten.self (hwhole.wroteAll w.writes) hdirty hregistered)
  have hdistribute : s.distribute L x w = some s' := by
    rw [distribute, FileWrite.events, run_cons, step,
      if_pos ⟨hsource, Option.isNone_iff_eq_none.mpr h.closed⟩, hopen, Option.map_some, Option.bind_some,
      if_pos rfl, hwrites, Option.bind_some, if_pos hstores, hend]
  exact ⟨s', hdistribute, (distribute_spec hdistribute).ready h⟩

/-- **Every sequence of writes completes.** -/
theorem run_ends (h : Ready L x s) (writes : List FileWrite) (hw : ∀ w ∈ writes, Writable L w) :
    ∃ s', run (distribute L x) s writes = some s' ∧ Ready L x s' :=
  progress_run (fun _ _ hready hok => distribute_ends hready hok) h (along_of_forall hw s)

/-! ### Sequences of writes -/

/-- The count of the last write is right at its source, and at a peer whose block list was not longer. -/
theorem Distributed.stBlocks_iff (h : Distributed L x w s s') (ht : t < L.mpiWorldSize) :
    s'.stBlocks x t = some (w.blocks L) ↔ (t ≠ w.rank → (s.blockList x t).length ≤ w.blocks L) := by
  rw [h.stBlocks t ht, Option.some_inj]
  by_cases hne : t = w.rank
  · simp only [hne, if_true, ne_eq, not_true_eq_false, false_imp_iff]
  · rw [if_neg hne, h.lists t ht, max_eq_right_iff]
    exact ⟨fun hle _ => hle, fun hle => hle hne⟩

/-- The run lemma: a block list is as long as the longest write, if it was not longer before. -/
theorem length_run (writes : List FileWrite) (hrun : run (distribute L x) s writes = some s')
    (ht : t < L.mpiWorldSize) (k : ℕ) : (s'.blockList x t).length ≤ k ↔
      (s.blockList x t).length ≤ k ∧ ∀ w ∈ writes, w.blocks L ≤ k := by
  induction writes generalizing s with
  | nil =>
    obtain rfl := Option.some.inj hrun
    simp
  | cons w writes ih =>
    obtain ⟨s₁, hstep, hrest⟩ := Option.bind_eq_some_iff.mp hrun
    rw [ih hrest, (distribute_spec hstep).lists t ht, max_le_iff, List.forall_mem_cons, and_assoc]

/-- An open that does not cut the file loads the blocks of its size. -/
theorem loads_blocks {processes : ℕ → Process} {flags size : ℕ}
    (hsize : (s.processes t).peer.stSize x = some size) (hflags : opensForWriting flags = false)
    (hopen : fuseOpen L s.processes t x flags = some (processes, [.opened])) :
    ∃ v, (processes t).fs.iNodeManager.fileAt x = some v ∧ s.stBlocks x t = some v.stBlocks ∧
      v.file.bytes.length = size ⌈/⌉ L.blockSize * L.blockSize := by
  obtain ⟨v, hfile, hloaded⟩ := fuseOpen_edits hopen
  rw [hflags] at hloaded
  obtain ⟨buf, hread, he⟩ := hloaded
  obtain ⟨hsame, hblocks⟩ := stat_of_fileAt hfile
  obtain rfl : size = v.stSize := Option.some.inj (hsize.symm.trans hsame)
  refine ⟨_, he.self, hblocks, ?_⟩
  rw [← numberOfBlocks_eq_ceilDiv L.blockSize_pos]
  exact length_of_dagonFS_Read hread

/-- **When the block counts are right.**  After a sequence of completed writes of a file, every peer has the
block count of the last size, and buffers of these blocks, exactly when before the last write no other peer
than its source had a longer block list: neither from the start nor from a larger write in between. -/
theorem blocksMatch_iff (writes : List FileWrite) (last : FileWrite)
    (hrun : run (distribute L x) s (writes ++ [last]) = some s') :
    s'.BlocksMatch L x last.fileSize ↔ ∀ t < L.mpiWorldSize, t ≠ last.rank →
      (s.blockList x t).length ≤ last.blocks L ∧ ∀ w ∈ writes, w.blocks L ≤ last.blocks L := by
  rw [run_append] at hrun
  obtain ⟨s₁, hearlier, hlast⟩ := Option.bind_eq_some_iff.mp hrun
  obtain ⟨s₂, hstep, hend⟩ := Option.bind_eq_some_iff.mp hlast
  obtain rfl := Option.some.inj hend
  have hwritten := distribute_spec hstep
  constructor
  · intro hmatch t ht hne
    rw [← length_run writes hearlier ht]
    exact (hwritten.stBlocks_iff ht).mp (hmatch t ht).1 hne
  · intro hshort t ht
    have hcount : s₂.stBlocks x t = some (last.blocks L) := by
      rw [hwritten.stBlocks_iff ht]
      intro hne
      rw [length_run writes hearlier ht]
      exact hshort t ht hne
    refine ⟨hcount, ?_⟩
    intro flags processes hflags hopen
    obtain ⟨v, hfile, hblocks, hlength⟩ := loads_blocks (hwritten.size t ht) hflags hopen
    refine ⟨v, hfile, ?_⟩
    have hsame : v.stBlocks = last.blocks L := Option.some.inj (hblocks.symm.trans hcount)
    rw [hlength, hsame, Nat.mul_comm]
    rfl

/-- A file grows from one block to two, which the other peer writes. -/
theorem blocksMatch_iff_grown : ∃ s s', run (step ⟨2, 4, by decide, by decide⟩) (mounted fun _ => ⟨0, 0⟩)
      [.create 0 ⟨0, 0⟩ (fun _ => 1) [97] oRdwr, .release] = some s ∧
    run (distribute ⟨2, 4, by decide, by decide⟩ 2) s
      [.ofBytes 0 [1, 2], .ofBytes 1 [1, 2, 3, 4, 5]] = some s' ∧
    s'.BlocksMatch ⟨2, 4, by decide, by decide⟩ 2 5 := by
  have hfacts : ((run (step ⟨2, 4, by decide, by decide⟩) (mounted fun _ => ⟨0, 0⟩)
      [.create 0 ⟨0, 0⟩ (fun _ => 1) [97] oRdwr, .release]).bind fun s =>
        (run (distribute ⟨2, 4, by decide, by decide⟩ 2) s
          [.ofBytes 0 [1, 2], .ofBytes 1 [1, 2, 3, 4, 5]]).map fun _ => (s.blockList 2 0).length) =
      some 0 := by decide +kernel
  obtain ⟨s, hstart, hrest⟩ := Option.bind_eq_some_iff.mp hfacts
  obtain ⟨s', hrun, hlength⟩ := Option.map_eq_some_iff.mp hrest
  refine ⟨s, s', hstart, hrun, ?_⟩
  apply (blocksMatch_iff [.ofBytes 0 [1, 2]] (.ofBytes 1 [1, 2, 3, 4, 5]) hrun).mpr
  intro t ht hne
  obtain rfl : t = 0 := by
    have hlt : t < 2 := ht
    have hother : t ≠ 1 := hne
    omega
  refine ⟨?_, ?_⟩
  · rw [hlength]
    exact Nat.zero_le _
  · intro w hw
    obtain rfl := List.mem_singleton.mp hw
    decide

/-- **A file that has shrunk keeps its blocks elsewhere.**  The first peer writes two blocks of a new file and the
second peer one: the first still counts two. -/
theorem not_blocksMatch : ¬ ∀ (L : Launch) (process : ℕ → Ids) (events : List FileEvent) (s s' : Peers) (x : ℕ)
    (writes : List FileWrite) (last : FileWrite), run (step L) (mounted process) events = some s →
      run (distribute L x) s (writes ++ [last]) = some s' → s'.BlocksMatch L x last.fileSize := by
  intro h
  have hfacts : ((run (step ⟨2, 4, by decide, by decide⟩) (mounted fun _ => ⟨0, 0⟩)
      [.create 0 ⟨0, 0⟩ (fun _ => 1) [97] oRdwr, .release]).bind fun s =>
        (run (distribute ⟨2, 4, by decide, by decide⟩ 2) s
          ([.ofBytes 0 [1, 2, 3, 4, 5]] ++ [.ofBytes 1 [6]])).map fun s' => s'.stBlocks 2 0) =
      some (some 2) := by decide +kernel
  obtain ⟨s, hstart, hrest⟩ := Option.bind_eq_some_iff.mp hfacts
  obtain ⟨s', hrun, hcount⟩ := Option.map_eq_some_iff.mp hrest
  have hmatch := (h _ _ _ s s' 2 _ _ hstart hrun 0 (by decide)).1
  rw [hcount] at hmatch
  exact absurd hmatch (by decide)

/-- **What too large a count does.**  A peer that had a longer block list opens the file after a write: the
buffer has the blocks of the file, `FuseWrite` counts more, and a byte behind the buffer is written without
growing it. -/
theorem fuseWrite_overruns (h : s.distribute L x w = some s') (ht : t < L.mpiWorldSize) (hne : t ≠ w.rank)
    (hlonger : w.blocks L < (s.blockList x t).length) {processes : ℕ → Process} {flags : ℕ}
    (hflags : opensForWriting flags = false)
    (hopen : fuseOpen L s'.processes t x flags = some (processes, [.opened])) (b : UInt8)
    (junk : ℕ → UInt8) : fuseWrite L processes t x (some [b]) (w.blocks L * L.blockSize) junk = none := by
  have hwritten := distribute_spec h
  obtain ⟨v, hfile, hblocks, hlength⟩ := loads_blocks (hwritten.size t ht) hflags hopen
  have hcount : v.stBlocks = (s.blockList x t).length := by
    have hsome := hwritten.stBlocks t ht
    rw [if_neg hne, hwritten.lists t ht, max_eq_left hlonger.le] at hsome
    exact Option.some.inj (hblocks.symm.trans hsome)
  have hbuffer : v.file.bytes.length = w.blocks L * L.blockSize := hlength
  have hroom : w.blocks L * L.blockSize + 1 ≤ L.blockSize * v.stBlocks := by
    have hmul := Nat.mul_le_mul_left L.blockSize (hcount ▸ hlonger)
    have hB := L.blockSize_pos
    rw [Nat.mul_succ, Nat.mul_comm] at hmul
    omega
  obtain ⟨s₁, -, hwrite⟩ := System.fuseWrite_edited (s := (processes t).system) (L := L) hfile [b]
    (w.blocks L * L.blockSize) junk
  have hkeeps : v.writeBuffer L (w.blocks L * L.blockSize) [b] junk = v.file.mBuf :=
    if_neg (Nat.not_lt.mpr hroom)
  have hshort : ¬ w.blocks L * L.blockSize + [b].length ≤
      ((v.writeBuffer L (w.blocks L * L.blockSize) [b] junk).getD []).length := by
    rw [hkeeps]
    show ¬ _ ≤ v.file.bytes.length
    rw [hbuffer, List.length_singleton]
    omega
  rw [fuseWrite, hwrite, if_neg hshort]
  rfl

end Peers

end PeerToPeer

end DagonFs
