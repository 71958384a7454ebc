import DagonFs.ClientServer.FileState
import DagonFs.Lib.Runs

/-!
# When a distributed read is well addressed

A block list records, for each block, the address that the last distributed write of that block has
left; the rank it belongs to follows from the number of blocks of that write.  A read computes the
owners from the number of blocks the file has when it is opened, and `FuseSetAttr` can change that
number without a write.

`Traced` keeps with the system the numbers of blocks of the distributed writes of every inode.  Over
every run of file requests, `sameOwners_iff` says exactly when an open is well addressed: each block
was written, and its last write gave it the owner that the read computes.
-/

namespace DagonFs

open DagonFs.Lib.BlockSplit DagonFs.Lib.Runs

namespace System

/-- The inode and the size of the distributed write that a request is answered with. -/
def distributes (s : System) : Request → Option (ℕ × ℕ)
  | .flush ino =>
    match s.iNodeManager.fileAt ino with
    | none => none
    | some v =>
      if v.file.mBuf.isSome ∧ v.file.isWaitingForDistributedWrite = true then some (ino, v.stSize)
      else none
  | _ => none

/-- A request that opens a file with its content finds every address it needs. -/
def LoadsWellAddressed (L : Launch) (s : System) : Request → Prop
  | .open ino flags => ∀ v, s.iNodeManager.fileAt ino = some v → opensForWriting flags = false →
      WellAddressed L s ino (numberOfBlocks L.blockSize v.stSize)
  | _ => True

/-! ### What requests do to the blocks -/

/-- Nothing is stored, and no list is changed. -/
structure SameBlocks (s s' : System) : Prop where
  blockList : s'.blockList = s.blockList
  heaps : s'.heaps = s.heaps
  queue : s'.iNodeManager.deletedINodes = s.iNodeManager.deletedINodes

theorem SameBlocks.refl (s : System) : SameBlocks s s := ⟨rfl, rfl, rfl⟩

/-- Whatever state the handler ends with has the blocks of `s`. -/
def Keeps (s : System) (res : Result) : Prop :=
  ∀ s' replies, res = some (s', replies) → SameBlocks s s'

variable {L : Launch} {s : System}

theorem keeps_none : Keeps s none := by
  intro s' replies h
  cases h

theorem keeps_some {s' : System} {replies : List Reply} (h : SameBlocks s s') :
    Keeps s (some (s', replies)) := by
  intro s₁ r hr
  obtain ⟨rfl, -⟩ := Prod.mk.inj (Option.some.inj hr)
  exact h

theorem keeps_reply (r : Reply) : Keeps s (s.reply r) := keeps_some (SameBlocks.refl s)

theorem keeps_ite {p : Prop} [Decidable p] {res res' : Result} (h : Keeps s res) (h' : Keeps s res') :
    Keeps s (if p then res else res') := by
  split
  · exact h
  · exact h'

theorem sameBlocks_modifyINode (ino : ℕ) (f : INode → INode) : SameBlocks s (s.modifyINode ino f) :=
  ⟨rfl, rfl, rfl⟩

theorem keeps_withINode {ino : ℕ} {k : INode → Result} (h : ∀ inode, Keeps s (k inode)) :
    Keeps s (s.withINode ino k) := by
  unfold withINode
  split
  · exact keeps_reply _
  · cases s.iNodeManager.getINodeByINodeNumber ino with
    | none => exact keeps_none
    | some inode => exact h inode

theorem keeps_open (ino flags : ℕ) : Keeps s (s.fuseOpen L ino flags) := by
  refine keeps_withINode fun inode => ?_
  split
  · exact keeps_reply _
  · split
    · exact keeps_some (sameBlocks_modifyINode _ _)
    · cases s.dagonFS_Read L ⟨ino, inode.attr.stSize, inode.attr.stSize, 0⟩ with
      | none => exact keeps_none
      | some buf => exact keeps_some (sameBlocks_modifyINode _ _)
  · exact keeps_reply _

theorem keeps_read (ino size off : ℕ) : Keeps s (s.fuseRead ino size off) := by
  refine keeps_withINode fun inode => ?_
  split
  · exact keeps_reply _
  · exact keeps_reply _
  · exact keeps_reply _
  · exact keeps_ite keeps_none (keeps_ite (keeps_reply _) keeps_none)

theorem keeps_write (ino : ℕ) (buf : Option (List UInt8)) (off : ℕ) (junk : ℕ → UInt8) :
    Keeps s (s.fuseWrite L ino buf off junk) := by
  unfold fuseWrite
  split
  · exact keeps_reply _
  · refine keeps_withINode fun inode => ?_
    split
    · exact keeps_reply _
    · exact keeps_reply _
    · exact keeps_reply _
    · exact keeps_ite (keeps_some ⟨rfl, rfl, rfl⟩) keeps_none

theorem keeps_setAttr (ino : ℕ) (attr : Stat) (toSet : ℕ) : Keeps s (s.fuseSetAttr ino attr toSet) := by
  unfold fuseSetAttr
  cases s.iNodeManager.getINodeByINodeNumber ino with
  | none => exact keeps_none
  | some inode => exact keeps_some (sameBlocks_modifyINode _ _)

theorem keeps_release (ino : ℕ) : Keeps s (s.fuseRelease ino) := by
  refine keeps_withINode fun inode => ?_
  split
  · exact keeps_reply _
  · exact keeps_some (sameBlocks_modifyINode _ _)

/-- A creation finds the queue of deleted inodes empty, and gives the new inode an empty list at most. -/
theorem keeps_create (ctx : Ids) (parent : ℕ) (name : Name) (flags : ℕ)
    (hqueue : s.iNodeManager.deletedINodes = []) : Keeps s (s.fuseCreate ctx parent name flags) := by
  unfold fuseCreate
  rcases FileSystem.fuseCreate_spec s.fs ctx parent name flags hqueue with
    ⟨e, hrun⟩ | ⟨fs', attr, hrun, hqueue', hlists, -, -⟩
  · rw [hrun]
    exact keeps_some (SameBlocks.refl s)
  · rw [hrun]
    exact keeps_some ⟨funext hlists, rfl, hqueue'.trans hqueue.symm⟩

theorem fileAt_of_asFile {ino : ℕ} {inode : INode} {f : File}
    (hget : s.iNodeManager.getINodeByINodeNumber ino = some inode) (hf : inode.asFile = some f) :
    s.iNodeManager.fileAt ino = some ⟨inode.attr.stSize, inode.attr.stBlocks, f⟩ := by
  rw [Nodes.getINodeByINodeNumber] at hget
  rw [Nodes.fileAt, hget, Option.bind_some, INode.fileState, hf]
  rfl

/-- A flush that distributes nothing keeps the blocks. -/
theorem keeps_flush {ino : ℕ} (h : s.distributes (.flush ino) = none) : Keeps s (s.fuseFlush L ino) := by
  unfold fuseFlush withINode
  split
  · exact keeps_reply _
  cases hget : s.iNodeManager.getINodeByINodeNumber ino with
  | none => exact keeps_none
  | some inode =>
    rw [Option.bind_some]
    cases hf : inode.asFile with
    | none => exact keeps_none
    | some f =>
      rw [Option.bind_some]
      simp only [distributes, fileAt_of_asFile hget hf] at h
      cases hbuf : f.mBuf with
      | none => exact keeps_reply _
      | some buf =>
        dsimp only
        split
        · rename_i hw
          simp [hbuf, hw] at h
        · exact keeps_some (sameBlocks_modifyINode _ _)

/-- A flush that distributes a buffer leaves what that write leaves. -/
theorem flush_written {ino size x : ℕ} (h : s.distributes (.flush ino) = some (x, size)) {s' : System}
    {replies : List Reply} (hrun : s.fuseFlush L ino = some (s', replies)) :
    x = ino ∧ ∃ s₁ buf, Written L s s₁ buf ino (numberOfBlocks L.blockSize size) ∧
      SameBlocks s₁ s' := by
  cases hfile : s.iNodeManager.fileAt ino with
  | none => simp [distributes, hfile] at h
  | some v =>
    simp only [distributes, hfile] at h
    split at h
    · rename_i hcond
      obtain ⟨rfl, rfl⟩ := Prod.mk.inj (Option.some.inj h)
      obtain ⟨buf, hbuf⟩ := Option.isSome_iff_exists.mp hcond.1
      obtain ⟨i, hsize, -, hkind, hwith⟩ := withINode_file hfile
      simp only [fuseFlush, hwith, INode.asFile, hkind, Option.bind_some, hbuf, hcond.2, if_pos,
        hsize] at hrun
      obtain ⟨s₁, hwrite, hs'⟩ := Option.map_eq_some_iff.mp hrun
      obtain ⟨s₂, hspec, hwritten⟩ := dagonFS_Write_spec ino (le_of_dagonFS_Write hwrite) (s := s)
      obtain rfl : s₁ = s₂ := Option.some.inj (hwrite.symm.trans hspec)
      obtain ⟨rfl, -⟩ := Prod.mk.inj hs'
      exact ⟨rfl, s₁, buf, hwritten, sameBlocks_modifyINode _ _⟩
    · cases h

/-- **What one request does to the blocks**: nothing, or one distributed write. -/
theorem handle_blocks {r : Request} {s' : System} {replies : List Reply}
    (hqueue : s.iNodeManager.deletedINodes = []) (hrun : s.handle L r = some (s', replies)) :
    (s.distributes r = none ∧ SameBlocks s s') ∨
      ∃ ino size s₁ buf, s.distributes r = some (ino, size) ∧
        Written L s s₁ buf ino (numberOfBlocks L.blockSize size) ∧ SameBlocks s₁ s' := by
  cases r with
  | create ctx parent name flags =>
    exact Or.inl ⟨rfl, keeps_create ctx parent name flags hqueue s' replies hrun⟩
  | «open» ino flags => exact Or.inl ⟨rfl, keeps_open ino flags s' replies hrun⟩
  | read ino size off => exact Or.inl ⟨rfl, keeps_read ino size off s' replies hrun⟩
  | write ino buf off junk => exact Or.inl ⟨rfl, keeps_write ino buf off junk s' replies hrun⟩
  | setAttr ino attr toSet => exact Or.inl ⟨rfl, keeps_setAttr ino attr toSet s' replies hrun⟩
  | release ino => exact Or.inl ⟨rfl, keeps_release ino s' replies hrun⟩
  | flush ino =>
    cases hd : s.distributes (.flush ino) with
    | none => exact Or.inl ⟨rfl, keeps_flush hd s' replies hrun⟩
    | some d =>
      obtain ⟨x, size⟩ := d
      obtain ⟨rfl, s₁, buf, hwritten, hsame⟩ := flush_written hd hrun
      exact Or.inr ⟨x, size, s₁, buf, rfl, hwritten, hsame⟩

end System

/-! ### Runs -/

/-- The system with, for each inode, the numbers of blocks of its distributed writes in order. -/
structure Traced where
  system : System
  flushed : ℕ → List ℕ

/-- The number of blocks of the last of these writes that wrote block `i`. -/
def lastCover (writes : List ℕ) (i : ℕ) : Option ℕ :=
  writes.foldl (fun last blocks => if i < blocks then some blocks else last) none

theorem lastCover_snoc (writes : List ℕ) (blocks i : ℕ) :
    lastCover (writes ++ [blocks]) i = if i < blocks then some blocks else lastCover writes i := by
  simp [lastCover, List.foldl_append]

namespace Traced

variable (L : Launch) (t : Traced)

def mounted (process : Ids) : Traced := ⟨System.mounted process, fun _ => []⟩

/-- One more distributed write of `ino`. -/
def record (flushed : ℕ → List ℕ) (ino blocks : ℕ) : ℕ → List ℕ :=
  Function.update flushed ino (flushed ino ++ [blocks])

def step (r : System.Request) : Option Traced :=
  (t.system.handle L r).map fun res =>
    ⟨res.1, (t.system.distributes r).elim t.flushed fun d =>
      record t.flushed d.1 (numberOfBlocks L.blockSize d.2)⟩

/-- When a file is opened with its content: each block of the file was written by some flush, and the
last flush that wrote it had a number of blocks that gives the block the owner it has by the size of
the file now. -/
def SameOwners : System.Request → Prop
  | .open ino flags => ∀ v, t.system.iNodeManager.fileAt ino = some v → opensForWriting flags = false →
      ∀ i < numberOfBlocks L.blockSize v.stSize, ∃ blocks, lastCover (t.flushed ino) i = some blocks ∧
        owner blocks L.mpiWorldSize i =
          owner (numberOfBlocks L.blockSize v.stSize) L.mpiWorldSize i
  | _ => True

/-- The lists hold what the writes have left: for each block that was written an address of the owner
by the last write of the block, and nothing for the others. -/
structure Inv (L : Launch) (t : Traced) : Prop where
  queue : t.system.iNodeManager.deletedINodes = []
  written : ∀ x i blocks, lastCover (t.flushed x) i = some blocks → ∃ block index,
    (t.system.blockList x)[i]? = some block ∧
      block.getData = some ⟨owner blocks L.mpiWorldSize i, index⟩ ∧
      index < (t.system.heaps (owner blocks L.mpiWorldSize i)).length
  unwritten : ∀ x i, lastCover (t.flushed x) i = none → (t.system.blockList x)[i]? = none

variable {L : Launch} {t : Traced}

theorem inv_mounted (L : Launch) (process : Ids) : Inv L (mounted process) := by
  refine ⟨rfl, fun x i blocks h => ?_, fun x i _ => rfl⟩
  cases h

/-- A step that keeps the blocks keeps the invariant. -/
theorem Inv.keep (h : Inv L t) {s' : System} (hsame : System.SameBlocks t.system s') :
    Inv L ⟨s', t.flushed⟩ := by
  refine ⟨hsame.queue.trans h.queue, fun x i blocks hcover => ?_, fun x i hnone => ?_⟩
  · show ∃ block index, (s'.blockList x)[i]? = _ ∧ _ ∧ index < (s'.heaps _).length
    rw [hsame.blockList, hsame.heaps]
    exact h.written x i blocks hcover
  · show (s'.blockList x)[i]? = none
    rw [hsame.blockList]
    exact h.unwritten x i hnone

/-- **The step lemma of a distributed write**: the blocks it covers have the new owners, the blocks past
them and the blocks of other files keep theirs. -/
theorem Inv.distribute (h : Inv L t) {s₁ : System} {buf : List UInt8} {ino blocks : ℕ}
    (hw : System.Written L t.system s₁ buf ino blocks) :
    Inv L ⟨s₁, record t.flushed ino blocks⟩ := by
  have hgrow : ∀ rank index, index < (t.system.heaps rank).length → index < (s₁.heaps rank).length :=
    fun rank _ hlt => hlt.trans_le (hw.heaps rank).length_le
  refine ⟨?_, fun x i N hcover => ?_, fun x i hnone => ?_⟩
  · rw [← h.queue]
    exact congrArg Nodes.deletedINodes hw.iNodeManager
  · simp only [record] at hcover
    by_cases hx : x = ino
    · subst hx
      rw [Function.update_self, lastCover_snoc] at hcover
      split at hcover
      · rename_i hi
        obtain rfl := Option.some.inj hcover
        obtain ⟨block, hblock, index, hdata, hget⟩ := hw.new i hi
        exact ⟨block, index, hblock, hdata, (List.getElem?_eq_some_iff.mp hget).1⟩
      · rename_i hi
        obtain ⟨block, index, hblock, hdata, hlt⟩ := h.written x i N hcover
        exact ⟨block, index, (hw.old i (Nat.le_of_not_lt hi)).trans hblock, hdata, hgrow _ _ hlt⟩
    · rw [Function.update_of_ne hx] at hcover
      obtain ⟨block, index, hblock, hdata, hlt⟩ := h.written x i N hcover
      exact ⟨block, index, by rw [hw.others x hx]; exact hblock, hdata, hgrow _ _ hlt⟩
  · simp only [record] at hnone
    by_cases hx : x = ino
    · subst hx
      rw [Function.update_self, lastCover_snoc] at hnone
      split at hnone
      · cases hnone
      · rename_i hi
        exact (hw.old i (Nat.le_of_not_lt hi)).trans (h.unwritten x i hnone)
    · rw [Function.update_of_ne hx] at hnone
      show (s₁.blockList x)[i]? = none
      rw [hw.others x hx]
      exact h.unwritten x i hnone

theorem step_inv {r : System.Request} {t' : Traced} (h : Inv L t) (hstep : t.step L r = some t') :
    Inv L t' := by
  obtain ⟨⟨s', replies⟩, hrun, rfl⟩ := Option.map_eq_some_iff.mp hstep
  rcases System.handle_blocks h.queue hrun with ⟨hnone, hsame⟩ | ⟨ino, size, s₁, buf, hd, hw, hsame⟩
  · rw [hnone]
    exact h.keep hsame
  · rw [hd]
    exact (h.distribute hw).keep hsame

theorem inv_run {process : Ids} {requests : List System.Request}
    (hrun : run (step L) (mounted process) requests = some t) : Inv L t :=
  invariant_always (fun _ _ _ hI hstep => step_inv hI hstep) (inv_mounted L process) hrun

/-- **An open is well addressed exactly when its blocks have the owners of their last write.** -/
theorem loadsWellAddressed_iff (L : Launch) (process : Ids) (requests : List System.Request) (t : Traced)
    (hrun : run (step L) (mounted process) requests = some t) (r : System.Request) :
    t.system.LoadsWellAddressed L r ↔ t.SameOwners L r := by
  have hinv := inv_run hrun
  cases r with
  | «open» ino flags =>
    refine forall₃_congr fun v hfile hflags => ?_
    rw [System.wellAddressed_iff]
    refine forall₂_congr fun i hi => ?_
    constructor
    · rintro ⟨block, index, hblock, hdata, -⟩
      cases hcover : lastCover (t.flushed ino) i with
      | none =>
        rw [hinv.unwritten ino i hcover] at hblock
        cases hblock
      | some N =>
        obtain ⟨block', index', hblock', hdata', -⟩ := hinv.written ino i N hcover
        obtain rfl := Option.some.inj (hblock.symm.trans hblock')
        have haddress := Option.some.inj (hdata'.symm.trans hdata)
        exact ⟨N, rfl, congrArg Address.rank haddress⟩
    · rintro ⟨N, hcover, howner⟩
      obtain ⟨block, index, hblock, hdata, hlt⟩ := hinv.written ino i N hcover
      rw [howner] at hdata hlt
      exact ⟨block, index, hblock, hdata, hlt⟩
  | _ => exact Iff.rfl

/-- Two processes, blocks of four bytes: a file of two blocks that has been flushed is opened again. -/
theorem loadsWellAddressed_flushed :
    ∃ t, run (step ⟨2, 4, by decide, by decide⟩) (mounted ⟨0, 0⟩)
        [.create ⟨0, 0⟩ 1 [97] oRdwr, .write 2 (some [1, 2, 3, 4, 5]) 0 (fun _ => 0), .flush 2,
          .release 2] = some t ∧
      t.system.LoadsWellAddressed ⟨2, 4, by decide, by decide⟩ (.open 2 oRdwr) := by
  have hdefined : (run (step ⟨2, 4, by decide, by decide⟩) (mounted ⟨0, 0⟩)
      [.create ⟨0, 0⟩ 1 [97] oRdwr, .write 2 (some [1, 2, 3, 4, 5]) 0 (fun _ => 0), .flush 2,
        .release 2]).isSome := by decide +kernel
  obtain ⟨t, hrun⟩ := Option.isSome_iff_exists.mp hdefined
  refine ⟨t, hrun, (loadsWellAddressed_iff _ _ _ t hrun _).mpr fun v hfile _ i hi => ?_⟩
  have hsize : (some t).map (fun t => (t.system.iNodeManager.fileAt 2).map FileState.stSize) =
      some (some 5) := by
    rw [← hrun]
    decide +kernel
  have hflushed : (some t).map (fun t => t.flushed 2) = some [2] := by
    rw [← hrun]
    decide +kernel
  rw [Option.map_some, hfile, Option.some.injEq, Option.map_some, Option.some.injEq] at hsize
  rw [Option.map_some, Option.some.injEq] at hflushed
  rw [hsize] at hi ⊢
  rw [hflushed]
  exact ⟨2, if_pos hi, rfl⟩

/-- **An open is not always well addressed.**  A file that has just been created is given a size: it
has no block, and the next open with its content indexes an empty list. -/
theorem not_loadsWellAddressed_of_run :
    ¬ ∀ (L : Launch) (process : Ids) (requests : List System.Request) (t : Traced),
      run (step L) (mounted process) requests = some t →
      ∀ r, t.system.LoadsWellAddressed L r := by
  intro h
  have hdefined : (run (step ⟨1, 131072, by decide, by decide⟩) (mounted ⟨0, 0⟩)
      [.create ⟨0, 0⟩ 1 [97] oRdwr, .flush 2, .release 2,
        .setAttr 2 ⟨0, 0, 0, 0, 1, 0⟩ fuseSetAttrSize]).isSome := by decide +kernel
  obtain ⟨t, hrun⟩ := Option.isSome_iff_exists.mp hdefined
  have hsize : (some t).map (fun t => (t.system.iNodeManager.fileAt 2).map FileState.stSize) =
      some (some 1) := by
    rw [← hrun]
    decide +kernel
  have hlist : (some t).map (fun t => t.system.blockList 2) = some [] := by
    rw [← hrun]
    decide +kernel
  obtain ⟨v, hfile, hv⟩ := Option.map_eq_some_iff.mp (Option.some.inj hsize)
  have hlist' : t.system.blockList 2 = [] := Option.some.inj hlist
  obtain ⟨block, hblock, -⟩ := (h _ _ _ t hrun (.open 2 0) v hfile rfl).entries 0 (by rw [hv]; decide)
  rw [hlist'] at hblock
  cases hblock

end Traced

end DagonFs
