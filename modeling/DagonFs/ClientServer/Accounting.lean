import DagonFs.ClientServer.Contents
import DagonFs.FileSystem.Accounting

/-!
# Free-space accounting

Whether the counters that `FuseStatfs` replies with are what the inode table says.  A write counts the
blocks that it adds, and the reuse of an inode number gives the blocks of the old inode back
(`serveStep_drift`); an open that drops the content of a file takes its blocks out of the table only
(`drops_drift`).  So the counters stay exact as long as no such open finds blocks (`countersExact_iff`).
-/

namespace DagonFs.System

open DagonFs.Nodes DagonFs.Lib.Runs

variable {L : Launch} {entrySize : Name → ℕ} {s s' : System} {ino : ℕ}

/-- The open does not drop blocks: if it drops the content of a file, the file has no blocks. -/
def DropsNoBlocks (s : System) : FuseRequest → Prop
  | .open ino flags _ =>
    opensForWriting flags = true → ∀ v ∈ s.iNodeManager.fileAt ino, v.stBlocks % 2 ^ 64 = 0
  | _ => True

instance : ∀ r, Decidable (s.DropsNoBlocks r)
  | .open ino flags _ => inferInstanceAs (Decidable (opensForWriting flags = true →
      ∀ v ∈ s.iNodeManager.fileAt ino, v.stBlocks % 2 ^ 64 = 0))
  | .names _ | .getAttr _ | .setAttr .. | .readLink _ | .read .. | .write .. | .flush .. | .release _
  | .fsync _ | .openDir _ | .readDir .. | .releaseDir _ | .fsyncDir _ | .statfs _ | .setXAttr ..
  | .getXAttr .. | .listXAttr .. | .removeXAttr .. | .access .. | .getLock _ => isTrue trivial

/-- An operation on the inode that does not touch its blocks. -/
theorem drift_onINode {f : INode → INode} (hf : KeepsBlocks f) (s : System) (ino : ℕ) :
    (s.modifyINode ino f).fs.drift = s.fs.drift := FileSystem.drift_modifyINode hf s.fs ino

theorem keepsBlocks_onFile (g : File → File) : KeepsBlocks (onFile g) := by
  intro i
  obtain ⟨_, _, _, _, k, _⟩ := i
  cases k <;> rfl

/-- A distributed write does not touch the inodes and the counters. -/
theorem dagonFS_Write_drift {buffer : List UInt8} {fileSize : ℕ}
    (h : s.dagonFS_Write L buffer ino fileSize = some s') : s'.fs.drift = s.fs.drift := by
  have hfit := le_of_dagonFS_Write h
  obtain ⟨localScatBuf, -, hwrite⟩ := dagonFS_Write_eq ino rfl hfit (s := s)
  obtain rfl := Option.some.inj (hwrite.symm.trans h)
  rfl

/-- **A write counts the blocks that it adds.** -/
theorem putWritten_drift {v v' : FileState} (hfile : s.iNodeManager.fileAt ino = some v) :
    (s.putWritten ino v v').fs.drift = s.fs.drift := by
  obtain ⟨i, hget, hi⟩ := Option.bind_eq_some_iff.mp hfile
  obtain ⟨-, hblocks, -⟩ := INode.fileState_eq_some hi
  have hchange := usedBlocks_modifyINode (putFile v'.stSize v'.stBlocks v'.file) hget
  rw [hblocks] at hchange
  have hchange : (s.fs.iNodeManager.modifyINode ino
      (putFile v'.stSize v'.stBlocks v'.file)).usedBlocks + v.stBlocks =
        s.fs.iNodeManager.usedBlocks + v'.stBlocks := hchange
  exact @FileSystem.drift_updateUsedBlocks s.fs (s.fs.iNodeManager.modifyINode ino
    (putFile v'.stSize v'.stBlocks v'.file)) _ (by omega) (modifyINode_length ..)

/-- **An open that drops the content** leaves the counters too low by the blocks of the file. -/
theorem drops_drift {v : FileState} (hfile : s.iNodeManager.fileAt ino = some v) :
    (s.modifyINode ino FileSystem.clearSize).fs.drift =
      { s.fs.drift with
        bfree := s.fs.drift.bfree - BitVec.ofNat 64 v.stBlocks
        bavail := s.fs.drift.bavail - BitVec.ofNat 64 v.stBlocks } := by
  obtain ⟨i, hget, hi⟩ := Option.bind_eq_some_iff.mp hfile
  obtain ⟨-, hblocks, -⟩ := INode.fileState_eq_some hi
  have hchange := usedBlocks_modifyINode FileSystem.clearSize hget
  rw [hblocks] at hchange
  have hused : BitVec.ofNat 64 s.fs.iNodeManager.usedBlocks =
      BitVec.ofNat 64 (s.fs.iNodeManager.modifyINode ino FileSystem.clearSize).usedBlocks +
        BitVec.ofNat 64 v.stBlocks := by
    rw [← BitVec.ofNat_add]
    exact congrArg _ hchange.symm
  have hcancel : ∀ free used dropped total : BitVec 64,
      free + used - total = free + (used + dropped) - total - dropped := by
    intro free used dropped total
    bv_omega
  have hlength : (s.fs.iNodeManager.modifyINode ino FileSystem.clearSize).iNodes.length =
      s.fs.iNodeManager.iNodes.length := modifyINode_length ..
  show (s.fs.setNodes (s.fs.iNodeManager.modifyINode ino FileSystem.clearSize)).drift = _
  simp only [FileSystem.drift, FileSystem.setNodes, hused, ← hcancel, getNumberOfINodes, hlength]

/-- Where the handler ends, the counters are off by as much as before. -/
def KeepsDrift (s : System) (res : Result) : Prop :=
  ∀ s' replies, res = some (s', replies) → s'.fs.drift = s.fs.drift

theorem KeepsDrift.some {replies : List Reply} (h : s'.fs.drift = s.fs.drift) :
    KeepsDrift s (some (s', replies)) := by
  intro s'' r hr
  obtain ⟨rfl, -⟩ := Prod.mk.inj (Option.some.inj hr)
  exact h

theorem KeepsDrift.map {α : Type} {o : Option α} {k : α → System × List Reply}
    (h : ∀ a, o = Option.some a → (k a).1.fs.drift = s.fs.drift) : KeepsDrift s (o.map k) := by
  intro s' replies hr
  obtain ⟨a, ha, hend⟩ := Option.map_eq_some_iff.mp hr
  have hkept := h a ha
  rw [hend] at hkept
  exact hkept

theorem KeepsDrift.withINode {k : INode → Result}
    (h : ∀ i, s.iNodeManager.iNodes[ino]? = Option.some i → KeepsDrift s (k i)) :
    KeepsDrift s (s.withINode ino k) := by
  rcases s.withINode_cases ino with ⟨-, hwith⟩ | ⟨i, hget, hwith⟩
  · rw [hwith]
    exact KeepsDrift.some rfl
  · rw [hwith]
    exact h i hget

theorem fuseOpen_drift {flags : ℕ}
    (hopen : opensForWriting flags = true → s.iNodeManager.fileAt ino = none) :
    KeepsDrift s (s.fuseOpen L ino flags) := by
  apply KeepsDrift.withINode
  intro i hget
  cases hkind : i.kind with
  | file f =>
    cases hflags : opensForWriting flags with
    | true => exact absurd hkind (kind_of_fileAt_none (hopen hflags) hget f)
    | false => exact KeepsDrift.map fun buf _ => drift_onINode (keepsBlocks_onFile _) s ino
  | _ => exact KeepsDrift.some rfl

theorem fuseFlush_drift : KeepsDrift s (s.fuseFlush L ino) := by
  apply KeepsDrift.withINode
  intro i _
  cases i.asFile with
  | none => exact fun _ _ h => by cases h
  | some f =>
    rw [Option.bind_some]
    cases f.mBuf with
    | none => exact KeepsDrift.some rfl
    | some buf =>
      dsimp only
      split
      · apply KeepsDrift.map
        intro s₁ hwrite
        exact (drift_onINode (keepsBlocks_onFile _) s₁ ino).trans (dagonFS_Write_drift hwrite)
      · exact KeepsDrift.some (drift_onINode (keepsBlocks_onFile _) s ino)

theorem fuseRelease_drift : KeepsDrift s (s.fuseRelease ino) := by
  apply KeepsDrift.withINode
  intro i _
  cases i.kind with
  | directory => exact KeepsDrift.some rfl
  | _ => exact KeepsDrift.some (drift_onINode (keepsBlocks_onFile _) s ino)

theorem serveWrite_drift {buf : Option (List UInt8)} {off : ℕ} {junk : ℕ → UInt8} {alloc : Bool}
    (h : (s.serveWrite L ino buf off junk alloc).state = some s') : s'.fs.drift = s.fs.drift := by
  unfold serveWrite at h
  cases buf with
  | none =>
    obtain rfl := Option.some.inj h
    rfl
  | some data =>
    cases hfile : s.iNodeManager.fileAt ino with
    | none =>
      rw [hfile] at h
      obtain ⟨replies, hrun⟩ := of_state h
      have hkept : KeepsDrift s (s.fuseWrite L ino (some data) off junk) := by
        apply KeepsDrift.withINode
        intro i hget
        cases hkind : i.kind with
        | file f => exact absurd hkind (kind_of_fileAt_none hfile hget f)
        | _ => exact KeepsDrift.some rfl
      exact hkept s' replies hrun
    | some v =>
      simp only [hfile] at h
      split at h
      · cases h
      · split at h
        · obtain rfl := Option.some.inj h
          exact putWritten_drift hfile
        · cases h

/-- The handlers of extended attributes set an inode to one with the same blocks. -/
theorem setsINode_drift {g : INode → INode × Option Errno} (hg : ∀ i, ∃ m, (g i).1 = { i with mXattr := m })
    (h : (s.ofFs (Outcome.of (s.fs.atINode ino fun i =>
      some (s.fs.setNodes (s.fs.iNodeManager.setINodeAt ino (g i).1), [FileSystem.retVal (g i).2])))).state =
        some s') : s'.fs.drift = s.fs.drift := by
  rcases s.fs.atINode_cases ino with ⟨-, hk⟩ | ⟨i, hget, hk⟩
  · rw [hk] at h
    obtain rfl := Option.some.inj h
    rfl
  · rw [hk] at h
    obtain rfl := Option.some.inj h
    have hset := usedBlocks_setINodeAt (g i).1 hget
    obtain ⟨m, hm⟩ := hg i
    refine FileSystem.drift_congr rfl ?_ (List.length_set ..)
    rw [hm] at hset ⊢
    exact Nat.add_right_cancel hset

/-- An open that drops the content of a file. -/
theorem serveOpen_drops {flags : ℕ} {alloc : Bool} {v : FileState}
    (hfile : s.iNodeManager.fileAt ino = some v) (hflags : opensForWriting flags = true) :
    s.serveStep L entrySize (.open ino flags alloc) = some (s.modifyINode ino FileSystem.clearSize) := by
  obtain ⟨i, -, -, hkind, hwith⟩ := withINode_file hfile
  have hload : s.loadsBlocks ino flags = false := by
    rw [loadsBlocks, hfile, hflags]
    rfl
  show (s.serveOpen L ino flags alloc).state = _
  rw [serveOpen, hload, Bool.false_and, if_neg Bool.false_ne_true, fuseOpen, hwith]
  simp only [hkind, hflags, if_true]
  rfl

/-- **Every other request keeps the counters as far off as they are.** -/
theorem serveStep_drift {r : FuseRequest} (hstep : s.serveStep L entrySize r = some s')
    (hopen : ∀ ino flags alloc, r = .open ino flags alloc → opensForWriting flags = true →
      s.iNodeManager.fileAt ino = none) : s'.fs.drift = s.fs.drift := by
  cases r with
  | names r =>
    obtain ⟨fs, replies, hrun, rfl⟩ := handle_of_serveStep hstep
    exact FileSystem.handle_drift s.fs r fs replies hrun
  | «open» ino flags alloc =>
    change (s.serveOpen L ino flags alloc).state = some s' at hstep
    unfold serveOpen at hstep
    split at hstep
    · cases hstep
    · obtain ⟨replies, hrun⟩ := of_state hstep
      exact fuseOpen_drift (hopen ino flags alloc rfl) s' replies hrun
  | write ino buf off junk alloc => exact serveWrite_drift hstep
  | setAttr ino attr toSet =>
    change (s.serveSetAttr ino attr toSet).state = some s' at hstep
    unfold serveSetAttr at hstep
    split at hstep
    · cases hstep
    · obtain ⟨replies, hrun⟩ := of_state hstep
      have hkept : KeepsBlocks (setINodeAttributes attr toSet) := fun _ => rfl
      exact KeepsDrift.map (fun i _ => drift_onINode hkept s ino) s' replies hrun
  | flush ino alloc =>
    change (s.serveFlush L ino alloc).state = some s' at hstep
    unfold serveFlush at hstep
    split at hstep
    · cases hstep
    · obtain ⟨replies, hrun⟩ := of_state hstep
      exact fuseFlush_drift s' replies hrun
  | release ino =>
    obtain ⟨replies, hrun⟩ := of_state hstep
    exact fuseRelease_drift s' replies hrun
  | setXAttr ino name value flags newBuf =>
    exact setsINode_drift (fun i => setXAttr_mXattr i name value flags 0 newBuf) hstep
  | removeXAttr ino name => exact setsINode_drift (fun i => removeXAttr_mXattr i name) hstep
  | _ => rw [serveStep_asks rfl hstep]

/-- **The step lemma.**  From exact counters, a request keeps them exact if and only if it does not drop
blocks. -/
theorem exact_step {r : FuseRequest} (h : s.fs.Exact) (hstep : s.serveStep L entrySize r = some s') :
    s'.fs.Exact ↔ s.DropsNoBlocks r := by
  have hzero := FileSystem.exact_iff_drift.mp h
  by_cases hdrops : ∃ ino flags alloc v, r = .open ino flags alloc ∧ opensForWriting flags = true ∧
      s.iNodeManager.fileAt ino = some v
  · obtain ⟨ino, flags, alloc, v, rfl, hflags, hfile⟩ := hdrops
    rw [serveOpen_drops hfile hflags] at hstep
    obtain rfl := Option.some.inj hstep
    have hblocks : (0 : BitVec 64) - BitVec.ofNat 64 v.stBlocks = 0 ↔ v.stBlocks % 2 ^ 64 = 0 := by
      bv_omega
    rw [FileSystem.exact_iff_drift, drops_drift hfile, hzero, DropsNoBlocks, hfile]
    simp only [Drift.mk.injEq, hblocks, hflags, true_implies, Option.mem_def, Option.some.injEq,
      forall_eq', and_self, and_true]
  · have hkept := serveStep_drift hstep fun ino flags alloc hr hflags => by
      by_contra hsome
      obtain ⟨v, hv⟩ := Option.ne_none_iff_exists'.mp hsome
      exact hdrops ⟨ino, flags, alloc, v, hr, hflags, hv⟩
    refine iff_of_true ?_ ?_
    · rw [FileSystem.exact_iff_drift, hkept, hzero]
    · cases r with
      | «open» ino flags alloc =>
        intro hflags v hv
        exact absurd ⟨ino, flags, alloc, v, rfl, hflags, hv⟩ hdrops
      | _ => trivial

/-- **Free-space accounting.**  In every state that a run of requests reaches from the mounted file system,
the free blocks are the total less the `st_blocks` of all slots and the free inodes the total less the
number of slots, modulo `2 ^ 64`, if and only if no open of the run drops the content of a file that has
blocks. -/
theorem countersExact_iff (process : Ids) {requests : List FuseRequest}
    (hrun : run (serveStep L entrySize) (mounted process) requests = some s) :
    (∀ done, done <+: requests → ∀ s', run (serveStep L entrySize) (mounted process) done = some s' →
      s'.fs.Exact) ↔ Along (serveStep L entrySize) DropsNoBlocks (mounted process) requests :=
  invariant_iff (fun _ _ _ h hstep => exact_step h hstep) (FileSystem.mounted_exact process) hrun

/-- A file of two blocks is written and flushed, and opened again for reading and writing. -/
theorem countersExact_iff_rewritten :
    let L : Launch := ⟨2, 4, by decide, by decide⟩
    let requests : List FuseRequest := [.names (.create ⟨0, 0⟩ 1 [97] oWronly),
      .write 2 (some [1, 2, 3, 4, 5]) 0 (fun _ => 0) true, .flush 2 true, .open 2 oRdwr true,
      .names (.unlink 1 [97])]
    ∃ s, run (serveStep L fun _ => 32) (mounted ⟨0, 0⟩) requests = some s ∧ s.fs.Exact := by
  intro L requests
  have hdefined : (run (serveStep L fun _ => 32) (mounted ⟨0, 0⟩) requests).isSome = true := by
    decide +kernel
  have hok : Along (serveStep L fun _ => 32) DropsNoBlocks (mounted ⟨0, 0⟩) requests := by
    decide +kernel
  obtain ⟨s, hrun⟩ := Option.isSome_iff_exists.mp hdefined
  exact ⟨s, hrun, (countersExact_iff ⟨0, 0⟩ hrun).mpr hok requests (List.prefix_refl _) s hrun⟩

/-- The requests that make or drop an inode, or change the blocks of a file. -/
def ChangesUse : FuseRequest → Prop
  | .names (.create ..) | .names (.mknod ..) | .names (.mkdir ..) | .names (.symlink ..) => True
  | .names (.unlink ..) | .names (.rmdir ..) | .names (.forget ..) => True
  | .open .. | .write .. | .flush .. => True
  | _ => False

/-- **A file that is written again loses its blocks from the counters.**  One block is written and flushed;
the open for the next write clears the count of the file's blocks, and does not give the block back. -/
theorem not_exact_rewritten : ¬ ∀ (L : Launch) (entrySize : Name → ℕ) (process : Ids)
    (requests : List FuseRequest) (s : System), (∀ r ∈ requests, ChangesUse r) →
      run (serveStep L entrySize) (mounted process) requests = some s → s.fs.Exact := by
  intro h
  have hfacts : (run (serveStep ⟨1, 4, by decide, by decide⟩ fun _ => 32) (mounted ⟨0, 0⟩)
      [.names (.create ⟨0, 0⟩ 1 [97] oWronly), .write 2 (some [1]) 0 (fun _ => 0) true, .flush 2 true,
        .open 2 oWronly true]).map (fun s => s.fs.drift) = some ⟨-1, -1, 0, 0⟩ := by
    decide +kernel
  obtain ⟨s, hrun, hs⟩ := Option.map_eq_some_iff.mp hfacts
  have hexact := h _ _ _ _ s (by
    intro r hr
    simp only [List.mem_cons, List.not_mem_nil, or_false] at hr
    obtain rfl | rfl | rfl | rfl := hr <;> trivial) hrun
  rw [FileSystem.exact_iff_drift, hs] at hexact
  revert hexact
  decide

end DagonFs.System
