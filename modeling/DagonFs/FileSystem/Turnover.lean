import DagonFs.FileSystem.Namespace
import DagonFs.Lib.Pool

/-!
# How the inode table grows

The inode table with the queue of deleted inodes is a pool of slots: forgetting frees a slot, and registering
reuses one or adds one, whichever `m_reclaimingINodes` says.  Every handler is one turn of it (`handle_turns`).

`table_le_peak`: after any run of requests, in order or not, the table is no longer than the threshold and
the most slots that have been in use at a time.
-/

namespace DagonFs

open DagonFs.Lib.Runs DagonFs.Lib.Pool

namespace FileSystem

variable {fs fs' : FileSystem} {p : Slots}

def slots (fs : FileSystem) : Slots :=
  ⟨fs.iNodeManager.iNodes.length, fs.iNodeManager.deletedINodes, fs.mReclaimingINodes⟩

/-- However the handler ends, the pool has taken one turn. -/
def Turns (p : Slots) (res : Result) : Prop :=
  ∀ fs' replies, res = some (fs', replies) → Turn kINodeReclamationThreshold p fs'.slots

/-- The tables have the same slots and the same queue. -/
structure SameSlots (ns ns' : Nodes) : Prop where
  length : ns'.iNodes.length = ns.iNodes.length
  queue : ns'.deletedINodes = ns.deletedINodes

theorem SameSlots.refl (ns : Nodes) : SameSlots ns ns := ⟨rfl, rfl⟩

/-- Work on an inode takes no slot. -/
theorem SameSlots.modifyINode {ns ns' : Nodes} (h : SameSlots ns ns') (ino : ℕ) (f : INode → INode) :
    SameSlots ns (ns'.modifyINode ino f) :=
  ⟨(Nodes.modifyINode_length ..).trans h.length, h.queue⟩

theorem slots_setNodes {ns : Nodes} (h : SameSlots fs.iNodeManager ns) : (fs.setNodes ns).slots = fs.slots := by
  show Slots.mk ns.iNodes.length ns.deletedINodes _ = _
  rw [h.length, h.queue]
  rfl

theorem slots_modifyINode (fs : FileSystem) (ino : ℕ) (f : INode → INode) :
    (fs.setNodes (fs.iNodeManager.modifyINode ino f)).slots = fs.slots :=
  slots_setNodes ((SameSlots.refl _).modifyINode ino f)

/-! ### Rules for the handlers -/

theorem turns_none : Turns p none := by
  intro fs' replies h
  cases h

theorem turns_some {replies : List Reply} (h : Turn kINodeReclamationThreshold p fs.slots) :
    Turns p (some (fs, replies)) := by
  intro fs' replies' hres
  obtain ⟨rfl, -⟩ := Prod.mk.inj (Option.some.inj hres)
  exact h

theorem turns_map {α : Type*} {o : Option α} {k : α → FileSystem × List Reply}
    (h : ∀ a, Turn kINodeReclamationThreshold p (k a).1.slots) : Turns p (o.map k) := by
  cases o with
  | none => exact turns_none
  | some a => exact turns_some (h a)

theorem turns_bind {α : Type*} {o : Option α} {k : α → Result} (h : ∀ a, o = some a → Turns p (k a)) :
    Turns p (o.bind k) := by
  cases o with
  | none => exact turns_none
  | some a => exact h a rfl

theorem turns_withDirectory {parent : ℕ} {e : Errno} {k : Directory → Result}
    (h : Turn kINodeReclamationThreshold p fs.slots) (hk : ∀ d, Turns p (k d)) :
    Turns p (fs.withDirectory parent e k) := by
  unfold withDirectory
  split
  · exact turns_some h
  · split
    · exact turns_some h
    · exact hk _

theorem turns_replyEntry (h : Turn kINodeReclamationThreshold p fs.slots) (ino : ℕ) :
    Turns p (fs.replyEntry ino) := by
  refine turns_map fun i => ?_
  rw [Nodes.lookupINode, slots_modifyINode]
  exact h

/-- **A registration is one turn**: the number at the front of the queue is reused while the file system is
reclaiming, which it stops when the queue is empty. -/
theorem turn_registerINode {type : INodeType} {mode nlink gid uid ino : ℕ}
    (h : fs.registerINode type mode nlink gid uid = some (fs', ino)) :
    Turn kINodeReclamationThreshold fs.slots fs'.slots := by
  simp only [registerINode, stopReclaiming_iNodeManager, initINode, Nodes.addINode] at h
  split at h
  · rename_i hreclaiming
    obtain ⟨⟨x, ns⟩, hqueue, h⟩ := Option.bind_eq_some_iff.mp h
    obtain ⟨del, -, hend⟩ := Option.map_eq_some_iff.mp h
    obtain ⟨rfl, -⟩ := Prod.mk.inj hend
    cases hdeleted : fs.iNodeManager.deletedINodes with
    | nil =>
      rw [Nodes.reclaimINode, hdeleted] at hqueue
      cases hqueue
    | cons y rest =>
      rw [Nodes.reclaimINode, hdeleted] at hqueue
      obtain ⟨rfl, rfl⟩ := Prod.mk.inj (Option.some.inj hqueue)
      have hon : fs.stopReclaiming.mReclaimingINodes = fs.mReclaimingINodes := by
        rw [stopReclaiming, Nodes.getNumberOfDeletedINodes, hdeleted]
        rfl
      have hbefore : fs.slots = ⟨fs.iNodeManager.iNodes.length, y :: rest, true⟩ := by
        rw [slots, hdeleted, ← hon, hreclaiming]
      have hafter : ((fs.stopReclaiming.setNodes (Nodes.setINodeAt { fs.iNodeManager with deletedINodes := rest } y
          (Nodes.createEmptyINode type))).updateUsedBlocks (-del.attr.stBlocks)).slots =
            ⟨fs.iNodeManager.iNodes.length, rest, true⟩ := by
        show Slots.mk (fs.iNodeManager.iNodes.set y _).length rest fs.stopReclaiming.mReclaimingINodes = _
        rw [List.length_set, hreclaiming]
      rw [slots_modifyINode, hbefore, hafter]
      exact .reused _ _ _
  · rename_i hquiet
    obtain ⟨rfl, -⟩ := Prod.mk.inj (Option.some.inj h)
    have hafter : ((fs.stopReclaiming.setNodes { fs.iNodeManager with iNodes := fs.iNodeManager.iNodes ++
        [Nodes.createEmptyINode type] }).updateUsedINodes 1).slots =
          ⟨fs.slots.size + 1, fs.slots.queue, false⟩ := by
      show Slots.mk (fs.iNodeManager.iNodes ++ [_]).length _ fs.stopReclaiming.mReclaimingINodes = _
      rw [List.length_append, Bool.eq_false_of_not_eq_true hquiet]
      rfl
    rw [slots_modifyINode, hafter]
    refine .added fs.slots ?_
    unfold stopReclaiming at hquiet
    split at hquiet
    · rename_i hnone
      exact Or.inr (List.length_eq_zero_iff.mp hnone)
    · exact Or.inl (Bool.eq_false_of_not_eq_true hquiet)

theorem turns_withINode {type : INodeType} {mode nlink gid uid : ℕ} {k : FileSystem → ℕ → Result}
    (hk : ∀ fs' ino, Turn kINodeReclamationThreshold fs.slots fs'.slots → Turns fs.slots (k fs' ino)) :
    Turns fs.slots (fs.withINode type mode nlink gid uid k) := by
  unfold withINode
  split
  · exact turns_none
  · rename_i hres
    exact hk _ _ (turn_registerINode hres)

theorem turns_insertChild {parent : ℕ} {name : Name} {ino : ℕ} {k : FileSystem → Result}
    (h : Turn kINodeReclamationThreshold p fs.slots)
    (hk : ∀ fs', Turn kINodeReclamationThreshold p fs'.slots → Turns p (k fs')) :
    Turns p ((fs.insertChild parent name ino).bind k) := by
  refine turns_bind fun fs' hres => hk fs' ?_
  unfold insertChild at hres
  obtain ⟨-, hres⟩ := Option.ite_none_left_eq_some.mp hres
  obtain rfl := Option.some.inj hres
  rw [Nodes.updateChild, slots_modifyINode]
  exact h

/-! ### The handlers -/

theorem fuseLookup_turns (parent : ℕ) (name : Name) : Turns fs.slots (fs.fuseLookup parent name) := by
  refine turns_withDirectory (.same _) fun d => ?_
  split
  · exact turns_some (.same _)
  · exact turns_replyEntry (.same _) _

theorem fuseForget_turns (ino nlookup : ℕ) : Turns fs.slots (fs.fuseForget ino nlookup) := by
  refine turns_map fun i => ?_
  have hsame := (SameSlots.refl fs.iNodeManager).modifyINode ino (·.forget nlookup)
  dsimp only
  split
  · show Turn _ _ (Slots.mk (fs.iNodeManager.forget ino nlookup).iNodes.length _ _)
    rw [Nodes.forget, hsame.length]
    exact .freed fs.slots ino
  · rw [Nodes.forget, slots_setNodes hsame]
    exact .same _

theorem mknodAs_turns (ctx : Ids) (parent : ℕ) (name : Name) (type : INodeType) (nlink mode : ℕ) :
    Turns fs.slots (fs.mknodAs ctx parent name type nlink mode) := by
  refine turns_withINode fun fs₁ ino hturn => ?_
  exact turns_insertChild hturn fun fs₂ hturn₂ => turns_replyEntry hturn₂ ino

theorem fuseMknod_turns (ctx : Ids) (parent : ℕ) (name : Name) (mode : ℕ) :
    Turns fs.slots (fs.fuseMknod ctx parent name mode) := by
  refine turns_withDirectory (.same _) fun d => ?_
  split
  · exact turns_some (.same _)
  · split
    · -- the parent's link is added first
      have hsame := fs.slots_modifyINode parent INode.addHardLink
      rw [← hsame]
      exact mknodAs_turns ctx parent name _ _ _
    · split
      · exact mknodAs_turns ctx parent name _ _ _
      · exact turns_some (.same _)

theorem fuseMkdir_turns (parent : ℕ) (name : Name) : Turns fs.slots (fs.fuseMkdir parent name) := by
  refine turns_withDirectory (.same _) fun d => ?_
  refine turns_withINode fun fs₁ ino hturn => ?_
  refine turns_insertChild hturn fun fs₂ hturn₂ => turns_replyEntry ?_ ino
  rw [Nodes.addHardLink, slots_modifyINode]
  exact hturn₂

theorem fuseSymlink_turns (ctx : Ids) (link : Name) (parent : ℕ) (name : Name) :
    Turns fs.slots (fs.fuseSymlink ctx link parent name) := by
  refine turns_withDirectory (.same _) fun d => ?_
  refine turns_withINode fun fs₁ ino hturn => ?_
  have hlinked : Turn kINodeReclamationThreshold fs.slots
      (fs₁.setNodes (fs₁.iNodeManager.modifyINode ino (setLink link))).slots := by
    rw [slots_modifyINode]
    exact hturn
  exact turns_insertChild hlinked fun fs₂ hturn₂ => turns_replyEntry hturn₂ ino

theorem fuseCreate_turns (ctx : Ids) (parent : ℕ) (name : Name) (flags : ℕ) :
    Turns fs.slots (fs.fuseCreate ctx parent name flags) := by
  refine turns_withDirectory (.same _) fun d => ?_
  split
  · exact turns_some (.same _)
  · refine turns_withINode fun fs₁ ino hturn => ?_
    refine turns_insertChild hturn fun fs₂ hturn₂ => ?_
    refine turns_map fun i => ?_
    have hlooked := (SameSlots.refl fs₂.iNodeManager).modifyINode ino INode.lookup
    dsimp only
    split
    · rw [Nodes.lookupINode, slots_setNodes (hlooked.modifyINode ino clearSize)]
      exact hturn₂
    · rw [Nodes.lookupINode, slots_setNodes hlooked]
      exact hturn₂

theorem fuseLink_turns (ino newparent : ℕ) (newname : Name) :
    Turns fs.slots (fs.fuseLink ino newparent newname) := by
  refine turns_withDirectory (.same _) fun d => ?_
  split
  · exact turns_some (.same _)
  · have hlinked : SameSlots fs.iNodeManager ((fs.iNodeManager.updateChild newparent newname ino).addHardLink ino) :=
      ((SameSlots.refl _).modifyINode newparent _).modifyINode ino _
    intro fs' replies hres
    obtain ⟨⟨fs₁, replies₁⟩, hrun, hend⟩ := Option.map_eq_some_iff.mp hres
    obtain ⟨rfl, -⟩ := Prod.mk.inj hend
    refine turns_replyEntry ?_ ino _ _ hrun
    rw [slots_setNodes hlinked]
    exact .same _

theorem fuseUnlink_turns (parent : ℕ) (name : Name) : Turns fs.slots (fs.fuseUnlink parent name) := by
  refine turns_withDirectory (.same _) fun d => ?_
  split
  · exact turns_some (.same _)
  · rename_i x hx
    have hdropped : SameSlots fs.iNodeManager ((fs.iNodeManager.removeHardLink x).deleteChild parent name) :=
      ((SameSlots.refl _).modifyINode x _).modifyINode parent _
    refine turns_map fun i => ?_
    dsimp only
    rw [slots_setNodes hdropped]
    exact .same _

theorem fuseRmdir_turns (parent : ℕ) (name : Name) : Turns fs.slots (fs.fuseRmdir parent name) := by
  refine turns_withDirectory (.same _) fun d => ?_
  split
  · exact turns_some (.same _)
  · rename_i x hx
    refine turns_bind fun i _ => ?_
    split
    · exact turns_some (.same _)
    · split
      · exact turns_some (.same _)
      · have hdropped : SameSlots fs.iNodeManager
            (((fs.iNodeManager.removeHardLink parent).removeAllHardLinks x).deleteChild parent name) :=
          (((SameSlots.refl _).modifyINode parent _).modifyINode x _).modifyINode parent _
        refine turns_some ?_
        rw [slots_setNodes hdropped]
        exact .same _

theorem displace_sameSlots {ns ns' : Nodes} {parent newparent : ℕ} {old : Option ℕ}
    (h : displace ns parent newparent old = some ns') : SameSlots ns ns' := by
  cases old with
  | none =>
    obtain rfl := Option.some.inj h
    exact .refl ns
  | some y =>
    rw [displace] at h
    split at h
    · obtain rfl := Option.some.inj h
      exact .refl ns
    · obtain ⟨i, -, rfl⟩ := Option.map_eq_some_iff.mp h
      split
      · exact ((SameSlots.refl ns).modifyINode parent _).modifyINode newparent _
      · exact .refl ns

theorem fuseRename_turns (parent : ℕ) (name : Name) (newparent : ℕ) (newname : Name) :
    Turns fs.slots (fs.fuseRename parent name newparent newname) := by
  refine turns_withDirectory (.same _) fun d => ?_
  split
  · exact turns_some (.same _)
  · rename_i x hx
    refine turns_withDirectory (.same _) fun d' => ?_
    intro fs' replies hres
    obtain ⟨ns, hdisplaced, hend⟩ := Option.map_eq_some_iff.mp hres
    obtain ⟨rfl, -⟩ := Prod.mk.inj hend
    have hmoved : SameSlots fs.iNodeManager ((ns.updateChild newparent newname x).deleteChild parent name) :=
      ((displace_sameSlots hdisplaced).modifyINode newparent _).modifyINode parent _
    rw [slots_setNodes hmoved]
    exact .same _

/-- **Every handler is one turn of the pool.** -/
theorem handle_turns (r : Request) : Turns fs.slots (fs.handle r) := by
  cases r with
  | lookup parent name => exact fuseLookup_turns parent name
  | forget ino nlookup => exact fuseForget_turns ino nlookup
  | mknod ctx parent name mode => exact fuseMknod_turns ctx parent name mode
  | mkdir parent name => exact fuseMkdir_turns parent name
  | symlink ctx link parent name => exact fuseSymlink_turns ctx link parent name
  | create ctx parent name flags => exact fuseCreate_turns ctx parent name flags
  | link ino newparent newname => exact fuseLink_turns ino newparent newname
  | unlink parent name => exact fuseUnlink_turns parent name
  | rmdir parent name => exact fuseRmdir_turns parent name
  | rename parent name newparent newname => exact fuseRename_turns parent name newparent newname

/-! ### Runs -/

/-- The inodes of the table whose numbers are not queued for reuse. -/
def inUse (fs : FileSystem) : ℕ :=
  (Finset.range fs.iNodeManager.iNodes.length \ fs.iNodeManager.deletedINodes.toFinset).card

/-- **The table does not grow without need.**  Whatever the kernel asks for, in any order: after a run the
table has no more than 256 inodes beyond those that were in use at some moment of the run. -/
theorem table_le_peak {process : Ids} {rs : List Request} {fs : FileSystem}
    (hrun : run step (mounted process) rs = some fs) :
    ∃ bs peak, bs <+: rs ∧ run step (mounted process) bs = some peak ∧
      fs.iNodeManager.iNodes.length ≤ peak.inUse + kINodeReclamationThreshold := by
  have hturn : ∀ fs₁ r fs₂, step fs₁ r = some fs₂ → Turn kINodeReclamationThreshold fs₁.slots fs₂.slots := by
    intro fs₁ r fs₂ hstep
    obtain ⟨⟨_, replies⟩, hres, rfl⟩ := Option.map_eq_some_iff.mp hstep
    exact handle_turns r _ _ hres
  have hnone : (mounted process).slots.queue.length ≤ kINodeReclamationThreshold := Nat.zero_le _
  exact peak_run hturn (fun _ => hnone) ((size_le_inUse_add _).trans (Nat.add_le_add_left hnone _)) hrun

/-- Two files are made and removed, and another one is made. -/
theorem table_le_peak_removed : ∃ fs bs peak,
    run step (mounted ⟨0, 0⟩) [.create ⟨0, 0⟩ 1 [97] oRdwr, .create ⟨0, 0⟩ 1 [98] oRdwr, .unlink 1 [97],
      .forget 2 1, .unlink 1 [98], .forget 3 1, .create ⟨0, 0⟩ 1 [99] oRdwr] = some fs ∧
    fs.iNodeManager.iNodes.length = 5 ∧
    bs <+: [.create ⟨0, 0⟩ 1 [97] oRdwr, .create ⟨0, 0⟩ 1 [98] oRdwr, .unlink 1 [97],
      .forget 2 1, .unlink 1 [98], .forget 3 1, .create ⟨0, 0⟩ 1 [99] oRdwr] ∧
    run step (mounted ⟨0, 0⟩) bs = some peak ∧
    fs.iNodeManager.iNodes.length ≤ peak.inUse + kINodeReclamationThreshold := by
  have hfacts : (run step (mounted ⟨0, 0⟩) [.create ⟨0, 0⟩ 1 [97] oRdwr, .create ⟨0, 0⟩ 1 [98] oRdwr,
      .unlink 1 [97], .forget 2 1, .unlink 1 [98], .forget 3 1, .create ⟨0, 0⟩ 1 [99] oRdwr]).map
      (fun fs => fs.iNodeManager.iNodes.length) = some 5 := by decide +kernel
  obtain ⟨fs, hrun, hlength⟩ := Option.map_eq_some_iff.mp hfacts
  obtain ⟨bs, peak, hprefix, hpeak, hle⟩ := table_le_peak hrun
  exact ⟨fs, bs, peak, hrun, hlength, hprefix, hpeak, hle⟩

end FileSystem

end DagonFs
