import DagonFs.FileSystem.Namespace
import DagonFs.Nodes.Registration

/-!
# What a namespace request does to the inode table

`Change ns r ns'` lists the ways a request can change the table, with the facts that the handler has
checked by then.  `handle_change` says that this list is complete: in a table whose entries and queue
are in range, every handler ends, and ends with one of these changes.  Every invariant of the namespace
is a case analysis over `Change`.
-/

namespace DagonFs

open DagonFs.Nodes

namespace FileSystem

/-- The directory and the name under which a request makes a new inode. -/
def Request.makes : Request → Option (ℕ × Name)
  | .mknod _ parent name _ => some (parent, name)
  | .mkdir parent name => some (parent, name)
  | .symlink _ _ parent name => some (parent, name)
  | .create _ parent name _ => some (parent, name)
  | _ => none

/-- What a handler relies on in the table. -/
structure WellFormed (ns : Nodes) : Prop where
  entries : ns.EntriesValid
  queue : ∀ x ∈ ns.deletedINodes, x < ns.iNodes.length
  special : ns.isDirectory 0 = false

/-- The entries and the queue name inodes of the table. -/
structure InTable (ns : Nodes) : Prop where
  entries : ns.EntriesValid
  queue : ∀ x ∈ ns.deletedINodes, x < ns.iNodes.length

theorem WellFormed.inTable {ns : Nodes} (h : WellFormed ns) : InTable ns := ⟨h.entries, h.queue⟩

/-- The next registration reuses the number of the directory `parent`. -/
def ReusesNumberOf (fs : FileSystem) (parent : ℕ) : Prop :=
  fs.mReclaimingINodes = true ∧ fs.iNodeManager.deletedINodes.head? = some parent

instance (fs : FileSystem) (parent : ℕ) : Decidable (fs.ReusesNumberOf parent) :=
  inferInstanceAs (Decidable (_ ∧ _))

/-- An inode as `RegisterINode` leaves it. -/
structure Fresh (i : INode) (nlink : ℕ) : Prop where
  children : i.children = ∅
  stNlink : i.attr.stNlink = nlink
  mNlookup : i.mNlookup = 0
  unmarked : i.markedForDeletion = false

/-- The changes that a request can make to the table. -/
inductive Change (ns : Nodes) : Request → Nodes → Prop
  /-- The request is answered with an error. -/
  | refused (r : Request) : Change ns r ns
  | looked {parent : ℕ} {name : Name} {x : ℕ} (hentry : (ns.childrenOf parent)[name]? = some x) :
      Change ns (.lookup parent name) (ns.lookupINode x)
  | queued {ino k : ℕ} (hino : ino < ns.iNodes.length)
      (hforgotten : (ns.forget ino k).nlookupOf ino = 0) (hlinks : ns.nlinkOf ino = 0) :
      Change ns (.forget ino k) ((ns.forget ino k).deleteINode ino)
  | kept {ino k : ℕ} (hino : ino < ns.iNodes.length) : Change ns (.forget ino k) (ns.forget ino k)
  | madeFile {r : Request} {parent ino : ℕ} {name : Name} {ns₁ : Nodes} {i : INode}
      (hmakes : r.makes = some (parent, name)) (hparent : ns.isDirectory parent = true)
      (hreg : Registered ns ns₁ ino i) (hne : ino ≠ parent) (hfresh : Fresh i 1)
      (hfile : i.isDirectory = false) :
      Change ns r ((ns₁.updateChild parent name ino).lookupINode ino)
  | madeDirectory {r : Request} {parent ino : ℕ} {name : Name} {ns₁ : Nodes} {i : INode}
      (hmakes : r.makes = some (parent, name)) (hparent : ns.isDirectory parent = true)
      (hreg : Registered ns ns₁ ino i) (hne : ino ≠ parent) (hfresh : Fresh i 2)
      (hdir : i.isDirectory = true) :
      Change ns r (((ns₁.updateChild parent name ino).addHardLink parent).lookupINode ino)
  | linked {ino parent : ℕ} {name : Name} (hparent : ns.isDirectory parent = true)
      (hino : ino < ns.iNodes.length) :
      Change ns (.link ino parent name) (((ns.updateChild parent name ino).addHardLink ino).lookupINode ino)
  | unlinked {parent x : ℕ} {name : Name} (hparent : ns.isDirectory parent = true)
      (hentry : (ns.childrenOf parent)[name]? = some x) :
      Change ns (.unlink parent name) ((ns.removeHardLink x).deleteChild parent name)
  | removed {parent x : ℕ} {name : Name} (hparent : ns.isDirectory parent = true)
      (hentry : (ns.childrenOf parent)[name]? = some x) (hdir : ns.isDirectory x = true) :
      Change ns (.rmdir parent name)
        (((ns.removeHardLink parent).removeAllHardLinks x).deleteChild parent name)
  /-- The new name was free, or named something that is no directory. -/
  | moved {parent newparent x : ℕ} {name newname : Name} (hparent : ns.isDirectory parent = true)
      (hentry : (ns.childrenOf parent)[name]? = some x) (hnew : ns.isDirectory newparent = true)
      (hold : ∀ y, (ns.childrenOf newparent)[newname]? = some y → ns.isDirectory y = false) :
      Change ns (.rename parent name newparent newname)
        ((ns.updateChild newparent newname x).deleteChild parent name)
  /-- The new name named a directory. -/
  | replaced {parent newparent x y : ℕ} {name newname : Name}
      (hparent : ns.isDirectory parent = true) (hentry : (ns.childrenOf parent)[name]? = some x)
      (hnew : ns.isDirectory newparent = true)
      (hold : (ns.childrenOf newparent)[newname]? = some y) (hdir : ns.isDirectory y = true) :
      Change ns (.rename parent name newparent newname)
        ((((ns.removeHardLink parent).addHardLink newparent).updateChild newparent newname x).deleteChild
          parent name)

/-! ### Rules for the handlers -/

/-- The handler ends, and the table it ends with meets `P`. -/
def Yields (res : Result) (P : Nodes → Prop) : Prop :=
  ∃ fs replies, res = some (fs, replies) ∧ P fs.iNodeManager

variable {fs : FileSystem} {P : Nodes → Prop}

theorem yields_reply {r : Reply} (h : P fs.iNodeManager) : Yields (fs.reply r) P := ⟨fs, [r], rfl, h⟩

theorem yields_withDirectory {parent : ℕ} {e : Errno} {k : Directory → Result}
    (hrefused : P fs.iNodeManager)
    (hdir : ∀ d, fs.iNodeManager.isDirectory parent = true →
      fs.iNodeManager.childrenOf parent = d.mChildren → Yields (k d) P) :
    Yields (fs.withDirectory parent e k) P := by
  unfold withDirectory
  split
  · exact yields_reply hrefused
  · split
    · exact yields_reply hrefused
    · rename_i d hd
      refine hdir d ?_ (fs.iNodeManager.childrenOf_of_directoryAt hd)
      rw [isDirectory_eq_isSome, hd]
      rfl

theorem yields_replyEntry {ino : ℕ} (hino : ino < fs.iNodeManager.iNodes.length)
    (h : P (fs.iNodeManager.lookupINode ino)) : Yields (fs.replyEntry ino) P := by
  unfold replyEntry getINodeByINodeNumber
  rw [List.getElem?_eq_getElem hino]
  exact ⟨_, _, rfl, h⟩

/-- **What a registration does**: it ends, and puts the new inode at the front of the queue or at the
end of the table. -/
theorem registerINode_spec (fs : FileSystem) (type : INodeType) (mode nlink gid uid : ℕ)
    (hqueue : ∀ x ∈ fs.iNodeManager.deletedINodes, x < fs.iNodeManager.iNodes.length) :
    ∃ fs' ino, fs.registerINode type mode nlink gid uid = some (fs', ino) ∧
      Registered fs.iNodeManager fs'.iNodeManager ino
        (initializeINode (createEmptyINode type) ino mode nlink gid uid) ∧
      fs'.blocksManager = fs.blocksManager ∧ fs'.process = fs.process := by
  simp only [registerINode, stopReclaiming_iNodeManager, addINode]
  split
  · -- reclaiming: the queue is not empty, since `stopReclaiming` has left the mode on
    rename_i hreclaiming
    have hpos : fs.iNodeManager.deletedINodes ≠ [] := by
      intro hnil
      simp [stopReclaiming, getNumberOfDeletedINodes, hnil] at hreclaiming
    obtain ⟨ino, rest, hcons⟩ := List.exists_cons_of_ne_nil hpos
    have hlt : ino < fs.iNodeManager.iNodes.length := hqueue ino (by simp [hcons])
    have hreg := registered_reclaimINode hcons hlt (createEmptyINode type)
      (initializeINode · ino mode nlink gid uid)
    simp only [reclaimINode, hcons, Option.bind_some, getINodeByINodeNumber,
      List.getElem?_eq_getElem hlt, Option.map_some]
    exact ⟨_, ino, rfl, hreg, by simp [setNodes, updateUsedBlocks],
      by simp [setNodes, updateUsedBlocks]⟩
  · have hreg := registered_addINode fs.iNodeManager (createEmptyINode type)
      (initializeINode · fs.iNodeManager.iNodes.length mode nlink gid uid)
    exact ⟨_, fs.iNodeManager.iNodes.length, rfl, hreg,
      by simp [setNodes, updateUsedINodes],
      by simp [setNodes, updateUsedINodes]⟩

/-- While no inode is queued, the new inode is at the end of the table. -/
theorem registerINode_end (fs : FileSystem) (type : INodeType) (mode nlink gid uid : ℕ)
    (hqueue : fs.iNodeManager.deletedINodes = []) :
    ∃ fs', fs.registerINode type mode nlink gid uid = some (fs', fs.iNodeManager.iNodes.length) ∧
      Registered fs.iNodeManager fs'.iNodeManager fs.iNodeManager.iNodes.length
        (initializeINode (createEmptyINode type) fs.iNodeManager.iNodes.length mode nlink gid uid) ∧
      fs'.iNodeManager.deletedINodes = [] ∧ fs'.blocksManager = fs.blocksManager := by
  obtain ⟨fs', ino, hres, hreg, hblocks, -⟩ := registerINode_spec fs type mode nlink gid uid
    (by simp [hqueue])
  obtain ⟨rfl, hsame⟩ | ⟨-, hcons⟩ := hreg.place
  · exact ⟨fs', hres, hreg, hsame.trans hqueue, hblocks⟩
  · rw [hqueue] at hcons
    cases hcons

theorem fresh_registered (type : INodeType) (ino mode nlink gid uid : ℕ) :
    Fresh (initializeINode (createEmptyINode type) ino mode nlink gid uid) nlink := by
  cases type <;> exact ⟨rfl, rfl, rfl, rfl⟩

/-- The number of a registration. -/
theorem registerINode_number {fs fs' : FileSystem} {type : INodeType} {mode nlink gid uid ino : ℕ}
    (hres : fs.registerINode type mode nlink gid uid = some (fs', ino)) :
    ino = fs.iNodeManager.iNodes.length ∨ fs.ReusesNumberOf ino := by
  simp only [registerINode, stopReclaiming_iNodeManager, addINode] at hres
  split at hres
  · rename_i hreclaiming
    right
    obtain ⟨⟨x, ns⟩, hqueue, hres⟩ := Option.bind_eq_some_iff.mp hres
    obtain ⟨del, -, hend⟩ := Option.map_eq_some_iff.mp hres
    obtain ⟨-, rfl⟩ := Prod.mk.inj hend
    cases hdeleted : fs.iNodeManager.deletedINodes with
    | nil =>
      rw [reclaimINode, hdeleted] at hqueue
      cases hqueue
    | cons y rest =>
      simp only [reclaimINode, hdeleted, Option.some.injEq, Prod.mk.injEq] at hqueue
      refine ⟨?_, by rw [hdeleted, ← hqueue.1]; rfl⟩
      rw [stopReclaiming, getNumberOfDeletedINodes, hdeleted,
        if_neg (List.length_cons ▸ Nat.succ_ne_zero rest.length)] at hreclaiming
      exact hreclaiming
  · left
    exact (Prod.mk.inj (Option.some.inj hres)).2.symm

/-- A registration that ends has put the new inode in the table, whatever is queued. -/
theorem registerINode_registered {fs fs' : FileSystem} {type : INodeType} {mode nlink gid uid ino : ℕ}
    (hres : fs.registerINode type mode nlink gid uid = some (fs', ino)) :
    Registered fs.iNodeManager fs'.iNodeManager ino
        (initializeINode (createEmptyINode type) ino mode nlink gid uid) ∧
      fs'.blocksManager = fs.blocksManager := by
  simp only [registerINode, stopReclaiming_iNodeManager, addINode] at hres
  split at hres
  · obtain ⟨⟨x, ns⟩, hqueue, hres⟩ := Option.bind_eq_some_iff.mp hres
    obtain ⟨del, hdel, hend⟩ := Option.map_eq_some_iff.mp hres
    obtain ⟨rfl, rfl⟩ := Prod.mk.inj hend
    cases hdeleted : fs.iNodeManager.deletedINodes with
    | nil =>
      rw [reclaimINode, hdeleted] at hqueue
      cases hqueue
    | cons y rest =>
      simp only [reclaimINode, hdeleted, Option.some.injEq, Prod.mk.injEq] at hqueue
      obtain ⟨rfl, rfl⟩ := hqueue
      have hlt : y < fs.iNodeManager.iNodes.length := (List.getElem?_eq_some_iff.mp hdel).1
      exact ⟨registered_reclaimINode hdeleted hlt (createEmptyINode type)
        (initializeINode · y mode nlink gid uid), by simp [setNodes, updateUsedBlocks]⟩
  · obtain ⟨rfl, rfl⟩ := Prod.mk.inj (Option.some.inj hres)
    exact ⟨registered_addINode fs.iNodeManager (createEmptyINode type)
      (initializeINode · fs.iNodeManager.iNodes.length mode nlink gid uid),
      by simp [setNodes, updateUsedINodes]⟩

/-- A handler that makes an inode goes on with it registered, at a place that is not the parent's. -/
theorem yields_withINode {type : INodeType} {mode nlink gid uid parent : ℕ}
    {k : FileSystem → ℕ → Result} (hin : InTable fs.iNodeManager)
    (hparent : fs.iNodeManager.isDirectory parent = true) (hkept : ¬ fs.ReusesNumberOf parent)
    (h : ∀ fs' ino, ino ≠ parent → Registered fs.iNodeManager fs'.iNodeManager ino
      (initializeINode (createEmptyINode type) ino mode nlink gid uid) → Yields (k fs' ino) P) :
    Yields (fs.withINode type mode nlink gid uid k) P := by
  obtain ⟨fs', ino, hres, hreg, -, -⟩ := registerINode_spec fs type mode nlink gid uid hin.queue
  rw [withINode, hres]
  refine h fs' ino ?_ hreg
  rintro rfl
  rcases registerINode_number hres with hend | hreuses
  · exact absurd (lt_of_isDirectory _ hparent) (by omega)
  · exact hkept hreuses

theorem yields_insertChild {parent ino : ℕ} {name : Name} {k : FileSystem → Result}
    (hne : ino ≠ parent)
    (h : Yields (k (fs.setNodes (fs.iNodeManager.updateChild parent name ino))) P) :
    Yields ((fs.insertChild parent name ino).bind k) P := by
  rw [insertChild, if_neg hne]
  exact h

/-! ### One lemma for each handler -/

section Handlers

variable (hin : InTable fs.iNodeManager)
include hin

theorem fuseLookup_change (parent : ℕ) (name : Name) :
    Yields (fs.fuseLookup parent name) (Change fs.iNodeManager (.lookup parent name)) := by
  refine yields_withDirectory (.refused _) fun d _ hd => ?_
  split
  · exact yields_reply (.refused _)
  · rename_i x hx
    have hentry : (fs.iNodeManager.childrenOf parent)[name]? = some x := hd ▸ hx
    exact yields_replyEntry (hin.entries parent name x hentry) (.looked hentry)

omit hin in
theorem fuseForget_change {ino : ℕ} (k : ℕ) (hino : ino < fs.iNodeManager.iNodes.length) :
    Yields (fs.fuseForget ino k) (Change fs.iNodeManager (.forget ino k)) := by
  have hget : fs.iNodeManager.iNodes[ino]? = some fs.iNodeManager.iNodes[ino] :=
    List.getElem?_eq_getElem hino
  unfold fuseForget getINodeByINodeNumber
  rw [hget, Option.map_some]
  simp only
  split
  · rename_i hboth
    simp only [INode.forgotten, INode.hasNoLinks, INode.forget_stNlink, Bool.and_eq_true,
      beq_iff_eq] at hboth
    refine ⟨_, _, rfl, .queued hino ?_ ?_⟩
    · rw [nlookupOf, forget, modifyINode_getElem?, if_pos rfl, hget]
      exact hboth.1
    · rw [nlinkOf, hget]
      exact hboth.2
  · exact ⟨_, _, rfl, .kept hino⟩

theorem fuseMknod_change (ctx : Ids) {parent : ℕ} (name : Name) (mode : ℕ)
    (hkept : ¬ fs.ReusesNumberOf parent) :
    Yields (fs.fuseMknod ctx parent name mode)
      (Change fs.iNodeManager (.mknod ctx parent name mode)) := by
  refine yields_withDirectory (.refused _) fun d hparent _ => ?_
  split
  · exact yields_reply (.refused _)
  · split
    · -- the parent's link is added before the directory is registered
      have hin' : InTable (fs.iNodeManager.addHardLink parent) :=
        ⟨hin.entries.sameEntries (addHardLink_sameEntries ..), by simpa using hin.queue⟩
      have hparent' : (fs.iNodeManager.addHardLink parent).isDirectory parent = true := by
        simpa using hparent
      refine yields_withINode hin' hparent' hkept
        fun fs' ino hne hreg => ?_
      obtain ⟨ns₁, hreg₁, heq⟩ := hreg.addHardLink_comm (lt_of_isDirectory _ hparent) hne
      refine yields_insertChild hne (yields_replyEntry (by simpa [setNodes] using hreg.lt_length) ?_)
      simp only [setNodes, heq, addHardLink_updateChild]
      exact .madeDirectory rfl hparent hreg₁ hne (fresh_registered ..) rfl
    · split
      · refine yields_withINode hin hparent hkept fun fs' ino hne hreg => ?_
        refine yields_insertChild hne (yields_replyEntry (by simpa [setNodes] using hreg.lt_length) ?_)
        exact .madeFile rfl hparent hreg hne (fresh_registered ..) rfl
      · exact yields_reply (.refused _)

theorem fuseMkdir_change {parent : ℕ} (name : Name)
    (hkept : ¬ fs.ReusesNumberOf parent) :
    Yields (fs.fuseMkdir parent name) (Change fs.iNodeManager (.mkdir parent name)) := by
  refine yields_withDirectory (.refused _) fun d hparent _ => ?_
  refine yields_withINode hin hparent hkept fun fs' ino hne hreg => ?_
  refine yields_insertChild hne (yields_replyEntry (by simpa [setNodes] using hreg.lt_length) ?_)
  exact .madeDirectory rfl hparent hreg hne (fresh_registered ..) rfl

theorem fuseSymlink_change (ctx : Ids) (link : Name) {parent : ℕ} (name : Name)
    (hkept : ¬ fs.ReusesNumberOf parent) :
    Yields (fs.fuseSymlink ctx link parent name)
      (Change fs.iNodeManager (.symlink ctx link parent name)) := by
  refine yields_withDirectory (.refused _) fun d hparent _ => ?_
  refine yields_withINode hin hparent hkept fun fs' ino hne hreg => ?_
  have hreg' := hreg.modify (setLink link)
  refine yields_insertChild hne (yields_replyEntry (by simpa [setNodes] using hreg'.lt_length) ?_)
  exact .madeFile rfl hparent hreg' hne ⟨rfl, rfl, rfl, rfl⟩ rfl

theorem fuseCreate_change (ctx : Ids) {parent : ℕ} (name : Name) (flags : ℕ)
    (hkept : ¬ fs.ReusesNumberOf parent) :
    Yields (fs.fuseCreate ctx parent name flags)
      (Change fs.iNodeManager (.create ctx parent name flags)) := by
  refine yields_withDirectory (.refused _) fun d hparent _ => ?_
  split
  · exact yields_reply (.refused _)
  · refine yields_withINode hin hparent hkept fun fs' ino hne hreg => ?_
    refine yields_insertChild hne ?_
    -- the attributes are zero from the registration on
    have hget : ((fs'.iNodeManager.updateChild parent name ino).lookupINode ino).iNodes[ino]? =
        some (initializeINode (createEmptyINode .regularFile) ino (sIfreg ||| 0o777) 1 ctx.gid
          ctx.uid).lookup := getElem?_looked name hne hreg.get
    have hclear : (if opensForWriting flags then
        ((fs'.iNodeManager.updateChild parent name ino).lookupINode ino).modifyINode ino clearSize
        else (fs'.iNodeManager.updateChild parent name ino).lookupINode ino) =
        (fs'.iNodeManager.updateChild parent name ino).lookupINode ino := by
      split
      · exact modifyINode_eq_self hget rfl
      · rfl
    simp only [setNodes, hclear, getINodeByINodeNumber, hget, Option.map_some]
    exact ⟨_, _, rfl, .madeFile rfl hparent hreg hne (fresh_registered ..) rfl⟩

omit hin in
theorem fuseLink_change (ino : ℕ) (newparent : ℕ) (newname : Name) :
    Yields (fs.fuseLink ino newparent newname)
      (Change fs.iNodeManager (.link ino newparent newname)) := by
  refine yields_withDirectory (.refused _) fun d hparent _ => ?_
  split
  · exact yields_reply (.refused _)
  · rename_i hino
    have hino' : ino < fs.iNodeManager.iNodes.length := Nat.lt_of_not_le hino
    have hlinked : Yields ((fs.setNodes ((fs.iNodeManager.updateChild newparent newname
        ino).addHardLink ino)).replyEntry ino) (Change fs.iNodeManager (.link ino newparent newname)) :=
      yields_replyEntry (by simpa [setNodes] using hino') (.linked hparent hino')
    obtain ⟨fs', replies, hres, hchange⟩ := hlinked
    exact ⟨fs', _, by simp only [hres, Option.map_some]; rfl, hchange⟩

theorem fuseUnlink_change (parent : ℕ) (name : Name) :
    Yields (fs.fuseUnlink parent name) (Change fs.iNodeManager (.unlink parent name)) := by
  refine yields_withDirectory (.refused _) fun d hparent hd => ?_
  split
  · exact yields_reply (.refused _)
  · rename_i x hx
    have hentry : (fs.iNodeManager.childrenOf parent)[name]? = some x := hd ▸ hx
    rw [getINodeByINodeNumber, List.getElem?_eq_getElem (hin.entries parent name x hentry)]
    exact ⟨_, _, rfl, .unlinked hparent hentry⟩

theorem fuseRmdir_change (parent : ℕ) (name : Name) :
    Yields (fs.fuseRmdir parent name) (Change fs.iNodeManager (.rmdir parent name)) := by
  refine yields_withDirectory (.refused _) fun d hparent hd => ?_
  split
  · exact yields_reply (.refused _)
  · rename_i x hx
    have hentry : (fs.iNodeManager.childrenOf parent)[name]? = some x := hd ▸ hx
    have hget := List.getElem?_eq_getElem (hin.entries parent name x hentry)
    rw [getINodeByINodeNumber, hget, Option.bind_some]
    split
    · exact yields_reply (.refused _)
    · rename_i dir hdir
      split
      · exact yields_reply (.refused _)
      · refine ⟨_, _, rfl, .removed hparent hentry ?_⟩
        rw [isDirectory, hget, Option.elim_some, INode.isDirectory, hdir]
        rfl

theorem fuseRename_change (hspecial : fs.iNodeManager.isDirectory 0 = false) (parent : ℕ)
    (name : Name) (newparent : ℕ) (newname : Name) : Yields (fs.fuseRename parent name newparent newname)
      (Change fs.iNodeManager (.rename parent name newparent newname)) := by
  refine yields_withDirectory (.refused _) fun d hparent hd => ?_
  split
  · exact yields_reply (.refused _)
  · rename_i x hx
    have hentry : (fs.iNodeManager.childrenOf parent)[name]? = some x := hd ▸ hx
    refine yields_withDirectory (.refused _) fun d' hnew hd' => ?_
    have hold : d'.childINodeNumberWithName newname =
        (fs.iNodeManager.childrenOf newparent)[newname]? := by rw [hd']; rfl
    simp only [hold]
    cases hy : (fs.iNodeManager.childrenOf newparent)[newname]? with
    | none => exact ⟨_, _, rfl, .moved hparent hentry hnew (by simp [hy])⟩
    | some y =>
      have hlt := hin.entries newparent newname y hy
      have hget := List.getElem?_eq_getElem hlt
      have hkind : fs.iNodeManager.isDirectory y = fs.iNodeManager.iNodes[y].isDirectory := by
        rw [isDirectory, hget, Option.elim_some]
      rw [displace, getINodeByINodeNumber, hget]
      split
      · rename_i hzero
        refine ⟨_, _, rfl, .moved hparent hentry hnew ?_⟩
        rw [hy, hzero]
        rintro _ ⟨⟩
        exact hspecial
      · rw [Option.map_some, ← hkind]
        split
        · rename_i hdir
          exact ⟨_, _, rfl, .replaced hparent hentry hnew hy hdir⟩
        · rename_i hfile
          refine ⟨_, _, rfl, .moved hparent hentry hnew ?_⟩
          rw [hy]
          rintro _ ⟨⟩
          simpa using hfile

end Handlers

/-- A request that makes an inode, in a directory whose number is not reused for it. -/
theorem makes_change {r : Request} (hin : InTable fs.iNodeManager) {parent : ℕ} {name : Name}
    (hmakes : r.makes = some (parent, name)) (hkept : ¬ fs.ReusesNumberOf parent) :
    Yields (fs.handle r) (Change fs.iNodeManager r) := by
  cases r with
  | mknod ctx p n mode =>
    obtain ⟨rfl, rfl⟩ := Prod.mk.inj (Option.some.inj hmakes)
    exact fuseMknod_change hin ctx n mode hkept
  | mkdir p n =>
    obtain ⟨rfl, rfl⟩ := Prod.mk.inj (Option.some.inj hmakes)
    exact fuseMkdir_change hin n hkept
  | symlink ctx link p n =>
    obtain ⟨rfl, rfl⟩ := Prod.mk.inj (Option.some.inj hmakes)
    exact fuseSymlink_change hin ctx link n hkept
  | create ctx p n flags =>
    obtain ⟨rfl, rfl⟩ := Prod.mk.inj (Option.some.inj hmakes)
    exact fuseCreate_change hin ctx n flags hkept
  | _ => cases hmakes

/-- **What a request does.**  Every handler ends, and what it does to the table is one of the changes,
provided the kernel names only inodes that exist and makes new ones only in directories that are not
queued. -/
theorem handle_change (hwf : WellFormed fs.iNodeManager) (r : Request)
    (hforget : ∀ ino k, r = .forget ino k → ino < fs.iNodeManager.iNodes.length)
    (hkept : ∀ parent name, r.makes = some (parent, name) → parent ∉ fs.iNodeManager.deletedINodes) :
    Yields (fs.handle r) (Change fs.iNodeManager r) := by
  have hin := hwf.inTable
  have hreuse : ∀ parent name, r.makes = some (parent, name) → ¬ fs.ReusesNumberOf parent :=
    fun parent name hmakes hreuses => hkept parent name hmakes (List.mem_of_mem_head? hreuses.2)
  cases r with
  | lookup parent name => exact fuseLookup_change hin parent name
  | forget ino k => exact fuseForget_change k (hforget ino k rfl)
  | mknod _ parent name _ | mkdir parent name | symlink _ _ parent name | create _ parent name _ =>
    exact makes_change hin rfl (hreuse parent name rfl)
  | link ino newparent newname => exact fuseLink_change ino newparent newname
  | unlink parent name => exact fuseUnlink_change hin parent name
  | rmdir parent name => exact fuseRmdir_change hin parent name
  | rename parent name newparent newname =>
    exact fuseRename_change hin hwf.special parent name newparent newname

/-- Every entry names an inode of the table, whatever is asked. -/
theorem entriesValid_change {ns ns' : Nodes} {r : Request} (h : ns.EntriesValid)
    (hchange : Change ns r ns') : ns'.EntriesValid := by
  cases hchange with
  | refused => exact h
  | looked => exact h.sameEntries (lookupINode_sameEntries ..)
  | queued => exact (h.sameEntries (forget_sameEntries ..)).sameEntries (deleteINode_sameEntries ..)
  | kept => exact h.sameEntries (forget_sameEntries ..)
  | madeFile hmakes hparent hreg hne hfresh hfile =>
    exact (hreg.entriesValid_named hfresh.children hparent hne h).sameEntries
      (lookupINode_sameEntries ..)
  | madeDirectory hmakes hparent hreg hne hfresh hdir =>
    exact ((hreg.entriesValid_named hfresh.children hparent hne h).sameEntries
      (addHardLink_sameEntries ..)).sameEntries (lookupINode_sameEntries ..)
  | linked hparent hino =>
    exact ((h.updateChild hparent hino).sameEntries (addHardLink_sameEntries ..)).sameEntries
      (lookupINode_sameEntries ..)
  | unlinked hparent hentry =>
    exact (h.sameEntries (removeHardLink_sameEntries ..)).deleteChild (by simpa using hparent)
  | removed hparent hentry hdir =>
    exact ((h.sameEntries (removeHardLink_sameEntries ..)).sameEntries
      (removeAllHardLinks_sameEntries ..)).deleteChild (by simpa using hparent)
  | moved hparent hentry hnew hold =>
    exact (h.updateChild hnew (h _ _ _ hentry)).deleteChild (by simpa using hparent)
  | @replaced parent newparent x y name newname hparent hentry hnew hold hdir =>
    have hadjusted : ((ns.removeHardLink parent).addHardLink newparent).EntriesValid :=
      (h.sameEntries (removeHardLink_sameEntries ..)).sameEntries (addHardLink_sameEntries ..)
    exact (hadjusted.updateChild (by simpa using hnew) (by simpa using h _ _ _ hentry)).deleteChild
      (by simpa using hparent)

theorem exists_step {r : Request} (h : Yields (fs.handle r) P) :
    ∃ fs', fs.step r = some fs' ∧ P fs'.iNodeManager := by
  obtain ⟨fs', replies, hres, hP⟩ := h
  exact ⟨fs', by rw [step, hres]; rfl, hP⟩

end FileSystem

end DagonFs
