import DagonFs.FileSystem.Answers

/-!
# File systems that differ in the bytes of files only

`Like fs fs'`: the two file systems have the same inodes, but for the bytes in the buffers of files and the
extended attributes.  The namespace handlers look at neither, so they keep file systems alike
(`handle_like`).
-/

namespace DagonFs

open DagonFs.Nodes

/-! ### Inodes without bytes -/

/-- The buffer keeps its length. -/
def File.blank (f : File) : File := { f with mBuf := f.mBuf.map fun bytes => bytes.map fun _ => 0 }

def Kind.blank : Kind → Kind
  | .file f => .file f.blank
  | k => k

def INode.blank (i : INode) : INode := { i with kind := i.kind.blank, mXattr := ∅ }

/-- The operation does to an inode without bytes what it does to the inode. -/
def Natural (f : INode → INode) : Prop := ∀ i, (f i).blank = f i.blank

theorem blank_eq_cases {i i' : INode} (h : i.blank = i'.blank) :
    i.mNlookup = i'.mNlookup ∧ i.markedForDeletion = i'.markedForDeletion ∧
      i.inodeNumber = i'.inodeNumber ∧ i.attr = i'.attr ∧ i.kind.blank = i'.kind.blank := by
  simp only [INode.blank, INode.mk.injEq, and_true] at h
  exact h

theorem blank_asDirectory (i : INode) : i.blank.asDirectory = i.asDirectory := by
  obtain ⟨_, _, _, _, k, _⟩ := i
  cases k <;> rfl

theorem natural_lookup : Natural INode.lookup := fun _ => rfl
theorem natural_forget (k : ℕ) : Natural (·.forget k) := fun _ => rfl
theorem natural_addHardLink : Natural INode.addHardLink := fun _ => rfl
theorem natural_clearSize : Natural FileSystem.clearSize := fun _ => rfl

theorem natural_removeHardLink : Natural INode.removeHardLink := by
  intro i
  show INode.blank (if decr i.attr.stNlink == 0 then _ else _) = if decr i.attr.stNlink == 0 then _ else _
  split <;> rfl

theorem natural_removeHardLinks (fuel : ℕ) : Natural (INode.removeHardLinks fuel) := by
  induction fuel with
  | zero => exact fun _ => rfl
  | succ fuel ih =>
    intro i
    have hlinks : i.blank.hasNoLinks = i.hasNoLinks := rfl
    rw [INode.removeHardLinks, INode.removeHardLinks, hlinks]
    split
    · rfl
    · rw [ih, natural_removeHardLink]

theorem natural_removeAllHardLinks : Natural INode.removeAllHardLinks := fun i =>
  natural_removeHardLinks i.attr.stNlink i

theorem natural_onDirectory (g : Directory → Directory) : Natural (onDirectory g) := by
  intro i
  obtain ⟨_, _, _, _, k, _⟩ := i
  cases k <;> rfl

theorem natural_setLink (link : Name) : Natural (FileSystem.setLink link) := by
  intro i
  obtain ⟨_, _, _, _, k, _⟩ := i
  cases k <;> rfl

theorem natural_initializeINode (ino mode nlink gid uid : ℕ) :
    Natural (initializeINode · ino mode nlink gid uid) := fun _ => rfl

/-! ### Tables without bytes -/

namespace Nodes

def blank (ns : Nodes) : Nodes := { ns with iNodes := ns.iNodes.map INode.blank }

variable (ns : Nodes)

theorem blank_length : ns.blank.iNodes.length = ns.iNodes.length := List.length_map _

theorem blank_getElem? (x : ℕ) : ns.blank.iNodes[x]? = ns.iNodes[x]?.map INode.blank := List.getElem?_map

theorem blank_directoryAt (x : ℕ) : ns.blank.directoryAt x = ns.directoryAt x := by
  rw [directoryAt, blank_getElem?, directoryAt]
  cases ns.iNodes[x]? with
  | none => rfl
  | some i => exact blank_asDirectory i

/-- Two operations on the inode of one number. -/
theorem blank_modifyINode_pair {ns ns' : Nodes} (h : ns.blank = ns'.blank) {f f' : INode → INode} {x : ℕ}
    (hf : ∀ i i', ns.iNodes[x]? = some i → ns'.iNodes[x]? = some i' → i.blank = i'.blank →
      (f i).blank = (f' i').blank) : (ns.modifyINode x f).blank = (ns'.modifyINode x f').blank := by
  have hqueue : ns.blank.deletedINodes = ns'.blank.deletedINodes := by rw [h]
  have hget : ∀ y : ℕ, ns.iNodes[y]?.map INode.blank = ns'.iNodes[y]?.map INode.blank := by
    intro y
    rw [← blank_getElem?, h, blank_getElem?]
  show Nodes.mk _ ns.blank.deletedINodes = Nodes.mk _ ns'.blank.deletedINodes
  rw [hqueue, Nodes.mk.injEq]
  refine ⟨?_, rfl⟩
  apply List.ext_getElem?
  intro y
  rw [List.getElem?_map, List.getElem?_map, modifyINode_getElem?, modifyINode_getElem?]
  by_cases hy : x = y
  · subst hy
    rw [if_pos rfl, if_pos rfl]
    have hx := hget x
    cases hi : ns.iNodes[x]? with
    | none =>
      rw [hi] at hx
      rw [Option.map_eq_none_iff.mp hx.symm]
      rfl
    | some i =>
      rw [hi] at hx
      obtain ⟨i', hi', hblank⟩ := Option.map_eq_some_iff.mp hx.symm
      rw [hi']
      exact congrArg some (hf i i' hi hi' hblank.symm)
  · rw [if_neg hy, if_neg hy]
    exact hget y

theorem blank_modifyINode_congr {ns ns' : Nodes} (h : ns.blank = ns'.blank) {f : INode → INode}
    (hf : Natural f) (x : ℕ) : (ns.modifyINode x f).blank = (ns'.modifyINode x f).blank := by
  apply blank_modifyINode_pair h
  intro i i' _ _ hi
  rw [hf, hi, hf]

theorem blank_setINodeAt (x : ℕ) (i : INode) :
    (ns.setINodeAt x i).blank = ns.blank.setINodeAt x i.blank := by
  rw [blank, setINodeAt, setINodeAt, blank, List.map_set]

theorem blank_addINode (i : INode) :
    (ns.addINode i).1.blank = (ns.blank.addINode i.blank).1 := by
  rw [blank, addINode, addINode, blank, List.map_append, List.map_singleton]

end Nodes

namespace FileSystem

/-- The same file system, but for the bytes of files, the extended attributes, and what no namespace handler
looks at. -/
structure Like (fs fs' : FileSystem) : Prop where
  nodes : fs.iNodeManager.blank = fs'.iNodeManager.blank
  reclaiming : fs.mReclaimingINodes = fs'.mReclaimingINodes
  process : fs.process = fs'.process

/-- Where both handlers end, they end alike. -/
def Alike (res res' : Result) : Prop := ∀ fs₁ r fs₁' r', res = some (fs₁, r) → res' = some (fs₁', r') →
  fs₁.Like fs₁'

namespace Like

variable {fs fs' : FileSystem} (h : fs.Like fs')

theorem refl (fs : FileSystem) : fs.Like fs := ⟨rfl, rfl, rfl⟩

include h

theorem symm : fs'.Like fs := ⟨h.nodes.symm, h.reclaiming.symm, h.process.symm⟩

theorem trans {fs₁ : FileSystem} (h₁ : fs'.Like fs₁) : fs.Like fs₁ :=
  ⟨h.nodes.trans h₁.nodes, h.reclaiming.trans h₁.reclaiming, h.process.trans h₁.process⟩

theorem length : fs.iNodeManager.iNodes.length = fs'.iNodeManager.iNodes.length := by
  rw [← blank_length, h.nodes, blank_length]

theorem queue : fs.iNodeManager.deletedINodes = fs'.iNodeManager.deletedINodes := by
  show fs.iNodeManager.blank.deletedINodes = fs'.iNodeManager.blank.deletedINodes
  rw [h.nodes]

theorem directoryAt (x : ℕ) : fs.iNodeManager.directoryAt x = fs'.iNodeManager.directoryAt x := by
  rw [← blank_directoryAt, h.nodes, blank_directoryAt]

theorem getINode (x : ℕ) : (fs.iNodeManager.getINodeByINodeNumber x).map INode.blank =
    (fs'.iNodeManager.getINodeByINodeNumber x).map INode.blank := by
  rw [getINodeByINodeNumber, ← blank_getElem?, h.nodes, blank_getElem?, getINodeByINodeNumber]

theorem setNodes {ns ns' : Nodes} (hns : ns.blank = ns'.blank) :
    (fs.setNodes ns).Like (fs'.setNodes ns') := ⟨hns, h.reclaiming, h.process⟩

theorem modifyINode {f : INode → INode} (hf : Natural f) (x : ℕ) :
    (fs.setNodes (fs.iNodeManager.modifyINode x f)).Like
      (fs'.setNodes (fs'.iNodeManager.modifyINode x f)) :=
  h.setNodes (blank_modifyINode_congr h.nodes hf x)

end Like

/-- Whether the next registration reclaims an inode. -/
theorem stopReclaiming_congr {fs fs' : FileSystem}
    (hqueue : fs.iNodeManager.deletedINodes = fs'.iNodeManager.deletedINodes)
    (hreclaiming : fs.mReclaimingINodes = fs'.mReclaimingINodes) :
    fs.stopReclaiming.mReclaimingINodes = fs'.stopReclaiming.mReclaimingINodes := by
  rw [stopReclaiming, stopReclaiming, getNumberOfDeletedINodes, getNumberOfDeletedINodes, hqueue]
  split
  · rfl
  · exact hreclaiming

/-- Registrations take the same number. -/
theorem Like.registerINode {fs fs' fs₁ fs₁' : FileSystem} (h : fs.Like fs') {type : INodeType}
    {mode nlink gid uid ino ino' : ℕ} (hres : fs.registerINode type mode nlink gid uid = some (fs₁, ino))
    (hres' : fs'.registerINode type mode nlink gid uid = some (fs₁', ino')) :
    ino = ino' ∧ fs₁.Like fs₁' := by
  have hreclaiming := stopReclaiming_congr h.queue h.reclaiming
  have hprocess : fs.stopReclaiming.process = fs'.stopReclaiming.process := by
    rw [stopReclaiming_process, stopReclaiming_process, h.process]
  simp only [FileSystem.registerINode, stopReclaiming_iNodeManager] at hres hres'
  rw [← hreclaiming] at hres'
  cases hon : fs.stopReclaiming.mReclaimingINodes with
  | true =>
    rw [hon, if_pos rfl] at hres hres'
    obtain ⟨⟨x, ns⟩, hqueue, hres⟩ := Option.bind_eq_some_iff.mp hres
    obtain ⟨⟨x', ns'⟩, hqueue', hres'⟩ := Option.bind_eq_some_iff.mp hres'
    obtain ⟨del, -, hend⟩ := Option.map_eq_some_iff.mp hres
    obtain ⟨del', -, hend'⟩ := Option.map_eq_some_iff.mp hres'
    obtain ⟨rfl, rfl⟩ := Prod.mk.inj hend
    obtain ⟨rfl, rfl⟩ := Prod.mk.inj hend'
    have hsame : x = x' ∧ ns.blank = ns'.blank := by
      simp only [reclaimINode, h.queue] at hqueue
      simp only [reclaimINode] at hqueue'
      cases hdeleted : fs'.iNodeManager.deletedINodes with
      | nil =>
        rw [hdeleted] at hqueue
        cases hqueue
      | cons y rest =>
        rw [hdeleted] at hqueue hqueue'
        cases hqueue
        cases hqueue'
        refine ⟨rfl, ?_⟩
        have hnodes : fs.iNodeManager.iNodes.map INode.blank = fs'.iNodeManager.iNodes.map INode.blank :=
          congrArg Nodes.iNodes h.nodes
        rw [blank, blank, hnodes]
    obtain ⟨rfl, hns⟩ := hsame
    refine ⟨rfl, ?_, hreclaiming, hprocess⟩
    apply blank_modifyINode_congr _ (natural_initializeINode _ _ _ _ _)
    show (Nodes.setINodeAt _ _ _).blank = (Nodes.setINodeAt _ _ _).blank
    rw [blank_setINodeAt, blank_setINodeAt, hns]
  | false =>
    rw [hon, if_neg Bool.false_ne_true] at hres hres'
    obtain ⟨rfl, rfl⟩ := Prod.mk.inj (Option.some.inj hres)
    obtain ⟨rfl, rfl⟩ := Prod.mk.inj (Option.some.inj hres')
    refine ⟨h.length, ?_, hreclaiming, hprocess⟩
    have hadded : (fs.iNodeManager.addINode (createEmptyINode type)).1.blank =
        (fs'.iNodeManager.addINode (createEmptyINode type)).1.blank := by
      rw [blank_addINode, blank_addINode, h.nodes]
    have hnumber : (fs.iNodeManager.addINode (createEmptyINode type)).2 =
        (fs'.iNodeManager.addINode (createEmptyINode type)).2 := h.length
    show (Nodes.modifyINode _ _ _).blank = (Nodes.modifyINode _ _ _).blank
    rw [hnumber]
    exact blank_modifyINode_congr hadded (natural_initializeINode _ _ _ _ _) _

/-! ### Handlers that end alike -/

namespace Alike

variable {fs fs' : FileSystem} {res res' : Result}

theorem none : Alike none res := by
  intro _ _ _ _ h
  cases h

theorem some (h : fs.Like fs') (r r' : List Reply) : Alike (some (fs, r)) (some (fs', r')) := by
  intro fs₁ r₁ fs₁' r₁' h₁ h₁'
  obtain ⟨rfl, -⟩ := Prod.mk.inj (Option.some.inj h₁)
  obtain ⟨rfl, -⟩ := Prod.mk.inj (Option.some.inj h₁')
  exact h

theorem reply (h : fs.Like fs') (r r' : Reply) : Alike (fs.reply r) (fs'.reply r') := some h _ _

theorem ite {p : Prop} [Decidable p] {res₁ res₁' : Result} (h : Alike res res') (h₁ : Alike res₁ res₁') :
    Alike (if p then res else res₁) (if p then res' else res₁') := by
  split
  · exact h
  · exact h₁

/-- The inodes of the same number differ in bytes only. -/
theorem atINode (h : fs.Like fs') (x : ℕ) {k k' : INode → Result}
    (hk : ∀ i i', i.blank = i'.blank → Alike (k i) (k' i')) :
    Alike ((fs.iNodeManager.getINodeByINodeNumber x).bind k)
      ((fs'.iNodeManager.getINodeByINodeNumber x).bind k') := by
  have hget := h.getINode x
  cases hi : fs.iNodeManager.getINodeByINodeNumber x with
  | none => exact none
  | some i =>
    cases hi' : fs'.iNodeManager.getINodeByINodeNumber x with
    | none =>
      rw [hi, hi'] at hget
      cases hget
    | some i' =>
      rw [hi, hi'] at hget
      exact hk i i' (Option.some.inj hget)

theorem withDirectory (h : fs.Like fs') (parent : ℕ) (e : Errno) {k k' : Directory → Result}
    (hk : ∀ dir, Alike (k dir) (k' dir)) :
    Alike (fs.withDirectory parent e k) (fs'.withDirectory parent e k') := by
  rw [FileSystem.withDirectory, FileSystem.withDirectory, getNumberOfINodes, getNumberOfINodes, h.length,
    h.directoryAt]
  apply ite (reply h _ _)
  cases fs'.iNodeManager.directoryAt parent with
  | none => exact reply h _ _
  | some dir => exact hk dir

theorem replyEntry (h : fs.Like fs') (ino : ℕ) : Alike (fs.replyEntry ino) (fs'.replyEntry ino) := by
  rw [FileSystem.replyEntry, FileSystem.replyEntry, Option.map_eq_bind, Option.map_eq_bind]
  apply atINode h
  intro i i' _
  exact some (h.modifyINode natural_lookup ino) _ _

theorem insertChild (h : fs.Like fs') (parent : ℕ) (name : Name) (ino : ℕ) {k k' : FileSystem → Result}
    (hk : ∀ fs₁ fs₁', fs₁.Like fs₁' → Alike (k fs₁) (k' fs₁')) :
    Alike ((fs.insertChild parent name ino).bind k) ((fs'.insertChild parent name ino).bind k') := by
  rw [FileSystem.insertChild, FileSystem.insertChild]
  split
  · exact none
  · exact hk _ _ (h.modifyINode (natural_onDirectory _) parent)

theorem withINode (h : fs.Like fs') (type : INodeType) (mode nlink gid uid : ℕ)
    {k k' : FileSystem → ℕ → Result}
    (hk : ∀ fs₁ fs₁' ino, fs₁.Like fs₁' → Alike (k fs₁ ino) (k' fs₁' ino)) :
    Alike (fs.withINode type mode nlink gid uid k) (fs'.withINode type mode nlink gid uid k') := by
  intro fs₂ r fs₂' r' hrun hrun'
  unfold FileSystem.withINode at hrun hrun'
  split at hrun
  · cases hrun
  · rename_i fs₁ ino hres
    split at hrun'
    · cases hrun'
    · rename_i fs₁' ino' hres'
      obtain ⟨rfl, hlike⟩ := h.registerINode hres hres'
      exact hk fs₁ fs₁' ino hlike fs₂ r fs₂' r' hrun hrun'

theorem mknodAs (h : fs.Like fs') (ctx : Ids) (parent : ℕ) (name : Name) (type : INodeType)
    (nlink mode : ℕ) : Alike (fs.mknodAs ctx parent name type nlink mode)
      (fs'.mknodAs ctx parent name type nlink mode) := by
  apply withINode h
  intro fs₁ fs₁' ino h₁
  apply insertChild h₁
  intro fs₂ fs₂' h₂
  exact replyEntry h₂ ino

end Alike

theorem displace_blank {ns ns' ns₁ ns₁' : Nodes} (h : ns.blank = ns'.blank) (parent newparent : ℕ)
    (existing : Option ℕ) (hrun : displace ns parent newparent existing = some ns₁)
    (hrun' : displace ns' parent newparent existing = some ns₁') : ns₁.blank = ns₁'.blank := by
  cases existing with
  | none =>
    obtain rfl := Option.some.inj hrun
    obtain rfl := Option.some.inj hrun'
    exact h
  | some x =>
    simp only [displace] at hrun hrun'
    split at hrun
    · rename_i hzero
      rw [if_pos hzero] at hrun'
      obtain rfl := Option.some.inj hrun
      obtain rfl := Option.some.inj hrun'
      exact h
    · rename_i hne
      rw [if_neg hne] at hrun'
      obtain ⟨i, hi, rfl⟩ := Option.map_eq_some_iff.mp hrun
      obtain ⟨i', hi', rfl⟩ := Option.map_eq_some_iff.mp hrun'
      have hget : some i.blank = some i'.blank := by
        have hmap : ns.iNodes[x]?.map INode.blank = ns'.iNodes[x]?.map INode.blank := by
          rw [← blank_getElem?, h, blank_getElem?]
        rw [getINodeByINodeNumber] at hi hi'
        rwa [hi, hi'] at hmap
      have hdir : i.isDirectory = i'.isDirectory := by
        rw [INode.isDirectory, ← blank_asDirectory, Option.some.inj hget, blank_asDirectory,
          INode.isDirectory]
      rw [hdir]
      split
      · exact blank_modifyINode_congr (blank_modifyINode_congr h natural_removeHardLink _)
          natural_addHardLink _
      · exact h

/-- **The namespace handlers keep file systems alike.** -/
theorem handle_like {fs fs' : FileSystem} (h : fs.Like fs') (r : Request) :
    Alike (fs.handle r) (fs'.handle r) := by
  cases r with
  | lookup parent name =>
    apply Alike.withDirectory h
    intro dir
    cases dir.childINodeNumberWithName name with
    | none => exact Alike.reply h _ _
    | some ino => exact Alike.replyEntry h ino
  | forget ino nlookup =>
    show Alike (fs.fuseForget ino nlookup) (fs'.fuseForget ino nlookup)
    rw [fuseForget, fuseForget, Option.map_eq_bind, Option.map_eq_bind]
    apply Alike.atINode h
    intro i i' hi
    obtain ⟨hlookup, -, -, hattr, -⟩ := blank_eq_cases hi
    have hforgotten : (i.forget nlookup).forgotten = (i'.forget nlookup).forgotten := by
      rw [INode.forgotten, INode.forget, hlookup]
      rfl
    have hlinks : (i.forget nlookup).hasNoLinks = (i'.forget nlookup).hasNoLinks := by
      rw [INode.hasNoLinks, INode.hasNoLinks, INode.forget_stNlink, INode.forget_stNlink, hattr]
    simp only [Function.comp, hforgotten, hlinks]
    have hns := blank_modifyINode_congr h.nodes (natural_forget nlookup) ino
    have hdeleted : ((fs.iNodeManager.forget ino nlookup).deleteINode ino).blank =
        ((fs'.iNodeManager.forget ino nlookup).deleteINode ino).blank := by
      have hinodes : (fs.iNodeManager.forget ino nlookup).iNodes.map INode.blank =
        (fs'.iNodeManager.forget ino nlookup).iNodes.map INode.blank := congrArg Nodes.iNodes hns
      rw [blank, blank, deleteINode, deleteINode, hinodes, forget_deletedINodes, forget_deletedINodes,
        h.queue]
    split
    · refine Alike.some ?_ _ _
      refine ⟨hdeleted, ?_, h.process⟩
      have hcount : ((fs.iNodeManager.forget ino nlookup).deleteINode ino).getNumberOfDeletedINodes =
          ((fs'.iNodeManager.forget ino nlookup).deleteINode ino).getNumberOfDeletedINodes := by
        simp only [getNumberOfDeletedINodes, deleteINode, forget_deletedINodes, h.queue]
      simp only [hcount, h.reclaiming]
    · exact Alike.some (h.setNodes hns) _ _
  | mknod ctx parent name mode =>
    apply Alike.withDirectory h
    intro dir
    apply Alike.ite (Alike.reply h _ _)
    apply Alike.ite
    · exact Alike.mknodAs (h.modifyINode natural_addHardLink parent) ctx parent name _ _ _
    · exact Alike.ite (Alike.mknodAs h ctx parent name _ _ _) (Alike.reply h _ _)
  | mkdir parent name =>
    apply Alike.withDirectory h
    intro dir
    rw [h.process]
    apply Alike.withINode h
    intro fs₁ fs₁' ino h₁
    apply Alike.insertChild h₁
    intro fs₂ fs₂' h₂
    exact Alike.replyEntry (h₂.modifyINode natural_addHardLink parent) ino
  | symlink ctx link parent name =>
    apply Alike.withDirectory h
    intro dir
    apply Alike.withINode h
    intro fs₁ fs₁' ino h₁
    apply Alike.insertChild (h₁.modifyINode (natural_setLink link) ino)
    intro fs₂ fs₂' h₂
    exact Alike.replyEntry h₂ ino
  | create ctx parent name flags =>
    apply Alike.withDirectory h
    intro dir
    apply Alike.ite (Alike.reply h _ _)
    apply Alike.withINode h
    intro fs₁ fs₁' ino h₁
    have hcreated : Like { fs₁ with blocksManager := fs₁.blocksManager.createEmptyBlockListForInode ino }
        { fs₁' with blocksManager := fs₁'.blocksManager.createEmptyBlockListForInode ino } :=
      ⟨h₁.nodes, h₁.reclaiming, h₁.process⟩
    apply Alike.insertChild hcreated
    intro fs₂ fs₂' h₂ fs₃ r fs₃' r' hrun hrun'
    obtain ⟨i, -, hend⟩ := Option.map_eq_some_iff.mp hrun
    obtain ⟨i', -, hend'⟩ := Option.map_eq_some_iff.mp hrun'
    obtain ⟨rfl, -⟩ := Prod.mk.inj hend
    obtain ⟨rfl, -⟩ := Prod.mk.inj hend'
    have hns := blank_modifyINode_congr h₂.nodes natural_lookup ino
    split
    · exact h₂.setNodes (blank_modifyINode_congr hns natural_clearSize ino)
    · exact h₂.setNodes hns
  | link ino newparent newname =>
    apply Alike.withDirectory h
    intro dir
    rw [getNumberOfINodes, getNumberOfINodes, h.length]
    apply Alike.ite (Alike.reply h _ _)
    intro fs₁ r fs₁' r' hrun hrun'
    obtain ⟨⟨fs₂, r₂⟩, hentry, hend⟩ := Option.map_eq_some_iff.mp hrun
    obtain ⟨⟨fs₂', r₂'⟩, hentry', hend'⟩ := Option.map_eq_some_iff.mp hrun'
    obtain ⟨rfl, -⟩ := Prod.mk.inj hend
    obtain ⟨rfl, -⟩ := Prod.mk.inj hend'
    have hns := blank_modifyINode_congr (blank_modifyINode_congr h.nodes (natural_onDirectory fun d =>
      (d.updateChild newname ino).1) newparent) natural_addHardLink ino
    exact Alike.replyEntry (h.setNodes hns) ino _ _ _ _ hentry hentry'
  | unlink parent name =>
    apply Alike.withDirectory h
    intro dir
    cases dir.childINodeNumberWithName name with
    | none => exact Alike.reply h _ _
    | some ino =>
      simp only [Option.map_eq_bind]
      apply Alike.atINode h
      intro i i' _
      exact Alike.some (h.setNodes (blank_modifyINode_congr (blank_modifyINode_congr h.nodes
        natural_removeHardLink ino) (natural_onDirectory _) parent)) _ _
  | rmdir parent name =>
    apply Alike.withDirectory h
    intro dir
    cases dir.childINodeNumberWithName name with
    | none => exact Alike.reply h _ _
    | some ino =>
      apply Alike.atINode h
      intro i i' hi
      have hdir : i.asDirectory = i'.asDirectory := by
        rw [← blank_asDirectory, hi, blank_asDirectory]
      rw [hdir]
      cases i'.asDirectory with
      | none => exact Alike.reply h _ _
      | some target =>
        apply Alike.ite (Alike.reply h _ _)
        have hns := blank_modifyINode_congr (blank_modifyINode_congr h.nodes natural_removeHardLink parent)
          natural_removeAllHardLinks ino
        exact Alike.some (h.setNodes (blank_modifyINode_congr hns (natural_onDirectory _) parent)) _ _
  | rename parent name newparent newname =>
    apply Alike.withDirectory h
    intro dir
    cases dir.childINodeNumberWithName name with
    | none => exact Alike.reply h _ _
    | some ino =>
      apply Alike.withDirectory h
      intro newDir fs₁ r fs₁' r' hrun hrun'
      obtain ⟨ns, hns, hend⟩ := Option.map_eq_some_iff.mp hrun
      obtain ⟨ns', hns', hend'⟩ := Option.map_eq_some_iff.mp hrun'
      obtain ⟨rfl, -⟩ := Prod.mk.inj hend
      obtain ⟨rfl, -⟩ := Prod.mk.inj hend'
      have hblank := displace_blank h.nodes _ _ _ hns hns'
      exact h.setNodes (blank_modifyINode_congr (blank_modifyINode_congr hblank (natural_onDirectory _)
        newparent) (natural_onDirectory _) parent)

end FileSystem

end DagonFs
