import DagonFs.ClientServer.FileState
import DagonFs.FileSystem.Likeness

/-!
# The file that a namespace request makes

A request that makes an inode gives it the number that the next registration takes (`Makes`).  It leaves
every other file as it is, with its block list (`handle_leavesFile`).
-/

namespace DagonFs

open DagonFs.Nodes

namespace FileSystem

/-- The number that the next registration takes. -/
def nextINode (fs : FileSystem) : ℕ :=
  if fs.stopReclaiming.mReclaimingINodes then fs.iNodeManager.deletedINodes.headD 0
  else fs.iNodeManager.iNodes.length

theorem registerINode_next {fs fs' : FileSystem} {type : INodeType} {mode nlink gid uid ino : ℕ}
    (hres : fs.registerINode type mode nlink gid uid = some (fs', ino)) : ino = fs.nextINode := by
  simp only [registerINode, stopReclaiming_iNodeManager, addINode] at hres
  rw [nextINode]
  split at hres
  · rename_i hreclaiming
    rw [if_pos hreclaiming]
    obtain ⟨⟨x, ns⟩, hqueue, hres⟩ := Option.bind_eq_some_iff.mp hres
    obtain ⟨del, -, hend⟩ := Option.map_eq_some_iff.mp hres
    obtain ⟨-, rfl⟩ := Prod.mk.inj hend
    rw [reclaimINode] at hqueue
    cases hdeleted : fs.iNodeManager.deletedINodes with
    | nil =>
      rw [hdeleted] at hqueue
      cases hqueue
    | cons y rest =>
      rw [hdeleted] at hqueue
      cases hqueue
      rfl
  · rename_i hreclaiming
    rw [if_neg hreclaiming]
    exact (Prod.mk.inj (Option.some.inj hres)).2.symm

/-- The request gets as far as the registration of an inode, which takes the number `x`. -/
def Makes (fs : FileSystem) (r : Request) (x : ℕ) : Prop :=
  (registersIn fs.iNodeManager r).isSome = true ∧ fs.nextINode = x

instance (fs : FileSystem) (r : Request) (x : ℕ) : Decidable (fs.Makes r x) :=
  inferInstanceAs (Decidable (_ ∧ _))

theorem nextINode_congr {fs fs' : FileSystem}
    (hlength : fs.iNodeManager.iNodes.length = fs'.iNodeManager.iNodes.length)
    (hqueue : fs.iNodeManager.deletedINodes = fs'.iNodeManager.deletedINodes)
    (hreclaiming : fs.mReclaimingINodes = fs'.mReclaimingINodes) : fs.nextINode = fs'.nextINode := by
  rw [nextINode, nextINode, stopReclaiming_congr hqueue hreclaiming, hqueue, hlength]

theorem Like.makes {fs fs' : FileSystem} (h : fs.Like fs') (r : Request) (x : ℕ) :
    fs.Makes r x ↔ fs'.Makes r x := by
  have hdir : fs.iNodeManager.isDirectory = fs'.iNodeManager.isDirectory := by
    funext y
    rw [isDirectory_eq_isSome, isDirectory_eq_isSome, h.directoryAt]
  have hin : registersIn fs.iNodeManager r = registersIn fs'.iNodeManager r := by
    cases r <;> simp only [registersIn, hdir]
  rw [Makes, Makes, hin, nextINode_congr h.length h.queue h.reclaiming]

theorem displace_cases {ns ns' : Nodes} {parent newparent : ℕ} {existing : Option ℕ}
    (h : displace ns parent newparent existing = some ns') :
    ns' = ns ∨ ns' = (ns.removeHardLink parent).addHardLink newparent := by
  cases existing with
  | none => exact Or.inl (Option.some.inj h).symm
  | some x =>
    simp only [displace] at h
    split at h
    · exact Or.inl (Option.some.inj h).symm
    · obtain ⟨i, -, rfl⟩ := Option.map_eq_some_iff.mp h
      split
      · exact Or.inr rfl
      · exact Or.inl rfl

/-! ### What every handler keeps

A handler changes the state by operations on inodes that do not touch a file, by registering an inode, by
queueing one, by making an empty block list, and by clearing the size of the inode it has made. -/

/-- An operation that does not touch the file of an inode, and the count of its blocks. -/
def KeepsFile (f : INode → INode) : Prop :=
  ∀ i, (f i).attr.stBlocks = i.attr.stBlocks ∧ (f i).fileState = i.fileState

theorem keepsFile_addHardLink : KeepsFile INode.addHardLink := fun _ => ⟨rfl, rfl⟩

theorem keepsFile_lookup : KeepsFile INode.lookup := fun _ => ⟨rfl, rfl⟩

theorem keepsFile_forget (nlookup : ℕ) : KeepsFile (·.forget nlookup) := fun _ => ⟨rfl, rfl⟩

theorem keepsFile_removeHardLink : KeepsFile INode.removeHardLink := by
  intro i
  unfold INode.removeHardLink
  dsimp only
  split <;> exact ⟨rfl, rfl⟩

theorem keepsFile_removeAllHardLinks : KeepsFile INode.removeAllHardLinks := by
  have hloop : ∀ fuel, KeepsFile (INode.removeHardLinks fuel) := by
    intro fuel
    induction fuel with
    | zero => exact fun _ => ⟨rfl, rfl⟩
    | succ fuel ih =>
      intro i
      rw [INode.removeHardLinks]
      split
      · exact ⟨rfl, rfl⟩
      · obtain ⟨hblocks, hfile⟩ := ih i.removeHardLink
        obtain ⟨hblocks', hfile'⟩ := keepsFile_removeHardLink i
        exact ⟨hblocks.trans hblocks', hfile.trans hfile'⟩
  exact fun i => hloop i.attr.stNlink i

theorem keepsFile_onDirectory (g : Directory → Directory) : KeepsFile (onDirectory g) := by
  intro i
  obtain ⟨_, _, _, _, k, _⟩ := i
  cases k <;> exact ⟨rfl, rfl⟩

theorem keepsFile_setLink (link : Name) : KeepsFile (setLink link) := by
  intro i
  obtain ⟨_, _, _, _, k, _⟩ := i
  cases k <;> exact ⟨rfl, rfl⟩

/-- `P` is kept by all that a handler does, apart from the registration. -/
structure Stable (P : FileSystem → Prop) : Prop where
  modifyINode : ∀ {fs : FileSystem} {f : INode → INode}, KeepsFile f → P fs →
    ∀ y, P (fs.setNodes (fs.iNodeManager.modifyINode y f))
  queue : ∀ {fs : FileSystem}, P fs → ∀ ino reclaiming,
    P { fs with iNodeManager := fs.iNodeManager.deleteINode ino, mReclaimingINodes := reclaiming }
  blockList : ∀ {fs : FileSystem}, P fs → ∀ ino,
    P { fs with blocksManager := fs.blocksManager.createEmptyBlockListForInode ino }

/-- Where the handler ends, its state meets `P`. -/
def Ensures (P : FileSystem → Prop) (res : Result) : Prop :=
  ∀ fs' replies, res = some (fs', replies) → P fs'

namespace Ensures

variable {P : FileSystem → Prop} {fs : FileSystem} {res res' : Result}

theorem some (h : P fs) (replies : List Reply) : Ensures P (some (fs, replies)) := by
  intro fs' r hr
  obtain ⟨rfl, -⟩ := Prod.mk.inj (Option.some.inj hr)
  exact h

theorem reply (h : P fs) (r : Reply) : Ensures P (fs.reply r) := some h _

theorem ite {p : Prop} [Decidable p] (h : Ensures P res) (h' : Ensures P res') :
    Ensures P (if p then res else res') := by
  split
  · exact h
  · exact h'

theorem bind {α : Type} {o : Option α} {k : α → Result} (h : ∀ a, o = Option.some a → Ensures P (k a)) :
    Ensures P (o.bind k) := by
  intro fs' replies hrun
  obtain ⟨a, ha, hend⟩ := Option.bind_eq_some_iff.mp hrun
  exact h a ha fs' replies hend

theorem withDirectory (h : P fs) {parent : ℕ} {e : Errno} {k : Directory → Result}
    (hk : ∀ dir, Ensures P (k dir)) : Ensures P (fs.withDirectory parent e k) := by
  unfold FileSystem.withDirectory
  split
  · exact reply h _
  · split
    · exact reply h _
    · exact hk _

theorem replyEntry (hP : Stable P) (h : P fs) (ino : ℕ) : Ensures P (fs.replyEntry ino) := by
  rw [FileSystem.replyEntry, Option.map_eq_bind]
  apply bind
  intro i _
  exact some (hP.modifyINode keepsFile_lookup h ino) _

theorem insertChild (hP : Stable P) (h : P fs) {parent ino : ℕ} {name : Name} {k : FileSystem → Result}
    (hk : ∀ fs₁, fs₁ = fs.setNodes (fs.iNodeManager.updateChild parent name ino) → P fs₁ →
      Ensures P (k fs₁)) : Ensures P ((fs.insertChild parent name ino).bind k) := by
  rw [FileSystem.insertChild]
  split
  · intro fs' replies hrun
    cases hrun
  · exact hk _ rfl (hP.modifyINode (keepsFile_onDirectory _) h parent)

/-- A new inode, whose file is as it is created. -/
theorem withINode {type : INodeType} {mode nlink gid uid : ℕ} {k : FileSystem → ℕ → Result}
    (hregister : ∀ fs₁ ino, fs.registerINode type mode nlink gid uid = Option.some (fs₁, ino) → P fs₁)
    (hk : ∀ fs₁ ino, P fs₁ → ino = fs.nextINode → fs₁.iNodeManager.iNodes[ino]? =
      Option.some (initializeINode (createEmptyINode type) ino mode nlink gid uid) →
      Ensures P (k fs₁ ino)) : Ensures P (fs.withINode type mode nlink gid uid k) := by
  unfold FileSystem.withINode
  split
  · intro fs' replies hrun
    cases hrun
  · rename_i fs₁ ino hres
    exact hk fs₁ ino (hregister fs₁ ino hres) (registerINode_next hres) (registerINode_registered hres).1.get

theorem mknodAs (hP : Stable P) {ctx : Ids} {parent : ℕ} {name : Name} {type : INodeType}
    {nlink mode : ℕ} (hregister : ∀ fs₁ mode nlink gid uid ino,
      fs.registerINode type mode nlink gid uid = Option.some (fs₁, ino) → P fs₁) :
    Ensures P (fs.mknodAs ctx parent name type nlink mode) := by
  apply withINode fun fs₁ ino => hregister fs₁ _ _ _ _ ino
  intro fs₁ ino h₁ _ _
  apply insertChild hP h₁
  intro fs₂ _ h₂
  exact replyEntry hP h₂ ino

end Ensures

/-- **A predicate that the handlers keep**: it is enough to look at a registration, and at the clearing
of the size of the inode just made. -/
theorem handle_ensures {P : FileSystem → Prop} (hP : Stable P) {fs : FileSystem} (h : P fs)
    (r : Request)
    (hregister : (registersIn fs.iNodeManager r).isSome = true →
      ∀ fs₁ fs₂ type mode nlink gid uid ino, fs₁.nextINode = fs.nextINode → P fs₁ →
        fs₁.registerINode type mode nlink gid uid = some (fs₂, ino) → P fs₂)
    (hclear : (registersIn fs.iNodeManager r).isSome = true → ∀ fs₁ i,
      fs₁.iNodeManager.iNodes[fs.nextINode]? = some i → i.attr.stBlocks = 0 → P fs₁ →
        P (fs₁.setNodes (fs₁.iNodeManager.modifyINode fs.nextINode clearSize))) :
    Ensures P (fs.handle r) := by
  by_cases hrefused : r.makes.isSome = true ∧ registersIn fs.iNodeManager r = none
  · obtain ⟨p, hp⟩ := Option.isSome_iff_exists.mp hrefused.1
    obtain ⟨e, he⟩ := handle_refused hp hrefused.2
    rw [he]
    exact Ensures.reply h _
  have hin : r.makes.isSome = true → (registersIn fs.iNodeManager r).isSome = true := by
    intro hmaking
    by_contra hnone
    exact hrefused ⟨hmaking, Option.not_isSome_iff_eq_none.mp hnone⟩
  cases r with
  | lookup parent name =>
    apply Ensures.withDirectory h
    intro dir
    cases dir.childINodeNumberWithName name with
    | none => exact Ensures.reply h _
    | some ino => exact Ensures.replyEntry hP h ino
  | forget ino nlookup =>
    show Ensures _ (fs.fuseForget ino nlookup)
    rw [fuseForget, Option.map_eq_bind]
    apply Ensures.bind
    intro i _
    have hns := hP.modifyINode (keepsFile_forget nlookup) h ino
    simp only [Function.comp]
    split
    · exact Ensures.some (hP.queue hns ino _) _
    · exact Ensures.some hns _
  | mknod ctx parent name mode =>
    apply Ensures.withDirectory h
    intro dir
    apply Ensures.ite (Ensures.reply h _)
    apply Ensures.ite
    · have hsame : (fs.setNodes (fs.iNodeManager.addHardLink parent)).nextINode = fs.nextINode :=
        nextINode_congr (modifyINode_length ..) rfl rfl
      exact Ensures.mknodAs hP fun fs₁ mode nlink gid uid ino => hregister (hin rfl) _ fs₁ _ mode nlink gid
        uid ino hsame (hP.modifyINode keepsFile_addHardLink h parent)
    · apply Ensures.ite
      · exact Ensures.mknodAs hP fun fs₁ mode nlink gid uid ino => hregister (hin rfl) fs fs₁ _ mode nlink
          gid uid ino rfl h
      · exact Ensures.reply h _
  | mkdir parent name =>
    apply Ensures.withDirectory h
    intro dir
    apply Ensures.withINode fun fs₁ ino => hregister (hin rfl) fs fs₁ _ _ _ _ _ ino rfl h
    intro fs₁ ino h₁ _ _
    apply Ensures.insertChild hP h₁
    intro fs₂ _ h₂
    exact Ensures.replyEntry hP (hP.modifyINode keepsFile_addHardLink h₂ parent) ino
  | symlink ctx link parent name =>
    apply Ensures.withDirectory h
    intro dir
    apply Ensures.withINode fun fs₁ ino => hregister (hin rfl) fs fs₁ _ _ _ _ _ ino rfl h
    intro fs₁ ino h₁ _ _
    apply Ensures.insertChild hP (hP.modifyINode (keepsFile_setLink link) h₁ ino)
    intro fs₂ _ h₂
    exact Ensures.replyEntry hP h₂ ino
  | create ctx parent name flags =>
    apply Ensures.withDirectory h
    intro dir
    apply Ensures.ite (Ensures.reply h _)
    apply Ensures.withINode fun fs₁ ino => hregister (hin rfl) fs fs₁ _ _ _ _ _ ino rfl h
    intro fs₁ ino h₁ hino hget
    apply Ensures.insertChild hP (hP.blockList h₁ ino)
    intro fs₂ hfs₂ h₂
    rw [Option.map_eq_bind]
    apply Ensures.bind
    intro i _
    refine Ensures.some ?_ _
    have hlooked := hP.modifyINode keepsFile_lookup h₂ ino
    split
    · -- the new inode, with its name set in the parent
      obtain ⟨i₂, hi₂, hzero⟩ : ∃ i₂, (fs₂.iNodeManager.lookupINode ino).iNodes[ino]? = some i₂ ∧
          i₂.attr.stBlocks = 0 := by
        subst hfs₂
        simp only [lookupINode, modifyINode_getElem?, updateChild, setNodes, hget, if_pos]
        split
        · refine ⟨_, rfl, ?_⟩
          show (onDirectory _ _).attr.stBlocks = 0
          rw [onDirectory_attr]
          rfl
        · exact ⟨_, rfl, rfl⟩
      subst hino
      exact hclear (hin rfl) _ i₂ hi₂ hzero hlooked
    · exact hlooked
  | link ino newparent newname =>
    apply Ensures.withDirectory h
    intro dir
    apply Ensures.ite (Ensures.reply h _)
    intro fs₁ replies hrun
    obtain ⟨⟨fs₂, r₂⟩, hentry, hend⟩ := Option.map_eq_some_iff.mp hrun
    obtain ⟨rfl, -⟩ := Prod.mk.inj hend
    have hnamed := hP.modifyINode (keepsFile_onDirectory fun d => (d.updateChild newname ino).1) h newparent
    have hlinked := hP.modifyINode keepsFile_addHardLink hnamed ino
    exact Ensures.replyEntry hP hlinked ino _ _ hentry
  | unlink parent name =>
    apply Ensures.withDirectory h
    intro dir
    cases dir.childINodeNumberWithName name with
    | none => exact Ensures.reply h _
    | some ino =>
      simp only [Option.map_eq_bind]
      apply Ensures.bind
      intro i _
      have hunlinked := hP.modifyINode keepsFile_removeHardLink h ino
      exact Ensures.some (hP.modifyINode (keepsFile_onDirectory _) hunlinked parent) _
  | rmdir parent name =>
    apply Ensures.withDirectory h
    intro dir
    cases dir.childINodeNumberWithName name with
    | none => exact Ensures.reply h _
    | some ino =>
      apply Ensures.bind
      intro i _
      cases i.asDirectory with
      | none => exact Ensures.reply h _
      | some target =>
        apply Ensures.ite (Ensures.reply h _)
        have hparent := hP.modifyINode keepsFile_removeHardLink h parent
        have hall := hP.modifyINode keepsFile_removeAllHardLinks hparent ino
        exact Ensures.some (hP.modifyINode (keepsFile_onDirectory _) hall parent) _
  | rename parent name newparent newname =>
    apply Ensures.withDirectory h
    intro dir
    cases dir.childINodeNumberWithName name with
    | none => exact Ensures.reply h _
    | some ino =>
      apply Ensures.withDirectory h
      intro newDir fs' replies hrun
      obtain ⟨ns, hns, hend⟩ := Option.map_eq_some_iff.mp hrun
      obtain ⟨rfl, -⟩ := Prod.mk.inj hend
      have hdisplaced : P (fs.setNodes ns) := by
        rcases displace_cases hns with rfl | rfl
        · exact h
        · exact hP.modifyINode keepsFile_addHardLink (hP.modifyINode keepsFile_removeHardLink h parent)
            newparent
      have hmoved := hP.modifyINode (keepsFile_onDirectory fun d => (d.updateChild newname ino).1) hdisplaced
        newparent
      exact hP.modifyINode (keepsFile_onDirectory _) hmoved parent

/-! ### The other files -/

/-- File `x` and its block list. -/
def FileIs (x : ℕ) (v : Option FileState) (blocks : List DataBlock) (fs : FileSystem) : Prop :=
  fs.iNodeManager.fileAt x = v ∧ fs.blocksManager.getDataBlockListOfInode x = blocks

/-- Where the handler ends, file `x` and its block list are as they were. -/
def LeavesFile (x : ℕ) (v : Option FileState) (blocks : List DataBlock) (res : Result) : Prop :=
  ∀ fs' replies, res = some (fs', replies) → FileIs x v blocks fs'

theorem stable_fileIs (x : ℕ) (v : Option FileState) (blocks : List DataBlock) :
    Stable (FileIs x v blocks) where
  modifyINode := fun hf h y =>
    ⟨(fileAt_modifyINode_same _ (fun i => (hf i).2) y x).trans h.1, h.2⟩
  queue := fun h _ _ => h
  blockList := fun h _ => ⟨h.1, (Blocks.getDataBlockListOfInode_create _ _ _).trans h.2⟩

/-- **A request leaves the files that it does not make as they are.** -/
theorem handle_leavesFile {fs : FileSystem} {r : Request} {x : ℕ} (hmakes : ¬ fs.Makes r x) :
    LeavesFile x (fs.iNodeManager.fileAt x) (fs.blocksManager.getDataBlockListOfInode x) (fs.handle r) := by
  refine handle_ensures (stable_fileIs x _ _) ⟨rfl, rfl⟩ r ?_ ?_
  · intro hin fs₁ fs₂ type mode nlink gid uid ino hnext h hres
    have hne : x ≠ ino := by
      intro hx
      exact hmakes ⟨hin, by rw [hx, registerINode_next hres, hnext]⟩
    obtain ⟨htable, hblocks⟩ := registerINode_registered hres
    refine ⟨?_, ?_⟩
    · rw [fileAt, htable.others x hne]
      exact h.1
    · rw [hblocks]
      exact h.2
  · intro hin fs₁ i _ _ h
    have hne : x ≠ fs.nextINode := fun hx => hmakes ⟨hin, hx.symm⟩
    exact ⟨(fileAt_modifyINode_ne _ _ hne).trans h.1, h.2⟩

end FileSystem

end DagonFs
