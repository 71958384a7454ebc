import DagonFs.FileSystem.Answers

/-!
# The two ways to make an object

A regular file is made by `FuseMknod` or by `FuseCreate`, a directory by `FuseMknod` or by `FuseMkdir`.
Each of the handlers ends with the new inode registered, named and looked up once (`mknodAs_eq`,
`fuseCreate_eq`, `fuseMkdir_eq`); they differ in the owner they register it for, and in the check of the
name.

* `sameFile_iff`: the two calls that make a file leave the same file system, with the file the requester's,
  when the name is refused, or the requester has one number as user and as group;
* `sameDirectory_iff`: for a directory the requester must also be the user and the group of the process.
-/

namespace DagonFs

open DagonFs.Nodes

namespace FileSystem

/-- The same file system.  A block list that is not there reads as an empty one. -/
structure Same (fs fs' : FileSystem) : Prop where
  iNodeManager : fs.iNodeManager = fs'.iNodeManager
  blockLists : ∀ x, fs.blocksManager.getDataBlockListOfInode x = fs'.blocksManager.getDataBlockListOfInode x
  mReclaimingINodes : fs.mReclaimingINodes = fs'.mReclaimingINodes
  mStbuf : fs.mStbuf = fs'.mStbuf
  process : fs.process = fs'.process

theorem Same.refl (fs : FileSystem) : fs.Same fs := ⟨rfl, fun _ => rfl, rfl, rfl, rfl⟩

/-- What the name stands for, if anything, has the user and the group of the request. -/
def GivenTo (ns : Nodes) (ctx : Ids) (parent : ℕ) (name : Name) : Prop :=
  ∀ x i, (ns.childrenOf parent)[name]? = some x → ns.iNodes[x]? = some i →
    i.attr.stUid = ctx.uid ∧ i.attr.stGid = ctx.gid

/-- Both calls leave a file system, the same one, and the object they make is the requester's. -/
def Agree (ctx : Ids) (parent : ℕ) (name : Name) (one other : Result) : Prop :=
  ∃ fs₁ replies₁ fs₂ replies₂, one = some (fs₁, replies₁) ∧ other = some (fs₂, replies₂) ∧
    fs₁.Same fs₂ ∧ GivenTo fs₁.iNodeManager ctx parent name

/-! ### The table with the new object -/

/-- The inode at `ino` gets the name, and is looked up. -/
def named (fs : FileSystem) (parent : ℕ) (name : Name) (ino : ℕ) : FileSystem :=
  fs.setNodes ((fs.iNodeManager.updateChild parent name ino).lookupINode ino)

section Named

variable {fs : FileSystem} {parent ino : ℕ} {name : Name} {i : INode}

theorem named_entry (name : Name) (ino : ℕ) (hdir : fs.iNodeManager.isDirectory parent = true) :
    ((fs.named parent name ino).iNodeManager.childrenOf parent)[name]? = some ino := by
  show (((fs.iNodeManager.updateChild parent name ino).lookupINode ino).childrenOf parent)[name]? = some ino
  rw [(lookupINode_sameEntries _ ino).1, getElem?_updateChild hdir, if_pos ⟨rfl, rfl⟩]

theorem named_get (name : Name) (hne : ino ≠ parent) (hget : fs.iNodeManager.iNodes[ino]? = some i) :
    (fs.named parent name ino).iNodeManager.iNodes[ino]? = some i.lookup :=
  getElem?_looked name hne hget

/-- The two clauses together: whose the new object is. -/
theorem named_givenTo_iff (ctx : Ids) (hdir : fs.iNodeManager.isDirectory parent = true) (hne : ino ≠ parent)
    (hget : fs.iNodeManager.iNodes[ino]? = some i) :
    GivenTo (fs.named parent name ino).iNodeManager ctx parent name ↔
      i.attr.stUid = ctx.uid ∧ i.attr.stGid = ctx.gid := by
  constructor
  · intro h
    exact h ino i.lookup (named_entry name ino hdir) (named_get name hne hget)
  · intro hids x j hentry hj
    rw [named_entry name ino hdir] at hentry
    obtain rfl := Option.some.inj hentry
    rw [named_get name hne hget] at hj
    obtain rfl := Option.some.inj hj
    exact hids

end Named

/-! ### What the three handlers do past their checks -/

section Made

variable {fs fs₁ : FileSystem} {ctx : Ids} {parent ino : ℕ} {name : Name}

/-- A registration that a handler goes on from has ended, away from the parent. -/
theorem withINode_some {type : INodeType} {mode nlink gid uid : ℕ}
    {k : FileSystem → ℕ → Result} {res : FileSystem × List Reply}
    (h : (fs.withINode type mode nlink gid uid fun fs₁ ino =>
      (fs₁.insertChild parent name ino).bind (k · ino)) = some res) :
    ∃ fs₁ ino, fs.registerINode type mode nlink gid uid = some (fs₁, ino) ∧ ino ≠ parent ∧
      k (fs₁.setNodes (fs₁.iNodeManager.updateChild parent name ino)) ino = some res := by
  rw [withINode] at h
  cases hres : fs.registerINode type mode nlink gid uid with
  | none =>
    rw [hres] at h
    cases h
  | some made =>
    obtain ⟨fs₁, ino⟩ := made
    rw [hres] at h
    refine ⟨fs₁, ino, rfl, ?_⟩
    by_cases hself : ino = parent
    · simp only [insertChild, if_pos hself, Option.bind_none] at h
      cases h
    · simp only [insertChild, if_neg hself, Option.bind_some] at h
      exact ⟨hself, h⟩

theorem mknodAs_eq {type : INodeType} {nlink mode : ℕ} (name : Name)
    (hres : fs.registerINode type (mode ||| 0o777) nlink ctx.uid ctx.gid = some (fs₁, ino)) (hne : ino ≠ parent) :
    ∃ replies, fs.mknodAs ctx parent name type nlink mode = some (fs₁.named parent name ino, replies) := by
  have hget := (registerINode_registered hres).1.get
  have hkept : (fs₁.iNodeManager.updateChild parent name ino).getINodeByINodeNumber ino =
      fs₁.iNodeManager.iNodes[ino]? := by
    rw [getINodeByINodeNumber, updateChild, modifyINode_getElem?, if_neg (Ne.symm hne)]
  rw [mknodAs, withINode, hres]
  simp only [insertChild, if_neg hne, Option.bind_some]
  exact ⟨_, Option.map_eq_some_iff.mpr ⟨_, hkept.trans hget, rfl⟩⟩

theorem fuseCreate_eq {flags : ℕ} (hdir : fs.iNodeManager.isDirectory parent = true)
    (hlen : name.length ≤ kMaxFilenameLength) (hflags : opensForWriting flags = false)
    (hres : fs.registerINode .regularFile (sIfreg ||| 0o777) 1 ctx.gid ctx.uid = some (fs₁, ino))
    (hne : ino ≠ parent) :
    ∃ replies, fs.fuseCreate ctx parent name flags = some
      ({ fs₁.named parent name ino with
        blocksManager := fs₁.blocksManager.createEmptyBlockListForInode ino }, replies) := by
  have hnamed := named_get name hne (registerINode_registered hres).1.get
  obtain ⟨dir, hwith⟩ := withDirectory_eq hdir .enoent _
  rw [fuseCreate, hwith, if_neg (Nat.not_lt.mpr hlen), withINode, hres]
  simp only [insertChild, if_neg hne, Option.bind_some, hflags, Bool.false_eq_true, if_false]
  exact ⟨_, Option.map_eq_some_iff.mpr ⟨_, hnamed, rfl⟩⟩

theorem fuseMkdir_eq (name : Name) (hdir : fs.iNodeManager.isDirectory parent = true)
    (hres : fs.registerINode .directory (sIfdir ||| 0o777) 2 fs.process.gid fs.process.uid = some (fs₁, ino))
    (hne : ino ≠ parent) :
    ∃ replies, fs.fuseMkdir parent name =
      some ((fs₁.setNodes (fs₁.iNodeManager.addHardLink parent)).named parent name ino, replies) := by
  have hget := (registerINode_registered hres).1.get
  have hkept : ((fs₁.iNodeManager.updateChild parent name ino).addHardLink parent).getINodeByINodeNumber ino =
      fs₁.iNodeManager.iNodes[ino]? := by
    rw [getINodeByINodeNumber, addHardLink, modifyINode_getElem?, if_neg (Ne.symm hne), updateChild,
      modifyINode_getElem?, if_neg (Ne.symm hne)]
  obtain ⟨dir, hwith⟩ := withDirectory_eq hdir .eisdir _
  rw [fuseMkdir, hwith, withINode, hres]
  simp only [insertChild, if_neg hne, Option.bind_some]
  refine ⟨_, Option.map_eq_some_iff.mpr ⟨_, hkept.trans hget, congrArg₂ Prod.mk ?_ rfl⟩⟩
  show fs₁.setNodes (((fs₁.iNodeManager.updateChild parent name ino).addHardLink parent).lookupINode ino) =
    fs₁.setNodes (((fs₁.iNodeManager.addHardLink parent).updateChild parent name ino).lookupINode ino)
  rw [addHardLink_updateChild]

end Made

/-! ### When the parent's link is counted -/

section Counted

variable {fs fs₁ : FileSystem} {parent ino : ℕ}

/-- A link of the parent can be counted before the registration as well as after it. -/
theorem registerINode_addHardLink {type : INodeType} {mode nlink gid uid : ℕ}
    (hlt : parent < fs.iNodeManager.iNodes.length)
    (hres : fs.registerINode type mode nlink gid uid = some (fs₁, ino)) (hne : ino ≠ parent) :
    (fs.setNodes (fs.iNodeManager.addHardLink parent)).registerINode type mode nlink gid uid =
      some (fs₁.setNodes (fs₁.iNodeManager.addHardLink parent), ino) := by
  have hstop : (fs.setNodes (fs.iNodeManager.addHardLink parent)).stopReclaiming =
      fs.stopReclaiming.setNodes (fs.iNodeManager.addHardLink parent) := by
    unfold stopReclaiming
    show (if fs.iNodeManager.getNumberOfDeletedINodes = 0 then _ else _) = _
    split <;> rfl
  have hmode : (fs.stopReclaiming.setNodes (fs.iNodeManager.addHardLink parent)).mReclaimingINodes =
      fs.stopReclaiming.mReclaimingINodes := rfl
  simp only [registerINode] at hres ⊢
  rw [hstop, hmode]
  cases hreclaiming : fs.stopReclaiming.mReclaimingINodes with
  | true =>
    rw [hreclaiming, if_pos rfl, stopReclaiming_iNodeManager] at hres
    obtain ⟨⟨x, ns⟩, hqueue, hend⟩ := Option.bind_eq_some_iff.mp hres
    obtain ⟨del, hdel, hinit⟩ := Option.map_eq_some_iff.mp hend
    obtain ⟨rfl, rfl⟩ := Prod.mk.inj hinit
    have hqueue' : (fs.iNodeManager.addHardLink parent).reclaimINode = some (x, ns.addHardLink parent) := by
      rw [reclaimINode, addHardLink_deletedINodes]
      rw [reclaimINode] at hqueue
      cases hdeleted : fs.iNodeManager.deletedINodes with
      | nil =>
        rw [hdeleted] at hqueue
        cases hqueue
      | cons y rest =>
        rw [hdeleted] at hqueue
        cases hqueue
        rfl
    have hdel' : (ns.addHardLink parent).getINodeByINodeNumber x = some del := by
      rw [getINodeByINodeNumber, addHardLink, modifyINode_getElem?, if_neg (Ne.symm hne)]
      exact hdel
    rw [if_pos rfl]
    show (reclaimINode (fs.iNodeManager.addHardLink parent)).bind _ = _
    rw [hqueue', Option.bind_some, hdel', Option.map_some, addHardLink_setINodeAt _ hne]
    refine congrArg some (Prod.ext ?_ rfl)
    show FileSystem.setNodes _ (modifyINode (addHardLink _ parent) x _) = _
    rw [addHardLink_modifyINode _ hne]
    rfl
  | false =>
    rw [hreclaiming, if_neg Bool.false_ne_true, stopReclaiming_iNodeManager] at hres
    obtain ⟨rfl, rfl⟩ := Prod.mk.inj (Option.some.inj hres)
    rw [if_neg Bool.false_ne_true]
    have hadd : (fs.stopReclaiming.setNodes (fs.iNodeManager.addHardLink parent)).iNodeManager.addINode
        (createEmptyINode type) = _ := addHardLink_addINode _ hlt
    rw [hadd]
    refine congrArg some (Prod.ext ?_ rfl)
    show FileSystem.setNodes _ (modifyINode (addHardLink _ parent) fs.iNodeManager.iNodes.length _) = _
    have hend : fs.iNodeManager.iNodes.length ≠ parent := hne
    rw [addHardLink_modifyINode _ hend]
    rfl

end Counted

/-! ### When the two ways agree -/

section Agreement

variable {fs : FileSystem} {ctx : Ids} {parent mode flags : ℕ} {name : Name}

/-- A registration ends, and at another number than the parent's. -/
theorem registerINode_away (hin : InTable fs.iNodeManager) (hdir : fs.iNodeManager.isDirectory parent = true)
    (hkept : ¬ fs.ReusesNumberOf parent) (type : INodeType) (mode nlink gid uid : ℕ) :
    ∃ fs₁ ino, fs.registerINode type mode nlink gid uid = some (fs₁, ino) ∧ ino ≠ parent := by
  obtain ⟨fs₁, ino, hres, -⟩ := registerINode_spec fs type mode nlink gid uid hin.queue
  refine ⟨fs₁, ino, hres, ?_⟩
  rintro rfl
  rcases registerINode_number hres with hend | hreuses
  · exact absurd (lt_of_isDirectory _ hdir) (Nat.not_lt.mpr hend.ge)
  · exact hkept hreuses

/-- An inode that is registered in a table with the parent, and gets the name there. -/
theorem registered_givenTo_iff {fs₁ : FileSystem} {type : INodeType} {nlink gid uid ino : ℕ}
    (hdir : fs.iNodeManager.isDirectory parent = true)
    (hres : fs.registerINode type mode nlink gid uid = some (fs₁, ino)) (hne : ino ≠ parent) :
    GivenTo (fs₁.named parent name ino).iNodeManager ctx parent name ↔ uid = ctx.uid ∧ gid = ctx.gid := by
  have hreg := (registerINode_registered hres).1
  rw [named_givenTo_iff ctx (hreg.isDirectory_parent hdir hne) hne hreg.get]
  rfl

theorem fuseMknod_long (hdir : fs.iNodeManager.isDirectory parent = true)
    (hlong : kMaxFilenameLength < name.length) :
    fs.fuseMknod ctx parent name mode = some (fs, [.err .enametoolong]) := by
  obtain ⟨dir, hwith⟩ := withDirectory_eq hdir .eisdir _
  rw [fuseMknod, hwith, if_pos hlong]
  rfl

theorem fuseMknod_file (hdir : fs.iNodeManager.isDirectory parent = true)
    (hlen : name.length ≤ kMaxFilenameLength) (hmode : sIsreg mode = true) :
    fs.fuseMknod ctx parent name mode = fs.mknodAs ctx parent name .regularFile 1 sIfreg := by
  have hother : sIsdir mode = false := by
    rw [sIsreg, beq_iff_eq] at hmode
    rw [sIsdir, hmode]
    rfl
  obtain ⟨dir, hwith⟩ := withDirectory_eq hdir .eisdir _
  rw [fuseMknod, hwith, if_neg (Nat.not_lt.mpr hlen), hother, if_neg Bool.false_ne_true, if_pos hmode]

theorem fuseMknod_directory (hdir : fs.iNodeManager.isDirectory parent = true)
    (hlen : name.length ≤ kMaxFilenameLength) (hmode : sIsdir mode = true) :
    fs.fuseMknod ctx parent name mode =
      (fs.setNodes (fs.iNodeManager.addHardLink parent)).mknodAs ctx parent name .directory 2 sIfdir := by
  obtain ⟨dir, hwith⟩ := withDirectory_eq hdir .eisdir _
  rw [fuseMknod, hwith, if_neg (Nat.not_lt.mpr hlen), if_pos hmode]

theorem fuseCreate_long (hdir : fs.iNodeManager.isDirectory parent = true)
    (hlong : kMaxFilenameLength < name.length) :
    fs.fuseCreate ctx parent name flags = some (fs, [.err .enametoolong]) := by
  obtain ⟨dir, hwith⟩ := withDirectory_eq hdir .enoent _
  rw [fuseCreate, hwith, if_pos hlong]
  rfl

theorem fuseMknod_reuses (hdir : fs.iNodeManager.isDirectory parent = true)
    (hlen : name.length ≤ kMaxFilenameLength) (hmode : (sIsdir mode || sIsreg mode) = true)
    (hreuses : fs.ReusesNumberOf parent) : fs.fuseMknod ctx parent name mode = none := by
  have hregisters : registersIn fs.iNodeManager (.mknod ctx parent name mode) = some parent := by
    rw [registersIn, hdir, hmode, decide_eq_true hlen]
    rfl
  exact handle_reuses hregisters hreuses

theorem fuseMkdir_reuses (hdir : fs.iNodeManager.isDirectory parent = true)
    (hreuses : fs.ReusesNumberOf parent) : fs.fuseMkdir parent name = none := by
  have hregisters : registersIn fs.iNodeManager (.mkdir parent name) = some parent := by
    rw [registersIn, if_pos hdir]
  exact handle_reuses hregisters hreuses

/-- A name that stands for nothing has been given to everybody. -/
theorem givenTo_new {ns : Nodes} (hnew : (ns.childrenOf parent)[name]? = none) : GivenTo ns ctx parent name := by
  intro x i hentry
  rw [hnew] at hentry
  cases hentry

/-- `FuseMknod` and `FuseCreate` for a regular file. -/
theorem sameFile_iff (hin : InTable fs.iNodeManager) (hdir : fs.iNodeManager.isDirectory parent = true)
    (hnew : (fs.iNodeManager.childrenOf parent)[name]? = none) (hmode : sIsreg mode = true)
    (hflags : opensForWriting flags = false) :
    Agree ctx parent name (fs.fuseMknod ctx parent name mode) (fs.fuseCreate ctx parent name flags) ↔
      kMaxFilenameLength < name.length ∨ ctx.uid = ctx.gid ∧ ¬ fs.ReusesNumberOf parent := by
  by_cases hlong : kMaxFilenameLength < name.length
  · rw [fuseMknod_long hdir hlong, fuseCreate_long hdir hlong]
    exact iff_of_true ⟨fs, _, fs, _, rfl, rfl, Same.refl fs, givenTo_new hnew⟩ (Or.inl hlong)
  · have hlen := Nat.le_of_not_lt hlong
    rw [or_iff_right hlong]
    by_cases hreuses : fs.ReusesNumberOf parent
    · refine iff_of_false ?_ fun h => h.2 hreuses
      rintro ⟨_, _, _, _, hmknod, -⟩
      rw [fuseMknod_reuses hdir hlen (by rw [hmode, Bool.or_true]) hreuses] at hmknod
      cases hmknod
    · obtain ⟨fs₁, ino, hres, hne⟩ :=
        registerINode_away hin hdir hreuses .regularFile (sIfreg ||| 0o777) 1 ctx.uid ctx.gid
      obtain ⟨replies₁, hmknod⟩ := mknodAs_eq name hres hne
      rw [fuseMknod_file hdir hlen hmode, hmknod]
      constructor
      · rintro ⟨_, _, _, _, hsome, -, -, hgiven⟩
        obtain ⟨rfl, -⟩ := Prod.mk.inj (Option.some.inj hsome)
        exact ⟨((registered_givenTo_iff hdir hres hne).mp hgiven).2, hreuses⟩
      · rintro ⟨hsame, -⟩
        have hres' : fs.registerINode .regularFile (sIfreg ||| 0o777) 1 ctx.gid ctx.uid = some (fs₁, ino) := by
          rw [hsame] at hres ⊢
          exact hres
        obtain ⟨replies₂, hcreate⟩ := fuseCreate_eq hdir hlen hflags hres' hne
        refine ⟨_, _, _, _, rfl, hcreate, ⟨rfl, fun x => ?_, rfl, rfl, rfl⟩, ?_⟩
        · exact (Blocks.getDataBlockListOfInode_create fs₁.blocksManager ino x).symm
        · exact (registered_givenTo_iff hdir hres hne).mpr ⟨hsame.symm, hsame⟩

/-- `FuseMknod` and `FuseMkdir`. -/
theorem sameDirectory_iff (hin : InTable fs.iNodeManager) (hdir : fs.iNodeManager.isDirectory parent = true)
    (hnew : (fs.iNodeManager.childrenOf parent)[name]? = none) (hmode : sIsdir mode = true) :
    Agree ctx parent name (fs.fuseMknod ctx parent name mode) (fs.fuseMkdir parent name) ↔
      name.length ≤ kMaxFilenameLength ∧ ctx.uid = ctx.gid ∧ fs.process = ctx ∧
        ¬ fs.ReusesNumberOf parent := by
  by_cases hreuses : fs.ReusesNumberOf parent
  · refine iff_of_false ?_ fun h => h.2.2.2 hreuses
    rintro ⟨_, _, _, _, -, hmkdir, -⟩
    rw [fuseMkdir_reuses hdir hreuses] at hmkdir
    cases hmkdir
  have hlt := lt_of_isDirectory _ hdir
  have hdir' : (fs.setNodes (fs.iNodeManager.addHardLink parent)).iNodeManager.isDirectory parent = true := by
    show (fs.iNodeManager.addHardLink parent).isDirectory parent = true
    rw [(addHardLink_sameEntries _ parent).2.1, hdir]
  obtain ⟨fs₂, ino₂, hres₂, hne₂⟩ :=
    registerINode_away hin hdir hreuses .directory (sIfdir ||| 0o777) 2 fs.process.gid fs.process.uid
  obtain ⟨replies₂, hmkdir⟩ := fuseMkdir_eq name hdir hres₂ hne₂
  have hlink₂ := registerINode_addHardLink hlt hres₂ hne₂
  rw [hmkdir]
  by_cases hlong : kMaxFilenameLength < name.length
  · -- only `FuseMkdir` makes the directory
    refine iff_of_false ?_ fun h => Nat.not_le.mpr hlong h.1
    rintro ⟨_, _, _, _, hmknod, hmade, hsame, -⟩
    rw [fuseMknod_long hdir hlong] at hmknod
    obtain ⟨rfl, -⟩ := Prod.mk.inj (Option.some.inj hmknod)
    obtain ⟨rfl, -⟩ := Prod.mk.inj (Option.some.inj hmade)
    have hentry := named_entry name ino₂ ((registerINode_registered hlink₂).1.isDirectory_parent hdir' hne₂)
    rw [← hsame.iNodeManager, hnew] at hentry
    cases hentry
  · have hlen := Nat.le_of_not_lt hlong
    obtain ⟨fs₁, ino, hres, hne⟩ :=
      registerINode_away hin hdir hreuses .directory (sIfdir ||| 0o777) 2 ctx.uid ctx.gid
    have hlink := registerINode_addHardLink hlt hres hne
    obtain ⟨replies₁, hmknod⟩ := mknodAs_eq name hlink hne
    rw [fuseMknod_directory hdir hlen hmode, hmknod]
    constructor
    · rintro ⟨_, _, _, _, hone, hother, hsame, hgiven⟩
      obtain ⟨rfl, -⟩ := Prod.mk.inj (Option.some.inj hone)
      obtain ⟨rfl, -⟩ := Prod.mk.inj (Option.some.inj hother)
      have hids := (registered_givenTo_iff hdir' hlink hne).mp hgiven
      rw [hsame.iNodeManager] at hgiven
      obtain ⟨huid, hgid⟩ := (registered_givenTo_iff hdir' hlink₂ hne₂).mp hgiven
      refine ⟨hlen, hids.2, ?_, hreuses⟩
      exact congrArg₂ Ids.mk huid hgid
    · rintro ⟨-, hsame, hprocess, -⟩
      have hboth : some (fs₂, ino₂) = some (fs₁, ino) := by rw [← hres₂, ← hres, hprocess, hsame]
      obtain ⟨rfl, rfl⟩ := Prod.mk.inj (Option.some.inj hboth)
      refine ⟨_, _, _, _, rfl, rfl, Same.refl _, ?_⟩
      exact (registered_givenTo_iff hdir' hlink hne).mpr ⟨hsame.symm, hsame⟩

end Agreement

end FileSystem

end DagonFs
