import DagonFs.FileSystem.TwoWays
import DagonFs.PeerToPeer.Replays

/-!
# The two ways to make an object, on a peer

`FuseCreate` and `FuseMkdir` tell the other peers, and clear the flag of their type; `FuseMknod` does neither,
and gives a directory no absolute name (`cachedNames_differ`).  So on a peer the two ways agree only where
both refuse the name (`Replica.sameFile_iff`, `Replica.not_sameDirectory`).

`twoWaysAgree_iff` says when they agree, in both models.
-/

namespace DagonFs

open DagonFs.Nodes DagonFs.FileSystem DagonFs.Lib.Runs

namespace PeerToPeer

/-- Both calls leave a peer, the same one, tell the other peers the same, and the object they make is the
requester's. -/
def Agree (ctx : Ids) (parent : ℕ) (name : Name) (one other : Option Outcome) : Prop :=
  ∃ o₁ o₂, one = some o₁ ∧ other = some o₂ ∧ o₁.replica.fs.Same o₂.replica.fs ∧
    o₁.replica.fromThread = o₂.replica.fromThread ∧ o₁.sent = o₂.sent ∧
    GivenTo o₁.replica.fs.iNodeManager ctx parent name

namespace Replica

variable {r : Replica} {ctx : Ids} {parent mode flags : ℕ} {name : Name}

theorem fuseMknod_quiet {o : Outcome} (h : r.fuseMknod ctx parent name mode = some o) :
    o.replica.fromThread = r.fromThread ∧ o.sent = [] := by
  obtain ⟨res, -, rfl⟩ := Option.map_eq_some_iff.mp h
  exact ⟨rfl, rfl⟩

/-- A call that neither tells nor clears the flag does not agree with a handler that accepts. -/
theorem not_agree_of_accepted {op : Operation} {one other : Option Outcome}
    (hquiet : ∀ o, one = some o → o.replica.fromThread = r.fromThread ∧ o.sent = [])
    (hother : other = r.handle op) (haccepted : op.Accepted r.fs = true) : ¬ Agree ctx parent name one other := by
  rintro ⟨o₁, o₂, hone, htwo, -, hflags, hsent, -⟩
  obtain ⟨hkept, hsilent⟩ := hquiet o₁ hone
  have ho : r.handle op = some o₂ := hother.symm.trans htwo
  have hannounced := handle_announced ho
  have hsucceeded := (succeeded_eq_accepted ho).trans haccepted
  cases hflag : r.fromThread op.type with
  | true =>
    have hcleared := hannounced.cleared hsucceeded
    rw [← hflags, hkept] at hcleared
    have hat := congrFun hcleared op.type
    rw [hflag, Function.update_self] at hat
    cases hat
  | false =>
    have htold := hannounced.told hsucceeded hflag
    rw [← hsent, hsilent] at htold
    cases htold

/-- `FuseMknod` and `FuseCreate` for a regular file. -/
theorem sameFile_iff (hdir : r.fs.iNodeManager.isDirectory parent = true)
    (hnew : (r.fs.iNodeManager.childrenOf parent)[name]? = none) :
    Agree ctx parent name (r.fuseMknod ctx parent name mode) (r.fuseCreate ctx parent name flags) ↔
      kMaxFilenameLength < name.length := by
  by_cases hlong : kMaxFilenameLength < name.length
  · refine iff_of_true ?_ hlong
    rw [fuseMknod, fuseCreate, fuseMknod_long hdir hlong, fuseCreate_long hdir hlong]
    exact ⟨_, _, rfl, rfl, Same.refl r.fs, rfl, rfl, givenTo_new hnew⟩
  · refine iff_of_false ?_ hlong
    apply not_agree_of_accepted (fun o => fuseMknod_quiet) (rfl : _ = r.handle (.create ctx parent name flags))
    rw [Operation.Accepted, Operation.onView, if_pos ⟨hdir, Nat.le_of_not_lt hlong⟩]
    rfl

/-- `FuseMknod` and `FuseMkdir`. -/
theorem not_sameDirectory (hdir : r.fs.iNodeManager.isDirectory parent = true) :
    ¬ Agree ctx parent name (r.fuseMknod ctx parent name mode) (r.fuseMkdir parent name) := by
  apply not_agree_of_accepted (fun o => fuseMknod_quiet) (rfl : _ = r.handle (.mkdir parent name))
  have hview : r.fs.iNodeManager.view.tree.isDirectory parent = true := hdir
  rw [Operation.Accepted, Operation.onView, if_pos hview]
  rfl

/-! ### The name that is kept of a directory -/

/-- The absolute name that is kept of the directory with the name. -/
def cachedName (ns : Nodes) (parent : ℕ) (name : Name) : Name :=
  ((ns.childrenOf parent)[name]?).elim [] ns.dirNameOf

theorem cachedName_setDirName {ns : Nodes} {x : ℕ} (hdir : ns.isDirectory x = true)
    (hentry : (ns.childrenOf parent)[name]? = some x) (dirName : Name) :
    cachedName ((ns.setDirName x dirName).lookupINode x) parent name = dirName := by
  have htree : ((ns.setDirName x dirName).lookupINode x).tree =
      { ns.tree with dirName := Function.update ns.dirNameOf x dirName } := by
    rw [lookupINode, tree_modifyINode INode.lookup_kind, tree_setDirName hdir]
  have hchildren := congrArg Tree.children htree
  have hname := congrArg Tree.dirName htree
  show ((((ns.setDirName x dirName).lookupINode x).tree.children parent)[name]?).elim []
    ((ns.setDirName x dirName).lookupINode x).tree.dirName = dirName
  rw [hchildren, hname]
  show ((ns.childrenOf parent)[name]?).elim [] (Function.update ns.dirNameOf x dirName) = dirName
  rw [hentry, Option.elim_some, Function.update_self]

theorem fuseMknod_cachedName {o : Outcome} (hdir : r.fs.iNodeManager.isDirectory parent = true)
    (hlen : name.length ≤ kMaxFilenameLength) (hmode : sIsdir mode = true)
    (h : r.fuseMknod ctx parent name mode = some o) : cachedName o.replica.fs.iNodeManager parent name = [] := by
  obtain ⟨res, hmknod, rfl⟩ := Option.map_eq_some_iff.mp h
  rw [fuseMknod_directory hdir hlen hmode, mknodAs] at hmknod
  obtain ⟨fs₁, ino, hres, hne, -⟩ := withINode_some hmknod
  obtain ⟨replies, hend⟩ := mknodAs_eq name hres hne
  obtain rfl := Option.some.inj (hmknod.symm.trans hend)
  have hreg := (registerINode_registered hres).1
  have hparent : (r.fs.setNodes (r.fs.iNodeManager.addHardLink parent)).iNodeManager.isDirectory parent = true := by
    show (r.fs.iNodeManager.addHardLink parent).isDirectory parent = true
    rw [(addHardLink_sameEntries _ parent).2.1, hdir]
  show cachedName (fs₁.named parent name ino).iNodeManager parent name = []
  rw [cachedName, named_entry name ino (hreg.isDirectory_parent hparent hne), Option.elim_some, dirNameOf,
    named_get name hne hreg.get]
  rfl

theorem fuseMkdir_cachedName {o : Outcome} (hdir : r.fs.iNodeManager.isDirectory parent = true)
    (h : r.fuseMkdir parent name = some o) : cachedName o.replica.fs.iNodeManager parent name ≠ [] := by
  obtain ⟨res, hmkdir, hfinish⟩ := Option.bind_eq_some_iff.mp h
  rw [(finish_eq_some hfinish).1]
  obtain ⟨dir, hwith⟩ := withDirectory_eq hdir .eisdir _
  rw [makeDirectory, hwith] at hmkdir
  obtain ⟨fs₁, ino, hres, hne, hend⟩ := withINode_some hmkdir
  obtain ⟨i, -, rfl⟩ := Option.map_eq_some_iff.mp hend
  have hreg := (registerINode_registered hres).1
  have hparent := hreg.isDirectory_parent hdir hne
  have htree : (((fs₁.iNodeManager.updateChild parent name ino).addHardLink parent).setParent ino parent).tree =
      (fs₁.iNodeManager.updateChild parent name ino).tree := by
    rw [tree_setParent, addHardLink, tree_modifyINode INode.addHardLink_kind]
  have hentry : ((((fs₁.iNodeManager.updateChild parent name ino).addHardLink parent).setParent ino
      parent).childrenOf parent)[name]? = some ino := by
    have hsame := congrArg Tree.children htree
    show ((((fs₁.iNodeManager.updateChild parent name ino).addHardLink parent).setParent ino
      parent).tree.children parent)[name]? = some ino
    rw [hsame]
    show ((fs₁.iNodeManager.updateChild parent name ino).childrenOf parent)[name]? = some ino
    rw [getElem?_updateChild hparent, if_pos ⟨rfl, rfl⟩]
  have hdirectory : (((fs₁.iNodeManager.updateChild parent name ino).addHardLink parent).setParent ino
      parent).isDirectory ino = true := by
    have hsame := congrArg Tree.isDirectory htree
    show (((fs₁.iNodeManager.updateChild parent name ino).addHardLink parent).setParent ino
      parent).tree.isDirectory ino = true
    rw [hsame]
    show (fs₁.iNodeManager.updateChild parent name ino).isDirectory ino = true
    rw [(fs₁.iNodeManager.updateChild_sameCounts parent name ino).2.2.2.1, hreg.isDirectory_self]
    rfl
  have hcached := cachedName_setDirName hdirectory hentry
    ((((fs₁.iNodeManager.updateChild parent name ino).addHardLink parent).setParent ino parent).dirNameOf parent ++
      name ++ [slash])
  intro hempty
  exact List.append_ne_nil_of_right_ne_nil _ (List.cons_ne_nil slash []) (hcached.symm.trans hempty)

/-- A directory that `FuseMknod` makes has no absolute name, one that `FuseMkdir` makes has one. -/
theorem cachedNames_differ {o₁ o₂ : Outcome} (hdir : r.fs.iNodeManager.isDirectory parent = true)
    (hlen : name.length ≤ kMaxFilenameLength) (hmode : sIsdir mode = true)
    (hmknod : r.fuseMknod ctx parent name mode = some o₁) (hmkdir : r.fuseMkdir parent name = some o₂) :
    cachedName o₁.replica.fs.iNodeManager parent name ≠ cachedName o₂.replica.fs.iNodeManager parent name := by
  rw [fuseMknod_cachedName hdir hlen hmode hmknod]
  exact (fuseMkdir_cachedName hdir hmkdir).symm

end Replica

/-- In a table that requests have led to, the entries and the queue are in range. -/
theorem inTable_run {process : Ids} {requests : List FileSystem.Request} {fs : FileSystem}
    (h : run FileSystem.step (FileSystem.mounted process) requests = some fs) : InTable fs.iNodeManager := by
  have hmounted := (mounted_wellFormed process).inTable
  refine invariant_always (I := fun fs : FileSystem => InTable fs.iNodeManager) ?_ hmounted h
  intro fs r fs' hin hstep
  obtain ⟨res, hhandle, rfl⟩ := Option.map_eq_some_iff.mp hstep
  exact handle_inTable hin hhandle

/-- **When the two ways to make an object agree**, in every state that requests lead to (`inTable_run`): for a
regular file, when the name is too long for both, or the requester has one number as user and as group; for a
directory, when the name is not too long, and besides the process is the requester's; on a peer, only when the
name of a regular file is too long for both. -/
theorem twoWaysAgree_iff (ctx : Ids) (parent : ℕ) (name : Name) :
    (∀ fs : FileSystem, InTable fs.iNodeManager → fs.iNodeManager.isDirectory parent = true →
      (fs.iNodeManager.childrenOf parent)[name]? = none →
        (∀ mode flags, sIsreg mode = true → opensForWriting flags = false →
          (FileSystem.Agree ctx parent name (fs.fuseMknod ctx parent name mode)
              (fs.fuseCreate ctx parent name flags) ↔
            kMaxFilenameLength < name.length ∨ ctx.uid = ctx.gid ∧ ¬ fs.ReusesNumberOf parent)) ∧
        ∀ mode, sIsdir mode = true →
          (FileSystem.Agree ctx parent name (fs.fuseMknod ctx parent name mode) (fs.fuseMkdir parent name) ↔
            name.length ≤ kMaxFilenameLength ∧ ctx.uid = ctx.gid ∧ fs.process = ctx ∧
              ¬ fs.ReusesNumberOf parent)) ∧
    ∀ r : Replica, r.fs.iNodeManager.isDirectory parent = true →
      (r.fs.iNodeManager.childrenOf parent)[name]? = none →
        (∀ mode flags, sIsreg mode = true → opensForWriting flags = false →
          (Agree ctx parent name (r.fuseMknod ctx parent name mode) (r.fuseCreate ctx parent name flags) ↔
            kMaxFilenameLength < name.length)) ∧
        ∀ mode, sIsdir mode = true →
          ¬ Agree ctx parent name (r.fuseMknod ctx parent name mode) (r.fuseMkdir parent name) := by
  constructor
  · intro fs hin hdir hnew
    constructor
    · intro mode flags hmode hflags
      exact FileSystem.sameFile_iff hin hdir hnew hmode hflags
    · intro mode hmode
      exact FileSystem.sameDirectory_iff hin hdir hnew hmode
  · intro r hdir hnew
    constructor
    · intro mode flags _ _
      exact Replica.sameFile_iff hdir hnew
    · intro mode _
      exact Replica.not_sameDirectory hdir

/-- Root makes `a` as a file and as a directory, and then a user of another group than its own number. -/
theorem twoWaysAgree_iff_root :
    FileSystem.Agree ⟨0, 0⟩ 1 [97] ((FileSystem.mounted ⟨0, 0⟩).fuseMknod ⟨0, 0⟩ 1 [97] sIfreg)
        ((FileSystem.mounted ⟨0, 0⟩).fuseCreate ⟨0, 0⟩ 1 [97] 0) ∧
      FileSystem.Agree ⟨0, 0⟩ 1 [97] ((FileSystem.mounted ⟨0, 0⟩).fuseMknod ⟨0, 0⟩ 1 [97] sIfdir)
        ((FileSystem.mounted ⟨0, 0⟩).fuseMkdir 1 [97]) ∧
      ¬ FileSystem.Agree ⟨1000, 100⟩ 1 [97]
        ((FileSystem.mounted ⟨0, 0⟩).fuseMknod ⟨1000, 100⟩ 1 [97] sIfreg)
        ((FileSystem.mounted ⟨0, 0⟩).fuseCreate ⟨1000, 100⟩ 1 [97] 0) ∧
      ¬ Agree ⟨0, 0⟩ 1 [97] ((Replica.mounted ⟨0, 0⟩).fuseMknod ⟨0, 0⟩ 1 [97] sIfreg)
        ((Replica.mounted ⟨0, 0⟩).fuseCreate ⟨0, 0⟩ 1 [97] 0) ∧
      ¬ Agree ⟨0, 0⟩ 1 [97] ((Replica.mounted ⟨0, 0⟩).fuseMknod ⟨0, 0⟩ 1 [97] sIfdir)
        ((Replica.mounted ⟨0, 0⟩).fuseMkdir 1 [97]) := by
  have hin := (mounted_wellFormed ⟨0, 0⟩).inTable
  have hnew : ((FileSystem.mounted ⟨0, 0⟩).iNodeManager.childrenOf 1)[([97] : Name)]? = none := by decide +kernel
  have hnew' : ((Replica.mounted ⟨0, 0⟩).fs.iNodeManager.childrenOf 1)[([97] : Name)]? = none := by decide +kernel
  obtain ⟨hserver, hpeer⟩ := twoWaysAgree_iff ⟨0, 0⟩ 1 [97]
  obtain ⟨hfile, hdirectory⟩ := hserver _ hin rfl hnew
  obtain ⟨hpeerFile, hpeerDirectory⟩ := hpeer (Replica.mounted ⟨0, 0⟩) rfl hnew'
  refine ⟨?_, ?_, ?_, ?_, hpeerDirectory sIfdir rfl⟩
  · rw [hfile sIfreg 0 rfl rfl]
    decide
  · rw [hdirectory sIfdir rfl]
    decide
  · rw [((twoWaysAgree_iff ⟨1000, 100⟩ 1 [97]).1 _ hin rfl hnew).1 sIfreg 0 rfl rfl]
    decide
  · rw [hpeerFile sIfreg 0 rfl rfl]
    decide

/-- A user of number 1000, in group 100, makes `a` just after the file system is mounted. -/
theorem not_twoWaysAgree : ¬ ∀ (process ctx : Ids) (requests : List FileSystem.Request) (fs : FileSystem)
    (parent : ℕ) (name : Name) (mode flags : ℕ),
      run FileSystem.step (FileSystem.mounted process) requests = some fs →
        fs.iNodeManager.isDirectory parent = true → (fs.iNodeManager.childrenOf parent)[name]? = none →
          sIsreg mode = true → opensForWriting flags = false →
            FileSystem.Agree ctx parent name (fs.fuseMknod ctx parent name mode)
              (fs.fuseCreate ctx parent name flags) := by
  intro h
  have hnew : ((FileSystem.mounted ⟨1000, 100⟩).iNodeManager.childrenOf 1)[([97] : Name)]? = none := by
    decide +kernel
  obtain ⟨fs₁, replies, _, _, hmknod, -, -, hgiven⟩ :=
    h ⟨1000, 100⟩ ⟨1000, 100⟩ [] _ 1 [97] sIfreg 0 rfl rfl hnew rfl rfl
  have hfacts : ((FileSystem.mounted ⟨1000, 100⟩).fuseMknod ⟨1000, 100⟩ 1 [97] sIfreg).map (fun res =>
      ((res.1.iNodeManager.childrenOf 1)[([97] : Name)]?,
        res.1.iNodeManager.iNodes[2]?.map fun i => i.attr.stUid)) = some (some 2, some 100) := by decide +kernel
  rw [hmknod, Option.map_some, Option.some.injEq, Prod.mk.injEq] at hfacts
  obtain ⟨hentry, hmade⟩ := hfacts
  obtain ⟨i, hget, huid⟩ := Option.map_eq_some_iff.mp hmade
  have howner := (hgiven 2 i hentry hget).1
  rw [huid] at howner
  cases howner

end PeerToPeer

end DagonFs
