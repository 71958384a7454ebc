import DagonFs.FileSystem.Kernel

/-!
# Requests that fail

A handler that changes names checks its request before it changes anything, so that a request that is
refused leaves the file system as it was.  `FuseLink` is the exception: it replies that the name exists,
and then goes on.

* `Atomic.*`: one lemma for each handler.
* `handle_unchanged_iff`: a request that was replied to with an error has changed nothing, unless it was a
  link to a name that exists.
-/

namespace DagonFs

open DagonFs.Lib.Runs

namespace FileSystem

/-- A link of an inode of the table to a name that the directory has already. -/
def LinksOntoExisting (fs : FileSystem) : Request → Prop
  | .link ino newparent newname =>
    ino < fs.iNodeManager.getNumberOfINodes ∧
      ∃ x ∈ (fs.iNodeManager.directoryAt newparent).bind (·.childINodeNumberWithName newname), 0 < x
  | _ => False

/-- If the handler sends an error, it ends in the state `fs` that it was called in. -/
def Atomic (fs : FileSystem) (res : Result) : Prop :=
  ∀ fs' replies, res = some (fs', replies) → (∃ e, Reply.err e ∈ replies) → fs' = fs

namespace Atomic

variable {fs : FileSystem}

theorem none : Atomic fs none := by
  intro fs' replies h
  cases h

/-- An error that is sent with nothing done. -/
theorem reply (r : Reply) : Atomic fs (fs.reply r) := by
  intro fs' replies h _
  obtain ⟨rfl, -⟩ := Prod.mk.inj (Option.some.inj h)
  rfl

/-- Replies without an error. -/
theorem success {fs₁ : FileSystem} {replies : List Reply} (h : ∀ e, Reply.err e ∉ replies) :
    Atomic fs (some (fs₁, replies)) := by
  intro fs' replies' hres herr
  obtain ⟨-, rfl⟩ := Prod.mk.inj (Option.some.inj hres)
  obtain ⟨e, he⟩ := herr
  exact absurd he (h e)

theorem ite {p : Prop} [Decidable p] {res res' : Result} (h : Atomic fs res) (h' : Atomic fs res') :
    Atomic fs (if p then res else res') := by
  split
  · exact h
  · exact h'

theorem withDirectory {parent : ℕ} {notADirectory : Errno} {k : Directory → Result}
    (h : ∀ dir, Atomic fs (k dir)) : Atomic fs (fs.withDirectory parent notADirectory k) := by
  unfold FileSystem.withDirectory
  split
  · exact reply _
  · split
    · exact reply _
    · exact h _

theorem replyEntry (fs₁ : FileSystem) (ino : ℕ) : Atomic fs (fs₁.replyEntry ino) := by
  unfold FileSystem.replyEntry
  cases fs₁.iNodeManager.getINodeByINodeNumber ino with
  | none => exact none
  | some inode => exact success (by simp)

theorem withINode {fs₁ : FileSystem} {type : INodeType} {mode nlink gid uid : ℕ}
    {k : FileSystem → ℕ → Result} (h : ∀ fs₂ ino, Atomic fs (k fs₂ ino)) :
    Atomic fs (fs₁.withINode type mode nlink gid uid k) := by
  unfold FileSystem.withINode
  split
  · exact none
  · exact h _ _

theorem bind {α : Type} {o : Option α} {k : α → Result} (h : ∀ a, Atomic fs (k a)) :
    Atomic fs (o.bind k) := by
  cases o with
  | none => exact none
  | some a => exact h a

/-! ### One lemma for each handler -/

theorem mknodAs (fs₁ : FileSystem) (ctx : Ids) (parent : ℕ) (name : Name) (type : INodeType)
    (nlink mode : ℕ) : Atomic fs (fs₁.mknodAs ctx parent name type nlink mode) := by
  apply withINode
  intro fs₂ ino
  apply bind
  intro fs₃
  exact replyEntry fs₃ ino

theorem fuseMknod (ctx : Ids) (parent : ℕ) (name : Name) (mode : ℕ) :
    Atomic fs (fs.fuseMknod ctx parent name mode) := by
  apply withDirectory
  intro _
  -- the parent's count is adjusted only once the type is known
  exact ite (reply _) (ite (mknodAs _ ctx parent name _ _ _)
    (ite (mknodAs _ ctx parent name _ _ _) (reply _)))

theorem fuseMkdir (parent : ℕ) (name : Name) : Atomic fs (fs.fuseMkdir parent name) := by
  apply withDirectory
  intro _
  apply withINode
  intro fs₁ ino
  apply bind
  intro fs₂
  exact replyEntry _ ino

theorem fuseSymlink (ctx : Ids) (link : Name) (parent : ℕ) (name : Name) :
    Atomic fs (fs.fuseSymlink ctx link parent name) := by
  apply withDirectory
  intro _
  apply withINode
  intro fs₁ ino
  apply bind
  intro fs₂
  exact replyEntry fs₂ ino

theorem fuseCreate (ctx : Ids) (parent : ℕ) (name : Name) (flags : ℕ) :
    Atomic fs (fs.fuseCreate ctx parent name flags) := by
  apply withDirectory
  intro _
  apply ite (reply _)
  apply withINode
  intro fs₁ ino
  apply bind
  intro fs₂ fs' replies h herr
  obtain ⟨inode, -, hend⟩ := Option.map_eq_some_iff.mp h
  exact success (by simp) fs' replies (congrArg some hend) herr

theorem fuseUnlink (parent : ℕ) (name : Name) : Atomic fs (fs.fuseUnlink parent name) := by
  apply withDirectory
  intro dir
  cases dir.childINodeNumberWithName name with
  | none => exact reply _
  | some ino =>
    intro fs' replies h herr
    obtain ⟨inode, -, hend⟩ := Option.map_eq_some_iff.mp h
    exact success (by simp) fs' replies (congrArg some hend) herr

theorem fuseRmdir (parent : ℕ) (name : Name) : Atomic fs (fs.fuseRmdir parent name) := by
  apply withDirectory
  intro dir
  cases dir.childINodeNumberWithName name with
  | none => exact reply _
  | some ino =>
    apply bind
    intro inode
    cases inode.asDirectory with
    | none => exact reply _
    | some target => exact ite (reply _) (success (by simp))

theorem fuseRename (parent : ℕ) (name : Name) (newparent : ℕ) (newname : Name) :
    Atomic fs (fs.fuseRename parent name newparent newname) := by
  apply withDirectory
  intro dir
  cases dir.childINodeNumberWithName name with
  | none => exact reply _
  | some ino =>
    apply withDirectory
    intro newDir fs' replies h herr
    obtain ⟨ns, -, hend⟩ := Option.map_eq_some_iff.mp h
    exact success (by simp) fs' replies (congrArg some hend) herr

end Atomic

/-! ### Links -/

section Link

variable {fs fs' : FileSystem} {ino newparent : ℕ} {newname : Name} {replies : List Reply}

/-- A link in a directory, of an inode of the table, is made whether or not the name exists. -/
theorem fuseLink_eq (newname : Name) {dir : Directory}
    (hdir : fs.iNodeManager.directoryAt newparent = some dir)
    (hino : ino < fs.iNodeManager.iNodes.length) : ∃ x attr,
    fs.fuseLink ino newparent newname = some (fs.setNodes (((fs.iNodeManager.updateChild newparent newname
        ino).addHardLink ino).lookupINode ino),
      (if (dir.childINodeNumberWithName newname).any (0 < ·) then [Reply.err .eexist] else []) ++
        [.entry x attr]) := by
  have hparent : newparent < fs.iNodeManager.iNodes.length := by
    obtain ⟨i, hi, -⟩ := Option.bind_eq_some_iff.mp hdir
    exact (List.getElem?_eq_some_iff.mp hi).1
  have hlen : ino < ((fs.iNodeManager.updateChild newparent newname ino).addHardLink
      ino).iNodes.length := by simpa using hino
  obtain ⟨inode, hget⟩ : ∃ inode, ((fs.iNodeManager.updateChild newparent newname ino).addHardLink
      ino).iNodes[ino]? = some inode := ⟨_, List.getElem?_eq_getElem hlen⟩
  refine ⟨inode.inodeNumber, inode.attr, ?_⟩
  simp only [fuseLink, withDirectory, Nodes.getNumberOfINodes, if_neg (Nat.not_le.mpr hparent), hdir,
    if_neg (Nat.not_le.mpr hino), replyEntry, setNodes, Nodes.getINodeByINodeNumber,
    hget, Option.map_some]

/-- Without a directory, or with an inode past the end of the table, a link is refused. -/
theorem fuseLink_refused (ino newparent : ℕ) (newname : Name) (h : fs.iNodeManager.directoryAt newparent = none ∨
    fs.iNodeManager.iNodes.length ≤ ino) : ∃ e, fs.fuseLink ino newparent newname = fs.reply (.err e) := by
  unfold fuseLink withDirectory Nodes.getNumberOfINodes
  split
  · exact ⟨_, rfl⟩
  · cases hdir : fs.iNodeManager.directoryAt newparent with
    | none => exact ⟨_, rfl⟩
    | some dir =>
      have hino : fs.iNodeManager.iNodes.length ≤ ino := by
        rcases h with h | h
        · rw [hdir] at h
          cases h
        · exact h
      exact ⟨_, if_pos hino⟩

/-- A link to a name that does not exist. -/
theorem Atomic.fuseLink (hfree : ¬ fs.LinksOntoExisting (.link ino newparent newname)) :
    Atomic fs (fs.fuseLink ino newparent newname) := by
  cases hdir : fs.iNodeManager.directoryAt newparent with
  | none =>
    obtain ⟨e, he⟩ := fuseLink_refused ino newparent newname (Or.inl hdir)
    rw [he]
    exact Atomic.reply _
  | some dir =>
    by_cases hino : fs.iNodeManager.iNodes.length ≤ ino
    · obtain ⟨e, he⟩ := fuseLink_refused ino newparent newname (Or.inr hino)
      rw [he]
      exact Atomic.reply _
    · obtain ⟨_, _, hlink⟩ := fuseLink_eq newname hdir (Nat.lt_of_not_le hino)
      have hfresh : (dir.childINodeNumberWithName newname).any (0 < ·) = false := by
        by_contra hany
        rw [Bool.not_eq_false, Option.any_eq_true] at hany
        obtain ⟨x, hx, hpos⟩ := hany
        apply hfree
        refine ⟨Nat.lt_of_not_le hino, x, ?_, of_decide_eq_true hpos⟩
        rw [hdir]
        exact hx
      rw [hlink, hfresh]
      exact Atomic.success (by simp)

/-- A link to a name that exists still adds a link to the inode. -/
theorem fuseLink_nlinkOf (honto : fs.LinksOntoExisting (.link ino newparent newname))
    (h : fs.fuseLink ino newparent newname = some (fs', replies)) :
    fs'.iNodeManager.nlinkOf ino = incr (fs.iNodeManager.nlinkOf ino) := by
  obtain ⟨hino, x, hx, -⟩ := honto
  obtain ⟨dir, hdir, -⟩ := Option.bind_eq_some_iff.mp hx
  obtain ⟨_, _, hlink⟩ := fuseLink_eq newname hdir hino
  obtain ⟨rfl, -⟩ := Prod.mk.inj (Option.some.inj (hlink.symm.trans h))
  have hlen : ino < (fs.iNodeManager.updateChild newparent newname ino).iNodes.length := by
    simpa [Nodes.getNumberOfINodes] using hino
  show (((fs.iNodeManager.updateChild newparent newname ino).addHardLink ino).lookupINode
    ino).nlinkOf ino = _
  rw [Nodes.lookupINode_nlinkOf, Nodes.nlinkOf_addHardLink hlen, if_pos rfl,
    (Nodes.updateChild_sameCounts _ newparent newname ino).1]

end Link

/-- **A request that fails.**  The handler has sent an error; then it has changed nothing, unless the
request was a link to a name that exists. -/
theorem handle_unchanged_iff {fs fs' : FileSystem} {r : Request} {replies : List Reply} {e : Errno}
    (hnames : r.changesNames = true) (h : fs.handle r = some (fs', replies))
    (herr : Reply.err e ∈ replies) : fs' = fs ↔ ¬ fs.LinksOntoExisting r := by
  constructor
  · intro heq honto
    cases r with
    | link ino newparent newname =>
      have hcount := fuseLink_nlinkOf honto h
      rw [heq] at hcount
      exact incr_ne _ hcount.symm
    | _ => exact honto
  · intro hfree
    have hatomic : Atomic fs (fs.handle r) := by
      cases r with
      | lookup parent name => cases hnames
      | forget ino nlookup => cases hnames
      | mknod ctx parent name mode => exact Atomic.fuseMknod ctx parent name mode
      | mkdir parent name => exact Atomic.fuseMkdir parent name
      | symlink ctx link parent name => exact Atomic.fuseSymlink ctx link parent name
      | create ctx parent name flags => exact Atomic.fuseCreate ctx parent name flags
      | link ino newparent newname => exact Atomic.fuseLink hfree
      | unlink parent name => exact Atomic.fuseUnlink parent name
      | rmdir parent name => exact Atomic.fuseRmdir parent name
      | rename parent name newparent newname => exact Atomic.fuseRename parent name newparent newname
    exact hatomic fs' replies h ⟨e, herr⟩

/-- Two files are made in the root directory. -/
def madeTwo : List Request := [.create ⟨0, 0⟩ 1 [97] 0, .create ⟨0, 0⟩ 1 [98] 0]

/-- The removal of a directory that is not there is refused, and changes nothing. -/
theorem handle_unchanged_rmdir : ∃ fs fs' replies, run step (mounted ⟨0, 0⟩) madeTwo = some fs ∧
    fs.handle (.rmdir 1 [99]) = some (fs', replies) ∧ Reply.err .enoent ∈ replies ∧ fs' = fs := by
  have hdefined : ((run step (mounted ⟨0, 0⟩) madeTwo).bind fun fs =>
      fs.handle (.rmdir 1 [99])).map Prod.snd = some [.err .enoent] := by decide +kernel
  obtain ⟨⟨fs', replies⟩, hboth, hreplies⟩ := Option.map_eq_some_iff.mp hdefined
  obtain ⟨fs, hrun, hres⟩ := Option.bind_eq_some_iff.mp hboth
  have herr : Reply.err .enoent ∈ replies := by
    rw [show replies = [.err .enoent] from hreplies]
    exact List.mem_singleton.mpr rfl
  exact ⟨fs, fs', replies, hrun, hres, herr, (handle_unchanged_iff rfl hres herr).mpr fun h => h⟩

/-- The link of the first file to the name of the second is answered with `EEXIST`, and makes the first
file one of two links. -/
theorem not_handle_unchanged_of_run : ¬ ∀ (requests : List Request) (fs fs' : FileSystem) (r : Request)
    (replies : List Reply) (e : Errno), run step (mounted ⟨0, 0⟩) requests = some fs →
      r.changesNames = true → fs.handle r = some (fs', replies) → Reply.err e ∈ replies → fs' = fs := by
  intro h
  have hdefined : ((run step (mounted ⟨0, 0⟩) madeTwo).bind fun fs =>
      (fs.handle (.link 2 1 [98])).map fun res =>
        (fs.iNodeManager.nlinkOf 2, res.1.iNodeManager.nlinkOf 2, decide (Reply.err .eexist ∈ res.2))) =
      some (1, 2, true) := by decide +kernel
  obtain ⟨fs, hrun, hlinked⟩ := Option.bind_eq_some_iff.mp hdefined
  obtain ⟨⟨fs', replies⟩, hres, hcounts⟩ := Option.map_eq_some_iff.mp hlinked
  obtain ⟨hbefore, hafter, herr⟩ := by simpa only [Prod.mk.injEq, decide_eq_true_eq] using hcounts
  have hsame := h madeTwo fs fs' (.link 2 1 [98]) replies .eexist hrun rfl hres herr
  rw [hsame, hbefore] at hafter
  cases hafter

end FileSystem

end DagonFs
