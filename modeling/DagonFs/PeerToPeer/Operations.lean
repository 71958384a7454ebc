import DagonFs.FileSystem.Answers
import DagonFs.PeerToPeer.Replica

/-!
# What the handlers of a replica do to its names

`View` is what a replica shows of its namespace: the tree of names, and the kind of each inode.  The
announced operations are operations on views (`Operation.onView`), and `handle_performs` says that a
handler does just that, or refuses and changes nothing.  `mknod_performs` is the same for `FuseMknod`,
which leaves a new directory without a name of its own.
-/

namespace DagonFs

open DagonFs.Nodes

namespace PeerToPeer

namespace Tree

variable (t : Tree)

/-- A number gets a name, in the place of what had the name. -/
def setEntry (parent : ℕ) (name : Name) (x : ℕ) : Tree :=
  { t with children := Function.update t.children parent ((t.children parent).insert name x) }

def remove (parent : ℕ) (name : Name) : Tree :=
  { t with children := Function.update t.children parent ((t.children parent).erase name) }

def move (parent : ℕ) (name : Name) (newparent : ℕ) (newname : Name) (x : ℕ) : Tree :=
  (t.setEntry newparent newname x).remove parent name

end Tree

@[ext]
structure View where
  tree : Tree
  kinds : ℕ → Option EntryKind

namespace View

def make (v : View) (parent : ℕ) (name : Name) (kind : EntryKind) : View where
  tree := v.tree.make parent name (kind = .directory)
  kinds := Function.update v.kinds v.tree.size (some kind)

/-- A new directory whose absolute name is not set. -/
def makeUnnamed (v : View) (parent : ℕ) (name : Name) : View :=
  { v.make parent name .directory with
    tree := { v.tree.make parent name true with dirName := v.tree.dirName } }

end View

/-- What an operation does, unless it is refused. -/
def Operation.onView (v : View) : Operation → Option View
  | .create _ parent name _ =>
    if v.tree.isDirectory parent = true ∧ name.length ≤ kMaxFilenameLength then
      some (v.make parent name .regularFile)
    else none
  | .mkdir parent name =>
    if v.tree.isDirectory parent = true then some (v.make parent name .directory) else none
  | .unlink parent name =>
    ((v.tree.children parent)[name]?).map fun _ => { v with tree := v.tree.remove parent name }
  | .rmdir parent name =>
    ((v.tree.children parent)[name]?).bind fun x =>
      if v.tree.isDirectory x = true ∧ Directory.hasChildren ⟨v.tree.children x, [], none⟩ = false then
        some { v with tree := v.tree.remove parent name }
      else none
  | .rename parent name newparent newname =>
    ((v.tree.children parent)[name]?).bind fun x =>
      if v.tree.isDirectory newparent = true then
        some { v with tree := v.tree.move parent name newparent newname x }
      else none

/-- A call of one of the handlers that make, remove and rename files and directories; all but `FuseMknod`
announce what they have done. -/
inductive Call where
  | told (op : Operation)
  | mknod (ctx : Ids) (parent : ℕ) (name : Name) (mode : ℕ)

namespace Replica

variable (r : Replica)

/-- A handler without a last part. -/
def quietly (res : FileSystem × List Reply) : Outcome := ⟨{ r with fs := res.1 }, res.2, []⟩

def fuseMknod (ctx : Ids) (parent : ℕ) (name : Name) (mode : ℕ) : Option Outcome :=
  (r.fs.fuseMknod ctx parent name mode).map r.quietly

def perform : Call → Option Outcome
  | .told op => r.handle op
  | .mknod ctx parent name mode => r.fuseMknod ctx parent name mode

/-- The state after a call. -/
def performStep (c : Call) : Option Replica := (r.perform c).map Outcome.replica

end Replica

/-- What `FuseMknod` does, unless it is refused. -/
def View.mknod (v : View) (parent : ℕ) (name : Name) (mode : ℕ) : Option View :=
  if v.tree.isDirectory parent = true ∧ name.length ≤ kMaxFilenameLength then
    if sIsdir mode then some (v.makeUnnamed parent name)
    else if sIsreg mode then some (v.make parent name .regularFile)
    else none
  else none

def Call.onView (v : View) : Call → Option View
  | .told op => op.onView v
  | .mknod _ parent name mode => v.mknod parent name mode

/-- **What an operation that is not refused does**: it makes an inode, removes an entry, or moves one. -/
theorem Operation.onView_cases {v v' : View} {op : Operation} (h : op.onView v = some v') :
    (∃ parent name kind, op.makes = some (parent, name, decide (kind = EntryKind.directory)) ∧
      v.tree.isDirectory parent = true ∧ v' = v.make parent name kind) ∨
    (∃ (parent : ℕ) (name : Name) (x : ℕ), (v.tree.children parent)[name]? = some x ∧
      v' = { v with tree := v.tree.remove parent name }) ∨
    ∃ (parent : ℕ) (name : Name) (newparent : ℕ) (newname : Name) (x : ℕ),
      op = .rename parent name newparent newname ∧ (v.tree.children parent)[name]? = some x ∧
      v.tree.isDirectory newparent = true ∧
      v' = { v with tree := v.tree.move parent name newparent newname x } := by
  cases op with
  | create ctx parent name flags =>
    simp only [Operation.onView] at h
    split at h
    · rename_i hchecked
      exact Or.inl ⟨parent, name, .regularFile, rfl, hchecked.1, (Option.some.inj h).symm⟩
    · cases h
  | mkdir parent name =>
    simp only [Operation.onView] at h
    split at h
    · rename_i hparent
      exact Or.inl ⟨parent, name, .directory, rfl, hparent, (Option.some.inj h).symm⟩
    · cases h
  | unlink parent name =>
    obtain ⟨x, hx, rfl⟩ := Option.map_eq_some_iff.mp h
    exact Or.inr (Or.inl ⟨parent, name, x, hx, rfl⟩)
  | rmdir parent name =>
    obtain ⟨x, hx, h⟩ := Option.bind_eq_some_iff.mp h
    split at h
    · exact Or.inr (Or.inl ⟨parent, name, x, hx, (Option.some.inj h).symm⟩)
    · cases h
  | rename parent name newparent newname =>
    obtain ⟨x, hx, h⟩ := Option.bind_eq_some_iff.mp h
    split at h
    · rename_i hnew
      exact Or.inr (Or.inr ⟨parent, name, newparent, newname, x, rfl, hx, hnew, (Option.some.inj h).symm⟩)
    · cases h

end PeerToPeer

open DagonFs.PeerToPeer

/-! ### The view of a table -/

namespace Nodes

def view (ns : Nodes) : View := ⟨ns.tree, ns.entryKinds⟩

variable {ns ns₁ : Nodes} {p : ℕ}

theorem view_modifyINode {f : INode → INode} (hf : ∀ i, (f i).kind = i.kind) (x : ℕ) :
    (ns.modifyINode x f).view = ns.view := by
  rw [view, tree_modifyINode hf, entryKinds_modifyINode hf, view]

theorem tree_deleteChild (hp : ns.isDirectory p = true) (name : Name) :
    (ns.deleteChild p name).tree = ns.tree.remove p name := by
  have hchildren : (ns.deleteChild p name).childrenOf =
      Function.update ns.childrenOf p ((ns.childrenOf p).erase name) := by
    funext d
    by_cases hd : d = p
    · rw [hd, childrenOf_deleteChild hp, Function.update_self]
    · rw [childrenOf_deleteChild_ne _ hd, Function.update_of_ne hd]
  have hname : (ns.deleteChild p name).dirNameOf = ns.dirNameOf :=
    dirNameOf_onDirectory (g := fun d => (d.deleteChild name).1) (fun _ => rfl) p
  obtain ⟨-, -, -, hdir, -, hlength, -⟩ := ns.deleteChild_sameCounts p name
  simp only [tree, Tree.remove, hchildren, hdir, hlength, hname]

theorem view_deleteChild (hp : ns.isDirectory p = true) (name : Name) :
    (ns.deleteChild p name).view = { ns.view with tree := ns.view.tree.remove p name } := by
  have hkinds : (ns.deleteChild p name).entryKinds = ns.entryKinds :=
    entryKinds_onDirectory (fun d => (d.deleteChild name).1) p
  rw [view, tree_deleteChild hp, hkinds]
  rfl

theorem view_updateChild (hp : ns.isDirectory p = true) (name : Name) (ino : ℕ) :
    (ns.updateChild p name ino).view = { ns.view with tree := ns.view.tree.setEntry p name ino } := by
  have hkinds : (ns.updateChild p name ino).entryKinds = ns.entryKinds :=
    entryKinds_onDirectory (fun d => (d.updateChild name ino).1) p
  rw [view, tree_updateChild hp, hkinds]
  rfl

theorem childrenOf_of_directoryAt_none {x : ℕ} (h : ns.directoryAt x = none) : ns.childrenOf x = ∅ := by
  rw [directoryAt] at h
  rw [childrenOf]
  cases hget : ns.iNodes[x]? with
  | none => rfl
  | some i =>
    rw [hget] at h
    obtain ⟨_, _, _, _, k⟩ := i
    cases k with
    | directory d => cases h
    | _ => rfl

end Nodes

/-! ### The handlers -/

namespace FileSystem

variable {fs : FileSystem}

/-- A handler does one thing to the view and replies, or replies an error and changes nothing. -/
inductive Performs (fs : FileSystem) : Result → Option View → Prop
  | done {fs' : FileSystem} {reply : Reply} {v : View} (hok : reply.isErr = false)
      (hview : fs'.iNodeManager.view = v)
      (hqueue : fs'.iNodeManager.deletedINodes = fs.iNodeManager.deletedINodes) :
      Performs fs (some (fs', [reply])) (some v)
  | refused (e : Errno) : Performs fs (some (fs, [.err e])) none

theorem withDirectory_of_none {parent : ℕ} (hdir : fs.iNodeManager.directoryAt parent = none) (e : Errno)
    (k : Directory → Result) : ∃ e', fs.withDirectory parent e k = fs.reply (.err e') := by
  unfold withDirectory
  split
  · exact ⟨_, rfl⟩
  · rw [hdir]
    exact ⟨_, rfl⟩

theorem withDirectory_of_some {parent : ℕ} {dir : Directory}
    (hdir : fs.iNodeManager.directoryAt parent = some dir) (e : Errno) (k : Directory → Result) :
    fs.withDirectory parent e k = k dir := by
  have hlt : parent < fs.iNodeManager.iNodes.length := by
    apply lt_of_isDirectory
    rw [isDirectory_eq_isSome, hdir]
    rfl
  rw [withDirectory, getNumberOfINodes, if_neg (Nat.not_le.mpr hlt), hdir]

/-- A handler that refuses a parent that is no directory. -/
theorem performs_withDirectory_none {parent : ℕ} (hdir : fs.iNodeManager.directoryAt parent = none)
    (e : Errno) (k : Directory → Result) : Performs fs (fs.withDirectory parent e k) none := by
  obtain ⟨e', he⟩ := withDirectory_of_none hdir e k
  rw [he]
  exact .refused e'

theorem isDirectory_of_some {parent : ℕ} {dir : Directory}
    (hdir : fs.iNodeManager.directoryAt parent = some dir) :
    fs.iNodeManager.isDirectory parent = true := by
  rw [isDirectory_eq_isSome, hdir]
  rfl

theorem isDirectory_of_none {parent : ℕ} (hdir : fs.iNodeManager.directoryAt parent = none) :
    fs.iNodeManager.isDirectory parent = false := by
  rw [isDirectory_eq_isSome, hdir]
  rfl

section Makes

variable (hqueue : fs.iNodeManager.deletedINodes = [])
include hqueue

theorem fuseCreate_performs (ctx : Ids) (parent : ℕ) (name : Name) (flags : ℕ) :
    Performs fs (fs.fuseCreate ctx parent name flags)
      ((Operation.create ctx parent name flags).onView fs.iNodeManager.view) := by
  cases hdir : fs.iNodeManager.directoryAt parent with
  | none =>
    have hnone : fs.iNodeManager.view.tree.isDirectory parent ≠ true :=
      Bool.eq_false_iff.mp (isDirectory_of_none hdir)
    rw [Operation.onView, if_neg fun h => hnone h.1]
    exact performs_withDirectory_none hdir _ _
  | some dir =>
    have hparent := isDirectory_of_some hdir
    by_cases hshort : name.length ≤ kMaxFilenameLength
    · obtain ⟨fs', ino, attr, hcreate, hqueue', htree, hkinds⟩ :=
        fuseCreate_tree ctx name flags hqueue hparent hshort
      rw [Operation.onView, if_pos ⟨hparent, hshort⟩, hcreate]
      refine .done rfl ?_ (hqueue'.trans hqueue.symm)
      rw [Nodes.view, htree, hkinds]
      rfl
    · rw [Operation.onView, if_neg fun h => hshort h.2, fuseCreate, withDirectory_of_some hdir,
        if_pos (Nat.lt_of_not_le hshort)]
      exact .refused _

theorem makeDirectory_performs (parent : ℕ) (name : Name) :
    Performs fs (Replica.makeDirectory fs parent name)
      ((Operation.mkdir parent name).onView fs.iNodeManager.view) := by
  cases hdir : fs.iNodeManager.directoryAt parent with
  | none =>
    have hnone : fs.iNodeManager.view.tree.isDirectory parent ≠ true :=
      Bool.eq_false_iff.mp (isDirectory_of_none hdir)
    rw [Operation.onView, if_neg hnone]
    exact performs_withDirectory_none hdir _ _
  | some dir =>
    have hparent : fs.iNodeManager.view.tree.isDirectory parent = true := isDirectory_of_some hdir
    obtain ⟨fs', ino, attr, hmkdir, hqueue', htree, hkinds⟩ := makeDirectory_tree name hqueue hparent
    rw [Operation.onView, if_pos hparent, hmkdir]
    refine .done rfl ?_ (hqueue'.trans hqueue.symm)
    rw [Nodes.view, htree, hkinds]
    rfl

/-- The registration of `FuseMknod` and the entry it makes. -/
theorem mknodAs_view (ctx : Ids) {parent : ℕ} (name : Name) (type : INodeType) (nlink mode : ℕ)
    (hparent : fs.iNodeManager.isDirectory parent = true) :
    ∃ fs' ino attr, fs.mknodAs ctx parent name type nlink mode = some (fs', [.entry ino attr]) ∧
      fs'.iNodeManager.deletedINodes = [] ∧
      fs'.iNodeManager.view = ⟨{ fs.iNodeManager.tree.make parent name (createEmptyINode type).isDirectory
          with dirName := fs.iNodeManager.dirNameOf },
        Function.update fs.iNodeManager.entryKinds fs.iNodeManager.iNodes.length
          (createEmptyINode type).entryKind⟩ := by
  have hlt := lt_of_isDirectory _ hparent
  have hne : fs.iNodeManager.iNodes.length ≠ parent := by omega
  obtain ⟨fs₁, hreg, htable, hqueue₁, -⟩ := registerINode_end fs type (mode ||| 0o777) nlink ctx.uid
    ctx.gid hqueue
  have hin : fs.iNodeManager.iNodes.length <
      (fs₁.iNodeManager.updateChild parent name fs.iNodeManager.iNodes.length).iNodes.length := by
    rw [updateChild, modifyINode_length]
    exact htable.lt_length
  have hfresh := fresh_registered type fs.iNodeManager.iNodes.length (mode ||| 0o777) nlink ctx.uid ctx.gid
  have hempty : (initializeINode (createEmptyINode type) fs.iNodeManager.iNodes.length (mode ||| 0o777)
      nlink ctx.uid ctx.gid).dirName = [] := by
    cases type <;> rfl
  simp only [mknodAs, withINode, hreg, insertChild, if_neg hne, Option.bind_some, replyEntry, setNodes,
    getINodeByINodeNumber, List.getElem?_eq_getElem hin, Option.map_some]
  refine ⟨_, _, _, rfl, hqueue₁, ?_⟩
  show (lookupINode _ _).view = _
  rw [lookupINode, view_modifyINode INode.lookup_kind, Nodes.view,
    tree_named htable hfresh.children hempty hparent, entryKinds_named _ _ htable]
  rfl

theorem fuseMknod_performs (ctx : Ids) (parent : ℕ) (name : Name) (mode : ℕ) :
    Performs fs (fs.fuseMknod ctx parent name mode) (fs.iNodeManager.view.mknod parent name mode) := by
  cases hdir : fs.iNodeManager.directoryAt parent with
  | none =>
    have hnone : fs.iNodeManager.view.tree.isDirectory parent ≠ true :=
      Bool.eq_false_iff.mp (isDirectory_of_none hdir)
    rw [View.mknod, if_neg fun h => hnone h.1]
    exact performs_withDirectory_none hdir _ _
  | some dir =>
    have hparent := isDirectory_of_some hdir
    by_cases hshort : name.length ≤ kMaxFilenameLength
    · rw [View.mknod, if_pos ⟨hparent, hshort⟩, fuseMknod, withDirectory_of_some hdir,
        if_neg (Nat.not_lt.mpr hshort)]
      by_cases hmode : sIsdir mode = true
      · -- the link count of the parent is raised first
        have hraised : (fs.iNodeManager.addHardLink parent).view = fs.iNodeManager.view :=
          view_modifyINode INode.addHardLink_kind parent
        have hparent' : (fs.setNodes (fs.iNodeManager.addHardLink parent)).iNodeManager.isDirectory
            parent = true := by simpa [setNodes] using hparent
        have hnone : (fs.setNodes (fs.iNodeManager.addHardLink parent)).iNodeManager.deletedINodes = [] :=
          hqueue
        obtain ⟨fs', ino, attr, hmknod, hqueue', hview⟩ := mknodAs_view hnone ctx name .directory 2
          sIfdir hparent'
        rw [if_pos hmode, if_pos hmode, hmknod]
        refine .done rfl ?_ (hqueue'.trans hqueue.symm)
        rw [hview, ← hraised]
        rfl
      · rw [if_neg hmode, if_neg hmode]
        by_cases hregular : sIsreg mode = true
        · obtain ⟨fs', ino, attr, hmknod, hqueue', hview⟩ := mknodAs_view hqueue ctx name .regularFile 1
            sIfreg hparent
          rw [if_pos hregular, if_pos hregular, hmknod]
          refine .done rfl ?_ (hqueue'.trans hqueue.symm)
          have hfile : (createEmptyINode .regularFile).isDirectory = false := rfl
          rw [hview, hfile, tree_make_file]
          rfl
        · rw [if_neg hregular, if_neg hregular]
          exact .refused _
    · rw [View.mknod, if_neg fun h => hshort h.2, fuseMknod, withDirectory_of_some hdir,
        if_pos (Nat.lt_of_not_le hshort)]
      exact .refused _

end Makes

section Names

variable (hvalid : fs.iNodeManager.EntriesValid)
include hvalid

theorem fuseUnlink_performs (parent : ℕ) (name : Name) : Performs fs (fs.fuseUnlink parent name)
    ((Operation.unlink parent name).onView fs.iNodeManager.view) := by
  show Performs fs _ (Option.map _ (fs.iNodeManager.childrenOf parent)[name]?)
  cases hdir : fs.iNodeManager.directoryAt parent with
  | none =>
    rw [childrenOf_of_directoryAt_none hdir, Std.ExtTreeMap.getElem?_empty]
    exact performs_withDirectory_none hdir _ _
  | some dir =>
    have hchildren := fs.iNodeManager.childrenOf_of_directoryAt hdir
    have hparent := isDirectory_of_some hdir
    rw [fuseUnlink, withDirectory_of_some hdir, Directory.childINodeNumberWithName, ← hchildren]
    cases hentry : (fs.iNodeManager.childrenOf parent)[name]? with
    | none => exact .refused _
    | some x =>
      have hget := List.getElem?_eq_getElem (hvalid parent name x hentry)
      have hview : (fs.iNodeManager.removeHardLink x).view = fs.iNodeManager.view :=
        view_modifyINode INode.removeHardLink_kind x
      simp only [getINodeByINodeNumber, hget, Option.map_some]
      refine .done rfl ?_ rfl
      show ((fs.iNodeManager.removeHardLink x).deleteChild parent name).view = _
      rw [view_deleteChild (by simpa using hparent), hview]

theorem fuseRmdir_performs (parent : ℕ) (name : Name) : Performs fs (fs.fuseRmdir parent name)
    ((Operation.rmdir parent name).onView fs.iNodeManager.view) := by
  show Performs fs _ (Option.bind (fs.iNodeManager.childrenOf parent)[name]? _)
  cases hdir : fs.iNodeManager.directoryAt parent with
  | none =>
    rw [childrenOf_of_directoryAt_none hdir, Std.ExtTreeMap.getElem?_empty]
    exact performs_withDirectory_none hdir _ _
  | some dir =>
    have hchildren := fs.iNodeManager.childrenOf_of_directoryAt hdir
    have hparent := isDirectory_of_some hdir
    rw [fuseRmdir, withDirectory_of_some hdir, Directory.childINodeNumberWithName, ← hchildren]
    cases hentry : (fs.iNodeManager.childrenOf parent)[name]? with
    | none => exact .refused _
    | some x =>
      have hget := List.getElem?_eq_getElem (hvalid parent name x hentry)
      simp only [getINodeByINodeNumber, hget, Option.bind_some]
      cases hx : fs.iNodeManager.directoryAt x with
      | none =>
        have hnone : fs.iNodeManager.view.tree.isDirectory x ≠ true :=
          Bool.eq_false_iff.mp (isDirectory_of_none hx)
        rw [directoryAt, hget, Option.bind_some] at hx
        rw [if_neg fun h => hnone h.1, hx]
        exact .refused _
      | some d =>
        have hisdir : fs.iNodeManager.view.tree.isDirectory x = true := isDirectory_of_some hx
        have hempty : Directory.hasChildren ⟨fs.iNodeManager.view.tree.children x, [], none⟩ =
            d.hasChildren := by
          show Directory.hasChildren ⟨fs.iNodeManager.childrenOf x, [], none⟩ = _
          rw [fs.iNodeManager.childrenOf_of_directoryAt hx]
          rfl
        rw [directoryAt, hget, Option.bind_some] at hx
        simp only [hx, hempty]
        cases hd : d.hasChildren with
        | true =>
          rw [if_pos rfl, if_neg fun h => Bool.false_ne_true h.2.symm]
          exact .refused _
        | false =>
          have hview : ((fs.iNodeManager.removeHardLink parent).removeAllHardLinks x).view =
              fs.iNodeManager.view := by
            rw [removeAllHardLinks, view_modifyINode INode.removeAllHardLinks_kind, removeHardLink,
              view_modifyINode INode.removeHardLink_kind]
          rw [if_neg Bool.false_ne_true, if_pos ⟨hisdir, rfl⟩]
          refine .done rfl ?_ rfl
          show (((fs.iNodeManager.removeHardLink parent).removeAllHardLinks x).deleteChild parent
            name).view = _
          rw [view_deleteChild (by simpa using hparent), hview]

theorem fuseRename_performs (parent : ℕ) (name : Name) (newparent : ℕ) (newname : Name) :
    Performs fs (fs.fuseRename parent name newparent newname)
      ((Operation.rename parent name newparent newname).onView fs.iNodeManager.view) := by
  show Performs fs _ (Option.bind (fs.iNodeManager.childrenOf parent)[name]? _)
  cases hdir : fs.iNodeManager.directoryAt parent with
  | none =>
    rw [childrenOf_of_directoryAt_none hdir, Std.ExtTreeMap.getElem?_empty]
    exact performs_withDirectory_none hdir _ _
  | some dir =>
    have hchildren := fs.iNodeManager.childrenOf_of_directoryAt hdir
    have hparent := isDirectory_of_some hdir
    rw [fuseRename, withDirectory_of_some hdir, Directory.childINodeNumberWithName, ← hchildren]
    cases hentry : (fs.iNodeManager.childrenOf parent)[name]? with
    | none => exact .refused _
    | some x =>
      simp only [Option.bind_some]
      cases hnewDir : fs.iNodeManager.directoryAt newparent with
      | none =>
        have hnone : fs.iNodeManager.view.tree.isDirectory newparent ≠ true :=
          Bool.eq_false_iff.mp (isDirectory_of_none hnewDir)
        rw [if_neg hnone]
        exact performs_withDirectory_none hnewDir _ _
      | some newDir =>
        have hnew : fs.iNodeManager.view.tree.isDirectory newparent = true := isDirectory_of_some hnewDir
        obtain ⟨ns, hns, hview, hqueue⟩ : ∃ ns, displace fs.iNodeManager parent newparent
            (newDir.childINodeNumberWithName newname) = some ns ∧ ns.view = fs.iNodeManager.view ∧
              ns.deletedINodes = fs.iNodeManager.deletedINodes := by
          rcases displace_eq fs.iNodeManager parent newparent (fun y hy =>
            hvalid newparent newname y
              (by rw [fs.iNodeManager.childrenOf_of_directoryAt hnewDir]; exact hy)) with hsame | hadjusted
          · exact ⟨_, hsame, rfl, rfl⟩
          · refine ⟨_, hadjusted, ?_, rfl⟩
            rw [addHardLink, view_modifyINode INode.addHardLink_kind, removeHardLink,
              view_modifyINode INode.removeHardLink_kind]
        rw [if_pos hnew, withDirectory_of_some hnewDir]
        simp only [hns, Option.map_some]
        refine .done rfl ?_ hqueue
        have hdirectory : ∀ d, ns.isDirectory d = fs.iNodeManager.isDirectory d := fun d =>
          congrFun (congrArg (fun v => v.tree.isDirectory) hview) d
        show ((ns.updateChild newparent newname x).deleteChild parent name).view = _
        rw [view_deleteChild (by simpa [hdirectory] using hparent),
          view_updateChild (by rw [hdirectory]; exact hnew), hview]
        rfl

end Names

end FileSystem

namespace PeerToPeer.Replica

open DagonFs.FileSystem

def view (r : Replica) : View := r.fs.iNodeManager.view

/-- The view between two operations: nothing is queued for reuse, and every entry is in the table. -/
structure Steady (r : Replica) : Prop where
  queue : r.fs.iNodeManager.deletedINodes = []
  entries : r.fs.iNodeManager.EntriesValid

/-- What an operation leaves: it has succeeded and done one thing to the view, or failed and changed nothing. -/
def Done (r : Replica) (o : Outcome) : Option View → Prop
  | some v => o.succeeded = true ∧ o.replica.view = v ∧
      o.replica.fs.iNodeManager.deletedINodes = r.fs.iNodeManager.deletedINodes
  | none => o.succeeded = false ∧ o.replica = r

variable {r : Replica} {o : Outcome}

theorem done_of_performs {res : Result} {v : Option View} {request : FileSystem → Request}
    (hperforms : Performs r.fs res v) (h : (res.bind fun res => r.finish res request) = some o) :
    Done r o v := by
  cases hperforms with
  | done hok hview hqueue =>
    obtain ⟨hfs, hsucceeded⟩ := finish_eq_some h
    refine ⟨?_, ?_, ?_⟩
    · rw [hsucceeded]
      simp [hok]
    · rw [Replica.view, hfs]
      exact hview
    · rw [hfs]
      exact hqueue
  | refused e =>
    obtain rfl := Option.some.inj h
    exact ⟨rfl, rfl⟩

/-- **What the handlers do to the view**, and when they refuse. -/
theorem handle_performs (h : Steady r) {op : Operation} (ho : r.handle op = some o) :
    Done r o (op.onView r.view) := by
  cases op with
  | create ctx parent name flags =>
    exact done_of_performs (fuseCreate_performs h.queue ctx parent name flags) ho
  | mkdir parent name => exact done_of_performs (makeDirectory_performs h.queue parent name) ho
  | unlink parent name => exact done_of_performs (fuseUnlink_performs h.entries parent name) ho
  | rmdir parent name => exact done_of_performs (fuseRmdir_performs h.entries parent name) ho
  | rename parent name newparent newname =>
    exact done_of_performs (fuseRename_performs h.entries parent name newparent newname) ho

theorem perform_performs (h : Steady r) {c : Call} (ho : r.perform c = some o) :
    Done r o (c.onView r.view) := by
  cases c with
  | told op => exact handle_performs h ho
  | mknod ctx parent name mode =>
    obtain ⟨res, hres, hquietly⟩ := Option.map_eq_some_iff.mp ho
    have hperforms := fuseMknod_performs h.queue ctx parent name mode
    rw [hres] at hperforms
    show Done r o (r.view.mknod parent name mode)
    rw [Replica.view]
    generalize r.fs.iNodeManager.view.mknod parent name mode = v at hperforms ⊢
    subst hquietly
    cases hperforms with
    | done hok hview hqueue =>
      refine ⟨?_, hview, hqueue⟩
      simp [quietly, Outcome.succeeded, hok]
    | refused e => exact ⟨rfl, rfl⟩

end PeerToPeer.Replica

end DagonFs
