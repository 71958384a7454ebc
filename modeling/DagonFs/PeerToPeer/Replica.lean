import DagonFs.PeerToPeer.Tree

/-!
# The handlers of a replica and its tree

`Nodes.tree` reads the tree of names off an inode table.  While no inode is queued for reuse, a creation
that finds its parent appends one inode to the table, and does to the tree what `Tree.make` does
(`handle_make`); the root's name makes the mounted tree well named.
-/

namespace DagonFs

open DagonFs.PeerToPeer

/-- What a name leads to. -/
inductive EntryKind where
  | directory
  | regularFile
  | symbolicLink (target : Name)
  deriving DecidableEq

def INode.entryKind (i : INode) : Option EntryKind :=
  match i.kind with
  | .file _ => some .regularFile
  | .directory _ => some .directory
  | .symbolicLink link => some (.symbolicLink link)
  | .specialINode _ => none

def Nodes.entryKinds (ns : Nodes) (x : ℕ) : Option EntryKind := (ns.iNodes[x]?).elim none INode.entryKind

namespace Nodes

def tree (ns : Nodes) : Tree := ⟨ns.iNodes.length, ns.childrenOf, ns.isDirectory, ns.dirNameOf⟩

variable {ns ns₁ : Nodes} {p : ℕ}

/-- An operation that keeps the kind of an inode keeps the tree. -/
theorem tree_modifyINode {f : INode → INode} (hf : ∀ i, (f i).kind = i.kind) (x : ℕ) :
    (ns.modifyINode x f).tree = ns.tree := by
  obtain ⟨hchildren, hdir, -, hlength, -⟩ := ns.modifyINode_sameEntries hf x
  have hname : (ns.modifyINode x f).dirNameOf = ns.dirNameOf := funext fun y =>
    ns.modifyINode_elim f [] INode.dirName
      (fun i => by rw [INode.dirName, INode.asDirectory, hf]; rfl) y
  simp only [tree, hchildren, hdir, hlength, hname]

theorem dirNameOf_onDirectory {g : Directory → Directory} (hg : ∀ d, (g d).dirName = d.dirName)
    (x : ℕ) : (ns.modifyINode x (onDirectory g)).dirNameOf = ns.dirNameOf := by
  have hname : ∀ i, (onDirectory g i).dirName = i.dirName := by
    intro i
    obtain ⟨_, _, _, _, k⟩ := i
    cases k with
    | directory d => exact hg d
    | _ => rfl
  exact funext fun y => ns.modifyINode_elim _ [] INode.dirName hname y

theorem childrenOf_onDirectory_same {g : Directory → Directory}
    (hg : ∀ d, (g d).mChildren = d.mChildren) (x : ℕ) :
    (ns.modifyINode x (onDirectory g)).childrenOf = ns.childrenOf := by
  have hchildren : ∀ i, (onDirectory g i).children = i.children := by
    intro i
    obtain ⟨_, _, _, _, k⟩ := i
    cases k with
    | directory d => exact hg d
    | _ => rfl
  exact funext fun y => ns.modifyINode_elim _ ∅ INode.children hchildren y

theorem tree_updateChild (hp : ns.isDirectory p = true) (name : Name) (ino : ℕ) :
    (ns.updateChild p name ino).tree = { ns.tree with
      children := Function.update ns.childrenOf p ((ns.childrenOf p).insert name ino) } := by
  have hchildren : (ns.updateChild p name ino).childrenOf =
      Function.update ns.childrenOf p ((ns.childrenOf p).insert name ino) := by
    funext d
    by_cases hd : d = p
    · rw [hd, childrenOf_updateChild hp, Function.update_self]
    · rw [childrenOf_updateChild_ne _ _ hd, Function.update_of_ne hd]
  have hname : (ns.updateChild p name ino).dirNameOf = ns.dirNameOf :=
    dirNameOf_onDirectory (g := fun d => (d.updateChild name ino).1) (fun _ => rfl) p
  obtain ⟨-, -, -, hdir, -, hlength, -⟩ := ns.updateChild_sameCounts p name ino
  simp only [tree, hchildren, hdir, hlength, hname]

theorem tree_setParent (x parent : ℕ) : (ns.setParent x parent).tree = ns.tree := by
  have hchildren : (ns.setParent x parent).childrenOf = ns.childrenOf :=
    childrenOf_onDirectory_same (g := fun d => { d with parentDir := some parent }) (fun _ => rfl) x
  have hname : (ns.setParent x parent).dirNameOf = ns.dirNameOf :=
    dirNameOf_onDirectory (g := fun d => { d with parentDir := some parent }) (fun _ => rfl) x
  obtain ⟨-, -, -, hdir, -, hlength, -⟩ :=
    ns.onDirectory_sameCounts (fun d => { d with parentDir := some parent }) x
  simp only [tree, hchildren, hname]
  simp only [setParent, hdir, hlength]

theorem tree_setDirName (hp : ns.isDirectory p = true) (name : Name) :
    (ns.setDirName p name).tree = { ns.tree with
      dirName := Function.update ns.dirNameOf p name } := by
  have hchildren : (ns.setDirName p name).childrenOf = ns.childrenOf :=
    childrenOf_onDirectory_same (g := fun d => { d with dirName := name }) (fun _ => rfl) p
  have hname : (ns.setDirName p name).dirNameOf = Function.update ns.dirNameOf p name := by
    funext y
    by_cases hy : y = p
    · subst hy
      obtain ⟨d, hd⟩ := Option.isSome_iff_exists.mp (isDirectory_eq_isSome ns ▸ hp)
      obtain ⟨i, hi, hk⟩ := Option.bind_eq_some_iff.mp hd
      rw [Function.update_self, dirNameOf, setDirName, modifyINode_getElem?, if_pos rfl, hi]
      obtain ⟨_, _, _, _, k⟩ := i
      cases k with
      | directory d => rfl
      | _ => cases hk
    · rw [Function.update_of_ne hy]
      exact ns.modifyINode_elim_ne _ [] INode.dirName hy
  obtain ⟨-, -, -, hdir, -, hlength, -⟩ :=
    ns.onDirectory_sameCounts (fun d => { d with dirName := name }) p
  simp only [tree, hchildren, hname]
  simp only [setDirName, hdir, hlength]

/-- A new inode at the end of the table, and its entry. -/
theorem tree_named {i : INode} {name : Name} (hreg : Registered ns ns₁ ns.iNodes.length i)
    (hi : i.children = ∅) (hname : i.dirName = []) (hp : ns.isDirectory p = true) :
    (ns₁.updateChild p name ns.iNodes.length).tree =
      { ns.tree.make p name i.isDirectory with dirName := ns.dirNameOf } := by
  have hlt := lt_of_isDirectory ns hp
  have hpe : p ≠ ns.iNodes.length := by omega
  have hlength : ns₁.iNodes.length = ns.iNodes.length + 1 := by
    rw [hreg.length]
    omega
  have hchildren : ns₁.childrenOf = ns.childrenOf := by
    funext x
    by_cases hx : x = ns.iNodes.length
    · rw [hx, hreg.childrenOf_self, hi, childrenOf_of_length_le ns (le_refl _)]
    · exact hreg.childrenOf_ne hx
  have hdir : ns₁.isDirectory = Function.update ns.isDirectory ns.iNodes.length i.isDirectory := by
    funext x
    by_cases hx : x = ns.iNodes.length
    · rw [hx, hreg.isDirectory_self, Function.update_self]
    · rw [Function.update_of_ne hx, hreg.isDirectory_ne hx]
  have hdirName : ns₁.dirNameOf = ns.dirNameOf := by
    funext x
    by_cases hx : x = ns.iNodes.length
    · rw [hx, dirNameOf, hreg.get, Option.elim_some, hname, dirNameOf,
        List.getElem?_eq_none (le_refl _), Option.elim_none]
    · rw [dirNameOf, hreg.others x hx, dirNameOf]
  have hp₁ : ns₁.isDirectory p = true := by rw [hdir, Function.update_of_ne hpe, hp]
  rw [tree_updateChild hp₁]
  simp only [tree, hchildren, hdir, hdirName, hlength]
  rfl

/-! ### The kinds -/

theorem entryKinds_modifyINode {f : INode → INode} (hf : ∀ i, (f i).kind = i.kind) (x : ℕ) :
    (ns.modifyINode x f).entryKinds = ns.entryKinds := funext fun y =>
  ns.modifyINode_elim f none INode.entryKind (fun i => by rw [INode.entryKind, hf]; rfl) y

theorem entryKinds_onDirectory (g : Directory → Directory) (x : ℕ) :
    (ns.modifyINode x (onDirectory g)).entryKinds = ns.entryKinds := by
  have hkind : ∀ i, (onDirectory g i).entryKind = i.entryKind := by
    intro i
    obtain ⟨_, _, _, _, k⟩ := i
    cases k <;> rfl
  exact funext fun y => ns.modifyINode_elim _ none INode.entryKind hkind y

theorem entryKinds_named (p : ℕ) (name : Name) {i : INode}
    (hreg : Registered ns ns₁ ns.iNodes.length i) :
    (ns₁.updateChild p name ns.iNodes.length).entryKinds =
      Function.update ns.entryKinds ns.iNodes.length i.entryKind := by
  have hkinds : (ns₁.updateChild p name ns.iNodes.length).entryKinds = ns₁.entryKinds :=
    entryKinds_onDirectory (fun d => (d.updateChild name ns.iNodes.length).1) p
  rw [hkinds]
  funext x
  by_cases hx : x = ns.iNodes.length
  · rw [hx, Function.update_self, entryKinds, hreg.get]
    rfl
  · rw [Function.update_of_ne hx, entryKinds, hreg.others x hx, entryKinds]

end Nodes

namespace FileSystem

open DagonFs.Nodes

variable {fs : FileSystem} {parent : ℕ}

/-- A handler that finds its parent gets past the checks. -/
theorem withDirectory_of_isDirectory (hparent : fs.iNodeManager.isDirectory parent = true) :
    ∃ d, ∀ e k, fs.withDirectory parent e k = k d := by
  have hlt := lt_of_isDirectory _ hparent
  obtain ⟨d, hd⟩ := Option.isSome_iff_exists.mp (isDirectory_eq_isSome _ ▸ hparent)
  refine ⟨d, fun e k => ?_⟩
  rw [withDirectory, getNumberOfINodes, if_neg (Nat.not_le.mpr hlt), hd]

/-- A new file has no name to keep. -/
theorem tree_make_file (ns : Nodes) (name : Name) :
    { ns.tree.make parent name false with dirName := ns.dirNameOf } = ns.tree.make parent name false := by
  have hnone : ns.dirNameOf ns.iNodes.length = [] := by
    rw [dirNameOf, List.getElem?_eq_none (le_refl _), Option.elim_none]
  have hsame : Function.update ns.dirNameOf ns.iNodes.length [] = ns.dirNameOf := by
    rw [← hnone, Function.update_eq_self]
  simp only [Tree.make, tree, Bool.false_eq_true, if_false, hsame]

/-- A creation of a file, with a name that is not too long. -/
theorem fuseCreate_tree (ctx : Ids) (name : Name) (flags : ℕ)
    (hqueue : fs.iNodeManager.deletedINodes = [])
    (hparent : fs.iNodeManager.isDirectory parent = true) (hshort : name.length ≤ kMaxFilenameLength) :
    ∃ fs' ino attr, fs.fuseCreate ctx parent name flags = some (fs', [.create ino attr]) ∧
      fs'.iNodeManager.deletedINodes = [] ∧
      fs'.iNodeManager.tree = fs.iNodeManager.tree.make parent name false ∧
      fs'.iNodeManager.entryKinds = Function.update fs.iNodeManager.entryKinds
        fs.iNodeManager.iNodes.length (some .regularFile) := by
  have hlt := lt_of_isDirectory _ hparent
  have hne : fs.iNodeManager.iNodes.length ≠ parent := by omega
  obtain ⟨fs₁, hreg, htable, hqueue₁, -⟩ := registerINode_end fs .regularFile (sIfreg ||| 0o777) 1
    ctx.gid ctx.uid hqueue
  obtain ⟨d, hd⟩ := withDirectory_of_isDirectory hparent
  rw [fuseCreate, hd]
  simp only [if_neg (Nat.not_lt.mpr hshort), withINode, hreg, insertChild, if_neg hne,
    Option.bind_some, setNodes]
  generalize hns : (if opensForWriting flags then
      ((fs₁.iNodeManager.updateChild parent name fs.iNodeManager.iNodes.length).lookupINode
        fs.iNodeManager.iNodes.length).modifyINode fs.iNodeManager.iNodes.length clearSize
    else (fs₁.iNodeManager.updateChild parent name fs.iNodeManager.iNodes.length).lookupINode
      fs.iNodeManager.iNodes.length) = ns
  have htree : ns.tree = fs.iNodeManager.tree.make parent name false := by
    rw [← tree_make_file]
    refine Eq.trans ?_ (tree_named htable rfl rfl hparent)
    rw [← hns]
    split
    · have hclear : ∀ i, (clearSize i).kind = i.kind := fun _ => rfl
      rw [tree_modifyINode hclear, lookupINode, tree_modifyINode INode.lookup_kind]
    · rw [lookupINode, tree_modifyINode INode.lookup_kind]
  have hkinds : ns.entryKinds = Function.update fs.iNodeManager.entryKinds
      fs.iNodeManager.iNodes.length (some .regularFile) := by
    refine Eq.trans ?_ (entryKinds_named parent name htable)
    rw [← hns]
    split
    · have hclear : ∀ i, (clearSize i).kind = i.kind := fun _ => rfl
      rw [entryKinds_modifyINode hclear, lookupINode, entryKinds_modifyINode INode.lookup_kind]
    · rw [lookupINode, entryKinds_modifyINode INode.lookup_kind]
  have hin : fs.iNodeManager.iNodes.length < ns.iNodes.length := by
    have hsize : ns.iNodes.length = fs.iNodeManager.iNodes.length + 1 := congrArg Tree.size htree
    omega
  rw [getINodeByINodeNumber, List.getElem?_eq_getElem hin]
  refine ⟨_, _, _, rfl, ?_, htree, hkinds⟩
  show ns.deletedINodes = []
  rw [← hns]
  split <;> exact hqueue₁

/-- A creation of a directory. -/
theorem makeDirectory_tree (name : Name) (hqueue : fs.iNodeManager.deletedINodes = [])
    (hparent : fs.iNodeManager.isDirectory parent = true) :
    ∃ fs' ino attr, Replica.makeDirectory fs parent name = some (fs', [.entry ino attr]) ∧
      fs'.iNodeManager.deletedINodes = [] ∧
      fs'.iNodeManager.tree = fs.iNodeManager.tree.make parent name true ∧
      fs'.iNodeManager.entryKinds = Function.update fs.iNodeManager.entryKinds
        fs.iNodeManager.iNodes.length (some .directory) := by
  have hlt := lt_of_isDirectory _ hparent
  have hne : fs.iNodeManager.iNodes.length ≠ parent := by omega
  obtain ⟨fs₁, hreg, htable, hqueue₁, -⟩ := registerINode_end fs .directory (sIfdir ||| 0o777) 2
    fs.process.gid fs.process.uid hqueue
  obtain ⟨d, hd⟩ := withDirectory_of_isDirectory hparent
  rw [Replica.makeDirectory, hd]
  simp only [withINode, hreg, insertChild, if_neg hne, Option.bind_some, setNodes, replyEntry]
  generalize hns : ((fs₁.iNodeManager.updateChild parent name
    fs.iNodeManager.iNodes.length).addHardLink parent).setParent fs.iNodeManager.iNodes.length
      parent = ns
  -- before the name is set
  have hbefore : ns.tree = { fs.iNodeManager.tree.make parent name true with
      dirName := fs.iNodeManager.dirNameOf } := by
    rw [← hns, tree_setParent, addHardLink, tree_modifyINode INode.addHardLink_kind]
    exact tree_named htable rfl rfl hparent
  have hkinds : ns.entryKinds = Function.update fs.iNodeManager.entryKinds
      fs.iNodeManager.iNodes.length (some .directory) := by
    refine Eq.trans ?_ (entryKinds_named parent name htable)
    rw [← hns, setParent, entryKinds_onDirectory, addHardLink, entryKinds_modifyINode INode.addHardLink_kind]
  have hdir : ns.isDirectory fs.iNodeManager.iNodes.length = true := by
    have hupdate : ns.isDirectory = Function.update fs.iNodeManager.isDirectory
      fs.iNodeManager.iNodes.length true := congrArg Tree.isDirectory hbefore
    rw [hupdate, Function.update_self]
  have hname : ns.dirNameOf = fs.iNodeManager.dirNameOf := congrArg Tree.dirName hbefore
  have htree : (ns.setDirName fs.iNodeManager.iNodes.length
      (ns.dirNameOf parent ++ name ++ [slash])).tree =
        fs.iNodeManager.tree.make parent name true := by
    rw [tree_setDirName hdir, hbefore, hname]
    rfl
  have hin : fs.iNodeManager.iNodes.length < (ns.setDirName fs.iNodeManager.iNodes.length
      (ns.dirNameOf parent ++ name ++ [slash])).iNodes.length := by
    have hsize := congrArg Tree.size htree
    exact Nat.lt_of_lt_of_eq (Nat.lt_succ_self _) hsize.symm
  rw [getINodeByINodeNumber, List.getElem?_eq_getElem hin]
  refine ⟨_, _, _, rfl, ?_, ?_, ?_⟩
  · rw [← hns]
    exact hqueue₁
  · show (lookupINode _ _).tree = _
    rw [lookupINode, tree_modifyINode INode.lookup_kind, htree]
  · show (lookupINode _ _).entryKinds = _
    rw [lookupINode, entryKinds_modifyINode INode.lookup_kind, setDirName, entryKinds_onDirectory, hkinds]

end FileSystem

namespace PeerToPeer

open DagonFs.Nodes DagonFs.FileSystem

/-- The parent, the name and the kind of what an operation makes. -/
def Operation.makes : Operation → Option (ℕ × Name × Bool)
  | .create _ parent name _ => some (parent, name, false)
  | .mkdir parent name => some (parent, name, true)
  | _ => none

namespace Replica

def tree (r : Replica) : Tree := r.fs.iNodeManager.tree

@[simp] theorem setFromThread_tree (r : Replica) (type : RequestType) (value : Bool) :
    (r.setFromThread type value).tree = r.tree := rfl

/-- A creation that changes the tree as it says. -/
structure Made (r : Replica) (o : Outcome) (op : Operation) (parent : ℕ) (name : Name)
    (directory : Bool) : Prop where
  succeeded : o.succeeded = true
  tree : o.replica.tree = r.tree.make parent name directory
  queue : o.replica.fs.iNodeManager.deletedINodes = []
  request : op.request r.fs o.replica.fs = r.tree.announcement parent name directory
  short : directory = false → name.length ≤ kMaxFilenameLength

theorem finish_eq_some {r : Replica} {res : FileSystem × List Reply} {request : FileSystem → Request}
    {o : Outcome} (h : r.finish res request = some o) :
    o.replica.fs = res.1 ∧ o.succeeded = !res.2.any Reply.isErr := by
  simp only [Replica.finish, Replica.announce] at h
  split at h
  · obtain rfl := Option.some.inj h
    exact ⟨rfl, rfl⟩
  · split at h
    · obtain rfl := Option.some.inj h
      exact ⟨rfl, rfl⟩
    · split at h
      · obtain rfl := Option.some.inj h
        exact ⟨rfl, rfl⟩
      · cases h

/-- The announcement, read off the tree afterwards. -/
theorem request_of_make {op : Operation} {before after : FileSystem} {parent : ℕ} {name : Name}
    {directory : Bool} (hmakes : op.makes = some (parent, name, directory))
    (hlt : parent < before.iNodeManager.iNodes.length)
    (htree : after.iNodeManager.tree = before.iNodeManager.tree.make parent name directory) :
    op.request before after = before.iNodeManager.tree.announcement parent name directory := by
  have hsize : parent ≠ before.iNodeManager.tree.size := Nat.ne_of_lt hlt
  have hname : after.iNodeManager.dirNameOf =
      (before.iNodeManager.tree.make parent name directory).dirName := congrArg Tree.dirName htree
  have hchildren : after.iNodeManager.childrenOf =
      (before.iNodeManager.tree.make parent name directory).children := congrArg Tree.children htree
  cases op with
  | create =>
    cases hmakes
    simp only [Operation.request, hname, Tree.announcement, Tree.make, Function.update_of_ne hsize]
    rfl
  | mkdir =>
    cases hmakes
    have hentry := Tree.children_make before.iNodeManager.tree parent name true
      parent name
    rw [if_pos ⟨rfl, rfl⟩] at hentry
    rw [Operation.request, hchildren, hentry, hname]
    simp only [Option.elim_some, Tree.make, Function.update_self, Tree.announcement, if_true]
  | unlink | rmdir | rename => cases hmakes

/-- **The handlers make what the tree makes**, or refuse a name that is too long. -/
theorem handle_make {r : Replica} {op : Operation} {o : Outcome} {parent : ℕ} {name : Name}
    {directory : Bool} (hmakes : op.makes = some (parent, name, directory))
    (hqueue : r.fs.iNodeManager.deletedINodes = []) (hparent : r.tree.isDirectory parent = true)
    (h : r.handle op = some o) :
    Made r o op parent name directory ∨
      (o.replica = r ∧ o.sent = [] ∧ directory = false ∧ kMaxFilenameLength < name.length) := by
  have hlt := lt_of_isDirectory _ hparent
  cases op with
  | create ctx _ _ flags =>
    cases hmakes
    obtain ⟨res, hres, hfinish⟩ := Option.bind_eq_some_iff.mp h
    by_cases hshort : name.length ≤ kMaxFilenameLength
    · obtain ⟨fs', ino, attr, hcreate, hqueue', htree, -⟩ :=
        fuseCreate_tree ctx name flags hqueue hparent hshort
      obtain rfl := Option.some.inj (hres.symm.trans hcreate)
      obtain ⟨hfs, hsucceeded⟩ := finish_eq_some hfinish
      refine Or.inl ⟨hsucceeded, ?_, by rw [hfs]; exact hqueue', request_of_make rfl hlt ?_,
        fun _ => hshort⟩
      · rw [Replica.tree, hfs, htree]
        rfl
      · rw [hfs, htree]
    · obtain ⟨d, hd⟩ := withDirectory_of_isDirectory hparent
      rw [FileSystem.fuseCreate, hd, if_pos (Nat.lt_of_not_le hshort)] at hres
      obtain rfl := Option.some.inj hres
      obtain rfl := Option.some.inj hfinish
      exact Or.inr ⟨rfl, rfl, rfl, Nat.lt_of_not_le hshort⟩
  | mkdir =>
    cases hmakes
    obtain ⟨res, hres, hfinish⟩ := Option.bind_eq_some_iff.mp h
    obtain ⟨fs', ino, attr, hmkdir, hqueue', htree, -⟩ := makeDirectory_tree name hqueue hparent
    obtain rfl := Option.some.inj (hres.symm.trans hmkdir)
    obtain ⟨hfs, hsucceeded⟩ := finish_eq_some hfinish
    refine Or.inl ⟨hsucceeded, ?_, by rw [hfs]; exact hqueue', request_of_make rfl hlt ?_, nofun⟩
    · rw [Replica.tree, hfs, htree]
      rfl
    · rw [hfs, htree]
  | unlink | rmdir | rename => cases hmakes

end Replica

end PeerToPeer

end DagonFs
