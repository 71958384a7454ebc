import DagonFs.FileSystem.Reclaim

/-!
# What the kernel knows

The kernel sees its requests and the replies, and nothing else of the file system.  `KernelView` is what can be
kept from them: which number each name of a directory has, and how many references to each number have been
handed out and not been given back.

`InStep` connects it to the inode table.  Every handler keeps the two in step (`handle_shows`), so that
`lookup_ofReplies`: after any run of the kernel's requests, with numbers that are reused on the way, a lookup
answers from what the replies have said, and an inode that is queued for reuse is one that the kernel neither
refers to nor finds under any name.
-/

namespace DagonFs

open DagonFs.Nodes DagonFs.Lib.Runs

namespace FileSystem

/-- The names of the directories, and the references to each inode. -/
structure KernelView where
  entries : ℕ → Name → Option ℕ
  references : ℕ → ℕ

namespace KernelView

variable (w : KernelView)

/-- Nothing has been asked yet. -/
def blank : KernelView := ⟨fun _ _ => none, fun _ => 0⟩

def bind (d : ℕ) (name : Name) (x : ℕ) : KernelView :=
  { w with entries := fun e k => if e = d ∧ k = name then some x else w.entries e k }

def unbind (d : ℕ) (name : Name) : KernelView :=
  { w with entries := fun e k => if e = d ∧ k = name then none else w.entries e k }

/-- A reference to `x` is handed out. -/
def hand (x : ℕ) : KernelView :=
  { w with references := fun y => if y = x then w.references y + 1 else w.references y }

/-- `k` references to `x` are given back. -/
def giveBack (x k : ℕ) : KernelView :=
  { w with references := fun y => if y = x then w.references y - k else w.references y }

/-- `x` is a new inode, which has no names in it. -/
def clear (x : ℕ) : KernelView := { w with entries := fun e k => if e = x then none else w.entries e k }

/-- A new inode under a name. -/
def made (d : ℕ) (name : Name) (x : ℕ) : KernelView := ((w.clear x).bind d name x).hand x

/-- A name is moved to another, over what was there. -/
def move (d : ℕ) (name : Name) (newd : ℕ) (newname : Name) : KernelView :=
  match w.entries d name with
  | none => w
  | some x => (w.bind newd newname x).unbind d name

/-- The view after a request and its replies. -/
def next : Request → List Reply → KernelView
  | .lookup _ _, [.entry x _] => w.hand x
  | .forget x nlookup, _ => w.giveBack x nlookup
  | .mknod _ parent name _, [.entry x _] => w.made parent name x
  | .mkdir parent name, [.entry x _] => w.made parent name x
  | .symlink _ _ parent name, [.entry x _] => w.made parent name x
  | .create _ parent name _, [.create x _] => w.made parent name x
  | .link _ newparent newname, [.entry x _] => (w.bind newparent newname x).hand x
  | .unlink parent name, [.ok] => w.unbind parent name
  | .rmdir parent name, [.ok] => w.unbind parent name
  | .rename parent name newparent newname, [.ok] => w.move parent name newparent newname
  | _, _ => w

end KernelView

/-! ### The view and the table -/

/-- Every inode has the number of its place. -/
def Numbered (ns : Nodes) : Prop := ∀ (x : ℕ) (i : INode), ns.iNodes[x]? = some i → i.inodeNumber = x

/-- The table has the names and the references of the view. -/
structure InStep (ns : Nodes) (w : KernelView) : Prop where
  entries : ∀ d name, (ns.childrenOf d)[name]? = w.entries d name
  references : ∀ x, ns.nlookupOf x = w.references x
  numbered : Numbered ns

variable {fs : FileSystem} {ns ns' : Nodes} {w : KernelView} {parent ino : ℕ} {name : Name}
  {next : List Reply → KernelView}

theorem Numbered.modifyINode (h : Numbered ns) {f : INode → INode}
    (hf : ∀ i, (f i).inodeNumber = i.inodeNumber) (y : ℕ) : Numbered (ns.modifyINode y f) := by
  intro x i hget
  rw [modifyINode_getElem?] at hget
  split at hget
  · obtain ⟨j, hj, rfl⟩ := Option.map_eq_some_iff.mp hget
    rw [hf]
    exact h x j hj
  · exact h x i hget

theorem onDirectory_inodeNumber (g : Directory → Directory) (i : INode) :
    (onDirectory g i).inodeNumber = i.inodeNumber := by
  obtain ⟨_, _, _, _, k⟩ := i
  cases k <;> rfl

theorem removeHardLink_inodeNumber (i : INode) : i.removeHardLink.inodeNumber = i.inodeNumber := by
  unfold INode.removeHardLink
  dsimp only
  split <;> rfl

theorem removeHardLinks_inodeNumber (fuel : ℕ) (i : INode) :
    (INode.removeHardLinks fuel i).inodeNumber = i.inodeNumber := by
  induction fuel generalizing i with
  | zero => rfl
  | succ fuel ih =>
    rw [INode.removeHardLinks]
    split
    · rfl
    · rw [ih, removeHardLink_inodeNumber]

namespace InStep

/-- What is not part of the view: the counts of links, and what a file or a symbolic link has. -/
theorem modifyINode (h : InStep ns w) {f : INode → INode} (hchildren : ∀ i, (f i).children = i.children)
    (hlookup : ∀ i, (f i).mNlookup = i.mNlookup) (hnumber : ∀ i, (f i).inodeNumber = i.inodeNumber)
    (y : ℕ) : InStep (ns.modifyINode y f) w := by
  constructor
  case entries =>
    intro d k
    rw [← h.entries d k]
    exact congrArg (·[k]?) (ns.modifyINode_elim f ∅ INode.children hchildren d)
  case references =>
    intro x
    rw [← h.references x]
    exact ns.modifyINode_elim f 0 INode.mNlookup hlookup x
  case numbered => exact h.numbered.modifyINode hnumber y

theorem addHardLink (h : InStep ns w) (y : ℕ) : InStep (ns.addHardLink y) w :=
  h.modifyINode (f := INode.addHardLink) (fun _ => rfl) (fun _ => rfl) (fun _ => rfl) y

theorem removeHardLink (h : InStep ns w) (y : ℕ) : InStep (ns.removeHardLink y) w := by
  refine h.modifyINode (fun i => ?_) INode.removeHardLink_mNlookup removeHardLink_inodeNumber y
  rw [INode.children, INode.removeHardLink_kind]
  rfl

theorem removeAllHardLinks (h : InStep ns w) (y : ℕ) : InStep (ns.removeAllHardLinks y) w := by
  refine h.modifyINode (fun i => ?_) INode.removeAllHardLinks_mNlookup
    (fun i => removeHardLinks_inodeNumber _ i) y
  rw [INode.children, INode.removeAllHardLinks_kind]
  rfl

/-- An entry is set. -/
theorem updateChild (h : InStep ns w) (hdir : ns.isDirectory parent = true) (name : Name) (x : ℕ) :
    InStep (ns.updateChild parent name x) (w.bind parent name x) := by
  constructor
  case entries =>
    intro d k
    rw [getElem?_updateChild hdir, h.entries]
    rfl
  case references =>
    intro y
    rw [(updateChild_sameCounts ns parent name x).2.1]
    exact h.references y
  case numbered => exact h.numbered.modifyINode (onDirectory_inodeNumber _) parent

theorem deleteChild (h : InStep ns w) (hdir : ns.isDirectory parent = true) (name : Name) :
    InStep (ns.deleteChild parent name) (w.unbind parent name) := by
  constructor
  case entries =>
    intro d k
    rw [getElem?_deleteChild hdir, h.entries]
    rfl
  case references =>
    intro y
    rw [(deleteChild_sameCounts ns parent name).2.1]
    exact h.references y
  case numbered => exact h.numbered.modifyINode (onDirectory_inodeNumber _) parent

theorem lookupINode (h : InStep ns w) (hino : ino < ns.iNodes.length)
    (hroom : w.references ino + 1 < 2 ^ 64) : InStep (ns.lookupINode ino) (w.hand ino) := by
  constructor
  case entries =>
    intro d k
    rw [(lookupINode_sameEntries ns ino).1]
    exact h.entries d k
  case references =>
    intro x
    rw [nlookupOf_lookupINode hino, h.references]
    show _ = if x = ino then w.references x + 1 else w.references x
    split
    · rename_i hx
      rw [hx, incr_eq hroom]
    · rfl
  case numbered => exact h.numbered.modifyINode (f := INode.lookup) (fun _ => rfl) ino

theorem forget (h : InStep ns w) (hino : ino < ns.iNodes.length) {k : ℕ} (hk : k ≤ ns.nlookupOf ino) :
    InStep (ns.forget ino k) (w.giveBack ino k) := by
  constructor
  case entries =>
    intro d name
    rw [(forget_sameEntries ns ino k).1]
    exact h.entries d name
  case references =>
    intro x
    rw [nlookupOf_forget hino x hk, h.references]
    rfl
  case numbered => exact h.numbered.modifyINode (f := (·.forget k)) (fun _ => rfl) ino

/-- A new inode, at a number that the kernel has no reference to. -/
theorem registered {i : INode} (h : InStep ns w) (hreg : Registered ns ns' ino i)
    (hchildren : i.children = ∅) (hlookup : i.mNlookup = 0) (hnumber : i.inodeNumber = ino)
    (hfree : ns.nlookupOf ino = 0) : InStep ns' (w.clear ino) := by
  constructor
  case entries =>
    intro d k
    show _ = if d = ino then none else w.entries d k
    by_cases hd : d = ino
    · subst hd
      rw [hreg.childrenOf_self, hchildren, if_pos rfl]
      exact Std.ExtTreeMap.getElem?_empty
    · rw [hreg.childrenOf_ne hd, if_neg hd]
      exact h.entries d k
  case references =>
    intro x
    show _ = w.references x
    by_cases hx : x = ino
    · subst hx
      rw [← h.references, hfree, nlookupOf, hreg.get]
      exact hlookup
    · rw [hreg.nlookupOf_ne hx]
      exact h.references x
  case numbered =>
    intro x j hget
    by_cases hx : x = ino
    · subst hx
      obtain rfl := Option.some.inj (hreg.get.symm.trans hget)
      exact hnumber
    · rw [hreg.others x hx] at hget
      exact h.numbered x j hget

end InStep

/-! ### Rules for the handlers -/

/-- However the handler ends, the view goes on with its replies as the table does. -/
def Shows (res : Result) (next : List Reply → KernelView) : Prop :=
  ∀ fs' replies, res = some (fs', replies) → InStep fs'.iNodeManager (next replies)

theorem shows_none : Shows none next := by
  intro fs' replies h
  cases h

theorem shows_some {replies : List Reply} (h : InStep fs.iNodeManager (next replies)) :
    Shows (some (fs, replies)) next := by
  intro fs' replies' hres
  obtain ⟨rfl, rfl⟩ := Prod.mk.inj (Option.some.inj hres)
  exact h

theorem shows_withDirectory {e : Errno} {k : Directory → Result}
    (hrefused : ∀ e, InStep fs.iNodeManager (next [.err e]))
    (h : ∀ d, fs.iNodeManager.isDirectory parent = true →
      fs.iNodeManager.childrenOf parent = d.mChildren → Shows (k d) next) :
    Shows (fs.withDirectory parent e k) next := by
  unfold withDirectory
  split
  · exact shows_some (hrefused .enoent)
  · split
    · exact shows_some (hrefused e)
    · rename_i d hd
      refine h d ?_ (fs.iNodeManager.childrenOf_of_directoryAt hd)
      rw [isDirectory_eq_isSome, hd]
      rfl

/-- The reply names the inode, and hands out a reference to it. -/
theorem shows_replyEntry (h : InStep fs.iNodeManager w) (hroom : w.references ino + 1 < 2 ^ 64)
    (hnext : ∀ attr, next [.entry ino attr] = w.hand ino) : Shows (fs.replyEntry ino) next := by
  intro fs' replies hres
  obtain ⟨i, hget, hend⟩ := Option.map_eq_some_iff.mp hres
  obtain ⟨rfl, rfl⟩ := Prod.mk.inj hend
  rw [h.numbered ino i hget, hnext]
  exact h.lookupINode (List.getElem?_eq_some_iff.mp hget).1 hroom

theorem shows_withINode {type : INodeType} {mode nlink gid uid : ℕ} {k : FileSystem → ℕ → Result}
    (h : InStep fs.iNodeManager w)
    (hfree : ∀ x ∈ fs.iNodeManager.deletedINodes, fs.iNodeManager.nlookupOf x = 0)
    (hk : ∀ fs' ino, Registered fs.iNodeManager fs'.iNodeManager ino
        (initializeINode (createEmptyINode type) ino mode nlink gid uid) →
      InStep fs'.iNodeManager (w.clear ino) → w.references ino = 0 → Shows (k fs' ino) next) :
    Shows (fs.withINode type mode nlink gid uid k) next := by
  unfold withINode
  split
  · exact shows_none
  · rename_i fs' ino hres
    obtain ⟨hreg, -⟩ := registerINode_registered hres
    have hnone : fs.iNodeManager.nlookupOf ino = 0 := by
      rcases hreg.place with ⟨hend, -⟩ | ⟨-, hcons⟩
      · rw [nlookupOf, List.getElem?_eq_none hend.ge]
        rfl
      · exact hfree ino (hcons ▸ List.mem_cons_self)
    have hfresh := fresh_registered type ino mode nlink gid uid
    exact hk fs' ino hreg (h.registered hreg hfresh.children hfresh.mNlookup rfl hnone)
      ((h.references ino).symm.trans hnone)

/-- The entry for a new inode, and the reply with it. -/
theorem shows_insertChild {i : INode} (hdir : ns.isDirectory parent = true)
    (hreg : Registered ns fs.iNodeManager ino i) (h : InStep fs.iNodeManager (w.clear ino))
    {k : FileSystem → Result} (hk : ∀ fs', InStep fs'.iNodeManager ((w.clear ino).bind parent name ino) →
      Shows (k fs') next) : Shows ((fs.insertChild parent name ino).bind k) next := by
  unfold insertChild
  split
  · exact shows_none
  · rename_i hne
    rw [Option.bind_some]
    apply hk
    refine h.updateChild ?_ name ino
    rw [hreg.isDirectory_ne (Ne.symm hne)]
    exact hdir

/-! ### One lemma for each handler -/

section Handlers

variable (h : InStep fs.iNodeManager w)
include h

theorem fuseLookup_shows {parent : ℕ} {name : Name}
    (hroom : ∀ x ∈ (fs.iNodeManager.childrenOf parent)[name]?, fs.iNodeManager.nlookupOf x + 1 < 2 ^ 64) :
    Shows (fs.fuseLookup parent name) (w.next (.lookup parent name)) := by
  refine shows_withDirectory (fun _ => h) fun d _ hd => ?_
  split
  · exact shows_some h
  · rename_i x hx
    have hcount := hroom x (hd ▸ hx)
    rw [h.references] at hcount
    exact shows_replyEntry h hcount fun _ => rfl

theorem fuseForget_shows {ino k : ℕ} (hk : k ≤ fs.iNodeManager.nlookupOf ino) :
    Shows (fs.fuseForget ino k) (w.next (.forget ino k)) := by
  intro fs' replies hres
  obtain ⟨i, hget, hend⟩ := Option.map_eq_some_iff.mp hres
  have hforgot := h.forget (List.getElem?_eq_some_iff.mp hget).1 hk
  have hnext : w.next (.forget ino k) replies = w.giveBack ino k := rfl
  rw [hnext]
  dsimp only at hend
  split at hend
  · obtain ⟨rfl, -⟩ := Prod.mk.inj hend
    exact ⟨hforgot.entries, hforgot.references, hforgot.numbered⟩
  · obtain ⟨rfl, -⟩ := Prod.mk.inj hend
    exact hforgot

section Making

variable (hfree : ∀ x ∈ fs.iNodeManager.deletedINodes, fs.iNodeManager.nlookupOf x = 0)
include hfree

theorem mknodAs_shows (ctx : Ids) {parent : ℕ} (hdir : fs.iNodeManager.isDirectory parent = true)
    (name : Name) (type : INodeType) (nlink mode : ℕ) {next : List Reply → KernelView}
    (hnext : ∀ x attr, next [.entry x attr] = w.made parent name x) :
    Shows (fs.mknodAs ctx parent name type nlink mode) next := by
  refine shows_withINode h hfree fun fs₁ ino hreg hclear hnone => ?_
  have hroom : w.references ino + 1 < 2 ^ 64 := by omega
  exact shows_insertChild hdir hreg hclear fun fs₂ hbound => shows_replyEntry hbound hroom (hnext ino)

theorem fuseMknod_shows (ctx : Ids) (parent : ℕ) (name : Name) (mode : ℕ) :
    Shows (fs.fuseMknod ctx parent name mode) (w.next (.mknod ctx parent name mode)) := by
  refine shows_withDirectory (fun _ => h) fun d hdir _ => ?_
  split
  · exact shows_some h
  · split
    · -- the parent's link is added first
      have hdir' : (fs.iNodeManager.addHardLink parent).isDirectory parent = true := by simpa using hdir
      have hfree' : ∀ x ∈ (fs.iNodeManager.addHardLink parent).deletedINodes,
          (fs.iNodeManager.addHardLink parent).nlookupOf x = 0 := by simpa using hfree
      exact mknodAs_shows (h.addHardLink parent) hfree' ctx hdir' name _ _ _ fun _ _ => rfl
    · split
      · exact mknodAs_shows h hfree ctx hdir name _ _ _ fun _ _ => rfl
      · exact shows_some h

theorem fuseMkdir_shows (parent : ℕ) (name : Name) :
    Shows (fs.fuseMkdir parent name) (w.next (.mkdir parent name)) := by
  refine shows_withDirectory (fun _ => h) fun d hdir _ => ?_
  refine shows_withINode h hfree fun fs₁ ino hreg hclear hnone => ?_
  have hroom : w.references ino + 1 < 2 ^ 64 := by omega
  refine shows_insertChild hdir hreg hclear fun fs₂ hbound => ?_
  exact shows_replyEntry (hbound.addHardLink parent) hroom fun _ => rfl

theorem fuseSymlink_shows (ctx : Ids) (link : Name) (parent : ℕ) (name : Name) :
    Shows (fs.fuseSymlink ctx link parent name) (w.next (.symlink ctx link parent name)) := by
  refine shows_withDirectory (fun _ => h) fun d hdir _ => ?_
  refine shows_withINode h hfree fun fs₁ ino hreg hclear hnone => ?_
  have hroom : w.references ino + 1 < 2 ^ 64 := by omega
  have hlinked : InStep (fs₁.iNodeManager.modifyINode ino (setLink link)) (w.clear ino) := by
    refine hclear.modifyINode (fun i => ?_) (fun i => ?_) (fun i => ?_) ino
    all_goals
      obtain ⟨_, _, _, _, k⟩ := i
      cases k <;> rfl
  exact shows_insertChild hdir (hreg.modify (setLink link)) hlinked fun fs₂ hbound =>
    shows_replyEntry hbound hroom fun _ => rfl

theorem fuseCreate_shows (ctx : Ids) (parent : ℕ) (name : Name) (flags : ℕ) :
    Shows (fs.fuseCreate ctx parent name flags) (w.next (.create ctx parent name flags)) := by
  refine shows_withDirectory (fun _ => h) fun d hdir _ => ?_
  split
  · exact shows_some h
  · refine shows_withINode h hfree fun fs₁ ino hreg hclear hnone => ?_
    have hroom : w.references ino + 1 < 2 ^ 64 := by omega
    apply shows_insertChild hdir
    case hreg => exact hreg
    case h => exact hclear
    intro fs₂ hbound fs' replies hres
    obtain ⟨i, hget, hend⟩ := Option.map_eq_some_iff.mp hres
    obtain ⟨rfl, rfl⟩ := Prod.mk.inj hend
    have hcleared : InStep (if opensForWriting flags then
        (fs₂.iNodeManager.lookupINode ino).modifyINode ino clearSize
        else fs₂.iNodeManager.lookupINode ino) (w.made parent name ino) := by
      have hino : ino < fs₂.iNodeManager.iNodes.length := by
        have hlt := (List.getElem?_eq_some_iff.mp hget).1
        split at hlt <;> simpa using hlt
      have hhanded := hbound.lookupINode hino hroom
      split
      · exact hhanded.modifyINode (f := clearSize) (fun _ => rfl) (fun _ => rfl) (fun _ => rfl) ino
      · exact hhanded
    rw [hcleared.numbered ino i hget]
    exact hcleared

end Making

theorem fuseLink_shows {ino newparent : ℕ} {newname : Name}
    (hroom : fs.iNodeManager.nlookupOf ino + 1 < 2 ^ 64)
    (hnew : (fs.iNodeManager.childrenOf newparent)[newname]? = none) :
    Shows (fs.fuseLink ino newparent newname) (w.next (.link ino newparent newname)) := by
  refine shows_withDirectory (fun _ => h) fun d hdir hd => ?_
  split
  · exact shows_some h
  · have hnone : d.mChildren[newname]? = none := hd ▸ hnew
    rw [h.references] at hroom
    have hentry : Shows ((fs.setNodes ((fs.iNodeManager.updateChild newparent newname
        ino).addHardLink ino)).replyEntry ino) (w.next (.link ino newparent newname)) :=
      shows_replyEntry ((h.updateChild hdir newname ino).addHardLink ino) hroom fun _ => rfl
    intro fs' replies hres
    obtain ⟨⟨fs₁, replies₁⟩, hrun, hend⟩ := Option.map_eq_some_iff.mp hres
    obtain ⟨rfl, rfl⟩ := Prod.mk.inj hend
    rw [Directory.childINodeNumberWithName, hnone]
    exact hentry fs₁ replies₁ hrun

theorem fuseUnlink_shows (parent : ℕ) (name : Name) :
    Shows (fs.fuseUnlink parent name) (w.next (.unlink parent name)) := by
  refine shows_withDirectory (fun _ => h) fun d hdir _ => ?_
  split
  · exact shows_some h
  · rename_i x hx
    intro fs' replies hres
    obtain ⟨i, -, hend⟩ := Option.map_eq_some_iff.mp hres
    obtain ⟨rfl, rfl⟩ := Prod.mk.inj hend
    exact (h.removeHardLink x).deleteChild (by simpa using hdir) name

theorem fuseRmdir_shows (parent : ℕ) (name : Name) :
    Shows (fs.fuseRmdir parent name) (w.next (.rmdir parent name)) := by
  refine shows_withDirectory (fun _ => h) fun d hdir _ => ?_
  split
  · exact shows_some h
  · rename_i x hx
    intro fs' replies hres
    obtain ⟨i, -, hres⟩ := Option.bind_eq_some_iff.mp hres
    split at hres
    · exact shows_some h fs' replies hres
    · split at hres
      · exact shows_some h fs' replies hres
      · obtain ⟨rfl, rfl⟩ := Prod.mk.inj (Option.some.inj hres)
        exact ((h.removeHardLink parent).removeAllHardLinks x).deleteChild (by simpa using hdir) name

/-- Whatever the new name was, only counts of links are adjusted for it. -/
theorem displace_inStep {parent newparent : ℕ} {old : Option ℕ} {ns' : Nodes}
    (hres : displace fs.iNodeManager parent newparent old = some ns') :
    InStep ns' w ∧ ns'.isDirectory = fs.iNodeManager.isDirectory := by
  cases old with
  | none =>
    obtain rfl := Option.some.inj hres
    exact ⟨h, rfl⟩
  | some y =>
    rw [displace] at hres
    split at hres
    · obtain rfl := Option.some.inj hres
      exact ⟨h, rfl⟩
    · obtain ⟨i, -, rfl⟩ := Option.map_eq_some_iff.mp hres
      split
      · exact ⟨(h.removeHardLink parent).addHardLink newparent, by simp⟩
      · exact ⟨h, rfl⟩

theorem fuseRename_shows (parent : ℕ) (name : Name) (newparent : ℕ) (newname : Name) :
    Shows (fs.fuseRename parent name newparent newname)
      (w.next (.rename parent name newparent newname)) := by
  refine shows_withDirectory (fun _ => h) fun d hdir hd => ?_
  split
  · exact shows_some h
  · rename_i x hx
    have hentry : w.entries parent name = some x := (h.entries parent name).symm.trans (hd ▸ hx)
    refine shows_withDirectory (fun _ => h) fun d' hnew _ => ?_
    intro fs' replies hres
    obtain ⟨ns', hdisplaced, hend⟩ := Option.map_eq_some_iff.mp hres
    obtain ⟨rfl, rfl⟩ := Prod.mk.inj hend
    obtain ⟨hstep, hkinds⟩ := displace_inStep h hdisplaced
    have hmove : w.next (.rename parent name newparent newname) [.ok] =
        (w.bind newparent newname x).unbind parent name := by
      show w.move parent name newparent newname = _
      rw [KernelView.move, hentry]
    rw [hmove]
    have hbound := hstep.updateChild (by rw [hkinds]; exact hnew) newname x
    refine hbound.deleteChild ?_ name
    rw [(updateChild_sameCounts ns' newparent newname x).2.2.2.1, hkinds]
    exact hdir

end Handlers

/-- **Every handler keeps the view in step.**  The kernel names only what it refers to, links only to new names,
and no inode is queued that it refers to. -/
theorem handle_shows (h : InStep fs.iNodeManager w)
    (hfree : ∀ x ∈ fs.iNodeManager.deletedINodes, fs.iNodeManager.nlookupOf x = 0) (r : Request)
    (href : Referenced fs.iNodeManager r) (hlink : ∀ x newparent newname, r = .link x newparent newname →
      (fs.iNodeManager.childrenOf newparent)[newname]? = none) : Shows (fs.handle r) (w.next r) := by
  cases r with
  | lookup parent name => exact fuseLookup_shows h href.2
  | forget x k => exact fuseForget_shows h href.2
  | mknod ctx parent name mode => exact fuseMknod_shows h hfree ctx parent name mode
  | mkdir parent name => exact fuseMkdir_shows h hfree parent name
  | symlink ctx link parent name => exact fuseSymlink_shows h hfree ctx link parent name
  | create ctx parent name flags => exact fuseCreate_shows h hfree ctx parent name flags
  | link x newparent newname => exact fuseLink_shows h href.1.2 (hlink x newparent newname rfl)
  | unlink parent name => exact fuseUnlink_shows h parent name
  | rmdir parent name => exact fuseRmdir_shows h parent name
  | rename parent name newparent newname => exact fuseRename_shows h parent name newparent newname

/-! ### Runs -/

/-- The file system, and what the kernel has kept from its replies. -/
structure Observed where
  fs : FileSystem
  view : KernelView

namespace Observed

def mounted (process : Ids) : Observed := ⟨FileSystem.mounted process, .blank⟩

def step (o : Observed) (r : Request) : Option Observed :=
  (o.fs.handle r).map fun res => ⟨res.1, o.view.next r res.2⟩

structure Inv (o : Observed) : Prop where
  reclaimable : Reclaimable o.fs.iNodeManager
  inStep : InStep o.fs.iNodeManager o.view

theorem inv_mounted (process : Ids) : Inv (mounted process) := by
  constructor
  case reclaimable => exact mounted_reclaimable process
  case inStep =>
    constructor
    case entries =>
      intro d k
      show ((FileSystem.mounted process).iNodeManager.childrenOf d)[k]? = none
      rw [mounted_childrenOf]
      exact Std.ExtTreeMap.getElem?_empty
    case references =>
      intro x
      match x with
      | 0 => rfl
      | 1 => rfl
      | _ + 2 => rfl
    case numbered =>
      intro x i hget
      match x with
      | 0 =>
        obtain rfl := Option.some.inj hget
        rfl
      | 1 =>
        obtain rfl := Option.some.inj hget
        rfl
      | _ + 2 => cases hget

/-- **The step lemma.** -/
theorem inv_step {o : Observed} {r : Request} (h : Inv o) (hok : o.fs.InOrder r) :
    ∃ o', o.step r = some o' ∧ Inv o' := by
  obtain ⟨fs', hstep, -, hreclaimable⟩ := exists_step_inOrder h.reclaimable hok
  obtain ⟨⟨_, replies⟩, hrun, rfl⟩ := Option.map_eq_some_iff.mp hstep
  obtain ⟨hpre, -, href, -⟩ := hok
  refine ⟨⟨_, o.view.next r replies⟩, by rw [step, hrun]; rfl, hreclaimable, ?_⟩
  refine handle_shows h.inStep (fun x hx => (h.reclaimable.free x hx).2.2.1) r href ?_ _ _ hrun
  rintro x newparent newname rfl
  exact hpre.2

/-- What a lookup replies is in the view. -/
theorem lookup_of_view {o : Observed} (h : Inv o) (parent : ℕ) (name : Name) :
    match o.view.entries parent name with
    | none => o.fs.fuseLookup parent name = some (o.fs, [.err .enoent])
    | some x => ∃ fs' attr, o.fs.fuseLookup parent name = some (fs', [.entry x attr]) := by
  rw [← h.inStep.entries parent name]
  cases hdir : o.fs.iNodeManager.isDirectory parent with
  | false =>
    rw [childrenOf_of_not_isDirectory _ hdir, Std.ExtTreeMap.getElem?_empty]
    rw [isDirectory_eq_isSome, Option.isSome_eq_false_iff, Option.isNone_iff_eq_none] at hdir
    show o.fs.withDirectory parent .enoent _ = o.fs.reply (.err .enoent)
    rw [withDirectory, hdir, ite_self]
  | true =>
    have hlt := lt_of_isDirectory _ hdir
    rw [isDirectory_eq_isSome] at hdir
    obtain ⟨d, hget⟩ := Option.isSome_iff_exists.mp hdir
    rw [childrenOf_of_directoryAt _ hget]
    rw [fuseLookup, withDirectory, getNumberOfINodes, if_neg (Nat.not_le.mpr hlt), hget]
    dsimp only [Directory.childINodeNumberWithName]
    cases hentry : d.mChildren[name]? with
    | none => rfl
    | some x =>
      have hx : x < o.fs.iNodeManager.iNodes.length := by
        refine h.reclaimable.entries parent name x ?_
        rw [childrenOf_of_directoryAt _ hget]
        exact hentry
      obtain ⟨i, hi⟩ : ∃ i, o.fs.iNodeManager.iNodes[x]? = some i := ⟨_, List.getElem?_eq_getElem hx⟩
      refine ⟨o.fs.setNodes (o.fs.iNodeManager.lookupINode x), i.attr, ?_⟩
      show (o.fs.iNodeManager.iNodes[x]?).map _ = _
      rw [hi, Option.map_some, h.inStep.numbered x i hi]

end Observed

/-- **The kernel's view is exact.**  In every run of its requests, with numbers that are reused on the way,
each request is served; a lookup then answers from what the replies have said, each inode's count is of the
references that were handed out and not given back, and a number that is queued for reuse is one that no name
has and to which no reference is left. -/
theorem lookup_ofReplies {process : Ids} {rs : List Request}
    (h : Along Observed.step (fun o r => o.fs.InOrder r) (Observed.mounted process) rs) :
    ∃ o, run Observed.step (Observed.mounted process) rs = some o ∧
      (∀ parent name, match o.view.entries parent name with
        | none => o.fs.fuseLookup parent name = some (o.fs, [.err .enoent])
        | some x => ∃ fs' attr, o.fs.fuseLookup parent name = some (fs', [.entry x attr])) ∧
      (∀ x, o.fs.iNodeManager.nlookupOf x = o.view.references x) ∧
      ∀ x ∈ o.fs.iNodeManager.deletedINodes, o.view.references x = 0 ∧
        ∀ parent name, o.view.entries parent name ≠ some x := by
  obtain ⟨o, hrun, hI⟩ := progress_run (I := Observed.Inv) (fun _ _ hI hok => Observed.inv_step hI hok)
    (Observed.inv_mounted process) h
  refine ⟨o, hrun, Observed.lookup_of_view hI, hI.inStep.references, ?_⟩
  intro x hx
  obtain ⟨-, -, hlookup, -, hnames⟩ := hI.reclaimable.free x hx
  refine ⟨(hI.inStep.references x).symm.trans hlookup, ?_⟩
  intro parent name
  rw [← hI.inStep.entries]
  exact o.fs.iNodeManager.names_eq_zero_iff.mp hnames parent name

/-- A directory replaces an empty one, and is removed and forgotten. -/
theorem lookup_ofReplies_replaced :
    ∃ o, run Observed.step (Observed.mounted ⟨0, 0⟩)
        [.mkdir 1 [97], .mkdir 1 [98], .mkdir 2 [99], .rename 2 [99] 1 [98], .rmdir 1 [98],
          .forget 4 1, .lookup 1 [97], .forget 2 2] = some o ∧
      (∀ parent name, match o.view.entries parent name with
        | none => o.fs.fuseLookup parent name = some (o.fs, [.err .enoent])
        | some x => ∃ fs' attr, o.fs.fuseLookup parent name = some (fs', [.entry x attr])) ∧
      (∀ x, o.fs.iNodeManager.nlookupOf x = o.view.references x) ∧
      ∀ x ∈ o.fs.iNodeManager.deletedINodes, o.view.references x = 0 ∧
        ∀ parent name, o.view.entries parent name ≠ some x :=
  lookup_ofReplies (by decide +kernel)

end FileSystem

end DagonFs
