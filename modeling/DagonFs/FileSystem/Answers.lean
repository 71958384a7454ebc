import DagonFs.FileSystem.Failures
import DagonFs.FileSystem.Queries

/-!
# How often the namespace handlers reply

In a table whose entries and queue are in range (`InTable`), whatever the requests are:

* `handle_inTable`: the table stays so;
* `handle_answeredOnce_iff`: a request is answered once, unless it forgets an inode that is not there,
  links to a name that exists, or makes an inode whose number is the one of its own parent.
-/

namespace DagonFs

open DagonFs.Nodes

namespace FileSystem

/-- The directory for which a request gets as far as the registration of an inode. -/
def registersIn (ns : Nodes) : Request → Option ℕ
  | .mknod _ parent name mode =>
    if ns.isDirectory parent && decide (name.length ≤ kMaxFilenameLength) &&
      (sIsdir mode || sIsreg mode) then some parent else none
  | .mkdir parent _ => if ns.isDirectory parent then some parent else none
  | .symlink _ _ parent _ => if ns.isDirectory parent then some parent else none
  | .create _ parent name _ =>
    if ns.isDirectory parent && decide (name.length ≤ kMaxFilenameLength) then some parent else none
  | _ => none

/-- The condition under which a namespace request is answered once. -/
def Answerable (fs : FileSystem) (r : Request) : Prop :=
  match r with
  | .forget ino _ => ino < fs.iNodeManager.getNumberOfINodes
  | .link .. => ¬ fs.LinksOntoExisting r
  | _ => ∀ parent ∈ registersIn fs.iNodeManager r, ¬ fs.ReusesNumberOf parent

/-! ### One reply -/

/-- Whatever the handler ends with, it has replied once. -/
def OneReply (res : Result) : Prop := ∀ fs' replies, res = some (fs', replies) → replies.length = 1

namespace OneReply

variable {fs : FileSystem}

theorem none : OneReply none := by
  intro fs' replies h
  cases h

theorem some (fs' : FileSystem) (r : Reply) : OneReply (some (fs', [r])) := by
  intro fs₁ replies h
  obtain ⟨-, rfl⟩ := Prod.mk.inj (Option.some.inj h)
  rfl

theorem map {α : Type} {o : Option α} (f : α → FileSystem) (r : α → Reply) :
    OneReply (o.map fun a => (f a, [r a])) := by
  cases o with
  | none => exact none
  | some a => exact some (f a) (r a)

theorem bind {α : Type} {o : Option α} {k : α → Result} (h : ∀ a, OneReply (k a)) :
    OneReply (o.bind k) := by
  cases o with
  | none => exact none
  | some a => exact h a

theorem ite {p : Prop} [Decidable p] {res res' : Result} (h : OneReply res) (h' : OneReply res') :
    OneReply (if p then res else res') := by
  split
  · exact h
  · exact h'

theorem withDirectory {parent : ℕ} {notADirectory : Errno} {k : Directory → Result}
    (h : ∀ dir, OneReply (k dir)) : OneReply (fs.withDirectory parent notADirectory k) := by
  unfold FileSystem.withDirectory
  split
  · exact some fs _
  · split
    · exact some fs _
    · exact h _

theorem replyEntry (fs : FileSystem) (ino : ℕ) : OneReply (fs.replyEntry ino) := map _ _

theorem withINode {type : INodeType} {mode nlink gid uid : ℕ} {k : FileSystem → ℕ → Result}
    (h : ∀ fs₁ ino, OneReply (k fs₁ ino)) : OneReply (fs.withINode type mode nlink gid uid k) := by
  unfold FileSystem.withINode
  split
  · exact none
  · exact h _ _

theorem mknodAs (ctx : Ids) (parent : ℕ) (name : Name) (type : INodeType) (nlink mode : ℕ) :
    OneReply (fs.mknodAs ctx parent name type nlink mode) := by
  apply withINode
  intro fs₁ ino
  apply bind
  intro fs₂
  exact replyEntry fs₂ ino

end OneReply

variable {fs fs' : FileSystem} {r : Request}

/-- Every handler but `FuseLink` replies once where it ends. -/
theorem handle_oneReply (hlink : ∀ ino newparent newname, r ≠ .link ino newparent newname) :
    OneReply (fs.handle r) := by
  cases r with
  | lookup parent name =>
    apply OneReply.withDirectory
    intro dir
    cases dir.childINodeNumberWithName name with
    | none => exact OneReply.some fs _
    | some ino => exact OneReply.replyEntry fs ino
  | forget ino nlookup =>
    intro fs₁ replies h
    obtain ⟨inode, -, hend⟩ := Option.map_eq_some_iff.mp h
    dsimp only at hend
    split at hend
    · obtain ⟨-, rfl⟩ := Prod.mk.inj hend
      rfl
    · obtain ⟨-, rfl⟩ := Prod.mk.inj hend
      rfl
  | mknod ctx parent name mode =>
    apply OneReply.withDirectory
    intro dir
    apply OneReply.ite (OneReply.some fs _)
    apply OneReply.ite (OneReply.mknodAs ctx parent name _ _ _)
    exact OneReply.ite (OneReply.mknodAs ctx parent name _ _ _) (OneReply.some fs _)
  | mkdir parent name =>
    apply OneReply.withDirectory
    intro dir
    apply OneReply.withINode
    intro fs₁ ino
    apply OneReply.bind
    intro fs₂
    exact OneReply.replyEntry _ ino
  | symlink ctx link parent name =>
    apply OneReply.withDirectory
    intro dir
    apply OneReply.withINode
    intro fs₁ ino
    apply OneReply.bind
    intro fs₂
    exact OneReply.replyEntry fs₂ ino
  | create ctx parent name flags =>
    apply OneReply.withDirectory
    intro dir
    apply OneReply.ite (OneReply.some fs _)
    apply OneReply.withINode
    intro fs₁ ino
    apply OneReply.bind
    intro fs₂
    exact OneReply.map _ _
  | link ino newparent newname => exact absurd rfl (hlink ino newparent newname)
  | unlink parent name =>
    apply OneReply.withDirectory
    intro dir
    cases dir.childINodeNumberWithName name with
    | none => exact OneReply.some fs _
    | some ino => exact OneReply.map _ _
  | rmdir parent name =>
    apply OneReply.withDirectory
    intro dir
    cases dir.childINodeNumberWithName name with
    | none => exact OneReply.some fs _
    | some ino =>
      apply OneReply.bind
      intro inode
      cases inode.asDirectory with
      | none => exact OneReply.some fs _
      | some target => exact OneReply.ite (OneReply.some fs _) (OneReply.some _ _)
  | rename parent name newparent newname =>
    apply OneReply.withDirectory
    intro dir
    cases dir.childINodeNumberWithName name with
    | none => exact OneReply.some fs _
    | some ino =>
      apply OneReply.withDirectory
      intro newDir
      exact OneReply.map _ _

/-! ### The registration of a number in itself -/

/-- A handler that registers the number of the parent has no defined behaviour. -/
theorem withINode_reuses {type : INodeType} {mode nlink gid uid parent : ℕ}
    {k : FileSystem → ℕ → Result} (hreuses : fs.ReusesNumberOf parent)
    (hk : ∀ fs₁, k fs₁ parent = none) : fs.withINode type mode nlink gid uid k = none := by
  obtain ⟨hreclaiming, hhead⟩ := hreuses
  obtain ⟨rest, hqueue⟩ : ∃ rest, fs.iNodeManager.deletedINodes = parent :: rest :=
    ⟨_, List.eq_cons_of_mem_head? hhead⟩
  have hstop : fs.stopReclaiming = fs := by
    rw [stopReclaiming, getNumberOfDeletedINodes, hqueue,
      if_neg (List.length_cons ▸ Nat.succ_ne_zero rest.length)]
  unfold withINode registerINode
  rw [hstop, if_pos hreclaiming, reclaimINode, hqueue, Option.bind_some]
  dsimp only
  cases getINodeByINodeNumber { fs.iNodeManager with deletedINodes := rest } parent with
  | none => rfl
  | some del => exact hk _

theorem insertChild_self (fs : FileSystem) (parent : ℕ) (name : Name) (k : FileSystem → Result) :
    (fs.insertChild parent name parent).bind k = none := by
  rw [insertChild, if_pos rfl]
  rfl

/-- Past its checks on the parent a handler goes on with the directory. -/
theorem withDirectory_eq {parent : ℕ} (hdir : fs.iNodeManager.isDirectory parent = true) (e : Errno)
    (k : Directory → Result) : ∃ dir, fs.withDirectory parent e k = k dir := by
  have hlt := lt_of_isDirectory _ hdir
  rw [isDirectory_eq_isSome] at hdir
  obtain ⟨dir, hget⟩ := Option.isSome_iff_exists.mp hdir
  refine ⟨dir, ?_⟩
  rw [withDirectory, getNumberOfINodes, if_neg (Nat.not_le.mpr hlt), hget]

theorem withDirectory_refused {parent : ℕ} (hdir : fs.iNodeManager.isDirectory parent = false)
    (e : Errno) (k : Directory → Result) : ∃ e', fs.withDirectory parent e k = fs.reply (.err e') := by
  unfold withDirectory
  split
  · exact ⟨_, rfl⟩
  · rw [isDirectory_eq_isSome, Option.isSome_eq_false_iff, Option.isNone_iff_eq_none] at hdir
    rw [hdir]
    exact ⟨_, rfl⟩

theorem handle_reuses {parent : ℕ} (hin : registersIn fs.iNodeManager r = some parent)
    (hreuses : fs.ReusesNumberOf parent) : fs.handle r = none := by
  cases r with
  | mknod ctx p name mode =>
    simp only [registersIn] at hin
    split at hin
    · rename_i hchecks
      obtain rfl := Option.some.inj hin
      simp only [Bool.and_eq_true, Bool.or_eq_true, decide_eq_true_eq] at hchecks
      obtain ⟨⟨hdir, hlen⟩, hmode⟩ := hchecks
      obtain ⟨dir, hwith⟩ := withDirectory_eq hdir .eisdir _
      rw [handle, fuseMknod, hwith, if_neg (Nat.not_lt.mpr hlen)]
      split
      · exact withINode_reuses hreuses fun _ => insertChild_self ..
      · rename_i hfile
        rw [if_pos (hmode.resolve_left hfile)]
        exact withINode_reuses hreuses fun _ => insertChild_self ..
    · cases hin
  | mkdir p name =>
    simp only [registersIn] at hin
    split at hin
    · rename_i hdir
      obtain rfl := Option.some.inj hin
      obtain ⟨dir, hwith⟩ := withDirectory_eq hdir .eisdir _
      rw [handle, fuseMkdir, hwith]
      exact withINode_reuses hreuses fun _ => insertChild_self ..
    · cases hin
  | symlink ctx link p name =>
    simp only [registersIn] at hin
    split at hin
    · rename_i hdir
      obtain rfl := Option.some.inj hin
      obtain ⟨dir, hwith⟩ := withDirectory_eq hdir .eisdir _
      rw [handle, fuseSymlink, hwith]
      exact withINode_reuses hreuses fun _ => insertChild_self ..
    · cases hin
  | create ctx p name flags =>
    simp only [registersIn] at hin
    split at hin
    · rename_i hchecks
      obtain rfl := Option.some.inj hin
      rw [Bool.and_eq_true, decide_eq_true_eq] at hchecks
      obtain ⟨hdir, hlen⟩ := hchecks
      obtain ⟨dir, hwith⟩ := withDirectory_eq hdir .enoent _
      rw [handle, fuseCreate, hwith, if_neg (Nat.not_lt.mpr hlen)]
      exact withINode_reuses hreuses fun _ => insertChild_self ..
    · cases hin
  | _ => cases hin

/-- A request that makes an inode, and is refused before it registers one. -/
theorem handle_refused {p : ℕ × Name} (hmakes : r.makes = some p)
    (hnone : registersIn fs.iNodeManager r = none) : ∃ e, fs.handle r = fs.reply (.err e) := by
  cases r with
  | mknod ctx parent name mode =>
    cases hdir : fs.iNodeManager.isDirectory parent with
    | false => exact withDirectory_refused hdir _ _
    | true =>
      obtain ⟨dir, hwith⟩ := withDirectory_eq hdir .eisdir _
      rw [handle, fuseMknod, hwith]
      simp only [registersIn, hdir, Bool.true_and, Bool.and_eq_true, decide_eq_true_eq,
        Bool.or_eq_true] at hnone
      split
      · exact ⟨_, rfl⟩
      · rename_i hlen
        split
        · rename_i hmode
          rw [if_pos ⟨Nat.le_of_not_lt hlen, Or.inl hmode⟩] at hnone
          cases hnone
        · split
          · rename_i hmode
            rw [if_pos ⟨Nat.le_of_not_lt hlen, Or.inr hmode⟩] at hnone
            cases hnone
          · exact ⟨_, rfl⟩
  | mkdir parent name =>
    cases hdir : fs.iNodeManager.isDirectory parent with
    | false => exact withDirectory_refused hdir _ _
    | true =>
      rw [registersIn, if_pos hdir] at hnone
      cases hnone
  | symlink ctx link parent name =>
    cases hdir : fs.iNodeManager.isDirectory parent with
    | false => exact withDirectory_refused hdir _ _
    | true =>
      rw [registersIn, if_pos hdir] at hnone
      cases hnone
  | create ctx parent name flags =>
    cases hdir : fs.iNodeManager.isDirectory parent with
    | false => exact withDirectory_refused hdir _ _
    | true =>
      obtain ⟨dir, hwith⟩ := withDirectory_eq hdir .enoent _
      rw [handle, fuseCreate, hwith]
      simp only [registersIn, hdir, Bool.true_and, decide_eq_true_eq] at hnone
      split
      · exact ⟨_, rfl⟩
      · rename_i hlen
        rw [if_pos (Nat.le_of_not_lt hlen)] at hnone
        cases hnone
  | _ => cases hmakes

/-! ### The table -/

theorem queue_change {ns ns' : Nodes} (h : ∀ x ∈ ns.deletedINodes, x < ns.iNodes.length)
    (hchange : Change ns r ns') : ∀ x ∈ ns'.deletedINodes, x < ns'.iNodes.length := by
  have hmade : ∀ {ns₁ : Nodes} {ino : ℕ} {i : INode}, Registered ns ns₁ ino i →
      ∀ x ∈ ns₁.deletedINodes, x < ns₁.iNodes.length := by
    intro ns₁ ino i hreg x hx
    have hlen := hreg.length_le
    have hmem : x ∈ ns.deletedINodes := by
      rcases hreg.place with ⟨-, hsame⟩ | ⟨-, hcons⟩
      · exact hsame ▸ hx
      · rw [hcons]
        exact List.mem_cons_of_mem _ hx
    have := h x hmem
    omega
  cases hchange with
  | refused => exact h
  | queued hino =>
    intro x hx
    rw [deleteINode_deletedINodes] at hx
    rcases List.mem_append.mp hx with hold | hnew
    · simpa using h x hold
    · rw [List.mem_singleton.mp hnew]
      simpa using hino
  | madeFile hmakes hparent hreg => simpa using hmade hreg
  | madeDirectory hmakes hparent hreg => simpa using hmade hreg
  | looked | kept | linked | unlinked | removed | moved | replaced => simpa using h

theorem inTable_change {ns ns' : Nodes} (h : InTable ns) (hchange : Change ns r ns') : InTable ns' :=
  ⟨entriesValid_change h.entries hchange, queue_change h.queue hchange⟩

/-- For the entry that a rename replaces, the counts of the parents are adjusted, or nothing is. -/
theorem displace_eq (ns : Nodes) (parent newparent : ℕ) {old : Option ℕ}
    (hold : ∀ y, old = some y → y < ns.iNodes.length) :
    displace ns parent newparent old = some ns ∨
      displace ns parent newparent old = some ((ns.removeHardLink parent).addHardLink newparent) := by
  cases old with
  | none => exact Or.inl rfl
  | some y =>
    rw [displace]
    split
    · exact Or.inl rfl
    · rw [getINodeByINodeNumber, List.getElem?_eq_getElem (hold y rfl), Option.map_some]
      split
      · exact Or.inr rfl
      · exact Or.inl rfl

/-- A rename, whatever the inode 0 is. -/
theorem fuseRename_inTable (h : InTable fs.iNodeManager) (parent : ℕ) (name : Name) (newparent : ℕ)
    (newname : Name) : Yields (fs.fuseRename parent name newparent newname) InTable := by
  apply yields_withDirectory h
  intro dir hparent hdir
  cases hentry : dir.childINodeNumberWithName name with
  | none => exact yields_reply h
  | some x =>
    have hx : x < fs.iNodeManager.iNodes.length := h.entries parent name x (hdir ▸ hentry)
    apply yields_withDirectory h
    intro newDir hnew hnewDir
    have hdisplaced : ∃ ns, displace fs.iNodeManager parent newparent
        (newDir.childINodeNumberWithName newname) = some ns ∧ fs.iNodeManager.SameEntries ns ∧
          ns.deletedINodes = fs.iNodeManager.deletedINodes := by
      rcases displace_eq fs.iNodeManager parent newparent
        (fun y hy => h.entries newparent newname y (hnewDir ▸ hy)) with hsame | hadjusted
      · exact ⟨_, hsame, ⟨rfl, rfl, rfl, rfl, rfl, rfl⟩, rfl⟩
      · exact ⟨_, hadjusted, SameEntries.trans (removeHardLink_sameEntries ..)
          (addHardLink_sameEntries ..), rfl⟩
    obtain ⟨ns, hns, hsame, hqueue⟩ := hdisplaced
    have hnew' : ns.isDirectory newparent = true := by rw [hsame.2.1, hnew]
    have hparent' : ns.isDirectory parent = true := by rw [hsame.2.1, hparent]
    have hlen : ns.iNodes.length = fs.iNodeManager.iNodes.length := hsame.2.2.2.1
    refine ⟨_, [.ok], by dsimp only; rw [hns]; rfl, ?_, ?_⟩
    · have hvalid : ns.EntriesValid := h.entries.sameEntries hsame
      exact (hvalid.updateChild hnew' (hlen ▸ hx)).deleteChild (by simpa using hparent')
    · simpa [setNodes, hqueue, hlen] using h.queue

/-! ### Every request -/

theorem makes_of_registersIn {ns : Nodes} {parent : ℕ} (h : registersIn ns r = some parent) :
    ∃ name, r.makes = some (parent, name) := by
  cases r with
  | mknod | mkdir | symlink | create =>
    simp only [registersIn] at h
    split at h
    · obtain rfl := Option.some.inj h
      exact ⟨_, rfl⟩
    · cases h
  | _ => cases h

/-- **The table stays in range.**  Whatever is asked, the entries and the queue that a handler leaves name
inodes of the table. -/
theorem handle_inTable {replies : List Reply} (h : InTable fs.iNodeManager)
    (hrun : fs.handle r = some (fs', replies)) : InTable fs'.iNodeManager := by
  have hends : ∀ {P : Nodes → Prop}, Yields (fs.handle r) P → P fs'.iNodeManager := by
    intro P hyields
    obtain ⟨fs₁, replies₁, hres, hP⟩ := hyields
    obtain ⟨rfl, -⟩ := Prod.mk.inj (Option.some.inj (hres.symm.trans hrun))
    exact hP
  cases hmakes : r.makes with
  | some p =>
    cases hregisters : registersIn fs.iNodeManager r with
    | none =>
      obtain ⟨e, he⟩ := handle_refused hmakes hregisters
      obtain ⟨rfl, -⟩ := Prod.mk.inj (Option.some.inj (he.symm.trans hrun))
      exact h
    | some parent =>
      by_cases hreuses : fs.ReusesNumberOf parent
      · rw [handle_reuses hregisters hreuses] at hrun
        cases hrun
      · obtain ⟨name, hparent⟩ := makes_of_registersIn hregisters
        exact inTable_change h (hends (makes_change h hparent hreuses))
  | none =>
    cases r with
    | lookup parent name => exact inTable_change h (hends (fuseLookup_change h parent name))
    | forget ino nlookup =>
      have hino : ino < fs.iNodeManager.iNodes.length := by
        obtain ⟨inode, hget, -⟩ := Option.map_eq_some_iff.mp hrun
        exact (List.getElem?_eq_some_iff.mp hget).1
      exact inTable_change h (hends (fuseForget_change nlookup hino))
    | link ino newparent newname =>
      exact inTable_change h (hends (fuseLink_change ino newparent newname))
    | unlink parent name => exact inTable_change h (hends (fuseUnlink_change h parent name))
    | rmdir parent name => exact inTable_change h (hends (fuseRmdir_change h parent name))
    | rename parent name newparent newname =>
      exact hends (fuseRename_inTable h parent name newparent newname)
    | _ => cases hmakes

/-- A change of one inode that keeps the entries of a directory. -/
theorem InTable.setINodeAt {ns : Nodes} (h : InTable ns) {ino : ℕ} {i i' : INode}
    (hget : ns.iNodes[ino]? = some i) (hchildren : i'.children = i.children) :
    InTable (ns.setINodeAt ino i') := by
  have hlt := (List.getElem?_eq_some_iff.mp hget).1
  have hsame : ∀ d, (ns.setINodeAt ino i').childrenOf d = ns.childrenOf d := by
    intro d
    rw [childrenOf, childrenOf, Nodes.setINodeAt]
    by_cases hd : ino = d
    · subst hd
      rw [List.getElem?_set_self hlt, hget]
      exact hchildren
    · rw [List.getElem?_set_ne hd]
  constructor
  · intro d name x hx
    rw [hsame] at hx
    simpa [Nodes.setINodeAt] using h.entries d name x hx
  · intro x hx
    simpa [Nodes.setINodeAt] using h.queue x hx

theorem InTable.modifyINode {ns : Nodes} (h : InTable ns) {ino : ℕ} {f : INode → INode}
    (hf : ∀ i, ns.iNodes[ino]? = some i → (f i).children = i.children) :
    InTable (ns.modifyINode ino f) := by
  cases hget : ns.iNodes[ino]? with
  | none =>
    have hsame : ns.modifyINode ino f = ns := by
      rw [Nodes.modifyINode, List.modify_eq_self (List.getElem?_eq_none_iff.mp hget)]
    rw [hsame]
    exact h
  | some i =>
    have hset : ns.modifyINode ino f = ns.setINodeAt ino (f i) := by
      rw [Nodes.modifyINode, Nodes.setINodeAt, List.modify_eq_set_getElem?, hget]
      rfl
    rw [hset]
    exact h.setINodeAt hget (hf i hget)

/-- The two handlers that change attributes end with one reply, in a table that is in range. -/
theorem setsINode_spec (h : InTable fs.iNodeManager) (ino : ℕ) {g : INode → INode × Option Errno}
    (hg : ∀ i, (g i).1.kind = i.kind) :
    (Outcome.of (fs.atINode ino fun i =>
        some (fs.setNodes (fs.iNodeManager.setINodeAt ino (g i).1), [retVal (g i).2]))).AnsweredOnce ∧
      (Outcome.of (fs.atINode ino fun i =>
        some (fs.setNodes (fs.iNodeManager.setINodeAt ino (g i).1), [retVal (g i).2]))).Ends
          fun fs' => InTable fs'.iNodeManager := by
  rcases fs.atINode_cases ino with ⟨-, hk⟩ | ⟨i, hget, hk⟩
  · rw [hk]
    exact ⟨Outcome.answeredOnce_one _ fs, Outcome.ends_at _ h⟩
  · rw [hk]
    refine ⟨Outcome.answeredOnce_one _ _, Outcome.ends_at _ ?_⟩
    apply h.setINodeAt hget
    rw [INode.children, INode.children, hg]

theorem setXAttr_kind (i : INode) (name : Name) (value : List UInt8) (flags position : ℕ)
    (newBuf : Option (ℕ → UInt8)) : (i.setXAttr name value flags position newBuf).1.kind = i.kind := by
  unfold INode.setXAttr
  split
  · rfl
  · split
    · rfl
    · dsimp only
      split
      · cases newBuf <;> rfl
      · rfl

theorem removeXAttr_kind (i : INode) (name : Name) : (i.removeXAttr name).1.kind = i.kind := by
  unfold INode.removeXAttr
  split <;> rfl

/-- A link is answered once, unless its name exists. -/
theorem fuseLink_answeredOnce_iff (ino newparent : ℕ) (newname : Name) :
    (Outcome.of (fs.fuseLink ino newparent newname)).AnsweredOnce ↔
      ¬ fs.LinksOntoExisting (.link ino newparent newname) := by
  have hrefused : (fs.iNodeManager.directoryAt newparent = none ∨ fs.iNodeManager.iNodes.length ≤ ino) →
      ((Outcome.of (fs.fuseLink ino newparent newname)).AnsweredOnce ↔
        ¬ fs.LinksOntoExisting (.link ino newparent newname)) := by
    intro hcheck
    obtain ⟨e, he⟩ := fuseLink_refused ino newparent newname hcheck
    rw [he]
    refine iff_of_true (Outcome.answeredOnce_one _ fs) ?_
    intro ⟨hino, x, hx, _⟩
    rcases hcheck with hnone | hlen
    · rw [hnone] at hx
      cases hx
    · exact absurd hino (Nat.not_lt.mpr hlen)
  cases hdir : fs.iNodeManager.directoryAt newparent with
  | none => exact hrefused (Or.inl hdir)
  | some dir =>
    by_cases hino : fs.iNodeManager.iNodes.length ≤ ino
    · exact hrefused (Or.inr hino)
    · obtain ⟨x, attr, hlink⟩ := fuseLink_eq newname hdir (Nat.lt_of_not_le hino)
      rw [hlink, Outcome.answeredOnce_of_iff]
      have honto : fs.LinksOntoExisting (.link ino newparent newname) ↔
          (dir.childINodeNumberWithName newname).any (0 < ·) = true := by
        rw [LinksOntoExisting, hdir, Option.bind_some, Option.any_eq_true]
        simp only [Option.mem_def, decide_eq_true_eq]
        exact and_iff_right (Nat.lt_of_not_le hino)
      rw [honto]
      constructor
      · intro ⟨_, replies, hres, hlength⟩ hany
        obtain ⟨-, rfl⟩ := Prod.mk.inj (Option.some.inj hres)
        rw [if_pos hany] at hlength
        cases hlength
      · intro hany
        exact ⟨_, _, rfl, by rw [if_neg hany]; rfl⟩

/-- **How often a namespace request is answered.** -/
theorem handle_answeredOnce_iff (h : InTable fs.iNodeManager) (r : Request) :
    (Outcome.of (fs.handle r)).AnsweredOnce ↔ fs.Answerable r := by
  have honce : ∀ {P : Nodes → Prop}, (∀ ino newparent newname, r ≠ .link ino newparent newname) →
      Yields (fs.handle r) P → (Outcome.of (fs.handle r)).AnsweredOnce := by
    intro P hlink hyields
    obtain ⟨fs', replies, hres, -⟩ := hyields
    exact Outcome.answeredOnce_of_iff.mpr ⟨fs', replies, hres, handle_oneReply hlink fs' replies hres⟩
  have hmade : ∀ p, r.makes = some p → (∀ ino newparent newname, r ≠ .link ino newparent newname) →
      ((Outcome.of (fs.handle r)).AnsweredOnce ↔
        ∀ parent ∈ registersIn fs.iNodeManager r, ¬ fs.ReusesNumberOf parent) := by
    intro p hmakes hlink
    cases hregisters : registersIn fs.iNodeManager r with
    | none =>
      obtain ⟨e, he⟩ := handle_refused hmakes hregisters
      rw [he]
      exact iff_of_true (Outcome.answeredOnce_one _ fs) fun _ hnone => by cases hnone
    | some parent =>
      by_cases hreuses : fs.ReusesNumberOf parent
      · rw [handle_reuses hregisters hreuses]
        exact iff_of_false (Outcome.not_answeredOnce_undefined []) fun hnot => hnot parent rfl hreuses
      · obtain ⟨name, hparent⟩ := makes_of_registersIn hregisters
        refine iff_of_true (honce hlink (makes_change h hparent hreuses)) ?_
        intro parent' hparent'
        rw [← Option.some.inj hparent']
        exact hreuses
  cases r with
  | lookup parent name =>
    exact iff_of_true (honce (by simp) (fuseLookup_change h parent name)) fun _ hnone => by cases hnone
  | forget ino nlookup =>
    constructor
    · intro hanswered
      obtain ⟨_, _, hres, -⟩ := Outcome.answeredOnce_of_iff.mp hanswered
      obtain ⟨inode, hget, -⟩ := Option.map_eq_some_iff.mp hres
      exact (List.getElem?_eq_some_iff.mp hget).1
    · intro hino
      exact honce (by simp) (fuseForget_change nlookup hino)
  | link ino newparent newname => exact fuseLink_answeredOnce_iff ino newparent newname
  | unlink parent name =>
    exact iff_of_true (honce (by simp) (fuseUnlink_change h parent name)) fun _ hnone => by cases hnone
  | rmdir parent name =>
    exact iff_of_true (honce (by simp) (fuseRmdir_change h parent name)) fun _ hnone => by cases hnone
  | rename parent name newparent newname =>
    exact iff_of_true (honce (by simp) (fuseRename_inTable h parent name newparent newname))
      fun _ hnone => by cases hnone
  | mknod | mkdir | symlink | create => exact hmade _ rfl (by simp)

end FileSystem

end DagonFs
