import DagonFs.FileSystem.Answers
import DagonFs.FileSystem.Kernel
import DagonFs.FileSystem.OtherFiles
import DagonFs.FileSystem.ListingCalls

/-!
# A listing while the directory changes

Between the calls of a listing other requests come to the same directory.  The iterator is an iterator of the
map of the children: a child that is added or replaced leaves it as it is, and when the child that it is at is
erased, it has no defined use any more.

`survives_iff` says which runs are safe: those in which no request takes away the child that the iterator is
at, and the iterator is not taken back from the first child.
-/

namespace DagonFs.Listing

open DagonFs.FileSystem DagonFs.Lib.Packing DagonFs.Lib.Runs DagonFs.Nodes

/-! ### Entries -/

/-- The directory has a child of that name. -/
def HasEntry (ns : Nodes) (d : ℕ) (name : Name) : Prop := ∃ x, (ns.childrenOf d)[name]? = some x

instance (ns : Nodes) (d : ℕ) (name : Name) : Decidable (HasEntry ns d name) :=
  decidable_of_iff (((ns.childrenOf d)[name]?).isSome = true) Option.isSome_iff_exists

section Entries

variable {ns ns' : Nodes} {d p x : ℕ} {name newname : Name}

theorem HasEntry.isDirectory (h : HasEntry ns d name) : ns.isDirectory d = true := by
  obtain ⟨x, hx⟩ := h
  rw [childrenOf] at hx
  rw [Nodes.isDirectory]
  cases hget : ns.iNodes[d]? with
  | none =>
    rw [hget] at hx
    simp at hx
  | some i =>
    rw [hget] at hx
    obtain ⟨_, _, _, _, k⟩ := i
    cases k <;> simp_all [INode.children, INode.isDirectory, INode.asDirectory]

theorem hasEntry_congr (h : ns'.childrenOf d = ns.childrenOf d) :
    HasEntry ns' d name ↔ HasEntry ns d name := by
  rw [HasEntry, HasEntry, h]

theorem hasEntry_updateChild (hp : ns.isDirectory p = true) :
    HasEntry (ns.updateChild p newname x) d name ↔ (d = p ∧ name = newname) ∨ HasEntry ns d name := by
  unfold HasEntry
  rw [getElem?_updateChild hp]
  split
  · rename_i hsame
    simp [hsame]
  · rename_i hne
    simp [hne]

theorem hasEntry_deleteChild (hp : ns.isDirectory p = true) :
    HasEntry (ns.deleteChild p newname) d name ↔ ¬ (d = p ∧ name = newname) ∧ HasEntry ns d name := by
  unfold HasEntry
  rw [getElem?_deleteChild hp]
  split
  · rename_i hsame
    simp [hsame]
  · rename_i hne
    simp only [hne, not_false_eq_true, true_and]

end Entries

/-! ### Requests to the directory -/

/-- A request to the directory that is listed.  A rename moves a child out of it or into it. -/
inductive Edit where
  | create (ctx : Ids) (name : Name) (flags : ℕ)
  | mkdir (name : Name)
  | unlink (name : Name)
  | rmdir (name : Name)
  | moveOut (name : Name) (newparent : ℕ) (newname : Name)
  | moveIn (parent : ℕ) (name newname : Name)

def Edit.request (d : ℕ) : Edit → Request
  | .create ctx name flags => .create ctx d name flags
  | .mkdir name => .mkdir d name
  | .unlink name => .unlink d name
  | .rmdir name => .rmdir d name
  | .moveOut name newparent newname => .rename d name newparent newname
  | .moveIn parent name newname => .rename parent name d newname

/-- The child of that name is an empty directory. -/
def namesEmptyDirectory (ns : Nodes) (d : ℕ) (name : Name) : Bool :=
  (((ns.childrenOf d)[name]?).bind ns.directoryAt).any fun dir => !dir.hasChildren

/-- The request takes away the child of a name. -/
def Edit.Removes (ns : Nodes) (d : ℕ) (name : Name) : Edit → Prop
  | .create .. | .mkdir _ => False
  | .unlink removed => name = removed
  | .rmdir removed => name = removed ∧ namesEmptyDirectory ns d name = true
  | .moveOut moved newparent _ => name = moved ∧ ns.isDirectory newparent = true
  | .moveIn parent moved _ => d = parent ∧ name = moved

section Kept

variable {fs fs' : FileSystem} {replies : List Reply} {d : ℕ} {name : Name}

/-- Where the handler goes on with the directory that it has found. -/
theorem exists_withDirectory {parent : ℕ} (hdir : fs.iNodeManager.isDirectory parent = true) (e : Errno)
    (k : Directory → Result) : ∃ dir, dir.mChildren = fs.iNodeManager.childrenOf parent ∧
      fs.withDirectory parent e k = k dir := by
  have hlt := lt_of_isDirectory _ hdir
  rw [isDirectory_eq_isSome] at hdir
  obtain ⟨dir, hget⟩ := Option.isSome_iff_exists.mp hdir
  refine ⟨dir, (childrenOf_of_directoryAt _ hget).symm, ?_⟩
  rw [withDirectory, getNumberOfINodes, if_neg (Nat.not_le.mpr hlt), hget]

theorem eq_of_replyEntry {ino : ℕ} (h : fs.replyEntry ino = some (fs', replies)) :
    fs' = fs.setNodes (fs.iNodeManager.lookupINode ino) := by
  obtain ⟨i, -, hend⟩ := Option.map_eq_some_iff.mp h
  exact (Prod.mk.inj hend).1.symm

/-- A new inode is named in another directory than itself. -/
theorem exists_of_withINode {type : INodeType} {mode nlink gid uid : ℕ} {k : FileSystem → ℕ → Result}
    (h : fs.withINode type mode nlink gid uid k = some (fs', replies)) :
    ∃ fs₁ ino, (∀ x, x ≠ ino → fs₁.iNodeManager.childrenOf x = fs.iNodeManager.childrenOf x ∧
        fs₁.iNodeManager.isDirectory x = fs.iNodeManager.isDirectory x) ∧
      k fs₁ ino = some (fs', replies) := by
  unfold withINode at h
  split at h
  · cases h
  · rename_i fs₁ ino hres
    have hreg := (registerINode_registered hres).1
    exact ⟨fs₁, ino, fun x hx => ⟨hreg.childrenOf_ne hx, hreg.isDirectory_ne hx⟩, h⟩

theorem exists_of_insertChild {parent ino : ℕ} {newname : Name} {k : FileSystem → Result}
    (h : (fs.insertChild parent newname ino).bind k = some (fs', replies)) :
    parent ≠ ino ∧ k (fs.setNodes (fs.iNodeManager.updateChild parent newname ino)) = some (fs', replies) := by
  rw [insertChild] at h
  split at h
  · cases h
  · exact ⟨Ne.symm ‹_›, h⟩

/-- A request that makes an inode takes no child away. -/
theorem hasEntry_made {fs₁ : FileSystem} {ino : ℕ} {newname : Name} (hentry : HasEntry fs.iNodeManager d name)
    (hothers : ∀ x, x ≠ ino → fs₁.iNodeManager.childrenOf x = fs.iNodeManager.childrenOf x ∧
      fs₁.iNodeManager.isDirectory x = fs.iNodeManager.isDirectory x) (hne : d ≠ ino) :
    HasEntry (fs₁.iNodeManager.updateChild d newname ino) d name := by
  obtain ⟨hchildren, hdir⟩ := hothers d hne
  rw [hasEntry_updateChild (hdir.trans hentry.isDirectory)]
  exact Or.inr ((hasEntry_congr hchildren).mpr hentry)

theorem hasEntry_mkdir {newname : Name} (hentry : HasEntry fs.iNodeManager d name)
    (h : fs.fuseMkdir d newname = some (fs', replies)) : HasEntry fs'.iNodeManager d name := by
  obtain ⟨dir, -, hwith⟩ := exists_withDirectory hentry.isDirectory .eisdir _
  rw [fuseMkdir, hwith] at h
  obtain ⟨fs₁, ino, hothers, h⟩ := exists_of_withINode h
  obtain ⟨hne, h⟩ := exists_of_insertChild h
  have hmade : HasEntry (fs₁.iNodeManager.updateChild d newname ino) d name :=
    hasEntry_made hentry hothers hne
  rw [eq_of_replyEntry h]
  exact (hasEntry_congr (by simp [setNodes])).mpr hmade

theorem hasEntry_create {ctx : Ids} {newname : Name} {flags : ℕ} (hentry : HasEntry fs.iNodeManager d name)
    (h : fs.fuseCreate ctx d newname flags = some (fs', replies)) : HasEntry fs'.iNodeManager d name := by
  obtain ⟨dir, -, hwith⟩ := exists_withDirectory hentry.isDirectory .enoent _
  rw [fuseCreate, hwith] at h
  split at h
  · obtain ⟨rfl, -⟩ := Prod.mk.inj (Option.some.inj h)
    exact hentry
  · obtain ⟨fs₁, ino, hothers, h⟩ := exists_of_withINode h
    obtain ⟨hne, h⟩ := exists_of_insertChild h
    have hmade : HasEntry (fs₁.iNodeManager.updateChild d newname ino) d name :=
      hasEntry_made hentry hothers hne
    obtain ⟨i, -, hend⟩ := Option.map_eq_some_iff.mp h
    obtain ⟨rfl, -⟩ := Prod.mk.inj hend
    refine (hasEntry_congr ?_).mpr hmade
    have hclear := (fs₁.iNodeManager.updateChild d newname ino).lookupINode ino |>.modifyINode_sameEntries
      (f := clearSize) (fun _ => rfl) ino
    have hlookup : ((fs₁.iNodeManager.updateChild d newname ino).lookupINode ino).childrenOf =
        (fs₁.iNodeManager.updateChild d newname ino).childrenOf := by simp
    show Nodes.childrenOf (if _ then _ else _) d = _
    split
    · exact congrFun (hclear.1.trans hlookup) d
    · exact congrFun hlookup d

theorem hasEntry_unlink {removed : Name} (hentry : HasEntry fs.iNodeManager d name)
    (h : fs.fuseUnlink d removed = some (fs', replies)) :
    HasEntry fs'.iNodeManager d name ↔ name ≠ removed := by
  obtain ⟨dir, hdir, hwith⟩ := exists_withDirectory hentry.isDirectory .eisdir _
  rw [fuseUnlink, hwith] at h
  split at h
  · rename_i habsent
    obtain ⟨rfl, -⟩ := Prod.mk.inj (Option.some.inj h)
    refine iff_of_true hentry ?_
    rintro rfl
    obtain ⟨x, hx⟩ := hentry
    rw [Directory.childINodeNumberWithName, hdir, hx] at habsent
    cases habsent
  · rename_i x _
    obtain ⟨i, -, hend⟩ := Option.map_eq_some_iff.mp h
    obtain ⟨rfl, -⟩ := Prod.mk.inj hend
    have hkept : HasEntry (fs.iNodeManager.removeHardLink x) d name := (hasEntry_congr (by simp)).mpr hentry
    show HasEntry ((fs.iNodeManager.removeHardLink x).deleteChild d removed) d name ↔ _
    rw [hasEntry_deleteChild hkept.isDirectory]
    simp [hkept]

theorem hasEntry_rmdir {removed : Name} (hentry : HasEntry fs.iNodeManager d name)
    (h : fs.fuseRmdir d removed = some (fs', replies)) :
    HasEntry fs'.iNodeManager d name ↔
      ¬ (name = removed ∧ namesEmptyDirectory fs.iNodeManager d name = true) := by
  obtain ⟨dir, hdir, hwith⟩ := exists_withDirectory hentry.isDirectory .eisdir _
  rw [fuseRmdir, hwith] at h
  split at h
  · rename_i habsent
    obtain ⟨rfl, -⟩ := Prod.mk.inj (Option.some.inj h)
    refine iff_of_true hentry ?_
    rintro ⟨rfl, -⟩
    obtain ⟨x, hx⟩ := hentry
    rw [Directory.childINodeNumberWithName, hdir, hx] at habsent
    cases habsent
  · rename_i x hx
    rw [Directory.childINodeNumberWithName, hdir] at hx
    obtain ⟨i, hget, h⟩ := Option.bind_eq_some_iff.mp h
    have hchild : fs.iNodeManager.directoryAt x = i.asDirectory := by
      rw [directoryAt, ← getINodeByINodeNumber, hget]
      rfl
    have hempty : name = removed → namesEmptyDirectory fs.iNodeManager d name =
        i.asDirectory.any fun dir => !dir.hasChildren := by
      rintro rfl
      rw [namesEmptyDirectory, hx, Option.bind_some, hchild]
    split at h
    · rename_i hnone
      obtain ⟨rfl, -⟩ := Prod.mk.inj (Option.some.inj h)
      refine iff_of_true hentry ?_
      rintro ⟨rfl, hsome⟩
      rw [hempty rfl, hnone] at hsome
      cases hsome
    · rename_i child hsome
      split at h
      · rename_i hfull
        obtain ⟨rfl, -⟩ := Prod.mk.inj (Option.some.inj h)
        refine iff_of_true hentry ?_
        rintro ⟨rfl, hnone⟩
        rw [hempty rfl, hsome, Option.any_some, hfull] at hnone
        cases hnone
      · rename_i hnone
        obtain ⟨rfl, -⟩ := Prod.mk.inj (Option.some.inj h)
        have hkept : HasEntry ((fs.iNodeManager.removeHardLink d).removeAllHardLinks x) d name :=
          (hasEntry_congr (by simp)).mpr hentry
        show HasEntry (((fs.iNodeManager.removeHardLink d).removeAllHardLinks x).deleteChild d removed) d
          name ↔ _
        rw [hasEntry_deleteChild hkept.isDirectory]
        have hyes : name = removed → namesEmptyDirectory fs.iNodeManager d name = true := by
          intro hname
          rw [hempty hname, hsome, Option.any_some]
          simpa using hnone
        constructor
        · rintro ⟨hne, -⟩ ⟨hname, -⟩
          exact hne ⟨rfl, hname⟩
        · intro hne
          exact ⟨fun hname => hne ⟨hname.2, hyes hname.2⟩, hkept⟩

/-- A rename takes the child that it moves, and no other. -/
theorem hasEntry_rename {parent newparent : ℕ} {moved newname : Name}
    (hentry : HasEntry fs.iNodeManager d name)
    (h : fs.fuseRename parent moved newparent newname = some (fs', replies)) :
    HasEntry fs'.iNodeManager d name ↔
      ¬ (d = parent ∧ name = moved ∧ fs.iNodeManager.isDirectory newparent = true) := by
  by_cases hparent : fs.iNodeManager.isDirectory parent = true
  swap
  · obtain ⟨e, hwith⟩ := withDirectory_refused (Bool.eq_false_iff.mpr hparent) .eisdir _
    rw [fuseRename, hwith] at h
    obtain ⟨rfl, -⟩ := Prod.mk.inj (Option.some.inj h)
    refine iff_of_true hentry ?_
    rintro ⟨rfl, -⟩
    exact hparent hentry.isDirectory
  obtain ⟨dir, hdir, hwith⟩ := exists_withDirectory hparent .eisdir _
  rw [fuseRename, hwith] at h
  split at h
  · rename_i habsent
    obtain ⟨rfl, -⟩ := Prod.mk.inj (Option.some.inj h)
    refine iff_of_true hentry ?_
    rintro ⟨rfl, rfl, -⟩
    obtain ⟨x, hx⟩ := hentry
    rw [Directory.childINodeNumberWithName, hdir, hx] at habsent
    cases habsent
  · rename_i x _
    by_cases hnew : fs.iNodeManager.isDirectory newparent = true
    · obtain ⟨newdir, -, hwith⟩ := exists_withDirectory hnew .eisdir _
      rw [hwith] at h
      obtain ⟨ns, hdisplace, hend⟩ := Option.map_eq_some_iff.mp h
      obtain ⟨rfl, -⟩ := Prod.mk.inj hend
      have hsame : ns.childrenOf = fs.iNodeManager.childrenOf ∧
          ns.isDirectory = fs.iNodeManager.isDirectory := by
        rcases displace_cases hdisplace with rfl | rfl
        · exact ⟨rfl, rfl⟩
        · simp
      show HasEntry ((ns.updateChild newparent newname x).deleteChild parent moved) d name ↔ _
      rw [hasEntry_deleteChild (by simpa [hsame.2] using hparent),
        hasEntry_updateChild (by rw [hsame.2]; exact hnew), hasEntry_congr (congrFun hsame.1 d)]
      simp [hentry, hnew]
    · obtain ⟨e, hwith⟩ := withDirectory_refused (Bool.eq_false_iff.mpr hnew) .eisdir _
      rw [hwith] at h
      obtain ⟨rfl, -⟩ := Prod.mk.inj (Option.some.inj h)
      exact iff_of_true hentry fun hmoved => hnew hmoved.2.2

/-- **What a request leaves**: every child but the one that it takes away. -/
theorem hasEntry_edit {e : Edit} (hentry : HasEntry fs.iNodeManager d name)
    (h : fs.handle (e.request d) = some (fs', replies)) :
    HasEntry fs'.iNodeManager d name ↔ ¬ e.Removes fs.iNodeManager d name := by
  cases e with
  | create ctx newname flags => exact iff_of_true (hasEntry_create hentry h) id
  | mkdir newname => exact iff_of_true (hasEntry_mkdir hentry h) id
  | unlink removed => exact hasEntry_unlink hentry h
  | rmdir removed => exact hasEntry_rmdir hentry h
  | moveOut moved newparent newname =>
    refine (hasEntry_rename hentry h).trans (not_congr ?_)
    simp [Edit.Removes]
  | moveIn parent moved newname =>
    refine (hasEntry_rename hentry h).trans (not_congr ?_)
    simp [Edit.Removes, hentry.isDirectory]

end Kept

/-! ### The listing -/

/-- The iterator at the offset: not yet made, at a child or the end, or without a defined use: at an erased
child, or before the first one. -/
inductive Saved where
  | null
  | at (iterator : Option Name)
  | lost
  deriving DecidableEq

/-- The file system, and the iterator of the listing. -/
structure Progress where
  fs : FileSystem
  saved : Saved

inductive Action where
  | readDir (size : ℕ)
  | edit (e : Edit)

section Progress

variable (entrySize : Name → ℕ) (d : ℕ)

/-- The iterator after a request to the directory. -/
def Saved.kept (ns : Nodes) : Saved → Saved
  | .at (some name) => if HasEntry ns d name then .at (some name) else .lost
  | saved => saved

/-- What a call of the listing comes to; `none` where it does not use the iterator. -/
def Progress.fill (s : Progress) (size : ℕ) : Option Filled :=
  (s.fs.iNodeManager.directoryAt d).bind fun dir =>
    match s.saved with
    | .null => some (readFirst entrySize (min kReadDirBufSize size) d dir)
    | .at iterator => some (readFrom entrySize (min kReadDirBufSize size) dir iterator)
    | .lost => none

def Progress.filled (s : Progress) : Option Filled → Option Progress
  | none => some s
  | some (.sent _ iterator) => some { s with saved := .at iterator }
  | some .beforeFirst => some { s with saved := .lost }
  | some .outside => none

def step (s : Progress) : Action → Option Progress
  | .readDir size => s.filled (s.fill entrySize d size)
  | .edit e => (s.fs.handle (e.request d)).map fun r => ⟨r.1, s.saved.kept d r.1.iNodeManager⟩

/-- The iterator is at a child of the directory or at the end, where it has been made. -/
def Progress.Designates (s : Progress) : Prop :=
  match s.saved with
  | .null | .at none => True
  | .at (some name) => HasEntry s.fs.iNodeManager d name
  | .lost => False

/-- A call finds the iterator at a child or at the end, and does not take it back from the first child. -/
def Safe (s : Progress) : Action → Prop
  | .readDir size => s.Designates d ∧ s.fill entrySize d size ≠ some .beforeFirst
  | .edit _ => True

/-- Every call of the listing is safe. -/
def Survives (s : Progress) (actions : List Action) : Prop := Along (step entrySize d) (Safe entrySize d) s actions

/-- The first child has room in the buffer of a call that starts with it, and a request does not take away
the child that the iterator is at. -/
def Spares (s : Progress) : Action → Prop
  | .readDir size => ∀ dir ∈ s.fs.iNodeManager.directoryAt d, ∀ first ∈ dir.mChildren.keys.head?,
      match s.saved with
      | .null => entrySize dot + entrySize dotDot + entrySize first ≤ min kReadDirBufSize size
      | .at (some name) => first = name → entrySize name ≤ min kReadDirBufSize size
      | _ => True
  | .edit e => ∀ name, s.saved = .at (some name) → ¬ e.Removes s.fs.iNodeManager d name

end Progress

/-! ### Checking a run -/

instance (ns : Nodes) (d : ℕ) (name : Name) : ∀ e : Edit, Decidable (e.Removes ns d name)
  | .create .. | .mkdir _ => isFalse id
  | .unlink _ => inferInstanceAs (Decidable (_ = _))
  | .rmdir _ | .moveOut .. | .moveIn .. => inferInstanceAs (Decidable (_ ∧ _))

instance (d : ℕ) : ∀ s : Progress, Decidable (s.Designates d)
  | ⟨_, .null⟩ | ⟨_, .at none⟩ => isTrue trivial
  | ⟨fs, .at (some name)⟩ => inferInstanceAs (Decidable (HasEntry fs.iNodeManager d name))
  | ⟨_, .lost⟩ => isFalse id

instance (entrySize : Name → ℕ) (d : ℕ) (s : Progress) : ∀ a : Action, Decidable (Safe entrySize d s a)
  | .readDir _ => inferInstanceAs (Decidable (_ ∧ _))
  | .edit _ => isTrue trivial

instance (entrySize : Name → ℕ) (d : ℕ) : ∀ (s : Progress) (a : Action), Decidable (Spares entrySize d s a)
  | ⟨fs, .null⟩, .readDir size => inferInstanceAs (Decidable (∀ dir ∈ fs.iNodeManager.directoryAt d,
      ∀ first ∈ dir.mChildren.keys.head?,
        entrySize dot + entrySize dotDot + entrySize first ≤ min kReadDirBufSize size))
  | ⟨fs, .at (some name)⟩, .readDir size =>
    inferInstanceAs (Decidable (∀ dir ∈ fs.iNodeManager.directoryAt d,
      ∀ first ∈ dir.mChildren.keys.head?, first = name → entrySize name ≤ min kReadDirBufSize size))
  | ⟨_, .at none⟩, .readDir _ | ⟨_, .lost⟩, .readDir _ => isTrue fun _ _ _ _ => trivial
  | ⟨fs, .at (some name)⟩, .edit e =>
    decidable_of_iff (¬ e.Removes fs.iNodeManager d name)
      ⟨fun h _ heq => by cases heq; exact h, fun h => h name rfl⟩
  | ⟨_, .null⟩, .edit _ | ⟨_, .at none⟩, .edit _ | ⟨_, .lost⟩, .edit _ =>
    isTrue fun _ heq => nomatch heq

/-! ### One step -/

section Step

variable {entrySize : Name → ℕ} {d size : ℕ} {s s' : Progress}

/-- What a call makes of a loop that ends, or goes before the first child. -/
theorem designates_filled {fs : FileSystem} {saved : Saved} {filled : Filled}
    (hstep : Progress.filled ⟨fs, saved⟩ (some filled) = some s')
    (hmem : ∀ entries name, filled = .sent entries (some name) → HasEntry fs.iNodeManager d name) :
    s'.Designates d ↔ filled.isSent = true := by
  cases filled with
  | sent entries iterator =>
    obtain rfl := Option.some.inj hstep
    refine iff_of_true ?_ rfl
    cases iterator with
    | none => trivial
    | some name => exact hmem entries name rfl
  | beforeFirst =>
    obtain rfl := Option.some.inj hstep
    exact iff_of_false id Bool.false_ne_true
  | outside => cases hstep

theorem hasEntry_of_mem {ns : Nodes} {dir : Directory} (hdir : ns.directoryAt d = some dir) {name : Name}
    (h : name ∈ dir.mChildren) : HasEntry ns d name := by
  refine ⟨dir.mChildren[name], ?_⟩
  rw [childrenOf_of_directoryAt ns hdir, Std.ExtTreeMap.getElem?_eq_some_getElem h]

/-- A call leaves the iterator at a child. -/
theorem hasEntry_of_fill {entries : List Entry} {name : Name}
    (h : s.fill entrySize d size = some (.sent entries (some name))) : HasEntry s.fs.iNodeManager d name := by
  obtain ⟨dir, hdir, hfill⟩ := Option.bind_eq_some_iff.mp h
  split at hfill
  · exact hasEntry_of_mem hdir (mem_of_readFirst (Option.some.inj hfill))
  · exact hasEntry_of_mem hdir (mem_of_readFrom (Option.some.inj hfill))
  · cases hfill

/-- **One call** leaves the iterator at a child or the end exactly when the first child has room. -/
theorem designates_readDir (h : s.Designates d) (hstep : step entrySize d s (.readDir size) = some s') :
    s'.Designates d ↔ Spares entrySize d s (.readDir size) := by
  obtain ⟨fs, saved⟩ := s
  rw [step, Progress.fill] at hstep
  unfold Spares
  dsimp only at hstep ⊢
  cases hdir : fs.iNodeManager.directoryAt d with
  | none =>
    rw [hdir] at hstep
    obtain rfl := Option.some.inj hstep
    exact iff_of_true h fun dir hget => nomatch hget
  | some dir =>
    rw [hdir, Option.bind_some] at hstep
    simp only [Option.mem_some_iff, forall_eq']
    cases saved with
    | null =>
      have hdots : entrySize dot + entrySize dotDot ≤ min kReadDirBufSize size := by
        by_contra hdots
        dsimp only at hstep
        rw [readFirst_outside hdots] at hstep
        cases hstep
      have hdot : entrySize dot ≤ min kReadDirBufSize size := Nat.le_trans (Nat.le_add_right _ _) hdots
      rw [designates_filled hstep fun _ _ hsent => hasEntry_of_mem hdir (mem_of_readFirst hsent),
        isSent_readFirst hdots, fillFrom_null]
      exact and_iff_right hdot
    | «at» iterator =>
      rw [designates_filled hstep fun _ _ hsent => hasEntry_of_mem hdir (mem_of_readFrom hsent)]
      cases iterator with
      | none => exact iff_of_true rfl fun _ _ => trivial
      | some name =>
        obtain ⟨x, hx⟩ : HasEntry fs.iNodeManager d name := h
        have hname : dir.mChildren.contains name = true := by
          rw [Std.ExtTreeMap.contains_eq_isSome_getElem?, ← childrenOf_of_directoryAt _ hdir, hx]
          rfl
        rw [isSent_readFrom, fillFrom_iterator hname]
        constructor
        · intro hfits first hfirst heq
          exact hfits (by rw [hfirst, heq])
        · intro hfits hfirst
          exact hfits name hfirst rfl
    | lost => exact absurd h id

/-- **One request** leaves the iterator at a child exactly when it does not take that child away. -/
theorem designates_edit {e : Edit} (h : s.Designates d) (hstep : step entrySize d s (.edit e) = some s') :
    s'.Designates d ↔ Spares entrySize d s (.edit e) := by
  obtain ⟨fs, saved⟩ := s
  obtain ⟨⟨fs', replies⟩, hhandle, rfl⟩ := Option.map_eq_some_iff.mp hstep
  cases saved with
  | null => exact iff_of_true trivial fun name hname => nomatch hname
  | «at» iterator =>
    cases iterator with
    | none => exact iff_of_true trivial fun name hname => nomatch hname
    | some name =>
      have hedit := hasEntry_edit (e := e) h hhandle
      have hspares : Spares entrySize d ⟨fs, .at (some name)⟩ (.edit e) ↔
          ¬ e.Removes fs.iNodeManager d name := by
        constructor
        · exact fun hall => hall name rfl
        · rintro hnot _ ⟨⟩
          exact hnot
      rw [hspares, ← hedit]
      show Progress.Designates d ⟨fs', if HasEntry fs'.iNodeManager d name then _ else _⟩ ↔ _
      split
      · exact Iff.rfl
      · rename_i hgone
        exact iff_of_false id hgone
  | lost => exact absurd h id

theorem designates_step (s : Progress) (a : Action) (s' : Progress) (h : s.Designates d)
    (hstep : step entrySize d s a = some s') : s'.Designates d ↔ Spares entrySize d s a := by
  cases a with
  | readDir size => exact designates_readDir h hstep
  | edit e => exact designates_edit h hstep

end Step

/-! ### Runs -/

section Runs

variable {entrySize : Name → ℕ} {d : ℕ}

/-- A lost iterator stays lost. -/
theorem lost_step {s s' : Progress} {a : Action} (h : s.saved = .lost) (hstep : step entrySize d s a = some s') :
    s'.saved = .lost := by
  obtain ⟨fs, saved⟩ := s
  obtain rfl : saved = .lost := h
  cases a with
  | readDir size =>
    rw [step, Progress.fill] at hstep
    cases hdir : fs.iNodeManager.directoryAt d with
    | none =>
      rw [hdir] at hstep
      obtain rfl := Option.some.inj hstep
      rfl
    | some dir =>
      rw [hdir] at hstep
      obtain rfl := Option.some.inj hstep
      rfl
  | edit e =>
    obtain ⟨r, -, rfl⟩ := Option.map_eq_some_iff.mp hstep
    rfl

/-- After a step the iterator is at a child or the end, or it is lost. -/
theorem designates_or_lost {s s' : Progress} {a : Action} (h : s.Designates d)
    (hstep : step entrySize d s a = some s') : s'.Designates d ∨ s'.saved = .lost := by
  cases a with
  | readDir size =>
    rw [step] at hstep
    cases hfill : s.fill entrySize d size with
    | none =>
      rw [hfill] at hstep
      obtain rfl := Option.some.inj hstep
      exact Or.inl h
    | some filled =>
      rw [hfill] at hstep
      cases filled with
      | sent entries iterator =>
        obtain rfl := Option.some.inj hstep
        left
        cases iterator with
        | none => trivial
        | some name =>
          show HasEntry s.fs.iNodeManager d name
          exact hasEntry_of_fill hfill
      | beforeFirst =>
        obtain rfl := Option.some.inj hstep
        exact Or.inr rfl
      | outside => cases hstep
  | edit e =>
    obtain ⟨⟨fs', replies⟩, -, rfl⟩ := Option.map_eq_some_iff.mp hstep
    cases hsaved : s.saved with
    | null => exact Or.inl trivial
    | «at» iterator =>
      cases iterator with
      | none => exact Or.inl trivial
      | some name =>
        show Progress.Designates d ⟨fs', if HasEntry fs'.iNodeManager d name then _ else _⟩ ∨
          (if HasEntry fs'.iNodeManager d name then _ else _) = _
        split
        · exact Or.inl ‹_›
        · exact Or.inr rfl
    | lost => exact Or.inr rfl

/-- A call that loses the iterator has taken it back from the first child. -/
theorem fill_of_lost {s s' : Progress} {size : ℕ} (h : s.Designates d)
    (hstep : step entrySize d s (.readDir size) = some s') (hlost : s'.saved = .lost) :
    s.fill entrySize d size = some .beforeFirst := by
  rw [step] at hstep
  cases hfill : s.fill entrySize d size with
  | none =>
    rw [hfill] at hstep
    obtain rfl := Option.some.inj hstep
    rw [Progress.Designates, hlost] at h
    exact absurd h id
  | some filled =>
    rw [hfill] at hstep
    cases filled with
    | sent entries iterator =>
      obtain rfl := Option.some.inj hstep
      cases hlost
    | beforeFirst => rfl
    | outside => cases hstep

theorem safe_of_spares {s : Progress} {a : Action} (h : s.Designates d) (hspares : Spares entrySize d s a) :
    Safe entrySize d s a := by
  cases a with
  | readDir size =>
    refine ⟨h, fun hfill => ?_⟩
    have hstep : step entrySize d s (.readDir size) = some { s with saved := .lost } := by
      rw [step, hfill]
      rfl
    exact (designates_readDir h hstep).mpr hspares
  | edit e => trivial

theorem not_survives_of_lost {s t : Progress} {actions : List Action} {size : ℕ} (h : s.saved = .lost)
    (hrun : run (step entrySize d) s (actions ++ [.readDir size]) = some t) :
    ¬ Survives entrySize d s (actions ++ [.readDir size]) := by
  induction actions generalizing s with
  | nil =>
    rintro ⟨⟨hdesignates, -⟩, -⟩
    rw [Progress.Designates, h] at hdesignates
    exact hdesignates
  | cons a actions ih =>
    obtain ⟨s₁, hs₁, hrest⟩ := Option.bind_eq_some_iff.mp hrun
    exact fun hsafe => ih (lost_step h hs₁) hrest (hsafe.2 s₁ hs₁)

theorem spares_of_survives {s t : Progress} {actions : List Action} {size : ℕ} (h : s.Designates d)
    (hrun : run (step entrySize d) s (actions ++ [.readDir size]) = some t)
    (hsafe : Survives entrySize d s (actions ++ [.readDir size])) :
    Along (step entrySize d) (Spares entrySize d) s (actions ++ [.readDir size]) := by
  induction actions generalizing s with
  | nil =>
    obtain ⟨s₁, hs₁, -⟩ := Option.bind_eq_some_iff.mp hrun
    refine Along.cons ((designates_step s _ s₁ h hs₁).mp ?_) hs₁ trivial
    rcases designates_or_lost h hs₁ with hdesignates | hlost
    · exact hdesignates
    · exact absurd (fill_of_lost h hs₁ hlost) hsafe.1.2
  | cons a actions ih =>
    obtain ⟨s₁, hs₁, hrest⟩ := Option.bind_eq_some_iff.mp hrun
    rcases designates_or_lost h hs₁ with hdesignates | hlost
    · exact Along.cons ((designates_step s a s₁ h hs₁).mp hdesignates) hs₁
        (ih hdesignates hrest (hsafe.2 s₁ hs₁))
    · exact absurd (hsafe.2 s₁ hs₁) (not_survives_of_lost hlost hrest)

/-- **A listing survives the requests between its calls when, and only when, they spare the child that the
iterator is at, and each call that starts with the first child has room for it.** -/
theorem survives_iff {fs : FileSystem} {t : Progress} {actions : List Action} {size : ℕ}
    (hrun : run (step entrySize d) ⟨fs, .null⟩ (actions ++ [.readDir size]) = some t) :
    Survives entrySize d ⟨fs, .null⟩ (actions ++ [.readDir size]) ↔
      Along (step entrySize d) (Spares entrySize d) ⟨fs, .null⟩ (actions ++ [.readDir size]) := by
  constructor
  · exact spares_of_survives trivial hrun
  · intro hspares
    refine along_of_invariant (I := Progress.Designates d) (fun s a s' h hok hstep => ?_)
      (fun s a h hok => safe_of_spares h hok) trivial hspares
    exact (designates_step s a s' h hstep).mpr hok

/-- A child behind the iterator is removed, and one is added. -/
theorem survives_iff_spared : Survives direntSize 1 ⟨mounted ⟨0, 0⟩, .null⟩
    ([.edit (.create ⟨0, 0⟩ [97] 0), .edit (.mkdir (List.replicate 200 98)),
      .edit (.mkdir (List.replicate 200 99)), .readDir 4096, .edit (.unlink [97]),
      .edit (.create ⟨0, 0⟩ [97] 0), .readDir 4096, .edit (.moveOut [97] 1 [98])] ++ [.readDir 4096]) := by
  have hrun : (run (step direntSize 1) ⟨mounted ⟨0, 0⟩, .null⟩
      ([.edit (.create ⟨0, 0⟩ [97] 0), .edit (.mkdir (List.replicate 200 98)),
        .edit (.mkdir (List.replicate 200 99)), .readDir 4096, .edit (.unlink [97]),
        .edit (.create ⟨0, 0⟩ [97] 0), .readDir 4096, .edit (.moveOut [97] 1 [98])] ++
          [.readDir 4096])).isSome = true := by decide +kernel
  obtain ⟨t, ht⟩ := Option.isSome_iff_exists.mp hrun
  exact (survives_iff ht).mpr (by decide +kernel)

/-- Every child is removed once it has been listed, as when a tree is removed. -/
theorem not_survives_removed : ¬ Survives direntSize 1 ⟨mounted ⟨0, 0⟩, .null⟩
    ([.edit (.create ⟨0, 0⟩ (List.replicate 200 97) 0), .edit (.create ⟨0, 0⟩ (List.replicate 200 98) 0),
      .readDir 4096, .edit (.unlink (List.replicate 200 97))] ++ [.readDir 4096]) := by
  unfold Survives
  decide +kernel

end Runs

end DagonFs.Listing
