import DagonFs.Lib.Runs
import DagonFs.PeerToPeer.Operations

/-!
# The absolute names that directories keep

`FuseMkdir` computes the absolute name of a directory once, from the one of its parent.  `NamesTrue` says
that every directory that can be reached from the root keeps the path that leads to it.

* `Named` is what carries this: each entry of a directory extends the name of the directory.
* `onView_named`: every handler keeps it, unless it makes a directory by `FuseMknod` or renames one to
  where its name does not say (`KeepsNames`).
* `namesTrue_of_run`: so the names are true along every run of such calls, and every announcement is made
  of the path of the entry that has changed.
-/

namespace DagonFs.PeerToPeer

open DagonFs.Lib.Runs DagonFs.FileSystem

namespace Tree

/-- Entries are in directories, and the table has the inodes that they name. -/
structure Valid (t : Tree) : Prop where
  directory : ∀ (d : ℕ) (name : Name) (x : ℕ), (t.children d)[name]? = some x → t.isDirectory d = true
  entry : ∀ (d : ℕ) (name : Name) (x : ℕ), (t.children d)[name]? = some x → x < t.size
  lt_size : ∀ d, t.isDirectory d = true → d < t.size

/-- `"/"` for the root, `"/n1/.../nk/"` below it. -/
def path (names : List Name) : Name := slash :: names.flatMap (· ++ [slash])

/-- A directory that is found under some names keeps the path they make. -/
def NamesTrue (t : Tree) : Prop :=
  ∀ names x, t.walk rootINode names = some x → t.isDirectory x = true → t.dirName x = path names

/-- Each subdirectory extends the name of the directory by its own. -/
structure Named (t : Tree) : Prop where
  root : t.dirName rootINode = [slash]
  child : ∀ (d : ℕ) (name : Name) (x : ℕ), (t.children d)[name]? = some x → t.isDirectory x = true →
    t.dirName x = t.dirName d ++ name ++ [slash]

theorem path_snoc (names : List Name) (name : Name) :
    path (names ++ [name]) = path names ++ name ++ [slash] := by
  simp [path]

theorem walk_snoc {t : Tree} {names : List Name} {name : Name} {x y : ℕ}
    (h : t.walk x (names ++ [name]) = some y) :
    ∃ d, t.walk x names = some d ∧ (t.children d)[name]? = some y := by
  rw [walk_append] at h
  obtain ⟨d, hd, hy⟩ := Option.bind_eq_some_iff.mp h
  refine ⟨d, hd, ?_⟩
  obtain ⟨z, hz, hend⟩ := Option.bind_eq_some_iff.mp hy
  rw [hz]
  exact hend

/-- **The names are true** where each one extends the one above. -/
theorem Named.namesTrue {t : Tree} (hvalid : t.Valid) (h : t.Named) : t.NamesTrue := by
  intro names
  induction names using List.reverseRecOn with
  | nil =>
    intro x hwalk hdir
    obtain rfl := Option.some.inj hwalk
    rw [h.root]
    rfl
  | append_singleton names name ih =>
    intro x hwalk hdir
    obtain ⟨d, hd, hentry⟩ := walk_snoc hwalk
    rw [h.child d name x hentry hdir, ih d hd (hvalid.directory d name x hentry), path_snoc]

section Operations

variable {t : Tree} {parent newparent x : ℕ} {name newname : Name}

/-! ### Entries after an operation -/

theorem getElem?_setEntry (t : Tree) (parent : ℕ) (name : Name) (x d : ℕ) (k : Name) :
    ((t.setEntry parent name x).children d)[k]? =
      if d = parent ∧ k = name then some x else (t.children d)[k]? := by
  by_cases hd : d = parent
  · subst hd
    simp only [setEntry, Function.update_self, true_and]
    rw [Std.ExtTreeMap.getElem?_insert]
    by_cases hk : k = name
    · subst hk
      simp
    · simp [hk, Ne.symm hk]
  · simp [setEntry, hd]

/-- What is left was there. -/
theorem getElem?_of_remove {d y : ℕ} {k : Name}
    (h : ((t.remove parent name).children d)[k]? = some y) :
    (t.children d)[k]? = some y ∧ ¬ (d = parent ∧ k = name) := by
  by_cases hd : d = parent
  · subst hd
    simp only [remove, Function.update_self, Std.ExtTreeMap.getElem?_erase] at h
    by_cases hk : k = name
    · subst hk
      simp at h
    · exact ⟨by simpa [Ne.symm hk] using h, fun hboth => hk hboth.2⟩
  · exact ⟨by simpa [remove, hd] using h, fun hboth => hd hboth.1⟩

/-! ### What stays valid -/

theorem Valid.make (h : t.Valid) (hparent : t.isDirectory parent = true) (name : Name)
    (directory : Bool) : (t.make parent name directory).Valid := by
  have hold : ∀ d, t.isDirectory d = true → (t.make parent name directory).isDirectory d = true := by
    intro d hd
    have hne : d ≠ t.size := Nat.ne_of_lt (h.lt_size d hd)
    simpa only [Tree.make, Function.update_of_ne hne] using hd
  constructor
  · intro d k y hy
    rw [children_make] at hy
    split at hy
    · rename_i hnew
      rw [hnew.1]
      exact hold parent hparent
    · exact hold d (h.directory d k y hy)
  · intro d k y hy
    show y < t.size + 1
    rw [children_make] at hy
    split at hy
    · rw [← Option.some.inj hy]
      exact Nat.lt_succ_self _
    · exact (h.entry d k y hy).trans (Nat.lt_succ_self _)
  · intro d hd
    show d < t.size + 1
    by_cases hne : d = t.size
    · rw [hne]
      exact Nat.lt_succ_self _
    · simp only [Tree.make, Function.update_of_ne hne] at hd
      exact (h.lt_size d hd).trans (Nat.lt_succ_self _)

theorem Valid.setEntry (h : t.Valid) (hparent : t.isDirectory parent = true) (hx : x < t.size)
    (name : Name) : (t.setEntry parent name x).Valid := by
  constructor
  · intro d k y hy
    rw [getElem?_setEntry] at hy
    split at hy
    · rename_i hnew
      rw [hnew.1]
      exact hparent
    · exact h.directory d k y hy
  · intro d k y hy
    rw [getElem?_setEntry] at hy
    split at hy
    · rw [← Option.some.inj hy]
      exact hx
    · exact h.entry d k y hy
  · exact h.lt_size

theorem Valid.remove (h : t.Valid) (parent : ℕ) (name : Name) : (t.remove parent name).Valid :=
  ⟨fun d k y hy => h.directory d k y (getElem?_of_remove hy).1,
    fun d k y hy => h.entry d k y (getElem?_of_remove hy).1, h.lt_size⟩

/-- Whatever an operation does, the entries stay in the table. -/
theorem Valid.onView {v v' : View} {op : Operation} (h : v.tree.Valid) (hv : op.onView v = some v') :
    v'.tree.Valid := by
  rcases Operation.onView_cases hv with ⟨parent, name, kind, -, hparent, rfl⟩ |
    ⟨parent, name, x, -, rfl⟩ | ⟨parent, name, newparent, newname, x, -, hentry, hnew, rfl⟩
  · exact h.make hparent name _
  · exact h.remove parent name
  · exact (h.setEntry hnew (h.entry parent name x hentry) newname).remove parent name

/-! ### What stays named -/

theorem Named.make (hvalid : t.Valid) (h : t.Named) (hparent : t.isDirectory parent = true)
    (hroot : rootINode < t.size) (name : Name) (directory : Bool) :
    (t.make parent name directory).Named := by
  have hold : ∀ d, d < t.size → (t.make parent name directory).dirName d = t.dirName d :=
    fun d hd => Function.update_of_ne (Nat.ne_of_lt hd) _ _
  constructor
  · rw [hold rootINode hroot]
    exact h.root
  · intro d k y hy hdir
    rw [children_make] at hy
    split at hy
    · rename_i hnew
      obtain rfl := Option.some.inj hy
      simp only [Tree.make, Function.update_self] at hdir
      rw [hnew.1, hold parent (hvalid.lt_size parent hparent), hnew.2]
      simp [Tree.make, hdir]
    · have hlt := hvalid.entry d k y hy
      simp only [Tree.make, Function.update_of_ne (Nat.ne_of_lt hlt)] at hdir
      rw [hold y hlt, hold d (hvalid.lt_size d (hvalid.directory d k y hy))]
      exact h.child d k y hy hdir

theorem Named.remove (h : t.Named) (parent : ℕ) (name : Name) : (t.remove parent name).Named :=
  ⟨h.root, fun d k y hy => h.child d k y (getElem?_of_remove hy).1⟩

/-- A move keeps the names true when what is moved is no directory, or has its new name already; or the
entry is only removed, the new name being the old one. -/
theorem Named.move (h : t.Named) (hx : t.isDirectory x = true → (newparent, newname) = (parent, name) ∨
    t.dirName x = t.dirName newparent ++ newname ++ [slash]) :
    (t.move parent name newparent newname x).Named := by
  refine ⟨h.root, ?_⟩
  intro d k y hy hdir
  obtain ⟨hentry, hkept⟩ := getElem?_of_remove hy
  rw [getElem?_setEntry] at hentry
  split at hentry
  · rename_i hnew
    obtain ⟨rfl, rfl⟩ := hnew
    obtain rfl := Option.some.inj hentry
    rcases hx hdir with hsame | hname
    · exact absurd (Prod.mk.inj hsame) hkept
    · exact hname
  · exact h.child d k y hentry hdir

end Operations

end Tree

/-! ### The calls -/

/-- The condition on a call: it makes no directory by `FuseMknod`, and a directory that it renames stays
where it is or goes to where its name says. -/
def Tree.KeepsNames (t : Tree) : Call → Prop
  | .mknod _ parent name mode => sIsdir mode = true → t.isDirectory parent = true →
      kMaxFilenameLength < name.length
  | .told (.rename parent name newparent newname) => ∀ x ∈ (t.children parent)[name]?,
      t.isDirectory newparent = true → t.isDirectory x = true →
        (newparent, newname) = (parent, name) ∨ t.dirName x = t.dirName newparent ++ newname ++ [slash]
  | .told _ => True

instance (t : Tree) : DecidablePred t.KeepsNames
  | .mknod _ parent name mode => inferInstanceAs (Decidable (sIsdir mode = true →
      t.isDirectory parent = true → kMaxFilenameLength < name.length))
  | .told (.rename parent name newparent newname) =>
    inferInstanceAs (Decidable (∀ x ∈ (t.children parent)[name]?, t.isDirectory newparent = true →
      t.isDirectory x = true → (newparent, newname) = (parent, name) ∨
        t.dirName x = t.dirName newparent ++ newname ++ [slash]))
  | .told (.create ..) => isTrue trivial
  | .told (.mkdir ..) => isTrue trivial
  | .told (.unlink ..) => isTrue trivial
  | .told (.rmdir ..) => isTrue trivial

/-- What every call keeps that meets the condition. -/
structure Tree.Kept (t : Tree) : Prop where
  valid : t.Valid
  named : t.Named
  root : FileSystem.rootINode < t.size

namespace Tree.Kept

variable {t : Tree} {parent newparent x : ℕ} {name newname : Name}

theorem make (h : t.Kept) (hparent : t.isDirectory parent = true) (name : Name) (directory : Bool) :
    (t.make parent name directory).Kept :=
  ⟨h.valid.make hparent name directory, h.named.make h.valid hparent h.root name directory,
    h.root.trans (Nat.lt_succ_self _)⟩

theorem remove (h : t.Kept) (parent : ℕ) (name : Name) : (t.remove parent name).Kept :=
  ⟨h.valid.remove parent name, h.named.remove parent name, h.root⟩

/-- **What a call that meets the condition keeps.** -/
theorem onView {v v' : View} {c : Call} (h : v.tree.Kept) (hkeeps : v.tree.KeepsNames c)
    (hv : c.onView v = some v') : v'.tree.Kept := by
  cases c with
  | mknod ctx parent name mode =>
    simp only [Call.onView, View.mknod] at hv
    split at hv
    · rename_i hchecked
      split at hv
      · rename_i hmode
        exact absurd hchecked.2 (Nat.not_le.mpr (hkeeps hmode hchecked.1))
      · split at hv
        · obtain rfl := Option.some.inj hv
          exact h.make hchecked.1 name false
        · cases hv
    · cases hv
  | told op =>
    rcases Operation.onView_cases hv with ⟨parent, name, kind, -, hparent, rfl⟩ |
      ⟨parent, name, x, -, rfl⟩ | ⟨parent, name, newparent, newname, x, rfl, hentry, hnew, rfl⟩
    · exact h.make hparent name _
    · exact h.remove parent name
    · have hx := h.valid.entry parent name x hentry
      exact ⟨(h.valid.setEntry hnew hx newname).remove parent name,
        h.named.move (hkeeps x hentry hnew), h.root⟩

end Tree.Kept

/-! ### The announcements -/

/-- What an operation is announced as, from the names before it. -/
def Operation.announcement (t : Tree) : Operation → Request
  | .create _ parent name _ => .createFile (t.dirName parent ++ name)
  | .unlink parent name => .deleteFile (t.dirName parent ++ name)
  | .mkdir parent name => .createDir (t.dirName parent ++ name ++ [slash])
  | .rmdir parent name => .deleteDir (((t.children parent)[name]?).elim [] t.dirName)
  | .rename parent name newparent newname =>
    .rename (t.dirName parent ++ name) (t.dirName newparent ++ newname)

/-- The announcement is made of the path of the entry that the operation changes. -/
def Tree.Tells (t : Tree) (request : Request) : Operation → Prop
  | .create _ parent name _ => ∀ names, t.walk rootINode names = some parent →
      request = .createFile (path names ++ name)
  | .unlink parent name => ∀ names, t.walk rootINode names = some parent →
      request = .deleteFile (path names ++ name)
  | .mkdir parent name => ∀ names, t.walk rootINode names = some parent →
      request = .createDir (path (names ++ [name]))
  | .rmdir parent name => ∀ names, t.walk rootINode names = some parent →
      request = .deleteDir (path (names ++ [name]))
  | .rename parent name newparent newname => ∀ names newnames,
      t.walk rootINode names = some parent → t.walk rootINode newnames = some newparent →
        request = .rename (path names ++ name) (path newnames ++ newname)

namespace Replica

variable {r r' : Replica} {o : Outcome}

/-- Nothing is queued for reuse, and the tree is in order. -/
structure Kept (r : Replica) : Prop where
  queue : r.fs.iNodeManager.deletedINodes = []
  tree : r.tree.Kept

theorem Kept.steady (h : r.Kept) : Steady r := ⟨h.queue, h.tree.valid.entry⟩

theorem kept_mounted (process : Ids) : (Replica.mounted process).Kept := by
  have hnone : ∀ (d : ℕ) (name : Name) (x : ℕ),
      ((Replica.mounted process).tree.children d)[name]? ≠ some x := by
    intro d name x hx
    match d with
    | 0 => exact Option.some_ne_none x (hx.symm.trans Std.ExtTreeMap.getElem?_empty)
    | 1 => exact Option.some_ne_none x (hx.symm.trans Std.ExtTreeMap.getElem?_empty)
    | d + 2 => exact Option.some_ne_none x (hx.symm.trans Std.ExtTreeMap.getElem?_empty)
  have hdirs : ∀ d, (Replica.mounted process).tree.isDirectory d = true → d < 2 := by
    intro d hd
    match d with
    | 0 => exact Nat.two_pos
    | 1 => exact Nat.one_lt_two
    | d + 2 => cases hd
  refine ⟨rfl, ⟨?_, ?_, hdirs⟩, ⟨rfl, ?_⟩, Nat.one_lt_two⟩ <;>
    · intro d name x hx
      exact absurd hx (hnone d name x)

/-- **The step lemma.** -/
theorem kept_step {c : Call} (h : r.Kept) (hkeeps : r.tree.KeepsNames c)
    (hstep : r.performStep c = some r') : r'.Kept := by
  obtain ⟨o, ho, rfl⟩ := Option.map_eq_some_iff.mp hstep
  have hdone := perform_performs h.steady ho
  cases hv : c.onView r.view with
  | none =>
    rw [hv] at hdone
    rw [hdone.2]
    exact h
  | some v =>
    rw [hv] at hdone
    obtain ⟨-, hview, hqueue⟩ := hdone
    refine ⟨hqueue.trans h.queue, ?_⟩
    have htree : o.replica.tree = v.tree := congrArg View.tree hview
    rw [htree]
    exact h.tree.onView (v := r.view) hkeeps hv

/-- What a handler sends is the announcement of what it has done. -/
theorem sent_of_handle {op : Operation} {request : Request} (ho : r.handle op = some o)
    (hsent : request ∈ o.sent) :
    o.succeeded = true ∧ request = op.request r.fs o.replica.fs := by
  have hannounced := handle_announced ho
  cases hs : o.succeeded with
  | false =>
    rw [(hannounced.failed hs).2] at hsent
    cases hsent
  | true =>
    refine ⟨rfl, ?_⟩
    cases hflag : r.fromThread op.type with
    | true =>
      rw [hannounced.replayed hs hflag] at hsent
      cases hsent
    | false =>
      rw [hannounced.told hs hflag] at hsent
      exact List.mem_singleton.mp hsent

/-- The announcement is what the tree before the operation says. -/
theorem request_eq_announcement (h : Steady r) (hvalid : r.tree.Valid) {op : Operation}
    (ho : r.handle op = some o) (hsucceeded : o.succeeded = true) :
    op.request r.fs o.replica.fs = op.announcement r.tree := by
  have hdone := handle_performs h ho
  cases hv : op.onView r.view with
  | none =>
    rw [hv] at hdone
    rw [hdone.1] at hsucceeded
    cases hsucceeded
  | some v =>
    rw [hv] at hdone
    obtain ⟨-, hview, -⟩ := hdone
    have hname : o.replica.fs.iNodeManager.dirNameOf = v.tree.dirName :=
      congrArg (fun v => v.tree.dirName) hview
    have hchildren : o.replica.fs.iNodeManager.childrenOf = v.tree.children :=
      congrArg (fun v => v.tree.children) hview
    cases op with
    | create ctx parent name flags =>
      simp only [Operation.onView] at hv
      split at hv
      · rename_i hchecked
        obtain rfl := Option.some.inj hv
        have hsame : (r.tree.make parent name false).dirName parent = r.tree.dirName parent :=
          Function.update_of_ne (Nat.ne_of_lt (hvalid.lt_size parent hchecked.1)) _ _
        rw [Operation.request, Operation.announcement, hname, ← hsame]
        rfl
      · cases hv
    | mkdir parent name =>
      simp only [Operation.onView] at hv
      split at hv
      · obtain rfl := Option.some.inj hv
        have hnew : ((r.tree.make parent name true).children parent)[name]? = some r.tree.size := by
          rw [Tree.children_make, if_pos ⟨rfl, rfl⟩]
        have hdirName : (r.tree.make parent name true).dirName r.tree.size =
            r.tree.dirName parent ++ name ++ [slash] := by
          simp [Tree.make]
        rw [Operation.request, Operation.announcement, hname, hchildren, ← hdirName]
        show Request.createDir ((((r.tree.make parent name true).children parent)[name]?).elim []
          (r.tree.make parent name true).dirName) = _
        rw [hnew, Option.elim_some]
      · cases hv
    | unlink parent name =>
      obtain ⟨x, -, rfl⟩ := Option.map_eq_some_iff.mp hv
      rw [Operation.request, hname]
      rfl
    | rmdir parent name =>
      obtain ⟨x, -, hv⟩ := Option.bind_eq_some_iff.mp hv
      split at hv
      · obtain rfl := Option.some.inj hv
        rw [Operation.request, hname]
        rfl
      · cases hv
    | rename parent name newparent newname =>
      obtain ⟨x, -, hv⟩ := Option.bind_eq_some_iff.mp hv
      split at hv
      · obtain rfl := Option.some.inj hv
        rw [Operation.request, hname]
        rfl
      · cases hv

/-- **An announcement is made of the path** of the entry that has changed. -/
theorem Kept.tells (h : r.Kept) {op : Operation} {request : Request} (ho : r.handle op = some o)
    (hsent : request ∈ o.sent) : r.tree.Tells request op := by
  obtain ⟨hsucceeded, rfl⟩ := sent_of_handle ho hsent
  rw [request_eq_announcement h.steady h.tree.valid ho hsucceeded]
  have hpath := h.tree.named.namesTrue h.tree.valid
  have hdone := handle_performs h.steady ho
  cases hv : op.onView r.view with
  | none =>
    rw [hv] at hdone
    rw [hdone.1] at hsucceeded
    cases hsucceeded
  | some v =>
    cases op with
    | create ctx parent name flags =>
      simp only [Operation.onView] at hv
      split at hv
      · rename_i hchecked
        intro names hwalk
        rw [Operation.announcement, hpath names parent hwalk hchecked.1]
      · cases hv
    | mkdir parent name =>
      simp only [Operation.onView] at hv
      split at hv
      · rename_i hparent
        intro names hwalk
        rw [Operation.announcement, hpath names parent hwalk hparent, Tree.path_snoc]
      · cases hv
    | unlink parent name =>
      obtain ⟨x, hx, -⟩ := Option.map_eq_some_iff.mp hv
      intro names hwalk
      rw [Operation.announcement, hpath names parent hwalk (h.tree.valid.directory parent name x hx)]
    | rmdir parent name =>
      obtain ⟨x, hx, hv⟩ := Option.bind_eq_some_iff.mp hv
      have hentry : (r.tree.children parent)[name]? = some x := hx
      split at hv
      · rename_i hdir
        intro names hwalk
        have hfound : r.tree.walk FileSystem.rootINode (names ++ [name]) = some x := by
          rw [Tree.walk_append, hwalk]
          show ((r.tree.children parent)[name]?).bind _ = _
          rw [hentry]
          rfl
        rw [Operation.announcement, hentry, Option.elim_some, hpath _ x hfound hdir.1]
      · cases hv
    | rename parent name newparent newname =>
      obtain ⟨x, hx, hv⟩ := Option.bind_eq_some_iff.mp hv
      split at hv
      · rename_i hnew
        intro names newnames hwalk hnewwalk
        rw [Operation.announcement, hpath names parent hwalk (h.tree.valid.directory parent name x hx),
          hpath newnames newparent hnewwalk hnew]
      · cases hv

/-- **The names that directories keep are true paths** along every run whose calls meet the condition,
and so are the paths of the announcements. -/
theorem namesTrue_of_run (process : Ids) (calls : List Call) (r : Replica)
    (hkeeps : Along performStep (fun r c => r.tree.KeepsNames c) (Replica.mounted process) calls)
    (hrun : run performStep (Replica.mounted process) calls = some r) :
    r.tree.NamesTrue ∧ ∀ op o, r.handle op = some o → ∀ request ∈ o.sent, r.tree.Tells request op := by
  have hkept : r.Kept := by
    refine invariant_run (I := Kept) ?_ (kept_mounted process) hkeeps hrun
    intro s c s' hs hok hstep
    exact kept_step hs hok hstep
  refine ⟨hkept.tree.named.namesTrue hkept.tree.valid, ?_⟩
  intro op o ho request hsent
  exact hkept.tells ho hsent

/-- A directory, and a file moved into it. -/
theorem namesTrue_of_run_moved : ∃ r, run performStep (Replica.mounted ⟨0, 0⟩)
      [.told (.mkdir 1 [97]), .told (.create ⟨0, 0⟩ 1 [98] 0), .told (.rename 1 [98] 2 [99])] = some r ∧
    r.tree.NamesTrue ∧ r.tree.dirName 2 = [47, 97, 47] := by
  have hname : (run performStep (Replica.mounted ⟨0, 0⟩)
      [.told (.mkdir 1 [97]), .told (.create ⟨0, 0⟩ 1 [98] 0), .told (.rename 1 [98] 2 [99])]).map
        (fun r => r.tree.dirName 2) = some [47, 97, 47] := by decide +kernel
  have hkeeps : Along performStep (fun r c => r.tree.KeepsNames c) (Replica.mounted ⟨0, 0⟩)
      [.told (.mkdir 1 [97]), .told (.create ⟨0, 0⟩ 1 [98] 0), .told (.rename 1 [98] 2 [99])] := by
    decide +kernel
  obtain ⟨r, hrun, hr⟩ := Option.map_eq_some_iff.mp hname
  exact ⟨r, hrun, (namesTrue_of_run ⟨0, 0⟩ _ r hkeeps hrun).1, hr⟩

/-- **A stale name.**  A renamed directory keeps its first name. -/
theorem not_namesTrue_of_run : ¬ ∀ (process : Ids) (calls : List Call) (r : Replica),
    run performStep (Replica.mounted process) calls = some r → r.tree.NamesTrue ∧
      ∀ op o, r.handle op = some o → ∀ request ∈ o.sent, r.tree.Tells request op := by
  intro h
  have hfacts : (run performStep (Replica.mounted ⟨0, 0⟩)
      [.told (.mkdir 1 [97]), .told (.rename 1 [97] 1 [98])]).map (fun r =>
        (r.tree.walk FileSystem.rootINode [[98]], r.tree.isDirectory 2, r.tree.dirName 2)) =
      some (some 2, true, [47, 97, 47]) := by decide +kernel
  obtain ⟨r, hrun, hr⟩ := Option.map_eq_some_iff.mp hfacts
  obtain ⟨hwalk, hrest⟩ := Prod.mk.inj hr
  obtain ⟨hdir, hname⟩ := Prod.mk.inj hrest
  have htrue := (h ⟨0, 0⟩ _ r hrun).1 [[98]] 2 hwalk hdir
  rw [hname] at htrue
  exact absurd htrue (by decide)

end Replica

end DagonFs.PeerToPeer
