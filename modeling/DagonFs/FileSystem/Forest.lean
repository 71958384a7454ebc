import DagonFs.FileSystem.Reclaim
import DagonFs.Lib.Digraph

/-!
# The directories form a forest

The kernel moves no directory below itself: it looks down from the directory for the new parent
(`inSubtree`).  That keeps the entries free of cycles (`acyclic_change`), and a table without cycles is one in
which the kernel's look down finds all that is there (`inSubtree_iff`).

`forest_of_run`: after any run of the kernel's requests every directory is at the end of exactly one path
from a directory that has no name itself, the root or one that was removed.
-/

namespace DagonFs

open DagonFs.Nodes DagonFs.Lib.Runs DagonFs.Lib.Digraph Relation

namespace Nodes

/-- `x` has a name in `d`. -/
def HasChild (ns : Nodes) (d x : ℕ) : Prop := ∃ name : Name, (ns.childrenOf d)[name]? = some x

/-- The inode at the end of a path of names. -/
def walk (ns : Nodes) : ℕ → List Name → Option ℕ
  | x, [] => some x
  | x, name :: names => ((ns.childrenOf x)[name]?).bind fun y => walk ns y names

variable {ns : Nodes} {x y d p p' : ℕ} {name name' : Name}

theorem walk_append (x : ℕ) (names names' : List Name) :
    ns.walk x (names ++ names') = (ns.walk x names).bind fun y => ns.walk y names' := by
  induction names generalizing x with
  | nil => rfl
  | cons name names ih =>
    simp only [List.cons_append, walk, Option.bind_assoc]
    exact congrArg _ (funext ih)

theorem walk_singleton (x : ℕ) (name : Name) : ns.walk x [name] = (ns.childrenOf x)[name]? :=
  Option.bind_fun_some _

/-- Counts and marks are no part of it. -/
theorem SameEntries.hasChild {ns ns' : Nodes} (h : ns.SameEntries ns') : ns'.HasChild = ns.HasChild := by
  funext d x
  rw [HasChild, HasChild, h.1]

/-- What is below an inode is at the end of a path. -/
theorem exists_walk (h : ReflTransGen ns.HasChild x y) : ∃ path, ns.walk x path = some y := by
  induction h with
  | refl => exact ⟨[], rfl⟩
  | tail _ hedge ih =>
    obtain ⟨path, hpath⟩ := ih
    obtain ⟨name, hname⟩ := hedge
    refine ⟨path ++ [name], ?_⟩
    rw [walk_append, hpath, Option.bind_some, walk_singleton, hname]

theorem isDirectory_of_hasChild (h : ns.HasChild d x) : ns.isDirectory d = true := by
  obtain ⟨name, hname⟩ := h
  by_contra hdir
  rw [childrenOf_of_not_isDirectory ns (Bool.eq_false_of_not_eq_true hdir)] at hname
  simp at hname

/-- Below what is no directory there is nothing. -/
theorem eq_of_reflTransGen (hfile : ns.isDirectory x = false) (h : ReflTransGen ns.HasChild x y) :
    x = y := by
  rcases h.cases_head with heq | ⟨z, hedge, -⟩
  · exact heq
  · rw [isDirectory_of_hasChild hedge] at hfile
    cases hfile

/-- An inode with one name has it in one place. -/
theorem entry_unique (honce : ns.names x ≤ 1) (h : (ns.childrenOf p)[name]? = some x)
    (h' : (ns.childrenOf p')[name']? = some x) : p = p' ∧ name = name' := by
  by_contra hne
  have hp := isDirectory_of_hasChild ⟨name, h⟩
  -- the other entry would be left without the first one
  have hdrop := names_deleteChild hp h x
  rw [if_pos rfl] at hdrop
  have hzero : (ns.deleteChild p name).names x = 0 := by omega
  apply (names_eq_zero_iff _).mp hzero p' name'
  rw [getElem?_deleteChild hp, if_neg fun heq => hne ⟨heq.1.symm, heq.2.symm⟩]
  exact h'

end Nodes

namespace FileSystem

variable {ns ns₁ ns' : Nodes} {parent newparent ino x : ℕ} {name newname : Name} {i : INode}

/-! ### The kernel's look down -/

theorem reflTransGen_of_inSubtree {fuel q : ℕ} (h : inSubtree ns fuel x q = true) :
    ReflTransGen ns.HasChild x q := by
  induction fuel generalizing x with
  | zero => cases h
  | succ fuel ih =>
    rw [inSubtree, Bool.or_eq_true, beq_iff_eq, List.any_eq_true] at h
    rcases h with rfl | ⟨e, he, hsub⟩
    · exact ReflTransGen.refl
    · exact ReflTransGen.head ⟨e.1, Std.ExtTreeMap.mem_toList_iff_getElem?_eq_some.mp he⟩ (ih hsub)

/-- **The look down is exact** in a table without cycles: it goes as deep as the table is long. -/
theorem inSubtree_iff (h : Acyclic ns.HasChild) (hv : ns.EntriesValid) {q : ℕ}
    (hx : x < ns.iNodes.length) :
    inSubtree ns ns.iNodes.length x q = true ↔ ReflTransGen ns.HasChild x q := by
  have hS : ∀ a b, ns.HasChild a b → b ∈ Finset.range ns.iNodes.length := by
    intro a b hedge
    obtain ⟨name, hname⟩ := hedge
    exact Finset.mem_range.mpr (hv a name b hname)
  have hdeep : ∀ fuel y, height ns.HasChild (Finset.range ns.iNodes.length) y < fuel →
      ReflTransGen ns.HasChild y q → inSubtree ns fuel y q = true := by
    intro fuel
    induction fuel with
    | zero => exact fun y hlt => absurd hlt (Nat.not_lt_zero _)
    | succ fuel ih =>
      intro y hlt hpath
      rw [inSubtree, Bool.or_eq_true, beq_iff_eq, List.any_eq_true]
      rcases hpath.cases_head with heq | ⟨z, hedge, hrest⟩
      · exact Or.inl heq
      · have hless := height_lt h hS hedge
        obtain ⟨name, hname⟩ := hedge
        exact Or.inr ⟨(name, z), Std.ExtTreeMap.mem_toList_iff_getElem?_eq_some.mpr hname,
          ih z (by omega) hrest⟩
  constructor
  · exact reflTransGen_of_inSubtree
  · apply hdeep
    have hlt := height_lt_card (S := Finset.range ns.iNodes.length) h (Finset.mem_range.mpr hx)
    rwa [Finset.card_range] at hlt

/-! ### No change closes a cycle -/

theorem hasChild_of_deleteChild (hparent : ns.isDirectory parent = true) {a b : ℕ}
    (h : (ns.deleteChild parent name).HasChild a b) : ns.HasChild a b := by
  obtain ⟨k, hk⟩ := h
  rw [getElem?_deleteChild hparent] at hk
  exact ⟨k, (Option.ite_none_left_eq_some.mp hk).2⟩

theorem hasChild_of_updateChild (hparent : ns.isDirectory parent = true) {a b : ℕ}
    (h : (ns.updateChild parent name x).HasChild a b) : ns.HasChild a b ∨ a = parent ∧ b = x := by
  obtain ⟨k, hk⟩ := h
  rw [getElem?_updateChild hparent] at hk
  split at hk
  · rename_i hself
    exact Or.inr ⟨hself.1, (Option.some.inj hk).symm⟩
  · exact Or.inl ⟨k, hk⟩

/-- An entry closes no cycle when what it names does not lead to its directory. -/
theorem acyclic_updateChild (h : Acyclic ns.HasChild) (hparent : ns.isDirectory parent = true)
    (hback : ¬ ReflTransGen ns.HasChild x parent) (name : Name) :
    Acyclic (ns.updateChild parent name x).HasChild :=
  Acyclic.insert (fun _ _ => hasChild_of_updateChild hparent) h hback

theorem acyclic_deleteChild (h : Acyclic ns.HasChild) (hparent : ns.isDirectory parent = true)
    (name : Name) : Acyclic (ns.deleteChild parent name).HasChild :=
  h.mono fun _ _ => hasChild_of_deleteChild hparent

/-- What is below a new inode is nothing. -/
theorem acyclic_made (h : Acyclic ns.HasChild) (hparent : ns.isDirectory parent = true)
    (hreg : Registered ns ns₁ ino i) (hne : ino ≠ parent) (hi : i.children = ∅) :
    Acyclic (ns₁.updateChild parent name ino).HasChild := by
  have hold : Acyclic ns₁.HasChild := by
    refine h.mono fun a b hab => ?_
    obtain ⟨k, hk⟩ := hab
    exact ⟨k, (hreg.entry_of_entry hi hk).2⟩
  have hparent₁ : ns₁.isDirectory parent = true := hreg.isDirectory_parent hparent hne
  refine acyclic_updateChild hold hparent₁ ?_ name
  intro hpath
  rcases hpath.cases_head with heq | ⟨z, ⟨k, hk⟩, -⟩
  · exact hne heq
  · exact (hreg.entry_of_entry hi hk).1 rfl

/-- **No step closes a cycle.** -/
theorem acyclic_change {r : Request} (h : Acyclic ns.HasChild) (hv : ns.EntriesValid)
    (htree : TreeChecked ns r) (hchange : Change ns r ns') : Acyclic ns'.HasChild := by
  -- a directory that is moved does not lead to its new parent
  have hback : ∀ {parent newparent x name newname}, r = .rename parent name newparent newname →
      (ns.childrenOf parent)[name]? = some x → ns.isDirectory newparent = true →
      ¬ ReflTransGen ns.HasChild x newparent := by
    rintro parent newparent x name newname rfl hentry hnew hpath
    cases hdir : ns.isDirectory x with
    | false =>
      rw [eq_of_reflTransGen hdir hpath, hnew] at hdir
      cases hdir
    | true =>
      have hnot := (htree x hentry hdir).1
      rw [(inSubtree_iff h hv (lt_of_isDirectory _ hdir)).mpr hpath] at hnot
      cases hnot
  cases hchange with
  | refused => exact h
  | @looked parent name x hentry =>
    rw [(lookupINode_sameEntries ns x).hasChild]
    exact h
  | @queued ino k =>
    rw [((forget_sameEntries ns ino k).trans (deleteINode_sameEntries _ ino)).hasChild]
    exact h
  | @kept ino k =>
    rw [(forget_sameEntries ns ino k).hasChild]
    exact h
  | madeFile hmakes hparent hreg hne hfresh =>
    rw [(lookupINode_sameEntries _ _).hasChild]
    exact acyclic_made h hparent hreg hne hfresh.children
  | madeDirectory hmakes hparent hreg hne hfresh =>
    rw [((addHardLink_sameEntries _ _).trans (lookupINode_sameEntries _ _)).hasChild]
    exact acyclic_made h hparent hreg hne hfresh.children
  | @linked ino parent name hparent hino =>
    rw [((addHardLink_sameEntries _ _).trans (lookupINode_sameEntries _ _)).hasChild]
    refine acyclic_updateChild h hparent (fun hpath => ?_) name
    have hfile : ns.isDirectory ino = false := htree
    rw [eq_of_reflTransGen hfile hpath, hparent] at hfile
    cases hfile
  | unlinked hparent hentry =>
    rw [← (removeHardLink_sameEntries ns _).hasChild] at h
    exact acyclic_deleteChild h (by simpa using hparent) _
  | removed hparent hentry =>
    rw [← ((removeHardLink_sameEntries ns _).trans (removeAllHardLinks_sameEntries _ _)).hasChild] at h
    exact acyclic_deleteChild h (by simpa using hparent) _
  | @moved parent newparent x name newname hparent hentry hnew =>
    have hadded := acyclic_updateChild h hnew (hback rfl hentry hnew) newname
    exact acyclic_deleteChild hadded (by simpa using hparent) name
  | @replaced parent newparent x y name newname hparent hentry hnew =>
    have hsame := (removeHardLink_sameEntries ns parent).trans (addHardLink_sameEntries _ newparent)
    have hnew' : ((ns.removeHardLink parent).addHardLink newparent).isDirectory newparent = true := by
      rw [hsame.2.1]
      exact hnew
    have hadded := acyclic_updateChild (hsame.hasChild ▸ h) hnew'
      (hsame.hasChild ▸ hback rfl hentry hnew) newname
    exact acyclic_deleteChild hadded (by simpa using hparent) name

/-! ### Paths -/

/-- Without cycles every inode is below one that has no name. -/
theorem exists_path (h : Acyclic ns.HasChild) (x : ℕ) :
    ∃ top path, ns.names top = 0 ∧ ns.walk top path = some x := by
  have hS : ∀ a b, ns.HasChild a b → a ∈ Finset.range ns.iNodes.length := by
    intro a b hedge
    exact Finset.mem_range.mpr (lt_of_isDirectory ns (isDirectory_of_hasChild hedge))
  obtain ⟨top, hpath, htop⟩ := exists_top h hS x
  obtain ⟨path, hwalk⟩ := exists_walk hpath
  refine ⟨top, path, (names_eq_zero_iff ns).mpr fun d name hname => htop d ⟨name, hname⟩, hwalk⟩

/-- Where directories have one name each, there is one path to a directory. -/
theorem path_unique (honce : ∀ d, ns.isDirectory d = true → ns.names d ≤ 1) {top top' d : ℕ}
    {path path' : List Name} (hdir : ns.isDirectory d = true) (htop : ns.names top = 0)
    (htop' : ns.names top' = 0) (h : ns.walk top path = some d) (h' : ns.walk top' path' = some d) :
    top = top' ∧ path = path' := by
  induction path using List.reverseRecOn generalizing path' d with
  | nil =>
    obtain rfl := Option.some.inj h
    cases path' using List.reverseRecOn with
    | nil => exact ⟨(Option.some.inj h').symm, rfl⟩
    | append_singleton names name =>
      rw [walk_append] at h'
      obtain ⟨p, -, hlast⟩ := Option.bind_eq_some_iff.mp h'
      rw [walk_singleton] at hlast
      exact absurd hlast ((names_eq_zero_iff ns).mp htop p name)
  | append_singleton names name ih =>
    rw [walk_append] at h
    obtain ⟨p, hp, hlast⟩ := Option.bind_eq_some_iff.mp h
    rw [walk_singleton] at hlast
    cases path' using List.reverseRecOn with
    | nil =>
      obtain rfl := Option.some.inj h'
      exact absurd hlast ((names_eq_zero_iff ns).mp htop' p name)
    | append_singleton names' name' =>
      rw [walk_append] at h'
      obtain ⟨p', hp', hlast'⟩ := Option.bind_eq_some_iff.mp h'
      rw [walk_singleton] at hlast'
      obtain ⟨rfl, rfl⟩ := entry_unique (honce d hdir) hlast hlast'
      obtain ⟨rfl, rfl⟩ := ih (isDirectory_of_hasChild ⟨name, hlast⟩) hp hp'
      exact ⟨rfl, rfl⟩

/-! ### Runs -/

theorem mounted_acyclic (process : Ids) : Acyclic (mounted process).iNodeManager.HasChild := by
  intro x hcycle
  obtain ⟨y, ⟨name, hname⟩, -⟩ := TransGen.head'_iff.mp hcycle
  rw [mounted_childrenOf] at hname
  simp at hname

/-- **The directories are a forest** in every run of the kernel's requests: nothing is below itself, every
directory is at the end of exactly one path from one that has no name, and the kernel's look down tells
exactly what is below a directory. -/
theorem forest_of_run {process : Ids} {rs : List Request}
    (h : Along step InOrder (mounted process) rs) :
    ∃ fs, run step (mounted process) rs = some fs ∧
      (∀ x, ¬ TransGen fs.iNodeManager.HasChild x x) ∧
      (∀ d, fs.iNodeManager.isDirectory d = true → ∃! q : ℕ × List Name,
        fs.iNodeManager.names q.1 = 0 ∧ fs.iNodeManager.walk q.1 q.2 = some d) ∧
      ∀ x q, x < fs.iNodeManager.iNodes.length →
        (inSubtree fs.iNodeManager fs.iNodeManager.iNodes.length x q = true ↔
          ReflTransGen fs.iNodeManager.HasChild x q) := by
  have hstep : ∀ (fs : FileSystem) r, (Reclaimable fs.iNodeManager ∧ Acyclic fs.iNodeManager.HasChild) →
      fs.InOrder r →
      ∃ fs', fs.step r = some fs' ∧ Reclaimable fs'.iNodeManager ∧ Acyclic fs'.iNodeManager.HasChild := by
    rintro fs r ⟨hI, hac⟩ hok
    obtain ⟨fs', hfs', hchange, hI'⟩ := exists_step_inOrder hI hok
    exact ⟨fs', hfs', hI', acyclic_change hac hI.entries hok.2.1 hchange⟩
  obtain ⟨fs, hrun, hI, hac⟩ := progress_run hstep ⟨mounted_reclaimable process, mounted_acyclic process⟩ h
  refine ⟨fs, hrun, hac, ?_, fun x q hx => inSubtree_iff hac hI.entries hx⟩
  intro d hdir
  obtain ⟨top, path, htop, hpath⟩ := exists_path hac d
  refine ⟨(top, path), ⟨htop, hpath⟩, ?_⟩
  rintro ⟨top', path'⟩ ⟨htop', hpath'⟩
  obtain ⟨rfl, rfl⟩ := path_unique hI.covered.once hdir htop' htop hpath' hpath
  rfl

/-- A directory is moved over an empty one, with what is in it, and another one is made there. -/
theorem forest_of_run_replaced :
    ∃ fs, run step (mounted ⟨0, 0⟩)
        [.mkdir 1 [97], .mkdir 1 [98], .mkdir 2 [99], .mkdir 4 [100], .rename 2 [99] 1 [98],
          .mkdir 5 [101]] = some fs ∧
      (∀ x, ¬ TransGen fs.iNodeManager.HasChild x x) ∧
      (∀ d, fs.iNodeManager.isDirectory d = true → ∃! q : ℕ × List Name,
        fs.iNodeManager.names q.1 = 0 ∧ fs.iNodeManager.walk q.1 q.2 = some d) ∧
      ∀ x q, x < fs.iNodeManager.iNodes.length →
        (inSubtree fs.iNodeManager fs.iNodeManager.iNodes.length x q = true ↔
          ReflTransGen fs.iNodeManager.HasChild x q) :=
  forest_of_run (by decide +kernel)

end FileSystem

end DagonFs
