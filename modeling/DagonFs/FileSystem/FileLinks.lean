import DagonFs.FileSystem.Kernel

/-!
# The link counts of files

A file's or symbolic link's count is the number of its names.  `FuseRename` adjusts nothing on the inode
whose name it takes over, so the counts are exact as long as no rename takes the name of a file
(`KeepsFiles`); `not_hardLinksExact_of_checked` is a run that does.
-/

namespace DagonFs

open DagonFs.Nodes DagonFs.Lib.EntryCount DagonFs.Lib.Runs

namespace FileSystem

/-- A file or symbolic link has as many links as names, and is marked once it has none. -/
def HardLinksExact (ns : Nodes) : Prop :=
  ∀ x, ns.isFileOrLink x = true →
    ns.nlinkOf x = ns.names x ∧ (ns.isMarked x = true ↔ ns.names x = 0)

/-- A rename does not take the name of a file, and a link is not made to a file that has lost its last
name, or has as many as its counter can count. -/
def KeepsFiles (ns : Nodes) : Request → Prop
  | .rename _ _ newparent newname =>
    ∀ y ∈ (ns.childrenOf newparent)[newname]?, ns.isDirectory y = true
  | .link ino _ _ => ns.isFileOrLink ino = true → 0 < ns.names ino ∧ ns.names ino + 1 < 2 ^ 64
  | _ => True

instance (ns : Nodes) : ∀ r : Request, Decidable (KeepsFiles ns r)
  | .rename .. => inferInstanceAs (Decidable (∀ y ∈ _, _))
  | .link .. => inferInstanceAs (Decidable (_ → _))
  | .lookup .. | .forget .. | .mknod .. | .mkdir .. | .symlink .. | .create .. | .unlink .. | .rmdir .. =>
    isTrue trivial

/-! ### What each change does to files -/

section Changes

variable {ns ns₁ : Nodes} {parent newparent ino x y : ℕ} {name newname : Name} {i : INode}
  (hq : Unqueued ns) (h : HardLinksExact ns) (hparent : ns.isDirectory parent = true)
include hq h hparent

theorem hardLinksExact_madeFile (hreg : Registered ns ns₁ ino i) (hne : ino ≠ parent)
    (hfresh : Fresh i 1) (habs : (ns.childrenOf parent)[name]? = none) :
    HardLinksExact ((ns₁.updateChild parent name ino).lookupINode ino) := by
  obtain ⟨hend, -, hnone, -⟩ := hq.registered hparent hreg
  have hnames := hreg.names_named_of_end hfresh.children hparent hne habs hend
  intro z hz
  simp only [lookupINode_sameEntries, lookupINode_nlinkOf, lookupINode_isMarked,
    updateChild_sameCounts, hnames] at hz ⊢
  rcases eq_or_ne z ino with rfl | hzi
  · rw [hreg.nlinkOf_self, hreg.isMarked_self, hfresh.stNlink, hfresh.unmarked, hnone]
    simp
  · rw [hreg.nlinkOf_ne hzi, hreg.isMarked_ne hzi, if_neg (Ne.symm hzi), Nat.add_zero]
    rw [hreg.isFileOrLink_ne hzi] at hz
    exact h z hz

theorem hardLinksExact_madeDirectory (hreg : Registered ns ns₁ ino i) (hne : ino ≠ parent)
    (hfresh : Fresh i 2) (hdir : i.isDirectory = true)
    (habs : (ns.childrenOf parent)[name]? = none) :
    HardLinksExact (((ns₁.updateChild parent name ino).addHardLink parent).lookupINode ino) := by
  obtain ⟨hend, -, -, -⟩ := hq.registered hparent hreg
  have hnames := hreg.names_named_of_end hfresh.children hparent hne habs hend
  have hlt : parent < ns₁.iNodes.length := (lt_of_isDirectory ns hparent).trans_le hreg.length_le
  intro z hz
  simp only [lookupINode_sameEntries, addHardLink_sameEntries, updateChild_sameCounts] at hz
  -- neither the new directory nor its parent is a file
  have hzi : z ≠ ino := ne_of_isFileOrLink ns₁ hz (by rw [hreg.isDirectory_self, hdir])
  have hzp : z ≠ parent := ne_of_isFileOrLink ns₁ hz (hreg.isDirectory_parent hparent hne)
  simp only [lookupINode_sameEntries, lookupINode_nlinkOf, lookupINode_isMarked,
    addHardLink_sameEntries, addHardLink_isMarked, hnames]
  rw [nlinkOf_addHardLink (by simpa using hlt), if_neg hzp, if_neg (Ne.symm hzi), Nat.add_zero]
  simp only [updateChild_sameCounts]
  rw [hreg.nlinkOf_ne hzi, hreg.isMarked_ne hzi]
  rw [hreg.isFileOrLink_ne hzi] at hz
  exact h z hz

omit hq in
theorem hardLinksExact_linked (hino : ino < ns.iNodes.length)
    (habs : (ns.childrenOf parent)[name]? = none)
    (hkeep : ns.isFileOrLink ino = true → 0 < ns.names ino ∧ ns.names ino + 1 < 2 ^ 64) :
    HardLinksExact (((ns.updateChild parent name ino).addHardLink ino).lookupINode ino) := by
  have hnames := names_updateChild_new hparent habs ino
  intro z hz
  simp only [lookupINode_sameEntries, lookupINode_nlinkOf, lookupINode_isMarked,
    addHardLink_sameEntries, addHardLink_isMarked, updateChild_sameCounts, hnames] at hz ⊢
  obtain ⟨hlink, hmark⟩ := h z hz
  rw [nlinkOf_addHardLink (by simpa using hino)]
  simp only [updateChild_sameCounts]
  rcases eq_or_ne z ino with rfl | hzi
  · obtain ⟨hpos, hroom⟩ := hkeep hz
    rw [if_pos rfl, if_pos rfl, hlink, hmark, incr_eq hroom]
    exact ⟨rfl, by omega⟩
  · rw [if_neg hzi, if_neg (Ne.symm hzi)]
    exact ⟨hlink, hmark⟩

theorem hardLinksExact_unlinked (hentry : (ns.childrenOf parent)[name]? = some x) :
    HardLinksExact ((ns.removeHardLink x).deleteChild parent name) := by
  have hx := hq.entries parent name x hentry
  have hparent' : (ns.removeHardLink x).isDirectory parent = true := by simpa using hparent
  intro z hz
  have hnames := names_deleteChild hparent' (by simpa using hentry) z
  simp only [deleteChild_sameCounts, removeHardLink_sameEntries] at hz hnames ⊢
  obtain ⟨hlink, hmark⟩ := h z hz
  rw [nlinkOf_removeHardLink hx, isMarked_removeHardLink hx]
  rcases eq_or_ne z x with rfl | hzx
  · rw [if_pos rfl] at hnames
    rw [if_pos rfl, if_pos rfl, hlink, decr_eq (by omega), Bool.or_eq_true, hmark, beq_iff_eq]
    omega
  · rw [if_neg (Ne.symm hzx), Nat.add_zero] at hnames
    rw [if_neg hzx, if_neg hzx, hnames]
    exact ⟨hlink, hmark⟩

theorem hardLinksExact_removed (hentry : (ns.childrenOf parent)[name]? = some x)
    (hdir : ns.isDirectory x = true) :
    HardLinksExact
      (((ns.removeHardLink parent).removeAllHardLinks x).deleteChild parent name) := by
  have hlt := lt_of_isDirectory ns hparent
  have hx := hq.entries parent name x hentry
  have hparent' : ((ns.removeHardLink parent).removeAllHardLinks x).isDirectory parent = true := by
    simpa using hparent
  intro z hz
  have hnames := names_deleteChild hparent' (by simpa using hentry) z
  simp only [deleteChild_sameCounts, removeAllHardLinks_sameEntries, removeHardLink_sameEntries]
    at hz hnames ⊢
  have hzx : z ≠ x := ns.ne_of_isFileOrLink hz hdir
  have hzp : z ≠ parent := ns.ne_of_isFileOrLink hz hparent
  rw [if_neg (Ne.symm hzx), Nat.add_zero] at hnames
  rw [nlinkOf_removeAllHardLinks (by simpa using hx), if_neg hzx, nlinkOf_removeHardLink hlt,
    if_neg hzp, isMarked_removeAllHardLinks _ hzx, isMarked_removeHardLink hlt, if_neg hzp, hnames]
  exact h z hz

omit hq in
/-- A move to a free name changes no number of names. -/
theorem hardLinksExact_moved (hentry : (ns.childrenOf parent)[name]? = some x)
    (hnew : ns.isDirectory newparent = true) (hne : (parent, name) ≠ (newparent, newname))
    (habs : (ns.childrenOf newparent)[newname]? = none) :
    HardLinksExact ((ns.updateChild newparent newname x).deleteChild parent name) := by
  intro z hz
  rw [names_move_new hparent hnew hentry hne habs]
  simp only [deleteChild_sameCounts, updateChild_sameCounts] at hz ⊢
  exact h z hz

omit hq in
theorem hardLinksExact_replaced (hentry : (ns.childrenOf parent)[name]? = some x)
    (hnew : ns.isDirectory newparent = true) (hne : (parent, name) ≠ (newparent, newname))
    (hold : (ns.childrenOf newparent)[newname]? = some y) (hdir : ns.isDirectory y = true) :
    HardLinksExact ((((ns.removeHardLink parent).addHardLink newparent).updateChild newparent newname
      x).deleteChild parent name) := by
  have hlt := lt_of_isDirectory ns hparent
  have hlt' := lt_of_isDirectory ns hnew
  have hparent' : ((ns.removeHardLink parent).addHardLink newparent).isDirectory parent = true := by
    simpa using hparent
  intro z hz
  have hnames := names_move_old hparent' (by simpa using hnew) (by simpa using hentry) hne
    (by simpa using hold) z
  simp only [deleteChild_sameCounts, updateChild_sameCounts, addHardLink_sameEntries,
    addHardLink_isMarked, removeHardLink_sameEntries] at hz hnames ⊢
  have hzp : z ≠ parent := ns.ne_of_isFileOrLink hz hparent
  have hzq : z ≠ newparent := ns.ne_of_isFileOrLink hz hnew
  have hzy : z ≠ y := ns.ne_of_isFileOrLink hz hdir
  rw [if_neg (Ne.symm hzy), Nat.add_zero] at hnames
  rw [hnames, nlinkOf_addHardLink (by simpa using hlt'), if_neg hzq, nlinkOf_removeHardLink hlt,
    if_neg hzp, isMarked_removeHardLink hlt, if_neg hzp]
  exact h z hz

end Changes

/-- **One step keeps the counts of files exact.** -/
theorem hardLinksExact_change {ns ns' : Nodes} {r : Request} (hq : Unqueued ns)
    (h : HardLinksExact ns) (hpre : PreChecked ns r) (hkeep : KeepsFiles ns r)
    (hnames : r.changesNames = true) (hchange : Change ns r ns') : HardLinksExact ns' := by
  cases hchange with
  | refused => exact h
  | looked => cases hnames
  | queued => cases hnames
  | kept => cases hnames
  | madeFile hmakes hparent hreg hne hfresh =>
    exact hardLinksExact_madeFile hq h hparent hreg hne hfresh (hpre.1 _ hmakes)
  | madeDirectory hmakes hparent hreg hne hfresh hdir =>
    exact hardLinksExact_madeDirectory hq h hparent hreg hne hfresh hdir (hpre.1 _ hmakes)
  | linked hparent hino => exact hardLinksExact_linked h hparent hino hpre.2 hkeep
  | unlinked hparent hentry => exact hardLinksExact_unlinked hq h hparent hentry
  | removed hparent hentry hdir => exact hardLinksExact_removed hq h hparent hentry hdir
  | @moved parent newparent x name newname hparent hentry hnew hold =>
    cases hy : (ns.childrenOf newparent)[newname]? with
    | none => exact hardLinksExact_moved h hparent hentry hnew hpre.2.1 hy
    | some y =>
      have hdir := hkeep y hy
      rw [hold y hy] at hdir
      cases hdir
  | replaced hparent hentry hnew hold hdir =>
    exact hardLinksExact_replaced h hparent hentry hnew hpre.2.1 hold hdir

/-! ### Runs -/

/-- **The counts of files are exact** in every state of a run of checked requests in which no rename
takes the name of a file and no link is made to a file that has lost its last name, or has as many names as
its counter can count. -/
theorem hardLinksExact_of_keepsFiles {process : Ids} {rs : List Request}
    (h : Along step (fun fs r => r.changesNames = true ∧ PreChecked fs.iNodeManager r ∧
      KeepsFiles fs.iNodeManager r) (mounted process) rs) :
    ∃ fs, run step (mounted process) rs = some fs ∧ HardLinksExact fs.iNodeManager := by
  refine unqueued_run process (fun ns r => PreChecked ns r ∧ KeepsFiles ns r) HardLinksExact
    (fun x hx => ?_) ?_ h
  · rw [mounted_isFileOrLink] at hx
    cases hx
  · intro ns r ns' hq hI hnames hok hchange
    exact hardLinksExact_change hq hI hok.1 hok.2 hnames hchange

/-- A file is linked, one of its names is moved over nothing, and the other unlinked. -/
theorem hardLinksExact_linked_moved :
    ∃ fs, run step (mounted ⟨0, 0⟩)
        [.create ⟨0, 0⟩ 1 [97] 0, .mkdir 1 [100], .link 2 3 [98], .rename 1 [97] 3 [99],
          .unlink 3 [98]] = some fs ∧ HardLinksExact fs.iNodeManager :=
  hardLinksExact_of_keepsFiles (by decide +kernel)

/-- A rename that takes the name of a file leaves that file with one link and no name. -/
theorem not_hardLinksExact_of_checked :
    ¬ ∀ (process : Ids) (rs : List Request) (fs : FileSystem),
      Along step (fun fs r => r.changesNames = true ∧ PreChecked fs.iNodeManager r ∧
        TreeChecked fs.iNodeManager r) (mounted process) rs →
      run step (mounted process) rs = some fs → HardLinksExact fs.iNodeManager := by
  intro hclaim
  let rs : List Request := [.create ⟨0, 0⟩ 1 [97] 0, .create ⟨0, 0⟩ 1 [98] 0, .rename 1 [97] 1 [98]]
  have hend : (run step (mounted ⟨0, 0⟩) rs).map (fun fs => (fs.iNodeManager.isFileOrLink 3,
      fs.iNodeManager.nlinkOf 3, fs.iNodeManager.names 3)) = some (true, 1, 0) := by decide +kernel
  obtain ⟨fs, hrun, hread⟩ := Option.map_eq_some_iff.mp hend
  have hexact := hclaim ⟨0, 0⟩ rs fs (by decide +kernel) hrun 3
  simp only [Prod.mk.injEq] at hread
  obtain ⟨hfile, hlink, hnames⟩ := hread
  have := (hexact hfile).1
  omega

end FileSystem

end DagonFs
