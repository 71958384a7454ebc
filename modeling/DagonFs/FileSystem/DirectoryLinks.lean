import DagonFs.FileSystem.Kernel

/-!
# The link counts of directories

A directory that has a name has two links and one for each of its subdirectories; the root, which has no
name, has three and one for each.  `FuseRename` adjusts the counts of the two parents only when it
replaces a directory, and then as if the entry had moved the other way round.  So the counts are exact
as long as a directory is renamed only inside its parent and to a free name (`KeepsDirectories`);
`not_directoryLinksExact_of_checked` is a run that does not.
-/

namespace DagonFs

open DagonFs.Nodes DagonFs.Lib.EntryCount DagonFs.Lib.Runs

namespace FileSystem

/-- A directory with `base` links of its own and one for each subdirectory, not marked. -/
structure LinksExactAt (ns : Nodes) (base d : ℕ) : Prop where
  links : ns.nlinkOf d = base + ns.subdirectories d
  unmarked : ns.isMarked d = false

/-- The counts of the directories that have a name, and of the root. -/
def DirectoryLinksExact (ns : Nodes) : Prop :=
  (∀ d, ns.isDirectory d = true → 0 < ns.names d → LinksExactAt ns 2 d) ∧
    LinksExactAt ns 3 rootINode

/-- A directory is renamed only inside its parent, and to a free name, and a new inode is put into a directory
whose counter has room for a link. -/
def KeepsDirectories (ns : Nodes) (r : Request) : Prop :=
  (∀ p ∈ r.makes, ns.nlinkOf p.1 + 1 < 2 ^ 64) ∧
    match r with
    | .rename parent name newparent newname =>
      ∀ x ∈ (ns.childrenOf parent)[name]?, ns.isDirectory x = true →
        parent = newparent ∧ (ns.childrenOf newparent)[newname]? = none
    | _ => True

instance (ns : Nodes) : ∀ r : Request, Decidable (KeepsDirectories ns r)
  | .lookup .. | .forget .. | .mknod .. | .mkdir .. | .symlink .. | .create .. | .link .. | .unlink ..
  | .rmdir .. | .rename .. => inferInstanceAs (Decidable (_ ∧ _))

/-- Directories form a tree: each has at most one name, and the root none. -/
structure TreeShaped (ns : Nodes) : Prop where
  root : ns.isDirectory rootINode = true
  rootNames : ns.names rootINode = 0
  once : ∀ d, ns.isDirectory d = true → ns.names d ≤ 1

/-! ### What each change does to a directory -/

section Changes

variable {ns ns₁ : Nodes} {parent newparent ino x y base d : ℕ} {name newname : Name} {i : INode}
  (hparent : ns.isDirectory parent = true)
include hparent

/-- The links that a new inode's parent gets are those that its count needs. -/
theorem linksExactAt_made (hnone : ns.names ino = 0) (hreg : Registered ns ns₁ ino i)
    (hne : ino ≠ parent) (habs : (ns.childrenOf parent)[name]? = none) (hd : d ≠ ino)
    (h : LinksExactAt ns base d) :
    (ns₁.updateChild parent name ino).nlinkOf d + (if d = parent ∧ i.isDirectory = true then 1 else 0) =
        base + (ns₁.updateChild parent name ino).subdirectories d ∧
      (ns₁.updateChild parent name ino).isMarked d = false := by
  rw [hreg.subdirectories_named_ne hparent hne habs hnone hd]
  simp only [updateChild_sameCounts]
  rw [hreg.nlinkOf_ne hd, hreg.isMarked_ne hd, h.links]
  exact ⟨by omega, h.unmarked⟩

theorem linksExactAt_linked (hino : ino < ns.iNodes.length)
    (habs : (ns.childrenOf parent)[name]? = none) (hfile : ns.isDirectory ino = false)
    (hd : d ≠ ino) (h : LinksExactAt ns base d) :
    LinksExactAt (((ns.updateChild parent name ino).addHardLink ino).lookupINode ino) base d := by
  constructor
  · simp only [lookupINode_nlinkOf, lookupINode_sameEntries, addHardLink_sameEntries]
    rw [nlinkOf_addHardLink (by simpa using hino), if_neg hd,
      subdirectories_updateChild_new hparent habs, hfile]
    simpa using h.links
  · simpa using h.unmarked

theorem linksExactAt_unlinked (hx : x < ns.iNodes.length)
    (hentry : (ns.childrenOf parent)[name]? = some x) (hfile : ns.isDirectory x = false) (hd : d ≠ x)
    (h : LinksExactAt ns base d) :
    LinksExactAt ((ns.removeHardLink x).deleteChild parent name) base d := by
  have hparent' : (ns.removeHardLink x).isDirectory parent = true := by simpa using hparent
  have hsub := subdirectories_deleteChild hparent' (show
    ((ns.removeHardLink x).childrenOf parent)[name]? = some x by simpa using hentry) d
  simp only [removeHardLink_sameEntries, hfile] at hsub
  constructor
  · simp only [deleteChild_sameCounts]
    rw [nlinkOf_removeHardLink hx, if_neg hd, h.links]
    simp at hsub
    omega
  · simp only [deleteChild_sameCounts]
    rw [isMarked_removeHardLink hx, if_neg hd, h.unmarked]

/-- The parent of a directory that is removed gives up the link for it, and has others left. -/
theorem linksExactAt_removed (hx : x < ns.iNodes.length)
    (hentry : (ns.childrenOf parent)[name]? = some x) (hdir : ns.isDirectory x = true) (hd : d ≠ x)
    (hbase : 0 < base) (h : LinksExactAt ns base d) :
    LinksExactAt (((ns.removeHardLink parent).removeAllHardLinks x).deleteChild parent name) base d := by
  have hlt := lt_of_isDirectory ns hparent
  have hparent' : ((ns.removeHardLink parent).removeAllHardLinks x).isDirectory parent = true := by
    simpa using hparent
  have hsub := subdirectories_deleteChild hparent' (show
    (((ns.removeHardLink parent).removeAllHardLinks x).childrenOf parent)[name]? = some x by
      simpa using hentry) d
  simp only [removeAllHardLinks_sameEntries, removeHardLink_sameEntries, hdir, and_true] at hsub
  have hlinks := h.links
  constructor
  · simp only [deleteChild_sameCounts]
    rw [nlinkOf_removeAllHardLinks (by simpa using hx), if_neg hd, nlinkOf_removeHardLink hlt]
    split
    · rename_i hdp
      rw [if_pos hdp] at hsub
      rw [decr_eq (by omega)]
      omega
    · rename_i hdp
      rw [if_neg hdp] at hsub
      omega
  · simp only [deleteChild_sameCounts]
    rw [isMarked_removeAllHardLinks _ hd, isMarked_removeHardLink hlt, h.unmarked]
    split
    · rename_i hdp
      rw [if_pos hdp] at hsub
      rw [decr_eq (by omega), Bool.false_or, beq_eq_false_iff_ne]
      omega
    · rfl

/-- A rename inside one directory changes no directory's count, nor what it counts. -/
theorem linksExactAt_moved (hentry : (ns.childrenOf parent)[name]? = some x)
    (hnew : ns.isDirectory newparent = true) (hne : (parent, name) ≠ (newparent, newname))
    (hkeep : ns.isDirectory x = true →
      parent = newparent ∧ (ns.childrenOf newparent)[newname]? = none)
    (hold : ∀ y, (ns.childrenOf newparent)[newname]? = some y → ns.isDirectory y = false)
    (h : LinksExactAt ns base d) :
    LinksExactAt ((ns.updateChild newparent newname x).deleteChild parent name) base d := by
  have hsub : ((ns.updateChild newparent newname x).deleteChild parent name).subdirectories d =
      ns.subdirectories d := by
    cases hy : (ns.childrenOf newparent)[newname]? with
    | none =>
      have hmove := subdirectories_move_new hparent hnew hentry hne hy d
      cases hdir : ns.isDirectory x with
      | false => simpa [hdir] using hmove
      | true =>
        obtain ⟨rfl, -⟩ := hkeep hdir
        simpa [hdir] using hmove
    | some y =>
      have hmove := subdirectories_move_old hparent hnew hentry hne hy d
      have hdir : ns.isDirectory x = false := by
        by_contra hcon
        rw [(hkeep (by simpa using hcon)).2] at hy
        cases hy
      simpa [hdir, hold y hy] using hmove
  constructor
  · rw [hsub]
    simpa using h.links
  · simpa using h.unmarked

end Changes

/-! ### One step -/

section Step

variable {ns ns' ns₁ : Nodes} (ht : TreeShaped ns) (h : DirectoryLinksExact ns)
include ht h

/-- A change that makes no inode and gives no directory a new name. -/
theorem directoryLinks_kept (hdir : ns'.isDirectory = ns.isDirectory)
    (hnames : ∀ d, ns.isDirectory d = true → ns'.names d ≤ ns.names d)
    (hexact : ∀ base d, 0 < base → ns.isDirectory d = true → d = rootINode ∨ 0 < ns'.names d →
      LinksExactAt ns base d → LinksExactAt ns' base d) :
    TreeShaped ns' ∧ DirectoryLinksExact ns' := by
  refine ⟨⟨by rw [hdir]; exact ht.root, ?_, fun d hd => ?_⟩, fun d hd hpos => ?_, ?_⟩
  · have := hnames rootINode ht.root
    rw [ht.rootNames] at this
    omega
  · rw [hdir] at hd
    exact (hnames d hd).trans (ht.once d hd)
  · rw [hdir] at hd
    exact hexact 2 d (by omega) hd (Or.inr hpos) (h.1 d hd (hpos.trans_le (hnames d hd)))
  · exact hexact 3 rootINode (by omega) ht.root (Or.inl rfl) h.2

section Made

variable {parent ino : ℕ} {name : Name} {i : INode} (hq : Unqueued ns)
  (hparent : ns.isDirectory parent = true) (hreg : Registered ns ns₁ ino i) (hne : ino ≠ parent)
  (habs : (ns.childrenOf parent)[name]? = none)
include hq hparent hreg hne habs

omit h in
/-- The new inode is not the root, and only it gains a name. -/
theorem treeShaped_made (hi : i.children = ∅) :
    rootINode ≠ ino ∧ TreeShaped (ns₁.updateChild parent name ino) := by
  obtain ⟨hend, -, hnone, -⟩ := hq.registered hparent hreg
  have hnames := hreg.names_named_of_end hi hparent hne habs hend
  have hroot : rootINode ≠ ino := by
    have := lt_of_isDirectory ns ht.root
    omega
  refine ⟨hroot, ⟨?_, ?_, fun d hd => ?_⟩⟩
  · simp only [updateChild_sameCounts]
    rw [hreg.isDirectory_ne hroot, ht.root]
  · rw [hnames, ht.rootNames, if_neg (Ne.symm hroot)]
  · rw [hnames]
    rcases eq_or_ne d ino with rfl | hdi
    · rw [hnone, if_pos rfl]
    · simp only [updateChild_sameCounts] at hd
      rw [hreg.isDirectory_ne hdi] at hd
      rw [if_neg (Ne.symm hdi)]
      exact ht.once d hd

theorem directoryLinks_madeFile (hfresh : Fresh i 1) (hfile : i.isDirectory = false) :
    TreeShaped ((ns₁.updateChild parent name ino).lookupINode ino) ∧
      DirectoryLinksExact ((ns₁.updateChild parent name ino).lookupINode ino) := by
  obtain ⟨hend, -, hnone, -⟩ := hq.registered hparent hreg
  obtain ⟨hroot, htree⟩ := treeShaped_made ht hq hparent hreg hne habs hfresh.children
  have hexact : ∀ base d, d ≠ ino → LinksExactAt ns base d →
      LinksExactAt ((ns₁.updateChild parent name ino).lookupINode ino) base d := by
    intro base d hd hat
    have hmade := linksExactAt_made hparent hnone hreg hne habs hd hat
    rw [hfile] at hmade
    exact ⟨by simpa using hmade.1, by simpa using hmade.2⟩
  refine ⟨⟨by simpa using htree.root, by simpa using htree.rootNames, by simpa using htree.once⟩,
    fun d hd hpos => ?_, hexact 3 rootINode hroot h.2⟩
  simp only [lookupINode_sameEntries, updateChild_sameCounts] at hd hpos
  have hdi : d ≠ ino := by
    rintro rfl
    rw [hreg.isDirectory_self, hfile] at hd
    cases hd
  rw [hreg.names_named_of_end hfresh.children hparent hne habs hend, if_neg (Ne.symm hdi)] at hpos
  rw [hreg.isDirectory_ne hdi] at hd
  exact hexact 2 d hdi (h.1 d hd hpos)

theorem directoryLinks_madeDirectory (hroom : ns.nlinkOf parent + 1 < 2 ^ 64) (hfresh : Fresh i 2)
    (hdir : i.isDirectory = true) :
    TreeShaped (((ns₁.updateChild parent name ino).addHardLink parent).lookupINode ino) ∧
      DirectoryLinksExact
        (((ns₁.updateChild parent name ino).addHardLink parent).lookupINode ino) := by
  obtain ⟨hend, -, hnone, -⟩ := hq.registered hparent hreg
  obtain ⟨hroot, htree⟩ := treeShaped_made ht hq hparent hreg hne habs hfresh.children
  have hlt : parent < (ns₁.updateChild parent name ino).iNodes.length := by
    simpa using (lt_of_isDirectory ns hparent).trans_le hreg.length_le
  have hroom' : (ns₁.updateChild parent name ino).nlinkOf parent + 1 < 2 ^ 64 := by
    simpa [hreg.nlinkOf_ne (Ne.symm hne)] using hroom
  have hexact : ∀ base d, d ≠ ino → LinksExactAt ns base d →
      LinksExactAt (((ns₁.updateChild parent name ino).addHardLink parent).lookupINode ino) base d := by
    intro base d hd hat
    obtain ⟨hlinks, hmark⟩ := linksExactAt_made hparent hnone hreg hne habs hd hat
    simp only [hdir, and_true] at hlinks
    constructor
    · simp only [lookupINode_nlinkOf, lookupINode_sameEntries, addHardLink_sameEntries]
      rw [nlinkOf_addHardLink_lt hlt _ hroom', ← hlinks]
      split <;> rfl
    · simpa using hmark
  refine ⟨⟨by simpa using htree.root, by simpa using htree.rootNames, by simpa using htree.once⟩,
    fun d hd hpos => ?_, hexact 3 rootINode hroot h.2⟩
  rcases eq_or_ne d ino with rfl | hdi
  · -- the new directory has its two links and no entries
    have hsub := hreg.subdirectories_named_self hfresh.children hparent hne habs
    constructor
    · simp only [lookupINode_nlinkOf, lookupINode_sameEntries, addHardLink_sameEntries]
      rw [nlinkOf_addHardLink hlt, if_neg hne, hsub]
      simp only [updateChild_sameCounts]
      rw [hreg.nlinkOf_self, hfresh.stNlink]
    · simp only [lookupINode_isMarked, addHardLink_isMarked, updateChild_sameCounts]
      rw [hreg.isMarked_self, hfresh.unmarked]
  · simp only [lookupINode_sameEntries, addHardLink_sameEntries, updateChild_sameCounts] at hd hpos
    rw [hreg.names_named_of_end hfresh.children hparent hne habs hend, if_neg (Ne.symm hdi)] at hpos
    rw [hreg.isDirectory_ne hdi] at hd
    exact hexact 2 d hdi (h.1 d hd hpos)

end Made

/-- **One step keeps the counts of directories exact.** -/
theorem directoryLinks_change {r : Request} (hq : Unqueued ns) (hnames : r.changesNames = true)
    (hpre : PreChecked ns r) (hlink : LinksNoDirectory ns r) (hkeep : KeepsDirectories ns r)
    (hchange : Change ns r ns') : TreeShaped ns' ∧ DirectoryLinksExact ns' := by
  cases hchange with
  | refused => exact ⟨ht, h⟩
  | looked => cases hnames
  | queued => cases hnames
  | kept => cases hnames
  | madeFile hmakes hparent hreg hne hfresh hfile =>
    exact directoryLinks_madeFile ht h hq hparent hreg hne (hpre.1 _ hmakes) hfresh hfile
  | madeDirectory hmakes hparent hreg hne hfresh hdir =>
    exact directoryLinks_madeDirectory ht h hq hparent hreg hne (hpre.1 _ hmakes) (hkeep.1 _ hmakes) hfresh
      hdir
  | @linked ino parent name hparent hino =>
    have hother : ∀ d, ns.isDirectory d = true → d ≠ ino := by
      rintro d hd rfl
      rw [show ns.isDirectory d = false from hlink] at hd
      cases hd
    refine directoryLinks_kept ht h (by simp) (fun d hd => ?_) fun base d _ hd _ hat =>
      linksExactAt_linked hparent hino hpre.2 hlink (hother d hd) hat
    simp [names_updateChild_new hparent hpre.2, Ne.symm (hother d hd)]
  | @unlinked parent x name hparent hentry =>
    have hfile : ns.isDirectory x = false := hpre.2 x hentry
    have hparent' : (ns.removeHardLink x).isDirectory parent = true := by simpa using hparent
    refine directoryLinks_kept ht h (by simp) (fun d _ => ?_) fun base d _ hd _ hat =>
      linksExactAt_unlinked hparent (hq.entries _ _ _ hentry) hentry hfile ?_ hat
    · have hdrop := names_deleteChild hparent' (by simpa using hentry) d
      simp only [removeHardLink_sameEntries] at hdrop
      omega
    · rintro rfl
      rw [hfile] at hd
      cases hd
  | @removed parent x name hparent hentry hdir =>
    have hparent' : ((ns.removeHardLink parent).removeAllHardLinks x).isDirectory parent = true := by
      simpa using hparent
    have hdrop := names_deleteChild hparent' (show
      (((ns.removeHardLink parent).removeAllHardLinks x).childrenOf parent)[name]? = some x by
        simpa using hentry)
    simp only [removeAllHardLinks_sameEntries, removeHardLink_sameEntries] at hdrop
    have hpos : 0 < ns.names x := ns.names_pos_iff.mpr ⟨parent, name, hentry⟩
    refine directoryLinks_kept ht h (by simp) (fun d _ => ?_) fun base d hbase _ hlive hat =>
      linksExactAt_removed hparent (hq.entries _ _ _ hentry) hentry hdir ?_ hbase hat
    · have := hdrop d
      omega
    · -- the directory that is removed loses its only name, and is not the root
      rintro rfl
      have hlast := hdrop d
      have hone := ht.once d hdir
      rw [if_pos rfl] at hlast
      rcases hlive with hroot | hlive
      · rw [hroot, ht.rootNames] at hpos
        omega
      · omega
  | @moved parent newparent x name newname hparent hentry hnew hold =>
    refine directoryLinks_kept ht h (by simp) (fun d hd => ?_) fun base d _ _ _ hat =>
      linksExactAt_moved hparent hentry hnew hpre.2.1 (hkeep.2 x hentry) hold hat
    cases hy : (ns.childrenOf newparent)[newname]? with
    | none => rw [names_move_new hparent hnew hentry hpre.2.1 hy]
    | some y =>
      have := names_move_old hparent hnew hentry hpre.2.1 hy d
      omega
  | @replaced parent newparent x y name newname hparent hentry hnew hold hdir =>
    have hx : ns.isDirectory x = true := by rw [hpre.2.2 x hentry y hold, hdir]
    rw [(hkeep.2 x hentry hx).2] at hold
    cases hold

end Step

/-! ### Runs -/

/-- **The counts of directories are exact** in every state of a run of checked requests in which a
directory is renamed only inside its parent and to a free name, and no counter is full. -/
theorem directoryLinksExact_of_keepsDirectories {process : Ids} {rs : List Request}
    (h : Along step (fun fs r => r.changesNames = true ∧ PreChecked fs.iNodeManager r ∧
      LinksNoDirectory fs.iNodeManager r ∧ KeepsDirectories fs.iNodeManager r) (mounted process) rs) :
    ∃ fs, run step (mounted process) rs = some fs ∧ DirectoryLinksExact fs.iNodeManager := by
  have hmounted : TreeShaped (mounted process).iNodeManager ∧
      DirectoryLinksExact (mounted process).iNodeManager := by
    refine ⟨⟨rfl, mounted_names process rootINode, fun d _ => ?_⟩, fun d _ hpos => ?_, ?_⟩
    · rw [mounted_names]
      omega
    · rw [mounted_names] at hpos
      omega
    · exact ⟨by rw [mounted_subdirectories]; rfl, rfl⟩
  obtain ⟨fs, hrun, -, hexact⟩ := unqueued_run process
    (fun ns r => PreChecked ns r ∧ LinksNoDirectory ns r ∧ KeepsDirectories ns r)
    (fun ns => TreeShaped ns ∧ DirectoryLinksExact ns) hmounted
    (fun _ _ _ hq hI hnames hok hchange =>
      directoryLinks_change hI.1 hI.2 hq hnames hok.1 hok.2.1 hok.2.2 hchange) h
  exact ⟨fs, hrun, hexact⟩

/-- A directory and a file in it are renamed in place, and both are removed. -/
theorem directoryLinksExact_renamed_removed :
    ∃ fs, run step (mounted ⟨0, 0⟩)
        [.mkdir 1 [97], .mkdir 2 [98], .create ⟨0, 0⟩ 2 [99] 0, .rename 2 [98] 2 [100],
          .rename 2 [99] 1 [99], .rmdir 2 [100], .rename 1 [97] 1 [98]] = some fs ∧
      DirectoryLinksExact fs.iNodeManager :=
  directoryLinksExact_of_keepsDirectories (by decide +kernel)

/-- Moving a directory to another parent leaves both parents with the links they had. -/
theorem not_directoryLinksExact_of_checked :
    ¬ ∀ (process : Ids) (rs : List Request) (fs : FileSystem),
      Along step (fun fs r => r.changesNames = true ∧ PreChecked fs.iNodeManager r ∧
        TreeChecked fs.iNodeManager r) (mounted process) rs →
      run step (mounted process) rs = some fs → DirectoryLinksExact fs.iNodeManager := by
  intro hclaim
  let rs : List Request := [.mkdir 1 [97], .mkdir 2 [98], .rename 2 [98] 1 [98]]
  have hend : (run step (mounted ⟨0, 0⟩) rs).map (fun fs => (fs.iNodeManager.nlinkOf rootINode,
      fs.iNodeManager.subdirectories rootINode)) = some (4, 2) := by decide +kernel
  obtain ⟨fs, hrun, hread⟩ := Option.map_eq_some_iff.mp hend
  have hroot := (hclaim ⟨0, 0⟩ rs fs (by decide +kernel) hrun).2.links
  simp only [Prod.mk.injEq] at hread
  omega

end FileSystem

end DagonFs
