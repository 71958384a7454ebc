import DagonFs.FileSystem.Kernel

/-!
# Reclaiming inodes

An inode is queued when the kernel forgets it while it has no links, and its number is reused once the
queue is long enough.  This is safe as long as the link counts cover what they count: a count that falls
short reaches zero while the inode still has a name.

`FuseRename` lets the count of a directory fall short when it moves a directory into it under a free
name.  Without such moves (`KeepsParents`) the counts cover the names and subdirectories, and only
inodes that nothing names and nobody holds are queued; `not_queueSafe_of_checked` is a run with two such
moves that queues a directory which still has its name.
-/

namespace DagonFs

open DagonFs.Nodes DagonFs.Lib.EntryCount DagonFs.Lib.Runs

namespace FileSystem

/-- No number is queued twice, and what is queued has no reference, no link and no name. -/
structure QueueSafe (ns : Nodes) : Prop where
  nodup : ns.deletedINodes.Nodup
  free : ∀ x ∈ ns.deletedINodes, ns.nlookupOf x = 0 ∧ ns.nlinkOf x = 0 ∧ ns.names x = 0

/-- A registration replaces no inode that has a name, is held by the kernel or is the root. -/
def ReusesOnlyFree (fs : FileSystem) : Prop :=
  ∀ type mode nlink gid uid fs' ino, fs.registerINode type mode nlink gid uid = some (fs', ino) →
    ino < fs.iNodeManager.iNodes.length →
    fs.iNodeManager.names ino = 0 ∧ ¬ Held fs.iNodeManager ino

/-- A directory is moved to another parent only onto a name that exists there, and the counter of links that
a request raises has room for one more. -/
def KeepsParents (ns : Nodes) (r : Request) : Prop :=
  (∀ p ∈ r.makes, ns.nlinkOf p.1 + 1 < 2 ^ 64) ∧
    match r with
    | .link ino _ _ => ns.nlinkOf ino + 1 < 2 ^ 64
    | .rename parent name newparent newname =>
      ns.nlinkOf newparent + 1 < 2 ^ 64 ∧
        ∀ x ∈ (ns.childrenOf parent)[name]?, ns.isDirectory x = true →
          parent = newparent ∨ ((ns.childrenOf newparent)[newname]?).isSome
    | _ => True

instance (ns : Nodes) : ∀ r : Request, Decidable (KeepsParents ns r)
  | .lookup .. | .forget .. | .mknod .. | .mkdir .. | .symlink .. | .create .. | .link .. | .unlink ..
  | .rmdir .. | .rename .. => inferInstanceAs (Decidable (_ ∧ _))

/-! ### The invariant -/

/-- The link counts cover what they count. -/
structure Covered (ns : Nodes) : Prop where
  files : ∀ x, ns.isDirectory x = false → ns.names x ≤ ns.nlinkOf x
  once : ∀ d, ns.isDirectory d = true → ns.names d ≤ 1
  directories : ∀ d, ns.isDirectory d = true → 0 < ns.names d → 2 + ns.subdirectories d ≤ ns.nlinkOf d

structure Reclaimable (ns : Nodes) : Prop where
  entries : ns.EntriesValid
  special : ns.isDirectory 0 = false
  root : ns.isDirectory rootINode = true
  /-- The special inode and the root are neither named nor handed out. -/
  low : ∀ x ≤ rootINode, ns.names x = 0 ∧ ns.nlookupOf x = 0
  covered : Covered ns
  nodup : ns.deletedINodes.Nodup
  free : ∀ x ∈ ns.deletedINodes, rootINode < x ∧ x < ns.iNodes.length ∧ ns.nlookupOf x = 0 ∧
    ns.nlinkOf x = 0 ∧ ns.names x = 0

namespace Reclaimable

variable {ns ns' : Nodes} (h : Reclaimable ns)
include h

theorem wellFormed : WellFormed ns :=
  ⟨h.entries, fun x hx => (h.free x hx).2.1, h.special⟩

theorem queueSafe : QueueSafe ns :=
  ⟨h.nodup, fun x hx => ⟨(h.free x hx).2.2.1, (h.free x hx).2.2.2.1, (h.free x hx).2.2.2.2⟩⟩

/-- An inode without links has no name. -/
theorem names_eq_zero {x : ℕ} (hlinks : ns.nlinkOf x = 0) : ns.names x = 0 := by
  cases hdir : ns.isDirectory x with
  | false =>
    have := h.covered.files x hdir
    omega
  | true =>
    by_contra hpos
    have := h.covered.directories x hdir (by omega)
    omega

theorem not_queued_of_held {x : ℕ} (hx : Held ns x) : x ∉ ns.deletedINodes := by
  intro hmem
  obtain ⟨hlow, -, hlook, -⟩ := h.free x hmem
  rcases hx with hroot | hpos
  · omega
  · omega

/-- What the kernel can hold a reference to: neither special, nor the root, nor queued. -/
theorem of_nlookup_pos {x : ℕ} (hx : 0 < ns.nlookupOf x) :
    rootINode < x ∧ x ∉ ns.deletedINodes := by
  refine ⟨?_, h.not_queued_of_held (Or.inr hx)⟩
  by_contra hle
  have := (h.low x (by omega)).2
  omega

theorem of_names_pos {x : ℕ} (hx : 0 < ns.names x) : rootINode < x ∧ x ∉ ns.deletedINodes := by
  constructor
  · by_contra hle
    have := (h.low x (by omega)).1
    omega
  · intro hmem
    have := (h.free x hmem).2.2.2.2
    omega

/-- A change that makes no inode, queues none, and leaves the special inode, the root and the queued
inodes as they are. -/
theorem kept (hentries : ns'.EntriesValid) (hdir : ns'.isDirectory = ns.isDirectory)
    (hlen : ns'.iNodes.length = ns.iNodes.length) (hqueue : ns'.deletedINodes = ns.deletedINodes)
    (hlow : ∀ x, x ≤ rootINode ∨ x ∈ ns.deletedINodes →
      ns'.nlookupOf x = ns.nlookupOf x ∧ ns'.names x ≤ ns.names x)
    (hlinks : ∀ x ∈ ns.deletedINodes, ns'.nlinkOf x = ns.nlinkOf x) (hcovered : Covered ns') :
    Reclaimable ns' := by
  refine ⟨hentries, by rw [hdir]; exact h.special, by rw [hdir]; exact h.root, fun x hx => ?_,
    hcovered, by rw [hqueue]; exact h.nodup, fun x hx => ?_⟩
  · obtain ⟨hlook, hnames⟩ := hlow x (Or.inl hx)
    have := h.low x hx
    omega
  · rw [hqueue] at hx
    obtain ⟨hlook, hnames⟩ := hlow x (Or.inr hx)
    have := h.free x hx
    rw [hlen, hlinks x hx]
    omega

/-- A new inode has a number that nothing names, and that is not queued any more. -/
theorem registered {ns₁ : Nodes} {ino : ℕ} {i : INode} (hreg : Registered ns ns₁ ino i) :
    rootINode < ino ∧ ns.names ino = 0 ∧ ino ∉ ns₁.deletedINodes ∧ ns₁.deletedINodes.Nodup ∧
      ∀ x ∈ ns₁.deletedINodes, x ∈ ns.deletedINodes := by
  rcases hreg.place with ⟨hend, hsame⟩ | ⟨-, hcons⟩
  · have hroot := lt_of_isDirectory ns h.root
    refine ⟨by omega, ns.names_of_length_le h.entries hend.ge, fun hmem => ?_, by
      rw [hsame]; exact h.nodup, fun x hx => hsame ▸ hx⟩
    rw [hsame] at hmem
    have := (h.free ino hmem).2.1
    omega
  · have hnodup := h.nodup
    rw [hcons, List.nodup_cons] at hnodup
    have hfree := h.free ino (by simp [hcons])
    exact ⟨hfree.1, hfree.2.2.2.2, hnodup.1, hnodup.2, fun x hx => by simp [hcons, hx]⟩

/-- A change that makes an inode, and changes no reference or name of any other. -/
theorem made {ns₁ : Nodes} {ino : ℕ} {i : INode} (hreg : Registered ns ns₁ ino i)
    (hentries : ns'.EntriesValid) (hdir : ∀ x, x ≠ ino → ns'.isDirectory x = ns.isDirectory x)
    (hlen : ns'.iNodes.length = ns₁.iNodes.length) (hqueue : ns'.deletedINodes = ns₁.deletedINodes)
    (hothers : ∀ x, x ≠ ino → ns'.nlookupOf x = ns.nlookupOf x ∧ ns'.names x ≤ ns.names x)
    (hlinks : ∀ x ∈ ns₁.deletedINodes, ns'.nlinkOf x = ns.nlinkOf x) (hcovered : Covered ns') :
    Reclaimable ns' := by
  obtain ⟨hlow, -, hnotin, hnodup, hsub⟩ := h.registered hreg
  have hroot : (0 : ℕ) < rootINode := Nat.one_pos
  refine ⟨hentries, ?_, ?_, fun x hx => ?_, hcovered, by rw [hqueue]; exact hnodup, fun x hx => ?_⟩
  · rw [hdir 0 (by omega)]
    exact h.special
  · rw [hdir rootINode (by omega)]
    exact h.root
  · obtain ⟨hlook, hnames⟩ := hothers x (by omega)
    have := h.low x hx
    omega
  · rw [hqueue] at hx
    have hne : x ≠ ino := fun heq => hnotin (heq ▸ hx)
    obtain ⟨hlook, hnames⟩ := hothers x hne
    have := h.free x (hsub x hx)
    have := hreg.length_le
    rw [hlen, hlinks x hx]
    omega

end Reclaimable

/-! ### What each change does -/

section Changes

variable {ns ns₁ : Nodes} {parent newparent ino x y k : ℕ} {name newname : Name} {i : INode}
  (h : Reclaimable ns)
include h

theorem reclaimable_looked (hentry : (ns.childrenOf parent)[name]? = some x) :
    Reclaimable (ns.lookupINode x) := by
  have hpos := h.of_names_pos (ns.names_pos_iff.mpr ⟨parent, name, hentry⟩)
  refine h.kept (h.entries.sameEntries (lookupINode_sameEntries ..)) (by simp) (by simp) (by simp)
    (fun z hz => ⟨?_, by simp⟩) (by simp) ⟨?_, ?_, ?_⟩
  · have hne : z ≠ x := by
      rintro rfl
      rcases hz with hz | hz
      · omega
      · exact hpos.2 hz
    rw [nlookupOf_lookupINode (h.entries _ _ _ hentry), if_neg hne]
  · simpa using h.covered.files
  · simpa using h.covered.once
  · simpa using h.covered.directories

theorem covered_forget : Covered (ns.forget ino k) :=
  ⟨by simpa using h.covered.files, by simpa using h.covered.once,
    by simpa using h.covered.directories⟩

theorem reclaimable_forgotten (hino : ino < ns.iNodes.length) (hk : 1 ≤ k ∧ k ≤ ns.nlookupOf ino) :
    Reclaimable (ns.forget ino k) := by
  have hpos := h.of_nlookup_pos (by omega : 0 < ns.nlookupOf ino)
  refine h.kept (h.entries.sameEntries (forget_sameEntries ..)) (by simp) (by simp) (by simp)
    (fun z hz => ⟨?_, by simp⟩) (by simp) (covered_forget h)
  have hne : z ≠ ino := by
    rintro rfl
    rcases hz with hz | hz
    · omega
    · exact hpos.2 hz
  rw [nlookupOf_forget hino _ hk.2, if_neg hne]

/-- An inode is queued when its last reference goes and it has no links: it then has no name either. -/
theorem reclaimable_queued (hino : ino < ns.iNodes.length) (hk : 1 ≤ k ∧ k ≤ ns.nlookupOf ino)
    (hforgotten : (ns.forget ino k).nlookupOf ino = 0) (hlinks : ns.nlinkOf ino = 0) :
    Reclaimable ((ns.forget ino k).deleteINode ino) := by
  have hpos := h.of_nlookup_pos (by omega : 0 < ns.nlookupOf ino)
  have hf := reclaimable_forgotten h hino hk
  refine ⟨hf.entries.sameEntries (deleteINode_sameEntries ..), by simpa using h.special,
    by simpa using h.root, by simpa using hf.low, ?_, ?_, fun z hz => ?_⟩
  · exact ⟨by simpa using hf.covered.files, by simpa using hf.covered.once,
      by simpa using hf.covered.directories⟩
  · rw [deleteINode_deletedINodes, forget_deletedINodes, List.nodup_append]
    refine ⟨h.nodup, List.nodup_singleton ino, fun a ha b hb => ?_⟩
    rw [List.mem_singleton.mp hb]
    rintro rfl
    exact hpos.2 ha
  · rw [deleteINode_deletedINodes, List.mem_append, List.mem_singleton] at hz
    rcases hz with hz | rfl
    · simpa using hf.free z hz
    · have hnames := h.names_eq_zero hlinks
      simp only [deleteINode_sameEntries, deleteINode_nlookupOf, deleteINode_nlinkOf, forget_nlinkOf,
        forget_sameEntries]
      exact ⟨hpos.1, hino, hforgotten, hlinks, hnames⟩

section Parent

variable (hparent : ns.isDirectory parent = true)
include hparent

section Made

variable (hreg : Registered ns ns₁ ino i) (hne : ino ≠ parent)
  (habs : (ns.childrenOf parent)[name]? = none)
include hreg hne habs

/-- The table with the new entry, away from the new inode. -/
theorem made_ne (hi : i.children = ∅) {z : ℕ} (hz : z ≠ ino) :
    (ns₁.updateChild parent name ino).names z ≤ ns.names z ∧
      (ns₁.updateChild parent name ino).nlinkOf z = ns.nlinkOf z ∧
      (ns₁.updateChild parent name ino).nlookupOf z = ns.nlookupOf z ∧
      (ns₁.updateChild parent name ino).isDirectory z = ns.isDirectory z ∧
      (ns₁.updateChild parent name ino).subdirectories z =
        ns.subdirectories z + if z = parent ∧ i.isDirectory = true then 1 else 0 := by
  have hadd := hreg.names_named hi hparent hne habs z
  rw [if_neg (Ne.symm hz)] at hadd
  refine ⟨by omega, ?_, ?_, ?_, hreg.subdirectories_named_ne hparent hne habs (h.registered hreg).2.1 hz⟩
  · simp [hreg.nlinkOf_ne hz]
  · simp [hreg.nlookupOf_ne hz]
  · simp [hreg.isDirectory_ne hz]

/-- The new inode has the one name, its own links and no entries. -/
theorem made_self {nlink : ℕ} (hfresh : Fresh i nlink) :
    (ns₁.updateChild parent name ino).names ino ≤ 1 ∧
      (ns₁.updateChild parent name ino).nlinkOf ino = nlink ∧
      (ns₁.updateChild parent name ino).isDirectory ino = i.isDirectory ∧
      (ns₁.updateChild parent name ino).subdirectories ino = 0 := by
  have hadd := hreg.names_named hfresh.children hparent hne habs ino
  rw [if_pos rfl, (h.registered hreg).2.1] at hadd
  refine ⟨by omega, ?_, ?_, hreg.subdirectories_named_self hfresh.children hparent hne habs⟩
  · simp [hreg.nlinkOf_self, hfresh.stNlink]
  · simp [hreg.isDirectory_self]

theorem reclaimable_madeFile (hfresh : Fresh i 1) (hfile : i.isDirectory = false) :
    Reclaimable ((ns₁.updateChild parent name ino).lookupINode ino) := by
  have hnotin := (h.registered hreg).2.2.1
  have hlt : ino < (ns₁.updateChild parent name ino).iNodes.length := by simpa using hreg.lt_length
  have hself := made_self h hparent hreg hne habs hfresh
  have haway := fun z (hz : z ≠ ino) => made_ne h hparent hreg hne habs hfresh.children hz
  refine h.made hreg ((hreg.entriesValid_named hfresh.children hparent hne h.entries).sameEntries
    (lookupINode_sameEntries ..)) (fun z hz => ?_) (by simp) (by simp) (fun z hz => ⟨?_, ?_⟩)
    (fun z hz => ?_) ⟨fun z hz => ?_, fun d hd => ?_, fun d hd hpos => ?_⟩
  · simpa using (haway z hz).2.2.2.1
  · rw [nlookupOf_lookupINode hlt, if_neg hz]
    exact (haway z hz).2.2.1
  · simpa using (haway z hz).1
  · simpa using (haway z fun heq => hnotin (heq ▸ hz)).2.1
  · simp only [lookupINode_sameEntries, lookupINode_nlinkOf] at hz ⊢
    rcases eq_or_ne z ino with rfl | hzi
    · omega
    · obtain ⟨hnames, hlinks, -, hdir, -⟩ := haway z hzi
      have := h.covered.files z (hdir ▸ hz)
      omega
  · simp only [lookupINode_sameEntries] at hd ⊢
    rcases eq_or_ne d ino with rfl | hdi
    · exact hself.1
    · obtain ⟨hnames, -, -, hdir, -⟩ := haway d hdi
      have := h.covered.once d (hdir ▸ hd)
      omega
  · simp only [lookupINode_sameEntries, lookupINode_nlinkOf] at hd hpos ⊢
    rcases eq_or_ne d ino with rfl | hdi
    · rw [hself.2.2.1, hfile] at hd
      cases hd
    · obtain ⟨hnames, hlinks, -, hdir, hsub⟩ := haway d hdi
      have := h.covered.directories d (hdir ▸ hd) (by omega)
      rw [hfile] at hsub
      simp at hsub
      omega

theorem reclaimable_madeDirectory (hheld : Held ns parent) (hroom : ns.nlinkOf parent + 1 < 2 ^ 64)
    (hfresh : Fresh i 2) (hdirectory : i.isDirectory = true) :
    Reclaimable (((ns₁.updateChild parent name ino).addHardLink parent).lookupINode ino) := by
  obtain ⟨-, -, hnotin, -, hsub⟩ := h.registered hreg
  have hlt : ino < (ns₁.updateChild parent name ino).iNodes.length := by simpa using hreg.lt_length
  have hltp : parent < (ns₁.updateChild parent name ino).iNodes.length := by
    simpa using (lt_of_isDirectory ns hparent).trans_le hreg.length_le
  have hself := made_self h hparent hreg hne habs hfresh
  have haway := fun z (hz : z ≠ ino) => made_ne h hparent hreg hne habs hfresh.children hz
  have hroom' : (ns₁.updateChild parent name ino).nlinkOf parent + 1 < 2 ^ 64 := by
    rw [(haway parent (Ne.symm hne)).2.1]
    exact hroom
  refine h.made hreg (((hreg.entriesValid_named hfresh.children hparent hne h.entries).sameEntries
    (addHardLink_sameEntries ..)).sameEntries (lookupINode_sameEntries ..)) (fun z hz => ?_) (by simp)
    (by simp) (fun z hz => ⟨?_, ?_⟩) (fun z hz => ?_)
    ⟨fun z hz => ?_, fun d hd => ?_, fun d hd hpos => ?_⟩
  · simpa using (haway z hz).2.2.2.1
  · rw [nlookupOf_lookupINode (by simpa using hlt), if_neg hz]
    simpa using (haway z hz).2.2.1
  · simpa using (haway z hz).1
  · -- the parent is held, so it is not queued
    have hzp : z ≠ parent := fun heq => h.not_queued_of_held hheld (heq ▸ hsub z hz)
    rw [lookupINode_nlinkOf, nlinkOf_addHardLink hltp, if_neg hzp]
    exact (haway z fun heq => hnotin (heq ▸ hz)).2.1
  · simp only [lookupINode_sameEntries, addHardLink_sameEntries, lookupINode_nlinkOf] at hz ⊢
    have hzi : z ≠ ino := by
      rintro rfl
      rw [hself.2.2.1, hdirectory] at hz
      cases hz
    obtain ⟨hnames, hlinks, -, hdir, -⟩ := haway z hzi
    have := h.covered.files z (hdir ▸ hz)
    rw [nlinkOf_addHardLink_lt hltp _ hroom']
    split <;> omega
  · simp only [lookupINode_sameEntries, addHardLink_sameEntries] at hd ⊢
    rcases eq_or_ne d ino with rfl | hdi
    · exact hself.1
    · obtain ⟨hnames, -, -, hdir, -⟩ := haway d hdi
      have := h.covered.once d (hdir ▸ hd)
      omega
  · simp only [lookupINode_sameEntries, addHardLink_sameEntries, lookupINode_nlinkOf] at hd hpos ⊢
    rw [nlinkOf_addHardLink_lt hltp _ hroom']
    rcases eq_or_ne d ino with rfl | hdi
    · rw [if_neg hne]
      omega
    · obtain ⟨hnames, hlinks, -, hdir, hsubs⟩ := haway d hdi
      have := h.covered.directories d (hdir ▸ hd) (by omega)
      simp only [hdirectory, and_true] at hsubs
      split
      · rename_i hdp
        rw [if_pos hdp] at hsubs
        omega
      · rename_i hdp
        rw [if_neg hdp] at hsubs
        omega

end Made

theorem reclaimable_linked (hino : ino < ns.iNodes.length) (hheld : Held ns ino)
    (hroom : ns.nlinkOf ino + 1 < 2 ^ 64) (habs : (ns.childrenOf parent)[name]? = none)
    (hfile : ns.isDirectory ino = false) :
    Reclaimable (((ns.updateChild parent name ino).addHardLink ino).lookupINode ino) := by
  have hnames := names_updateChild_new hparent habs ino
  have hsubs := subdirectories_updateChild_new hparent habs ino
  have hpos : 0 < ns.nlookupOf ino := by
    rcases hheld with hroot | hpos
    · rw [hroot, h.root] at hfile
      cases hfile
    · exact hpos
  have hother : ∀ z, z ≤ rootINode ∨ z ∈ ns.deletedINodes → z ≠ ino := by
    rintro z hz rfl
    have := h.of_nlookup_pos hpos
    rcases hz with hz | hz
    · omega
    · exact this.2 hz
  refine h.kept (((h.entries.updateChild hparent hino).sameEntries (addHardLink_sameEntries ..)).sameEntries
    (lookupINode_sameEntries ..)) (by simp) (by simp) (by simp) (fun z hz => ⟨?_, ?_⟩) (fun z hz => ?_)
    ⟨fun z hz => ?_, fun d hd => ?_, fun d hd hpos => ?_⟩
  · rw [nlookupOf_lookupINode (by simpa using hino), if_neg (hother z hz)]
    simp
  · simp [hnames, Ne.symm (hother z hz)]
  · rw [lookupINode_nlinkOf, nlinkOf_addHardLink (by simpa using hino), if_neg (hother z (Or.inr hz))]
    simp
  · simp only [lookupINode_sameEntries, addHardLink_sameEntries, lookupINode_nlinkOf,
      updateChild_sameCounts] at hz ⊢
    have := h.covered.files z hz
    rw [nlinkOf_addHardLink_lt (by simpa using hino) _ (by simpa using hroom), hnames]
    simp only [updateChild_sameCounts]
    rcases eq_or_ne z ino with rfl | hzi
    · rw [if_pos rfl, if_pos rfl]
      omega
    · rw [if_neg hzi, if_neg (Ne.symm hzi)]
      omega
  · simp only [lookupINode_sameEntries, addHardLink_sameEntries, updateChild_sameCounts] at hd ⊢
    have hdi : ino ≠ d := by
      rintro rfl
      rw [hfile] at hd
      cases hd
    rw [hnames, if_neg hdi]
    exact h.covered.once d hd
  · simp only [lookupINode_sameEntries, addHardLink_sameEntries, lookupINode_nlinkOf,
      updateChild_sameCounts] at hd hpos ⊢
    have hdi : ino ≠ d := by
      rintro rfl
      rw [hfile] at hd
      cases hd
    rw [hnames, if_neg hdi] at hpos
    have := h.covered.directories d hd hpos
    rw [nlinkOf_addHardLink (by simpa using hino), if_neg (Ne.symm hdi), hsubs, hfile]
    simpa using this

theorem reclaimable_unlinked (hentry : (ns.childrenOf parent)[name]? = some x)
    (hfile : ns.isDirectory x = false) :
    Reclaimable ((ns.removeHardLink x).deleteChild parent name) := by
  have hx := h.entries _ _ _ hentry
  have hparent' : (ns.removeHardLink x).isDirectory parent = true := by simpa using hparent
  have hnames := names_deleteChild hparent' (show
    ((ns.removeHardLink x).childrenOf parent)[name]? = some x by simpa using hentry)
  have hsubs := subdirectories_deleteChild hparent' (show
    ((ns.removeHardLink x).childrenOf parent)[name]? = some x by simpa using hentry)
  simp only [removeHardLink_sameEntries, hfile] at hnames hsubs
  have hfree := h.of_names_pos (ns.names_pos_iff.mpr ⟨parent, name, hentry⟩)
  refine h.kept ((h.entries.sameEntries (removeHardLink_sameEntries ..)).deleteChild hparent')
    (by simp) (by simp) (by simp) (fun z hz => ⟨by simp, ?_⟩) (fun z hz => ?_)
    ⟨fun z hz => ?_, fun d hd => ?_, fun d hd hpos => ?_⟩
  · have := hnames z
    omega
  · simp only [deleteChild_sameCounts]
    rw [nlinkOf_removeHardLink hx, if_neg fun heq : z = x => hfree.2 (heq ▸ hz)]
  · simp only [deleteChild_sameCounts, removeHardLink_sameEntries] at hz ⊢
    have hz' := hnames z
    have hcov := h.covered.files z hz
    rw [nlinkOf_removeHardLink hx]
    rcases eq_or_ne z x with rfl | hzx
    · rw [if_pos rfl] at hz'
      rw [if_pos rfl, decr_eq (by omega)]
      omega
    · rw [if_neg hzx]
      omega
  · simp only [deleteChild_sameCounts, removeHardLink_sameEntries] at hd
    have := h.covered.once d hd
    have := hnames d
    omega
  · simp only [deleteChild_sameCounts, removeHardLink_sameEntries] at hd ⊢
    have hdx : d ≠ x := by
      rintro rfl
      rw [hfile] at hd
      cases hd
    have hd' := hnames d
    have hsub := hsubs d
    have := h.covered.directories d hd (by omega)
    rw [nlinkOf_removeHardLink hx, if_neg hdx]
    omega

theorem reclaimable_removed (hheld : Held ns parent)
    (hentry : (ns.childrenOf parent)[name]? = some x) (hdir : ns.isDirectory x = true) :
    Reclaimable (((ns.removeHardLink parent).removeAllHardLinks x).deleteChild parent name) := by
  have hx := h.entries _ _ _ hentry
  have hlt := lt_of_isDirectory ns hparent
  have hparent' : ((ns.removeHardLink parent).removeAllHardLinks x).isDirectory parent = true := by
    simpa using hparent
  have hentry' : (((ns.removeHardLink parent).removeAllHardLinks x).childrenOf parent)[name]? =
      some x := by simpa using hentry
  have hnames := names_deleteChild hparent' hentry'
  have hsubs := subdirectories_deleteChild hparent' hentry'
  simp only [removeAllHardLinks_sameEntries, removeHardLink_sameEntries, hdir, and_true]
    at hnames hsubs
  have hfree := h.of_names_pos (ns.names_pos_iff.mpr ⟨parent, name, hentry⟩)
  have hlinks : ∀ z, (((ns.removeHardLink parent).removeAllHardLinks x).deleteChild parent
      name).nlinkOf z = if z = x then 0 else if z = parent then decr (ns.nlinkOf z)
        else ns.nlinkOf z := by
    intro z
    simp only [deleteChild_sameCounts]
    rw [nlinkOf_removeAllHardLinks (by simpa using hx), nlinkOf_removeHardLink hlt]
  refine h.kept (((h.entries.sameEntries (removeHardLink_sameEntries ..)).sameEntries
    (removeAllHardLinks_sameEntries ..)).deleteChild hparent') (by simp) (by simp) (by simp)
    (fun z hz => ⟨by simp, ?_⟩) (fun z hz => ?_)
    ⟨fun z hz => ?_, fun d hd => ?_, fun d hd hpos => ?_⟩
  · have := hnames z
    omega
  · rw [hlinks, if_neg fun heq : z = x => hfree.2 (heq ▸ hz),
      if_neg fun heq : z = parent => h.not_queued_of_held hheld (heq ▸ hz)]
  · simp only [deleteChild_sameCounts, removeAllHardLinks_sameEntries, removeHardLink_sameEntries]
      at hz
    have hother : ∀ d, ns.isDirectory d = true → z ≠ d := by
      rintro d hd rfl
      rw [hz] at hd
      cases hd
    have := h.covered.files z hz
    have := hnames z
    rw [hlinks, if_neg (hother x hdir), if_neg (hother parent hparent)]
    omega
  · simp only [deleteChild_sameCounts, removeAllHardLinks_sameEntries, removeHardLink_sameEntries]
      at hd
    have := h.covered.once d hd
    have := hnames d
    omega
  · simp only [deleteChild_sameCounts, removeAllHardLinks_sameEntries, removeHardLink_sameEntries]
      at hd
    have hd' := hnames d
    have hsub := hsubs d
    have hone := h.covered.once d hd
    have hcov := h.covered.directories d hd (by omega)
    -- the directory that is removed had one name, and has none left
    have hdx : d ≠ x := by
      rintro rfl
      rw [if_pos rfl] at hd'
      omega
    rw [hlinks, if_neg hdx]
    split
    · rename_i hdp
      rw [if_pos hdp] at hsub
      rw [decr_eq (by omega)]
      omega
    · omega

/-- A move that leaves every count as it was: no directory changes its parent. -/
theorem reclaimable_moved (hentry : (ns.childrenOf parent)[name]? = some x)
    (hnew : ns.isDirectory newparent = true) (hne : (parent, name) ≠ (newparent, newname))
    (hkeep : ns.isDirectory x = true → parent = newparent)
    (hold : ∀ y, (ns.childrenOf newparent)[newname]? = some y →
      ns.isDirectory x = false ∧ ns.isDirectory y = false) :
    Reclaimable ((ns.updateChild newparent newname x).deleteChild parent name) := by
  have hparent' : (ns.updateChild newparent newname x).isDirectory parent = true := by
    simpa using hparent
  have hmove : ∀ z, ((ns.updateChild newparent newname x).deleteChild parent name).names z ≤
      ns.names z ∧ ((ns.updateChild newparent newname x).deleteChild parent name).subdirectories z =
        ns.subdirectories z := by
    intro z
    cases hy : (ns.childrenOf newparent)[newname]? with
    | none =>
      have hsub := subdirectories_move_new hparent hnew hentry hne hy z
      refine ⟨(names_move_new hparent hnew hentry hne hy z).le, ?_⟩
      cases hdir : ns.isDirectory x with
      | false => simpa [hdir] using hsub
      | true =>
        obtain rfl := hkeep hdir
        simpa [hdir] using hsub
    | some y =>
      have hnames := names_move_old hparent hnew hentry hne hy z
      have hsub := subdirectories_move_old hparent hnew hentry hne hy z
      obtain ⟨hx, hydir⟩ := hold y hy
      exact ⟨by omega, by simpa [hx, hydir] using hsub⟩
  refine h.kept ((h.entries.updateChild hnew (h.entries _ _ _ hentry)).deleteChild hparent')
    (by simp) (by simp) (by simp) (fun z hz => ⟨by simp, (hmove z).1⟩) (by simp)
    ⟨fun z hz => ?_, fun d hd => ?_, fun d hd hpos => ?_⟩
  · simp only [deleteChild_sameCounts, updateChild_sameCounts] at hz ⊢
    exact (hmove z).1.trans (h.covered.files z hz)
  · simp only [deleteChild_sameCounts, updateChild_sameCounts] at hd
    exact (hmove d).1.trans (h.covered.once d hd)
  · simp only [deleteChild_sameCounts, updateChild_sameCounts] at hd ⊢
    rw [(hmove d).2]
    exact h.covered.directories d hd (hpos.trans_le (hmove d).1)

/-- Replacing a directory by a directory: the old parent gives up a link with a subdirectory, and the new
one gains a link and no subdirectory. -/
theorem reclaimable_replaced (hheld : Held ns parent) (hheld' : Held ns newparent)
    (hroom : ns.nlinkOf newparent + 1 < 2 ^ 64) (hentry : (ns.childrenOf parent)[name]? = some x)
    (hnew : ns.isDirectory newparent = true)
    (hne : (parent, name) ≠ (newparent, newname))
    (hold : (ns.childrenOf newparent)[newname]? = some y) (hx : ns.isDirectory x = true)
    (hdir : ns.isDirectory y = true) :
    Reclaimable ((((ns.removeHardLink parent).addHardLink newparent).updateChild newparent newname
      x).deleteChild parent name) := by
  have hlt := lt_of_isDirectory ns hparent
  have hlt' := lt_of_isDirectory ns hnew
  have hparent' : ((ns.removeHardLink parent).addHardLink newparent).isDirectory parent = true := by
    simpa using hparent
  have hnew' : ((ns.removeHardLink parent).addHardLink newparent).isDirectory newparent = true := by
    simpa using hnew
  have hentry' : (((ns.removeHardLink parent).addHardLink newparent).childrenOf parent)[name]? =
      some x := by simpa using hentry
  have hold' : (((ns.removeHardLink parent).addHardLink newparent).childrenOf newparent)[newname]? =
      some y := by simpa using hold
  have hnames := names_move_old hparent' hnew' hentry' hne hold'
  have hsubs := subdirectories_move_old hparent' hnew' hentry' hne hold'
  simp only [addHardLink_sameEntries, removeHardLink_sameEntries, hx, hdir, and_true]
    at hnames hsubs
  have hlinks : ∀ z, ((((ns.removeHardLink parent).addHardLink newparent).updateChild newparent
      newname x).deleteChild parent name).nlinkOf z =
        if z = newparent then incr (if z = parent then decr (ns.nlinkOf z) else ns.nlinkOf z)
        else if z = parent then decr (ns.nlinkOf z) else ns.nlinkOf z := by
    intro z
    simp only [deleteChild_sameCounts, updateChild_sameCounts]
    rw [nlinkOf_addHardLink (by simpa using hlt'), nlinkOf_removeHardLink hlt]
  have hentries : ((ns.removeHardLink parent).addHardLink newparent).EntriesValid :=
    (h.entries.sameEntries (removeHardLink_sameEntries ..)).sameEntries (addHardLink_sameEntries ..)
  have hvalid : (((ns.removeHardLink parent).addHardLink newparent).updateChild newparent newname
      x).EntriesValid := hentries.updateChild hnew' (by simpa using h.entries _ _ _ hentry)
  refine h.kept (hvalid.deleteChild (by simpa using hparent)) (by simp) (by simp) (by simp)
    (fun z hz => ⟨by simp, ?_⟩) (fun z hz => ?_)
    ⟨fun z hz => ?_, fun d hd => ?_, fun d hd hpos => ?_⟩
  · have := hnames z
    omega
  · rw [hlinks, if_neg fun heq : z = newparent => h.not_queued_of_held hheld' (heq ▸ hz),
      if_neg fun heq : z = parent => h.not_queued_of_held hheld (heq ▸ hz)]
  · simp only [deleteChild_sameCounts, updateChild_sameCounts, addHardLink_sameEntries,
      removeHardLink_sameEntries] at hz
    have hother : ∀ d, ns.isDirectory d = true → z ≠ d := by
      rintro d hd rfl
      rw [hz] at hd
      cases hd
    have := h.covered.files z hz
    have := hnames z
    rw [hlinks, if_neg (hother newparent hnew), if_neg (hother parent hparent)]
    omega
  · simp only [deleteChild_sameCounts, updateChild_sameCounts, addHardLink_sameEntries,
      removeHardLink_sameEntries] at hd
    have := h.covered.once d hd
    have := hnames d
    omega
  · simp only [deleteChild_sameCounts, updateChild_sameCounts, addHardLink_sameEntries,
      removeHardLink_sameEntries] at hd
    have hd' := hnames d
    have hsub := hsubs d
    have hcov := h.covered.directories d hd (by omega)
    rw [hlinks]
    by_cases hdp : d = parent
    · rw [if_pos hdp] at hsub
      rw [if_pos hdp, decr_eq (by omega)]
      split
      · rename_i hdq
        rw [← hdq] at hroom
        rw [incr_eq (by omega)]
        omega
      · omega
    · rw [if_neg hdp] at hsub
      rw [if_neg hdp]
      split
      · rename_i hdq
        rw [← hdq] at hroom
        rw [incr_eq hroom]
        omega
      · omega

end Parent

end Changes

/-- The parent in which a request makes an inode is one that the request names. -/
theorem held_of_makes {ns : Nodes} {r : Request} {parent : ℕ} {name : Name} (href : Referenced ns r)
    (hmakes : r.makes = some (parent, name)) : Held ns parent := by
  cases r <;> simp only [Request.makes, Option.some.injEq, Prod.mk.injEq, reduceCtorEq] at hmakes <;>
    exact hmakes.1 ▸ href

/-- **One step keeps the queue safe.** -/
theorem reclaimable_change {ns ns' : Nodes} {r : Request} (h : Reclaimable ns)
    (hpre : PreChecked ns r) (hlink : LinksNoDirectory ns r) (href : Referenced ns r)
    (hkeep : KeepsParents ns r) (hchange : Change ns r ns') : Reclaimable ns' := by
  cases hchange with
  | refused => exact h
  | looked hentry => exact reclaimable_looked h hentry
  | queued hino hforgotten hlinks => exact reclaimable_queued h hino href hforgotten hlinks
  | kept hino => exact reclaimable_forgotten h hino href
  | madeFile hmakes hparent hreg hne hfresh hfile =>
    exact reclaimable_madeFile h hparent hreg hne (hpre.1 _ hmakes) hfresh hfile
  | madeDirectory hmakes hparent hreg hne hfresh hdir =>
    exact reclaimable_madeDirectory h hparent hreg hne (hpre.1 _ hmakes) (held_of_makes href hmakes)
      (hkeep.1 _ hmakes) hfresh hdir
  | linked hparent hino => exact reclaimable_linked h hparent hino href.1.1 hkeep.2 hpre.2 hlink
  | unlinked hparent hentry =>
    exact reclaimable_unlinked h hparent hentry (hpre.2 _ hentry)
  | removed hparent hentry hdir => exact reclaimable_removed h hparent href hentry hdir
  | @moved parent newparent x name newname hparent hentry hnew hold =>
    have htypes : ∀ y, (ns.childrenOf newparent)[newname]? = some y →
        ns.isDirectory x = false ∧ ns.isDirectory y = false := fun y hy =>
      ⟨(hpre.2.2 x hentry y hy).trans (hold y hy), hold y hy⟩
    refine reclaimable_moved h hparent hentry hnew hpre.2.1 (fun hx => ?_) htypes
    rcases hkeep.2.2 x hentry hx with hsame | hthere
    · exact hsame
    · obtain ⟨y, hy⟩ := Option.isSome_iff_exists.mp hthere
      rw [(htypes y hy).1] at hx
      cases hx
  | replaced hparent hentry hnew hold hdir =>
    exact reclaimable_replaced h hparent href.1 href.2 hkeep.2.1 hentry hnew hpre.2.1 hold
      ((hpre.2.2 _ hentry _ hold).trans hdir) hdir

/-- A request of the kernel is always answered. -/
theorem exists_checked_change {fs : FileSystem} {r : Request} (h : Reclaimable fs.iNodeManager)
    (href : Referenced fs.iNodeManager r) :
    ∃ fs', fs.step r = some fs' ∧ Change fs.iNodeManager r fs'.iNodeManager := by
  refine exists_step (handle_change h.wellFormed r ?_ fun parent name hmakes =>
    h.not_queued_of_held (held_of_makes href hmakes))
  rintro ino k rfl
  by_contra hlen
  have hzero : fs.iNodeManager.nlookupOf ino = 0 := by
    rw [nlookupOf, List.getElem?_eq_none (Nat.le_of_not_lt hlen)]
    rfl
  have := href.1.trans href.2
  omega

theorem reusesOnlyFree {fs : FileSystem} (h : Reclaimable fs.iNodeManager) : ReusesOnlyFree fs := by
  intro type mode nlink gid uid fs' ino hres hlt
  obtain ⟨fs₁, ino₁, hres₁, hreg, -⟩ :=
    registerINode_spec fs type mode nlink gid uid h.wellFormed.queue
  rw [hres, Option.some.injEq, Prod.mk.injEq] at hres₁
  obtain ⟨-, rfl⟩ := hres₁
  rcases hreg.place with ⟨hend, -⟩ | ⟨-, hcons⟩
  · omega
  · have hmem : ino ∈ fs.iNodeManager.deletedINodes := by simp [hcons]
    exact ⟨(h.free ino hmem).2.2.2.2, fun hheld => h.not_queued_of_held hheld hmem⟩

theorem mounted_reclaimable (process : Ids) : Reclaimable (mounted process).iNodeManager where
  entries := (mounted_wellFormed process).entries
  special := rfl
  root := rfl
  low := by
    intro x hx
    refine ⟨mounted_names process x, ?_⟩
    match x, hx with
    | 0, _ => rfl
    | 1, _ => rfl
  covered := by
    refine ⟨fun x _ => ?_, fun d _ => ?_, fun d _ hpos => ?_⟩
    · rw [mounted_names]
      exact Nat.zero_le _
    · rw [mounted_names]
      exact Nat.zero_le _
    · rw [mounted_names] at hpos
      omega
  nodup := List.nodup_nil
  free := fun _ hx => absurd hx List.not_mem_nil

/-- The kernel's side of the protocol, in which no directory is moved to another parent under a free name and no
counter of links is full. -/
def InOrder (fs : FileSystem) (r : Request) : Prop :=
  PreChecked fs.iNodeManager r ∧ TreeChecked fs.iNodeManager r ∧ Referenced fs.iNodeManager r ∧
    KeepsParents fs.iNodeManager r

instance (fs : FileSystem) (r : Request) : Decidable (fs.InOrder r) := inferInstanceAs (Decidable (_ ∧ _))

/-- Such a request is answered, with one of the changes. -/
theorem exists_step_inOrder {fs : FileSystem} {r : Request} (h : Reclaimable fs.iNodeManager)
    (hok : fs.InOrder r) : ∃ fs', fs.step r = some fs' ∧ Change fs.iNodeManager r fs'.iNodeManager ∧
      Reclaimable fs'.iNodeManager := by
  obtain ⟨hpre, htree, href, hkeep⟩ := hok
  obtain ⟨fs', hstep, hchange⟩ := exists_checked_change h href
  exact ⟨fs', hstep, hchange, reclaimable_change h hpre htree.linksNoDirectory href hkeep hchange⟩

/-! ### Runs -/

/-- **Reclamation is safe** in every run of the kernel's requests in which no directory is moved to
another parent under a free name, and no counter of links is full: every request is answered, the queue
holds only inodes that are free, each once, and no registration replaces an inode that is still in use. -/
theorem queueSafe_of_keepsParents {process : Ids} {rs : List Request}
    (h : Along step (fun fs r => PreChecked fs.iNodeManager r ∧ LinksNoDirectory fs.iNodeManager r ∧
      Referenced fs.iNodeManager r ∧ KeepsParents fs.iNodeManager r) (mounted process) rs) :
    ∃ fs, run step (mounted process) rs = some fs ∧ QueueSafe fs.iNodeManager ∧
      ReusesOnlyFree fs := by
  have hstep : ∀ (fs : FileSystem) r, Reclaimable fs.iNodeManager →
      (PreChecked fs.iNodeManager r ∧ LinksNoDirectory fs.iNodeManager r ∧
        Referenced fs.iNodeManager r ∧ KeepsParents fs.iNodeManager r) →
      ∃ fs', fs.step r = some fs' ∧ Reclaimable fs'.iNodeManager := by
    rintro fs r hI ⟨hpre, hlink, href, hkeep⟩
    obtain ⟨fs', hfs', hchange⟩ := exists_checked_change hI href
    exact ⟨fs', hfs', reclaimable_change hI hpre hlink href hkeep hchange⟩
  obtain ⟨fs, hrun, hI⟩ := progress_run hstep (mounted_reclaimable process) h
  exact ⟨fs, hrun, hI.queueSafe, reusesOnlyFree hI⟩

/-- A directory replaces an empty one, and is removed and forgotten. -/
theorem queueSafe_replaced_removed :
    ∃ fs, run step (mounted ⟨0, 0⟩)
        [.mkdir 1 [97], .mkdir 1 [98], .mkdir 2 [99], .rename 2 [99] 1 [98], .rmdir 1 [98],
          .forget 4 1, .lookup 1 [97], .forget 2 2] = some fs ∧
      QueueSafe fs.iNodeManager ∧ ReusesOnlyFree fs :=
  queueSafe_of_keepsParents (by decide +kernel)

/-- Two directories are moved into a third, which keeps its two links, and are removed there: the third
has no link left and is queued with its name. -/
theorem not_queueSafe_of_checked :
    ¬ ∀ (process : Ids) (rs : List Request) (fs : FileSystem),
      Along step (fun fs r => PreChecked fs.iNodeManager r ∧ TreeChecked fs.iNodeManager r ∧
        Referenced fs.iNodeManager r) (mounted process) rs →
      run step (mounted process) rs = some fs → QueueSafe fs.iNodeManager := by
  intro hclaim
  let rs : List Request := [.mkdir 1 [97], .mkdir 1 [98], .mkdir 2 [99], .rename 2 [99] 3 [99],
    .rmdir 3 [99], .mkdir 2 [100], .rename 2 [100] 3 [100], .rmdir 3 [100], .forget 3 1]
  have hend : (run step (mounted ⟨0, 0⟩) rs).map (fun fs => (fs.iNodeManager.deletedINodes,
      fs.iNodeManager.names 3)) = some ([3], 1) := by decide +kernel
  obtain ⟨fs, hrun, hread⟩ := Option.map_eq_some_iff.mp hend
  have hsafe := hclaim ⟨0, 0⟩ rs fs (by decide +kernel) hrun
  simp only [Prod.mk.injEq] at hread
  have := (hsafe.free 3 (by simp [hread.1])).2.2
  omega

end FileSystem

end DagonFs
