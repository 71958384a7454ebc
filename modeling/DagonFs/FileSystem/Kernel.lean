import DagonFs.FileSystem.Changes
import DagonFs.Lib.Runs

/-!
# The kernel's side of the protocol

The kernel resolves paths itself and checks each request against what it knows of the tree before it
sends it.  `PreChecked` is what it has checked about the names of a request, `TreeChecked` what it has
checked about the shape of the tree, and `Referenced` how it uses the references it was handed out.
-/

namespace DagonFs

open DagonFs.Nodes DagonFs.Lib.EntryCount DagonFs.Lib.Runs

namespace FileSystem

/-- All requests but those that only hand references out and take them back. -/
def Request.changesNames : Request → Bool
  | .lookup .. => false
  | .forget .. => false
  | _ => true

/-- `q` can be reached from `x` through fewer than `fuel` entries. -/
def inSubtree (ns : Nodes) : ℕ → ℕ → ℕ → Bool
  | 0, _, _ => false
  | fuel + 1, x, q =>
    x == q || (ns.childrenOf x).toList.any fun e => inSubtree ns fuel e.2 q

/-- New names do not exist yet, only non-directories are unlinked, and a rename moves an entry to
another entry, which names an inode of the same type if it exists. -/
def PreChecked (ns : Nodes) (r : Request) : Prop :=
  (∀ p ∈ r.makes, (ns.childrenOf p.1)[p.2]? = none) ∧
    match r with
    | .link _ newparent newname => (ns.childrenOf newparent)[newname]? = none
    | .unlink parent name => ∀ x ∈ (ns.childrenOf parent)[name]?, ns.isDirectory x = false
    | .rename parent name newparent newname =>
      (parent, name) ≠ (newparent, newname) ∧
        ∀ x ∈ (ns.childrenOf parent)[name]?, ∀ y ∈ (ns.childrenOf newparent)[newname]?,
          ns.isDirectory x = ns.isDirectory y
    | _ => True

instance (ns : Nodes) (r : Request) : Decidable (PreChecked ns r) := by
  cases r <;> exact inferInstanceAs (Decidable (_ ∧ _))

/-- Links are made to non-directories only. -/
def LinksNoDirectory (ns : Nodes) : Request → Prop
  | .link ino _ _ => ns.isDirectory ino = false
  | _ => True

instance (ns : Nodes) : ∀ r : Request, Decidable (LinksNoDirectory ns r)
  | .link .. => inferInstanceAs (Decidable (_ = false))
  | .lookup .. | .forget .. | .mknod .. | .mkdir .. | .symlink .. | .create .. | .unlink .. | .rmdir .. |
    .rename .. => isTrue trivial

/-- Hard links are made to non-directories only, `rmdir` is for directories, and a directory is renamed
neither into its own subtree nor onto a directory that is not empty. -/
def TreeChecked (ns : Nodes) : Request → Prop
  | .link ino _ _ => ns.isDirectory ino = false
  | .rmdir parent name => ∀ x ∈ (ns.childrenOf parent)[name]?, ns.isDirectory x = true
  | .rename parent name newparent newname =>
    ∀ x ∈ (ns.childrenOf parent)[name]?, ns.isDirectory x = true →
      inSubtree ns ns.iNodes.length x newparent = false ∧
        ∀ y ∈ (ns.childrenOf newparent)[newname]?, (ns.childrenOf y).isEmpty = true
  | _ => True

instance (ns : Nodes) (r : Request) : Decidable (TreeChecked ns r) := by
  cases r <;> unfold TreeChecked <;> infer_instance

theorem TreeChecked.linksNoDirectory {ns : Nodes} {r : Request} (h : TreeChecked ns r) :
    LinksNoDirectory ns r := by
  cases r with
  | link => exact h
  | _ => trivial

/-- The kernel may name an inode: the root, or one that it holds a reference to. -/
def Held (ns : Nodes) (x : ℕ) : Prop := x = rootINode ∨ 0 < ns.nlookupOf x

instance (ns : Nodes) (x : ℕ) : Decidable (Held ns x) := inferInstanceAs (Decidable (_ ∨ _))

/-- The inodes that a request names are held, and a forget gives back at least one reference and no more
than were handed out.  The kernel counts its references with 64 bits. -/
def Referenced (ns : Nodes) : Request → Prop
  | .lookup parent name =>
    Held ns parent ∧ ∀ x ∈ (ns.childrenOf parent)[name]?, ns.nlookupOf x + 1 < 2 ^ 64
  | .forget ino nlookup => 1 ≤ nlookup ∧ nlookup ≤ ns.nlookupOf ino
  | .mknod _ parent _ _ => Held ns parent
  | .mkdir parent _ => Held ns parent
  | .symlink _ _ parent _ => Held ns parent
  | .create _ parent _ _ => Held ns parent
  | .link ino newparent _ => (Held ns ino ∧ ns.nlookupOf ino + 1 < 2 ^ 64) ∧ Held ns newparent
  | .unlink parent _ => Held ns parent
  | .rmdir parent _ => Held ns parent
  | .rename parent _ newparent _ => Held ns parent ∧ Held ns newparent

instance (ns : Nodes) (r : Request) : Decidable (Referenced ns r) := by
  cases r <;> unfold Referenced <;> infer_instance

/-! ### The mounted file system -/

section Mounted

variable (process : Ids)

theorem mounted_childrenOf (x : ℕ) : (mounted process).iNodeManager.childrenOf x = ∅ := by
  match x with
  | 0 => rfl
  | 1 => rfl
  | x + 2 => exact childrenOf_of_length_le _ (Nat.le_add_left 2 x)

theorem mounted_names (x : ℕ) : (mounted process).iNodeManager.names x = 0 := by
  rw [names_eq_zero_iff]
  intro d name
  rw [mounted_childrenOf]
  simp

theorem mounted_subdirectories (x : ℕ) : (mounted process).iNodeManager.subdirectories x = 0 := by
  rw [subdirectories, mounted_childrenOf, occurrences_empty]

theorem mounted_isFileOrLink (x : ℕ) : (mounted process).iNodeManager.isFileOrLink x = false := by
  match x with
  | 0 => rfl
  | 1 => rfl
  | x + 2 =>
    rw [isFileOrLink, List.getElem?_eq_none (Nat.le_add_left 2 x)]
    rfl

theorem mounted_wellFormed : WellFormed (mounted process).iNodeManager where
  entries := fun d name x hget => by
    rw [mounted_childrenOf] at hget
    simp at hget
  queue := fun x hx => absurd hx List.not_mem_nil
  special := rfl

end Mounted

/-! ### Runs without forgets -/

/-- What a table keeps in a run without forgets: nothing is queued, so numbers are handed out in order. -/
structure Unqueued (ns : Nodes) : Prop where
  entries : ns.EntriesValid
  queue : ns.deletedINodes = []
  special : ns.isDirectory 0 = false

theorem Unqueued.wellFormed {ns : Nodes} (h : Unqueued ns) : WellFormed ns :=
  ⟨h.entries, by simp [h.queue], h.special⟩

theorem mounted_unqueued (process : Ids) : Unqueued (mounted process).iNodeManager :=
  ⟨(mounted_wellFormed process).entries, rfl, rfl⟩

/-- A new inode is the last of the table, and nothing named its number before. -/
theorem Unqueued.registered {ns ns₁ : Nodes} {ino parent : ℕ} {i : INode} (h : Unqueued ns)
    (hparent : ns.isDirectory parent = true) (hreg : Registered ns ns₁ ino i) :
    ino = ns.iNodes.length ∧ ns₁.deletedINodes = [] ∧ ns.names ino = 0 ∧
      ns₁.isDirectory 0 = false := by
  have hplace : ino = ns.iNodes.length ∧ ns₁.deletedINodes = [] := by
    rcases hreg.place with ⟨hend, hsame⟩ | ⟨-, hcons⟩
    · exact ⟨hend, hsame.trans h.queue⟩
    · rw [h.queue] at hcons
      cases hcons
  have hlt := lt_of_isDirectory ns hparent
  refine ⟨hplace.1, hplace.2, ns.names_of_length_le h.entries hplace.1.ge, ?_⟩
  rw [hreg.isDirectory_ne (by omega), h.special]

theorem unqueued_change {ns ns' : Nodes} {r : Request} (h : Unqueued ns)
    (hnames : r.changesNames = true) (hchange : Change ns r ns') : Unqueued ns' := by
  suffices hrest : ns'.deletedINodes = [] ∧ ns'.isDirectory 0 = false from
    ⟨entriesValid_change h.entries hchange, hrest.1, hrest.2⟩
  have hq := h.queue
  have hs := h.special
  cases hchange with
  | refused => exact ⟨hq, hs⟩
  | looked => cases hnames
  | queued => cases hnames
  | kept => cases hnames
  | madeFile hmakes hparent hreg =>
    obtain ⟨-, hqueue, -, hspecial⟩ := h.registered hparent hreg
    simp [hqueue, hspecial]
  | madeDirectory hmakes hparent hreg =>
    obtain ⟨-, hqueue, -, hspecial⟩ := h.registered hparent hreg
    simp [hqueue, hspecial]
  | linked => simp [hq, hs]
  | unlinked => simp [hq, hs]
  | removed => simp [hq, hs]
  | moved => simp [hq, hs]
  | replaced => simp [hq, hs]

/-- Without a queue, a request that changes names is always answered. -/
theorem exists_change {fs : FileSystem} {r : Request} (h : Unqueued fs.iNodeManager)
    (hnames : r.changesNames = true) :
    ∃ fs', fs.step r = some fs' ∧ Change fs.iNodeManager r fs'.iNodeManager := by
  refine exists_step (handle_change h.wellFormed r ?_ fun parent name _ => by simp [h.queue])
  rintro ino k rfl
  cases hnames

/-- **The rule for runs without forgets.**  What holds of the mounted file system, and is kept by every
change that a request meeting `ok` makes to a table without a queue, holds at the end of every run. -/
theorem unqueued_run (process : Ids) (ok : Nodes → Request → Prop) (I : Nodes → Prop)
    (hI : I (mounted process).iNodeManager)
    (hstep : ∀ ns r ns', Unqueued ns → I ns → r.changesNames = true → ok ns r →
      Change ns r ns' → I ns') {rs : List Request}
    (h : Along step (fun fs r => r.changesNames = true ∧ ok fs.iNodeManager r) (mounted process) rs) :
    ∃ fs, run step (mounted process) rs = some fs ∧ I fs.iNodeManager := by
  obtain ⟨fs, hrun, -, hend⟩ := progress_run
    (I := fun fs => Unqueued fs.iNodeManager ∧ I fs.iNodeManager)
    (fun fs r hinv hok => by
      obtain ⟨fs', hfs', hchange⟩ := exists_change hinv.1 hok.1
      exact ⟨fs', hfs', unqueued_change hinv.1 hok.1 hchange,
        hstep _ r _ hinv.1 hinv.2 hok.1 hok.2 hchange⟩)
    ⟨mounted_unqueued process, hI⟩ h
  exact ⟨fs, hrun, hend⟩

end FileSystem

end DagonFs
