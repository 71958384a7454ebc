import DagonFs.FileSystem.Reclaim

/-!
# What outlasts the requests on names

`INode.lasting` is an inode without its counts and without the entries of a directory: its number, kind, mode
and owner, the target of a symbolic link, the bytes and the size of a file, the extended attributes.
`lasting_of_inUse`: while a number has a name or is held by the kernel, no run of requests on names changes
any of it, however the names are moved and whatever numbers are reused.
-/

namespace DagonFs

open DagonFs.Nodes DagonFs.Lib.Runs

def Kind.withoutEntries : Kind → Kind
  | .directory d => .directory { d with mChildren := ∅ }
  | k => k

def INode.lasting (i : INode) : INode :=
  { i with
    mNlookup := 0
    markedForDeletion := false
    attr := { i.attr with stNlink := 0 }
    kind := i.kind.withoutEntries }

/-! ### Operations -/

namespace INode

theorem lasting_removeHardLink (i : INode) : i.removeHardLink.lasting = i.lasting := by
  unfold removeHardLink
  dsimp only
  split <;> rfl

theorem lasting_removeHardLinks (fuel : ℕ) (i : INode) : (removeHardLinks fuel i).lasting = i.lasting := by
  induction fuel generalizing i with
  | zero => rfl
  | succ fuel ih =>
    rw [removeHardLinks]
    split
    · rfl
    · rw [ih, lasting_removeHardLink]

end INode

namespace Nodes

variable {ns ns' : Nodes} {x y : ℕ}

/-- What lasts of the inode of a number. -/
def lastingAt (ns : Nodes) (x : ℕ) : Option INode := (ns.iNodes[x]?).map INode.lasting

theorem lastingAt_modifyINode {f : INode → INode} (hf : ∀ i, (f i).lasting = i.lasting) (y x : ℕ) :
    (ns.modifyINode y f).lastingAt x = ns.lastingAt x := by
  rw [lastingAt, modifyINode_getElem?, lastingAt]
  split
  · rw [Option.map_map]
    exact congrArg (Option.map · ns.iNodes[x]?) (funext hf)
  · rfl

theorem lastingAt_onDirectory {c : Children → Children} {g : Directory → Directory}
    (hg : ∀ d, g d = { d with mChildren := c d.mChildren }) (y x : ℕ) :
    (ns.modifyINode y (onDirectory g)).lastingAt x = ns.lastingAt x := by
  refine lastingAt_modifyINode (fun i => ?_) y x
  obtain ⟨_, _, _, _, k⟩ := i
  cases k with
  | directory d =>
    simp only [onDirectory, INode.setDirectory, INode.lasting, Kind.withoutEntries, hg]
  | _ => rfl

@[simp] theorem lastingAt_updateChild (d : ℕ) (name : Name) (ino : ℕ) :
    (ns.updateChild d name ino).lastingAt x = ns.lastingAt x :=
  lastingAt_onDirectory (c := (·.insert name ino)) (fun _ => rfl) d x

@[simp] theorem lastingAt_deleteChild (d : ℕ) (name : Name) :
    (ns.deleteChild d name).lastingAt x = ns.lastingAt x :=
  lastingAt_onDirectory (c := (·.erase name)) (fun _ => rfl) d x

@[simp] theorem lastingAt_addHardLink (y : ℕ) : (ns.addHardLink y).lastingAt x = ns.lastingAt x :=
  lastingAt_modifyINode (f := INode.addHardLink) (fun _ => rfl) y x

@[simp] theorem lastingAt_removeHardLink (y : ℕ) : (ns.removeHardLink y).lastingAt x = ns.lastingAt x :=
  lastingAt_modifyINode INode.lasting_removeHardLink y x

@[simp] theorem lastingAt_removeAllHardLinks (y : ℕ) :
    (ns.removeAllHardLinks y).lastingAt x = ns.lastingAt x :=
  lastingAt_modifyINode (fun i => INode.lasting_removeHardLinks _ i) y x

@[simp] theorem lastingAt_lookupINode (y : ℕ) : (ns.lookupINode y).lastingAt x = ns.lastingAt x :=
  lastingAt_modifyINode (f := INode.lookup) (fun _ => rfl) y x

@[simp] theorem lastingAt_forget (y k : ℕ) : (ns.forget y k).lastingAt x = ns.lastingAt x :=
  lastingAt_modifyINode (f := (·.forget k)) (fun _ => rfl) y x

@[simp] theorem lastingAt_deleteINode (y : ℕ) : (ns.deleteINode y).lastingAt x = ns.lastingAt x := rfl

theorem Registered.lastingAt_ne {ino : ℕ} {i : INode} (h : Registered ns ns' ino i) (hx : x ≠ ino) :
    ns'.lastingAt x = ns.lastingAt x := by
  rw [lastingAt, h.others x hx, lastingAt]

end Nodes

/-! ### Runs -/

namespace FileSystem

variable {ns ns₁ ns' : Nodes} {x ino : ℕ} {i : INode}

/-- The number has a name, or the kernel may use it. -/
def InUse (ns : Nodes) (x : ℕ) : Prop := 0 < ns.names x ∨ Held ns x

instance (ns : Nodes) (x : ℕ) : Decidable (InUse ns x) := inferInstanceAs (Decidable (_ ∨ _))

/-- A new inode gets a number that is not in use. -/
theorem ne_of_inUse (h : Reclaimable ns) (hreg : Registered ns ns₁ ino i) (hx : InUse ns x) : x ≠ ino := by
  rintro rfl
  obtain ⟨hlow, hnames, -⟩ := h.registered hreg
  rcases hx with hpos | hroot | hpos
  · omega
  · omega
  · rcases hreg.place with ⟨hend, -⟩ | ⟨-, hcons⟩
    · have hzero : ns.nlookupOf x = 0 := by
        rw [nlookupOf, List.getElem?_eq_none hend.ge]
        rfl
      omega
    · have hfree := (h.free x (by simp [hcons])).2.2.1
      omega

/-- **The step lemma.** -/
theorem lasting_change {r : Request} (h : Reclaimable ns) (hchange : Change ns r ns') (hx : InUse ns x) :
    ns'.lastingAt x = ns.lastingAt x := by
  cases hchange with
  | refused => rfl
  | looked => simp
  | queued => simp
  | kept => simp
  | madeFile hmakes hparent hreg => simp [hreg.lastingAt_ne (ne_of_inUse h hreg hx)]
  | madeDirectory hmakes hparent hreg => simp [hreg.lastingAt_ne (ne_of_inUse h hreg hx)]
  | linked => simp
  | unlinked => simp
  | removed => simp
  | moved => simp
  | replaced => simp

/-- **An inode in use stays what it is.**  From any state that a run of the kernel's requests has reached, the
requests on names go on as long as number `x` has a name or is held by the kernel: then it is an inode of the
same kind, mode and owner, with the same target, bytes, size and extended attributes. -/
theorem lasting_of_inUse {process : Ids} {rs requests : List Request} {fs : FileSystem} {x : ℕ}
    (h : Along step InOrder (mounted process) rs) (hrun : run step (mounted process) rs = some fs)
    (hok : Along step (fun fs r => fs.InOrder r ∧ InUse fs.iNodeManager x) fs requests) :
    ∃ fs', run step fs requests = some fs' ∧ fs'.iNodeManager.lastingAt x = fs.iNodeManager.lastingAt x := by
  have hreached : Reclaimable fs.iNodeManager := by
    obtain ⟨fs₁, hrun₁, hI⟩ := progress_run (I := fun fs => Reclaimable fs.iNodeManager) (fun fs r hI hok => by
      obtain ⟨fs', hfs', -, hI'⟩ := exists_step_inOrder hI hok
      exact ⟨fs', hfs', hI'⟩) (mounted_reclaimable process) h
    obtain rfl := Option.some.inj (hrun₁.symm.trans hrun)
    exact hI
  have hstep : ∀ (fs₁ : FileSystem) r,
      (Reclaimable fs₁.iNodeManager ∧ fs₁.iNodeManager.lastingAt x = fs.iNodeManager.lastingAt x) →
      (fs₁.InOrder r ∧ InUse fs₁.iNodeManager x) → ∃ fs₂, fs₁.step r = some fs₂ ∧
        Reclaimable fs₂.iNodeManager ∧ fs₂.iNodeManager.lastingAt x = fs.iNodeManager.lastingAt x := by
    rintro fs₁ r ⟨hI, hsame⟩ ⟨horder, huse⟩
    obtain ⟨fs₂, hfs₂, hchange, hI₂⟩ := exists_step_inOrder hI horder
    exact ⟨fs₂, hfs₂, hI₂, (lasting_change hI hchange huse).trans hsame⟩
  obtain ⟨fs', hrun', -, hend⟩ := progress_run hstep ⟨hreached, rfl⟩ hok
  exact ⟨fs', hrun', hend⟩

/-- A symbolic link gets a second name, loses the first one, and is moved over a file. -/
theorem lasting_of_inUse_moved : ∃ fs fs',
    run step (mounted ⟨0, 0⟩) [.symlink ⟨3, 4⟩ [47, 120] 1 [97], .create ⟨3, 4⟩ 1 [98] oRdwr] = some fs ∧
    run step fs [.link 2 1 [99], .unlink 1 [97], .rename 1 [99] 1 [98], .forget 2 2] = some fs' ∧
    fs'.iNodeManager.lastingAt 2 = fs.iNodeManager.lastingAt 2 := by
  have hfacts : (run step (mounted ⟨0, 0⟩) [.symlink ⟨3, 4⟩ [47, 120] 1 [97],
      .create ⟨3, 4⟩ 1 [98] oRdwr]).map (fun fs =>
        decide (Along step (fun fs r => fs.InOrder r ∧ InUse fs.iNodeManager 2) fs
          [.link 2 1 [99], .unlink 1 [97], .rename 1 [99] 1 [98], .forget 2 2])) = some true := by
    decide +kernel
  obtain ⟨fs, hrun, hok⟩ := Option.map_eq_some_iff.mp hfacts
  obtain ⟨fs', hrun', hsame⟩ := lasting_of_inUse (by decide +kernel) hrun (of_decide_eq_true hok)
  exact ⟨fs, fs', hrun, hrun', hsame⟩

end FileSystem

end DagonFs
