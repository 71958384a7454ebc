import DagonFs.Nodes.Table

/-!
# What the table operations do to links and names

For each operation on the table, how it changes the link counts, the marks, the number of names of an
inode and the number of subdirectories of a directory.  Operations that keep the kind of an inode leave
entries alone, operations on a directory's entries leave counts alone, and a registration (`Registered`)
changes one place of the table.
-/

namespace DagonFs

open DagonFs.Lib.EntryCount

namespace Nodes

variable (ns : Nodes)

/-! ### What the operations leave alone -/

/-- Nothing changes but the counts and marks of inodes. -/
abbrev SameEntries (ns' : Nodes) : Prop :=
  ns'.childrenOf = ns.childrenOf ∧ ns'.isDirectory = ns.isDirectory ∧
    ns'.isFileOrLink = ns.isFileOrLink ∧ ns'.iNodes.length = ns.iNodes.length ∧
    ns'.names = ns.names ∧ ns'.subdirectories = ns.subdirectories

/-- Nothing changes but the entries of directories. -/
abbrev SameCounts (ns' : Nodes) : Prop :=
  ns'.nlinkOf = ns.nlinkOf ∧ ns'.nlookupOf = ns.nlookupOf ∧ ns'.isMarked = ns.isMarked ∧
    ns'.isDirectory = ns.isDirectory ∧ ns'.isFileOrLink = ns.isFileOrLink ∧
    ns'.iNodes.length = ns.iNodes.length ∧ ns'.deletedINodes = ns.deletedINodes

theorem SameEntries.trans {ns ns₁ ns₂ : Nodes} (h : ns.SameEntries ns₁) (h' : ns₁.SameEntries ns₂) :
    ns.SameEntries ns₂ :=
  ⟨h'.1.trans h.1, h'.2.1.trans h.2.1, h'.2.2.1.trans h.2.2.1, h'.2.2.2.1.trans h.2.2.2.1,
    h'.2.2.2.2.1.trans h.2.2.2.2.1, h'.2.2.2.2.2.trans h.2.2.2.2.2⟩

theorem modifyINode_sameEntries {f : INode → INode} (hf : ∀ i, (f i).kind = i.kind) (y : ℕ) :
    ns.SameEntries (ns.modifyINode y f) := by
  have hchildren : (ns.modifyINode y f).childrenOf = ns.childrenOf := funext fun x =>
    ns.modifyINode_elim f ∅ INode.children (fun i => by rw [INode.children, hf]; rfl) x
  have hdir : (ns.modifyINode y f).isDirectory = ns.isDirectory := funext fun x =>
    ns.modifyINode_elim f false INode.isDirectory
      (fun i => by rw [INode.isDirectory, INode.asDirectory, hf]; rfl) x
  refine ⟨hchildren, hdir, funext fun x => ?_, modifyINode_length .., funext fun x => ?_,
    funext fun d => ?_⟩
  · exact ns.modifyINode_elim f false INode.isFileOrLink
      (fun i => by rw [INode.isFileOrLink, hf]; rfl) x
  · rw [names, names, hchildren, modifyINode_length]
  · rw [subdirectories, subdirectories, hchildren, hdir]

theorem onDirectory_sameCounts (g : Directory → Directory) (d : ℕ) :
    ns.SameCounts (ns.modifyINode d (onDirectory g)) := by
  refine ⟨funext fun x => ?_, funext fun x => ?_, funext fun x => ?_, funext fun x => ?_,
    funext fun x => ?_, modifyINode_length .., rfl⟩
  · exact ns.modifyINode_elim _ 0 (·.attr.stNlink) (fun i => by rw [onDirectory_attr]) x
  · exact ns.modifyINode_elim _ 0 INode.mNlookup (onDirectory_mNlookup g) x
  · exact ns.modifyINode_elim _ false INode.markedForDeletion (onDirectory_marked g) x
  · exact ns.modifyINode_elim _ false INode.isDirectory (onDirectory_isDirectory g) x
  · exact ns.modifyINode_elim _ false INode.isFileOrLink (onDirectory_isFileOrLink g) x

section Frames

variable (y : ℕ)

@[simp] theorem addHardLink_sameEntries : ns.SameEntries (ns.addHardLink y) :=
  ns.modifyINode_sameEntries INode.addHardLink_kind y

@[simp] theorem removeHardLink_sameEntries : ns.SameEntries (ns.removeHardLink y) :=
  ns.modifyINode_sameEntries INode.removeHardLink_kind y

@[simp] theorem removeAllHardLinks_sameEntries : ns.SameEntries (ns.removeAllHardLinks y) :=
  ns.modifyINode_sameEntries INode.removeAllHardLinks_kind y

@[simp] theorem lookupINode_sameEntries : ns.SameEntries (ns.lookupINode y) :=
  ns.modifyINode_sameEntries INode.lookup_kind y

@[simp] theorem forget_sameEntries (k : ℕ) : ns.SameEntries (ns.forget y k) :=
  ns.modifyINode_sameEntries (INode.forget_kind · k) y

@[simp] theorem deleteINode_sameEntries : ns.SameEntries (ns.deleteINode y) :=
  ⟨rfl, rfl, rfl, rfl, rfl, rfl⟩

@[simp] theorem updateChild_sameCounts (name : Name) (ino : ℕ) :
    ns.SameCounts (ns.updateChild y name ino) := ns.onDirectory_sameCounts _ y

@[simp] theorem deleteChild_sameCounts (name : Name) : ns.SameCounts (ns.deleteChild y name) :=
  ns.onDirectory_sameCounts _ y

@[simp] theorem addHardLink_deletedINodes :
    (ns.addHardLink y).deletedINodes = ns.deletedINodes := rfl
@[simp] theorem removeHardLink_deletedINodes :
    (ns.removeHardLink y).deletedINodes = ns.deletedINodes := rfl
@[simp] theorem removeAllHardLinks_deletedINodes :
    (ns.removeAllHardLinks y).deletedINodes = ns.deletedINodes := rfl
@[simp] theorem lookupINode_deletedINodes :
    (ns.lookupINode y).deletedINodes = ns.deletedINodes := rfl
@[simp] theorem forget_deletedINodes (k : ℕ) :
    (ns.forget y k).deletedINodes = ns.deletedINodes := rfl
@[simp] theorem deleteINode_deletedINodes :
    (ns.deleteINode y).deletedINodes = ns.deletedINodes ++ [y] := rfl

end Frames

/-! ### Link counts, lookup counts and marks -/

section Counts

variable (y : ℕ)

@[simp] theorem lookupINode_nlinkOf : (ns.lookupINode y).nlinkOf = ns.nlinkOf :=
  funext fun x => ns.modifyINode_elim INode.lookup 0 (·.attr.stNlink) (fun _ => rfl) x

@[simp] theorem lookupINode_isMarked : (ns.lookupINode y).isMarked = ns.isMarked :=
  funext fun x => ns.modifyINode_elim INode.lookup false INode.markedForDeletion (fun _ => rfl) x

@[simp] theorem forget_nlinkOf (k : ℕ) : (ns.forget y k).nlinkOf = ns.nlinkOf :=
  funext fun x => ns.modifyINode_elim (·.forget k) 0 (·.attr.stNlink) (fun _ => rfl) x

@[simp] theorem deleteINode_nlinkOf : (ns.deleteINode y).nlinkOf = ns.nlinkOf := rfl
@[simp] theorem deleteINode_nlookupOf : (ns.deleteINode y).nlookupOf = ns.nlookupOf := rfl

@[simp] theorem addHardLink_nlookupOf : (ns.addHardLink y).nlookupOf = ns.nlookupOf :=
  funext fun x => ns.modifyINode_elim INode.addHardLink 0 INode.mNlookup (fun _ => rfl) x

@[simp] theorem addHardLink_isMarked : (ns.addHardLink y).isMarked = ns.isMarked :=
  funext fun x => ns.modifyINode_elim INode.addHardLink false INode.markedForDeletion (fun _ => rfl) x

@[simp] theorem removeHardLink_nlookupOf : (ns.removeHardLink y).nlookupOf = ns.nlookupOf :=
  funext fun x => ns.modifyINode_elim _ 0 INode.mNlookup INode.removeHardLink_mNlookup x

@[simp] theorem removeAllHardLinks_nlookupOf :
    (ns.removeAllHardLinks y).nlookupOf = ns.nlookupOf :=
  funext fun x => ns.modifyINode_elim _ 0 INode.mNlookup INode.removeAllHardLinks_mNlookup x

end Counts

section AtOne

variable {ns} {y : ℕ} (hy : y < ns.iNodes.length) (x : ℕ)
include hy

theorem nlookupOf_lookupINode :
    (ns.lookupINode y).nlookupOf x = if x = y then incr (ns.nlookupOf x) else ns.nlookupOf x := by
  split
  · subst x
    exact ns.modifyINode_elim_self INode.lookup 0 INode.mNlookup incr (fun _ => rfl) hy
  · exact ns.modifyINode_elim_ne _ _ _ ‹_›

theorem nlookupOf_forget {k : ℕ} (hk : k ≤ ns.nlookupOf y) :
    (ns.forget y k).nlookupOf x = if x = y then ns.nlookupOf x - k else ns.nlookupOf x := by
  split
  · subst x
    rw [nlookupOf, forget, modifyINode_getElem?, if_pos rfl, nlookupOf,
      List.getElem?_eq_getElem hy]
    rw [nlookupOf, List.getElem?_eq_getElem hy] at hk
    exact if_pos hk
  · exact ns.modifyINode_elim_ne _ _ _ ‹_›

theorem nlinkOf_addHardLink :
    (ns.addHardLink y).nlinkOf x = if x = y then incr (ns.nlinkOf x) else ns.nlinkOf x := by
  split
  · subst x
    exact ns.modifyINode_elim_self INode.addHardLink 0 (·.attr.stNlink) incr (fun _ => rfl) hy
  · exact ns.modifyINode_elim_ne _ _ _ ‹_›

/-- Below the maximum of the counter, it counts. -/
theorem nlinkOf_addHardLink_lt (hroom : ns.nlinkOf y + 1 < 2 ^ 64) :
    (ns.addHardLink y).nlinkOf x = if x = y then ns.nlinkOf x + 1 else ns.nlinkOf x := by
  rw [nlinkOf_addHardLink hy]
  split
  · rename_i hxy
    rw [hxy, incr_eq hroom]
  · rfl

theorem nlinkOf_removeHardLink :
    (ns.removeHardLink y).nlinkOf x = if x = y then decr (ns.nlinkOf x) else ns.nlinkOf x := by
  split
  · subst x
    exact ns.modifyINode_elim_self INode.removeHardLink 0 (·.attr.stNlink) decr
      INode.removeHardLink_stNlink hy
  · exact ns.modifyINode_elim_ne _ _ _ ‹_›

theorem nlinkOf_removeAllHardLinks :
    (ns.removeAllHardLinks y).nlinkOf x = if x = y then 0 else ns.nlinkOf x := by
  split
  · subst x
    exact ns.modifyINode_elim_self INode.removeAllHardLinks 0 (·.attr.stNlink) (fun _ => 0)
      INode.removeAllHardLinks_stNlink hy
  · exact ns.modifyINode_elim_ne _ _ _ ‹_›

/-- The mark is set when the last link goes, and never taken back. -/
theorem isMarked_removeHardLink :
    (ns.removeHardLink y).isMarked x =
      if x = y then ns.isMarked x || decr (ns.nlinkOf x) == 0 else ns.isMarked x := by
  split
  · subst x
    rw [isMarked, removeHardLink, modifyINode_getElem?, if_pos rfl, isMarked, nlinkOf,
      List.getElem?_eq_getElem hy]
    exact INode.removeHardLink_marked _
  · exact ns.modifyINode_elim_ne _ _ _ ‹_›

end AtOne

theorem isMarked_removeAllHardLinks {x y : ℕ} (hx : x ≠ y) :
    (ns.removeAllHardLinks y).isMarked x = ns.isMarked x :=
  ns.modifyINode_elim_ne _ _ _ hx

/-! ### Entries -/

section Entries

variable {ns} {p : ℕ} (hp : ns.isDirectory p = true)

theorem childrenOf_updateChild_ne (name : Name) (ino : ℕ) {d : ℕ} (hd : d ≠ p) :
    (ns.updateChild p name ino).childrenOf d = ns.childrenOf d :=
  ns.modifyINode_elim_ne _ _ _ hd

theorem childrenOf_deleteChild_ne (name : Name) {d : ℕ} (hd : d ≠ p) :
    (ns.deleteChild p name).childrenOf d = ns.childrenOf d :=
  ns.modifyINode_elim_ne _ _ _ hd

include hp

/-- The entries of a directory after an operation on it. -/
theorem childrenOf_onDirectory {g : Directory → Directory} {c : Children → Children}
    (hg : ∀ d, (g d).mChildren = c d.mChildren) :
    (ns.modifyINode p (onDirectory g)).childrenOf p = c (ns.childrenOf p) := by
  obtain ⟨d, hd⟩ := Option.isSome_iff_exists.mp (isDirectory_eq_isSome ns ▸ hp)
  obtain ⟨i, hi, hk⟩ := Option.bind_eq_some_iff.mp hd
  rw [childrenOf, modifyINode_getElem?, if_pos rfl, childrenOf, hi]
  obtain ⟨_, _, _, _, k⟩ := i
  cases k <;> simp_all [INode.asDirectory, INode.children, onDirectory, INode.setDirectory]

theorem childrenOf_updateChild (name : Name) (ino : ℕ) :
    (ns.updateChild p name ino).childrenOf p = (ns.childrenOf p).insert name ino :=
  childrenOf_onDirectory hp (c := (·.insert name ino)) fun _ => rfl

theorem childrenOf_deleteChild (name : Name) :
    (ns.deleteChild p name).childrenOf p = (ns.childrenOf p).erase name :=
  childrenOf_onDirectory hp (c := (·.erase name)) fun _ => rfl

/-- Only the entry set changes. -/
theorem getElem?_updateChild (name : Name) (ino d : ℕ) (k : Name) :
    ((ns.updateChild p name ino).childrenOf d)[k]? =
      if d = p ∧ k = name then some ino else (ns.childrenOf d)[k]? := by
  by_cases hd : d = p
  · subst hd
    rw [childrenOf_updateChild hp, Std.ExtTreeMap.getElem?_insert]
    simp only [Std.compare_eq_iff_eq, true_and, eq_comm (a := name)]
  · rw [childrenOf_updateChild_ne _ _ hd, if_neg fun h => hd h.1]

theorem getElem?_deleteChild (name : Name) (d : ℕ) (k : Name) :
    ((ns.deleteChild p name).childrenOf d)[k]? =
      if d = p ∧ k = name then none else (ns.childrenOf d)[k]? := by
  by_cases hd : d = p
  · subst hd
    rw [childrenOf_deleteChild hp, Std.ExtTreeMap.getElem?_erase]
    simp only [Std.compare_eq_iff_eq, true_and, eq_comm (a := name)]
  · rw [childrenOf_deleteChild_ne _ hd, if_neg fun h => hd h.1]

theorem EntriesValid.updateChild (h : ns.EntriesValid) {name : Name} {ino : ℕ}
    (hino : ino < ns.iNodes.length) : (ns.updateChild p name ino).EntriesValid := by
  intro d k x hget
  rw [getElem?_updateChild hp] at hget
  simp only [updateChild_sameCounts]
  split at hget
  · rw [Option.some.injEq] at hget
    exact hget ▸ hino
  · exact h d k x hget

theorem EntriesValid.deleteChild (h : ns.EntriesValid) {name : Name} :
    (ns.deleteChild p name).EntriesValid := by
  intro d k x hget
  rw [getElem?_deleteChild hp] at hget
  simp only [deleteChild_sameCounts]
  split at hget
  · exact absurd hget (by simp)
  · exact h d k x hget

/-! ### Counting names and subdirectories -/

/-- Setting a new name of a directory. -/
theorem names_updateChild_new {name : Name} (habs : (ns.childrenOf p)[name]? = none) (ino x : ℕ) :
    (ns.updateChild p name ino).names x = ns.names x + if ino = x then 1 else 0 := by
  have hchange := total_change (f := ns.childrenOf) (g := (ns.updateChild p name ino).childrenOf)
    (· == x) (lt_of_isDirectory ns hp) fun j hj => childrenOf_updateChild_ne _ _ hj
  rw [childrenOf_updateChild hp, occurrences_insert_of_none _ _ habs] at hchange
  simp only [hit, beq_iff_eq] at hchange
  simp only [names, updateChild_sameCounts]
  omega

/-- Setting a name that named `y`. -/
theorem names_updateChild_old {name : Name} {y : ℕ} (hy : (ns.childrenOf p)[name]? = some y)
    (ino x : ℕ) :
    (ns.updateChild p name ino).names x + (if y = x then 1 else 0) =
      ns.names x + if ino = x then 1 else 0 := by
  have hchange := total_change (f := ns.childrenOf) (g := (ns.updateChild p name ino).childrenOf)
    (· == x) (lt_of_isDirectory ns hp) fun j hj => childrenOf_updateChild_ne _ _ hj
  have hset := occurrences_insert_of_some (· == x) ino hy
  rw [childrenOf_updateChild hp] at hchange
  simp only [hit, beq_iff_eq] at hset
  simp only [names, updateChild_sameCounts]
  omega

/-- Dropping a name that named `y`. -/
theorem names_deleteChild {name : Name} {y : ℕ} (hy : (ns.childrenOf p)[name]? = some y) (x : ℕ) :
    (ns.deleteChild p name).names x + (if y = x then 1 else 0) = ns.names x := by
  have hchange := total_change (f := ns.childrenOf) (g := (ns.deleteChild p name).childrenOf)
    (· == x) (lt_of_isDirectory ns hp) fun j hj => childrenOf_deleteChild_ne _ hj
  have hdrop := occurrences_erase_of_some (· == x) hy
  rw [childrenOf_deleteChild hp] at hchange
  simp only [hit, beq_iff_eq] at hdrop
  simp only [names, deleteChild_sameCounts]
  omega

theorem subdirectories_updateChild_new {name : Name} (habs : (ns.childrenOf p)[name]? = none)
    (ino d : ℕ) :
    (ns.updateChild p name ino).subdirectories d =
      ns.subdirectories d + if d = p ∧ ns.isDirectory ino = true then 1 else 0 := by
  simp only [subdirectories, updateChild_sameCounts]
  by_cases hd : d = p
  · subst hd
    rw [childrenOf_updateChild hp, occurrences_insert_of_none _ _ habs]
    simp [hit]
  · simp [childrenOf_updateChild_ne _ _ hd, hd]

theorem subdirectories_updateChild_old {name : Name} {y : ℕ}
    (hy : (ns.childrenOf p)[name]? = some y) (ino d : ℕ) :
    (ns.updateChild p name ino).subdirectories d +
        (if d = p ∧ ns.isDirectory y = true then 1 else 0) =
      ns.subdirectories d + if d = p ∧ ns.isDirectory ino = true then 1 else 0 := by
  simp only [subdirectories, updateChild_sameCounts]
  by_cases hd : d = p
  · subst hd
    have hset := occurrences_insert_of_some ns.isDirectory ino hy
    rw [childrenOf_updateChild hp]
    simpa [hit] using hset
  · simp [childrenOf_updateChild_ne _ _ hd, hd]

theorem subdirectories_deleteChild {name : Name} {y : ℕ}
    (hy : (ns.childrenOf p)[name]? = some y) (d : ℕ) :
    (ns.deleteChild p name).subdirectories d +
        (if d = p ∧ ns.isDirectory y = true then 1 else 0) = ns.subdirectories d := by
  simp only [subdirectories, deleteChild_sameCounts]
  by_cases hd : d = p
  · subst hd
    have hdrop := occurrences_erase_of_some ns.isDirectory hy
    rw [childrenOf_deleteChild hp]
    simpa [hit] using hdrop
  · simp [childrenOf_deleteChild_ne _ hd, hd]

end Entries

/-! ### Moving a name -/

section Move

variable {ns} {p q x : ℕ} {name newname : Name} (hp : ns.isDirectory p = true)
  (hq : ns.isDirectory q = true) (hx : (ns.childrenOf p)[name]? = some x)
  (hne : (p, name) ≠ (q, newname))
include hp hq hx hne

omit hp in
/-- Setting the new name leaves the old one in place. -/
theorem getElem?_updateChild_other :
    ((ns.updateChild q newname x).childrenOf p)[name]? = some x := by
  rw [getElem?_updateChild hq, if_neg fun h => hne (Prod.ext h.1 h.2), hx]

theorem names_move_new (habs : (ns.childrenOf q)[newname]? = none) (z : ℕ) :
    ((ns.updateChild q newname x).deleteChild p name).names z = ns.names z := by
  have hset := names_updateChild_new hq habs x z
  have hdrop := names_deleteChild
    (show (ns.updateChild q newname x).isDirectory p = true by simpa using hp)
    (getElem?_updateChild_other hq hx hne) z
  omega

theorem names_move_old {y : ℕ} (hy : (ns.childrenOf q)[newname]? = some y) (z : ℕ) :
    ((ns.updateChild q newname x).deleteChild p name).names z + (if y = z then 1 else 0) =
      ns.names z := by
  have hset := names_updateChild_old hq hy x z
  have hdrop := names_deleteChild
    (show (ns.updateChild q newname x).isDirectory p = true by simpa using hp)
    (getElem?_updateChild_other hq hx hne) z
  omega

theorem subdirectories_move_new (habs : (ns.childrenOf q)[newname]? = none) (d : ℕ) :
    ((ns.updateChild q newname x).deleteChild p name).subdirectories d +
        (if d = p ∧ ns.isDirectory x = true then 1 else 0) =
      ns.subdirectories d + if d = q ∧ ns.isDirectory x = true then 1 else 0 := by
  have hset := subdirectories_updateChild_new hq habs x d
  have hdrop := subdirectories_deleteChild
    (show (ns.updateChild q newname x).isDirectory p = true by simpa using hp)
    (getElem?_updateChild_other hq hx hne) d
  simp only [updateChild_sameCounts] at hdrop
  omega

theorem subdirectories_move_old {y : ℕ} (hy : (ns.childrenOf q)[newname]? = some y) (d : ℕ) :
    ((ns.updateChild q newname x).deleteChild p name).subdirectories d +
        (if d = p ∧ ns.isDirectory x = true then 1 else 0) +
        (if d = q ∧ ns.isDirectory y = true then 1 else 0) =
      ns.subdirectories d + if d = q ∧ ns.isDirectory x = true then 1 else 0 := by
  have hset := subdirectories_updateChild_old hq hy x d
  have hdrop := subdirectories_deleteChild
    (show (ns.updateChild q newname x).isDirectory p = true by simpa using hp)
    (getElem?_updateChild_other hq hx hne) d
  simp only [updateChild_sameCounts] at hdrop
  omega

end Move

theorem EntriesValid.sameEntries {ns ns' : Nodes} (hsame : ns.SameEntries ns')
    (h : ns.EntriesValid) : ns'.EntriesValid := by
  intro d name x hget
  rw [hsame.1] at hget
  rw [hsame.2.2.2.1]
  exact h d name x hget

end Nodes

end DagonFs
