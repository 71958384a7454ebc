import DagonFs.Nodes.Effects

/-!
# Registering an inode

`Registered ns ns' ino i`: the table `ns'` is `ns` with the new inode `i` at place `ino`, which is either
the end of the table or the front of the queue.  Nothing else of the table is touched, so every reading
keeps its value away from `ino`, and no name is gained.
-/

namespace DagonFs

open DagonFs.Lib.EntryCount

namespace Nodes

structure Registered (ns ns' : Nodes) (ino : ℕ) (i : INode) : Prop where
  get : ns'.iNodes[ino]? = some i
  others : ∀ x, x ≠ ino → ns'.iNodes[x]? = ns.iNodes[x]?
  length : ns'.iNodes.length = max ns.iNodes.length (ino + 1)
  place : (ino = ns.iNodes.length ∧ ns'.deletedINodes = ns.deletedINodes) ∨
    (ino < ns.iNodes.length ∧ ns.deletedINodes = ino :: ns'.deletedINodes)

/-- `AddINode`, then an operation on the new inode. -/
theorem registered_addINode (ns : Nodes) (i : INode) (f : INode → INode) :
    Registered ns ((ns.addINode i).1.modifyINode ns.iNodes.length f) ns.iNodes.length (f i) := by
  refine ⟨?_, fun x hx => ?_, ?_, Or.inl ⟨rfl, rfl⟩⟩
  · simp [addINode, modifyINode]
  · rw [modifyINode_getElem?, if_neg (Ne.symm hx)]
    rcases Nat.lt_or_ge x ns.iNodes.length with hlt | hge
    · exact List.getElem?_append_left hlt
    · rw [List.getElem?_eq_none hge, List.getElem?_eq_none]
      simp only [addINode, List.length_append, List.length_singleton]
      omega
  · simp [addINode, modifyINode]

/-- `reclaimINode` and `setINodeAt`, then an operation on the new inode. -/
theorem registered_reclaimINode {ns : Nodes} {ino : ℕ} {rest : List ℕ}
    (hqueue : ns.deletedINodes = ino :: rest) (hlt : ino < ns.iNodes.length) (i : INode)
    (f : INode → INode) :
    Registered ns (({ ns with deletedINodes := rest }.setINodeAt ino i).modifyINode ino f) ino (f i) := by
  refine ⟨?_, fun x hx => ?_, ?_, Or.inr ⟨hlt, hqueue⟩⟩
  · rw [modifyINode_getElem?, if_pos rfl, setINodeAt, List.getElem?_set_self hlt]
    rfl
  · rw [modifyINode_getElem?, if_neg (Ne.symm hx), setINodeAt, List.getElem?_set_ne (Ne.symm hx)]
  · rw [modifyINode_length, setINodeAt, List.length_set]
    exact (max_eq_left hlt).symm

/-- An operation on the inode just registered. -/
theorem Registered.modify {ns ns' : Nodes} {ino : ℕ} {i : INode} (h : Registered ns ns' ino i)
    (f : INode → INode) : Registered ns (ns'.modifyINode ino f) ino (f i) := by
  refine ⟨?_, fun x hx => ?_, ?_, h.place⟩
  · rw [modifyINode_getElem?, if_pos rfl, h.get]
    rfl
  · rw [modifyINode_getElem?, if_neg (Ne.symm hx), h.others x hx]
  · rw [modifyINode_length, h.length]

namespace Registered

variable {ns ns' : Nodes} {ino : ℕ} {i : INode} (h : Registered ns ns' ino i)
include h

theorem length_le : ns.iNodes.length ≤ ns'.iNodes.length := by
  rw [h.length]
  exact le_max_left _ _

theorem lt_length : ino < ns'.iNodes.length := by
  have := h.length
  omega

section Away

variable {x : ℕ} (hx : x ≠ ino)
include hx

theorem childrenOf_ne : ns'.childrenOf x = ns.childrenOf x := by
  rw [childrenOf, h.others x hx, childrenOf]

theorem nlinkOf_ne : ns'.nlinkOf x = ns.nlinkOf x := by rw [nlinkOf, h.others x hx, nlinkOf]

theorem nlookupOf_ne : ns'.nlookupOf x = ns.nlookupOf x := by
  rw [nlookupOf, h.others x hx, nlookupOf]

theorem isMarked_ne : ns'.isMarked x = ns.isMarked x := by rw [isMarked, h.others x hx, isMarked]

theorem isDirectory_ne : ns'.isDirectory x = ns.isDirectory x := by
  rw [isDirectory, h.others x hx, isDirectory]

theorem isFileOrLink_ne : ns'.isFileOrLink x = ns.isFileOrLink x := by
  rw [isFileOrLink, h.others x hx, isFileOrLink]

end Away

theorem childrenOf_self : ns'.childrenOf ino = i.children := by rw [childrenOf, h.get]; rfl
theorem nlinkOf_self : ns'.nlinkOf ino = i.attr.stNlink := by rw [nlinkOf, h.get]; rfl
theorem isMarked_self : ns'.isMarked ino = i.markedForDeletion := by rw [isMarked, h.get]; rfl
theorem isDirectory_self : ns'.isDirectory ino = i.isDirectory := by rw [isDirectory, h.get]; rfl

/-- Every entry of the new table is an entry of the old one. -/
theorem entry_of_entry (hi : i.children = ∅) {d x : ℕ} {name : Name}
    (hget : (ns'.childrenOf d)[name]? = some x) : d ≠ ino ∧ (ns.childrenOf d)[name]? = some x := by
  rcases eq_or_ne d ino with rfl | hd
  · rw [h.childrenOf_self, hi] at hget
    simp at hget
  · rw [h.childrenOf_ne hd] at hget
    exact ⟨hd, hget⟩

theorem entriesValid (hi : i.children = ∅) (hv : ns.EntriesValid) : ns'.EntriesValid :=
  fun d name x hget =>
    (hv d name x (h.entry_of_entry hi hget).2).trans_le h.length_le

/-- What the inode that was replaced had named is named once less. -/
theorem names_add (hi : i.children = ∅) (x : ℕ) :
    ns'.names x + occurrences (ns.childrenOf ino) (· == x) = ns.names x := by
  have hself : occurrences (ns'.childrenOf ino) (· == x) = 0 := by
    rw [h.childrenOf_self, hi, occurrences_empty]
  rcases h.place with ⟨hend, -⟩ | ⟨hlt, -⟩
  · have hlen : ns'.iNodes.length = ns.iNodes.length + 1 := by rw [h.length]; omega
    have hold : ns.childrenOf ino = ∅ := ns.childrenOf_of_length_le hend.ge
    rw [hold, occurrences_empty, Nat.add_zero, names, hlen, total_succ, ← hend, hself, Nat.add_zero,
      names, ← hend]
    exact total_congr fun j hj => by rw [h.childrenOf_ne hj.ne]
  · have hlen : ns'.iNodes.length = ns.iNodes.length := by rw [h.length]; omega
    have hchange := total_change (f := ns.childrenOf) (g := ns'.childrenOf) (· == x) hlt
      fun j hj => h.childrenOf_ne hj
    rw [hself, Nat.add_zero] at hchange
    rw [names, hlen, hchange, names]

/-- Registering an inode that nothing names changes no count of subdirectories. -/
theorem subdirectories_ne (hnames : ns.names ino = 0) {d : ℕ} (hd : d ≠ ino) :
    ns'.subdirectories d = ns.subdirectories d := by
  rw [subdirectories, subdirectories, h.childrenOf_ne hd]
  refine occurrences_congr fun k v hget => h.isDirectory_ne ?_
  rintro rfl
  exact ns.names_eq_zero_iff.mp hnames d k hget

theorem subdirectories_self (hi : i.children = ∅) : ns'.subdirectories ino = 0 := by
  rw [subdirectories, h.childrenOf_self, hi, occurrences_empty]

/-! A registered inode that is then given a new name in a directory `p`. -/

section Named

variable {p : ℕ} {name : Name} (hi : i.children = ∅) (hp : ns.isDirectory p = true) (hne : ino ≠ p)
  (habs : (ns.childrenOf p)[name]? = none)
include hp hne

theorem isDirectory_parent : ns'.isDirectory p = true := by
  rw [h.isDirectory_ne (Ne.symm hne), hp]

include hi in
theorem entriesValid_named (hv : ns.EntriesValid) : (ns'.updateChild p name ino).EntriesValid :=
  (h.entriesValid hi hv).updateChild (h.isDirectory_parent hp hne) h.lt_length

include habs

include hi in
theorem names_named (x : ℕ) :
    (ns'.updateChild p name ino).names x + occurrences (ns.childrenOf ino) (· == x) =
      ns.names x + if ino = x then 1 else 0 := by
  have habs' : (ns'.childrenOf p)[name]? = none := by rw [h.childrenOf_ne (Ne.symm hne), habs]
  rw [names_updateChild_new (h.isDirectory_parent hp hne) habs', Nat.add_right_comm,
    h.names_add hi]

include hi in
theorem names_named_of_end (hend : ino = ns.iNodes.length) (x : ℕ) :
    (ns'.updateChild p name ino).names x = ns.names x + if ino = x then 1 else 0 := by
  have hadd := h.names_named hi hp hne habs x
  rwa [ns.childrenOf_of_length_le hend.ge, occurrences_empty, Nat.add_zero] at hadd

theorem subdirectories_named_ne (hnames : ns.names ino = 0) {d : ℕ} (hd : d ≠ ino) :
    (ns'.updateChild p name ino).subdirectories d =
      ns.subdirectories d + if d = p ∧ i.isDirectory = true then 1 else 0 := by
  have habs' : (ns'.childrenOf p)[name]? = none := by rw [h.childrenOf_ne (Ne.symm hne), habs]
  rw [subdirectories_updateChild_new (h.isDirectory_parent hp hne) habs', h.isDirectory_self,
    h.subdirectories_ne hnames hd]

include hi in
theorem subdirectories_named_self : (ns'.updateChild p name ino).subdirectories ino = 0 := by
  have habs' : (ns'.childrenOf p)[name]? = none := by rw [h.childrenOf_ne (Ne.symm hne), habs]
  rw [subdirectories_updateChild_new (h.isDirectory_parent hp hne) habs',
    h.subdirectories_self hi, if_neg fun hself => hne hself.1]

end Named

end Registered

/-- An inode that has got a name in another one, and then been looked up. -/
theorem getElem?_looked {ns : Nodes} {ino p : ℕ} {i : INode} (name : Name) (hne : ino ≠ p)
    (hget : ns.iNodes[ino]? = some i) :
    ((ns.updateChild p name ino).lookupINode ino).iNodes[ino]? = some i.lookup := by
  rw [lookupINode, modifyINode_getElem?, if_pos rfl, updateChild, modifyINode_getElem?,
    if_neg (Ne.symm hne), hget]
  rfl

/-- A link added to another inode before the registration can as well be added after it. -/
theorem Registered.addHardLink_comm {ns ns' : Nodes} {ino p : ℕ} {i : INode}
    (h : Registered (ns.addHardLink p) ns' ino i) (hp : p < ns.iNodes.length) (hne : ino ≠ p) :
    ∃ ns₁, Registered ns ns₁ ino i ∧ ns' = ns₁.addHardLink p := by
  have hlenP : (ns.addHardLink p).iNodes.length = ns.iNodes.length := modifyINode_length ..
  have hp' : p < ns'.iNodes.length := by have := h.length_le; omega
  refine ⟨⟨ns'.iNodes.set p ns.iNodes[p], ns'.deletedINodes⟩, ⟨?_, ?_, ?_, ?_⟩, ?_⟩
  · rw [List.getElem?_set_ne (Ne.symm hne)]
    exact h.get
  · intro x hx
    rcases eq_or_ne p x with rfl | hpx
    · rw [List.getElem?_set_self hp', List.getElem?_eq_getElem hp]
    · rw [List.getElem?_set_ne hpx, h.others x hx, addHardLink, modifyINode_getElem?, if_neg hpx]
  · rw [List.length_set, h.length, hlenP]
  · rw [← hlenP]
    exact h.place
  · have hat : ns'.iNodes[p]? = some (ns.iNodes[p].addHardLink) := by
      rw [h.others p (Ne.symm hne), addHardLink, modifyINode_getElem?, if_pos rfl,
        List.getElem?_eq_getElem hp]
      rfl
    obtain ⟨l, q⟩ := ns'
    simp only [addHardLink, modifyINode, Nodes.mk.injEq, and_true]
    refine List.ext_getElem? fun x => ?_
    rw [List.getElem?_modify]
    rcases eq_or_ne p x with rfl | hpx
    · rw [List.getElem?_set_self hp', hat]
      simp
    · rw [List.getElem?_set_ne hpx]
      simp [hpx]

/-- Setting an entry and adding a link to the same directory commute. -/
theorem addHardLink_updateChild (ns : Nodes) (p : ℕ) (name : Name) (ino : ℕ) :
    (ns.addHardLink p).updateChild p name ino = (ns.updateChild p name ino).addHardLink p := by
  simp only [addHardLink, updateChild, modifyINode, Nodes.mk.injEq, and_true, List.modify_modify_eq]
  congr 1
  funext i
  obtain ⟨_, _, _, _, k⟩ := i
  cases k <;> rfl

/-! The same for the parts of a registration. -/

section Counted

variable {ns : Nodes} {p ino : ℕ}

theorem addHardLink_setINodeAt (i : INode) (hne : ino ≠ p) :
    (ns.addHardLink p).setINodeAt ino i = (ns.setINodeAt ino i).addHardLink p := by
  rw [addHardLink, addHardLink, modifyINode, modifyINode, Nodes.setINodeAt, Nodes.setINodeAt, Nodes.mk.injEq]
  refine ⟨?_, rfl⟩
  show (ns.iNodes.modify p INode.addHardLink).set ino i =
    (ns.iNodes.set ino i).modify p INode.addHardLink
  rw [List.set_eq_modify, List.set_eq_modify]
  exact List.modify_modify_ne _ _ _ (Ne.symm hne)

theorem addHardLink_addINode (i : INode) (hlt : p < ns.iNodes.length) :
    (ns.addHardLink p).addINode i = ((ns.addINode i).1.addHardLink p, ns.iNodes.length) := by
  have hmodify : ∀ (l : List INode) (x : ℕ), x < l.length →
      l.modify x INode.addHardLink ++ [i] = (l ++ [i]).modify x INode.addHardLink := by
    intro l
    induction l with
    | nil =>
      intro x hx
      cases hx
    | cons j l ih =>
      intro x hx
      cases x with
      | zero => rfl
      | succ x =>
        rw [List.modify_succ_cons, List.cons_append, ih x (Nat.lt_of_succ_lt_succ hx)]
        rfl
  show (Nodes.mk (ns.iNodes.modify p INode.addHardLink ++ [i]) ns.deletedINodes,
    (ns.iNodes.modify p INode.addHardLink).length) = _
  rw [hmodify ns.iNodes p hlt, List.length_modify]
  rfl

theorem addHardLink_modifyINode (f : INode → INode) (hne : ino ≠ p) :
    (ns.addHardLink p).modifyINode ino f = (ns.modifyINode ino f).addHardLink p := by
  rw [addHardLink, addHardLink, modifyINode, modifyINode, modifyINode, modifyINode, Nodes.mk.injEq]
  exact ⟨List.modify_modify_ne _ _ _ (Ne.symm hne), rfl⟩

end Counted

end Nodes

end DagonFs
