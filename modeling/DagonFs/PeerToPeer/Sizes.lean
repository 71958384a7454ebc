import DagonFs.PeerToPeer.Files

/-!
# The sizes of a file on the peers

A handler changes the size of a file at its own peer (`Resized`); only the distributed write of a flush
tells it to the others (`fuseFlush_sizes`).

* `Told`: every peer has the size that was told last, except the peer of the open handle after a change
  that is still unsent.
* `sameSize_of_run`: so all peers have the same size after a session whose changes are sent.
-/

namespace DagonFs

open DagonFs.Nodes DagonFs.Lib.Runs

def INode.sizeOf (i : INode) : Option ℕ := i.fileState.map FileState.stSize

theorem Nodes.sizeOf_eq (ns : Nodes) (x : ℕ) : ns.sizeOf x = ns.iNodes[x]?.bind INode.sizeOf := by
  rw [Nodes.sizeOf, fileAt]
  cases ns.iNodes[x]? <;> rfl

/-- An operation that sets the size of a file by `g`. -/
theorem Nodes.sizeOf_modifyINode (ns : Nodes) {f : INode → INode} {g : ℕ → ℕ}
    (hf : ∀ i : INode, (f i).sizeOf = i.sizeOf.map g) (ino x : ℕ) :
    (ns.modifyINode ino f).sizeOf x = if x = ino then (ns.sizeOf x).map g else ns.sizeOf x := by
  rw [Nodes.sizeOf_eq, Nodes.sizeOf_eq, modifyINode_getElem?]
  by_cases hx : x = ino
  · rw [if_pos hx.symm, if_pos hx]
    cases hget : ns.iNodes[x]? with
    | none => rfl
    | some i => exact hf i
  · rw [if_neg (Ne.symm hx), if_neg hx]

theorem clearSize_sizeOf (i : INode) : (FileSystem.clearSize i).sizeOf = i.sizeOf.map fun _ => 0 := by
  obtain ⟨_, _, _, _, k⟩ := i
  cases k <;> rfl

theorem onFile_sizeOf (g : File → File) (i : INode) : (System.onFile g i).sizeOf = i.sizeOf.map id := by
  obtain ⟨_, _, _, _, k⟩ := i
  cases k <;> rfl

namespace System

variable {s s' : System} {ino : ℕ} {v : FileState}

theorem SameFiles.sizeOf (h : SameFiles s s') (x : ℕ) :
    s'.iNodeManager.sizeOf x = s.iNodeManager.sizeOf x := by
  rw [Nodes.sizeOf, Nodes.sizeOf, h.files]

theorem Edited.sizeOf (h : Edited s s' ino v) (x : ℕ) :
    s'.iNodeManager.sizeOf x = if x = ino then some v.stSize else s.iNodeManager.sizeOf x := by
  by_cases hx : x = ino
  · rw [if_pos hx, hx, Nodes.sizeOf, h.self]
    rfl
  · rw [if_neg hx, Nodes.sizeOf, h.others x hx, Nodes.sizeOf]

end System

namespace PeerToPeer

variable {L : Launch} {s s' : ℕ → Process} {rank ino : ℕ} {replies : List Reply}

/-! ### Distributed writes -/

theorem setSize_sizeOf (fileSize blocks : ℕ) (i : INode) :
    (DistributedCode.setSize fileSize blocks i).sizeOf = i.sizeOf.map fun _ => fileSize := by
  obtain ⟨_, _, _, _, k⟩ := i
  cases k <;> rfl

theorem finishWrite_sizeOf {sourceRank t fileSize : ℕ} {p p' : Peer} {heap : Heap}
    {addresses : List (Option Address)}
    (h : DistributedCode.finishWrite L sourceRank t p ino fileSize heap addresses = some p') (x : ℕ) :
    p'.iNodeManager.sizeOf x = if t ≠ sourceRank ∧ x = ino then
      (p.iNodeManager.sizeOf x).map fun _ => fileSize else p.iNodeManager.sizeOf x := by
  unfold DistributedCode.finishWrite at h
  split at h
  · rename_i hsource
    obtain rfl := Option.some.inj h
    rw [if_neg fun hne => hne.1 hsource]
  · rename_i hsource
    obtain ⟨i, -, rfl⟩ := Option.map_eq_some_iff.mp h
    show (p.iNodeManager.modifyINode ino _).sizeOf x = _
    rw [Nodes.sizeOf_modifyINode _ (setSize_sizeOf fileSize _)]
    simp only [hsource, not_false_eq_true, ne_eq, true_and]

/-- A distributed write tells the size to every peer but its source. -/
theorem dagonFS_Write_sizeOf {peers peers' : ℕ → Peer} {sourceRank fileSize : ℕ} {buffer : List UInt8}
    (h : dagonFS_Write L peers sourceRank buffer ino fileSize = some peers') {t : ℕ}
    (ht : t < L.mpiWorldSize) (x : ℕ) :
    (peers' t).iNodeManager.sizeOf x = if t ≠ sourceRank ∧ x = ino then
      ((peers t).iNodeManager.sizeOf x).map fun _ => fileSize else (peers t).iNodeManager.sizeOf x := by
  obtain ⟨_, _, hend⟩ := dagonFS_Write_ends h ht
  exact finishWrite_sizeOf hend x

/-! ### The handlers -/

/-- The size of one file is changed, at one peer. -/
def Resized (s s' : ℕ → Process) (rank ino : ℕ) (f : ℕ → ℕ) : Prop :=
  ∀ t x, (s' t).sizeOf x = if t = rank ∧ x = ino then ((s t).sizeOf x).map f else (s t).sizeOf x

theorem Resized.refl (s : ℕ → Process) (rank ino : ℕ) : Resized s s rank ino id := by
  intro t x
  rw [Option.map_id, id, ite_self]

/-- A change of the process's own file system. -/
theorem resized_update {fs : FileSystem} {f : ℕ → ℕ}
    (h : ∀ x, fs.iNodeManager.sizeOf x =
      if x = ino then ((s rank).sizeOf x).map f else (s rank).sizeOf x) :
    Resized s (Function.update s rank { s rank with fs := fs }) rank ino f := by
  intro t x
  by_cases ht : t = rank
  · subst ht
    rw [Function.update_self]
    simp only [true_and]
    exact h x
  · rw [Function.update_of_ne ht, if_neg fun hself => ht hself.1]

theorem resized_modifyINode {f : INode → INode} {g : ℕ → ℕ}
    (hf : ∀ i : INode, (f i).sizeOf = i.sizeOf.map g) : Resized s (modifyINode s rank ino f) rank ino g :=
  resized_update fun x => (s rank).fs.iNodeManager.sizeOf_modifyINode hf ino x

/-- A handler that is the same in both models. -/
theorem locally_resized {res : System.Result} {f : ℕ → ℕ}
    (hres : ∀ s₁ r, res = some (s₁, r) → ∀ x, s₁.iNodeManager.sizeOf x =
      if x = ino then ((s rank).sizeOf x).map f else (s rank).sizeOf x)
    (h : locally s rank res = some (s', replies)) : Resized s s' rank ino f := by
  obtain ⟨⟨s₁, r⟩, hrun, hend⟩ := Option.map_eq_some_iff.mp h
  obtain ⟨rfl, -⟩ := Prod.mk.inj hend
  exact resized_update (hres s₁ r hrun)

theorem sizeOf_of_fileAt {p : Process} {v : FileState} (h : p.system.iNodeManager.fileAt ino = some v) :
    p.sizeOf ino = some v.stSize := by
  show (p.system.iNodeManager.fileAt ino).map FileState.stSize = _
  rw [h]
  rfl

theorem sizeOf_of_fileAt_none {p : Process} (h : p.system.iNodeManager.fileAt ino = none) :
    p.sizeOf ino = none := by
  show (p.system.iNodeManager.fileAt ino).map FileState.stSize = _
  rw [h]
  rfl

/-- A request that finds no file leaves all sizes. -/
theorem sizes_of_refused {p : Process} {s₁ : System} {f : ℕ → ℕ}
    (hnone : p.system.iNodeManager.fileAt ino = none) (hsame : System.SameFiles p.system s₁) (x : ℕ) :
    s₁.iNodeManager.sizeOf x = if x = ino then (p.sizeOf x).map f else p.sizeOf x := by
  rw [hsame.sizeOf]
  show p.sizeOf x = _
  by_cases hx : x = ino
  · rw [if_pos hx, hx, sizeOf_of_fileAt_none hnone]
    rfl
  · rw [if_neg hx]

theorem sizes_of_edited {p : Process} {s₁ : System} {v v' : FileState} {f : ℕ → ℕ}
    (hfile : p.system.iNodeManager.fileAt ino = some v) (he : System.Edited p.system s₁ ino v')
    (hsize : v'.stSize = f v.stSize) (x : ℕ) :
    s₁.iNodeManager.sizeOf x = if x = ino then (p.sizeOf x).map f else p.sizeOf x := by
  rw [he.sizeOf]
  by_cases hx : x = ino
  · rw [if_pos hx, if_pos hx, hx, sizeOf_of_fileAt hfile, hsize]
    rfl
  · rw [if_neg hx, if_neg hx]
    rfl

theorem fuseWrite_resized {data : List UInt8} {off : ℕ} {junk : ℕ → UInt8}
    (h : fuseWrite L s rank ino (some data) off junk = some (s', replies)) :
    Resized s s' rank ino fun n => max n (off + data.length) := by
  refine locally_resized ?_ h
  intro s₁ r hrun
  cases System.handle_effect (r := .write ino (some data) off junk) hrun with
  | refused hnone hsame => exact sizes_of_refused (hnone ino rfl) hsame
  | wrote hfile hfit he => exact sizes_of_edited hfile he rfl

theorem fuseWrite_refused {off : ℕ} {junk : ℕ → UInt8}
    (h : fuseWrite L s rank ino none off junk = some (s', replies)) : Resized s s' rank ino id := by
  refine locally_resized ?_ h
  intro s₁ r hrun x
  obtain ⟨rfl, -⟩ := Prod.mk.inj (Option.some.inj hrun)
  rw [Option.map_id, id, ite_self]
  rfl

theorem fuseSetAttr_resized {attr : Stat} {toSet : ℕ}
    (h : fuseSetAttr s rank ino attr toSet = some (s', replies)) :
    Resized s s' rank ino fun n => if isSet toSet fuseSetAttrSize then attr.stSize else n := by
  refine locally_resized ?_ h
  intro s₁ r hrun
  -- the handler does not look at the launch
  have L : Launch := ⟨1, 1, Nat.one_pos, Nat.one_pos⟩
  cases System.handle_effect (L := L) (r := .setAttr ino attr toSet) hrun with
  | refused hnone hsame => exact sizes_of_refused (hnone ino rfl) hsame
  | resized hfile he => exact sizes_of_edited hfile he rfl

theorem fuseRelease_resized (h : fuseRelease s rank ino = some (s', replies)) :
    Resized s s' rank ino id := by
  refine locally_resized ?_ h
  intro s₁ r hrun
  have L : Launch := ⟨1, 1, Nat.one_pos, Nat.one_pos⟩
  cases System.handle_effect (L := L) (r := .release ino) hrun with
  | refused hnone hsame => exact sizes_of_refused (hnone ino rfl) hsame
  | released hfile he => exact sizes_of_edited hfile he rfl

/-- An open that is refused changes nothing; one that succeeds may have cleared the size. -/
theorem fuseOpen_resized {flags : ℕ} (h : fuseOpen L s rank ino flags = some (s', replies)) :
    (replies = [.opened] ∧ Resized s s' rank ino fun n => if opensForWriting flags then 0 else n) ∨
      (replies ≠ [.opened] ∧ s' = s) := by
  unfold fuseOpen withINode at h
  split at h
  · obtain ⟨rfl, rfl⟩ := Prod.mk.inj (Option.some.inj h)
    exact Or.inr ⟨by decide, rfl⟩
  · obtain ⟨inode, -, h⟩ := Option.bind_eq_some_iff.mp h
    cases hkind : inode.kind with
    | file f =>
      left
      simp only [hkind] at h
      by_cases hflags : opensForWriting flags = true
      · rw [if_pos hflags] at h
        obtain ⟨rfl, rfl⟩ := Prod.mk.inj (Option.some.inj h)
        refine ⟨rfl, ?_⟩
        simp only [hflags, if_true]
        exact resized_modifyINode clearSize_sizeOf
      · rw [if_neg hflags] at h
        obtain ⟨buf, -, hend⟩ := Option.map_eq_some_iff.mp h
        obtain ⟨rfl, rfl⟩ := Prod.mk.inj hend
        refine ⟨rfl, ?_⟩
        simp only [hflags, Bool.false_eq_true, if_false]
        exact resized_modifyINode (onFile_sizeOf _)
    | directory | symbolicLink | specialINode =>
      right
      simp only [hkind] at h
      obtain ⟨rfl, rfl⟩ := Prod.mk.inj (Option.some.inj h)
      exact ⟨by decide, rfl⟩

/-- A flush that stores the file leaves all peers with the size of its own; any other leaves the sizes as
they are. -/
theorem fuseFlush_sizes (h : fuseFlush L s rank ino = some (s', replies)) :
    (∃ v, (s rank).fs.iNodeManager.fileAt ino = some v ∧ v.IsDirty ∧ ∀ t < L.mpiWorldSize, ∀ x,
        (s' t).sizeOf x = if x = ino then ((s t).sizeOf x).map fun _ => v.stSize else (s t).sizeOf x) ∨
      (∀ v, (s rank).fs.iNodeManager.fileAt ino = some v → ¬ v.IsDirty) ∧ Resized s s' rank ino id := by
  unfold fuseFlush withINode at h
  split at h
  · rename_i hlarge
    obtain ⟨rfl, -⟩ := Prod.mk.inj (Option.some.inj h)
    refine Or.inr ⟨?_, Resized.refl s rank ino⟩
    intro v hfile
    rw [fileAt, List.getElem?_eq_none hlarge] at hfile
    cases hfile
  · obtain ⟨inode, hget, h⟩ := Option.bind_eq_some_iff.mp h
    obtain ⟨f, hf, h⟩ := Option.bind_eq_some_iff.mp h
    have hfile : (s rank).fs.iNodeManager.fileAt ino =
        some ⟨inode.attr.stSize, inode.attr.stBlocks, f⟩ := by
      rw [getINodeByINodeNumber] at hget
      rw [fileAt, hget, Option.bind_some, INode.fileState, hf]
      rfl
    have hsize : (s rank).sizeOf ino = some inode.attr.stSize := sizeOf_of_fileAt (p := s rank) hfile
    cases hbuf : f.mBuf with
    | none =>
      simp only [hbuf] at h
      obtain ⟨rfl, -⟩ := Prod.mk.inj (Option.some.inj h)
      refine Or.inr ⟨?_, Resized.refl s rank ino⟩
      intro v hv hdirty
      obtain rfl := Option.some.inj (hfile.symm.trans hv)
      have hsome := hdirty.1
      rw [hbuf] at hsome
      cases hsome
    | some buf =>
      simp only [hbuf] at h
      by_cases hwaiting : f.isWaitingForDistributedWrite = true
      · rw [if_pos hwaiting] at h
        obtain ⟨peers, hwrite, hend⟩ := Option.map_eq_some_iff.mp h
        obtain ⟨rfl, -⟩ := Prod.mk.inj hend
        refine Or.inl ⟨_, hfile, ⟨by rw [hbuf]; rfl, hwaiting⟩, ?_⟩
        intro t ht x
        have hfreed : Resized _ _ rank ino id := resized_modifyINode (s := fun r => (s r).setPeer (peers r))
          (onFile_sizeOf fun f => f.removeWaiting.freeBuf)
        have hsame := hfreed t x
        rw [Option.map_id, id, ite_self] at hsame
        refine hsame.trans ((dagonFS_Write_sizeOf hwrite ht x).trans ?_)
        by_cases hself : t = rank
        · subst hself
          rw [if_neg fun hne => hne.1 rfl]
          split
          · rename_i hx
            rw [hx, hsize, Option.map_some]
            exact hsize
          · rfl
        · simp only [ne_eq, hself, not_false_eq_true, true_and]
          rfl
      · rw [if_neg hwaiting] at h
        obtain ⟨rfl, -⟩ := Prod.mk.inj (Option.some.inj h)
        refine Or.inr ⟨?_, resized_modifyINode (onFile_sizeOf _)⟩
        intro v hv hdirty
        obtain rfl := Option.some.inj (hfile.symm.trans hv)
        exact hwaiting hdirty.2

/-! ### Creations -/

/-- A file system in which `ino` is a new empty file. -/
def Creates (p : Process) (fs : FileSystem) (ino : ℕ) : Prop :=
  ∀ x, fs.iNodeManager.sizeOf x = if x = ino then some 0 else p.sizeOf x

theorem creates_of_fuseCreate {p : Process} {fs : FileSystem} {ctx : Ids} {parent flags : ℕ} {name : Name}
    {attr : Stat} (h : p.fs.fuseCreate ctx parent name flags = some (fs, [.create ino attr])) :
    Creates p fs ino := by
  rcases FileSystem.fuseCreate_files h with ⟨e, -, hreplies⟩ | ⟨ino', attr', hreplies, hnew, hothers, -⟩
  · cases hreplies
  · cases hreplies
    intro x
    by_cases hx : x = ino
    · rw [if_pos hx, hx, Nodes.sizeOf, hnew]
      rfl
    · rw [if_neg hx, Nodes.sizeOf, hothers x hx]
      rfl

theorem creates_of_createFile {p p' : Process} {parent : ℕ} {name : Name}
    (h : p.createFile ino parent name = some p') : Creates p p'.fs ino := by
  obtain ⟨⟨fs, replies⟩, hcreate, hnumber⟩ := Option.bind_eq_some_iff.mp h
  split at hnumber
  · rename_i number attr hreplies
    split at hnumber
    · rename_i hsame
      subst hsame
      obtain rfl := Option.some.inj hnumber
      obtain rfl : replies = [.create number attr] := hreplies
      exact creates_of_fuseCreate hcreate
    · cases hnumber
  · cases hnumber

/-! ### Sessions -/

namespace Peers

/-- All peers have the same size for a file. -/
def SameSize (L : Launch) (s : Peers) (x : ℕ) : Prop :=
  ∀ p < L.mpiWorldSize, ∀ q < L.mpiWorldSize, s.sizeOf p x = s.sizeOf q x

/-- The condition on a step, for file `x`, where there is another peer: its size is changed through its open
handle, and the change is stored before the handle is released. -/
def Sends (L : Launch) (x : ℕ) (s : Peers) : FileEvent → Prop
  | .setAttr rank ino attr toSet => 2 ≤ L.mpiWorldSize → ino = x → s.resizes rank ino attr toSet = true →
      (s.session.any fun h => h.rank == rank && h.ino == x) = true
  | .release => 2 ≤ L.mpiWorldSize → (s.session.all fun h => h.ino != x || !h.unsent) = true
  | _ => True

instance (L : Launch) (x : ℕ) (s : Peers) : DecidablePred (Sends L x s)
  | .create .. => isTrue trivial
  | .open .. => isTrue trivial
  | .write .. => isTrue trivial
  | .setAttr rank ino attr toSet => inferInstanceAs (Decidable (2 ≤ L.mpiWorldSize → ino = x →
      s.resizes rank ino attr toSet = true →
        (s.session.any fun h => h.rank == rank && h.ino == x) = true))
  | .flush => isTrue trivial
  | .release => inferInstanceAs (Decidable (2 ≤ L.mpiWorldSize → _ = true))

/-- The peer of the open handle, after a change of the size that is not stored yet. -/
def Excused (s : Peers) (x t : ℕ) : Prop :=
  ∃ h, s.session = some h ∧ h.ino = x ∧ h.rank = t ∧ h.unsent = true

/-- Every peer has the size that was told last, or is excused. -/
def Told (L : Launch) (x : ℕ) (s : Peers) : Prop :=
  ∃ told : Option ℕ, ∀ t < L.mpiWorldSize,
    (s.sizeOf t x).isSome = told.isSome ∧ (s.sizeOf t x = told ∨ s.Excused x t)

variable {s s' : Peers} {x : ℕ}

theorem not_excused (h : s.session = none) (t : ℕ) : ¬ s.Excused x t := by
  intro hexcused
  obtain ⟨_, hsome, -⟩ := hexcused
  rw [h] at hsome
  cases hsome

theorem Told.sameSize (h : Told L x s) (hreleased : s.session = none) : SameSize L s x := by
  obtain ⟨told, htold⟩ := h
  have hall : ∀ t < L.mpiWorldSize, s.sizeOf t x = told := fun t ht =>
    (htold t ht).2.resolve_right (not_excused hreleased t)
  intro p hp q hq
  rw [hall p hp, hall q hq]

theorem told_of_sameSize (h : SameSize L s x) : Told L x s := by
  refine ⟨s.sizeOf 0 x, fun t ht => ?_⟩
  have heq := h t ht 0 L.worldSize_pos
  exact ⟨congrArg Option.isSome heq, Or.inl heq⟩

/-- A change at one peer, which is excused if the size of `x` is another one then. -/
theorem Told.resized {processes : ℕ → Process} {session : Option Session} {f : ℕ → ℕ}
    (h : Told L x s) (hr : Resized s.processes processes rank ino f)
    (hkeep : ∀ t, s.Excused x t → Excused ⟨processes, session⟩ x t)
    (hchange : ino = x → ∀ n, s.sizeOf rank x = some n →
      f n = n ∨ Excused ⟨processes, session⟩ x rank) : Told L x ⟨processes, session⟩ := by
  obtain ⟨told, htold⟩ := h
  refine ⟨told, fun t ht => ?_⟩
  obtain ⟨hsome, hsize⟩ := htold t ht
  have hsizes : sizeOf ⟨processes, session⟩ t x =
      if t = rank ∧ x = ino then (s.sizeOf t x).map f else s.sizeOf t x := hr t x
  by_cases hself : t = rank ∧ x = ino
  · obtain ⟨rfl, rfl⟩ := hself
    rw [if_pos ⟨rfl, rfl⟩] at hsizes
    rw [hsizes]
    refine ⟨by rw [Option.isSome_map, hsome], ?_⟩
    rcases hsize with hsame | hexcused
    · cases hn : s.sizeOf t x with
      | none =>
        left
        rw [← hsame, hn]
        rfl
      | some n =>
        rcases hchange rfl n hn with hf | hexcused
        · left
          rw [Option.map_some, hf, ← hsame, hn]
        · exact Or.inr hexcused
    · exact Or.inr (hkeep t hexcused)
  · rw [if_neg hself] at hsizes
    rw [hsizes]
    exact ⟨hsome, hsize.imp_right (hkeep t)⟩

theorem told_created {parents : ℕ → ℕ} {name : Name} {fs : FileSystem} (h : Told L x s)
    (hreleased : s.session = none) (hcreates : Creates (s.processes rank) fs ino)
    (hstep : s.created L rank ino parents name fs = some s') : Told L x s' := by
  simp only [created] at hstep
  split at hstep
  · rename_i hall
    obtain rfl := Option.some.inj hstep
    have hnew : ∀ t < L.mpiWorldSize, ∀ y, sizeOf ⟨fun t => if t < L.mpiWorldSize then
        (if t = rank then some { s.processes rank with fs := fs }
          else (s.processes t).createFile ino (parents t) name).getD (s.processes t)
        else s.processes t, some ⟨rank, ino, false⟩⟩ t y = if y = ino then some 0 else s.sizeOf t y := by
      intro t ht y
      have hsome := hall t ht
      simp only [sizeOf, if_pos ht]
      by_cases hself : t = rank
      · subst hself
        rw [if_pos rfl]
        exact hcreates y
      · rw [if_neg hself] at hsome ⊢
        obtain ⟨p', hp'⟩ := Option.isSome_iff_exists.mp hsome
        rw [hp']
        exact creates_of_createFile hp' y
    have hsame := h.sameSize hreleased
    apply told_of_sameSize
    intro p hp q hq
    rw [hnew p hp, hnew q hq, hsame p hp q hq]
  · cases hstep

/-- A flush that stores the file tells its size, and leaves nothing unsent. -/
theorem told_stored {hand : Session} {processes : ℕ → Process} {v : FileState} (h : Told L x s)
    (hsession : s.session = some hand)
    (hsizes : ∀ t < L.mpiWorldSize, ∀ y, (processes t).sizeOf y =
      if y = hand.ino then ((s.processes t).sizeOf y).map fun _ => v.stSize
      else (s.processes t).sizeOf y) :
    Told L x ⟨processes, some { hand with
      unsent := hand.unsent && !s.stores hand.rank hand.ino }⟩ := by
  obtain ⟨told, htold⟩ := h
  by_cases hx : x = hand.ino
  · refine ⟨told.map fun _ => v.stSize, fun t ht => ?_⟩
    obtain ⟨hsome, -⟩ := htold t ht
    have hsize : sizeOf ⟨processes, some { hand with
        unsent := hand.unsent && !s.stores hand.rank hand.ino }⟩ t x =
          (s.sizeOf t x).map fun _ => v.stSize := by
      rw [sizeOf, hsizes t ht x, if_pos hx]
      rfl
    rw [hsize, Option.isSome_map, Option.isSome_map, hsome]
    refine ⟨rfl, Or.inl ?_⟩
    cases hold : s.sizeOf t x with
    | none =>
      rw [hold] at hsome
      cases told with
      | none => rfl
      | some m => cases hsome
    | some n =>
      rw [hold] at hsome
      obtain ⟨m, rfl⟩ := Option.isSome_iff_exists.mp hsome.symm
      rfl
  · refine ⟨told, fun t ht => ?_⟩
    obtain ⟨hsome, hsize⟩ := htold t ht
    have hsame : sizeOf ⟨processes, some { hand with
        unsent := hand.unsent && !s.stores hand.rank hand.ino }⟩ t x = s.sizeOf t x := by
      rw [sizeOf, hsizes t ht x, if_neg hx]
      rfl
    rw [hsame]
    refine ⟨hsome, Or.inl (hsize.resolve_right ?_)⟩
    -- the handle is another file's
    intro hexcused
    obtain ⟨hand', hsession', hino, -⟩ := hexcused
    obtain rfl := Option.some.inj (hsession.symm.trans hsession')
    exact hx hino.symm

/-- **The step lemma.** -/
theorem told_step {e : FileEvent} (hpeers : 2 ≤ L.mpiWorldSize) (h : Told L x s) (hsends : s.Sends L x e)
    (hstep : s.step L e = some s') : Told L x s' := by
  cases e with
  | create rank ctx parents name flags =>
    simp only [step] at hstep
    split at hstep
    · rename_i hstart
      have hreleased := Option.isNone_iff_eq_none.mp hstart.2
      obtain ⟨⟨fs, replies⟩, hcreate, hend⟩ := Option.bind_eq_some_iff.mp hstep
      split at hend
      · rename_i ino attr hreplies
        obtain rfl : replies = [.create ino attr] := hreplies
        exact told_created h hreleased (creates_of_fuseCreate hcreate) hend
      · obtain rfl := Option.some.inj hend
        exact h
    · cases hstep
  | «open» rank ino flags =>
    simp only [step] at hstep
    split at hstep
    · rename_i hstart
      have hreleased := Option.isNone_iff_eq_none.mp hstart.2
      obtain ⟨⟨processes, replies⟩, hopen, rfl⟩ := Option.map_eq_some_iff.mp hstep
      rcases fuseOpen_resized hopen with ⟨hreplies, hr⟩ | ⟨hreplies, rfl⟩
      · refine h.resized hr (fun t hexcused => absurd hexcused (not_excused hreleased t)) ?_
        intro hino n hn
        by_cases htruncates : s.truncates rank ino flags = true
        · exact Or.inr ⟨_, if_pos hreplies, hino, rfl, htruncates⟩
        · left
          subst hino
          rw [truncates, hn] at htruncates
          by_cases hflags : opensForWriting flags = true
          · rw [if_pos hflags]
            by_contra hne
            apply htruncates
            rw [hflags, Bool.true_and, Option.any_some]
            exact bne_iff_ne.mpr (Ne.symm hne)
          · rw [if_neg hflags]
      · have hsame : (⟨s.processes, if replies = [.opened] then some ⟨rank, ino, s.truncates rank ino flags⟩
            else none⟩ : Peers) = s := by
          obtain ⟨processes, session⟩ := s
          rw [if_neg hreplies]
          exact congrArg (Peers.mk processes) hreleased.symm
        exact hsame ▸ h
    · cases hstep
  | write buf off junk =>
    obtain ⟨hand, hsession, hend⟩ := Option.bind_eq_some_iff.mp hstep
    obtain ⟨⟨processes, replies⟩, hwrite, rfl⟩ := Option.map_eq_some_iff.mp hend
    have hkeep : ∀ t, s.Excused x t → Excused ⟨processes, some { hand with
        unsent := hand.unsent || s.grows hand.rank hand.ino buf off }⟩ x t := by
      intro t hexcused
      obtain ⟨hand', hsession', hino, hrank, hunsent⟩ := hexcused
      obtain rfl := Option.some.inj (hsession.symm.trans hsession')
      exact ⟨_, rfl, hino, hrank, by rw [hunsent, Bool.true_or]⟩
    cases buf with
    | none => exact h.resized (fuseWrite_refused hwrite) hkeep fun _ n _ => Or.inl rfl
    | some data =>
      refine h.resized (fuseWrite_resized hwrite) hkeep ?_
      intro hino n hn
      by_cases hgrows : n < off + data.length
      · have hunsent : s.grows hand.rank hand.ino (some data) off = true := by
          rw [← hino] at hn
          rw [grows, Option.any_some, hn]
          exact decide_eq_true hgrows
        exact Or.inr ⟨_, rfl, hino, rfl, by rw [hunsent, Bool.or_true]⟩
      · exact Or.inl (max_eq_left (Nat.le_of_not_lt hgrows))
  | setAttr rank ino attr toSet =>
    simp only [step] at hstep
    split at hstep
    · obtain ⟨⟨processes, replies⟩, hset, rfl⟩ := Option.map_eq_some_iff.mp hstep
      have hkeep : ∀ t, s.Excused x t → Excused ⟨processes, s.session.map fun hand =>
          if hand.rank = rank ∧ hand.ino = ino then
            { hand with unsent := hand.unsent || s.resizes rank ino attr toSet }
          else hand⟩ x t := by
        intro t hexcused
        obtain ⟨hand, hsession, hfile, hrank, hunsent⟩ := hexcused
        rw [hsession]
        refine ⟨_, rfl, ?_⟩
        by_cases hopen : hand.rank = rank ∧ hand.ino = ino
        · simp only [if_pos hopen]
          exact ⟨hfile, hrank, by rw [hunsent, Bool.true_or]⟩
        · simp only [if_neg hopen]
          exact ⟨hfile, hrank, hunsent⟩
      refine h.resized (fuseSetAttr_resized hset) hkeep ?_
      intro hino n hn
      by_cases hresizes : s.resizes rank ino attr toSet = true
      · -- through the open handle
        right
        obtain ⟨hand, hsession, hsame⟩ := (Option.any_eq_true _ _).mp (hsends hpeers hino hresizes)
        rw [Bool.and_eq_true, beq_iff_eq, beq_iff_eq] at hsame
        rw [hsession]
        refine ⟨_, rfl, ?_⟩
        simp only [if_pos (⟨hsame.1, hsame.2.trans hino.symm⟩ : hand.rank = rank ∧ hand.ino = ino)]
        exact ⟨hsame.2, hsame.1, by rw [hresizes, Bool.or_true]⟩
      · left
        subst hino
        rw [resizes, hn] at hresizes
        by_cases hflag : isSet toSet fuseSetAttrSize = true
        · rw [if_pos hflag]
          by_contra hne
          apply hresizes
          rw [hflag, Bool.true_and, Option.any_some]
          exact bne_iff_ne.mpr (Ne.symm hne)
        · rw [if_neg hflag]
    · cases hstep
  | flush =>
    obtain ⟨hand, hsession, hend⟩ := Option.bind_eq_some_iff.mp hstep
    obtain ⟨⟨processes, replies⟩, hflush, rfl⟩ := Option.map_eq_some_iff.mp hend
    rcases fuseFlush_sizes hflush with ⟨v, -, -, hsizes⟩ | ⟨hclean, hr⟩
    · exact told_stored h hsession hsizes
    · refine h.resized hr ?_ fun _ n _ => Or.inl rfl
      intro t hexcused
      obtain ⟨hand', hsession', hino, hrank, hunsent⟩ := hexcused
      obtain rfl := Option.some.inj (hsession.symm.trans hsession')
      refine ⟨_, rfl, hino, hrank, ?_⟩
      have hnot : s.stores hand.rank hand.ino = false := by
        rw [stores, Option.any_eq_false]
        intro v hfile
        exact decide_eq_false (hclean v hfile)
      rw [hunsent, hnot]
      rfl
  | release =>
    obtain ⟨hand, hsession, hend⟩ := Option.bind_eq_some_iff.mp hstep
    obtain ⟨⟨processes, replies⟩, hrelease, rfl⟩ := Option.map_eq_some_iff.mp hend
    refine h.resized (fuseRelease_resized hrelease) ?_ fun _ n _ => Or.inl rfl
    intro t hexcused
    obtain ⟨hand', hsession', hino, hrank, hunsent⟩ := hexcused
    exfalso
    have hsent := hsends hpeers
    rw [hsession', Option.all_some, hino, hunsent] at hsent
    simp at hsent

/-- **All peers have the same size for a file** after every session of a run whose changes are sent. -/
theorem sameSize_of_run (L : Launch) (processes : ℕ → Process) (x : ℕ)
    (hsame : SameSize L ⟨processes, none⟩ x) (events : List FileEvent)
    (hsends : Along (Peers.step L) (Sends L x) ⟨processes, none⟩ events) {s : Peers}
    (hrun : run (Peers.step L) ⟨processes, none⟩ events = some s) (hreleased : s.session = none) :
    SameSize L s x := by
  by_cases hpeers : 2 ≤ L.mpiWorldSize
  · have htold : Told L x s := invariant_run (fun _ _ _ hI hok hstep => told_step hpeers hI hok hstep)
      (told_of_sameSize hsame) hsends hrun
    exact htold.sameSize hreleased
  · -- one peer only
    intro p hp q hq
    obtain rfl : p = q := by omega
    rfl

/-- A file grows at the first peer, is cut at the second with a write, and the first reads the size. -/
theorem sameSize_of_run_shared : ∃ s, run (Peers.step ⟨2, 4, by decide, by decide⟩)
      (mounted fun _ => ⟨0, 0⟩) [.create 0 ⟨0, 0⟩ (fun _ => 1) [97] oRdwr,
        .write (some [1, 2, 3, 4, 5]) 0 (fun _ => 0), .flush, .release, .open 1 2 (oWronly ||| oTrunc),
        .write (some [6]) 0 (fun _ => 0), .flush, .release, .open 0 2 oRdwr, .flush, .release] = some s ∧
    SameSize ⟨2, 4, by decide, by decide⟩ s 2 ∧ s.sizeOf 0 2 = some 1 := by
  have hsends : Along (Peers.step ⟨2, 4, by decide, by decide⟩) (Sends ⟨2, 4, by decide, by decide⟩ 2)
      (mounted fun _ => ⟨0, 0⟩) [.create 0 ⟨0, 0⟩ (fun _ => 1) [97] oRdwr,
        .write (some [1, 2, 3, 4, 5]) 0 (fun _ => 0), .flush,
        .release, .open 1 2 (oWronly ||| oTrunc), .write (some [6]) 0 (fun _ => 0), .flush, .release,
        .open 0 2 oRdwr, .flush, .release] := by decide +kernel
  have hfacts : (run (Peers.step ⟨2, 4, by decide, by decide⟩) (mounted fun _ => ⟨0, 0⟩)
      [.create 0 ⟨0, 0⟩ (fun _ => 1) [97] oRdwr, .write (some [1, 2, 3, 4, 5]) 0 (fun _ => 0), .flush,
        .release, .open 1 2 (oWronly ||| oTrunc), .write (some [6]) 0 (fun _ => 0), .flush, .release,
        .open 0 2 oRdwr, .flush, .release]).map (fun s => (s.session.isNone, s.sizeOf 0 2)) =
      some (true, some 1) := by decide +kernel
  obtain ⟨s, hrun, hs⟩ := Option.map_eq_some_iff.mp hfacts
  obtain ⟨hreleased, hsize⟩ := Prod.mk.inj hs
  exact ⟨s, hrun, sameSize_of_run _ _ 2 (fun _ _ _ _ => rfl) _ hsends hrun
    (Option.isNone_iff_eq_none.mp hreleased), hsize⟩

/-- **A file that is cut and not written keeps its size elsewhere.**  The second peer opens the file with
`O_TRUNC` and closes it: nothing is stored, and the first peer still has the old size. -/
theorem not_sameSize_of_run : ¬ ∀ (L : Launch) (process : ℕ → Ids) (events : List FileEvent) (s : Peers),
    run (Peers.step L) (mounted process) events = some s → s.session = none →
      ∀ x, SameSize L s x := by
  intro h
  have hfacts : (run (Peers.step ⟨2, 4, by decide, by decide⟩) (mounted fun _ => ⟨0, 0⟩)
      [.create 0 ⟨0, 0⟩ (fun _ => 1) [97] oRdwr, .write (some [1]) 0 (fun _ => 0), .flush, .release,
        .open 1 2 (oWronly ||| oTrunc), .flush, .release]).map
          (fun s => (s.session.isNone, s.sizeOf 0 2, s.sizeOf 1 2)) = some (true, some 1, some 0) := by
    decide +kernel
  obtain ⟨s, hrun, hs⟩ := Option.map_eq_some_iff.mp hfacts
  obtain ⟨hreleased, hsizes⟩ := Prod.mk.inj hs
  obtain ⟨hfirst, hsecond⟩ := Prod.mk.inj hsizes
  have hsame := h _ _ _ s hrun (Option.isNone_iff_eq_none.mp hreleased) 2 0 (by decide) 1 (by decide)
  rw [hfirst, hsecond] at hsame
  cases hsame

end Peers

end PeerToPeer

end DagonFs
