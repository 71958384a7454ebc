import DagonFs.ClientServer.FileEffects
import DagonFs.Lib.Runs

/-!
# When the buffers of files are accessed in bounds

`FuseWrite` decides by `st_blocks` whether the buffer has to grow, `FuseRead` and `FuseFlush` take their
lengths from `st_size`, and neither attribute is kept in step with the buffer: an open, a flush and a
release replace or free it, and `FuseSetAttr` changes the size alone.

`Sized` says, from the two attributes and whether there is a buffer, when a request keeps to the memory it
has.  Along a run of such requests a buffer is never shorter than its blocks (`Roomy`), and every access is
in bounds (`inBounds_of_sized`).
-/

namespace DagonFs

open DagonFs.Lib.Buffer DagonFs.Lib.Runs

namespace System

variable (L : Launch) (s : System)

/-- The state after a request. -/
def next (r : Request) : Option System := (s.handle L r).map Prod.fst

/-- The `count` bytes from `start` on are inside a buffer of `length` bytes. -/
def Inside (length start count : ℕ) : Prop := count = 0 ∨ start + count ≤ length

instance (length start count : ℕ) : Decidable (Inside length start count) :=
  inferInstanceAs (Decidable (_ ∨ _))

/-- The number of bytes of the reply to a read, a `size_t`. -/
def bytesRead (stSize size off : ℕ) : ℕ :=
  if stSize < off + size then (2 ^ 64 + stSize - off) % 2 ^ 64 else size

/-- What a request copies to or from the buffer of a file is inside the memory that the buffer has. -/
def InBounds : Request → Prop
  | .write ino (some data) off junk => ∀ v ∈ s.iNodeManager.fileAt ino,
      Inside ((v.writeBuffer L off data junk).getD []).length off data.length
  | .read ino size off => ∀ v ∈ s.iNodeManager.fileAt ino,
      Inside v.file.bytes.length off (bytesRead v.stSize size off)
  | .flush ino => ∀ v ∈ s.iNodeManager.fileAt ino, v.IsDirty →
      Inside v.file.bytes.length 0 (numberOfBlocks L.blockSize v.stSize * L.blockSize)
  | _ => True

/-- The attributes promise no more than the buffer has.  A file is opened with its content when it has as
many bytes as its blocks say; a write that finds no buffer is past the blocks; a read starts inside the
file, and reads blocks that are in the buffer; and a buffer that is stored has the blocks of the size. -/
def Sized : Request → Prop
  | .open ino flags => ∀ v ∈ s.iNodeManager.fileAt ino, opensForWriting flags = false →
      v.stBlocks ≤ numberOfBlocks L.blockSize v.stSize
  | .write ino (some data) off _ => ∀ v ∈ s.iNodeManager.fileAt ino, v.file.mBuf.isSome = false →
      data = [] ∨ L.blockSize * v.stBlocks < off + data.length
  | .read ino size off => ∀ v ∈ s.iNodeManager.fileAt ino, off ≤ v.stSize ∧
      (min size (v.stSize - off) = 0 ∨ v.file.mBuf.isSome = true ∧
        min (off + size) v.stSize ≤ L.blockSize * v.stBlocks)
  | .flush ino => ∀ v ∈ s.iNodeManager.fileAt ino, v.IsDirty →
      numberOfBlocks L.blockSize v.stSize ≤ v.stBlocks
  | _ => True

instance : ∀ r : Request, Decidable (s.Sized L r)
  | .create .. => isTrue trivial
  | .open ino _ => inferInstanceAs (Decidable (∀ v ∈ s.iNodeManager.fileAt ino, _ → _))
  | .read ino _ _ => inferInstanceAs (Decidable (∀ v ∈ s.iNodeManager.fileAt ino, _ ∧ _))
  | .write ino (some data) off _ => inferInstanceAs (Decidable (∀ v ∈ s.iNodeManager.fileAt ino,
      v.file.mBuf.isSome = false → data = [] ∨ L.blockSize * v.stBlocks < off + data.length))
  | .write _ none _ _ => isTrue trivial
  | .setAttr .. => isTrue trivial
  | .flush ino => inferInstanceAs (Decidable (∀ v ∈ s.iNodeManager.fileAt ino, _ → _))
  | .release _ => isTrue trivial


/-- A file that has a buffer has all its blocks in it. -/
def HasRoom (L : Launch) (v : FileState) : Prop :=
  v.file.mBuf.isSome = true → L.blockSize * v.stBlocks ≤ v.file.bytes.length

/-- Every file has, and no inode number is used again. -/
structure Roomy (L : Launch) (s : System) : Prop where
  queue : s.iNodeManager.deletedINodes = []
  files : ∀ x, ∀ v ∈ s.iNodeManager.fileAt x, HasRoom L v

variable {L : Launch} {s s' : System} {ino : ℕ} {v : FileState}

theorem Roomy.same (h : Roomy L s) (hsame : SameFiles s s') : Roomy L s' :=
  ⟨hsame.queue.trans h.queue, fun x v hv => h.files x v ((hsame.files x).symm.trans hv)⟩

/-- An edit leaves the other files as they were. -/
theorem Roomy.edited (h : Roomy L s) (he : Edited s s' ino v) (hv : HasRoom L v) : Roomy L s' := by
  refine ⟨he.queue.trans h.queue, fun x w hw => ?_⟩
  by_cases hx : x = ino
  · subst hx
    obtain rfl := Option.some.inj (he.self.symm.trans hw)
    exact hv
  · exact h.files x w ((he.others x hx).symm.trans hw)

theorem hasRoom_free (stSize stBlocks : ℕ) (f : File) : HasRoom L ⟨stSize, stBlocks, f.freeBuf⟩ := by
  intro h
  cases h

/-- A write leaves a buffer with room for the blocks. -/
theorem HasRoom.wrote {off : ℕ} {data : List UInt8} {junk : ℕ → UInt8} (h : HasRoom L v)
    (hfit : off + data.length ≤ ((v.writeBuffer L off data junk).getD []).length) :
    HasRoom L (v.wrote L off data junk) := by
  intro hsome
  have hlen : (v.wrote L off data junk).file.bytes.length =
      ((v.writeBuffer L off data junk).getD []).length := by
    simp only [FileState.wrote, File.bytes] at hsome ⊢
    cases hbuf : v.writeBuffer L off data junk with
    | none =>
      rw [hbuf] at hsome
      cases hsome
    | some buf =>
      rw [hbuf] at hfit
      exact length_splice hfit
  rw [hlen]
  simp only [FileState.wrote, FileState.writeBuffer] at hsome ⊢
  split
  · rw [Option.getD_some, length_grow, Nat.mul_comm]
  · rename_i hfits
    rw [if_neg hfits, Option.isSome_map] at hsome
    exact h hsome

theorem roomy_mounted (L : Launch) (process : Ids) : Roomy L (System.mounted process) := by
  refine ⟨rfl, fun x v hv => ?_⟩
  match x with
  | 0 => cases hv
  | 1 => cases hv
  | _ + 2 => cases hv

/-- **The step lemma.** -/
theorem roomy_next {r : Request} (h : Roomy L s) (hok : s.Sized L r) (hs : s.next L r = some s') :
    Roomy L s' := by
  obtain ⟨⟨_, replies⟩, hrun, rfl⟩ := Option.map_eq_some_iff.mp hs
  cases handle_effect hrun with
  | @created ctx parent name flags fs replies' hcreate hs' =>
    obtain ⟨e, hsame⟩ | ⟨fs', attr, hnew, hqueue, -, hself, hothers⟩ :=
      FileSystem.fuseCreate_spec s.fs ctx parent name flags h.queue
    · obtain ⟨rfl, -⟩ := Prod.mk.inj (Option.some.inj (hsame.symm.trans hcreate))
      rw [hs']
      exact h.same ⟨fun _ => rfl, rfl, rfl, rfl⟩
    · obtain ⟨rfl, -⟩ := Prod.mk.inj (Option.some.inj (hnew.symm.trans hcreate))
      rw [hs']
      refine ⟨hqueue, fun x v hv => ?_⟩
      by_cases hx : x = s.fs.iNodeManager.iNodes.length
      · subst hx
        obtain rfl := Option.some.inj (hself.symm.trans hv)
        exact hasRoom_free 0 0 File.new
      · exact h.files x v ((hothers x hx).symm.trans hv)
  | refused _ hsame => exact h.same hsame
  | dropped hfile _ he =>
    refine h.edited he fun _ => ?_
    rw [Nat.mul_zero]
    exact Nat.zero_le _
  | loaded hfile hflags hread he =>
    have hblocks := hok _ hfile hflags
    refine h.edited he fun _ => ?_
    rw [File.bytes, length_of_dagonFS_Read hread, Nat.mul_comm]
    exact Nat.mul_le_mul_right _ hblocks
  | read _ hsame => exact h.same hsame
  | wrote hfile hfit he => exact h.edited he ((h.files _ _ hfile).wrote hfit)
  | resized hfile he =>
    have hroom := h.files _ _ hfile
    exact h.edited he hroom
  | unbuffered _ _ hsame => exact h.same hsame
  | freed _ _ he => exact h.edited he (hasRoom_free _ _ _)
  | distributed hfile hbuf _ hwrite he =>
    have hlists := le_of_dagonFS_Write hwrite
    obtain ⟨s₂, hspec, hwritten⟩ := dagonFS_Write_spec _ hlists (s := s)
    obtain rfl := Option.some.inj (hwrite.symm.trans hspec)
    have hroomy : Roomy L _ := ⟨(congrArg Nodes.deletedINodes hwritten.iNodeManager).trans h.queue,
      fun x v hv => h.files x v ((congrArg (Nodes.fileAt · x) hwritten.iNodeManager).symm.trans hv)⟩
    exact hroomy.edited he (hasRoom_free _ _ _)
  | released _ he => exact h.edited he (hasRoom_free _ _ _)

/-- A request on files with room accesses them in bounds. -/
theorem Roomy.inBounds (h : Roomy L s) (r : Request) (hok : s.Sized L r) : s.InBounds L r := by
  cases r with
  | create | «open» | setAttr | release => trivial
  | write ino buf off junk =>
    cases buf with
    | none => trivial
    | some data =>
      intro v hv
      by_cases hgrows : L.blockSize * v.stBlocks < off + data.length
      · right
        rw [FileState.writeBuffer, if_pos hgrows, Option.getD_some, length_grow]
        exact le_numberOfBlocks_mul L.blockSize_pos _
      · rw [FileState.writeBuffer, if_neg hgrows]
        cases hsome : v.file.mBuf.isSome with
        | false =>
          left
          rcases hok v hv hsome with hempty | hpast
          · rw [hempty]
            rfl
          · exact absurd hpast hgrows
        | true =>
          right
          exact (Nat.le_of_not_lt hgrows).trans (h.files ino v hv hsome)
  | read ino size off =>
    intro v hv
    obtain ⟨hoff, hread⟩ := hok v hv
    have hcount : bytesRead v.stSize size off ≤ min size (v.stSize - off) := by
      rw [bytesRead]
      split
      · have hwrap := Nat.mod_le (v.stSize - off) (2 ^ 64)
        rw [Nat.add_sub_assoc hoff, Nat.add_mod_left]
        omega
      · omega
    rcases hread with hnone | ⟨hsome, hblocks⟩
    · left
      omega
    · right
      have := h.files ino v hv hsome
      omega
  | flush ino =>
    intro v hv hdirty
    right
    rw [Nat.zero_add, Nat.mul_comm]
    exact (Nat.mul_le_mul_left _ (hok v hv hdirty)).trans (h.files ino v hv hdirty.1)

/-- A request that is answered has accessed the buffer in bounds: the others are the undefined ones. -/
theorem inBounds_of_handle {r : Request} (hrun : (s.handle L r).isSome) : s.InBounds L r := by
  obtain ⟨⟨s', replies⟩, hres⟩ := Option.isSome_iff_exists.mp hrun
  cases r with
  | create | «open» | setAttr | release => trivial
  | write ino buf off junk =>
    cases buf with
    | none => trivial
    | some data =>
      intro v hv
      right
      by_contra hout
      rw [handle, fuseWrite_eq hv, if_neg hout] at hres
      cases hres
  | read ino size off =>
    intro v hv
    right
    obtain ⟨i, hsize, -, hkind, hwith⟩ := withINode_file hv
    simp only [handle, fuseRead, hwith, hkind, hsize] at hres
    split at hres
    · cases hres
    · rename_i hoff
      have hcount : bytesRead v.stSize size off ≤
          if v.stSize < off + size then v.stSize - off else size := by
        rw [bytesRead]
        split
        · have hwrap := Nat.mod_le (v.stSize - off) (2 ^ 64)
          rw [Nat.add_sub_assoc (Nat.le_of_not_lt hoff), Nat.add_mod_left]
          exact hwrap
        · exact le_refl _
      generalize (if v.stSize < off + size then v.stSize - off else size) = count at hres hcount
      split at hres
      · rename_i hfit
        exact (Nat.add_le_add_left hcount off).trans hfit
      · cases hres
  | flush ino =>
    intro v hv hdirty
    right
    obtain ⟨i, hsize, -, hkind, hwith⟩ := withINode_file hv
    obtain ⟨buf, hbuf⟩ := Option.isSome_iff_exists.mp hdirty.1
    simp only [handle, fuseFlush, hwith, INode.asFile, hkind, Option.bind_some, hbuf, hdirty.2, if_pos,
      hsize] at hres
    obtain ⟨s₁, hwrite, -⟩ := Option.map_eq_some_iff.mp hres
    rw [Nat.zero_add, File.bytes, hbuf]
    exact le_of_dagonFS_Write hwrite

/-- **Buffers are accessed in bounds.**  In every run of file requests that are sized, every copy to or
from a buffer is inside the memory of the buffer. -/
theorem inBounds_of_sized (L : Launch) (process : Ids) (requests : List Request)
    (hok : Along (next L) (Sized L) (mounted process) requests) :
    Along (next L) (InBounds L) (mounted process) requests :=
  along_of_invariant (fun _ _ _ => roomy_next) (fun _ r h => h.inBounds r) (roomy_mounted L process) hok

/-- A file is written in two pieces with a gap, shortened within its last block, read to its end, flushed
and opened again. -/
theorem inBounds_of_sized_session : Along (next ⟨2, 4, by decide, by decide⟩)
    (InBounds ⟨2, 4, by decide, by decide⟩) (mounted ⟨0, 0⟩)
    [.create ⟨0, 0⟩ 1 [97] oRdwr, .write 2 (some [1, 2]) 0 (fun _ => 7),
      .write 2 (some [3, 4]) 6 (fun _ => 7), .setAttr 2 ⟨0, 0, 0, 0, 7, 0⟩ fuseSetAttrSize, .read 2 9 5,
      .flush 2, .release 2, .open 2 oRdwr, .read 2 9 0] := by
  apply inBounds_of_sized
  decide +kernel

/-- **Buffers are not always accessed in bounds.**  A file is flushed, which frees the buffer, and then
written again, through a duplicate of the descriptor: the byte is copied to a null pointer. -/
theorem not_inBounds_of_run : ¬ ∀ (L : Launch) (process : Ids) (requests : List Request),
    Along (next L) (InBounds L) (mounted process) requests := by
  intro h
  have hall := h ⟨1, 4, by decide, by decide⟩ ⟨0, 0⟩ [.create ⟨0, 0⟩ 1 [97] oRdwr,
    .write 2 (some [1]) 0 (fun _ => 0), .flush 2, .write 2 (some [2]) 0 (fun _ => 0)]
  have hrun : ((run (next ⟨1, 4, by decide, by decide⟩) (mounted ⟨0, 0⟩) [.create ⟨0, 0⟩ 1 [97] oRdwr,
      .write 2 (some [1]) 0 (fun _ => 0), .flush 2]).bind fun s =>
        (s.iNodeManager.fileAt 2).map fun v =>
          ((v.writeBuffer ⟨1, 4, by decide, by decide⟩ 0 [2] (fun _ => 0)).getD []).length) = some 0 := by
    decide +kernel
  obtain ⟨s, hs, hlength⟩ := Option.bind_eq_some_iff.mp hrun
  obtain ⟨v, hfile, hlen⟩ := Option.map_eq_some_iff.mp hlength
  obtain ⟨-, hend⟩ := (@along_append _ _ _ _ _ [_, _, _] [_]).mp hall
  have hlast := hend s hs
  rcases hlast.1 v hfile with hempty | hinside
  · cases hempty
  · rw [hlen] at hinside
    cases hinside

end System

end DagonFs
