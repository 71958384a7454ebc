import DagonFs.ClientServer.Replies

/-!
# When an allocation fails

`FuseWrite` replies that it has written nothing, and does not return: it goes on with a null pointer.  `SetXAttr`
looks its name up with `operator[]` before it allocates, which puts an empty value where there is none.

* `fuseWriteAlloc`: a write, with what `realloc` gives; `fuseWriteAlloc_some`: where it gives a buffer this is
  `fuseWrite`.
* `writeAtCopy_failed`: what has changed when a failed write gets to the copy.
* `keptOnFailure_iff`: which failed calls leave the data as it was.
-/

namespace DagonFs

open DagonFs.Lib.Buffer

namespace System

variable (L : Launch) (s : System)

/-- Where a write gets before it copies, and the replies until then; `newBuf` is what `realloc` has given, with the
bytes in the new part. -/
def writeAtCopy (ino : ℕ) (v : FileState) (off size : ℕ) (newBuf : Option (ℕ → UInt8)) :
    System × List Reply :=
  let newSize := off + size
  let originalCapacity := L.blockSize * v.stBlocks
  if originalCapacity < newSize then
    let newBlocks := numberOfBlocks L.blockSize newSize
    let mBuf := newBuf.map fun junk => grow v.file.bytes (newBlocks * L.blockSize) junk
    (s.putWritten ino v ⟨v.stSize, newBlocks, { v.file.setWaiting with mBuf := mBuf }⟩,
      if newBuf.isNone then [.write 0] else [])
  else (s.putWritten ino v { v with file := v.file.setWaiting }, [])

/-- `FuseWrite` of a file. -/
def fuseWriteAlloc (ino : ℕ) (data : List UInt8) (off : ℕ) (newBuf : Option (ℕ → UInt8)) : Result :=
  (s.iNodeManager.fileAt ino).bind fun v =>
    let (s, replies) := s.writeAtCopy L ino v off data.length newBuf
    (s.iNodeManager.fileAt ino).bind fun v =>
      let newSize := off + data.length
      if newSize ≤ v.file.bytes.length then
        let stSize := if v.stSize < newSize then newSize else v.stSize
        some (s.putWritten ino v ⟨stSize, v.stBlocks, { v.file with mBuf := v.file.mBuf.map (splice · off data) }⟩,
          replies ++ [.write data.length])
      else none

/-- The write has replied once, that it has written nothing, and the file and the counters are as they were. -/
def KeptByWrite (ino : ℕ) (data : List UInt8) (off : ℕ) : Prop :=
  ∃ s', s.fuseWriteAlloc L ino data off none = some (s', [.write 0]) ∧
    s'.iNodeManager.fileAt ino = s.iNodeManager.fileAt ino ∧ s'.fs.mStbuf = s.fs.mStbuf

variable {L : Launch} {s : System} {ino : ℕ} {v : FileState}

/-- What a failed write has changed when it gets to the copy. -/
theorem writeAtCopy_failed (hfile : s.iNodeManager.fileAt ino = some v) {off size : ℕ}
    (hgrows : L.blockSize * v.stBlocks < off + size) :
    (s.writeAtCopy L ino v off size none).2 = [.write 0] ∧
      (s.writeAtCopy L ino v off size none).1.iNodeManager.fileAt ino =
        some ⟨v.stSize, numberOfBlocks L.blockSize (off + size), ⟨none, true⟩⟩ ∧
      v.stBlocks < numberOfBlocks L.blockSize (off + size) := by
  rw [writeAtCopy, if_pos hgrows]
  refine ⟨rfl, (edited_putFile hfile _ _ _ _).self, ?_⟩
  by_contra hle
  have hfits := (numberOfBlocks_le_iff L.blockSize_pos _ _).mp (Nat.le_of_not_lt hle)
  rw [Nat.mul_comm] at hfits
  omega

/-- A write that cannot allocate copies to a null pointer. -/
theorem fuseWriteAlloc_failed (hfile : s.iNodeManager.fileAt ino = some v) {data : List UInt8} {off : ℕ}
    (hgrows : L.blockSize * v.stBlocks < off + data.length) : s.fuseWriteAlloc L ino data off none = none := by
  obtain ⟨-, hcopy, -⟩ := writeAtCopy_failed hfile hgrows
  simp only [fuseWriteAlloc, hfile, Option.bind_some, hcopy]
  refine if_neg ?_
  show ¬ off + data.length ≤ 0
  omega

/-! ### A write that can allocate -/

/-- Two changes of a file are one. -/
theorem putWritten_putWritten (s : System) (ino : ℕ) (v v₁ v₂ : FileState) :
    (s.putWritten ino v v₁).putWritten ino v₁ v₂ = s.putWritten ino v v₂ := by
  have hcount : ∀ free : BitVec 64, free - BitVec.ofInt 64 (v₁.stBlocks - v.stBlocks) -
      BitVec.ofInt 64 (v₂.stBlocks - v₁.stBlocks) = free - BitVec.ofInt 64 (v₂.stBlocks - v.stBlocks) := by
    intro free
    have hsum : (v₂.stBlocks - v.stBlocks : ℤ) = (v₁.stBlocks - v.stBlocks) + (v₂.stBlocks - v₁.stBlocks) := by
      omega
    rw [hsum, BitVec.ofInt_add]
    generalize BitVec.ofInt 64 (v₁.stBlocks - v.stBlocks) = a
    generalize BitVec.ofInt 64 (v₂.stBlocks - v₁.stBlocks) = b
    bv_omega
  have hmodify : ∀ ns : Nodes, (ns.modifyINode ino (putFile v₁.stSize v₁.stBlocks v₁.file)).modifyINode ino
      (putFile v₂.stSize v₂.stBlocks v₂.file) = ns.modifyINode ino (putFile v₂.stSize v₂.stBlocks v₂.file) := by
    intro ns
    rw [Nodes.modifyINode, Nodes.modifyINode, Nodes.modifyINode, List.modify_modify_eq]
    rfl
  simp only [putWritten, modifyINode, setFs, FileSystem.setNodes, FileSystem.updateUsedBlocks, hcount, hmodify]

/-- **Where `realloc` gives a buffer**, this is `fuseWrite`. -/
theorem fuseWriteAlloc_some (hfile : s.iNodeManager.fileAt ino = some v) (data : List UInt8) (off : ℕ)
    (junk : ℕ → UInt8) :
    s.fuseWriteAlloc L ino data off (some junk) = s.fuseWrite L ino (some data) off junk := by
  have hcopy : ∃ v₁, s.writeAtCopy L ino v off data.length (some junk) = (s.putWritten ino v v₁, []) ∧
      v₁ = ⟨v.stSize, if L.blockSize * v.stBlocks < off + data.length then
        numberOfBlocks L.blockSize (off + data.length) else v.stBlocks,
          { v.file.setWaiting with mBuf := v.writeBuffer L off data junk }⟩ := by
    refine ⟨_, ?_, rfl⟩
    rw [writeAtCopy]
    split
    · rename_i hgrows
      simp only [FileState.writeBuffer, if_pos hgrows]
      rfl
    · rename_i hfits
      simp only [FileState.writeBuffer, if_neg hfits]
      rfl
  obtain ⟨v₁, hcopy, hv₁⟩ := hcopy
  have hself : (s.putWritten ino v v₁).iNodeManager.fileAt ino = some v₁ := (edited_putFile hfile _ _ _ _).self
  rw [fuseWrite_putWritten hfile]
  have hmax : (if v.stSize < off + data.length then off + data.length else v.stSize) =
      max v.stSize (off + data.length) := by
    split <;> omega
  simp only [fuseWriteAlloc, hfile, Option.bind_some, hcopy, hself, putWritten_putWritten, List.nil_append]
  simp only [hv₁, hmax]
  rfl

end System

/-! ### Extended attributes -/

namespace INode

variable {i : INode} {name : Name} {value : List UInt8} {flags position : ℕ}

/-- `SetXAttr` gets to its `realloc`. -/
def Reallocates (i : INode) (name : Name) (value : List UInt8) (flags position : ℕ) : Prop :=
  (i.mXattr[name]?.isNone && creates flags) = false ∧ (i.mXattr[name]?.isSome && replaces flags) = false ∧
    (i.mXattr[name]?.getD []).length < value.length + position

/-- The call has returned `E2BIG`, and the attributes are as they were. -/
def KeptBySet (i : INode) (name : Name) (value : List UInt8) (flags position : ℕ) : Prop :=
  ∃ i', i.setXAttr name value flags position none = (i', some .e2big) ∧ i'.mXattr = i.mXattr

theorem setXAttr_failed (h : i.Reallocates name value flags position) :
    i.setXAttr name value flags position none =
      ({ i with mXattr := i.mXattr.insert name (i.mXattr[name]?.getD []) }, some .e2big) := by
  obtain ⟨hcreates, hreplaces, hshort⟩ := h
  rw [setXAttr, hcreates, hreplaces]
  simp only [Bool.false_eq_true, if_false, if_pos hshort]

/-- A call that fails keeps the attributes exactly when it has a value to keep. -/
theorem keptBySet_iff (h : i.Reallocates name value flags position) :
    i.KeptBySet name value flags position ↔ i.mXattr[name]?.isSome = true := by
  rw [KeptBySet, setXAttr_failed h]
  constructor
  · rintro ⟨i', hset, hkept⟩
    obtain ⟨rfl, -⟩ := Prod.mk.inj hset
    rw [← hkept]
    show (i.mXattr.insert name (i.mXattr[name]?.getD []))[name]?.isSome = true
    rw [Std.ExtTreeMap.getElem?_insert_self]
    rfl
  · intro hname
    obtain ⟨old, hold⟩ := Option.isSome_iff_exists.mp hname
    refine ⟨_, rfl, Std.ExtTreeMap.ext_getElem? fun other => ?_⟩
    show (i.mXattr.insert name (i.mXattr[name]?.getD []))[other]? = i.mXattr[other]?
    rw [hold, Option.getD_some, Std.ExtTreeMap.getElem?_insert]
    by_cases hsame : other = name
    · subst hsame
      simp [hold]
    · simp [Ne.symm hsame]

end INode

/-- **Which calls keep the data when an allocation fails**: no write, which has changed the file before it copies to
a null pointer, and a `SetXAttr` exactly when the attribute has a value. -/
theorem keptOnFailure_iff (L : Launch) :
    (∀ (s : System) (ino : ℕ) (v : FileState) (data : List UInt8) (off : ℕ),
      s.iNodeManager.fileAt ino = some v → L.blockSize * v.stBlocks < off + data.length →
        ¬ s.KeptByWrite L ino data off ∧
          (s.writeAtCopy L ino v off data.length none).1.iNodeManager.fileAt ino ≠ some v) ∧
    ∀ (i : INode) (name : Name) (value : List UInt8) (flags position : ℕ),
      i.Reallocates name value flags position →
        (i.KeptBySet name value flags position ↔ i.mXattr[name]?.isSome = true) := by
  constructor
  · intro s ino v data off hfile hgrows
    constructor
    · rintro ⟨s', hwrite, -⟩
      rw [System.fuseWriteAlloc_failed hfile hgrows] at hwrite
      cases hwrite
    · obtain ⟨-, hcopy, hmore⟩ := System.writeAtCopy_failed hfile hgrows
      rw [hcopy]
      intro hsame
      have hblocks := congrArg FileState.stBlocks (Option.some.inj hsame)
      exact Nat.ne_of_gt hmore hblocks
  · intro i name value flags position h
    exact INode.keptBySet_iff h

/-- A byte is written to an empty file, and an attribute of one byte is to get a second one. -/
theorem keptOnFailure_iff_longer :
    let i := ((Nodes.createEmptyINode .regularFile).setXAttr [97] [1] 0 0 (some fun _ => 0)).1
    (∃ s replies, (System.mounted ⟨0, 0⟩).fuseCreate ⟨0, 0⟩ 1 [97] 0 = some (s, replies) ∧
      ¬ s.KeptByWrite ⟨1, 4, by decide, by decide⟩ 2 [1] 0) ∧
    i.KeptBySet [97] [1, 2] 0 0 ∧ i.mXattr[([97] : Name)]? = some [1] := by
  intro i
  have hvalue : i.mXattr[([97] : Name)]? = some [1] := by decide +kernel
  have hreallocates : i.Reallocates [97] [1, 2] 0 0 := by
    rw [INode.Reallocates, hvalue]
    decide
  refine ⟨?_, ((keptOnFailure_iff ⟨1, 4, by decide, by decide⟩).2 i _ _ _ _ hreallocates).mpr ?_, hvalue⟩
  · have hfacts : ((System.mounted ⟨0, 0⟩).fuseCreate ⟨0, 0⟩ 1 [97] 0).map
        (fun r => (r.1.iNodeManager.fileAt 2).map FileState.stBlocks) = some (some 0) := by decide +kernel
    obtain ⟨⟨s, replies⟩, hcreate, hblocks⟩ := Option.map_eq_some_iff.mp hfacts
    obtain ⟨v, hfile, hzero⟩ := Option.map_eq_some_iff.mp hblocks
    refine ⟨s, replies, hcreate, ((keptOnFailure_iff _).1 s 2 v [1] 0 hfile ?_).1⟩
    rw [hzero]
    decide
  · rw [hvalue]
    rfl

/-- **Calls that do not keep the data.**  The first byte of a file, and the first value of an attribute. -/
theorem not_keptOnFailure :
    (¬ ∀ (L : Launch) (s : System) (ino : ℕ) (v : FileState) (data : List UInt8) (off : ℕ),
      s.iNodeManager.fileAt ino = some v → L.blockSize * v.stBlocks < off + data.length →
        s.KeptByWrite L ino data off) ∧
    ¬ ∀ (i : INode) (name : Name) (value : List UInt8) (flags position : ℕ),
      i.Reallocates name value flags position → i.KeptBySet name value flags position := by
  constructor
  · intro h
    have hfacts : ((System.mounted ⟨0, 0⟩).fuseCreate ⟨0, 0⟩ 1 [97] 0).map
        (fun r => (r.1.iNodeManager.fileAt 2).map FileState.stBlocks) = some (some 0) := by decide +kernel
    obtain ⟨⟨s, replies⟩, -, hblocks⟩ := Option.map_eq_some_iff.mp hfacts
    obtain ⟨v, hfile, hzero⟩ := Option.map_eq_some_iff.mp hblocks
    have hgrows : 4 * v.stBlocks < 0 + [(1 : UInt8)].length := by
      rw [hzero]
      decide
    obtain ⟨s', hwrite, -⟩ := h ⟨1, 4, by decide, by decide⟩ s 2 v [1] 0 hfile hgrows
    rw [System.fuseWriteAlloc_failed hfile hgrows] at hwrite
    cases hwrite
  · intro h
    have hnone : (Nodes.createEmptyINode .regularFile).mXattr[([97] : Name)]? = none := rfl
    have hreallocates : (Nodes.createEmptyINode .regularFile).Reallocates [97] [1] 0 0 := by
      rw [INode.Reallocates, hnone]
      decide
    have hvalue := (INode.keptBySet_iff hreallocates).mp (h _ _ _ _ _ hreallocates)
    rw [hnone] at hvalue
    cases hvalue

end DagonFs
