import DagonFs.ClientServer.BlockWrites

/-!
# Reading a part of a file

A read splits the blocks that it asks for over the ranks again, whoever has them.  `DAGonFS_Write` has placed them
by a split of all blocks of the file, so that a read of a part is defined only when the two splits agree.

* `hasWrite_run`: after a sequence of writes the blocks of the last one are with its owners.
* `partialRead_iff`: when a read of the first bytes gives a prefix of the whole.
-/

namespace DagonFs.DataPath

open DagonFs.Lib.BlockSplit DagonFs.Lib.Runs DagonFs.System

/-- A read of the first `reqSize` bytes uses every address on the rank that has allocated it, and returns these
bytes of a read of the whole file. -/
def PartialRead (L : Launch) (s : System) (inode fileSize reqSize : ℕ) : Prop :=
  WellAddressed L s inode (reqSize ⌈/⌉ L.blockSize) ∧ ∃ whole part,
    s.dagonFS_Read L ⟨inode, fileSize, fileSize, 0⟩ = some (some whole) ∧
    s.dagonFS_Read L ⟨inode, fileSize, reqSize, 0⟩ = some (some part) ∧
    reqSize ≤ part.length ∧ part.take reqSize = whole.take reqSize

variable {L : Launch} {s s' : System} {writes : List BlockWrite} {x : ℕ} {w : BlockWrite}

/-- The blocks of an inode are those of a write, and each is with its owner. -/
def HasWrite (L : Launch) (s : System) (x : ℕ) (w : BlockWrite) : Prop :=
  w.blocks L * L.blockSize ≤ w.buffer.length ∧ ∀ i < w.blocks L, ∃ block, (s.blockList x)[i]? = some block ∧
    Holds s.heaps (owner (w.blocks L) L.mpiWorldSize i) block.getData (blockAt L.blockSize w.buffer i)

/-- The step lemma. -/
theorem hasWrite_step (hstep : systemStep L s w = some s') :
    HasWrite L s' w.inode w ∧ ∀ y v, y ≠ w.inode → HasWrite L s y v → HasWrite L s' y v := by
  have hfit := le_of_dagonFS_Write hstep
  obtain ⟨s₁, hwrite, hw⟩ := dagonFS_Write_spec w.inode hfit (s := s)
  obtain rfl : s₁ = s' := Option.some.inj (hwrite.symm.trans hstep)
  rw [numberOfBlocks_eq_ceilDiv L.blockSize_pos] at hfit hw
  refine ⟨⟨hfit, hw.new⟩, ?_⟩
  intro y v hy h
  refine ⟨h.1, fun i hi => ?_⟩
  obtain ⟨block, hblock, hholds⟩ := h.2 i hi
  exact ⟨block, by rw [hw.others y hy, hblock], hholds.mono hw.heaps⟩

/-- **The run lemma**: the last write of an inode is what its blocks hold. -/
theorem hasWrite_run (hrun : run (systemStep L) s writes = some s')
    (hlast : (writesTo writes x).getLast? = some w) : HasWrite L s' x w := by
  refine history_run (I := fun writes s => ∀ w, (writesTo writes x).getLast? = some w → HasWrite L s x w)
    ?_ ?_ hrun w hlast
  · intro w hw
    cases hw
  · intro writes v s₁ s₂ ih hstep w hw
    obtain ⟨hself, hothers⟩ := hasWrite_step hstep
    rw [writesTo_snoc] at hw
    by_cases hx : v.inode = x
    · rw [if_pos hx, List.getLast?_concat] at hw
      obtain rfl := Option.some.inj hw
      exact hx ▸ hself
    · rw [if_neg hx] at hw
      exact hothers x w (Ne.symm hx) (ih w hw)

/-- A read of a part is a read of a file of that size. -/
theorem dagonFS_Read_part {fileSize reqSize offset : ℕ} (hpos : 0 < reqSize) (hle : reqSize ≤ fileSize) :
    s.dagonFS_Read L ⟨x, fileSize, reqSize, offset⟩ = s.dagonFS_Read L ⟨x, reqSize, reqSize, offset⟩ := by
  have hblocks : numberOfBlocksForRequest L.blockSize fileSize reqSize =
      numberOfBlocksForRequest L.blockSize reqSize reqSize := by
    rw [numberOfBlocksForRequest, numberOfBlocksForRequest, if_neg (Nat.not_lt.mpr hle),
      if_neg (Nat.lt_irrefl _)]
  have hfile : fileSize ≠ 0 := by omega
  have hreq : reqSize ≠ 0 := by omega
  simp only [dagonFS_Read, if_neg hfile, if_neg hreq, hblocks]

/-- A read of blocks that are with the owners by their number. -/
theorem read_of_owners {N size : ℕ} {buffer : List UInt8} (hpos : 0 < size) (hN : size ⌈/⌉ L.blockSize = N)
    (hfit : N * L.blockSize ≤ buffer.length) (hblocks : ∀ i < N, ∃ block, (s.blockList x)[i]? = some block ∧
      Holds s.heaps (owner N L.mpiWorldSize i) block.getData (blockAt L.blockSize buffer i)) :
    s.dagonFS_Read L ⟨x, size, size, 0⟩ = some (some (buffer.take (N * L.blockSize))) := by
  rw [← numberOfBlocks_eq_ceilDiv L.blockSize_pos] at hN
  apply dagonFS_Read_spec (Nat.ne_of_gt hpos)
  · rw [hN, List.length_take, Nat.min_eq_left hfit]
  · rw [hN]
    intro i hi
    obtain ⟨block, hblock, hholds⟩ := hblocks i hi
    have hsame := blockAt_segment L.blockSize 0 N buffer hi
    rw [Nat.zero_mul, List.drop_zero, Nat.zero_add] at hsame
    exact ⟨block, hblock, hsame ▸ hholds⟩

/-- A part can be read exactly when its blocks have the same owners by their number and by that of the file. -/
theorem partialRead_iff_agree (h : HasWrite L s x w) {reqSize : ℕ} (hpos : 0 < reqSize)
    (hle : reqSize ≤ w.fileSize) : PartialRead L s x w.fileSize reqSize ↔
      ∀ b < reqSize ⌈/⌉ L.blockSize, owner (reqSize ⌈/⌉ L.blockSize) L.mpiWorldSize b =
        owner (w.blocks L) L.mpiWorldSize b := by
  have hless : reqSize ⌈/⌉ L.blockSize ≤ w.blocks L := by
    rw [BlockWrite.blocks, ← numberOfBlocks_eq_ceilDiv L.blockSize_pos,
      ← numberOfBlocks_eq_ceilDiv L.blockSize_pos]
    exact numberOfBlocks_mono L.blockSize_pos hle
  have hroom : reqSize ≤ reqSize ⌈/⌉ L.blockSize * L.blockSize := by
    rw [← numberOfBlocks_eq_ceilDiv L.blockSize_pos]
    exact le_numberOfBlocks_mul L.blockSize_pos reqSize
  generalize hN : reqSize ⌈/⌉ L.blockSize = N at hless hroom
  constructor
  · intro hpart b hb
    have hread := hpart.1
    rw [hN, wellAddressed_iff] at hread
    obtain ⟨block, index, hblock, hdata, -⟩ := hread b hb
    obtain ⟨block', hblock', index', hdata', -⟩ := h.2 b (hb.trans_le hless)
    obtain rfl := Option.some.inj (hblock.symm.trans hblock')
    exact congrArg Address.rank (Option.some.inj (hdata.symm.trans hdata'))
  · intro hagree
    have hblocks : ∀ i < N, ∃ block, (s.blockList x)[i]? = some block ∧
        Holds s.heaps (owner N L.mpiWorldSize i) block.getData (blockAt L.blockSize w.buffer i) := by
      intro i hi
      rw [hagree i hi]
      exact h.2 i (hi.trans_le hless)
    have hshort : N * L.blockSize ≤ w.buffer.length := (Nat.mul_le_mul_right _ hless).trans h.1
    have hwhole := read_of_owners (N := w.blocks L) (hpos.trans_le hle) rfl h.1 h.2
    have hpart := read_of_owners hpos hN hshort hblocks
    refine ⟨?_, _, _, hwhole, (dagonFS_Read_part hpos hle).trans hpart, ?_, ?_⟩
    · rw [hN, wellAddressed_iff]
      intro i hi
      obtain ⟨block, hblock, index, hdata, hget⟩ := hblocks i hi
      exact ⟨block, index, hblock, hdata, (List.getElem?_eq_some_iff.mp hget).1⟩
    · rw [List.length_take, Nat.min_eq_left hshort]
      exact hroom
    · have hlong : reqSize ≤ w.blocks L * L.blockSize := hroom.trans (Nat.mul_le_mul_right _ hless)
      rw [List.take_take, List.take_take, Nat.min_eq_left hroom, Nat.min_eq_left hlong]

/-- **When a read of the first bytes is a prefix of the whole.**  With `N` blocks of the file and `M` blocks of the
request: on one process, for one block or all of them, when no process has two blocks of the file, and when all
processes have as many and one block is not asked for. -/
theorem partialRead_iff (hrun : run (systemStep L) s writes = some s')
    (hlast : (writesTo writes x).getLast? = some w) {reqSize : ℕ} (hpos : 0 < reqSize)
    (hle : reqSize ≤ w.fileSize) : PartialRead L s' x w.fileSize reqSize ↔
      L.mpiWorldSize = 1 ∨ reqSize ⌈/⌉ L.blockSize = 1 ∨ reqSize ⌈/⌉ L.blockSize = w.blocks L ∨
        w.blocks L ≤ L.mpiWorldSize ∨
          (L.mpiWorldSize ∣ w.blocks L ∧ reqSize ⌈/⌉ L.blockSize + 1 = w.blocks L) := by
  rw [partialRead_iff_agree (hasWrite_run hrun hlast) hpos hle]
  apply owners_agree_iff L.worldSize_pos
  · rw [← numberOfBlocks_eq_ceilDiv L.blockSize_pos]
    by_contra hzero
    have hroom := le_numberOfBlocks_mul L.blockSize_pos reqSize
    rw [Nat.eq_zero_of_not_pos hzero, Nat.zero_mul] at hroom
    omega
  · rw [BlockWrite.blocks, ← numberOfBlocks_eq_ceilDiv L.blockSize_pos,
      ← numberOfBlocks_eq_ceilDiv L.blockSize_pos]
    exact numberOfBlocks_mono L.blockSize_pos hle

/-- Two processes have two blocks each: three of the four can be read. -/
theorem partialRead_iff_threeBlocks : ∃ s, run (systemStep ⟨2, 4, by decide, by decide⟩) (System.mounted ⟨0, 0⟩)
      [⟨2, [1, 2, 3, 4, 5, 6, 7, 8, 9, 10, 11, 12, 13, 0, 0, 0], 13⟩] = some s ∧
    PartialRead ⟨2, 4, by decide, by decide⟩ s 2 13 9 := by
  have hdefined : (run (systemStep ⟨2, 4, by decide, by decide⟩) (System.mounted ⟨0, 0⟩)
      [⟨2, [1, 2, 3, 4, 5, 6, 7, 8, 9, 10, 11, 12, 13, 0, 0, 0], 13⟩]).isSome = true := by decide +kernel
  obtain ⟨s, hrun⟩ := Option.isSome_iff_exists.mp hdefined
  have hlast : (writesTo [⟨2, [1, 2, 3, 4, 5, 6, 7, 8, 9, 10, 11, 12, 13, 0, 0, 0], 13⟩] 2).getLast? =
      some ⟨2, [1, 2, 3, 4, 5, 6, 7, 8, 9, 10, 11, 12, 13, 0, 0, 0], 13⟩ := rfl
  refine ⟨s, hrun, (partialRead_iff hrun hlast (by decide : 0 < 9) (by decide)).mpr ?_⟩
  exact Or.inr (Or.inr (Or.inr (Or.inr (by decide))))

/-- **A part that is not there.**  Two processes, a file of three blocks: the first has two of them.  A read of two
blocks takes the second one from the other process. -/
theorem not_partialRead : ¬ ∀ (L : Launch) (process : Ids) (writes : List BlockWrite) (s : System) (x : ℕ)
    (w : BlockWrite) (reqSize : ℕ), run (systemStep L) (System.mounted process) writes = some s →
      (writesTo writes x).getLast? = some w → 0 < reqSize → reqSize ≤ w.fileSize →
        PartialRead L s x w.fileSize reqSize := by
  intro h
  have hfacts : (run (systemStep ⟨2, 4, by decide, by decide⟩) (System.mounted ⟨0, 0⟩)
      [⟨2, [1, 2, 3, 4, 5, 6, 7, 8, 9, 0, 0, 0], 9⟩]).map
        (·.dagonFS_Read ⟨2, 4, by decide, by decide⟩ ⟨2, 9, 8, 0⟩) = some none := by decide +kernel
  obtain ⟨s, hrun, hread⟩ := Option.map_eq_some_iff.mp hfacts
  obtain ⟨-, whole, part, -, hpart, -⟩ := h _ _ _ s 2 _ 8 hrun rfl (by decide) (by decide)
  cases hread.symm.trans hpart

end DagonFs.DataPath
