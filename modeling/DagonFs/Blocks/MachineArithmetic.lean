import DagonFs.Blocks.Distribution
import DagonFs.Lib.MachineInt
import Mathlib.Data.PNat.Defs

/-!
# The arithmetic of a distributed write or read in its own types

`Distribution` counts blocks and bytes with numbers.  Here are the same computations as the two programs
compile them: sizes are `size_t`, the block counts `unsigned int` in the client-server model and `size_t`
in the peer-to-peer model, and what MPI is given, the counts, the displacements and their running
offset, is `int`, as are the indices and byte positions of `addDataBlocksTo`.  All processes of a program
compute the same arrays; the block lists are those of the master, or of any peer.

The exact numbers come out as long as all blocks of the operation together have less than `2 ^ 31` bytes
(`exactRun_iff`).
-/

namespace DagonFs.Machine

open DagonFs.Lib.Collective DagonFs.Lib.BlockSplit DagonFs.Lib.MachineInt

/-- The two programs that are built from the repository. -/
inductive Model
  | clientServer
  | peerToPeer
  deriving DecidableEq

/-- `FILE_SYSTEM_SINGLE_BLOCK_SIZE`. -/
def Model.blockSize : Model → ℕ
  | clientServer => 131072
  | peerToPeer => 512

/-- The bits of the block counts: `unsigned int` or `size_t`. -/
def Model.countBits : Model → ℕ
  | clientServer => 32
  | peerToPeer => 64

theorem Model.blockSize_pos (model : Model) : 0 < model.blockSize := by cases model <;> decide

/-- A launch with `n` processes. -/
def Model.launch (model : Model) (n : ℕ+) : Launch := ⟨n, model.blockSize, n.pos, model.blockSize_pos⟩

/-- The block counts of an operation; `effectiveBlocks` is each rank's own. -/
structure BlockCounts where
  numberOfBlocks : ℕ
  blockPerProcess : ℕ
  remainingBlocks : ℕ
  effectiveBlocks : ℕ → ℕ

/-- What an operation computes: the block counts, and the arrays of its scatter and of its gather. -/
structure Values where
  blocks : BlockCounts
  scatter : IntLayout
  gather : IntLayout

section Operations

variable (model : Model) (n : ℕ+)

/-- `size / FILE_SYSTEM_SINGLE_BLOCK_SIZE + (size % FILE_SYSTEM_SINGLE_BLOCK_SIZE > 0)` in `size_t`. -/
def blocksOf (size : ℕ) : ℕ := toUnsigned 64 (numberOfBlocks model.blockSize size)

/-- `blockPerProcess + (rank < remainingBlocks)`, before the conversion to a type. -/
def blocksOfRank (blockPerProcess remainingBlocks rank : ℕ) : ℕ :=
  blockPerProcess + if rank < remainingBlocks then 1 else 0

/-- The block counts of `DAGonFS_Write`. -/
def writeBlocks (fileSize : ℕ) : BlockCounts :=
  let numberOfBlocks := toUnsigned model.countBits (blocksOf model fileSize)
  let blockPerProcess := numberOfBlocks / n
  let remainingBlocks := numberOfBlocks % n
  ⟨numberOfBlocks, blockPerProcess, remainingBlocks, fun rank =>
    toUnsigned model.countBits (blocksOfRank blockPerProcess remainingBlocks rank)⟩

/-- The block counts of `DAGonFS_Read`.  The number of blocks is a `size_t` in both programs. -/
def readBlocks (fileSize reqSize : ℕ) : BlockCounts :=
  let numberOfBlocksForRequest :=
    if fileSize < reqSize then blocksOf model fileSize else blocksOf model reqSize
  let blockPerProcess := toUnsigned model.countBits (numberOfBlocksForRequest / n : ℕ)
  let remainingBlocks := toUnsigned model.countBits (numberOfBlocksForRequest % n : ℕ)
  ⟨numberOfBlocksForRequest, blockPerProcess, remainingBlocks, fun rank =>
    toUnsigned model.countBits
      (toUnsigned 64 (blocksOfRank (numberOfBlocksForRequest / n) remainingBlocks rank))⟩

/-- `(blockPerProcess + (i < remainingBlocks)) * width` with a product of `productBits`, as an `int`. -/
def count (blocks : BlockCounts) (productBits width i : ℕ) : ℤ :=
  let factor :=
    toUnsigned model.countBits (blocksOfRank blocks.blockPerProcess blocks.remainingBlocks i)
  toSigned 32 (toUnsigned productBits (factor * width))

/-- The arrays for blocks.  `FILE_SYSTEM_SINGLE_BLOCK_SIZE` is an `int`, so the product has the type of
the block counts. -/
def blockArrays (blocks : BlockCounts) : Option IntLayout :=
  fillInts 32 (count model blocks model.countBits model.blockSize) n

/-- The arrays for addresses.  `sizeof(PointerPacket)` is a `size_t`. -/
def pointerArrays (blocks : BlockCounts) : Option IntLayout :=
  fillInts 32 (count model blocks 64 pointerPacketSize) n

/-- The counts and arrays of `DAGonFS_Write`. -/
def writeValues (fileSize : ℕ) : Option Values :=
  let blocks := writeBlocks model n fileSize
  (blockArrays model n blocks).bind fun scatter =>
    (pointerArrays model n blocks).map fun gather => ⟨blocks, scatter, gather⟩

/-- The counts and arrays of `DAGonFS_Read`; it returns before them when the file is empty. -/
def readValues (fileSize reqSize : ℕ) : Option (Option Values) :=
  if fileSize = 0 then some none
  else
    let blocks := readBlocks model n fileSize reqSize
    (pointerArrays model n blocks).bind fun scatter =>
      (blockArrays model n blocks).map fun gather => some ⟨blocks, scatter, gather⟩

/-- The loop of `addDataBlocksTo`, with `fuel` rounds to go. -/
def addDataBlocksLoop (inode : ℕ) : ℕ → ℤ → ℕ → List DataBlock → Option (List DataBlock)
  | 0, _, _, blockList => some blockList
  | fuel + 1, i, rank_i, blockList =>
    (signed 32 (i * model.blockSize)).bind fun bytes =>
      let dataBlock := { DataBlock.new inode with
        processRank := rank_i, progressiveNumber := toUnsigned 32 i
        absoluteBytes := toUnsigned 32 bytes }
      addDataBlocksLoop inode fuel (i + 1) (nextRank n rank_i) (blockList ++ [dataBlock])

/-- `addDataBlocksTo`. -/
def addDataBlocksTo (blockList : List DataBlock) (nblocks : ℤ) (inode : ℕ) :
    Option (List DataBlock) :=
  let startingIndex := toSigned 32 blockList.length
  let newSize := toSigned 32 (toUnsigned 64 (blockList.length + nblocks))
  let lastRank :=
    if blockList.length = 0 then some 0
    else (signed 32 (startingIndex - 1)).bind fun last =>
      (blockList[toUnsigned 64 last]?).map DataBlock.processRank
  lastRank.bind fun lastRank =>
    addDataBlocksLoop model n inode (newSize - startingIndex).toNat startingIndex lastRank blockList

/-- The block list after a write of `numberOfBlocks` blocks with the gathered addresses. -/
def recordAddresses (inode numberOfBlocks : ℕ) (addresses : List (Option Address))
    (inodeBlockList : List DataBlock) : Option (List DataBlock) :=
  let additionBlocks := toSigned 32 (toUnsigned 64 (numberOfBlocks - inodeBlockList.length))
  let inodeBlockList :=
    if 0 < additionBlocks then addDataBlocksTo model n inodeBlockList additionBlocks inode
    else some inodeBlockList
  inodeBlockList.bind fun inodeBlockList =>
    -- `inodeBlockList[i]` past the end is undefined
    if numberOfBlocks ≤ inodeBlockList.length then
      some (setAddresses addresses numberOfBlocks inodeBlockList)
    else none

end Operations

/-! ### Exact values -/

/-- The counts of an operation on `N` blocks. -/
structure BlockCounts.Exact (n : ℕ+) (N : ℕ) (blocks : BlockCounts) : Prop where
  numberOfBlocks : blocks.numberOfBlocks = N
  blockPerProcess : blocks.blockPerProcess = N / n
  remainingBlocks : blocks.remainingBlocks = N % n
  effectiveBlocks : ∀ rank < (n : ℕ), blocks.effectiveBlocks rank = share N n rank

/-- The values of an operation on `N` blocks whose collectives move elements of these widths. -/
structure Values.Exact (n : ℕ+) (N scatterWidth gatherWidth : ℕ) (values : Values) : Prop where
  blocks : values.blocks.Exact n N
  scatter : values.scatter.Exact n fun i => share N n i * scatterWidth
  gather : values.gather.Exact n fun i => share N n i * gatherWidth

/-- The list grows to `N` blocks, and the new ones have their places and byte positions. -/
structure ExactGrowth (blockSize N : ℕ) (before after : List DataBlock) : Prop where
  length : after.length = max before.length N
  numbers : ∀ i block, before.length ≤ i → after[i]? = some block →
    block.progressiveNumber = i ∧ block.absoluteBytes = i * blockSize

/-- A distributed operation on the file `inode`. -/
inductive Operation
  | write (inode fileSize : ℕ) (addresses : List (Option Address))
  | read (inode fileSize reqSize : ℕ)

/-- The bytes that an operation has to move. -/
def Operation.size : Operation → ℕ
  | write _ fileSize _ => fileSize
  | read _ fileSize reqSize => min fileSize reqSize

/-- One operation computes the exact values, and takes the block lists from `bs` to `bs'`. -/
def ExactStep (model : Model) (n : ℕ+) : Operation → Blocks → Blocks → Prop
  | .write inode fileSize addresses, bs, bs' => ∃ values blockList,
      writeValues model n fileSize = some values ∧
      values.Exact n (fileSize ⌈/⌉ model.blockSize) model.blockSize pointerPacketSize ∧
      recordAddresses model n inode values.blocks.numberOfBlocks addresses
        (bs.getDataBlockListOfInode inode) = some blockList ∧
      ExactGrowth model.blockSize (fileSize ⌈/⌉ model.blockSize) (bs.getDataBlockListOfInode inode)
        blockList ∧
      bs' = bs.setBlockListForInode inode blockList
  | .read _ fileSize reqSize, bs, bs' => ∃ result,
      readValues model n fileSize reqSize = some result ∧
      (∀ values ∈ result, values.Exact n (min fileSize reqSize ⌈/⌉ model.blockSize)
        pointerPacketSize model.blockSize) ∧
      bs' = bs

/-- Every operation of a run computes the exact values. -/
def ExactRun (model : Model) (n : ℕ+) : List Operation → Blocks → Prop
  | [], _ => True
  | operation :: operations, bs => ∃ bs', ExactStep model n operation bs bs' ∧
      ExactRun model n operations bs'

/-! ### The bound

`k` blocks fit when they have less than `2 ^ 31` bytes. -/

variable {model : Model} {n : ℕ+} {N k : ℕ}

theorem fits_iff (model : Model) (size : ℕ) :
    size ⌈/⌉ model.blockSize * model.blockSize < 2 ^ 31 ↔ size + model.blockSize ≤ 2 ^ 31 := by
  have hB := model.blockSize_pos
  rw [← numberOfBlocks_eq_ceilDiv hB]
  have hle : ∀ k, numberOfBlocks model.blockSize size ≤ k ↔ size ≤ k * model.blockSize :=
    numberOfBlocks_le_iff hB size
  cases model with
  | clientServer =>
    have h := hle (2 ^ 14 - 1)
    simp only [Model.blockSize] at h ⊢
    omega
  | peerToPeer =>
    have h := hle (2 ^ 22 - 1)
    simp only [Model.blockSize] at h ⊢
    omega

theorem lt_of_fits (h : k * model.blockSize < 2 ^ 31) : k < 2 ^ 31 :=
  (Nat.le_mul_of_pos_right k model.blockSize_pos).trans_lt h

theorem pointerPacketSize_le (model : Model) : pointerPacketSize ≤ model.blockSize := by
  cases model <;> decide

theorem toUnsigned_countBits (h : k < 2 ^ 31) : toUnsigned model.countBits k = k := by
  apply toUnsigned_of_lt
  cases model <;> exact h.trans (by decide)

theorem toUnsigned_size (h : k < 2 ^ 31) : toUnsigned 64 k = k := toUnsigned_of_lt (h.trans (by decide))

theorem toSigned_int (h : k < 2 ^ 31) : toSigned 32 k = k :=
  toSigned_of_inRange (by decide) (inRange_of_lt h)

/-! ### Counts and arrays -/

theorem share_lt (hN : N < 2 ^ 31) {i : ℕ} (hi : i < n) : share N n i < 2 ^ 31 :=
  (share_le n.pos hi).trans_lt hN

/-- `blocksOfRank` of the exact quotient and remainder. -/
theorem blocksOfRank_eq (N n i : ℕ) : blocksOfRank (N / n) (N % n) i = share N n i := rfl

theorem writeBlocks_exact {fileSize : ℕ} (hN : fileSize ⌈/⌉ model.blockSize < 2 ^ 31) :
    (writeBlocks model n fileSize).Exact n (fileSize ⌈/⌉ model.blockSize) := by
  have hblocks : toUnsigned model.countBits (blocksOf model fileSize) = fileSize ⌈/⌉ model.blockSize := by
    rw [blocksOf, numberOfBlocks_eq_ceilDiv model.blockSize_pos, toUnsigned_size hN, toUnsigned_countBits hN]
  unfold writeBlocks
  rw [hblocks]
  refine ⟨rfl, rfl, rfl, ?_⟩
  intro rank hrank
  exact toUnsigned_countBits (share_lt hN hrank)

theorem readBlocks_exact {fileSize reqSize : ℕ}
    (hN : min fileSize reqSize ⌈/⌉ model.blockSize < 2 ^ 31) :
    (readBlocks model n fileSize reqSize).Exact n (min fileSize reqSize ⌈/⌉ model.blockSize) := by
  have hblocks : (if fileSize < reqSize then blocksOf model fileSize else blocksOf model reqSize) =
      min fileSize reqSize ⌈/⌉ model.blockSize := by
    rw [← toUnsigned_size hN, ← numberOfBlocks_eq_ceilDiv model.blockSize_pos]
    split
    · rename_i hlt
      rw [Nat.min_eq_left hlt.le, blocksOf]
    · rename_i hge
      rw [Nat.min_eq_right (Nat.le_of_not_lt hge), blocksOf]
  have hquotient := (Nat.div_le_self (min fileSize reqSize ⌈/⌉ model.blockSize) n).trans_lt hN
  have hremainder := (Nat.mod_le (min fileSize reqSize ⌈/⌉ model.blockSize) n).trans_lt hN
  unfold readBlocks
  simp only [hblocks, toUnsigned_countBits hquotient, toUnsigned_countBits hremainder]
  refine ⟨rfl, rfl, rfl, ?_⟩
  intro rank hrank
  simp only
  rw [blocksOfRank_eq, toUnsigned_size (share_lt hN hrank), toUnsigned_countBits (share_lt hN hrank)]

/-- An entry of the arrays, when all elements together have less than `2 ^ 31` bytes. -/
theorem count_eq {blocks : BlockCounts} (hblocks : blocks.Exact n N) (hN : N < 2 ^ 31) {productBits width : ℕ}
    (hbits : 31 ≤ productBits) (hfits : N * width < 2 ^ 31) {i : ℕ} (hi : i < n) :
    count model blocks productBits width i = (share N n i * width : ℕ) := by
  have hproduct : share N n i * width < 2 ^ 31 :=
    (Nat.mul_le_mul_right width (share_le n.pos hi)).trans_lt hfits
  simp only [count]
  rw [hblocks.blockPerProcess, hblocks.remainingBlocks, blocksOfRank_eq,
    toUnsigned_countBits (share_lt hN hi),
    toUnsigned_mul_of_lt (hproduct.trans_le (Nat.pow_le_pow_right (by decide) hbits)),
    toSigned_int hproduct]

theorem sum_counts (n : ℕ+) (N width : ℕ) :
    prefixSum (fun i => share N n i * width) n = N * width := by
  rw [prefixSum_mul, prefixSum_share, start_self N n.pos]

theorem blockArrays_exact {blocks : BlockCounts} (hblocks : blocks.Exact n N)
    (hfits : N * model.blockSize < 2 ^ 31) : ∃ arrays, blockArrays model n blocks = some arrays ∧
      arrays.Exact n fun i => share N n i * model.blockSize := by
  have hbits : 31 ≤ model.countBits := by cases model <;> decide
  refine ⟨_, fillInts_eq (fun i hi => count_eq hblocks (lt_of_fits hfits) hbits hfits hi) ?_,
    ofLayout_exact _ _⟩
  rw [sum_counts]
  exact hfits

theorem pointerArrays_exact {blocks : BlockCounts} (hblocks : blocks.Exact n N)
    (hfits : N * model.blockSize < 2 ^ 31) : ∃ arrays, pointerArrays model n blocks = some arrays ∧
      arrays.Exact n fun i => share N n i * pointerPacketSize := by
  have hsmall : N * pointerPacketSize < 2 ^ 31 :=
    (Nat.mul_le_mul_left N (pointerPacketSize_le model)).trans_lt hfits
  refine ⟨_, fillInts_eq (fun i hi => count_eq hblocks (lt_of_fits hfits) (by decide) hsmall hi) ?_,
    ofLayout_exact _ _⟩
  rw [sum_counts]
  exact hsmall

/-- The last offset of the arrays for blocks tells that the blocks fit. -/
theorem fits_of_blockArrays {blocks : BlockCounts} {arrays : IntLayout}
    (h : blockArrays model n blocks = some arrays)
    (hexact : arrays.Exact n fun i => share N n i * model.blockSize) :
    N * model.blockSize < 2 ^ 31 := by
  rw [← sum_counts n]
  exact prefixSum_lt_of_exact h hexact

/-! ### The block list -/

theorem addDataBlocksLoop_eq {inode fuel r : ℕ} {l : List DataBlock}
    (hfits : (l.length + fuel) * model.blockSize < 2 ^ 31) :
    addDataBlocksLoop model n inode fuel l.length r l =
      some (DagonFs.addDataBlocksLoop n model.blockSize inode fuel r l) := by
  induction fuel generalizing r l with
  | zero => rfl
  | succ fuel ih =>
    have hbytes : l.length * model.blockSize < 2 ^ 31 :=
      (Nat.mul_le_mul_right model.blockSize (Nat.le_add_right _ _)).trans_lt hfits
    have hindex : toUnsigned 32 l.length = l.length :=
      toUnsigned_of_lt ((lt_of_fits hbytes).trans (by decide))
    have hposition : signed 32 ((l.length : ℤ) * model.blockSize) =
        some ((l.length * model.blockSize : ℕ) : ℤ) := by
      push_cast
      exact signed_of_inRange (by exact_mod_cast inRange_of_lt hbytes)
    have hnext : ∀ block : DataBlock, (l.length : ℤ) + 1 = ((l ++ [block]).length : ℤ) := by
      intro block
      simp
    rw [addDataBlocksLoop, hposition, Option.bind_some]
    simp only
    rw [hindex, toUnsigned_of_lt (hbytes.trans (by decide)), DagonFs.addDataBlocksLoop]
    rw [hnext, ih]
    rw [List.length_append, List.length_singleton, Nat.add_assoc, Nat.add_comm 1]
    exact hfits

theorem addDataBlocksTo_eq {inode nblocks : ℕ} {l : List DataBlock}
    (hfits : (l.length + nblocks) * model.blockSize < 2 ^ 31) :
    addDataBlocksTo model n l nblocks inode =
      some (DagonFs.addDataBlocksTo n model.blockSize l nblocks inode) := by
  have hnew : l.length + nblocks < 2 ^ 31 := lt_of_fits hfits
  have hold : l.length < 2 ^ 31 := (Nat.le_add_right _ _).trans_lt hnew
  have hnewSize : toSigned 32 (toUnsigned 64 ((l.length : ℤ) + nblocks)) =
      ((l.length + nblocks : ℕ) : ℤ) := by
    rw [toSigned_toUnsigned (by decide), ← Nat.cast_add, toSigned_int hnew]
  have hrounds : (((l.length + nblocks : ℕ) : ℤ) - (l.length : ℤ)).toNat = nblocks := by omega
  have hlastRank : (if l.length = 0 then some 0 else (signed 32 ((l.length : ℤ) - 1)).bind fun last =>
      (l[toUnsigned 64 last]?).map DataBlock.processRank) =
        some ((l.getLast?).elim 0 DataBlock.processRank) := by
    split
    · rename_i hempty
      rw [List.length_eq_zero_iff.mp hempty]
      rfl
    · rename_i hsome
      have hlast : ((l.length : ℤ) - 1) = ((l.length - 1 : ℕ) : ℤ) := by omega
      have hlt : l.length - 1 < 2 ^ 31 := (Nat.sub_le _ _).trans_lt hold
      rw [hlast, signed_of_inRange (inRange_of_lt hlt), Option.bind_some, toUnsigned_size hlt,
        ← List.getLast?_eq_getElem?, List.getLast?_eq_some_getLast (by
          intro hnil
          exact hsome (by rw [hnil]; rfl))]
      rfl
  simp only [addDataBlocksTo]
  rw [toSigned_int hold, hnewSize, hlastRank, Option.bind_some, hrounds, addDataBlocksLoop_eq hfits]
  rfl

/-- The list after a write is the one that `Distribution` computes. -/
theorem recordAddresses_eq {inode : ℕ} {addresses : List (Option Address)} {l : List DataBlock}
    (hN : N * model.blockSize < 2 ^ 31) (hl : l.length * model.blockSize < 2 ^ 31) :
    recordAddresses model n inode N addresses l =
      some (DagonFs.recordAddresses (model.launch n) inode N addresses l) := by
  have hN' : N < 2 ^ 31 := lt_of_fits hN
  have hl' : l.length < 2 ^ 31 := lt_of_fits hl
  have haddition : toSigned 32 (toUnsigned 64 ((N : ℤ) - l.length)) = (N : ℤ) - l.length := by
    rw [toSigned_toUnsigned (by decide)]
    apply toSigned_of_inRange (by decide)
    constructor <;> omega
  have hlength := recordAddresses_length (model.launch n) inode N addresses l
  simp only [DagonFs.recordAddresses, setAddresses_length] at hlength
  simp only [recordAddresses, DagonFs.recordAddresses, haddition]
  split
  · rename_i hgrows
    have hcast : (N : ℤ) - l.length = ((N - l.length : ℕ) : ℤ) := by omega
    have hsum : l.length + (N - l.length) = N := by omega
    rw [hcast, addDataBlocksTo_eq (by rwa [hsum]), Option.bind_some]
    rw [if_pos hgrows, hcast] at hlength
    apply if_pos
    exact (le_max_right l.length N).trans_eq hlength.symm
  · rename_i hkeeps
    rw [Option.bind_some, if_pos (by omega)]

/-- The blocks that the list has gained are at their places. -/
theorem recordAddresses_growth (model : Model) (n : ℕ+) (inode N : ℕ)
    (addresses : List (Option Address)) (l : List DataBlock) :
    ExactGrowth model.blockSize N l
      (DagonFs.recordAddresses (model.launch n) inode N addresses l) where
  length := recordAddresses_length _ inode N addresses l
  numbers i block hi hblock := by
    rw [DagonFs.recordAddresses, setAddresses_getElem?] at hblock
    -- the loop over the addresses leaves the numbers of a block alone
    obtain ⟨grown, hgrown, hnumber, hbytes⟩ : ∃ grown,
        (if 0 < (N : ℤ) - l.length then
          DagonFs.addDataBlocksTo (model.launch n).mpiWorldSize (model.launch n).blockSize l
            ((N : ℤ) - l.length) inode else l)[i]? = some grown ∧
        block.progressiveNumber = grown.progressiveNumber ∧
        block.absoluteBytes = grown.absoluteBytes := by
      split at hblock
      · obtain ⟨grown, hgrown, rfl⟩ := Option.map_eq_some_iff.mp hblock
        exact ⟨grown, hgrown, rfl, rfl⟩
      · exact ⟨block, hblock, rfl, rfl⟩
    rw [hnumber, hbytes]
    split at hgrown
    · exact addDataBlocksTo_numbers _ _ hi hgrown
    · rw [List.getElem?_eq_none hi] at hgrown
      cases hgrown

/-! ### Runs -/

/-- Every block list has less than `2 ^ 31` bytes of blocks. -/
def ListsFit (model : Model) (bs : Blocks) : Prop :=
  ∀ inode, (bs.getDataBlockListOfInode inode).length * model.blockSize < 2 ^ 31

theorem listsFit_new (model : Model) : ListsFit model Blocks.new := by
  intro inode
  show 0 * model.blockSize < 2 ^ 31
  rw [Nat.zero_mul]
  decide

/-- **What a write computes, when its blocks fit.** -/
theorem write_exact {inode fileSize : ℕ} {addresses : List (Option Address)} {bs : Blocks}
    (hlists : ListsFit model bs) (hfits : fileSize + model.blockSize ≤ 2 ^ 31) :
    ∃ bs', ExactStep model n (.write inode fileSize addresses) bs bs' := by
  have hN := (fits_iff model fileSize).mpr hfits
  have hblocks : (writeBlocks model n fileSize).Exact n (fileSize ⌈/⌉ model.blockSize) :=
    writeBlocks_exact (lt_of_fits hN)
  obtain ⟨scatter, hscatter, hscatterExact⟩ := blockArrays_exact hblocks hN
  obtain ⟨gather, hgather, hgatherExact⟩ := pointerArrays_exact hblocks hN
  have hvalues : writeValues model n fileSize =
      some ⟨writeBlocks model n fileSize, scatter, gather⟩ := by
    simp [writeValues, hscatter, hgather]
  refine ⟨_, _, _, hvalues, ⟨hblocks, hscatterExact, hgatherExact⟩, ?_,
    recordAddresses_growth model n inode _ addresses _, rfl⟩
  simp only [hblocks.numberOfBlocks]
  exact recordAddresses_eq hN (hlists inode)

/-- **What a read computes, when its blocks fit.** -/
theorem read_exact {inode fileSize reqSize : ℕ} (bs : Blocks)
    (hfits : min fileSize reqSize + model.blockSize ≤ 2 ^ 31) :
    ExactStep model n (.read inode fileSize reqSize) bs bs := by
  have hN := (fits_iff model (min fileSize reqSize)).mpr hfits
  have hblocks : (readBlocks model n fileSize reqSize).Exact n
      (min fileSize reqSize ⌈/⌉ model.blockSize) := readBlocks_exact (lt_of_fits hN)
  obtain ⟨scatter, hscatter, hscatterExact⟩ := pointerArrays_exact hblocks hN
  obtain ⟨gather, hgather, hgatherExact⟩ := blockArrays_exact hblocks hN
  by_cases hempty : fileSize = 0
  · refine ⟨none, if_pos hempty, ?_, rfl⟩
    intro values hnone
    cases hnone
  · refine ⟨some ⟨readBlocks model n fileSize reqSize, scatter, gather⟩, ?_, ?_, rfl⟩
    · simp [readValues, hempty, hscatter, hgather]
    · intro values hvalues
      cases hvalues
      exact ⟨hblocks, hscatterExact, hgatherExact⟩

/-- Exact values are possible only then: the running offset has to hold the bytes of all blocks. -/
theorem fits_of_exactStep {operation : Operation} {bs bs' : Blocks}
    (h : ExactStep model n operation bs bs') : operation.size + model.blockSize ≤ 2 ^ 31 := by
  cases operation with
  | write inode fileSize addresses =>
    obtain ⟨values, -, hvalues, hexact, -⟩ := h
    obtain ⟨scatter, hscatter, hrest⟩ := Option.bind_eq_some_iff.mp hvalues
    obtain ⟨gather, -, rfl⟩ := Option.map_eq_some_iff.mp hrest
    rw [Operation.size, ← fits_iff]
    exact fits_of_blockArrays hscatter hexact.scatter
  | read inode fileSize reqSize =>
    obtain ⟨result, hresult, hexact, -⟩ := h
    rw [Operation.size]
    by_cases hempty : fileSize = 0
    · rw [hempty, Nat.zero_min, Nat.zero_add]
      cases model <;> decide
    · rw [readValues, if_neg hempty] at hresult
      obtain ⟨scatter, -, hrest⟩ := Option.bind_eq_some_iff.mp hresult
      obtain ⟨gather, hgather, rfl⟩ := Option.map_eq_some_iff.mp hrest
      rw [← fits_iff]
      exact fits_of_blockArrays hgather (hexact _ rfl).gather

/-- An operation with exact values keeps the block lists below the bound. -/
theorem ExactStep.listsFit {operation : Operation} {bs bs' : Blocks}
    (h : ExactStep model n operation bs bs') (hlists : ListsFit model bs) : ListsFit model bs' := by
  have hfits := fits_of_exactStep h
  cases operation with
  | write inode fileSize addresses =>
    obtain ⟨values, blockList, -, -, -, hgrowth, rfl⟩ := h
    intro x
    rcases eq_or_ne x inode with rfl | hx
    · rw [Blocks.getDataBlockListOfInode_set, hgrowth.length, ← Nat.mul_max_mul_right]
      exact max_lt (hlists x) ((fits_iff model fileSize).mpr hfits)
    · rw [Blocks.getDataBlockListOfInode_set_ne bs _ hx]
      exact hlists x
  | read inode fileSize reqSize =>
    obtain ⟨result, -, -, rfl⟩ := h
    exact hlists

/-- An operation within the bound has exact values, if those before it had. -/
theorem exactStep_of_fits {operation : Operation} {bs : Blocks} (hlists : ListsFit model bs)
    (hfits : operation.size + model.blockSize ≤ 2 ^ 31) :
    ∃ bs', ExactStep model n operation bs bs' := by
  cases operation with
  | write inode fileSize addresses => exact write_exact hlists hfits
  | read inode fileSize reqSize => exact ⟨bs, read_exact bs hfits⟩

/-- **No overflow.**  In a run of distributed writes and reads, every value that the programs compute in
their own types is the exact integer if and only if the blocks of every operation together have less
than `2 ^ 31` bytes. -/
theorem exactRun_iff (model : Model) (n : ℕ+) (operations : List Operation) :
    ExactRun model n operations Blocks.new ↔
      ∀ operation ∈ operations, operation.size + model.blockSize ≤ 2 ^ 31 := by
  suffices hrun : ∀ bs, ListsFit model bs → (ExactRun model n operations bs ↔
      ∀ operation ∈ operations, operation.size + model.blockSize ≤ 2 ^ 31) from
    hrun Blocks.new (listsFit_new model)
  induction operations with
  | nil => simp [ExactRun]
  | cons operation operations ih =>
    intro bs hlists
    rw [List.forall_mem_cons]
    constructor
    · rintro ⟨bs', hstep, hrun⟩
      exact ⟨fits_of_exactStep hstep, (ih bs' (hstep.listsFit hlists)).mp hrun⟩
    · rintro ⟨hfits, hrest⟩
      obtain ⟨bs', hstep⟩ := exactStep_of_fits (n := n) hlists hfits
      exact ⟨bs', hstep, (ih bs' (hstep.listsFit hlists)).mpr hrest⟩

/-- The last offset of a file of 2 GiB is past the bound in both programs. -/
theorem not_exactRun_twoGiB :
    ¬ ExactRun .clientServer 2 [.write 1 2147483648 []] Blocks.new ∧
      ¬ ExactRun .peerToPeer 2 [.write 1 2147483648 []] Blocks.new := by
  constructor
  · rintro ⟨bs', hstep, -⟩
    exact absurd (fits_of_exactStep hstep) (by decide)
  · rintro ⟨bs', hstep, -⟩
    exact absurd (fits_of_exactStep hstep) (by decide)

end DagonFs.Machine
