import DagonFs.ClientServer.System

/-!
# What the distributed operations do

* `dagonFS_Write_spec`: a write of a buffer that has all its blocks ends; the first blocks of the
  inode's list then hold the blocks of the buffer, block `i` in the memory of its owner, and nothing
  else of the block table and the heaps is lost.
* `wellAddressed_iff`: the addresses that the scatter of a read hands out may be used exactly when the
  list has, for every block, an address of the rank that owns the block.
* `dagonFS_Read_spec`: a read from such addresses returns the blocks in order.
-/

namespace DagonFs

open DagonFs.Lib.Collective DagonFs.Lib.BlockSplit

/-! ### The calls -/

theorem callsFor_byRank {L : Launch} {N width : ℕ} {master : VectorCall} {node : ℕ → VectorCall}
    (hmaster : master = .own 0 (blockLayout L N width) 0 ∨
      master = .inPlace 0 (blockLayout L N width))
    (hnode : ∀ rank, node rank = .own 0 (blockLayout L N width) rank) :
    CallsFor L N width 0 (byRank master node) := by
  intro i _
  unfold byRank
  split
  · rename_i hi
    subst hi
    exact hmaster
  · exact Or.inl (hnode i)

/-- The list of the inode after a write, in the master's table. -/
theorem savePointers_self (L : Launch) (bs : Blocks) (inode blocks : ℕ)
    (addresses : List (Option Address)) :
    (MasterProcessCode.savePointers L bs inode blocks addresses).getDataBlockListOfInode inode =
      recordAddresses L inode blocks addresses (bs.getDataBlockListOfInode inode) := by
  simp only [MasterProcessCode.savePointers, Blocks.getDataBlockListOfInode_set,
    Blocks.getDataBlockListOfInode_createIf]

theorem savePointers_ne (L : Launch) (bs : Blocks) {inode x : ℕ} (blocks : ℕ)
    (addresses : List (Option Address)) (hx : x ≠ inode) :
    (MasterProcessCode.savePointers L bs inode blocks addresses).getDataBlockListOfInode x =
      bs.getDataBlockListOfInode x := by
  rw [MasterProcessCode.savePointers, Blocks.getDataBlockListOfInode_set_ne _ _ hx,
    Blocks.getDataBlockListOfInode_createIf]

namespace System

variable {L : Launch} {s : System}

/-- The block list that the master has for an inode. -/
def blockList (s : System) (inode : ℕ) : List DataBlock :=
  s.fs.blocksManager.getDataBlockListOfInode inode

/-- What a distributed write of `buffer` to `inode` leaves behind. -/
structure Written (L : Launch) (s s' : System) (buffer : List UInt8) (inode blocks : ℕ) : Prop where
  iNodeManager : s'.fs.iNodeManager = s.fs.iNodeManager
  heaps : ∀ rank, s.heaps rank <+: s'.heaps rank
  others : ∀ x, x ≠ inode → s'.blockList x = s.blockList x
  length : (s'.blockList inode).length = max (s.blockList inode).length blocks
  new : ∀ i < blocks, ∃ block, (s'.blockList inode)[i]? = some block ∧
    Holds s'.heaps (owner blocks L.mpiWorldSize i) block.getData (blockAt L.blockSize buffer i)
  old : ∀ i, blocks ≤ i → (s'.blockList inode)[i]? = (s.blockList inode)[i]?

/-- The collectives of a write: every rank stores its segment of the buffer, and the master has the
addresses of all blocks in rank order. -/
theorem dagonFS_Write_eq {buffer : List UInt8} {fileSize N : ℕ} (inode : ℕ)
    (hN : numberOfBlocks L.blockSize fileSize = N) (hfit : N * L.blockSize ≤ buffer.length) :
    ∃ localScatBuf : ℕ → List UInt8,
      (∀ rank < L.mpiWorldSize, localScatBuf rank =
        (buffer.drop (start N L.mpiWorldSize rank * L.blockSize)).take
          (share N L.mpiWorldSize rank * L.blockSize)) ∧
      s.dagonFS_Write L buffer inode fileSize = some
        { fs := { s.fs with
            blocksManager := MasterProcessCode.savePointers L s.fs.blocksManager inode N
              ((List.range L.mpiWorldSize).flatMap fun rank => (storeBlocks L.blockSize rank
                (localScatBuf rank) (effectiveBlocks L rank N) (s.heaps rank)).2) }
          heaps := fun rank =>
            if rank < L.mpiWorldSize then (storeBlocks L.blockSize rank (localScatBuf rank)
              (effectiveBlocks L rank N) (s.heaps rank)).1
            else s.heaps rank
          dataBlockPointers := fun rank ino =>
            if 0 < rank ∧ rank < L.mpiWorldSize ∧ ino = inode then
              NodeProcessCode.pushBlocks inode rank (storeBlocks L.blockSize rank
                (localScatBuf rank) (effectiveBlocks L rank N) (s.heaps rank)).2
                (effectiveBlocks L rank N) (s.dataBlockPointers rank ino)
            else s.dataBlockPointers rank ino } := by
  have hscatter : CallsFor L N (L.blockSize * 1) 0
      (byRank (MasterProcessCode.writeScatter L fileSize)
        (NodeProcessCode.writeScatter L · fileSize)) := by
    rw [Nat.mul_one]
    exact callsFor_byRank (Or.inl (by rw [MasterProcessCode.writeScatter, hN]))
      fun rank => by rw [NodeProcessCode.writeScatter, hN]
  have hgather : CallsFor L N (1 * pointerPacketSize) 0
      (byRank (MasterProcessCode.writeGather L fileSize)
        (NodeProcessCode.writeGather L · fileSize)) := by
    rw [Nat.one_mul]
    exact callsFor_byRank (Or.inl (by rw [MasterProcessCode.writeGather, hN]))
      fun rank => by rw [NodeProcessCode.writeGather, hN]
  obtain ⟨localScatBuf, hlocal, hsegments⟩ :=
    scatterv_blocks Nat.one_pos L.worldSize_pos hscatter hfit
  have hpieces : ∀ rank < L.mpiWorldSize, (storeBlocks L.blockSize rank (localScatBuf rank)
      (effectiveBlocks L rank N) (s.heaps rank)).2.length = share N L.mpiWorldSize rank * 1 := by
    intro rank _
    rw [storeBlocks_eq, List.length_map, List.length_range, effectiveBlocks, Nat.mul_one]
  have hwidth : 0 < pointerPacketSize := by decide
  have hroom : N * 1 = (List.replicate N (none : Option Address)).length := by simp
  have haddresses := gatherv_blocks hwidth L.worldSize_pos hgather hpieces hroom
  refine ⟨localScatBuf, hsegments, ?_⟩
  simp only [dagonFS_Write, hN, hlocal, Option.bind_some, haddresses]
  rfl

/-- **A distributed write.** -/
theorem dagonFS_Write_spec {buffer : List UInt8} {fileSize : ℕ} (inode : ℕ)
    (hfit : numberOfBlocks L.blockSize fileSize * L.blockSize ≤ buffer.length) :
    ∃ s', s.dagonFS_Write L buffer inode fileSize = some s' ∧
      Written L s s' buffer inode (numberOfBlocks L.blockSize fileSize) := by
  generalize hN : numberOfBlocks L.blockSize fileSize = N at hfit ⊢
  obtain ⟨localScatBuf, hsegments, hwrite⟩ := dagonFS_Write_eq inode hN hfit (s := s)
  refine ⟨_, hwrite, ?_⟩
  constructor
  case iNodeManager => rfl
  case heaps =>
    intro rank
    show _ <+: if _ then _ else _
    split
    · exact storeBlocks_prefix ..
    · exact List.prefix_refl _
  case others => exact fun x hx => savePointers_ne _ _ _ _ hx
  case length =>
    rw [blockList, savePointers_self]
    exact recordAddresses_length ..
  case old =>
    intro i hi
    rw [blockList, savePointers_self]
    exact recordAddresses_old _ _ _ _ hi
  case new =>
    intro i hi
    rw [blockList, savePointers_self]
    obtain ⟨block, hblock, hdata⟩ := recordAddresses_new L inode
      ((List.range L.mpiWorldSize).flatMap fun rank => (storeBlocks L.blockSize rank
        (localScatBuf rank) (effectiveBlocks L rank N) (s.heaps rank)).2)
      (s.fs.blocksManager.getDataBlockListOfInode inode) hi
    obtain ⟨address, hget, index, haddress, hbytes⟩ := stored_addresses s.heaps hsegments hi
    obtain ⟨howner, -, -⟩ := owner_spec L.worldSize_pos hi
    refine ⟨block, hblock, ?_⟩
    rw [hdata, List.getD_eq_getElem?_getD, hget]
    refine ⟨index, haddress, ?_⟩
    show (if _ then _ else _ : Heap)[index]? = _
    rw [if_pos howner]
    exact hbytes

/-- A distributed write that is defined had all its blocks in the buffer. -/
theorem le_of_dagonFS_Write {buffer : List UInt8} {inode fileSize : ℕ} {s' : System}
    (h : s.dagonFS_Write L buffer inode fileSize = some s') :
    numberOfBlocks L.blockSize fileSize * L.blockSize ≤ buffer.length := by
  obtain ⟨localScatBuf, hlocal, -⟩ := Option.bind_eq_some_iff.mp h
  have hscatter : CallsFor L (numberOfBlocks L.blockSize fileSize) (L.blockSize * 1) 0
      (byRank (MasterProcessCode.writeScatter L fileSize)
        (NodeProcessCode.writeScatter L · fileSize)) := by
    rw [Nat.mul_one]
    exact callsFor_byRank (Or.inl rfl) fun _ => rfl
  exact le_of_scatterv Nat.one_pos L.worldSize_pos hscatter hlocal

/-! ### Reads -/

/-- The distributed read of the first `blocks` blocks uses only addresses that may be used: (a) the
block list has all of them, with an address set; (b) each address that a rank has after the scatter and
copies from is one of that rank's own blocks, allocated in an earlier write. -/
structure WellAddressed (L : Launch) (s : System) (inode blocks : ℕ) : Prop where
  entries : ∀ i < blocks, ∃ block, (s.blockList inode)[i]? = some block ∧ block.getData.isSome
  addresses : ∃ addresses, s.scatterAddresses L inode blocks = some addresses ∧
    ∀ rank < L.mpiWorldSize, ∀ j < effectiveBlocks L rank blocks,
      ∃ a : Address, (addresses rank)[j]? = some (some a) ∧ a.rank = rank ∧
        a.index < (s.heaps rank).length

/-- The scatter of the addresses: rank `r` has those of its own part of the blocks. -/
theorem scatterAddresses_spec {inode blocks : ℕ} (hlen : blocks ≤ (s.blockList inode).length) :
    ∃ addresses, s.scatterAddresses L inode blocks = some addresses ∧
      ∀ rank < L.mpiWorldSize, ∀ j < effectiveBlocks L rank blocks, (addresses rank)[j]? =
        ((s.blockList inode)[start blocks L.mpiWorldSize rank + j]?).map DataBlock.getData := by
  have hscatter : CallsFor L blocks (1 * pointerPacketSize) 0
      (byRank (MasterProcessCode.readScatter L blocks) (NodeProcessCode.readScatter L · blocks)) := by
    rw [Nat.one_mul]
    exact callsFor_byRank (Or.inr rfl) fun _ => rfl
  have hwidth : 0 < pointerPacketSize := by decide
  have hfit : blocks * 1 ≤ (((s.blockList inode).take blocks).map DataBlock.getData).length := by
    rw [List.length_map, List.length_take]
    omega
  obtain ⟨fromScat, hfrom, hsegments⟩ := scatterv_blocks hwidth L.worldSize_pos hscatter hfit
  have hread : ∀ i < blocks, (((s.blockList inode).take blocks).map DataBlock.getData)[i]? =
      ((s.blockList inode)[i]?).map DataBlock.getData := by
    intro i hi
    rw [List.getElem?_map, List.getElem?_take, if_pos hi]
  have hadd : s.scatterAddresses L inode blocks =
      some (byRank (((s.blockList inode).take blocks).map DataBlock.getData) fromScat) := by
    show (getAddresses (s.blockList inode) blocks).bind _ = _
    rw [getAddresses_eq hlen, Option.bind_some, hfrom, Option.map_some]
  refine ⟨_, hadd, fun rank hr j hj => ?_⟩
  rw [effectiveBlocks] at hj
  have hlt := start_add_lt L.worldSize_pos hr hj
  rw [byRank]
  split
  · -- the master reads its part, which is the first, from the array itself
    rename_i hzero
    subst hzero
    rw [start_zero, Nat.zero_add] at hlt ⊢
    exact hread j hlt
  · rw [hsegments rank hr, List.getElem?_take, if_pos (by omega), List.getElem?_drop, Nat.mul_one]
    exact hread _ hlt

/-- A read is well addressed exactly when the owner of each block can use the address that the list
has for it. -/
theorem wellAddressed_iff {inode blocks : ℕ} : WellAddressed L s inode blocks ↔
    ∀ i < blocks, ∃ block index, (s.blockList inode)[i]? = some block ∧
      block.getData = some ⟨owner blocks L.mpiWorldSize i, index⟩ ∧
      index < (s.heaps (owner blocks L.mpiWorldSize i)).length := by
  constructor
  · intro h i hi
    obtain ⟨block, hblock, -⟩ := h.entries i hi
    have hlen : blocks ≤ (s.blockList inode).length := by
      by_contra hshort
      obtain ⟨_, hlast, -⟩ := h.entries (blocks - 1) (by omega)
      have := (List.getElem?_eq_some_iff.mp hlast).1
      omega
    obtain ⟨addresses, hadd, hread⟩ := scatterAddresses_spec hlen (L := L)
    obtain ⟨addresses', hadd', hown⟩ := h.addresses
    obtain rfl : addresses' = addresses := Option.some.inj (hadd'.symm.trans hadd)
    obtain ⟨hr, hlo, hhi⟩ := owner_spec L.worldSize_pos hi
    generalize owner blocks L.mpiWorldSize i = r at hr hlo hhi ⊢
    obtain ⟨j, rfl⟩ := Nat.exists_eq_add_of_le hlo
    have hj : j < effectiveBlocks L r blocks := by
      rw [start_succ] at hhi
      exact Nat.lt_of_add_lt_add_left hhi
    obtain ⟨a, ha, hrank, hindex⟩ := hown r hr j hj
    rw [hread r hr j hj, hblock, Option.map_some, Option.some.injEq] at ha
    exact ⟨block, a.index, hblock, by rw [ha, ← hrank], hindex⟩
  · intro h
    refine ⟨fun i hi => ?_, ?_⟩
    · obtain ⟨block, index, hblock, hdata, -⟩ := h i hi
      exact ⟨block, hblock, by rw [hdata]; rfl⟩
    · have hlen : blocks ≤ (s.blockList inode).length := by
        by_contra hshort
        obtain ⟨_, _, hlast, -⟩ := h (blocks - 1) (by omega)
        have := (List.getElem?_eq_some_iff.mp hlast).1
        omega
      obtain ⟨addresses, hadd, hread⟩ := scatterAddresses_spec hlen (L := L)
      refine ⟨addresses, hadd, fun rank hr j hj => ?_⟩
      obtain ⟨block, index, hblock, hdata, hindex⟩ :=
        h _ (start_add_lt L.worldSize_pos hr hj)
      rw [owner_start_add L.worldSize_pos hr hj] at hdata hindex
      exact ⟨_, by rw [hread rank hr j hj, hblock, Option.map_some, hdata], rfl, hindex⟩

/-- A distributed read that is defined is well addressed. -/
theorem wellAddressed_of_dagonFS_Read {inode fileSize offset : ℕ} (hpos : fileSize ≠ 0)
    (h : (s.dagonFS_Read L ⟨inode, fileSize, fileSize, offset⟩).isSome) :
    WellAddressed L s inode (numberOfBlocks L.blockSize fileSize) := by
  have hblocks : numberOfBlocksForRequest L.blockSize fileSize fileSize =
      numberOfBlocks L.blockSize fileSize := if_neg (Nat.lt_irrefl _)
  obtain ⟨buf, hbuf⟩ := Option.isSome_iff_exists.mp h
  simp only [dagonFS_Read, if_neg hpos, hblocks] at hbuf
  generalize numberOfBlocks L.blockSize fileSize = N at hbuf ⊢
  obtain ⟨addresses, hadd, hbuf⟩ := Option.bind_eq_some_iff.mp hbuf
  obtain ⟨content, hcontent, -⟩ := Option.map_eq_some_iff.mp hbuf
  obtain ⟨pieces, hpieces, -⟩ := Option.bind_eq_some_iff.mp hcontent
  have hload := everyRank_isSome_iff.mp (Option.isSome_iff_exists.mpr ⟨pieces, hpieces⟩)
  have hlen : N ≤ (s.blockList inode).length := by
    obtain ⟨toScat, hget, -⟩ := Option.bind_eq_some_iff.mp hadd
    exact getAddresses_isSome_iff.mp (Option.isSome_iff_exists.mpr ⟨toScat, hget⟩)
  obtain ⟨addresses', hadd', hread⟩ := scatterAddresses_spec hlen (L := L)
  obtain rfl : addresses' = addresses := Option.some.inj (hadd'.symm.trans hadd)
  refine wellAddressed_iff.mpr fun i hi => ?_
  obtain ⟨hr, hlo, hhi⟩ := owner_spec L.worldSize_pos hi
  generalize owner N L.mpiWorldSize i = r at hr hlo hhi ⊢
  obtain ⟨j, rfl⟩ := Nat.exists_eq_add_of_le hlo
  have hj : j < effectiveBlocks L r N := by
    rw [start_succ] at hhi
    exact Nat.lt_of_add_lt_add_left hhi
  obtain ⟨a, ha, hrank, hindex⟩ := loadBlocks_isSome_iff.mp (hload r hr) j hj
  rw [hread r hr j hj] at ha
  obtain ⟨block, hblock, hdata⟩ := Option.map_eq_some_iff.mp ha
  exact ⟨block, a.index, hblock, by rw [hdata, ← hrank], hindex⟩

/-- A distributed read of a whole file returns as many bytes as its blocks have. -/
theorem length_of_dagonFS_Read {inode fileSize offset : ℕ} {buf : Option (List UInt8)}
    (h : s.dagonFS_Read L ⟨inode, fileSize, fileSize, offset⟩ = some buf) :
    (buf.getD []).length = numberOfBlocks L.blockSize fileSize * L.blockSize := by
  have hblocks : numberOfBlocksForRequest L.blockSize fileSize fileSize =
      numberOfBlocks L.blockSize fileSize := if_neg (Nat.lt_irrefl _)
  simp only [dagonFS_Read, hblocks] at h
  split at h
  · rename_i hzero
    obtain rfl := Option.some.inj h
    rw [show fileSize = 0 from hzero, numberOfBlocks_zero, Nat.zero_mul]
    rfl
  · obtain ⟨addresses, -, hload⟩ := Option.bind_eq_some_iff.mp h
    obtain ⟨content, hcontent, rfl⟩ := Option.map_eq_some_iff.mp hload
    rw [Option.getD_some, length_of_loadAndGather hcontent]

/-- **A distributed read** from a list whose addresses hold the blocks of the content. -/
theorem dagonFS_Read_spec {inode fileSize offset : ℕ} {content : List UInt8} (hpos : fileSize ≠ 0)
    (hcontent : content.length = numberOfBlocks L.blockSize fileSize * L.blockSize)
    (hholds : ∀ i < numberOfBlocks L.blockSize fileSize, ∃ block,
      (s.blockList inode)[i]? = some block ∧
      Holds s.heaps (owner (numberOfBlocks L.blockSize fileSize) L.mpiWorldSize i) block.getData
        (blockAt L.blockSize content i)) :
    s.dagonFS_Read L ⟨inode, fileSize, fileSize, offset⟩ = some (some content) := by
  have hblocks : numberOfBlocksForRequest L.blockSize fileSize fileSize =
      numberOfBlocks L.blockSize fileSize := if_neg (Nat.lt_irrefl _)
  simp only [dagonFS_Read, if_neg hpos, hblocks]
  generalize numberOfBlocks L.blockSize fileSize = N at hcontent hholds
  have hlen : N ≤ (s.blockList inode).length := by
    by_contra hshort
    obtain ⟨_, hlast, -⟩ := hholds (N - 1) (by omega)
    have := (List.getElem?_eq_some_iff.mp hlast).1
    omega
  obtain ⟨addresses, hadd, hread⟩ := scatterAddresses_spec hlen (L := L)
  have hgather : CallsFor L N L.blockSize 0
      (byRank (MasterProcessCode.readGather L N) (NodeProcessCode.readGather L · N)) :=
    callsFor_byRank (Or.inl rfl) fun _ => rfl
  have hparts : ∀ rank < L.mpiWorldSize, ∀ j < effectiveBlocks L rank N, ∃ address,
      (addresses rank)[j]? = some address ∧ Holds s.heaps rank address
        (blockAt L.blockSize content (start N L.mpiWorldSize rank + j)) := by
    intro rank hr j hj
    obtain ⟨block, hblock, hbytes⟩ := hholds _ (start_add_lt L.worldSize_pos hr hj)
    rw [owner_start_add L.worldSize_pos hr hj] at hbytes
    exact ⟨block.getData, by rw [hread rank hr j hj, hblock, Option.map_some], hbytes⟩
  rw [hadd, Option.bind_some, loadAndGather_eq L.worldSize_pos hgather hcontent hparts]
  rfl

/-! ### The blocks in memory -/

/-- Every block that a process has allocated is of the size of a block. -/
def BlocksSized (L : Launch) (s : System) : Prop :=
  ∀ rank, ∀ block ∈ s.heaps rank, block.length = L.blockSize

theorem blocksSized_mounted (L : Launch) (process : Ids) : BlocksSized L (System.mounted process) := by
  intro rank block hblock
  cases hblock

/-- A distributed write stores whole blocks. -/
theorem BlocksSized.dagonFS_Write {s' : System} {buffer : List UInt8} {inode fileSize : ℕ}
    (h : BlocksSized L s) (hrun : s.dagonFS_Write L buffer inode fileSize = some s') :
    BlocksSized L s' := by
  have hfit := le_of_dagonFS_Write hrun
  obtain ⟨localScatBuf, hlocal, hrest⟩ := Option.bind_eq_some_iff.mp hrun
  have hscatter : CallsFor L (numberOfBlocks L.blockSize fileSize) (L.blockSize * 1) 0
      (byRank (MasterProcessCode.writeScatter L fileSize)
        (NodeProcessCode.writeScatter L · fileSize)) := by
    rw [Nat.mul_one]
    exact callsFor_byRank (Or.inl rfl) fun _ => rfl
  obtain ⟨local_, hscatterv, hsegments⟩ := scatterv_blocks Nat.one_pos L.worldSize_pos hscatter hfit
  obtain rfl : local_ = localScatBuf := Option.some.inj (hscatterv.symm.trans hlocal)
  obtain ⟨addresses, -, rfl⟩ := Option.map_eq_some_iff.mp hrest
  intro rank block hblock
  dsimp only at hblock
  split at hblock
  · rename_i hrank
    rw [storeBlocks_eq] at hblock
    rcases List.mem_append.mp hblock with hold | hnew
    · exact h rank block hold
    · obtain ⟨j, hj, rfl⟩ := List.mem_map.mp hnew
      have hlt := List.mem_range.mp hj
      rw [effectiveBlocks] at hlt
      rw [hsegments rank hrank, blockAt_segment _ _ _ _ hlt]
      refine blockAt_length ((Nat.mul_le_mul_right _ ?_).trans hfit)
      exact start_add_lt L.worldSize_pos hrank hlt
  · exact h rank block hblock

/-- **A well addressed read** ends, and returns the blocks that the addresses of the list hold. -/
theorem dagonFS_Read_of_wellAddressed {inode fileSize offset : ℕ} (hsized : BlocksSized L s)
    (hpos : fileSize ≠ 0) (h : WellAddressed L s inode (numberOfBlocks L.blockSize fileSize)) :
    ∃ content, s.dagonFS_Read L ⟨inode, fileSize, fileSize, offset⟩ = some (some content) ∧
      content.length = numberOfBlocks L.blockSize fileSize * L.blockSize ∧
      ∀ i < numberOfBlocks L.blockSize fileSize, ∃ block, (s.blockList inode)[i]? = some block ∧
        Holds s.heaps (owner (numberOfBlocks L.blockSize fileSize) L.mpiWorldSize i) block.getData
          (blockAt L.blockSize content i) := by
  have hwell := wellAddressed_iff.mp h
  generalize hN : numberOfBlocks L.blockSize fileSize = N at hwell ⊢
  have hbytes : ∀ i, ∃ bytes : List UInt8, i < N → bytes.length = L.blockSize ∧
      ∃ block, (s.blockList inode)[i]? = some block ∧
        Holds s.heaps (owner N L.mpiWorldSize i) block.getData bytes := by
    intro i
    by_cases hi : i < N
    · obtain ⟨block, index, hblock, hdata, hindex⟩ := hwell i hi
      refine ⟨(s.heaps (owner N L.mpiWorldSize i))[index], fun _ => ⟨?_, block, hblock, index, hdata, ?_⟩⟩
      · exact hsized _ _ (List.getElem_mem hindex)
      · exact List.getElem?_eq_getElem hindex
    · exact ⟨[], fun hlt => absurd hlt hi⟩
  choose f hf using hbytes
  have hlen : ∀ i < N, (f i).length = L.blockSize := fun i hi => (hf i hi).1
  have hcontent : ((List.range N).flatMap f).length = N * L.blockSize := by
    rw [List.length_flatMap, List.map_congr_left (g := fun _ => L.blockSize)]
    · simp
    · intro j hj
      exact hlen j (List.mem_range.mp hj)
  have hholds : ∀ i < N, ∃ block, (s.blockList inode)[i]? = some block ∧
      Holds s.heaps (owner N L.mpiWorldSize i) block.getData
        (blockAt L.blockSize ((List.range N).flatMap f) i) := by
    intro i hi
    rw [blockAt_flatMap hlen hi]
    exact (hf i hi).2
  subst hN
  exact ⟨_, dagonFS_Read_spec hpos hcontent hholds, hcontent, hholds⟩

end System

end DagonFs
