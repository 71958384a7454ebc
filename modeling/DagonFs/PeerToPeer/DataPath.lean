import DagonFs.ClientServer.BlockWrites
import DagonFs.PeerToPeer.BlockWrites

/-!
# One data path, two programs

`MasterProcessCode` with `NodeProcessCode` and `DistributedCode` with rank 0 as the source were written
apart from each other.  A `Store` is what the two have in common: the block lists of rank 0 and the
blocks in each rank's memory.

* `write_store`, `read_store`: a write or a read of either program is the one of its `Store`, also when
  it has no defined outcome.
* `Alike.write`, `Alike.read`: two stores that are the same up to the addresses stay so, and answer
  alike.
* `dataPath_agrees`: the two programs agree on every sequence of writes and reads.
-/

namespace DagonFs.DataPath

open DagonFs.Lib.Collective DagonFs.Lib.BlockSplit DagonFs.Lib.Runs

namespace Store

variable (L : Launch) (st : Store)

/-- Rank `rank`'s part of the addresses of a read. -/
def addressesFor (addresses : List (Option Address)) (blocks rank : ℕ) : List (Option Address) :=
  (addresses.drop (start blocks L.mpiWorldSize rank)).take (effectiveBlocks L rank blocks)

/-- A read: rank 0 takes the addresses from its list, and every rank copies the blocks of its part. -/
def read (ioRequest : IORequestPacket) : Option (Option (List UInt8)) :=
  if ioRequest.fileSize = 0 then some none
  else
    let blocks := numberOfBlocksForRequest L.blockSize ioRequest.fileSize ioRequest.reqSize
    (getAddresses (st.blockList ioRequest.inode) blocks).bind fun addresses =>
      (loadAndGather L 0 (PeerToPeer.DistributedCode.readGather L 0 · blocks) st.heaps
        (addressesFor L addresses blocks) blocks).map some

end Store

/-- The same of the peers. -/
def storeOfPeers (peers : ℕ → PeerToPeer.Peer) : Store :=
  ⟨(peers 0).blockList, fun rank => (peers rank).heap⟩

/-! ### Each program is its store -/

section Programs

variable {L : Launch} {blocks : ℕ}

/-- **A write of the peers**, with rank 0 as the source. -/
theorem write_storeOfPeers {peers : ℕ → PeerToPeer.Peer} {inode : ℕ}
    (hregistered : ∀ rank < L.mpiWorldSize, inode < (peers rank).iNodeManager.iNodes.length)
    (buffer : List UInt8) (fileSize : ℕ) :
    (PeerToPeer.dagonFS_Write L peers 0 buffer inode fileSize).map storeOfPeers =
      (storeOfPeers peers).write L buffer inode fileSize := by
  by_cases hfit : numberOfBlocks L.blockSize fileSize * L.blockSize ≤ buffer.length
  · obtain ⟨_, _, peers', _, _, hwrite, -⟩ :=
      PeerToPeer.dagonFS_Write_finished rfl L.worldSize_pos hfit hregistered
    have hstep : (storeAt 0 peers).step L ⟨inode, buffer, fileSize⟩ = some (storeAt 0 peers') :=
      storeAt_step (w := ⟨0, inode, buffer, fileSize⟩) L.worldSize_pos L.worldSize_pos hwrite
    rw [hwrite]
    exact hstep.symm
  · rw [Store.write, if_neg hfit]
    cases h : PeerToPeer.dagonFS_Write L peers 0 buffer inode fileSize with
    | none => rfl
    | some peers' => exact absurd (PeerToPeer.le_of_dagonFS_Write L.worldSize_pos h) hfit

/-- A scatter of the addresses of a read, if rank 0 has them all. -/
theorem scatter_addresses {calls : ℕ → VectorCall} (hcalls : CallsFor L blocks pointerPacketSize 0 calls)
    {dataBlockList : List DataBlock} {addresses : List (Option Address)}
    (haddresses : getAddresses dataBlockList blocks = some addresses) :
    ∃ local_, scatterv L.mpiWorldSize pointerPacketSize 0 calls addresses = some local_ ∧
      ∀ rank < L.mpiWorldSize, local_ rank = Store.addressesFor L addresses blocks rank := by
  have hlen : blocks ≤ dataBlockList.length := getAddresses_isSome_iff.mp (by rw [haddresses]; rfl)
  have hfit : blocks * 1 ≤ addresses.length := by
    rw [getAddresses_eq hlen, Option.some.injEq] at haddresses
    rw [← haddresses, List.length_map, List.length_take]
    omega
  rw [← Nat.one_mul pointerPacketSize] at hcalls
  have hscatter := scatterv_blocks (by decide : 0 < pointerPacketSize) L.worldSize_pos hcalls hfit
  simp only [Nat.mul_one] at hscatter
  exact hscatter

/-- **A read of the client-server model.**  The master goes on with the whole array of addresses, of
which it uses its own part, the first. -/
theorem read_store (L : Launch) (s : System) (ioRequest : IORequestPacket) :
    s.dagonFS_Read L ioRequest = (storeOf s).read L ioRequest := by
  unfold System.dagonFS_Read Store.read
  split
  · rfl
  generalize numberOfBlocksForRequest L.blockSize ioRequest.fileSize ioRequest.reqSize = blocks
  show (s.scatterAddresses L ioRequest.inode blocks).bind _ =
    (getAddresses (s.blockList ioRequest.inode) blocks).bind _
  have hscatterAddresses : s.scatterAddresses L ioRequest.inode blocks =
      (getAddresses (s.blockList ioRequest.inode) blocks).bind _ := rfl
  cases haddresses : getAddresses (s.blockList ioRequest.inode) blocks with
  | none => rw [hscatterAddresses, haddresses]; rfl
  | some addresses =>
    have hcalls : CallsFor L blocks pointerPacketSize 0 (byRank
        (MasterProcessCode.readScatter L blocks) (NodeProcessCode.readScatter L · blocks)) :=
      callsFor_byRank (Or.inr rfl) fun _ => rfl
    obtain ⟨local_, hscatter, hlocal⟩ := scatter_addresses hcalls haddresses
    have hgather : byRank (MasterProcessCode.readGather L blocks)
        (NodeProcessCode.readGather L · blocks) =
          (PeerToPeer.DistributedCode.readGather L 0 · blocks) := by
      funext rank
      rw [byRank]
      split
      · rename_i hzero
        rw [hzero]
        rfl
      · rfl
    rw [hscatterAddresses, haddresses, Option.bind_some, hscatter, Option.map_some, Option.bind_some,
      Option.bind_some, hgather]
    refine congrArg (Option.map some) (loadAndGather_congr fun rank hr => ?_)
    refine loadBlocks_congr fun j hj => ?_
    rw [byRank]
    split
    · rename_i hzero
      subst hzero
      show (addresses[j]?).bind _ = ((Store.addressesFor L addresses blocks 0)[j]?).bind _
      rw [Store.addressesFor, start_zero, List.drop_zero, List.getElem?_take, if_pos hj]
      rfl
    · rw [hlocal rank hr]
      rfl

/-- **A read of the peers**, with rank 0 as the source. -/
theorem read_storeOfPeers (L : Launch) (peers : ℕ → PeerToPeer.Peer) (ioRequest : IORequestPacket) :
    PeerToPeer.dagonFS_Read L peers 0 ioRequest = (storeOfPeers peers).read L ioRequest := by
  unfold PeerToPeer.dagonFS_Read Store.read
  split
  · rfl
  generalize numberOfBlocksForRequest L.blockSize ioRequest.fileSize ioRequest.reqSize = blocks
  show (getAddresses ((peers 0).blockList ioRequest.inode) blocks).bind _ =
    (getAddresses ((peers 0).blockList ioRequest.inode) blocks).bind _
  cases haddresses : getAddresses ((peers 0).blockList ioRequest.inode) blocks with
  | none => rfl
  | some addresses =>
    have hcalls : CallsFor L blocks pointerPacketSize 0 (PeerToPeer.DistributedCode.readScatter L 0 · blocks) :=
      PeerToPeer.callsFor_own
    obtain ⟨local_, hscatter, hlocal⟩ := scatter_addresses hcalls haddresses
    rw [Option.bind_some, Option.bind_some, hscatter, Option.bind_some]
    refine congrArg (Option.map some) (loadAndGather_congr fun rank hr => ?_)
    rw [hlocal rank hr]
    rfl

end Programs

/-! ### The same store up to addresses -/

/-- A block with its address renamed. -/
def renameBlock (rename : Address → Address) (b : DataBlock) : DataBlock :=
  b.setData (b.getData.map rename)

/-- The two stores differ in the addresses of the blocks only: `rename` takes the addresses in the lists
of `st` to those of `st'`, at the same rank and with the same bytes, and different ones to different
ones. -/
structure Alike (rename : Address → Address) (st st' : Store) : Prop where
  lists : ∀ x, st'.blockList x = (st.blockList x).map (renameBlock rename)
  rank : ∀ a ∈ st.addresses, (rename a).rank = a.rank
  bytes : ∀ a ∈ st.addresses, ∃ bytes,
    (st.heaps a.rank)[a.index]? = some bytes ∧ (st'.heaps a.rank)[(rename a).index]? = some bytes
  injective : Set.InjOn rename st.addresses

section Renaming

variable {L : Launch} {rename : Address → Address}

@[simp] theorem renameBlock_getData (b : DataBlock) :
    (renameBlock rename b).getData = b.getData.map rename := rfl

theorem addDataBlocksLoop_map (w B inode fuel r : ℕ) (l : List DataBlock) :
    addDataBlocksLoop w B inode fuel r (l.map (renameBlock rename)) =
      (addDataBlocksLoop w B inode fuel r l).map (renameBlock rename) := by
  induction fuel generalizing r l with
  | zero => rfl
  | succ fuel ih =>
    rw [addDataBlocksLoop, addDataBlocksLoop, ← ih, List.map_append, List.length_map]
    rfl

theorem setAddresses_map (addresses : List (Option Address)) (k : ℕ) (l : List DataBlock) :
    setAddresses (addresses.map (Option.map rename)) k (l.map (renameBlock rename)) =
      (setAddresses addresses k l).map (renameBlock rename) := by
  have hgetD : ∀ i, (addresses.map (Option.map rename)).getD i none =
      (addresses.getD i none).map rename := by
    intro i
    rw [List.getD_eq_getElem?_getD, List.getD_eq_getElem?_getD, List.getElem?_map]
    cases addresses[i]? <;> rfl
  refine List.ext_getElem? fun i => ?_
  rw [setAddresses_getElem?, List.getElem?_map, List.getElem?_map, setAddresses_getElem?, hgetD]
  split
  · cases l[i]? <;> rfl
  · rfl

/-- Recording renamed addresses in a renamed list. -/
theorem recordAddresses_map (inode blocks : ℕ) (addresses : List (Option Address))
    (l : List DataBlock) :
    recordAddresses L inode blocks (addresses.map (Option.map rename)) (l.map (renameBlock rename)) =
      (recordAddresses L inode blocks addresses l).map (renameBlock rename) := by
  have hlast : ((l.map (renameBlock rename)).getLast?).elim 0 DataBlock.processRank =
      (l.getLast?).elim 0 DataBlock.processRank := by
    rw [List.getLast?_map]
    cases l.getLast? <;> rfl
  rw [recordAddresses, recordAddresses, List.length_map, ← setAddresses_map]
  congr 1
  split
  · rw [addDataBlocksTo, addDataBlocksTo, hlast, addDataBlocksLoop_map]
  · rfl

/-- What a list has after a write: a new address, or one that it had. -/
theorem mem_recordAddresses {inode blocks : ℕ} {addresses : List (Option Address)}
    {l : List DataBlock} (hlen : addresses.length = blocks) {b : DataBlock} {a : Address}
    (hb : b ∈ recordAddresses L inode blocks addresses l) (ha : b.getData = some a) :
    some a ∈ addresses ∨ ∃ b' ∈ l, b'.getData = some a := by
  obtain ⟨i, hi⟩ := List.mem_iff_getElem?.mp hb
  by_cases hnew : i < blocks
  · obtain ⟨block, hblock, hdata⟩ := recordAddresses_new L inode addresses l hnew
    obtain rfl : block = b := Option.some.inj (hblock.symm.trans hi)
    rw [ha, List.getD_eq_getElem?_getD, List.getElem?_eq_getElem (hlen ▸ hnew)] at hdata
    exact Or.inl (hdata ▸ List.getElem_mem _)
  · rw [recordAddresses_old _ _ _ _ (Nat.not_lt.mp hnew)] at hi
    exact Or.inr ⟨b, List.mem_of_getElem? hi, ha⟩

/-- The renaming after a write: the blocks that a rank adds correspond in order. -/
def extend (heaps heaps' : ℕ → Heap) (rename : Address → Address) (a : Address) : Address :=
  if a.index < (heaps a.rank).length then rename a
  else ⟨a.rank, (heaps' a.rank).length + (a.index - (heaps a.rank).length)⟩

theorem newAddresses_extend (heaps heaps' : ℕ → Heap) (blocks : ℕ) :
    newAddresses L heaps' blocks =
      (newAddresses L heaps blocks).map (Option.map (extend heaps heaps' rename)) := by
  rw [newAddresses, newAddresses, List.map_flatMap]
  refine List.flatMap_congr fun rank _ => ?_
  rw [List.map_map]
  refine List.map_congr_left fun j _ => ?_
  show _ = some (extend heaps heaps' rename ⟨rank, (heaps rank).length + j⟩)
  rw [extend, if_neg (Nat.not_lt.mpr (Nat.le_add_right _ _)), Nat.add_sub_cancel_left]

variable {st st' : Store}

/-- A listed address is that of an allocated block, in both stores. -/
theorem Alike.lt (h : Alike rename st st') {a : Address} (ha : a ∈ st.addresses) :
    a.index < (st.heaps a.rank).length ∧ (rename a).index < (st'.heaps a.rank).length := by
  obtain ⟨bytes, hget, hget'⟩ := h.bytes a ha
  exact ⟨(List.getElem?_eq_some_iff.mp hget).1, (List.getElem?_eq_some_iff.mp hget').1⟩

theorem Alike.extend_eq (h : Alike rename st st') {a : Address} (ha : a ∈ st.addresses) :
    extend st.heaps st'.heaps rename a = rename a := if_pos (h.lt ha).1

/-- The address of a new block. -/
theorem extend_new {blocks : ℕ} {a : Address} (ha : some a ∈ newAddresses L st.heaps blocks) :
    extend st.heaps st'.heaps rename a =
      ⟨a.rank, (st'.heaps a.rank).length + (a.index - (st.heaps a.rank).length)⟩ :=
  if_neg (Nat.not_lt.mpr (mem_newAddresses.mp ha).2.1)

/-- The addresses listed after a write are new or were listed before it. -/
theorem addresses_write {buffer : List UInt8} {inode fileSize : ℕ} {st₁ : Store}
    (hwrite : st.write L buffer inode fileSize = some st₁) {a : Address} (ha : a ∈ st₁.addresses) :
    a ∈ st.addresses ∨
      some a ∈ newAddresses L st.heaps (numberOfBlocks L.blockSize fileSize) := by
  simp only [Store.write] at hwrite
  split at hwrite
  · obtain rfl := Option.some.inj hwrite
    obtain ⟨x, b, hb, hdata⟩ := ha
    by_cases hx : x = inode
    · subst hx
      simp only [Function.update_self] at hb
      rcases mem_recordAddresses (newAddresses_length L st.heaps _) hb hdata with hnew | hold
      · exact Or.inr hnew
      · exact Or.inl ⟨x, hold⟩
    · simp only [Function.update_of_ne hx] at hb
      exact Or.inl ⟨x, b, hb, hdata⟩
  · cases hwrite

/-- **A write of two stores that are alike.** -/
theorem Alike.write (h : Alike rename st st') (buffer : List UInt8) (inode fileSize : ℕ) :
    Option.Rel (Alike (extend st.heaps st'.heaps rename)) (st.write L buffer inode fileSize)
      (st'.write L buffer inode fileSize) := by
  by_cases hfit : numberOfBlocks L.blockSize fileSize * L.blockSize ≤ buffer.length
  case neg =>
    rw [Store.write, Store.write, if_neg hfit, if_neg hfit]
    exact Option.Rel.none
  have hwrite : st.write L buffer inode fileSize = some _ := if_pos hfit
  have hwrite' : st'.write L buffer inode fileSize = some _ := if_pos hfit
  have hcases := fun a => addresses_write hwrite (a := a)
  rw [hwrite, hwrite']
  generalize numberOfBlocks L.blockSize fileSize = blocks at hfit hcases ⊢
  -- the lists before the write, under the longer renaming
  have hlists : ∀ x, st'.blockList x =
      (st.blockList x).map (renameBlock (extend st.heaps st'.heaps rename)) := by
    intro x
    rw [h.lists x]
    refine List.map_congr_left fun b hb => ?_
    cases hdata : b.getData with
    | none => simp only [renameBlock, hdata, Option.map_none]
    | some a => simp only [renameBlock, hdata, Option.map_some, h.extend_eq ⟨x, b, hb, hdata⟩]
  refine Option.Rel.some ⟨fun x => ?_, fun a ha => ?_, fun a ha => ?_, fun a ha a' ha' heq => ?_⟩
  · show Function.update st'.blockList inode _ x =
      List.map _ (Function.update st.blockList inode _ x)
    by_cases hx : x = inode
    · subst hx
      rw [Function.update_self, Function.update_self, ← recordAddresses_map, ← hlists,
        ← newAddresses_extend]
    · rw [Function.update_of_ne hx, Function.update_of_ne hx, hlists]
  · rcases hcases a ha with hold | hnew
    · rw [h.extend_eq hold, h.rank a hold]
    · rw [extend_new hnew]
  · show ∃ bytes, (st.heaps a.rank ++ _)[_]? = _ ∧ (st'.heaps a.rank ++ _)[_]? = _
    rcases hcases a ha with hold | hnew
    · obtain ⟨bytes, hget, hget'⟩ := h.bytes a hold
      obtain ⟨hlt, hlt'⟩ := h.lt hold
      exact ⟨bytes, by rw [List.getElem?_append_left hlt, hget],
        by rw [h.extend_eq hold, List.getElem?_append_left hlt', hget']⟩
    · obtain ⟨hr, hlo, hhi⟩ := mem_newAddresses.mp hnew
      have hsize : (newBlocks L buffer blocks a.rank).length = effectiveBlocks L a.rank blocks := by
        rw [newBlocks, if_pos hr, List.length_map, List.length_range]
      have hj : a.index - (st.heaps a.rank).length < (newBlocks L buffer blocks a.rank).length := by
        omega
      refine ⟨(newBlocks L buffer blocks a.rank)[a.index - (st.heaps a.rank).length], ?_, ?_⟩
      · rw [List.getElem?_append_right hlo, List.getElem?_eq_getElem hj]
      · rw [extend_new hnew, List.getElem?_append_right (Nat.le_add_right _ _),
          Nat.add_sub_cancel_left, List.getElem?_eq_getElem hj]
  · -- an old address has an old image, a new one a new image
    rcases hcases a ha with hold | hnew <;> rcases hcases a' ha' with hold' | hnew'
    · rw [h.extend_eq hold, h.extend_eq hold'] at heq
      exact h.injective hold hold' heq
    · rw [h.extend_eq hold, extend_new hnew'] at heq
      have hrank := h.rank a hold
      have hlt := (h.lt hold).2
      rw [heq] at hrank hlt
      rw [← hrank] at hlt
      simp at hlt
    · rw [extend_new hnew, h.extend_eq hold'] at heq
      have hrank := h.rank a' hold'
      have hlt := (h.lt hold').2
      rw [← heq] at hrank hlt
      rw [← hrank] at hlt
      simp at hlt
    · rw [extend_new hnew, extend_new hnew', Address.mk.injEq] at heq
      obtain ⟨hrank, hindex⟩ := heq
      have hlo := (mem_newAddresses.mp hnew).2.1
      have hlo' := (mem_newAddresses.mp hnew').2.1
      rw [hrank] at hindex hlo
      cases a
      cases a'
      simp only [Address.mk.injEq] at hrank hindex hlo hlo' ⊢
      omega

/-- **A read of two stores that are alike.** -/
theorem Alike.read (h : Alike rename st st') (ioRequest : IORequestPacket) :
    st.read L ioRequest = st'.read L ioRequest := by
  unfold Store.read
  split
  · rfl
  generalize numberOfBlocksForRequest L.blockSize ioRequest.fileSize ioRequest.reqSize = blocks
  show (getAddresses (st.blockList ioRequest.inode) blocks).bind _ =
    (getAddresses (st'.blockList ioRequest.inode) blocks).bind _
  rw [h.lists]
  by_cases hlen : blocks ≤ (st.blockList ioRequest.inode).length
  · have hlen' : blocks ≤ ((st.blockList ioRequest.inode).map (renameBlock rename)).length := by
      rwa [List.length_map]
    rw [getAddresses_eq hlen, getAddresses_eq hlen', Option.bind_some, Option.bind_some]
    refine congrArg (Option.map some) (loadAndGather_congr fun rank hr => loadBlocks_congr fun j hj => ?_)
    -- the same entry of both lists
    have hlt : start blocks L.mpiWorldSize rank + j < blocks := start_add_lt L.worldSize_pos hr hj
    simp only [Store.addressesFor, List.getElem?_take, if_pos hj, List.getElem?_drop,
      List.getElem?_map, if_pos hlt]
    cases hblock : (st.blockList ioRequest.inode)[start blocks L.mpiWorldSize rank + j]? with
    | none => rfl
    | some b =>
      show deref rank (st.heaps rank) b.getData = deref rank (st'.heaps rank) (b.getData.map rename)
      cases hdata : b.getData with
      | none => rfl
      | some a =>
        have ha : a ∈ st.addresses := ⟨ioRequest.inode, b, List.mem_of_getElem? hblock, hdata⟩
        obtain ⟨bytes, hget, hget'⟩ := h.bytes a ha
        show (if _ then _ else _) = if _ then _ else _
        rw [h.rank a ha]
        split
        · rename_i hrank
          rw [← hrank, hget, hget']
        · rfl
  · have hnone : getAddresses (st.blockList ioRequest.inode) blocks = none := by
      rw [← Option.not_isSome_iff_eq_none, getAddresses_isSome_iff]
      exact hlen
    have hnone' : getAddresses ((st.blockList ioRequest.inode).map (renameBlock rename)) blocks = none := by
      rw [← Option.not_isSome_iff_eq_none, getAddresses_isSome_iff, List.length_map]
      exact hlen
    rw [hnone, hnone']
    rfl

end Renaming

/-! ### Whole runs -/

/-- One call of the data path. -/
inductive Operation
  | write (buffer : List UInt8) (inode fileSize : ℕ)
  | read (ioRequest : IORequestPacket)

def Operation.inode : Operation → ℕ
  | write _ inode _ => inode
  | read ioRequest => ioRequest.inode

/-- `MasterProcessCode` with `NodeProcessCode`: the new state and the returned buffer, `none` for
`nullptr` and for a write, which returns nothing. -/
def masterStep (L : Launch) (s : System) : Operation → Option (System × Option (List UInt8))
  | .write buffer inode fileSize => (s.dagonFS_Write L buffer inode fileSize).map fun s' => (s', none)
  | .read ioRequest => (s.dagonFS_Read L ioRequest).map fun readBuff => (s, readBuff)

/-- `DistributedCode` on all ranks, with rank 0 as the source. -/
def peerStep (L : Launch) (peers : ℕ → PeerToPeer.Peer) :
    Operation → Option ((ℕ → PeerToPeer.Peer) × Option (List UInt8))
  | .write buffer inode fileSize =>
    (PeerToPeer.dagonFS_Write L peers 0 buffer inode fileSize).map fun peers' => (peers', none)
  | .read ioRequest => (PeerToPeer.dagonFS_Read L peers 0 ioRequest).map fun readBuff => (peers, readBuff)

section Runs

variable {L : Launch}

/-- The states of the two programs are the same up to addresses, and the peers have as many inodes as
they had in `peers₀`. -/
structure Related (peers₀ : ℕ → PeerToPeer.Peer) (s : System) (peers : ℕ → PeerToPeer.Peer) :
    Prop where
  alike : ∃ rename, Alike rename (storeOf s) (storeOfPeers peers)
  inodes : ∀ rank,
    (peers rank).iNodeManager.iNodes.length = (peers₀ rank).iNodeManager.iNodes.length

/-- **The step lemma.** -/
theorem Related.step {peers₀ peers : ℕ → PeerToPeer.Peer} {s : System} (h : Related peers₀ s peers)
    (o : Operation)
    (ho : ∀ rank < L.mpiWorldSize, o.inode < (peers₀ rank).iNodeManager.iNodes.length) :
    Option.Rel (fun x y => Related peers₀ x.1 y.1 ∧ x.2 = y.2) (masterStep L s o)
      (peerStep L peers o) := by
  obtain ⟨rename, halike⟩ := h.alike
  cases o with
  | write buffer inode fileSize =>
    have hregistered : ∀ rank < L.mpiWorldSize, inode < (peers rank).iNodeManager.iNodes.length := by
      intro rank hr
      rw [h.inodes rank]
      exact ho rank hr
    have hrel := halike.write (L := L) buffer inode fileSize
    rw [← write_store, ← write_storeOfPeers hregistered] at hrel
    simp only [masterStep, peerStep]
    cases hmaster : s.dagonFS_Write L buffer inode fileSize with
    | none =>
      cases hpeer : PeerToPeer.dagonFS_Write L peers 0 buffer inode fileSize with
      | none => exact Option.Rel.none
      | some peers' => rw [hmaster, hpeer] at hrel; cases hrel
    | some s' =>
      cases hpeer : PeerToPeer.dagonFS_Write L peers 0 buffer inode fileSize with
      | none => rw [hmaster, hpeer] at hrel; cases hrel
      | some peers' =>
        rw [hmaster, hpeer] at hrel
        obtain ⟨peers'', hwrite, hwritten⟩ := PeerToPeer.dagonFS_Write_spec L.worldSize_pos
          (PeerToPeer.le_of_dagonFS_Write L.worldSize_pos hpeer) hregistered
        obtain rfl : peers'' = peers' := Option.some.inj (hwrite.symm.trans hpeer)
        cases hrel with
        | some hrel =>
          exact Option.Rel.some ⟨⟨⟨_, hrel⟩, fun rank =>
            (hwritten.inodes rank).trans (h.inodes rank)⟩, rfl⟩
  | read ioRequest =>
    simp only [masterStep, peerStep]
    rw [read_store, read_storeOfPeers, halike.read]
    cases (storeOfPeers peers).read L ioRequest with
    | none => exact Option.Rel.none
    | some readBuff => exact Option.Rel.some ⟨h, rfl⟩

/-- **The two programs agree on the data path.**  From states without block lists, and for inodes that
every peer has, a sequence of writes and reads returns the same buffers and stops at the same
operation, if at any; the block lists at rank 0 then are the same up to the addresses. -/
theorem dataPath_agrees (L : Launch) (s : System) (peers : ℕ → PeerToPeer.Peer)
    (operations : List Operation) (hmaster : ∀ x, s.blockList x = [])
    (hpeer : ∀ x, (peers 0).blockList x = [])
    (hregistered : ∀ o ∈ operations, ∀ rank < L.mpiWorldSize,
      o.inode < (peers rank).iNodeManager.iNodes.length) :
    Agree (fun s' peers' => ∃ rename, Alike rename (storeOf s') (storeOfPeers peers'))
      (answers (masterStep L) s operations) (answers (peerStep L) peers operations) := by
  have hempty : (storeOf s).addresses = ∅ := by
    refine Set.eq_empty_of_forall_notMem ?_
    rintro a ⟨x, b, hb, -⟩
    have hb : b ∈ s.blockList x := hb
    rw [hmaster x] at hb
    cases hb
  have hstart : Related peers s peers := by
    refine ⟨⟨id, fun x => ?_, fun a ha => ?_, fun a ha => ?_, ?_⟩, fun _ => rfl⟩
    · show (peers 0).blockList x = (s.blockList x).map _
      rw [hmaster, hpeer, List.map_nil]
    · exact absurd ha (by rw [hempty]; exact Set.notMem_empty a)
    · exact absurd ha (by rw [hempty]; exact Set.notMem_empty a)
    · rw [hempty]
      exact Set.injOn_empty _
  obtain ⟨hanswers, hend⟩ := answers_agree (fun s peers' o h ho => h.step o ho) hstart hregistered
  refine ⟨hanswers, ?_⟩
  generalize (answers (masterStep L) s operations).2 = x at hend ⊢
  generalize (answers (peerStep L) peers operations).2 = y at hend ⊢
  cases hend with
  | none => exact Option.Rel.none
  | some h => exact Option.Rel.some h.alike

/-- Both read the three blocks back, and stop at the read of two: the second block is not in the memory
of the second rank. -/
theorem dataPath_agrees_read :
    let L : Launch := ⟨2, 4, by decide, by decide⟩
    let peers := fun _ : ℕ => (⟨⟨List.replicate 2 (Nodes.createEmptyINode .regularFile), []⟩,
      Blocks.new, []⟩ : PeerToPeer.Peer)
    let operations : List Operation := [.write [1, 2, 3, 4, 5, 6, 7, 8, 9, 0, 0, 0] 1 9,
      .read ⟨1, 9, 9, 0⟩, .read ⟨1, 9, 8, 0⟩]
    (answers (masterStep L) (System.mounted ⟨0, 0⟩) operations).1 =
      [none, some [1, 2, 3, 4, 5, 6, 7, 8, 9, 0, 0, 0]] ∧
    Agree (fun s' peers' => ∃ rename, Alike rename (storeOf s') (storeOfPeers peers'))
      (answers (masterStep L) (System.mounted ⟨0, 0⟩) operations)
      (answers (peerStep L) peers operations) := by
  intro L peers operations
  have hlists : ∀ x, (System.mounted ⟨0, 0⟩).blockList x = [] := fun _ => rfl
  have hregistered : ∀ o ∈ operations, o.inode < 2 := by
    intro o ho
    simp only [operations, List.mem_cons, List.not_mem_nil, or_false] at ho
    obtain rfl | rfl | rfl := ho <;> decide
  exact ⟨by decide +kernel, dataPath_agrees L _ peers operations hlists (fun _ => rfl)
    fun o ho _ _ => hregistered o ho⟩

end Runs

end DagonFs.DataPath
