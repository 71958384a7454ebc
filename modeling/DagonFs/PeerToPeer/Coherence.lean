import DagonFs.PeerToPeer.BlockCounts

/-!
# One file on all peers

Between a creation and the next, a file is opened, written, stored by the flush and released, by one peer at a
time.  `Coherent` says what all peers have of it meanwhile: those that do not have it open hold the size that
was stored last, and the blocks that were stored are where every peer's list says.  What the peer of the
handle has is read off the patches that were written since the file was created or cut, at any peer
(`Held`).

`Coherent.open`, `Coherent.write`, `Coherent.flush` and `Coherent.release` are the handlers; they keep the
other files (`Aside`).
-/

namespace DagonFs

open DagonFs.Nodes DagonFs.Lib.Buffer DagonFs.Lib.BlockSplit DagonFs.Lib.Runs

namespace PeerToPeer

/-- The file `x` of a process. -/
def Process.file (p : Process) (x : ℕ) : Option FileState := p.fs.iNodeManager.fileAt x

/-- The open handle of a file, and whether it has been flushed. -/
structure Handle where
  rank : ℕ
  unsent : Bool
  flushed : Bool

/-! ### One file on the peers -/

/-- The size that was stored, no buffer, and at least the blocks of the size. -/
structure Idle (L : Launch) (size : ℕ) (v : FileState) : Prop where
  stSize : v.stSize = size
  stBlocks : numberOfBlocks L.blockSize size ≤ v.stBlocks
  file : v.file = File.new

/-- The buffer of an open file has whole blocks, as many as the peer counts or fewer, and holds what the
history says. -/
structure Buffered (L : Launch) (history : List (Patch UInt8)) (v : FileState) : Prop where
  inside : v.stSize ≤ v.file.bytes.length
  wholeBlocks : ∃ blocks ≤ v.stBlocks, v.file.bytes.length = blocks * L.blockSize
  agrees : Agrees v.file.bytes history
  allocated : v.file.isWaitingForDistributedWrite = true → ∃ buf, v.file.mBuf = some buf

/-- The file at the peer that has it open.  Before the first change it is what was stored. -/
structure Held (L : Launch) (history : List (Patch UInt8)) (size : ℕ) (content : List UInt8) (h : Handle)
    (v : FileState) : Prop where
  stSize : v.stSize = extent history
  stBlocks : numberOfBlocks L.blockSize v.stSize ≤ v.stBlocks
  buffered : h.flushed = false → Buffered L history v
  freed : h.flushed = true → v.file = File.new
  unchanged : h.unsent = false → v.file.isWaitingForDistributedWrite = false →
    v.stSize = size ∧ Agrees content history

/-- File `x` on all peers; `content` was stored last, as a file of `size` bytes. -/
structure Coherent (L : Launch) (s : ℕ → Process) (history : List (Patch UInt8)) (x : ℕ)
    (handle : Option Handle) (size : ℕ) (content : List UInt8) : Prop where
  room : numberOfBlocks L.blockSize size * L.blockSize ≤ content.length
  stored : Stored L (fun r => (s r).peer) x (numberOfBlocks L.blockSize size) content
  others : ∀ t < L.mpiWorldSize, (∀ h, handle = some h → t ≠ h.rank) →
    ∃ v, (s t).file x = some v ∧ Idle L size v
  held : ∀ h, handle = some h → h.rank < L.mpiWorldSize ∧
    ∃ v, (s h.rank).file x = some v ∧ Held L history size content h v
  closed : handle = none → size = extent history ∧ Agrees content history

/-- A step has kept what the files other than `x` rely on. -/
structure Aside (L : Launch) (s s' : ℕ → Process) (x : ℕ) : Prop where
  files : ∀ t < L.mpiWorldSize, ∀ y, y ≠ x → (s' t).file y = (s t).file y
  lists : ∀ t < L.mpiWorldSize, ∀ y, y ≠ x → (s' t).peer.blockList y = (s t).peer.blockList y
  heaps : ∀ t, (s t).heap <+: (s' t).heap

/-- A handler has edited file `x` of process `rank` (`Edits`), and nothing else of that process. -/
structure Confined (s s' : ℕ → Process) (rank x : ℕ) (v : FileState) : Prop extends
    Edits s s' rank x v where
  files : ∀ y, y ≠ x → (s' rank).file y = (s rank).file y
  heap : (s' rank).heap = (s rank).heap

variable {L : Launch} {s s' s'' : ℕ → Process} {rank x : ℕ} {v v' : FileState} {replies : List Reply}
  {history history' : List (Patch UInt8)} {handle handle' : Option Handle} {size : ℕ} {content : List UInt8}

/-! ### Frames -/

theorem Stored.mono {inode blocks : ℕ} {buffer : List UInt8}
    (h : Stored L (fun r => (s r).peer) inode blocks buffer)
    (hlists : ∀ t < L.mpiWorldSize, (s' t).peer.blockList inode = (s t).peer.blockList inode)
    (hheaps : ∀ t, (s t).heap <+: (s' t).heap) : Stored L (fun r => (s' r).peer) inode blocks buffer := by
  intro t ht i hi
  obtain ⟨block, hblock, hholds⟩ := h t ht i hi
  exact ⟨block, by rw [hlists t ht, hblock], hholds.mono hheaps⟩

theorem stored_nil (L : Launch) (s : ℕ → Process) (x : ℕ) (buffer : List UInt8) :
    Stored L (fun r => (s r).peer) x (numberOfBlocks L.blockSize 0) buffer := by
  intro t _ i hi
  rw [numberOfBlocks_zero] at hi
  exact absurd hi (Nat.not_lt_zero i)

/-- Another file is touched. -/
theorem Coherent.mono (h : Coherent L s history x handle size content)
    (hfiles : ∀ t < L.mpiWorldSize, (s' t).file x = (s t).file x)
    (hlists : ∀ t < L.mpiWorldSize, (s' t).peer.blockList x = (s t).peer.blockList x)
    (hheaps : ∀ t, (s t).heap <+: (s' t).heap) : Coherent L s' history x handle size content := by
  constructor
  case room => exact h.room
  case stored => exact h.stored.mono hlists hheaps
  case others =>
    intro t ht hne
    rw [hfiles t ht]
    exact h.others t ht hne
  case held =>
    intro hand hhandle
    obtain ⟨hrank, hfile⟩ := h.held hand hhandle
    rw [hfiles hand.rank hrank]
    exact ⟨hrank, hfile⟩
  case closed => exact h.closed

theorem Confined.file (h : Confined s s' rank x v) {t y : ℕ} (hne : t ≠ rank ∨ y ≠ x) :
    (s' t).file y = (s t).file y := by
  by_cases ht : t = rank
  · subst ht
    exact h.files y (hne.resolve_left fun hn => hn rfl)
  · rw [h.others t ht]

theorem Confined.heaps (h : Confined s s' rank x v) (t : ℕ) : (s t).heap <+: (s' t).heap := by
  by_cases ht : t = rank
  · rw [ht, h.heap]
  · rw [h.others t ht]

theorem Confined.aside (h : Confined s s' rank x v) (L : Launch) : Aside L s s' x := by
  constructor
  case files => exact fun t _ y hy => h.file (Or.inr hy)
  case lists => exact fun t _ y _ => congrFun (h.blockList t) y
  case heaps => exact h.heaps

theorem confined_modifyINode {f : INode → INode} (hfile : (s rank).fs.iNodeManager.fileAt x = some v)
    (hf : ∀ i : INode, i.fileState = some v → (f i).fileState = some v') :
    Confined s (modifyINode s rank x f) rank x v' := by
  refine ⟨edits_modifyINode hfile hf, fun y hy => ?_, ?_⟩
  · rw [Process.file, modifyINode, Function.update_self]
    exact fileAt_modifyINode_ne _ f hy
  · rw [modifyINode, Function.update_self]

theorem confined_locally {res : System.Result} {s₁ : System} {r : List Reply} (hres : res = some (s₁, r))
    (he : System.Edited (s rank).system s₁ x v) (h : locally s rank res = some (s', replies)) :
    Confined s s' rank x v := by
  have hedits := edits_locally hres he h
  rw [hres] at h
  obtain ⟨rfl, -⟩ := Prod.mk.inj (Option.some.inj h)
  refine ⟨hedits, fun y hy => ?_, ?_⟩
  · rw [Process.file, Function.update_self]
    exact he.others y hy
  · rw [Function.update_self]

/-- The file is edited at the peer of its handle: the others have what they had. -/
theorem Coherent.edit {hand : Handle} (h : Coherent L s history x handle size content)
    (hholder : ∀ h, handle = some h → h.rank = hand.rank) (hrank : hand.rank < L.mpiWorldSize)
    (he : Confined s s' hand.rank x v) (hheld : Held L history' size content hand v) :
    Coherent L s' history' x (some hand) size content := by
  constructor
  case room => exact h.room
  case stored => exact h.stored.mono (fun t _ => congrFun (he.blockList t) x) he.heaps
  case others =>
    intro t ht hne
    have ht' : t ≠ hand.rank := hne hand rfl
    rw [he.file (Or.inl ht')]
    refine h.others t ht fun h' hh' => ?_
    rw [hholder h' hh']
    exact ht'
  case held =>
    intro h' hh'
    obtain rfl := Option.some.inj hh'
    exact ⟨hrank, v, he.self, hheld⟩
  case closed => exact fun hnone => nomatch hnone

/-! ### The handlers -/

/-- An open that does not cut the file has a load that returns the blocks that were stored. -/
theorem Coherent.load (h : Coherent L s history x none size content) (hrank : rank < L.mpiWorldSize) :
    ∃ buf, dagonFS_Read L (fun r => (s r).peer) rank ⟨x, size, size, 0⟩ = some buf ∧
      (buf.getD []).length = numberOfBlocks L.blockSize size * L.blockSize ∧
      Agrees (buf.getD []) history := by
  obtain ⟨hsize, hagrees⟩ := h.closed rfl
  obtain ⟨buf, hread, hbytes⟩ : ∃ buf,
      dagonFS_Read L (fun r => (s r).peer) rank ⟨x, size, size, 0⟩ = some buf ∧
        (buf.getD []).take size = content.take size := dagonFS_Read_spec hrank h.room h.stored
  refine ⟨buf, hread, length_of_dagonFS_Read hread, ?_⟩
  intro k a hk
  -- the history says nothing past the size
  have hlt : k < size := by
    by_contra hge
    rw [lastByte_eq_none (hsize ▸ Nat.le_of_not_lt hge)] at hk
    cases hk
  have hcontent := hagrees k a hk
  rw [← hcontent, ← List.getElem?_take_of_lt hlt, hbytes, List.getElem?_take_of_lt hlt]

theorem fuseOpen_loads {flags : ℕ} {buf : Option (List UInt8)}
    (hfile : (s rank).fs.iNodeManager.fileAt x = some v) (hflags : opensForWriting flags = false)
    (hread : dagonFS_Read L (fun r => (s r).peer) rank ⟨x, v.stSize, v.stSize, 0⟩ = some buf) :
    fuseOpen L s rank x flags =
      some (modifyINode s rank x (System.onFile ({ · with mBuf := buf })), [.opened]) := by
  obtain ⟨i, hsize, hkind, hwith⟩ := withINode_file hfile
  simp only [fuseOpen, hwith, hkind, hflags, hsize, hread]
  rfl

theorem fuseOpen_notFile (flags : ℕ) (hnone : (s rank).fs.iNodeManager.fileAt x = none) :
    ∃ e, fuseOpen L s rank x flags = some (s, [.err e]) := by
  unfold fuseOpen withINode
  split
  · exact ⟨_, rfl⟩
  · rename_i hle
    have hlt : x < (s rank).fs.iNodeManager.iNodes.length := Nat.lt_of_not_le hle
    have hget := List.getElem?_eq_getElem hlt
    rw [fileAt, hget] at hnone
    rw [getINodeByINodeNumber, hget, Option.bind_some]
    generalize (s rank).fs.iNodeManager.iNodes[x] = i at hnone
    obtain ⟨_, _, _, _, k⟩ := i
    cases k with
    | file f => cases hnone
    | directory | symbolicLink | specialINode => exact ⟨_, rfl⟩

/-- **An open**, at any peer, of a file that no handle is open for. -/
theorem Coherent.open (h : Coherent L s history x none size content) (hrank : rank < L.mpiWorldSize)
    (flags : ℕ) : ∃ (s' : ℕ → Process) (v : FileState), fuseOpen L s rank x flags = some (s', [.opened]) ∧
      Confined s s' rank x v ∧ Coherent L s' (if opensForWriting flags = true then [] else history) x
        (some ⟨rank, opensForWriting flags && size != 0, false⟩) size content := by
  obtain ⟨v, hfile, hidle⟩ := h.others rank hrank fun h hh => nomatch hh
  obtain ⟨hsize, hagrees⟩ := h.closed rfl
  cases hflags : opensForWriting flags with
  | true =>
    have he := confined_modifyINode hfile fun _ => System.clearSize_fileState
    refine ⟨_, _, fuseOpen_cuts hfile hflags, he, h.edit (fun h hh => nomatch hh) hrank he ?_⟩
    rw [hidle.file, if_pos rfl]
    constructor
    case stSize => rfl
    case stBlocks => exact (numberOfBlocks_zero L.blockSize).le
    case buffered =>
      intro _
      exact ⟨Nat.zero_le _, ⟨0, Nat.le_refl _, (Nat.zero_mul _).symm⟩, agrees_nil _, fun hw => nomatch hw⟩
    case freed => exact fun hw => nomatch hw
    case unchanged =>
      intro hsent _
      rw [Bool.true_and, bne_eq_false_iff_eq] at hsent
      exact ⟨hsent.symm, agrees_nil _⟩
  | false =>
    obtain ⟨buf, hread, hlength, hbuf⟩ := h.load hrank
    rw [← hidle.stSize] at hread
    have he := confined_modifyINode (f := System.onFile ({ · with mBuf := buf })) hfile
      fun _ => System.onFile_fileState _
    refine ⟨_, _, fuseOpen_loads hfile hflags hread, he, h.edit (fun h hh => nomatch hh) hrank he ?_⟩
    rw [hidle.file, if_neg Bool.false_ne_true]
    constructor
    case stSize => exact hidle.stSize.trans hsize
    case stBlocks => exact hidle.stSize ▸ hidle.stBlocks
    case buffered =>
      intro _
      refine ⟨?_, ⟨_, hidle.stBlocks, hlength⟩, hbuf, fun hw => nomatch hw⟩
      show v.stSize ≤ (buf.getD []).length
      rw [hlength, hidle.stSize]
      exact le_numberOfBlocks_mul L.blockSize_pos size
    case freed => exact fun hw => nomatch hw
    case unchanged => exact fun _ _ => ⟨hidle.stSize, hagrees⟩

/-- The buffer that a write copies into has the bytes of the old one, and room for the new size. -/
theorem Buffered.writeBuffer (h : Buffered L history v) {off : ℕ} {data : List UInt8} {junk : ℕ → UInt8}
    (hfit : off + data.length ≤ ((v.writeBuffer L off data junk).getD []).length) :
    Agrees ((v.writeBuffer L off data junk).getD []) history ∧
      (v.wrote L off data junk).stSize ≤ ((v.writeBuffer L off data junk).getD []).length ∧
      ∃ blocks ≤ (v.wrote L off data junk).stBlocks,
        ((v.writeBuffer L off data junk).getD []).length = blocks * L.blockSize := by
  obtain ⟨blocks, hblocks, hlength⟩ := h.wholeBlocks
  have hcapacity : v.file.bytes.length ≤ L.blockSize * v.stBlocks := by
    rw [hlength, Nat.mul_comm]
    exact Nat.mul_le_mul_left _ hblocks
  have hinside := h.inside
  refine ⟨?_, ?_⟩
  · intro k a hk
    have hbyte := h.agrees k a hk
    have hlt := (List.getElem?_eq_some_iff.mp hbyte).1
    rw [System.getElem?_writeBuffer off data junk hlt (by omega), hbyte]
  · simp only [FileState.writeBuffer, FileState.wrote] at hfit ⊢
    split at hfit
    · rename_i hgrows
      rw [if_pos hgrows, if_pos hgrows]
      rw [Option.getD_some, length_grow] at hfit ⊢
      exact ⟨by omega, _, Nat.le_refl _, rfl⟩
    · rename_i hkeeps
      rw [if_neg hkeeps, if_neg hkeeps]
      exact ⟨max_le hinside hfit, blocks, hblocks, hlength⟩

/-- A write of at least one byte leaves the file with the longer history. -/
theorem Held.wrote {rank : ℕ} {unsent unsent' : Bool} {off : ℕ} {data : List UInt8} {junk : ℕ → UInt8}
    (h : Held L history size content ⟨rank, unsent, false⟩ v) (hdata : data.length ≠ 0)
    (hfit : off + data.length ≤ ((v.writeBuffer L off data junk).getD []).length) :
    Held L (history ++ [⟨off, data⟩]) size content ⟨rank, unsent', false⟩ (v.wrote L off data junk) := by
  obtain ⟨hagrees, hinside, blocks, hblocks, hlength⟩ := (h.buffered rfl).writeBuffer hfit
  have hbytes := System.bytes_wrote_eq (Or.inr hfit)
  have hsplice : (v.wrote L off data junk).file.bytes.length =
      ((v.writeBuffer L off data junk).getD []).length := by
    rw [hbytes]
    exact length_splice hfit
  constructor
  case stSize =>
    rw [extent_snoc, ← h.stSize]
    rfl
  case stBlocks =>
    refine Nat.le_trans ?_ hblocks
    rw [numberOfBlocks_le_iff L.blockSize_pos, ← hlength]
    exact hinside
  case buffered =>
    intro _
    constructor
    case inside => exact hsplice ▸ hinside
    case wholeBlocks => exact ⟨blocks, hblocks, hsplice.trans hlength⟩
    case agrees =>
      rw [hbytes]
      exact agrees_splice hagrees hfit
    case allocated =>
      intro _
      cases hbuf : v.writeBuffer L off data junk with
      | none =>
        rw [hbuf] at hfit
        exact absurd (Nat.le_zero.mp hfit) (by omega)
      | some buf => exact ⟨_, congrArg (Option.map (splice · off data)) hbuf⟩
  case freed => exact fun hw => nomatch hw
  case unchanged => exact fun _ hw => nomatch hw

theorem Coherent.write {unsent : Bool} {off : ℕ} {data : List UInt8} {junk : ℕ → UInt8}
    (h : Coherent L s history x (some ⟨rank, unsent, false⟩) size content) (unsent' : Bool)
    (hdata : data.length ≠ 0) (hwrite : fuseWrite L s rank x (some data) off junk = some (s', replies)) :
    Aside L s s' x ∧
      Coherent L s' (history ++ [⟨off, data⟩]) x (some ⟨rank, unsent', false⟩) size content := by
  obtain ⟨hrank, v, hfile, hheld⟩ := h.held _ rfl
  obtain ⟨s₁, he, hlocal⟩ :=
    System.fuseWrite_edited (s := (s rank).system) (L := L) hfile data off junk
  split at hlocal
  · rename_i hfit
    have hconfined := confined_locally hlocal he hwrite
    refine ⟨hconfined.aside L, ?_⟩
    exact h.edit (fun h' hh => (Option.some.inj hh) ▸ rfl) hrank hconfined
      (hheld.wrote hdata hfit)
  · -- the bytes do not fit the buffer
    rw [fuseWrite, hlocal] at hwrite
    cases hwrite

/-! ### The flush -/

section Flush

variable (hfile : (s rank).fs.iNodeManager.fileAt x = some v)
include hfile

theorem fuseFlush_empty (hbuf : v.file.mBuf = none) : fuseFlush L s rank x = some (s, [.ok]) := by
  obtain ⟨i, -, hkind, hwith⟩ := withINode_file hfile
  simp only [fuseFlush, hwith, INode.asFile, hkind, Option.bind_some, hbuf]

/-- The flush of a buffer that has not been written to only frees it. -/
theorem fuseFlush_unwritten {buf : List UInt8} (hbuf : v.file.mBuf = some buf)
    (hclean : v.file.isWaitingForDistributedWrite = false) :
    fuseFlush L s rank x = some (modifyINode s rank x (System.onFile File.freeBuf), [.ok]) := by
  obtain ⟨i, -, hkind, hwith⟩ := withINode_file hfile
  simp only [fuseFlush, hwith, INode.asFile, hkind, Option.bind_some, hbuf, hclean]
  rfl

end Flush

/-- A distributed write touches one inode. -/
theorem finishWrite_file_ne {sourceRank t inode fileSize : ℕ} {p p' : Peer} {heap : Heap}
    {addresses : List (Option Address)}
    (h : DistributedCode.finishWrite L sourceRank t p inode fileSize heap addresses = some p') {y : ℕ}
    (hy : y ≠ inode) : p'.iNodeManager.fileAt y = p.iNodeManager.fileAt y := by
  unfold DistributedCode.finishWrite at h
  split at h
  · obtain rfl := Option.some.inj h
    rfl
  · obtain ⟨i, -, rfl⟩ := Option.map_eq_some_iff.mp h
    exact fileAt_modifyINode_ne _ _ hy

/-- What the other peers have after the distributed write of a flush. -/
theorem idle_of_finishWrite {sourceRank t fileSize : ℕ} {p p' : Peer} {heap : Heap}
    {addresses : List (Option Address)} (hne : t ≠ sourceRank)
    (hfile : p.iNodeManager.fileAt x = some v) (hidle : Idle L size v)
    (h : DistributedCode.finishWrite L sourceRank t p x fileSize heap addresses = some p') :
    ∃ v', p'.iNodeManager.fileAt x = some v' ∧ Idle L fileSize v' := by
  obtain ⟨blocks, hfile'⟩ := finishWrite_fileAt hne hfile h
  obtain ⟨hlength, hstat⟩ := finishWrite_counts h
  rw [if_neg hne] at hstat
  refine ⟨_, hfile', rfl, ?_, hidle.file⟩
  -- the count is the length of the block list
  have hblocks : p'.stBlocks x = some blocks := by
    obtain ⟨i, hget, hi⟩ := Option.bind_eq_some_iff.mp hfile'
    rw [Peer.stBlocks, getINodeByINodeNumber, hget]
    exact congrArg some (INode.fileState_eq_some hi).2.1
  obtain rfl : blocks = (p'.blockList x).length := Option.some.inj (hblocks.symm.trans hstat.2)
  show numberOfBlocks L.blockSize fileSize ≤ (p'.blockList x).length
  rw [hlength]
  exact le_max_right _ _

/-- The other files, and all blocks that were stored, after a distributed write. -/
theorem aside_of_dagonFS_Write {peers : ℕ → Peer} {buffer : List UInt8} {fileSize : ℕ}
    (hwrite : dagonFS_Write L (fun r => (s r).peer) rank buffer x fileSize = some peers)
    (hw : Written L (fun r => (s r).peer) peers rank buffer x fileSize) :
    Aside L s (fun r => (s r).setPeer (peers r)) x := by
  constructor
  case files =>
    intro t ht y hy
    obtain ⟨_, _, hend⟩ := dagonFS_Write_ends hwrite ht
    exact finishWrite_file_ne hend hy
  case lists => exact fun t _ y hy => hw.lists t y hy
  case heaps => exact hw.heaps

theorem Aside.trans (h : Aside L s s' x) (h' : Aside L s' s'' x) : Aside L s s'' x := by
  constructor
  case files => exact fun t ht y hy => (h'.files t ht y hy).trans (h.files t ht y hy)
  case lists => exact fun t ht y hy => (h'.lists t ht y hy).trans (h.lists t ht y hy)
  case heaps => exact fun t => (h.heaps t).trans (h'.heaps t)

theorem Aside.refl (L : Launch) (s : ℕ → Process) (x : ℕ) : Aside L s s x := by
  constructor
  case files => exact fun _ _ _ _ => rfl
  case lists => exact fun _ _ _ _ => rfl
  case heaps => exact fun t => List.prefix_refl _

/-- The end of a session, for a buffer that holds what was stored before it. -/
theorem Held.free {h : Handle} (hheld : Held L history size content h v)
    (hfile : v.file.isWaitingForDistributedWrite = false) :
    Held L history size content ⟨h.rank, h.unsent, true⟩ { v with file := File.new } := by
  constructor
  case stSize => exact hheld.stSize
  case stBlocks => exact hheld.stBlocks
  case buffered => exact fun hw => nomatch hw
  case freed => exact fun _ => rfl
  case unchanged => exact fun hsent _ => hheld.unchanged hsent hfile

/-- **A flush** of what has been written: it is what every peer has stored then. -/
theorem Coherent.flush_written {h : Handle} {buf : List UInt8}
    (hc : Coherent L s history x (some h) size content) (hflushed : h.flushed = false)
    (hfile : (s h.rank).fs.iNodeManager.fileAt x = some v) (hheld : Held L history size content h v)
    (hbuf : v.file.mBuf = some buf) (hwaiting : v.file.isWaitingForDistributedWrite = true) :
    ∃ s', fuseFlush L s h.rank x = some (s', [.ok]) ∧ Aside L s s' x ∧
      Coherent L s' history x (some ⟨h.rank, false, true⟩) v.stSize buf := by
  obtain ⟨hrank, -⟩ := hc.held h rfl
  obtain ⟨hinside, ⟨blocks, -, hlength⟩, hagrees, -⟩ := hheld.buffered hflushed
  have hbytes : v.file.bytes = buf := by rw [File.bytes, hbuf]; rfl
  rw [hbytes] at hinside hlength hagrees
  have hfit : numberOfBlocks L.blockSize v.stSize * L.blockSize ≤ buf.length := by
    rw [hlength] at hinside ⊢
    exact Nat.mul_le_mul_right _ ((numberOfBlocks_le_iff L.blockSize_pos _ _).mpr hinside)
  have hinode : ∀ t < L.mpiWorldSize, x < (s t).peer.iNodeManager.iNodes.length := by
    intro t ht
    by_cases hself : t = h.rank
    · exact hself ▸ lt_of_fileAt hfile
    · obtain ⟨w, hw, -⟩ := hc.others t ht fun h' hh' => (Option.some.inj hh') ▸ hself
      exact lt_of_fileAt hw
  obtain ⟨peers, hwrite, hwritten⟩ := dagonFS_Write_spec hrank hfit hinode
  have hedits := flushed_edits hrank hfile hwrite
  have hconfined : Confined (fun r => (s r).setPeer (peers r)) _ h.rank x _ :=
    confined_modifyINode (f := System.onFile fun f => f.removeWaiting.freeBuf) (v := v) (by
      obtain ⟨_, _, hend⟩ := dagonFS_Write_ends hwrite hrank
      have hnodes := (finishWrite_counts hend).2
      rw [if_pos rfl] at hnodes
      show (peers h.rank).iNodeManager.fileAt x = some v
      rw [hnodes]
      exact hfile) fun i hi => System.onFile_fileState _ hi
  refine ⟨_, by rw [fuseFlush_eq hfile hbuf hwaiting, hwrite, Option.map_some],
    (aside_of_dagonFS_Write hwrite hwritten).trans (hconfined.aside L), ?_⟩
  constructor
  case room => exact hfit
  case stored =>
    exact Stored.mono (s := fun r => (s r).setPeer (peers r)) hwritten.stored
      (fun t _ => congrFun (hconfined.blockList t) x) hconfined.heaps
  case others =>
    intro t ht hne
    have ht' : t ≠ h.rank := hne ⟨h.rank, false, true⟩ rfl
    obtain ⟨w, hw, hidle⟩ := hc.others t ht fun h' hh' => (Option.some.inj hh') ▸ ht'
    obtain ⟨_, _, hend⟩ := dagonFS_Write_ends hwrite ht
    obtain ⟨w', hw', hidle'⟩ := idle_of_finishWrite (p := (s t).peer) ht' hw hidle hend
    refine ⟨w', ?_, hidle'⟩
    rw [hconfined.file (Or.inl ht')]
    exact hw'
  case held =>
    intro h' hh'
    obtain rfl := Option.some.inj hh'
    refine ⟨hrank, _, hconfined.self, ?_⟩
    constructor
    case stSize => exact hheld.stSize
    case stBlocks => exact hheld.stBlocks
    case buffered =>
      intro hw
      cases hw
    case freed => exact fun _ => rfl
    case unchanged => exact fun _ _ => ⟨rfl, hagrees⟩
  case closed =>
    intro hnone
    cases hnone

/-- **A flush** of an open handle, whether it has something to store or not. -/
theorem Coherent.flush {h : Handle} (hc : Coherent L s history x (some h) size content)
    (hfile : (s h.rank).fs.iNodeManager.fileAt x = some v) (hheld : Held L history size content h v) :
    ∃ s', fuseFlush L s h.rank x = some (s', [.ok]) ∧ Aside L s s' x ∧ ∃ size content,
      Coherent L s' history x (some ⟨h.rank, h.unsent && !decide v.IsDirty, true⟩) size content := by
  obtain ⟨hrank, -⟩ := hc.held h rfl
  have hholder : ∀ h', some h = some h' → h'.rank = h.rank := fun h' hh' => (Option.some.inj hh') ▸ rfl
  cases hbuf : v.file.mBuf with
  | none =>
    have hclean : v.file.isWaitingForDistributedWrite = false := by
      cases hw : v.file.isWaitingForDistributedWrite with
      | false => rfl
      | true =>
        cases hflushed : h.flushed with
        | true =>
          rw [hheld.freed hflushed] at hw
          cases hw
        | false =>
          obtain ⟨buf, hsome⟩ := (hheld.buffered hflushed).allocated hw
          rw [hbuf] at hsome
          cases hsome
    have hnew : v = { v with file := File.new } := by
      obtain ⟨_, _, f⟩ := v
      obtain ⟨_, _⟩ := f
      obtain rfl := hbuf
      obtain rfl := hclean
      rfl
    have hdirty : ¬v.IsDirty := fun hd => by
      have hsome := hd.1
      rw [hbuf] at hsome
      cases hsome
    have hself : Confined s s h.rank x v := ⟨⟨hfile, fun _ _ => rfl, fun _ => rfl⟩, fun _ _ => rfl, rfl⟩
    have hfreed := hheld.free hclean
    rw [← hnew] at hfreed
    rw [decide_eq_false hdirty, Bool.not_false, Bool.and_true]
    exact ⟨s, fuseFlush_empty hfile hbuf, Aside.refl L s x, size, content,
      hc.edit hholder hrank hself hfreed⟩
  | some buf =>
    have hflushed : h.flushed = false := by
      cases hflushed : h.flushed with
      | false => rfl
      | true =>
        rw [hheld.freed hflushed] at hbuf
        cases hbuf
    cases hw : v.file.isWaitingForDistributedWrite with
    | false =>
      have hdirty : ¬v.IsDirty := fun hd => by
        have hwaiting := hd.2
        rw [hw] at hwaiting
        cases hwaiting
      have hconfined := confined_modifyINode (f := System.onFile File.freeBuf) hfile
        fun _ => System.onFile_fileState _
      have hfreed := hheld.free hw
      have hfree : v.file.freeBuf = File.new := congrArg (File.mk none) hw
      rw [hfree] at hconfined
      rw [decide_eq_false hdirty, Bool.not_false, Bool.and_true]
      exact ⟨_, fuseFlush_unwritten hfile hbuf hw, hconfined.aside L, size, content,
        hc.edit hholder hrank hconfined hfreed⟩
    | true =>
      have hdirty : v.IsDirty := ⟨by rw [hbuf]; rfl, hw⟩
      obtain ⟨s', hflush, haside, hcoherent⟩ := hc.flush_written hflushed hfile hheld hbuf hw
      rw [decide_eq_true hdirty, Bool.not_true, Bool.and_false]
      exact ⟨s', hflush, haside, _, _, hcoherent⟩

/-- **A release** after the flush, with nothing unsent: all peers are alike again. -/
theorem Coherent.release (h : Coherent L s history x (some ⟨rank, false, true⟩) size content) :
    ∃ s', fuseRelease s rank x = some (s', [.ok]) ∧ Aside L s s' x ∧
      Coherent L s' history x none size content := by
  obtain ⟨hrank, v, hfile, hheld⟩ := h.held _ rfl
  have hnew := hheld.freed rfl
  obtain ⟨hsize, hagrees⟩ := hheld.unchanged rfl (by rw [hnew]; rfl)
  obtain ⟨s₁, hrelease, he⟩ := System.fuseRelease_file (s := (s rank).system) hfile
  have hlocal : fuseRelease s rank x = some (_, [.ok]) := congrArg (locally s rank) hrelease
  have hconfined := confined_locally hrelease he hlocal
  refine ⟨_, hlocal, hconfined.aside L, ?_⟩
  constructor
  case room => exact h.room
  case stored => exact h.stored.mono (fun t _ => congrFun (hconfined.blockList t) x) hconfined.heaps
  case others =>
    intro t ht _
    by_cases hself : t = rank
    · subst hself
      refine ⟨_, hconfined.self, hsize, hsize ▸ hheld.stBlocks, ?_⟩
      rw [hnew]
      rfl
    · rw [hconfined.file (Or.inl hself)]
      exact h.others t ht fun h' hh' => (Option.some.inj hh') ▸ hself
  case held => exact fun h' hh' => nomatch hh'
  case closed => exact fun _ => ⟨hsize.symm.trans hheld.stSize, hagrees⟩

/-! ### Creations and attributes -/

/-- `x` is a new empty file of the process, and everything else is as it was. -/
structure Made (p p' : Process) (x : ℕ) : Prop where
  self : p'.file x = some FileState.new
  others : ∀ y, y ≠ x → p'.file y = p.file y
  blockList : p'.peer.blockList = p.peer.blockList
  heap : p'.heap = p.heap

theorem made_of_fuseCreate {p : Process} {fs : FileSystem} {ctx : Ids} {parent flags : ℕ} {name : Name}
    {attr : Stat} (h : p.fs.fuseCreate ctx parent name flags = some (fs, [.create x attr])) :
    Made p { p with fs := fs } x := by
  rcases FileSystem.fuseCreate_files h with ⟨e, -, hreplies⟩ | ⟨x', attr', hreplies, hnew, hothers, hlists⟩
  · cases hreplies
  · cases hreplies
    exact ⟨hnew, hothers, funext hlists, rfl⟩

theorem made_of_createFile {p p' : Process} {parent : ℕ} {name : Name}
    (h : p.createFile x parent name = some p') : Made p p' x := by
  obtain ⟨⟨fs, replies⟩, hcreate, hnumber⟩ := Option.bind_eq_some_iff.mp h
  split at hnumber
  · rename_i number attr hreplies
    split at hnumber
    · rename_i hsame
      subst hsame
      obtain rfl := Option.some.inj hnumber
      obtain rfl : replies = [.create number attr] := hreplies
      exact made_of_fuseCreate hcreate
    · cases hnumber
  · cases hnumber

/-- A creation with its repetitions. -/
theorem made_of_created {s next : Peers} {parents : ℕ → ℕ} {name : Name} {fs : FileSystem} {ctx : Ids}
    {flags : ℕ} {attr : Stat}
    (hcreate : (s.processes rank).fs.fuseCreate ctx (parents rank) name flags = some (fs, [.create x attr]))
    (h : s.created L rank x parents name fs = some next) :
    next.session = some ⟨rank, x, false⟩ ∧
      (∀ t < L.mpiWorldSize, Made (s.processes t) (next.processes t) x) ∧
      ∀ t, ¬t < L.mpiWorldSize → next.processes t = s.processes t := by
  simp only [Peers.created] at h
  split at h
  case isFalse => cases h
  rename_i hall
  obtain rfl := Option.some.inj h
  refine ⟨rfl, fun t ht => ?_, fun t ht => if_neg ht⟩
  have hsome := hall t ht
  simp only [if_pos ht]
  by_cases hself : t = rank
  · subst hself
    rw [if_pos rfl]
    exact made_of_fuseCreate hcreate
  · rw [if_neg hself] at hsome ⊢
    obtain ⟨p', hp'⟩ := Option.isSome_iff_exists.mp hsome
    rw [hp']
    exact made_of_createFile hp'

/-- A file that all peers have made, and its handle. -/
theorem coherent_made (hrank : rank < L.mpiWorldSize) (hmade : ∀ t < L.mpiWorldSize, Made (s t) (s' t) x) :
    Coherent L s' [] x (some ⟨rank, false, false⟩) 0 [] := by
  have hidle : Idle L 0 FileState.new := ⟨rfl, (numberOfBlocks_zero L.blockSize).le, rfl⟩
  constructor
  case room =>
    rw [numberOfBlocks_zero, Nat.zero_mul]
    exact Nat.zero_le _
  case stored => exact stored_nil L s' x []
  case others => exact fun t ht _ => ⟨_, (hmade t ht).self, hidle⟩
  case held =>
    intro h hh
    obtain rfl := Option.some.inj hh
    refine ⟨hrank, _, (hmade rank hrank).self, ?_⟩
    constructor
    case stSize => rfl
    case stBlocks => exact (numberOfBlocks_zero L.blockSize).le
    case buffered =>
      intro _
      exact ⟨Nat.zero_le _, ⟨0, Nat.le_refl _, (Nat.zero_mul _).symm⟩, agrees_nil _, fun hw => nomatch hw⟩
    case freed => exact fun hw => nomatch hw
    case unchanged => exact fun _ _ => ⟨rfl, agrees_nil _⟩
  case closed => exact fun hnone => nomatch hnone

/-- Attributes that leave the size. -/
theorem fuseSetAttr_files {ino toSet : ℕ} {attr : Stat}
    (h : fuseSetAttr s rank ino attr toSet = some (s', replies))
    (hsize : isSet toSet fuseSetAttrSize = true → (s rank).sizeOf ino = some attr.stSize ∨
      (s rank).sizeOf ino = none) (t : ℕ) :
    (s' t).file = (s t).file ∧ (s' t).peer.blockList = (s t).peer.blockList ∧ (s' t).heap = (s t).heap := by
  obtain ⟨⟨s₁, r⟩, hrun, hend⟩ := Option.map_eq_some_iff.mp h
  obtain ⟨rfl, -⟩ := Prod.mk.inj hend
  by_cases ht : t = rank
  case neg => rw [Function.update_of_ne ht]; exact ⟨rfl, rfl, rfl⟩
  subst ht
  rw [Function.update_self]
  have L : Launch := ⟨1, 1, Nat.one_pos, Nat.one_pos⟩
  cases System.handle_effect (L := L) (r := .setAttr ino attr toSet) hrun with
  | refused hnone hsame => exact ⟨funext hsame.files, hsame.blockList, rfl⟩
  | @resized _ _ _ v hfile he =>
    refine ⟨funext fun y => ?_, he.blockList, rfl⟩
    by_cases hy : y = ino
    · subst hy
      have hkept : (if isSet toSet fuseSetAttrSize then attr.stSize else v.stSize) = v.stSize := by
        split
        · rename_i hset
          have hv := sizeOf_of_fileAt hfile
          rcases hsize hset with hsame | hnone
          · exact (Option.some.inj (hv.symm.trans hsame)).symm
          · rw [hnone] at hv
            cases hv
        · rfl
      have hself := he.self
      rw [hkept] at hself
      exact hself.trans hfile.symm
    · exact he.others y hy

end PeerToPeer

end DagonFs
