import DagonFs.ClientServer.Contents
import DagonFs.ClientServer.Sessions

/-!
# Opening a file that has content

A session opens a file, writes to it, flushes it and releases it.  The open either loads the content, and the
session leaves the content with the writes over it, or it drops the content, and what the session leaves is
made of its writes and of what fresh memory has in it (`session_spec`).

`FuseOpen` deletes the content in write only mode, as it does with `O_TRUNC`.  So without `O_TRUNC` the content
is kept by `O_RDWR`, and by `O_WRONLY` only when every byte of it is written again (`kept_or_dropped`).
-/

namespace DagonFs

open DagonFs.Lib.Buffer DagonFs.Lib.BlockSplit DagonFs.Lib.Runs

/-- A write of a session, and what fresh memory has in it then. -/
structure SessionWrite where
  patch : Patch UInt8
  junk : ℕ → UInt8

namespace System

/-- The requests of a session. -/
def session (ino flags : ℕ) (writes : List SessionWrite) : List Request :=
  .open ino flags ::
    (writes.map fun w => .write ino (some w.patch.data) w.patch.off w.junk) ++ [.flush ino, .release ino]

/-- The state after a request. -/
def step (L : Launch) (s : System) (r : Request) : Option System := (s.handle L r).map Prod.fst

/-- The file is opened again, and a read of all of it replies with `content`. -/
def ReadsBack (L : Launch) (s : System) (ino : ℕ) (content : List UInt8) : Prop :=
  ∃ s', s.handle L (.open ino oRdonly) = some (s', [.opened]) ∧
    ∀ size, content.length ≤ size → s'.handle L (.read ino size 0) = some (s', [.buf content])

/-- The blocks of the file hold the bytes. -/
def HasBlocks (L : Launch) (s : System) (ino size : ℕ) (bytes : List UInt8) : Prop :=
  bytes.length = numberOfBlocks L.blockSize size * L.blockSize ∧
    ∀ i < numberOfBlocks L.blockSize size, ∃ block, (s.blockList ino)[i]? = some block ∧
      Holds s.heaps (owner (numberOfBlocks L.blockSize size) L.mpiWorldSize i) block.getData
        (blockAt L.blockSize bytes i)

/-- A file that is not open, with content that a flush has stored. -/
def Flushed (L : Launch) (s : System) (ino : ℕ) (content : List UInt8) : Prop :=
  ∃ v, s.iNodeManager.fileAt ino = some v ∧ FileInv L s [⟨0, content⟩] ino v False

/-- The session ends, whatever fresh memory has in it, and leaves the content with the writes over it. -/
def Overlays (L : Launch) (s : System) (ino flags : ℕ) (content : List UInt8)
    (writes : List (Patch UInt8)) : Prop :=
  ∀ session' : List SessionWrite, session'.map SessionWrite.patch = writes →
    ∃ s', run (step L) s (session ino flags session') = some s' ∧
      ReadsBack L s' ino (overlay content writes)

end System

/-! ### The buffer of a session -/

namespace FileState

variable {L : Launch} {v : FileState}

/-- The block count is that of the size, and the buffer has these blocks. -/
structure Whole (L : Launch) (v : FileState) : Prop where
  stBlocks : v.stBlocks = numberOfBlocks L.blockSize v.stSize
  bytes : v.file.bytes.length = v.stBlocks * L.blockSize

/-- The file after the writes of a session. -/
def wroteAll (L : Launch) (v : FileState) (writes : List SessionWrite) : FileState :=
  writes.foldl (fun v w => v.wrote L w.patch.off w.patch.data w.junk) v

theorem whole_new : Whole L ⟨0, 0, File.new⟩ := by
  refine ⟨(numberOfBlocks_zero L.blockSize).symm, ?_⟩
  rw [Nat.zero_mul]
  rfl

/-- A write has room in the buffer that it copies into. -/
theorem Whole.fits (h : Whole L v) (off : ℕ) (data : List UInt8) (junk : ℕ → UInt8) :
    off + data.length ≤ ((v.writeBuffer L off data junk).getD []).length := by
  rw [writeBuffer]
  split
  · rw [Option.getD_some, length_grow]
    exact le_numberOfBlocks_mul L.blockSize_pos _
  · show _ ≤ v.file.bytes.length
    rw [h.bytes, Nat.mul_comm]
    omega

/-- A write leaves the blocks of the larger size. -/
theorem stBlocks_wrote (h : v.stBlocks = numberOfBlocks L.blockSize v.stSize) (off : ℕ)
    (data : List UInt8) (junk : ℕ → UInt8) : (v.wrote L off data junk).stBlocks =
      numberOfBlocks L.blockSize (max v.stSize (off + data.length)) := by
  have hmax := (numberOfBlocks_mono L.blockSize_pos).map_max (a := v.stSize) (b := off + data.length)
  have hleast := numberOfBlocks_le_iff L.blockSize_pos (off + data.length) v.stBlocks
  rw [hmax, ← h]
  show (if _ then _ else _) = _
  split
  · rename_i hgrows
    have hmore : v.stBlocks ≤ numberOfBlocks L.blockSize (off + data.length) := by
      by_contra hless
      exact absurd (hleast.mp (Nat.le_of_not_le hless)) (by rw [Nat.mul_comm]; omega)
    rw [max_eq_right hmore]
  · rename_i hfits
    have hless : numberOfBlocks L.blockSize (off + data.length) ≤ v.stBlocks := by
      rw [hleast, Nat.mul_comm]
      omega
    rw [max_eq_left hless]

theorem Whole.length_writeBuffer (h : Whole L v) (off : ℕ) (data : List UInt8) (junk : ℕ → UInt8) :
    ((v.writeBuffer L off data junk).getD []).length =
      (v.wrote L off data junk).stBlocks * L.blockSize := by
  show _ = (if _ then _ else _) * _
  rw [writeBuffer]
  split
  · rw [Option.getD_some, length_grow]
  · exact h.bytes

theorem Whole.bytes_wrote (h : Whole L v) (off : ℕ) (data : List UInt8) (junk : ℕ → UInt8) :
    (v.wrote L off data junk).file.bytes = splice ((v.writeBuffer L off data junk).getD []) off data :=
  System.bytes_wrote_eq (Or.inr (h.fits off data junk))

theorem Whole.wrote (h : Whole L v) (off : ℕ) (data : List UInt8) (junk : ℕ → UInt8) :
    Whole L (v.wrote L off data junk) := by
  constructor
  case stBlocks => exact stBlocks_wrote h.stBlocks off data junk
  case bytes => rw [h.bytes_wrote, length_splice (h.fits off data junk), h.length_writeBuffer]

/-- What was in the buffer is in the one that a write copies into. -/
theorem Whole.getElem?_writeBuffer (h : Whole L v) (off : ℕ) (data : List UInt8) (junk : ℕ → UInt8)
    {k : ℕ} (hk : k < v.file.bytes.length) :
    ((v.writeBuffer L off data junk).getD [])[k]? = v.file.bytes[k]? :=
  System.getElem?_writeBuffer off data junk hk (by rwa [h.bytes, Nat.mul_comm] at hk)

/-- A write copies over what agrees with the writes before it. -/
theorem Whole.agrees_wrote (h : Whole L v) {history : List (Patch UInt8)}
    (hagrees : Agrees v.file.bytes history) (p : Patch UInt8) (junk : ℕ → UInt8) :
    Agrees (v.wrote L p.off p.data junk).file.bytes (history ++ [p]) := by
  have hbuffer : Agrees ((v.writeBuffer L p.off p.data junk).getD []) history := by
    intro k a hk
    have hbyte := hagrees k a hk
    rw [h.getElem?_writeBuffer _ _ _ (List.getElem?_eq_some_iff.mp hbyte).1, hbyte]
  rw [h.bytes_wrote]
  exact agrees_splice hbuffer (h.fits p.off p.data junk)

/-- Where the history has not written, the bytes are `b`. -/
def Elsewhere (b : UInt8) (bytes : List UInt8) (history : List (Patch UInt8)) : Prop :=
  ∀ k a, bytes[k]? = some a → lastByte history k = none → a = b

/-- What is new and not written is what fresh memory has in it. -/
theorem Whole.elsewhere_wrote (h : Whole L v) {b : UInt8} {history : List (Patch UInt8)}
    (helse : Elsewhere b v.file.bytes history) (p : Patch UInt8) :
    Elsewhere b (v.wrote L p.off p.data fun _ => b).file.bytes (history ++ [p]) := by
  intro k a hk hnone
  rw [lastByte_snoc, Option.or_eq_none_iff] at hnone
  have hstart : p.off ≤ ((v.writeBuffer L p.off p.data fun _ => b).getD []).length :=
    Nat.le_trans (Nat.le_add_right _ _) (h.fits _ _ _)
  rw [h.bytes_wrote, getElem?_splice_patch (Or.inr hstart), hnone.1, Option.none_or] at hk
  by_cases hold : k < v.file.bytes.length
  · rw [h.getElem?_writeBuffer _ _ _ hold] at hk
    exact helse k a hk hnone.2
  · rw [writeBuffer] at hk
    split at hk
    · have hlt := (List.getElem?_eq_some_iff.mp hk).1
      rw [Option.getD_some, length_grow] at hlt
      rw [Option.getD_some, getElem?_grow_new _ (Nat.le_of_not_lt hold) hlt] at hk
      exact (Option.some.inj hk).symm
    · exact absurd (List.getElem?_eq_some_iff.mp hk).1 hold

theorem Whole.wroteAll (h : Whole L v) (writes : List SessionWrite) : Whole L (v.wroteAll L writes) := by
  induction writes generalizing v with
  | nil => exact h
  | cons w writes ih => exact ih (h.wrote w.patch.off w.patch.data w.junk)

/-- **The writes of a session** leave a buffer that agrees with all of them. -/
theorem Whole.agrees_wroteAll (h : Whole L v) {history : List (Patch UInt8)}
    (hsize : v.stSize = extent history) (hagrees : Agrees v.file.bytes history)
    (writes : List SessionWrite) :
    (v.wroteAll L writes).stSize = extent (history ++ writes.map SessionWrite.patch) ∧
      Agrees (v.wroteAll L writes).file.bytes (history ++ writes.map SessionWrite.patch) := by
  induction writes generalizing v history with
  | nil =>
    rw [List.map_nil, List.append_nil]
    exact ⟨hsize, hagrees⟩
  | cons w writes ih =>
    have hsize' : (v.wrote L w.patch.off w.patch.data w.junk).stSize = extent (history ++ [w.patch]) := by
      rw [extent_snoc, ← hsize]
      rfl
    have hrest := ih (h.wrote w.patch.off w.patch.data w.junk) hsize' (h.agrees_wrote hagrees w.patch w.junk)
    rw [List.append_assoc] at hrest
    exact hrest

theorem Whole.elsewhere_wroteAll (h : Whole L v) {b : UInt8} {history : List (Patch UInt8)}
    (helse : Elsewhere b v.file.bytes history) (patches : List (Patch UInt8)) :
    Elsewhere b (v.wroteAll L (patches.map fun p => ⟨p, fun _ => b⟩)).file.bytes (history ++ patches) := by
  induction patches generalizing v history with
  | nil =>
    rw [List.append_nil]
    exact helse
  | cons p patches ih =>
    have hrest := ih (h.wrote p.off p.data fun _ => b) (h.elsewhere_wrote helse p)
    rw [List.append_assoc] at hrest
    exact hrest

theorem stSize_wroteAll (v : FileState) (writes : List SessionWrite) :
    (v.wroteAll L writes).stSize = max v.stSize (extent (writes.map SessionWrite.patch)) := by
  induction writes generalizing v with
  | nil => exact (Nat.max_zero v.stSize).symm
  | cons w writes ih =>
    show ((v.wrote L w.patch.off w.patch.data w.junk).wroteAll L writes).stSize = _
    rw [ih, List.map_cons, extent_cons, ← max_assoc]
    rfl

theorem stBlocks_wroteAll (h : v.stBlocks = numberOfBlocks L.blockSize v.stSize)
    (writes : List SessionWrite) :
    (v.wroteAll L writes).stBlocks = numberOfBlocks L.blockSize (v.wroteAll L writes).stSize := by
  induction writes generalizing v with
  | nil => exact h
  | cons w writes ih => exact ih (stBlocks_wrote h w.patch.off w.patch.data w.junk)

theorem wroteAll_isWaiting (hw : v.file.isWaitingForDistributedWrite = true) (writes : List SessionWrite) :
    (v.wroteAll L writes).file.isWaitingForDistributedWrite = true := by
  induction writes generalizing v with
  | nil => exact hw
  | cons w writes ih =>
    have hset : (v.wrote L w.patch.off w.patch.data w.junk).file.isWaitingForDistributedWrite = true := rfl
    exact ih hset

/-- A file that is not empty after the writes of a session has a buffer to store. -/
theorem Whole.isDirty_wroteAll (h : Whole L v) {writes : List SessionWrite} (hwrites : writes ≠ [])
    (hsize : 0 < (v.wroteAll L writes).stSize) : (v.wroteAll L writes).IsDirty := by
  constructor
  · by_contra hnone
    have hwhole := h.wroteAll writes
    have hfits := le_numberOfBlocks_mul L.blockSize_pos (v.wroteAll L writes).stSize
    rw [← hwhole.stBlocks, ← hwhole.bytes, File.bytes,
      Option.not_isSome_iff_eq_none.mp hnone] at hfits
    exact absurd hfits (Nat.not_le.mpr hsize)
  · cases writes with
    | nil => exact absurd rfl hwrites
    | cons w writes => exact wroteAll_isWaiting rfl writes

end FileState

/-! ### The requests of a session -/

namespace System

variable {L : Launch} {s : System} {ino size : ℕ} {bytes : List UInt8} {v : FileState}

theorem Edited.trans {s₁ s₂ : System} {v' : FileState} (h : Edited s s₁ ino v) (h' : Edited s₁ s₂ ino v') :
    Edited s s₂ ino v' := by
  constructor
  case self => exact h'.self
  case others => exact fun x hx => (h'.others x hx).trans (h.others x hx)
  case queue => exact h'.queue.trans h.queue
  case blockList => exact h'.blockList.trans h.blockList
  case heaps => exact h'.heaps.trans h.heaps

theorem HasBlocks.edited {s' : System} (h : HasBlocks L s ino size bytes) (he : Edited s s' ino v) :
    HasBlocks L s' ino size bytes := by
  unfold HasBlocks
  rw [he.blockList, he.heaps]
  exact h

/-- A load gives back what the blocks hold. -/
theorem HasBlocks.read (h : HasBlocks L s ino size bytes) :
    ∃ buf, s.dagonFS_Read L ⟨ino, size, size, 0⟩ = some buf ∧ buf.getD [] = bytes := by
  by_cases hzero : size = 0
  · subst hzero
    have hnil : bytes = [] := by
      rw [← List.length_eq_zero_iff, h.1, numberOfBlocks_zero, Nat.zero_mul]
    exact ⟨none, rfl, hnil.symm⟩
  · exact ⟨some bytes, dagonFS_Read_spec hzero h.1 h.2, rfl⟩

/-- A file without a buffer is read back from its blocks. -/
theorem readsBack (hfile : s.iNodeManager.fileAt ino = some v) (h : HasBlocks L s ino v.stSize bytes) :
    ReadsBack L s ino (bytes.take v.stSize) := by
  obtain ⟨buf, hread, hbuf⟩ := h.read
  have hloads : opensForWriting oRdonly = false := rfl
  obtain ⟨s', hopen, he⟩ := fuseOpen_loads hfile hloads hread
  have hbytes : File.bytes { v.file with mBuf := buf } = bytes := hbuf
  have hroom : v.stSize ≤ bytes.length := by
    rw [h.1]
    exact le_numberOfBlocks_mul L.blockSize_pos _
  refine ⟨s', hopen, fun size hsize => ?_⟩
  have hreply : s'.fuseRead ino size 0 = _ := fuseRead_file he.self (Nat.zero_le _) (by rw [hbytes]; exact hroom)
  rw [List.length_take, Nat.min_eq_left hroom] at hsize
  rw [hbytes, List.drop_zero, Nat.sub_zero, Nat.min_eq_right hsize] at hreply
  exact hreply

/-- There is one content that is read back. -/
theorem ReadsBack.unique {content content' : List UInt8} (h : ReadsBack L s ino content)
    (h' : ReadsBack L s ino content') : content = content' := by
  obtain ⟨s₁, hopen, hread⟩ := h
  obtain ⟨s₂, hopen', hread'⟩ := h'
  obtain ⟨rfl, -⟩ := Prod.mk.inj (Option.some.inj (hopen.symm.trans hopen'))
  have hsame := (hread (max content.length content'.length) (Nat.le_max_left _ _)).symm.trans
    (hread' (max content.length content'.length) (Nat.le_max_right _ _))
  simpa using hsame

theorem run_writes (hfile : s.iNodeManager.fileAt ino = some v) (h : v.Whole L)
    (writes : List SessionWrite) :
    ∃ s', run (step L) s (writes.map fun w => .write ino (some w.patch.data) w.patch.off w.junk) = some s' ∧
      Edited s s' ino (v.wroteAll L writes) := by
  induction writes generalizing s v with
  | nil => exact ⟨s, rfl, hfile, fun _ _ => rfl, rfl, rfl, rfl⟩
  | cons w writes ih =>
    obtain ⟨s₁, he, hwrite⟩ := fuseWrite_edited (L := L) hfile w.patch.data w.patch.off w.junk
    rw [if_pos (h.fits _ _ _)] at hwrite
    obtain ⟨s', hrun, he'⟩ := ih he.self (h.wrote _ _ _)
    refine ⟨s', ?_, he.trans he'⟩
    rw [List.map_cons, run_cons, step, handle, hwrite]
    exact hrun

theorem hasBlocks_nil : HasBlocks L s ino 0 [] := by
  refine ⟨by rw [numberOfBlocks_zero, Nat.zero_mul]; rfl, fun i hi => ?_⟩
  rw [numberOfBlocks_zero] at hi
  exact absurd hi (Nat.not_lt_zero i)

/-- A flush leaves the bytes of the buffer in the blocks of the file. -/
theorem run_flush (hfile : s.iNodeManager.fileAt ino = some v) (h : v.Whole L)
    (hclean : v.file.isWaitingForDistributedWrite = false → HasBlocks L s ino v.stSize v.file.bytes) :
    ∃ s' v', s.handle L (.flush ino) = some (s', [.ok]) ∧ s'.iNodeManager.fileAt ino = some v' ∧
      v'.stSize = v.stSize ∧ HasBlocks L s' ino v.stSize v.file.bytes := by
  cases hbuf : v.file.mBuf with
  | none =>
    have hnil : v.file.bytes = [] := by rw [File.bytes, hbuf]; rfl
    have hblocks : numberOfBlocks L.blockSize v.stSize = 0 := by
      have hzero := h.bytes
      rw [hnil, List.length_nil, eq_comm, Nat.mul_eq_zero, h.stBlocks] at hzero
      exact hzero.resolve_right (Nat.ne_of_gt L.blockSize_pos)
    refine ⟨s, v, fuseFlush_empty hfile hbuf, hfile, rfl, ?_, fun i hi => ?_⟩
    · rw [hnil, hblocks, Nat.zero_mul]
      rfl
    · rw [hblocks] at hi
      exact absurd hi (Nat.not_lt_zero i)
  | some buf =>
    have hbytes : v.file.bytes = buf := by rw [File.bytes, hbuf]; rfl
    cases hwaiting : v.file.isWaitingForDistributedWrite with
    | false =>
      obtain ⟨s', hflush, he⟩ := fuseFlush_unwritten (L := L) hfile hbuf hwaiting
      exact ⟨s', _, hflush, he.self, rfl, (hclean hwaiting).edited he⟩
    | true =>
      have hlength : buf.length = numberOfBlocks L.blockSize v.stSize * L.blockSize := by
        rw [← hbytes, h.bytes, h.stBlocks]
      obtain ⟨s₁, s', hflush, hw, he⟩ := fuseFlush_written hfile hbuf hwaiting (Nat.le_of_eq hlength.symm)
      have hstored : HasBlocks L s₁ ino v.stSize buf := ⟨hlength, hw.new⟩
      rw [hbytes]
      exact ⟨s', _, hflush, he.self, rfl, hstored.edited he⟩

/-- **A session**: what is read back after it is what its writes have left in the buffer that its open has
made. -/
theorem session_spec {flags : ℕ} {s₁ : System} (hopen : s.fuseOpen L ino flags = some (s₁, [.opened]))
    (hfile : s₁.iNodeManager.fileAt ino = some v) (h : v.Whole L)
    (hblocks : HasBlocks L s₁ ino v.stSize v.file.bytes) (writes : List SessionWrite) :
    ∃ s', run (step L) s (session ino flags writes) = some s' ∧
      ReadsBack L s' ino ((v.wroteAll L writes).file.bytes.take (v.wroteAll L writes).stSize) := by
  obtain ⟨s₂, hwrites, he⟩ := run_writes hfile h writes
  have hwhole := h.wroteAll writes
  have hclean : (v.wroteAll L writes).file.isWaitingForDistributedWrite = false →
      HasBlocks L s₂ ino (v.wroteAll L writes).stSize (v.wroteAll L writes).file.bytes := by
    intro hfalse
    cases writes with
    | nil => exact hblocks.edited he
    | cons w writes =>
      have hset : (v.wrote L w.patch.off w.patch.data w.junk).file.isWaitingForDistributedWrite = true := rfl
      have htrue : (v.wroteAll L (w :: writes)).file.isWaitingForDistributedWrite = true :=
        FileState.wroteAll_isWaiting hset writes
      rw [htrue] at hfalse
      cases hfalse
  obtain ⟨s₃, v₃, hflush, hfile₃, hsize, hstored⟩ := run_flush he.self hwhole hclean
  obtain ⟨s', hrelease, he'⟩ := fuseRelease_file hfile₃
  rw [← hsize] at hstored ⊢
  have hread := readsBack he'.self (hstored.edited he')
  refine ⟨s', ?_, hread⟩
  rw [session, List.cons_append, run_cons, step, handle, hopen]
  show run (step L) s₁ (_ ++ [.flush ino, .release ino]) = some s'
  rw [run_append, hwrites, Option.bind_some, run_cons, step, hflush]
  show (step L s₃ (.release ino)).bind _ = some s'
  rw [step, handle, hrelease]
  rfl

/-! ### The two ways to open -/

section Open

variable {flags : ℕ} {content : List UInt8}

/-- The mode `O_WRONLY` takes the branch of `O_TRUNC`. -/
theorem opensForWriting_of_wronly (h : flags &&& oAccmode = oWronly) : opensForWriting flags = true := by
  have hsplit : flags &&& (oWronly ||| oTrunc) = flags &&& oWronly ||| flags &&& oTrunc :=
    Nat.and_or_distrib_left ..
  have hmode : flags &&& oWronly = (flags &&& oAccmode) &&& oWronly := by
    rw [Nat.and_assoc]
    rfl
  have hset : flags &&& oWronly = 1 := by
    rw [hmode, h]
    rfl
  rw [opensForWriting, hsplit, hset, bne_iff_ne]
  intro hzero
  rw [Nat.or_eq_zero_iff] at hzero
  exact absurd hzero.1 Nat.one_ne_zero

/-- The open loads the content. -/
theorem session_loads (h : Flushed L s ino content) (hflags : opensForWriting flags = false)
    (writes : List SessionWrite) : ∃ (s' : System) (v : FileState), v.Whole L ∧ v.stSize = content.length ∧
      Agrees v.file.bytes [⟨0, content⟩] ∧ run (step L) s (session ino flags writes) = some s' ∧
      ReadsBack L s' ino ((v.wroteAll L writes).file.bytes.take (v.wroteAll L writes).stSize) := by
  obtain ⟨v, hfile, hinv⟩ := h
  have hidle : v.file = File.new := hinv.idle id
  obtain ⟨bytes, hlength, hagrees, hholds⟩ := hinv.stored (by rw [hidle]; rfl)
  have hblocks : HasBlocks L s ino v.stSize bytes := ⟨hlength, hholds⟩
  obtain ⟨buf, hread, hbuf⟩ := hblocks.read
  obtain ⟨s₁, hopen, he⟩ := fuseOpen_loads hfile hflags hread
  have hbytes : File.bytes { v.file with mBuf := buf } = bytes := hbuf
  have hwhole : FileState.Whole L { v with file := { v.file with mBuf := buf } } := by
    refine ⟨hinv.stBlocks, ?_⟩
    show (File.bytes { v.file with mBuf := buf }).length = v.stBlocks * L.blockSize
    rw [hbytes, hlength, hinv.stBlocks]
  have hstored : HasBlocks L s₁ ino v.stSize (File.bytes { v.file with mBuf := buf }) := by
    rw [hbytes]
    exact hblocks.edited he
  obtain ⟨s', hrun, hback⟩ := session_spec hopen he.self hwhole hstored writes
  have hsize : v.stSize = content.length := by
    rw [hinv.stSize]
    simp [extent, Patch.stop]
  refine ⟨s', _, hwhole, hsize, ?_, hrun, hback⟩
  show Agrees (File.bytes { v.file with mBuf := buf }) _
  rw [hbytes]
  exact hagrees

/-- The open drops the content. -/
theorem session_drops (h : Flushed L s ino content) (hflags : opensForWriting flags = true)
    (writes : List SessionWrite) : ∃ s', run (step L) s (session ino flags writes) = some s' ∧
      ReadsBack L s' ino (((⟨0, 0, File.new⟩ : FileState).wroteAll L writes).file.bytes.take
        ((⟨0, 0, File.new⟩ : FileState).wroteAll L writes).stSize) := by
  obtain ⟨v, hfile, hinv⟩ := h
  have hidle : v.file = File.new := hinv.idle id
  obtain ⟨s₁, hopen, he⟩ := fuseOpen_drops (L := L) hfile hflags
  rw [hidle] at he
  exact session_spec hopen he.self FileState.whole_new hasBlocks_nil writes

/-- Every byte of the content is written again. -/
def Rewrites (content : List UInt8) (writes : List (Patch UInt8)) : Prop :=
  ∀ k < content.length, (lastByte writes k).isSome = true

instance (content : List UInt8) (writes : List (Patch UInt8)) : Decidable (Rewrites content writes) :=
  inferInstanceAs (Decidable (∀ k < content.length, _))

theorem overlays_of_loads {writes : List (Patch UInt8)} (h : Flushed L s ino content)
    (hflags : opensForWriting flags = false) (hwithin : StartWithin content.length writes) :
    Overlays L s ino flags content writes := by
  rintro session' rfl
  obtain ⟨s', v, hwhole, hsize, hagrees, hrun, hback⟩ := session_loads h hflags session'
  have hextent : v.stSize = extent [⟨0, content⟩] := by
    rw [hsize]
    simp [extent, Patch.stop]
  obtain ⟨hend, hbytes⟩ := hwhole.agrees_wroteAll hextent hagrees session'
  rw [List.singleton_append, extent_cons, Patch.stop, Nat.zero_add] at hend
  rw [hend, take_eq_overlay hwithin hbytes] at hback
  exact ⟨s', hrun, hback⟩

theorem overlays_of_rewrites {writes : List (Patch UInt8)} (h : Flushed L s ino content)
    (hflags : opensForWriting flags = true) (hwithin : StartWithin content.length writes)
    (hall : Rewrites content writes) : Overlays L s ino flags content writes := by
  rintro session' rfl
  obtain ⟨s', hrun, hback⟩ := session_drops h hflags session'
  obtain ⟨hend, hbytes⟩ := (FileState.whole_new (L := L)).agrees_wroteAll rfl (agrees_nil []) session'
  rw [List.nil_append] at hend hbytes
  -- the writes reach as far as the content does
  have hextent : extent (session'.map SessionWrite.patch) =
      max content.length (extent (session'.map SessionWrite.patch)) := by
    rw [eq_comm, max_eq_right_iff]
    by_contra hshort
    have hlast := hall (extent (session'.map SessionWrite.patch)) (Nat.lt_of_not_le hshort)
    rw [lastByte_eq_none (Nat.le_refl _)] at hlast
    cases hlast
  have hagrees : Agrees ((⟨0, 0, File.new⟩ : FileState).wroteAll L session').file.bytes
      (⟨0, content⟩ :: session'.map SessionWrite.patch) := by
    intro k a hk
    apply hbytes
    rw [lastByte_cons, byteAt_whole] at hk
    by_cases hlt : k < content.length
    · obtain ⟨b, hb⟩ := Option.isSome_iff_exists.mp (hall k hlt)
      rw [hb, Option.some_or] at hk
      rw [hb, hk]
    · rwa [List.getElem?_eq_none (Nat.le_of_not_lt hlt), Option.or_none] at hk
  rw [hend, hextent, take_eq_overlay hwithin hagrees] at hback
  exact ⟨s', hrun, hback⟩

/-- After an open that drops the content the file has the extent of the writes, and what they have written. -/
theorem readsBack_of_drops (h : Flushed L s ino content) (hflags : opensForWriting flags = true)
    (session' : List SessionWrite) :
    ∃ s' bytes, run (step L) s (session ino flags session') = some s' ∧ ReadsBack L s' ino bytes ∧
      bytes.length = extent (session'.map SessionWrite.patch) ∧
      Agrees bytes (session'.map SessionWrite.patch) := by
  obtain ⟨s', hrun, hback⟩ := session_drops h hflags session'
  have hwhole := (FileState.whole_new (L := L)).wroteAll session'
  obtain ⟨hend, hbytes⟩ := (FileState.whole_new (L := L)).agrees_wroteAll rfl (agrees_nil []) session'
  rw [List.nil_append] at hend hbytes
  refine ⟨s', _, hrun, hback, ?_, fun k a hk => ?_⟩
  · rw [List.length_take, hwhole.bytes, hwhole.stBlocks,
      Nat.min_eq_left (le_numberOfBlocks_mul L.blockSize_pos _), hend]
  · have hlt : k < extent (session'.map SessionWrite.patch) := by
      by_contra hle
      rw [lastByte_eq_none (Nat.le_of_not_lt hle)] at hk
      cases hk
    rw [List.getElem?_take, hend, if_pos hlt]
    exact hbytes k a hk

/-- A byte that is not written again is what fresh memory has in its place. -/
theorem not_overlays_of_drops {writes : List (Patch UInt8)} (h : Flushed L s ino content)
    (hflags : opensForWriting flags = true) (hwithin : StartWithin content.length writes)
    (hsome : ¬ Rewrites content writes) : ¬ Overlays L s ino flags content writes := by
  intro hall
  simp only [Rewrites, not_forall, Bool.not_eq_true, Option.isSome_eq_false_iff, Option.isNone_iff_eq_none]
    at hsome
  obtain ⟨k, hk, hnone⟩ := hsome
  -- fresh memory differs from the content at that byte
  let b := content[k] + 1
  have hpatches : (writes.map fun p => (⟨p, fun _ => b⟩ : SessionWrite)).map SessionWrite.patch = writes := by
    rw [List.map_map]
    exact List.map_id _
  obtain ⟨s₁, hrun₁, hback₁⟩ := hall (writes.map fun p => ⟨p, fun _ => b⟩) hpatches
  obtain ⟨s₂, hrun₂, hback₂⟩ := session_drops h hflags (writes.map fun p => ⟨p, fun _ => b⟩)
  obtain rfl := Option.some.inj (hrun₁.symm.trans hrun₂)
  have hnew : FileState.Elsewhere b (⟨0, 0, File.new⟩ : FileState).file.bytes [] := by
    intro k a hk
    cases hk
  have helse := (FileState.whole_new (L := L)).elsewhere_wroteAll hnew writes
  rw [List.nil_append] at helse
  have hbyte : (overlay content writes)[k]? = some content[k] := by
    rw [getElem?_overlay hwithin, hnone, Option.none_or, List.getElem?_eq_getElem hk]
  rw [hback₁.unique hback₂, List.getElem?_take] at hbyte
  split at hbyte
  · have hne : content[k] ≠ content[k] + 1 := by simp
    exact hne (helse k _ hbyte hnone)
  · cases hbyte

end Open

/-! ### Files that sessions have written -/

theorem lastByte_whole (content : List UInt8) (k : ℕ) : lastByte [⟨0, content⟩] k = content[k]? := by
  rw [lastByte_cons, byteAt_whole]
  rfl

/-- A file whose writes have left no gaps has the bytes written last as its content. -/
theorem flushed_of_history {history : List (Patch UInt8)} {isOpen : Prop}
    (hfile : s.iNodeManager.fileAt ino = some v) (h : FileInv L s history ino v isOpen)
    (hclosed : ¬ isOpen) (hwithin : StartWithin 0 history) : Flushed L s ino (overlay [] history) := by
  have hstart : StartWithin ([] : List UInt8).length history := hwithin
  have hlength : (overlay ([] : List UInt8) history).length = extent history := by
    rw [length_overlay hstart, List.length_nil, Nat.zero_max]
  refine ⟨v, hfile, ?_⟩
  constructor
  case stSize =>
    rw [h.stSize, extent_cons, Patch.stop, Nat.zero_add, hlength]
    exact (Nat.max_zero _).symm
  case stBlocks => exact h.stBlocks
  case loaded => exact False.elim
  case idle => exact fun _ => h.idle hclosed
  case stored =>
    intro hclean
    obtain ⟨bytes, hbytes, hagrees, hholds⟩ := h.stored hclean
    refine ⟨bytes, hbytes, fun k a hk => hagrees k a ?_, hholds⟩
    rw [lastByte_whole, getElem?_overlay hstart, List.getElem?_nil, Option.or_none] at hk
    exact hk

/-- After every run of sessions, every such file that is not open can be opened as `overlays_iff` says. -/
theorem flushed_of_sessions (process : Ids) {events : List Event}
    (hok : Along (Client.step L) Client.InSession (Client.mounted process) events) :
    ∃ c, run (Client.step L) (Client.mounted process) events = some c ∧
      ∀ x, (c.system.iNodeManager.fileAt x).isSome = true → ¬ c.IsOpen x → StartWithin 0 (c.written x) →
        Flushed L c.system x (overlay [] (c.written x)) := by
  obtain ⟨c, hrun, hinv⟩ := progress_run (I := Client.Inv L) (fun c e h hsession => Client.step_inv h e hsession)
    (Client.inv_mounted L process) hok
  refine ⟨c, hrun, fun x hx hclosed hwithin => ?_⟩
  obtain ⟨v, hfile⟩ := Option.isSome_iff_exists.mp hx
  exact flushed_of_history hfile (hinv.files x v hfile) hclosed hwithin

/-- Two processes and blocks of four bytes; a file of five bytes has been written. -/
theorem flushed_five : ∃ c, run (Client.step ⟨2, 4, by decide, by decide⟩) (Client.mounted ⟨0, 0⟩)
      [.create ⟨0, 0⟩ 1 [97] oRdwr, .write 0 [1, 2, 3] (fun _ => 7), .write 3 [4, 5] (fun _ => 7), .flush,
        .release] = some c ∧
    Flushed ⟨2, 4, by decide, by decide⟩ c.system 2 [1, 2, 3, 4, 5] := by
  have hok : Along (Client.step ⟨2, 4, by decide, by decide⟩) Client.InSession (Client.mounted ⟨0, 0⟩)
      [.create ⟨0, 0⟩ 1 [97] oRdwr, .write 0 [1, 2, 3] (fun _ => 7), .write 3 [4, 5] (fun _ => 7), .flush,
        .release] := by decide +kernel
  obtain ⟨c, hrun, hflushed⟩ := flushed_of_sessions ⟨0, 0⟩ hok
  have hfacts : (some c).map (fun c => ((c.system.iNodeManager.fileAt 2).isSome, c.phase,
      decide (StartWithin 0 (c.written 2)), overlay [] (c.written 2))) =
      some (true, .closed, true, [1, 2, 3, 4, 5]) := by
    rw [← hrun]
    decide +kernel
  simp only [Option.map_some, Option.some.injEq, Prod.mk.injEq, decide_eq_true_eq] at hfacts
  obtain ⟨hfile, hphase, hwithin, hcontent⟩ := hfacts
  have hclosed : ¬ c.IsOpen 2 := by
    rw [Client.IsOpen, hphase]
    intro h
    cases h
  rw [← hcontent]
  exact ⟨c, hrun, hflushed 2 hfile hclosed hwithin⟩

/-! ### Without `O_TRUNC` -/

section Keeps

variable {flags : ℕ} {content : List UInt8}

/-- Without `O_TRUNC` the content is kept when, and only when, the mode is `O_RDWR` or every byte is written
again. -/
theorem overlays_iff {writes : List (Patch UInt8)} (h : Flushed L s ino content)
    (hmode : flags &&& oAccmode = oWronly ∨ flags &&& oAccmode = oRdwr) (htrunc : truncates flags = false)
    (hwithin : StartWithin content.length writes) :
    Overlays L s ino flags content writes ↔ flags &&& oAccmode = oRdwr ∨ Rewrites content writes := by
  rcases hmode with hwronly | hrdwr
  · have hdrops := opensForWriting_of_wronly hwronly
    have hne : flags &&& oAccmode ≠ oRdwr := by
      rw [hwronly]
      decide
    constructor
    · intro hall
      by_contra hsome
      exact not_overlays_of_drops h hdrops hwithin (fun hrewrites => hsome (Or.inr hrewrites)) hall
    · rintro (hrdwr | hrewrites)
      · exact absurd hrdwr hne
      · exact overlays_of_rewrites h hdrops hwithin hrewrites
  · have hloads : opensForWriting flags = false :=
      (Client.opensForWriting_eq (Or.inr (Or.inr hrdwr))).trans htrunc
    exact iff_of_true (overlays_of_loads h hloads hwithin) (Or.inl hrdwr)

/-- **Opening a file without `O_TRUNC`**: `O_RDWR` keeps the content under the writes, and `O_WRONLY` leaves
the writes only. -/
theorem kept_or_dropped {writes : List (Patch UInt8)} (h : Flushed L s ino content)
    (hmode : flags &&& oAccmode = oWronly ∨ flags &&& oAccmode = oRdwr) (htrunc : truncates flags = false)
    (hwithin : StartWithin content.length writes) :
    (Overlays L s ino flags content writes ↔ flags &&& oAccmode = oRdwr ∨ Rewrites content writes) ∧
      (flags &&& oAccmode = oWronly →
        ∀ session' : List SessionWrite, session'.map SessionWrite.patch = writes →
          ∃ s' bytes, run (step L) s (session ino flags session') = some s' ∧ ReadsBack L s' ino bytes ∧
            bytes.length = extent writes ∧ Agrees bytes writes) := by
  refine ⟨overlays_iff h hmode htrunc hwithin, ?_⟩
  rintro hwronly session' rfl
  exact readsBack_of_drops h (opensForWriting_of_wronly hwronly) session'

/-- The file of `flushed_five` is opened to read and append, and one byte is replaced. -/
theorem kept_or_dropped_rdwr : ∃ s, Flushed ⟨2, 4, by decide, by decide⟩ s 2 [1, 2, 3, 4, 5] ∧
    Overlays ⟨2, 4, by decide, by decide⟩ s 2 (oRdwr ||| 0o2000) [1, 2, 3, 4, 5]
      [⟨5, [6, 7, 8, 9]⟩, ⟨2, [0]⟩] := by
  obtain ⟨c, -, hflushed⟩ := flushed_five
  exact ⟨c.system, hflushed, (kept_or_dropped hflushed (Or.inr rfl) rfl (by decide)).1.mpr (Or.inl rfl)⟩

/-- The file is opened with `O_WRONLY | O_APPEND`, and one byte is appended. -/
theorem not_overlays_appended : ∃ s, Flushed ⟨2, 4, by decide, by decide⟩ s 2 [1, 2, 3, 4, 5] ∧
    ¬ Overlays ⟨2, 4, by decide, by decide⟩ s 2 (oWronly ||| 0o2000) [1, 2, 3, 4, 5] [⟨5, [6]⟩] := by
  obtain ⟨c, -, hflushed⟩ := flushed_five
  exact ⟨c.system, hflushed, not_overlays_of_drops hflushed rfl (by decide) (by decide)⟩

end Keeps

end System

end DagonFs
