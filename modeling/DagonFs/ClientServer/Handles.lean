import DagonFs.ClientServer.FileEffects
import DagonFs.ClientServer.Sessions

/-!
# Files that are open more than once

All handles on a file share its one buffer and its one flag.  An open that loads the content replaces the
buffer, an open for writing sets the size to 0, a flush frees the buffer under the other handles, and a
release drops it.

`Clients` is the file system with the open handles and, for each file, the patches that were written to
it.  `written_kept`: along a run in which no such step meets bytes that it would lose (`Safe`), a file
whose handles have all been flushed and released can be read, and has every byte that was written last.
-/

namespace DagonFs

open DagonFs.Lib.Buffer DagonFs.Lib.BlockSplit DagonFs.Lib.Runs

/-- An open handle: its file, and whether it was flushed after its last write. -/
structure Handle where
  ino : ℕ
  flushed : Bool
  deriving DecidableEq

/-- The handles are numbered in the order in which they were opened; those that were released are
`none`. -/
structure Clients where
  system : System
  handles : List (Option Handle)
  written : ℕ → List (Patch UInt8)

/-- A call that opens a handle, or one through the handle `h`. -/
inductive Call where
  | create (ctx : Ids) (parent : ℕ) (name : Name) (flags : ℕ)
  | open (ino flags : ℕ)
  | write (h off : ℕ) (data : List UInt8) (junk : ℕ → UInt8)
  | flush (h : ℕ)
  | release (h : ℕ)

namespace Clients

variable (L : Launch) (c : Clients)

def mounted (process : Ids) : Clients := ⟨System.mounted process, [], fun _ => []⟩

def handleAt (h : ℕ) : Option Handle := (c.handles[h]?).join

/-- A creation or an open that is answered with an error opens no handle. -/
def step : Call → Option Clients
  | .create ctx parent name flags =>
    (c.system.handle L (.create ctx parent name flags)).map fun r =>
      match r.2 with
      | [.create ino _] => ⟨r.1, c.handles ++ [some ⟨ino, false⟩], Function.update c.written ino []⟩
      | _ => { c with system := r.1 }
  | .open ino flags =>
    (c.system.handle L (.open ino flags)).map fun r =>
      match r.2 with
      | [.opened] => { c with system := r.1, handles := c.handles ++ [some ⟨ino, false⟩] }
      | _ => { c with system := r.1 }
  | .write h off data junk =>
    (c.handleAt h).bind fun handle =>
      (c.system.handle L (.write handle.ino (some data) off junk)).map fun r =>
        ⟨r.1, c.handles.set h (some { handle with flushed := false }),
          Function.update c.written handle.ino (c.written handle.ino ++ [⟨off, data⟩])⟩
  | .flush h =>
    (c.handleAt h).bind fun handle =>
      (c.system.handle L (.flush handle.ino)).map fun r =>
        { c with system := r.1, handles := c.handles.set h (some { handle with flushed := true }) }
  | .release h =>
    (c.handleAt h).bind fun handle =>
      (c.system.handle L (.release handle.ino)).map fun r =>
        { c with system := r.1, handles := c.handles.set h none }

/-- The calls that clients make: through handles that are open, the release after a flush, and no file is
truncated once it has been written. -/
def Calls : Call → Prop
  | .create .. => True
  | .open ino flags => truncates flags = true → (c.written ino).length = 0
  | .write h .. => (c.handleAt h).isSome = true
  | .flush h => (c.handleAt h).isSome = true
  | .release h => (c.handleAt h).any Handle.flushed = true

/-- No bytes are lost: a file is opened for writing while it is empty, and with its content while the
buffer has nothing that is not stored; a write finds a buffer, or the file is empty; and a handle is
released when nothing is left to store. -/
def Safe : Call → Prop
  | .open ino flags => ∀ v ∈ c.system.iNodeManager.fileAt ino,
      if opensForWriting flags then v.stSize = 0 else ¬ v.IsDirty
  | .write h .. => ∀ handle ∈ c.handleAt h, ∀ v ∈ c.system.iNodeManager.fileAt handle.ino,
      v.file.mBuf.isSome = false → v.stSize = 0
  | .release h => ∀ handle ∈ c.handleAt h, ∀ v ∈ c.system.iNodeManager.fileAt handle.ino, ¬ v.IsDirty
  | _ => True

instance : ∀ e : Call, Decidable (c.Calls e)
  | .create .. => isTrue trivial
  | .open ino _ => inferInstanceAs (Decidable (_ → (c.written ino).length = 0))
  | .write h .. => inferInstanceAs (Decidable ((c.handleAt h).isSome = true))
  | .flush h => inferInstanceAs (Decidable ((c.handleAt h).isSome = true))
  | .release h => inferInstanceAs (Decidable ((c.handleAt h).any Handle.flushed = true))

instance : ∀ e : Call, Decidable (c.Safe e)
  | .create .. => isTrue trivial
  | .open ino flags => inferInstanceAs (Decidable (∀ v ∈ c.system.iNodeManager.fileAt ino,
      if opensForWriting flags then v.stSize = 0 else ¬ v.IsDirty))
  | .write h .. => inferInstanceAs (Decidable (∀ handle ∈ c.handleAt h,
      ∀ v ∈ c.system.iNodeManager.fileAt handle.ino, v.file.mBuf.isSome = false → v.stSize = 0))
  | .flush _ => isTrue trivial
  | .release h => inferInstanceAs (Decidable (∀ handle ∈ c.handleAt h,
      ∀ v ∈ c.system.iNodeManager.fileAt handle.ino, ¬ v.IsDirty))

/-- Some handle on the file `x` is open. -/
def IsOpen (x : ℕ) : Prop := ∃ o ∈ c.handles, ∃ handle ∈ o, handle.ino = x

instance (x : ℕ) : Decidable (c.IsOpen x) := inferInstanceAs (Decidable (∃ o ∈ c.handles, _))

/-- The distributed read of the file gives, wherever a write was acknowledged, the byte of the last one. -/
def Kept (x : ℕ) : Prop :=
  ∀ v ∈ c.system.iNodeManager.fileAt x, ∃ buf,
    c.system.dagonFS_Read L ⟨x, v.stSize, v.stSize, 0⟩ = some buf ∧ Agrees (buf.getD []) (c.written x)

end Clients

/-! ### The invariant of one file -/

/-- The size is the extent of what was written.  A buffer holds it, and when there is nothing to store the
blocks hold it; a file without handles has nothing to store. -/
structure SharedFile (L : Launch) (s : System) (history : List (Patch UInt8)) (x : ℕ) (v : FileState)
    (isOpen : Prop) : Prop where
  stSize : v.stSize = extent history
  stBlocks : v.stBlocks = numberOfBlocks L.blockSize v.stSize
  room : v.file.mBuf.isSome = true → v.file.bytes.length = v.stBlocks * L.blockSize
  agrees : v.file.mBuf.isSome = true → Agrees v.file.bytes history
  stored : ¬ v.IsDirty → Stored L s history x v.stSize
  clean : ¬ isOpen → ¬ v.IsDirty

section File

variable {L : Launch} {s s' : System} {history : List (Patch UInt8)} {x : ℕ} {v : FileState}
  {isOpen isOpen' : Prop}

theorem SharedFile.mono (h : SharedFile L s history x v isOpen) (hopen : isOpen → isOpen')
    (hlist : s'.blockList x = s.blockList x) (hheaps : ∀ rank, s.heaps rank <+: s'.heaps rank) :
    SharedFile L s' history x v isOpen' :=
  ⟨h.stSize, h.stBlocks, h.room, h.agrees, fun hw => (h.stored hw).mono hlist hheaps,
    fun hn => h.clean fun ho => hn (hopen ho)⟩

/-- A history without bytes agrees with every buffer. -/
theorem agrees_of_extent_zero (buf : List UInt8) (h : extent history = 0) : Agrees buf history := by
  intro k a hk
  rw [lastByte_eq_none (h ▸ Nat.zero_le k)] at hk
  cases hk

theorem stored_of_extent_zero (h : extent history = 0) : Stored L s history x 0 := by
  refine ⟨[], by simp [numberOfBlocks_zero], agrees_of_extent_zero [] h, fun i hi => ?_⟩
  rw [numberOfBlocks_zero] at hi
  omega

/-- A file that has just been created. -/
theorem sharedFile_new : SharedFile L s [] x FileState.new isOpen where
  stSize := rfl
  stBlocks := (numberOfBlocks_zero _).symm
  room := fun h => by cases h
  agrees := fun h => by cases h
  stored := fun _ => stored_of_extent_zero rfl
  clean := fun _ h => by cases h.1

/-- The buffer has the blocks of the file, also where there is none and the file is empty. -/
theorem SharedFile.bytes (h : SharedFile L s history x v isOpen)
    (hsafe : v.file.mBuf.isSome = false → v.stSize = 0) :
    v.file.bytes.length = v.stBlocks * L.blockSize ∧ Agrees v.file.bytes history := by
  cases hbuf : v.file.mBuf.isSome with
  | true => exact ⟨h.room hbuf, h.agrees hbuf⟩
  | false =>
    have hsize := hsafe hbuf
    have hnone : v.file.mBuf = none := by simpa using hbuf
    have hbytes : v.file.bytes = [] := by
      rw [File.bytes, hnone]
      rfl
    rw [h.stBlocks, hbytes, hsize, numberOfBlocks_zero, Nat.zero_mul]
    exact ⟨rfl, agrees_of_extent_zero [] (h.stSize.symm.trans hsize)⟩

/-- The blocks of a file after a write are those of its size. -/
theorem wrote_stBlocks (hblocks : v.stBlocks = numberOfBlocks L.blockSize v.stSize) (off : ℕ)
    (data : List UInt8) (junk : ℕ → UInt8) : (v.wrote L off data junk).stBlocks =
      numberOfBlocks L.blockSize (v.wrote L off data junk).stSize := by
  have hmax := (numberOfBlocks_mono L.blockSize_pos).map_max (a := v.stSize) (b := off + data.length)
  have hleast := numberOfBlocks_le_iff L.blockSize_pos (off + data.length) v.stBlocks
  have hfits := le_numberOfBlocks_mul L.blockSize_pos v.stSize
  rw [← hblocks, Nat.mul_comm] at hfits
  rw [Nat.mul_comm] at hleast
  simp only [FileState.wrote]
  rw [hmax, ← hblocks]
  split
  · rename_i hgrows
    have : ¬ numberOfBlocks L.blockSize (off + data.length) ≤ v.stBlocks := by
      rw [hleast]
      omega
    omega
  · rename_i hroom
    have := hleast.mpr (Nat.le_of_not_lt hroom)
    omega

/-- The buffer that a write copies into holds what the file held, and has room for the write. -/
theorem writeBuffer_spec (hroom : v.file.bytes.length = v.stBlocks * L.blockSize)
    (hagrees : Agrees v.file.bytes history) (off : ℕ) (data : List UInt8) (junk : ℕ → UInt8) :
    ((v.writeBuffer L off data junk).getD []).length =
        (v.wrote L off data junk).stBlocks * L.blockSize ∧
      off + data.length ≤ ((v.writeBuffer L off data junk).getD []).length ∧
      Agrees ((v.writeBuffer L off data junk).getD []) history := by
  simp only [FileState.writeBuffer, FileState.wrote]
  split
  · rename_i hgrows
    have hfits := le_numberOfBlocks_mul L.blockSize_pos (off + data.length)
    rw [Option.getD_some, length_grow]
    refine ⟨rfl, hfits, agrees_grow junk hagrees ?_⟩
    rw [hroom, Nat.mul_comm]
    omega
  · rename_i hfits
    rw [Nat.mul_comm] at hfits
    exact ⟨hroom, (Nat.le_of_not_lt hfits).trans hroom.ge, hagrees⟩

/-- **The write of a shared file.**  With a buffer, or to an empty file, a write fits the buffer it finds or
makes, and the file then holds the longer history. -/
theorem SharedFile.wrote (h : SharedFile L s history x v isOpen)
    (hsafe : v.file.mBuf.isSome = false → v.stSize = 0) (off : ℕ) (data : List UInt8)
    (junk : ℕ → UInt8) (hopen : isOpen') :
    off + data.length ≤ ((v.writeBuffer L off data junk).getD []).length ∧
      SharedFile L s (history ++ [⟨off, data⟩]) x (v.wrote L off data junk) isOpen' := by
  obtain ⟨hroom, hagrees⟩ := h.bytes hsafe
  obtain ⟨hlength, hfit, hbuffer⟩ := writeBuffer_spec hroom hagrees off data junk
  have hsize : (v.wrote L off data junk).stSize = extent (history ++ [⟨off, data⟩]) := by
    rw [extent_snoc, ← h.stSize]
    rfl
  have hbytes : ∀ buf, v.writeBuffer L off data junk = some buf →
      (v.wrote L off data junk).file.bytes = splice buf off data := by
    intro buf hbuf
    simp only [FileState.wrote, File.bytes, hbuf]
    rfl
  refine ⟨hfit, ?_⟩
  constructor
  case stSize => exact hsize
  case stBlocks => exact wrote_stBlocks h.stBlocks off data junk
  case room =>
    intro hsome
    obtain ⟨buf, hbuf⟩ := Option.isSome_iff_exists.mp (Option.isSome_map ▸ hsome)
    rw [hbuf, Option.getD_some] at hfit hlength
    rw [hbytes buf hbuf, length_splice hfit]
    exact hlength
  case agrees =>
    intro hsome
    obtain ⟨buf, hbuf⟩ := Option.isSome_iff_exists.mp (Option.isSome_map ▸ hsome)
    rw [hbuf, Option.getD_some] at hfit hbuffer
    rw [hbytes buf hbuf]
    exact agrees_splice hbuffer hfit
  case stored =>
    -- nothing waits only where there is no buffer: the file is empty, and so is the write
    intro hclean
    have hnone : v.writeBuffer L off data junk = none := by
      by_contra hsome
      exact hclean ⟨by rw [FileState.wrote, Option.isSome_map]; exact Option.isSome_iff_ne_none.mpr hsome,
        rfl⟩
    rw [hnone] at hlength
    have hblocks : (v.wrote L off data junk).stBlocks = 0 := by
      have := L.blockSize_pos
      rcases Nat.mul_eq_zero.mp hlength.symm with hzero | hzero
      · exact hzero
      · omega
    have hzero : (v.wrote L off data junk).stSize = 0 := by
      have hle := le_numberOfBlocks_mul L.blockSize_pos (v.wrote L off data junk).stSize
      rw [← wrote_stBlocks h.stBlocks, hblocks] at hle
      omega
    rw [hzero]
    exact stored_of_extent_zero (hsize.symm.trans hzero)
  case clean => exact fun hn => absurd hopen hn

end File

/-! ### The steps -/

namespace Clients

structure Inv (L : Launch) (c : Clients) : Prop where
  queue : c.system.iNodeManager.deletedINodes = []
  files : ∀ x v, c.system.iNodeManager.fileAt x = some v →
    SharedFile L c.system (c.written x) x v (c.IsOpen x)
  current : ∀ handle, some handle ∈ c.handles → ∃ v, c.system.iNodeManager.fileAt handle.ino = some v

variable {L : Launch} {c : Clients}

/-- A call touches one file, and only handles on that file. -/
theorem Inv.touched (hinv : Inv L c) {s' : System} {ino : ℕ} {v : FileState}
    {handles : List (Option Handle)} {written : ℕ → List (Patch UInt8)}
    (ht : Touched c.system s' ino v)
    (hfile : SharedFile L s' (written ino) ino v (IsOpen ⟨s', handles, written⟩ ino))
    (hwritten : ∀ x, x ≠ ino → written x = c.written x)
    (hkept : ∀ handle, some handle ∈ c.handles → handle.ino ≠ ino → some handle ∈ handles)
    (hnew : ∀ handle, some handle ∈ handles → handle.ino = ino ∨ some handle ∈ c.handles) :
    Inv L ⟨s', handles, written⟩ := by
  constructor
  case queue => exact ht.queue.trans hinv.queue
  case files =>
    intro x w hx
    by_cases hne : x = ino
    · subst hne
      obtain rfl := Option.some.inj (ht.self.symm.trans hx)
      exact hfile
    · have hx' : c.system.iNodeManager.fileAt x = some w := by rw [← ht.others x hne, hx]
      show SharedFile L s' (written x) x w _
      rw [hwritten x hne]
      refine (hinv.files x w hx').mono (fun hopen => ?_) (ht.lists x hne) ht.heaps
      obtain ⟨o, ho, handle, hhandle, rfl⟩ := hopen
      obtain rfl := Option.mem_def.mp hhandle
      exact ⟨some handle, hkept handle ho hne, handle, rfl, rfl⟩
  case current =>
    intro handle hmem
    rcases hnew handle hmem with hino | hold
    · rw [hino]
      exact ⟨v, ht.self⟩
    · obtain ⟨w, hw⟩ := hinv.current handle hold
      by_cases hne : handle.ino = ino
      · rw [hne]
        exact ⟨v, ht.self⟩
      · exact ⟨w, (ht.others _ hne).trans hw⟩

/-! ### The handles of a step -/

section Handles

variable {handles : List (Option Handle)} {handle handle' : Handle} {h : ℕ}

theorem mem_of_handleAt (hget : c.handleAt h = some handle) :
    c.handles[h]? = some (some handle) := Option.join_eq_some_iff.mp hget

/-- Only one handle is set. -/
theorem kept_set {o : Option Handle} (hget : c.handleAt h = some handle)
    (hmem : some handle' ∈ c.handles) (hne : handle'.ino ≠ handle.ino) :
    some handle' ∈ c.handles.set h o := by
  obtain ⟨i, hi⟩ := List.mem_iff_getElem?.mp hmem
  have hother : h ≠ i := by
    intro heq
    subst heq
    rw [mem_of_handleAt hget] at hi
    obtain rfl := Option.some.inj (Option.some.inj hi)
    exact hne rfl
  exact List.mem_iff_getElem?.mpr ⟨i, by rw [List.getElem?_set_ne hother, hi]⟩

theorem new_set {o : Option Handle} (ho : ∀ handle ∈ o, handle.ino = handle'.ino)
    (hmem : some handle ∈ c.handles.set h o) : handle.ino = handle'.ino ∨ some handle ∈ c.handles := by
  rcases List.mem_or_eq_of_mem_set hmem with hold | hset
  · exact Or.inr hold
  · exact Or.inl (ho handle hset.symm)

/-- The file of a handle that has just been opened, or used, is open. -/
theorem isOpen_append (s' : System) (ino : ℕ) (flushed : Bool) (written : ℕ → List (Patch UInt8)) :
    IsOpen ⟨s', c.handles ++ [some ⟨ino, flushed⟩], written⟩ ino :=
  ⟨some ⟨ino, flushed⟩, List.mem_append_right _ (List.mem_singleton.mpr rfl), _, rfl, rfl⟩

theorem new_append {ino : ℕ} (hmem : some handle ∈ c.handles ++ [some ⟨ino, false⟩]) :
    handle.ino = ino ∨ some handle ∈ c.handles := by
  rcases List.mem_append.mp hmem with hold | hnew
  · exact Or.inr hold
  · rw [Option.some.inj (List.mem_singleton.mp hnew)]
    exact Or.inl rfl

theorem isOpen_set (s' : System) (flushed : Bool) (written : ℕ → List (Patch UInt8))
    (hget : c.handleAt h = some handle) :
    IsOpen ⟨s', c.handles.set h (some ⟨handle.ino, flushed⟩), written⟩ handle.ino := by
  have hlt : h < c.handles.length := (List.getElem?_eq_some_iff.mp (mem_of_handleAt hget)).1
  exact ⟨some ⟨handle.ino, flushed⟩, List.mem_set hlt _, _, rfl, rfl⟩

end Handles

theorem step_create (hinv : Inv L c) (ctx : Ids) (parent : ℕ) (name : Name) (flags : ℕ) :
    ∃ c', c.step L (.create ctx parent name flags) = some c' ∧ Inv L c' := by
  rcases FileSystem.fuseCreate_spec c.system.fs ctx parent name flags hinv.queue with
    ⟨e, hrun⟩ | ⟨fs', attr, hrun, hqueue, hlists, hnew, hothers⟩
  · refine ⟨c, ?_, hinv⟩
    simp only [step, System.handle, System.fuseCreate, hrun]
    rfl
  · have ht : Touched c.system (c.system.setFs fs') c.system.iNodeManager.iNodes.length FileState.new :=
      ⟨hnew, hothers, hqueue.trans hinv.queue.symm, fun x _ => hlists x, fun _ => List.prefix_refl _⟩
    have hempty : SharedFile L (c.system.setFs fs') (Function.update c.written
        c.system.iNodeManager.iNodes.length [] c.system.iNodeManager.iNodes.length)
        c.system.iNodeManager.iNodes.length FileState.new (IsOpen ⟨c.system.setFs fs',
          c.handles ++ [some ⟨c.system.iNodeManager.iNodes.length, false⟩], Function.update c.written
          c.system.iNodeManager.iNodes.length []⟩ c.system.iNodeManager.iNodes.length) := by
      rw [Function.update_self]
      exact sharedFile_new
    refine ⟨_, ?_, hinv.touched ht hempty (fun x hx => Function.update_of_ne hx _ _)
      (fun _ hmem _ => List.mem_append_left _ hmem) fun _ hmem => new_append hmem⟩
    simp only [step, System.handle, System.fuseCreate, hrun]
    rfl

theorem step_open (hinv : Inv L c) {ino flags : ℕ}
    (hsafe : ∀ v ∈ c.system.iNodeManager.fileAt ino,
      if opensForWriting flags then v.stSize = 0 else ¬ v.IsDirty) :
    ∃ c', c.step L (.open ino flags) = some c' ∧ Inv L c' := by
  cases hfile : c.system.iNodeManager.fileAt ino with
  | none =>
    obtain ⟨e, hrun⟩ := Client.fuseOpen_notFile (L := L) flags hfile
    refine ⟨c, ?_, hinv⟩
    simp only [step, System.handle, hrun]
    rfl
  | some v =>
    have hold := hinv.files ino v hfile
    have hcond := hsafe v hfile
    cases hflags : opensForWriting flags with
    | true =>
      rw [hflags, if_pos rfl] at hcond
      obtain ⟨s', hrun, he⟩ := System.fuseOpen_drops (L := L) hfile hflags
      -- the file is empty, and stays what it is
      have hsame : ({ v with stSize := 0, stBlocks := 0 } : FileState) = v := by
        obtain ⟨stSize, stBlocks, file⟩ := v
        have hblocks := hold.stBlocks
        obtain rfl : stSize = 0 := hcond
        rw [numberOfBlocks_zero] at hblocks
        obtain rfl : stBlocks = 0 := hblocks
        rfl
      rw [hsame] at he
      refine ⟨_, ?_, hinv.touched he.touched (hold.mono (fun _ => isOpen_append s' ino false c.written)
        (by rw [he.blockList]) fun rank => by rw [he.heaps]) (fun _ _ => rfl)
        (fun _ hmem _ => List.mem_append_left _ hmem) fun _ hmem => new_append hmem⟩
      simp only [step, System.handle, hrun]
      rfl
    | false =>
      rw [hflags, if_neg Bool.false_ne_true] at hcond
      obtain ⟨buf, hread, hlen, hagrees⟩ := (hold.stored hcond).read
      obtain ⟨s', hrun, he⟩ := System.fuseOpen_loads hfile hflags hread
      have hloaded : SharedFile L s' (c.written ino) ino { v with file := { v.file with mBuf := buf } }
          (IsOpen ⟨s', c.handles ++ [some ⟨ino, false⟩], c.written⟩ ino) := by
        constructor
        case stSize => exact hold.stSize
        case stBlocks => exact hold.stBlocks
        case room => exact fun _ => hlen.trans (by rw [← hold.stBlocks])
        case agrees => exact fun _ => hagrees
        case stored =>
          exact fun _ => (hold.stored hcond).mono (by rw [he.blockList]) fun rank => by rw [he.heaps]
        case clean => exact fun hn => absurd (isOpen_append s' ino false c.written) hn
      refine ⟨_, ?_, hinv.touched he.touched hloaded (fun _ _ => rfl)
        (fun _ hmem _ => List.mem_append_left _ hmem) fun _ hmem => new_append hmem⟩
      simp only [step, System.handle, hrun]
      rfl

/-- A call through the handle `h` leaves it on its file. -/
theorem Inv.through (hinv : Inv L c) {h : ℕ} {handle : Handle} {o : Option Handle} {w : FileState}
    {s' : System} {written : ℕ → List (Patch UInt8)} (hget : c.handleAt h = some handle)
    (ho : ∀ handle' ∈ o, handle'.ino = handle.ino) (ht : Touched c.system s' handle.ino w)
    (hfile : SharedFile L s' (written handle.ino) handle.ino w
      (IsOpen ⟨s', c.handles.set h o, written⟩ handle.ino))
    (hwritten : ∀ x, x ≠ handle.ino → written x = c.written x) :
    Inv L ⟨s', c.handles.set h o, written⟩ :=
  hinv.touched ht hfile hwritten (fun _ hmem hne => kept_set hget hmem hne) fun _ hmem => new_set ho hmem

theorem step_write (hinv : Inv L c) {h off : ℕ} {data : List UInt8} {junk : ℕ → UInt8}
    {handle : Handle} (hget : c.handleAt h = some handle)
    (hsafe : ∀ v ∈ c.system.iNodeManager.fileAt handle.ino, v.file.mBuf.isSome = false → v.stSize = 0) :
    ∃ c', c.step L (.write h off data junk) = some c' ∧ Inv L c' := by
  obtain ⟨v, hfile⟩ := hinv.current handle (List.mem_of_getElem? (mem_of_handleAt hget))
  obtain ⟨s', he, hrun⟩ := System.fuseWrite_edited (L := L) hfile data off junk
  have hopen := isOpen_set s' false
    (Function.update c.written handle.ino (c.written handle.ino ++ [⟨off, data⟩])) hget
  obtain ⟨hfit, hwrote⟩ := (hinv.files _ v hfile).wrote (hsafe v hfile) off data junk hopen
  rw [if_pos hfit] at hrun
  have hafter : SharedFile L s' (Function.update c.written handle.ino
      (c.written handle.ino ++ [⟨off, data⟩]) handle.ino) handle.ino (v.wrote L off data junk)
      (IsOpen ⟨s', c.handles.set h (some ⟨handle.ino, false⟩), Function.update c.written handle.ino
        (c.written handle.ino ++ [⟨off, data⟩])⟩ handle.ino) := by
    rw [Function.update_self]
    exact hwrote.mono id (by rw [he.blockList]) fun rank => by rw [he.heaps]
  have hset : ∀ handle' ∈ some (Handle.mk handle.ino false), handle'.ino = handle.ino := by
    intro handle' hset
    rw [← Option.some.inj hset]
  refine ⟨_, ?_, hinv.through hget hset he.touched hafter fun x hx => Function.update_of_ne hx _ _⟩
  simp only [step, hget, Option.bind_some, System.handle, hrun]
  rfl

/-- A call that leaves the file without a buffer, and what it held in the blocks. -/
theorem Inv.free (hinv : Inv L c) {h : ℕ} {handle : Handle} {o : Option Handle} {v w : FileState}
    {s' : System} (hget : c.handleAt h = some handle) (ho : ∀ handle' ∈ o, handle'.ino = handle.ino)
    (hfile : c.system.iNodeManager.fileAt handle.ino = some v) (ht : Touched c.system s' handle.ino w)
    (hsize : w.stSize = v.stSize) (hblocks : w.stBlocks = v.stBlocks) (hnone : w.file.mBuf = none)
    (hstored : Stored L s' (c.written handle.ino) handle.ino v.stSize) :
    Inv L ⟨s', c.handles.set h o, c.written⟩ := by
  have hold := hinv.files _ v hfile
  have hclean : ¬ w.IsDirty := by
    intro hdirty
    rw [FileState.IsDirty, hnone] at hdirty
    cases hdirty.1
  apply hinv.through hget ho ht _ fun _ _ => rfl
  constructor
  case stSize => exact hsize.trans hold.stSize
  case stBlocks => rw [hblocks, hsize, hold.stBlocks]
  case room =>
    intro hsome
    rw [hnone] at hsome
    cases hsome
  case agrees =>
    intro hsome
    rw [hnone] at hsome
    cases hsome
  case stored => exact fun _ => hsize ▸ hstored
  case clean => exact fun _ => hclean

theorem step_flush (hinv : Inv L c) {h : ℕ} {handle : Handle} (hget : c.handleAt h = some handle) :
    ∃ c', c.step L (.flush h) = some c' ∧ Inv L c' := by
  obtain ⟨v, hfile⟩ := hinv.current handle (List.mem_of_getElem? (mem_of_handleAt hget))
  have hold := hinv.files _ v hfile
  have hend : ∀ s', c.system.fuseFlush L handle.ino = some (s', [.ok]) → c.step L (.flush h) = some
      { c with system := s', handles := c.handles.set h (some { handle with flushed := true }) } := by
    intro s' hrun
    simp only [step, hget, Option.bind_some, System.handle, hrun]
    rfl
  have hset : ∀ handle' ∈ some (Handle.mk handle.ino true), handle'.ino = handle.ino := by
    intro handle' hset
    rw [← Option.some.inj hset]
  cases hbuf : v.file.mBuf with
  | none =>
    have hclean : ¬ v.IsDirty := by
      intro hdirty
      rw [FileState.IsDirty, hbuf] at hdirty
      cases hdirty.1
    have ht : Touched c.system c.system handle.ino v :=
      ⟨hfile, fun _ _ => rfl, rfl, fun _ _ => rfl, fun _ => List.prefix_refl _⟩
    exact ⟨_, hend _ (System.fuseFlush_empty hfile hbuf),
      hinv.free hget hset hfile ht rfl rfl hbuf (hold.stored hclean)⟩
  | some buf =>
    have hsome : v.file.mBuf.isSome = true := by
      rw [hbuf]
      rfl
    cases hwaiting : v.file.isWaitingForDistributedWrite with
    | false =>
      obtain ⟨s', hrun, he⟩ := System.fuseFlush_unwritten (L := L) hfile hbuf hwaiting
      have hclean : ¬ v.IsDirty := by
        intro hdirty
        rw [FileState.IsDirty, hwaiting] at hdirty
        cases hdirty.2
      exact ⟨_, hend _ hrun, hinv.free hget hset hfile he.touched rfl rfl rfl
        ((hold.stored hclean).mono (by rw [he.blockList]) fun rank => by rw [he.heaps])⟩
    | true =>
      have hbytes : v.file.bytes = buf := by rw [File.bytes, hbuf]; rfl
      have hroom := hold.room hsome
      have hagrees := hold.agrees hsome
      rw [hbytes, hold.stBlocks] at hroom
      rw [hbytes] at hagrees
      obtain ⟨s₁, s', hrun, hwritten, he⟩ := System.fuseFlush_written hfile hbuf hwaiting hroom.ge
      have hstored := stored_of_written hwritten hroom hagrees
      exact ⟨_, hend _ hrun, hinv.free hget hset hfile (hwritten.touched he) rfl rfl rfl
        (hstored.mono (by rw [he.blockList]) fun rank => by rw [he.heaps])⟩

theorem step_release (hinv : Inv L c) {h : ℕ} {handle : Handle} (hget : c.handleAt h = some handle)
    (hsafe : ∀ v ∈ c.system.iNodeManager.fileAt handle.ino, ¬ v.IsDirty) :
    ∃ c', c.step L (.release h) = some c' ∧ Inv L c' := by
  obtain ⟨v, hfile⟩ := hinv.current handle (List.mem_of_getElem? (mem_of_handleAt hget))
  obtain ⟨s', hrun, he⟩ := System.fuseRelease_file hfile
  have hstored := ((hinv.files _ v hfile).stored (hsafe v hfile)).mono
    (by rw [he.blockList] : s'.blockList handle.ino = c.system.blockList handle.ino)
    fun rank => by rw [he.heaps]
  refine ⟨_, ?_, hinv.free (o := none) hget (fun _ h => by cases h) hfile he.touched rfl rfl rfl hstored⟩
  simp only [step, hget, Option.bind_some, System.handle, hrun]
  rfl

/-- **Every safe call ends, and keeps the invariant.** -/
theorem step_inv (hinv : Inv L c) (e : Call) (hok : c.Calls e ∧ c.Safe e) :
    ∃ c', c.step L e = some c' ∧ Inv L c' := by
  obtain ⟨hcall, hsafe⟩ := hok
  cases e with
  | create ctx parent name flags => exact step_create hinv ctx parent name flags
  | «open» ino flags => exact step_open hinv hsafe
  | write h off data junk =>
    obtain ⟨handle, hget⟩ := Option.isSome_iff_exists.mp hcall
    exact step_write hinv hget (hsafe handle hget)
  | flush h =>
    obtain ⟨handle, hget⟩ := Option.isSome_iff_exists.mp hcall
    exact step_flush hinv hget
  | release h =>
    obtain ⟨handle, hget, -⟩ := (Option.any_eq_true ..).mp hcall
    exact step_release hinv hget (hsafe handle hget)

theorem inv_mounted (L : Launch) (process : Ids) : Inv L (mounted process) := by
  refine ⟨rfl, fun x v hx => ?_, fun handle hmem => by cases hmem⟩
  rw [show (mounted process).system = System.mounted process from rfl, Client.mounted_fileAt] at hx
  cases hx

/-- **No write is lost.**  Every run of safe calls ends, and a file whose handles have all been flushed and
released after it reads, wherever it was written, as it was written last. -/
theorem written_kept (L : Launch) (process : Ids) (calls : List Call)
    (hok : Along (step L) (fun c e => c.Calls e ∧ c.Safe e) (mounted process) calls) :
    ∃ c, run (step L) (mounted process) calls = some c ∧ ∀ x, ¬ c.IsOpen x → c.Kept L x := by
  obtain ⟨c, hrun, hinv⟩ := progress_run (fun c e h hok => step_inv h e hok) (inv_mounted L process) hok
  refine ⟨c, hrun, fun x hclosed v hfile => ?_⟩
  have hshared := hinv.files x v hfile
  obtain ⟨buf, hread, -, hagrees⟩ := (hshared.stored (hshared.clean hclosed)).read
  exact ⟨buf, hread, hagrees⟩

/-- Two handles write the same file in turn, before and after it is flushed by the one and opened again
by the other. -/
theorem written_kept_two : ∃ c, run (step ⟨2, 4, by decide, by decide⟩) (mounted ⟨0, 0⟩)
    [.create ⟨0, 0⟩ 1 [97] oRdwr, .open 2 oRdwr, .write 0 0 [1, 2, 3, 4, 5] (fun _ => 0),
      .write 1 2 [9] (fun _ => 0), .flush 1, .flush 0, .release 0, .open 2 oRdwr,
      .write 2 4 [7, 7] (fun _ => 0), .flush 2, .release 1, .release 2] = some c ∧
    c.Kept ⟨2, 4, by decide, by decide⟩ 2 := by
  have hclosed : (run (step ⟨2, 4, by decide, by decide⟩) (mounted ⟨0, 0⟩)
      [.create ⟨0, 0⟩ 1 [97] oRdwr, .open 2 oRdwr, .write 0 0 [1, 2, 3, 4, 5] (fun _ => 0),
        .write 1 2 [9] (fun _ => 0), .flush 1, .flush 0, .release 0, .open 2 oRdwr,
        .write 2 4 [7, 7] (fun _ => 0), .flush 2, .release 1, .release 2]).map
      (fun c => decide (c.IsOpen 2)) = some false := by decide +kernel
  obtain ⟨c, hrun, hkept⟩ := written_kept ⟨2, 4, by decide, by decide⟩ ⟨0, 0⟩
    [.create ⟨0, 0⟩ 1 [97] oRdwr, .open 2 oRdwr, .write 0 0 [1, 2, 3, 4, 5] (fun _ => 0),
      .write 1 2 [9] (fun _ => 0), .flush 1, .flush 0, .release 0, .open 2 oRdwr,
      .write 2 4 [7, 7] (fun _ => 0), .flush 2, .release 1, .release 2] (by decide +kernel)
  rw [hrun] at hclosed
  exact ⟨c, hrun, hkept 2 (of_decide_eq_false (Option.some.inj hclosed))⟩

/-- **A write is lost.**  A second handle is opened while the byte that the first one wrote is not stored:
the open replaces the buffer by the stored content, and both handles are flushed and released without
the byte. -/
theorem not_written_kept_of_run : ¬ ∀ (L : Launch) (process : Ids) (calls : List Call) (c : Clients),
    Along (step L) Calls (mounted process) calls → run (step L) (mounted process) calls = some c →
    ∀ x, ¬ c.IsOpen x → c.Kept L x := by
  intro h
  have hcalls : Along (step ⟨1, 4, by decide, by decide⟩) Calls (mounted ⟨0, 0⟩)
      [.create ⟨0, 0⟩ 1 [97] oRdwr, .write 0 0 [1] (fun _ => 0), .flush 0, .open 2 oRdwr,
        .write 1 0 [5] (fun _ => 0), .open 2 oRdwr, .flush 0, .flush 1, .flush 2, .release 0, .release 1,
        .release 2] := by decide +kernel
  have hend : (run (step ⟨1, 4, by decide, by decide⟩) (mounted ⟨0, 0⟩)
      [.create ⟨0, 0⟩ 1 [97] oRdwr, .write 0 0 [1] (fun _ => 0), .flush 0, .open 2 oRdwr,
        .write 1 0 [5] (fun _ => 0), .open 2 oRdwr, .flush 0, .flush 1, .flush 2, .release 0, .release 1,
        .release 2]).map (fun c => (decide (c.IsOpen 2), lastByte (c.written 2) 0,
      (c.system.iNodeManager.fileAt 2).map fun v =>
        c.system.dagonFS_Read ⟨1, 4, by decide, by decide⟩ ⟨2, v.stSize, v.stSize, 0⟩)) =
      some (false, some 5, some (some (some [1, 0, 0, 0]))) := by decide +kernel
  obtain ⟨c, hrun, hc⟩ := Option.map_eq_some_iff.mp hend
  obtain ⟨hopen, hrest⟩ := Prod.mk.inj hc
  obtain ⟨hwritten, hread⟩ := Prod.mk.inj hrest
  obtain ⟨v, hfile, hv⟩ := Option.map_eq_some_iff.mp hread
  obtain ⟨buf, hbuf, hagrees⟩ := h _ _ _ c hcalls hrun 2 (of_decide_eq_false hopen) v hfile
  rw [hv] at hbuf
  obtain rfl := Option.some.inj hbuf
  cases hagrees 0 5 hwritten

end Clients

end DagonFs
