import DagonFs.ClientServer.FileState
import DagonFs.Lib.Runs

/-!
# What is written is read back

A client works on one file at a time: it creates or opens a file, writes to it, flushes it and releases
it.  `Client` is the file system with the phase of the current session and, for each file, the patches
that the client has written since the file was last created or truncated.  The file system is right
when the size of an open file is the extent of that history, and every byte the history has is in
the buffer (`FileInv`).

* `Client.step_inv`: every step of a session ends, and keeps the invariant.
* `Client.read_written`: in every run of sessions, every read of the open file replies with the bytes
  written last.
-/

namespace DagonFs

open DagonFs.Lib.Buffer DagonFs.Lib.BlockSplit DagonFs.Lib.Runs

/-- `O_ACCMODE` and `O_RDONLY`. -/
def oAccmode : ℕ := 0o3
def oRdonly : ℕ := 0o0

/-- The open asks for `O_TRUNC`. -/
def truncates (flags : ℕ) : Bool := flags &&& oTrunc != 0

/-- Where a session is: none is open, a file is open, or its buffer has been flushed. -/
inductive Phase where
  | closed
  | opened (ino : ℕ)
  | flushed (ino : ℕ)
  deriving DecidableEq

def Phase.isOpened : Phase → Bool
  | .opened _ => true
  | _ => false

def Phase.isFlushed : Phase → Bool
  | .flushed _ => true
  | _ => false

structure Client where
  system : System
  phase : Phase
  written : ℕ → List (Patch UInt8)

/-- A call of the client.  `junk` is what fresh memory has in it. -/
inductive Event where
  | create (ctx : Ids) (parent : ℕ) (name : Name) (flags : ℕ)
  | open (ino flags : ℕ)
  | write (off : ℕ) (data : List UInt8) (junk : ℕ → UInt8)
  | flush
  | release

namespace Client

variable (L : Launch) (c : Client)

def mounted (process : Ids) : Client := ⟨System.mounted process, .closed, fun _ => []⟩

/-- The file that the client creates or opens is the one the reply names; an error leaves the client
without a session. -/
def step : Event → Option Client
  | .create ctx parent name flags =>
    (c.system.handle L (.create ctx parent name flags)).map fun r =>
      match r.2 with
      | [.create ino _] => ⟨r.1, .opened ino, Function.update c.written ino []⟩
      | _ => { c with system := r.1 }
  | .open ino flags =>
    (c.system.handle L (.open ino flags)).map fun r =>
      match r.2 with
      | [.opened] => ⟨r.1, .opened ino,
          if truncates flags then Function.update c.written ino [] else c.written⟩
      | _ => { c with system := r.1 }
  | .write off data junk =>
    match c.phase with
    | .opened ino =>
      (c.system.handle L (.write ino (some data) off junk)).map fun r =>
        { c with system := r.1,
                 written := Function.update c.written ino (c.written ino ++ [⟨off, data⟩]) }
    | _ => none
  | .flush =>
    match c.phase with
    | .opened ino =>
      (c.system.handle L (.flush ino)).map fun r => { c with system := r.1, phase := .flushed ino }
    | _ => none
  | .release =>
    match c.phase with
    | .flushed ino =>
      (c.system.handle L (.release ino)).map fun r => { c with system := r.1, phase := .closed }
    | _ => none

/-- The calls of a session in order.  An open that does not truncate is `O_RDONLY` or `O_RDWR`, and a
write has at least one byte. -/
def InSession : Event → Prop
  | .create .. => c.phase = .closed
  | .open _ flags => c.phase = .closed ∧
      (truncates flags = true ∨ flags &&& oAccmode = oRdonly ∨ flags &&& oAccmode = oRdwr)
  | .write _ data _ => c.phase.isOpened = true ∧ 1 ≤ data.length
  | .flush => c.phase.isOpened = true
  | .release => c.phase.isFlushed = true

instance : ∀ e : Event, Decidable (c.InSession e)
  | .create .. => inferInstanceAs (Decidable (c.phase = .closed))
  | .open _ _ => inferInstanceAs (Decidable (c.phase = .closed ∧ _))
  | .write _ _ _ => inferInstanceAs (Decidable (c.phase.isOpened = true ∧ _))
  | .flush => inferInstanceAs (Decidable (c.phase.isOpened = true))
  | .release => inferInstanceAs (Decidable (c.phase.isFlushed = true))

end Client

/-! ### The invariant of one file -/

/-- The blocks of the file hold what its history says. -/
def Stored (L : Launch) (s : System) (history : List (Patch UInt8)) (ino size : ℕ) : Prop :=
  ∃ content : List UInt8, content.length = numberOfBlocks L.blockSize size * L.blockSize ∧
    Agrees content history ∧ ∀ i < numberOfBlocks L.blockSize size, ∃ block,
      (s.blockList ino)[i]? = some block ∧
      Holds s.heaps (owner (numberOfBlocks L.blockSize size) L.mpiWorldSize i) block.getData
        (blockAt L.blockSize content i)

/-- The buffer of an open file has room for its blocks, and holds what its history says. -/
structure Loaded (L : Launch) (history : List (Patch UInt8)) (v : FileState) : Prop where
  room : v.file.bytes.length = v.stBlocks * L.blockSize
  agrees : Agrees v.file.bytes history
  allocated : v.file.isWaitingForDistributedWrite = true → ∃ buf, v.file.mBuf = some buf

structure FileInv (L : Launch) (s : System) (history : List (Patch UInt8)) (ino : ℕ) (v : FileState)
    (isOpen : Prop) : Prop where
  stSize : v.stSize = extent history
  stBlocks : v.stBlocks = numberOfBlocks L.blockSize v.stSize
  loaded : isOpen → Loaded L history v
  /-- A file that is not open has no buffer, and nothing waits to be written. -/
  idle : ¬isOpen → v.file = File.new
  stored : v.file.isWaitingForDistributedWrite = false → Stored L s history ino v.stSize

namespace Client

/-- The file `x` is open. -/
def IsOpen (c : Client) (x : ℕ) : Prop := c.phase = .opened x

structure Inv (L : Launch) (c : Client) : Prop where
  queue : c.system.iNodeManager.deletedINodes = []
  files : ∀ x v, c.system.iNodeManager.fileAt x = some v →
    FileInv L c.system (c.written x) x v (c.IsOpen x)
  current : ∀ x, c.phase = .opened x ∨ c.phase = .flushed x →
    ∃ v, c.system.iNodeManager.fileAt x = some v

end Client

section Frames

variable {L : Launch} {s s' : System} {history : List (Patch UInt8)} {ino : ℕ} {v : FileState}

/-- Nothing is lost when the heaps grow and the list of the file is kept. -/
theorem Stored.mono {size : ℕ} (h : Stored L s history ino size)
    (hlist : s'.blockList ino = s.blockList ino) (hheaps : ∀ rank, s.heaps rank <+: s'.heaps rank) :
    Stored L s' history ino size := by
  obtain ⟨content, hlen, hagrees, hblocks⟩ := h
  refine ⟨content, hlen, hagrees, fun i hi => ?_⟩
  obtain ⟨block, hblock, hholds⟩ := hblocks i hi
  exact ⟨block, by rw [hlist, hblock], hholds.mono hheaps⟩

/-- An empty file with no history has nothing to store. -/
theorem stored_empty : Stored L s [] ino 0 := by
  refine ⟨[], by simp [numberOfBlocks_zero], agrees_nil [], fun i hi => ?_⟩
  rw [numberOfBlocks_zero] at hi
  omega

theorem FileInv.mono {isOpen isOpen' : Prop} (h : FileInv L s history ino v isOpen)
    (hopen : isOpen' ↔ isOpen) (hlist : s'.blockList ino = s.blockList ino)
    (hheaps : ∀ rank, s.heaps rank <+: s'.heaps rank) : FileInv L s' history ino v isOpen' :=
  ⟨h.stSize, h.stBlocks, fun ho => h.loaded (hopen.mp ho), fun hn => h.idle fun ho => hn (hopen.mpr ho),
    fun hw => (h.stored hw).mono hlist hheaps⟩

/-- A file without blocks and bytes, as after a creation or a truncating open. -/
theorem fileInv_empty : FileInv L s [] ino ⟨0, 0, File.new⟩ True := by
  constructor
  case stSize => rfl
  case stBlocks => exact (numberOfBlocks_zero _).symm
  case loaded =>
    intro _
    exact ⟨by simp [File.new, File.bytes], agrees_nil _, fun h => by cases h⟩
  case idle => exact fun hn => absurd trivial hn
  case stored => exact fun _ => stored_empty

/-- **A load gives back what was stored.** -/
theorem Stored.read {size : ℕ} (h : Stored L s history ino size) :
    ∃ buf, s.dagonFS_Read L ⟨ino, size, size, 0⟩ = some buf ∧
      (buf.getD []).length = numberOfBlocks L.blockSize size * L.blockSize ∧
      Agrees (buf.getD []) history := by
  obtain ⟨content, hlen, hagrees, hblocks⟩ := h
  by_cases hzero : size = 0
  · subst hzero
    rw [numberOfBlocks_zero, Nat.zero_mul] at hlen ⊢
    obtain rfl := List.eq_nil_of_length_eq_zero hlen
    exact ⟨none, rfl, rfl, hagrees⟩
  · exact ⟨some content, System.dagonFS_Read_spec hzero hlen hblocks, hlen, hagrees⟩

/-- What a distributed write stores is what was in the buffer. -/
theorem stored_of_written {buf : List UInt8} {size : ℕ}
    (h : System.Written L s s' buf ino (numberOfBlocks L.blockSize size))
    (hlen : buf.length = numberOfBlocks L.blockSize size * L.blockSize) (hagrees : Agrees buf history) :
    Stored L s' history ino size :=
  ⟨buf, hlen, hagrees, h.new⟩

end Frames

/-! ### The steps of a session -/

/-- A step has left file `ino` as `v`, and has kept what the other files rely on. -/
structure Touched (s s' : System) (ino : ℕ) (v : FileState) : Prop where
  self : s'.iNodeManager.fileAt ino = some v
  others : ∀ x, x ≠ ino → s'.iNodeManager.fileAt x = s.iNodeManager.fileAt x
  queue : s'.iNodeManager.deletedINodes = s.iNodeManager.deletedINodes
  lists : ∀ x, x ≠ ino → s'.blockList x = s.blockList x
  heaps : ∀ rank, s.heaps rank <+: s'.heaps rank

theorem System.Edited.touched {s s' : System} {ino : ℕ} {v : FileState}
    (h : System.Edited s s' ino v) : Touched s s' ino v :=
  ⟨h.self, h.others, h.queue, fun _ _ => by rw [h.blockList],
    fun rank => by rw [h.heaps]⟩

theorem System.Written.touched {L : Launch} {s s₁ s' : System} {buf : List UInt8} {ino blocks : ℕ}
    {v : FileState} (hw : System.Written L s s₁ buf ino blocks) (he : System.Edited s₁ s' ino v) :
    Touched s s' ino v := by
  have htable : s₁.iNodeManager = s.iNodeManager := hw.iNodeManager
  refine ⟨he.self, fun x hx => ?_, ?_, fun x hx => ?_, fun rank => ?_⟩
  · rw [he.others x hx, htable]
  · rw [he.queue, htable]
  · rw [he.blockList, hw.others x hx]
  · rw [he.heaps]
    exact hw.heaps rank

namespace Client

variable {L : Launch} {c : Client}

/-- A step touches the file of the session only, so only that file has to be looked at again. -/
theorem Inv.touched (h : Inv L c) {s' : System} {ino : ℕ} {v : FileState} {phase : Phase}
    {written : ℕ → List (Patch UInt8)} (ht : Touched c.system s' ino v)
    (hfile : FileInv L s' (written ino) ino v (phase = .opened ino))
    (hwritten : ∀ x, x ≠ ino → written x = c.written x)
    (hopen : ∀ x, x ≠ ino → (phase = .opened x ↔ c.phase = .opened x))
    (hcurrent : ∀ x, phase = .opened x ∨ phase = .flushed x → x = ino) :
    Inv L ⟨s', phase, written⟩ := by
  refine ⟨ht.queue.trans h.queue, fun x w hx => ?_, fun x hx => ?_⟩
  · by_cases hne : x = ino
    · subst hne
      obtain rfl := Option.some.inj (ht.self.symm.trans hx)
      exact hfile
    · have hx' : c.system.iNodeManager.fileAt x = some w := by rw [← ht.others x hne, hx]
      show FileInv L s' (written x) x w (phase = .opened x)
      rw [hwritten x hne]
      exact (h.files x w hx').mono (hopen x hne) (ht.lists x hne) ht.heaps
  · rw [hcurrent x hx]
    exact ⟨v, ht.self⟩

/-- No file is open before a session begins. -/
theorem Inv.begin (h : Inv L c) (hclosed : c.phase = .closed) {s' : System} {ino : ℕ} {v : FileState}
    {written : ℕ → List (Patch UInt8)} (ht : Touched c.system s' ino v)
    (hfile : FileInv L s' (written ino) ino v True)
    (hwritten : ∀ x, x ≠ ino → written x = c.written x) : Inv L ⟨s', .opened ino, written⟩ := by
  refine h.touched ht (hfile.mono (by simp) rfl fun _ => List.prefix_refl _) hwritten
    (fun x hx => ?_) fun x hx => ?_
  · rw [hclosed]
    simp [Ne.symm hx]
  · rcases hx with hx | hx
    · exact (Phase.opened.inj hx).symm
    · cases hx

theorem step_create (h : Inv L c) {ctx : Ids} {parent : ℕ} {name : Name} {flags : ℕ}
    (hclosed : c.phase = .closed) : ∃ c', c.step L (.create ctx parent name flags) = some c' ∧ Inv L c' := by
  rcases FileSystem.fuseCreate_spec c.system.fs ctx parent name flags h.queue with
    ⟨e, hrun⟩ | ⟨fs', attr, hrun, hqueue, hlists, hnew, hothers⟩
  · refine ⟨c, ?_, h⟩
    simp only [step, System.handle, System.fuseCreate, hrun]
    rfl
  · have ht : Touched c.system (c.system.setFs fs') c.system.iNodeManager.iNodes.length
        FileState.new :=
      ⟨hnew, hothers, hqueue.trans h.queue.symm, fun x _ => hlists x, fun _ => List.prefix_refl _⟩
    have hempty : FileInv L (c.system.setFs fs') (Function.update c.written
        c.system.iNodeManager.iNodes.length [] c.system.iNodeManager.iNodes.length)
        c.system.iNodeManager.iNodes.length FileState.new True := by
      rw [Function.update_self]
      exact fileInv_empty
    refine ⟨_, ?_, h.begin hclosed ht hempty fun x hx => Function.update_of_ne hx _ _⟩
    simp only [step, System.handle, System.fuseCreate, hrun]
    rfl

/-- The modes of a session: a truncating open drops the content, and so does no other. -/
theorem opensForWriting_eq {flags : ℕ} (hflags : truncates flags = true ∨
    flags &&& oAccmode = oRdonly ∨ flags &&& oAccmode = oRdwr) :
    opensForWriting flags = truncates flags := by
  have hsplit : flags &&& (oWronly ||| oTrunc) = flags &&& oWronly ||| flags &&& oTrunc :=
    Nat.and_or_distrib_left ..
  have hmode : flags &&& oWronly = (flags &&& oAccmode) &&& oWronly := by
    rw [Nat.and_assoc]
    rfl
  rcases hflags with h | h | h
  · have hne : flags &&& oTrunc ≠ 0 := by simpa [truncates] using h
    rw [h, opensForWriting, hsplit]
    simpa [Nat.or_eq_zero_iff] using fun _ => hne
  all_goals
    rw [hmode, h] at hsplit
    rw [opensForWriting, hsplit, truncates]
    simp [oRdonly, oRdwr, oWronly]

theorem fuseOpen_notFile {s : System} {ino : ℕ} (flags : ℕ) (h : s.iNodeManager.fileAt ino = none) :
    ∃ e, s.fuseOpen L ino flags = some (s, [.err e]) := by
  unfold System.fuseOpen System.withINode
  split
  · exact ⟨_, rfl⟩
  · rename_i hle
    have hlt : ino < s.iNodeManager.iNodes.length := Nat.lt_of_not_le hle
    have hget := List.getElem?_eq_getElem hlt
    rw [Nodes.fileAt, hget] at h
    rw [Nodes.getINodeByINodeNumber, hget, Option.bind_some]
    generalize s.iNodeManager.iNodes[ino] = i at h
    obtain ⟨_, _, _, _, k⟩ := i
    cases k with
    | file f => cases h
    | directory d => exact ⟨_, rfl⟩
    | symbolicLink l => exact ⟨_, rfl⟩
    | specialINode t => exact ⟨_, rfl⟩

theorem step_open (h : Inv L c) {ino flags : ℕ} (hclosed : c.phase = .closed)
    (hflags : truncates flags = true ∨ flags &&& oAccmode = oRdonly ∨ flags &&& oAccmode = oRdwr) :
    ∃ c', c.step L (.open ino flags) = some c' ∧ Inv L c' := by
  have hmode := opensForWriting_eq hflags
  cases hfile : c.system.iNodeManager.fileAt ino with
  | none =>
    obtain ⟨e, hrun⟩ := fuseOpen_notFile (L := L) flags hfile
    refine ⟨c, ?_, h⟩
    simp only [step, System.handle, hrun]
    rfl
  | some v =>
    have hinv := h.files ino v hfile
    have hidle : v.file = File.new := hinv.idle (by rw [IsOpen, hclosed]; simp)
    cases htrunc : truncates flags with
    | true =>
      obtain ⟨s', hrun, he⟩ := System.fuseOpen_drops (L := L) hfile (hmode.trans htrunc)
      have hempty : FileInv L s' (Function.update c.written ino [] ino) ino
          { v with stSize := 0, stBlocks := 0 } True := by
        rw [Function.update_self, hidle]
        exact fileInv_empty
      refine ⟨_, ?_, h.begin hclosed he.touched hempty fun x hx => Function.update_of_ne hx _ _⟩
      simp only [step, System.handle, hrun, htrunc]
      rfl
    | false =>
      have hstored := hinv.stored (by rw [hidle]; rfl)
      obtain ⟨buf, hread, hlen, hagrees⟩ := hstored.read
      obtain ⟨s', hrun, he⟩ := System.fuseOpen_loads hfile (hmode.trans htrunc) hread
      have hloaded : FileInv L s' (c.written ino) ino
          { v with file := { v.file with mBuf := buf } } True := by
        constructor
        case stSize => exact hinv.stSize
        case stBlocks => exact hinv.stBlocks
        case loaded =>
          intro _
          refine ⟨?_, hagrees, fun hw => ?_⟩
          · exact hlen.trans (by rw [← hinv.stBlocks])
          · rw [hidle] at hw
            cases hw
        case idle => exact fun hn => absurd trivial hn
        case stored => exact fun _ => hstored.mono (by rw [he.blockList]) fun rank => by rw [he.heaps]
      refine ⟨_, ?_, h.begin hclosed he.touched hloaded fun x hx => rfl⟩
      simp only [step, System.handle, hrun, htrunc]
      rfl

theorem step_write (h : Inv L c) {off : ℕ} {data : List UInt8} {junk : ℕ → UInt8} {ino : ℕ}
    (hopen : c.phase = .opened ino) (hdata : 1 ≤ data.length) :
    ∃ c', c.step L (.write off data junk) = some c' ∧ Inv L c' := by
  obtain ⟨v, hfile⟩ := h.current ino (Or.inl hopen)
  have hinv := h.files ino v hfile
  have hloaded := hinv.loaded hopen
  obtain ⟨s', buf, hrun, he, hlen, hkeeps⟩ := System.fuseWrite_file hfile junk hdata hloaded.room
  have hmono := (numberOfBlocks_mono L.blockSize_pos).map_max (a := v.stSize) (b := off + data.length)
  rw [hinv.stBlocks] at he hlen
  rw [← hmono] at he hlen
  have hfit : (Patch.mk off data).stop ≤ buf.length := by
    rw [hlen]
    exact (le_max_right _ _).trans (le_numberOfBlocks_mul L.blockSize_pos _)
  have hagrees : Agrees buf (c.written ino) := fun k a hk => hkeeps k a (hloaded.agrees k a hk)
  have hwritten : FileInv L s' (Function.update c.written ino (c.written ino ++ [⟨off, data⟩]) ino) ino
      ⟨max v.stSize (off + data.length),
        numberOfBlocks L.blockSize (max v.stSize (off + data.length)),
        ⟨some (splice buf off data), true⟩⟩ (Phase.opened ino = .opened ino) := by
    rw [Function.update_self]
    constructor
    case stSize =>
      rw [extent_snoc, ← hinv.stSize]
      rfl
    case stBlocks => rfl
    case loaded =>
      intro _
      exact ⟨(length_splice hfit).trans hlen, agrees_splice hagrees hfit, fun _ => ⟨_, rfl⟩⟩
    case idle => exact fun hn => absurd rfl hn
    case stored => exact fun hw => by cases hw
  refine ⟨_, ?_, h.touched he.touched hwritten (fun x hx => Function.update_of_ne hx _ _)
    (fun x _ => by rw [hopen]) fun x hx => ?_⟩
  · simp only [step, hopen, System.handle, hrun]
    rfl
  · rcases hx with hx | hx
    · exact (Phase.opened.inj hx).symm
    · cases hx

/-- The end of a session: the file has no buffer any more, and what it holds is stored. -/
theorem Inv.finish (h : Inv L c) {s' : System} {ino : ℕ} {v w : FileState} {phase : Phase}
    (hphase : phase = .closed ∨ phase = .flushed ino)
    (hbefore : ∀ x, c.phase = .opened x → x = ino)
    (hinv : FileInv L c.system (c.written ino) ino v (c.IsOpen ino)) (ht : Touched c.system s' ino w)
    (hfile : w = { v with file := File.new }) (hstored : Stored L s' (c.written ino) ino v.stSize) :
    Inv L { c with system := s', phase := phase } := by
  have hnot : ∀ x, phase ≠ .opened x := by
    intro x hx
    rcases hphase with hp | hp <;> rw [hp] at hx <;> cases hx
  subst hfile
  refine h.touched ht ?_ (fun _ _ => rfl) (fun x hx => ?_) fun x hx => ?_
  · constructor
    case stSize => exact hinv.stSize
    case stBlocks => exact hinv.stBlocks
    case loaded => exact fun ho => absurd ho (hnot ino)
    case idle => exact fun _ => rfl
    case stored => exact fun _ => hstored
  · exact ⟨fun ho => absurd ho (hnot x), fun ho => absurd (hbefore x ho) hx⟩
  · rcases hx with hx | hx
    · exact absurd hx (hnot x)
    · rcases hphase with hp | hp
      · rw [hp] at hx
        cases hx
      · rw [hp] at hx
        exact (Phase.flushed.inj hx).symm

theorem step_flush (h : Inv L c) {ino : ℕ} (hopen : c.phase = .opened ino) :
    ∃ c', c.step L .flush = some c' ∧ Inv L c' := by
  obtain ⟨v, hfile⟩ := h.current ino (Or.inl hopen)
  have hinv := h.files ino v hfile
  have hloaded := hinv.loaded hopen
  have hbefore : ∀ x, c.phase = .opened x → x = ino := by
    intro x hx
    rw [hopen] at hx
    exact (Phase.opened.inj hx).symm
  have hend : ∀ s', c.system.fuseFlush L ino = some (s', [.ok]) →
      c.step L .flush = some { c with system := s', phase := .flushed ino } := by
    intro s' hrun
    simp only [step, hopen, System.handle, hrun]
    rfl
  cases hbuf : v.file.mBuf with
  | none =>
    -- nothing was written in this session, or there would be a buffer
    have hclean : v.file.isWaitingForDistributedWrite = false := by
      cases hw : v.file.isWaitingForDistributedWrite with
      | false => rfl
      | true =>
        obtain ⟨buf, hbuf'⟩ := hloaded.allocated hw
        rw [hbuf] at hbuf'
        cases hbuf'
    have hnew : v.file = File.new := by
      cases hf : v.file with
      | mk b w =>
        rw [hf] at hbuf hclean
        exact congrArg₂ File.mk hbuf hclean
    have ht : Touched c.system c.system ino v :=
      ⟨hfile, fun _ _ => rfl, rfl, fun _ _ => rfl, fun _ => List.prefix_refl _⟩
    exact ⟨_, hend _ (System.fuseFlush_empty hfile hbuf), h.finish (Or.inr rfl) hbefore hinv ht
      (by rw [← hnew]) (hinv.stored hclean)⟩
  | some buf =>
    have hbytes : v.file.bytes = buf := by rw [File.bytes, hbuf]; rfl
    have hroom := hloaded.room
    have hagrees := hloaded.agrees
    rw [hbytes] at hroom hagrees
    cases hw : v.file.isWaitingForDistributedWrite with
    | false =>
      obtain ⟨s', hrun, he⟩ := System.fuseFlush_unwritten (L := L) hfile hbuf hw
      have hfree : v.file.freeBuf = File.new := congrArg (File.mk none) hw
      rw [hfree] at he
      exact ⟨_, hend _ hrun, h.finish (Or.inr rfl) hbefore hinv he.touched rfl
        ((hinv.stored hw).mono (by rw [he.blockList]) fun rank => by rw [he.heaps])⟩
    | true =>
      rw [hinv.stBlocks] at hroom
      obtain ⟨s₁, s', hrun, hwritten, he⟩ := System.fuseFlush_written hfile hbuf hw hroom.ge
      have hstored := stored_of_written hwritten hroom hagrees
      exact ⟨_, hend _ hrun, h.finish (Or.inr rfl) hbefore hinv (hwritten.touched he) rfl
        (hstored.mono (by rw [he.blockList]) fun rank => by rw [he.heaps])⟩

theorem step_release (h : Inv L c) {ino : ℕ} (hflushed : c.phase = .flushed ino) :
    ∃ c', c.step L .release = some c' ∧ Inv L c' := by
  obtain ⟨v, hfile⟩ := h.current ino (Or.inr hflushed)
  have hinv := h.files ino v hfile
  have hidle : v.file = File.new := hinv.idle (by rw [IsOpen, hflushed]; simp)
  obtain ⟨s', hrun, he⟩ := System.fuseRelease_file hfile
  rw [hidle] at he
  have hstored : Stored L s' (c.written ino) ino v.stSize :=
    (hinv.stored (by rw [hidle]; rfl)).mono (by rw [he.blockList]) fun rank => by rw [he.heaps]
  refine ⟨{ c with system := s', phase := .closed }, ?_,
    h.finish (Or.inl rfl) (fun x hx => ?_) hinv he.touched rfl hstored⟩
  · simp only [step, hflushed, System.handle, hrun]
    rfl
  · rw [hflushed] at hx
    cases hx

/-- **Every step of a session ends, and keeps the invariant.** -/
theorem step_inv (h : Inv L c) (e : Event) (hok : c.InSession e) :
    ∃ c', c.step L e = some c' ∧ Inv L c' := by
  cases e with
  | create ctx parent name flags => exact step_create h hok
  | «open» ino flags => exact step_open h hok.1 hok.2
  | write off data junk =>
    cases hphase : c.phase with
    | opened ino => exact step_write h hphase hok.2
    | _ => simp [InSession, hphase, Phase.isOpened] at hok
  | flush =>
    cases hphase : c.phase with
    | opened ino => exact step_flush h hphase
    | _ => simp [InSession, hphase, Phase.isOpened] at hok
  | release =>
    cases hphase : c.phase with
    | flushed ino => exact step_release h hphase
    | _ => simp [InSession, hphase, Phase.isFlushed] at hok

theorem mounted_fileAt (process : Ids) (x : ℕ) :
    (System.mounted process).iNodeManager.fileAt x = none := by
  match x with
  | 0 => rfl
  | 1 => rfl
  | _ + 2 => rfl

theorem inv_mounted (L : Launch) (process : Ids) : Inv L (mounted process) := by
  refine ⟨rfl, fun x v hx => ?_, fun x hx => ?_⟩
  · rw [show (mounted process).system = System.mounted process from rfl, mounted_fileAt] at hx
    cases hx
  · rcases hx with hx | hx <;> cases hx

/-- **What is written is read back.**  Every run of sessions ends.  When a file is open after it, the
size of the file is the furthest end of a write since the file was last created or truncated, and every
read inside the file replies with exactly the bytes that are there, each the one written last. -/
theorem read_written (L : Launch) (process : Ids) (events : List Event)
    (hok : Along (step L) InSession (mounted process) events) :
    ∃ c, run (step L) (mounted process) events = some c ∧
      ∀ ino, c.phase = .opened ino → ∃ v, c.system.iNodeManager.fileAt ino = some v ∧
        v.stSize = extent (c.written ino) ∧
        ∀ off size, off ≤ v.stSize → ∃ bytes,
          c.system.handle L (.read ino size off) = some (c.system, [.buf bytes]) ∧
          bytes.length = min size (v.stSize - off) ∧
          ∀ k a, k < bytes.length → lastByte (c.written ino) (off + k) = some a →
            bytes[k]? = some a := by
  obtain ⟨c, hrun, hinv⟩ := progress_run (fun c e h hok => step_inv h e hok) (inv_mounted L process) hok
  refine ⟨c, hrun, fun ino hopen => ?_⟩
  obtain ⟨v, hfile⟩ := hinv.current ino (Or.inl hopen)
  have hfileInv := hinv.files ino v hfile
  have hloaded := hfileInv.loaded hopen
  have hbytes : v.stSize ≤ v.file.bytes.length := by
    rw [hloaded.room, hfileInv.stBlocks]
    exact le_numberOfBlocks_mul L.blockSize_pos _
  refine ⟨v, hfile, hfileInv.stSize, fun off size hoff => ?_⟩
  refine ⟨_, System.fuseRead_file hfile hoff hbytes, ?_, fun k a hk hlast => ?_⟩
  · rw [List.length_take, List.length_drop]
    omega
  · rw [List.length_take] at hk
    rw [List.getElem?_take, if_pos (by omega), List.getElem?_drop]
    exact hloaded.agrees _ a hlast

/-- Two processes and blocks of four bytes: a file of two blocks is written with a gap, closed, and opened
again; the read of its last three bytes replies with three bytes. -/
theorem read_written_two_blocks :
    ∃ c bytes, run (step ⟨2, 4, by decide, by decide⟩) (mounted ⟨0, 0⟩)
        [.create ⟨0, 0⟩ 1 [97] oRdwr, .write 4 [1, 2, 3] (fun _ => 7), .write 0 [5, 6] (fun _ => 7),
          .write 5 [8] (fun _ => 7), .flush, .release, .open 2 oRdonly] = some c ∧
      c.system.handle ⟨2, 4, by decide, by decide⟩ (.read 2 3 4) = some (c.system, [.buf bytes]) ∧
      bytes.length = 3 := by
  obtain ⟨c, hrun, hread⟩ := read_written ⟨2, 4, by decide, by decide⟩ ⟨0, 0⟩
    [.create ⟨0, 0⟩ 1 [97] oRdwr, .write 4 [1, 2, 3] (fun _ => 7), .write 0 [5, 6] (fun _ => 7),
      .write 5 [8] (fun _ => 7), .flush, .release, .open 2 oRdonly] (by decide +kernel)
  have hopen : c.phase = .opened 2 := by
    have hphase : (some c).map Client.phase = some (.opened 2) := by
      rw [← hrun]
      decide +kernel
    exact Option.some.inj hphase
  have hwritten : extent (c.written 2) = 7 := by
    have hextent : (some c).map (fun c => extent (c.written 2)) = some 7 := by
      rw [← hrun]
      decide +kernel
    exact Option.some.inj hextent
  obtain ⟨v, -, hsize, hbytes⟩ := hread 2 hopen
  rw [hwritten] at hsize
  obtain ⟨bytes, hreply, hlen, -⟩ := hbytes 4 3 (by omega)
  exact ⟨c, bytes, hrun, hreply, by rw [hlen, hsize]; rfl⟩

end Client

end DagonFs
