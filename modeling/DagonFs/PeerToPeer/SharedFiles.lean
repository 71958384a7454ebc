import DagonFs.PeerToPeer.Coherence

/-!
# What is written at one peer is read at the others

`Shared` is the peers with the patches that were written to each file since it was created or cut, at
whichever peers.

A peer that has loaded a file has a buffer of as many blocks as the size needs, and may count more blocks than
these.  A write that goes past the buffer makes it longer only when it needs more blocks than are counted.

* `Shared.InSession`: the order of a session, and the writes that stay inside of the buffer or make it longer.
* `Shared.inv_step`: every step of a session keeps all files coherent; `Shared.Inv.isSome`: and can be taken.
* `Shared.read_acrossPeers`: so every read at the peer of the open handle replies with the bytes written last,
  wherever they were written.
-/

namespace DagonFs

open DagonFs.Nodes DagonFs.Lib.Buffer DagonFs.Lib.Runs

namespace PeerToPeer

/-- The bytes stay inside of the buffer of the file, or the write makes it longer. -/
def Peers.fits (L : Launch) (s : Peers) (rank ino : ℕ) (buf : Option (List UInt8)) (off : ℕ) : Bool :=
  buf.all fun data => ((s.processes rank).fs.iNodeManager.fileAt ino).all fun v =>
    off + data.length ≤ v.file.bytes.length || L.blockSize * v.stBlocks < off + data.length

def FileEvent.isCreation : FileEvent → Bool
  | .create .. => true
  | _ => false

structure Shared where
  peers : Peers
  /-- The open handle has been flushed. -/
  flushed : Bool
  written : ℕ → List (Patch UInt8)

namespace Shared

variable (L : Launch) (s : Shared)

def mounted (process : ℕ → Ids) : Shared := ⟨Peers.mounted process, false, fun _ => []⟩

def handle (x : ℕ) : Option Handle :=
  s.peers.session.bind fun h => if h.ino = x then some ⟨h.rank, h.unsent, s.flushed⟩ else none

def nextFlushed : FileEvent → Bool
  | .create .. => false
  | .open .. => false
  | .flush => true
  | _ => s.flushed

/-- The histories after an event that has left the peers as `next`. -/
def nextWritten (next : Peers) : FileEvent → ℕ → List (Patch UInt8)
  | .create .. =>
    match next.session with
    | some h => Function.update s.written h.ino []
    | none => s.written
  | .open _ ino flags =>
    if opensForWriting flags = true ∧ next.session.isSome then Function.update s.written ino []
    else s.written
  | .write (some data) off _ =>
    match s.peers.session with
    | some h => Function.update s.written h.ino (s.written h.ino ++ [⟨off, data⟩])
    | none => s.written
  | _ => s.written

def step (e : FileEvent) : Option Shared :=
  (s.peers.step L e).map fun next => ⟨next, s.nextFlushed e, s.nextWritten next e⟩

/-- The order of a session: a file is opened when none is open, a write comes before the flush, and the release
after the flush with nothing unsent.  A write has at least one byte and fits the buffer.  Attributes are set of
inodes that the peer has, and none with another size. -/
def InSession : FileEvent → Prop
  | .create .. => True
  | .open rank _ _ => rank < L.mpiWorldSize ∧ s.peers.session = none
  | .write buf off _ => s.flushed = false ∧ buf.all (·.length != 0) = true ∧
      s.peers.session.any (fun h => s.peers.fits L h.rank h.ino buf off) = true
  | .setAttr rank ino attr toSet => rank < L.mpiWorldSize ∧
      ino < (s.peers.processes rank).fs.iNodeManager.getNumberOfINodes ∧
      s.peers.resizes rank ino attr toSet = false
  | .flush => s.peers.session.isSome = true
  | .release => s.flushed = true ∧ s.peers.session.any (!·.unsent) = true

instance : DecidablePred (s.InSession L)
  | .create .. => isTrue trivial
  | .open rank _ _ => decidable_of_iff (rank < L.mpiWorldSize ∧ s.peers.session.isNone = true)
      (and_congr_right fun _ => Option.isNone_iff_eq_none)
  | .write .. | .setAttr .. => inferInstanceAs (Decidable (_ ∧ _ ∧ _))
  | .flush => inferInstanceAs (Decidable (_ = true))
  | .release => inferInstanceAs (Decidable (_ ∧ _))

end Shared

variable {L : Launch} {rank x : ℕ} {v : FileState} {history : List (Patch UInt8)} {size : ℕ}
  {content : List UInt8}

/-! ### Runs -/

namespace Shared

/-- All files: each is nowhere, or coherent. -/
def Inv (L : Launch) (s : Shared) : Prop :=
  ∀ x, (s.handle x = none ∧ ∀ t < L.mpiWorldSize, (s.peers.processes t).file x = none) ∨
    ∃ size content, Coherent L s.peers.processes (s.written x) x (s.handle x) size content

variable {s s' : Shared}

/-- A step that keeps the other files is looked at for one file only. -/
theorem Inv.aside (h : Inv L s) (haside : Aside L s.peers.processes s'.peers.processes x)
    (hwritten : ∀ y, y ≠ x → s'.written y = s.written y) (hhandle : ∀ y, y ≠ x → s'.handle y = s.handle y)
    (hfile : ∃ size content, Coherent L s'.peers.processes (s'.written x) x (s'.handle x) size content) :
    Inv L s' := by
  intro y
  by_cases hy : y = x
  · subst hy
    exact Or.inr hfile
  · rw [hwritten y hy, hhandle y hy]
    rcases h y with ⟨hclosed, hnone⟩ | ⟨size, content, hc⟩
    · refine Or.inl ⟨hclosed, fun t ht => ?_⟩
      rw [haside.files t ht y hy]
      exact hnone t ht
    · exact Or.inr ⟨size, content, hc.mono (fun t ht => haside.files t ht y hy)
        (fun t ht => haside.lists t ht y hy) haside.heaps⟩

/-- A step that keeps all files. -/
theorem Inv.same (h : Inv L s) (hwritten : s'.written = s.written) (hhandle : s'.handle = s.handle)
    (hfiles : ∀ t, (s'.peers.processes t).file = (s.peers.processes t).file ∧
      (s'.peers.processes t).peer.blockList = (s.peers.processes t).peer.blockList ∧
      (s'.peers.processes t).heap = (s.peers.processes t).heap) : Inv L s' := by
  intro y
  rw [hwritten, hhandle]
  rcases h y with ⟨hclosed, hnone⟩ | ⟨size, content, hc⟩
  · refine Or.inl ⟨hclosed, fun t ht => ?_⟩
    rw [(hfiles t).1]
    exact hnone t ht
  · refine Or.inr ⟨size, content, hc.mono (fun t _ => by rw [(hfiles t).1])
      (fun t _ => by rw [(hfiles t).2.1]) fun t => ?_⟩
    rw [(hfiles t).2.2]

theorem handle_of_session {hand : Session} (h : s.peers.session = some hand) (x : ℕ) :
    s.handle x = if hand.ino = x then some ⟨hand.rank, hand.unsent, s.flushed⟩ else none := by
  rw [handle, h, Option.bind_some]

theorem handle_of_closed (h : s.peers.session = none) (x : ℕ) : s.handle x = none := by
  rw [handle, h, Option.bind_none]

/-- The file of the open handle. -/
theorem Inv.current (h : Inv L s) {hand : Session} (hsession : s.peers.session = some hand) :
    ∃ size content, Coherent L s.peers.processes (s.written hand.ino) hand.ino
      (some ⟨hand.rank, hand.unsent, s.flushed⟩) size content := by
  have hhandle := handle_of_session hsession hand.ino
  rw [if_pos rfl] at hhandle
  rcases h hand.ino with ⟨hclosed, -⟩ | hc
  · rw [hhandle] at hclosed
    cases hclosed
  · rwa [hhandle] at hc

theorem inv_create {ctx : Ids} {parents : ℕ → ℕ} {name : Name} {flags : ℕ} (h : Inv L s)
    (hstep : s.step L (.create rank ctx parents name flags) = some s') : Inv L s' := by
  obtain ⟨next, hnext, rfl⟩ := Option.map_eq_some_iff.mp hstep
  simp only [Peers.step] at hnext
  split at hnext
  case isFalse => cases hnext
  rename_i hstart
  have hclosed := Option.isNone_iff_eq_none.mp hstart.2
  obtain ⟨⟨fs, replies⟩, hcreate, hend⟩ := Option.bind_eq_some_iff.mp hnext
  split at hend
  case h_2 =>
    -- an error
    obtain rfl := Option.some.inj hend
    refine h.same ?_ ?_ fun t => ⟨rfl, rfl, rfl⟩
    · simp only [nextWritten, hclosed]
    · funext x
      rw [handle_of_closed hclosed x]
      show s.peers.session.bind _ = none
      rw [hclosed]
      rfl
  rename_i ino attr hreplies
  obtain rfl : replies = [.create ino attr] := hreplies
  obtain ⟨hsession, hmade, haway⟩ := made_of_created hcreate hend
  have haside : Aside L s.peers.processes next.processes ino := by
    constructor
    case files => exact fun t ht => (hmade t ht).others
    case lists => exact fun t ht y _ => congrFun (hmade t ht).blockList y
    case heaps =>
      intro t
      by_cases ht : t < L.mpiWorldSize
      · rw [(hmade t ht).heap]
      · rw [haway t ht]
  have hwritten : nextWritten s next (.create rank ctx parents name flags) =
      Function.update s.written ino [] := by
    simp only [nextWritten, hsession]
  have hhandle : ∀ y, handle ⟨next, false, nextWritten s next (.create rank ctx parents name flags)⟩ y =
      if ino = y then some ⟨rank, false, false⟩ else none :=
    fun y => handle_of_session (s := ⟨next, false, _⟩) hsession y
  refine h.aside haside (fun y hy => ?_) (fun y hy => ?_) ⟨0, [], ?_⟩
  · exact (congrFun hwritten y).trans (Function.update_of_ne hy _ _)
  · rw [handle_of_closed hclosed]
    exact (hhandle y).trans (if_neg (Ne.symm hy))
  · have hself := (hhandle ino).trans (if_pos rfl)
    have hempty := (congrFun hwritten ino).trans (Function.update_self ino [] s.written)
    show Coherent L next.processes (nextWritten s next (.create rank ctx parents name flags) ino) ino
      (handle ⟨next, false, _⟩ ino) 0 []
    rw [hself, hempty]
    exact coherent_made hstart.1 hmade

theorem inv_open {ino flags : ℕ} (h : Inv L s) (hstep : s.step L (.open rank ino flags) = some s') :
    Inv L s' := by
  obtain ⟨next, hnext, rfl⟩ := Option.map_eq_some_iff.mp hstep
  simp only [Peers.step] at hnext
  split at hnext
  case isFalse => cases hnext
  rename_i hstart
  have hclosed := Option.isNone_iff_eq_none.mp hstart.2
  obtain ⟨⟨processes, replies⟩, hopen, rfl⟩ := Option.map_eq_some_iff.mp hnext
  have hhandle := handle_of_closed hclosed
  rcases h ino with ⟨-, hnone⟩ | ⟨size, content, hc⟩
  · obtain ⟨e, herror⟩ := fuseOpen_notFile (L := L) flags (hnone rank hstart.1)
    obtain ⟨rfl, rfl⟩ := Prod.mk.inj (Option.some.inj (herror.symm.trans hopen))
    have hnot : ([.err e] : List Reply) ≠ [.opened] := by simp
    refine h.same ?_ ?_ fun t => ⟨rfl, rfl, rfl⟩
    · simp only [nextWritten, if_neg hnot, Option.isSome_none, Bool.false_eq_true, and_false, if_false]
    · funext x
      rw [hhandle x]
      simp only [handle, if_neg hnot, Option.bind_none]
  · rw [hhandle] at hc
    obtain ⟨s', v, hopened, hconfined, hcoherent⟩ := hc.open hstart.1 flags
    obtain ⟨rfl, rfl⟩ := Prod.mk.inj (Option.some.inj (hopened.symm.trans hopen))
    have hunsent : s.peers.truncates rank ino flags = (opensForWriting flags && size != 0) := by
      obtain ⟨w, hw, hidle⟩ := hc.others rank hstart.1 (by simp)
      have hsize : s.peers.sizeOf rank ino = some size :=
        (sizeOf_of_fileAt (p := s.peers.processes rank) hw).trans (congrArg some hidle.stSize)
      rw [Peers.truncates, hsize, Option.any_some]
    have hwritten : ∀ y, nextWritten s ⟨s', some ⟨rank, ino, s.peers.truncates rank ino flags⟩⟩
        (.open rank ino flags) y = if opensForWriting flags = true ∧ y = ino then [] else s.written y := by
      intro y
      by_cases hflags : opensForWriting flags = true
      · simp only [nextWritten, hflags, Option.isSome_some, and_self, if_true, true_and]
        by_cases hy : y = ino
        · rw [hy, Function.update_self, if_pos rfl]
        · rw [Function.update_of_ne hy, if_neg hy]
      · rw [if_neg fun hboth => hflags hboth.1]
        exact congrFun (if_neg fun hboth => hflags hboth.1) y
    refine h.aside (hconfined.aside L) (fun y hy => ?_) (fun y hy => ?_) ⟨size, content, ?_⟩
    · exact (hwritten y).trans (if_neg fun hboth => hy hboth.2)
    · rw [hhandle]
      exact if_neg (Ne.symm hy)
    · have hself := hwritten ino
      simp only [and_true] at hself
      show Coherent L s' (nextWritten s ⟨s', some _⟩ (.open rank ino flags) ino) ino
        (if ino = ino then some ⟨rank, s.peers.truncates rank ino flags, false⟩ else none) size content
      rw [hself, if_pos rfl, hunsent]
      exact hcoherent

theorem inv_write {buf : Option (List UInt8)} {off : ℕ} {junk : ℕ → UInt8} (h : Inv L s)
    (hok : s.InSession L (.write buf off junk)) (hstep : s.step L (.write buf off junk) = some s') :
    Inv L s' := by
  obtain ⟨next, hnext, rfl⟩ := Option.map_eq_some_iff.mp hstep
  obtain ⟨hand, hsession, hend⟩ := Option.bind_eq_some_iff.mp hnext
  obtain ⟨⟨processes, replies⟩, hwrite, rfl⟩ := Option.map_eq_some_iff.mp hend
  obtain ⟨size, content, hc⟩ := h.current hsession
  rw [hok.1] at hc
  cases buf with
  | none =>
    -- refused: nothing grows either
    have hlocal : processes = s.peers.processes := by
      obtain ⟨rfl, -⟩ := Prod.mk.inj (Option.some.inj hwrite)
      exact Function.update_eq_self hand.rank s.peers.processes
    subst hlocal
    refine h.same rfl ?_ fun t => ⟨rfl, rfl, rfl⟩
    funext x
    rw [handle_of_session hsession]
    show (if hand.ino = x then some (Handle.mk hand.rank (hand.unsent || false) s.flushed) else none) = _
    rw [Bool.or_false]
  | some data =>
    have hdata : data.length ≠ 0 := bne_iff_ne.mp hok.2.1
    have hwritten : ∀ y, nextWritten s ⟨processes, some { hand with
        unsent := hand.unsent || s.peers.grows hand.rank hand.ino (some data) off }⟩
          (.write (some data) off junk) y =
            Function.update s.written hand.ino (s.written hand.ino ++ [⟨off, data⟩]) y := by
      intro y
      simp only [nextWritten, hsession]
    obtain ⟨haside, hcoherent⟩ :=
      hc.write (hand.unsent || s.peers.grows hand.rank hand.ino (some data) off) hdata hwrite
    refine h.aside haside (fun y hy => ?_) (fun y hy => ?_) ⟨size, content, ?_⟩
    · exact (hwritten y).trans (Function.update_of_ne hy _ _)
    · rw [handle_of_session hsession, if_neg (Ne.symm hy)]
      exact if_neg (Ne.symm hy)
    · have hself := (hwritten hand.ino).trans (Function.update_self _ _ _)
      show Coherent L processes (nextWritten s ⟨processes, some { hand with
        unsent := hand.unsent || s.peers.grows hand.rank hand.ino (some data) off }⟩
          (.write (some data) off junk) hand.ino) hand.ino
        (if hand.ino = hand.ino then some ⟨hand.rank, _, s.flushed⟩ else none) size content
      rw [hself, if_pos rfl, hok.1]
      exact hcoherent

theorem inv_setAttr {ino toSet : ℕ} {attr : Stat} (h : Inv L s)
    (hok : s.InSession L (.setAttr rank ino attr toSet))
    (hstep : s.step L (.setAttr rank ino attr toSet) = some s') : Inv L s' := by
  obtain ⟨next, hnext, rfl⟩ := Option.map_eq_some_iff.mp hstep
  simp only [Peers.step] at hnext
  split at hnext
  case isFalse => cases hnext
  obtain ⟨⟨processes, replies⟩, hset, rfl⟩ := Option.map_eq_some_iff.mp hnext
  have hkept : s.peers.resizes rank ino attr toSet = false := hok.2.2
  refine h.same rfl ?_ (fuseSetAttr_files hset fun hflag => ?_)
  · funext x
    cases hsession : s.peers.session with
    | none =>
      rw [handle_of_closed hsession, handle_of_closed]
      rw [Option.map_none]
    | some hand =>
      rw [handle_of_session hsession]
      show (Option.bind (Option.map _ (some hand)) _) = _
      simp only [Option.map_some, Option.bind_some, hkept, Bool.or_false]
      split <;> rfl
  · rw [Peers.resizes, hflag, Bool.true_and] at hkept
    cases hsize : (s.peers.processes rank).sizeOf ino with
    | none => exact Or.inr rfl
    | some n =>
      left
      rw [Peers.sizeOf, hsize, Option.any_some, bne_eq_false_iff_eq] at hkept
      rw [hkept]

theorem inv_flush (h : Inv L s) (hstep : s.step L .flush = some s') : Inv L s' := by
  obtain ⟨next, hnext, rfl⟩ := Option.map_eq_some_iff.mp hstep
  obtain ⟨hand, hsession, hend⟩ := Option.bind_eq_some_iff.mp hnext
  obtain ⟨⟨processes, replies⟩, hflush, rfl⟩ := Option.map_eq_some_iff.mp hend
  obtain ⟨size, content, hc⟩ := h.current hsession
  obtain ⟨-, v, hfile, hheld⟩ := hc.held _ rfl
  obtain ⟨s', hflushed, haside, size', content', hcoherent⟩ := hc.flush hfile hheld
  obtain ⟨rfl, -⟩ := Prod.mk.inj (Option.some.inj (hflushed.symm.trans hflush))
  have hstores : s.peers.stores hand.rank hand.ino = decide v.IsDirty := by
    have hv : (s.peers.processes hand.rank).fs.iNodeManager.fileAt hand.ino = some v := hfile
    rw [Peers.stores, hv, Option.any_some]
  refine h.aside haside (fun y _ => rfl) (fun y hy => ?_) ⟨size', content', ?_⟩
  · rw [handle_of_session hsession, if_neg (Ne.symm hy)]
    exact if_neg (Ne.symm hy)
  · show Coherent L s' (s.written hand.ino) hand.ino
      (if hand.ino = hand.ino then some ⟨hand.rank, _, true⟩ else none) size' content'
    rw [if_pos rfl, hstores]
    exact hcoherent

theorem inv_release (h : Inv L s) (hok : s.InSession L .release) (hstep : s.step L .release = some s') :
    Inv L s' := by
  obtain ⟨next, hnext, rfl⟩ := Option.map_eq_some_iff.mp hstep
  obtain ⟨hand, hsession, hend⟩ := Option.bind_eq_some_iff.mp hnext
  obtain ⟨⟨processes, replies⟩, hrelease, rfl⟩ := Option.map_eq_some_iff.mp hend
  obtain ⟨size, content, hc⟩ := h.current hsession
  have hsent : hand.unsent = false := by
    have hall := hok.2
    rw [hsession, Option.any_some, Bool.not_eq_true'] at hall
    exact hall
  rw [hok.1, hsent] at hc
  obtain ⟨s', hreleased, haside, hcoherent⟩ := hc.release
  obtain ⟨rfl, -⟩ := Prod.mk.inj (Option.some.inj (hreleased.symm.trans hrelease))
  refine h.aside haside (fun y _ => rfl) (fun y hy => ?_) ⟨size, content, hcoherent⟩
  rw [handle_of_session hsession, if_neg (Ne.symm hy)]
  rfl

/-- **The step lemma.** -/
theorem inv_step {e : FileEvent} (h : Inv L s) (hok : s.InSession L e) (hstep : s.step L e = some s') :
    Inv L s' := by
  cases e with
  | create => exact inv_create h hstep
  | «open» => exact inv_open h hstep
  | write => exact inv_write h hok hstep
  | setAttr => exact inv_setAttr h hok hstep
  | flush => exact inv_flush h hstep
  | release => exact inv_release h hok hstep

theorem inv_mounted (L : Launch) (process : ℕ → Ids) : Inv L (mounted process) :=
  fun x => Or.inl ⟨rfl, fun t _ => Client.mounted_fileAt (process t) x⟩

/-! ### Steps that can be taken -/

theorem Inv.open_isSome {ino flags : ℕ} (h : Inv L s) (hok : s.InSession L (.open rank ino flags)) :
    (s.step L (.open rank ino flags)).isSome := by
  obtain ⟨hrank, hclosed⟩ := hok
  have hstart : rank < L.mpiWorldSize ∧ s.peers.session.isNone = true := ⟨hrank, by rw [hclosed]; rfl⟩
  rw [step, Option.isSome_map, Peers.step, if_pos hstart, Option.isSome_map]
  rcases h ino with ⟨-, hnone⟩ | ⟨size, content, hc⟩
  · obtain ⟨e, herror⟩ := fuseOpen_notFile (L := L) flags (hnone rank hrank)
    rw [herror]
    rfl
  · rw [handle_of_closed hclosed] at hc
    obtain ⟨s', v, hopen, -⟩ := hc.open hrank flags
    rw [hopen]
    rfl

theorem Inv.write_isSome {buf : Option (List UInt8)} {off : ℕ} {junk : ℕ → UInt8} (h : Inv L s)
    (hok : s.InSession L (.write buf off junk)) : (s.step L (.write buf off junk)).isSome := by
  obtain ⟨-, -, hfits⟩ := hok
  obtain ⟨hand, hsession, hfits⟩ := (Option.any_eq_true _ _).mp hfits
  rw [step, Option.isSome_map, Peers.step, hsession, Option.bind_some, Option.isSome_map]
  cases buf with
  | none => rfl
  | some data =>
    obtain ⟨size, content, hc⟩ := h.current hsession
    obtain ⟨-, v, hfile, -⟩ := hc.held _ rfl
    have hv : (s.peers.processes hand.rank).fs.iNodeManager.fileAt hand.ino = some v := hfile
    rw [Peers.fits, Option.all_some, hv, Option.all_some, Bool.or_eq_true, decide_eq_true_iff,
      decide_eq_true_iff] at hfits
    obtain ⟨s₁, -, hlocal⟩ := System.fuseWrite_edited (L := L)
      (s := (s.peers.processes hand.rank).system) hfile data off junk
    rw [if_pos (FileState.le_length_writeBuffer hfits)] at hlocal
    rw [fuseWrite, hlocal]
    rfl

theorem setAttr_isSome {ino toSet : ℕ} {attr : Stat} (hok : s.InSession L (.setAttr rank ino attr toSet)) :
    (s.step L (.setAttr rank ino attr toSet)).isSome := by
  obtain ⟨hrank, hlt, -⟩ := hok
  have hget : (s.peers.processes rank).system.iNodeManager.getINodeByINodeNumber ino = some _ :=
    List.getElem?_eq_getElem hlt
  rw [step, Option.isSome_map, Peers.step, if_pos hrank, Option.isSome_map, fuseSetAttr,
    System.fuseSetAttr, hget]
  rfl

theorem Inv.flush_isSome (h : Inv L s) (hok : s.InSession L .flush) : (s.step L .flush).isSome := by
  obtain ⟨hand, hsession⟩ := Option.isSome_iff_exists.mp hok
  obtain ⟨size, content, hc⟩ := h.current hsession
  obtain ⟨-, v, hfile, hheld⟩ := hc.held _ rfl
  obtain ⟨s', hflush, -⟩ := hc.flush hfile hheld
  rw [step, Option.isSome_map, Peers.step, hsession, Option.bind_some, hflush]
  rfl

theorem Inv.release_isSome (h : Inv L s) (hok : s.InSession L .release) : (s.step L .release).isSome := by
  obtain ⟨hflushed, hsent⟩ := hok
  obtain ⟨hand, hsession, hsent⟩ := (Option.any_eq_true _ _).mp hsent
  obtain ⟨size, content, hc⟩ := h.current hsession
  rw [Bool.not_eq_true'] at hsent
  rw [hflushed, hsent] at hc
  obtain ⟨s', hrelease, -⟩ := hc.release
  rw [step, Option.isSome_map, Peers.step, hsession, Option.bind_some, hrelease]
  rfl

/-- Whatever comes in the order of a session is carried out, when it is no creation. -/
theorem Inv.isSome {e : FileEvent} (h : Inv L s) (hcreation : e.isCreation = false)
    (hok : s.InSession L e) : (s.step L e).isSome := by
  cases e with
  | create => cases hcreation
  | «open» => exact h.open_isSome hok
  | write => exact h.write_isSome hok
  | setAttr => exact setAttr_isSome hok
  | flush => exact h.flush_isSome hok
  | release => exact h.release_isSome hok

/-! ### Reads -/

theorem fuseRead_held {processes : ℕ → Process} {hand : Handle} {off : ℕ}
    (hfile : (processes hand.rank).fs.iNodeManager.fileAt x = some v)
    (hheld : Held L history size content hand v) (hopen : hand.flushed = false) (hoff : off ≤ v.stSize)
    (count : ℕ) : ∃ bytes, fuseRead processes hand.rank x count off = some (processes, [.buf bytes]) ∧
      bytes.length = min count (v.stSize - off) ∧
      ∀ k a, k < bytes.length → lastByte history (off + k) = some a → bytes[k]? = some a := by
  have hbuffered := hheld.buffered hopen
  have hinside := hbuffered.inside
  have hlocal : (processes hand.rank).system.iNodeManager.fileAt x = some v := hfile
  have hread := @System.fuseRead_file _ _ _ hlocal count off hoff hinside
  refine ⟨(v.file.bytes.drop off).take (min count (v.stSize - off)), ?_, ?_, fun k a hk hlast => ?_⟩
  · rw [fuseRead, hread]
    exact congrArg (fun p => some (p, _)) (Function.update_eq_self hand.rank processes)
  · rw [List.length_take, List.length_drop]
    omega
  · rw [List.length_take] at hk
    rw [List.getElem?_take_of_lt (by omega), List.getElem?_drop]
    exact hbuffered.agrees _ a hlast

/-- **What is written at one peer is read at the others.**  In every run of sessions, at any peers, whatever comes
next in the order of a session is carried out, a creation apart.  While a file is open and not flushed, its size
is the furthest end of a write since the file was last created or cut, at whichever peers, and every read inside
of it replies with exactly the bytes that are there, each the one written last. -/
theorem read_acrossPeers (L : Launch) (process : ℕ → Ids) (events : List FileEvent)
    (hok : Along (step L) (InSession L) (mounted process) events)
    (hrun : run (step L) (mounted process) events = some s) :
    (∀ e : FileEvent, e.isCreation = false → s.InSession L e → (s.step L e).isSome) ∧
    ∀ hand, s.peers.session = some hand → s.flushed = false →
      s.peers.sizeOf hand.rank hand.ino = some (extent (s.written hand.ino)) ∧
      ∀ count off, off ≤ extent (s.written hand.ino) → ∃ bytes,
        fuseRead s.peers.processes hand.rank hand.ino count off = some (s.peers.processes, [.buf bytes]) ∧
        bytes.length = min count (extent (s.written hand.ino) - off) ∧
        ∀ k a, k < bytes.length → lastByte (s.written hand.ino) (off + k) = some a →
          bytes[k]? = some a := by
  have hinv : Inv L s := invariant_run (fun _ _ _ hI hok hstep => inv_step hI hok hstep)
    (inv_mounted L process) hok hrun
  refine ⟨fun e hcreation hnext => hinv.isSome hcreation hnext, ?_⟩
  intro hand hsession hflushed
  obtain ⟨size, content, hc⟩ := hinv.current hsession
  obtain ⟨-, v, hfile, hheld⟩ := hc.held _ rfl
  have hsize : s.peers.sizeOf hand.rank hand.ino = some v.stSize :=
    sizeOf_of_fileAt (p := s.peers.processes hand.rank) hfile
  rw [hsize, ← hheld.stSize]
  exact ⟨rfl, fun count off hoff => fuseRead_held hfile hheld hflushed hoff count⟩

/-- Three peers and blocks of four bytes: the first writes two blocks, the second writes over the end of them,
and the third reads what both have written. -/
theorem read_acrossPeers_three : ∃ s bytes, run (step ⟨3, 4, by decide, by decide⟩)
      (mounted fun _ => ⟨0, 0⟩) [.create 0 ⟨0, 0⟩ (fun _ => 1) [97] oRdwr,
        .write (some [1, 2, 3, 4, 5, 6]) 0 (fun _ => 0), .flush, .release, .open 1 2 oRdwr,
        .write (some [7, 8, 9]) 4 (fun _ => 0), .flush, .release, .open 2 2 oRdonly] = some s ∧
    fuseRead s.peers.processes 2 2 3 4 = some (s.peers.processes, [.buf bytes]) ∧ bytes.length = 3 := by
  have hok : Along (step ⟨3, 4, by decide, by decide⟩) (InSession ⟨3, 4, by decide, by decide⟩)
      (mounted fun _ => ⟨0, 0⟩)
      [.create 0 ⟨0, 0⟩ (fun _ => 1) [97] oRdwr,
        .write (some [1, 2, 3, 4, 5, 6]) 0 (fun _ => 0), .flush, .release, .open 1 2 oRdwr,
        .write (some [7, 8, 9]) 4 (fun _ => 0), .flush, .release, .open 2 2 oRdonly] := by decide +kernel
  have hfacts : (run (step ⟨3, 4, by decide, by decide⟩) (mounted fun _ => ⟨0, 0⟩)
      [.create 0 ⟨0, 0⟩ (fun _ => 1) [97] oRdwr,
        .write (some [1, 2, 3, 4, 5, 6]) 0 (fun _ => 0), .flush, .release, .open 1 2 oRdwr,
        .write (some [7, 8, 9]) 4 (fun _ => 0), .flush, .release, .open 2 2 oRdonly]).map (fun s =>
          (s.peers.session.map fun h => (h.rank, h.ino), s.flushed, extent (s.written 2))) =
      some (some (2, 2), false, 7) := by decide +kernel
  obtain ⟨s, hrun, hs⟩ := Option.map_eq_some_iff.mp hfacts
  obtain ⟨hsession, hs'⟩ := Prod.mk.inj hs
  obtain ⟨hflushed, hextent⟩ := Prod.mk.inj hs'
  obtain ⟨hand, hhand, hnames⟩ := Option.map_eq_some_iff.mp hsession
  obtain ⟨hrank, hino⟩ := Prod.mk.inj hnames
  obtain ⟨-, hbytes⟩ := (read_acrossPeers _ _ _ hok hrun).2 hand hhand hflushed
  rw [hrank, hino, hextent] at hbytes
  obtain ⟨bytes, hreply, hlength, -⟩ := hbytes 3 4 (by decide)
  exact ⟨s, bytes, hrun, hreply, hlength⟩

end Shared

end PeerToPeer

end DagonFs
