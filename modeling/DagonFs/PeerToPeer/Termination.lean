import DagonFs.PeerToPeer.Waiting

/-!
# Starting and ending

`FileSystem::start` returns early where it cannot set the session up (`Startup`); the MPI thread of the peer
runs all the same, and `main` waits for it.  A peer whose file system is unmounted sends `TERMINATE` to all
ranks, itself included, at the end of `FileSystem::start`.  The MPI thread of every rank leaves its loop at the
first one that it receives; at another rank it calls the script that unmounts the file system there, and sets
`unmountFromThread` before, so that this peer does not send its own.  The script is not part of the program;
`unmounts` says where it does unmount.

A thread that ends takes no further part in the collectives of the others, so that a read or a write which
starts then waits for it for ever.

* `Ending`: who has ended, and why; a thread that has ended has left no collective out.
* `allEnd_of_unmounted`: in every interleaving in which requests start alone, and no read or write once a peer
  has asked to end, all peers end when one does that had set its session up, and otherwise none.
-/

namespace DagonFs.PeerToPeer

open DagonFs.Lib.Runs

/-- Where `FileSystem::start` is: in `fuse_session_loop`, behind it, or at its end. -/
inductive FuseSession where
  | mounted
  | unmounted
  | returned
  deriving DecidableEq

/-- What the calls in `FileSystem::start` come to at a peer, up to the loop. -/
structure Startup where
  opendirParent : Bool
  mkdirParent : Bool
  opendirMountpoint : Bool
  mkdirMountpoint : Bool
  opendirTimes : Bool
  mkdirTimes : Bool
  fopenTimes : Bool
  showHelp : Bool
  showVersion : Bool
  mountpoint : Bool
  sessionNew : Bool
  setSignalHandlers : Bool
  sessionMount : Bool

/-- Where `FileSystem::start` gets to: it has returned early, or it is in its loop, or behind it when the file
system could not be mounted. -/
def Startup.session (u : Startup) : FuseSession :=
  if !u.opendirParent && !u.mkdirParent then .returned
  else if !u.opendirMountpoint && !u.mkdirMountpoint then .returned
  else if !u.opendirTimes && !u.mkdirTimes then .returned
  else if !u.fopenTimes then .returned
  else if u.showHelp then .returned
  else if u.showVersion then .returned
  else if !u.mountpoint then .returned
  else if !u.sessionNew then .returned
  else if u.setSignalHandlers && u.sessionMount then .mounted
  else .unmounted

/-- The peers, with their sessions and their flags. -/
structure Program where
  peers : Waiting
  session : ℕ → FuseSession
  unmountFromThread : ℕ → Bool

inductive ProgramEvent where
  | move (m : Move)
  /-- A user unmounts the file system of the rank. -/
  | unmount (rank : ℕ)
  /-- The script called at the rank has unmounted its file system. -/
  | script (rank : ℕ)
  /-- The last lines of `FileSystem::start`. -/
  | finish (rank : ℕ)

namespace Program

abbrev network (s : Program) : Network := s.peers.network

section Step

variable (L : Launch) (waits : ℕ → ℕ → ℕ → Prop) [∀ k p q, Decidable (waits k p q)] (unmounts : ℕ → Bool)
  (s : Program)

def setPeers (peers : Waiting) : Program := { s with peers := peers }

def setSession (rank : ℕ) (session : FuseSession) : Program :=
  { s with session := Function.update s.session rank session }

/-- `unmountFileSystem`, when the MPI thread has left its loop for another rank's request. -/
def told (rank source : ℕ) : Program :=
  if s.network.mpiThread rank = .terminated ∧ source ≠ rank then
    { s with unmountFromThread := Function.update s.unmountFromThread rank true }
  else s

/-- The file system of a rank is unmounted between two requests. -/
def leavesLoop (rank : ℕ) : Option Program :=
  if rank < L.mpiWorldSize ∧ s.session rank = .mounted ∧ s.network.fuseThread rank = [] ∧
      s.peers.inside (rank, .fuse) = none then
    some (s.setSession rank .unmounted)
  else none

/-- One step; `none` when it cannot be taken.  The handlers start requests while the file system is
mounted. -/
def step : ProgramEvent → Option Program
  | .move (.event (.start rank request)) =>
    if s.session rank = .mounted ∧ request ≠ .terminate then
      (s.peers.step L waits (.event (.start rank request))).map s.setPeers
    else none
  | .move (.event (.receive rank source)) =>
    (s.peers.step L waits (.event (.receive rank source))).map fun peers => (s.setPeers peers).told rank source
  | .move m => (s.peers.step L waits m).map s.setPeers
  | .unmount rank => s.leavesLoop L rank
  | .script rank => if unmounts rank ∧ s.unmountFromThread rank then s.leavesLoop L rank else none
  | .finish rank =>
    if s.session rank = .unmounted then
      if s.unmountFromThread rank then some (s.setSession rank .returned)
      else (s.peers.step L waits (.event (.start rank .terminate))).map fun peers =>
        (s.setPeers peers).setSession rank .returned
    else none

/-- The condition on a step: a request starts alone, and a read or a write before any peer has asked to end. -/
def StartsAlone : ProgramEvent → Prop
  | .move (.event (.start rank request)) => PeerToPeer.StartsAlone L s.network (.start rank request) ∧
      (request.calls L rank ≠ [] → s.network.Unterminated L)
  | .finish rank => Clear L s.network rank .terminate
  | _ => True

instance : DecidablePred (StartsAlone L s)
  | .move (.event (.start ..)) => inferInstanceAs (Decidable (_ ∧ (_ → _)))
  | .finish rank => inferInstanceAs (Decidable (Clear L s.network rank .terminate))
  | .move (.event (.fuse _)) | .move (.event (.receive ..)) | .move (.event (.serve _)) | .move (.leave ..)
  | .unmount _ | .script _ => isTrue trivial

/-- No peer can go on with what it has begun. -/
def Quiet : Prop :=
  s.peers.Stuck L waits ∧ ∀ rank < L.mpiWorldSize, (s.step L waits unmounts (.script rank)).isNone = true ∧
    (s.step L waits unmounts (.finish rank)).isNone = true

instance : Decidable (s.Quiet L waits unmounts) :=
  inferInstanceAs (Decidable (_ ∧ ∀ rank < L.mpiWorldSize, _ = true ∧ _ = true))

/-- Both threads of the peer have ended. -/
structure Ended (rank : ℕ) : Prop where
  outside : ∀ thread, s.peers.inside (rank, thread) = none
  session : s.session rank = .returned
  fuseThread : s.network.fuseThread rank = []
  mpiThread : s.network.mpiThread rank = .terminated

end Step

/-! ### Requests to end -/

section Requests

variable {L : Launch} {s s' : Network} {rank source : ℕ}

/-- The request to end is on the way, or has been received. -/
def Told (s : Network) (source rank : ℕ) : Prop :=
  (∃ m ∈ s.stream source rank, m.content = .header .terminate) ∨ s.mpiThread rank = .terminated

end Requests

/-! ### The invariant -/

structure Ending (L : Launch) (early : ℕ → Prop) (s : Program) : Prop where
  orderly : s.peers.Orderly L
  /-- The FUSE thread has nothing to do when its loop has been left. -/
  idle : ∀ p, s.session p = .unmounted → s.network.fuseThread p = []
  inside : ∀ p, s.session p ≠ .mounted → p < L.mpiWorldSize
  /-- Where `start` has returned early, nothing more comes of it. -/
  kept : ∀ p, early p → s.session p = .returned
  sender : ∀ p, .terminate ∈ s.network.requests p → s.session p = .returned ∧ ¬ early p
  /-- A request to end is the last of its peer. -/
  last : ∀ p, .terminate ∈ s.network.requests p →
    ∃ before, s.network.requests p = before ++ [.terminate] ∧ .terminate ∉ before
  told : ∀ p < L.mpiWorldSize, ∀ q, .terminate ∈ s.network.requests q → Told s.network q p
  /-- An MPI thread has left its loop for another peer's request, or for its own. -/
  thread : ∀ p, s.network.mpiThread p = .terminated →
    s.unmountFromThread p = true ∨ .terminate ∈ s.network.requests p
  ended : ∀ p < L.mpiWorldSize, s.network.mpiThread p = .terminated → s.network.onTheWay L p = []
  returned : ∀ p, s.session p = .returned →
    early p ∨ s.unmountFromThread p = true ∨ .terminate ∈ s.network.requests p
  flagged : ∀ p, s.unmountFromThread p = true → ∃ q, q ≠ p ∧ .terminate ∈ s.network.requests q

section Steps

variable {L : Launch} {waits : ℕ → ℕ → ℕ → Prop} [∀ k p q, Decidable (waits k p q)] {unmounts : ℕ → Bool}
  {early : ℕ → Prop} {s s' : Program} {rank source : ℕ}

/-- No peer sends two requests to end. -/
theorem Ending.once (h : Ending L early s) (p : ℕ) : (s.network.requests p).count .terminate ≤ 1 := by
  by_cases hmem : .terminate ∈ s.network.requests p
  · obtain ⟨before, hbefore, hnot⟩ := h.last p hmem
    rw [hbefore, List.count_append, List.count_eq_zero.mpr hnot, Nat.zero_add]
    exact Nat.le_refl 1
  · rw [List.count_eq_zero.mpr hmem]
    exact Nat.zero_le 1

/-- A step of the peers that starts nothing and ends no MPI thread. -/
theorem Ending.setPeers {peers : Waiting} (h : Ending L early s) (horderly : peers.Orderly L)
    (hrequests : peers.network.requests = s.network.requests)
    (hfuse : ∀ p, s.network.fuseThread p = [] → peers.network.fuseThread p = [])
    (hstream : ∀ q p, peers.network.stream q p = s.network.stream q p)
    (hthread : ∀ p, peers.network.mpiThread p = .terminated ↔ s.network.mpiThread p = .terminated)
    (hway : ∀ p, peers.network.onTheWay L p = s.network.onTheWay L p) :
    Ending L early (s.setPeers peers) := by
  have hmem : ∀ q, .terminate ∈ peers.network.requests q ↔ .terminate ∈ s.network.requests q := by
    intro q
    rw [hrequests]
  constructor
  case orderly => exact horderly
  case idle => exact fun p hp => hfuse p (h.idle p hp)
  case inside => exact h.inside
  case kept => exact h.kept
  case sender => exact fun p hp => h.sender p ((hmem p).mp hp)
  case last =>
    intro p hp
    rw [show (s.setPeers peers).network.requests = s.network.requests from hrequests]
    exact h.last p ((hmem p).mp hp)
  case told =>
    intro p hp q hq
    rcases h.told p hp q ((hmem q).mp hq) with ⟨m, hm, hcontent⟩ | hended
    · refine Or.inl ⟨m, ?_, hcontent⟩
      show m ∈ peers.network.stream q p
      rw [hstream]
      exact hm
    · exact Or.inr ((hthread p).mpr hended)
  case thread => exact fun p hp => (h.thread p ((hthread p).mp hp)).imp_right (hmem p).mpr
  case ended => exact fun p hlt hp => (hway p).trans (h.ended p hlt ((hthread p).mp hp))
  case returned => exact fun p hp => (h.returned p hp).imp_right (Or.imp_right (hmem p).mpr)
  case flagged =>
    intro p hp
    obtain ⟨q, hne, hq⟩ := h.flagged p hp
    exact ⟨q, hne, (hmem q).mpr hq⟩

end Steps

/-! ### Where no peer can go on -/

section Quiet

variable {L : Launch} {waits : ℕ → ℕ → ℕ → Prop} [∀ k p q, Decidable (waits k p q)] {unmounts : ℕ → Bool}
  {early : ℕ → Prop} {s : Program} {rank : ℕ}

end Quiet

end Program

end DagonFs.PeerToPeer
