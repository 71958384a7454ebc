import DagonFs.PeerToPeer.Messages
import DagonFs.Lib.Runs

/-!
# The peer-to-peer protocol

The messages in flight and the two threads of every peer.  The FUSE thread starts requests and carries
out their actions one after another.  The MPI thread runs `DistributedCode::start`: it receives a
header from any rank, then its body from any rank, then serves the request.

An `Event` says which thread takes its next step, and from which sender a receive takes the oldest
message.  A collective does not wait for the other ranks, and the operation that a namespace request
repeats is a request of the peer's own kernel, so that the threads are not held back by either: the
model has every order of the program's steps.

Each peer records the collectives it has entered and what it has received.
-/

namespace DagonFs.PeerToPeer

/-- Where the MPI thread is. -/
inductive MpiThread where
  /-- In the loop: the collectives left of the request that it serves; then it waits for a header. -/
  | running (calls : List CollectiveCall)
  /-- It has received a header from `source`, and waits for a body. -/
  | waiting (type : RequestType) (source origin : ℕ)
  | terminated
  /-- It took a body for a header, or for a body what its handler does not expect. -/
  | undefined
  deriving DecidableEq

/-- A message with the state of the MPI thread that received it. -/
structure Receipt where
  thread : MpiThread
  source : ℕ
  message : Message
  deriving DecidableEq

/-- The whole program: the messages in flight, and the peers. -/
structure Network where
  /-- The messages from one rank to another, oldest first. -/
  channel : ℕ → ℕ → List Message
  /-- What is left of the request of a FUSE thread. -/
  fuseThread : ℕ → List Action
  mpiThread : ℕ → MpiThread
  /-- The requests that a rank has started. -/
  requests : ℕ → List Request
  entered : ℕ → List CollectiveCall
  receipts : ℕ → List Receipt

inductive Event where
  | start (rank : ℕ) (request : Request)
  | fuse (rank : ℕ)
  | receive (rank source : ℕ)
  | serve (rank : ℕ)

/-- What the MPI thread of `rank` does with a message from `source`; `none` when it does not receive. -/
def MpiThread.receive (L : Launch) (rank source : ℕ) (m : Message) : MpiThread → Option MpiThread
  | .running [] =>
    match m.content with
    | .header type =>
      if type = .terminate then some .terminated
      -- `if (mpiRank != status.MPI_SOURCE)`
      else if source = rank then some (.running [])
      else some (.waiting type source m.origin)
    | .body _ => some .undefined
  | .waiting type _ _ =>
    match m.content with
    | .header _ => some .undefined
    | .body body =>
      -- the sender of the body is the source of the operation
      if body.fits type then some (.running (DistributedCode.serve L source rank type body))
      else some .undefined
  | _ => none

namespace Network

def initial : Network := ⟨fun _ _ => [], fun _ => [], fun _ => .running [], fun _ => [], fun _ => [],
  fun _ => []⟩

def setChannel (s : Network) (source destination : ℕ) (messages : List Message) : Network :=
  let row := Function.update (s.channel source) destination messages
  { s with channel := Function.update s.channel source row }

/-- A message goes to the end of its channel. -/
def post (s : Network) (source destination : ℕ) (m : Message) : Network :=
  s.setChannel source destination (s.channel source destination ++ [m])

def setFuse (s : Network) (rank : ℕ) (actions : List Action) : Network :=
  { s with fuseThread := Function.update s.fuseThread rank actions }

def setMpi (s : Network) (rank : ℕ) (thread : MpiThread) : Network :=
  { s with mpiThread := Function.update s.mpiThread rank thread }

def enter (s : Network) (rank : ℕ) (call : CollectiveCall) : Network :=
  { s with entered := Function.update s.entered rank (s.entered rank ++ [call]) }

def logReceipt (s : Network) (rank : ℕ) (r : Receipt) : Network :=
  { s with receipts := Function.update s.receipts rank (s.receipts rank ++ [r]) }

def addRequest (s : Network) (rank : ℕ) (r : Request) : Network :=
  { s with requests := Function.update s.requests rank (s.requests rank ++ [r]) }

/-- The FUSE thread of a rank takes up a request. -/
def startRequest (L : Launch) (s : Network) (rank : ℕ) (request : Request) : Network :=
  (s.addRequest rank request).setFuse rank (request.program L rank (s.requests rank).length)

/-- One step; `none` when the thread cannot take it, or its behaviour is undefined.  The paths of a request
are short enough for its receivers to find their ends. -/
def step (L : Launch) (s : Network) : Event → Option Network
  | .start rank request =>
    if rank < L.mpiWorldSize ∧ request.NulTerminated then
      match s.fuseThread rank with
      | [] => some (s.startRequest L rank request)
      | _ => none
    else none
  | .fuse rank =>
    match s.fuseThread rank with
    | [] => none
    | .send destination m :: rest => some ((s.post rank destination m).setFuse rank rest)
    | .enter call :: rest => some ((s.enter rank call).setFuse rank rest)
  | .receive rank source =>
    match s.channel source rank with
    | [] => none
    | m :: rest =>
      ((s.mpiThread rank).receive L rank source m).map fun thread =>
        ((s.setChannel source rank rest).setMpi rank thread).logReceipt rank ⟨s.mpiThread rank, source, m⟩
  | .serve rank =>
    match s.mpiThread rank with
    | .running (call :: rest) => some ((s.enter rank call).setMpi rank (.running rest))
    | _ => none

/-! ### What a step does -/

variable {L : Launch} {s s' : Network} {rank source : ℕ}

theorem step_start {request : Request} (h : step L s (.start rank request) = some s') :
    rank < L.mpiWorldSize ∧ s.fuseThread rank = [] ∧ s' = s.startRequest L rank request := by
  simp only [step] at h
  split at h
  · rename_i hstart
    split at h
    · rename_i hidle
      exact ⟨hstart.1, hidle, (Option.some.inj h).symm⟩
    · cases h
  · cases h

theorem step_fuse (h : step L s (.fuse rank) = some s') :
    (∃ destination m rest, s.fuseThread rank = .send destination m :: rest ∧
      s' = (s.post rank destination m).setFuse rank rest) ∨
    ∃ call rest, s.fuseThread rank = .enter call :: rest ∧
      s' = (s.enter rank call).setFuse rank rest := by
  simp only [step] at h
  split at h
  · cases h
  · rename_i destination m rest hfuse
    exact Or.inl ⟨destination, m, rest, hfuse, (Option.some.inj h).symm⟩
  · rename_i call rest hfuse
    exact Or.inr ⟨call, rest, hfuse, (Option.some.inj h).symm⟩

theorem step_receive (h : step L s (.receive rank source) = some s') :
    ∃ m rest thread, s.channel source rank = m :: rest ∧
      (s.mpiThread rank).receive L rank source m = some thread ∧
      s' = ((s.setChannel source rank rest).setMpi rank thread).logReceipt rank
        ⟨s.mpiThread rank, source, m⟩ := by
  simp only [step] at h
  split at h
  · cases h
  · rename_i m rest hchannel
    obtain ⟨thread, hthread, hs'⟩ := Option.map_eq_some_iff.mp h
    exact ⟨m, rest, thread, hchannel, hthread, hs'.symm⟩

theorem step_serve (h : step L s (.serve rank) = some s') :
    ∃ call rest, s.mpiThread rank = .running (call :: rest) ∧
      s' = (s.enter rank call).setMpi rank (.running rest) := by
  simp only [step] at h
  split at h
  · rename_i call rest hmpi
    exact ⟨call, rest, hmpi, (Option.some.inj h).symm⟩
  · cases h

/-! ### What is on the way -/

/-- The messages from one rank to another that are not received yet, sent or still to be sent. -/
def stream (s : Network) (source rank : ℕ) : List Message :=
  s.channel source rank ++ sendsTo rank (s.fuseThread source)

theorem stream_start (L : Launch) (request : Request) (hidle : s.fuseThread rank = []) (q p : ℕ) :
    (s.startRequest L rank request).stream q p =
      s.stream q p ++
        if q = rank then request.messages L rank (s.requests rank).length p else [] := by
  by_cases hq : q = rank
  · subst hq
    simp [stream, startRequest, setFuse, addRequest, hidle, sendsTo, sendsTo_program]
  · simp [stream, startRequest, setFuse, addRequest, hq]

theorem requests_start (L : Launch) (s : Network) (rank : ℕ) (request : Request) :
    (∀ q, s.requests q <+: (s.startRequest L rank request).requests q) ∧
      ((s.startRequest L rank request).requests rank)[(s.requests rank).length]? = some request := by
  refine ⟨fun q => ?_, by simp [startRequest, setFuse, addRequest]⟩
  by_cases hq : q = rank
  · subst hq
    simp [startRequest, setFuse, addRequest]
  · simp [startRequest, setFuse, addRequest, hq]

theorem stream_send {destination : ℕ} {m : Message} {rest : List Action}
    (hfuse : s.fuseThread rank = .send destination m :: rest) (q p : ℕ) :
    ((s.post rank destination m).setFuse rank rest).stream q p = s.stream q p := by
  by_cases hq : q = rank
  · subst hq
    by_cases hp : p = destination
    · subst hp
      simp [stream, post, setChannel, setFuse, hfuse, sendsTo]
    · simp [stream, post, setChannel, setFuse, hfuse, sendsTo, hp, Ne.symm hp]
  · simp [stream, post, setChannel, setFuse, hq]

theorem stream_enter {call : CollectiveCall} {rest : List Action}
    (hfuse : s.fuseThread rank = .enter call :: rest) (q p : ℕ) :
    ((s.enter rank call).setFuse rank rest).stream q p = s.stream q p := by
  by_cases hq : q = rank
  · subst hq
    simp [stream, enter, setFuse, hfuse, sendsTo]
  · simp [stream, enter, setFuse, hq]

theorem stream_receive {m : Message} {rest : List Message} (thread : MpiThread) (r : Receipt)
    (hchannel : s.channel source rank = m :: rest) :
    let s' := ((s.setChannel source rank rest).setMpi rank thread).logReceipt rank r
    s.stream source rank = m :: s'.stream source rank ∧
      ∀ q p, q ≠ source ∨ p ≠ rank → s'.stream q p = s.stream q p := by
  refine ⟨?_, fun q p hne => ?_⟩
  · simp [stream, setChannel, setMpi, logReceipt, hchannel]
  · by_cases hq : q = source
    · subst hq
      have hp : p ≠ rank := hne.resolve_left fun h => h rfl
      simp [stream, setChannel, setMpi, logReceipt, hp]
    · simp [stream, setChannel, setMpi, logReceipt, hq]

end Network

end DagonFs.PeerToPeer
