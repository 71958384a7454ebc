import DagonFs.PeerToPeer.Framing

/-!
# Every request reaches every other peer once

What the MPI threads have taken up of the requests of the others, read off what they have received
(`handledFrom`), against the requests that were started.

* `Delivering`: the requests of a peer are those that another has handled, in their order, and then those
  that are on the way to it.
* `delivering_run`: this lasts while every start is clear.
* `exactlyOnce_of_startsClear`: so nothing is lost, repeated or overtaken, and where no thread can go on,
  everything has been handled.
-/

namespace DagonFs.PeerToPeer

open DagonFs.Lib.Runs

/-- What a request tells the other peers: the header, and the body that goes with it. -/
def Request.announced (r : Request) : RequestType × Option Body := (r.type, r.body)

/-- The sender and the request that an MPI thread has complete with a receipt.  A header from another rank
is only the first part of a request, unless it is the one that ends the program. -/
def Receipt.handles (r : Receipt) : Option (ℕ × RequestType × Option Body) :=
  match r.thread, r.message.content with
  | .waiting type source _, .body body => some (source, type, some body)
  | .running [], .header .terminate => some (r.source, .terminate, none)
  | _, _ => none

/-- The requests of `source` among some receipts. -/
def handledOf (source : ℕ) (receipts : List Receipt) : List (RequestType × Option Body) :=
  receipts.filterMap fun r => r.handles.bind fun h => if h.1 = source then some h.2 else none

/-- The requests in a stream of messages. -/
def announcements : List Message → List (RequestType × Option Body)
  | ⟨_, .header type⟩ :: ⟨_, .body body⟩ :: ms => (type, some body) :: announcements ms
  | ⟨_, .header type⟩ :: ms => (type, none) :: announcements ms
  | _ :: ms => announcements ms
  | [] => []

namespace Network

/-- The requests of `source` that the MPI thread of `rank` has taken up. -/
def handledFrom (s : Network) (rank source : ℕ) : List (RequestType × Option Body) :=
  handledOf source (s.receipts rank)

/-- No thread can go on with what it has begun, where no collective holds it back. -/
def Quiet (L : Launch) (s : Network) : Prop :=
  ∀ rank < L.mpiWorldSize, ∀ source < L.mpiWorldSize, s.step L (.fuse rank) = none ∧
    s.step L (.receive rank source) = none ∧ s.step L (.serve rank) = none

instance (L : Launch) (s : Network) : Decidable (s.Quiet L) :=
  inferInstanceAs (Decidable (∀ rank < L.mpiWorldSize, ∀ source < L.mpiWorldSize, _ ∧ _ ∧ _))

/-- No peer has ended the program. -/
def Unterminated (L : Launch) (s : Network) : Prop :=
  ∀ rank < L.mpiWorldSize, Request.terminate ∉ s.requests rank

instance (L : Launch) (s : Network) : Decidable (s.Unterminated L) :=
  inferInstanceAs (Decidable (∀ rank < L.mpiWorldSize, _ ∉ _))

end Network

/-! ### Streams -/

section Streams

variable {requests : List Request} {source rank : ℕ} {ms ms' : List Message}

theorem announcements_header (h : Frames requests source rank ms) (o : ℕ) (type : RequestType) :
    announcements (⟨o, .header type⟩ :: ms) = (type, none) :: announcements ms := by
  cases h <;> simp [announcements]

theorem announcements_append (h : Frames requests source rank ms) (h' : Frames requests source rank ms') :
    announcements (ms ++ ms') = announcements ms ++ announcements ms' := by
  induction h with
  | nil => rfl
  | lone hr hlone hms ih =>
    rw [List.cons_append, announcements_header (frames_append hms h'), announcements_header hms, ih,
      List.cons_append]
  | pair hr hb hne hms ih => simp only [List.cons_append, announcements, ih]

/-- A request sends one announcement to each of the other ranks. -/
theorem announcements_messages (L : Launch) (r : Request) (source o : ℕ) (hrank : rank < L.mpiWorldSize)
    (hne : source ≠ rank) : announcements (r.messages L source o rank) = [r.announced] := by
  have hself : rank ≠ source := Ne.symm hne
  cases r <;>
    simp [Request.messages, Request.isIO, Request.body, Request.type, Request.announced, hrank, hself,
      announcements]

/-- A stream of requests does not begin with a body. -/
theorem not_frames_body {o : ℕ} {b : Body} : ¬ Frames requests source rank (⟨o, .body b⟩ :: ms) := by
  intro h
  cases h

/-- A header that ends the program is one of a request that does. -/
theorem terminate_mem_of_frames {o : ℕ} {type : RequestType} (htype : type = .terminate)
    (h : Frames requests source rank (⟨o, .header type⟩ :: ms)) : .terminate ∈ requests := by
  obtain ⟨r, hr, hrtype⟩ : ∃ r, requests[o]? = some r ∧ r.type = type := by
    cases h with
    | lone hr => exact ⟨_, hr, rfl⟩
    | pair hr => exact ⟨_, hr, rfl⟩
  rw [← Request.eq_terminate (hrtype.trans htype)]
  exact List.mem_of_getElem? hr

/-- A header with no body behind it, from another rank, ends the program. -/
theorem terminate_of_lone {o : ℕ} {type : RequestType} (hne : source ≠ rank)
    (h : Frames requests source rank (⟨o, .header type⟩ :: ms)) (hms : Frames requests source rank ms) :
    type = .terminate := by
  cases h with
  | lone hr hlone => exact Request.type_eq_terminate (hlone.resolve_right hne)
  | pair => exact absurd hms not_frames_body

theorem handledOf_append (q : ℕ) (rs rs' : List Receipt) :
    handledOf q (rs ++ rs') = handledOf q rs ++ handledOf q rs' := List.filterMap_append ..

theorem handledOf_none {r : Receipt} (h : r.handles = none) (q : ℕ) : handledOf q [r] = [] := by
  simp [handledOf, h]

theorem handledOf_some {r : Receipt} {source : ℕ} {a : RequestType × Option Body}
    (h : r.handles = some (source, a)) (q : ℕ) : handledOf q [r] = if source = q then [a] else [] := by
  by_cases hq : source = q <;> simp [handledOf, h, hq]

end Streams

/-! ### The invariant -/

structure Delivering (L : Launch) (s : Network) : Prop where
  framed : Framed L s
  /-- Handled, then on the way. -/
  sequence : ∀ p < L.mpiWorldSize, ∀ q < L.mpiWorldSize, q ≠ p →
    s.handledFrom p q ++ announcements (s.whole q p) = (s.requests q).map Request.announced
  /-- An MPI thread that has ended has been told so. -/
  terminated : ∀ p, s.mpiThread p = .terminated → ∃ q < L.mpiWorldSize, .terminate ∈ s.requests q
  defined : ∀ p, s.mpiThread p ≠ .undefined

theorem delivering_initial (L : Launch) : Delivering L Network.initial where
  framed := framed_initial L
  sequence _ _ _ _ _ := rfl
  terminated _ h := by cases h
  defined _ h := by cases h

section Steps

variable {L : Launch} {s s' : Network} {rank source : ℕ}

theorem delivering_start {request : Request} (h : Delivering L s) (hclear : Clear L s rank request)
    (hrank : rank < L.mpiWorldSize) (hidle : s.fuseThread rank = []) :
    Delivering L (s.startRequest L rank request) := by
  obtain ⟨hmore, hnew⟩ := Network.requests_start L s rank request
  constructor
  case framed => exact framed_start h.framed hclear hrank hidle
  case sequence =>
    intro p hp q hq hne
    have hsame : (s.startRequest L rank request).handledFrom p q = s.handledFrom p q := rfl
    rw [Network.whole_start hidle, hsame]
    by_cases hself : q = rank
    · subst hself
      have hrequests : (s.startRequest L q request).requests q = s.requests q ++ [request] := by
        simp [Network.startRequest, Network.setFuse, Network.addRequest]
      have hold := frames_mono (hmore q) (h.framed.frames q p)
      rw [if_pos rfl, announcements_append hold (frames_messages L hnew q p),
        announcements_messages L request q _ hp hne, ← List.append_assoc, h.sequence p hp q hq hne,
        hrequests, List.map_append, List.map_singleton]
    · have hrequests : (s.startRequest L rank request).requests q = s.requests q := by
        simp [Network.startRequest, Network.setFuse, Network.addRequest, hself]
      rw [if_neg hself, List.append_nil, hrequests]
      exact h.sequence p hp q hq hne
  case terminated =>
    intro p hp
    obtain ⟨q, hq, hmem⟩ := h.terminated p hp
    exact ⟨q, hq, (hmore q).subset hmem⟩
  case defined => exact h.defined

/-- What a receive adds to what its rank has handled: the announcement that has come to its end, if any. -/
theorem handled_receive (h : Delivering L s) (hne : source ≠ rank)
    (hstep : s.step L (.receive rank source) = some s') :
    ∃ new, (∀ q, s'.handledFrom rank q = s.handledFrom rank q ++ if q = source then new else []) ∧
      announcements (s.whole source rank) = new ++ announcements (s'.whole source rank) := by
  obtain ⟨hframe, hreceived, -⟩ := receive_spec h.framed hstep
  obtain ⟨m, rest, thread, hchannel, hthread, hs'⟩ := Network.step_receive hstep
  have hmpi'' : s'.mpiThread rank = thread := by
    rw [hs']
    exact Function.update_self ..
  have hreceipts : s'.receipts rank = s.receipts rank ++ [⟨s.mpiThread rank, source, m⟩] := by
    rw [hs']
    exact Function.update_self ..
  have hstream : s.stream source rank = m :: s'.stream source rank := by
    rw [hs']
    exact (Network.stream_receive thread ⟨s.mpiThread rank, source, m⟩ hchannel).1
  have hadd : ∀ q, s'.handledFrom rank q =
      s.handledFrom rank q ++ handledOf q [⟨s.mpiThread rank, source, m⟩] := by
    intro q
    rw [Network.handledFrom, hreceipts, handledOf_append]
    rfl
  cases hreceived with
  | @lone o r hmpi hmpi' hwhole hframes =>
    have hfirst := h.framed.frames source rank
    rw [hwhole] at hfirst
    have hterm := terminate_of_lone hne hfirst hframes
    have hm : m = ⟨o, .header r.type⟩ := by
      rw [Network.whole, hmpi, hstream] at hwhole
      exact (List.cons.inj hwhole).1
    have hhandles : Receipt.handles ⟨s.mpiThread rank, source, m⟩ = some (source, .terminate, none) := by
      rw [hmpi, hm, hterm]
      rfl
    refine ⟨[(.terminate, none)], ?_, ?_⟩
    · intro q
      rw [hadd, handledOf_some hhandles]
      simp only [eq_comm]
    · rw [hwhole, announcements_header hframes, hterm]
      rfl
  | @header o r b hmpi hmpi' _ _ hwhole =>
    have hhandles : Receipt.handles ⟨s.mpiThread rank, source, m⟩ = none := by
      rw [hmpi] at hthread ⊢
      rw [hmpi''] at hmpi'
      subst hmpi'
      obtain ⟨origin, content⟩ := m
      cases content with
      | header type =>
        cases type with
        | terminate => cases hthread
        | _ => rfl
      | body body => rfl
    refine ⟨[], ?_, ?_⟩
    · intro q
      rw [hadd, handledOf_none hhandles, ite_self]
    · rw [hwhole]
      rfl
  | @body o r b hmpi hmpi' _ hwhole _ =>
    have hm : m = ⟨o, .body b⟩ := by
      have hheld : s.whole source rank = ⟨o, .header r.type⟩ :: m :: s'.stream source rank := by
        simp [Network.whole, hmpi, MpiThread.heldHeader, hstream]
      rw [hheld] at hwhole
      exact (List.cons.inj (List.cons.inj hwhole).2).1
    have hhandles : Receipt.handles ⟨s.mpiThread rank, source, m⟩ = some (source, r.type, some b) := by
      rw [hmpi, hm]
      rfl
    refine ⟨[(r.type, some b)], ?_, ?_⟩
    · intro q
      rw [hadd, handledOf_some hhandles]
      simp only [eq_comm]
    · rw [hwhole]
      rfl

/-- A receive of a message that a rank has sent to itself is no receive from another one. -/
theorem handled_self (h : Delivering L s) (hstep : s.step L (.receive rank rank) = some s') {q : ℕ}
    (hq : q ≠ rank) : s'.handledFrom rank q = s.handledFrom rank q := by
  obtain ⟨m, rest, thread, -, hthread, hs'⟩ := Network.step_receive hstep
  have hreceipts : s'.receipts rank = s.receipts rank ++ [⟨s.mpiThread rank, rank, m⟩] := by
    rw [hs']
    exact Function.update_self ..
  rw [Network.handledFrom, hreceipts, handledOf_append]
  suffices hnone : handledOf q [⟨s.mpiThread rank, rank, m⟩] = [] by
    rw [hnone, List.append_nil]
    rfl
  obtain ⟨-, hreceived, -⟩ := receive_spec h.framed hstep
  cases hreceived with
  | lone hmpi _ _ _ =>
    rw [hmpi]
    obtain ⟨origin, content⟩ := m
    cases content with
    | header type => cases type <;> simp [handledOf, Receipt.handles, Ne.symm hq]
    | body body => rfl
  | header _ _ hne _ _ => exact absurd rfl hne
  | body hmpi _ _ _ _ => exact absurd rfl (h.framed.waiting rank _ _ _ hmpi).1

theorem lt_of_receive (h : Framed L s) (hstep : s.step L (.receive rank source) = some s') :
    source < L.mpiWorldSize := by
  obtain ⟨m, rest, thread, hchannel, -, -⟩ := Network.step_receive hstep
  by_contra hle
  have hstream := h.outside source rank (Nat.le_of_not_lt hle)
  rw [Network.stream, hchannel] at hstream
  cases hstream

/-- An MPI thread ends when it takes the header that ends the program. -/
theorem whole_of_terminated (h : Delivering L s) (hstep : s.step L (.receive rank source) = some s')
    (hterm : s'.mpiThread rank = .terminated) : ∃ o,
      s.whole source rank = ⟨o, .header .terminate⟩ :: s'.whole source rank ∧
      Frames (s.requests source) source rank (s'.whole source rank) := by
  obtain ⟨-, hreceived, -⟩ := receive_spec h.framed hstep
  obtain ⟨m, rest, thread, hchannel, hthread, hs'⟩ := Network.step_receive hstep
  have hthread' : thread = .terminated := by
    rw [hs'] at hterm
    exact (Function.update_self ..).symm.trans hterm
  have hstream : s.stream source rank = m :: s'.stream source rank := by
    rw [hs']
    exact (Network.stream_receive thread ⟨s.mpiThread rank, source, m⟩ hchannel).1
  cases hreceived with
  | @lone o r hmpi _ hwhole hframes =>
    have hm : m = ⟨o, .header r.type⟩ := by
      rw [Network.whole, hmpi, hstream] at hwhole
      exact (List.cons.inj hwhole).1
    have htype : r.type = .terminate := by
      by_contra hne
      rw [hmpi, hm, hthread'] at hthread
      simp only [MpiThread.receive, if_neg hne] at hthread
      split at hthread <;> cases hthread
    exact ⟨o, htype ▸ hwhole, hframes⟩
  | header _ hmpi' => rw [hmpi'] at hterm; cases hterm
  | body _ hmpi' => rw [hmpi'] at hterm; cases hterm

theorem terminate_of_receive (h : Delivering L s) (hstep : s.step L (.receive rank source) = some s')
    (hterm : s'.mpiThread rank = .terminated) : .terminate ∈ s.requests source := by
  obtain ⟨o, hwhole, -⟩ := whole_of_terminated h hstep hterm
  have hframes := h.framed.frames source rank
  rw [hwhole] at hframes
  exact terminate_mem_of_frames rfl hframes

theorem delivering_receive (h : Delivering L s) (hstep : s.step L (.receive rank source) = some s') :
    Delivering L s' := by
  obtain ⟨hframe, hreceived, -⟩ := receive_spec h.framed hstep
  have hreceipts : ∀ p, p ≠ rank → s'.receipts p = s.receipts p := by
    intro p hp
    obtain ⟨_, _, _, _, _, rfl⟩ := Network.step_receive hstep
    exact Function.update_of_ne hp ..
  constructor
  case framed => exact framed_receive h.framed hstep
  case sequence =>
    intro p hp q hq hne
    rw [hframe.requests, ← h.sequence p hp q hq hne]
    by_cases hprank : p = rank
    · subst hprank
      by_cases hsource : source = p
      · subst hsource
        rw [handled_self h hstep hne, hframe.whole q source (Or.inl hne)]
      · obtain ⟨new, hhandled, hannounced⟩ := handled_receive h hsource hstep
        rw [hhandled]
        by_cases hqs : q = source
        · subst hqs
          rw [if_pos rfl, hannounced, List.append_assoc]
        · rw [if_neg hqs, List.append_nil, hframe.whole q p (Or.inl hqs)]
    · rw [Network.handledFrom, hreceipts p hprank, hframe.whole q p (Or.inr hprank)]
      rfl
  case terminated =>
    intro p hterm
    rw [hframe.requests]
    by_cases hp : p = rank
    · subst hp
      exact ⟨source, lt_of_receive h.framed hstep, terminate_of_receive h hstep hterm⟩
    · rw [hframe.mpiThread p hp] at hterm
      exact h.terminated p hterm
  case defined =>
    intro p hundefined
    by_cases hp : p = rank
    · subst hp
      cases hreceived with
      | lone _ hmpi' => obtain hmpi' | hmpi' := hmpi' <;> rw [hmpi'] at hundefined <;> cases hundefined
      | header _ hmpi' => rw [hmpi'] at hundefined; cases hundefined
      | body _ hmpi' => rw [hmpi'] at hundefined; cases hundefined
    · rw [hframe.mpiThread p hp] at hundefined
      exact h.defined p hundefined

/-- The steps that receive nothing and start nothing. -/
theorem Delivering.congr (h : Delivering L s) (hframed : Framed L s') (hwhole : ∀ q p, s'.whole q p = s.whole q p)
    (hrequests : s'.requests = s.requests) (hreceipts : s'.receipts = s.receipts)
    (hrunning : ∀ p, s'.mpiThread p = s.mpiThread p ∨ ∃ calls, s'.mpiThread p = .running calls) :
    Delivering L s' where
  framed := hframed
  sequence p hp q hq hne := by
    rw [Network.handledFrom, hreceipts, hwhole, hrequests]
    exact h.sequence p hp q hq hne
  terminated p hterm := by
    rw [hrequests]
    rcases hrunning p with hsame | ⟨calls, hcalls⟩
    · exact h.terminated p (hsame ▸ hterm)
    · rw [hcalls] at hterm
      cases hterm
  defined p hundefined := by
    rcases hrunning p with hsame | ⟨calls, hcalls⟩
    · exact h.defined p (hsame ▸ hundefined)
    · rw [hcalls] at hundefined
      cases hundefined

theorem delivering_fuse (h : Delivering L s) (hstep : s.step L (.fuse rank) = some s') :
    Delivering L s' := by
  have hframed := framed_fuse h.framed hstep
  obtain ⟨destination, m, rest, hfuse, rfl⟩ | ⟨call, rest, hfuse, rfl⟩ := Network.step_fuse hstep
  · refine h.congr hframed (fun q p => ?_) rfl rfl fun _ => Or.inl rfl
    exact congrArg ((s.mpiThread p).heldHeader q ++ ·) (Network.stream_send hfuse q p)
  · refine h.congr hframed (fun q p => ?_) rfl rfl fun _ => Or.inl rfl
    exact congrArg ((s.mpiThread p).heldHeader q ++ ·) (Network.stream_enter hfuse q p)

theorem delivering_serve (h : Delivering L s) (hstep : s.step L (.serve rank) = some s') :
    Delivering L s' := by
  have hframed := framed_serve h.framed hstep
  obtain ⟨call, rest, hmpi, rfl⟩ := Network.step_serve hstep
  have hself : ((s.enter rank call).setMpi rank (.running rest)).mpiThread rank = .running rest :=
    Function.update_self ..
  have hother : ∀ p, p ≠ rank →
      ((s.enter rank call).setMpi rank (.running rest)).mpiThread p = s.mpiThread p :=
    fun p hp => Function.update_of_ne hp ..
  refine h.congr hframed (fun q p => ?_) rfl rfl fun p => ?_
  · show MpiThread.heldHeader _ q ++ s.stream q p = _
    by_cases hp : p = rank
    · subst hp
      rw [hself, Network.whole, hmpi]
      rfl
    · rw [hother p hp]
      rfl
  · by_cases hp : p = rank
    · exact Or.inr ⟨rest, hp ▸ hself⟩
    · exact Or.inl (hother p hp)

/-- **The step lemma.** -/
theorem delivering_step {e : Event} (h : Delivering L s) (hok : StartsClear L s e)
    (hstep : s.step L e = some s') : Delivering L s' := by
  cases e with
  | start rank request =>
    obtain ⟨hrank, hidle, rfl⟩ := Network.step_start hstep
    exact delivering_start h hok hrank hidle
  | fuse rank => exact delivering_fuse h hstep
  | receive rank source => exact delivering_receive h hstep
  | serve rank => exact delivering_serve h hstep

/-- The run lemma. -/
theorem delivering_run {events : List Event} (h : Delivering L s)
    (hclear : Along (Network.step L) (StartsClear L) s events)
    (hrun : run (Network.step L) s events = some s') : Delivering L s' :=
  invariant_run (fun _ _ _ h hok hstep => delivering_step h hok hstep) h hclear hrun

end Steps

/-! ### Where no thread can go on -/

section Quiet

variable {L : Launch} {s : Network}

/-- Nothing is left in the FUSE threads. -/
theorem fuseThread_of_quiet (hquiet : s.Quiet L) {rank : ℕ} (hrank : rank < L.mpiWorldSize) :
    s.fuseThread rank = [] := by
  have hfuse := (hquiet rank hrank 0 L.worldSize_pos).1
  simp only [Network.step] at hfuse
  split at hfuse
  · assumption
  · cases hfuse
  · cases hfuse

/-- A rank to which all messages are sent, and that can neither receive nor serve, has nothing on the way to
it, and is in its loop, unless it has been ended. -/
theorem whole_of_idle (h : Delivering L s) {p : ℕ}
    (hsent : ∀ q < L.mpiWorldSize, sendsTo p (s.fuseThread q) = [])
    (hreceive : ∀ q < L.mpiWorldSize, s.step L (.receive p q) = none) (hserve : s.step L (.serve p) = none)
    (hrunning : s.mpiThread p ≠ .terminated) : s.mpiThread p = .running [] ∧ ∀ q, s.whole q p = [] := by
  -- a message on the way is in its channel, and cannot be received
  have hstuck : ∀ q m ms, s.stream q p = m :: ms → (s.mpiThread p).receive L p q m = none := by
    intro q m ms hstream
    have hq : q < L.mpiWorldSize := by
      by_contra hle
      rw [h.framed.outside q p (Nat.le_of_not_lt hle)] at hstream
      cases hstream
    rw [Network.stream, hsent q hq, List.append_nil] at hstream
    have hnone := hreceive q hq
    simp only [Network.step, hstream, Option.map_eq_none_iff] at hnone
    exact hnone
  cases hmpi : s.mpiThread p with
  | terminated => exact absurd hmpi hrunning
  | undefined => exact absurd hmpi (h.defined p)
  | waiting type source o =>
    -- the body of the header that the thread waits with is still to come, and can be received
    exfalso
    obtain ⟨hne, htype⟩ := h.framed.waiting p type source o hmpi
    have hframes := h.framed.frames source p
    have hwhole : s.whole source p = ⟨o, .header type⟩ :: s.stream source p := by
      rw [Network.whole, hmpi, MpiThread.heldHeader, if_pos rfl]
      rfl
    rw [hwhole] at hframes
    cases hstream : s.stream source p with
    | nil =>
      rw [hstream] at hframes
      exact htype (terminate_of_lone hne hframes .nil)
    | cons m ms =>
      have hnone := hstuck source m ms hstream
      rw [hmpi] at hnone
      simp only [MpiThread.receive] at hnone
      split at hnone
      · cases hnone
      · split at hnone <;> cases hnone
  | running calls =>
    cases calls with
    | cons call calls =>
      simp only [Network.step, hmpi] at hserve
      cases hserve
    | nil =>
      refine ⟨rfl, fun q => ?_⟩
      rw [Network.whole, hmpi]
      cases hstream : s.stream q p with
      | nil => rfl
      | cons m ms =>
        have hnone := hstuck q m ms hstream
        rw [hmpi] at hnone
        simp only [MpiThread.receive] at hnone
        split at hnone
        · split at hnone
          · cases hnone
          · split at hnone <;> cases hnone
        · cases hnone

/-- Nothing is left on the way to an MPI thread that has not ended. -/
theorem whole_of_quiet (h : Delivering L s) (hquiet : s.Quiet L) {p : ℕ} (hp : p < L.mpiWorldSize)
    (hrunning : s.mpiThread p ≠ .terminated) (q : ℕ) : s.whole q p = [] := by
  have hidle := whole_of_idle h (fun q hq => by rw [fuseThread_of_quiet hquiet hq, sendsTo])
    (fun q hq => (hquiet p hp q hq).2.1) (hquiet p hp 0 L.worldSize_pos).2.2 hrunning
  exact hidle.2 q

end Quiet

/-- **Every request is handled once by every other peer, in the order of its sender.**  In a run whose
requests all start clear, what a peer has handled of the requests of another, and what is on the way to it,
make up that peer's requests; and where no thread can go on and the program has not been ended, all of them
have been handled (collectives do not wait in `Quiet`; `Waiting` has them wait). -/
theorem exactlyOnce_of_startsClear (L : Launch) (events : List Event) (s : Network)
    (hclear : Along (Network.step L) (StartsClear L) Network.initial events)
    (hrun : run (Network.step L) Network.initial events = some s) :
    ∀ rank < L.mpiWorldSize, ∀ source < L.mpiWorldSize, source ≠ rank →
      s.handledFrom rank source ++ announcements (s.whole source rank) =
        (s.requests source).map Request.announced ∧
      (s.Quiet L → s.Unterminated L →
        s.handledFrom rank source = (s.requests source).map Request.announced) := by
  intro rank hrank source hsource hne
  have hdelivering := delivering_run (delivering_initial L) hclear hrun
  have hsequence := hdelivering.sequence rank hrank source hsource hne
  refine ⟨hsequence, fun hquiet hterm => ?_⟩
  have hrunning : s.mpiThread rank ≠ .terminated := by
    intro hended
    obtain ⟨q, hq, hmem⟩ := hdelivering.terminated rank hended
    exact hterm q hq hmem
  rw [whole_of_quiet hdelivering hquiet hrank hrunning] at hsequence
  rw [← hsequence]
  exact (List.append_nil _).symm

/-- A creation at one peer, and then one at another, to the end. -/
theorem exactlyOnce_created_twice : ∃ s, run (Network.step ⟨2, 4, by decide, by decide⟩) Network.initial
      [.start 0 (.createFile [97]), .fuse 0, .fuse 0, .fuse 0, .receive 1 0, .receive 1 0,
        .receive 0 0, .start 1 (.createDir [98]), .fuse 1, .fuse 1, .fuse 1, .receive 0 1, .receive 0 1,
        .receive 1 1] = some s ∧
    s.handledFrom 1 0 = [(.createFile, some (.path [97]))] ∧
    s.handledFrom 0 1 = [(.createDir, some (.path [98]))] := by
  have hfacts : (run (Network.step ⟨2, 4, by decide, by decide⟩) Network.initial
      [.start 0 (.createFile [97]), .fuse 0, .fuse 0, .fuse 0, .receive 1 0, .receive 1 0,
        .receive 0 0, .start 1 (.createDir [98]), .fuse 1, .fuse 1, .fuse 1, .receive 0 1, .receive 0 1,
        .receive 1 1]).map (fun s => (s.requests 0, s.requests 1,
          decide (s.Quiet ⟨2, 4, by decide, by decide⟩ ∧ s.Unterminated ⟨2, 4, by decide, by decide⟩))) =
      some ([.createFile [97]], [.createDir [98]], true) := by
    decide +kernel
  obtain ⟨s, hrun, hs⟩ := Option.map_eq_some_iff.mp hfacts
  obtain ⟨hfirst, hrest⟩ := Prod.mk.inj hs
  obtain ⟨hsecond, hend⟩ := Prod.mk.inj hrest
  obtain ⟨hquiet, hterm⟩ := of_decide_eq_true hend
  have hall := exactlyOnce_of_startsClear _ _ s (by decide +kernel) hrun
  have hto1 := (hall 1 (by decide) 0 (by decide) (by decide)).2 hquiet hterm
  have hto0 := (hall 0 (by decide) 1 (by decide) (by decide)).2 hquiet hterm
  rw [hfirst] at hto1
  rw [hsecond] at hto0
  exact ⟨s, hrun, hto1, hto0⟩

end DagonFs.PeerToPeer
