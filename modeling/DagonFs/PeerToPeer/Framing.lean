import DagonFs.PeerToPeer.Protocol

/-!
# Headers and bodies

All messages have one tag, and both receives of the MPI thread take any sender's.  So a header is
followed by its own body only if no other sender's message can come between.

* `Framed`: what is on the way to a rank is whole requests, and a sender that has a body on the way to
  a rank is the only one with messages to it.
* `framed_step`, `framed_run`: a network stays framed when every start finds the ranks it sends to
  `Clear`.
* `receipts_framed`: then every body received is the one that belongs to the header before it.
-/

namespace DagonFs.PeerToPeer

open DagonFs.Lib.Runs

/-! ### Streams of whole requests -/

/-- Some message is a body. -/
def HasBody (ms : List Message) : Prop := ∃ m ∈ ms, m.isBody = true

instance : DecidablePred HasBody := fun ms => inferInstanceAs (Decidable (∃ m ∈ ms, _))

/-- Messages from `source` to `rank` that are whole requests of `source`. -/
inductive Frames (requests : List Request) (source rank : ℕ) : List Message → Prop
  | nil : Frames requests source rank []
  | lone {o : ℕ} {r : Request} {ms : List Message} (hr : requests[o]? = some r)
      (hlone : r.body = none ∨ source = rank) (hms : Frames requests source rank ms) :
      Frames requests source rank (⟨o, .header r.type⟩ :: ms)
  | pair {o : ℕ} {r : Request} {b : Body} {ms : List Message} (hr : requests[o]? = some r)
      (hb : r.body = some b) (hne : source ≠ rank) (hms : Frames requests source rank ms) :
      Frames requests source rank (⟨o, .header r.type⟩ :: ⟨o, .body b⟩ :: ms)

theorem frames_append {requests : List Request} {source rank : ℕ} {ms ms' : List Message}
    (h : Frames requests source rank ms) (h' : Frames requests source rank ms') :
    Frames requests source rank (ms ++ ms') := by
  induction h with
  | nil => exact h'
  | lone hr hlone _ ih => exact .lone hr hlone ih
  | pair hr hb hne _ ih => exact .pair hr hb hne ih

theorem getElem?_of_extends {requests requests' : List Request} {o : ℕ} {r : Request}
    (hpre : requests <+: requests') (hr : requests[o]? = some r) : requests'[o]? = some r := by
  obtain ⟨more, rfl⟩ := hpre
  rw [List.getElem?_append_left (List.getElem?_eq_some_iff.mp hr).1, hr]

theorem frames_mono {requests requests' : List Request} {source rank : ℕ} {ms : List Message}
    (hpre : requests <+: requests') (h : Frames requests source rank ms) :
    Frames requests' source rank ms := by
  induction h with
  | nil => exact .nil
  | lone hr hlone _ ih => exact .lone (getElem?_of_extends hpre hr) hlone ih
  | pair hr hb hne _ ih => exact .pair (getElem?_of_extends hpre hr) hb hne ih

theorem frames_messages {requests : List Request} {o : ℕ} {r : Request} (L : Launch)
    (hr : requests[o]? = some r) (source rank : ℕ) :
    Frames requests source rank (r.messages L source o rank) := by
  unfold Request.messages
  split
  · cases hb : r.body with
    | none =>
      simp only [List.append_nil]
      split
      · exact .nil
      · exact .lone hr (Or.inl hb) .nil
    | some b =>
      by_cases hself : rank = source
      · simp only [ne_eq, if_neg (not_not_intro hself), List.append_nil]
        split
        · exact .nil
        · exact .lone hr (Or.inr hself.symm) .nil
      · simp only [ne_eq, if_pos hself, if_neg fun h : r.isIO = true ∧ rank = source => hself h.2]
        exact .pair hr hb (Ne.symm hself) .nil
  · exact .nil

/-! ### The invariant -/

/-- The header that the MPI thread has received from `source`, and whose body is to come. -/
def MpiThread.heldHeader : MpiThread → ℕ → List Message
  | .waiting type source o, q => if q = source then [⟨o, .header type⟩] else []
  | _, _ => []

namespace Network

/-- What is on the way from one rank to another, with a header already received whose body is not. -/
def whole (s : Network) (source rank : ℕ) : List Message :=
  (s.mpiThread rank).heldHeader source ++ s.stream source rank

theorem whole_start {L : Launch} {s : Network} {rank : ℕ} {request : Request}
    (hidle : s.fuseThread rank = []) (q p : ℕ) :
    (s.startRequest L rank request).whole q p = s.whole q p ++
      if q = rank then request.messages L rank (s.requests rank).length p else [] := by
  rw [whole, stream_start L _ hidle, ← List.append_assoc]
  rfl

end Network

/-- A message received as a header is one of a request of its sender; a message received as a body is
that of the request whose header was received before. -/
def Receipt.Framed (requests : ℕ → List Request) (r : Receipt) : Prop :=
  match r.thread with
  | .running _ => ∃ request, (requests r.source)[r.message.origin]? = some request ∧
      r.message.content = .header request.type
  | .waiting type source o => ∃ request body, (requests source)[o]? = some request ∧
      request.type = type ∧ request.body = some body ∧
      r.source = source ∧ r.message = ⟨o, .body body⟩
  | _ => True

theorem Receipt.Framed.mono {requests requests' : ℕ → List Request} {r : Receipt}
    (hpre : ∀ q, requests q <+: requests' q) (h : r.Framed requests) : r.Framed requests' := by
  unfold Receipt.Framed at h ⊢
  split
  · rename_i hthread
    rw [hthread] at h
    obtain ⟨request, hr, hcontent⟩ := h
    exact ⟨request, getElem?_of_extends (hpre _) hr, hcontent⟩
  · rename_i hthread
    rw [hthread] at h
    obtain ⟨request, body, hr, hrest⟩ := h
    exact ⟨request, body, getElem?_of_extends (hpre _) hr, hrest⟩
  · trivial

structure Framed (L : Launch) (s : Network) : Prop where
  frames : ∀ q p, Frames (s.requests q) q p (s.whole q p)
  /-- A header that the MPI thread waits with has a body. -/
  waiting : ∀ p type q o, s.mpiThread p = .waiting type q o → q ≠ p ∧ type ≠ .terminate
  alone : ∀ q q' p, q ≠ q' → HasBody (s.stream q p) → s.stream q' p = []
  outside : ∀ q p, L.mpiWorldSize ≤ q → s.stream q p = []
  receipts : ∀ p, ∀ r ∈ s.receipts p, r.Framed s.requests

/-- The messages of a request to a rank and the messages that another sender has on the way to it
cannot come between each other: a body on either side is alone. -/
def Separate (messages others : List Message) : Prop :=
  (HasBody messages → others = []) ∧ (messages ≠ [] → ¬ HasBody others)

instance (messages others : List Message) : Decidable (Separate messages others) :=
  inferInstanceAs (Decidable (_ ∧ _))

/-- What a request of `rank` would send is separate from all that is on the way. -/
def Clear (L : Launch) (s : Network) (rank : ℕ) (request : Request) : Prop :=
  ∀ p < L.mpiWorldSize, ∀ q < L.mpiWorldSize, q ≠ rank →
    Separate (request.messages L rank (s.requests rank).length p) (s.stream q p)

instance (L : Launch) (s : Network) (rank : ℕ) (request : Request) :
    Decidable (Clear L s rank request) :=
  inferInstanceAs (Decidable (∀ p < _, ∀ q < _, _ → Separate _ _))

/-- The condition on a step: a start is clear. -/
def StartsClear (L : Launch) (s : Network) : Event → Prop
  | .start rank request => Clear L s rank request
  | _ => True

instance (L : Launch) (s : Network) : DecidablePred (StartsClear L s)
  | .start rank request => inferInstanceAs (Decidable (Clear L s rank request))
  | .fuse _ => isTrue trivial
  | .receive _ _ => isTrue trivial
  | .serve _ => isTrue trivial

theorem framed_initial (L : Launch) : Framed L Network.initial where
  frames _ _ := .nil
  waiting _ _ _ _ h := by cases h
  alone _ _ _ _ _ := rfl
  outside _ _ _ := rfl
  receipts _ _ h := by cases h

/-! ### Steps -/

section Steps

variable {L : Launch} {s : Network} {rank source : ℕ}

theorem hasBody_append {ms ms' : List Message} : HasBody (ms ++ ms') ↔ HasBody ms ∨ HasBody ms' := by
  simp [HasBody, or_and_right, exists_or]

theorem lt_of_hasBody_messages {r : Request} {o p : ℕ} (h : HasBody (r.messages L rank o p)) :
    p < L.mpiWorldSize := by
  by_contra hp
  rw [Request.messages, if_neg hp] at h
  obtain ⟨_, hmem, -⟩ := h
  cases hmem

/-- A start keeps a network framed. -/
theorem framed_start {request : Request} (h : Framed L s) (hclear : Clear L s rank request)
    (hrank : rank < L.mpiWorldSize) (hidle : s.fuseThread rank = []) :
    Framed L (s.startRequest L rank request) := by
  have hstream := Network.stream_start L request hidle
  obtain ⟨hrequests, hnew⟩ := Network.requests_start L s rank request
  constructor
  case frames =>
    intro q p
    rw [Network.whole_start hidle]
    apply frames_append (frames_mono (hrequests q) (h.frames q p))
    split
    · rename_i hq
      subst hq
      exact frames_messages L hnew q p
    · exact .nil
  case waiting => exact h.waiting
  case alone =>
    intro q q' p hne hbody
    rw [hstream] at hbody ⊢
    by_cases hq : q = rank
    · subst hq
      rw [if_neg (Ne.symm hne), List.append_nil]
      rw [if_pos rfl, hasBody_append] at hbody
      obtain hold | hnew := hbody
      · exact h.alone q q' p hne hold
      · by_cases hq' : q' < L.mpiWorldSize
        · exact (hclear p (lt_of_hasBody_messages hnew) q' hq' (Ne.symm hne)).1 hnew
        · exact h.outside q' p (Nat.le_of_not_lt hq')
    · rw [if_neg hq, List.append_nil] at hbody
      rw [h.alone q q' p hne hbody, List.nil_append]
      split
      · -- the request sends nothing to a rank that another sender has a body for
        by_contra hmessages
        have hp : p < L.mpiWorldSize := by
          by_contra hp
          exact hmessages (if_neg hp)
        have hq' : q < L.mpiWorldSize := by
          by_contra hq'
          rw [h.outside q p (Nat.le_of_not_lt hq')] at hbody
          obtain ⟨_, hmem, -⟩ := hbody
          cases hmem
        exact (hclear p hp q hq' hq).2 hmessages hbody
      · rfl
  case outside =>
    intro q p hq
    rw [hstream, h.outside q p hq, if_neg (by omega)]
    rfl
  case receipts => exact fun p r hr => (h.receipts p r hr).mono hrequests

/-- What a receive leaves alone. -/
structure ReceiveFrame (s s' : Network) (rank source : ℕ) : Prop where
  fuseThread : s'.fuseThread = s.fuseThread
  requests : s'.requests = s.requests
  entered : s'.entered = s.entered
  mpiThread : ∀ p, p ≠ rank → s'.mpiThread p = s.mpiThread p
  taken : ∃ m, s.stream source rank = m :: s'.stream source rank
  stream : ∀ q p, q ≠ source ∨ p ≠ rank → s'.stream q p = s.stream q p
  whole : ∀ q p, q ≠ source ∨ p ≠ rank → s'.whole q p = s.whole q p

/-- What a receive does in a framed network: it takes a header without a body, or a header whose body
is to come, or that body. -/
inductive Received (L : Launch) (s s' : Network) (rank source : ℕ) : Prop
  | lone {o : ℕ} {r : Request} (hmpi : s.mpiThread rank = .running [])
      (hmpi' : s'.mpiThread rank = .running [] ∨ s'.mpiThread rank = .terminated)
      (hwhole : s.whole source rank = ⟨o, .header r.type⟩ :: s'.whole source rank)
      (hframes : Frames (s.requests source) source rank (s'.whole source rank))
  | header {o : ℕ} {r : Request} {b : Body} (hmpi : s.mpiThread rank = .running [])
      (hmpi' : s'.mpiThread rank = .waiting r.type source o) (hne : source ≠ rank)
      (hb : r.body = some b) (hwhole : s'.whole source rank = s.whole source rank)
  | body {o : ℕ} {r : Request} {b : Body} (hmpi : s.mpiThread rank = .waiting r.type source o)
      (hmpi' : s'.mpiThread rank = .running (DistributedCode.serve L source rank r.type b))
      (hbody : HasBody (s.stream source rank))
      (hwhole : s.whole source rank =
        ⟨o, .header r.type⟩ :: ⟨o, .body b⟩ :: s'.whole source rank)
      (hframes : Frames (s.requests source) source rank (s'.whole source rank))

/-- A receive in the loop of the MPI thread takes a header. -/
theorem receive_running {s' : Network} {m : Message} {thread : MpiThread} {calls : List CollectiveCall}
    (hmpi : s.mpiThread rank = .running calls) (hmpi' : s'.mpiThread rank = thread)
    (hthread : (MpiThread.running calls).receive L rank source m = some thread)
    (htaken : s.stream source rank = m :: s'.stream source rank)
    (hframes : Frames (s.requests source) source rank (s.whole source rank)) :
    (∀ q, q ≠ source → thread.heldHeader q = []) ∧ Received L s s' rank source ∧
      Receipt.Framed s.requests ⟨.running calls, source, m⟩ := by
  obtain rfl : calls = [] := by
    cases calls with
    | nil => rfl
    | cons call calls => cases hthread
  have hwhole : s.whole source rank = m :: s'.stream source rank := by
    rw [Network.whole, hmpi, htaken]
    rfl
  have hwhole' : s'.whole source rank = thread.heldHeader source ++ s'.stream source rank := by
    rw [Network.whole, hmpi']
  rw [hwhole] at hframes
  generalize hms : s'.stream source rank = ms at hframes hwhole hwhole' htaken
  cases hframes with
  | @lone o r _ hr hlone hrest =>
    have hnext : thread = .running [] ∨ thread = .terminated := by
      by_cases hterm : r.type = .terminate
      · simp only [MpiThread.receive, if_pos hterm] at hthread
        exact Or.inr (Option.some.inj hthread).symm
      · have hself : source = rank :=
          hlone.resolve_left fun hnone => hterm (Request.type_eq_terminate hnone)
        simp only [MpiThread.receive, if_neg hterm, if_pos hself] at hthread
        exact Or.inl (Option.some.inj hthread).symm
    have hheld : ∀ q, thread.heldHeader q = [] := by
      intro q
      obtain rfl | rfl := hnext <;> rfl
    rw [hheld, List.nil_append] at hwhole'
    rw [← hwhole'] at hwhole hrest
    exact ⟨fun q _ => hheld q, .lone hmpi (hmpi' ▸ hnext) hwhole hrest, r, hr, rfl⟩
  | @pair o r b ms hr hb hne hrest =>
    simp only [MpiThread.receive, if_neg (Request.type_ne_terminate hb), if_neg hne,
      Option.some.injEq] at hthread
    subst hthread
    refine ⟨fun q hq => if_neg hq, .header hmpi hmpi' hne hb ?_, r, hr, rfl⟩
    rw [hwhole', hwhole, MpiThread.heldHeader, if_pos rfl]
    rfl

/-- A receive of the MPI thread that waits with a header takes the body that belongs to it. -/
theorem receive_waiting {s' : Network} {m : Message} {thread : MpiThread} {type : RequestType} {q o : ℕ}
    (h : Framed L s) (hmpi : s.mpiThread rank = .waiting type q o) (hmpi' : s'.mpiThread rank = thread)
    (hthread : (MpiThread.waiting type q o).receive L rank source m = some thread)
    (htaken : s.stream source rank = m :: s'.stream source rank) :
    source = q ∧ (∀ p, thread.heldHeader p = []) ∧ Received L s s' rank source ∧
      Receipt.Framed s.requests ⟨.waiting type q o, source, m⟩ := by
  obtain ⟨hne, hterm⟩ := h.waiting rank type q o hmpi
  have hframes := h.frames q rank
  have hwhole : s.whole q rank = ⟨o, .header type⟩ :: s.stream q rank := by
    simp [Network.whole, hmpi, MpiThread.heldHeader]
  rw [hwhole] at hframes
  generalize hms : s.stream q rank = ms at hframes
  cases hframes with
  | lone hr hlone _ =>
    obtain hnone | hself := hlone
    · exact absurd (Request.type_eq_terminate hnone) hterm
    · exact absurd hself hne
  | @pair _ r b ms hr hb _ hrest =>
    have hbody : HasBody (s.stream q rank) := ⟨_, hms ▸ List.mem_cons_self, rfl⟩
    -- a body on the way is alone, so the message received is from its sender
    obtain rfl : source = q := by
      by_contra hsource
      rw [h.alone q source rank (Ne.symm hsource) hbody] at htaken
      cases htaken
    rw [hms] at htaken
    obtain ⟨rfl, rfl⟩ := List.cons.inj htaken
    simp only [MpiThread.receive, Request.fits_type hb, if_true, Option.some.injEq] at hthread
    subst hthread
    have hwhole' : s'.whole source rank = s'.stream source rank := by
      rw [Network.whole, hmpi']
      rfl
    refine ⟨rfl, fun _ => rfl, .body hmpi hmpi' hbody ?_ ?_, r, b, hr, rfl, hb, rfl, rfl⟩
    · rw [hwhole, hms, hwhole']
    · rw [hwhole']
      exact hrest

theorem receive_spec {s' : Network} (h : Framed L s)
    (hstep : s.step L (.receive rank source) = some s') :
    ReceiveFrame s s' rank source ∧ Received L s s' rank source ∧
      ∃ r : Receipt, r.Framed s.requests ∧
        s'.receipts = Function.update s.receipts rank (s.receipts rank ++ [r]) := by
  obtain ⟨m, rest, thread, hchannel, hthread, hs'⟩ := Network.step_receive hstep
  obtain ⟨htaken, hstream⟩ := Network.stream_receive thread
    ⟨s.mpiThread rank, source, m⟩ hchannel
  rw [← hs'] at htaken hstream
  have hmpi' : s'.mpiThread rank = thread := by
    simp [hs', Network.logReceipt, Network.setMpi]
  have hother : ∀ p, p ≠ rank → s'.mpiThread p = s.mpiThread p := by
    intro p hp
    simp [hs', Network.logReceipt, Network.setMpi, Network.setChannel, hp]
  have hreceipts : s'.receipts = Function.update s.receipts rank
      (s.receipts rank ++ [⟨s.mpiThread rank, source, m⟩]) := by rw [hs']; rfl
  have hframes := h.frames source rank
  -- the threads hold headers of `source` only, before and after
  have key : (∀ q, q ≠ source → (s.mpiThread rank).heldHeader q = [] ∧ thread.heldHeader q = []) ∧
      Received L s s' rank source ∧ Receipt.Framed s.requests ⟨s.mpiThread rank, source, m⟩ := by
    cases hmpi : s.mpiThread rank with
    | running calls =>
      rw [hmpi] at hthread
      obtain ⟨hheld, hrest⟩ := receive_running hmpi hmpi' hthread htaken hframes
      exact ⟨fun q hq => ⟨rfl, hheld q hq⟩, hrest⟩
    | waiting type q o =>
      rw [hmpi] at hthread
      obtain ⟨rfl, hheld, hrest⟩ := receive_waiting h hmpi hmpi' hthread htaken
      exact ⟨fun q hq => ⟨if_neg hq, hheld q⟩, hrest⟩
    | terminated =>
      rw [hmpi] at hthread
      cases hthread
    | undefined =>
      rw [hmpi] at hthread
      cases hthread
  obtain ⟨hheld, hreceived, hframed⟩ := key
  refine ⟨?_, hreceived, _, hframed, hreceipts⟩
  exact {
    fuseThread := by rw [hs']; rfl
    requests := by rw [hs']; rfl
    entered := by rw [hs']; rfl
    mpiThread := hother
    taken := ⟨m, htaken⟩
    stream := hstream
    whole := fun q p hne => by
      rw [Network.whole, Network.whole, hstream q p hne]
      by_cases hp : p = rank
      · subst hp
        obtain ⟨hold, hnew⟩ := hheld q (hne.resolve_right fun hp => hp rfl)
        rw [hmpi', hold, hnew]
      · rw [hother p hp] }

/-- A receive keeps a network framed. -/
theorem framed_receive {s' : Network} (h : Framed L s)
    (hstep : s.step L (.receive rank source) = some s') : Framed L s' := by
  obtain ⟨hframe, hreceived, r, hr, hreceipts⟩ := receive_spec h hstep
  obtain ⟨m, htaken⟩ := hframe.taken
  -- every stream is what it was, or what is left of it
  have hstream : ∀ q p, s'.stream q p <:+ s.stream q p := by
    intro q p
    by_cases hqp : q = source ∧ p = rank
    · obtain ⟨rfl, rfl⟩ := hqp
      exact ⟨[m], htaken.symm⟩
    · rw [hframe.stream q p (by tauto)]
  constructor
  case frames =>
    intro q p
    rw [hframe.requests]
    by_cases hqp : q = source ∧ p = rank
    · obtain ⟨rfl, rfl⟩ := hqp
      cases hreceived with
      | lone _ _ _ hframes => exact hframes
      | header _ _ _ _ hwhole => exact hwhole ▸ h.frames q p
      | body _ _ _ _ hframes => exact hframes
    · rw [hframe.whole q p (by tauto)]
      exact h.frames q p
  case waiting =>
    intro p type q o hmpi
    by_cases hp : p = rank
    · subst hp
      cases hreceived with
      | lone _ hmpi' => obtain hmpi' | hmpi' := hmpi' <;> rw [hmpi'] at hmpi <;> cases hmpi
      | header _ hmpi' hne hb =>
        rw [hmpi'] at hmpi
        cases hmpi
        exact ⟨hne, Request.type_ne_terminate hb⟩
      | body _ hmpi' => rw [hmpi'] at hmpi; cases hmpi
    · rw [hframe.mpiThread p hp] at hmpi
      exact h.waiting p type q o hmpi
  case alone =>
    intro q q' p hne hbody
    obtain ⟨b, hmem, hb⟩ := hbody
    have hnil := h.alone q q' p hne ⟨b, (hstream q p).subset hmem, hb⟩
    exact List.eq_nil_of_suffix_nil (hnil ▸ hstream q' p)
  case outside =>
    intro q p hq
    exact List.eq_nil_of_suffix_nil (h.outside q p hq ▸ hstream q p)
  case receipts =>
    intro p r' hr'
    rw [hframe.requests]
    rw [hreceipts] at hr'
    by_cases hp : p = rank
    · subst hp
      rw [Function.update_self, List.mem_append, List.mem_singleton] at hr'
      obtain hold | hnew := hr'
      · exact h.receipts p r' hold
      · exact hnew ▸ hr
    · rw [Function.update_of_ne hp] at hr'
      exact h.receipts p r' hr'

/-- The other steps move no message and change no wait. -/
theorem Framed.congr {s' : Network} (h : Framed L s) (hstream : ∀ q p, s'.stream q p = s.stream q p)
    (hheld : ∀ p, (s'.mpiThread p).heldHeader = (s.mpiThread p).heldHeader)
    (hwaiting : ∀ p type q o, s'.mpiThread p = .waiting type q o → s.mpiThread p = .waiting type q o)
    (hrequests : s'.requests = s.requests) (hreceipts : s'.receipts = s.receipts) : Framed L s' where
  frames q p := by
    rw [Network.whole, hstream, hheld, hrequests]
    exact h.frames q p
  waiting p type q o hmpi := h.waiting p type q o (hwaiting p type q o hmpi)
  alone q q' p hne := by
    rw [hstream, hstream]
    exact h.alone q q' p hne
  outside q p hq := by rw [hstream, h.outside q p hq]
  receipts p r hr := by
    rw [hrequests]
    exact h.receipts p r (hreceipts ▸ hr)

theorem framed_fuse {s' : Network} (h : Framed L s) (hstep : s.step L (.fuse rank) = some s') :
    Framed L s' := by
  obtain ⟨destination, m, rest, hfuse, rfl⟩ | ⟨call, rest, hfuse, rfl⟩ := Network.step_fuse hstep
  · exact h.congr (Network.stream_send hfuse) (fun _ => rfl) (fun _ _ _ _ hmpi => hmpi) rfl rfl
  · exact h.congr (Network.stream_enter hfuse) (fun _ => rfl) (fun _ _ _ _ hmpi => hmpi) rfl rfl

theorem framed_serve {s' : Network} (h : Framed L s) (hstep : s.step L (.serve rank) = some s') :
    Framed L s' := by
  obtain ⟨call, rest, hmpi, rfl⟩ := Network.step_serve hstep
  have hthread : ∀ p, p ≠ rank →
      ((s.enter rank call).setMpi rank (.running rest)).mpiThread p = s.mpiThread p :=
    fun p hp => Function.update_of_ne hp ..
  have hself : ((s.enter rank call).setMpi rank (.running rest)).mpiThread rank = .running rest :=
    Function.update_self ..
  refine h.congr (fun _ _ => rfl) (fun p => ?_) (fun p type q o hp' => ?_) rfl rfl
  · by_cases hp : p = rank
    · rw [hp, hself, hmpi]
      rfl
    · rw [hthread p hp]
  · by_cases hp : p = rank
    · rw [hp, hself] at hp'
      cases hp'
    · rwa [hthread p hp] at hp'

/-- **The step lemma.** -/
theorem framed_step {s' : Network} {e : Event} (h : Framed L s) (hok : StartsClear L s e)
    (hstep : s.step L e = some s') : Framed L s' := by
  cases e with
  | start rank request =>
    obtain ⟨hrank, hidle, rfl⟩ := Network.step_start hstep
    exact framed_start h hok hrank hidle
  | fuse rank => exact framed_fuse h hstep
  | receive rank source => exact framed_receive h hstep
  | serve rank => exact framed_serve h hstep

/-- The run lemma. -/
theorem framed_run {s' : Network} {events : List Event} (h : Framed L s)
    (hclear : Along (Network.step L) (StartsClear L) s events)
    (hrun : run (Network.step L) s events = some s') : Framed L s' :=
  invariant_run (fun _ _ _ h hok hstep => framed_step h hok hstep) h hclear hrun

end Steps

/-! ### What is received -/

/-- Every receipt of every rank is framed. -/
def Network.ReceiptsFramed (s : Network) : Prop :=
  ∀ rank, ∀ r ∈ s.receipts rank, r.Framed s.requests

/-- **Message framing.**  In a run whose requests all start clear, the MPI threads receive only headers
in their loops, and in their handlers only the body that the sender of the header before sent with it. -/
theorem receiptsFramed_of_startsClear (L : Launch) (events : List Event) (s : Network)
    (hclear : Along (Network.step L) (StartsClear L) Network.initial events)
    (hrun : run (Network.step L) Network.initial events = some s) : s.ReceiptsFramed :=
  (framed_run (framed_initial L) hclear hrun).receipts

/-- A creation at one peer, and then one at another. -/
theorem receiptsFramed_created_twice :
    ∃ s, run (Network.step ⟨2, 4, by decide, by decide⟩) Network.initial
        [.start 0 (.createFile [97]), .fuse 0, .fuse 0, .fuse 0, .receive 1 0, .receive 1 0,
          .receive 0 0, .start 1 (.createDir [98]), .fuse 1, .fuse 1, .receive 0 1, .receive 0 1] =
          some s ∧ s.ReceiptsFramed ∧ (s.receipts 0).length = 3 := by
  have hdefined : (run (Network.step ⟨2, 4, by decide, by decide⟩) Network.initial
      [.start 0 (.createFile [97]), .fuse 0, .fuse 0, .fuse 0, .receive 1 0, .receive 1 0,
        .receive 0 0, .start 1 (.createDir [98]), .fuse 1, .fuse 1, .receive 0 1,
        .receive 0 1]).isSome := by
    decide +kernel
  obtain ⟨s, hrun⟩ := Option.isSome_iff_exists.mp hdefined
  refine ⟨s, hrun, receiptsFramed_of_startsClear _ _ s (by decide +kernel) hrun, ?_⟩
  have hlength : (some s).map (fun s => (s.receipts 0).length) = some 3 := by
    rw [← hrun]
    decide +kernel
  exact Option.some.inj hlength

/-- Two peers send at once: between the header and the body from peer 0, peer 1 receives the header that
it has sent to itself. -/
theorem not_receiptsFramed_of_run :
    ¬ ∀ (L : Launch) (events : List Event) (s : Network),
      run (Network.step L) Network.initial events = some s → s.ReceiptsFramed := by
  intro h
  have hrun : (run (Network.step ⟨2, 4, by decide, by decide⟩) Network.initial
      [.start 0 (.createFile [97]), .start 1 (.createDir [98]), .fuse 0, .fuse 0, .fuse 1, .fuse 1,
        .fuse 1, .receive 1 0, .receive 1 1]).map (fun s => (s.receipts 1)[1]?) =
      some (some ⟨.waiting .createFile 0 0, 1, ⟨0, .header .createDir⟩⟩) := by
    decide +kernel
  obtain ⟨s, hs, hreceipt⟩ := Option.map_eq_some_iff.mp hrun
  have hmem := List.mem_of_getElem? hreceipt
  obtain ⟨_, _, _, _, _, hsource, -⟩ := h _ _ s hs 1 _ hmem
  cases hsource

end DagonFs.PeerToPeer
