import DagonFs.PeerToPeer.Framing

/-!
# Collectives that match

A rank enters collectives from two threads: its FUSE thread for its own reads and writes, its MPI
thread for those of the others.  MPI matches the collectives of all ranks by position.

* `served`: the collectives that the messages on the way to a rank will have it enter.
* `Aligned`: what every rank has entered, then what its threads are about to enter, then what is on the
  way to it, is one sequence for all ranks.
* `aligned_step`, `aligned_run`: this lasts while every start is clear, and every start of a read or a
  write finds the other FUSE threads done with theirs and nothing left for its own rank to serve.
-/

namespace DagonFs.PeerToPeer

open DagonFs.Lib.Runs

/-! ### The collectives on the way -/

/-- The collectives of the requests among the messages from `source` to `rank`. -/
def served (L : Launch) (source rank : ℕ) : List Message → List CollectiveCall
  | ⟨_, .header type⟩ :: ⟨_, .body body⟩ :: ms =>
    DistributedCode.serve L source rank type body ++ served L source rank ms
  | _ :: ms => served L source rank ms
  | [] => []

section Served

variable {L : Launch} {source rank : ℕ}

theorem served_eq_nil {ms : List Message} (h : ¬ HasBody ms) : served L source rank ms = [] := by
  fun_induction served L source rank ms with
  | case1 o type o' body ms ih => exact absurd ⟨⟨o', .body body⟩, by simp, rfl⟩ h
  | case2 m ms _ ih => exact ih fun hms => h (hms.imp fun _ hb => ⟨List.mem_cons_of_mem _ hb.1, hb.2⟩)
  | case3 => rfl

theorem served_header {requests : List Request} {ms : List Message}
    (h : Frames requests source rank ms) (o : ℕ) (type : RequestType) :
    served L source rank (⟨o, .header type⟩ :: ms) = served L source rank ms := by
  cases h <;> simp [served]

theorem served_append {requests : List Request} {ms ms' : List Message}
    (h : Frames requests source rank ms) (h' : Frames requests source rank ms') :
    served L source rank (ms ++ ms') = served L source rank ms ++ served L source rank ms' := by
  induction h with
  | nil => rfl
  | lone hr hlone hms ih =>
    rw [List.cons_append, served_header (frames_append hms h'), served_header hms, ih]
  | pair hr hb hne hms ih => simp only [List.cons_append, served, ih, List.append_assoc]

/-- A request has the other ranks serve the collectives that it enters itself. -/
theorem served_messages (source : ℕ) (r : Request) (o : ℕ) (hrank : rank < L.mpiWorldSize) :
    served L source rank (r.messages L source o rank) =
      if rank = source then [] else r.calls L source := by
  by_cases hself : rank = source
  · subst hself
    rw [if_pos rfl]
    cases r <;> simp [Request.messages, Request.isIO, Request.body, Request.type, hrank, served]
  · rw [if_neg hself]
    cases r <;>
      simp [Request.messages, Request.calls, Request.isIO, Request.body, Request.type, hrank, hself,
        served, DistributedCode.serve_rank L source rank _ _ source]

/-- A loop in which one round only gives something. -/
theorem flatMap_range_single {α : Type*} {f : ℕ → List α} {i n : ℕ} (hi : i < n)
    (h : ∀ j < n, j ≠ i → f j = []) : (List.range n).flatMap f = f i := by
  induction n with
  | zero => omega
  | succ n ih =>
    rw [List.range_succ, List.flatMap_append, List.flatMap_singleton]
    by_cases hn : i = n
    · subst hn
      have hbefore : (List.range i).flatMap f = [] := by
        rw [List.flatMap_eq_nil_iff]
        intro j hj
        rw [List.mem_range] at hj
        exact h j (by omega) (by omega)
      rw [hbefore, List.nil_append]
    · rw [ih (by omega) fun j hj => h j (by omega), h n (Nat.lt_succ_self n) (Ne.symm hn),
        List.append_nil]

end Served

/-- The collectives that an MPI thread is about to enter. -/
def MpiThread.calls : MpiThread → List CollectiveCall
  | .running calls => calls
  | _ => []

namespace Network

/-- The collectives that a rank has still to learn of. -/
def onTheWay (L : Launch) (s : Network) (rank : ℕ) : List CollectiveCall :=
  (List.range L.mpiWorldSize).flatMap fun source => served L source rank (s.whole source rank)

/-- The collectives that a rank is to enter. -/
def owed (L : Launch) (s : Network) (rank : ℕ) : List CollectiveCall :=
  (s.mpiThread rank).calls ++ (callsOf (s.fuseThread rank) ++ s.onTheWay L rank)

end Network

structure Aligned (L : Launch) (s : Network) (common : List CollectiveCall) : Prop where
  sequence : ∀ p < L.mpiWorldSize, s.entered p ++ s.owed L p = common
  /-- While a FUSE thread has collectives to enter, its rank has none to serve. -/
  fuse : ∀ p < L.mpiWorldSize, callsOf (s.fuseThread p) ≠ [] →
    (s.mpiThread p).calls = [] ∧ s.onTheWay L p = []

/-- The condition on a step: a start is clear, and one that enters collectives finds none left to enter
in the other FUSE threads, and none to serve at its own rank. -/
def StartsAlone (L : Launch) (s : Network) : Event → Prop
  | .start rank request => Clear L s rank request ∧ (request.calls L rank ≠ [] →
      (s.mpiThread rank).calls = [] ∧ s.onTheWay L rank = [] ∧
        ∀ q < L.mpiWorldSize, q ≠ rank → callsOf (s.fuseThread q) = [])
  | _ => True

instance (L : Launch) (s : Network) : DecidablePred (StartsAlone L s)
  | .start rank request => inferInstanceAs (Decidable (Clear L s rank request ∧ (_ → _ ∧ _ ∧ _)))
  | .fuse _ => isTrue trivial
  | .receive _ _ => isTrue trivial
  | .serve _ => isTrue trivial

theorem StartsAlone.startsClear {L : Launch} {s : Network} {e : Event} (h : StartsAlone L s e) :
    StartsClear L s e := by
  cases e with
  | start rank request => exact h.1
  | fuse rank => trivial
  | receive rank source => trivial
  | serve rank => trivial

/-! ### Steps -/

section Steps

variable {L : Launch} {s s' : Network} {rank source : ℕ} {common : List CollectiveCall}

theorem heldHeader_not_hasBody (thread : MpiThread) (q : ℕ) : ¬ HasBody (thread.heldHeader q) := by
  rintro ⟨m, hmem, hbody⟩
  cases thread with
  | waiting type source o =>
    simp only [MpiThread.heldHeader] at hmem
    split at hmem
    · obtain rfl := List.mem_singleton.mp hmem
      cases hbody
    · cases hmem
  | running | terminated | undefined => cases hmem

/-- A stream without a body gives its rank nothing to serve. -/
theorem served_whole_eq_nil {q p : ℕ} (h : s.stream q p = []) :
    served L q p (s.whole q p) = [] := by
  apply served_eq_nil
  rw [Network.whole, h, List.append_nil]
  exact heldHeader_not_hasBody _ q

/-- Where one sender only has messages on the way to a rank, they are all that it has to serve. -/
theorem onTheWay_single {q p : ℕ} (hq : q < L.mpiWorldSize)
    (h : ∀ q', q' ≠ q → s.stream q' p = []) : s.onTheWay L p = served L q p (s.whole q p) :=
  flatMap_range_single hq fun q' _ hq' => served_whole_eq_nil (h q' hq')

theorem onTheWay_congr {p : ℕ} (h : ∀ q, served L q p (s'.whole q p) = served L q p (s.whole q p)) :
    s'.onTheWay L p = s.onTheWay L p := by
  unfold Network.onTheWay
  simp only [h]

theorem aligned_initial (L : Launch) : Aligned L Network.initial [] where
  sequence _ _ := List.flatMap_eq_nil_iff.mpr fun _ _ => rfl
  fuse _ _ h := absurd rfl h

theorem hasBody_messages {r : Request} {b : Body} (hb : r.body = some b) (o : ℕ) {p : ℕ}
    (hp : p < L.mpiWorldSize) (hne : p ≠ source) : HasBody (r.messages L source o p) := by
  refine ⟨⟨o, .body b⟩, ?_, rfl⟩
  simp [Request.messages, hp, hne, hb]

/-- What a start puts on the way. -/
theorem onTheWay_start {request : Request} (h : Framed L s) (hclear : Clear L s rank request)
    (hrank : rank < L.mpiWorldSize) (hidle : s.fuseThread rank = []) {p : ℕ} (hp : p < L.mpiWorldSize) :
    (s.startRequest L rank request).onTheWay L p =
      s.onTheWay L p ++ if p = rank then [] else request.calls L rank := by
  obtain ⟨hrequests, hnew⟩ := Network.requests_start L s rank request
  have hmessages := served_messages rank request (s.requests rank).length hp
  have hframes := fun q => frames_mono (hrequests q) (h.frames q p)
  have hsent := frames_messages L hnew rank p
  by_cases hnil : (if p = rank then [] else request.calls L rank) = []
  · rw [hnil, List.append_nil]
    apply onTheWay_congr
    intro q
    rw [Network.whole_start hidle]
    split
    · rename_i hq
      subst hq
      rw [served_append (hframes q) hsent, hmessages, hnil, List.append_nil]
    · rw [List.append_nil]
  · have hne : p ≠ rank := fun heq => hnil (if_pos heq)
    obtain ⟨b, hb⟩ : ∃ b, request.body = some b := by
      cases hbody : request.body with
      | some b => exact ⟨b, rfl⟩
      | none => simp [Request.calls, hbody] at hnil
    -- the new body is the only one on the way
    have halone : ∀ q, q ≠ rank → s.stream q p = [] := by
      intro q hq
      by_cases hlt : q < L.mpiWorldSize
      · exact (hclear p hp q hlt hq).1 (hasBody_messages hb _ hp hne)
      · exact h.outside q p (Nat.le_of_not_lt hlt)
    have halone' : ∀ q, q ≠ rank → (s.startRequest L rank request).stream q p = [] := by
      intro q hq
      rw [Network.stream_start L _ hidle, halone q hq, if_neg hq]
      rfl
    rw [onTheWay_single hrank halone, onTheWay_single hrank halone', Network.whole_start hidle,
      if_pos rfl, served_append (hframes rank) hsent, hmessages]

/-- A start keeps the ranks aligned, on the sequence with the collectives of the request at its end. -/
theorem aligned_start {request : Request} (h : Framed L s) (ha : Aligned L s common)
    (hok : StartsAlone L s (.start rank request)) (hrank : rank < L.mpiWorldSize)
    (hidle : s.fuseThread rank = []) :
    Aligned L (s.startRequest L rank request) (common ++ request.calls L rank) := by
  obtain ⟨hclear, hcalls⟩ := hok
  have hway := fun p hp => onTheWay_start (p := p) h hclear hrank hidle hp
  have hself : callsOf ((s.startRequest L rank request).fuseThread rank) = request.calls L rank := by
    simp [Network.startRequest, Network.setFuse, callsOf_program]
  have hother : ∀ p, p ≠ rank → (s.startRequest L rank request).fuseThread p = s.fuseThread p :=
    fun p hp => Function.update_of_ne hp ..
  constructor
  case sequence =>
    intro p hp
    rw [Network.owed, hway p hp, ← ha.sequence p hp, Network.owed]
    show s.entered p ++ ((s.mpiThread p).calls ++ _) = _
    by_cases hpr : p = rank
    · subst hpr
      rw [if_pos rfl, List.append_nil, hself, hidle]
      by_cases hnil : request.calls L p = []
      · rw [hnil]
        simp [callsOf]
      · obtain ⟨hmpi, hnone, -⟩ := hcalls hnil
        simp [hmpi, hnone, callsOf]
    · rw [if_neg hpr, hother p hpr]
      simp only [List.append_assoc]
  case fuse =>
    intro p hp hne
    rw [hway p hp]
    by_cases hpr : p = rank
    · subst hpr
      rw [hself] at hne
      obtain ⟨hmpi, hnone, -⟩ := hcalls hne
      rw [if_pos rfl, List.append_nil]
      exact ⟨hmpi, hnone⟩
    · rw [hother p hpr] at hne
      obtain ⟨hmpi, hnone⟩ := ha.fuse p hp hne
      have hnil : request.calls L rank = [] := by
        by_contra hcontra
        exact hne ((hcalls hcontra).2.2 p hp hpr)
      rw [if_neg hpr, hnil, List.append_nil]
      exact ⟨hmpi, hnone⟩

theorem ReceiveFrame.onTheWay (h : ReceiveFrame s s' rank source) {p : ℕ} (hp : p ≠ rank) :
    s'.onTheWay L p = s.onTheWay L p := by
  apply onTheWay_congr
  intro q
  rw [h.whole q p (Or.inr hp)]

/-- A receive moves the collectives of a body from the way to the MPI thread. -/
theorem onTheWay_receive (h : Framed L s) (hframe : ReceiveFrame s s' rank source)
    (hreceived : Received L s s' rank source) :
    (s.mpiThread rank).calls = [] ∧
      (s'.mpiThread rank).calls ++ s'.onTheWay L rank = s.onTheWay L rank := by
  have hrest : ∀ q, q ≠ source → s'.whole q rank = s.whole q rank :=
    fun q hq => hframe.whole q rank (Or.inl hq)
  cases hreceived with
  | lone hmpi hmpi' hwhole hframes =>
    have hcalls : (s'.mpiThread rank).calls = [] := by
      obtain hmpi' | hmpi' := hmpi' <;> rw [hmpi'] <;> rfl
    refine ⟨by rw [hmpi]; rfl, ?_⟩
    rw [hcalls, List.nil_append]
    apply onTheWay_congr
    intro q
    by_cases hq : q = source
    · rw [hq, hwhole, served_header hframes]
    · rw [hrest q hq]
  | header hmpi hmpi' hne hb hwhole =>
    have hcalls : (s'.mpiThread rank).calls = [] := by
      rw [hmpi']
      rfl
    refine ⟨by rw [hmpi]; rfl, ?_⟩
    rw [hcalls, List.nil_append]
    apply onTheWay_congr
    intro q
    by_cases hq : q = source
    · rw [hq, hwhole]
    · rw [hrest q hq]
  | body hmpi hmpi' hbody hwhole hframes =>
    have hsource : source < L.mpiWorldSize := by
      by_contra hlt
      rw [h.outside source rank (Nat.le_of_not_lt hlt)] at hbody
      obtain ⟨_, hmem, -⟩ := hbody
      cases hmem
    have halone : ∀ q, q ≠ source → s.stream q rank = [] :=
      fun q hq => h.alone source q rank (Ne.symm hq) hbody
    have halone' : ∀ q, q ≠ source → s'.stream q rank = [] := by
      intro q hq
      rw [hframe.stream q rank (Or.inl hq), halone q hq]
    refine ⟨by rw [hmpi]; rfl, ?_⟩
    rw [onTheWay_single hsource halone, onTheWay_single hsource halone', hwhole, hmpi']
    rfl

theorem aligned_receive (h : Framed L s) (ha : Aligned L s common)
    (hstep : s.step L (.receive rank source) = some s') : Aligned L s' common := by
  obtain ⟨hframe, hreceived, -⟩ := receive_spec h hstep
  obtain ⟨hidle, hmoved⟩ := onTheWay_receive h hframe hreceived
  have hother : ∀ p, p ≠ rank → s'.onTheWay L p = s.onTheWay L p := fun _ => hframe.onTheWay
  constructor
  case sequence =>
    intro p hp
    rw [← ha.sequence p hp, Network.owed, Network.owed, hframe.entered, hframe.fuseThread]
    by_cases hpr : p = rank
    · subst hpr
      rw [hidle, ← hmoved]
      by_cases hfuse : callsOf (s.fuseThread p) = []
      · rw [hfuse]
        rfl
      · -- a FUSE thread with collectives to enter: there is nothing to move
        obtain ⟨-, hnone⟩ := ha.fuse p hp hfuse
        rw [hnone, List.append_eq_nil_iff] at hmoved
        rw [hmoved.1, hmoved.2]
        rfl
    · rw [hframe.mpiThread p hpr, hother p hpr]
  case fuse =>
    intro p hp hne
    rw [hframe.fuseThread] at hne
    obtain ⟨hmpi, hnone⟩ := ha.fuse p hp hne
    by_cases hpr : p = rank
    · subst hpr
      rw [hnone, List.append_eq_nil_iff] at hmoved
      exact hmoved
    · rw [hframe.mpiThread p hpr, hother p hpr]
      exact ⟨hmpi, hnone⟩

/-- A thread enters the next collective of its rank. -/
theorem aligned_enter {call : CollectiveCall} (ha : Aligned L s common)
    (hentered : s'.entered = (s.enter rank call).entered)
    (howed : rank < L.mpiWorldSize → s.owed L rank = call :: s'.owed L rank)
    (hother : ∀ p, p ≠ rank → s'.owed L p = s.owed L p)
    (hfuse : ∀ p < L.mpiWorldSize, callsOf (s'.fuseThread p) ≠ [] →
      (s'.mpiThread p).calls = [] ∧ s'.onTheWay L p = []) : Aligned L s' common := by
  refine ⟨fun p hp => ?_, hfuse⟩
  rw [← ha.sequence p hp, hentered, Network.enter]
  by_cases hpr : p = rank
  · subst hpr
    simp [howed hp]
  · simp [hpr, hother p hpr]

/-- The FUSE thread leaves what is on the way as it is. -/
theorem onTheWay_fuse (hstep : s.step L (.fuse rank) = some s') (p : ℕ) : s'.onTheWay L p = s.onTheWay L p := by
  apply onTheWay_congr
  intro q
  obtain ⟨destination, m, rest, hfuse, rfl⟩ | ⟨call, rest, hfuse, rfl⟩ := Network.step_fuse hstep
  · rw [Network.whole, Network.stream_send hfuse]
    rfl
  · rw [Network.whole, Network.stream_enter hfuse]
    rfl

theorem onTheWay_serve (hstep : s.step L (.serve rank) = some s') (p : ℕ) : s'.onTheWay L p = s.onTheWay L p := by
  apply onTheWay_congr
  intro q
  obtain ⟨call, rest, hmpi, rfl⟩ := Network.step_serve hstep
  have hheld : (((s.enter rank call).setMpi rank (.running rest)).mpiThread p).heldHeader q =
      (s.mpiThread p).heldHeader q := by
    by_cases hp : p = rank
    · have hself : ((s.enter rank call).setMpi rank (.running rest)).mpiThread rank = .running rest :=
        Function.update_self ..
      rw [hp, hself, hmpi]
      rfl
    · exact congrArg (MpiThread.heldHeader · q) (Function.update_of_ne hp ..)
  rw [Network.whole, hheld]
  rfl

theorem aligned_fuse (ha : Aligned L s common) (hstep : s.step L (.fuse rank) = some s') :
    Aligned L s' common := by
  have hway := onTheWay_fuse hstep
  obtain ⟨destination, m, rest, hfuse, rfl⟩ | ⟨call, rest, hfuse, rfl⟩ := Network.step_fuse hstep
  · have hcalls : ∀ p, callsOf (((s.post rank destination m).setFuse rank rest).fuseThread p) =
        callsOf (s.fuseThread p) := by
      intro p
      by_cases hp : p = rank
      · subst hp
        simp [Network.setFuse, hfuse, callsOf]
      · simp [Network.setFuse, Network.post, Network.setChannel, hp]
    refine ⟨fun p hp => ?_, fun p hp hne => ?_⟩
    · rw [← ha.sequence p hp, Network.owed, Network.owed, hway, hcalls]
      rfl
    · rw [hcalls] at hne
      rw [hway]
      exact ha.fuse p hp hne
  · have hself : ((s.enter rank call).setFuse rank rest).fuseThread rank = rest :=
      Function.update_self ..
    have hother : ∀ p, p ≠ rank →
        ((s.enter rank call).setFuse rank rest).fuseThread p = s.fuseThread p :=
      fun p hp => Function.update_of_ne hp ..
    have hidle : rank < L.mpiWorldSize → (s.mpiThread rank).calls = [] ∧ s.onTheWay L rank = [] :=
      fun hlt => ha.fuse rank hlt (by rw [hfuse]; exact List.cons_ne_nil _ _)
    have hentered : ((s.enter rank call).setFuse rank rest).entered =
        (s.enter rank call).entered := rfl
    apply aligned_enter ha hentered
    · intro hlt
      rw [Network.owed, Network.owed, hway, hself, hfuse, (hidle hlt).1]
      show _ = call :: ((s.mpiThread rank).calls ++ _)
      rw [(hidle hlt).1]
      rfl
    · intro p hp
      rw [Network.owed, Network.owed, hway, hother p hp]
      rfl
    · intro p hp hne
      rw [hway]
      by_cases hpr : p = rank
      · subst hpr
        exact hidle hp
      · rw [hother p hpr] at hne
        exact ha.fuse p hp hne

theorem aligned_serve (ha : Aligned L s common) (hstep : s.step L (.serve rank) = some s') :
    Aligned L s' common := by
  have hway := onTheWay_serve hstep
  obtain ⟨call, rest, hmpi, rfl⟩ := Network.step_serve hstep
  have hself : ((s.enter rank call).setMpi rank (.running rest)).mpiThread rank = .running rest :=
    Function.update_self ..
  have hother : ∀ p, p ≠ rank →
      ((s.enter rank call).setMpi rank (.running rest)).mpiThread p = s.mpiThread p :=
    fun p hp => Function.update_of_ne hp ..
  have hentered : ((s.enter rank call).setMpi rank (.running rest)).entered =
      (s.enter rank call).entered := rfl
  apply aligned_enter ha hentered
  · intro _
    rw [Network.owed, Network.owed, hway, hself, hmpi]
    rfl
  · intro p hp
    rw [Network.owed, Network.owed, hway, hother p hp]
    rfl
  · intro p hp hne
    rw [hway]
    obtain ⟨hcalls, hnone⟩ := ha.fuse p hp hne
    by_cases hpr : p = rank
    · rw [hpr, hmpi] at hcalls
      cases hcalls
    · rw [hother p hpr]
      exact ⟨hcalls, hnone⟩

/-- **The step lemma.** -/
theorem aligned_step {e : Event} (h : Framed L s) (ha : Aligned L s common) (hok : StartsAlone L s e)
    (hstep : s.step L e = some s') : ∃ common', Aligned L s' common' := by
  cases e with
  | start rank request =>
    obtain ⟨hrank, hidle, rfl⟩ := Network.step_start hstep
    exact ⟨_, aligned_start h ha hok hrank hidle⟩
  | fuse rank => exact ⟨common, aligned_fuse ha hstep⟩
  | receive rank source => exact ⟨common, aligned_receive h ha hstep⟩
  | serve rank => exact ⟨common, aligned_serve ha hstep⟩

/-- The run lemma. -/
theorem aligned_run {events : List Event}
    (halone : Along (Network.step L) (StartsAlone L) Network.initial events)
    (hrun : run (Network.step L) Network.initial events = some s) :
    ∃ common, Aligned L s common := by
  have hboth : Framed L s ∧ ∃ common, Aligned L s common := by
    refine invariant_run (I := fun s => Framed L s ∧ ∃ common, Aligned L s common) ?_
      ⟨framed_initial L, [], aligned_initial L⟩ halone hrun
    intro s e s' hinv hok hstep
    obtain ⟨h, common, ha⟩ := hinv
    exact ⟨framed_step h hok.startsClear hstep, aligned_step h ha hok hstep⟩
  exact hboth.2

end Steps

/-! ### What is entered -/

/-- What each rank has entered begins one common sequence. -/
def Network.CollectivesMatch (L : Launch) (s : Network) : Prop :=
  ∃ common, ∀ rank < L.mpiWorldSize, s.entered rank <+: common

/-- **The collectives match** in a run whose reads and writes all start alone. -/
theorem collectivesMatch_of_startsAlone (L : Launch) (events : List Event) (s : Network)
    (halone : Along (Network.step L) (StartsAlone L) Network.initial events)
    (hrun : run (Network.step L) Network.initial events = some s) : s.CollectivesMatch L := by
  obtain ⟨common, ha⟩ := aligned_run halone hrun
  exact ⟨common, fun rank hr => ⟨s.owed L rank, ha.sequence rank hr⟩⟩

/-- A write at one peer, and then a read at another. -/
theorem collectivesMatch_written_read :
    ∃ s, run (Network.step ⟨2, 4, by decide, by decide⟩) Network.initial
        [.start 0 (.write ⟨2, 6, 0, 0⟩), .fuse 0, .fuse 0, .fuse 0, .receive 1 0, .receive 1 0,
          .serve 1, .fuse 0, .serve 1, .start 1 (.read ⟨2, 6, 6, 0⟩), .fuse 1, .fuse 1, .receive 0 1,
          .receive 0 1, .serve 0] = some s ∧
      s.CollectivesMatch ⟨2, 4, by decide, by decide⟩ ∧ (s.entered 0).length = 3 := by
  have hdefined : (run (Network.step ⟨2, 4, by decide, by decide⟩) Network.initial
      [.start 0 (.write ⟨2, 6, 0, 0⟩), .fuse 0, .fuse 0, .fuse 0, .receive 1 0, .receive 1 0,
        .serve 1, .fuse 0, .serve 1, .start 1 (.read ⟨2, 6, 6, 0⟩), .fuse 1, .fuse 1, .receive 0 1,
        .receive 0 1, .serve 0]).isSome := by
    decide +kernel
  obtain ⟨s, hrun⟩ := Option.isSome_iff_exists.mp hdefined
  refine ⟨s, hrun, collectivesMatch_of_startsAlone _ _ s (by decide +kernel) hrun, ?_⟩
  have hlength : (some s).map (fun s => (s.entered 0).length) = some 3 := by
    rw [← hrun]
    decide +kernel
  exact Option.some.inj hlength

/-- Two peers write at once, and each enters a scatter of its own. -/
theorem not_collectivesMatch_of_run :
    ¬ ∀ (L : Launch) (events : List Event) (s : Network),
      run (Network.step L) Network.initial events = some s → s.CollectivesMatch L := by
  intro h
  have hrun : (run (Network.step ⟨2, 4, by decide, by decide⟩) Network.initial
      [.start 0 (.write ⟨2, 4, 0, 0⟩), .start 1 (.write ⟨3, 8, 0, 0⟩), .fuse 0, .fuse 1, .fuse 0,
        .fuse 1, .fuse 0, .fuse 1]).map (fun s => (s.entered 0, s.entered 1)) =
      some ([⟨.scatterv, 0, 2, [4, 0]⟩], [⟨.scatterv, 1, 3, [4, 4]⟩]) := by
    decide +kernel
  obtain ⟨s, hs, hentered⟩ := Option.map_eq_some_iff.mp hrun
  obtain ⟨h0, h1⟩ := Prod.mk.inj hentered
  obtain ⟨common, hcommon⟩ := h _ _ s hs
  have hfirst := hcommon 0 (by decide)
  have hsecond := hcommon 1 (by decide)
  rw [h0] at hfirst
  rw [h1] at hsecond
  cases common with
  | nil => cases List.eq_nil_of_prefix_nil hfirst
  | cons call rest =>
    obtain ⟨rfl, -⟩ := List.cons_prefix_cons.mp hfirst
    exact absurd (List.cons_prefix_cons.mp hsecond).1 (by decide)

end DagonFs.PeerToPeer
