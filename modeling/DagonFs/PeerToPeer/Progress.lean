import DagonFs.Lib.Lockstep
import DagonFs.PeerToPeer.Waiting

/-!
# All requests come to their end

A request pays for the moves that it leads to at all ranks: each of its messages is sent and received, and
each of its collectives entered and left.

* `weight_step`: every move but a start is one of finitely many.
* `completes_of_startsAlone`: in every interleaving, and whatever the ranks wait for, all requests are carried
  out at all ranks.
-/

namespace DagonFs.PeerToPeer

open DagonFs.Lib.Runs

/-! ### What a request costs -/

/-- The moves that an action leads to: a message is sent and received, its body makes a rank enter and leave
two collectives at most, and a collective is entered and left. -/
def Action.weight : Action → ℕ
  | .send _ _ => 6
  | .enter _ => 2

def weightOf (actions : List Action) : ℕ := (actions.map Action.weight).sum

theorem weightOf_append (as bs : List Action) : weightOf (as ++ bs) = weightOf as + weightOf bs := by
  simp [weightOf]

theorem weightOf_loop {f : ℕ → List Action} {c : ℕ} (h : ∀ i, weightOf (f i) ≤ c) (n : ℕ) :
    weightOf ((List.range n).flatMap f) ≤ c * n := by
  induction n with
  | zero => exact Nat.le_refl 0
  | succ n ih =>
    rw [List.range_succ, List.flatMap_append, List.flatMap_singleton, weightOf_append, Nat.mul_succ]
    exact Nat.add_le_add ih (h n)

theorem weightOf_calls (calls : List CollectiveCall) : weightOf (calls.map .enter) = 2 * calls.length := by
  induction calls with
  | nil => rfl
  | cons call calls ih =>
    show 2 + weightOf (calls.map .enter) = _
    rw [ih, List.length_cons]
    omega

namespace DistributedCode

/-- Each handler enters two collectives at most. -/
theorem length_serve_le (L : Launch) (sourceRank rank : ℕ) (type : RequestType) (body : Body) :
    (serve L sourceRank rank type body).length ≤ 2 := by
  cases body with
  | ioRequest packet =>
    cases type with
    | read =>
      show (readCalls L sourceRank rank packet).length ≤ 2
      unfold readCalls
      split <;> simp
    | _ => simp [serve, writeCalls]
  | _ => exact Nat.zero_le 2

end DistributedCode

section Weights

open RequestSender

variable (L : Launch) (rank origin : ℕ)

theorem weightOf_sendToOthers (n : ℕ) (content : Content) :
    weightOf (sendToOthers origin rank n content) ≤ 6 * n := by
  apply weightOf_loop
  intro i
  split <;> simp [weightOf, Action.weight]

theorem weightOf_sendWithBody (n : ℕ) (type : RequestType) (body : Body) :
    weightOf (sendWithBody origin rank n type body) ≤ 12 * n := by
  apply weightOf_loop
  intro i
  split <;> simp [weightOf, Action.weight]

theorem weightOf_program (r : Request) : weightOf (r.program L rank origin) ≤ 12 * L.mpiWorldSize + 4 := by
  have hothers := weightOf_sendToOthers rank origin L.mpiWorldSize
  have hbody : ∀ type body, weightOf (sendWithBody origin rank L.mpiWorldSize type body) ≤
      12 * L.mpiWorldSize + 4 := fun type body =>
    (weightOf_sendWithBody rank origin L.mpiWorldSize type body).trans (Nat.le_add_right _ _)
  cases r with
  | write packet =>
    have hcalls := DistributedCode.length_serve_le L rank rank .write (.ioRequest packet)
    rw [Request.program, weightOf_append, weightOf_append, weightOf_calls]
    have hheader := hothers (.header .write)
    have hpacket := hothers (.body (.ioRequest packet))
    rw [sendWriteRequest]
    rw [DistributedCode.serve] at hcalls
    omega
  | read packet =>
    have hcalls := DistributedCode.length_serve_le L rank rank .read (.ioRequest packet)
    rw [Request.program, weightOf_append, weightOf_append, weightOf_calls]
    have hheader := hothers (.header .read)
    have hpacket := hothers (.body (.ioRequest packet))
    rw [sendReadRequest]
    rw [DistributedCode.serve] at hcalls
    omega
  | terminate =>
    have hloop : weightOf (sendTerminationRequest origin L.mpiWorldSize) ≤ 6 * L.mpiWorldSize :=
      weightOf_loop (fun _ => Nat.le_refl 6) _
    show weightOf (sendTerminationRequest origin L.mpiWorldSize) ≤ _
    omega
  | createFile name => exact hbody _ _
  | deleteFile name => exact hbody _ _
  | createDir dirAbsPath => exact hbody _ _
  | deleteDir dirAbsPath => exact hbody _ _
  | rename oldName newName => exact hbody _ _

end Weights

namespace Waiting

variable {L : Launch} {waits : ℕ → ℕ → ℕ → Prop} [∀ k p q, Decidable (waits k p q)] {s s' : Waiting}

/-! ### What is left to do -/

/-- What a rank has to send, and what it has sent. -/
def sending (L : Launch) (s : Waiting) (p : ℕ) : ℕ :=
  weightOf (s.network.fuseThread p) + ∑ q ∈ Finset.range L.mpiWorldSize, 5 * (s.network.channel p q).length

/-- A thread that is inside of a collective has it to leave. -/
def leaving (s : Waiting) (p : ℕ) (thread : Thread) : ℕ := if (s.inside (p, thread)).isSome then 1 else 0

/-- What a rank has to serve. -/
def serving (s : Waiting) (p : ℕ) : ℕ :=
  2 * (s.network.mpiThread p).calls.length + s.leaving p .fuse + s.leaving p .mpi

/-- No more moves than this are left, but for those that come with new requests. -/
def weight (L : Launch) (s : Waiting) : ℕ :=
  ∑ p ∈ Finset.range L.mpiWorldSize, s.sending L p + ∑ p ∈ Finset.range L.mpiWorldSize, s.serving p

theorem sending_congr {p : ℕ} (hfuse : s'.network.fuseThread p = s.network.fuseThread p)
    (hchannel : s'.network.channel p = s.network.channel p) : s'.sending L p = s.sending L p := by
  rw [sending, sending, hfuse, hchannel]

theorem serving_congr {p : ℕ} (hmpi : s'.network.mpiThread p = s.network.mpiThread p)
    (hinside : ∀ thread, s'.inside (p, thread) = s.inside (p, thread)) : s'.serving p = s.serving p := by
  rw [serving, serving, leaving, leaving, leaving, leaving, hmpi, hinside, hinside]

theorem leaving_none {p : ℕ} {thread : Thread} (h : s.inside (p, thread) = none) : s.leaving p thread = 0 := by
  rw [leaving, h]
  rfl

theorem leaving_some {p k : ℕ} {thread : Thread} (h : s.inside (p, thread) = some k) :
    s.leaving p thread = 1 := by
  rw [leaving, h]
  rfl

theorem leaving_congr {p : ℕ} {thread : Thread} (h : s'.inside (p, thread) = s.inside (p, thread)) :
    s'.leaving p thread = s.leaving p thread := by
  rw [leaving, leaving, h]

/-- One rank's part of the work changes. -/
theorem weight_change {p : ℕ} (hp : p < L.mpiWorldSize) (hsending : ∀ q, q ≠ p → s'.sending L q = s.sending L q)
    (hserving : ∀ q, q ≠ p → s'.serving q = s.serving q) :
    s'.weight L + (s.sending L p + s.serving p) = s.weight L + (s'.sending L p + s'.serving p) := by
  have hsent := Lib.Lockstep.sum_change hp hsending
  have hserved := Lib.Lockstep.sum_change hp hserving
  rw [weight, weight]
  omega

theorem weight_start {rank : ℕ} {request : Request} (hrank : rank < L.mpiWorldSize)
    (hnetwork : s'.network = s.network.startRequest L rank request) (hinside : s'.inside = s.inside) :
    s'.weight L ≤ s.weight L + (12 * L.mpiWorldSize + 4) := by
  have hserving : ∀ q, s'.serving q = s.serving q := by
    intro q
    exact serving_congr (by rw [hnetwork]; rfl) fun _ => by rw [hinside]
  obtain ⟨hprogram, hothers⟩ := fuseThread_setFuse hnetwork
  have hother : ∀ q, q ≠ rank → s'.sending L q = s.sending L q :=
    fun q hq => sending_congr (hothers q hq) (by rw [hnetwork]; rfl)
  have hself : s'.sending L rank ≤ s.sending L rank + (12 * L.mpiWorldSize + 4) := by
    have hweight := weightOf_program L rank (s.network.requests rank).length request
    have hchannel : s'.network.channel = s.network.channel := by
      rw [hnetwork]
      rfl
    rw [sending, sending, hprogram, hchannel]
    omega
  have hchange := weight_change hrank hother fun q _ => hserving q
  rw [hserving] at hchange
  omega

theorem weight_send {rank destination : ℕ} {m : Message} {rest : List Action} (hrank : rank < L.mpiWorldSize)
    (hfuse : s.network.fuseThread rank = .send destination m :: rest)
    (hnetwork : s'.network = (s.network.post rank destination m).setFuse rank rest)
    (hinside : s'.inside = s.inside) : s'.weight L + 1 ≤ s.weight L := by
  have hserving : ∀ q, s'.serving q = s.serving q := by
    intro q
    exact serving_congr (by rw [hnetwork]; rfl) fun _ => by rw [hinside]
  obtain ⟨hrest, hothers⟩ := fuseThread_setFuse hnetwork
  have hother : ∀ q, q ≠ rank → s'.sending L q = s.sending L q := by
    intro q hq
    refine sending_congr (hothers q hq) ?_
    rw [hnetwork]
    exact Function.update_of_ne hq ..
  have hrow : s'.network.channel rank =
      Function.update (s.network.channel rank) destination (s.network.channel rank destination ++ [m]) := by
    rw [hnetwork]
    exact Function.update_self ..
  have hchannels : ∑ q ∈ Finset.range L.mpiWorldSize, 5 * (s'.network.channel rank q).length ≤
      ∑ q ∈ Finset.range L.mpiWorldSize, 5 * (s.network.channel rank q).length + 5 := by
    have hsame : ∀ q, q ≠ destination →
        5 * (s'.network.channel rank q).length = 5 * (s.network.channel rank q).length := by
      intro q hq
      rw [hrow, Function.update_of_ne hq]
    by_cases hdestination : destination < L.mpiWorldSize
    · have hchange := Lib.Lockstep.sum_change hdestination hsame
      rw [hrow, Function.update_self, List.length_append, List.length_singleton] at hchange
      rw [hrow]
      omega
    · -- no rank of the program
      rw [Finset.sum_congr rfl fun q hq => hsame q fun heq => hdestination (heq ▸ Finset.mem_range.mp hq)]
      omega
  have hself : s'.sending L rank + 1 ≤ s.sending L rank := by
    have hweight : weightOf (.send destination m :: rest) = 6 + weightOf rest := rfl
    rw [sending, sending, hrest, hfuse, hweight]
    omega
  have hchange := weight_change hrank hother fun q _ => hserving q
  rw [hserving] at hchange
  omega

theorem weight_enter {rank : ℕ} {call : CollectiveCall} {rest : List Action} {k : ℕ}
    (hrank : rank < L.mpiWorldSize) (houtside : s.inside (rank, .fuse) = none)
    (hfuse : s.network.fuseThread rank = .enter call :: rest)
    (hnetwork : s'.network = (s.network.enter rank call).setFuse rank rest)
    (hinside : s'.inside = Function.update s.inside (rank, .fuse) (some k)) :
    s'.weight L + 1 ≤ s.weight L := by
  obtain ⟨hrest, hothers⟩ := fuseThread_setFuse hnetwork
  have hother : ∀ q, q ≠ rank → s'.sending L q = s.sending L q :=
    fun q hq => sending_congr (hothers q hq) (by rw [hnetwork]; rfl)
  have hother' : ∀ q, q ≠ rank → s'.serving q = s.serving q := by
    intro q hq
    refine serving_congr (by rw [hnetwork]; rfl) fun thread => ?_
    rw [hinside, Function.update_of_ne fun heq => hq (congrArg Prod.fst heq)]
  have hself : s'.sending L rank + 2 = s.sending L rank := by
    have hweight : weightOf (.enter call :: rest) = 2 + weightOf rest := rfl
    have hchannel : s'.network.channel = s.network.channel := by
      rw [hnetwork]
      rfl
    rw [sending, sending, hrest, hfuse, hweight, hchannel]
    omega
  have hself' : s'.serving rank = s.serving rank + 1 := by
    have hin : s'.leaving rank .fuse = 1 := leaving_some (k := k) (by rw [hinside, Function.update_self])
    have hmpi : s'.leaving rank .mpi = s.leaving rank .mpi := by
      apply leaving_congr
      rw [hinside, Function.update_of_ne (by simp)]
    have hcalls : s'.network.mpiThread = s.network.mpiThread := by
      rw [hnetwork]
      rfl
    rw [serving, serving, hin, hmpi, leaving_none houtside, hcalls]
    omega
  have hchange := weight_change hrank hother hother'
  omega

/-- A message gives its rank two collectives at most. -/
theorem length_calls_receive {rank source : ℕ} {m : Message} {thread thread' : MpiThread}
    (h : thread.receive L rank source m = some thread') : thread'.calls.length ≤ 2 := by
  obtain ⟨origin, content⟩ := m
  cases thread with
  | running calls =>
    cases calls with
    | cons call calls => cases h
    | nil =>
      cases content with
      | body body =>
        obtain rfl := Option.some.inj h
        exact Nat.zero_le 2
      | header type =>
        simp only [MpiThread.receive] at h
        split at h
        · obtain rfl := Option.some.inj h
          exact Nat.zero_le 2
        · split at h <;> obtain rfl := Option.some.inj h <;> exact Nat.zero_le 2
  | waiting type source' o =>
    cases content with
    | header type' =>
      obtain rfl := Option.some.inj h
      exact Nat.zero_le 2
    | body body =>
      simp only [MpiThread.receive] at h
      split at h
      · obtain rfl := Option.some.inj h
        exact DistributedCode.length_serve_le L source rank type body
      · obtain rfl := Option.some.inj h
        exact Nat.zero_le 2
  | terminated => cases h
  | undefined => cases h

theorem weight_receive {rank source : ℕ} {m : Message} {rest : List Message} {thread : MpiThread}
    (hrank : rank < L.mpiWorldSize) (hsource : source < L.mpiWorldSize)
    (hchannel : s.network.channel source rank = m :: rest)
    (hthread : (s.network.mpiThread rank).receive L rank source m = some thread)
    (hnetwork : s'.network = ((s.network.setChannel source rank rest).setMpi rank thread).logReceipt rank
      ⟨s.network.mpiThread rank, source, m⟩)
    (hinside : s'.inside = s.inside) : s'.weight L + 1 ≤ s.weight L := by
  have hsending : ∀ q, q ≠ source → s'.sending L q = s.sending L q := by
    intro q hq
    refine sending_congr (by rw [hnetwork]; rfl) ?_
    rw [hnetwork]
    exact Function.update_of_ne hq ..
  have hserving : ∀ q, q ≠ rank → s'.serving q = s.serving q := by
    intro q hq
    refine serving_congr ?_ fun _ => by rw [hinside]
    rw [hnetwork]
    exact Function.update_of_ne hq ..
  have hrow : s'.network.channel source = Function.update (s.network.channel source) rank rest := by
    rw [hnetwork]
    exact Function.update_self ..
  have hsent : s'.sending L source + 5 = s.sending L source := by
    have hsame : ∀ q, q ≠ rank →
        5 * (s'.network.channel source q).length = 5 * (s.network.channel source q).length := by
      intro q hq
      rw [hrow, Function.update_of_ne hq]
    have hchange := Lib.Lockstep.sum_change hrank hsame
    rw [hchannel, List.length_cons, hrow, Function.update_self] at hchange
    have hfuse : s'.network.fuseThread = s.network.fuseThread := by
      rw [hnetwork]
      rfl
    rw [sending, sending, hfuse, hrow]
    omega
  have hserved : s'.serving rank ≤ s.serving rank + 4 := by
    have hcalls := length_calls_receive hthread
    have hmpi : s'.network.mpiThread rank = thread := by
      rw [hnetwork]
      exact Function.update_self ..
    have hleaving : ∀ thread, s'.leaving rank thread = s.leaving rank thread :=
      fun _ => leaving_congr (by rw [hinside])
    rw [serving, serving, hmpi, hleaving, hleaving]
    omega
  have hchange := Lib.Lockstep.sum_change hsource hsending
  have hchange' := Lib.Lockstep.sum_change hrank hserving
  rw [weight, weight]
  omega

theorem weight_serve {rank : ℕ} {call : CollectiveCall} {rest : List CollectiveCall} {k : ℕ}
    (hrank : rank < L.mpiWorldSize) (houtside : s.inside (rank, .mpi) = none)
    (hmpi : s.network.mpiThread rank = .running (call :: rest))
    (hnetwork : s'.network = (s.network.enter rank call).setMpi rank (.running rest))
    (hinside : s'.inside = Function.update s.inside (rank, .mpi) (some k)) : s'.weight L + 1 ≤ s.weight L := by
  have hsending : ∀ q, s'.sending L q = s.sending L q := by
    intro q
    exact sending_congr (by rw [hnetwork]; rfl) (by rw [hnetwork]; rfl)
  have hother : ∀ q, q ≠ rank → s'.serving q = s.serving q := by
    intro q hq
    refine serving_congr ?_ fun thread => ?_
    · rw [hnetwork]
      exact Function.update_of_ne hq ..
    · rw [hinside, Function.update_of_ne fun heq => hq (congrArg Prod.fst heq)]
  have hself : s'.serving rank + 1 = s.serving rank := by
    have hin : s'.leaving rank .mpi = 1 := leaving_some (k := k) (by rw [hinside, Function.update_self])
    have hfuse : s'.leaving rank .fuse = s.leaving rank .fuse := by
      apply leaving_congr
      rw [hinside, Function.update_of_ne (by simp)]
    have hrest : s'.network.mpiThread rank = .running rest := by
      rw [hnetwork]
      exact Function.update_self ..
    rw [serving, serving, hin, hfuse, leaving_none houtside, hrest, hmpi, MpiThread.calls, MpiThread.calls,
      List.length_cons]
    omega
  have hchange := weight_change hrank (fun q _ => hsending q) hother
  rw [hsending] at hchange
  omega

theorem weight_leave {rank k : ℕ} {thread : Thread} (hrank : rank < L.mpiWorldSize)
    (hin : s.inside (rank, thread) = some k) (hnetwork : s'.network = s.network)
    (hinside : s'.inside = Function.update s.inside (rank, thread) none) : s'.weight L + 1 = s.weight L := by
  have hsending : ∀ q, s'.sending L q = s.sending L q := by
    intro q
    exact sending_congr (by rw [hnetwork]) (by rw [hnetwork])
  have hother : ∀ q, q ≠ rank → s'.serving q = s.serving q := by
    intro q hq
    refine serving_congr (by rw [hnetwork]) fun thread => ?_
    rw [hinside, Function.update_of_ne fun heq => hq (congrArg Prod.fst heq)]
  have hout : s'.leaving rank thread = 0 := leaving_none (by rw [hinside, Function.update_self])
  have hself : s'.serving rank + 1 = s.serving rank := by
    have hone := leaving_some hin
    cases thread with
    | fuse =>
      have hmpi : s'.leaving rank .mpi = s.leaving rank .mpi := by
        apply leaving_congr
        rw [hinside, Function.update_of_ne (by simp)]
      rw [serving, serving, hout, hone, hmpi, hnetwork]
      omega
    | mpi =>
      have hfuse : s'.leaving rank .fuse = s.leaving rank .fuse := by
        apply leaving_congr
        rw [hinside, Function.update_of_ne (by simp)]
      rw [serving, serving, hout, hone, hfuse, hnetwork]
  have hchange := weight_change hrank (fun q _ => hsending q) hother
  rw [hsending] at hchange
  omega

/-- **The step lemma.** -/
theorem weight_step {m : Move} (hframed : Framed L s.network) (h : Entering L s)
    (hstep : step L waits s m = some s') :
    s'.weight L + 1 ≤ s.weight L + if m.isStart then 12 * L.mpiWorldSize + 5 else 0 := by
  cases m with
  | leave rank thread =>
    obtain ⟨k, hin, hs'⟩ := step_leave hstep
    exact (weight_leave (h.entered rank thread k hin).1 hin (by rw [hs']) (by rw [hs'])).le
  | event e =>
    obtain ⟨hlt, houtside, hnetwork, hinside⟩ := step_event hstep
    cases e with
    | start rank request =>
      have hweight := weight_start hlt (Network.step_start hnetwork).2.2 hinside
      rw [Move.isStart, if_pos rfl]
      omega
    | fuse rank =>
      rcases Network.step_fuse hnetwork with ⟨destination, m, rest, hfuse, hs'⟩ | ⟨call, rest, hfuse, hs'⟩
      · rw [Event.enters, hfuse] at hinside
        exact weight_send hlt hfuse hs' hinside
      · rw [Event.enters, hfuse] at hinside
        exact weight_enter hlt houtside hfuse hs' hinside
    | receive rank source =>
      have hsource := lt_of_receive hframed hnetwork
      obtain ⟨m, rest, thread, hchannel, hthread, hs'⟩ := Network.step_receive hnetwork
      exact weight_receive hlt hsource hchannel hthread hs' hinside
    | serve rank =>
      obtain ⟨call, rest, hmpi, hs'⟩ := Network.step_serve hnetwork
      exact weight_serve hlt houtside hmpi hs' hinside

theorem framed_move {m : Move} (h : Framed L s.network) (hok : s.StartsAlone L m)
    (hstep : step L waits s m = some s') : Framed L s'.network := by
  cases m with
  | event e => exact framed_step h hok.startsClear (step_event hstep).2.2.1
  | leave rank thread =>
    obtain ⟨_, _, rfl⟩ := step_leave hstep
    exact h

/-- The run lemma: each start pays for the moves that it leads to. -/
theorem weight_run {moves : List Move} (hframed : Framed L s.network) (h : Entering L s)
    (halone : Along (step L waits) (StartsAlone L) s moves) (hrun : run (step L waits) s moves = some s') :
    Entering L s' ∧
      moves.length + s'.weight L ≤ s.weight L + (12 * L.mpiWorldSize + 5) * moves.countP Move.isStart := by
  induction moves generalizing s with
  | nil =>
    obtain rfl := Option.some.inj hrun
    exact ⟨h, by simp⟩
  | cons m moves ih =>
    obtain ⟨s₁, hfirst, hrest⟩ := Option.bind_eq_some_iff.mp hrun
    obtain ⟨hok, hlater⟩ := halone
    obtain ⟨hend, hbound⟩ :=
      ih (framed_move hframed hok hfirst) (entering_step h hfirst) (hlater s₁ hfirst) hrest
    refine ⟨hend, ?_⟩
    have hstep := weight_step hframed h hfirst
    rw [List.length_cons, List.countP_cons]
    cases hstart : m.isStart with
    | true =>
      rw [hstart, if_pos rfl] at hstep
      rw [if_pos rfl, Nat.mul_succ]
      omega
    | false =>
      rw [hstart, if_neg Bool.false_ne_true] at hstep
      rw [if_neg Bool.false_ne_true, Nat.mul_add, Nat.mul_zero]
      omega

theorem weight_initial (L : Launch) : weight L initial = 0 := by
  have hsending : ∀ p, initial.sending L p = 0 := by
    intro p
    show 0 + ∑ q ∈ Finset.range L.mpiWorldSize, 0 = 0
    simp
  have hserving : ∀ p, initial.serving p = 0 := fun _ => rfl
  simp [weight, hsending, hserving]

/-- **All requests are carried out at all ranks**, in every interleaving and whatever MPI has the ranks wait
for, when requests start alone and the program is not ended: a run has no more than `12 * n + 5` moves for each
request, and no thread can go on exactly when everything has been done. -/
theorem completes_of_startsAlone (L : Launch) (waits : ℕ → ℕ → ℕ → Prop) [∀ k p q, Decidable (waits k p q)]
    (moves : List Move) (s : Waiting) (halone : Along (step L waits) (StartsAlone L) initial moves)
    (hrun : run (step L waits) initial moves = some s) (hterm : s.network.Unterminated L) :
    moves.length ≤ (12 * L.mpiWorldSize + 5) * moves.countP Move.isStart ∧
      (s.Stuck L waits ↔ s.Complete L) := by
  obtain ⟨hnetwork, hnetworkRun⟩ := network_run halone hrun
  obtain ⟨common, ha⟩ := aligned_run hnetwork hnetworkRun
  have hclear := hnetwork.mono fun _ _ => PeerToPeer.StartsAlone.startsClear
  have hdelivering := delivering_run (delivering_initial L) hclear hnetworkRun
  obtain ⟨hentering, hbound⟩ := weight_run (framed_initial L) (entering_initial L) halone hrun
  rw [weight_initial] at hbound
  refine ⟨by omega, fun hstuck => ?_, stuck_of_complete⟩
  exact complete_of_stuck hstuck hentering hdelivering ha hterm

/-- A write at one of two peers that wait for each other in every collective. -/
theorem completes_of_startsAlone_write : ∃ s : Waiting,
    run (step ⟨2, 4, by decide, by decide⟩ fun _ _ _ => True) initial
      [.event (.start 0 (.write ⟨2, 6, 0, 0⟩)), .event (.fuse 0), .event (.fuse 0), .event (.fuse 0),
        .event (.receive 1 0), .event (.receive 1 0), .event (.serve 1), .leave 0 .fuse, .event (.fuse 0),
        .leave 1 .mpi, .event (.serve 1), .leave 1 .mpi, .leave 0 .fuse] = some s ∧
    s.Complete ⟨2, 4, by decide, by decide⟩ := by
  have hfacts : (run (step ⟨2, 4, by decide, by decide⟩ fun _ _ _ => True) initial
      [.event (.start 0 (.write ⟨2, 6, 0, 0⟩)), .event (.fuse 0), .event (.fuse 0), .event (.fuse 0),
        .event (.receive 1 0), .event (.receive 1 0), .event (.serve 1), .leave 0 .fuse, .event (.fuse 0),
        .leave 1 .mpi, .event (.serve 1), .leave 1 .mpi, .leave 0 .fuse]).map (fun s =>
          decide (s.network.Unterminated ⟨2, 4, by decide, by decide⟩ ∧
            s.Stuck ⟨2, 4, by decide, by decide⟩ fun _ _ _ => True)) = some true := by
    decide +kernel
  obtain ⟨s, hrun, hs⟩ := Option.map_eq_some_iff.mp hfacts
  obtain ⟨hterm, hstuck⟩ := of_decide_eq_true hs
  exact ⟨s, hrun, (completes_of_startsAlone _ _ _ s (by decide +kernel) hrun hterm).2.mp hstuck⟩

end Waiting

end DagonFs.PeerToPeer
