import Mathlib.Data.Finset.Max
import DagonFs.PeerToPeer.Collectives
import DagonFs.PeerToPeer.Delivery

/-!
# Collectives that wait

The peers when a collective does hold a thread back: the thread that has entered one leaves it when the ranks
that it waits for there (`waits`) have entered as many.  Which these are is left open, as a library may
synchronise more than a call needs.  The other thread of the rank goes on meanwhile.

* `Entering`: a thread inside of a collective is in one that its rank has entered, and has nothing to send.
* `idle_of_stuck`: where no thread can go on, nothing is left to do at a rank that has entered the fewest, and
  so at none.
* `complete_of_stuck`: so that then everything has been done, unless a peer has ended the program.
-/

namespace DagonFs.PeerToPeer

open DagonFs.Lib.Runs

inductive Thread where
  | fuse
  | mpi
  deriving DecidableEq

/-- The thread that takes the step. -/
def Event.thread : Event → ℕ × Thread
  | .start rank _ => (rank, .fuse)
  | .fuse rank => (rank, .fuse)
  | .receive rank _ => (rank, .mpi)
  | .serve rank => (rank, .mpi)

def Action.isEnter : Action → Bool
  | .enter _ => true
  | .send _ _ => false

/-- The step enters a collective. -/
def Event.enters (s : Network) : Event → Bool
  | .fuse rank => (s.fuseThread rank).head?.any Action.isEnter
  | .serve _ => true
  | _ => false

/-- The peers, with the collective that each thread is inside of, as its place among those of the rank. -/
structure Waiting where
  network : Network
  inside : ℕ × Thread → Option ℕ

inductive Move where
  | event (e : Event)
  | leave (rank : ℕ) (thread : Thread)

def Move.isStart : Move → Bool
  | .event (.start _ _) => true
  | _ => false

/-- The moves that are steps of the network. -/
def Move.events (moves : List Move) : List Event :=
  moves.filterMap fun
    | .event e => some e
    | .leave _ _ => none

namespace Waiting

def initial : Waiting := ⟨Network.initial, fun _ => none⟩

section Step

variable (L : Launch) (waits : ℕ → ℕ → ℕ → Prop) [∀ k p q, Decidable (waits k p q)] (s : Waiting)

/-- All that `rank` waits for in its `k`-th collective have entered as many. -/
def MayLeave (k rank : ℕ) : Prop :=
  ∀ q < L.mpiWorldSize, waits k rank q → k < (s.network.entered q).length

instance (k rank : ℕ) : Decidable (s.MayLeave L waits k rank) :=
  inferInstanceAs (Decidable (∀ q < L.mpiWorldSize, _ → _))

/-- One step; `none` when it cannot be taken. -/
def step (s : Waiting) : Move → Option Waiting
  | .event e =>
    if e.thread.1 < L.mpiWorldSize ∧ s.inside e.thread = none then
      (s.network.step L e).map fun network =>
        ⟨network, if e.enters s.network then
          Function.update s.inside e.thread (some (s.network.entered e.thread.1).length) else s.inside⟩
    else none
  | .leave rank thread =>
    match s.inside (rank, thread) with
    | none => none
    | some k =>
      if s.MayLeave L waits k rank then
        some { s with inside := Function.update s.inside (rank, thread) none }
      else none

/-- The condition on a step: a request starts alone. -/
def StartsAlone : Move → Prop
  | .event e => PeerToPeer.StartsAlone L s.network e
  | .leave _ _ => True

instance : DecidablePred (s.StartsAlone L)
  | .event e => inferInstanceAs (Decidable (PeerToPeer.StartsAlone L s.network e))
  | .leave _ _ => isTrue trivial

/-- No thread can go on with what it has begun. -/
def Stuck : Prop :=
  ∀ rank < L.mpiWorldSize, (s.step L waits (.event (.fuse rank))).isNone = true ∧
    (∀ source < L.mpiWorldSize, (s.step L waits (.event (.receive rank source))).isNone = true) ∧
    (s.step L waits (.event (.serve rank))).isNone = true ∧
    (s.step L waits (.leave rank .fuse)).isNone = true ∧ (s.step L waits (.leave rank .mpi)).isNone = true

instance : Decidable (s.Stuck L waits) :=
  inferInstanceAs (Decidable (∀ rank < L.mpiWorldSize, _ = true ∧ (∀ source < L.mpiWorldSize, _ = true) ∧
    _ = true ∧ _ = true ∧ _ = true))

/-- Every request has been carried out everywhere: the threads are outside of the collectives and have nothing
to do, nothing is in flight, all ranks have entered the same collectives, and each has handled the requests of
the others. -/
structure Complete : Prop where
  outside : ∀ rank < L.mpiWorldSize, ∀ thread, s.inside (rank, thread) = none
  threads : ∀ rank < L.mpiWorldSize, s.network.fuseThread rank = [] ∧ s.network.mpiThread rank = .running []
  channels : ∀ rank < L.mpiWorldSize, ∀ source < L.mpiWorldSize, s.network.channel source rank = []
  collectives : ∀ p < L.mpiWorldSize, ∀ q < L.mpiWorldSize, s.network.entered p = s.network.entered q
  requests : ∀ rank < L.mpiWorldSize, ∀ source < L.mpiWorldSize, source ≠ rank →
    s.network.handledFrom rank source = (s.network.requests source).map Request.announced

end Step

/-! ### Steps -/

variable {L : Launch} {waits : ℕ → ℕ → ℕ → Prop} [∀ k p q, Decidable (waits k p q)] {s s' : Waiting}

theorem step_event {e : Event} (h : step L waits s (.event e) = some s') :
    e.thread.1 < L.mpiWorldSize ∧ s.inside e.thread = none ∧ s.network.step L e = some s'.network ∧
      s'.inside = if e.enters s.network then
        Function.update s.inside e.thread (some (s.network.entered e.thread.1).length) else s.inside := by
  simp only [step] at h
  split at h
  · rename_i hthread
    obtain ⟨network, hnetwork, rfl⟩ := Option.map_eq_some_iff.mp h
    exact ⟨hthread.1, hthread.2, hnetwork, rfl⟩
  · cases h

theorem step_leave {rank : ℕ} {thread : Thread} (h : step L waits s (.leave rank thread) = some s') :
    ∃ k, s.inside (rank, thread) = some k ∧
      s' = { s with inside := Function.update s.inside (rank, thread) none } := by
  simp only [step] at h
  split at h
  · cases h
  · rename_i k hinside
    split at h
    · exact ⟨k, hinside, (Option.some.inj h).symm⟩
    · cases h

/-- A thread that is outside of the collectives is held back by nothing but the network. -/
theorem network_of_blocked {e : Event} (h : (s.step L waits (.event e)).isNone = true)
    (hlt : e.thread.1 < L.mpiWorldSize) (hinside : s.inside e.thread = none) : s.network.step L e = none := by
  rw [Option.isNone_iff_eq_none] at h
  simp only [step, if_pos (And.intro hlt hinside), Option.map_eq_none_iff] at h
  exact h

/-- A run of the peers that wait is a run of the network. -/
theorem network_run {moves : List Move} (halone : Along (step L waits) (StartsAlone L) s moves)
    (hrun : run (step L waits) s moves = some s') :
    Along (Network.step L) (PeerToPeer.StartsAlone L) s.network (Move.events moves) ∧
      run (Network.step L) s.network (Move.events moves) = some s'.network := by
  induction moves generalizing s with
  | nil =>
    obtain rfl := Option.some.inj hrun
    exact ⟨trivial, rfl⟩
  | cons m moves ih =>
    obtain ⟨s₁, hfirst, hrest⟩ := Option.bind_eq_some_iff.mp hrun
    obtain ⟨hok, hlater⟩ := halone
    obtain ⟨halone', hrun'⟩ := ih (hlater s₁ hfirst) hrest
    cases m with
    | event e =>
      obtain ⟨-, -, hnetwork, -⟩ := step_event hfirst
      exact ⟨Along.cons hok hnetwork halone', (run_cons ..).trans (by rw [hnetwork]; exact hrun')⟩
    | leave rank thread =>
      obtain ⟨_, _, rfl⟩ := step_leave hfirst
      exact ⟨halone', hrun'⟩

end Waiting

/-! ### The order of the actions -/

/-- Messages, and then collectives. -/
def SendsFirst : List Action → Prop
  | [] => True
  | .send _ _ :: rest => SendsFirst rest
  | .enter _ :: rest => ∀ a ∈ rest, a.isEnter = true

theorem sendsTo_eq_nil {as : List Action} (h : ∀ a ∈ as, a.isEnter = true) (rank : ℕ) : sendsTo rank as = [] := by
  induction as with
  | nil => rfl
  | cons a as ih =>
    obtain ⟨ha, has⟩ := List.forall_mem_cons.mp h
    cases a with
    | send destination m => cases ha
    | enter call => exact ih has

theorem sendsFirst_of_isEnter {as : List Action} (h : ∀ a ∈ as, a.isEnter = true) : SendsFirst as := by
  cases as with
  | nil => trivial
  | cons a as =>
    obtain ⟨ha, has⟩ := List.forall_mem_cons.mp h
    cases a with
    | send destination m => cases ha
    | enter call => exact has

theorem sendsFirst_append {as bs : List Action} (has : ∀ a ∈ as, a.isEnter = false) (hbs : SendsFirst bs) :
    SendsFirst (as ++ bs) := by
  induction as with
  | nil => exact hbs
  | cons a as ih =>
    obtain ⟨ha, hrest⟩ := List.forall_mem_cons.mp has
    cases a with
    | send destination m => exact ih hrest
    | enter call => cases ha

section Programs

open RequestSender

variable (origin sourceRank mpiWorldSize : ℕ)

theorem isEnter_sendToOthers (content : Content) :
    ∀ a ∈ sendToOthers origin sourceRank mpiWorldSize content, a.isEnter = false := by
  intro a ha
  obtain ⟨i, -, hi⟩ := List.mem_flatMap.mp ha
  split at hi
  · obtain rfl := List.mem_singleton.mp hi
    rfl
  · cases hi

theorem isEnter_sendWithBody (type : RequestType) (body : Body) :
    ∀ a ∈ sendWithBody origin sourceRank mpiWorldSize type body, a.isEnter = false := by
  intro a ha
  obtain ⟨i, -, hi⟩ := List.mem_flatMap.mp ha
  rcases List.mem_cons.mp hi with rfl | hi
  · rfl
  · split at hi
    · obtain rfl := List.mem_singleton.mp hi
      rfl
    · cases hi

theorem isEnter_sendTerminationRequest :
    ∀ a ∈ sendTerminationRequest origin mpiWorldSize, a.isEnter = false := by
  intro a ha
  obtain ⟨i, -, hi⟩ := List.mem_flatMap.mp ha
  obtain rfl := List.mem_singleton.mp hi
  rfl

/-- A request sends what it has to send before it enters a collective. -/
theorem sendsFirst_program (L : Launch) (rank : ℕ) (r : Request) : SendsFirst (r.program L rank origin) := by
  have hothers := isEnter_sendToOthers origin rank L.mpiWorldSize
  have hcalls : ∀ calls : List CollectiveCall, SendsFirst (calls.map .enter) := by
    intro calls
    apply sendsFirst_of_isEnter
    intro a ha
    obtain ⟨_, _, rfl⟩ := List.mem_map.mp ha
    rfl
  have hsends : ∀ as : List Action, (∀ a ∈ as, a.isEnter = false) → SendsFirst as := by
    intro as has
    rw [← List.append_nil as]
    exact sendsFirst_append has trivial
  cases r with
  | write packet =>
    rw [Request.program, List.append_assoc]
    exact sendsFirst_append (hothers _) (sendsFirst_append (hothers _) (hcalls _))
  | read packet =>
    rw [Request.program, List.append_assoc]
    exact sendsFirst_append (hothers _) (sendsFirst_append (hothers _) (hcalls _))
  | terminate => exact hsends _ (isEnter_sendTerminationRequest _ _)
  | createFile name => exact hsends _ (isEnter_sendWithBody _ _ _ _ _)
  | deleteFile name => exact hsends _ (isEnter_sendWithBody _ _ _ _ _)
  | createDir dirAbsPath => exact hsends _ (isEnter_sendWithBody _ _ _ _ _)
  | deleteDir dirAbsPath => exact hsends _ (isEnter_sendWithBody _ _ _ _ _)
  | rename oldName newName => exact hsends _ (isEnter_sendWithBody _ _ _ _ _)

end Programs

namespace Waiting

variable {L : Launch} {waits : ℕ → ℕ → ℕ → Prop} [∀ k p q, Decidable (waits k p q)] {s s' : Waiting}

structure Entering (L : Launch) (s : Waiting) : Prop where
  sendsFirst : ∀ p, SendsFirst (s.network.fuseThread p)
  /-- A thread is inside of a collective that its rank has entered. -/
  entered : ∀ p thread k, s.inside (p, thread) = some k →
    p < L.mpiWorldSize ∧ k < (s.network.entered p).length
  /-- A FUSE thread that is inside of a collective has sent its messages. -/
  sent : ∀ p k, s.inside (p, .fuse) = some k → ∀ a ∈ s.network.fuseThread p, a.isEnter = true

theorem entering_initial (L : Launch) : Entering L initial where
  sendsFirst _ := trivial
  entered _ _ _ h := by cases h
  sent _ _ h := by cases h

/-- What a FUSE thread has to do changes at its own rank. -/
theorem fuseThread_setFuse {network next : Network} {rank : ℕ} {actions : List Action}
    (h : next = network.setFuse rank actions) :
    next.fuseThread rank = actions ∧ ∀ p, p ≠ rank → next.fuseThread p = network.fuseThread p := by
  rw [h]
  exact ⟨Function.update_self .., fun p hp => Function.update_of_ne hp ..⟩

/-- A step that enters no collective. -/
theorem Entering.outside (h : Entering L s) (hinside : s'.inside = s.inside)
    (hentered : s'.network.entered = s.network.entered)
    (hfuse : ∀ p, SendsFirst (s'.network.fuseThread p))
    (hsent : ∀ p k, s.inside (p, .fuse) = some k → s'.network.fuseThread p = s.network.fuseThread p) :
    Entering L s' where
  sendsFirst := hfuse
  entered p thread k hk := by
    rw [hentered]
    rw [hinside] at hk
    exact h.entered p thread k hk
  sent p k hk := by
    rw [hinside] at hk
    rw [hsent p k hk]
    exact h.sent p k hk

/-- A thread enters the next collective of its rank. -/
theorem Entering.enter {rank : ℕ} {thread : Thread} {call : CollectiveCall} (h : Entering L s)
    (hrank : rank < L.mpiWorldSize)
    (hinside : s'.inside = Function.update s.inside (rank, thread) (some (s.network.entered rank).length))
    (hentered : s'.network.entered =
      Function.update s.network.entered rank (s.network.entered rank ++ [call]))
    (hfuse : ∀ p, SendsFirst (s'.network.fuseThread p))
    (hsent : ∀ p k, s'.inside (p, .fuse) = some k → ∀ a ∈ s'.network.fuseThread p, a.isEnter = true) :
    Entering L s' where
  sendsFirst := hfuse
  entered p thread' k hk := by
    rw [hinside] at hk
    rw [hentered]
    by_cases hself : (p, thread') = (rank, thread)
    · obtain ⟨rfl, rfl⟩ := Prod.mk.inj hself
      rw [Function.update_self] at hk ⊢
      obtain rfl := Option.some.inj hk
      exact ⟨hrank, by simp⟩
    · rw [Function.update_of_ne hself] at hk
      obtain ⟨hp, hlt⟩ := h.entered p thread' k hk
      refine ⟨hp, ?_⟩
      by_cases hpr : p = rank
      · subst hpr
        rw [Function.update_self, List.length_append]
        omega
      · rw [Function.update_of_ne hpr]
        exact hlt
  sent := hsent

theorem entering_start {rank : ℕ} {request : Request} (h : Entering L s)
    (houtside : s.inside (rank, .fuse) = none)
    (hnetwork : s'.network = s.network.startRequest L rank request) (hinside : s'.inside = s.inside) :
    Entering L s' := by
  obtain ⟨hself, hother⟩ := fuseThread_setFuse hnetwork
  refine h.outside hinside (by rw [hnetwork]; rfl) (fun p => ?_) fun p k hk => hother p fun hp => ?_
  · by_cases hp : p = rank
    · rw [hp, hself]
      exact sendsFirst_program _ L rank request
    · rw [hother p hp]
      exact h.sendsFirst p
  · rw [hp, houtside] at hk
    cases hk

theorem entering_send {rank destination : ℕ} {m : Message} {rest : List Action} (h : Entering L s)
    (houtside : s.inside (rank, .fuse) = none) (hfuse : s.network.fuseThread rank = .send destination m :: rest)
    (hnetwork : s'.network = (s.network.post rank destination m).setFuse rank rest)
    (hinside : s'.inside = s.inside) : Entering L s' := by
  obtain ⟨hself, hother⟩ := fuseThread_setFuse hnetwork
  refine h.outside hinside (by rw [hnetwork]; rfl) (fun p => ?_) fun p k hk => hother p fun hp => ?_
  · by_cases hp : p = rank
    · have hfirst := h.sendsFirst rank
      rw [hfuse] at hfirst
      rw [hp, hself]
      exact hfirst
    · rw [hother p hp]
      exact h.sendsFirst p
  · rw [hp, houtside] at hk
    cases hk

theorem entering_enter {rank : ℕ} {call : CollectiveCall} {rest : List Action} (h : Entering L s)
    (hrank : rank < L.mpiWorldSize) (hfuse : s.network.fuseThread rank = .enter call :: rest)
    (hnetwork : s'.network = (s.network.enter rank call).setFuse rank rest)
    (hinside : s'.inside = Function.update s.inside (rank, .fuse) (some (s.network.entered rank).length)) :
    Entering L s' := by
  obtain ⟨hself, hother⟩ := fuseThread_setFuse hnetwork
  have hrest : ∀ a ∈ rest, a.isEnter = true := by
    have hfirst := h.sendsFirst rank
    rw [hfuse] at hfirst
    exact hfirst
  refine h.enter hrank hinside (by rw [hnetwork]; rfl) (fun p => ?_) fun p k hk => ?_
  · by_cases hp : p = rank
    · rw [hp, hself]
      exact sendsFirst_of_isEnter hrest
    · rw [hother p hp]
      exact h.sendsFirst p
  · by_cases hp : p = rank
    · rw [hp, hself]
      exact hrest
    · rw [hinside, Function.update_of_ne fun heq => hp (congrArg Prod.fst heq)] at hk
      rw [hother p hp]
      exact h.sent p k hk

theorem entering_serve {rank : ℕ} {call : CollectiveCall} {rest : List CollectiveCall} (h : Entering L s)
    (hrank : rank < L.mpiWorldSize)
    (hnetwork : s'.network = (s.network.enter rank call).setMpi rank (.running rest))
    (hinside : s'.inside = Function.update s.inside (rank, .mpi) (some (s.network.entered rank).length)) :
    Entering L s' := by
  refine h.enter hrank hinside (by rw [hnetwork]; rfl) (fun p => ?_) fun p k hk => ?_
  · rw [hnetwork]
    exact h.sendsFirst p
  · have hthread : ((p, .fuse) : ℕ × Thread) ≠ (rank, .mpi) := by simp
    rw [hinside, Function.update_of_ne hthread] at hk
    rw [hnetwork]
    exact h.sent p k hk

theorem entering_leave {at' : ℕ × Thread} (h : Entering L s) :
    Entering L { s with inside := Function.update s.inside at' none } := by
  have hkept : ∀ p thread k, Function.update s.inside at' none (p, thread) = some k →
      s.inside (p, thread) = some k := by
    intro p thread k hk
    by_cases hself : (p, thread) = at'
    · rw [hself, Function.update_self] at hk
      cases hk
    · rwa [Function.update_of_ne hself] at hk
  exact ⟨h.sendsFirst, fun p thread k hk => h.entered p thread k (hkept p thread k hk),
    fun p k hk => h.sent p k (hkept p .fuse k hk)⟩

/-- **The step lemma.** -/
theorem entering_step {m : Move} (h : Entering L s) (hstep : step L waits s m = some s') : Entering L s' := by
  cases m with
  | leave rank thread =>
    obtain ⟨_, _, rfl⟩ := step_leave hstep
    exact entering_leave h
  | event e =>
    obtain ⟨hlt, houtside, hnetwork, hinside⟩ := step_event hstep
    cases e with
    | start rank request => exact entering_start h houtside (Network.step_start hnetwork).2.2 hinside
    | fuse rank =>
      rcases Network.step_fuse hnetwork with ⟨destination, m, rest, hfuse, hs'⟩ | ⟨call, rest, hfuse, hs'⟩
      · rw [Event.enters, hfuse] at hinside
        exact entering_send h houtside hfuse hs' hinside
      · rw [Event.enters, hfuse] at hinside
        exact entering_enter h hlt hfuse hs' hinside
    | receive rank source =>
      obtain ⟨_, _, _, _, _, hs'⟩ := Network.step_receive hnetwork
      refine h.outside hinside (by rw [hs']; rfl) (fun p => ?_) fun p k hk => by rw [hs']; rfl
      rw [hs']
      exact h.sendsFirst p
    | serve rank =>
      obtain ⟨call, rest, -, hs'⟩ := Network.step_serve hnetwork
      exact entering_serve h hlt hs' hinside

/-- What holds of the peers while requests start alone. -/
structure Orderly (L : Launch) (s : Waiting) : Prop where
  delivering : Delivering L s.network
  aligned : ∃ common, Aligned L s.network common
  entering : Entering L s

section Stuck

variable {common : List CollectiveCall}

/-- Nothing is left to do at the rank: its MPI thread has ended, or nothing is on the way to it. -/
structure Idle (s : Waiting) (p : ℕ) : Prop where
  outside : ∀ thread, s.inside (p, thread) = none
  fuseThread : s.network.fuseThread p = []
  mpiThread : s.network.mpiThread p = .terminated ∨
    s.network.mpiThread p = .running [] ∧ ∀ q, s.network.whole q p = []

/-- **A rank that has entered the fewest collectives is idle.** -/
theorem idle_of_least (hstuck : s.Stuck L waits) (h : Entering L s) (hdelivering : Delivering L s.network)
    {p : ℕ} (hp : p < L.mpiWorldSize)
    (hleast : ∀ q < L.mpiWorldSize, (s.network.entered p).length ≤ (s.network.entered q).length) :
    s.Idle p := by
  obtain ⟨hfuse, hreceive, hserve, hleave, hleave'⟩ := hstuck p hp
  -- all ranks have come to the collectives of this one
  have houtside : ∀ thread, s.inside (p, thread) = none := by
    intro thread
    by_contra hne
    obtain ⟨k, hk⟩ := Option.ne_none_iff_exists'.mp hne
    have hmay : s.MayLeave L waits k p :=
      fun q hq _ => (h.entered p thread k hk).2.trans_le (hleast q hq)
    cases thread with
    | fuse => simp [step, hk, if_pos hmay] at hleave
    | mpi => simp [step, hk, if_pos hmay] at hleave'
  -- a FUSE thread with messages to send is outside
  have hsent : ∀ q < L.mpiWorldSize, sendsTo p (s.network.fuseThread q) = [] := by
    intro q hq
    cases hrest : s.network.fuseThread q with
    | nil => rfl
    | cons a rest =>
      have hfirst := h.sendsFirst q
      rw [hrest] at hfirst
      cases a with
      | enter call => exact sendsTo_eq_nil hfirst p
      | send destination m =>
        exfalso
        have hfree : s.inside (q, .fuse) = none := by
          by_contra hne
          obtain ⟨k, hk⟩ := Option.ne_none_iff_exists'.mp hne
          have hall := h.sent q k hk
          rw [hrest] at hall
          cases (List.forall_mem_cons.mp hall).1
        have hnone := network_of_blocked (hstuck q hq).1 hq hfree
        simp only [Network.step, hrest] at hnone
        cases hnone
  have hidle : s.network.fuseThread p = [] := by
    have hnone := network_of_blocked hfuse hp (houtside .fuse)
    simp only [Network.step] at hnone
    split at hnone
    · assumption
    · cases hnone
    · cases hnone
  refine ⟨houtside, hidle, ?_⟩
  by_cases hended : s.network.mpiThread p = .terminated
  · exact Or.inl hended
  · exact Or.inr (whole_of_idle hdelivering hsent
      (fun q hq => network_of_blocked (hreceive q hq) hp (houtside .mpi))
      (network_of_blocked hserve hp (houtside .mpi)) hended)

/-- An idle rank has entered all collectives, unless its MPI thread has ended before its last one. -/
theorem Idle.entered {p : ℕ} (h : s.Idle p) (ha : Aligned L s.network common)
    (hended : s.network.mpiThread p = .terminated → s.network.onTheWay L p = [])
    (hp : p < L.mpiWorldSize) : s.network.entered p = common := by
  have howed : (s.network.mpiThread p).calls = [] ∧ s.network.onTheWay L p = [] := by
    rcases h.mpiThread with hterm | ⟨hrunning, hwhole⟩
    · exact ⟨by rw [hterm]; rfl, hended hterm⟩
    · refine ⟨by rw [hrunning]; rfl, ?_⟩
      rw [Network.onTheWay, List.flatMap_eq_nil_iff]
      intro q _
      rw [hwhole]
      rfl
  have hsequence := ha.sequence p hp
  rw [Network.owed, h.fuseThread, howed.1, howed.2] at hsequence
  rw [← hsequence]
  exact (List.append_nil _).symm

/-- **Where no thread can go on, all ranks are idle**, and have entered the same collectives. -/
theorem idle_of_stuck (hstuck : s.Stuck L waits) (h : Entering L s) (hdelivering : Delivering L s.network)
    (ha : Aligned L s.network common)
    (hended : ∀ p < L.mpiWorldSize, s.network.mpiThread p = .terminated → s.network.onTheWay L p = [])
    {p : ℕ} (hp : p < L.mpiWorldSize) : s.Idle p ∧ s.network.entered p = common := by
  obtain ⟨p₀, hp₀, hleast⟩ := Finset.exists_min_image (Finset.range L.mpiWorldSize)
    (fun q => (s.network.entered q).length) ⟨0, Finset.mem_range.mpr L.worldSize_pos⟩
  rw [Finset.mem_range] at hp₀
  have hidle₀ := idle_of_least hstuck h hdelivering hp₀ fun q hq => hleast q (Finset.mem_range.mpr hq)
  have hcommon := hidle₀.entered ha (hended p₀ hp₀) hp₀
  -- so that every rank has entered as many
  have hsame : ∀ q < L.mpiWorldSize, (s.network.entered q).length = common.length := by
    intro q hq
    apply le_antisymm
    · rw [← ha.sequence q hq, List.length_append]
      exact Nat.le_add_right _ _
    · rw [← hcommon]
      exact hleast q (Finset.mem_range.mpr hq)
  have hidle := idle_of_least hstuck h hdelivering hp fun q hq => ((hsame p hp).trans (hsame q hq).symm).le
  exact ⟨hidle, hidle.entered ha (hended p hp) hp⟩

theorem complete_of_stuck (hstuck : s.Stuck L waits) (h : Entering L s) (hdelivering : Delivering L s.network)
    (ha : Aligned L s.network common) (hterm : s.network.Unterminated L) : s.Complete L := by
  have hrunning : ∀ p, s.network.mpiThread p ≠ .terminated := by
    intro p hended
    obtain ⟨q, hq, hmem⟩ := hdelivering.terminated p hended
    exact hterm q hq hmem
  have hall := fun {p} (hp : p < L.mpiWorldSize) =>
    idle_of_stuck hstuck h hdelivering ha (fun p _ hended => absurd hended (hrunning p)) hp
  have hwaits := fun {p} (hp : p < L.mpiWorldSize) => (hall hp).1.mpiThread.resolve_left (hrunning p)
  constructor
  case outside => exact fun p hp => (hall hp).1.outside
  case threads => exact fun p hp => ⟨(hall hp).1.fuseThread, (hwaits hp).1⟩
  case channels =>
    intro p hp q hq
    have hwhole := (hwaits hp).2 q
    rw [Network.whole, Network.stream, List.append_eq_nil_iff, List.append_eq_nil_iff] at hwhole
    exact hwhole.2.1
  case collectives => exact fun p hp q hq => (hall hp).2.trans (hall hq).2.symm
  case requests =>
    intro p hp q hq hne
    have hsequence := hdelivering.sequence p hp q hq hne
    rw [(hwaits hp).2 q] at hsequence
    rw [← hsequence]
    exact (List.append_nil _).symm

theorem stuck_of_complete (h : s.Complete L) : s.Stuck L waits := by
  intro p hp
  obtain ⟨hfuse, hmpi⟩ := h.threads p hp
  have houtside := h.outside p hp
  refine ⟨?_, fun q hq => ?_, ?_, ?_, ?_⟩
  · simp [step, Network.step, hfuse]
  · simp [step, Network.step, h.channels p hp q hq]
  · simp [step, Network.step, hmpi]
  · simp [step, houtside .fuse]
  · simp [step, houtside .mpi]

end Stuck

end Waiting

end DagonFs.PeerToPeer
