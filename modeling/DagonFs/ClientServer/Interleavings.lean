import DagonFs.ClientServer.Protocol
import DagonFs.Lib.Lockstep

/-!
# The interleavings of a session

Master and nodes as processes of their own: each enters its next collective when it comes to it, and leaves
it when MPI lets it go.  A broadcast or a scatter cannot be left before the master has entered it, and the
master cannot leave a gather before all nodes have; what else a process waits for is up to the library
(`waits`).  A node learns what to do next from the packets of the collectives that it has left.

* `inv_step`: in every interleaving a node is where the master's calls that it has left have brought it.
* `session_completes`: no interleaving gets stuck before the end of the session, and all come to it.
-/

namespace DagonFs.ClientServer

open DagonFs.Lib.Runs DagonFs.Lib.Lockstep

/-- The processes of a session: how far each is in its collectives, and where the nodes are. -/
structure Processes where
  position : ℕ → Position
  location : ℕ → NodeProcessCode.Location

namespace Processes

def start : Processes := ⟨Lib.Lockstep.start, fun _ => .top⟩

/-- In the collective `c`, `p` needs what `q` gives. -/
def Needs : MasterCall → ℕ → ℕ → Prop
  | .bcast _ _, _, q => q = 0
  | .scatterv _, _, q => q = 0
  | .gatherv _, p, _ => p = 0

instance : ∀ c p q, Decidable (Needs c p q)
  | .bcast _ _, _, q => inferInstanceAs (Decidable (q = 0))
  | .scatterv _, _, q => inferInstanceAs (Decidable (q = 0))
  | .gatherv _, p, _ => inferInstanceAs (Decidable (p = 0))

section Step

variable (L : Launch) (calls : List MasterCall) (waits : ℕ → ℕ → ℕ → Prop)
  [∀ k p q, Decidable (waits k p q)]

/-- Whom `p` waits for in the `k`-th collective, when `calls` are those of the master. -/
def WaitsFor (k p q : ℕ) : Prop := (∃ c ∈ calls[k]?, Needs c p q) ∨ waits k p q

instance (k p q : ℕ) : Decidable (WaitsFor calls waits k p q) :=
  inferInstanceAs (Decidable ((∃ c ∈ calls[k]?, Needs c p q) ∨ waits k p q))

/-- The process comes to another collective. -/
def Calls (s : Processes) (p : ℕ) : Prop :=
  if p = 0 then (s.position p).returned < calls.length
  else (NodeProcessCode.call L p (s.location p)).isSome = true

instance (s : Processes) (p : ℕ) : Decidable (Calls L calls s p) :=
  inferInstanceAs (Decidable (if p = 0 then _ else _))

/-- Where the process is after the collective that it is inside of; the master goes through its list. -/
def locationAfter (s : Processes) (p : ℕ) : Option NodeProcessCode.Location :=
  calls[(s.position p).returned]?.bind fun c =>
    if p = 0 then some (s.location p) else NodeProcessCode.next (s.location p) c

/-- One step; `none` when it cannot be taken. -/
def step (s : Processes) : Move → Option Processes
  | .enter p =>
    if p < L.mpiWorldSize ∧ Calls L calls s p ∧ (s.position p).inside = false then
      some { s with position := Function.update s.position p ⟨(s.position p).returned, true⟩ }
    else none
  | .leave p =>
    if p < L.mpiWorldSize ∧ (s.position p).inside = true ∧
        MayLeave L.mpiWorldSize (WaitsFor calls waits) s.position p then
      (locationAfter calls s p).map fun location =>
        ⟨Function.update s.position p ⟨(s.position p).returned + 1, false⟩,
          Function.update s.location p location⟩
    else none

/-- All collectives have been made, and the nodes have left their loops. -/
def Ended (s : Processes) : Prop :=
  ∀ p < L.mpiWorldSize, s.position p = ⟨calls.length, false⟩ ∧ (0 < p → s.location p = .left)

instance (s : Processes) : Decidable (Ended L calls s) :=
  inferInstanceAs (Decidable (∀ p < L.mpiWorldSize, _ ∧ (0 < p → _)))

/-- A node that is inside a collective is in the dual of the master's. -/
def Matched (s : Processes) : Prop :=
  ∀ p < L.mpiWorldSize, 0 < p → (s.position p).inside = true →
    ∃ c, calls[(s.position p).returned]? = some c ∧ Meets L p (s.location p) c

end Step

/-! ### A node follows the calls of the master -/

theorem along_sessionCalls (L : Launch) (rank : ℕ) (actions : List Action) :
    Along NodeProcessCode.next (Meets L rank) .top (sessionCalls L actions) ∧
      run NodeProcessCode.next .top (sessionCalls L actions) = some .left := by
  obtain ⟨hmeets, hrun⟩ := after_callsUntil L rank actions
  constructor
  · refine along_append.mpr ⟨hmeets, fun location hlocation => ?_⟩
    obtain rfl := Option.some.inj (hrun.symm.trans hlocation)
    exact Along.cons (meets_bcast rfl) rfl trivial
  · rw [sessionCalls, run_append, hrun]
    rfl

variable {L : Launch} {calls : List MasterCall} {waits : ℕ → ℕ → ℕ → Prop}
  [∀ k p q, Decidable (waits k p q)] {s s' : Processes}

/-- After `k` collectives of the session a node has another one before it, the dual of the master's, as long
as there is one. -/
theorem node_at {rank k : ℕ} {location : NodeProcessCode.Location}
    (hmeets : Along NodeProcessCode.next (Meets L rank) .top calls)
    (hend : run NodeProcessCode.next .top calls = some .left)
    (hat : run NodeProcessCode.next .top (calls.take k) = some location) :
    (k < calls.length → ∃ c location', calls[k]? = some c ∧ Meets L rank location c ∧
      NodeProcessCode.next location c = some location' ∧
      run NodeProcessCode.next .top (calls.take (k + 1)) = some location') ∧
    (calls.length ≤ k → location = .left) := by
  constructor
  · intro hk
    have hget : calls[k]? = some calls[k] := List.getElem?_eq_getElem hk
    have hsplit : calls = calls.take k ++ calls[k] :: calls.drop (k + 1) := by
      rw [List.cons_getElem_drop_succ, List.take_append_drop]
    rw [hsplit] at hmeets hend
    have hhere := ((along_append.mp hmeets).2 location hat).1
    rw [run_append, hat, Option.bind_some, run_cons] at hend
    obtain ⟨location', hnext, -⟩ := Option.bind_eq_some_iff.mp hend
    refine ⟨calls[k], location', hget, hhere, hnext, ?_⟩
    rw [List.take_add_one, hget]
    exact run_snoc hat hnext
  · intro hk
    rw [List.take_of_length_le hk] at hat
    exact Option.some.inj (hat.symm.trans hend)

/-- The collectives of the session, as every node makes them. -/
structure Session (L : Launch) (calls : List MasterCall) : Prop where
  meets : ∀ rank, Along NodeProcessCode.next (Meets L rank) .top calls
  ends : ∀ rank < L.mpiWorldSize, 0 < rank → run NodeProcessCode.next .top calls = some .left

theorem session_sessionCalls (L : Launch) (actions : List Action) : Session L (sessionCalls L actions) :=
  ⟨fun rank => (along_sessionCalls L rank actions).1, fun rank _ _ => (along_sessionCalls L rank actions).2⟩

/-- Every node is where the calls that it has left have brought it. -/
structure Inv (L : Launch) (calls : List MasterCall) (s : Processes) : Prop where
  within : Within calls.length s.position
  nodes : ∀ p < L.mpiWorldSize, 0 < p →
    run NodeProcessCode.next .top (calls.take (s.position p).returned) = some (s.location p)

theorem inv_start : Inv L calls start := ⟨within_start, fun _ _ _ => rfl⟩

section Follows

variable (hsession : Session L calls) (h : Inv L calls s) {p : ℕ} (hp : p < L.mpiWorldSize)
include hsession h hp

/-- A process comes to another collective exactly when the master has one. -/
theorem calls_iff : Calls L calls s p ↔ (s.position p).returned < calls.length := by
  unfold Calls
  by_cases hzero : p = 0
  · rw [if_pos hzero]
  · rw [if_neg hzero]
    have hpos : 0 < p := Nat.pos_of_ne_zero hzero
    obtain ⟨hnext, hlast⟩ := node_at (hsession.meets p) (hsession.ends p hp hpos) (h.nodes p hp hpos)
    constructor
    · intro hcall
      by_contra hle
      rw [hlast (Nat.le_of_not_lt hle)] at hcall
      cases hcall
    · intro hlt
      obtain ⟨_, _, _, ⟨c', hcall, -⟩, -⟩ := hnext hlt
      rw [hcall]
      rfl

/-- A process that may leave its collective goes on from it. -/
theorem exists_locationAfter (hlt : (s.position p).returned < calls.length) :
    ∃ location, locationAfter calls s p = some location ∧ (0 < p →
      run NodeProcessCode.next .top (calls.take ((s.position p).returned + 1)) = some location) := by
  have hget : calls[(s.position p).returned]? = some calls[(s.position p).returned] :=
    List.getElem?_eq_getElem hlt
  unfold locationAfter
  rw [hget, Option.bind_some]
  by_cases hzero : p = 0
  · exact ⟨s.location p, if_pos hzero, fun hpos => absurd hzero (Nat.ne_of_gt hpos)⟩
  · have hpos : 0 < p := Nat.pos_of_ne_zero hzero
    obtain ⟨hnext, -⟩ := node_at (hsession.meets p) (hsession.ends p hp hpos) (h.nodes p hp hpos)
    obtain ⟨c, location, hc, -, hstep, htake⟩ := hnext hlt
    obtain rfl := Option.some.inj (hget.symm.trans hc)
    exact ⟨location, by rw [if_neg hzero, hstep], fun _ => htake⟩

end Follows

/-- **The step lemma.**  A step of the processes is a step of the calls in lockstep, and keeps the nodes where
the calls have brought them. -/
theorem inv_step {m : Move} (hsession : Session L calls) (h : Inv L calls s)
    (hstep : step L calls waits s m = some s') :
    Lib.Lockstep.step L.mpiWorldSize calls.length (WaitsFor calls waits) s.position m = some s'.position ∧
      Inv L calls s' := by
  cases m with
  | enter p =>
    simp only [step] at hstep
    split at hstep
    · rename_i hp
      obtain rfl := Option.some.inj hstep
      have hlt := (calls_iff hsession h hp.1).mp hp.2.1
      have hlock : Lib.Lockstep.step L.mpiWorldSize calls.length (WaitsFor calls waits) s.position (.enter p) =
          some (Function.update s.position p ⟨(s.position p).returned, true⟩) :=
        if_pos ⟨hp.1, hlt, hp.2.2⟩
      refine ⟨hlock, within_step h.within hlock, ?_⟩
      intro q hq hpos
      show run NodeProcessCode.next .top (calls.take (Function.update s.position p _ q).returned) = _
      by_cases hself : q = p
      · subst hself
        rw [Function.update_self]
        exact h.nodes q hq hpos
      · rw [Function.update_of_ne hself]
        exact h.nodes q hq hpos
    · cases hstep
  | leave p =>
    simp only [step] at hstep
    split at hstep
    · rename_i hp
      obtain ⟨location, hafter, rfl⟩ := Option.map_eq_some_iff.mp hstep
      have hlock : Lib.Lockstep.step L.mpiWorldSize calls.length (WaitsFor calls waits) s.position (.leave p) =
          some (Function.update s.position p ⟨(s.position p).returned + 1, false⟩) := if_pos hp
      refine ⟨hlock, within_step h.within hlock, ?_⟩
      intro q hq hpos
      show run NodeProcessCode.next .top (calls.take (Function.update s.position p _ q).returned) =
        some (Function.update s.location p location q)
      by_cases hself : q = p
      · subst hself
        rw [Function.update_self, Function.update_self]
        obtain ⟨location', hafter', htake⟩ :=
          exists_locationAfter hsession h hp.1 ((h.within q).2 hp.2.1)
        obtain rfl := Option.some.inj (hafter.symm.trans hafter')
        exact htake hpos
      · rw [Function.update_of_ne hself, Function.update_of_ne hself]
        exact h.nodes q hq hpos
    · cases hstep

/-- A step of the calls in lockstep can be taken by the processes. -/
theorem exists_step_of_lockstep {m : Move} {t : ℕ → Position} (hsession : Session L calls)
    (h : Inv L calls s)
    (hlock : Lib.Lockstep.step L.mpiWorldSize calls.length (WaitsFor calls waits) s.position m = some t) :
    ∃ s', step L calls waits s m = some s' := by
  cases m with
  | enter p =>
    obtain ⟨hp, hlt, hinside, -⟩ := step_enter hlock
    exact ⟨_, if_pos ⟨hp, (calls_iff hsession h hp).mpr hlt, hinside⟩⟩
  | leave p =>
    obtain ⟨hp, hinside, hleave, -⟩ := step_leave hlock
    obtain ⟨location, hafter, -⟩ := exists_locationAfter hsession h hp ((h.within p).2 hinside)
    simp only [step]
    rw [if_pos ⟨hp, hinside, hleave⟩, hafter]
    exact ⟨_, rfl⟩

theorem matched_of_inv (hsession : Session L calls) (h : Inv L calls s) : Matched L calls s := by
  intro p hp hpos hinside
  obtain ⟨hnext, -⟩ := node_at (hsession.meets p) (hsession.ends p hp hpos) (h.nodes p hp hpos)
  obtain ⟨c, -, hc, hmeets, -⟩ := hnext ((h.within p).2 hinside)
  exact ⟨c, hc, hmeets⟩

theorem ended_of_finished (hsession : Session L calls) (h : Inv L calls s)
    (hfinished : Finished L.mpiWorldSize calls.length s.position) : Ended L calls s := by
  intro p hp
  refine ⟨hfinished p hp, fun hpos => ?_⟩
  obtain ⟨-, hlast⟩ := node_at (hsession.meets p) (hsession.ends p hp hpos) (h.nodes p hp hpos)
  apply hlast
  rw [hfinished p hp]

/-- After the end nothing more happens. -/
theorem step_of_ended (hsession : Session L calls) (h : Inv L calls s) (hended : Ended L calls s) (m : Move) :
    step L calls waits s m = none := by
  cases m with
  | enter p =>
    refine if_neg fun hp => ?_
    have hlt := (calls_iff hsession h hp.1).mp hp.2.1
    rw [(hended p hp.1).1] at hlt
    exact Nat.lt_irrefl _ hlt
  | leave p =>
    refine if_neg fun hp => ?_
    have hinside := hp.2.1
    rw [(hended p hp.1).1] at hinside
    cases hinside

/-- Runs of the processes are runs of the calls in lockstep. -/
theorem inv_run {moves : List Move} (hsession : Session L calls) (h : Inv L calls s)
    (hrun : run (step L calls waits) s moves = some s') :
    run (Lib.Lockstep.step L.mpiWorldSize calls.length (WaitsFor calls waits)) s.position moves =
        some s'.position ∧ Inv L calls s' := by
  induction moves generalizing s with
  | nil =>
    obtain rfl := Option.some.inj hrun
    exact ⟨rfl, h⟩
  | cons m moves ih =>
    obtain ⟨s₁, hfirst, hrest⟩ := Option.bind_eq_some_iff.mp hrun
    obtain ⟨hlock, hinv⟩ := inv_step hsession h hfirst
    obtain ⟨hlater, hend⟩ := ih hinv hrest
    refine ⟨?_, hend⟩
    rw [run_cons, hlock]
    exact hlater

/-- Some process can go on until all have come to the end. -/
theorem stuck_iff_ended (hsession : Session L calls) (h : Inv L calls s) :
    (∀ m, step L calls waits s m = none) ↔ Ended L calls s := by
  constructor
  · intro hstuck
    apply ended_of_finished hsession h
    by_contra hopen
    have hnext : ∃ m t, Lib.Lockstep.step L.mpiWorldSize calls.length (WaitsFor calls waits) s.position m =
        some t := exists_step h.within hopen
    obtain ⟨m, t, hm⟩ := hnext
    obtain ⟨s', hs'⟩ := exists_step_of_lockstep hsession h hm
    rw [hstuck m] at hs'
    cases hs'
  · exact step_of_ended hsession h

/-- **A session completes.**  In every interleaving of master and nodes, and whatever MPI has them wait for
besides: a node that is inside a collective is in the dual of the master's; there are no more steps than two
for each collective of each process; and no process can go on exactly when all collectives have been made, and
the nodes have left their loops. -/
theorem session_completes (L : Launch) (actions : List Action) (waits : ℕ → ℕ → ℕ → Prop)
    [∀ k p q, Decidable (waits k p q)] (moves : List Move) (s : Processes)
    (hrun : run (step L (sessionCalls L actions) waits) start moves = some s) :
    Matched L (sessionCalls L actions) s ∧
      moves.length ≤ 2 * L.mpiWorldSize * (sessionCalls L actions).length ∧
      ((∀ m, step L (sessionCalls L actions) waits s m = none) ↔ Ended L (sessionCalls L actions) s) := by
  have hsession := session_sessionCalls L actions
  obtain ⟨hlock, hinv⟩ := inv_run hsession inv_start hrun
  refine ⟨matched_of_inv hsession hinv, ?_, ?_⟩
  · have hlength := length_le within_start hlock
    rw [weight_start] at hlength
    omega
  · exact stuck_iff_ended hsession hinv

/-- Two processes that write a file and end, each waiting for the other in every collective. -/
theorem session_completes_write : ∃ s : Processes,
    run (step ⟨2, 4, by decide, by decide⟩ (sessionCalls ⟨2, 4, by decide, by decide⟩ [.write ⟨2, 5, 0, 0⟩])
      fun _ _ _ => True) start
      ((List.replicate 6 [.enter 1, .enter 0, .leave 0, .leave 1]).flatten) = some s ∧
    ∀ m, step ⟨2, 4, by decide, by decide⟩
      (sessionCalls ⟨2, 4, by decide, by decide⟩ [.write ⟨2, 5, 0, 0⟩]) (fun _ _ _ => True) s m = none := by
  have hfacts : (run (step ⟨2, 4, by decide, by decide⟩
      (sessionCalls ⟨2, 4, by decide, by decide⟩ [.write ⟨2, 5, 0, 0⟩]) fun _ _ _ => True) start
      ((List.replicate 6 [.enter 1, .enter 0, .leave 0, .leave 1]).flatten)).map (fun s =>
        decide (Ended ⟨2, 4, by decide, by decide⟩
          (sessionCalls ⟨2, 4, by decide, by decide⟩ [.write ⟨2, 5, 0, 0⟩]) s)) = some true := by
    decide +kernel
  obtain ⟨s, hrun, hended⟩ := Option.map_eq_some_iff.mp hfacts
  exact ⟨s, hrun, (session_completes _ _ _ _ s hrun).2.2.mpr (of_decide_eq_true hended)⟩

end Processes

end DagonFs.ClientServer
