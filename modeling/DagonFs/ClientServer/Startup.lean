import DagonFs.ClientServer.Interleavings

/-!
# Starting and ending

`FileSystem::start` returns early where it cannot set the session up; the request to terminate is sent only
past these returns, also when the file system is not mounted in the end.  `released_of_run`: in every
interleaving the nodes leave their loops exactly when the master has got so far, and otherwise none of them
gets out of the first broadcast that it waits in.
-/

namespace DagonFs.ClientServer

open DagonFs.Lib.Runs DagonFs.Lib.Lockstep

/-- What the calls in `FileSystem::start` come to, and what happens in the loop: the actions after
`FuseInit`, if the kernel gets to initialise the file system. -/
structure Startup where
  opendirMountpoint : Bool
  mkdirMountpoint : Bool
  opendirTimes : Bool
  mkdirTimes : Bool
  fopenTimes : Bool
  showHelp : Bool
  showVersion : Bool
  mountpoint : Bool
  sessionNew : Bool
  setSignalHandlers : Bool
  sessionMount : Bool
  loop : Option (List Action)
  sessionLoop : ℤ

namespace Startup

variable (L : Launch) (u : Startup)

def loopCalls : List MasterCall := (u.loop.map (callsUntil L)).getD []

/-- `FileSystem::start`: the collectives of the master, and the value that is returned.  A command line that
is not understood only shows the usage; the options are read all the same. -/
def start : List MasterCall × ℤ :=
  if !u.opendirMountpoint && !u.mkdirMountpoint then ([], 0)
  else if !u.opendirTimes && !u.mkdirTimes then ([], 0)
  else if !u.fopenTimes then ([], 0)
  else if u.showHelp then ([], 0)
  else if u.showVersion then ([], 0)
  else if !u.mountpoint then ([], 2)
  else if !u.sessionNew then ([], -1)
  else if u.setSignalHandlers && u.sessionMount then
    (u.loopCalls L ++ MasterProcessCode.sendTermination, u.sessionLoop)
  else (MasterProcessCode.sendTermination, 0)

/-- `start` gets past its early returns. -/
structure SetsUp : Prop where
  mountpointDirectory : u.opendirMountpoint = true ∨ u.mkdirMountpoint = true
  timesDirectory : u.opendirTimes = true ∨ u.mkdirTimes = true
  timesFile : u.fopenTimes = true
  help : u.showHelp = false
  version : u.showVersion = false
  mountpoint : u.mountpoint = true
  session : u.sessionNew = true

variable {L u}

theorem start_of_setsUp (h : u.SetsUp) :
    (∃ actions, (u.start L).1 = sessionCalls L actions) ∨ (u.start L).1 = MasterProcessCode.sendTermination := by
  obtain ⟨hdir, htimes, hfile, hhelp, hversion, hmount, hsession⟩ := h
  have hfirst : (!u.opendirMountpoint && !u.mkdirMountpoint) = false := by
    rcases hdir with h | h <;> simp [h]
  have hsecond : (!u.opendirTimes && !u.mkdirTimes) = false := by
    rcases htimes with h | h <;> simp [h]
  simp only [start, hfirst, hsecond, hfile, hhelp, hversion, hmount, hsession, Bool.not_true,
    Bool.false_eq_true, if_false]
  split
  · cases hloop : u.loop with
    | none =>
      refine Or.inr ?_
      rw [loopCalls, hloop]
      rfl
    | some actions =>
      refine Or.inl ⟨actions, ?_⟩
      rw [loopCalls, hloop]
      rfl
  · exact Or.inr rfl

theorem start_of_not_setsUp (h : ¬ u.SetsUp) : (u.start L).1 = [] := by
  unfold start
  split_ifs with hdir htimes hfile hhelp hversion hmount hsession
  any_goals rfl
  -- past all of the early returns the session is set up
  all_goals
    refine absurd ?_ h
    constructor
    all_goals grind

end Startup

namespace Processes

variable {L : Launch} {waits : ℕ → ℕ → ℕ → Prop} [∀ k p q, Decidable (waits k p q)] {s s' : Processes}

theorem session_sendTermination (L : Launch) : Session L MasterProcessCode.sendTermination :=
  ⟨fun _ => Along.cons (meets_bcast rfl) rfl trivial, fun _ _ _ => rfl⟩

theorem session_start {u : Startup} (h : u.SetsUp) : Session L (u.start L).1 := by
  rcases Startup.start_of_setsUp (L := L) h with ⟨actions, hcalls⟩ | hcalls
  · rw [hcalls]
    exact session_sessionCalls L actions
  · rw [hcalls]
    exact session_sendTermination L

/-- Without a call of the master nobody gets out of a collective. -/
theorem waiting_step {m : Move} (h : ∀ p, (s.position p).returned = 0 ∧ s.location p = .top)
    (hstep : step L [] waits s m = some s') : ∀ p, (s'.position p).returned = 0 ∧ s'.location p = .top := by
  cases m with
  | enter q =>
    simp only [step] at hstep
    split at hstep
    · obtain rfl := Option.some.inj hstep
      intro p
      refine ⟨?_, (h p).2⟩
      show (Function.update s.position q _ p).returned = 0
      by_cases hp : p = q
      · subst hp
        rw [Function.update_self]
        exact (h p).1
      · rw [Function.update_of_ne hp]
        exact (h p).1
    · cases hstep
  | leave q =>
    simp only [step] at hstep
    split at hstep
    · cases hstep
    · cases hstep

/-- **When the nodes are released.**  In every interleaving of master and nodes: where `start` gets past its
early returns, mounted or not, the processes can go on until the master has made its calls and all nodes have
left their loops; and after an early return no node ever gets out of its first broadcast. -/
theorem released_of_run (L : Launch) (u : Startup) (waits : ℕ → ℕ → ℕ → Prop)
    [∀ k p q, Decidable (waits k p q)] (moves : List Move) (s : Processes)
    (hrun : run (step L (u.start L).1 waits) start moves = some s) :
    (u.SetsUp → ((∀ m, step L (u.start L).1 waits s m = none) ↔ Ended L (u.start L).1 s)) ∧
    (¬ u.SetsUp → ∀ p, (s.position p).returned = 0 ∧ s.location p = .top) := by
  constructor
  · intro hup
    have hsession : Session L (u.start L).1 := session_start hup
    exact stuck_iff_ended hsession (inv_run hsession inv_start hrun).2
  · intro hdown
    rw [Startup.start_of_not_setsUp hdown] at hrun
    exact invariant_always (fun _ _ _ h hstep => waiting_step h hstep) (fun _ => ⟨rfl, rfl⟩) hrun

/-- Three processes; the mount fails, and the nodes are released. -/
theorem released_of_run_unmounted : ∃ s : Processes,
    run (step ⟨3, 4, by decide, by decide⟩
      ((⟨true, false, true, false, true, false, false, true, true, true, false, none, 0⟩ : Startup).start
        ⟨3, 4, by decide, by decide⟩).1 fun _ _ _ => False) start
      [.enter 2, .enter 0, .leave 2, .leave 0, .enter 1, .leave 1] = some s ∧
    ∀ m, step ⟨3, 4, by decide, by decide⟩
      ((⟨true, false, true, false, true, false, false, true, true, true, false, none, 0⟩ : Startup).start
        ⟨3, 4, by decide, by decide⟩).1 (fun _ _ _ => False) s m = none := by
  have hfacts : (run (step ⟨3, 4, by decide, by decide⟩
      ((⟨true, false, true, false, true, false, false, true, true, true, false, none, 0⟩ : Startup).start
        ⟨3, 4, by decide, by decide⟩).1 fun _ _ _ => False) start
      [.enter 2, .enter 0, .leave 2, .leave 0, .enter 1, .leave 1]).map (fun s =>
        decide (Ended ⟨3, 4, by decide, by decide⟩ MasterProcessCode.sendTermination s)) = some true := by
    decide +kernel
  obtain ⟨s, hrun, hended⟩ := Option.map_eq_some_iff.mp hfacts
  have hup : (⟨true, false, true, false, true, false, false, true, true, true, false, none, 0⟩ :
      Startup).SetsUp := ⟨Or.inl rfl, Or.inl rfl, rfl, rfl, rfl, rfl, rfl⟩
  exact ⟨s, hrun, ((released_of_run _ _ _ _ s hrun).1 hup).mpr (of_decide_eq_true hended)⟩

end Processes

end DagonFs.ClientServer
