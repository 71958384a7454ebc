import DagonFs.Lib.Runs
import DagonFs.PeerToPeer.Namespace

/-!
# Who tells the other peers of a change

One peer with the steps of its two threads: the FUSE thread runs a handler for a local user, or because
the MPI thread repeats a request that it has received.  The handler cannot see which of the two it is;
it reads the flag of its type, which the receipt has set.

* `Traced`: each flag says that a request of its type has been received and no handler of the type has
  succeeded since (`awaited`).
* `broadcastOnce_iff`: the changes of the local users, and only those, are told to the other peers
  exactly when no local change succeeds while one of its type is awaited.
-/

namespace DagonFs.PeerToPeer

open DagonFs.Lib.Runs

/-- What has happened at the peer. -/
inductive Entry where
  | received (type : RequestType)
  /-- A handler has succeeded: whether a local user called it, what it would be announced as, and what
  it had the peer send. -/
  | ran (byUser : Bool) (request : Request) (sent : List Request)
  deriving DecidableEq

/-- A peer, the request that its MPI thread is repeating, and what has happened, latest first. -/
structure Mirror where
  replica : Replica
  replaying : Option RequestType
  log : List Entry

inductive Step where
  | user (op : Operation)
  | receive (type : RequestType)
  | replay (op : Operation)
  /-- The kernel ends the repeated operation without calling the handler. -/
  | skip

/-- The types that have a flag. -/
def RequestType.changesNamespace : RequestType → Bool
  | .createFile => true
  | .deleteFile => true
  | .createDir => true
  | .deleteDir => true
  | .rename => true
  | _ => false

namespace Mirror

def mounted (process : Ids) : Mirror := ⟨Replica.mounted process, none, []⟩

variable (m : Mirror)

/-- The FUSE thread runs a handler. -/
def run (byUser : Bool) (op : Operation) : Option Mirror :=
  (m.replica.handle op).map fun o =>
    { m with
      replica := o.replica
      log := if o.succeeded then
          .ran byUser (op.request m.replica.fs o.replica.fs) o.sent :: m.log
        else m.log }

def step (m : Mirror) : Step → Option Mirror
  | .user op => m.run true op
  | .receive type =>
    -- the MPI thread is not in a handler, and goes into the one of the type
    if m.replaying = none ∧ type.changesNamespace then
      some ⟨m.replica.setFromThread type true, some type, .received type :: m.log⟩
    else none
  | .replay op =>
    if m.replaying = some op.type then (m.run false op).map fun m => { m with replaying := none }
    else none
  | .skip => if m.replaying.isSome then some { m with replaying := none } else none

end Mirror

/-! ### The log -/

/-- A request of the type has been received, and no handler of the type has succeeded since. -/
def awaited (type : RequestType) : List Entry → Bool
  | [] => false
  | .received type' :: log => type' == type || awaited type log
  | .ran _ request _ :: log => request.type != type && awaited type log

/-- Every change of a local user is sent once, and no repeated one is sent. -/
def BroadcastOnce (log : List Entry) : Prop :=
  ∀ byUser request sent, Entry.ran byUser request sent ∈ log →
    sent = if byUser then [request] else []

/-- No local user's change succeeds while one of its type is awaited. -/
def Undisturbed : List Entry → Prop
  | [] => True
  | .ran true request _ :: log => awaited request.type log = false ∧ Undisturbed log
  | _ :: log => Undisturbed log

instance decidableUndisturbed : DecidablePred Undisturbed
  | [] => isTrue trivial
  | .ran true request _ :: log =>
    have := decidableUndisturbed log
    inferInstanceAs (Decidable (awaited request.type log = false ∧ Undisturbed log))
  | .ran false _ _ :: log => decidableUndisturbed log
  | .received _ :: log => decidableUndisturbed log

/-- What each entry says of those before it. -/
def Consistent : List Entry → Prop
  | [] => True
  | .received _ :: log => Consistent log
  | .ran byUser request sent :: log =>
    sent = (if awaited request.type log then [] else [request]) ∧
      (byUser = false → Undisturbed log → awaited request.type log = true) ∧ Consistent log

theorem broadcastOnce_cons {byUser : Bool} {request : Request} {sent : List Request} {log : List Entry} :
    BroadcastOnce (.ran byUser request sent :: log) ↔
      sent = (if byUser then [request] else []) ∧ BroadcastOnce log := by
  constructor
  · intro h
    exact ⟨h _ _ _ List.mem_cons_self, fun _ _ _ hmem => h _ _ _ (List.mem_cons_of_mem _ hmem)⟩
  · rintro ⟨hsent, hlog⟩ byUser' request' sent' hmem
    cases hmem with
    | head => exact hsent
    | tail _ hmem => exact hlog _ _ _ hmem

theorem broadcastOnce_received {type : RequestType} {log : List Entry} :
    BroadcastOnce (.received type :: log) ↔ BroadcastOnce log := by
  simp [BroadcastOnce]

/-- In a consistent log, the condition says what is sent. -/
theorem broadcastOnce_iff_undisturbed {log : List Entry} (h : Consistent log) :
    BroadcastOnce log ↔ Undisturbed log := by
  induction log with
  | nil => exact ⟨fun _ => trivial, fun _ _ _ _ hmem => nomatch hmem⟩
  | cons e log ih =>
    cases e with
    | received type => exact broadcastOnce_received.trans (ih h)
    | ran byUser request sent =>
      obtain ⟨hsent, hreplay, hlog⟩ := h
      have ih := ih hlog
      rw [broadcastOnce_cons, hsent, ih]
      cases byUser with
      | true =>
        show _ ↔ awaited request.type log = false ∧ Undisturbed log
        cases awaited request.type log <;> simp
      | false =>
        show _ ↔ Undisturbed log
        constructor
        · exact And.right
        · intro hundisturbed
          rw [hreplay rfl hundisturbed]
          exact ⟨rfl, hundisturbed⟩

/-! ### The flags -/

structure Traced (m : Mirror) : Prop where
  flags : ∀ type, m.replica.fromThread type = awaited type m.log
  consistent : Consistent m.log
  /-- Until a local user interferes, what is being repeated is awaited. -/
  replaying : ∀ type, m.replaying = some type → Undisturbed m.log → awaited type m.log = true

theorem traced_mounted (process : Ids) : Traced (Mirror.mounted process) :=
  ⟨fun _ => rfl, trivial, fun _ h => nomatch h⟩

section Steps

variable {m m' : Mirror}

/-- A run of a handler, by either thread. -/
theorem traced_run {byUser : Bool} {op : Operation} (h : Traced m)
    (hreplay : byUser = false → m.replaying = some op.type) (hrun : m.run byUser op = some m') :
    (∀ type, m'.replica.fromThread type = awaited type m'.log) ∧ Consistent m'.log ∧
      m'.replaying = m.replaying ∧ (m'.log = m.log ∨
        ∃ request sent, request.type = op.type ∧ m'.log = .ran byUser request sent :: m.log) := by
  obtain ⟨o, ho, rfl⟩ := Option.map_eq_some_iff.mp hrun
  have hannounced := handle_announced ho
  cases hs : o.succeeded with
  | false =>
    obtain ⟨hflags, -⟩ := hannounced.failed hs
    refine ⟨fun type => ?_, h.consistent, rfl, Or.inl rfl⟩
    show o.replica.fromThread type = awaited type m.log
    rw [hflags, h.flags]
  | true =>
    have htype := op.request_type m.replica.fs o.replica.fs
    refine ⟨fun type => ?_, ⟨?_, fun hbyUser hundisturbed => ?_, h.consistent⟩, rfl,
      Or.inr ⟨_, _, htype, rfl⟩⟩
    · show o.replica.fromThread type = (Request.type _ != type && awaited type m.log)
      rw [hannounced.cleared hs, htype]
      by_cases hop : type = op.type
      · subst hop
        simp
      · have hne : (op.type != type) = true := by simpa using Ne.symm hop
        rw [Function.update_of_ne hop, h.flags, hne, Bool.true_and]
    · rw [htype]
      cases hflag : m.replica.fromThread op.type with
      | false => rw [hannounced.told hs hflag, ← h.flags, hflag]; rfl
      | true => rw [hannounced.replayed hs hflag, ← h.flags, hflag]; rfl
    · rw [htype]
      exact h.replaying op.type (hreplay hbyUser) hundisturbed

/-- **The step lemma.** -/
theorem traced_step {e : Step} (h : Traced m) (hstep : m.step e = some m') : Traced m' := by
  cases e with
  | user op =>
    have hrun : m.run true op = some m' := hstep
    obtain ⟨hflags, hconsistent, hsame, hlog⟩ := traced_run h Bool.noConfusion hrun
    refine ⟨hflags, hconsistent, fun type htype hundisturbed => ?_⟩
    rw [hsame] at htype
    obtain hlog | ⟨request, sent, -, hlog⟩ := hlog <;> rw [hlog] at hundisturbed ⊢
    · exact h.replaying type htype hundisturbed
    · have hawaited := h.replaying type htype hundisturbed.2
      -- a local change of the type being repeated would disturb it
      have hne : request.type ≠ type := by
        rintro rfl
        exact Bool.false_ne_true (hundisturbed.1.symm.trans hawaited)
      show (request.type != type && awaited type m.log) = true
      rw [hawaited]
      simpa using hne
  | receive type =>
    simp only [Mirror.step] at hstep
    split at hstep
    · rename_i hidle
      obtain rfl := Option.some.inj hstep
      refine ⟨fun type' => ?_, h.consistent, fun type' htype' _ => ?_⟩
      · show Function.update m.replica.fromThread type true type' =
          (type == type' || awaited type' m.log)
        by_cases heq : type' = type
        · subst heq
          simp
        · have hne : (type == type') = false := by simpa using Ne.symm heq
          rw [Function.update_of_ne heq, h.flags, hne, Bool.false_or]
      · obtain rfl := Option.some.inj htype'
        show (type == type || awaited type m.log) = true
        simp
    · cases hstep
  | replay op =>
    simp only [Mirror.step] at hstep
    split at hstep
    · rename_i hreplaying
      obtain ⟨m₁, hrun, rfl⟩ := Option.map_eq_some_iff.mp hstep
      obtain ⟨hflags, hconsistent, -, -⟩ := traced_run h (fun _ => hreplaying) hrun
      exact ⟨hflags, hconsistent, fun _ htype => nomatch htype⟩
    · cases hstep
  | skip =>
    simp only [Mirror.step] at hstep
    split at hstep
    · obtain rfl := Option.some.inj hstep
      exact ⟨h.flags, h.consistent, fun _ htype => nomatch htype⟩
    · cases hstep

end Steps

/-- **Each change is told once, by its originator**, in a run of the two threads exactly when no local
change succeeds between the receipt of a request of its type and the next success of that type. -/
theorem broadcastOnce_iff (process : Ids) (steps : List Step) (m : Mirror)
    (hrun : run Mirror.step (Mirror.mounted process) steps = some m) :
    BroadcastOnce m.log ↔ Undisturbed m.log :=
  broadcastOnce_iff_undisturbed
    (invariant_always (fun _ _ _ => traced_step) (traced_mounted process) hrun).consistent

/-- A local change, then a request of another peer that is repeated, then a local change again. -/
theorem broadcastOnce_repeated :
    ∃ m, run Mirror.step (Mirror.mounted ⟨0, 0⟩)
        [.user (.mkdir 1 [97]), .receive .createFile, .replay (.create ⟨0, 0⟩ 1 [98] 0),
          .user (.create ⟨0, 0⟩ 1 [99] 0)] = some m ∧
      BroadcastOnce m.log ∧
      Entry.ran true (.createFile [47, 99]) [.createFile [47, 99]] ∈ m.log := by
  have hdefined : (run Mirror.step (Mirror.mounted ⟨0, 0⟩)
      [.user (.mkdir 1 [97]), .receive .createFile, .replay (.create ⟨0, 0⟩ 1 [98] 0),
        .user (.create ⟨0, 0⟩ 1 [99] 0)]).isSome := by
    decide +kernel
  obtain ⟨m, hrun⟩ := Option.isSome_iff_exists.mp hdefined
  have hlog : (some m).map Mirror.log = some [.ran true (.createFile [47, 99]) [.createFile [47, 99]],
      .ran false (.createFile [47, 98]) [], .received .createFile,
      .ran true (.createDir [47, 97, 47]) [.createDir [47, 97, 47]]] := by
    rw [← hrun]
    decide +kernel
  have hlog := Option.some.inj hlog
  have hundisturbed : Undisturbed m.log := by
    rw [hlog]
    decide
  refine ⟨m, hrun, (broadcastOnce_iff ⟨0, 0⟩ _ m hrun).mpr hundisturbed, ?_⟩
  rw [hlog]
  exact List.mem_cons_self

/-- A local creation falls between the receipt of a creation and its repetition: it is not told, and the
repetition is. -/
theorem not_broadcastOnce_of_run :
    ¬ ∀ (process : Ids) (steps : List Step) (m : Mirror),
      run Mirror.step (Mirror.mounted process) steps = some m → BroadcastOnce m.log := by
  intro h
  have hrun : (run Mirror.step (Mirror.mounted ⟨0, 0⟩)
      [.receive .createFile, .user (.create ⟨0, 0⟩ 1 [97] 0),
        .replay (.create ⟨0, 0⟩ 1 [98] 0)]).map Mirror.log =
      some [.ran false (.createFile [47, 98]) [.createFile [47, 98]],
        .ran true (.createFile [47, 97]) [], .received .createFile] := by
    decide +kernel
  obtain ⟨m, hm, hlog⟩ := Option.map_eq_some_iff.mp hrun
  have hsent := h ⟨0, 0⟩ _ m hm
  rw [hlog] at hsent
  have hnone := hsent true (.createFile [47, 97]) [] (by decide)
  cases hnone

end DagonFs.PeerToPeer
