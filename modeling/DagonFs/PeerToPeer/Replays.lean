import DagonFs.Lib.Runs
import DagonFs.PeerToPeer.Operations

/-!
# What a repeated request leaves of its flag

The MPI thread sets the flag of a request and makes the system call that repeats it.  The kernel decides
which handlers it calls for this, if any; until the call returns it may also call handlers for local users.

* `perform_answered`: when the five handlers that read a flag refuse.
* `replay_leavesNoTrace_iff`: the flag is clear at the end, and the next change is told to the other peers,
  exactly when one of the calls was to the handler of the request's type, and not refused.
-/

namespace DagonFs.FileSystem

open DagonFs.Nodes DagonFs.PeerToPeer

/-- Where the handler ends, it has replied an error, or it has not. -/
def Answered (err : Bool) (res : Result) : Prop :=
  ∀ fs' replies, res = some (fs', replies) → replies.any Reply.isErr = err

namespace Answered

variable {fs : FileSystem} {err : Bool}

theorem reply (r : Reply) : Answered r.isErr (fs.reply r) := by
  intro fs' replies h
  obtain ⟨-, rfl⟩ := Prod.mk.inj (Option.some.inj h)
  exact Bool.or_false _

theorem map {α : Type} {o : Option α} (f : α → FileSystem) (r : α → Reply) (hr : ∀ a, (r a).isErr = err) :
    Answered err (o.map fun a => (f a, [r a])) := by
  intro fs' replies h
  obtain ⟨a, -, hend⟩ := Option.map_eq_some_iff.mp h
  obtain ⟨-, rfl⟩ := Prod.mk.inj hend
  exact (Bool.or_false _).trans (hr a)

theorem bind {α : Type} {o : Option α} {k : α → Result} (h : ∀ a, o = some a → Answered err (k a)) :
    Answered err (o.bind k) := by
  intro fs' replies hres
  obtain ⟨a, ha, hend⟩ := Option.bind_eq_some_iff.mp hres
  exact h a ha fs' replies hend

theorem withINode {type : INodeType} {mode nlink gid uid : ℕ} {k : FileSystem → ℕ → Result}
    (h : ∀ fs₁ ino, Answered err (k fs₁ ino)) : Answered err (fs.withINode type mode nlink gid uid k) := by
  unfold FileSystem.withINode
  split
  · exact nofun
  · exact h _ _

/-- A parent that is no directory is refused. -/
theorem withDirectory_none {parent : ℕ} (hdir : fs.iNodeManager.directoryAt parent = none) (e : Errno)
    (k : Directory → Result) : Answered true (fs.withDirectory parent e k) := by
  obtain ⟨e', he⟩ := withDirectory_of_none hdir e k
  rw [he]
  exact reply (.err e')

end Answered

end DagonFs.FileSystem

namespace DagonFs.PeerToPeer

open DagonFs.Nodes DagonFs.FileSystem DagonFs.Lib.Runs

/-- The handler does not refuse the operation. -/
def Operation.Accepted (fs : FileSystem) (op : Operation) : Bool := (op.onView fs.iNodeManager.view).isSome

section Handlers

variable (fs : FileSystem)

theorem fuseCreate_answered (ctx : Ids) (parent : ℕ) (name : Name) (flags : ℕ) :
    Answered (!(Operation.create ctx parent name flags).Accepted fs) (fs.fuseCreate ctx parent name flags) := by
  cases hdir : fs.iNodeManager.directoryAt parent with
  | none =>
    have hnone : fs.iNodeManager.view.tree.isDirectory parent ≠ true :=
      Bool.eq_false_iff.mp (isDirectory_of_none hdir)
    rw [Operation.Accepted, Operation.onView, if_neg fun h => hnone h.1]
    exact Answered.withDirectory_none hdir _ _
  | some dir =>
    have hparent : fs.iNodeManager.view.tree.isDirectory parent = true := isDirectory_of_some hdir
    rw [fuseCreate, withDirectory_of_some hdir]
    by_cases hshort : name.length ≤ kMaxFilenameLength
    · rw [Operation.Accepted, Operation.onView, if_pos ⟨hparent, hshort⟩, if_neg (Nat.not_lt.mpr hshort)]
      apply Answered.withINode
      intro fs₁ ino
      apply Answered.bind
      intro fs₂ _
      exact Answered.map _ _ fun _ => rfl
    · rw [Operation.Accepted, Operation.onView, if_neg fun h => hshort h.2, if_pos (Nat.lt_of_not_le hshort)]
      exact Answered.reply _

theorem makeDirectory_answered (parent : ℕ) (name : Name) :
    Answered (!(Operation.mkdir parent name).Accepted fs) (Replica.makeDirectory fs parent name) := by
  cases hdir : fs.iNodeManager.directoryAt parent with
  | none =>
    have hnone : fs.iNodeManager.view.tree.isDirectory parent ≠ true :=
      Bool.eq_false_iff.mp (isDirectory_of_none hdir)
    rw [Operation.Accepted, Operation.onView, if_neg hnone]
    exact Answered.withDirectory_none hdir _ _
  | some dir =>
    have hparent : fs.iNodeManager.view.tree.isDirectory parent = true := isDirectory_of_some hdir
    rw [Operation.Accepted, Operation.onView, if_pos hparent, Replica.makeDirectory, withDirectory_of_some hdir]
    apply Answered.withINode
    intro fs₁ ino
    apply Answered.bind
    intro fs₂ _
    exact Answered.map _ _ fun _ => rfl

/-- The entry that `FuseUnlink`, `FuseRmdir` and `FuseRename` look for. -/
theorem childINodeNumberWithName_eq {parent : ℕ} {dir : Directory}
    (hdir : fs.iNodeManager.directoryAt parent = some dir) (name : Name) :
    dir.childINodeNumberWithName name = (fs.iNodeManager.view.tree.children parent)[name]? := by
  show _ = (fs.iNodeManager.childrenOf parent)[name]?
  rw [fs.iNodeManager.childrenOf_of_directoryAt hdir]
  rfl

theorem children_of_none {parent : ℕ} (hdir : fs.iNodeManager.directoryAt parent = none) (name : Name) :
    (fs.iNodeManager.view.tree.children parent)[name]? = none := by
  show (fs.iNodeManager.childrenOf parent)[name]? = none
  rw [childrenOf_of_directoryAt_none hdir, Std.ExtTreeMap.getElem?_empty]

theorem fuseUnlink_answered (parent : ℕ) (name : Name) :
    Answered (!(Operation.unlink parent name).Accepted fs) (fs.fuseUnlink parent name) := by
  cases hdir : fs.iNodeManager.directoryAt parent with
  | none =>
    rw [Operation.Accepted, Operation.onView, children_of_none fs hdir, Option.map_none]
    exact Answered.withDirectory_none hdir _ _
  | some dir =>
    rw [fuseUnlink, withDirectory_of_some hdir, childINodeNumberWithName_eq fs hdir]
    cases hentry : (fs.iNodeManager.view.tree.children parent)[name]? with
    | none =>
      rw [Operation.Accepted, Operation.onView, hentry, Option.map_none]
      exact Answered.reply _
    | some x =>
      rw [Operation.Accepted, Operation.onView, hentry, Option.map_some]
      exact Answered.map _ _ fun _ => rfl

theorem fuseRmdir_answered (parent : ℕ) (name : Name) :
    Answered (!(Operation.rmdir parent name).Accepted fs) (fs.fuseRmdir parent name) := by
  cases hdir : fs.iNodeManager.directoryAt parent with
  | none =>
    rw [Operation.Accepted, Operation.onView, children_of_none fs hdir, Option.bind_none]
    exact Answered.withDirectory_none hdir _ _
  | some dir =>
    rw [fuseRmdir, withDirectory_of_some hdir, childINodeNumberWithName_eq fs hdir]
    cases hentry : (fs.iNodeManager.view.tree.children parent)[name]? with
    | none =>
      rw [Operation.Accepted, Operation.onView, hentry, Option.bind_none]
      exact Answered.reply _
    | some x =>
      have hview : (Operation.rmdir parent name).onView fs.iNodeManager.view =
          if fs.iNodeManager.view.tree.isDirectory x = true ∧
            Directory.hasChildren ⟨fs.iNodeManager.view.tree.children x, [], none⟩ = false then
              some { fs.iNodeManager.view with tree := fs.iNodeManager.view.tree.remove parent name }
          else none := by
        rw [Operation.onView, hentry, Option.bind_some]
      apply Answered.bind
      intro i hi
      have hdirectoryAt : fs.iNodeManager.directoryAt x = i.asDirectory := by
        rw [directoryAt]
        exact (congrArg (Option.bind · INode.asDirectory) hi).trans rfl
      cases hx : i.asDirectory with
      | none =>
        have hnone : fs.iNodeManager.view.tree.isDirectory x ≠ true :=
          Bool.eq_false_iff.mp (isDirectory_of_none (hdirectoryAt.trans hx))
        rw [Operation.Accepted, hview, if_neg fun h => hnone h.1]
        exact Answered.reply _
      | some d =>
        have hisdir : fs.iNodeManager.view.tree.isDirectory x = true :=
          isDirectory_of_some (hdirectoryAt.trans hx)
        have hsame : Directory.hasChildren ⟨fs.iNodeManager.view.tree.children x, [], none⟩ =
            d.hasChildren := by
          show Directory.hasChildren ⟨fs.iNodeManager.childrenOf x, [], none⟩ = _
          rw [fs.iNodeManager.childrenOf_of_directoryAt (hdirectoryAt.trans hx)]
          rfl
        simp only
        cases hd : d.hasChildren with
        | true =>
          rw [Operation.Accepted, hview, if_neg]
          · exact Answered.reply _
          · rintro ⟨-, hempty⟩
            exact Bool.false_ne_true (hempty.symm.trans (hsame.trans hd))
        | false =>
          rw [Operation.Accepted, hview, if_pos ⟨hisdir, hsame.trans hd⟩]
          exact Answered.reply .ok

theorem fuseRename_answered (parent : ℕ) (name : Name) (newparent : ℕ) (newname : Name) :
    Answered (!(Operation.rename parent name newparent newname).Accepted fs)
      (fs.fuseRename parent name newparent newname) := by
  cases hdir : fs.iNodeManager.directoryAt parent with
  | none =>
    rw [Operation.Accepted, Operation.onView, children_of_none fs hdir, Option.bind_none]
    exact Answered.withDirectory_none hdir _ _
  | some dir =>
    rw [fuseRename, withDirectory_of_some hdir, childINodeNumberWithName_eq fs hdir]
    cases hentry : (fs.iNodeManager.view.tree.children parent)[name]? with
    | none =>
      rw [Operation.Accepted, Operation.onView, hentry, Option.bind_none]
      exact Answered.reply _
    | some x =>
      have hview : (Operation.rename parent name newparent newname).onView fs.iNodeManager.view =
          if fs.iNodeManager.view.tree.isDirectory newparent = true then
            some { fs.iNodeManager.view with
              tree := fs.iNodeManager.view.tree.move parent name newparent newname x }
          else none := by
        rw [Operation.onView, hentry, Option.bind_some]
      simp only
      cases hnewDir : fs.iNodeManager.directoryAt newparent with
      | none =>
        have hnone : fs.iNodeManager.view.tree.isDirectory newparent ≠ true :=
          Bool.eq_false_iff.mp (isDirectory_of_none hnewDir)
        rw [Operation.Accepted, hview, if_neg hnone]
        exact Answered.withDirectory_none hnewDir _ _
      | some newDir =>
        have hnew : fs.iNodeManager.view.tree.isDirectory newparent = true := isDirectory_of_some hnewDir
        rw [Operation.Accepted, hview, if_pos hnew, withDirectory_of_some hnewDir]
        exact Answered.map _ _ fun _ => rfl

/-- **The handlers refuse** what `onView` says, whatever is queued for reuse. -/
theorem perform_answered (op : Operation) : Answered (!op.Accepted fs) (op.perform fs) := by
  cases op with
  | create ctx parent name flags => exact fuseCreate_answered fs ctx parent name flags
  | mkdir parent name => exact makeDirectory_answered fs parent name
  | unlink parent name => exact fuseUnlink_answered fs parent name
  | rmdir parent name => exact fuseRmdir_answered fs parent name
  | rename parent name newparent newname => exact fuseRename_answered fs parent name newparent newname

end Handlers

/-! ### Repeating a request -/

/-- A call of a handler: of one that announces what it does, or of another one, which leaves the flags
alone and of which only the file system after it matters. -/
inductive HandlerCall where
  | told (op : Operation)
  | other (after : FileSystem)

namespace Replica

/-- The MPI thread has received a request, and begins to repeat it. -/
def beginReplay (r : Replica) (request : Request) : Replica := r.setFromThread request.type true

def handlerStep (r : Replica) : HandlerCall → Option Replica
  | .told op => (r.handle op).map Outcome.replica
  | .other after => some { r with fs := after }

end Replica

/-- The call is to the handler of the type, which does not refuse it. -/
def HandlerCall.Reaches (type : RequestType) (r : Replica) : HandlerCall → Prop
  | .told op => op.type = type ∧ op.Accepted r.fs = true
  | .other _ => False

/-- The flag of the type is clear, so the next change of the type is told to the other peers. -/
structure LeavesNoTrace (type : RequestType) (r : Replica) : Prop where
  flag : r.fromThread type = false
  told : ∀ op o, op.type = type → r.handle op = some o → o.succeeded = true →
    o.sent = [op.request r.fs o.replica.fs]

variable {r r' : Replica} {type : RequestType} {request : Request}

theorem leavesNoTrace_iff : LeavesNoTrace type r ↔ r.fromThread type = false := by
  constructor
  · intro h
    exact h.flag
  · intro hflag
    refine ⟨hflag, ?_⟩
    rintro op o rfl ho hsucceeded
    exact (handle_announced ho).told hsucceeded hflag

/-- A handler succeeds where it accepts. -/
theorem succeeded_eq_accepted {op : Operation} {o : Outcome} (ho : r.handle op = some o) :
    o.succeeded = op.Accepted r.fs := by
  rw [handle_eq] at ho
  obtain ⟨⟨fs', replies⟩, hres, hfinish⟩ := Option.bind_eq_some_iff.mp ho
  have hreplies : replies.any Reply.isErr = !op.Accepted r.fs := perform_answered r.fs op fs' replies hres
  rw [(Replica.finish_eq_some hfinish).2, hreplies, Bool.not_not]

/-- **The step lemma**: only the handler of the type clears the flag, and nothing sets it. -/
theorem handlerStep_flag {c : HandlerCall} (hstep : r.handlerStep c = some r') :
    r'.fromThread type = false ↔ r.fromThread type = false ∨ c.Reaches type r := by
  cases c with
  | other after =>
    obtain rfl := Option.some.inj hstep
    exact (or_iff_left id).symm
  | told op =>
    obtain ⟨o, ho, rfl⟩ := Option.map_eq_some_iff.mp hstep
    have hannounced := handle_announced ho
    have haccepted := succeeded_eq_accepted ho
    show _ ↔ _ ∨ op.type = type ∧ op.Accepted r.fs = true
    rw [← haccepted]
    cases hs : o.succeeded with
    | false =>
      rw [(hannounced.failed hs).1]
      simp
    | true =>
      rw [hannounced.cleared hs]
      by_cases htype : type = op.type
      · subst htype
        simp
      · rw [Function.update_of_ne htype]
        simp [Ne.symm htype]

/-- **What a replay leaves.**  Whatever the state of the peer and whatever handlers are called until the
replay has finished, the flag of the request is clear, and the next change of its type is told to the other
peers, if and only if some call has reached the handler of the type and was not refused. -/
theorem replay_leavesNoTrace_iff (r : Replica) (request : Request) (calls : List HandlerCall) (r' : Replica)
    (hrun : run Replica.handlerStep (r.beginReplay request) calls = some r') :
    LeavesNoTrace request.type r' ↔ ∃ before call after t, calls = before ++ call :: after ∧
      run Replica.handlerStep (r.beginReplay request) before = some t ∧ call.Reaches request.type t := by
  have hset : (r.beginReplay request).fromThread request.type ≠ false := by
    show Function.update r.fromThread request.type true request.type ≠ false
    rw [Function.update_self]
    exact nofun
  have hlatch := latch_run (P := fun r => r.fromThread request.type = false)
    (fun s c s' hstep => handlerStep_flag hstep) hrun
  rw [leavesNoTrace_iff, hlatch, or_iff_right hset]

/-- A directory that is made as it was at its source. -/
theorem replay_leavesNoTrace_made : ∃ r' : Replica,
    run Replica.handlerStep ((Replica.mounted ⟨0, 0⟩).beginReplay (.createDir [47, 97, 47]))
      [.told (.mkdir 1 [97])] = some r' ∧ LeavesNoTrace .createDir r' := by
  have hdefined : (run Replica.handlerStep ((Replica.mounted ⟨0, 0⟩).beginReplay (.createDir [47, 97, 47]))
      [.told (.mkdir 1 [97])]).isSome = true := by decide +kernel
  obtain ⟨r', hrun⟩ := Option.isSome_iff_exists.mp hdefined
  refine ⟨r', hrun, ?_⟩
  apply (replay_leavesNoTrace_iff _ (.createDir [47, 97, 47]) _ r' hrun).mpr
  exact ⟨[], _, [], _, rfl, rfl, rfl, by decide +kernel⟩

/-- **A flag that stays.**  A directory that has a file at the receiver only is not removed there, and the
next removal of a directory is told to no one. -/
theorem not_replay_leavesNoTrace : ¬ ∀ (r : Replica) (request : Request) (calls : List HandlerCall)
    (r' : Replica), run Replica.handlerStep (r.beginReplay request) calls = some r' →
      LeavesNoTrace request.type r' := by
  intro h
  have hfacts : (run Replica.handlerStep (Replica.mounted ⟨0, 0⟩)
      [.told (.mkdir 1 [97]), .told (.create ⟨0, 0⟩ 2 [98] 0)]).bind (fun r =>
        (run Replica.handlerStep (r.beginReplay (.deleteDir [47, 97, 47])) [.told (.rmdir 1 [97])]).map
          fun r' => r'.fromThread .deleteDir) = some true := by decide +kernel
  obtain ⟨r, -, hrest⟩ := Option.bind_eq_some_iff.mp hfacts
  obtain ⟨r', hrun, hflag⟩ := Option.map_eq_some_iff.mp hrest
  have hclear := (h r (.deleteDir [47, 97, 47]) _ r' hrun).flag
  exact Bool.false_ne_true (hclear.symm.trans hflag)

end DagonFs.PeerToPeer
