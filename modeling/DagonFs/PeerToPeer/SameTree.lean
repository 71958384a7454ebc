import DagonFs.PeerToPeer.DirNames
import DagonFs.PeerToPeer.Numbering

/-!
# The same tree on every peer

System calls at one peer after the other, each one when everything is delivered and repeated.  The kernel
of a peer checks a call against its tree before it calls a handler (`Tree.Allows`), and takes the path of
a repeated request apart to find the handler's arguments (`Tree.syscall`).

* `repeats_of_shares`: a call is repeated as it was made, where it is announced and the directories it is
  announced by keep their true paths (`Tree.Shares`).
* `InStep`: every peer has one view, or still waits for the call that leads to it.
* `sameNamespace_of_run`: so after calls that can be shared, all peers show the same namespace.
-/

namespace DagonFs.PeerToPeer

open DagonFs.Lib.Runs

/-- A system call that gets to one of the eight handlers of names. -/
inductive UserCall where
  | call (c : Call)
  | symlink (ctx : Ids) (link : Name) (parent : ℕ) (name : Name)
  | link (ino newparent : ℕ) (newname : Name)

def Replica.serve (r : Replica) : UserCall → Option Outcome
  | .call c => r.perform c
  | .symlink ctx link parent name => (r.fs.fuseSymlink ctx link parent name).map r.quietly
  | .link ino newparent newname => (r.fs.fuseLink ino newparent newname).map r.quietly

/-! ### The kernel -/

namespace Tree

variable (t : Tree)

/-- The directory and the last name of a path. -/
def parentOf (path : Name) : Option (ℕ × Name) :=
  (components path).getLast?.bind fun name =>
    (t.walk FileSystem.rootINode (components path).dropLast).map fun parent => (parent, name)

/-- A new name in a directory. -/
def Free (parent : ℕ) (name : Name) : Prop :=
  t.isDirectory parent = true ∧ (t.children parent)[name]? = none ∧ ValidName name

instance (parent : ℕ) (name : Name) : Decidable (t.Free parent name) :=
  inferInstanceAs (Decidable (_ ∧ _))

/-- `q` can be reached from `x` through fewer than `fuel` entries. -/
def inSubtree : ℕ → ℕ → ℕ → Bool
  | 0, _, _ => false
  | fuel + 1, x, q => x == q || (t.children x).toList.any fun e => inSubtree fuel e.2 q

/-- `x` may go where another inode of the same type is, or nothing; and not below itself. -/
def mayMove (x newparent : ℕ) (newname : Name) : Bool :=
  ((t.children newparent)[newname]?).all (fun y => y != x && t.isDirectory y == t.isDirectory x) &&
    !(t.isDirectory x && t.inSubtree t.size x newparent)

/-- What the kernel has checked of an operation. -/
def AllowsOp : Operation → Prop
  | .create _ parent name _ => t.Free parent name
  | .mkdir parent name => t.Free parent name
  | .unlink parent name =>
    ValidName name ∧ ((t.children parent)[name]?).any (fun x => !t.isDirectory x) = true
  | .rmdir parent name => ValidName name ∧ ((t.children parent)[name]?).any t.isDirectory = true
  | .rename parent name newparent newname => ValidName name ∧ ValidName newname ∧
      ((t.children parent)[name]?).any (fun x => t.mayMove x newparent newname) = true

instance : DecidablePred t.AllowsOp
  | .create _ parent name _ => inferInstanceAs (Decidable (t.Free parent name))
  | .mkdir parent name => inferInstanceAs (Decidable (t.Free parent name))
  | .unlink .. => inferInstanceAs (Decidable (_ ∧ _ = true))
  | .rmdir .. => inferInstanceAs (Decidable (_ ∧ _ = true))
  | .rename .. => inferInstanceAs (Decidable (_ ∧ _ ∧ _ = true))

def Allows : UserCall → Prop
  | .call (.told op) => t.AllowsOp op
  | .call (.mknod _ parent name _) => t.Free parent name
  | .symlink _ _ parent name => t.Free parent name
  | .link ino newparent newname => t.Free newparent newname ∧ t.isDirectory ino = false

instance : DecidablePred t.Allows
  | .call (.told op) => inferInstanceAs (Decidable (t.AllowsOp op))
  | .call (.mknod _ parent name _) => inferInstanceAs (Decidable (t.Free parent name))
  | .symlink _ _ parent name => inferInstanceAs (Decidable (t.Free parent name))
  | .link .. => inferInstanceAs (Decidable (_ ∧ _))

/-- The arguments that the paths of a request give. -/
def arguments (process : Ids) : Request → Option Operation
  | .createFile name => (t.parentOf name).map fun e => .create process e.1 e.2 (oWronly ||| oTrunc)
  | .deleteFile name => (t.parentOf name).map fun e => .unlink e.1 e.2
  | .createDir dirAbsPath => (t.parentOf dirAbsPath).map fun e => .mkdir e.1 e.2
  | .deleteDir dirAbsPath => (t.parentOf dirAbsPath).map fun e => .rmdir e.1 e.2
  | .rename oldName newName => (t.parentOf oldName).bind fun e =>
      (t.parentOf newName).map fun e' => .rename e.1 e.2 e'.1 e'.2
  | _ => none

/-- The handler that the kernel calls for `fopen`, `unlink`, `mkdir`, `rmdir` or `rename`. -/
def syscall (process : Ids) (request : Request) : Option Operation :=
  (t.arguments process request).filter fun op => t.AllowsOp op

/-- The cached name of a directory leads to it. -/
def TruePath (d : ℕ) : Prop := (t.dirName d).getLast? = some slash ∧ t.resolve (t.dirName d) = some d

instance (d : ℕ) : Decidable (t.TruePath d) := inferInstanceAs (Decidable (_ ∧ _))

/-- The call is announced, by names that lead to the entries it changes. -/
def Shares : UserCall → Prop
  | .call (.told (.create _ parent _ _)) => t.TruePath parent
  | .call (.told (.mkdir parent _)) => t.TruePath parent
  | .call (.told (.unlink parent _)) => t.TruePath parent
  | .call (.told (.rmdir parent name)) => ∀ x ∈ (t.children parent)[name]?,
      t.parentOf (t.dirName x) = some (parent, name)
  | .call (.told (.rename parent _ newparent _)) => t.TruePath parent ∧ t.TruePath newparent
  | _ => False

instance : DecidablePred t.Shares
  | .call (.told (.create _ parent _ _)) => inferInstanceAs (Decidable (t.TruePath parent))
  | .call (.told (.mkdir parent _)) => inferInstanceAs (Decidable (t.TruePath parent))
  | .call (.told (.unlink parent _)) => inferInstanceAs (Decidable (t.TruePath parent))
  | .call (.told (.rmdir parent name)) => inferInstanceAs (Decidable (∀ x ∈ (t.children parent)[name]?,
      t.parentOf (t.dirName x) = some (parent, name)))
  | .call (.told (.rename ..)) => inferInstanceAs (Decidable (_ ∧ _))
  | .call (.mknod ..) => isFalse id
  | .symlink .. => isFalse id
  | .link .. => isFalse id

variable {t}

/-- A name in a directory is found by the path that the name of the directory gives. -/
theorem parentOf_child {d : ℕ} {name : Name} (hpath : t.TruePath d) (hname : ValidName name) :
    t.parentOf (t.dirName d ++ name) = some (d, name) ∧
      t.parentOf (t.dirName d ++ name ++ [slash]) = some (d, name) := by
  obtain ⟨hlast, hresolve⟩ := hpath
  obtain ⟨p, hp⟩ : ∃ p, t.dirName d = p ++ [slash] := by
    obtain ⟨p, hp⟩ := List.getLast?_eq_some_iff.mp hlast
    exact ⟨p, hp⟩
  rw [resolve, hp] at hresolve
  have hfound : ∀ path, components path = components (p ++ [slash]) ++ [name] →
      t.parentOf path = some (d, name) := by
    intro path hcomponents
    rw [parentOf, hcomponents, List.getLast?_concat, List.dropLast_concat, Option.bind_some, hresolve]
    rfl
  rw [hp]
  exact ⟨hfound _ (components_child hname).1, hfound _ (components_child hname).2⟩

end Tree

/-- In a view, the request is repeated by an operation that leads to another view. -/
def Repeats (v : View) (request : Request) (v' : View) : Prop :=
  ∀ process, ∃ op, v.tree.syscall process request = some op ∧ op.onView v = some v' ∧
    op.type = request.type

theorem syscall_eq {t : Tree} {process : Ids} {request : Request} {op : Operation}
    (harguments : t.arguments process request = some op) (hallows : t.AllowsOp op) :
    t.syscall process request = some op := by
  rw [Tree.syscall, harguments, Option.filter_some, if_pos (by simpa using hallows)]

/-- **A call that is shared is repeated as it was made.** -/
theorem repeats_of_shares {v v' : View} {op : Operation} (hallows : v.tree.AllowsOp op)
    (hshares : v.tree.Shares (.call (.told op))) (hv : op.onView v = some v') :
    Repeats v (op.announcement v.tree) v' := by
  intro process
  cases op with
  | create ctx parent name flags =>
    have hparent := (Tree.parentOf_child hshares hallows.2.2).1
    refine ⟨.create process parent name (oWronly ||| oTrunc), syscall_eq ?_ hallows, hv, rfl⟩
    rw [Operation.announcement, Tree.arguments, hparent]
    rfl
  | mkdir parent name =>
    have hparent := (Tree.parentOf_child hshares hallows.2.2).2
    refine ⟨.mkdir parent name, syscall_eq ?_ hallows, hv, rfl⟩
    rw [Operation.announcement, Tree.arguments, hparent]
    rfl
  | unlink parent name =>
    have hparent := (Tree.parentOf_child hshares hallows.1).1
    refine ⟨.unlink parent name, syscall_eq ?_ hallows, hv, rfl⟩
    rw [Operation.announcement, Tree.arguments, hparent]
    rfl
  | rmdir parent name =>
    obtain ⟨x, hx, -⟩ := Option.bind_eq_some_iff.mp hv
    have hentry : (v.tree.children parent)[name]? = some x := hx
    have hparent := hshares x hentry
    refine ⟨.rmdir parent name, syscall_eq ?_ hallows, hv, rfl⟩
    rw [Operation.announcement, hentry, Option.elim_some, Tree.arguments, hparent]
    rfl
  | rename parent name newparent newname =>
    have hparent := (Tree.parentOf_child hshares.1 hallows.1).1
    have hnew := (Tree.parentOf_child hshares.2 hallows.2.1).1
    refine ⟨.rename parent name newparent newname, syscall_eq ?_ hallows, hv, rfl⟩
    rw [Operation.announcement, Tree.arguments, hparent, hnew]
    rfl

/-! ### The peers -/

inductive MountEvent where
  | user (rank : ℕ) (c : UserCall)
  | receive (rank source : ℕ)
  | replay (rank : ℕ)

namespace Cluster

variable (n : ℕ) (s : Cluster)

/-- One step; `none` when it cannot be taken.  A system call that succeeds, when everything is delivered
and repeated; the receipt of a request; its repetition. -/
def mountStep : MountEvent → Option Cluster
  | .user rank c =>
    if rank < n ∧ s.Quiescent n ∧ (s.replicas rank).tree.Allows c then
      ((s.replicas rank).serve c).bind fun o => if o.succeeded then some (s.after n rank o) else none
    else none
  | .receive rank source => s.step n (.receive rank source)
  | .replay rank =>
    if rank < n then
      match s.replaying rank with
      | none => none
      | some request =>
        let s := s.setReplaying rank none
        let replica := s.replicas rank
        match replica.tree.syscall replica.fs.process request with
        -- the kernel ends the call itself
        | none => some s
        | some op => (replica.handle op).map (s.after n rank)
    else none

/-- The condition on a step: where there is another peer, a call is shared with it. -/
def Shares : MountEvent → Prop
  | .user rank c => 2 ≤ n → (s.replicas rank).tree.Shares c
  | _ => True

instance : DecidablePred (s.Shares n)
  | .user rank c => inferInstanceAs (Decidable (2 ≤ n → (s.replicas rank).tree.Shares c))
  | .receive .. => isTrue trivial
  | .replay _ => isTrue trivial

end Cluster

/-- Two mount points show the same tree: the same absolute paths, with the same kinds, and two paths are the
same file on both or on none. -/
structure SameNamespace (v v' : View) : Prop where
  paths : ∀ path, (v.tree.resolve path).isSome = (v'.tree.resolve path).isSome
  kinds : ∀ path, (v.tree.resolve path).bind v.kinds = (v'.tree.resolve path).bind v'.kinds
  sharing : ∀ path path', v.tree.resolve path = v.tree.resolve path' ↔
    v'.tree.resolve path = v'.tree.resolve path'

theorem SameNamespace.refl (v : View) : SameNamespace v v :=
  ⟨fun _ => rfl, fun _ => rfl, fun _ _ => Iff.rfl⟩

/-! ### The invariant -/

/-- The peer shows the view, and has nothing to repeat. -/
structure AtRest (s : Cluster) (r : ℕ) (v : View) : Prop where
  view : (s.replicas r).view = v
  idle : s.replaying r = none
  empty : ∀ p, s.channel p r = []
  flags : ∀ type, (s.replicas r).fromThread type = false
  queue : (s.replicas r).fs.iNodeManager.deletedINodes = []

/-- The peer has one request to repeat, which leads to the view: it is on the way, or received. -/
structure Waits (n : ℕ) (s : Cluster) (r : ℕ) (v : View) (request : Request) : Prop where
  repeats : Repeats (s.replicas r).view request v
  place : (s.replaying r = none ∧ (∃ leader < n, s.channel leader r = [request] ∧
        ∀ p, p ≠ leader → s.channel p r = []) ∧ ∀ type, (s.replicas r).fromThread type = false) ∨
      (s.replaying r = some request ∧ (∀ p, s.channel p r = []) ∧
        ∀ type, (s.replicas r).fromThread type = decide (type = request.type))
  queue : (s.replicas r).fs.iNodeManager.deletedINodes = []
  valid : (s.replicas r).tree.Valid

/-- Every peer shows the view, or waits for it. -/
structure InStep (n : ℕ) (s : Cluster) (v : View) : Prop where
  valid : v.tree.Valid
  each : ∀ r < n, AtRest s r v ∨ ∃ request, Waits n s r v request

/-- What a peer sees of two states is the same. -/
structure SameAt (s s' : Cluster) (r : ℕ) : Prop where
  replicas : s'.replicas r = s.replicas r
  replaying : s'.replaying r = s.replaying r
  channel : ∀ p, s'.channel p r = s.channel p r

section Steps

variable {n : ℕ} {s s' : Cluster} {v : View} {r rank source : ℕ} {request : Request}

theorem AtRest.sameAt (h : AtRest s r v) (hsame : SameAt s s' r) : AtRest s' r v := by
  obtain ⟨hreplicas, hreplaying, hchannel⟩ := hsame
  refine ⟨?_, ?_, ?_, ?_, ?_⟩
  · rw [hreplicas, h.view]
  · rw [hreplaying, h.idle]
  · intro p
    rw [hchannel, h.empty]
  · intro type
    rw [hreplicas, h.flags]
  · rw [hreplicas, h.queue]

theorem Waits.sameAt (h : Waits n s r v request) (hsame : SameAt s s' r) : Waits n s' r v request := by
  obtain ⟨hreplicas, hreplaying, hchannel⟩ := hsame
  refine ⟨?_, ?_, ?_, ?_⟩
  · rw [hreplicas]
    exact h.repeats
  · simp only [hreplicas, hreplaying, hchannel]
    exact h.place
  · rw [hreplicas, h.queue]
  · rw [hreplicas]
    exact h.valid

theorem InStep.others (h : InStep n s v) (hr : r < n) (hsame : SameAt s s' r) :
    AtRest s' r v ∨ ∃ request, Waits n s' r v request := by
  rcases h.each r hr with hrest | ⟨request, hwaits⟩
  · exact Or.inl (hrest.sameAt hsame)
  · exact Or.inr ⟨request, hwaits.sameAt hsame⟩

/-- When everything is delivered and repeated, all peers are at rest. -/
theorem InStep.atRest (h : InStep n s v) (hquiet : s.Quiescent n) (hr : r < n) : AtRest s r v := by
  obtain ⟨hidle, hempty⟩ := hquiet r hr
  rcases h.each r hr with hrest | ⟨request, hwaits⟩
  · exact hrest
  · exfalso
    rcases hwaits.place with ⟨-, ⟨leader, hlt, hchannel, -⟩, -⟩ | ⟨hreplaying, -⟩
    · rw [hempty leader hlt] at hchannel
      cases hchannel
    · rw [hidle] at hreplaying
      cases hreplaying

theorem AtRest.steady (h : AtRest s r v) (hvalid : v.tree.Valid) : Replica.Steady (s.replicas r) := by
  refine ⟨h.queue, ?_⟩
  have hentries : (s.replicas r).view.tree.Valid := h.view ▸ hvalid
  exact hentries.entry

/-- **A system call** is on the way to the other peers, as a request that leads to its view. -/
theorem inStep_user {c : UserCall} (hn : 2 ≤ n) (h : InStep n s v) (hshares : s.Shares n (.user rank c))
    (hstep : s.mountStep n (.user rank c) = some s') : ∃ v', InStep n s' v' := by
  simp only [Cluster.mountStep] at hstep
  split at hstep
  · rename_i hchecked
    obtain ⟨hrank, hquiet, hallows⟩ := hchecked
    obtain ⟨o, ho, hstep⟩ := Option.bind_eq_some_iff.mp hstep
    split at hstep
    · rename_i hsucceeded
      obtain rfl := Option.some.inj hstep
      have hshares := hshares hn
      have hrest := h.atRest hquiet hrank
      have hsteady := hrest.steady h.valid
      have hview : (s.replicas rank).tree = v.tree := congrArg View.tree hrest.view
      cases c with
      | symlink | link => exact hshares.elim
      | call c =>
        cases c with
        | mknod => exact hshares.elim
        | told op =>
          have hvalid : (s.replicas rank).tree.Valid := hview ▸ h.valid
          have hdone := Replica.handle_performs hsteady ho
          have hannounced := handle_announced ho
          have hsent := hannounced.told hsucceeded (hrest.flags op.type)
          rw [Replica.request_eq_announcement hsteady hvalid ho hsucceeded] at hsent
          cases hv : op.onView (s.replicas rank).view with
          | none =>
            rw [hv] at hdone
            rw [hdone.1] at hsucceeded
            cases hsucceeded
          | some v' =>
            rw [hv] at hdone
            obtain ⟨-, hview', hqueue'⟩ := hdone
            have hrepeats := repeats_of_shares (v := (s.replicas rank).view) hallows hshares hv
            refine ⟨v', Tree.Valid.onView (v := (s.replicas rank).view) hvalid hv, ?_⟩
            intro r hr
            by_cases hself : r = rank
            · left
              subst hself
              refine ⟨?_, hrest.idle, ?_, ?_, ?_⟩
              · simpa [Cluster.after] using hview'
              · intro p
                simp [Cluster.after, hrest.empty]
              · intro type
                simp only [Cluster.after, Function.update_self, hannounced.cleared hsucceeded]
                by_cases htype : type = op.type
                · rw [htype, Function.update_self]
                · rw [Function.update_of_ne htype, hrest.flags]
              · simpa [Cluster.after] using hqueue'.trans hrest.queue
            · right
              have hother := h.atRest hquiet hr
              have hreplica : (s.after n rank o).replicas r = s.replicas r :=
                Function.update_of_ne hself _ _
              refine ⟨op.announcement (s.replicas rank).tree, ?_,
                Or.inl ⟨hother.idle, ⟨rank, hrank, ?_, ?_⟩, ?_⟩, ?_, ?_⟩
              · rw [hreplica, hother.view, ← hrest.view]
                exact hrepeats
              · simp [Cluster.after, hself, hr, hother.empty, hsent]
              · intro p hp
                simp [Cluster.after, hp, hother.empty]
              · intro type
                rw [hreplica, hother.flags]
              · rw [hreplica, hother.queue]
              · rw [hreplica]
                have hvalid' : (s.replicas r).view.tree.Valid := hother.view ▸ h.valid
                exact hvalid'
    · cases hstep
  · cases hstep

/-- A receipt leaves the other peers as they are. -/
theorem sameAt_take (rest : List Request) (hne : r ≠ rank) :
    SameAt s (s.take rank source request rest) r := by
  refine ⟨Function.update_of_ne hne _ _, Function.update_of_ne hne _ _, ?_⟩
  intro p
  by_cases hp : p = source
  · subst hp
    simp [Cluster.take, hne]
  · simp [Cluster.take, hp]

theorem inStep_receive (h : InStep n s v) (hstep : s.mountStep n (.receive rank source) = some s') :
    InStep n s' v := by
  simp only [Cluster.mountStep, Cluster.step] at hstep
  split at hstep
  · rename_i request rest hidle hchannel
    split at hstep
    · obtain rfl := Option.some.inj hstep
      refine ⟨h.valid, ?_⟩
      intro r hr
      by_cases hself : r = rank
      · subst hself
        rcases h.each r hr with hrest | ⟨request', hwaits⟩
        · rw [hrest.empty] at hchannel
          cases hchannel
        · rcases hwaits.place with ⟨-, ⟨leader, -, hone, hothers⟩, hflags⟩ | ⟨hreplaying, -⟩
          · -- it is the one that is on the way
            obtain rfl : source = leader := by
              by_contra hne
              rw [hothers source hne] at hchannel
              cases hchannel
            rw [hone] at hchannel
            obtain ⟨rfl, rfl⟩ := List.cons.inj hchannel
            have hreplica : (s.take r source request' []).replicas r =
                (s.replicas r).setFromThread request'.type true := Function.update_self _ _ _
            right
            refine ⟨request', ?_, Or.inr ⟨Function.update_self _ _ _, ?_, ?_⟩, ?_, ?_⟩
            · rw [hreplica]
              exact hwaits.repeats
            · intro p
              by_cases hp : p = source
              · subst hp
                simp [Cluster.take]
              · simp [Cluster.take, hp, hothers p hp]
            · intro type
              rw [hreplica]
              by_cases htype : type = request'.type
              · simp [Replica.setFromThread, htype]
              · simp [Replica.setFromThread, htype, hflags]
            · rw [hreplica]
              exact hwaits.queue
            · rw [hreplica]
              exact hwaits.valid
          · rw [hidle] at hreplaying
            cases hreplaying
      · exact h.others hr (sameAt_take rest hself)
    · cases hstep
  · cases hstep

theorem inStep_replay (h : InStep n s v) (hstep : s.mountStep n (.replay rank) = some s') :
    InStep n s' v := by
  simp only [Cluster.mountStep] at hstep
  split at hstep
  · rename_i hrank
    split at hstep
    · cases hstep
    · rename_i request hreplaying
      rcases h.each rank hrank with hrest | ⟨request', hwaits⟩
      · rw [hrest.idle] at hreplaying
        cases hreplaying
      · rcases hwaits.place with ⟨hidle, -⟩ | ⟨hsame, hempty, hflags⟩
        · rw [hidle] at hreplaying
          cases hreplaying
        · obtain rfl := Option.some.inj (hsame.symm.trans hreplaying)
          obtain ⟨op, hop, hv, htype⟩ := hwaits.repeats (s.replicas rank).fs.process
          have hreplica : (s.setReplaying rank none).replicas rank = s.replicas rank := rfl
          have hsyscall : (s.replicas rank).tree.syscall (s.replicas rank).fs.process request' = some op :=
            hop
          rw [hreplica, hsyscall] at hstep
          obtain ⟨o, ho, rfl⟩ := Option.map_eq_some_iff.mp hstep
          have hdone := Replica.handle_performs ⟨hwaits.queue, hwaits.valid.entry⟩ ho
          rw [hv] at hdone
          obtain ⟨hsucceeded, hview, hqueue⟩ := hdone
          have hannounced := handle_announced ho
          have hflag : (s.replicas rank).fromThread op.type = true := by
            rw [hflags, htype]
            simp
          have hsent := hannounced.replayed hsucceeded hflag
          refine ⟨h.valid, ?_⟩
          intro r hr
          by_cases hself : r = rank
          · left
            subst hself
            refine ⟨?_, Function.update_self _ _ _, ?_, ?_, ?_⟩
            · simpa [Cluster.after] using hview
            · intro p
              simp [Cluster.after, Cluster.setReplaying, hempty]
            · intro type
              simp only [Cluster.after, Function.update_self, hannounced.cleared hsucceeded]
              by_cases hop' : type = op.type
              · rw [hop', Function.update_self]
              · rw [Function.update_of_ne hop', hflags, ← htype]
                simpa using hop'
            · simpa [Cluster.after] using hqueue.trans hwaits.queue
          · apply h.others hr
            refine ⟨Function.update_of_ne hself _ _, Function.update_of_ne hself _ _, ?_⟩
            intro p
            simp [Cluster.after, Cluster.setReplaying, hsent]
  · cases hstep

/-- **The step lemma.** -/
theorem inStep_step {e : MountEvent} (hn : 2 ≤ n) (h : InStep n s v) (hshares : s.Shares n e)
    (hstep : s.mountStep n e = some s') : ∃ v', InStep n s' v' := by
  cases e with
  | user rank c => exact inStep_user hn h hshares hstep
  | receive rank source => exact ⟨v, inStep_receive h hstep⟩
  | replay rank => exact ⟨v, inStep_replay h hstep⟩

end Steps

theorem view_mounted (process process' : Ids) :
    (Replica.mounted process).view = (Replica.mounted process').view := by
  refine View.ext (tree_mounted process process') ?_
  funext x
  match x with
  | 0 => rfl
  | 1 => rfl
  | x + 2 => rfl

theorem inStep_mounted (n : ℕ) (process : ℕ → Ids) :
    InStep n (Cluster.mounted process) (Replica.mounted (process 0)).view := by
  refine ⟨(Replica.kept_mounted (process 0)).tree.valid, ?_⟩
  intro r hr
  left
  exact ⟨view_mounted (process r) (process 0), rfl, fun _ => rfl, fun _ => rfl, rfl⟩

/-- **All mount points show the same tree**, when everything is delivered and repeated, after a run whose
calls are shared. -/
theorem sameNamespace_of_run (n : ℕ) (process : ℕ → Ids) (events : List MountEvent) (s : Cluster)
    (hshares : Along (Cluster.mountStep n) (Cluster.Shares n) (Cluster.mounted process) events)
    (hrun : run (Cluster.mountStep n) (Cluster.mounted process) events = some s)
    (hquiet : s.Quiescent n) :
    ∀ p < n, ∀ q < n, SameNamespace (s.replicas p).view (s.replicas q).view := by
  intro p hp q hq
  by_cases hn : 2 ≤ n
  · obtain ⟨v, h⟩ : ∃ v, InStep n s v := by
      refine invariant_run (I := fun s => ∃ v, InStep n s v) ?_ ⟨_, inStep_mounted n process⟩ hshares hrun
      intro s₁ e s₂ h₁ hok hstep
      obtain ⟨v, hv⟩ := h₁
      exact inStep_step hn hv hok hstep
    rw [(h.atRest hquiet hp).view, (h.atRest hquiet hq).view]
    exact SameNamespace.refl v
  · obtain rfl : p = q := by omega
    exact SameNamespace.refl _

/-- A file made at one peer and renamed at the other. -/
theorem sameNamespace_of_run_renamed : ∃ s, run (Cluster.mountStep 2) (Cluster.mounted fun _ => ⟨0, 0⟩)
      [.user 0 (.call (.told (.create ⟨0, 0⟩ 1 [97] 0))), .receive 1 0, .replay 1,
        .user 1 (.call (.told (.rename 1 [97] 1 [98]))), .receive 0 1, .replay 0] = some s ∧
    SameNamespace (s.replicas 0).view (s.replicas 1).view ∧
    (s.replicas 0).tree.resolve [47, 98] = some 2 := by
  have hshares : Along (Cluster.mountStep 2) (Cluster.Shares 2) (Cluster.mounted fun _ => ⟨0, 0⟩)
      [.user 0 (.call (.told (.create ⟨0, 0⟩ 1 [97] 0))), .receive 1 0, .replay 1,
        .user 1 (.call (.told (.rename 1 [97] 1 [98]))), .receive 0 1, .replay 0] := by decide +kernel
  have hfacts : (run (Cluster.mountStep 2) (Cluster.mounted fun _ => ⟨0, 0⟩)
      [.user 0 (.call (.told (.create ⟨0, 0⟩ 1 [97] 0))), .receive 1 0, .replay 1,
        .user 1 (.call (.told (.rename 1 [97] 1 [98]))), .receive 0 1, .replay 0]).map (fun s =>
          (decide (s.Quiescent 2), (s.replicas 0).tree.resolve [47, 98])) = some (true, some 2) := by
    decide +kernel
  obtain ⟨s, hrun, hs⟩ := Option.map_eq_some_iff.mp hfacts
  obtain ⟨hquiet, hresolve⟩ := Prod.mk.inj hs
  exact ⟨s, hrun, sameNamespace_of_run 2 _ _ s hshares hrun (of_decide_eq_true hquiet) 0 (by decide) 1
    (by decide), hresolve⟩

/-- **A file on one peer only.**  `FuseMknod` tells the other peers nothing. -/
theorem not_sameNamespace_of_run : ¬ ∀ (n : ℕ) (process : ℕ → Ids) (events : List MountEvent)
    (s : Cluster), run (Cluster.mountStep n) (Cluster.mounted process) events = some s →
      s.Quiescent n → ∀ p < n, ∀ q < n, SameNamespace (s.replicas p).view (s.replicas q).view := by
  intro h
  have hfacts : (run (Cluster.mountStep 2) (Cluster.mounted fun _ => ⟨0, 0⟩)
      [.user 0 (.call (.mknod ⟨0, 0⟩ 1 [97] sIfreg))]).map (fun s => (decide (s.Quiescent 2),
        (s.replicas 0).tree.resolve [47, 97], (s.replicas 1).tree.resolve [47, 97])) =
      some (true, some 2, none) := by decide +kernel
  obtain ⟨s, hrun, hs⟩ := Option.map_eq_some_iff.mp hfacts
  obtain ⟨hquiet, hpaths⟩ := Prod.mk.inj hs
  obtain ⟨hfirst, hsecond⟩ := Prod.mk.inj hpaths
  have hsame := h 2 _ _ s hrun (of_decide_eq_true hquiet) 0 (by decide) 1 (by decide)
  have hpath : ((s.replicas 0).tree.resolve [47, 97]).isSome =
    ((s.replicas 1).tree.resolve [47, 97]).isSome := hsame.paths [47, 97]
  rw [hfirst, hsecond] at hpath
  cases hpath

end DagonFs.PeerToPeer
