import DagonFs.Lib.Runs
import DagonFs.PeerToPeer.Replica

/-!
# Inode numbers on the peers

Every peer gives out its own inode numbers, in the order in which it registers inodes.  `Cluster` is the
peers with the announcements on the way between them: a local creation, the receipt of an announcement,
and its repetition, for which the kernel of the peer follows the path again.

* `Leads`: a tree becomes another one when some announced creations are repeated in order.
* `Ordered`: all peers are on the way to one tree, and the announcements on the way have one sender.
* `ordered_step`, `ordered_run`: this lasts while creations are made in turn.
* `numbersAgree_of_inTurn`: then equal paths have equal numbers, once everything is repeated.
-/

namespace DagonFs.PeerToPeer

open DagonFs.Lib.Runs

structure Cluster where
  replicas : ℕ → Replica
  /-- The announcements from one rank to another, oldest first. -/
  channel : ℕ → ℕ → List Request
  /-- What the MPI thread of a rank is repeating. -/
  replaying : ℕ → Option Request

inductive ClusterEvent where
  | user (rank : ℕ) (op : Operation)
  | receive (rank source : ℕ)
  | replay (rank : ℕ)

/-- The path and the kind of an announced creation. -/
def Request.creation : Request → Option (Name × Bool)
  | .createFile name => some (name, false)
  | .createDir dirAbsPath => some (dirAbsPath, true)
  | _ => none

/-- The handler that the kernel calls for `fopen(path, "w")` or `mkdir(path, 0777)`, if it calls one
that makes an inode. -/
def Tree.operation (t : Tree) (process : Ids) : Request → Option Operation
  | .createFile name => (t.locate name).map fun e => .create process e.1 e.2 (oWronly ||| oTrunc)
  | .createDir dirAbsPath => (t.locate dirAbsPath).map fun e => .mkdir e.1 e.2
  | _ => none

/-- What the kernel has checked of a creation: the parent is a directory, in which the name is free. -/
def Tree.Checked (t : Tree) (op : Operation) : Prop :=
  match op.makes with
  | some (parent, name, _) =>
    t.isDirectory parent = true ∧ (t.children parent)[name]? = none ∧ Tree.ValidName name
  | none => False

instance (t : Tree) : DecidablePred t.Checked := fun op =>
  match h : op.makes with
  | some (parent, name, directory) =>
    decidable_of_iff (t.isDirectory parent = true ∧ (t.children parent)[name]? = none ∧
      Tree.ValidName name) (by simp [Tree.Checked, h])
  | none => isFalse (by simp [Tree.Checked, h])

namespace Cluster

def mounted (process : ℕ → Ids) : Cluster :=
  ⟨fun rank => Replica.mounted (process rank), fun _ _ => [], fun _ => none⟩

variable (n : ℕ) (s : Cluster)

/-- A handler has run at a rank. -/
def after (rank : ℕ) (o : Outcome) : Cluster where
  replicas := Function.update s.replicas rank o.replica
  channel p q := if p = rank ∧ q ≠ rank ∧ q < n then s.channel p q ++ o.sent else s.channel p q
  replaying := s.replaying

def setReplaying (rank : ℕ) (request : Option Request) : Cluster :=
  { s with replaying := Function.update s.replaying rank request }

/-- The MPI thread of a rank goes into the handler of a request. -/
def take (rank source : ℕ) (request : Request) (rest : List Request) : Cluster where
  replicas := Function.update s.replicas rank ((s.replicas rank).setFromThread request.type true)
  channel := Function.update s.channel source (Function.update (s.channel source) rank rest)
  replaying := Function.update s.replaying rank (some request)

/-- One step; `none` when it cannot be taken, or its behaviour is undefined, as that of the receipt of a path
without an end. -/
def step : ClusterEvent → Option Cluster
  | .user rank op =>
    if rank < n ∧ (s.replicas rank).tree.Checked op then
      ((s.replicas rank).handle op).map (s.after n rank)
    else none
  | .receive rank source =>
    match s.replaying rank, s.channel source rank with
    | none, request :: rest =>
      if rank < n ∧ request.NulTerminated then some (s.take rank source request rest) else none
    | _, _ => none
  | .replay rank =>
    if rank < n then
      match s.replaying rank with
      | none => none
      | some request =>
        let s := s.setReplaying rank none
        let replica := s.replicas rank
        match replica.tree.operation replica.fs.process request with
        -- the path is there already, or its directory is not
        | none => some s
        | some op => (replica.handle op).map (s.after n rank)
    else none

/-- Everything is delivered and repeated. -/
def Quiescent : Prop := ∀ p < n, s.replaying p = none ∧ ∀ q < n, s.channel q p = []

instance : Decidable (s.Quiescent n) := inferInstanceAs (Decidable (∀ p < n, _ ∧ ∀ q < n, _))

/-- A path that two peers have is the same number on both. -/
def NumbersAgree : Prop :=
  ∀ p < n, ∀ q < n, ∀ path x y, (s.replicas p).tree.resolve path = some x →
    (s.replicas q).tree.resolve path = some y → x = y

/-- The condition on a step: a local creation finds its peer with nothing to repeat, and nothing of
another peer on the way anywhere. -/
def InTurn : ClusterEvent → Prop
  | .user rank _ => s.replaying rank = none ∧ ∀ p < n, p ≠ rank → ∀ r < n, s.channel p r = []
  | _ => True

instance : DecidablePred (s.InTurn n)
  | .user rank _ => inferInstanceAs
      (Decidable (s.replaying rank = none ∧ ∀ p < n, p ≠ rank → ∀ r < n, s.channel p r = []))
  | .receive _ _ => isTrue trivial
  | .replay _ => isTrue trivial

end Cluster

/-! ### Trees on the way -/

/-- Repeating the requests in order takes the first tree to the second. -/
inductive Leads : Tree → List Request → Tree → Prop
  | nil (t : Tree) : Leads t [] t
  | cons {t t' : Tree} {request : Request} {ms : List Request} {path name : Name} {directory : Bool}
      {parent : ℕ} (hrequest : request.creation = some (path, directory))
      (hlocate : t.locate path = some (parent, name))
      (hshort : directory = false → name.length ≤ kMaxFilenameLength)
      (hrest : Leads (t.make parent name directory) ms t') : Leads t (request :: ms) t'

theorem Leads.snoc {t t' : Tree} {ms : List Request} {request : Request} {path name : Name}
    {directory : Bool} {parent : ℕ} (h : Leads t ms t')
    (hrequest : request.creation = some (path, directory))
    (hlocate : t'.locate path = some (parent, name))
    (hshort : directory = false → name.length ≤ kMaxFilenameLength) :
    Leads t (ms ++ [request]) (t'.make parent name directory) := by
  induction h with
  | nil t => exact .cons hrequest hlocate hshort (.nil _)
  | cons hrequest' hlocate' hshort' _ ih => exact .cons hrequest' hlocate' hshort' (ih hlocate)

/-- The parent that the kernel finds is a directory. -/
theorem Tree.isDirectory_of_locate {t : Tree} {path name : Name} {parent : ℕ}
    (h : t.locate path = some (parent, name)) : t.isDirectory parent = true := by
  obtain ⟨name', -, h⟩ := Option.bind_eq_some_iff.mp h
  obtain ⟨parent', -, h⟩ := Option.bind_eq_some_iff.mp h
  split at h
  · rename_i hfound
    cases h
    exact hfound.1
  · cases h

/-- The kernel repeats a creation by the same handler. -/
theorem operation_of_creation {t : Tree} {request : Request} {path name : Name} {directory : Bool}
    {parent : ℕ} (process : Ids) (hrequest : request.creation = some (path, directory))
    (hlocate : t.locate path = some (parent, name)) :
    ∃ op, t.operation process request = some op ∧ op.makes = some (parent, name, directory) ∧
      op.type = request.type := by
  cases request with
  | createFile =>
    cases hrequest
    exact ⟨_, by rw [Tree.operation, hlocate]; rfl, rfl, rfl⟩
  | createDir =>
    cases hrequest
    exact ⟨_, by rw [Tree.operation, hlocate]; rfl, rfl, rfl⟩
  | _ => cases hrequest

/-- What a creation is announced as can be repeated. -/
theorem announcement_creation (t : Tree) (parent : ℕ) (name : Name) (directory : Bool) :
    ∃ path, (t.announcement parent name directory).creation = some (path, directory) ∧
      (path = t.dirName parent ++ name ∨ path = t.dirName parent ++ name ++ [slash]) := by
  cases directory with
  | false => exact ⟨_, rfl, Or.inl rfl⟩
  | true => exact ⟨_, rfl, Or.inr rfl⟩

/-- The tree of a mounted replica, whoever has mounted it. -/
theorem tree_mounted (process process' : Ids) :
    (Replica.mounted process).tree = (Replica.mounted process').tree := by
  refine Tree.ext rfl ?_ ?_ ?_ <;> funext x
  all_goals
    match x with
    | 0 => rfl
    | 1 => rfl
    | x + 2 => rfl

theorem mounted_wellNamed (process : Ids) : (Replica.mounted process).tree.WellNamed := by
  have hroot : ∀ x, (Replica.mounted process).tree.isDirectory x = true → x = 1 := by
    intro x hx
    match x with
    | 0 => cases hx
    | 1 => rfl
    | x + 2 => cases hx
  refine ⟨fun x hx => ?_, fun x hx => ?_, fun x hx => ?_⟩ <;> obtain rfl := hroot x hx
  · exact Nat.one_lt_two
  · exact ⟨[], rfl⟩
  · rfl

/-! ### The invariant -/

structure Ordered (n : ℕ) (s : Cluster) (t : Tree) (leader : ℕ) : Prop where
  wellNamed : t.WellNamed
  leads : ∀ r < n, Leads (s.replicas r).tree ((s.replaying r).toList ++ s.channel leader r) t
  others : ∀ p, p ≠ leader → ∀ r < n, s.channel p r = []
  self : ∀ r, s.channel r r = []
  outside : ∀ p, n ≤ p → ∀ r, s.channel p r = []
  flags : ∀ r < n, ∀ type,
    (s.replicas r).fromThread type = (s.replaying r).any (·.type = type)
  queue : ∀ r < n, (s.replicas r).fs.iNodeManager.deletedINodes = []

theorem ordered_mounted (n : ℕ) (process : ℕ → Ids) :
    Ordered n (Cluster.mounted process) (Replica.mounted (process 0)).tree 0 where
  wellNamed := mounted_wellNamed _
  leads r _ := tree_mounted (process r) (process 0) ▸ .nil _
  others _ _ _ _ := rfl
  self _ := rfl
  outside _ _ _ := rfl
  flags _ _ _ := rfl
  queue _ _ := rfl

section Steps

variable {n : ℕ} {s s' : Cluster} {t : Tree} {leader rank source : ℕ}

/-- A handler that changes and sends nothing. -/
theorem after_refused {o : Outcome} (hreplica : o.replica = s.replicas rank) (hsent : o.sent = []) :
    s.after n rank o = s := by
  simp [Cluster.after, hreplica, hsent]

/-- A local creation in turn. -/
theorem ordered_user {op : Operation} {o : Outcome} (h : Ordered n s t leader)
    (hturn : s.InTurn n (.user rank op)) (hrank : rank < n)
    (hchecked : (s.replicas rank).tree.Checked op) (ho : (s.replicas rank).handle op = some o) :
    ∃ t' leader', Ordered n (s.after n rank o) t' leader' := by
  obtain ⟨hidle, halone⟩ := hturn
  -- what the peer's own announcements lead to is the tree of the peer
  have hchannel : ∀ r < n, s.channel rank r = s.channel leader r := by
    intro r hr
    by_cases hleader : rank = leader
    · rw [hleader]
    · rw [h.others rank hleader r hr]
      by_cases hlt : leader < n
      · exact (halone leader hlt (Ne.symm hleader) r hr).symm
      · exact (h.outside leader (Nat.le_of_not_lt hlt) r).symm
  have htree : (s.replicas rank).tree = t := by
    have hleads := h.leads rank hrank
    rw [hidle, ← hchannel rank hrank, h.self rank] at hleads
    cases hleads
    rfl
  unfold Tree.Checked at hchecked
  split at hchecked
  · rename_i parent name directory hmakes
    obtain ⟨hparent, hfree, hname⟩ := hchecked
    obtain hmade | ⟨hreplica, hsent, -, -⟩ := Replica.handle_make hmakes (h.queue rank hrank) hparent ho
    · have hannounced := handle_announced ho
      have hfree' : (s.replicas rank).fromThread op.type = false := by
        rw [h.flags rank hrank, hidle]
        rfl
      have hsent := hannounced.told hmade.succeeded hfree'
      rw [hmade.request, htree] at hsent
      rw [htree] at hparent hfree
      obtain ⟨path, hcreation, hpath⟩ := announcement_creation t parent name directory
      obtain ⟨hfile, hdir⟩ := Tree.locate_announced h.wellNamed hparent hfree hname
      have hlocate : t.locate path = some (parent, name) := by
        obtain rfl | rfl := hpath
        · exact hfile
        · exact hdir
      refine ⟨t.make parent name directory, rank, ?_⟩
      constructor
      case wellNamed => exact h.wellNamed.make directory hparent hfree hname
      case leads =>
        intro r hr
        by_cases hself : r = rank
        · subst hself
          simp only [Cluster.after, Function.update_self, hidle, h.self, hmade.tree, htree]
          simpa using Leads.nil _
        · simp only [Cluster.after, Function.update_of_ne hself, hsent, hr, hchannel r hr]
          simpa [hself] using (h.leads r hr).snoc hcreation hlocate hmade.short
      case others =>
        intro p hp r hr
        show (if p = rank ∧ r ≠ rank ∧ r < n then s.channel p r ++ o.sent else s.channel p r) = []
        rw [if_neg fun hcond => hp hcond.1]
        by_cases hlt : p < n
        · exact halone p hlt hp r hr
        · exact h.outside p (Nat.le_of_not_lt hlt) r
      case self =>
        intro r
        show (if r = rank ∧ r ≠ rank ∧ r < n then s.channel r r ++ o.sent else s.channel r r) = []
        rw [if_neg fun hcond => hcond.2.1 hcond.1, h.self r]
      case outside =>
        intro p hp r
        show (if p = rank ∧ r ≠ rank ∧ r < n then s.channel p r ++ o.sent else s.channel p r) = []
        rw [if_neg fun hcond => by omega, h.outside p hp r]
      case flags =>
        intro r hr type
        by_cases hself : r = rank
        · subst hself
          simp only [Cluster.after, Function.update_self, hannounced.cleared hmade.succeeded]
          rw [← h.flags r hrank]
          by_cases htype : type = op.type
          · rw [htype, Function.update_self, hfree']
          · rw [Function.update_of_ne htype]
        · simp only [Cluster.after, Function.update_of_ne hself]
          exact h.flags r hr type
      case queue =>
        intro r hr
        by_cases hself : r = rank
        · subst hself
          simp only [Cluster.after, Function.update_self, hmade.queue]
        · simp only [Cluster.after, Function.update_of_ne hself]
          exact h.queue r hr
    · rw [after_refused hreplica hsent]
      exact ⟨t, leader, h⟩
  · exact hchecked.elim

theorem ordered_receive (h : Ordered n s t leader)
    (hstep : s.step n (.receive rank source) = some s') : Ordered n s' t leader := by
  simp only [Cluster.step] at hstep
  split at hstep
  · rename_i request rest hidle hchannel
    split at hstep
    · rename_i hready
      obtain ⟨hrank, -⟩ := hready
      obtain rfl := Option.some.inj hstep
      -- only the one sender has anything on the way
      obtain rfl : source = leader := by
        by_contra hne
        rw [h.others source hne rank hrank] at hchannel
        cases hchannel
      have hrest : ∀ p r, (s.take rank source request rest).channel p r =
          if p = source ∧ r = rank then rest else s.channel p r := by
        intro p r
        by_cases hp : p = source
        · subst hp
          by_cases hr : r = rank
          · simp [Cluster.take, hr]
          · simp [Cluster.take, hr]
        · simp [Cluster.take, hp]
      constructor
      case wellNamed => exact h.wellNamed
      case leads =>
        intro r hr
        rw [hrest]
        have hleads := h.leads r hr
        by_cases hself : r = rank
        · subst hself
          rw [hidle, hchannel] at hleads
          simpa [Cluster.take] using hleads
        · simpa [Cluster.take, hself] using hleads
      case others =>
        intro p hp r hr
        rw [hrest, if_neg fun hcond => hp hcond.1, h.others p hp r hr]
      case self =>
        intro r
        rw [hrest]
        split
        · rename_i hcond
          obtain ⟨rfl, rfl⟩ := hcond
          rw [h.self r] at hchannel
          cases hchannel
        · exact h.self r
      case outside =>
        intro p hp r
        rw [hrest]
        split
        · rename_i hcond
          obtain ⟨rfl, rfl⟩ := hcond
          rw [h.outside p hp r] at hchannel
          cases hchannel
        · exact h.outside p hp r
      case flags =>
        intro r hr type
        by_cases hself : r = rank
        · subst hself
          simp only [Cluster.take, Function.update_self, Replica.setFromThread, Option.any_some]
          by_cases htype : type = request.type
          · simp [htype]
          · have hfree := h.flags r hr type
            rw [hidle] at hfree
            rw [Function.update_of_ne htype, hfree]
            simpa using Ne.symm htype
        · simp only [Cluster.take, Function.update_of_ne hself]
          exact h.flags r hr type
      case queue =>
        intro r hr
        by_cases hself : r = rank
        · subst hself
          simp only [Cluster.take, Function.update_self]
          exact h.queue r hr
        · simp only [Cluster.take, Function.update_of_ne hself]
          exact h.queue r hr
    · cases hstep
  · cases hstep

/-- The repetition of an announced creation, which is not sent on. -/
theorem ordered_replay (h : Ordered n s t leader) (hstep : s.step n (.replay rank) = some s') :
    Ordered n s' t leader := by
  simp only [Cluster.step] at hstep
  split at hstep
  · rename_i hrank
    split at hstep
    · cases hstep
    · rename_i request hreplaying
      have hleads := h.leads rank hrank
      rw [hreplaying, Option.toList_some, List.singleton_append] at hleads
      cases hleads with
      | @cons _ _ _ _ path name directory parent hcreation hlocate hshort hrest =>
        obtain ⟨op, hop, hmakes, htype⟩ :=
          operation_of_creation (s.replicas rank).fs.process hcreation hlocate
        have hreplica : (s.setReplaying rank none).replicas rank = s.replicas rank := rfl
        rw [hreplica, hop] at hstep
        obtain ⟨o, ho, rfl⟩ := Option.map_eq_some_iff.mp hstep
        have hmade : Replica.Made (s.replicas rank) o op parent name directory := by
          obtain hmade | ⟨-, -, hfile, hlong⟩ := Replica.handle_make hmakes (h.queue rank hrank)
            (Tree.isDirectory_of_locate hlocate) ho
          · exact hmade
          · exact absurd (hshort hfile) (Nat.not_le.mpr hlong)
        have hannounced := handle_announced ho
        have hflag : (s.replicas rank).fromThread op.type = true := by
          rw [h.flags rank hrank, hreplaying, htype]
          simp
        have hsent := hannounced.replayed hmade.succeeded hflag
        have hchannel : ((s.setReplaying rank none).after n rank o).channel = s.channel := by
          funext p q
          simp [Cluster.after, Cluster.setReplaying, hsent]
        have hself : ((s.setReplaying rank none).after n rank o).replicas rank = o.replica :=
          Function.update_self ..
        have hothers : ∀ r, r ≠ rank →
            ((s.setReplaying rank none).after n rank o).replicas r = s.replicas r :=
          fun r hr => Function.update_of_ne hr ..
        have hdone : ((s.setReplaying rank none).after n rank o).replaying rank = none :=
          Function.update_self ..
        have hwaits : ∀ r, r ≠ rank →
            ((s.setReplaying rank none).after n rank o).replaying r = s.replaying r :=
          fun r hr => Function.update_of_ne hr ..
        refine ⟨h.wellNamed, fun r hr => ?_, hchannel ▸ h.others, hchannel ▸ h.self,
          hchannel ▸ h.outside, fun r hr type => ?_, fun r hr => ?_⟩ <;> by_cases hr' : r = rank
        · subst hr'
          rw [hchannel, hself, hdone, hmade.tree]
          exact hrest
        · rw [hchannel, hothers r hr', hwaits r hr']
          exact h.leads r hr
        · subst hr'
          rw [hself, hdone, hannounced.cleared hmade.succeeded]
          by_cases hop' : type = op.type
          · rw [hop', Function.update_self]
            rfl
          · rw [Function.update_of_ne hop', h.flags r hr, hreplaying, Option.any_some, ← htype]
            simpa using Ne.symm hop'
        · rw [hothers r hr', hwaits r hr']
          exact h.flags r hr type
        · subst hr'
          rw [hself]
          exact hmade.queue
        · rw [hothers r hr']
          exact h.queue r hr
  · cases hstep

/-- **The step lemma.** -/
theorem ordered_step {e : ClusterEvent} (h : Ordered n s t leader) (hturn : s.InTurn n e)
    (hstep : s.step n e = some s') : ∃ t' leader', Ordered n s' t' leader' := by
  cases e with
  | user rank op =>
    simp only [Cluster.step] at hstep
    split at hstep
    · rename_i hchecked
      obtain ⟨o, ho, rfl⟩ := Option.map_eq_some_iff.mp hstep
      exact ordered_user h hturn hchecked.1 hchecked.2 ho
    · cases hstep
  | receive rank source => exact ⟨t, leader, ordered_receive h hstep⟩
  | replay rank => exact ⟨t, leader, ordered_replay h hstep⟩

/-- The run lemma. -/
theorem ordered_run {process : ℕ → Ids} {events : List ClusterEvent}
    (hturn : Along (Cluster.step n) (Cluster.InTurn n) (Cluster.mounted process) events)
    (hrun : run (Cluster.step n) (Cluster.mounted process) events = some s) :
    ∃ t leader, Ordered n s t leader :=
  invariant_run (I := fun s => ∃ t leader, Ordered n s t leader)
    (fun _ _ _ ⟨_, _, h⟩ hturn hstep => ordered_step h hturn hstep)
    ⟨_, _, ordered_mounted n process⟩ hturn hrun

end Steps

/-- **Equal paths have equal numbers** on all peers, when everything is delivered and repeated, after a
run in which creations are made in turn. -/
theorem numbersAgree_of_inTurn (n : ℕ) (process : ℕ → Ids) (events : List ClusterEvent) (s : Cluster)
    (hturn : Along (Cluster.step n) (Cluster.InTurn n) (Cluster.mounted process) events)
    (hrun : run (Cluster.step n) (Cluster.mounted process) events = some s) (hquiet : s.Quiescent n) :
    s.NumbersAgree n := by
  obtain ⟨t, leader, h⟩ := ordered_run hturn hrun
  have htree : ∀ r < n, (s.replicas r).tree = t := by
    intro r hr
    obtain ⟨hidle, hchannel⟩ := hquiet r hr
    have hempty : s.channel leader r = [] := by
      by_cases hlt : leader < n
      · exact hchannel leader hlt
      · exact h.outside leader (Nat.le_of_not_lt hlt) r
    have hleads := h.leads r hr
    rw [hidle, hempty] at hleads
    cases hleads
    rfl
  intro p hp q hq path x y hx hy
  rw [htree p hp] at hx
  rw [htree q hq] at hy
  exact Option.some.inj (hx.symm.trans hy)

/-- A directory made at one peer, then a file in it made at the other. -/
theorem numbersAgree_made_in_turn :
    ∃ s, run (Cluster.step 2) (Cluster.mounted fun _ => ⟨0, 0⟩)
        [.user 0 (.mkdir 1 [97]), .receive 1 0, .replay 1, .user 1 (.create ⟨0, 0⟩ 2 [98] 0),
          .receive 0 1, .replay 0] = some s ∧
      s.NumbersAgree 2 ∧ (s.replicas 0).tree.resolve [47, 97, 47, 98] = some 3 := by
  have hend : (run (Cluster.step 2) (Cluster.mounted fun _ => ⟨0, 0⟩)
      [.user 0 (.mkdir 1 [97]), .receive 1 0, .replay 1, .user 1 (.create ⟨0, 0⟩ 2 [98] 0),
        .receive 0 1, .replay 0]).map (fun s => (decide (s.Quiescent 2),
          (s.replicas 0).tree.resolve [47, 97, 47, 98])) = some (true, some 3) := by
    decide +kernel
  obtain ⟨s, hrun, hfacts⟩ := Option.map_eq_some_iff.mp hend
  obtain ⟨hquiet, hresolve⟩ := Prod.mk.inj hfacts
  exact ⟨s, hrun, numbersAgree_of_inTurn 2 _ _ s (by decide +kernel) hrun (of_decide_eq_true hquiet),
    hresolve⟩

/-- Two peers make a file at the same time. -/
theorem not_numbersAgree_of_run :
    ¬ ∀ (n : ℕ) (process : ℕ → Ids) (events : List ClusterEvent) (s : Cluster),
      run (Cluster.step n) (Cluster.mounted process) events = some s → s.Quiescent n →
        s.NumbersAgree n := by
  intro h
  have hrun : (run (Cluster.step 2) (Cluster.mounted fun _ => ⟨0, 0⟩)
      [.user 0 (.create ⟨0, 0⟩ 1 [97] 0), .user 1 (.create ⟨0, 0⟩ 1 [98] 0), .receive 1 0, .replay 1,
        .receive 0 1, .replay 0]).map (fun s => (decide (s.Quiescent 2),
          (s.replicas 0).tree.resolve [47, 97], (s.replicas 1).tree.resolve [47, 97])) =
      some (true, some 2, some 3) := by
    decide +kernel
  obtain ⟨s, hs, hfacts⟩ := Option.map_eq_some_iff.mp hrun
  obtain ⟨hquiet, hnumbers⟩ := Prod.mk.inj hfacts
  obtain ⟨hfirst, hsecond⟩ := Prod.mk.inj hnumbers
  have hagree := h 2 _ _ s hs (of_decide_eq_true hquiet) 0 (by decide) 1 (by decide) _ _ _ hfirst
    hsecond
  exact absurd hagree (by decide)

end DagonFs.PeerToPeer
