import Mathlib.Data.List.Induction
import Mathlib.Logic.Basic

/-!
# Runs of a partial step function

A system is a step function `σ → α → Option σ`: the label `α` fixes which step is taken, and `none`
says that the step cannot be taken (it is not enabled, or the program it models has no defined
behaviour there).  A run folds the step over a list of labels.

`invariant_run` packages the induction that every safety proof needs: a predicate that holds at the
start and is preserved by every step meeting `ok` holds at the end of every run whose steps all meet
`ok` (`Along`).  `along_append` lets the conclusion be read at every state the run passes through.

`answers` runs a system whose steps also answer, up to the first step that cannot be taken;
`answers_agree` is the simulation rule for two such systems.
-/

namespace DagonFs.Lib.Runs

variable {σ α : Type*} (step : σ → α → Option σ)

/-- The state after the labels of a list, taken in order. -/
def run : σ → List α → Option σ
  | s, [] => some s
  | s, a :: as => (step s a).bind fun s' => run s' as

/-- Every step of the run is taken from a state that meets `ok`. -/
def Along (ok : σ → α → Prop) : σ → List α → Prop
  | _, [] => True
  | s, a :: as => ok s a ∧ ∀ s', step s a = some s' → Along ok s' as

@[simp] theorem run_nil (s : σ) : run step s [] = some s := rfl

@[simp] theorem run_cons (s : σ) (a : α) (as : List α) :
    run step s (a :: as) = (step s a).bind fun s' => run step s' as := rfl

theorem run_append (s : σ) (as bs : List α) :
    run step s (as ++ bs) = (run step s as).bind fun s' => run step s' bs := by
  induction as generalizing s with
  | nil => rfl
  | cons a as ih =>
    simp only [List.cons_append, run_cons]
    cases step s a with
    | none => rfl
    | some s' => exact ih s'

variable {step}

theorem run_snoc {s s₁ s₂ : σ} {as : List α} {a : α} (h₁ : run step s as = some s₁)
    (h₂ : step s₁ a = some s₂) : run step s (as ++ [a]) = some s₂ := by
  simp [run_append, h₁, h₂]

theorem Along.cons {ok : σ → α → Prop} {s s' : σ} {a : α} {as : List α} (hok : ok s a)
    (hs : step s a = some s') (h : Along step ok s' as) : Along step ok s (a :: as) := by
  refine ⟨hok, fun s₁ hs₁ => ?_⟩
  obtain rfl := Option.some.inj (hs.symm.trans hs₁)
  exact h

/-- A step condition met along a run is met along each of its prefixes, and then along the rest. -/
theorem along_append {ok : σ → α → Prop} {s : σ} {as bs : List α} :
    Along step ok s (as ++ bs) ↔
      Along step ok s as ∧ ∀ s', run step s as = some s' → Along step ok s' bs := by
  induction as generalizing s with
  | nil => simp [Along]
  | cons a as ih =>
    simp only [List.cons_append, Along, run_cons]
    constructor
    · rintro ⟨hok, hrest⟩
      refine ⟨⟨hok, fun s' hs' => (ih.mp (hrest s' hs')).1⟩, ?_⟩
      intro s' hs'
      obtain ⟨s₁, hs₁, hrun⟩ := Option.bind_eq_some_iff.mp hs'
      exact (ih.mp (hrest s₁ hs₁)).2 s' hrun
    · rintro ⟨⟨hok, hpre⟩, hpost⟩
      refine ⟨hok, fun s₁ hs₁ => ih.mpr ⟨hpre s₁ hs₁, fun s' hs' => hpost s' ?_⟩⟩
      rw [hs₁]
      exact hs'

theorem Along.mono {ok ok' : σ → α → Prop} (h : ∀ s a, ok s a → ok' s a) {s : σ} {as : List α}
    (hs : Along step ok s as) : Along step ok' s as := by
  induction as generalizing s with
  | nil => trivial
  | cons a as ih => exact ⟨h s a hs.1, fun s' hs' => ih (hs.2 s' hs')⟩

/-- A condition on the labels alone. -/
theorem along_of_forall {ok : α → Prop} {as : List α} (h : ∀ a ∈ as, ok a) (s : σ) :
    Along step (fun _ => ok) s as := by
  induction as generalizing s with
  | nil => trivial
  | cons a as ih =>
    obtain ⟨ha, has⟩ := List.forall_mem_cons.mp h
    exact ⟨ha, fun s' _ => ih has s'⟩

/-- Whether a run meets a decidable condition can be computed. -/
instance decidableAlong {ok : σ → α → Prop} [∀ s a, Decidable (ok s a)] :
    ∀ (s : σ) (as : List α), Decidable (Along step ok s as)
  | _, [] => isTrue trivial
  | s, a :: as =>
    match h : step s a with
    | none => decidable_of_iff (ok s a) ⟨fun hok => ⟨hok, by simp [h]⟩, And.left⟩
    | some s' =>
      have : Decidable (Along step ok s' as) := decidableAlong s' as
      decidable_of_iff (ok s a ∧ Along step ok s' as) (by simp [Along, h])

/-- **Invariant rule.**  What the start satisfies and every step meeting `ok` preserves holds at the
end of every run along which `ok` is met. -/
theorem invariant_run {ok : σ → α → Prop} {I : σ → Prop}
    (hstep : ∀ s a s', I s → ok s a → step s a = some s' → I s') {s s' : σ} {as : List α}
    (hI : I s) (hok : Along step ok s as) (hrun : run step s as = some s') : I s' := by
  induction as generalizing s with
  | nil =>
    simp only [run_nil, Option.some.injEq] at hrun
    exact hrun ▸ hI
  | cons a as ih =>
    obtain ⟨s₁, hs₁, hrest⟩ := Option.bind_eq_some_iff.mp hrun
    exact ih (hstep s a s₁ hI hok.1 hs₁) (hok.2 s₁ hs₁) hrest

/-- The invariant rule, for a condition that the invariant gives at every step of the run. -/
theorem along_of_invariant {ok ok' : σ → α → Prop} {I : σ → Prop}
    (hstep : ∀ s a s', I s → ok s a → step s a = some s' → I s') (hok' : ∀ s a, I s → ok s a → ok' s a)
    {s : σ} {as : List α} (hI : I s) (hok : Along step ok s as) : Along step ok' s as := by
  induction as generalizing s with
  | nil => trivial
  | cons a as ih =>
    exact ⟨hok' s a hI hok.1, fun s' hs' => ih (hstep s a s' hI hok.1 hs') (hok.2 s' hs')⟩

/-- The invariant rule for a predicate that every step preserves. -/
theorem invariant_always {I : σ → Prop} (hstep : ∀ s a s', I s → step s a = some s' → I s')
    {s s' : σ} {as : List α} (hI : I s) (hrun : run step s as = some s') : I s' := by
  have hok : Along step (fun _ _ => True) s as := along_of_forall (fun _ _ => trivial) s
  exact invariant_run (fun s a s' h _ => hstep s a s' h) hI hok hrun

/-- The invariant rule for a predicate that looks at the actions taken so far. -/
theorem history_run {I : List α → σ → Prop} {s : σ} (hstart : I [] s)
    (hstep : ∀ as a s₁ s₂, I as s₁ → step s₁ a = some s₂ → I (as ++ [a]) s₂) {as : List α} {s' : σ}
    (hrun : run step s as = some s') : I as s' := by
  induction as using List.reverseRecOn generalizing s' with
  | nil =>
    obtain rfl := Option.some.inj hrun
    exact hstart
  | append_singleton as a ih =>
    rw [run_append] at hrun
    obtain ⟨s₁, hfirst, hrest⟩ := Option.bind_eq_some_iff.mp hrun
    obtain ⟨s₂, hlast, hend⟩ := Option.bind_eq_some_iff.mp hrest
    obtain rfl := Option.some.inj hend
    exact hstep as a s₁ s₂ (ih hfirst) hlast

/-- The invariant rule, both ways: where a step from the invariant keeps it exactly when `ok` is met, the
invariant holds at every state of a run exactly when `ok` is met along the run. -/
theorem invariant_iff {ok : σ → α → Prop} {I : σ → Prop}
    (hstep : ∀ s a s', I s → step s a = some s' → (I s' ↔ ok s a)) {s s' : σ} {as : List α} (hI : I s)
    (hrun : run step s as = some s') :
    (∀ bs, bs <+: as → ∀ t, run step s bs = some t → I t) ↔ Along step ok s as := by
  induction as generalizing s with
  | nil =>
    refine iff_of_true ?_ trivial
    intro bs hbs t ht
    rw [List.prefix_nil.mp hbs, run_nil, Option.some.injEq] at ht
    exact ht ▸ hI
  | cons a as ih =>
    obtain ⟨s₁, hs₁, hrest⟩ := Option.bind_eq_some_iff.mp hrun
    constructor
    · intro hall
      have hnext : I s₁ := by
        refine hall [a] ⟨as, rfl⟩ s₁ ?_
        rw [run_cons, hs₁]
        rfl
      refine Along.cons ((hstep s a s₁ hI hs₁).mp hnext) hs₁ ((ih hnext hrest).mp fun bs hbs t ht => ?_)
      refine hall (a :: bs) (List.prefix_cons_inj a |>.mpr hbs) t ?_
      rw [run_cons, hs₁]
      exact ht
    · intro hok bs hbs t ht
      have hnext : I s₁ := (hstep s a s₁ hI hs₁).mpr hok.1
      cases bs with
      | nil =>
        rw [run_nil, Option.some.injEq] at ht
        exact ht ▸ hI
      | cons b bs =>
        obtain ⟨rfl, htail⟩ := List.cons_prefix_cons.mp hbs
        rw [run_cons, hs₁] at ht
        exact (ih hnext hrest).mpr (hok.2 s₁ hs₁) bs htail t ht

/-- **Latch rule.**  What only the labels that hit switch on, and nothing switches off, holds at the end of
a run when it held at the start or some label of the run has hit. -/
theorem latch_run {P : σ → Prop} {hit : σ → α → Prop}
    (hstep : ∀ s a s', step s a = some s' → (P s' ↔ P s ∨ hit s a)) {s s' : σ} {as : List α}
    (hrun : run step s as = some s') : P s' ↔ P s ∨ ∃ before a after t,
      as = before ++ a :: after ∧ run step s before = some t ∧ hit t a := by
  induction as generalizing s with
  | nil =>
    obtain rfl := Option.some.inj hrun
    simp
  | cons a as ih =>
    obtain ⟨s₁, hs₁, hrest⟩ := Option.bind_eq_some_iff.mp hrun
    rw [ih hrest, hstep s a s₁ hs₁, or_assoc]
    apply or_congr_right
    constructor
    · rintro (hit | ⟨before, b, after, t, rfl, hbefore, hhit⟩)
      · exact ⟨[], a, as, s, rfl, rfl, hit⟩
      · exact ⟨a :: before, b, after, t, rfl, by rw [run_cons, hs₁]; exact hbefore, hhit⟩
    · rintro ⟨before, b, after, t, hsplit, hbefore, hhit⟩
      cases before with
      | nil =>
        obtain ⟨rfl, rfl⟩ := List.cons.inj hsplit
        obtain rfl := Option.some.inj hbefore
        exact Or.inl hhit
      | cons c before =>
        obtain ⟨rfl, rfl⟩ := List.cons.inj hsplit
        rw [run_cons, hs₁] at hbefore
        exact Or.inr ⟨before, b, after, t, rfl, hbefore, hhit⟩

/-- **Progress rule.**  Where every step that meets `ok` can be taken, and keeps the invariant, every
run along which `ok` is met is defined. -/
theorem progress_run {ok : σ → α → Prop} {I : σ → Prop}
    (hstep : ∀ s a, I s → ok s a → ∃ s', step s a = some s' ∧ I s') {s : σ} {as : List α} (hI : I s)
    (hok : Along step ok s as) : ∃ s', run step s as = some s' ∧ I s' := by
  induction as generalizing s with
  | nil => exact ⟨s, rfl, hI⟩
  | cons a as ih =>
    obtain ⟨s₁, hs₁, hI₁⟩ := hstep s a hI hok.1
    obtain ⟨s', hrun, hI'⟩ := ih hI₁ (hok.2 s₁ hs₁)
    exact ⟨s', by rw [run_cons, hs₁]; exact hrun, hI'⟩

/-- **Simulation by a map.**  A map of the states that takes steps to steps takes runs to runs. -/
theorem run_map_of {τ β : Type*} {step' : τ → β → Option τ} {f : σ → τ} {g : α → β} {ok : α → Prop}
    (hstep : ∀ s a s', ok a → step s a = some s' → step' (f s) (g a) = some (f s')) {s s' : σ} {as : List α}
    (hok : ∀ a ∈ as, ok a) (hrun : run step s as = some s') : run step' (f s) (as.map g) = some (f s') := by
  induction as generalizing s with
  | nil =>
    obtain rfl := Option.some.inj hrun
    rfl
  | cons a as ih =>
    obtain ⟨s₁, hs₁, hrest⟩ := Option.bind_eq_some_iff.mp hrun
    rw [List.map_cons, run_cons, hstep s a s₁ (hok a List.mem_cons_self) hs₁]
    exact ih (fun b hb => hok b (List.mem_cons_of_mem a hb)) hrest

theorem run_map {τ β : Type*} {step' : τ → β → Option τ} {f : σ → τ} {g : α → β}
    (hstep : ∀ s a s', step s a = some s' → step' (f s) (g a) = some (f s')) {s s' : σ} {as : List α}
    (hrun : run step s as = some s') : run step' (f s) (as.map g) = some (f s') :=
  run_map_of (fun s a s' _ => hstep s a s') (fun _ _ => trivial) hrun

/-! ### Runs that answer -/

section Answers

variable {τ β : Type*} {f : σ → α → Option (σ × β)} {g : τ → α → Option (τ × β)}

/-- The answers of a run up to the first step that cannot be taken, and the state after the last step,
when all of them can. -/
def answers (f : σ → α → Option (σ × β)) : σ → List α → List β × Option σ
  | s, [] => ([], some s)
  | s, a :: as =>
    match f s a with
    | none => ([], none)
    | some (s', b) => (b :: (answers f s' as).1, (answers f s' as).2)

theorem answers_snoc {s s' s'' : σ} {as : List α} {a : α} {b : β} (h : (answers f s as).2 = some s')
    (ha : f s' a = some (s'', b)) :
    answers f s (as ++ [a]) = ((answers f s as).1 ++ [b], some s'') := by
  induction as generalizing s with
  | nil =>
    obtain rfl := Option.some.inj h
    simp [answers, ha]
  | cons c as ih =>
    simp only [List.cons_append, answers] at h ⊢
    cases hc : f s c with
    | none => rw [hc] at h; cases h
    | some x =>
      rw [hc] at h
      simp only [ih h, List.cons_append]

theorem answers_prefix (s : σ) (as bs : List α) :
    (answers f s as).1 <+: (answers f s (as ++ bs)).1 := by
  induction as generalizing s with
  | nil => exact List.nil_prefix
  | cons a as ih =>
    simp only [List.cons_append, answers]
    cases f s a with
    | none => exact List.prefix_rfl
    | some x => exact (List.prefix_cons_inj _).mpr (ih x.1)

/-- Two runs that give the same answers, and either stop at the same step or end in related states. -/
def Agree (R : σ → τ → Prop) (x : List β × Option σ) (y : List β × Option τ) : Prop :=
  x.1 = y.1 ∧ Option.Rel R x.2 y.2

/-- **Simulation rule.**  Where each step from related states answers the same and leads to related
states, or cannot be taken on either side, whole runs agree. -/
theorem answers_agree {R : σ → τ → Prop} {ok : α → Prop}
    (hstep : ∀ s t a, R s t → ok a →
      Option.Rel (fun x y => R x.1 y.1 ∧ x.2 = y.2) (f s a) (g t a))
    {s : σ} {t : τ} (h : R s t) {as : List α} (hok : ∀ a ∈ as, ok a) :
    Agree R (answers f s as) (answers g t as) := by
  induction as generalizing s t with
  | nil => exact ⟨rfl, Option.Rel.some h⟩
  | cons a as ih =>
    have ha := hstep s t a h (hok a List.mem_cons_self)
    simp only [answers]
    generalize f s a = x at ha ⊢
    generalize g t a = y at ha ⊢
    cases ha with
    | none => exact ⟨rfl, Option.Rel.none⟩
    | some hxy =>
      rename_i x y
      obtain ⟨hanswers, hend⟩ := ih hxy.1 fun b hb => hok b (List.mem_cons_of_mem a hb)
      refine ⟨?_, hend⟩
      show x.2 :: _ = y.2 :: _
      rw [hxy.2, hanswers]

end Answers

end DagonFs.Lib.Runs
