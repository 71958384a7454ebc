import Mathlib.Algebra.BigOperators.Intervals
import Mathlib.Data.Finset.Max
import DagonFs.Lib.Runs

/-!
# Processes that make the same calls in lockstep

`n` processes make `calls` collective calls each, one after another; the calls are matched by position.  A
process enters a call, and returns from it when the processes that it waits for there (`waits`) have entered
it too.  Which these are is left open: a library may synchronise more than a call needs.

* `exists_step`: whatever the processes wait for, some process can go on until all have made their calls.
* `weight_step`: every step is one of finitely many.
-/

namespace DagonFs.Lib.Lockstep

open DagonFs.Lib.Runs

/-- Where a process is: the calls that it has returned from, and whether it is inside the next one. -/
structure Position where
  returned : ℕ
  inside : Bool
  deriving DecidableEq

inductive Move where
  | enter (process : ℕ)
  | leave (process : ℕ)
  deriving DecidableEq

def Move.process : Move → ℕ
  | .enter p => p
  | .leave p => p

/-- The process has entered call `k`. -/
def Position.Entered (position : Position) (k : ℕ) : Prop :=
  k < position.returned ∨ k = position.returned ∧ position.inside = true

instance (position : Position) (k : ℕ) : Decidable (position.Entered k) :=
  inferInstanceAs (Decidable (_ ∨ _))

/-- No process has made a call. -/
def start : ℕ → Position := fun _ => ⟨0, false⟩

section Step

variable (n calls : ℕ) (waits : ℕ → ℕ → ℕ → Prop) [∀ k p q, Decidable (waits k p q)]

/-- All that `p` waits for in the call that it is inside of have entered it. -/
def MayLeave (s : ℕ → Position) (p : ℕ) : Prop :=
  ∀ q < n, waits (s p).returned p q → (s q).Entered (s p).returned

instance (s : ℕ → Position) (p : ℕ) : Decidable (MayLeave n waits s p) :=
  inferInstanceAs (Decidable (∀ q < n, _ → _))

/-- One step; `none` when it cannot be taken. -/
def step (s : ℕ → Position) : Move → Option (ℕ → Position)
  | .enter p =>
    if p < n ∧ (s p).returned < calls ∧ (s p).inside = false then
      some (Function.update s p ⟨(s p).returned, true⟩)
    else none
  | .leave p =>
    if p < n ∧ (s p).inside = true ∧ MayLeave n waits s p then
      some (Function.update s p ⟨(s p).returned + 1, false⟩)
    else none

/-- All processes have made all calls. -/
def Finished (s : ℕ → Position) : Prop := ∀ p < n, s p = ⟨calls, false⟩

instance (s : ℕ → Position) : Decidable (Finished n calls s) :=
  inferInstanceAs (Decidable (∀ p < n, _))

/-- A process has returned from no more calls than there are, and is inside a call that there is. -/
def Within (s : ℕ → Position) : Prop :=
  ∀ p, (s p).returned ≤ calls ∧ ((s p).inside = true → (s p).returned < calls)

/-- The steps that are left to take: a call takes two. -/
def left (position : Position) : ℕ := 2 * (calls - position.returned) - if position.inside then 1 else 0

def weight (s : ℕ → Position) : ℕ := ∑ p ∈ Finset.range n, left calls (s p)

end Step

variable {n calls : ℕ} {waits : ℕ → ℕ → ℕ → Prop} [∀ k p q, Decidable (waits k p q)] {s s' : ℕ → Position}

theorem step_enter {p : ℕ} (h : step n calls waits s (.enter p) = some s') :
    p < n ∧ (s p).returned < calls ∧ (s p).inside = false ∧
      s' = Function.update s p ⟨(s p).returned, true⟩ := by
  simp only [step] at h
  split at h
  · rename_i hp
    exact ⟨hp.1, hp.2.1, hp.2.2, (Option.some.inj h).symm⟩
  · cases h

theorem step_leave {p : ℕ} (h : step n calls waits s (.leave p) = some s') :
    p < n ∧ (s p).inside = true ∧ MayLeave n waits s p ∧
      s' = Function.update s p ⟨(s p).returned + 1, false⟩ := by
  simp only [step] at h
  split at h
  · rename_i hp
    exact ⟨hp.1, hp.2.1, hp.2.2, (Option.some.inj h).symm⟩
  · cases h

theorem within_start : Within calls start := fun _ => ⟨Nat.zero_le _, fun h => by cases h⟩

theorem within_step {m : Move} (h : Within calls s) (hstep : step n calls waits s m = some s') :
    Within calls s' := by
  cases m with
  | enter p =>
    obtain ⟨-, hlt, -, rfl⟩ := step_enter hstep
    intro q
    by_cases hq : q = p
    · subst hq
      rw [Function.update_self]
      exact ⟨hlt.le, fun _ => hlt⟩
    · rw [Function.update_of_ne hq]
      exact h q
  | leave p =>
    obtain ⟨-, hinside, -, rfl⟩ := step_leave hstep
    intro q
    by_cases hq : q = p
    · subst hq
      rw [Function.update_self]
      exact ⟨(h q).2 hinside, fun hfalse => by cases hfalse⟩
    · rw [Function.update_of_ne hq]
      exact h q

/-- A sum over the processes, when the share of one of them changes. -/
theorem sum_change {f g : ℕ → ℕ} {p : ℕ} (hp : p < n) (h : ∀ q, q ≠ p → g q = f q) :
    ∑ q ∈ Finset.range n, g q + f p = ∑ q ∈ Finset.range n, f q + g p := by
  have hmem : p ∈ Finset.range n := Finset.mem_range.mpr hp
  have hothers : ∑ q ∈ (Finset.range n).erase p, g q = ∑ q ∈ (Finset.range n).erase p, f q := by
    apply Finset.sum_congr rfl
    intro q hq
    exact h q (Finset.ne_of_mem_erase hq)
  rw [← Finset.add_sum_erase _ f hmem, ← Finset.add_sum_erase _ g hmem, hothers]
  omega

/-- One process takes one of its steps. -/
theorem weight_update {p : ℕ} {position : Position} (hp : p < n)
    (hless : left calls position + 1 = left calls (s p)) :
    weight n calls (Function.update s p position) + 1 = weight n calls s := by
  have hsum : ∑ q ∈ Finset.range n, left calls (Function.update s p position q) + left calls (s p) =
      ∑ q ∈ Finset.range n, left calls (s q) + left calls (Function.update s p position p) := by
    apply sum_change hp
    intro q hq
    rw [Function.update_of_ne hq]
  rw [Function.update_self] at hsum
  rw [weight, weight]
  omega

/-- **Every step leaves one step less.** -/
theorem weight_step {m : Move} (h : Within calls s) (hstep : step n calls waits s m = some s') :
    weight n calls s' + 1 = weight n calls s := by
  cases m with
  | enter p =>
    obtain ⟨hp, hlt, hinside, rfl⟩ := step_enter hstep
    refine weight_update hp ?_
    simp only [left, hinside]
    simp only [if_true, Bool.false_eq_true, if_false]
    omega
  | leave p =>
    obtain ⟨hp, hinside, -, rfl⟩ := step_leave hstep
    have hlt := (h p).2 hinside
    refine weight_update hp ?_
    simp only [left, hinside]
    simp only [if_true, Bool.false_eq_true, if_false]
    omega

theorem weight_start : weight n calls start = 2 * n * calls := by
  have hleft : ∀ p ∈ Finset.range n, left calls (start p) = 2 * calls := fun _ _ => rfl
  rw [weight, Finset.sum_const_nat hleft, Finset.card_range, Nat.mul_left_comm, Nat.mul_assoc]

/-- A run has no more steps than there are to take. -/
theorem length_le {moves : List Move} (h : Within calls s)
    (hrun : run (step n calls waits) s moves = some s') : moves.length + weight n calls s' = weight n calls s := by
  induction moves generalizing s with
  | nil =>
    obtain rfl := Option.some.inj hrun
    exact Nat.zero_add _
  | cons m moves ih =>
    obtain ⟨s₁, hfirst, hrest⟩ := Option.bind_eq_some_iff.mp hrun
    have hlater := ih (within_step h hfirst) hrest
    have hless := weight_step h hfirst
    rw [List.length_cons]
    omega

/-- **No deadlock.**  Of the processes that have made the fewest calls, one that is outside can enter the next
call; when they are all inside, every process has entered it, so that any of them can return. -/
theorem exists_step (h : Within calls s) (hopen : ¬ Finished n calls s) :
    ∃ m s', step n calls waits s m = some s' := by
  have hsome : ∃ p < n, s p ≠ ⟨calls, false⟩ := by
    simpa only [Finished, not_forall, exists_prop] using hopen
  obtain ⟨p₀, hp₀, hne⟩ := hsome
  obtain ⟨p, hp, hleast⟩ := Finset.exists_min_image (Finset.range n) (fun q => (s q).returned)
    ⟨p₀, Finset.mem_range.mpr hp₀⟩
  rw [Finset.mem_range] at hp
  have hmin : ∀ q < n, (s p).returned ≤ (s q).returned := fun q hq => hleast q (Finset.mem_range.mpr hq)
  by_cases houtside : ∃ q < n, (s q).returned = (s p).returned ∧ (s q).inside = false
  · obtain ⟨q, hq, hsame, hinside⟩ := houtside
    have hlt : (s q).returned < calls := by
      rw [hsame]
      -- otherwise all processes have made all calls
      by_contra hall
      have hcalls : (s p₀).returned = calls :=
        le_antisymm (h p₀).1 ((Nat.le_of_not_lt hall).trans (hmin p₀ hp₀))
      have hinside₀ : (s p₀).inside = false := by
        by_contra htrue
        have hless := (h p₀).2 (Bool.eq_true_of_not_eq_false htrue)
        omega
      apply hne
      rw [← hcalls, ← hinside₀]
    exact ⟨.enter q, _, if_pos ⟨hq, hlt, hinside⟩⟩
  · have hentered : ∀ q < n, (s q).Entered (s p).returned := by
      intro q hq
      rcases Nat.lt_or_ge (s p).returned (s q).returned with hlt | hge
      · exact Or.inl hlt
      · have hsame := le_antisymm hge (hmin q hq)
        refine Or.inr ⟨hsame.symm, ?_⟩
        by_contra hfalse
        exact houtside ⟨q, hq, hsame, Bool.eq_false_of_not_eq_true hfalse⟩
    have hinside : (s p).inside = true := by
      rcases hentered p hp with hlt | ⟨-, hinside⟩
      · exact absurd hlt (Nat.lt_irrefl _)
      · exact hinside
    exact ⟨.leave p, _, if_pos ⟨hp, hinside, fun q hq _ => hentered q hq⟩⟩

end DagonFs.Lib.Lockstep
