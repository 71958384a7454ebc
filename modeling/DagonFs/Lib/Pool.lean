import Mathlib.Data.Finset.Card
import DagonFs.Lib.Runs

/-!
# A pool of slots with a queue of free ones

The slots of a pool are numbered from 0.  Freed numbers go to the end of a queue.  A number is taken from the
front of the queue only while the pool is reclaiming, which starts when the queue is longer than a threshold
and ends when it is empty; otherwise a slot is added.

`peak_run`: a pool is never larger than the threshold and the most slots that have been in use at a time.
-/

namespace DagonFs.Lib.Pool

open DagonFs.Lib.Runs

structure Slots where
  size : ℕ
  queue : List ℕ
  reclaiming : Bool

/-- The slots that are not in the queue. -/
def Slots.inUse (p : Slots) : ℕ := (Finset.range p.size \ p.queue.toFinset).card

/-- What can happen to a pool. -/
inductive Turn (threshold : ℕ) : Slots → Slots → Prop
  | same (p : Slots) : Turn threshold p p
  | freed (p : Slots) (x : ℕ) : Turn threshold p
      ⟨p.size, p.queue ++ [x], p.reclaiming || decide (threshold < (p.queue ++ [x]).length)⟩
  | reused (size x : ℕ) (queue : List ℕ) : Turn threshold ⟨size, x :: queue, true⟩ ⟨size, queue, true⟩
  | added (p : Slots) (h : p.reclaiming = false ∨ p.queue = []) :
      Turn threshold p ⟨p.size + 1, p.queue, false⟩

/-- While a pool is not reclaiming the queue is short. -/
def Settled (threshold : ℕ) (p : Slots) : Prop := p.reclaiming = false → p.queue.length ≤ threshold

variable {threshold : ℕ} {p p' : Slots}

theorem size_le_inUse_add (p : Slots) : p.size ≤ p.inUse + p.queue.length := by
  have hsplit := Finset.card_le_card_sdiff_add_card (s := Finset.range p.size) (t := p.queue.toFinset)
  have hqueue := List.toFinset_card_le p.queue
  rw [Finset.card_range] at hsplit
  exact hsplit.trans (Nat.add_le_add_left hqueue _)

theorem settled_turn (h : Turn threshold p p') (hp : Settled threshold p) : Settled threshold p' := by
  cases h with
  | same => exact hp
  | freed _ x =>
    intro hquiet
    exact Nat.le_of_not_lt (of_decide_eq_false (Bool.or_eq_false_iff.mp hquiet).2)
  | reused => exact fun hquiet => absurd hquiet Bool.true_eq_false_eq_False
  | added _ hfree =>
    intro _
    rcases hfree with hquiet | hnone
    · exact hp hquiet
    · show p.queue.length ≤ threshold
      rw [hnone]
      exact Nat.zero_le _

/-- A slot is added only while few are free. -/
theorem size_turn (h : Turn threshold p p') (hp : Settled threshold p) :
    p'.size = p.size ∨ p'.size ≤ p'.inUse + threshold := by
  have hafter := settled_turn h hp
  cases h with
  | same => exact Or.inl rfl
  | freed => exact Or.inl rfl
  | reused => exact Or.inl rfl
  | added _ hfree =>
    have hshort : p.queue.length ≤ threshold := hafter rfl
    exact Or.inr ((size_le_inUse_add _).trans (Nat.add_le_add_left hshort _))

/-- **The peak rule.**  The pool of a system is at no time larger than the threshold and the most slots that
were in use so far. -/
theorem peak_run {σ α : Type*} {step : σ → α → Option σ} {pool : σ → Slots}
    (hturn : ∀ s a s', step s a = some s' → Turn threshold (pool s) (pool s')) {s s' : σ} {as : List α}
    (hsettled : Settled threshold (pool s)) (hsize : (pool s).size ≤ (pool s).inUse + threshold)
    (hrun : run step s as = some s') :
    ∃ bs s₁, bs <+: as ∧ run step s bs = some s₁ ∧ (pool s').size ≤ (pool s₁).inUse + threshold := by
  have hinv : Settled threshold (pool s') ∧ run step s as = some s' ∧ ∃ bs s₁, bs <+: as ∧
      run step s bs = some s₁ ∧ (pool s').size ≤ (pool s₁).inUse + threshold := by
    refine history_run (I := fun as s' => Settled threshold (pool s') ∧ run step s as = some s' ∧
      ∃ bs s₁, bs <+: as ∧ run step s bs = some s₁ ∧ (pool s').size ≤ (pool s₁).inUse + threshold) ?_ ?_ hrun
    · exact ⟨hsettled, rfl, [], s, List.prefix_rfl, rfl, hsize⟩
    · rintro as a s₁ s₂ ⟨hquiet, hsofar, bs, peak, hprefix, hpeak, hle⟩ hstep
      have hgone := run_snoc hsofar hstep
      refine ⟨settled_turn (hturn s₁ a s₂ hstep) hquiet, hgone, ?_⟩
      rcases size_turn (hturn s₁ a s₂ hstep) hquiet with hsame | hnew
      · exact ⟨bs, peak, hprefix.trans (List.prefix_append _ _), hpeak, hsame ▸ hle⟩
      · exact ⟨as ++ [a], s₂, List.prefix_rfl, hgone, hnew⟩
  exact hinv.2.2

end DagonFs.Lib.Pool
