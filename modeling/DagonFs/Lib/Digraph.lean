import Mathlib.Data.Finset.Card
import Mathlib.Logic.Relation

/-!
# Relations without cycles

`r a b` reads "`b` is below `a`".  Adding an edge to a relation without cycles closes none when the lower end
does not lead to the upper one (`Acyclic.insert`).  Where all lower ends are in a finite set, `height` counts
what is below an element: it drops along every edge (`height_lt`), so that what can be reached at all can be
reached in a bounded number of steps.
-/

namespace DagonFs.Lib.Digraph

open Relation

variable {α : Type*} {r s : α → α → Prop} {a b : α}

def Acyclic (r : α → α → Prop) : Prop := ∀ a, ¬ TransGen r a a

theorem Acyclic.mono (h : Acyclic r) (hle : ∀ a b, s a b → r a b) : Acyclic s :=
  fun a hcycle => h a (TransGen.mono hle a a hcycle)

theorem Acyclic.swap (h : Acyclic r) : Acyclic (Function.swap r) :=
  fun a hcycle => h a (transGen_swap.mp hcycle)

section Insert

variable (hadd : ∀ x y, s x y → r x y ∨ x = a ∧ y = b)
include hadd

/-- What can be reached with one edge more is reached without it, or over it. -/
theorem reflTransGen_insert {x y : α} (hpath : ReflTransGen s x y) :
    ReflTransGen r x y ∨ ReflTransGen r x a ∧ ReflTransGen s b y := by
  induction hpath using ReflTransGen.head_induction_on with
  | refl => exact Or.inl ReflTransGen.refl
  | head hedge hrest ih =>
    rcases hadd _ _ hedge with hold | ⟨rfl, rfl⟩
    · exact ih.imp (ReflTransGen.head hold) (And.imp_left (ReflTransGen.head hold))
    · exact Or.inr ⟨ReflTransGen.refl, hrest⟩

/-- **One edge more closes no cycle** when it does not lead back. -/
theorem Acyclic.insert (h : Acyclic r) (hback : ¬ ReflTransGen r b a) : Acyclic s := by
  -- below `b` nothing is new
  have hbelow : ∀ y, ReflTransGen s b y → ReflTransGen r b y := by
    intro y hpath
    rcases reflTransGen_insert hadd hpath with hold | ⟨hba, -⟩
    · exact hold
    · exact absurd hba hback
  intro x hcycle
  obtain ⟨z, hedge, hrest⟩ := TransGen.head'_iff.mp hcycle
  rcases hadd x z hedge with hold | ⟨rfl, rfl⟩
  · rcases reflTransGen_insert hadd hrest with hzx | ⟨hza, hbx⟩
    · exact h x (TransGen.head' hold hzx)
    · exact hback ((hbelow x hbx).trans (ReflTransGen.head hold hza))
  · exact hback (hbelow x hrest)

end Insert

/-! ### How far down it goes -/

section Height

open Classical

variable (S : Finset α)

/-- How many elements are below `a`. -/
noncomputable def height (r : α → α → Prop) (S : Finset α) (a : α) : ℕ := (S.filter (TransGen r a)).card

variable {S} (h : Acyclic r)
include h

theorem height_lt_card (ha : a ∈ S) : height r S a < S.card :=
  Finset.card_lt_card ⟨Finset.filter_subset _ S, fun hall => h a (Finset.mem_filter.mp (hall ha)).2⟩

/-- **Heights drop along the edges.** -/
theorem height_lt (hS : ∀ a b, r a b → b ∈ S) (hedge : r a b) : height r S b < height r S a := by
  apply Finset.card_lt_card
  constructor
  · intro c hc
    obtain ⟨hmem, hbelow⟩ := Finset.mem_filter.mp hc
    exact Finset.mem_filter.mpr ⟨hmem, TransGen.head hedge hbelow⟩
  · intro hall
    have hself := hall (Finset.mem_filter.mpr ⟨hS a b hedge, TransGen.single hedge⟩)
    exact h b (Finset.mem_filter.mp hself).2

/-- From every element one climbs to one that is below nothing. -/
theorem exists_top (hS : ∀ a b, r a b → a ∈ S) (x : α) :
    ∃ top, ReflTransGen r top x ∧ ∀ y, ¬ r y top := by
  induction hn : height (Function.swap r) S x using Nat.strong_induction_on generalizing x with
  | _ n ih =>
    by_cases habove : ∃ y, r y x
    · obtain ⟨y, hedge⟩ := habove
      have hless : height (Function.swap r) S y < height (Function.swap r) S x :=
        height_lt h.swap (fun a b hab => hS b a hab) hedge
      obtain ⟨top, hpath, htop⟩ := ih _ (hn ▸ hless) y rfl
      exact ⟨top, hpath.tail hedge, htop⟩
    · exact ⟨x, ReflTransGen.refl, fun y hy => habove ⟨y, hy⟩⟩

end Height

end DagonFs.Lib.Digraph
