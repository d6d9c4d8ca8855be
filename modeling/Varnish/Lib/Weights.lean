import Mathlib.Algebra.Order.Group.Defs
import Mathlib.Data.List.Induction

/-!
# Varnish.Lib.Weights — choice by weight

The elements of a list have weights, and lie one behind the other with their intervals.  A function `f` adds the weight of an element to
a sum, exactly or not.

* `pick`: the first element whose interval ends behind a point.
* `Contains`: the interval of an element contains a point.
* `pick_contains`: a point below the sum of all is in the interval of the element that is picked.
* `Grows`: a sum does not decrease.  `Contains.unique`: then a point is in one interval only.
-/

namespace Varnish.Lib.Weights

variable {α M : Type} [LinearOrder M] {f : M → α → M} {l l₁ l₂ : List α} {r s : M} {a b : α}

/-- The first element whose interval ends behind `r`, when the first interval begins at `s`. -/
def pick (f : M → α → M) (r : M) : M → List α → Option α
  | _, [] => none
  | s, a :: l => if f s a ≤ r then pick f r (f s a) l else some a

/-- The interval of `a` contains `r`, when the first interval begins at `s`. -/
def Contains (f : M → α → M) (s : M) (l : List α) (r : M) (a : α) : Prop :=
  ∃ l₁ l₂, l = l₁ ++ a :: l₂ ∧ l₁.foldl f s ≤ r ∧ r < f (l₁.foldl f s) a

theorem Contains.mem (h : Contains f s l r a) : a ∈ l := by
  obtain ⟨l₁, l₂, rfl, -⟩ := h
  exact List.mem_append_right _ List.mem_cons_self

theorem pick_contains (hs : s ≤ r) (hr : r < l.foldl f s) : ∃ a, pick f r s l = some a ∧ Contains f s l r a := by
  induction l generalizing s with
  | nil => exact absurd hr (not_lt.mpr hs)
  | cons a l ih =>
    rw [pick]
    by_cases h : f s a ≤ r
    · obtain ⟨b, hb, l₁, l₂, hl, h1, h2⟩ := ih h hr
      rw [if_pos h]
      exact ⟨b, hb, a :: l₁, l₂, congrArg (a :: ·) hl, h1, h2⟩
    · rw [if_neg h]
      exact ⟨a, rfl, [], l, rfl, hs, not_le.mp h⟩

/-! ## Sums that do not decrease -/

/-- No element of the list makes the sum of those before it smaller. -/
def Grows (f : M → α → M) (s : M) (l : List α) : Prop := ∀ l₁ a, l₁ ++ [a] <+: l → l₁.foldl f s ≤ f (l₁.foldl f s) a

/-- A sum is not larger than the sum of more. -/
theorem Grows.foldl_le (h : Grows f s (l₁ ++ l₂)) : l₁.foldl f s ≤ (l₁ ++ l₂).foldl f s := by
  induction l₂ using List.reverseRecOn with
  | nil => rw [List.append_nil]
  | append_singleton l₂ a ih =>
    rw [← List.append_assoc] at h ⊢
    rw [List.foldl_append (l := l₁ ++ l₂)]
    exact le_trans (ih fun m b hm => h m b (hm.trans (List.prefix_append _ _))) (h (l₁ ++ l₂) a (List.prefix_refl _))

/-- An interval that begins behind another one begins behind its end. -/
theorem Grows.end_le {m₁ m₂ : List α} (h : Grows f s l) (h₁ : l = l₁ ++ a :: l₂) (h₂ : l = m₁ ++ b :: m₂) (hlt : l₁.length < m₁.length) :
    f (l₁.foldl f s) a ≤ m₁.foldl f s := by
  have h₁' : l₁ ++ [a] <+: l := ⟨l₂, by rw [h₁, List.append_assoc, List.singleton_append]⟩
  have h₂' : m₁ <+: l := ⟨b :: m₂, h₂.symm⟩
  obtain ⟨t, rfl⟩ : l₁ ++ [a] <+: m₁ := by
    refine List.prefix_of_prefix_length_le h₁' h₂' ?_
    rw [List.length_append, List.length_singleton]
    exact hlt
  have hgrows : Grows f s (l₁ ++ [a] ++ t) := fun m c hm => h m c (hm.trans h₂')
  have hle := hgrows.foldl_le
  rwa [List.foldl_append (l := l₁)] at hle

theorem Contains.unique (h : Grows f s l) (ha : Contains f s l r a) (hb : Contains f s l r b) : a = b := by
  obtain ⟨l₁, l₂, h1, h2, h3⟩ := ha
  obtain ⟨m₁, m₂, g1, g2, g3⟩ := hb
  rcases Nat.lt_trichotomy l₁.length m₁.length with hlt | heq | hlt
  · exact absurd (lt_of_lt_of_le h3 (le_trans (h.end_le h1 g1 hlt) g2)) (lt_irrefl r)
  · exact (List.cons.inj (List.append_inj (h1.symm.trans g1) heq).2).1
  · exact absurd (lt_of_lt_of_le g3 (le_trans (h.end_le g1 h1 hlt) h2)) (lt_irrefl r)

end Varnish.Lib.Weights
