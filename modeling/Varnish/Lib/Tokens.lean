import Mathlib.Algebra.BigOperators.Group.Finset.Basic
import Mathlib.Algebra.Order.BigOperators.Group.Finset
import Mathlib.Algebra.Order.Group.Multiset
import Mathlib.Tactic.Abel

/-!
# Varnish.Lib.Tokens — things that are in one place each

Every place `k` has a value `f k`, and `tok` tells the things that a place with that value has.

* `tokens`: the things of all places.  `tokens_update`: one place is changed.
* `card_tokens_le`: how many things there can be.
-/

namespace Varnish.Lib

variable {K X α : Type} [Fintype K] {f : K → X} {tok : X → Multiset α}

/-- The things of all places. -/
def tokens (tok : X → Multiset α) (f : K → X) : Multiset α := ∑ k, tok (f k)

section Update

variable [DecidableEq K]

theorem tokens_update (tok : X → Multiset α) (f : K → X) (k : K) (x : X) :
    tokens tok (Function.update f k x) + tok (f k) = tokens tok f + tok x := by
  have hne : ∀ i ∈ Finset.univ.erase k, tok (Function.update f k x i) = tok (f i) := by
    intro i hi
    rw [Function.update_of_ne (Finset.ne_of_mem_erase hi)]
  rw [tokens, tokens, ← Finset.add_sum_erase _ _ (Finset.mem_univ k), ← Finset.add_sum_erase _ (fun i => tok (f i)) (Finset.mem_univ k),
    Finset.sum_congr rfl hne, Function.update_self]
  abel

end Update

/-- At most one thing in each place. -/
theorem card_tokens_le (h : ∀ x, (tok x).card ≤ 1) : (tokens tok f).card ≤ Fintype.card K := by
  rw [tokens, Multiset.card_sum, Fintype.card, Finset.card_eq_sum_ones]
  exact Finset.sum_le_sum fun k _ => h (f k)

end Varnish.Lib
