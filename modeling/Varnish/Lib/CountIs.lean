import Mathlib.Data.Set.Card
import Mathlib.Logic.Function.Basic

/-!
# Varnish.Lib.CountIs — a counter of the keys with a property

`f` has a value for every key, and a counter is right if it is the number of keys whose value has the property `p`.

* `CountIs.on`, `CountIs.off`, `CountIs.same`: the value of one key is changed.
* `CountIs.pos`, `CountIs.le`: the counter is not 0 when a key has the property, and not more than there are keys that may have it.
-/

namespace Varnish.Lib

open Set

variable {K X : Type} {f : K → X} {p : X → Prop} {n : ℕ} {k : K} {x : X}

/-- `n` keys have values with the property. -/
structure CountIs (f : K → X) (p : X → Prop) (n : ℕ) : Prop where
  finite : {i | p (f i)}.Finite
  count : n = {i | p (f i)}.ncard

namespace CountIs

/-- A key has the property if the counter is not 0. -/
theorem nonempty_iff (h : CountIs f p n) : {i | p (f i)}.Nonempty ↔ n ≠ 0 := by
  rw [h.count, ← ncard_pos h.finite, Nat.pos_iff_ne_zero]

theorem pos (h : CountIs f p n) (hk : p (f k)) : 0 < n := Nat.pos_of_ne_zero (h.nonempty_iff.mp ⟨k, hk⟩)

/-- Only the keys below `m` may have the property. -/
theorem le {f : ℕ → X} (h : CountIs f p n) {m : ℕ} (hm : ∀ i, p (f i) → i < m) : n ≤ m := by
  have hsub : {i | p (f i)} ⊆ (Finset.range m : Set ℕ) := fun i hi => Finset.mem_coe.mpr (Finset.mem_range.mpr (hm i hi))
  have hcard := ncard_le_ncard hsub (Finset.finite_toSet _)
  rwa [ncard_coe_finset, Finset.card_range, ← h.count] at hcard

section Update

variable [DecidableEq K]

/-- The property of a value that changes nothing. -/
theorem same (h : CountIs f p n) (hx : p x ↔ p (f k)) : CountIs (Function.update f k x) p n := by
  have hset : {i | p (Function.update f k x i)} = {i | p (f i)} := by
    ext i
    by_cases hi : i = k
    · subst hi
      rw [mem_ofPred_eq, mem_ofPred_eq, Function.update_self]
      exact hx
    · rw [mem_ofPred_eq, mem_ofPred_eq, Function.update_of_ne hi]
  exact ⟨by rw [hset]; exact h.finite, by rw [hset]; exact h.count⟩

/-- One more key has the property. -/
theorem on (h : CountIs f p n) (hk : ¬ p (f k)) (hx : p x) : CountIs (Function.update f k x) p (n + 1) := by
  have hset : {i | p (Function.update f k x i)} = insert k {i | p (f i)} := by
    ext i
    rw [mem_insert_iff]
    by_cases hi : i = k
    · subst hi
      rw [mem_ofPred_eq, Function.update_self]
      exact iff_of_true hx (.inl rfl)
    · rw [mem_ofPred_eq, mem_ofPred_eq, Function.update_of_ne hi]
      exact (or_iff_right hi).symm
  have hcard := ncard_insert_of_notMem (show k ∉ {i | p (f i)} from hk) h.finite
  exact ⟨by rw [hset]; exact h.finite.insert k, by rw [hset, hcard, ← h.count]⟩

/-- One key less has it. -/
theorem off (h : CountIs f p (n + 1)) (hk : p (f k)) (hx : ¬ p x) : CountIs (Function.update f k x) p n := by
  have hset : {i | p (Function.update f k x i)} = {i | p (f i)} \ {k} := by
    ext i
    rw [mem_sdiff, mem_singleton_iff]
    by_cases hi : i = k
    · subst hi
      rw [mem_ofPred_eq, Function.update_self]
      exact iff_of_false hx fun h => h.2 rfl
    · rw [mem_ofPred_eq, mem_ofPred_eq, Function.update_of_ne hi]
      exact (and_iff_left hi).symm
  have hcard := ncard_sdiff_singleton_add_one (show k ∈ {i | p (f i)} from hk) h.finite
  rw [← h.count] at hcard
  exact ⟨by rw [hset]; exact h.finite.subset sdiff_subset, by rw [hset]; omega⟩

end Update

end CountIs

end Varnish.Lib
