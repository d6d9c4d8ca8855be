import Mathlib.Data.List.Nodup
import Mathlib.Logic.Function.Basic

/-!
# Varnish.Lib.Shelves — things that are in one place each

Places `P` have a list each, and a thing `X` is on the list of its place and on no other.

* `Shelves place shelf`: the lists are those of the places.
* `Shelves.move`, `Shelves.take`, `Shelves.put`: the first thing of a list goes to the front of another one, goes away, and comes anew.
* `Shelves.reorder`: the order of a list does not matter.
* `Shelves.unique`: a thing that is on two lists is on one.
-/

namespace Varnish.Lib

variable {X P : Type} {place : X → Option P} {shelf : P → List X} {x y : X} {p q : P} {l : List X}

/-- Each thing is on the list of its place, once. -/
structure Shelves (place : X → Option P) (shelf : P → List X) : Prop where
  nodup : ∀ p, (shelf p).Nodup
  mem_iff : ∀ p x, x ∈ shelf p ↔ place x = some p

namespace Shelves

theorem unique (h : Shelves place shelf) (hp : x ∈ shelf p) (hq : x ∈ shelf q) : p = q :=
  Option.some.inj (((h.mem_iff p x).1 hp).symm.trans ((h.mem_iff q x).1 hq))

/-- A list is put in another order. -/
theorem reorder [DecidableEq P] (h : Shelves place shelf) (hl : (shelf p).Perm l) : Shelves place (Function.update shelf p l) := by
  refine ⟨fun q => ?_, fun q y => ?_⟩
  · by_cases hq : q = p
    · subst hq
      rw [Function.update_self]
      exact hl.nodup_iff.1 (h.nodup q)
    · rw [Function.update_of_ne hq]
      exact h.nodup q
  · by_cases hq : q = p
    · subst hq
      rw [Function.update_self, ← hl.mem_iff, h.mem_iff]
    · rw [Function.update_of_ne hq, h.mem_iff]

section Update

variable [DecidableEq X] [DecidableEq P]

/-- A thing comes anew. -/
theorem put (h : Shelves place shelf) (hx : place x = none) (p : P) :
    Shelves (Function.update place x (some p)) (Function.update shelf p (x :: shelf p)) := by
  have hout : ∀ q, x ∉ shelf q := fun q hm => by
    rw [(h.mem_iff q x).1 hm] at hx
    cases hx
  refine ⟨fun q => ?_, fun q y => ?_⟩
  · by_cases hq : q = p
    · subst hq
      rw [Function.update_self]
      exact List.nodup_cons.2 ⟨hout q, h.nodup q⟩
    · rw [Function.update_of_ne hq]
      exact h.nodup q
  · by_cases hy : y = x
    · subst hy
      by_cases hq : q = p
      · subst hq
        simp
      · simp [hq, hout q, Ne.symm hq]
    · rw [Function.update_of_ne hy]
      by_cases hq : q = p
      · subst hq
        rw [Function.update_self, List.mem_cons, h.mem_iff]
        exact ⟨fun hm => hm.resolve_left hy, .inr⟩
      · rw [Function.update_of_ne hq]
        exact h.mem_iff q y

/-- The first thing of a list goes away. -/
theorem take (h : Shelves place shelf) (hx : shelf p = x :: l) : Shelves (Function.update place x none) (Function.update shelf p l) := by
  have hn := List.nodup_cons.1 (hx ▸ h.nodup p)
  refine ⟨fun q => ?_, fun q y => ?_⟩
  · by_cases hq : q = p
    · subst hq
      rw [Function.update_self]
      exact hn.2
    · rw [Function.update_of_ne hq]
      exact h.nodup q
  · by_cases hq : q = p
    · subst hq
      rw [Function.update_self]
      by_cases hy : y = x
      · subst hy
        simp [hn.1]
      · rw [Function.update_of_ne hy, ← h.mem_iff, hx, List.mem_cons]
        exact ⟨.inr, fun hm => hm.resolve_left hy⟩
    · rw [Function.update_of_ne hq]
      by_cases hy : y = x
      · subst hy
        rw [Function.update_self]
        exact iff_of_false (fun hm => hq (h.unique hm (by rw [hx]; exact List.mem_cons_self))) nofun
      · rw [Function.update_of_ne hy]
        exact h.mem_iff q y

/-- The first thing of a list goes to the front of another one. -/
theorem move (h : Shelves place shelf) (hx : shelf p = x :: l) (hpq : p ≠ q) :
    Shelves (Function.update place x (some q)) (Function.update (Function.update shelf p l) q (x :: shelf q)) := by
  have h1 := (h.take hx).put (Function.update_self x none place) q
  rwa [Function.update_idem, Function.update_of_ne hpq.symm] at h1

end Update

end Shelves

end Varnish.Lib
