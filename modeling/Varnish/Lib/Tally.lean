import Mathlib.Data.Int.Notation
import Mathlib.Data.List.Nodup
import Mathlib.Logic.Function.Basic

/-!
# Varnish.Lib.Tally — reference counts and the lists of those who hold them

Nodes `N` carry a counter and the list of the members `M` that refer to them; a member refers to at most one node, and
further references `ext` on a node are held by nobody on a list.

* `Tally`: the counters are right, and a member is on the list of the node it refers to and on no other.
* `Tally.attach`, `Tally.detach`, `Tally.add`, `Tally.clear`: what the operations on one node keep.
* `Tally.unused`: nothing refers to a node with the counter 0.
-/

namespace Varnish.Lib

variable {N M : Type} {cnt : N → ℤ} {mem : N → List M} {ptr : M → Option N} {ext : N → ℤ} {n : N} {m : M}

structure Tally (cnt : N → ℤ) (mem : N → List M) (ptr : M → Option N) (ext : N → ℤ) : Prop where
  count : ∀ n, cnt n = (mem n).length + ext n
  mem_iff : ∀ n m, m ∈ mem n ↔ ptr m = some n
  nodup : ∀ n, (mem n).Nodup

namespace Tally

/-- A counter of 0 means that nothing refers to the node. -/
theorem unused (h : Tally cnt mem ptr ext) (hn : cnt n = 0) (he : 0 ≤ ext n) :
    mem n = [] ∧ ext n = 0 ∧ ∀ m, ptr m ≠ some n := by
  have hc := h.count n
  have hl : (mem n).length = 0 := by omega
  have hnil := List.length_eq_zero_iff.mp hl
  refine ⟨hnil, by omega, fun m hm => ?_⟩
  have := (h.mem_iff n m).mpr hm
  rw [hnil] at this
  cases this

/-- Somebody refers to the node. -/
theorem pos (h : Tally cnt mem ptr ext) (hm : ptr m = some n) (he : 0 ≤ ext n) : 0 < cnt n := by
  have hmem := (h.mem_iff n m).mpr hm
  have hlen : 0 < (mem n).length := List.length_pos_of_mem hmem
  rw [h.count n]
  omega

section Update

variable [DecidableEq N]

/-- References that are held by nobody on a list. -/
theorem add (h : Tally cnt mem ptr ext) (n : N) (k : ℤ) :
    Tally (Function.update cnt n (cnt n + k)) mem ptr (Function.update ext n (ext n + k)) := by
  refine ⟨fun i => ?_, h.mem_iff, h.nodup⟩
  by_cases hi : i = n
  · subst hi
    simp only [Function.update_self]
    rw [h.count i]
    omega
  · simp only [Function.update_of_ne hi]
    exact h.count i

/-- A node that nothing refers to starts anew. -/
theorem clear (h : Tally cnt mem ptr ext) (he : ext n = 0) (hp : ∀ m, ptr m ≠ some n) :
    Tally (Function.update cnt n 0) (Function.update mem n []) ptr ext := by
  refine ⟨fun i => ?_, fun i m => ?_, fun i => ?_⟩
  all_goals by_cases hi : i = n
  · subst hi
    simp [he]
  · simp only [Function.update_of_ne hi]
    exact h.count i
  · subst hi
    simp [hp m]
  · simp only [Function.update_of_ne hi]
    exact h.mem_iff i m
  · subst hi
    simp
  · simp only [Function.update_of_ne hi]
    exact h.nodup i

variable [DecidableEq M]

/-- A member that refers to nothing is put on the list of a node. -/
theorem attach (h : Tally cnt mem ptr ext) (n : N) (hm : ptr m = none) :
    Tally (Function.update cnt n (cnt n + 1)) (Function.update mem n (mem n ++ [m]))
      (Function.update ptr m (some n)) ext := by
  have hout : ∀ i, m ∉ mem i := fun i hi => by
    rw [(h.mem_iff i m).mp hi] at hm
    cases hm
  refine ⟨fun i => ?_, fun i k => ?_, fun i => ?_⟩
  · by_cases hi : i = n
    · subst hi
      simp only [Function.update_self, List.length_append, List.length_singleton]
      rw [h.count i]
      omega
    · simp only [Function.update_of_ne hi]
      exact h.count i
  · by_cases hk : k = m
    · subst hk
      by_cases hi : i = n
      · subst hi
        simp
      · simp only [Function.update_of_ne hi, Function.update_self, Option.some_inj]
        exact ⟨fun hk => absurd hk (hout i), fun he => absurd he.symm hi⟩
    · rw [Function.update_of_ne hk, ← h.mem_iff i k]
      by_cases hi : i = n
      · subst hi
        simp [hk]
      · rw [Function.update_of_ne hi]
  · by_cases hi : i = n
    · subst hi
      simp only [Function.update_self]
      exact List.nodup_append.mpr ⟨h.nodup i, List.nodup_singleton m, fun a ha b hb => by
        rw [List.mem_singleton.mp hb]
        exact fun he => hout i (he ▸ ha)⟩
    · simp only [Function.update_of_ne hi]
      exact h.nodup i

/-- A member is taken off the list of the node it refers to. -/
theorem detach (h : Tally cnt mem ptr ext) (hm : ptr m = some n) :
    Tally (Function.update cnt n (cnt n - 1)) (Function.update mem n ((mem n).erase m))
      (Function.update ptr m none) ext := by
  have hmem := (h.mem_iff n m).mpr hm
  refine ⟨fun i => ?_, fun i k => ?_, fun i => ?_⟩
  · by_cases hi : i = n
    · subst hi
      have hlen := List.length_erase_of_mem hmem
      have hpos : 0 < (mem i).length := List.length_pos_of_mem hmem
      simp only [Function.update_self, hlen]
      rw [h.count i]
      omega
    · simp only [Function.update_of_ne hi]
      exact h.count i
  · by_cases hk : k = m
    · subst hk
      simp only [Function.update_self, reduceCtorEq, iff_false]
      by_cases hi : i = n
      · subst hi
        simp only [Function.update_self]
        exact (h.nodup i).not_mem_erase
      · simp only [Function.update_of_ne hi]
        intro hk
        rw [(h.mem_iff i k).mp hk, Option.some_inj] at hm
        exact hi hm
    · rw [Function.update_of_ne hk, ← h.mem_iff i k]
      by_cases hi : i = n
      · subst hi
        simp only [Function.update_self]
        exact List.mem_erase_of_ne hk
      · rw [Function.update_of_ne hi]
  · by_cases hi : i = n
    · subst hi
      simp only [Function.update_self]
      exact (h.nodup i).erase m
    · simp only [Function.update_of_ne hi]
      exact h.nodup i

end Update

end Tally

end Varnish.Lib
