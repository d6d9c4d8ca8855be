import Mathlib.Data.Set.Function
import Mathlib.Data.Nat.Notation

/-!
# Varnish.Lib.Slots — keys that have a slot each

The keys `live` correspond one to one to the slots below `n` that are in use.

* `bijOn_push`, `bijOn_remove`: a key gets the next slot, or gives up its own.
* `bijOn_shrink`: a last slot that is not in use is cut off.
* `bijOn_move`: the key of the last slot gets one that is not in use.
-/

namespace Varnish.Lib

open Set

variable {K : Type} {idx idx' : K → ℕ} {live live' : Set K} {used used' : ℕ → Prop} {k : K} {n u : ℕ}

/-- Only what is the case counts. -/
theorem bijOn_congr (h : BijOn idx live {u | u < n ∧ used u}) (hidx : ∀ k ∈ live, idx' k = idx k) (hused : ∀ u < n, used' u ↔ used u) :
    BijOn idx' live {u | u < n ∧ used' u} := by
  have hset : {u | u < n ∧ used' u} = {u | u < n ∧ used u} := by
    ext u
    exact and_congr_right (hused u)
  rw [hset]
  exact h.congr fun k hk => (hidx k hk).symm

/-- A new key gets the next slot. -/
theorem bijOn_push (h : BijOn idx live {u | u < n ∧ used u}) (hidx : ∀ j ∈ live, idx' j = idx j) (hn : idx' k = n)
    (hused : ∀ u < n, used' u ↔ used u) (hlast : used' n) : BijOn idx' (insert k live) {u | u < n + 1 ∧ used' u} := by
  subst hn
  have hset : {u | u < idx' k + 1 ∧ used' u} = insert (idx' k) {u | u < idx' k ∧ used u} := by
    ext u
    rw [mem_insert_iff, mem_ofPred_eq, mem_ofPred_eq, Nat.lt_succ_iff_lt_or_eq]
    constructor
    · rintro ⟨hu | rfl, h⟩
      · exact .inr ⟨hu, (hused u hu).mp h⟩
      · exact .inl rfl
    · rintro (rfl | ⟨hu, h⟩)
      · exact ⟨.inr rfl, hlast⟩
      · exact ⟨.inl hu, (hused u hu).mpr h⟩
  have hout : idx' k ∉ {u | u < idx' k ∧ used u} := fun hmem => Nat.lt_irrefl _ hmem.1
  rw [hset]
  exact (h.congr fun j hj => (hidx j hj).symm).insert hout

/-- A key gives up its slot. -/
theorem bijOn_remove (h : BijOn idx live {u | u < n ∧ used u}) (hk : k ∈ live) (hlive : ∀ j, j ∈ live' ↔ j ∈ live ∧ j ≠ k)
    (hidx : ∀ j ∈ live', idx' j = idx j) (hused : ∀ u < n, used' u ↔ used u ∧ u ≠ idx k) : BijOn idx' live' {u | u < n ∧ used' u} := by
  refine ⟨fun j hj => ?_, fun j hj j' hj' he => ?_, fun u hu => ?_⟩
  · obtain ⟨hj1, hjk⟩ := (hlive j).mp hj
    obtain ⟨hlt, huse⟩ := h.mapsTo hj1
    rw [hidx j hj]
    exact ⟨hlt, (hused _ hlt).mpr ⟨huse, fun he => hjk (h.injOn hj1 hk he)⟩⟩
  · rw [hidx j hj, hidx j' hj'] at he
    exact h.injOn ((hlive j).mp hj).1 ((hlive j').mp hj').1 he
  · obtain ⟨huse, hne⟩ := (hused u hu.1).mp hu.2
    obtain ⟨j, hj, rfl⟩ := h.surjOn ⟨hu.1, huse⟩
    have hj' : j ∈ live' := (hlive j).mpr ⟨hj, fun he => hne (he ▸ rfl)⟩
    exact ⟨j, hj', hidx j hj'⟩

/-- A last slot that is not in use is cut off. -/
theorem bijOn_shrink (h : BijOn idx live {u | u < n + 1 ∧ used u}) (hn : ¬ used n) : BijOn idx live {u | u < n ∧ used u} := by
  have hset : {u | u < n ∧ used u} = {u | u < n + 1 ∧ used u} := by
    ext u
    constructor
    · exact fun hu => ⟨Nat.lt_succ_of_lt hu.1, hu.2⟩
    · exact fun hu => ⟨Nat.lt_of_le_of_ne (Nat.le_of_lt_succ hu.1) fun he => hn (he ▸ hu.2), hu.2⟩
  rw [hset]
  exact h

/-- The key of the last slot gets one that is not in use. -/
theorem bijOn_move (h : BijOn idx live {u | u < n + 1 ∧ used u}) (hk : k ∈ live) (hlast : idx k = n) (hu : u < n) (hhole : ¬ used u)
    (hidx : ∀ j ∈ live, j ≠ k → idx' j = idx j) (hnew : idx' k = u) (hused : ∀ v < n, used' v ↔ v = u ∨ used v) :
    BijOn idx' live {v | v < n ∧ used' v} := by
  have hne : ∀ j ∈ live, idx j ≠ u := fun j hj he => hhole (he ▸ (h.mapsTo hj).2)
  refine ⟨fun j hj => ?_, fun j hj j' hj' he => ?_, fun v hv => ?_⟩
  · by_cases hjk : j = k
    · rw [hjk, hnew]
      exact ⟨hu, (hused u hu).mpr (.inl rfl)⟩
    · obtain ⟨hlt, huse⟩ := h.mapsTo hj
      have hlt' : idx j < n := Nat.lt_of_le_of_ne (Nat.le_of_lt_succ hlt) fun he => hjk (h.injOn hj hk (he.trans hlast.symm))
      rw [hidx j hj hjk]
      exact ⟨hlt', (hused _ hlt').mpr (.inr huse)⟩
  · by_cases hjk : j = k <;> by_cases hjk' : j' = k
    · exact hjk.trans hjk'.symm
    · rw [hjk, hnew, hidx j' hj' hjk'] at he
      exact absurd he.symm (hne j' hj')
    · rw [hjk', hnew, hidx j hj hjk] at he
      exact absurd he (hne j hj)
    · rw [hidx j hj hjk, hidx j' hj' hjk'] at he
      exact h.injOn hj hj' he
  · rcases (hused v hv.1).mp hv.2 with rfl | huse
    · exact ⟨k, hk, hnew⟩
    · obtain ⟨j, hj, rfl⟩ := h.surjOn ⟨Nat.lt_succ_of_lt hv.1, huse⟩
      have hjk : j ≠ k := fun he => Nat.ne_of_lt hv.1 (he ▸ hlast)
      exact ⟨j, hj, hidx j hj hjk⟩

end Varnish.Lib
