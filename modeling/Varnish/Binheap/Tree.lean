import Varnish.Binheap.Index

/-!
# Varnish.Binheap.Tree — whether `parent` and `child` are inverse

* `Inverse`: the two maps at one index.
* `usual_kids`, `kids_usual`: the children of an index inside of a page, which are next to each other.
* `inverse_iff`: the maps are inverse at all other indices, and at these if `*b` has the first child before the call.
-/

namespace Varnish.Binheap

open Varnish.Lib

variable {pg : Page} {u i b : ℕ}

/-- **The maps are inverse at `u`**, when `*b` is `b` before the call of `child`.  All indices are below the root. -/
structure Inverse (pg : Page) (u b : ℕ) : Prop where
  below : u < (child pg u b).1 ∧ u < (child pg u b).2
  parent_child : parent pg (child pg u b).1 = u ∧ parent pg (child pg u b).2 = u
  child_parent : ∀ v, 1 < v → v < 2 ^ 32 → parent pg v = u → v = (child pg u b).1 ∨ v = (child pg u b).2
  above : 1 < u → 1 ≤ parent pg u ∧ parent pg u < u
  root : ∃ k, (parent pg)^[k] u = 1

/-! ## Inside of a page -/

theorem child_usual (hu : Usual pg u) (b : ℕ) : child pg u b = (u + (u &&& pg.mask), wrap (b + 1)) := by
  rw [child, if_neg hu.1, if_neg hu.2]

/-- The two places below an index of the last branch. -/
theorem usual_kids (hu : Usual pg u) : parent pg (u + (u &&& pg.mask)) = u ∧ parent pg (u + (u &&& pg.mask) + 1) = u := by
  have hP := pg.size_two_half
  have hH := pg.two_le_half
  have hpo : u % pg.size < pg.size := Nat.mod_lt _ (by omega)
  have hdiv : pg.size * (u / pg.size) + u % pg.size = u := Nat.div_add_mod _ _
  generalize u / pg.size = q at hdiv
  generalize u % pg.size = po at hdiv hpo
  subst hdiv
  obtain ⟨hm, hb⟩ := hu
  rw [magic_iff hpo] at hm
  rw [bottom_iff hpo] at hb
  rw [and_mask, mod_size hpo, Nat.add_assoc, Nat.add_assoc]
  constructor
  · rw [parent_inner (by omega) (by omega)]
    omega
  · rw [Nat.add_assoc, parent_inner (by omega) (by omega)]
    omega

/-- There are no others. -/
theorem kids_usual (hu : Usual pg u) (hp : parent pg i = u) : i = u + (u &&& pg.mask) ∨ i = u + (u &&& pg.mask) + 1 := by
  have hP := pg.size_two_half
  have hH := pg.two_le_half
  subst hp
  cases place pg i with
  | inner q po h hq =>
    rw [parent_inner h hq, and_mask, mod_size (by omega)]
    omega
  | second q po hq h2 h3 h =>
    rw [parent_second h hq h2 h3] at hu
    exact absurd ((magic_iff (by omega)).mpr ⟨hq, by omega⟩) hu.1
  | first a r po h hr =>
    rw [parent_first _ _ _ _ h hr] at hu
    exact absurd ((bottom_iff (by omega)).mpr (by omega)) hu.2

/-- They are on the same page, so that they have 32 bits. -/
theorem usual_fits (hu : Usual pg u) (hlt : u < 2 ^ 32) : u + (u &&& pg.mask) + 1 < 2 ^ 32 := by
  have hP := pg.size_two_half
  have hpo : u % pg.size < pg.size := Nat.mod_lt _ (by have := pg.two_le_half; omega)
  have hdiv : pg.size * (u / pg.size) + u % pg.size = u := Nat.div_add_mod _ _
  have hhalf : u % pg.size < pg.half := by
    by_contra hge
    refine hu.2 ?_
    rw [← hdiv]
    exact (bottom_iff hpo).mpr (Nat.le_of_not_lt hge)
  have hpages : 2 ^ 32 = pg.size * 2 ^ (32 - pg.shift) := by
    rw [pg.size_eq, ← pow_add, Nat.add_sub_cancel' (le_trans pg.le (by decide))]
  have hq : u / pg.size + 1 ≤ 2 ^ (32 - pg.shift) := by
    refine Nat.div_lt_of_lt_mul ?_
    rw [← hpages]
    exact hlt
  have hend : pg.size * (u / pg.size + 1) ≤ 2 ^ 32 := by
    rw [hpages]
    exact Nat.mul_le_mul_left _ hq
  rw [and_mask]
  rw [Nat.mul_add, Nat.mul_one] at hend
  omega

/-- They are not the root. -/
theorem one_lt_usual (pg : Page) (h0 : 1 ≤ u) : 1 < u + (u &&& pg.mask) := by
  have hsize : 1 < pg.size := by
    have := pg.size_two_half
    have := pg.two_le_half
    omega
  rw [and_mask]
  rcases Nat.lt_or_eq_of_le h0 with h1 | rfl
  · omega
  · rw [Nat.mod_eq_of_lt hsize]
    decide

/-! ## Everywhere -/

/-- Where the two outputs of `child` are the children, the maps are inverse. -/
theorem inverse_of_kids (h0 : 1 ≤ u) (hp : parent pg (child pg u b).1 = u ∧ parent pg (child pg u b).2 = u)
    (h1 : 1 < (child pg u b).1 ∧ 1 < (child pg u b).2)
    (hall : ∀ v, 1 < v → parent pg v = u → v = (child pg u b).1 ∨ v = (child pg u b).2) : Inverse pg u b where
  below := by
    obtain ⟨hp1, hp2⟩ := hp
    have hlt1 := (up_parent pg _ _ h1.1 (Nat.lt_succ_self _)).2
    have hlt2 := (up_parent pg _ _ h1.2 (Nat.lt_succ_self _)).2
    rw [hp1] at hlt1
    rw [hp2] at hlt2
    exact ⟨hlt1, hlt2⟩
  parent_child := hp
  child_parent v hv _ := hall v hv
  above hu := up_parent pg (u + 1) u hu (Nat.lt_succ_self u)
  root := (up_parent pg (u + 1)).root h0 (Nat.lt_succ_self u)

/-- **The maps are inverse if and only if** the last branch of `child`, where it is taken, finds the first child in `*b`. -/
theorem inverse_iff (h0 : 1 ≤ u) (hu : u < 2 ^ 32) (hb : b < 2 ^ 32) (ho : ¬ Overflows pg u) :
    Inverse pg u b ↔ (Usual pg u → b = u + (u &&& pg.mask)) := by
  constructor
  · intro h hus
    have hfits := usual_fits hus hu
    have hkid := h.child_parent (u + (u &&& pg.mask) + 1) (by omega) hfits (usual_kids hus).2
    rw [child_usual hus] at hkid
    rcases hkid with hkid | hkid
    · exact absurd hkid (Nat.succ_ne_self _)
    · simp only [wrap] at hkid
      rcases Nat.lt_or_ge (b + 1) (2 ^ 32) with hlt | hge
      · rw [Nat.mod_eq_of_lt hlt] at hkid
        omega
      · rw [show b + 1 = 2 ^ 32 by omega, Nat.mod_self] at hkid
        cases hkid
  · intro hcond
    by_cases hus : Usual pg u
    · have hfits := usual_fits hus hu
      have hchild : child pg u b = (u + (u &&& pg.mask), u + (u &&& pg.mask) + 1) := by
        rw [child_usual hus, hcond hus, wrap, Nat.mod_eq_of_lt hfits]
      refine inverse_of_kids h0 ?_ ?_ ?_
      · rw [hchild]
        exact usual_kids hus
      · rw [hchild]
        have h1 := one_lt_usual pg h0
        exact ⟨h1, Nat.lt_succ_of_lt h1⟩
      · rw [hchild]
        exact fun v _ hv => kids_usual hus hv
    · obtain ⟨h1, hp1, h2, hp2, hall⟩ := child_spec (b := b) hus ho
      exact inverse_of_kids h0 ⟨hp1, hp2⟩ ⟨h1, h2⟩ hall

theorem inverse_iff_inner : 1 ≤ 514 ∧ (Inverse ⟨9, by decide, by decide⟩ 514 516 ↔ (Usual ⟨9, by decide, by decide⟩ 514 → 516 = 514 + 2)) :=
  ⟨by decide, inverse_iff (by decide) (by decide) (by decide) (by decide)⟩

/-- The third place of the second page, when the children of the first place were looked up before: the second output is 515, which is
below 513. -/
theorem stale_child : child ⟨9, by decide, by decide⟩ 512 0 = (514, 514) ∧ ¬ Inverse ⟨9, by decide, by decide⟩ 514 514 := by
  refine ⟨by decide, fun h => ?_⟩
  exact absurd h.parent_child.2 (by decide)

end Varnish.Binheap
