import Mathlib.Tactic.Ring
import Mathlib.Tactic.Linarith
import Varnish.Binheap.Model
import Varnish.Lib.HeapOrder

/-!
# Varnish.Binheap.Index — parents and children of page-clustered indices

An index is `size * q + po`: the place `po` on the page `q`.  The bit operations of `parent` and `child` are turned into
arithmetic on the two, one lemma for each kind of place.

* `up_parent`: parents come before their children.
* `kids_of_parent`: the children of an index are where `child` looks for them, but for the stale `*b` of its last branch
  and for indices of more than 32 bits.
-/

namespace Varnish.Binheap

open Varnish.Lib

/-! ## Bits -/

section Bits

variable (pg : Page)

/-- Half of the places of a page: the bottom row. -/
def Page.half (pg : Page) : ℕ := 2 ^ (pg.shift - 1)

theorem Page.size_eq : pg.size = 2 ^ pg.shift := by rw [Page.size, Nat.one_shiftLeft]

theorem Page.size_two_half : pg.size = 2 * pg.half := by
  rw [Page.size_eq, Page.half, ← pow_succ', Nat.sub_add_cancel (le_trans (by norm_num) pg.two_le)]

theorem Page.two_le_half : 2 ≤ pg.half := by
  have h : 2 ^ 1 ≤ 2 ^ (pg.shift - 1) := Nat.pow_le_pow_right (by norm_num) (by have := pg.two_le; omega)
  simpa [Page.half] using h

theorem and_mask (u : ℕ) : u &&& pg.mask = u % pg.size := by
  rw [Page.mask, pg.size_eq, Nat.and_two_pow_sub_one_eq_mod]

theorem and_half_mask (u : ℕ) : u &&& pg.mask >>> 1 = u % pg.half := by
  have h : pg.mask >>> 1 = 2 ^ (pg.shift - 1) - 1 := by
    have := pg.size_two_half
    have := pg.two_le_half
    rw [Nat.shiftRight_one, Page.mask, ← Page.half]
    omega
  rw [h, Nat.and_two_pow_sub_one_eq_mod, Page.half]

variable {pg} {q po r : ℕ}

/-- The page number and the place are recovered. -/
theorem div_size (h : po < pg.size) : (pg.size * q + po) / pg.size = q := by
  rw [Nat.mul_add_div (by omega), Nat.div_eq_of_lt h, Nat.add_zero]

theorem mod_size (h : po < pg.size) : (pg.size * q + po) % pg.size = po := by
  rw [Nat.mul_add_mod, Nat.mod_eq_of_lt h]

theorem clear_mask (h : po < pg.size) : clear (pg.size * q + po) pg.mask = pg.size * q := by
  rw [clear, and_mask, mod_size h, Nat.add_sub_cancel]

theorem size_or (h : po < pg.size) : pg.size * q ||| po = pg.size * q + po := by
  rw [pg.size_eq] at h ⊢
  exact (Nat.two_pow_add_eq_or_of_lt h q).symm

theorem half_or (h : r < pg.half) : pg.half * q ||| r = pg.half * q + r :=
  (Nat.two_pow_add_eq_or_of_lt h q).symm

theorem magic_iff (h : po < pg.size) : Magic pg (pg.size * q + po) ↔ 0 < q ∧ po < 2 := by
  have hP := pg.size_two_half
  have hH := pg.two_le_half
  have hmask : pg.mask - 1 = 2 * (2 ^ (pg.shift - 1) - 1) := by rw [Page.mask, hP, ← Page.half]; omega
  have hdiv : ((pg.size * q + po) &&& (pg.mask - 1)) / 2 = po / 2 := by
    rw [Nat.and_div_two, hmask, Nat.mul_div_cancel_left _ (by norm_num), Nat.and_two_pow_sub_one_eq_mod, ← Page.half, hP,
      mul_assoc, Nat.mul_add_div (by norm_num), Nat.mul_add_mod, Nat.mod_eq_of_lt (by omega)]
  have hmod : ((pg.size * q + po) &&& (pg.mask - 1)) % 2 ≠ 1 := by
    rw [ne_eq, Nat.and_mod_two_eq_one, hmask]
    omega
  have hzero : (pg.size * q + po) &&& (pg.mask - 1) = 0 ↔ po < 2 := by omega
  have hpage : pg.size * q + po > pg.mask ↔ 0 < q := by
    rw [Page.mask]
    rcases Nat.eq_zero_or_pos q with rfl | hq
    · simp only [Nat.mul_zero, Nat.lt_irrefl, iff_false]
      omega
    · have : pg.size * 1 ≤ pg.size * q := Nat.mul_le_mul_left _ hq
      simp only [hq, iff_true]
      omega
  rw [Magic, hzero, hpage]

theorem bottom_iff (h : po < pg.size) : Bottom pg (pg.size * q + po) ↔ pg.half ≤ po := by
  have hP := pg.size_two_half
  have hshift : pg.size >>> 1 = 2 ^ (pg.shift - 1) := by rw [Nat.shiftRight_one, hP, ← Page.half]; omega
  have hH := pg.two_le_half
  have hdiv : (pg.size * q + po) / 2 ^ (pg.shift - 1) % 2 = po / pg.half := by
    rw [← Page.half, hP, show 2 * pg.half * q + po = pg.half * (2 * q) + po by ring, Nat.mul_add_div (by omega),
      Nat.mul_add_mod, Nat.mod_eq_of_lt]
    rw [Nat.div_lt_iff_lt_mul (by omega)]
    omega
  rw [Bottom, hshift, Nat.and_two_pow, Nat.testBit_eq_decide_div_mod_eq, hdiv]
  rcases Nat.lt_or_ge po pg.half with hlt | hge
  · rw [Nat.div_eq_of_lt hlt]
    simp [Nat.not_le.mpr hlt]
  · have h1 : po / pg.half = 1 := by
      rw [Nat.div_eq_iff (by omega)]
      omega
    rw [h1]
    simp [hge]

/-! ## Parents -/

theorem parent_inner (h : po < pg.size) (hq : q = 0 ∨ 3 < po) : parent pg (pg.size * q + po) = pg.size * q + po / 2 := by
  have hcond : pg.size * q + po < pg.size ∨ (pg.size * q + po) &&& pg.mask > 3 := by
    rw [and_mask, mod_size h]
    rcases hq with rfl | hq
    · exact .inl (by omega)
    · exact .inr hq
  rw [parent, if_pos hcond, clear_mask h, and_mask, mod_size h, Nat.shiftRight_one, size_or (by omega)]

theorem parent_second (h : po < pg.size) (hq : 0 < q) (h2 : 2 ≤ po) (h3 : po ≤ 3) :
    parent pg (pg.size * q + po) = pg.size * q + (po - 2) := by
  have hle : pg.size * 1 ≤ pg.size * q := Nat.mul_le_mul_left _ hq
  have hcond : ¬ (pg.size * q + po < pg.size ∨ (pg.size * q + po) &&& pg.mask > 3) := by
    rw [and_mask, mod_size h]
    omega
  rw [parent, if_neg hcond, and_mask, mod_size h, if_neg (by omega)]
  omega

/-- The first two places of a page hang below the bottom row of another one. -/
theorem parent_first (pg : Page) (a r po : ℕ) (h : po < 2) (hr : r < pg.half) :
    parent pg (pg.size * (pg.half * a + r + 1) + po) = pg.size * a + (pg.half + r) := by
  have hP := pg.size_two_half
  have hH := pg.two_le_half
  have hpo : po < pg.size := by omega
  have hcond : ¬ (pg.size * (pg.half * a + r + 1) + po < pg.size ∨
      (pg.size * (pg.half * a + r + 1) + po) &&& pg.mask > 3) := by
    rw [and_mask, mod_size hpo, Nat.mul_add, Nat.mul_one]
    omega
  have hv : (pg.size * (pg.half * a + r + 1) + po - pg.size) >>> pg.shift = pg.half * a + r := by
    rw [Nat.shiftRight_eq_div_pow, ← pg.size_eq, show pg.size * (pg.half * a + r + 1) + po - pg.size =
      pg.size * (pg.half * a + r) + po by rw [Nat.mul_add _ _ 1]; omega, div_size hpo]
  have hclear : clear (pg.half * a + r) (pg.mask >>> 1) = pg.half * a := by
    rw [clear, and_half_mask, Nat.mul_add_mod, Nat.mod_eq_of_lt hr, Nat.add_sub_cancel]
  have hhalf : pg.size / 2 = pg.half := by omega
  rw [parent, if_neg hcond, and_mask, mod_size hpo, if_pos h, hv]
  simp only [hclear, hhalf]
  rw [show pg.half * a + r + pg.half * a = pg.size * a + r by rw [hP]; ring, ← size_or (by omega : r < pg.size),
    Nat.or_assoc, Nat.or_comm r, show pg.half ||| r = pg.half + r by simpa using half_or (q := 1) hr,
    size_or (by omega)]

/-! ## Children -/

theorem child_magic (hq : 0 < q) (h : po < 2) (b : ℕ) :
    child pg (pg.size * q + po) b = (pg.size * q + po + 2, pg.size * q + po + 2) := by
  have hP := pg.size_two_half
  have hH := pg.two_le_half
  rw [child, if_pos ((magic_iff (by omega)).mpr ⟨hq, h⟩)]

theorem bottomPage_eq {a : ℕ} (hr : r < pg.half) : bottomPage pg (pg.size * a + (pg.half + r)) = pg.half * a + r + 1 := by
  have hP := pg.size_two_half
  have hclear : clear (pg.size * a + (pg.half + r)) pg.mask >>> 1 = pg.half * a := by
    rw [clear_mask (by omega), Nat.shiftRight_one, hP, mul_assoc, Nat.mul_div_cancel_left _ (by norm_num)]
  have hmod : (pg.size * a + (pg.half + r)) &&& pg.mask >>> 1 = r := by
    rw [and_half_mask, hP, show 2 * pg.half * a + (pg.half + r) = pg.half * (2 * a + 1) + r by ring, Nat.mul_add_mod,
      Nat.mod_eq_of_lt hr]
  rw [bottomPage, hclear, hmod, half_or hr]

theorem child_bottom {a : ℕ} (hr : r < pg.half) (b : ℕ) : child pg (pg.size * a + (pg.half + r)) b =
    (wrap (pg.size * (pg.half * a + r + 1)), wrap (pg.size * (pg.half * a + r + 1)) + 1) := by
  have hP := pg.size_two_half
  have hH := pg.two_le_half
  have hm : ¬ Magic pg (pg.size * a + (pg.half + r)) := by
    rw [magic_iff (by omega)]
    omega
  have hb : Bottom pg (pg.size * a + (pg.half + r)) := (bottom_iff (by omega)).mpr (by omega)
  rw [child, if_neg hm, if_pos hb, bottomPage_eq hr, Nat.shiftLeft_eq, ← pg.size_eq, Nat.mul_comm]

end Bits

/-! ## The two together -/

section Kids

variable {pg : Page} {u i n : ℕ}

/-- The four kinds of indices, with their places. -/
inductive Place (pg : Page) : ℕ → Prop
  | inner (q po : ℕ) (h : po < pg.size) (hq : q = 0 ∨ 3 < po) : Place pg (pg.size * q + po)
  | second (q po : ℕ) (hq : 0 < q) (h2 : 2 ≤ po) (h3 : po ≤ 3) (h : po < pg.size) : Place pg (pg.size * q + po)
  | first (a r po : ℕ) (h : po < 2) (hr : r < pg.half) : Place pg (pg.size * (pg.half * a + r + 1) + po)

theorem place (pg : Page) (i : ℕ) : Place pg i := by
  have hP := pg.size_two_half
  have hH := pg.two_le_half
  have hpo : i % pg.size < pg.size := Nat.mod_lt _ (by omega)
  have hi : pg.size * (i / pg.size) + i % pg.size = i := Nat.div_add_mod _ _
  rcases Nat.eq_zero_or_pos (i / pg.size) with hq | hq
  · rw [← hi]
    exact .inner _ _ hpo (.inl hq)
  · rcases Nat.lt_or_ge 3 (i % pg.size) with h3 | h3
    · rw [← hi]
      exact .inner _ _ hpo (.inr h3)
    · rcases Nat.lt_or_ge (i % pg.size) 2 with h2 | h2
      · have ha : pg.half * ((i / pg.size - 1) / pg.half) + (i / pg.size - 1) % pg.half + 1 = i / pg.size := by
          rw [Nat.div_add_mod]
          omega
        rw [← hi, ← ha]
        exact .first _ _ _ h2 (Nat.mod_lt _ (by omega))
      · rw [← hi]
        exact .second _ _ hq h2 h3 hpo

theorem up_parent (pg : Page) (n : ℕ) : Up (parent pg) n := by
  intro i h1 _
  have hP := pg.size_two_half
  have hH := pg.two_le_half
  cases place pg i with
  | inner q po h hq =>
    rw [parent_inner h hq]
    rcases hq with rfl | hq
    · simp only [Nat.mul_zero, Nat.zero_add] at h1 ⊢
      omega
    · omega
  | second q po hq h2 h3 h =>
    have : pg.size * 1 ≤ pg.size * q := Nat.mul_le_mul_left _ hq
    rw [parent_second h hq h2 h3]
    omega
  | first a r po h hr =>
    rw [parent_first _ _ _ _ h hr]
    refine ⟨by omega, ?_⟩
    have : pg.size * a ≤ pg.size * (pg.half * a) := Nat.mul_le_mul_left _ (Nat.le_mul_of_pos_left _ (by omega))
    have hrr : r ≤ pg.size * r := Nat.le_mul_of_pos_left _ (by omega)
    rw [Nat.mul_add, Nat.mul_add, Nat.mul_one]
    omega

/-- The last branch of `child`. -/
def Usual (pg : Page) (u : ℕ) : Prop := ¬ Magic pg u ∧ ¬ Bottom pg u

/-- The children of an element of the bottom row have indices that an `unsigned` cannot hold. -/
def Overflows (pg : Page) (u : ℕ) : Prop := ¬ Magic pg u ∧ Bottom pg u ∧ 2 ^ 32 ≤ bottomPage pg u <<< pg.shift

instance (pg : Page) (u : ℕ) : Decidable (Usual pg u) := inferInstanceAs (Decidable (_ ∧ _))

instance (pg : Page) (u : ℕ) : Decidable (Overflows pg u) := inferInstanceAs (Decidable (_ ∧ _))

/-- Where the children of an index are. -/
theorem kids_of_parent (h1 : 1 < i) (hp : parent pg i = u) :
    (Magic pg u ∧ i = u + 2) ∨
    (¬ Magic pg u ∧ Bottom pg u ∧ (i = bottomPage pg u <<< pg.shift ∨ i = bottomPage pg u <<< pg.shift + 1)) ∨
    (Usual pg u ∧ u + (u &&& pg.mask) ≤ i) := by
  have hP := pg.size_two_half
  have hH := pg.two_le_half
  subst hp
  cases place pg i with
  | inner q po h hq =>
    rw [parent_inner h hq]
    refine .inr (.inr ⟨⟨?_, ?_⟩, ?_⟩)
    · rw [magic_iff (by omega)]
      omega
    · rw [bottom_iff (by omega)]
      omega
    · rw [and_mask, mod_size (by omega)]
      omega
  | second q po hq h2 h3 h =>
    rw [parent_second h hq h2 h3]
    refine .inl ⟨(magic_iff (by omega)).mpr ⟨hq, by omega⟩, by omega⟩
  | first a r po h hr =>
    rw [parent_first _ _ _ _ h hr]
    refine .inr (.inl ⟨?_, ?_, ?_⟩)
    · rw [magic_iff (by omega)]
      omega
    · rw [bottom_iff (by omega)]
      omega
    · rw [bottomPage_eq hr, Nat.shiftLeft_eq, ← pg.size_eq, Nat.mul_comm _ pg.size]
      omega

/-- No child is in use if the first one that `child` gives is not. -/
theorem no_kids {b : ℕ} (hn : n ≤ 2 ^ 32) (hc : n ≤ (child pg u b).1) (h1 : 1 < i) (hi : i < n) : parent pg i ≠ u := by
  intro hp
  rcases kids_of_parent h1 hp with ⟨hm, rfl⟩ | ⟨hm, hb, hk⟩ | ⟨⟨hm, hb⟩, hk⟩
  · rw [child, if_pos hm] at hc
    omega
  · rw [child, if_neg hm, if_pos hb] at hc
    simp only [wrap] at hc
    rcases Nat.lt_or_ge (bottomPage pg u <<< pg.shift) (2 ^ 32) with hlt | hge
    · rw [Nat.mod_eq_of_lt hlt] at hc
      omega
    · omega
  · rw [child, if_neg hm, if_neg hb] at hc
    simp only at hc
    omega

/-- In the first two branches, and within 32 bits, `child` gives the children. -/
theorem child_spec {b : ℕ} (hu : ¬ Usual pg u) (ho : ¬ Overflows pg u) :
    1 < (child pg u b).1 ∧ parent pg (child pg u b).1 = u ∧ 1 < (child pg u b).2 ∧ parent pg (child pg u b).2 = u ∧
      ∀ i, 1 < i → parent pg i = u → i = (child pg u b).1 ∨ i = (child pg u b).2 := by
  have hP := pg.size_two_half
  have hH := pg.two_le_half
  have hpo : u % pg.size < pg.size := Nat.mod_lt _ (by omega)
  have hdiv : pg.size * (u / pg.size) + u % pg.size = u := Nat.div_add_mod _ _
  generalize hq : u / pg.size = q at hdiv
  generalize hr : u % pg.size = po at hdiv hpo
  subst hdiv
  by_cases hm : Magic pg (pg.size * q + po)
  · obtain ⟨hq, hpo2⟩ := (magic_iff hpo).mp hm
    have hpar : parent pg (pg.size * q + po + 2) = pg.size * q + po := by
      rw [Nat.add_assoc, parent_second (by omega) hq (by omega) (by omega)]
      omega
    rw [child_magic hq hpo2]
    refine ⟨by simp only; omega, hpar, by simp only; omega, hpar, fun i h1 hp => ?_⟩
    rcases kids_of_parent h1 hp with ⟨-, hk⟩ | ⟨hm', -⟩ | ⟨⟨hm', -⟩, -⟩
    · exact .inl hk
    · exact absurd hm hm'
    · exact absurd hm hm'
  · have hb : Bottom pg (pg.size * q + po) := by
      by_contra hb
      exact hu ⟨hm, hb⟩
    have hfit : bottomPage pg (pg.size * q + po) <<< pg.shift < 2 ^ 32 := by
      by_contra hge
      exact ho ⟨hm, hb, by omega⟩
    obtain ⟨r, rfl⟩ := Nat.exists_eq_add_of_le ((bottom_iff hpo).mp hb)
    have hrr : r < pg.half := by omega
    have hshift : bottomPage pg (pg.size * q + (pg.half + r)) <<< pg.shift = pg.size * (pg.half * q + r + 1) := by
      rw [bottomPage_eq hrr, Nat.shiftLeft_eq, ← pg.size_eq, Nat.mul_comm]
    have hpar0 := parent_first pg q r 0 (by norm_num) hrr
    have hpar1 := parent_first pg q r 1 (by norm_num) hrr
    have hbig : 1 < pg.size * (pg.half * q + r + 1) := by
      rw [Nat.mul_add, Nat.mul_one]
      omega
    rw [hshift] at hfit
    rw [child_bottom hrr, wrap, Nat.mod_eq_of_lt hfit]
    refine ⟨hbig, hpar0, by simp only; omega, hpar1, fun i h1 hp => ?_⟩
    rcases kids_of_parent h1 hp with ⟨hm', -⟩ | ⟨-, -, hk⟩ | ⟨⟨-, hb'⟩, -⟩
    · exact absurd hm' hm
    · rw [hshift] at hk
      exact hk
    · exact absurd hb hb'

end Kids

end Varnish.Binheap
