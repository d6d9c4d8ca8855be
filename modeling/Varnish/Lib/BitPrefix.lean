import Mathlib.Data.Nat.Basic
import Mathlib.Tactic.Ring
import Mathlib.Tactic.Linarith

/-!
# Varnish.Lib.BitPrefix — bit strings, their finite prefixes and the order "deeper first"

A *prefix* is a pair of a bit stream `b : ℕ → Bool` and a length `m`: only the bits below `m` count.
`pnum b m` reads these bits as a binary number, most significant first.  `PLt` orders prefixes
lexicographically, and puts a prefix before each of its own proper prefixes; it is the order in which a
binary trie is left after its children (post-order).
-/

namespace Varnish.Lib

/-- The first `m` bits of `b` as a number, most significant bit first. -/
def pnum (b : ℕ → Bool) : ℕ → ℕ
  | 0 => 0
  | m + 1 => 2 * pnum b m + (b m).toNat

/-- `a` and `b` agree on their first `m` bits. -/
def Agree (a b : ℕ → Bool) (m : ℕ) : Prop := ∀ i < m, a i = b i

/-- Bit `i` of a byte string, most significant bit first. -/
def bitOf (d : ℕ → UInt8) (i : ℕ) : Bool := (d (i / 8)).toNat.testBit (7 - i % 8)

section Num

variable (a b c : ℕ → Bool)

@[simp] theorem pnum_zero : pnum b 0 = 0 := rfl

theorem pnum_succ (m : ℕ) : pnum b (m + 1) = 2 * pnum b m + (b m).toNat := rfl

theorem pnum_add_div (m : ℕ) : ∀ j, pnum b (m + j) / 2 ^ j = pnum b m
  | 0 => by simp
  | j + 1 => by
    have hb : (b (m + j)).toNat < 2 := Bool.toNat_lt _
    have h2 : (2 * pnum b (m + j) + (b (m + j)).toNat) / 2 = pnum b (m + j) := by omega
    rw [← Nat.add_assoc, pnum_succ, pow_succ', ← Nat.div_div_eq_div_mul, h2]
    exact pnum_add_div m j

variable {a b c}

theorem agree_iff_pnum {m : ℕ} : Agree a b m ↔ pnum a m = pnum b m := by
  induction m with
  | zero => simp [Agree]
  | succ m ih =>
    have ha : (a m).toNat < 2 := Bool.toNat_lt _
    have hb : (b m).toNat < 2 := Bool.toNat_lt _
    have hbit : (a m).toNat = (b m).toNat ↔ a m = b m := by cases a m <;> cases b m <;> simp
    have hsplit : Agree a b (m + 1) ↔ Agree a b m ∧ a m = b m := by
      constructor
      · exact fun h => ⟨fun i hi => h i (by omega), h m (by omega)⟩
      · rintro ⟨h1, h2⟩ i hi
        rcases Nat.lt_succ_iff_lt_or_eq.mp hi with h | rfl
        · exact h1 i h
        · exact h2
    rw [hsplit, ih, ← hbit, pnum_succ, pnum_succ]
    omega

theorem Agree.mono {m n : ℕ} (h : Agree a b n) (hmn : m ≤ n) : Agree a b m :=
  fun i hi => h i (by omega)

theorem Agree.symm {m : ℕ} (h : Agree a b m) : Agree b a m := fun i hi => (h i hi).symm

theorem Agree.trans {m : ℕ} (h : Agree a b m) (h' : Agree b c m) : Agree a c m :=
  fun i hi => (h i hi).trans (h' i hi)

/-- Longer prefixes that are in order have shorter prefixes in weak order. -/
theorem pnum_le_of_le {m n : ℕ} (hmn : m ≤ n) (h : pnum a n ≤ pnum b n) : pnum a m ≤ pnum b m := by
  obtain ⟨j, rfl⟩ := Nat.exists_eq_add_of_le hmn
  rw [← pnum_add_div a m j, ← pnum_add_div b m j]
  exact Nat.div_le_div_right h

end Num

/-! ## The order -/

section Order

/-- `(a, m)` comes before `(b, n)`: smaller on the common bits, or equal there and longer. -/
def PLt (a : ℕ → Bool) (m : ℕ) (b : ℕ → Bool) (n : ℕ) : Prop :=
  pnum a (min m n) < pnum b (min m n) ∨ (pnum a (min m n) = pnum b (min m n) ∧ n < m)

/-- The end of the interval of the numbers below `2 ^ W` that start with the prefix `(a, m)`. -/
def pend (W : ℕ) (a : ℕ → Bool) (m : ℕ) : ℕ := (pnum a m + 1) * 2 ^ (W - m)

variable {a b c : ℕ → Bool} {m n k W : ℕ}

theorem pend_eq_of_le (hm : m ≤ n) (hn : n ≤ W) : pend W a m = (pnum a m + 1) * 2 ^ (n - m) * 2 ^ (W - n) := by
  rw [pend, show W - m = (n - m) + (W - n) by omega, pow_add, mul_assoc]

/-- The three ways a short prefix and a longer one compare, on the ends of their intervals. -/
theorem pend_lt_iff_of_le (hm : m ≤ n) (hn : n ≤ W) : pend W a m < pend W b n ↔ pnum a m < pnum b m := by
  obtain ⟨j, rfl⟩ := Nat.exists_eq_add_of_le hm
  have hpos : 0 < 2 ^ (W - (m + j)) := by positivity
  have hj : 0 < 2 ^ j := by positivity
  rw [pend_eq_of_le hm hn, pend, Nat.mul_lt_mul_right hpos, Nat.add_sub_cancel_left, Nat.lt_succ_iff,
    ← pnum_add_div b m j, ← Nat.succ_le_iff, Nat.le_div_iff_mul_le hj]

theorem pend_gt_iff_of_le (hm : m ≤ n) (hn : n ≤ W) :
    pend W b n ≤ pend W a m ↔ pnum b m ≤ pnum a m := by
  rw [← not_lt, ← not_lt, pend_lt_iff_of_le hm hn]

theorem plt_iff_pend (hm : m ≤ W) (hn : n ≤ W) :
    PLt a m b n ↔ pend W a m < pend W b n ∨ (pend W a m = pend W b n ∧ n < m) := by
  unfold PLt
  rcases le_or_gt m n with h | h
  · rw [min_eq_left h, pend_lt_iff_of_le h hn]
    have : ¬ n < m := by omega
    simp [this]
  · have h' : n ≤ m := h.le
    rw [min_eq_right h']
    simp only [h, and_true]
    have h1 : pend W a m ≤ pend W b n ↔ pnum a n ≤ pnum b n := pend_gt_iff_of_le h' hm
    rw [← le_iff_lt_or_eq, ← le_iff_lt_or_eq, h1]

theorem plt_trans (h1 : PLt a m b n) (h2 : PLt b n c k) : PLt a m c k := by
  have hm : m ≤ max m (max n k) := le_max_left _ _
  have hn : n ≤ max m (max n k) := le_trans (le_max_left _ _) (le_max_right _ _)
  have hk : k ≤ max m (max n k) := le_trans (le_max_right _ _) (le_max_right _ _)
  rw [plt_iff_pend hm hn] at h1
  rw [plt_iff_pend hn hk] at h2
  rw [plt_iff_pend hm hk]
  omega

/-- Of two prefixes of one string the longer one comes first. -/
theorem plt_lt_of_agree {x : ℕ → Bool} (h : PLt a m b n) (ha : Agree a x m) (hb : Agree b x n) : n < m := by
  have hab : pnum a (min m n) = pnum b (min m n) :=
    agree_iff_pnum.mp ((ha.mono (min_le_left _ _)).trans (hb.mono (min_le_right _ _)).symm)
  rcases h with h | h
  · omega
  · exact h.2

theorem plt_pnum_le (h : PLt a m b n) (hm : k ≤ m) (hn : k ≤ n) : pnum a k ≤ pnum b k := by
  refine pnum_le_of_le (le_min hm hn) ?_
  rcases h with h | h
  · exact h.le
  · exact h.1.le

/-- What lies between two strings with a common prefix of length `k` has that prefix too. -/
theorem plt_between {l : ℕ} (h1 : PLt a m b n) (h2 : PLt b n c l) (hm : k ≤ m) (hl : k ≤ l)
    (hac : Agree a c k) : k ≤ n ∧ Agree b c k := by
  have hk : k ≤ n := by
    by_contra hlt
    have hle : pnum a n ≤ pnum b n := plt_pnum_le h1 (by omega) le_rfl
    have heq : pnum a n = pnum c n := agree_iff_pnum.mp (hac.mono (by omega))
    rw [PLt, min_eq_left (by omega : n ≤ l)] at h2
    omega
  refine ⟨hk, agree_iff_pnum.mpr (le_antisymm (plt_pnum_le h2 hk hl) ?_)⟩
  rw [← agree_iff_pnum.mp hac]
  exact plt_pnum_le h1 hm hk

end Order

/-! ## Byte strings -/

section Bytes

theorem toNat_lt_256 (x : UInt8) : x.toNat < 256 := UInt8.toNat_lt x

/-- `f` bits past a byte boundary: the number so far, shifted, and the top of the next byte. -/
theorem pnum_byte (d : ℕ → UInt8) (k : ℕ) : ∀ f ≤ 8,
    pnum (bitOf d) (8 * k + f) = pnum (bitOf d) (8 * k) * 2 ^ f + (d k).toNat / 2 ^ (8 - f) := by
  intro f
  induction f with
  | zero =>
    intro _
    have : (d k).toNat / 256 = 0 := Nat.div_eq_of_lt (toNat_lt_256 _)
    simp [this]
  | succ f ih =>
    intro hf
    have hbit : (bitOf d (8 * k + f)).toNat = (d k).toNat / 2 ^ (7 - f) % 2 := by
      have h1 : (8 * k + f) / 8 = k := by omega
      have h2 : (8 * k + f) % 8 = f := by omega
      rw [bitOf, h1, h2, Nat.toNat_testBit]
    have hdiv : (d k).toNat / 2 ^ (8 - f) = (d k).toNat / 2 ^ (7 - f) / 2 := by
      rw [Nat.div_div_eq_div_mul, ← pow_succ, show 7 - f + 1 = 8 - f by omega]
    rw [← Nat.add_assoc, pnum_succ, ih (by omega), hbit, hdiv, show 8 - (f + 1) = 7 - f by omega, pow_succ]
    have := Nat.div_add_mod ((d k).toNat / 2 ^ (7 - f)) 2
    linarith

theorem pnum_whole (d : ℕ → UInt8) (k : ℕ) :
    pnum (bitOf d) (8 * (k + 1)) = pnum (bitOf d) (8 * k) * 256 + (d k).toNat := by
  have := pnum_byte d k 8 le_rfl
  simpa [Nat.mul_add] using this

/-- Agreement on whole bytes is agreement on their bits. -/
theorem agree_whole {d d' : ℕ → UInt8} {k : ℕ} :
    Agree (bitOf d) (bitOf d') (8 * k) ↔ ∀ j < k, d j = d' j := by
  rw [agree_iff_pnum]
  induction k with
  | zero => simp
  | succ k ih =>
    have h1 := toNat_lt_256 (d k)
    have h2 := toNat_lt_256 (d' k)
    have hd : (d k).toNat = (d' k).toNat ↔ d k = d' k := UInt8.toNat_inj
    rw [pnum_whole, pnum_whole]
    constructor
    · intro h j hj
      rcases Nat.lt_succ_iff_lt_or_eq.mp hj with hj | rfl
      · exact ih.mp (by omega) j hj
      · exact hd.mp (by omega)
    · intro h
      have e1 := ih.mpr (fun j hj => h j (by omega))
      have e2 := hd.mpr (h k (by omega))
      rw [e1, e2]

end Bytes

end Varnish.Lib
