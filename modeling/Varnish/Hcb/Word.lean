import Mathlib.Data.Nat.Bitwise
import Mathlib.Tactic.IntervalCases
import Varnish.Hcb.Model

/-!
# Varnish.Hcb.Word — what the tag bits and the bit tables mean

* A tagged word is told apart from every other kind of word, and untagging gives the pointer back.
* `hcbCritBit_spec`: of two different digests `hcb_crit_bit` finds the first bit in which they differ.
* `side_eq_bits`: the byte and mask of a Y select the critical bit.
-/

namespace Varnish.Hcb

open Varnish.Lib

section Tags

variable (a b : Ptr) (u bit : Word) (k : ℕ)

theorem Ptr.bit_zero : a.addr.getLsbD 0 = false := by
  have h := congrArg (fun w => BitVec.getLsbD w 0) a.aligned
  simpa using h

theorem Ptr.bit_one : a.addr.getLsbD 1 = false := by
  have h := congrArg (fun w => BitVec.getLsbD w 1) a.aligned
  simpa using h

theorem getLsbD_hcbBitNode (i : ℕ) : hcbBitNode.getLsbD i = decide (i = 0) := by
  simp [hcbBitNode]

theorem getLsbD_hcbBitY (i : ℕ) : hcbBitY.getLsbD i = decide (i = 1) := by
  rw [hcbBitY, BitVec.getLsbD_ofNat, show (2 : ℕ) = 2 ^ 1 from rfl, Nat.testBit_two_pow]
  by_cases h : i = 1
  · subst h; rfl
  · simp [h, Ne.symm h]

variable {u bit k}

theorem and_bne_zero (hb : ∀ i, bit.getLsbD i = decide (i = k)) : (u &&& bit != 0#64) = u.getLsbD k := by
  by_cases h : u.getLsbD k = true
  · rw [h, bne_iff_ne]
    intro h0
    have := congrArg (fun w => BitVec.getLsbD w k) h0
    simp [hb, h] at this
  · have h' : u.getLsbD k = false := by simpa using h
    rw [h', bne_eq_false_iff_eq]
    apply BitVec.eq_of_getLsbD_eq
    intro i _
    by_cases hi : i = k
    · subst hi; simp [h']
    · simp [hb, hi]

theorem hcbIsNode_eq : hcbIsNode u = u.getLsbD 0 := and_bne_zero getLsbD_hcbBitNode

theorem hcbIsY_eq : hcbIsY u = u.getLsbD 1 := and_bne_zero getLsbD_hcbBitY

@[simp] theorem hcbIsNode_rNode : hcbIsNode (hcbRNode a) = true := by
  rw [hcbIsNode_eq, hcbRNode, BitVec.getLsbD_or, getLsbD_hcbBitNode]
  rfl

@[simp] theorem hcbIsY_rNode : hcbIsY (hcbRNode a) = false := by
  rw [hcbIsY_eq, hcbRNode, BitVec.getLsbD_or, getLsbD_hcbBitNode, a.bit_one]
  rfl

@[simp] theorem hcbIsNode_rY : hcbIsNode (hcbRY a) = false := by
  rw [hcbIsNode_eq, hcbRY, BitVec.getLsbD_or, getLsbD_hcbBitY, a.bit_zero]
  rfl

@[simp] theorem hcbIsY_rY : hcbIsY (hcbRY a) = true := by
  rw [hcbIsY_eq, hcbRY, BitVec.getLsbD_or, getLsbD_hcbBitY]
  rfl

@[simp] theorem hcbIsNode_zero : hcbIsNode 0#64 = false := rfl

@[simp] theorem hcbIsY_zero : hcbIsY 0#64 = false := rfl

theorem untag_or (hb : ∀ i, bit.getLsbD i = decide (i = k)) (ha : a.addr.getLsbD k = false) :
    untag (bit ||| a.addr) bit = some a := by
  have h : (bit ||| a.addr) &&& ~~~bit = a.addr := by
    apply BitVec.eq_of_getLsbD_eq
    intro i hi
    simp only [BitVec.getLsbD_and, BitVec.getLsbD_or, BitVec.getLsbD_not, hb, hi]
    by_cases hk : i = k
    · subst hk; simp [ha]
    · simp [hk]
  unfold untag
  simp only [h, a.aligned, dite_true]

@[simp] theorem hcbLNode_rNode : hcbLNode (hcbRNode a) = some a := by
  rw [hcbLNode, if_pos (by simp)]
  exact untag_or a getLsbD_hcbBitNode a.bit_zero

@[simp] theorem hcbLY_rY : hcbLY (hcbRY a) = some a := by
  rw [hcbLY, if_pos (by simp)]
  exact untag_or a getLsbD_hcbBitY a.bit_one

@[simp] theorem hcbLY_rNode : hcbLY (hcbRNode a) = none := by simp [hcbLY]

@[simp] theorem hcbLY_zero : hcbLY 0#64 = none := by simp [hcbLY]

variable {a b}

@[simp] theorem hcbRNode_inj : hcbRNode a = hcbRNode b ↔ a = b := by
  refine ⟨fun h => ?_, fun h => by rw [h]⟩
  have := congrArg hcbLNode h
  simpa using this

@[simp] theorem hcbRY_inj : hcbRY a = hcbRY b ↔ a = b := by
  refine ⟨fun h => ?_, fun h => by rw [h]⟩
  have := congrArg hcbLY h
  simpa using this

@[simp] theorem hcbRY_ne_rNode : hcbRY a ≠ hcbRNode b := fun h => by
  have := congrArg hcbIsY h
  simp at this

@[simp] theorem hcbRNode_ne_rY : hcbRNode a ≠ hcbRY b := fun h => hcbRY_ne_rNode h.symm

@[simp] theorem hcbRNode_ne_zero : hcbRNode a ≠ 0#64 := fun h => by
  have := congrArg hcbIsNode h
  simp at this

@[simp] theorem hcbRY_ne_zero : hcbRY a ≠ 0#64 := fun h => by
  have := congrArg hcbIsY h
  simp at this

end Tags

/-! ## Critical bits -/

section Crit

/-- `0x80 >> r`: the mask of bit `r` of a byte. -/
def maskOf (r : ℕ) : UInt8 := 0x80 >>> UInt8.ofNat r

theorem maskOf_toNat {r : ℕ} (hr : r < 8) : (maskOf r).toNat = 2 ^ (7 - r) := by
  interval_cases r <;> rfl

/-- The ptr, the bitmask and the critbit of a Y say the same. -/
def HcbY.Selects (y : HcbY) (c : ℕ) : Prop := y.critbit = c ∧ y.ptr = c / 8 ∧ y.bitmask = maskOf (c % 8) ∧ c < 8 * digestLen

theorem side_eq_bits {y : HcbY} {c : ℕ} (h : y.Selects c) (d : Digest) : side d y = d.bits c := by
  obtain ⟨-, hp, hb, -⟩ := h
  have hmask := maskOf_toNat (r := c % 8) (by omega)
  rw [side, hp, hb, Digest.bits, bitOf, Bool.eq_iff_iff, bne_iff_ne, ne_eq, ← UInt8.toNat_inj, UInt8.toNat_and, hmask,
    Nat.and_two_pow]
  cases (d.byte (c / 8)).toNat.testBit (7 - c % 8) <;> simp

/-- The table, read off: the leading zero bits of a nonzero byte. -/
theorem hcbBittbl_spec : ∀ z < 256, z ≠ 0 → hcbBittbl.getD z 0 < 8 ∧
    (∀ j < hcbBittbl.getD z 0, z.testBit (7 - j) = false) ∧ z.testBit (7 - hcbBittbl.getD z 0) = true := by
  decide +kernel

/-- `hcb_bits` of two different bytes is the first bit in which they differ. -/
theorem hcbBits_spec {x y : UInt8} (h : x ≠ y) : hcbBits x y < 8 ∧
    (∀ j < hcbBits x y, x.toNat.testBit (7 - j) = y.toNat.testBit (7 - j)) ∧
    x.toNat.testBit (7 - hcbBits x y) ≠ y.toNat.testBit (7 - hcbBits x y) := by
  have hne : (x ^^^ y).toNat ≠ 0 := fun h0 => by
    have : x ^^^ y = 0 := UInt8.toNat_inj.mp h0
    exact h (UInt8.xor_eq_zero_iff.mp this)
  obtain ⟨h8, hz, ho⟩ := hcbBittbl_spec _ (toNat_lt_256 _) hne
  simp only [UInt8.toNat_xor, Nat.testBit_xor, bne_eq_false_iff_eq, bne_iff_ne] at hz ho
  exact ⟨h8, hz, ho⟩

theorem diffByte_spec (d1 d2 : Digest) : ∀ k u, u ≤ diffByte d1 d2 k u ∧ diffByte d1 d2 k u ≤ u + k ∧
    (∀ i, u ≤ i → i < diffByte d1 d2 k u → d1.byte i = d2.byte i) ∧
    (diffByte d1 d2 k u < u + k → d1.byte (diffByte d1 d2 k u) ≠ d2.byte (diffByte d1 d2 k u)) := by
  intro k
  induction k with
  | zero => exact fun u => ⟨le_rfl, le_rfl, fun i h1 h2 => absurd h2 (by simpa [diffByte] using h1), by simp [diffByte]⟩
  | succ k ih =>
    intro u
    by_cases h : d1.byte u = d2.byte u
    · rw [diffByte, if_pos h]
      obtain ⟨h1, h2, h3, h4⟩ := ih (u + 1)
      refine ⟨by omega, by omega, fun i hi hlt => ?_, fun hlt => h4 (by omega)⟩
      rcases Nat.eq_or_lt_of_le hi with rfl | hi
      · exact h
      · exact h3 i hi hlt
    · rw [diffByte, if_neg h]
      exact ⟨le_rfl, by omega, fun i h1 h2 => absurd h2 (by omega), fun _ => h⟩

theorem Digest.ext_byte {d1 d2 : Digest} (h : ∀ i < digestLen, d1.byte i = d2.byte i) : d1 = d2 := by
  obtain ⟨b1, l1⟩ := d1
  obtain ⟨b2, l2⟩ := d2
  have : b1 = b2 := List.ext_getElem (by omega) fun i h1 h2 => by
    have := h i (by omega)
    simpa [Digest.byte, h1, h2] using this
  subst this
  rfl

/-- A digest is determined by its bits. -/
theorem Digest.ext_bits {d1 d2 : Digest} (h : ∀ i, d1.bits i = d2.bits i) : d1 = d2 :=
  Digest.ext_byte (agree_whole.mp fun i _ => h i)

/-- Two digests that differ do so in one of their 256 bits, and the rest of `hcb_crit_bit` is right about the first
such bit. -/
theorem hcbCritBit_spec {d1 d2 : Digest} (h : d1 ≠ d2) (y : HcbY) : ∃ c y', hcbCritBit d1 d2 y = some y' ∧
    y'.Selects c ∧ y'.leaf0 = y.leaf0 ∧ y'.leaf1 = y.leaf1 ∧ Agree d1.bits d2.bits c ∧ d1.bits c ≠ d2.bits c := by
  obtain ⟨-, hle, hsame, hdiff⟩ := diffByte_spec d1 d2 digestLen 0
  have hlt : diffByte d1 d2 digestLen 0 < digestLen := by
    rcases Nat.lt_or_ge (diffByte d1 d2 digestLen 0) digestLen with hlt | hge
    · exact hlt
    · exact absurd (Digest.ext_byte fun i hi => hsame i (Nat.zero_le _) (by omega)) h
  have hne := hdiff (by omega)
  rw [hcbCritBit]
  simp only [hlt, if_true]
  generalize diffByte d1 d2 digestLen 0 = u at *
  obtain ⟨h8, hpre, hbit⟩ := hcbBits_spec hne
  generalize hcbBits (d1.byte u) (d2.byte u) = r at *
  have hq : (u * 8 + r) / 8 = u := by omega
  have hr : (u * 8 + r) % 8 = r := by omega
  refine ⟨u * 8 + r, _, rfl, ⟨rfl, hq.symm, by rw [hr]; rfl, by omega⟩, rfl, rfl, fun i hi => ?_, ?_⟩
  · rcases Nat.lt_or_ge i (8 * u) with hi' | hi'
    · exact agree_whole.mpr (fun j hj => hsame j (Nat.zero_le _) hj) i hi'
    · rw [Digest.bits, Digest.bits, bitOf, bitOf, show i / 8 = u by omega]
      exact hpre _ (by omega)
  · rw [Digest.bits, Digest.bits, bitOf, bitOf, hq, hr]
    exact hbit

end Crit

end Varnish.Hcb
