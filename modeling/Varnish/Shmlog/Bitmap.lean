import Mathlib.Logic.Function.Basic
import Mathlib.Algebra.Group.Nat.Defs

/-!
# Varnish.Shmlog.Bitmap — the bitmaps that a reader of the log keeps

`include/vbm.h`: bitmaps that grow when a bit is set, 1024 bits at a time.

* `vbitExpand`, `vbitSet`, `vbitClr`, `vbitTest`: the operations.
* `Valid`: the sizes that there are.  `vbitSet_spec`: what is set, and what is not.
-/

namespace Varnish.Shmlog

section Model

/-- `VBITMAP_LUMP` -/
def vbitmapLump : ℕ := 1024

/-- A `struct vbitmap`; `bits` has what is below `nbits`, which is what is allocated. -/
structure Vbitmap where
  bits : ℕ → Bool
  nbits : ℕ

/-- The size that `vbit_expand` makes of the number of a bit, in 32 bits. -/
def lumps (bit : ℕ) : ℕ :=
  (bit + (vbitmapLump - 1)) % 2 ^ 32 - (bit + (vbitmapLump - 1)) % 2 ^ 32 % vbitmapLump

/-- `vbit_expand`, which clears what is new.  Without a byte there is no memory, and its assertion fails. -/
def vbitExpand (vb : Vbitmap) (bit : ℕ) : Option Vbitmap :=
  if lumps bit = 0 then none else some ⟨fun i => decide (i < vb.nbits) && vb.bits i, lumps bit⟩

/-- `vbit_init`, for some bits. -/
def vbitInit (initial : ℕ) : Vbitmap := ⟨fun _ => false, lumps initial⟩

/-- The store of `vbit_set` and `vbit_clr`; one behind the memory is not in the map. -/
def Vbitmap.write (vb : Vbitmap) (bit : ℕ) (val : Bool) : Vbitmap :=
  if bit < vb.nbits then ⟨Function.update vb.bits bit val, vb.nbits⟩ else vb

/-- `vbit_set` -/
def vbitSet (vb : Vbitmap) (bit : ℕ) : Option Vbitmap :=
  if vb.nbits ≤ bit then (vbitExpand vb bit).map (·.write bit true) else some (vb.write bit true)

/-- `vbit_clr` -/
def vbitClr (vb : Vbitmap) (bit : ℕ) : Vbitmap := vb.write bit false

/-- `vbit_test` -/
def vbitTest (vb : Vbitmap) (bit : ℕ) : Bool :=
  if vb.nbits ≤ bit then false else vb.bits bit

end Model

variable {vb : Vbitmap} {bit k : ℕ}

section Expand

/-- The sizes are whole lumps. -/
structure Vbitmap.Valid (vb : Vbitmap) : Prop where
  whole : vbitmapLump ∣ vb.nbits
  small : vb.nbits < 2 ^ 32

theorem lumps_of_lt (h : bit + (vbitmapLump - 1) < 2 ^ 32) :
    lumps bit = (bit + (vbitmapLump - 1)) / vbitmapLump * vbitmapLump := by
  have hdiv := Nat.div_add_mod' (bit + (vbitmapLump - 1)) vbitmapLump
  rw [lumps, Nat.mod_eq_of_lt h]
  omega

/-- A size is large enough for the bits below it only: the bit of its own number is the first one that is not in it. -/
theorem lumps_le_iff (h : bit + (vbitmapLump - 1) < 2 ^ 32) (hk : vbitmapLump ∣ k) : lumps bit ≤ k ↔ bit ≤ k := by
  obtain ⟨q, rfl⟩ := hk
  rw [lumps_of_lt h, vbitmapLump]
  omega

theorem lumps_wraps (h : 2 ^ 32 ≤ bit + (vbitmapLump - 1)) (hbit : bit < 2 ^ 32) : lumps bit = 0 := by
  rw [vbitmapLump] at h
  rw [lumps, vbitmapLump]
  omega

theorem lumps_pos (h : bit + (vbitmapLump - 1) < 2 ^ 32) (hbit : 0 < bit) : lumps bit ≠ 0 := by
  rw [lumps_of_lt h, vbitmapLump]
  omega

end Expand

section Operations

theorem Vbitmap.Valid.init (h : bit + (vbitmapLump - 1) < 2 ^ 32) : (vbitInit bit).Valid := by
  have hle := Nat.div_mul_le_self (bit + (vbitmapLump - 1)) vbitmapLump
  have hnbits : (vbitInit bit).nbits = (bit + (vbitmapLump - 1)) / vbitmapLump * vbitmapLump := lumps_of_lt h
  exact ⟨hnbits ▸ Nat.dvd_mul_left _ _, hnbits ▸ Nat.lt_of_le_of_lt hle h⟩

@[simp] theorem Vbitmap.nbits_write (vb : Vbitmap) (bit : ℕ) (val : Bool) : (vb.write bit val).nbits = vb.nbits := by
  rw [write]
  split <;> rfl

theorem Vbitmap.Valid.write (h : vb.Valid) (bit : ℕ) (val : Bool) : (vb.write bit val).Valid :=
  ⟨(vb.nbits_write bit val).symm ▸ h.whole, (vb.nbits_write bit val).symm ▸ h.small⟩

theorem vbitTest_write_self (vb : Vbitmap) (bit : ℕ) (val : Bool) :
    vbitTest (vb.write bit val) bit = (decide (bit < vb.nbits) && val) := by
  rw [vbitTest, Vbitmap.nbits_write, Vbitmap.write]
  by_cases hlt : bit < vb.nbits
  · rw [if_neg (Nat.not_le.mpr hlt), if_pos hlt, decide_eq_true hlt]
    exact Function.update_self bit val vb.bits
  · rw [if_pos (Nat.not_lt.mp hlt), decide_eq_false hlt]
    rfl

theorem vbitTest_write_of_ne (vb : Vbitmap) {bit i : ℕ} (val : Bool) (hi : i ≠ bit) :
    vbitTest (vb.write bit val) i = vbitTest vb i := by
  rw [vbitTest, vbitTest, Vbitmap.nbits_write, Vbitmap.write]
  split
  · rfl
  · split
    · exact Function.update_of_ne hi val vb.bits
    · rfl

theorem vbitTest_expand {vb vb' : Vbitmap} (h : vbitExpand vb bit = some vb') (hle : vb.nbits ≤ lumps bit) (i : ℕ) :
    vbitTest vb' i = vbitTest vb i := by
  rw [vbitExpand] at h
  split at h
  · cases h
  cases h
  rw [vbitTest, vbitTest]
  by_cases hold : vb.nbits ≤ i
  · simp [hold, Nat.not_lt.mpr hold]
  · have hnew : ¬ lumps bit ≤ i := by omega
    simp [hold, hnew, Nat.not_le.mp hold]

/-- What `vbit_set` does: the bit is set, unless it is behind the map and is the first one of a lump. -/
structure SetBit (vb vb' : Vbitmap) (bit : ℕ) : Prop where
  valid : vb'.Valid
  self : vbitTest vb' bit = true ↔ (vb.nbits ≤ bit → ¬ vbitmapLump ∣ bit)
  other : ∀ i, i ≠ bit → vbitTest vb' i = vbitTest vb i
  size : ∀ k, vbitmapLump ∣ k → (vb'.nbits ≤ k ↔ vb.nbits ≤ k ∧ bit ≤ k)

theorem vbitSet_spec (hvb : vb.Valid) (hbit : bit + (vbitmapLump - 1) < 2 ^ 32) (hsome : 0 < vb.nbits) :
    ∃ vb', vbitSet vb bit = some vb' ∧ SetBit vb vb' bit := by
  by_cases hle : vb.nbits ≤ bit
  · obtain ⟨grown, hgrown⟩ : ∃ grown, vbitExpand vb bit = some grown := by
      rw [vbitExpand, if_neg (lumps_pos hbit (Nat.lt_of_lt_of_le hsome hle))]
      exact ⟨_, rfl⟩
    have hnbits : grown.nbits = lumps bit := by
      rw [vbitExpand, if_neg (lumps_pos hbit (Nat.lt_of_lt_of_le hsome hle))] at hgrown
      cases hgrown
      rfl
    have hvalid : grown.Valid := ⟨hnbits ▸ (Vbitmap.Valid.init hbit).whole, hnbits ▸ (Vbitmap.Valid.init hbit).small⟩
    have hgrow : vb.nbits ≤ lumps bit := Nat.le_trans hle ((lumps_le_iff hbit (hnbits ▸ hvalid.whole)).mp (Nat.le_refl _))
    refine ⟨grown.write bit true, by rw [vbitSet, if_pos hle, hgrown]; rfl, hvalid.write _ _, ?_, fun i hi => ?_,
      fun k hk => ?_⟩
    · rw [vbitTest_write_self, hnbits, Bool.and_true, decide_eq_true_iff, forall_prop_of_true hle, lumps_of_lt hbit,
        vbitmapLump]
      omega
    · rw [vbitTest_write_of_ne _ _ hi, vbitTest_expand hgrown hgrow]
    · rw [Vbitmap.nbits_write, hnbits, lumps_le_iff hbit hk]
      exact ⟨fun h => ⟨Nat.le_trans hle h, h⟩, fun h => h.2⟩
  · have hlt := Nat.not_le.mp hle
    refine ⟨_, by rw [vbitSet, if_neg hle], hvb.write _ _, ?_, fun i hi => vbitTest_write_of_ne _ _ hi, fun k _ => ?_⟩
    · rw [vbitTest_write_self, Bool.and_true, decide_eq_true_iff]
      exact iff_of_true hlt fun h => absurd h hle
    · rw [Vbitmap.nbits_write]
      exact ⟨fun h => ⟨h, Nat.le_trans (Nat.le_of_lt hlt) h⟩, fun h => h.1⟩

theorem vbitSet_wraps (hvb : vb.Valid) (hwraps : 2 ^ 32 ≤ bit + (vbitmapLump - 1)) (hbit : bit < 2 ^ 32) :
    vbitSet vb bit = none := by
  obtain ⟨⟨q, hq⟩, hsmall⟩ := hvb
  have hle : vb.nbits ≤ bit := by
    rw [vbitmapLump] at hq hwraps
    omega
  rw [vbitSet, if_pos hle, vbitExpand, if_pos (lumps_wraps hwraps hbit)]
  rfl

end Operations

end Varnish.Shmlog
