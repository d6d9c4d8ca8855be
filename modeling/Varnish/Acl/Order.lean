import Mathlib.Data.List.Pairwise
import Mathlib.Order.Compare
import Mathlib.Tactic.IntervalCases
import Varnish.Acl.Model

/-!
# Varnish.Acl.Order — the list `tl->acl` is sorted, deeper prefixes first

`vclAclCmp` is the comparison of `Varnish.Lib.BitPrefix` on the bits of the entries (`vclAclCmp_eq`).  An accepted
list of entries gives a strictly sorted `tl->acl` with the same prefixes and verdicts as the source entries
(`addEntries_built`).
-/

namespace Varnish.Acl

open Varnish.Lib

/-! ## Bytes and bits -/

section Bytes

/-- The mask selects the top bits. -/
theorem and_topMask (x : UInt8) {m : ℕ} (hm : m < 8) :
    (x &&& topMask m).toNat = x.toNat / 2 ^ (8 - m) * 2 ^ (8 - m) := by
  have key : ∀ m < 8, ∀ n < 256, n &&& (UInt8.ofNat ((0xff00 >>> m) &&& 0xff)).toNat
      = n / 2 ^ (8 - m) * 2 ^ (8 - m) := by decide +kernel
  rw [UInt8.toNat_and]
  exact key m hm x.toNat (toNat_lt_256 x)

/-- The fractional compare is the compare of the top bits. -/
theorem and_topMask_eq_iff (x y : UInt8) {m : ℕ} (hm : m < 8) :
    x &&& topMask m = y &&& topMask m ↔ x.toNat / 2 ^ (8 - m) = y.toNat / 2 ^ (8 - m) := by
  rw [← UInt8.toNat_inj, and_topMask x hm, and_topMask y hm]
  exact Nat.mul_left_inj (by positivity)

end Bytes

/-! ## The comparison -/

section Cmp

variable {ae1 ae2 ae3 : AclE}

/-- The bits of an entry's data. -/
def AclE.bits (ae : AclE) : ℕ → Bool := bitOf ae.byte

/-- The bits of an address, the family byte first. -/
def Addr.bits (x : Addr) : ℕ → Bool := bitOf x.byte

theorem cmp8_eq (a b : UInt8) : cmp8 a b = compare a.toNat b.toNat := by
  unfold cmp8
  split_ifs with h1 h2
  · exact (compare_lt_iff_lt.mpr (UInt8.lt_iff_toNat_lt.mp h1)).symm
  · exact (compare_gt_iff_gt.mpr (UInt8.lt_iff_toNat_lt.mp h2)).symm
  · rw [UInt8.lt_iff_toNat_lt] at h1 h2
    exact (compare_eq_iff_eq.mpr (by omega)).symm

/-- Comparing two numbers digit by digit. -/
theorem compare_digit {A B x y c : ℕ} (hx : x < c) (hy : y < c) :
    (compare A B).then (compare x y) = compare (A * c + x) (B * c + y) := by
  rcases lt_trichotomy A B with h | rfl | h
  · have hle : (A + 1) * c ≤ B * c := Nat.mul_le_mul_right c h
    have hlt : A * c + x < B * c + y := by rw [Nat.succ_mul] at hle; omega
    rw [compare_lt_iff_lt.mpr h, compare_lt_iff_lt.mpr hlt]
    rfl
  · rw [compare_eq_iff_eq.mpr rfl]
    rcases lt_trichotomy x y with h | rfl | h
    · rw [compare_lt_iff_lt.mpr h, compare_lt_iff_lt.mpr (by omega)]
      rfl
    · rw [compare_eq_iff_eq.mpr rfl, compare_eq_iff_eq.mpr rfl]
      rfl
    · rw [compare_gt_iff_gt.mpr h, compare_gt_iff_gt.mpr (by omega)]
      rfl
  · have hle : (B + 1) * c ≤ A * c := Nat.mul_le_mul_right c h
    have hlt : B * c + y < A * c + x := by rw [Nat.succ_mul] at hle; omega
    rw [compare_gt_iff_gt.mpr h, compare_gt_iff_gt.mpr hlt]
    rfl

/-- The loop extends the comparison of the numbers read so far by `k` bytes. -/
theorem cmpWhole_eq (ae1 ae2 : AclE) : ∀ k i, (compare (pnum ae1.bits (8 * i)) (pnum ae2.bits (8 * i))).then (cmpWhole ae1 ae2 k i)
    = compare (pnum ae1.bits (8 * (i + k))) (pnum ae2.bits (8 * (i + k)))
  | 0, i => by rw [cmpWhole, Ordering.then_eq, Nat.add_zero]
  | k + 1, i => by
    have step : (compare (pnum ae1.bits (8 * i)) (pnum ae2.bits (8 * i))).then (cmp8 (ae1.byte i) (ae2.byte i))
        = compare (pnum ae1.bits (8 * (i + 1))) (pnum ae2.bits (8 * (i + 1))) := by
      rw [cmp8_eq, compare_digit (toNat_lt_256 _) (toNat_lt_256 _)]
      unfold AclE.bits
      rw [pnum_whole, pnum_whole]
    rw [cmpWhole, ← Ordering.then_assoc, step, cmpWhole_eq ae1 ae2 k (i + 1), show i + 1 + k = i + (k + 1) by omega]

/-- The fractional byte extends it by `f` bits. -/
theorem cmpFrac_eq {k f : ℕ} (hf : f < 8) :
    (compare (pnum ae1.bits (8 * k)) (pnum ae2.bits (8 * k))).then
      (cmp8 (ae1.byte k &&& topMask f) (ae2.byte k &&& topMask f))
    = compare (pnum ae1.bits (8 * k + f)) (pnum ae2.bits (8 * k + f)) := by
  have hlt : ∀ x : UInt8, x.toNat / 2 ^ (8 - f) < 2 ^ f := fun x => by
    have := toNat_lt_256 x
    rw [Nat.div_lt_iff_lt_mul (by positivity), ← pow_add, show f + (8 - f) = 8 by omega]
    exact this
  have hscale : cmp8 (ae1.byte k &&& topMask f) (ae2.byte k &&& topMask f)
      = compare ((ae1.byte k).toNat / 2 ^ (8 - f)) ((ae2.byte k).toNat / 2 ^ (8 - f)) := by
    have h0 : (0 : ℕ) < 2 ^ (8 - f) := by positivity
    have := compare_digit (A := (ae1.byte k).toNat / 2 ^ (8 - f)) (B := (ae2.byte k).toNat / 2 ^ (8 - f)) h0 h0
    rw [compare_eq_iff_eq.mpr rfl, Ordering.then_eq] at this
    rw [cmp8_eq, and_topMask _ hf, and_topMask _ hf, this]
    rfl
  rw [hscale, compare_digit (hlt _) (hlt _)]
  unfold AclE.bits
  rw [pnum_byte _ k f hf.le, pnum_byte _ k f hf.le]

/-- `vcl_acl_cmp` compares the bits under the shorter mask; then the longer mask is less. -/
theorem vclAclCmp_eq : vclAclCmp ae1 ae2 =
    (compare (pnum ae1.bits (min ae1.mask ae2.mask)) (pnum ae2.bits (min ae1.mask ae2.mask))).then
      (compare ae2.mask ae1.mask) := by
  have hmask : (if ae2.mask < ae1.mask then Ordering.lt else if ae1.mask < ae2.mask then .gt else .eq)
      = compare ae2.mask ae1.mask := by
    split_ifs with h1 h2
    · exact (compare_lt_iff_lt.mpr h1).symm
    · exact (compare_gt_iff_gt.mpr h2).symm
    · exact (compare_eq_iff_eq.mpr (by omega)).symm
  unfold vclAclCmp
  generalize min ae1.mask ae2.mask = m
  have hwhole : cmpWhole ae1 ae2 (m / 8) 0 = compare (pnum ae1.bits (8 * (m / 8))) (pnum ae2.bits (8 * (m / 8))) := by
    have := cmpWhole_eq ae1 ae2 (m / 8) 0
    simpa [compare_eq_iff_eq.mpr] using this
  have hm : 8 * (m / 8) + m % 8 = m := Nat.div_add_mod m 8
  dsimp only
  rw [hmask, ← Ordering.then_assoc, hwhole]
  congr 1
  by_cases h0 : m % 8 = 0
  · rw [if_pos h0, Ordering.then_eq, show 8 * (m / 8) = m by omega]
  · rw [if_neg h0, cmpFrac_eq (Nat.mod_lt m (by omega)), hm]

/-- `ae1` stands before `ae2` in `tl->acl`. -/
def AclE.Lt (ae1 ae2 : AclE) : Prop := PLt ae1.bits ae1.mask ae2.bits ae2.mask

theorem vclAclCmp_lt : vclAclCmp ae1 ae2 = .lt ↔ ae1.Lt ae2 := by
  rw [vclAclCmp_eq, Ordering.then_eq_lt, compare_lt_iff_lt, compare_eq_iff_eq, compare_lt_iff_lt]
  rfl

theorem vclAclCmp_gt : vclAclCmp ae1 ae2 = .gt ↔ ae2.Lt ae1 := by
  rw [vclAclCmp_eq, Ordering.then_eq_gt, compare_gt_iff_gt, compare_eq_iff_eq, compare_gt_iff_gt, AclE.Lt, PLt,
    min_comm ae2.mask]
  exact or_congr Iff.rfl (and_congr_left fun _ => eq_comm)

/-- Equal entries have the same mask and the same bits under it. -/
theorem vclAclCmp_self_eq (h : vclAclCmp ae1 ae2 = .eq) :
    ae1.mask = ae2.mask ∧ Agree ae1.bits ae2.bits ae1.mask := by
  rw [vclAclCmp_eq, Ordering.then_eq_eq, compare_eq_iff_eq, compare_eq_iff_eq] at h
  obtain ⟨h1, h2⟩ := h
  rw [h2, min_self] at h1
  exact ⟨h2.symm, agree_iff_pnum.mpr h1⟩

end Cmp

/-! ## Adding entries keeps the order -/

section Insert

/-- `acl` is strictly sorted. -/
abbrev Sorted (acl : List AclE) : Prop := acl.Pairwise AclE.Lt

/-- `ae` is the rule `aen`, perhaps under another spelling: same prefix, same verdict. -/
def SameRule (aen ae : AclE) : Prop :=
  ae.mask = aen.mask ∧ Agree aen.bits ae.bits aen.mask ∧ ae.not = aen.not

theorem SameRule.refl (ae : AclE) : SameRule ae ae := ⟨rfl, fun _ _ => rfl, rfl⟩

/-- What the `VTAILQ_FOREACH` of `vcc_acl_add_entry` does to a sorted list. -/
theorem aclInsert_spec {aen : AclE} : ∀ {acl acl' : List AclE}, Sorted acl → aclInsert aen acl = .ok acl' →
    Sorted acl' ∧ (∀ ae ∈ acl', ae = aen ∨ ae ∈ acl) ∧ (∀ ae ∈ acl, ae ∈ acl') ∧ ∃ ae ∈ acl', SameRule aen ae
  | [], acl', _, h => by
    simp only [aclInsert, Except.ok.injEq] at h
    subst h
    exact ⟨List.pairwise_singleton _ _, by simp, by simp, aen, by simp, SameRule.refl aen⟩
  | ae2 :: rest, acl', hs, h => by
    rw [aclInsert] at h
    obtain ⟨hhd, htl⟩ := List.pairwise_cons.mp hs
    cases hc : vclAclCmp aen ae2 with
    | lt =>
      simp only [hc, Except.ok.injEq] at h
      subst h
      have hlt := vclAclCmp_lt.mp hc
      refine ⟨List.pairwise_cons.mpr ⟨fun ae hae => ?_, hs⟩, by simp, fun ae hae => by simp [hae], aen, by simp,
        SameRule.refl aen⟩
      rcases List.mem_cons.mp hae with rfl | hae
      · exact hlt
      · exact plt_trans hlt (hhd ae hae)
    | eq =>
      simp only [hc] at h
      split_ifs at h with hn
      simp only [Except.ok.injEq] at h
      subst h
      obtain ⟨hm, hag⟩ := vclAclCmp_self_eq hc
      exact ⟨hs, fun ae hae => Or.inr hae, fun ae hae => hae, ae2, by simp, hm.symm, hag, hn.symm⟩
    | gt =>
      simp only [hc, bind, Except.bind] at h
      cases hr : aclInsert aen rest with
      | error err => rw [hr] at h; cases h
      | ok rest' =>
        rw [hr] at h
        simp only [Except.ok.injEq] at h
        subst h
        obtain ⟨h1, h2, h3, ae, h4, h5⟩ := aclInsert_spec htl hr
        refine ⟨List.pairwise_cons.mpr ⟨fun x hx => ?_, h1⟩, fun x hx => ?_, fun x hx => ?_, ae, by simp [h4], h5⟩
        · rcases h2 x hx with rfl | hx
          · exact vclAclCmp_gt.mp hc
          · exact hhd x hx
        · rcases List.mem_cons.mp hx with rfl | hx
          · simp
          · rcases h2 x hx with rfl | hx
            · exact Or.inl rfl
            · exact Or.inr (by simp [hx])
        · rcases List.mem_cons.mp hx with rfl | hx
          · simp
          · simp [h3 x hx]

theorem vccAclAddEntry_ok {acl acl' : List AclE} {e : Entry} (h : vccAclAddEntry acl e = .ok acl') :
    aclInsert (mkAclE e) acl = .ok acl' := by
  unfold vccAclAddEntry at h
  cases hf : e.addr.fam <;> simp only [hf] at h <;> split_ifs at h <;> exact h

/-- The list built from `es`: sorted, made of the entries of `es`, and each of `es` is in it as a rule. -/
structure Built (es : List Entry) (acl : List AclE) : Prop where
  sorted : Sorted acl
  src : ∀ ae ∈ acl, ∃ e ∈ es, ae = mkAclE e
  all : ∀ e ∈ es, ∃ ae ∈ acl, SameRule (mkAclE e) ae

theorem Built.add {es : List Entry} {acl acl' : List AclE} {e : Entry} (hb : Built es acl)
    (h : vccAclAddEntry acl e = .ok acl') : Built (es ++ [e]) acl' := by
  obtain ⟨h1, h2, h3, ae, h4, h5⟩ := aclInsert_spec hb.sorted (vccAclAddEntry_ok h)
  refine ⟨h1, fun x hx => ?_, fun e' he' => ?_⟩
  · rcases h2 x hx with rfl | hx
    · exact ⟨e, by simp, rfl⟩
    · obtain ⟨e', he', rfl⟩ := hb.src x hx
      exact ⟨e', by simp [he'], rfl⟩
  · rcases List.mem_append.mp he' with he' | he'
    · obtain ⟨x, hx, hr⟩ := hb.all e' he'
      exact ⟨x, h3 x hx, hr⟩
    · obtain rfl := List.mem_singleton.mp he'
      exact ⟨ae, h4, h5⟩

/-- Every accepted list of entries is built in order. -/
theorem addEntries_built {es : List Entry} {acl : List AclE} (h : vccAclAddEntries es = .ok acl) : Built es acl := by
  have key : ∀ (rest done : List Entry) (cur : List AclE), Built done cur →
      rest.foldlM vccAclAddEntry cur = .ok acl → Built (done ++ rest) acl := by
    intro rest
    induction rest with
    | nil =>
      intro done cur hb h
      simp only [List.foldlM_nil, pure, Except.pure, Except.ok.injEq] at h
      subst h
      simpa using hb
    | cons e rest ih =>
      intro done cur hb h
      simp only [List.foldlM_cons, bind, Except.bind] at h
      cases hc : vccAclAddEntry cur e with
      | error err => rw [hc] at h; cases h
      | ok cur' =>
        rw [hc] at h
        have := ih (done ++ [e]) cur' (hb.add hc) h
        simpa using this
  exact key es [] [] ⟨List.Pairwise.nil, by simp, by simp⟩ h

end Insert

/-! ## Containment on the bits of the entries -/

section Contain

theorem pf_inj {f g : Fam} : f.pf = g.pf ↔ f = g := by
  cases f <;> cases g <;> decide

/-- The bits of `data[]`: the family byte, then the address. -/
theorem bitOf_cons (v : UInt8) (l : List UInt8) (i : ℕ) :
    bitOf (fun j => (v :: l).getD j 0) (i + 8) = bitOf (fun j => l.getD j 0) i := by
  have h1 : (i + 8) / 8 = i / 8 + 1 := by omega
  have h2 : (i + 8) % 8 = i % 8 := by omega
  simp only [bitOf, h1, h2, List.getD_cons_succ]

theorem contains_iff (e : Entry) (x : Addr) : e.Contains x ↔ Agree (mkAclE e).bits x.bits (mkAclE e).mask := by
  have hfam : e.addr.fam = x.fam ↔ Agree (mkAclE e).bits x.bits (8 * 1) := by
    unfold AclE.bits Addr.bits
    rw [agree_whole, ← pf_inj]
    constructor
    · intro h j hj
      obtain rfl : j = 0 := by omega
      exact h
    · intro h
      exact h 0 (by omega)
  have hbits : ∀ i, (mkAclE e).bits (i + 8) = bitOf (fun j => e.addr.bytes.getD j 0) i := fun i => bitOf_cons _ _ i
  have hbits' : ∀ i, x.bits (i + 8) = bitOf (fun j => x.bytes.getD j 0) i := fun i => bitOf_cons _ _ i
  constructor
  · rintro ⟨h1, h2⟩ i hi
    rcases Nat.lt_or_ge i 8 with h8 | h8
    · exact hfam.mp h1 i (by omega)
    · obtain ⟨k, rfl⟩ := Nat.exists_eq_add_of_le' h8
      have hk : k < e.mask := by simp only [mkAclE] at hi; omega
      rw [hbits, hbits']
      exact h2 k hk
  · intro h
    refine ⟨hfam.mpr (h.mono (by simp [mkAclE])), fun i hi => ?_⟩
    rw [← hbits, ← hbits']
    exact h (i + 8) (by simp only [mkAclE]; omega)

/-- A rule contains the addresses of its spelling. -/
theorem SameRule.agree {aen ae : AclE} (h : SameRule aen ae) (x : Addr) :
    Agree aen.bits x.bits aen.mask ↔ Agree ae.bits x.bits ae.mask := by
  obtain ⟨hm, hag, -⟩ := h
  rw [hm]
  exact ⟨fun hx => hag.symm.trans hx, fun hx => hag.trans hx⟩

end Contain

end Varnish.Acl
