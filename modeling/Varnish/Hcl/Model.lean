import Mathlib.Algebra.Group.Nat.Defs
import Varnish.Hcb.Model

/-!
# Varnish.Hcl.Model — the sorted bucket lists of `hash_classic.c`

* `hclLookup`, `hclDeref`: the two methods.  A failed assertion is `none`.
* `eq_of_memcmp`, `memcmp_swap`, `memcmp_trans`: `memcmp` orders the digests.
* `hclWalk_spec`: the walk along a bucket finds the digest, or the place for it.
-/

namespace Varnish.Hcl

open Varnish.Hcb

/-! ## The methods -/

section Methods

/-- `memcmp`, its sign. -/
def memcmp : List UInt8 → List UInt8 → Ordering
  | a :: as, b :: bs => if a < b then .lt else if b < a then .gt else memcmp as bs
  | _, _ => .eq

/-- The buckets, and of each objhead the digest, the reference count and `hoh_head`. -/
structure Table where
  nhash : ℕ
  head : ℕ → List Ptr
  digest : Ptr → Digest
  refcnt : Ptr → ℕ
  hohHead : Ptr → Option ℕ

/-- `hcl_start`, on fresh memory. -/
def Table.start (nhash : ℕ) (digest : Ptr → Digest) : Table :=
  { nhash := nhash, head := fun _ => [], digest := digest, refcnt := fun _ => 0, hohHead := fun _ => none }

/-- The first four bytes of the digest as an `unsigned`, modulo `hcl_nhash`. -/
def bucket (nhash : ℕ) (d : Digest) : ℕ :=
  ((d.byte 0).toNat + 2 ^ 8 * (d.byte 1).toNat + 2 ^ 16 * (d.byte 2).toNat + 2 ^ 24 * (d.byte 3).toNat) % nhash

/-- The loop of `hcl_lookup` and the insertion: the objhead that has the digest of `noh`, and the list afterwards. -/
def hclWalk (digest : Ptr → Digest) (noh : Ptr) : List Ptr → Option Ptr × List Ptr
  | [] => (none, [noh])
  | oh :: l =>
    match memcmp (digest oh).bytes (digest noh).bytes with
    | .lt => ((hclWalk digest noh l).1, oh :: (hclWalk digest noh l).2)
    | .gt => (none, noh :: oh :: l)
    | .eq => (some oh, oh :: l)

/-- `hcl_lookup` -/
def hclLookup (s : Table) (noh : Ptr) : Ptr × Table :=
  let u := bucket s.nhash (s.digest noh)
  match hclWalk s.digest noh (s.head u) with
  | (some oh, _) => (oh, { s with refcnt := Function.update s.refcnt oh (s.refcnt oh + 1) })
  | (none, l) =>
    (noh, { s with head := Function.update s.head u l, hohHead := Function.update s.hohHead noh (some u) })

/-- `hcl_deref`: whether there are references left. -/
def hclDeref (s : Table) (oh : Ptr) : Option (Bool × Table) := do
  let u ← s.hohHead oh
  if 0 < s.refcnt oh then
    let s' := { s with refcnt := Function.update s.refcnt oh (s.refcnt oh - 1) }
    if s.refcnt oh - 1 = 0 then some (false, { s' with head := Function.update s.head u ((s.head u).erase oh) })
    else some (true, s')
  else none

/-- What `HSH_Lookup` does before the lookup: it has an objhead with one reference, a new one or the one that the last lookup
did not take, and writes the digest to it. -/
def hshOffer (s : Table) (noh : Ptr) (d : Digest) : Table :=
  { s with
    digest := Function.update s.digest noh d
    refcnt := Function.update s.refcnt noh 1
    hohHead := Function.update s.hohHead noh none }

end Methods

/-! ## The order of the digests -/

section Order

variable {a b c : List UInt8}

theorem memcmp_swap (a b : List UInt8) : memcmp b a = (memcmp a b).swap := by
  induction a generalizing b with
  | nil => cases b <;> rfl
  | cons x a ih =>
    cases b with
    | nil => rfl
    | cons y b =>
      rw [memcmp, memcmp]
      by_cases h1 : x < y
      · have h2 : ¬ y < x := by
          rw [UInt8.lt_iff_toNat_lt] at h1 ⊢
          omega
        rw [if_neg h2, if_pos h1, if_pos h1]
        rfl
      · rw [if_neg h1, if_neg h1]
        by_cases h2 : y < x
        · rw [if_pos h2, if_pos h2]
          rfl
        · rw [if_neg h2, if_neg h2]
          exact ih b

theorem memcmp_cons_eq {x y : UInt8} (h : memcmp (x :: a) (y :: b) = .eq) : x = y ∧ memcmp a b = .eq := by
  rw [memcmp] at h
  by_cases h1 : x < y
  · rw [if_pos h1] at h
    cases h
  · rw [if_neg h1] at h
    by_cases h2 : y < x
    · rw [if_pos h2] at h
      cases h
    · rw [if_neg h2] at h
      rw [UInt8.lt_iff_toNat_lt] at h1 h2
      exact ⟨UInt8.toNat_inj.mp (by omega), h⟩

theorem memcmp_cons_lt {x y : UInt8} : memcmp (x :: a) (y :: b) = .lt ↔ x < y ∨ x = y ∧ memcmp a b = .lt := by
  rw [memcmp]
  by_cases h1 : x < y
  · rw [if_pos h1]
    exact iff_of_true rfl (.inl h1)
  · rw [if_neg h1]
    by_cases h2 : y < x
    · rw [if_pos h2]
      refine iff_of_false (by decide) ?_
      rintro (h | ⟨rfl, -⟩)
      · exact h1 h
      · exact h1 h2
    · rw [if_neg h2]
      have hxy : x = y := by
        rw [UInt8.lt_iff_toNat_lt] at h1 h2
        exact UInt8.toNat_inj.mp (by omega)
      simp [hxy]

theorem eq_of_memcmp (hl : a.length = b.length) (h : memcmp a b = .eq) : a = b := by
  induction a generalizing b with
  | nil => exact (List.eq_nil_of_length_eq_zero hl.symm).symm
  | cons x a ih =>
    cases b with
    | nil => cases hl
    | cons y b =>
      obtain ⟨rfl, hab⟩ := memcmp_cons_eq h
      rw [ih (Nat.succ.inj hl) hab]

theorem not_memcmp_self : memcmp a a ≠ .lt := by
  induction a with
  | nil => decide
  | cons x a ih =>
    intro h
    rcases memcmp_cons_lt.mp h with h | ⟨-, h⟩
    · rw [UInt8.lt_iff_toNat_lt] at h
      omega
    · exact ih h

theorem memcmp_trans (hab : a.length = b.length) (hbc : b.length = c.length) (h : memcmp a b = .lt) (h' : memcmp b c = .lt) :
    memcmp a c = .lt := by
  induction a generalizing b c with
  | nil => cases h
  | cons x a ih =>
    cases b with
    | nil => cases hab
    | cons y b =>
      cases c with
      | nil => cases hbc
      | cons z c =>
        rw [memcmp_cons_lt] at h h' ⊢
        rcases h with h | ⟨rfl, h⟩
        · left
          rcases h' with h' | ⟨rfl, -⟩
          · rw [UInt8.lt_iff_toNat_lt] at h h' ⊢
            omega
          · exact h
        · exact h'.imp_right fun h' => ⟨h'.1, ih (Nat.succ.inj hab) (Nat.succ.inj hbc) h h'.2⟩

/-- The digest is before the other. -/
def Before (d e : Digest) : Prop := memcmp d.bytes e.bytes = .lt

theorem Before.trans {d e f : Digest} (h : Before d e) (h' : Before e f) : Before d f :=
  memcmp_trans (d.len.trans e.len.symm) (e.len.trans f.len.symm) h h'

theorem Before.ne {d e : Digest} (h : Before d e) : d ≠ e := by
  rintro rfl
  exact not_memcmp_self h

end Order

/-! ## The walk -/

section Walk

variable {digest : Ptr → Digest} {noh : Ptr} {l : List Ptr}

/-- The list is strictly sorted by the digests. -/
def Sorted (digest : Ptr → Digest) (l : List Ptr) : Prop := l.Pairwise fun a b => Before (digest a) (digest b)

/-- **The walk along a sorted bucket**: it finds the objhead with the digest, or puts the new one in its place. -/
theorem hclWalk_spec (noh : Ptr) (hs : Sorted digest l) :
    (∃ oh ∈ l, digest oh = digest noh ∧ hclWalk digest noh l = (some oh, l)) ∨
    ((∀ oh ∈ l, digest oh ≠ digest noh) ∧ ∃ l', hclWalk digest noh l = (none, l') ∧ l'.Perm (noh :: l) ∧ Sorted digest l') := by
  induction l with
  | nil => exact .inr ⟨fun oh h => absurd h List.not_mem_nil, [noh], rfl, List.Perm.refl _, List.pairwise_singleton _ _⟩
  | cons oh l ih =>
    obtain ⟨hle, hs⟩ := List.pairwise_cons.mp hs
    rw [hclWalk]
    cases hc : memcmp (digest oh).bytes (digest noh).bytes with
    | eq =>
      have hd : digest oh = digest noh := by
        have := eq_of_memcmp ((digest oh).len.trans (digest noh).len.symm) hc
        cases hx : digest oh
        cases hy : digest noh
        simp_all
      exact .inl ⟨oh, List.mem_cons_self, hd, rfl⟩
    | gt =>
      have hb : Before (digest noh) (digest oh) := by
        rw [Before, memcmp_swap, hc]
        rfl
      refine .inr ⟨fun a ha => ?_, noh :: oh :: l, rfl, List.Perm.refl _, ?_⟩
      · rcases List.mem_cons.mp ha with rfl | ha
        · exact hb.ne.symm
        · exact (hb.trans (hle a ha)).ne.symm
      · refine List.pairwise_cons.mpr ⟨fun a ha => ?_, List.pairwise_cons.mpr ⟨hle, hs⟩⟩
        rcases List.mem_cons.mp ha with rfl | ha
        · exact hb
        · exact hb.trans (hle a ha)
    | lt =>
      have hb : Before (digest oh) (digest noh) := hc
      rcases ih hs with ⟨a, ha, hd, hw⟩ | ⟨hn, l', hw, hp, hs'⟩
      · exact .inl ⟨a, List.mem_cons_of_mem _ ha, hd, by simp only [hw]⟩
      · refine .inr ⟨fun a ha => ?_, oh :: l', by simp only [hw], ?_, List.pairwise_cons.mpr ⟨fun a ha => ?_, hs'⟩⟩
        · rcases List.mem_cons.mp ha with rfl | ha
          · exact hb.ne
          · exact hn a ha
        · exact (hp.cons oh).trans (List.Perm.swap noh oh l)
        · rcases List.mem_cons.mp (hp.mem_iff.mp ha) with rfl | ha
          · exact hb
          · exact hle a ha

end Walk

end Varnish.Hcl
