import Varnish.Acl.Emit

/-!
# Varnish.Acl.Match — when the emitted matcher is right

`longest_iff`: the verdict of the longest containing prefix is the verdict of the first entry of `tl->acl` that
contains the address.  With `matchAcl_emit` this gives the exact condition under which the emitted matcher is right
(`matchAcl_longest_iff`): the entries that are cut off for the address must not decide its verdict.
-/

namespace Varnish.Acl

open Varnish.Lib

/-- The first entry of a sorted list that contains `x`. -/
def firstContaining (x : Addr) (acl : List AclE) : Option AclE := acl.find? fun ae => decide (ae.Contains x)

/-- Leaving out the entries that are cut off for `x` does not change the verdict. -/
def CutOffHarmless (acl : List AclE) (x : Addr) : Prop :=
  verdict (firstReached x [] acl) = verdict (firstContaining x acl)

instance (acl : List AclE) (x : Addr) : Decidable (CutOffHarmless acl x) := inferInstanceAs (Decidable (_ = _))

variable {es : List Entry} {acl : List AclE} {x : Addr}

/-- The first containing entry of a sorted list has the longest prefix of all that contain `x`. -/
theorem firstContaining_max (hs : Sorted acl) {f ae : AclE} (hf : firstContaining x acl = some f) (hae : ae ∈ acl)
    (hc : ae.Contains x) : f = ae ∨ ae.mask < f.mask := by
  obtain ⟨hfc, as, bs, hacl, hnot⟩ := List.find?_eq_some_iff_append.mp hf
  subst hacl
  rcases List.mem_append.mp hae with h | h
  · have := hnot ae h
    simp [hc] at this
  · rcases List.mem_cons.mp h with rfl | h
    · exact Or.inl rfl
    · right
      have hlt : f.Lt ae := (List.pairwise_cons.mp (List.pairwise_append.mp hs).2.1).1 ae h
      exact plt_lt_of_agree hlt (of_decide_eq_true hfc) hc

/-- The verdict of the longest prefix is that of the first containing entry of `tl->acl`. -/
theorem longest_iff (hb : Built es acl) (v : Bool) : Longest es x v ↔ v = verdict (firstContaining x acl) := by
  cases hf : firstContaining x acl with
  | none =>
    have hno : ∀ e ∈ es, ¬ e.Contains x := fun e he hc => by
      obtain ⟨ae, hae, hr⟩ := hb.all e he
      have := List.find?_eq_none.mp hf ae hae
      exact this (decide_eq_true ((hr.agree x).mp ((contains_iff e x).mp hc)))
    constructor
    · rintro (⟨e, he, hc, -⟩ | ⟨-, rfl⟩)
      · exact absurd hc (hno e he)
      · rfl
    · rintro rfl
      exact Or.inr ⟨hno, rfl⟩
  | some f =>
    have hfm : f ∈ acl := List.mem_of_find?_eq_some hf
    have hfc : f.Contains x := by simpa using List.find?_some (p := fun ae => decide (AclE.Contains ae x)) hf
    obtain ⟨e₀, he₀, rfl⟩ := hb.src f hfm
    have hc₀ : e₀.Contains x := (contains_iff e₀ x).mpr hfc
    -- a containing entry is the first one, or its prefix is shorter
    have hmax : ∀ e ∈ es, e.Contains x → (e.mask = e₀.mask ∧ e.not = e₀.not) ∨ e.mask < e₀.mask := by
      intro e he hc
      obtain ⟨ae, hae, hr⟩ := hb.all e he
      have hm := hr.1
      rcases firstContaining_max hb.sorted hf hae ((hr.agree x).mp ((contains_iff e x).mp hc)) with h | h
      · have hn := hr.2.2
        rw [← h] at hm hn
        simp only [mkAclE] at hm hn
        exact Or.inl ⟨by omega, hn.symm⟩
      · simp only [mkAclE] at hm h
        exact Or.inr (by omega)
    constructor
    · rintro (⟨e, he, hc, hle, rfl⟩ | ⟨hno, -⟩)
      · have h₀ := hle e₀ he₀ hc₀
        rcases hmax e he hc with ⟨-, hn⟩ | h
        · rw [hn]; rfl
        · omega
      · exact absurd hc₀ (hno e₀ he₀)
    · rintro rfl
      refine Or.inl ⟨e₀, he₀, hc₀, fun e he hc => ?_, rfl⟩
      rcases hmax e he hc with ⟨h, -⟩ | h <;> omega

theorem Built.mask_ge (hb : Built es acl) : ∀ ae ∈ acl, 8 ≤ ae.mask := by
  intro ae hae
  obtain ⟨e, -, rfl⟩ := hb.src ae hae
  simp [mkAclE]

/-- **ACL compilation**: for every accepted list of entries and every client address, the emitted matcher returns
the verdict of the longest prefix that contains the address iff the entries cut off for this address do not decide
the verdict. -/
theorem matchAcl_longest_iff (h : vccAclAddEntries es = .ok acl) (acln : String) (anon : Bool) (x : Addr) :
    (∃ v, matchAcl (vccAclEmit acln anon acl) x = some v ∧ Longest es x v) ↔ CutOffHarmless acl x := by
  have hb := addEntries_built h
  rw [matchAcl_emit acln anon hb.sorted hb.mask_ge x]
  constructor
  · rintro ⟨v, hv, hl⟩
    rw [Option.some.injEq] at hv
    rw [CutOffHarmless, hv]
    exact (longest_iff hb v).mp hl
  · intro hh
    exact ⟨_, rfl, (longest_iff hb _).mpr hh⟩

/-- `"10.200.0.0"/16; ! "10.200.7.0"/24;` -/
def negInside : List Entry :=
  [⟨⟨.inet, [10, 200, 0, 0], rfl⟩, 16, false, "10.200.0.0", some "16"⟩,
    ⟨⟨.inet, [10, 200, 7, 0], rfl⟩, 24, true, "10.200.7.0", some "24"⟩]

theorem matchAcl_longest_negInside : ∃ acl, vccAclAddEntries negInside = .ok acl ∧
    ∃ v, matchAcl (vccAclEmit "a" false acl) ⟨.inet, [10, 200, 7, 1], rfl⟩ = some v ∧
      Longest negInside ⟨.inet, [10, 200, 7, 1], rfl⟩ v :=
  ⟨_, rfl, (matchAcl_longest_iff rfl "a" false ⟨.inet, [10, 200, 7, 1], rfl⟩).mpr (by decide +kernel)⟩

/-- `"10.200.5.0"/24; "10.128.0.0"/9;`: the compare of the `/9` is printed as an `else` of the compare with 200. -/
def fracElse : List Entry :=
  [⟨⟨.inet, [10, 200, 5, 0], rfl⟩, 24, false, "10.200.5.0", some "24"⟩,
    ⟨⟨.inet, [10, 128, 0, 0], rfl⟩, 9, false, "10.128.0.0", some "9"⟩]

/-- `"10.128.0.0"/16; "10.128.0.0"/9;`: the return of the `/9` is printed into the block of the `/16`. -/
def fracInside : List Entry :=
  [⟨⟨.inet, [10, 128, 0, 0], rfl⟩, 16, false, "10.128.0.0", some "16"⟩,
    ⟨⟨.inet, [10, 128, 0, 0], rfl⟩, 9, false, "10.128.0.0", some "9"⟩]

/-- The matchers of these two lists deny `10.200.6.1` and `10.129.0.1`, which are in the `/9`. -/
theorem matchAcl_not_longest :
    (∃ acl, vccAclAddEntries fracElse = .ok acl ∧
      ¬ ∃ v, matchAcl (vccAclEmit "a" false acl) ⟨.inet, [10, 200, 6, 1], rfl⟩ = some v ∧
        Longest fracElse ⟨.inet, [10, 200, 6, 1], rfl⟩ v) ∧
    (∃ acl, vccAclAddEntries fracInside = .ok acl ∧
      ¬ ∃ v, matchAcl (vccAclEmit "a" false acl) ⟨.inet, [10, 129, 0, 1], rfl⟩ = some v ∧
        Longest fracInside ⟨.inet, [10, 129, 0, 1], rfl⟩ v) := by
  refine ⟨⟨_, rfl, ?_⟩, ⟨_, rfl, ?_⟩⟩
  · rintro ⟨v, hv, hl⟩
    rw [longest_iff (addEntries_built rfl)] at hl
    subst hl
    revert hv
    decide +kernel
  · rintro ⟨v, hv, hl⟩
    rw [longest_iff (addEntries_built rfl)] at hl
    subst hl
    revert hv
    decide +kernel

end Varnish.Acl
