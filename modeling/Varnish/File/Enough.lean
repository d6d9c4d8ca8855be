import Varnish.File.Runs

/-!
# Varnish.File.Enough — what a caller of the file storage gets

* `roundUp_two_pow`: the size in pages is the size rounded up, without what is above 32 bits.
* `findFree_eq_none_iff`: nothing is found when every free segment is too small.
* `allocSmf_taken`: the segment that is given was the front of a free one.
* `smfAllocStat_iff`: when a request gets enough space, or nothing and nothing changes.
-/

namespace Varnish.File

open Varnish.Lib

variable {pagesize : ℕ} {C : List Extent} {s s' : Sc} {p q size bytes : ℕ}

/-! ## The counters -/

section Stat

/-- The counters of `VSL_stats` that `smf_alloc` changes. -/
structure Stat where
  sm_nreq : UInt64
  sm_nobj : UInt64
  sm_balloc : UInt64
  sm_bfree : UInt64
deriving DecidableEq

variable (pagesize)

/-- `smf_alloc` with its counters -/
def smfAllocStat (t : Stat) (s : Sc) (size : ℕ) : Option (Stat × Sc × Option ℕ) := do
  let (s, r) ← smfAlloc pagesize s size
  let t := { t with sm_nreq := t.sm_nreq + 1 }
  match r with
  | none => some (t, s, none)
  | some p =>
    let n := UInt64.ofNat (s.smf p).ext.size
    some ({ t with sm_nobj := t.sm_nobj + 1, sm_balloc := t.sm_balloc + n, sm_bfree := t.sm_bfree - n }, s, some p)

/-- The size rounded up to whole pages. -/
def pages (size : ℕ) : ℕ := (size + (pagesize - 1)) / pagesize * pagesize

/-- Enough space, which was the front of one free segment. -/
structure Given (s s' : Sc) (size q : ℕ) : Prop where
  enough : pages pagesize size ≤ (s'.smf q).space
  space : (s'.smf q).space = (s'.smf q).ext.size
  used : q ∈ s'.used ∧ q ∉ s.used
  taken : ∃ b, ∃ p ∈ s.free b, (s'.smf q).ext.size ≤ (s.smf p).ext.size ∧
    (s'.smf q).ext = (s.smf p).ext.front (s'.smf q).ext.size

/-- A request gets enough space, or nothing, and then the lists and the counters of bytes are as before. -/
def EnoughOrNothing (t : Stat) (s : Sc) (size : ℕ) : Prop :=
  ∃ t' s' r, smfAllocStat pagesize t s size = some (t', s', r) ∧
    match r with
    | none => s' = s ∧ t'.sm_balloc = t.sm_balloc ∧ t'.sm_bfree = t.sm_bfree
    | some q => Given pagesize s s' size q

/-- No free segment has so many bytes. -/
def NoneFree (s : Sc) (bytes : ℕ) : Prop := ∀ b, ∀ p ∈ s.free b, (s.smf p).ext.size < bytes

end Stat

/-! ## Whole pages -/

section Pages

/-- The mask leaves the bits of whole pages below `2 ^ 32`. -/
theorem and_mask {k : ℕ} (hk : k ≤ 32) (x : ℕ) : x &&& (2 ^ 32 - 2 ^ k) = x / 2 ^ k * 2 ^ k % 2 ^ 32 := by
  have hsplit : 2 ^ 32 = 2 ^ (32 - k) * 2 ^ k := by rw [← Nat.pow_add, Nat.sub_add_cancel hk]
  have hmask : 2 ^ 32 - 2 ^ k = (2 ^ (32 - k) - 1) * 2 ^ k := by rw [Nat.sub_mul, Nat.one_mul, ← hsplit]
  have hdiv : (x &&& (2 ^ 32 - 2 ^ k)) / 2 ^ k = x / 2 ^ k % 2 ^ (32 - k) := by
    rw [Nat.and_div_two_pow, hmask, Nat.mul_div_cancel _ (Nat.two_pow_pos k), Nat.and_two_pow_sub_one_eq_mod]
  have hmod : (x &&& (2 ^ 32 - 2 ^ k)) % 2 ^ k = 0 := by
    rw [Nat.and_mod_two_pow, hmask, Nat.mul_mod_left, Nat.and_zero]
  calc x &&& (2 ^ 32 - 2 ^ k)
      = (x &&& (2 ^ 32 - 2 ^ k)) / 2 ^ k * 2 ^ k := (Nat.div_mul_cancel (Nat.dvd_of_mod_eq_zero hmod)).symm
    _ = x / 2 ^ k % 2 ^ (32 - k) * 2 ^ k := by rw [hdiv]
    _ = x / 2 ^ k * 2 ^ k % 2 ^ 32 := by rw [hsplit, Nat.mul_mod_mul_right]

/-- What is cut off at 64 bits is behind the mask. -/
theorem mod_and_mask (x m : ℕ) (hm : m < 2 ^ 32) : x % 2 ^ 64 &&& m = x &&& m := by
  have hlow : ∀ y, y &&& m = y % 2 ^ 32 &&& m := fun y => by
    have hlt : y &&& m < 2 ^ 32 := Nat.and_lt_two_pow y hm
    rw [← Nat.mod_eq_of_lt hlt, Nat.and_mod_two_pow, Nat.mod_eq_of_lt hm]
  rw [hlow (x % 2 ^ 64), hlow x, Nat.mod_mod_of_dvd x (Nat.pow_dvd_pow 2 (by decide))]

theorem roundUp_two_pow {k : ℕ} (hk : k < 32) (size : ℕ) : roundUp (2 ^ k) size = pages (2 ^ k) size % 2 ^ 32 := by
  have hm : 2 ^ 32 - 2 ^ k < 2 ^ 32 := Nat.sub_lt (Nat.two_pow_pos 32) (Nat.two_pow_pos k)
  rw [roundUp, mod_and_mask _ _ hm, and_mask hk.le, pages]

theorem roundUp_lt (hpos : 0 < pagesize) : roundUp pagesize size < 2 ^ 32 :=
  Nat.and_lt_two_pow _ (Nat.sub_lt (Nat.two_pow_pos 32) hpos)

/-- Nothing is cut off when the sum has 32 bits. -/
theorem pages_le_mod_iff {k : ℕ} (hk : k < 32) :
    pages (2 ^ k) size ≤ pages (2 ^ k) size % 2 ^ 32 ↔ size + (2 ^ k - 1) < 2 ^ 32 := by
  have hsplit : 2 ^ 32 = 2 ^ (32 - k) * 2 ^ k := by rw [← Nat.pow_add, Nat.sub_add_cancel hk.le]
  have hlt : pages (2 ^ k) size < 2 ^ 32 ↔ size + (2 ^ k - 1) < 2 ^ 32 := by
    rw [pages, hsplit, Nat.mul_lt_mul_right (Nat.two_pow_pos k), Nat.div_lt_iff_lt_mul (Nat.two_pow_pos k)]
  rw [← hlt]
  constructor
  · intro h
    exact h.trans_lt (Nat.mod_lt _ (Nat.two_pow_pos 32))
  · intro h
    exact (Nat.mod_eq_of_lt h).ge

theorem pages_pos (hps : 0 < pagesize) (h0 : 0 < size) : 0 < pages pagesize size :=
  Nat.mul_pos (Nat.div_pos (by omega) hps) hps

end Pages

/-! ## The segment -/

section Segment

/-- Nothing is found when every free segment is too small. -/
theorem findFree_eq_none_iff (h : Inv pagesize C [] s) (hpage : bytes % pagesize = 0) :
    findFree pagesize s bytes = none ↔ NoneFree s bytes := by
  have hbucket : ∀ b p, p ∈ s.free b → min ((s.smf p).ext.size / pagesize) (nbucket - 1) = b := by
    intro b p hp
    rw [← bucket_eq_min]
    exact ((h.status.mem_free b p).mp hp).2.2.2
  rw [findFree, Option.or_eq_none_iff, List.findSome?_eq_none_iff, List.find?_eq_none]
  constructor
  · rintro ⟨hlists, hlast⟩ b p hp
    have hb := hbucket b p hp
    by_cases hlt : b < bucket pagesize bytes
    · -- the list is below the one for the size
      rw [bucket_eq_min] at hlt
      have hdiv : (s.smf p).ext.size / pagesize < bytes / pagesize := by omega
      exact Nat.lt_of_not_le fun hle => absurd (Nat.div_le_div_right hle) (Nat.not_le.mpr hdiv)
    · by_cases hend : b = nbucket - 1
      · subst hend
        simpa using hlast p hp
      · have hi : b - bucket pagesize bytes ∈ List.range (nbucket - 1 - bucket pagesize bytes) :=
          List.mem_range.mpr (by omega)
        have hnil := hlists _ hi
        rw [Nat.add_sub_cancel' (by omega), List.head?_eq_none_iff] at hnil
        rw [hnil] at hp
        cases hp
  · intro hnone
    refine ⟨fun i hi => ?_, fun p hp => ?_⟩
    · rw [List.head?_eq_none_iff, List.eq_nil_iff_forall_not_mem]
      intro p hp
      have hb := hbucket _ p hp
      have hlt := hnone _ p hp
      have hi := List.mem_range.mp hi
      rw [bucket_eq_min] at hb hi
      have hdiv : bytes / pagesize ≤ (s.smf p).ext.size / pagesize := by omega
      refine absurd hlt (Nat.not_lt.mpr ?_)
      calc bytes = bytes / pagesize * pagesize := (Nat.div_mul_cancel (Nat.dvd_of_mod_eq_zero hpage)).symm
        _ ≤ (s.smf p).ext.size / pagesize * pagesize := Nat.mul_le_mul_right _ hdiv
        _ ≤ (s.smf p).ext.size := Nat.div_mul_le_self _ _
    · have hlt := hnone _ p hp
      simpa using hlt

theorem insfree_eq (h : insfree pagesize s p = some s') : s' = admitted pagesize s p := by
  rw [insfree] at h
  simp only at h
  split at h
  · exact (Option.some.inj h).symm
  · cases h

/-- The segment that is given was the front of a free one. -/
theorem allocSmf_taken (h : Inv pagesize C [] s) (hpage : bytes % pagesize = 0)
    (hs : allocSmf pagesize s bytes = some (s', some q)) :
    q ∈ s'.used ∧ q ∉ s.used ∧
      ∃ b, ∃ p ∈ s.free b, bytes ≤ (s.smf p).ext.size ∧ (s'.smf q).ext = (s.smf p).ext.front bytes := by
  rw [allocSmf, if_neg (fun hne => hne hpage)] at hs
  cases hf : findFree pagesize s bytes with
  | none =>
    rw [hf] at hs
    cases hs
  | some p =>
    obtain ⟨hp, hpa, hle⟩ := findFree_spec h hpage hf
    have hpu : p ∉ s.used := fun hu => by rw [((h.status.mem_used p).mp hu).2] at hpa; cases hpa
    have hpf : p ∈ s.free (s.bucketOf pagesize p) :=
      (h.status.mem_free _ p).mpr ⟨hp, hpa, List.not_mem_nil, rfl⟩
    have hpq : s.next ≠ p := fun he => h.geom.next_not_mem (he ▸ hp)
    rw [hf] at hs
    simp only [bind, Option.bind] at hs
    rw [if_neg (by omega), (h.retire hp hpa List.not_mem_nil).1] at hs
    simp only at hs
    by_cases heq : ((retired pagesize s p).smf p).ext.size = bytes
    · rw [if_pos heq] at hs
      cases hs
      rw [retired_ext] at heq
      refine ⟨List.mem_append_right _ (List.mem_singleton_self q), hpu, _, q, hpf, hle, ?_⟩
      rw [granted_ext, retired_ext, ← heq]
      rfl
    · rw [if_neg heq] at hs
      cases hi : insfree pagesize (cutFront (retired pagesize s p) p bytes) p with
      | none =>
        rw [hi] at hs
        cases hs
      | some s₂ =>
        rw [hi] at hs
        cases hs
        cases insfree_eq hi
        refine ⟨List.mem_append_right _ (List.mem_singleton_self _), fun hu => ?_, _, p, hpf, hle, ?_⟩
        · exact h.geom.next_not_mem ((h.status.mem_used _).mp hu).1
        · rw [admitted_ext, (cutFront_smf (retired pagesize s p) p bytes hpq).2.1]
          rw [retired_ext]

theorem findFree_of_allocSmf (hs : allocSmf pagesize s bytes = some (s', none)) : findFree pagesize s bytes = none := by
  rw [allocSmf] at hs
  by_cases hpage : bytes % pagesize ≠ 0
  · rw [if_pos hpage] at hs
    cases hs
  · rw [if_neg hpage] at hs
    cases hf : findFree pagesize s bytes with
    | none => rfl
    | some p =>
      rw [hf] at hs
      simp only at hs
      by_cases hlt : (s.smf p).ext.size < bytes
      · rw [if_pos hlt] at hs
        cases hs
      · rw [if_neg hlt] at hs
        obtain ⟨s₁, -, hs⟩ := Option.bind_eq_some_iff.mp hs
        by_cases heq : (s₁.smf p).ext.size = bytes
        · rw [if_pos heq] at hs
          cases hs
        · rw [if_neg heq] at hs
          obtain ⟨s₂, -, hs⟩ := Option.bind_eq_some_iff.mp hs
          cases hs

end Segment

/-! ## The result -/

section Result

variable {t : Stat}

theorem smfAlloc_of_none (h : Inv pagesize C [] s) (h0 : 0 < size) (hpage : roundUp pagesize size % pagesize = 0)
    (hf : NoneFree s (roundUp pagesize size)) : smfAlloc pagesize s size = some (s, none) := by
  rw [smfAlloc]
  simp only [bind, Option.bind]
  rw [if_neg (by omega), allocSmf, if_neg (fun hne => hne hpage), (findFree_eq_none_iff h hpage).mpr hf]

theorem smfAlloc_result {r : Option ℕ} (hs : smfAlloc pagesize s size = some (s', r)) :
    (r = none → findFree pagesize s (roundUp pagesize size) = none) ∧
      ∀ q ∈ r, (s'.smf q).space = roundUp pagesize size % 2 ^ 32 := by
  rw [smfAlloc] at hs
  simp only [bind, Option.bind] at hs
  by_cases h0 : size = 0
  · rw [if_pos h0] at hs
    cases hs
  rw [if_neg h0] at hs
  obtain ⟨⟨s₁, r₁⟩, hs₁, hs⟩ := Option.bind_eq_some_iff.mp hs
  cases r₁ with
  | none =>
    cases hs
    exact ⟨fun _ => findFree_of_allocSmf hs₁, fun q hq => by cases hq⟩
  | some p =>
    simp only at hs
    by_cases hsize : (s₁.smf p).ext.size = roundUp pagesize size
    · rw [if_pos hsize] at hs
      cases hs
      refine ⟨fun hn => (by cases hn), fun q hq => ?_⟩
      cases hq
      rw [set_smf_self]
    · rw [if_neg hsize] at hs
      cases hs

theorem smfAlloc_of_some (h : Inv pagesize C [] s) (hC : FileApart C) (h0 : 0 < size)
    (hpage : roundUp pagesize size % pagesize = 0) (hf : ¬ NoneFree s (roundUp pagesize size))
    (hpos : 0 < roundUp pagesize size) :
    ∃ s₁ q, allocSmf pagesize s (roundUp pagesize size) = some (s₁, some q) ∧
      (s₁.smf q).ext.size = roundUp pagesize size ∧
      smfAlloc pagesize s size =
        some (s₁.set q { s₁.smf q with space := roundUp pagesize size % 2 ^ 32 }, some q) := by
  obtain ⟨s₁, r, hs₁, -, hr⟩ := allocSmf_inv h hC hpage fun hz => by omega
  cases r with
  | none =>
    refine absurd ?_ hf
    rw [← findFree_eq_none_iff h hpage]
    exact findFree_of_allocSmf hs₁
  | some q =>
    obtain ⟨-, hsize⟩ := hr q rfl
    refine ⟨s₁, q, hs₁, hsize, ?_⟩
    rw [smfAlloc]
    simp only [bind, Option.bind]
    rw [if_neg (by omega), hs₁]
    simp only
    rw [if_pos hsize]

/-- When a request of whole pages gets what it should. -/
theorem enoughOrNothing_iff (h : Inv pagesize C [] s) (hC : FileApart C) (hps : 0 < pagesize) (h0 : 0 < size) :
    EnoughOrNothing pagesize t s size ↔
      pagesize ∣ roundUp pagesize size ∧
        (pages pagesize size ≤ roundUp pagesize size ∨ NoneFree s (roundUp pagesize size)) := by
  have hmod : roundUp pagesize size % 2 ^ 32 = roundUp pagesize size := Nat.mod_eq_of_lt (roundUp_lt hps)
  by_cases hpage : roundUp pagesize size % pagesize = 0
  · rw [and_iff_right (Nat.dvd_of_mod_eq_zero hpage)]
    by_cases hf : NoneFree s (roundUp pagesize size)
    · refine iff_of_true ?_ (.inr hf)
      refine ⟨{ t with sm_nreq := t.sm_nreq + 1 }, s, none, ?_, rfl, rfl, rfl⟩
      rw [smfAllocStat, smfAlloc_of_none h h0 hpage hf]
      rfl
    · rw [or_iff_left hf]
      constructor
      · rintro ⟨t', s', r, hs, hr⟩
        obtain ⟨⟨s₁, r₁⟩, hs₁, hs⟩ := Option.bind_eq_some_iff.mp hs
        obtain ⟨hnone, hspace⟩ := smfAlloc_result hs₁
        cases r₁ with
        | none => exact absurd ((findFree_eq_none_iff h hpage).mp (hnone rfl)) hf
        | some q =>
          cases hs
          have henough := hr.enough
          rw [hspace q rfl, hmod] at henough
          exact henough
      · intro hle'
        have hpos : 0 < roundUp pagesize size := (pages_pos hps h0).trans_le hle'
        obtain ⟨s₁, q, hs₁, hsize, hs⟩ := smfAlloc_of_some h hC h0 hpage hf hpos
        obtain ⟨hqu, hqn, b, p, hp, hle, hext⟩ := allocSmf_taken h hpage hs₁
        rw [hmod] at hs
        have hstat : smfAllocStat pagesize t s size = some
            ({ t with
                sm_nreq := t.sm_nreq + 1
                sm_nobj := t.sm_nobj + 1
                sm_balloc := t.sm_balloc + UInt64.ofNat (roundUp pagesize size)
                sm_bfree := t.sm_bfree - UInt64.ofNat (roundUp pagesize size) },
              s₁.set q { s₁.smf q with space := roundUp pagesize size }, some q) := by
          rw [smfAllocStat, hs]
          simp only [bind, Option.bind, set_smf_self, hsize]
        refine ⟨_, _, some q, hstat, ⟨?_, ?_, ⟨hqu, hqn⟩, b, p, hp, ?_⟩⟩
        · rw [set_smf_self]
          exact hle'
        · rw [set_smf_self]
          exact hsize.symm
        · rw [set_smf_self]
          exact ⟨hsize ▸ hle, hsize ▸ hext⟩
  · refine iff_of_false ?_ fun hd => hpage (Nat.mod_eq_zero_of_dvd hd.1)
    rintro ⟨t', s', r, hs, -⟩
    rw [smfAllocStat, smfAlloc] at hs
    simp only [bind, Option.bind] at hs
    rw [if_neg (by omega), allocSmf, if_pos hpage] at hs
    cases hs

/-- **A request of the file storage**: it gets enough space, or nothing and nothing changes, if and only if its size in whole
pages is kept by the mask, or no free segment has what is left of the size.  For a page size that is a power of two, all
sizes are kept whose sum with a page less one byte has 32 bits. -/
theorem smfAllocStat_iff (h : Inv pagesize C [] s) (hC : FileApart C) (hps : 0 < pagesize) (hps' : pagesize < 2 ^ 32)
    (h0 : 0 < size) (t : Stat) :
    (EnoughOrNothing pagesize t s size ↔
      pagesize ∣ roundUp pagesize size ∧
        (pages pagesize size ≤ roundUp pagesize size ∨ NoneFree s (roundUp pagesize size))) ∧
    ∀ k, pagesize = 2 ^ k → (EnoughOrNothing pagesize t s size ↔
      size + (pagesize - 1) < 2 ^ 32 ∨ NoneFree s (pages pagesize size % 2 ^ 32)) := by
  refine ⟨enoughOrNothing_iff h hC hps h0, ?_⟩
  rintro k rfl
  have hk : k < 32 := (Nat.pow_lt_pow_iff_right (by decide)).mp hps'
  have hdvd : 2 ^ k ∣ pages (2 ^ k) size % 2 ^ 32 :=
    (Nat.dvd_mod_iff (Nat.pow_dvd_pow 2 hk.le)).mpr (Nat.dvd_mul_left _ _)
  rw [enoughOrNothing_iff h hC hps h0, roundUp_two_pow hk, and_iff_right hdvd, pages_le_mod_iff hk]

theorem smfAllocStat_iff_chunks : ∃ s, openChunks 4096 chunks = some s ∧ EnoughOrNothing 4096 ⟨0, 0, 0, 1048576⟩ s 100000 := by
  obtain ⟨s, hs, hinv, -⟩ := openChunks_inv chunks_ok
  refine ⟨s, hs, ?_⟩
  exact ((smfAllocStat_iff hinv chunks_ok.fileApart (by decide) (by decide) (by decide) _).2 12 rfl).mpr (.inl (by decide))

/-- A request of five bytes more than 4 GB gets one page. -/
theorem one_page : ∃ s, openChunks 4096 chunks = some s ∧ Inv 4096 chunks [] s ∧
    ¬ EnoughOrNothing 4096 ⟨0, 0, 0, 1048576⟩ s 4294967301 := by
  obtain ⟨s, hs, hinv, -⟩ := openChunks_inv chunks_ok
  refine ⟨s, hs, hinv, ?_⟩
  rintro ⟨t', s', r, hr, hcase⟩
  have hspace : ((openChunks 4096 chunks).bind fun s => (smfAllocStat 4096 ⟨0, 0, 0, 1048576⟩ s 4294967301).map
      fun r => r.2.2.map fun q => (r.2.1.smf q).space) = some (some 4096) := by decide +kernel
  rw [hs, Option.bind_some, hr] at hspace
  cases r with
  | none => cases hspace
  | some q =>
    have hq : (s'.smf q).space = 4096 := Option.some.inj (Option.some.inj hspace)
    have henough := hcase.enough
    rw [hq] at henough
    exact absurd henough (by decide)

end Result

end Varnish.File
