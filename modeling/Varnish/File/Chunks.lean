import Varnish.File.Open

/-!
# Varnish.File.Chunks — how the file of the storage is mapped

`smf_open_chunk` offers a range of the file to `mmap`, and when that fails, each half of it.  The answers of `mmap` are a
parameter, which sees all offers that were made before.

* `smfOpenChunk`: the recursion, with a bound of its depth; `smfOpenChunk_mono`: the bound does not matter.
* `Opened`: what holds of the chunks that were mapped so far.  `smfOpenChunk_spec`: one call keeps it.
* `Part`, `Thorough`: the ranges that are offered.  `smfOpenChunk_thorough`: one call maps its whole range, or gives up.
* `smfOpen_spec`: the storage is opened with chunks that are apart, for any answers.
-/

namespace Varnish.File

open Varnish.Lib

variable {pagesize filesize : ℕ}

/-! ## The recursion -/

section Model

def minpages : ℕ := 128

def ssizeMax : ℕ := 2 ^ 63 - 1

/-- A range that was offered to `mmap`, and its address if it was mapped. -/
structure Offer where
  size : ℕ
  off : ℕ
  ptr : Option ℕ

/-- The range with its address. -/
def Offer.ext (o : Offer) : Option Extent := o.ptr.map fun p => ⟨p, o.off, o.size⟩

/-- The chunks that were mapped, the last one first. -/
def mapped (log : List Offer) : List Extent := log.filterMap Offer.ext

/-- The bytes of all chunks. -/
def bytes : List Extent → ℕ
  | [] => 0
  | e :: l => e.size + bytes l

/-- The variables of `smf_open`, and the offers made so far. -/
structure Opening where
  sc : Sc
  fail : ℕ
  sum : ℕ
  log : List Offer

variable (mmap : List Offer → ℕ → ℕ → Option ℕ) (pagesize)

/-- The call of `mmap`, and whether it was made and succeeded. -/
def offer (st : Opening) (sz off : ℕ) : Option (Opening × Bool) :=
  if sz < st.fail ∧ sz < ssizeMax then
    match mmap st.log sz off with
    | some p => do
      let sc ← newSmf pagesize st.sc ⟨p, off, sz⟩
      some ({ st with sc := sc, sum := st.sum + sz, log := ⟨sz, off, some p⟩ :: st.log }, true)
    | none => some ({ st with log := ⟨sz, off, none⟩ :: st.log }, false)
  else some (st, false)

/-- The first part of a range that is split. -/
def half (sz : ℕ) : ℕ := min (sz / 2) ssizeMax - min (sz / 2) ssizeMax % pagesize

/-- `smf_open_chunk`, at most `n` calls deep -/
def smfOpenChunk : ℕ → ℕ → ℕ → Opening → Option Opening
  | 0, _, _, _ => none
  | n + 1, sz, off, st =>
    if sz = 0 ∨ sz % pagesize ≠ 0 then none
    else if st.fail < pagesize * minpages then some st
    else do
      let (st, ok) ← offer pagesize mmap st sz off
      if ok then some st
      else
        let st ← smfOpenChunk n (half pagesize sz) off { st with fail := min st.fail sz }
        smfOpenChunk n (sz - half pagesize sz) (off + half pagesize sz) st

/-- The call that `smf_open` makes -/
def smfOpen (n filesize : ℕ) : Option Opening := smfOpenChunk pagesize mmap n filesize 0 ⟨emptySc, 2 ^ 30, 0, []⟩

/-- The addresses that `mmap` gives are not those of a chunk that is mapped. -/
def MmapApart : Prop :=
  ∀ log sz off p, mmap log sz off = some p → ∀ e ∈ mapped log,
    (⟨p, off, sz⟩ : Extent).Before e ∨ e.Before ⟨p, off, sz⟩

end Model

/-! ## The depth -/

section Depth

variable {mmap : List Offer → ℕ → ℕ → Option ℕ}

/-- A bound of the depth that is large enough does not matter. -/
theorem smfOpenChunk_mono {n m : ℕ} (hnm : n ≤ m) {sz off : ℕ} {st r : Opening}
    (h : smfOpenChunk pagesize mmap n sz off st = some r) : smfOpenChunk pagesize mmap m sz off st = some r := by
  induction n generalizing m sz off st r with
  | zero => cases h
  | succ n ih =>
    obtain ⟨m, rfl⟩ : ∃ k, m = k + 1 := ⟨m - 1, by omega⟩
    rw [smfOpenChunk] at h ⊢
    by_cases hbad : sz = 0 ∨ sz % pagesize ≠ 0
    · rw [if_pos hbad] at h
      cases h
    rw [if_neg hbad] at h ⊢
    by_cases hlow : st.fail < pagesize * minpages
    · rw [if_pos hlow] at h ⊢
      exact h
    rw [if_neg hlow] at h ⊢
    obtain ⟨⟨st₁, ok⟩, hoff, h⟩ := Option.bind_eq_some_iff.mp h
    rw [hoff]
    refine Option.bind_eq_some_iff.mpr ⟨_, rfl, ?_⟩
    cases ok with
    | true => exact h
    | false =>
      obtain ⟨st₂, hfst, hsnd⟩ := Option.bind_eq_some_iff.mp h
      exact Option.bind_eq_some_iff.mpr ⟨st₂, ih (by omega) hfst, ih (by omega) hsnd⟩

end Depth

/-! ## Halves -/

section Half

variable {sz k : ℕ}

theorem dvd_half (sz : ℕ) : pagesize ∣ half pagesize sz := Nat.dvd_sub_mod _

theorem half_lt (pagesize : ℕ) (h : 0 < sz) : half pagesize sz < sz := by
  unfold half
  omega

/-- A range of so many pages is split in two that have half as many. -/
theorem le_half (hps : pagesize ≤ 2 ^ 23) (hk : k ≤ 64) (h : 2 * k * pagesize ≤ sz) :
    k * pagesize ≤ half pagesize sz ∧ k * pagesize ≤ sz - half pagesize sz := by
  have hmin : k * pagesize ≤ min (sz / 2) ssizeMax := by
    have hbig : k * pagesize ≤ 64 * 2 ^ 23 := Nat.mul_le_mul hk hps
    have hmax : ssizeMax = 2 ^ 63 - 1 := rfl
    have htwo : 2 * k * pagesize = 2 * (k * pagesize) := Nat.mul_assoc ..
    omega
  have hmul : k * pagesize ≤ half pagesize sz := by
    have hdiv : min (sz / 2) ssizeMax / pagesize * pagesize = half pagesize sz := by
      have hadd := Nat.div_add_mod' (min (sz / 2) ssizeMax) pagesize
      unfold half
      omega
    rcases Nat.eq_zero_or_pos pagesize with rfl | hpos
    · exact Nat.zero_le _
    · rw [← hdiv]
      exact Nat.mul_le_mul_right _ ((Nat.le_div_iff_mul_le hpos).mpr hmin)
  refine ⟨hmul, ?_⟩
  have hle : half pagesize sz ≤ sz / 2 := (Nat.sub_le _ _).trans (min_le_left _ _)
  omega

end Half

/-! ## The chunks -/

section Opened

variable {mmap : List Offer → ℕ → ℕ → Option ℕ} {st r : Opening} {sz off p : ℕ}

/-- The chunks mapped so far: each is a part of the file, no range was offered after one failed that is not larger, and the
storage has the chunks. -/
structure Opened (pagesize filesize : ℕ) (st : Opening) : Prop where
  chunks : ChunksOk pagesize (mapped st.log)
  sc : openChunks pagesize (mapped st.log).reverse = some st.sc
  inside : ∀ e ∈ mapped st.log, pagesize ∣ e.off ∧ e.off + e.size ≤ filesize
  failed : ∀ o ∈ st.log, o.ptr = none → st.fail ≤ o.size
  smaller : st.log.reverse.Pairwise fun o o' => o.ptr = none → o'.size < o.size
  sum : st.sum = bytes (mapped st.log)

/-- No chunk has a byte of the range. -/
def Clear (st : Opening) (sz off : ℕ) : Prop := ∀ e ∈ mapped st.log, e.off + e.size ≤ off ∨ off + sz ≤ e.off

/-- What was mapped since is in the range. -/
def Within (st r : Opening) (sz off : ℕ) : Prop :=
  r.fail ≤ st.fail ∧ ∃ l, r.log = l ++ st.log ∧ ∀ e ∈ mapped l, off ≤ e.off ∧ e.off + e.size ≤ off + sz

theorem Opened.fail_le (h : Opened pagesize filesize st) {n : ℕ} (hn : n ≤ st.fail) :
    Opened pagesize filesize { st with fail := n } :=
  ⟨h.chunks, h.sc, h.inside, fun o ho hp => hn.trans (h.failed o ho hp), h.smaller, h.sum⟩

/-- The range is smaller than all that failed. -/
theorem Opened.pairwise_cons (h : Opened pagesize filesize st) (hlt : sz < st.fail) (a : Option ℕ) :
    (⟨sz, off, a⟩ :: st.log).reverse.Pairwise fun o o' : Offer => o.ptr = none → o'.size < o.size := by
  rw [List.reverse_cons, List.pairwise_append]
  refine ⟨h.smaller, List.pairwise_singleton _ _, fun o ho o' ho' hp => ?_⟩
  cases List.mem_singleton.mp ho'
  exact hlt.trans_le (h.failed o (List.mem_reverse.mp ho) hp)

/-- A range that could not be mapped. -/
theorem Opened.refused (h : Opened pagesize filesize st) (hlt : sz < st.fail) :
    Opened pagesize filesize { st with log := ⟨sz, off, none⟩ :: st.log, fail := sz } := by
  refine ⟨h.chunks, h.sc, h.inside, fun o ho hp => ?_, h.pairwise_cons hlt none, h.sum⟩
  rcases List.mem_cons.mp ho with rfl | ho
  · exact le_refl sz
  · exact hlt.le.trans (h.failed o ho hp)

/-- A range that was mapped goes to the storage. -/
theorem Opened.mapped (hmmap : MmapApart mmap) (h : Opened pagesize filesize st) (hlt : sz < st.fail) (h0 : 0 < sz)
    (hsz : pagesize ∣ sz) (hoff : pagesize ∣ off) (hin : off + sz ≤ filesize) (hclear : Clear st sz off)
    (hp : mmap st.log sz off = some p) :
    ∃ sc, newSmf pagesize st.sc ⟨p, off, sz⟩ = some sc ∧
      Opened pagesize filesize { st with sc := sc, sum := st.sum + sz, log := ⟨sz, off, some p⟩ :: st.log } := by
  have hok : ChunksOk pagesize (⟨p, off, sz⟩ :: File.mapped st.log) := by
    refine ⟨fun e he => ?_, List.pairwise_cons.mpr ⟨hmmap _ _ _ _ hp, h.chunks.mem⟩,
      List.pairwise_cons.mpr ⟨fun e he => (hclear e he).symm, h.chunks.file⟩⟩
    rcases List.mem_cons.mp he with rfl | he
    · exact ⟨h0, hsz⟩
    · exact h.chunks.size e he
  obtain ⟨sc, hsc, -, -⟩ := openChunks_inv hok.reverse
  have hnew : newSmf pagesize st.sc ⟨p, off, sz⟩ = some sc := by
    have hlast := hsc
    rw [List.reverse_cons, openChunks, List.foldlM_append] at hlast
    obtain ⟨sc', hsc', hlast⟩ := Option.bind_eq_some_iff.mp hlast
    rw [← openChunks, h.sc] at hsc'
    cases hsc'
    obtain ⟨sc'', hsc'', hlast⟩ := Option.bind_eq_some_iff.mp hlast
    cases hlast
    exact hsc''
  refine ⟨sc, hnew, hok, hsc, fun e he => ?_, fun o ho hp => ?_, h.pairwise_cons hlt _, ?_⟩
  · rcases List.mem_cons.mp he with rfl | he
    · exact ⟨hoff, hin⟩
    · exact h.inside e he
  · rcases List.mem_cons.mp ho with rfl | ho
    · cases hp
    · exact h.failed o ho hp
  · change st.sum + sz = sz + bytes (File.mapped st.log)
    rw [h.sum, Nat.add_comm]

theorem Clear.sub {sz' off' : ℕ} (h : Clear st sz off) (hlo : off ≤ off') (hhi : off' + sz' ≤ off + sz) :
    Clear st sz' off' := by
  intro e he
  have hcase := h e he
  omega

theorem Clear.within {sz' off' : ℕ} (h : Clear st sz off) (hw : Within st r sz' off')
    (hd : off' + sz' ≤ off ∨ off + sz ≤ off') : Clear r sz off := by
  obtain ⟨-, l, hl, hin⟩ := hw
  intro e he
  rw [mapped, hl, List.filterMap_append] at he
  rcases List.mem_append.mp he with he | he
  · have hcase := hin e he
    omega
  · exact h e he

theorem Within.trans {st' : Opening} {sz₁ off₁ sz₂ off₂ : ℕ} (h₁ : Within st st' sz₁ off₁) (h₂ : Within st' r sz₂ off₂)
    (hlo₁ : off ≤ off₁) (hhi₁ : off₁ + sz₁ ≤ off + sz) (hlo₂ : off ≤ off₂) (hhi₂ : off₂ + sz₂ ≤ off + sz) :
    Within st r sz off := by
  obtain ⟨hf₁, l₁, hl₁, hin₁⟩ := h₁
  obtain ⟨hf₂, l₂, hl₂, hin₂⟩ := h₂
  refine ⟨hf₂.trans hf₁, l₂ ++ l₁, by rw [hl₂, hl₁, List.append_assoc], fun e he => ?_⟩
  rw [mapped, List.filterMap_append] at he
  rcases List.mem_append.mp he with he | he
  · have hcase := hin₂ e he
    omega
  · have hcase := hin₁ e he
    omega

end Opened

/-! ## One call -/

section Call

variable {mmap : List Offer → ℕ → ℕ → Option ℕ} {st : Opening} {sz off : ℕ}

/-- The call of `mmap` keeps what holds of the chunks, also when a failure lowers the bound. -/
theorem offer_spec (hmmap : MmapApart mmap) (h : Opened pagesize filesize st) (h0 : 0 < sz) (hsz : pagesize ∣ sz)
    (hoff : pagesize ∣ off) (hin : off + sz ≤ filesize) (hclear : Clear st sz off) :
    (∃ st', offer pagesize mmap st sz off = some (st', true) ∧ Opened pagesize filesize st' ∧ Within st st' sz off) ∨
    ∃ st', offer pagesize mmap st sz off = some (st', false) ∧
      Opened pagesize filesize { st' with fail := min st'.fail sz } ∧
      Within st { st' with fail := min st'.fail sz } 0 off ∧ min st'.fail sz ≤ sz := by
  rw [offer]
  by_cases hlt : sz < st.fail ∧ sz < ssizeMax
  · rw [if_pos hlt]
    cases hp : mmap st.log sz off with
    | some p =>
      obtain ⟨sc, hsc, hopen⟩ := h.mapped hmmap hlt.1 h0 hsz hoff hin hclear hp
      refine .inl ⟨_, Option.bind_eq_some_iff.mpr ⟨sc, hsc, rfl⟩, hopen, le_refl _, [⟨sz, off, some p⟩], rfl, fun e he => ?_⟩
      cases List.mem_singleton.mp he
      exact ⟨le_refl _, le_refl _⟩
    | none =>
      have hmin : min st.fail sz = sz := min_eq_right hlt.1.le
      refine .inr ⟨_, rfl, ?_, ⟨min_le_left _ _, [⟨sz, off, none⟩], rfl, fun e he => ?_⟩, min_le_right _ _⟩
      · rw [hmin]
        exact h.refused hlt.1
      · cases he
  · rw [if_neg hlt]
    exact .inr ⟨st, rfl, h.fail_le (min_le_left _ _), ⟨min_le_left _ _, [], rfl, fun e he => by cases he⟩, min_le_right _ _⟩

/-- One call, on a range of the file that has at least 64 pages as long as ranges are offered. -/
theorem smfOpenChunk_spec (hmmap : MmapApart mmap) (hps : pagesize ≤ 2 ^ 23) {n : ℕ} (hn : sz ≤ n)
    (h : Opened pagesize filesize st) (h0 : 0 < sz) (hsz : pagesize ∣ sz) (hoff : pagesize ∣ off) (hin : off + sz ≤ filesize)
    (hbig : pagesize * minpages ≤ st.fail → 64 * pagesize ≤ sz) (hclear : Clear st sz off) :
    ∃ r, smfOpenChunk pagesize mmap n sz off st = some r ∧ Opened pagesize filesize r ∧ Within st r sz off := by
  induction n generalizing sz off st with
  | zero => omega
  | succ n ih =>
    have hmod : sz % pagesize = 0 := Nat.mod_eq_zero_of_dvd hsz
    rw [smfOpenChunk, if_neg (by omega)]
    by_cases hlow : st.fail < pagesize * minpages
    · rw [if_pos hlow]
      exact ⟨st, rfl, h, le_refl _, [], rfl, fun e he => by cases he⟩
    rw [if_neg hlow]
    have h64 := hbig (Nat.le_of_not_lt hlow)
    rcases offer_spec hmmap h h0 hsz hoff hin hclear with ⟨st', hoffer, hopen, hw⟩ | ⟨st', hoffer, hopen, hw, hle⟩
    · rw [hoffer]
      exact ⟨st', rfl, hopen, hw⟩
    · rw [hoffer]
      set st₁ : Opening := { st' with fail := min st'.fail sz } with hst₁
      have hpos : 0 < pagesize := Nat.pos_of_dvd_of_pos hsz h0
      have h32 : 32 * pagesize ≤ half pagesize sz ∧ 32 * pagesize ≤ sz - half pagesize sz :=
        le_half hps (by decide) (by omega)
      have hlt := half_lt pagesize h0
      -- as long as ranges are offered, what failed had as many pages as the bound, and so each half has 64
      have hhalf : pagesize * minpages ≤ st₁.fail →
          64 * pagesize ≤ half pagesize sz ∧ 64 * pagesize ≤ sz - half pagesize sz := by
        intro hfail
        have hmin : pagesize * minpages = 128 * pagesize := Nat.mul_comm ..
        have hle₁ : st₁.fail ≤ sz := hle
        exact le_half hps (by decide) (by omega)
      have hclear₁ : Clear st₁ sz off := hclear.within hw (.inl (by omega))
      obtain ⟨st₂, hrun₁, hopen₂, hw₂⟩ := ih (by omega) hopen (by omega) (dvd_half sz) hoff (by omega)
        (fun hf => (hhalf hf).1) (hclear₁.sub (le_refl off) (by omega))
      have hclear₂ : Clear st₂ (sz - half pagesize sz) (off + half pagesize sz) :=
        (hclear₁.sub (by omega) (by omega)).within hw₂ (.inl (le_refl _))
      obtain ⟨r, hrun₂, hopen₃, hw₃⟩ := ih (by omega) hopen₂ (by omega) (Nat.dvd_sub hsz (dvd_half sz))
        (Nat.dvd_add hoff (dvd_half sz)) (by omega) (fun hf => (hhalf (hf.trans hw₂.1)).2) hclear₂
      refine ⟨r, ?_, hopen₃, ?_⟩
      · exact Option.bind_eq_some_iff.mpr ⟨_, rfl, Option.bind_eq_some_iff.mpr ⟨st₂, hrun₁, hrun₂⟩⟩
      · have hboth : Within st₁ r sz off := hw₂.trans hw₃ (le_refl off) (by omega) (by omega) (by omega)
        exact hw.trans hboth (le_refl off) (by omega) (le_refl off) (le_refl _)

end Call

/-! ## The offers -/

section Offers

/-- The ranges that the recursion comes to: the file, and the two parts of each. -/
inductive Part (pagesize filesize : ℕ) : ℕ → ℕ → Prop
  | file : Part pagesize filesize filesize 0
  | left {sz off : ℕ} : Part pagesize filesize sz off → Part pagesize filesize (half pagesize sz) off
  | right {sz off : ℕ} : Part pagesize filesize sz off →
      Part pagesize filesize (sz - half pagesize sz) (off + half pagesize sz)

/-- What was offered are such ranges, and the bound is the one of `smf_open` or the size of a range that `mmap` refused. -/
structure Thorough (pagesize filesize : ℕ) (st : Opening) : Prop where
  part : ∀ o ∈ st.log, Part pagesize filesize o.size o.off
  le : st.fail ≤ 2 ^ 30
  fail : st.fail = 2 ^ 30 ∨ ∃ o ∈ st.log, o.ptr = none ∧ o.size = st.fail

variable {mmap : List Offer → ℕ → ℕ → Option ℕ} {st st' r : Opening} {sz off n : ℕ}

theorem offer_mapped (h : offer pagesize mmap st sz off = some (st', true)) :
    st'.fail = st.fail ∧ st'.sum = st.sum + sz ∧ ∃ p, st'.log = ⟨sz, off, some p⟩ :: st.log := by
  rw [offer] at h
  by_cases hlt : sz < st.fail ∧ sz < ssizeMax
  · rw [if_pos hlt] at h
    cases hp : mmap st.log sz off with
    | some p =>
      rw [hp] at h
      obtain ⟨sc, -, h⟩ := Option.bind_eq_some_iff.mp h
      cases h
      exact ⟨rfl, rfl, p, rfl⟩
    | none =>
      rw [hp] at h
      cases h
  · rw [if_neg hlt] at h
    cases h

/-- A range that is not mapped was refused, or is not smaller than the bound. -/
theorem offer_left (hfail : st.fail ≤ 2 ^ 30) (h : offer pagesize mmap st sz off = some (st', false)) :
    st'.fail = st.fail ∧ st'.sum = st.sum ∧ ((sz < st.fail ∧ st'.log = ⟨sz, off, none⟩ :: st.log) ∨
      (st.fail ≤ sz ∧ st'.log = st.log)) := by
  have hmax : ssizeMax = 2 ^ 63 - 1 := rfl
  rw [offer] at h
  by_cases hlt : sz < st.fail ∧ sz < ssizeMax
  · rw [if_pos hlt] at h
    cases hp : mmap st.log sz off with
    | some p =>
      rw [hp] at h
      obtain ⟨sc, -, h⟩ := Option.bind_eq_some_iff.mp h
      cases h
    | none =>
      rw [hp] at h
      cases h
      exact ⟨rfl, rfl, .inl ⟨hlt.1, rfl⟩⟩
  · rw [if_neg hlt] at h
    cases h
    exact ⟨rfl, rfl, .inr ⟨by omega, rfl⟩⟩

theorem Thorough.mapped (ht : Thorough pagesize filesize st) (hpart : Part pagesize filesize sz off)
    (h : offer pagesize mmap st sz off = some (st', true)) : Thorough pagesize filesize st' := by
  obtain ⟨hfail, -, p, hlog⟩ := offer_mapped h
  refine ⟨fun o ho => ?_, hfail ▸ ht.le, ?_⟩
  · rw [hlog] at ho
    rcases List.mem_cons.mp ho with rfl | ho
    · exact hpart
    · exact ht.part o ho
  · rw [hfail, hlog]
    exact ht.fail.imp_right fun ⟨o, ho, hno⟩ => ⟨o, List.mem_cons_of_mem _ ho, hno⟩

theorem Thorough.left (ht : Thorough pagesize filesize st) (hpart : Part pagesize filesize sz off)
    (h : offer pagesize mmap st sz off = some (st', false)) :
    Thorough pagesize filesize { st' with fail := min st'.fail sz } := by
  obtain ⟨hfail, -, ⟨hlt, hlog⟩ | ⟨hle, hlog⟩⟩ := offer_left ht.le h
  · refine ⟨fun o ho => ?_, (min_le_left _ _).trans (hfail ▸ ht.le), .inr ⟨⟨sz, off, none⟩, ?_, rfl, ?_⟩⟩
    · rcases List.mem_cons.mp (hlog ▸ ho) with rfl | ho
      · exact hpart
      · exact ht.part o ho
    · exact hlog ▸ List.mem_cons_self
    · exact (min_eq_right (hfail ▸ hlt.le)).symm
  · have hmin : min st'.fail sz = st.fail := by rw [hfail, min_eq_left hle]
    refine ⟨fun o ho => ht.part o (hlog ▸ ho), ?_, ?_⟩
    · exact hmin ▸ ht.le
    · rcases ht.fail with hstart | ⟨o, ho, hno, hsize⟩
      · exact .inl (hmin.trans hstart)
      · exact .inr ⟨o, hlog ▸ ho, hno, hsize.trans hmin.symm⟩

/-- One call maps its whole range, as long as the bound has the least number of pages. -/
theorem smfOpenChunk_thorough (ht : Thorough pagesize filesize st) (hpart : Part pagesize filesize sz off)
    (h : smfOpenChunk pagesize mmap n sz off st = some r) :
    Thorough pagesize filesize r ∧ r.fail ≤ st.fail ∧ (r.fail < pagesize * minpages ∨ r.sum = st.sum + sz) := by
  induction n generalizing sz off st r with
  | zero => cases h
  | succ n ih =>
    rw [smfOpenChunk] at h
    by_cases hbad : sz = 0 ∨ sz % pagesize ≠ 0
    · rw [if_pos hbad] at h
      cases h
    rw [if_neg hbad] at h
    by_cases hlow : st.fail < pagesize * minpages
    · rw [if_pos hlow] at h
      cases h
      exact ⟨ht, le_refl _, .inl hlow⟩
    rw [if_neg hlow] at h
    obtain ⟨⟨st₁, ok⟩, hoff, h⟩ := Option.bind_eq_some_iff.mp h
    cases ok with
    | true =>
      cases h
      obtain ⟨hfail, hsum, -⟩ := offer_mapped hoff
      exact ⟨ht.mapped hpart hoff, hfail.le, .inr hsum⟩
    | false =>
      obtain ⟨st₂, hfst, hsnd⟩ := Option.bind_eq_some_iff.mp h
      obtain ⟨hfail, hsum, -⟩ := offer_left ht.le hoff
      obtain ⟨ht₂, hle₂, hsum₂⟩ := ih (ht.left hpart hoff) hpart.left hfst
      obtain ⟨ht₃, hle₃, hsum₃⟩ := ih ht₂ hpart.right hsnd
      have hle₁ : st₂.fail ≤ st.fail := hle₂.trans ((min_le_left _ _).trans hfail.le)
      refine ⟨ht₃, hle₃.trans hle₁, ?_⟩
      -- the bound only falls, so that both parts are whole where it is not low at the end
      rcases hsum₃ with hlow₃ | hsum₃
      · exact .inl hlow₃
      rcases hsum₂ with hlow₂ | hsum₂
      · exact .inl (hle₃.trans_lt hlow₂)
      · have hhalf : half pagesize sz ≤ sz := (half_lt pagesize (by omega)).le
        have hsum₂ : st₂.sum = st₁.sum + half pagesize sz := hsum₂
        exact .inr (by omega)

end Offers

/-! ## The result -/

section Result

variable {mmap : List Offer → ℕ → ℕ → Option ℕ}

/-- **The storage file is mapped in chunks**: for any answers of `mmap`, the recursion ends without a failed assertion, at a
depth below the size of the file.  What was mapped are whole pages of the file in places of their own, and the storage has
them; no range was offered after one failed that is not larger.  The ranges are the file and its parts, and all of it is mapped
if no range was refused that has less than 128 pages. -/
theorem smfOpen_spec (hmmap : MmapApart mmap) (hps : 0 < pagesize ∧ pagesize ≤ 2 ^ 23) (hdvd : pagesize ∣ filesize)
    (hmin : minpages * pagesize ≤ filesize) :
    ∃ r, (∀ n, filesize ≤ n → smfOpen pagesize mmap n filesize = some r) ∧ Opened pagesize filesize r ∧
      Thorough pagesize filesize r ∧
        (r.sum = filesize ∨ ∃ o ∈ r.log, o.ptr = none ∧ o.size < pagesize * minpages) := by
  have h0 : 0 < filesize := (Nat.mul_pos (by decide) hps.1).trans_le hmin
  have hstart : Opened pagesize filesize ⟨emptySc, 2 ^ 30, 0, []⟩ :=
    ⟨⟨fun e he => (by cases he), List.Pairwise.nil, List.Pairwise.nil⟩, rfl, fun e he => (by cases he), fun o ho => (by cases ho),
      List.Pairwise.nil, rfl⟩
  have hbig : 64 * pagesize ≤ filesize := (Nat.mul_le_mul_right _ (by decide)).trans hmin
  obtain ⟨r, hr, hopen, -⟩ := smfOpenChunk_spec hmmap hps.2 (le_refl filesize) hstart h0 hdvd (Nat.dvd_zero pagesize)
    (by omega) (fun _ => hbig) fun e he => (by cases he)
  have hbound : pagesize * minpages ≤ 2 ^ 30 := Nat.mul_le_mul_right minpages hps.2
  obtain ⟨ht, -, hsum⟩ := smfOpenChunk_thorough ⟨fun o ho => (by cases ho), le_refl _, .inl rfl⟩ .file hr
  refine ⟨r, fun n hn => smfOpenChunk_mono hn hr, hopen, ht, ?_⟩
  rcases hsum with hlow | hsum
  · rcases ht.fail with hfail | ⟨o, ho, hno, hsize⟩
    · omega
    · exact .inr ⟨o, ho, hno, hsize ▸ hlow⟩
  · exact .inl (hsum.trans (Nat.zero_add _))

/-- The end of all chunks in memory. -/
def top : List Extent → ℕ
  | [] => 0
  | e :: l => max (e.ptr + e.size) (top l)

theorem le_top {l : List Extent} {e : Extent} (he : e ∈ l) : e.ptr + e.size ≤ top l := by
  induction l with
  | nil => cases he
  | cons f l ih =>
    rw [top]
    rcases List.mem_cons.mp he with rfl | he
    · exact le_max_left _ _
    · exact (ih he).trans (le_max_right _ _)

/-- Ranges of at most 400000 bytes are mapped, behind all that is mapped. -/
def mmapSmall (log : List Offer) (sz _off : ℕ) : Option ℕ := if sz ≤ 400000 then some (top (mapped log)) else none

theorem mmapSmall_apart : MmapApart mmapSmall := by
  intro log sz off p hp e he
  rw [mmapSmall] at hp
  by_cases hsz : sz ≤ 400000
  · rw [if_pos hsz] at hp
    cases hp
    exact .inr (le_top he)
  · rw [if_neg hsz] at hp
    cases hp

/-- The file is split two times. -/
theorem smfOpen_spec_small : ∃ r, smfOpen 4096 mmapSmall 1048576 1048576 = some r ∧ Opened 4096 1048576 r ∧
    Thorough 4096 1048576 r ∧ (r.sum = 1048576 ∨ ∃ o ∈ r.log, o.ptr = none ∧ o.size < 4096 * minpages) := by
  obtain ⟨r, hr, hopen, ht, hsum⟩ :=
    smfOpen_spec mmapSmall_apart (by decide : 0 < 4096 ∧ 4096 ≤ 2 ^ 23) (by decide : 4096 ∣ 1048576) (by decide)
  exact ⟨r, hr _ (le_refl _), hopen, ht, hsum⟩

end Result

end Varnish.File
