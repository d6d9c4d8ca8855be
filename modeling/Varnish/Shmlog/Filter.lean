import Mathlib.Data.List.Nodup
import Varnish.Shmlog.Bitmap
import Varnish.Shmlog.Model

/-!
# Varnish.Shmlog.Filter — which records a reader is shown

`VSL_NextLog` of `lib/libvarnishapi/shmlog.c`, over the entries that `vsl_nextlog` takes from the log.  The regular
expressions are parameters.

* `vslNextLog`, `vslDispatch`: the next entry that is shown, and all of them.
* `sided`: the entries, each with its side and the one that the bitmaps have.
* `expected`: what the options ask for.  `Follows`: that is what is shown.
* `EntryOk`: the options go together for this entry.  `follows_iff`: when the options are followed.
-/

namespace Varnish.Shmlog

/-! ## The reader -/

section Model

def sltSessionOpen : UInt8 := 6

def sltBackendOpen : UInt8 := 8

def sltBackendXID : UInt8 := 9

def sltReqStart : UInt8 := 41

inductive Side where
  | client
  | backend
deriving DecidableEq

/-- A regular expression: the texts that it matches, and what `VRE_exec` answers when the length is negative. -/
structure Vre where
  text : List UInt8 → Bool
  short : List UInt8 → Bool

/-- `VRE_exec`, which is given the length `SHMLOG_LEN(p) - SHMLOG_DATA`; whether the answer is not `VRE_ERROR_NOMATCH`. -/
def vreExec (re : Vre) (data : List UInt8) : Bool :=
  if data.length < 7 then re.short data else re.text (data.take (data.length - 7))

/-- The options of a `struct VSL_data`. -/
structure Opts where
  bOpt : Bool
  cOpt : Bool
  vbmSelect : UInt8 → Bool
  vbmSupress : UInt8 → Bool
  regincl : Option Vre
  regexcl : Option Vre

/-- What changes in a `struct VSL_data`. -/
structure VslData where
  vbmClient : Vbitmap
  vbmBackend : Vbitmap
  skip : ℕ
  keep : ℕ

/-- The switch of `VSL_NextLog`; `none` is the assertion of `vbit_expand`. -/
def mark (vd : VslData) (e : Entry) : Option VslData :=
  if e.tag = sltSessionOpen ∨ e.tag = sltReqStart then
    (vbitSet vd.vbmClient e.id).map fun vb => { vd with vbmClient := vb, vbmBackend := vbitClr vd.vbmBackend e.id }
  else if e.tag = sltBackendOpen ∨ e.tag = sltBackendXID then
    (vbitSet vd.vbmBackend e.id).map fun vb => { vd with vbmClient := vbitClr vd.vbmClient e.id, vbmBackend := vb }
  else some vd

def VslData.skipped (vd : VslData) : VslData := { vd with skip := vd.skip - 1 }

def VslData.kept (vd : VslData) : VslData := { vd with keep := vd.keep - 1 }

variable (o : Opts)

/-- The tests with regular expressions; `none` is the assertion of `VRE_exec`, which is given `regincl` both times. -/
def vreTests (data : List UInt8) : Option Bool :=
  match o.regincl, o.regexcl with
  | none, none => some true
  | none, some _ => none
  | some re, none => some (vreExec re data)
  | some re, some _ => if vreExec re data = false then some false else some (!vreExec re data)

/-- The tests of `VSL_NextLog` on an entry. -/
def admits (client backend : Bool) (e : Entry) : Option Bool :=
  if o.vbmSelect e.tag then some true
  else if o.vbmSupress e.tag then some false
  else if o.bOpt ∧ backend = false then some false
  else if o.cOpt ∧ client = false then some false
  else vreTests o e.data

/-- `VSL_NextLog`; the result has the entry, if there is one, and the rest of the log. -/
def vslNextLog : VslData → List Entry → Option (Option Entry × VslData × List Entry)
  | vd, [] => some (none, vd, [])
  | vd, e :: es =>
    match mark vd e with
    | none => none
    | some vd =>
      if 0 < vd.skip then vslNextLog vd.skipped es
      else if vd.keep = 1 then some (none, vd.kept, es)
      else
        match admits o (vbitTest vd.vbmClient e.id) (vbitTest vd.vbmBackend e.id) e with
        | none => none
        | some true => some (some e, vd.kept, es)
        | some false => vslNextLog vd.kept es

/-- The side that `VSL_H_Print` shows. -/
def VslData.side (vd : VslData) (id : ℕ) : Option Side :=
  if vbitTest vd.vbmClient id then some .client else if vbitTest vd.vbmBackend id then some .backend else none

/-- What `VSL_Dispatch` hands on: the entry, the number of entries behind it, which is where it is in the log, and the side. -/
structure Shown where
  entry : Entry
  behind : ℕ
  side : Option Side
deriving DecidableEq

/-- `VSL_Dispatch`, at most `n` rounds of it. -/
def vslDispatch : ℕ → VslData → List Entry → Option (List Shown)
  | 0, _, _ => none
  | n + 1, vd, es =>
    match vslNextLog o vd es with
    | none => none
    | some (none, _, _) => some []
    | some (some e, vd, es) => (vslDispatch n vd es).map (⟨e, es.length, vd.side e.id⟩ :: ·)

/-- A `struct VSL_data` before the first entry, as `VSL_New` makes it. -/
def vslStart (skip keep : ℕ) : VslData := ⟨vbitInit 4096, vbitInit 4096, skip, keep⟩

end Model

/-! ## The options -/

section Spec

def sideOf (tag : UInt8) : Option Side :=
  if tag = sltSessionOpen ∨ tag = sltReqStart then some .client
  else if tag = sltBackendOpen ∨ tag = sltBackendXID then some .backend
  else none

/-- The side of an identifier: the last entry says so that opens it; `hist` has the last one first. -/
def side (hist : List Entry) (id : ℕ) : Option Side := hist.findSome? fun e => if e.id = id then sideOf e.tag else none

/-- An opening that the bitmap of its side does not keep: of an identifier from 4096 on that is a multiple of 1024, and that no
entry has opened something above before, on the same side. -/
def Lost (s : Side) (hist : List Entry) (id : ℕ) : Prop :=
  4096 ≤ id ∧ vbitmapLump ∣ id ∧ ∀ e ∈ hist, sideOf e.tag = some s → e.id ≤ id

instance (s : Side) (hist : List Entry) (id : ℕ) : Decidable (Lost s hist id) :=
  inferInstanceAs (Decidable (_ ∧ _ ∧ _))

/-- The side of an identifier as the bitmaps have it. -/
def mapped : List Entry → ℕ → Option Side
  | [], _ => none
  | e :: hist, id =>
    match sideOf e.tag with
    | none => mapped hist id
    | some s => if e.id = id then if Lost s hist id then none else some s else mapped hist id

/-- An entry, the number of entries behind it, its side, and the side that the bitmaps have. -/
structure Sided where
  entry : Entry
  behind : ℕ
  side : Option Side
  mapped : Option Side
deriving DecidableEq

def sided (hist : List Entry) : List Entry → List Sided
  | [] => []
  | e :: es => ⟨e, es.length, side (e :: hist) e.id, mapped (e :: hist) e.id⟩ :: sided (e :: hist) es

variable (o : Opts)

/-- Without `-b` and `-c`, both are meant. -/
def wanted (s : Option Side) : Bool :=
  (!o.bOpt && !o.cOpt) || (o.bOpt && s = some .backend) || (o.cOpt && s = some .client)

/-- The contents match as they should. -/
def passes (data : List UInt8) : Bool := o.regincl.all (fun re => re.text data) && o.regexcl.all fun re => !re.text data

def accepted (x : Sided) : Bool :=
  o.vbmSelect x.entry.tag || (!o.vbmSupress x.entry.tag && wanted o x.side && passes o x.entry.data)

/-- The entries behind those that are skipped, at most `keep` of them if that is not zero. -/
def window (skip keep : ℕ) (es : List Entry) : List Sided :=
  if keep = 0 then (sided [] es).drop skip else ((sided [] es).drop skip).take keep

/-- What the options ask for: entries, each with its place. -/
def expected (skip keep : ℕ) (es : List Entry) : List (Entry × ℕ) :=
  ((window skip keep es).filter (accepted o)).map fun x => (x.entry, x.behind)

/-- The options are followed. -/
def Follows (skip keep : ℕ) (es : List Entry) : Prop :=
  ∃ n₀, ∀ n, n₀ ≤ n →
    (vslDispatch o n (vslStart skip keep) es).map (·.map fun r => (r.entry, r.behind)) = some (expected o skip keep es)

/-- The bitmaps have the side, or the sides, that the options ask for. -/
def Asked (s : Option Side) : Prop := (o.bOpt = true → s = some .backend) ∧ (o.cOpt = true → s = some .client)

/-- The options go together for an entry that is neither selected nor suppressed: when the bitmaps do not have the sides asked
for, which with both `-b` and `-c` they never do, it is not accepted; when they do, `-I` agrees on the contents without their
last 7 bytes, and with `-X` there is `-I`, and the contents do not pass. -/
def EntryOk (x : Sided) : Prop :=
  o.vbmSelect x.entry.tag = false → o.vbmSupress x.entry.tag = false →
    (¬ Asked o x.mapped → wanted o x.side = true → passes o x.entry.data = false) ∧
    (Asked o x.mapped →
      (∀ re ∈ o.regincl, o.regexcl = none → vreExec re x.entry.data = re.text x.entry.data) ∧
      (o.regexcl ≠ none → o.regincl ≠ none ∧ passes o x.entry.data = false))

/-- An entry that the bitmaps have room for, if it opens something. -/
def Markable (e : Entry) : Prop := sideOf e.tag ≠ none → e.id + (vbitmapLump - 1) < 2 ^ 32

instance (e : Entry) : Decidable (Markable e) := inferInstanceAs (Decidable (_ → _))

/-- The entries that are taken from the log. -/
def taken (skip keep : ℕ) (es : List Entry) : List Entry := if keep = 0 then es else es.take (skip + keep)

end Spec

variable {o : Opts} {vd : VslData} {e : Entry} {es hist : List Entry} {x : Sided} {n : ℕ}

/-! ## One entry -/

section One

/-- The tests on an entry, of which the side is known. -/
def judge (o : Opts) (x : Sided) : Option Bool := admits o (x.mapped = some .client) (x.mapped = some .backend) x.entry

theorem vreTests_iff (o : Opts) (data : List UInt8) :
    vreTests o data = some (passes o data) ↔
      (∀ re ∈ o.regincl, o.regexcl = none → vreExec re data = re.text data) ∧
        (o.regexcl ≠ none → o.regincl ≠ none ∧ passes o data = false) := by
  rw [vreTests, passes]
  cases o.regincl with
  | none =>
    cases o.regexcl with
    | none => simp
    | some rx => simp
  | some re =>
    cases o.regexcl with
    | none => simp
    | some rx =>
      -- the second test is the opposite of the first one
      have hfalse : (if vreExec re data = false then some false else some (!vreExec re data)) = some false := by
        cases vreExec re data <;> rfl
      simp only [hfalse]
      constructor
      · intro h
        exact ⟨fun re' _ hx => (by cases hx), fun _ => ⟨Option.some_ne_none re, (Option.some.inj h).symm⟩⟩
      · intro h
        rw [(h.2 (Option.some_ne_none rx)).2]

theorem side_cons (e : Entry) (hist : List Entry) (id : ℕ) :
    side (e :: hist) id = if e.id = id then (sideOf e.tag).or (side hist id) else side hist id := by
  rw [side, List.findSome?_cons]
  by_cases hid : e.id = id
  · rw [if_pos hid, if_pos hid]
    cases sideOf e.tag <;> rfl
  · rw [if_neg hid, if_neg hid]
    rfl

/-- The bitmaps have the side of an identifier or none. -/
theorem mapped_eq (hist : List Entry) (id : ℕ) : mapped hist id = side hist id ∨ mapped hist id = none := by
  induction hist with
  | nil => exact Or.inl rfl
  | cons e hist ih =>
    rw [mapped, side_cons]
    cases sideOf e.tag with
    | none =>
      rw [Option.none_or, ite_self]
      exact ih
    | some s =>
      by_cases hid : e.id = id
      · simp only [if_pos hid, Option.some_or]
        split
        · exact Or.inr rfl
        · exact Or.inl rfl
      · simp only [if_neg hid]
        exact ih

/-- An entry of which the bitmaps have the sides asked for is wanted. -/
theorem asked_wanted (hx : x.mapped = x.side ∨ x.mapped = none) (hasked : Asked o x.mapped) : wanted o x.side = true := by
  obtain ⟨hb, hc⟩ := hasked
  rw [wanted]
  rcases hx with hx | hx
  · rw [hx] at hb hc
    cases hbo : o.bOpt with
    | true => simp [hb hbo]
    | false =>
      cases hco : o.cOpt with
      | true => simp [hc hco]
      | false => simp
  · rw [hx] at hb hc
    have hbo : o.bOpt = false := Bool.eq_false_iff.mpr fun h => (Option.some_ne_none _) (hb h).symm
    have hco : o.cOpt = false := Bool.eq_false_iff.mpr fun h => (Option.some_ne_none _) (hc h).symm
    simp [hbo, hco]

theorem judge_iff (o : Opts) (hx : x.mapped = x.side ∨ x.mapped = none) :
    judge o x = some (accepted o x) ↔ EntryOk o x := by
  rw [judge, admits, EntryOk, accepted]
  cases hsel : o.vbmSelect x.entry.tag with
  | true => simp
  | false =>
    cases hsup : o.vbmSupress x.entry.tag with
    | true => simp
    | false =>
      simp only [Bool.false_eq_true, if_false, Bool.not_false, Bool.true_and, Bool.false_or, forall_const]
      by_cases hasked : Asked o x.mapped
      · have hwanted : wanted o x.side = true := asked_wanted hx hasked
        rw [if_neg (fun h => absurd (hasked.1 h.1) (of_decide_eq_false h.2)),
          if_neg (fun h => absurd (hasked.2 h.1) (of_decide_eq_false h.2)), hwanted, Bool.true_and, vreTests_iff]
        exact ⟨fun h => ⟨fun hno => absurd hasked hno, fun _ => h⟩, fun h => h.2 hasked⟩
      · have hfalse : (if o.bOpt = true ∧ decide (x.mapped = some .backend) = false then some false
            else if o.cOpt = true ∧ decide (x.mapped = some .client) = false then some false
            else vreTests o x.entry.data) = some false := by
          rw [Asked, not_and_or, Classical.not_imp, Classical.not_imp] at hasked
          rcases hasked with hb | hc
          · rw [if_pos ⟨hb.1, decide_eq_false hb.2⟩]
          · rw [if_pos (c := o.cOpt = true ∧ _) ⟨hc.1, decide_eq_false hc.2⟩, ite_self]
        rw [hfalse]
        cases wanted o x.side with
        | false => exact iff_of_true rfl ⟨fun _ hno => absurd hno Bool.false_ne_true, fun h => absurd h hasked⟩
        | true =>
          rw [Bool.true_and]
          exact ⟨fun h => ⟨fun _ _ => (Option.some.inj h).symm, fun h' => absurd h' hasked⟩,
            fun h => congrArg some (h.1 hasked rfl).symm⟩

end One

/-! ## All entries -/

section Run

/-- A bitmap has the identifiers of its side. -/
structure TracksSide (vb : Vbitmap) (s : Side) (hist : List Entry) : Prop where
  valid : vb.Valid
  test : ∀ id, vbitTest vb id = true ↔ mapped hist id = some s
  size : ∀ k, vbitmapLump ∣ k → (vb.nbits ≤ k ↔ 4096 ≤ k ∧ ∀ e ∈ hist, sideOf e.tag = some s → e.id ≤ k)

structure Tracks (vd : VslData) (hist : List Entry) : Prop where
  client : TracksSide vd.vbmClient .client hist
  backend : TracksSide vd.vbmBackend .backend hist

theorem Tracks.start (skip keep : ℕ) : Tracks (vslStart skip keep) [] := by
  have hside : ∀ s, TracksSide (vbitInit 4096) s [] := by
    intro s
    refine ⟨Vbitmap.Valid.init (by decide), fun id => ?_, fun k _ => ?_⟩
    · rw [vbitTest, mapped]
      exact iff_of_false (by split <;> exact Bool.false_ne_true) (Option.some_ne_none s).symm
    · exact ⟨fun h => ⟨h, fun e he => absurd he List.not_mem_nil⟩, fun h => h.1⟩
  exact ⟨hside .client, hside .backend⟩

section Side

variable {vb vb' : Vbitmap} {s t : Side}

theorem TracksSide.some_pos (h : TracksSide vb s hist) : 0 < vb.nbits := by
  have hsize := h.size 0 (Nat.dvd_zero _)
  omega

theorem TracksSide.set (h : TracksSide vb s hist) (he : sideOf e.tag = some s) (hset : SetBit vb vb' e.id) :
    TracksSide vb' s (e :: hist) := by
  refine ⟨hset.valid, fun id => ?_, fun k hk => ?_⟩
  · simp only [mapped, he]
    by_cases hid : e.id = id
    · subst hid
      rw [hset.self, if_pos rfl]
      by_cases hlost : Lost s hist e.id
      · rw [if_pos hlost]
        have hend := (h.size e.id hlost.2.1).mpr ⟨hlost.1, hlost.2.2⟩
        exact iff_of_false (fun hno => hno hend hlost.2.1) (Option.some_ne_none s).symm
      · rw [if_neg hlost]
        refine iff_of_true (fun hend hdvd => hlost ?_) rfl
        have hsize := (h.size e.id hdvd).mp hend
        exact ⟨hsize.1, hdvd, hsize.2⟩
    · rw [if_neg hid, hset.other id (Ne.symm hid), h.test]
  · rw [hset.size k hk, h.size k hk]
    simp only [List.forall_mem_cons, he, forall_const]
    tauto

theorem TracksSide.clr (h : TracksSide vb s hist) (he : sideOf e.tag = some t) (hst : s ≠ t) :
    TracksSide (vbitClr vb e.id) s (e :: hist) := by
  refine ⟨h.valid.write _ _, fun id => ?_, fun k hk => ?_⟩
  · simp only [mapped, he, vbitClr]
    by_cases hid : e.id = id
    · subst hid
      rw [vbitTest_write_self, Bool.and_false, if_pos rfl]
      refine iff_of_false Bool.false_ne_true ?_
      split
      · exact (Option.some_ne_none s).symm
      · exact fun hts => hst (Option.some.inj hts).symm
    · rw [if_neg hid, vbitTest_write_of_ne _ _ (Ne.symm hid), h.test]
  · rw [vbitClr, Vbitmap.nbits_write, h.size k hk]
    simp only [List.forall_mem_cons, he]
    have hno : ¬ some t = some s := fun hts => hst (Option.some.inj hts).symm
    tauto

theorem TracksSide.pass (h : TracksSide vb s hist) (he : sideOf e.tag = none) : TracksSide vb s (e :: hist) := by
  refine ⟨h.valid, fun id => ?_, fun k hk => ?_⟩
  · simp only [mapped, he]
    exact h.test id
  · rw [h.size k hk]
    simp [he]

end Side

/-- What the switch does, by the side that the entry opens. -/
theorem mark_eq (vd : VslData) (e : Entry) :
    mark vd e =
      match sideOf e.tag with
      | some .client =>
        (vbitSet vd.vbmClient e.id).map fun vb => { vd with vbmClient := vb, vbmBackend := vbitClr vd.vbmBackend e.id }
      | some .backend =>
        (vbitSet vd.vbmBackend e.id).map fun vb => { vd with vbmClient := vbitClr vd.vbmClient e.id, vbmBackend := vb }
      | none => some vd := by
  rw [mark, sideOf]
  split
  · rfl
  · split <;> rfl

theorem Tracks.mark (h : Tracks vd hist) (he : Markable e) :
    ∃ vd', mark vd e = some vd' ∧ Tracks vd' (e :: hist) ∧ vd'.skip = vd.skip ∧ vd'.keep = vd.keep := by
  rw [mark_eq]
  rw [Markable] at he
  cases hside : sideOf e.tag with
  | none => exact ⟨vd, rfl, ⟨h.client.pass hside, h.backend.pass hside⟩, rfl, rfl⟩
  | some s =>
    have hid := he (hside ▸ Option.some_ne_none s)
    cases s with
    | client =>
      obtain ⟨vb, hvb, hset⟩ := vbitSet_spec h.client.valid hid h.client.some_pos
      simp only [hvb]
      exact ⟨_, rfl, ⟨h.client.set hside hset, h.backend.clr hside (by decide)⟩, rfl, rfl⟩
    | backend =>
      obtain ⟨vb, hvb, hset⟩ := vbitSet_spec h.backend.valid hid h.backend.some_pos
      simp only [hvb]
      exact ⟨_, rfl, ⟨h.client.clr hside (by decide), h.backend.set hside hset⟩, rfl, rfl⟩

theorem Tracks.mark_none (h : Tracks vd hist) (hid : e.id < 2 ^ 32) (he : ¬ Markable e) : Shmlog.mark vd e = none := by
  rw [Markable, Classical.not_imp] at he
  obtain ⟨hside, hwraps⟩ := he
  rw [mark_eq]
  cases hs : sideOf e.tag with
  | none => exact absurd hs hside
  | some s =>
    cases s with
    | client =>
      simp only [vbitSet_wraps h.client.valid (Nat.not_lt.mp hwraps) hid]
      rfl
    | backend =>
      simp only [vbitSet_wraps h.backend.valid (Nat.not_lt.mp hwraps) hid]
      rfl

theorem Tracks.client_eq (h : Tracks vd hist) (id : ℕ) :
    vbitTest vd.vbmClient id = decide (mapped hist id = some .client) :=
  Bool.eq_iff_iff.mpr ((h.client.test id).trans decide_eq_true_iff.symm)

theorem Tracks.backend_eq (h : Tracks vd hist) (id : ℕ) :
    vbitTest vd.vbmBackend id = decide (mapped hist id = some .backend) :=
  Bool.eq_iff_iff.mpr ((h.backend.test id).trans decide_eq_true_iff.symm)

theorem Tracks.side_eq (h : Tracks vd hist) (id : ℕ) : vd.side id = mapped hist id := by
  rw [VslData.side, h.client_eq, h.backend_eq]
  cases mapped hist id with
  | none => rfl
  | some s => cases s <;> rfl

/-- What is left of the entries behind those that are skipped, before the last one that is counted. -/
def looked (skip keep : ℕ) (l : List Sided) : List Sided :=
  if keep = 0 then l.drop skip else (l.drop skip).take (keep - 1)

/-- The entries that pass the tests, unless an assertion fails. -/
def verdicts (o : Opts) : List Sided → Option (List Sided)
  | [] => some []
  | x :: xs =>
    match judge o x with
    | none => none
    | some true => (verdicts o xs).map (x :: ·)
    | some false => verdicts o xs

def Sided.shown (x : Sided) : Shown := ⟨x.entry, x.behind, x.mapped⟩

theorem looked_skip {skip keep : ℕ} (l : List Sided) (h : 0 < skip) :
    looked skip keep (x :: l) = looked (skip - 1) keep l := by
  obtain ⟨k, rfl⟩ : ∃ k, skip = k + 1 := ⟨skip - 1, by omega⟩
  rfl

theorem looked_keep {keep : ℕ} (l : List Sided) (h : keep ≠ 1) :
    looked 0 keep (x :: l) = x :: looked 0 (keep - 1) l := by
  rw [looked, looked, List.drop_zero, List.drop_zero]
  by_cases h0 : keep = 0
  · rw [if_pos h0, if_pos (by omega)]
  · rw [if_neg h0, if_neg (by omega)]
    obtain ⟨k, rfl⟩ : ∃ k, keep = k + 2 := ⟨keep - 2, by omega⟩
    rfl

theorem taken_skip {skip keep : ℕ} (es : List Entry) (h : 0 < skip) :
    taken skip keep (e :: es) = e :: taken (skip - 1) keep es := by
  rw [taken, taken]
  split
  · rfl
  · rw [show skip + keep = skip - 1 + keep + 1 by omega, List.take_succ_cons]

theorem taken_keep {keep : ℕ} (es : List Entry) (h : keep ≠ 1) :
    taken 0 keep (e :: es) = e :: taken 0 (keep - 1) es := by
  rw [taken, taken, Nat.zero_add, Nat.zero_add]
  by_cases h0 : keep = 0
  · rw [if_pos h0, if_pos (by omega)]
  · rw [if_neg h0, if_neg (by omega)]
    obtain ⟨k, rfl⟩ : ∃ k, keep = k + 2 := ⟨keep - 2, by omega⟩
    rfl

/-- What is shown are the entries that pass the tests, among those that are looked at. -/
theorem dispatch_eq (h : Tracks vd hist) (hm : ∀ e ∈ taken vd.skip vd.keep es, Markable e) (hn : es.length < n) :
    vslDispatch o n vd es = (verdicts o (looked vd.skip vd.keep (sided hist es))).map (·.map Sided.shown) := by
  induction es generalizing vd hist n with
  | nil =>
    obtain ⟨n, rfl⟩ : ∃ k, n = k + 1 := ⟨n - 1, by omega⟩
    rw [sided, looked, List.drop_nil, List.take_nil, ite_self]
    rfl
  | cons e es ih =>
    obtain ⟨n, rfl⟩ : ∃ k, n = k + 1 := ⟨n - 1, by omega⟩
    rw [List.length_cons] at hn
    by_cases hs : 0 < vd.skip
    · rw [taken_skip es hs] at hm
      obtain ⟨vd', hvd', hmark, hskip, hkeep⟩ := h.mark (hm e List.mem_cons_self)
      have hskipped : Tracks vd'.skipped (e :: hist) := ⟨hmark.client, hmark.backend⟩
      have hskip' : vd'.skipped.skip = vd.skip - 1 := congrArg (· - 1) hskip
      have hkeep' : vd'.skipped.keep = vd.keep := hkeep
      have hrec := ih hskipped (by rw [hskip', hkeep']; exact fun e' he' => hm e' (List.mem_cons_of_mem e he'))
        (show es.length < n + 1 by omega)
      rw [vslDispatch, hskip', hkeep'] at hrec
      rw [vslDispatch, vslNextLog, hvd', sided, looked_skip _ hs]
      simp only [hskip, if_pos hs]
      exact hrec
    have hs0 : vd.skip = 0 := Nat.eq_zero_of_not_pos hs
    have hhead : e ∈ taken vd.skip vd.keep (e :: es) := by
      rw [taken]
      split
      · exact List.mem_cons_self
      · obtain ⟨k, hk⟩ : ∃ k, vd.skip + vd.keep = k + 1 := ⟨vd.skip + vd.keep - 1, by omega⟩
        rw [hk]
        exact List.mem_cons_self
    obtain ⟨vd', hvd', hmark, hskip, hkeep⟩ := h.mark (hm e hhead)
    rw [vslDispatch, vslNextLog, hvd', sided, hs0]
    simp only [hskip, hkeep, if_neg hs]
    by_cases hk : vd.keep = 1
    · rw [if_pos hk, hk]
      rfl
    rw [hs0, taken_keep es hk] at hm
    rw [if_neg hk, looked_keep _ hk, verdicts, judge, ← hmark.client_eq, ← hmark.backend_eq]
    have hkept : Tracks vd'.kept (e :: hist) := ⟨hmark.client, hmark.backend⟩
    have hskip' : vd'.kept.skip = 0 := hskip.trans hs0
    have hkeep' : vd'.kept.keep = vd.keep - 1 := congrArg (· - 1) hkeep
    have hrest : ∀ e' ∈ taken vd'.kept.skip vd'.kept.keep es, Markable e' := by
      rw [hskip', hkeep']
      exact fun e' he' => hm e' (List.mem_cons_of_mem e he')
    cases admits o (vbitTest vd'.vbmClient e.id) (vbitTest vd'.vbmBackend e.id) e with
    | none => rfl
    | some b =>
      cases b with
      | true =>
        have hrec := ih hkept hrest (show es.length < n by omega)
        have hside : vd'.kept.side e.id = mapped (e :: hist) e.id := hmark.side_eq e.id
        rw [hskip', hkeep'] at hrec
        simp only [hrec, hside, Option.map_map]
        rfl
      | false =>
        have hrec := ih hkept hrest (show es.length < n + 1 by omega)
        rw [vslDispatch, hskip', hkeep'] at hrec
        exact hrec

/-- An entry that the bitmaps have no room for ends the reader. -/
theorem dispatch_none (h : Tracks vd hist) (hid : ∀ e ∈ es, e.id < 2 ^ 32)
    (hm : ∃ e ∈ taken vd.skip vd.keep es, ¬ Markable e) : vslDispatch o n vd es = none := by
  induction es generalizing vd hist n with
  | nil =>
    obtain ⟨e, he, -⟩ := hm
    rw [taken, List.take_nil, ite_self] at he
    cases he
  | cons e es ih =>
    cases n with
    | zero => rfl
    | succ n =>
      have hes : ∀ e' ∈ es, e'.id < 2 ^ 32 := fun e' he' => hid e' (List.mem_cons_of_mem e he')
      rw [vslDispatch, vslNextLog]
      by_cases hroom : Markable e
      · obtain ⟨vd', hvd', hmark, hskip, hkeep⟩ := h.mark hroom
        rw [hvd']
        simp only [hskip, hkeep]
        by_cases hs : 0 < vd.skip
        · rw [if_pos hs]
          have hskipped : Tracks vd'.skipped (e :: hist) := ⟨hmark.client, hmark.backend⟩
          have hskip' : vd'.skipped.skip = vd.skip - 1 := congrArg (· - 1) hskip
          have hkeep' : vd'.skipped.keep = vd.keep := hkeep
          rw [taken_skip es hs, List.exists_mem_cons_iff, or_iff_right (not_not_intro hroom)] at hm
          have hrec := @ih vd'.skipped (e :: hist) (n + 1) hskipped hes (by rw [hskip', hkeep']; exact hm)
          rw [vslDispatch] at hrec
          exact hrec
        · have hs0 : vd.skip = 0 := Nat.eq_zero_of_not_pos hs
          rw [if_neg hs]
          rw [hs0] at hm
          by_cases hk : vd.keep = 1
          · obtain ⟨e', he', hno⟩ := hm
            rw [hk] at he'
            exact absurd (List.mem_singleton.mp he' ▸ hroom) hno
          rw [if_neg hk]
          rw [taken_keep es hk, List.exists_mem_cons_iff, or_iff_right (not_not_intro hroom)] at hm
          have hkept : Tracks vd'.kept (e :: hist) := ⟨hmark.client, hmark.backend⟩
          have hskip' : vd'.kept.skip = 0 := hskip.trans hs0
          have hkeep' : vd'.kept.keep = vd.keep - 1 := congrArg (· - 1) hkeep
          have hrec := fun n => @ih vd'.kept (e :: hist) n hkept hes (by rw [hskip', hkeep']; exact hm)
          cases admits o (vbitTest vd'.vbmClient e.id) (vbitTest vd'.vbmBackend e.id) e with
          | none => rfl
          | some b =>
            cases b with
            | true =>
              simp only [hrec n]
              rfl
            | false =>
              have hnext := hrec (n + 1)
              rw [vslDispatch] at hnext
              exact hnext
      · rw [h.mark_none (hid e List.mem_cons_self) hroom]

/-- No test fails an assertion, or nothing is shown in the end. -/
theorem verdicts_eq_some_iff {l r : List Sided} :
    verdicts o l = some r ↔ (∀ x ∈ l, judge o x ≠ none) ∧ l.filter (fun x => judge o x = some true) = r := by
  induction l generalizing r with
  | nil => simp [verdicts]
  | cons x l ih =>
    rw [verdicts]
    cases hj : judge o x with
    | none => simp [hj]
    | some b =>
      cases b with
      | true =>
        simp only [Option.map_eq_some_iff, ih]
        simp [hj]
      | false => simp [ih, hj]

theorem window_eq (skip keep : ℕ) (es : List Entry) :
    window skip keep es = looked skip keep (sided [] es) ++
      if keep = 0 then [] else (((sided [] es).drop skip)[keep - 1]?).toList := by
  rw [window, looked]
  by_cases h0 : keep = 0
  · rw [if_pos h0, if_pos h0, if_pos h0, List.append_nil]
  · rw [if_neg h0, if_neg h0, if_neg h0]
    obtain ⟨k, rfl⟩ : ∃ k, keep = k + 1 := ⟨keep - 1, by omega⟩
    exact List.take_add_one

theorem window_sublist (skip keep : ℕ) (es : List Entry) : (window skip keep es).Sublist (sided [] es) := by
  rw [window]
  split
  · exact List.drop_sublist _ _
  · exact (List.take_sublist _ _).trans (List.drop_sublist _ _)

theorem sided_mapped (hist es : List Entry) : ∀ x ∈ sided hist es, x.mapped = x.side ∨ x.mapped = none := by
  induction es generalizing hist with
  | nil => exact fun x hx => absurd hx List.not_mem_nil
  | cons e es ih => exact List.forall_mem_cons.mpr ⟨mapped_eq _ _, ih (e :: hist)⟩

theorem sided_behind (hist es : List Entry) : ∀ x ∈ sided hist es, x.behind < es.length := by
  induction es generalizing hist with
  | nil => exact fun x hx => absurd hx List.not_mem_nil
  | cons e es ih =>
    exact List.forall_mem_cons.mpr ⟨Nat.lt_succ_self _, fun x hx => Nat.lt_succ_of_lt (ih (e :: hist) x hx)⟩

/-- No two entries are at the same place. -/
theorem sided_nodup (hist es : List Entry) : ((sided hist es).map fun x => (x.entry, x.behind)).Nodup := by
  induction es generalizing hist with
  | nil => exact List.nodup_nil
  | cons e es ih =>
    refine List.nodup_cons.mpr ⟨fun hmem => ?_, ih (e :: hist)⟩
    obtain ⟨x, hx, hxe⟩ := List.mem_map.mp hmem
    have hlt := sided_behind _ _ x hx
    have hbehind : x.behind = es.length := congrArg Prod.snd hxe
    omega

end Run

/-! ## The result -/

section Result

variable {skip keep : ℕ}

/-- The tests agree with the options on a list, if and only if the same entries are left and no assertion fails. -/
theorem agree_iff {l last : List Sided} (hmapped : ∀ x ∈ l, x.mapped = x.side ∨ x.mapped = none)
    (hnodup : ((l ++ last).map fun x => (x.entry, x.behind)).Nodup) :
    ((∀ x ∈ l, judge o x ≠ none) ∧
      (l.filter (fun x => judge o x = some true)).map (fun x => (x.entry, x.behind)) =
        ((l ++ last).filter (accepted o)).map fun x => (x.entry, x.behind)) ↔
    (∀ x ∈ l, EntryOk o x) ∧ ∀ x ∈ last, accepted o x = false := by
  have hinj := List.inj_on_of_nodup_map hnodup
  constructor
  · rintro ⟨hnone, hfilter⟩
    -- an entry is left by the one if and only if it is left by the other, for it is known by its place
    have hsame : ∀ x ∈ l ++ last, (x ∈ l ∧ judge o x = some true) ↔ accepted o x = true := by
      intro x hx
      have hmem := congrArg (fun r => (x.entry, x.behind) ∈ r) hfilter
      simp only [List.mem_map, List.mem_filter, decide_eq_true_iff] at hmem
      constructor
      · intro h
        obtain ⟨y, ⟨hy, hacc⟩, hyx⟩ := hmem.mp ⟨x, h, rfl⟩
        rw [hinj hy hx hyx] at hacc
        exact hacc
      · intro hacc
        obtain ⟨y, hy, hyx⟩ := hmem.mpr ⟨x, ⟨hx, hacc⟩, rfl⟩
        rw [← hinj (List.mem_append_left _ hy.1) hx hyx]
        exact hy
    refine ⟨fun x hx => (judge_iff o (hmapped x hx)).mp ?_, fun x hx => Bool.eq_false_iff.mpr fun hacc => ?_⟩
    · have hiff := hsame x (List.mem_append_left _ hx)
      rw [and_iff_right hx] at hiff
      cases hj : judge o x with
      | none => exact absurd hj (hnone x hx)
      | some b =>
        rw [hj] at hiff
        cases b with
        | true => rw [hiff.mp rfl]
        | false =>
          cases ha : accepted o x with
          | false => rfl
          | true => cases hiff.mpr ha
    · have hl := ((hsame x (List.mem_append_right _ hx)).mpr hacc).1
      have hdisj := List.disjoint_of_nodup_append (List.map_append ▸ hnodup)
      exact hdisj (List.mem_map_of_mem hl) (List.mem_map_of_mem hx)
  · rintro ⟨hok, hlast⟩
    have hagree : ∀ x ∈ l, judge o x = some (accepted o x) := fun x hx => (judge_iff o (hmapped x hx)).mpr (hok x hx)
    refine ⟨fun x hx hj => ?_, congrArg (List.map _) ?_⟩
    · rw [hagree x hx] at hj
      cases hj
    · have hnil : last.filter (accepted o) = [] :=
        List.filter_eq_nil_iff.mpr fun x hx ha => by rw [hlast x hx] at ha; cases ha
      rw [List.filter_append, hnil, List.append_nil]
      refine List.filter_congr fun x hx => ?_
      rw [hagree x hx]
      cases accepted o x <;> rfl

theorem follows_iff_verdicts (o : Opts) {skip keep : ℕ} {es : List Entry} (hm : ∀ e ∈ taken skip keep es, Markable e) :
    Follows o skip keep es ↔
      (verdicts o (looked skip keep (sided [] es))).map (·.map fun x => (x.entry, x.behind)) =
        some (expected o skip keep es) := by
  have heq : ∀ n, es.length < n →
      (vslDispatch o n (vslStart skip keep) es).map (·.map fun r => (r.entry, r.behind)) =
        (verdicts o (looked skip keep (sided [] es))).map (·.map fun x => (x.entry, x.behind)) := by
    intro n hn
    rw [dispatch_eq (Tracks.start skip keep) hm hn, Option.map_map]
    refine congrArg (Option.map · _) (funext fun l => ?_)
    exact List.map_map
  constructor
  · rintro ⟨n₀, hn₀⟩
    have hlast := hn₀ (n₀ + es.length + 1) (by omega)
    rw [heq _ (by omega)] at hlast
    exact hlast
  · intro h
    exact ⟨es.length + 1, fun n hn => (heq n hn).trans h⟩

/-- **The options of a reader**: `VSL_NextLog` follows them if and only if the bitmaps have room for every entry that is taken
from the log, the options go together for every entry that is looked at, and the last one that is counted is not accepted. -/
theorem follows_iff (o : Opts) (skip keep : ℕ) {es : List Entry} (hid : ∀ e ∈ es, e.id < 2 ^ 32) :
    Follows o skip keep es ↔
      (∀ e ∈ taken skip keep es, Markable e) ∧
        (∀ x ∈ looked skip keep (sided [] es), EntryOk o x) ∧
        (keep ≠ 0 → ∀ x, ((sided [] es).drop skip)[keep - 1]? = some x → accepted o x = false) := by
  by_cases hm : ∀ e ∈ taken skip keep es, Markable e
  · have hnodup := (sided_nodup [] es).sublist ((window_sublist skip keep es).map fun x => (x.entry, x.behind))
    have hmapped : ∀ x ∈ window skip keep es, x.mapped = x.side ∨ x.mapped = none :=
      fun x hx => sided_mapped [] es x ((window_sublist skip keep es).subset hx)
    rw [window_eq] at hnodup hmapped
    have hverdicts : (verdicts o (looked skip keep (sided [] es))).map (·.map fun x => (x.entry, x.behind)) =
          some (expected o skip keep es) ↔
        (∀ x ∈ looked skip keep (sided [] es), judge o x ≠ none) ∧
          ((looked skip keep (sided [] es)).filter fun x => judge o x = some true).map (fun x => (x.entry, x.behind)) =
            expected o skip keep es := by
      rw [Option.map_eq_some_iff]
      simp only [verdicts_eq_some_iff]
      constructor
      · rintro ⟨l, ⟨hnone, rfl⟩, hl⟩
        exact ⟨hnone, hl⟩
      · rintro ⟨hnone, hl⟩
        exact ⟨_, ⟨hnone, rfl⟩, hl⟩
    rw [follows_iff_verdicts o hm, hverdicts, and_iff_right hm, expected, window_eq,
      agree_iff (fun x hx => hmapped x (List.mem_append_left _ hx)) hnodup]
    refine and_congr_right fun _ => ?_
    by_cases h0 : keep = 0
    · rw [if_pos h0]
      exact iff_of_true (fun x hx => absurd hx List.not_mem_nil) fun h => absurd h0 h
    · rw [if_neg h0]
      simp only [ne_eq, h0, not_false_eq_true, forall_const, Option.mem_toList]
  · refine iff_of_false ?_ fun h => hm h.1
    rintro ⟨n₀, hn₀⟩
    have hlast := hn₀ n₀ (Nat.le_refl _)
    simp only [not_forall] at hm
    obtain ⟨e, he, hno⟩ := hm
    rw [dispatch_none (Tracks.start skip keep) hid ⟨e, he, hno⟩] at hlast
    cases hlast

/-- The expression `"z"`, for which `VRE_exec` gives an error when the length is negative. -/
def reZ : Vre := ⟨fun data => data.contains 122, fun _ => true⟩

def noOpts : Opts := ⟨false, false, fun _ => false, fun _ => false, none, none⟩

/-- The entry `"aaaaaaaz"` of a session that has begun. -/
def sessionLog : List Entry := [⟨sltSessionOpen, 7, []⟩, ⟨sltReqStart, 7, [97, 97, 97, 97, 97, 97, 97, 122]⟩]

theorem follows_iff_session : Follows noOpts 1 0 sessionLog :=
  (follows_iff noOpts 1 0 (by decide)).mpr ⟨by decide, fun _ _ _ _ => ⟨fun h => absurd ⟨nofun, nofun⟩ h, fun _ => ⟨nofun, fun h => absurd rfl h⟩⟩,
    fun h => absurd rfl h⟩

/-- The end of the contents is not looked at, `-X` alone is an assertion, `-b` and `-c` together show nothing, and `-k 1` shows
nothing; with `-c`, a session of the identifier 4096 is not shown. -/
theorem options_fail :
    ¬ Follows { noOpts with regincl := some reZ } 1 0 sessionLog ∧
    ¬ Follows { noOpts with regexcl := some reZ } 1 0 sessionLog ∧
    ¬ Follows { noOpts with bOpt := true, cOpt := true } 0 0 sessionLog ∧
    ¬ Follows noOpts 0 1 sessionLog ∧
    ¬ Follows { noOpts with cOpt := true } 0 0 [⟨sltSessionOpen, 4096, []⟩] := by
  refine ⟨?_, ?_, ?_, ?_, ?_⟩ <;> rw [follows_iff_verdicts _ (by decide)] <;> decide

end Result

end Varnish.Shmlog
