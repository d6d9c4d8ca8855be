import Varnish.Silo.InUse

/-!
# Varnish.Silo.Failed — an allocation that fails

* `ReturnsNull`: `smp_alloc` gives no storage.  `CleanFailure`: what should hold then, and of the segment that `smp_alloc`
  works on after its loop.
* `renew`: the current segment is closed and there is a new one; `placed`: what the new one is.
* `cleanFailure_iff`: all is well as long as not three tries fail.
-/

namespace Varnish.Silo

open Varnish.Lib

variable {g : Media} {s s' s₁ : Space} {sg : SmpSeg} {oc : Bool} {size left : ℕ}

/-! ## Failures -/

section Failure

variable (g)

/-- The bytes of all segments. -/
def lengths : List SmpSeg → ℕ
  | [] => 0
  | sg :: sgs => sg.length + lengths sgs

/-- The space of the silo that no segment has, and what is left in the current one. -/
def allocatable (s : Space) : ℕ :=
  g.mediasize - g.spc - lengths s.segments + (s.cur.map fun sg => sg.segend - sg.nextAddr).getD 0

/-- `smp_alloc` returns NULL, and leaves `s'`. -/
def ReturnsNull (s : Space) (size : ℕ) (oc : Bool) (s' : Space) : Prop :=
  ∃ sg size' needed left, allocTries g oc 2 s (cAlign size) = .ok (s', sg, size', needed) ∧ size' = cAlign size' ∧
    smpSpaceleft sg = .ok left ∧ left < needed

/-- Nothing was lost: the allocations, the segments in use and the space, also that of an empty segment. -/
structure Unspoiled (s s' : Space) : Prop where
  bites : s'.bites = s.bites
  segments : ∀ id, (∃ sg ∈ s'.segments, sg.id = id ∧ sg.nalloc ≠ 0) ↔ ∃ sg ∈ s.segments, sg.id = id ∧ sg.nalloc ≠ 0
  space : allocatable g s' = allocatable g s
  again : ∀ sg ∈ s.cur, sg.nalloc = 0 → ∀ t ∈ s'.closed, t.segend ≤ sg.offset ∨ sg.segend ≤ t.offset

/-- A failure loses nothing, and after the loop the segment is the current one. -/
def CleanFailure (s : Space) (size : ℕ) (oc : Bool) : Prop :=
  (∀ s' sg size' needed, allocTries g oc 2 s (cAlign size) = .ok (s', sg, size', needed) → s'.cur = some sg) ∧
    ∀ s', ReturnsNull g s size oc s' → Unspoiled g s s'

theorem smpAlloc_of_returnsNull (h : ReturnsNull g s size oc s') : smpAlloc g s size oc = .ok s' := by
  obtain ⟨sg, size', needed, left, htries, hsize, hleft, hlt⟩ := h
  rw [smpAlloc, htries]
  simp only [bind, Except.bind]
  rw [if_neg (fun hne => hne hsize), hleft]
  exact if_pos hlt

/-- The current segment is closed, and there is a new one. -/
def renew (s : Space) : Except Stop Space := do
  let s ← smpCloseSeg g s
  smpNewSeg g s

/-- The request fits in a new segment. -/
def FitsNew (oc : Bool) (size : ℕ) : Prop :=
  (trimmed (smpOpenEmpty g) oc (g.segl - signSpace) size).2 ≤ g.segl - signSpace ∧ (oc = false ∨ 0 < g.aimNobj)

instance (oc : Bool) (size : ℕ) : Decidable (FitsNew g oc size) := inferInstanceAs (Decidable (_ ∧ _))

end Failure

/-! ## The tries -/

section Tries

theorem renew_cur (h : renew g s = .ok s') :
    ∃ t off, s'.cur = some (newSegAt g t off) ∧ s'.objreserv = 0 ∧ t.nextId = s.nextId ∧ s'.nextId = s.nextId + 1 := by
  obtain ⟨t, hclose, hnew⟩ := ok_of_bind h
  obtain ⟨-, -, -, hold, -⟩ := closeSeg_cases hclose
  obtain ⟨-, off, -, hcur, hid, -, hres⟩ := newSeg_cases hnew
  exact ⟨t, off, hcur, hres, hold, by rw [hid, hold]⟩

/-- A new segment has all of its space but the head. -/
theorem spaceleft_newSegAt (t : Space) (off : ℕ) : smpSpaceleft (newSegAt g t off) = .ok (g.segl - signSpace) := by
  have hsegl := g.segl_ge
  have hsign : signSpace = 64 := rfl
  rw [smpSpaceleft, SmpSeg.segend, newSegAt]
  simp only
  rw [if_pos (by omega)]
  congr 1
  omega

theorem trimmed_congr (h : s.objreserv = s'.objreserv) : trimmed s oc left size = trimmed s' oc left size := by
  have ho : overhead s oc = overhead s' oc := by rw [overhead, overhead, h]
  rw [trimmed, trimmed, ho]

/-- A request fits in a new segment or not, wherever that is. -/
theorem fits_newSegAt (t : Space) (off : ℕ) (h : s.objreserv = 0) :
    Fits g (newSegAt g t off) oc (g.segl - signSpace) (trimmed s oc (g.segl - signSpace) size).2 ↔ FitsNew g oc size := by
  have hempty : trimmed s oc (g.segl - signSpace) size = trimmed (smpOpenEmpty g) oc (g.segl - signSpace) size := trimmed_congr h
  rw [hempty]
  exact Iff.rfl

/-- A try that fits ends the loop. -/
theorem tries_of_fits {tries : ℕ} (hcur : s.cur = some sg) (hleft : smpSpaceleft sg = .ok left)
    (hfits : Fits g sg oc left (trimmed s oc left size).2) :
    allocTries g oc tries s size = .ok (s, sg, trimmed s oc left size) := by
  rw [allocTries.eq_def]
  simp only [hcur, hleft, bind, Except.bind]
  exact if_pos hfits

/-- After a try that does not fit, the next one is made with another segment. -/
theorem tries_of_not_fits (tries : ℕ) (hcur : s.cur = some sg) (hleft : smpSpaceleft sg = .ok left)
    (hfits : ¬ Fits g sg oc left (trimmed s oc left size).2) :
    allocTries g oc (tries + 1) s size = (renew g s).bind fun s => allocTries g oc tries s size := by
  rw [allocTries, hcur]
  simp only [hleft, bind, Except.bind]
  rw [if_neg hfits, trimmed_of_not_fits hfits, renew]
  simp only [bind, Except.bind]
  cases smpCloseSeg g s with
  | error e => rfl
  | ok s₁ => rfl

/-- The last try that does not fit leaves the segment that it closed. -/
theorem last_of_not_fits (hcur : s.cur = some sg) (hleft : smpSpaceleft sg = .ok left)
    (hfits : ¬ Fits g sg oc left (trimmed s oc left size).2) :
    allocTries g oc 0 s size = (renew g s).bind fun s' => .ok (s', sg, trimmed s oc left size) := by
  rw [allocTries, hcur]
  simp only [hleft, bind, Except.bind]
  rw [if_neg hfits, renew]
  simp only [bind, Except.bind]
  cases smpCloseSeg g s with
  | error e => rfl
  | ok s₁ => rfl

end Tries

/-! ## The result -/

section Result

theorem cleanFailure_of_error {e : Stop} (h : allocTries g oc 2 s (cAlign size) = .error e) : CleanFailure g s size oc := by
  refine ⟨fun s' sg size' needed hok => ?_, ?_⟩
  · rw [h] at hok
    cases hok
  · rintro s' ⟨sg, size', needed, left, hok, -⟩
    rw [h] at hok
    cases hok

/-- All is well when the loop ends with a segment that is large enough. -/
theorem cleanFailure_of_ok {size' needed : ℕ} (h : allocTries g oc 2 s (cAlign size) = .ok (s', sg, size', needed))
    (hcur : s'.cur = some sg) (hleft : smpSpaceleft sg = .ok left) (hle : needed ≤ left) : CleanFailure g s size oc := by
  refine ⟨fun s₁ sg₁ size₁ needed₁ hok => ?_, ?_⟩
  · rw [h] at hok
    cases hok
    exact hcur
  · rintro s₁ ⟨sg₁, size₁, needed₁, left₁, hok, -, hleft₁, hlt⟩
    rw [h] at hok
    cases hok
    rw [hleft] at hleft₁
    cases hleft₁
    exact absurd hle (Nat.not_le.mpr hlt)

/-- **A persistent allocation that fails**: it loses nothing and works on the current segment, if and only if the loop ends
before its third try fails: the request fits in the current segment or in a new one, or the program ends, because an assertion
fails or the silo is full. -/
theorem cleanFailure_iff (hcur : s.cur = some sg) :
    CleanFailure g s size oc ↔
      sg.segend < sg.nextAddr ∨
        Fits g sg oc (sg.segend - sg.nextAddr) (trimmed s oc (sg.segend - sg.nextAddr) (cAlign size)).2 ∨
        FitsNew g oc (cAlign size) ∨ ∀ s', ((renew g s).bind (renew g)).bind (renew g) ≠ .ok s' := by
  by_cases hbad : sg.segend < sg.nextAddr
  · refine iff_of_true (cleanFailure_of_error (e := .assertion) ?_) (.inl hbad)
    rw [allocTries, hcur]
    simp only [smpSpaceleft, if_neg (Nat.not_le.mpr hbad), bind, Except.bind]
  rw [or_iff_right hbad]
  have hleft : smpSpaceleft sg = .ok (sg.segend - sg.nextAddr) := if_pos (Nat.le_of_not_lt hbad)
  by_cases hfits : Fits g sg oc (sg.segend - sg.nextAddr) (trimmed s oc (sg.segend - sg.nextAddr) (cAlign size)).2
  · exact iff_of_true (cleanFailure_of_ok (tries_of_fits hcur hleft hfits) hcur hleft hfits.1) (.inl hfits)
  rw [or_iff_right hfits]
  have hloop := tries_of_not_fits 1 hcur hleft hfits
  cases h₁ : renew g s with
  | error e =>
    rw [h₁] at hloop
    exact iff_of_true (cleanFailure_of_error hloop) (.inr fun s' hs' => by cases hs')
  | ok s₁ =>
    rw [h₁] at hloop
    obtain ⟨t₁, off₁, hcur₁, hres₁, -, -⟩ := renew_cur h₁
    have hleft₁ := spaceleft_newSegAt (g := g) t₁ off₁
    by_cases hnew : FitsNew g oc (cAlign size)
    · have hfits₁ := (fits_newSegAt t₁ off₁ hres₁).mpr hnew
      have hend := hloop.trans (tries_of_fits hcur₁ hleft₁ hfits₁)
      exact iff_of_true (cleanFailure_of_ok hend hcur₁ hleft₁ hfits₁.1) (.inl hnew)
    rw [or_iff_right hnew]
    have hfits₁ := fun hf => hnew ((fits_newSegAt t₁ off₁ hres₁).mp hf)
    have hloop₁ := hloop.trans (tries_of_not_fits 0 hcur₁ hleft₁ hfits₁)
    change _ ↔ ∀ s', (renew g s₁).bind (renew g) ≠ .ok s'
    cases h₂ : renew g s₁ with
    | error e =>
      rw [h₂] at hloop₁
      exact iff_of_true (cleanFailure_of_error hloop₁) fun s' hs' => by cases hs'
    | ok s₂ =>
      rw [h₂] at hloop₁
      obtain ⟨t₂, off₂, hcur₂, hres₂, hold₂, hid₂⟩ := renew_cur h₂
      have hfits₂ := fun hf => hnew ((fits_newSegAt t₂ off₂ hres₂).mp hf)
      have hloop₂ := hloop₁.trans (last_of_not_fits hcur₂ (spaceleft_newSegAt t₂ off₂) hfits₂)
      change _ ↔ ∀ s', renew g s₂ ≠ .ok s'
      cases h₃ : renew g s₂ with
      | error e =>
        rw [h₃] at hloop₂
        exact iff_of_true (cleanFailure_of_error hloop₂) fun s' hs' => by cases hs'
      | ok s₃ =>
        rw [h₃] at hloop₂
        refine iff_of_false (fun hclean => ?_) fun hend => hend s₃ rfl
        -- the segment of the last try was closed, and the current one was made after it
        obtain ⟨t₃, off₃, hcur₃, -, hid₃, -⟩ := renew_cur h₃
        have hsame := hclean.1 _ _ _ _ hloop₂
        rw [hcur₃] at hsame
        have hid : t₃.nextId = t₂.nextId := congrArg SmpSeg.id (Option.some.inj hsame)
        omega

/-- An object of 5000 bytes is larger than any segment. -/
theorem freed_segment : ∃ s s', Reach (fun s op => (spaceStep media s op).toOption) (fun s op => op.Called s)
    (smpOpenEmpty media) s ∧ smpAlloc media s 5000 true = .ok s' ∧ ReturnsNull media s 5000 true s' ∧
      ¬ CleanFailure media s 5000 true := by
  have hok : OkRun (fun s op => (spaceStep media s op).toOption) (fun s op => op.Called s) (smpOpenEmpty media)
      [.newSeg] := by decide +kernel
  have hend : (([SpaceOp.newSeg].foldlM (fun s op => (spaceStep media s op).toOption) (smpOpenEmpty media)).bind
      fun s => (allocTries media true 2 s (cAlign 5000)).toOption.map fun r =>
        (decide (r.2.2.1 = cAlign r.2.2.1), (smpSpaceleft r.2.1).toOption, r.2.2.2, decide (r.1.cur = some r.2.1))) =
      some (true, some 1936, 5280, false) := by decide +kernel
  obtain ⟨s, hs, hloop⟩ := Option.bind_eq_some_iff.mp hend
  obtain ⟨⟨s', sg, size', needed⟩, hr, heq⟩ := Option.map_eq_some_iff.mp hloop
  simp only [Prod.mk.injEq, decide_eq_true_eq, decide_eq_false_iff_not] at heq
  obtain ⟨hsize, hleft, hneeded, hcur⟩ := heq
  have htries : allocTries media true 2 s (cAlign 5000) = .ok (s', sg, size', needed) := ok_of_toOption hr
  have hnull : ReturnsNull media s 5000 true s' :=
    ⟨sg, size', needed, 1936, htries, hsize, ok_of_toOption hleft, by omega⟩
  exact ⟨s, s', Reach.of_run hok hs, smpAlloc_of_returnsNull _ hnull, hnull, fun hclean =>
    hcur (hclean.1 _ _ _ _ htries)⟩

/-- In an empty segment there is room for an object of 100 bytes. -/
theorem cleanFailure_iff_room : ∃ s, smpNewSeg media (smpOpenEmpty media) = .ok s ∧ CleanFailure media s 100 true := by
  have hroom : ((smpNewSeg media (smpOpenEmpty media)).toOption.bind fun s => s.cur.map fun sg =>
      decide (Fits media sg true (sg.segend - sg.nextAddr)
        (trimmed s true (sg.segend - sg.nextAddr) (cAlign 100)).2)) = some true := by decide +kernel
  obtain ⟨s, hs, hcur⟩ := Option.bind_eq_some_iff.mp hroom
  obtain ⟨sg, hsg, hfits⟩ := Option.map_eq_some_iff.mp hcur
  exact ⟨s, ok_of_toOption hs, (cleanFailure_iff hsg).mpr (.inr (.inl (of_decide_eq_true hfits)))⟩

end Result

end Varnish.Silo
