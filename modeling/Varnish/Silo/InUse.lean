import Varnish.Silo.Alloc

/-!
# Varnish.Silo.InUse — segments that are in use

The objcores of a silo point to their segments, which `smp_save_segs` frees when they have no objects.  The operations on
the space are those of `Varnish.Silo.Space`; what is in the medium when a segment is loaded is a parameter.

* `SiloUse`: the space with the live objcores.  `UseOp`, `useStep`: what is done with them.
* `Counted`, `Slotted`, `Kept`: the number of objects is right, no more slots are used than were reserved, and no segment
  is missing.
* `FreeOk`, `KeepOk`: the conditions on the operations.
-/

namespace Varnish.Silo

open Varnish.Lib

/-! ## Objcores -/

section Objcores

/-- A live objcore with its `smp_seg`.  `home` is the segment in which `smp_object` or `smp_load_seg` counted it, which the
program does not keep; `vampire` if it was loaded and not fixed up (`OC_F_PERSISTENT`). -/
structure Objcore where
  seg : ℕ
  home : Option ℕ
  vampire : Bool
deriving DecidableEq

/-- `mustLoad` has the segments with this flag.  In `hold` are those with the bogus count that `smp_open_segs` sets, and in
`lost` the segment of each objcore that expired before it was fixed up; these are not a part of the program. -/
structure SiloUse where
  space : Space
  mustLoad : List ℕ
  hold : List ℕ
  lost : List ℕ
  ocs : List Objcore

inductive UseOp where
  | newSeg
  | closeSeg
  /-- `smp_alloc` for a body. -/
  | data (size : ℕ)
  /-- `smp_alloc` for a new object, from `STV_NewObject`. -/
  | reserve (size : ℕ)
  /-- `smp_alloc` for the same objcore once more, from `ESI_Parse`. -/
  | again (i size : ℕ)
  | object (i : ℕ)
  | free (i : ℕ)
  /-- `smp_load_seg`: `signed` if the head of the segment is, and `live` tells which objects of its table are not too old. -/
  | load (id : ℕ) (signed : Bool) (live : List Bool)
  | fixup (i : ℕ)
  /-- `exp_timer` of an objcore that was not fixed up. -/
  | expire (i : ℕ)

/-- The segment `id`, when it was not freed. -/
def Space.seg? (s : Space) (id : ℕ) : Option SmpSeg := s.segments.find? fun sg => sg.id = id

/-- A change of the segment `id`. -/
def Space.onSeg (s : Space) (id : ℕ) (f : SmpSeg → SmpSeg) : Space :=
  { s with closed := s.closed.map fun sg => if sg.id = id then f sg else sg
           cur := s.cur.map fun sg => if sg.id = id then f sg else sg }

variable (g : Media)

/-- `smp_alloc`, with the segment of the storage that it returns. -/
def allocSeg (s : Space) (size : ℕ) (oc : Bool) : Option (Space × Option ℕ) :=
  (smpAlloc g s size oc).toOption.map fun s' => (s', (s'.bites.drop s.bites.length).head?.map Bite.seg)

/-- `smp_object` -/
def objectStep (s : SiloUse) (i : ℕ) (oc : Objcore) : Option SiloUse := do
  let sg ← s.space.seg? oc.seg
  if sg.nalloc2 < sg.nalloc1 ∧ oc.home = none then
    some { s with space := s.space.onSeg oc.seg fun sg =>
                    { sg with nalloc2 := sg.nalloc2 + 1, nfixed := sg.nfixed + 1, nobj := sg.nobj + 1 }
                  ocs := s.ocs.set i { oc with home := some oc.seg } }
  else none

/-- `SMP_FreeObj`, from `HSH_Deref`, which frees the objcore. -/
def freeStep (s : SiloUse) (i : ℕ) (oc : Objcore) : Option SiloUse := do
  let sg ← s.space.seg? oc.seg
  if oc.vampire = false ∧ 0 < sg.nobj ∧ 0 < sg.nfixed then
    some { s with space := s.space.onSeg oc.seg fun sg => { sg with nobj := sg.nobj - 1, nfixed := sg.nfixed - 1 }
                  ocs := s.ocs.eraseIdx i }
  else none

/-- The objcores that `smp_load_seg` makes. -/
def loaded (id : ℕ) (live : List Bool) : List Objcore :=
  (live.filter fun b => b).map fun _ => ⟨id, some id, true⟩

/-- `smp_load_seg` -/
def loadStep (s : SiloUse) (id : ℕ) (signed : Bool) (live : List Bool) : Option SiloUse := do
  let sg ← s.space.seg? id
  if id ∉ s.mustLoad ∨ live.length ≠ sg.pnalloc then none
  else if sg.objlist = 0 ∨ signed = false then some { s with mustLoad := s.mustLoad.erase id }
  else some { s with space := s.space.onSeg id fun sg =>
                       { sg with nalloc2 := sg.pnalloc, nobj := (loaded id live).length }
                     mustLoad := s.mustLoad.erase id
                     hold := s.hold.erase id
                     ocs := s.ocs ++ loaded id live }

/-- `SMP_Fixup` -/
def fixupStep (s : SiloUse) (i : ℕ) (oc : Objcore) : Option SiloUse := do
  let _ ← s.space.seg? oc.seg
  if oc.vampire then
    some { s with space := s.space.onSeg oc.seg fun sg => { sg with nfixed := sg.nfixed + 1 }
                  ocs := s.ocs.set i { oc with vampire := false } }
  else none

/-- A step; `none` is the end of the program, also when it uses a segment that was freed. -/
def useStep (s : SiloUse) : UseOp → Option SiloUse
  | .newSeg => (smpNewSeg g s.space).toOption.map fun sp => { s with space := sp }
  | .closeSeg => (smpCloseSeg g s.space).toOption.map fun sp => { s with space := sp }
  | .data size => (allocSeg g s.space size false).map fun r => { s with space := r.1 }
  | .reserve size => (allocSeg g s.space size true).map fun r =>
      { s with space := r.1, ocs := s.ocs ++ (r.2.map fun id => ⟨id, none, false⟩).toList }
  | .again i size => do
    let oc ← s.ocs[i]?
    let r ← allocSeg g s.space size true
    if oc.vampire then none
    else some { s with space := r.1, ocs := s.ocs.set i { oc with seg := r.2.getD oc.seg } }
  | .object i => do objectStep s i (← s.ocs[i]?)
  | .free i => do freeStep s i (← s.ocs[i]?)
  | .load id signed live => loadStep s id signed live
  | .fixup i => do fixupStep s i (← s.ocs[i]?)
  | .expire i => do
    let oc ← s.ocs[i]?
    if oc.vampire then some { s with lost := oc.home.toList ++ s.lost, ocs := s.ocs.eraseIdx i } else none

/-- The segments that `smp_open_segs` makes, from the number `n` on. -/
def openedSegs : (n : ℕ) → List Segptr → List SmpSeg
  | _, [] => []
  | n, p :: ps => ⟨n, p.offset.toNat, p.length.toNat, p.objlist.toNat, p.nalloc.toNat, 1, 0, 0, 0, 0, 0,
      p.offset.toNat + p.length.toNat⟩ :: openedSegs (n + 1) ps

/-- A silo that was opened. -/
def openedSilo (free : ℕ) (ps : List Segptr) : SiloUse where
  space := ⟨openedSegs 0 ps, none, free, 0, ps.length, []⟩
  mustLoad := List.range ps.length
  hold := List.range ps.length
  lost := []
  ocs := []

end Objcores

/-! ## What is wanted -/

section Spec

/-- The live objects and objcores that were counted in a segment. -/
def SiloUse.registered (s : SiloUse) (id : ℕ) : ℕ := s.ocs.countP fun oc => oc.home = some id

def Counted (s : SiloUse) : Prop := ∀ sg ∈ s.space.segments, sg.nobj = s.registered sg.id + s.hold.count sg.id

def Slotted (s : SiloUse) : Prop := ∀ sg ∈ s.space.segments, sg.nalloc2 ≤ sg.nalloc1

def Kept (s : SiloUse) : Prop := ∀ oc ∈ s.ocs, ∃ sg ∈ s.space.segments, sg.id = oc.seg

variable (g : Media)

/-- An object is freed only when `smp_object` was called for it, in the segment that it points to now. -/
def FreeOk (s : SiloUse) : UseOp → Prop
  | .free i => ∀ oc ∈ s.ocs[i]?, oc.home = some oc.seg
  | _ => True

/-- No objcore expires before it is fixed up. -/
def ExpireOk (_ : SiloUse) : UseOp → Prop
  | .expire _ => False
  | _ => True

/-- A segment that is loaded had no object. -/
def LoadOk (s : SiloUse) : UseOp → Prop
  | .load id signed _ => ∀ sg ∈ s.space.seg? id, sg.objlist = 0 ∨ signed = false ∨ sg.pnalloc = 0
  | _ => True

/-- When a segment that was used is closed, no objcore that is not counted in its segment points to one of the empty segments
at the front of the list. -/
def CloseKeeps (ocs : List Objcore) (s : Space) : Prop :=
  (∀ sg ∈ s.cur, sg.nalloc ≠ 0) → ∀ oc ∈ ocs, oc.home ≠ some oc.seg →
    ∀ sg ∈ s.segments.takeWhile (fun sg => decide (sg.nobj = 0)), sg.id ≠ oc.seg

/-- `C` holds whenever `smp_alloc` closes a segment, and `F` of the one that is used. -/
def TriesMeet (C : Space → Prop) (F : SmpSeg → Prop) (oc : Bool) : (tries : ℕ) → Space → (size : ℕ) → Prop
  | 0, s, size => ∀ sg ∈ s.cur, ∀ left ∈ (smpSpaceleft sg).toOption,
    if Fits g sg oc left (trimmed s oc left size).2 then F sg else C s
  | tries + 1, s, size => ∀ sg ∈ s.cur, ∀ left ∈ (smpSpaceleft sg).toOption,
    if Fits g sg oc left (trimmed s oc left size).2 then F sg
    else C s ∧ ∀ s₁ ∈ (smpCloseSeg g s).toOption, ∀ s₂ ∈ (smpNewSeg g s₁).toOption,
      TriesMeet C F oc tries s₂ (trimmed s oc left size).1

/-- The condition of `smp_alloc`: the one of the segments that it closes, and the number of allocations has 32 bits. -/
def AllocKeeps (s : SiloUse) (size : ℕ) (oc : Bool) : Prop :=
  TriesMeet g (CloseKeeps s.ocs) (fun sg => sg.nalloc + 1 < 2 ^ 32) oc 2 s.space (cAlign size)

def KeepOk (s : SiloUse) : UseOp → Prop
  | .closeSeg => CloseKeeps s.ocs s.space
  | .data size => AllocKeeps g s size false
  | .reserve size => AllocKeeps g s size true
  | .again _ size => AllocKeeps g s size true
  | _ => True

instance (s : SiloUse) : (op : UseOp) → Decidable (FreeOk s op)
  | .free i => inferInstanceAs (Decidable (∀ oc ∈ s.ocs[i]?, oc.home = some oc.seg))
  | .newSeg | .closeSeg | .data _ | .reserve _ | .again .. | .object _ | .load .. | .fixup _ | .expire _ => isTrue trivial

instance (s : SiloUse) : (op : UseOp) → Decidable (ExpireOk s op)
  | .expire _ => isFalse fun h => h
  | .newSeg | .closeSeg | .data _ | .reserve _ | .again .. | .object _ | .load .. | .fixup _ | .free _ => isTrue trivial

instance (ocs : List Objcore) (s : Space) : Decidable (CloseKeeps ocs s) :=
  inferInstanceAs (Decidable ((∀ sg ∈ s.cur, _) → ∀ oc ∈ ocs, _ → ∀ sg ∈ s.segments.takeWhile _, _))

instance decTriesMeet (C : Space → Prop) (F : SmpSeg → Prop) [∀ s, Decidable (C s)] [∀ sg, Decidable (F sg)] (oc : Bool) :
    (tries : ℕ) → (s : Space) → (size : ℕ) → Decidable (TriesMeet g C F oc tries s size)
  | 0, s, _ => inferInstanceAs (Decidable (∀ sg ∈ s.cur, ∀ left ∈ (smpSpaceleft sg).toOption, _))
  | tries + 1, s, _ =>
    have := fun s₂ size => decTriesMeet C F oc tries s₂ size
    inferInstanceAs (Decidable (∀ sg ∈ s.cur, ∀ left ∈ (smpSpaceleft sg).toOption, _))

instance (s : SiloUse) : (op : UseOp) → Decidable (KeepOk g s op)
  | .closeSeg => inferInstanceAs (Decidable (CloseKeeps s.ocs s.space))
  | .data size => inferInstanceAs (Decidable (TriesMeet g (CloseKeeps s.ocs) _ false 2 s.space (cAlign size)))
  | .reserve size | .again _ size => inferInstanceAs (Decidable (TriesMeet g (CloseKeeps s.ocs) _ true 2 s.space (cAlign size)))
  | .newSeg | .object _ | .load .. | .fixup _ | .free _ | .expire _ => isTrue trivial

end Spec

/-! ## Operations on the space -/

section Space

variable {g : Media} {s s' : Space} {sg : SmpSeg} {oc : Bool} {size size' needed tries : ℕ}

theorem ok_of_bind {ε α β : Type} {x : Except ε α} {f : α → Except ε β} {r : β} (h : x >>= f = .ok r) :
    ∃ a, x = .ok a ∧ f a = .ok r := by
  cases x with
  | error e => cases h
  | ok a => exact ⟨a, rfl, h⟩

theorem closeSeg_cases (h : smpCloseSeg g s = .ok s') :
    ∃ sg, s.cur = some sg ∧ s'.cur = none ∧ s'.nextId = s.nextId ∧ s'.bites = s.bites ∧
      ((sg.nalloc = 0 ∧ s'.closed = s.closed) ∨
        (sg.nalloc ≠ 0 ∧ s'.closed = dropFront (s.closed ++ [sg.shut s.objreserv]))) := by
  unfold smpCloseSeg at h
  split at h
  · cases h
  · rename_i sg hcur
    refine ⟨sg, hcur, ?_⟩
    split at h
    · cases h
    · split at h
      · rename_i hzero
        cases h
        exact ⟨rfl, rfl, rfl, .inl ⟨hzero, rfl⟩⟩
      · rename_i hnz
        split at h
        · cases h
        · obtain ⟨left, hleft, h⟩ := ok_of_bind h
          split at h
          · cases h
          · simp only at h
            split at h
            · cases h
              exact ⟨rfl, rfl, rfl, .inr ⟨hnz, rfl⟩⟩
            · cases h

theorem placeSeg_cases {off : ℕ} (h : placeSeg g s off = .ok s') :
    s'.closed = s.closed ∧ s'.cur = some (newSegAt g s off) ∧ s'.nextId = s.nextId + 1 ∧ s'.bites = s.bites ∧
      s'.objreserv = 0 := by
  unfold placeSeg at h
  split at h
  · cases h
  · split at h
    · cases h
    · split at h
      · cases h
      · cases h
        exact ⟨rfl, rfl, rfl, rfl, rfl⟩

theorem newSeg_cases (h : smpNewSeg g s = .ok s') :
    s.cur = none ∧ ∃ off, s'.closed = s.closed ∧ s'.cur = some (newSegAt g s off) ∧ s'.nextId = s.nextId + 1 ∧
      s'.bites = s.bites ∧ s'.objreserv = 0 := by
  unfold smpNewSeg at h
  split at h
  · cases h
  · rename_i hcur
    refine ⟨Option.not_isSome_iff_eq_none.1 hcur, ?_⟩
    split at h
    · cases h
    · split at h
      · split at h
        · cases h
        · split at h
          · cases h
          · exact ⟨_, placeSeg_cases h⟩
      · exact ⟨_, placeSeg_cases h⟩

theorem grab_cases (h : grab g oc s sg size = .ok s') :
    s' = s.bitten sg oc size ∧ (oc = false ∨ sg.nalloc1 < g.aimNobj) := by
  unfold grab at h
  split at h
  · cases h
  · rename_i hoc
    obtain ⟨left, -, h⟩ := ok_of_bind h
    split at h
    · cases h
    · split at h
      · cases h
      · cases h
        refine ⟨rfl, ?_⟩
        cases oc with
        | false => exact .inl rfl
        | true => exact .inr (Nat.lt_of_not_le fun hle => hoc ⟨rfl, hle⟩)

section Tries

variable {P C : Space → Prop} {F : SmpSeg → Prop}

/-- The tries of `smp_alloc` close segments and make new ones.  It ends with the current segment, or with one that does not
fit. -/
theorem allocTries_inv
    (hstep : ∀ {s s₁ s₂}, P s → C s → smpCloseSeg g s = .ok s₁ → smpNewSeg g s₁ = .ok s₂ → P s₂)
    (h : allocTries g oc tries s size = .ok (s', sg, size', needed)) (hP : P s) (hmeet : TriesMeet g C F oc tries s size) :
    P s' ∧ ∃ left, smpSpaceleft sg = .ok left ∧
      ((s'.cur = some sg ∧ F sg) ∨ ¬ Fits g sg oc left needed) := by
  induction tries generalizing s size with
  | zero =>
    rw [allocTries] at h
    rw [TriesMeet] at hmeet
    split at h
    · cases h
    · rename_i sg₀ hcur
      obtain ⟨left, hleft, h⟩ := ok_of_bind h
      have hm := hmeet sg₀ hcur left (by rw [hleft]; rfl)
      simp only at h
      split at h
      · rename_i hfits
        rw [if_pos hfits] at hm
        cases h
        exact ⟨hP, left, hleft, .inl ⟨hcur, hm⟩⟩
      · rename_i hfits
        rw [if_neg hfits] at hm
        obtain ⟨s₁, h₁, h⟩ := ok_of_bind h
        obtain ⟨s₂, h₂, h⟩ := ok_of_bind h
        cases h
        exact ⟨hstep hP hm h₁ h₂, left, hleft, .inr hfits⟩
  | succ tries ih =>
    rw [allocTries] at h
    rw [TriesMeet] at hmeet
    split at h
    · cases h
    · rename_i sg₀ hcur
      obtain ⟨left, hleft, h⟩ := ok_of_bind h
      have hm := hmeet sg₀ hcur left (by rw [hleft]; rfl)
      simp only at h
      split at h
      · rename_i hfits
        rw [if_pos hfits] at hm
        cases h
        exact ⟨hP, left, hleft, .inl ⟨hcur, hm⟩⟩
      · rename_i hfits
        rw [if_neg hfits] at hm
        obtain ⟨s₁, h₁, h⟩ := ok_of_bind h
        obtain ⟨s₂, h₂, h⟩ := ok_of_bind h
        exact ih h (hstep hP hm.1 h₁ h₂) (hm.2 s₁ (by rw [h₁]; rfl) s₂ (by rw [h₂]; rfl))

theorem triesMeet_of_forall (hC : ∀ s, C s) (hF : ∀ sg, F sg) : TriesMeet g C F oc tries s size := by
  induction tries generalizing s size with
  | zero =>
    rw [TriesMeet]
    intro sg _ left _
    split
    · exact hF sg
    · exact hC s
  | succ tries ih =>
    rw [TriesMeet]
    intro sg _ left _
    split
    · exact hF sg
    · exact ⟨hC s, fun s₁ _ s₂ _ => ih⟩

/-- **`smp_alloc`** returns nothing, or takes a bite from the current segment; before that, segments were closed and made. -/
theorem alloc_cases (hstep : ∀ {s s₁ s₂}, P s → C s → smpCloseSeg g s = .ok s₁ → smpNewSeg g s₁ = .ok s₂ → P s₂)
    {r : Space × Option ℕ} (h : allocSeg g s size oc = some r) (hP : P s)
    (hmeet : TriesMeet g C F oc 2 s (cAlign size)) :
    (P r.1 ∧ r.2 = none) ∨
      ∃ s₁ sg size', P s₁ ∧ s₁.cur = some sg ∧ F sg ∧ r = (s₁.bitten sg oc size', some sg.id) := by
  obtain ⟨s', hs', rfl⟩ := Option.map_eq_some_iff.1 h
  have hs' := ok_of_toOption hs'
  obtain ⟨⟨s₁, sg, size', needed⟩, htries, hs'⟩ := ok_of_bind hs'
  obtain ⟨⟨hP₁, hbites⟩, left, hleft, hcur⟩ := allocTries_inv
    (P := fun s₁ => P s₁ ∧ s₁.bites = s.bites) (C := C) (F := F) (fun hP hC h₁ h₂ => by
      obtain ⟨-, -, -, -, hb₁, -⟩ := closeSeg_cases h₁
      obtain ⟨-, -, -, -, -, hb₂, -⟩ := newSeg_cases h₂
      exact ⟨hstep hP.1 hC h₁ h₂, by rw [hb₂, hb₁, hP.2]⟩) htries ⟨hP, rfl⟩ hmeet
  simp only at hs'
  split at hs'
  · cases hs'
  · obtain ⟨left', hleft', hs'⟩ := ok_of_bind hs'
    rw [hleft] at hleft'
    cases hleft'
    split at hs'
    · -- nothing is returned
      cases hs'
      left
      refine ⟨hP₁, ?_⟩
      rw [hbites, List.drop_length]
      rfl
    · rename_i hneeded
      obtain ⟨rfl, hoc⟩ := grab_cases hs'
      rcases hcur with ⟨hcur, hF⟩ | hfits
      · refine .inr ⟨s₁, sg, size', hP₁, hcur, hF, ?_⟩
        simp only [Space.bitten, hbites, List.drop_left, List.head?_cons, Option.map_some]
      · -- a segment that did not fit is not used
        exact absurd ⟨Nat.le_of_not_lt hneeded, hoc⟩ hfits

end Tries

end Space

/-! ## The number of objects -/

section Counts

variable {g : Media} {s s' s₁ s₂ : Space} {sg : SmpSeg} {oc : Bool} {size : ℕ} {f : ℕ → ℕ} {ml : List ℕ}

/-- The segments have numbers of their own. -/
structure SpaceIds (s : Space) : Prop where
  nodup : (s.segments.map SmpSeg.id).Nodup
  lt : ∀ sg ∈ s.segments, sg.id < s.nextId

/-- Each segment has the number of objects that `f` says; those of `ml` are still to be loaded. -/
structure SpaceUse (f : ℕ → ℕ) (ml : List ℕ) (s : Space) : Prop extends SpaceIds s where
  counts : ∀ sg ∈ s.segments, sg.nobj = f sg.id
  zero : ∀ id, s.nextId ≤ id → f id = 0
  ml_lt : ∀ id ∈ ml, id < s.nextId
  cur : ∀ sg ∈ s.cur, sg.id ∉ ml

/-- The segments after `smp_close_seg`. -/
theorem closeSeg_segments (h : smpCloseSeg g s = .ok s') :
    ∃ sg, s.cur = some sg ∧ ((sg.nalloc = 0 ∧ s'.segments = s.closed) ∨
      (sg.nalloc ≠ 0 ∧ s'.segments = dropFront (s.closed ++ [sg.shut s.objreserv]))) := by
  obtain ⟨sg, hcur, hcur', -, -, hclosed⟩ := closeSeg_cases h
  refine ⟨sg, hcur, ?_⟩
  rw [segments_of_none hcur']
  exact hclosed

/-- The segments with the current one closed. -/
theorem map_shut {α : Type} {q : SmpSeg → α} (hq : ∀ (sg : SmpSeg) r, q (sg.shut r) = q sg) (hcur : s.cur = some sg)
    (r : ℕ) : (s.closed ++ [sg.shut r]).map q = s.segments.map q := by
  rw [segments_of_some hcur, List.map_append, List.map_append, List.map_singleton, List.map_singleton, hq]

/-- What `smp_close_seg` leaves was there before. -/
theorem closeSeg_sublist {α : Type} {q : SmpSeg → α} (hq : ∀ (sg : SmpSeg) r, q (sg.shut r) = q sg)
    (h : smpCloseSeg g s = .ok s') : (s'.segments.map q).Sublist (s.segments.map q) := by
  obtain ⟨sg, hcur, ⟨-, hsegs⟩ | ⟨-, hsegs⟩⟩ := closeSeg_segments h
  · rw [hsegs, segments_of_some hcur, List.map_append]
    exact List.sublist_append_left _ _
  · rw [hsegs, ← map_shut hq hcur s.objreserv]
    exact (List.dropWhile_sublist _).map q

theorem SpaceIds.closeSeg (h : SpaceIds s) (hs : smpCloseSeg g s = .ok s') : SpaceIds s' := by
  obtain ⟨-, -, -, hnext, -, -⟩ := closeSeg_cases hs
  have hsub : (s'.segments.map SmpSeg.id).Sublist (s.segments.map SmpSeg.id) := closeSeg_sublist (fun _ _ => rfl) hs
  refine ⟨h.nodup.sublist hsub, fun sg hsg => ?_⟩
  obtain ⟨sg₀, hsg₀, hid⟩ := List.mem_map.1 (hsub.subset (List.mem_map_of_mem hsg))
  rw [hnext, ← hid]
  exact h.lt sg₀ hsg₀

theorem SpaceUse.closeSeg (h : SpaceUse f ml s) (hs : smpCloseSeg g s = .ok s') : SpaceUse f ml s' := by
  obtain ⟨-, -, hcur', hnext, -, -⟩ := closeSeg_cases hs
  refine ⟨h.toSpaceIds.closeSeg hs, ?_, ?_, ?_, ?_⟩
  · intro sg hsg
    have hsub := closeSeg_sublist (q := fun sg => (sg.id, sg.nobj)) (fun _ _ => rfl) hs
    obtain ⟨sg₀, hsg₀, he⟩ := List.mem_map.1 (hsub.subset (List.mem_map_of_mem hsg))
    obtain ⟨hid, hnobj⟩ := Prod.mk.injEq .. ▸ he
    rw [← hid, ← hnobj]
    exact h.counts sg₀ hsg₀
  · rw [hnext]
    exact h.zero
  · rw [hnext]
    exact h.ml_lt
  · intro sg hsg
    rw [hcur'] at hsg
    cases hsg

theorem newSeg_segments (h : smpNewSeg g s = .ok s') :
    ∃ off, s'.segments = s.segments ++ [newSegAt g s off] ∧ s'.cur = some (newSegAt g s off) ∧ s'.nextId = s.nextId + 1 := by
  obtain ⟨hcur, off, hclosed, hcur', hnext, -⟩ := newSeg_cases h
  refine ⟨off, ?_, hcur', hnext⟩
  rw [segments_of_some hcur', segments_of_none hcur, hclosed]

theorem SpaceIds.newSeg (h : SpaceIds s) (hs : smpNewSeg g s = .ok s') : SpaceIds s' := by
  obtain ⟨off, hsegs, -, hnext⟩ := newSeg_segments hs
  refine ⟨?_, fun sg hsg => ?_⟩
  · rw [hsegs, List.map_append, List.nodup_append]
    refine ⟨h.nodup, by simp, fun a ha b hb => ?_⟩
    obtain ⟨sg, hsg, rfl⟩ := List.mem_map.1 ha
    have hlt := h.lt sg hsg
    rw [List.map_singleton, List.mem_singleton] at hb
    rw [hb, newSegAt]
    exact Nat.ne_of_lt hlt
  · rw [hsegs] at hsg
    rw [hnext]
    rcases List.mem_append.1 hsg with hsg | hsg
    · exact Nat.lt_succ_of_lt (h.lt sg hsg)
    · rw [List.mem_singleton.1 hsg]
      exact Nat.lt_succ_self _

theorem SpaceUse.newSeg (h : SpaceUse f ml s) (hs : smpNewSeg g s = .ok s') : SpaceUse f ml s' := by
  obtain ⟨off, hsegs, hcur', hnext⟩ := newSeg_segments hs
  refine ⟨h.toSpaceIds.newSeg hs, ?_, ?_, ?_, ?_⟩
  · intro sg hsg
    rw [hsegs] at hsg
    rcases List.mem_append.1 hsg with hsg | hsg
    · exact h.counts sg hsg
    · rw [List.mem_singleton.1 hsg]
      exact (h.zero s.nextId (le_refl _)).symm
  · intro id hid
    rw [hnext] at hid
    exact h.zero id (by omega)
  · intro id hid
    rw [hnext]
    exact Nat.lt_succ_of_lt (h.ml_lt id hid)
  · intro sg hsg hml
    rw [hcur'] at hsg
    cases hsg
    exact Nat.lt_irrefl _ (h.ml_lt _ hml)

/-- A bite does not change what is counted. -/
theorem map_bitten {α : Type} {q : SmpSeg → α} (hq : ∀ (sg : SmpSeg) oc n, q (sg.bitten oc n) = q sg)
    (hcur : s.cur = some sg) : (s.bitten sg oc size).segments.map q = s.segments.map q := by
  have hcur' : (s.bitten sg oc size).cur = some (sg.bitten oc size) := rfl
  rw [segments_of_some hcur', segments_of_some hcur, List.map_append, List.map_append, List.map_singleton,
    List.map_singleton, hq]
  rfl

theorem SpaceIds.bitten (h : SpaceIds s) (hcur : s.cur = some sg) : SpaceIds (s.bitten sg oc size) := by
  have hmap : (s.bitten sg oc size).segments.map SmpSeg.id = s.segments.map SmpSeg.id := map_bitten (fun _ _ _ => rfl) hcur
  refine ⟨?_, fun sg' hsg' => ?_⟩
  · rw [hmap]
    exact h.nodup
  · obtain ⟨sg₀, hsg₀, hid⟩ := List.mem_map.1 (hmap ▸ List.mem_map_of_mem hsg')
    rw [← hid]
    exact h.lt sg₀ hsg₀

theorem SpaceUse.bitten (h : SpaceUse f ml s) (hcur : s.cur = some sg) : SpaceUse f ml (s.bitten sg oc size) := by
  refine ⟨h.toSpaceIds.bitten hcur, fun sg' hsg' => ?_, h.zero, h.ml_lt, fun sg' hsg' => ?_⟩
  · have hmap : (s.bitten sg oc size).segments.map (fun sg => (sg.id, sg.nobj)) = _ := map_bitten (fun _ _ _ => rfl) hcur
    obtain ⟨sg₀, hsg₀, he⟩ := List.mem_map.1 (hmap ▸ List.mem_map_of_mem hsg')
    obtain ⟨hid, hnobj⟩ := Prod.mk.injEq .. ▸ he
    rw [← hid, ← hnobj]
    exact h.counts sg₀ hsg₀
  · cases hsg'
    exact h.cur sg hcur

/-- **`smp_alloc`** keeps the numbers, and the storage is in a segment that was not to be loaded. -/
theorem SpaceUse.alloc (h : SpaceUse f ml s) {r : Space × Option ℕ} (hr : allocSeg g s size oc = some r) :
    SpaceUse f ml r.1 ∧ ∀ id ∈ r.2, id ∉ ml := by
  have hstep : ∀ {s s₁ s₂}, SpaceUse f ml s → True → smpCloseSeg g s = .ok s₁ → smpNewSeg g s₁ = .ok s₂ →
      SpaceUse f ml s₂ := fun hs _ h₁ h₂ => (hs.closeSeg h₁).newSeg h₂
  rcases alloc_cases (C := fun _ => True) (F := fun _ => True) hstep hr h
    (triesMeet_of_forall (fun _ => trivial) fun _ => trivial) with ⟨hs, hnone⟩ | ⟨s₁, sg, size', hs, hcur, -, rfl⟩
  · refine ⟨hs, fun id hid => ?_⟩
    rw [hnone] at hid
    cases hid
  · refine ⟨hs.bitten hcur, fun id hid => ?_⟩
    cases hid
    exact hs.cur sg hcur

end Counts

/-! ## One segment, one objcore -/

section Change

variable {s : Space} {f f' : ℕ → ℕ} {ml ml' : List ℕ} {id : ℕ} {φ : SmpSeg → SmpSeg}

theorem segments_onSeg (s : Space) (id : ℕ) (φ : SmpSeg → SmpSeg) :
    (s.onSeg id φ).segments = s.segments.map fun sg => if sg.id = id then φ sg else sg := by
  rw [Space.segments, Space.segments, List.map_append, Space.onSeg]
  cases s.cur <;> rfl

theorem mem_of_seg? {sg : SmpSeg} (h : s.seg? id = some sg) : sg ∈ s.segments ∧ sg.id = id :=
  ⟨List.mem_of_find?_eq_some h, by simpa using List.find?_some h⟩

theorem SpaceUse.congr (h : SpaceUse f ml s) (hf : ∀ id, f' id = f id) (hml : ∀ id ∈ ml', id ∈ ml) :
    SpaceUse f' ml' s := by
  obtain rfl : f' = f := funext hf
  exact ⟨h.toSpaceIds, h.counts, h.zero, fun id hid => h.ml_lt id (hml id hid),
    fun sg hsg hid => h.cur sg hsg (hml _ hid)⟩

theorem onSeg_id (hφ : ∀ sg, (φ sg).id = sg.id) (sg : SmpSeg) : (if sg.id = id then φ sg else sg).id = sg.id := by
  split
  · exact hφ sg
  · rfl

theorem SpaceIds.onSeg (h : SpaceIds s) (hφ : ∀ sg, (φ sg).id = sg.id) : SpaceIds (s.onSeg id φ) := by
  refine ⟨?_, fun sg hsg => ?_⟩
  · have hmap : s.segments.map (SmpSeg.id ∘ fun sg => if sg.id = id then φ sg else sg) = s.segments.map SmpSeg.id :=
      List.map_congr_left fun sg _ => onSeg_id hφ sg
    rw [segments_onSeg, List.map_map, hmap]
    exact h.nodup
  · rw [segments_onSeg] at hsg
    obtain ⟨sg₀, hsg₀, rfl⟩ := List.mem_map.1 hsg
    rw [onSeg_id hφ]
    exact h.lt sg₀ hsg₀

/-- A segment is changed, and its number of objects with it. -/
theorem SpaceUse.onSeg (h : SpaceUse f ml s) (hφ : ∀ sg, (φ sg).id = sg.id) (hlt : id < s.nextId)
    (hother : ∀ i, i ≠ id → f' i = f i) (hnew : ∀ sg ∈ s.segments, sg.id = id → (φ sg).nobj = f' id) :
    SpaceUse f' ml (s.onSeg id φ) := by
  refine ⟨h.toSpaceIds.onSeg hφ, fun sg hsg => ?_, fun i hi => ?_, h.ml_lt, fun sg hsg => ?_⟩
  · rw [segments_onSeg] at hsg
    obtain ⟨sg₀, hsg₀, rfl⟩ := List.mem_map.1 hsg
    rw [onSeg_id hφ]
    by_cases hid : sg₀.id = id
    · rw [if_pos hid, hid]
      exact hnew sg₀ hsg₀ hid
    · rw [if_neg hid, hother _ hid]
      exact h.counts sg₀ hsg₀
  · have hle : s.nextId ≤ i := hi
    rw [hother i (by omega)]
    exact h.zero i hle
  · obtain ⟨sg₀, hsg₀, rfl⟩ := Option.map_eq_some_iff.1 hsg
    rw [onSeg_id hφ]
    exact h.cur sg₀ hsg₀

variable {ocs : List Objcore} {i : ℕ} {oc oc' : Objcore} {p : Objcore → Bool}

theorem countP_eraseIdx_add (h : ocs[i]? = some oc) :
    ocs.countP p = (ocs.eraseIdx i).countP p + if p oc then 1 else 0 := by
  induction ocs generalizing i with
  | nil => cases h
  | cons a ocs ih =>
    cases i with
    | zero =>
      cases h
      rw [List.countP_cons]
      rfl
    | succ i =>
      have h' : ocs[i]? = some oc := h
      rw [List.eraseIdx_cons_succ, List.countP_cons, List.countP_cons, ih h']
      omega

theorem countP_set_add (h : ocs[i]? = some oc) :
    (ocs.set i oc').countP p = (ocs.eraseIdx i).countP p + if p oc' then 1 else 0 := by
  induction ocs generalizing i with
  | nil => cases h
  | cons a ocs ih =>
    cases i with
    | zero =>
      rw [List.set_cons_zero, List.countP_cons]
      rfl
    | succ i =>
      have h' : ocs[i]? = some oc := h
      rw [List.set_cons_succ, List.eraseIdx_cons_succ, List.countP_cons, List.countP_cons, ih h']
      omega

end Change

/-! ## The invariant -/

section Inv

variable {g : Media} {s s' : SiloUse} {i id : ℕ} {oc : Objcore}

/-- What `nobj` is. -/
def SiloUse.total (s : SiloUse) (id : ℕ) : ℕ := s.registered id + s.hold.count id + s.lost.count id

structure UseInv (s : SiloUse) : Prop where
  space : SpaceUse s.total s.mustLoad s.space
  nodup : s.mustLoad.Nodup
  unloaded : ∀ id ∈ s.mustLoad, s.hold.count id = 1 ∧ s.lost.count id = 0 ∧
    ∀ oc ∈ s.ocs, oc.seg ≠ id ∧ oc.home ≠ some id

/-- No objcore is counted in a segment that is still to be loaded. -/
theorem UseInv.registered_zero (h : UseInv s) (hid : id ∈ s.mustLoad) : s.registered id = 0 := by
  rw [SiloUse.registered, List.countP_eq_zero]
  intro oc hoc
  simpa using ((h.unloaded id hid).2.2 oc hoc).2

/-- The objcores after one of them was changed. -/
theorem UseInv.set_unloaded (h : UseInv s) (oc' : Objcore)
    (hoc' : ∀ id ∈ s.mustLoad, oc'.seg ≠ id ∧ oc'.home ≠ some id) :
    ∀ id ∈ s.mustLoad, ∀ oc ∈ s.ocs.set i oc', oc.seg ≠ id ∧ oc.home ≠ some id := by
  intro id hid oc hoc
  rcases List.mem_or_eq_of_mem_set hoc with hoc | rfl
  · exact (h.unloaded id hid).2.2 oc hoc
  · exact hoc' id hid

/-- **`smp_object`** -/
theorem UseInv.object (h : UseInv s) (hi : s.ocs[i]? = some oc) (hs : objectStep s i oc = some s') : UseInv s' := by
  obtain ⟨sg, hsg, hs⟩ := Option.bind_eq_some_iff.1 hs
  obtain ⟨hmem, hid⟩ := mem_of_seg? hsg
  split at hs
  · rename_i hcond
    cases hs
    have hseg : ∀ id ∈ s.mustLoad, oc.seg ≠ id := fun id hid =>
      ((h.unloaded id hid).2.2 oc (List.mem_of_getElem? hi)).1
    have htotal : ∀ id, ({ s with ocs := s.ocs.set i { oc with home := some oc.seg } } : SiloUse).total id =
        s.total id + if oc.seg = id then 1 else 0 := by
      intro id
      simp only [SiloUse.total, SiloUse.registered]
      rw [countP_set_add hi, countP_eraseIdx_add hi, hcond.2]
      simp
      omega
    refine ⟨?_, h.nodup, fun id hid => ?_⟩
    · refine h.space.onSeg (fun _ => rfl) ?_ (fun j hj => ?_) fun sg' hsg' hid' => ?_
      · rw [← hid]
        exact h.space.lt sg hmem
      · exact (htotal j).trans (by rw [if_neg (Ne.symm hj), Nat.add_zero])
      · have hcount := h.space.counts sg' hsg'
        rw [hid'] at hcount
        exact (congrArg (· + 1) hcount).trans ((htotal oc.seg).trans (by rw [if_pos rfl])).symm
    · obtain ⟨hhold, hlost, -⟩ := h.unloaded id hid
      have hoc' : ∀ id ∈ s.mustLoad, oc.seg ≠ id ∧ some oc.seg ≠ some id := fun id hid =>
        ⟨hseg id hid, by simpa using hseg id hid⟩
      exact ⟨hhold, hlost, h.set_unloaded { oc with home := some oc.seg } hoc' id hid⟩
  · cases hs

/-- **`SMP_FreeObj`** of an object that is counted in its segment. -/
theorem UseInv.free (h : UseInv s) (hi : s.ocs[i]? = some oc) (hhome : oc.home = some oc.seg)
    (hs : freeStep s i oc = some s') : UseInv s' := by
  obtain ⟨sg, hsg, hs⟩ := Option.bind_eq_some_iff.1 hs
  obtain ⟨hmem, hid⟩ := mem_of_seg? hsg
  split at hs
  · cases hs
    have htotal : ∀ id, s.total id =
        ({ s with ocs := s.ocs.eraseIdx i } : SiloUse).total id + if oc.seg = id then 1 else 0 := by
      intro id
      simp only [SiloUse.total, SiloUse.registered]
      rw [countP_eraseIdx_add hi, hhome]
      simp
      omega
    refine ⟨?_, h.nodup, fun id hid => ?_⟩
    · refine h.space.onSeg (fun _ => rfl) ?_ (fun j hj => ?_) fun sg' hsg' hid' => ?_
      · rw [← hid]
        exact h.space.lt sg hmem
      · have hj' := htotal j
        rw [if_neg (Ne.symm hj), Nat.add_zero] at hj'
        exact hj'.symm
      · have hcount := h.space.counts sg' hsg'
        rw [hid', htotal, if_pos rfl] at hcount
        show sg'.nobj - 1 = _
        rw [hcount]
        rfl
    · obtain ⟨hhold, hlost, hocs⟩ := h.unloaded id hid
      exact ⟨hhold, hlost, fun oc hoc => hocs oc (List.mem_of_mem_eraseIdx hoc)⟩
  · cases hs

/-- **`SMP_Fixup`** -/
theorem UseInv.fixup (h : UseInv s) (hi : s.ocs[i]? = some oc) (hs : fixupStep s i oc = some s') : UseInv s' := by
  obtain ⟨sg, hsg, hs⟩ := Option.bind_eq_some_iff.1 hs
  obtain ⟨hmem, hid⟩ := mem_of_seg? hsg
  split at hs
  · cases hs
    have htotal : ∀ id, ({ s with ocs := s.ocs.set i { oc with vampire := false } } : SiloUse).total id = s.total id := by
      intro id
      simp only [SiloUse.total, SiloUse.registered]
      rw [countP_set_add hi, countP_eraseIdx_add hi]
    refine ⟨?_, h.nodup, fun id hid => ?_⟩
    · refine h.space.onSeg (fun _ => rfl) ?_ (fun j hj => htotal j) fun sg' hsg' hid' => ?_
      · rw [← hid]
        exact h.space.lt sg hmem
      · have hcount := h.space.counts sg' hsg'
        rw [hid'] at hcount
        exact hcount.trans (htotal oc.seg).symm
    · obtain ⟨hhold, hlost, hocs⟩ := h.unloaded id hid
      refine ⟨hhold, hlost, h.set_unloaded { oc with vampire := false } (fun id hid => ?_) id hid⟩
      exact (h.unloaded id hid).2.2 oc (List.mem_of_getElem? hi)
  · cases hs

theorem length_loaded (id : ℕ) (live : List Bool) :
    (loaded id live).countP (fun oc => oc.home = some id) = (loaded id live).length := by
  rw [List.countP_eq_length]
  intro oc hoc
  obtain ⟨_, -, rfl⟩ := List.mem_map.1 hoc
  simp

theorem loaded_other {id j : ℕ} (live : List Bool) (hj : j ≠ id) :
    (loaded id live).countP (fun oc => oc.home = some j) = 0 := by
  rw [List.countP_eq_zero]
  intro oc hoc
  obtain ⟨_, -, rfl⟩ := List.mem_map.1 hoc
  simpa using Ne.symm hj

/-- **`smp_load_seg`** -/
theorem UseInv.load (h : UseInv s) {signed : Bool} {live : List Bool} (hs : loadStep s id signed live = some s') :
    UseInv s' := by
  obtain ⟨sg, hsg, hs⟩ := Option.bind_eq_some_iff.1 hs
  obtain ⟨hmem, hid⟩ := mem_of_seg? hsg
  split at hs
  · cases hs
  · rename_i hcond
    have hload : id ∈ s.mustLoad := by
      by_contra hn
      exact hcond (.inl hn)
    have hsub : ∀ j ∈ s.mustLoad.erase id, j ∈ s.mustLoad := fun j hj => List.mem_of_mem_erase hj
    split at hs
    · -- the segment stays as it was opened
      cases hs
      exact ⟨h.space.congr (fun _ => rfl) hsub, h.nodup.erase id, fun j hj => h.unloaded j (hsub j hj)⟩
    · cases hs
      obtain ⟨hhold, hlost, -⟩ := h.unloaded id hload
      have hzero := h.registered_zero hload
      refine ⟨?_, h.nodup.erase id, fun j hj => ?_⟩
      · refine (h.space.congr (fun _ => rfl) hsub).onSeg (fun _ => rfl) ?_ (fun j hj => ?_) fun sg' _ _ => ?_
        · rw [← hid]
          exact h.space.lt sg hmem
        · simp only [SiloUse.total, SiloUse.registered, List.countP_append, loaded_other live hj, List.count_erase_of_ne hj,
            Nat.add_zero]
        · simp only [SiloUse.total, SiloUse.registered, List.countP_append, length_loaded, List.count_erase_self, hhold, hlost]
          rw [SiloUse.registered] at hzero
          rw [hzero]
          omega
      · have hne : j ≠ id := fun he => h.nodup.not_mem_erase (he ▸ hj)
        obtain ⟨hhold', hlost', hocs⟩ := h.unloaded j (hsub j hj)
        refine ⟨?_, hlost', fun oc hoc => ?_⟩
        · rw [List.count_erase_of_ne hne]
          exact hhold'
        · rcases List.mem_append.1 hoc with hoc | hoc
          · exact hocs oc hoc
          · obtain ⟨_, -, rfl⟩ := List.mem_map.1 hoc
            exact ⟨Ne.symm hne, by simpa using Ne.symm hne⟩

/-- **An objcore expires** before it is fixed up. -/
theorem UseInv.expire (h : UseInv s) (hi : s.ocs[i]? = some oc) :
    UseInv { s with lost := oc.home.toList ++ s.lost, ocs := s.ocs.eraseIdx i } := by
  have htotal : ∀ id, ({ s with lost := oc.home.toList ++ s.lost, ocs := s.ocs.eraseIdx i } : SiloUse).total id =
      s.total id := by
    intro id
    simp only [SiloUse.total, SiloUse.registered, List.count_append]
    rw [countP_eraseIdx_add hi]
    cases oc.home with
    | none =>
      simp
    | some j =>
      simp only [Option.toList_some, List.count_singleton, Option.some.injEq, decide_eq_true_eq, beq_iff_eq]
      omega
  refine ⟨h.space.congr htotal fun _ hid => hid, h.nodup, fun id hid => ?_⟩
  obtain ⟨hhold, hlost, hocs⟩ := h.unloaded id hid
  refine ⟨hhold, ?_, fun oc hoc => hocs oc (List.mem_of_mem_eraseIdx hoc)⟩
  have hne := (hocs oc (List.mem_of_getElem? hi)).2
  simp only [List.count_append, hlost, Nat.add_zero, List.count_eq_zero, Option.mem_toList]
  exact hne

/-- The operations on the space. -/
theorem UseInv.withSpace (h : UseInv s) {sp : Space} (hsp : SpaceUse s.total s.mustLoad sp) :
    UseInv { s with space := sp } := ⟨hsp, h.nodup, h.unloaded⟩

/-- **Storage for a new object.** -/
theorem UseInv.reserve (h : UseInv s) {r : Space × Option ℕ} (hsp : SpaceUse s.total s.mustLoad r.1)
    (hid : ∀ id ∈ r.2, id ∉ s.mustLoad) :
    UseInv { s with space := r.1, ocs := s.ocs ++ (r.2.map fun id => ⟨id, none, false⟩).toList } := by
  have hmem : ∀ oc ∈ (r.2.map fun id => (⟨id, none, false⟩ : Objcore)).toList, oc.home = none ∧ oc.seg ∈ r.2 := by
    intro oc hoc
    obtain ⟨id, hid, rfl⟩ := Option.map_eq_some_iff.1 (Option.mem_toList.1 hoc)
    exact ⟨rfl, hid⟩
  have hzero : ∀ id, (r.2.map fun id => (⟨id, none, false⟩ : Objcore)).toList.countP (fun oc => oc.home = some id) = 0 := by
    intro id
    rw [List.countP_eq_zero]
    intro oc hoc
    rw [(hmem oc hoc).1]
    simp
  refine ⟨hsp.congr (fun id => ?_) fun _ hid => hid, h.nodup, fun id hml => ?_⟩
  · simp only [SiloUse.total, SiloUse.registered, List.countP_append, hzero, Nat.add_zero]
  · obtain ⟨hhold, hlost, hocs⟩ := h.unloaded id hml
    refine ⟨hhold, hlost, fun oc hoc => ?_⟩
    rcases List.mem_append.1 hoc with hoc | hoc
    · exact hocs oc hoc
    · obtain ⟨hhome, hseg⟩ := hmem oc hoc
      refine ⟨fun he => hid _ hseg (he ▸ hml), ?_⟩
      rw [hhome]
      exact fun he => by cases he

/-- **Storage for the same object once more.** -/
theorem UseInv.again (h : UseInv s) (hi : s.ocs[i]? = some oc) {r : Space × Option ℕ}
    (hsp : SpaceUse s.total s.mustLoad r.1) (hid : ∀ id ∈ r.2, id ∉ s.mustLoad) :
    UseInv { s with space := r.1, ocs := s.ocs.set i { oc with seg := r.2.getD oc.seg } } := by
  have hoc : ∀ id ∈ s.mustLoad, r.2.getD oc.seg ≠ id ∧ oc.home ≠ some id := by
    intro id hml
    obtain ⟨hseg, hhome⟩ := (h.unloaded id hml).2.2 oc (List.mem_of_getElem? hi)
    refine ⟨?_, hhome⟩
    cases hr : r.2 with
    | none => exact hseg
    | some j =>
      rintro rfl
      exact hid j hr hml
  refine ⟨hsp.congr (fun id => ?_) fun _ hid => hid, h.nodup, fun id hml => ?_⟩
  · simp only [SiloUse.total, SiloUse.registered]
    rw [countP_set_add hi, countP_eraseIdx_add hi]
  · obtain ⟨hhold, hlost, -⟩ := h.unloaded id hml
    exact ⟨hhold, hlost, h.set_unloaded { oc with seg := r.2.getD oc.seg } hoc id hml⟩

/-- **One step** keeps the invariant, when an object that is freed is counted in its segment. -/
theorem UseInv.step (h : UseInv s) {op : UseOp} (hok : FreeOk s op) (hs : useStep g s op = some s') : UseInv s' := by
  cases op with
  | newSeg =>
    obtain ⟨sp, hsp, rfl⟩ := Option.map_eq_some_iff.1 hs
    exact h.withSpace (h.space.newSeg (ok_of_toOption hsp))
  | closeSeg =>
    obtain ⟨sp, hsp, rfl⟩ := Option.map_eq_some_iff.1 hs
    exact h.withSpace (h.space.closeSeg (ok_of_toOption hsp))
  | data size =>
    obtain ⟨r, hr, rfl⟩ := Option.map_eq_some_iff.1 hs
    exact h.withSpace (h.space.alloc hr).1
  | reserve size =>
    obtain ⟨r, hr, rfl⟩ := Option.map_eq_some_iff.1 hs
    obtain ⟨hsp, hid⟩ := h.space.alloc hr
    exact h.reserve hsp hid
  | again i size =>
    obtain ⟨oc, hi, hs⟩ := Option.bind_eq_some_iff.1 hs
    obtain ⟨r, hr, hs⟩ := Option.bind_eq_some_iff.1 hs
    obtain ⟨hsp, hid⟩ := h.space.alloc hr
    split at hs
    · cases hs
    · cases hs
      exact h.again hi hsp hid
  | object i =>
    obtain ⟨oc, hi, hs⟩ := Option.bind_eq_some_iff.1 hs
    exact h.object hi hs
  | free i =>
    obtain ⟨oc, hi, hs⟩ := Option.bind_eq_some_iff.1 hs
    exact h.free hi (hok oc hi) hs
  | load id signed live => exact h.load hs
  | fixup i =>
    obtain ⟨oc, hi, hs⟩ := Option.bind_eq_some_iff.1 hs
    exact h.fixup hi hs
  | expire i =>
    obtain ⟨oc, hi, hs⟩ := Option.bind_eq_some_iff.1 hs
    split at hs
    · cases hs
      exact h.expire hi
    · cases hs

end Inv

end Varnish.Silo
