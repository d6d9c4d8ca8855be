import Mathlib.Data.List.Nodup
import Varnish.Silo.InUse

/-!
# Varnish.Silo.Kept — segments are kept while they are in use

* `SlotInv`: no more slots are used than were reserved, while no segment with objects is loaded.
* `SpaceKept`: the segment of every live objcore is there.  `SpaceKept.closeSeg`: `smp_save_segs` does not free it.
* `reach_inUse`: what holds after every run, and under which conditions.
* `inUse_freed`: without them, the first fetch of a silo can lose its segment.
-/

namespace Varnish.Silo

open Varnish.Lib

variable {g : Media}

/-! ## Slots -/

section Slots

variable {s s' : Space} {sg : SmpSeg} {oc : Bool} {size id : ℕ} {φ : SmpSeg → SmpSeg}

structure SlotInv (s : Space) : Prop extends SpaceIds s where
  slots : ∀ sg ∈ s.segments, sg.nalloc2 ≤ sg.nalloc1

theorem SlotInv.closeSeg (h : SlotInv s) (hs : smpCloseSeg g s = .ok s') : SlotInv s' := by
  refine ⟨h.toSpaceIds.closeSeg hs, fun sg hsg => ?_⟩
  have hsub := closeSeg_sublist (q := fun sg => (sg.nalloc1, sg.nalloc2)) (fun _ _ => rfl) hs
  obtain ⟨sg₀, hsg₀, he⟩ := List.mem_map.1 (hsub.subset (List.mem_map_of_mem hsg))
  obtain ⟨h1, h2⟩ := Prod.mk.injEq .. ▸ he
  rw [← h1, ← h2]
  exact h.slots sg₀ hsg₀

theorem SlotInv.newSeg (h : SlotInv s) (hs : smpNewSeg g s = .ok s') : SlotInv s' := by
  obtain ⟨off, hsegs, -⟩ := newSeg_segments hs
  refine ⟨h.toSpaceIds.newSeg hs, fun sg hsg => ?_⟩
  rw [hsegs] at hsg
  rcases List.mem_append.1 hsg with hsg | hsg
  · exact h.slots sg hsg
  · rw [List.mem_singleton.1 hsg]
    exact le_refl _

theorem SlotInv.bitten (h : SlotInv s) (hcur : s.cur = some sg) : SlotInv (s.bitten sg oc size) := by
  refine ⟨h.toSpaceIds.bitten hcur, fun sg' hsg' => ?_⟩
  have hcur' : (s.bitten sg oc size).cur = some (sg.bitten oc size) := rfl
  rw [segments_of_some hcur'] at hsg'
  have hsg := h.slots sg (mem_segments hcur)
  rcases List.mem_append.1 hsg' with hsg' | hsg'
  · exact h.slots sg' (by rw [segments_of_some hcur]; exact List.mem_append_left _ hsg')
  · rw [List.mem_singleton.1 hsg']
    show sg.nalloc2 ≤ if oc then sg.nalloc1 + 1 else sg.nalloc1
    split
    · omega
    · exact hsg

theorem SlotInv.alloc (h : SlotInv s) {r : Space × Option ℕ} (hr : allocSeg g s size oc = some r) : SlotInv r.1 := by
  have hstep : ∀ {s s₁ s₂}, SlotInv s → True → smpCloseSeg g s = .ok s₁ → smpNewSeg g s₁ = .ok s₂ → SlotInv s₂ :=
    fun hs _ h₁ h₂ => (hs.closeSeg h₁).newSeg h₂
  rcases alloc_cases (C := fun _ => True) (F := fun _ => True) hstep hr h
    (triesMeet_of_forall (fun _ => trivial) fun _ => trivial) with ⟨hs, -⟩ | ⟨s₁, sg, size', hs, hcur, -, rfl⟩
  · exact hs
  · exact hs.bitten hcur

/-- The segment that is found is the only one with its number. -/
theorem SpaceIds.eq_of_seg? (h : SpaceIds s) {sg' : SmpSeg} (hsg : s.seg? id = some sg) (hsg' : sg' ∈ s.segments)
    (hid : sg'.id = id) : sg' = sg := by
  obtain ⟨hmem, hid'⟩ := mem_of_seg? hsg
  exact List.inj_on_of_nodup_map h.nodup hsg' hmem (hid.trans hid'.symm)

theorem SlotInv.onSeg (h : SlotInv s) (hsg : s.seg? id = some sg) (hφ : ∀ sg, (φ sg).id = sg.id)
    (hslots : (φ sg).nalloc2 ≤ (φ sg).nalloc1) : SlotInv (s.onSeg id φ) := by
  refine ⟨h.toSpaceIds.onSeg hφ, fun sg' hsg' => ?_⟩
  rw [segments_onSeg] at hsg'
  obtain ⟨sg₀, hsg₀, rfl⟩ := List.mem_map.1 hsg'
  by_cases hid : sg₀.id = id
  · rw [if_pos hid, h.eq_of_seg? hsg hsg₀ hid]
    exact hslots
  · rw [if_neg hid]
    exact h.slots sg₀ hsg₀

/-- **One step**, when no segment with objects is loaded. -/
theorem SlotInv.step {s s' : SiloUse} (h : SlotInv s.space) {op : UseOp} (hok : LoadOk s op)
    (hs : useStep g s op = some s') : SlotInv s'.space := by
  cases op with
  | newSeg =>
    obtain ⟨sp, hsp, rfl⟩ := Option.map_eq_some_iff.1 hs
    exact h.newSeg (ok_of_toOption hsp)
  | closeSeg =>
    obtain ⟨sp, hsp, rfl⟩ := Option.map_eq_some_iff.1 hs
    exact h.closeSeg (ok_of_toOption hsp)
  | data size =>
    obtain ⟨r, hr, rfl⟩ := Option.map_eq_some_iff.1 hs
    exact h.alloc hr
  | reserve size =>
    obtain ⟨r, hr, rfl⟩ := Option.map_eq_some_iff.1 hs
    exact h.alloc hr
  | again i size =>
    obtain ⟨oc, hi, hs⟩ := Option.bind_eq_some_iff.1 hs
    obtain ⟨r, hr, hs⟩ := Option.bind_eq_some_iff.1 hs
    split at hs
    · cases hs
    · cases hs
      exact h.alloc hr
  | object i =>
    obtain ⟨oc, hi, hs⟩ := Option.bind_eq_some_iff.1 hs
    obtain ⟨sg, hsg, hs⟩ := Option.bind_eq_some_iff.1 hs
    split at hs
    · rename_i hcond
      cases hs
      exact h.onSeg hsg (fun _ => rfl) hcond.1
    · cases hs
  | free i =>
    obtain ⟨oc, hi, hs⟩ := Option.bind_eq_some_iff.1 hs
    obtain ⟨sg, hsg, hs⟩ := Option.bind_eq_some_iff.1 hs
    split at hs
    · cases hs
      exact h.onSeg hsg (fun _ => rfl) (h.slots sg (mem_of_seg? hsg).1)
    · cases hs
  | load id signed live =>
    obtain ⟨sg, hsg, hs⟩ := Option.bind_eq_some_iff.1 hs
    split at hs
    · cases hs
    · split at hs
      · cases hs
        exact h
      · rename_i hhead
        cases hs
        refine h.onSeg hsg (fun _ => rfl) ?_
        have hzero : sg.pnalloc = 0 := by
          rcases hok sg hsg with h0 | h0 | h0
          · exact absurd (.inl h0) hhead
          · exact absurd (.inr h0) hhead
          · exact h0
        show sg.pnalloc ≤ sg.nalloc1
        omega
  | fixup i =>
    obtain ⟨oc, hi, hs⟩ := Option.bind_eq_some_iff.1 hs
    obtain ⟨sg, hsg, hs⟩ := Option.bind_eq_some_iff.1 hs
    split at hs
    · cases hs
      exact h.onSeg hsg (fun _ => rfl) (h.slots sg (mem_of_seg? hsg).1)
    · cases hs
  | expire i =>
    obtain ⟨oc, hi, hs⟩ := Option.bind_eq_some_iff.1 hs
    split at hs
    · cases hs
      exact h
    · cases hs

end Slots

/-! ## Segments of live objcores -/

section Kept

variable {s s' : Space} {sg : SmpSeg} {oc : Bool} {size id : ℕ} {φ : SmpSeg → SmpSeg} {f : ℕ → ℕ} {ml : List ℕ}
  {ocs ocs' : List Objcore}

/-- The segments that objcores point to are there, and a segment that objcores point to was used. -/
structure SpaceKept (ocs : List Objcore) (s : Space) : Prop where
  here : ∀ oc ∈ ocs, ∃ sg ∈ s.segments, sg.id = oc.seg
  used : ∀ sg ∈ s.cur, sg.nalloc = 0 → ∀ oc ∈ ocs, oc.seg ≠ sg.id

/-- A segment that is not at the front of the list with other empty ones stays in it. -/
theorem mem_dropFront_or {sgs : List SmpSeg} (hsg : sg ∈ sgs) :
    sg ∈ dropFront sgs ∨ sg ∈ sgs.takeWhile fun sg => decide (sg.nobj = 0) := by
  rw [← List.takeWhile_append_dropWhile (p := fun sg => decide (sg.nobj = 0)) (l := sgs)] at hsg
  exact (List.mem_append.1 hsg).symm

/-- The empty segments at the front are the same when the current one is shut. -/
theorem takeWhile_shut (hcur : s.cur = some sg) {sg' : SmpSeg}
    (h : sg' ∈ (s.closed ++ [sg.shut s.objreserv]).takeWhile fun sg => decide (sg.nobj = 0)) :
    ∃ sg₀ ∈ s.segments.takeWhile (fun sg => decide (sg.nobj = 0)), sg₀.id = sg'.id := by
  have hmap := map_shut (q := fun sg => (sg.id, sg.nobj)) (fun _ _ => rfl) hcur s.objreserv
  have htake := congrArg (List.takeWhile fun x => decide (x.2 = 0)) hmap
  rw [List.takeWhile_map, List.takeWhile_map] at htake
  have hmem := List.mem_map_of_mem (f := fun sg : SmpSeg => (sg.id, sg.nobj)) h
  obtain ⟨sg₀, hsg₀, he⟩ := List.mem_map.1 (htake ▸ hmem)
  exact ⟨sg₀, hsg₀, (Prod.mk.injEq .. ▸ he).1⟩

/-- **`smp_close_seg`** does not free a segment that an objcore points to. -/
theorem SpaceKept.closeSeg (h : SpaceKept ocs s) (huse : SpaceUse f ml s)
    (hf : ∀ oc ∈ ocs, oc.home = some oc.seg → 0 < f oc.seg) (hclose : CloseKeeps ocs s)
    (hs : smpCloseSeg g s = .ok s') : SpaceKept ocs s' := by
  obtain ⟨-, -, hcur', -⟩ := closeSeg_cases hs
  refine ⟨fun oc hoc => ?_, fun sg hsg => ?_⟩
  · obtain ⟨sg₀, hsg₀, hid⟩ := h.here oc hoc
    obtain ⟨sg, hcur, ⟨hzero, hsegs⟩ | ⟨hnz, hsegs⟩⟩ := closeSeg_segments hs
    · -- the segment was not used
      rw [segments_of_some hcur] at hsg₀
      rcases List.mem_append.1 hsg₀ with hsg₀ | hsg₀
      · exact ⟨sg₀, hsegs ▸ hsg₀, hid⟩
      · rw [List.mem_singleton.1 hsg₀] at hid
        exact absurd hid.symm (h.used sg hcur hzero oc hoc)
    · -- the same segment in the list with the closed one
      have hmap := map_shut (q := fun sg => (sg.id, sg.nobj)) (fun _ _ => rfl) hcur s.objreserv
      have hmem := List.mem_map_of_mem (f := fun sg : SmpSeg => (sg.id, sg.nobj)) hsg₀
      obtain ⟨sg₁, hsg₁, he⟩ := List.mem_map.1 (hmap ▸ hmem)
      obtain ⟨hid₁, hnobj₁⟩ := Prod.mk.injEq .. ▸ he
      rw [hsegs]
      rcases mem_dropFront_or hsg₁ with hkept | hfront
      · exact ⟨sg₁, hkept, hid₁.trans hid⟩
      · exfalso
        by_cases hhome : oc.home = some oc.seg
        · have hpos := hf oc hoc hhome
          have hcount := huse.counts sg₀ hsg₀
          have hempty : sg₁.nobj = 0 := by simpa using List.mem_takeWhile_imp hfront
          rw [hid] at hcount
          omega
        · obtain ⟨sg₂, hsg₂, hid₂⟩ := takeWhile_shut hcur hfront
          have hused : ∀ sg' ∈ s.cur, sg'.nalloc ≠ 0 := by
            intro sg' hsg'
            rw [hcur] at hsg'
            cases hsg'
            exact hnz
          exact hclose hused oc hoc hhome sg₂ hsg₂ (hid₂.trans (hid₁.trans hid))
  · rw [hcur'] at hsg
    cases hsg

theorem SpaceKept.newSeg (h : SpaceKept ocs s) (hids : SpaceIds s) (hs : smpNewSeg g s = .ok s') : SpaceKept ocs s' := by
  obtain ⟨off, hsegs, hcur', -⟩ := newSeg_segments hs
  refine ⟨fun oc hoc => ?_, fun sg hsg _ oc hoc => ?_⟩
  · obtain ⟨sg, hsg, hid⟩ := h.here oc hoc
    exact ⟨sg, by rw [hsegs]; exact List.mem_append_left _ hsg, hid⟩
  · obtain ⟨sg₀, hsg₀, hid⟩ := h.here oc hoc
    have hlt := hids.lt sg₀ hsg₀
    rw [hcur'] at hsg
    cases hsg
    rw [← hid]
    exact Nat.ne_of_lt hlt

theorem SpaceKept.bitten (h : SpaceKept ocs s) (hcur : s.cur = some sg) (hnalloc : sg.nalloc + 1 < 2 ^ 32) :
    SpaceKept ocs (s.bitten sg oc size) := by
  refine ⟨fun oc' hoc' => ?_, fun sg' hsg' hzero => ?_⟩
  · obtain ⟨sg₀, hsg₀, hid⟩ := h.here oc' hoc'
    have hmap : (s.bitten sg oc size).segments.map SmpSeg.id = _ := map_bitten (fun _ _ _ => rfl) hcur
    obtain ⟨sg₁, hsg₁, hid₁⟩ := List.mem_map.1 (hmap ▸ List.mem_map_of_mem hsg₀)
    exact ⟨sg₁, hsg₁, hid₁.trans hid⟩
  · cases hsg'
    have hne : (sg.nalloc + 1) % 2 ^ 32 = 0 := hzero
    rw [Nat.mod_eq_of_lt hnalloc] at hne
    cases hne

/-- **`smp_alloc`** does not free a segment that an objcore points to, and what it returns is in a segment that is there. -/
theorem SpaceKept.alloc (h : SpaceKept ocs s) (huse : SpaceUse f ml s)
    (hf : ∀ oc ∈ ocs, oc.home = some oc.seg → 0 < f oc.seg)
    (hmeet : TriesMeet g (CloseKeeps ocs) (fun sg => sg.nalloc + 1 < 2 ^ 32) oc 2 s (cAlign size))
    {r : Space × Option ℕ} (hr : allocSeg g s size oc = some r) :
    SpaceKept ocs r.1 ∧ ∀ id ∈ r.2, (∃ sg ∈ r.1.segments, sg.id = id) ∧ ∀ sg ∈ r.1.cur, sg.nalloc ≠ 0 := by
  have hstep : ∀ {s s₁ s₂}, (SpaceUse f ml s ∧ SpaceKept ocs s) → CloseKeeps ocs s → smpCloseSeg g s = .ok s₁ →
      smpNewSeg g s₁ = .ok s₂ → SpaceUse f ml s₂ ∧ SpaceKept ocs s₂ := fun hs hc h₁ h₂ =>
    ⟨(hs.1.closeSeg h₁).newSeg h₂, (hs.2.closeSeg hs.1 hf hc h₁).newSeg (hs.1.closeSeg h₁).toSpaceIds h₂⟩
  rcases alloc_cases hstep hr ⟨huse, h⟩ hmeet with ⟨hs, hnone⟩ | ⟨s₁, sg, size', hs, hcur, hnalloc, rfl⟩
  · refine ⟨hs.2, fun id hid => ?_⟩
    rw [hnone] at hid
    cases hid
  · refine ⟨hs.2.bitten hcur hnalloc, fun id hid => ?_⟩
    cases hid
    refine ⟨⟨sg.bitten oc size', mem_segments rfl, rfl⟩, fun sg' hsg' => ?_⟩
    cases hsg'
    show (sg.nalloc + 1) % 2 ^ 32 ≠ 0
    rw [Nat.mod_eq_of_lt hnalloc]
    exact Nat.succ_ne_zero _

/-- Other objcores, that point to the same segments. -/
theorem SpaceKept.mono (h : SpaceKept ocs s) (hocs : ∀ oc ∈ ocs', ∃ oc₀ ∈ ocs, oc₀.seg = oc.seg) : SpaceKept ocs' s := by
  refine ⟨fun oc hoc => ?_, fun sg hsg hzero oc hoc => ?_⟩
  · obtain ⟨oc₀, hoc₀, hseg⟩ := hocs oc hoc
    rw [← hseg]
    exact h.here oc₀ hoc₀
  · obtain ⟨oc₀, hoc₀, hseg⟩ := hocs oc hoc
    rw [← hseg]
    exact h.used sg hsg hzero oc₀ hoc₀

theorem SpaceKept.onSeg (h : SpaceKept ocs s) (hφ : ∀ sg, (φ sg).id = sg.id) (hnalloc : ∀ sg, (φ sg).nalloc = sg.nalloc) :
    SpaceKept ocs (s.onSeg id φ) := by
  refine ⟨fun oc hoc => ?_, fun sg hsg hzero => ?_⟩
  · obtain ⟨sg, hsg, hid⟩ := h.here oc hoc
    refine ⟨_, by rw [segments_onSeg]; exact List.mem_map_of_mem hsg, ?_⟩
    rw [onSeg_id hφ]
    exact hid
  · obtain ⟨sg₀, hsg₀, rfl⟩ := Option.map_eq_some_iff.1 hsg
    rw [onSeg_id hφ]
    refine h.used sg₀ hsg₀ ?_
    by_cases hid : sg₀.id = id
    · rw [if_pos hid, hnalloc] at hzero
      exact hzero
    · rw [if_neg hid] at hzero
      exact hzero

end Kept

/-! ## Runs -/

section Runs

variable {s s' : SiloUse}

structure KeepInv (s : SiloUse) : Prop extends UseInv s where
  kept : SpaceKept s.ocs s.space

/-- A segment in which an objcore is counted is not empty. -/
theorem total_pos {oc : Objcore} (hoc : oc ∈ s.ocs) (hhome : oc.home = some oc.seg) : 0 < s.total oc.seg := by
  have hpos : 0 < s.registered oc.seg := List.countP_pos_iff.2 ⟨oc, hoc, by simpa using hhome⟩
  rw [SiloUse.total]
  omega

/-- **`smp_alloc`**, for the objcores that there are. -/
theorem KeepInv.alloc (h : KeepInv s) {size : ℕ} {oc : Bool} (hmeet : AllocKeeps g s size oc) {r : Space × Option ℕ}
    (hr : allocSeg g s.space size oc = some r) :
    SpaceKept s.ocs r.1 ∧ ∀ id ∈ r.2, (∃ sg ∈ r.1.segments, sg.id = id) ∧ ∀ sg ∈ r.1.cur, sg.nalloc ≠ 0 :=
  h.kept.alloc h.space (fun _ hoc hhome => total_pos hoc hhome) hmeet hr

theorem KeepInv.step (h : KeepInv s) {op : UseOp} (hfree : FreeOk s op) (hok : KeepOk g s op)
    (hs : useStep g s op = some s') : KeepInv s' := by
  refine ⟨h.toUseInv.step hfree hs, ?_⟩
  have hset : ∀ {i : ℕ} {oc oc' : Objcore}, s.ocs[i]? = some oc → oc'.seg = oc.seg →
      ∀ oc₁ ∈ s.ocs.set i oc', ∃ oc₀ ∈ s.ocs, oc₀.seg = oc₁.seg := by
    intro i oc oc' hi hseg oc₁ hoc₁
    rcases List.mem_or_eq_of_mem_set hoc₁ with hoc₁ | rfl
    · exact ⟨oc₁, hoc₁, rfl⟩
    · exact ⟨oc, List.mem_of_getElem? hi, hseg.symm⟩
  have herase : ∀ {i : ℕ}, ∀ oc₁ ∈ s.ocs.eraseIdx i, ∃ oc₀ ∈ s.ocs, oc₀.seg = oc₁.seg := fun oc₁ hoc₁ =>
    ⟨oc₁, List.mem_of_mem_eraseIdx hoc₁, rfl⟩
  cases op with
  | newSeg =>
    obtain ⟨sp, hsp, rfl⟩ := Option.map_eq_some_iff.1 hs
    exact h.kept.newSeg h.space.toSpaceIds (ok_of_toOption hsp)
  | closeSeg =>
    obtain ⟨sp, hsp, rfl⟩ := Option.map_eq_some_iff.1 hs
    exact h.kept.closeSeg h.space (fun _ hoc hhome => total_pos hoc hhome) hok (ok_of_toOption hsp)
  | data size =>
    obtain ⟨r, hr, rfl⟩ := Option.map_eq_some_iff.1 hs
    exact (h.alloc hok hr).1
  | reserve size =>
    obtain ⟨r, hr, rfl⟩ := Option.map_eq_some_iff.1 hs
    obtain ⟨hkept, hid⟩ := h.alloc hok hr
    have hnew : ∀ oc ∈ (r.2.map fun id => (⟨id, none, false⟩ : Objcore)).toList, oc.seg ∈ r.2 := by
      intro oc hoc
      obtain ⟨id, hid, rfl⟩ := Option.map_eq_some_iff.1 (Option.mem_toList.1 hoc)
      exact hid
    refine ⟨fun oc hoc => ?_, fun sg hsg hzero oc hoc => ?_⟩
    · rcases List.mem_append.1 hoc with hoc | hoc
      · exact hkept.here oc hoc
      · exact (hid _ (hnew oc hoc)).1
    · rcases List.mem_append.1 hoc with hoc | hoc
      · exact hkept.used sg hsg hzero oc hoc
      · exact absurd hzero ((hid _ (hnew oc hoc)).2 sg hsg)
  | again i size =>
    obtain ⟨oc, hi, hs⟩ := Option.bind_eq_some_iff.1 hs
    obtain ⟨r, hr, hs⟩ := Option.bind_eq_some_iff.1 hs
    obtain ⟨hkept, hid⟩ := h.alloc hok hr
    split at hs
    · cases hs
    · cases hs
      cases hr2 : r.2 with
      | none => exact hkept.mono (hset hi rfl)
      | some id =>
        have hid := hid id hr2
        refine ⟨fun oc₁ hoc₁ => ?_, fun sg hsg hzero => absurd hzero (hid.2 sg hsg)⟩
        rcases List.mem_or_eq_of_mem_set hoc₁ with hoc₁ | rfl
        · exact hkept.here oc₁ hoc₁
        · exact hid.1
  | object i =>
    obtain ⟨oc, hi, hs⟩ := Option.bind_eq_some_iff.1 hs
    obtain ⟨sg, hsg, hs⟩ := Option.bind_eq_some_iff.1 hs
    split at hs
    · cases hs
      refine (SpaceKept.onSeg h.kept ?_ ?_).mono (hset hi rfl)
      · exact fun _ => rfl
      · exact fun _ => rfl
    · cases hs
  | free i =>
    obtain ⟨oc, hi, hs⟩ := Option.bind_eq_some_iff.1 hs
    obtain ⟨sg, hsg, hs⟩ := Option.bind_eq_some_iff.1 hs
    split at hs
    · cases hs
      refine (SpaceKept.onSeg h.kept ?_ ?_).mono herase
      · exact fun _ => rfl
      · exact fun _ => rfl
    · cases hs
  | load id signed live =>
    obtain ⟨sg, hsg, hs⟩ := Option.bind_eq_some_iff.1 hs
    split at hs
    · cases hs
    · rename_i hcond
      have hload : id ∈ s.mustLoad := by
        by_contra hn
        exact hcond (.inl hn)
      split at hs
      · cases hs
        exact h.kept
      · cases hs
        refine SpaceKept.onSeg ⟨fun oc hoc => ?_, fun sg' hsg' hzero oc hoc => ?_⟩ (fun _ => rfl) fun _ => rfl
        · rcases List.mem_append.1 hoc with hoc | hoc
          · exact h.kept.here oc hoc
          · obtain ⟨_, -, rfl⟩ := List.mem_map.1 hoc
            exact ⟨sg, mem_of_seg? hsg⟩
        · rcases List.mem_append.1 hoc with hoc | hoc
          · exact h.kept.used sg' hsg' hzero oc hoc
          · obtain ⟨_, -, rfl⟩ := List.mem_map.1 hoc
            rintro rfl
            exact h.space.cur sg' hsg' hload
  | fixup i =>
    obtain ⟨oc, hi, hs⟩ := Option.bind_eq_some_iff.1 hs
    obtain ⟨sg, hsg, hs⟩ := Option.bind_eq_some_iff.1 hs
    split at hs
    · cases hs
      refine (SpaceKept.onSeg h.kept ?_ ?_).mono (hset hi rfl)
      · exact fun _ => rfl
      · exact fun _ => rfl
    · cases hs
  | expire i =>
    obtain ⟨oc, hi, hs⟩ := Option.bind_eq_some_iff.1 hs
    split at hs
    · cases hs
      exact h.kept.mono herase
    · cases hs

/-- Only objcores that expire are lost. -/
theorem lost_step {op : UseOp} (hok : ExpireOk s op) (hs : useStep g s op = some s') : s'.lost = s.lost := by
  cases op with
  | newSeg | closeSeg | data _ | reserve _ =>
    obtain ⟨_, _, rfl⟩ := Option.map_eq_some_iff.1 hs
    rfl
  | again i size =>
    obtain ⟨oc, -, hs⟩ := Option.bind_eq_some_iff.1 hs
    obtain ⟨r, -, hs⟩ := Option.bind_eq_some_iff.1 hs
    split at hs
    · cases hs
    · cases hs
      rfl
  | object i | free i | fixup i =>
    obtain ⟨oc, -, hs⟩ := Option.bind_eq_some_iff.1 hs
    obtain ⟨sg, -, hs⟩ := Option.bind_eq_some_iff.1 hs
    split at hs
    · cases hs
      rfl
    · cases hs
  | load id signed live =>
    obtain ⟨sg, -, hs⟩ := Option.bind_eq_some_iff.1 hs
    split at hs
    · cases hs
    · split at hs
      · cases hs
        rfl
      · cases hs
        rfl
  | expire i => exact hok.elim

theorem mem_openedSegs {n : ℕ} {ps : List Segptr} {sg : SmpSeg} (h : sg ∈ openedSegs n ps) :
    n ≤ sg.id ∧ sg.id < n + ps.length ∧ sg.nobj = 1 ∧ sg.nalloc2 = 0 := by
  induction ps generalizing n with
  | nil => cases h
  | cons p ps ih =>
    rw [List.length_cons]
    rcases List.mem_cons.1 h with rfl | h
    · exact ⟨le_refl _, by show n < _; omega, rfl, rfl⟩
    · obtain ⟨h1, h2, h3⟩ := ih h
      exact ⟨by omega, by omega, h3⟩

theorem nodup_openedSegs (n : ℕ) (ps : List Segptr) : ((openedSegs n ps).map SmpSeg.id).Nodup := by
  induction ps generalizing n with
  | nil => exact List.nodup_nil
  | cons p ps ih =>
    rw [openedSegs, List.map_cons, List.nodup_cons]
    refine ⟨fun hmem => ?_, ih (n + 1)⟩
    obtain ⟨sg, hsg, hid⟩ := List.mem_map.1 hmem
    have hle := (mem_openedSegs hsg).1
    have hid : sg.id = n := hid
    omega

/-- A silo that was opened. -/
theorem openedSilo_inv (free : ℕ) (ps : List Segptr) : KeepInv (openedSilo free ps) ∧ SlotInv (openedSilo free ps).space := by
  have hsegs : (openedSilo free ps).space.segments = openedSegs 0 ps := segments_of_none rfl
  have hids : SpaceIds (openedSilo free ps).space := by
    refine ⟨?_, fun sg hsg => ?_⟩
    · rw [hsegs]
      exact nodup_openedSegs 0 ps
    · rw [hsegs] at hsg
      have hlt := (mem_openedSegs hsg).2.1
      rw [Nat.zero_add] at hlt
      exact hlt
  have hcount : ∀ id, id < ps.length → (List.range ps.length).count id = 1 := fun id hid =>
    List.count_eq_one_of_mem List.nodup_range (List.mem_range.2 hid)
  have htotal : ∀ id, (openedSilo free ps).total id = (List.range ps.length).count id := by
    intro id
    simp [SiloUse.total, SiloUse.registered, openedSilo]
  have hspace : SpaceUse (openedSilo free ps).total (openedSilo free ps).mustLoad (openedSilo free ps).space := by
    refine ⟨hids, fun sg hsg => ?_, fun id hid => ?_, fun id hid => List.mem_range.1 hid, fun sg hsg => by cases hsg⟩
    · rw [htotal, hcount sg.id (hids.lt sg hsg)]
      rw [hsegs] at hsg
      exact (mem_openedSegs hsg).2.2.1
    · rw [htotal, List.count_eq_zero, List.mem_range]
      exact Nat.not_lt.2 hid
  refine ⟨⟨⟨hspace, List.nodup_range, fun id hid => ?_⟩, ⟨fun oc hoc => (by cases hoc), fun sg hsg => (by cases hsg)⟩⟩,
    ⟨hids, fun sg hsg => ?_⟩⟩
  · exact ⟨hcount id (List.mem_range.1 hid), rfl, fun oc hoc => by cases hoc⟩
  · rw [hsegs] at hsg
    rw [(mem_openedSegs hsg).2.2.2]
    exact Nat.zero_le _

/-- **Segments in use**: after every run of a silo that was opened, with any segments,

* the number of objects of a segment is that of the live objects and objcores that are counted in it, and the hold, if
  every object that was freed was counted in its segment and no objcore expired before it was fixed up;
* no more slots are used than were reserved, if no segment with objects was loaded;
* the segment of every live objcore is there, if every object that was freed was counted in its segment, and whenever a
  segment was closed no objcore that was not yet counted pointed to one of the empty segments at the front. -/
theorem reach_inUse (free : ℕ) (ps : List Segptr) :
    (Reach (useStep g) (fun s op => FreeOk s op ∧ ExpireOk s op) (openedSilo free ps) s → Counted s) ∧
    (Reach (useStep g) LoadOk (openedSilo free ps) s → Slotted s) ∧
    (Reach (useStep g) (fun s op => FreeOk s op ∧ KeepOk g s op) (openedSilo free ps) s → Kept s) := by
  obtain ⟨hkeep, hslot⟩ := openedSilo_inv free ps
  refine ⟨fun h => ?_, fun h => ?_, fun h => ?_⟩
  · have hinv : UseInv s ∧ s.lost = [] :=
      Reach.inv (I := fun s => UseInv s ∧ s.lost = []) ⟨hkeep.toUseInv, rfl⟩
        (fun s op s' hi hok hs => ⟨hi.1.step hok.1 hs, (lost_step hok.2 hs).trans hi.2⟩) h
    intro sg hsg
    have hcount := hinv.1.space.counts sg hsg
    rw [SiloUse.total, hinv.2] at hcount
    exact hcount
  · have hinv : SlotInv s.space :=
      Reach.inv (I := fun s => SlotInv s.space) hslot (fun s op s' hi hok hs => hi.step hok hs) h
    exact hinv.slots
  · have hinv : KeepInv s := Reach.inv hkeep (fun s op s' hi hok hs => hi.step hok.1 hok.2 hs) h
    exact hinv.kept.here

/-- A segment with two objects, of which one is too old. -/
def oldSeg : Segptr := ⟨4210688, 2000, 4210944, 2, 0⟩

/-- The old segment is loaded, an object is fetched while another one is fixed up, and a segment is closed. -/
def useRun : List UseOp :=
  [.newSeg, .load 0 true [true, false], .reserve 100, .object 1, .fixup 0, .data 200, .closeSeg, .newSeg, .free 1]

theorem reach_inUse_useRun : ∃ s, useRun.foldlM (useStep media) (openedSilo media.spc [oldSeg]) = some s ∧
    s.ocs.length = 1 ∧ s.space.segments.length = 3 ∧ Counted s ∧ Kept s := by
  have hfree : OkRun (useStep media) (fun s op => FreeOk s op ∧ ExpireOk s op) (openedSilo media.spc [oldSeg]) useRun := by
    decide +kernel
  have hkeep : OkRun (useStep media) (fun s op => FreeOk s op ∧ KeepOk media s op) (openedSilo media.spc [oldSeg]) useRun := by
    decide +kernel
  have hlen : ((useRun.foldlM (useStep media) (openedSilo media.spc [oldSeg])).map
      fun s => (s.ocs.length, s.space.segments.length)) = some (1, 3) := by decide +kernel
  obtain ⟨s, hs, hl⟩ := Option.map_eq_some_iff.1 hlen
  obtain ⟨hl₁, hl₂⟩ := Prod.mk.injEq .. ▸ hl
  obtain ⟨hcount, -, hkept⟩ := reach_inUse (g := media) (s := s) media.spc [oldSeg]
  exact ⟨s, hs, hl₁, hl₂, hcount (Reach.of_run hfree hs), hkept (Reach.of_run hkeep hs)⟩

/-- The segment is closed while the first object of a silo is fetched. -/
def closeRun : List UseOp := [.newSeg, .reserve 100, .closeSeg]

theorem inUse_freed : ∃ s, Reach (useStep media) (fun _ _ => True) (openedSilo media.spc []) s ∧
    ¬ (Counted s ∧ Slotted s ∧ Kept s) := by
  have hend : ((closeRun.foldlM (useStep media) (openedSilo media.spc [])).map
      fun s => (s.ocs.length, s.space.segments.length)) = some (1, 0) := by decide +kernel
  obtain ⟨s, hs, hl⟩ := Option.map_eq_some_iff.1 hend
  obtain ⟨hl₁, hl₂⟩ := Prod.mk.injEq .. ▸ hl
  have hok : OkRun (useStep media) (fun _ _ => True) (openedSilo media.spc []) closeRun := by decide +kernel
  refine ⟨s, Reach.of_run hok hs, fun h => ?_⟩
  obtain ⟨oc, hoc⟩ := List.exists_mem_of_length_pos (by omega : 0 < s.ocs.length)
  obtain ⟨sg, hsg, -⟩ := h.2.2 oc hoc
  rw [List.length_eq_zero_iff.1 hl₂] at hsg
  cases hsg

end Runs

end Varnish.Silo
