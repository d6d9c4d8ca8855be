import Varnish.Silo.Space

/-!
# Varnish.Silo.Layout — segments and allocations do not overlap

The segments are a ring: the first one of the list is the next one behind `free_offset`.  The invariant `SpaceInv` says so,
and that the current segment has room for its end.

* `NewSegOk`, `CloseSegOk`, `TriesOk`: the conditions of the operations.
* `newSeg_inv`, `closeSeg_inv`, `object_inv`: the operations on segments keep the invariant, under their conditions.
-/

namespace Varnish.Silo

open Varnish.Lib

variable {g : Media} {s s' : Space} {sg : SmpSeg} {oc : Bool} {left size : ℕ}

/-! ## Dimensions -/

section Media

theorem maxNsegLoop_spec {len n bits : ℕ} (hlen : objectSize ≤ len) (hn : 0 < n) (hbits : n < 2 ^ bits) :
    0 < maxNsegLoop len bits n ∧ objectSize ≤ len / maxNsegLoop len bits n := by
  induction bits generalizing n with
  | zero => omega
  | succ bits ih =>
    rw [maxNsegLoop]
    by_cases hlt : len / n < objectSize
    · rw [if_pos hlt]
      have hn1 : n ≠ 1 := by
        intro he
        rw [he, Nat.div_one] at hlt
        omega
      exact ih (by omega) (by rw [pow_succ] at hbits; omega)
    · rw [if_neg hlt]
      exact ⟨hn, by omega⟩

theorem Media.stuffLen_ge (g : Media) : 4032 ≤ g.stuffLen := by
  obtain ⟨p, hp⟩ := g.page
  obtain ⟨q, hq⟩ := g.page.trans g.whole
  have hlt := g.spc_lt
  simp only [spcStuff, areaSize] at hlt
  simp only [Media.stuffLen, spcLen, spcStuff, areaSize, signSpace]
  omega

/-- A new segment has room for its two ends. -/
theorem Media.segl_ge (g : Media) : 224 ≤ g.segl := by
  have hlen := g.stuffLen_ge
  have hobj : objectSize = 224 := rfl
  have hmin : minNseg = 10 := rfl
  have hfst : 0 < (areaSize - signSpace) / minNseg ∧ (areaSize - signSpace) / minNseg < 2 ^ 32 := by decide
  obtain ⟨hpos, hmax⟩ := maxNsegLoop_spec (show objectSize ≤ g.stuffLen by omega) hfst.1 hfst.2
  have haim : 224 ≤ g.aimSegl := by
    have hle := g.aimNseg_le
    rw [Media.aimSegl, Nat.le_div_iff_mul_le g.aimNseg_pos]
    rcases le_max_iff.mp hle with h | h
    · calc 224 * g.aimNseg ≤ 224 * minNseg := Nat.mul_le_mul_left _ h
        _ ≤ g.stuffLen := by omega
    · calc 224 * g.aimNseg ≤ 224 * maxNseg g.stuffLen := Nat.mul_le_mul_left _ h
        _ ≤ g.stuffLen := (Nat.le_div_iff_mul_le hpos).mp hmax
  rw [Media.segl]
  omega

theorem Media.segl_mod (g : Media) : g.segl % 8 = 0 := Nat.mul_mod_left _ _

theorem Media.spc_mod (g : Media) : g.spc % 8 = 0 := by
  obtain ⟨p, hp⟩ := g.page
  simp only [Media.spc, spcStuff, areaSize]
  omega

theorem Media.spc_pos (g : Media) : 0 < g.spc := by
  simp only [Media.spc, spcStuff, areaSize]
  omega

theorem cAlign_of_lt {x : ℕ} (h : x + 15 < 2 ^ 64) : cAlign x = (x + 15) / 16 * 16 := by
  rw [cAlign, Nat.mod_eq_of_lt h]

theorem cAlign_storage : cAlign storageSize = 80 := rfl

theorem segSpace_eq : segSpace = 64 := rfl

theorem cAlign_mod (x : ℕ) : cAlign x % 16 = 0 := Nat.mul_mod_left _ _

theorem cAlign_lt (x : ℕ) : cAlign x < 2 ^ 64 := by
  have h := Nat.mod_lt (x + 15) (show 0 < 2 ^ 64 by decide)
  rw [cAlign]
  omega

end Media

/-! ## The conditions -/

section Conditions

variable (g)

/-- The condition of `smp_new_seg`: the free space does not begin at the end of the silo, there is another segment when the
search begins anew, and the free space does not begin at the first segment. -/
def NewSegOk (s : Space) : Prop :=
  s.freeOffset ≠ g.mediasize ∧ (g.mediasize < s.freeOffset + g.segl → s.closed ≠ []) ∧
    ∀ sg ∈ s.closed.head?, s.freeOffset ≠ sg.offset

/-- The condition of `smp_close_seg`: the first segment has an object when `smp_save_segs` looks for empty ones. -/
def CloseSegOk (s : Space) : Prop := ∀ sg ∈ s.cur, sg.nalloc ≠ 0 → ∀ sg₀ ∈ (s.closed ++ [sg]).head?, 0 < sg₀.nobj

/-- The condition of an allocation that is made: it has less than 4 GB and does not fill the segment, and the number of
allocations has 32 bits. -/
def GrabOk (s : Space) (sg : SmpSeg) (oc : Bool) (left size : ℕ) : Prop :=
  size < 2 ^ 32 ∧ left ≠ overhead s oc + size ∧ sg.nalloc + 1 < 2 ^ 32

/-- The condition of one try of `smp_alloc`; `rest` is about the space after it, when it was not good. -/
def TryOk (oc : Bool) (s : Space) (size : ℕ) (rest : (left needed : ℕ) → Space → Prop) : Prop :=
  ∀ sg ∈ s.cur, ∀ left ∈ (smpSpaceleft sg).toOption,
    if Fits g sg oc left (trimmed s oc left size).2 then GrabOk s sg oc left (trimmed s oc left size).1
    else CloseSegOk s ∧ ∀ s₁ ∈ (smpCloseSeg g s).toOption, NewSegOk g s₁ ∧
      ∀ s₂ ∈ (smpNewSeg g s₁).toOption, rest left (trimmed s oc left size).2 s₂

/-- The condition of `smp_alloc`, along its tries: when none was good, there was not enough space in the last one. -/
def TriesOk (oc : Bool) : (tries : ℕ) → Space → (size : ℕ) → Prop
  | 0, s, size => TryOk g oc s size fun left needed _ => left < needed
  | tries + 1, s, size => TryOk g oc s size fun _ _ s₂ => TriesOk oc tries s₂ size

def SpaceOp.Cond (s : Space) : SpaceOp → Prop
  | .newSeg => NewSegOk g s
  | .closeSeg => CloseSegOk s
  | .object _ => True
  | .alloc size oc => TriesOk g oc 2 s (cAlign size)

instance (s : Space) : Decidable (NewSegOk g s) := inferInstanceAs (Decidable (_ ∧ _))

instance (s : Space) : Decidable (CloseSegOk s) := inferInstanceAs (Decidable (∀ sg ∈ s.cur, _))

instance (s : Space) (sg : SmpSeg) (oc : Bool) (left size : ℕ) : Decidable (GrabOk s sg oc left size) :=
  inferInstanceAs (Decidable (_ ∧ _))

instance (oc : Bool) (s : Space) (size : ℕ) (rest : ℕ → ℕ → Space → Prop) [∀ l n s, Decidable (rest l n s)] :
    Decidable (TryOk g oc s size rest) :=
  inferInstanceAs (Decidable (∀ sg ∈ s.cur, ∀ left ∈ (smpSpaceleft sg).toOption, _))

instance decTriesOk (oc : Bool) : (tries : ℕ) → (s : Space) → (size : ℕ) → Decidable (TriesOk g oc tries s size)
  | 0, s, size => inferInstanceAs (Decidable (TryOk g oc s size fun left needed _ => left < needed))
  | tries + 1, s, size =>
    have := fun s => decTriesOk oc tries s size
    inferInstanceAs (Decidable (TryOk g oc s size fun _ _ s₂ => TriesOk g oc tries s₂ size))

instance (s : Space) : (op : SpaceOp) → Decidable (op.Cond g s)
  | .newSeg => inferInstanceAs (Decidable (NewSegOk g s))
  | .closeSeg => inferInstanceAs (Decidable (CloseSegOk s))
  | .object _ => isTrue trivial
  | .alloc size oc => decTriesOk g oc 2 s (cAlign size)

instance (s : Space) : (op : SpaceOp) → Decidable (op.Called s)
  | .newSeg => inferInstanceAs (Decidable (s.cur = none))
  | .closeSeg => inferInstanceAs (Decidable (s.cur.isSome = true))
  | .object i => inferInstanceAs (Decidable (∃ b ∈ s.bites[i]?, b.oc ∧ b.index = none))
  | .alloc _ _ => inferInstanceAs (Decidable (s.cur.isSome = true))

end Conditions

/-! ## The invariant -/

section Inv

variable (g)

/-- Two segments do not overlap. -/
def Apart (a b : SmpSeg) : Prop := a.segend ≤ b.offset ∨ b.segend ≤ a.offset

/-- The bites of a segment, the objects among them, and those that were designated. -/
def countBites (s : Space) (sg : SmpSeg) : ℕ := s.bites.countP fun b => b.seg = sg.id

def countObjects (s : Space) (sg : SmpSeg) : ℕ := s.bites.countP fun b => b.seg = sg.id ∧ b.oc

def countFixed (s : Space) (sg : SmpSeg) : ℕ := s.bites.countP fun b => b.seg = sg.id ∧ b.index.isSome

/-- What holds of each segment. -/
structure SegInv (s : Space) (sg : SmpSeg) : Prop where
  id_lt : sg.id < s.nextId
  spc_le : g.spc ≤ sg.offset
  mod : sg.offset % 8 = 0
  length_pos : 0 < sg.length
  segend_le : sg.segend ≤ sg.resv
  resv_eq : sg.resv = sg.offset + g.segl
  resv_le : sg.resv ≤ g.mediasize
  next_le : sg.nextAddr ≤ sg.segend
  objects : sg.nalloc1 = countObjects s sg
  fixed : sg.nalloc2 = countFixed s sg

/-- What holds of the current segment. -/
structure CurInv (s : Space) (sg : SmpSeg) : Prop where
  segend_eq : sg.segend = s.freeOffset
  head : sg.offset + signSpace ≤ sg.nextAddr
  next_mod : sg.nextAddr % 8 = 0
  room : sg.nextAddr + 8 + 2 * segSpace + cAlign s.objreserv ≤ sg.segend
  objreserv : sg.nalloc1 * smpObjectSize = s.objreserv
  count : sg.nalloc = countBites s sg

/-- The order of the ring: a segment that lies behind the free space lies behind the first one. -/
def RingAt (fo : ℕ) (f sg : SmpSeg) : Prop :=
  (fo ≤ f.offset → fo ≤ sg.offset → f.offset ≤ sg.offset) ∧ (f.offset < fo → sg.offset < fo ∧ f.offset ≤ sg.offset)

/-- A bite and its segment. -/
def BiteIn (b : Bite) (sg : SmpSeg) : Prop := sg.id = b.seg ∧ sg.offset ≤ b.start ∧ b.stop ≤ sg.nextAddr

structure SpaceInv (s : Space) : Prop where
  spc_le : g.spc ≤ s.freeOffset
  le_media : s.freeOffset ≤ g.mediasize
  mod : s.freeOffset % 8 = 0
  seg : ∀ sg ∈ s.segments, SegInv g s sg
  cur : ∀ sg ∈ s.cur, CurInv s sg
  apart : s.segments.Pairwise Apart
  ids : s.segments.Pairwise fun a b => a.id ≠ b.id
  side : ∀ sg ∈ s.segments, sg.segend ≤ s.freeOffset ∨ s.freeOffset ≤ sg.offset
  ring : ∀ f ∈ s.segments.head?, ∀ sg ∈ s.segments, RingAt s.freeOffset f sg
  bite : ∀ b ∈ s.bites, ∃ sg ∈ s.segments, BiteIn b sg
  bites : s.bites.Pairwise fun a b => a.stop ≤ b.start ∨ b.stop ≤ a.start
  index : ∀ b ∈ s.bites, b.index.isSome → b.oc

variable {g}

/-- The end of a segment when it is closed. -/
theorem segend_shut {r : ℕ} (hmod : sg.nextAddr % 8 = 0) (hhead : sg.offset ≤ sg.nextAddr) :
    (sg.shut r).segend = sg.nextAddr + 8 + 2 * segSpace + cAlign r := by
  simp only [SmpSeg.segend, SmpSeg.shut]
  omega

theorem SpaceInv.spaceOk (h : SpaceInv g s) : SpaceOk g s where
  apart := h.apart
  inside sg hsg := ⟨(h.seg sg hsg).spc_le, (h.seg sg hsg).segend_le.trans (h.seg sg hsg).resv_le⟩
  bites := h.bites
  own b hb := by
    obtain ⟨sg, hsg, hid, hlo, hhi⟩ := h.bite b hb
    exact ⟨sg, hsg, hid, hlo, hhi.trans (h.seg sg hsg).next_le⟩
  room sg hsg := by
    have hc := h.cur sg hsg
    have hhead := hc.head
    rw [segend_shut hc.next_mod (by omega)]
    exact hc.room
  resv sg hsg := (h.seg sg hsg).segend_le

theorem openEmpty_inv (g : Media) : SpaceInv g (smpOpenEmpty g) where
  spc_le := le_refl _
  le_media := g.spc_lt.le
  mod := g.spc_mod
  seg sg hsg := by cases hsg
  cur sg hsg := by cases hsg
  apart := List.Pairwise.nil
  ids := List.Pairwise.nil
  side sg hsg := by cases hsg
  ring f hf := by cases hf
  bite b hb := by cases hb
  bites := List.Pairwise.nil
  index b hb := by cases hb

end Inv

/-! ## `smp_new_seg` -/

section New

variable {off : ℕ}

theorem segments_of_none (hcur : s.cur = none) : s.segments = s.closed := by
  rw [Space.segments, hcur, Option.toList_none, List.append_nil]

theorem segments_of_some (hcur : s.cur = some sg) : s.segments = s.closed ++ [sg] := by
  rw [Space.segments, hcur, Option.toList_some]

theorem mem_segments (hcur : s.cur = some sg) : sg ∈ s.segments := by
  rw [segments_of_some hcur]
  exact List.mem_append_right _ (List.mem_singleton_self sg)

/-- There are no bites in a segment with a new address. -/
theorem SpaceInv.seg_lt (h : SpaceInv g s) {b : Bite} (hb : b ∈ s.bites) : b.seg < s.nextId := by
  obtain ⟨sg, hsg, hid, -⟩ := h.bite b hb
  rw [← hid]
  exact (h.seg sg hsg).id_lt

theorem SpaceInv.count_new (h : SpaceInv g s) {p : Bite → Bool} (hp : ∀ b, p b → b.seg = s.nextId) :
    s.bites.countP p = 0 := by
  rw [List.countP_eq_zero]
  intro b hb hpb
  have hlt := h.seg_lt hb
  have heq := hp b hpb
  omega

theorem placeSeg_inv (h : SpaceInv g s) (hcur : s.cur = none) (hspc : g.spc ≤ off) (hmod : off % 8 = 0)
    (hend : off + g.segl ≤ g.mediasize)
    (hfree : ∀ sg ∈ s.closed, sg.segend ≤ off ∨ off + g.segl ≤ sg.offset)
    (hring : ∀ f ∈ s.closed.head?, (f.offset < off + g.segl → f.offset ≤ off) ∧
      ∀ sg ∈ s.closed, RingAt (off + g.segl) f sg) :
    placeSeg g s off = .error .exit ∨ ∃ s', placeSeg g s off = .ok s' ∧ SpaceInv g s' ∧ s'.cur.isSome := by
  have hpos := g.spc_pos
  have hsegl := g.segl_ge
  have hseglm := g.segl_mod
  have hsegs := segments_of_none hcur
  have hseg := h.seg
  rw [hsegs] at hseg
  rw [placeSeg, if_neg (by omega)]
  by_cases hexit : s.closed.head?.any fun sg2 => off < sg2.offset ∧ sg2.offset < off + g.segl
  · exact .inl (if_pos hexit)
  · rw [if_neg hexit, if_neg (by omega)]
    refine .inr ⟨_, rfl, ?_, rfl⟩
    have hsegs' : Space.segments { s with cur := some (newSegAt g s off), freeOffset := off + g.segl, objreserv := 0
                                          nextId := s.nextId + 1 } = s.closed ++ [newSegAt g s off] := rfl
    have hlast : ∀ sg ∈ s.closed, Apart sg (newSegAt g s off) ∧ sg.id ≠ (newSegAt g s off).id := by
      intro sg hsg
      have hlt := (hseg sg hsg).id_lt
      exact ⟨hfree sg hsg, by simp only [newSegAt]; omega⟩
    have hmod' : (off + g.segl) % 8 = 0 := by omega
    refine ⟨Nat.le_add_right_of_le hspc, hend, hmod', ?_, ?_, ?_, ?_, ?_, ?_, ?_, h.bites, h.index⟩
    · intro sg hsg
      rcases List.mem_append.mp (hsegs' ▸ hsg) with hsg | hsg
      · have hi := hseg sg hsg
        exact { hi with id_lt := Nat.lt_succ_of_lt hi.id_lt }
      · cases List.mem_singleton.mp hsg
        refine ⟨Nat.lt_succ_self _, hspc, hmod, by simp only [newSegAt]; omega, le_refl _, rfl, hend, ?_, ?_, ?_⟩
        · simp only [newSegAt, SmpSeg.segend, signSpace]
          omega
        · exact (h.count_new fun b hb => (of_decide_eq_true hb).1).symm
        · exact (h.count_new fun b hb => (of_decide_eq_true hb).1).symm
    · intro sg hsg
      cases hsg
      refine ⟨rfl, le_refl _, ?_, ?_, rfl, ?_⟩
      · simp only [newSegAt, signSpace]
        omega
      · simp only [newSegAt, SmpSeg.segend, signSpace, segSpace_eq, show cAlign 0 = 0 from rfl]
        omega
      · exact (h.count_new fun b hb => of_decide_eq_true hb).symm
    · rw [hsegs', List.pairwise_append]
      refine ⟨hsegs ▸ h.apart, List.pairwise_singleton _ _, fun a ha b hb => ?_⟩
      cases List.mem_singleton.mp hb
      exact (hlast a ha).1
    · rw [hsegs', List.pairwise_append]
      refine ⟨hsegs ▸ h.ids, List.pairwise_singleton _ _, fun a ha b hb => ?_⟩
      cases List.mem_singleton.mp hb
      exact (hlast a ha).2
    · intro sg hsg
      rcases List.mem_append.mp (hsegs' ▸ hsg) with hsg | hsg
      · rcases hfree sg hsg with hf | hf
        · exact .inl (by simp only; omega)
        · exact .inr hf
      · cases List.mem_singleton.mp hsg
        exact .inl (le_refl _)
    · intro f hf sg hsg
      rw [hsegs'] at hf hsg
      cases hcl : s.closed with
      | nil =>
        rw [hcl] at hf hsg
        cases hf
        cases List.mem_singleton.mp hsg
        exact ⟨fun _ _ => le_refl _, fun hlt => ⟨hlt, le_refl _⟩⟩
      | cons f₀ rest =>
        rw [hcl] at hf
        cases hf
        obtain ⟨hlow, hall⟩ := hring f (by rw [hcl]; rfl)
        rcases List.mem_append.mp hsg with hsg | hsg
        · exact hall sg hsg
        · cases List.mem_singleton.mp hsg
          refine ⟨fun _ hle => ?_, fun hlt => ⟨?_, hlow hlt⟩⟩
          · simp only [newSegAt] at hle
            omega
          · simp only [newSegAt]
            omega
    · intro b hb
      obtain ⟨sg, hsg, hin⟩ := h.bite b hb
      exact ⟨sg, hsegs' ▸ List.mem_append_left _ (hsegs ▸ hsg), hin⟩

theorem newSeg_inv (h : SpaceInv g s) (hcur : s.cur = none) (hok : NewSegOk g s) :
    smpNewSeg g s = .error .exit ∨ ∃ s', smpNewSeg g s = .ok s' ∧ SpaceInv g s' ∧ s'.cur.isSome := by
  obtain ⟨hend, hwrap, hfirst⟩ := hok
  have hspc := h.spc_le
  have hmedia := h.le_media
  have hsegl := g.segl_ge
  have hsegs := segments_of_none hcur
  have hseg := h.seg
  have hside := h.side
  have hring := h.ring
  rw [hsegs] at hseg hside hring
  rw [smpNewSeg, if_neg (by rw [hcur]; exact Bool.false_ne_true), if_neg (by omega)]
  by_cases hlt : g.mediasize < s.freeOffset + g.segl
  · rw [if_pos hlt]
    cases hhead : s.closed.head? with
    | none => exact absurd (List.head?_eq_none_iff.mp hhead) (hwrap hlt)
    | some f =>
      simp only
      by_cases hexit : f.offset < g.spc + g.segl
      · exact .inl (if_pos hexit)
      · rw [if_neg hexit]
        have hf := hseg f (List.mem_of_mem_head? hhead)
        have hfend := hf.resv_le
        rw [hf.resv_eq] at hfend
        -- the first segment is not behind the free space, so it is the lowest one
        have hall : ∀ sg ∈ s.closed, f.offset ≤ sg.offset := fun sg hsg => ((hring f hhead sg hsg).2 (by omega)).2
        refine placeSeg_inv h hcur (le_refl _) g.spc_mod (by omega) (fun sg hsg => .inr ?_) fun f' hf' => ?_
        · have hle := hall sg hsg
          omega
        · rw [hhead] at hf'
          cases hf'
          exact ⟨by omega, fun sg hsg => ⟨fun _ _ => hall sg hsg, by omega⟩⟩
  · rw [if_neg hlt]
    have hexit : placeSeg g s s.freeOffset = .error .exit ∨
        ∀ f ∈ s.closed.head?, f.offset < s.freeOffset ∨ s.freeOffset + g.segl ≤ f.offset := by
      by_cases hx : s.closed.head?.any fun sg2 => s.freeOffset < sg2.offset ∧ sg2.offset < s.freeOffset + g.segl
      · exact .inl (by rw [placeSeg, if_neg (by omega), if_pos hx])
      · refine .inr fun f hf => ?_
        have hne := hfirst f hf
        rw [Option.mem_def.mp hf, Option.any_some, decide_eq_true_eq] at hx
        omega
    rcases hexit with hexit | hexit
    · exact .inl hexit
    · refine placeSeg_inv h hcur hspc h.mod (by omega) (fun sg hsg => ?_) fun f hf => ⟨?_, fun sg hsg => ?_⟩
      · rcases hside sg hsg with hs | hs
        · exact .inl hs
        · obtain ⟨f, hf⟩ := Option.isSome_iff_exists.mp (List.isSome_head?.mpr (List.ne_nil_of_mem hsg))
          obtain ⟨hr₁, hr₂⟩ := hring f hf sg hsg
          rcases hexit f hf with hx | hx
          · have hlt' := (hr₂ hx).1
            omega
          · have hle := hr₁ (by omega) hs
            exact .inr (by omega)
      · rcases hexit f hf with hx | hx
        · exact fun _ => hx.le
        · omega
      · obtain ⟨hr₁, hr₂⟩ := hring f hf sg hsg
        rcases hexit f hf with hx | hx
        · obtain ⟨hlt', hle⟩ := hr₂ hx
          exact ⟨by omega, fun _ => ⟨by omega, hle⟩⟩
        · exact ⟨fun _ hle => hr₁ (by omega) (by omega), by omega⟩

end New

/-! ## `smp_close_seg` -/

section Close

/-- A current segment that was not used goes. -/
theorem SpaceInv.discard (h : SpaceInv g s) (hcur : s.cur = some sg) (hzero : sg.nalloc = 0) :
    SpaceInv g { s with cur := none } := by
  have hsegs := segments_of_some hcur
  have hsegs' : Space.segments { s with cur := none } = s.closed := segments_of_none rfl
  have hsub : ∀ sg' ∈ s.closed, sg' ∈ s.segments := fun sg' hsg' => hsegs ▸ List.mem_append_left _ hsg'
  have hnone : ∀ b ∈ s.bites, b.seg ≠ sg.id := by
    have hcount := (h.cur sg hcur).count
    rw [hzero] at hcount
    intro b hb he
    exact List.countP_eq_zero.mp hcount.symm b hb (decide_eq_true he)
  have hapart := h.apart
  have hids := h.ids
  rw [hsegs] at hapart hids
  refine ⟨h.spc_le, h.le_media, h.mod, ?_, fun _ hc => (by cases hc), ?_, ?_, ?_, ?_, ?_, h.bites, h.index⟩
  · intro sg' hsg'
    exact { h.seg sg' (hsub sg' (hsegs' ▸ hsg')) with }
  · rw [hsegs']
    exact (List.pairwise_append.mp hapart).1
  · rw [hsegs']
    exact (List.pairwise_append.mp hids).1
  · intro sg' hsg'
    exact h.side sg' (hsub sg' (hsegs' ▸ hsg'))
  · intro f hf sg' hsg'
    refine h.ring f ?_ sg' (hsub sg' (hsegs' ▸ hsg'))
    rw [hsegs'] at hf
    rw [hsegs, List.head?_append, Option.mem_def.mp hf]
    rfl
  · intro b hb
    obtain ⟨sg', hsg', hin⟩ := h.bite b hb
    rw [hsegs] at hsg'
    rcases List.mem_append.mp hsg' with hsg' | hsg'
    · exact ⟨sg', hsegs'.symm ▸ hsg', hin⟩
    · cases List.mem_singleton.mp hsg'
      exact absurd hin.1.symm (hnone b hb)

theorem dropFront_of_pos {sgs : List SmpSeg} (h : ∀ f ∈ sgs.head?, 0 < f.nobj) : dropFront sgs = sgs := by
  cases sgs with
  | nil => rfl
  | cons f rest =>
    have hpos := h f rfl
    rw [dropFront, List.dropWhile_cons_of_neg]
    simp only [decide_eq_true_eq]
    omega

/-- What `smp_save_segs` reads of a segment that is not the current one. -/
def SmpSeg.toSeg (sg : SmpSeg) : Seg :=
  ⟨⟨.ofNat sg.offset, .ofNat sg.length, .ofNat sg.objlist, .ofNat sg.pnalloc, 0⟩, sg.nobj, false⟩

/-- The list that is left is the one that `smp_save_segs` writes. -/
theorem dropFront_toSeg (sgs : List SmpSeg) : (dropFront sgs).map SmpSeg.toSeg = dropEmpty (sgs.map SmpSeg.toSeg) := by
  induction sgs with
  | nil => rfl
  | cons sg sgs ih =>
    have hnobj : sg.toSeg.nobj = sg.nobj := rfl
    rw [dropFront, List.map_cons, dropEmpty, hnobj]
    by_cases hpos : 0 < sg.nobj
    · rw [List.dropWhile_cons_of_neg (by simp only [decide_eq_true_eq]; omega), if_pos hpos]
      rfl
    · rw [List.dropWhile_cons_of_pos (by simp only [decide_eq_true_eq]; omega), if_neg hpos]
      exact ih

/-- The current segment is closed. -/
theorem SpaceInv.shut (h : SpaceInv g s) (hcur : s.cur = some sg) :
    SpaceInv g { s with closed := s.closed ++ [sg.shut s.objreserv], cur := none
                        freeOffset := (sg.shut s.objreserv).segend } := by
  have hsegs := segments_of_some hcur
  have hseg := h.seg
  have hside := h.side
  have hring := h.ring
  have hapart := h.apart
  have hids := h.ids
  rw [hsegs] at hseg hside hring hapart hids
  obtain ⟨hapart₁, -, hapart₂⟩ := List.pairwise_append.mp hapart
  obtain ⟨hids₁, -, hids₂⟩ := List.pairwise_append.mp hids
  have hmem : sg ∈ s.closed ++ [sg] := List.mem_append_right _ (List.mem_singleton_self sg)
  have hi := hseg sg hmem
  have hc := h.cur sg hcur
  have hhead := hc.head
  have hroom := hc.room
  have hend := segend_shut (r := s.objreserv) hc.next_mod (Nat.le_trans (Nat.le_add_right _ _) hhead)
  have hsp := hi.spc_le
  have hresv := hi.segend_le
  have hmedia := hi.resv_le
  have hfo := hc.segend_eq
  have hmod := hc.next_mod
  have halign := cAlign_mod s.objreserv
  have hss := segSpace_eq
  generalize hsg' : sg.shut s.objreserv = sg' at *
  have hoff : sg'.offset = sg.offset := by rw [← hsg']; rfl
  have hid : sg'.id = sg.id := by rw [← hsg']; rfl
  have hlen : sg'.offset < sg'.segend := by omega
  -- other segments end before this one, or begin behind the space that was reserved for it
  have hother : ∀ sg₁ ∈ s.closed, sg₁.segend ≤ sg.offset ∨ s.freeOffset ≤ sg₁.offset := by
    intro sg₁ hsg₁
    rw [← hfo]
    exact hapart₂ sg₁ hsg₁ sg (List.mem_singleton_self sg)
  refine ⟨by simp only; omega, by simp only; omega, by simp only; omega, ?_, fun _ hx => (by cases hx), ?_, ?_, ?_, ?_, ?_,
    h.bites, h.index⟩
  · intro sg₁ hsg₁
    rw [segments_of_none rfl] at hsg₁
    rcases List.mem_append.mp hsg₁ with hsg₁ | hsg₁
    · exact { hseg sg₁ (List.mem_append_left _ hsg₁) with }
    · cases List.mem_singleton.mp hsg₁
      have hnext : sg'.nextAddr = sg'.segend := by
        rw [← hsg', SmpSeg.segend, SmpSeg.shut]
        simp only
        omega
      refine ⟨hid ▸ hi.id_lt, hoff ▸ hi.spc_le, hoff ▸ hi.mod, ?_, ?_, ?_, ?_, hnext.le, ?_, ?_⟩
      · rw [SmpSeg.segend] at hlen
        omega
      · rw [show sg'.resv = sg.resv by rw [← hsg']; rfl]
        omega
      · rw [show sg'.resv = sg.resv by rw [← hsg']; rfl, hoff]
        exact hi.resv_eq
      · rw [show sg'.resv = sg.resv by rw [← hsg']; rfl]
        exact hmedia
      · rw [show sg'.nalloc1 = sg.nalloc1 by rw [← hsg']; rfl, countObjects, hid]
        exact hi.objects
      · rw [show sg'.nalloc2 = sg.nalloc2 by rw [← hsg']; rfl, countFixed, hid]
        exact hi.fixed
  · rw [segments_of_none rfl, List.pairwise_append]
    refine ⟨hapart₁, List.pairwise_singleton _ _, fun a ha b hb => ?_⟩
    cases List.mem_singleton.mp hb
    rcases hother a ha with ho | ho
    · exact .inl (by omega)
    · exact .inr (by omega)
  · rw [segments_of_none rfl, List.pairwise_append]
    refine ⟨hids₁, List.pairwise_singleton _ _, fun a ha b hb => ?_⟩
    cases List.mem_singleton.mp hb
    rw [hid]
    exact hids₂ a ha sg (List.mem_singleton_self sg)
  · intro sg₁ hsg₁
    rw [segments_of_none rfl] at hsg₁
    rcases List.mem_append.mp hsg₁ with hsg₁ | hsg₁
    · rcases hother sg₁ hsg₁ with ho | ho
      · exact .inl (by simp only; omega)
      · exact .inr (by simp only; omega)
    · cases List.mem_singleton.mp hsg₁
      exact .inl (le_refl _)
  · intro f hf sg₁ hsg₁
    rw [segments_of_none rfl] at hf hsg₁
    cases hcl : s.closed with
    | nil =>
      rw [hcl] at hf hsg₁
      cases hf
      cases List.mem_singleton.mp hsg₁
      exact ⟨fun _ _ => le_refl _, fun hlt => ⟨hlt, le_refl _⟩⟩
    | cons f₀ rest =>
      have hhd : (s.closed ++ [sg]).head? = some f := by
        rw [hcl] at hf ⊢
        exact hf
      have hfm : f ∈ s.closed := by
        rw [hcl] at hf ⊢
        cases hf
        exact List.mem_cons_self
      have hf₁ : sg'.segend ≤ f.offset → s.freeOffset ≤ f.offset := by
        intro hle
        have hpos := (hseg f (List.mem_append_left _ hfm)).length_pos
        rcases hother f hfm with ho | ho
        · rw [SmpSeg.segend] at ho
          omega
        · exact ho
      rcases List.mem_append.mp hsg₁ with hsg₁ | hsg₁
      · obtain ⟨hr₁, hr₂⟩ := hring f hhd sg₁ (List.mem_append_left _ hsg₁)
        have hpos := (hseg sg₁ (List.mem_append_left _ hsg₁)).length_pos
        have ho := hother sg₁ hsg₁
        rw [SmpSeg.segend] at ho
        refine ⟨fun h₁ h₂ => hr₁ (hf₁ h₁) ?_, fun h₁ => ⟨?_, (hr₂ ?_).2⟩⟩
        · simp only at h₂
          omega
        · simp only at h₁ ⊢
          have hlt := (hr₂ (by omega)).1
          omega
        · simp only at h₁
          omega
      · cases List.mem_singleton.mp hsg₁
        obtain ⟨hr₁, hr₂⟩ := hring f hhd sg hmem
        refine ⟨fun _ h₂ => ?_, fun h₁ => ⟨hlen, ?_⟩⟩
        · simp only at h₂
          omega
        · rw [hoff]
          exact (hr₂ (by simp only at h₁; omega)).2
  · intro b hb
    obtain ⟨sg₁, hsg₁, hin⟩ := h.bite b hb
    rw [hsegs] at hsg₁
    rw [segments_of_none rfl]
    rcases List.mem_append.mp hsg₁ with hsg₁ | hsg₁
    · exact ⟨sg₁, List.mem_append_left _ hsg₁, hin⟩
    · cases List.mem_singleton.mp hsg₁
      obtain ⟨hid₁, hlo, hhi⟩ := hin
      have hnext : sg.nextAddr ≤ sg'.nextAddr := by
        rw [← hsg', SmpSeg.shut]
        simp only
        omega
      exact ⟨sg', List.mem_append_right _ (List.mem_singleton_self sg'), hid ▸ hid₁, hoff ▸ hlo, hhi.trans hnext⟩

theorem closeSeg_inv (h : SpaceInv g s) (hcur : s.cur = some sg) (hok : CloseSegOk s) :
    ∃ s', smpCloseSeg g s = .ok s' ∧ SpaceInv g s' ∧ s'.cur = none := by
  have hi := h.seg sg (mem_segments hcur)
  have hc := h.cur sg hcur
  have hpos := g.spc_pos
  have hspc := hi.spc_le
  rw [smpCloseSeg, hcur]
  simp only
  rw [if_neg (by omega)]
  by_cases hzero : sg.nalloc = 0
  · rw [if_pos hzero]
    exact ⟨_, rfl, h.discard hcur hzero, rfl⟩
  · have hroom := hc.room
    have hfront : dropFront (s.closed ++ [sg.shut s.objreserv]) = s.closed ++ [sg.shut s.objreserv] := by
      refine dropFront_of_pos fun f hf => ?_
      have hok' := hok sg hcur hzero
      cases hcl : s.closed with
      | nil =>
        rw [hcl] at hf hok'
        cases hf
        exact hok' sg rfl
      | cons f₀ rest =>
        rw [hcl] at hf hok'
        exact hok' f hf
    have hinv := h.shut hcur
    have hall : (s.closed ++ [sg.shut s.objreserv]).all
        (fun sg => sg.offset < g.mediasize ∧ sg.segend ≤ g.mediasize) = true := by
      rw [List.all_eq_true]
      intro x hx
      have hxi := hinv.seg x (by rw [segments_of_none rfl]; exact hx)
      have hlen := hxi.length_pos
      have hend := hxi.segend_le.trans hxi.resv_le
      rw [SmpSeg.segend] at hend
      exact decide_eq_true ⟨by omega, hend⟩
    rw [if_neg hzero, if_neg (by rw [hc.objreserv]; exact fun hne => hne rfl), smpSpaceleft, if_pos hi.next_le]
    simp only [bind, Except.bind]
    rw [if_neg (by omega), hfront, if_pos hall]
    exact ⟨_, rfl, hinv, rfl⟩

end Close

/-! ## `smp_object` -/

section Object

variable {i : ℕ} {b : Bite}

theorem fix_id (id : ℕ) (sg : SmpSeg) : (sg.fix id).id = sg.id := by
  rw [SmpSeg.fix]
  split <;> rfl

theorem fix_layout (id : ℕ) (sg : SmpSeg) : (sg.fix id).offset = sg.offset ∧ (sg.fix id).length = sg.length ∧
    (sg.fix id).nextAddr = sg.nextAddr ∧ (sg.fix id).resv = sg.resv := by
  rw [SmpSeg.fix]
  split <;> exact ⟨rfl, rfl, rfl, rfl⟩

theorem fix_segend (id : ℕ) (sg : SmpSeg) : (sg.fix id).segend = sg.segend := by
  obtain ⟨ho, hl, -⟩ := fix_layout id sg
  rw [SmpSeg.segend, SmpSeg.segend, ho, hl]

theorem fix_counts (id : ℕ) (sg : SmpSeg) : (sg.fix id).nalloc = sg.nalloc ∧ (sg.fix id).nalloc1 = sg.nalloc1 ∧
    (sg.fix id).nalloc2 = sg.nalloc2 + if sg.id = id then 1 else 0 := by
  rw [SmpSeg.fix]
  split
  · exact ⟨rfl, rfl, rfl⟩
  · exact ⟨rfl, rfl, rfl⟩

/-- The count of something that the change of a bite does not touch. -/
theorem countP_set_of_eq {p : Bite → Bool} {bs : List Bite} {b' : Bite} (hi : bs[i]? = some b) (hp : p b' = p b) :
    (bs.set i b').countP p = bs.countP p := by
  obtain ⟨hlt, hget⟩ := List.getElem?_eq_some_iff.mp hi
  have hle : (if p b then 1 else 0) ≤ bs.countP p := by
    by_cases hb : p b
    · rw [if_pos hb]
      exact List.countP_pos_iff.mpr ⟨b, List.mem_of_getElem? hi, hb⟩
    · rw [if_neg hb]
      exact Nat.zero_le _
  rw [List.countP_set hlt, hget, hp]
  omega

theorem segments_fixAt (s : Space) (i : ℕ) (b : Bite) (n : ℕ) :
    (s.fixAt i b n).segments = s.segments.map (SmpSeg.fix b.seg) := by
  cases hcur : s.cur with
  | none => simp [Space.segments, Space.fixAt, hcur]
  | some sg => simp [Space.segments, Space.fixAt, hcur]

theorem countFixed_fixAt {n : ℕ} (hi : s.bites[i]? = some b) (hnone : b.index = none) (sg : SmpSeg) :
    countFixed (s.fixAt i b n) sg = countFixed s sg + if sg.id = b.seg then 1 else 0 := by
  obtain ⟨hlt, hget⟩ := List.getElem?_eq_some_iff.mp hi
  have hbites : (s.fixAt i b n).bites = s.bites.set i { b with index := some n } := rfl
  rw [countFixed, hbites, List.countP_set hlt, hget, if_neg (by simp [hnone]), Nat.sub_zero, countFixed]
  by_cases hid : sg.id = b.seg
  · rw [if_pos hid, if_pos (decide_eq_true ⟨hid.symm, rfl⟩)]
  · rw [if_neg hid, if_neg fun hp => hid (of_decide_eq_true hp).1.symm]

theorem countObjects_fixAt {n : ℕ} (hi : s.bites[i]? = some b) (sg : SmpSeg) :
    countObjects (s.fixAt i b n) sg = countObjects s sg :=
  countP_set_of_eq hi rfl

theorem countBites_fixAt {n : ℕ} (hi : s.bites[i]? = some b) (sg : SmpSeg) :
    countBites (s.fixAt i b n) sg = countBites s sg :=
  countP_set_of_eq hi rfl

theorem SpaceInv.fixAt {n : ℕ} (h : SpaceInv g s) (hi : s.bites[i]? = some b) (hoc : b.oc) (hnone : b.index = none) :
    SpaceInv g (s.fixAt i b n) := by
  obtain ⟨hlt, hget⟩ := List.getElem?_eq_some_iff.mp hi
  have hb : b ∈ s.bites := List.mem_of_getElem? hi
  have hsegs := segments_fixAt s i b n
  refine ⟨h.spc_le, h.le_media, h.mod, ?_, ?_, ?_, ?_, ?_, ?_, ?_, ?_, ?_⟩
  · intro sg' hsg'
    obtain ⟨sg, hsg, rfl⟩ := List.mem_map.mp (hsegs ▸ hsg')
    have hs := h.seg sg hsg
    obtain ⟨ho, hl, hn, hr⟩ := fix_layout b.seg sg
    obtain ⟨-, h1, h2⟩ := fix_counts b.seg sg
    refine ⟨(fix_id _ _).symm ▸ hs.id_lt, ho ▸ hs.spc_le, ho ▸ hs.mod, hl ▸ hs.length_pos, ?_, ?_, hr ▸ hs.resv_le, ?_, ?_, ?_⟩
    · rw [fix_segend, hr]
      exact hs.segend_le
    · rw [hr, ho]
      exact hs.resv_eq
    · rw [hn, fix_segend]
      exact hs.next_le
    · rw [h1, hs.objects, ← countObjects_fixAt (n := n) hi sg, countObjects, countObjects, fix_id]
    · rw [h2, hs.fixed, ← countFixed_fixAt (n := n) hi hnone sg, countFixed, countFixed, fix_id]
  · intro sg' hsg'
    obtain ⟨sg, hsg, rfl⟩ := Option.map_eq_some_iff.mp hsg'
    have hc := h.cur sg hsg
    obtain ⟨ho, hl, hn, hr⟩ := fix_layout b.seg sg
    obtain ⟨h0, h1, h2⟩ := fix_counts b.seg sg
    refine ⟨(fix_segend _ _).trans hc.segend_eq, ?_, hn ▸ hc.next_mod, ?_, h1 ▸ hc.objreserv, ?_⟩
    · rw [ho, hn]
      exact hc.head
    · rw [hn, fix_segend]
      exact hc.room
    · rw [h0, hc.count, ← countBites_fixAt (n := n) hi sg, countBites, countBites, fix_id]
  · rw [hsegs, List.pairwise_map]
    simp only [Apart, fix_segend, (fix_layout _ _).1]
    exact h.apart
  · rw [hsegs, List.pairwise_map]
    simp only [fix_id]
    exact h.ids
  · intro sg' hsg'
    obtain ⟨sg, hsg, rfl⟩ := List.mem_map.mp (hsegs ▸ hsg')
    rw [fix_segend, (fix_layout _ _).1]
    exact h.side sg hsg
  · intro f' hf' sg' hsg'
    obtain ⟨sg, hsg, rfl⟩ := List.mem_map.mp (hsegs ▸ hsg')
    rw [hsegs, List.head?_map] at hf'
    obtain ⟨f, hf, rfl⟩ := Option.map_eq_some_iff.mp hf'
    rw [RingAt, (fix_layout _ f).1, (fix_layout _ sg).1]
    exact h.ring f hf sg hsg
  · have hold : ∀ x ∈ s.bites, ∃ sg ∈ (s.fixAt i b n).segments, BiteIn x sg := by
      intro x hx
      obtain ⟨sg, hsg, hid, hlo, hhi⟩ := h.bite x hx
      refine ⟨sg.fix b.seg, hsegs ▸ List.mem_map_of_mem hsg, (fix_id _ _).trans hid, ?_, ?_⟩
      · rw [(fix_layout _ _).1]
        exact hlo
      · rw [(fix_layout _ _).2.2.1]
        exact hhi
    intro x hx
    rcases List.mem_or_eq_of_mem_set hx with hx | rfl
    · exact hold x hx
    · exact hold b hb
  · have hself : s.bites.set i b = s.bites := by
      rw [← hget]
      exact List.set_getElem_self hlt
    have hmap : (s.bites.set i { b with index := some n }).map (fun b => (b.start, b.stop)) =
        s.bites.map fun b => (b.start, b.stop) := by
      nth_rewrite 2 [← hself]
      rw [List.map_set, List.map_set]
      rfl
    have hpair : (s.bites.map fun b => (b.start, b.stop)).Pairwise fun x y => x.2 ≤ y.1 ∨ y.2 ≤ x.1 :=
      List.pairwise_map.mpr h.bites
    rw [← hmap] at hpair
    exact List.pairwise_map.mp hpair
  · intro x hx
    rcases List.mem_or_eq_of_mem_set hx with hx | rfl
    · exact h.index x hx
    · exact fun _ => hoc

theorem object_inv (h : SpaceInv g s) (hi : s.bites[i]? = some b) (hoc : b.oc) (hnone : b.index = none) :
    ∃ s', smpObject s i = .ok s' ∧ SpaceInv g s' := by
  obtain ⟨sg₀, hsg₀, hid₀, -⟩ := h.bite b (List.mem_of_getElem? hi)
  have hsome : (s.segments.find? fun sg => sg.id = b.seg).isSome :=
    List.find?_isSome.mpr ⟨sg₀, hsg₀, decide_eq_true hid₀⟩
  obtain ⟨sg, hfind⟩ := Option.isSome_iff_exists.mp hsome
  have hid : sg.id = b.seg := by simpa using List.find?_some hfind
  have hs := h.seg sg (List.mem_of_find?_eq_some hfind)
  have hinv : SpaceInv g (s.fixAt i b sg.nalloc2) := h.fixAt hi hoc hnone
  -- with the new object there are still not more designated objects than objects
  have hlt : sg.nalloc2 < sg.nalloc1 := by
    have hle : countFixed (s.fixAt i b sg.nalloc2) sg ≤ countObjects (s.fixAt i b sg.nalloc2) sg := by
      refine List.countP_mono_left fun x hx hp => ?_
      obtain ⟨hseg, hind⟩ := of_decide_eq_true hp
      exact decide_eq_true ⟨hseg, hinv.index x hx hind⟩
    rw [countFixed_fixAt hi hnone, if_pos hid, countObjects_fixAt hi] at hle
    rw [hs.fixed, hs.objects]
    exact hle
  refine ⟨_, ?_, hinv⟩
  rw [smpObject, hi]
  simp only
  rw [hfind]
  simp only
  rw [if_pos hlt]

end Object

end Varnish.Silo
