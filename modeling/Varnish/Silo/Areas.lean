import Varnish.Silo.Crash

/-!
# Varnish.Silo.Areas — the areas of the tables

Each copy of a table has an area of a megabyte, and neither `smp_appendban` nor `smp_save_seg` looks where it ends.

* `Op.Inside`: the writes of an operation stay in the area of the copy that is written.
* `newBan_inside`, `saveSegs_inside`: when they do.
* `areas_iff`: all operations of a run stay in the areas as long as all bans and each table of segments fit.
* `areas_bans`: enough bans go over the other copy of the table.
-/

namespace Varnish.Silo

open Varnish.Lib

variable {sha : List UInt8 → List UInt8} {g : Geom} {m : Mem} {c : Signctx} {s s₀ : Sc}

/-! ## Writes inside the areas -/

section Inside

/-- The copies are written one after the other, each inside its area. -/
def CopiesInside (g₁ g₂ : Signctx) (m : Mem) (f₁ f₂ : Mem → List Write × Option Signctx) : Prop :=
  Within g₁.ss (g₁.ss + areaSize) (f₁ m).1 ∧
    ((f₁ m).2.isSome → Within g₂.ss (g₂.ss + areaSize) (f₂ (applyAll m (f₁ m).1)).1)

variable (sha g)

/-- The operation writes only to the areas of its table; the functions are those of `smpSaveSegs` and `smpNewBan`. -/
def Op.Inside (s : Sc) : Op → Prop
  | .saveSegs sgs => CopiesInside g.seg1 g.seg2 s.mem (fun m => smpSaveSeg sha m s.seg1 ((dropEmpty sgs).map Seg.p))
      fun m => smpSaveSeg sha m s.seg2 ((dropEmpty sgs).map Seg.p)
  | .newBan b => CopiesInside g.ban1 g.ban2 s.mem
      (fun m => smpAppendban sha m s.ban1 b.t0 0 ((b.text.length + 1) % 2 ^ 32) (b.text ++ [0]))
      fun m => smpAppendban sha m s.ban2 b.t0 0 ((b.text.length + 1) % 2 ^ 32) (b.text ++ [0])

/-- All operations of a run do, until the program stops. -/
def RunInside (s : Sc) : List Op → Prop
  | [] => True
  | op :: ops => op.Inside sha g s ∧ ∀ s', scStep sha s op = some s' → RunInside s' ops

/-- The bytes that an operation appends to the table of bans. -/
def Op.banBytes : Op → ℕ
  | .saveSegs _ => 0
  | .newBan b => 20 + (b.text.length + 1) % 2 ^ 32

/-- The room for a table with its `smp_sign` and its digest. -/
def Op.SegsFit : Op → Prop
  | .saveSegs sgs => 32 * (dropEmpty sgs).length + 64 ≤ areaSize
  | .newBan _ => True

end Inside

/-! ## One operation -/

section Step

theorem within_partWrites_iff (hsha : ∀ x, (sha x).length = 32) {old : List UInt8} {parts : List (List UInt8)} :
    Within c.ss (c.ss + areaSize) (partWrites sha c old parts) ↔ old.length + parts.flatten.length + 64 ≤ areaSize := by
  constructor
  · intro h
    have hlast := (h (digestWrite sha c (old ++ parts.flatten)) (by simp [partWrites])).2
    simp only [digestWrite, digest, hsha, endOf, List.length_append] at hlast
    omega
  · intro h
    refine (within_partWrites hsha).mono (le_refl _) ?_
    rw [endOf, List.length_append]
    omega

theorem within_saveWrites_iff (hsha : ∀ x, (sha x).length = 32) (hc : c.Wf) {ps : List Segptr} :
    Within c.ss (c.ss + areaSize) (saveWrites sha c ps) ↔ 32 * ps.length + 64 ≤ areaSize := by
  have hlen := length_segBody ps
  constructor
  · intro h
    have hlast := (h (digestWrite sha c (segBody ps)) (by simp [saveWrites, tailWrites])).2
    simp only [digestWrite, digest, hsha, endOf] at hlast
    omega
  · intro h
    refine (within_saveWrites hsha hc ps).mono (le_refl _) ?_
    rw [endOf]
    omega

/-- The pointers are stored one after the other. -/
theorem length_of_within {lo hi ptr : ℕ} {ps : List Segptr} (hptr : ptr ≤ hi) (h : Within lo hi (segWrites ptr ps)) :
    ptr + 32 * ps.length ≤ hi := by
  induction ps generalizing ptr with
  | nil => exact hptr
  | cons p ps ih =>
    have hfirst := (h _ List.mem_cons_self).2
    rw [length_segptr] at hfirst
    have hrest : ptr + segptrSize + 32 * ps.length ≤ hi := ih hfirst fun w hw => h w (List.mem_cons_of_mem _ hw)
    rw [segptrSize] at hrest
    rw [List.length_cons]
    omega

/-- **`SMP_NewBan`** stays in the areas while there is room. -/
theorem newBan_inside (hsha : ∀ x, (sha x).length = 32) {body : List UInt8} {b : Ban}
    (h : Pair sha s.mem g.ban1 g.ban2 s.ban1 s.ban2 body) :
    (Op.newBan b).Inside sha g s ↔ body.length + (20 + b.savedText.length) + 64 ≤ areaSize := by
  have harea : areaSize = 1048576 := rfl
  have hfits := h.fits
  obtain ⟨h₁, h₂, hc₁, hc₂, -⟩ := h
  by_cases hrec : 20 + b.savedText.length < 2 ^ 32
  · have hlen := length_recParts b.t0 b.savedText
    have hsmall : (body ++ (recParts b.t0 b.savedText).flatten).length < 2 ^ 64 := by
      rw [List.length_append]
      omega
    have hf₁ := appendban_saved (c := { g.ban1 with ctx := g.ban1.header ++ body }) (b := b) hsha
      ⟨(wf_ban1 g).id, (wf_ban1 g).unique, (wf_ban1 g).addr⟩
      ⟨h₁.opened.head, h₁.opened.length, h₁.opened.bytes, h₁.opened.small⟩ rfl hrec hsmall
    have hiff : Within g.ban1.ss (g.ban1.ss + areaSize) (partWrites sha g.ban1 body (recParts b.t0 b.savedText)) ↔ _ :=
      within_partWrites_iff hsha
    rw [Op.Inside, CopiesInside, hc₁, hc₂]
    simp only [hf₁]
    rw [hlen] at hiff
    constructor
    · intro hin
      exact hiff.1 hin.1
    · intro hfit
      have hin₁ := hiff.2 hfit
      refine ⟨hin₁, fun _ => ?_⟩
      -- the second copy is as it was
      have h₂' := h₂.frame hin₁ (.inr (by simp only [Geom.ban1, Geom.ban2, Geom.defSign]; omega))
      have hf₂ := appendban_saved (c := { g.ban2 with ctx := g.ban2.header ++ body }) (b := b) hsha
        ⟨(wf_ban2 g).id, (wf_ban2 g).unique, (wf_ban2 g).addr⟩
        ⟨h₂'.opened.head, h₂'.opened.length, h₂'.opened.bytes, h₂'.opened.small⟩ rfl hrec hsmall
      show Within _ _ (smpAppendban sha _ { g.ban2 with ctx := g.ban2.header ++ body } b.t0 0 _ _).1
      rw [show partWrites sha { g.ban1 with ctx := g.ban1.header ++ body } body (recParts b.t0 b.savedText) =
        partWrites sha g.ban1 body (recParts b.t0 b.savedText) from rfl, hf₂]
      exact (within_partWrites_iff (c := g.ban2) hsha).2 (by rw [hlen]; exact hfit)
  · -- the text alone is longer than an area
    have hlen := length_savedText b
    constructor
    · intro hin
      have htext := (hin.1 ⟨signEnd s.mem s.ban1 + 20, b.savedText⟩ (by simp [smpAppendban, Ban.savedText])).2
      have hss : s.ban1.ss = g.ban1.ss := by rw [hc₁]
      simp only [signEnd, signData, hss] at htext
      omega
    · intro hfit
      omega

/-- **`smp_save_segs`** stays in the areas if there is room for the segments. -/
theorem saveSegs_inside (hsha : ∀ x, (sha x).length = 32) {body : List UInt8} {sgs : List Seg}
    (h : Pair sha s.mem g.seg1 g.seg2 s.seg1 s.seg2 body) :
    (Op.saveSegs sgs).Inside sha g s ↔ 32 * (dropEmpty sgs).length + 64 ≤ areaSize := by
  have harea : areaSize = 1048576 := rfl
  obtain ⟨-, -, hc₁, hc₂, -⟩ := h
  have hwf₁ : Signctx.Wf { g.seg1 with ctx := g.seg1.header ++ body } := ⟨(wf_seg1 g).id, (wf_seg1 g).unique, (wf_seg1 g).addr⟩
  have hwf₂ : Signctx.Wf { g.seg2 with ctx := g.seg2.header ++ body } := ⟨(wf_seg2 g).id, (wf_seg2 g).unique, (wf_seg2 g).addr⟩
  have hn : ((dropEmpty sgs).map Seg.p).length = (dropEmpty sgs).length := List.length_map ..
  rw [Op.Inside, CopiesInside, hc₁, hc₂, ← hn]
  by_cases hsmall : 32 * ((dropEmpty sgs).map Seg.p).length < 2 ^ 32
  · simp only [saveSeg_eq hsha hwf₁ _ hsmall, saveSeg_eq hsha hwf₂ _ hsmall]
    constructor
    · intro hin
      exact (within_saveWrites_iff hsha hwf₁).1 hin.1
    · intro hfit
      exact ⟨(within_saveWrites_iff hsha hwf₁).2 hfit, fun _ => (within_saveWrites_iff hsha hwf₂).2 hfit⟩
  · -- the length does not fit into 32 bits
    constructor
    · intro hin
      have hsegs : Within g.seg1.ss (g.seg1.ss + areaSize) (segWrites (g.seg1.ss + 32) ((dropEmpty sgs).map Seg.p)) := by
        intro w hw
        refine hin.1 w ?_
        rw [smpSaveSeg, resetSign_eq hsha hwf₁]
        exact List.mem_append_left _ (List.mem_append_right _ hw)
      have hlen := length_of_within (by omega) hsegs
      omega
    · intro hfit
      omega

end Step

/-! ## Runs -/

section Runs

theorem runInside_iff (hsha : ∀ x, (sha x).length = 32) (ops : List Op) {bans segs : List UInt8} {s : Sc}
    (hbans : Pair sha s.mem g.ban1 g.ban2 s.ban1 s.ban2 bans)
    (hsegs : Pair sha s.mem g.seg1 g.seg2 s.seg1 s.seg2 segs) :
    RunInside sha g s ops ↔ bans.length + (ops.map Op.banBytes).sum + 64 ≤ areaSize ∧ ∀ op ∈ ops, op.SegsFit := by
  induction ops generalizing bans segs s with
  | nil => simpa [RunInside] using hbans.fits
  | cons op ops ih =>
    rw [RunInside, List.map_cons, List.sum_cons, List.forall_mem_cons]
    cases op with
    | saveSegs sgs =>
      rw [saveSegs_inside hsha hsegs]
      constructor
      · rintro ⟨hfit, hrest⟩
        obtain ⟨s', hs', hb, hs, -⟩ := saveSegs_step (g := g) hsha hbans hsegs hfit
        obtain ⟨hlen, hall⟩ := (ih hb hs).1 (hrest s' hs')
        exact ⟨by rw [Op.banBytes]; omega, hfit, hall⟩
      · rintro ⟨hlen, hfit, hall⟩
        refine ⟨hfit, fun s' hs' => ?_⟩
        obtain ⟨s₁, hs₁, hb, hs, -⟩ := saveSegs_step (g := g) hsha hbans hsegs hfit
        rw [hs₁] at hs'
        cases hs'
        rw [Op.banBytes] at hlen
        exact (ih hb hs).2 ⟨by omega, hall⟩
    | newBan b =>
      have htxt := length_savedText b
      have hrec := length_recParts b.t0 b.savedText
      rw [newBan_inside hsha hbans, Op.banBytes]
      constructor
      · rintro ⟨hfit, hrest⟩
        obtain ⟨s', hs', hb, hs, -⟩ := newBan_step (g := g) hsha hbans hsegs hfit
        obtain ⟨hlen, hall⟩ := (ih hb hs).1 (hrest s' hs')
        rw [List.length_append] at hlen
        exact ⟨by omega, trivial, hall⟩
      · rintro ⟨hlen, -, hall⟩
        have hfit : bans.length + (20 + b.savedText.length) + 64 ≤ areaSize := by omega
        refine ⟨hfit, fun s' hs' => ?_⟩
        obtain ⟨s₁, hs₁, hb, hs, -⟩ := newBan_step (g := g) hsha hbans hsegs hfit
        rw [hs₁] at hs'
        cases hs'
        refine (ih hb hs).2 ⟨?_, hall⟩
        rw [List.length_append]
        omega

/-- **The areas of the tables**: every write of every operation of a run is inside the area of the copy that is written if
and only if there is room for all bans of the run together, and for each table of segments, each with the 64 bytes of its
`smp_sign` and its digest. -/
theorem areas_iff (hsha : ∀ x, (sha x).length = 32) (h0 : smpNewsilo sha g m = some s₀) (ops : List Op) :
    RunInside sha g s₀ ops ↔ (ops.map Op.banBytes).sum + 64 ≤ areaSize ∧ ∀ op ∈ ops, op.SegsFit := by
  obtain ⟨s₁, hs₁, hinv, hbans, -⟩ := newsilo_inv hsha g m
  rw [hs₁] at h0
  cases h0
  rw [runInside_iff hsha ops hinv.bans hinv.segs, hbans]
  rw [show (banBody []).length = 0 from rfl, Nat.zero_add]

/-- Two bans and two segments. -/
theorem areas_iff_two : ∃ s₀, smpNewsilo polySha geom (fun _ => 0) = some s₀ ∧
    RunInside polySha geom s₀ [.newBan banA, .saveSegs [segA, segB], .newBan banA] := by
  have hsha : ∀ x, (polySha x).length = 32 := fun x => length_le _ _
  obtain ⟨s₀, h0, -⟩ := newsilo_inv hsha geom fun _ => 0
  refine ⟨s₀, h0, (areas_iff hsha h0 _).2 ⟨by decide, ?_⟩⟩
  simp [Op.SegsFit, dropEmpty, segA, segB, areaSize]

theorem sum_banBytes (n : ℕ) : ((List.replicate n (Op.newBan banA)).map Op.banBytes).sum = n * 24 := by
  rw [List.map_replicate, List.sum_replicate_nat]
  rfl

/-- The same short ban 65536 times. -/
theorem areas_bans : ∃ s₀, smpNewsilo polySha geom (fun _ => 0) = some s₀ ∧
    ¬ RunInside polySha geom s₀ (List.replicate 65536 (.newBan banA)) := by
  have hsha : ∀ x, (polySha x).length = 32 := fun x => length_le _ _
  obtain ⟨s₀, h0, -⟩ := newsilo_inv hsha geom fun _ => 0
  refine ⟨s₀, h0, fun h => ?_⟩
  have hlen := ((areas_iff hsha h0 _).1 h).1
  rw [sum_banBytes, areaSize] at hlen
  omega

end Runs

end Varnish.Silo
