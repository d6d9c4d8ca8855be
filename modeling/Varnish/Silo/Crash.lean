import Varnish.Lib.Run
import Varnish.Silo.Tables

/-!
# Varnish.Silo.Crash — a silo that is opened again after its program was stopped

* `scStep`: whole operations on a silo.  `opWrites`: the writes of an operation, of which any number may have been done.
* `Recovers`: one copy of each table is accepted, and what is read is the table from before the operation or the new one.
* `reach_recovers`: it is so after every run, unless the program stops when the first copy of the segments was reset.
* `crash_empty`: a run after which no segment is read, though there were some before the operation and after it.
-/

namespace Varnish.Silo

open Varnish.Lib

variable {sha : List UInt8 → List UInt8} {g : Geom} {m : Mem} {c c₁ c₂ : Signctx} {old new : List UInt8} {k : ℕ}

/-! ## Runs -/

section Runs

/-- The silo, its contexts, and what was saved last, which is not a part of the program. -/
structure Sc where
  mem : Mem
  ban1 : Signctx
  ban2 : Signctx
  seg1 : Signctx
  seg2 : Signctx
  bans : List Ban
  segs : List Segptr

inductive Op where
  | saveSegs (sgs : List Seg)
  | newBan (ban : Ban)

/-- What is in the tables when the operation is done. -/
def Op.bans (s : Sc) : Op → List Ban
  | .saveSegs _ => s.bans
  | .newBan ban => s.bans ++ [ban]

def Op.segs (s : Sc) : Op → List Segptr
  | .saveSegs sgs => (dropEmpty sgs).map Seg.p
  | .newBan _ => s.segs

variable (sha)

/-- The writes of an operation. -/
def opWrites (s : Sc) : Op → List Write
  | .saveSegs sgs => (smpSaveSegs sha s.mem s.seg1 s.seg2 sgs).1
  | .newBan ban => (smpNewBan sha s.mem s.ban1 s.ban2 ban).1

/-- A whole operation. -/
def scStep (s : Sc) : Op → Option Sc
  | .saveSegs sgs => do
    let (ws, r) := smpSaveSegs sha s.mem s.seg1 s.seg2 sgs
    let (seg1, seg2) ← r
    some { s with mem := applyAll s.mem ws, seg1 := seg1, seg2 := seg2, segs := (Op.saveSegs sgs).segs s }
  | .newBan ban => do
    let (ws, r) := smpNewBan sha s.mem s.ban1 s.ban2 ban
    let (ban1, ban2) ← r
    some { s with mem := applyAll s.mem ws, ban1 := ban1, ban2 := ban2, bans := (Op.newBan ban).bans s }

/-- `smp_newsilo`: the four tables are empty. -/
def smpNewsilo (g : Geom) (m : Mem) : Option Sc := do
  let (ws1, r1) := smpResetSign sha m g.ban1
  let ban1 ← r1
  let m := applyAll m ws1
  let (ws2, r2) := smpResetSign sha m g.ban2
  let ban2 ← r2
  let m := applyAll m ws2
  let (ws3, r3) := smpResetSign sha m g.seg1
  let seg1 ← r3
  let m := applyAll m ws3
  let (ws4, r4) := smpResetSign sha m g.seg2
  let seg2 ← r4
  some ⟨applyAll m ws4, ban1, ban2, seg1, seg2, [], []⟩

/-- The condition on an operation: the tables fit into their areas, and no segment pointer is, byte for byte, the digest
of an empty table. -/
def Op.Fits (g : Geom) (s : Sc) : Op → Prop
  | .saveSegs sgs => 32 * (dropEmpty sgs).length + 64 ≤ areaSize ∧
      ∀ p ∈ (dropEmpty sgs).map Seg.p, p.bytes ≠ digest sha g.seg1 []
  | .newBan ban => (banBody s.bans).length + ban.record.length + 64 ≤ areaSize

/-- The condition on the number of writes after which the program is stopped: not after `smp_reset_sign` of the first copy
of the segments, unless there are none before or after. -/
def Op.CutOk (s : Sc) (k : ℕ) : Op → Prop
  | .saveSegs sgs => k = 2 → s.segs = [] ∨ (dropEmpty sgs).map Seg.p = []
  | .newBan _ => True

/-- What is found when the silo is opened: `old` and `new` are the tables before and after the operation. -/
structure Recovers (g : Geom) (m : Mem) (oldBans newBans : List Ban) (oldSegs newSegs : List Segptr) : Prop where
  ban : smpChkSign sha m g.ban1 = 0 ∨ smpChkSign sha m g.ban2 = 0
  seg : smpChkSign sha m g.seg1 = 0 ∨ smpChkSign sha m g.seg2 = 0
  bans : smpOpenFirst (smpOpenBans sha m g.ban1) (smpOpenBans sha m g.ban2) = some oldBans ∨
    smpOpenFirst (smpOpenBans sha m g.ban1) (smpOpenBans sha m g.ban2) = some newBans
  segs : smpOpenFirst (smpOpenSegs sha m g.seg1) (smpOpenSegs sha m g.seg2) = some oldSegs ∨
    smpOpenFirst (smpOpenSegs sha m g.seg1) (smpOpenSegs sha m g.seg2) = some newSegs

end Runs

/-! ## Two copies -/

section Copies

theorem wf_defSign (g : Geom) {i : ℕ} {id : List UInt8} (hi : i < 4) (hid : id.length < 8) : (g.defSign i id).Wf := by
  have haddr := g.addr
  refine ⟨hid, g.unique.toNat_lt, ?_⟩
  simp only [Geom.defSign, areaSize]
  omega

theorem wf_ban1 (g : Geom) : g.ban1.Wf := wf_defSign g (by decide) (by decide)

theorem wf_ban2 (g : Geom) : g.ban2.Wf := wf_defSign g (by decide) (by decide)

theorem wf_seg1 (g : Geom) : g.seg1.Wf := wf_defSign g (by decide) (by decide)

theorem wf_seg2 (g : Geom) : g.seg2.Wf := wf_defSign g (by decide) (by decide)

/-- The first copy that is accepted holds `body`. -/
def Holds (sha : List UInt8 → List UInt8) (m : Mem) (c₁ c₂ : Signctx) (body : List UInt8) : Prop :=
  (smpChkSign sha m c₁ = 0 ∧ Opened m c₁ body) ∨ (smpChkSign sha m c₁ ≠ 0 ∧ Signed sha m c₂ body)

theorem Signed.holds (hc : c₁.Wf) (h : Signed sha m c₁ old) : Holds sha m c₁ c₂ old := .inl ⟨h.chk hc, h.opened⟩

theorem Holds.chk (hc : c₂.Wf) {body : List UInt8} (h : Holds sha m c₁ c₂ body) :
    smpChkSign sha m c₁ = 0 ∨ smpChkSign sha m c₂ = 0 := by
  rcases h with ⟨h, -⟩ | ⟨-, h⟩
  · exact .inl h
  · exact .inr (h.chk hc)

/-- The second copy is intact while the first one is written, and the first one is done when the second one is. -/
theorem twoCopies {ws₁ ws₂ : List Write} (hc₁ : c₁.Wf) (h₁ : Signed sha (applyAll m ws₁) c₁ new)
    (h₂ : Signed sha m c₂ old) (hin₁ : Within c₁.ss (c₁.ss + areaSize) ws₁) (hin₂ : Within c₂.ss (c₂.ss + areaSize) ws₂)
    (hdis : c₁.ss + areaSize ≤ c₂.ss) (hfit : endOf c₁ new + 32 ≤ c₁.ss + areaSize)
    (hcut : smpChkSign sha (applyAll m (ws₁.take k)) c₁ = 0 →
      Opened (applyAll m (ws₁.take k)) c₁ old ∨ Opened (applyAll m (ws₁.take k)) c₁ new) :
    Holds sha (applyAll m ((ws₁ ++ ws₂).take k)) c₁ c₂ old ∨ Holds sha (applyAll m ((ws₁ ++ ws₂).take k)) c₁ c₂ new := by
  rcases Nat.lt_or_ge ws₁.length k with hlt | hge
  · -- the first copy is done
    refine .inr ?_
    rw [List.take_append, List.take_of_length_le (by omega), applyAll_append]
    exact (h₁.frame (hin₂.take _) (.inl (by omega))).holds hc₁
  · rw [List.take_append_of_le_length hge]
    by_cases hchk : smpChkSign sha (applyAll m (ws₁.take k)) c₁ = 0
    · rcases hcut hchk with hopen | hopen
      · exact .inl (.inl ⟨hchk, hopen⟩)
      · exact .inr (.inl ⟨hchk, hopen⟩)
    · exact .inl (.inr ⟨hchk, h₂.frame (hin₁.take k) (.inr hdis)⟩)

/-- What is read from the first copy that is accepted. -/
theorem Holds.openBans {bans : List Ban} (hc : c₂.Wf) (hsmall : (banBody bans).length < 2 ^ 32)
    (h : Holds sha m c₁ c₂ (banBody bans)) :
    smpOpenFirst (smpOpenBans sha m c₁) (smpOpenBans sha m c₂) = some bans := by
  have hrecs : ∀ b ∈ bans, b.record.length < 2 ^ 32 := fun b hb => lt_of_le_of_lt (length_record_le hb) hsmall
  rcases h with ⟨hchk, h⟩ | ⟨hchk, h⟩
  · rw [openBans_opened h hrecs hchk]
    rfl
  · rw [openBans_opened h.opened hrecs (h.chk hc), smpOpenBans]
    simp [smpOpenFirst, hchk]

theorem Holds.openSegs {ps : List Segptr} (hc : c₂.Wf) (h : Holds sha m c₁ c₂ (segBody ps)) :
    smpOpenFirst (smpOpenSegs sha m c₁) (smpOpenSegs sha m c₂) = some ps := by
  rcases h with ⟨hchk, h⟩ | ⟨hchk, h⟩
  · rw [openSegs_opened h hchk]
    rfl
  · rw [openSegs_opened h.opened (h.chk hc), smpOpenSegs]
    simp [smpOpenFirst, hchk]

theorem recovers_of_holds {oldBans newBans : List Ban} {oldSegs newSegs : List Segptr}
    (hold : (banBody oldBans).length < 2 ^ 32) (hnew : (banBody newBans).length < 2 ^ 32)
    (hb : Holds sha m g.ban1 g.ban2 (banBody oldBans) ∨ Holds sha m g.ban1 g.ban2 (banBody newBans))
    (hs : Holds sha m g.seg1 g.seg2 (segBody oldSegs) ∨ Holds sha m g.seg1 g.seg2 (segBody newSegs)) :
    Recovers sha g m oldBans newBans oldSegs newSegs := by
  have wb := wf_ban2 g
  have ws := wf_seg2 g
  refine ⟨?_, ?_, ?_, ?_⟩
  · exact hb.elim (Holds.chk wb) (Holds.chk wb)
  · exact hs.elim (Holds.chk ws) (Holds.chk ws)
  · exact hb.imp (Holds.openBans wb hold) (Holds.openBans wb hnew)
  · exact hs.imp (Holds.openSegs ws) (Holds.openSegs ws)

end Copies

/-! ## The invariant -/

section Inv

variable {s s' : Sc}

/-- Both copies of a table hold it and are signed, and the contexts are ready to append to them. -/
structure Pair (sha : List UInt8 → List UInt8) (m : Mem) (g₁ g₂ c₁ c₂ : Signctx) (body : List UInt8) : Prop where
  fst : Signed sha m g₁ body
  snd : Signed sha m g₂ body
  ctx₁ : c₁ = { g₁ with ctx := g₁.header ++ body }
  ctx₂ : c₂ = { g₂ with ctx := g₂.header ++ body }
  fits : body.length + 64 ≤ areaSize

structure ScInv (sha : List UInt8 → List UInt8) (g : Geom) (s : Sc) : Prop where
  bans : Pair sha s.mem g.ban1 g.ban2 s.ban1 s.ban2 (banBody s.bans)
  segs : Pair sha s.mem g.seg1 g.seg2 s.seg1 s.seg2 (segBody s.segs)
  plain : ∀ p ∈ s.segs, p.bytes ≠ digest sha g.seg1 []

variable {g₁ g₂ : Signctx} {body : List UInt8} {ws : List Write} {lo hi : ℕ}

/-- Writes to the other tables. -/
theorem Pair.frame (h : Pair sha m g₁ g₂ c₁ c₂ body) (hws : Within lo hi ws)
    (hoff : (g₁.ss + areaSize ≤ lo ∧ g₂.ss + areaSize ≤ lo) ∨ (hi ≤ g₁.ss ∧ hi ≤ g₂.ss)) :
    Pair sha (applyAll m ws) g₁ g₂ c₁ c₂ body := by
  have hfits := h.fits
  refine ⟨h.fst.frame hws ?_, h.snd.frame hws ?_, h.ctx₁, h.ctx₂, h.fits⟩
  · rw [endOf]
    omega
  · rw [endOf]
    omega

/-- What is known of the writes to the two copies of a table. -/
structure Saved (sha : List UInt8 → List UInt8) (m : Mem) (g₁ g₂ : Signctx) (new : List UInt8) (ws : List Write)
    (r : Option (Signctx × Signctx)) : Prop where
  within : Within g₁.ss (g₂.ss + areaSize) ws
  result : ∃ c₁ c₂, r = some (c₁, c₂) ∧ Pair sha (applyAll m ws) g₁ g₂ c₁ c₂ new

/-- Two copies that are written one after the other. -/
theorem saved_andThen {ws₁ ws₂ : List Write} {f₁ f₂ : Mem → List Write × Option Signctx}
    (hf₁ : f₁ m = (ws₁, some { g₁ with ctx := g₁.header ++ new }))
    (hf₂ : f₂ (applyAll m ws₁) = (ws₂, some { g₂ with ctx := g₂.header ++ new }))
    (hin₁ : Within g₁.ss (g₁.ss + areaSize) ws₁) (hin₂ : Within g₂.ss (g₂.ss + areaSize) ws₂)
    (hdis : g₁.ss + areaSize ≤ g₂.ss) (hfits : new.length + 64 ≤ areaSize)
    (h₁ : Signed sha (applyAll m ws₁) g₁ new) (h₂ : Signed sha (applyAll (applyAll m ws₁) ws₂) g₂ new) :
    (andThen m f₁ f₂).1 = ws₁ ++ ws₂ ∧ Saved sha m g₁ g₂ new (andThen m f₁ f₂).1 (andThen m f₁ f₂).2 := by
  have heq : andThen m f₁ f₂ =
      (ws₁ ++ ws₂, some ({ g₁ with ctx := g₁.header ++ new }, { g₂ with ctx := g₂.header ++ new })) := by
    simp only [andThen, hf₁, hf₂]
  rw [heq]
  refine ⟨rfl, (hin₁.mono (le_refl _) (by omega)).append (hin₂.mono (by omega) (le_refl _)), _, _, rfl, ?_⟩
  rw [applyAll_append]
  refine ⟨h₁.frame hin₂ (.inl ?_), h₂, rfl, rfl, hfits⟩
  rw [endOf]
  omega

/-- **`smp_save_segs`** -/
theorem saveSegs_saved (hsha : ∀ x, (sha x).length = 32) {ps : List Segptr} {sgs : List Seg}
    (h : Pair sha m g.seg1 g.seg2 c₁ c₂ body) (hps : (dropEmpty sgs).map Seg.p = ps)
    (hfits : 32 * ps.length + 64 ≤ areaSize) :
    (smpSaveSegs sha m c₁ c₂ sgs).1 = saveWrites sha g.seg1 ps ++ saveWrites sha g.seg2 ps ∧
      Saved sha m g.seg1 g.seg2 (segBody ps) (smpSaveSegs sha m c₁ c₂ sgs).1 (smpSaveSegs sha m c₁ c₂ sgs).2 := by
  have hlen := length_segBody ps
  have harea : areaSize = 1048576 := rfl
  have hsmall : 32 * ps.length < 2 ^ 32 := by omega
  have hwithin : ∀ c : Signctx, c.Wf → Within c.ss (c.ss + areaSize) (saveWrites sha c ps) := fun c hc =>
    (within_saveWrites hsha hc ps).mono (le_refl _) (by rw [endOf]; omega)
  obtain ⟨-, -, rfl, rfl, -⟩ := h
  rw [smpSaveSegs]
  simp only [hps]
  refine saved_andThen ?_ ?_ (hwithin _ (wf_seg1 g)) (hwithin _ (wf_seg2 g)) ?_ (by omega)
    (signed_saveWrites hsha (wf_seg1 g) m hsmall) (signed_saveWrites hsha (wf_seg2 g) _ hsmall)
  · exact saveSeg_eq (c := { g.seg1 with ctx := g.seg1.header ++ body }) hsha
      ⟨(wf_seg1 g).id, (wf_seg1 g).unique, (wf_seg1 g).addr⟩ m hsmall
  · exact saveSeg_eq (c := { g.seg2 with ctx := g.seg2.header ++ body }) hsha
      ⟨(wf_seg2 g).id, (wf_seg2 g).unique, (wf_seg2 g).addr⟩ _ hsmall
  · simp only [Geom.seg1, Geom.seg2, Geom.defSign]
    omega

/-- **`SMP_NewBan`**, whatever it passes on of the text. -/
theorem newBan_savedText (hsha : ∀ x, (sha x).length = 32) {b : Ban} (h : Pair sha m g.ban1 g.ban2 c₁ c₂ body)
    (hfits : body.length + (20 + b.savedText.length) + 64 ≤ areaSize) :
    (smpNewBan sha m c₁ c₂ b).1 = partWrites sha g.ban1 body (recParts b.t0 b.savedText) ++
        partWrites sha g.ban2 body (recParts b.t0 b.savedText) ∧
      Saved sha m g.ban1 g.ban2 (body ++ (recParts b.t0 b.savedText).flatten) (smpNewBan sha m c₁ c₂ b).1
        (smpNewBan sha m c₁ c₂ b).2 := by
  have harea : areaSize = 1048576 := rfl
  have hlen := length_recParts b.t0 b.savedText
  have hsmall : (body ++ (recParts b.t0 b.savedText).flatten).length < 2 ^ 64 := by
    rw [List.length_append]
    omega
  have hrec : 20 + b.savedText.length < 2 ^ 32 := by omega
  have hwithin : ∀ c : Signctx, Within c.ss (c.ss + areaSize) (partWrites sha c body (recParts b.t0 b.savedText)) :=
    fun c => (within_partWrites hsha).mono (le_refl _) (by rw [endOf, List.length_append]; omega)
  have hdis : g.ban1.ss + areaSize ≤ g.ban2.ss := by
    simp only [Geom.ban1, Geom.ban2, Geom.defSign]
    omega
  obtain ⟨h₁, h₂, rfl, rfl, -⟩ := h
  have h₂' := h₂.frame (hwithin g.ban1) (.inr hdis)
  rw [smpNewBan]
  refine saved_andThen ?_ ?_ (hwithin _) (hwithin _) hdis (by rw [List.length_append]; omega)
    (signed_partWrites hsha h₁.opened hsmall) (signed_partWrites hsha h₂'.opened hsmall)
  · exact appendban_saved (c := { g.ban1 with ctx := g.ban1.header ++ body }) hsha
      ⟨(wf_ban1 g).id, (wf_ban1 g).unique, (wf_ban1 g).addr⟩
      ⟨h₁.opened.head, h₁.opened.length, h₁.opened.bytes, h₁.opened.small⟩ rfl hrec hsmall
  · exact appendban_saved (c := { g.ban2 with ctx := g.ban2.header ++ body }) hsha
      ⟨(wf_ban2 g).id, (wf_ban2 g).unique, (wf_ban2 g).addr⟩
      ⟨h₂'.opened.head, h₂'.opened.length, h₂'.opened.bytes, h₂'.opened.small⟩ rfl hrec hsmall

theorem newBan_saved (hsha : ∀ x, (sha x).length = 32) {b : Ban} (h : Pair sha m g.ban1 g.ban2 c₁ c₂ body)
    (hfits : body.length + b.record.length + 64 ≤ areaSize) :
    (smpNewBan sha m c₁ c₂ b).1 = banWrites sha g.ban1 body b ++ banWrites sha g.ban2 body b ∧
      Saved sha m g.ban1 g.ban2 (body ++ b.record) (smpNewBan sha m c₁ c₂ b).1 (smpNewBan sha m c₁ c₂ b).2 := by
  have harea : areaSize = 1048576 := rfl
  rw [length_record] at hfits
  have htxt := savedText_of_lt (b := b) (by omega)
  have hparts : b.parts = recParts b.t0 b.savedText := by rw [htxt, Ban.parts_eq]
  rw [Ban.record, banWrites_eq, banWrites_eq, hparts]
  exact newBan_savedText hsha h (by rw [htxt, List.length_append, List.length_singleton]; omega)

/-- A new table. -/
theorem signed_reset (hsha : ∀ x, (sha x).length = 32) (hc : c.Wf) (m : Mem) :
    Signed sha (applyAll m [headWrite c, digestWrite sha c []]) c [] := by
  have h := (opened_reset hc m).sign hsha
  rw [← applyAll_append] at h
  exact h

theorem within_reset (hsha : ∀ x, (sha x).length = 32) (hc : c.Wf) :
    Within c.ss (c.ss + areaSize) [headWrite c, digestWrite sha c []] := by
  have harea : areaSize = 1048576 := rfl
  intro w hw
  simp only [List.mem_cons, List.not_mem_nil, or_false] at hw
  rcases hw with rfl | rfl
  · simp only [headWrite, List.length_append, hc.header_length, length_le]
    omega
  · simp only [digestWrite, digest, hsha, endOf, List.length_nil]
    omega

/-- `smp_newsilo` does not fail. -/
theorem newsilo_inv (hsha : ∀ x, (sha x).length = 32) (g : Geom) (m : Mem) :
    ∃ s₀, smpNewsilo sha g m = some s₀ ∧ ScInv sha g s₀ ∧ s₀.bans = [] ∧ s₀.segs = [] := by
  have harea : areaSize = 1048576 := rfl
  have hb₁ : g.ban1.ss = g.granularity := rfl
  have hb₂ : g.ban2.ss = g.granularity + areaSize := rfl
  have hs₁ : g.seg1.ss = g.granularity + areaSize * 2 := rfl
  have hs₂ : g.seg2.ss = g.granularity + areaSize * 3 := rfl
  let m₁ := applyAll m [headWrite g.ban1, digestWrite sha g.ban1 []]
  let m₂ := applyAll m₁ [headWrite g.ban2, digestWrite sha g.ban2 []]
  let m₃ := applyAll m₂ [headWrite g.seg1, digestWrite sha g.seg1 []]
  let m₄ := applyAll m₃ [headWrite g.seg2, digestWrite sha g.seg2 []]
  have hin : ∀ {c}, c.Wf → Within c.ss (c.ss + areaSize) [headWrite c, digestWrite sha c []] := fun hc => within_reset hsha hc
  have hend : ∀ c : Signctx, endOf c [] + 32 = c.ss + 64 := fun c => rfl
  -- each table is left alone by the ones that come after it
  have h₁ : Signed sha m₄ g.ban1 [] := by
    have h := (signed_reset hsha (wf_ban1 g) m).frame (hin (wf_ban2 g)) (.inl (by rw [hend]; omega))
    exact (h.frame (hin (wf_seg1 g)) (.inl (by rw [hend]; omega))).frame (hin (wf_seg2 g)) (.inl (by rw [hend]; omega))
  have h₂ : Signed sha m₄ g.ban2 [] := by
    have h := (signed_reset hsha (wf_ban2 g) m₁).frame (hin (wf_seg1 g)) (.inl (by rw [hend]; omega))
    exact h.frame (hin (wf_seg2 g)) (.inl (by rw [hend]; omega))
  have h₃ : Signed sha m₄ g.seg1 [] :=
    (signed_reset hsha (wf_seg1 g) m₂).frame (hin (wf_seg2 g)) (.inl (by rw [hend]; omega))
  have h₄ : Signed sha m₄ g.seg2 [] := signed_reset hsha (wf_seg2 g) m₃
  refine ⟨⟨m₄, { g.ban1 with ctx := g.ban1.header }, { g.ban2 with ctx := g.ban2.header },
    { g.seg1 with ctx := g.seg1.header }, { g.seg2 with ctx := g.seg2.header }, [], []⟩, ?_, ⟨⟨h₁, h₂, ?_, ?_, ?_⟩,
      ⟨h₃, h₄, ?_, ?_, ?_⟩, fun p hp => (by cases hp)⟩, rfl, rfl⟩
  · simp only [smpNewsilo, resetSign_eq hsha (wf_ban1 g), resetSign_eq hsha (wf_ban2 g), resetSign_eq hsha (wf_seg1 g),
      resetSign_eq hsha (wf_seg2 g), Option.bind_eq_bind, Option.bind_some]
    rfl
  all_goals simp [banBody, segBody, areaSize]

/-- **`smp_save_segs`** as a step. -/
theorem saveSegs_step (hsha : ∀ x, (sha x).length = 32) {sgs : List Seg} {bans segs : List UInt8}
    (hbans : Pair sha s.mem g.ban1 g.ban2 s.ban1 s.ban2 bans) (hsegs : Pair sha s.mem g.seg1 g.seg2 s.seg1 s.seg2 segs)
    (hfits : 32 * (dropEmpty sgs).length + 64 ≤ areaSize) :
    ∃ s', scStep sha s (.saveSegs sgs) = some s' ∧ Pair sha s'.mem g.ban1 g.ban2 s'.ban1 s'.ban2 bans ∧
      Pair sha s'.mem g.seg1 g.seg2 s'.seg1 s'.seg2 (segBody ((dropEmpty sgs).map Seg.p)) ∧ s'.bans = s.bans ∧
      s'.segs = (dropEmpty sgs).map Seg.p := by
  have harea : areaSize = 1048576 := rfl
  have hb₁ : g.ban1.ss = g.granularity := rfl
  have hb₂ : g.ban2.ss = g.granularity + areaSize := rfl
  have hs₁ : g.seg1.ss = g.granularity + areaSize * 2 := rfl
  obtain ⟨-, hsaved⟩ := saveSegs_saved hsha hsegs rfl (by rw [List.length_map]; exact hfits)
  obtain ⟨c₁, c₂, hr, hpair⟩ := hsaved.result
  refine ⟨{ s with mem := applyAll s.mem (smpSaveSegs sha s.mem s.seg1 s.seg2 sgs).1, seg1 := c₁, seg2 := c₂,
                   segs := (Op.saveSegs sgs).segs s }, ?_, hbans.frame hsaved.within (.inl (by omega)), hpair, rfl, rfl⟩
  simp only [scStep, hr, Option.bind_eq_bind, Option.bind_some]

/-- **`SMP_NewBan`** as a step. -/
theorem newBan_step (hsha : ∀ x, (sha x).length = 32) {b : Ban} {bans segs : List UInt8}
    (hbans : Pair sha s.mem g.ban1 g.ban2 s.ban1 s.ban2 bans) (hsegs : Pair sha s.mem g.seg1 g.seg2 s.seg1 s.seg2 segs)
    (hfits : bans.length + (20 + b.savedText.length) + 64 ≤ areaSize) :
    ∃ s', scStep sha s (.newBan b) = some s' ∧
      Pair sha s'.mem g.ban1 g.ban2 s'.ban1 s'.ban2 (bans ++ (recParts b.t0 b.savedText).flatten) ∧
      Pair sha s'.mem g.seg1 g.seg2 s'.seg1 s'.seg2 segs ∧ s'.bans = s.bans ++ [b] ∧ s'.segs = s.segs := by
  have harea : areaSize = 1048576 := rfl
  have hb₂ : g.ban2.ss = g.granularity + areaSize := rfl
  have hs₁ : g.seg1.ss = g.granularity + areaSize * 2 := rfl
  have hs₂ : g.seg2.ss = g.granularity + areaSize * 3 := rfl
  obtain ⟨-, hsaved⟩ := newBan_savedText hsha hbans hfits
  obtain ⟨c₁, c₂, hr, hpair⟩ := hsaved.result
  refine ⟨{ s with mem := applyAll s.mem (smpNewBan sha s.mem s.ban1 s.ban2 b).1, ban1 := c₁, ban2 := c₂,
                   bans := (Op.newBan b).bans s }, ?_, hpair, hsegs.frame hsaved.within (.inr (by omega)), rfl, rfl⟩
  simp only [scStep, hr, Option.bind_eq_bind, Option.bind_some]

/-- **One operation** does not fail, and keeps the invariant. -/
theorem scInv_step (hsha : ∀ x, (sha x).length = 32) {op : Op} (h : ScInv sha g s) (hfits : op.Fits sha g s) :
    ∃ s', scStep sha s op = some s' ∧ ScInv sha g s' ∧ s'.bans = op.bans s ∧ s'.segs = op.segs s := by
  cases op with
  | saveSegs sgs =>
    obtain ⟨s', hs', hb, hs, hbans, hsegs⟩ := saveSegs_step hsha h.bans h.segs hfits.1
    refine ⟨s', hs', ⟨?_, ?_, ?_⟩, hbans, hsegs⟩
    · rw [hbans]
      exact hb
    · rw [hsegs]
      exact hs
    · rw [hsegs]
      exact hfits.2
  | newBan b =>
    have harea : areaSize = 1048576 := rfl
    have hfits' : (banBody s.bans).length + b.record.length + 64 ≤ areaSize := hfits
    rw [length_record] at hfits'
    have htxt := savedText_of_lt (b := b) (by omega)
    obtain ⟨s', hs', hb, hs, hbans, hsegs⟩ := newBan_step (b := b) hsha h.bans h.segs
      (by rw [htxt, List.length_append, List.length_singleton]; omega)
    refine ⟨s', hs', ⟨?_, ?_, ?_⟩, hbans, hsegs⟩
    · rw [hbans, banBody_append, Ban.record, Ban.parts_eq, ← htxt]
      exact hb
    · rw [hsegs]
      exact hs
    · rw [hsegs]
      exact h.plain

/-- An operation that is cut off. -/
theorem ScInv.recovers (hsha : ∀ x, (sha x).length = 32) {op : Op} (h : ScInv sha g s) (hfits : op.Fits sha g s)
    (hcut : op.CutOk s k) :
    Recovers sha g (applyAll s.mem ((opWrites sha s op).take k)) s.bans (op.bans s) s.segs (op.segs s) := by
  have harea : areaSize = 1048576 := rfl
  have hb₁ : g.ban1.ss = g.granularity := rfl
  have hb₂ : g.ban2.ss = g.granularity + areaSize := rfl
  have hs₁ : g.seg1.ss = g.granularity + areaSize * 2 := rfl
  have hs₂ : g.seg2.ss = g.granularity + areaSize * 3 := rfl
  cases op with
  | saveSegs sgs =>
    obtain ⟨hws, hsaved⟩ := saveSegs_saved hsha h.segs rfl (by rw [List.length_map]; exact hfits.1)
    have hfits' : 32 * ((dropEmpty sgs).map Seg.p).length + 64 ≤ areaSize := by rw [List.length_map]; exact hfits.1
    have hlen := length_segBody ((dropEmpty sgs).map Seg.p)
    have hsmall : 32 * ((dropEmpty sgs).map Seg.p).length < 2 ^ 32 := by omega
    have hbans := h.bans.fits
    refine recovers_of_holds (by omega) (by rw [Op.bans]; omega) (.inl ?_) ?_
    · exact (h.bans.frame (hsaved.within.take k) (.inl (by omega))).fst.holds (wf_ban1 g)
    · rw [opWrites, hws, Op.segs]
      refine twoCopies (wf_seg1 g) (signed_saveWrites hsha (wf_seg1 g) s.mem hsmall) h.segs.snd
        ((within_saveWrites hsha (wf_seg1 g) _).mono (le_refl _) ?_)
        ((within_saveWrites hsha (wf_seg2 g) _).mono (le_refl _) ?_) (by omega) ?_ fun hchk => ?_
      · rw [endOf]
        omega
      · rw [endOf]
        omega
      · rw [endOf]
        omega
      · exact saveSeg_cut hsha (wf_seg1 g) h.segs.fst h.plain hfits.2 hsmall k hcut hchk
  | newBan ban =>
    obtain ⟨hws, hsaved⟩ := newBan_saved hsha h.bans hfits
    have hfits' : (banBody s.bans).length + ban.record.length + 64 ≤ areaSize := hfits
    have hsmall : (banBody s.bans ++ ban.record).length < 2 ^ 64 := by
      rw [List.length_append]
      omega
    have hnew : (banBody ((Op.newBan ban).bans s)).length < 2 ^ 32 := by
      rw [Op.bans, banBody_append, List.length_append]
      omega
    refine recovers_of_holds (by omega) hnew ?_ (.inl ?_)
    · rw [opWrites, hws, Op.bans, banBody_append]
      refine twoCopies (wf_ban1 g) (signed_banWrites hsha h.bans.fst.opened hsmall) h.bans.snd
        ((within_banWrites hsha).mono (le_refl _) ?_) ((within_banWrites hsha).mono (le_refl _) ?_) (by omega) ?_
        fun _ => appendban_cut hsha h.bans.fst.opened hsmall k
      · rw [endOf, List.length_append]
        omega
      · rw [endOf, List.length_append]
        omega
      · rw [endOf, List.length_append]
        omega
    · exact (h.segs.frame (hsaved.within.take k) (.inr (by omega))).fst.holds (wf_seg1 g)

end Inv

/-! ## The result -/

section Result

variable {s₀ s : Sc}

/-- **A silo that is opened again**: after every run, and any number of writes of one more operation, a copy of each table
is accepted, and the tables are those from before the operation or those after it; for any hash function with digests of
32 bytes, any place of the silo and whatever the medium held before. -/
theorem reach_recovers (hsha : ∀ x, (sha x).length = 32) (h0 : smpNewsilo sha g m = some s₀)
    (h : Reach (scStep sha) (fun s op => op.Fits sha g s) s₀ s) {op : Op} (hfits : op.Fits sha g s) {k : ℕ}
    (hcut : op.CutOk s k) :
    Recovers sha g (applyAll s.mem ((opWrites sha s op).take k)) s.bans (op.bans s) s.segs (op.segs s) := by
  have hinv : ScInv sha g s := by
    refine Reach.inv ?_ (fun s op s' hi hok hs => ?_) h
    · obtain ⟨s₁, hs₁, hi, -⟩ := newsilo_inv hsha g m
      rw [hs₁] at h0
      cases h0
      exact hi
    · obtain ⟨s₁, hs₁, hi', -⟩ := scInv_step hsha hi hok
      rw [hs₁] at hs
      cases hs
      exact hi'
  exact hinv.recovers hsha hfits hcut

/-- A hash function for examples. -/
def polySha (x : List UInt8) : List UInt8 := le 32 (x.foldl (fun a b => a * 257 + b.toNat + 1) 0)

/-- A silo that is mapped at 1 GB, with pages of 4096 bytes. -/
def geom : Geom := ⟨2 ^ 30, 4096, 77, by decide⟩

/-- Two segments, and one ban. -/
def segA : Seg := ⟨⟨4198400, 65536, 4259840, 3, 0⟩, 3, false⟩

def segB : Seg := ⟨⟨4263936, 65536, 0, 0, 0⟩, 0, true⟩

def banA : Ban := ⟨1, [111, 98, 106], by simp⟩

/-- One segment is saved, and a ban; while both segments are saved, the program is stopped after three writes. -/
theorem reach_recovers_stopped : ∃ s₀ s : Sc, smpNewsilo polySha geom (fun _ => 0) = some s₀ ∧
    Reach (scStep polySha) (fun s op => op.Fits polySha geom s) s₀ s ∧ s.segs = [segA.p] ∧
    Recovers polySha geom (applyAll s.mem ((opWrites polySha s (.saveSegs [segA, segB])).take 3)) [banA] [banA] [segA.p]
      [segA.p, segB.p] := by
  have hsha : ∀ x, (polySha x).length = 32 := fun x => length_le _ _
  obtain ⟨s₀, h0, hi₀, hb₀, hs₀⟩ := newsilo_inv hsha geom fun _ => 0
  have hf₁ : (Op.saveSegs [segA]).Fits polySha geom s₀ := ⟨by decide, by decide +kernel⟩
  obtain ⟨s₁, h1, hi₁, hb₁, hs₁⟩ := scInv_step hsha hi₀ hf₁
  have hf₂ : (Op.newBan banA).Fits polySha geom s₁ := by
    rw [Op.Fits, hb₁, Op.bans, hb₀]
    decide
  obtain ⟨s₂, h2, hi₂, hb₂, hs₂⟩ := scInv_step hsha hi₁ hf₂
  have hf₃ : (Op.saveSegs [segA, segB]).Fits polySha geom s₂ := ⟨by decide, by decide +kernel⟩
  have hreach : Reach (scStep polySha) (fun s op => op.Fits polySha geom s) s₀ s₂ :=
    (Reach.refl.tail (.saveSegs [segA]) hf₁ h1).tail (.newBan banA) hf₂ h2
  have hbans : s₂.bans = [banA] := by rw [hb₂, Op.bans, hb₁, Op.bans, hb₀]; rfl
  have hsegs : s₂.segs = [segA.p] := by rw [hs₂, Op.segs, hs₁]; rfl
  have hrec := reach_recovers hsha h0 hreach hf₃ (k := 3) (fun he => by cases he)
  rw [Op.bans, hbans, hsegs] at hrec
  exact ⟨s₀, s₂, h0, hreach, hsegs, hrec⟩

/-- The program is stopped when the first copy of the segments was reset: it is an empty table with a good signature. -/
theorem crash_empty : ∃ s₀ s : Sc, smpNewsilo polySha geom (fun _ => 0) = some s₀ ∧
    Reach (scStep polySha) (fun s op => op.Fits polySha geom s) s₀ s ∧
    (Op.saveSegs [segA, segB]).Fits polySha geom s ∧
    ¬ Recovers polySha geom (applyAll s.mem ((opWrites polySha s (.saveSegs [segA, segB])).take 2)) s.bans
      ((Op.saveSegs [segA, segB]).bans s) s.segs ((Op.saveSegs [segA, segB]).segs s) := by
  have hsha : ∀ x, (polySha x).length = 32 := fun x => length_le _ _
  obtain ⟨s₀, h0, hi₀, -, -⟩ := newsilo_inv hsha geom fun _ => 0
  have hf₁ : (Op.saveSegs [segA]).Fits polySha geom s₀ := ⟨by decide, by decide +kernel⟩
  obtain ⟨s₁, h1, hi₁, -, hs₁⟩ := scInv_step hsha hi₀ hf₁
  have hf₂ : (Op.saveSegs [segA, segB]).Fits polySha geom s₁ := ⟨by decide, by decide +kernel⟩
  refine ⟨s₀, s₁, h0, Reach.refl.tail (.saveSegs [segA]) hf₁ h1, hf₂, fun hrec => ?_⟩
  obtain ⟨hws, -⟩ := saveSegs_saved hsha hi₁.segs rfl (by rw [List.length_map]; exact hf₂.1)
  have hcut : (opWrites polySha s₁ (.saveSegs [segA, segB])).take 2 = [headWrite geom.seg1, digestWrite polySha geom.seg1 []] := by
    rw [opWrites, hws]
    rfl
  have hempty : Holds polySha _ geom.seg1 geom.seg2 (segBody []) :=
    (signed_reset hsha (wf_seg1 geom) s₁.mem).holds (wf_seg1 geom)
  have hopen := hempty.openSegs (wf_seg2 geom)
  have hsegs := hrec.segs
  rw [hcut, hopen, hs₁] at hsegs
  rcases hsegs with he | he
  · cases he
  · cases he

end Result

end Varnish.Silo
