import Mathlib.Data.List.Induction
import Mathlib.Order.Lattice
import Varnish.Lib.Bytes

/-!
# Varnish.Vbe.Probe — the window of a probe (`vcc_ParseProbe`, `vbp_wrk_poll_backend`)

The history is a shift register, and a bit is 1 when the poll was good.

* `vccParseProbe`: the numbers of a probe that the compiler accepts, and what it writes.
* `establish`, `vbpHasPoked`, `vbpWrkPollBackend`: the defaults, what follows a poll, and the thread.
* `History`, `happy_run`: the register against the list of the outcomes.
* `counts_iff`: the polls of the window are counted, unless the window has more bits than the register.
-/

namespace Varnish.Probe

open Varnish.Lib

/-! ## The compiler -/

section Compiler

/-- The fields of a probe in the VCL; each is there at most once. -/
structure Fields where
  window : Option UInt32
  threshold : Option UInt32
  initial : Option UInt32
  expectedResponse : Option UInt32

/-- What these functions use of `struct vrt_backend_probe`. -/
structure VrtBackendProbe where
  window : UInt32
  threshold : UInt32
  initial : UInt32
  expStatus : UInt32
deriving DecidableEq

/-- "Threshold can not be greater than window." -/
def checkFits (window threshold : UInt32) : Option (UInt32 × UInt32) :=
  if window < threshold then none else some (window, threshold)

/-- The checks of `window` and `threshold`, and the values that are written; a field that is not written is 0. -/
def checkWindow (o : Fields) : Option (UInt32 × UInt32) :=
  match o.threshold, o.window with
  | none, none => some (0, 0)
  | none, some _ => none
  | some threshold, none => if 64 < threshold then none else checkFits (threshold + 1) threshold
  | some threshold, some window => if 64 < window then none else checkFits window threshold

/-- Three digits, when there is a status. -/
def checkStatus (o : Fields) : Option UInt32 :=
  match o.expectedResponse with
  | none => some 0
  | some status => if status < 100 ∨ 999 < status then none else some status

/-- `vcc_ParseProbe`: what is written; `none` is an error. -/
def vccParseProbe (o : Fields) : Option VrtBackendProbe := do
  let status ← checkStatus o
  let p ← checkWindow o
  some { window := p.1, threshold := p.2, initial := o.initial.getD (UInt32.ofNat (2 ^ 32 - 1)), expStatus := status }

end Compiler

/-! ## The poller -/

section Poller

/-- The histories. -/
structure Bitmaps where
  goodIpv4 : BitVec 64
  goodIpv6 : BitVec 64
  errXmit : BitVec 64
  goodXmit : BitVec 64
  errRecv : BitVec 64
  goodRecv : BitVec 64
  happy : BitVec 64

/-- `struct vbp_target`, with the `healthy` of its backend.  `respBuf` has 128 bytes. -/
structure Target where
  probe : VrtBackendProbe
  reqLen : ℤ
  respBuf : Mem
  good : UInt32
  bits : Bitmaps
  healthy : Bool

/-- All the histories are shifted. -/
def Bitmaps.shifted (b : Bitmaps) : Bitmaps where
  goodIpv4 := b.goodIpv4 <<< 1
  goodIpv6 := b.goodIpv6 <<< 1
  errXmit := b.errXmit <<< 1
  goodXmit := b.goodXmit <<< 1
  errRecv := b.errRecv <<< 1
  goodRecv := b.goodRecv <<< 1
  happy := b.happy <<< 1

/-- `vbp_start_poke` -/
def vbpStartPoke (vt : Target) : Target := { vt with bits := vt.bits.shifted, respBuf := wr vt.respBuf 0 [0] }

/-- `vt->happy |= 1` when the poll is good. -/
def recorded (isGood : Bool) (vt : Target) : Target :=
  { vt with bits := { vt.bits with happy := if isGood then vt.bits.happy ||| 1 else vt.bits.happy } }

/-- The loop that counts the ones. -/
def countOnes : ℕ → BitVec 64 → UInt32 → UInt32
  | 0, _, j => j
  | n + 1, u, j => countOnes n (u >>> 1) (if u &&& 1 = 0 then j else j + 1)

/-- `vbp_has_poked` -/
def vbpHasPoked (vt : Target) : Target :=
  { vt with
    good := countOnes vt.probe.window.toNat vt.bits.happy 0
    healthy := decide (vt.probe.threshold ≤ countOnes vt.probe.window.toNat vt.bits.happy 0) }

/-- One poll, with its outcome. -/
def poll (vt : Target) (isGood : Bool) : Target := vbpHasPoked (recorded isGood (vbpStartPoke vt))

/-- The defaults that the thread establishes. -/
def establish (p : VrtBackendProbe) : VrtBackendProbe :=
  let window := if p.window = 0 then 8 else p.window
  let threshold := if p.threshold = 0 then 3 else p.threshold
  let expStatus := if p.expStatus = 0 then 200 else p.expStatus
  let initial := if threshold = UInt32.ofNat (2 ^ 32 - 1) then threshold - 1 else p.initial
  let initial := if threshold < initial then threshold else initial
  { window, threshold, initial, expStatus }

/-- The polls that are counted as good at the start. -/
def primed : ℕ → Target → Target
  | 0, vt => vt
  | n + 1, vt => primed n (poll vt true)

/-- `vbp_wrk_poll_backend`: the state after the polls with these outcomes. -/
def vbpWrkPollBackend (vt : Target) (outcomes : List Bool) : Target :=
  let vt := { vt with probe := establish vt.probe }
  outcomes.foldl poll (primed vt.probe.initial.toNat vt)

end Poller

/-! ## What it is for -/

section Spec

/-- How many of the last polls were good; those before the first are as the priming says. -/
def lastGood (p : VrtBackendProbe) (outcomes : List Bool) : ℕ :=
  ((outcomes.reverse ++ List.replicate p.initial.toNat true).take p.window.toNat).count true

/-- A target that was not polled yet. -/
def Fresh (vt : Target) : Prop := vt.bits.happy = 0

/-- The target that `VBP_Start` makes. -/
def created (p : VrtBackendProbe) (reqLen : ℤ) : Target :=
  { probe := p, reqLen, respBuf := fun _ => 0, good := 0, bits := ⟨0, 0, 0, 0, 0, 0, 0⟩, healthy := false }

theorem fresh_created (p : VrtBackendProbe) (reqLen : ℤ) : Fresh (created p reqLen) := rfl

/-- After each poll the backend is healthy if and only if as many of the last polls were good as the threshold says, and `good` is their
number. -/
def Counts (p : VrtBackendProbe) : Prop :=
  ∀ vt outcomes, Fresh vt → vt.probe = p → outcomes ≠ [] →
    ((vbpWrkPollBackend vt outcomes).healthy = true ↔ (establish p).threshold.toNat ≤ lastGood (establish p) outcomes) ∧
      (vbpWrkPollBackend vt outcomes).good.toNat = lastGood (establish p) outcomes

end Spec

/-! ## The register -/

section Register

variable {u : BitVec 64} {h : List Bool} {vt : Target} {outcomes : List Bool}

/-- The ones of the register are in the list, the latest first. -/
def Exact (u : BitVec 64) (h : List Bool) : Prop := ∀ k, u.getLsbD k = h.getD k false

theorem exact_ushiftRight (hu : Exact u h) : Exact (u >>> 1) h.tail := by
  intro k
  rw [BitVec.getLsbD_ushiftRight, hu (1 + k), Nat.add_comm]
  cases h with
  | nil => rfl
  | cons b h => rfl

/-- A poll puts its outcome before the others, and the register keeps 64 of them. -/
theorem exact_poll (hu : Exact u (h.take 64)) (isGood : Bool) :
    Exact (if isGood then u <<< 1 ||| 1 else u <<< 1) ((isGood :: h).take 64) := by
  intro k
  have hbit : (if isGood then u <<< 1 ||| 1 else u <<< 1).getLsbD k =
      (decide (k < 64) && if k = 0 then isGood else u.getLsbD (k - 1)) := by
    cases isGood <;> cases k <;> simp [BitVec.getLsbD_shiftLeft]
  rw [hbit]
  cases k with
  | zero => rfl
  | succ k =>
    rw [if_neg (Nat.succ_ne_zero k), Nat.add_sub_cancel, hu k]
    rw [List.take_succ_cons, List.getD_cons_succ]
    by_cases hk : k < 63
    · have h1 : k < 64 := by omega
      have h2 : k + 1 < 64 := by omega
      simp [List.getD, hk, h1, h2]
    · have h2 : ¬ k + 1 < 64 := by omega
      simp [List.getD, List.getElem?_take, hk, h2]

theorem and_one (u : BitVec 64) : u &&& 1 = 0 ↔ u.getLsbD 0 = false := by
  have h : u &&& 1 = BitVec.setWidth 64 (BitVec.ofBool (u.getLsbD 0)) := BitVec.and_one_eq_setWidth_ofBool_getLsbD
  rw [h]
  cases u.getLsbD 0 <;> decide

theorem countOnes_eq (n : ℕ) (hu : Exact u h) (j : UInt32) : countOnes n u j = j + UInt32.ofNat ((h.take n).count true) := by
  induction n generalizing u h j with
  | zero =>
    rw [countOnes, List.take_zero]
    exact (UInt32.add_zero j).symm
  | succ n ih =>
    rw [countOnes, ih (exact_ushiftRight hu)]
    have h0 := and_one u
    rw [hu 0] at h0
    cases h with
    | nil =>
      rw [if_pos (h0.mpr rfl), List.tail_nil, List.take_nil, List.take_nil]
    | cons b h =>
      rw [List.take_succ_cons, List.tail_cons]
      cases b with
      | false =>
        rw [if_pos (h0.mpr rfl)]
        rfl
      | true =>
        have hone : u &&& 1 ≠ 0 := fun hz => Bool.noConfusion (h0.mp hz)
        rw [if_neg hone, List.count_cons_self, UInt32.ofNat_add, UInt32.add_assoc, UInt32.add_comm 1]
        rfl

/-- The history of a target. -/
def Remembers (vt : Target) (h : List Bool) : Prop := Exact vt.bits.happy (h.take 64)

@[simp] theorem poll_probe (vt : Target) (isGood : Bool) : (poll vt isGood).probe = vt.probe := rfl

theorem remembers_poll (hr : Remembers vt h) (isGood : Bool) : Remembers (poll vt isGood) (isGood :: h) :=
  exact_poll hr isGood

/-- How many of the polls are counted: those of the window that the register keeps. -/
def counted (window : UInt32) (h : List Bool) : ℕ := (h.take (min window.toNat 64)).count true

theorem counted_le (window : UInt32) (h : List Bool) : counted window h ≤ 64 := by
  have h1 : counted window h ≤ (h.take (min window.toNat 64)).length := List.count_le_length
  rw [List.length_take] at h1
  omega

/-- What follows a poll. -/
theorem poll_counts (hr : Remembers vt h) (isGood : Bool) :
    (poll vt isGood).good.toNat = counted vt.probe.window (isGood :: h) ∧
      ((poll vt isGood).healthy = true ↔ vt.probe.threshold.toNat ≤ counted vt.probe.window (isGood :: h)) := by
  have hc := countOnes_eq vt.probe.window.toNat (exact_poll hr isGood) 0
  rw [List.take_take, UInt32.zero_add] at hc
  have hle := counted_le vt.probe.window (isGood :: h)
  have hn : (countOnes vt.probe.window.toNat (poll vt isGood).bits.happy 0).toNat = counted vt.probe.window (isGood :: h) := by
    refine (congrArg UInt32.toNat hc).trans ?_
    exact UInt32.toNat_ofNat_of_lt' (lt_of_le_of_lt hle (by decide))
  refine ⟨hn, ?_⟩
  rw [← hn]
  exact decide_eq_true_iff.trans UInt32.le_iff_toNat_le

end Register

/-! ## The thread -/

section Thread

variable {h : List Bool} {vt : Target} {outcomes : List Bool} {p : VrtBackendProbe}

theorem remembers_primed (n : ℕ) (hr : Remembers vt h) :
    Remembers (primed n vt) (List.replicate n true ++ h) ∧ (primed n vt).probe = vt.probe := by
  induction n generalizing vt h with
  | zero => exact ⟨hr, rfl⟩
  | succ n ih =>
    obtain ⟨h1, h2⟩ := ih (remembers_poll hr true)
    refine ⟨?_, h2⟩
    rw [List.replicate_succ', List.append_assoc]
    exact h1

theorem remembers_foldl (outcomes : List Bool) (hr : Remembers vt h) :
    Remembers (outcomes.foldl poll vt) (outcomes.reverse ++ h) ∧ (outcomes.foldl poll vt).probe = vt.probe := by
  induction outcomes generalizing vt h with
  | nil => exact ⟨hr, rfl⟩
  | cons b outcomes ih =>
    obtain ⟨h1, h2⟩ := ih (remembers_poll hr b)
    refine ⟨?_, h2⟩
    rw [List.reverse_cons, List.append_assoc]
    exact h1

/-- After each poll the ones of the register that are in the window are counted. -/
theorem wrk_counts (hf : Fresh vt) (hp : vt.probe = p) (hne : outcomes ≠ []) :
    (vbpWrkPollBackend vt outcomes).good.toNat =
        counted (establish p).window (outcomes.reverse ++ List.replicate (establish p).initial.toNat true) ∧
      ((vbpWrkPollBackend vt outcomes).healthy = true ↔ (establish p).threshold.toNat ≤
        counted (establish p).window (outcomes.reverse ++ List.replicate (establish p).initial.toNat true)) := by
  have h0 : Remembers { vt with probe := establish vt.probe } [] := by
    intro k
    show vt.bits.happy.getLsbD k = false
    rw [hf]
    exact BitVec.getLsbD_zero
  obtain ⟨h1, h1p⟩ := remembers_primed (establish vt.probe).initial.toNat h0
  obtain ⟨init, b, rfl⟩ := outcomes.eq_nil_or_concat.resolve_left hne
  obtain ⟨h2, h2p⟩ := remembers_foldl init h1
  have hlast := poll_counts h2 b
  rw [h2p, h1p, List.append_nil] at hlast
  subst hp
  rw [vbpWrkPollBackend, List.concat_eq_append, List.foldl_append, List.reverse_append]
  exact hlast

end Thread

/-! ## Which windows are counted -/

section Window

variable {o : Fields} {p : VrtBackendProbe}

/-- A probe with a threshold of 64 and no window. -/
def TooWide (o : Fields) : Prop := o.threshold = some 64 ∧ o.window = none

theorem checkFits_eq {window threshold : UInt32} {r : UInt32 × UInt32} (h : checkFits window threshold = some r) : r = (window, threshold) := by
  rw [checkFits] at h
  split at h
  · cases h
  · exact (Option.some.inj h).symm

/-- The compiler accepts a window that the register has room for, and one more. -/
theorem checkWindow_le {r : UInt32 × UInt32} (h : checkWindow o = some r) (hw : ¬ TooWide o) : r.1.toNat ≤ 64 := by
  rw [checkWindow] at h
  split at h
  · cases h
    decide
  · cases h
  · rename_i threshold ht hn
    split at h
    · cases h
    · rename_i hle
      rw [checkFits_eq h]
      have h64 : threshold.toNat ≠ 64 := fun he => hw ⟨ht.trans (congrArg some (UInt32.toNat_inj.mp he)), hn⟩
      have hle' : threshold.toNat ≤ 64 := UInt32.le_iff_toNat_le.mp (UInt32.not_lt.mp hle)
      rw [UInt32.toNat_add]
      show (threshold.toNat + 1) % 2 ^ 32 ≤ 64
      omega
  · split at h
    · cases h
    · rename_i hle
      rw [checkFits_eq h]
      exact UInt32.le_iff_toNat_le.mp (UInt32.not_lt.mp hle)

theorem checkWindow_tooWide (hw : TooWide o) : checkWindow o = some (65, 64) := by
  rw [checkWindow, hw.1, hw.2]
  decide

theorem parse_parts {q : VrtBackendProbe} (h : vccParseProbe o = some q) : checkWindow o = some (q.window, q.threshold) := by
  obtain ⟨status, -, h⟩ := Option.bind_eq_some_iff.mp h
  obtain ⟨r, hr, h⟩ := Option.bind_eq_some_iff.mp h
  cases h
  exact hr

theorem establish_window_le (h : p.window.toNat ≤ 64) : (establish p).window.toNat ≤ 64 := by
  show (if p.window = 0 then 8 else p.window).toNat ≤ 64
  split
  · decide
  · exact h

theorem counted_eq {outcomes : List Bool} (h : (establish p).window.toNat ≤ 64) :
    counted (establish p).window (outcomes.reverse ++ List.replicate (establish p).initial.toNat true) = lastGood (establish p) outcomes := by
  rw [counted, min_eq_left h]
  rfl

/-- One good poll, a bad one, and then 63 good ones. -/
def badSecond : List Bool := true :: false :: List.replicate 63 true

theorem take_badSecond {n : ℕ} (hn : n ≤ 65) (l : List Bool) :
    ((badSecond.reverse ++ l).take n).count true = (badSecond.reverse.take n).count true := by
  rw [List.take_append_of_le_length]
  exact hn

/-- **The probe window**: of the last polls as many are good as are counted, unless the window is the one that a threshold of 64 gets by
default. -/
theorem counts_iff (h : vccParseProbe o = some p) : Counts p ↔ ¬ TooWide o := by
  have hcw := parse_parts h
  constructor
  · intro hc hw
    rw [checkWindow_tooWide hw] at hcw
    obtain ⟨hwin, hthr⟩ := Prod.mk.inj (Option.some.inj hcw)
    have hne : badSecond ≠ [] := List.cons_ne_nil _ _
    have hfresh := fresh_created p 0
    have hp : (created p 0).probe = p := rfl
    have hgood := (hc _ badSecond hfresh hp hne).2
    have hwin' : (establish p).window = 65 := by
      show (if p.window = 0 then 8 else p.window) = 65
      rw [← hwin]
      decide
    rw [(wrk_counts hfresh hp hne).1, lastGood, counted, hwin', take_badSecond (by decide), take_badSecond (by decide)] at hgood
    exact absurd hgood (by decide)
  · intro hw vt outcomes hf hp hne
    have hle := establish_window_le (checkWindow_le hcw hw)
    have hcounts := wrk_counts hf hp hne
    rw [counted_eq hle] at hcounts
    exact ⟨hcounts.2, hcounts.1⟩

/-- The probe of the manual. -/
theorem counts_iff_manual : vccParseProbe ⟨some 8, some 3, some 3, none⟩ = some ⟨8, 3, 3, 0⟩ ∧ Counts ⟨8, 3, 3, 0⟩ := by
  have h : vccParseProbe ⟨some 8, some 3, some 3, none⟩ = some ⟨8, 3, 3, 0⟩ := by decide
  exact ⟨h, (counts_iff h).mpr fun hw => by cases hw.2⟩

/-- With a threshold of 64 alone the window is 65; then 64 good polls of 65 are not enough when the bad one is the second. -/
theorem sixty_four_good : ∃ p, vccParseProbe ⟨none, some 64, none, none⟩ = some p ∧ ¬ Counts p := by
  refine ⟨⟨65, 64, UInt32.ofNat (2 ^ 32 - 1), 0⟩, by decide, ?_⟩
  intro hc
  have hne : badSecond ≠ [] := List.cons_ne_nil _ _
  have hfresh := fresh_created ⟨65, 64, UInt32.ofNat (2 ^ 32 - 1), 0⟩ 0
  have hlast := (hc _ badSecond hfresh rfl hne).1
  rw [(wrk_counts hfresh rfl hne).2, lastGood, counted, take_badSecond (by decide), take_badSecond (by decide)] at hlast
  exact absurd hlast (by decide)

end Window

end Varnish.Probe
