import Mathlib.Data.Set.Card
import Mathlib.Logic.Function.Basic
import Varnish.Lib.CountIs
import Varnish.Lib.Run

/-!
# Varnish.Vev.Signal — the signals of the event loop (`vev.c`)

* `vevSighandler`, `vevAdd`, `vevDel`, `vevSchedSignal`: the functions, and the last one a turn of its loop at a time.
* `sigStep`: a signal arrives, or a call is made, at any time but in the middle of another step.
* `Accounted`: `psig` counts the registered signals that have arrived since they were last delivered.
* `reach_accounted`: so it is as long as no event is deleted whose signal has arrived.
* `Act.Ready`: the steps that succeed.  `reach_steady`: where the table does not grow under a call of `vev_sched_signal`, no turn of
  its loop fails.
-/

namespace Varnish.Signal

open Varnish.Lib

/-! ## The functions -/

section Model

/-- `struct vevsig`, without what is for `sigaction`. -/
structure Vevsig where
  vevb : Option ℕ
  vev : Option ℕ
  happened : Bool
deriving DecidableEq

/-- What `calloc` returns. -/
def noSig : Vevsig := ⟨none, none, false⟩

/-- `sig` and `__vevb` of a `struct vev`.  It has its magic number as long as it is in a base. -/
structure Ev where
  sig : ℕ
  vevb : Option ℕ
deriving DecidableEq

/-- What came of a signal: it arrived, or its callback was called. -/
inductive Note
  | arrival (sig : ℕ)
  | delivery (sig : ℕ)
deriving DecidableEq

/-- A call of `vev_sched_signal`: `j`; the table that `es` points into, told by its size; the event whose callback has not returned. -/
structure Pass where
  j : ℕ
  table : ℕ
  callback : Option ℕ
deriving DecidableEq

/-- The table of the signals, the bases with the calls of `vev_sched_signal` in each, the events, the signals that have
`vev_sighandler` as their handler, and what came of the signals, the last first. -/
structure St where
  sigs : ℕ → Vevsig
  nsig : ℕ
  psig : ℕ → UInt32
  passes : ℕ → List Pass
  ev : ℕ → Ev
  installed : ℕ → Bool
  log : List Note

/-- Bases that `vev_new_base` has made, and no event yet. -/
def start : St where
  sigs := fun _ => noSig
  nsig := 0
  psig := fun _ => 0
  passes := fun _ => []
  ev := fun _ => ⟨0, none⟩
  installed := fun _ => false
  log := []

/-- `vev_get_sig`, when `calloc` has memory or not. -/
def vevGetSig (s : St) (sig : ℕ) (mem : Bool) : Option St :=
  if sig < s.nsig then some s
  else if mem then some { s with sigs := fun i => if i < s.nsig then s.sigs i else noSig, nsig := sig + 1 }
  else none

/-- `vev_sighandler`; `none` is a failed assertion, or no base. -/
def vevSighandler (s : St) (sig : ℕ) : Option St :=
  if s.nsig ≤ sig then none
  else if (s.sigs sig).happened then some { s with log := .arrival sig :: s.log }
  else
    match (s.sigs sig).vevb with
    | none => none
    | some b => some
      { s with
        psig := Function.update s.psig b (s.psig b + 1)
        sigs := Function.update s.sigs sig { s.sigs sig with happened := true }
        log := .arrival sig :: s.log }

/-- The signal gets the event, and the handler. -/
def St.register (s : St) (b e sig : ℕ) : St :=
  { s with
    sigs := Function.update s.sigs sig { s.sigs sig with vev := some e, vevb := some b }
    ev := Function.update s.ev e ⟨sig, some b⟩
    installed := Function.update s.installed sig true }

/-- `vev_add`; `room`: there is a slot for the descriptor of the event, if it has one.  `sigaction` succeeds. -/
def vevAdd (s : St) (b e sig : ℕ) (mem room : Bool) : Option St :=
  if (s.ev e).vevb.isSome then none
  else
    match if 0 < sig then vevGetSig s sig mem else some s with
    | none => some s
    | some s =>
      if !room then some s
      else if 0 < sig then
        if (s.sigs sig).vev.isSome then some s
        else if (s.sigs sig).happened then none
        else some (s.register b e sig)
      else some { s with ev := Function.update s.ev e ⟨0, some b⟩ }

/-- The event is in no base any more. -/
def St.leave (s : St) (e : ℕ) : St := { s with ev := Function.update s.ev e { s.ev e with vevb := none } }

/-- The signal has no event, and no handler. -/
def St.unregister (s : St) (sig : ℕ) : St :=
  { s with
    sigs := Function.update s.sigs sig noSig
    installed := Function.update s.installed sig false }

/-- `vev_del` -/
def vevDel (s : St) (b e : ℕ) : Option St :=
  if (s.ev e).vevb ≠ some b then none
  else if 0 < (s.ev e).sig then
    if s.nsig ≤ (s.ev e).sig ∨ (s.sigs (s.ev e).sig).vev ≠ some e then none
    else some ((s.unregister (s.ev e).sig).leave e)
  else some (s.leave e)

/-- A turn of the loop of `vev_sched_signal`, or its end.  `none`: the table was moved by a callback, or an assertion fails. -/
def vevSchedSignal (s : St) (b : ℕ) (p : Pass) (ps : List Pass) : Option St :=
  if p.j < s.nsig then
    if p.table ≠ s.nsig then none
    else if ¬ (s.sigs p.j).happened ∨ (s.sigs p.j).vevb ≠ some b then
      some { s with passes := Function.update s.passes b ({ p with j := p.j + 1 } :: ps) }
    else
      match (s.sigs p.j).vev with
      | none => none
      | some e => some
        { s with
          psig := Function.update s.psig b (s.psig b - 1)
          sigs := Function.update s.sigs p.j { s.sigs p.j with happened := false }
          passes := Function.update s.passes b ({ p with callback := some e } :: ps)
          log := .delivery p.j :: s.log }
  else some { s with passes := Function.update s.passes b ps }

/-- How far `vev_schedule_one` comes. -/
inductive Way
  /-- a timer is due, or there is nothing to wait for -/
  | early
  /-- it would poll, and a signal would interrupt that -/
  | poll (eintr : Bool)
deriving DecidableEq

/-- `vev_schedule_one`, up to the call of `vev_sched_signal`.  It calls that instead of `poll` when a signal is counted. -/
def vevScheduleOne (s : St) (b : ℕ) : Way → St
  | .early => s
  | .poll eintr =>
    if s.psig b ≠ 0 ∨ eintr then { s with passes := Function.update s.passes b (⟨0, s.nsig, none⟩ :: s.passes b) }
    else s

/-- The calls of `vev_add`, `vev_del` and `vev_schedule_one` may be those of a callback, for a signal or not. -/
inductive Act
  | arrive (sig : ℕ)
  | add (b e sig : ℕ) (mem room : Bool)
  | del (b e : ℕ)
  | schedule (b : ℕ) (w : Way)
  /-- a turn of the loop of `vev_sched_signal` -/
  | turn (b : ℕ)
  /-- the callback that it has called returns -/
  | ret (b : ℕ) (done : Bool)
deriving DecidableEq

def sigStep (s : St) : Act → Option St
  | .arrive sig => if s.installed sig then vevSighandler s sig else some s
  | .add b e sig mem room => vevAdd s b e sig mem room
  | .del b e => vevDel s b e
  | .schedule b w => some (vevScheduleOne s b w)
  | .turn b =>
    match s.passes b with
    | ⟨j, table, none⟩ :: ps => vevSchedSignal s b ⟨j, table, none⟩ ps
    | _ => none
  | .ret b done =>
    match s.passes b with
    | ⟨j, table, some e⟩ :: ps =>
      (if done then vevDel s b e else some s).map fun s => { s with passes := Function.update s.passes b (⟨j + 1, table, none⟩ :: ps) }
    | _ => none

/-- A signal is an `int`, and so is the size of the table. -/
def Act.Called : Act → Prop
  | .add _ _ sig _ _ => sig < 2 ^ 31 - 1
  | _ => True

instance (a : Act) : Decidable a.Called :=
  match a with
  | .add _ _ sig _ _ => inferInstanceAs (Decidable (sig < 2 ^ 31 - 1))
  | .arrive _ | .del _ _ | .schedule _ _ | .turn _ | .ret _ _ => inferInstanceAs (Decidable True)

end Model

/-! ## What is counted -/

section Spec

/-- The signal has arrived since it was last delivered. -/
def undelivered (sig : ℕ) : List Note → Bool
  | [] => false
  | .arrival t :: log => t = sig || undelivered sig log
  | .delivery t :: log => t ≠ sig && undelivered sig log

/-- The signals that are registered in the base and have arrived. -/
def St.pending (s : St) (b : ℕ) : Set ℕ := {sig | (∃ e, s.ev e = ⟨sig, some b⟩) ∧ undelivered sig s.log = true}

/-- **The signals are accounted for.** -/
structure Accounted (s : St) (b : ℕ) : Prop where
  finite : (s.pending b).Finite
  count : (s.psig b).toNat = (s.pending b).ncard
  no_spin : s.psig b ≠ 0 → (s.pending b).Nonempty
  no_sleep : (s.pending b).Nonempty → s.psig b ≠ 0

/-- The condition on a step: an event that is deleted has no signal that has arrived. -/
def Act.Cond (s : St) : Act → Prop
  | .del _ e => undelivered (s.ev e).sig s.log = false
  | .ret b true => ∀ p ∈ (s.passes b).head?, ∀ e ∈ p.callback, undelivered (s.ev e).sig s.log = false
  | _ => True

instance (s : St) (a : Act) : Decidable (a.Cond s) :=
  match a with
  | .del _ e => inferInstanceAs (Decidable (undelivered (s.ev e).sig s.log = false))
  | .ret b true => inferInstanceAs (Decidable (∀ p ∈ (s.passes b).head?, ∀ e ∈ p.callback, undelivered (s.ev e).sig s.log = false))
  | .ret _ false | .arrive _ | .add .. | .schedule .. | .turn _ => inferInstanceAs (Decidable True)

/-- The step is one that can be made: an event is added that is in no base, or deleted that is in this one, and the table is still
the one that the loop has begun with. -/
def Act.Ready (s : St) : Act → Prop
  | .arrive _ | .schedule _ _ => True
  | .add _ e _ _ _ => (s.ev e).vevb = none
  | .del b e => (s.ev e).vevb = some b
  | .turn b => ∃ p ps, s.passes b = p :: ps ∧ p.callback = none ∧ (p.j < s.nsig → p.table = s.nsig)
  | .ret b done => ∃ p ps e, s.passes b = p :: ps ∧ p.callback = some e ∧ (done = true → (s.ev e).vevb = some b)

/-- The table does not grow while a call of `vev_sched_signal` is open. -/
def Act.Steady (s : St) : Act → Prop
  | .add _ _ sig mem _ => mem = true → s.nsig ≤ sig → ∀ b, s.passes b = []
  | _ => True

end Spec

/-! ## The invariant -/

section Invariant

variable {s s' : St} {b b' e e' sig t n : ℕ} {x y mem room : Bool}

/-- The signal counts for the base. -/
def Vevsig.CountsFor (b : ℕ) (es : Vevsig) : Prop := es.vevb = some b ∧ es.happened = true

/-- The table, the events and the log agree. -/
structure Wf (s : St) : Prop where
  shape : ∀ sig, s.sigs sig = noSig ∨ ∃ b e x, s.sigs sig = ⟨some b, some e, x⟩
  slot : ∀ sig b e, (∃ x, s.sigs sig = ⟨some b, some e, x⟩) ↔ 0 < sig ∧ s.ev e = ⟨sig, some b⟩
  heard : ∀ sig b e x, s.sigs sig = ⟨some b, some e, x⟩ → undelivered sig s.log = x
  zero : undelivered 0 s.log = false

/-- The invariant of a run. -/
structure Inv (s : St) : Prop where
  wf : Wf s
  beyond : ∀ sig, s.nsig ≤ sig → s.sigs sig = noSig
  size : s.nsig < 2 ^ 31
  handled : ∀ sig, s.installed sig = true → s.sigs sig ≠ noSig
  quiet : ∀ sig, s.sigs sig = noSig → undelivered sig s.log = false
  count : ∀ b, CountIs s.sigs (Vevsig.CountsFor b) (s.psig b).toNat

theorem not_countsFor_noSig (b : ℕ) : ¬ noSig.CountsFor b := fun h => (by cases h.1)

theorem countsFor_iff : Vevsig.CountsFor b ⟨some b', some e, x⟩ ↔ b' = b ∧ x = true := by
  rw [Vevsig.CountsFor]
  exact and_congr_left fun _ => Option.some_inj

theorem ne_noSig : (⟨some b, some e, x⟩ : Vevsig) ≠ noSig := fun h => (by cases h)

/-- The signals that are to be counted are those that the table counts. -/
theorem Wf.pending_eq (h : Wf s) (b : ℕ) : s.pending b = {sig | (s.sigs sig).CountsFor b} := by
  ext sig
  constructor
  · rintro ⟨⟨e, he⟩, hu⟩
    have hpos : 0 < sig := by
      refine Nat.pos_of_ne_zero ?_
      rintro rfl
      exact absurd (h.zero.symm.trans hu) (by decide)
    obtain ⟨x, hx⟩ := (h.slot sig b e).mpr ⟨hpos, he⟩
    have hxt := h.heard sig b e x hx
    show (s.sigs sig).CountsFor b
    rw [hx]
    exact ⟨rfl, hxt.symm.trans hu⟩
  · intro hc
    change (s.sigs sig).CountsFor b at hc
    rcases h.shape sig with hno | ⟨b', e, x, hx⟩
    · rw [hno] at hc
      exact absurd hc (not_countsFor_noSig b)
    · rw [hx] at hc
      obtain ⟨rfl, rfl⟩ := countsFor_iff.mp hc
      exact ⟨⟨e, ((h.slot sig b' e).mp ⟨true, hx⟩).2⟩, h.heard sig b' e true hx⟩

/-- The signals are accounted for if and only if the counter is right. -/
theorem Wf.accounted_iff_countIs (h : Wf s) : Accounted s b ↔ CountIs s.sigs (Vevsig.CountsFor b) (s.psig b).toNat := by
  have hzero : s.psig b ≠ 0 ↔ (s.psig b).toNat ≠ 0 := by
    rw [ne_eq, ne_eq, ← UInt32.toNat_inj]
    rfl
  have hp := h.pending_eq b
  constructor
  · intro ha
    refine ⟨?_, ?_⟩
    · rw [← hp]
      exact ha.finite
    · rw [← hp]
      exact ha.count
  · intro hc
    have hne := hc.nonempty_iff
    rw [← hp, ← hzero] at hne
    exact ⟨by rw [hp]; exact hc.finite, by rw [hp]; exact hc.count, hne.mpr, hne.mp⟩

theorem inv_start : Inv start where
  wf := by
    refine ⟨fun _ => .inl rfl, fun sig b e => ?_, fun sig b e x hx => ?_, rfl⟩
    · constructor
      · rintro ⟨x, hx⟩
        cases hx
      · rintro ⟨-, he⟩
        cases he
    · cases hx
  beyond _ _ := rfl
  size := by decide
  handled _ h := by cases h
  quiet _ _ := rfl
  count b := by
    have hset : {sig | (start.sigs sig).CountsFor b} = ∅ := Set.eq_empty_of_forall_notMem fun _ h => not_countsFor_noSig b h
    exact ⟨by rw [hset]; exact Set.finite_empty, by rw [hset, Set.ncard_empty]; rfl⟩

end Invariant

/-! ## The steps -/

section Steps

variable {s s' l : St} {b b' e e' sig t n : ℕ} {x y mem room : Bool} {log : List Note} {v : Vevsig}

/-- No counter is near its bound. -/
theorem Inv.psig_lt (h : Inv s) (b : ℕ) : (s.psig b).toNat < 2 ^ 31 := by
  refine Nat.lt_of_le_of_lt ((h.count b).le fun sig hc => ?_) h.size
  by_contra hge
  rw [h.beyond sig (Nat.le_of_not_lt hge)] at hc
  exact not_countsFor_noSig b hc

/-- A signal of another base does not count. -/
theorem count_other (h : CountIs s.sigs (Vevsig.CountsFor b') n) (hs : s.sigs sig = ⟨some b, some e, x⟩) (hne : b' ≠ b) (y : Bool) :
    CountIs (Function.update s.sigs sig ⟨some b, some e, y⟩) (Vevsig.CountsFor b') n := by
  refine h.same ?_
  rw [hs, countsFor_iff, countsFor_iff]
  exact iff_of_false (fun hc => hne hc.1.symm) fun hc => hne hc.1.symm

theorem Inv.count_on (h : Inv s) (hs : s.sigs sig = ⟨some b, some e, false⟩) (b' : ℕ) :
    CountIs (Function.update s.sigs sig ⟨some b, some e, true⟩) (Vevsig.CountsFor b')
      (Function.update s.psig b (s.psig b + 1) b').toNat := by
  by_cases hb : b' = b
  · subst hb
    have hlt := h.psig_lt b'
    have hnat : (s.psig b' + 1).toNat = (s.psig b').toNat + 1 := by
      rw [UInt32.toNat_add, Nat.mod_eq_of_lt]
      · rfl
      · exact Nat.lt_trans (Nat.succ_lt_succ hlt) (by decide)
    rw [Function.update_self, hnat]
    refine (h.count b').on ?_ (countsFor_iff.mpr ⟨rfl, rfl⟩)
    rw [hs, countsFor_iff]
    exact fun hc => Bool.false_ne_true hc.2
  · rw [Function.update_of_ne hb]
    exact count_other (h.count b') hs hb true

theorem Inv.count_off (h : Inv s) (hs : s.sigs sig = ⟨some b, some e, true⟩) (b' : ℕ) :
    CountIs (Function.update s.sigs sig ⟨some b, some e, false⟩) (Vevsig.CountsFor b')
      (Function.update s.psig b (s.psig b - 1) b').toNat := by
  by_cases hb : b' = b
  · subst hb
    have hc : (s.sigs sig).CountsFor b' := by
      rw [hs]
      exact ⟨rfl, rfl⟩
    have hcount := h.count b'
    have hpos := hcount.pos hc
    have hnat : (s.psig b' - 1).toNat + 1 = (s.psig b').toNat := by
      rw [UInt32.toNat_sub_of_le _ _ (UInt32.le_iff_toNat_le.mpr (show (1 : UInt32).toNat ≤ _ from hpos))]
      exact Nat.sub_add_cancel hpos
    rw [← hnat] at hcount
    rw [Function.update_self]
    refine hcount.off hc ?_
    rw [countsFor_iff]
    exact fun hc => Bool.false_ne_true hc.2
  · rw [Function.update_of_ne hb]
    exact count_other (h.count b') hs hb false

/-- From `s` to `l`, the slot of one signal becomes `v`; the events with other signals are the same, and so is what came of these. -/
structure Put (s l : St) (sig : ℕ) (v : Vevsig) : Prop where
  pos : 0 < sig
  sigs : l.sigs = Function.update s.sigs sig v
  own : ∀ b e, (∃ x, v = ⟨some b, some e, x⟩) ↔ l.ev e = ⟨sig, some b⟩
  others : ∀ t, t ≠ sig → 0 < t → ∀ b e, l.ev e = ⟨t, some b⟩ ↔ s.ev e = ⟨t, some b⟩
  rest : ∀ t, t ≠ sig → undelivered t l.log = undelivered t s.log

theorem Put.self (hp : Put s l sig v) : l.sigs sig = v := by
  rw [hp.sigs, Function.update_self]

theorem Put.of_ne (hp : Put s l sig v) (ht : t ≠ sig) : l.sigs t = s.sigs t := by
  rw [hp.sigs, Function.update_of_ne ht]

/-- The slot has no event, or one, and the flag says what came of the signal. -/
def Fits (v : Vevsig) (undelivered : Bool) : Prop := v = noSig ∨ ∃ b e, v = ⟨some b, some e, undelivered⟩

theorem Put.wf (hp : Put s l sig v) (h : Wf s) (hv : Fits v (undelivered sig l.log)) : Wf l where
  shape t := by
    by_cases ht : t = sig
    · subst ht
      rw [hp.self]
      exact hv.imp_right fun ⟨b, e, hv⟩ => ⟨b, e, _, hv⟩
    · rw [hp.of_ne ht]
      exact h.shape t
  slot t b e := by
    by_cases ht : t = sig
    · subst ht
      rw [hp.self, hp.own b e]
      exact (and_iff_right hp.pos).symm
    · rw [hp.of_ne ht, h.slot t b e]
      exact and_congr_right fun hpos => (hp.others t ht hpos b e).symm
  heard t b e x hx := by
    by_cases ht : t = sig
    · subst ht
      rw [hp.self] at hx
      rcases hv with hv | ⟨b', e', hv⟩
      · cases hv.symm.trans hx
      · cases hv.symm.trans hx
        rfl
    · rw [hp.of_ne ht] at hx
      exact (hp.rest t ht).trans (h.heard t b e x hx)
  zero := (hp.rest 0 (Nat.ne_of_lt hp.pos)).trans h.zero

/-- What a change of one slot has to keep besides. -/
theorem Put.inv (hp : Put s l sig v) (h : Inv s) (hv : Fits v (undelivered sig l.log)) (hlt : sig < s.nsig) (hn : l.nsig = s.nsig)
    (hinst : ∀ t, t ≠ sig → l.installed t = s.installed t) (hno : v = noSig → l.installed sig = false ∧ undelivered sig l.log = false)
    (hcount : ∀ b, CountIs l.sigs (Vevsig.CountsFor b) (l.psig b).toNat) : Inv l where
  wf := hp.wf h.wf hv
  beyond t ht := by
    rw [hn] at ht
    rw [hp.of_ne (Nat.ne_of_gt (Nat.lt_of_lt_of_le hlt ht))]
    exact h.beyond t ht
  size := hn ▸ h.size
  handled t ht := by
    by_cases hts : t = sig
    · subst hts
      rw [hp.self]
      intro hv
      exact absurd ((hno hv).1.symm.trans ht) (by decide)
    · rw [hp.of_ne hts]
      exact h.handled t ((hinst t hts).symm.trans ht)
  quiet t ht := by
    by_cases hts : t = sig
    · subst hts
      rw [hp.self] at ht
      exact (hno ht).2
    · rw [hp.of_ne hts] at ht
      exact (hp.rest t hts).trans (h.quiet t ht)
  count := hcount

/-- A signal that is registered is in the table. -/
theorem Inv.lt (h : Inv s) (hne : s.sigs sig ≠ noSig) : sig < s.nsig := Nat.lt_of_not_le fun hge => hne (h.beyond sig hge)

/-- Something comes of a registered signal. -/
theorem Inv.flip (h : Inv s) (hs : s.sigs sig = ⟨some b, some e, x⟩) (psig : ℕ → UInt32) (hlog : undelivered sig log = y)
    (hrest : ∀ t, t ≠ sig → undelivered t log = undelivered t s.log)
    (hcount : ∀ b', CountIs (Function.update s.sigs sig ⟨some b, some e, y⟩) (Vevsig.CountsFor b') (psig b').toNat) :
    Inv { s with psig := psig, sigs := Function.update s.sigs sig ⟨some b, some e, y⟩, log := log } := by
  have hpos := ((h.wf.slot sig b e).mp ⟨x, hs⟩).1
  have hput : Put s { s with psig := psig, sigs := Function.update s.sigs sig ⟨some b, some e, y⟩, log := log } sig ⟨some b, some e, y⟩ := by
    refine ⟨hpos, rfl, fun b' e' => ?_, fun _ _ _ _ _ => Iff.rfl, hrest⟩
    -- the slot has the event that it had
    have hslot := h.wf.slot sig b' e'
    rw [hs, and_iff_right hpos] at hslot
    rw [← hslot]
    constructor
    · rintro ⟨z, hz⟩
      cases hz
      exact ⟨x, rfl⟩
    · rintro ⟨z, hz⟩
      cases hz
      exact ⟨y, rfl⟩
  exact hput.inv h (.inr ⟨b, e, by rw [hlog]⟩) (h.lt (hs ▸ ne_noSig)) rfl (fun _ _ => rfl) (fun hv => absurd hv ne_noSig) hcount

/-- `vev_sighandler` does not fail, and counts an arrival that is not counted yet. -/
theorem vevSighandler_spec (h : Inv s) (hi : s.installed sig = true) : ∃ s', vevSighandler s sig = some s' ∧ Inv s' := by
  have hne := h.handled sig hi
  have hlt := Nat.not_le_of_lt (h.lt hne)
  obtain ⟨b, e, x, hs⟩ := (h.wf.shape sig).resolve_left hne
  have hlog : undelivered sig (.arrival sig :: s.log) = true := by
    rw [undelivered, decide_eq_true rfl, Bool.true_or]
  have hrest : ∀ t, t ≠ sig → undelivered t (.arrival sig :: s.log) = undelivered t s.log := by
    intro t ht
    rw [undelivered, decide_eq_false (Ne.symm ht), Bool.false_or]
  rw [vevSighandler, if_neg hlt, hs]
  cases x with
  | true =>
    have hsame : Function.update s.sigs sig ⟨some b, some e, true⟩ = s.sigs := by
      rw [← hs]
      exact Function.update_eq_self sig s.sigs
    have hinv := h.flip hs s.psig hlog hrest (by rw [hsame]; exact h.count)
    rw [hsame] at hinv
    exact ⟨_, rfl, hinv⟩
  | false => exact ⟨_, rfl, h.flip hs _ hlog hrest (h.count_on hs)⟩

/-- The calls that are open do not matter. -/
theorem Inv.passes (h : Inv s) (f : ℕ → List Pass) : Inv { s with passes := f } :=
  ⟨⟨h.wf.shape, h.wf.slot, h.wf.heard, h.wf.zero⟩, h.beyond, h.size, h.handled, h.quiet, h.count⟩

/-- The table gets larger. -/
theorem vevGetSig_spec (h : Inv s) (hsig : sig < 2 ^ 31 - 1) (hs : vevGetSig s sig mem = some s') :
    ∃ n, s' = { s with nsig := n } ∧ sig < n ∧ Inv s' := by
  rw [vevGetSig] at hs
  split at hs
  · rename_i hlt
    cases hs
    exact ⟨s.nsig, rfl, hlt, h⟩
  · rename_i hge
    split at hs
    · have hsigs : (fun i => if i < s.nsig then s.sigs i else noSig) = s.sigs := by
        funext i
        by_cases hi : i < s.nsig
        · exact if_pos hi
        · rw [if_neg hi, h.beyond i (Nat.le_of_not_lt hi)]
      rw [hsigs] at hs
      cases hs
      refine ⟨sig + 1, rfl, Nat.lt_succ_self sig, ⟨h.wf.shape, h.wf.slot, h.wf.heard, h.wf.zero⟩, fun i hi => h.beyond i ?_, ?_, h.handled, h.quiet, h.count⟩
      · exact le_trans (Nat.le_of_not_lt hge) (Nat.le_of_succ_le hi)
      · show sig + 1 < 2 ^ 31
        omega
    · cases hs

/-- An event is changed that has no signal, and has none then. -/
theorem Inv.setEv (h : Inv s) {a : Ev} (he : ∀ sig b, 0 < sig → s.ev e ≠ ⟨sig, some b⟩) (ha : ∀ sig b, 0 < sig → a ≠ ⟨sig, some b⟩) :
    Inv { s with ev := Function.update s.ev e a } := by
  refine ⟨⟨h.wf.shape, fun sig b e' => ?_, h.wf.heard, h.wf.zero⟩, h.beyond, h.size, h.handled, h.quiet, h.count⟩
  rw [h.wf.slot]
  refine and_congr_right fun hpos => ?_
  by_cases hee : e' = e
  · subst hee
    change _ ↔ Function.update s.ev e' a e' = _
    rw [Function.update_self]
    exact iff_of_false (he sig b hpos) (ha sig b hpos)
  · change _ ↔ Function.update s.ev e a e' = _
    rw [Function.update_of_ne hee]

/-- An event with a signal that nobody has is put into a base. -/
theorem Inv.register (h : Inv s) (hlt : sig < s.nsig) (hpos : 0 < sig) (hfree : s.sigs sig = noSig) (he : (s.ev e).vevb = none) (b : ℕ) :
    Inv (s.register b e sig) := by
  have hevself : (s.register b e sig).ev e = ⟨sig, some b⟩ := Function.update_self _ _ _
  have hevother : ∀ j, j ≠ e → (s.register b e sig).ev j = s.ev j := fun j hj => Function.update_of_ne hj _ _
  have hout : ∀ t b', s.ev e ≠ ⟨t, some b'⟩ := by
    intro t b' hc
    rw [hc] at he
    cases he
  have hquiet : undelivered sig (s.register b e sig).log = false := h.quiet sig hfree
  have hput : Put s (s.register b e sig) sig ⟨some b, some e, false⟩ := by
    refine ⟨hpos, ?_, fun b' e' => ?_, fun t ht _ b' e' => ?_, fun _ _ => rfl⟩
    · show Function.update s.sigs sig { s.sigs sig with vev := some e, vevb := some b } = _
      rw [hfree]
      rfl
    · by_cases hee : e' = e
      · subst hee
        rw [hevself]
        constructor
        · rintro ⟨z, hz⟩
          cases hz
          rfl
        · intro hz
          cases hz
          exact ⟨false, rfl⟩
      · rw [hevother e' hee]
        refine iff_of_false ?_ fun hc => ?_
        · rintro ⟨z, hz⟩
          cases hz
          exact hee rfl
        · obtain ⟨z, hz⟩ := (h.wf.slot sig b' e').mpr ⟨hpos, hc⟩
          cases hfree.symm.trans hz
    · by_cases hee : e' = e
      · subst hee
        rw [hevself]
        refine iff_of_false (fun hc => ?_) (hout t b')
        cases hc
        exact ht rfl
      · rw [hevother e' hee]
  refine hput.inv h (.inr ⟨b, e, by rw [hquiet]⟩) hlt rfl (fun t ht => Function.update_of_ne ht _ _) (fun hv => absurd hv ne_noSig) fun b' => ?_
  rw [hput.sigs]
  refine (h.count b').same ?_
  rw [hfree]
  exact iff_of_false (fun hc => Bool.false_ne_true hc.2) (not_countsFor_noSig b')

/-- `vev_add` keeps the invariant. -/
theorem vevAdd_spec (h : Inv s) (hsig : sig < 2 ^ 31 - 1) (hs : vevAdd s b e sig mem room = some s') : Inv s' := by
  rw [vevAdd] at hs
  by_cases he : (s.ev e).vevb.isSome = true
  · rw [if_pos he] at hs
    cases hs
  rw [if_neg he] at hs
  have hno : (s.ev e).vevb = none := Option.not_isSome_iff_eq_none.mp he
  have hout : ∀ t b', 0 < t → s.ev e ≠ ⟨t, some b'⟩ := by
    intro t b' _ hc
    rw [hc] at hno
    cases hno
  by_cases hpos : 0 < sig
  · rw [if_pos hpos] at hs
    cases hget : vevGetSig s sig mem with
    | none =>
      rw [hget] at hs
      cases hs
      exact h
    | some s₁ =>
      obtain ⟨n, rfl, hn, h₁⟩ := vevGetSig_spec h hsig hget
      rw [hget] at hs
      dsimp only at hs
      cases room with
      | false =>
        cases hs
        exact h₁
      | true =>
        rw [if_neg (by decide), if_pos hpos] at hs
        by_cases htaken : (s.sigs sig).vev.isSome = true
        · rw [if_pos htaken] at hs
          cases hs
          exact h₁
        · have hfree : s.sigs sig = noSig := by
            refine (h.wf.shape sig).resolve_right ?_
            rintro ⟨b', e', x, hx⟩
            rw [hx] at htaken
            exact htaken rfl
          rw [if_neg htaken, hfree, if_neg (by decide)] at hs
          cases hs
          exact h₁.register hn hpos hfree hno b
  · rw [if_neg hpos] at hs
    dsimp only at hs
    cases room with
    | false =>
      cases hs
      exact h
    | true =>
      rw [if_neg (by decide), if_neg hpos] at hs
      cases hs
      refine h.setEv hout fun t b' ht hc => ?_
      cases hc
      exact absurd ht (Nat.lt_irrefl 0)

/-- The event of a signal is taken out. -/
theorem Wf.put_drop (h : Wf s) (hs : s.sigs sig = ⟨some b, some e, x⟩) : Put s ((s.unregister sig).leave e) sig noSig := by
  have hevself : (((s.unregister sig).leave e).ev e).vevb = none := by
    show (Function.update s.ev e _ e).vevb = none
    rw [Function.update_self]
  have hevother : ∀ j, j ≠ e → ((s.unregister sig).leave e).ev j = s.ev j := fun j hj => Function.update_of_ne hj _ _
  have hout : ∀ t b', ((s.unregister sig).leave e).ev e ≠ ⟨t, some b'⟩ := by
    intro t b' hc
    rw [hc] at hevself
    cases hevself
  obtain ⟨hpos, hev⟩ := (h.slot sig b e).mp ⟨x, hs⟩
  refine ⟨hpos, rfl, fun b' e' => iff_of_false ?_ fun hc => ?_, fun t ht _ b' e' => ?_, fun _ _ => rfl⟩
  · rintro ⟨z, hz⟩
    cases hz
  · by_cases hee : e' = e
    · subst hee
      exact hout sig b' hc
    · rw [hevother e' hee] at hc
      obtain ⟨z, hz⟩ := (h.slot sig b' e').mpr ⟨hpos, hc⟩
      cases hs.symm.trans hz
      exact hee rfl
  · by_cases hee : e' = e
    · subst hee
      refine iff_of_false (hout t b') fun hc => ?_
      cases hev.symm.trans hc
      exact ht rfl
    · rw [hevother e' hee]

/-- If the signal has not arrived, that keeps the invariant. -/
theorem Inv.drop (h : Inv s) (hs : s.sigs sig = ⟨some b, some e, false⟩) : Inv ((s.unregister sig).leave e) := by
  have hput := h.wf.put_drop hs
  refine hput.inv h (.inl rfl) (h.lt (hs ▸ ne_noSig)) rfl (fun t ht => Function.update_of_ne ht _ _)
    (fun _ => ⟨Function.update_self _ _ _, h.wf.heard sig b e false hs⟩) fun b' => ?_
  rw [hput.sigs]
  refine (h.count b').same ?_
  rw [hs]
  exact iff_of_false (not_countsFor_noSig b') fun hc => Bool.false_ne_true hc.2

/-- If it has, it stays in the counter. -/
theorem Inv.not_accounted_drop (h : Inv s) (hs : s.sigs sig = ⟨some b, some e, true⟩) : ¬ Accounted ((s.unregister sig).leave e) b := by
  have hc : (s.sigs sig).CountsFor b := by
    rw [hs]
    exact ⟨rfl, rfl⟩
  intro ha
  have hafter : CountIs (Function.update s.sigs sig noSig) (Vevsig.CountsFor b) (s.psig b).toNat := ((h.wf.put_drop hs).wf h.wf (.inl rfl)).accounted_iff_countIs.mp ha
  have hcount := h.count b
  obtain ⟨m, hm⟩ := Nat.exists_eq_succ_of_ne_zero (Nat.ne_of_gt (hcount.pos hc))
  rw [hm] at hcount hafter
  have hless := (hcount.off hc (not_countsFor_noSig b)).count
  exact Nat.succ_ne_self m (hafter.count.trans hless.symm)

/-- `vev_del`, when the signal has arrived and when not. -/
theorem vevDel_spec (h : Inv s) (hs : vevDel s b e = some s') :
    (undelivered (s.ev e).sig s.log = false → Inv s') ∧ (undelivered (s.ev e).sig s.log = true → ¬ Accounted s' b) := by
  rw [vevDel] at hs
  by_cases hb : (s.ev e).vevb ≠ some b
  · rw [if_pos hb] at hs
    cases hs
  rw [if_neg hb] at hs
  by_cases hpos : 0 < (s.ev e).sig
  · have hev : s.ev e = ⟨(s.ev e).sig, some b⟩ := by rw [← not_not.mp hb]
    obtain ⟨x, hx⟩ := (h.wf.slot _ _ _).mpr ⟨hpos, hev⟩
    have hxl := h.wf.heard _ _ _ _ hx
    rw [if_pos hpos] at hs
    split at hs
    · cases hs
    · cases hs
      constructor
      · intro hu
        obtain rfl := hxl.symm.trans hu
        exact h.drop hx
      · intro hu
        obtain rfl := hxl.symm.trans hu
        exact h.not_accounted_drop hx
  · have hzero : (s.ev e).sig = 0 := Nat.eq_zero_of_not_pos hpos
    rw [if_neg hpos] at hs
    cases hs
    rw [hzero]
    refine ⟨fun _ => h.setEv (fun t b' ht hc => ?_) fun t b' _ hc => ?_, fun hu => absurd (h.wf.zero.symm.trans hu) (by decide)⟩
    · rw [hc] at hzero
      exact Nat.ne_of_gt ht hzero
    · cases hc

/-- The assertions of `vev_add` hold for an event that is in no base. -/
theorem vevAdd_isSome (h : Inv s) (hsig : sig < 2 ^ 31 - 1) :
    (vevAdd s b e sig mem room).isSome = true ↔ (s.ev e).vevb = none := by
  rw [vevAdd]
  by_cases he : (s.ev e).vevb.isSome = true
  · rw [if_pos he]
    refine iff_of_false (fun hn => by cases hn) fun hno => ?_
    rw [hno] at he
    cases he
  rw [if_neg he]
  refine iff_of_true ?_ (Option.not_isSome_iff_eq_none.mp he)
  by_cases hpos : 0 < sig
  · rw [if_pos hpos]
    cases hget : vevGetSig s sig mem with
    | none => rfl
    | some s₁ =>
      obtain ⟨n, rfl, -, -⟩ := vevGetSig_spec h hsig hget
      dsimp only
      cases room with
      | false => rfl
      | true =>
        rw [if_neg (by decide), if_pos hpos]
        by_cases htaken : (s.sigs sig).vev.isSome = true
        · rw [if_pos htaken]
          rfl
        · have hfree : s.sigs sig = noSig := by
            refine (h.wf.shape sig).resolve_right ?_
            rintro ⟨b', e', x, hx⟩
            rw [hx] at htaken
            exact htaken rfl
          rw [if_neg htaken, hfree]
          rfl
  · rw [if_neg hpos]
    cases room with
    | false => rfl
    | true =>
      dsimp only
      rw [if_neg (by decide), if_neg hpos]
      rfl

/-- Those of `vev_del` hold for an event of the base. -/
theorem vevDel_isSome (h : Inv s) : (vevDel s b e).isSome = true ↔ (s.ev e).vevb = some b := by
  rw [vevDel]
  by_cases hb : (s.ev e).vevb = some b
  · rw [if_neg (not_not.mpr hb)]
    refine iff_of_true ?_ hb
    by_cases hpos : 0 < (s.ev e).sig
    · have hev : s.ev e = ⟨(s.ev e).sig, some b⟩ := by rw [← hb]
      obtain ⟨x, hx⟩ := (h.wf.slot _ _ _).mpr ⟨hpos, hev⟩
      have hlt : (s.ev e).sig < s.nsig := h.lt (hx ▸ ne_noSig)
      have hfits : ¬ (s.nsig ≤ (s.ev e).sig ∨ (s.sigs (s.ev e).sig).vev ≠ some e) := by
        rw [hx]
        exact not_or.mpr ⟨Nat.not_le_of_lt hlt, not_not.mpr rfl⟩
      rw [if_pos hpos, if_neg hfits]
      rfl
    · rw [if_neg hpos]
      rfl
  · rw [if_pos hb]
    exact iff_of_false (fun hn => by cases hn) hb

/-- A turn of the loop fails where the table was moved. -/
theorem vevSchedSignal_isSome (h : Inv s) {p : Pass} {ps : List Pass} :
    (vevSchedSignal s b p ps).isSome = true ↔ (p.j < s.nsig → p.table = s.nsig) := by
  rw [vevSchedSignal]
  by_cases hj : p.j < s.nsig
  · rw [if_pos hj]
    by_cases ht : p.table = s.nsig
    · rw [if_neg (not_not.mpr ht)]
      refine iff_of_true ?_ fun _ => ht
      split
      · rfl
      · rename_i hnot
        obtain ⟨-, hb⟩ := not_or.mp hnot
        rcases h.wf.shape p.j with hno | ⟨b', e, x, hx⟩
        · rw [hno] at hb
          exact absurd (fun hc => (by cases hc)) hb
        · rw [hx]
          rfl
    · rw [if_pos ht]
      exact iff_of_false (fun hn => by cases hn) fun hall => ht (hall hj)
  · rw [if_neg hj]
    exact iff_of_true rfl fun hlt => absurd hlt hj

/-- A turn of the loop takes a delivery off the counter. -/
theorem vevSchedSignal_spec (h : Inv s) {p : Pass} {ps : List Pass} (hs : vevSchedSignal s b p ps = some s') : Inv s' := by
  rw [vevSchedSignal] at hs
  split at hs
  · split at hs
    · cases hs
    · split at hs
      · cases hs
        exact h.passes _
      · rename_i hnot
        obtain ⟨hhap, hb⟩ := not_or.mp hnot
        rcases h.wf.shape p.j with hno | ⟨b', e, x, hx⟩
        · rw [hno] at hb
          exact absurd (fun hc => (by cases hc)) hb
        · rw [hx] at hs hhap hb
          obtain rfl : b' = b := Option.some.inj (not_not.mp hb)
          obtain rfl : x = true := not_not.mp hhap
          cases hs
          have hlog : undelivered p.j (.delivery p.j :: s.log) = false := by
            rw [undelivered, decide_eq_false (not_not.mpr rfl), Bool.false_and]
          have hrest : ∀ t, t ≠ p.j → undelivered t (.delivery p.j :: s.log) = undelivered t s.log := by
            intro t ht
            rw [undelivered, decide_eq_true (Ne.symm ht), Bool.true_and]
          exact (h.flip hx _ hlog hrest (h.count_off hx)).passes _
  · cases hs
    exact h.passes _

end Steps

/-! ## The calls that are open -/

section Open

variable {s s' : St} {b e sig : ℕ} {mem room : Bool} {f : ℕ → List Pass} {p : Pass} {ps : List Pass}

/-- The table of each open call is the one that there is. -/
def OnTable (n : ℕ) (passes : ℕ → List Pass) : Prop := ∀ b, ∀ p ∈ passes b, p.table = n

theorem OnTable.update {n : ℕ} (h : OnTable n f) (hps : ∀ p ∈ ps, p.table = n) : OnTable n (Function.update f b ps) := by
  intro b' p hp
  by_cases hb : b' = b
  · subst hb
    rw [Function.update_self] at hp
    exact hps p hp
  · rw [Function.update_of_ne hb] at hp
    exact h b' p hp

theorem vevSighandler_table (hs : vevSighandler s sig = some s') : s'.nsig = s.nsig ∧ s'.passes = s.passes := by
  rw [vevSighandler] at hs
  split at hs
  · cases hs
  · split at hs
    · cases hs
      exact ⟨rfl, rfl⟩
    · split at hs
      · cases hs
      · cases hs
        exact ⟨rfl, rfl⟩

theorem vevGetSig_table (hs : vevGetSig s sig mem = some s') :
    s'.passes = s.passes ∧ (s'.nsig = s.nsig ∨ (mem = true ∧ s.nsig ≤ sig)) := by
  rw [vevGetSig] at hs
  split at hs
  · cases hs
    exact ⟨rfl, .inl rfl⟩
  · rename_i hge
    split at hs
    · rename_i hmem
      cases hs
      exact ⟨rfl, .inr ⟨hmem, Nat.le_of_not_lt hge⟩⟩
    · cases hs

theorem vevAdd_table (hs : vevAdd s b e sig mem room = some s') :
    s'.passes = s.passes ∧ (s'.nsig = s.nsig ∨ (mem = true ∧ s.nsig ≤ sig)) := by
  rw [vevAdd] at hs
  split at hs
  · cases hs
  split at hs
  · cases hs
    exact ⟨rfl, .inl rfl⟩
  rename_i s₁ hget
  have hframe : s₁.passes = s.passes ∧ (s₁.nsig = s.nsig ∨ (mem = true ∧ s.nsig ≤ sig)) := by
    split at hget
    · exact vevGetSig_table hget
    · cases hget
      exact ⟨rfl, .inl rfl⟩
  -- what is changed behind that is the slot and the event
  have hsame : s'.passes = s₁.passes ∧ s'.nsig = s₁.nsig := by
    split at hs
    · cases hs
      exact ⟨rfl, rfl⟩
    · split at hs
      · split at hs
        · cases hs
          exact ⟨rfl, rfl⟩
        · split at hs
          · cases hs
          · cases hs
            exact ⟨rfl, rfl⟩
      · cases hs
        exact ⟨rfl, rfl⟩
  rw [hsame.1, hsame.2]
  exact hframe

theorem vevDel_table (hs : vevDel s b e = some s') : s'.nsig = s.nsig ∧ s'.passes = s.passes := by
  rw [vevDel] at hs
  split at hs
  · cases hs
  · split at hs
    · split at hs
      · cases hs
      · cases hs
        exact ⟨rfl, rfl⟩
    · cases hs
      exact ⟨rfl, rfl⟩

theorem vevSchedSignal_table (h : OnTable s.nsig s.passes) (hp : s.passes b = p :: ps) (hs : vevSchedSignal s b p ps = some s') :
    OnTable s'.nsig s'.passes := by
  have hps : ∀ q ∈ p :: ps, q.table = s.nsig := fun q hq => h b q (hp ▸ hq)
  have hnext : ∀ q : Pass, q.table = p.table → ∀ r ∈ q :: ps, r.table = s.nsig := by
    intro q hq r hr
    rcases List.mem_cons.mp hr with rfl | hr
    · exact hq.trans (hps p List.mem_cons_self)
    · exact hps r (List.mem_cons_of_mem _ hr)
  rw [vevSchedSignal] at hs
  split at hs
  · split at hs
    · cases hs
    · split at hs
      · cases hs
        exact h.update (hnext _ rfl)
      · split at hs
        · cases hs
        · cases hs
          exact h.update (hnext _ rfl)
  · cases hs
    exact h.update fun q hq => hps q (List.mem_cons_of_mem _ hq)

theorem sigStep_table {a : Act} (h : OnTable s.nsig s.passes) (ha : a.Steady s) (hs : sigStep s a = some s') :
    OnTable s'.nsig s'.passes := by
  cases a with
  | arrive sig =>
    rw [sigStep] at hs
    split at hs
    · obtain ⟨hn, hp⟩ := vevSighandler_table hs
      rw [hn, hp]
      exact h
    · cases hs
      exact h
  | add b e sig mem room =>
    obtain ⟨hp, hn | ⟨hmem, hsig⟩⟩ := vevAdd_table hs
    · rw [hp, hn]
      exact h
    · intro b' p hin
      rw [hp, ha hmem hsig b'] at hin
      cases hin
  | del b e =>
    obtain ⟨hn, hp⟩ := vevDel_table hs
    rw [hn, hp]
    exact h
  | schedule b w =>
    cases hs
    cases w with
    | early => exact h
    | poll eintr =>
      rw [vevScheduleOne]
      split
      · refine h.update fun q hq => ?_
        rcases List.mem_cons.mp hq with rfl | hq
        · rfl
        · exact h b q hq
      · exact h
  | turn b =>
    rw [sigStep] at hs
    split at hs
    · rename_i hp
      exact vevSchedSignal_table h hp hs
    · cases hs
  | ret b done =>
    rw [sigStep] at hs
    split at hs
    · rename_i j table e ps hp
      obtain ⟨t, ht, rfl⟩ := Option.map_eq_some_iff.mp hs
      have hframe : t.nsig = s.nsig ∧ t.passes = s.passes := by
        cases done with
        | false =>
          cases ht
          exact ⟨rfl, rfl⟩
        | true => exact vevDel_table ht
      have hin : ∀ q ∈ s.passes b, q.table = s.nsig := h b
      rw [hp] at hin
      show OnTable t.nsig (Function.update t.passes b _)
      rw [hframe.1, hframe.2]
      refine h.update fun q hq => ?_
      rcases List.mem_cons.mp hq with rfl | hq
      · exact hin ⟨j, table, some e⟩ List.mem_cons_self
      · exact hin q (List.mem_cons_of_mem _ hq)
    · cases hs

end Open

/-! ## Whole runs -/

section Runs

variable {s s' : St} {a : Act}

/-- The invariant is kept if the condition holds, and otherwise a counter is wrong. -/
theorem sigStep_spec (h : Inv s) (hc : a.Called) (hs : sigStep s a = some s') :
    (a.Cond s → Inv s') ∧ (¬ a.Cond s → ∃ b, ¬ Accounted s' b) := by
  cases a with
  | arrive sig =>
    refine ⟨fun _ => ?_, fun hno => absurd trivial hno⟩
    rw [sigStep] at hs
    split at hs
    · rename_i hi
      obtain ⟨t, ht, hinv⟩ := vevSighandler_spec h hi
      cases ht.symm.trans hs
      exact hinv
    · cases hs
      exact h
  | add b e sig mem room => exact ⟨fun _ => vevAdd_spec h hc hs, fun hno => absurd trivial hno⟩
  | del b e =>
    obtain ⟨h1, h2⟩ := vevDel_spec h hs
    exact ⟨h1, fun hno => ⟨b, h2 (eq_true_of_ne_false hno)⟩⟩
  | schedule b w =>
    refine ⟨fun _ => ?_, fun hno => absurd trivial hno⟩
    cases hs
    cases w with
    | early => exact h
    | poll eintr =>
      rw [vevScheduleOne]
      split
      · exact h.passes _
      · exact h
  | turn b =>
    refine ⟨fun _ => ?_, fun hno => absurd trivial hno⟩
    rw [sigStep] at hs
    split at hs
    · exact vevSchedSignal_spec h hs
    · cases hs
  | ret b done =>
    rw [sigStep] at hs
    split at hs
    · rename_i j table e ps hp
      obtain ⟨t, ht, rfl⟩ := Option.map_eq_some_iff.mp hs
      cases done with
      | false =>
        cases ht
        exact ⟨fun _ => h.passes _, fun hno => absurd trivial hno⟩
      | true =>
        have hcond : Act.Cond s (.ret b true) ↔ undelivered (s.ev e).sig s.log = false := by
          rw [Act.Cond, hp]
          simp
        obtain ⟨h1, h2⟩ := vevDel_spec h ht
        rw [hcond]
        exact ⟨fun hu => (h1 hu).passes _, fun hu => ⟨b, fun ha => h2 (eq_true_of_ne_false hu) ⟨ha.finite, ha.count, ha.no_spin, ha.no_sleep⟩⟩⟩
    · cases hs

/-- No other step fails than one that cannot be made. -/
theorem sigStep_isSome (h : Inv s) (hc : a.Called) : (sigStep s a).isSome = true ↔ a.Ready s := by
  cases a with
  | arrive sig =>
    refine iff_of_true ?_ trivial
    rw [sigStep]
    split
    · rename_i hi
      obtain ⟨s', hs', -⟩ := vevSighandler_spec h hi
      rw [hs']
      rfl
    · rfl
  | add b e sig mem room => exact vevAdd_isSome h hc
  | del b e => exact vevDel_isSome h
  | schedule b w => exact iff_of_true rfl trivial
  | turn b =>
    rw [sigStep, Act.Ready]
    split
    · rename_i j table ps hp
      refine (vevSchedSignal_isSome h).trans ⟨fun ht => ⟨⟨j, table, none⟩, ps, hp, rfl, ht⟩, ?_⟩
      rintro ⟨p, ps', hp', -, ht⟩
      cases hp.symm.trans hp'
      exact ht
    · rename_i hno
      refine iff_of_false (fun hn => by cases hn) ?_
      rintro ⟨⟨j, table, callback⟩, ps, hp, rfl, -⟩
      exact hno j table ps hp
  | ret b done =>
    rw [sigStep, Act.Ready]
    split
    · rename_i j table e ps hp
      rw [Option.isSome_map]
      have hdel : (if done then vevDel s b e else some s).isSome = true ↔ (done = true → (s.ev e).vevb = some b) := by
        cases done with
        | false => exact iff_of_true rfl fun hd => (by cases hd)
        | true => exact (vevDel_isSome h).trans ⟨fun he _ => he, fun he => he rfl⟩
      refine hdel.trans ⟨fun he => ⟨⟨j, table, some e⟩, ps, e, hp, rfl, he⟩, ?_⟩
      rintro ⟨p, ps', e', hp', he', hall⟩
      cases hp.symm.trans hp'
      cases he'
      exact hall
    · rename_i hno
      refine iff_of_false (fun hn => by cases hn) ?_
      rintro ⟨⟨j, table, callback⟩, ps, e, hp, rfl, -⟩
      exact hno j table e ps hp

theorem reach_inv (h : Reach sigStep (fun s a => a.Called ∧ a.Cond s) start s) : Inv s :=
  h.inv inv_start fun _ _ _ hi hok hs => (sigStep_spec hi hok.1 hs).1 hok.2

/-- **The signals are accounted for in every base** as long as no event is deleted whose signal has arrived, and not in all of them
when one is.  No step fails that can be made. -/
theorem reach_accounted (h : Reach sigStep (fun s a => a.Called ∧ a.Cond s) start s) :
    (∀ b, Accounted s b) ∧ ∀ a, a.Called → ((sigStep s a).isSome = true ↔ a.Ready s) ∧
      ∀ s', sigStep s a = some s' → ((∀ b, Accounted s' b) ↔ a.Cond s) := by
  have hinv := reach_inv h
  refine ⟨fun b => hinv.wf.accounted_iff_countIs.mpr (hinv.count b), fun a hc => ⟨sigStep_isSome hinv hc, fun s' hs => ?_⟩⟩
  obtain ⟨h1, h2⟩ := sigStep_spec hinv hc hs
  constructor
  · intro hall
    by_contra hno
    obtain ⟨b, hb⟩ := h2 hno
    exact hb (hall b)
  · intro hcond b
    exact (h1 hcond).wf.accounted_iff_countIs.mpr ((h1 hcond).count b)

/-- Two signals of a base are delivered; one of them arrives twice before, and its event is deleted by its callback; the other one
arrives again. -/
def calmRun : List Act :=
  [.add 0 0 5 true true, .add 0 1 2 true true, .arrive 2, .arrive 5, .arrive 2, .schedule 0 (.poll false), .turn 0, .turn 0, .turn 0,
    .ret 0 true, .turn 0, .turn 0, .turn 0, .arrive 5, .ret 0 false, .turn 0]

theorem reach_accounted_calmRun : ∃ s, Reach sigStep (fun s a => a.Called ∧ a.Cond s) start s ∧ (s.psig 0 = 1 ∧ s.passes 0 = []) ∧
    (∀ b, Accounted s b) ∧ ∀ a, a.Called → ((sigStep s a).isSome = true ↔ a.Ready s) ∧
      ∀ s', sigStep s a = some s' → ((∀ b, Accounted s' b) ↔ a.Cond s) := by
  have hres : (calmRun.foldlM sigStep start).map (fun s => (s.psig 0, s.passes 0)) = some (1, []) := by decide +kernel
  obtain ⟨s, hs, hc⟩ := Option.map_eq_some_iff.mp hres
  have hreach : Reach sigStep (fun s a => a.Called ∧ a.Cond s) start s := Reach.of_run (by decide +kernel) hs
  exact ⟨s, hreach, ⟨congrArg Prod.fst hc, congrArg Prod.snd hc⟩, reach_accounted hreach⟩

/-- In a run in which the table does not grow under an open call, the loop always goes on. -/
theorem reach_steady (h : Reach sigStep (fun s a => (a.Called ∧ a.Cond s) ∧ a.Steady s) start s) (b : ℕ) :
    (sigStep s (.turn b)).isSome = true ↔ ∃ p ps, s.passes b = p :: ps ∧ p.callback = none := by
  have hinv : Inv s := h.inv inv_start fun _ _ _ hi hok hs => (sigStep_spec hi hok.1.1 hs).1 hok.1.2
  have htable : OnTable s.nsig s.passes :=
    h.inv (I := fun s => OnTable s.nsig s.passes) (fun _ _ hp => by cases hp) fun _ _ _ ht hok hs => sigStep_table ht hok.2 hs
  refine (sigStep_isSome (a := .turn b) hinv trivial).trans ⟨fun ⟨p, ps, hp, hcall, _⟩ => ⟨p, ps, hp, hcall⟩, ?_⟩
  rintro ⟨p, ps, hp, hcall⟩
  exact ⟨p, ps, hp, hcall, fun _ => htable b p (hp ▸ List.mem_cons_self)⟩

/-- The event of a signal is deleted that has arrived: it stays counted. -/
theorem arrival_stays : ∃ s, Reach sigStep (fun _ a => a.Called) start s ∧ ¬ Accounted s 0 := by
  have hres : (([.add 0 0 2 true true, .arrive 2] : List Act).foldlM sigStep start).map
      (fun s => (undelivered (s.ev 0).sig s.log, (vevDel s 0 0).isSome)) = some (true, true) := by decide +kernel
  obtain ⟨s, hs, hc⟩ := Option.map_eq_some_iff.mp hres
  obtain ⟨s', hs'⟩ := Option.isSome_iff_exists.mp (congrArg Prod.snd hc)
  have hreach : Reach sigStep (fun s a => a.Called ∧ a.Cond s) start s := Reach.of_run (by decide +kernel) hs
  have hcalled : Reach sigStep (fun _ a => a.Called) start s := Reach.of_run (by decide +kernel) hs
  exact ⟨s', hcalled.tail (.del 0 0) trivial hs', (vevDel_spec (reach_inv hreach) hs').2 (congrArg Prod.fst hc)⟩

end Runs

end Varnish.Signal
