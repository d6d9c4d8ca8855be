import Varnish.Lib.Run
import Varnish.Shmlog.Model

/-!
# Varnish.Shmlog.Writers — several threads that write to the log

Any number of calls get their space under the mutex, and make their stores one by one, in any order with those of the others.

* `logStep`: a call reserves its space, or makes its next store.
* `Timely`: an end marker is stored when the first tag of the call behind it is not stored yet.
* `reach_parse`: after every run of such steps in one cycle of the log, when all calls are done, the records are read in the
  order of the reservations.
* `tag_lost`: `VSLR` stores its end marker without the mutex, and takes away the tag of the next record.
-/

namespace Varnish.Shmlog

open Varnish.Lib

/-! ## The system -/

section System

variable (P : Params) (size : ℕ)

/-- A call that has its space at `base`, and the stores it has not made yet, with the mutex and without. -/
structure Pend where
  call : Call
  base : ℕ
  held : List Store
  todo : List Store

def Pend.left (p : Pend) : List Store := p.held ++ p.todo

/-- The log, with all calls in the order of their reservations. -/
structure Log where
  mem : Mem
  ptr : ℕ
  cycles : ℕ
  calls : List Pend

inductive Act
  | reserve (c : Call)
  | store (i : ℕ)
deriving DecidableEq

/-- The next store of a call. -/
def Pend.next (p : Pend) : Option (Store × Pend) :=
  match p.held, p.todo with
  | w :: held, _ => some (w, { p with held := held })
  | [], w :: todo => some (w, { p with todo := todo })
  | [], [] => none

/-- A reservation has to wait while another call holds the mutex. -/
def logStep (s : Log) : Act → Option Log
  | .reserve c =>
    if c.recs P = [] then some s
    else if ∃ p ∈ s.calls, p.held ≠ [] then none
    else do
      let g ← reserve P size s.ptr c
      some
        { s with
          ptr := g.ptr
          cycles := if wraps size s.ptr (c.need P) then s.cycles + 1 else s.cycles
          calls := s.calls ++ [⟨c, g.base, g.held, g.todo⟩] }
  | .store i => do
    let p ← s.calls[i]?
    let (w, p') ← p.next
    some { s with mem := w.apply s.mem, calls := s.calls.set i p' }

/-- The log before the first call. -/
def start (m : Mem) : Log := ⟨m, 0, 0, []⟩

/-- The call has its space in this cycle of the log. -/
def InCycle (s : Log) : Act → Prop
  | .reserve c => s.ptr + c.need P + 1 < size
  | .store _ => True

/-- The store of the end marker comes before the one of the tag that is to be in its place. -/
def Timely (s : Log) : Act → Prop
  | .reserve _ => True
  | .store i => ∀ p ∈ s.calls[i]?, p.left.head? = some (p.base + (p.call.bytes P).length, endMarker) →
      ∀ q ∈ s.calls[i + 1]?, q.left ≠ []

/-- All calls are done. -/
def Quiet (s : Log) : Prop := ∀ p ∈ s.calls, p.left = []

/-- The records of the calls. -/
def Log.recs (s : Log) : List Rec := s.calls.flatMap fun p => p.call.recs P

instance decInCycle (s : Log) : (a : Act) → Decidable (InCycle P size s a)
  | .reserve c => inferInstanceAs (Decidable (s.ptr + c.need P + 1 < size))
  | .store _ => isTrue trivial

instance decTimely (s : Log) : (a : Act) → Decidable (Timely P s a)
  | .reserve _ => isTrue trivial
  | .store i => inferInstanceAs (Decidable (∀ p ∈ s.calls[i]?,
      p.left.head? = some (p.base + (p.call.bytes P).length, endMarker) → ∀ q ∈ s.calls[i + 1]?, q.left ≠ []))

instance decQuiet (s : Log) : Decidable (Quiet s) := inferInstanceAs (Decidable (∀ p ∈ s.calls, p.left = []))

end System

/-! ## The invariant -/

section Invariant

variable {P : Params} {size : ℕ} {s s' : Log} {m : Mem} {b e : ℕ} {p q : Pend} {ps qs : List Pend}

/-- The calls have their space one behind the other from `b` up to `e`. -/
def Row (P : Params) : (b : ℕ) → List Pend → (e : ℕ) → Prop
  | b, [], e => b = e
  | b, p :: ps, e => p.base = b ∧ Row P (b + (p.call.bytes P).length) ps e

/-- A call that has made some of its stores. -/
structure Good (P : Params) (m : Mem) (p : Pend) : Prop where
  recs : p.call.recs P ≠ []
  suffix : p.left <:+ p.call.held P p.base ++ p.call.todo P p.base
  fills : Fills m p.base (p.call.bytes P) p.left

structure LogInv (P : Params) (s : Log) : Prop where
  row : Row P 0 s.calls s.ptr
  good : ∀ p ∈ s.calls, Good P s.mem p
  mark : s.mem s.ptr = endMarker ∨ ∃ p, s.calls.getLast? = some p ∧ (s.ptr, endMarker) ∈ p.left

theorem row_append : Row P b (ps ++ qs) e ↔ ∃ c, Row P b ps c ∧ Row P c qs e := by
  induction ps generalizing b with
  | nil => simp [Row]
  | cons p ps ih =>
    rw [List.cons_append, Row, ih]
    constructor
    · rintro ⟨h, c, h1, h2⟩
      exact ⟨c, ⟨h, h1⟩, h2⟩
    · rintro ⟨c, ⟨h, h1⟩, h2⟩
      exact ⟨h, c, h1, h2⟩

theorem Row.le (h : Row P b ps e) : b ≤ e := by
  induction ps generalizing b with
  | nil => exact le_of_eq h
  | cons p ps ih =>
    have := ih h.2
    omega

theorem Row.mem (h : Row P b ps e) (hp : p ∈ ps) : b ≤ p.base ∧ p.base + (p.call.bytes P).length ≤ e := by
  induction ps generalizing b with
  | nil => cases hp
  | cons q ps ih =>
    obtain ⟨rfl, h⟩ := h
    rcases List.mem_cons.mp hp with rfl | hp
    · exact ⟨le_refl _, h.le⟩
    · have := ih h hp
      omega

theorem Good.length_pos (h : Good P m p) : 0 < (p.call.bytes P).length := List.length_pos_iff.mpr (bytes_ne_nil h.recs)

theorem Good.lays (h : Good P m p) : Lays p.base (p.call.bytes P) (p.call.held P p.base ++ p.call.todo P p.base) :=
  Shmlog.lays p.base h.recs

/-- As long as a call has something to store, the store of its first tag is among it. -/
theorem Good.tag_left (h : Good P m p) (hl : p.left ≠ []) : ∃ v, (p.base, v) ∈ p.left := h.lays.base_mem h.suffix hl

/-- A call stores one of its bytes, or its end marker. -/
theorem Good.store {w : Store} {l : List Store} (h : Good P m p) (hw : p.left = w :: l) :
    (∃ i, w.1 = p.base + i ∧ (p.call.bytes P)[i]? = some w.2) ∨ w = (p.base + (p.call.bytes P).length, endMarker) := by
  refine h.lays.right w (h.suffix.subset ?_)
  rw [hw]
  exact List.mem_cons_self

/-- What is next of a call. -/
theorem next_eq {w : Store} {p' : Pend} (h : p.next = some (w, p')) :
    p.left = w :: p'.left ∧ p'.call = p.call ∧ p'.base = p.base := by
  unfold Pend.next at h
  split at h
  case h_1 held hh =>
    cases h
    simp [Pend.left, hh]
  case h_2 todo hh ht =>
    cases h
    simp [Pend.left, hh, ht]
  case h_3 => cases h

theorem Good.next {w : Store} {p' : Pend} (h : Good P m p) (hn : p.next = some (w, p')) : Good P (w.apply m) p' := by
  obtain ⟨hl, hc, hb⟩ := next_eq hn
  have hst := h.store hl
  constructor
  case recs => rw [hc]; exact h.recs
  case suffix =>
    rw [hc, hb]
    refine List.IsSuffix.trans ?_ h.suffix
    rw [hl]
    exact List.suffix_cons _ _
  case fills =>
    rw [hc, hb]
    have hf := h.fills
    rw [hl] at hf
    refine hf.own fun i b hi hwi => ?_
    rcases hst with ⟨j, hj, hbj⟩ | rfl
    · obtain rfl : j = i := by omega
      exact Option.some.inj (hbj.symm.trans hi)
    · obtain ⟨hlt, -⟩ := List.getElem?_eq_some_iff.mp hi
      simp only at hwi
      omega

/-- The list around one of its members. -/
theorem split_at {i : ℕ} (h : ps[i]? = some p) :
    ∃ pre post, ps = pre ++ p :: post ∧ (∀ p', ps.set i p' = pre ++ p' :: post) ∧ ps[i + 1]? = post.head? := by
  obtain ⟨hi, rfl⟩ := List.getElem?_eq_some_iff.mp h
  refine ⟨ps.take i, ps.drop (i + 1), ?_, fun p' => ?_, ?_⟩
  · rw [List.getElem_cons_drop, List.take_append_drop]
  · exact List.set_eq_take_append_cons_drop.trans (if_pos hi)
  · rw [List.head?_drop]

/-- A store of one call, where the others have their space before and behind. -/
theorem Good.other {w : Store} {pre post : List Pend} (hp : Good P m p) (hrow : Row P 0 (pre ++ p :: post) e)
    (hgood : ∀ q ∈ post, Good P m q) (hw : (∃ i, w.1 = p.base + i ∧ (p.call.bytes P)[i]? = some w.2) ∨
      w = (p.base + (p.call.bytes P).length, endMarker) ∧ ∀ q ∈ post.head?, q.left ≠ [])
    (hq : Good P m q) (hmem : q ∈ pre ∨ q ∈ post) : Good P (w.apply m) q := by
  refine ⟨hq.recs, hq.suffix, hq.fills.other fun j hj hwj => ?_⟩
  obtain ⟨c, hpre, rfl, hpost⟩ := row_append.mp hrow
  have hpos := hp.length_pos
  have hlo : p.base ≤ w.1 ∧ w.1 ≤ p.base + (p.call.bytes P).length := by
    rcases hw with ⟨i, hi, hb⟩ | ⟨rfl, -⟩
    · obtain ⟨hlt, -⟩ := List.getElem?_eq_some_iff.mp hb
      omega
    · exact ⟨Nat.le_add_right _ _, le_refl _⟩
  rcases hmem with hmem | hmem
  · have := hpre.mem hmem
    omega
  -- of what is behind, only the first tag of the next call is in reach
  obtain ⟨q', post, rfl⟩ := List.exists_cons_of_ne_nil (List.ne_nil_of_mem hmem)
  obtain ⟨hq', hpost⟩ := hpost
  have hpos' := (hgood q' List.mem_cons_self).length_pos
  rcases List.mem_cons.mp hmem with rfl | hmem
  · rcases hw with ⟨i, hi, hb⟩ | ⟨rfl, hleft⟩
    · obtain ⟨hlt, -⟩ := List.getElem?_eq_some_iff.mp hb
      omega
    · obtain rfl : j = 0 := by
        simp only at hwj
        omega
      exact hq.tag_left (hleft q rfl)
  · have := hpost.mem hmem
    omega

theorem LogInv.store {i : ℕ} (h : LogInv P s) (hT : Timely P s (.store i)) (hs : logStep P size s (.store i) = some s') :
    LogInv P s' := by
  obtain ⟨p, hp, hs⟩ := Option.bind_eq_some_iff.mp hs
  obtain ⟨⟨w, p'⟩, hn, hs⟩ := Option.bind_eq_some_iff.mp hs
  cases hs
  obtain ⟨hl, hc, hb⟩ := next_eq hn
  obtain ⟨pre, post, hcalls, hset, hnext⟩ := split_at hp
  have hrow := h.row
  rw [hcalls] at hrow
  have hgood : ∀ q ∈ pre ++ p :: post, Good P s.mem q := fun q hq => h.good q (hcalls ▸ hq)
  have hgp : Good P s.mem p := hgood p (by simp)
  have hw : (∃ i, w.1 = p.base + i ∧ (p.call.bytes P)[i]? = some w.2) ∨
      w = (p.base + (p.call.bytes P).length, endMarker) ∧ ∀ q ∈ post.head?, q.left ≠ [] := by
    refine (hgp.store hl).imp_right fun hw => ⟨hw, fun q hq => ?_⟩
    refine hT p (Option.mem_def.mpr hp) (by rw [hl, hw]; rfl) q ?_
    rw [Option.mem_def, hnext]
    exact hq
  obtain ⟨c, hpre, hbase, hpost⟩ := row_append.mp hrow
  constructor
  case row =>
    change Row P 0 (s.calls.set i p') s.ptr
    rw [hset, row_append]
    refine ⟨c, hpre, by rw [hb]; exact hbase, ?_⟩
    rw [hc]
    exact hpost
  case good =>
    change ∀ q ∈ s.calls.set i p', Good P (w.apply s.mem) q
    rw [hset]
    intro q hq
    rcases List.mem_append.mp hq with hq | hq
    · exact hgp.other hrow (fun q hq => hgood q (by simp [hq])) hw (hgood q (by simp [hq])) (.inl hq)
    rcases List.mem_cons.mp hq with rfl | hq
    · exact hgp.next hn
    · exact hgp.other hrow (fun q hq => hgood q (by simp [hq])) hw (hgood q (by simp [hq])) (.inr hq)
  case mark =>
    change w.apply s.mem s.ptr = endMarker ∨ ∃ q, (s.calls.set i p').getLast? = some q ∧ (s.ptr, endMarker) ∈ q.left
    -- only the end marker of the last call is stored there
    by_cases hptr : s.ptr = w.1
    · left
      rw [hptr, apply_self]
      have hle := hpost.le
      rcases hw with ⟨j, hj, hbj⟩ | ⟨rfl, -⟩
      · obtain ⟨hlt, -⟩ := List.getElem?_eq_some_iff.mp hbj
        omega
      · rfl
    rw [apply_of_ne hptr]
    refine h.mark.imp_right ?_
    rintro ⟨q, hq, hm⟩
    rw [hset]
    rw [hcalls] at hq
    rcases List.eq_nil_or_concat post with rfl | ⟨post, z, rfl⟩
    · rw [List.getLast?_concat] at hq
      cases hq
      refine ⟨p', List.getLast?_concat .., ?_⟩
      rw [hl] at hm
      rcases List.mem_cons.mp hm with rfl | hm
      · exact absurd rfl hptr
      · exact hm
    · have hlast : ∀ x, (pre ++ x :: post.concat z).getLast? = some z := by
        intro x
        rw [List.concat_eq_append, ← List.cons_append, ← List.append_assoc, List.getLast?_concat]
      rw [hlast] at hq
      exact ⟨q, (hlast p').trans hq, hm⟩

theorem LogInv.reserve {c : Call} (hsz : size < 2 ^ 32) (h : LogInv P s) (hC : InCycle P size s (.reserve c))
    (hs : logStep P size s (.reserve c) = some s') : LogInv P s' := by
  have hC : s.ptr + c.need P + 1 < size := hC
  have hlen := length_le_need P c
  have hwrap : wraps size s.ptr (c.need P) = false := by
    rw [wraps, Nat.mod_eq_of_lt (by omega)]
    simpa using hC
  rw [logStep] at hs
  by_cases hnil : c.recs P = []
  · rw [if_pos hnil] at hs
    cases hs
    exact h
  rw [if_neg hnil] at hs
  by_cases hheld : ∃ p ∈ s.calls, p.held ≠ []
  · rw [if_pos hheld] at hs
    cases hs
  rw [if_neg hheld] at hs
  obtain ⟨g, hg, hs⟩ := Option.bind_eq_some_iff.mp hs
  cases hs
  simp only [Shmlog.reserve, hwrap, Bool.false_eq_true, if_false, List.nil_append] at hg
  rw [Nat.mod_eq_of_lt (by omega)] at hg
  obtain ⟨-, hg⟩ := Option.ite_none_right_eq_some.mp hg
  cases hg
  have hlays := lays (P := P) s.ptr hnil
  constructor
  case row =>
    change Row P 0 (s.calls ++ [_]) (s.ptr + (c.bytes P).length)
    rw [row_append]
    exact ⟨s.ptr, h.row, rfl, rfl⟩
  case good =>
    intro q hq
    rcases List.mem_append.mp hq with hq | hq
    · exact h.good q hq
    rw [List.mem_singleton] at hq
    subst hq
    exact ⟨hnil, List.suffix_refl _, hlays.fills⟩
  case mark => exact .inr ⟨_, List.getLast?_concat .., hlays.mark⟩

theorem logInv_start (hm : m 0 = endMarker) : LogInv P (start m) :=
  ⟨rfl, fun _ hp => absurd hp List.not_mem_nil, .inl hm⟩

/-- The bytes of all calls, when there is nothing left to store. -/
theorem Row.rd_eq (h : Row P b ps e) (hg : ∀ p ∈ ps, Good P m p) (hq : ∀ p ∈ ps, p.left = []) :
    e = b + (recBytes (ps.flatMap fun p => p.call.recs P)).length ∧
      rd m b (recBytes (ps.flatMap fun p => p.call.recs P)).length = recBytes (ps.flatMap fun p => p.call.recs P) := by
  induction ps generalizing b with
  | nil => exact ⟨h.symm, rfl⟩
  | cons p ps ih =>
    obtain ⟨rfl, h⟩ := h
    obtain ⟨he, hrd⟩ := ih h (fun q hq => hg q (List.mem_cons_of_mem _ hq)) fun q hq' => hq q (List.mem_cons_of_mem _ hq')
    have hf := (hg p List.mem_cons_self).fills
    rw [hq p List.mem_cons_self] at hf
    rw [List.flatMap_cons, recBytes_append, List.length_append, rd_add]
    constructor
    · rw [he, Nat.add_assoc]
      rfl
    · exact congrArg₂ _ hf.done hrd

/-- When all calls are done, the log is read as the records in the order of the reservations. -/
theorem LogInv.parse (h : LogInv P s) (hq : Quiet s) {fuel : ℕ} (hf : (s.recs P).length < fuel) :
    parse s.mem fuel 0 = some ((s.recs P).map Rec.entry, s.ptr) := by
  obtain ⟨he, hrd⟩ := h.row.rd_eq h.good hq
  rw [Nat.zero_add] at he
  have hend : s.mem s.ptr = endMarker := by
    rcases h.mark with hm | ⟨p, hp, hm⟩
    · exact hm
    · rw [hq p (List.mem_of_getLast? hp)] at hm
      cases hm
  have hlast : s.mem (0 + (recBytes (s.recs P)).length) = endMarker := by
    rw [Nat.zero_add]
    exact (congrArg s.mem he.symm).trans hend
  rw [parse_recs hrd hlast hf, Nat.zero_add, he]
  rfl

end Invariant

/-! ## Whole runs -/

section Runs

variable {P : Params} {size : ℕ} {s : Log} {m : Mem}

/-- In each run in one cycle of the log, with end markers that come in time: once all calls are done, the log is read from its
start as exactly their records, in the order of the reservations, up to the end marker at the writers' position. -/
theorem reach_parse (hsz : size < 2 ^ 32) (hm : m 0 = endMarker)
    (h : Reach (logStep P size) (fun s a => InCycle P size s a ∧ Timely P s a) (start m) s) (hq : Quiet s) :
    ∀ fuel, (s.recs P).length < fuel → parse s.mem fuel 0 = some ((s.recs P).map Rec.entry, s.ptr) := by
  have hinv : LogInv P s := by
    refine h.inv (logInv_start hm) fun s a s' hi hok hs => ?_
    cases a with
    | reserve c => exact hi.reserve hsz hok.1 hs
    | store i => exact hi.store hok.2 hs
  exact fun fuel hf => hinv.parse hq hf

/-- The first thread makes all its stores before the second. -/
def timelyRun : List Act := [.reserve callA, .reserve callB] ++ List.replicate 10 (.store 0) ++ List.replicate 10 (.store 1)

theorem reach_parse_timelyRun : ∃ s, Reach (logStep stdParams 1000)
      (fun s a => InCycle stdParams 1000 s a ∧ Timely stdParams s a) (start fun _ => 0) s ∧ Quiet s ∧
    parse s.mem 3 0 = some ([⟨1, 7, [97]⟩, ⟨1, 8, [98]⟩], 18) := by
  have hres : (timelyRun.foldlM (logStep stdParams 1000) (start fun _ => 0)).map
      (fun s => (decide (Quiet s), s.recs stdParams, s.ptr)) =
        some (true, [stdParams.record tagDebug 7 [97], stdParams.record tagDebug 8 [98]], 18) := by
    decide +kernel
  obtain ⟨s, hs, hc⟩ := Option.map_eq_some_iff.mp hres
  obtain ⟨hq, hrecs, hptr⟩ : decide (Quiet s) = true ∧ s.recs stdParams = _ ∧ s.ptr = 18 := by simpa using hc
  have hreach : Reach (logStep stdParams 1000) (fun s a => InCycle stdParams 1000 s a ∧ Timely stdParams s a)
      (start fun _ => 0) s := Reach.of_run (by decide +kernel) hs
  have hparse := reach_parse (by decide) rfl hreach (of_decide_eq_true hq) 3 (by rw [hrecs]; decide)
  rw [hrecs, hptr] at hparse
  exact ⟨s, hreach, of_decide_eq_true hq, hparse⟩

/-- The second thread is done before the first one stores anything. -/
def lateRun : List Act := [.reserve callA, .reserve callB] ++ List.replicate 10 (.store 1) ++ List.replicate 10 (.store 0)

/-- The end marker of the first record takes the place of the second record's tag: one record is read, of two. -/
theorem tag_lost : ∃ s, Reach (logStep stdParams 1000) (InCycle stdParams 1000) (start fun _ => 0) s ∧ Quiet s ∧
    s.recs stdParams = [stdParams.record tagDebug 7 [97], stdParams.record tagDebug 8 [98]] ∧
    parse s.mem 3 0 = some ([⟨1, 7, [97]⟩], 9) := by
  have hres : (lateRun.foldlM (logStep stdParams 1000) (start fun _ => 0)).map
      (fun s => (decide (Quiet s), s.recs stdParams, parse s.mem 3 0)) =
        some (true, [stdParams.record tagDebug 7 [97], stdParams.record tagDebug 8 [98]],
          some ([⟨1, 7, [97]⟩], 9)) := by
    decide +kernel
  obtain ⟨s, hs, hc⟩ := Option.map_eq_some_iff.mp hres
  obtain ⟨hq, hrecs, hparse⟩ : decide (Quiet s) = true ∧ s.recs stdParams = _ ∧ parse s.mem 3 0 = _ := by
    simpa only [Prod.mk.injEq] using hc
  exact ⟨s, Reach.of_run (by decide +kernel) hs, of_decide_eq_true hq, hrecs, hparse⟩

end Runs

end Varnish.Shmlog
