import Varnish.Lib.Run
import Varnish.Shmlog.Model

/-!
# Varnish.Shmlog.Reader — one writer and one reader of the log

The writer's calls come one after another, store by store, and wrap when the log is full.  The reader polls with
`vsl_nextlog`; each turn of its loop may come between any two stores.

* `shmStep`: the writer and the reader.  `NotBehind`: the writer has not come to where the reader is, a cycle later.
* `ReadOk`: what the reader has got is a prefix of what was written; when the writer is idle the next record is the next one
  that is read, across a wrap; all stores are in the log.
* `reach_readOk`: it is so in every run in which the sum of the test for a wrap has 32 bits.
* `store_past`: a run in which it has not, and the end marker is stored behind the log.
-/

namespace Varnish.Shmlog

open Varnish.Lib

/-! ## The system -/

section System

variable (P : Params) (size : ℕ)

/-- A place in the log, and the cycle in which somebody is there. -/
structure Spot where
  cyc : ℕ
  off : ℕ
deriving DecidableEq

/-- The log with `loghead->ptr`, the stores the call in progress has not made yet and the records of all calls; `vd->ptr` of
the reader, the variable `p` of its loop, and what it has got. -/
structure Shm where
  mem : Mem
  w : Spot
  left : List Store
  written : List Rec
  vd : Spot
  p : Spot
  got : List Entry

inductive ShmAct
  | call (c : Call)
  | store
  | look
  | giveUp
  | timeout

/-- One turn of the loop in `vsl_nextlog`. -/
def look (s : Shm) : Shm :=
  if s.mem s.p.off = wrapMarker then { s with p := ⟨s.p.cyc + 1, 0⟩ }
  else if s.mem s.p.off = endMarker then s
  else
    let vd : Spot := ⟨s.p.cyc, s.p.off + shmlogLen s.mem s.p.off + 8⟩
    { s with vd := vd, p := vd, got := s.got ++ [entry s.mem s.p.off] }

/-- A call begins when the one before is done.  At an end marker the reader goes on, or it returns: at once when it does not
block, and then `vd->ptr` stays; or after a while, and then it is moved to `p`. -/
def shmStep (s : Shm) : ShmAct → Option Shm
  | .call c =>
    if c.recs P = [] then some s
    else if s.left ≠ [] then none
    else do
      let g ← reserve P size s.w.off c
      some
        { s with
          w := ⟨if wraps size s.w.off (c.need P) then s.w.cyc + 1 else s.w.cyc, g.ptr⟩
          left := g.held ++ g.todo
          written := s.written ++ c.recs P }
  | .store =>
    match s.left with
    | [] => none
    | x :: l => some { s with mem := x.apply s.mem, left := l }
  | .look => some (look s)
  | .giveUp => if s.mem s.p.off = endMarker then some { s with p := s.vd } else none
  | .timeout => if s.mem s.p.off = endMarker then some { s with vd := s.p } else none

/-- The log before the first call, with a reader at its start. -/
def shmStart (m : Mem) : Shm := ⟨m, ⟨0, 0⟩, [], [], ⟨0, 0⟩, ⟨0, 0⟩, []⟩

/-- A reader at `r` has not fallen a whole cycle behind a writer at `w`. -/
def NotBehind (w r : Spot) : Prop := r.cyc = w.cyc ∨ r.cyc + 1 = w.cyc ∧ w.off < r.off

/-- The log is large enough for the call, and the reader does not fall a whole cycle behind. -/
def Kept (s : Shm) : ShmAct → Prop
  | .call c => c.need P + 1 < size ∧ ∀ s' ∈ shmStep P size s (.call c), NotBehind s'.w s'.p
  | .giveUp => NotBehind s.w s.vd
  | _ => True

/-- The sum in the test for a wrap has 32 bits. -/
def NoOverflow (s : Shm) : ShmAct → Prop
  | .call c => s.w.off + c.need P + 1 < 2 ^ 32
  | _ => True

instance (w r : Spot) : Decidable (NotBehind w r) := inferInstanceAs (Decidable (_ ∨ _))

instance decKept (s : Shm) : (a : ShmAct) → Decidable (Kept P size s a)
  | .call c => inferInstanceAs (Decidable (_ ∧ ∀ s' ∈ shmStep P size s (.call c), NotBehind s'.w s'.p))
  | .giveUp => inferInstanceAs (Decidable (NotBehind s.w s.vd))
  | .store | .look | .timeout => isTrue trivial

instance decNoOverflow (s : Shm) : (a : ShmAct) → Decidable (NoOverflow P s a)
  | .call c => inferInstanceAs (Decidable (s.w.off + c.need P + 1 < 2 ^ 32))
  | .store | .look | .giveUp | .timeout => isTrue trivial

/-- Where the reader looks after a wrap marker. -/
def lookAt (s : Shm) : ℕ := if s.mem s.p.off = wrapMarker then 0 else s.p.off

structure ReadOk (s : Shm) : Prop where
  ptr : s.w.off < size
  stores : ∀ x ∈ s.left, x.1 < size
  noAssert : ∀ c, c.need P + 1 < size → s.w.off + c.need P + 1 < 2 ^ 32 → (reserve P size s.w.off c).isSome
  got : s.got <+: s.written.map Rec.entry
  next : s.left = [] → s.mem (lookAt s) ≠ wrapMarker ∧
    (s.mem (lookAt s) = endMarker → s.got = s.written.map Rec.entry) ∧
    (s.mem (lookAt s) ≠ endMarker → ∃ r, s.got ++ [r] <+: s.written.map Rec.entry ∧ entry s.mem (lookAt s) = r)

end System

/-! ## The invariant -/

section Invariant

variable {P : Params} {size : ℕ} {s s' : Shm} {old prev cur new : List Rec} {r : Spot}

/-- The reader is in front of a record of this cycle, or in front of one of the cycle before, or at the end of these. -/
def At (s : Shm) (old prev cur : List Rec) (r : Spot) : Prop :=
  (r.cyc = s.w.cyc ∧ ∃ a, a <+: cur ∧ r.off = (recBytes a).length ∧ s.got = (old ++ prev ++ a).map Rec.entry) ∨
  (r.cyc + 1 = s.w.cyc ∧ s.w.off < r.off ∧
    ∃ a, a <+: prev ∧ r.off = (recBytes a).length ∧ s.got = (old ++ a).map Rec.entry)

/-- How far a wrap is: `wl` are its stores that are not made yet. -/
inductive Stage (s : Shm) (prev cur : List Rec) : (wl : List Store) → Prop
  | none (hcur : s.mem (recBytes cur).length = endMarker)
      (hprev : s.w.off < (recBytes prev).length → s.mem (recBytes prev).length = wrapMarker) : Stage s prev cur []
  | mark (hcur : cur = []) (hw : s.w.off < (recBytes prev).length) (hprev : s.mem (recBytes prev).length = endMarker)
      (hp : s.p.cyc + 1 = s.w.cyc) (h0 : s.mem 0 = endMarker) : Stage s prev cur [((recBytes prev).length, wrapMarker)]
  | both (hcur : cur = []) (hw : s.w.off < (recBytes prev).length) (hprev : s.mem (recBytes prev).length = endMarker)
      (hp : s.p.cyc + 1 = s.w.cyc) : Stage s prev cur (vslWrap (recBytes prev).length)

/-- A call in progress, which adds the records `new`. -/
structure Busy (s : Shm) (prev cur new : List Rec) (wl sl stores : List Store) : Prop where
  left : s.left = wl ++ sl
  stage : Stage s prev cur wl
  lays : Lays (recBytes cur).length (recBytes new) stores
  suffix : sl <:+ stores
  some : sl ≠ []
  fills : Fills s.mem (recBytes cur).length (recBytes new) sl
  mark : s.mem s.w.off = endMarker ∨ (s.w.off, endMarker) ∈ sl

/-- No call is in progress. -/
structure Idle (s : Shm) (prev : List Rec) : Prop where
  left : s.left = []
  mark : s.mem s.w.off = endMarker
  prev : s.w.off < (recBytes prev).length → s.mem (recBytes prev).length = wrapMarker

/-- The records of the cycles before the last one, of the last one and of this one, without and with those of the call in
progress. -/
structure ShmInv (size : ℕ) (s : Shm) (old prev cur new : List Rec) : Prop where
  written : s.written = old ++ prev ++ (cur ++ new)
  ptr : s.w.off = (recBytes (cur ++ new)).length
  ptr_lt : s.w.off < size
  prev_lt : (recBytes prev).length < size
  filled : Fills s.mem 0 (recBytes cur) []
  past : ∀ i y, s.w.off < i → (recBytes prev)[i]? = some y → s.mem i = y
  at_p : At s old prev cur s.p
  at_vd : NotBehind s.w s.vd → At s old prev cur s.vd
  vd_le : s.vd.cyc ≤ s.p.cyc
  phase : (new = [] ∧ Idle s prev) ∨ ∃ wl sl stores, Busy s prev cur new wl sl stores

theorem At.le (h : At s old prev cur r) : r.cyc ≤ s.w.cyc := by
  rcases h with ⟨h, -⟩ | ⟨h, -⟩ <;> omega

/-- Only the writer's place, and what the reader has got, is used. -/
theorem At.congr (h : At s old prev cur r) (hw : s'.w = s.w) (hg : s'.got = s.got) : At s' old prev cur r := by
  unfold At at h ⊢
  rw [hw, hg]
  exact h

theorem At.extend (h : At s old prev cur r) (new : List Rec) : At s old prev (cur ++ new) r := by
  refine h.imp_left ?_
  rintro ⟨hc, a, ha, hoff, hgot⟩
  exact ⟨hc, a, ha.trans (List.prefix_append _ _), hoff, hgot⟩

/-- What a store leaves as it was, when it is not to a record of this cycle and not to what is left of the cycle before. -/
theorem ShmInv.afterStore {x : Store} {l : List Store} {cur' new' : List Rec} (h : ShmInv size s old prev cur new)
    (hcn : cur' ++ new' = cur ++ new) (hcur : cur <+: cur') (hx : s.w.off < x.1 → (recBytes prev).length ≤ x.1)
    (hfilled : Fills (x.apply s.mem) 0 (recBytes cur') [])
    (hphase : (new' = [] ∧ Idle { s with mem := x.apply s.mem, left := l } prev) ∨
      ∃ wl sl stores, Busy { s with mem := x.apply s.mem, left := l } prev cur' new' wl sl stores) :
    ShmInv size { s with mem := x.apply s.mem, left := l } old prev cur' new' where
  written := by
    rw [hcn]
    exact h.written
  ptr := by
    rw [hcn]
    exact h.ptr
  ptr_lt := h.ptr_lt
  prev_lt := h.prev_lt
  filled := hfilled
  past i y hi hy := by
    obtain ⟨hlt, -⟩ := List.getElem?_eq_some_iff.mp hy
    have hi : s.w.off < i := hi
    have hne : i ≠ x.1 := by
      rintro rfl
      have := hx hi
      omega
    exact (apply_of_ne hne).trans (h.past i y hi hy)
  at_p := by
    obtain ⟨b, rfl⟩ := hcur
    exact (h.at_p.extend b).congr rfl rfl
  at_vd hnb := by
    obtain ⟨b, rfl⟩ := hcur
    exact ((h.at_vd hnb).extend b).congr rfl rfl
  vd_le := h.vd_le
  phase := hphase

/-- One of the call's own stores. -/
theorem ShmInv.storeOwn {x : Store} {sl stores : List Store} (h : ShmInv size s old prev cur new)
    (hb : Busy s prev cur new [] (x :: sl) stores) :
    ∃ cur' new', ShmInv size { s with mem := x.apply s.mem, left := sl } old prev cur' new' := by
  obtain ⟨hlo, hhi, hmark⟩ := hb.lays.range (hb.suffix.subset List.mem_cons_self)
  have hptr := h.ptr
  rw [recBytes_append, List.length_append] at hptr
  obtain ⟨hcur, hprev⟩ : s.mem (recBytes cur).length = endMarker ∧
      (s.w.off < (recBytes prev).length → s.mem (recBytes prev).length = wrapMarker) := by
    cases hb.stage with
    | none hcur hprev => exact ⟨hcur, hprev⟩
  have hprev' : s.w.off < (recBytes prev).length → x.apply s.mem (recBytes prev).length = wrapMarker := by
    intro hlt
    rw [apply_of_ne (by omega)]
    exact hprev hlt
  have hfilled : Fills (x.apply s.mem) 0 (recBytes cur) [] := h.filled.other fun i hi he => absurd he (by omega)
  have hfills : Fills (x.apply s.mem) (recBytes cur).length (recBytes new) sl := by
    refine hb.fills.own fun i b hi hxi => ?_
    rcases hb.lays.right x (hb.suffix.subset List.mem_cons_self) with ⟨j, hj, hbj⟩ | rfl
    · obtain rfl : j = i := by omega
      exact Option.some.inj (hbj.symm.trans hi)
    · obtain ⟨hlt, -⟩ := List.getElem?_eq_some_iff.mp hi
      simp only at hxi
      omega
  have hmark' : x.apply s.mem s.w.off = endMarker ∨ (s.w.off, endMarker) ∈ sl := by
    by_cases he : s.w.off = x.1
    · left
      rw [he, apply_self]
      exact hmark (by omega)
    · rw [apply_of_ne he]
      refine hb.mark.imp_right fun hm => ?_
      rcases List.mem_cons.mp hm with rfl | hm
      · exact absurd rfl he
      · exact hm
  by_cases hsl : sl = []
  · -- the last one is the tag, and then the call is done
    subst hsl
    have hm : x.apply s.mem s.w.off = endMarker := hmark'.resolve_right List.not_mem_nil
    refine ⟨cur ++ new, [], h.afterStore (by simp) (List.prefix_append _ _) (fun hlt => absurd hlt (by omega)) ?_
      (.inl ⟨rfl, rfl, hm, hprev'⟩)⟩
    rw [recBytes_append]
    intro i b hi
    right
    rw [Nat.zero_add]
    by_cases hlt : i < (recBytes cur).length
    · rw [List.getElem?_append_left hlt] at hi
      simpa using hfilled i b hi
    · rw [List.getElem?_append_right (by omega)] at hi
      have := hfills _ b hi
      rw [Nat.add_sub_cancel' (by omega)] at this
      simpa using this
  · have hne : x.1 ≠ (recBytes cur).length := hb.lays.ne_base hb.suffix hsl
    refine ⟨cur, new, h.afterStore rfl (List.prefix_refl _) (fun hlt => absurd hlt (by omega)) hfilled
      (.inr ⟨[], sl, stores, rfl, ?_, hb.lays, ?_, hsl, hfills, hmark'⟩)⟩
    · exact .none ((apply_of_ne hne.symm).trans hcur) hprev'
    · exact (List.suffix_cons x sl).trans hb.suffix

/-- A store of `vsl_wrap`. -/
theorem ShmInv.storeWrap {x : Store} {wl sl stores : List Store} (h : ShmInv size s old prev cur new)
    (hb : Busy s prev cur new (x :: wl) sl stores) :
    ShmInv size { s with mem := x.apply s.mem, left := wl ++ sl } old prev cur new := by
  have hptr := h.ptr
  rw [recBytes_append, List.length_append] at hptr
  obtain ⟨v, hv⟩ := hb.lays.base_mem hb.suffix hb.some
  generalize hwl : x :: wl = l at hb
  cases hb.stage with
  | none hcur hprev => cases hwl
  | mark hcur hw hprev hp h0 =>
    cases hwl
    subst hcur
    simp only [recBytes_nil, List.length_nil, Nat.zero_add] at hptr hv
    refine h.afterStore rfl (List.prefix_refl _) (fun _ => le_refl _) (h.filled.other fun i hi _ => absurd hi (by simp))
      (.inr ⟨[], sl, stores, rfl, ?_, hb.lays, hb.suffix, hb.some, hb.fills.other fun i hi he => ?_, ?_⟩)
    · refine .none ?_ fun _ => apply_self s.mem ((recBytes prev).length, wrapMarker)
      exact (apply_of_ne (by simp only [recBytes_nil, List.length_nil]; omega)).trans h0
    · simp only [recBytes_nil, List.length_nil, Nat.zero_add] at he
      omega
    · have hne : s.w.off ≠ (recBytes prev).length := by omega
      exact hb.mark.imp_left (apply_of_ne hne).trans
  | both hcur hw hprev hp =>
    cases hwl
    subst hcur
    refine h.afterStore rfl (List.prefix_refl _) (fun hlt => absurd hlt (by simp))
      (h.filled.other fun i hi _ => absurd hi (by simp))
      (.inr ⟨_, sl, stores, rfl, ?_, hb.lays, hb.suffix, hb.some, hb.fills.other fun i hi he => ?_, ?_⟩)
    · have hne : (recBytes prev).length ≠ 0 := by omega
      exact .mark rfl hw ((apply_of_ne hne).trans hprev) hp (apply_self s.mem (0, endMarker))
    · have hi0 : i = 0 := by
        simp only [recBytes_nil, List.length_nil, Nat.zero_add] at he
        exact he.symm
      subst hi0
      exact ⟨v, hv⟩
    · by_cases he : s.w.off = 0
      · left
        rw [he]
        exact apply_self s.mem (0, endMarker)
      · exact hb.mark.imp_left (apply_of_ne he).trans

theorem ShmInv.store (h : ShmInv size s old prev cur new) (hs : shmStep P size s .store = some s') :
    ∃ cur' new', ShmInv size s' old prev cur' new' := by
  rw [shmStep] at hs
  rcases h.phase with ⟨-, hi⟩ | ⟨wl, sl, stores, hb⟩
  · rw [hi.left] at hs
    cases hs
  rw [hb.left] at hs
  cases wl with
  | nil =>
    obtain ⟨x, sl, rfl⟩ := List.exists_cons_of_ne_nil hb.some
    cases hs
    exact h.storeOwn hb
  | cons x wl =>
    cases hs
    exact ⟨cur, new, h.storeWrap hb⟩

/-- The space that a call gets, when the sum in the test for a wrap has 32 bits. -/
theorem reserve_eq {c : Call} {ptr : ℕ} (hptr : ptr < size) (hneed : c.need P + 1 < size) (hov : ptr + c.need P + 1 < 2 ^ 32) :
    ∃ base, base = (if wraps size ptr (c.need P) then 0 else ptr) ∧ base + (c.bytes P).length < size ∧
      reserve P size ptr c = some ⟨base, base + (c.bytes P).length,
        (if wraps size ptr (c.need P) then vslWrap ptr else []) ++ c.held P base, c.todo P base⟩ := by
  have hlen := length_le_need P c
  have hfit : (if wraps size ptr (c.need P) then 0 else ptr) + (c.bytes P).length < size := by
    by_cases hw : wraps size ptr (c.need P) = true
    · rw [if_pos hw]
      omega
    · rw [if_neg hw]
      rw [wraps, Nat.mod_eq_of_lt hov, decide_eq_true_eq] at hw
      omega
  refine ⟨_, rfl, hfit, ?_⟩
  have hmod : ((if wraps size ptr (c.need P) then 0 else ptr) + (c.bytes P).length) % 2 ^ 32 =
      (if wraps size ptr (c.need P) then 0 else ptr) + (c.bytes P).length := by
    refine Nat.mod_eq_of_lt ?_
    by_cases hw : wraps size ptr (c.need P) = true
    · rw [if_pos hw]
      omega
    · rw [if_neg hw]
      omega
  simp only [reserve]
  rw [hmod, if_pos]
  refine ⟨?_, hfit⟩
  cases c <;> simp [hptr]

theorem NotBehind.before {w w' r : Spot} (h : NotBehind w' r) (hle : r.cyc ≤ w.cyc)
    (hw : w'.cyc = w.cyc ∧ w.off ≤ w'.off ∨ w'.cyc = w.cyc + 1) : NotBehind w r := by
  unfold NotBehind at h ⊢
  omega

/-- A call that goes on where the last one was done. -/
theorem ShmInv.callOn {c : Call} (h : ShmInv size s old prev cur []) (hi : Idle s prev) (hrecs : c.recs P ≠ [])
    (hlt : s.w.off + (c.bytes P).length < size) (hnb : NotBehind ⟨s.w.cyc, s.w.off + (c.bytes P).length⟩ s.p) :
    ShmInv size
      { s with
        w := ⟨s.w.cyc, s.w.off + (c.bytes P).length⟩
        left := c.held P s.w.off ++ c.todo P s.w.off
        written := s.written ++ c.recs P } old prev cur (c.recs P) := by
  have hptr := h.ptr
  rw [List.append_nil] at hptr
  have hat : ∀ r : Spot, At s old prev cur r → NotBehind ⟨s.w.cyc, s.w.off + (c.bytes P).length⟩ r →
      At { s with
        w := ⟨s.w.cyc, s.w.off + (c.bytes P).length⟩
        left := c.held P s.w.off ++ c.todo P s.w.off
        written := s.written ++ c.recs P } old prev cur r := by
    intro r hr hn
    refine hr.imp_right ?_
    rintro ⟨hc, -, ha⟩
    refine ⟨hc, ?_, ha⟩
    rcases hn with hn | hn
    · simp only at hn
      omega
    · exact hn.2
  have hlays := lays (P := P) s.w.off hrecs
  constructor
  case written =>
    change s.written ++ c.recs P = _
    rw [h.written]
    simp
  case ptr =>
    change s.w.off + (c.bytes P).length = _
    rw [recBytes_append, List.length_append, hptr, Call.bytes]
  case ptr_lt => exact hlt
  case prev_lt => exact h.prev_lt
  case filled => exact h.filled
  case past =>
    intro i y hi hy
    change s.w.off + (c.bytes P).length < i at hi
    exact h.past i y (by omega) hy
  case at_p => exact hat _ h.at_p hnb
  case at_vd =>
    intro hn
    have hle : s.vd.cyc ≤ s.w.cyc := h.vd_le.trans h.at_p.le
    exact hat _ (h.at_vd (hn.before hle (.inl ⟨rfl, Nat.le_add_right _ _⟩))) hn
  case vd_le => exact h.vd_le
  case phase =>
    refine .inr ⟨[], _, _, rfl, ?_, by rw [← hptr]; exact hlays, List.suffix_refl _, ?_, by rw [← hptr]; exact hlays.fills, ?_⟩
    · refine .none ?_ fun hlt => hi.prev ?_
      · change s.mem _ = _
        rw [← hptr]
        exact hi.mark
      · change s.w.off + (c.bytes P).length < _ at hlt
        omega
    · exact List.ne_nil_of_mem hlays.mark
    · exact .inr hlays.mark

/-- A call that wraps. -/
theorem ShmInv.callWrap {c : Call} (h : ShmInv size s old prev cur []) (hi : Idle s prev) (hrecs : c.recs P ≠ [])
    (hlt : (c.bytes P).length < size) (hnb : NotBehind ⟨s.w.cyc + 1, (c.bytes P).length⟩ s.p) :
    ShmInv size
      { s with
        w := ⟨s.w.cyc + 1, (c.bytes P).length⟩
        left := vslWrap s.w.off ++ c.held P 0 ++ c.todo P 0
        written := s.written ++ c.recs P } (old ++ prev) cur [] (c.recs P) := by
  have hptr := h.ptr
  rw [List.append_nil] at hptr
  have hlays := lays (P := P) 0 hrecs
  have hat : ∀ r : Spot, r.cyc ≤ s.w.cyc → NotBehind ⟨s.w.cyc + 1, (c.bytes P).length⟩ r →
      (NotBehind s.w r → At s old prev cur r) → r.cyc = s.w.cyc ∧ (c.bytes P).length < r.off ∧
        ∃ a, a <+: cur ∧ r.off = (recBytes a).length ∧ s.got = (old ++ prev ++ a).map Rec.entry := by
    intro r hle hn hr
    rcases hn with hn | ⟨hn, hoff⟩
    · simp only at hn
      omega
    · have hc : r.cyc = s.w.cyc := by
        simp only at hn
        omega
      rcases hr (.inl hc) with ⟨-, ha⟩ | ⟨hr, -⟩
      · exact ⟨hc, hoff, ha⟩
      · omega
  obtain ⟨hpc, hpoff, a, ha, hpa, hgot⟩ := hat s.p h.at_p.le hnb fun _ => h.at_p
  have hfar : (c.bytes P).length < (recBytes cur).length := by
    have : (recBytes a).length ≤ (recBytes cur).length := by
      obtain ⟨b, rfl⟩ := ha
      rw [recBytes_append, List.length_append]
      omega
    omega
  constructor
  case written =>
    change s.written ++ c.recs P = _
    rw [h.written]
    simp
  case ptr => rfl
  case ptr_lt => exact hlt
  case prev_lt => exact hptr ▸ h.ptr_lt
  case filled =>
    intro i b hb
    cases hb
  case past =>
    intro i y _ hy
    simpa using h.filled i y hy
  case at_p => exact .inr ⟨by rw [hpc], hpoff, a, ha, hpa, hgot⟩
  case at_vd =>
    intro hn
    obtain ⟨hc, hoff, a, ha, hr, hgot⟩ := hat s.vd (h.vd_le.trans h.at_p.le) hn h.at_vd
    exact .inr ⟨by rw [hc], hoff, a, ha, hr, hgot⟩
  case vd_le => exact h.vd_le
  case phase =>
    refine .inr ⟨vslWrap (recBytes cur).length, c.held P 0 ++ c.todo P 0, _, ?_, ?_, hlays, List.suffix_refl _, ?_,
      hlays.fills, ?_⟩
    · rw [← hptr]
      exact List.append_assoc ..
    · refine .both rfl hfar ?_ (by rw [hpc])
      rw [← hptr]
      exact hi.mark
    · exact List.ne_nil_of_mem hlays.mark
    · right
      have := hlays.mark
      rw [Nat.zero_add] at this
      exact this

theorem ShmInv.call {c : Call} (h : ShmInv size s old prev cur new) (hk : Kept P size s (.call c))
    (hov : NoOverflow P s (.call c)) (hs : shmStep P size s (.call c) = some s') :
    ∃ old' prev' cur' new', ShmInv size s' old' prev' cur' new' := by
  obtain ⟨hneed, hnb⟩ := hk
  replace hnb := hnb s' hs
  rw [shmStep] at hs
  by_cases hrecs : c.recs P = []
  · rw [if_pos hrecs] at hs
    cases hs
    exact ⟨old, prev, cur, new, h⟩
  rw [if_neg hrecs] at hs
  rcases h.phase with ⟨rfl, hi⟩ | ⟨wl, sl, stores, hb⟩
  case inr =>
    rw [if_pos (by rw [hb.left]; simp [hb.some])] at hs
    cases hs
  rw [if_neg (by simp [hi.left])] at hs
  obtain ⟨base, hbase, hlt, hg⟩ := reserve_eq h.ptr_lt hneed hov
  rw [hg] at hs
  by_cases hw : wraps size s.w.off (c.need P) = true
  · rw [if_pos hw] at hbase
    subst hbase
    simp only [hw, if_true, Option.bind_eq_bind, Option.bind_some, Nat.zero_add] at hs hlt
    cases hs
    exact ⟨_, _, _, _, h.callWrap hi hrecs hlt hnb⟩
  · rw [if_neg hw] at hbase
    subst hbase
    simp only [hw, if_false, Option.bind_eq_bind, Option.bind_some, List.nil_append, Bool.false_eq_true] at hs hlt
    cases hs
    exact ⟨_, _, _, _, h.callOn hi hrecs hlt hnb⟩

/-! ## The reader -/

/-- The bytes of a record that is in its place. -/
theorem entry_of_fills {m : Mem} {off : ℕ} {r : Rec} (h : Fills m off r.bytes []) :
    shmlogLen m off = r.data.length ∧ entry m off = r.entry ∧ m off ≠ endMarker ∧ m off ≠ wrapMarker := by
  obtain ⟨hl, he⟩ := entry_of_rd h.done
  have htag : m off = r.tag.val := congrArg Entry.tag he
  exact ⟨hl, he, htag ▸ r.tag.notEnd, htag ▸ r.tag.notWrap⟩

theorem record_fills {m : Mem} {a b : List Rec} {r : Rec} (h : Fills m 0 (recBytes (a ++ r :: b)) []) :
    Fills m (recBytes a).length r.bytes [] := by
  intro i y hy
  obtain ⟨hlt, -⟩ := List.getElem?_eq_some_iff.mp hy
  have hget : (recBytes (a ++ r :: b))[(recBytes a).length + i]? = some y := by
    rw [recBytes_append, recBytes_cons, List.getElem?_append_right (by omega), Nat.add_sub_cancel_left,
      List.getElem?_append_left hlt]
    exact hy
  simpa using h _ y hget

/-- A record of the cycle before that the writer has not come to. -/
theorem ShmInv.past_record {a b : List Rec} {r : Rec} (h : ShmInv size s old (a ++ r :: b) cur new)
    (hoff : s.w.off < (recBytes a).length) : Fills s.mem (recBytes a).length r.bytes [] := by
  intro i y hy
  obtain ⟨hlt, -⟩ := List.getElem?_eq_some_iff.mp hy
  right
  refine h.past _ y (by omega) ?_
  rw [recBytes_append, recBytes_cons, List.getElem?_append_right (by omega), Nat.add_sub_cancel_left,
    List.getElem?_append_left hlt]
  exact hy

/-- What the reader finds: a record that is the next one, the wrap marker at the end of the cycle before, or an end marker. -/
theorem ShmInv.sees (h : ShmInv size s old prev cur new) :
    (∃ a r b, cur = a ++ r :: b ∧ s.p = ⟨s.w.cyc, (recBytes a).length⟩ ∧ s.got = (old ++ prev ++ a).map Rec.entry ∧
      Fills s.mem s.p.off r.bytes []) ∨
    (s.p = ⟨s.w.cyc, (recBytes cur).length⟩ ∧ s.got = (old ++ prev ++ cur).map Rec.entry ∧ s.mem s.p.off = endMarker) ∨
    (∃ a r b, prev = a ++ r :: b ∧ s.p.cyc + 1 = s.w.cyc ∧ s.p.off = (recBytes a).length ∧ s.w.off < s.p.off ∧
      s.got = (old ++ a).map Rec.entry ∧ Fills s.mem s.p.off r.bytes []) ∨
    (s.p.cyc + 1 = s.w.cyc ∧ s.p.off = (recBytes prev).length ∧ s.got = (old ++ prev).map Rec.entry ∧
      (s.mem s.p.off = wrapMarker ∨ s.mem s.p.off = endMarker ∧ s.left ≠ [])) := by
  rcases h.at_p with ⟨hc, a, ⟨b, rfl⟩, hoff, hgot⟩ | ⟨hc, hlt, a, ⟨b, rfl⟩, hoff, hgot⟩
  · have hp : s.p = ⟨s.w.cyc, (recBytes a).length⟩ := by rw [← hc, ← hoff]
    cases b with
    | cons r b => exact .inl ⟨a, r, b, rfl, hp, hgot, hoff ▸ record_fills h.filled⟩
    | nil =>
      right; left
      rw [List.append_nil] at h ⊢
      refine ⟨hp, hgot, ?_⟩
      rw [hoff]
      rcases h.phase with ⟨rfl, hi⟩ | ⟨wl, sl, stores, hb⟩
      · rw [← hi.mark, h.ptr, List.append_nil]
      · -- as long as the reader is in this cycle, a wrap is done
        cases hb.stage with
        | none hcur hprev => exact hcur
        | mark _ _ _ hp' _ => omega
        | both _ _ _ hp' => omega
  · cases b with
    | cons r b => exact .inr (.inr (.inl ⟨a, r, b, rfl, hc, hoff, hlt, hgot, hoff ▸ h.past_record (hoff ▸ hlt)⟩))
    | nil =>
      right; right; right
      rw [List.append_nil] at h ⊢
      refine ⟨hc, hoff, hgot, ?_⟩
      rw [hoff] at hlt ⊢
      rcases h.phase with ⟨rfl, hi⟩ | ⟨wl, sl, stores, hb⟩
      · exact .inl (hi.prev hlt)
      · have hleft : s.left ≠ [] := by
          rw [hb.left]
          simp [hb.some]
        cases hb.stage with
        | none hcur hprev => exact .inl (hprev hlt)
        | mark _ _ hprev _ _ => exact .inr ⟨hprev, hleft⟩
        | both _ _ hprev _ => exact .inr ⟨hprev, hleft⟩

/-- The reader moves. -/
theorem ShmInv.reader {vd p : Spot} {got : List Entry} (h : ShmInv size s old prev cur new)
    (hp : At { s with got := got } old prev cur p) (hvd : NotBehind s.w vd → At { s with got := got } old prev cur vd)
    (hle : vd.cyc ≤ p.cyc)
    (hst : s.mem (recBytes prev).length = endMarker → s.p.cyc + 1 = s.w.cyc → p.cyc + 1 = s.w.cyc) :
    ShmInv size { s with vd := vd, p := p, got := got } old prev cur new where
  written := h.written
  ptr := h.ptr
  ptr_lt := h.ptr_lt
  prev_lt := h.prev_lt
  filled := h.filled
  past := h.past
  at_p := hp.congr rfl rfl
  at_vd hn := (hvd hn).congr rfl rfl
  vd_le := hle
  phase := by
    refine h.phase.imp (fun ⟨hn, hi⟩ => ⟨hn, hi.left, hi.mark, hi.prev⟩) ?_
    rintro ⟨wl, sl, stores, hb⟩
    refine ⟨wl, sl, stores, hb.left, ?_, hb.lays, hb.suffix, hb.some, hb.fills, hb.mark⟩
    cases hb.stage with
    | none hcur hprev => exact .none hcur hprev
    | mark hcur hw hprev hp' h0 => exact .mark hcur hw hprev (hst hprev hp') h0
    | both hcur hw hprev hp' => exact .both hcur hw hprev (hst hprev hp')

theorem look_record (h : s.mem s.p.off ≠ wrapMarker) (h' : s.mem s.p.off ≠ endMarker) {n : ℕ}
    (hn : s.p.off + shmlogLen s.mem s.p.off + 8 = n) :
    look s = { s with vd := ⟨s.p.cyc, n⟩, p := ⟨s.p.cyc, n⟩, got := s.got ++ [entry s.mem s.p.off] } := by
  rw [look, if_neg h, if_neg h', hn]

theorem ShmInv.look (h : ShmInv size s old prev cur new) : ShmInv size (look s) old prev cur new := by
  rcases h.sees with ⟨a, r, b, rfl, hp, hgot, hf⟩ | ⟨hp, hgot, hm⟩ | ⟨a, r, b, rfl, hc, hoff, hlt, hgot, hf⟩ |
    ⟨hc, hoff, hgot, hm⟩
  · obtain ⟨hl, he, hne, hnw⟩ := entry_of_fills hf
    have hn : s.p.off + shmlogLen s.mem s.p.off + 8 = (recBytes (a ++ [r])).length := by
      rw [hl, hp, recBytes_append, recBytes_singleton, List.length_append, length_bytes]
      simp only
      omega
    rw [look_record hnw hne hn, he, hgot]
    have hat : At { s with got := (old ++ prev ++ a).map Rec.entry ++ [r.entry] } old prev (a ++ r :: b)
        ⟨s.p.cyc, (recBytes (a ++ [r])).length⟩ := by
      refine .inl ⟨by rw [hp], a ++ [r], ?_, rfl, by simp⟩
      exact ⟨b, by simp⟩
    exact h.reader hat (fun _ => hat) (le_refl _) fun _ hpc => hpc
  · have : Shmlog.look s = s := by
      rw [Shmlog.look, if_neg (by rw [hm]; decide), if_pos hm]
    rw [this]
    exact h
  · obtain ⟨hl, he, hne, hnw⟩ := entry_of_fills hf
    have hn : s.p.off + shmlogLen s.mem s.p.off + 8 = (recBytes (a ++ [r])).length := by
      rw [hl, hoff, recBytes_append, recBytes_singleton, List.length_append, length_bytes]
      omega
    rw [look_record hnw hne hn, he, hgot]
    have hat : At { s with got := (old ++ a).map Rec.entry ++ [r.entry] } old (a ++ r :: b) cur
        ⟨s.p.cyc, (recBytes (a ++ [r])).length⟩ := by
      refine .inr ⟨hc, ?_, a ++ [r], ⟨b, by simp⟩, rfl, by simp⟩
      simp only
      omega
    exact h.reader hat (fun _ => hat) (le_refl _) fun _ hpc => hpc
  · rcases hm with hm | ⟨hm, -⟩
    · rw [Shmlog.look, if_pos hm]
      refine h.reader (.inl ⟨hc, [], List.nil_prefix, rfl, by simpa using hgot⟩) h.at_vd (by have := h.vd_le; simp only; omega) ?_
      intro he
      rw [← hoff, hm] at he
      exact absurd he (by decide)
    · have : Shmlog.look s = s := by
        rw [Shmlog.look, if_neg (by rw [hm]; decide), if_pos hm]
      rw [this]
      exact h

theorem ShmInv.giveUp (h : ShmInv size s old prev cur new) (hn : NotBehind s.w s.vd) :
    ShmInv size { s with p := s.vd } old prev cur new := by
  refine h.reader (h.at_vd hn) (fun _ => h.at_vd hn) (le_refl _) fun _ hpc => ?_
  have := h.vd_le
  rcases hn with hn | hn
  · omega
  · exact hn.1

theorem ShmInv.timeout (h : ShmInv size s old prev cur new) : ShmInv size { s with vd := s.p } old prev cur new :=
  h.reader h.at_p (fun _ => h.at_p) (le_refl _) fun _ hpc => hpc

theorem shmInv_start {m : Mem} (hm : m 0 = endMarker) (hsz : 0 < size) : ShmInv size (shmStart m) [] [] [] [] := by
  have hat : At (shmStart m) [] [] [] ⟨0, 0⟩ := .inl ⟨rfl, [], List.nil_prefix, rfl, rfl⟩
  constructor
  case written => rfl
  case ptr => rfl
  case ptr_lt => exact hsz
  case prev_lt => exact hsz
  case filled =>
    intro i b hb
    cases hb
  case past =>
    intro i y _ hy
    cases hy
  case at_p => exact hat
  case at_vd => exact fun _ => hat
  case vd_le => exact le_refl _
  case phase => exact .inl ⟨rfl, rfl, hm, fun h => absurd h (Nat.not_lt_zero _)⟩

theorem ShmInv.got_prefix (h : ShmInv size s old prev cur new) : s.got <+: s.written.map Rec.entry := by
  rw [h.written]
  rcases h.at_p with ⟨-, a, ⟨b, rfl⟩, -, hgot⟩ | ⟨-, -, a, ⟨b, rfl⟩, -, hgot⟩
  · rw [hgot]
    exact List.IsPrefix.map _ ⟨b ++ new, by simp⟩
  · rw [hgot]
    exact List.IsPrefix.map _ ⟨b ++ (cur ++ new), by simp⟩

/-- When no call is in progress, the reader finds the next record, or there is none. -/
theorem ShmInv.next_here (h : ShmInv size s old prev cur new) (hl : s.left = []) (hw : s.mem s.p.off ≠ wrapMarker) :
    (s.mem s.p.off = endMarker → s.got = s.written.map Rec.entry) ∧
    (s.mem s.p.off ≠ endMarker → ∃ r, s.got ++ [r] <+: s.written.map Rec.entry ∧ entry s.mem s.p.off = r) := by
  have hnew : new = [] := by
    rcases h.phase with ⟨hn, -⟩ | ⟨wl, sl, stores, hb⟩
    · exact hn
    · have := hb.left
      rw [hl] at this
      simp [hb.some] at this
  subst hnew
  rw [h.written]
  rcases h.sees with ⟨a, r, b, rfl, -, hgot, hf⟩ | ⟨-, hgot, hm⟩ | ⟨a, r, b, rfl, -, -, -, hgot, hf⟩ | ⟨-, -, -, hm⟩
  · obtain ⟨-, he, hne, -⟩ := entry_of_fills hf
    refine ⟨fun hm => absurd hm hne, fun _ => ⟨r.entry, ?_, he⟩⟩
    rw [hgot]
    exact ⟨b.map Rec.entry, by simp⟩
  · exact ⟨fun _ => by rw [hgot, List.append_nil], fun hne => absurd hm hne⟩
  · obtain ⟨-, he, hne, -⟩ := entry_of_fills hf
    refine ⟨fun hm => absurd hm hne, fun _ => ⟨r.entry, ?_, he⟩⟩
    rw [hgot]
    exact ⟨(b ++ cur).map Rec.entry, by simp⟩
  · rcases hm with hm | ⟨-, hne⟩
    · exact absurd hm hw
    · exact absurd hl hne

/-- Behind a wrap marker there is no other one. -/
theorem ShmInv.sees_this (h : ShmInv size s old prev cur new) (hc : s.p.cyc = s.w.cyc) : s.mem s.p.off ≠ wrapMarker := by
  rcases h.sees with ⟨a, r, b, -, -, -, hf⟩ | ⟨-, -, hm⟩ | ⟨-, -, -, -, hp, -⟩ | ⟨hp, -⟩
  · exact (entry_of_fills hf).2.2.2
  · rw [hm]
    decide
  · omega
  · omega

theorem ShmInv.readOk (h : ShmInv size s old prev cur new) : ReadOk P size s where
  ptr := h.ptr_lt
  stores := by
    have hptr := h.ptr
    have hlt := h.ptr_lt
    have hprev := h.prev_lt
    rw [recBytes_append, List.length_append] at hptr
    intro x hx
    rcases h.phase with ⟨-, hi⟩ | ⟨wl, sl, stores, hb⟩
    · rw [hi.left] at hx
      cases hx
    rw [hb.left] at hx
    rcases List.mem_append.mp hx with hx | hx
    · cases hb.stage with
      | none => cases hx
      | mark =>
        rw [List.mem_singleton] at hx
        subst hx
        exact hprev
      | both =>
        simp only [vslWrap, List.mem_cons, List.not_mem_nil, or_false] at hx
        rcases hx with rfl | rfl
        · simp only
          omega
        · exact hprev
    · have := hb.lays.range (hb.suffix.subset hx)
      omega
  noAssert c hneed hov := by
    obtain ⟨base, -, -, hg⟩ := reserve_eq h.ptr_lt hneed hov
    rw [hg]
    rfl
  got := h.got_prefix
  next hl := by
    by_cases hw : s.mem s.p.off = wrapMarker
    · have h' := h.look
      have hlook : Shmlog.look s = { s with p := ⟨s.p.cyc + 1, 0⟩ } := by rw [Shmlog.look, if_pos hw]
      rw [hlook] at h'
      have hc : s.p.cyc + 1 = s.w.cyc := by
        rcases h.at_p with ⟨hc, -⟩ | ⟨hc, -⟩
        · exact absurd hw (h.sees_this hc)
        · exact hc
      have hnw := h'.sees_this hc
      rw [lookAt, if_pos hw]
      exact ⟨hnw, h'.next_here hl hnw⟩
    · rw [lookAt, if_neg hw]
      exact ⟨hw, h.next_here hl hw⟩

end Invariant

/-! ## Whole runs -/

section Runs

variable {P : Params} {size : ℕ} {s : Shm} {m : Mem}

/-- In each run with a reader that does not fall a whole cycle behind, and in which the sum in the test for a wrap has 32
bits, the reader gets what is written. -/
theorem reach_readOk (hm : m 0 = endMarker) (hsz : 0 < size)
    (h : Reach (shmStep P size) (fun s a => Kept P size s a ∧ NoOverflow P s a) (shmStart m) s) : ReadOk P size s := by
  have hinv : ∃ old prev cur new, ShmInv size s old prev cur new := by
    refine h.inv (I := fun s => ∃ old prev cur new, ShmInv size s old prev cur new)
      ⟨_, _, _, _, shmInv_start hm hsz⟩ ?_
    rintro s a s' ⟨old, prev, cur, new, hi⟩ ⟨hk, hov⟩ hs
    cases a with
    | call c => exact hi.call hk hov hs
    | store =>
      obtain ⟨cur', new', hi'⟩ := hi.store hs
      exact ⟨_, _, _, _, hi'⟩
    | look =>
      cases hs
      exact ⟨_, _, _, _, hi.look⟩
    | giveUp =>
      obtain ⟨-, hs⟩ := Option.ite_none_right_eq_some.mp hs
      cases hs
      exact ⟨_, _, _, _, hi.giveUp hk⟩
    | timeout =>
      obtain ⟨-, hs⟩ := Option.ite_none_right_eq_some.mp hs
      cases hs
      exact ⟨_, _, _, _, hi.timeout⟩
  obtain ⟨old, prev, cur, new, hi⟩ := hinv
  exact hi.readOk

/-- Three records in a log of 22 bytes; the last one is written after a wrap, and the reader does not block. -/
def wrapRun : List ShmAct :=
  (List.replicate 2 ([.call callA] ++ List.replicate 10 .store ++ [.look, .giveUp])).flatten ++
    [.call callB] ++ List.replicate 12 .store ++ [.look, .look]

theorem reach_readOk_wrapRun : ∃ s, Reach (shmStep stdParams 22) (fun s a => Kept stdParams 22 s a ∧ NoOverflow stdParams s a)
      (shmStart fun _ => 0) s ∧ s.w = ⟨1, 9⟩ ∧ s.got = List.replicate 2 ⟨1, 7, [97]⟩ ++ [⟨1, 8, [98]⟩] ∧
    ReadOk stdParams 22 s := by
  have hres : (wrapRun.foldlM (shmStep stdParams 22) (shmStart fun _ => 0)).map (fun s => (s.w, s.got)) =
      some (⟨1, 9⟩, List.replicate 2 ⟨1, 7, [97]⟩ ++ [⟨1, 8, [98]⟩]) := by
    decide +kernel
  obtain ⟨s, hs, hc⟩ := Option.map_eq_some_iff.mp hres
  obtain ⟨hw, hgot⟩ := Prod.mk.inj hc
  have hreach : Reach (shmStep stdParams 22) (fun s a => Kept stdParams 22 s a ∧ NoOverflow stdParams s a)
      (shmStart fun _ => 0) s := Reach.of_run (by decide +kernel) hs
  exact ⟨s, hreach, hw, hgot, reach_readOk rfl (by decide) hreach⟩

/-- A call makes all its stores. -/
theorem reach_drain {s₀ : Shm} (h : Reach (shmStep P size) (Kept P size) s₀ s) :
    ∃ s', Reach (shmStep P size) (Kept P size) s₀ s' ∧ s'.w = s.w ∧ s'.p = s.p ∧ s'.left = [] := by
  generalize hl : s.left = l
  induction l generalizing s with
  | nil => exact ⟨s, h, rfl, rfl, hl⟩
  | cons x l ih =>
    have hs : shmStep P size s .store = some { s with mem := x.apply s.mem, left := l } := by rw [shmStep, hl]
    exact ih (s := { s with mem := x.apply s.mem, left := l }) (h.tail .store trivial hs) rfl

/-- A record of 65535 bytes, and a worker's buffer that is full of such. -/
def longRec : Rec := ⟨tagDebug, 7, List.replicate 65535 0, by rw [List.length_replicate]; decide⟩

def longFlush (n : ℕ) : Call := .flush (List.replicate n longRec)

theorem length_longFlush (n : ℕ) : ((longFlush n).bytes stdParams).length = n * 65543 := by
  have hdata : longRec.data.length = 65535 := List.length_replicate
  have hlong : longRec.bytes.length = 65543 := by rw [length_bytes, hdata]
  change (recBytes (List.replicate n longRec)).length = n * 65543
  induction n with
  | zero => rfl
  | succ n ih =>
    rw [List.replicate_succ, recBytes_cons, List.length_append, ih, hlong]
    omega

/-- Such a flush does not wrap, when the sum is small in 32 bits. -/
theorem reach_longFlush {s₀ : Shm} {n : ℕ} (h : Reach (shmStep stdParams size) (Kept stdParams size) s₀ s) (hn : n ≠ 0)
    (hl : s.left = []) (hp : s.p.cyc = s.w.cyc) (hfit : n * 65543 + 1 < size)
    (hw : wraps size s.w.off (n * 65543) = false) (hlt : (s.w.off + n * 65543) % 2 ^ 32 < size) :
    ∃ s', Reach (shmStep stdParams size) (Kept stdParams size) s₀ s' ∧ s'.w = ⟨s.w.cyc, (s.w.off + n * 65543) % 2 ^ 32⟩ ∧
      s'.p = s.p ∧ (s.w.off + n * 65543, endMarker) ∈ s'.left := by
  have hneed : (longFlush n).need stdParams = n * 65543 := length_longFlush n
  have hrecs : (longFlush n).recs stdParams ≠ [] := by
    change List.replicate n longRec ≠ []
    rw [Ne, List.replicate_eq_nil_iff]
    exact hn
  have hg : reserve stdParams size s.w.off (longFlush n) = some ⟨s.w.off, (s.w.off + n * 65543) % 2 ^ 32,
      (longFlush n).held stdParams s.w.off, (longFlush n).todo stdParams s.w.off⟩ := by
    simp only [reserve, hneed, hw, length_longFlush, Bool.false_eq_true, if_false, List.nil_append]
    exact if_pos ⟨rfl, hlt⟩
  have hs : shmStep stdParams size s (.call (longFlush n)) = some
      { s with
        w := ⟨s.w.cyc, (s.w.off + n * 65543) % 2 ^ 32⟩
        left := (longFlush n).held stdParams s.w.off ++ (longFlush n).todo stdParams s.w.off
        written := s.written ++ (longFlush n).recs stdParams } := by
    rw [shmStep, if_neg hrecs, if_neg (by simp [hl]), hg, hneed, hw]
    rfl
  have hk : Kept stdParams size s (.call (longFlush n)) := by
    refine ⟨by rw [hneed]; exact hfit, fun s' hs' => ?_⟩
    cases hs.symm.trans hs'
    have hnot : ∀ off, NotBehind ⟨s.w.cyc, off⟩ s.p := fun _ => .inl hp
    exact hnot _
  refine ⟨_, h.tail _ hk hs, rfl, rfl, ?_⟩
  have hmark := (lays (P := stdParams) s.w.off hrecs).mark
  rw [length_longFlush] at hmark
  exact hmark

/-- Two flushes of 2 GB and 2.6 GB to a log of 4.29 GB: the sum in the test for a wrap is too large for 32 bits, and the end
marker is stored behind the log. -/
theorem store_past : ∃ s, Reach (shmStep stdParams 4294900000) (Kept stdParams 4294900000) (shmStart fun _ => 0) s ∧
    ¬ ReadOk stdParams 4294900000 s := by
  have hr₀ : Reach (shmStep stdParams 4294900000) (Kept stdParams 4294900000) (shmStart fun _ => 0) (shmStart fun _ => 0) := Reach.refl
  obtain ⟨s₁, hr₁, hw₁, hp₁, -⟩ := reach_longFlush (n := 30000) hr₀
    (by decide) rfl rfl (by decide) (by decide) (by decide)
  obtain ⟨s₂, hr₂, hw₂, hp₂, hl₂⟩ := reach_drain hr₁
  have hw : s₂.w = ⟨0, 1966290000⟩ := hw₂.trans hw₁
  obtain ⟨s₃, hr₃, -, -, hm⟩ := reach_longFlush (n := 40000) hr₂ (by decide) hl₂ (by rw [hp₂, hp₁, hw]; rfl) (by decide)
    (by rw [hw]; decide) (by rw [hw]; decide)
  refine ⟨s₃, hr₃, fun hok => ?_⟩
  have hlt : s₂.w.off + 40000 * 65543 < 4294900000 := hok.stores _ hm
  rw [hw] at hlt
  exact absurd hlt (by decide)

end Runs

end Varnish.Shmlog
