import Mathlib.Data.Int.Notation
import Mathlib.Data.List.Nodup
import Mathlib.Logic.Function.Basic
import Varnish.Lib.Run
import Varnish.Lib.Slots

/-!
# Varnish.Vev.Poll — the poll table of the event loop (`vev.c`)

* `vevAdd`, `vevDel`, `vevCompactPfd`: the events and their slots.  A deletion marks a slot, and the compaction moves the last slot into a hole.
* `Table`: the events with a descriptor correspond one to one to the slots in use.
* `compact_iff`: the compaction keeps the table in order if and only if it finds the right event for each slot that it moves.
* `reach_table`: the table is in order in every state of a run whose compactions do.
-/

namespace Varnish.Vev

open Varnish.Lib Set

/-! ## The table -/

section Model

/-- `struct vev`: `fd`, `fd_flags` and `__poll_idx`, which counts for an event with a descriptor only. -/
structure Ev where
  fd : ℤ
  flags : ℕ
  pollIdx : ℕ

/-- `struct pollfd` -/
structure Slot where
  fd : ℤ
  events : ℕ
deriving DecidableEq

/-- `struct vev_base`.  What is behind `lpfd` in the table is left over. -/
structure Base where
  events : List ℕ
  ev : ℕ → Ev
  pfd : ℕ → Slot
  npfd : ℕ
  lpfd : ℕ
  compactPfd : UInt8

/-- `vev_get_pfd`, when `realloc` has memory or not. -/
def vevGetPfd (s : Base) (mem : Bool) : Option Base :=
  if s.lpfd + 1 < s.npfd then some s
  else if mem then some { s with npfd := if s.npfd < 8 then 8 else if 256 < s.npfd then s.npfd + 256 else s.npfd * 2 }
  else none

/-- `vev_new_base` -/
def vevNewBase (ev : ℕ → Ev) (pfd : ℕ → Slot) : Base where
  events := []
  ev := ev
  pfd := pfd
  npfd := 8
  lpfd := 0
  compactPfd := 0

/-- `EV_RD|EV_WR|EV_ERR|EV_HUP` -/
def evMask : ℕ := 29

/-- The event gets the next slot, and is the first of the list. -/
def Base.push (s : Base) (e : ℕ) (fd : ℤ) (flags : ℕ) : Base :=
  { s with
    events := e :: s.events
    ev := Function.update s.ev e ⟨fd, flags, s.lpfd⟩
    pfd := Function.update s.pfd s.lpfd ⟨fd, flags &&& evMask⟩
    lpfd := s.lpfd + 1 }

/-- An event without a descriptor is the last of the list. -/
def Base.append (s : Base) (e : ℕ) (fd : ℤ) (flags : ℕ) : Base :=
  { s with events := s.events ++ [e], ev := Function.update s.ev e ⟨fd, flags, 0⟩ }

/-- `vev_add`; `sig`: the table of signals has room for the event, and its signal is not taken.  `none` is a failed assertion. -/
def vevAdd (s : Base) (e : ℕ) (fd : ℤ) (flags : ℕ) (sig mem : Bool) : Option Base :=
  if e ∈ s.events ∨ ¬ (fd < 0 ∨ flags ≠ 0) then none
  else
    match if 0 ≤ fd then vevGetPfd s mem else some s with
    | none => some s
    | some s =>
      if !sig then some s
      else if 0 ≤ fd then if s.npfd ≤ s.lpfd then none else some (s.push e fd flags)
      else some (s.append e fd flags)

/-- The slot of the event is marked, and the event taken from the list. -/
def Base.mark (s : Base) (e : ℕ) : Base :=
  { s with
    events := s.events.erase e
    ev := Function.update s.ev e { s.ev e with fd := -1 }
    pfd := Function.update s.pfd (s.ev e).pollIdx { s.pfd (s.ev e).pollIdx with fd := -1 } }

/-- `vev_del` -/
def vevDel (s : Base) (e : ℕ) : Option Base :=
  if e ∉ s.events then none
  else if 0 ≤ (s.ev e).fd then
    if (s.ev e).pollIdx = s.lpfd - 1 then some { s.mark e with lpfd := s.lpfd - 1 }
    else some { s.mark e with compactPfd := s.compactPfd + 1 }
  else some { s with events := s.events.erase e }

/-- The first event of the list with the descriptor. -/
def Base.firstWith (s : Base) (fd : ℤ) : Option ℕ := s.events.find? fun e => (s.ev e).fd = fd

/-- The last slot is moved to `u`, and `ep` gets it. -/
def Base.moveTo (s : Base) (u ep : ℕ) : Base :=
  { s with
    pfd := Function.update s.pfd u (s.pfd (s.lpfd - 1))
    lpfd := s.lpfd - 1
    ev := Function.update s.ev ep { s.ev ep with pollIdx := u } }

/-- The loop of `vev_compact_pfd` from `u` on. -/
def compactLoop : (fuel : ℕ) → Base → (u : ℕ) → Option Base
  | 0, _, _ => none
  | fuel + 1, s, u =>
    if u < s.lpfd then
      if 0 ≤ (s.pfd u).fd then compactLoop fuel s (u + 1)
      else if u = s.lpfd - 1 then some { s with lpfd := u, compactPfd := 0 }
      else
        match s.firstWith (s.pfd (s.lpfd - 1)).fd with
        | none => none
        | some ep => compactLoop fuel (s.moveTo u ep) (u + 1)
    else some { s with lpfd := u, compactPfd := 0 }

def vevCompactPfd (s : Base) : Option Base := compactLoop (s.lpfd + 1) s 0

/-- What happens to the table: calls of `vev_add` and `vev_del`, inside of callbacks or not, and what `vev_schedule_one` does. -/
inductive Act
  | add (e : ℕ) (fd : ℤ) (flags : ℕ) (sig mem : Bool)
  | del (e : ℕ)
  /-- before it polls -/
  | compact
  /-- it looks at the slot of an event -/
  | look (e : ℕ)
deriving DecidableEq

def vevStep (s : Base) : Act → Option Base
  | .add e fd flags sig mem => vevAdd s e fd flags sig mem
  | .del e => vevDel s e
  | .compact => if s.compactPfd ≠ 0 then vevCompactPfd s else some s
  | .look e =>
    if (s.ev e).fd < 0 then some s
    else if (s.ev e).pollIdx < s.lpfd ∧ (s.pfd (s.ev e).pollIdx).fd = (s.ev e).fd then some s
    else none

/-- The calls that are made: an event is added when it is not there, with flags if it has a descriptor. -/
def Act.Called (s : Base) : Act → Prop
  | .add e fd flags _ _ => e ∉ s.events ∧ (fd < 0 ∨ flags ≠ 0)
  | .del e => e ∈ s.events
  | .compact => True
  | .look e => e ∈ s.events

instance (s : Base) (a : Act) : Decidable (a.Called s) :=
  match a with
  | .add e fd flags _ _ => inferInstanceAs (Decidable (e ∉ s.events ∧ (fd < 0 ∨ flags ≠ 0)))
  | .del e => inferInstanceAs (Decidable (e ∈ s.events))
  | .compact => inferInstanceAs (Decidable True)
  | .look e => inferInstanceAs (Decidable (e ∈ s.events))

end Model

/-! ## What it has to be like -/

section Spec

/-- The events that are polled. -/
def Base.live (s : Base) : Set ℕ := {e | e ∈ s.events ∧ 0 ≤ (s.ev e).fd}

/-- **The table is in order.** -/
structure Table (s : Base) : Prop where
  one_to_one : BijOn (fun e => (s.ev e).pollIdx) s.live {u | u < s.lpfd ∧ 0 ≤ (s.pfd u).fd}
  slot : ∀ e ∈ s.live, s.pfd (s.ev e).pollIdx = ⟨(s.ev e).fd, (s.ev e).flags &&& evMask⟩
  room : s.lpfd < s.npfd

/-- How many holes there are below `u`. -/
def Base.holes (s : Base) (u : ℕ) : ℕ := ((List.range u).filter fun v => (s.pfd v).fd < 0).length

/-- The compaction gets every slot moved right.  Into the hole at `u`, which is hole number `k`, it moves the slot `k` places from the
end, unless that is the hole itself or before it: there is an event with the descriptor of that slot, and if it is a descriptor then the
first such event in the list is the one that has the slot. -/
def MovesRight (s : Base) (u : ℕ) : Prop :=
  (s.pfd u).fd < 0 → u + (s.holes u + 1) < s.lpfd → ∃ e ∈ s.firstWith (s.pfd (s.lpfd - (s.holes u + 1))).fd,
    0 ≤ (s.pfd (s.lpfd - (s.holes u + 1))).fd → (s.ev e).pollIdx = s.lpfd - (s.holes u + 1)

def Compactable (s : Base) : Prop := ∀ u < s.lpfd, MovesRight s u

/-- The condition on a step. -/
def Act.Cond (s : Base) : Act → Prop
  | .compact => s.compactPfd ≠ 0 → Compactable s
  | _ => True

instance (s : Base) (u : ℕ) : Decidable (MovesRight s u) := inferInstanceAs (Decidable (_ → _ → _))

instance (s : Base) : Decidable (Compactable s) := inferInstanceAs (Decidable (∀ u < s.lpfd, MovesRight s u))

instance (s : Base) (a : Act) : Decidable (a.Cond s) :=
  match a with
  | .compact => inferInstanceAs (Decidable (s.compactPfd ≠ 0 → Compactable s))
  | .add .. | .del _ | .look _ => inferInstanceAs (Decidable True)

end Spec

/-! ## Adding and deleting -/

section Steps

variable {s s' t : Base} {e k u : ℕ} {fd : ℤ} {flags : ℕ} {sig mem : Bool} {a : Act}

/-- The invariant of a run. -/
structure Inv (s : Base) : Prop where
  table : Table s
  nodup : s.events.Nodup

theorem Table.lt (h : Table s) (he : e ∈ s.live) : (s.ev e).pollIdx < s.lpfd := (h.one_to_one.mapsTo he).1

/-- An order of the table does not depend on how large it is, or on how many holes were counted. -/
theorem Table.resize (h : Table s) {n : ℕ} (c : UInt8) (hn : s.lpfd < n) : Table { s with npfd := n, compactPfd := c } :=
  ⟨h.one_to_one, h.slot, hn⟩

/-- A hole at the end is cut off. -/
theorem Table.shrink (h : Table s) (hu : s.lpfd = u + 1) (hhole : (s.pfd u).fd < 0) (c : UInt8) : Table { s with lpfd := u, compactPfd := c } := by
  have hb := h.one_to_one
  have hroom := h.room
  rw [hu] at hb hroom
  exact ⟨bijOn_shrink hb (Int.not_le.mpr hhole), h.slot, Nat.lt_of_succ_lt hroom⟩

theorem vevGetPfd_spec (h : s.lpfd < s.npfd) (hs : vevGetPfd s mem = some s') : ∃ n, s' = { s with npfd := n } ∧ s.lpfd + 1 < n := by
  rw [vevGetPfd] at hs
  split at hs
  · rename_i hroom
    cases hs
    exact ⟨s.npfd, rfl, hroom⟩
  · split at hs
    · cases hs
      refine ⟨_, rfl, ?_⟩
      split
      · omega
      · split <;> omega
    · cases hs

/-- An event without a descriptor, or no event any more, has no slot. -/
theorem table_of_live (h : Table s) (ht : t.lpfd = s.lpfd ∧ t.npfd = s.npfd ∧ t.pfd = s.pfd) (hlive : t.live = s.live)
    (hev : ∀ e ∈ s.live, t.ev e = s.ev e) : Table t := by
  obtain ⟨h1, h2, h3⟩ := ht
  refine ⟨?_, fun e he => ?_, ?_⟩
  · rw [hlive, h1, h3]
    exact bijOn_congr h.one_to_one (fun e he => congrArg Ev.pollIdx (hev e he)) fun _ _ => Iff.rfl
  · rw [hlive] at he
    rw [h3, hev e he]
    exact h.slot e he
  · rw [h1, h2]
    exact h.room

theorem Table.push (h : Table s) (he : e ∉ s.events) (hfd : 0 ≤ fd) (hroom : s.lpfd + 1 < s.npfd) : Table (s.push e fd flags) := by
  have hne : ∀ j ∈ s.events, j ≠ e := fun j hj hje => he (hje ▸ hj)
  have hev : ∀ j ∈ s.events, (s.push e fd flags).ev j = s.ev j := fun j hj => Function.update_of_ne (hne j hj) _ _
  have hnew : (s.push e fd flags).ev e = ⟨fd, flags, s.lpfd⟩ := Function.update_self _ _ _
  have hlast : (s.push e fd flags).pfd s.lpfd = ⟨fd, flags &&& evMask⟩ := Function.update_self _ _ _
  have hpfd : ∀ u < s.lpfd, (s.push e fd flags).pfd u = s.pfd u := fun u hu => Function.update_of_ne (Nat.ne_of_lt hu) _ _
  have hlive : (s.push e fd flags).live = insert e s.live := by
    ext j
    rw [mem_insert_iff]
    constructor
    · rintro ⟨hj, hjfd⟩
      rcases List.mem_cons.mp hj with rfl | hj
      · exact .inl rfl
      · rw [hev j hj] at hjfd
        exact .inr ⟨hj, hjfd⟩
    · rintro (rfl | ⟨hj, hjfd⟩)
      · exact ⟨List.mem_cons_self, by rw [hnew]; exact hfd⟩
      · exact ⟨List.mem_cons_of_mem _ hj, by rw [hev j hj]; exact hjfd⟩
  refine ⟨?_, fun j hj => ?_, hroom⟩
  · rw [hlive]
    refine bijOn_push h.one_to_one (fun j hj => ?_) ?_ (fun u hu => ?_) ?_
    · rw [hev j hj.1]
    · rw [hnew]
    · rw [hpfd u hu]
    · rw [hlast]
      exact hfd
  · rw [hlive, mem_insert_iff] at hj
    rcases hj with rfl | hj
    · rw [hnew, hlast]
    · rw [hev j hj.1, hpfd _ (h.lt hj)]
      exact h.slot j hj

theorem Table.append (h : Table s) (he : e ∉ s.events) (hfd : ¬ 0 ≤ fd) : Table (s.append e fd flags) := by
  have hne : ∀ j ∈ s.events, j ≠ e := fun j hj hje => he (hje ▸ hj)
  have hev : ∀ j ∈ s.events, (s.append e fd flags).ev j = s.ev j := fun j hj => Function.update_of_ne (hne j hj) _ _
  have hnew : (s.append e fd flags).ev e = ⟨fd, flags, 0⟩ := Function.update_self _ _ _
  refine table_of_live h ⟨rfl, rfl, rfl⟩ ?_ fun j hj => hev j hj.1
  ext j
  constructor
  · rintro ⟨hj, hjfd⟩
    rcases List.mem_append.mp hj with hj | hj
    · rw [hev j hj] at hjfd
      exact ⟨hj, hjfd⟩
    · rw [List.mem_singleton.mp hj, hnew] at hjfd
      exact absurd hjfd hfd
  · rintro ⟨hj, hjfd⟩
    exact ⟨List.mem_append_left _ hj, by rw [hev j hj]; exact hjfd⟩

/-- `vev_add` keeps the table in order. -/
theorem vevAdd_spec (h : Inv s) (he : e ∉ s.events) (hfl : fd < 0 ∨ flags ≠ 0) : ∃ s', vevAdd s e fd flags sig mem = some s' ∧ Inv s' := by
  have hcheck : ¬ (e ∈ s.events ∨ ¬ (fd < 0 ∨ flags ≠ 0)) := not_or.mpr ⟨he, not_not.mpr hfl⟩
  rw [vevAdd, if_neg hcheck]
  by_cases hfd : 0 ≤ fd
  · rw [if_pos hfd]
    cases hget : vevGetPfd s mem with
    | none => exact ⟨s, rfl, h⟩
    | some s₁ =>
      obtain ⟨n, rfl, hn⟩ := vevGetPfd_spec h.table.room hget
      have hres : Table { s with npfd := n } := h.table.resize s.compactPfd (Nat.lt_of_succ_lt hn)
      dsimp only
      cases sig with
      | false => exact ⟨_, rfl, hres, h.nodup⟩
      | true =>
        rw [if_neg (by decide), if_pos hfd, if_neg (Nat.not_le_of_lt (Nat.lt_of_succ_lt hn))]
        exact ⟨_, rfl, hres.push he hfd hn, List.nodup_cons.mpr ⟨he, h.nodup⟩⟩
  · rw [if_neg hfd]
    dsimp only
    cases sig with
    | false => exact ⟨_, rfl, h⟩
    | true =>
      rw [if_neg (by decide), if_neg hfd]
      have hnodup : (s.events ++ [e]).Nodup := h.nodup.append (List.nodup_singleton e) (List.disjoint_singleton.mpr he)
      exact ⟨_, rfl, h.table.append he hfd, hnodup⟩

/-- A marked slot is a hole, and its event is gone. -/
theorem Table.mark (h : Table s) (hnd : s.events.Nodup) (he : e ∈ s.live) (c : UInt8) : Table { s.mark e with compactPfd := c } := by
  have hev : ∀ j, j ≠ e → (s.mark e).ev j = s.ev j := fun j hj => Function.update_of_ne hj _ _
  have hhole : ((s.mark e).pfd (s.ev e).pollIdx).fd = -1 := by
    show (Function.update s.pfd _ _ _).fd = -1
    rw [Function.update_self]
  have hpfd : ∀ u, u ≠ (s.ev e).pollIdx → (s.mark e).pfd u = s.pfd u := fun u hu => Function.update_of_ne hu _ _
  have hlive : ∀ j, j ∈ (s.mark e).live ↔ j ∈ s.live ∧ j ≠ e := by
    intro j
    have hmem : j ∈ (s.mark e).events ↔ j ∈ s.events ∧ j ≠ e := (hnd.mem_erase_iff).trans and_comm
    constructor
    · rintro ⟨hj, hjfd⟩
      obtain ⟨hj, hje⟩ := hmem.mp hj
      rw [hev j hje] at hjfd
      exact ⟨⟨hj, hjfd⟩, hje⟩
    · rintro ⟨⟨hj, hjfd⟩, hje⟩
      exact ⟨hmem.mpr ⟨hj, hje⟩, by rw [hev j hje]; exact hjfd⟩
  refine ⟨?_, fun j hj => ?_, h.room⟩
  · refine bijOn_remove h.one_to_one he hlive (fun j hj => ?_) fun u hu => ?_
    · exact congrArg Ev.pollIdx (hev j ((hlive j).mp hj).2)
    · by_cases hue : u = (s.ev e).pollIdx
      · refine iff_of_false ?_ fun hcon => hcon.2 hue
        show ¬ 0 ≤ ((s.mark e).pfd u).fd
        rw [hue, hhole]
        decide
      · show 0 ≤ ((s.mark e).pfd u).fd ↔ _
        rw [hpfd u hue, and_iff_left hue]
  · obtain ⟨hj', hje⟩ := (hlive j).mp hj
    have hidx : (s.ev j).pollIdx ≠ (s.ev e).pollIdx := fun heq => hje (h.one_to_one.injOn hj' he heq)
    show (s.mark e).pfd ((s.mark e).ev j).pollIdx = ⟨((s.mark e).ev j).fd, ((s.mark e).ev j).flags &&& evMask⟩
    rw [hev j hje, hpfd _ hidx]
    exact h.slot j hj'

/-- `vev_del` keeps it. -/
theorem vevDel_spec (h : Inv s) (he : e ∈ s.events) : ∃ s', vevDel s e = some s' ∧ Inv s' := by
  rw [vevDel, if_neg (not_not.mpr he)]
  by_cases hfd : 0 ≤ (s.ev e).fd
  · have hnd : (s.mark e).events.Nodup := h.nodup.erase e
    have hmark := h.table.mark h.nodup ⟨he, hfd⟩
    rw [if_pos hfd]
    by_cases hlast : (s.ev e).pollIdx = s.lpfd - 1
    · have hlt := h.table.lt ⟨he, hfd⟩
      rw [if_pos hlast]
      have hcut : ((s.mark e).pfd (s.lpfd - 1)).fd < 0 := by
        show (Function.update s.pfd _ _ _).fd < 0
        rw [hlast, Function.update_self]
        show (-1 : ℤ) < 0
        decide
      exact ⟨_, rfl, (hmark s.compactPfd).shrink (show s.lpfd = s.lpfd - 1 + 1 by omega) hcut s.compactPfd, hnd⟩
    · rw [if_neg hlast]
      exact ⟨_, rfl, hmark _, hnd⟩
  · rw [if_neg hfd]
    refine ⟨_, rfl, table_of_live h.table ⟨rfl, rfl, rfl⟩ ?_ fun _ _ => rfl, h.nodup.erase e⟩
    ext j
    constructor
    · rintro ⟨hj, hjfd⟩
      exact ⟨List.mem_of_mem_erase hj, hjfd⟩
    · rintro ⟨hj, hjfd⟩
      exact ⟨(List.mem_erase_of_ne fun hje => hfd (by rw [← hje]; exact hjfd)).mpr hj, hjfd⟩

end Steps

/-! ## The compaction -/

section Compaction

variable {s t t' : Base} {ep o u fuel : ℕ} {fd : ℤ}

theorem firstWith_some (h : s.firstWith fd = some ep) : ep ∈ s.events ∧ (s.ev ep).fd = fd :=
  ⟨List.mem_of_find?_eq_some h, of_decide_eq_true (List.find?_some (p := fun e => decide ((s.ev e).fd = fd)) h)⟩

theorem firstWith_congr (hev : t.events = s.events) (hfd : ∀ e, (t.ev e).fd = (s.ev e).fd) (fd : ℤ) : t.firstWith fd = s.firstWith fd := by
  rw [Base.firstWith, Base.firstWith, hev]
  simp only [hfd]

theorem moveTo_fd (s : Base) (u ep e : ℕ) : ((s.moveTo u ep).ev e).fd = (s.ev e).fd := by
  show (Function.update s.ev ep _ e).fd = _
  by_cases he : e = ep
  · rw [he, Function.update_self]
  · rw [Function.update_of_ne he]

theorem moveTo_live (s : Base) (u ep : ℕ) : (s.moveTo u ep).live = s.live := by
  ext e
  show e ∈ s.events ∧ 0 ≤ ((s.moveTo u ep).ev e).fd ↔ _
  rw [moveTo_fd]
  exact Iff.rfl

/-- The last slot is moved into a hole, with the index of its event. -/
theorem Table.moveTo (h : Table s) (hu : u + 1 < s.lpfd) (hhole : (s.pfd u).fd < 0) (hfirst : s.firstWith (s.pfd (s.lpfd - 1)).fd = some ep)
    (hright : 0 ≤ (s.pfd (s.lpfd - 1)).fd → (s.ev ep).pollIdx = s.lpfd - 1) : Table (s.moveTo u ep) := by
  obtain ⟨hmem, hfd⟩ := firstWith_some hfirst
  have hb := h.one_to_one
  have hn : s.lpfd = s.lpfd - 1 + 1 := by omega
  have hlt : u < s.lpfd - 1 := by omega
  have hroom : s.lpfd - 1 < s.npfd := Nat.lt_of_le_of_lt (Nat.sub_le _ _) h.room
  have hnew : (s.moveTo u ep).ev ep = { s.ev ep with pollIdx := u } := Function.update_self _ _ _
  have hev : ∀ j, j ≠ ep → (s.moveTo u ep).ev j = s.ev j := fun j hj => Function.update_of_ne hj _ _
  have hpfdu : (s.moveTo u ep).pfd u = s.pfd (s.lpfd - 1) := Function.update_self _ _ _
  have hpfd : ∀ v, v ≠ u → (s.moveTo u ep).pfd v = s.pfd v := fun v hv => Function.update_of_ne hv _ _
  have hidx : ∀ j ∈ s.live, (s.ev j).pollIdx ≠ u := by
    intro j hj he
    have := (hb.mapsTo hj).2
    rw [he] at this
    omega
  rw [hn] at hb
  by_cases hslot : 0 ≤ (s.pfd (s.lpfd - 1)).fd
  · have hep : ep ∈ s.live := ⟨hmem, hfd ▸ hslot⟩
    refine ⟨?_, fun j hj => ?_, hroom⟩
    · rw [moveTo_live]
      refine bijOn_move hb hep (hright hslot) hlt (Int.not_le.mpr hhole) (fun j hj hje => ?_) (congrArg Ev.pollIdx hnew) fun v hv => ?_
      · rw [hev j hje]
      · by_cases hvu : v = u
        · rw [hvu, hpfdu]
          exact iff_of_true hslot (.inl rfl)
        · rw [hpfd v hvu, or_iff_right hvu]
    · rw [moveTo_live] at hj
      by_cases hje : j = ep
      · rw [hje, hnew]
        show (s.moveTo u ep).pfd u = ⟨(s.ev ep).fd, (s.ev ep).flags &&& evMask⟩
        rw [hpfdu, ← hright hslot, h.slot ep hep]
      · rw [hev j hje, hpfd _ (hidx j hj)]
        exact h.slot j hj
  · have hep : ∀ j ∈ s.live, j ≠ ep := by
      rintro j ⟨-, hj⟩ rfl
      exact hslot (hfd ▸ hj)
    refine ⟨?_, fun j hj => ?_, hroom⟩
    · rw [moveTo_live]
      refine bijOn_congr (bijOn_shrink hb hslot) (fun j hj => ?_) fun v hv => ?_
      · rw [hev j (hep j hj)]
      · by_cases hvu : v = u
        · rw [hvu, hpfdu]
          exact iff_of_false hslot (Int.not_le.mpr hhole)
        · rw [hpfd v hvu]
    · rw [moveTo_live] at hj
      rw [hev j (hep j hj), hpfd _ (hidx j hj)]
      exact h.slot j hj

/-- An event that is not the first with its descriptor, and whose slot was cut off, has none behind the compaction either. -/
theorem lost (ho : o ∈ s.live) (hne : s.firstWith (s.ev o).fd ≠ some o) (hidx : s.lpfd ≤ (s.ev o).pollIdx) (hu : u ≤ s.lpfd)
    (h : compactLoop fuel s u = some t) : ¬ Table t := by
  induction fuel generalizing s u with
  | zero => cases h
  | succ fuel ih =>
    rw [compactLoop] at h
    split at h
    · rename_i hlt
      split at h
      · exact ih ho hne hidx hlt h
      · split at h
        · cases h
          exact fun ht => absurd (ht.lt ho) (Nat.not_lt_of_le (Nat.le_trans hu hidx))
        · split at h
          · cases h
          · rename_i hlast ep hep
            have hoep : o ≠ ep := by
              rintro rfl
              exact hne ((firstWith_some hep).2 ▸ hep)
            have hev : (s.moveTo u ep).ev o = s.ev o := Function.update_of_ne hoep _ _
            refine ih (by rw [moveTo_live]; exact ho) ?_ ?_ ?_ h
            · rw [hev, @firstWith_congr s (s.moveTo u ep) rfl (moveTo_fd s u ep)]
              exact hne
            · rw [hev]
              exact Nat.le_trans (Nat.sub_le _ _) hidx
            · show u + 1 ≤ s.lpfd - 1
              omega
    · cases h
      exact fun ht => absurd (ht.lt ho) (Nat.not_lt_of_le (Nat.le_trans hu hidx))

/-- When the wrong event gets the slot, the right one has none. -/
theorem Table.wrong (h : Table s) (hu : u + 1 < s.lpfd) (hfirst : s.firstWith (s.pfd (s.lpfd - 1)).fd = some ep)
    (hwrong : ¬ (0 ≤ (s.pfd (s.lpfd - 1)).fd → (s.ev ep).pollIdx = s.lpfd - 1)) (ht : compactLoop fuel (s.moveTo u ep) (u + 1) = some t) :
    ¬ Table t := by
  obtain ⟨hslot, hidx⟩ := Classical.not_imp.mp hwrong
  obtain ⟨o, ho, hoidx⟩ := h.one_to_one.surjOn ⟨(by omega : s.lpfd - 1 < s.lpfd), hslot⟩
  have hoidx : (s.ev o).pollIdx = s.lpfd - 1 := hoidx
  have hoep : o ≠ ep := fun he => hidx (he ▸ hoidx)
  have hofd : (s.pfd (s.lpfd - 1)).fd = (s.ev o).fd := by rw [← hoidx, h.slot o ho]
  have hev : (s.moveTo u ep).ev o = s.ev o := Function.update_of_ne hoep _ _
  refine lost (by rw [moveTo_live]; exact ho) ?_ ?_ ?_ ht
  · rw [hev, @firstWith_congr s (s.moveTo u ep) rfl (moveTo_fd s u ep), ← hofd, hfirst]
    exact fun he => hoep (Option.some.inj he).symm
  · rw [hev, hoidx]
    exact Nat.le_refl _
  · show u + 1 ≤ s.lpfd - 1
    omega

/-- The compaction has come to `u`. -/
structure Moved (s : Base) (u : ℕ) (t : Base) : Prop where
  table : Table t
  le : u ≤ t.lpfd
  lpfd : t.lpfd + s.holes u = s.lpfd
  events : t.events = s.events
  fd : ∀ e, (t.ev e).fd = (s.ev e).fd
  rest : ∀ v, u ≤ v → t.pfd v = s.pfd v
  idx : ∀ e ∈ s.live, (s.ev e).pollIdx < t.lpfd → (t.ev e).pollIdx = (s.ev e).pollIdx

theorem holes_succ (s : Base) (u : ℕ) : s.holes (u + 1) = s.holes u + if (s.pfd u).fd < 0 then 1 else 0 := by
  rw [Base.holes, List.range_succ, List.filter_append, List.length_append, Base.holes, List.filter_singleton]
  by_cases h : (s.pfd u).fd < 0 <;> simp [h]

theorem holes_mono {v : ℕ} (h : u ≤ v) : s.holes u ≤ s.holes v := by
  induction h with
  | refl => exact Nat.le_refl _
  | step _ ih =>
    rw [holes_succ]
    omega

theorem Moved.live (h : Moved s u t) : t.live = s.live := by
  ext e
  rw [Base.live, Base.live, mem_ofPred_eq, mem_ofPred_eq, h.events, h.fd]

/-- An event has the last slot now if and only if it had it at the beginning. -/
theorem Moved.last_iff (h : Moved s u t) (hs : Table s) (hu : u < t.lpfd) (hslot : 0 ≤ (t.pfd (t.lpfd - 1)).fd) {e : ℕ} (he : e ∈ s.live) :
    (t.ev e).pollIdx = t.lpfd - 1 ↔ (s.ev e).pollIdx = t.lpfd - 1 := by
  have hlt : t.lpfd - 1 < t.lpfd := by omega
  constructor
  · intro hlast
    have hle := h.lpfd
    rw [h.rest _ (by omega)] at hslot
    obtain ⟨j, hj, hjidx⟩ := hs.one_to_one.surjOn ⟨(by omega : t.lpfd - 1 < s.lpfd), hslot⟩
    have hjidx : (s.ev j).pollIdx = t.lpfd - 1 := hjidx
    have hjt : (t.ev j).pollIdx = t.lpfd - 1 := (h.idx j hj (hjidx ▸ hlt)).trans hjidx
    have hej : e = j := h.table.one_to_one.injOn (h.live ▸ he) (h.live ▸ hj) (hlast.trans hjt.symm)
    rw [hej, hjidx]
  · intro hlast
    rw [h.idx e he (hlast ▸ hlt), hlast]

/-- At a hole that is not the last slot, the loop finds the right event if and only if the condition says so. -/
theorem Moved.right_iff (h : Moved s u t) (hs : Table s) (hlt : u + 1 < t.lpfd) (hhole : (t.pfd u).fd < 0) :
    MovesRight s u ↔ ∃ ep, t.firstWith (t.pfd (t.lpfd - 1)).fd = some ep ∧ (0 ≤ (t.pfd (t.lpfd - 1)).fd → (t.ev ep).pollIdx = t.lpfd - 1) := by
  have hlen := h.lpfd
  have hk : s.lpfd - (s.holes u + 1) = t.lpfd - 1 := by omega
  have hslot : s.pfd (t.lpfd - 1) = t.pfd (t.lpfd - 1) := (h.rest _ (by omega)).symm
  have hmr : MovesRight s u ↔ ∃ ep ∈ s.firstWith (t.pfd (t.lpfd - 1)).fd, 0 ≤ (t.pfd (t.lpfd - 1)).fd → (s.ev ep).pollIdx = t.lpfd - 1 := by
    rw [MovesRight, hk, hslot]
    constructor
    · exact fun h' => h' (h.rest u (Nat.le_refl u) ▸ hhole) (by omega)
    · exact fun h' _ _ => h'
  rw [hmr, firstWith_congr h.events h.fd]
  refine exists_congr fun ep => and_congr_right fun hep => ?_
  have hep := firstWith_some hep
  refine forall_congr' fun hfd => (h.last_iff hs (by omega) hfd ⟨hep.1, ?_⟩).symm
  rw [hep.2]
  exact hfd

/-- One slot further, at a slot in use. -/
theorem Moved.next (h : Moved s u t) (hlt : u < t.lpfd) (hfd : 0 ≤ (t.pfd u).fd) : Moved s (u + 1) t := by
  refine ⟨h.table, hlt, ?_, h.events, h.fd, fun v hv => h.rest v (Nat.le_of_succ_le hv), h.idx⟩
  rw [holes_succ, if_neg (Int.not_lt.mpr (h.rest u (Nat.le_refl u) ▸ hfd))]
  exact h.lpfd

/-- And at a hole. -/
theorem Moved.move (h : Moved s u t) (hlt : u + 1 < t.lpfd) (hhole : (t.pfd u).fd < 0)
    (hfirst : t.firstWith (t.pfd (t.lpfd - 1)).fd = some ep) (hright : 0 ≤ (t.pfd (t.lpfd - 1)).fd → (t.ev ep).pollIdx = t.lpfd - 1) :
    Moved s (u + 1) (t.moveTo u ep) := by
  have hle := h.lpfd
  refine ⟨h.table.moveTo hlt hhole hfirst hright, ?_, ?_, h.events, fun e => (moveTo_fd t u ep e).trans (h.fd e), fun v hv => ?_, fun e he hidx => ?_⟩
  · show u + 1 ≤ t.lpfd - 1
    omega
  · rw [holes_succ, if_pos (h.rest u (Nat.le_refl u) ▸ hhole)]
    show t.lpfd - 1 + _ = _
    omega
  · rw [← h.rest v (Nat.le_of_succ_le hv)]
    exact Function.update_of_ne (by omega) _ _
  · have hidx : (s.ev e).pollIdx < t.lpfd - 1 := hidx
    have hte := h.idx e he (by omega)
    have hep : e ≠ ep := by
      rintro rfl
      have hfd := (firstWith_some hfirst).2
      have := hright (hfd ▸ h.fd e ▸ he.2)
      omega
    rw [← hte]
    exact congrArg Ev.pollIdx (Function.update_of_ne hep _ _)

/-- The rest of the loop. -/
theorem compactLoop_iff (h : Moved s u t) (hs : Table s) (hf : t.lpfd < fuel + u) :
    (∃ t', compactLoop fuel t u = some t' ∧ Table t') ↔ ∀ v, u ≤ v → v < s.lpfd → MovesRight s v := by
  induction fuel generalizing t u with
  | zero => exact absurd hf (Nat.not_lt_of_le (by rw [Nat.zero_add]; exact h.le))
  | succ fuel ih =>
    have hlen := h.lpfd
    -- From the last slots on there is nothing to be moved.
    have hdone : t.lpfd ≤ u + 1 → ∀ v, u ≤ v → v < s.lpfd → MovesRight s v := by
      intro hu v hv _ _ hlt
      have := holes_mono (s := s) hv
      omega
    have hstep : ∀ v, u ≤ v ↔ v = u ∨ u + 1 ≤ v := fun v => by omega
    have hsplit : (∀ v, u ≤ v → v < s.lpfd → MovesRight s v) ↔
        (u < s.lpfd → MovesRight s u) ∧ ∀ v, u + 1 ≤ v → v < s.lpfd → MovesRight s v := by
      constructor
      · exact fun h => ⟨h u (Nat.le_refl u), fun v hv => h v (Nat.le_of_succ_le hv)⟩
      · rintro ⟨h1, h2⟩ v hv
        rcases (hstep v).mp hv with rfl | hv
        · exact h1
        · exact h2 v hv
    rw [compactLoop]
    by_cases hlt : u < t.lpfd
    · have hus : u < s.lpfd := by omega
      rw [if_pos hlt]
      by_cases hfd : 0 ≤ (t.pfd u).fd
      · have hmr : MovesRight s u := fun hneg => absurd (h.rest u (Nat.le_refl u) ▸ hfd) (Int.not_le.mpr hneg)
        rw [if_pos hfd, ih (h.next hlt hfd) (by omega), hsplit, and_iff_right fun _ => hmr]
      · have hhole : (t.pfd u).fd < 0 := Int.not_le.mp hfd
        rw [if_neg hfd]
        by_cases hlast : u = t.lpfd - 1
        · rw [if_pos hlast]
          exact iff_of_true ⟨_, rfl, h.table.shrink (by omega) hhole 0⟩ (hdone (by omega))
        · have hlt' : u + 1 < t.lpfd := by omega
          have hright := h.right_iff hs hlt' hhole
          rw [if_neg hlast, hsplit]
          cases hfirst : t.firstWith (t.pfd (t.lpfd - 1)).fd with
          | none =>
            rw [hfirst] at hright
            refine iff_of_false (fun ⟨t', ht', _⟩ => (by cases ht')) fun hall => ?_
            obtain ⟨ep, hep, -⟩ := hright.mp (hall.1 hus)
            cases hep
          | some ep =>
            rw [hfirst] at hright
            by_cases hok : 0 ≤ (t.pfd (t.lpfd - 1)).fd → (t.ev ep).pollIdx = t.lpfd - 1
            · have hmr : MovesRight s u := hright.mpr ⟨ep, rfl, hok⟩
              dsimp only
              rw [ih (h.move hlt' hhole hfirst hok) (show t.lpfd - 1 < fuel + (u + 1) by omega), and_iff_right fun _ => hmr]
            · refine iff_of_false (fun ⟨t', ht', htab⟩ => h.table.wrong hlt' hfirst hok ht' htab) fun hall => ?_
              obtain ⟨ep', hep', hok'⟩ := hright.mp (hall.1 hus)
              cases hep'
              exact hok hok'
    · rw [if_neg hlt]
      have hut : u = t.lpfd := Nat.le_antisymm h.le (Nat.le_of_not_lt hlt)
      subst hut
      exact iff_of_true ⟨_, rfl, h.table.one_to_one, h.table.slot, h.table.room⟩ (hdone (Nat.le_succ _))

/-- **The compaction keeps the table in order if and only if it gets every slot moved right.** -/
theorem compact_iff (h : Table s) : (∃ t, vevCompactPfd s = some t ∧ Table t) ↔ Compactable s := by
  have hstart : Moved s 0 s := ⟨h, Nat.zero_le _, rfl, rfl, fun _ => rfl, fun _ _ => rfl, fun _ _ _ => rfl⟩
  rw [vevCompactPfd, compactLoop_iff hstart h (Nat.lt_succ_self _)]
  exact ⟨fun hall u => hall u (Nat.zero_le u), fun hall u _ => hall u⟩

theorem compactLoop_events (h : compactLoop fuel s u = some t) : t.events = s.events := by
  induction fuel generalizing s u with
  | zero => cases h
  | succ fuel ih =>
    rw [compactLoop] at h
    split at h
    · split at h
      · exact ih h
      · split at h
        · cases h
          rfl
        · split at h
          · cases h
          · have hrest := ih h
            exact hrest
    · cases h
      rfl

end Compaction

/-! ## Runs -/

section Runs

variable {s s' : Base} {a : Act}

/-- A step keeps the table in order, without a failed assertion, if and only if it meets the condition. -/
theorem Inv.step_iff (h : Inv s) (hcall : a.Called s) : (∃ s', vevStep s a = some s' ∧ Table s') ↔ a.Cond s := by
  cases a with
  | add e fd flags sig mem =>
    obtain ⟨s', hs', hi⟩ := @vevAdd_spec s e fd flags sig mem h hcall.1 hcall.2
    exact iff_of_true ⟨s', hs', hi.table⟩ trivial
  | del e =>
    obtain ⟨s', hs', hi⟩ := vevDel_spec h hcall
    exact iff_of_true ⟨s', hs', hi.table⟩ trivial
  | compact =>
    rw [vevStep]
    by_cases hc : s.compactPfd ≠ 0
    · rw [if_pos hc, compact_iff h.table]
      exact ⟨fun hcp _ => hcp, fun hcp => hcp hc⟩
    · rw [if_neg hc]
      exact iff_of_true ⟨s, rfl, h.table⟩ fun hne => absurd hne hc
  | look e =>
    refine iff_of_true ⟨s, ?_, h.table⟩ trivial
    rw [vevStep]
    by_cases hfd : (s.ev e).fd < 0
    · rw [if_pos hfd]
    · have he : e ∈ s.live := ⟨hcall, Int.not_lt.mp hfd⟩
      rw [if_neg hfd, if_pos ⟨h.table.lt he, congrArg Slot.fd (h.table.slot e he)⟩]

theorem Inv.step (h : Inv s) (hcall : a.Called s) (hcond : a.Cond s) (hs : vevStep s a = some s') : Inv s' := by
  obtain ⟨t, ht, htab⟩ := (h.step_iff hcall).mpr hcond
  rw [hs] at ht
  cases ht
  refine ⟨htab, ?_⟩
  cases a with
  | add e fd flags sig mem =>
    obtain ⟨t, ht, hi⟩ := @vevAdd_spec s e fd flags sig mem h hcall.1 hcall.2
    cases hs.symm.trans ht
    exact hi.nodup
  | del e =>
    obtain ⟨t, ht, hi⟩ := vevDel_spec h hcall
    cases hs.symm.trans ht
    exact hi.nodup
  | compact =>
    rw [vevStep] at hs
    split at hs
    · rw [compactLoop_events hs]
      exact h.nodup
    · cases hs
      exact h.nodup
  | look e =>
    rw [vevStep] at hs
    split at hs
    · cases hs
      exact h.nodup
    · split at hs
      · cases hs
        exact h.nodup
      · cases hs

theorem inv_new (ev : ℕ → Ev) (pfd : ℕ → Slot) : Inv (vevNewBase ev pfd) := by
  refine ⟨⟨⟨fun e he => ?_, fun e he => ?_, fun u hu => ?_⟩, fun e he => ?_, (show 0 < 8 by decide)⟩, List.nodup_nil⟩
  · exact absurd he.1 List.not_mem_nil
  · exact absurd he.1 List.not_mem_nil
  · exact absurd hu.1 (Nat.not_lt_zero u)
  · exact absurd he.1 List.not_mem_nil

/-- **In every run whose steps meet the condition the table is in order**, and a next step keeps it so, without a failed assertion, if and
only if it meets the condition too. -/
theorem reach_table {ev : ℕ → Ev} {pfd : ℕ → Slot} (h : Reach vevStep (fun s a => a.Called s ∧ a.Cond s) (vevNewBase ev pfd) s) :
    Table s ∧ ∀ a : Act, a.Called s → ((∃ s', vevStep s a = some s' ∧ Table s') ↔ a.Cond s) := by
  have hinv : Inv s := h.inv (inv_new ev pfd) fun s a s' hi hok hs => hi.step hok.1 hok.2 hs
  exact ⟨hinv.table, fun a hcall => hinv.step_iff hcall⟩

/-- An empty base. -/
def empty : Base := vevNewBase (fun _ => ⟨-1, 0, 0⟩) fun _ => ⟨-1, 0⟩

def fourEvents : List Act := [.add 0 10 1 true true, .add 1 11 1 true true, .add 2 12 1 true true, .add 3 13 1 true true]

/-- The first two are deleted. -/
def twoHoles : List Act := fourEvents ++ [.del 1, .del 0, .compact, .look 3]

/-- The third one is deleted, and then the fourth and the first. -/
def holeAtEnd : List Act := fourEvents ++ [.del 2, .del 3, .del 0]

theorem reach_table_twoHoles : ∃ s, Reach vevStep (fun s a => a.Called s ∧ a.Cond s) empty s ∧
    s.events.map (fun e => (e, (s.ev e).fd, (s.ev e).pollIdx)) = [(3, 13, 0), (2, 12, 1)] ∧ Table s := by
  have hres : (twoHoles.foldlM vevStep empty).map
      (fun s => s.events.map fun e => (e, (s.ev e).fd, (s.ev e).pollIdx)) = some [(3, 13, 0), (2, 12, 1)] := by decide +kernel
  obtain ⟨s, hs, hev⟩ := Option.map_eq_some_iff.mp hres
  have hreach : Reach vevStep (fun s a => a.Called s ∧ a.Cond s) empty s := Reach.of_run (by decide +kernel) hs
  exact ⟨s, hreach, hev, (reach_table hreach).1⟩

/-- The last slot is a hole itself: the compaction fails its assertion. -/
theorem compact_fails : ∃ s, Reach vevStep Act.Called empty s ∧ Act.Called s .compact ∧ vevStep s .compact = none := by
  have hres : (holeAtEnd.foldlM vevStep empty).map (fun s => (vevStep s .compact).isNone) = some true := by
    decide +kernel
  obtain ⟨s, hs, hnone⟩ := Option.map_eq_some_iff.mp hres
  exact ⟨s, Reach.of_run (by decide +kernel) hs, trivial, Option.isNone_iff_eq_none.mp hnone⟩

end Runs

end Varnish.Vev
