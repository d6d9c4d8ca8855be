import Varnish.Shmlog.Model

/-!
# Varnish.Shmlog.Wbuf — the log buffer of a worker

`WSLR`, `WSL` and `WSL_Flush` of `bin/varnishd/shmlog.c`.  A thread has a buffer of `size` bytes; addresses are relative to
`wlb`, so that `wle` is `size`.  `shm_reclen` may change from call to call.

* `Wlog`, `WslOp.run`: the buffer and the calls, each with its stores; no state is left when an assertion fails.
* `Buffered`: the records so far were handed on or are in the buffer, as whole records.
* `SafeRun`: no store of a run is outside of the buffer, and so it is after every call.  `safeRun_iff`: when this holds.
-/

namespace Varnish.Shmlog

open Varnish.Lib

/-! ## The calls -/

section Model

/-- The log of a `struct worker`; `handed` are the bytes that went to the shared memory log. -/
structure Wlog where
  mem : Mem
  wlp : ℕ
  wlr : ℕ
  handed : List UInt8

/-- `WSL_Flush` -/
def wslFlush (w : Wlog) : Wlog :=
  if w.wlp = 0 then w else { w with wlp := 0, wlr := 0, handed := w.handed ++ rd w.mem 0 w.wlp }

variable (size : ℕ)

/-- The buffer is flushed when there may be no room for `n` bytes. -/
def Wlog.room (w : Wlog) (n : ℕ) : Wlog := if size ≤ w.wlp + 8 + n + 1 then wslFlush w else w

/-- The stores of a record, with what is copied before its head is written. -/
def putStores (r : Rec) (d : List UInt8) (p : ℕ) : List Store := memcpy (p + 7) d ++ vslHdr r p

def Wlog.put (w : Wlog) (r : Rec) (d : List UInt8) : Wlog :=
  { w with mem := makeStores w.mem (putStores r d w.wlp), wlp := w.wlp + 8 + r.data.length, wlr := w.wlr + 1 }

/-- The flush after each call, which is for debugging. -/
def Wlog.diag (w : Wlog) (diag : Bool) : Wlog := if diag then wslFlush w else w

/-- `WSLR` -/
def wslr (P : Params) (diag : Bool) (tag : Tag) (id : UInt32) (t : List UInt8) (w : Wlog) : List Store × Option Wlog :=
  let r := P.record tag id t
  if size ≤ w.wlp then ([], none)
  else
    let w := w.room size r.data.length
    if size ≤ w.wlp + 8 + r.data.length then ([], none)
    else (putStores r r.data w.wlp, some ((w.put r r.data).diag diag))

/-- `WSL` with a format that has a directive; `out` is what it gives.  `vsnprintf` writes a NUL behind it. -/
def wslFmt (P : Params) (diag : Bool) (tag : Tag) (id : UInt32) (out : List UInt8) (w : Wlog) : List Store × Option Wlog :=
  let r := P.record tag id out
  if size ≤ w.wlp then ([], none)
  else
    let w := w.room size P.reclen
    (putStores r (r.data ++ [0]) w.wlp,
      if size ≤ w.wlp + 8 + r.data.length then none else some ((w.put r (r.data ++ [0])).diag diag))

/-- A call, with the parameters as they are then. -/
inductive WslOp where
  | wslr (P : Params) (diag : Bool) (tag : Tag) (id : UInt32) (t : List UInt8)
  | wsl (P : Params) (diag : Bool) (tag : Tag) (id : UInt32) (fmt : List UInt8)
  | wslFmt (P : Params) (diag : Bool) (tag : Tag) (id : UInt32) (out : List UInt8)
  | flush

/-- The stores of a call, and the buffer afterwards. -/
def WslOp.run : WslOp → Wlog → List Store × Option Wlog
  | .wslr P diag tag id t, w => Shmlog.wslr size P diag tag id t w
  | .wsl P diag tag id fmt, w =>
    let r := Shmlog.wslr size P diag tag id fmt w
    (r.1, r.2.map fun w => w.diag diag)
  | .wslFmt P diag tag id out, w => Shmlog.wslFmt size P diag tag id out w
  | .flush, w => ([], some (wslFlush w))

/-- The records of a call. -/
def WslOp.recs : WslOp → List Rec
  | .wslr P _ tag id t | .wsl P _ tag id t | .wslFmt P _ tag id t => [P.record tag id t]
  | .flush => []

/-- The buffer of a new thread. -/
def wlogStart (m : Mem) : Wlog := ⟨m, 0, 0, []⟩

/-- There is room behind the last record, and the records so far were handed on or are in the buffer. -/
structure Buffered (recs : List Rec) (w : Wlog) : Prop where
  lt : w.wlp < size
  split : ∃ rs₁ rs₂, recs = rs₁ ++ rs₂ ∧ w.handed = recBytes rs₁ ∧ rd w.mem 0 w.wlp = recBytes rs₂ ∧ w.wlr = rs₂.length

/-- In the whole run, the records are kept, every store is in the buffer, and no assertion fails. -/
def SafeRun : List Rec → Wlog → List WslOp → Prop
  | recs, w, [] => Buffered size recs w
  | recs, w, op :: ops =>
    Buffered size recs w ∧ (∀ s ∈ (op.run size w).1, s.1 < size) ∧
      ∃ w', (op.run size w).2 = some w' ∧ SafeRun (recs ++ op.recs) w' ops

end Model

variable {size n : ℕ} {recs : List Rec} {w : Wlog} {r : Rec} {d : List UInt8}

/-! ## The buffer -/

section Buffer

theorem Buffered.flush (h : Buffered size recs w) : Buffered size recs (wslFlush w) := by
  obtain ⟨rs₁, rs₂, hrecs, hhanded, hbuf, hwlr⟩ := h.split
  rw [wslFlush]
  by_cases h0 : w.wlp = 0
  · rw [if_pos h0]
    exact h
  · rw [if_neg h0]
    refine ⟨Nat.lt_of_le_of_lt (Nat.zero_le _) h.lt, recs, [], (List.append_nil recs).symm, ?_, rfl, rfl⟩
    simp only
    rw [hhanded, hbuf, ← recBytes_append, hrecs]

theorem Buffered.room (h : Buffered size recs w) (n : ℕ) : Buffered size recs (w.room size n) := by
  rw [Wlog.room]
  split
  · exact h.flush
  · exact h

theorem Buffered.diag (h : Buffered size recs w) (b : Bool) : Buffered size recs (w.diag b) := by
  rw [Wlog.diag]
  split
  · exact h.flush
  · exact h

/-- After the flush, what is shorter than the buffer has room. -/
theorem room_lt {l : ℕ} (hl : l ≤ n) (hlt : 8 + l < size) : (w.room size n).wlp + 8 + l < size := by
  rw [Wlog.room]
  by_cases hfull : size ≤ w.wlp + 8 + n + 1
  · rw [if_pos hfull]
    have h0 : (wslFlush w).wlp = 0 := by
      rw [wslFlush]
      split
      · assumption
      · rfl
    omega
  · rw [if_neg hfull]
    omega

/-- The stores of a record that has room are in the buffer. -/
theorem putStores_lt {p : ℕ} (hd : d <+: r.data ++ [0]) (hl : r.data.length ≤ d.length) (hlt : p + 8 + r.data.length < size) :
    ∀ s ∈ putStores r d p, s.1 < size := by
  intro s hs
  have hrange := (lays_record (p := p) hd hl).range hs
  rw [length_bytes] at hrange
  omega

/-- A record is put behind the others. -/
theorem Buffered.put (h : Buffered size recs w) (hd : d <+: r.data ++ [0]) (hl : r.data.length ≤ d.length)
    (hlt : w.wlp + 8 + r.data.length < size) : Buffered size (recs ++ [r]) (w.put r d) := by
  obtain ⟨rs₁, rs₂, hrecs, hhanded, hbuf, hwlr⟩ := h.split
  have hlays := lays_record (p := w.wlp) hd hl
  refine ⟨hlt, rs₁, rs₂ ++ [r], by rw [hrecs, List.append_assoc], hhanded, ?_, ?_⟩
  · have hold : rd (makeStores w.mem (putStores r d w.wlp)) 0 w.wlp = rd w.mem 0 w.wlp := by
      refine rd_congr fun i _ hi => makeStores_of_ne fun s hs he => ?_
      have hrange := hlays.range hs
      omega
    have hnew : rd (makeStores w.mem (putStores r d w.wlp)) w.wlp r.bytes.length = r.bytes := by
      refine hlays.fills.run fun s hs i b hb hi => ?_
      rcases hlays.right s hs with ⟨j, hj, hv⟩ | rfl
      · obtain rfl : j = i := by omega
        exact Option.some.inj (hv.symm.trans hb)
      · obtain ⟨hlt, -⟩ := List.getElem?_eq_some_iff.mp hb
        simp only at hi
        omega
    have hlen : (w.put r d).wlp = w.wlp + r.bytes.length := by
      rw [length_bytes]
      exact Nat.add_assoc ..
    rw [hlen, rd_add, Nat.zero_add]
    change rd (makeStores w.mem (putStores r d w.wlp)) 0 w.wlp ++ rd (makeStores w.mem (putStores r d w.wlp)) w.wlp _ = _
    rw [hold, hnew, hbuf, recBytes_append, recBytes_singleton]
  · change w.wlr + 1 = _
    rw [hwlr, List.length_append, List.length_singleton]

end Buffer

/-! ## One call -/

section Call

variable {P : Params} {b : Bool} {tag : Tag} {id : UInt32} {t : List UInt8}

/-- The condition of a call: its record, with its head and the next tag, is shorter than the buffer. -/
def WslOp.Fits (size : ℕ) (op : WslOp) : Prop := ∀ r ∈ op.recs, 8 + r.data.length < size

/-- A call that keeps the buffer in order and stores nothing outside of it. -/
def Keeps (size : ℕ) (recs : List Rec) (r : List Store × Option Wlog) : Prop :=
  (∀ s ∈ r.1, s.1 < size) ∧ ∃ w', r.2 = some w' ∧ Buffered size recs w'

/-- A longer record fails the second assertion. -/
theorem wslr_none (h : w.wlp < size) (hlong : size ≤ 8 + (P.record tag id t).data.length) :
    (wslr size P b tag id t w).2 = none := by
  rw [wslr]
  simp only
  rw [if_neg (Nat.not_le.mpr h), if_pos (by omega)]

theorem wslr_keeps_iff (h : Buffered size recs w) :
    Keeps size (recs ++ [P.record tag id t]) (wslr size P b tag id t w) ↔ 8 + (P.record tag id t).data.length < size := by
  by_cases hlt : 8 + (P.record tag id t).data.length < size
  · refine iff_of_true ?_ hlt
    rw [wslr]
    simp only
    rw [if_neg (Nat.not_le.mpr h.lt)]
    have hroom := room_lt (w := w) (le_refl (P.record tag id t).data.length) hlt
    rw [if_neg (Nat.not_le.mpr hroom)]
    have hd : (P.record tag id t).data <+: (P.record tag id t).data ++ [0] := List.prefix_append _ _
    exact ⟨putStores_lt hd (le_refl _) hroom, _, rfl, ((h.room _).put hd (le_refl _) hroom).diag b⟩
  · refine iff_of_false ?_ hlt
    rintro ⟨-, w', hw', -⟩
    rw [wslr_none h.lt (Nat.le_of_not_lt hlt)] at hw'
    cases hw'

theorem wslFmt_keeps_iff (h : Buffered size recs w) :
    Keeps size (recs ++ [P.record tag id t]) (wslFmt size P b tag id t w) ↔
      8 + (P.record tag id t).data.length < size := by
  rw [wslFmt]
  simp only
  rw [if_neg (Nat.not_le.mpr h.lt)]
  by_cases hlt : 8 + (P.record tag id t).data.length < size
  · refine iff_of_true ?_ hlt
    have hle : (P.record tag id t).data.length ≤ P.reclen := List.length_take_le _ _
    have hroom := room_lt (w := w) hle hlt
    rw [if_neg (Nat.not_le.mpr hroom)]
    have hl : (P.record tag id t).data.length ≤ ((P.record tag id t).data ++ [0]).length := by
      rw [List.length_append]
      exact Nat.le_add_right _ _
    have hd := List.prefix_refl ((P.record tag id t).data ++ [0])
    exact ⟨putStores_lt hd hl hroom, _, rfl, ((h.room _).put hd hl hroom).diag b⟩
  · refine iff_of_false ?_ hlt
    rw [if_pos (by omega)]
    rintro ⟨-, w', hw', -⟩
    cases hw'

/-- A call is safe if and only if its record is shorter than the buffer. -/
theorem run_keeps_iff (h : Buffered size recs w) (op : WslOp) :
    Keeps size (recs ++ op.recs) (op.run size w) ↔ op.Fits size := by
  have hone : ∀ r : Rec, (∀ r' ∈ [r], 8 + r'.data.length < size) ↔ 8 + r.data.length < size := by
    intro r
    rw [List.forall_mem_singleton]
  cases op with
  | wslr P b tag id t => exact (wslr_keeps_iff h).trans (hone _).symm
  | wsl P b tag id t =>
    refine Iff.trans ?_ (hone _).symm
    rw [WslOp.run]
    constructor
    · rintro ⟨-, w', hw', -⟩
      refine Nat.lt_of_not_le fun hlong => ?_
      simp only [wslr_none h.lt hlong] at hw'
      cases hw'
    · intro hlt
      obtain ⟨hs, w', hw', hbuf⟩ := (wslr_keeps_iff (b := b) h).mpr hlt
      refine ⟨hs, w'.diag b, ?_, hbuf.diag b⟩
      simp only [hw', Option.map_some]
  | wslFmt P b tag id t => exact (wslFmt_keeps_iff h).trans (hone _).symm
  | flush =>
    refine iff_of_true ⟨fun s hs => (by cases hs), wslFlush w, rfl, ?_⟩ fun r hr => (by cases hr)
    rw [WslOp.recs, List.append_nil]
    exact h.flush

end Call

/-! ## The result -/

section Result

theorem SafeRun.buffered {ops : List WslOp} (h : SafeRun size recs w ops) : Buffered size recs w := by
  cases ops with
  | nil => exact h
  | cons op ops => exact h.1

/-- From any buffer that is in order. -/
theorem safeRun_from_iff (h : Buffered size recs w) (ops : List WslOp) :
    SafeRun size recs w ops ↔ ∀ op ∈ ops, op.Fits size := by
  induction ops generalizing recs w with
  | nil => exact iff_of_true h fun op hop => (by cases hop)
  | cons op ops ih =>
    rw [SafeRun, List.forall_mem_cons, ← run_keeps_iff h op, and_iff_right h]
    constructor
    · rintro ⟨hs, w', hw', hrun⟩
      exact ⟨⟨hs, w', hw', hrun.buffered⟩, (ih hrun.buffered).mp hrun⟩
    · rintro ⟨⟨hs, w', hw', hbuf⟩, hops⟩
      exact ⟨hs, w', hw', (ih hbuf).mpr hops⟩

theorem wlogStart_buffered (m : Mem) (h : 0 < size) : Buffered size [] (wlogStart m) :=
  ⟨h, [], [], rfl, rfl, rfl, rfl⟩

/-- **The log buffers**: in a run of a new thread, the records are kept, all stores are in the buffer and no assertion fails,
if and only if every record of the run, cut off after `shm_reclen` bytes, is shorter than the buffer with its head and the next
tag. -/
theorem safeRun_iff (m : Mem) (hsize : 0 < size) (ops : List WslOp) :
    SafeRun size [] (wlogStart m) ops ↔ ∀ op ∈ ops, op.Fits size := safeRun_from_iff (wlogStart_buffered m hsize) ops

def bgParams : Params := ⟨1016, by decide⟩

/-- Two records and a flush, in the buffer of a background thread. -/
theorem safeRun_iff_short : SafeRun 1024 [] (wlogStart fun _ => 0)
    [.wslFmt bgParams false tagDebug 7 [97], .wsl bgParams false tagDebug 7 [98], .flush] := by
  refine (safeRun_iff _ (by decide) _).mpr ?_
  intro op hop r hr
  simp only [List.mem_cons, List.not_mem_nil, or_false] at hop
  rcases hop with rfl | rfl | rfl
  · cases List.mem_singleton.mp hr
    decide
  · cases List.mem_singleton.mp hr
    decide
  · cases hr

/-- With `shm_reclen` 1016, a record of that length is one byte longer than the buffer of a background thread. -/
theorem record_overflows : (∃ s ∈ ((WslOp.wslFmt bgParams false tagDebug 7 (List.replicate 1016 97)).run 1024
      (wlogStart fun _ => 0)).1, 1024 ≤ s.1) ∧
    ¬ SafeRun 1024 [] (wlogStart fun _ => 0) [.wslFmt bgParams false tagDebug 7 (List.replicate 1016 97)] := by
  have hlen : (bgParams.record tagDebug 7 (List.replicate 1016 97)).data.length = 1016 := by
    change ((List.replicate 1016 (97 : UInt8)).take 1016).length = 1016
    rw [List.length_take, List.length_replicate, Nat.min_self]
  constructor
  · refine ⟨(1024, endMarker), List.mem_append_right _ ?_, le_refl _⟩
    change (1024, endMarker) ∈ vslHdr (bgParams.record tagDebug 7 (List.replicate 1016 97)) 0
    rw [vslHdr, hlen]
    exact List.mem_of_getElem? (i := 7) rfl
  · rw [safeRun_from_iff (wlogStart_buffered _ (by decide))]
    intro hfits
    have hlt := hfits _ List.mem_cons_self _ List.mem_cons_self
    rw [hlen] at hlt
    exact absurd hlt (by decide)

end Result

end Varnish.Shmlog
