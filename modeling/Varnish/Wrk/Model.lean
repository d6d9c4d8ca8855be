import Mathlib.Data.Int.Notation
import Mathlib.Data.Nat.Notation
import Mathlib.Logic.Function.Basic

/-!
# Varnish.Wrk.Model — a pool of worker threads (`cache_pool.c`)

A section under `qp->mtx` is one step, and so is a store behind it.

* `wrkLoop`, `wrkWake`, `wrkRun`, `wrkClear`: the parts of the loop of `wrk_thread_real`.
* `wrkQueue`, `wrkStore`: `WRK_Queue`, up to the unlock and behind it.
* `wrkDecimateFlock`: how idle threads are sent home.
* `Act`, `wrkStep`: the steps.
-/

namespace Varnish.Wrk

/-! ## Data -/

section Data

/-- Where a thread is: not there, before its first section, in `Lck_CondWait`, with a request behind the unlock, behind the call of
its function, and before the next section. -/
inductive Pc
  | gone
  | starting
  | waiting
  | got
  | ran
  | looping
deriving DecidableEq

/-- `struct worker`; `lastused` is `none` for NaN. -/
structure Worker where
  pc : Pc
  wrq : Option ℕ
  lastused : Option ℤ

/-- `struct wq` with the threads and the calls of `WRK_Queue`; a request is the number of its call.  `hand` says which worker the
call of a thread has taken off the idle list, and for which request. -/
structure Wq where
  idle : List ℕ
  overflow : List ℕ
  nthr : ℕ
  nqueue : ℕ
  ndrop : ℕ
  noverflow : ℕ
  worker : ℕ → Worker
  hand : ℕ → Option (ℕ × ℕ)
  next : ℕ
  -- what has happened: the answers, the calls of the functions, and the threads that were sent home and are still there
  accepted : List ℕ
  refused : List ℕ
  done : List (ℕ × ℕ)
  kissed : List ℕ

def Wq.init : Wq where
  idle := []
  overflow := []
  nthr := 0
  nqueue := 0
  ndrop := 0
  noverflow := 0
  worker _ := ⟨.gone, none, none⟩
  hand _ := none
  next := 0
  accepted := []
  refused := []
  done := []
  kissed := []

def Wq.setWorker (s : Wq) (w : ℕ) (x : Worker) : Wq := { s with worker := Function.update s.worker w x }

end Data

/-! ## The threads -/

section Threads

/-- The head of the loop of `wrk_thread_real`, up to the unlock or into the wait. -/
def wrkLoop (now : ℤ) (s : Wq) (w : ℕ) : Wq :=
  match s.overflow with
  | r :: l => { s.setWorker w { s.worker w with pc := .got, wrq := some r } with overflow := l, nqueue := s.nqueue - 1 }
  | [] =>
    { s.setWorker w ⟨.waiting, none, some ((s.worker w).lastused.getD now)⟩ with idle := w :: s.idle }

/-- Behind `Lck_CondWait`, to the unlock. -/
def wrkWake (s : Wq) (w : ℕ) : Wq :=
  match (s.worker w).wrq with
  | none => { s.setWorker w { s.worker w with pc := .gone } with nthr := s.nthr - 1, kissed := s.kissed.erase w }
  | some _ => s.setWorker w { s.worker w with pc := .got }

/-- The call of `w->wrq->func`. -/
def wrkRun (s : Wq) (w : ℕ) : Option Wq :=
  match (s.worker w).wrq with
  | none => none
  | some r => some { s.setWorker w { s.worker w with pc := .ran, lastused := none } with done := (w, r) :: s.done }

/-- `w->wrq = NULL` -/
def wrkClear (s : Wq) (w : ℕ) : Wq := s.setWorker w { s.worker w with pc := .looping, wrq := none }

end Threads

/-! ## The others -/

section Others

/-- `WRK_Queue` up to the unlock, where `ovflMax` is `ovfl_max`. -/
def wrkQueue (ovflMax : ℕ) (s : Wq) (c : ℕ) : Wq :=
  match s.idle with
  | w :: l =>
    { s with idle := l, hand := Function.update s.hand c (some (w, s.next)), next := s.next + 1, accepted := s.next :: s.accepted }
  | [] =>
    if ovflMax < s.nqueue then { s with ndrop := s.ndrop + 1, next := s.next + 1, refused := s.next :: s.refused }
    else { s with
      overflow := s.overflow ++ [s.next], noverflow := s.noverflow + 1, nqueue := s.nqueue + 1, next := s.next + 1,
      accepted := s.next :: s.accepted }

/-- `w->wrq = wrq` -/
def wrkStore (s : Wq) (c w r : ℕ) : Wq :=
  { s.setWorker w { s.worker w with wrq := some r } with hand := Function.update s.hand c none }

/-- `wrk_decimate_flock`; a comparison with NaN is false. -/
def wrkDecimateFlock (tIdle : ℤ) (wthreadMin nthrMax : ℕ) (s : Wq) : Wq :=
  if wthreadMin < s.nthr then
    match s.idle.getLast? with
    | some w =>
      if (s.worker w).lastused.any (· < tIdle) ∨ nthrMax < s.nthr then { s with idle := s.idle.dropLast, kissed := w :: s.kissed }
      else s
    | none => s
  else s

end Others

/-! ## The steps -/

section Steps

inductive Act
  | create (w : ℕ)
  | loop (w : ℕ) (now : ℤ)
  | wake (w : ℕ)
  | run (w : ℕ)
  | clear (w : ℕ)
  | queue (c ovflMax : ℕ)
  | store (c : ℕ)
  | decimate (tIdle : ℤ) (wthreadMin nthrMax : ℕ)

/-- A wait can end at any time, with or without a signal. -/
def wrkStep (s : Wq) : Act → Option Wq
  | .create w => if (s.worker w).pc = .gone then some (s.setWorker w ⟨.starting, none, none⟩) else none
  | .loop w now =>
    match (s.worker w).pc with
    | .starting => some (wrkLoop now { s with nthr := s.nthr + 1 } w)
    | .looping => some (wrkLoop now s w)
    | _ => none
  | .wake w => if (s.worker w).pc = .waiting then some (wrkWake s w) else none
  | .run w => if (s.worker w).pc = .got then wrkRun s w else none
  | .clear w => if (s.worker w).pc = .ran then some (wrkClear s w) else none
  | .queue c ovflMax => if s.hand c = none then some (wrkQueue ovflMax s c) else none
  | .store c =>
    match s.hand c with
    | some (w, r) => some (wrkStore s c w r)
    | none => none
  | .decimate tIdle wthreadMin nthrMax => some (wrkDecimateFlock tIdle wthreadMin nthrMax s)

/-- No thread comes out of its wait without a request, unless it was sent home. -/
def Act.Good (s : Wq) : Act → Prop
  | .wake w => (s.worker w).wrq ≠ none ∨ w ∈ s.kissed
  | _ => True

end Steps

end Varnish.Wrk
