import Varnish.Lib.Run
import Varnish.Lib.Shelves
import Varnish.Wrk.Model

/-!
# Varnish.Wrk.Work — no work is lost or done twice

* `Place`, `shelf`: the places a request can be in.
* `WorkOk`: each request that was accepted is in one of them, and what the lists of the pool promise.
* `Inv`, `inv_step`: what a step keeps in which no thread comes out of its wait without reason.
* `reach_workOk_iff`: `WorkOk` holds just as long as the steps are like that.
* `not_reach_workOk`: a run with a spurious wakeup, in which a request is lost.
-/

namespace Varnish.Wrk

open Varnish.Lib

/-! ## Places -/

section Places

/-- Where a request can be: on the overflow list, in a call of `WRK_Queue`, with a worker that has not called its function, and done. -/
inductive Place
  | queue
  | hand (c : ℕ)
  | worker (w : ℕ)
  | done
deriving DecidableEq

/-- Where a thread that waits without a request can be: on the idle list, in a call of `WRK_Queue`, and sent home. -/
inductive Spot
  | idle
  | hand (c : ℕ)
  | kissed
deriving DecidableEq

/-- The request that a worker still has to run. -/
def Worker.load (x : Worker) : Option ℕ := if x.pc = .waiting ∨ x.pc = .got then x.wrq else none

def shelfOf (overflow : List ℕ) (hand : ℕ → Option (ℕ × ℕ)) (worker : ℕ → Worker) (done : List (ℕ × ℕ)) : Place → List ℕ
  | .queue => overflow
  | .hand c => ((hand c).map Prod.snd).toList
  | .worker w => (worker w).load.toList
  | .done => done.map Prod.snd

def spotOf (idle : List ℕ) (hand : ℕ → Option (ℕ × ℕ)) (kissed : List ℕ) : Spot → List ℕ
  | .idle => idle
  | .hand c => ((hand c).map Prod.fst).toList
  | .kissed => kissed

/-- What a worker is like, by where it is. -/
def Fits (x : Worker) : Option Spot → Prop
  | some _ => x.pc = .waiting ∧ x.wrq = none
  | none => x.pc = .waiting ∨ x.pc = .got ∨ x.pc = .ran → x.wrq ≠ none

variable {overflow idle kissed : List ℕ} {hand : ℕ → Option (ℕ × ℕ)} {worker : ℕ → Worker} {done : List (ℕ × ℕ)}

theorem shelfOf_queue (l : List ℕ) :
    shelfOf l hand worker done = Function.update (shelfOf overflow hand worker done) .queue l := by
  funext p
  cases p <;> simp [shelfOf]

theorem shelfOf_hand (c : ℕ) (x : Option (ℕ × ℕ)) : shelfOf overflow (Function.update hand c x) worker done =
    Function.update (shelfOf overflow hand worker done) (.hand c) (x.map Prod.snd).toList := by
  funext p
  cases p with
  | hand i =>
    by_cases hi : i = c
    · subst hi
      simp [shelfOf]
    · simp [shelfOf, hi]
  | _ => simp [shelfOf]

theorem shelfOf_worker (w : ℕ) (x : Worker) : shelfOf overflow hand (Function.update worker w x) done =
    Function.update (shelfOf overflow hand worker done) (.worker w) x.load.toList := by
  funext p
  cases p with
  | worker i =>
    by_cases hi : i = w
    · subst hi
      simp [shelfOf]
    · simp [shelfOf, hi]
  | _ => simp [shelfOf]

theorem shelfOf_done (l : List (ℕ × ℕ)) :
    shelfOf overflow hand worker l = Function.update (shelfOf overflow hand worker done) .done (l.map Prod.snd) := by
  funext p
  cases p <;> simp [shelfOf]

theorem spotOf_idle (l : List ℕ) : spotOf l hand kissed = Function.update (spotOf idle hand kissed) .idle l := by
  funext p
  cases p <;> simp [spotOf]

theorem spotOf_hand (c : ℕ) (x : Option (ℕ × ℕ)) : spotOf idle (Function.update hand c x) kissed =
    Function.update (spotOf idle hand kissed) (.hand c) (x.map Prod.fst).toList := by
  funext p
  cases p with
  | hand i =>
    by_cases hi : i = c
    · subst hi
      simp [spotOf]
    · simp [spotOf, hi]
  | _ => simp [spotOf]

theorem spotOf_kissed (l : List ℕ) : spotOf idle hand l = Function.update (spotOf idle hand kissed) .kissed l := by
  funext p
  cases p <;> simp [spotOf]

end Places

/-! ## The property -/

section Property

def Wq.shelf (s : Wq) : Place → List ℕ := shelfOf s.overflow s.hand s.worker s.done

def Wq.spot (s : Wq) : Spot → List ℕ := spotOf s.idle s.hand s.kissed

/-- The request is given to the worker, or is going to be. -/
def Wq.Assigned (s : Wq) (w r : ℕ) : Prop := (s.worker w).load = some r ∨ ∃ c, s.hand c = some (w, r)

structure WorkOk (s : Wq) : Prop where
  /-- Just the accepted requests are in a place, each in one and once. -/
  place : ∀ r, r ∈ s.accepted ↔ ∃! p, r ∈ s.shelf p
  nodup : ∀ p, (s.shelf p).Nodup
  live : ∀ w r, s.Assigned w r → (s.worker w).pc ≠ .gone
  refused : ∀ r ∈ s.refused, ∀ p, r ∉ s.shelf p
  nqueue : s.nqueue = s.overflow.length
  idle_nodup : s.idle.Nodup
  idle : ∀ w ∈ s.idle, (s.worker w).pc = .waiting ∧ (s.worker w).wrq = none ∧ ∀ r, ¬ s.Assigned w r

end Property

/-! ## The invariant -/

section Steps

/-- Each request and each waiting thread is in one place. -/
structure Inv (s : Wq) (place : ℕ → Option Place) (spot : ℕ → Option Spot) : Prop where
  requests : Shelves place s.shelf
  workers : Shelves spot s.spot
  fits : ∀ w, Fits (s.worker w) (spot w)
  accepted : ∀ r, r ∈ s.accepted ↔ place r ≠ none
  refused : ∀ r ∈ s.refused, place r = none
  lt : ∀ r, r ∈ s.accepted ∨ r ∈ s.refused → r < s.next
  nqueue : s.nqueue = s.overflow.length

variable {s s' : Wq} {place : ℕ → Option Place} {spot : ℕ → Option Spot} {w r c : ℕ} {x : Worker}

theorem fits_update (hf : ∀ w, Fits (s.worker w) (spot w)) {p : Option Spot} (hx : Fits x p) (i : ℕ) :
    Fits (Function.update s.worker w x i) (Function.update spot w p i) := by
  by_cases hi : i = w
  · rwa [hi, Function.update_self, Function.update_self]
  · rw [Function.update_of_ne hi, Function.update_of_ne hi]
    exact hf i

/-- A thread that is in no spot goes on with its request. -/
theorem Inv.goesOn (h : Inv s place spot) (hw : spot w = none) (hload : x.load = (s.worker w).load) (hx : Fits x none) :
    Inv (s.setWorker w x) place spot := by
  refine ⟨?_, h.workers, fun i => ?_, h.accepted, h.refused, h.lt, h.nqueue⟩
  · have hr := h.requests
    rw [Wq.shelf] at hr ⊢
    rw [Wq.setWorker, shelfOf_worker, hload]
    exact (Function.update_eq_self (Place.worker w) (shelfOf s.overflow s.hand s.worker s.done)).symm ▸ hr
  · have hi := fits_update (w := w) h.fits hx i
    rwa [← hw, Function.update_eq_self] at hi

theorem Inv.spot_none (h : Inv s place spot) (hw : (s.worker w).pc ≠ .waiting ∨ (s.worker w).wrq ≠ none) : spot w = none := by
  cases hs : spot w with
  | none => rfl
  | some p =>
    have hf := h.fits w
    rw [hs] at hf
    obtain hw | hw := hw
    · exact absurd hf.1 hw
    · exact absurd hf.2 hw

theorem Inv.waits (h : Inv s place spot) {p : Spot} (hw : w ∈ s.spot p) :
    (s.worker w).pc = .waiting ∧ (s.worker w).wrq = none := by
  have hf := h.fits w
  rwa [(h.workers.mem_iff p w).1 hw] at hf

theorem shelf_worker (hw : (s.worker w).load = none) : s.shelf (.worker w) = [] := by
  rw [Wq.shelf, shelfOf, hw]
  rfl

theorem Inv.place_next (h : Inv s place spot) : place s.next = none := by
  by_contra hne
  exact Nat.lt_irrefl _ (h.lt _ (.inl ((h.accepted _).2 hne)))

/-- A request comes anew. -/
theorem Inv.accepted_put (h : Inv s place spot) (p : Place) (i : ℕ) :
    i ∈ s.next :: s.accepted ↔ Function.update place s.next (some p) i ≠ none := by
  by_cases hi : i = s.next
  · rw [hi, Function.update_self]
    simp
  · rw [Function.update_of_ne hi, ← h.accepted, List.mem_cons]
    exact ⟨fun hm => hm.resolve_left hi, .inr⟩

theorem Inv.refused_put (h : Inv s place spot) (p : Place) (i : ℕ) (hi : i ∈ s.refused) :
    Function.update place s.next (some p) i = none := by
  have := h.lt i (.inr hi)
  rw [Function.update_of_ne (by omega)]
  exact h.refused i hi

theorem Inv.lt_put (h : Inv s place spot) (i : ℕ) (hi : i ∈ s.next :: s.accepted ∨ i ∈ s.refused) : i < s.next + 1 := by
  rw [List.mem_cons, or_assoc] at hi
  obtain rfl | hi := hi
  · exact Nat.lt_succ_self _
  · exact Nat.lt_succ_of_lt (h.lt i hi)

/-- A request that is in a place goes to another one. -/
theorem Inv.accepted_move (h : Inv s place spot) {p : Place} (q : Place) (hr : r ∈ s.shelf p) (i : ℕ) :
    i ∈ s.accepted ↔ Function.update place r (some q) i ≠ none := by
  by_cases hi : i = r
  · rw [hi, Function.update_self, h.accepted, (h.requests.mem_iff p r).1 hr]
    simp
  · rw [Function.update_of_ne hi, h.accepted]

theorem Inv.refused_move (h : Inv s place spot) {p : Place} (q : Place) (hr : r ∈ s.shelf p) (i : ℕ) (hi : i ∈ s.refused) :
    Function.update place r (some q) i = none := by
  have hn := h.refused i hi
  have hne : i ≠ r := fun he => by
    rw [he, (h.requests.mem_iff p r).1 hr] at hn
    cases hn
  rwa [Function.update_of_ne hne]

theorem inv_create (h : Inv s place spot) (hpc : (s.worker w).pc = .gone) :
    Inv (s.setWorker w ⟨.starting, none, none⟩) place spot := by
  refine h.goesOn (h.spot_none (.inl ?_)) ?_ nofun
  · rw [hpc]
    nofun
  · simp [Worker.load, hpc]

theorem inv_clear (h : Inv s place spot) (hpc : (s.worker w).pc = .ran) : Inv (wrkClear s w) place spot := by
  refine h.goesOn (h.spot_none (.inl ?_)) ?_ nofun
  · rw [hpc]
    nofun
  · simp [Worker.load, hpc]

theorem inv_wake (h : Inv s place spot) (hpc : (s.worker w).pc = .waiting) (hgood : (s.worker w).wrq ≠ none ∨ w ∈ s.kissed) :
    ∃ spot', Inv (wrkWake s w) place spot' := by
  unfold wrkWake
  cases hr : (s.worker w).wrq with
  | some r =>
    refine ⟨spot, h.goesOn (h.spot_none (.inr (by rw [hr]; exact nofun))) ?_ fun _ => ?_⟩
    · simp [Worker.load, hpc]
    · rw [hr]
      nofun
  | none =>
    have hk : w ∈ s.kissed := hgood.resolve_left fun hne => hne hr
    have hload : (s.worker w).load = none := by simp [Worker.load, hr]
    refine ⟨Function.update spot w none, ?_, ?_, fits_update h.fits (by simp [Fits]), h.accepted, h.refused, h.lt, h.nqueue⟩
    · have hq := h.requests
      simp only [Wq.shelf, Wq.setWorker] at hq ⊢
      rw [shelfOf_worker, show (Worker.mk .gone (s.worker w).wrq (s.worker w).lastused).load = (s.worker w).load by
        rw [hload]; rfl]
      exact (Function.update_eq_self (Place.worker w) (shelfOf s.overflow s.hand s.worker s.done)).symm ▸ hq
    · have hm := (h.workers.reorder (p := .kissed) (List.perm_cons_erase hk)).take (Function.update_self _ _ _)
      rw [Function.update_idem] at hm
      simp only [Wq.spot, Wq.setWorker] at hm ⊢
      rwa [spotOf_kissed]

theorem inv_run (h : Inv s place spot) (hpc : (s.worker w).pc = .got) (hs : wrkRun s w = some s') :
    ∃ place', Inv s' place' spot := by
  unfold wrkRun at hs
  cases hr : (s.worker w).wrq with
  | none =>
    rw [hr] at hs
    cases hs
  | some r =>
    rw [hr] at hs
    cases hs
    have hw := h.spot_none (w := w) (.inl (by rw [hpc]; exact nofun))
    have hl : s.shelf (.worker w) = [r] := by simp [Wq.shelf, shelfOf, Worker.load, hpc, hr]
    have hmem : r ∈ s.shelf (.worker w) := hl ▸ List.mem_singleton_self r
    refine ⟨Function.update place r (some .done), ?_, h.workers, fun i => ?_, h.accepted_move .done hmem, h.refused_move .done hmem,
      h.lt, h.nqueue⟩
    · have hm := h.requests.move hl (q := .done) nofun
      simp only [Wq.shelf, Wq.setWorker] at hm ⊢
      rwa [shelfOf_done, shelfOf_worker]
    · have hi := fits_update (w := w) (x := ⟨.ran, some r, none⟩) (p := none) h.fits (by simp [Fits]) i
      rw [← hw, Function.update_eq_self] at hi
      simp only [Wq.setWorker, hr]
      exact hi

theorem inv_loop {now : ℤ} (h : Inv s place spot) (hpc : (s.worker w).pc = .starting ∨ (s.worker w).pc = .looping) :
    ∃ place' spot', Inv (wrkLoop now s w) place' spot' := by
  have hw : spot w = none := h.spot_none (.inl (by rcases hpc with hpc | hpc <;> rw [hpc] <;> nofun))
  have hload : (s.worker w).load = none := by rcases hpc with hpc | hpc <;> simp [Worker.load, hpc]
  have hsame : Function.update s.shelf (.worker w) [] = s.shelf := by
    rw [← shelf_worker hload]
    exact Function.update_eq_self (Place.worker w) s.shelf
  unfold wrkLoop
  cases hq : s.overflow with
  | cons r l =>
    have hl : s.shelf .queue = r :: l := hq
    have hmem : r ∈ s.shelf .queue := hl ▸ List.mem_cons_self
    refine ⟨Function.update place r (some (.worker w)), spot, ?_, h.workers, fun i => ?_, h.accepted_move (.worker w) hmem,
      h.refused_move (.worker w) hmem, h.lt, ?_⟩
    · have hm := h.requests.move hl (q := .worker w) nofun
      rw [shelf_worker hload] at hm
      simp only [Wq.shelf, Wq.setWorker] at hm ⊢
      rwa [shelfOf_worker, shelfOf_queue]
    · have hi := fits_update (w := w) (x := ⟨.got, some r, (s.worker w).lastused⟩) (p := none) h.fits (by simp [Fits]) i
      rwa [← hw, Function.update_eq_self] at hi
    · have := h.nqueue
      rw [hq, List.length_cons] at this
      show s.nqueue - 1 = l.length
      omega
  | nil =>
    refine ⟨place, Function.update spot w (some .idle), ?_, ?_, fits_update h.fits ⟨rfl, rfl⟩, h.accepted, h.refused, h.lt, h.nqueue⟩
    · have hr := h.requests
      rw [← hsame] at hr
      simp only [Wq.shelf, Wq.setWorker, hq] at hr ⊢
      rwa [shelfOf_worker]
    · have hm := h.workers.put hw .idle
      simp only [Wq.spot, Wq.setWorker] at hm ⊢
      rwa [spotOf_idle]

theorem inv_queue {ovflMax : ℕ} (h : Inv s place spot) (hc : s.hand c = none) :
    ∃ place' spot', Inv (wrkQueue ovflMax s c) place' spot' := by
  have hshelf : s.shelf (.hand c) = [] := by simp [Wq.shelf, shelfOf, hc]
  have hspot : s.spot (.hand c) = [] := by simp [Wq.spot, spotOf, hc]
  unfold wrkQueue
  cases hi : s.idle with
  | cons w l =>
    have hl : s.spot .idle = w :: l := hi
    have hw := h.waits (p := .idle) (hl ▸ List.mem_cons_self)
    refine ⟨_, Function.update spot w (some (.hand c)), ?_, ?_, fun i => ?_, h.accepted_put (.hand c), h.refused_put (.hand c),
      h.lt_put, h.nqueue⟩
    · have hm := h.requests.put h.place_next (.hand c)
      rw [hshelf] at hm
      simp only [Wq.shelf] at hm ⊢
      rwa [shelfOf_hand]
    · have hm := h.workers.move hl (q := .hand c) nofun
      rw [hspot] at hm
      simp only [Wq.spot] at hm ⊢
      rwa [spotOf_hand, spotOf_idle]
    · have hf := fits_update (w := w) (x := s.worker w) (p := some (.hand c)) h.fits hw i
      rwa [Function.update_eq_self] at hf
  | nil =>
    simp only
    split
    · refine ⟨place, spot, h.requests, ?_, h.fits, h.accepted, fun i hr => ?_, fun i hr => ?_, h.nqueue⟩
      · have hm := h.workers
        rwa [Wq.spot, hi] at hm
      · obtain rfl | hr := List.mem_cons.1 hr
        · exact h.place_next
        · exact h.refused i hr
      · obtain hr | hr := hr
        · exact Nat.lt_succ_of_lt (h.lt i (.inl hr))
        · obtain rfl | hr := List.mem_cons.1 hr
          · exact Nat.lt_succ_self _
          · exact Nat.lt_succ_of_lt (h.lt i (.inr hr))
    · refine ⟨_, spot, ?_, ?_, h.fits, h.accepted_put .queue, h.refused_put .queue, h.lt_put, ?_⟩
      · have hm := (h.requests.put h.place_next .queue).reorder (p := .queue) (l := s.overflow ++ [s.next]) (by
          rw [Function.update_self]
          exact (List.perm_append_singleton s.next s.overflow).symm)
        rw [Function.update_idem] at hm
        simp only [Wq.shelf] at hm ⊢
        rwa [shelfOf_queue]
      · have hm := h.workers
        rwa [Wq.spot, hi] at hm
      · simp [h.nqueue]

theorem inv_store (h : Inv s place spot) (hc : s.hand c = some (w, r)) :
    ∃ place' spot', Inv (wrkStore s c w r) place' spot' := by
  have hshelf : s.shelf (.hand c) = [r] := by simp [Wq.shelf, shelfOf, hc]
  have hspot : s.spot (.hand c) = [w] := by simp [Wq.spot, spotOf, hc]
  have hmem : r ∈ s.shelf (.hand c) := hshelf ▸ List.mem_singleton_self r
  have hw := h.waits (p := .hand c) (hspot ▸ List.mem_singleton_self w)
  refine ⟨Function.update place r (some (.worker w)), Function.update spot w none, ?_, ?_, fits_update h.fits (by simp [Fits]),
    h.accepted_move (.worker w) hmem, h.refused_move (.worker w) hmem, h.lt, h.nqueue⟩
  · have hm := h.requests.move hshelf (q := .worker w) nofun
    rw [shelf_worker (by simp [Worker.load, hw.2])] at hm
    simp only [Wq.shelf, wrkStore, Wq.setWorker] at hm ⊢
    rw [shelfOf_worker, shelfOf_hand]
    simpa [Worker.load, hw.1] using hm
  · have hm := h.workers.take hspot
    simp only [Wq.spot, wrkStore, Wq.setWorker] at hm ⊢
    rwa [spotOf_hand]

theorem inv_decimate {tIdle : ℤ} {wthreadMin nthrMax : ℕ} (h : Inv s place spot) :
    ∃ spot', Inv (wrkDecimateFlock tIdle wthreadMin nthrMax s) place spot' := by
  unfold wrkDecimateFlock
  split
  · split
    · rename_i w hlast
      split
      · have hl : s.idle = s.idle.dropLast ++ [w] := (List.dropLast_append_getLast? w hlast).symm
        have hw := h.waits (p := .idle) (show w ∈ s.idle by rw [hl]; simp)
        have hperm : (s.spot .idle).Perm (w :: s.idle.dropLast) := by
          show s.idle.Perm _
          nth_rewrite 1 [hl]
          exact List.perm_append_singleton w _
        refine ⟨Function.update spot w (some .kissed), h.requests, ?_, fun i => ?_, h.accepted, h.refused, h.lt, h.nqueue⟩
        · have hm := (h.workers.reorder hperm).move (Function.update_self _ _ _) (q := .kissed) nofun
          rw [Function.update_idem, Function.update_of_ne (by nofun)] at hm
          simp only [Wq.spot] at hm ⊢
          rwa [spotOf_kissed, spotOf_idle]
        · have hf := fits_update (w := w) (x := s.worker w) (p := some .kissed) h.fits hw i
          rwa [Function.update_eq_self] at hf
      · exact ⟨spot, h⟩
    · exact ⟨spot, h⟩
  · exact ⟨spot, h⟩

theorem inv_step {a : Act} (h : Inv s place spot) (hgood : a.Good s) (hs : wrkStep s a = some s') :
    ∃ place' spot', Inv s' place' spot' := by
  cases a with
  | create w =>
    rw [wrkStep] at hs
    split at hs
    · cases hs
      exact ⟨_, _, inv_create h ‹_›⟩
    · cases hs
  | loop w now =>
    rw [wrkStep] at hs
    split at hs
    · rename_i hpc
      cases hs
      have hn : Inv { s with nthr := s.nthr + 1 } place spot :=
        ⟨h.requests, h.workers, h.fits, h.accepted, h.refused, h.lt, h.nqueue⟩
      exact inv_loop hn (.inl hpc)
    · rename_i hpc
      cases hs
      exact inv_loop h (.inr hpc)
    · cases hs
  | wake w =>
    rw [wrkStep] at hs
    split at hs
    · cases hs
      obtain ⟨spot', h'⟩ := inv_wake h ‹_› hgood
      exact ⟨_, spot', h'⟩
    · cases hs
  | run w =>
    rw [wrkStep] at hs
    split at hs
    · obtain ⟨place', h'⟩ := inv_run h ‹_› hs
      exact ⟨place', _, h'⟩
    · cases hs
  | clear w =>
    rw [wrkStep] at hs
    split at hs
    · cases hs
      exact ⟨_, _, inv_clear h ‹_›⟩
    · cases hs
  | queue c ovflMax =>
    rw [wrkStep] at hs
    split at hs
    · cases hs
      exact inv_queue h ‹_›
    · cases hs
  | store c =>
    rw [wrkStep] at hs
    split at hs
    · cases hs
      exact inv_store h ‹_›
    · cases hs
  | decimate tIdle wthreadMin nthrMax =>
    cases hs
    obtain ⟨spot', h'⟩ := inv_decimate h
    exact ⟨_, spot', h'⟩

theorem inv_init : Inv Wq.init (fun _ => none) fun _ => none := by
  refine ⟨⟨fun p => ?_, fun p x => ?_⟩, ⟨fun p => ?_, fun p x => ?_⟩, fun w => ?_, fun r => ?_, nofun, fun r hr => ?_, rfl⟩
  all_goals try cases p
  all_goals simp_all [Wq.shelf, shelfOf, Wq.spot, spotOf, Wq.init, Worker.load, Fits]

end Steps

/-! ## The result -/

section Result

variable {s s' : Wq} {place : ℕ → Option Place} {spot : ℕ → Option Spot}

theorem Inv.workOk (h : Inv s place spot) : WorkOk s := by
  have hidle : ∀ w r, s.Assigned w r → (s.worker w).pc ≠ .gone ∧ w ∉ s.idle := fun w r ha => by
    obtain hl | ⟨c, hc⟩ := ha
    · have hne : (s.worker w).wrq ≠ none ∧ (s.worker w).pc ≠ .gone := by
        rw [Worker.load] at hl
        split at hl
        · rename_i hpc
          exact ⟨by rw [hl]; nofun, by rcases hpc with hpc | hpc <;> rw [hpc] <;> nofun⟩
        · cases hl
      exact ⟨hne.2, fun hm => hne.1 (h.waits (p := .idle) hm).2⟩
    · have hm : w ∈ s.spot (.hand c) := by simp [Wq.spot, spotOf, hc]
      refine ⟨by rw [(h.waits hm).1]; nofun, fun hi => ?_⟩
      cases h.workers.unique hm (show w ∈ s.spot .idle from hi)
  refine ⟨fun r => ?_, h.requests.nodup, fun w r ha => (hidle w r ha).1, fun r hr p hm => ?_, h.nqueue, h.workers.nodup .idle,
    fun w hw => ?_⟩
  · rw [h.accepted]
    constructor
    · intro hne
      obtain ⟨p, hp⟩ := Option.ne_none_iff_exists'.1 hne
      have hm := (h.requests.mem_iff p r).2 hp
      exact ⟨p, hm, fun q hq => h.requests.unique hq hm⟩
    · rintro ⟨p, hp, -⟩
      rw [(h.requests.mem_iff p r).1 hp]
      nofun
  · have hn := h.refused r hr
    rw [(h.requests.mem_iff p r).1 hm] at hn
    cases hn
  · have hwt := h.waits (p := .idle) hw
    exact ⟨hwt.1, hwt.2, fun r ha => (hidle w r ha).2 hw⟩

/-- A thread that comes out of its wait for no reason is missing where it was. -/
theorem Inv.good_of_workOk {a : Act} (h : Inv s place spot) (hs : wrkStep s a = some s') (hok : WorkOk s') : a.Good s := by
  cases a with
  | wake w =>
    rw [wrkStep] at hs
    split at hs
    · rename_i hpc
      cases hs
      by_contra hbad
      obtain ⟨hr, hk⟩ := not_or.1 hbad
      rw [not_not] at hr
      have hwake : wrkWake s w =
          { s.setWorker w { s.worker w with pc := .gone } with nthr := s.nthr - 1, kissed := s.kissed.erase w } := by
        rw [wrkWake, hr]
      have hgone : ((wrkWake s w).worker w).pc = .gone := by
        rw [hwake]
        simp [Wq.setWorker]
      cases hw : spot w with
      | none =>
        have hf := h.fits w
        rw [hw] at hf
        exact hf (.inl hpc) hr
      | some p =>
        have hm := (h.workers.mem_iff p w).2 hw
        cases p with
        | idle =>
          have hi : w ∈ (wrkWake s w).idle := by
            rw [hwake]
            exact hm
          rw [(hok.idle w hi).1] at hgone
          cases hgone
        | hand c =>
          obtain ⟨x, hx, rfl⟩ : ∃ x, s.hand c = some x ∧ x.1 = w := by simpa [Wq.spot, spotOf] using hm
          refine hok.live x.1 x.2 (.inr ⟨c, ?_⟩) hgone
          rw [hwake]
          exact hx
        | kissed => exact hk hm
    · cases hs
  | _ => trivial

/-- As long as no thread comes out of its wait without a request unless it was sent home, and no longer, the work is all right. -/
theorem reach_workOk_iff (h : Reach wrkStep Act.Good Wq.init s) :
    WorkOk s ∧ ∀ a s', wrkStep s a = some s' → (a.Good s ↔ WorkOk s') := by
  obtain ⟨place, spot, hi⟩ := h.inv (I := fun s => ∃ place spot, Inv s place spot) ⟨_, _, inv_init⟩
    fun _ _ _ ⟨_, _, hi⟩ hgood hs => inv_step hi hgood hs
  refine ⟨hi.workOk, fun a s' hs => ⟨fun hgood => ?_, hi.good_of_workOk hs⟩⟩
  obtain ⟨place', spot', hi'⟩ := inv_step hi hgood hs
  exact hi'.workOk

/-- A request is handed over. -/
theorem reach_workOk_iff_handed : ∃ s, Reach wrkStep Act.Good Wq.init s ∧ s.shelf (.worker 4) = [0] ∧ WorkOk s := by
  have h1 : Reach wrkStep Act.Good Wq.init _ := Reach.refl.tail (Act.create 4) trivial rfl
  have h2 := h1.tail (Act.loop 4 100) trivial rfl
  have h3 := h2.tail (Act.queue 9 1) trivial rfl
  have h4 := h3.tail (Act.store 9) trivial rfl
  have h5 := h4.tail (Act.wake 4) (.inl nofun) rfl
  exact ⟨_, h5, rfl, (reach_workOk_iff h5).1⟩

/-- A thread is taken off the idle list, and comes out of its wait before the request is given to it. -/
theorem not_reach_workOk : ¬ ∀ s, Reach wrkStep (fun _ _ => True) Wq.init s → WorkOk s := by
  intro hall
  have h1 : Reach wrkStep (fun _ _ => True) Wq.init _ := Reach.refl.tail (Act.create 4) trivial rfl
  have h2 := h1.tail (Act.loop 4 100) trivial rfl
  have h3 := h2.tail (Act.queue 9 1) trivial rfl
  have h4 := h3.tail (Act.wake 4) trivial rfl
  exact (hall _ h4).live 4 0 (.inr ⟨9, rfl⟩) rfl

end Result

end Varnish.Wrk
