import Mathlib.Tactic.Tauto
import Varnish.Center.Model

/-!
# Varnish.Center.Owner — what a session owns

* `Refs.Ok`: the references of the session are accounted for.
* `AtStep`: the pointers of a session in front of each state.
* `inv_exec`: no check of a pointer fails, and every turn keeps the invariant `Inv`.
* `reach_session`: in every run the checks hold, and a session that waits or is deleted has given back every reference once,
  if no session is dropped when it comes off a waiting list.
-/

namespace Varnish.Center

open Varnish.Lib Varnish.Vcc

/-! ## Accounts -/

namespace Refs

variable {r : Refs}

def owned (r : Refs) : List ℕ := r.obj.toList ++ r.objcore.toList ++ r.objhead.toList ++ r.vcl.toList ++ r.saved

/-- Each reference is owned, or was given back once. -/
def Ok (r : Refs) : Prop := r.ledger.Accounts r.owned

/-- Which of the pointers are set. -/
def Has (r : Refs) (obj objcore objhead vcl : Bool) : Prop :=
  r.obj.isSome = obj ∧ r.objcore.isSome = objcore ∧ r.objhead.isSome = objhead ∧ r.vcl.isSome = vcl

theorem Ok.newObj (h : r.Ok) (ho : r.obj = none) : r.newObj.Ok :=
  (Ledger.Accounts.take h).swap fun i => by simp [Refs.newObj, owned, ho]

theorem Ok.takeVcl (h : r.Ok) (ho : r.vcl = none) : r.takeVcl.Ok :=
  (Ledger.Accounts.take h).swap fun i => by
    simp [Refs.takeVcl, owned, ho, List.count_cons]
    omega

theorem Ok.takeCore (h : r.Ok) (ho : r.objcore = none) : r.takeCore.Ok :=
  (Ledger.Accounts.take h).swap fun i => by
    simp [Refs.takeCore, owned, ho, List.count_cons]
    omega

theorem Ok.takeHead (h : r.Ok) : r.takeHead.Ok := by
  unfold Refs.takeHead
  split
  next ho =>
    refine (Ledger.Accounts.take h).swap fun i => ?_
    simp [owned, ho, List.count_cons]
    omega
  · exact h

theorem Ok.derefObj (h : r.Ok) : r.derefObj.Ok :=
  Ledger.Accounts.giveBack h fun i => by
    simp only [Refs.derefObj, owned, List.count_append, Option.toList_none, List.count_nil]
    omega

theorem Ok.derefHead (h : r.Ok) : r.derefHead.Ok :=
  Ledger.Accounts.giveBack h fun i => by
    simp only [Refs.derefHead, owned, List.count_append, Option.toList_none, List.count_nil]
    omega

theorem Ok.derefObjCore (h : r.Ok) : r.derefObjCore.Ok :=
  Ledger.Accounts.giveBack h.derefHead fun i => by
    simp only [Refs.derefObjCore, Refs.derefHead, owned, List.count_append, Option.toList_none, List.count_nil]
    omega

theorem Ok.giveVcl (h : r.Ok) : r.giveVcl.Ok :=
  Ledger.Accounts.giveBack h fun i => by
    simp only [Refs.giveVcl, owned, List.count_append, Option.toList_none, List.count_nil]
    omega

theorem Ok.save (h : r.Ok) : r.save.Ok :=
  Ledger.Accounts.swap h fun i => by
    cases ho : r.obj with
    | none => simp [Refs.save, owned, ho]
    | some o =>
      simp [Refs.save, owned, ho, List.count_cons]
      omega

theorem Ok.restore (h : r.Ok) (ho : r.obj = none) : r.restore.Ok :=
  Ledger.Accounts.swap h fun i => by
    cases hs : r.saved with
    | nil => simp [Refs.restore, owned, ho, hs]
    | cons o saved =>
      simp [Refs.restore, owned, ho, hs, List.count_cons]
      omega

/-- A pointer that is `NULL` anyway is cleared. -/
theorem Ok.clearCore (h : r.Ok) (ho : r.objcore = none) : Ok { r with objcore := none } := by
  rw [← ho]
  exact h

end Refs

/-! ## The pointers in front of each state -/

section Shape

/-- Nothing is left of a request. -/
def Idle (s : Sess) : Prop :=
  s.refs.Has false false false false ∧ s.refs.saved = [] ∧ s.director = false ∧ s.vbe = false ∧ s.restarts = 0 ∧ s.xid = 0

/-- What the state that is next finds. -/
def AtStep (s : Sess) : Prop :=
  match s.step with
  | .first => Idle s
  | .wait => Idle s
  | .start => Idle s
  | .recv => s.refs.Has false false false true ∧ s.director = false ∧ s.vbe = false
  | .lookup => (s.refs.Has false false false true ∨ s.refs.Has false false true true) ∧ s.director = true ∧ s.vbe = false
  | .hit => s.refs.Has true false false true ∧ s.director = true ∧ s.vbe = false
  | .miss => s.refs.Has false true true true ∧ s.director = true ∧ s.vbe = false
  | .pass => s.refs.Has false false false true ∧ s.director = true ∧ s.vbe = false
  | .fetch => (s.refs.Has false false false true ∨ s.refs.Has false true true true) ∧ s.director = true ∧ s.vbe = false
  | .deliver => s.refs.Has true false false true ∧ s.vbe = false
  | .error => s.refs.Has false false false true ∧ s.vbe = false
  | .pipe => s.refs.Has false false false true ∧ s.vbe = false
  | .done => (s.refs.Has false false false true ∨ s.refs.Has false false false false ∧ s.refs.saved = []) ∧ s.vbe = false

/-- What whoever has the session finds. -/
def AtPlace (dropped : Prop) (s : Sess) : Prop :=
  match s.place with
  | .acceptor => s.step = .first ∧ Idle s
  | .queue => (s.step = .first ∨ s.step = .start ∨ s.step = .lookup ∧ s.refs.saved = []) ∧ AtStep s
  | .worker => AtStep s
  | .esi _ => s.refs.Has true false false true ∧ s.director = false ∧ s.vbe = false ∧ s.restarts = 0
  | .parked => s.step = .lookup ∧ s.refs.saved = [] ∧ AtStep s
  | .waiter => Idle s
  | .lost => Idle s
  | .deleted => s.refs.owned = [] ∨ dropped

/-- The invariant of a session; `dropped` says if one may be dropped when it comes off a waiting list. -/
structure Inv (dropped : Prop) (s : Sess) : Prop where
  ok : s.refs.Ok
  place : AtPlace dropped s

/-- A turn that is safe: no check of a pointer fails, and the invariant holds behind it. -/
def Safe (dropped : Prop) (r : Except Stop Sess) : Prop := r ≠ .error .check ∧ ∀ s', r = .ok s' → Inv dropped s'

variable {dropped : Prop} {s s' : Sess}

@[simp] theorem safe_ok : Safe dropped (.ok s) ↔ Inv dropped s := by simp [Safe]

@[simp] theorem safe_error {e : Stop} : Safe dropped (.error e) ↔ e ≠ .check := by simp [Safe]

theorem Refs.Has.obj {r : Refs} {a b c d : Bool} (h : r.Has a b c d) : r.obj = none ↔ a = false := by
  rw [← h.1]
  simp

theorem Refs.Has.objcore {r : Refs} {a b c d : Bool} (h : r.Has a b c d) : r.objcore = none ↔ b = false := by
  rw [← h.2.1]
  simp

theorem Refs.Has.objhead {r : Refs} {a b c d : Bool} (h : r.Has a b c d) : r.objhead = none ↔ c = false := by
  rw [← h.2.2.1]
  simp

theorem Refs.Has.vcl {r : Refs} {a b c d : Bool} (h : r.Has a b c d) : r.vcl = none ↔ d = false := by
  rw [← h.2.2.2]
  simp

theorem Refs.Has.owned {r : Refs} (h : r.Has false false false false) (hs : r.saved = []) : r.owned = [] := by
  simp [Refs.owned, h.obj.mpr, h.objcore.mpr, h.objhead.mpr, h.vcl.mpr, hs]

end Shape

/-! ## Every turn is safe -/

section Turns

variable {p : Params} {dropped : Prop} {s s' : Sess} {ret : Ret}

theorem Inv.atStep (h : Inv dropped s) (hp : s.place = .worker) : AtStep s := by
  have hplace := h.place
  simpa only [AtPlace, hp] using hplace

/-- The session stays with its worker. -/
theorem inv_worker (hok : s.refs.Ok) (hp : s.place = .worker) (hat : AtStep s) : Inv dropped s :=
  ⟨hok, by simpa only [AtPlace, hp] using hat⟩

theorem safe_delete (hok : s.refs.Ok) (ho : s.refs.obj = none) (hv : s.refs.vcl = none) (hd : s.refs.owned = [] ∨ dropped) :
    Safe dropped (sesDelete s) := by
  unfold sesDelete
  rw [if_neg (by simp [ho, hv])]
  exact safe_ok.mpr ⟨hok, hd⟩

theorem safe_sesDelete (hok : s.refs.Ok) (h : s.refs.Has false false false false) (hs : s.refs.saved = []) :
    Safe dropped (sesDelete s) :=
  safe_delete hok (h.obj.mpr rfl) (h.vcl.mpr rfl) (.inl (h.owned hs))

theorem safe_returnSession (hok : s.refs.Ok) (h : Idle s) (nonblocking : Bool) : Safe dropped (returnSession s nonblocking) := by
  unfold returnSession
  rw [if_neg (by simp [h.1.obj, h.1.vcl])]
  split
  · simp
  split
  · exact safe_ok.mpr ⟨hok, h⟩
  · exact safe_ok.mpr ⟨hok, h⟩

theorem safe_cntFirst (h : Inv dropped s) (hp : s.place = .worker) (hs : s.step = .first) : Safe dropped (cntFirst s) := by
  have hat := h.atStep hp
  simp only [AtStep, hs] at hat
  obtain ⟨-, -, -, -, hr, hx⟩ := id hat
  unfold cntFirst
  rw [if_neg (by simp [hr, hx])]
  exact safe_ok.mpr (inv_worker h.ok hp hat)

theorem safe_cntWait (h : Inv dropped s) (hp : s.place = .worker) (hs : s.step = .wait) (complete poll : Bool) (r : Rx)
    (nonblocking : Bool) : Safe dropped (cntWait p s complete poll r nonblocking) := by
  have hat := h.atStep hp
  simp only [AtStep, hs] at hat
  obtain ⟨hhas, hsaved, hdir, hvbe, hr, hx⟩ := id hat
  unfold cntWait
  rw [if_neg (by simp [hhas.vcl, hhas.obj, hx])]
  split
  · exact safe_returnSession h.ok hat nonblocking
  · exact safe_ok.mpr (inv_worker h.ok hp hat)
  · refine safe_ok.mpr (inv_worker h.ok hp ?_)
    simp only [AtStep, closeSession, hs]
    exact hat
  · exact safe_ok.mpr (inv_worker h.ok hp ⟨.inr ⟨hhas, hsaved⟩, hvbe⟩)

theorem safe_cntStart (h : Inv dropped s) (hp : s.place = .worker) (hs : s.step = .start) (xid : ℕ) (o : Start)
    (doclose : Bool) : Safe dropped (cntStart s xid o doclose) := by
  have hat := h.atStep hp
  simp only [AtStep, hs] at hat
  obtain ⟨hhas, hsaved, hdir, hvbe, hr, -⟩ := hat
  have hok : s.refs.takeVcl.Ok := h.ok.takeVcl (hhas.vcl.mpr rfl)
  have hnew : s.refs.takeVcl.Has false false false true := ⟨hhas.1, hhas.2.1, hhas.2.2.1, rfl⟩
  unfold cntStart
  rw [if_neg (by simp [hhas.vcl, hhas.obj, hr])]
  cases o with
  | junk => exact safe_ok.mpr (inv_worker hok hp ⟨.inl hnew, hvbe⟩)
  | refused => exact safe_ok.mpr (inv_worker hok hp ⟨hnew, hvbe⟩)
  | expect => exact safe_ok.mpr (inv_worker hok hp ⟨hnew, hvbe⟩)
  | ok => exact safe_ok.mpr (inv_worker hok hp ⟨hnew, hdir, hvbe⟩)

theorem safe_cntRecv (h : Inv dropped s) (hp : s.place = .worker) (hs : s.step = .recv) (hashing : Ret) :
    Safe dropped (cntRecv p s ret hashing) := by
  have hat := h.atStep hp
  simp only [AtStep, hs] at hat
  obtain ⟨hhas, hdir, hvbe⟩ := hat
  unfold cntRecv
  rw [if_neg (by simp [hhas.vcl, hhas.obj, hdir])]
  dsimp only
  split
  · simp
  split
  · exact safe_ok.mpr (inv_worker h.ok hp ⟨hhas, hvbe⟩)
  split
  · simp
  split
  · exact safe_ok.mpr (inv_worker h.ok hp ⟨.inl hhas, rfl, hvbe⟩)
  · split
    · simp
    · exact safe_ok.mpr (inv_worker h.ok hp ⟨hhas, hvbe⟩)
  · exact safe_ok.mpr (inv_worker h.ok hp ⟨hhas, rfl, hvbe⟩)
  · exact safe_ok.mpr (inv_worker h.ok hp ⟨hhas, hvbe⟩)
  · simp

theorem has_takeHead {r : Refs} (h : r.Has false false false true ∨ r.Has false false true true) :
    r.takeHead.Has false false true true := by
  unfold Refs.takeHead
  rcases h with h | h
  · rw [if_pos (h.objhead.mpr rfl)]
    exact ⟨h.1, h.2.1, rfl, h.2.2.2⟩
  · rw [if_neg (by simp [h.objhead])]
    exact h

theorem saved_takeHead (r : Refs) : r.takeHead.saved = r.saved := by
  unfold Refs.takeHead
  split <;> rfl

theorem safe_cntLookup (h : Inv dropped s) (hp : s.place = .worker) (hs : s.step = .lookup) (o : Lookup) :
    Safe dropped (cntLookup s o) := by
  have hat := h.atStep hp
  simp only [AtStep, hs] at hat
  obtain ⟨hhas, hdir, hvbe⟩ := hat
  have hok := h.ok.takeHead
  have hhead := has_takeHead hhas
  have hvcl : s.refs.vcl ≠ none := by
    rcases hhas with hhas | hhas <;> simp [hhas.vcl]
  unfold cntLookup
  rw [if_neg (by simp [hvcl, hdir])]
  cases o with
  | busy =>
    refine safe_ok.mpr ⟨hok, ?_⟩
    by_cases he : s.esis = 0
    · simp only [AtPlace, he, if_true]
      have hsaved : s.refs.takeHead.saved = [] := (saved_takeHead _).trans (List.length_eq_zero_iff.mp he)
      refine ⟨hs, hsaved, ?_⟩
      simp only [AtStep, hs]
      exact ⟨.inr hhead, hdir, hvbe⟩
    · simp only [AtPlace, he, if_false, AtStep, hs]
      exact ⟨.inr hhead, hdir, hvbe⟩
  | miss =>
    refine safe_ok.mpr (inv_worker (hok.takeCore (hhead.objcore.mpr rfl)) hp ?_)
    exact ⟨⟨hhead.1, rfl, hhead.2.2.1, hhead.2.2.2⟩, hdir, hvbe⟩
  | hit =>
    refine safe_ok.mpr (inv_worker (hok.derefHead.newObj (hhead.obj.mpr rfl)) hp ?_)
    exact ⟨⟨rfl, hhead.2.1, rfl, hhead.2.2.2⟩, hdir, hvbe⟩
  | hitPass =>
    have hobj := (hok.derefHead.newObj (hhead.obj.mpr rfl)).derefObj
    refine safe_ok.mpr (inv_worker (hobj.clearCore (hhead.objcore.mpr rfl)) hp ?_)
    exact ⟨⟨rfl, rfl, rfl, hhead.2.2.2⟩, hdir, hvbe⟩

theorem safe_cntHit (h : Inv dropped s) (hp : s.place = .worker) (hs : s.step = .hit) : Safe dropped (cntHit s ret) := by
  have hat := h.atStep hp
  simp only [AtStep, hs] at hat
  obtain ⟨hhas, hdir, hvbe⟩ := hat
  have hok : Refs.Ok { s.refs.derefObj with objcore := none } := h.ok.derefObj.clearCore (hhas.objcore.mpr rfl)
  have hnone : Refs.Has { s.refs.derefObj with objcore := none } false false false true := ⟨rfl, rfl, hhas.2.2.1, hhas.2.2.2⟩
  unfold cntHit
  rw [if_neg (by simp [hhas.vcl, hhas.obj])]
  split
  · simp
  split
  · exact safe_ok.mpr (inv_worker h.ok hp ⟨hhas, hvbe⟩)
  dsimp only
  rw [if_neg (by simp [hnone.objhead])]
  split
  · exact safe_ok.mpr (inv_worker hok hp ⟨hnone, hdir, hvbe⟩)
  · exact safe_ok.mpr (inv_worker hok hp ⟨hnone, hvbe⟩)
  · exact safe_ok.mpr (inv_worker hok hp ⟨hnone, rfl, hvbe⟩)
  · simp

theorem safe_cntMiss (h : Inv dropped s) (hp : s.place = .worker) (hs : s.step = .miss) : Safe dropped (cntMiss s ret) := by
  have hat := h.atStep hp
  simp only [AtStep, hs] at hat
  obtain ⟨hhas, hdir, hvbe⟩ := hat
  have hok := h.ok.derefObjCore
  have hnone : s.refs.derefObjCore.Has false false false true := ⟨hhas.1, rfl, rfl, hhas.2.2.2⟩
  unfold cntMiss
  rw [if_neg (by simp [hhas.vcl, hhas.obj, hhas.objcore, hhas.objhead])]
  split
  · simp
  split
  · exact safe_ok.mpr (inv_worker hok hp ⟨hnone, hvbe⟩)
  · exact safe_ok.mpr (inv_worker hok hp ⟨hnone, hdir, hvbe⟩)
  · exact safe_ok.mpr (inv_worker h.ok hp ⟨.inr hhas, hdir, hvbe⟩)
  · simp

theorem safe_cntPass (h : Inv dropped s) (hp : s.place = .worker) (hs : s.step = .pass) : Safe dropped (cntPass s ret) := by
  have hat := h.atStep hp
  simp only [AtStep, hs] at hat
  obtain ⟨hhas, hdir, hvbe⟩ := hat
  unfold cntPass
  rw [if_neg (by simp [hhas.vcl, hhas.obj])]
  split
  · simp
  split
  · exact safe_ok.mpr (inv_worker h.ok hp ⟨hhas, hvbe⟩)
  · exact safe_ok.mpr (inv_worker h.ok hp ⟨.inl hhas, hdir, hvbe⟩)
  · simp

theorem has_derefObjCore {r : Refs} {b : Bool} (h : r.Has false b b true) : r.derefObjCore.Has false false false true :=
  ⟨h.1, rfl, rfl, h.2.2.2⟩

theorem safe_fetchObj {b : Bool} (hok : s.refs.Ok) (hp : s.place = .worker) (hhas : s.refs.Has false b b true)
    (hdir : s.director = true) (o : Fetch) : Safe dropped (fetchObj s o) := by
  unfold fetchObj
  rw [if_neg (by simp [hhas.objcore, hhas.objhead])]
  dsimp only
  -- what is left of the busy objcore and its objhead when the object is made
  generalize hrefs : (if (o.cacheable && s.refs.objcore.isSome) = true then s.refs else s.refs.derefObjCore) = refs
  have hboth : refs.Ok ∧ ∃ c, refs.Has false c c true := by
    subst hrefs
    split
    · exact ⟨hok, b, hhas⟩
    · exact ⟨hok.derefObjCore, false, has_derefObjCore hhas⟩
  obtain ⟨hok', c, hhas'⟩ := hboth
  have hnew : refs.newObj.derefObjCore.Ok := (hok'.newObj (hhas'.obj.mpr rfl)).derefObjCore
  have hset : refs.newObj.derefObjCore.Has true false false true := ⟨rfl, rfl, rfl, hhas'.2.2.2⟩
  have hnone : refs.newObj.derefObjCore.derefObj.Has false false false true := ⟨rfl, rfl, rfl, hhas'.2.2.2⟩
  split
  · simp
  rw [if_neg (by simp [hdir])]
  split
  · exact safe_ok.mpr (inv_worker hnew.derefObj hp ⟨hnone, rfl⟩)
  split
  · exact safe_ok.mpr (inv_worker hnew.derefObj hp ⟨hnone, rfl, rfl⟩)
  · exact safe_ok.mpr (inv_worker hnew.derefObj hp ⟨hnone, rfl⟩)
  · exact safe_ok.mpr (inv_worker hnew hp ⟨hset, rfl⟩)
  · exact safe_ok.mpr (inv_worker hnew hp ⟨hset, rfl⟩)
  · simp

theorem safe_cntFetch (h : Inv dropped s) (hp : s.place = .worker) (hs : s.step = .fetch) (o : Fetch) :
    Safe dropped (cntFetch s o) := by
  have hat := h.atStep hp
  simp only [AtStep, hs] at hat
  obtain ⟨hcases, hdir, hvbe⟩ := hat
  have hboth : ∃ b, s.refs.Has false b b true := by
    rcases hcases with hhas | hhas
    · exact ⟨false, hhas⟩
    · exact ⟨true, hhas⟩
  obtain ⟨b, hhas⟩ := hboth
  unfold cntFetch
  rw [if_neg (by simp [hhas.vcl, hhas.obj, hhas.objcore, hhas.objhead, hdir, hvbe])]
  split
  · by_cases hb : s.refs.objcore = none
    · have hnone : s.refs.Has false false false true := by
        rw [hhas.objcore] at hb
        exact hb ▸ hhas
      rw [if_pos hb]
      exact safe_ok.mpr (inv_worker h.ok hp ⟨hnone, hvbe⟩)
    · rw [if_neg hb]
      exact safe_ok.mpr (inv_worker h.ok.derefObjCore hp ⟨has_derefObjCore hhas, hvbe⟩)
  split
  · simp
  · exact safe_fetchObj (s := { s with vbe := true }) h.ok hp hhas hdir o

/-- The end of a delivery. -/
theorem inv_delivered (hok : s.refs.Ok) (hhas : s.refs.Has true false false true) (hvbe : s.vbe = false) :
    Inv dropped (delivered s) :=
  inv_worker hok.derefObj rfl ⟨.inl ⟨rfl, hhas.2.1, hhas.2.2.1, hhas.2.2.2⟩, hvbe⟩

theorem safe_cntDeliver (h : Inv dropped s) (hp : s.place = .worker) (hs : s.step = .deliver) (doclose : Bool) (w : Write) :
    Safe dropped (cntDeliver s ret doclose w) := by
  have hat := h.atStep hp
  simp only [AtStep, hs] at hat
  obtain ⟨hhas, hvbe⟩ := hat
  unfold cntDeliver
  rw [if_neg (by simp [hhas.vcl, hhas.obj])]
  split
  · simp
  dsimp only
  cases w with
  | plain closed =>
    refine safe_ok.mpr ?_
    split
    · exact inv_delivered h.ok hhas hvbe
    · exact inv_delivered h.ok hhas hvbe
  | esi => exact safe_ok.mpr ⟨h.ok, hhas, rfl, hvbe, rfl⟩

theorem safe_esiDeliver {left : Bool} (h : Inv dropped s) (hp : s.place = .esi left) (t : Turn) :
    Safe dropped (esiDeliver p s left t) := by
  have hplace := h.place
  simp only [AtPlace, hp] at hplace
  obtain ⟨hhas, hdir, hvbe, -⟩ := hplace
  unfold esiDeliver
  rw [if_neg (by simp [hhas.obj])]
  cases t with
  | bit flush =>
    dsimp only
    split
    · simp
    split
    · exact safe_ok.mpr (inv_delivered h.ok hhas hvbe)
    · exact safe_ok.mpr (inv_worker h.ok.save rfl ⟨⟨rfl, hhas.2.1, hhas.2.2.1, hhas.2.2.2⟩, rfl, hvbe⟩)
  | finish flush =>
    refine safe_ok.mpr ?_
    split
    · exact inv_delivered h.ok hhas hvbe
    · exact inv_delivered h.ok hhas hvbe

theorem safe_cntError (h : Inv dropped s) (hp : s.place = .worker) (hs : s.step = .error) : Safe dropped (cntError p s ret) := by
  have hat := h.atStep hp
  simp only [AtStep, hs] at hat
  obtain ⟨hhas, hvbe⟩ := hat
  have hok := h.ok.newObj (hhas.obj.mpr rfl)
  unfold cntError
  rw [if_pos (hhas.obj.mpr rfl)]
  dsimp only
  split
  · simp
  split
  · exact safe_ok.mpr (inv_worker hok.derefObj hp ⟨⟨rfl, hhas.2.1, hhas.2.2.1, hhas.2.2.2⟩, rfl, hvbe⟩)
  · exact safe_ok.mpr (inv_worker hok hp ⟨⟨rfl, hhas.2.1, hhas.2.2.1, hhas.2.2.2⟩, hvbe⟩)

theorem safe_cntPipe (h : Inv dropped s) (hp : s.place = .worker) (hs : s.step = .pipe) (connected : Bool) :
    Safe dropped (cntPipe s ret connected) := by
  have hat := h.atStep hp
  simp only [AtStep, hs] at hat
  obtain ⟨hhas, hvbe⟩ := hat
  unfold cntPipe
  rw [if_neg (by simp [hhas.vcl])]
  split
  · simp
  refine safe_ok.mpr ?_
  split
  · exact inv_worker h.ok hp ⟨.inl hhas, hvbe⟩
  · exact inv_worker h.ok hp ⟨.inl hhas, hvbe⟩

/-- An include is done, and `ESI_Deliver` has its object again. -/
theorem has_restore {r : Refs} (h : r.Has false false false true) (hs : 0 < r.saved.length) :
    r.restore.Has true false false true := by
  cases hr : r.saved with
  | nil => simp [hr] at hs
  | cons o saved => exact ⟨by simp [Refs.restore, hr], h.2.1, h.2.2.1, h.2.2.2⟩

theorem safe_cntDone (h : Inv dropped s) (hp : s.place = .worker) (hs : s.step = .done) (reinit rxbuf nonblocking : Bool) :
    Safe dropped (cntDone p s reinit rxbuf nonblocking) := by
  have hat := h.atStep hp
  simp only [AtStep, hs] at hat
  obtain ⟨hcases, hvbe⟩ := hat
  have hobj : s.refs.obj = none := by
    rcases hcases with hhas | ⟨hhas, -⟩ <;> simp [hhas.obj]
  unfold cntDone
  rw [if_neg (by simp [hobj, hvbe])]
  by_cases he : s.esis = 0
  · -- the last object is done: everything is given back
    have hsaved : s.refs.saved = [] := List.length_eq_zero_iff.mp he
    have hnone : s.refs.giveVcl.Has false false false false := by
      rcases hcases with hhas | ⟨hhas, -⟩
      · exact ⟨hhas.1, hhas.2.1, hhas.2.2.1, rfl⟩
      · exact ⟨hhas.1, hhas.2.1, hhas.2.2.1, rfl⟩
    rw [if_pos he]
    dsimp only
    rw [if_neg (by
      show ¬ 0 < s.refs.saved.length
      rw [hsaved]
      exact Nat.lt_irrefl 0)]
    generalize ht : (if s.doclose = true then closeSession { s with
      refs := s.refs.giveVcl, director := false, restarts := 0, xid := 0 } else { s with
      refs := s.refs.giveVcl, director := false, restarts := 0, xid := 0 }) = t
    have hrefs : t.refs = s.refs.giveVcl := by
      subst ht
      split <;> rfl
    have hidle : Idle t ∧ t.place = .worker := by
      subst ht
      split
      · exact ⟨⟨hnone, hsaved, rfl, hvbe, rfl, rfl⟩, hp⟩
      · exact ⟨⟨hnone, hsaved, rfl, hvbe, rfl, rfl⟩, hp⟩
    have hok : t.refs.Ok := hrefs.symm ▸ h.ok.giveVcl
    split
    · exact safe_sesDelete hok hidle.1.1 hidle.1.2.1
    split
    · exact safe_ok.mpr (inv_worker hok hidle.2 hidle.1)
    split
    · exact safe_ok.mpr (inv_worker hok hidle.2 hidle.1)
    · exact safe_returnSession hok hidle.1 nonblocking
  · have hpos : 0 < s.refs.saved.length := Nat.pos_of_ne_zero he
    have hhas : s.refs.Has false false false true := by
      rcases hcases with hhas | ⟨-, hsaved⟩
      · exact hhas
      · simp [hsaved] at hpos
    rw [if_neg he]
    dsimp only
    split
    · exact safe_ok.mpr ⟨h.ok.restore hobj, has_restore hhas hpos, rfl, hvbe, rfl⟩
    next hn => exact absurd hpos hn

theorem safe_queueSession (hok : s.refs.Ok) (hstep : s.step = .first ∨ s.step = .start ∨ s.step = .lookup ∧ s.refs.saved = [])
    (hat : AtStep s) (queued : Bool) (hdrop : queued = false → s.step = .lookup → dropped) :
    Safe dropped (queueSession s queued) := by
  unfold queueSession
  split
  · exact safe_ok.mpr ⟨hok, hstep, hat⟩
  next hq =>
    have hgone : s.refs.giveVcl.obj = none ∧ (s.refs.giveVcl.owned = [] ∨ dropped) := by
      rcases hstep with hs | hs | ⟨hs, -⟩
      · simp only [AtStep, hs] at hat
        exact ⟨hat.1.obj.mpr rfl, .inl (Refs.Has.owned ⟨hat.1.1, hat.1.2.1, hat.1.2.2.1, rfl⟩ hat.2.1)⟩
      · simp only [AtStep, hs] at hat
        exact ⟨hat.1.obj.mpr rfl, .inl (Refs.Has.owned ⟨hat.1.1, hat.1.2.1, hat.1.2.2.1, rfl⟩ hat.2.1)⟩
      · have hd : dropped := hdrop (by simpa using hq) hs
        simp only [AtStep, hs] at hat
        rcases hat.1 with hhas | hhas
        · exact ⟨hhas.obj.mpr rfl, .inr hd⟩
        · exact ⟨hhas.obj.mpr rfl, .inr hd⟩
    exact safe_delete hok.giveVcl hgone.1 rfl hgone.2

theorem safe_handover (hok : s.refs.Ok) (hidle : Idle s) (r : Rx) (queued : Bool) : Safe dropped (handover s r queued) := by
  cases r with
  | overflow => exact safe_sesDelete hok hidle.1 hidle.2.1
  | error => exact safe_sesDelete hok hidle.1 hidle.2.1
  | more => exact safe_error.mpr (by simp)
  | complete =>
    refine safe_queueSession (s := { s with step := .start }) hok (.inr (.inl rfl)) hidle queued ?_
    intro _ h
    cases h

theorem safe_idle : Safe dropped (.error .idle) := safe_error.mpr (by simp)

theorem safe_turn {c : Prop} [Decidable c] {r : Except Stop Sess} (h : c → Safe dropped r) :
    Safe dropped (if c then r else .error .idle) := by
  split
  next hc => exact h hc
  · exact safe_idle

theorem safe_cntSession (h : Inv dropped s) (hp : s.place = .worker) (a : Act) : Safe dropped (cntSession p s a) := by
  cases a with
  | first => exact safe_turn fun hs => safe_cntFirst h hp hs
  | wait complete poll r nonblocking => exact safe_turn fun hs => safe_cntWait h hp hs complete poll r nonblocking
  | start xid o doclose => exact safe_turn fun hs => safe_cntStart h hp hs xid o doclose
  | recv ret hashing => exact safe_turn fun hs => safe_cntRecv h hp hs hashing
  | lookup o => exact safe_turn fun hs => safe_cntLookup h hp hs o
  | hit ret => exact safe_turn fun hs => safe_cntHit h hp hs
  | miss ret => exact safe_turn fun hs => safe_cntMiss h hp hs
  | pass ret => exact safe_turn fun hs => safe_cntPass h hp hs
  | fetch o => exact safe_turn fun hs => safe_cntFetch h hp hs o
  | deliver ret doclose w => exact safe_turn fun hs => safe_cntDeliver h hp hs doclose w
  | error ret => exact safe_turn fun hs => safe_cntError h hp hs
  | pipe ret connected => exact safe_turn fun hs => safe_cntPipe h hp hs connected
  | done reinit rxbuf nonblocking => exact safe_turn fun hs => safe_cntDone h hp hs reinit rxbuf nonblocking
  | queue | pick | rx | hangup | wake | esi => exact safe_idle

/-- Each turn is safe, with one exception: a session may be dropped when it comes off a waiting list. -/
theorem inv_exec (h : Inv dropped s) (a : Act) (ha : a ≠ .wake false ∨ dropped) : Safe dropped (exec p s a) := by
  have hplace := h.place
  unfold exec
  split
  next queued hp =>
    simp only [AtPlace, hp] at hplace
    refine safe_queueSession h.ok (.inl hplace.1) (by simpa only [AtStep, hplace.1] using hplace.2) queued ?_
    intro _ hs
    simp [hplace.1] at hs
  next hp =>
    simp only [AtPlace, hp] at hplace
    rw [if_pos (by tauto)]
    exact safe_ok.mpr (inv_worker h.ok rfl hplace.2)
  next r queued hp =>
    simp only [AtPlace, hp] at hplace
    split
    · exact safe_ok.mpr h
    · exact safe_handover h.ok hplace r queued
  next hp =>
    simp only [AtPlace, hp] at hplace
    exact safe_sesDelete h.ok hplace.1 hplace.2.1
  next queued hp =>
    simp only [AtPlace, hp] at hplace
    refine safe_queueSession h.ok (.inr (.inr ⟨hplace.1, hplace.2.1⟩)) hplace.2.2 queued ?_
    rintro rfl -
    exact ha.resolve_left fun hne => hne rfl
  next left t hp => exact safe_esiDeliver h hp t
  next hp => exact safe_cntSession h hp _
  · exact safe_idle

end Turns

/-! ## Runs -/

section Runs

variable {p : Params} {dropped : Prop} {s s' : Sess} {a : Act}

theorem step_eq (h : step p s a = some s') : exec p s a = .ok s' := by
  unfold step at h
  cases he : exec p s a with
  | error e => simp [he, Except.toOption] at h
  | ok t => simpa [he, Except.toOption] using h

theorem inv_init : Inv dropped {} where
  ok := Ledger.accounts_empty
  place := ⟨rfl, ⟨rfl, rfl, rfl, rfl⟩, rfl, rfl, rfl, rfl, rfl⟩

theorem reach_inv {ok : Sess → Act → Prop} (hok : ∀ s a, ok s a → a ≠ .wake false ∨ dropped) (h : Reach (step p) ok {} s) :
    Inv dropped s :=
  h.inv inv_init fun s a s' hi ha hs => (inv_exec hi a (hok s a ha)).2 s' (step_eq hs)

/-- The session waits for its next request, or is deleted. -/
def Between (s : Sess) : Prop := s.place = .worker ∧ s.step = .wait ∨ s.place = .waiter ∨ s.place = .lost ∨ s.place = .deleted

theorem Idle.owned (h : Idle s) : s.refs.owned = [] := h.1.owned h.2.1

theorem Inv.released (h : Inv False s) (hb : Between s) : s.refs.owned = [] := by
  have hplace := h.place
  rcases hb with ⟨hp, hs⟩ | hp | hp | hp
  · have hat := h.atStep hp
    simp only [AtStep, hs] at hat
    exact hat.owned
  · simp only [AtPlace, hp] at hplace
    exact hplace.owned
  · simp only [AtPlace, hp] at hplace
    exact hplace.owned
  · simp only [AtPlace, hp] at hplace
    exact hplace.resolve_right id

/-- In every run the checks of the states hold. Unless a session is dropped when it comes off a waiting list, each reference
that it took was released once when it waits for its next request or is deleted. -/
theorem reach_session (p : Params) (s : Sess) :
    (Reach (step p) (fun _ _ => True) {} s → ∀ a, exec p s a ≠ .error .check) ∧
      (Reach (step p) (fun _ a => a ≠ .wake false) {} s → Between s →
        ∀ r, s.refs.ledger.released.count r = if r < s.refs.ledger.taken then 1 else 0) := by
  constructor
  · intro h a
    have hi : Inv True s := reach_inv (fun _ _ _ => .inr trivial) h
    exact (inv_exec hi a (.inr trivial)).1
  · intro h hb
    have hi : Inv False s := reach_inv (fun _ _ ha => .inl ha) h
    have hacc := hi.ok
    rw [Refs.Ok, hi.released hb] at hacc
    exact hacc.once

/-- The parameters of the runs below. -/
def someParams : Params := { maxRestarts := 4, maxEsiIncludes := 5, linger := false }

/-- A miss that is fetched and delivered. -/
def missRun : List Act :=
  [.queue true, .pick, .first, .wait true false .more true, .start 1 .ok false, .recv .lookup .hash, .lookup .miss, .miss .fetch,
    .fetch ⟨true, .deliver, true, true, true⟩, .deliver .deliver false (.plain false), .done false false true]

def missEnd : Sess := { step := .done, place := .waiter, refs := { ledger := ⟨4, [0, 3, 2, 1]⟩ } }

theorem reach_session_miss :
    (∀ a, exec someParams missEnd a ≠ .error .check) ∧
      ∀ r, missEnd.refs.ledger.released.count r = if r < missEnd.refs.ledger.taken then 1 else 0 :=
  have hrun : missRun.foldlM (step someParams) {} = some missEnd := by decide +kernel
  ⟨(reach_session someParams missEnd).1 (Reach.of_run (by decide +kernel) hrun),
    (reach_session someParams missEnd).2 (Reach.of_run (by decide +kernel) hrun) (.inr (.inl rfl))⟩

/-- A session that waits for a busy object, and for which there is no room in the queue afterwards. -/
def dropRun : List Act :=
  [.queue true, .pick, .first, .wait true false .more true, .start 1 .ok false, .recv .lookup .hash, .lookup .busy, .wake false]

def dropEnd : Sess where
  step := .lookup
  place := .deleted
  refs := { objhead := some 1, ledger := ⟨2, [0]⟩ }
  director := true
  xid := 1
  fd := false
  deletes := 1

/-- The reference to the objhead is never released. -/
theorem reach_session_drop :
    Reach (step someParams) (fun _ _ => True) {} dropEnd ∧ dropEnd.place = .deleted ∧
      1 < dropEnd.refs.ledger.taken ∧ dropEnd.refs.ledger.released.count 1 = 0 :=
  have hrun : dropRun.foldlM (step someParams) {} = some dropEnd := by decide +kernel
  ⟨Reach.of_run (by decide +kernel) hrun, rfl, by decide, by decide⟩

end Runs

end Varnish.Center
