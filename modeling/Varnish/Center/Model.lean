import Mathlib
import Varnish.Lib.Ledger
import Varnish.Lib.Run
import Varnish.Vcc.Xref

/-!
# Varnish.Center.Model — the life of a session (`cache_center.c`, `cache_acceptor.c`, `cache_pool.c`, `cache_esi.c`)

* `Sess`: a session, with who has it and the references that it holds.
* `cntWait` … `cntDone`: the thirteen states.
* `exec`: one turn of `CNT_Session`, of `ESI_Deliver`, of the acceptor or of the waiter. What the calls of a turn return is in
  the action.
-/

namespace Varnish.Center

open Varnish.Lib Varnish.Vcc

/-! ## Sessions -/

section Sessions

/-- `enum step` -/
inductive Step
  | wait
  | first
  | recv
  | start
  | pipe
  | pass
  | lookup
  | miss
  | hit
  | fetch
  | deliver
  | error
  | done
deriving DecidableEq

/-- Who has the session. -/
inductive Place
  /-- the acceptor, which has just set it up -/
  | acceptor
  /-- the queue of the worker threads -/
  | queue
  /-- a worker, in the loop of `CNT_Session` -/
  | worker
  /-- a worker, in the loop of `ESI_Deliver`; the flag is set when the loop is left -/
  | esi (left : Bool)
  /-- the waiting list of an objhead -/
  | parked
  /-- the waiter -/
  | waiter
  /-- nobody -/
  | lost
  | deleted
deriving DecidableEq

/-- The references of a session: its pointers, and the objects that `ESI_Deliver` has put aside. -/
structure Refs where
  obj : Option ℕ := none
  objcore : Option ℕ := none
  objhead : Option ℕ := none
  vcl : Option ℕ := none
  saved : List ℕ := []
  ledger : Ledger := {}
deriving DecidableEq

/-- `struct sess`. A connection is open if `fd >= 0`; `sp->esis` is the number of objects put aside. -/
structure Sess where
  step : Step := .first
  place : Place := .acceptor
  refs : Refs := {}
  director : Bool := false
  vbe : Bool := false
  xid : ℕ := 0
  restarts : ℕ := 0
  doclose : Bool := false
  fd : Bool := true
  deletes : ℕ := 0
deriving DecidableEq

def Sess.esis (s : Sess) : ℕ := s.refs.saved.length

end Sessions

/-! ## References -/

namespace Refs

/-- `STV_NewObject`, and the reference that `HSH_Lookup` takes for a hit. -/
def newObj (r : Refs) : Refs := { r with obj := some r.ledger.taken, ledger := r.ledger.take }

/-- `HSH_Deref` -/
def derefObj (r : Refs) : Refs := { r with obj := none, ledger := r.obj.elim r.ledger r.ledger.release }

/-- The reference to the objhead is given back. -/
def derefHead (r : Refs) : Refs := { r with objhead := none, ledger := r.objhead.elim r.ledger r.ledger.release }

/-- `HSH_DerefObjCore`, and the step of `cnt_fetch` in which both references follow their pointers into the object. -/
def derefObjCore (r : Refs) : Refs :=
  let r := r.derefHead
  { r with objcore := none, ledger := r.objcore.elim r.ledger r.ledger.release }

/-- The objhead of a lookup: the one that the session brings with it, or the one that `hash->lookup` finds. -/
def takeHead (r : Refs) : Refs :=
  if r.objhead = none then { r with objhead := some r.ledger.taken, ledger := r.ledger.take } else r

def takeCore (r : Refs) : Refs := { r with objcore := some r.ledger.taken, ledger := r.ledger.take }

def takeVcl (r : Refs) : Refs := { r with vcl := some r.ledger.taken, ledger := r.ledger.take }

/-- The VCL goes back to the worker, or `VCL_Rel`. -/
def giveVcl (r : Refs) : Refs := { r with vcl := none, ledger := r.vcl.elim r.ledger r.ledger.release }

/-- `ESI_Deliver` puts the object aside, -/
def save (r : Refs) : Refs := { r with obj := none, saved := r.obj.elim r.saved (· :: r.saved) }

/-- and takes it back. -/
def restore (r : Refs) : Refs := { r with obj := r.saved.head?, saved := r.saved.tail }

end Refs

/-! ## The states -/

section States

/-- Why a thread stops: a check of a pointer, `assert(sp->fd >= 0)`, any other assertion (`INCOMPL`, `WRONG`, the checks of
what VCL returns, `XXXAN`), or an action that is not the session's next one. -/
inductive Stop
  | check
  | fd
  | panic
  | idle
deriving DecidableEq

structure Params where
  maxRestarts : ℕ
  maxEsiIncludes : ℕ
  linger : Bool

/-- The results of `HTC_Rx`: -2, -1, 0 and 1. -/
inductive Rx
  | overflow
  | error
  | more
  | complete
deriving DecidableEq

/-- The methods of `cache_vcl.c` assert that the return value is one of theirs. -/
def mayReturn (met : String) (h : Ret) : Bool := methodTab.any fun m => m.name = met && m.retBitmap &&& h.bit ≠ 0

/-- `vca_close_session` -/
def closeSession (s : Sess) : Sess := { s with fd := false }

/-- `SES_Delete` -/
def sesDelete (s : Sess) : Except Stop Sess :=
  if s.refs.obj ≠ none ∨ s.refs.vcl ≠ none then .error .check
  else .ok { s with place := .deleted, deletes := s.deletes + 1 }

/-- `vca_return_session` -/
def returnSession (s : Sess) (nonblocking : Bool) : Except Stop Sess :=
  if s.refs.obj ≠ none ∨ s.refs.vcl ≠ none then .error .check
  else if s.fd = false then .error .fd
  else if nonblocking = false then .ok { closeSession s with place := .lost }
  else .ok { s with place := .waiter }

/-- `WRK_QueueSession` -/
def queueSession (s : Sess) (queued : Bool) : Except Stop Sess :=
  if queued = true then .ok { s with place := .queue }
  else sesDelete { closeSession s with refs := s.refs.giveVcl }

/-- `vca_handover` -/
def handover (s : Sess) (r : Rx) (queued : Bool) : Except Stop Sess :=
  match r with
  | .overflow => sesDelete (closeSession s)
  | .error => sesDelete (closeSession s)
  | .complete => queueSession { s with step := .start } queued
  | .more => .error .panic

def cntFirst (s : Sess) : Except Stop Sess :=
  if s.xid ≠ 0 ∨ s.restarts ≠ 0 then .error .check
  else .ok { s with step := .wait }

/-- What `cnt_wait` has of the connection: `HTC_Complete`, then `poll` and `HTC_Rx`. -/
def waitResult (p : Params) (complete poll : Bool) (r : Rx) : Rx :=
  if complete = true then .complete else if p.linger = true ∧ poll = true then r else .more

/-- `cnt_wait`. After an overflow the next step is not set. -/
def cntWait (p : Params) (s : Sess) (complete poll : Bool) (r : Rx) (nonblocking : Bool) : Except Stop Sess :=
  if s.refs.vcl ≠ none ∨ s.refs.obj ≠ none ∨ s.xid ≠ 0 then .error .check
  else
    match waitResult p complete poll r with
    | .more => returnSession s nonblocking
    | .complete => .ok { s with step := .start }
    | .overflow => .ok (closeSession s)
    | .error => .ok { closeSession s with step := .done }

/-- How a request starts: it cannot be parsed, it is refused, its `Expect` header is not known, or it goes on. -/
inductive Start
  | junk
  | refused
  | expect
  | ok
deriving DecidableEq

def cntStart (s : Sess) (xid : ℕ) (o : Start) (doclose : Bool) : Except Stop Sess :=
  if s.restarts ≠ 0 ∨ s.refs.obj ≠ none ∨ s.refs.vcl ≠ none then .error .check
  else
    let s := { s with xid, refs := s.refs.takeVcl }
    match o with
    | .junk => .ok (closeSession { s with step := .done })
    | .refused => .ok { s with step := .error }
    | .expect => .ok { s with doclose, step := .error }
    | .ok => .ok { s with doclose, step := .recv }

def cntRecv (p : Params) (s : Sess) (h hashing : Ret) : Except Stop Sess :=
  if s.refs.vcl = none ∨ s.refs.obj ≠ none ∨ s.director = true then .error .check
  else
    let s := { s with director := true }
    if mayReturn "vcl_recv" h = false then .error .panic
    else if p.maxRestarts ≤ s.restarts then .ok { s with step := .error }
    else if hashing ≠ .hash then .error .panic
    else
      match h with
      | .lookup => .ok { s with step := .lookup }
      | .pipe => if 0 < s.esis then .error .panic else .ok { s with step := .pipe }
      | .pass => .ok { s with step := .pass }
      | .error => .ok { s with step := .error }
      | _ => .error .panic

/-- What `HSH_Lookup` finds: a busy object, nothing, an object, or one with `OC_F_PASS`. -/
inductive Lookup
  | busy
  | miss
  | hit
  | hitPass
deriving DecidableEq

/-- `cnt_lookup`. A session with ESI includes is not put on the waiting list: its worker tries again. -/
def cntLookup (s : Sess) (o : Lookup) : Except Stop Sess :=
  if s.refs.vcl = none ∨ s.director = false then .error .check
  else
    let refs := s.refs.takeHead
    match o with
    | .busy => .ok { s with refs, place := if s.esis = 0 then .parked else .worker }
    | .miss => .ok { s with refs := refs.takeCore, step := .miss }
    | .hit => .ok { s with refs := refs.derefHead.newObj, step := .hit }
    | .hitPass => .ok { s with refs := { refs.derefHead.newObj.derefObj with objcore := none }, step := .pass }

/-- A restart: back to `vcl_recv`, without a director. -/
def restart (s : Sess) : Sess := { s with director := false, restarts := s.restarts + 1, step := .recv }

def cntHit (s : Sess) (h : Ret) : Except Stop Sess :=
  if s.refs.obj = none ∨ s.refs.vcl = none then .error .check
  else if mayReturn "vcl_hit" h = false then .error .panic
  else if h = .deliver then .ok { s with step := .deliver }
  else
    let s := { s with refs := { s.refs.derefObj with objcore := none } }
    if s.refs.objhead ≠ none then .error .check
    else
      match h with
      | .pass => .ok { s with step := .pass }
      | .error => .ok { s with step := .error }
      | .restart => .ok (restart s)
      | _ => .error .panic

def cntMiss (s : Sess) (h : Ret) : Except Stop Sess :=
  if s.refs.vcl = none ∨ s.refs.obj ≠ none ∨ s.refs.objcore = none ∨ s.refs.objhead = none then .error .check
  else if mayReturn "vcl_miss" h = false then .error .panic
  else
    match h with
    | .error => .ok { s with refs := s.refs.derefObjCore, step := .error }
    | .pass => .ok { s with refs := s.refs.derefObjCore, step := .pass }
    | .fetch => .ok { s with step := .fetch }
    | _ => .error .panic

def cntPass (s : Sess) (h : Ret) : Except Stop Sess :=
  if s.refs.vcl = none ∨ s.refs.obj ≠ none then .error .check
  else if mayReturn "vcl_pass" h = false then .error .panic
  else
    match h with
    | .error => .ok { s with step := .error }
    | .pass => .ok { s with step := .fetch }
    | _ => .error .panic

/-- What the calls of `cnt_fetch` do: `FetchHdr`, `vcl_fetch` (its return value, and `beresp.cacheable` behind it),
`STV_NewObject` and `FetchBody`. -/
structure Fetch where
  hdr : Bool
  handling : Ret
  cacheable : Bool
  store : Bool
  body : Bool
deriving DecidableEq

/-- The part of `cnt_fetch` behind `vcl_fetch`. -/
def fetchObj (s : Sess) (o : Fetch) : Except Stop Sess :=
  if (s.refs.objcore = none ∧ s.refs.objhead ≠ none) ∨ (s.refs.objcore ≠ none ∧ s.refs.objhead = none) then .error .check
  else
    let cacheable := o.cacheable && s.refs.objcore.isSome
    let refs := if cacheable = true then s.refs else s.refs.derefObjCore
    if o.store = false then .error .panic
    else
      -- the references follow their pointers into the new object
      let s := { s with refs := refs.newObj.derefObjCore, vbe := false }
      if s.director = false then .error .check
      else if o.body = false then .ok { s with refs := s.refs.derefObj, step := .error }
      else
        match o.handling with
        | .restart => .ok (restart { s with refs := s.refs.derefObj })
        | .error => .ok { s with refs := s.refs.derefObj, step := .error }
        | .pass => .ok { s with step := .deliver }
        | .deliver => .ok { s with step := .deliver }
        | _ => .error .panic

def cntFetch (s : Sess) (o : Fetch) : Except Stop Sess :=
  if s.refs.vcl = none ∨ s.director = false ∨ s.vbe = true ∨ s.refs.obj ≠ none ∨
      (s.refs.objcore ≠ none ∧ s.refs.objhead = none) then .error .check
  else if o.hdr = false then .ok { s with refs := if s.refs.objcore = none then s.refs else s.refs.derefObjCore, step := .error }
  else if mayReturn "vcl_fetch" o.handling = false then .error .panic
  else fetchObj { s with vbe := true } o

/-- What `RES_WriteObj` does: it writes the body, or it goes to `ESI_Deliver`. -/
inductive Write
  | plain (closed : Bool)
  | esi
deriving DecidableEq

/-- The end of `cnt_deliver`. -/
def delivered (s : Sess) : Sess := { s with refs := s.refs.derefObj, step := .done, place := .worker }

def cntDeliver (s : Sess) (h : Ret) (doclose : Bool) (w : Write) : Except Stop Sess :=
  if s.refs.obj = none ∨ s.refs.vcl = none then .error .check
  else if h ≠ .deliver then .error .panic
  else
    let s := { s with director := false, restarts := 0, doclose := s.doclose || doclose }
    match w with
    | .plain closed => .ok (delivered (if closed = true then closeSession s else s))
    | .esi => .ok { s with place := .esi false }

/-- A turn of the loop of `ESI_Deliver`, and its end; the flag is the result of `WRW_FlushRelease`. -/
inductive Turn
  | bit (flush : Bool)
  | finish (flush : Bool)
deriving DecidableEq

def esiDeliver (p : Params) (s : Sess) (left : Bool) (t : Turn) : Except Stop Sess :=
  if s.refs.obj = none then .error .check
  else
    match t with
    | .bit flush =>
      if left = true ∨ p.maxEsiIncludes ≤ s.esis then .error .idle
      else if flush = true then .ok (delivered (closeSession s))
      else .ok { s with refs := s.refs.save, director := false, step := .recv, place := .worker }
    | .finish flush => .ok (delivered (if flush = true then closeSession s else s))

def cntError (p : Params) (s : Sess) (h : Ret) : Except Stop Sess :=
  let s := { s with refs := if s.refs.obj = none then s.refs.newObj else s.refs }
  if mayReturn "vcl_error" h = false then .error .panic
  else if h = .restart ∧ s.restarts < p.maxRestarts then .ok (restart { s with refs := s.refs.derefObj })
  else .ok { s with doclose := true, step := .deliver }

/-- `cnt_pipe`; without a backend connection `PipeSession` does nothing. -/
def cntPipe (s : Sess) (h : Ret) (connected : Bool) : Except Stop Sess :=
  if s.refs.vcl = none then .error .check
  else if h ≠ .pipe then .error .panic
  else .ok { (if connected = true then closeSession s else s) with step := .done }

/-- `cnt_done`, and what `ESI_Deliver` does when an include is done. -/
def cntDone (p : Params) (s : Sess) (reinit rxbuf nonblocking : Bool) : Except Stop Sess :=
  if s.refs.obj ≠ none ∨ s.vbe = true then .error .check
  else
    let refs := if s.esis = 0 then s.refs.giveVcl else s.refs
    let s := { s with refs, director := false, restarts := 0, xid := 0 }
    if 0 < s.esis then .ok { s with refs := s.refs.restore, place := .esi (!s.fd) }
    else
      let s := if s.doclose = true then closeSession s else s
      if s.fd = false then sesDelete s
      else if reinit = true then .ok { s with step := .start }
      else if rxbuf = true ∨ p.linger = true then .ok { s with step := .wait }
      else returnSession s nonblocking

end States

/-! ## Runs -/

section Runs

inductive Act
  /-- the acceptor queues a new session -/
  | queue (queued : Bool)
  /-- a worker takes it -/
  | pick
  /-- the waiter has read something -/
  | rx (r : Rx) (queued : Bool)
  /-- the waiter gives it up: a timeout, or the other end has closed -/
  | hangup
  /-- `hsh_rush` takes it off the waiting list -/
  | wake (queued : Bool)
  | first
  | wait (complete poll : Bool) (r : Rx) (nonblocking : Bool)
  | start (xid : ℕ) (o : Start) (doclose : Bool)
  | recv (h hashing : Ret)
  | lookup (o : Lookup)
  | hit (h : Ret)
  | miss (h : Ret)
  | pass (h : Ret)
  | fetch (o : Fetch)
  | deliver (h : Ret) (doclose : Bool) (w : Write)
  | esi (t : Turn)
  | error (h : Ret)
  | pipe (h : Ret) (connected : Bool)
  | done (reinit rxbuf nonblocking : Bool)
deriving DecidableEq

/-- One turn of the loop of `CNT_Session`. -/
def cntSession (p : Params) (s : Sess) : Act → Except Stop Sess
  | .first => if s.step = .first then cntFirst s else .error .idle
  | .wait complete poll r nonblocking => if s.step = .wait then cntWait p s complete poll r nonblocking else .error .idle
  | .start xid o doclose => if s.step = .start then cntStart s xid o doclose else .error .idle
  | .recv h hashing => if s.step = .recv then cntRecv p s h hashing else .error .idle
  | .lookup o => if s.step = .lookup then cntLookup s o else .error .idle
  | .hit h => if s.step = .hit then cntHit s h else .error .idle
  | .miss h => if s.step = .miss then cntMiss s h else .error .idle
  | .pass h => if s.step = .pass then cntPass s h else .error .idle
  | .fetch o => if s.step = .fetch then cntFetch s o else .error .idle
  | .deliver h doclose w => if s.step = .deliver then cntDeliver s h doclose w else .error .idle
  | .error h => if s.step = .error then cntError p s h else .error .idle
  | .pipe h connected => if s.step = .pipe then cntPipe s h connected else .error .idle
  | .done reinit rxbuf nonblocking => if s.step = .done then cntDone p s reinit rxbuf nonblocking else .error .idle
  | _ => .error .idle

def exec (p : Params) (s : Sess) (a : Act) : Except Stop Sess :=
  match s.place, a with
  | .acceptor, .queue queued => queueSession s queued
  | .queue, .pick =>
    if s.step = .first ∨ s.step = .start ∨ s.step = .lookup ∨ s.step = .recv then .ok { s with place := .worker } else .error .check
  | .waiter, .rx r queued => if r = .more then .ok s else handover s r queued
  | .waiter, .hangup => sesDelete (closeSession s)
  | .parked, .wake queued => queueSession s queued
  | .esi left, .esi t => esiDeliver p s left t
  | .worker, a => cntSession p s a
  | _, _ => .error .idle

def step (p : Params) (s : Sess) (a : Act) : Option Sess := (exec p s a).toOption

end Runs

end Varnish.Center
