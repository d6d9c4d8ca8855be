import Mathlib.Data.Int.Notation
import Mathlib.Data.Nat.Notation
import Mathlib.Logic.Function.Basic
import Varnish.Lib.Run

/-!
# Varnish.Ses.Epoll — who has a session between two requests (cache_waiter_epoll.c, cache_acceptor.c)

A session goes from the acceptor to a worker, and between two requests through a pipe to the waiter, which hands it to a worker
again when something can be read.

* `Sess`, `Reg`: a session, and what the kernel has registered for a descriptor.
* `vcaModadd`, `vcaCondModadd`: `epoll_ctl`; to add what is there or to modify what is not fails.
* `vcaEev`, `vcaMain`: the events of one `epoll_wait`, and the timeouts behind them.
* `vcaReturnSession`, `vcaCloseSession`, `sesDelete`: what the workers do.
* `step`: the threads take turns.  `none` is a failed assertion, or `VTAILQ_REMOVE` of what is not on the list.
-/

namespace Varnish.Ses.Epoll

/-! ## State -/

section State

/-- Who has a session; `leaked` is one whose descriptor was closed and that nobody will delete. -/
inductive Place
  | free | worker | piped | listed | leaked
deriving DecidableEq

/-- `ev` tells that `sp->ev.data.ptr` is set. -/
structure Sess where
  place : Place
  fd : Option ℕ
  ev : Bool
  tOpen : ℤ
deriving DecidableEq

/-- The pointer that is registered with a descriptor, and whether it is armed. -/
structure Reg where
  ptr : ℕ
  armed : Bool
deriving DecidableEq

/-- `ep->events` of a session; `epoll_wait` returns none without a reason. -/
structure Events where
  inn : Bool
  pri : Bool
  err : Bool
  hup : Bool
  rdhup : Bool
  reason : inn ∨ pri ∨ err ∨ hup ∨ rdhup
deriving DecidableEq

/-- An event: of the pipe of returned sessions, of the one of the ticker, or of a session. -/
inductive Event
  | pipes
  | ticker
  | session (sp : ℕ) (e : Events)
deriving DecidableEq

/-- `kern` is the kernel's table: the descriptors that are open, and what is registered for each.  `batch` are the events of the
last `epoll_wait` that are not handled yet. -/
structure St where
  sess : ℕ → Sess
  kern : ℕ → Option (Option Reg)
  pipe : List ℕ
  sesshead : List ℕ
  batch : List Event
  dotimer : Bool

def St.setSess (s : St) (sp : ℕ) (x : Sess) : St := { s with sess := Function.update s.sess sp x }

def St.setKern (s : St) (fd : ℕ) (r : Option (Option Reg)) : St := { s with kern := Function.update s.kern fd r }

end State

/-! ## Functions -/

section Functions

/-- `vca_modadd` of a session with `EPOLL_CTL_MOD`. -/
def vcaModadd (s : St) (sp : ℕ) : Option St :=
  match (s.sess sp).fd with
  | none => none
  | some fd =>
    match s.kern fd with
    | some (some _) => some ((s.setSess sp { s.sess sp with ev := true }).setKern fd (some (some ⟨sp, true⟩)))
    | _ => none

/-- `vca_cond_modadd`: the session remembers whether it was added. -/
def vcaCondModadd (s : St) (sp : ℕ) : Option St :=
  match (s.sess sp).fd with
  | none => none
  | some fd =>
    match s.kern fd, (s.sess sp).ev with
    | some (some _), true => some (s.setKern fd (some (some ⟨sp, true⟩)))
    | some none, false => some ((s.setSess sp { s.sess sp with ev := true }).setKern fd (some (some ⟨sp, true⟩)))
    | _, _ => none

/-- `VTAILQ_REMOVE` -/
def St.unlist (s : St) (sp : ℕ) : Option St :=
  if sp ∈ s.sesshead then some { s with sesshead := s.sesshead.erase sp } else none

/-- `vca_close_session`; `close` of a descriptor that is not open gives `EBADF`, and the kernel forgets one that is. -/
def vcaCloseSession (s : St) (sp : ℕ) : Option St :=
  match (s.sess sp).fd with
  | none => some s
  | some fd => if s.kern fd = none then none else some ((s.setSess sp { s.sess sp with fd := none }).setKern fd none)

/-- `SES_Delete`, which clears the session. -/
def sesDelete (s : St) (sp : ℕ) : St := s.setSess sp { s.sess sp with place := .free, fd := none, ev := false }

/-- `vca_handover`; `queued` tells whether `WRK_Queue` takes it. -/
def vcaHandover (s : St) (sp : ℕ) (status : ℤ) (queued : Bool) : Option St :=
  if status = -2 ∨ status = -1 then (vcaCloseSession s sp).map fun s => sesDelete s sp
  else if status = 1 then
    if queued then some (s.setSess sp { s.sess sp with place := .worker })
    else (vcaCloseSession s sp).map fun s => sesDelete s sp
  else none

/-- One session out of the pipe. -/
def adopt (s : St) (sp : ℕ) : Option St :=
  if (s.sess sp).place = .free ∨ (s.sess sp).fd = none then none
  else vcaCondModadd (({ s with sesshead := s.sesshead ++ [sp] } : St).setSess sp { s.sess sp with place := .listed }) sp

def adoptAll (s : St) : List ℕ → Option St
  | [] => some s
  | sp :: sps => do adoptAll (← adopt s sp) sps

/-- The number of sessions that one `read` takes. -/
def NEEV : ℕ := 100

/-- `vca_eev`; `rx` is what `HTC_Rx` returns. -/
def vcaEev (s : St) (ev : Event) (rx : ℤ) (queued : Bool) : Option St :=
  match ev with
  | .pipes => adoptAll { s with pipe := s.pipe.drop NEEV } (s.pipe.take NEEV)
  | .ticker => some { s with dotimer := true }
  | .session sp e =>
    if (s.sess sp).place = .free then none
    else if e.inn ∨ e.pri then
      if rx = 0 then vcaModadd s sp else do vcaHandover (← s.unlist sp) sp rx queued
    else if e.err ∨ e.hup ∨ e.rdhup then do
      let s ← s.unlist sp
      (vcaCloseSession s sp).map fun s => sesDelete s sp
    else some s

/-- The loop over the sessions that were open for too long; it ends at the first one that was not. -/
def timeouts (deadline : ℤ) : ℕ → St → Option St
  | 0, s => some s
  | fuel + 1, s =>
    match s.sesshead with
    | [] => some s
    | sp :: _ =>
      if (s.sess sp).tOpen > deadline then some s
      else do
        let s ← s.unlist sp
        let s ← vcaCloseSession s sp
        timeouts deadline fuel (sesDelete s sp)

/-- `vca_return_session`; `block` is what `TCP_nonblocking` returns. -/
def vcaReturnSession (s : St) (sp : ℕ) (block : Bool) : Option St :=
  if (s.sess sp).fd = none then none
  else if block then (vcaCloseSession s sp).map fun s => s.setSess sp { s.sess sp with place := .leaked }
  else some ({ s with pipe := s.pipe ++ [sp] }.setSess sp { s.sess sp with place := .piped })

end Functions

/-! ## Runs -/

section Runs

/-- A session that `epoll_wait` returns is disarmed. -/
def disarm (s : St) : Event → St
  | .session sp _ =>
    match (s.sess sp).fd with
    | none => s
    | some fd => s.setKern fd (some (some ⟨sp, false⟩))
  | _ => s

inductive Act
  | accept (sp fd : ℕ) (now : ℤ)
  | close (sp : ℕ)
  | delete (sp : ℕ)
  | giveBack (sp : ℕ) (now : ℤ) (block : Bool)
  | wait (evs : List Event)
  | event (rx : ℤ) (queued : Bool)
  | timer (deadline : ℤ)

def step (s : St) : Act → Option St
  | .accept sp fd now =>
    some ((s.setSess sp { s.sess sp with place := .worker, fd := some fd, tOpen := now }).setKern fd (some none))
  | .close sp => vcaCloseSession s sp
  | .delete sp => (vcaCloseSession s sp).map fun s => sesDelete s sp
  | .giveBack sp now block => vcaReturnSession (s.setSess sp { s.sess sp with tOpen := now }) sp block
  | .wait evs => some { evs.foldl disarm s with batch := evs }
  | .event rx queued =>
    match s.batch with
    | [] => some s
    | ev :: batch => vcaEev { s with batch := batch } ev rx queued
  | .timer deadline => (timeouts deadline s.sesshead.length s).map fun s => { s with dotimer := false }

def start : St where
  sess := fun _ => ⟨.free, none, false, 0⟩
  kern := fun _ => none
  pipe := []
  sesshead := []
  batch := []
  dotimer := false

/-- What is registered for the descriptor of a session. -/
def St.regOf (s : St) (sp : ℕ) : Option Reg := ((s.sess sp).fd.bind s.kern).join

/-- An event that the kernel may return: of an armed registration. -/
def Due (s : St) : Event → Prop
  | .session sp _ => s.regOf sp = some ⟨sp, true⟩
  | _ => True

instance (s : St) : (ev : Event) → Decidable (Due s ev)
  | .session sp _ => inferInstanceAs (Decidable (s.regOf sp = some ⟨sp, true⟩))
  | .pipes | .ticker => isTrue trivial

def Event.ptr : Event → Option ℕ
  | .session sp _ => some sp
  | _ => none

/-- A descriptor that `accept` returns is not open; a worker works on its sessions; `epoll_wait` is called when the last events
are handled and the timeouts looked at, and returns each armed descriptor once. -/
def Called (s : St) : Act → Prop
  | .accept sp fd _ => (s.sess sp).place = .free ∧ s.kern fd = none
  | .close sp => (s.sess sp).place = .worker
  | .delete sp => (s.sess sp).place = .worker
  | .giveBack sp _ _ => (s.sess sp).place = .worker ∧ (s.sess sp).fd ≠ none
  | .wait evs => s.batch = [] ∧ s.dotimer = false ∧ (∀ ev ∈ evs, Due s ev) ∧ (evs.filterMap Event.ptr).Nodup
  | .event rx _ => s.batch ≠ [] ∧ (rx = -2 ∨ rx = -1 ∨ rx = 0 ∨ rx = 1)
  | .timer _ => s.batch = [] ∧ s.dotimer = true

instance (s : St) : (a : Act) → Decidable (Called s a)
  | .accept sp fd _ => inferInstanceAs (Decidable ((s.sess sp).place = .free ∧ s.kern fd = none))
  | .close sp => inferInstanceAs (Decidable ((s.sess sp).place = .worker))
  | .delete sp => inferInstanceAs (Decidable ((s.sess sp).place = .worker))
  | .giveBack sp _ _ => inferInstanceAs (Decidable ((s.sess sp).place = .worker ∧ (s.sess sp).fd ≠ none))
  | .wait evs => inferInstanceAs
      (Decidable (s.batch = [] ∧ s.dotimer = false ∧ (∀ ev ∈ evs, Due s ev) ∧ (evs.filterMap Event.ptr).Nodup))
  | .event rx _ => inferInstanceAs (Decidable (s.batch ≠ [] ∧ (rx = -2 ∨ rx = -1 ∨ rx = 0 ∨ rx = 1)))
  | .timer _ => inferInstanceAs (Decidable (s.batch = [] ∧ s.dotimer = true))

end Runs

end Varnish.Ses.Epoll
