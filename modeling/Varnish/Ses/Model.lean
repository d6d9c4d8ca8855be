import Mathlib.Data.Fintype.Basic
import Varnish.Lib.Tokens
import Varnish.Lib.Run

/-!
# Varnish.Ses.Model — the memory of sessions (cache_session.c)

The acceptor takes free sessions from one of two queues without a lock, and the other threads put them on the other one; when
the acceptor finds its queue empty it swaps the two under `ses_mem_mtx`.

* `AccPc`, `accStep`: `SES_New`, from one access of shared memory to the next.
* `ThrPc`, `thrStep`: `SES_Delete` of a thread, with the session that it makes in advance.
* `St.alloc`: `ses_sm_alloc`, whose length has 32 bits.  `Fits`: what it needs for its assertion.
* `step`: the threads take turns.  `none` is a failure: that assertion, `TAILQ_REMOVE` of what is not on the queue, or a counter
  below 0.
-/

namespace Varnish.Ses

open Varnish.Lib

/-- Who holds `ses_mem_mtx`. -/
inductive Owner (T : ℕ)
  | acceptor
  | thread (t : Fin T)
deriving DecidableEq

/-- Where the acceptor is in `SES_New`: it has computed which queue to look at, waits for the lock, is about to swap the queues,
has found `sm` at the front of the queue, or is in `ses_sm_alloc`, in front of the limit or behind it. -/
inductive AccPc
  | idle
  | look (again : Bool) (q : Bool)
  | wait
  | flip
  | remove (sm : ℕ) (q : Bool)
  | limit
  | malloc
deriving DecidableEq

/-- Where a thread is in `SES_Delete`: it is about to free the session, waits to put a session on a queue, has computed which
one, or makes a session in advance.  `last` tells that it is the one made in advance. -/
inductive ThrPc
  | idle
  | drop (sm : ℕ)
  | put (sm : ℕ) (last : Bool)
  | insert (sm : ℕ) (last : Bool) (q : Bool)
  | precreate
  | limit
  | malloc
deriving DecidableEq

/-- `maxSess`, `workspace` and `httpHeaders` are the parameters, `ws` is `sm->workspace`, and `out` are the sessions that `SES_New` has
returned and nobody has deleted. -/
structure St (T : ℕ) where
  maxSess : ℕ
  workspace : ℕ
  httpHeaders : ℕ
  ws : ℕ → ℕ
  free : Bool → List ℕ
  qp : Bool
  mtx : Option (Owner T)
  nSessMem : ℕ
  out : List ℕ
  acc : AccPc
  thr : Fin T → ThrPc

/-- `sizeof` of `struct sessmem`, `struct http` and `txt`. -/
structure Sizes where
  sm : ℕ
  http : ℕ
  txt : ℕ

/-- `HTTP_estimate`, an `unsigned` -/
def Sizes.httpEstimate (z : Sizes) (nhttp : ℕ) : ℕ := (z.http + (z.txt + 1) * nhttp) % 2 ^ 32

variable {T : ℕ} (z : Sizes)

/-- The session that only the thread has. -/
def ThrPc.holds : ThrPc → Multiset ℕ
  | .drop sm => {sm}
  | .put sm _ => {sm}
  | .insert sm _ _ => {sm}
  | _ => 0

/-- One session more. -/
def St.add (s : St T) (sm : ℕ) : St T := { s with nSessMem := s.nSessMem + 1, ws := Function.update s.ws sm s.workspace }

/-- `ses_sm_alloc` behind the limit, with what `malloc` gives: `l` has 32 bits, `p` goes on by each part. -/
def St.alloc (s : St T) (sm : ℕ) : Option (St T) :=
  let nws := s.workspace
  let hl := z.httpEstimate s.httpHeaders
  let l := (z.sm + nws + (2 * hl) % 2 ^ 32) % 2 ^ 32
  let p := z.sm + hl + hl + nws
  if p ≠ l then none else some (s.add sm)

/-- A session with its parts is smaller than 4 GB. -/
def Fits (s : St T) : Prop := z.sm + s.workspace + 2 * z.httpEstimate s.httpHeaders < 2 ^ 32

def St.setThr (s : St T) (t : Fin T) (pc : ThrPc) : St T := { s with thr := Function.update s.thr t pc }

/-- One step of `SES_New`; `r` is what `malloc` gives. -/
def accStep (s : St T) (r : Option ℕ) : Option (St T) :=
  match s.acc with
  | .idle => some { s with acc := .look false s.qp }
  | .look again q =>
    match s.free q with
    | sm :: _ => some { s with acc := .remove sm q }
    | [] => some { s with acc := if again then .limit else .wait }
  | .wait => if s.mtx = none then some { s with mtx := some .acceptor, acc := .flip } else some s
  | .flip => some { s with qp := !s.qp, mtx := none, acc := .look true (!s.qp) }
  | .remove sm q =>
    if sm ∉ s.free q then none
    else some { s with free := Function.update s.free q ((s.free q).erase sm), out := sm :: s.out, acc := .idle }
  | .limit => if s.nSessMem ≥ s.maxSess then some { s with acc := .idle } else some { s with acc := .malloc }
  | .malloc =>
    match r with
    | none => some { s with acc := .idle }
    | some sm => (s.alloc z sm).map fun s => { s with out := sm :: s.out, acc := .idle }

/-- One step of `SES_Delete`; `more` is the comparison of `n_sess_mem` with `n_sess + 10`. -/
def thrStep (s : St T) (t : Fin T) (more : Bool) (r : Option ℕ) : Option (St T) :=
  match s.thr t with
  | .idle => some s
  | .drop _ => if s.nSessMem = 0 then none else some ({ s with nSessMem := s.nSessMem - 1 }.setThr t .precreate)
  | .put sm last =>
    if s.mtx = none then some ({ s with mtx := some (.thread t) }.setThr t (.insert sm last (!s.qp))) else some s
  | .insert sm last q =>
    some ({ s with free := Function.update s.free q (sm :: s.free q), mtx := none }.setThr t
      (if last then .idle else .precreate))
  | .precreate => some (s.setThr t (if more then .limit else .idle))
  | .limit => some (s.setThr t (if s.nSessMem ≥ s.maxSess then .idle else .malloc))
  | .malloc =>
    match r with
    | none => some (s.setThr t .idle)
    | some sm => (s.alloc z sm).map fun s => s.setThr t (.put sm true)

/-- The start of `SES_Delete`. -/
def sesDelete (s : St T) (t : Fin T) (sm : ℕ) : St T :=
  { s with out := s.out.erase sm }.setThr t (if s.ws sm ≠ s.workspace then .drop sm else .put sm false)

inductive Act (T : ℕ)
  | acceptor (r : Option ℕ)
  | delete (t : Fin T) (sm : ℕ)
  | thread (t : Fin T) (more : Bool) (r : Option ℕ)
  | param (workspace httpHeaders : ℕ)

def step (s : St T) : Act T → Option (St T)
  | .acceptor r => accStep z s r
  | .delete t sm => some (sesDelete s t sm)
  | .thread t more r => thrStep z s t more r
  | .param workspace httpHeaders => some { s with workspace := workspace, httpHeaders := httpHeaders }

/-- The step allocates a session, and `malloc` has memory. -/
def Allocates (s : St T) : Act T → Prop
  | .acceptor r => s.acc = .malloc ∧ r ≠ none
  | .thread t _ r => s.thr t = .malloc ∧ r ≠ none
  | .delete _ _ | .param _ _ => False

def start (T maxSess workspace httpHeaders : ℕ) : St T where
  maxSess := maxSess
  workspace := workspace
  httpHeaders := httpHeaders
  ws := fun _ => 0
  free := fun _ => []
  qp := false
  mtx := none
  nSessMem := 0
  out := []
  acc := .idle
  thr := fun _ => .idle

/-- The sessions that there are, with multiplicity. -/
def St.places (s : St T) : Multiset ℕ :=
  tokens (fun l : List ℕ => (l : Multiset ℕ)) s.free + s.out + tokens ThrPc.holds s.thr

/-- Memory that `malloc` gives is in nobody's hands, and a thread deletes a session that is out. -/
def Called (s : St T) : Act T → Prop
  | .acceptor r => ∀ sm ∈ r, sm ∉ s.places
  | .delete t sm => s.thr t = .idle ∧ sm ∈ s.out
  | .thread _ _ r => ∀ sm ∈ r, sm ∉ s.places
  | .param _ _ => True

instance (s : St T) : (a : Act T) → Decidable (Called s a)
  | .acceptor r => inferInstanceAs (Decidable (∀ sm ∈ r, sm ∉ s.places))
  | .delete t sm => inferInstanceAs (Decidable (s.thr t = .idle ∧ sm ∈ s.out))
  | .thread _ _ r => inferInstanceAs (Decidable (∀ sm ∈ r, sm ∉ s.places))
  | .param _ _ => isTrue trivial

end Varnish.Ses
