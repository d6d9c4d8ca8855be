import Mathlib.Data.Int.Notation
import Mathlib.Data.List.Basic
import Mathlib.Logic.Function.Basic

/-!
# Varnish.Hash.Model — objheads, objcores and the sessions that wait (`cache_hash.c`)

Objheads are in the hash, with the objcores of their digest and the sessions that wait for a busy one of them.

* `hashLookup`, `hashDeref`: the references of the hash backend.
* `hshLookup`, `hshInsert`, `hshRush`, `hshUnbusy`, `hshDrop`, `hshDeref`, `hshDerefObjCore`: the functions of
  `cache_hash.c`, with the parts of `cnt_lookup` and `cnt_fetch` that hand references on.
-/

namespace Varnish.Hash

/-! ## Data -/

section Data

/-- `struct objhead`. -/
structure Objhead where
  refcnt : ℤ
  digest : ℕ
  objcs : List ℕ
  waitinglist : List ℕ

/-- `struct objcore`; an objcore that is not `live` was freed, and has no magic. -/
structure Objcore where
  live : Bool
  busy : Bool
  refcnt : ℕ
  objhead : ℕ

/-- What the hash code reads and writes of `struct sess`; `waits` while it is on a waiting list. -/
structure Sess where
  objhead : Option ℕ
  objcore : Option ℕ
  obj : Option ℕ
  waits : Bool

/-- The memory, the objheads in the hash, and the first objhead and objcore that were never handed out. -/
structure Hsh where
  oh : ℕ → Objhead
  oc : ℕ → Objcore
  sess : ℕ → Sess
  hash : List ℕ
  nextOh : ℕ
  nextOc : ℕ

def Hsh.init : Hsh where
  oh _ := ⟨0, 0, [], []⟩
  oc _ := ⟨false, false, 0, 0⟩
  sess _ := ⟨none, none, none, false⟩
  hash := []
  nextOh := 0
  nextOc := 0

def Hsh.setOh (s : Hsh) (oh : ℕ) (f : Objhead → Objhead) : Hsh := { s with oh := Function.update s.oh oh (f (s.oh oh)) }

def Hsh.setOc (s : Hsh) (oc : ℕ) (f : Objcore → Objcore) : Hsh := { s with oc := Function.update s.oc oc (f (s.oc oc)) }

def Hsh.setSess (s : Hsh) (sp : ℕ) (x : Sess) : Hsh := { s with sess := Function.update s.sess sp x }

end Data

/-! ## The hash backend -/

section Backend

/-- `hash->lookup`, with a new objhead of the worker if there is none with the digest. -/
def hashLookup (s : Hsh) (digest : ℕ) : ℕ × Hsh :=
  match s.hash.find? fun oh => (s.oh oh).digest = digest with
  | some oh => (oh, s.setOh oh fun x => { x with refcnt := x.refcnt + 1 })
  | none =>
    (s.nextOh, { s with
      oh := Function.update s.oh s.nextOh ⟨1, digest, [], []⟩
      hash := s.nextOh :: s.hash
      nextOh := s.nextOh + 1 })

/-- `hash->deref`: whether the objhead stays. -/
def hashDeref (s : Hsh) (oh : ℕ) : Bool × Hsh :=
  let s := s.setOh oh fun x => { x with refcnt := x.refcnt - 1 }
  if (s.oh oh).refcnt = 0 then (false, { s with hash := s.hash.erase oh }) else (true, s)

/-- `hash->deref`, and `HSH_DeleteObjHead` with its assertion. -/
def derefObjHead (s : Hsh) (oh : ℕ) : Option Hsh :=
  match hashDeref s oh with
  | (true, s) => some s
  | (false, s) => if (s.oh oh).objcs = [] then some s else none

end Backend

/-! ## The waiting list -/

section Rush

/-- `hsh_rush`, with `n` turns left; `queued` is whether `WRK_QueueSession` takes a session, which deletes it if not. -/
def hshRush (queued : ℕ → Bool) (oh : ℕ) : ℕ → Hsh → Hsh
  | 0, s => s
  | n + 1, s =>
    match (s.oh oh).waitinglist with
    | [] => s
    | sp :: l =>
      let s := s.setOh oh fun x => { x with waitinglist := l }
      if queued sp then hshRush queued oh n (s.setSess sp { s.sess sp with waits := false })
      else s.setSess sp ⟨none, none, none, false⟩

end Rush

/-! ## Lookup -/

section Lookup

/-- What `HSH_Lookup` makes of an object that is not busy: `cacheable`, `ttl`, bans and `Vary` rule it out, or it is
valid, or it is within its grace. -/
inductive Fit where
  | no
  | valid
  | grace
deriving DecidableEq

/-- The request: its digest, what it makes of the objects, the health of the backend, whether its own grace allows the
graced object, and whether it is an ESI include. -/
structure Ask where
  digest : ℕ
  fit : ℕ → Fit
  healthy : Bool
  graceOk : Bool
  esi : Bool

/-- The loop over `objcs`, with `busy_oc` and `grace_oc`; the first result is the objcore at which it ends early. -/
def scan (busy : ℕ → Bool) (fit : ℕ → Fit) : Option ℕ → Option ℕ → List ℕ → Option ℕ × Option ℕ × Option ℕ
  | busyOc, graceOc, [] => (none, busyOc, graceOc)
  | busyOc, graceOc, oc :: l =>
    if busy oc then scan busy fit (some oc) graceOc l
    else
      match fit oc with
      | .no => scan busy fit busyOc graceOc l
      | .valid => (some oc, busyOc, graceOc)
      | .grace => scan busy fit busyOc (some oc) l

/-- The objcore that is used, if any, and `busy_oc`. -/
def choose (a : Ask) (busy : ℕ → Bool) (objcs : List ℕ) : Option ℕ × Option ℕ :=
  match scan busy a.fit none none objcs with
  | (some oc, busyOc, _) => (some oc, busyOc)
  | (none, busyOc, some g) => if (busyOc.isSome || !a.healthy) && a.graceOk then (some g, busyOc) else (none, busyOc)
  | (none, busyOc, none) => (none, busyOc)

/-- A new objcore at the end of `objcs`, which inherits the reference on the objhead. -/
def newObjcore (s : Hsh) (oh : ℕ) (busy : Bool) : Hsh :=
  { s.setOh oh fun x => { x with objcs := x.objcs ++ [s.nextOc] } with
    oc := Function.update s.oc s.nextOc ⟨true, busy, 1, oh⟩
    nextOc := s.nextOc + 1 }

/-- `HSH_Lookup` from the lock on, with the objhead and the reference on it, and what `cnt_lookup` does with the result. -/
def lookupIn (s : Hsh) (sp oh : ℕ) (a : Ask) : Option Hsh :=
  let x := s.oh oh
  -- the assertions before and in the loop
  if x.refcnt ≤ 0 ∨ (x.objcs ≠ [] ∧ x.refcnt ≤ 1) then none
  else
    match choose a (fun oc => (s.oc oc).busy) x.objcs with
    | (some oc, _) =>
      let s := s.setOc oc fun y => { y with refcnt := y.refcnt + 1 }
      match hashDeref s oh with
      | (true, s) => some (s.setSess sp { s.sess sp with objhead := none, obj := some oc })
      | (false, _) => none
    | (none, some _) =>
      if a.esi then some (s.setSess sp { s.sess sp with objhead := some oh })
      else
        some ((s.setOh oh fun x => { x with waitinglist := x.waitinglist ++ [sp] }).setSess sp
          { s.sess sp with objhead := some oh, waits := true })
    | (none, none) =>
      some ((newObjcore s oh true).setSess sp { s.sess sp with objhead := some oh, objcore := some s.nextOc })

/-- `HSH_Lookup`: a session that comes off the waiting list brings its objhead. -/
def hshLookup (s : Hsh) (sp : ℕ) (a : Ask) : Option Hsh :=
  match (s.sess sp).objhead with
  | some oh => lookupIn s sp oh a
  | none =>
    let (oh, s) := hashLookup s a.digest
    lookupIn s sp oh a

/-- `HSH_Insert`. -/
def hshInsert (s : Hsh) (digest : ℕ) : Hsh :=
  let (oh, s) := hashLookup s digest
  newObjcore s oh false

end Lookup

/-! ## Release -/

section Release

/-- The calls of `hsh_rush` in a step: `params->rush_exponent`, and what becomes of the sessions. -/
structure Rush where
  exponent : ℕ
  queued : ℕ → Bool

/-- `HSH_Ref`. -/
def hshRef (s : Hsh) (oc : ℕ) : Option Hsh :=
  if (s.oc oc).live = true ∧ (s.oc oc).refcnt > 0 then some (s.setOc oc fun y => { y with refcnt := y.refcnt + 1 })
  else none

/-- `HSH_Unbusy`, the assertions on the references and the part with the lock. -/
def hshUnbusy (r : Rush) (s : Hsh) (oc : ℕ) : Option Hsh :=
  let y := s.oc oc
  if y.live = true ∧ y.busy = true ∧ y.refcnt > 0 ∧ (s.oh y.objhead).refcnt > 0 then
    some (hshRush r.queued y.objhead r.exponent (s.setOc oc fun y => { y with busy := false }))
  else none

/-- `HSH_Deref` of an object with an objcore. -/
def hshDeref (r : Rush) (s : Hsh) (oc : ℕ) : Option Hsh :=
  let y := s.oc oc
  let oh := y.objhead
  if y.live = true ∧ (s.oh oh).refcnt > 0 ∧ y.refcnt > 0 then
    let s := s.setOc oc fun y => { y with refcnt := y.refcnt - 1 }
    if y.refcnt - 1 = 0 then
      let s := s.setOh oh fun x => { x with objcs := x.objcs.erase oc }
      let s := hshRush r.queued oh r.exponent s
      let s := s.setOc oc fun y => { y with live := false }
      if (s.oh oh).refcnt > 0 then derefObjHead s oh else none
    else some (hshRush r.queued oh r.exponent s)
  else none

/-- `HSH_DerefObjCore`, with the `objhead` and the `objcore` of the session. -/
def hshDerefObjCore (r : Rush) (s : Hsh) (oh oc : ℕ) : Option Hsh :=
  if (s.oc oc).live = true ∧ (s.oc oc).objhead = oh then
    let busy := (s.oc oc).busy
    let s := s.setOh oh fun x => { x with objcs := x.objcs.erase oc }
    let s := if busy then hshRush r.queued oh r.exponent s else s
    let s := s.setOc oc fun y => { y with live := false }
    if (s.oh oh).refcnt > 0 then derefObjHead s oh else none
  else none

/-- `HSH_Drop`. -/
def hshDrop (r : Rush) (s : Hsh) (oc : ℕ) : Option Hsh :=
  if (s.oc oc).refcnt > 0 then do
    let s ← hshUnbusy r s oc
    hshDeref r s oc
  else none

end Release

end Varnish.Hash
