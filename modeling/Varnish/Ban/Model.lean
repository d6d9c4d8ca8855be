import Mathlib.Order.Lattice
import Varnish.Ban.Test
import Varnish.Lib.Tally

/-!
# Varnish.Ban.Model — the ban list (`cache_ban.c`)

Bans live in a memory that is addressed by number and are listed newest first; each of them has a reference count and
the list of the objcores that were found clean up to it.

* `banInsert`, `banNewObj`, `banCheckLast`, `banDestroyObj`, `banCheckObject`: the operations of the cache.
* `banTailRef`, `banDeref`, `banRefBan`, `banReload`: the operations of the persistent silos.
-/

namespace Varnish.Ban

open Varnish.Lib

/-! ## Data -/

section Data

/-- `struct ban`; `gone` and `pending` are flags. -/
@[ext]
structure BanRec (R T : Type) extends BanSpec R where
  gone : Bool
  pending : Bool
  refcount : ℤ
  objcore : List ℕ
  t0 : T

/-- The memory of the bans, `ban_head` and `ban_start`; the bans from `next` on were never handed out. -/
@[ext]
structure Bans (R T : Type) where
  ban : ℕ → BanRec R T
  head : List ℕ
  start : ℕ
  next : ℕ

/-- What the ban code reads and writes of `struct object`. -/
structure Object (T : Type) where
  http : Http
  ban : Option ℕ
  banT : T
  ttl : ℤ
  cacheable : Bool

variable {R T : Type}

/-- A write to one ban. -/
def Bans.upd (s : Bans R T) (b : ℕ) (f : BanRec R T → BanRec R T) : Bans R T :=
  { s with ban := Function.update s.ban b (f (s.ban b)) }

/-- `b->refcount += k`. -/
def Bans.ref (s : Bans R T) (b : ℕ) (k : ℤ) : Bans R T := s.upd b fun x => { x with refcount := x.refcount + k }

/-- A reference for the objcore `oc`, and `oc` at the end of the list of the ban. -/
def Bans.attach (s : Bans R T) (b oc : ℕ) : Bans R T :=
  s.upd b fun x => { x with refcount := x.refcount + 1, objcore := x.objcore ++ [oc] }

/-- The reference of the objcore `oc` given up, and `VTAILQ_REMOVE`, which takes it to be on the list. -/
def Bans.detach (s : Bans R T) (b oc : ℕ) : Option (Bans R T) :=
  if oc ∈ (s.ban b).objcore then
    some (s.upd b fun x => { x with refcount := x.refcount - 1, objcore := x.objcore.erase oc })
  else none

/-- The ban `b` marked `BAN_F_GONE`. -/
def Bans.setGone (s : Bans R T) (b : ℕ) : Bans R T := s.upd b fun x => { x with gone := true }

end Data

/-! ## Insertion -/

section Insert

variable {R T : Type}

/-- `BAN_Insert` up to the first unlock; `be` is the last ban, with a reference, if duplicates are to be hunted. -/
def banInsertHead (s : Bans R T) (c : BanSpec R) (now : T) (dups : Bool) : Option ℕ × Bans R T :=
  let b := s.next
  let s := { s with
    ban := Function.update s.ban b { c with gone := false, pending := false, refcount := 0, objcore := [], t0 := now }
    head := b :: s.head
    start := b
    next := b + 1 }
  match s.head.getLast? with
  | some be => if dups && be != b then (some be, s.ref be 1) else (none, s)
  | none => (none, s)

/-- A turn of the hunt of `BAN_Insert` for bans with the text of `b`. -/
def huntDup (b : ℕ) (s : Bans R T) (bi : ℕ) : Bans R T :=
  if (s.ban bi).gone then s else if (s.ban b).test = (s.ban bi).test then s.setGone bi else s

/-- The bans after `b`, up to `be`. -/
def after (b : ℕ) (l : List ℕ) : List ℕ := (l.dropWhile (· ≠ b)).tail

/-- The hunt: `bi` goes from `b` to `be`, which is the last one. -/
def banHunt (s : Bans R T) (b : ℕ) : Bans R T := (after b s.head).foldl (huntDup b) s

/-- `BAN_Insert`. -/
def banInsert (s : Bans R T) (c : BanSpec R) (now : T) (dups : Bool) : Bans R T :=
  let b := s.next
  match banInsertHead s c now dups with
  | (none, s) => s
  | (some be, s) => (banHunt s b).ref be (-1)

end Insert

/-! ## Objects -/

section Objects

variable {R T : Type}

/-- `BAN_NewObj`. -/
def banNewObj (s : Bans R T) (o : Object T) (oc : ℕ) : Option (Bans R T × Object T) :=
  if o.ban = none then
    some (s.attach s.start oc, { o with ban := some s.start, banT := (s.ban s.start).t0 })
  else none

/-- `BAN_Free`: the assertions. -/
def banFree (s : Bans R T) (b : ℕ) : Option (Bans R T) :=
  if (s.ban b).refcount = 0 ∧ (s.ban b).objcore = [] then some s else none

/-- `BAN_CheckLast`: the ban that is taken off the list. -/
def banCheckLast (s : Bans R T) : Option ℕ × Bans R T :=
  match s.head.getLast? with
  | some b =>
    if s.head.head? ≠ some b ∧ (s.ban b).refcount = 0 then (some b, { s with head := s.head.dropLast }) else (none, s)
  | none => (none, s)

/-- `BAN_CheckLast`, and `BAN_Free` of what it returns. -/
def banRetire (s : Bans R T) : Option (Bans R T) :=
  match banCheckLast s with
  | (some b, s) => banFree s b
  | (none, s) => some s

/-- `BAN_DestroyObj`. -/
def banDestroyObj (s : Bans R T) (o : Object T) (oc : ℕ) : Option (Bans R T × Object T) :=
  match o.ban with
  | none => some (s, o)
  | some b =>
    if (s.ban b).refcount > 0 then do
      let s ← s.detach b oc
      let s ← banRetire s
      some (s, { o with ban := none })
    else none

/-- The walk of `ban_check_object` from `b0` on, with the ban where it ends, or `none` at a ban with `BAN_F_REQ` that
cannot be tested. It fails past the end of the list, and on a test of the request without a request. -/
def banWalk (vre : Vre R) (ban : ℕ → BanRec R T) (o : Http) (sp : Option Http) (hasReq : Bool) (ob : ℕ) :
    List ℕ → Option (Option ℕ)
  | [] => none
  | b :: l =>
    if b = ob then some (some b)
    else if (ban b).gone then banWalk vre ban o sp hasReq ob l
    else if !hasReq && (ban b).req then some none
    else do
      if ← banMatch vre o sp (ban b).tests then some (some b) else banWalk vre ban o sp hasReq ob l

/-- What the check goes on with after the walk. -/
inductive Walk where
  /-- Return 0 without the lock. -/
  | clean
  /-- On to the lock, with `b0` and `b`. -/
  | section (b0 b : ℕ)
deriving DecidableEq

/-- `ban_check_object` up to the lock. -/
def checkWalk (vre : Vre R) (s : Bans R T) (o : Object T) (sp : Option Http) (hasReq : Bool) : Option Walk := do
  let ob ← o.ban
  let b0 := s.start
  if b0 = ob then some .clean
  else
    match ← banWalk vre s.ban o.http sp hasReq ob (s.head.dropWhile (· ≠ b0)) with
    | none => some .clean
    | some b => some (.section b0 b)

/-- `ban_check_object`, the part with the lock. -/
def checkSection (s : Bans R T) (o : Object T) (oc b0 b : ℕ) : Option (Bans R T) := do
  let ob ← o.ban
  let s ← s.detach ob oc
  if b = ob then some (s.attach b0 oc) else some s

/-- `ban_check_object` after the unlock: the object, and the result. -/
def checkWrites (s : Bans R T) (o : Object T) (b0 b : ℕ) : Object T × Bool :=
  if o.ban = some b then ({ o with ban := some b0, banT := (s.ban b0).t0 }, false)
  else ({ o with ttl := 0, cacheable := false, ban := none }, true)

/-- `ban_check_object`. -/
def banCheckObject (vre : Vre R) (s : Bans R T) (o : Object T) (oc : ℕ) (sp : Option Http) (hasReq : Bool) :
    Option (Bans R T × Object T × Bool) := do
  match ← checkWalk vre s o sp hasReq with
  | .clean => some (s, o, false)
  | .section b0 b =>
    let s ← checkSection s o oc b0 b
    some (s, checkWrites s o b0 b)

end Objects

/-! ## Silos -/

section Silos

variable {R T : Type} [LinearOrder T]

/-- `BAN_TailRef`. -/
def banTailRef (s : Bans R T) : Option (ℕ × Bans R T) := s.head.getLast?.map fun b => (b, s.ref b 1)

/-- `BAN_Deref`. -/
def banDeref (s : Bans R T) (b : ℕ) : Bans R T := s.ref b (-1)

/-- `BAN_RefBan`. -/
def banRefBan (s : Bans R T) (oc : ℕ) (t0 : T) (tail : ℕ) : Option (ℕ × Bans R T) := do
  let b ← s.head.find? fun b => b = tail || (s.ban b).t0 ≤ t0
  if (s.ban b).t0 = t0 then some (b, s.attach b oc) else none

/-- The first loop of `BAN_Reload`: `none` if the ban is there already, else `gone` and how many bans come before the
new one. -/
def reloadScan (ban : ℕ → BanRec R T) (t0 : T) (test : Str) : Bool → List ℕ → Option (Bool × ℕ)
  | gone, [] => some (gone, 0)
  | gone, b :: l =>
    let x := ban b
    let next := fun gone => (reloadScan ban t0 test gone l).map fun r => (r.1, r.2 + 1)
    if x.test = test then
      if x.t0 > t0 then next true
      else if x.t0 = t0 then none
      else some (gone, 0)
    else if x.t0 > t0 then next gone
    else if x.t0 < t0 then some (gone, 0)
    else next gone

/-- `BAN_Reload`. -/
def banReload (s : Bans R T) (t0 : T) (test : Str) : Bans R T :=
  match reloadScan s.ban t0 test false s.head with
  | none => s
  | some (gone, n) =>
    let b := s.next
    let x : BanRec R T :=
      { tests := [], req := false, test, gone, pending := true, refcount := 0, objcore := [], t0 }
    let s := { s with
      ban := Function.update s.ban b x
      head := s.head.take n ++ b :: s.head.drop n
      next := b + 1 }
    banHunt s b

end Silos

end Varnish.Ban
