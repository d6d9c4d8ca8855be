import Mathlib.Order.Lattice
import Varnish.Binheap.Model

/-!
# Varnish.Expire.Model — the timers and the LRU lists of `cache_expire.c`

Objcores are named by numbers, and `heap.idx oc` is `oc->timer_idx`.  Times are of a type `T` with a linear order; a
time that is no number fails the assertion of `update_object_when`.

`EXP_NukeOne` and an iteration of `exp_timer` take an objcore off the heap and the list under `exp_mtx`, and release the
reference afterwards: `hands` are the objcores for which that is still to be done.

* `expInject`, `expInsert`, `expTouch`, `expRearm`: the functions of that name.
* `expTimer`, `expNukeOne`: what `exp_timer` and `EXP_NukeOne` do under the lock.  `release`: what they do after it.
* `Act`, `expStep`: these, and what the rest of the cache does with objcores and their references.
-/

namespace Varnish.Expire

open Varnish.Binheap

variable {T : Type} [LinearOrder T]

/-! ## Data -/

section Data

/-- `struct objcore`. -/
structure Core (T : Type) where
  refcnt : ℕ
  busy : Bool
  onLru : Bool
  persistent : Bool
  dontMove : Bool
  timerWhen : T

/-- What is read of `struct object`.  `fires` is `ttl` and grace together, if that is a number; `entered` tells whether
the time is one; `objstore` gives the LRU list of the stevedore. -/
structure Object (T : Type) where
  objcore : Option ℕ
  cacheable : Bool
  entered : Bool
  fires : Option T
  objstore : Option ℕ

/-- `struct lru`, from the head to the sentinel.  Segments of a silo have lists of their own. -/
structure Lru where
  seg : Bool
  list : List ℕ

inductive Taker where
  | timer
  | nuke
deriving DecidableEq

/-- An objcore that was freed is `none`.  Two fields are not in the program: `others` counts the references that are not
held for the heap and the lists, and `missed` tells whether something was removed from where it is not. -/
structure Exp (T : Type) where
  core : ℕ → Option (Core T)
  heap : Heap ℕ
  lru : List Lru
  hands : List (Taker × ℕ)
  others : ℕ → ℕ
  missed : Bool

def Exp.setCore (s : Exp T) (oc : ℕ) (c : Option (Core T)) : Exp T := { s with core := Function.update s.core oc c }

def Exp.setOthers (s : Exp T) (oc n : ℕ) : Exp T := { s with others := Function.update s.others oc n }

/-- `object_cmp`. -/
def objectCmp (core : ℕ → Option (Core T)) (a b : ℕ) : Bool :=
  match core a, core b with
  | some a, some b => decide (a.timerWhen < b.timerWhen)
  | _, _ => false

end Data

/-! ## Lists and the heap -/

section Lists

/-- `VLIST_INSERT_BEFORE(&lru->senteniel, oc, lru_list)`. -/
def vlistInsert (s : Exp T) (l oc : ℕ) : Option (Exp T) :=
  if l < s.lru.length then some { s with lru := s.lru.modify l fun lru => { lru with list := lru.list ++ [oc] } }
  else none

/-- `VLIST_REMOVE(oc, lru_list)`. -/
def vlistRemove (s : Exp T) (oc : ℕ) : Exp T :=
  { s with lru := s.lru.map fun lru => { lru with list := lru.list.erase oc },
           missed := s.missed || !s.lru.any fun lru => lru.list.contains oc }

/-- `binheap_insert(exp_heap, oc)` and the assertion after it. -/
def heapInsert (pg : Page) (s : Exp T) (oc : ℕ) : Option (Exp T) := do
  let h ← binheapInsert (objectCmp s.core) pg s.heap oc
  if h.idx oc ≠ 0 then some { s with heap := h } else none

/-- `binheap_delete(exp_heap, oc->timer_idx)` and the assertion after it. -/
def heapDelete (pg : Page) (s : Exp T) (oc junk : ℕ) : Option (Exp T) := do
  let h ← binheapDelete (objectCmp s.core) pg s.heap (s.heap.idx oc) junk
  if h.idx oc = 0 then some { s with heap := h, missed := s.missed || decide (s.heap.A (s.heap.idx oc) ≠ some oc) }
  else none

end Lists

/-! ## The functions -/

section Functions

variable (pg : Page)

/-- The end of `EXP_Inject`, and of `EXP_Insert` for an object that is in storage. -/
def lruInsert (s : Exp T) (l oc : ℕ) : Option (Exp T) := do
  let s ← vlistInsert s l oc
  let c ← s.core oc
  some (s.setCore oc (some { c with onLru := true }))

/-- `EXP_Inject`.  The reference of the caller is the one that is held from now on. -/
def expInject (s : Exp T) (oc l : ℕ) (ttl : T) : Option (Exp T) := do
  let c ← s.core oc
  if s.heap.idx oc = 0 then do
    let s ← heapInsert pg (s.setCore oc (some { c with timerWhen := ttl })) oc
    let s ← lruInsert s l oc
    some (s.setOthers oc (s.others oc - 1))
  else none

/-- `EXP_Insert`. -/
def expInsert (s : Exp T) (o : Object T) : Option (Exp T) := do
  let oc ← o.objcore
  let c ← s.core oc
  let when ← o.fires
  if c.busy ∧ o.cacheable ∧ o.entered ∧ 0 < c.refcnt ∧ s.heap.idx oc = 0 then do
    let s ← heapInsert pg (s.setCore oc (some { c with refcnt := c.refcnt + 1, timerWhen := when })) oc
    match o.objstore with
    | some l => lruInsert s l oc
    | none => some s
  else none

/-- `EXP_Touch`; `locked` if another thread has `exp_mtx`. -/
def expTouch (s : Exp T) (o : Object T) (locked : Bool) : Option (Exp T) :=
  match o.objcore with
  | none => some s
  | some oc => do
    let c ← s.core oc
    if c.dontMove then some s
    else
      match o.objstore with
      | none => some s
      | some l =>
        if locked then some s
        else if c.onLru then vlistInsert (vlistRemove s oc) l oc
        else some s

/-- `EXP_Rearm`. -/
def expRearm (s : Exp T) (o : Object T) (junk : ℕ) : Option (Exp T) :=
  match o.objcore with
  | none => some s
  | some oc => do
    let c ← s.core oc
    if s.heap.idx oc = 0 then some s
    else do
      let when ← o.fires
      if when = c.timerWhen then some s
      else do
        let s ← heapDelete pg (s.setCore oc (some { c with timerWhen := when })) oc junk
        heapInsert pg s oc

/-- An iteration of `exp_timer` under the lock, at the time `t`. -/
def expTimer (s : Exp T) (t : T) (junk : ℕ) : Option (Exp T) :=
  match binheapRoot s.heap with
  | none => some s
  | some oc => do
    let c ← s.core oc
    if c.timerWhen > t then some s
    else if s.heap.idx oc ≠ 0 then do
      let s ← heapDelete pg s oc junk
      let s := if c.onLru then (vlistRemove s oc).setCore oc (some { c with onLru := false }) else s
      some { s with hands := (.timer, oc) :: s.hands }
    else none

/-- The loop of `EXP_NukeOne`: the first objcore of the list that is on the heap and that nobody uses. -/
def nukeScan (s : Exp T) : List ℕ → Option (Option ℕ)
  | [] => some none
  | oc :: ocs => do
    let c ← s.core oc
    if s.heap.idx oc = 0 then nukeScan s ocs
    else if c.refcnt = 1 then some (some oc)
    else nukeScan s ocs

/-- `EXP_NukeOne` under the lock. -/
def expNukeOne (s : Exp T) (l junk : ℕ) : Option (Exp T) := do
  let lru ← s.lru[l]?
  match ← nukeScan s lru.list with
  | none => some s
  | some oc => do
    let c ← s.core oc
    let s ← heapDelete pg ((vlistRemove s oc).setCore oc (some { c with onLru := false })) oc junk
    some { s with hands := (.nuke, oc) :: s.hands }

end Functions

/-! ## References -/

section Refs

/-- `HSH_Deref`: an objcore that was not fixed up has no object yet. -/
def hshDeref (s : Exp T) (oc : ℕ) : Option (Exp T) := do
  let c ← s.core oc
  if c.persistent = false ∧ 0 < c.refcnt then
    some (s.setCore oc (if c.refcnt - 1 = 0 then none else some { c with refcnt := c.refcnt - 1 }))
  else none

/-- `HSH_DerefObjCore`: the objcore goes, whatever its counter is. -/
def hshDerefObjCore (s : Exp T) (oc : ℕ) : Option (Exp T) := do
  let _ ← s.core oc
  some (s.setCore oc none)

/-- What `exp_timer` and `EXP_NukeOne` do after they have given the lock back. -/
def release (s : Exp T) : Taker → ℕ → Option (Exp T)
  | .timer, oc => do
    let c ← s.core oc
    let s := { s with hands := s.hands.erase (.timer, oc) }
    if c.persistent then hshDerefObjCore s oc else hshDeref s oc
  | .nuke, oc => hshDeref { s with hands := s.hands.erase (.nuke, oc) } oc

/-- `HSH_Lookup` puts a new objcore in the hash. -/
def newCore (s : Exp T) (oc : ℕ) (when : T) : Exp T :=
  let s := { s with heap := { s.heap with idx := Function.update s.heap.idx oc 0 } }
  (s.setCore oc (some ⟨1, true, false, false, false, when⟩)).setOthers oc 1

/-- `smp_load_seg` and `HSH_Insert` put one in the hash. -/
def loadCore (s : Exp T) (oc : ℕ) (when : T) : Exp T :=
  let s := { s with heap := { s.heap with idx := Function.update s.heap.idx oc 0 } }
  (s.setCore oc (some ⟨1, false, false, true, true, when⟩)).setOthers oc 1

/-- `SMP_Fixup`. -/
def smpFixup (s : Exp T) (oc : ℕ) : Option (Exp T) := do
  let c ← s.core oc
  if c.persistent then some (s.setCore oc (some { c with persistent := false })) else none

/-- The flag is cleared or set: by `HSH_Unbusy`, and by `smp_object`. -/
def hshUnbusy (s : Exp T) (oc : ℕ) : Option (Exp T) := do
  let c ← s.core oc
  if c.busy ∧ 0 < c.refcnt then some (s.setCore oc (some { c with busy := false })) else none

def smpObject (s : Exp T) (oc : ℕ) : Option (Exp T) := do
  let c ← s.core oc
  some (s.setCore oc (some { c with dontMove := true }))

/-- A session gets a reference. -/
def sessRef (s : Exp T) (oc : ℕ) : Option (Exp T) := do
  let c ← s.core oc
  some ((s.setCore oc (some { c with refcnt := c.refcnt + 1 })).setOthers oc (s.others oc + 1))

/-- A session releases a reference. -/
def sessDeref (s : Exp T) (oc : ℕ) : Option (Exp T) :=
  hshDeref (s.setOthers oc (s.others oc - 1)) oc

end Refs

/-! ## Runs -/

section Runs

inductive Act (T : Type) where
  | lruAlloc (seg : Bool)
  | newCore (oc : ℕ) (when : T)
  | loadCore (oc : ℕ) (when : T)
  | fixup (oc : ℕ)
  | unbusy (oc : ℕ)
  | smpObject (oc : ℕ)
  | ref (oc : ℕ)
  | deref (oc : ℕ)
  | inject (oc l : ℕ) (ttl : T)
  | insert (o : Object T)
  | touch (o : Object T) (locked : Bool)
  | rearm (o : Object T) (junk : ℕ)
  | timer (t : T) (junk : ℕ)
  | nukeOne (l junk : ℕ)
  | release (taker : Taker) (oc : ℕ)

def expStep (pg : Page) (s : Exp T) : Act T → Option (Exp T)
  | .lruAlloc seg => some { s with lru := s.lru ++ [⟨seg, []⟩] }
  | .newCore oc when => some (newCore s oc when)
  | .loadCore oc when => some (loadCore s oc when)
  | .fixup oc => smpFixup s oc
  | .unbusy oc => hshUnbusy s oc
  | .smpObject oc => smpObject s oc
  | .ref oc => sessRef s oc
  | .deref oc => sessDeref s oc
  | .inject oc l ttl => expInject pg s oc l ttl
  | .insert o => expInsert pg s o
  | .touch o locked => expTouch s o locked
  | .rearm o junk => expRearm pg s o junk
  | .timer t junk => expTimer pg s t junk
  | .nukeOne l junk => expNukeOne pg s l junk
  | .release taker oc => release s taker oc

/-- The list is one of a stevedore. -/
def Exp.stvLru (s : Exp T) (l : ℕ) : Bool := s.lru[l]?.any fun lru => !lru.seg

/-- The list is one of a segment. -/
def Exp.segLru (s : Exp T) (l : ℕ) : Bool := s.lru[l]?.any fun lru => lru.seg

/-- What the callers promise.  A new objcore is not one that is in use; `HSH_Lookup` takes references only on what was
fixed up; who releases a reference, hands it over or has an object to insert holds one; objcores of a silo are injected
on the list of their segment, objects and `EXP_NukeOne` go to the list of a stevedore. -/
def Act.Ok (s : Exp T) : Act T → Prop
  | .lruAlloc _ => True
  | .newCore oc _ => s.core oc = none
  | .loadCore oc _ => s.core oc = none
  | .fixup _ => True
  | .unbusy _ => True
  | .smpObject _ => True
  | .ref oc => (s.core oc).all fun c => !c.persistent
  | .deref oc => 0 < s.others oc
  | .inject oc l _ => 0 < s.others oc ∧ s.segLru l
  | .insert o => o.objcore.all fun oc => 0 < s.others oc ∧ o.objstore.all fun l => s.stvLru l
  | .touch o _ => o.objstore.all fun l => s.stvLru l
  | .rearm _ _ => True
  | .timer _ _ => True
  | .nukeOne l _ => s.stvLru l
  | .release taker oc => (taker, oc) ∈ s.hands

/-- The condition: an objcore is put on the heap only while the 32-bit counters of the heap can take it. -/
def Act.Fits (s : Exp T) : Act T → Prop
  | .inject _ _ _ => s.heap.next < 2 ^ 32 - 2 * rowWidth
  | .insert _ => s.heap.next < 2 ^ 32 - 2 * rowWidth
  | _ => True

instance (s : Exp T) : (a : Act T) → Decidable (a.Ok s)
  | .lruAlloc _ | .fixup _ | .unbusy _ | .smpObject _ | .rearm _ _ | .timer _ _ => isTrue trivial
  | .newCore oc _ | .loadCore oc _ => decidable_of_iff ((s.core oc).isNone) Option.isNone_iff_eq_none
  | .ref oc => inferInstanceAs (Decidable ((s.core oc).all fun c => !c.persistent))
  | .deref oc => inferInstanceAs (Decidable (0 < s.others oc))
  | .inject oc l _ => inferInstanceAs (Decidable (0 < s.others oc ∧ s.segLru l))
  | .insert o => inferInstanceAs (Decidable (o.objcore.all fun oc => 0 < s.others oc ∧ o.objstore.all fun l => s.stvLru l))
  | .touch o _ => inferInstanceAs (Decidable (o.objstore.all fun l => s.stvLru l))
  | .nukeOne l _ => inferInstanceAs (Decidable (s.stvLru l))
  | .release taker oc => inferInstanceAs (Decidable ((taker, oc) ∈ s.hands))

instance (s : Exp T) : (a : Act T) → Decidable (a.Fits s)
  | .inject _ _ _ | .insert _ => inferInstanceAs (Decidable (s.heap.next < 2 ^ 32 - 2 * rowWidth))
  | .lruAlloc _ | .newCore _ _ | .loadCore _ _ | .fixup _ | .unbusy _ | .smpObject _ | .ref _ | .deref _ | .touch _ _
  | .rearm _ _ | .timer _ _ | .nukeOne _ _ | .release _ _ => isTrue trivial

/-- The start: `EXP_Init` makes a heap, in memory that holds `junk`. -/
def expInit (junk : ℕ → Option ℕ) : Option (Exp T) :=
  (binheapNew junk fun _ => 0).map fun h =>
    { core := fun _ => none, heap := h, lru := [], hands := [], others := fun _ => 0, missed := false }

end Runs

end Varnish.Expire
