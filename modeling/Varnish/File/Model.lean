import Mathlib.Algebra.Group.Nat.Defs
import Mathlib.Logic.Function.Basic
import Varnish.Lib.Extent
import Varnish.Lib.Run
import Varnish.Lib.Tailq

/-!
# Varnish.File.Model — the allocator of the file storage

The functions of `bin/varnishd/storage_file.c`, on a memory of `struct smf` that is addressed by numbers.  `none` is a failed
assertion.  `malloc` never gives an address twice.

* `insfree`, `remfree`, `allocSmf`, `freeSmf`, `trimSmf`, `newSmf`: the segments and their lists.
* `smfAlloc`, `smfTrim`, `smfFree`: what the stevedore calls.
-/

namespace Varnish.File

open Varnish.Lib

/-! ## The lists -/

section Lists

def nbucket : ℕ := 128 / 4 + 1

/-- `struct smf`; `space` is the one of its `struct storage`, and `flist` the number of a free list. -/
structure Smf where
  alloc : Bool
  ext : Extent
  flist : Option ℕ
  space : ℕ
deriving DecidableEq

/-- `struct smf_sc` and the memory; `next` is the address that `malloc` gives. -/
structure Sc where
  smf : ℕ → Smf
  order : List ℕ
  used : List ℕ
  free : ℕ → List ℕ
  next : ℕ

def Sc.set (s : Sc) (p : ℕ) (sp : Smf) : Sc := { s with smf := Function.update s.smf p sp }

variable (pagesize : ℕ)

/-- The free list for a size. -/
def bucket (size : ℕ) : ℕ := if nbucket ≤ size / pagesize then nbucket - 1 else size / pagesize

/-- The assertions of the loop of `insfree`. -/
def Listed (s : Sc) (b q : ℕ) : Prop :=
  b * pagesize ≤ (s.smf q).ext.size ∧ (s.smf q).alloc = false ∧ (s.smf q).flist = some b

instance (s : Sc) (b q : ℕ) : Decidable (Listed pagesize s b q) := inferInstanceAs (Decidable (_ ∧ _))

/-- The loop of `insfree` goes on. -/
def passes (s : Sc) (sp : Smf) (q : ℕ) : Bool := ¬ sp.ext.off < (s.smf q).ext.off

def insfree (s : Sc) (p : ℕ) : Option Sc :=
  let sp := s.smf p
  let b := bucket pagesize sp.ext.size
  let seen := (s.free b).takeWhile (passes s sp) ++ ((s.free b).dropWhile (passes s sp)).take 1
  if sp.alloc = false ∧ sp.flist = none ∧ ∀ q ∈ seen, Listed pagesize s b q then
    some { s.set p { sp with flist := some b } with
      free := Function.update s.free b (Tailq.insertWhile (passes s sp) p (s.free b)) }
  else none

def remfree (s : Sc) (p : ℕ) : Option Sc :=
  let sp := s.smf p
  let b := bucket pagesize sp.ext.size
  if sp.alloc = false ∧ sp.flist = some b then
    some { s.set p { sp with flist := none } with free := Function.update s.free b ((s.free b).erase p) }
  else none

end Lists

/-! ## Segments -/

section Segments

variable (pagesize : ℕ)

/-- The segment that `alloc_smf` takes: the first one of the lists from `b` on, or the first one in the last list that is
large enough. -/
def findFree (s : Sc) (bytes : ℕ) : Option ℕ :=
  let b := bucket pagesize bytes
  ((List.range (nbucket - 1 - b)).findSome? fun i => (s.free (b + i)).head?).or
    ((s.free (nbucket - 1)).find? fun q => bytes ≤ (s.smf q).ext.size)

/-- A segment that is on no list comes into use. -/
def granted (s : Sc) (p : ℕ) : Sc := { s.set p { s.smf p with alloc := true } with used := s.used ++ [p] }

/-- The front of `p` is a new segment, which is in use. -/
def cutFront (s : Sc) (p n : ℕ) : Sc :=
  { (s.set s.next { s.smf p with ext := (s.smf p).ext.front n, alloc := true }).set p
      { s.smf p with ext := (s.smf p).ext.back n } with
    order := Tailq.insertBefore s.next p s.order, used := s.used ++ [s.next], next := s.next + 1 }

/-- `alloc_smf` -/
def allocSmf (s : Sc) (bytes : ℕ) : Option (Sc × Option ℕ) :=
  if bytes % pagesize ≠ 0 then none
  else
    match findFree pagesize s bytes with
    | none => some (s, none)
    | some p => do
      if (s.smf p).ext.size < bytes then none
      let s ← remfree pagesize s p
      if (s.smf p).ext.size = bytes then some (granted s p, some p)
      else
        let s' ← insfree pagesize (cutFront s p bytes) p
        some (s', some s.next)

/-- Whether `free_smf` joins `sp` and the segment behind it. -/
def Joins (sp sp2 : Smf) : Prop := sp2.alloc = false ∧ sp.ext.Touch sp2.ext

instance (sp sp2 : Smf) : Decidable (Joins sp sp2) := inferInstanceAs (Decidable (_ ∧ _))

/-- The first part of `free_smf`: the next segment is joined to `p`. -/
def joinNext (s : Sc) (p : ℕ) : Option Sc :=
  match Tailq.next p s.order with
  | none => some s
  | some q =>
    if Joins (s.smf p) (s.smf q) then
      let sp := s.smf p
      let s := s.set p { sp with ext := { sp.ext with size := sp.ext.size + (s.smf q).ext.size } }
      remfree pagesize { s with order := s.order.erase q } q
    else some s

/-- The second part of `free_smf`: `p` is joined to the segment before it.  The result has the segment that is free. -/
def joinPrev (s : Sc) (p : ℕ) : Option (Sc × ℕ) :=
  match Tailq.prev p s.order with
  | none => some (s, p)
  | some q =>
    if (s.smf q).alloc = false ∧ (s.smf q).ext.Touch (s.smf p).ext then do
      let s ← remfree pagesize s q
      let sq := s.smf q
      let s := s.set q { sq with ext := { sq.ext with size := sq.ext.size + (s.smf p).ext.size } }
      some ({ s with order := s.order.erase p }, q)
    else some (s, p)

/-- A segment in use is freed, but on no list yet. -/
def released (s : Sc) (p : ℕ) : Sc := { s.set p { s.smf p with alloc := false } with used := s.used.erase p }

/-- `free_smf` -/
def freeSmf (s : Sc) (p : ℕ) : Option Sc := do
  let sp := s.smf p
  if sp.alloc = false ∨ sp.ext.size = 0 ∨ sp.ext.size % pagesize ≠ 0 then none
  let s ← joinNext pagesize (released s p) p
  let (s, p) ← joinPrev pagesize s p
  insfree pagesize s p

/-- The back of `p` is a new segment, which is in use. -/
def cutBack (s : Sc) (p n : ℕ) : Sc :=
  { (s.set s.next { s.smf p with ext := (s.smf p).ext.back n }).set p { s.smf p with ext := (s.smf p).ext.front n } with
    order := Tailq.insertAfter s.next p s.order, used := s.used ++ [s.next], next := s.next + 1 }

/-- `trim_smf` -/
def trimSmf (s : Sc) (p bytes : ℕ) : Option Sc :=
  let sp := s.smf p
  if sp.alloc = false ∨ bytes = 0 ∨ sp.ext.size ≤ bytes ∨ bytes % pagesize ≠ 0 ∨ sp.ext.size % pagesize ≠ 0 then none
  else freeSmf pagesize (cutBack s p bytes) s.next

/-- A new segment, which is in use. -/
def inserted (s : Sc) (e : Extent) : Sc :=
  let s' := s.set s.next ⟨true, e, none, 0⟩
  { s' with order := Tailq.insertWhile (fun q => ¬ e.ptr < (s'.smf q).ext.ptr) s.next s.order
            used := s.next :: s.used, next := s.next + 1 }

/-- `new_smf` -/
def newSmf (s : Sc) (e : Extent) : Option Sc :=
  if e.size % pagesize ≠ 0 then none else freeSmf pagesize (inserted s e) s.next

end Segments

/-! ## The stevedore -/

section Stevedore

variable (pagesize : ℕ)

/-- The size in whole pages; `pagesize` is an `unsigned`, and so is the complement of `pagesize - 1`. -/
def roundUp (size : ℕ) : ℕ := (size + (pagesize - 1)) % 2 ^ 64 &&& (2 ^ 32 - pagesize)

/-- `smf_alloc` -/
def smfAlloc (s : Sc) (size : ℕ) : Option (Sc × Option ℕ) := do
  if size = 0 then none
  let size := roundUp pagesize size
  let (s, r) ← allocSmf pagesize s size
  match r with
  | none => some (s, none)
  | some p =>
    if (s.smf p).ext.size = size then some (s.set p { s.smf p with space := size % 2 ^ 32 }, some p) else none

/-- `smf_trim` -/
def smfTrim (s : Sc) (p size : ℕ) : Option Sc :=
  let sp := s.smf p
  if size = 0 ∨ sp.space < size ∨ sp.ext.size < size then none
  else
    let size := roundUp pagesize size
    if size < sp.ext.size then do
      let s ← trimSmf pagesize s p size
      if (s.smf p).ext.size = size then some (s.set p { s.smf p with space := size % 2 ^ 32 }) else none
    else some s

/-- `smf_free` -/
def smfFree (s : Sc) (p : ℕ) : Option Sc := freeSmf pagesize s p

/-- The allocator before any chunk was mapped. -/
def emptySc : Sc := ⟨fun _ => ⟨false, ⟨0, 0, 0⟩, none, 0⟩, [], [], fun _ => [], 0⟩

/-- The chunks that `smf_open_chunk` could map. -/
def openChunks (chunks : List Extent) : Option Sc := chunks.foldlM (newSmf pagesize) emptySc

inductive Op where
  | alloc (size : ℕ)
  | trim (p size : ℕ)
  | free (p : ℕ)
deriving DecidableEq

def smfStep (s : Sc) : Op → Option Sc
  | .alloc size => (smfAlloc pagesize s size).map Prod.fst
  | .trim p size => smfTrim pagesize s p size
  | .free p => smfFree pagesize s p

/-- Only segments that are in use are trimmed or freed. -/
def Op.Called (s : Sc) : Op → Prop
  | .alloc _ => True
  | .trim p _ => p ∈ s.used
  | .free p => p ∈ s.used

instance (s : Sc) : (op : Op) → Decidable (op.Called s)
  | .alloc _ => isTrue trivial
  | .trim p _ => inferInstanceAs (Decidable (p ∈ s.used))
  | .free p => inferInstanceAs (Decidable (p ∈ s.used))

end Stevedore

end Varnish.File
