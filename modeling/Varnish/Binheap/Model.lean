import Mathlib.Logic.Function.Basic
import Mathlib.Data.Nat.Bitwise

/-!
# Varnish.Binheap.Model — the page-clustered heap of `binary_heap.c`

The heap stores elements of a type `E` (the non-`NULL` pointers); `lt` is the `cmp` callback, and the `update` callback
is modelled by the last index that it reported for each element.  A failed assertion, an access through a `NULL` row and
a comparison with a `NULL` element are `none`, and so is a loop that does not end.

An `unsigned` has 32 bits; `wrap` stands where a computation can leave them.
-/

namespace Varnish.Binheap

def wrap (x : ℕ) : ℕ := x % 2 ^ 32

/-- `u & ~m`. -/
def clear (u m : ℕ) : ℕ := u - (u &&& m)

def rootIdx : ℕ := 1

def rowShift : ℕ := 16

def rowWidth : ℕ := 1 <<< rowShift

/-! ## Pages -/

/-- The number of pointers on a page is `1 << shift`, in 32 bits: `binheap_new` asserts that it is a power of two.  (It also
asserts that there are no more than `sizeof (void *)` rows on a page, on which nothing depends.)  No machine has pages with
less than four pointers. -/
structure Page where
  shift : ℕ
  two_le : 2 ≤ shift
  le : shift ≤ 31

def Page.size (pg : Page) : ℕ := 1 <<< pg.shift

def Page.mask (pg : Page) : ℕ := pg.size - 1

def parent (pg : Page) (u : ℕ) : ℕ :=
  let po := u &&& pg.mask
  if u < pg.size ∨ po > 3 then clear u pg.mask ||| po >>> 1
  else if po < 2 then
    let v := (u - pg.size) >>> pg.shift
    let v := v + clear v (pg.mask >>> 1)
    v ||| pg.size / 2
  else u - 2

/-- First two elements are magical except on the first page. -/
def Magic (pg : Page) (u : ℕ) : Prop := u > pg.mask ∧ u &&& (pg.mask - 1) = 0

/-- The bottom row is even more magical. -/
def Bottom (pg : Page) (u : ℕ) : Prop := u &&& pg.size >>> 1 ≠ 0

instance (pg : Page) (u : ℕ) : Decidable (Magic pg u) := inferInstanceAs (Decidable (_ ∧ _))

instance (pg : Page) (u : ℕ) : Decidable (Bottom pg u) := inferInstanceAs (Decidable (_ ≠ _))

/-- The page on which the children of an element of the bottom row are. -/
def bottomPage (pg : Page) (u : ℕ) : ℕ := (clear u pg.mask >>> 1 ||| u &&& pg.mask >>> 1) + 1

/-- `child`: `*a` and `*b`, given the value `b` that `*b` has before the call.  The last branch does not read `*a` for
`*b`, it increments what is there. -/
def child (pg : Page) (u b : ℕ) : ℕ × ℕ :=
  if Magic pg u then (u + 2, u + 2)
  else if Bottom pg u then
    let a := wrap (bottomPage pg u <<< pg.shift)
    (a, a + 1)
  else (u + (u &&& pg.mask), wrap (b + 1))

/-! ## The heap -/

variable {E : Type}

/-- `row i` tells whether `array[i]` is not `NULL`; `idx x` is the last index reported for `x`. -/
structure Heap (E : Type) where
  cell : ℕ → Option E
  row : ℕ → Bool
  rows : ℕ
  length : ℕ
  next : ℕ
  idx : E → ℕ

/-- `A(bh, n)`. -/
def Heap.A (h : Heap E) (n : ℕ) : Option E :=
  if n >>> rowShift < h.rows ∧ h.row (n >>> rowShift) = true then h.cell n else none

/-- `A(bh, n) = p`. -/
def Heap.setA (h : Heap E) (n : ℕ) (p : Option E) : Option (Heap E) :=
  if n >>> rowShift < h.rows ∧ h.row (n >>> rowShift) = true then some { h with cell := Function.update h.cell n p }
  else none

/-- `binheap_addrow`. -/
def binheapAddrow (h : Heap E) : Option (Heap E) :=
  let h := if h.length >>> rowShift ≥ h.rows then { h with rows := h.rows * 2 } else h
  if h.row (h.length >>> rowShift) then none
  else some
    { h with row := Function.update h.row (h.length >>> rowShift) true, length := wrap (h.length + rowWidth) }

/-- `binheap_new`; `junk` is what `malloc` left in the rows. -/
def binheapNew (junk : ℕ → Option E) (idx : E → ℕ) : Option (Heap E) := do
  let h ← binheapAddrow { cell := junk, row := fun _ => false, rows := 16, length := 0, next := rootIdx, idx := idx }
  h.setA rootIdx none

section Ops

variable [DecidableEq E] (lt : E → E → Bool) (pg : Page)

/-- `binheap_update`. -/
def binheapUpdate (h : Heap E) (u : ℕ) : Option (Heap E) :=
  if u < h.next then do
    let x ← h.A u
    some { h with idx := Function.update h.idx x u }
  else none

/-- `binhead_swap`. -/
def binheadSwap (h : Heap E) (u v : ℕ) : Option (Heap E) :=
  if u < h.next ∧ v < h.next then do
    let p := h.A u
    let h ← h.setA u (h.A v)
    let h ← h.setA v p
    let h ← binheapUpdate h u
    binheapUpdate h v
  else none

/-- The loop of `binheap_trickleup`. -/
def binheapTrickleup : (fuel : ℕ) → Heap E → ℕ → Option (Heap E × ℕ)
  | 0, _, _ => none
  | fuel + 1, h, u =>
    if u > rootIdx then do
      let v := parent pg u
      let x ← h.A u
      let y ← h.A v
      if lt x y then
        let h ← binheadSwap h u v
        binheapTrickleup fuel h v
      else some (h, u)
    else some (h, u)

/-- The choice between the two children that `child` gave: `if (v2 < bh->next && bh->cmp(bh->priv, A(bh, v2), A(bh,
v1))) v1 = v2`. -/
def lesserChild (h : Heap E) (v1 v2 : ℕ) : Option ℕ :=
  if v2 < h.next then do
    let x ← h.A v2
    let y ← h.A v1
    some (if lt x y then v2 else v1)
  else some v1

/-- The loop of `binheap_trickledown`, `v2` being what the variable holds. -/
def binheapTrickledown : (fuel : ℕ) → Heap E → (u v2 : ℕ) → Option (Heap E)
  | 0, _, _, _ => none
  | fuel + 1, h, u, v2 =>
    let (v1, v2) := child pg u v2
    if v1 ≥ h.next then some h
    else do
      let v1 ← lesserChild lt h v1 v2
      let x ← h.A u
      let y ← h.A v1
      if lt x y then some h
      else do
        let h ← binheadSwap h u v1
        binheapTrickledown fuel h v1 v2

/-- `if (bh->length == bh->next) binheap_addrow(bh)`. -/
def binheapRoom (h : Heap E) : Option (Heap E) := if h.length = h.next then binheapAddrow h else some h

/-- `u = bh->next++; A(bh, u) = p; binheap_update(bh, u)`. -/
def binheapPush (h : Heap E) (p : E) : Option (Heap E) := do
  let u := h.next
  let h ← { h with next := wrap (h.next + 1) }.setA u (some p)
  binheapUpdate h u

/-- `binheap_insert`. -/
def binheapInsert (h : Heap E) (p : E) : Option (Heap E) :=
  if h.length ≥ h.next then do
    let h ← binheapRoom h
    let u := h.next
    let h ← binheapPush h p
    let (h, _) ← binheapTrickleup lt pg (u + 1) h u
    some h
  else none

/-- `binheap_root`. -/
def binheapRoot (h : Heap E) : Option E := h.A rootIdx

/-- The part of `binheap_delete` before the element that takes the place is sifted: the tail element is at `idx`. -/
def binheapReplace (h : Heap E) (idx : ℕ) : Option (Heap E) := do
  let tail := h.A h.next
  let h ← h.setA idx tail
  let h ← h.setA h.next none
  binheapUpdate h idx

/-- The end of `binheap_delete`: a row goes back if two are free. -/
def binheapShrink (h : Heap E) : Heap E :=
  if wrap (h.next + 2 * rowWidth) ≤ h.length then
    { h with row := Function.update h.row ((h.length - 1) >>> rowShift) false, length := h.length - rowWidth }
  else h

/-- The update of the element that goes, and `--bh->next`. -/
def binheapRetire (h : Heap E) (x : E) : Heap E := { h with idx := Function.update h.idx x 0, next := h.next - 1 }

/-- `binheap_delete`; `junk` is what the variable `v2` of `binheap_trickledown` holds, which nothing initialises. -/
def binheapDelete (h : Heap E) (idx junk : ℕ) : Option (Heap E) :=
  if h.next > rootIdx ∧ idx < h.next ∧ idx > 0 then do
    let x ← h.A idx
    let h := binheapRetire h x
    if idx = h.next then h.setA h.next none
    else do
      let h ← binheapReplace h idx
      let (h, u) ← binheapTrickleup lt pg (idx + 1) h idx
      let h ← binheapTrickledown lt pg (h.next + 1) h u junk
      some (binheapShrink h)
  else none

end Ops

end Varnish.Binheap
