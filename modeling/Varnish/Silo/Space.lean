import Varnish.Lib.Run
import Varnish.Silo.Model

/-!
# Varnish.Silo.Space — the space of a silo

The segments of a silo, and the allocations in them, as in `bin/varnishd/storage_persistent.c`.  Addresses are offsets in
the silo.  What is written there is not a part of this model, except for the places of the signatures.

* `Media`: the dimensions of a silo, with `smp_metrics`.
* `smpNewSeg`, `smpCloseSeg`, `smpObject`, `smpAlloc`: the operations, where `Stop` is the end of the program.
* `SpaceOk`: segments and allocations do not overlap and are where they should be.
-/

namespace Varnish.Silo

open Varnish.Lib

/-! ## Dimensions -/

section Media

/-- `RUP2(x, CACHE_LINE_ALIGN)`, for 64 bits. -/
def cAlign (x : ℕ) : ℕ := (x + 15) % 2 ^ 64 / 16 * 16

def signSpace : ℕ := 64

/-- `SEG_SPACE` -/
def segSpace : ℕ := cAlign signSpace

/-- `sizeof(struct storage)`, `sizeof(struct smp_object)` and `sizeof(struct object)` -/
def storageSize : ℕ := 72

def smpObjectSize : ℕ := 56

def objectSize : ℕ := 224

def minNseg : ℕ := 10

/-- The loop of `smp_metrics`; `max_nseg` has 32 bits. -/
def maxNsegLoop (len : ℕ) : (bits : ℕ) → (n : ℕ) → ℕ
  | 0, n => n
  | bits + 1, n => if len / n < objectSize then maxNsegLoop len bits (n / 2) else n

/-- The offset of `SMP_SPC_STUFF`. -/
def spcStuff (granularity : ℕ) : ℕ := granularity + 4 * areaSize

/-- `smp_stuff_len` of the space for segments. -/
def spcLen (granularity mediasize : ℕ) : ℕ := mediasize - spcStuff granularity - signSpace

def maxNseg (len : ℕ) : ℕ := maxNsegLoop len 32 ((areaSize - signSpace) / minNseg)

/-- A silo that `smp_init` accepts.  `aimNseg` is the average of `minNseg` and `maxNseg` that is computed with floating point
numbers, of which only the bounds are used. -/
structure Media where
  granularity : ℕ
  mediasize : ℕ
  aimNseg : ℕ
  page : 4096 ∣ granularity
  whole : granularity ∣ mediasize
  spc_lt : spcStuff granularity < mediasize
  lt_off : mediasize < 2 ^ 63
  aimNseg_pos : 0 < aimNseg
  aimNseg_le : aimNseg ≤ max minNseg (maxNseg (spcLen granularity mediasize))

namespace Media

variable (g : Media)

def spc : ℕ := spcStuff g.granularity

def stuffLen : ℕ := spcLen g.granularity g.mediasize

def maxSegl : ℕ := g.stuffLen / minNseg

def aimSegl : ℕ := g.stuffLen / g.aimNseg

def aimNobj : ℕ := g.maxSegl / 4000 % 2 ^ 32

/-- The length of a new segment. -/
def segl : ℕ := g.aimSegl / 8 * 8

end Media

end Media

/-! ## Segments -/

section Segments

/-- How the program ends: an assertion fails, a null pointer is read, or `exit` is called. -/
inductive Stop where
  | assertion
  | nullDeref
  | exit
deriving DecidableEq

/-- `struct smp_seg`.  `id` stands for its address; `resv` is the end that was reserved, which the program does not keep. -/
structure SmpSeg where
  id : ℕ
  offset : ℕ
  length : ℕ
  objlist : ℕ
  pnalloc : ℕ
  nobj : ℕ
  nalloc : ℕ
  nalloc1 : ℕ
  nalloc2 : ℕ
  nfixed : ℕ
  nextAddr : ℕ
  resv : ℕ
deriving DecidableEq

/-- `smp_segend` -/
def SmpSeg.segend (sg : SmpSeg) : ℕ := sg.offset + sg.length

/-- `smp_spaceleft` -/
def smpSpaceleft (sg : SmpSeg) : Except Stop ℕ :=
  if sg.nextAddr ≤ sg.segend then .ok (sg.segend - sg.nextAddr) else .error .assertion

/-- What `smp_alloc` handed out: a `struct storage` at `start`, and `size` bytes behind it.  `index` is the `smp_index` of
an object, when it was designated. -/
structure Bite where
  seg : ℕ
  start : ℕ
  size : ℕ
  oc : Bool
  index : Option ℕ
deriving DecidableEq

def Bite.stop (b : Bite) : ℕ := b.start + cAlign storageSize + b.size

/-- `struct smp_sc`.  The current segment is the last one of `segments`, and is kept apart; `objbuf` is not null when there
is none.  `nextId` and `bites` are not a part of the program. -/
structure Space where
  closed : List SmpSeg
  cur : Option SmpSeg
  freeOffset : ℕ
  objreserv : ℕ
  nextId : ℕ
  bites : List Bite
deriving DecidableEq

def Space.segments (s : Space) : List SmpSeg := s.closed ++ s.cur.toList

variable (g : Media)

/-- `smp_open_segs` of an empty table. -/
def smpOpenEmpty : Space := ⟨[], none, g.spc, 0, 0, []⟩

/-- The segment that `smp_new_seg` makes, when it is put at `off`. -/
def newSegAt (s : Space) (off : ℕ) : SmpSeg :=
  ⟨s.nextId, off, g.segl, 0, 0, 0, 0, 0, 0, 0, off + signSpace, off + g.segl⟩

/-- The last part of `smp_new_seg`. -/
def placeSeg (s : Space) (off : ℕ) : Except Stop Space :=
  if g.mediasize < off + g.segl then .error .assertion
  else if s.closed.head?.any fun sg2 => off < sg2.offset ∧ sg2.offset < off + g.segl then .error .exit
  else if off = 0 ∨ off % 8 ≠ 0 then .error .assertion
  else .ok { s with cur := some (newSegAt g s off), freeOffset := off + g.segl, objreserv := 0, nextId := s.nextId + 1 }

/-- `smp_new_seg` -/
def smpNewSeg (s : Space) : Except Stop Space :=
  if s.cur.isSome then .error .assertion
  else if s.freeOffset < g.spc ∨ g.mediasize ≤ s.freeOffset then .error .assertion
  else if g.mediasize < s.freeOffset + g.segl then
    match s.closed.head? with
    | none => .error .nullDeref
    | some sg2 => if sg2.offset < g.spc + g.segl then .error .exit else placeSeg g s g.spc
  else placeSeg g s s.freeOffset

/-- The list after the loop of `smp_save_segs`, while no segment is current. -/
def dropFront (sgs : List SmpSeg) : List SmpSeg := sgs.dropWhile fun sg => sg.nobj = 0

/-- The segment with its table of objects and its tail, which `smp_close_seg` writes. -/
def SmpSeg.shut (sg : SmpSeg) (objreserv : ℕ) : SmpSeg :=
  let objlist := sg.nextAddr / 8 * 8 + 8 + segSpace
  let next := objlist + cAlign objreserv + segSpace
  { sg with objlist := objlist, pnalloc := sg.nalloc1, nextAddr := next, length := next - sg.offset }

/-- `smp_close_seg` of the current segment.  One that was not used goes, and `free_offset` stays.  `smp_save_segs` may free
the segment before its end is read. -/
def smpCloseSeg (s : Space) : Except Stop Space :=
  match s.cur with
  | none => .error .nullDeref
  | some sg =>
    if sg.offset = 0 then .error .assertion
    else if sg.nalloc = 0 then .ok { s with cur := none }
    else if sg.nalloc1 * smpObjectSize ≠ s.objreserv then .error .assertion
    else do
      let left ← smpSpaceleft sg
      if left < cAlign s.objreserv + 2 * segSpace then .error .assertion
      else
        let sg := sg.shut s.objreserv
        let sgs := dropFront (s.closed ++ [sg])
        if sgs.all fun sg => sg.offset < g.mediasize ∧ sg.segend ≤ g.mediasize then
          .ok { s with closed := sgs, cur := none, freeOffset := sg.segend }
        else .error .assertion

/-- An object is designated in its segment. -/
def SmpSeg.fix (id : ℕ) (sg : SmpSeg) : SmpSeg :=
  if sg.id = id then { sg with nalloc2 := sg.nalloc2 + 1, nfixed := sg.nfixed + 1, nobj := sg.nobj + 1 } else sg

/-- The bite `i` is the object `n` of its segment. -/
def Space.fixAt (s : Space) (i : ℕ) (b : Bite) (n : ℕ) : Space :=
  { s with closed := s.closed.map (SmpSeg.fix b.seg), cur := s.cur.map (SmpSeg.fix b.seg)
           bites := s.bites.set i { b with index := some n } }

/-- `smp_object` of the object in the bite `i`. -/
def smpObject (s : Space) (i : ℕ) : Except Stop Space :=
  match s.bites[i]? with
  | none => .error .nullDeref
  | some b =>
    match s.segments.find? fun sg => sg.id = b.seg with
    | none => .error .assertion
    | some sg =>
      if sg.nalloc2 < sg.nalloc1 then .ok (s.fixAt i b sg.nalloc2) else .error .assertion

end Segments

/-! ## Allocations -/

section Alloc

/-- The space that an allocation needs besides its `size`, with the object table and the tail of the segment. -/
def overhead (s : Space) (oc : Bool) : ℕ :=
  cAlign storageSize + segSpace * 2 + if oc then cAlign (smpObjectSize + s.objreserv) else cAlign s.objreserv

/-- The size that is granted, and what it needs: other things than objects can be cut to what is left. -/
def trimmed (s : Space) (oc : Bool) (left size : ℕ) : ℕ × ℕ :=
  let needed := (overhead s oc + size) % 2 ^ 64
  if !oc ∧ left < needed ∧ overhead s oc + 4096 < left then ((left - overhead s oc) / 16 * 16, left) else (size, needed)

variable (g : Media)

/-- The condition for which the loop of `smp_alloc` ends. -/
def Fits (sg : SmpSeg) (oc : Bool) (left needed : ℕ) : Prop := needed ≤ left ∧ (oc = false ∨ sg.nalloc1 < g.aimNobj)

instance (sg : SmpSeg) (oc : Bool) (left needed : ℕ) : Decidable (Fits g sg oc left needed) :=
  inferInstanceAs (Decidable (_ ∧ _))

/-- The loop of `smp_alloc`, where `tries` are left after this one.  The result has the segment of the last try, which may be
closed by then, with the size and what it needs. -/
def allocTries (oc : Bool) : (tries : ℕ) → Space → (size : ℕ) → Except Stop (Space × SmpSeg × ℕ × ℕ)
  | tries, s, size =>
    match s.cur with
    | none => .error .assertion
    | some sg => do
      let left ← smpSpaceleft sg
      let (size, needed) := trimmed s oc left size
      if Fits g sg oc left needed then .ok (s, sg, size, needed)
      else
        let s ← smpCloseSeg g s
        let s ← smpNewSeg g s
        match tries with
        | 0 => .ok (s, sg, size, needed)
        | tries + 1 => allocTries oc tries s size

/-- The reservation in the object table, when the allocation was made. -/
def objreservWith (s : Space) (oc : Bool) : ℕ := if oc then s.objreserv + smpObjectSize else s.objreserv

/-- A bite of `size` bytes is taken from the current segment. -/
def SmpSeg.bitten (sg : SmpSeg) (oc : Bool) (size : ℕ) : SmpSeg :=
  { sg with nextAddr := sg.nextAddr + cAlign storageSize + size, nalloc := (sg.nalloc + 1) % 2 ^ 32
            nalloc1 := if oc then sg.nalloc1 + 1 else sg.nalloc1 }

def Space.bitten (s : Space) (sg : SmpSeg) (oc : Bool) (size : ℕ) : Space :=
  { s with cur := some (sg.bitten oc size), objreserv := objreservWith s oc
           bites := s.bites ++ [⟨sg.id, sg.nextAddr, size, oc, none⟩] }

/-- The last part of `smp_alloc`, for the segment `sg`.  The space of a `struct storage` has 32 bits. -/
def grab (oc : Bool) (s : Space) (sg : SmpSeg) (size : ℕ) : Except Stop Space :=
  if oc ∧ g.aimNobj ≤ sg.nalloc1 then .error .assertion
  else do
    let left ← smpSpaceleft (sg.bitten oc size)
    if oc ∧ left < objreservWith s oc then .error .assertion
    else if 2 ^ 32 ≤ size ∨ g.mediasize < sg.nextAddr + cAlign storageSize + size then .error .assertion
    else .ok (s.bitten sg oc size)

/-- `smp_alloc`; no storage is returned when `bites` stays as it is. -/
def smpAlloc (s : Space) (size : ℕ) (oc : Bool) : Except Stop Space := do
  let (s, sg, size, needed) ← allocTries g oc 2 s (cAlign size)
  if size ≠ cAlign size then .error .assertion
  else
    let left ← smpSpaceleft sg
    if left < needed then .ok s else grab g oc s sg size

end Alloc

/-! ## Runs -/

section Runs

inductive SpaceOp where
  | newSeg
  | closeSeg
  | object (i : ℕ)
  | alloc (size : ℕ) (oc : Bool)
deriving DecidableEq

variable (g : Media)

def spaceStep (s : Space) : SpaceOp → Except Stop Space
  | .newSeg => smpNewSeg g s
  | .closeSeg => smpCloseSeg g s
  | .object i => smpObject s i
  | .alloc size oc => smpAlloc g s size oc

/-- The operations that are called: a segment is opened when there is none, and closed or used when there is one; an object
is designated once. -/
def SpaceOp.Called (s : Space) : SpaceOp → Prop
  | .newSeg => s.cur = none
  | .closeSeg => s.cur.isSome
  | .object i => ∃ b ∈ s.bites[i]?, b.oc ∧ b.index = none
  | .alloc _ _ => s.cur.isSome

/-- The space of a silo is in order. -/
structure SpaceOk (s : Space) : Prop where
  apart : s.segments.Pairwise fun a b => a.segend ≤ b.offset ∨ b.segend ≤ a.offset
  inside : ∀ sg ∈ s.segments, g.spc ≤ sg.offset ∧ sg.segend ≤ g.mediasize
  bites : s.bites.Pairwise fun a b => a.stop ≤ b.start ∨ b.stop ≤ a.start
  own : ∀ b ∈ s.bites, ∃ sg ∈ s.segments, sg.id = b.seg ∧ sg.offset ≤ b.start ∧ b.stop ≤ sg.segend
  room : ∀ sg ∈ s.cur, (sg.shut s.objreserv).segend ≤ sg.segend
  resv : ∀ sg ∈ s.segments, sg.segend ≤ sg.resv

end Runs

end Varnish.Silo
