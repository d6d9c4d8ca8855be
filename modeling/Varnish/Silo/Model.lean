import Mathlib.Data.List.TakeWhile
import Varnish.Lib.Bytes

/-!
# Varnish.Silo.Model — signed tables in a persistent silo (`storage_persistent.c`)

The silo is a memory; what the code does to it is a list of writes, so that the program can be stopped after any number
of them.  A failed `XXXAZ` stops it as well.  The hash function `sha` is a parameter, and the state of a hash that is
being computed is the byte string that went into it.

* `smpChkSign`, `smpAppendSign`, `smpResetSign`: the signatures.
* `smpSaveSeg`, `smpSaveSegs`, `smpAppendban`, `smpNewBan`: the two copies of each table are written.
* `smpOpenBans`, `smpOpenSegs`: what is read from a copy.
-/

namespace Varnish.Silo

open Varnish.Lib

/-! ## Signatures -/

section Sign

/-- `struct smp_signctx`: `ss` is the offset of the `smp_sign` in the silo and `addr` its address. -/
structure Signctx where
  ss : ℕ
  addr : ℕ
  unique : ℕ
  id : List UInt8
  ctx : List UInt8

/-- `sizeof(struct smp_sign)` and the offset of its `length`, and the length of a digest. -/
def signSize : ℕ := 32

def lengthOff : ℕ := 24

def shaLen : ℕ := 32

/-- `struct smp_sign` up to the `length`: `ident`, `unique`, four bytes that `memset` clears, and `mapped`. -/
def Signctx.header (c : Signctx) : List UInt8 :=
  c.id ++ List.replicate (8 - c.id.length) 0 ++ le 4 c.unique ++ [0, 0, 0, 0] ++ le 8 c.addr

/-- `ctx->ss->length`. -/
def readLength (m : Mem) (c : Signctx) : ℕ := ofLe (rd m (c.ss + lengthOff) 8)

/-- `SIGN_DATA(ctx)`. -/
def signData (c : Signctx) : ℕ := c.ss + signSize

/-- `SIGN_END(ctx)`. -/
def signEnd (m : Mem) (c : Signctx) : ℕ := signData c + readLength m c

/-- The bytes that are signed. -/
def signedData (m : Mem) (c : Signctx) : List UInt8 := rd m (signData c) (readLength m c)

variable (sha : List UInt8 → List UInt8)

/-- `smp_chk_sign`. -/
def smpChkSign (m : Mem) (c : Signctx) : ℕ :=
  if rd m c.ss (c.id.length + 1) ≠ c.id ++ [0] then 1
  else if ofLe (rd m (c.ss + 8) 4) ≠ c.unique then 2
  else if ofLe (rd m (c.ss + 16) 8) ≠ c.addr then 3
  else if sha (rd m c.ss lengthOff ++ signedData m c ++ rd m (c.ss + lengthOff) 8) ≠ rd m (signEnd m c) shaLen then 4
  else 0

/-- `smp_append_sign` of the `len` bytes at `ptr`.  `smp_chk_sign` leaves a hash of what is signed now. -/
def smpAppendSign (m : Mem) (c : Signctx) (ptr len : ℕ) : List Write × Option Signctx :=
  let ctx := if len ≠ 0 then c.ctx ++ rd m ptr len else c.ctx
  let ws := if len ≠ 0 then [⟨c.ss + lengthOff, le 8 (readLength m c + len)⟩] else []
  let m := applyAll m ws
  let w : Write := ⟨signEnd m c, sha (ctx ++ rd m (c.ss + lengthOff) 8)⟩
  let m := applyAll m [w]
  (ws ++ [w], if smpChkSign sha m c = 0 then some { c with ctx := rd m c.ss lengthOff ++ signedData m c } else none)

/-- `smp_reset_sign`. -/
def smpResetSign (m : Mem) (c : Signctx) : List Write × Option Signctx :=
  let w : Write := ⟨c.ss, c.header ++ le 8 0⟩
  let m := applyAll m [w]
  let (ws, r) := smpAppendSign sha m { c with ctx := rd m c.ss lengthOff } 0 0
  (w :: ws, r)

end Sign

/-! ## Segments -/

section Segs

/-- `struct smp_segptr`, with the four bytes that fill it up. -/
structure Segptr where
  offset : UInt64
  length : UInt64
  objlist : UInt64
  nalloc : UInt32
  pad : UInt32
deriving DecidableEq

def segptrSize : ℕ := 32

def Segptr.bytes (p : Segptr) : List UInt8 :=
  le 8 p.offset.toNat ++ le 8 p.length.toNat ++ le 8 p.objlist.toNat ++ le 4 p.nalloc.toNat ++ le 4 p.pad.toNat

/-- The `struct smp_segptr` at `off`. -/
def readSegptr (m : Mem) (off : ℕ) : Segptr where
  offset := UInt64.ofNat (ofLe (rd m off 8))
  length := UInt64.ofNat (ofLe (rd m (off + 8) 8))
  objlist := UInt64.ofNat (ofLe (rd m (off + 16) 8))
  nalloc := UInt32.ofNat (ofLe (rd m (off + 24) 4))
  pad := UInt32.ofNat (ofLe (rd m (off + 28) 4))

/-- What is read of `struct smp_seg`; `cur` if it is `cur_seg`. -/
structure Seg where
  p : Segptr
  nobj : ℕ
  cur : Bool

/-- The loop of `smp_save_segs`: empty segments at the front go, but not the current one. -/
def dropEmpty : List Seg → List Seg
  | [] => []
  | sg :: sgs => if 0 < sg.nobj then sg :: sgs else if sg.cur then sg :: dropEmpty sgs else dropEmpty sgs

/-- The loop of `smp_save_seg`: the pointers are stored one after the other. -/
def segWrites : (ptr : ℕ) → List Segptr → List Write
  | _, [] => []
  | ptr, p :: ps => ⟨ptr, p.bytes⟩ :: segWrites (ptr + segptrSize) ps

variable (sha : List UInt8 → List UInt8)

/-- `smp_save_seg`; the length is passed as a `uint32_t`. -/
def smpSaveSeg (m : Mem) (c : Signctx) (ps : List Segptr) : List Write × Option Signctx :=
  match smpResetSign sha m c with
  | (ws, none) => (ws, none)
  | (ws, some c) =>
    let ws := ws ++ segWrites (signData c) ps
    let (ws', r) := smpAppendSign sha (applyAll m ws) c (signData c) (segptrSize * ps.length % 2 ^ 32)
    (ws ++ ws', r)

/-- `smp_open_segs`, up to the table that it reads. -/
def smpOpenSegs (m : Mem) (c : Signctx) : ℕ × List Segptr :=
  let r := smpChkSign sha m c
  if r ≠ 0 then (r, [])
  else (0, (List.range (readLength m c / segptrSize)).map fun i => readSegptr m (signData c + segptrSize * i))

end Segs

/-! ## Bans -/

section Bans

/-- A ban: the eight bytes of the time, and the text, which ends before its first zero byte. -/
structure Ban where
  t0 : UInt64
  text : List UInt8
  noNul : ∀ b ∈ text, b ≠ 0
deriving DecidableEq

/-- `"BAN"` with the zero byte. -/
def banMark : List UInt8 := [66, 65, 78, 0]

variable (sha : List UInt8 → List UInt8)

/-- `smp_appendban`. -/
def smpAppendban (m : Mem) (c : Signctx) (t0 : UInt64) (flags len : ℕ) (ban : List UInt8) : List Write × Option Signctx :=
  let ptr := signEnd m c
  let ws : List Write := [⟨ptr, banMark⟩, ⟨ptr + 4, le 8 t0.toNat⟩, ⟨ptr + 12, le 4 flags⟩, ⟨ptr + 16, le 4 len⟩,
    ⟨ptr + 20, ban.take len⟩]
  let (ws', r) := smpAppendSign sha (applyAll m ws) c ptr ((20 + len) % 2 ^ 32)
  (ws ++ ws', r)

/-- The loop of `smp_open_bans`: the error, and the bans that are reloaded. -/
def openBansLoop : (fuel : ℕ) → Mem → (ptr pe : ℕ) → ℕ × List Ban
  | 0, _, _, _ => (0, [])
  | fuel + 1, m, ptr, pe =>
    if ptr < pe then
      if rd m ptr 4 ≠ banMark then (1001, [])
      else if ofLe (rd m (ptr + 12) 4) ≠ 0 then (1002, [])
      else
        let length := ofLe (rd m (ptr + 16) 4)
        if ptr + 20 + length > pe then (1003, [])
        else if m (ptr + 20 + length - 1) ≠ 0 then (1004, [])
        else
          let ban : Ban :=
            { t0 := UInt64.ofNat (ofLe (rd m (ptr + 4) 8)), text := (rd m (ptr + 20) length).takeWhile (· ≠ 0),
              noNul := fun _ hb => by simpa using List.mem_takeWhile_imp hb }
          let (r, bans) := openBansLoop fuel m (ptr + 20 + length) pe
          (r, ban :: bans)
    else (0, [])

/-- `smp_open_bans`. -/
def smpOpenBans (m : Mem) (c : Signctx) : ℕ × List Ban :=
  let r := smpChkSign sha m c
  if r ≠ 0 then (r, []) else openBansLoop (readLength m c) m (signData c) (signData c + readLength m c)

end Bans

/-! ## The silo -/

section Silo

/-- Where the silo is mapped, and the page size: the tables start after the first page and have a megabyte each. -/
structure Geom where
  base : ℕ
  granularity : ℕ
  unique : UInt32
  addr : base + granularity + 4 * 2 ^ 20 < 2 ^ 64

def areaSize : ℕ := 2 ^ 20

/-- `smp_def_sign` for the four tables. -/
def Geom.defSign (g : Geom) (i : ℕ) (id : List UInt8) : Signctx :=
  ⟨g.granularity + areaSize * i, g.base + (g.granularity + areaSize * i), g.unique.toNat, id, []⟩

def Geom.ban1 (g : Geom) : Signctx := g.defSign 0 [66, 65, 78, 32, 49]

def Geom.ban2 (g : Geom) : Signctx := g.defSign 1 [66, 65, 78, 32, 50]

def Geom.seg1 (g : Geom) : Signctx := g.defSign 2 [83, 69, 71, 32, 49]

def Geom.seg2 (g : Geom) : Signctx := g.defSign 3 [83, 69, 71, 32, 50]

variable (sha : List UInt8 → List UInt8)

/-- Two functions that write, one after the other. -/
def andThen (m : Mem) (f g : Mem → List Write × Option Signctx) : List Write × Option (Signctx × Signctx) :=
  match f m with
  | (ws, none) => (ws, none)
  | (ws, some c) =>
    match g (applyAll m ws) with
    | (ws', none) => (ws ++ ws', none)
    | (ws', some c') => (ws ++ ws', some (c, c'))

/-- `smp_save_segs`, for the segments that are left. -/
def smpSaveSegs (m : Mem) (seg1 seg2 : Signctx) (sgs : List Seg) : List Write × Option (Signctx × Signctx) :=
  let ps := (dropEmpty sgs).map Seg.p
  andThen m (fun m => smpSaveSeg sha m seg1 ps) fun m => smpSaveSeg sha m seg2 ps

/-- `SMP_NewBan`, for one silo. -/
def smpNewBan (m : Mem) (ban1 ban2 : Signctx) (ban : Ban) : List Write × Option (Signctx × Signctx) :=
  let l := (ban.text.length + 1) % 2 ^ 32
  andThen m (fun m => smpAppendban sha m ban1 ban.t0 0 l (ban.text ++ [0]))
    fun m => smpAppendban sha m ban2 ban.t0 0 l (ban.text ++ [0])

/-- `smp_open`: the first copy of each table, or else the second one. -/
def smpOpenFirst {α : Type} (copy1 copy2 : ℕ × List α) : Option (List α) :=
  if copy1.1 = 0 then some copy1.2 else if copy2.1 = 0 then some (copy1.2 ++ copy2.2) else none

end Silo

end Varnish.Silo
