import Mathlib.Logic.Function.Basic
import Mathlib.Data.List.Basic
import Varnish.Lib.BitPrefix

/-!
# Varnish.Hcb.Model — the crit-bit tree of `hash_critbit.c`

The tree is modelled in memory: link words with their tag bits, one `struct hcb_y` embedded in each objhead, the
digests, and the root.  A failed assertion (and a loop that does not end) is `none`.

An objhead is named by its address, a pointer whose two low bits are clear; the Y embedded in it (`&oh->u`) is named
by the objhead.
-/

namespace Varnish.Hcb

open Varnish.Lib

/-! ## Tagged pointers -/

/-- A pointer that the tag bits can be added to. -/
structure Ptr where
  addr : BitVec 64
  aligned : addr &&& 3#64 = 0#64
deriving DecidableEq

/-- `uintptr_t`: a link word. -/
abbrev Word := BitVec 64

def hcbBitNode : Word := 1#64

def hcbBitY : Word := 2#64

def hcbIsNode (u : Word) : Bool := u &&& hcbBitNode != 0#64

def hcbIsY (u : Word) : Bool := u &&& hcbBitY != 0#64

def hcbRNode (n : Ptr) : Word := hcbBitNode ||| n.addr

def hcbRY (y : Ptr) : Word := hcbBitY ||| y.addr

/-- Clear a tag bit; the other one must be clear as well for the result to be a pointer. -/
def untag (u bit : Word) : Option Ptr :=
  if h : (u &&& ~~~bit) &&& 3#64 = 0#64 then some ⟨u &&& ~~~bit, h⟩ else none

/-- `hcb_l_node`, with its two assertions. -/
def hcbLNode (u : Word) : Option Ptr := if hcbIsNode u && !hcbIsY u then untag u hcbBitNode else none

/-- `hcb_l_y`, with its two assertions. -/
def hcbLY (u : Word) : Option Ptr := if !hcbIsNode u && hcbIsY u then untag u hcbBitY else none

/-! ## Digests -/

def digestLen : ℕ := 32

/-- `unsigned char digest[DIGEST_LEN]`. -/
structure Digest where
  bytes : List UInt8
  len : bytes.length = digestLen
deriving DecidableEq

def Digest.byte (d : Digest) (i : ℕ) : UInt8 := d.bytes.getD i 0

/-- The bits of a digest. -/
def Digest.bits (d : Digest) : ℕ → Bool := bitOf d.byte

/-- `hcb_build_bittbl`: for `x` from 0 to 7 the entries below `1 << x` that are not yet filled become `8 - x`; the
upper half of the static array stays 0. -/
def hcbBittbl : List ℕ :=
  (List.range 8).flatMap (fun x => List.replicate (2 ^ x - if x = 0 then 0 else 2 ^ (x - 1)) (8 - x)) ++
    List.replicate 128 0

def hcbBits (x y : UInt8) : ℕ := hcbBittbl.getD (x ^^^ y).toNat 0

-- the sanity asserts of `hcb_build_bittbl`
example : hcbBits 0x34 0x34 = 8 ∧ hcbBits 0xaa 0x55 = 0 ∧ hcbBits 0x01 0x22 = 2 ∧ hcbBits 0x10 0x0b = 3 := by decide

/-! ## Memory -/

/-- `struct hcb_y`. -/
structure HcbY where
  critbit : ℕ
  ptr : ℕ
  bitmask : UInt8
  leaf0 : Word
  leaf1 : Word
deriving DecidableEq

def HcbY.zero : HcbY := ⟨0, 0, 0, 0, 0⟩

/-- `y->leaf[s]`. -/
def HcbY.leaf (y : HcbY) (s : Bool) : Word := if s then y.leaf1 else y.leaf0

def HcbY.setLeaf (y : HcbY) (s : Bool) (w : Word) : HcbY := if s then { y with leaf1 := w } else { y with leaf0 := w }

/-- The root, the Y embedded in each objhead, and the digests. -/
structure Mem where
  origo : Word
  cmps : UInt32
  y : Ptr → HcbY
  digest : Ptr → Digest

/-- `memset(&hcb_root, 0, sizeof hcb_root)` on fresh memory. -/
def Mem.start (digest : Ptr → Digest) : Mem := { origo := 0, cmps := 0, y := fun _ => HcbY.zero, digest := digest }

/-- Where a link word stands: `&root->origo` or `&y->leaf[s]`. -/
inductive Loc where
  | origo
  | leaf (y : Ptr) (s : Bool)
deriving DecidableEq

def Mem.read (m : Mem) : Loc → Word
  | .origo => m.origo
  | .leaf y s => (m.y y).leaf s

def Mem.setY (m : Mem) (y : Ptr) (v : HcbY) : Mem := { m with y := Function.update m.y y v }

def Mem.write (m : Mem) (p : Loc) (w : Word) : Mem :=
  match p with
  | .origo => { m with origo := w }
  | .leaf y s => m.setY y ((m.y y).setLeaf s w)

/-- `root->cmps++`, `n` times. -/
def Mem.addCmps (m : Mem) (n : ℕ) : Mem := { m with cmps := m.cmps + UInt32.ofNat n }

/-- `s = (oh->digest[y->ptr] & y->bitmask) != 0`. -/
def side (d : Digest) (y : HcbY) : Bool := d.byte y.ptr &&& y.bitmask != 0

/-! ## The operations -/

/-- The loop of `hcb_crit_bit` with `k` bytes to go. -/
def diffByte (d1 d2 : Digest) : (k u : ℕ) → ℕ
  | 0, u => u
  | k + 1, u => if d1.byte u = d2.byte u then diffByte d1 d2 k (u + 1) else u

/-- `hcb_crit_bit`: fills in `ptr`, `bitmask` and `critbit` of `y`. -/
def hcbCritBit (d1 d2 : Digest) (y : HcbY) : Option HcbY :=
  let u := diffByte d1 d2 digestLen 0
  if u < digestLen then
    let r := hcbBits (d1.byte u) (d2.byte u)
    some { y with ptr := u, bitmask := 0x80 >>> UInt8.ofNat r, critbit := u * 8 + r }
  else none

/-- The first loop of `hcb_insert`: from `p` down to a word that is no Y.  Gives that word, where it stands and the
number of steps. -/
def hcbDescend (m : Mem) (d : Digest) : (fuel : ℕ) → Loc → Option (Loc × Word × ℕ)
  | 0, _ => none
  | fuel + 1, p =>
    let pp := m.read p
    if hcbIsY pp then do
      let y ← hcbLY pp
      if (m.y y).ptr < digestLen then
        let (q, w, n) ← hcbDescend m d fuel (.leaf y (side d (m.y y)))
        some (q, w, n + 1)
      else none
    else some (p, pp, 0)

/-- The second loop of `hcb_insert`: from `p` down to the place for a node with the critical bit `c`. -/
def hcbPlace (m : Mem) (d : Digest) (c : ℕ) : (fuel : ℕ) → Loc → Option (Loc × ℕ)
  | 0, _ => none
  | fuel + 1, p =>
    if hcbIsY (m.read p) then do
      let y ← hcbLY (m.read p)
      if c < (m.y y).critbit then some (p, 0)
      else if (m.y y).ptr < digestLen then
        let (q, n) ← hcbPlace m d c fuel (.leaf y (side d (m.y y)))
        some (q, n + 1)
      else none
    else some (p, 0)

/-- More than the length of any path in the tree. -/
def hcbFuel : ℕ := 8 * digestLen + 1

/-- `y2->leaf[s2] = *p; *p = hcb_r_y(y2)`, `y2` being the Y of `oh`. -/
def hcbLink (m : Mem) (oh : Ptr) (s2 : Bool) (p : Loc) : Mem := (m.write (.leaf oh s2) (m.read p)).write p (hcbRY oh)

/-- `hcb_insert`: the returned objhead (`none` for `NULL`) and the memory afterwards. -/
def hcbInsert (m : Mem) (oh : Ptr) (hasLock : Bool) : Option (Option Ptr × Mem) :=
  if m.origo = 0 then
    if hasLock then some (some oh, m.write .origo (hcbRNode oh)) else some (none, m)
  else do
    let (_, pp, n) ← hcbDescend m (m.digest oh) hcbFuel .origo
    let m := m.addCmps n
    if hcbIsNode pp then
      let oh2 ← hcbLNode pp
      if m.digest oh2 = m.digest oh then some (some oh2, m)
      else if !hasLock then some (none, m)
      else do
        -- Insert
        let y2 ← hcbCritBit (m.digest oh) (m.digest oh2) HcbY.zero
        let s2 := side (m.digest oh) y2
        let m := m.setY oh (y2.setLeaf s2 (hcbRNode oh))
        if m.origo = 0 then none
        else do
          let (p, n) ← hcbPlace m (m.digest oh) y2.critbit hcbFuel .origo
          some (some oh, hcbLink (m.addCmps n) oh (!s2) p)
    else none

/-- `*p = y->leaf[1 - s]; y->leaf[0] = 0; y->leaf[1] = 0`. -/
def hcbUnlink (m : Mem) (p : Loc) (y : Ptr) (s : Bool) : Mem :=
  ((m.write p ((m.y y).leaf !s)).write (.leaf y false) 0).write (.leaf y true) 0

/-- The loop of `hcb_delete`. -/
def hcbDeleteLoop (m : Mem) (oh : Ptr) : (fuel : ℕ) → Loc → Option Mem
  | 0, _ => none
  | fuel + 1, p =>
    if hcbIsY (m.read p) then do
      let y ← hcbLY (m.read p)
      if (m.y y).ptr < digestLen then
        let s := side (m.digest oh) (m.y y)
        if (m.y y).leaf s = hcbRNode oh then some (hcbUnlink m p y s)
        else hcbDeleteLoop (m.addCmps 1) oh fuel (.leaf y s)
      else none
    else none

/-- `hcb_delete`. -/
def hcbDelete (m : Mem) (oh : Ptr) : Option Mem :=
  if m.origo = hcbRNode oh then some (m.write .origo 0)
  else if hcbIsY m.origo then hcbDeleteLoop m oh hcbFuel .origo
  else none

end Varnish.Hcb
