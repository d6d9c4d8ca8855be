import Mathlib.Data.UInt
import Varnish.Lib.Absorb

/-!
# Varnish.Sha.Model — SHA256 (vsha256.c)

* `sha256Transform`: the compression of one block, as `SHA256_Transform` computes it: `W` filled in place,
  the eight working variables `S` never moved but addressed through a rotating index.
* `Context` with `sha256Init`, `sha256Update`, `sha256Pad`, `sha256Final`: the streaming interface.

The words of `W` that `be32dec_vect` leaves uninitialised are `0` here.
-/

namespace Varnish.Sha

/-! ## Bytes and words -/

section Words

def mybe32enc (u : UInt32) : List UInt8 :=
  [((u >>> 24) &&& 0xff).toUInt8, ((u >>> 16) &&& 0xff).toUInt8, ((u >>> 8) &&& 0xff).toUInt8, (u &&& 0xff).toUInt8]

def mybe64enc (u : UInt64) : List UInt8 := mybe32enc (u >>> 32).toUInt32 ++ mybe32enc (u &&& 0xffffffff).toUInt32

def mybe32dec (p : List UInt8) : UInt32 :=
  ((p.getD 0 0).toUInt32 <<< 24) ||| ((p.getD 1 0).toUInt32 <<< 16) ||| ((p.getD 2 0).toUInt32 <<< 8) |||
    (p.getD 3 0).toUInt32

/-- `be32enc_vect` of the whole vector. -/
def be32encVect (src : Vector UInt32 8) : List UInt8 := src.toList.flatMap mybe32enc

/-- `be32dec_vect` of 64 bytes into the first 16 words. -/
def be32decVect (src : List UInt8) : Vector UInt32 64 :=
  Vector.ofFn fun i => if i.val < 16 then mybe32dec (src.drop (i.val * 4)) else 0

end Words

/-! ## The compression function -/

section Transform

def Ch (x y z : UInt32) : UInt32 := (x &&& (y ^^^ z)) ^^^ z

def Maj (x y z : UInt32) : UInt32 := (x &&& (y ||| z)) ||| (y &&& z)

def ROTR (x n : UInt32) : UInt32 := (x >>> n) ||| (x <<< (32 - n))

def S0 (x : UInt32) : UInt32 := ROTR x 2 ^^^ ROTR x 13 ^^^ ROTR x 22

def S1 (x : UInt32) : UInt32 := ROTR x 6 ^^^ ROTR x 11 ^^^ ROTR x 25

def s0 (x : UInt32) : UInt32 := ROTR x 7 ^^^ ROTR x 18 ^^^ (x >>> 3)

def s1 (x : UInt32) : UInt32 := ROTR x 17 ^^^ ROTR x 19 ^^^ (x >>> 10)

/-- The constants of the 64 rounds. -/
def K : Vector UInt32 64 := #v[
  0x428a2f98, 0x71374491, 0xb5c0fbcf, 0xe9b5dba5, 0x3956c25b, 0x59f111f1, 0x923f82a4, 0xab1c5ed5,
  0xd807aa98, 0x12835b01, 0x243185be, 0x550c7dc3, 0x72be5d74, 0x80deb1fe, 0x9bdc06a7, 0xc19bf174,
  0xe49b69c1, 0xefbe4786, 0x0fc19dc6, 0x240ca1cc, 0x2de92c6f, 0x4a7484aa, 0x5cb0a9dc, 0x76f988da,
  0x983e5152, 0xa831c66d, 0xb00327c8, 0xbf597fc7, 0xc6e00bf3, 0xd5a79147, 0x06ca6351, 0x14292967,
  0x27b70a85, 0x2e1b2138, 0x4d2c6dfc, 0x53380d13, 0x650a7354, 0x766a0abb, 0x81c2c92e, 0x92722c85,
  0xa2bfe8a1, 0xa81a664b, 0xc24b8b70, 0xc76c51a3, 0xd192e819, 0xd6990624, 0xf40e3585, 0x106aa070,
  0x19a4c116, 0x1e376c08, 0x2748774c, 0x34b0bcb5, 0x391c0cb3, 0x4ed8aa4a, 0x5b9cca4f, 0x682e6ff3,
  0x748f82ee, 0x78a5636f, 0x84c87814, 0x8cc70208, 0x90befffa, 0xa4506ceb, 0xbef9a3f7, 0xc67178f2]

/-- `RNDr`: the variable that the round calls `a` is the one at `(64 - i) % 8`, and so on up to `h`. -/
def RNDr (S : Vector UInt32 8) (i : ℕ) (k : UInt32) : Vector UInt32 8 :=
  let t0 := S[(71 - i) % 8] + S1 S[(68 - i) % 8] + Ch S[(68 - i) % 8] S[(69 - i) % 8] S[(70 - i) % 8] + k
  let t1 := S0 S[(64 - i) % 8] + Maj S[(64 - i) % 8] S[(65 - i) % 8] S[(66 - i) % 8]
  let S := S.set ((67 - i) % 8) (S[(67 - i) % 8] + t0)
  S.set ((71 - i) % 8) (t0 + t1)

/-- The next word of the message schedule. -/
def fillW (W : Vector UInt32 64) (i : Fin 48) : Vector UInt32 64 :=
  W.set (i.val + 16) (s1 W[i.val + 14] + W[i.val + 9] + s0 W[i.val + 1] + W[i.val])

def sha256Transform (state : Vector UInt32 8) (block : List UInt8) : Vector UInt32 8 :=
  let W := (List.finRange 48).foldl fillW (be32decVect block)
  let S := (List.finRange 64).foldl (fun S i => RNDr S i.val (W[i.val] + K[i.val])) state
  state.zipWith (· + ·) S

end Transform

/-! ## The streaming interface -/

section Stream

/-- `SHA256_CTX`. -/
structure Context where
  state : Vector UInt32 8
  count : UInt64
  buf : Vector UInt8 64

/-- The buffer keeps what was in it. -/
def sha256Init (buf : Vector UInt8 64) : Context where
  count := 0
  state := #v[0x6A09E667, 0xBB67AE85, 0x3C6EF372, 0xA54FF53A, 0x510E527F, 0x9B05688C, 0x1F83D9AB, 0x5BE0CD19]
  buf := buf

/-- `memcpy(&buf[r], src, l)` for a `src` of `l` bytes. -/
def putAt (buf : Vector UInt8 64) (r : ℕ) (src : List UInt8) : Vector UInt8 64 :=
  Vector.ofFn fun i => if r ≤ i.val ∧ i.val < r + src.length then src.getD (i.val - r) 0 else buf[i]

/-- One turn of the loop of `SHA256_Update`, with the `l` bytes that it copies. -/
def updateTurn (ctx : Context) (r : ℕ) (src : List UInt8) : Context :=
  let buf := putAt ctx.buf r src
  let count := ctx.count + UInt64.ofNat src.length
  { state := if count &&& 0x3f = 0 then sha256Transform ctx.state buf.toList else ctx.state, count, buf }

/-- The loop of `SHA256_Update`: `r` is `count & 0x3f`, below 64. -/
def updateLoop (ctx : Context) (r : Fin 64) (src : List UInt8) : Context :=
  if h : src = [] then ctx
  else
    let l := if 64 - r.val > src.length then src.length else 64 - r.val
    let ctx := updateTurn ctx r.val (src.take l)
    updateLoop ctx (Fin.ofNat 64 (ctx.count &&& 0x3f).toNat) (src.drop l)
termination_by src.length
decreasing_by
  have := List.length_pos_of_ne_nil h
  rw [List.length_drop]
  split <;> omega

def sha256Update (ctx : Context) (src : List UInt8) : Context :=
  updateLoop ctx (Fin.ofNat 64 (ctx.count &&& 0x3f).toNat) src

def PAD : List UInt8 := 0x80 :: List.replicate 63 0

def sha256Pad (ctx : Context) : Context :=
  let len := mybe64enc (ctx.count <<< 3)
  let r := (ctx.count &&& 0x3f).toNat
  let plen := if r < 56 then 56 - r else 120 - r
  sha256Update (sha256Update ctx (PAD.take plen)) len

/-- The digest of `SHA256_Final`. -/
def sha256Final (ctx : Context) : List UInt8 := be32encVect (sha256Pad ctx).state

end Stream

end Varnish.Sha
