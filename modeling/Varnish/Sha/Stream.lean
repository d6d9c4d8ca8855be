import Mathlib.Data.List.GetD
import Mathlib.Tactic.IntervalCases
import Varnish.Sha.Model

/-!
# Varnish.Sha.Stream — the digest does not depend on how the input is cut

`Fips.sha256` is the standard's hash of a whole message: pad, cut into blocks, compress one after another, with the
standard's own `ch`, `maj`, message schedule and step of the working variables.

* `view_RNDr`, `transform_eq`: the rotating index of `RNDr` is the step that moves the eight variables along.
* `Holds`: what a context knows of the message so far.  `Holds.turn`, `Holds.update`: `SHA256_Update` keeps it.
* `final_eq`: over any cut of a message the streaming interface gives the standard's digest.
-/

namespace Varnish.Sha

open Varnish.Lib

/-! ## The standard -/

namespace Fips

def ch (x y z : UInt32) : UInt32 := (x &&& y) ^^^ (~~~x &&& z)

def maj (x y z : UInt32) : UInt32 := (x &&& y) ^^^ (x &&& z) ^^^ (y &&& z)

/-- The working variables. -/
structure Work where
  a : UInt32
  b : UInt32
  c : UInt32
  d : UInt32
  e : UInt32
  f : UInt32
  g : UInt32
  h : UInt32

def step (w : Work) (k wt : UInt32) : Work :=
  let t1 := w.h + S1 w.e + ch w.e w.f w.g + k + wt
  let t2 := S0 w.a + maj w.a w.b w.c
  ⟨t1 + t2, w.a, w.b, w.c, w.d + t1, w.e, w.f, w.g⟩

/-- The message schedule of a block. -/
def schedule (block : List UInt8) (t : ℕ) : UInt32 :=
  if t < 16 then mybe32dec (block.drop (t * 4))
  else s1 (schedule block (t - 2)) + schedule block (t - 7) + s0 (schedule block (t - 15)) + schedule block (t - 16)

def load (H : Vector UInt32 8) : Work := ⟨H[0], H[1], H[2], H[3], H[4], H[5], H[6], H[7]⟩

def store (w : Work) : Vector UInt32 8 := #v[w.a, w.b, w.c, w.d, w.e, w.f, w.g, w.h]

def compress (H : Vector UInt32 8) (block : List UInt8) : Vector UInt32 8 :=
  let w := (List.finRange 64).foldl (fun w t => step w (K.get t) (schedule block t.val)) (load H)
  H.zipWith (· + ·) (store w)

def H0 : Vector UInt32 8 :=
  #[0x6A09E667, 0xBB67AE85, 0x3C6EF372, 0xA54FF53A, 0x510E527F, 0x9B05688C, 0x1F83D9AB, 0x5BE0CD19].toVector

/-- `1`, the fewest zeros that leave room for the length behind whole blocks, and the length in bits.  The standard
takes messages below `2^64` bits, for which the remainder is the length itself. -/
def pad (m : List UInt8) : List UInt8 :=
  m ++ 0x80 :: List.replicate ((119 - m.length % 64) % 64) 0 ++ mybe64enc (UInt64.ofNat (8 * m.length % 2 ^ 64))

def sha256 (m : List UInt8) : List UInt8 := be32encVect ((blocks 64 (pad m)).foldl compress H0)

end Fips

/-! ## One block -/

section Block

theorem Ch_eq (x y z : UInt32) : Ch x y z = Fips.ch x y z := by
  apply UInt32.eq_of_toBitVec_eq
  ext i hi
  simp only [Ch, Fips.ch, UInt32.toBitVec_xor, UInt32.toBitVec_and, UInt32.toBitVec_not, BitVec.getElem_xor,
    BitVec.getElem_and, BitVec.getElem_not]
  cases x.toBitVec[i] <;> cases y.toBitVec[i] <;> cases z.toBitVec[i] <;> rfl

theorem Maj_eq (x y z : UInt32) : Maj x y z = Fips.maj x y z := by
  apply UInt32.eq_of_toBitVec_eq
  ext i hi
  simp only [Maj, Fips.maj, UInt32.toBitVec_xor, UInt32.toBitVec_and, UInt32.toBitVec_or, BitVec.getElem_xor,
    BitVec.getElem_and, BitVec.getElem_or]
  cases x.toBitVec[i] <;> cases y.toBitVec[i] <;> cases z.toBitVec[i] <;> rfl

/-- The working variables of the standard, as they lie in `S` before round `i`. -/
def view (S : Vector UInt32 8) (i : ℕ) : Fips.Work :=
  ⟨S[(64 - i) % 8]!, S[(65 - i) % 8]!, S[(66 - i) % 8]!, S[(67 - i) % 8]!, S[(68 - i) % 8]!, S[(69 - i) % 8]!,
    S[(70 - i) % 8]!, S[(71 - i) % 8]!⟩

/-- A round leaves everything in its place and moves the index. -/
theorem view_RNDr (S : Vector UInt32 8) {i : ℕ} (hi : i < 64) (k w : UInt32) :
    view (RNDr S i (w + k)) (i + 1) = Fips.step (view S i) k w := by
  have h1 : (64 - (i + 1)) % 8 = (71 - i) % 8 := by omega
  have h2 : (65 - (i + 1)) % 8 = (64 - i) % 8 := by omega
  have h3 : (66 - (i + 1)) % 8 = (65 - i) % 8 := by omega
  have h4 : (67 - (i + 1)) % 8 = (66 - i) % 8 := by omega
  have h5 : (68 - (i + 1)) % 8 = (67 - i) % 8 := by omega
  have h6 : (69 - (i + 1)) % 8 = (68 - i) % 8 := by omega
  have h7 : (70 - (i + 1)) % 8 = (69 - i) % 8 := by omega
  have h8 : (71 - (i + 1)) % 8 = (70 - i) % 8 := by omega
  have hget (S : Vector UInt32 8) (n : ℕ) : S[n % 8]! = S[n % 8] := getElem!_pos S _ _
  simp only [view, hget, RNDr, Fips.step, h1, h2, h3, h4, h5, h6, h7, h8, Vector.getElem_set, Fips.Work.mk.injEq, if_true,
    Ch_eq, Maj_eq]
  refine ⟨?_, ?_, ?_, ?_, ?_, ?_, ?_, ?_⟩
  · ac_rfl
  · rw [if_neg (by omega), if_neg (by omega)]
  · rw [if_neg (by omega), if_neg (by omega)]
  · rw [if_neg (by omega), if_neg (by omega)]
  · rw [if_neg (by omega)]
    ac_rfl
  · rw [if_neg (by omega), if_neg (by omega)]
  · rw [if_neg (by omega), if_neg (by omega)]
  · rw [if_neg (by omega), if_neg (by omega)]

/-- After all rounds the variables are back at their names. -/
theorem store_view (S : Vector UInt32 8) : Fips.store (view S 64) = S := by
  ext i hi
  simp only [Fips.store, view]
  interval_cases i <;> rfl

theorem view_zero (S : Vector UInt32 8) : view S 0 = Fips.load S := rfl

/-- `W` is the message schedule. -/
theorem fillW_schedule (block : List UInt8) {t : ℕ} (ht : t < 64) :
    ((List.finRange 48).foldl fillW (be32decVect block))[t] = Fips.schedule block t := by
  have h := foldl_finRange (P := fun n W => ∀ t (ht : t < 64), t < 16 + n → W[t] = Fips.schedule block t) (g := fillW)
    (a := be32decVect block) ?_ ?_
  · exact h t ht (by omega)
  · intro t ht hn
    rw [Fips.schedule, if_pos hn, be32decVect, Vector.getElem_ofFn, if_pos hn]
  · intro i W hW t ht hn
    rw [fillW, Vector.getElem_set]
    by_cases hi : i.val + 16 = t
    · subst hi
      have h14 := hW (i.val + 14) (by omega) (by omega)
      have h9 := hW (i.val + 9) (by omega) (by omega)
      have h1 := hW (i.val + 1) (by omega) (by omega)
      have h0 := hW i.val (by omega) (by omega)
      rw [if_pos rfl, h14, h9, h1, h0]
      conv_rhs => rw [Fips.schedule, if_neg (by omega)]
      rfl
    · rw [if_neg hi, hW t ht (by omega)]

theorem transform_eq (state : Vector UInt32 8) (block : List UInt8) :
    sha256Transform state block = Fips.compress state block := by
  have h := foldl_finRange₂ (R := fun n S w => n ≤ 64 → view S n = w) (a := state) (t := Fips.load state)
    (g := fun S i => RNDr S i.val (((List.finRange 48).foldl fillW (be32decVect block))[i.val] + K[i.val]))
    (G := fun w (t : Fin 64) => Fips.step w (K.get t) (Fips.schedule block t.val)) ?_ ?_
  · rw [sha256Transform, Fips.compress, ← h (le_refl _), store_view]
  · exact fun _ => view_zero state
  · intro i S w hS hi
    rw [view_RNDr S i.isLt, hS (by omega), fillW_schedule]
    rfl

end Block

/-! ## The stream -/

section Stream

/-- What the context knows of the message so far. -/
structure Holds (ctx : Context) (m : List UInt8) : Prop where
  count : ctx.count = UInt64.ofNat m.length
  absorbed : (ctx.state, ctx.buf.toList.take (m.length % 64)) = m.foldl (push sha256Transform 64) (Fips.H0, [])

variable {ctx : Context} {m src : List UInt8}

theorem holds_init (buf : Vector UInt8 64) : Holds (sha256Init buf) [] := ⟨rfl, rfl⟩

theorem toNat_ofNat_and (n : ℕ) : (UInt64.ofNat n &&& 0x3f).toNat = n % 64 := by
  rw [UInt64.toNat_and, UInt64.toNat_ofNat', show (0x3f : UInt64).toNat = 2 ^ 6 - 1 from rfl,
    Nat.and_two_pow_sub_one_eq_mod]
  omega

theorem Holds.mod (h : Holds ctx m) : (ctx.count &&& 0x3f).toNat = m.length % 64 := by
  rw [h.count, toNat_ofNat_and]

theorem toList_putAt {buf : Vector UInt8 64} {r : ℕ} (h : r + src.length ≤ 64) :
    (putAt buf r src).toList.take (r + src.length) = buf.toList.take r ++ src := by
  apply List.ext_getElem
  · simp
    omega
  · intro i hi hi'
    simp only [List.getElem_take, Vector.getElem_toList, putAt, Vector.getElem_ofFn, List.getElem_append,
      List.length_take, Vector.length_toList]
    rw [List.length_append, List.length_take, Vector.length_toList] at hi'
    by_cases hr : i < r
    · rw [if_neg (by omega), dif_pos (by omega)]
      rfl
    · rw [if_pos (by omega), dif_neg (by omega), List.getD_eq_getElem _ _ (by omega)]
      congr 1
      omega

/-- One turn of the loop. -/
theorem Holds.turn (h : Holds ctx m) (hne : src ≠ []) (hl : m.length % 64 + src.length ≤ 64) :
    Holds (updateTurn ctx (m.length % 64) src) (m ++ src) := by
  have hcount : ctx.count + UInt64.ofNat src.length = UInt64.ofNat (m ++ src).length := by
    rw [h.count, List.length_append, UInt64.ofNat_add]
  have hand : (UInt64.ofNat (m ++ src).length &&& 0x3f = 0) ↔ (m.length + src.length) % 64 = 0 := by
    rw [← UInt64.toNat_inj, toNat_ofNat_and, List.length_append, UInt64.toNat_zero]
  have hpos := List.length_pos_of_ne_nil hne
  have hput := @toList_putAt _ ctx.buf _ hl
  have hheld : (ctx.buf.toList.take (m.length % 64)).length = m.length % 64 := by
    rw [List.length_take, Vector.length_toList]
    omega
  refine ⟨hcount, ?_⟩
  rw [List.foldl_append, ← h.absorbed, updateTurn]
  simp only [hcount, hand]
  rcases Nat.lt_or_eq_of_le hl with hlt | heq
  · have hmod : (m.length + src.length) % 64 = m.length % 64 + src.length := by omega
    rw [foldl_push_of_lt (by omega), if_neg (by omega), ← hput, List.length_append, hmod]
  · have hall : (putAt ctx.buf (m.length % 64) src).toList.take 64 = (putAt ctx.buf (m.length % 64) src).toList :=
      List.take_of_length_le (by rw [Vector.length_toList])
    have hmod : (m.length + src.length) % 64 = 0 := by omega
    rw [foldl_push_of_eq (by omega) hne, if_pos hmod, ← hput, heq, hall, List.length_append, hmod, List.take_zero]

theorem updateLoop_of_ne (hne : src ≠ []) (r : Fin 64) {l : ℕ}
    (hl : l = if 64 - r.val > src.length then src.length else 64 - r.val) :
    updateLoop ctx r src = updateLoop (updateTurn ctx r.val (src.take l))
      (Fin.ofNat 64 ((updateTurn ctx r.val (src.take l)).count &&& 0x3f).toNat) (src.drop l) := by
  rw [updateLoop, dif_neg hne, hl]

theorem Holds.loop (h : Holds ctx m) {r : Fin 64} (hr : r.val = m.length % 64) :
    Holds (updateLoop ctx r src) (m ++ src) := by
  induction hn : src.length using Nat.strong_induction_on generalizing ctx m r src with
  | _ n ih =>
    by_cases hne : src = []
    · rw [updateLoop, dif_pos hne, hne, List.append_nil]
      exact h
    · have hpos := List.length_pos_of_ne_nil hne
      obtain ⟨l, hl⟩ : ∃ l, l = if 64 - r.val > src.length then src.length else 64 - r.val := ⟨_, rfl⟩
      have hlt : 0 < l ∧ l ≤ src.length ∧ m.length % 64 + l ≤ 64 := by
        rw [hl]
        split <;> omega
      have hlen : (src.take l).length = l := List.length_take_of_le hlt.2.1
      have hfirst : src.take l ≠ [] := by
        rw [← List.length_pos_iff, hlen]
        exact hlt.1
      have hturn := h.turn hfirst (by omega)
      rw [← hr] at hturn
      rw [updateLoop_of_ne hne r hl]
      have hlt' : (src.drop l).length < n := by
        rw [List.length_drop]
        omega
      have hmod : (Fin.ofNat 64 ((updateTurn ctx r.val (src.take l)).count &&& 0x3f).toNat).val =
          (m ++ src.take l).length % 64 := by
        rw [Fin.val_ofNat, hturn.mod, Nat.mod_mod]
      have hrest := ih (src.drop l).length hlt' hturn hmod rfl
      rwa [List.append_assoc, List.take_append_drop] at hrest

theorem Holds.update (h : Holds ctx m) (src : List UInt8) : Holds (sha256Update ctx src) (m ++ src) :=
  h.loop (by rw [h.mod, Fin.val_ofNat, Nat.mod_mod])

theorem Holds.chunks (h : Holds ctx m) (chunks : List (List UInt8)) :
    Holds (chunks.foldl sha256Update ctx) (m ++ chunks.flatten) := by
  induction chunks generalizing ctx m with
  | nil => rwa [List.flatten_nil, List.append_nil]
  | cons c chunks ih =>
    rw [List.foldl_cons, List.flatten_cons, ← List.append_assoc]
    exact ih (h.update c)

theorem Holds.pad (h : Holds ctx m) : Holds (sha256Pad ctx) (Fips.pad m) := by
  have hlen : ctx.count <<< 3 = UInt64.ofNat (8 * m.length % 2 ^ 64) := by
    rw [h.count, ← UInt64.toNat_inj, UInt64.toNat_shiftLeft, UInt64.toNat_ofNat', UInt64.toNat_ofNat',
      show (3 : UInt64).toNat % 64 = 3 from rfl, Nat.shiftLeft_eq]
    omega
  have hpad : PAD.take (if m.length % 64 < 56 then 56 - m.length % 64 else 120 - m.length % 64) =
      0x80 :: List.replicate ((119 - m.length % 64) % 64) 0 := by
    have hplen : (if m.length % 64 < 56 then 56 - m.length % 64 else 120 - m.length % 64) =
        (119 - m.length % 64) % 64 + 1 := by
      split <;> omega
    rw [hplen, PAD, List.take_succ_cons, List.take_replicate]
    congr 2
    omega
  have h' := (h.update (PAD.take (if m.length % 64 < 56 then 56 - m.length % 64 else 120 - m.length % 64))).update
    (mybe64enc (ctx.count <<< 3))
  rw [sha256Pad, h.mod, Fips.pad, ← hlen, ← hpad]
  exact h'

theorem length_pad (m : List UInt8) : 64 ∣ (Fips.pad m).length := by
  rw [Fips.pad]
  simp only [List.length_append, List.length_cons, List.length_replicate]
  have : (mybe64enc (UInt64.ofNat (8 * m.length % 2 ^ 64))).length = 8 := rfl
  omega

/-- Whatever pieces a message comes in, and whatever was in the buffer before, the digest is the standard's. -/
theorem final_eq (buf : Vector UInt8 64) (chunks : List (List UInt8)) :
    sha256Final (chunks.foldl sha256Update (sha256Init buf)) = Fips.sha256 chunks.flatten := by
  have h := ((holds_init buf).chunks chunks).pad.absorbed
  rw [List.nil_append, foldl_push (by decide) (length_pad _)] at h
  have hstate : (sha256Pad (chunks.foldl sha256Update (sha256Init buf))).state = _ := congrArg Prod.fst h
  rw [sha256Final, Fips.sha256, hstate, funext fun H => funext fun block => transform_eq H block]

end Stream

end Varnish.Sha
