import Varnish.Http.Conn
import Varnish.Lib.Strtoul

/-!
# Varnish.Http.Chunked — chunked bodies (`fetch_chunked`)

* `strtoul`, `sizeLine`: how a size line is read.  `strtoul_chars`: the number is that of `Varnish.Lib.Strtoul`.
* `fetchChunked`: the function, over `HTC_Read` and `STV_alloc`.
* `Chunked`: what a chunked body is.  `Bad`: there is a size line with a sign or a prefix, or with a number that an `unsigned` does
  not hold.
* `fetchChunked_exact`: the function decodes exactly the chunked bodies, unless the stream is `Bad`.
-/

namespace Varnish.Http

open Varnish.Lib
open Varnish.Lib.Strtoul (ulong)

/-! ## Size lines -/

section SizeLine

/-- `SP` and `HT` -/
def bblank (b : UInt8) : Bool := b = 9 || b = 32

/-- The value of a hexadecimal digit. -/
def hexVal (b : UInt8) : Option ℕ :=
  if 48 ≤ b ∧ b ≤ 57 then some (b.toNat - 48)
  else if 97 ≤ b ∧ b ≤ 102 then some (b.toNat - 87)
  else if 65 ≤ b ∧ b ≤ 70 then some (b.toNat - 55)
  else none

def isHex (b : UInt8) : Bool := (hexVal b).isSome

def hexNum (ds : List UInt8) : ℕ := ds.foldl (fun n b => 16 * n + (hexVal b).getD 0) 0

/-- `+` and `-` -/
def splitSign : List UInt8 → Bool × List UInt8
  | 45 :: t => (true, t)
  | 43 :: t => (false, t)
  | t => (false, t)

/-- `0x` and `0X`, in front of a digit. -/
def skip0x : List UInt8 → List UInt8
  | 48 :: x :: d :: t => if (x = 120 ∨ x = 88) ∧ isHex d then d :: t else 48 :: x :: d :: t
  | t => t

/-- `strtoul(s, &q, 16)`: the value, and the string at `q`; `none` if `q` is `s`. -/
def strtoul (s : List UInt8) : Option (ℕ × List UInt8) :=
  let (neg, s) := splitSign (s.dropWhile bspace)
  let s := skip0x s
  let ds := s.takeWhile isHex
  if ds = [] then none else some (ulong neg (hexNum ds), s.dropWhile isHex)

def bskipCr : List UInt8 → List UInt8
  | 13 :: t => t
  | t => t

/-- A chunk length and the end of its line in the buffer: the length as an `unsigned`, and what is behind the line. -/
def sizeLine (buf : List UInt8) : Option (ℕ × List UInt8) :=
  match strtoul buf with
  | none => none
  | some (n, q) =>
    match bskipCr (q.dropWhile bblank) with
    | 10 :: left => some (n % 2 ^ 32, left)
    | _ => none

end SizeLine

/-! ### Bytes and characters -/

section Bytes

theorem isspace_char (b : UInt8) : isspace (char b) = bspace b := by
  have hspace : char b = ' ' ↔ b = 32 := ⟨fun h => char_inj (b := 32) h, fun h => h ▸ rfl⟩
  simp only [isspace, bspace, toNat_char, hspace]

theorem digitVal_char (b : UInt8) : isHex b = Strtoul.isDigit 16 (char b) ∧
    (isHex b = true → (hexVal b).getD 0 = Strtoul.digitVal (char b)) := by
  have hall : ∀ k : Fin 256, isHex (UInt8.ofNat k) = Strtoul.isDigit 16 (char (UInt8.ofNat k)) ∧
      (isHex (UInt8.ofNat k) = true → (hexVal (UInt8.ofNat k)).getD 0 = Strtoul.digitVal (char (UInt8.ofNat k))) := by decide +kernel
  have hb := hall ⟨b.toNat, b.toNat_lt⟩
  rwa [UInt8.ofNat_toNat] at hb

theorem signOf_chars (s : List UInt8) : Strtoul.signOf (chars s) = ((splitSign s).1, chars (splitSign s).2) := by
  cases s with
  | nil => rfl
  | cons b s =>
    by_cases hminus : b = 45
    · subst hminus
      rfl
    · by_cases hplus : b = 43
      · subst hplus
        rfl
      · have hb : splitSign (b :: s) = (false, b :: s) := by
          rw [splitSign]
          · rintro t ht
            exact hminus (List.cons.inj ht).1
          · rintro t ht
            exact hplus (List.cons.inj ht).1
        rw [hb]
        show Strtoul.signOf (char b :: chars s) = (false, char b :: chars s)
        rw [Strtoul.signOf]
        · rintro t ht
          exact hminus (char_inj (List.cons.inj ht).1)
        · rintro t ht
          exact hplus (char_inj (List.cons.inj ht).1)

theorem hexPrefix_chars {s : List UInt8} (h : ∀ x d t, s ≠ 48 :: x :: d :: t) :
    Strtoul.hexPrefix (chars s) = false ∧ skip0x s = s := by
  refine ⟨?_, ?_⟩
  · rw [Strtoul.hexPrefix]
    rintro x d t ht
    obtain ⟨b, s1, rfl, hb, hs1⟩ := List.map_eq_cons_iff.1 ht
    obtain ⟨x', s2, rfl, -, hs2⟩ := List.map_eq_cons_iff.1 hs1
    obtain ⟨d', t', rfl, -, -⟩ := List.map_eq_cons_iff.1 hs2
    obtain rfl : b = 48 := char_inj hb
    exact h x' d' t' rfl
  · rw [skip0x]
    rintro x d t rfl
    exact h x d t rfl

theorem numberBase_chars (s : List UInt8) : Strtoul.numberBase 16 (chars s) = (16, chars (skip0x s)) := by
  unfold Strtoul.numberBase
  by_cases hs : ∃ x d t, s = 48 :: x :: d :: t
  · obtain ⟨x, d, t, rfl⟩ := hs
    have hx : (char x = 'x' ∨ char x = 'X') ↔ x = 120 ∨ x = 88 :=
      or_congr ⟨fun h => char_inj (b := 120) h, fun h => h ▸ rfl⟩ ⟨fun h => char_inj (b := 88) h, fun h => h ▸ rfl⟩
    have hzerox : Strtoul.hexPrefix (chars (48 :: x :: d :: t)) = true ↔ (x = 120 ∨ x = 88) ∧ isHex d = true := by
      show ((decide (char x = 'x') || decide (char x = 'X')) && Strtoul.isDigit 16 (char d)) = true ↔ _
      rw [Bool.and_eq_true, Bool.or_eq_true, decide_eq_true_eq, decide_eq_true_eq, hx, (digitVal_char d).1]
    show _ = (16, chars (if (x = 120 ∨ x = 88) ∧ isHex d = true then d :: t else 48 :: x :: d :: t))
    by_cases hp : (x = 120 ∨ x = 88) ∧ isHex d = true
    · rw [if_pos ⟨.inr rfl, hzerox.2 hp⟩, if_pos hp]
      rfl
    · rw [if_neg fun h => hp (hzerox.1 h.2), if_neg hp]
      rfl
  · obtain ⟨hfalse, hskip⟩ := hexPrefix_chars (s := s) fun x d t h => hs ⟨x, d, t, h⟩
    rw [hfalse, hskip, if_neg fun h => Bool.false_ne_true h.2]
    rfl

/-- The number is the one that `strtoul` reads in the text as characters. -/
theorem strtoul_chars (s : List UInt8) : Strtoul.strtoul 16 (chars s) = (strtoul s).elim 0 Prod.fst := by
  have hdrop : (chars s).dropWhile isspace = chars (s.dropWhile bspace) := by
    rw [chars, List.dropWhile_map]
    exact congrArg chars (congrArg (List.dropWhile · s) (funext isspace_char))
  have hdigits (l : List UInt8) : (chars l).takeWhile (Strtoul.isDigit 16) = chars (l.takeWhile isHex) := by
    rw [chars, List.takeWhile_map]
    exact congrArg chars (congrArg (List.takeWhile · l) (funext fun b => (digitVal_char b).1.symm))
  have hnumber (l : List UInt8) : Strtoul.number 16 (chars (l.takeWhile isHex)) = hexNum (l.takeWhile isHex) := by
    have hfold (ds : List UInt8) (hds : ∀ d ∈ ds, isHex d = true) (n : ℕ) :
        (chars ds).foldl (fun n c => 16 * n + Strtoul.digitVal c) n = ds.foldl (fun n b => 16 * n + (hexVal b).getD 0) n := by
      induction ds generalizing n with
      | nil => rfl
      | cons d ds ih =>
        rw [List.foldl_cons, (digitVal_char d).2 (hds d List.mem_cons_self)]
        exact ih (fun x hx => hds x (List.mem_cons_of_mem d hx)) _
    exact hfold _ (fun d hd => List.mem_takeWhile_imp hd) 0
  unfold Strtoul.strtoul strtoul
  rw [hdrop, signOf_chars]
  dsimp only
  rw [numberBase_chars]
  dsimp only
  rw [hdigits, hnumber]
  split
  next hz =>
    rw [hz]
    cases (splitSign (s.dropWhile bspace)).1 <;> rfl
  · rfl

end Bytes

/-! ## The function -/

section Function

/-- What is stored: the storage segments that are full, and the one in use with its size.  `allocs` counts the calls of `STV_alloc`. -/
structure Fetched where
  conn : Conn
  full : List (List UInt8)
  st : Option (List UInt8 × ℕ)
  allocs : ℕ

/-- Parameters of a fetch: how much each `read` gets, how much space each `STV_alloc` gives, and `fetch_chunksize`. -/
structure FetchEnv where
  cut : ℕ → ℕ
  stv : ℕ → ℕ → ℕ
  chunksize : ℕ

/-- A size line is read to the buffer, which has room for `room` more characters. -/
def readLine (cut : ℕ → ℕ) : (room : ℕ) → (buf : List UInt8) → Conn → Option (ℕ × List UInt8 × Conn)
  | room, buf, c =>
    match sizeLine buf with
    | some (u, left) => some (u, left, c)
    | none =>
      match room with
      | 0 => none
      | room + 1 =>
        let (bs, c) := htcRead cut c 1
        if bs = [] then none else readLine cut room (buf ++ bs) c

/-- `while (v > 0)`: the rest of what fits. -/
def readSome (cut : ℕ → ℕ) : (fuel v : ℕ) → Conn → Option (List UInt8 × Conn)
  | 0, v, c => if v = 0 then some ([], c) else none
  | fuel + 1, v, c =>
    if v = 0 then some ([], c)
    else
      let (bs, c) := htcRead cut c v
      if bs = [] then none
      else do
        let (rest, c) ← readSome cut fuel (v - bs.length) c
        some (bs ++ rest, c)

/-- Storage, if there is none or it is full. -/
def getStorage (env : FetchEnv) (u : ℕ) (f : Fetched) : Fetched × List UInt8 × ℕ :=
  let v := if u < env.chunksize * 1024 % 2 ^ 32 then env.chunksize * 1024 % 2 ^ 32 else u
  let fresh := env.stv f.allocs v
  match f.st with
  | none => ({ f with st := some ([], fresh), allocs := f.allocs + 1 }, [], fresh)
  | some (data, space) =>
    if data.length = space then ({ f with full := f.full ++ [data], st := some ([], fresh), allocs := f.allocs + 1 }, [], fresh)
    else (f, data, space)

/-- `while (u > 0)`: one chunk is stored, first what is left in the buffer. -/
def storeChunk (env : FetchEnv) : (fuel u : ℕ) → (left : List UInt8) → Fetched → Option (List UInt8 × Fetched)
  | 0, u, left, f => if u = 0 then some (left, f) else none
  | fuel + 1, u, left, f =>
    if u = 0 then some (left, f)
    else
      let (f, data, space) := getStorage env u f
      let v := min (space - data.length) u
      let w := min left.length v
      let data := data ++ left.take w
      match readSome env.cut (v - w) (v - w) f.conn with
      | none => none
      | some (bs, c) => storeChunk env fuel (u - w - bs.length) (left.drop w) { f with conn := c, st := some (data ++ bs, space) }

/-- The loop of `fetch_chunked`. -/
def fetchLoop (env : FetchEnv) : (fuel : ℕ) → (buf : List UInt8) → Fetched → Option Fetched
  | 0, _, _ => none
  | fuel + 1, buf, f =>
    match readLine env.cut (19 - buf.length) buf f.conn with
    | none => none
    | some (u, left, c) =>
      if u = 0 then some { f with conn := c }
      else
        match storeChunk env u u left { f with conn := c } with
        | none => none
        | some (buf, f) => fetchLoop env fuel buf f

/-- `fetch_chunked`: the storage segments, and the connection. -/
def fetchChunked (env : FetchEnv) (fuel : ℕ) (c : Conn) : Option (List (List UInt8) × Conn) :=
  match fetchLoop env fuel [] ⟨c, [], none, 0⟩ with
  | none => none
  | some f =>
    match f.st with
    | none => some (f.full, f.conn)
    | some (data, _) => if data = [] then some (f.full, f.conn) else some (f.full ++ [data], f.conn)

end Function

/-! ## What a size line is -/

section Spelling

variable {b : UInt8} {ws sg px ds bl cr s t left : List UInt8} {u : ℕ}

theorem isHex_iff : isHex b = true ↔
    (48 ≤ b.toNat ∧ b.toNat ≤ 57) ∨ (97 ≤ b.toNat ∧ b.toNat ≤ 102) ∨ (65 ≤ b.toNat ∧ b.toNat ≤ 70) := by
  simp only [isHex, hexVal, UInt8.le_iff_toNat_le]
  have h48 : (48 : UInt8).toNat = 48 := rfl
  have h57 : (57 : UInt8).toNat = 57 := rfl
  have h97 : (97 : UInt8).toNat = 97 := rfl
  have h102 : (102 : UInt8).toNat = 102 := rfl
  have h65 : (65 : UInt8).toNat = 65 := rfl
  have h70 : (70 : UInt8).toNat = 70 := rfl
  rw [h48, h57, h97, h102, h65, h70]
  split
  next h => simp [h]
  next h1 =>
    split
    next h => simp [h]
    next h2 =>
      split
      next h => simp [h]
      next h3 => simp [h1, h2, h3]

theorem bspace_iff : bspace b = true ↔ b.toNat = 32 ∨ (9 ≤ b.toNat ∧ b.toNat ≤ 13) := by
  simp only [bspace, Bool.or_eq_true, Bool.and_eq_true, decide_eq_true_eq, ← UInt8.toNat_inj]
  rfl

theorem bblank_iff : bblank b = true ↔ b.toNat = 9 ∨ b.toNat = 32 := by
  simp only [bblank, Bool.or_eq_true, decide_eq_true_eq, ← UInt8.toNat_inj]
  rfl

/-- The parts of a size line: white space, a sign, a prefix, the digits, blanks and a CR. -/
structure LineParts (ws sg px ds bl cr : List UInt8) : Prop where
  ws : ∀ b ∈ ws, bspace b = true
  sg : sg = [] ∨ sg = [43] ∨ sg = [45]
  px : px = [] ∨ px = [48, 120] ∨ px = [48, 88]
  ne : ds ≠ []
  hex : ∀ b ∈ ds, isHex b = true
  bl : ∀ b ∈ bl, bblank b = true
  cr : cr = [] ∨ cr = [13]

/-- What is behind the digits does not go on with one. -/
theorem LineParts.tail (h : LineParts ws sg px ds bl cr) (left : List UInt8) :
    ∃ b t, bl ++ (cr ++ 10 :: left) = b :: t ∧ (bblank b = true ∨ b = 13 ∨ b = 10) := by
  cases bl with
  | nil =>
    rcases h.cr with rfl | rfl
    · exact ⟨10, left, rfl, .inr (.inr rfl)⟩
    · exact ⟨13, 10 :: left, rfl, .inr (.inl rfl)⟩
  | cons b bl => exact ⟨b, _, rfl, .inl (h.bl b List.mem_cons_self)⟩

theorem toNat_tail (h : bblank b = true ∨ b = 13 ∨ b = 10) : b.toNat = 9 ∨ b.toNat = 32 ∨ b.toNat = 13 ∨ b.toNat = 10 := by
  rcases h with h | rfl | rfl
  · rcases bblank_iff.mp h with h | h
    · exact .inl h
    · exact .inr (.inl h)
  · exact .inr (.inr (.inl rfl))
  · exact .inr (.inr (.inr rfl))

theorem not_isHex_tail (h : bblank b = true ∨ b = 13 ∨ b = 10) : isHex b = false := by
  have := toNat_tail h
  rw [← Bool.not_eq_true, isHex_iff]
  omega

theorem splitSign_hex (hb : isHex b = true) : splitSign (b :: t) = (false, b :: t) := by
  have := isHex_iff.mp hb
  rw [splitSign]
  · rintro u hu
    cases hu
    exact absurd this (by decide)
  · rintro u hu
    cases hu
    exact absurd this (by decide)

theorem splitSign_sign (hsg : sg = [] ∨ sg = [43] ∨ sg = [45]) (hb : isHex b = true) :
    splitSign (sg ++ b :: t) = (decide (sg = [45]), b :: t) := by
  rcases hsg with rfl | rfl | rfl
  · exact splitSign_hex hb
  · rfl
  · rfl

/-- The prefix goes, and nothing else. -/
theorem skip0x_spec (h : LineParts ws sg px ds bl cr) (left : List UInt8) :
    skip0x (px ++ (ds ++ (bl ++ (cr ++ 10 :: left)))) = ds ++ (bl ++ (cr ++ 10 :: left)) := by
  obtain ⟨d, ds', rfl⟩ := List.exists_cons_of_ne_nil h.ne
  have hd : isHex d = true := h.hex d List.mem_cons_self
  rcases h.px with rfl | rfl | rfl
  · rw [List.nil_append]
    -- a zero in front is followed by a digit or by the end of the line, not by an `x`
    have hx : ∀ x t, ds' ++ (bl ++ (cr ++ 10 :: left)) = x :: t → ¬ (x = 120 ∨ x = 88) := by
      intro x t hxt hor
      cases ds' with
      | nil =>
        obtain ⟨y, t', ht', hy⟩ := h.tail left
        rw [List.nil_append, ht'] at hxt
        cases hxt
        have := toNat_tail hy
        rcases hor with rfl | rfl
        · exact absurd this (by decide)
        · exact absurd this (by decide)
      | cons y ds' =>
        cases hxt
        have := isHex_iff.mp (h.hex x (by simp))
        rcases hor with rfl | rfl
        · exact absurd this (by decide)
        · exact absurd this (by decide)
    rw [List.cons_append]
    generalize hT : ds' ++ (bl ++ (cr ++ 10 :: left)) = T at hx
    unfold skip0x
    split
    next x d' t heq =>
      cases heq
      rw [if_neg fun hc => hx x _ rfl hc.1]
    · rfl
  · show (if _ then _ else _) = _
    rw [if_pos ⟨.inl rfl, hd⟩]
    rfl
  · show (if _ then _ else _) = _
    rw [if_pos ⟨.inr rfl, hd⟩]
    rfl

theorem strtoul_spec (h : LineParts ws sg px ds bl cr) (left : List UInt8) :
    strtoul (ws ++ (sg ++ (px ++ (ds ++ (bl ++ (cr ++ 10 :: left)))))) =
      some (ulong (decide (sg = [45])) (hexNum ds), bl ++ (cr ++ 10 :: left)) := by
  have hfirst : ∃ b t, px ++ (ds ++ (bl ++ (cr ++ 10 :: left))) = b :: t ∧ isHex b = true := by
    obtain ⟨d, ds', rfl⟩ := List.exists_cons_of_ne_nil h.ne
    rcases h.px with rfl | rfl | rfl
    · exact ⟨d, _, rfl, h.hex d List.mem_cons_self⟩
    · exact ⟨48, _, rfl, by decide⟩
    · exact ⟨48, _, rfl, by decide⟩
  obtain ⟨b, t, hbt, hb⟩ := hfirst
  have hdrop : (ws ++ (sg ++ (px ++ (ds ++ (bl ++ (cr ++ 10 :: left)))))).dropWhile bspace =
      sg ++ (px ++ (ds ++ (bl ++ (cr ++ 10 :: left)))) := by
    rw [List.dropWhile_append_of_pos h.ws, hbt]
    have hn : ¬ bspace b = true := by
      have := isHex_iff.mp hb
      rw [bspace_iff]
      omega
    rcases h.sg with rfl | rfl | rfl
    · exact List.dropWhile_cons_of_neg hn
    · rfl
    · rfl
  obtain ⟨y, t', ht', hy⟩ := h.tail left
  have hny : ¬ isHex y = true := by simp [not_isHex_tail hy]
  unfold strtoul
  rw [hdrop, hbt, splitSign_sign h.sg hb]
  dsimp only
  rw [← hbt, skip0x_spec h, List.takeWhile_append_of_pos h.hex, List.dropWhile_append_of_pos h.hex, ht',
    List.takeWhile_cons_of_neg hny, List.dropWhile_cons_of_neg hny, List.append_nil, if_neg h.ne]

/-- A size line is read as what it spells, modulo the width of the types. -/
theorem sizeLine_spec (h : LineParts ws sg px ds bl cr) (left : List UInt8) :
    sizeLine (ws ++ (sg ++ (px ++ (ds ++ (bl ++ (cr ++ 10 :: left)))))) =
      some (ulong (decide (sg = [45])) (hexNum ds) % 2 ^ 32, left) := by
  unfold sizeLine
  rw [strtoul_spec h]
  dsimp only
  rw [List.dropWhile_append_of_pos h.bl]
  rcases h.cr with rfl | rfl <;> rfl

theorem splitSign_cases (s : List UInt8) :
    ∃ sg, (sg = [] ∨ sg = [43] ∨ sg = [45]) ∧ s = sg ++ (splitSign s).2 ∧ (splitSign s).1 = decide (sg = [45]) := by
  unfold splitSign
  split
  · exact ⟨[45], .inr (.inr rfl), rfl, rfl⟩
  · exact ⟨[43], .inr (.inl rfl), rfl, rfl⟩
  · exact ⟨[], .inl rfl, rfl, rfl⟩

theorem skip0x_cases (s : List UInt8) : ∃ px, (px = [] ∨ px = [48, 120] ∨ px = [48, 88]) ∧ s = px ++ skip0x s := by
  unfold skip0x
  split
  next x d t =>
    split
    next h =>
      rcases h.1 with rfl | rfl
      · exact ⟨[48, 120], .inr (.inl rfl), rfl⟩
      · exact ⟨[48, 88], .inr (.inr rfl), rfl⟩
    · exact ⟨[], .inl rfl, rfl⟩
  · exact ⟨[], .inl rfl, rfl⟩

theorem bskipCr_cases (s : List UInt8) : ∃ cr, (cr = [] ∨ cr = [13]) ∧ s = cr ++ bskipCr s := by
  unfold bskipCr
  split
  · exact ⟨[13], .inr rfl, rfl⟩
  · exact ⟨[], .inl rfl, rfl⟩

/-- Whatever is accepted is made of these parts. -/
theorem sizeLine_some (h : sizeLine s = some (u, left)) :
    ∃ ws sg px ds bl cr, LineParts ws sg px ds bl cr ∧ s = ws ++ (sg ++ (px ++ (ds ++ (bl ++ (cr ++ 10 :: left))))) := by
  unfold sizeLine at h
  split at h
  · cases h
  next n q hq =>
    split at h
    next left' hleft =>
      cases h
      obtain ⟨sg, hsg, hs1, -⟩ := splitSign_cases (s.dropWhile bspace)
      obtain ⟨px, hpx, hs2⟩ := skip0x_cases (splitSign (s.dropWhile bspace)).2
      obtain ⟨cr, hcr, hs3⟩ := bskipCr_cases (q.dropWhile bblank)
      unfold strtoul at hq
      dsimp only at hq
      split at hq
      · cases hq
      next hne =>
        cases hq
        refine ⟨s.takeWhile bspace, sg, px, _, (List.dropWhile isHex (skip0x (splitSign (s.dropWhile bspace)).2)).takeWhile bblank, cr,
          ⟨fun b hb => List.mem_takeWhile_imp hb, hsg, hpx, hne, fun b hb => List.mem_takeWhile_imp hb,
            fun b hb => List.mem_takeWhile_imp hb, hcr⟩, ?_⟩
        rw [← hleft, ← hs3, List.takeWhile_append_dropWhile, List.takeWhile_append_dropWhile, ← hs2, ← hs1,
          List.takeWhile_append_dropWhile]
    · cases h

/-- A plain size line that spells `n`: digits without a sign and a prefix. -/
def IsSizeLine (line : List UInt8) (n : ℕ) : Prop :=
  ∃ ws ds bl cr, LineParts ws [] [] ds bl cr ∧ line = ws ++ (ds ++ (bl ++ (cr ++ [10]))) ∧ n = hexNum ds

theorem sizeLine_plain {line : List UInt8} {n : ℕ} (h : IsSizeLine line n) (hn : n < 2 ^ 32) : sizeLine line = some (n, []) := by
  obtain ⟨ws, ds, bl, cr, hp, rfl, rfl⟩ := h
  have hspec := sizeLine_spec hp []
  have hu : ulong (decide (([] : List UInt8) = [45])) (hexNum ds) % 2 ^ 32 = hexNum ds := by
    have hlt : ¬ 2 ^ 64 ≤ hexNum ds := by omega
    rw [ulong, if_neg hlt]
    exact Nat.mod_eq_of_lt hn
  rw [hu] at hspec
  exact hspec

/-- Nothing is behind the line end in what is accepted first. -/
theorem sizeLine_left (h : sizeLine s = some (u, left)) : ∃ s', s = s' ++ left ∧ sizeLine s' = some (u, []) := by
  obtain ⟨ws, sg, px, ds, bl, cr, hp, rfl⟩ := sizeLine_some h
  refine ⟨ws ++ (sg ++ (px ++ (ds ++ (bl ++ (cr ++ [10]))))), by simp, ?_⟩
  rw [sizeLine_spec hp] at h ⊢
  cases h
  rfl

/-- A part of a size line is not accepted. -/
theorem sizeLine_part {line : List UInt8} {n k : ℕ} (h : IsSizeLine line n) (hk : k < line.length) : sizeLine (line.take k) = none := by
  obtain ⟨ws, ds, bl, cr, hp, rfl, -⟩ := h
  cases hs : sizeLine ((ws ++ (ds ++ (bl ++ (cr ++ [10])))).take k) with
  | none => rfl
  | some r =>
    exfalso
    obtain ⟨u, left⟩ := r
    obtain ⟨ws', sg', px', ds', bl', cr', hp', heq⟩ := sizeLine_some hs
    -- the line end that was found is in the white space, and in front of it is a digit
    have hlf : (10 : UInt8) ∉ ds ++ (bl ++ cr) := by
      intro hmem
      rcases List.mem_append.mp hmem with hm | hm
      · exact absurd (hp.hex 10 hm) (by decide)
      · rcases List.mem_append.mp hm with hm | hm
        · exact absurd (hp.bl 10 hm) (by decide)
        · rcases hp.cr with rfl | rfl
          · cases hm
          · simp at hm
    obtain ⟨d, hd⟩ := List.exists_mem_of_ne_nil ds' hp'.ne
    have hassoc : ws ++ (ds ++ (bl ++ (cr ++ [10]))) = ws ++ (ds ++ (bl ++ cr)) ++ [10] := by simp
    have hle : k ≤ (ws ++ (ds ++ (bl ++ cr))).length := by
      rw [hassoc, List.length_append, List.length_singleton] at hk
      omega
    rw [hassoc, List.take_append_of_le_length hle] at heq
    have hsplit : ws ++ (ds ++ (bl ++ cr)) =
        (ws' ++ (sg' ++ (px' ++ (ds' ++ (bl' ++ cr'))))) ++ 10 :: (left ++ (ws ++ (ds ++ (bl ++ cr))).drop k) := by
      conv => lhs; rw [← List.take_append_drop k (ws ++ (ds ++ (bl ++ cr))), heq]
      simp
    rcases List.append_eq_append_iff.mp hsplit with ⟨a, hx, hy⟩ | ⟨a, hx, hy⟩
    · exact hlf (hy ▸ by simp)
    · have hmem : d ∈ ws := by
        rw [hx]
        simp [hd]
      have := isHex_iff.mp (hp'.hex d hd)
      have := bspace_iff.mp (hp.ws d hmem)
      omega

end Spelling

/-! ## What the function does to the stream -/

section Stream

variable {env : FetchEnv} {ses cap : ℕ} {c : Conn} {pl S buf : List UInt8} {f : Fetched}

/-- The connection has `S` still to come. -/
def Has (ses cap : ℕ) (c : Conn) (S : List UInt8) : Prop := ∃ pl, Busy ses cap c pl ∧ pl ++ c.stream = S

theorem Has.read (cut : ℕ → ℕ) {len : ℕ} (h : Has ses cap c S) (hlen : 0 < len) :
    ∃ bs c' S', htcRead cut c len = (bs, c') ∧ (bs = [] → S = []) ∧ bs.length ≤ len ∧ S = bs ++ S' ∧ Has ses cap c' S' := by
  obtain ⟨pl, hb, rfl⟩ := h
  obtain ⟨bs, c', pl', hread, hempty, hle, hb', hsplit⟩ := htcRead_spec cut len hb hlen
  exact ⟨bs, c', _, hread, hempty, hle, hsplit, pl', hb', rfl⟩

/-- The first size line of a stream, behind what is in the buffer. -/
def takeLine : (room : ℕ) → (buf S : List UInt8) → Option (ℕ × List UInt8 × List UInt8)
  | 0, buf, S => (sizeLine buf).map fun r => (r.1, r.2, S)
  | room + 1, buf, S =>
    match sizeLine buf with
    | some r => some (r.1, r.2, S)
    | none =>
      match S with
      | [] => none
      | b :: S => takeLine room (buf ++ [b]) S

theorem readLine_spec (cut : ℕ → ℕ) (room : ℕ) (buf : List UInt8) (h : Has ses cap c S) :
    (takeLine room buf S = none ∧ readLine cut room buf c = none) ∨
      ∃ u left S' c', takeLine room buf S = some (u, left, S') ∧ readLine cut room buf c = some (u, left, c') ∧ Has ses cap c' S' := by
  induction room generalizing buf c S with
  | zero =>
    rw [takeLine, readLine]
    cases hs : sizeLine buf with
    | none => exact .inl ⟨rfl, rfl⟩
    | some r => exact .inr ⟨r.1, r.2, S, c, rfl, rfl, h⟩
  | succ room ih =>
    unfold takeLine readLine
    cases hs : sizeLine buf with
    | some r => exact .inr ⟨r.1, r.2, S, c, rfl, rfl, h⟩
    | none =>
      obtain ⟨bs, c', S', hread, hempty, hle, rfl, h'⟩ := h.read cut Nat.one_pos
      dsimp only
      rw [hread]
      dsimp only
      by_cases hb : bs = []
      · subst hb
        obtain rfl : S' = [] := hempty rfl
        exact .inl ⟨rfl, rfl⟩
      · obtain ⟨b, t, rfl⟩ := List.exists_cons_of_ne_nil hb
        have ht : t = [] := List.length_eq_zero_iff.mp (by simpa using hle)
        subst ht
        rw [if_neg hb]
        exact ih (buf ++ [b]) h'

theorem readSome_spec (cut : ℕ → ℕ) {fuel v : ℕ} (h : Has ses cap c S) (hv : v ≤ fuel) :
    (S.length < v ∧ readSome cut fuel v c = none) ∨
      (v ≤ S.length ∧ ∃ c', readSome cut fuel v c = some (S.take v, c') ∧ Has ses cap c' (S.drop v)) := by
  induction fuel generalizing v c S with
  | zero =>
    obtain rfl : v = 0 := Nat.le_zero.mp hv
    exact .inr ⟨Nat.zero_le _, c, rfl, h⟩
  | succ fuel ih =>
    rw [readSome]
    by_cases hz : v = 0
    · subst hz
      exact .inr ⟨Nat.zero_le _, c, rfl, h⟩
    · rw [if_neg hz]
      obtain ⟨bs, c1, S1, hread, hempty, hle, rfl, h1⟩ := h.read cut (Nat.pos_of_ne_zero hz)
      rw [hread]
      dsimp only
      by_cases hb : bs = []
      · have := congrArg List.length (hempty hb)
        rw [if_pos hb]
        exact .inl ⟨by rw [this, List.length_nil]; omega, rfl⟩
      · rw [if_neg hb]
        have hpos : 0 < bs.length := List.length_pos_iff.mpr hb
        rcases ih h1 (v := v - bs.length) (by omega) with ⟨hlt, hnone⟩ | ⟨hle', c2, hc2, h2⟩
        · refine .inl ⟨by rw [List.length_append]; omega, ?_⟩
          rw [hnone]
          rfl
        · refine .inr ⟨by rw [List.length_append]; omega, c2, ?_, ?_⟩
          · rw [hc2]
            show some (bs ++ S1.take (v - bs.length), c2) = _
            rw [List.take_append, List.take_of_length_le hle]
          · rw [List.drop_append, List.drop_of_length_le hle]
            exact h2

/-- The bytes that are stored. -/
def Fetched.bytes (f : Fetched) : List UInt8 := f.full.flatten ++ (f.st.map Prod.fst).getD []

/-- No storage segment is fuller than it is large. -/
def Fetched.Ok (f : Fetched) : Prop := ∀ p ∈ f.st, p.1.length ≤ p.2

theorem getStorage_spec (hstv : ∀ j v, 0 < env.stv j v) (u : ℕ) (hok : f.Ok) :
    ∃ f' data space, getStorage env u f = (f', data, space) ∧ f'.st = some (data, space) ∧ data.length < space ∧
      f'.bytes = f.bytes ∧ f'.conn = f.conn := by
  unfold getStorage
  cases hst : f.st with
  | none =>
    refine ⟨_, _, _, rfl, rfl, hstv _ _, ?_, rfl⟩
    simp [Fetched.bytes, hst]
  | some p =>
    obtain ⟨data, space⟩ := p
    have hle : data.length ≤ space := hok _ (by rw [hst]; rfl)
    dsimp only
    split
    · refine ⟨_, _, _, rfl, rfl, hstv _ _, ?_, rfl⟩
      simp [Fetched.bytes, hst]
    · exact ⟨f, data, space, rfl, hst, by omega, rfl, rfl⟩

/-- One chunk is stored. -/
theorem storeChunk_spec (hstv : ∀ j v, 0 < env.stv j v) {fuel u : ℕ} (hok : f.Ok) (h : Has ses cap f.conn S) (hu : u ≤ fuel) :
    (S.length < u ∧ storeChunk env fuel u [] f = none) ∨
      (u ≤ S.length ∧ ∃ f', storeChunk env fuel u [] f = some ([], f') ∧ f'.bytes = f.bytes ++ S.take u ∧ f'.Ok ∧
        Has ses cap f'.conn (S.drop u)) := by
  induction fuel generalizing u f S with
  | zero =>
    obtain rfl : u = 0 := Nat.le_zero.mp hu
    exact .inr ⟨Nat.zero_le _, f, rfl, by simp, hok, h⟩
  | succ fuel ih =>
    rw [storeChunk]
    by_cases hz : u = 0
    · subst hz
      exact .inr ⟨Nat.zero_le _, f, rfl, by simp, hok, h⟩
    · rw [if_neg hz]
      obtain ⟨f1, data, space, hget, hst, hlt, hbytes, hconn⟩ := getStorage_spec hstv u hok
      rw [hget]
      dsimp only
      rw [List.length_nil, Nat.zero_min, List.take_nil, List.append_nil, Nat.sub_zero, Nat.sub_zero, List.drop_nil, hconn]
      rcases readSome_spec env.cut (v := min (space - data.length) u) h (Nat.le_refl _) with ⟨hshort, hnone⟩ | ⟨hle, c2, hc2, h2⟩
      · rw [hnone]
        exact .inl ⟨by omega, rfl⟩
      · rw [hc2]
        dsimp only
        have hlen : (S.take (min (space - data.length) u)).length = min (space - data.length) u := by
          rw [List.length_take]
          omega
        rw [hlen]
        have hok2 : Fetched.Ok { f1 with conn := c2, st := some (data ++ S.take (min (space - data.length) u), space) } := by
          intro p hp
          cases hp
          dsimp only
          rw [List.length_append, hlen]
          omega
        have hbytes2 : Fetched.bytes { f1 with conn := c2, st := some (data ++ S.take (min (space - data.length) u), space) } =
            f.bytes ++ S.take (min (space - data.length) u) := by
          rw [← hbytes]
          simp [Fetched.bytes, hst]
        rcases ih hok2 h2 (u := u - min (space - data.length) u) (by omega) with ⟨hshort, hnone⟩ | ⟨hle', f', hf', hb', hok', h'⟩
        · refine .inl ⟨?_, hnone⟩
          rw [List.length_drop] at hshort
          omega
        · rw [List.length_drop] at hle'
          refine .inr ⟨by omega, f', hf', ?_, hok', ?_⟩
          · rw [hb', hbytes2, List.append_assoc, ← List.take_add, Nat.add_sub_cancel' (Nat.min_le_right _ _)]
          · rw [List.drop_drop, Nat.add_sub_cancel' (Nat.min_le_right _ _)] at h'
            exact h'

end Stream

/-! ## Chunked bodies -/

section Bodies

variable {env : FetchEnv} {ses cap fuel room u n : ℕ} {c : Conn} {S S' buf part left line body d tail : List UInt8}

/-- A chunked body, and its data: size lines that fit into the buffer, with the line end of the data in front of them, each with as
many bytes of data as it spells. -/
inductive Chunked : (body data : List UInt8) → Prop
  | last {line : List UInt8} (h : IsSizeLine line 0) (hs : line.length ≤ 19) : Chunked line []
  | chunk {line d body data : List UInt8} {n : ℕ} (h : IsSizeLine line n) (hs : line.length ≤ 19) (hn : n ≠ 0) (hd : d.length = n)
      (hb : Chunked body data) : Chunked (line ++ (d ++ body)) (d ++ data)

/-- On its way through the stream the function gets to a size line that is not plain, or that spells more than an `unsigned` holds. -/
inductive Bad : List UInt8 → Prop
  | here {line S : List UInt8} {u : ℕ} (hl : takeLine 19 [] (line ++ S) = some (u, [], S))
      (hbad : ∀ n, IsSizeLine line n → 2 ^ 32 ≤ n) : Bad (line ++ S)
  | later {line S : List UInt8} {n : ℕ} (hl : takeLine 19 [] (line ++ S) = some (n, [], S)) (h : IsSizeLine line n) (hn : n ≠ 0)
      (hle : n ≤ S.length) (hb : Bad (S.drop n)) : Bad (line ++ S)

theorem takeLine_some (h : takeLine room buf S = some (u, left, S')) :
    ∃ part, S = part ++ S' ∧ part.length ≤ room ∧ sizeLine (buf ++ part) = some (u, left) ∧
      ∀ k < part.length, sizeLine (buf ++ part.take k) = none := by
  induction room generalizing buf S with
  | zero =>
    rw [takeLine] at h
    obtain ⟨r, hr, he⟩ := Option.map_eq_some_iff.mp h
    cases he
    exact ⟨[], rfl, Nat.le_refl _, by rw [List.append_nil]; exact hr, fun k hk => absurd hk (Nat.not_lt_zero _)⟩
  | succ room ih =>
    unfold takeLine at h
    cases hs : sizeLine buf with
    | some r =>
      rw [hs] at h
      cases h
      exact ⟨[], rfl, Nat.zero_le _, by rw [List.append_nil]; exact hs, fun k hk => absurd hk (Nat.not_lt_zero _)⟩
    | none =>
      rw [hs] at h
      cases S with
      | nil => cases h
      | cons b S =>
        obtain ⟨part, rfl, hle, hline, hmin⟩ := ih h
        refine ⟨b :: part, rfl, Nat.succ_le_succ hle, ?_, fun k hk => ?_⟩
        · rw [List.append_assoc] at hline
          exact hline
        · cases k with
          | zero =>
            rw [List.take_zero, List.append_nil]
            exact hs
          | succ k =>
            have := hmin k (Nat.lt_of_succ_lt_succ hk)
            rwa [List.append_assoc] at this

theorem takeLine_of (hle : part.length ≤ room) (hline : sizeLine (buf ++ part) = some (u, left))
    (hmin : ∀ k < part.length, sizeLine (buf ++ part.take k) = none) : takeLine room buf (part ++ S) = some (u, left, S) := by
  induction room generalizing buf part with
  | zero =>
    obtain rfl : part = [] := List.length_eq_zero_iff.mp (Nat.le_zero.mp hle)
    rw [List.append_nil] at hline
    rw [takeLine, hline]
    rfl
  | succ room ih =>
    unfold takeLine
    cases part with
    | nil =>
      rw [List.append_nil] at hline
      rw [hline]
      rfl
    | cons b part =>
      have hnone := hmin 0 (Nat.succ_pos _)
      rw [List.take_zero, List.append_nil] at hnone
      rw [hnone]
      refine ih (Nat.le_of_succ_le_succ hle) (by rw [List.append_assoc]; exact hline) fun k hk => ?_
      have := hmin (k + 1) (Nat.succ_lt_succ hk)
      rwa [List.append_assoc]

/-- The first line: nothing is left of it in the buffer. -/
theorem takeLine_line (h : takeLine 19 [] S = some (u, left, S')) :
    left = [] ∧ ∃ line, S = line ++ S' ∧ line.length ≤ 19 ∧ sizeLine line = some (u, []) := by
  obtain ⟨part, rfl, hle, hline, hmin⟩ := takeLine_some h
  rw [List.nil_append] at hline
  obtain ⟨s', hs', hacc⟩ := sizeLine_left hline
  have hleft : left = [] := by
    by_contra hne
    have hlt : s'.length < part.length := by
      rw [hs', List.length_append]
      have := List.length_pos_iff.mpr hne
      omega
    have := hmin s'.length hlt
    rw [List.nil_append, hs', List.take_left, hacc] at this
    cases this
  subst hleft
  exact ⟨rfl, part, rfl, hle, hline⟩

theorem strtoul_plain (h : IsSizeLine line n) : ∃ q, strtoul line = some (ulong false n, q) := by
  obtain ⟨ws, ds, bl, cr, hp, rfl, rfl⟩ := h
  exact ⟨_, strtoul_spec hp []⟩

/-- The number that a line spells. -/
theorem isSizeLine_unique {n' : ℕ} (h : IsSizeLine line n) (h' : IsSizeLine line n') (hn : n < 2 ^ 32) : n = n' := by
  obtain ⟨q, hq⟩ := strtoul_plain h
  obtain ⟨q', hq'⟩ := strtoul_plain h'
  rw [hq] at hq'
  have heq : ulong false n = ulong false n' := (Prod.mk.inj (Option.some.inj hq')).1
  simp only [ulong, Bool.false_eq_true, if_false] at heq
  rw [if_neg (by omega)] at heq
  split at heq
  · omega
  · exact heq

/-- The function accepts a plain line, whatever it spells. -/
theorem takeLine_plain (h : IsSizeLine line n) (hs : line.length ≤ 19) (S : List UInt8) :
    ∃ u, takeLine 19 [] (line ++ S) = some (u, [], S) ∧ (n < 2 ^ 32 → u = n) := by
  have hacc : ∃ u, sizeLine line = some (u, []) := by
    obtain ⟨ws, ds, bl, cr, hp, rfl, -⟩ := h
    exact ⟨_, sizeLine_spec hp []⟩
  obtain ⟨u, hu⟩ := hacc
  refine ⟨u, takeLine_of hs (by rw [List.nil_append]; exact hu) fun k hk => ?_, fun hn => ?_⟩
  · rw [List.nil_append]
    exact sizeLine_part h hk
  · rw [sizeLine_plain h hn] at hu
    cases hu
    rfl

/-- What `fetch_chunked` makes of a stream: the data, and the rest. -/
def decode : (fuel : ℕ) → List UInt8 → Option (List UInt8 × List UInt8)
  | 0, _ => none
  | fuel + 1, S =>
    match takeLine 19 [] S with
    | none => none
    | some (u, _, S) =>
      if u = 0 then some ([], S)
      else if S.length < u then none
      else (decode fuel (S.drop u)).map fun r => (S.take u ++ r.1, r.2)

theorem fetchLoop_spec (hstv : ∀ j v, 0 < env.stv j v) (fuel : ℕ) {f : Fetched} (hok : f.Ok) (h : Has ses cap f.conn S) :
    (decode fuel S = none ∧ fetchLoop env fuel [] f = none) ∨
      ∃ d tail f', decode fuel S = some (d, tail) ∧ fetchLoop env fuel [] f = some f' ∧ f'.bytes = f.bytes ++ d ∧
        Has ses cap f'.conn tail := by
  induction fuel generalizing f S with
  | zero => exact .inl ⟨rfl, rfl⟩
  | succ fuel ih =>
    rw [decode, fetchLoop]
    rcases readLine_spec env.cut (19 - ([] : List UInt8).length) [] h with ⟨hnone, hnone'⟩ | ⟨u, left, S1, c1, hline, hline', h1⟩
    · rw [hnone']
      have : takeLine 19 [] S = none := hnone
      rw [this]
      exact .inl ⟨rfl, rfl⟩
    · have hline2 : takeLine 19 [] S = some (u, left, S1) := hline
      obtain ⟨rfl, -⟩ := takeLine_line hline2
      rw [hline', hline2]
      dsimp only
      by_cases hz : u = 0
      · rw [if_pos hz, if_pos hz]
        exact .inr ⟨[], S1, _, rfl, rfl, by rw [List.append_nil]; rfl, h1⟩
      · rw [if_neg hz, if_neg hz]
        have hok1 : Fetched.Ok { f with conn := c1 } := hok
        rcases storeChunk_spec hstv hok1 h1 (Nat.le_refl u) with ⟨hlt, hnone⟩ | ⟨hle, f2, hf2, hb2, hok2, h2⟩
        · rw [hnone, if_pos hlt]
          exact .inl ⟨rfl, rfl⟩
        · rw [hf2, if_neg (by omega)]
          dsimp only
          rcases ih hok2 h2 with ⟨hnone, hnone'⟩ | ⟨d, tail, f3, hd, hf3, hb3, h3⟩
          · rw [hnone, hnone']
            exact .inl ⟨rfl, rfl⟩
          · rw [hd, hf3]
            refine .inr ⟨_, _, f3, rfl, rfl, ?_, h3⟩
            rw [hb3, hb2, List.append_assoc]
            rfl

/-- `fetch_chunked` on a stream. -/
theorem fetchChunked_spec (hstv : ∀ j v, 0 < env.stv j v) (fuel : ℕ) (h : Has ses cap c S) :
    (decode fuel S = none ∧ fetchChunked env fuel c = none) ∨
      ∃ segs tail c', decode fuel S = some (segs.flatten, tail) ∧ fetchChunked env fuel c = some (segs, c') ∧ Has ses cap c' tail := by
  unfold fetchChunked
  rcases fetchLoop_spec hstv fuel (f := ⟨c, [], none, 0⟩) (fun _ hp => by cases hp) h with
    ⟨hnone, hnone'⟩ | ⟨d, tail, f', hd, hf', hb, h'⟩
  · rw [hnone']
    exact .inl ⟨hnone, rfl⟩
  · rw [hf']
    have hbytes : f'.bytes = d := hb
    unfold Fetched.bytes at hbytes
    dsimp only
    cases hst : f'.st with
    | none =>
      rw [hst] at hbytes
      refine .inr ⟨f'.full, tail, _, ?_, rfl, h'⟩
      rw [hd, ← hbytes]
      simp
    | some p =>
      obtain ⟨data, space⟩ := p
      rw [hst] at hbytes
      dsimp only
      split
      next hz =>
        refine .inr ⟨f'.full, tail, _, ?_, rfl, h'⟩
        rw [hd, ← hbytes]
        simp [hz]
      · refine .inr ⟨f'.full ++ [data], tail, _, ?_, rfl, h'⟩
        rw [hd, ← hbytes]
        simp

/-- What is decoded of a stream that is not bad is a chunked body. -/
theorem chunked_of_decode (hgood : ¬ Bad S) (h : decode fuel S = some (d, tail)) : ∃ body, S = body ++ tail ∧ Chunked body d := by
  induction fuel generalizing S d with
  | zero => cases h
  | succ fuel ih =>
    rw [decode] at h
    cases hl : takeLine 19 [] S with
    | none =>
      rw [hl] at h
      cases h
    | some r =>
      obtain ⟨u, left, S1⟩ := r
      obtain ⟨rfl, line, rfl, hle, hline⟩ := takeLine_line hl
      -- the line is plain, and spells what the function takes
      have hplain : IsSizeLine line u := by
        by_contra hno
        refine hgood (.here hl fun n hn => ?_)
        by_contra hlt
        have := sizeLine_plain hn (by omega)
        rw [hline] at this
        cases this
        exact hno hn
      rw [hl] at h
      dsimp only at h
      by_cases hz : u = 0
      · rw [if_pos hz] at h
        cases h
        exact ⟨line, rfl, .last (hz ▸ hplain) hle⟩
      · rw [if_neg hz] at h
        by_cases hlt : S1.length < u
        · rw [if_pos hlt] at h
          cases h
        · rw [if_neg hlt] at h
          obtain ⟨⟨d1, tail1⟩, hd1, he⟩ := Option.map_eq_some_iff.mp h
          cases he
          have hgood1 : ¬ Bad (S1.drop u) := fun hb => hgood (.later hl hplain hz (by omega) hb)
          obtain ⟨body, hbody, hc⟩ := ih hgood1 hd1
          refine ⟨line ++ (S1.take u ++ body), ?_, .chunk hplain hle hz (by rw [List.length_take]; omega) hc⟩
          rw [List.append_assoc, List.append_assoc, ← hbody, List.take_append_drop]

/-- A chunked body is decoded, if the stream is not bad. -/
theorem decode_of_chunked (fuel : ℕ) (hc : Chunked body d) (hgood : ¬ Bad (body ++ tail)) (hf : body.length < fuel) :
    decode fuel (body ++ tail) = some (d, tail) := by
  induction hc generalizing fuel with
  | @last line h hs =>
    obtain ⟨fuel, rfl⟩ : ∃ k, fuel = k + 1 := ⟨fuel - 1, by omega⟩
    obtain ⟨u, hu, hval⟩ := takeLine_plain h hs tail
    rw [decode, hu]
    dsimp only
    rw [if_pos (hval (by norm_num))]
  | @chunk line d body data n h hs hn hd hb ih =>
    obtain ⟨fuel, rfl⟩ : ∃ k, fuel = k + 1 := ⟨fuel - 1, by omega⟩
    have hassoc : line ++ (d ++ body) ++ tail = line ++ (d ++ (body ++ tail)) := by simp
    rw [hassoc] at hgood ⊢
    obtain ⟨u, hu, hval⟩ := takeLine_plain h hs (d ++ (body ++ tail))
    have hlt : n < 2 ^ 32 := by
      by_contra hge
      refine hgood (.here hu fun n' hn' => ?_)
      by_contra hlt'
      have := isSizeLine_unique hn' h (by omega)
      omega
    obtain rfl : u = n := hval hlt
    have hdrop : (d ++ (body ++ tail)).drop u = body ++ tail := List.drop_left' hd
    have hgood' : ¬ Bad (body ++ tail) := fun hb' => hgood (.later hu h hn (by rw [List.length_append]; omega)
      (by rw [hdrop]; exact hb'))
    rw [decode, hu]
    dsimp only
    rw [if_neg hn, if_neg (by rw [List.length_append]; omega), hdrop, ih fuel hgood' (by
      rw [List.length_append, List.length_append] at hf
      omega), List.take_left' hd]
    rfl

/-- A bad stream does not begin with a chunked body, unless with one that an `unsigned` does not hold. -/
theorem not_chunked_of_bad (hbad : Bad S) (hlen : S.length < 2 ^ 32) (hS : S = body ++ tail) : ¬ Chunked body d := by
  induction hbad generalizing body d with
  | @here line S u hl hbad =>
    intro hc
    cases hc with
    | last h hs =>
      obtain ⟨u', hu', -⟩ := takeLine_plain h hs tail
      rw [← hS, hl] at hu'
      have hline : line = body := by
        cases hu'
        exact List.append_cancel_right hS
      exact absurd (hbad 0 (hline ▸ h)) (by norm_num)
    | @chunk line' d' body' data n h hs hn hd hb =>
      obtain ⟨u', hu', -⟩ := takeLine_plain h hs (d' ++ (body' ++ tail))
      have hS' : line ++ S = line' ++ (d' ++ (body' ++ tail)) := by simpa using hS
      rw [← hS', hl] at hu'
      have hrest : S = d' ++ (body' ++ tail) := by
        cases hu'
        rfl
      have hline : line = line' := by
        rw [hrest] at hS'
        exact List.append_cancel_right hS'
      have hge := hbad n (hline ▸ h)
      rw [hrest, List.length_append, List.length_append] at hlen
      omega
  | @later line S n hl h hn hle hb ih =>
    intro hc
    cases hc with
    | last h' hs =>
      obtain ⟨u', hu', hval⟩ := takeLine_plain h' hs tail
      rw [← hS, hl] at hu'
      have hline : n = u' := by
        cases hu'
        rfl
      exact hn (hline.trans (hval (by norm_num)))
    | @chunk line' d' body' data n' h' hs hn' hd hb' =>
      obtain ⟨u', hu', hval⟩ := takeLine_plain h' hs (d' ++ (body' ++ tail))
      have hS' : line ++ S = line' ++ (d' ++ (body' ++ tail)) := by simpa using hS
      rw [← hS', hl] at hu'
      obtain ⟨hnu, hrest⟩ : n = u' ∧ S = d' ++ (body' ++ tail) := by
        cases hu'
        exact ⟨rfl, rfl⟩
      rw [hrest, List.length_append, List.length_append] at hlen
      have hnn : n = n' := hnu.trans (hval (by omega))
      refine ih ?_ ?_ hb'
      · rw [List.length_drop, hrest, List.length_append]
        omega
      · rw [hrest, hnn]
        exact List.drop_left' hd

/-- **Chunked bodies**: for every stream without a bad size line, every fragmentation and all sizes of the storage, the function
succeeds on every chunked body and stores its data, and whatever it accepts is a chunked body with the data that is stored.  If a bad
size line is on the way and it succeeds, what it has accepted is none. -/
theorem fetchChunked_exact (env : FetchEnv) (c : Conn) (S : List UInt8) (ses cap fuel : ℕ) (hstv : ∀ j v, 0 < env.stv j v)
    (h : Has ses cap c S) (hf : S.length < fuel) :
    (¬ Bad S →
      (∀ body d tail, S = body ++ tail → Chunked body d →
        ∃ segs c', fetchChunked env fuel c = some (segs, c') ∧ segs.flatten = d ∧ Has ses cap c' tail) ∧
      ∀ segs c', fetchChunked env fuel c = some (segs, c') →
        ∃ body tail, S = body ++ tail ∧ Chunked body segs.flatten ∧ Has ses cap c' tail) ∧
    (Bad S → S.length < 2 ^ 32 → ∀ segs c', fetchChunked env fuel c = some (segs, c') →
      ¬ ∃ body tail, S = body ++ tail ∧ Chunked body segs.flatten) := by
  refine ⟨fun hgood => ⟨?_, ?_⟩, fun hbad hlen segs c' _ => ?_⟩
  · rintro body d tail rfl hc
    have hd := decode_of_chunked fuel hc hgood (by
      rw [List.length_append] at hf
      omega)
    rcases fetchChunked_spec hstv fuel h with ⟨hnone, -⟩ | ⟨segs, tail', c', hdec, hfetch, h'⟩
    · rw [hd] at hnone
      cases hnone
    · rw [hd] at hdec
      cases hdec
      exact ⟨segs, c', hfetch, rfl, h'⟩
  · intro segs c' hfetch
    rcases fetchChunked_spec hstv fuel h with ⟨-, hnone⟩ | ⟨segs', tail, c'', hdec, hfetch', h'⟩
    · rw [hfetch] at hnone
      cases hnone
    · rw [hfetch] at hfetch'
      cases hfetch'
      obtain ⟨body, hS, hc⟩ := chunked_of_decode hgood hdec
      exact ⟨body, tail, hS, hc, h'⟩
  · rintro ⟨body, tail, hS, hc⟩
    exact not_chunked_of_bad hbad hlen hS hc

/-- A connection that has `stream` still to be read. -/
def freshConn (stream : List UInt8) : Conn := ⟨fun _ => 0, 40, 5, none, 0, 0, none, stream, 0⟩

theorem has_freshConn (stream : List UInt8) : Has 5 20 (freshConn stream) stream :=
  ⟨[], ⟨by simp [freshConn], by simp [freshConn], rfl, by decide, .inl ⟨rfl, rfl⟩⟩, rfl⟩

/-- Every `read` gets two bytes, and every storage segment has two. -/
def twoEnv : FetchEnv := ⟨fun _ => 1, fun _ _ => 2, 128⟩

/-- `3 CR LF a b c CR LF 0 CR LF` -/
def threeBody : List UInt8 := [51, 13, 10] ++ ([97, 98, 99] ++ [13, 10, 48, 13, 10])

theorem chunked_threeBody : Chunked threeBody [97, 98, 99] := by
  have h3 : IsSizeLine [51, 13, 10] 3 :=
    ⟨[], [51], [], [13], ⟨by simp, .inl rfl, .inl rfl, by simp, List.all_eq_true.1 rfl, by simp, .inr rfl⟩, rfl, by decide⟩
  have h0 : IsSizeLine [13, 10, 48, 13, 10] 0 :=
    ⟨[13, 10], [48], [], [13], ⟨List.all_eq_true.1 rfl, .inl rfl, .inl rfl, by simp, List.all_eq_true.1 rfl, by simp, .inr rfl⟩, rfl,
      by decide⟩
  exact .chunk h3 (by decide) (by decide) rfl (.last h0 (by decide))

theorem fetchChunked_exact_three :
    ∃ segs c', fetchChunked twoEnv 12 (freshConn threeBody) = some (segs, c') ∧ segs.flatten = [97, 98, 99] ∧ Has 5 20 c' [] :=
  ((fetchChunked_exact twoEnv (freshConn threeBody) threeBody 5 20 12 (fun _ _ => Nat.two_pos) (has_freshConn threeBody)
    (by decide)).1 fun hb => not_chunked_of_bad hb (by decide) (List.append_nil _).symm chunked_threeBody).1
    threeBody [97, 98, 99] [] (List.append_nil _).symm chunked_threeBody

/-- `100000001 LF a 0 LF`: the first chunk should have more than four gigabytes. -/
def wideBody : List UInt8 := [49, 48, 48, 48, 48, 48, 48, 48, 49, 10] ++ [97, 48, 10]

theorem bad_wideBody : Bad wideBody := by
  refine .here (u := 1) (by decide +kernel) fun n hn => ?_
  obtain ⟨q, hq⟩ := strtoul_plain hn
  have hval : strtoul [49, 48, 48, 48, 48, 48, 48, 48, 49, 10] = some (4294967297, [10]) := by decide +kernel
  rw [hval] at hq
  have heq : 4294967297 = ulong false n := (Prod.mk.inj (Option.some.inj hq)).1
  simp only [ulong, Bool.false_eq_true, if_false] at heq
  split at heq
  · omega
  · omega

/-- The chunk is taken to have one byte, and the body to be complete. -/
theorem fetchChunked_wide :
    (fetchChunked twoEnv 14 (freshConn wideBody)).map Prod.fst = some [[97]] ∧
      ¬ ∃ body tail, wideBody = body ++ tail ∧ Chunked body [97] := by
  refine ⟨by decide +kernel, ?_⟩
  rintro ⟨body, tail, hS, hc⟩
  exact not_chunked_of_bad bad_wideBody (by decide) hS hc

end Bodies

end Varnish.Http
