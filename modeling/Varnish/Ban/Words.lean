import Mathlib.Data.List.TakeWhile
import Varnish.Ban.Argv

/-!
# Varnish.Ban.Words — the grammar of words (`ParseArgv`)

A result without words has the place where the reader returned: what was left of the text there.

* `parseArgvAt`, `parseArgv_eq`: the reader with the places.
* `Word`, `BadWord`, `Parses`: the grammar, in which an escape stands for a byte; every text has one result (`existsUnique_parses`).
* `Loose`: a `\x` without its two digits that `sscanf` reads nevertheless.
* `reads_iff`: the reader does what the grammar says where there is no such escape at the place of the error, and no NUL in a word.
-/

namespace Varnish.Argv

open Varnish.Ban
open Varnish.Lib (isspace)

/-! ## The reader, with places -/

section Reader

def errInvalidBackslash : ArgErr := .text "Invalid backslash sequence"

def errMissingQuote : ArgErr := .text "Missing '\"'"

abbrev Result (α : Type) := Except (ArgErr × Str) α

/-- The loop over one word. -/
def scanAt (comma quote : Bool) : (skip : ℕ) → Str → Result ℕ
  | 0, [] => if quote then .error (errMissingQuote, []) else .ok 0
  | _ + 1, [] => .error (.fault, [])
  | skip + 1, _ :: t => (scanAt comma quote skip t).map (· + 1)
  | 0, c :: t =>
    if c = '\\' then
      match backSlash (c :: t) with
      | none => .error (.fault, c :: t)
      | some (0, _) => .error (errInvalidBackslash, c :: t)
      | some (i + 1, _) => (scanAt comma quote i t).map (· + 1)
    else if !quote then
      if isspace c || (comma && c = ',') then .ok 0 else (scanAt comma quote 0 t).map (· + 1)
    else if c = '"' then .ok 0
    else (scanAt comma quote 0 t).map (· + 1)

/-- A word, and what is behind it. -/
def wordAt (comma quote : Bool) (s : Str) : Result (Str × Str) :=
  (scanAt comma quote 0 s).map fun n => (backSlashDecode 0 n s, s.drop n)

/-- `ParseArgv`: the words, each of which ends for its users at the first NUL. -/
def parseArgvAt (comment comma : Bool) : (fuel : ℕ) → Str → Result (List Str)
  | 0, s => .error (.fault, s)
  | _ + 1, [] => .ok []
  | fuel + 1, c :: t =>
    if isspace c then parseArgvAt comment comma fuel t
    else if comment && c = '#' then .ok []
    else do
      let quote : Bool := c = '"'
      let (w, s) ← wordAt comma quote (if quote then t else c :: t)
      let ws ← parseArgvAt comment comma fuel (s.drop 1)
      .ok (w.takeWhile (· ≠ '\x00') :: ws)

/-- The result without the place. -/
def forget {α : Type} (r : Result α) : Except ArgErr α := r.mapError Prod.fst

theorem forget_map {α β : Type} (f : α → β) (r : Result α) : forget (r.map f) = (forget r).map f := by
  cases r <;> rfl

theorem scanWord_eq (comma quote : Bool) (skip : ℕ) (s : Str) : scanWord comma quote skip s = forget (scanAt comma quote skip s) := by
  induction s generalizing skip with
  | nil =>
    cases skip with
    | zero => cases quote <;> rfl
    | succ skip => rfl
  | cons c t ih =>
    cases skip with
    | succ skip => rw [scanWord, scanAt, forget_map, ih]
    | zero =>
      rw [scanWord, scanAt]
      split
      · cases backSlash (c :: t) with
        | none => rfl
        | some p =>
          obtain ⟨i, x⟩ := p
          cases i with
          | zero => rfl
          | succ i =>
            dsimp only
            rw [forget_map, ih]
      · split
        · split
          · rfl
          · rw [forget_map, ih]
        · split
          · rfl
          · rw [forget_map, ih]

theorem argWord_eq (comma quote : Bool) (s : Str) : argWord comma quote s = forget (wordAt comma quote s) := by
  rw [argWord, wordAt, forget_map, scanWord_eq]

/-- The reader with places is the reader. -/
theorem parseArgv_eq (comment comma : Bool) (fuel : ℕ) (s : Str) :
    parseArgv comment comma fuel s = forget (parseArgvAt comment comma fuel s) := by
  induction fuel generalizing s with
  | zero => rfl
  | succ fuel ih =>
    cases s with
    | nil => rfl
    | cons c t =>
      rw [parseArgv, parseArgvAt]
      split
      · exact ih t
      · split
        · rfl
        · show (argWord comma (decide (c = '"')) (if decide (c = '"') = true then t else c :: t) >>= _) =
            forget (wordAt comma (decide (c = '"')) (if decide (c = '"') = true then t else c :: t) >>= _)
          rw [argWord_eq]
          cases hw : wordAt comma (decide (c = '"')) (if decide (c = '"') = true then t else c :: t) with
          | error e => rfl
          | ok p =>
            show (parseArgv comment comma fuel (p.2.drop 1) >>= _) = forget (parseArgvAt comment comma fuel (p.2.drop 1) >>= _)
            rw [ih]
            cases parseArgvAt comment comma fuel (p.2.drop 1) <;> rfl

end Reader

/-! ## The grammar -/

section Grammar

/-- The escapes of one letter. -/
def letterOf : Char → Option Char
  | 'n' => some '\n'
  | 'r' => some '\r'
  | 't' => some '\t'
  | '"' => some '"'
  | '\\' => some '\\'
  | _ => none

/-- Two hexadecimal digits. -/
def hexByte : Str → Option Char
  | a :: b :: _ => do
    let h ← hexVal a
    let l ← hexVal b
    some (Char.ofNat (h * 16 + l))
  | _ => none

/-- Up to three octal digits. -/
def octDigits (t : Str) : Str := (t.take 3).takeWhile isOct

def octByte (ds : Str) : Char := Char.ofNat (ds.foldl (fun v d => v * 8 + (d.toNat - '0'.toNat)) 0 % 256)

/-- An escape, behind its backslash: the byte, and how many characters it has. -/
def escape : Str → Option (Char × ℕ)
  | [] => none
  | c :: t =>
    match letterOf c with
    | some b => some (b, 1)
    | none =>
      if isOct c then some (octByte (octDigits (c :: t)), (octDigits (c :: t)).length)
      else if c = 'x' then (hexByte t).map fun b => (b, 3)
      else none

/-- The character ends a word. -/
def ends (comma quote : Bool) (c : Char) : Bool := if quote then c = '"' else isspace c || (comma && c = ',')

/-- A text begins with a word: the bytes of the word, and what is left. -/
inductive Word (comma quote : Bool) : Str → Str → Str → Prop
  | nil (h : quote = false) : Word comma quote [] [] []
  | stop {c : Char} {t : Str} (hc : c ≠ '\\') (he : ends comma quote c = true) : Word comma quote (c :: t) [] (c :: t)
  | plain {c : Char} {t w r : Str} (hc : c ≠ '\\') (he : ends comma quote c = false) (h : Word comma quote t w r) :
      Word comma quote (c :: t) (c :: w) r
  | esc {b : Char} {n : ℕ} {t w r : Str} (he : escape t = some (b, n)) (h : Word comma quote (t.drop n) w r) :
      Word comma quote ('\\' :: t) (b :: w) r

/-- A text does not begin with a word: why, and what is left at the place where this is so. -/
inductive BadWord (comma quote : Bool) : Str → ArgErr → Str → Prop
  | missing (h : quote = true) : BadWord comma quote [] errMissingQuote []
  | invalid {t : Str} (he : escape t = none) : BadWord comma quote ('\\' :: t) errInvalidBackslash ('\\' :: t)
  | plain {c : Char} {t p : Str} {e : ArgErr} (hc : c ≠ '\\') (he : ends comma quote c = false) (h : BadWord comma quote t e p) :
      BadWord comma quote (c :: t) e p
  | esc {b : Char} {n : ℕ} {t p : Str} {e : ArgErr} (he : escape t = some (b, n)) (h : BadWord comma quote (t.drop n) e p) :
      BadWord comma quote ('\\' :: t) e p

/-- Where the first word begins, when the text goes on with `c`. -/
def wordText (c : Char) (t : Str) : Str := if c = '"' then t else c :: t

/-- The words of a text, or the first error. -/
inductive Parses (comment comma : Bool) : Str → Result (List Str) → Prop
  | done : Parses comment comma [] (.ok [])
  | blank {c : Char} {t : Str} {o : Result (List Str)} (hc : isspace c = true) (h : Parses comment comma t o) : Parses comment comma (c :: t) o
  | comment {t : Str} (hc : comment = true) : Parses comment comma ('#' :: t) (.ok [])
  | word {c : Char} {t w r : Str} {o : Result (List Str)} (hc : isspace c = false) (hn : (comment && c = '#') = false)
      (hw : Word comma (c = '"') (wordText c t) w r) (h : Parses comment comma (r.drop 1) o) : Parses comment comma (c :: t) (o.map (w :: ·))
  | bad {c : Char} {t p : Str} {e : ArgErr} (hc : isspace c = false) (hn : (comment && c = '#') = false)
      (hw : BadWord comma (c = '"') (wordText c t) e p) : Parses comment comma (c :: t) (.error (e, p))

/-- A `\x` without its two digits, of which `sscanf` reads a number: what is behind the backslash. -/
def Loose (t : Str) : Prop := escape t = none ∧ ∃ u, t.head? = some 'x' ∧ scanHex t.tail = some u

/-- The reader does what the grammar says. -/
def Reads (comment comma : Bool) (s : Str) : Prop := ∃ o, Parses comment comma s o ∧ parseArgvAt comment comma (s.length + 1) s = o

/-- No word has a NUL in it, and the escape at the place of an error is not one that `sscanf` reads. -/
def Sound : Result (List Str) → Prop
  | .ok ws => ∀ w ∈ ws, '\x00' ∉ w
  | .error (_, p) => ¬ Loose p.tail

end Grammar

/-! ## Escapes -/

section Escapes

variable {t : Str} {b : Char} {n : ℕ}

/-- A hexadecimal digit is neither a blank nor a sign, and below 16. -/
theorem hexVal_some {c : Char} {v : ℕ} (h : hexVal c = some v) : isspace c = false ∧ c ≠ '+' ∧ c ≠ '-' ∧ v < 16 := by
  have hlo : 48 ≤ c.toNat := by
    unfold hexVal at h
    split at h
    · rename_i hc
      rw [Bool.and_eq_true, decide_eq_true_eq] at hc
      exact hc.1
    · split at h
      · rename_i hc
        rw [Bool.and_eq_true, decide_eq_true_eq] at hc
        exact le_trans (by decide) (show 97 ≤ c.toNat from hc.1)
      · split at h
        · rename_i hc
          rw [Bool.and_eq_true, decide_eq_true_eq] at hc
          exact le_trans (by decide) (show 65 ≤ c.toNat from hc.1)
        · cases h
  have hne : ∀ d : Char, d.toNat < 48 → c ≠ d := by
    rintro d hd rfl
    omega
  refine ⟨?_, hne '+' (by decide), hne '-' (by decide), ?_⟩
  · unfold isspace
    rw [decide_eq_false (hne ' ' (by decide)), Bool.false_or, Bool.and_eq_false_iff]
    right
    rw [decide_eq_false_iff_not]
    omega
  · unfold hexVal at h
    split at h
    · rename_i hc
      rw [Bool.and_eq_true, decide_eq_true_eq, decide_eq_true_eq] at hc
      have h9 : c.toNat ≤ 57 := hc.2
      have h0 : '0'.toNat = 48 := rfl
      cases h
      omega
    · split at h
      · rename_i hc
        rw [Bool.and_eq_true, decide_eq_true_eq, decide_eq_true_eq] at hc
        have hf : c.toNat ≤ 102 := hc.2
        have ha : 'a'.toNat = 97 := rfl
        cases h
        omega
      · split at h
        · rename_i hc
          rw [Bool.and_eq_true, decide_eq_true_eq, decide_eq_true_eq] at hc
          have hf : c.toNat ≤ 70 := hc.2
          have ha : 'A'.toNat = 65 := rfl
          cases h
          omega
        · cases h

/-- Two digits are read by `sscanf` as they are. -/
theorem scanHex_hexByte (h : hexByte t = some b) : ∃ u, scanHex t = some u ∧ u < 256 ∧ b = Char.ofNat u ∧ 2 ≤ t.length := by
  unfold hexByte at h
  split at h
  · rename_i x y t
    obtain ⟨v, hv, h⟩ := Option.bind_eq_some_iff.mp h
    obtain ⟨w, hw, h⟩ := Option.bind_eq_some_iff.mp h
    cases h
    obtain ⟨hsp, hplus, hminus, hv16⟩ := hexVal_some hv
    obtain ⟨-, -, -, hw16⟩ := hexVal_some hw
    have hx : ¬ (y = 'x' ∨ y = 'X') := by
      rintro (rfl | rfl)
      · cases hw
      · cases hw
    refine ⟨v * 16 + w, ?_, by omega, rfl, Nat.le_add_left 2 _⟩
    unfold scanHex
    rw [List.dropWhile_cons_of_neg (by rw [hsp]; exact Bool.false_ne_true)]
    simp only [hplus, hminus, hx, hv, hw, decide_false, Bool.or_self, Bool.false_eq_true, if_false, Option.bind_eq_bind, Option.bind_some,
      Bool.or_eq_true, decide_eq_true_eq, Bool.and_eq_true, and_false]
  · cases h

/-- `BackSlash`, by the character behind the backslash. -/
theorem backSlash_cons (d c : Char) (t : Str) : backSlash (d :: c :: t) =
    match letterOf c with
    | some b => some (2, b)
    | none =>
      if isOct c then some (1 + (octDigits (c :: t)).length, octByte (octDigits (c :: t)))
      else if c = 'x' then
        match scanHex t with
        | some u => if u < 256 then some (4, Char.ofNat u) else none
        | none => some (0, '\x00')
      else some (0, '\x00') := by
  by_cases hn : c = 'n'
  · subst hn
    rfl
  by_cases hr : c = 'r'
  · subst hr
    rfl
  by_cases ht : c = 't'
  · subst ht
    rfl
  by_cases hq : c = '"'
  · subst hq
    rfl
  by_cases hb : c = '\\'
  · subst hb
    rfl
  -- no letter: both functions look at the digits and the `x` now
  have hl : letterOf c = none := by
    unfold letterOf
    split
    · exact absurd rfl hn
    · exact absurd rfl hr
    · exact absurd rfl ht
    · exact absurd rfl hq
    · exact absurd rfl hb
    · rfl
  rw [hl]
  unfold backSlash
  split
  · rename_i heq
    exact absurd (List.cons.inj (List.cons.inj heq).2).1 hn
  · rename_i heq
    exact absurd (List.cons.inj (List.cons.inj heq).2).1 hr
  · rename_i heq
    exact absurd (List.cons.inj (List.cons.inj heq).2).1 ht
  · rename_i heq
    exact absurd (List.cons.inj (List.cons.inj heq).2).1 hq
  · rename_i heq
    exact absurd (List.cons.inj (List.cons.inj heq).2).1 hb
  · rename_i heq
    obtain ⟨-, heq⟩ := List.cons.inj heq
    obtain ⟨rfl, rfl⟩ := List.cons.inj heq
    rfl
  · rename_i hno
    exact absurd rfl (hno d c t)

/-- An escape of the grammar is read as such. -/
theorem backSlash_escape (h : escape t = some (b, n)) : backSlash ('\\' :: t) = some (n + 1, b) ∧ n ≤ t.length := by
  cases t with
  | nil => cases h
  | cons c t =>
    rw [escape] at h
    rw [backSlash_cons]
    cases hl : letterOf c with
    | some x =>
      rw [hl] at h
      cases h
      exact ⟨rfl, Nat.succ_le_succ (Nat.zero_le _)⟩
    | none =>
      rw [hl] at h
      dsimp only at h ⊢
      by_cases ho : isOct c = true
      · rw [if_pos ho] at h ⊢
        cases h
        refine ⟨by rw [Nat.add_comm], ?_⟩
        exact le_trans (List.takeWhile_sublist _).length_le (List.take_sublist 3 _).length_le
      · rw [if_neg ho] at h ⊢
        by_cases hx : c = 'x'
        · rw [if_pos hx] at h ⊢
          obtain ⟨b', hb', h⟩ := Option.map_eq_some_iff.mp h
          cases h
          obtain ⟨u, hu, hlt, rfl, hlen⟩ := scanHex_hexByte hb'
          rw [hu]
          dsimp only
          rw [if_pos hlt]
          exact ⟨rfl, Nat.succ_le_succ hlen⟩
        · rw [if_neg hx] at h
          cases h

/-- What is no escape is found out, unless `sscanf` reads a number; then four characters are passed over, or the assertion fails. -/
theorem backSlash_malformed (h : escape t = none) :
    (¬ Loose t → ∃ x, backSlash ('\\' :: t) = some (0, x)) ∧ (Loose t → backSlash ('\\' :: t) = none ∨ ∃ x, backSlash ('\\' :: t) = some (4, x)) := by
  cases t with
  | nil => exact ⟨fun _ => ⟨_, rfl⟩, fun hl => (by obtain ⟨-, u, hu, -⟩ := hl; cases hu)⟩
  | cons c t =>
    have he := h
    rw [escape] at h
    rw [backSlash_cons]
    cases hl : letterOf c with
    | some x =>
      rw [hl] at h
      cases h
    | none =>
      rw [hl] at h
      dsimp only at h ⊢
      by_cases ho : isOct c = true
      · rw [if_pos ho] at h
        cases h
      · rw [if_neg ho] at h ⊢
        by_cases hx : c = 'x'
        · rw [if_pos hx]
          subst hx
          cases hu : scanHex t with
          | none => exact ⟨fun _ => ⟨_, rfl⟩, fun hl => (by obtain ⟨-, u, -, hu'⟩ := hl; exact absurd (hu.symm.trans hu') (by simp))⟩
          | some u =>
            refine ⟨fun hno => absurd ⟨he, u, rfl, hu⟩ hno, fun _ => ?_⟩
            dsimp only
            split
            · exact .inr ⟨_, rfl⟩
            · exact .inl rfl
        · rw [if_neg hx]
          refine ⟨fun _ => ⟨_, rfl⟩, fun hl => ?_⟩
          obtain ⟨-, u, hu, -⟩ := hl
          exact absurd (Option.some.inj hu) hx

end Escapes

/-! ## One word -/

section OneWord

variable {comma quote : Bool} {s t w r p : Str} {e : ArgErr} {n : ℕ} {c : Char}

theorem scanAt_skip (n : ℕ) (t : Str) (h : n ≤ t.length) : scanAt comma quote n t = (scanAt comma quote 0 (t.drop n)).map (· + n) := by
  induction n generalizing t with
  | zero =>
    rw [List.drop_zero]
    cases scanAt comma quote 0 t <;> rfl
  | succ n ih =>
    cases t with
    | nil => exact absurd h (Nat.not_succ_le_zero n)
    | cons c t =>
      rw [scanAt, ih t (Nat.le_of_succ_le_succ h), List.drop_succ_cons]
      cases scanAt comma quote 0 (t.drop n) <;> rfl

theorem decode_drop (n m : ℕ) (t : Str) (h : n ≤ t.length) : backSlashDecode n (m + n) t = backSlashDecode 0 m (t.drop n) := by
  have hskip := decode_skip (t.take n) (t.drop n) m
  rwa [List.take_append_drop, List.length_take, Nat.min_eq_left h] at hskip

/-- How a character that is no backslash is passed. -/
theorem scanAt_plain (hc : c ≠ '\\') :
    scanAt comma quote 0 (c :: t) = if ends comma quote c then .ok 0 else (scanAt comma quote 0 t).map (· + 1) := by
  rw [scanAt, if_neg hc]
  cases quote with
  | false => rfl
  | true =>
    rw [ends]
    simp only [Bool.not_true, Bool.false_eq_true, if_false, if_true, decide_eq_true_eq]

/-- How an escape is passed. -/
theorem scanAt_esc {b : Char} (he : escape t = some (b, n)) :
    scanAt comma quote 0 ('\\' :: t) = (scanAt comma quote 0 (t.drop n)).map (· + (n + 1)) := by
  obtain ⟨hb, hle⟩ := backSlash_escape he
  rw [scanAt, if_pos rfl, hb]
  dsimp only
  rw [scanAt_skip n t hle]
  cases scanAt comma quote 0 (t.drop n) <;> rfl

/-- A word of the grammar is read. -/
theorem scanAt_word (h : Word comma quote s w r) :
    ∃ n, scanAt comma quote 0 s = .ok n ∧ s.drop n = r ∧ backSlashDecode 0 n s = w ∧ n ≤ s.length := by
  induction h with
  | nil hq =>
    subst hq
    exact ⟨0, rfl, rfl, rfl, Nat.le_refl 0⟩
  | stop hc he => exact ⟨0, by rw [scanAt_plain hc, if_pos he], rfl, rfl, Nat.zero_le _⟩
  | plain hc he _ ih =>
    obtain ⟨n, h1, h2, h3, h4⟩ := ih
    refine ⟨n + 1, ?_, h2, ?_, Nat.succ_le_succ h4⟩
    · rw [scanAt_plain hc, he, if_neg Bool.false_ne_true, h1]
      rfl
    · rw [backSlashDecode, if_neg hc, h3]
  | esc he _ ih =>
    rename_i b k t w r _
    obtain ⟨hb, hle⟩ := backSlash_escape he
    obtain ⟨n, h1, h2, h3, h4⟩ := ih
    rw [List.length_drop] at h4
    refine ⟨n + (k + 1), ?_, ?_, ?_, ?_⟩
    · rw [scanAt_esc he, h1]
      rfl
    · rw [← h2, ← Nat.add_assoc, List.drop_succ_cons, List.drop_drop, Nat.add_comm]
    · rw [← Nat.add_assoc, backSlashDecode, if_pos rfl, hb]
      dsimp only
      rw [Nat.add_sub_cancel, decode_drop k n t hle, h3]
    · rw [List.length_cons]
      omega

/-- An error of the grammar is found, unless `sscanf` reads something there. -/
theorem scanAt_bad (h : BadWord comma quote s e p) (hl : ¬ Loose p.tail) : scanAt comma quote 0 s = .error (e, p) := by
  induction h with
  | missing hq =>
    subst hq
    rfl
  | invalid he =>
    obtain ⟨x, hb⟩ := (backSlash_malformed he).1 hl
    rw [scanAt, if_pos rfl, hb]
  | plain hc he _ ih =>
    rw [scanAt_plain hc, he, if_neg Bool.false_ne_true, ih hl]
    rfl
  | esc he _ ih =>
    rw [scanAt_esc he, ih hl]
    rfl

/-- A scan stays in the text. -/
theorem scanAt_le (skip : ℕ) (s : Str) : (∀ n, scanAt comma quote skip s = .ok n → n ≤ s.length) ∧
    ∀ e p, scanAt comma quote skip s = .error (e, p) → p.length ≤ s.length := by
  induction s generalizing skip with
  | nil =>
    cases skip with
    | zero =>
      cases quote with
      | false => exact ⟨fun n h => (by cases h; exact Nat.le_refl 0), fun e p h => (by cases h)⟩
      | true => exact ⟨fun n h => (by cases h), fun e p h => (by cases h; exact Nat.le_refl 0)⟩
    | succ skip => exact ⟨fun n h => (by cases h), fun e p h => (by cases h; exact Nat.le_refl 0)⟩
  | cons c t ih =>
    have hmap : ∀ k, (∀ n, (scanAt comma quote k t).map (· + 1) = .ok n → n ≤ (c :: t).length) ∧
        ∀ e p, (scanAt comma quote k t).map (· + 1) = .error (e, p) → p.length ≤ (c :: t).length := by
      intro k
      obtain ⟨h1, h2⟩ := ih k
      cases hk : scanAt comma quote k t with
      | ok n => exact ⟨fun m h => (by cases h; exact Nat.succ_le_succ (h1 n hk)), fun e p h => (by cases h)⟩
      | error x => exact ⟨fun m h => (by cases h), fun e p h => (by cases h; exact Nat.le_succ_of_le (h2 e p hk))⟩
    cases skip with
    | succ skip => exact hmap skip
    | zero =>
      by_cases hc : c = '\\'
      · rw [scanAt, if_pos hc]
        cases backSlash (c :: t) with
        | none => exact ⟨fun n h => (by cases h), fun e p h => (by cases h; exact Nat.le_refl _)⟩
        | some x =>
          obtain ⟨i, x⟩ := x
          cases i with
          | zero => exact ⟨fun n h => (by cases h), fun e p h => (by cases h; exact Nat.le_refl _)⟩
          | succ i => exact hmap i
      · rw [scanAt_plain hc]
        cases ends comma quote c with
        | true => exact ⟨fun n h => (by cases h; exact Nat.zero_le _), fun e p h => (by cases h)⟩
        | false => exact hmap 0

/-- The scan goes beyond a place: it ends with less than `k` characters left, or with a failed assertion. -/
def Beyond (k : ℕ) (s : Str) : Result ℕ → Prop
  | .ok n => s.length < n + k
  | .error (e, p) => e = .fault ∨ p.length < k

theorem beyond_map {k m : ℕ} {x : Result ℕ} (hlen : s.length = t.length + m) (h : Beyond k t x) : Beyond k s (x.map (· + m)) := by
  cases x with
  | ok n =>
    have : t.length < n + k := h
    show s.length < n + m + k
    omega
  | error x => exact h

/-- An escape that `sscanf` reads is passed. -/
theorem scanAt_loose (h : BadWord comma quote s e p) (hl : Loose p.tail) : Beyond p.length s (scanAt comma quote 0 s) := by
  induction h with
  | missing hq =>
    obtain ⟨-, u, hu, -⟩ := hl
    cases hu
  | invalid he =>
    rename_i t
    rw [scanAt, if_pos rfl]
    rcases (backSlash_malformed he).2 hl with hb | ⟨x, hb⟩
    · rw [hb]
      exact .inl rfl
    · rw [hb]
      dsimp only
      obtain ⟨h1, h2⟩ := @scanAt_le comma quote 3 t
      cases hk : scanAt comma quote 3 t with
      | ok n =>
        show t.length + 1 < n + 1 + (t.length + 1)
        omega
      | error x =>
        obtain ⟨e', p'⟩ := x
        exact .inr (Nat.lt_succ_of_le (h2 e' p' hk))
  | plain hc he _ ih =>
    rw [scanAt_plain hc, he, if_neg Bool.false_ne_true]
    exact beyond_map rfl (ih hl)
  | esc he _ ih =>
    rename_i b k t p e _
    have hle := (backSlash_escape he).2
    rw [scanAt_esc he]
    refine beyond_map ?_ (ih hl)
    rw [List.length_cons, List.length_drop]
    omega

/-! ### Every text has one reading -/

/-- The cases of the first character. -/
theorem word_or_bad_step (comma quote : Bool) (s : Str) (hs : ∀ s', s'.length < s.length →
      (∃ w r, Word comma quote s' w r) ∨ ∃ e p, BadWord comma quote s' e p) :
    (∃ w r, Word comma quote s w r) ∨ ∃ e p, BadWord comma quote s e p := by
  cases s with
  | nil =>
    cases quote with
    | false => exact .inl ⟨_, _, .nil rfl⟩
    | true => exact .inr ⟨_, _, .missing rfl⟩
  | cons c t =>
    by_cases hc : c = '\\'
    · subst hc
      cases he : escape t with
      | none => exact .inr ⟨_, _, .invalid he⟩
      | some x =>
        obtain ⟨b, n⟩ := x
        have hlt : (t.drop n).length < ('\\' :: t).length := by
          rw [List.length_drop, List.length_cons]
          omega
        rcases hs _ hlt with ⟨w, r, h⟩ | ⟨e, p, h⟩
        · exact .inl ⟨_, _, .esc he h⟩
        · exact .inr ⟨_, _, .esc he h⟩
    · cases he : ends comma quote c with
      | true => exact .inl ⟨_, _, .stop hc he⟩
      | false =>
        rcases hs t (Nat.lt_succ_self _) with ⟨w, r, h⟩ | ⟨e, p, h⟩
        · exact .inl ⟨_, _, .plain hc he h⟩
        · exact .inr ⟨_, _, .plain hc he h⟩

theorem word_or_bad (comma quote : Bool) (s : Str) : (∃ w r, Word comma quote s w r) ∨ ∃ e p, BadWord comma quote s e p := by
  induction hn : s.length using Nat.strongRecOn generalizing s with
  | ind n ih =>
    subst hn
    exact word_or_bad_step comma quote s fun s' hlt => ih s'.length hlt s' rfl

/-- The scan finds the end of the word, so there is one word. -/
theorem word_unique {w' r' : Str} (h : Word comma quote s w r) (h' : Word comma quote s w' r') : w = w' ∧ r = r' := by
  obtain ⟨n, hn, hr, hw, -⟩ := scanAt_word h
  obtain ⟨n', hn', hr', hw', -⟩ := scanAt_word h'
  obtain rfl : n = n' := Except.ok.inj (hn.symm.trans hn')
  exact ⟨hw.symm.trans hw', hr.symm.trans hr'⟩

theorem not_bad_of_word (h : Word comma quote s w r) : ¬ BadWord comma quote s e p := by
  intro h'
  induction h with
  | nil hq =>
    cases h' with
    | missing hq' => exact absurd (hq.symm.trans hq') (by decide)
  | stop hc he =>
    cases h' with
    | invalid he' => exact hc rfl
    | plain hc' he' h' => exact absurd (he.symm.trans he') (by decide)
    | esc he' h' => exact hc rfl
  | plain hc he _ ih =>
    cases h' with
    | invalid he' => exact hc rfl
    | plain hc' he' h' => exact ih h'
    | esc he' h' => exact hc rfl
  | esc he _ ih =>
    cases h' with
    | invalid he' => cases he.symm.trans he'
    | plain hc' he' h' => exact hc' rfl
    | esc he' h' =>
      cases he.symm.trans he'
      exact ih h'

theorem bad_unique {e' : ArgErr} {p' : Str} (h : BadWord comma quote s e p) (h' : BadWord comma quote s e' p') : e = e' ∧ p = p' := by
  induction h with
  | missing hq =>
    cases h'
    exact ⟨rfl, rfl⟩
  | invalid he =>
    cases h' with
    | invalid he' => exact ⟨rfl, rfl⟩
    | plain hc' he' h' => exact absurd rfl hc'
    | esc he' h' => cases he.symm.trans he'
  | plain hc he _ ih =>
    cases h' with
    | invalid he' => exact absurd rfl hc
    | plain hc' he' h' => exact ih h'
    | esc he' h' => exact absurd rfl hc
  | esc he _ ih =>
    cases h' with
    | invalid he' => cases he.symm.trans he'
    | plain hc' he' h' => exact absurd rfl hc'
    | esc he' h' =>
      cases he.symm.trans he'
      exact ih h'

theorem ne_fault (h : BadWord comma quote s e p) : e ≠ .fault := by
  induction h with
  | missing hq => exact fun h => (by cases h)
  | invalid he => exact fun h => (by cases h)
  | plain hc he _ ih => exact ih
  | esc he _ ih => exact ih

/-- What is left behind a word is not longer than the text. -/
theorem word_length (h : Word comma quote s w r) : r.length ≤ s.length := by
  obtain ⟨n, -, rfl, -, -⟩ := scanAt_word h
  rw [List.length_drop]
  exact Nat.sub_le _ _

end OneWord

/-! ## The words of a text -/

section Words

variable {comment comma : Bool} {s t p : Str} {c : Char} {o o' : Result (List Str)} {fuel : ℕ}

theorem length_wordText (c : Char) (t : Str) : (wordText c t).length ≤ t.length + 1 := by
  rw [wordText]
  split
  · exact Nat.le_succ _
  · exact Nat.le_refl _

/-- Behind a word, and the character that ends it, less is left. -/
theorem length_rest {w r : Str} (h : Word comma (c = '"') (wordText c t) w r) : (r.drop 1).length < (c :: t).length := by
  have h1 := word_length h
  have h2 := length_wordText c t
  rw [List.length_drop, List.length_cons]
  omega

theorem isspace_hash : isspace '#' = false := by decide

theorem exists_parses (comment comma : Bool) (s : Str) : ∃ o, Parses comment comma s o := by
  induction hn : s.length using Nat.strongRecOn generalizing s with
  | ind n ih =>
    subst hn
    cases s with
    | nil => exact ⟨_, .done⟩
    | cons c t =>
      cases hc : isspace c with
      | true =>
        obtain ⟨o, h⟩ := ih t.length (Nat.lt_succ_self _) t rfl
        exact ⟨o, .blank hc h⟩
      | false =>
        cases hn : (comment && decide (c = '#')) with
        | true =>
          rw [Bool.and_eq_true, decide_eq_true_eq] at hn
          obtain ⟨hcm, rfl⟩ := hn
          exact ⟨_, .comment hcm⟩
        | false =>
          rcases word_or_bad comma (c = '"') (wordText c t) with ⟨w, r, h⟩ | ⟨e, p, h⟩
          · obtain ⟨o, ho⟩ := ih _ (length_rest h) _ rfl
            exact ⟨_, .word hc hn h ho⟩
          · exact ⟨_, .bad hc hn h⟩

theorem parses_unique (h : Parses comment comma s o) (h' : Parses comment comma s o') : o = o' := by
  induction h generalizing o' with
  | done =>
    cases h'
    rfl
  | blank hc _ ih =>
    cases h' with
    | blank hc' h' => exact ih h'
    | comment hcm => exact absurd (isspace_hash.symm.trans hc) (by decide)
    | word hc' hn hw h' => exact absurd (hc'.symm.trans hc) (by decide)
    | bad hc' hn hw => exact absurd (hc'.symm.trans hc) (by decide)
  | comment hcm =>
    cases h' with
    | blank hc' h' => exact absurd (isspace_hash.symm.trans hc') (by decide)
    | comment hcm' => rfl
    | word hc' hn hw h' =>
      rw [hcm] at hn
      exact absurd hn (by decide)
    | bad hc' hn hw =>
      rw [hcm] at hn
      exact absurd hn (by decide)
  | word hc hn hw _ ih =>
    cases h' with
    | blank hc' h' => exact absurd (hc.symm.trans hc') (by decide)
    | comment hcm =>
      rw [hcm] at hn
      exact absurd hn (by decide)
    | word hc' hn' hw' h' =>
      obtain ⟨rfl, rfl⟩ := word_unique hw hw'
      rw [ih h']
    | bad hc' hn' hw' => exact absurd hw' (not_bad_of_word hw)
  | bad hc hn hw =>
    cases h' with
    | blank hc' h' => exact absurd (hc.symm.trans hc') (by decide)
    | comment hcm =>
      rw [hcm] at hn
      exact absurd hn (by decide)
    | word hc' hn' hw' h' => exact absurd hw (not_bad_of_word hw')
    | bad hc' hn' hw' =>
      obtain ⟨rfl, rfl⟩ := bad_unique hw hw'
      rfl

/-- **The grammar is unambiguous**: every text has one result. -/
theorem existsUnique_parses (comment comma : Bool) (s : Str) : ∃! o, Parses comment comma s o := by
  obtain ⟨o, h⟩ := exists_parses comment comma s
  exact ⟨o, h, fun o' h' => parses_unique h' h⟩

/-! ### The reader reads them -/

/-- What the users of a word see of it. -/
def cut (w : Str) : Str := w.takeWhile (· ≠ '\x00')

theorem cut_eq_iff (w : Str) : cut w = w ↔ '\x00' ∉ w := by
  rw [cut, List.takeWhile_eq_self_iff]
  constructor
  · intro h hmem
    exact absurd (h _ hmem) (by decide)
  · intro h x hx
    exact decide_eq_true fun he => h (he ▸ hx)

/-- A word and the rest of the text. -/
theorem parseArgvAt_word (hc : isspace c = false) (hn : (comment && c = '#') = false) :
    parseArgvAt comment comma (fuel + 1) (c :: t) = (wordAt comma (c = '"') (wordText c t)).bind fun p =>
      (parseArgvAt comment comma fuel (p.2.drop 1)).map (cut p.1 :: ·) := by
  have hq : (if decide (c = '"') = true then t else c :: t) = wordText c t := by
    rw [wordText]
    simp only [decide_eq_true_eq]
  rw [parseArgvAt, if_neg (by rw [hc]; exact Bool.false_ne_true), if_neg (by rw [hn]; exact Bool.false_ne_true)]
  show (wordAt comma (c = '"') (if decide (c = '"') = true then t else c :: t)).bind _ = _
  rw [hq]
  cases wordAt comma (c = '"') (wordText c t) with
  | error x => rfl
  | ok x =>
    show (parseArgvAt comment comma fuel (x.2.drop 1)).bind _ = (parseArgvAt comment comma fuel (x.2.drop 1)).map _
    cases parseArgvAt comment comma fuel (x.2.drop 1) <;> rfl

theorem parseArgvAt_le (fuel : ℕ) (s : Str) {e : ArgErr} (h : parseArgvAt comment comma fuel s = .error (e, p)) : p.length ≤ s.length := by
  induction fuel generalizing s with
  | zero =>
    cases h
    exact Nat.le_refl _
  | succ fuel ih =>
    cases s with
    | nil => cases h
    | cons c t =>
      cases hc : isspace c with
      | true =>
        rw [parseArgvAt, if_pos hc] at h
        exact Nat.le_succ_of_le (ih t h)
      | false =>
        cases hn : (comment && decide (c = '#')) with
        | true =>
          rw [parseArgvAt, if_neg (by rw [hc]; exact Bool.false_ne_true), if_pos hn] at h
          cases h
        | false =>
          rw [parseArgvAt_word hc hn, wordAt] at h
          obtain ⟨-, h2⟩ := @scanAt_le comma (c = '"') 0 (wordText c t)
          cases hs : scanAt comma (c = '"') 0 (wordText c t) with
          | error x =>
            rw [hs] at h
            cases h
            exact le_trans (h2 _ _ hs) (length_wordText c t)
          | ok n =>
            rw [hs] at h
            have hrest : (((wordText c t).drop n).drop 1).length ≤ (c :: t).length := by
              have := length_wordText c t
              rw [List.length_drop, List.length_drop, List.length_cons]
              omega
            cases hr : parseArgvAt comment comma fuel (((wordText c t).drop n).drop 1) with
            | ok ws =>
              change ((parseArgvAt comment comma fuel (((wordText c t).drop n).drop 1)).map _ : Result (List Str)) = _ at h
              rw [hr] at h
              cases h
            | error x =>
              change ((parseArgvAt comment comma fuel (((wordText c t).drop n).drop 1)).map _ : Result (List Str)) = _ at h
              rw [hr] at h
              cases h
              exact le_trans (ih _ hr) hrest

/-- A word in front of a result. -/
theorem sound_map {w : Str} (o : Result (List Str)) : Sound (o.map (w :: ·)) ↔ Sound o ∧ ∀ ws, o = .ok ws → '\x00' ∉ w := by
  cases o with
  | error x => exact ⟨fun h => ⟨h, fun ws hws => (by cases hws)⟩, fun h => h.1⟩
  | ok ws =>
    constructor
    · intro h
      exact ⟨fun v hv => h v (List.mem_cons_of_mem w hv), fun _ _ => h w List.mem_cons_self⟩
    · rintro ⟨h1, h2⟩ v hv
      rcases List.mem_cons.mp hv with rfl | hv
      · exact h2 ws rfl
      · exact h1 v hv

theorem map_cut_iff {w : Str} (r o : Result (List Str)) :
    r.map (cut w :: ·) = o.map (w :: ·) ↔ r = o ∧ ∀ ws, o = .ok ws → '\x00' ∉ w := by
  cases r with
  | error x =>
    cases o with
    | error y => exact ⟨fun h => ⟨h, fun ws hws => (by cases hws)⟩, fun h => h.1⟩
    | ok ws => exact ⟨fun h => (by cases h), fun h => (by cases h.1)⟩
  | ok vs =>
    cases o with
    | error y => exact ⟨fun h => (by cases h), fun h => (by cases h.1)⟩
    | ok ws =>
      constructor
      · intro h
        obtain ⟨h1, rfl⟩ := List.cons.inj (Except.ok.inj h)
        exact ⟨rfl, fun _ _ => (cut_eq_iff w).mp h1⟩
      · rintro ⟨h, hw⟩
        cases h
        rw [Except.map, Except.map, (cut_eq_iff w).mpr (hw _ rfl)]

/-- A `\x` has at least two characters. -/
theorem pos_of_loose (h : Loose p.tail) : 0 < p.length := by
  obtain ⟨-, u, hu, -⟩ := h
  cases p with
  | nil => cases hu
  | cons x p => exact Nat.succ_pos _

/-- An error of what is behind a place is not an error at this place. -/
theorem map_ne_error {w : Str} {e : ArgErr} (h : s.length < p.length) :
    (parseArgvAt comment comma fuel s).map (cut w :: ·) ≠ .error (e, p) := by
  intro heq
  cases hr : parseArgvAt comment comma fuel s with
  | ok ws =>
    rw [hr] at heq
    cases heq
  | error x =>
    rw [hr] at heq
    cases heq
    exact absurd (parseArgvAt_le fuel s hr) (Nat.not_le_of_lt h)

/-- The reader returns the result of the grammar if and only if it is sound. -/
theorem parseArgvAt_iff (h : Parses comment comma s o) (hf : s.length < fuel) : parseArgvAt comment comma fuel s = o ↔ Sound o := by
  induction h generalizing fuel with
  | done =>
    obtain ⟨f, rfl⟩ := Nat.exists_eq_succ_of_ne_zero (Nat.ne_of_gt hf)
    exact iff_of_true rfl fun w hw => absurd hw List.not_mem_nil
  | blank hc _ ih =>
    obtain ⟨f, rfl⟩ := Nat.exists_eq_succ_of_ne_zero (show fuel ≠ 0 by omega)
    rw [parseArgvAt, if_pos hc]
    exact ih (Nat.lt_of_succ_lt_succ hf)
  | comment hcm =>
    obtain ⟨f, rfl⟩ := Nat.exists_eq_succ_of_ne_zero (show fuel ≠ 0 by omega)
    rw [parseArgvAt, if_neg (by decide), if_pos (by rw [hcm]; rfl)]
    exact iff_of_true rfl fun w hw => absurd hw List.not_mem_nil
  | word hc hn hw _ ih =>
    rename_i c t w r o _
    obtain ⟨f, rfl⟩ := Nat.exists_eq_succ_of_ne_zero (show fuel ≠ 0 by omega)
    obtain ⟨n, h1, h2, h3, -⟩ := scanAt_word hw
    have hrest := length_rest hw
    have hword : wordAt comma (c = '"') (wordText c t) = .ok (w, r) := by
      rw [wordAt, h1, ← h2, ← h3]
      rfl
    rw [parseArgvAt_word hc hn, hword]
    show (parseArgvAt comment comma f (r.drop 1)).map _ = _ ↔ _
    rw [map_cut_iff, sound_map, ih (by omega)]
  | bad hc hn hw =>
    rename_i c t p e
    obtain ⟨f, rfl⟩ := Nat.exists_eq_succ_of_ne_zero (show fuel ≠ 0 by omega)
    rw [parseArgvAt_word hc hn, wordAt]
    by_cases hl : Loose p.tail
    · refine iff_of_false ?_ fun hs => hs hl
      have hb := scanAt_loose hw hl
      cases hk : scanAt comma (c = '"') 0 (wordText c t) with
      | error x =>
        obtain ⟨e', p'⟩ := x
        rw [hk] at hb
        intro heq
        cases heq
        exact hb.elim (ne_fault hw) (Nat.lt_irrefl _)
      | ok n =>
        rw [hk] at hb
        exact map_ne_error (by
          have : (wordText c t).length < n + p.length := hb
          rw [List.length_drop, List.length_drop]
          have := pos_of_loose hl
          omega)
    · rw [scanAt_bad hw hl]
      exact iff_of_true rfl hl

/-- **The reader does what the grammar says if and only if the result is sound**: no escape of a word stands for NUL, and the
escape that is an error is not a `\x` of which `sscanf` reads a number. -/
theorem reads_iff (comment comma : Bool) (s : Str) : Reads comment comma s ↔ ∀ o, Parses comment comma s o → Sound o := by
  constructor
  · rintro ⟨o, ho, hr⟩ o' ho'
    rw [← parses_unique ho ho']
    exact (parseArgvAt_iff ho (Nat.lt_succ_self _)).mp hr
  · intro h
    obtain ⟨o, ho⟩ := exists_parses comment comma s
    exact ⟨o, ho, (parseArgvAt_iff ho (Nat.lt_succ_self _)).mpr (h o ho)⟩

/-- The text ends with an escape that has one of its two digits: the reader jumps over the end. -/
theorem short_escape : ¬ Reads false false "\\x4".toList := by
  rintro ⟨o, ho, hr⟩
  have hbad : Parses false false "\\x4".toList (.error (errInvalidBackslash, "\\x4".toList)) :=
    .bad (by decide) (by decide) (.invalid (by decide))
  rw [parses_unique ho hbad] at hr
  revert hr
  decide

end Words

end Varnish.Argv
