import Mathlib.Algebra.Group.Nat.Defs
import Mathlib.Data.List.Chain
import Varnish.Ban.Test
import Varnish.Lib.Ctype

/-!
# Varnish.Ban.Argv — words with backslashes and quotes (`argv.c`)

* `backSlash`, `scanWord`, `backSlashDecode`, `parseArgv`: the reader of `libvarnish`.
* `argWord`: one word, scanned and decoded.  `argWord_clean`: a word without blanks and backslashes is read as it is.
* `clean_of_argWord`: no other word is.
* `argWord_quoted`: a word that `vsb_quote` has put in quotes is read if no escape is followed by a digit it can go on with.
* `noShort_of_argWord`: otherwise it is not.
-/

namespace Varnish.Ban

open Varnish.Lib (isspace)

/-! ## The reader -/

section Reader

/-- A digit of `BackSlash`: `isdigit`, and not more than 7. -/
def isOct (c : Char) : Bool := '0' ≤ c && c ≤ '7'

def hexVal (c : Char) : Option ℕ :=
  if '0' ≤ c && c ≤ '9' then some (c.toNat - '0'.toNat)
  else if 'a' ≤ c && c ≤ 'f' then some (c.toNat - 'a'.toNat + 10)
  else if 'A' ≤ c && c ≤ 'F' then some (c.toNat - 'A'.toNat + 10)
  else none

/-- `sscanf` with `"%02x"`: blanks are passed over, and a sign counts as one of the two characters.  After `0x` there has to be a
digit, as the C standard has it; old versions of glibc take the `0` there. -/
def scanHex (s : Str) : Option ℕ :=
  match s.dropWhile isspace with
  | [] => none
  | c :: t =>
    if c = '+' || c = '-' then do
      let d ← hexVal (← t.head?)
      some (if c = '-' then (2 ^ 32 - d) % 2 ^ 32 else d)
    else do
      let h ← hexVal c
      match t with
      | [] => some h
      | x :: _ =>
        if c = '0' && (x = 'x' || x = 'X') then none
        else match hexVal x with
          | some d => some (h * 16 + d)
          | none => some h

/-- `BackSlash`: how many characters the escape has, 0 if it is none, and what it stands for; `none` is the failed assertion on
the value of `\x`. -/
def backSlash (s : Str) : Option (ℕ × Char) :=
  match s with
  | _ :: 'n' :: _ => some (2, '\n')
  | _ :: 'r' :: _ => some (2, '\r')
  | _ :: 't' :: _ => some (2, '\t')
  | _ :: '"' :: _ => some (2, '"')
  | _ :: '\\' :: _ => some (2, '\\')
  | _ :: c :: t =>
    if isOct c then
      let ds := ((c :: t).take 3).takeWhile isOct
      some (1 + ds.length, Char.ofNat (ds.foldl (fun v d => v * 8 + (d.toNat - '0'.toNat)) 0 % 256))
    else if c = 'x' then
      match scanHex t with
      | some u => if u < 256 then some (4, Char.ofNat u) else none
      | none => some (0, '\x00')
    else some (0, '\x00')
  | _ => some (0, '\x00')

/-- Why there are no words: the two texts of `ParseArgv`, or a failed assertion, or the end of the text that was passed over. -/
inductive ArgErr
  | text (msg : String)
  | fault
deriving DecidableEq

/-- The loop over one word: the number of its characters.  `skip` of them are the rest of an escape. -/
def scanWord (comma quote : Bool) : (skip : ℕ) → Str → Except ArgErr ℕ
  | 0, [] => if quote then .error (.text "Missing '\"'") else .ok 0
  | _ + 1, [] => .error .fault
  | skip + 1, _ :: t => (scanWord comma quote skip t).map (· + 1)
  | 0, c :: t =>
    if c = '\\' then
      match backSlash (c :: t) with
      | none => .error .fault
      | some (0, _) => .error (.text "Invalid backslash sequence")
      | some (i + 1, _) => (scanWord comma quote i t).map (· + 1)
    else if !quote then
      if isspace c || (comma && c = ',') then .ok 0 else (scanWord comma quote 0 t).map (· + 1)
    else if c = '"' then .ok 0
    else (scanWord comma quote 0 t).map (· + 1)

/-- `BackSlashDecode` of `n` characters. -/
def backSlashDecode : (skip n : ℕ) → Str → Str
  | _, 0, _ => []
  | _, _ + 1, [] => []
  | skip + 1, n + 1, _ :: t => backSlashDecode skip n t
  | 0, n + 1, c :: t =>
    if c = '\\' then
      match backSlash (c :: t) with
      | some (i, x) => x :: backSlashDecode (i - 1) n t
      | none => []
    else c :: backSlashDecode 0 n t

/-- A word, and what is behind it. -/
def argWord (comma quote : Bool) (s : Str) : Except ArgErr (Str × Str) :=
  (scanWord comma quote 0 s).map fun n => (backSlashDecode 0 n s, s.drop n)

/-- `ParseArgv`: the words, each of which ends for its users at the first NUL. -/
def parseArgv (comment comma : Bool) : (fuel : ℕ) → Str → Except ArgErr (List Str)
  | 0, _ => .error .fault
  | _ + 1, [] => .ok []
  | fuel + 1, c :: t =>
    if isspace c then parseArgv comment comma fuel t
    else if comment && c = '#' then .ok []
    else do
      let quote : Bool := c = '"'
      let (w, s) ← argWord comma quote (if quote then t else c :: t)
      let ws ← parseArgv comment comma fuel (s.drop 1)
      .ok (w.takeWhile (· ≠ '\x00') :: ws)

end Reader

/-! ## One word -/

section Word

variable {quote : Bool} {c x : Char} {e t w r : Str}

/-- A character that neither ends the word nor begins an escape. -/
def Plain (quote : Bool) (c : Char) : Prop := c ≠ '\\' ∧ if quote then c ≠ '"' else isspace c = false

theorem scanWord_skip (e t : Str) : scanWord false quote e.length (e ++ t) = (scanWord false quote 0 t).map (· + e.length) := by
  induction e with
  | nil =>
    simp only [List.length_nil, List.nil_append]
    cases scanWord false quote 0 t <;> rfl
  | cons c e ih =>
    rw [List.length_cons, List.cons_append, scanWord, ih]
    cases scanWord false quote 0 t <;> rfl

theorem decode_skip (e t : Str) (n : ℕ) : backSlashDecode e.length (n + e.length) (e ++ t) = backSlashDecode 0 n t := by
  induction e with
  | nil => rfl
  | cons c e ih =>
    rw [List.length_cons, List.cons_append, ← Nat.add_assoc, backSlashDecode]
    exact ih

theorem scanWord_plain (h : Plain quote c) : scanWord false quote 0 (c :: t) = (scanWord false quote 0 t).map (· + 1) := by
  obtain ⟨hb, hs⟩ := h
  rw [scanWord, if_neg hb]
  cases quote <;> simp_all

/-- A plain character is read as it is. -/
theorem argWord_plain (h : Plain quote c) :
    argWord false quote (c :: t) = (argWord false quote t).map fun p => (c :: p.1, p.2) := by
  unfold argWord
  rw [scanWord_plain h]
  cases hs : scanWord false quote 0 t with
  | error e => rfl
  | ok n =>
    simp only [Except.map, List.drop_succ_cons]
    rw [backSlashDecode, if_neg h.1]

/-- An escape is read as what it stands for. -/
theorem argWord_esc (h : backSlash ('\\' :: (e ++ t)) = some (e.length + 1, x)) :
    argWord false quote ('\\' :: (e ++ t)) = (argWord false quote t).map fun p => (x :: p.1, p.2) := by
  unfold argWord
  rw [scanWord, if_pos rfl, h]
  simp only [scanWord_skip]
  cases hs : scanWord false quote 0 t with
  | error e => rfl
  | ok n =>
    simp only [Except.map, List.drop_succ_cons]
    rw [backSlashDecode, if_pos rfl, h]
    simp only [Nat.add_sub_cancel, decode_skip]
    rw [Nat.add_comm, List.drop_append]
    simp

/-- The end of the text, or of the word. -/
theorem argWord_end (h : ∀ c t', t = c :: t' → if quote then c = '"' else isspace c = true) (hq : quote = true → t ≠ []) :
    argWord false quote t = .ok ([], t) := by
  unfold argWord
  cases t with
  | nil =>
    cases quote with
    | false => rfl
    | true => exact absurd rfl (hq rfl)
  | cons c t =>
    have hc := h c t rfl
    have hb : c ≠ '\\' := by
      rintro rfl
      cases quote <;> simp [isspace] at hc
    rw [scanWord, if_neg hb]
    cases quote <;> simp_all [Except.map, backSlashDecode]

end Word

/-! ## Words without quotes -/

section Clean

variable {w y r v t : Str} {x : Char} {i : ℕ}

/-- No blanks, and no backslashes. -/
def Clean (w : Str) : Prop := ∀ c ∈ w, c ≠ '\\' ∧ isspace c = false

instance (w : Str) : Decidable (Clean w) := List.decidableBAll (fun c => c ≠ '\\' ∧ isspace c = false) w

/-- What is behind a word in the text of a ban: nothing, or a blank and a word that an escape cannot use. -/
def Follow (r : Str) : Prop :=
  r = [] ∨ ∃ c v t, r = ' ' :: c :: v ++ ' ' :: t ∧ Clean (c :: v) ∧ v.length ≤ 1 ∧ hexVal c = none ∧
    c ≠ '+' ∧ c ≠ '-' ∧ c ≠ 'x' ∧ c ≠ '"'

theorem Follow.head (h : Follow r) : ∀ c t, r = c :: t → c = ' ' := by
  rintro c t rfl
  rcases h with h | ⟨d, v, t', h, -⟩
  · cases h
  · exact (List.cons.inj h).1

theorem argWord_stop (h : ∀ c t, r = c :: t → c = ' ') : argWord false false r = .ok ([], r) := by
  refine argWord_end (fun c t hr => ?_) (fun hq => by cases hq)
  rw [h c t hr]
  rfl

/-- A clean word is read as it is. -/
theorem argWord_clean (hw : Clean w) (hr : ∀ c t, r = c :: t → c = ' ') : argWord false false (w ++ r) = .ok (w, r) := by
  induction w with
  | nil => exact argWord_stop hr
  | cons c w ih =>
    have hc : Plain false c := hw c List.mem_cons_self
    rw [List.cons_append, argWord_plain hc, ih fun d hd => hw d (List.mem_cons_of_mem _ hd)]
    rfl

/-- The escapes that there are: two characters, up to three digits, or `\x`. -/
theorem backSlash_cases {b c : Char} (h : backSlash (b :: c :: t) = some (i + 1, x)) :
    i = 1 ∨ (isOct c = true ∧ i = (((c :: t).take 3).takeWhile isOct).length) ∨ (c = 'x' ∧ i = 3 ∧ scanHex t ≠ none) := by
  unfold backSlash at h
  split at h
  case h_6 heq =>
    cases heq
    by_cases ho : isOct c = true
    · rw [if_pos ho] at h
      obtain ⟨h, -⟩ := Prod.mk.inj (Option.some.inj h)
      exact .inr (.inl ⟨ho, by omega⟩)
    · rw [if_neg ho] at h
      by_cases hx : c = 'x'
      · rw [if_pos hx] at h
        cases hs : scanHex t with
        | none =>
          rw [hs] at h
          cases h
        | some u =>
          rw [hs] at h
          obtain ⟨-, h⟩ := Option.ite_none_right_eq_some.mp h
          obtain ⟨h, -⟩ := Prod.mk.inj (Option.some.inj h)
          exact .inr (.inr ⟨hx, by omega, by simp⟩)
      · rw [if_neg hx] at h
        cases h
  case h_7 hne => exact absurd rfl (hne b c t)
  all_goals
    obtain ⟨h, -⟩ := Prod.mk.inj (Option.some.inj h)
    exact .inl (by omega)

theorem takeWhile_isOct_le {c : Char} (ho : isOct c = true) (t : Str) :
    1 ≤ (((c :: t).take 3).takeWhile isOct).length ∧ (((c :: t).take 3).takeWhile isOct).length ≤ 3 := by
  refine ⟨?_, (List.takeWhile_sublist _).length_le.trans (List.length_take_le _ _)⟩
  rw [List.take_succ_cons, List.takeWhile_cons_of_pos ho]
  simp

theorem backSlash_range {s : Str} (h : backSlash s = some (i + 1, x)) : 1 ≤ i ∧ i ≤ 3 := by
  rcases s with _ | ⟨b, _ | ⟨c, t⟩⟩
  · cases h
  · cases h
  · rcases backSlash_cases h with rfl | ⟨ho, rfl⟩ | ⟨-, rfl, -⟩
    · exact ⟨by decide, by decide⟩
    · exact takeWhile_isOct_le ho t
    · exact ⟨by decide, by decide⟩

theorem scanHex_follow (h : Follow r) : scanHex r = none := by
  rcases h with rfl | ⟨c, v, t, rfl, hc, -, hx, hp, hm, -⟩
  · rfl
  · have hs : isspace c = false := (hc c List.mem_cons_self).2
    have hd : (' ' :: c :: v ++ ' ' :: t).dropWhile isspace = c :: (v ++ ' ' :: t) := by
      rw [List.cons_append, List.dropWhile_cons_of_pos (by rfl), List.cons_append, List.dropWhile_cons_of_neg (by simp [hs])]
    unfold scanHex
    rw [hd]
    simp [hp, hm, hx]

/-- An escape that begins in a word ends in it, or it is a `\x` with one digit that takes the blank behind the word. -/
theorem esc_inside (hr : Follow r) (h : backSlash ('\\' :: (y ++ r)) = some (i + 1, x)) :
    i ≤ y.length ∨ ∃ d, y = ['x', d] ∧ i = 3 := by
  obtain ⟨h1, h3⟩ := backSlash_range h
  have hoct : ∀ a : ℕ, (r.take a).takeWhile isOct = [] := by
    intro a
    cases r with
    | nil => simp
    | cons c r =>
      cases a with
      | zero => rfl
      | succ a =>
        rw [hr.head c r rfl]
        rfl
  rcases y with _ | ⟨c, _ | ⟨d, _ | ⟨e, y⟩⟩⟩
  · cases r with
    | nil => cases h
    | cons c r =>
      rw [hr.head c r rfl] at h
      cases h
  · left
    simp only [List.cons_append, List.nil_append] at h
    rcases backSlash_cases h with rfl | ⟨ho, rfl⟩ | ⟨-, -, hs⟩
    · exact le_refl _
    · rw [List.take_succ_cons, List.takeWhile_cons_of_pos ho, hoct]
    · exact absurd (scanHex_follow hr) hs
  · simp only [List.cons_append, List.nil_append] at h
    rcases backSlash_cases h with rfl | ⟨ho, rfl⟩ | ⟨rfl, rfl, -⟩
    · exact .inl (by simp)
    · left
      rw [List.take_succ_cons, List.takeWhile_cons_of_pos ho, List.take_succ_cons]
      by_cases hd : isOct d = true
      · rw [List.takeWhile_cons_of_pos hd, hoct]
      · rw [List.takeWhile_cons_of_neg hd]
        simp
    · exact .inr ⟨d, rfl, rfl⟩
  · left
    simp only [List.length_cons]
    omega

/-- The result of a word that begins with an escape. -/
theorem argWord_esc_ok {p : Str × Str} (h : argWord false false ('\\' :: t) = .ok p) :
    ∃ i x, backSlash ('\\' :: t) = some (i + 1, x) ∧ i ≤ t.length ∧
      ∃ w', argWord false false (t.drop i) = .ok (w', p.2) ∧ p.1 = x :: w' := by
  cases hb : backSlash ('\\' :: t) with
  | none => simp [argWord, scanWord, hb, Except.map] at h
  | some q =>
    obtain ⟨_ | i, x⟩ := q
    · simp [argWord, scanWord, hb, Except.map] at h
    by_cases hi : i ≤ t.length
    · refine ⟨i, x, rfl, hi, ?_⟩
      have ht : t = t.take i ++ t.drop i := (List.take_append_drop i t).symm
      have hlen : (t.take i).length = i := by simp [hi]
      rw [ht, argWord_esc (x := x) (by rw [← ht, hlen]; exact hb)] at h
      cases hw : argWord false false (t.drop i) with
      | error e =>
        rw [hw] at h
        cases h
      | ok q =>
        rw [hw] at h
        cases h
        exact ⟨q.1, rfl, rfl⟩
    · exfalso
      have hf : ∀ (k : ℕ) (u : Str), u.length < k → scanWord false false k u = .error .fault := by
        intro k u
        induction u generalizing k with
        | nil =>
          intro hk
          obtain _ | k := k
          · cases hk
          · rfl
        | cons c u ih =>
          intro hk
          obtain _ | k := k
          · cases hk
          · rw [scanWord, ih k (by simpa using hk)]
            rfl
      simp [argWord, scanWord, hb, Except.map, hf i t (by omega)] at h

/-- A `\x` with one digit at the end of a word takes the blank, and the next word is read with it. -/
theorem argWord_tail {d : Char} (hr : Follow r) {p : Str × Str} (hle : 3 ≤ (['x', d] ++ r).length)
    (h : argWord false false ((['x', d] ++ r).drop 3) = .ok p) : p.1.length ≤ 2 ∧ ∀ c ∈ p.1.head?, c ≠ 'x' := by
  rcases hr with rfl | ⟨c, v, t, rfl, hc, hv, -, -, -, hx, -⟩
  · simp at hle
  · have hd : (['x', d] ++ (' ' :: c :: v ++ ' ' :: t)).drop 3 = (c :: v) ++ ' ' :: t := rfl
    rw [hd, argWord_clean hc fun a u he => (List.cons.inj he).1.symm] at h
    cases h
    refine ⟨by simpa using hv, fun a ha => ?_⟩
    cases ha
    exact hx

/-- What is read is not longer than the word. -/
theorem length_argWord (hr : Follow r) {p : Str × Str} (h : argWord false false (y ++ r) = .ok p) : p.1.length ≤ y.length := by
  induction hn : y.length using Nat.strong_induction_on generalizing y p with
  | _ n ih =>
    subst hn
    cases y with
    | nil =>
      rw [List.nil_append, argWord_stop hr.head] at h
      cases h
      exact le_refl _
    | cons c y =>
      by_cases hb : c = '\\'
      · subst hb
        rw [List.cons_append] at h
        obtain ⟨i, x, hbs, hi, w', hw', hp⟩ := argWord_esc_ok h
        obtain ⟨h1, -⟩ := backSlash_range hbs
        rw [hp, List.length_cons, List.length_cons]
        rcases esc_inside hr hbs with hle | ⟨d, rfl, rfl⟩
        · rw [List.drop_append_of_le_length hle] at hw'
          have hlen : (y.drop i).length < ('\\' :: y).length := by simp only [List.length_drop, List.length_cons]; omega
          have := ih _ hlen hw' rfl
          rw [List.length_drop] at this
          simp only at this
          omega
        · have := (argWord_tail hr hi hw').1
          simp only [List.length_cons, List.length_nil] at this ⊢
          omega
      · by_cases hs : isspace c = true
        · rw [argWord_end (fun a u he => by cases he; exact hs) fun hq => by cases hq] at h
          cases h
          exact Nat.zero_le _
        · rw [List.cons_append, argWord_plain ⟨hb, by simpa using hs⟩] at h
          cases hw : argWord false false (y ++ r) with
          | error e =>
            rw [hw] at h
            cases h
          | ok q =>
            rw [hw] at h
            cases h
            have := ih _ (by simp) hw rfl
            simpa using this

/-- Only a clean word is read as it is. -/
theorem clean_of_argWord (hr : Follow r) {r' : Str} (h : argWord false false (w ++ r) = .ok (w, r')) : Clean w := by
  induction w with
  | nil => exact fun c hc => absurd hc List.not_mem_nil
  | cons c w ih =>
    have hb : c ≠ '\\' := by
      rintro rfl
      rw [List.cons_append] at h
      obtain ⟨i, x, hbs, hi, w', hw', hp⟩ := argWord_esc_ok h
      obtain ⟨-, rfl⟩ := List.cons.inj hp
      obtain ⟨h1, -⟩ := backSlash_range hbs
      rcases esc_inside hr hbs with hle | ⟨d, rfl, rfl⟩
      · rw [List.drop_append_of_le_length hle] at hw'
        have := length_argWord hr hw'
        rw [List.length_drop] at this
        simp only at this
        omega
      · exact (argWord_tail hr hi hw').2 'x' rfl rfl
    have hs : isspace c = false := by
      by_contra hs
      rw [Bool.not_eq_false] at hs
      rw [argWord_end (fun a u he => by cases he; exact hs) fun hq => by cases hq] at h
      cases h
    have hplain : Plain false c := ⟨hb, hs⟩
    rw [List.cons_append, argWord_plain hplain] at h
    have hw : argWord false false (w ++ r) = .ok (w, r') := by
      cases hw : argWord false false (w ++ r) with
      | error e =>
        rw [hw] at h
        cases h
      | ok q =>
        rw [hw] at h
        cases h
        rfl
    intro a ha
    rcases List.mem_cons.mp ha with rfl | ha
    · exact ⟨hb, hs⟩
    · exact ih hw a ha

end Clean

/-! ## Words in quotes -/

section Quoted

variable {w r t : Str} {c : Char}

/-- A character that `vsb_quote` writes as one or two digits. -/
def Short (c : Char) : Prop := c.toNat < 32 ∧ c ≠ '\n' ∧ c ≠ '\r' ∧ c ≠ '\t'

instance (c : Char) : Decidable (Short c) := inferInstanceAs (Decidable (c.toNat < 32 ∧ c ≠ '\n' ∧ c ≠ '\r' ∧ c ≠ '\t'))

/-- No such character is in front of a digit. -/
def NoShort (w : Str) : Prop := w.IsChain fun c d => Short c → isOct d = false

instance (w : Str) : Decidable (NoShort w) := inferInstanceAs (Decidable (w.IsChain fun c d => Short c → isOct d = false))

/-- A character of a C string. -/
def Byte (c : Char) : Prop := 0 < c.toNat ∧ c.toNat < 256

instance (c : Char) : Decidable (Byte c) := inferInstanceAs (Decidable (0 < c.toNat ∧ c.toNat < 256))

theorem toDigits_oct : ∀ n < 256, 0 < n → (Nat.toDigits 8 n).all isOct = true ∧ (Nat.toDigits 8 n).length ≤ 3 ∧
    (64 ≤ n → (Nat.toDigits 8 n).length = 3) ∧ (n < 64 → (Nat.toDigits 8 n).length ≤ 2) ∧ Nat.toDigits 8 n ≠ [] ∧
    (Nat.toDigits 8 n).foldl (fun v d => v * 8 + (d.toNat - '0'.toNat)) 0 % 256 = n := by
  decide +kernel

theorem backSlash_oct {b : Char} (h : isOct c = true) :
    backSlash (b :: c :: t) = some (1 + (((c :: t).take 3).takeWhile isOct).length,
      Char.ofNat ((((c :: t).take 3).takeWhile isOct).foldl (fun v d => v * 8 + (d.toNat - '0'.toNat)) 0 % 256)) := by
  have hne : ∀ d : Char, isOct d = false → c ≠ d := by
    rintro d hd rfl
    rw [h] at hd
    cases hd
  unfold backSlash
  split
  case h_6 heq =>
    cases heq
    rw [if_pos h]
  case h_7 hn => exact absurd rfl (hn b c t)
  all_goals
    rename_i heq
    cases heq
    exact absurd rfl (hne _ (by decide))

/-- How `vsb_quote` writes a character. -/
theorem quoteChar_cases (hc : Byte c) : (quoteChar c = [c] ∧ Plain true c ∧ ¬ Short c) ∨
    (∃ d, quoteChar c = ['\\', d] ∧ (∀ t, backSlash ('\\' :: d :: t) = some (2, c)) ∧ ¬ Short c) ∨
    (quoteChar c = '\\' :: Nat.toDigits 8 c.toNat ∧ (Short c ∧ c.toNat < 64 ∨ ¬ Short c ∧ 64 ≤ c.toNat)) := by
  by_cases h1 : c = ' '
  · subst h1
    exact .inl ⟨rfl, ⟨by decide, by decide⟩, fun h => absurd h.1 (by decide)⟩
  by_cases h2 : c = '\\'
  · subst h2
    exact .inr (.inl ⟨'\\', rfl, fun _ => rfl, fun h => absurd h.1 (by decide)⟩)
  by_cases h3 : c = '"'
  · subst h3
    exact .inr (.inl ⟨'"', rfl, fun _ => rfl, fun h => absurd h.1 (by decide)⟩)
  by_cases h4 : c = '\n'
  · subst h4
    exact .inr (.inl ⟨'n', rfl, fun _ => rfl, fun h => h.2.1 rfl⟩)
  by_cases h5 : c = '\r'
  · subst h5
    exact .inr (.inl ⟨'r', rfl, fun _ => rfl, fun h => h.2.2.1 rfl⟩)
  by_cases h6 : c = '\t'
  · subst h6
    exact .inr (.inl ⟨'t', rfl, fun _ => rfl, fun h => h.2.2.2 rfl⟩)
  have hq : quoteChar c = if isgraph c then [c] else '\\' :: Nat.toDigits 8 (c.toNat &&& 0xff) := by
    simp [quoteChar, h1, h2, h3, h4, h5, h6]
  rw [hq]
  by_cases hg : isgraph c = true
  · rw [if_pos hg]
    have : 33 ≤ c.toNat := by
      rw [isgraph, Bool.and_eq_true, decide_eq_true_eq] at hg
      exact hg.1
    exact .inl ⟨rfl, ⟨h2, h3⟩, fun h => absurd h.1 (by omega)⟩
  · rw [if_neg hg]
    have hmod : c.toNat &&& 0xff = c.toNat := by
      rw [show (0xff : ℕ) = 2 ^ 8 - 1 from rfl, Nat.and_two_pow_sub_one_eq_mod, Nat.mod_eq_of_lt hc.2]
    have h32 : c.toNat ≠ 32 := by
      intro h
      apply h1
      rw [← Char.ofNat_toNat c, h]
    have hng : ¬ (33 ≤ c.toNat ∧ c.toNat ≤ 126) := by simpa [isgraph] using hg
    rw [hmod]
    refine .inr (.inr ⟨rfl, ?_⟩)
    by_cases hlt : c.toNat < 32
    · exact .inl ⟨⟨hlt, h4, h5, h6⟩, by omega⟩
    · exact .inr ⟨fun h => hlt h.1, by omega⟩

/-- The digits of an escape, when the text goes on with something else or there are three of them. -/
theorem backSlash_digits (hc : Byte c) (ht : 64 ≤ c.toNat ∨ ∀ d t', t = d :: t' → isOct d = false) :
    backSlash ('\\' :: (Nat.toDigits 8 c.toNat ++ t)) = some ((Nat.toDigits 8 c.toNat).length + 1, c) := by
  obtain ⟨hall, h3, h64, -, hne, hval⟩ := toDigits_oct c.toNat hc.2 hc.1
  generalize Nat.toDigits 8 c.toNat = ds at *
  obtain ⟨d, ds, rfl⟩ := List.exists_cons_of_ne_nil hne
  rw [List.all_eq_true] at hall
  have htake : ((d :: (ds ++ t)).take 3).takeWhile isOct = d :: ds := by
    rw [← List.cons_append, List.take_append, List.take_of_length_le h3,
      List.takeWhile_append_of_pos fun a ha => hall a ha]
    have hrest : (t.take (3 - (d :: ds).length)).takeWhile isOct = [] := by
      rcases ht with h | h
      · rw [h64 h]
        simp
      · cases t with
        | nil => simp
        | cons a t =>
          have ha := h a t rfl
          generalize 3 - (d :: ds).length = k
          cases k with
          | zero => rfl
          | succ k => rw [List.take_succ_cons, List.takeWhile_cons_of_neg (by simp [ha])]
    rw [hrest, List.append_nil]
  rw [List.cons_append, backSlash_oct (hall d List.mem_cons_self), htake, hval, Char.ofNat_toNat, Nat.add_comm]

/-- What follows in the text. -/
theorem quote_head (hw : ∀ c ∈ w, Byte c) (h : ∀ d w', w = d :: w' → isOct d = false) :
    ∀ d t', w.flatMap quoteChar ++ '"' :: r = d :: t' → isOct d = false := by
  intro d t' he
  cases w with
  | nil =>
    cases he
    rfl
  | cons c w =>
    rw [List.flatMap_cons, List.append_assoc] at he
    rcases quoteChar_cases (hw c List.mem_cons_self) with ⟨hq, -⟩ | ⟨x, hq, -⟩ | ⟨hq, -⟩
    · rw [hq] at he
      cases he
      exact h _ _ rfl
    · rw [hq] at he
      cases he
      rfl
    · rw [hq] at he
      cases he
      rfl

/-- A word in quotes is read, if no escape is in front of a digit. -/
theorem argWord_quoted (hw : ∀ c ∈ w, Byte c) (hs : NoShort w) :
    argWord false true (w.flatMap quoteChar ++ '"' :: r) = .ok (w, '"' :: r) := by
  induction w with
  | nil => exact argWord_end (fun c t he => by cases he; rfl) fun _ => List.cons_ne_nil _ _
  | cons c w ih =>
    have ih := ih (fun d hd => hw d (List.mem_cons_of_mem _ hd)) hs.tail
    rw [List.flatMap_cons, List.append_assoc]
    have hc := hw c List.mem_cons_self
    rcases quoteChar_cases hc with ⟨hq, hp, -⟩ | ⟨x, hq, hb, -⟩ | ⟨hq, hsh⟩
    · rw [hq, List.singleton_append, argWord_plain hp, ih]
      rfl
    · rw [hq]
      have hesc : argWord false true (['\\', x] ++ (w.flatMap quoteChar ++ '"' :: r)) = _ := argWord_esc (e := [x]) (hb _)
      rw [hesc, ih]
      rfl
    · rw [hq, List.cons_append, argWord_esc (x := c), ih]
      · rfl
      refine backSlash_digits hc ?_
      rcases hsh with ⟨hsh, -⟩ | ⟨-, h64⟩
      · refine .inr (quote_head (fun d hd => hw d (List.mem_cons_of_mem _ hd)) fun d w' he => ?_)
        subst he
        exact (List.isChain_cons_cons.mp hs).1 hsh
      · exact .inl h64

theorem quoteChar_oct (h : isOct c = true) : quoteChar c = [c] := by
  have hlo : 48 ≤ c.toNat := by
    have : '0' ≤ c := by simp_all [isOct]
    exact this
  have hhi : c.toNat ≤ 55 := by
    have : c ≤ '7' := by simp_all [isOct]
    exact this
  have hne : ∀ d : Char, isOct d = false → c ≠ d := by
    rintro d hd rfl
    rw [h] at hd
    cases hd
  have hg : isgraph c = true := by
    rw [isgraph, Bool.and_eq_true, decide_eq_true_eq, decide_eq_true_eq]
    omega
  simp [quoteChar, hg, hne ' ' rfl, hne '\\' rfl, hne '"' rfl, hne '\n' rfl, hne '\r' rfl, hne '\t' rfl]

/-- The digits that an escape can go on with are characters of the word. -/
theorem takeWhile_quote (hw : ∀ c ∈ w, Byte c) (k : ℕ) :
    ((w.flatMap quoteChar ++ '"' :: r).take k).takeWhile isOct = (w.take k).takeWhile isOct := by
  induction w generalizing k with
  | nil =>
    cases k with
    | zero => rfl
    | succ k => rfl
  | cons c w ih =>
    cases k with
    | zero => rfl
    | succ k =>
      rw [List.flatMap_cons, List.append_assoc, List.take_succ_cons]
      by_cases ho : isOct c = true
      · have hq : quoteChar c = [c] := quoteChar_oct ho
        rw [hq, List.singleton_append, List.take_succ_cons, List.takeWhile_cons_of_pos ho, List.takeWhile_cons_of_pos ho,
          ih (fun d hd => hw d (List.mem_cons_of_mem _ hd))]
      · rw [List.takeWhile_cons_of_neg ho]
        rcases quoteChar_cases (hw c List.mem_cons_self) with ⟨hq, -⟩ | ⟨x, hq, -⟩ | ⟨hq, -⟩
        · rw [hq, List.singleton_append, List.take_succ_cons, List.takeWhile_cons_of_neg ho]
        · rw [hq]
          rfl
        · rw [hq]
          rfl

theorem flatMap_quote_oct (h : ∀ c ∈ w, isOct c = true) : w.flatMap quoteChar = w := by
  induction w with
  | nil => rfl
  | cons c w ih =>
    rw [List.flatMap_cons, quoteChar_oct (h c List.mem_cons_self), ih fun d hd => h d (List.mem_cons_of_mem _ hd),
      List.singleton_append]

/-- An escape of digits takes `j` characters of the word behind it, and at least one if it has room for a digit there. -/
theorem argWord_digits (hc : Byte c) (hw : ∀ d ∈ w, Byte d) :
    ∃ j x, j ≤ w.length ∧ (c.toNat < 64 → (∃ d w', w = d :: w' ∧ isOct d = true) → 0 < j) ∧
      argWord false true ('\\' :: (Nat.toDigits 8 c.toNat ++ (w.flatMap quoteChar ++ '"' :: r))) =
        (argWord false true ((w.drop j).flatMap quoteChar ++ '"' :: r)).map fun p => (x :: p.1, p.2) := by
  obtain ⟨hall, h3, -, h64, hne, -⟩ := toDigits_oct c.toNat hc.2 hc.1
  generalize Nat.toDigits 8 c.toNat = ds at *
  rw [List.all_eq_true] at hall
  set k := 3 - ds.length with hk
  set more := (w.take k).takeWhile isOct with hmore
  have hmo : ∀ d ∈ more, isOct d = true := List.all_eq_true.mp List.all_takeWhile
  have hsplit : w = more ++ w.drop more.length := by
    have hpre : more <+: w := (List.takeWhile_prefix _).trans (List.take_prefix _ _)
    obtain ⟨t, ht⟩ := hpre
    rw [← ht, List.drop_left]
  have htake : ((ds ++ (w.flatMap quoteChar ++ '"' :: r)).take 3).takeWhile isOct = ds ++ more := by
    rw [List.take_append, List.take_of_length_le h3, List.takeWhile_append_of_pos hall, takeWhile_quote hw]
  obtain ⟨d, ds, rfl⟩ := List.exists_cons_of_ne_nil hne
  have hb := backSlash_oct (b := '\\') (t := ds ++ (w.flatMap quoteChar ++ '"' :: r)) (hall d List.mem_cons_self)
  rw [← List.cons_append, htake] at hb
  refine ⟨more.length, Char.ofNat ((d :: ds ++ more).foldl (fun v d => v * 8 + (d.toNat - '0'.toNat)) 0 % 256), ?_, fun h => ?_, ?_⟩
  · rw [hsplit]
    simp
  · rintro ⟨a, w', rfl, ha⟩
    have : 0 < k := by
      have := h64 h
      omega
    obtain ⟨k, hk'⟩ := Nat.exists_eq_succ_of_ne_zero (Nat.pos_iff_ne_zero.mp this)
    rw [hmore, hk', List.take_succ_cons, List.takeWhile_cons_of_pos ha]
    simp
  · have hflat : w.flatMap quoteChar = more ++ (w.drop more.length).flatMap quoteChar := by
      rw [← flatMap_quote_oct hmo, ← List.flatMap_append, flatMap_quote_oct hmo, ← hsplit]
    rw [hflat, List.append_assoc, ← List.append_assoc, argWord_esc]
    rw [List.append_assoc, ← List.append_assoc more, ← hflat, hb, Nat.add_comm]

/-- What is read is not longer than the word that was written. -/
theorem length_argWord_quoted (hw : ∀ c ∈ w, Byte c) {p : Str × Str}
    (h : argWord false true (w.flatMap quoteChar ++ '"' :: r) = .ok p) : p.1.length ≤ w.length := by
  induction hn : w.length using Nat.strong_induction_on generalizing w p with
  | _ n ih =>
    subst hn
    cases w with
    | nil =>
      rw [List.flatMap_nil, List.nil_append, argWord_end (fun c t he => by cases he; rfl) fun _ => List.cons_ne_nil _ _] at h
      cases h
      exact le_refl _
    | cons c w =>
      have hw' : ∀ d ∈ w, Byte d := fun d hd => hw d (List.mem_cons_of_mem _ hd)
      have hstep : ∃ j x, argWord false true ((c :: w).flatMap quoteChar ++ '"' :: r) =
          (argWord false true ((w.drop j).flatMap quoteChar ++ '"' :: r)).map fun p => (x :: p.1, p.2) := by
        rw [List.flatMap_cons, List.append_assoc]
        rcases quoteChar_cases (hw c List.mem_cons_self) with ⟨hq, hp, -⟩ | ⟨x, hq, hb, -⟩ | ⟨hq, -⟩
        · rw [hq, List.singleton_append, argWord_plain hp]
          exact ⟨0, c, rfl⟩
        · rw [hq]
          exact ⟨0, c, argWord_esc (e := [x]) (hb _)⟩
        · obtain ⟨j, x, -, -, he⟩ := argWord_digits (r := r) (hw c List.mem_cons_self) hw'
          rw [hq, List.cons_append, he]
          exact ⟨j, x, rfl⟩
      obtain ⟨j, x, he⟩ := hstep
      rw [he] at h
      cases hr : argWord false true ((w.drop j).flatMap quoteChar ++ '"' :: r) with
      | error e =>
        rw [hr] at h
        cases h
      | ok q =>
        rw [hr] at h
        cases h
        have := ih (w.drop j).length (by simp only [List.length_drop, List.length_cons]; omega)
          (fun d hd => hw' d (List.mem_of_mem_drop hd)) hr rfl
        simp only [List.length_drop, List.length_cons] at this ⊢
        omega

/-- In no other case is the word read as it was written: the escape takes a character of the word with it. -/
theorem noShort_of_argWord (hw : ∀ c ∈ w, Byte c) {r' : Str}
    (h : argWord false true (w.flatMap quoteChar ++ '"' :: r) = .ok (w, r')) : NoShort w := by
  induction w with
  | nil => exact List.isChain_nil
  | cons c w ih =>
    have hc := hw c List.mem_cons_self
    have hw' : ∀ d ∈ w, Byte d := fun d hd => hw d (List.mem_cons_of_mem _ hd)
    rw [List.flatMap_cons, List.append_assoc] at h
    have hrest : ∀ {x : Char} {u : Str}, (argWord false true u).map (fun p => (x :: p.1, p.2)) = .ok (c :: w, r') →
        argWord false true u = .ok (w, r') := by
      intro x u hu
      cases hr : argWord false true u with
      | error e =>
        rw [hr] at hu
        cases hu
      | ok q =>
        rw [hr] at hu
        cases hu
        rfl
    rw [NoShort, List.isChain_cons]
    rcases quoteChar_cases hc with ⟨hq, hp, hsh⟩ | ⟨x, hq, hb, hsh⟩ | ⟨hq, hsh⟩
    · rw [hq, List.singleton_append, argWord_plain hp] at h
      exact ⟨fun d _ hs => absurd hs hsh, ih hw' (hrest h)⟩
    · have hesc : argWord false true (['\\', x] ++ (w.flatMap quoteChar ++ '"' :: r)) = _ := argWord_esc (e := [x]) (hb _)
      rw [hq, hesc] at h
      exact ⟨fun d _ hs => absurd hs hsh, ih hw' (hrest h)⟩
    · obtain ⟨j, x, hj, hpos, he⟩ := argWord_digits (r := r) hc hw'
      rw [hq, List.cons_append, he] at h
      have hlen := length_argWord_quoted (fun d hd => hw' d (List.mem_of_mem_drop hd)) (hrest h)
      rw [List.length_drop] at hlen
      simp only at hlen
      obtain rfl : j = 0 := by omega
      refine ⟨fun d hd hs => ?_, ih hw' (hrest h)⟩
      by_contra ho
      rw [Bool.not_eq_false] at ho
      obtain ⟨w', rfl⟩ := List.head?_eq_some_iff.mp hd
      have h64 : c.toNat < 64 := by
        rcases hsh with ⟨-, h⟩ | ⟨hn, -⟩
        · exact h
        · exact absurd hs hn
      exact absurd (hpos h64 ⟨d, w', rfl, ho⟩) (lt_irrefl 0)

end Quoted

end Varnish.Ban
