import Mathlib.Algebra.Group.Nat.Defs
import Mathlib.Data.List.Basic
import Varnish.Lib.CString
import Varnish.Lib.Strtoul

/-!
# Varnish.Lib.Scanf — directives of `sscanf`

A directive reads a part of a text, and gives a value and what is left.

* `Scanner`, `pair`: directives, and one behind the other.
* `literal`, `space`, `float`, `unsigned`: some directives; an `unsigned long` has 64 bits.
* `Steady`: what a directive has read stays so when something is added behind a rest.  `steady_pair` puts two together.
* `decimal`, `left`: `%d` and `%-8d` of `snprintf`.  `unsigned_decimal`: what was printed is read.
-/

namespace Varnish.Lib.Scanf

open Strtoul (ulong)

abbrev Scanner (α : Type) := List UInt8 → Option (α × List UInt8)

variable {α β : Type}

/-! ## Directives -/

section Directives

/-- One directive, and then another. -/
def pair (f : Scanner α) (g : α → Scanner β) : Scanner β := fun l => (f l).bind fun r => g r.1 r.2

/-- Nothing is read. -/
def give (a : α) : Scanner α := fun l => some (a, l)

/-- The characters of the format. -/
def literal : List UInt8 → Scanner Unit
  | [], l => some ((), l)
  | _ :: _, [] => none
  | c :: t, d :: l => if d = c then literal t l else none

def space : Scanner Unit := fun l => some ((), l.dropWhile bspace)

/-- A sign; true for a minus. -/
def sign : Scanner Bool
  | [] => some (false, [])
  | c :: l => if c = 45 then some (true, l) else if c = 43 then some (false, l) else some (false, c :: l)

def isDigit (c : UInt8) : Bool := 48 ≤ c.toNat && c.toNat ≤ 57

/-- At least one digit. -/
def digits : Scanner (List UInt8) := fun l =>
  if l.takeWhile isDigit = [] then none else some (l.takeWhile isDigit, l.dropWhile isDigit)

def number (ds : List UInt8) : ℕ := ds.foldl (fun n c => 10 * n + (c.toNat - 48)) 0

/-- `%u` -/
def unsigned : Scanner UInt32 :=
  pair space fun _ => pair sign fun neg => pair digits fun ds => give (UInt32.ofNat (ulong neg (number ds)))

/-- How much of a floating-point number was read. -/
inductive FloatState
  | start
  | sign
  | zero
  | int
  /-- A point without digits. -/
  | dot
  | frac
  | exp
  | expSign
  | expDigits
  | hex
  | hexInt
  | hexDot
  | hexFrac
  | infinity (k : ℕ)
  | nan (k : ℕ)
  | nanSeq
  | nanEnd

def isHex (c : UInt8) : Bool := (CString.digit 16 c).isSome

/-- `infinity` -/
def infinityText : List UInt8 := [105, 110, 102, 105, 110, 105, 116, 121]

def nanText : List UInt8 := [110, 97, 110]

/-- The first character behind the sign. -/
def floatLead (c : UInt8) : Option FloatState :=
  if c = 48 then some .zero
  else if isDigit c then some .int
  else if c = 46 then some .dot
  else if lower c = 105 then some (.infinity 1)
  else if lower c = 110 then some (.nan 1)
  else none

/-- The integer part goes on, or something follows it. -/
def floatInt (c : UInt8) : Option FloatState :=
  if isDigit c then some .int
  else if c = 46 then some .frac
  else if lower c = 101 then some .exp
  else none

/-- A character is read when what was read is the beginning of a number with it. -/
def floatStep : FloatState → UInt8 → Option FloatState
  | .start, c => if c = 43 ∨ c = 45 then some .sign else floatLead c
  | .sign, c => floatLead c
  | .zero, c => if lower c = 120 then some .hex else floatInt c
  | .int, c => floatInt c
  | .dot, c => if isDigit c then some .frac else none
  | .frac, c => if isDigit c then some .frac else if lower c = 101 then some .exp else none
  | .exp, c => if c = 43 ∨ c = 45 then some .expSign else if isDigit c then some .expDigits else none
  | .expSign, c => if isDigit c then some .expDigits else none
  | .expDigits, c => if isDigit c then some .expDigits else none
  | .hex, c => if isHex c then some .hexInt else if c = 46 then some .hexDot else none
  | .hexInt, c => if isHex c then some .hexInt else if c = 46 then some .hexFrac else if lower c = 112 then some .exp else none
  | .hexDot, c => if isHex c then some .hexFrac else none
  | .hexFrac, c => if isHex c then some .hexFrac else if lower c = 112 then some .exp else none
  | .infinity k, c => if infinityText[k]? = some (lower c) then some (.infinity (k + 1)) else none
  | .nan k, c => if nanText[k]? = some (lower c) then some (.nan (k + 1)) else if k = 3 ∧ c = 40 then some .nanSeq else none
  | .nanSeq, c =>
    if isDigit c ∨ c = 95 ∨ (97 ≤ (lower c).toNat ∧ (lower c).toNat ≤ 122) then some .nanSeq else if c = 41 then some .nanEnd else none
  | .nanEnd, _ => none

/-- What was read is a number. -/
def floatEnd : FloatState → Bool
  | .zero | .int | .frac | .expDigits | .hexInt | .hexFrac | .nanEnd => true
  | .infinity k => k = 3 || k = 8
  | .nan k => k = 3
  | _ => false

def floatLoop : FloatState → Scanner Unit
  | s, [] => if floatEnd s then some ((), []) else none
  | s, c :: l =>
    match floatStep s c with
    | some s' => floatLoop s' l
    | none => if floatEnd s then some ((), c :: l) else none

/-- `%*f` -/
def float : Scanner Unit := pair space fun _ => floatLoop .start

end Directives

/-! ## What was read stays so -/

section Steady

/-- Nothing is read from nothing, and where something is left what was read does not depend on what comes behind it. -/
structure Steady (f : Scanner α) : Prop where
  nil : ∀ a rest, f [] = some (a, rest) → rest = []
  append : ∀ l a rest x, f l = some (a, rest) → rest ≠ [] → f (l ++ x) = some (a, rest ++ x)

theorem steady_pair {f : Scanner α} {g : α → Scanner β} (hf : Steady f) (hg : ∀ a, Steady (g a)) : Steady (pair f g) where
  nil := by
    intro b rest h
    obtain ⟨⟨a, r⟩, hr, h⟩ := Option.bind_eq_some_iff.mp h
    obtain rfl := hf.nil a r hr
    exact (hg a).nil b rest h
  append := by
    intro l b rest x h hne
    obtain ⟨⟨a, r⟩, hr, h⟩ := Option.bind_eq_some_iff.mp h
    have hrne : r ≠ [] := by
      intro he
      subst he
      exact hne ((hg a).nil b rest h)
    rw [pair, hf.append l a r x hr hrne]
    exact (hg a).append r b rest x h hne

theorem steady_give (a : α) : Steady (give a) where
  nil := by
    intro b rest h
    cases h
    rfl
  append := by
    intro l b rest x h _
    cases h
    rfl

theorem steady_literal (t : List UInt8) : Steady (literal t) where
  nil := by
    intro a rest h
    cases t with
    | nil =>
      cases h
      rfl
    | cons c t => cases h
  append := by
    induction t with
    | nil =>
      intro l a rest x h _
      cases h
      rfl
    | cons c t ih =>
      intro l a rest x h hne
      cases l with
      | nil => cases h
      | cons d l =>
        rw [literal] at h
        rw [List.cons_append, literal]
        split at h
        · rename_i hd
          rw [if_pos hd]
          exact ih l a rest x h hne
        · cases h

theorem dropWhile_append_ne {p : UInt8 → Bool} {l : List UInt8} (h : l.dropWhile p ≠ []) (x : List UInt8) :
    (l ++ x).dropWhile p = l.dropWhile p ++ x := by
  rw [List.dropWhile_append, if_neg]
  rwa [List.isEmpty_iff]

theorem takeWhile_append_ne {p : UInt8 → Bool} {l : List UInt8} (h : l.dropWhile p ≠ []) (x : List UInt8) :
    (l ++ x).takeWhile p = l.takeWhile p := by
  rw [List.takeWhile_append, if_neg]
  intro he
  refine h (List.eq_nil_of_length_eq_zero ?_)
  have hlen := congrArg List.length (List.takeWhile_append_dropWhile (p := p) (l := l))
  rw [List.length_append] at hlen
  omega

theorem steady_space : Steady space where
  nil := by
    intro a rest h
    cases h
    rfl
  append := by
    intro l a rest x h hne
    cases h
    rw [space, dropWhile_append_ne hne]

theorem steady_sign : Steady sign where
  nil := by
    intro a rest h
    cases h
    rfl
  append := by
    intro l a rest x h hne
    cases l with
    | nil =>
      cases h
      exact absurd rfl hne
    | cons c l =>
      rw [sign] at h
      rw [List.cons_append, sign]
      split at h
      · rename_i hc
        rw [if_pos hc]
        cases h
        rfl
      · rename_i hc
        rw [if_neg hc]
        split at h
        · rename_i hp
          rw [if_pos hp]
          cases h
          rfl
        · rename_i hp
          rw [if_neg hp]
          cases h
          rfl

theorem steady_digits : Steady digits where
  nil := by
    intro a rest h
    cases h
  append := by
    intro l a rest x h hne
    rw [digits] at h
    split at h
    · cases h
    · rename_i hd
      cases h
      rw [digits, takeWhile_append_ne hne, dropWhile_append_ne hne, if_neg hd]

theorem steady_unsigned : Steady unsigned :=
  steady_pair steady_space fun _ => steady_pair steady_sign fun _ => steady_pair steady_digits fun _ => steady_give _

theorem steady_floatLoop (s : FloatState) : Steady (floatLoop s) where
  nil := by
    intro a rest h
    rw [floatLoop] at h
    split at h
    · cases h
      rfl
    · cases h
  append := by
    intro l a rest x h hne
    induction l generalizing s with
    | nil =>
      rw [floatLoop] at h
      split at h
      · cases h
        exact absurd rfl hne
      · cases h
    | cons c l ih =>
      rw [floatLoop] at h
      rw [List.cons_append, floatLoop]
      cases hs : floatStep s c with
      | some s' =>
        rw [hs] at h
        exact ih s' h
      | none =>
        rw [hs] at h
        dsimp only at h ⊢
        split at h
        · rename_i he
          rw [if_pos he]
          cases h
          rfl
        · cases h

theorem steady_float : Steady float := steady_pair steady_space fun _ => steady_floatLoop .start

end Steady

/-! ## What was printed is read -/

section Print

variable {n : ℕ} {c : UInt8} {l r : List UInt8}

/-- `%d` of a number that is not negative -/
def decimal (n : ℕ) : List UInt8 := (Nat.toDigits 10 n).map fun c => UInt8.ofNat c.toNat

/-- Padded on the right to `w` characters. -/
def left (w : ℕ) (s : List UInt8) : List UInt8 := s ++ List.replicate (w - s.length) 32

theorem length_left {w : ℕ} {s : List UInt8} (h : s.length ≤ w) : (left w s).length = w := by
  rw [left, List.length_append, List.length_replicate]
  omega

theorem toNat_ofNat_char {c : Char} (h : c.isDigit = true) : (UInt8.ofNat c.toNat).toNat = c.toNat ∧ 48 ≤ c.toNat ∧ c.toNat ≤ 57 := by
  have hc : 48 ≤ c.toNat ∧ c.toNat ≤ 57 := by simpa [Char.isDigit, UInt32.le_iff_toNat_le] using h
  exact ⟨UInt8.toNat_ofNat_of_lt (Nat.lt_of_le_of_lt hc.2 (by decide)), hc⟩

theorem isDigit_decimal : ∀ c ∈ decimal n, isDigit c = true := by
  intro c hc
  obtain ⟨d, hd, rfl⟩ := List.mem_map.mp hc
  obtain ⟨h1, h2⟩ := toNat_ofNat_char (Nat.isDigit_of_mem_toDigits (by decide) (by decide) hd)
  rw [isDigit, h1, Bool.and_eq_true, decide_eq_true_eq, decide_eq_true_eq]
  exact h2

theorem decimal_ne_nil (n : ℕ) : decimal n ≠ [] := fun h => Nat.toDigits_ne_nil (List.map_eq_nil_iff.mp h)

theorem length_decimal_le {k : ℕ} (hk : 0 < k) : (decimal n).length ≤ k ↔ n < 10 ^ k := by
  rw [decimal, List.length_map, Nat.length_toDigits_le_iff (by decide) hk]

theorem number_map (ds : List Char) (h : ∀ d ∈ ds, d.isDigit = true) (m : ℕ) :
    (ds.map fun c => UInt8.ofNat c.toNat).foldl (fun n c => 10 * n + (c.toNat - 48)) m = Nat.ofDigitChars 10 ds m := by
  induction ds generalizing m with
  | nil => rfl
  | cons d ds ih =>
    rw [List.map_cons, List.foldl_cons, ih (fun e he => h e (List.mem_cons_of_mem _ he)), Nat.ofDigitChars_cons,
      (toNat_ofNat_char (h d List.mem_cons_self)).1]
    rfl

theorem number_decimal (n : ℕ) : number (decimal n) = n := by
  rw [number, decimal, number_map _ (fun d hd => Nat.isDigit_of_mem_toDigits (by decide) (by decide) hd)]
  exact Nat.ofDigitChars_ten_toDigits

/-- A number is read to the first character that is no digit. -/
theorem digits_append (hl : ∀ c ∈ l, isDigit c = true) (hne : l ≠ []) (hr : ∀ c ∈ r.head?, isDigit c = false) :
    digits (l ++ r) = some (l, r) := by
  have htake : r.takeWhile isDigit = [] := by
    cases r with
    | nil => rfl
    | cons c r => exact List.takeWhile_cons_of_neg (by rw [hr c rfl]; exact Bool.false_ne_true)
  have hdrop : r.dropWhile isDigit = r := by
    cases r with
    | nil => rfl
    | cons c r => exact List.dropWhile_cons_of_neg (by rw [hr c rfl]; exact Bool.false_ne_true)
  rw [digits, List.takeWhile_append_of_pos hl, List.dropWhile_append_of_pos hl, htake, hdrop, List.append_nil, if_neg hne]

theorem space_of_isDigit (h : isDigit c = true) : bspace c = false ∧ c ≠ 45 ∧ c ≠ 43 := by
  rw [isDigit, Bool.and_eq_true, decide_eq_true_eq, decide_eq_true_eq] at h
  refine ⟨?_, ?_, ?_⟩
  · rw [Bool.eq_false_iff]
    intro hs
    rw [bspace, Bool.or_eq_true, decide_eq_true_eq, Bool.and_eq_true, decide_eq_true_eq, decide_eq_true_eq] at hs
    rcases hs with rfl | hs
    · exact absurd h.1 (by decide)
    · omega
  · rintro rfl
    exact absurd h.1 (by decide)
  · rintro rfl
    exact absurd h.1 (by decide)

theorem decimal_cons (n : ℕ) : ∃ c ds, decimal n = c :: ds ∧ isDigit c = true := by
  obtain ⟨c, ds, h⟩ := List.exists_cons_of_ne_nil (decimal_ne_nil n)
  exact ⟨c, ds, h, isDigit_decimal c (h ▸ List.mem_cons_self)⟩

/-- No blank is in front of a number. -/
theorem space_decimal (n : ℕ) (r : List UInt8) : space (decimal n ++ r) = some ((), decimal n ++ r) := by
  obtain ⟨c, ds, h, hc⟩ := decimal_cons n
  rw [h, space, List.cons_append, List.dropWhile_cons_of_neg (by rw [(space_of_isDigit hc).1]; exact Bool.false_ne_true)]

theorem sign_decimal (n : ℕ) (r : List UInt8) : sign (decimal n ++ r) = some (false, decimal n ++ r) := by
  obtain ⟨c, ds, h, hc⟩ := decimal_cons n
  obtain ⟨-, hm, hp⟩ := space_of_isDigit hc
  rw [h, List.cons_append, sign, if_neg hm, if_neg hp]

/-- **`%u` reads what `%d` has printed.** -/
theorem unsigned_decimal (hn : n < 2 ^ 32) (hr : ∀ c ∈ r.head?, isDigit c = false) :
    unsigned (decimal n ++ r) = some (UInt32.ofNat n, r) := by
  rw [unsigned, pair, space_decimal, Option.bind_some, pair, sign_decimal, Option.bind_some, pair,
    digits_append isDigit_decimal (decimal_ne_nil n) hr, Option.bind_some, give, number_decimal, ulong, if_neg (by omega),
    if_neg Bool.false_ne_true]

end Print

end Varnish.Lib.Scanf
