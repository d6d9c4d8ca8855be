import Mathlib.Data.List.TakeWhile
import Mathlib.Tactic.IntervalCases
import Varnish.Lib.Ctype

/-!
# Varnish.Lib.Strtoul — numbers as `strtoul` reads them and `%u` and `0x%x` print them

* `strtoul`: blanks, a sign, a base that is given or taken from the text, digits; an `unsigned long` of 64 bits.
* `number_toDigits`: the digits of a number are read as the number.
* `strtoul_plain`: a text that begins with a digit and has no `0x` is read as an octal or as a decimal number.
* `strtoul_decimal`, `strtoul_hex`: what was printed is read again.
-/

namespace Varnish.Lib.Strtoul

/-! ## Reading -/

section Read

/-- The value of a digit or a letter. -/
def digitVal (c : Char) : ℕ :=
  if 48 ≤ c.toNat ∧ c.toNat ≤ 57 then c.toNat - 48
  else if 97 ≤ c.toNat ∧ c.toNat ≤ 122 then c.toNat - 87
  else if 65 ≤ c.toNat ∧ c.toNat ≤ 90 then c.toNat - 55
  else 36

def isDigit (base : ℕ) (c : Char) : Bool := digitVal c < base

def number (base : ℕ) (ds : List Char) : ℕ := ds.foldl (fun n c => base * n + digitVal c) 0

/-- `+` and `-` -/
def signOf : List Char → Bool × List Char
  | '-' :: t => (true, t)
  | '+' :: t => (false, t)
  | t => (false, t)

/-- `0x` and `0X`, in front of a digit. -/
def hexPrefix : List Char → Bool
  | '0' :: x :: d :: _ => (x = 'x' || x = 'X') && isDigit 16 d
  | _ => false

/-- The base, and where the digits begin. -/
def numberBase (base : ℕ) (s : List Char) : ℕ × List Char :=
  if (base = 0 ∨ base = 16) ∧ hexPrefix s = true then (16, s.drop 2)
  else if base = 0 then (if s.head? = some '0' then 8 else 10, s)
  else (base, s)

/-- The value of the digits, as an `unsigned long`. -/
def ulong (neg : Bool) (n : ℕ) : ℕ :=
  if 2 ^ 64 ≤ n then 2 ^ 64 - 1 else if neg then (2 ^ 64 - n) % 2 ^ 64 else n

/-- `strtoul(s, NULL, base)` -/
def strtoul (base : ℕ) (s : List Char) : ℕ :=
  let (neg, s) := signOf (s.dropWhile isspace)
  let (base, s) := numberBase base s
  ulong neg (number base (s.takeWhile (isDigit base)))

end Read

/-! ## Digits -/

section Digits

variable {b d n : ℕ} {c : Char}

theorem isDigit_ten : isDigit 10 c = true ↔ 48 ≤ c.toNat ∧ c.toNat ≤ 57 := by
  unfold isDigit digitVal
  simp only [decide_eq_true_eq]
  split
  next h => omega
  next h1 =>
    split
    next h => omega
    next h2 =>
      split
      · omega
      · omega

theorem number_concat (base : ℕ) (u : List Char) (c : Char) : number base (u ++ [c]) = base * number base u + digitVal c := by
  unfold number
  rw [List.foldl_append, List.foldl_cons, List.foldl_nil]

theorem ulong_small (h : ulong false n < 2 ^ 32) : ulong false n = n := by
  unfold ulong at h ⊢
  by_cases hn : 2 ^ 64 ≤ n
  · rw [if_pos hn] at h
    omega
  · rw [if_neg hn, if_neg Bool.false_ne_true]

theorem ulong_of_lt (h : n < 2 ^ 64) : ulong false n = n := by
  unfold ulong
  rw [if_neg (by omega), if_neg Bool.false_ne_true]

theorem digitVal_digitChar (hd : d < 16) : digitVal (Nat.digitChar d) = d := by
  interval_cases d <;> rfl

/-- The digits of a number are read as the number. -/
theorem number_toDigits (hb : 1 < b) (hb16 : b ≤ 16) (n : ℕ) :
    (∀ c ∈ Nat.toDigits b n, isDigit b c = true) ∧ number b (Nat.toDigits b n) = n := by
  induction n using Nat.strong_induction_on with
  | _ n ih =>
    rw [Nat.toDigits_eq_if hb]
    split
    · next hn =>
      have hval : digitVal (Nat.digitChar n) = n := digitVal_digitChar (by omega)
      refine ⟨fun c hc => ?_, ?_⟩
      · rw [List.mem_singleton.mp hc, isDigit, hval]
        exact decide_eq_true hn
      · show b * 0 + digitVal (Nat.digitChar n) = n
        rw [hval, Nat.mul_zero, Nat.zero_add]
    · next hn =>
      have hmod : n % b < b := Nat.mod_lt n (by omega)
      have hval : digitVal (Nat.digitChar (n % b)) = n % b := digitVal_digitChar (by omega)
      obtain ⟨hall, hnum⟩ := ih (n / b) (Nat.div_lt_self (by omega) hb)
      refine ⟨fun c hc => ?_, ?_⟩
      · rcases List.mem_append.mp hc with hc | hc
        · exact hall c hc
        · rw [List.mem_singleton.mp hc, isDigit, hval]
          exact decide_eq_true hmod
      · rw [number_concat, hnum, hval]
        exact Nat.div_add_mod n b

/-- The digits of a number other than 0 do not begin with a 0. -/
theorem head_toDigits (hb : 1 < b) (hb16 : b ≤ 16) (hn : 0 < n) :
    ∃ d t, Nat.toDigits b n = Nat.digitChar d :: t ∧ 0 < d ∧ d < b := by
  induction n using Nat.strong_induction_on with
  | _ n ih =>
    rw [Nat.toDigits_eq_if hb]
    split
    · next h => exact ⟨n, [], rfl, hn, h⟩
    · next h =>
      have hlt : n / b < n := Nat.div_lt_self (by omega) hb
      obtain ⟨d, t, he, hd, hdb⟩ := ih (n / b) hlt (Nat.div_pos (by omega) (by omega))
      exact ⟨d, t ++ [Nat.digitChar (n % b)], by rw [he]; rfl, hd, hdb⟩

end Digits

/-! ## Texts -/

section Texts

variable {d : Char} {t v : List Char} {n : ℕ}

/-- Digits only. -/
def DigitsOnly (v : List Char) : Prop := v ≠ [] ∧ ∀ c ∈ v, isDigit 10 c = true

/-- No white space, no sign and no prefix: the text begins with a digit, and goes on without an `x`. -/
theorem plain_cons (hd : isDigit 10 d = true) (ht : ∀ x ∈ t.head?, x ≠ 'x' ∧ x ≠ 'X') :
    (d :: t).dropWhile isspace = d :: t ∧ signOf (d :: t) = (false, d :: t) ∧ hexPrefix (d :: t) = false := by
  have hd := isDigit_ten.1 hd
  have hne (x : Char) (hx : ¬ (48 ≤ x.toNat ∧ x.toNat ≤ 57)) : d ≠ x := fun he => hx (he ▸ hd)
  refine ⟨List.dropWhile_cons_of_neg ?_, ?_, ?_⟩
  · unfold isspace
    simp only [Bool.or_eq_true, decide_eq_true_eq, Bool.and_eq_true, not_or]
    exact ⟨hne ' ' (by decide), by omega⟩
  · unfold signOf
    split
    next u heq => exact absurd (List.cons.inj heq).1 (hne '-' (by decide))
    next u heq => exact absurd (List.cons.inj heq).1 (hne '+' (by decide))
    next => rfl
  · unfold hexPrefix
    split
    next x e u heq =>
      obtain ⟨hnx, hnX⟩ := ht x (by rw [(List.cons.inj heq).2]; rfl)
      simp [hnx, hnX]
    · rfl

theorem DigitsOnly.plain (h : DigitsOnly v) : v.dropWhile isspace = v ∧ signOf v = (false, v) ∧ hexPrefix v = false := by
  obtain ⟨d, t, rfl⟩ := List.exists_cons_of_ne_nil h.1
  refine plain_cons (h.2 d List.mem_cons_self) fun x hx => ?_
  have hx := isDigit_ten.1 (h.2 x (List.mem_cons_of_mem d (List.mem_of_mem_head? hx)))
  exact ⟨fun he => absurd hx (by rw [he]; decide), fun he => absurd hx (by rw [he]; decide)⟩

/-- A text that begins with a digit is read as an octal or as a decimal number. -/
theorem strtoul_plain (h : v.dropWhile isspace = v ∧ signOf v = (false, v) ∧ hexPrefix v = false) :
    strtoul 0 v = ulong false (number (if v.head? = some '0' then 8 else 10) (v.takeWhile (isDigit (if v.head? = some '0' then 8 else 10)))) := by
  obtain ⟨hsp, hsg, hpx⟩ := h
  have hbase : numberBase 0 v = (if v.head? = some '0' then 8 else 10, v) := by simp [numberBase, hpx]
  unfold strtoul
  rw [hsp, hsg]
  dsimp only
  rw [hbase]

theorem strtoul_ten (h : DigitsOnly v) : strtoul 10 v = ulong false (number 10 v) := by
  obtain ⟨hsp, hsg, -⟩ := h.plain
  have hbase : numberBase 10 v = (10, v) := by simp [numberBase]
  have htake : v.takeWhile (isDigit 10) = v := List.takeWhile_eq_self_iff.2 h.2
  unfold strtoul
  rw [hsp, hsg]
  dsimp only
  rw [hbase]
  dsimp only
  rw [htake]

theorem strtoul_zero (h : DigitsOnly v) :
    strtoul 0 v = ulong false (if v.head? = some '0' then number 8 (v.takeWhile (isDigit 8)) else number 10 v) := by
  have htake : v.takeWhile (isDigit 10) = v := List.takeWhile_eq_self_iff.2 h.2
  rw [strtoul_plain h.plain]
  by_cases h0 : v.head? = some '0'
  · rw [if_pos h0, if_pos h0]
  · rw [if_neg h0, if_neg h0, htake]

theorem strtoul_decimal (hn : n < 2 ^ 64) : strtoul 0 (Nat.toDigits 10 n) = n := by
  obtain ⟨hdigits, hnum⟩ := number_toDigits (b := 10) (by decide) (by decide) n
  rcases Nat.eq_zero_or_pos n with rfl | hpos
  · rfl
  · obtain ⟨d, t, he, hd, hdb⟩ := head_toDigits (b := 10) (by decide) (by decide) hpos
    have hne : Nat.toDigits 10 n ≠ [] := by
      rw [he]
      exact List.cons_ne_nil _ _
    have hhead : (Nat.toDigits 10 n).head? ≠ some '0' := by
      rw [he, List.head?_cons]
      interval_cases d <;> decide
    rw [strtoul_zero ⟨hne, hdigits⟩, if_neg hhead, hnum, ulong_of_lt hn]

theorem strtoul_hex (hn : n < 2 ^ 64) : strtoul 0 ('0' :: 'x' :: Nat.toDigits 16 n) = n := by
  obtain ⟨hdigits, hnum⟩ := number_toDigits (b := 16) (by decide) (by decide) n
  have hprefix : hexPrefix ('0' :: 'x' :: Nat.toDigits 16 n) = true := by
    cases h : Nat.toDigits 16 n with
    | nil => exact absurd h Nat.toDigits_ne_nil
    | cons c t => exact hdigits c (h ▸ List.mem_cons_self)
  have hbase : numberBase 0 ('0' :: 'x' :: Nat.toDigits 16 n) = (16, Nat.toDigits 16 n) := by
    rw [numberBase, if_pos ⟨.inl rfl, hprefix⟩]
    rfl
  have hsign : signOf (('0' :: 'x' :: Nat.toDigits 16 n).dropWhile isspace) = (false, '0' :: 'x' :: Nat.toDigits 16 n) := rfl
  rw [strtoul, hsign]
  dsimp only
  rw [hbase]
  dsimp only
  rw [List.takeWhile_eq_self_iff.mpr hdigits, hnum, ulong_of_lt hn]

end Texts

end Varnish.Lib.Strtoul
