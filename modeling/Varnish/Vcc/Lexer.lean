import Mathlib.Data.List.TakeWhile
import Varnish.Lib.Ctype
import Varnish.Vcc.Strings

/-!
# Varnish.Vcc.Lexer — the tokens of a VCL source (`vcc_token.c`, `vcc_fixed_token.c`)

A source is the bytes from `sp->b` to `sp->e`, behind which is a NUL.

* `vclFixedToken`, `lexStep`, `vccLexer`: the lexer; `lexStep` is a round of its loop.
* `Covers`: the tokens are apart from each other, white space and comments are between them, and strings are closed.
* `covers_of_closed`, `stray_of_open`: what becomes of a source, by whether the lexer comes to an open string.
* `vccLexer_iff`: it does what it should if and only if it comes to none.
-/

namespace Varnish.Vcc.Lexer

open Varnish.Lib (bspace)
open Varnish.Vcc.Strings (decstr)

/-! ## The lexer -/

section Lexer

inductive Tok
  | chr (c : UInt8)
  | tInclude
  | tIf
  | tElse
  | tElseif
  | tElsif
  | tInc
  | tDec
  | tCand
  | tCor
  | tLeq
  | tEq
  | tNeq
  | tGeq
  | tShr
  | tShl
  | tIncr
  | tDecr
  | tMul
  | tDiv
  | tNomatch
  | id
  | var
  | cnum
  | cstr
  | eoi
  | csrc
deriving DecidableEq

/-- `struct token`, with the places in the source; `dec` is the value of a string. -/
structure Token where
  tok : Tok
  b : ℕ
  e : ℕ
  dec : Option (List UInt8)
deriving DecidableEq

def ch (c : Char) : UInt8 := UInt8.ofNat c.toNat

/-- `p[i]` -/
def get (p : List UInt8) (i : ℕ) : UInt8 := p.getD i 0

def isalpha (c : UInt8) : Bool := (65 ≤ c.toNat && c.toNat ≤ 90) || (97 ≤ c.toNat && c.toNat ≤ 122)

def isdigit (c : UInt8) : Bool := 48 ≤ c.toNat && c.toNat ≤ 57

def isident1 (c : UInt8) : Bool := isalpha c

def isident (c : UInt8) : Bool := isalpha c || isdigit c || c = 95 || c = 45

def isvar (c : UInt8) : Bool := isident c || c = 46

/-- `M1` -/
def m1 (p : List UInt8) : Option (Tok × ℕ) := some (.chr (get p 0), 1)

/-- `M2`, with what comes behind it. -/
def m2 (p : List UInt8) (c : Char) (t : Tok) (next : Option (Tok × ℕ)) : Option (Tok × ℕ) :=
  if get p 1 = ch c then some (t, 2) else next

/-- The test for a keyword, with what comes behind it. -/
def keyword (p : List UInt8) (w : String) (t : Tok) (next : Option (Tok × ℕ)) : Option (Tok × ℕ) :=
  if (w.toList.map ch).isPrefixOf p && !isvar (get p w.toList.length) then some (t, w.toList.length) else next

/-- `vcl_fixed_token` -/
def vclFixedToken (p : List UInt8) : Option (Tok × ℕ) :=
  match Char.ofNat (get p 0).toNat with
  | '!' => m2 p '~' .tNomatch (m2 p '=' .tNeq (m1 p))
  | '%' => m1 p
  | '&' => m2 p '&' .tCand (m1 p)
  | '(' => m1 p
  | ')' => m1 p
  | '*' => m2 p '=' .tMul (m1 p)
  | '+' => m2 p '=' .tIncr (m2 p '+' .tInc (m1 p))
  | ',' => m1 p
  | '-' => m2 p '=' .tDecr (m2 p '-' .tDec (m1 p))
  | '.' => m1 p
  | '/' => m2 p '=' .tDiv (m1 p)
  | ';' => m1 p
  | '<' => m2 p '=' .tLeq (m2 p '<' .tShl (m1 p))
  | '=' => m2 p '=' .tEq (m1 p)
  | '>' => m2 p '>' .tShr (m2 p '=' .tGeq (m1 p))
  | 'e' => keyword p "elsif" .tElsif (keyword p "elseif" .tElseif (keyword p "else" .tElse none))
  | 'i' => keyword p "include" .tInclude (m2 p 'f' .tIf none)
  | '{' => m1 p
  | '|' => m2 p '|' .tCor (m1 p)
  | '}' => m1 p
  | '~' => m1 p
  | _ => none

/-- What a round of the loop does: it skips bytes, makes a token of them, or reports an error. -/
inductive Lexeme
  | blank (n : ℕ)
  | token (tok : Tok) (n : ℕ) (dec : Option (List UInt8))
  | error (msg : String)
deriving DecidableEq

/-- The bytes up to the end of the line. -/
def lineLen (p : List UInt8) : ℕ := (p.takeWhile (· ≠ 10)).length

/-- The scan for the end of a `/* ... */` comment. -/
def commentEnd : List UInt8 → Except String ℕ
  | [] => .error "Unterminated /* ... */ comment, starting at\n"
  | c :: t =>
    if c = 47 ∧ get t 0 = 42 then .error "/* ... */ comment contains /*\n"
    else if c = 42 ∧ get t 0 = 47 then .ok 0
    else (commentEnd t).map (· + 1)

/-- The scan for two bytes. -/
def find2 (a b : UInt8) : List UInt8 → Option ℕ
  | [] => none
  | c :: t => if c = a ∧ get t 0 = b then some 0 else (find2 a b t).map (· + 1)

/-- The scan for the end of a string, behind its first quote; at the end of the source it stops. -/
def stringEnd : List UInt8 → Option ℕ
  | [] => some 0
  | c :: t => if c = 34 then some 1 else if c = 13 ∨ c = 10 then none else (stringEnd t).map (· + 1)

def lexString (p : List UInt8) : Lexeme :=
  match stringEnd p.tail with
  | none => .error "Unterminated string at\n"
  | some n =>
    match decstr (p.tail.take n).dropLast with
    | .error msg => .error msg
    | .ok dec => .token .cstr (n + 1) (some dec)

def lexIdent (p : List UInt8) : Lexeme :=
  if isvar (get p (p.takeWhile isident).length) then
    .token .var ((p.takeWhile isident).length + ((p.drop (p.takeWhile isident).length).takeWhile isvar).length) none
  else .token .id (p.takeWhile isident).length none

/-- A round of the loop of `vcc_Lexer`, at `p`. -/
def lexStep (p : List UInt8) : Lexeme :=
  if bspace (get p 0) then .blank 1
  else if get p 0 = 35 then .blank (lineLen p)
  else if get p 0 = 47 ∧ get p 1 = 42 then
    match commentEnd (p.drop 2) with
    | .ok n => .blank (n + 4)
    | .error msg => .error msg
  else if get p 0 = 47 ∧ get p 1 = 47 then .blank (lineLen p)
  else if get p 0 = 67 ∧ get p 1 = 123 then
    match find2 125 67 (p.drop 2) with
    | some n => .token .csrc (n + 4) none
    | none => .error "Unterminated inline C source, starting at\n"
  else if get p 0 = 123 ∧ get p 1 = 34 then
    match find2 34 125 (p.drop 2) with
    | some n => .token .cstr (n + 4) (some ((p.drop 2).take n))
    | none => .error "Unterminated long-string, starting at\n"
  else
    match vclFixedToken p with
    | some (t, n) => .token t n none
    | none =>
      if get p 0 = 34 then lexString p
      else if isident1 (get p 0) then lexIdent p
      else if isdigit (get p 0) then .token .cnum (p.takeWhile isdigit).length none
      else .error "Syntax error at\n"

/-- The loop, from the place `pos` on, with what is left of the source. -/
def lexLoop : ℕ → ℕ → List UInt8 → Option (List Token × Option String)
  | 0, _, _ => none
  | fuel + 1, pos, p =>
    if p.isEmpty then some ([], none)
    else
      match lexStep p with
      | .blank n => lexLoop fuel (pos + n) (p.drop n)
      | .token t n dec => (lexLoop fuel (pos + n) (p.drop n)).map fun r => (⟨t, pos, pos + n, dec⟩ :: r.1, r.2)
      | .error msg => some ([], some msg)

/-- `vcc_Lexer`: the tokens, and the error that it reports. -/
def vccLexer (src : List UInt8) : Option (List Token × Option String) := lexLoop (src.length + 1) 0 src

end Lexer

/-! ## What the tokens should be -/

section Spec

/-- `b` is white space, or a comment, where `rest` follows. -/
inductive Blank : List UInt8 → List UInt8 → Prop
  | space {c : UInt8} {rest : List UInt8} (h : bspace c = true) : Blank [c] rest
  | hash {l rest : List UInt8} (h : ∀ c ∈ l, c ≠ 10) (hend : ∀ c ∈ rest.head?, c = 10) : Blank (35 :: l) rest
  | line {l rest : List UInt8} (h : ∀ c ∈ l, c ≠ 10) (hend : ∀ c ∈ rest.head?, c = 10) : Blank (47 :: 47 :: l) rest
  | comment {l rest : List UInt8} (h : ¬ [42, 47] <:+: l) : Blank (47 :: 42 :: (l ++ [42, 47])) rest

/-- White space and comments. -/
inductive Gap : List UInt8 → List UInt8 → Prop
  | nil {rest : List UInt8} : Gap [] rest
  | cons {b g rest : List UInt8} (hb : Blank b (g ++ rest)) (hg : Gap g rest) : Gap (b ++ g) rest

/-- The text of a string ends with its terminator, and nowhere before. -/
def Closed (w : List UInt8) : Prop :=
  (∃ body, w = 34 :: (body ++ [34]) ∧ 34 ∉ body) ∨ ∃ body, w = 123 :: 34 :: (body ++ [34, 125]) ∧ ¬ [34, 125] <:+: body

/-- The tokens, from the place `pos` on, cover what is left of the source, up to white space and comments. -/
def Covers : ℕ → List UInt8 → List Token → Prop
  | _, p, [] => Gap p []
  | pos, p, t :: ts => ∃ g w rest, p = g ++ (w ++ rest) ∧ Gap g (w ++ rest) ∧ w ≠ [] ∧ t.b = pos + g.length ∧ t.e = t.b + w.length ∧
      (t.tok = .cstr → Closed w) ∧ Covers t.e rest ts

/-- The lexer terminates, and the tokens cover the source unless it reports an error. -/
def Partition (src : List UInt8) : Prop := ∃ toks err, vccLexer src = some (toks, err) ∧ (err = none → Covers 0 src toks)

/-- The lexer comes from `p` to `p'`. -/
inductive Comes : List UInt8 → List UInt8 → Prop
  | refl {p : List UInt8} : Comes p p
  | blank {p p' : List UInt8} {n : ℕ} (h : lexStep p = .blank n) (hp : p ≠ []) (ht : Comes (p.drop n) p') : Comes p p'
  | token {p p' : List UInt8} {t : Tok} {n : ℕ} {dec : Option (List UInt8)} (h : lexStep p = .token t n dec) (hp : p ≠ [])
      (ht : Comes (p.drop n) p') : Comes p p'

/-- A string begins that has no end, and no line end behind it; what would be between its quotes has no wrong escape. -/
def OpenString (p : List UInt8) : Prop :=
  ∃ t, p = 34 :: t ∧ (∀ c ∈ t, c ≠ 34 ∧ c ≠ 13 ∧ c ≠ 10) ∧ ∃ dec, decstr t.dropLast = .ok dec

end Spec

/-! ## A round -/

section Round

variable {p l rest : List UInt8} {n : ℕ} {a b : UInt8}

theorem get_cons_zero (c : UInt8) (t : List UInt8) : get (c :: t) 0 = c := rfl

theorem cons_of_get (h : get p 0 = a) (ha : a ≠ 0) : ∃ t, p = a :: t := by
  cases p with
  | nil => exact absurd h.symm ha
  | cons c t => exact ⟨t, by rw [← h, get_cons_zero]⟩

theorem take_span (f : UInt8 → Bool) (p : List UInt8) : p.take (p.takeWhile f).length = p.takeWhile f :=
  (List.prefix_iff_eq_take.1 (List.takeWhile_prefix f)).symm

theorem drop_span (f : UInt8 → Bool) (p : List UInt8) : p.drop (p.takeWhile f).length = p.dropWhile f :=
  calc p.drop (p.takeWhile f).length = (p.takeWhile f ++ p.dropWhile f).drop (p.takeWhile f).length := by
        rw [List.takeWhile_append_dropWhile]
    _ = p.dropWhile f := List.drop_left

theorem length_span (f : UInt8 → Bool) (p : List UInt8) : (p.takeWhile f).length ≤ p.length := (List.takeWhile_prefix f).length_le

theorem head_dropWhile {f : UInt8 → Bool} {c : UInt8} (h : c ∈ (p.dropWhile f).head?) : f c = false := by
  induction p with
  | nil => cases h
  | cons d t ih =>
    rw [List.dropWhile_cons] at h
    split at h
    · exact ih h
    · cases h
      exact Bool.eq_false_iff.2 ‹_›

/-- What follows a line comment. -/
theorem line_end : ∀ c ∈ (p.drop (lineLen p)).head?, c = 10 := fun c hc => by
  rw [lineLen, drop_span] at hc
  simpa using head_dropWhile hc

theorem blank_hash (h0 : get p 0 = 35) : 0 < lineLen p ∧ Blank (p.take (lineLen p)) (p.drop (lineLen p)) := by
  obtain ⟨t, rfl⟩ := cons_of_get h0 (by decide)
  have hl : (35 :: t).takeWhile (· ≠ 10) = 35 :: t.takeWhile (· ≠ 10) := List.takeWhile_cons_of_pos rfl
  have hend := line_end (p := 35 :: t)
  rw [lineLen, take_span, hl]
  exact ⟨Nat.succ_pos _, .hash (fun c hc => by simpa using List.mem_takeWhile_imp hc) (by rwa [lineLen, hl] at hend)⟩

theorem blank_line (h0 : get p 0 = 47) (h1 : get p 1 = 47) :
    0 < lineLen p ∧ Blank (p.take (lineLen p)) (p.drop (lineLen p)) := by
  obtain ⟨t, rfl⟩ := cons_of_get h0 (by decide)
  obtain ⟨t, rfl⟩ := cons_of_get (p := t) h1 (by decide)
  have hl : (47 :: 47 :: t).takeWhile (· ≠ 10) = 47 :: 47 :: t.takeWhile (· ≠ 10) := by
    rw [List.takeWhile_cons_of_pos rfl, List.takeWhile_cons_of_pos rfl]
  have hend := line_end (p := 47 :: 47 :: t)
  rw [lineLen, take_span, hl]
  exact ⟨Nat.succ_pos _, .line (fun c hc => by simpa using List.mem_takeWhile_imp hc) (by rwa [lineLen, hl] at hend)⟩

/-- The scan finds the first place. -/
theorem find2_spec (hb : b ≠ 0) (h : find2 a b l = some n) :
    ∃ body rest, l = body ++ a :: b :: rest ∧ body.length = n ∧ ¬ [a, b] <:+: body := by
  induction l generalizing n with
  | nil => cases h
  | cons c t ih =>
    rw [find2] at h
    split at h
    · rename_i hc
      obtain ⟨t, rfl⟩ := cons_of_get hc.2 hb
      cases h
      exact ⟨[], t, by rw [hc.1]; rfl, rfl, by simp⟩
    · rename_i hc
      obtain ⟨k, hk, rfl⟩ := Option.map_eq_some_iff.1 h
      obtain ⟨body, rest, rfl, hlen, hno⟩ := ih hk
      refine ⟨c :: body, rest, rfl, by rw [List.length_cons, hlen], fun hin => ?_⟩
      obtain hpre | hin := List.infix_cons_iff.1 hin
      · obtain ⟨u, hu⟩ := hpre
        cases body with
        | nil => cases hu
        | cons d body =>
          injection hu with h1 h2
          injection h2 with h2
          exact hc ⟨h1.symm, by rw [List.cons_append, get_cons_zero, h2]⟩
      · exact hno hin

theorem find2_of_commentEnd (h : commentEnd l = .ok n) : find2 42 47 l = some n := by
  induction l generalizing n with
  | nil => cases h
  | cons c t ih =>
    rw [commentEnd] at h
    rw [find2]
    split at h
    · cases h
    · split at h
      · rw [if_pos ‹_›]
        cases h
        rfl
      · rw [if_neg ‹_›]
        cases hk : commentEnd t with
        | error msg =>
          rw [hk] at h
          cases h
        | ok k =>
          rw [hk] at h
          cases h
          rw [ih hk]
          rfl

theorem stringEnd_spec (h : stringEnd l = some n) :
    (∃ body rest, l = body ++ 34 :: rest ∧ n = body.length + 1 ∧ ∀ c ∈ body, c ≠ 34 ∧ c ≠ 13 ∧ c ≠ 10) ∨
      (n = l.length ∧ ∀ c ∈ l, c ≠ 34 ∧ c ≠ 13 ∧ c ≠ 10) := by
  induction l generalizing n with
  | nil =>
    cases h
    exact .inr ⟨rfl, nofun⟩
  | cons c t ih =>
    rw [stringEnd] at h
    split at h
    · rename_i hc
      cases h
      exact .inl ⟨[], t, by rw [hc]; rfl, rfl, nofun⟩
    · rename_i hc
      split at h
      · cases h
      · rename_i hcr
        obtain ⟨k, hk, rfl⟩ := Option.map_eq_some_iff.1 h
        have hplain : c ≠ 34 ∧ c ≠ 13 ∧ c ≠ 10 := ⟨hc, not_or.1 hcr⟩
        obtain ⟨body, rest, rfl, rfl, hb⟩ | ⟨rfl, hb⟩ := ih hk
        · exact .inl ⟨c :: body, rest, rfl, rfl, List.forall_mem_cons.2 ⟨hplain, hb⟩⟩
        · exact .inr ⟨rfl, List.forall_mem_cons.2 ⟨hplain, hb⟩⟩

theorem stringEnd_open (h : ∀ c ∈ l, c ≠ 34 ∧ c ≠ 13 ∧ c ≠ 10) : stringEnd l = some l.length := by
  induction l with
  | nil => rfl
  | cons c t ih =>
    obtain ⟨hc, ht⟩ := List.forall_mem_cons.1 h
    rw [stringEnd, if_neg hc.1, if_neg (not_or.2 hc.2), ih ht]
    rfl

/-! ### The fixed tokens -/

/-- A fixed token is within the source, and not a string. -/
def FixedOk (p : List UInt8) (r : Option (Tok × ℕ)) : Prop := ∀ t n, r = some (t, n) → 0 < n ∧ n ≤ p.length ∧ t ≠ .cstr

variable {next : Option (Tok × ℕ)} {t : Tok}

theorem fixedOk_none : FixedOk p none := fun _ _ h => by cases h

theorem fixedOk_m1 (hp : p ≠ []) : FixedOk p (m1 p) := fun t n h => by
  cases h
  exact ⟨Nat.one_pos, List.length_pos_iff.2 hp, nofun⟩

theorem fixedOk_m2 {c : Char} (hc : ch c ≠ 0) (ht : t ≠ .cstr) (h : FixedOk p next) : FixedOk p (m2 p c t next) := by
  unfold m2
  split
  · rename_i h1
    intro t' n he
    cases he
    refine ⟨Nat.two_pos, ?_, ht⟩
    by_contra hlen
    rw [get, List.getD_eq_getElem?_getD, List.getElem?_eq_none (by omega)] at h1
    exact hc h1.symm
  · exact h

theorem fixedOk_keyword {w : String} (hw : 0 < w.toList.length) (ht : t ≠ .cstr) (h : FixedOk p next) :
    FixedOk p (keyword p w t next) := by
  unfold keyword
  split
  · rename_i h1
    intro t' n he
    cases he
    rw [Bool.and_eq_true, List.isPrefixOf_iff_prefix] at h1
    have hle := h1.1.length_le
    rw [List.length_map] at hle
    exact ⟨hw, hle, ht⟩
  · exact h

theorem fixedOk_vclFixedToken (hp : p ≠ []) : FixedOk p (vclFixedToken p) := by
  have h1 := fixedOk_m1 hp
  have two {c : Char} {t : Tok} {next : Option (Tok × ℕ)} := @fixedOk_m2 p next t c
  unfold vclFixedToken
  split
  case h_16 => exact fixedOk_keyword (by decide) nofun (fixedOk_keyword (by decide) nofun (fixedOk_keyword (by decide) nofun fixedOk_none))
  case h_17 => exact fixedOk_keyword (by decide) nofun (two (by decide) nofun fixedOk_none)
  all_goals first
    | exact h1
    | exact fixedOk_none
    | exact two (by decide) nofun h1
    | exact two (by decide) nofun (two (by decide) nofun h1)

/-! ### What a round does -/

def Lexeme.Ok (p : List UInt8) : Lexeme → Prop
  | .blank n => 0 < n ∧ n ≤ p.length ∧ Blank (p.take n) (p.drop n)
  | .token t n _ => 0 < n ∧ n ≤ p.length ∧ (t = .cstr → Closed (p.take n) ∨ OpenString p)
  | .error _ => True

theorem ok_lexString (h0 : get p 0 = 34) : (lexString p).Ok p := by
  obtain ⟨t, rfl⟩ := cons_of_get h0 (by decide)
  unfold lexString
  rw [List.tail_cons]
  split
  · trivial
  · rename_i n hn
    split
    · trivial
    · rename_i dec hdec
      obtain ⟨body, rest, rfl, rfl, hb⟩ | ⟨rfl, hb⟩ := stringEnd_spec hn
      · refine ⟨Nat.succ_pos _, by simp, fun _ => .inl (.inl ⟨body, ?_, fun hm => (hb 34 hm).1 rfl⟩)⟩
        rw [List.take_succ_cons, show body ++ 34 :: rest = (body ++ [34]) ++ rest by simp]
        exact congrArg _ (List.take_left' (by simp))
      · refine ⟨Nat.succ_pos _, le_rfl, fun _ => .inr ⟨t, rfl, hb, dec, ?_⟩⟩
        rwa [List.take_length] at hdec

theorem ok_lexIdent (h0 : isident1 (get p 0) = true) (hp : p ≠ []) : (lexIdent p).Ok p := by
  obtain ⟨c, t, rfl⟩ := List.exists_cons_of_ne_nil hp
  have hc : isident c = true := by
    have hc : isident1 c = true := h0
    simp only [isident1] at hc
    simp [isident, hc]
  have hpos : 0 < ((c :: t).takeWhile isident).length := by
    rw [List.takeWhile_cons_of_pos hc]
    exact Nat.succ_pos _
  have hle := length_span isident (c :: t)
  unfold lexIdent
  split
  · refine ⟨by omega, ?_, nofun⟩
    have := length_span isvar ((c :: t).drop ((c :: t).takeWhile isident).length)
    rw [List.length_drop] at this
    omega
  · exact ⟨hpos, hle, nofun⟩

/-- The text of two bytes, `n` others and two bytes. -/
theorem take_between {x y : UInt8} {body rest : List UInt8} (hl : p = x :: y :: (body ++ a :: b :: rest)) (hn : body.length = n) :
    n + 4 ≤ p.length ∧ p.take (n + 4) = x :: y :: (body ++ [a, b]) := by
  subst hl hn
  refine ⟨by simp, ?_⟩
  rw [List.take_succ_cons, List.take_succ_cons, show body ++ a :: b :: rest = (body ++ [a, b]) ++ rest by simp]
  exact congrArg _ (congrArg _ (List.take_left' (by simp)))

theorem ok_lexStep (hp : p ≠ []) : (lexStep p).Ok p := by
  have two {x y : UInt8} (h0 : get p 0 = x) (h1 : get p 1 = y) (hx : x ≠ 0) (hy : y ≠ 0) : p = x :: y :: p.drop 2 := by
    obtain ⟨t, rfl⟩ := cons_of_get h0 hx
    obtain ⟨t, rfl⟩ := cons_of_get (p := t) h1 hy
    rfl
  unfold lexStep
  split
  · rename_i h
    obtain ⟨c, t, rfl⟩ := List.exists_cons_of_ne_nil hp
    exact ⟨Nat.one_pos, by simp, .space h⟩
  split
  · rename_i h
    exact ⟨(blank_hash h).1, length_span _ _, (blank_hash h).2⟩
  split
  · rename_i h
    have hp2 := two h.1 h.2 (by decide) (by decide)
    split
    · rename_i n hn
      obtain ⟨body, rest, hl, hlen, hno⟩ := find2_spec (by decide) (find2_of_commentEnd hn)
      rw [hl] at hp2
      obtain ⟨hle, htake⟩ := take_between hp2 hlen
      exact ⟨Nat.succ_pos _, hle, htake ▸ .comment hno⟩
    · trivial
  split
  · rename_i h
    exact ⟨(blank_line h.1 h.2).1, length_span _ _, (blank_line h.1 h.2).2⟩
  split
  · rename_i h
    have hp2 := two h.1 h.2 (by decide) (by decide)
    split
    · rename_i n hn
      obtain ⟨body, rest, hl, hlen, -⟩ := find2_spec (by decide) hn
      rw [hl] at hp2
      exact ⟨Nat.succ_pos _, (take_between hp2 hlen).1, nofun⟩
    · trivial
  split
  · rename_i h
    have hp2 := two h.1 h.2 (by decide) (by decide)
    split
    · rename_i n hn
      obtain ⟨body, rest, hl, hlen, hno⟩ := find2_spec (by decide) hn
      rw [hl] at hp2
      obtain ⟨hle, htake⟩ := take_between hp2 hlen
      exact ⟨Nat.succ_pos _, hle, fun _ => .inl (.inr ⟨body, htake, hno⟩)⟩
    · trivial
  split
  · rename_i t n hf
    obtain ⟨hpos, hle, ht⟩ := fixedOk_vclFixedToken hp t n hf
    exact ⟨hpos, hle, fun he => absurd he ht⟩
  split
  · exact ok_lexString ‹_›
  split
  · exact ok_lexIdent ‹_› hp
  split
  · rename_i h
    obtain ⟨c, t, rfl⟩ := List.exists_cons_of_ne_nil hp
    refine ⟨?_, length_span _ _, nofun⟩
    rw [List.takeWhile_cons_of_pos (show isdigit c = true from h)]
    exact Nat.succ_pos _
  · trivial

/-- At an open string the lexer makes a token of all that is left. -/
theorem lexStep_open (h : OpenString p) : ∃ dec, lexStep p = .token .cstr p.length (some dec) := by
  obtain ⟨t, rfl, hplain, dec, hdec⟩ := h
  have hfix : vclFixedToken (34 :: t) = none := rfl
  have hstr : lexString (34 :: t) = .token .cstr (t.length + 1) (some dec) := by
    unfold lexString
    rw [List.tail_cons, stringEnd_open hplain]
    simp only [List.take_length, hdec]
  refine ⟨dec, ?_⟩
  unfold lexStep
  rw [hfix, hstr]
  rfl

end Round

/-! ## A whole source -/

section Source

variable {p p' : List UInt8} {pos n fuel : ℕ} {ts : List Token}

/-- White space and comments go to the first gap. -/
theorem Covers.blank (hb : Blank (p.take n) (p.drop n)) (hn : n ≤ p.length) (h : Covers (pos + n) (p.drop n) ts) :
    Covers pos p ts := by
  cases ts with
  | nil =>
    have hb' : Blank (p.take n) (p.drop n ++ []) := by rwa [List.append_nil]
    have hg := Gap.cons hb' h
    rwa [List.take_append_drop] at hg
  | cons t ts =>
    obtain ⟨g, w, rest, hp, hg, hw, hb', he, hc, hts⟩ := h
    refine ⟨p.take n ++ g, w, rest, ?_, .cons (by rwa [← hp]) hg, hw, ?_, he, hc, hts⟩
    · rw [List.append_assoc, ← hp, List.take_append_drop]
    · rw [hb', List.length_append, List.length_take, Nat.min_eq_left hn]
      omega

theorem Covers.le {t : Token} (h : Covers pos p ts) (ht : t ∈ ts) : pos ≤ t.b := by
  induction ts generalizing pos p with
  | nil => cases ht
  | cons t' ts ih =>
    obtain ⟨g, w, rest, -, -, -, hb, he, -, hts⟩ := h
    obtain rfl | ht := List.mem_cons.1 ht
    · omega
    · have := ih hts ht
      omega

/-- A token that is a string and not closed. -/
def Stray (pos : ℕ) (p : List UInt8) (t : Token) : Prop :=
  t.tok = .cstr ∧ pos ≤ t.b ∧ ¬ Closed ((p.drop (t.b - pos)).take (t.e - t.b))

theorem Covers.not_stray {t : Token} (h : Covers pos p ts) (ht : t ∈ ts) : ¬ Stray pos p t := by
  induction ts generalizing pos p with
  | nil => cases ht
  | cons t' ts ih =>
    obtain ⟨g, w, rest, rfl, -, -, hb, he, hc, hts⟩ := h
    rintro ⟨hstr, hpos, hno⟩
    obtain rfl | ht := List.mem_cons.1 ht
    · refine hno ?_
      rw [show t.b - pos = g.length by omega, show t.e - t.b = w.length by omega, List.drop_left, List.take_left]
      exact hc hstr
    · have hle := hts.le ht
      refine ih hts ht ⟨hstr, hle, ?_⟩
      rwa [show t.b - pos = (g ++ w).length + (t.b - t'.e) by rw [List.length_append]; omega, ← List.append_assoc,
        ← List.drop_drop, List.drop_left] at hno

theorem Stray.behind {t : Token} (h : Stray (pos + n) (p.drop n) t) : Stray pos p t := by
  obtain ⟨hstr, hle, hno⟩ := h
  refine ⟨hstr, by omega, ?_⟩
  rwa [List.drop_drop, show n + (t.b - (pos + n)) = t.b - pos by omega] at hno

/-- An open string is not closed. -/
theorem not_closed_of_open (h : OpenString p) : ¬ Closed p := by
  obtain ⟨t, rfl, hplain, -⟩ := h
  rintro (⟨body, hb, -⟩ | ⟨body, hb, -⟩)
  · injection hb with _ hb
    exact (hplain 34 (by rw [hb]; simp)).1 rfl
  · injection hb with hb _
    exact absurd hb (by decide)

theorem lexLoop_nil (hfuel : 0 < fuel) : lexLoop fuel pos [] = some ([], none) := by
  obtain ⟨fuel, rfl⟩ := Nat.exists_eq_add_of_lt hfuel
  rw [Nat.zero_add, lexLoop]
  rfl

/-- The loop terminates. Where the lexer comes to no open string, the tokens cover the source unless there is an error, and where it
comes to one, there is no error, and the token of that string is not closed. -/
theorem lexLoop_spec (hfuel : p.length < fuel) : ∃ toks err, lexLoop fuel pos p = some (toks, err) ∧
    ((∀ p', Comes p p' → ¬ OpenString p') → err = none → Covers pos p toks) ∧
    ((∃ p', Comes p p' ∧ OpenString p') → err = none ∧ ∃ t ∈ toks, Stray pos p t) := by
  induction fuel generalizing pos p with
  | zero => exact absurd hfuel (Nat.not_lt_zero _)
  | succ fuel ih =>
    rw [lexLoop]
    by_cases hp : p = []
    · subst hp
      refine ⟨[], none, rfl, fun _ _ => .nil, ?_⟩
      rintro ⟨p', hc, t, ht, -⟩
      cases hc with
      | refl => cases ht
      | blank h hp _ => exact absurd rfl hp
      | token h hp _ => exact absurd rfl hp
    rw [if_neg (by simpa using hp)]
    have hok := ok_lexStep hp
    cases hs : lexStep p with
    | blank n =>
      rw [hs] at hok
      obtain ⟨hpos, hle, hb⟩ := hok
      obtain ⟨toks, err, hrun, hcov, hstray⟩ := @ih (p.drop n) (pos + n) (by rw [List.length_drop]; omega)
      refine ⟨toks, err, hrun, fun hno he => (hcov (fun p' hc => hno p' (.blank hs hp hc)) he).blank hb hle, ?_⟩
      rintro ⟨p', hc, hopen⟩
      have hc' : Comes (p.drop n) p' := by
        cases hc with
        | refl =>
          obtain ⟨dec, hd⟩ := lexStep_open hopen
          rw [hs] at hd
          cases hd
        | blank h _ ht =>
          rw [hs] at h
          cases h
          exact ht
        | token h _ _ =>
          rw [hs] at h
          cases h
      obtain ⟨he, t, ht, hst⟩ := hstray ⟨p', hc', hopen⟩
      exact ⟨he, t, ht, hst.behind⟩
    | token tok n dec =>
      rw [hs] at hok
      obtain ⟨hpos, hle, hstr⟩ := hok
      obtain ⟨toks, err, hrun, hcov, hstray⟩ := @ih (p.drop n) (pos + n) (by rw [List.length_drop]; omega)
      refine ⟨⟨tok, pos, pos + n, dec⟩ :: toks, err, by simp [hrun], fun hno he => ?_, ?_⟩
      · refine ⟨[], p.take n, p.drop n, by simp, .nil, ?_, rfl, ?_, fun ht => ?_, hcov (fun p' hc => hno p' (.token hs hp hc)) he⟩
        · rw [← List.length_pos_iff, List.length_take]
          omega
        · rw [List.length_take, Nat.min_eq_left hle]
        · exact (hstr ht).resolve_right (hno p .refl)
      · rintro ⟨p', hc, hopen⟩
        cases hc with
        | refl =>
          obtain ⟨dec', hd⟩ := lexStep_open hopen
          rw [hs] at hd
          cases hd
          rw [List.drop_length, lexLoop_nil (by omega)] at hrun
          cases hrun
          refine ⟨rfl, _, List.mem_cons_self, rfl, le_rfl, ?_⟩
          have hno := not_closed_of_open hopen
          simpa using hno
        | blank h _ _ =>
          rw [hs] at h
          cases h
        | token h _ ht =>
          rw [hs] at h
          cases h
          obtain ⟨he, t, ht, hst⟩ := hstray ⟨p', ht, hopen⟩
          exact ⟨he, t, List.mem_cons_of_mem _ ht, hst.behind⟩
    | error msg =>
      refine ⟨[], some msg, rfl, (fun _ he => by cases he), ?_⟩
      rintro ⟨p', hc, hopen⟩
      cases hc with
      | refl =>
        obtain ⟨dec, hd⟩ := lexStep_open hopen
        rw [hs] at hd
        cases hd
      | blank h _ _ =>
        rw [hs] at h
        cases h
      | token h _ _ =>
        rw [hs] at h
        cases h

/-- The tokens of a source are what they should be if and only if the lexer comes to no string that is open at the end of the source
and otherwise sound. -/
theorem vccLexer_iff (src : List UInt8) : Partition src ↔ ∀ p, Comes src p → ¬ OpenString p := by
  obtain ⟨toks, err, hrun, hcov, hstray⟩ := @lexLoop_spec src 0 (src.length + 1) (Nat.lt_succ_self _)
  constructor
  · rintro ⟨toks', err', hrun', hcov'⟩ p hc hopen
    rw [vccLexer, hrun] at hrun'
    cases hrun'
    obtain ⟨he, t, ht, hst⟩ := hstray ⟨p, hc, hopen⟩
    exact (hcov' he).not_stray ht hst
  · exact fun hno => ⟨toks, err, hrun, hcov hno⟩

/-- `"a`, which is a string without its second quote. -/
theorem vccLexer_open : ¬ Partition [34, 97] := by
  rintro ⟨toks, err, hrun, hcov⟩
  have hlex : vccLexer [34, 97] = some ([⟨.cstr, 0, 2, some []⟩], none) := by decide
  rw [hlex] at hrun
  cases hrun
  refine (hcov rfl).not_stray List.mem_cons_self ⟨rfl, le_rfl, ?_⟩
  exact not_closed_of_open ⟨[97], rfl, fun c hc => by rw [List.mem_singleton.1 hc]; decide, [], rfl⟩

end Source

end Varnish.Vcc.Lexer
