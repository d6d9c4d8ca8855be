import Mathlib.Algebra.Group.Nat.Defs
import Mathlib.Control.Monad.Basic
import Mathlib.Tactic.Tauto
import Varnish.Lib.CString

/-!
# Varnish.Vcc.Strings — the string constants of a VCL program (`vcc_token.c`, `vcc_compile.c`, `vcc_action.c`)

* `StrTok`: a quoted or a long string, with the value that the lexer gives to it.
* `encString`, `encToken`: how a value is written into the C code.
* `StringVal`, `Stmt`: the statements that have strings, and the C code that their parsers write.
* `cString_encString_iff`: the literal denotes the value, unless a byte above 127 is a negative `char`.
* `strings_iff`: the C code of a statement gets its strings this way, up to such bytes and the string of an `error`.
-/

namespace Varnish.Vcc.Strings

open Varnish.Lib.CString

/-! ## The lexer -/

section Lexer

/-- `isgraph` -/
def isgraph (b : UInt8) : Bool := 33 ≤ b.toNat && b.toNat ≤ 126

/-- `vcc_xdig`, where `isxdigit` holds. -/
def xdig (b : UInt8) : Option ℕ := digit 16 b

/-- The loop of `vcc_decstr`, between the quotes. -/
def decstr : List UInt8 → Except String (List UInt8)
  | [] => .ok []
  | c :: t =>
    if c ≠ 37 then (decstr t).map (c :: ·)
    else
      match t with
      | a :: b :: t =>
        match xdig a, xdig b with
        | some x, some y =>
          if isgraph (UInt8.ofNat (16 * x + y)) then (decstr t).map (UInt8.ofNat (16 * x + y) :: ·)
          else .error "Control character in %xx escape\n"
        | _, _ => .error "Invalid hex char in %xx escape\n"
      | _ => .error "Incomplete %xx escape\n"

/-- The text of a source has no NUL, and a string ends where it first can. -/
structure Quoted (body dec : List UInt8) : Prop where
  nul : ∀ b ∈ body, b ≠ 0
  chars : ∀ b ∈ body, b ≠ 34 ∧ b ≠ 13 ∧ b ≠ 10
  dec : decstr body = .ok dec

structure Long (body dec : List UInt8) : Prop where
  nul : ∀ b ∈ body, b ≠ 0
  dec : dec = body

/-- A `CSTR` token: what is between its quotes, and `t->dec`. -/
structure StrTok where
  long : Bool
  body : List UInt8
  dec : List UInt8
  ok : if long then Long body dec else Quoted body dec

/-- The scan for the end of a quoted string, which stays in its line. -/
def scanQuoted : List UInt8 → Option (List UInt8 × List UInt8)
  | [] => none
  | c :: t =>
    if c = 34 then some ([], t)
    else if c = 13 ∨ c = 10 then none
    else (scanQuoted t).map fun r => (c :: r.1, r.2)

/-- The scan for the end of a long string. -/
def scanLong : List UInt8 → Option (List UInt8 × List UInt8)
  | [] => none
  | c :: t => if c = 34 ∧ t.head? = some 125 then some ([], t.tail) else (scanLong t).map fun r => (c :: r.1, r.2)

theorem scanQuoted_chars {t body rest : List UInt8} (h : scanQuoted t = some (body, rest)) :
    ∀ b ∈ body, b ∈ t ∧ b ≠ 34 ∧ b ≠ 13 ∧ b ≠ 10 := by
  induction t generalizing body with
  | nil => simp [scanQuoted] at h
  | cons c t ih =>
    rw [scanQuoted] at h
    split at h
    next =>
      simp only [Option.some.injEq, Prod.mk.injEq] at h
      simp [← h.1]
    next hq =>
      split at h
      next => simp at h
      next hcr =>
        obtain ⟨r, hr, heq⟩ := Option.map_eq_some_iff.1 h
        simp only [Prod.mk.injEq] at heq
        rw [← heq.1]
        intro b hb
        rcases List.mem_cons.1 hb with rfl | hb
        · exact ⟨List.mem_cons_self .., hq, not_or.1 hcr⟩
        · have hih := @ih r.1 (by rw [hr, ← heq.2]) b hb
          exact ⟨List.mem_cons_of_mem _ hih.1, hih.2⟩

theorem scanLong_chars {t body rest : List UInt8} (h : scanLong t = some (body, rest)) : ∀ b ∈ body, b ∈ t := by
  induction t generalizing body with
  | nil => simp [scanLong] at h
  | cons c t ih =>
    rw [scanLong] at h
    split at h
    next =>
      simp only [Option.some.injEq, Prod.mk.injEq] at h
      simp [← h.1]
    next =>
      obtain ⟨r, hr, heq⟩ := Option.map_eq_some_iff.1 h
      simp only [Prod.mk.injEq] at heq
      rw [← heq.1]
      intro b hb
      rcases List.mem_cons.1 hb with rfl | hb
      · exact List.mem_cons_self ..
      · exact List.mem_cons_of_mem _ (@ih r.1 (by rw [hr, ← heq.2]) b hb)

/-- The token of a quoted string, from the text behind its first quote. -/
def lexQuoted (t : List UInt8) (nul : ∀ b ∈ t, b ≠ 0) : Option (StrTok × List UInt8) :=
  match h : scanQuoted t with
  | none => none
  | some (body, rest) =>
    match hd : decstr body with
    | .error _ => none
    | .ok dec =>
      some (⟨false, body, dec, ⟨fun b hb => nul b (scanQuoted_chars h b hb).1, fun b hb => (scanQuoted_chars h b hb).2, hd⟩⟩,
        rest)

/-- The token of a long string, from the text behind `{"`. -/
def lexLong (t : List UInt8) (nul : ∀ b ∈ t, b ≠ 0) : Option (StrTok × List UInt8) :=
  match h : scanLong t with
  | none => none
  | some (body, rest) => some (⟨true, body, body, ⟨fun b hb => nul b (scanLong_chars h b hb), rfl⟩⟩, rest)

/-- `PF(t)`: the token as it stands in the source. -/
def StrTok.text (t : StrTok) : List UInt8 :=
  if t.long then 123 :: 34 :: (t.body ++ [34, 125]) else 34 :: (t.body ++ [34])

end Lexer

/-! ## The encoder -/

section Encoder

/-- `*b` as the `unsigned` of a `%o`, where `sgn` says that `char` is signed. -/
def charValue (sgn : Bool) (b : UInt8) : ℕ := if sgn && 128 ≤ b.toNat then 2 ^ 32 - 256 + b.toNat else b.toNat

/-- `%o` -/
def octal (n : ℕ) : List UInt8 := (Nat.toDigits 8 n).map fun c => UInt8.ofNat c.toNat

/-- `%03o` -/
def oct03 (n : ℕ) : List UInt8 := List.replicate (3 - (octal n).length) 48 ++ octal n

/-- A round of the loop of `EncString`. -/
def encByte (sgn mode : Bool) (b : UInt8) : List UInt8 :=
  if b = 92 ∨ b = 34 then [92, b]
  else if b = 10 then [92, 110] ++ if mode then [34, 10, 9, 34] else []
  else if b = 9 then [92, 116]
  else if b = 13 then [92, 114]
  else if b = 32 then [32]
  else if isgraph b then [b]
  else 92 :: oct03 (charValue sgn b)

/-- `EncString` -/
def encString (sgn mode : Bool) (s : List UInt8) : List UInt8 := 34 :: (s.flatMap (encByte sgn mode) ++ [34])

/-- `EncToken`, where `dec` is read up to its NUL. -/
def encToken (sgn : Bool) (t : StrTok) : List UInt8 := encString sgn false (t.dec.takeWhile (· ≠ 0))

end Encoder

/-! ## What a literal denotes -/

section Denotes

variable {sgn mode : Bool}

/-- What the literal of a byte denotes. -/
def denoted (sgn : Bool) (b : UInt8) : List UInt8 :=
  if sgn && 128 ≤ b.toNat then 255 :: 55 :: 55 :: 55 :: 55 :: 55 :: (oct03 (256 + b.toNat)) else [b]

theorem oct03_byte : ∀ n < 512, oct03 n = [UInt8.ofNat (48 + n / 64), UInt8.ofNat (48 + n / 8 % 8), UInt8.ofNat (48 + n % 8)] := by
  decide +kernel

theorem oct03_high : ∀ n < 256, 128 ≤ n → oct03 (2 ^ 32 - 256 + n) = [51, 55, 55, 55, 55, 55, 55, 55] ++ oct03 (256 + n) := by
  decide +kernel

theorem digit_octal : ∀ d < 8, digit 8 (UInt8.ofNat (48 + d)) = some d := by decide

theorem octal_plain : ∀ d < 8, UInt8.ofNat (48 + d) ≠ 34 ∧ UInt8.ofNat (48 + d) ≠ 92 ∧ UInt8.ofNat (48 + d) ≠ 10 := by decide

theorem cRun_oct03 {n : ℕ} (h : n < 256) {t : List UInt8} (ht : t ≠ []) :
    cRun .inside (92 :: (oct03 n ++ t)) = (cRun .inside t).map (UInt8.ofNat n :: ·) := by
  rw [oct03_byte n (by omega)]
  have hval : 64 * (n / 64) + 8 * (n / 8 % 8) + n % 8 = n := by omega
  have hrun := cRun_octal (digit_octal (n / 64) (by omega)) (digit_octal (n / 8 % 8) (by omega))
    (digit_octal (n % 8) (by omega)) (by omega) ht
  rw [hval] at hrun
  exact hrun

/-- The digits behind an octal escape that has its three already. -/
theorem cRun_digits {n : ℕ} (h : n < 512) (t : List UInt8) :
    cRun .inside (oct03 n ++ t) = (cRun .inside t).map (oct03 n ++ ·) := by
  rw [oct03_byte n h]
  obtain ⟨a1, a2, a3⟩ := octal_plain (n / 64) (by omega)
  obtain ⟨b1, b2, b3⟩ := octal_plain (n / 8 % 8) (by omega)
  obtain ⟨c1, c2, c3⟩ := octal_plain (n % 8) (by omega)
  show cRun .inside (_ :: _ :: _ :: t) = _
  rw [cRun_plain a1 a2 a3, cRun_plain b1 b2 b3, cRun_plain c1 c2 c3, Option.map_map, Option.map_map]
  rfl

theorem denoted_low {b : UInt8} (h : b.toNat < 128) : denoted sgn b = [b] := by
  unfold denoted
  rw [if_neg]
  simp
  omega

theorem cRun_encByte (b : UInt8) {t : List UInt8} (ht : t ≠ []) :
    cRun .inside (encByte sgn mode b ++ t) = (cRun .inside t).map (denoted sgn b ++ ·) := by
  by_cases hb : b = 92 ∨ b = 34
  · rw [encByte, if_pos hb]
    rcases hb with rfl | rfl
    · rw [denoted_low (by decide)]
      exact cRun_simple (by decide) (by decide) (by decide) t
    · rw [denoted_low (by decide)]
      exact cRun_simple (by decide) (by decide) (by decide) t
  by_cases h10 : b = 10
  · subst h10
    rw [encByte, if_neg hb, if_pos rfl, denoted_low (by decide)]
    cases mode with
    | false => exact cRun_simple (by decide : digit 8 110 = none) (by decide) (by decide) t
    | true =>
      show cRun .inside (92 :: 110 :: 34 :: ([10, 9] ++ 34 :: t)) = _
      rw [cRun_simple (by decide : digit 8 110 = none) (by decide) (by decide : simple.lookup 110 = some 10),
        cRun_joined (by simp [Lib.bspace])]
      rfl
  by_cases h9 : b = 9
  · subst h9
    rw [encByte, if_neg hb, if_neg h10, if_pos rfl, denoted_low (by decide)]
    exact cRun_simple (by decide : digit 8 116 = none) (by decide) (by decide) t
  by_cases h13 : b = 13
  · subst h13
    rw [encByte, if_neg hb, if_neg h10, if_neg h9, if_pos rfl, denoted_low (by decide)]
    exact cRun_simple (by decide : digit 8 114 = none) (by decide) (by decide) t
  rw [not_or] at hb
  by_cases h32 : b = 32
  · subst h32
    rw [encByte, if_neg (by decide), if_neg h10, if_neg h9, if_neg h13, if_pos rfl, denoted_low (by decide)]
    exact cRun_plain (by decide) (by decide) (by decide) t
  rw [encByte, if_neg (not_or.2 hb), if_neg h10, if_neg h9, if_neg h13, if_neg h32]
  by_cases hg : isgraph b = true
  · have hlow : b.toNat < 128 := by
      unfold isgraph at hg
      simp only [Bool.and_eq_true, decide_eq_true_eq] at hg
      omega
    rw [if_pos hg, denoted_low hlow]
    exact cRun_plain hb.2 hb.1 h10 t
  have hlt : b.toNat < 256 := UInt8.toNat_lt b
  rw [if_neg hg, List.cons_append, charValue, denoted]
  split
  next hs =>
    -- the sign is extended, and only the first three digits belong to the escape
    have h128 : 128 ≤ b.toNat := by
      rw [Bool.and_eq_true, decide_eq_true_eq] at hs
      exact hs.2
    rw [oct03_high _ hlt h128]
    show cRun .inside (92 :: (oct03 255 ++ (55 :: 55 :: 55 :: 55 :: 55 :: (oct03 (256 + b.toNat) ++ t)))) = _
    have hp : ∀ t : List UInt8, cRun .inside (55 :: t) = (cRun .inside t).map (55 :: ·) :=
      cRun_plain (by decide) (by decide) (by decide)
    rw [cRun_oct03 (by decide) (by simp), hp, hp, hp, hp, hp, cRun_digits (by omega)]
    simp only [Option.map_map]
    rfl
  next hs =>
    rw [cRun_oct03 hlt ht, UInt8.ofNat_toNat]
    rfl

theorem cRun_encBytes (s : List UInt8) :
    cRun .inside (s.flatMap (encByte sgn mode) ++ [34]) = some (s.flatMap (denoted sgn)) := by
  induction s with
  | nil => rfl
  | cons b s ih =>
    rw [List.flatMap_cons, List.append_assoc, cRun_encByte b (by simp), ih, List.flatMap_cons]
    rfl

/-- No byte of the string is a negative `char`. -/
def Plain (sgn : Bool) (s : List UInt8) : Prop := sgn = true → ∀ b ∈ s, b.toNat < 128

theorem flatMap_denoted (s : List UInt8) : s.flatMap (denoted sgn) = s ↔ Plain sgn s := by
  constructor
  · -- by the lengths: a negative `char` denotes nine characters
    intro h hs b hb
    subst hs
    by_contra hge
    have hlong : ∀ c : UInt8, 1 ≤ (denoted true c).length := by
      intro c
      unfold denoted
      split <;> simp
    have hmore : ∀ s : List UInt8, s.length ≤ (s.flatMap (denoted true)).length ∧
        (b ∈ s → s.length < (s.flatMap (denoted true)).length) := by
      intro s
      induction s with
      | nil => simp
      | cons c s ih =>
        rw [List.flatMap_cons, List.length_append, List.length_cons]
        have hc := hlong c
        refine ⟨by omega, ?_⟩
        intro hmem
        rcases List.mem_cons.1 hmem with rfl | hmem
        · have hb9 : 2 ≤ (denoted true b).length := by
            unfold denoted
            rw [if_pos (by simpa using hge)]
            simp
          omega
        · have := ih.2 hmem
          omega
    have := (hmore s).2 hb
    rw [h] at this
    omega
  · intro h
    induction s with
    | nil => rfl
    | cons b s ih =>
      have hb : denoted sgn b = [b] := by
        cases sgn with
        | false => rfl
        | true => exact denoted_low (h rfl b (List.mem_cons_self ..))
      rw [List.flatMap_cons, hb, ih fun hs c hc => h hs c (List.mem_cons_of_mem _ hc)]
      rfl

theorem cString_encString (s : List UInt8) : cString (encString sgn mode s) = some (s.flatMap (denoted sgn)) := by
  show (if (34 : UInt8) = 34 then cRun .inside (s.flatMap (encByte sgn mode) ++ [34]) else none) = _
  rw [if_pos rfl, cRun_encBytes]

/-- The literal denotes the string, unless a byte above 127 is a negative `char`. -/
theorem cString_encString_iff (s : List UInt8) : cString (encString sgn mode s) = some s ↔ Plain sgn s := by
  rw [cString_encString, Option.some.injEq, flatMap_denoted]

end Denotes

/-! ## Statements -/

section Statements

variable (sgn : Bool)

/-- A piece of C code: what is written for a string token, or something else. -/
inductive Piece
  | code (c : String)
  | str (t : StrTok) (text : List UInt8)

/-- What a piece is written for. -/
def Piece.token : Piece → Option (StrTok × List UInt8)
  | .code _ => none
  | .str t text => some (t, text)

/-- The buffers that a statement is written to. -/
structure Bufs where
  fb : List Piece := []
  fi : List Piece := []
  fh : List Piece := []
  ff : List Piece := []
  recnt : ℕ := 0

/-- `Fb` -/
def Bufs.put (o : Bufs) (p : Piece) : Bufs := { o with fb := o.fb ++ [p] }

/-- The value of a string: a constant, a variable by its C expression, or a substitution. -/
inductive StringVal
  | cstr (t : StrTok)
  | var (c : String)
  | regsub (all : Bool) (s : StringVal) (re : StrTok) (sub : StringVal)

/-- The name of the next regular expression. -/
def Bufs.reName (o : Bufs) : String := "VGC_re_" ++ toString o.recnt

/-- `vcc_regexp` -/
def vccRegexp (o : Bufs) (t : StrTok) : Bufs :=
  { o with
    fh := o.fh ++ [.code ("static void *" ++ o.reName ++ ";\n")]
    fi := o.fi ++ [.code ("\tVRT_re_init(&" ++ o.reName ++ ", "), .str t (encToken sgn t), .code ");\n"]
    ff := o.ff ++ [.code ("\tVRT_re_fini(" ++ o.reName ++ ");\n")]
    recnt := o.recnt + 1 }

/-- `vcc_StringVal`, with `vcc_regsub`. -/
def vccStringVal (o : Bufs) : StringVal → Bufs
  | .cstr t => o.put (.str t (encToken sgn t))
  | .var c => o.put (.code c)
  | .regsub all s re sub =>
    let o := vccStringVal (o.put (.code (if all then "VRT_regsub(sp, 1, " else "VRT_regsub(sp, 0, "))) s
    let o := (vccRegexp sgn o re).put (.code (", " ++ o.reName ++ ", "))
    (vccStringVal o sub).put (.code ")")

/-- Some values, with a comma behind each. -/
def vccStringVals (o : Bufs) (vs : List StringVal) : Bufs :=
  vs.foldl (fun o v => (vccStringVal sgn o v).put (.code ", ")) o

/-- What stands behind `error` and its code. -/
inductive ErrArg
  | none
  | cstr (t : StrTok)
  | val (v : StringVal)

/-- A test of `purge`: the variable, the operator and the value. -/
structure PurgeTest where
  var : String
  oper : String
  val : StringVal

/-- The statements and conditions that have strings, with the C names of their variables. -/
inductive Stmt
  | error (code : String) (arg : ErrArg)
  | setString (lname : String) (v : StringVal) (vs : List StringVal)
  | setHash (lname : String) (v : StringVal)
  | purge (c : PurgeTest) (cs : List PurgeTest)
  | purgeString (v : StringVal) (vs : List StringVal)
  | purgeUrl (v : StringVal)
  | panic (v : StringVal) (vs : List StringVal)
  | synthetic (v : StringVal) (vs : List StringVal)
  | condMatch (not : Bool) (rname : String) (re : StrTok)
  | condCmp (not : Bool) (rname : String) (v : StringVal)
  | other (c : String)

/-- The `CSTR`, `VAR` and other branches of `parse_error`. -/
def errorArg (o : Bufs) : ErrArg → Bufs
  | .none => o.put (.code ", (const char *)0")
  | .cstr t => (o.put (.code ", ")).put (.str t t.text)
  | .val v => vccStringVal sgn (o.put (.code ", ")) v

/-- A round of the loop of `parse_purge`. -/
def purgeTest (o : Bufs) (c : PurgeTest) : Bufs :=
  let o := (o.put (.code ("  \"" ++ c.var ++ "\",\n"))).put (.code ("  \"" ++ c.oper ++ "\",\n"))
  (vccStringVal sgn (o.put (.code "  ")) c.val).put (.code ",\n")

/-- The C code of a statement: `parse_error`, `parse_set`, `parse_purge`, `parse_purge_url`, `parse_panic`,
`parse_synthetic` and `Cond_String`. -/
def emit (o : Bufs) : Stmt → Bufs
  | .error code arg =>
    ((errorArg sgn (o.put (.code ("VRT_error(sp, " ++ code))) arg).put (.code ");\n")).put
      (.code "VRT_done(sp, VCL_RET_ERROR);\n")
  | .setString lname v vs => (vccStringVals sgn (o.put (.code lname)) (v :: vs)).put (.code "vrt_magic_string_end);\n")
  | .setHash lname v => (vccStringVal sgn (o.put (.code lname)) v).put (.code ");\n")
  | .purge c cs =>
    (cs.foldl (fun o c => purgeTest sgn (o.put (.code "\"&&\",\n")) c)
      (purgeTest sgn (o.put (.code "VRT_purge(sp,\n")) c)).put (.code "0);\n")
  | .purgeString v vs =>
    (vccStringVals sgn (o.put (.code "VRT_purge_string(sp, ")) (v :: vs)).put (.code "vrt_magic_string_end);\n")
  | .purgeUrl v =>
    (vccStringVal sgn (o.put (.code "VRT_purge(sp, \"req.url\", \"~\", ")) v).put (.code ", 0);\n")
  | .panic v vs => (vccStringVals sgn (o.put (.code "VRT_panic(sp, ")) (v :: vs)).put (.code " vrt_magic_string_end);\n")
  | .synthetic v vs =>
    (vccStringVals sgn (o.put (.code "VRT_synth_page(sp, 0, ")) (v :: vs)).put (.code " vrt_magic_string_end);\n")
  | .condMatch not rname re =>
    let o := o.put (.code (if not then "!VRT_re_match(" else "VRT_re_match("))
    (vccRegexp sgn o re).put (.code (rname ++ ", " ++ o.reName ++ ")\n"))
  | .condCmp not rname v =>
    (vccStringVal sgn (o.put (.code ((if not then "" else "!") ++ "VRT_strcmp(" ++ rname ++ ", "))) v).put (.code ")\n")
  | .other c => o.put (.code c)

/-- The strings of a value. -/
def StringVal.strings : StringVal → List StrTok
  | .cstr t => [t]
  | .var _ => []
  | .regsub _ s re sub => s.strings ++ re :: sub.strings

/-- The string that `parse_error` looks at itself. -/
def Stmt.raw : Stmt → List StrTok
  | .error _ (.cstr t) => [t]
  | _ => []

/-- The other strings of a statement. -/
def Stmt.vals : Stmt → List StrTok
  | .error _ (.val v) => v.strings
  | .error _ _ => []
  | .setString _ v vs => (v :: vs).flatMap StringVal.strings
  | .setHash _ v => v.strings
  | .purge c cs => (c :: cs).flatMap fun c => c.val.strings
  | .purgeString v vs => (v :: vs).flatMap StringVal.strings
  | .purgeUrl v => v.strings
  | .panic v vs => (v :: vs).flatMap StringVal.strings
  | .synthetic v vs => (v :: vs).flatMap StringVal.strings
  | .condMatch _ _ re => [re]
  | .condCmp _ _ v => v.strings
  | .other _ => []

/-- The strings of a statement. -/
def Stmt.strings (st : Stmt) : List StrTok := st.raw ++ st.vals

/-- What is written for strings. -/
def Bufs.strs (o : Bufs) : List (StrTok × List UInt8) := (o.fb ++ o.fi).filterMap Piece.token

/-- The text is the encoding of the token's value, and denotes it. -/
def Encoded (t : StrTok) (text : List UInt8) : Prop := text = encString sgn false t.dec ∧ cString text = some t.dec

/-- Every string of the statement is written, and always as the encoding of its value. -/
def Received (st : Stmt) : Prop :=
  (∀ t ∈ st.strings, ∃ text, (t, text) ∈ (emit sgn {} st).strs) ∧
    ∀ p ∈ (emit sgn {} st).strs, p.1 ∈ st.strings ∧ Encoded sgn p.1 p.2

/-- A quoted string of printable characters, none of which is special in VCL or in C. -/
def Simple (t : StrTok) : Prop := t.long = false ∧ ∀ b ∈ t.body, 32 ≤ b.toNat ∧ b.toNat ≤ 126 ∧ b ≠ 37 ∧ b ≠ 92

end Statements

/-! ## What is written -/

section Written

variable {sgn : Bool} {o o' o'' : Bufs} {ts ts' : List StrTok}

/-- The encodings of `ts` are written. -/
def Writes (sgn : Bool) (o : Bufs) (ts : List StrTok) (o' : Bufs) : Prop :=
  ∀ p, p ∈ o'.strs ↔ p ∈ o.strs ∨ p.1 ∈ ts ∧ p.2 = encToken sgn p.1

theorem writes_refl : Writes sgn o [] o := by
  intro p
  simp

theorem mem_token (p : StrTok × List UInt8) (q : Piece) : p ∈ [q].filterMap Piece.token ↔ q = .str p.1 p.2 := by
  cases q with
  | code c => simp [Piece.token]
  | str t text => simp [Piece.token, Prod.ext_iff, eq_comm]

theorem mem_put (p : StrTok × List UInt8) (q : Piece) : p ∈ (o.put q).strs ↔ p ∈ o.strs ∨ q = .str p.1 p.2 := by
  unfold Bufs.put Bufs.strs
  simp only [List.filterMap_append, List.mem_append, mem_token]
  tauto

theorem Writes.code (h : Writes sgn o ts o') (c : String) : Writes sgn o ts (o'.put (.code c)) := by
  intro p
  rw [mem_put, h p]
  simp

theorem mem_regexp (p : StrTok × List UInt8) (t : StrTok) :
    p ∈ (vccRegexp sgn o t).strs ↔ p ∈ o.strs ∨ p.1 = t ∧ p.2 = encToken sgn t := by
  have hmem : ∀ c c' : String, p ∈ [.code c, .str t (encToken sgn t), .code c'].filterMap Piece.token ↔
      p.1 = t ∧ p.2 = encToken sgn t := by
    intro c c'
    simp [Piece.token, Prod.ext_iff, eq_comm]
  unfold vccRegexp Bufs.strs
  simp only [List.filterMap_append, List.mem_append, hmem]
  tauto

theorem Writes.token (h : Writes sgn o ts o') {t : StrTok} {o'' : Bufs}
    (h' : ∀ p, p ∈ o''.strs ↔ p ∈ o'.strs ∨ p.1 = t ∧ p.2 = encToken sgn t) : Writes sgn o (ts ++ [t]) o'' := by
  intro p
  rw [h' p, h p, List.mem_append, List.mem_singleton]
  constructor
  · rintro ((h | ⟨h, heq⟩) | ⟨rfl, heq⟩)
    · exact .inl h
    · exact .inr ⟨.inl h, heq⟩
    · exact .inr ⟨.inr rfl, heq⟩
  · rintro (h | ⟨h | rfl, heq⟩)
    · exact .inl (.inl h)
    · exact .inl (.inr ⟨h, heq⟩)
    · exact .inr ⟨rfl, heq⟩

theorem Writes.regexp (h : Writes sgn o ts o') (t : StrTok) : Writes sgn o (ts ++ [t]) (vccRegexp sgn o' t) :=
  h.token fun p => mem_regexp p t

theorem Writes.val (h : Writes sgn o ts o') (v : StringVal) : Writes sgn o (ts ++ v.strings) (vccStringVal sgn o' v) := by
  induction v generalizing ts o' with
  | cstr t =>
    apply h.token
    intro p
    rw [vccStringVal, mem_put]
    simp only [Piece.str.injEq]
    constructor
    · rintro (h | ⟨rfl, heq⟩)
      · exact .inl h
      · exact .inr ⟨rfl, heq.symm⟩
    · rintro (h | ⟨rfl, heq⟩)
      · exact .inl h
      · exact .inr ⟨rfl, heq.symm⟩
  | var c =>
    rw [StringVal.strings, List.append_nil]
    exact h.code c
  | regsub all s re sub ihs ihsub =>
    have hw : Writes sgn o (ts ++ s.strings ++ [re] ++ sub.strings) (vccStringVal sgn o' (.regsub all s re sub)) :=
      (ihsub (((ihs (h.code _)).regexp re).code _)).code ")"
    rw [List.append_assoc, List.append_assoc] at hw
    exact hw

theorem Writes.vals (h : Writes sgn o ts o') (vs : List StringVal) :
    Writes sgn o (ts ++ vs.flatMap StringVal.strings) (vccStringVals sgn o' vs) := by
  unfold vccStringVals
  induction vs generalizing ts o' with
  | nil =>
    rw [List.flatMap_nil, List.append_nil]
    exact h
  | cons v vs ih =>
    have hw := ih ((h.val v).code ", ")
    rw [List.append_assoc] at hw
    exact hw

theorem Writes.test (h : Writes sgn o ts o') (c : PurgeTest) :
    Writes sgn o (ts ++ c.val.strings) (purgeTest sgn o' c) :=
  ((((h.code _).code _).code _).val c.val).code _

theorem Writes.tests (h : Writes sgn o ts o') (cs : List PurgeTest) :
    Writes sgn o (ts ++ cs.flatMap fun c => c.val.strings)
      (cs.foldl (fun o c => purgeTest sgn (o.put (.code "\"&&\",\n")) c) o') := by
  induction cs generalizing ts o' with
  | nil =>
    rw [List.flatMap_nil, List.append_nil]
    exact h
  | cons c cs ih =>
    have hw := ih ((h.code "\"&&\",\n").test c)
    rw [List.append_assoc] at hw
    exact hw

/-- What the parser of a statement writes, unless it is `parse_error` with a string. -/
theorem writes_emit {st : Stmt} (h : st.raw = []) : Writes sgn o st.vals (emit sgn o st) := by
  cases st with
  | error code arg =>
    cases arg with
    | none => exact ((((writes_refl).code _).code _).code _).code _
    | cstr t => simp [Stmt.raw] at h
    | val v => exact (((((writes_refl).code _).code _).val v).code _).code _
  | setString lname v vs => exact (((writes_refl).code _).vals (v :: vs)).code _
  | setHash lname v => exact (((writes_refl).code _).val v).code _
  | purge c cs => exact ((((writes_refl).code _).test c).tests cs).code _
  | purgeString v vs => exact (((writes_refl).code _).vals (v :: vs)).code _
  | purgeUrl v => exact (((writes_refl).code _).val v).code _
  | panic v vs => exact (((writes_refl).code _).vals (v :: vs)).code _
  | synthetic v vs => exact (((writes_refl).code _).vals (v :: vs)).code _
  | condMatch not rname re => exact (((writes_refl).code _).regexp re).code _
  | condCmp not rname v => exact (((writes_refl).code _).val v).code _
  | other c => exact (writes_refl).code c

/-- `parse_error` writes its string as it stands. -/
theorem mem_emit_error (code : String) (t : StrTok) (p : StrTok × List UInt8) :
    p ∈ (emit sgn {} (.error code (.cstr t))).strs ↔ p = (t, t.text) := by
  show p ∈ ((((((({} : Bufs).put (.code ("VRT_error(sp, " ++ code))).put (.code ", ")).put (.str t t.text)).put
    (.code ");\n")).put (.code "VRT_done(sp, VCL_RET_ERROR);\n"))).strs ↔ _
  simp only [mem_put, Piece.str.injEq, reduceCtorEq, or_false]
  rw [show (({} : Bufs).strs) = [] from rfl]
  simp [Prod.ext_iff, eq_comm]

end Written

/-! ## The string of an `error` -/

section Raw

variable {sgn : Bool} {body dec : List UInt8}

theorem decstr_cons {c : UInt8} (h : c ≠ 37) (t : List UInt8) : decstr (c :: t) = (decstr t).map (c :: ·) := by
  rw [decstr.eq_def]
  exact if_pos h

/-- An escape that is decoded. -/
theorem decstr_escape {t : List UInt8} (h : decstr (37 :: t) = .ok dec) :
    ∃ (a b u : UInt8) (t' d : List UInt8), t = a :: b :: t' ∧ a ≠ 92 ∧ b ≠ 92 ∧ u ≠ 0 ∧ decstr t' = .ok d ∧ dec = u :: d := by
  rw [decstr.eq_def] at h
  dsimp only at h
  rw [if_neg (by simp)] at h
  split at h
  next a b t' =>
    split at h
    next x y hx hy =>
      split at h
      next hg =>
        cases hd : decstr t' with
        | error e => simp [hd, Except.map] at h
        | ok d =>
          rw [hd] at h
          refine ⟨a, b, UInt8.ofNat (16 * x + y), t', d, rfl, ?_, ?_, ?_, hd, (Except.ok.inj h).symm⟩
          · rintro rfl
            rw [show xdig 92 = none by decide] at hx
            simp at hx
          · rintro rfl
            rw [show xdig 92 = none by decide] at hy
            simp at hy
          · intro h0
            rw [h0] at hg
            exact absurd hg (by decide)
      next => simp at h
    next => simp at h
  next => simp at h

/-- What decoding does to a string: the `%` go away with two characters each, and nothing else does. -/
theorem decstr_spec (n : ℕ) (body dec : List UInt8) (hn : body.length ≤ n) (h : decstr body = .ok dec) :
    ((∀ b ∈ body, b ≠ 0) → ∀ b ∈ dec, b ≠ 0) ∧ body.count 92 ≤ dec.count 92 ∧
      dec.length ≤ body.length ∧ (37 ∈ body → dec.length < body.length) := by
  induction n generalizing body dec with
  | zero =>
    obtain rfl : body = [] := List.length_eq_zero_iff.1 (Nat.le_zero.1 hn)
    obtain rfl : [] = dec := Except.ok.inj h
    simp
  | succ n ih =>
    cases body with
    | nil =>
      obtain rfl : [] = dec := Except.ok.inj h
      simp
    | cons c t =>
      rw [List.length_cons] at hn
      by_cases hc : c = 37
      · subst hc
        obtain ⟨a, b, u, t', d, rfl, ha, hb, hu, hd, rfl⟩ := decstr_escape h
        simp only [List.length_cons] at hn
        obtain ⟨h0, h92, hlen, -⟩ := ih t' d (by omega) hd
        refine ⟨?_, ?_, ?_, ?_⟩
        · intro hall x hx
          rcases List.mem_cons.1 hx with rfl | hx
          · exact hu
          · exact h0 (fun y hy => hall y (by simp [hy])) x hx
        · rw [List.count_cons_of_ne (by decide), List.count_cons_of_ne ha, List.count_cons_of_ne hb]
          exact Nat.le_trans h92 (List.count_le_count_cons ..)
        · simp only [List.length_cons]
          omega
        · intro _
          simp only [List.length_cons]
          omega
      · rw [decstr_cons hc] at h
        cases hd : decstr t with
        | error e => simp [hd, Except.map] at h
        | ok d =>
          rw [hd] at h
          obtain rfl : c :: d = dec := Except.ok.inj h
          obtain ⟨h0, h92, hlen, hlt⟩ := ih t d (by omega) hd
          refine ⟨?_, ?_, by simpa using hlen, ?_⟩
          · intro hall x hx
            rcases List.mem_cons.1 hx with rfl | hx
            · exact hall x (List.mem_cons_self ..)
            · exact h0 (fun y hy => hall y (List.mem_cons_of_mem _ hy)) x hx
          · rw [List.count_cons, List.count_cons]
            omega
          · intro hmem
            rcases List.mem_cons.1 hmem with rfl | hmem
            · exact absurd rfl hc
            · simpa using hlt hmem

theorem decstr_plain (h : 37 ∉ body) : decstr body = .ok body := by
  induction body with
  | nil => rfl
  | cons c t ih =>
    rw [List.mem_cons, not_or] at h
    rw [decstr_cons (Ne.symm h.1), ih h.2]
    rfl

theorem StrTok.dec_ne_zero (t : StrTok) : ∀ b ∈ t.dec, b ≠ 0 := by
  obtain ⟨long, body, dec, ok⟩ := t
  cases long with
  | false => exact (decstr_spec _ _ _ (Nat.le_refl _) ok.dec).1 ok.nul
  | true =>
    obtain rfl : dec = body := ok.dec
    exact ok.nul

theorem encToken_eq (t : StrTok) : encToken sgn t = encString sgn false t.dec := by
  have hall : ∀ b ∈ t.dec, decide (b ≠ 0) = true := by
    intro b hb
    simpa using t.dec_ne_zero b hb
  have htake := @List.takeWhile_append_of_pos _ _ _ [] hall
  rw [List.append_nil, List.takeWhile_nil, List.append_nil] at htake
  rw [encToken, htake]

theorem encByte_printable {b : UInt8} (h1 : 32 ≤ b.toNat) (h2 : b.toNat ≤ 126) (h3 : b ≠ 92) (h4 : b ≠ 34) :
    encByte sgn false b = [b] := by
  have hne : ∀ c : UInt8, c.toNat < 32 → b ≠ c := by
    rintro c hc rfl
    omega
  rw [encByte, if_neg (not_or.2 ⟨h3, h4⟩), if_neg (hne 10 (by decide)), if_neg (hne 9 (by decide)),
    if_neg (hne 13 (by decide))]
  split
  next h => rw [h]
  next h =>
    rw [if_pos]
    have h32 : b.toNat ≠ 32 := by
      intro h'
      apply h
      rw [← @UInt8.ofNat_toNat b, h']
      rfl
    simp [isgraph]
    omega

/-- A byte without a backslash in its encoding is written as it is. -/
theorem encByte_plain {b : UInt8} (h : 92 ∉ encByte sgn false b) :
    encByte sgn false b = [b] ∧ 32 ≤ b.toNat ∧ b.toNat ≤ 126 ∧ b ≠ 92 := by
  have hb : ¬ (b = 92 ∨ b = 34) := by
    intro hb
    rw [encByte, if_pos hb] at h
    simp at h
  have hpr : 32 ≤ b.toNat ∧ b.toNat ≤ 126 := by
    by_contra hno
    apply h
    have h32 : b ≠ 32 := by
      rintro rfl
      exact hno (by decide)
    have hg : ¬ isgraph b = true := by
      simp [isgraph]
      omega
    rw [encByte, if_neg hb, if_neg h32, if_neg hg]
    split
    next => simp
    next =>
      split
      next => simp
      next =>
        split
        next => simp
        next => simp
  rw [not_or] at hb
  exact ⟨encByte_printable hpr.1 hpr.2 hb.1 hb.2, hpr.1, hpr.2, hb.1⟩

theorem flatMap_single {f : UInt8 → List UInt8} (l : List UInt8) (h : ∀ b ∈ l, f b = [b]) : l.flatMap f = l := by
  induction l with
  | nil => rfl
  | cons b l ih =>
    rw [List.flatMap_cons, h b (List.mem_cons_self ..), ih fun c hc => h c (List.mem_cons_of_mem _ hc)]
    rfl

/-- A backslash is written as two. -/
theorem count_encBytes (s : List UInt8) : 2 * s.count 92 ≤ (s.flatMap (encByte sgn false)).count 92 := by
  induction s with
  | nil => simp
  | cons b s ih =>
    rw [List.flatMap_cons, List.count_append, List.count_cons]
    split
    next hb =>
      obtain rfl : b = 92 := by simpa using hb
      have htwo : (encByte sgn false 92).count 92 = 2 := by
        rw [encByte, if_pos (.inl rfl)]
        rfl
      omega
    next => omega

/-- The string of an `error` is written as it would be encoded, exactly if there is nothing special in it. -/
theorem text_iff (t : StrTok) : t.text = encString sgn false t.dec ↔ Simple t := by
  obtain ⟨long, body, dec, ok⟩ := t
  cases long with
  | true =>
    constructor
    · intro h
      have hhead := (List.cons.inj h).1
      exact absurd hhead (by decide)
    · intro h
      exact absurd h.1 (by simp)
  | false =>
    have hq : Quoted body dec := ok
    constructor
    · intro h
      have hbody : body = dec.flatMap (encByte sgn false) := List.append_cancel_right (List.cons.inj h).2
      obtain ⟨-, h92, -, hlt⟩ := decstr_spec _ _ _ (Nat.le_refl _) hq.dec
      have hcount := @count_encBytes sgn dec
      rw [← hbody] at hcount
      have hno : 92 ∉ body := by
        intro hmem
        have hpos := List.count_pos_iff.2 hmem
        omega
      have hplain : ∀ b ∈ dec, encByte sgn false b = [b] ∧ 32 ≤ b.toNat ∧ b.toNat ≤ 126 ∧ b ≠ 92 := by
        intro b hb
        apply encByte_plain
        intro hmem
        apply hno
        rw [hbody]
        exact List.mem_flatMap.2 ⟨b, hb, hmem⟩
      have heq : body = dec := by rw [hbody, flatMap_single dec fun b hb => (hplain b hb).1]
      refine ⟨rfl, ?_⟩
      intro b hb
      obtain ⟨-, h1, h2, h3⟩ := hplain b (by rw [← heq]; exact hb)
      refine ⟨h1, h2, ?_, h3⟩
      rintro rfl
      have := hlt hb
      rw [heq] at this
      omega
    · rintro ⟨-, h⟩
      have hdec : dec = body := by
        have hd := decstr_plain fun hmem => (h 37 hmem).2.2.1 rfl
        rw [hq.dec] at hd
        exact Except.ok.inj hd
      show 34 :: (body ++ [34]) = 34 :: (dec.flatMap (encByte sgn false) ++ [34])
      rw [hdec, flatMap_single body fun b hb =>
        encByte_printable (h b hb).1 (h b hb).2.1 (h b hb).2.2.2 (hq.chars b hb).1]

theorem plain_of_simple {t : StrTok} (h : Simple t) : Plain sgn t.dec := by
  obtain ⟨long, body, dec, ok⟩ := t
  obtain ⟨rfl, h⟩ := h
  have hdec : dec = body := by
    have hd := decstr_plain fun hmem => (h 37 hmem).2.2.1 rfl
    rw [Quoted.dec ok] at hd
    exact Except.ok.inj hd
  intro _ b hb
  have hmem : b ∈ body := by
    rw [← hdec]
    exact hb
  have hle := (h b hmem).2.1
  omega

end Raw

/-! ## The strings of a statement -/

section Main

variable {sgn : Bool}

theorem encoded_iff (t : StrTok) : Encoded sgn t (encToken sgn t) ↔ Plain sgn t.dec := by
  unfold Encoded
  rw [encToken_eq, cString_encString_iff]
  simp

theorem received_of_raw {code : String} {t : StrTok} : Received sgn (.error code (.cstr t)) ↔ Simple t := by
  have hstr : (Stmt.error code (.cstr t)).strings = [t] := rfl
  unfold Received
  rw [hstr]
  simp only [mem_emit_error]
  constructor
  · rintro ⟨-, h⟩
    exact (text_iff t).1 (h _ rfl).2.1
  · intro h
    refine ⟨?_, ?_⟩
    · intro t' ht'
      obtain rfl : t' = t := by simpa using ht'
      exact ⟨_, rfl⟩
    · rintro p rfl
      have htext := (@text_iff sgn t).2 h
      refine ⟨by simp, htext, ?_⟩
      rw [htext, cString_encString_iff]
      exact plain_of_simple h

theorem received_of_vals {st : Stmt} (h : st.raw = []) : Received sgn st ↔ ∀ t ∈ st.vals, Plain sgn t.dec := by
  have hmem : ∀ p, p ∈ (emit sgn {} st).strs ↔ p.1 ∈ st.vals ∧ p.2 = encToken sgn p.1 := by
    intro p
    rw [writes_emit h p, show (({} : Bufs).strs) = [] from rfl]
    simp
  have hstr : st.strings = st.vals := by
    unfold Stmt.strings
    rw [h]
    rfl
  unfold Received
  rw [hstr]
  constructor
  · rintro ⟨-, hall⟩ t ht
    exact (encoded_iff t).1 (hall (t, encToken sgn t) ((hmem _).2 ⟨ht, rfl⟩)).2
  · intro hall
    refine ⟨fun t ht => ⟨encToken sgn t, (hmem _).2 ⟨ht, rfl⟩⟩, ?_⟩
    intro p hp
    obtain ⟨ht, htext⟩ := (hmem p).1 hp
    rw [htext]
    exact ⟨ht, (encoded_iff p.1).2 (hall p.1 ht)⟩

/-- The literals that `EncString` prints denote their strings, and the C code of every statement gets its strings through
them, up to bytes above 127 where `char` is signed, and the string of an `error` unless there is nothing special in it. -/
theorem strings_iff (sgn : Bool) :
    (∀ (mode : Bool) (s : List UInt8), cString (encString sgn mode s) = some s ↔ Plain sgn s) ∧
      ∀ st : Stmt, Received sgn st ↔ (∀ t ∈ st.vals, Plain sgn t.dec) ∧ ∀ t ∈ st.raw, Simple t := by
  refine ⟨fun mode s => cString_encString_iff s, ?_⟩
  intro st
  by_cases h : st.raw = []
  · rw [received_of_vals h, h]
    simp
  · obtain ⟨code, t, rfl⟩ : ∃ code t, st = .error code (.cstr t) := by
      cases st with
      | error code arg =>
        cases arg with
        | cstr t => exact ⟨code, t, rfl⟩
        | none => exact absurd rfl h
        | val v => exact absurd rfl h
      | _ => exact absurd rfl h
    rw [received_of_raw]
    show _ ↔ (∀ t ∈ ([] : List StrTok), _) ∧ ∀ t' ∈ [t], Simple t'
    simp

/-- `"%41"`, which is the string `A`. -/
def percentA : StrTok := ⟨false, [37, 52, 49], [65], ⟨by simp, by simp, rfl⟩⟩

/-- The literal for a byte above 127 denotes nine characters, and `error 404 "%41"` does not get an `A`. -/
theorem strings_lost : cString (encString true false [0xe9]) = some [255, 55, 55, 55, 55, 55, 55, 53, 49] ∧
    (emit true {} (.error "404" (.cstr percentA))).strs.map Prod.snd = [[34, 37, 52, 49, 34]] ∧
    cString [34, 37, 52, 49, 34] = some [37, 52, 49] ∧ percentA.dec = [65] := by
  refine ⟨by decide +kernel, rfl, by decide +kernel, rfl⟩

end Main

end Varnish.Vcc.Strings
