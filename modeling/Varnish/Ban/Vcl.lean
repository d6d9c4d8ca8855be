import Varnish.Ban.Test

/-!
# Varnish.Ban.Vcl — `purge()` in VCL (`vcc_action.c`, `vcc_string.c`) and `VRT_purge`

* `stringVal`, `parsePurge`: the compiler, from the tokens to the arguments of the call that it writes.
* `vrtPurge`: the call at run time.
* `parsePurge_tokens`: every list of conditions is compiled to `condArgs`.
* `vrtPurge_iff`: the ban of the conditions is inserted if there is one condition; with more of them, no ban is.
-/

namespace Varnish.Ban

/-! ## Tokens -/

section Tokens

/-- The tokens of fixed text, as far as `purge` looks at them. -/
inductive Fixed
  | lpar
  | rpar
  | comma
  | tilde
  | nomatch
  | eq
  | neq
  | cand
  | other (text : Str)
deriving DecidableEq

def Fixed.text : Fixed → Str
  | .lpar => "(".toList
  | .rpar => ")".toList
  | .comma => ",".toList
  | .tilde => "~".toList
  | .nomatch => "!~".toList
  | .eq => "==".toList
  | .neq => "!=".toList
  | .cand => "&&".toList
  | .other text => text

/-- `struct token`: `VAR`, `ID`, `CSTR` with its `dec`, and the rest. -/
inductive Token
  | var (text : Str)
  | id (text : Str)
  | cstr (dec : Str)
  | fixed (f : Fixed)
deriving DecidableEq

/-- `enum var_type` -/
inductive VarType
  | backend
  | bool
  | int
  | float
  | size
  | time
  | rtime
  | string
  | ip
  | hash
  | header
deriving DecidableEq

/-- The types that `vcc_StringVal` has a string for. -/
def VarType.isString : VarType → Bool
  | .string | .ip | .int | .float | .time | .rtime | .backend => true
  | .bool | .size | .hash | .header => false

/-- What `vcc_StringVal` writes: a C string, the call that reads a variable, or a call of `VRT_regsub`. -/
inductive SVal
  | cstr (dec : Str)
  | var (name : Str)
  | regsub (all : Bool) (str : SVal) (re : Str) (sub : SVal)
deriving DecidableEq

/-- The errors: a text, or `vcc__Expect`. -/
inductive VccErr
  | text (msg : String)
  | expected (tok : String)
deriving DecidableEq

end Tokens

/-! ## The compiler -/

section Compiler

variable {R : Type} (vre : Vre R) (findVar : Str → Option VarType)

/-- `Expect` and `vcc_NextToken`.  The source goes on after an error, but what it has written is not used then. -/
def expect (f : Fixed) : List Token → Except VccErr (List Token)
  | .fixed g :: ts => if g = f then .ok ts else .error (.expected (String.ofList f.text))
  | _ => .error (.expected (String.ofList f.text))

/-- `vcc_ExpectedStringval`, if there was none. -/
def expectStringval : Except VccErr (Option (SVal × List Token)) → Except VccErr (SVal × List Token)
  | .error e => .error e
  | .ok none => .error (.text "Expected string variable or constant\n")
  | .ok (some p) => .ok p

/-- The regular expression of `vcc_regsub`, with `vcc_regexp`. -/
def expectRegexp : List Token → Except VccErr (Str × List Token)
  | .cstr re :: ts =>
    match vre.compile re with
    | .error e => .error (.text ("Regexp compilation error:\n\n" ++ String.ofList e ++ "\n\n"))
    | .ok _ => .ok (re, ts)
  | _ => .error (.expected "CSTR")

/-- `vcc_StringVal` and `vcc_regsub`; `none` is "could not use this token".  `findVar` is `vcc_FindVar` on the table of
variables. -/
def stringVal : (fuel : ℕ) → List Token → Except VccErr (Option (SVal × List Token))
  | 0, _ => .ok none
  | _ + 1, .cstr dec :: ts => .ok (some (.cstr dec, ts))
  | _ + 1, .var name :: ts =>
    match findVar name with
    | none => .error (.text "Unknown variable ")
    | some t =>
      if t.isString then .ok (some (.var name, ts))
      else .error (.text ("String representation of '" ++ String.ofList name ++ "' not implemented yet.\n"))
  | fuel + 1, .id w :: ts =>
    if w = "regsub".toList || w = "regsuball".toList then do
      let ts ← expect .lpar ts
      let (str, ts) ← expectStringval (stringVal fuel ts)
      let ts ← expect .comma ts
      let (re, ts) ← expectRegexp vre ts
      let ts ← expect .comma ts
      let (sub, ts) ← expectStringval (stringVal fuel ts)
      let ts ← expect .rpar ts
      .ok (some (.regsub (decide (w = "regsuball".toList)) str re sub, ts))
    else .ok none
  | _ + 1, _ => .ok none

/-- An argument of the call that is written. -/
inductive Arg
  | str (s : Str)
  | val (v : SVal)
  | null
deriving DecidableEq

/-- The operator of a condition. -/
def isOper (f : Fixed) : Bool := f = .tilde || f = .nomatch || f = .eq || f = .neq

/-- The loop of `parse_purge`: the arguments behind `sp`. -/
def purgeLoop : (fuel : ℕ) → List Token → Except VccErr (List Arg × List Token)
  | fuel + 1, .var name :: ts =>
    match pvars.find? fun pv => pv.name.isPrefixOf name with
    | none => .error (.text "Unknown purge variable.")
    | some pv =>
      if pv.http && decide (name.length ≤ pv.name.length) then .error (.text "Missing header name.")
      else
        match ts with
        | .fixed f :: ts =>
          if isOper f then do
            let (v, ts) ← expectStringval (stringVal vre findVar (ts.length + 1) ts)
            match ts with
            | .fixed .rpar :: ts => .ok ([.str name, .str f.text, .val v, .null], .fixed .rpar :: ts)
            | .fixed .cand :: ts => do
              let (args, ts) ← purgeLoop fuel ts
              .ok (.str name :: .str f.text :: .val v :: .str Fixed.cand.text :: args, ts)
            | _ => .error (.expected "&&")
          else .error (.text "Expected ~, !~, == or !=.\n")
        | _ => .error (.text "Expected ~, !~, == or !=.\n")
  | _, _ => .error (.expected "VAR")

/-- The strings of `VRT_purge_string`, as many as there are. -/
def stringVals : (fuel : ℕ) → List Token → Except VccErr (List SVal × List Token)
  | 0, ts => .ok ([], ts)
  | fuel + 1, ts =>
    match stringVal vre findVar (ts.length + 1) ts with
    | .error e => .error e
    | .ok none => .ok ([], ts)
    | .ok (some (v, ts)) => do
      let (vs, ts) ← stringVals fuel ts
      .ok (v :: vs, ts)

/-- The call that `parse_purge` writes. -/
inductive Call
  | purge (args : List Arg)
  | purgeString (vals : List SVal)
deriving DecidableEq

/-- `parse_purge`, with the tokens behind the name of the action. -/
def parsePurge (ts : List Token) : Except VccErr (Call × List Token) := do
  let ts ← expect .lpar ts
  match ts with
  | .var name :: ts => do
    let (args, ts) ← purgeLoop vre findVar (ts.length + 1) (.var name :: ts)
    let ts ← expect .rpar ts
    .ok (.purge args, ts)
  | ts => do
    let (v, ts) ← expectStringval (stringVal vre findVar (ts.length + 1) ts)
    let (vs, ts) ← stringVals vre findVar (ts.length + 1) ts
    let ts ← expect .rpar ts
    .ok (.purgeString (v :: vs), ts)

end Compiler

/-! ## The call -/

section Runtime

variable {R : Type} (vre : Vre R)

/-- The string that an argument has at run time, `none` for `NULL`; `env` has the variables and `VRT_regsub`. -/
def SVal.eval (env : SVal → Option Str) : SVal → Option Str
  | .cstr dec => some dec
  | v => env v

def Arg.eval (env : SVal → Option Str) : Arg → Option Str
  | .str s => some s
  | .val v => v.eval env
  | .null => none

/-- The loop of `VRT_purge` over its arguments: what is inserted, if `good` is left.  It does not look for `&&`.  The outer
`none` is the failed assertion of `ban_parse_http`, or an argument that was not passed. -/
def vrtPurgeLoop : (good : Bool) → BanSpec R → List (Option Str) → Option (Option (BanSpec R))
  | good, b, none :: _ => some (if good then some b else none)
  | _, _, some _ :: none :: _ => some none
  | _, _, some _ :: some _ :: none :: _ => some none
  | _, b, some a1 :: some a2 :: some a3 :: args =>
    match banAddTest vre b a1 a2 a3 with
    | none => none
    | some (.error _) => some none
    | some (.ok b') => vrtPurgeLoop true b' args
  | _, _, _ => none

/-- `VRT_purge`: the ban that it inserts. -/
def vrtPurge (args : List (Option Str)) : Option (Option (BanSpec R)) := vrtPurgeLoop vre false banNew args

end Runtime

/-! ## Conditions -/

section Conditions

variable {R : Type} (vre : Vre R) (findVar : Str → Option VarType) (env : SVal → Option Str)

/-- How a string is spelled. -/
def SVal.tokens : SVal → List Token
  | .cstr dec => [.cstr dec]
  | .var name => [.var name]
  | .regsub all str re sub =>
    .id (if all then "regsuball".toList else "regsub".toList) :: .fixed .lpar :: (str.tokens ++
      (.fixed .comma :: .cstr re :: .fixed .comma :: (sub.tokens ++ [.fixed .rpar])))

/-- The variables are known and have strings, and the regular expressions compile. -/
def SVal.Valid : SVal → Prop
  | .cstr _ => True
  | .var name => ∃ t, findVar name = some t ∧ t.isString = true
  | .regsub _ str re sub => SVal.Valid str ∧ (∃ r, vre.compile re = .ok r) ∧ SVal.Valid sub

/-- A condition of `purge()`. -/
structure Cond where
  field : Str
  oper : Fixed
  val : SVal
deriving DecidableEq

def Cond.tokens (c : Cond) : List Token := .var c.field :: .fixed c.oper :: c.val.tokens

/-- The compiler has nothing to say against the condition. -/
structure Cond.Valid (c : Cond) : Prop where
  field : ∃ pv, (pvars.find? fun pv => pv.name.isPrefixOf c.field) = some pv ∧ ¬ (pv.http = true ∧ c.field.length ≤ pv.name.length)
  oper : isOper c.oper = true
  val : c.val.Valid vre findVar

/-- The conditions `c` and `cs`, with `&&` between them. -/
def condTokens : Cond → List Cond → List Token
  | c, [] => c.tokens
  | c, d :: cs => c.tokens ++ .fixed .cand :: condTokens d cs

def purgeTokens (c : Cond) (cs : List Cond) (rest : List Token) : List Token :=
  .fixed .lpar :: (condTokens c cs ++ .fixed .rpar :: rest)

/-- The arguments that are written for them. -/
def condArgs : Cond → List Cond → List Arg
  | c, [] => [.str c.field, .str c.oper.text, .val c.val, .null]
  | c, d :: cs => .str c.field :: .str c.oper.text :: .val c.val :: .str "&&".toList :: condArgs d cs

/-- The words of the CLI command for them, if each has a string. -/
def cliWords : Cond → List Cond → Option (List Str)
  | c, [] => (c.val.eval env).map fun v => [c.field, c.oper.text, v]
  | c, d :: cs => do
    let v ← c.val.eval env
    let ws ← cliWords d cs
    some (c.field :: c.oper.text :: v :: "&&".toList :: ws)

/-- What an operator means: the sense of the comparison, and what is compared with. -/
def Fixed.meaning (v : Str) : Fixed → Option (Bool × BanArg R)
  | .tilde => (vre.compile v).toOption.map fun r => (false, .re r)
  | .nomatch => (vre.compile v).toOption.map fun r => (true, .re r)
  | .eq => some (false, .dst v)
  | .neq => some (true, .dst v)
  | _ => none

/-- The test that a condition spells. -/
def Cond.test (c : Cond) : Option (BanTest R) := do
  let v ← c.val.eval env
  let pv ← pvars.find? fun pv => pv.name.isPrefixOf c.field
  let (not, arg) ← c.oper.meaning vre v
  some ⟨pv.func (c.field.drop pv.name.length), not, arg⟩

/-- The condition spells a test at run time: it has a string, the regular expression compiles, and the name of the header is not
too long for `ban_parse_http`. -/
def Cond.Sound (c : Cond) : Prop :=
  ∃ v, c.val.eval env = some v ∧ (c.oper = .tilde ∨ c.oper = .nomatch → ∃ r, vre.compile v = .ok r) ∧
    ("req.url".toList <+: c.field ∨ c.field.length < 9 + 127)

end Conditions

/-! ## What is compiled -/

section Parse

variable {R : Type} {vre : Vre R} {findVar : Str → Option VarType}

theorem stringVal_tokens {v : SVal} (hv : v.Valid vre findVar) (fuel : ℕ) (hf : v.tokens.length ≤ fuel) (ts : List Token) :
    stringVal vre findVar fuel (v.tokens ++ ts) = .ok (some (v, ts)) := by
  induction v generalizing fuel ts with
  | cstr dec =>
    obtain ⟨fuel, rfl⟩ := Nat.exists_eq_add_of_le' hf
    rfl
  | var name =>
    obtain ⟨fuel, rfl⟩ := Nat.exists_eq_add_of_le' hf
    obtain ⟨t, ht, hs⟩ := hv
    show stringVal vre findVar (fuel + 1) (.var name :: ts) = _
    rw [stringVal, ht]
    exact if_pos hs
  | regsub all str re sub ihs ihb =>
    obtain ⟨hstr, ⟨r, hr⟩, hsub⟩ := hv
    simp only [SVal.tokens, List.length_cons, List.length_append, List.length_nil] at hf
    obtain ⟨fuel, rfl⟩ := Nat.exists_eq_add_of_le' (show 1 ≤ fuel by omega)
    have h1 := ihs hstr fuel (by omega)
      (.fixed .comma :: .cstr re :: .fixed .comma :: (sub.tokens ++ .fixed .rpar :: ts))
    have h2 := ihb hsub fuel (by omega) (.fixed .rpar :: ts)
    have hall : ∀ a : Bool, ((if a then "regsuball".toList else "regsub".toList) = "regsub".toList ||
        (if a then "regsuball".toList else "regsub".toList) = "regsuball".toList) = true ∧
        decide ((if a then "regsuball".toList else "regsub".toList) = "regsuball".toList) = a := by
      decide
    obtain ⟨hw, ha⟩ := hall all
    rw [SVal.tokens, List.cons_append, List.cons_append, List.append_assoc, List.cons_append, List.cons_append, List.cons_append,
      List.append_assoc, List.singleton_append, stringVal, if_pos hw, ha]
    simp only [expect, expectStringval, expectRegexp, h1, h2, hr, bind, Except.bind, if_true]

/-- One turn of the loop of `parse_purge`, up to the token behind the condition. -/
theorem purgeLoop_cond {c : Cond} (hc : c.Valid vre findVar) (fuel : ℕ) (ts : List Token) :
    purgeLoop vre findVar (fuel + 1) (c.tokens ++ .fixed .rpar :: ts) =
        .ok ([.str c.field, .str c.oper.text, .val c.val, .null], .fixed .rpar :: ts) ∧
      purgeLoop vre findVar (fuel + 1) (c.tokens ++ .fixed .cand :: ts) = (purgeLoop vre findVar fuel ts).map fun p =>
        (.str c.field :: .str c.oper.text :: .val c.val :: .str Fixed.cand.text :: p.1, p.2) := by
  obtain ⟨⟨pv, hpv, hlen⟩, hop, hval⟩ := hc
  have hs : ∀ us, stringVal vre findVar ((c.val.tokens ++ us).length + 1) (c.val.tokens ++ us) = .ok (some (c.val, us)) :=
    fun us => stringVal_tokens hval _ (by rw [List.length_append]; omega) us
  have hlen' : ¬ (pv.http && decide (c.field.length ≤ pv.name.length)) = true := by
    rw [Bool.and_eq_true, decide_eq_true_eq]
    exact hlen
  constructor
  · rw [Cond.tokens, List.cons_append, List.cons_append, purgeLoop, hpv]
    simp only [if_neg hlen', if_pos hop, hs, expectStringval, bind, Except.bind]
  · rw [Cond.tokens, List.cons_append, List.cons_append, purgeLoop, hpv]
    simp only [if_neg hlen', if_pos hop, hs, expectStringval, bind, Except.bind]
    cases purgeLoop vre findVar fuel ts <;> rfl

theorem purgeLoop_tokens {c : Cond} {cs : List Cond} (hv : ∀ d ∈ c :: cs, d.Valid vre findVar) (fuel : ℕ)
    (hf : (condTokens c cs).length ≤ fuel) (ts : List Token) :
    purgeLoop vre findVar fuel (condTokens c cs ++ .fixed .rpar :: ts) = .ok (condArgs c cs, .fixed .rpar :: ts) := by
  induction cs generalizing c fuel with
  | nil =>
    have h1 : 1 ≤ (condTokens c []).length := Nat.succ_le_of_lt (Nat.zero_lt_succ _)
    obtain ⟨fuel, rfl⟩ := Nat.exists_eq_add_of_le' (Nat.le_trans h1 hf)
    exact (purgeLoop_cond (hv c List.mem_cons_self) fuel ts).1
  | cons d cs ih =>
    rw [condTokens, List.length_append, List.length_cons] at hf
    obtain ⟨fuel, rfl⟩ := Nat.exists_eq_add_of_le' (show 1 ≤ fuel by omega)
    have hrest := ih (fun e he => hv e (List.mem_cons_of_mem _ he)) fuel (by omega)
    rw [condTokens, List.append_assoc, List.cons_append, (purgeLoop_cond (hv c List.mem_cons_self) fuel _).2, hrest]
    rfl

/-- Every list of conditions is compiled, and to these arguments. -/
theorem parsePurge_tokens {c : Cond} {cs : List Cond} (hv : ∀ d ∈ c :: cs, d.Valid vre findVar) (rest : List Token) :
    parsePurge vre findVar (purgeTokens c cs rest) = .ok (.purge (condArgs c cs), rest) := by
  have hhead : ∃ ts, condTokens c cs ++ .fixed .rpar :: rest = .var c.field :: ts := by
    cases cs with
    | nil => exact ⟨_, rfl⟩
    | cons d cs => exact ⟨_, rfl⟩
  obtain ⟨ts, hts⟩ := hhead
  have hloop := purgeLoop_tokens hv (ts.length + 1) (by
    have := congrArg List.length hts
    rw [List.length_append, List.length_cons, List.length_cons] at this
    omega) rest
  rw [hts] at hloop
  unfold parsePurge purgeTokens
  rw [hts]
  simp only [expect, hloop, bind, Except.bind, if_true]

end Parse

/-! ## What is run -/

section Run

variable {R : Type} {vre : Vre R} {findVar : Str → Option VarType} {env : SVal → Option Str} {c d : Cond} {v : Str}

/-- The field of a condition: one of the three variables. -/
theorem Cond.Valid.pvar (hc : c.Valid vre findVar) : ∃ pv ∈ pvars, (pvars.find? fun pv => pv.name.isPrefixOf c.field) = some pv ∧
    pv.name <+: c.field := by
  obtain ⟨pv, hpv, -⟩ := hc.field
  have hpre := List.find?_some hpv
  rw [List.isPrefixOf_iff_prefix] at hpre
  exact ⟨pv, List.mem_of_find?_eq_some hpv, hpv, hpre⟩

/-- The name of a header in a field, where there is one, is not too long. -/
theorem short_iff {pv : Pvar} {w : Str} (hpv : pv ∈ pvars) (hpre : pv.name <+: w) :
    (pv.http && !(decide ((w.drop pv.name.length).length < 127))) = false ↔ "req.url".toList <+: w ∨ w.length < 9 + 127 := by
  obtain ⟨u, rfl⟩ := hpre
  simp only [pvars, List.mem_cons, List.not_mem_nil, or_false] at hpv
  rcases hpv with rfl | rfl | rfl
  · exact iff_of_true rfl (.inl (List.prefix_append _ _))
  · rw [List.drop_left, List.length_append, show "req.http.".toList.length = 9 from rfl, Bool.true_and, Bool.not_eq_false',
      decide_eq_true_eq, Nat.add_lt_add_iff_left]
    refine ⟨.inr, fun h => h.resolve_left ?_⟩
    rintro ⟨t, ht⟩
    exact absurd (show ['r', 'e', 'q', '.', 'u'] = ['r', 'e', 'q', '.', 'h'] from congrArg (List.take 5) ht) (by decide)
  · rw [List.drop_left, List.length_append, show "obj.http.".toList.length = 9 from rfl, Bool.true_and, Bool.not_eq_false',
      decide_eq_true_eq, Nat.add_lt_add_iff_left]
    refine ⟨.inr, fun h => h.resolve_left ?_⟩
    rintro ⟨t, ht⟩
    exact absurd (show ['r'] = ['o'] from congrArg (List.take 1) ht) (by decide)

/-- No field is an operator. -/
theorem Cond.Valid.not_oper (hc : c.Valid vre findVar) (v : Str) : ∃ e, banParseArg vre c.field v = .error e := by
  obtain ⟨pv, hpv, -, u, hu⟩ := hc.pvar
  have hhead : c.field.head? = some 'r' ∨ c.field.head? = some 'o' := by
    rw [← hu]
    simp only [pvars, List.mem_cons, List.not_mem_nil, or_false] at hpv
    rcases hpv with rfl | rfl | rfl
    · exact .inl rfl
    · exact .inl rfl
    · exact .inr rfl
  have hne : ∀ a : Str, a.head? ≠ some 'r' → a.head? ≠ some 'o' → c.field ≠ a := by
    rintro a h1 h2 rfl
    exact hhead.elim h1 h2
  unfold banParseArg
  rw [if_neg (hne _ (by decide) (by decide)), if_neg (hne _ (by decide) (by decide)), if_neg (hne _ (by decide) (by decide)),
    if_neg (hne _ (by decide) (by decide))]
  exact ⟨_, rfl⟩

/-- An operator, and when it has no meaning. -/
theorem banParseArg_oper (vre : Vre R) {f : Fixed} (hf : isOper f = true) (v : Str) :
    (banParseArg vre f.text v).toOption = f.meaning vre v ∧
      ((f = .tilde ∨ f = .nomatch → ∃ r, vre.compile v = .ok r) ↔ ∃ p, f.meaning vre v = some p) := by
  have hf' : f = .tilde ∨ f = .nomatch ∨ f = .eq ∨ f = .neq := by
    cases f <;> simp_all [isOper]
  unfold banParseArg Fixed.meaning Fixed.text
  rcases hf' with rfl | rfl | rfl | rfl
  · rw [if_pos rfl]
    cases vre.compile v <;> simp [Except.map, Except.toOption]
  · rw [if_neg (by decide), if_pos rfl]
    cases vre.compile v <;> simp [Except.map, Except.toOption]
  · rw [if_neg (by decide), if_neg (by decide), if_pos rfl]
    exact ⟨rfl, iff_of_true (fun h => by rcases h with h | h <;> cases h) ⟨_, rfl⟩⟩
  · rw [if_neg (by decide), if_neg (by decide), if_neg (by decide), if_pos rfl]
    exact ⟨rfl, iff_of_true (fun h => by rcases h with h | h <;> cases h) ⟨_, rfl⟩⟩

/-- What `BAN_AddTest` makes of a condition. -/
theorem addTest_cond (hc : c.Valid vre findVar) (hv : c.val.eval env = some v) (b : BanSpec R) :
    (c.Sound vre env ∧ ∃ b' t, banAddTest vre b c.field c.oper.text v = some (.ok b') ∧ c.test vre env = some t ∧
      b'.tests = b.tests ++ [t]) ∨
    (¬ c.Sound vre env ∧ ∀ b', banAddTest vre b c.field c.oper.text v ≠ some (.ok b')) := by
  obtain ⟨pv, hmem, hpv, hpre⟩ := hc.pvar
  obtain ⟨hpar, hmean⟩ := banParseArg_oper vre hc.oper v
  have hshort := short_iff hmem hpre
  have hsound : c.Sound vre env ↔ (∃ p, c.oper.meaning vre v = some p) ∧
      (pv.http && !(decide ((c.field.drop pv.name.length).length < 127))) = false := by
    rw [← hmean, hshort, Cond.Sound]
    constructor
    · rintro ⟨w, hw, h⟩
      cases hv.symm.trans hw
      exact h
    · exact fun h => ⟨v, hv, h⟩
  rw [hsound]
  unfold banAddTest
  rw [hpv]
  cases hp : banParseArg vre c.oper.text v with
  | error e =>
    rw [hp] at hpar
    refine .inr ⟨?_, fun b' h => by cases h⟩
    rintro ⟨⟨p, h⟩, -⟩
    rw [← hpar] at h
    cases h
  | ok p =>
    rw [hp] at hpar
    obtain ⟨not, arg⟩ := p
    by_cases hs : (pv.http && !(decide ((c.field.drop pv.name.length).length < 127))) = true
    · refine .inr ⟨fun h => absurd hs (by rw [h.2]; decide), fun b' h => ?_⟩
      dsimp only at h
      rw [if_pos hs] at h
      cases h
    · dsimp only
      rw [if_neg hs]
      have htest : c.test vre env = some ⟨pv.func (c.field.drop pv.name.length), not, arg⟩ := by
        simp [Cond.test, hv, hpv, ← hpar, Except.toOption]
      exact .inl ⟨⟨⟨_, hpar.symm⟩, by simpa using hs⟩, _, _, rfl, htest, rfl⟩

/-- Two conditions or more: the loop takes `&&` for a field, and the field behind it is no operator. -/
theorem vrtPurge_more (hc : c.Valid vre findVar) (hd : d.Valid vre findVar) (cs : List Cond) (b : BanSpec R) :
    vrtPurge vre ((condArgs c (d :: cs)).map (Arg.eval env)) ≠ some (some b) := by
  have htail : ∃ l, (condArgs d cs).map (Arg.eval env) = some d.field :: some d.oper.text :: l := by
    cases cs with
    | nil => exact ⟨_, rfl⟩
    | cons e cs => exact ⟨_, rfl⟩
  obtain ⟨l, hl⟩ := htail
  obtain ⟨e, he⟩ := hd.not_oper d.oper.text
  have hamp : ∀ b' : BanSpec R, banAddTest vre b' "&&".toList d.field d.oper.text = some (.error e) := by
    intro b'
    unfold banAddTest
    rw [he]
  have hargs : (condArgs c (d :: cs)).map (Arg.eval env) = some c.field :: some c.oper.text :: c.val.eval env ::
      some "&&".toList :: some d.field :: some d.oper.text :: l := by
    rw [← hl]
    rfl
  rw [vrtPurge, hargs]
  cases hv : c.val.eval env with
  | none =>
    intro h
    cases h
  | some v =>
    rw [vrtPurgeLoop]
    rcases addTest_cond hc hv banNew with ⟨-, b', t, hb', -⟩ | ⟨-, hno⟩
    · rw [hb']
      simp only [vrtPurgeLoop, hamp]
      simp
    · cases ha : banAddTest vre banNew c.field c.oper.text v with
      | none => simp
      | some r =>
        cases r with
        | error e => simp
        | ok b' => exact absurd ha (hno b')

/-- One condition: it is tested as it is by the CLI command. -/
theorem vrtPurge_one (env : SVal → Option Str) (hc : c.Valid vre findVar) :
    (c.Sound vre env ∧ ∃ v b t, c.val.eval env = some v ∧ vrtPurge vre ((condArgs c []).map (Arg.eval env)) = some (some b) ∧
      ccfPurge vre [c.field, c.oper.text, v] = some (.ok b) ∧ c.test vre env = some t ∧ b.tests = [t]) ∨
    (¬ c.Sound vre env ∧ ∀ b, vrtPurge vre ((condArgs c []).map (Arg.eval env)) ≠ some (some b)) := by
  have hargs : (condArgs c []).map (Arg.eval env) = [some c.field, some c.oper.text, c.val.eval env, none] := rfl
  rw [hargs, vrtPurge]
  cases hv : c.val.eval env with
  | none =>
    refine .inr ⟨?_, fun b h => by cases h⟩
    rintro ⟨v, h, -⟩
    cases hv.symm.trans h
  | some v =>
    rw [vrtPurgeLoop]
    rcases addTest_cond hc hv banNew with ⟨hs, b', t, hb', ht, htests⟩ | ⟨hs, hno⟩
    · refine .inl ⟨hs, v, b', t, rfl, by rw [hb']; rfl, ?_, ht, htests⟩
      show addTests vre banNew [(c.field, c.oper.text, v)] = some (.ok b')
      rw [addTests, hb']
      rfl
    · refine .inr ⟨hs, fun b => ?_⟩
      cases ha : banAddTest vre banNew c.field c.oper.text v with
      | none => simp
      | some r =>
        cases r with
        | error e => simp
        | ok b' => exact absurd ha (hno b')

/-- For all conditions that compile: `VRT_purge`, on the arguments that `parse_purge` writes, inserts a ban with one test for each
condition, and the CLI command with these words inserts the same ban, if and only if there is one condition and it is sound. -/
theorem vrtPurge_iff (c : Cond) (cs : List Cond) (rest : List Token) (env : SVal → Option Str)
    (hv : ∀ d ∈ c :: cs, d.Valid vre findVar) :
    (∃ args b words, parsePurge vre findVar (purgeTokens c cs rest) = .ok (.purge args, rest) ∧
      vrtPurge vre (args.map (Arg.eval env)) = some (some b) ∧ (c :: cs).map (Cond.test vre env) = b.tests.map some ∧
      cliWords env c cs = some words ∧ ccfPurge vre words = some (.ok b)) ↔ cs = [] ∧ c.Sound vre env := by
  have hc := hv c List.mem_cons_self
  constructor
  · rintro ⟨args, b, words, hp, hb, -⟩
    rw [parsePurge_tokens hv] at hp
    cases hp
    cases cs with
    | nil =>
      rcases vrtPurge_one env hc with ⟨hs, -⟩ | ⟨-, hno⟩
      · exact ⟨rfl, hs⟩
      · exact absurd hb (hno b)
    | cons d cs => exact absurd hb (vrtPurge_more hc (hv d (List.mem_cons_of_mem _ List.mem_cons_self)) cs b)
  · rintro ⟨rfl, hs⟩
    rcases vrtPurge_one env hc with ⟨-, v, b, t, hval, hvrt, hccf, ht, htests⟩ | ⟨hn, -⟩
    · refine ⟨condArgs c [], b, [c.field, c.oper.text, v], parsePurge_tokens hv rest, hvrt, ?_, ?_, hccf⟩
      · rw [htests, List.map_singleton, List.map_singleton, ht]
      · rw [cliWords, hval]
        rfl
    · exact absurd hs hn

/-- `req.url ~ "png$"` -/
def urlCond : Cond := ⟨"req.url".toList, .tilde, .cstr "png$".toList⟩

/-- `obj.http.x == "y"` -/
def objCond : Cond := ⟨"obj.http.x".toList, .eq, .cstr "y".toList⟩

theorem urlCond_valid : urlCond.Valid plainVre fun _ => none :=
  ⟨⟨pvars[0], rfl, fun h => by cases h.1⟩, rfl, trivial⟩

theorem vrtPurge_iff_urlCond : ∃ args b words,
    parsePurge plainVre (fun _ => none) (purgeTokens urlCond [] []) = .ok (.purge args, []) ∧
      vrtPurge plainVre (args.map (Arg.eval fun _ => none)) = some (some b) ∧
      [urlCond].map (Cond.test plainVre fun _ => none) = b.tests.map some ∧
      cliWords (fun _ => none) urlCond [] = some words ∧ ccfPurge plainVre words = some (.ok b) :=
  (vrtPurge_iff urlCond [] [] (fun _ => none) fun d hd => by
    rw [List.mem_singleton.mp hd]
    exact urlCond_valid).mpr ⟨rfl, _, rfl, fun _ => ⟨_, rfl⟩, .inl (List.prefix_refl _)⟩

/-- With two conditions `VRT_purge` inserts nothing, where the CLI command inserts a ban with two tests. -/
theorem vrtPurge_two : ∃ args words b,
    parsePurge plainVre (fun _ => none) (purgeTokens urlCond [objCond] []) = .ok (.purge args, []) ∧
      vrtPurge plainVre (args.map (Arg.eval fun _ => none)) = some none ∧
      cliWords (fun _ => none) urlCond [objCond] = some words ∧ ccfPurge plainVre words = some (.ok b) ∧ b.tests.length = 2 :=
  ⟨condArgs urlCond [objCond], _, _, by decide +kernel, by decide +kernel, rfl, rfl, rfl⟩

end Run

end Varnish.Ban
