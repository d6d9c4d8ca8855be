import Varnish.Lib.CText
import Varnish.Vcc.Lexer

/-!
# Varnish.Vcc.Conditional — conditions and `if` (`vcc_parse.c`)

* `cond2`, `cond1`, `cond0`, `conditional`, `ifStmt`, `compound`: the parser, with the C text that it writes (`Fb`).
* `Derives`, `Spells`: the grammar of VCL, `||` weakest, then `&&`, then `!`.
* `Cond.eval`, `Code.exec`: what conditions and statements of VCL mean.

The parser stops at the first error.  What it calls for the values of a comparison and for an action takes a number of
tokens and writes one expression, or some statements; these functions are parameters.
-/

namespace Varnish.Vcc.Conditional

open Varnish.Lib

/-! ## Tokens and text -/

section Text

/-- `struct token` with its text. -/
structure Token where
  tok : Lexer.Tok
  text : String
deriving DecidableEq

/-- `enum var_type` -/
inductive Fmt
  | backend
  | bool
  | int
  | float
  | size
  | string
  | ip
  | hash
  | time
  | rtime
  | header
deriving DecidableEq

/-- `struct var` -/
structure Var where
  fmt : Fmt
  rname : String
deriving DecidableEq

/-- The primary expressions of the text: the calls of `VRT_count`, and the others as they are written. -/
inductive Prim
  | count (n : ℕ)
  | text (s : String)
deriving DecidableEq

abbrev CTok := CText.Tok Prim String

/-- A statement that an action writes. -/
inductive Simple
  /-- `call` -/
  | call (f : String)
  | text (s : String)
deriving DecidableEq

/-- The two lines of `parse_call`, or a line as it is. -/
def Simple.toks : Simple → List CTok
  | .call f => [.kif, .lpar, .prim (.text ("VGC_function_" ++ f ++ "(sp)")), .rpar, .stmt "return (1);"]
  | .text s => [.stmt s]

/-- `struct tokenlist`: the tokens from `tl->t` on, the counter, and the rest. -/
structure TokenList (S : Type) where
  t : List Token
  cnt : ℕ
  st : S

/-- The functions that the parser calls.  The numbers count the tokens that they take. -/
structure Callees (S : Type) where
  /-- `vcc_FindVar` -/
  findVar : S → String → Option (Var × S)
  /-- `vcc_VarVal` -/
  varVal : Fmt → S → List Token → Option (ℕ × String × S)
  /-- `vcc_StringVal` -/
  stringVal : S → List Token → Option (ℕ × String × S)
  /-- `vcc_regexp` -/
  regexp : S → Token → Option (String × S)
  /-- `vcc_acl_entry`, `vcc_acl_emit` of an acl whose name is a number -/
  aclEntry : ℕ → S → List Token → Option (ℕ × S)
  /-- `vcc_AddRef` -/
  addRef : S → Token → S
  /-- `vcc_isCid` -/
  isCid : Token → Bool
  /-- `vcc_ParseAction` -/
  parseAction : S → List Token → Option (ℕ × List Simple × S)

end Text

/-! ## The parser -/

section Parser

variable {S : Type} (V : Callees S)

/-- `vcc_NextToken` -/
def TokenList.next (tl : TokenList S) : TokenList S := { tl with t := tl.t.tail }

/-- Some tokens were taken, and the rest has changed. -/
def TokenList.took (tl : TokenList S) (n : ℕ) (st : S) : TokenList S := { tl with t := tl.t.drop n, st }

def TokenList.counted (tl : TokenList S) : TokenList S := { tl with cnt := tl.cnt + 1 }

/-- `SkipToken` -/
def skipToken (k : Lexer.Tok) (tl : TokenList S) : Option (TokenList S) := do
  let t ← tl.t.head?
  if t.tok = k then some tl.next else none

/-- The macro `C`: the counter has been raised. -/
def C (sep : CTok) (tl : TokenList S) : List CTok := [.prim (.count tl.cnt), sep]

def chr (c : Char) : Lexer.Tok := .chr (Lexer.ch c)

/-- The operators of `Cond_Int`, as C reads them. -/
def intOp : Lexer.Tok → Option CText.BinOp
  | .tEq => some .eq
  | .tNeq => some .ne
  | .tLeq => some .le
  | .tGeq => some .ge
  | k => if k = chr '>' then some .gt else if k = chr '<' then some .lt else none

def bang (b : Bool) : List CTok := if b then [.not] else []

/-- `Cond_String` -/
def condString (vp : Var) (tl : TokenList S) : Option (List CTok × TokenList S) := do
  let t ← tl.t.head?
  if t.tok = chr '~' ∨ t.tok = .tNomatch then do
    let u ← tl.next.t.head?
    if u.tok = .cstr then do
      let r ← V.regexp tl.st u
      some (bang (t.tok = .tNomatch) ++ [.prim (.text ("VRT_re_match(" ++ vp.rname ++ ", " ++ r.1 ++ ")"))],
        tl.next.took 1 r.2)
    else none
  else if t.tok = .tEq ∨ t.tok = .tNeq then do
    let r ← V.stringVal tl.st tl.next.t
    some (bang (t.tok = .tEq) ++ [.prim (.text ("VRT_strcmp(" ++ vp.rname ++ ", " ++ r.2.1 ++ ")"))],
      tl.next.took r.1 r.2.2)
  else some ([.prim (.text vp.rname), .bin .ne, .prim (.text "(void*)0")], tl)

/-- `Cond_Int` -/
def condInt (vp : Var) (tl : TokenList S) : Option (List CTok × TokenList S) := do
  let t ← tl.t.head?
  let op ← intOp t.tok
  let r ← V.varVal vp.fmt tl.st tl.next.t
  some ([.prim (.text vp.rname), .bin op, .prim (.text r.2.1)], tl.next.took r.1 r.2.2)

/-- `Cond_Bool` -/
def condBool (vp : Var) (tl : TokenList S) : Option (List CTok × TokenList S) :=
  some ([.prim (.text vp.rname)], tl)

/-- `Cond_Backend` -/
def condBackend (vp : Var) (tl : TokenList S) : Option (List CTok × TokenList S) := do
  let t ← tl.t.head?
  let u ← tl.next.t.head?
  if (t.tok = .tEq ∨ t.tok = .tNeq) ∧ u.tok = .id ∧ V.isCid u then
    some ([.prim (.text vp.rname), .bin (if t.tok = .tEq then .eq else .ne),
      .prim (.text ("VGCDIR(_" ++ u.text ++ ")"))], tl.next.took 1 (V.addRef tl.st u))
  else none

/-- `vcc_Cond_Ip`; an acl of one entry has the counter as its name. -/
def condIp (vp : Var) (tl : TokenList S) : Option (List CTok × TokenList S) := do
  let t ← tl.t.head?
  if t.tok = chr '~' then do
    let u ← tl.next.t.head?
    if u.tok = .id then
      some ([.prim (.text ("match_acl_named_" ++ u.text ++ "(sp, " ++ vp.rname ++ ")"))],
        tl.next.took 1 (V.addRef tl.st u))
    else none
  else if t.tok = .tEq ∨ t.tok = .tNeq then do
    let r ← V.aclEntry tl.cnt tl.st tl.next.t
    some (bang (t.tok = .tNeq) ++
      [.prim (.text ("match_acl_anon_" ++ toString tl.cnt ++ "(sp, " ++ vp.rname ++ ")"))], tl.next.took r.1 r.2)
  else none

/-- The switch of `Cond_2`. -/
def condVar (vp : Var) (tl : TokenList S) : Option (List CTok × TokenList S) :=
  match vp.fmt with
  | .int => condInt V vp tl
  | .size => condInt V vp tl
  | .bool => condBool vp tl
  | .ip => condIp V vp tl
  | .string => condString V vp tl
  | .time => condInt V vp tl
  | .rtime => condInt V vp tl
  | .backend => condBackend V vp tl
  | _ => none

mutual

/-- `Cond_2` -/
def cond2 : ℕ → TokenList S → Option (List CTok × TokenList S)
  | 0, _ => none
  | n + 1, tl => do
    let t ← tl.t.head?
    let neg := decide (t.tok = chr '!')
    let r ← cond2Body n (if neg then tl.counted.next else tl.counted)
    some (C (.bin .comma) tl.counted ++ bang neg ++ .lpar :: r.1 ++ [.rpar], r.2)

/-- What stands behind the `!`. -/
def cond2Body : ℕ → TokenList S → Option (List CTok × TokenList S)
  | 0, _ => none
  | n + 1, tl => do
    let t ← tl.t.head?
    if t.tok = chr '(' then do
      let r ← cond0 n tl.next
      let tl' ← skipToken (chr ')') r.2
      some (r.1, tl')
    else if t.tok = .var then do
      let vp ← V.findVar tl.st t.text
      condVar V vp.1 (tl.took 1 vp.2)
    else none

/-- `Cond_1` -/
def cond1 : ℕ → TokenList S → Option (List CTok × TokenList S)
  | 0, _ => none
  | n + 1, tl => do
    let r ← cond2 n tl
    let q ← cond1Loop n r.2
    some (.lpar :: r.1 ++ q.1 ++ [.rpar], q.2)

/-- The loop of `Cond_1`. -/
def cond1Loop : ℕ → TokenList S → Option (List CTok × TokenList S)
  | 0, _ => none
  | n + 1, tl => do
    let t ← tl.t.head?
    if t.tok = .tCand then do
      let r ← cond2 n tl.next
      let q ← cond1Loop n r.2
      some (.rpar :: .bin .land :: .lpar :: r.1 ++ q.1, q.2)
    else some ([], tl)

/-- `Cond_0` -/
def cond0 : ℕ → TokenList S → Option (List CTok × TokenList S)
  | 0, _ => none
  | n + 1, tl => do
    let r ← cond1 n tl
    let q ← cond0Loop n r.2
    some (.lpar :: r.1 ++ q.1 ++ [.rpar], q.2)

/-- The loop of `Cond_0`. -/
def cond0Loop : ℕ → TokenList S → Option (List CTok × TokenList S)
  | 0, _ => none
  | n + 1, tl => do
    let t ← tl.t.head?
    if t.tok = .tCor then do
      let r ← cond1 n tl.next
      let q ← cond0Loop n r.2
      some (.rpar :: .bin .lor :: .lpar :: r.1 ++ q.1, q.2)
    else some ([], tl)

end

/-- `Conditional` -/
def conditional (n : ℕ) (tl : TokenList S) : Option (List CTok × TokenList S) := do
  let tl ← skipToken (chr '(') tl
  let r ← cond0 V n tl
  let tl ← skipToken (chr ')') r.2
  some (.lpar :: r.1 ++ [.rpar], tl)

mutual

/-- `IfStmt` -/
def ifStmt : ℕ → TokenList S → Option (List CTok × TokenList S)
  | 0, _ => none
  | n + 1, tl => do
    let tl ← skipToken .tIf tl
    let c ← conditional V n tl
    let b ← compound n c.2
    let r ← ifChain n b.2
    some (.kif :: c.1 ++ b.1 ++ r.1, r.2)

/-- The loop of `IfStmt`. -/
def ifChain : ℕ → TokenList S → Option (List CTok × TokenList S)
  | 0, _ => none
  | n + 1, tl => do
    let t ← tl.t.head?
    if t.tok = .tElse then do
      let u ← tl.next.t.head?
      if u.tok = .tIf then elseIf n tl.next
      else do
        let b ← compound n tl.next
        some (.kelse :: b.1, b.2)
    else if t.tok = .tElseif ∨ t.tok = .tElsif then elseIf n tl
    else some (C .semi tl.counted, tl.counted)

/-- The branch of `T_ELSEIF` and `T_ELSIF`, which `T_ELSE` falls into. -/
def elseIf : ℕ → TokenList S → Option (List CTok × TokenList S)
  | 0, _ => none
  | n + 1, tl => do
    let c ← conditional V n tl.next
    let b ← compound n c.2
    let r ← ifChain n b.2
    some (.kelse :: .kif :: c.1 ++ b.1 ++ r.1, r.2)

/-- `Compound` -/
def compound : ℕ → TokenList S → Option (List CTok × TokenList S)
  | 0, _ => none
  | n + 1, tl => do
    let tl ← skipToken (chr '{') tl
    let r ← items n tl.counted
    some (.lbrace :: C .semi tl.counted ++ r.1, r.2)

/-- The loop of `Compound`; the piece of text at `CSRC` is inline C. -/
def items : ℕ → TokenList S → Option (List CTok × TokenList S)
  | 0, _ => none
  | n + 1, tl => do
    let t ← tl.t.head?
    if t.tok = chr '{' then do
      let b ← compound n tl
      let r ← items n b.2
      some (b.1 ++ r.1, r.2)
    else if t.tok = .tIf then do
      let b ← ifStmt n tl
      let r ← items n b.2
      some (b.1 ++ r.1, r.2)
    else if t.tok = chr '}' then some ([.rbrace], tl.next)
    else if t.tok = .csrc then do
      let r ← items n tl.next
      some (.stmt t.text :: r.1, r.2)
    else if t.tok = .id then do
      let a ← V.parseAction tl.st tl.t
      let tl ← skipToken (chr ';') (tl.took a.1 a.2.2)
      let r ← items n tl
      some (a.2.1.flatMap Simple.toks ++ r.1, r.2)
    else none

end

end Parser

/-! ## The grammar of VCL -/

section Grammar

/-- A comparison, with the operands as C has them. -/
inductive Atom
  | number (vp : Var) (op : CText.BinOp) (val : String)
  | bool (vp : Var)
  | backend (vp : Var) (neg : Bool) (name : String)
  | regex (vp : Var) (neg : Bool) (re : String)
  | string (vp : Var) (neg : Bool) (val : String)
  | present (vp : Var)
  | acl (vp : Var) (name : String)
  | aclEntry (vp : Var) (neg : Bool) (n : ℕ)

inductive Cond
  | atom (a : Atom)
  | not (c : Cond)
  | and (a b : Cond)
  | or (a b : Cond)

/-- The parts of the grammar of conditions, from the tightest. -/
inductive Level
  | primary
  | negation
  | conjunction
  | disjunction

variable {S : Type} (V : Callees S)

def Token.names (t : Token) (vp : Var) : Prop := t.tok = .var ∧ ∃ st st', V.findVar st t.text = some (vp, st')

/-- `vs` is what a function that takes `n` tokens has taken. -/
def Taken (n : ℕ) (vs rest : List Token) : Prop := vs = (vs ++ rest).take n

/-- How numbers are compared. -/
inductive Operator : Lexer.Tok → CText.BinOp → Prop
  | eq : Operator .tEq .eq
  | ne : Operator .tNeq .ne
  | le : Operator .tLeq .le
  | ge : Operator .tGeq .ge
  | lt : Operator (chr '<') .lt
  | gt : Operator (chr '>') .gt

/-- The tokens of a comparison. -/
inductive Spelled : List Token → Atom → Prop
  | number {v o : Token} {vs rest : List Token} {vp : Var} {op : CText.BinOp} {val : String} {st st' : S} {n : ℕ} :
      v.names V vp → vp.fmt = .int ∨ vp.fmt = .size ∨ vp.fmt = .time ∨ vp.fmt = .rtime → Operator o.tok op →
      V.varVal vp.fmt st (vs ++ rest) = some (n, val, st') → Taken n vs rest → Spelled (v :: o :: vs) (.number vp op val)
  | bool {v : Token} {vp : Var} : v.names V vp → vp.fmt = .bool → Spelled [v] (.bool vp)
  | backend {v o u : Token} {vp : Var} {neg : Bool} :
      v.names V vp → vp.fmt = .backend → o.tok = (if neg then .tNeq else .tEq) → u.tok = .id →
      Spelled [v, o, u] (.backend vp neg u.text)
  | regex {v o u : Token} {vp : Var} {neg : Bool} {re : String} {st st' : S} :
      v.names V vp → vp.fmt = .string → o.tok = (if neg then .tNomatch else chr '~') → u.tok = .cstr →
      V.regexp st u = some (re, st') → Spelled [v, o, u] (.regex vp neg re)
  | string {v o : Token} {vs rest : List Token} {vp : Var} {neg : Bool} {val : String} {st st' : S} {n : ℕ} :
      v.names V vp → vp.fmt = .string → o.tok = (if neg then .tNeq else .tEq) →
      V.stringVal st (vs ++ rest) = some (n, val, st') → Taken n vs rest → Spelled (v :: o :: vs) (.string vp neg val)
  | present {v : Token} {vp : Var} : v.names V vp → vp.fmt = .string → Spelled [v] (.present vp)
  | acl {v o u : Token} {vp : Var} :
      v.names V vp → vp.fmt = .ip → o.tok = chr '~' → u.tok = .id → Spelled [v, o, u] (.acl vp u.text)
  | aclEntry {v o : Token} {vs rest : List Token} {vp : Var} {neg : Bool} {st st' : S} {n m : ℕ} :
      v.names V vp → vp.fmt = .ip → o.tok = (if neg then .tNeq else .tEq) →
      V.aclEntry m st (vs ++ rest) = some (n, st') → Taken n vs rest → Spelled (v :: o :: vs) (.aclEntry vp neg m)

/-- The tokens of a condition. -/
inductive Derives : Level → List Token → Cond → Prop
  | atom {ts : List Token} {a : Atom} : Spelled V ts a → Derives .primary ts (.atom a)
  | paren {t u : Token} {ts : List Token} {c : Cond} :
      t.tok = chr '(' → u.tok = chr ')' → Derives .disjunction ts c → Derives .primary (t :: ts ++ [u]) c
  | plain {ts : List Token} {c : Cond} : Derives .primary ts c → Derives .negation ts c
  | not {t : Token} {ts : List Token} {c : Cond} :
      t.tok = chr '!' → Derives .primary ts c → Derives .negation (t :: ts) (.not c)
  | single {ts : List Token} {c : Cond} : Derives .negation ts c → Derives .conjunction ts c
  | and {t : Token} {ts us : List Token} {a b : Cond} :
      t.tok = .tCand → Derives .conjunction ts a → Derives .negation us b → Derives .conjunction (ts ++ t :: us) (.and a b)
  | one {ts : List Token} {c : Cond} : Derives .conjunction ts c → Derives .disjunction ts c
  | or {t : Token} {ts us : List Token} {a b : Cond} :
      t.tok = .tCor → Derives .disjunction ts a → Derives .conjunction us b → Derives .disjunction (ts ++ t :: us) (.or a b)

/-- A place of the grammar of statements: in a compound, or behind the compound of an `if`. -/
inductive Part
  | compound
  | chain

inductive Code : Part → Type
  | close : Code .compound
  | csrc (text : String) (rest : Code .compound) : Code .compound
  | action (l : List Simple) (rest : Code .compound) : Code .compound
  | compound (body rest : Code .compound) : Code .compound
  | ifStmt (c : Cond) (body : Code .compound) (chain : Code .chain) (rest : Code .compound) : Code .compound
  | endIf : Code .chain
  | els (body : Code .compound) : Code .chain
  | elseIf (c : Cond) (body : Code .compound) (chain : Code .chain) : Code .chain

/-- The tokens of an `else if`. -/
def ElseIf (ts : List Token) : Prop :=
  (∃ t u : Token, ts = [t, u] ∧ t.tok = .tElse ∧ u.tok = .tIf) ∨
    ∃ t : Token, ts = [t] ∧ (t.tok = .tElseif ∨ t.tok = .tElsif)

/-- A condition in its parentheses. -/
def InParens (ts : List Token) (c : Cond) : Prop :=
  ∃ (t u : Token) (cs : List Token), ts = t :: cs ++ [u] ∧ t.tok = chr '(' ∧ u.tok = chr ')' ∧ Derives V .disjunction cs c

/-- The tokens of statements up to the end of their compound, and of what stands behind the compound of an `if`. -/
inductive Spells : {k : Part} → List Token → Code k → Prop
  | close {t : Token} : t.tok = chr '}' → Spells [t] .close
  | csrc {t : Token} {ts : List Token} {rest : Code .compound} :
      t.tok = .csrc → Spells ts rest → Spells (t :: ts) (.csrc t.text rest)
  | action {as vs ts : List Token} {t : Token} {l : List Simple} {st st' : S} {n : ℕ} {rest : Code .compound} :
      V.parseAction st (as ++ vs) = some (n, l, st') → Taken n as vs → t.tok = chr ';' → Spells ts rest →
      Spells (as ++ t :: ts) (.action l rest)
  | compound {t : Token} {ts us : List Token} {body rest : Code .compound} :
      t.tok = chr '{' → Spells ts body → Spells us rest → Spells (t :: ts ++ us) (.compound body rest)
  | ifStmt {t u : Token} {cs ts vs us : List Token} {c : Cond} {body rest : Code .compound} {chain : Code .chain} :
      t.tok = .tIf → InParens V cs c → u.tok = chr '{' → Spells ts body → Spells vs chain → Spells us rest →
      Spells (t :: cs ++ u :: ts ++ vs ++ us) (.ifStmt c body chain rest)
  | endIf : Spells [] .endIf
  | els {t u : Token} {ts : List Token} {body : Code .compound} :
      t.tok = .tElse → u.tok = chr '{' → Spells ts body → Spells (t :: u :: ts) (.els body)
  | elseIf {u : Token} {es cs ts vs : List Token} {c : Cond} {body : Code .compound} {chain : Code .chain} :
      ElseIf es → InParens V cs c → u.tok = chr '{' → Spells ts body → Spells vs chain →
      Spells (es ++ cs ++ u :: ts ++ vs) (.elseIf c body chain)

end Grammar

/-! ## The meaning of VCL -/

section Meaning

variable {σ : Type} (M : CText.Machine String String σ)

open CText (andThen)

/-- The comparison of two operands, the left one first. -/
def compare (op : CText.BinOp) (l r : String) (s : σ) : Bool × σ :=
  (M.cmp op (M.prim l s).1 (M.prim r (M.prim l s).2).1, (M.prim r (M.prim l s).2).2)

/-- The answer of a call, turned round by `neg`. -/
def ask (neg : Bool) (p : String) (s : σ) : Bool × σ := (neg ^^ M.truth (M.prim p s).1, (M.prim p s).2)

/-- What a comparison says: strings are equal where `VRT_strcmp` finds no difference. -/
def Atom.eval : Atom → σ → Bool × σ
  | .number vp op val => compare M op vp.rname val
  | .bool vp => ask M false vp.rname
  | .backend vp neg name => compare M (if neg then .ne else .eq) vp.rname ("VGCDIR(_" ++ name ++ ")")
  | .regex vp neg re => ask M neg ("VRT_re_match(" ++ vp.rname ++ ", " ++ re ++ ")")
  | .string vp neg val => ask M (!neg) ("VRT_strcmp(" ++ vp.rname ++ ", " ++ val ++ ")")
  | .present vp => compare M .ne vp.rname "(void*)0"
  | .acl vp name => ask M false ("match_acl_named_" ++ name ++ "(sp, " ++ vp.rname ++ ")")
  | .aclEntry vp neg n => ask M neg ("match_acl_anon_" ++ toString n ++ "(sp, " ++ vp.rname ++ ")")

/-- Atoms are evaluated from left to right, and only where they matter. -/
def Cond.eval : Cond → σ → Bool × σ
  | .atom a, s => a.eval M s
  | .not c, s => (!(c.eval s).1, (c.eval s).2)
  | .and a b, s => if (a.eval s).1 then b.eval (a.eval s).2 else (false, (a.eval s).2)
  | .or a b, s => if (a.eval s).1 then (true, (a.eval s).2) else b.eval (a.eval s).2

/-- `call` returns where the other sub has ended with an action. -/
def Simple.exec : Simple → σ → Bool × σ
  | .call f, s =>
    if (ask M false ("VGC_function_" ++ f ++ "(sp)") s).1 then
      M.stmt "return (1);" (ask M false ("VGC_function_" ++ f ++ "(sp)") s).2
    else (false, (ask M false ("VGC_function_" ++ f ++ "(sp)") s).2)
  | .text t, s => M.stmt t s

def execAll : List Simple → σ → Bool × σ
  | [], s => (false, s)
  | a :: l, s => andThen (a.exec M s) (execAll l)

/-- Of an `if` the compound behind the first true condition is executed, else that of the `else`. -/
def Code.exec : {k : Part} → Code k → σ → Bool × σ
  | _, .close, s => (false, s)
  | _, .csrc text rest, s => andThen (M.stmt text s) rest.exec
  | _, .action l rest, s => andThen (execAll M l s) rest.exec
  | _, .compound body rest, s => andThen (body.exec s) rest.exec
  | _, .ifStmt c body chain rest, s =>
    andThen (if (c.eval M s).1 then body.exec (c.eval M s).2 else chain.exec (c.eval M s).2) rest.exec
  | _, .endIf, s => (false, s)
  | _, .els body, s => body.exec s
  | _, .elseIf c body chain, s => if (c.eval M s).1 then body.exec (c.eval M s).2 else chain.exec (c.eval M s).2

end Meaning

end Varnish.Vcc.Conditional
