import Mathlib.Data.Int.Notation
import Mathlib.Data.List.Basic

/-!
# Varnish.Ban.Test — the tests of a ban (`cache_ban.c`, `cache_http.c`, `vsb.c`)

A ban is a list of tests on the request and on the object, all of which must match.

* `banCond`: what a test does with an object and, if there is one, a request.
* `banAddTest`, `ccfPurge`: the tests and the text of a ban, from the arguments of the `purge` command.
* `BanSpec.Ok`, `ccfPurge_ok`: a ban that was built this way is marked `BAN_F_REQ` exactly if one of its tests looks at
  the request.
-/

namespace Varnish.Ban

/-- A string of C: the bytes before the terminating NUL. -/
abbrev Str := List Char

/-! ## Headers -/

section Http

/-- `struct http`: the URL and the header lines, where a line can be lost. -/
structure Http where
  url : Option Str
  hd : List (Option Str)
deriving DecidableEq

/-- `vct_issp`. -/
def vctIssp (c : Char) : Bool := c = ' ' || c = '\t'

/-- The line `b` is one of the header `hdr`, `strncasecmp` and the colon after it. -/
def isHdr (hdr b : Str) : Bool :=
  hdr.length + 1 ≤ b.length && b[hdr.length]? = some ':' && (b.take hdr.length).map Char.toLower = hdr.map Char.toLower

/-- `http_findhdr`. -/
def httpFindhdr (hp : Http) (hdr : Str) : Option Str :=
  hp.hd.findSome? fun b => b.filter (isHdr hdr)

/-- `http_GetHdr`. -/
def httpGetHdr (hp : Http) (hdr : Str) : Option Str :=
  (httpFindhdr hp hdr).map fun b => (b.drop (hdr.length + 1)).dropWhile vctIssp

end Http

/-! ## Tests -/

section Tests

variable {R : Type}

/-- The regular expressions: `VRE_compile` and `VRE_exec`. -/
structure Vre (R : Type) where
  compile : Str → Except Str R
  exec : R → Str → ℤ

/-- Patterns of plain characters, which match where they occur. -/
def plainVre : Vre Str where
  compile := .ok
  exec r p := if p.tails.any r.isPrefixOf then 0 else -1

/-- The `func` of a test with its `src`. -/
inductive BanFunc where
  | url
  | reqHttp (src : Str)
  | objHttp (src : Str)
deriving DecidableEq

/-- The function looks at the request. -/
def BanFunc.isReq : BanFunc → Bool
  | .url => true
  | .reqHttp _ => true
  | .objHttp _ => false

/-- The `re` of a test with `BAN_T_REGEXP`, the `dst` of one without. -/
inductive BanArg (R : Type) where
  | re (r : R)
  | dst (s : Str)
deriving DecidableEq

/-- `struct ban_test`; `not` is `BAN_T_NOT`. -/
structure BanTest (R : Type) where
  func : BanFunc
  not : Bool
  arg : BanArg R
deriving DecidableEq

/-- `ban_cond_str`: whether the test does not match. -/
def banCondStr (vre : Vre R) (bt : BanTest R) : Option Str → Bool
  | none => !bt.not
  | some p =>
    let i := match bt.arg with
      | .re r => decide (vre.exec r p < 0)
      | .dst s => decide (s ≠ p)
    if bt.not then !i else i

/-- `bt->func(bt, o, sp)`: `ban_cond_url`, `ban_cond_req_http` and `ban_cond_obj_http`. Without a request the first two
have nothing to look at. -/
def banCond (vre : Vre R) (bt : BanTest R) (o : Http) (sp : Option Http) : Option Bool :=
  match bt.func with
  | .url => sp.map fun hp => banCondStr vre bt hp.url
  | .reqHttp src => sp.map fun hp => banCondStr vre bt (httpGetHdr hp src)
  | .objHttp src => some (banCondStr vre bt (httpGetHdr o src))

/-- The loop over the tests of a ban: it goes on until one does not match. -/
def banMatch (vre : Vre R) (o : Http) (sp : Option Http) : List (BanTest R) → Option Bool
  | [] => some true
  | bt :: bts => do
    if ← banCond vre bt o sp then some false else banMatch vre o sp bts

end Tests

/-! ## The specification of a ban -/

section Spec

variable {R : Type}

/-- What `BAN_AddTest` builds: the tests, `BAN_F_REQ` and the text. -/
structure BanSpec (R : Type) where
  tests : List (BanTest R)
  req : Bool
  test : Str
deriving DecidableEq

/-- `isgraph`. -/
def isgraph (c : Char) : Bool := 33 ≤ c.toNat && c.toNat ≤ 126

/-- A character between the quotes of `vsb_quote`. -/
def quoteChar (c : Char) : Str :=
  if c = ' ' then [c]
  else if c = '\\' || c = '"' then ['\\', c]
  else if c = '\n' then ['\\', 'n']
  else if c = '\r' then ['\\', 'r']
  else if c = '\t' then ['\\', 't']
  else if isgraph c then [c]
  else '\\' :: Nat.toDigits 8 (c.toNat &&& 0xff)

/-- `vsb_quote`. -/
def vsbQuote (p : Str) : Str :=
  if p.any (fun c => !isgraph c || c = '"') then '"' :: p.flatMap quoteChar ++ ['"'] else p

/-- `struct pvar`; `req` and `http` are the flags. -/
structure Pvar where
  name : Str
  req : Bool
  http : Bool
  func : Str → BanFunc

/-- `purge_vars.h`. -/
def pvars : List Pvar :=
  [⟨"req.url".toList, true, false, fun _ => .url⟩,
    ⟨"req.http.".toList, true, true, .reqHttp⟩,
    ⟨"obj.http.".toList, false, true, .objHttp⟩]

/-- The flags and the argument of the comparison `a2` with `a3`, `ban_parse_regexp` included. -/
def banParseArg (vre : Vre R) (a2 a3 : Str) : Except Str (Bool × BanArg R) :=
  if a2 = "~".toList then (vre.compile a3).map fun r => (false, .re r)
  else if a2 = "!~".toList then (vre.compile a3).map fun r => (true, .re r)
  else if a2 = "==".toList then .ok (false, .dst a3)
  else if a2 = "!=".toList then .ok (true, .dst a3)
  else .error ("expected conditional (~, !~, == or !=) got \"".toList ++ a2 ++ "\"".toList)

/-- `BAN_AddTest`; `none` is the failed assertion of `ban_parse_http` on the length of the header name. -/
def banAddTest (vre : Vre R) (b : BanSpec R) (a1 a2 a3 : Str) : Option (Except Str (BanSpec R)) :=
  match banParseArg vre a2 a3 with
  | .error e => some (.error e)
  | .ok (not, arg) =>
    match pvars.find? fun pv => pv.name.isPrefixOf a1 with
    | none => some (.error ("unknown or unsupported field \"".toList ++ a1 ++ "\"".toList))
    | some pv =>
      let src := a1.drop pv.name.length
      if pv.http && !(decide (src.length < 127)) then none
      else some (.ok
        { tests := b.tests ++ [⟨pv.func src, not, arg⟩]
          req := b.req || pv.req
          test := b.test ++ (if b.tests.isEmpty then [] else " && ".toList) ++
            a1 ++ [' '] ++ a2 ++ [' '] ++ vsbQuote a3 })

/-- The conditions of `BAN_New`. -/
def banNew : BanSpec R := ⟨[], false, []⟩

/-- The calls of `BAN_AddTest` in `ccf_purge`, up to the first that fails. -/
def addTests (vre : Vre R) : BanSpec R → List (Str × Str × Str) → Option (Except Str (BanSpec R))
  | b, [] => some (.ok b)
  | b, (a1, a2, a3) :: l =>
    match banAddTest vre b a1 a2 a3 with
    | none => none
    | some (.error e) => some (.error e)
    | some (.ok b') => addTests vre b' l

/-- The first word between two tests that is not `&&`. -/
def notAmp : List Str → Option Str
  | _ :: _ :: _ :: w :: av => if w = "&&".toList then notAmp av else some w
  | _ => none

/-- The arguments of the tests. -/
def purgeTests : List Str → List (Str × Str × Str)
  | a1 :: a2 :: a3 :: _ :: av => (a1, a2, a3) :: purgeTests av
  | [a1, a2, a3] => [(a1, a2, a3)]
  | _ => []

/-- `ccf_purge` up to `BAN_Insert`, with the arguments after the name of the command. -/
def ccfPurge (vre : Vre R) (av : List Str) : Option (Except Str (BanSpec R)) :=
  if av.length % 4 ≠ 3 then some (.error "Wrong number of arguments".toList)
  else
    match notAmp av with
    | some w => some (.error ("Found \"".toList ++ w ++ "\" expected &&".toList))
    | none => addTests vre banNew (purgeTests av)

end Spec

/-! ## What the tests of a ban look at -/

section Ok

variable {R : Type} {vre : Vre R}

/-- `BAN_F_REQ` is set if and only if some test looks at the request. -/
def BanSpec.Ok (b : BanSpec R) : Prop := b.req = b.tests.any fun bt => bt.func.isReq

theorem pvars_req {pv : Pvar} (h : pv ∈ pvars) (src : Str) : pv.req = (pv.func src).isReq := by
  simp only [pvars, List.mem_cons, List.not_mem_nil, or_false] at h
  obtain rfl | rfl | rfl := h <;> rfl

theorem banAddTest_ok {b b' : BanSpec R} {a1 a2 a3 : Str} (h : banAddTest vre b a1 a2 a3 = some (.ok b')) (hb : b.Ok) :
    b'.Ok := by
  unfold banAddTest at h
  split at h
  · cases h
  · split at h
    · cases h
    · rename_i pv hpv
      dsimp only at h
      split at h
      · cases h
      · cases h
        have hmem := List.mem_of_find?_eq_some hpv
        simp only [BanSpec.Ok, List.any_append, List.any_cons, List.any_nil, Bool.or_false]
        rw [← pvars_req hmem, ← hb]

theorem addTests_ok {b b' : BanSpec R} {l : List (Str × Str × Str)} (h : addTests vre b l = some (.ok b'))
    (hb : b.Ok) : b'.Ok := by
  induction l generalizing b with
  | nil =>
    cases h
    exact hb
  | cons a l ih =>
    obtain ⟨a1, a2, a3⟩ := a
    rw [addTests] at h
    split at h
    · cases h
    · cases h
    · rename_i b1 hb1
      exact ih h (banAddTest_ok hb1 hb)

/-- A ban of the `purge` command is marked `BAN_F_REQ` exactly if it has to be. -/
theorem ccfPurge_ok {b : BanSpec R} {av : List Str} (h : ccfPurge vre av = some (.ok b)) : b.Ok := by
  unfold ccfPurge at h
  split at h
  · cases h
  · split at h
    · cases h
    · exact addTests_ok h rfl

end Ok

/-! ## Matching -/

section Match

variable {R : Type} {vre : Vre R} {o : Http} {sp : Option Http}

/-- All the tests of the ban match. -/
def holds (vre : Vre R) (o : Http) (sp : Option Http) (bts : List (BanTest R)) : Bool :=
  bts.all fun bt => banCond vre bt o sp == some false

/-- A test can be evaluated: there is a request, or it does not look at one. -/
theorem banCond_isSome (vre : Vre R) (o : Http) (bt : BanTest R) (h : sp.isSome ∨ bt.func.isReq = false) :
    ∃ i, banCond vre bt o sp = some i := by
  unfold banCond
  cases hf : bt.func with
  | objHttp src => exact ⟨_, rfl⟩
  | url =>
    obtain hp | hn := h
    · obtain ⟨hp, rfl⟩ := Option.isSome_iff_exists.mp hp
      exact ⟨_, rfl⟩
    · rw [hf] at hn
      cases hn
  | reqHttp src =>
    obtain hp | hn := h
    · obtain ⟨hp, rfl⟩ := Option.isSome_iff_exists.mp hp
      exact ⟨_, rfl⟩
    · rw [hf] at hn
      cases hn

/-- The loop over the tests, where each of them can be evaluated, is `holds`. -/
theorem banMatch_eq {bts : List (BanTest R)} (h : sp.isSome ∨ (bts.any fun bt => bt.func.isReq) = false) :
    banMatch vre o sp bts = some (holds vre o sp bts) := by
  induction bts with
  | nil => rfl
  | cons bt bts ih =>
    have hbt : sp.isSome ∨ bt.func.isReq = false := h.imp_right fun hf => by
      rw [List.any_cons, Bool.or_eq_false_iff] at hf
      exact hf.1
    have hbts : sp.isSome ∨ (bts.any fun bt => bt.func.isReq) = false := h.imp_right fun hf => by
      rw [List.any_cons, Bool.or_eq_false_iff] at hf
      exact hf.2
    obtain ⟨i, hi⟩ := banCond_isSome vre o bt hbt
    cases i <;> simp [banMatch, holds, hi, ih hbts]

end Match

end Varnish.Ban
