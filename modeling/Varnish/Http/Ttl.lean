import Mathlib.Algebra.Order.Ring.Rat
import Mathlib.Data.Rat.Floor
import Mathlib.Tactic.Linarith
import Varnish.Http.Straight

/-!
# Varnish.Http.Ttl — the lifetime of a response (`RFC2616_Ttl`)

Times are rational numbers, and `TIM_parse` is a parameter.

* `getHdrField`, `rfc2616Ttl`: the functions.
* `lifetimeOf`, `ageOf`, `TtlRight`: what the response says, and what should come of it.
* `First`, `getHdrField_iff`: the first token of a name in a header, which is the one that is found.
* `Seen`: the text that the lifetime is read from.  `ttlRight_iff`: when it comes out right.
-/

namespace Varnish.Http

open Varnish.Ban Varnish.Lib Varnish.Lib.Strtoul

/-! ## The functions -/

section Functions

/-- `vct_issepctl` -/
def vctIssepctl (c : Char) : Bool :=
  c.toNat < 32 || c.toNat = 127 || (" \"(),/:;<=>?@[\\]\x7b\x7d".toList).contains c

/-- What is behind the name of a field: its value, when there is a `=`. -/
def valueOf (v : Str) : Option Str :=
  match v.dropWhile vctIssp with
  | '=' :: t => some (t.dropWhile vctIssp)
  | _ => none

theorem length_dropWhile_lt {c : Char} {t : Str} (hc : vctIssepctl c = false) :
    ((c :: t).dropWhile fun c => !vctIssepctl c).length < (c :: t).length := by
  rw [List.dropWhile_cons_of_pos (by rw [hc]; rfl)]
  exact Nat.lt_succ_of_le (List.dropWhile_sublist _).length_le

/-- The loop of `http_GetHdrField`: whether there is such a token, and the value. -/
def getHdrField (field : Str) (h : Str) : Option (Option Str) :=
  if h.length < field.length then none
  else
    match h with
    | [] => none
    | c :: t =>
      if _hc : vctIssepctl c = true then getHdrField field t
      else if field.isPrefixOf (c :: t) && ((c :: t).drop field.length).head?.all vctIssepctl then some (valueOf ((c :: t).drop field.length))
      else getHdrField field ((c :: t).dropWhile fun c => !vctIssepctl c)
termination_by h.length
decreasing_by
  · exact Nat.lt_succ_self _
  · exact length_dropWhile_lt (Bool.eq_false_iff.mpr _hc)

/-- `http_GetHdrField` -/
def httpGetHdrField (hp : Http) (hdr field : Str) : Option (Option Str) := (httpGetHdr hp hdr).bind (getHdrField field)

def hCacheControl : Str := "Cache-Control".toList

def hAge : Str := "Age".toList

def hExpires : Str := "Expires".toList

def hDate : Str := "Date".toList

def fSMaxage : Str := "s-maxage".toList

def fMaxAge : Str := "max-age".toList

/-- The parameters, and `sp->wrk->entered`. -/
structure TtlEnv where
  defaultTtl : UInt32
  clockSkew : UInt32
  entered : ℚ

/-- An `unsigned` as an `int`. -/
def asInt (u : UInt32) : ℤ := u.toBitVec.toInt

/-- A `double` that is not negative as an `int`; what is too large becomes the least one. -/
def doubleToInt (q : ℚ) : ℤ := if q < 2 ^ 31 then ⌊q⌋ else -2 ^ 31

/-- The `p` of the relative specification: `s-maxage`, or else `max-age`. -/
def relativeField (hp : Http) : Option Str :=
  match httpGetHdrField hp hCacheControl fSMaxage with
  | some p => p
  | none => (httpGetHdrField hp hCacheControl fMaxAge).join

/-- `strtoul(p, NULL, 0)`, as an `unsigned`. -/
def readUnsigned (p : Str) : UInt32 := UInt32.ofNat (strtoumax 0 p)

/-- The `age`. -/
def readAge (hp : Http) : UInt32 := (httpGetHdr hp hAge).elim 0 readUnsigned

/-- The `ttl` from `max_age` and `age`. -/
def ttlOf (maxAge age : UInt32) : ℤ := if maxAge < age then 0 else asInt (maxAge - age)

/-- The absolute specifications: `ttl` and `ttd`. -/
def absolute (timParse : Str → ℚ) (env : TtlEnv) (hp : Http) : ℤ × ℚ :=
  let hExp := (httpGetHdr hp hExpires).elim 0 timParse
  if hExp = 0 then (asInt env.defaultTtl, 0)
  else
    let date := (httpGetHdr hp hDate).elim 0 timParse
    if hExp < date then (0, 0)
    else if date = 0 ∨ date < env.entered + env.clockSkew.toNat ∧ env.entered < date + env.clockSkew.toNat then
      if hExp < env.entered then (0, 0) else (asInt env.defaultTtl, hExp)
    else (doubleToInt (hExp - date), 0)

/-- `RFC2616_Ttl` -/
def rfc2616Ttl (timParse : Str → ℚ) (env : TtlEnv) (hp : Http) : ℚ :=
  let r :=
    match relativeField hp with
    | some p => (ttlOf (readUnsigned p) (readAge hp), 0)
    | none => absolute timParse env hp
  if 0 < r.1 ∧ r.2 = 0 then env.entered + r.1 else r.2

end Functions

/-! ## What it is for -/

section Spec

/-- A character in front of the first of the parts. -/
def onto (c : Char) : List Str → List Str
  | [] => [[c]]
  | d :: ds => (c :: d) :: ds

/-- The directives of a `Cache-Control` are between the commas that are in no quoted string. -/
def directives : (quoted : Bool) → Str → List Str
  | _, [] => [[]]
  | true, '\\' :: c :: t => onto '\\' (onto c (directives true t))
  | q, '"' :: t => onto '"' (directives (!q) t)
  | false, ',' :: t => [] :: directives false t
  | q, c :: t => onto c (directives q t)

/-- The name of a directive, in small letters. -/
def nameOf (d : Str) : Str := ((d.dropWhile vctIssp).takeWhile fun c => !vctIssepctl c).map Char.toLower

/-- The values of all header lines of a name. -/
def httpValues (hp : Http) (hdr : Str) : List Str :=
  hp.hd.filterMap fun b => (b.filter (isHdr hdr)).map fun b => (b.drop (hdr.length + 1)).dropWhile vctIssp

/-- The value of a directive of `Cache-Control`, if it is there and has one. -/
def directive (hp : Http) (name : Str) : Option Str :=
  ((((httpValues hp hCacheControl).flatMap (directives false)).find? fun d => nameOf d == name).bind fun d =>
    valueOf ((d.dropWhile vctIssp).dropWhile fun c => !vctIssepctl c)).filter fun p => !p.isEmpty

/-- A decimal number: the digits up to a separator. -/
def digitsOf (p : Str) : Option Str :=
  if p.takeWhile (isDigit 10) ≠ [] ∧ (p.dropWhile (isDigit 10)).head?.all vctIssepctl then some (p.takeWhile (isDigit 10)) else none

/-- The digits that say how long the response lives: those of `s-maxage`, or of `max-age` where `s-maxage` has no value. -/
def lifetimeOf (hp : Http) : Option Str := ((directive hp fSMaxage).or (directive hp fMaxAge)).bind digitsOf

/-- The digits of the age; there are none without such a header. -/
def ageOf (hp : Http) : Option Str :=
  match httpGetHdr hp hAge with
  | none => some []
  | some p => digitsOf p

/-- The lifetime that is left, at most the largest `int`. -/
def left (m a : ℕ) : ℕ := min (m - a) (2 ^ 31 - 1)

/-- The result is what the two numbers say, whatever else the response and the parameters say. -/
def TtlRight (timParse : Str → ℚ) (hp : Http) : Prop :=
  ∀ ds as, lifetimeOf hp = some ds → ageOf hp = some as →
    ∀ env hp', env.entered ≠ 0 → httpValues hp' hCacheControl = httpValues hp hCacheControl →
      httpValues hp' hAge = httpValues hp hAge →
        rfc2616Ttl timParse env hp' =
          if number 10 ds ≤ number 10 as then 0 else env.entered + left (number 10 ds) (number 10 as)

/-- The name is a token of the text, between `u` and `v`. -/
def Occurs (field l u v : Str) : Prop :=
  l = u ++ field ++ v ∧ (∀ c ∈ u.getLast?, vctIssepctl c = true) ∧ ∀ c ∈ v.head?, vctIssepctl c = true

/-- `v` is behind the first such token. -/
def First (field l v : Str) : Prop := ∃ u, Occurs field l u v ∧ ∀ u' v', Occurs field l u' v' → u.length ≤ u'.length

def Absent (cc field : Str) : Prop := ∀ v, ¬ First field cc v

/-- The text of the number: in the first line of `Cache-Control`, behind the `=` of the first token `s-maxage` in small letters, or
where there is no such token, of the first `max-age`. -/
def Seen (hp : Http) (p : Str) : Prop :=
  ∃ cc v, httpGetHdr hp hCacheControl = some cc ∧ (First fSMaxage cc v ∨ Absent cc fSMaxage ∧ First fMaxAge cc v) ∧
    valueOf v = some p

/-- Digits that the base 0 and 32 bits leave as they are: no zero in front, unless it makes no difference, and less than `2^32`. -/
def Plain (ds : Str) : Prop := (ds.head? = some '0' → number 10 ds < 8) ∧ number 10 ds < 2 ^ 32

instance (ds : Str) : Decidable (Plain ds) := inferInstanceAs (Decidable (_ ∧ _))

/-- Other digits are right by accident: where the lifetime is over, the number that is read for it is not the larger one, or is too
far beyond; where it is not, both numbers are off by the same. -/
def Accident (m a read age : ℕ) : Prop :=
  (m ≤ a → read ≤ age ∨ 2 ^ 31 ≤ read - age) ∧ (a < m → read = age + left m a)

end Spec

/-! ## Finding a field -/

section Find

variable {field l t u v w : Str} {c : Char}

/-- A name has no separators. -/
def Name (field : Str) : Prop := field ≠ [] ∧ ∀ c ∈ field, vctIssepctl c = false

theorem occurs_length (h : Occurs field l u v) : field.length ≤ l.length := by
  rw [h.1, List.length_append, List.length_append]
  omega

/-- Nothing that ends with a separator is in front of a token, unless it goes beyond it. -/
theorem not_getLast_sep (hw : ∀ c ∈ w, vctIssepctl c = false) (hu : u <+: w) (hne : u ≠ []) :
    ¬ ∀ c ∈ u.getLast?, vctIssepctl c = true := by
  intro h
  have hlast := h _ (List.getLast?_eq_some_getLast hne)
  rw [hw _ (hu.subset (List.getLast_mem hne))] at hlast
  cases hlast

theorem occurs_cons (hn : Name field) (hc : vctIssepctl c = true) :
    Occurs field (c :: t) u v ↔ ∃ u', u = c :: u' ∧ Occurs field t u' v := by
  constructor
  · rintro ⟨hl, hu, hv⟩
    cases u with
    | nil =>
      obtain ⟨d, f, rfl⟩ := List.exists_cons_of_ne_nil hn.1
      have hdc : c = d := (List.cons.inj hl).1
      have := hn.2 d List.mem_cons_self
      rw [← hdc, hc] at this
      cases this
    | cons d u' =>
      obtain ⟨rfl, htl⟩ := List.cons.inj hl
      refine ⟨u', rfl, htl, fun x hx => ?_, hv⟩
      refine hu x ?_
      rw [List.getLast?_cons, Option.mem_def.mp hx]
      rfl
  · rintro ⟨u', rfl, hl, hu, hv⟩
    refine ⟨by rw [hl]; rfl, fun x hx => ?_, hv⟩
    rw [List.getLast?_cons] at hx
    cases hlast : u'.getLast? with
    | none =>
      rw [hlast] at hx
      cases hx
      exact hc
    | some y =>
      rw [hlast] at hx
      cases hx
      exact hu _ hlast

/-- Behind a token that is not the name. -/
theorem occurs_skip (hn : Name field) (hw : ∀ c ∈ w, vctIssepctl c = false) (hwne : w ≠ []) (ht : ∀ c ∈ t.head?, vctIssepctl c = true)
    (hno : ∀ v, ¬ Occurs field (w ++ t) [] v) : Occurs field (w ++ t) u v ↔ ∃ u', u = w ++ u' ∧ Occurs field t u' v := by
  constructor
  · rintro ⟨hl, hu, hv⟩
    have hune : u ≠ [] := by
      rintro rfl
      exact hno v ⟨hl, fun x hx => (by cases hx), hv⟩
    rw [List.append_assoc] at hl
    rcases List.append_eq_append_iff.mp hl with ⟨a, rfl, ht'⟩ | ⟨b, rfl, hb⟩
    · refine ⟨a, rfl, by rw [ht', List.append_assoc], fun x hx => ?_, hv⟩
      refine hu x ?_
      rw [List.getLast?_append, Option.mem_def.mp hx]
      rfl
    · exact absurd hu (not_getLast_sep hw (List.prefix_append u b) hune)
  · rintro ⟨u', rfl, hl, hu, hv⟩
    refine ⟨by rw [hl]; simp only [List.append_assoc], fun x hx => ?_, hv⟩
    rw [List.getLast?_append] at hx
    cases hlast : u'.getLast? with
    | some y =>
      rw [hlast] at hx
      cases hx
      exact hu _ hlast
    | none =>
      rw [List.getLast?_eq_none_iff] at hlast
      subst hlast
      obtain ⟨d, f, rfl⟩ := List.exists_cons_of_ne_nil hn.1
      rw [hl] at ht
      have := ht d rfl
      rw [hn.2 d List.mem_cons_self] at this
      cases this

/-- What is found in the rest is what is found in all, when the occurrences are the same, only further behind. -/
theorem first_shift (h : ∀ u v, Occurs field l u v ↔ ∃ u', u = w ++ u' ∧ Occurs field t u' v) (v : Str) : First field l v ↔ First field t v := by
  constructor
  · rintro ⟨u, ho, hmin⟩
    obtain ⟨u', rfl, ho'⟩ := (h _ _).mp ho
    refine ⟨u', ho', fun u'' v'' ho'' => ?_⟩
    have := hmin (w ++ u'') v'' ((h _ _).mpr ⟨u'', rfl, ho''⟩)
    rw [List.length_append, List.length_append] at this
    omega
  · rintro ⟨u, ho, hmin⟩
    refine ⟨w ++ u, (h _ _).mpr ⟨u, rfl, ho⟩, fun u'' v'' ho'' => ?_⟩
    obtain ⟨u', rfl, ho'⟩ := (h _ _).mp ho''
    have := hmin u' v'' ho'
    rw [List.length_append, List.length_append]
    omega

theorem not_occurs_short (h : l.length < field.length) : ¬ Occurs field l u v := fun ho => absurd (occurs_length ho) (Nat.not_le.mpr h)

/-- The test at the start of a token. -/
theorem occurs_nil : Occurs field l [] v ↔ field.isPrefixOf l = true ∧ v = l.drop field.length ∧ ∀ c ∈ v.head?, vctIssepctl c = true := by
  rw [List.isPrefixOf_iff_prefix]
  constructor
  · rintro ⟨rfl, -, hv⟩
    refine ⟨List.prefix_append field v, ?_, hv⟩
    rw [List.nil_append, List.drop_left]
  · rintro ⟨⟨t, rfl⟩, rfl, hv⟩
    refine ⟨?_, fun x hx => (by cases hx), hv⟩
    rw [List.nil_append, List.drop_left]

theorem first_of_nil (h : Occurs field l [] v) (v' : Str) : First field l v' ↔ v' = v := by
  constructor
  · rintro ⟨u, ho, hmin⟩
    have hu : u = [] := List.eq_nil_of_length_eq_zero (Nat.le_zero.mp (hmin [] v h))
    subst hu
    exact (occurs_nil.mp ho).2.1.trans (occurs_nil.mp h).2.1.symm
  · rintro rfl
    exact ⟨[], h, fun _ _ _ => Nat.zero_le _⟩

/-- The loop finds the first token of the name. -/
theorem getHdrField_iff (hn : Name field) (h : Str) :
    (∀ v, First field h v → getHdrField field h = some (valueOf v)) ∧ (Absent h field → getHdrField field h = none) := by
  induction hk : h.length using Nat.strongRecOn generalizing h with
  | ind k ih =>
    subst hk
    rw [getHdrField.eq_def]
    by_cases hshort : h.length < field.length
    · rw [if_pos hshort]
      refine ⟨fun v hf => ?_, fun _ => rfl⟩
      obtain ⟨u, ho, -⟩ := hf
      exact absurd ho (not_occurs_short hshort)
    · rw [if_neg hshort]
      cases h with
      | nil =>
        rw [List.length_nil, Nat.not_lt, Nat.le_zero] at hshort
        exact absurd (List.eq_nil_of_length_eq_zero hshort) hn.1
      | cons c t =>
        dsimp only
        by_cases hc : vctIssepctl c = true
        · rw [dif_pos hc]
          obtain ⟨h1, h2⟩ := ih t.length (Nat.lt_succ_self _) t rfl
          have hshift := @first_shift field (c :: t) t [c] fun u v => occurs_cons hn hc
          exact ⟨fun v hf => h1 v ((hshift v).mp hf), fun ha => h2 fun v hf => ha v ((hshift v).mpr hf)⟩
        · rw [dif_neg hc]
          by_cases hm : (field.isPrefixOf (c :: t) && ((c :: t).drop field.length).head?.all vctIssepctl) = true
          · rw [if_pos hm]
            rw [Bool.and_eq_true] at hm
            have ho : Occurs field (c :: t) [] ((c :: t).drop field.length) := by
              refine occurs_nil.mpr ⟨hm.1, rfl, fun x hx => ?_⟩
              rw [Option.mem_def.mp hx] at hm
              exact hm.2
            refine ⟨fun v hf => ?_, fun ha => absurd ((first_of_nil ho _).mpr rfl) (ha _)⟩
            rw [(first_of_nil ho v).mp hf]
          · rw [if_neg hm]
            have hcf : vctIssepctl c = false := Bool.eq_false_iff.mpr hc
            have hlt := @length_dropWhile_lt c t hcf
            obtain ⟨h1, h2⟩ := ih _ hlt _ rfl
            have hsplit : c :: t = ((c :: t).takeWhile fun c => !vctIssepctl c) ++ (c :: t).dropWhile fun c => !vctIssepctl c :=
              (List.takeWhile_append_dropWhile).symm
            have hw : ∀ d ∈ (c :: t).takeWhile fun c => !vctIssepctl c, vctIssepctl d = false := by
              intro d hd
              simpa using List.mem_takeWhile_imp hd
            have hwne : ((c :: t).takeWhile fun c => !vctIssepctl c) ≠ [] := by
              rw [List.takeWhile_cons_of_pos (by rw [hcf]; rfl)]
              exact List.cons_ne_nil _ _
            have hrest : ∀ d ∈ ((c :: t).dropWhile fun c => !vctIssepctl c).head?, vctIssepctl d = true := by
              intro d hd
              have := List.head?_dropWhile_not (fun c => !vctIssepctl c) (c :: t)
              rw [Option.mem_def.mp hd] at this
              simpa using this
            have hno : ∀ v, ¬ Occurs field (((c :: t).takeWhile fun c => !vctIssepctl c) ++ (c :: t).dropWhile fun c => !vctIssepctl c) [] v := by
              intro v ho
              rw [← hsplit] at ho
              obtain ⟨hpre, rfl, hv⟩ := occurs_nil.mp ho
              refine hm ?_
              rw [hpre, Bool.true_and]
              cases hd : ((c :: t).drop field.length).head? with
              | none => rfl
              | some d => exact hv d hd
            have hshift := @first_shift field _ _ _ fun u v => occurs_skip hn hw hwne hrest hno
            rw [← hsplit] at hshift
            exact ⟨fun v hf => h1 v ((hshift v).mp hf), fun ha => h2 fun v hf => ha v ((hshift v).mpr hf)⟩

theorem name_of_all (hne : field ≠ []) (h : (field.all fun c => !vctIssepctl c) = true) : Name field := by
  refine ⟨hne, fun c hc => ?_⟩
  simpa using List.all_eq_true.mp h c hc

theorem name_sMaxage : Name fSMaxage := name_of_all (by decide) (by decide)

theorem name_maxAge : Name fMaxAge := name_of_all (by decide) (by decide)

end Find

/-! ## Numbers -/

section Read

variable {ds as p rest : Str}

/-- The text begins with these digits. -/
def StartsWith (ds p : Str) : Prop := DigitsOnly ds ∧ ∃ rest, p = ds ++ rest ∧ ∀ c ∈ rest.head?, vctIssepctl c = true

/-- No separator is a part of a number. -/
theorem sep_plain {c : Char} (hc : vctIssepctl c = true) : isDigit 10 c = false ∧ c ≠ 'x' ∧ c ≠ 'X' := by
  rw [vctIssepctl, Bool.or_eq_true, Bool.or_eq_true, decide_eq_true_eq, decide_eq_true_eq, List.contains_iff_mem] at hc
  have hctl : c.toNat < 32 ∨ c.toNat = 127 → isDigit 10 c = false ∧ c ≠ 'x' ∧ c ≠ 'X' := by
    have hx : 'x'.toNat = 120 ∧ 'X'.toNat = 88 := ⟨rfl, rfl⟩
    intro hc
    refine ⟨Bool.eq_false_iff.mpr fun h => ?_, ?_, ?_⟩
    · have := isDigit_ten.mp h
      omega
    · rintro rfl
      omega
    · rintro rfl
      omega
  rcases hc with hc | hc
  · exact hctl hc
  · have hall : (" \"(),/:;<=>?@[\\]\x7b\x7d".toList.all fun c => !isDigit 10 c && c != 'x' && c != 'X') = true := by decide
    simpa [and_assoc] using List.all_eq_true.mp hall c hc

theorem isDigit_of_le {b : ℕ} {c : Char} (hb : b ≤ 10) (hc : isDigit 10 c = false) : isDigit b c = false := by
  have h := of_decide_eq_false hc
  exact decide_eq_false fun h' => h (Nat.lt_of_lt_of_le h' hb)

/-- A number is read up to the separator. -/
theorem strtoumax_startsWith (h : StartsWith ds p) : strtoumax 0 p = strtoumax 0 ds := by
  obtain ⟨hd, rest, rfl, hrest⟩ := h
  obtain ⟨d, t, rfl⟩ := List.exists_cons_of_ne_nil hd.1
  have hx : ∀ x ∈ (t ++ rest).head?, x ≠ 'x' ∧ x ≠ 'X' := by
    intro x hx
    cases t with
    | nil => exact (sep_plain (hrest x hx)).2
    | cons y t =>
      have hy := isDigit_ten.1 (hd.2 y (by simp))
      cases hx
      exact ⟨fun he => absurd hy (by rw [he]; decide), fun he => absurd hy (by rw [he]; decide)⟩
  have htake : ∀ b ≤ 10, (d :: t ++ rest).takeWhile (isDigit b) = (d :: t).takeWhile (isDigit b) := by
    intro b hb
    have hnil : rest.takeWhile (isDigit b) = [] := by
      cases rest with
      | nil => rfl
      | cons r rest =>
        refine List.takeWhile_cons_of_neg ?_
        rw [isDigit_of_le hb (sep_plain (hrest r rfl)).1]
        exact Bool.false_ne_true
    rw [List.takeWhile_append, hnil, List.append_nil]
    split
    · rename_i hlen
      exact ((List.takeWhile_prefix _).eq_of_length hlen).symm
    · rfl
  refine (Strtoul.strtoul_plain (plain_cons (hd.2 d List.mem_cons_self) hx)).trans ?_
  rw [strtoumax, Strtoul.strtoul_plain hd.plain]
  show ulong false (number (if some d = some '0' then 8 else 10) ((d :: t ++ rest).takeWhile (isDigit (if some d = some '0' then 8 else 10)))) = _
  rw [htake _ (by split <;> omega)]
  rfl

theorem toNat_readUnsigned (p : Str) : (readUnsigned p).toNat = strtoumax 0 p % 2 ^ 32 := UInt32.toNat_ofNat'

theorem digitsOf_startsWith (h : digitsOf p = some ds) : StartsWith ds p := by
  rw [digitsOf] at h
  split at h
  · next hd =>
    cases h
    refine ⟨⟨hd.1, fun c hc => List.mem_takeWhile_imp hc⟩, p.dropWhile (isDigit 10), List.takeWhile_append_dropWhile.symm, fun c hc => ?_⟩
    have hall := hd.2
    rw [Option.mem_def.mp hc] at hall
    exact hall
  · cases h

/-- Plain digits are read as they are. -/
theorem strtoumax_of_plain (hd : ds = [] ∨ DigitsOnly ds) (h : Plain ds) : strtoumax 0 ds % 2 ^ 32 = number 10 ds := by
  rcases hd with rfl | hd
  · rfl
  · have hnum : (if ds.head? = some '0' then number 8 (ds.takeWhile (isDigit 8)) else number 10 ds) = number 10 ds := by
      by_cases h0 : ds.head? = some '0'
      · rw [if_pos h0]
        exact (octal_spec ds hd.2).2.1.mpr (Nat.le_of_lt_succ (h.1 h0))
      · rw [if_neg h0]
    rw [strtoumax, strtoul_zero hd, hnum, ulong_of_lt (h.2.trans (by decide)), Nat.mod_eq_of_lt h.2]

/-- The age that is read, from its digits. -/
theorem readAge_eq {hp : Http} (h : ageOf hp = some as) : (readAge hp).toNat = strtoumax 0 as % 2 ^ 32 ∧ (as = [] ∨ DigitsOnly as) := by
  rw [ageOf] at h
  rw [readAge]
  cases ha : httpGetHdr hp hAge with
  | none =>
    rw [ha] at h
    cases h
    exact ⟨rfl, .inl rfl⟩
  | some p =>
    rw [ha] at h
    have hs := digitsOf_startsWith h
    exact ⟨(toNat_readUnsigned p).trans (by rw [strtoumax_startsWith hs]), .inr hs.1⟩

/-- The difference that is left, as an `int`. -/
theorem ttlOf_eq (maxAge age : UInt32) :
    ttlOf maxAge age = if maxAge.toNat - age.toNat < 2 ^ 31 then ((maxAge.toNat - age.toNat : ℕ) : ℤ) else (maxAge.toNat - age.toNat : ℕ) - 2 ^ 32 := by
  rw [ttlOf]
  by_cases hlt : maxAge < age
  · have hn := UInt32.lt_iff_toNat_lt.mp hlt
    have h0 : maxAge.toNat - age.toNat = 0 := by omega
    rw [if_pos hlt, h0]
    rfl
  · have hle : age ≤ maxAge := UInt32.not_lt.mp hlt
    have hb := (maxAge - age).toNat_lt
    rw [if_neg hlt, asInt, BitVec.toInt_eq_toNat_cond, ← UInt32.toNat_sub_of_le _ _ hle]
    show (if 2 * (maxAge - age).toNat < 2 ^ 32 then (((maxAge - age).toNat : ℕ) : ℤ) else ((maxAge - age).toNat : ℤ) - (2 ^ 32 : ℕ)) = _
    split
    · rw [if_pos (by omega)]
    · rw [if_neg (by omega)]
      rfl

end Read

/-! ## The result -/

section Result

variable {timParse : Str → ℚ} {env : TtlEnv} {hp : Http} {cc ds as p : Str} {m a d : ℕ}

theorem rfc2616Ttl_relative (h : relativeField hp = some p) (hd : (readUnsigned p).toNat - (readAge hp).toNat = d) :
    rfc2616Ttl timParse env hp = if 0 < d ∧ d < 2 ^ 31 then env.entered + d else 0 := by
  have hlt := (readUnsigned p).toNat_lt
  have hr : rfc2616Ttl timParse env hp =
      if 0 < ttlOf (readUnsigned p) (readAge hp) ∧ (0 : ℚ) = 0 then env.entered + ttlOf (readUnsigned p) (readAge hp) else 0 := by
    rw [rfc2616Ttl, h]
  rw [hr, ttlOf_eq, hd]
  by_cases hsmall : d < 2 ^ 31
  · rw [if_pos hsmall]
    by_cases h0 : 0 < d
    · rw [if_pos ⟨Int.natCast_pos.mpr h0, rfl⟩, if_pos ⟨h0, hsmall⟩]
      rfl
    · rw [if_neg (fun h => h0 (Int.natCast_pos.mp h.1)), if_neg fun h => h0 h.1]
  · rw [if_neg hsmall, if_neg (fun h => absurd h.1 (by omega)), if_neg fun h => hsmall h.2]

/-- The difference that is read against the one that is meant, for all times. -/
theorem result_iff : (∀ e : ℚ, e ≠ 0 → (if 0 < d ∧ d < 2 ^ 31 then e + d else 0) = if m ≤ a then 0 else e + left m a) ↔
    if d < 2 ^ 31 then d = left m a else m ≤ a := by
  have hleft : left m a = 0 ↔ m ≤ a := by
    rw [left]
    omega
  have hpos : ∀ n : ℕ, (1 : ℚ) + n ≠ 0 := by
    intro n h
    have : (0 : ℚ) ≤ n := Nat.cast_nonneg n
    linarith
  by_cases hsmall : d < 2 ^ 31
  · rw [if_pos hsmall]
    constructor
    · intro h
      have h1 := h 1 one_ne_zero
      by_cases hd : 0 < d
      · rw [if_pos ⟨hd, hsmall⟩] at h1
        by_cases hm : m ≤ a
        · rw [if_pos hm] at h1
          exact absurd h1 (hpos d)
        · rw [if_neg hm, add_right_inj, Nat.cast_inj] at h1
          exact h1
      · rw [if_neg (fun h => hd h.1)] at h1
        by_cases hm : m ≤ a
        · have := hleft.mpr hm
          omega
        · rw [if_neg hm] at h1
          exact absurd h1.symm (hpos _)
    · intro h e _
      by_cases hm : m ≤ a
      · have := hleft.mpr hm
        rw [if_pos hm, if_neg (by omega)]
      · have hne : left m a ≠ 0 := fun h0 => hm (hleft.mp h0)
        rw [if_neg hm, if_pos (by omega), h]
  · rw [if_neg hsmall]
    constructor
    · intro h
      have h1 := h 1 one_ne_zero
      by_contra hm
      rw [if_neg (fun h => hsmall h.2), if_neg hm] at h1
      exact absurd h1.symm (hpos _)
    · intro hm e _
      rw [if_neg (fun h => hsmall h.2), if_pos hm]

theorem httpGetHdr_eq_head (hp : Http) (hdr : Str) : httpGetHdr hp hdr = (httpValues hp hdr).head? := by
  rw [httpGetHdr, httpFindhdr, httpValues, List.head?_filterMap, List.map_findSome?]
  rfl

theorem relativeField_congr {hp' : Http} (h : httpValues hp' hCacheControl = httpValues hp hCacheControl) :
    relativeField hp' = relativeField hp := by
  have hcc : httpGetHdr hp' hCacheControl = httpGetHdr hp hCacheControl := by
    rw [httpGetHdr_eq_head, httpGetHdr_eq_head, h]
  rw [relativeField, relativeField, httpGetHdrField, httpGetHdrField, httpGetHdrField, httpGetHdrField, hcc]

/-- A relative specification is right for the difference that is read. -/
theorem ttlRight_relative (hl : lifetimeOf hp = some ds) (ha : ageOf hp = some as) (hrel : relativeField hp = some p)
    (hd : (readUnsigned p).toNat - (readAge hp).toNat = d) :
    TtlRight timParse hp ↔ if d < 2 ^ 31 then d = left (number 10 ds) (number 10 as) else number 10 ds ≤ number 10 as := by
  rw [← result_iff]
  constructor
  · intro h e he
    rw [← h ds as hl ha ⟨0, 0, e⟩ hp he rfl rfl, rfc2616Ttl_relative hrel hd]
  · intro h ds' as' hl' ha' env hp' he hcc hage
    rw [hl] at hl'
    rw [ha] at ha'
    cases hl'
    cases ha'
    have hage' : readAge hp' = readAge hp := by
      rw [readAge, readAge, httpGetHdr_eq_head, httpGetHdr_eq_head, hage]
    rw [rfc2616Ttl_relative ((relativeField_congr hcc).trans hrel) (by rw [hage', hd])]
    exact h env.entered he

/-! ### Without an absolute specification -/

/-- The response without its `Expires`. -/
def withoutExpires (hp : Http) : Http := { hp with hd := hp.hd.filter fun b => !(b.any (isHdr hExpires)) }

theorem isHdr_head {hdr b : Str} (hne : hdr ≠ []) (h : isHdr hdr b = true) : b.head?.map Char.toLower = hdr.head?.map Char.toLower := by
  rw [isHdr, Bool.and_eq_true, decide_eq_true_eq] at h
  obtain ⟨c, t, rfl⟩ := List.exists_cons_of_ne_nil hne
  cases b with
  | nil => cases h.2
  | cons d b => exact congrArg List.head? h.2

theorem httpValues_withoutExpires {hdr : Str} (hne : hdr ≠ []) (hh : hdr.head?.map Char.toLower ≠ some 'e') :
    httpValues (withoutExpires hp) hdr = httpValues hp hdr := by
  rw [httpValues, httpValues, withoutExpires, List.filterMap_filter]
  refine List.filterMap_congr fun b _ => ?_
  cases b with
  | none => rfl
  | some b =>
    by_cases hb : isHdr hExpires b = true
    · have hno : isHdr hdr b = false := by
        refine Bool.eq_false_iff.mpr fun hyes => hh ?_
        rw [← isHdr_head hne hyes, isHdr_head (by decide) hb]
        decide
      simp [hb, hno]
    · simp [hb]

theorem httpGetHdr_expires (hp : Http) : httpGetHdr (withoutExpires hp) hExpires = none := by
  rw [httpGetHdr, httpFindhdr, withoutExpires, Option.map_eq_none_iff, List.findSome?_eq_none_iff]
  intro b hb
  have hb := (List.mem_filter.mp hb).2
  cases b with
  | none => rfl
  | some b =>
    rw [Option.filter_some, if_neg]
    simpa using hb

theorem rfc2616Ttl_default (hrel : relativeField hp = none) (hexp : httpGetHdr hp hExpires = none) :
    rfc2616Ttl timParse env hp = if 0 < asInt env.defaultTtl then env.entered + asInt env.defaultTtl else 0 := by
  have hr : rfc2616Ttl timParse env hp =
      if 0 < (absolute timParse env hp).1 ∧ (absolute timParse env hp).2 = 0 then env.entered + (absolute timParse env hp).1
      else (absolute timParse env hp).2 := by
    rw [rfc2616Ttl, hrel]
  have habs : absolute timParse env hp = (asInt env.defaultTtl, 0) := by
    rw [absolute, hexp]
    rfl
  rw [hr, habs]
  by_cases h0 : 0 < asInt env.defaultTtl
  · rw [if_pos ⟨h0, rfl⟩, if_pos h0]
  · rw [if_neg (fun h => h0 h.1), if_neg h0]

/-- With the default alone the numbers of the response do not matter. -/
theorem not_ttlRight_none (hl : lifetimeOf hp = some ds) (ha : ageOf hp = some as) (hrel : relativeField hp = none) :
    ¬ TtlRight timParse hp := by
  intro h
  have hcc : httpValues (withoutExpires hp) hCacheControl = httpValues hp hCacheControl :=
    httpValues_withoutExpires (by decide) (by decide)
  have hage : httpValues (withoutExpires hp) hAge = httpValues hp hAge := httpValues_withoutExpires (by decide) (by decide)
  have hdef := fun ttl => h ds as hl ha ⟨ttl, 0, 1⟩ (withoutExpires hp) one_ne_zero hcc hage
  have h0 := hdef 0
  have h1 := hdef 1
  rw [rfc2616Ttl_default ((relativeField_congr hcc).trans hrel) (httpGetHdr_expires hp)] at h0 h1
  have h01 := h0.trans h1.symm
  revert h01
  have e0 : asInt 0 = 0 := by decide
  have e1 : asInt 1 = 1 := by decide
  dsimp only
  rw [e0, e1, if_neg (lt_irrefl _), if_pos Int.one_pos]
  norm_num

end Result

/-! ## What the response says -/

section Says

variable {timParse : Str → ℚ} {hp : Http} {cc ds as p field v v' : Str}

theorem first_unique (h : First field cc v) (h' : First field cc v') : v = v' := by
  obtain ⟨u, ho, hmin⟩ := h
  obtain ⟨u', ho', hmin'⟩ := h'
  have hlen := Nat.le_antisymm (hmin _ _ ho') (hmin' _ _ ho)
  have heq := ho.1.symm.trans ho'.1
  rw [List.append_assoc, List.append_assoc] at heq
  obtain ⟨-, heq⟩ := List.append_inj heq hlen
  exact List.append_cancel_left heq

/-- What is read is the text that is seen. -/
theorem seen_iff (hp : Http) (p : Str) : Seen hp p ↔ relativeField hp = some p := by
  rw [Seen, relativeField, httpGetHdrField, httpGetHdrField]
  cases httpGetHdr hp hCacheControl with
  | none => exact iff_of_false (fun ⟨_, _, hcc, _⟩ => Option.some_ne_none _ hcc.symm) (fun h => (Option.some_ne_none _ h.symm).elim)
  | some cc =>
    have hone : ∀ v, (First fSMaxage cc v ∨ Absent cc fSMaxage ∧ First fMaxAge cc v) →
        ((∃ cc' v', some cc = some cc' ∧ (First fSMaxage cc' v' ∨ Absent cc' fSMaxage ∧ First fMaxAge cc' v') ∧ valueOf v' = some p) ↔
          valueOf v = some p) := by
      intro v hv
      constructor
      · rintro ⟨_, v', ⟨⟩, hv', hp⟩
        have heq : v' = v := by
          rcases hv with hs | ⟨ha, hm⟩
          · rcases hv' with hs' | ⟨ha', -⟩
            · exact first_unique hs' hs
            · exact absurd hs (ha' v)
          · rcases hv' with hs' | ⟨-, hm'⟩
            · exact absurd hs' (ha v')
            · exact first_unique hm' hm
        exact heq ▸ hp
      · exact fun hp => ⟨cc, v, rfl, hv, hp⟩
    obtain ⟨hs, hsno⟩ := getHdrField_iff name_sMaxage cc
    obtain ⟨hm, hmno⟩ := getHdrField_iff name_maxAge cc
    simp only [Option.bind_some]
    by_cases habs : Absent cc fSMaxage
    · rw [hsno habs]
      by_cases habs' : Absent cc fMaxAge
      · rw [hmno habs']
        refine iff_of_false ?_ (fun h => (Option.some_ne_none _ h.symm).elim)
        rintro ⟨_, v, ⟨⟩, hv | hv, -⟩
        · exact habs v hv
        · exact habs' v hv.2
      · obtain ⟨v, hv⟩ := not_forall_not.mp habs'
        rw [hm v hv]
        exact hone v (.inr ⟨habs, hv⟩)
    · obtain ⟨v, hv⟩ := not_forall_not.mp habs
      rw [hs v hv]
      exact hone v (.inl hv)

/-- **TTL from Cache-Control**: it is right if and only if a text is seen, and it has the digits of the lifetime, these and the ones
of the age are plain, and the difference is an `int`; or other digits are right by accident. -/
theorem ttlRight_iff (hl : lifetimeOf hp = some ds) (ha : ageOf hp = some as) :
    TtlRight timParse hp ↔
      ∃ p, Seen hp p ∧
        if digitsOf p = some ds ∧ Plain ds ∧ Plain as then number 10 ds - number 10 as < 2 ^ 31
        else Accident (number 10 ds) (number 10 as) (strtoumax 0 p % 2 ^ 32) (strtoumax 0 as % 2 ^ 32) := by
  simp only [seen_iff]
  cases hrel : relativeField hp with
  | none => exact iff_of_false (not_ttlRight_none hl ha hrel) fun ⟨_, h, _⟩ => Option.some_ne_none _ h.symm
  | some p =>
    obtain ⟨hage, has⟩ := readAge_eq ha
    have hd : (readUnsigned p).toNat - (readAge hp).toNat = strtoumax 0 p % 2 ^ 32 - strtoumax 0 as % 2 ^ 32 := by
      rw [toNat_readUnsigned, hage]
    rw [ttlRight_relative hl ha hrel hd]
    simp only [Option.some.injEq, exists_eq_left']
    by_cases hplain : digitsOf p = some ds ∧ Plain ds ∧ Plain as
    · obtain ⟨hp, hds, hasp⟩ := hplain
      have hst := digitsOf_startsWith hp
      rw [if_pos (show _ ∧ _ ∧ _ from ⟨hp, hds, hasp⟩), strtoumax_startsWith hst, strtoumax_of_plain (.inr hst.1) hds,
        strtoumax_of_plain has hasp, left]
      split
      · next h => exact iff_of_true (by omega) h
      · next h => exact iff_of_false (by omega) h
    · rw [if_neg hplain, Accident, left]
      split <;> omega

/-- A response with one line of `Cache-Control`. -/
def withCacheControl (value : String) : Http := { url := none, hd := [some ("Cache-Control: ".toList ++ value.toList)] }

/-- `s-maxage` as the whole of `Cache-Control`. -/
theorem first_sMaxage (ds : Str) : First fSMaxage (fSMaxage ++ '=' :: ds) ('=' :: ds) := by
  refine (first_of_nil (occurs_nil.mpr ⟨?_, ?_, ?_⟩) _).mpr rfl
  · exact List.isPrefixOf_iff_prefix.mpr (List.prefix_append _ _)
  · rw [List.drop_left]
  · intro c hc
    cases hc
    decide

theorem ttlRight_iff_minute : TtlRight (fun _ => 0) (withCacheControl "s-maxage=60") := by
  have hl : lifetimeOf (withCacheControl "s-maxage=60") = some "60".toList := by decide +kernel
  have hcc : httpGetHdr (withCacheControl "s-maxage=60") hCacheControl = some "s-maxage=60".toList := by decide +kernel
  have hf : First fSMaxage "s-maxage=60".toList "=60".toList := first_sMaxage "60".toList
  refine (ttlRight_iff hl rfl).mpr ⟨"60".toList, ⟨_, _, hcc, .inl hf, by decide⟩, ?_⟩
  rw [if_pos (by decide +kernel)]
  decide +kernel

/-- The first number that is not an `int`, and a name in capital letters. -/
theorem negative_ttl :
    lifetimeOf (withCacheControl "s-maxage=2147483648") = some "2147483648".toList ∧
      ¬ TtlRight (fun _ => 0) (withCacheControl "s-maxage=2147483648") ∧
    lifetimeOf (withCacheControl "Max-Age=60") = some "60".toList ∧ ¬ TtlRight (fun _ => 0) (withCacheControl "Max-Age=60") := by
  have hl : lifetimeOf (withCacheControl "s-maxage=2147483648") = some "2147483648".toList := by decide +kernel
  have hl' : lifetimeOf (withCacheControl "Max-Age=60") = some "60".toList := by decide +kernel
  refine ⟨hl, fun h => ?_, hl', fun h => ?_⟩
  · have hcc : httpGetHdr (withCacheControl "s-maxage=2147483648") hCacheControl = some "s-maxage=2147483648".toList := by decide +kernel
    have hf : First fSMaxage "s-maxage=2147483648".toList "=2147483648".toList := first_sMaxage "2147483648".toList
    have hseen : Seen (withCacheControl "s-maxage=2147483648") "2147483648".toList := ⟨_, _, hcc, .inl hf, by decide⟩
    obtain ⟨p, hp, hcond⟩ := (ttlRight_iff hl rfl).mp h
    rw [seen_iff] at hseen hp
    have hpe : p = "2147483648".toList := Option.some.inj (hp.symm.trans hseen)
    have hplain : digitsOf "2147483648".toList = some "2147483648".toList ∧ Plain "2147483648".toList ∧ Plain [] := by
      decide +kernel
    rw [hpe, if_pos hplain] at hcond
    have hno : ¬ number 10 "2147483648".toList - number 10 [] < 2 ^ 31 := by decide +kernel
    exact hno hcond
  · have hcc : httpGetHdr (withCacheControl "Max-Age=60") hCacheControl = some "Max-Age=60".toList := by decide +kernel
    obtain ⟨p, ⟨cc, v, hcc', hv, -⟩, -⟩ := (ttlRight_iff hl' rfl).mp h
    have hcce : cc = "Max-Age=60".toList := Option.some.inj (hcc'.symm.trans hcc)
    rw [hcce] at hv
    have hno : ∀ field, ¬ field <:+: "Max-Age=60".toList → ¬ First field "Max-Age=60".toList v := by
      rintro field hinfix ⟨u, ho, -⟩
      exact hinfix ⟨u, v, ho.1.symm⟩
    rcases hv with hs | ⟨-, hm⟩
    · exact hno fSMaxage (by decide +kernel) hs
    · exact hno fMaxAge (by decide +kernel) hm

end Says

end Varnish.Http
