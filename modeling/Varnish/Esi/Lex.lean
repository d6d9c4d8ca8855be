import Varnish.Esi.Model

/-!
# Varnish.Esi.Lex — what the parser meets in a body

* `Matcher`: how a marker is looked for.  `Matcher.code` is `CMP`, and `Matcher.ideal` is the text itself.
* `Item`, `next`: what one turn of the main loop takes from the body.
* `Met`, `met`: the items of a body, each with its place and the two flags.
* `Met.out`, `render`: what is to be put out.
* `next_split`: nothing gets lost between the items.
-/

namespace Varnish.Esi

open Varnish.Lib

/-! ## Markers -/

section Markers

/-- Whether a text starts with a marker. -/
abbrev Matcher := (lit r : List UInt8) → Bool

/-- `CMP`, over the bytes of the body.  Behind its end there are only NULs. -/
def cmpBytes : List UInt8 → List UInt8 → Bool
  | [], _ => false
  | c :: str, r => if c = r.headD 0 then cmpBytes str r.tail else c == 0

def Matcher.code (env : Env) : Matcher := fun lit r => cmpBytes (lit ++ 0 :: env.ro lit) r

def Matcher.ideal : Matcher := fun lit r => lit.isPrefixOf r

/-- The markers that the main loop looks for at a `<`. -/
def starts : List (List UInt8) := [ascii "<!--esi", ascii "<!--", ascii "</esi", ascii "<esi:", ascii "<![CDATA["]

end Markers

/-! ## Items -/

section Items

inductive Item
  /-- A byte that is not `<`, other markup, or an element that does not end. -/
  | text (bs : List UInt8)
  /-- A comment or a CDATA section, which ends with `fin` unless the body does first. -/
  | block (fin bs : List UInt8)
  /-- `<!--esi` -/
  | opn
  /-- `-->`, in an ESI comment. -/
  | cls
  /-- An element. -/
  | tag (closing : Bool) (bs : List UInt8)
deriving DecidableEq

def Item.bytes : Item → List UInt8
  | text bs => bs
  | block _ bs => bs
  | opn => ascii "<!--esi"
  | cls => ascii "-->"
  | tag _ bs => bs

/-- Inside an ESI comment, behind the item? -/
def Item.inc (inc : Bool) : Item → Bool
  | opn => true
  | cls => false
  | _ => inc

/-- The text of an element behind `<esi:` or `</esi:`. -/
def tagBody (closing : Bool) (bs : List UInt8) : List UInt8 := (tagText bs).drop (tagSkip closing)

/-- Inside `esi:remove`, behind the item? -/
def Item.rem (rem : Bool) : Item → Bool
  | tag closing bs => if (ascii "remove").isPrefixOf (tagBody closing bs) && !tagEmpty bs then !closing else rem
  | _ => rem

variable (m : Matcher)

/-- What is left behind the first `lit`. -/
def endOf (lit : List UInt8) : List UInt8 → List UInt8
  | [] => []
  | c :: t => if m lit (c :: t) then (c :: t).drop 3 else endOf lit t

/-- What was taken, if `r'` is left of `r`. -/
def upTo (r r' : List UInt8) : List UInt8 := r.take (r.length - r'.length)

def nextBlock (fin r : List UInt8) : Item × List UInt8 := (.block fin (upTo r (endOf m fin r.tail)), endOf m fin r.tail)

def nextTag (closing : Bool) (r : List UInt8) : Item × List UInt8 :=
  match r.tail.dropWhile (· ≠ 62) with
  | [] => (.text r, [])
  | _ :: r' => (.tag closing (upTo r r'), r')

/-- What is left behind markup that the parser does not care about. -/
def endMarkup (short : Bool) (r : List UInt8) : List UInt8 := if short then r.tail else r.tail.tail.dropWhile (· ≠ 62)

/-- One turn of the main loop: the item, and what is left. -/
def next (short inc : Bool) (r : List UInt8) : Item × List UInt8 :=
  if inc && m (ascii "-->") r then (.cls, r.drop 3)
  else if r.head? ≠ some 60 then (.text (r.take 1), r.tail)
  else if m (ascii "<!--esi") r then (.opn, r.drop 7)
  else if m (ascii "<!--") r then nextBlock m (ascii "-->") r
  else if m (ascii "</esi") r then nextTag true r
  else if m (ascii "<esi:") r then nextTag false r
  else if m (ascii "<![CDATA[") r then nextBlock m (ascii "]]>") r
  else (.text (upTo r (endMarkup short r)), endMarkup short r)

/-- An item with its place in the body, and the flags in front of it: inside `esi:remove`, and inside an ESI comment. -/
structure Met where
  item : Item
  n : ℕ
  rem : Bool
  inc : Bool
deriving DecidableEq

def scan (short : Bool) : ℕ → (n : ℕ) → (rem inc : Bool) → List UInt8 → List Met
  | 0, _, _, _, _ => []
  | _ + 1, _, _, _, [] => []
  | f + 1, n, rem, inc, c :: t =>
    let x := next m short inc (c :: t)
    ⟨x.1, n, rem, inc⟩ :: scan short f (n + x.1.bytes.length) (x.1.rem rem) (x.1.inc inc) x.2

/-- The items that the main loop meets in a body. -/
def met (short : Bool) (body : List UInt8) : List Met := scan m short (body.length + 1) 0 false false body

end Items

/-! ## The output -/

section Output

/-- What an include bit says. -/
structure Incl where
  host : Option (List UInt8)
  url : List UInt8
deriving DecidableEq

/-- Bytes that are sent as they are, and includes. -/
abbrev Out := List (UInt8 ⊕ Incl)

def verb (bs : List UInt8) : Out := bs.map .inl

/-- How the attributes of an element come to their end. -/
inductive Stop
  | done
  /-- A NUL stands where the next attribute is looked for. -/
  | nul
  /-- The last value ends with the element, and the next attribute is looked for one byte behind it. -/
  | past
deriving DecidableEq

/-- The attributes of an element. -/
def attribs (fin : UInt8) : ℕ → List UInt8 → List Attr × Stop
  | 0, _ => ([], .done)
  | f + 1, t =>
    if t.headD fin = 0 then ([], .nul)
    else
      match readAttrib fin t with
      | none => ([], .done)
      | some a => if a.past then ([a], .past) else (a :: (attribs fin f a.left).1, (attribs fin f a.left).2)

/-- The attributes `src` that have a value. -/
def srcs (as : List Attr) : List Attr := as.filter fun a => a.attrib = ascii "src" && a.val ≠ []

/-- The host and the URL of a value. -/
def target (url val : List UInt8) : Option (List UInt8) × List UInt8 := (resolve url 47 val).getD (none, [])

/-- The last URL, and the last host. -/
def included (url : List UInt8) (as : List Attr) : Option (List UInt8) × Option (List UInt8) :=
  (srcs as).foldl (fun r a => ((target url a.val).1.or r.1, some (target url a.val).2)) (none, none)

/-- The attributes of an include element. -/
def inclAttribs (closing : Bool) (bs : List UInt8) : List Attr × Stop :=
  attribs (tagFin bs) (((tagBody closing bs).drop 7).length + 1) ((tagBody closing bs).drop 7)

/-- An include element, that is not inside of `esi:remove`. -/
def isInclude (rem closing : Bool) (bs : List UInt8) : Bool := !rem && (ascii "include").isPrefixOf (tagBody closing bs)

def inclOut (r : Option (List UInt8) × Option (List UInt8)) : Out :=
  match r.2 with
  | none => []
  | some u => [.inr ⟨r.1, u⟩]

/-- What is to be put out for an item. -/
def Met.out (url : List UInt8) (x : Met) : Out :=
  match x.item with
  | .text bs => if x.rem then [] else verb bs
  | .block _ bs => if x.rem then [] else verb bs
  | .opn => []
  | .cls => []
  | .tag closing bs => if isInclude x.rem closing bs then inclOut (included url (inclAttribs closing bs).1) else []

def render (url : List UInt8) (xs : List Met) : Out := xs.flatMap (Met.out url)

end Output

/-! ## Nothing gets lost -/

section Split

variable {m : Matcher} {lit r r' : List UInt8}

@[simp] theorem cmpBytes_nil (str : List UInt8) : cmpBytes str [] = false := by
  induction str with
  | nil => rfl
  | cons c str ih =>
    rw [cmpBytes]
    by_cases hc : c = 0
    · rw [if_pos (by simpa using hc)]
      exact ih
    · rw [if_neg (by simpa using hc)]
      simpa using hc

/-- `CMP` finds a marker only where its text is, and some byte behind it. -/
theorem starts_of_cmpBytes {ro : List UInt8} (h0 : 0 ∉ lit) (h : cmpBytes (lit ++ 0 :: ro) r = true) :
    lit <+: r ∧ lit.length < r.length := by
  induction lit generalizing r with
  | nil =>
    cases r with
    | nil => rw [cmpBytes_nil] at h; cases h
    | cons d t => exact ⟨List.nil_prefix, Nat.succ_pos _⟩
  | cons c lit ih =>
    cases r with
    | nil => rw [cmpBytes_nil] at h; cases h
    | cons d t =>
      rw [List.cons_append, cmpBytes] at h
      by_cases hc : c = d
      · subst hc
        rw [if_pos (by simp)] at h
        obtain ⟨h1, h2⟩ := ih (fun hm => h0 (List.mem_cons_of_mem _ hm)) h
        exact ⟨List.cons_prefix_cons.2 ⟨rfl, h1⟩, Nat.succ_lt_succ h2⟩
      · rw [if_neg (by simpa using hc)] at h
        exact absurd (by simpa using h : c = 0) fun h' => h0 (h' ▸ List.mem_cons_self)

/-- Where a byte other than NUL follows, `CMP` finds every marker. -/
theorem cmpBytes_of_prefix {ro : List UInt8} (h : lit <+: r) (hb : (r.drop lit.length).headD 0 ≠ 0) :
    cmpBytes (lit ++ 0 :: ro) r = true := by
  induction lit generalizing r with
  | nil =>
    rw [List.nil_append, cmpBytes, if_neg (fun h0 => hb h0.symm)]
    rfl
  | cons c lit ih =>
    cases r with
    | nil => exact absurd h (by simp)
    | cons d t =>
      obtain ⟨rfl, ht⟩ := List.cons_prefix_cons.1 h
      rw [List.cons_append, cmpBytes, if_pos (by simp)]
      exact ih ht hb

/-- A matcher that finds a marker only where its text is. -/
def Matcher.Sound (m : Matcher) : Prop := ∀ lit r, 0 ∉ lit → m lit r = true → lit <+: r

theorem Matcher.sound_code (env : Env) : (Matcher.code env).Sound := fun _ _ h0 h => (starts_of_cmpBytes h0 h).1

theorem Matcher.sound_ideal : Matcher.ideal.Sound := fun _ _ _ h => List.isPrefixOf_iff_prefix.1 h

theorem upTo_append (h : r' <:+ r) : upTo r r' ++ r' = r := by
  obtain ⟨t, rfl⟩ := h
  simp [upTo]

theorem length_upTo (h : r' <:+ r) : (upTo r r').length = r.length - r'.length := by
  have := h.length_le
  simp [upTo]

theorem endOf_suffix (m : Matcher) (lit r : List UInt8) : endOf m lit r <:+ r := by
  induction r with
  | nil => exact List.suffix_refl _
  | cons c t ih =>
    rw [endOf]
    by_cases h : m lit (c :: t) = true
    · rw [if_pos h]
      exact List.drop_suffix _ _
    · rw [if_neg h]
      exact ih.trans (List.suffix_cons c t)

theorem endMarkup_suffix (short : Bool) (r : List UInt8) : endMarkup short r <:+ r.tail := by
  unfold endMarkup
  split
  · exact List.suffix_refl _
  · exact (List.dropWhile_suffix _).trans (List.tail_suffix _)

/-- What `next` leaves is what is behind the bytes of the item. -/
structure Splits (r : List UInt8) (x : Item × List UInt8) : Prop where
  lt : x.2.length < r.length
  eq : x.1.bytes ++ x.2 = r

theorem splits_tail (c : UInt8) (t : List UInt8) (h : r' <:+ t) : r'.length < (c :: t).length ∧ upTo (c :: t) r' ++ r' = c :: t :=
  ⟨Nat.lt_succ_of_le h.length_le, upTo_append (h.trans (List.suffix_cons c t))⟩

theorem splits_nextTag (closing : Bool) (c : UInt8) (t : List UInt8) : Splits (c :: t) (nextTag closing (c :: t)) := by
  unfold nextTag
  rw [List.tail_cons]
  cases hd : t.dropWhile (· ≠ 62) with
  | nil => exact ⟨Nat.succ_pos _, List.append_nil _⟩
  | cons d r' =>
    have hr : r' <:+ t := (List.suffix_cons d r').trans (hd ▸ List.dropWhile_suffix _)
    exact ⟨(splits_tail c t hr).1, (splits_tail c t hr).2⟩

theorem next_split (hm : m.Sound) (short inc : Bool) (c : UInt8) (t : List UInt8) :
    Splits (c :: t) (next m short inc (c :: t)) := by
  have hblock (fin : List UInt8) : Splits (c :: t) (nextBlock m fin (c :: t)) :=
    ⟨(splits_tail c t (endOf_suffix m fin t)).1, (splits_tail c t (endOf_suffix m fin t)).2⟩
  have hlit (lit : List UInt8) (h0 : 0 ∉ lit) (hpos : 0 < lit.length) (h : m lit (c :: t) = true) :
      ((c :: t).drop lit.length).length < (c :: t).length ∧ lit ++ (c :: t).drop lit.length = c :: t :=
    ⟨by rw [List.length_drop, List.length_cons]; omega, List.prefix_iff_eq_append.1 (hm lit _ h0 h)⟩
  unfold next
  by_cases h1 : (inc && m (ascii "-->") (c :: t)) = true
  · rw [if_pos h1]
    have h := hlit (ascii "-->") (by decide) (by decide) (by simp_all)
    exact ⟨h.1, h.2⟩
  rw [if_neg h1]
  by_cases h2 : (c :: t).head? ≠ some 60
  · rw [if_pos h2]
    exact ⟨Nat.lt_succ_self _, rfl⟩
  rw [if_neg h2]
  by_cases h3 : m (ascii "<!--esi") (c :: t) = true
  · rw [if_pos h3]
    have h := hlit (ascii "<!--esi") (by decide) (by decide) h3
    exact ⟨h.1, h.2⟩
  rw [if_neg h3]
  by_cases h4 : m (ascii "<!--") (c :: t) = true
  · rw [if_pos h4]
    exact hblock _
  rw [if_neg h4]
  by_cases h5 : m (ascii "</esi") (c :: t) = true
  · rw [if_pos h5]
    exact splits_nextTag true c t
  rw [if_neg h5]
  by_cases h6 : m (ascii "<esi:") (c :: t) = true
  · rw [if_pos h6]
    exact splits_nextTag false c t
  rw [if_neg h6]
  by_cases h7 : m (ascii "<![CDATA[") (c :: t) = true
  · rw [if_pos h7]
    exact hblock _
  rw [if_neg h7]
  exact ⟨(splits_tail c t (endMarkup_suffix short _)).1, (splits_tail c t (endMarkup_suffix short _)).2⟩

/-- The items of a body, one behind the other, are the body. -/
theorem scan_bytes (hm : m.Sound) (short : Bool) {f : ℕ} (n : ℕ) (rem inc : Bool) (hf : r.length < f) :
    (scan m short f n rem inc r).flatMap (fun x => x.item.bytes) = r := by
  induction f generalizing n rem inc r with
  | zero => exact absurd hf (Nat.not_lt_zero _)
  | succ f ih =>
    cases r with
    | nil => rfl
    | cons c t =>
      have hs := next_split hm short inc c t
      rw [scan, List.flatMap_cons, ih _ _ _ (by have := hs.lt; omega)]
      exact hs.eq

end Split

end Varnish.Esi
