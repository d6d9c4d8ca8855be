import Varnish.Lib.Ctype
import Varnish.Lib.Segments

/-!
# Varnish.Esi.Model — the parser of `cache_esi.c`

* `EsiPtr`, `nep`, `cmp`: pointers into the segments of a body.  The address of `finis` is `0`.
* `Work`: `struct esi_work`.  The newest bit stands first, it is the one at `eb`.
* `esiAddbit`, `esiAddpfx`: the pieces of the output.
* `esiAttrib`, `resolve`, `esiHandleInclude`: attributes, and what an include element leaves in its bit.
* `parseEsiComment`, `parseComment`, `parseCdata`, `parseEsiTag`, `esiParse`: the parser.

A failed assertion is `none`.  There is room in the workspaces and in the storage.
-/

namespace Varnish.Esi

open Varnish.Lib

/-- A string literal. -/
def ascii (s : String) : List UInt8 := s.toList.map fun c => UInt8.ofNat c.toNat

/-! ## Pointers -/

section Pointers

/-- `struct esi_ptr` -/
abbrev EsiPtr := Cursor

/-- The address of the empty string that a pointer stands at behind the last byte. -/
def finis : ℕ := 0

/-- What the parser reads, other than the body: the memory, `params->esi_syntax`, the URL that the backend was asked for, and bytes
that it reads without having written them. -/
structure Env where
  mem : Mem
  syn : ℕ
  url : List UInt8
  /-- What lies behind the NUL of a string literal. -/
  ro : List UInt8 → List UInt8
  /-- What lies in `obj->ws_o` behind the copy of an element, by the number of bytes consumed. -/
  wsO : ℕ → UInt8
  /-- What lies in `wrk->ws` behind the copy of a value, by the numbers of bytes consumed and of bytes left in the element. -/
  wsW : ℕ → ℕ → UInt8

variable (env : Env)

/-- Move a pointer one char forward. -/
def nep (ep : EsiPtr) : EsiPtr :=
  if ep.p = finis then ep
  else if ep.p + 1 < ep.e then { ep with p := ep.p + 1 }
  else
    match ep.st.tail with
    | [] => ⟨finis, []⟩
    | sg :: st => ⟨sg.ptr, sg :: st⟩

/-- The byte at a pointer. -/
def deref (ep : EsiPtr) : UInt8 := if ep.p = finis then 0 else env.mem ep.p

/-- The loop of `CMP`, over the bytes of the literal and the ones behind it. -/
def cmpLoop : List UInt8 → EsiPtr → UInt8
  | [], _ => 1
  | c :: str, p2 => if c = deref env p2 then cmpLoop str (nep p2) else c

/-- `CMP`: zero if the text is there. -/
def cmp (ep : EsiPtr) (str : List UInt8) : UInt8 := cmpLoop env (str ++ 0 :: env.ro str) ep

end Pointers

/-! ## The state -/

section State

/-- `struct esi_bit` -/
structure Bit where
  /-- `verbatim.b` -/
  b : ℕ
  /-- The length of `verbatim`. -/
  len : ℕ
  host : Option (List UInt8)
  incl : Option (List UInt8)
deriving DecidableEq

/-- `struct esi_work` -/
structure Work where
  off : ℕ
  s : EsiPtr
  p : EsiPtr
  bits : List Bit
  remflg : Bool
  incmt : Bool
  space : ℕ
deriving DecidableEq

def sizeofBit : ℕ := 88

def sizeofData : ℕ := 32

/-- The difference of two pointers, as an `unsigned`. -/
def pdiff (b e : ℕ) : ℕ := (((e : ℤ) - b) % 2 ^ 32).toNat

namespace Work

/-- Consume one input character. -/
def N (w : Work) : Work := { w with off := if w.p.p < w.p.e then w.off + 1 else w.off, p := nep w.p }

def Ns : ℕ → Work → Work
  | 0, w => w
  | n + 1, w => Ns n w.N

end Work

/-- `esi_addbit` of a text: an empty one has no end. -/
def esiAddbit (w : Work) (verbatim len : ℕ) : Option Work :=
  if len = 0 then none
  else some { w with bits := ⟨verbatim, len, none, none⟩ :: w.bits, space := w.space + sizeofBit }

/-- `esi_addbit` of no text. -/
def esiAddbitNull (w : Work) : Work :=
  { w with bits := ⟨w.s.p, 0, none, none⟩ :: w.bits, space := w.space + sizeofBit }

/-- The loop of `esi_addpfx`: a bit for each segment but the last one. -/
def addpfxLoop : ℕ → Work → Option Work
  | 0, _ => none
  | f + 1, w =>
    if w.s.st = w.p.st then some w
    else
      let ep := w.s.e
      (esiAddbit w w.s.p (pdiff w.s.p ep)).bind fun w => addpfxLoop f { w with s := nep { w.s with p := ep } }

def esiAddpfx (w : Work) : Option Work :=
  if w.remflg then some { w with s := w.p }
  else
    (addpfxLoop (w.s.st.length + 1) w).bind fun w =>
      (if w.s.st ≠ [] ∧ w.p.p ≠ w.s.p then esiAddbit w w.s.p (pdiff w.s.p w.p.p) else some w).bind fun w =>
        some { w with s := { w.s with p := w.p.p } }

end State

/-! ## Attributes -/

section Attributes

def isxmlnamestart (b : UInt8) : Bool :=
  b = 58 || b = 95 || (65 ≤ b && b ≤ 90) || (97 ≤ b && b ≤ 122) || (192 ≤ b && b ≤ 214) || (216 ≤ b && b ≤ 246) || 248 ≤ b

def isxmlname (b : UInt8) : Bool := isxmlnamestart b || b = 45 || b = 46 || (48 ≤ b && b ≤ 57) || b = 183

/-- An attribute, and what is left of the element.  `past`: `in->b` is one byte behind its end. -/
structure Attr where
  attrib : List UInt8
  val : List UInt8
  left : List UInt8
  past : Bool
deriving DecidableEq

/-- The value of an attribute, from the byte behind the `=` on.  `fin` is the byte at the end of the element. -/
def readVal (fin : UInt8) (attrib t : List UInt8) : Option Attr :=
  if bspace (t.headD fin) then some ⟨attrib, [], t.tail, false⟩
  else
    match t with
    | [] => some ⟨attrib, [], [], false⟩
    | q :: u =>
      if q = 34 then
        match u.dropWhile (· ≠ 34) with
        | [] => none
        | _ :: left => some ⟨attrib, u.takeWhile (· ≠ 34), left, false⟩
      else
        match t.dropWhile fun b => ¬ bspace b with
        | [] => some ⟨attrib, t, [], true⟩
        | _ :: left => some ⟨attrib, t.takeWhile fun b => ¬ bspace b, left, false⟩

/-- `esi_attrib` behind its assertion; `none` if it does not return 1. -/
def readAttrib (fin : UInt8) (t : List UInt8) : Option Attr :=
  match t.dropWhile bspace with
  | [] => none
  | c :: u =>
    if isxmlnamestart c = false then none
    else
      let attrib := (c :: u).takeWhile fun b => b ≠ 61 && ¬ bspace b
      if attrib.all isxmlname = false then none
      else
        match (c :: u).dropWhile fun b => b ≠ 61 && ¬ bspace b with
        | [] => some ⟨attrib, [], [], false⟩
        | d :: v => if bspace d then some ⟨attrib, [], d :: v, false⟩ else readVal fin attrib v

/-- `esi_attrib`: `nx` is the byte that follows `fin`. -/
def esiAttrib (fin nx : UInt8) (t : List UInt8) (past : Bool) : Option (Option Attr) :=
  if (if past then nx else t.headD fin) = 0 then none else some (readAttrib fin t)

end Attributes

/-! ## Includes -/

section Includes

def entities : List (List UInt8 × UInt8) :=
  [(ascii "&apos;", 39), (ascii "&quot;", 34), (ascii "&lt;", 60), (ascii "&gt;", 62), (ascii "&amp;", 38)]

/-- `XMLentity` -/
def xmlEntity : ℕ → List UInt8 → List UInt8
  | 0, _ => []
  | _ + 1, [] => []
  | f + 1, c :: t =>
    match entities.find? fun r => r.1.isPrefixOf (c :: t) with
    | some r => r.2 :: xmlEntity f ((c :: t).drop r.1.length)
    | none => c :: xmlEntity f t

/-- The URL up to the last slash before the first question mark, if there is one. -/
def urlBase (url : List UInt8) : List UInt8 :=
  let dir := ((url.takeWhile (· ≠ 63)).reverse.dropWhile (· ≠ 47)).reverse
  if dir = [] then url else dir

/-- What `%s` prints. -/
def cstr (bs : List UInt8) : List UInt8 := bs.takeWhile (· ≠ 0)

/-- The value of `src` in the workspace, and the byte behind it. -/
def srcVal (junk : UInt8) (val : List UInt8) : List UInt8 × UInt8 :=
  let v := val ++ [0]
  if 38 ∈ cstr v then (xmlEntity v.length v, 0) else (v, junk)

/-- The host, if it is set, and the URL. -/
def resolve (url : List UInt8) (junk : UInt8) (val : List UInt8) : Option (Option (List UInt8) × List UInt8) :=
  let (v, beyond) := srcVal junk val
  if 7 < v.length ∧ (ascii "http://").isPrefixOf v then
    let host := ascii "Host: " ++ (v.drop 7).takeWhile (· ≠ 47) ++ [0]
    match (v.drop 7).dropWhile (· ≠ 47) with
    | [] => if beyond = 47 then some (some host, []) else none
    | u => some (some host, u)
  else if v.head? = some 47 then some (none, v)
  else some (none, cstr (urlBase url) ++ cstr v ++ [0])

/-- The loop of `esi_handle_include`, over `eb->host`, `eb->include` and `ew->space`. -/
def includeLoop (env : Env) (off : ℕ) (fin nx : UInt8) :
    ℕ → (t : List UInt8) → (past : Bool) → (host incl : Option (List UInt8)) → (space : ℕ) →
      Option (Option (List UInt8) × Option (List UInt8) × ℕ)
  | 0, _, _, host, incl, space => some (host, incl, space)
  | f + 1, t, past, host, incl, space =>
    (esiAttrib fin nx t past).bind fun
      | none => some (host, incl, space)
      | some a =>
        if a.attrib ≠ ascii "src" ∨ a.val = [] then includeLoop env off fin nx f a.left a.past host incl space
        else
          (resolve env.url (env.wsW off a.left.length) a.val).bind fun r =>
            let host := r.1.or host
            includeLoop env off fin nx f a.left a.past host (some r.2)
              (space + r.2.length + (host.map List.length).getD 0)

/-- `esi_handle_include` -/
def esiHandleInclude (env : Env) (w : Work) (fin nx : UInt8) (t : List UInt8) : Option Work :=
  let w :=
    match w.bits with
    | [] => esiAddbitNull w
    | eb :: _ => if eb.incl.isSome then esiAddbitNull w else w
  match w.bits with
  | [] => none
  | eb :: bits =>
    (includeLoop env w.off fin nx (t.length + 1) t false eb.host eb.incl w.space).bind fun r =>
      some { w with bits := { eb with host := r.1, incl := r.2.1 } :: bits, space := r.2.2 }

end Includes

/-! ## Elements -/

section Elements

variable (env : Env)

def parseEsiComment (w : Work) : Option Work :=
  (esiAddpfx w).bind fun w =>
    let w := w.Ns 7
    if w.incmt then none else some { w with incmt := true, s := { w.s with p := w.p.p } }

/-- The loop of `parse_comment` and `parse_cdata`: until behind the text `str`, which starts with `c`. -/
def skipTo (c : UInt8) (str : List UInt8) : ℕ → Work → Work
  | 0, w => w
  | f + 1, w =>
    let w := w.N
    if deref env w.p = c ∧ cmp env w.p str = 0 then w.Ns 3
    else if w.p.p < w.p.e then skipTo c str f w
    else w

def parseComment (f : ℕ) (w : Work) : Work := skipTo env 45 (ascii "-->") f w

def parseCdata (f : ℕ) (w : Work) : Option Work :=
  (esiAddpfx w).bind fun w => some (skipTo env 93 (ascii "]]>") f w)

/-- `do N(ew); while (*ew->p.p != '>' && ew->p.p < ew->p.e)` -/
def skipGt : ℕ → Work → Work
  | 0, w => w
  | f + 1, w =>
    let w := w.N
    if deref env w.p ≠ 62 ∧ w.p.p < w.p.e then skipGt f w else w

/-- An element that is spread over several segments is pulled together. -/
def pull : ℕ → EsiPtr → (stop : ℕ) → List UInt8
  | 0, _, _ => []
  | f + 1, px, stop => if px.p = stop then [] else deref env px :: pull f (nep px) stop

/-- What is done with an element: `tag` is its text from behind `<esi:` or `</esi:` on. -/
def doTag (w : Work) (closing empty : Bool) (fin nx : UInt8) (tag : List UInt8) : Option Work :=
  if (ascii "remove").isPrefixOf tag then
    if empty then some w
    else if closing then some { w with remflg := false }
    else some { w with remflg := true }
  else if w.remflg then some w
  else if (ascii "comment").isPrefixOf tag then some w
  else if (ascii "include").isPrefixOf tag then esiHandleInclude env w fin nx (tag.drop 7)
  else some w

/-- `/>` ends an empty element. -/
def tagEmpty (raw : List UInt8) : Bool := raw.tail.dropLast.getLast? = some 47

/-- `ew->tag`: the element without `<`, and without `>` or `/>`. -/
def tagText (raw : List UInt8) : List UInt8 := if tagEmpty raw then raw.tail.dropLast.dropLast else raw.tail.dropLast

/-- The byte that ends `ew->tag`. -/
def tagFin (raw : List UInt8) : UInt8 := if tagEmpty raw then 47 else 62

/-- What `ew->tag.b` is moved by. -/
def tagSkip (closing : Bool) : ℕ := if closing then 5 else 4

/-- The last part of `parse_esi_tag`: `raw` is the element, and `nx` is the byte behind it. -/
def finishTag (w : Work) (closing : Bool) (raw : List UInt8) (nx : UInt8) : Option Work :=
  if (tagText raw).length < tagSkip closing then none
  else
    (doTag env w closing (tagEmpty raw) (tagFin raw) (if tagEmpty raw then 62 else nx)
      ((tagText raw).drop (tagSkip closing))).bind fun w => some { w with s := w.p }

def parseEsiTag (f : ℕ) (w : Work) (closing : Bool) : Option Work :=
  (esiAddpfx w).bind fun w =>
    let w := skipGt env f w
    if w.p.p = w.p.e then esiAddpfx w
    else
      let w := w.N
      if w.p.st = w.s.st then finishTag env w closing (rd env.mem w.s.p (w.p.p - w.s.p)) (env.mem w.p.p)
      else finishTag env w closing (pull env f w.s w.p.p) (env.wsO w.off)

end Elements

/-! ## The parser -/

section Parser

variable (env : Env)

/-- `looks_like_xml`, over the bytes of all segments. -/
def looksLikeXml (body : List UInt8) : Bool := (body.dropWhile bspace).head? = some 60

/-- One of the two searches of `contain_esi`: `r` is what is left of `wanted`. -/
def wantStep (wanted r : List UInt8) (b : UInt8) : List UInt8 := if r.head? = some b then r.tail else wanted

/-- `contain_esi`, over the bytes of all segments. -/
def containEsi : (r r2 : List UInt8) → List UInt8 → Bool
  | _, _, [] => false
  | r, r2, b :: body =>
    let r := wantStep (ascii "<esi:") r b
    let r2 := wantStep (ascii "<!--esi") r2 b
    r = [] || r2 = [] || containEsi r r2 body

/-- One turn of the main loop. -/
def mainStep (f : ℕ) (w : Work) : Option Work :=
  if w.incmt ∧ deref env w.p = 45 ∧ cmp env w.p (ascii "-->") = 0 then
    (esiAddpfx w).bind fun w =>
      let w := w.Ns 3
      some { w with s := w.p, incmt := false }
  else if deref env w.p ≠ 60 then some w.N
  else if cmp env w.p (ascii "<!--esi") = 0 then parseEsiComment w
  else if cmp env w.p (ascii "<!--") = 0 then some (parseComment env f w)
  else if cmp env w.p (ascii "</esi") = 0 then parseEsiTag env f w true
  else if cmp env w.p (ascii "<esi:") = 0 then parseEsiTag env f w false
  else if cmp env w.p (ascii "<![CDATA[") = 0 then parseCdata env f w
  else if env.syn.testBit 1 then some w.N
  else some (skipGt env f w.N)

/-- The main loop, with the fuel `f` for the loops inside of it. -/
def mainLoop (f : ℕ) : ℕ → Work → Option Work
  | 0, _ => none
  | g + 1, w => if w.p.p < w.p.e then (mainStep env f w).bind (mainLoop f g) else some w

/-- What a bit takes in the storage. -/
def Bit.size (eb : Bit) : ℕ := sizeofBit + (eb.incl.map List.length).getD 0 + (eb.host.map List.length).getD 0

/-- `st->len`, when the bits are copied. -/
def copiedLen (bits : List Bit) : ℕ := bits.foldl (fun len eb => len + eb.size) sizeofData

def startWork (store : List Seg) : Work := ⟨1, .first store, .first store, [], false, false, sizeofData⟩

/-- The body of `ESI_Parse` behind the checks. -/
def parseBody (store : List Seg) : Option Work :=
  let f := (segBytes env.mem store).length + 1
  (mainLoop env f f (startWork store)).bind esiAddpfx

/-- There is something to parse. -/
def processed (body : List UInt8) : Bool :=
  (env.syn.testBit 0 || looksLikeXml body) && containEsi (ascii "<esi:") (ascii "<!--esi") body

/-- `ESI_Parse`: the bits, if there is something to parse. -/
def esiParse (store : List Seg) : Option (Option (List Bit)) :=
  if processed env (segBytes env.mem store) = false then some none
  else
    (parseBody env store).bind fun w =>
      let bits := w.bits.reverse
      if copiedLen bits = w.space then some (some bits) else none

end Parser

end Varnish.Esi
