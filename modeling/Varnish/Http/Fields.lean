import Mathlib.Data.List.ReduceOption
import Varnish.Ban.Test

/-!
# Varnish.Http.Fields — which header fields are copied (`http_DoConnection`, `http_FilterFields`)

* `httpHeaders`: the filter table of `http_headers.h`.
* `httpFilterFields`: the copy, which leaves out what is marked or in the table.
* `httpDoConnection`: the marks, for the tokens of the first `Connection` header.
* `listed`: what the marks are for, a field whose name is a token of some `Connection` header.
* `copied_iff`: the copy has exactly the fields that are neither listed nor in the table, if the marks are on the listed ones.
-/

namespace Varnish.Http

open Varnish.Ban

/-! ## The filter table -/

section Table

/-- `HTTPH_R_PASS` -/
def rPass : ℕ := 1
/-- `HTTPH_A_PASS` -/
def aPass : ℕ := 2
/-- `HTTPH_R_PIPE` -/
def rPipe : ℕ := 4
/-- `HTTPH_R_FETCH` -/
def rFetch : ℕ := 8
/-- `HTTPH_A_INS` -/
def aIns : ℕ := 16
/-- `HTTPH_A_DELIVER` -/
def aDeliver : ℕ := 32

/-- The names and the flags of `http_headers.h`. -/
def httpHeaders : List (String × ℕ) :=
  [("Keep-Alive", rPass ||| aPass ||| rFetch), ("Accept", 0), ("Accept-Charset", 0), ("Accept-Encoding", 0),
    ("Accept-Language", 0), ("Accept-Ranges", rPass ||| aPass ||| rFetch ||| aIns), ("Age", aIns), ("Allow", 0),
    ("Authorization", 0), ("Cache-Control", rPass ||| rFetch), ("Connection", rPass ||| aPass ||| rFetch ||| aIns),
    ("Content-Encoding", 0), ("Content-Langugae", 0), ("Content-Length", rFetch ||| aIns), ("Content-Location", 0),
    ("Content-MD5", 0), ("Content-Range", rPass ||| aPass ||| rFetch ||| aIns), ("Content-Type", 0), ("Date", aDeliver),
    ("ETag", 0), ("Expect", 0), ("Expires", 0), ("From", 0), ("Host", 0), ("If-Match", rFetch),
    ("If-Modified-Since", rFetch), ("If-None-Match", rFetch), ("If-Range", rFetch), ("If-Unmodified-Since", rFetch),
    ("Last-Modified", 0), ("Location", 0), ("Max-Forwards", 0), ("Pragma", 0), ("Proxy-Authenticate", rFetch ||| aIns),
    ("Proxy-Authorization", rFetch ||| aIns), ("Range", rFetch ||| aIns), ("Referer", 0), ("Retry-After", 0),
    ("Server", 0), ("TE", rPass ||| aPass ||| rFetch ||| aIns), ("Trailer", rPass ||| aPass ||| rFetch ||| aIns),
    ("Transfer-Encoding", rPass ||| aPass ||| rFetch ||| aIns), ("Upgrade", rPass ||| aPass ||| rFetch ||| aIns),
    ("User-Agent", 0), ("Vary", 0), ("Via", 0), ("Warning", 0), ("WWW-Authenticate", 0)]

/-- `http_IsHdr`, where `hdr` ends in the colon. -/
def httpIsHdr (b hdr : Str) : Bool := (b.take hdr.length).map Char.toLower = hdr.map Char.toLower

/-- The lines `HTTPH` of the two loops: the table leaves out the text for `how`. -/
def excluded (how : ℕ) (b : Str) : Bool :=
  httpHeaders.any fun h => h.2 &&& how ≠ 0 && httpIsHdr b (h.1.toList ++ [':'])

end Table

/-! ## The copy -/

section Copy

/-- A slot that is in use: `hd[u]` with the `HDF_FILTER` of `hdf[u]`. -/
structure Field where
  text : Str
  filter : Bool
deriving DecidableEq

/-- The slots from `HTTP_HDR_FIRST` on of the `to` of a copy, of which there are `room`, and the headers it lost. -/
structure To where
  room : ℕ
  hd : List Str
  lost : List Str
deriving DecidableEq

/-- `http_copyheader` -/
def httpCopyheader (tgt : To) (b : Str) : To :=
  if tgt.hd.length < tgt.room then { tgt with hd := tgt.hd ++ [b] } else { tgt with lost := tgt.lost ++ [b] }

/-- The loop gets past its `continue`s at this field. -/
def passes (how : ℕ) (f : Field) : Bool := !f.filter && !excluded how f.text

/-- A round of the loop of `http_FilterFields`. -/
def filterField (how : ℕ) (tgt : To) : Option Field → To
  | none => tgt
  | some f => if passes how f then httpCopyheader tgt f.text else tgt

/-- `http_FilterFields` -/
def httpFilterFields (how : ℕ) (tgt : To) (fm : List (Option Field)) : To :=
  fm.foldl (filterField how) { tgt with hd := [] }

end Copy

/-! ## The marks -/

section Marks

/-- `http_findhdr`: the slot. -/
def findhdr (hp : List (Option Field)) (hdr : Str) : Option ℕ := hp.findIdx? fun f => f.any fun f => isHdr hdr f.text

/-- The value that `http_GetHdr` finds in slot `u`. -/
def valueAt (hp : List (Option Field)) (hdr : Str) (u : ℕ) : Str :=
  match hp[u]? with
  | some (some f) => (f.text.drop (hdr.length + 1)).dropWhile vctIssp
  | _ => []

/-- What is between the tokens. -/
def isSep (c : Char) : Bool := c = ',' || vctIssp c

/-- The `p` and `q` of the loop of `http_DoConnection`, token by token. -/
def connTokens (inside : Bool) : Str → List Str
  | [] => []
  | c :: t =>
    if isSep c then connTokens false t
    else if inside then connTokens true t
    else (c :: t.takeWhile (!isSep ·)) :: connTokens true t

/-- `hdf[u] |= HDF_FILTER` -/
def markAt (hp : List (Option Field)) (u : ℕ) : List (Option Field) :=
  hp.modify u (·.map fun f => { f with filter := true })

/-- The token is looked up, and the slot marked. -/
def markToken (hp : List (Option Field)) (t : Str) : List (Option Field) :=
  match findhdr hp t with
  | none => hp
  | some u => markAt hp u

/-- The `ret` of the loop. -/
def closes (ts : List Str) : Option String :=
  if ts.any (fun t => t.map Char.toLower = "close".toList) then some "Connection: close" else none

/-- `H_Connection` -/
def hConnection : Str := "Connection".toList

/-- `http_DoConnection`, where `old` is `protover < 1.1`: what it returns, and the marks. -/
def httpDoConnection (old : Bool) (hp : List (Option Field)) : Option String × List (Option Field) :=
  match findhdr hp hConnection with
  | none => (if old then some "not HTTP/1.1" else none, hp)
  | some u =>
    let ts := connTokens false (valueAt hp hConnection u)
    (closes ts, ts.foldl markToken hp)

end Marks

/-! ## What the marks are for -/

section Listed

/-- The name of a field, in lower case. -/
def fieldName (b : Str) : Option Str := if ':' ∈ b then some ((b.takeWhile (· ≠ ':')).map Char.toLower) else none

/-- The value of a field. -/
def fieldValue (b : Str) : Str := (b.dropWhile (· ≠ ':')).tail

/-- The tokens of a list of them. -/
def tokens (v : Str) : List Str := (v.splitOnP isSep).filter (· ≠ [])

/-- The name of the field `b` is a token of the field `c`, which is a `Connection` header. -/
def listedBy (b c : Str) : Bool :=
  fieldName c = some "connection".toList && (tokens (fieldValue c)).any fun t => fieldName b = some (t.map Char.toLower)

/-- The name of the field is a token of a `Connection` header. -/
def listed (hd : List (Option Str)) (b : Str) : Bool := hd.any fun c => c.any (listedBy b)

/-- The slot of the first field that begins with `t` and a colon. -/
def firstWith (hd : List (Option Str)) (t : Str) : Option ℕ := hd.findIdx? fun b => b.any (isHdr t)

/-- The tokens of the first `Connection` header. -/
def firstTokens (hd : List (Option Str)) : List Str :=
  match firstWith hd hConnection with
  | none => []
  | some u => tokens ((hd[u]?.join).elim [] fieldValue)

/-- The slot is the first one for a token of the first `Connection` header. -/
def struck (hd : List (Option Str)) (i : ℕ) : Bool := (firstTokens hd).any fun t => firstWith hd t = some i

/-- The fields with a mark where `m` says so. -/
def marked (m : ℕ → Bool) (hd : List (Option Str)) : List (Option Field) := hd.mapIdx fun i b => b.map fun b => ⟨b, m i⟩

/-- The number of fields in front of slot `i` that are copied, as long as there is room. -/
def ahead (how : ℕ) (hd : List (Option Str)) (i : ℕ) : ℕ :=
  ((marked (struck hd) hd).take i).countP fun f => f.any (passes how)

/-- The fields that should be copied. -/
def unlisted (how : ℕ) (hd : List (Option Str)) : List Str :=
  hd.reduceOption.filter fun b => !listed hd b && !excluded how b

/-- The marks are right for the fields that are not in the table, and there is room for the copy. -/
structure Exact (how room : ℕ) (hd : List (Option Str)) : Prop where
  /-- A listed field is the first one for a token of the first `Connection` header, or there is no room for it. -/
  listed : ∀ i b, hd[i]? = some (some b) → excluded how b = false → listed hd b = true →
    struck hd i = true ∨ room ≤ ahead how hd i
  /-- No other field is the first one for such a token, which would have a colon inside. -/
  colon : ∀ i b, hd[i]? = some (some b) → excluded how b = false →
    ∀ t ∈ firstTokens hd, ':' ∈ t → firstWith hd t = some i → Http.listed hd b = true
  /-- There is room for the other fields. -/
  room : ∀ i b, hd[i]? = some (some b) → excluded how b = false → Http.listed hd b = false → ahead how hd i < room

end Listed

/-! ## The copy, as a list -/

section Copied

variable {how : ℕ}

/-- The texts that get past the `continue`s. -/
def passed (how : ℕ) (fm : List (Option Field)) : List Str :=
  fm.reduceOption.filterMap fun f => if passes how f then some f.text else none

theorem foldl_copyheader (ts : List Str) (tgt : To) (h : tgt.hd.length ≤ tgt.room) :
    ts.foldl httpCopyheader tgt =
      ⟨tgt.room, (tgt.hd ++ ts).take tgt.room, tgt.lost ++ (tgt.hd ++ ts).drop tgt.room⟩ := by
  induction ts generalizing tgt with
  | nil => simp [List.take_of_length_le h, List.drop_of_length_le h]
  | cons b ts ih =>
    rw [List.foldl_cons]
    by_cases hlt : tgt.hd.length < tgt.room
    · rw [show httpCopyheader tgt b = { tgt with hd := tgt.hd ++ [b] } from if_pos hlt, ih _ (by simp; omega)]
      simp
    · have heq : tgt.room = tgt.hd.length := by omega
      rw [show httpCopyheader tgt b = { tgt with lost := tgt.lost ++ [b] } from if_neg hlt,
        ih { tgt with lost := tgt.lost ++ [b] } h]
      simp [heq]

theorem foldl_filterField (fm : List (Option Field)) (tgt : To) :
    fm.foldl (filterField how) tgt = (passed how fm).foldl httpCopyheader tgt := by
  induction fm generalizing tgt with
  | nil => rfl
  | cons f fm ih =>
    rw [List.foldl_cons, ih]
    cases f with
    | none => rfl
    | some f =>
      rw [filterField]
      split
      next hp => simp [passed, List.reduceOption_cons_of_some, hp]
      next hp => simp [passed, List.reduceOption_cons_of_some, hp]

/-- The copy has the first ones of the fields that pass, and loses the others. -/
theorem httpFilterFields_eq (tgt : To) (fm : List (Option Field)) :
    httpFilterFields how tgt fm =
      ⟨tgt.room, (passed how fm).take tgt.room, tgt.lost ++ (passed how fm).drop tgt.room⟩ := by
  unfold httpFilterFields
  rw [foldl_filterField, foldl_copyheader _ _ (Nat.zero_le _)]
  simp

/-- A choice by position is one by value exactly if the two agree everywhere. -/
theorem filter_snd_iff {α : Type} [DecidableEq α] (p : α → Bool) (l : List (α × Bool)) :
    (l.filter Prod.snd).map Prod.fst = (l.map Prod.fst).filter p ↔ ∀ x ∈ l, x.2 = p x.1 := by
  induction l with
  | nil => simp
  | cons x l ih =>
    obtain ⟨a, k⟩ := x
    rw [List.forall_mem_cons, ← ih]
    cases k with
    | true =>
      cases hp : p a with
      | true => simp [hp]
      | false =>
        constructor
        · intro h
          have hfil : (((a, true) :: l).map Prod.fst).filter p = (l.map Prod.fst).filter p :=
            List.filter_cons_of_neg (by simp [hp])
          rw [hfil] at h
          have hmem : a ∈ (l.map Prod.fst).filter p := by
            rw [← h]
            simp
          exact absurd (List.mem_filter.1 hmem).2 (by simp [hp])
        · rintro ⟨h, -⟩
          exact absurd h (by simp)
    | false =>
      cases hp : p a with
      | false => simp [hp]
      | true =>
        constructor
        · intro h
          have hle : ((l.filter Prod.snd).map Prod.fst).count a ≤ ((l.map Prod.fst).filter p).count a := by
            rw [List.count_filter hp]
            exact (List.filter_sublist.map Prod.fst).count_le a
          rw [List.filter_cons_of_neg (by simp)] at h
          rw [h, List.map_cons, List.filter_cons_of_pos hp, List.count_cons_self] at hle
          omega
        · rintro ⟨h, -⟩
          exact absurd h (by simp)

/-- The texts of a source, each with whether it is copied when `n` of them are already there. -/
def choice (how room : ℕ) : (n : ℕ) → List (Option Field) → List (Str × Bool)
  | _, [] => []
  | n, none :: fm => choice how room n fm
  | n, some f :: fm =>
    (f.text, passes how f && decide (n < room)) :: choice how room (if passes how f then n + 1 else n) fm

theorem choice_fst (room n : ℕ) (fm : List (Option Field)) :
    (choice how room n fm).map Prod.fst = fm.reduceOption.map Field.text := by
  induction fm generalizing n with
  | nil => rfl
  | cons f fm ih =>
    cases f with
    | none => exact ih n
    | some f => simp [choice, List.reduceOption_cons_of_some, ih]

theorem choice_snd (room n : ℕ) (fm : List (Option Field)) :
    ((choice how room n fm).filter Prod.snd).map Prod.fst = (passed how fm).take (room - n) := by
  induction fm generalizing n with
  | nil => simp [choice, passed]
  | cons f fm ih =>
    cases f with
    | none => exact ih n
    | some f =>
      cases hp : passes how f with
      | false => simpa [choice, passed, List.reduceOption_cons_of_some, hp] using ih n
      | true =>
        by_cases hn : n < room
        · have hsub : room - n = (room - (n + 1)) + 1 := by omega
          simpa [choice, passed, List.reduceOption_cons_of_some, hp, hn, hsub] using ih (n + 1)
        · have hsub : room - n = 0 := by omega
          have hsub' : room - (n + 1) = 0 := by omega
          simpa [choice, passed, List.reduceOption_cons_of_some, hp, hn, hsub, hsub'] using ih (n + 1)

theorem mem_choice (room n : ℕ) (fm : List (Option Field)) (x : Str × Bool) :
    x ∈ choice how room n fm ↔ ∃ (i : ℕ) (f : Field), fm[i]? = some (some f) ∧
      x = (f.text, passes how f && decide (n + (fm.take i).countP (fun f => f.any (passes how)) < room)) := by
  induction fm generalizing n with
  | nil => simp [choice]
  | cons f fm ih =>
    cases f with
    | none =>
      rw [choice, ih n]
      constructor
      · rintro ⟨i, f, hi, hx⟩
        exact ⟨i + 1, f, by simpa using hi, by simpa using hx⟩
      · rintro ⟨i, f, hi, hx⟩
        cases i with
        | zero => simp at hi
        | succ i => exact ⟨i, f, by simpa using hi, by simpa using hx⟩
    | some g =>
      have hcount : ∀ i, n + ((some g :: fm).take (i + 1)).countP (fun f => f.any (passes how)) =
          (if passes how g then n + 1 else n) + (fm.take i).countP (fun f => f.any (passes how)) := by
        intro i
        rw [List.take_succ_cons, List.countP_cons]
        cases hp : passes how g with
        | false => simp [hp]
        | true =>
          simp [hp]
          omega
      rw [choice, List.mem_cons, ih]
      constructor
      · rintro (hx | ⟨i, f, hi, hx⟩)
        · exact ⟨0, g, rfl, by rw [hx]; rfl⟩
        · exact ⟨i + 1, f, by simpa using hi, by rw [hcount]; exact hx⟩
      · rintro ⟨i, f, hi, hx⟩
        cases i with
        | zero =>
          obtain rfl : g = f := by simpa using hi
          exact .inl (by rw [hx]; rfl)
        | succ i =>
          rw [hcount] at hx
          exact .inr ⟨i, f, by simpa using hi, hx⟩

end Copied

/-! ## The marks, as a function of the slot -/

section MarkLemmas

variable {hd : List (Option Str)} {m : ℕ → Bool}

theorem map_text_marked (m : ℕ → Bool) (hd : List (Option Str)) :
    (marked m hd).map (Option.map Field.text) = hd := by
  apply List.ext_getElem?
  intro i
  rw [List.getElem?_map, marked, List.getElem?_mapIdx, Option.map_map]
  cases hd[i]? with
  | none => rfl
  | some b => cases b <;> rfl

theorem findhdr_marked (t : Str) : findhdr (marked m hd) t = firstWith hd t := by
  have h : ∀ f : Option Field, f.any (fun f => isHdr t f.text) = (f.map Field.text).any (isHdr t) := by
    intro f
    cases f <;> rfl
  unfold firstWith
  conv => rhs; rw [← map_text_marked m hd, List.findIdx?_map]
  unfold findhdr
  congr 1
  funext f
  exact h f

theorem getElem?_marked (i : ℕ) : (marked m hd)[i]? = hd[i]?.map (Option.map fun b => ⟨b, m i⟩) := by
  rw [marked, List.getElem?_mapIdx]

theorem markToken_marked (t : Str) :
    markToken (marked m hd) t = marked (fun i => m i || decide (firstWith hd t = some i)) hd := by
  unfold markToken
  rw [findhdr_marked]
  cases h : firstWith hd t with
  | none => simp
  | some u =>
    apply List.ext_getElem?
    intro i
    unfold markAt
    rw [List.getElem?_modify, getElem?_marked, getElem?_marked]
    by_cases hu : u = i
    · subst hu
      cases hd[u]? with
      | none => rfl
      | some b => cases b <;> simp
    · simp [hu]

theorem foldl_markToken (ts : List Str) :
    ts.foldl markToken (marked m hd) = marked (fun i => m i || ts.any fun t => firstWith hd t = some i) hd := by
  induction ts generalizing m with
  | nil => simp
  | cons t ts ih =>
    rw [List.foldl_cons, markToken_marked, ih]
    simp [Bool.or_assoc]

/-- The loop over `p` and `q` cuts the tokens. -/
theorem connTokens_eq (v : Str) : connTokens false v = tokens v ∧
    connTokens true v = (v.splitOnP isSep).tail.filter (· ≠ []) ∧ (v.splitOnP isSep).head? = some (v.takeWhile (!isSep ·)) := by
  induction v with
  | nil => exact ⟨rfl, rfl, rfl⟩
  | cons c v ih =>
    obtain ⟨hf, ht, hh⟩ := ih
    obtain ⟨x, xs, hx⟩ := List.exists_cons_of_ne_nil (List.splitOnP_ne_nil isSep v)
    rw [hx] at ht hh
    simp only [List.head?_cons, Option.some.injEq] at hh
    rw [tokens, List.splitOnP_cons_eq_if_modifyHead, connTokens, connTokens, hx]
    cases hc : isSep c with
    | true => simp [hf, tokens, hx, hc]
    | false => simp_all

theorem tokens_blanks (v : Str) : tokens (v.dropWhile vctIssp) = tokens v := by
  rw [← (connTokens_eq _).1, ← (connTokens_eq v).1]
  induction v with
  | nil => rfl
  | cons c v ih =>
    cases hc : vctIssp c with
    | false => simp [hc]
    | true =>
      have hsep : isSep c = true := by simp [isSep, hc]
      rw [List.dropWhile_cons_of_pos hc, ih, connTokens, if_pos hsep]

end MarkLemmas

/-! ## Names -/

section Names

variable {hd : List (Option Str)} {b t : Str} {i : ℕ}

theorem toLower_colon (c : Char) : c.toLower = ':' ↔ c = ':' := by
  constructor
  · intro h
    unfold Char.toLower at h
    split at h
    next hc =>
      have h1 : (65 : UInt32) ≤ c.val := hc.1
      have h2 : c.val ≤ (90 : UInt32) := hc.2
      have h3 : c.val + 32 = (58 : UInt32) := congrArg Char.val h
      have h4 := congrArg UInt32.toNat h3
      rw [UInt32.le_iff_toNat_le] at h1 h2
      rw [UInt32.toNat_add] at h4
      simp at h1 h2 h4
      omega
    next hc => exact h
  · rintro rfl
    rfl

theorem isHdr_iff_append : isHdr t b = true ↔ ∃ n r, b = n ++ ':' :: r ∧ n.map Char.toLower = t.map Char.toLower := by
  unfold isHdr
  simp only [Bool.and_eq_true, decide_eq_true_eq]
  constructor
  · rintro ⟨⟨hlen, hcol⟩, hpre⟩
    refine ⟨b.take t.length, b.drop (t.length + 1), ?_, hpre⟩
    obtain ⟨hlt, hget⟩ := List.getElem?_eq_some_iff.1 hcol
    rw [← hget, List.getElem_cons_drop, List.take_append_drop]
  · rintro ⟨n, r, rfl, hn⟩
    have hlen : t.length = n.length := by simpa using (congrArg List.length hn).symm
    refine ⟨⟨?_, ?_⟩, ?_⟩
    · simp [hlen]
    · simp [hlen]
    · simpa [hlen] using hn

theorem fieldName_append {n : Str} (hn : ':' ∉ n) (r : Str) :
    fieldName (n ++ ':' :: r) = some (n.map Char.toLower) ∧ fieldValue (n ++ ':' :: r) = r := by
  have hp : ∀ c ∈ n, decide (c ≠ ':') = true := by
    intro c hc
    simp only [decide_eq_true_eq]
    rintro rfl
    exact hn hc
  constructor
  · rw [fieldName, if_pos (by simp), List.takeWhile_append_of_pos hp]
    simp
  · rw [fieldValue, List.dropWhile_append_of_pos hp]
    simp

theorem not_colon_mem {n : Str} (ht : ':' ∉ t) (h : n.map Char.toLower = t.map Char.toLower) : ':' ∉ n := by
  intro hn
  have hmem : ':' ∈ t.map Char.toLower := by
    rw [← h]
    exact List.mem_map.2 ⟨':', hn, rfl⟩
  obtain ⟨c, hc, hlow⟩ := List.mem_map.1 hmem
  rw [(toLower_colon c).1 hlow] at hc
  exact ht hc

/-- A token without a colon finds the fields of that name. -/
theorem fieldName_of_isHdr (ht : ':' ∉ t) (h : isHdr t b = true) : fieldName b = some (t.map Char.toLower) := by
  obtain ⟨n, r, rfl, hn⟩ := isHdr_iff_append.1 h
  rw [(fieldName_append (not_colon_mem ht hn) r).1, hn]

theorem firstWith_spec (h : firstWith hd t = some i) : ∃ b, hd[i]? = some (some b) ∧ isHdr t b = true := by
  obtain ⟨hlt, hany, -⟩ := List.findIdx?_eq_some_iff_getElem.1 h
  obtain ⟨b, hb, ht⟩ := Option.any_eq_true _ _ |>.1 hany
  exact ⟨b, by rw [List.getElem?_eq_getElem hlt, hb], ht⟩

theorem firstTokens_none (h : firstWith hd hConnection = none) : firstTokens hd = [] := by
  rw [firstTokens, h]

theorem firstTokens_some (h : firstWith hd hConnection = some i) (hb : hd[i]? = some (some b)) :
    firstTokens hd = tokens (fieldValue b) := by
  rw [firstTokens, h]
  simp [hb]

theorem colon_not_mem_connection : ':' ∉ hConnection := by decide

/-- The value that the loop runs over is the one of the first `Connection` header. -/
theorem connTokens_valueAt {m : ℕ → Bool} (h : firstWith hd hConnection = some i) :
    connTokens false (valueAt (marked m hd) hConnection i) = firstTokens hd := by
  obtain ⟨c, hc, his⟩ := firstWith_spec h
  obtain ⟨n, r, rfl, hn⟩ := isHdr_iff_append.1 his
  have hlen : hConnection.length = n.length := by simpa using (congrArg List.length hn).symm
  have hval := (fieldName_append (not_colon_mem colon_not_mem_connection hn) r).2
  rw [(connTokens_eq _).1, valueAt, getElem?_marked, hc, firstTokens_some h hc, hval]
  show tokens (((n ++ ':' :: r).drop (hConnection.length + 1)).dropWhile vctIssp) = _
  rw [tokens_blanks, hlen]
  simp

/-- What `http_DoConnection` marks. -/
theorem httpDoConnection_marked (old : Bool) :
    (httpDoConnection old (marked (fun _ => false) hd)).2 = marked (struck hd) hd := by
  unfold httpDoConnection
  rw [findhdr_marked]
  cases h : firstWith hd hConnection with
  | none =>
    have hs : struck hd = fun _ => false := by
      funext i
      simp [struck, firstTokens_none h]
    rw [hs]
  | some u =>
    show (connTokens false (valueAt (marked (fun _ => false) hd) hConnection u)).foldl markToken _ = _
    rw [connTokens_valueAt h, foldl_markToken]
    simp only [Bool.false_or]
    rfl

/-- A field that is found by a token without a colon of the first `Connection` header is listed. -/
theorem listed_of_firstWith (hb : hd[i]? = some (some b)) (ht : t ∈ firstTokens hd) (hcol : ':' ∉ t)
    (hi : firstWith hd t = some i) : listed hd b = true := by
  obtain ⟨b', hb', his⟩ := firstWith_spec hi
  obtain rfl : b' = b := by simpa [hb] using hb'.symm
  cases h : firstWith hd hConnection with
  | none => simp [firstTokens_none h] at ht
  | some u =>
    obtain ⟨c, hc, hcis⟩ := firstWith_spec h
    rw [firstTokens_some h hc] at ht
    apply List.any_eq_true.2
    refine ⟨some c, List.mem_of_getElem? hc, ?_⟩
    show listedBy b' c = true
    unfold listedBy
    rw [fieldName_of_isHdr colon_not_mem_connection hcis, fieldName_of_isHdr hcol his]
    simp only [Bool.and_eq_true, List.any_eq_true, decide_eq_true_eq]
    exact ⟨by decide, t, ht, rfl⟩

end Names

/-! ## The copy and the list -/

section Main

variable {how : ℕ} {hd : List (Option Str)}

theorem reduceOption_marked (m : ℕ → Bool) : (marked m hd).reduceOption.map Field.text = hd.reduceOption := by
  rw [← List.reduceOption_map, map_text_marked]

/-- After `http_DoConnection` and `http_FilterFields` the copy has exactly the fields that are neither named in a
`Connection` header nor in the table, in their order. -/
theorem copied_iff (how : ℕ) (tgt : To) (old : Bool) (hd : List (Option Str)) :
    (httpFilterFields how tgt (httpDoConnection old (marked (fun _ => false) hd)).2).hd = unlisted how hd ↔
      Exact how tgt.room hd := by
  have hcopy : (httpFilterFields how tgt (httpDoConnection old (marked (fun _ => false) hd)).2).hd =
      ((choice how tgt.room 0 (marked (struck hd) hd)).filter Prod.snd).map Prod.fst := by
    rw [httpDoConnection_marked, httpFilterFields_eq, choice_snd]
    rfl
  have hspec : unlisted how hd = ((choice how tgt.room 0 (marked (struck hd) hd)).map Prod.fst).filter
      fun b => !listed hd b && !excluded how b := by
    rw [choice_fst, reduceOption_marked]
    rfl
  rw [hcopy, hspec, filter_snd_iff]
  -- slot by slot: copied exactly if the field should be
  have hslot : (∀ x ∈ choice how tgt.room 0 (marked (struck hd) hd), x.2 = (!listed hd x.1 && !excluded how x.1)) ↔
      ∀ i b, hd[i]? = some (some b) →
        (!struck hd i && !excluded how b && decide (ahead how hd i < tgt.room)) = (!listed hd b && !excluded how b) := by
    constructor
    · intro h i b hb
      have hf : (marked (struck hd) hd)[i]? = some (some ⟨b, struck hd i⟩) := by rw [getElem?_marked, hb]; rfl
      have hx := h _ ((mem_choice tgt.room 0 _ _).2 ⟨i, _, hf, rfl⟩)
      rw [Nat.zero_add] at hx
      exact hx
    · rintro h x hx
      obtain ⟨i, f, hf, rfl⟩ := (mem_choice tgt.room 0 _ _).1 hx
      rw [getElem?_marked] at hf
      obtain ⟨b', hb', hbf⟩ := Option.map_eq_some_iff.1 hf
      obtain ⟨b, rfl, rfl⟩ := Option.map_eq_some_iff.1 hbf
      rw [Nat.zero_add]
      exact h i b hb'
  rw [hslot]
  constructor
  · intro h
    refine ⟨?_, ?_, ?_⟩
    · intro i b hb hex hl
      have hi := h i b hb
      rw [hl, hex] at hi
      by_contra hno
      push Not at hno
      simp [hno.1, hno.2] at hi
    · intro i b hb hex t ht _ hfirst
      have hs : struck hd i = true := List.any_eq_true.2 ⟨t, ht, by simpa using hfirst⟩
      have hi := h i b hb
      rw [hs, hex] at hi
      simpa using hi
    · intro i b hb hex hl
      have hi := h i b hb
      rw [hl, hex] at hi
      simp at hi
      exact hi.2
  · intro h i b hb
    cases hex : excluded how b with
    | true => simp
    | false =>
      cases hl : listed hd b with
      | true =>
        rcases h.listed i b hb hex hl with hs | hfull
        · simp [hs]
        · simp [hfull]
      | false =>
        have hs : struck hd i = false := by
          by_contra hs
          obtain ⟨t, ht, hfirst⟩ := List.any_eq_true.1 (by simpa using hs : struck hd i = true)
          have hfirst' : firstWith hd t = some i := by simpa using hfirst
          have hl' : listed hd b = true := by
            by_cases hcol : ':' ∈ t
            · exact h.colon i b hb hex t ht hcol hfirst'
            · exact listed_of_firstWith hb ht hcol hfirst'
          simp [hl] at hl'
        simp [hs, h.room i b hb hex hl]

/-- A request with two headers that its `Connection` header names. -/
def twiceListed : List (Option Str) :=
  [some "Connection: foo".toList, some "Foo: 1".toList, some "foo: 2".toList, some "Host: a".toList]

/-- The second one of them is copied to the backend. -/
theorem copied_repeated :
    (httpFilterFields rFetch ⟨59, [], []⟩ (httpDoConnection false (marked (fun _ => false) twiceListed)).2).hd =
      ["foo: 2".toList, "Host: a".toList] ∧
    unlisted rFetch twiceListed = ["Host: a".toList] ∧ listed twiceListed "foo: 2".toList = true := by
  decide +kernel

end Main

end Varnish.Http
