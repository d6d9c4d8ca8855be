import Mathlib.Algebra.GroupWithZero.Nat
import Varnish.Http.Delimit
import Varnish.Http.Fields
import Varnish.Ws.Workspace

/-!
# Varnish.Http.Object — the workspace of an object (`http_EstimateWS` and `cnt_fetch`)

* `httpDissectResponse`: which responses of the backend are accepted.
* `httpEstimateWS`: the size and the number of slots that `cnt_fetch` asks for.
* `Ws.alloc_of`: the workspace here is the one of `Varnish.Ws.Workspace`, of which only the room is left.
* `fetchObj`: what `cnt_fetch` and `FetchBody` then put into that workspace.
* `fetchObj_iff`: nothing is lost, exactly if the three texts of the first line were counted for enough.
* `made_iff`: for an accepted response this can only fail if its reason phrase looks like a header of the filter table.
-/

namespace Varnish.Http

open Varnish.Ban

/-! ## The response of the backend -/

section Response

/-- The table of `http_response.h`. -/
def httpMsg : List (ℕ × String) :=
  [(101, "Switching Protocols"), (200, "OK"), (201, "Created"), (202, "Accepted"), (203, "Non-Authoritative Information"),
    (204, "No Content"), (205, "Reset Content"), (206, "Partial Content"), (300, "Multiple Choices"),
    (301, "Moved Permanently"), (302, "Found"), (303, "See Other"), (304, "Not Modified"), (305, "Use Proxy"),
    (306, "(Unused)"), (307, "Temporary Redirect"), (400, "Bad Request"), (401, "Unauthorized"),
    (402, "Payment Required"), (403, "Forbidden"), (404, "Not Found"), (405, "Method Not Allowed"),
    (406, "Not Acceptable"), (407, "Proxy Authentication Required"), (408, "Request Timeout"), (409, "Conflict"),
    (410, "Gone"), (411, "Length Required"), (412, "Precondition Failed"), (413, "Request Entity Too Large"),
    (414, "Request-URI Too Long"), (415, "Unsupported Media Type"), (416, "Requested Range Not Satisfiable"),
    (417, "Expectation Failed"), (500, "Internal Server Error"), (501, "Not Implemented"), (502, "Bad Gateway"),
    (503, "Service Unavailable"), (504, "Gateway Timeout"), (505, "HTTP Version Not Supported")]

/-- `http_StatusMessage` -/
def httpStatusMessage (status : ℤ) : Str :=
  match (httpMsg.takeWhile fun m => m.1 ≤ status).find? fun m => m.1 = status with
  | none => "Unknown Error".toList
  | some m => m.2.toList

/-- The value of the digits in front. -/
def digitsValue (t : Str) : ℤ := (t.takeWhile Char.isDigit).foldl (fun n c => n * 10 + (c.toNat - 48 : ℕ)) 0

/-- `strtoul` with base ten, as an `int`, of a text without blanks. -/
def strtoulStatus : Str → ℤ
  | '+' :: t => digitsValue t
  | '-' :: t => -digitsValue t
  | t => digitsValue t

/-- `hd[HTTP_HDR_PROTO]`, `hd[HTTP_HDR_STATUS]` and `hd[HTTP_HDR_RESPONSE]`. -/
structure FirstLine where
  proto : Str
  status : Str
  response : Str
deriving DecidableEq

/-- What the backend sent as reason, or the standard one. -/
def reason (status : ℤ) (t : Str) : Str := if t = [] then httpStatusMessage status else t

/-- `http_DissectResponse`, where it returns 0: the first line and the header fields. -/
def httpDissectResponse (behind : Str) (slots : ℕ) (block : Str) : Option (FirstLine × List Str) :=
  match httpSplitline behind slots block with
  | .error _ => none
  | .ok s =>
    if "HTTP/1.".toList.isPrefixOf s.hd1 = false then none
    else if s.hd2.length ≠ 3 then none
    else if strtoulStatus s.hd2 < 100 ∨ 999 < strtoulStatus s.hd2 then none
    else some (⟨s.hd1, s.hd2, reason (strtoulStatus s.hd2) s.hd3⟩, s.hdrs.hd)

end Response

/-! ## The workspace -/

section Workspace

/-- A workspace, by its size and what is in use. -/
structure Ws where
  size : ℕ
  used : ℕ
deriving DecidableEq

/-- `WS_Alloc` -/
def Ws.alloc (ws : Ws) (bytes : ℕ) : Option Ws :=
  if ws.size < ws.used + bytes then none else some { ws with used := ws.used + bytes }

/-- A workspace with its pointers, as it is seen here. -/
def Ws.of (ws : Workspace.Ws) : Ws := ⟨ws.e - ws.s, ws.f - ws.s⟩

/-- `alloc` is the `WS_Alloc` of a workspace that is not reserved. -/
theorem Ws.alloc_of {ws : Workspace.Ws} (h : Workspace.WsAssert ws) (hr : ws.r = none) (bytes : ℕ) :
    (Ws.of ws).alloc bytes = (Workspace.wsAlloc ws bytes).bind fun r => r.2.map fun _ => Ws.of r.1 := by
  rw [Workspace.wsAlloc, if_pos ⟨h, hr⟩, Ws.alloc, Ws.of]
  obtain ⟨-, -, hlt, hsf, hfe, -⟩ := h
  by_cases hfull : ws.e < ws.f + bytes
  · rw [if_pos hfull, if_pos (by dsimp only; omega)]
    rfl
  · rw [if_neg hfull, if_neg (by dsimp only; omega)]
    have hused : ws.f - ws.s + bytes = ws.f + bytes - ws.s := by omega
    exact congrArg (fun used => some (Ws.mk (ws.e - ws.s) used)) hused

/-- The `beresp` with all its slots, the first two of which are empty. -/
def beresp (r : FirstLine) (hd : List (Option Field)) : List (Option Field) :=
  [none, none, some ⟨r.proto, false⟩, some ⟨r.status, false⟩, some ⟨r.response, false⟩] ++ hd

/-- A round of the loop of `http_EstimateWS`. -/
def estimateField (how : ℕ) (e : ℕ × ℕ) : Option Field → ℕ × ℕ
  | none => e
  | some f => if passes how f then (e.1 + (f.text.length + 1), e.2 + 1) else e

/-- `http_EstimateWS`: the bytes and the slots. -/
def httpEstimateWS (how : ℕ) (fm : List (Option Field)) : ℕ × ℕ := fm.foldl (estimateField how) (0, 5)

/-- `obj->http` with its workspace: `shd`, the slots up to `nhd`, and the headers it lost. -/
structure ObjHttp where
  ws : Ws
  shd : ℕ
  hd : List (Option Str)
  lost : List Str
deriving DecidableEq

/-- A round of the loop of `http_CopyHome`, on a text that is somewhere else. -/
def copyHomeField (o : ObjHttp) : Option Str → ObjHttp
  | none => { o with hd := o.hd ++ [none] }
  | some t =>
    match o.ws.alloc (t.length + 1) with
    | some ws => { o with ws := ws, hd := o.hd ++ [some t] }
    | none => { o with hd := o.hd ++ [none], lost := o.lost ++ [t] }

/-- `http_CopyHome` -/
def httpCopyHome (o : ObjHttp) : ObjHttp := o.hd.foldl copyHomeField { o with hd := [] }

/-- `http_PrintfHeader`, where `t` is the text that the format makes. -/
def httpPrintfHeader (o : ObjHttp) (t : Str) : ObjHttp :=
  if o.ws.size - o.ws.used ≤ t.length + 1 ∨ o.shd ≤ o.hd.length then { o with lost := o.lost ++ [t] }
  else { o with ws := { o.ws with used := o.ws.used + (t.length + 1) }, hd := o.hd ++ [some t] }

/-- `"Content-Length: %u"` -/
def contentLength (len : ℕ) : Str := "Content-Length: ".toList ++ Nat.toDigits 10 len

/-- `http_CopyResp` and `http_FilterFields` into an object with `shd` slots. -/
def filterObj (ws : Ws) (shd : ℕ) (r : FirstLine) (hd : List (Option Field)) : ObjHttp :=
  let tgt := httpFilterFields aIns ⟨shd - 5, [], []⟩ hd
  ⟨ws, shd, [none, none, some "HTTP/1.1".toList, some r.status, some r.response] ++ tgt.hd.map some, tgt.lost⟩

/-- The header that `FetchBody` makes, unless it is a `HEAD`. -/
def mklen (o : ObjHttp) : Option ℕ → ObjHttp
  | none => o
  | some len => httpPrintfHeader o (contentLength len)

/-- The copy of the `Vary` string. -/
def varyCopy (ws : Ws) : Option Str → Option Ws
  | none => some ws
  | some v => ws.alloc v.length

/-- The length of the `Vary` string. -/
def varyLen (vary : Option Str) : ℕ := vary.elim 0 List.length

/-- `cnt_fetch` from `http_EstimateWS` on, with the body's length if `FetchBody` makes a header for it; nothing if
`AN(sp->obj->vary)` fails. -/
def fetchObj (r : FirstLine) (hd : List (Option Field)) (vary : Option Str) (body : Option ℕ) : Option ObjHttp :=
  let e := httpEstimateWS aIns (beresp r hd)
  (varyCopy ⟨e.1 + varyLen vary + 30, 0⟩ vary).map fun ws => mklen (httpCopyHome (filterObj ws e.2 r hd)) body

/-- The object is made, and no header is lost. -/
def Made (r : FirstLine) (hd : List (Option Field)) (vary : Option Str) (body : Option ℕ) : Prop :=
  ∃ o, fetchObj r hd vary body = some o ∧ o.lost = []

end Workspace

/-! ## What the loops add up to -/

section Sums

variable {how : ℕ}

/-- The bytes of some texts with their NULs. -/
def textsLen (ts : List Str) : ℕ := (ts.map fun t => t.length + 1).sum

theorem passed_cons (f : Field) (fm : List (Option Field)) :
    passed how (some f :: fm) = if passes how f then f.text :: passed how fm else passed how fm := by
  unfold passed
  rw [List.reduceOption_cons_of_some]
  split
  next hp => rw [List.filterMap_cons_some (by rw [if_pos hp])]
  next hp => rw [List.filterMap_cons_none (by rw [if_neg hp])]

theorem foldl_estimate (fm : List (Option Field)) (e : ℕ × ℕ) :
    fm.foldl (estimateField how) e = (e.1 + textsLen (passed how fm), e.2 + (passed how fm).length) := by
  induction fm generalizing e with
  | nil => rfl
  | cons f fm ih =>
    rw [List.foldl_cons, ih]
    cases f with
    | none => rfl
    | some f =>
      rw [passed_cons, estimateField]
      split
      · simp [textsLen]
        omega
      · rfl

/-- What fits is copied. -/
theorem foldl_copyHome (l : List (Option Str)) (o : ObjHttp) (h : o.ws.used + textsLen l.reduceOption ≤ o.ws.size) :
    l.foldl copyHomeField o =
      { o with ws := { o.ws with used := o.ws.used + textsLen l.reduceOption }, hd := o.hd ++ l } := by
  induction l generalizing o with
  | nil => simp [textsLen]
  | cons t l ih =>
    rw [List.foldl_cons]
    cases t with
    | none =>
      rw [copyHomeField, ih { o with hd := o.hd ++ [none] } h, List.reduceOption_cons_of_none]
      simp
    | some t =>
      rw [List.reduceOption_cons_of_some] at h
      have hsum : textsLen (t :: l.reduceOption) = (t.length + 1) + textsLen l.reduceOption := by simp [textsLen]
      rw [hsum] at h
      have hal : o.ws.alloc (t.length + 1) = some { o.ws with used := o.ws.used + (t.length + 1) } :=
        if_neg (by omega)
      have hstep : copyHomeField o (some t) =
          { o with ws := { o.ws with used := o.ws.used + (t.length + 1) }, hd := o.hd ++ [some t] } := by
        rw [copyHomeField, hal]
      rw [hstep, ih _ (by dsimp only; omega), List.reduceOption_cons_of_some, hsum]
      simp [Nat.add_assoc]

/-- If nothing is lost, it fits. -/
theorem foldl_copyHome_lost (l : List (Option Str)) (o : ObjHttp) (h : (l.foldl copyHomeField o).lost = []) :
    o.lost = [] ∧ (o.ws.used ≤ o.ws.size → o.ws.used + textsLen l.reduceOption ≤ o.ws.size) := by
  induction l generalizing o with
  | nil => exact ⟨h, id⟩
  | cons t l ih =>
    rw [List.foldl_cons] at h
    cases t with
    | none => exact ih { o with hd := o.hd ++ [none] } h
    | some t =>
      rw [List.reduceOption_cons_of_some]
      have hsum : textsLen (t :: l.reduceOption) = (t.length + 1) + textsLen l.reduceOption := by simp [textsLen]
      rw [hsum]
      by_cases hfit : o.ws.size < o.ws.used + (t.length + 1)
      · have hal : o.ws.alloc (t.length + 1) = none := if_pos hfit
        have hstep : copyHomeField o (some t) = { o with hd := o.hd ++ [none], lost := o.lost ++ [t] } := by
          rw [copyHomeField, hal]
        rw [hstep] at h
        have hlost := (ih _ h).1
        simp at hlost
      · have hal : o.ws.alloc (t.length + 1) = some { o.ws with used := o.ws.used + (t.length + 1) } := if_neg hfit
        have hstep : copyHomeField o (some t) =
            { o with ws := { o.ws with used := o.ws.used + (t.length + 1) }, hd := o.hd ++ [some t] } := by
          rw [copyHomeField, hal]
        rw [hstep] at h
        obtain ⟨hlost, hle⟩ := ih _ h
        refine ⟨hlost, ?_⟩
        intro _
        have hle' := hle (by dsimp only; omega)
        dsimp only at hle'
        omega

/-- The bytes that have to be free for the length of the body. -/
def bodyNeed (body : Option ℕ) : ℕ := body.elim 0 fun len => (contentLength len).length + 2

theorem mklen_lost (o : ObjHttp) (body : Option ℕ) : (mklen o body).lost = [] ↔
    o.lost = [] ∧ bodyNeed body ≤ o.ws.size - o.ws.used ∧ (body.isSome → o.hd.length < o.shd) := by
  cases body with
  | none => simp [mklen, bodyNeed]
  | some len =>
    unfold mklen httpPrintfHeader
    simp only [bodyNeed, Option.elim_some]
    split
    · simp
      omega
    · simp
      omega

end Sums

/-! ## The estimate is enough -/

section Estimate

variable {r : FirstLine} {hd : List (Option Field)} {vary : Option Str} {body : Option ℕ}

/-- The texts of the first line that `http_EstimateWS` counts. -/
def countedLine (r : FirstLine) : List Str := [r.proto, r.status, r.response].filter fun t => !excluded aIns t

theorem passed_texts {how : ℕ} (ts : List Str) (fm : List (Option Field)) :
    passed how ((ts.map fun t => some ⟨t, false⟩) ++ fm) = ts.filter (fun t => !excluded how t) ++ passed how fm := by
  induction ts with
  | nil => rfl
  | cons t ts ih =>
    rw [List.map_cons, List.cons_append, passed_cons, ih]
    unfold passes
    cases hx : excluded how t with
    | false => simp [hx]
    | true => simp [hx]

theorem passed_beresp (r : FirstLine) (hd : List (Option Field)) :
    passed aIns (beresp r hd) = countedLine r ++ passed aIns hd :=
  passed_texts [r.proto, r.status, r.response] hd

theorem estimate_beresp (r : FirstLine) (hd : List (Option Field)) : httpEstimateWS aIns (beresp r hd) =
    (textsLen (countedLine r) + textsLen (passed aIns hd), 5 + (countedLine r).length + (passed aIns hd).length) := by
  unfold httpEstimateWS
  rw [foldl_estimate, passed_beresp]
  simp [textsLen]
  omega

theorem filterObj_eq (ws : Ws) (r : FirstLine) (hd : List (Option Field)) (n : ℕ) :
    filterObj ws (5 + n + (passed aIns hd).length) r hd =
      ⟨ws, 5 + n + (passed aIns hd).length,
        [none, none, some "HTTP/1.1".toList, some r.status, some r.response] ++ (passed aIns hd).map some, []⟩ := by
  have hle : (passed aIns hd).length ≤ 5 + n + (passed aIns hd).length - 5 := by omega
  unfold filterObj
  rw [httpFilterFields_eq]
  dsimp only
  rw [List.take_of_length_le hle, List.drop_of_length_le hle]
  rfl

theorem textsLen_first (r : FirstLine) (ts : List Str) :
    textsLen ([none, none, some "HTTP/1.1".toList, some r.status, some r.response] ++ ts.map some).reduceOption =
      9 + (r.status.length + 1) + (r.response.length + 1) + textsLen ts := by
  have hts : (ts.map some).reduceOption = ts := by simp [List.reduceOption]
  rw [List.reduceOption_append, hts]
  show textsLen ("HTTP/1.1".toList :: r.status :: r.response :: ts) = _
  unfold textsLen
  rw [List.map_cons, List.map_cons, List.map_cons, List.sum_cons, List.sum_cons, List.sum_cons]
  rw [show "HTTP/1.1".toList.length = 8 from by decide]
  omega

/-- Nothing is lost, exactly if what is counted for the first line and the 30 spare bytes hold what is made of them. -/
theorem fetchObj_iff : Made r hd vary body ↔
    9 + (r.status.length + 1) + (r.response.length + 1) + bodyNeed body ≤ textsLen (countedLine r) + 30 ∧
      (body.isSome → countedLine r ≠ []) := by
  have hvary : ∀ n, varyCopy ⟨n + varyLen vary + 30, 0⟩ vary = some ⟨n + varyLen vary + 30, varyLen vary⟩ := by
    intro n
    cases vary with
    | none => rfl
    | some v =>
      show (if _ < _ then none else _) = _
      rw [if_neg (by simp [varyLen]; omega)]
      simp [varyLen]
  have hline := textsLen_first r (passed aIns hd)
  unfold Made fetchObj
  rw [estimate_beresp]
  dsimp only
  rw [hvary]
  simp only [Option.map_some, Option.some.injEq, exists_eq_left', mklen_lost, filterObj_eq]
  unfold httpCopyHome
  dsimp only
  constructor
  · rintro ⟨hlost, hrest⟩
    have hfit := (foldl_copyHome_lost _ _ hlost).2 (by dsimp only; omega)
    rw [foldl_copyHome _ _ hfit] at hrest
    dsimp only at hrest hfit
    rw [hline] at hrest hfit
    refine ⟨by omega, ?_⟩
    intro hb hnil
    have hlt := hrest.2 hb
    simp [hnil] at hlt
    omega
  · rintro ⟨hle, hne⟩
    rw [foldl_copyHome _ _ (by dsimp only; rw [hline]; omega)]
    dsimp only
    rw [hline]
    refine ⟨rfl, by omega, ?_⟩
    intro hb
    have hpos := List.length_pos_iff.2 (hne hb)
    simp
    omega

end Estimate

/-! ## Accepted responses -/

section Accepted

variable {behind block : Str} {slots : ℕ} {r : FirstLine} {hs : List Str} {hd : List (Option Field)}

/-- The names that `HTTPH_A_INS` excludes begin with one of these letters. -/
theorem excluded_head {b : Str} (h : excluded aIns b = true) :
    ∃ c t, b = c :: t ∧ c.toLower ∈ ['a', 'c', 'p', 'r', 't', 'u'] := by
  have htable : (httpHeaders.all fun h => h.2 &&& aIns = 0 ||
      (h.1.toList ++ [':']).head?.any fun c => decide (c.toLower ∈ ['a', 'c', 'p', 'r', 't', 'u'])) = true := by
    decide +kernel
  obtain ⟨row, hrow, hmatch⟩ := List.any_eq_true.1 h
  have hhead := List.all_eq_true.1 htable row hrow
  simp only [Bool.and_eq_true, decide_eq_true_eq, Bool.or_eq_true, httpIsHdr] at hmatch hhead
  obtain ⟨hflag, htake⟩ := hmatch
  have hany := hhead.resolve_left hflag
  cases hn : row.1.toList ++ [':'] with
  | nil => simp [hn] at hany
  | cons n ns =>
    rw [hn] at htake hany
    cases b with
    | nil => simp at htake
    | cons c t =>
      have hc : c.toLower = n.toLower := by
        simp only [List.length_cons, List.take_succ_cons, List.map_cons, List.cons.injEq] at htake
        exact htake.1
      exact ⟨c, t, rfl, by rw [hc]; simpa using hany⟩

theorem toLower_of_isDigit {c : Char} (h : c.isDigit = true) : c.toLower = c := by
  unfold Char.toLower
  unfold Char.isDigit at h
  rw [Bool.and_eq_true, decide_eq_true_eq, decide_eq_true_eq] at h
  apply dif_neg
  rintro ⟨hA, -⟩
  have h1 : c.val ≤ (57 : UInt32) := h.2
  have h2 : (65 : UInt32) ≤ c.val := hA
  rw [UInt32.le_iff_toNat_le] at h1 h2
  simp at h1 h2
  omega

/-- The status is counted: it begins with a digit. -/
theorem status_counted {t : Str} (h : 100 ≤ strtoulStatus t) : excluded aIns t = false := by
  by_contra hx
  obtain ⟨c, t', rfl, hc⟩ := excluded_head (by simpa using hx)
  by_cases hd : c.isDigit = true
  · rw [toLower_of_isDigit hd] at hc
    simp only [List.mem_cons, List.not_mem_nil, or_false] at hc
    rcases hc with rfl | rfl | rfl | rfl | rfl | rfl <;> exact absurd hd (by decide)
  · have hp : c ≠ '+' := by
      rintro rfl
      exact absurd hc (by decide)
    have hm : c ≠ '-' := by
      rintro rfl
      exact absurd hc (by decide)
    have hz : strtoulStatus (c :: t') = 0 := by
      unfold strtoulStatus
      split
      next heq => exact absurd (List.cons.inj heq).1 hp
      next heq => exact absurd (List.cons.inj heq).1 hm
      next => simp [digitsValue, hd]
    omega

theorem proto_counted {t : Str} (h : "HTTP/1.".toList.isPrefixOf t = true) : excluded aIns t = false ∧ 7 ≤ t.length := by
  obtain ⟨rest, rfl⟩ := List.isPrefixOf_iff_prefix.1 h
  constructor
  · by_contra hx
    obtain ⟨c, t', ht, hc⟩ := excluded_head (by simpa using hx)
    obtain rfl : 'H' = c := (List.cons.inj ht).1
    exact absurd hc (by decide)
  · rw [List.length_append]
    exact Nat.le_add_right 7 _

/-- What `http_DissectResponse` promises of the first line. -/
theorem dissectResponse_spec (h : httpDissectResponse behind slots block = some (r, hs)) :
    (excluded aIns r.proto = false ∧ 7 ≤ r.proto.length) ∧ excluded aIns r.status = false ∧ r.status.length = 3 := by
  unfold httpDissectResponse at h
  split at h
  next => simp at h
  next s hsplit =>
    split at h
    next => simp at h
    next hp =>
      split at h
      next => simp at h
      next hlen =>
        split at h
        next => simp at h
        next hst =>
          simp only [Option.some.injEq, Prod.mk.injEq] at h
          obtain ⟨rfl, -⟩ := h
          refine ⟨proto_counted (by simpa using hp), status_counted ?_, by simpa using hlen⟩
          show 100 ≤ strtoulStatus s.hd2
          omega

theorem bodyNeed_le {body : Option ℕ} (h : ∀ len ∈ body, len < 2 ^ 32) : bodyNeed body ≤ 28 := by
  cases body with
  | none => exact Nat.zero_le _
  | some len =>
    have hlen : (Nat.toDigits 10 len).length ≤ 10 :=
      (Nat.length_toDigits_le_iff (by decide) (by decide)).2 (lt_of_lt_of_le (h len rfl) (by decide))
    show ("Content-Length: ".toList ++ Nat.toDigits 10 len).length + 2 ≤ 28
    rw [List.length_append, show "Content-Length: ".toList.length = 16 from by decide]
    omega

/-- The workspace of an object is large enough for an accepted response, unless its reason phrase looks like a header
that `HTTPH_A_INS` excludes, and is then too long. -/
theorem made_iff (h : httpDissectResponse behind slots block = some (r, hs)) (hd : List (Option Field))
    (vary : Option Str) (body : Option ℕ) (hbody : ∀ len ∈ body, len < 2 ^ 32) :
    Made r hd vary body ↔
      (excluded aIns r.response = true → r.response.length + bodyNeed body ≤ r.proto.length + 21) := by
  obtain ⟨⟨hproto, hplen⟩, hstatus, hslen⟩ := dissectResponse_spec h
  have hneed := bodyNeed_le hbody
  rw [fetchObj_iff]
  cases hx : excluded aIns r.response with
  | false =>
    have hline : countedLine r = [r.proto, r.status, r.response] := by simp [countedLine, hproto, hstatus, hx]
    rw [hline]
    simp [textsLen]
    omega
  | true =>
    have hline : countedLine r = [r.proto, r.status] := by simp [countedLine, hproto, hstatus, hx]
    rw [hline]
    simp [textsLen]
    omega

/-- `HTTP/1.1 200 OK` -/
def okBlock : Str := "HTTP/1.1 200 OK\r\nServer: a\r\n\r\n".toList

theorem made_iff_ok : Made ⟨"HTTP/1.1".toList, "200".toList, "OK".toList⟩ [some ⟨"Server: a".toList, false⟩] none (some 5) :=
  (made_iff (by decide +kernel : httpDissectResponse [] 64 okBlock =
    some (⟨"HTTP/1.1".toList, "200".toList, "OK".toList⟩, ["Server: a".toList])) _ none (some 5) (by simp)).2
    (fun h => absurd h (by decide +kernel))

/-- A reason phrase that looks like an `Age` header. -/
def ageBlock : Str := "HTTP/1.1 200 Age: 1234567\r\nServer: a\r\n\r\n".toList

/-- The length of the body is lost. -/
theorem made_not_age :
    httpDissectResponse [] 64 ageBlock =
      some (⟨"HTTP/1.1".toList, "200".toList, "Age: 1234567".toList⟩, ["Server: a".toList]) ∧
    (fetchObj ⟨"HTTP/1.1".toList, "200".toList, "Age: 1234567".toList⟩ [some ⟨"Server: a".toList, false⟩] none
      (some 5)).map ObjHttp.lost = some ["Content-Length: 5".toList] := by
  decide +kernel

end Accepted

end Varnish.Http
