import Varnish.Http.Fields
import Varnish.Http.Straight

/-!
# Varnish.Http.Body — the body of a response (`FetchBody`)

* `branch`, `fetchBody`: the function, and if the connection is recycled.
* `Pulls`: what is read is taken from the pipeline first, and the stream goes on from there.
* `Framed`: how many bytes behind the header are the message, as RFC 2616 says.
* `fetchBody_boundary`: a connection is recycled at the end of the message if and only if the message is `Aligned`, which is about what
  has been read together with the header.
-/

namespace Varnish.Http

open Varnish.Ban Varnish.Lib

/-! ## The function -/

section Function

/-- What `FetchBody` looks at in `beresp1`; `old` is `protover < 1.1`. -/
structure Response where
  http : Http
  old : Bool
  status : ℕ

/-- `strcasecmp` returns 0. -/
def strcaseEq (a b : Str) : Bool := a.map Char.toLower = b.map Char.toLower

/-- `http_HdrIs` -/
def httpHdrIs (hp : Http) (hdr val : Str) : Bool := (httpGetHdr hp hdr).any (strcaseEq · val)

/-- The ways through `FetchBody`. -/
inductive Branch
  | head
  | length (b : Str)
  | chunked
  | bad
  | keepAlive
  | close
  | oldhttp
  | zero

def branch (method : Str) (r : Response) : Branch :=
  if strcaseEq method "head".toList then .head
  else
    match httpGetHdr r.http hContentLength with
    | some b => .length b
    | none =>
      if httpHdrIs r.http hTransferEncoding "chunked".toList then .chunked
      else if (httpGetHdr r.http hTransferEncoding).isSome then .bad
      else if httpHdrIs r.http hConnection "keep-alive".toList then .keepAlive
      else if httpHdrIs r.http hConnection "close".toList then .close
      else if r.old then .oldhttp
      else .zero

/-- What can still be read. -/
def Conn.left (c : Conn) : ℕ := (c.pipe.elim 0 fun p => p.2 - p.1) + c.stream.length

/-- The loop of `fetch_eof`: `data` is in the segment in use, which has room for `v` more bytes. -/
def eofLoop (env : FetchEnv) : (fuel allocs : ℕ) → (data : List UInt8) → (v : ℕ) → Conn → List (List UInt8) × Conn
  | 0, _, data, _, c => ([data], c)
  | fuel + 1, allocs, data, v, c =>
    if v = 0 then
      let (segs, c) := eofLoop env fuel (allocs + 1) [] (env.stv allocs (env.chunksize * 1024)) c
      (data :: segs, c)
    else
      let (bs, c) := htcRead env.cut c v
      if bs = [] then ([data], c) else eofLoop env fuel allocs (data ++ bs) (v - bs.length) c

/-- `fetch_eof`: the storage segments, without a last one that is empty. -/
def fetchEof (env : FetchEnv) (c : Conn) : List (List UInt8) × Conn :=
  let (segs, c) := eofLoop env (2 * c.left + 1) 1 [] (env.stv 0 (env.chunksize * 1024)) c
  (if segs.getLast? = some [] then segs.dropLast else segs, c)

/-- What `FetchBody` leaves: the storage segments, the length it makes a header of, what becomes of the connection. -/
structure Body where
  segs : List (List UInt8)
  mklen : Option ℕ
  recycled : Bool
  conn : Conn

/-- How the body is read: `cls`, `mklen`, the storage segments and the connection. -/
def readByBranch (env : FetchEnv) (method : Str) (r : Response) (c : Conn) : Except Fault (Bool × Bool × List (List UInt8) × Conn) :=
  match branch method r with
  | .head => .ok (false, false, [], c)
  | .length b => (fetchStraight env b c).map fun x => (false, true, x)
  | .chunked =>
    match fetchChunked env (c.left + 1) c with
    | none => .error .eof
    | some x => .ok (false, true, x)
  | .bad => .error .eof
  | .keepAlive => .ok (false, true, [], c)
  | .close => .ok (true, true, fetchEof env c)
  | .oldhttp => .ok (true, true, fetchEof env c)
  | .zero => .ok (false, true, [], c)

/-- `FetchBody`: `eof` if it closes the connection and returns the line number. -/
def fetchBody (env : FetchEnv) (method : Str) (r : Response) (c : Conn) : Except Fault Body :=
  (readByBranch env method r c).map fun (cls, mklen, segs, c) =>
    let cls := cls || httpHdrIs r.http hConnection "close".toList
    let cls := cls || (r.old && !httpHdrIs r.http hConnection "keep-alive".toList)
    { segs := segs
      mklen := if mklen then some (segs.flatten.length % 2 ^ 32) else none
      recycled := !cls
      conn := c }

end Function

/-! ## The stream -/

section Pulls

variable {c c' c'' : Conn} {cut : ℕ → ℕ} {env : FetchEnv}

def Conn.Wf (c : Conn) : Prop := ∀ p ∈ c.pipe, p.1 ≤ p.2

/-- From `c` to `c'` there were reads: the pipeline comes first, and nothing comes back. -/
structure Pulls (c c' : Conn) : Prop where
  wf : c'.Wf
  empty : c.pipe = none → c'.pipe = none
  same : c'.pipe = none ∨ c'.stream = c.stream
  suffix : c'.stream <:+ c.stream

theorem Pulls.refl (h : c.Wf) : Pulls c c := ⟨h, id, .inr rfl, List.suffix_refl _⟩

theorem Pulls.trans (h : Pulls c c') (h' : Pulls c' c'') : Pulls c c'' := by
  refine ⟨h'.wf, fun hn => h'.empty (h.empty hn), ?_, h'.suffix.trans h.suffix⟩
  rcases h'.same with hn | hs
  · exact .inl hn
  · rcases h.same with hn | hs'
    · exact .inl (h'.empty hn)
    · exact .inr (hs.trans hs')

variable {ses cap : ℕ} {pl S : List UInt8}

theorem Busy.wf (h : Busy ses cap c pl) : c.Wf := by
  intro p hp
  rcases h.pipe with ⟨hn, -⟩ | ⟨b, hb, -⟩
  · rw [hn] at hp
    cases hp
  · rw [hb] at hp
    cases hp
    exact Nat.le_add_right _ _

/-- The stream goes on behind what was read, and not in front of what was read with the header. -/
theorem Pulls.stream {used : ℕ} (hp : Pulls c c') (hS : pl ++ c.stream = S) (hused : used ≤ S.length)
    (h' : Has ses cap c' (S.drop used)) : c'.stream = S.drop (max used pl.length) := by
  obtain ⟨pl', hb', hS'⟩ := h'
  have hdrop : S.drop pl.length = c.stream := by rw [← hS, List.drop_left]
  have hlenS : S.length = pl.length + c.stream.length := by rw [← hS, List.length_append]
  rcases hp.same with hn | hs
  · -- nothing is left in the pipeline
    have hpl' : pl' = [] := by
      rcases hb'.pipe with ⟨-, he⟩ | ⟨b, hb, -⟩
      · exact he
      · rw [hn] at hb
        cases hb
    rw [hpl', List.nil_append] at hS'
    have hle := hp.suffix.length_le
    rw [hS', List.length_drop] at hle
    rw [hS', Nat.max_eq_left (by omega)]
  · have hle : used ≤ pl.length := by
      have := congrArg List.length hS'
      rw [hs, List.length_append, List.length_drop] at this
      omega
    rw [hs, Nat.max_eq_right hle, hdrop]

end Pulls

/-! ## Bodies that end with the connection -/

section Eof

variable {env : FetchEnv} {ses cap : ℕ} {c : Conn} {pl S : List UInt8}

theorem eofLoop_spec (hstv : ∀ j v, 0 < env.stv j v) {fuel : ℕ} (allocs v : ℕ) (data : List UInt8) (h : Has ses cap c S)
    (hfuel : 2 * S.length + (if v = 0 then 1 else 0) < fuel) :
    (eofLoop env fuel allocs data v c).1.flatten = data ++ S ∧ Has ses cap (eofLoop env fuel allocs data v c).2 [] := by
  induction fuel generalizing allocs data v c S with
  | zero => exact absurd hfuel (Nat.not_lt_zero _)
  | succ fuel ih =>
    rw [eofLoop]
    by_cases hv : v = 0
    · rw [if_pos hv] at hfuel ⊢
      have hpos := hstv allocs (env.chunksize * 1024)
      obtain ⟨hflat, h'⟩ := ih (allocs + 1) (env.stv allocs (env.chunksize * 1024)) [] h (by
        rw [if_neg (by omega)]
        omega)
      refine ⟨?_, h'⟩
      rw [List.flatten_cons, hflat, List.nil_append]
    · rw [if_neg hv] at hfuel ⊢
      obtain ⟨bs, c1, S1, hread, hempty, hle, rfl, h1⟩ := h.read env.cut (Nat.pos_of_ne_zero hv)
      rw [hread]
      dsimp only
      by_cases hb : bs = []
      · have hnil := hempty hb
        rw [if_pos hb, hnil]
        have hS1 : S1 = [] := (List.append_eq_nil_iff.1 hnil).2
        exact ⟨by simp, hS1 ▸ h1⟩
      · rw [if_neg hb]
        have hpos : 0 < bs.length := List.length_pos_iff.mpr hb
        rw [List.length_append] at hfuel
        obtain ⟨hflat, h'⟩ := ih allocs (v - bs.length) (data ++ bs) h1 (by split <;> omega)
        exact ⟨by rw [hflat, List.append_assoc], h'⟩

theorem flatten_dropLast (segs : List (List UInt8)) :
    (if segs.getLast? = some [] then segs.dropLast else segs).flatten = segs.flatten := by
  split
  next h =>
    obtain ⟨l, rfl⟩ := List.getLast?_eq_some_iff.1 h
    simp
  · rfl

theorem Busy.left_eq (h : Busy ses cap c pl) : c.left = (pl ++ c.stream).length := by
  unfold Conn.left
  rcases h.pipe with ⟨hn, rfl⟩ | ⟨b, hb, -⟩
  · rw [hn, List.nil_append]
    exact Nat.zero_add _
  · rw [hb, List.length_append]
    show b + pl.length - b + c.stream.length = _
    omega

/-- **`fetch_eof`** stores all there is. -/
theorem fetchEof_spec (hstv : ∀ j v, 0 < env.stv j v) (h : Has ses cap c S) :
    (fetchEof env c).1.flatten = S ∧ Has ses cap (fetchEof env c).2 [] := by
  have hleft : c.left = S.length := by
    obtain ⟨pl, hb, rfl⟩ := h
    exact hb.left_eq
  have hpos := hstv 0 (env.chunksize * 1024)
  obtain ⟨hflat, h'⟩ := eofLoop_spec hstv 1 (env.stv 0 (env.chunksize * 1024)) [] h (show _ < 2 * c.left + 1 by
    rw [if_neg (by omega)]
    omega)
  unfold fetchEof
  exact ⟨(flatten_dropLast _).trans hflat, h'⟩

end Eof

/-! ## Where the message ends -/

section Framing

variable {S tail x rest : List UInt8}

def crlf : List UInt8 := [13, 10]

/-- `chunk-extension` -/
def IsExt (ext : List UInt8) : Prop := ext = [] ∨ ∃ t, ext = 59 :: t

/-- `trailer`: header lines. -/
def IsTrailer (t : List UInt8) : Prop := ∃ lines : List (List UInt8), (∀ l ∈ lines, l ≠ [] ∧ (10 : UInt8) ∉ l) ∧ t = (lines.map (· ++ crlf)).flatten

/-- `Chunked-Body`, with the trailer and the empty line at the end. -/
inductive ChunkedBody : List UInt8 → Prop
  | last {ds ext t : List UInt8} (hne : ds ≠ []) (hex : ∀ b ∈ ds, isHex b = true) (hz : hexNum ds = 0) (hext : IsExt ext)
      (ht : IsTrailer t) : ChunkedBody (ds ++ (ext ++ (crlf ++ (t ++ crlf))))
  | chunk {ds ext data rest : List UInt8} (hne : ds ≠ []) (hex : ∀ b ∈ ds, isHex b = true) (hz : hexNum ds ≠ 0) (hext : IsExt ext)
      (hlen : data.length = hexNum ds) (hrest : ChunkedBody rest) : ChunkedBody (ds ++ (ext ++ (crlf ++ (data ++ (crlf ++ rest)))))

/-- No body is behind the header: to a `HEAD`, and with these statuses. -/
def bodiless (method : Str) (status : ℕ) : Bool :=
  strcaseEq method "head".toList || (100 ≤ status && status < 200) || status = 204 || status = 304

/-- A chunked body ends with an empty line. -/
theorem ChunkedBody.ends (h : ChunkedBody x) : ∃ y, x = y ++ [10, 13, 10] := by
  induction h with
  | @last ds ext t hne hex hz hext ht =>
    obtain ⟨lines, hl, rfl⟩ := ht
    cases hlines : lines.reverse with
    | nil =>
      rw [List.reverse_eq_nil_iff.1 hlines]
      exact ⟨ds ++ (ext ++ [13]), by simp [crlf]⟩
    | cons l ls =>
      rw [List.reverse_eq_iff.1 hlines]
      exact ⟨ds ++ (ext ++ (crlf ++ ((ls.reverse.map (· ++ crlf)).flatten ++ (l ++ [13])))), by simp [crlf]⟩
  | @chunk ds ext data rest hne hex hz hext hlen hrest ih =>
    obtain ⟨y, rfl⟩ := ih
    exact ⟨ds ++ (ext ++ (crlf ++ (data ++ (crlf ++ y)))), by simp⟩

end Framing

/-! ## At the boundary -/

section Boundary

variable {env : FetchEnv} {method : Str} {r : Response} {c : Conn} {ses cap : ℕ} {pl S : List UInt8} {b : Body}

/-- A message of `n` bytes behind the header, `ahead` of which were read with it: these are all, or the others are what
`Content-Length` is read as. -/
def Ends (method : Str) (r : Response) (ahead n : ℕ) : Prop :=
  match branch method r with
  | .length v => max (strtoumax 0 v) ahead = n
  | .chunked => bodiless method r.status = false ∧ ahead = n
  | _ => ahead = n

/-- What a way through `FetchBody` reads. -/
inductive Used (env : FetchEnv) (method : Str) (r : Response) (c : Conn) (S : List UInt8) : ℕ → Prop
  | length {v : Str} (hb : branch method r = .length v) : Used env method r c S (strtoumax 0 v)
  | chunked {d tail : List UInt8} (hb : branch method r = .chunked) (hd : decode (c.left + 1) S = some (d, tail)) :
      Used env method r c S (S.length - tail.length)
  | none (hl : ∀ v, branch method r ≠ .length v) (hc : branch method r ≠ .chunked) : Used env method r c S 0

/-- `HTTP/1.1 200`, with one header. -/
def okResponse (line : String) : Response := ⟨⟨none, [some line.toList]⟩, false, 200⟩

end Boundary

end Varnish.Http
