import Mathlib.Control.Monad.Basic
import Varnish.Http.Delimit
import Varnish.Lib.Bytes

/-!
# Varnish.Http.Conn — receiving requests (`cache_httpconn.c`)

* `Conn`: the connection and its workspace, `htcInit`, `htcReinit`, `htcComplete`, `htcRx`, `htcRead`: the functions.
* `serve`: a session that receives one request after the other and reads their bodies.  How much each `read` gets, how much of a
  body is asked for at once and what is allocated from the workspace meanwhile is given by a `Plan`.
* `serve_eq`: the requests are received as they were sent, for every plan.
-/

namespace Varnish.Http

open Varnish.Ban Varnish.Lib

/-! ## The functions -/

section Functions

/-- `struct http_conn` and its workspace: addresses count from `ws->s`.  `stream` is what is still to be read, `reads` the number of
calls of `read`. -/
structure Conn where
  mem : Mem
  size : ℕ
  f : ℕ
  r : Option ℕ
  rxb : ℕ
  rxe : ℕ
  pipe : Option (ℕ × ℕ)
  stream : List UInt8
  reads : ℕ

/-- What goes wrong: an assertion fails, the buffer is full, nothing can be read, or a NUL is written outside of what is reserved. -/
inductive Fault
  | assertion
  | overflow
  | eof
  | nul
deriving DecidableEq

/-- `read` of at most `len` bytes. -/
def Conn.read (cut : ℕ → ℕ) (c : Conn) (len : ℕ) : List UInt8 × Conn :=
  (c.stream.take (min (cut c.reads + 1) len), { c with
    stream := c.stream.drop (min (cut c.reads + 1) len)
    reads := c.reads + 1 })

/-- `WS_Reserve` of half the workspace. -/
def wsReserve (c : Conn) : Except Fault Conn :=
  let bytes := if c.size / 2 = 0 then c.size - c.f else c.size / 2
  if c.r ≠ none ∨ c.size < c.f + bytes then .error .assertion else .ok { c with r := some (c.f + bytes) }

/-- `WS_ReleaseP` -/
def wsReleaseP (c : Conn) (ptr : ℕ) : Except Fault Conn :=
  match c.r with
  | none => .error .assertion
  | some r => if ptr < c.f ∨ r < ptr then .error .assertion else .ok { c with f := ptr, r := none }

/-- `WS_Reset` -/
def wsReset (c : Conn) (p : ℕ) : Except Fault Conn :=
  if c.r ≠ none ∨ c.size ≤ p then .error .assertion else .ok { c with f := p }

/-- `WS_Alloc`, and what is stored there. -/
def wsAlloc (c : Conn) (bs : List UInt8) : Except Fault Conn :=
  if c.r ≠ none then .error .assertion
  else if c.size < c.f + bs.length then .ok c
  else .ok { c with mem := wr c.mem c.f bs, f := c.f + bs.length }

/-- `*htc->rxbuf.e = '\0'` -/
def putNul (c : Conn) : Except Fault Conn :=
  match c.r with
  | none => .error .nul
  | some r => if c.rxe < r then .ok { c with mem := wr c.mem c.rxe [0] } else .error .nul

/-- What is in `rxbuf`. -/
def Conn.rxbuf (c : Conn) : List UInt8 := rd c.mem c.rxb (c.rxe - c.rxb)

/-- `HTC_Complete` -/
def htcComplete (c : Conn) : Except Fault (Bool × Conn) :=
  if c.mem c.rxe ≠ 0 then .error .assertion
  else
    let (i, t) := htcHeaderComplete (chars c.rxbuf)
    if i = 0 then
      if t = [] then (putNul { c with rxe := c.rxb }).map (false, ·) else .ok (false, c)
    else
      (wsReleaseP c c.rxe).map fun c =>
        (true, if c.rxb + i < c.rxe then { c with pipe := some (c.rxb + i, c.rxe), rxe := c.rxb + i } else c)

/-- `HTC_Init` -/
def htcInit (c : Conn) : Except Fault Conn := do
  let c ← wsReserve c
  putNul { c with rxb := c.f, rxe := c.f, pipe := none }

/-- The pipeline is moved to the buffer. -/
def recycle (c : Conn) : Conn :=
  match c.pipe with
  | none => { c with rxb := c.f, rxe := c.f }
  | some (b, e) => { c with
    mem := wr c.mem c.f (rd c.mem b (e - b))
    rxb := c.f
    rxe := c.f + (e - b)
    pipe := none }

/-- `HTC_Reinit` -/
def htcReinit (c : Conn) : Except Fault (Bool × Conn) := do
  let c ← wsReserve c
  let c ← putNul (recycle c)
  htcComplete c

/-- `HTC_Rx` -/
def htcRx (cut : ℕ → ℕ) (c : Conn) : Except Fault (Bool × Conn) :=
  match c.r with
  | none => .error .assertion
  | some r =>
    if r ≤ c.rxe + 1 then .error .overflow
    else
      let (bs, c) := c.read cut (r - c.rxe - 1)
      if bs = [] then .error .eof
      else do
        let c ← putNul { c with mem := wr c.mem c.rxe bs, rxe := c.rxe + bs.length }
        htcComplete c

/-- What `HTC_Read` has of the pipeline. -/
def pipeRead (c : Conn) (len : ℕ) : List UInt8 × Conn :=
  match c.pipe with
  | none => ([], c)
  | some (b, e) =>
    let l := min (e - b) len
    (rd c.mem b l, { c with pipe := if b + l = e then none else some (b + l, e) })

/-- `HTC_Read` -/
def htcRead (cut : ℕ → ℕ) (c : Conn) (len : ℕ) : List UInt8 × Conn :=
  let (got, c) := pipeRead c len
  if len - got.length = 0 then (got, c)
  else
    let (bs, c) := c.read cut (len - got.length)
    (got ++ bs, c)

end Functions

/-! ## A session -/

section Session

/-- What is not decided by the functions, by the number of calls of `read` so far: how much the next `read` gets and the next
`HTC_Read` is asked for, less one, if `HTC_Complete` is called in front of `HTC_Rx` as `cnt_wait` does, and what is stored in the
workspace while a request is served. -/
structure Plan where
  cut : ℕ → ℕ
  want : ℕ → ℕ
  look : ℕ → Bool
  work : ℕ → List (List UInt8)

/-- `HTC_Complete`, if it is called. -/
def lookAgain (p : Plan) (c : Conn) : Except Fault (Bool × Conn) := if p.look c.reads then htcComplete c else .ok (false, c)

/-- `HTC_Rx` until the header is complete. -/
def receive (p : Plan) : (fuel : ℕ) → Conn → Except Fault Conn
  | 0, _ => .error .eof
  | fuel + 1, c => do
    let (done, c) ← lookAgain p c
    if done then .ok c
    else
      let (done, c) ← htcRx p.cut c
      if done then .ok c else receive p fuel c

/-- `HTC_Read` until the body is complete. -/
def readBody (p : Plan) : (fuel rem : ℕ) → Conn → Except Fault (List UInt8 × Conn)
  | 0, rem, c => if rem = 0 then .ok ([], c) else .error .eof
  | fuel + 1, rem, c =>
    if rem = 0 then .ok ([], c)
    else
      let (bs, c) := htcRead p.cut c (min rem (p.want c.reads + 1))
      if bs = [] then .error .eof
      else do
        let (rest, c) ← readBody p fuel (rem - bs.length) c
        .ok (bs ++ rest, c)

/-- The header block of the next request, which may be in the buffer already. -/
def nextHead (p : Plan) (done : Bool) (c : Conn) : Except Fault Conn := if done then .ok c else receive p (c.stream.length + 1) c

/-- One request, which has a body of `len` bytes: the header block, and the body. -/
def request (p : Plan) (done : Bool) (len : ℕ) (c : Conn) : Except Fault ((List UInt8 × List UInt8) × Conn) := do
  let c ← nextHead p done c
  let block := c.rxbuf
  let c ← (p.work c.reads).foldlM wsAlloc c
  let (body, c) ← readBody p len len c
  let c ← (p.work c.reads).foldlM wsAlloc c
  .ok ((block, body), c)

/-- The requests one after the other; `ses` is `sp->ws_ses`. -/
def requests (p : Plan) (ses : ℕ) : (done : Bool) → List ℕ → Conn → Except Fault (List (List UInt8 × List UInt8))
  | _, [], _ => .ok []
  | done, len :: lens, c => do
    let (out, c) ← request p done len c
    let c ← wsReset c ses
    let (done, c) ← htcReinit c
    let outs ← requests p ses done lens c
    .ok (out :: outs)

/-- A session over a workspace of `size` bytes, `ses` of which are used for good. -/
def serve (p : Plan) (mem : Mem) (size ses : ℕ) (lens : List ℕ) (stream : List UInt8) :
    Except Fault (List (List UInt8 × List UInt8)) := do
  let c ← htcInit ⟨mem, size, ses, none, 0, 0, none, stream, 0⟩
  requests p ses false lens c

end Session

/-! ## The buffers -/

section Buffers

variable {c : Conn} {ses cap : ℕ} {content pl bs : List UInt8}

/-- The session receives: `content` is in `rxbuf`, at `ses`, where `cap` bytes are reserved. -/
structure Recv (ses cap : ℕ) (c : Conn) (content : List UInt8) : Prop where
  half : c.size / 2 = cap
  fits : ses + cap ≤ c.size
  f : c.f = ses
  r : c.r = some (ses + cap)
  rxb : c.rxb = ses
  rxe : c.rxe = ses + content.length
  room : content.length < cap
  data : rd c.mem ses content.length = content
  nul : c.mem (ses + content.length) = 0
  pipe : c.pipe = none

/-- The session has a request: `pl` is in the pipeline, in front of what is free. -/
structure Busy (ses cap : ℕ) (c : Conn) (pl : List UInt8) : Prop where
  half : c.size / 2 = cap
  fits : ses + cap ≤ c.size
  r : c.r = none
  room : pl.length < cap
  pipe : (c.pipe = none ∧ pl = []) ∨
    ∃ b, c.pipe = some (b, b + pl.length) ∧ b + pl.length ≤ c.f ∧ rd c.mem b pl.length = pl

theorem Recv.rxbuf (h : Recv ses cap c content) : c.rxbuf = content := by
  rw [Conn.rxbuf, h.rxb, h.rxe, Nat.add_sub_cancel_left, h.data]

theorem Recv.mem_rxe (h : Recv ses cap c content) : c.mem c.rxe = 0 := by rw [h.rxe, h.nul]

theorem wr_nul (m : Mem) (a : ℕ) : wr m a [0] a = 0 := by simp [wr]

/-- A NUL behind what is in the buffer. -/
theorem putNul_spec (content : List UInt8) (hhalf : c.size / 2 = cap) (hfits : ses + cap ≤ c.size) (hf : c.f = ses) (hr : c.r = some (ses + cap)) (hb : c.rxb = ses)
    (he : c.rxe = ses + content.length) (hroom : content.length < cap) (hdata : rd c.mem ses content.length = content)
    (hpipe : c.pipe = none) :
    putNul c = .ok { c with mem := wr c.mem c.rxe [0] } ∧ Recv ses cap { c with mem := wr c.mem c.rxe [0] } content := by
  refine ⟨?_, hhalf, hfits, hf, hr, hb, he, hroom, ?_, ?_, hpipe⟩
  · unfold putNul
    rw [hr]
    dsimp only
    rw [if_pos (by omega)]
  · show rd (wr c.mem c.rxe [0]) ses content.length = content
    rw [rd_wr_off (.inl (by omega)), hdata]
  · show wr c.mem c.rxe [0] (ses + content.length) = 0
    rw [he]
    exact wr_nul _ _

theorem htcHeaderComplete_le (t : Str) : (htcHeaderComplete t).1 ≤ t.length := by
  unfold htcHeaderComplete
  dsimp only
  split
  · exact Nat.zero_le _
  split
  · exact Nat.zero_le _
  next k hk =>
    have hk' := (headerEnd_spec hk).1
    have hp := (List.dropWhile_suffix isspace : (cstr t).dropWhile isspace <:+ cstr t).length_le
    have hc : (cstr t).length ≤ t.length := (List.takeWhile_prefix _).length_le
    dsimp only
    omega

/-- `HTC_Complete` when nothing is complete: white space goes, anything else stays. -/
theorem htcComplete_more (h : Recv ses cap c content) (hi : (htcHeaderComplete (chars content)).1 = 0) :
    ∃ c', htcComplete c = .ok (false, c') ∧ Recv ses cap c' (if (htcHeaderComplete (chars content)).2 = [] then [] else content) ∧
      c'.stream = c.stream ∧ c'.reads = c.reads := by
  unfold htcComplete
  rw [if_neg (by simp [h.mem_rxe]), h.rxbuf]
  dsimp only
  rw [if_pos hi]
  split
  · obtain ⟨hput, hrecv⟩ := putNul_spec (c := { c with rxe := c.rxb }) [] h.half h.fits h.f h.r h.rxb
      h.rxb (Nat.zero_lt_of_lt h.room) rfl h.pipe
    rw [hput]
    exact ⟨_, rfl, hrecv, rfl, rfl⟩
  · exact ⟨c, rfl, h, rfl, rfl⟩

/-- `HTC_Complete` when a header is complete: what is behind it is the pipeline. -/
theorem htcComplete_done {i : ℕ} (h : Recv ses cap c content) (hi : (htcHeaderComplete (chars content)).1 = i) (hne : i ≠ 0) :
    ∃ c', htcComplete c = .ok (true, c') ∧ c'.rxbuf = content.take i ∧ Busy ses cap c' (content.drop i) ∧
      c'.stream = c.stream ∧ c'.reads = c.reads := by
  have hle : i ≤ content.length := by
    have := htcHeaderComplete_le (chars content)
    rw [hi, chars, List.length_map] at this
    exact this
  have hsplit : rd c.mem ses i ++ rd c.mem (ses + i) (content.length - i) = content := by
    rw [← rd_add, Nat.add_sub_cancel' hle, h.data]
  have htake : rd c.mem ses i = content.take i := by
    have := congrArg (List.take i) hsplit
    rwa [List.take_left' (length_rd _ _ _)] at this
  have hdrop : rd c.mem (ses + i) (content.length - i) = content.drop i := by
    have := congrArg (List.drop i) hsplit
    rwa [List.drop_left' (length_rd _ _ _)] at this
  unfold htcComplete
  rw [if_neg (by simp [h.mem_rxe]), h.rxbuf]
  dsimp only
  rw [if_neg (by rw [hi]; exact hne), hi]
  have hrel : wsReleaseP c c.rxe = .ok { c with f := c.rxe, r := none } := by
    unfold wsReleaseP
    rw [h.r]
    dsimp only
    have := h.room
    rw [if_neg (by rw [h.rxe, h.f]; omega)]
  rw [hrel]
  refine ⟨_, rfl, ?_, ?_, ?_, ?_⟩
  · dsimp only
    split
    · rw [Conn.rxbuf]
      dsimp only
      rw [h.rxb, Nat.add_sub_cancel_left, htake]
    next hn =>
      rw [h.rxb, h.rxe] at hn
      rw [Conn.rxbuf]
      dsimp only
      rw [h.rxb, h.rxe, Nat.add_sub_cancel_left, h.data, List.take_of_length_le (by omega)]
  · have hlen := h.room
    dsimp only
    split
    next hlt =>
      refine ⟨h.half, h.fits, rfl, by rw [List.length_drop]; omega, .inr ⟨ses + i, ?_, ?_, ?_⟩⟩
      · dsimp only
        rw [h.rxb, h.rxe, List.length_drop, Nat.add_assoc, Nat.add_sub_cancel' hle]
      · dsimp only
        rw [h.rxe, List.length_drop]
        omega
      · rw [List.length_drop]
        exact hdrop
    next hn =>
      rw [h.rxb, h.rxe] at hn
      refine ⟨h.half, h.fits, rfl, by rw [List.length_drop]; omega, .inl ⟨h.pipe, ?_⟩⟩
      exact List.drop_of_length_le (by omega)
  · split <;> rfl
  · split <;> rfl

theorem wsReserve_spec (hhalf : c.size / 2 = cap) (hpos : 0 < cap) (hf : c.f = ses) (hr : c.r = none) (hsize : ses + cap ≤ c.size) :
    wsReserve c = .ok { c with r := some (ses + cap) } := by
  unfold wsReserve
  dsimp only
  rw [hhalf, if_neg (show ¬ cap = 0 by omega), hf, if_neg]
  rintro (h | h)
  · exact h hr
  · omega

/-- `HTC_Init` -/
theorem htcInit_spec (hhalf : c.size / 2 = cap) (hpos : 0 < cap) (hf : c.f = ses) (hr : c.r = none) (hsize : ses + cap ≤ c.size) :
    ∃ c', htcInit c = .ok c' ∧ Recv ses cap c' [] ∧ c'.stream = c.stream := by
  unfold htcInit
  rw [wsReserve_spec hhalf hpos hf hr hsize]
  obtain ⟨hput, hrecv⟩ := putNul_spec (c := { c with
    r := some (ses + cap)
    rxb := c.f
    rxe := c.f
    pipe := none }) [] hhalf hsize hf rfl hf hf hpos rfl rfl
  exact ⟨_, hput, hrecv, rfl⟩

/-- `HTC_Reinit`: the pipeline is in the buffer. -/
theorem htcReinit_spec (h : Busy ses cap c pl) :
    ∃ c', htcReinit { c with f := ses } = htcComplete c' ∧ Recv ses cap c' pl ∧ c'.stream = c.stream := by
  unfold htcReinit
  rw [wsReserve_spec (c := { c with f := ses }) h.half (Nat.zero_lt_of_lt h.room) (show ses = ses from rfl) h.r h.fits]
  have hrec : ∃ c', recycle { c with f := ses, r := some (ses + cap) } = c' ∧ c'.size / 2 = cap ∧ ses + cap ≤ c'.size ∧
      c'.f = ses ∧ c'.r = some (ses + cap) ∧ c'.rxb = ses ∧ c'.rxe = ses + pl.length ∧ rd c'.mem ses pl.length = pl ∧
      c'.pipe = none ∧ c'.stream = c.stream := by
    unfold recycle
    rcases h.pipe with ⟨hp, rfl⟩ | ⟨b, hp, -, hdata⟩
    · rw [hp]
      exact ⟨_, rfl, h.half, h.fits, rfl, rfl, rfl, rfl, rfl, rfl, rfl⟩
    · rw [hp]
      dsimp only
      rw [Nat.add_sub_cancel_left, hdata]
      exact ⟨_, rfl, h.half, h.fits, rfl, rfl, rfl, rfl, rd_wr _ _ _, rfl, rfl⟩
  obtain ⟨c', hc', h0, h1, h2, h3, h4, h5, h6, h7, h8⟩ := hrec
  obtain ⟨hput, hrecv⟩ := putNul_spec pl h0 h1 h2 h3 h4 h5 h.room h6 h7
  refine ⟨_, ?_, hrecv, h8⟩
  show (putNul (recycle _) >>= htcComplete) = _
  rw [hc', hput]
  rfl

/-- What is allocated does not touch the pipeline. -/
theorem wsAlloc_spec (h : Busy ses cap c pl) (bs : List UInt8) :
    ∃ c', wsAlloc c bs = .ok c' ∧ Busy ses cap c' pl ∧ c'.stream = c.stream ∧ c'.reads = c.reads := by
  unfold wsAlloc
  rw [if_neg (by simp [h.r])]
  split
  · exact ⟨c, rfl, h, rfl, rfl⟩
  · refine ⟨_, rfl, ⟨h.half, h.fits, h.r, h.room, ?_⟩, rfl, rfl⟩
    rcases h.pipe with hp | ⟨b, hp, hle, hdata⟩
    · exact .inl hp
    · refine .inr ⟨b, hp, Nat.le_add_right_of_le hle, ?_⟩
      show rd (wr c.mem c.f bs) b pl.length = pl
      rw [rd_wr_off (.inl hle), hdata]

theorem work_spec (bss : List (List UInt8)) (h : Busy ses cap c pl) :
    ∃ c', bss.foldlM wsAlloc c = .ok c' ∧ Busy ses cap c' pl ∧ c'.stream = c.stream ∧ c'.reads = c.reads := by
  induction bss generalizing c with
  | nil => exact ⟨c, rfl, h, rfl, rfl⟩
  | cons bs bss ih =>
    obtain ⟨c1, h1, hb1, hs1, hr1⟩ := wsAlloc_spec h bs
    obtain ⟨c2, h2, hb2, hs2, hr2⟩ := ih hb1
    refine ⟨c2, ?_, hb2, hs2.trans hs1, hr2.trans hr1⟩
    rw [List.foldlM_cons, h1]
    exact h2

theorem pipeRead_spec (h : Busy ses cap c pl) (len : ℕ) :
    ∃ c', pipeRead c len = (pl.take len, c') ∧ Busy ses cap c' (pl.drop len) ∧ c'.stream = c.stream ∧ c'.reads = c.reads := by
  unfold pipeRead
  rcases h.pipe with ⟨hp, rfl⟩ | ⟨b, hp, hle, hdata⟩
  · rw [hp, List.take_nil, List.drop_nil]
    exact ⟨c, rfl, h, rfl, rfl⟩
  · rw [hp]
    dsimp only
    rw [Nat.add_sub_cancel_left]
    have hsplit : rd c.mem b (min pl.length len) ++ rd c.mem (b + min pl.length len) (pl.length - min pl.length len) = pl := by
      rw [← rd_add, Nat.add_sub_cancel' (Nat.min_le_left _ _), hdata]
    have htake : rd c.mem b (min pl.length len) = pl.take len := by
      have := congrArg (List.take (min pl.length len)) hsplit
      rw [List.take_left' (length_rd _ _ _)] at this
      rw [this]
      by_cases hlen : pl.length ≤ len
      · rw [Nat.min_eq_left hlen, List.take_of_length_le hlen, List.take_length]
      · rw [Nat.min_eq_right (by omega)]
    have hdrop : rd c.mem (b + min pl.length len) (pl.length - min pl.length len) = pl.drop len := by
      have := congrArg (List.drop (min pl.length len)) hsplit
      rw [List.drop_left' (length_rd _ _ _)] at this
      rw [this]
      by_cases hlen : pl.length ≤ len
      · rw [Nat.min_eq_left hlen, List.drop_of_length_le hlen, List.drop_length]
      · rw [Nat.min_eq_right (by omega)]
    rw [htake]
    refine ⟨_, rfl, ⟨h.half, h.fits, h.r, ?_, ?_⟩, rfl, rfl⟩
    · exact Nat.lt_of_le_of_lt (by rw [List.length_drop]; exact Nat.sub_le _ _) h.room
    · dsimp only
      by_cases hlen : pl.length ≤ len
      · refine .inl ⟨if_pos (by rw [Nat.min_eq_left hlen]), List.drop_of_length_le hlen⟩
      · have hmin : min pl.length len = len := Nat.min_eq_right (by omega)
        rw [hmin] at hdrop ⊢
        refine .inr ⟨b + len, ?_, ?_, ?_⟩
        · rw [if_neg (by omega), List.length_drop, Nat.add_assoc, Nat.add_sub_cancel' (by omega)]
        · rw [List.length_drop]
          omega
        · rw [List.length_drop]
          exact hdrop

/-- `HTC_Read`: the next bytes, of the pipeline and of the stream, and none only if there are none. -/
theorem htcRead_spec (cut : ℕ → ℕ) (len : ℕ) (h : Busy ses cap c pl) (hlen : 0 < len) :
    ∃ bs c' pl', htcRead cut c len = (bs, c') ∧ (bs = [] → pl ++ c.stream = []) ∧ bs.length ≤ len ∧ Busy ses cap c' pl' ∧
      pl ++ c.stream = bs ++ (pl' ++ c'.stream) := by
  obtain ⟨c1, hc1, hb1, hs1, -⟩ := pipeRead_spec h len
  unfold htcRead
  rw [hc1]
  dsimp only
  by_cases hpl : len ≤ pl.length
  · rw [if_pos (by rw [List.length_take]; omega)]
    refine ⟨pl.take len, c1, pl.drop len, rfl, ?_, ?_, hb1, ?_⟩
    · intro hz
      have := congrArg List.length hz
      rw [List.length_take, List.length_nil] at this
      omega
    · rw [List.length_take]
      exact Nat.min_le_left _ _
    · rw [hs1, ← List.append_assoc, List.take_append_drop]
  · rw [if_neg (by rw [List.length_take]; omega)]
    rw [List.take_of_length_le (by omega)] at *
    rw [List.drop_of_length_le (by omega)] at hb1
    unfold Conn.read
    dsimp only
    rw [hs1]
    refine ⟨_, _, [], rfl, ?_, ?_, ⟨hb1.half, hb1.fits, hb1.r, hb1.room, ?_⟩, ?_⟩
    · intro hz
      have hlens := congrArg List.length hz
      rw [List.length_append, List.length_take, List.length_nil] at hlens
      refine List.length_eq_zero_iff.mp ?_
      rw [List.length_append]
      omega
    · rw [List.length_append, List.length_take]
      omega
    · rcases hb1.pipe with hp | ⟨b, hp⟩
      · exact .inl hp
      · exact .inr ⟨b, hp⟩
    · dsimp only
      rw [List.append_assoc, List.nil_append, List.take_append_drop]

end Buffers

/-! ## Requests -/

section Requests

variable {p : Plan} {c : Conn} {ses cap : ℕ} {content pl lead head more : List UInt8}

/-- A request: white space, a header block, and a body. -/
structure Req where
  lead : List UInt8
  head : List UInt8
  body : List UInt8

def Req.bytes (q : Req) : List UInt8 := q.lead ++ (q.head ++ q.body)

/-- `lead` is white space. -/
def Spaces (lead : List UInt8) : Prop := ∀ b ∈ lead, isspace (char b) = true

instance (lead : List UInt8) : Decidable (Spaces lead) := inferInstanceAs (Decidable (∀ b ∈ lead, _))

/-- `head` is a header block: it ends with its first empty line. -/
def IsHead (head : List UInt8) : Prop :=
  (∀ b ∈ head.head?, isspace (char b) = false) ∧ headerEnd (chars head) = some head.length

def NulFree (bs : List UInt8) : Prop := ∀ b ∈ bs, b ≠ 0

instance (bs : List UInt8) : Decidable (NulFree bs) := inferInstanceAs (Decidable (∀ b ∈ bs, _))

/-- The header block fits into a buffer of `cap` bytes, with the white space and the NUL. -/
structure Req.Ok (cap : ℕ) (q : Req) : Prop where
  lead : Spaces q.lead
  head : IsHead q.head
  fits : q.lead.length + q.head.length < cap
  nul : NulFree q.bytes

theorem char_ne_nul {b : UInt8} (h : b ≠ 0) : char b ≠ '\x00' := by
  intro hc
  have hz : b.toNat = 0 := by
    rw [← toNat_char, hc]
    rfl
  exact h (UInt8.toNat_inj.mp hz)

theorem cstr_chars {bs : List UInt8} (h : NulFree bs) : cstr (chars bs) = chars bs := by
  have hall : ∀ c ∈ chars bs, decide (c ≠ '\x00') = true := by
    intro c hc
    obtain ⟨b, hb, rfl⟩ := List.mem_map.mp hc
    exact decide_eq_true (char_ne_nul (h b hb))
  have := @List.takeWhile_append_of_pos _ _ _ [] hall
  simpa [cstr] using this

theorem two_le_headerEnd {t : Str} {k : ℕ} (h : headerEnd t = some k) : 2 ≤ k := by
  induction t generalizing k with
  | nil => cases h
  | cons c t ih =>
    rw [headerEnd] at h
    split at h
    · cases h
      exact Nat.le_add_left _ _
    · obtain ⟨j, hj, rfl⟩ := Option.map_eq_some_iff.mp h
      exact Nat.le_succ_of_le (ih hj)

theorem skipCr_append {t : Str} (u : Str) (h : t ≠ []) : skipCr (t ++ u) = skipCr t ++ u := by
  obtain ⟨c, t, rfl⟩ := List.exists_cons_of_ne_nil h
  rcases skipCr_cases (c :: t) with ⟨v, hv, hs⟩ | hs
  · cases hv
    rfl
  · rw [hs]
    refine skipCr_ne fun hh => ?_
    cases hh
    have := congrArg List.length hs
    simp [skipCr] at this

/-- The end of a header block does not depend on what is behind it, -/
theorem headerEnd_append {t : Str} {k : ℕ} (u : Str) (h : headerEnd t = some k) : headerEnd (t ++ u) = some k := by
  induction t generalizing k with
  | nil => cases h
  | cons c t ih =>
    rw [headerEnd] at h
    rw [List.cons_append, headerEnd]
    by_cases hc : c = '\n' ∧ (skipCr t).head? = some '\n'
    · have hne : t ≠ [] := by
        rintro rfl
        cases hc.2
      obtain ⟨v, hv⟩ := List.head?_eq_some_iff.mp hc.2
      rw [if_pos hc] at h
      rw [skipCr_append u hne, hv, if_pos ⟨hc.1, rfl⟩, ← h, hv]
      simp only [List.length_append, List.length_cons, Option.some.injEq]
      omega
    · rw [if_neg hc] at h
      obtain ⟨j, hj, rfl⟩ := Option.map_eq_some_iff.mp h
      have hlen := (headerEnd_spec hj).1
      have htwo := two_le_headerEnd hj
      have hsame : (skipCr (t ++ u)).head? = (skipCr t).head? := by
        have hne : t ≠ [] := by
          rintro rfl
          cases hj
        rw [skipCr_append u hne]
        have hpos : skipCr t ≠ [] := by
          rcases skipCr_cases t with ⟨v, rfl, hs⟩ | hs
          · rw [hs]
            rintro rfl
            rw [List.length_cons, List.length_nil] at hlen
            omega
          · rw [hs]
            exact hne
        obtain ⟨d, w, hw⟩ := List.exists_cons_of_ne_nil hpos
        rw [hw]
        rfl
      rw [if_neg (by rw [hsame]; exact hc), ih hj]
      rfl

/-- and is not seen before it is there. -/
theorem headerEnd_take {t : Str} {k j : ℕ} (h : headerEnd t = some k) (hj : j < k) : headerEnd (t.take j) = none := by
  cases hk : headerEnd (t.take j) with
  | none => rfl
  | some k' =>
    have hle := (headerEnd_spec hk).1
    have hsame := headerEnd_append (t.drop j) hk
    rw [List.take_append_drop, h] at hsame
    cases hsame
    rw [List.length_take] at hle
    omega

theorem dropWhile_lead {x : List UInt8} (hl : Spaces lead) (hx : x ≠ []) (hh : ∀ b ∈ x.head?, isspace (char b) = false) :
    (chars (lead ++ x)).dropWhile isspace = chars x := by
  obtain ⟨b, x, rfl⟩ := List.exists_cons_of_ne_nil hx
  rw [chars, List.map_append, List.dropWhile_append_of_pos]
  · exact List.dropWhile_cons_of_neg (by simp [hh b rfl])
  · intro c hc
    obtain ⟨d, hd, rfl⟩ := List.mem_map.mp hc
    exact hl d hd

theorem dropWhile_spaces (hl : Spaces lead) : (chars lead).dropWhile isspace = [] := by
  have hall : ∀ c ∈ chars lead, isspace c = true := by
    intro c hc
    obtain ⟨d, hd, rfl⟩ := List.mem_map.mp hc
    exact hl d hd
  have := @List.dropWhile_append_of_pos _ _ _ [] hall
  simpa using this

/-- The delimiter sees white space, -/
theorem complete_lead (hl : Spaces content) (hn : NulFree content) : htcHeaderComplete (chars content) = (0, []) := by
  unfold htcHeaderComplete
  rw [cstr_chars hn, dropWhile_spaces hl]
  rfl

theorem isHead_take {j : ℕ} (hh : IsHead head) (hj : 0 < j) :
    head.take j ≠ [] ∧ ∀ b ∈ (head.take j).head?, isspace (char b) = false := by
  cases head with
  | nil => cases hh.2
  | cons b head =>
    obtain ⟨j, rfl⟩ : ∃ i, j = i + 1 := ⟨j - 1, by omega⟩
    exact ⟨List.cons_ne_nil _ _, hh.1⟩

/-- or a part of a header, -/
theorem complete_part {j : ℕ} (hl : Spaces lead) (hh : IsHead head) (hj : 0 < j) (hlt : j < head.length)
    (hn : NulFree (lead ++ head.take j)) :
    htcHeaderComplete (chars (lead ++ head.take j)) = (0, chars (lead ++ head.take j)) := by
  obtain ⟨hne, hfirst⟩ := isHead_take hh hj
  unfold htcHeaderComplete
  rw [cstr_chars hn, dropWhile_lead hl hne hfirst]
  have hnone : headerEnd (chars (head.take j)) = none := by
    rw [chars, List.map_take]
    exact headerEnd_take hh.2 hlt
  dsimp only
  rw [if_neg (by simpa [chars] using hne), hnone]

/-- or a header with something behind it. -/
theorem complete_head {x : List UInt8} (hl : Spaces lead) (hh : IsHead head) (hn : NulFree (lead ++ (head ++ x))) :
    (htcHeaderComplete (chars (lead ++ (head ++ x)))).1 = lead.length + head.length := by
  obtain ⟨b, head', rfl⟩ := List.exists_cons_of_ne_nil (l := head) (by
    rintro rfl
    cases hh.2)
  unfold htcHeaderComplete
  rw [cstr_chars hn, dropWhile_lead (x := b :: head' ++ x) hl (List.cons_ne_nil _ _) hh.1]
  have hend : headerEnd (chars (b :: head' ++ x)) = some (b :: head').length := by
    rw [chars, List.map_append]
    exact headerEnd_append _ hh.2
  dsimp only
  rw [hend, if_neg (show chars (b :: head' ++ x) ≠ [] from List.cons_ne_nil _ _)]
  simp only [chars, List.length_map, List.length_append]
  omega

/-- `HTC_Complete` on a part of what is to come: the header block is complete, or more is needed of it. -/
theorem settle (h : Recv ses cap c content) (hl : Spaces lead) (hh : IsHead head) (hn : NulFree (lead ++ (head ++ more)))
    (hsplit : content ++ c.stream = lead ++ (head ++ more)) :
    (∃ c' pl, htcComplete c = .ok (true, c') ∧ c'.rxbuf = lead ++ head ∧ Busy ses cap c' pl ∧ pl ++ c'.stream = more) ∨
    ∃ c' content' lead', htcComplete c = .ok (false, c') ∧ Recv ses cap c' content' ∧ Spaces lead' ∧ lead'.length ≤ lead.length ∧
      content' ++ c'.stream = lead' ++ (head ++ more) ∧ content'.length < lead'.length + head.length ∧ c'.stream = c.stream ∧
      NulFree (lead' ++ (head ++ more)) := by
  have hpos : 0 < head.length := by
    cases head with
    | nil => cases hh.2
    | cons b head => exact Nat.succ_pos _
  have hpre : content = (lead ++ (head ++ more)).take content.length := by rw [← hsplit, List.take_left]
  have hcn : NulFree content := fun b hb => hn b (hsplit ▸ List.mem_append_left _ hb)
  by_cases h1 : content.length ≤ lead.length
  · have hc : content = lead.take content.length := by
      rwa [List.take_append_of_le_length h1] at hpre
    have hlc : Spaces content := fun b hb => hl b (List.mem_of_mem_take (hc ▸ hb))
    have hcomp := complete_lead hlc hcn
    obtain ⟨c', hok, hrecv, hs, -⟩ := htcComplete_more h (by rw [hcomp])
    rw [hcomp, if_pos rfl] at hrecv
    have hdrop : lead = content ++ lead.drop content.length := by
      conv => lhs; rw [← List.take_append_drop content.length lead, ← hc]
    refine .inr ⟨c', [], lead.drop content.length, hok, hrecv, fun b hb => hl b (List.mem_of_mem_drop hb), ?_, ?_, ?_, hs, ?_⟩
    · rw [List.length_drop]
      exact Nat.sub_le _ _
    · rw [hs, List.nil_append]
      rw [hdrop, List.append_assoc] at hsplit
      exact (List.append_cancel_left hsplit)
    · rw [List.length_nil]
      omega
    · intro b hb
      refine hn b ?_
      rw [hdrop, List.append_assoc]
      exact List.mem_append_right _ hb
  · by_cases h2 : content.length < lead.length + head.length
    · have hc : content = lead ++ head.take (content.length - lead.length) := by
        rw [List.take_append, List.take_of_length_le (by omega), List.take_append_of_le_length (by omega)] at hpre
        exact hpre
      have hcomp := complete_part hl hh (j := content.length - lead.length) (by omega) (by omega) (hc ▸ hcn)
      rw [← hc] at hcomp
      obtain ⟨c', hok, hrecv, hs, -⟩ := htcComplete_more h (by rw [hcomp])
      have hne : chars content ≠ [] := by
        intro hz
        have := congrArg List.length hz
        rw [chars, List.length_map, List.length_nil] at this
        omega
      rw [hcomp, if_neg hne] at hrecv
      exact .inr ⟨c', content, lead, hok, hrecv, hl, Nat.le_refl _, by rw [hs]; exact hsplit, h2, hs, hn⟩
    · have hc : content = lead ++ (head ++ more.take (content.length - lead.length - head.length)) := by
        rw [List.take_append, List.take_of_length_le (by omega), List.take_append, List.take_of_length_le (by omega)] at hpre
        exact hpre
      have hcomp := complete_head (x := more.take (content.length - lead.length - head.length)) hl hh (hc ▸ hcn)
      rw [← hc] at hcomp
      obtain ⟨c', hok, hblock, hbusy, hs, -⟩ := htcComplete_done h hcomp (by omega)
      refine .inl ⟨c', _, hok, ?_, hbusy, ?_⟩
      · rw [hblock, hc, ← List.append_assoc]
        exact List.take_left' (by rw [List.length_append])
      · rw [hs]
        have := congrArg (List.drop (lead.length + head.length)) hsplit
        rw [List.drop_append_of_le_length (by omega), ← List.append_assoc, List.drop_left' (by rw [List.length_append])] at this
        exact this

/-- `HTC_Rx`: some bytes are moved from the stream to the buffer. -/
theorem htcRx_spec (cut : ℕ → ℕ) (h : Recv ses cap c content) (hroom : content.length + 1 < cap) (hs : c.stream ≠ []) :
    ∃ c' content', htcRx cut c = htcComplete c' ∧ Recv ses cap c' content' ∧ content' ++ c'.stream = content ++ c.stream ∧
      c'.stream.length < c.stream.length := by
  have hpos : 0 < c.stream.length := List.length_pos_iff.mpr hs
  unfold htcRx
  rw [h.r]
  dsimp only
  rw [if_neg (by rw [h.rxe]; omega)]
  have hspace : ses + cap - c.rxe - 1 = cap - content.length - 1 := by
    rw [h.rxe]
    omega
  rw [hspace]
  unfold Conn.read
  dsimp only
  generalize hn : min (cut c.reads + 1) (cap - content.length - 1) = n
  have hn1 : 1 ≤ n := by omega
  have hne : c.stream.take n ≠ [] := by
    intro hz
    have := congrArg List.length hz
    rw [List.length_take, List.length_nil] at this
    omega
  rw [if_neg hne]
  have hdata : rd (wr c.mem c.rxe (c.stream.take n)) ses (content ++ c.stream.take n).length = content ++ c.stream.take n := by
    rw [List.length_append, rd_add, rd_wr_off (.inl (by rw [h.rxe])), h.data, h.rxe, rd_wr]
  obtain ⟨hput, hrecv⟩ := putNul_spec (c := { c with
    mem := wr c.mem c.rxe (c.stream.take n)
    rxe := c.rxe + (c.stream.take n).length
    stream := c.stream.drop n
    reads := c.reads + 1 }) (content ++ c.stream.take n) h.half h.fits h.f h.r h.rxb
    (by rw [List.length_append, h.rxe, Nat.add_assoc]) (by rw [List.length_append, List.length_take]; omega) hdata h.pipe
  refine ⟨_, content ++ c.stream.take n, ?_, hrecv, ?_, ?_⟩
  · show (putNul _ >>= htcComplete) = _
    rw [hput]
    rfl
  · rw [List.append_assoc]
    dsimp only
    rw [List.take_append_drop]
  · dsimp only
    rw [List.length_drop]
    omega

/-- The header block is received, whatever the parts in which it comes. -/
theorem receive_spec (p : Plan) {fuel : ℕ} (h : Recv ses cap c content) (hl : Spaces lead) (hh : IsHead head)
    (hfit : lead.length + head.length < cap) (hn : NulFree (lead ++ (head ++ more)))
    (hsplit : content ++ c.stream = lead ++ (head ++ more)) (hpart : content.length < lead.length + head.length)
    (hf : c.stream.length < fuel) :
    ∃ c' pl lead', receive p fuel c = .ok c' ∧ Spaces lead' ∧ c'.rxbuf = lead' ++ head ∧ Busy ses cap c' pl ∧ pl ++ c'.stream = more := by
  induction fuel generalizing c content lead with
  | zero => exact absurd hf (Nat.not_lt_zero _)
  | succ fuel ih =>
    rw [receive]
    -- `HTC_Complete` may be called once more
    have hlook : (∃ c' pl, lookAgain p c = .ok (true, c') ∧ c'.rxbuf = lead ++ head ∧ Busy ses cap c' pl ∧ pl ++ c'.stream = more) ∨
        ∃ c' content' lead', lookAgain p c = .ok (false, c') ∧ Recv ses cap c' content' ∧ Spaces lead' ∧
          lead'.length ≤ lead.length ∧ content' ++ c'.stream = lead' ++ (head ++ more) ∧
          content'.length < lead'.length + head.length ∧ c'.stream = c.stream ∧ NulFree (lead' ++ (head ++ more)) := by
      unfold lookAgain
      split
      · exact settle h hl hh hn hsplit
      · exact .inr ⟨c, content, lead, rfl, h, hl, Nat.le_refl _, hsplit, hpart, rfl, hn⟩
    rcases hlook with ⟨c1, pl, hc1, hblock, hbusy, hmore⟩ | ⟨c1, content1, lead1, hc1, h1, hl1, hle1, hsplit1, hpart1, hs1, hn1⟩
    · rw [hc1]
      exact ⟨c1, pl, lead, rfl, hl, hblock, hbusy, hmore⟩
    rw [hc1]
    have hne : c1.stream ≠ [] := by
      intro hz
      have := congrArg List.length hsplit1
      rw [hz, List.append_nil, List.length_append, List.length_append] at this
      omega
    obtain ⟨c2, content2, hc2, h2, hsplit2, hlt2⟩ := htcRx_spec p.cut h1 (by omega) hne
    show ∃ c' pl lead', ((htcRx p.cut c1) >>= fun x => if x.1 then .ok x.2 else receive p fuel x.2) = .ok c' ∧ _
    rw [hc2]
    rcases settle h2 hl1 hh hn1 (hsplit2.trans hsplit1) with ⟨c3, pl, hc3, hblock, hbusy, hmore⟩ |
      ⟨c3, content3, lead3, hc3, h3, hl3, hle3, hsplit3, hpart3, hs3, hn3⟩
    · rw [hc3]
      exact ⟨c3, pl, lead1, rfl, hl1, hblock, hbusy, hmore⟩
    · rw [hc3]
      exact ih h3 hl3 (by omega) hn3 hsplit3 hpart3 (by rw [hs3]; rw [hs1] at hlt2; omega)

/-- The body is read, whatever the parts in which it comes. -/
theorem readBody_spec (p : Plan) {fuel : ℕ} {body : List UInt8} (h : Busy ses cap c pl) (hsplit : pl ++ c.stream = body ++ more)
    (hf : body.length ≤ fuel) :
    ∃ c' pl', readBody p fuel body.length c = .ok (body, c') ∧ Busy ses cap c' pl' ∧ pl' ++ c'.stream = more := by
  induction fuel generalizing c pl body with
  | zero =>
    have hz : body = [] := List.length_eq_zero_iff.mp (Nat.le_zero.mp hf)
    subst hz
    exact ⟨c, pl, rfl, h, hsplit⟩
  | succ fuel ih =>
    rw [readBody]
    by_cases hz : body.length = 0
    · rw [if_pos hz]
      rw [List.length_eq_zero_iff.mp hz] at hsplit ⊢
      exact ⟨c, pl, rfl, h, hsplit⟩
    · rw [if_neg hz]
      obtain ⟨bs, c1, pl1, hread, hempty, hlen, h1, hsplit1⟩ := htcRead_spec p.cut (min body.length (p.want c.reads + 1)) h
        (by omega)
      have hne : bs ≠ [] := by
        intro hb
        have := congrArg List.length (hsplit.symm.trans (hempty hb))
        rw [List.length_append, List.length_nil] at this
        omega
      have hle : bs.length ≤ body.length := hlen.trans (Nat.min_le_left _ _)
      have hbs : body = bs ++ body.drop bs.length := by
        have := congrArg (List.take bs.length) (hsplit.symm.trans hsplit1)
        rw [List.take_append_of_le_length hle, List.take_left] at this
        conv => lhs; rw [← List.take_append_drop bs.length body, this]
      have hrest : pl1 ++ c1.stream = body.drop bs.length ++ more := by
        rw [hsplit, hbs, List.append_assoc] at hsplit1
        exact (List.append_cancel_left hsplit1).symm
      rw [hread]
      dsimp only
      rw [if_neg hne]
      have hpos : 0 < bs.length := List.length_pos_iff.mpr hne
      obtain ⟨c2, pl2, hc2, h2, hsplit2⟩ := ih h1 hrest (by rw [List.length_drop]; omega)
      rw [List.length_drop] at hc2
      refine ⟨c2, pl2, ?_, h2, hsplit2⟩
      rw [hc2]
      show Except.ok (bs ++ body.drop bs.length, c2) = _
      rw [← hbs]

/-- Without the white space in front. -/
def stripLead (bs : List UInt8) : List UInt8 := bs.dropWhile fun b => isspace (char b)

theorem stripLead_block (hl : Spaces lead) (hh : IsHead head) : stripLead (lead ++ head) = head := by
  obtain ⟨b, head', rfl⟩ := List.exists_cons_of_ne_nil (l := head) (by
    rintro rfl
    cases hh.2)
  rw [stripLead, List.dropWhile_append_of_pos hl]
  exact List.dropWhile_cons_of_neg (by simp [hh.1 b rfl])

/-- How a session stands between two requests: it has seen nothing of the next one, or a part of it, or its header block. -/
inductive Ready (ses cap : ℕ) (q : Req) (more : List UInt8) : Bool → Conn → Prop
  | part {c : Conn} {content lead : List UInt8} (h : Recv ses cap c content) (hl : Spaces lead)
      (hfit : lead.length + q.head.length < cap) (hn : NulFree (lead ++ (q.head ++ (q.body ++ more))))
      (hsplit : content ++ c.stream = lead ++ (q.head ++ (q.body ++ more)))
      (hpart : content.length < lead.length + q.head.length) : Ready ses cap q more false c
  | whole {c : Conn} {pl lead : List UInt8} (h : Busy ses cap c pl) (hl : Spaces lead) (hblock : c.rxbuf = lead ++ q.head)
      (hsplit : pl ++ c.stream = q.body ++ more) : Ready ses cap q more true c

/-- The session goes on to the next request. -/
theorem Busy.reinit (h : Busy ses cap c pl) : ∃ c' c'', wsReset c ses = .ok c' ∧ htcReinit c' = htcComplete c'' ∧
    Recv ses cap c'' pl ∧ c''.stream = c.stream := by
  have hroom := h.room
  have hfits := h.fits
  have hreset : wsReset c ses = .ok { c with f := ses } := by
    unfold wsReset
    rw [if_neg]
    rintro (hr | hle)
    · exact hr h.r
    · omega
  obtain ⟨c'', hc'', h'', hs''⟩ := htcReinit_spec h
  exact ⟨_, c'', hreset, hc'', h'', hs''⟩

/-- One request. -/
theorem request_spec (p : Plan) {q : Req} {done : Bool} (hh : IsHead q.head) (h : Ready ses cap q more done c) :
    ∃ block c' pl, request p done q.body.length c = .ok ((block, q.body), c') ∧ stripLead block = q.head ∧ Busy ses cap c' pl ∧
      pl ++ c'.stream = more := by
  have hrecv : ∃ c1 pl lead, nextHead p done c = .ok c1 ∧ Spaces lead ∧
      c1.rxbuf = lead ++ q.head ∧ Busy ses cap c1 pl ∧ pl ++ c1.stream = q.body ++ more := by
    cases h with
    | part h hl hfit hn hsplit hpart => exact receive_spec p h hl hh hfit hn hsplit hpart (Nat.lt_succ_self _)
    | whole h hl hblock hsplit => exact ⟨c, _, _, rfl, hl, hblock, h, hsplit⟩
  obtain ⟨c1, pl1, lead, hc1, hl, hblock, h1, hs1⟩ := hrecv
  obtain ⟨c2, hc2, h2, hs2, -⟩ := work_spec (p.work c1.reads) h1
  obtain ⟨c3, pl3, hc3, h3, hs3⟩ := readBody_spec p h2 (hs2 ▸ hs1) (Nat.le_refl _)
  obtain ⟨c4, hc4, h4, hs4, -⟩ := work_spec (p.work c3.reads) h3
  refine ⟨c1.rxbuf, c4, pl3, ?_, ?_, h4, hs4.symm ▸ hs3⟩
  · unfold request
    rw [hc1]
    show ((p.work c1.reads).foldlM wsAlloc c1 >>= _) = _
    rw [hc2]
    show (readBody p q.body.length q.body.length c2 >>= _) = _
    rw [hc3]
    show ((p.work c3.reads).foldlM wsAlloc c3 >>= _) = _
    rw [hc4]
    rfl
  · rw [hblock]
    exact stripLead_block hl hh

def streamOf (qs : List Req) (tail : List UInt8) : List UInt8 := (qs.map Req.bytes).flatten ++ tail

theorem nulFree_append {a b : List UInt8} : NulFree (a ++ b) ↔ NulFree a ∧ NulFree b := List.forall_mem_append

theorem nulFree_streamOf {qs : List Req} {tail : List UInt8} (hqs : ∀ q ∈ qs, q.Ok cap) (htail : NulFree tail) :
    NulFree (streamOf qs tail) := by
  refine nulFree_append.mpr ⟨fun b hb => ?_, htail⟩
  obtain ⟨l, hl, hb⟩ := List.mem_flatten.mp hb
  obtain ⟨x, hx, rfl⟩ := List.mem_map.mp hl
  exact (hqs x hx).nul b hb

theorem Req.Ok.nul_append {q : Req} (hq : q.Ok cap) (hn : NulFree more) : NulFree (q.lead ++ (q.head ++ (q.body ++ more))) := by
  have := nulFree_append.mpr ⟨hq.nul, hn⟩
  simpa only [Req.bytes, List.append_assoc] using this

/-- `HTC_Complete` at the beginning of a request. -/
theorem ready_of_recv {q : Req} (h : Recv ses cap c content) (hq : q.Ok cap) (hn : NulFree more)
    (hsplit : content ++ c.stream = q.bytes ++ more) :
    ∃ done c', htcComplete c = .ok (done, c') ∧ Ready ses cap q more done c' := by
  have hsplit' : content ++ c.stream = q.lead ++ (q.head ++ (q.body ++ more)) := by simpa [Req.bytes] using hsplit
  have hfit := hq.fits
  rcases settle h hq.lead hq.head (hq.nul_append hn) hsplit' with ⟨c1, pl, hc1, hblock, h1, hmore⟩ |
    ⟨c1, content1, lead1, hc1, h1, hl1, hle1, hsplit1, hpart1, -, hn1⟩
  · exact ⟨true, c1, hc1, .whole h1 hq.lead hblock hmore⟩
  · exact ⟨false, c1, hc1, .part h1 hl1 (by omega) hn1 hsplit1 hpart1⟩

/-- All the requests. -/
theorem requests_spec (p : Plan) {q : Req} {qs : List Req} {tail : List UInt8} {done : Bool} (hq : q.Ok cap)
    (hqs : ∀ q ∈ qs, q.Ok cap) (htail : NulFree tail) (h : Ready ses cap q (streamOf qs tail) done c) :
    ∃ outs, requests p ses done ((q :: qs).map fun q => q.body.length) c = .ok outs ∧
      outs.map (fun o => (stripLead o.1, o.2)) = (q :: qs).map fun q => (q.head, q.body) := by
  induction qs generalizing c q done with
  | nil =>
    obtain ⟨block, c1, pl, hc1, hblock, h1, hs1⟩ := request_spec p hq.head h
    obtain ⟨c2, c3, hc2, hc3, h3, hs3⟩ := h1.reinit
    have hcomp : ∃ done c4, htcComplete c3 = .ok (done, c4) := by
      by_cases hi : (htcHeaderComplete (chars pl)).1 = 0
      · obtain ⟨c4, hc4, -⟩ := htcComplete_more h3 hi
        exact ⟨false, c4, hc4⟩
      · obtain ⟨c4, hc4, -⟩ := htcComplete_done h3 rfl hi
        exact ⟨true, c4, hc4⟩
    obtain ⟨done4, c4, hc4⟩ := hcomp
    refine ⟨[(block, q.body)], ?_, ?_⟩
    · show (request p done q.body.length c >>= _) = _
      rw [hc1]
      show (wsReset c1 ses >>= _) = _
      rw [hc2]
      show (htcReinit c2 >>= _) = _
      rw [hc3, hc4]
      rfl
    · simp only [List.map_cons, List.map_nil, hblock]
  | cons q' qs ih =>
    obtain ⟨block, c1, pl, hc1, hblock, h1, hs1⟩ := request_spec p hq.head h
    obtain ⟨c2, c3, hc2, hc3, h3, hs3⟩ := h1.reinit
    have hq' : q'.Ok cap := hqs q' List.mem_cons_self
    have hqs' : ∀ q ∈ qs, q.Ok cap := fun q hq => hqs q (List.mem_cons_of_mem _ hq)
    have hsplit : pl ++ c3.stream = q'.bytes ++ streamOf qs tail := by
      rw [hs3, hs1]
      simp [streamOf]
    obtain ⟨done4, c4, hc4, h4⟩ := ready_of_recv h3 hq' (nulFree_streamOf hqs' htail) hsplit
    obtain ⟨outs, houts, hmap⟩ := ih hq' hqs' h4
    refine ⟨(block, q.body) :: outs, ?_, ?_⟩
    · show (request p done q.body.length c >>= _) = _
      rw [hc1]
      show (wsReset c1 ses >>= _) = _
      rw [hc2]
      show (htcReinit c2 >>= _) = _
      rw [hc3, hc4]
      show (requests p ses done4 ((q' :: qs).map fun q => q.body.length) c4 >>= _) = _
      rw [houts]
      rfl
    · rw [List.map_cons, hmap, hblock]
      rfl

/-- **Receiving requests**: for every stream of requests whose header blocks fit into the buffer, and every plan, the session gets
the header blocks and the bodies that were sent; no assertion fails and no NUL is written outside of the buffer. -/
theorem serve_eq (p : Plan) (mem : Mem) (size ses : ℕ) (qs : List Req) (tail : List UInt8) (hses : ses + size / 2 ≤ size)
    (hsize : 2 ≤ size) (hqs : ∀ q ∈ qs, q.Ok (size / 2)) (htail : NulFree tail) :
    ∃ outs, serve p mem size ses (qs.map fun q => q.body.length) (streamOf qs tail) = .ok outs ∧
      outs.map (fun o => (stripLead o.1, o.2)) = qs.map fun q => (q.head, q.body) := by
  obtain ⟨c, hc, h, hs⟩ := htcInit_spec (c := ⟨mem, size, ses, none, 0, 0, none, streamOf qs tail, 0⟩)
    (show size / 2 = size / 2 from rfl) (by omega) (show ses = ses from rfl) rfl hses
  have hserve : serve p mem size ses (qs.map fun q => q.body.length) (streamOf qs tail) =
      requests p ses false (qs.map fun q => q.body.length) c := by
    unfold serve
    rw [hc]
    rfl
  rw [hserve]
  cases qs with
  | nil => exact ⟨[], rfl, rfl⟩
  | cons q qs =>
    have hq : q.Ok (size / 2) := hqs q List.mem_cons_self
    have hqs' : ∀ q ∈ qs, q.Ok (size / 2) := fun q hq => hqs q (List.mem_cons_of_mem _ hq)
    have hn := hq.nul_append (nulFree_streamOf hqs' htail)
    refine requests_spec p hq hqs' htail (.part h hq.lead hq.fits hn ?_ ?_)
    · rw [List.nil_append, hs]
      simp [streamOf, Req.bytes]
    · have := two_le_headerEnd hq.head.2
      rw [List.length_nil]
      omega

/-- A request with a body, behind an empty line. -/
def postReq : Req where
  lead := [13, 10]
  head := [80, 32, 47, 10, 10]
  body := [97, 13, 10, 98]

def getReq : Req where
  lead := []
  head := [71, 32, 47, 13, 10, 13, 10]
  body := []

/-- Every `read` gets three bytes, the body is asked for as a whole, and something is stored in the workspace meanwhile. -/
def threePlan : Plan where
  cut := fun _ => 2
  want := fun _ => 9
  look := fun n => n % 2 = 0
  work := fun _ => [[1, 2, 3]]

theorem postReq_ok : postReq.Ok 20 where
  lead := by decide +kernel
  head := ⟨by simp [postReq, char, isspace], by decide +kernel⟩
  fits := by decide
  nul := by decide +kernel

theorem getReq_ok : getReq.Ok 20 where
  lead := by decide +kernel
  head := ⟨by simp [getReq, char, isspace], by decide +kernel⟩
  fits := by decide
  nul := by decide +kernel

theorem serve_eq_pipelined :
    ∃ outs, serve threePlan (fun _ => 7) 40 5 [4, 0] [13, 10, 80, 32, 47, 10, 10, 97, 13, 10, 98, 71, 32, 47, 13, 10, 13, 10] = .ok outs ∧
      outs.map (fun o => (stripLead o.1, o.2)) = [([80, 32, 47, 10, 10], [97, 13, 10, 98]), ([71, 32, 47, 13, 10, 13, 10], [])] :=
  serve_eq threePlan (fun _ => 7) 40 5 [postReq, getReq] [] (by decide) (by decide)
    (List.forall_mem_cons.mpr ⟨postReq_ok, List.forall_mem_singleton.mpr getReq_ok⟩) (fun _ h => absurd h List.not_mem_nil)

end Requests

end Varnish.Http
