import Mathlib.Data.PNat.Notation
import Varnish.Http.Body

/-!
# Varnish.Http.Account — the accounts of a body (`fetch_straight`, `fetch_chunked`, `fetch_eof`, `FetchBody`)

What the storage segments hold is left to the modules before; here are their lengths, `obj->len`, and what fails.  `Varnish.Http.Tally`
shows that the embeddings agree.

* `fetchBody`: the function, where each `HTC_Read` may get any part of the stream or an error, and each `STV_alloc` any space.
* `Post`: what holds of a computation when it is done, by how it ends.
* `Accounted`: what should be left behind.
* `accounted_iff`: it is if and only if the body `Fits` into an `unsigned`.
-/

namespace Varnish.Http.Account

open Varnish.Ban Varnish.Lib

/-! ## The functions -/

section Functions

structure Storage where
  len : ℕ
  space : ℕ
deriving DecidableEq

/-- Parameters of a fetch: how much each `read` gets, and the space of each `STV_alloc`, which may also find none. -/
structure Env where
  cut : ℕ → ℕ
  stv : ℕ → ℕ → Option ℕ+
  chunksize : ℕ
  fetchfrag : ℕ

/-- What comes from the backend; at the end of the stream there is an error if it is `broken`. -/
structure Wire where
  stream : List UInt8
  broken : Bool
  reads : ℕ

/-- The results of `HTC_Read`, where `none` is -1. -/
def htcRead (env : Env) (w : Wire) (len : ℕ) : Option (List UInt8) × Wire :=
  if len = 0 then (some [], w)
  else if w.stream = [] then (if w.broken then none else some [], w)
  else
    let n := min len (1 + env.cut w.reads)
    (some (w.stream.take n), { w with stream := w.stream.drop n, reads := w.reads + 1 })

/-- The storage of the object with `st` behind the others, `obj->len`, and the calls of `STV_alloc`. -/
structure Work where
  full : List Storage
  st : Option Storage
  len : ℕ
  wire : Wire
  allocs : ℕ

def Work.store (s : Work) : List Storage := s.full ++ s.st.toList

/-- How a function ends early: it returns -1, `Content-Length` is too large, there is no storage, or the accounts are wrong. -/
inductive Stop
  | minus1 (s : Work)
  | tooLarge
  | noStorage
  | accounts
  | fuel

def Work.read (env : Env) (len : ℕ) (s : Work) : Option (List UInt8) × Work :=
  ((htcRead env s.wire len).1, { s with wire := (htcRead env s.wire len).2 })

/-- `STV_alloc`, and the segment goes behind the others. -/
def Work.alloc (env : Env) (size : ℕ) (s : Work) : Except Stop Work :=
  match env.stv s.allocs size with
  | none => .error .noStorage
  | some space => .ok { s with full := s.store, st := some ⟨0, space⟩, allocs := s.allocs + 1 }

/-- `st->len += n; sp->obj->len += n` -/
def Work.add (n : ℕ) (s : Work) : Work :=
  { s with st := s.st.map fun t => { t with len := t.len + n }, len := (s.len + n) % 2 ^ 32 }

/-- `st->space - st->len` -/
def Work.room (s : Work) : ℕ := s.st.elim 0 fun t => t.space - t.len

/-- The loops `while (sl > 0)` and `while (v > 0)`, in which what is read goes to `st`. -/
def fill (env : Env) : (fuel v : ℕ) → Work → Except Stop Work
  | 0, v, s => if v = 0 then .ok s else .error .fuel
  | fuel + 1, v, s =>
    if v = 0 then .ok s
    else
      match s.read env v with
      | (some (b :: bs), s) => fill env fuel (v - (b :: bs).length) (s.add (b :: bs).length)
      | (_, s) => .error (.minus1 s)

/-- The loop of `fetch_straight`. -/
def straightLoop (env : Env) : (fuel cl : ℕ) → Work → Except Stop Work
  | 0, cl, s => if cl = 0 then .ok s else .error .fuel
  | fuel + 1, cl, s =>
    if cl = 0 then .ok s
    else do
      let s ← s.alloc env cl
      let sl := min s.room cl
      let s ← fill env sl sl s
      straightLoop env fuel (cl - sl) s

def fetchStraight (env : Env) (b : Str) (s : Work) : Except Stop Work :=
  let cll := strtoumax 0 b
  if cll = 0 then .ok s
  else
    let cl := cll % 2 ^ 32
    if cl ≠ cll then .error .tooLarge else straightLoop env cl cl s

/-- A size line is read to the buffer, which has room for `room` more characters. -/
def readLine (env : Env) : (room : ℕ) → (buf : List UInt8) → Work → Except Stop (ℕ × List UInt8 × Work)
  | room, buf, s =>
    match sizeLine buf with
    | some (u, left) => .ok (u, left, s)
    | none =>
      match room with
      | 0 => .error (.minus1 s)
      | room + 1 =>
        match s.read env 1 with
        | (some (b :: bs), s) => readLine env room (buf ++ b :: bs) s
        | (_, s) => .error (.minus1 s)

/-- Storage, if there is none or it is full. -/
def getStorage (env : Env) (u : ℕ) (s : Work) : Except Stop Work :=
  let v := if u < env.chunksize * 1024 % 2 ^ 32 then env.chunksize * 1024 % 2 ^ 32 else u
  match s.st with
  | none => s.alloc env v
  | some t => if t.len = t.space then s.alloc env v else .ok s

/-- `while (u > 0)`: one chunk, first what is left in the buffer. -/
def storeChunk (env : Env) : (fuel u : ℕ) → (left : List UInt8) → Work → Except Stop (List UInt8 × Work)
  | 0, u, left, s => if u = 0 then .ok (left, s) else .error .fuel
  | fuel + 1, u, left, s =>
    if u = 0 then .ok (left, s)
    else do
      let s ← getStorage env u s
      let v := min s.room u
      let w := min left.length v
      let s ← fill env (v - w) (v - w) (if w = 0 then s else s.add w)
      storeChunk env fuel (u - v) (left.drop w) s

/-- The loop of `fetch_chunked`. -/
def chunkedLoop (env : Env) : (fuel : ℕ) → (buf : List UInt8) → Work → Except Stop Work
  | 0, _, _ => .error .fuel
  | fuel + 1, buf, s => do
    let (u, left, s) ← readLine env (19 - buf.length) buf s
    if u = 0 then .ok s
    else
      let (buf, s) ← storeChunk env u u left s
      chunkedLoop env fuel buf s

/-- The last segment is taken off and freed if it is empty; otherwise `STV_trim` gives back what is behind the data. -/
def Work.finish (s : Work) : Work :=
  match s.st with
  | none => s
  | some t => if t.len = 0 then { s with st := none } else s

def fetchChunked (env : Env) (s : Work) : Except Stop Work := (chunkedLoop env (s.wire.stream.length + 1) [] s).map Work.finish

/-- How much `fetch_eof` uses of a new segment. -/
def fragment (env : Env) (s : Work) : ℕ := if 0 < env.fetchfrag then min s.room env.fetchfrag else s.room

/-- `if (v == 0)`: a new segment, where `st` is not used for more bytes. -/
def eofSegment (env : Env) (v : ℕ) (s : Work) : Except Stop (Work × ℕ) :=
  if v = 0 then (s.alloc env (env.chunksize * 1024)).map fun s => (s, fragment env s) else .ok (s, v)

/-- The loop of `fetch_eof`; `st` is used for `v` more bytes. -/
def eofLoop (env : Env) : (fuel v : ℕ) → Work → Except Stop Work
  | 0, _, _ => .error .fuel
  | fuel + 1, v, s => do
    let (s, v) ← eofSegment env v s
    match s.read env v with
    | (none, s) => .error (.minus1 s)
    | (some [], s) => .ok s
    | (some (b :: bs), s) => eofLoop env fuel (v - (b :: bs).length) (s.add (b :: bs).length)

def fetchEof (env : Env) (s : Work) : Except Stop Work := (eofLoop env (s.wire.stream.length + 1) 0 s).map Work.finish

/-- What becomes of the connection. -/
inductive Vbe
  | closed
  | recycled
deriving DecidableEq

/-- What `FetchBody` leaves: if it returns 0, the storage of the object and its length, the connection, and the `Content-Length` that
it makes. -/
structure Ret where
  zero : Bool
  store : List Storage
  len : ℕ
  vbe : Vbe
  mklen : Option ℕ

def lengths : List Storage → ℕ
  | [] => 0
  | t :: ts => t.len + lengths ts

/-- `cls` and `mklen`, and the storage; a bad `Transfer-Encoding` does not come here. -/
def readByBranch (env : Env) (s : Work) : Branch → Except Stop (Bool × Bool × Work)
  | .head => .ok (false, false, s)
  | .length b => (fetchStraight env b s).map fun s => (false, true, s)
  | .chunked => (fetchChunked env s).map fun s => (false, true, s)
  | .bad => .ok (false, false, s)
  | .keepAlive => .ok (false, true, s)
  | .close => (fetchEof env s).map fun s => (true, true, s)
  | .oldhttp => (fetchEof env s).map fun s => (true, true, s)
  | .zero => .ok (false, true, s)

/-- The end of `FetchBody`. -/
def epilogue (r : Response) : Except Stop (Bool × Bool × Work) → Except Stop Ret
  -- every segment is taken off the list and freed
  | .error (.minus1 _) => .ok ⟨false, [], 0, .closed, none⟩
  | .error e => .error e
  | .ok (cls, mklen, s) =>
    if lengths s.store % 2 ^ 32 ≠ s.len then .error .accounts
    else
      let cls := cls || httpHdrIs r.http hConnection "close".toList
      let cls := cls || (r.old && !httpHdrIs r.http hConnection "keep-alive".toList)
      .ok ⟨true, s.store, s.len, if cls then .closed else .recycled, if mklen then some s.len else none⟩

/-- `FetchBody`, for a new object. -/
def fetchBody (env : Env) (method : Str) (r : Response) (w : Wire) : Except Stop Ret :=
  match branch method r with
  | .bad => .ok ⟨false, [], 0, .closed, none⟩
  | b => epilogue r (readByBranch env ⟨[], none, 0, w, 0⟩ b)

end Functions

/-! ## What should be left -/

section Spec

/-- After a success the length is that of the segments, none of which is empty; after a failure nothing is left, and the connection is
closed. -/
def Accounted (ret : Ret) : Prop :=
  (ret.zero = true → ret.len = lengths ret.store ∧ ∀ t ∈ ret.store, t.len ≠ 0) ∧
    (ret.zero = false → ret.len = 0 ∧ ret.store = [] ∧ ret.vbe = .closed)

/-- An `unsigned` holds the length of the body, if it is chunked and complete, or ends with the connection. -/
def Fits (method : Str) (r : Response) (w : Wire) : Prop :=
  match branch method r with
  | .chunked => ∀ d tail, decode (w.stream.length + 1) w.stream = some (d, tail) → d.length < 2 ^ 32
  | .close => w.broken = false → w.stream.length < 2 ^ 32
  | .oldhttp => w.broken = false → w.stream.length < 2 ^ 32
  | _ => True

end Spec

/-! ## How a computation ends -/

section Post

variable {α β : Type} {env : Env} {bad bad' : Prop} {Q Q' : α → Prop} {R : β → Prop} {x : Except Stop α} {f : α → Except Stop β}

/-- It returns -1 where `bad` holds, or there is no storage. -/
def Stop.Only (env : Env) (bad : Prop) : Stop → Prop
  | .minus1 _ => bad
  | .noStorage => ∃ j v, env.stv j v = none
  | _ => False

/-- It ends with `Q`, or as is allowed. -/
def Post (env : Env) (bad : Prop) (Q : α → Prop) : Except Stop α → Prop
  | .ok a => Q a
  | .error e => e.Only env bad

theorem Stop.Only.mono {e : Stop} (h : e.Only env bad) (hb : bad → bad') : e.Only env bad' := by
  cases e with
  | minus1 s => exact hb h
  | noStorage => exact h
  | tooLarge => exact h
  | accounts => exact h
  | fuel => exact h

theorem Post.mono (h : Post env bad Q x) (hb : bad → bad') (hq : ∀ a, Q a → Q' a) : Post env bad' Q' x := by
  cases x with
  | ok a => exact hq a h
  | error e => exact Stop.Only.mono h hb

theorem Post.bind (h : Post env bad Q x) (hf : ∀ a, Q a → Post env bad R (f a)) : Post env bad R (x >>= f) := by
  cases x with
  | ok a => exact hf a h
  | error e => exact h

theorem Post.map {g : α → β} (h : Post env bad Q x) (hg : ∀ a, Q a → R (g a)) : Post env bad R (x.map g) := by
  cases x with
  | ok a => exact hg a h
  | error e => exact h

end Post

/-! ## Storage -/

section Store

variable {env : Env} {s : Work} {n k len : ℕ} {t : Storage}

theorem lengths_append (ts us : List Storage) : lengths (ts ++ us) = lengths ts + lengths us := by
  induction ts with
  | nil => exact (Nat.zero_add _).symm
  | cons t ts ih => rw [List.cons_append, lengths, lengths, ih, Nat.add_assoc]

/-- `n` bytes are stored; all segments but the last one have some. -/
structure Work.Has (s : Work) (n : ℕ) : Prop where
  len : s.len = n % 2 ^ 32
  sum : lengths s.store = n
  pos : ∀ t ∈ s.full, t.len ≠ 0
  room : ∀ t ∈ s.st, t.len ≤ t.space

/-- The last segment has some too. -/
def Work.Used (s : Work) : Prop := ∀ t ∈ s.st, t.len ≠ 0

theorem Work.Has.wire (h : s.Has n) (w : Wire) : Work.Has { s with wire := w } n := ⟨h.len, h.sum, h.pos, h.room⟩

theorem Work.store_of (hst : s.st = some t) : s.store = s.full ++ [t] := by
  rw [Work.store, hst]
  rfl

theorem Work.room_of (hst : s.st = some t) : s.room = t.space - t.len := by
  rw [Work.room, hst]
  rfl

theorem Work.add_st (hst : s.st = some t) : (s.add k).st = some ⟨t.len + k, t.space⟩ := by
  rw [Work.add, hst]
  rfl

theorem Work.Has.add (h : s.Has n) (hst : s.st = some t) (hk : k ≤ s.room) : (s.add k).Has (n + k) := by
  have hroom := h.room t hst
  rw [Work.room_of hst] at hk
  refine ⟨?_, ?_, h.pos, fun u hu => ?_⟩
  · show (s.len + k) % 2 ^ 32 = (n + k) % 2 ^ 32
    rw [h.len, Nat.mod_add_mod]
  · have hsum := h.sum
    rw [Work.store_of hst, lengths_append] at hsum
    rw [Work.store_of (Work.add_st hst), lengths_append, ← hsum, Nat.add_assoc]
    rfl
  · rw [Work.add_st hst] at hu
    cases hu
    show t.len + k ≤ t.space
    omega

/-- A new segment. -/
theorem alloc_spec (size : ℕ) (h : s.Has n) (hu : s.Used) (bad : Prop) :
    Post env bad (fun s' => s'.Has n ∧ s'.wire = s.wire ∧ ∃ t, s'.st = some t ∧ t.len < t.space) (s.alloc env size) := by
  unfold Work.alloc
  cases hv : env.stv s.allocs size with
  | none => exact ⟨_, _, hv⟩
  | some space =>
    refine ⟨⟨h.len, ?_, fun t ht => ?_, fun t ht => ?_⟩, rfl, _, rfl, space.pos⟩
    · show lengths (s.store ++ [⟨0, space⟩]) = n
      rw [lengths_append, h.sum]
      rfl
    · obtain ht | ht := List.mem_append.1 ht
      · exact h.pos t ht
      · exact hu t (Option.mem_toList.1 ht)
    · cases ht
      exact Nat.zero_le _

/-- The end of `fetch_chunked` and `fetch_eof`: no segment is empty. -/
theorem Work.Has.finish (h : s.Has n) : s.finish.Has n ∧ s.finish.Used := by
  unfold Work.finish
  cases hst : s.st with
  | none => exact ⟨h, fun t ht => by rw [hst] at ht; cases ht⟩
  | some t =>
    dsimp only
    split
    next hz =>
      refine ⟨⟨h.len, ?_, h.pos, fun u hu => by cases hu⟩, fun u hu => by cases hu⟩
      have hsum := h.sum
      rw [Work.store_of hst, lengths_append] at hsum
      rw [← hsum]
      show lengths (s.full ++ []) = lengths s.full + (t.len + 0)
      rw [hz, List.append_nil]
      rfl
    next hz =>
      refine ⟨h, fun u hu => ?_⟩
      rw [hst] at hu
      cases hu
      exact hz

theorem Work.Has.mem_store (h : s.Has n) (hu : s.Used) : ∀ t ∈ s.store, t.len ≠ 0 := by
  intro t ht
  obtain ht | ht := List.mem_append.1 ht
  · exact h.pos t ht
  · exact hu t (Option.mem_toList.1 ht)

/-! ### Reading -/

theorem read_end (hs : s.wire.stream = []) (hlen : 0 < len) : s.read env len = (if s.wire.broken then none else some [], s) := by
  unfold Work.read htcRead
  rw [if_neg (Nat.ne_of_gt hlen), if_pos hs]

theorem read_some (env : Env) (hs : s.wire.stream ≠ []) (hlen : 0 < len) : ∃ b bs w, s.read env len = (some (b :: bs), { s with wire := w }) ∧
    (b :: bs).length ≤ len ∧ s.wire.stream = (b :: bs) ++ w.stream ∧ w.broken = s.wire.broken := by
  obtain ⟨b, S, hS⟩ := List.exists_cons_of_ne_nil hs
  obtain ⟨m, hm⟩ : ∃ m, min len (1 + env.cut s.wire.reads) = m + 1 := ⟨min len (1 + env.cut s.wire.reads) - 1, by omega⟩
  refine ⟨b, S.take m, ⟨S.drop m, s.wire.broken, s.wire.reads + 1⟩, ?_, ?_, ?_, rfl⟩
  · unfold Work.read htcRead
    rw [if_neg (Nat.ne_of_gt hlen), if_neg hs]
    simp only [hm, hS, List.take_succ_cons, List.drop_succ_cons]
  · rw [List.length_cons, List.length_take]
    omega
  · rw [hS, List.cons_append, List.take_append_drop]

/-- After so many bytes more the last segment is used. -/
theorem used_of_st {k space : ℕ} (hst : s.st = some ⟨t.len + k, space⟩) (hk : 0 < k) : s.Used := by
  intro u hu
  rw [hst] at hu
  cases hu
  show t.len + k ≠ 0
  omega

/-- `k` bytes of at most `len` were read to the segment `t`. -/
structure Added (s : Work) (t : Storage) (n len k : ℕ) (s' : Work) : Prop where
  pos : 0 < k
  le : k ≤ len
  has : s'.Has (n + k)
  st : s'.st = some ⟨t.len + k, t.space⟩
  room : len - k ≤ s'.room
  length : s.wire.stream.length = k + s'.wire.stream.length
  stream : s'.wire.stream = s.wire.stream.drop k
  broken : s'.wire.broken = s.wire.broken

/-- A read that is added to `st`. -/
theorem read_added (env : Env) (h : s.Has n) (hst : s.st = some t) (hs : s.wire.stream ≠ []) (hlen : 0 < len) (hroom : len ≤ s.room) :
    ∃ b bs w, s.read env len = (some (b :: bs), { s with wire := w }) ∧
      Added s t n len (b :: bs).length (Work.add (b :: bs).length { s with wire := w }) := by
  obtain ⟨b, bs, w, hread, hle, hsplit, hbr⟩ := read_some env hs hlen
  have hst1 : ({ s with wire := w } : Work).st = some t := hst
  have hlength := congrArg List.length hsplit
  rw [List.length_append] at hlength
  refine ⟨b, bs, w, hread, Nat.succ_pos _, hle, (h.wire w).add hst1 (hle.trans hroom), Work.add_st hst1, ?_, hlength, ?_, hbr⟩
  · rw [Work.room_of hst] at hroom
    rw [Work.room_of (Work.add_st hst1)]
    show _ ≤ t.space - (t.len + (b :: bs).length)
    omega
  · show w.stream = _
    rw [hsplit, List.drop_left]

/-- What is read to `st`. -/
theorem fill_spec {fuel v : ℕ} (h : s.Has n) (hst : s.st = some t) (hv : v ≤ s.room) (hfuel : v ≤ fuel) :
    Post env (s.wire.stream.length < v) (fun s' => v ≤ s.wire.stream.length ∧ s'.Has (n + v) ∧ s'.st = some ⟨t.len + v, t.space⟩ ∧
      s'.wire.stream = s.wire.stream.drop v ∧ s'.wire.broken = s.wire.broken) (fill env fuel v s) := by
  induction fuel generalizing v s n t with
  | zero =>
    obtain rfl := Nat.le_zero.1 hfuel
    exact ⟨Nat.zero_le _, h, hst, rfl, rfl⟩
  | succ fuel ih =>
    rw [fill]
    by_cases hz : v = 0
    · subst hz
      exact ⟨Nat.zero_le _, h, hst, rfl, rfl⟩
    · rw [if_neg hz]
      by_cases hs : s.wire.stream = []
      · have hlt : s.wire.stream.length < v := by
          rw [hs]
          exact Nat.pos_of_ne_zero hz
        rw [read_end hs (Nat.pos_of_ne_zero hz)]
        split
        next heq =>
          split at heq
          · cases heq
          · cases heq
        · exact hlt
      · obtain ⟨b, bs, w, hread, hadd⟩ := read_added env h hst hs (Nat.pos_of_ne_zero hz) hv
        rw [hread]
        have hpos := hadd.pos
        have hlength := hadd.length
        refine (ih hadd.has hadd.st hadd.room (by omega)).mono (fun hlt => by omega) fun s' hs' => ?_
        obtain ⟨hle', hhas, hst', hw, hbr'⟩ := hs'
        refine ⟨by omega, ?_, ?_, ?_, hbr'.trans hadd.broken⟩
        · rwa [Nat.add_assoc, Nat.add_sub_cancel' hadd.le] at hhas
        · rwa [Nat.add_assoc, Nat.add_sub_cancel' hadd.le] at hst'
        · rw [hw, hadd.stream, List.drop_drop, Nat.add_sub_cancel' hadd.le]

end Store

/-! ## The three ways -/

section Ways

variable {env : Env} {s : Work} {n : ℕ}

/-- A new segment, and what is read to it. -/
theorem straightLoop_spec {fuel cl : ℕ} (h : s.Has n) (hu : s.Used) (hcl : cl ≤ fuel) :
    Post env True (fun s' => s'.Has (n + cl) ∧ s'.Used) (straightLoop env fuel cl s) := by
  induction fuel generalizing cl s n with
  | zero =>
    obtain rfl := Nat.le_zero.1 hcl
    exact ⟨h, hu⟩
  | succ fuel ih =>
    rw [straightLoop]
    by_cases hz : cl = 0
    · subst hz
      exact ⟨h, hu⟩
    · rw [if_neg hz]
      refine Post.bind (alloc_spec cl h hu True) fun s1 hs1 => ?_
      obtain ⟨h1, -, t, hst, hlt⟩ := hs1
      have hpos : 0 < min s1.room cl := by
        rw [Work.room_of hst]
        omega
      refine Post.bind ((fill_spec h1 hst (Nat.min_le_left _ _) le_rfl).mono (fun _ => trivial) fun s' hs' => hs') fun s2 hs2 => ?_
      obtain ⟨-, h2, hst2, -, -⟩ := hs2
      have hu2 := used_of_st hst2 hpos
      have hfuel : cl - min s1.room cl ≤ fuel := by omega
      have hloop := ih h2 hu2 hfuel
      rwa [Nat.add_assoc, Nat.add_sub_cancel' (Nat.min_le_right _ _)] at hloop

theorem fetchStraight_spec (env : Env) (b : Str) (h : s.Has 0) (hu : s.Used) :
    (2 ^ 32 ≤ strtoumax 0 b ∧ fetchStraight env b s = .error .tooLarge) ∨
    Post env True (fun s' => ∃ n, n < 2 ^ 32 ∧ s'.Has n ∧ s'.Used) (fetchStraight env b s) := by
  unfold fetchStraight
  dsimp only
  generalize strtoumax 0 b = cll
  by_cases hz : cll = 0
  · rw [if_pos hz]
    exact .inr ⟨0, by decide, h, hu⟩
  · rw [if_neg hz]
    by_cases hne : cll % 2 ^ 32 ≠ cll
    · exact .inl ⟨Nat.le_of_not_lt fun hlt => hne (Nat.mod_eq_of_lt hlt), if_pos hne⟩
    · rw [if_neg hne]
      refine .inr ((straightLoop_spec h hu le_rfl).mono id fun s' hs' => ⟨_, ?_, hs'⟩)
      rw [Nat.zero_add]
      exact Nat.mod_lt _ (by decide)

theorem fragment_spec {t : Storage} (hst : s.st = some t) (hlt : t.len < t.space) : 0 < fragment env s ∧ fragment env s ≤ s.room := by
  unfold fragment
  rw [Work.room_of hst]
  split <;> omega

theorem exists_of_room (h : 0 < s.room) : ∃ t, s.st = some t := by
  unfold Work.room at h
  cases hst : s.st with
  | none =>
    rw [hst] at h
    cases h
  | some t => exact ⟨t, rfl⟩

/-- There is a new segment, or room in the one that is used. -/
theorem eofSegment_spec {v : ℕ} {bad : Prop} (h : s.Has n) (hu : v = 0 → s.Used) (hv : v ≤ s.room) :
    Post env bad (fun x => x.1.Has n ∧ x.1.wire = s.wire ∧ 0 < x.2 ∧ x.2 ≤ x.1.room) (eofSegment env v s) := by
  unfold eofSegment
  by_cases hz : v = 0
  · rw [if_pos hz]
    refine (alloc_spec _ h (hu hz) _).map fun s1 hs1 => ?_
    obtain ⟨h1, hw, t, hst, hlt⟩ := hs1
    exact ⟨h1, hw, fragment_spec hst hlt⟩
  · rw [if_neg hz]
    exact ⟨h, rfl, Nat.pos_of_ne_zero hz, hv⟩

theorem eofLoop_spec {fuel v : ℕ} (h : s.Has n) (hu : v = 0 → s.Used) (hv : v ≤ s.room) (hfuel : s.wire.stream.length < fuel) :
    Post env (s.wire.broken = true) (fun s' => s.wire.broken = false ∧ s'.Has (n + s.wire.stream.length)) (eofLoop env fuel v s) := by
  induction fuel generalizing v s n with
  | zero => exact absurd hfuel (Nat.not_lt_zero _)
  | succ fuel ih =>
    rw [eofLoop]
    refine (eofSegment_spec h hu hv).bind fun x hs1 => ?_
    obtain ⟨s1, v1⟩ := x
    obtain ⟨h1, hw, hpos, hle⟩ := hs1
    dsimp only at h1 hw hpos hle ⊢
    rw [← hw] at hfuel ⊢
    obtain ⟨t, hst⟩ := exists_of_room (hpos.trans_le hle)
    by_cases hs : s1.wire.stream = []
    · rw [read_end hs hpos]
      cases hb : s1.wire.broken with
      | true => exact rfl
      | false =>
        refine ⟨rfl, ?_⟩
        rw [hs]
        exact h1
    · obtain ⟨b, bs, w, hread, hadd⟩ := read_added env h1 hst hs hpos hle
      rw [hread]
      have hlength := hadd.length
      have hused := used_of_st hadd.st hadd.pos
      have hlt := hadd.pos
      refine (ih hadd.has (fun _ => hused) hadd.room (by omega)).mono (fun hb => hadd.broken ▸ hb) fun s' hs' => ?_
      obtain ⟨hb, hhas⟩ := hs'
      refine ⟨hadd.broken ▸ hb, ?_⟩
      rwa [Nat.add_assoc, ← hlength] at hhas

/-- `fetch_eof` stores all there is, unless an error comes. -/
theorem fetchEof_spec (h : s.Has 0) (hu : s.Used) : Post env (s.wire.broken = true)
    (fun s' => s.wire.broken = false ∧ s'.Has s.wire.stream.length ∧ s'.Used) (fetchEof env s) := by
  refine (eofLoop_spec h (fun _ => hu) (Nat.zero_le _) (Nat.lt_succ_self _)).map fun s' hs' => ?_
  obtain ⟨hb, hhas⟩ := hs'
  rw [Nat.zero_add] at hhas
  exact ⟨hb, hhas.finish⟩

/-! ### Chunks -/

theorem readLine_spec (room : ℕ) (buf : List UInt8) (s : Work) : Post env (takeLine room buf s.wire.stream = none)
    (fun x => ∃ w, takeLine room buf s.wire.stream = some (x.1, x.2.1, w.stream) ∧ x.2.2 = { s with wire := w })
    (readLine env room buf s) := by
  induction room generalizing buf s with
  | zero =>
    rw [takeLine, readLine]
    cases hs : sizeLine buf with
    | none => exact rfl
    | some x => exact ⟨s.wire, rfl, rfl⟩
  | succ room ih =>
    unfold takeLine readLine
    cases hs : sizeLine buf with
    | some x => exact ⟨s.wire, rfl, rfl⟩
    | none =>
      dsimp only
      by_cases hstr : s.wire.stream = []
      · rw [read_end hstr Nat.one_pos, hstr]
        cases s.wire.broken with
        | true => exact rfl
        | false => exact rfl
      · obtain ⟨b, bs, w, hread, hlen, hsplit, -⟩ := read_some env hstr Nat.one_pos
        obtain rfl : bs = [] := List.length_eq_zero_iff.1 (Nat.le_zero.1 (Nat.le_of_succ_le_succ hlen))
        rw [hread, hsplit]
        refine (ih (buf ++ [b]) { s with wire := w }).mono id fun x hx => ?_
        obtain ⟨w', hline, he⟩ := hx
        exact ⟨w', hline, he⟩

theorem getStorage_spec (u : ℕ) {bad : Prop} (h : s.Has n) (hu : s.Used) :
    Post env bad (fun s' => s'.Has n ∧ s'.wire = s.wire ∧ ∃ t, s'.st = some t ∧ t.len < t.space) (getStorage env u s) := by
  unfold getStorage
  dsimp only
  split
  · exact alloc_spec _ h hu bad
  next t hst =>
    split
    · exact alloc_spec _ h hu bad
    next hne => exact ⟨h, rfl, t, hst, Nat.lt_of_le_of_ne (h.room t hst) hne⟩

/-- One chunk, where nothing is left in the buffer. -/
theorem storeChunk_spec {fuel u : ℕ} (h : s.Has n) (hu : s.Used) (hfuel : u ≤ fuel) :
    Post env (s.wire.stream.length < u) (fun x => u ≤ s.wire.stream.length ∧ x.1 = [] ∧ x.2.Has (n + u) ∧ x.2.Used ∧
      x.2.wire.stream = s.wire.stream.drop u) (storeChunk env fuel u [] s) := by
  induction fuel generalizing u s n with
  | zero =>
    obtain rfl := Nat.le_zero.1 hfuel
    exact ⟨Nat.zero_le _, rfl, h, hu, rfl⟩
  | succ fuel ih =>
    rw [storeChunk]
    by_cases hz : u = 0
    · subst hz
      exact ⟨Nat.zero_le _, rfl, h, hu, rfl⟩
    · rw [if_neg hz]
      refine (getStorage_spec u h hu).bind fun s1 hs1 => ?_
      obtain ⟨h1, hw, t, hst, hlt⟩ := hs1
      rw [← hw]
      dsimp only
      rw [List.length_nil, Nat.zero_min, if_pos rfl, Nat.sub_zero, List.drop_nil]
      have hle : min s1.room u ≤ u := Nat.min_le_right _ _
      have hpos : 0 < min s1.room u := by
        rw [Work.room_of hst]
        omega
      refine ((fill_spec h1 hst (Nat.min_le_left _ _) le_rfl).mono (fun hlt => hlt.trans_le hle) fun s' hs' => hs').bind
        fun s2 hs2 => ?_
      obtain ⟨hle2, h2, hst2, hstr2, -⟩ := hs2
      have hu2 := used_of_st hst2 hpos
      refine (ih h2 hu2 (show u - min s1.room u ≤ fuel by omega)).mono (fun hlt => ?_) fun x hx => ?_
      · rw [hstr2, List.length_drop] at hlt
        omega
      · obtain ⟨hle3, hx1, hhas, hux, hstr3⟩ := hx
        rw [hstr2, List.length_drop] at hle3
        refine ⟨by omega, hx1, ?_, hux, ?_⟩
        · rwa [Nat.add_assoc, Nat.add_sub_cancel' hle] at hhas
        · rw [hstr3, hstr2, List.drop_drop, Nat.add_sub_cancel' hle]

/-- A size line has a character. -/
theorem length_takeLine {S S' left : List UInt8} {u : ℕ} (h : takeLine 19 [] S = some (u, left, S')) : S'.length < S.length := by
  obtain ⟨-, line, rfl, -, hline⟩ := takeLine_line h
  cases line with
  | nil => cases hline
  | cons b line =>
    rw [List.length_append, List.length_cons]
    omega

theorem chunkedLoop_spec {fuel : ℕ} (h : s.Has n) (hu : s.Used) (hfuel : s.wire.stream.length < fuel) :
    Post env (decode fuel s.wire.stream = none)
      (fun s' => ∃ d tail, decode fuel s.wire.stream = some (d, tail) ∧ s'.Has (n + d.length)) (chunkedLoop env fuel [] s) := by
  induction fuel generalizing s n with
  | zero => exact absurd hfuel (Nat.not_lt_zero _)
  | succ fuel ih =>
    rw [chunkedLoop, decode]
    refine ((readLine_spec 19 [] s).mono (fun hnone => by rw [hnone]) fun x hx => hx).bind fun x hs1 => ?_
    obtain ⟨u, left, s1⟩ := x
    obtain ⟨w, hline, hs1⟩ := hs1
    dsimp only at hs1
    subst hs1
    dsimp only at hline ⊢
    obtain ⟨rfl, -⟩ := takeLine_line hline
    have hlt := length_takeLine hline
    rw [hline]
    dsimp only
    by_cases hz : u = 0
    · rw [if_pos hz, if_pos hz]
      exact ⟨[], w.stream, rfl, h.wire w⟩
    · rw [if_neg hz, if_neg hz]
      refine ((storeChunk_spec (h.wire w) hu le_rfl).mono (fun hlt => if_pos hlt) fun x hx => hx).bind fun x hs2 => ?_
      obtain ⟨buf, s2⟩ := x
      obtain ⟨hle, hbuf, h2, hu2, hstr⟩ := hs2
      dsimp only at hle hbuf h2 hu2 hstr ⊢
      subst hbuf
      have hlen := congrArg List.length hstr
      rw [List.length_drop] at hlen
      rw [if_neg (Nat.not_lt.2 hle)]
      refine (ih h2 hu2 (by omega)).mono (fun hnone => ?_) fun s' hs' => ?_
      · rw [← hstr, hnone]
        rfl
      · obtain ⟨d, tail, hd, hhas⟩ := hs'
        refine ⟨w.stream.take u ++ d, tail, by rw [← hstr, hd]; rfl, ?_⟩
        rwa [List.length_append, List.length_take, Nat.min_eq_left hle, ← Nat.add_assoc]

/-- `fetch_chunked` stores the data, if the chunks are complete. -/
theorem fetchChunked_spec (h : s.Has 0) (hu : s.Used) :
    Post env (decode (s.wire.stream.length + 1) s.wire.stream = none)
      (fun s' => ∃ d tail, decode (s.wire.stream.length + 1) s.wire.stream = some (d, tail) ∧ s'.Has d.length ∧ s'.Used)
      (fetchChunked env s) := by
  refine (chunkedLoop_spec h hu (Nat.lt_succ_self _)).map fun s' hs' => ?_
  obtain ⟨d, tail, hd, hhas⟩ := hs'
  rw [Nat.zero_add] at hhas
  exact ⟨d, tail, hd, hhas.finish⟩

end Ways

/-! ## `FetchBody` -/

section FetchBody

variable {env : Env} {method : Str} {r : Response} {w : Wire} {s : Work} {bad fits : Prop}

/-- What is left after a success, by the number of bytes. -/
theorem accounted_of_has {n : ℕ} {vbe : Vbe} {mklen : Option ℕ} (h : s.Has n) (hu : s.Used) :
    Accounted ⟨true, s.store, s.len, vbe, mklen⟩ ↔ n < 2 ^ 32 := by
  constructor
  · intro hacc
    have hlen := (hacc.1 rfl).1
    have hlen : s.len = lengths s.store := hlen
    rw [h.len, h.sum] at hlen
    rw [← hlen]
    exact Nat.mod_lt _ (by decide)
  · intro hn
    refine ⟨fun _ => ⟨?_, h.mem_store hu⟩, fun hf => (by cases hf)⟩
    show s.len = lengths s.store
    rw [h.len, h.sum, Nat.mod_eq_of_lt hn]

/-- The sanity check finds no error. -/
theorem epilogue_spec {x : Except Stop (Bool × Bool × Work)}
    (h : Post env bad (fun x => ∃ n, x.2.2.Has n ∧ x.2.2.Used ∧ (fits ↔ n < 2 ^ 32)) x) (hbad : bad → fits) :
    ((∃ j v, env.stv j v = none) ∧ epilogue r x = .error .noStorage) ∨ ∃ ret, epilogue r x = .ok ret ∧ (Accounted ret ↔ fits) := by
  cases x with
  | ok x =>
    obtain ⟨cls, mklen, s⟩ := x
    obtain ⟨n, hhas, hu, hfits⟩ := h
    have hhas : s.Has n := hhas
    have hcheck : ¬ lengths s.store % 2 ^ 32 ≠ s.len := not_not_intro (by rw [hhas.len, hhas.sum])
    exact .inr ⟨_, if_neg hcheck, (accounted_of_has hhas hu).trans hfits.symm⟩
  | error e =>
    cases e with
    | minus1 s =>
      refine .inr ⟨_, rfl, fun _ => hbad h, fun _ => ⟨fun ht => (by cases ht), fun _ => ⟨rfl, rfl, rfl⟩⟩⟩
    | noStorage => exact .inl ⟨h, rfl⟩
    | tooLarge => exact absurd h id
    | accounts => exact absurd h id
    | fuel => exact absurd h id

/-- Where the length is not too large, the body is read, and its end is what decides. -/
theorem readByBranch_spec (env : Env) (w : Wire) (hb : ∀ b, branch method r = .length b → strtoumax 0 b < 2 ^ 32) :
    ∃ bad : Prop, (bad → Fits method r w) ∧ Post env bad (fun x => ∃ n, x.2.2.Has n ∧ x.2.2.Used ∧ (Fits method r w ↔ n < 2 ^ 32))
      (readByBranch env ⟨[], none, 0, w, 0⟩ (branch method r)) := by
  have h0 : Work.Has ⟨[], none, 0, w, 0⟩ 0 := ⟨rfl, rfl, fun t ht => (by cases ht), fun t ht => (by cases ht)⟩
  have hu0 : Work.Used ⟨[], none, 0, w, 0⟩ := fun t ht => by cases ht
  have hzero : True ↔ 0 < 2 ^ 32 := by decide
  unfold Fits
  cases hbr : branch method r with
  | head => exact ⟨True, fun _ => trivial, 0, h0, hu0, hzero⟩
  | length b =>
    refine ⟨True, fun _ => trivial, ?_⟩
    obtain ⟨hlarge, -⟩ | hpost := fetchStraight_spec env b h0 hu0
    · exact absurd (hb b hbr) (Nat.not_lt.2 hlarge)
    · refine hpost.map fun s' hs' => ?_
      obtain ⟨n, hn, hhas, hu⟩ := hs'
      exact ⟨n, hhas, hu, fun _ => hn, fun _ => trivial⟩
  | chunked =>
    refine ⟨_, fun hnone d tail hd => ?_, (fetchChunked_spec h0 hu0).map fun s' hs' => ?_⟩
    · have hnone : decode (w.stream.length + 1) w.stream = none := hnone
      rw [hnone] at hd
      cases hd
    · obtain ⟨d, tail, hd, hhas, hu⟩ := hs'
      refine ⟨d.length, hhas, hu, fun hall => hall d tail hd, fun hlt d' tail' hd' => ?_⟩
      have hd : decode (w.stream.length + 1) w.stream = some (d, tail) := hd
      rw [hd] at hd'
      cases hd'
      exact hlt
  | bad => exact ⟨True, fun _ => trivial, 0, h0, hu0, hzero⟩
  | keepAlive => exact ⟨True, fun _ => trivial, 0, h0, hu0, hzero⟩
  | close =>
    refine ⟨_, fun hbroken hb => ?_, (fetchEof_spec h0 hu0).map fun s' hs' => ?_⟩
    · exact absurd (hb.symm.trans hbroken) Bool.false_ne_true
    · exact ⟨w.stream.length, hs'.2.1, hs'.2.2, fun hall => hall hs'.1, fun hlt _ => hlt⟩
  | oldhttp =>
    refine ⟨_, fun hbroken hb => ?_, (fetchEof_spec h0 hu0).map fun s' hs' => ?_⟩
    · exact absurd (hb.symm.trans hbroken) Bool.false_ne_true
    · exact ⟨w.stream.length, hs'.2.1, hs'.2.2, fun hall => hall hs'.1, fun hlt _ => hlt⟩
  | zero => exact ⟨True, fun _ => trivial, 0, h0, hu0, hzero⟩

theorem fetchBody_eq (h : branch method r ≠ .bad) :
    fetchBody env method r w = epilogue r (readByBranch env ⟨[], none, 0, w, 0⟩ (branch method r)) := by
  unfold fetchBody
  split
  next hb => exact absurd hb h
  · rfl

/-- Where the length is not too large and there is storage, the function returns. -/
theorem fetchBody_spec (env : Env) (w : Wire) (hb : ∀ b, branch method r = .length b → strtoumax 0 b < 2 ^ 32) :
    ((∃ j v, env.stv j v = none) ∧ fetchBody env method r w = .error .noStorage) ∨
      ∃ ret, fetchBody env method r w = .ok ret ∧ (Accounted ret ↔ Fits method r w) := by
  by_cases hbad : branch method r = .bad
  · have hfits : Fits method r w := by
      unfold Fits
      rw [hbad]
      trivial
    refine .inr ⟨⟨false, [], 0, .closed, none⟩, ?_, fun _ => hfits, fun _ => ⟨fun ht => (by cases ht), fun _ => ⟨rfl, rfl, rfl⟩⟩⟩
    unfold fetchBody
    rw [hbad]
  · obtain ⟨bad, hfits, hpost⟩ := readByBranch_spec env w hb
    rw [fetchBody_eq hbad]
    exact epilogue_spec hpost hfits

/-- **`FetchBody`**: the length is too large, or there is no storage, and an assertion fails; or the function returns, and the accounts
are right if and only if the body fits. -/
theorem accounted_iff (env : Env) (method : Str) (r : Response) (w : Wire) :
    ((∃ b, branch method r = .length b ∧ 2 ^ 32 ≤ strtoumax 0 b) ∧ fetchBody env method r w = .error .tooLarge) ∨
    ((∃ j v, env.stv j v = none) ∧ fetchBody env method r w = .error .noStorage) ∨
    ∃ ret, fetchBody env method r w = .ok ret ∧ (Accounted ret ↔ Fits method r w) := by
  by_cases hlarge : ∃ b, branch method r = .length b ∧ 2 ^ 32 ≤ strtoumax 0 b
  · obtain ⟨b, hb, hle⟩ := hlarge
    refine .inl ⟨⟨b, hb, hle⟩, ?_⟩
    rw [fetchBody_eq (by rw [hb]; exact Branch.noConfusion), hb]
    show epilogue r ((fetchStraight env b _).map _) = _
    have hne : strtoumax 0 b % 2 ^ 32 ≠ strtoumax 0 b := fun he => Nat.not_lt.2 hle (he ▸ Nat.mod_lt _ (by decide))
    have hstop : fetchStraight env b ⟨[], none, 0, w, 0⟩ = .error .tooLarge :=
      (if_neg (by omega)).trans (if_pos hne)
    rw [hstop]
    rfl
  · exact .inr (fetchBody_spec env w fun b hb => Nat.lt_of_not_le fun hle => hlarge ⟨b, hb, hle⟩)

/-- `n` bytes up to the end of the connection, in segments of 128 kilobytes. -/
def closing (n : ℕ) : Except Stop Ret :=
  fetchBody ⟨fun _ => 65535, fun _ _ => some ⟨131072, by decide⟩, 128, 0⟩ "GET".toList (okResponse "Connection: close")
    ⟨List.replicate n 97, false, 0⟩

/-- With four gigabytes the length is 0, and the segments hold them. -/
theorem four_gigabytes : ∃ ret, closing (2 ^ 32) = .ok ret ∧ ¬ Accounted ret := by
  have hbr : branch "GET".toList (okResponse "Connection: close") = .close := rfl
  obtain ⟨⟨j, v, hnone⟩, -⟩ | ⟨ret, hret, hiff⟩ := fetchBody_spec ⟨fun _ => 65535, fun _ _ => some ⟨131072, by decide⟩, 128, 0⟩
    ⟨List.replicate (2 ^ 32) 97, false, 0⟩ (fun b hb => by rw [hbr] at hb; cases hb)
  · cases hnone
  · refine ⟨ret, hret, fun hacc => ?_⟩
    have hfits := hiff.1 hacc
    unfold Fits at hfits
    rw [hbr] at hfits
    have hlt := hfits rfl
    rw [List.length_replicate] at hlt
    exact Nat.lt_irrefl _ hlt

end FetchBody

end Varnish.Http.Account
