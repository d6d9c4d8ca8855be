import Mathlib.Data.List.Induction
import Mathlib.Data.List.TakeWhile
import Varnish.Http.Chunked

/-!
# Varnish.Http.Straight — bodies of a given length (`fetch_straight`, `FetchReqBody`)

* `strtoumax`: how the value of `Content-Length` is read, with the base 0 by `fetchStraight` and with 10 by `fetchReqBody`.
* `fetchStraight_spec`, `fetchReqBody_spec`: what each does to the stream.
* `ExactLength`: a value that both read as the decimal number it spells.
* `exactLength_iff`: these are the digits, below `2^32`, that an octal number does not change.
-/

namespace Varnish.Http

open Varnish.Ban Varnish.Lib Varnish.Lib.Strtoul

/-! ## The functions -/

section Functions

/-- `strtoumax(s, NULL, base)`, which is `strtoul` where a `long` has 64 bits. -/
def strtoumax (base : ℕ) (s : Str) : ℕ := Strtoul.strtoul base s

/-- The loop of `fetch_straight`: the storage segments. -/
def straightLoop (env : FetchEnv) : (fuel cl allocs : ℕ) → Conn → Option (List (List UInt8) × Conn)
  | 0, cl, _, c => if cl = 0 then some ([], c) else none
  | fuel + 1, cl, allocs, c =>
    if cl = 0 then some ([], c)
    else
      let sl := min (env.stv allocs cl) cl
      match readSome env.cut sl sl c with
      | none => none
      | some (bs, c) => (straightLoop env fuel (cl - sl) (allocs + 1) c).map fun r => (bs :: r.1, r.2)

/-- `fetch_straight`: the storage segments and the connection; `eof` if it returns -1. -/
def fetchStraight (env : FetchEnv) (b : Str) (c : Conn) : Except Fault (List (List UInt8) × Conn) :=
  let cll := strtoumax 0 b
  if cll = 0 then .ok ([], c)
  else
    let cl := cll % 2 ^ 32
    if cl ≠ cll then .error .assertion
    else
      match straightLoop env cl cl 0 c with
      | none => .error .eof
      | some r => .ok r

def hContentLength : Str := "Content-Length".toList

def hTransferEncoding : Str := "Transfer-Encoding".toList

/-- Parameters of `FetchReqBody`: how much each `read` gets, `sp->sendbody`, and which calls of `WRW_Flush` fail. -/
structure ReqEnv where
  cut : ℕ → ℕ
  sendbody : Bool
  flush : ℕ → Bool

/-- The loop of `FetchReqBody`: what is returned from it, what is written to the backend, and the connection. -/
def reqBodyLoop (env : ReqEnv) : (fuel len flushes : ℕ) → Conn → Option ℕ × List UInt8 × Conn
  | 0, _, _, c => (none, [], c)
  | fuel + 1, len, flushes, c =>
    if len = 0 then (none, [], c)
    else
      let (bs, c) := htcRead env.cut c (min len 8192)
      if bs = [] then (some 1, [], c)
      else if env.sendbody = false then reqBodyLoop env fuel (len - bs.length) flushes c
      else if env.flush flushes then (some 2, bs, c)
      else
        let (r, out, c) := reqBodyLoop env fuel (len - bs.length) (flushes + 1) c
        (r, bs ++ out, c)

/-- `FetchReqBody`: what it returns, what is written to the backend, and the connection. -/
def fetchReqBody (env : ReqEnv) (req : Http) (c : Conn) : ℕ × List UInt8 × Conn :=
  let (r, out, c) :=
    match httpGetHdr req hContentLength with
    | none => (none, [], c)
    | some ptr =>
      let len := strtoumax 10 ptr
      reqBodyLoop env len len 0 c
  match r with
  | some code => (code, out, c)
  | none => if (httpGetHdr req hTransferEncoding).isSome then (1, out, c) else (0, out, c)

end Functions

/-! ## What they do to the stream -/

section Stream

variable {env : FetchEnv} {ses cap : ℕ} {c : Conn} {S : List UInt8}

theorem straightLoop_spec (hstv : ∀ j v, 0 < env.stv j v) {fuel cl : ℕ} (allocs : ℕ) (h : Has ses cap c S) (hcl : cl ≤ fuel) :
    (S.length < cl ∧ straightLoop env fuel cl allocs c = none) ∨
      (cl ≤ S.length ∧ ∃ segs c', straightLoop env fuel cl allocs c = some (segs, c') ∧ segs.flatten = S.take cl ∧
        Has ses cap c' (S.drop cl)) := by
  induction fuel generalizing cl allocs c S with
  | zero =>
    obtain rfl : cl = 0 := Nat.le_zero.mp hcl
    exact .inr ⟨Nat.zero_le _, [], c, rfl, rfl, h⟩
  | succ fuel ih =>
    rw [straightLoop]
    by_cases hz : cl = 0
    · subst hz
      exact .inr ⟨Nat.zero_le _, [], c, rfl, rfl, h⟩
    · rw [if_neg hz]
      dsimp only
      have hpos := hstv allocs cl
      have hsl : 0 < min (env.stv allocs cl) cl := by omega
      have hle : min (env.stv allocs cl) cl ≤ cl := Nat.min_le_right _ _
      generalize min (env.stv allocs cl) cl = sl at hsl hle ⊢
      rcases readSome_spec env.cut h (Nat.le_refl sl) with ⟨hlt, hnone⟩ | ⟨hle', c1, hread, h1⟩
      · refine .inl ⟨by omega, ?_⟩
        rw [hnone]
      · rw [hread]
        dsimp only
        rcases ih (allocs + 1) h1 (show cl - sl ≤ fuel by omega) with ⟨hlt, hnone⟩ | ⟨hle2, segs, c2, hloop, hflat, h2⟩
        · rw [List.length_drop] at hlt
          refine .inl ⟨by omega, ?_⟩
          rw [hnone]
          rfl
        · rw [List.length_drop] at hle2
          refine .inr ⟨by omega, S.take sl :: segs, c2, ?_, ?_, ?_⟩
          · rw [hloop]
            rfl
          · rw [List.flatten_cons, hflat, ← List.take_add, Nat.add_sub_cancel' hle]
          · rwa [List.drop_drop, Nat.add_sub_cancel' hle] at h2

/-- **`fetch_straight`**: an assertion fails, the stream ends too early, or the bytes are stored. -/
theorem fetchStraight_spec (hstv : ∀ j v, 0 < env.stv j v) (b : Str) (h : Has ses cap c S) :
    (2 ^ 32 ≤ strtoumax 0 b ∧ fetchStraight env b c = .error .assertion) ∨
    (S.length < strtoumax 0 b ∧ strtoumax 0 b < 2 ^ 32 ∧ fetchStraight env b c = .error .eof) ∨
    (strtoumax 0 b ≤ S.length ∧ strtoumax 0 b < 2 ^ 32 ∧ ∃ segs c', fetchStraight env b c = .ok (segs, c') ∧
      segs.flatten = S.take (strtoumax 0 b) ∧ Has ses cap c' (S.drop (strtoumax 0 b))) := by
  unfold fetchStraight
  dsimp only
  generalize strtoumax 0 b = cll
  by_cases hz : cll = 0
  · subst hz
    exact .inr (.inr ⟨Nat.zero_le _, by omega, [], c, rfl, rfl, h⟩)
  · rw [if_neg hz]
    by_cases hlt : cll < 2 ^ 32
    · rw [Nat.mod_eq_of_lt hlt, if_neg (fun hne => hne rfl)]
      rcases straightLoop_spec hstv 0 h (Nat.le_refl cll) with ⟨hshort, hnone⟩ | ⟨hle, segs, c', hloop, hflat, h'⟩
      · rw [hnone]
        exact .inr (.inl ⟨hshort, hlt, rfl⟩)
      · rw [hloop]
        exact .inr (.inr ⟨hle, hlt, segs, c', rfl, hflat, h'⟩)
    · have hne : cll % 2 ^ 32 ≠ cll := fun he => hlt (he ▸ Nat.mod_lt _ (by decide))
      rw [if_pos hne]
      exact .inl ⟨Nat.le_of_not_lt hlt, rfl⟩

variable {renv : ReqEnv}

theorem reqBodyLoop_spec {fuel len : ℕ} (flushes : ℕ) (h : Has ses cap c S) (hlen : len ≤ fuel) :
    (∃ code out c', reqBodyLoop renv fuel len flushes c = (some code, out, c') ∧ (code = 1 ∨ code = 2)) ∨
      (len ≤ S.length ∧ ∃ c', reqBodyLoop renv fuel len flushes c = (none, if renv.sendbody then S.take len else [], c') ∧
        Has ses cap c' (S.drop len)) := by
  induction fuel generalizing len flushes c S with
  | zero =>
    obtain rfl : len = 0 := Nat.le_zero.mp hlen
    exact .inr ⟨Nat.zero_le _, c, by simp [reqBodyLoop], h⟩
  | succ fuel ih =>
    rw [reqBodyLoop]
    by_cases hz : len = 0
    · subst hz
      exact .inr ⟨Nat.zero_le _, c, by simp, h⟩
    · rw [if_neg hz]
      obtain ⟨bs, c1, S1, hread, -, hle, rfl, h1⟩ := h.read renv.cut (show 0 < min len 8192 by omega)
      rw [hread]
      dsimp only
      by_cases hb : bs = []
      · rw [if_pos hb]
        exact .inl ⟨1, [], c1, rfl, .inl rfl⟩
      · have hpos : 0 < bs.length := List.length_pos_iff.mpr hb
        have hfuel : len - bs.length ≤ fuel := by omega
        have htake : bs.take len = bs := List.take_of_length_le (by omega)
        rw [if_neg hb]
        by_cases hsend : renv.sendbody = true
        · rw [if_neg (by rw [hsend]; decide)]
          by_cases hfl : renv.flush flushes = true
          · rw [if_pos hfl]
            exact .inl ⟨2, bs, c1, rfl, .inr rfl⟩
          · rw [if_neg hfl]
            rcases ih (flushes + 1) h1 hfuel with ⟨code, out, c2, hloop, hcode⟩ | ⟨hle2, c2, hloop, h2⟩
            · rw [hloop]
              exact .inl ⟨code, bs ++ out, c2, rfl, hcode⟩
            · rw [hloop]
              refine .inr ⟨by rw [List.length_append]; omega, c2, ?_, ?_⟩
              · rw [if_pos hsend, if_pos hsend, List.take_append, htake]
              · rwa [List.drop_append, List.drop_of_length_le (by omega)]
        · rw [if_pos (Bool.not_eq_true _ ▸ hsend), if_neg hsend]
          rcases ih flushes h1 hfuel with ⟨code, out, c2, hloop, hcode⟩ | ⟨hle2, c2, hloop, h2⟩
          · exact .inl ⟨code, out, c2, hloop, hcode⟩
          · rw [if_neg hsend] at hloop
            refine .inr ⟨by rw [List.length_append]; omega, c2, hloop, ?_⟩
            rwa [List.drop_append, List.drop_of_length_le (by omega)]

/-- **`FetchReqBody`**: where it returns 0, the bytes that `Content-Length` says are read, and written if the body is sent. -/
theorem fetchReqBody_spec {req : Http} {v : Str} (hv : httpGetHdr req hContentLength = some v) (h : Has ses cap c S) {out : List UInt8}
    {c' : Conn} (hrun : fetchReqBody renv req c = (0, out, c')) :
    strtoumax 10 v ≤ S.length ∧ out = (if renv.sendbody then S.take (strtoumax 10 v) else []) ∧
      Has ses cap c' (S.drop (strtoumax 10 v)) := by
  unfold fetchReqBody at hrun
  rw [hv] at hrun
  dsimp only at hrun
  rcases reqBodyLoop_spec 0 h (Nat.le_refl (strtoumax 10 v)) with ⟨code, out', c1, hloop, hcode⟩ | ⟨hle, c1, hloop, h1⟩
  · rw [hloop] at hrun
    cases hrun
    rcases hcode with h0 | h0 <;> cases h0
  · rw [hloop] at hrun
    dsimp only at hrun
    by_cases hte : (httpGetHdr req hTransferEncoding).isSome = true
    · rw [if_pos hte] at hrun
      cases hrun
    · rw [if_neg hte] at hrun
      cases hrun
      exact ⟨hle, rfl, h1⟩

end Stream

/-! ## What a value spells -/

section Spelling

variable {v : Str} {c : Char}

/-- Digits as an octal number: where it ends, and when it is the same. -/
theorem octal_spec (v : Str) (h : ∀ c ∈ v, isDigit 10 c = true) :
    number 8 (v.takeWhile (isDigit 8)) ≤ number 10 v ∧ (number 8 (v.takeWhile (isDigit 8)) = number 10 v ↔ number 10 v ≤ 7) ∧
      (number 10 v ≤ 7 → v.takeWhile (isDigit 8) = v) := by
  induction v using List.reverseRecOn with
  | nil => exact ⟨Nat.le_refl _, iff_of_true rfl (Nat.zero_le _), fun _ => rfl⟩
  | append_singleton u c ih =>
    obtain ⟨hle, hiff, hall⟩ := ih fun d hd => h d (List.mem_append_left _ hd)
    have hc : digitVal c < 10 := of_decide_eq_true (h c (List.mem_append_right _ List.mem_cons_self))
    rw [List.takeWhile_append, number_concat]
    by_cases hu : u.takeWhile (isDigit 8) = u
    · rw [if_pos (by rw [hu])]
      rw [hu] at hle hiff
      by_cases hc8 : digitVal c < 8
      · have hd8 : isDigit 8 c = true := decide_eq_true hc8
        rw [List.takeWhile_cons_of_pos hd8, List.takeWhile_nil, number_concat]
        exact ⟨by omega, by omega, fun _ => rfl⟩
      · rw [List.takeWhile_cons_of_neg (by simpa [isDigit] using hc8), List.append_nil]
        exact ⟨by omega, by omega, by omega⟩
    · have hlen : (u.takeWhile (isDigit 8)).length ≠ u.length := fun he => hu ((List.takeWhile_prefix _).eq_of_length he)
      rw [if_neg hlen]
      have hbig : ¬ number 10 u ≤ 7 := fun h7 => hu (hall h7)
      exact ⟨by omega, by omega, by omega⟩

end Spelling

/-! ## Which values are exact -/

section Exact

variable {v : Str}

/-- The number that a value denotes: digits only. -/
def Spells (v : Str) (n : ℕ) : Prop := DigitsOnly v ∧ n = number 10 v

/-- For every stream and fragmentation: no assertion fails, what is stored is as much as the value denotes, and so is what is read for
the backend of the body of a request. -/
structure ExactLength (v : Str) : Prop where
  alive : ∀ (env : FetchEnv) (ses cap : ℕ) (c : Conn) (S : List UInt8), (∀ j u, 0 < env.stv j u) → Has ses cap c S →
    fetchStraight env v c ≠ .error .assertion
  stored : ∀ (env : FetchEnv) (ses cap : ℕ) (c : Conn) (S : List UInt8), (∀ j u, 0 < env.stv j u) → Has ses cap c S →
    ∀ segs c', fetchStraight env v c = .ok (segs, c') →
      Spells v segs.flatten.length ∧ ∃ tail, S = segs.flatten ++ tail ∧ Has ses cap c' tail
  forwarded : ∀ (env : ReqEnv) (req : Http) (ses cap : ℕ) (c : Conn) (S : List UInt8), httpGetHdr req hContentLength = some v →
    Has ses cap c S → ∀ out c', fetchReqBody env req c = (0, out, c') →
      ∃ body tail, S = body ++ tail ∧ Spells v body.length ∧ out = (if env.sendbody then body else []) ∧ Has ses cap c' tail

theorem exactLength_of_read (hd : DigitsOnly v) (h0 : strtoumax 0 v = number 10 v) (h10 : strtoumax 10 v = number 10 v)
    (hlt : number 10 v < 2 ^ 32) : ExactLength v where
  alive env ses cap c S hstv h := by
    rcases fetchStraight_spec hstv v h with ⟨hge, -⟩ | ⟨-, -, hrun⟩ | ⟨-, -, segs, c', hrun, -⟩
    · omega
    · rw [hrun]
      exact nofun
    · rw [hrun]
      exact nofun
  stored env ses cap c S hstv h segs c' hok := by
    rcases fetchStraight_spec hstv v h with ⟨-, hrun⟩ | ⟨-, -, hrun⟩ | ⟨hle, -, segs', c'', hrun, hflat, h'⟩
    · rw [hrun] at hok
      cases hok
    · rw [hrun] at hok
      cases hok
    · rw [hrun] at hok
      cases hok
      refine ⟨⟨hd, ?_⟩, _, ?_, h'⟩
      · rw [hflat, List.length_take, Nat.min_eq_left hle, h0]
      · rw [hflat, List.take_append_drop]
  forwarded env req ses cap c S hv h out c' hrun := by
    obtain ⟨hle, hout, h'⟩ := fetchReqBody_spec hv h hrun
    refine ⟨_, _, (List.take_append_drop (strtoumax 10 v) S).symm, ⟨hd, ?_⟩, hout, h'⟩
    rw [List.length_take, Nat.min_eq_left hle, h10]

/-- A value that is exact denotes what `fetch_straight` reads. -/
theorem ExactLength.read (h : ExactLength v) : strtoumax 0 v < 2 ^ 32 ∧ Spells v (strtoumax 0 v) := by
  have hstv : ∀ j u, 0 < twoEnv.stv j u := fun _ _ => Nat.two_pos
  -- a stream that has all that is asked for
  have hhas := has_freshConn (List.replicate (strtoumax 0 v) 0)
  rcases fetchStraight_spec hstv v hhas with ⟨-, hrun⟩ | ⟨hlt, -, -⟩ | ⟨-, hlt, segs, c', hrun, hflat, -⟩
  · exact absurd hrun (h.alive _ _ _ _ _ hstv hhas)
  · rw [List.length_replicate] at hlt
    exact absurd hlt (Nat.lt_irrefl _)
  · have hspells := (h.stored _ _ _ _ _ hstv hhas segs c' hrun).1
    rw [hflat, List.length_take, List.length_replicate, Nat.min_self] at hspells
    exact ⟨hlt, hspells⟩

/-- **Exact values**: digits only, with a value below `2^32`, which is at most 7 if there is a `0` in front. -/
theorem exactLength_iff (v : Str) : ExactLength v ↔ DigitsOnly v ∧ number 10 v < 2 ^ 32 ∧ (v.head? = some '0' → number 10 v ≤ 7) := by
  constructor
  · intro h
    obtain ⟨hlt, hd, heq⟩ := h.read
    refine ⟨hd, heq ▸ hlt, fun h0 => ?_⟩
    rw [strtoumax, strtoul_zero hd, if_pos h0] at heq hlt
    rw [ulong_small hlt] at heq
    exact (octal_spec v hd.2).2.1.1 heq
  · rintro ⟨hd, hlt, h7⟩
    refine exactLength_of_read hd ?_ ?_ hlt
    · rw [strtoumax, strtoul_zero hd]
      by_cases h0 : v.head? = some '0'
      · rw [if_pos h0, (octal_spec v hd.2).2.1.2 (h7 h0), ulong_of_lt (hlt.trans (by decide))]
      · rw [if_neg h0, ulong_of_lt (hlt.trans (by decide))]
    · rw [strtoumax, strtoul_ten hd, ulong_of_lt (hlt.trans (by decide))]

/-- `010` are eight bytes for `fetch_straight`, and ten for `FetchReqBody`. -/
theorem strtoumax_octal : strtoumax 0 "010".toList = 8 ∧ strtoumax 10 "010".toList = 10 := by decide +kernel

/-- On `4294967296` the assertion fails. -/
theorem not_exactLength : ¬ ∀ v, ExactLength v := by
  intro hall
  refine (hall "4294967296".toList).alive twoEnv 5 20 (freshConn []) [] (fun _ _ => Nat.two_pos) (has_freshConn []) ?_
  have hread : strtoumax 0 "4294967296".toList = 2 ^ 32 := by decide +kernel
  unfold fetchStraight
  rw [hread]
  rfl

end Exact

end Varnish.Http
