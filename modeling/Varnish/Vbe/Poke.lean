import Mathlib.Data.List.TakeWhile
import Mathlib.Tactic.Tauto
import Varnish.Lib.Scanf
import Varnish.Vbe.Probe

/-!
# Varnish.Vbe.Poke — what a probe makes of a response (`vbp_poke`)

The network is in an environment: which connections succeed, the time that is left, and what the reads return.

* `vbpPoke`: the function.
* `PresentOnly`: the outcome is the same after all earlier polls, and good for a status line only.
* `recv_fst`, `recv_indep`: what the reads leave in the buffer.
* `poke_poll`: the poke is one poll of the window.
* `presentOnly_iff`: so it is when the response ends its first line, fills the buffer, or is not the beginning of such a status line.
-/

namespace Varnish.Probe

open Varnish.Lib Varnish.Lib.Scanf

/-! ## The function -/

section Function

/-- How the reads come to an end. -/
inductive Ending
  | eof
  | error
  | timeout
deriving DecidableEq

/-- The addresses of the backend, and what the network does: `tmo (k + 1)` is the time that is left after attempt `k`. -/
structure Env where
  preferIpv6 : Bool
  ipv4 : Bool
  ipv6 : Bool
  tmo : ℕ → ℤ
  connects : ℕ → Bool
  written : ℤ
  reads : List (List UInt8)
  ending : Ending

/-- The socket, the time that is left, and which of the addresses it was. -/
structure Conn where
  s : Bool
  tmo : ℤ
  good4 : Bool
  good6 : Bool

def connect4 (env : Env) (k : ℕ) (c : Conn) : Conn :=
  { c with s := env.connects k, tmo := env.tmo (k + 1), good4 := c.good4 || env.connects k }

def connect6 (env : Env) (k : ℕ) (c : Conn) : Conn :=
  { c with s := env.connects k, tmo := env.tmo (k + 1), good6 := c.good6 || env.connects k }

/-- The attempts to connect. -/
def connection (env : Env) : Conn :=
  let c : Conn := ⟨false, env.tmo 0, false, false⟩
  let c := if env.preferIpv6 ∧ env.ipv6 then connect6 env 0 c else c
  let c := if 0 < c.tmo ∧ ¬ c.s ∧ env.ipv4 then connect4 env 1 c else c
  if 0 < c.tmo ∧ ¬ c.s ∧ env.ipv6 then connect6 env 2 c else c

/-- `|= 1` -/
def mark (b : Bool) (u : BitVec 64) : BitVec 64 := if b then u ||| 1 else u

/-- The reads: into the response buffer while `rlen` is below its size. -/
def recv : List (List UInt8) → Mem → UInt32 → Mem × UInt32
  | [], m, rlen => (m, rlen)
  | c :: cs, m, rlen => recv cs (if rlen < 128 then wr m rlen.toNat c else m) (rlen + UInt32.ofNat c.length)

/-- The C string in the buffer. -/
def cstr (m : Mem) : List UInt8 := (rd m 0 128).takeWhile (· ≠ 0)

/-- `strchr` -/
def strchr (m : Mem) (c : UInt8) : Option ℕ :=
  let n := ((cstr m).takeWhile (· ≠ c)).length
  if n < (cstr m).length then some n else none

/-- `p = strchr(buf, c); if (p != NULL) *p = '\0'` -/
def cutAt (c : UInt8) (m : Mem) : Mem := (strchr m c).elim m fun p => wr m p [0]

/-- `HTTP/` -/
def httpText : List UInt8 := [72, 84, 84, 80, 47]

/-- `sscanf(…, "HTTP/%*f %u %s", &resp, buf)`: the number, when both are assigned. -/
def statusLine (l : List UInt8) : Option UInt32 :=
  ((pair (literal httpText) fun _ => pair float fun _ => pair space fun _ => pair unsigned fun resp => pair space fun _ => give resp) l).bind
    fun r => if r.2 = [] then none else some r.1

/-- The first line of the buffer. -/
def respLine (m : Mem) : Mem := cutAt 10 (cutAt 13 (wr m 127 [0]))

/-- Behind the reads. -/
def received (ending : Ending) (r : Mem × UInt32) (vt : Target) : Target :=
  let vt := { vt with respBuf := r.1 }
  match ending with
  | .timeout => vt
  | .error => { vt with bits := { vt.bits with errRecv := mark true vt.bits.errRecv } }
  | .eof =>
    if r.2 = 0 then vt
    else
      let m := respLine r.1
      { vt with
        respBuf := m
        bits := { vt.bits with
          goodRecv := mark true vt.bits.goodRecv
          happy := mark (statusLine (cstr m) = some vt.probe.expStatus) vt.bits.happy } }

/-- `vbp_poke` -/
def vbpPoke (env : Env) (vt : Target) : Target :=
  let c := connection env
  let vt := { vt with bits := { vt.bits with goodIpv4 := mark c.good4 vt.bits.goodIpv4, goodIpv6 := mark c.good6 vt.bits.goodIpv6 } }
  if ¬ c.s then vt
  else if c.tmo ≤ 0 then vt
  else if env.written ≠ vt.reqLen then { vt with bits := { vt.bits with errXmit := mark (env.written < 0) vt.bits.errXmit } }
  else received env.ending (recv env.reads vt.respBuf 0) { vt with bits := { vt.bits with goodXmit := mark true vt.bits.goodXmit } }

end Function

/-! ## What it is for -/

section Spec

/-- A read returns at least one byte, and not more than it is asked for. -/
def Fits : List (List UInt8) → UInt32 → Prop
  | [], _ => True
  | c :: cs, rlen =>
    c ≠ [] ∧ (if rlen < 128 then rlen.toNat + c.length ≤ 128 else c.length ≤ 8192) ∧ Fits cs (rlen + UInt32.ofNat c.length)

/-- The outcome that is recorded for this poll. -/
def outcome (env : Env) (vt : Target) : Bool := (vbpPoke env (vbpStartPoke vt)).bits.happy.getLsbD 0

/-- The first line of a text. -/
def line (l : List UInt8) : List UInt8 := l.takeWhile fun c => c ≠ 0 ∧ c ≠ 13 ∧ c ≠ 10

def response (env : Env) : List UInt8 := env.reads.flatten

/-- The outcome is the same whatever was received before, and it is good for a response with a status line and the expected status only. -/
def PresentOnly (env : Env) (p : VrtBackendProbe) (reqLen : ℤ) : Prop :=
  (∀ vt vt', vt.probe = p → vt.reqLen = reqLen → vt'.probe = p → vt'.reqLen = reqLen → outcome env vt = outcome env vt') ∧
    ∀ vt, vt.probe = p → vt.reqLen = reqLen → outcome env vt = true → statusLine (line (response env)) = some p.expStatus

/-- The request is sent, and the response ends. -/
def Answered (env : Env) (reqLen : ℤ) : Prop :=
  (connection env).s = true ∧ 0 < (connection env).tmo ∧ env.written = reqLen ∧ env.ending = .eof

/-- The response says it all: it is empty, fills the buffer or ends its line, has such a status line already, or cannot go on to have one. -/
def Tells (status : UInt32) (r : List UInt8) : Prop :=
  r = [] ∨ 127 ≤ r.length ∨ line r ≠ r ∨ statusLine r = some status ∨
    ∀ x, line x = x → r.length + x.length ≤ 127 → statusLine (r ++ x) ≠ some status

/-- What the reads leave in a buffer of zeros. -/
def kept (env : Env) : List UInt8 := rd (recv env.reads (fun _ => 0) 0).1 0 127

/-- A response that is longer than a 32-bit number can say comes back to the start of the buffer. -/
def Unspoilt (env : Env) (status : UInt32) : Prop :=
  (response env).length % 2 ^ 32 = 0 ∨ (statusLine (line (kept env)) = some status → statusLine (line (response env)) = some status)

end Spec

/-! ## The reads -/

section Reads

variable {m m' : Mem} {k : UInt32} {cs : List (List UInt8)}

theorem recv_snd (cs : List (List UInt8)) (m : Mem) (k : UInt32) : (recv cs m k).2 = k + UInt32.ofNat cs.flatten.length := by
  induction cs generalizing m k with
  | nil => exact (UInt32.add_zero k).symm
  | cons c cs ih =>
    rw [recv, ih, List.flatten_cons, List.length_append, UInt32.ofNat_add, UInt32.add_assoc]

/-- Where a read ends in the buffer. -/
theorem toNat_add_ofNat {n : ℕ} (h : k.toNat + n < 2 ^ 32) : (k + UInt32.ofNat n).toNat = k.toNat + n := by
  rw [UInt32.toNat_add, UInt32.toNat_ofNat_of_lt' (show n < 2 ^ 32 by omega), Nat.mod_eq_of_lt h]

/-- As long as `rlen` does not wrap, the buffer gets the beginning of the response. -/
theorem recv_fst (hfit : Fits cs k) (hn : k.toNat + cs.flatten.length < 2 ^ 32) :
    (recv cs m k).1 = wr m k.toNat (cs.flatten.take (128 - k.toNat)) := by
  induction cs generalizing m k with
  | nil =>
    rw [List.flatten_nil, List.take_nil, wr_nil]
    rfl
  | cons c cs ih =>
    obtain ⟨-, hc, hcs⟩ := hfit
    rw [List.flatten_cons, List.length_append] at hn
    have hk := toNat_add_ofNat (k := k) (n := c.length) (by omega)
    rw [recv, ih hcs (by omega), hk, List.flatten_cons]
    by_cases hlt : k < 128
    · rw [if_pos hlt] at hc ⊢
      rw [wr_append, List.take_append, List.take_of_length_le (i := 128 - k.toNat) (by omega), Nat.sub_sub]
    · have hge : 128 ≤ k.toNat := UInt32.le_iff_toNat_le.mp (UInt32.not_lt.mp hlt)
      have h1 : 128 - (k.toNat + c.length) = 0 := by omega
      have h2 : 128 - k.toNat = 0 := by omega
      rw [if_neg hlt, h1, h2, List.take_zero, List.take_zero, wr_nil, wr_nil]

/-- The reads keep what two buffers have in common. -/
theorem recv_congr (h : ∀ i < 128, m i = m' i) : ∀ i < 128, (recv cs m k).1 i = (recv cs m' k).1 i := by
  induction cs generalizing m m' k with
  | nil => exact h
  | cons c cs ih =>
    rw [recv, recv]
    refine ih ?_
    intro i hi
    split
    · rw [wr, wr, h i hi]
    · exact h i hi

/-- A response that fills the buffer leaves nothing of what was there. -/
theorem recv_indep (hfit : Fits cs k) (hk : k.toNat ≤ 128) (hn : 128 ≤ k.toNat + cs.flatten.length) (h : ∀ i < k.toNat, m i = m' i) :
    ∀ i < 128, (recv cs m k).1 i = (recv cs m' k).1 i := by
  induction cs generalizing m m' k with
  | nil =>
    intro i hi
    rw [List.flatten_nil, List.length_nil] at hn
    exact h i (by omega)
  | cons c cs ih =>
    obtain ⟨-, hc, hcs⟩ := hfit
    rw [recv, recv]
    by_cases hlt : k < 128
    · rw [if_pos hlt] at hc
      rw [if_pos hlt, if_pos hlt]
      have hadd := toNat_add_ofNat (k := k) (n := c.length) (by omega)
      rw [List.flatten_cons, List.length_append] at hn
      refine ih hcs (by omega) (by omega) ?_
      intro i hi
      by_cases hik : i < k.toNat
      · rw [wr_of_lt hik, wr_of_lt hik, h i hik]
      · have hin : i - k.toNat < c.length := by omega
        have hle := Nat.le_of_not_lt hik
        rw [wr, wr, if_pos hle, if_pos hle, List.getElem?_eq_getElem hin]
        rfl
    · have hge : 128 ≤ k.toNat := UInt32.le_iff_toNat_le.mp (UInt32.not_lt.mp hlt)
      rw [if_neg hlt, if_neg hlt]
      exact recv_congr fun i hi => h i (by omega)

end Reads

/-! ## The line in the buffer -/

section Line

variable {m : Mem} {c : UInt8} {l x : List UInt8} {status : UInt32}

theorem take_takeWhile_length (p : UInt8 → Bool) (l : List UInt8) : l.take (l.takeWhile p).length = l.takeWhile p :=
  (List.prefix_iff_eq_take.mp (List.takeWhile_prefix p)).symm

/-- A NUL in the string is its end. -/
theorem cstr_wr {n : ℕ} (hn : n < (cstr m).length) : cstr (wr m n [0]) = (cstr m).take n := by
  have hpre : cstr m <+: rd m 0 128 := List.takeWhile_prefix _
  have hle : (cstr m).length ≤ 128 := by simpa using hpre.length_le
  have htake : (cstr m).take n = rd m 0 n := by
    have h128 : rd m 0 128 = rd m 0 n ++ rd m (0 + n) (128 - n) := by
      rw [← rd_add]
      congr 1
      omega
    rw [List.prefix_iff_eq_take.mp hpre, List.take_take, min_eq_left (by omega), h128]
    exact List.take_left' (length_rd m 0 n)
  have hwr : rd (wr m n [0]) 0 128 = rd m 0 n ++ 0 :: rd (wr m n [0]) (n + 1) (127 - n) := by
    have h128 : rd (wr m n [0]) 0 128 = rd (wr m n [0]) 0 (n + (1 + (127 - n))) := by
      congr 1
      omega
    have hone : rd (wr m n [0]) n 1 = [0] := rd_wr m n [0]
    rw [h128, rd_add, rd_add, rd_wr_off (by omega), Nat.zero_add, hone]
    rfl
  have hnz : ∀ c ∈ rd m 0 n, (decide (c ≠ 0)) = true := by
    intro c hc
    rw [← htake] at hc
    have hmem : c ∈ (rd m 0 128).takeWhile (· ≠ 0) := List.mem_of_mem_take hc
    have hp := List.mem_takeWhile_imp hmem
    exact hp
  rw [htake, cstr, hwr, List.takeWhile_append_of_pos hnz, List.takeWhile_cons_of_neg (by decide), List.append_nil]

theorem cstr_cutAt (m : Mem) (c : UInt8) : cstr (cutAt c m) = (cstr m).takeWhile (· ≠ c) := by
  have hpre : (cstr m).takeWhile (· ≠ c) <+: cstr m := List.takeWhile_prefix _
  by_cases hlt : ((cstr m).takeWhile (· ≠ c)).length < (cstr m).length
  · have hstr : strchr m c = some ((cstr m).takeWhile (· ≠ c)).length := if_pos hlt
    rw [cutAt, hstr]
    show cstr (wr m _ [0]) = _
    rw [cstr_wr hlt, take_takeWhile_length]
  · have hstr : strchr m c = none := if_neg hlt
    rw [cutAt, hstr]
    exact (hpre.eq_of_length_le (Nat.le_of_not_lt hlt)).symm

/-- What `sscanf` sees. -/
theorem cstr_respLine (m : Mem) : cstr (respLine m) = line (rd m 0 127) := by
  have hwr : rd (wr m 127 [0]) 0 128 = rd m 0 127 ++ [0] := by
    have h128 := rd_add (wr m 127 [0]) 0 127 1
    have hone : rd (wr m 127 [0]) 127 1 = [0] := rd_wr m 127 [0]
    rw [h128, rd_wr_off (by omega), Nat.zero_add, hone]
  have h0 : cstr (wr m 127 [0]) = (rd m 0 127).takeWhile (· ≠ 0) := by
    rw [cstr, hwr, List.takeWhile_append]
    split
    · rename_i hlen
      rw [List.takeWhile_cons_of_neg (by decide), List.append_nil]
      exact ((List.takeWhile_prefix _).eq_of_length hlen).symm
    · rfl
  rw [respLine, cstr_cutAt, cstr_cutAt, h0, List.takeWhile_takeWhile, List.takeWhile_takeWhile, line]
  congr 1
  funext c
  rw [Bool.eq_iff_iff]
  simp only [decide_eq_true_eq]
  tauto

/-! ### Lines -/

theorem line_isPrefix (l : List UInt8) : line l <+: l := List.takeWhile_prefix _

theorem line_append_of_ne (h : line l ≠ l) (x : List UInt8) : line (l ++ x) = line l := by
  rw [line, List.takeWhile_append, if_neg]
  · rfl
  · intro hlen
    exact h ((line_isPrefix l).eq_of_length hlen)

theorem line_append (h : line l = l) (x : List UInt8) : line (l ++ x) = l ++ line x := by
  rw [line, List.takeWhile_append, if_pos]
  · rfl
  · exact congrArg List.length h

theorem line_line (l : List UInt8) : line (line l) = line l :=
  List.takeWhile_idem

/-- A status line stays one when more comes behind it. -/
theorem statusLine_append (h : statusLine l = some status) (x : List UInt8) : statusLine (l ++ x) = some status := by
  obtain ⟨⟨resp, rest⟩, hr, h⟩ := Option.bind_eq_some_iff.mp h
  have hs : Steady (pair (literal httpText) fun _ => pair float fun _ => pair space fun _ => pair unsigned fun resp =>
      pair space fun _ => give resp) :=
    steady_pair (steady_literal _) fun _ => steady_pair steady_float fun _ => steady_pair steady_space fun _ =>
      steady_pair steady_unsigned fun _ => steady_pair steady_space fun _ => steady_give _
  dsimp only at h
  split at h
  · cases h
  · rename_i hne
    rw [statusLine, hs.append l resp rest x hr hne, Option.bind_some, if_neg]
    · exact h
    · intro he
      exact hne (List.append_eq_nil_iff.mp he).1

/-- The first line that is cut off at some place is a beginning of the whole one. -/
theorem statusLine_take {n : ℕ} (h : statusLine (line (l.take n)) = some status) : statusLine (line l) = some status := by
  have happ : l = l.take n ++ l.drop n := (List.take_append_drop n l).symm
  by_cases hne : line (l.take n) = l.take n
  · rw [happ, line_append hne]
    rw [hne] at h
    exact statusLine_append h _
  · rw [happ, line_append_of_ne hne]
    exact h

end Line

/-! ## The outcome -/

section Outcome

variable {env : Env} {p : VrtBackendProbe} {reqLen : ℤ} {vt : Target}

theorem getLsbD_mark (b : Bool) (u : BitVec 64) : (mark b (u <<< 1)).getLsbD 0 = b := by
  cases b <;> simp [mark]

theorem received_happy (r : Mem × UInt32) (vt : Target) : (received .eof r vt).bits.happy =
    if r.2 = 0 then vt.bits.happy else mark (statusLine (cstr (respLine r.1)) = some vt.probe.expStatus) vt.bits.happy := by
  by_cases h0 : r.2 = 0
  · rw [received, if_pos h0, if_pos h0]
  · rw [received, if_neg h0, if_neg h0]

theorem received_probe (ending : Ending) (r : Mem × UInt32) (vt : Target) : (received ending r vt).probe = vt.probe := by
  cases ending with
  | timeout => rfl
  | error => rfl
  | eof =>
    by_cases h0 : r.2 = 0
    · rw [received, if_pos h0]
    · rw [received, if_neg h0]

/-- A poke adds one bit to the history of the outcomes, and leaves the probe as it is. -/
theorem vbpPoke_happy (env : Env) (vt : Target) :
    (∃ b, (vbpPoke env vt).bits.happy = mark b vt.bits.happy) ∧ (vbpPoke env vt).probe = vt.probe := by
  have hnone (u : BitVec 64) : u = mark false u := rfl
  rw [vbpPoke]
  dsimp only
  split
  · exact ⟨⟨false, hnone _⟩, rfl⟩
  split
  · exact ⟨⟨false, hnone _⟩, rfl⟩
  split
  · exact ⟨⟨false, hnone _⟩, rfl⟩
  cases env.ending with
  | timeout => exact ⟨⟨false, hnone _⟩, rfl⟩
  | error => exact ⟨⟨false, hnone _⟩, rfl⟩
  | eof =>
    refine ⟨?_, received_probe _ _ _⟩
    rw [received_happy]
    split
    · exact ⟨false, hnone _⟩
    · exact ⟨_, rfl⟩

theorem hasPoked_good (vt : Target) : (vbpHasPoked vt).good = countOnes vt.probe.window.toNat vt.bits.happy 0 := rfl

theorem hasPoked_healthy (vt : Target) :
    (vbpHasPoked vt).healthy = decide (vt.probe.threshold ≤ countOnes vt.probe.window.toNat vt.bits.happy 0) := rfl

/-- The window is kept as if the poll had just had this outcome. -/
theorem poke_poll (env : Env) (vt : Target) :
    (vbpHasPoked (vbpPoke env (vbpStartPoke vt))).bits.happy = (poll vt (outcome env vt)).bits.happy ∧
      (vbpHasPoked (vbpPoke env (vbpStartPoke vt))).good = (poll vt (outcome env vt)).good ∧
      (vbpHasPoked (vbpPoke env (vbpStartPoke vt))).healthy = (poll vt (outcome env vt)).healthy := by
  obtain ⟨⟨b, hb⟩, hp⟩ := vbpPoke_happy env (vbpStartPoke vt)
  have ho : outcome env vt = b := by
    rw [outcome, hb]
    exact getLsbD_mark b _
  have hrec : (vbpPoke env (vbpStartPoke vt)).bits.happy = (recorded b (vbpStartPoke vt)).bits.happy := hb
  have hprobe : (recorded b (vbpStartPoke vt)).probe = (vbpStartPoke vt).probe := rfl
  rw [ho]
  refine ⟨hrec, ?_, ?_⟩
  · rw [poll, hasPoked_good, hasPoked_good, hp, hrec, hprobe]
  · rw [poll, hasPoked_healthy, hasPoked_healthy, hp, hrec, hprobe]

/-- The buffer when the reads begin. -/
def startBuf (vt : Target) : Mem := wr vt.respBuf 0 [0]

/-- What the buffer says in the end. -/
def bufLine (env : Env) (m : Mem) : List UInt8 := line (rd (recv env.reads m 0).1 0 127)

theorem outcome_answered (hr : vt.reqLen = reqLen) (ha : Answered env reqLen) : outcome env vt = true ↔
    (response env).length % 2 ^ 32 ≠ 0 ∧ statusLine (bufLine env (startBuf vt)) = some vt.probe.expStatus := by
  obtain ⟨hs, htmo, hw, he⟩ := ha
  have hz : (recv env.reads (startBuf vt) 0).2 = 0 ↔ (response env).length % 2 ^ 32 = 0 := by
    rw [recv_snd, UInt32.zero_add, ← UInt32.toNat_inj, UInt32.toNat_ofNat']
    rfl
  have hbuf : (vbpStartPoke vt).respBuf = startBuf vt := rfl
  have hhappy : (vbpStartPoke vt).bits.happy = vt.bits.happy <<< 1 := rfl
  have hstatus : (vbpStartPoke vt).probe.expStatus = vt.probe.expStatus := rfl
  have hlen : (vbpStartPoke vt).reqLen = vt.reqLen := rfl
  rw [outcome, vbpPoke]
  dsimp only
  rw [if_neg (by simp [hs]), if_neg (by omega), hlen, if_neg (by simp [hw, hr]), he, received_happy]
  dsimp only
  rw [hbuf, hhappy, hstatus]
  by_cases h0 : (recv env.reads (startBuf vt) 0).2 = 0
  · rw [if_pos h0]
    refine iff_of_false ?_ fun h => h.1 (hz.mp h0)
    simp
  · rw [if_neg h0, getLsbD_mark, decide_eq_true_eq, cstr_respLine]
    exact ⟨fun h => ⟨fun hl => h0 (hz.mpr hl), h⟩, fun h => h.2⟩

theorem outcome_unanswered (hr : vt.reqLen = reqLen) (ha : ¬ Answered env reqLen) : outcome env vt = false := by
  have hlow : (vt.bits.happy <<< 1).getLsbD 0 = false := by simp
  rw [outcome, vbpPoke]
  dsimp only
  by_cases hs : (connection env).s = true
  · rw [if_neg (not_not.mpr hs)]
    by_cases htmo : (connection env).tmo ≤ 0
    · rw [if_pos htmo]
      exact hlow
    · rw [if_neg htmo]
      by_cases hw : env.written = reqLen
      · rw [if_neg (by simp [hw, hr, vbpStartPoke])]
        have he : env.ending ≠ .eof := fun he => ha ⟨hs, Int.not_le.mp htmo, hw, he⟩
        cases h : env.ending with
        | eof => exact absurd h he
        | error => exact hlow
        | timeout => exact hlow
      · rw [if_pos (by simpa [hr, vbpStartPoke] using hw)]
        exact hlow
  · rw [if_pos hs]
    exact hlow

/-! ### Which responses tell -/

theorem bufLine_short (hfit : Fits env.reads 0) (hn : (response env).length ≤ 127) (m : Mem) :
    bufLine env m = line (response env ++ rd m (response env).length (127 - (response env).length)) := by
  have hfst : (recv env.reads m 0).1 = wr m 0 (response env) := by
    have := recv_fst (m := m) hfit (show 0 + (response env).length < 2 ^ 32 by omega)
    rw [this]
    show wr m 0 ((response env).take 128) = _
    rw [List.take_of_length_le (by omega)]
  have h127 : rd (wr m 0 (response env)) 0 127 = response env ++ rd m (response env).length (127 - (response env).length) := by
    have hadd := rd_add (wr m 0 (response env)) 0 (response env).length (127 - (response env).length)
    have hsum : (response env).length + (127 - (response env).length) = 127 := by omega
    rw [hsum] at hadd
    rw [hadd, rd_wr, Nat.zero_add, rd_wr_off (by omega)]
  rw [bufLine, hfst, h127]

theorem bufLine_long (hfit : Fits env.reads 0) (hn : 127 ≤ (response env).length) (hlt : (response env).length < 2 ^ 32) (m : Mem) :
    bufLine env m = line ((response env).take 127) := by
  have hfst : (recv env.reads m 0).1 = wr m 0 ((response env).take 128) :=
    recv_fst hfit (show 0 + (response env).length < 2 ^ 32 by omega)
  have htake : (response env).take 128 = (response env).take 127 ++ ((response env).drop 127).take 1 := by
    rw [← List.take_add]
  have hlen : ((response env).take 127).length = 127 := by
    rw [List.length_take]
    omega
  rw [bufLine, hfst, htake, ← wr_append, hlen, rd_wr_off (by omega), rd_wr_of_eq hlen]

theorem bufLine_kept (hfit : Fits env.reads 0) (hn : 128 ≤ (response env).length) (m : Mem) : bufLine env m = line (kept env) := by
  rw [bufLine, kept]
  congr 1
  refine rd_congr ?_
  intro i _ hi
  exact recv_indep hfit (Nat.zero_le _) (show 128 ≤ 0 + (response env).length by omega) (fun j hj => absurd hj (Nat.not_lt_zero j)) i (by omega)

/-- A response that tells says the same whatever follows it in the buffer. -/
theorem statusLine_of_tells {r s : List UInt8} {status : UInt32} (ht : Tells status r) (hr : r ≠ []) (hlen : r.length < 127)
    (hs : r.length + s.length ≤ 127) : statusLine (line (r ++ s)) = some status ↔ statusLine (line r) = some status := by
  by_cases hline : line r = r
  · rw [line_append hline, hline]
    have hbeg : statusLine r = some status → statusLine (r ++ line s) = some status := fun h => statusLine_append h _
    have hpre := (line_isPrefix s).length_le
    rcases ht with h | h | h | h | h
    · exact absurd h hr
    · omega
    · exact absurd hline h
    · exact iff_of_true (hbeg h) h
    · have hno := h (line s) (line_line s) (by omega)
      exact iff_of_false hno fun h => hno (hbeg h)
  · rw [line_append_of_ne hline]

/-- The outcome of a response that tells. -/
theorem outcome_tells (hfit : Fits env.reads 0) (hr : vt.reqLen = reqLen) (ha : Answered env reqLen) (hlt : (response env).length < 2 ^ 32)
    (ht : Tells vt.probe.expStatus (response env)) : outcome env vt = true ↔ response env ≠ [] ∧
      statusLine (line ((response env).take 127)) = some vt.probe.expStatus := by
  rw [outcome_answered hr ha, Nat.mod_eq_of_lt hlt]
  by_cases hne : response env = []
  · rw [hne]
    exact iff_of_false (fun h => h.1 rfl) fun h => h.1 rfl
  · refine and_congr (not_congr List.length_eq_zero_iff) ?_
    by_cases hlong : 127 ≤ (response env).length
    · rw [bufLine_long hfit hlong hlt]
    · have hshort : (response env).length < 127 := Nat.lt_of_not_le hlong
      rw [bufLine_short hfit (by omega), List.take_of_length_le (by omega)]
      refine statusLine_of_tells ht hne hshort ?_
      rw [length_rd]
      omega

/-- What follows the response in a buffer that some poll left can be anything. -/
theorem tells_of_presentOnly (hfit : Fits env.reads 0) (h : PresentOnly env p reqLen) (ha : Answered env reqLen)
    (hlt : (response env).length < 2 ^ 32) : Tells p.expStatus (response env) := by
  by_contra ht
  simp only [Tells, not_or, not_forall, not_not, not_le] at ht
  obtain ⟨hne, hshort, hline, hno, x, hx, hlen, hyes⟩ := ht
  have hpos : 0 < (response env).length := List.length_pos_of_ne_nil hne
  let vt : Target := { created p reqLen with respBuf := wr (fun _ => 0) (response env).length x }
  have hbuf : bufLine env (startBuf vt) =
      response env ++ x ++ line (rd (startBuf vt) ((response env).length + x.length) (127 - (response env).length - x.length)) := by
    have hsum : 127 - (response env).length = x.length + (127 - (response env).length - x.length) := by omega
    have hrd : rd (startBuf vt) (response env).length x.length = x := by
      rw [startBuf, rd_wr_off (by simp; omega)]
      exact rd_wr _ _ _
    rw [bufLine_short hfit (by omega), line_append hline, List.append_assoc, ← line_append hx]
    conv_lhs => rw [hsum]
    rw [rd_add, hrd]
  have hout : outcome env vt = true := by
    refine (outcome_answered rfl ha).mpr ⟨?_, ?_⟩
    · rw [Nat.mod_eq_of_lt hlt]
      omega
    · rw [hbuf]
      exact statusLine_append hyes _
  have := h.2 vt rfl rfl hout
  rw [hline] at this
  exact hno this

theorem unspoilt_of_presentOnly (hfit : Fits env.reads 0) (h : PresentOnly env p reqLen) (ha : Answered env reqLen)
    (hlong : 2 ^ 32 ≤ (response env).length) : Unspoilt env p.expStatus := by
  by_cases hz : (response env).length % 2 ^ 32 = 0
  · exact .inl hz
  · refine .inr fun hk => ?_
    refine h.2 (created p reqLen) rfl rfl ((outcome_answered rfl ha).mpr ⟨hz, ?_⟩)
    rw [bufLine_kept hfit (by omega)]
    exact hk

/-- **Probe verdicts**: they depend on the present response only, if and only if it tells, or is not used at all. -/
theorem presentOnly_iff (hfit : Fits env.reads 0) : PresentOnly env p reqLen ↔
    ¬ Answered env reqLen ∨ (response env).length < 2 ^ 32 ∧ Tells p.expStatus (response env) ∨
      2 ^ 32 ≤ (response env).length ∧ Unspoilt env p.expStatus := by
  constructor
  · intro h
    by_cases ha : Answered env reqLen
    · by_cases hlt : (response env).length < 2 ^ 32
      · exact .inr (.inl ⟨hlt, tells_of_presentOnly hfit h ha hlt⟩)
      · exact .inr (.inr ⟨Nat.le_of_not_lt hlt, unspoilt_of_presentOnly hfit h ha (Nat.le_of_not_lt hlt)⟩)
    · exact .inl ha
  · intro h
    by_cases ha : Answered env reqLen
    · rcases h with h | ⟨hlt, ht⟩ | ⟨hge, hu⟩
      · exact absurd ha h
      · have hout : ∀ vt, vt.probe = p → vt.reqLen = reqLen → (outcome env vt = true ↔ response env ≠ [] ∧
            statusLine (line ((response env).take 127)) = some p.expStatus) := by
          intro vt hp hr
          subst hp
          exact outcome_tells hfit hr ha hlt ht
        refine ⟨fun vt vt' hp hr hp' hr' => ?_, fun vt hp hr ho => ?_⟩
        · rw [Bool.eq_iff_iff]
          exact (hout vt hp hr).trans (hout vt' hp' hr').symm
        · exact statusLine_take ((hout vt hp hr).mp ho).2
      · have hout : ∀ vt, vt.probe = p → vt.reqLen = reqLen → (outcome env vt = true ↔ (response env).length % 2 ^ 32 ≠ 0 ∧
            statusLine (line (kept env)) = some p.expStatus) := by
          intro vt hp hr
          subst hp
          rw [outcome_answered hr ha, bufLine_kept hfit (by omega)]
        refine ⟨fun vt vt' hp hr hp' hr' => ?_, fun vt hp hr ho => ?_⟩
        · rw [Bool.eq_iff_iff]
          exact (hout vt hp hr).trans (hout vt' hp' hr').symm
        · obtain ⟨hz, hk⟩ := (hout vt hp hr).mp ho
          exact hu.resolve_left hz hk
    · have hout : ∀ vt, vt.reqLen = reqLen → outcome env vt = false := fun vt hr => outcome_unanswered hr ha
      refine ⟨fun vt vt' _ hr _ hr' => ?_, fun vt _ hr ho => ?_⟩
      · rw [hout vt hr, hout vt' hr']
      · rw [hout vt hr] at ho
        cases ho

/-- A backend with an IPv4 address, to which a connection is made at once. -/
def peer (reads : List (List UInt8)) : Env where
  preferIpv6 := false
  ipv4 := true
  ipv6 := false
  tmo _ := 2000
  connects _ := true
  written := 40
  reads
  ending := .eof

/-- `HTTP/1.1 200 OK`, with the end of the line. -/
theorem presentOnly_iff_ok :
    PresentOnly (peer [[72, 84, 84, 80, 47, 49, 46, 49, 32, 50, 48, 48, 32, 79, 75, 13, 10]]) ⟨8, 3, 3, 200⟩ 40 := by
  have hfit : Fits (peer [[72, 84, 84, 80, 47, 49, 46, 49, 32, 50, 48, 48, 32, 79, 75, 13, 10]]).reads 0 :=
    ⟨by decide, by decide, trivial⟩
  refine (presentOnly_iff hfit).mpr (.inr (.inl ⟨by decide, ?_⟩))
  exact .inr (.inr (.inl (by decide)))

/-- `HTTP/1.1` alone goes on with what an earlier poll left in the buffer, such as ` 200 OK`. -/
theorem stale_status : ¬ PresentOnly (peer [[72, 84, 84, 80, 47, 49, 46, 49]]) ⟨8, 3, 3, 200⟩ 40 := by
  intro h
  have ha : Answered (peer [[72, 84, 84, 80, 47, 49, 46, 49]]) 40 := ⟨by decide, by decide, rfl, rfl⟩
  have hfit : Fits (peer [[72, 84, 84, 80, 47, 49, 46, 49]]).reads 0 := ⟨by decide, by decide, trivial⟩
  rcases tells_of_presentOnly hfit h ha (by decide) with h | h | h | h | h
  · exact absurd h (by decide)
  · exact absurd h (by decide)
  · exact absurd h (by decide)
  · exact absurd h (by decide +kernel)
  · exact h [32, 50, 48, 48, 32, 79, 75] (by decide) (by decide) (by decide +kernel)

end Outcome

end Varnish.Probe
