import Mathlib.Algebra.Group.Nat.Defs
import Mathlib.Data.Int.Notation
import Mathlib.Data.PNat.Notation
import Mathlib.Order.Lattice

/-!
# Varnish.Http.Wrw — the write layer of a worker (`cache_wrw.c`)

`writev` takes all that it is given, unless a length is none: the length of `WRW_Write` is an `int`, in which -1 stands for the length of
a string.

* `wrwReserve`, `wrwFlush`, `wrwFlushRelease`, `wrwWrite`: the functions, which fail an assertion where they return `none`.
* `Sound`, `Lost`: all that was passed is on its way; some of it will never be sent.
* `Emits`: a computation passes these pieces, and they are sent if and only if none has 2^31 bytes.
-/

namespace Varnish.Http.Wrw

/-! ## The functions -/

section Functions

/-- What `struct worker` has of the writer, and if the descriptor is open.  `sent` is what `writev` has taken, and `passed` what the
callers of `WRW_Write` mean. -/
structure Worker where
  wfd : Bool
  fd : Bool
  werr : ℕ
  iov : List (List UInt8 × ℤ)
  liov : ℤ
  sent : List UInt8
  passed : List UInt8

/-- What `writev` takes; a length that is no `ssize_t` is invalid. -/
def writev : List (List UInt8 × ℤ) → Option (List UInt8)
  | [] => some []
  | (ptr, len) :: iov => if len < 0 then none else (writev iov).map fun bs => ptr.take len.toNat ++ bs

def wrwReserve (w : Worker) : Option Worker :=
  if w.wfd then none else some { w with wfd := true, werr := 0, iov := [], liov := 0 }

/-- `writev`, and what it returns against `liov`. -/
def send (w : Worker) : Worker :=
  match writev w.iov with
  | some bs => { w with sent := w.sent ++ bs, werr := if (bs.length : ℤ) ≠ w.liov then w.werr + 1 else w.werr }
  | none => { w with werr := if (-1 : ℤ) ≠ w.liov then w.werr + 1 else w.werr }

/-- `w->liov = 0; w->niov = 0` -/
def clear (w : Worker) : Worker := { w with iov := [], liov := 0 }

/-- `WRW_Flush`, behind its assertion. -/
def flush (w : Worker) : Worker := clear (if w.fd = true ∧ w.iov ≠ [] ∧ w.werr = 0 then send w else w)

/-- `WRW_Release` -/
def wrwRelease (w : Worker) : Worker := { clear w with wfd := false, werr := 0 }

/-- `WRW_FlushRelease`, with what it returns. -/
def wrwFlushRelease (w : Worker) : Option (ℕ × Worker) :=
  if w.wfd then some ((flush w).werr, wrwRelease (flush w)) else none

/-- `strlen`, which must find a NUL in the memory. -/
def strlen : List UInt8 → Option ℕ
  | [] => none
  | b :: bs => if b = 0 then some 0 else (strlen bs).map (· + 1)

/-- A new entry of the array. -/
def entry (ptr : List UInt8) (len : ℤ) (w : Worker) : Worker := { w with iov := w.iov ++ [(ptr, len)], liov := w.liov + len }

/-- `WRW_Write` -/
def wrwWrite (siov : ℕ+) (ptr : List UInt8) (len : ℤ) (w : Worker) : Option Worker :=
  if w.wfd = false then none
  else if len = 0 ∨ w.fd = false then some w
  else
    match if len = -1 then (strlen ptr).map Int.ofNat else some len with
    | none => none
    | some len => some (entry ptr len (if w.iov.length = siov then flush w else w))

/-- An `unsigned` as an `int`. -/
def toInt (n : ℕ) : ℤ := if n % 2 ^ 32 < 2 ^ 31 then (n % 2 ^ 32 : ℕ) else (n % 2 ^ 32 : ℕ) - 4294967296

/-- What the caller means. -/
def pass (bs : List UInt8) (w : Worker) : Worker := { w with passed := w.passed ++ bs }

/-- `WRW_Write` of memory. -/
def writeMem (siov : ℕ+) (bs : List UInt8) (w : Worker) : Option Worker := (wrwWrite siov bs (toInt bs.length) w).map (pass bs)

/-- `WRW_Write` of a string. -/
def writeStr (siov : ℕ+) (s : List UInt8) (w : Worker) : Option Worker := (wrwWrite siov (s ++ [0]) (-1) w).map (pass s)

/-- `vca_close_session` -/
def vcaCloseSession (w : Worker) : Worker := { w with fd := false }

/-- `if (WRW_FlushRelease(w)) vca_close_session(sp, "remote closed")` -/
def flushOrClose (w : Worker) : Option Worker :=
  (wrwFlushRelease w).map fun r => if r.1 ≠ 0 then vcaCloseSession r.2 else r.2

/-- The same with a `return`; `k` is what follows otherwise. -/
def flushOrReturn (k : Worker → Option Worker) (w : Worker) : Option Worker :=
  (wrwFlushRelease w).bind fun r => if r.1 ≠ 0 then some (vcaCloseSession r.2) else k r.2

end Functions

/-! ## What is on its way -/

section Way

variable {a b c : Bool} {w w' : Worker} {iov : List (List UInt8 × ℤ)} {bs ptr : List UInt8} {len : ℤ}

/-- All that was passed is sent, or waits for `writev`. -/
structure Sound (a : Bool) (w : Worker) : Prop where
  wfd : w.wfd = a
  fd : w.fd = true
  werr : w.werr = 0
  way : ∃ bs, writev w.iov = some bs ∧ w.liov = bs.length ∧ w.sent ++ bs = w.passed
  empty : a = false → w.iov = []

/-- How much may yet be sent of what waits. -/
def pending (w : Worker) : ℕ := if w.fd = true ∧ w.werr = 0 then ((writev w.iov).map List.length).getD 0 else 0

def Lost (w : Worker) : Prop := w.sent.length + pending w < w.passed.length

theorem writev_append (iov iov' : List (List UInt8 × ℤ)) :
    writev (iov ++ iov') = (writev iov).bind fun bs => (writev iov').map fun bs' => bs ++ bs' := by
  induction iov with
  | nil =>
    rw [List.nil_append, writev, Option.bind_some]
    cases writev iov' with
    | none => rfl
    | some bs' => rfl
  | cons e iov ih =>
    obtain ⟨ptr, len⟩ := e
    rw [List.cons_append, writev, writev, ih]
    split
    · rfl
    · cases writev iov with
      | none => rfl
      | some bs =>
        cases writev iov' with
        | none => rfl
        | some bs' => exact congrArg some (List.append_assoc ..).symm

theorem writev_single (h : ¬ len < 0) : writev [(ptr, len)] = some (ptr.take len.toNat) := by
  rw [writev, if_neg h, writev, Option.map_some, List.append_nil]

theorem pending_nil (h : w.iov = []) : pending w = 0 := by
  unfold pending
  rw [h]
  split <;> rfl

theorem send_some (h : writev w.iov = some bs) :
    send w = { w with sent := w.sent ++ bs, werr := if (bs.length : ℤ) ≠ w.liov then w.werr + 1 else w.werr } := by
  unfold send
  rw [h]

theorem send_none (h : writev w.iov = none) : send w = { w with werr := if (-1 : ℤ) ≠ w.liov then w.werr + 1 else w.werr } := by
  unfold send
  rw [h]

theorem send_keeps (w : Worker) : (send w).passed = w.passed ∧ (send w).wfd = w.wfd := by
  cases h : writev w.iov with
  | none =>
    rw [send_none h]
    exact ⟨rfl, rfl⟩
  | some bs =>
    rw [send_some h]
    exact ⟨rfl, rfl⟩

theorem flush_keeps (w : Worker) : (flush w).passed = w.passed ∧ (flush w).wfd = w.wfd := by
  unfold flush
  split
  · exact send_keeps w
  · exact ⟨rfl, rfl⟩

/-- What is sent was pending. -/
theorem length_flush (w : Worker) : (flush w).sent.length ≤ w.sent.length + pending w := by
  unfold flush
  split
  next h =>
    cases hv : writev w.iov with
    | none =>
      rw [send_none hv]
      exact Nat.le_add_right _ _
    | some bs =>
      have hp : pending w = bs.length := by
        unfold pending
        rw [if_pos ⟨h.1, h.2.2⟩, hv]
        rfl
      rw [send_some hv, hp]
      exact Nat.le_of_eq List.length_append
  · exact Nat.le_add_right _ _

theorem Lost.flushed (h : Lost w) : Lost (flush w) := by
  have hle := length_flush w
  unfold Lost at h ⊢
  rw [pending_nil rfl, (flush_keeps w).1]
  omega

/-- A flush sends all. -/
theorem Sound.flush_eq (h : Sound a w) : flush w = { w with sent := w.passed, iov := [], liov := 0 } := by
  obtain ⟨bs, hbs, hliov, hsent⟩ := h.way
  unfold flush
  by_cases hne : w.iov = []
  · rw [hne] at hbs
    cases hbs
    rw [List.append_nil] at hsent
    have hclear : clear w = { w with sent := w.sent, iov := [], liov := 0 } := rfl
    rw [if_neg fun hc => hc.2.1 hne, hclear, hsent]
  · rw [if_pos ⟨h.fd, hne, h.werr⟩, send_some hbs, if_neg (not_not_intro hliov.symm), hsent]
    rfl

theorem Sound.flushed (h : Sound a w) : Sound a (flush w) := by
  rw [h.flush_eq]
  exact ⟨h.wfd, h.fd, h.werr, ⟨[], rfl, rfl, List.append_nil _⟩, fun _ => rfl⟩

theorem Sound.length (h : Sound a w) : w.sent.length + pending w = w.passed.length := by
  obtain ⟨bs, hbs, -, hsent⟩ := h.way
  unfold pending
  rw [if_pos ⟨h.fd, h.werr⟩, hbs, ← hsent, List.length_append]
  rfl

/-! ### A piece more -/

theorem strlen_lt {n : ℕ} (h : strlen bs = some n) : n < bs.length := by
  induction bs generalizing n with
  | nil => cases h
  | cons b bs ih =>
    rw [strlen] at h
    split at h
    · cases h
      exact Nat.succ_pos _
    · obtain ⟨k, hk, rfl⟩ := Option.map_eq_some_iff.1 h
      exact Nat.succ_lt_succ (ih hk)

/-- The length of a string without a NUL in it. -/
theorem strlen_str (h : 0 ∉ bs) : strlen (bs ++ [0]) = some bs.length := by
  induction bs with
  | nil => rfl
  | cons b bs ih =>
    obtain ⟨hb, hbs⟩ := not_or.1 (fun hc => h (List.mem_cons.2 hc))
    rw [List.cons_append, strlen, if_neg (fun he => hb he.symm), ih hbs]
    rfl

/-- How many bytes an entry has at most. -/
def yields (ptr : List UInt8) (len : ℤ) : ℕ := if len = -1 then (strlen ptr).getD 0 else (ptr.take len.toNat).length

theorem yields_le (ptr : List UInt8) (len : ℤ) : yields ptr len ≤ ptr.length := by
  unfold yields
  split
  · cases h : strlen ptr with
    | none => exact Nat.zero_le _
    | some n => exact (strlen_lt h).le
  · exact List.length_take_le' _ _

/-- With 2^31 bytes or more some are lost. -/
theorem yields_lt (h : 2 ^ 31 ≤ bs.length) : yields bs (toInt bs.length) < bs.length := by
  unfold yields
  split
  · cases hs : strlen bs with
    | none => exact Nat.lt_of_lt_of_le (by decide) h
    | some n => exact strlen_lt hs
  · rw [List.length_take]
    unfold toInt
    split <;> omega

theorem pending_entry (ptr : List UInt8) (len : ℤ) (w : Worker) :
    pending (entry ptr len w) ≤ pending w + (ptr.take len.toNat).length := by
  unfold pending entry
  by_cases h : w.fd = true ∧ w.werr = 0
  · rw [if_pos h, if_pos h, writev_append]
    cases writev w.iov with
    | none => exact Nat.zero_le _
    | some bs =>
      by_cases hneg : len < 0
      · rw [writev, if_pos hneg]
        exact Nat.zero_le _
      · rw [writev_single hneg]
        exact Nat.le_of_eq List.length_append
  · rw [if_neg h]
    exact Nat.zero_le _

theorem entry_le (siov : ℕ+) (ptr : List UInt8) (len : ℤ) (h : entry ptr len (if w.iov.length = siov then flush w else w) = w') :
    w'.passed = w.passed ∧ w'.sent.length + pending w' ≤ w.sent.length + pending w + (ptr.take len.toNat).length := by
  subst h
  split
  · have hentry := pending_entry ptr len (flush w)
    have hzero : pending (flush w) = 0 := pending_nil rfl
    have hle := length_flush w
    have hsent : (entry ptr len (flush w)).sent = (flush w).sent := rfl
    rw [hzero] at hentry
    exact ⟨(flush_keeps w).1, by rw [hsent]; omega⟩
  · have hentry := pending_entry ptr len w
    have hsent : (entry ptr len w).sent = w.sent := rfl
    exact ⟨rfl, by rw [hsent]; omega⟩

/-- What a write adds is at most what it yields. -/
theorem wrwWrite_le {siov : ℕ+} (h : wrwWrite siov ptr len w = some w') :
    w'.passed = w.passed ∧ w'.sent.length + pending w' ≤ w.sent.length + pending w + yields ptr len := by
  unfold wrwWrite at h
  split at h
  · cases h
  · split at h
    · cases h
      exact ⟨rfl, Nat.le_add_right _ _⟩
    · unfold yields
      split at h
      · cases h
      next n hn =>
        obtain ⟨hpassed, hle⟩ := entry_le siov ptr n (Option.some.inj h)
        refine ⟨hpassed, hle.trans (Nat.add_le_add_left ?_ _)⟩
        split at hn
        next hlen =>
          obtain ⟨k, hk, rfl⟩ := Option.map_eq_some_iff.1 hn
          rw [if_pos hlen, hk, List.length_take]
          exact Nat.min_le_left _ _
        next hlen =>
          cases hn
          rw [if_neg hlen]

theorem Sound.entered (h : Sound true w) (hpos : 0 ≤ len) (hlen : len ≤ ptr.length) :
    Sound true (pass (ptr.take len.toNat) (entry ptr len w)) := by
  obtain ⟨bs, hbs, hliov, hsent⟩ := h.way
  refine ⟨h.wfd, h.fd, h.werr, ⟨bs ++ ptr.take len.toNat, ?_, ?_, ?_⟩, fun hf => (by cases hf)⟩
  · show writev (w.iov ++ [(ptr, len)]) = _
    rw [writev_append, hbs, writev_single (Int.not_lt.2 hpos)]
    rfl
  · show w.liov + len = _
    rw [hliov, List.length_append, List.length_take]
    omega
  · show w.sent ++ (bs ++ _) = w.passed ++ _
    rw [← List.append_assoc, hsent]

/-- A write with a length that is one. -/
theorem Sound.write (siov : ℕ+) (h : Sound true w) (hpos : 0 ≤ len) (hlen : len ≤ ptr.length) :
    Sound true (pass (ptr.take len.toNat) (entry ptr len (if w.iov.length = siov then flush w else w))) := by
  split
  · have hflush := h.flushed.entered hpos hlen
    exact hflush
  · exact h.entered hpos hlen

end Way

/-! ## Pieces -/

section Pieces

variable {a b c : Bool} {f g : Worker → Option Worker} {ps qs : List (List UInt8)} {w w' : Worker} {bs : List UInt8}

/-- From `WRW_Reserve` to `WRW_Release`, as `a` and `b` say, the pieces are passed, and what is passed is on its way as long as they are
small. -/
structure Emits (a : Bool) (f : Worker → Option Worker) (ps : List (List UInt8)) (b : Bool) : Prop where
  sound : ∀ w, Sound a w → (∀ x ∈ ps, x.length < 2 ^ 31) → ∃ w', f w = some w' ∧ Sound b w' ∧ w'.passed = w.passed ++ ps.flatten
  large : ∀ w w', Sound a w → ¬ (∀ x ∈ ps, x.length < 2 ^ 31) → f w = some w' → Lost w'
  lost : ∀ w w', Lost w → f w = some w' → Lost w'

theorem Emits.bind (hf : Emits a f ps b) (hg : Emits b g qs c) : Emits a (fun w => (f w).bind g) (ps ++ qs) c where
  sound w h hsmall := by
    obtain ⟨hp, hq⟩ := List.forall_mem_append.1 hsmall
    obtain ⟨w1, hw1, h1, hpass1⟩ := hf.sound w h hp
    obtain ⟨w2, hw2, h2, hpass2⟩ := hg.sound w1 h1 hq
    refine ⟨w2, by rw [hw1]; exact hw2, h2, ?_⟩
    rw [hpass2, hpass1, List.flatten_append, List.append_assoc]
  large w w' h hlarge hw := by
    obtain ⟨w1, hw1, hw'⟩ := Option.bind_eq_some_iff.1 hw
    by_cases hp : ∀ x ∈ ps, x.length < 2 ^ 31
    · obtain ⟨w2, hw2, h2, -⟩ := hf.sound w h hp
      rw [hw1] at hw2
      cases hw2
      exact hg.large w1 w' h2 (fun hq => hlarge (List.forall_mem_append.2 ⟨hp, hq⟩)) hw'
    · exact hg.lost w1 w' (hf.large w w1 h hp hw1) hw'
  lost w w' h hw := by
    obtain ⟨w1, hw1, hw'⟩ := Option.bind_eq_some_iff.1 hw
    exact hg.lost w1 w' (hf.lost w w1 h hw1) hw'

theorem emits_some : Emits a some [] a where
  sound w h _ := ⟨w, rfl, h, (List.append_nil _).symm⟩
  large w w' _ hlarge := absurd (fun x hx => by cases hx) hlarge
  lost w w' h hw := by
    cases hw
    exact h

theorem emits_reserve : Emits false wrwReserve [] true where
  sound w h _ := by
    obtain ⟨bs, hbs, -, hsent⟩ := h.way
    rw [h.empty rfl] at hbs
    cases hbs
    refine ⟨_, if_neg (by rw [h.wfd]; exact Bool.false_ne_true), ⟨rfl, h.fd, rfl, ⟨[], rfl, rfl, hsent⟩, fun hf => (by cases hf)⟩, ?_⟩
    exact (List.append_nil _).symm
  large w w' _ hlarge := absurd (fun x hx => by cases hx) hlarge
  lost w w' h hw := by
    unfold wrwReserve at hw
    split at hw
    · cases hw
    · cases hw
      unfold Lost at h ⊢
      rw [pending_nil rfl]
      dsimp only
      omega

/-- `WRW_FlushRelease` sends all, and returns no error. -/
theorem Sound.released (h : Sound true w) :
    ∃ w', wrwFlushRelease w = some (0, w') ∧ Sound false w' ∧ w'.passed = w.passed := by
  have hflush := h.flushed
  obtain ⟨bs, hbs, -, hsent⟩ := hflush.way
  have hnil : (flush w).iov = [] := rfl
  rw [hnil] at hbs
  cases hbs
  refine ⟨wrwRelease (flush w), ?_, ⟨rfl, hflush.fd, rfl, ⟨[], rfl, rfl, hsent⟩, fun _ => rfl⟩, (flush_keeps w).1⟩
  rw [wrwFlushRelease, if_pos h.wfd, hflush.werr]

theorem Lost.released {r : ℕ × Worker} (h : Lost w) (hw : wrwFlushRelease w = some r) : Lost r.2 := by
  unfold wrwFlushRelease at hw
  split at hw
  · cases hw
    have hflush := h.flushed
    unfold Lost at hflush ⊢
    have hle : (wrwRelease (flush w)).sent.length + 0 ≤ (flush w).sent.length + pending (flush w) := Nat.add_le_add_left (Nat.zero_le _) _
    have hzero : pending (wrwRelease (flush w)) = 0 := pending_nil rfl
    rw [hzero]
    exact hle.trans_lt hflush
  · cases hw

theorem Lost.close (h : Lost w) : Lost (vcaCloseSession w) := by
  have hzero : pending (vcaCloseSession w) = 0 := if_neg fun hc => (by cases hc.1)
  unfold Lost at h ⊢
  rw [hzero]
  exact (Nat.add_le_add_left (Nat.zero_le _) _).trans_lt h

theorem emits_flushOrClose : Emits true flushOrClose [] false where
  sound w h _ := by
    obtain ⟨w', hw', h', hpass⟩ := h.released
    refine ⟨w', ?_, h', by rw [hpass]; exact (List.append_nil _).symm⟩
    rw [flushOrClose, hw']
    rfl
  large w w' _ hlarge := absurd (fun x hx => by cases hx) hlarge
  lost w w' h hw := by
    obtain ⟨r, hr, rfl⟩ := Option.map_eq_some_iff.1 hw
    have hlost := h.released hr
    split
    · exact hlost.close
    · exact hlost

theorem Emits.orReturn (hf : Emits false f ps b) : Emits true (flushOrReturn f) ps b where
  sound w h hsmall := by
    obtain ⟨w1, hw1, h1, hpass1⟩ := h.released
    obtain ⟨w2, hw2, h2, hpass2⟩ := hf.sound w1 h1 hsmall
    refine ⟨w2, ?_, h2, by rw [hpass2, hpass1]⟩
    rw [flushOrReturn, hw1]
    exact hw2
  large w w' h hlarge hw := by
    obtain ⟨w1, hw1, h1, -⟩ := h.released
    rw [flushOrReturn, hw1] at hw
    exact hf.large w1 w' h1 hlarge hw
  lost w w' h hw := by
    obtain ⟨r, hr, hw'⟩ := Option.bind_eq_some_iff.1 hw
    have hlost := h.released hr
    split at hw'
    · cases hw'
      exact hlost.close
    · exact hf.lost r.2 w' hlost hw'

/-- What is done instead where the descriptor is closed. -/
theorem Emits.ifOpen (hf : Emits true f ps b) (hg : Emits true g qs c) : Emits true (fun w => if w.fd = false then g w else f w) ps b where
  sound w h hsmall := by
    obtain ⟨w', hw', h'⟩ := hf.sound w h hsmall
    exact ⟨w', (if_neg (by rw [h.fd]; exact Bool.false_ne_true.symm)).trans hw', h'⟩
  large w w' h hlarge hw := by
    rw [h.fd, if_neg Bool.false_ne_true.symm] at hw
    exact hf.large w w' h hlarge hw
  lost w w' h hw := by
    split at hw
    · exact hg.lost w w' h hw
    · exact hf.lost w w' h hw

/-- A piece that is not sent as a whole. -/
theorem lost_of_write {siov : ℕ+} {ptr : List UInt8} {len : ℤ} (h : w.sent.length + pending w + yields ptr len < w.passed.length + bs.length)
    (hw : (wrwWrite siov ptr len w).map (pass bs) = some w') : Lost w' := by
  obtain ⟨w1, hw1, rfl⟩ := Option.map_eq_some_iff.1 hw
  obtain ⟨hpass, hle⟩ := wrwWrite_le hw1
  have hpend : pending (pass bs w1) = pending w1 := rfl
  have hlen : (pass bs w1).passed.length = w1.passed.length + bs.length := List.length_append
  have hsent : (pass bs w1).sent = w1.sent := rfl
  unfold Lost
  rw [hpend, hlen, hsent, hpass]
  omega

theorem emits_writeMem (siov : ℕ+) (bs : List UInt8) : Emits true (writeMem siov bs) [bs] true where
  sound w h hsmall := by
    have hlt := hsmall bs (List.mem_singleton_self bs)
    have hint : toInt bs.length = bs.length := by
      unfold toInt
      rw [Nat.mod_eq_of_lt (hlt.trans (by decide)), if_pos hlt]
    rw [writeMem, hint, List.flatten_singleton]
    by_cases hz : bs.length = 0
    · refine ⟨pass bs w, ?_, ?_, rfl⟩
      · rw [wrwWrite, if_neg (by rw [h.wfd]; exact Bool.false_ne_true.symm), if_pos (.inl (by omega))]
        rfl
      · obtain rfl := List.length_eq_zero_iff.1 hz
        have hsame : pass [] w = w := by rw [pass, List.append_nil]
        rwa [hsame]
    · have hlen : (bs.length : ℤ) ≤ bs.length := le_rfl
      have hsend := h.write siov (Int.natCast_nonneg bs.length) hlen
      rw [Int.toNat_natCast, List.take_length] at hsend
      refine ⟨_, ?_, hsend, ?_⟩
      · rw [wrwWrite, if_neg (by rw [h.wfd]; exact Bool.false_ne_true.symm), if_neg, if_neg (by omega)]
        · rfl
        · rintro (hl | hf)
          · omega
          · rw [h.fd] at hf
            cases hf
      · show (entry bs bs.length _).passed ++ bs = w.passed ++ bs
        rw [(entry_le siov bs bs.length rfl).1]
  large w w' h hlarge hw := by
    have hle : 2 ^ 31 ≤ bs.length := by
      by_contra hlt
      exact hlarge fun x hx => by rw [List.mem_singleton.1 hx]; omega
    refine lost_of_write ?_ hw
    rw [h.length]
    exact Nat.add_lt_add_left (yields_lt hle) _
  lost w w' h hw := by
    refine lost_of_write ?_ hw
    have hle := yields_le bs (toInt bs.length)
    unfold Lost at h
    omega

theorem emits_writeStr (siov : ℕ+) (hnul : 0 ∉ bs) (hlt : bs.length < 2 ^ 31) : Emits true (writeStr siov bs) [bs] true where
  sound w h _ := by
    have hlen : (bs.length : ℤ) ≤ (bs ++ [0]).length := by
      rw [List.length_append]
      omega
    have hsend := h.write siov (Int.natCast_nonneg bs.length) hlen
    rw [Int.toNat_natCast, List.take_left] at hsend
    refine ⟨_, ?_, hsend, ?_⟩
    · rw [writeStr, wrwWrite, if_neg (by rw [h.wfd]; exact Bool.false_ne_true.symm), if_neg, if_pos rfl, strlen_str hnul]
      · rfl
      · rintro (hl | hf)
        · cases hl
        · rw [h.fd] at hf
          cases hf
    · rw [List.flatten_singleton]
      show (entry (bs ++ [0]) bs.length _).passed ++ bs = w.passed ++ bs
      rw [(entry_le siov (bs ++ [0]) bs.length rfl).1]
  large w w' _ hlarge := absurd (fun x hx => by rwa [List.mem_singleton.1 hx]) hlarge
  lost w w' h hw := by
    refine lost_of_write ?_ hw
    have hle : yields (bs ++ [0]) (-1) ≤ bs.length := by
      unfold yields
      rw [if_pos rfl, strlen_str hnul]
      rfl
    unfold Lost at h
    omega

end Pieces

end Varnish.Http.Wrw
