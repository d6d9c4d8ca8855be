import Varnish.Lib.Bytes
import Varnish.Lib.Run
import Varnish.Lib.Transducer

/-!
# Varnish.Cli.Vlu — lines of a byte stream (`vlu.c`)

* `vluDotelnet`, `findEnd`, `lineLoop`, `lineUpProcess`: the buffer, in which lines end at a CR or NL and telnet sequences are removed.
* `vluStep`: a read of `VLU_Fd`, and the loop of `VLU_Data` with one block copied at each step.
* `framing`: the lines of a stream, by a machine that reads it byte by byte.
-/

namespace Varnish.LineUp

open Varnish.Lib

abbrev Bytes := List UInt8

/-! ## The buffer -/

section Buffer

/-- `struct vlu`, with what was written to the descriptor `telnet`, if that is set. -/
structure Vlu where
  buf : Mem
  bufl : ℕ
  bufp : ℕ
  telnet : Bool
  sent : List Bytes

/-- `VLU_New`, and `VLU_SetTelnet` if `telnet`. -/
def vluNew (junk : Mem) (bufsize : ℕ) (telnet : Bool) : Vlu where
  buf := junk
  bufl := (if bufsize = 0 then 8192 else bufsize) - 1
  bufp := 0
  telnet := telnet
  sent := []

/-- WILL, WONT, DO and DONT, which have an option behind them. -/
def isVerb (c : UInt8) : Bool := 251 ≤ c && c ≤ 254

/-- `vlu_dotelnet` at `p`: whether the sequence is incomplete.  `none` is a failed assertion. -/
def vluDotelnet (l : Vlu) (p : ℕ) : Option (Bool × Vlu) :=
  let e := l.bufp
  if ¬ (p < e ∧ l.buf p = 255) then none
  else if p + 1 = e then some (true, l)
  else if isVerb (l.buf (p + 1)) ∧ p + 2 = e then some (true, l)
  else
    let i := if isVerb (l.buf (p + 1)) then 3 else 2
    let sent := if l.buf (p + 1) = 253 ∨ l.buf (p + 1) = 254 then l.sent ++ [[255, 252, l.buf (p + 2)]] else l.sent
    some (false, { l with buf := wr l.buf p (rd l.buf (p + i) (1 + e - (p + i))), bufp := l.bufp - i, sent := sent })

/-- The sequences at `q`. -/
def skipTelnet : (fuel : ℕ) → Vlu → (q : ℕ) → Option (Bool × Vlu)
  | 0, _, _ => none
  | fuel + 1, l, q =>
    if l.telnet ∧ l.buf q = 255 then
      match vluDotelnet l q with
      | none => none
      | some (true, l) => some (true, l)
      | some (false, l) => skipTelnet fuel l q
    else some (false, l)

def isEol (c : UInt8) : Bool := c = 10 || c = 13

/-- The first CR or NL from `q` on, or the NUL; no place if a sequence is incomplete. -/
def findEnd : (fuel : ℕ) → Vlu → (q : ℕ) → Option (Option ℕ × Vlu)
  | 0, _, _ => none
  | fuel + 1, l, q =>
    if l.buf q = 0 then some (some q, l)
    else
      match skipTelnet (l.bufp + 1) l q with
      | none => none
      | some (true, l) => some (none, l)
      | some (false, l) => if isEol (l.buf q) then some (some q, l) else findEnd fuel l (q + 1)

/-- The C string at `p`. -/
def cString (l : Vlu) (p : ℕ) : Bytes := (rd l.buf p (l.bufl + 1 - p)).takeWhile (· ≠ 0)

/-- What is left at `p` is moved to the front. -/
def keep (l : Vlu) (p : ℕ) : Vlu :=
  if l.buf p ≠ 0 then
    let n := (cString l p).length
    { l with buf := wr (wr l.buf 0 (rd l.buf p n)) n [0], bufp := n }
  else { l with bufp := 0 }

variable (func : List Bytes → ℤ)

/-- The loop over the lines.  `func` answers the last of the lines that it was called with. -/
def lineLoop : (fuel : ℕ) → Vlu → (p : ℕ) → List Bytes → Option (ℤ × List Bytes × Vlu)
  | 0, _, _, _ => none
  | fuel + 1, l, p, lines =>
    if l.buf p = 0 then some (0, lines, keep l p)
    else
      match findEnd (l.bufl + 2) l p with
      | none => none
      | some (none, l) => some (0, lines, l)
      | some (some q, l) =>
        if l.buf q = 0 then some (0, lines, keep l p)
        else
          let l := { l with buf := wr l.buf q [0] }
          let lines := lines ++ [cString l p]
          let i := func lines
          if i ≠ 0 then some (i, lines, l) else lineLoop fuel l (q + 1) lines

/-- `LineUpProcess` -/
def lineUpProcess (l : Vlu) (lines : List Bytes) : Option (ℤ × List Bytes × Vlu) :=
  lineLoop func (l.bufl + 2) { l with buf := wr l.buf l.bufp [0] } 0 lines

/-- Bytes are put behind what is in the buffer. -/
def Vlu.fill (l : Vlu) (d : Bytes) : Vlu := { l with buf := wr l.buf l.bufp d, bufp := l.bufp + d.length }

/-- `VLU_Fd`, when `read` has returned `d`: nothing at the end, or if it was asked for nothing. -/
def vluFd (d : Bytes) (l : Vlu) (lines : List Bytes) : Option (ℤ × List Bytes × Vlu) :=
  if d = [] then some (-1, lines, l) else lineUpProcess func (l.fill d) lines

end Buffer

/-! ## A stream -/

section Stream

/-- A stream that is read: what is to come, and what the loop of `VLU_Data` has not copied yet; the lines that `func` was called
with, and what was returned. -/
structure St where
  vlu : Vlu
  input : Bytes
  todo : Bytes
  lines : List Bytes
  ret : ℤ

def start (l : Vlu) (input : Bytes) : St where
  vlu := l
  input := input
  todo := []
  lines := []
  ret := 0

inductive Act
  /-- `VLU_Fd`, when `k` bytes have come -/
  | fd (k : ℕ)
  /-- `VLU_Data` is called with `k` bytes -/
  | data (k : ℕ)
  /-- its loop -/
  | copy
deriving DecidableEq

def St.space (s : St) : ℕ := s.vlu.bufl - s.vlu.bufp

/-- What goes into the buffer. -/
def St.piece (s : St) : Act → Bytes
  | .fd k => s.input.take (min k s.space)
  | .data _ => []
  | .copy => s.todo.take (min s.todo.length s.space)

/-- The state when `LineUpProcess` has returned. -/
def St.after (s : St) (r : ℤ × List Bytes × Vlu) : St := { s with vlu := r.2.2, lines := r.2.1, ret := r.1 }

def vluStep (func : List Bytes → ℤ) (s : St) : Act → Option St
  | .fd k => (vluFd func (s.piece (.fd k)) s.vlu s.lines).map { s with input := s.input.drop (min k s.space) }.after
  | .data k => some { s with todo := s.input.take k, input := s.input.drop k }
  | .copy => (lineUpProcess func (s.vlu.fill (s.piece .copy)) s.lines).map
      { s with todo := s.todo.drop (min s.todo.length s.space) }.after

/-- The calls that are made: none behind one that has not returned 0, and `read` returns when something has come. -/
def Act.Called (s : St) (a : Act) : Prop :=
  s.ret = 0 ∧ match a with
    | .fd k => s.todo = [] ∧ 0 < k
    | .data _ => s.todo = []
    | .copy => s.todo ≠ []

instance (s : St) (a : Act) : Decidable (a.Called s) :=
  match a with
  | .fd k => inferInstanceAs (Decidable (s.ret = 0 ∧ s.todo = [] ∧ 0 < k))
  | .data _ => inferInstanceAs (Decidable (s.ret = 0 ∧ s.todo = []))
  | .copy => inferInstanceAs (Decidable (s.ret = 0 ∧ s.todo ≠ []))

end Stream

/-! ## Its lines -/

section Framing

/-- Where in a telnet sequence. -/
inductive Tel
  | text
  | iac
  | verb (c : UInt8)
deriving DecidableEq

/-- What has been read of the sequence. -/
def Tel.bytes : Tel → Bytes
  | .text => []
  | .iac => [255]
  | .verb c => [255, c]

/-- The text without telnet sequences. -/
def strip (telnet : Bool) : Transducer Tel UInt8 UInt8 where
  step
    | .text, c => if telnet ∧ c = 255 then ([], .iac) else ([c], .text)
    | .iac, c => if isVerb c then ([], .verb c) else ([], .text)
    | .verb _, _ => ([], .text)

/-- The lines of a text.  The state is the line that has not ended yet. -/
def splitLines : Transducer Bytes UInt8 Bytes where
  step cur c := if isEol c then ([cur], []) else ([], cur ++ [c])

/-- The lines of a stream. -/
def framing (telnet : Bool) : Transducer (Tel × Bytes) UInt8 Bytes := (strip telnet).comp splitLines

/-- What `func` is called with when there are these lines, up to the first that it does not answer with 0. -/
def heard (func : List Bytes → ℤ) : (lines : List Bytes) → List Bytes → ℤ × List Bytes
  | lines, [] => (0, lines)
  | lines, w :: ws => if func (lines ++ [w]) ≠ 0 then (func (lines ++ [w]), lines ++ [w]) else heard func (lines ++ [w]) ws

/-- A telnet sequence ends the text, and its last byte is a CR, an NL or 255. -/
def EndsBadly (telnet : Bool) (x : Bytes) : Prop :=
  ((strip telnet).run .text x.dropLast).2 ≠ .text ∧ ((strip telnet).run .text x).2 = .text ∧
    x.getLast?.any (fun c => isEol c || c = 255) = true

instance (telnet : Bool) (x : Bytes) : Decidable (EndsBadly telnet x) :=
  inferInstanceAs (Decidable (_ ∧ _ ∧ _))

end Framing

/-! ## Telnet sequences -/

section Telnet

variable {telnet : Bool} {tel : Tel} {c : UInt8} {s u x y cur w : Bytes} {q : ℕ} {l l' : Vlu}

theorem isVerb_ne (h : isVerb c = true) : c ≠ 255 ∧ isEol c = false := by
  constructor
  · rintro rfl
    exact absurd h (by decide)
  · rw [Bool.eq_false_iff]
    intro he
    rw [isEol, Bool.or_eq_true, decide_eq_true_eq, decide_eq_true_eq] at he
    rcases he with rfl | rfl <;> exact absurd h (by decide)

/-- What is behind the 255 of a whole sequence. -/
def Seq (s : Bytes) : Prop := (∃ v o, isVerb v = true ∧ s = [v, o]) ∨ ∃ d, isVerb d = false ∧ s = [d]

/-- A sequence that is not whole. -/
def Tel.Open (tel : Tel) : Prop := tel = .iac ∨ ∃ v, isVerb v = true ∧ tel = .verb v

theorem open_or_seq (x : Bytes) : (∃ tel : Tel, tel.Open ∧ 255 :: x = tel.bytes) ∨ ∃ s y, Seq s ∧ x = s ++ y := by
  cases x with
  | nil => exact .inl ⟨.iac, .inl rfl, rfl⟩
  | cons v t =>
    cases hv : isVerb v with
    | false => exact .inr ⟨[v], t, .inr ⟨v, hv, rfl⟩, rfl⟩
    | true =>
      cases t with
      | nil => exact .inl ⟨.verb v, .inr ⟨v, hv, rfl⟩, rfl⟩
      | cons o y => exact .inr ⟨[v, o], y, .inl ⟨v, o, hv, rfl⟩, rfl⟩

theorem strip_seq (hs : Seq s) (y : Bytes) : (strip true).run .text (255 :: (s ++ y)) = (strip true).run .text y := by
  have h255 : (strip true).step .text 255 = ([], .iac) := rfl
  rw [Transducer.run_cons_of_nil _ _ h255]
  rcases hs with ⟨v, o, hv, rfl⟩ | ⟨d, hd, rfl⟩
  · have hstep : (strip true).step .iac v = ([], .verb v) := if_pos hv
    rw [List.cons_append, Transducer.run_cons_of_nil _ _ hstep, List.cons_append]
    exact Transducer.run_cons_of_nil _ _ rfl y
  · have hstep : (strip true).step .iac d = ([], .text) := if_neg (by rw [hd]; exact Bool.false_ne_true)
    rw [List.cons_append, Transducer.run_cons_of_nil _ _ hstep]
    rfl

theorem strip_plain (hc : telnet = true → c ≠ 255) (y : Bytes) :
    (strip telnet).run .text (c :: y) = (c :: ((strip telnet).run .text y).1, ((strip telnet).run .text y).2) := by
  have hstep : (strip telnet).step .text c = ([c], .text) := if_neg fun h => hc h.1 h.2
  rw [Transducer.run_cons, hstep]
  rfl

theorem strip_open (ht : tel.Open) : (strip true).run .text tel.bytes = ([], tel) := by
  rcases ht with rfl | ⟨v, hv, rfl⟩
  · rfl
  · have h255 : (strip true).step .text 255 = ([], .iac) := rfl
    have hstep : (strip true).step .iac v = ([], .verb v) := if_pos hv
    rw [Tel.bytes, Transducer.run_cons_of_nil _ _ h255, Transducer.run_cons_of_nil _ _ hstep]
    rfl

theorem Tel.Open.ne (ht : tel.Open) : tel ≠ .text := by
  rcases ht with rfl | ⟨v, hv, rfl⟩ <;> exact fun h => (by cases h)

/-- A text that ends badly does so behind any text that ends with no sequence open. -/
theorem EndsBadly.append (hu : ((strip telnet).run .text u).2 = .text) (h : EndsBadly telnet y) : EndsBadly telnet (u ++ y) := by
  obtain ⟨h1, h2, h3⟩ := h
  have hy : y ≠ [] := by
    rintro rfl
    exact absurd h3 (by decide)
  refine ⟨?_, ?_, ?_⟩
  · rw [List.dropLast_append_of_ne_nil hy, Transducer.run_append, hu]
    exact h1
  · rw [Transducer.run_append, hu]
    exact h2
  · rw [List.getLast?_append_of_ne_nil _ hy]
    exact h3

/-- The bytes of the last sequence. -/
theorem stale_of_not_endsBadly (hs : Seq s) (h : ¬ EndsBadly true (255 :: s)) : ∀ c ∈ s, c ≠ 255 ∧ isEol c = false := by
  have hlast : ∀ c, (c ≠ 255 ∧ isEol c = false) ∨ (isEol c || c = 255) = true := by
    intro c
    cases isEol c <;> by_cases hc : c = 255 <;> simp [hc]
  have htext := congrArg Prod.snd (strip_seq hs [])
  rw [List.append_nil] at htext
  rcases hs with ⟨v, o, hv, rfl⟩ | ⟨d, hd, rfl⟩
  · have ho : o ≠ 255 ∧ isEol o = false := by
      refine (hlast o).resolve_right fun ho => h ⟨?_, htext, ho⟩
      exact fun hverb => Tel.Open.ne (.inr ⟨v, hv, rfl⟩) ((congrArg Prod.snd (strip_open (.inr ⟨v, hv, rfl⟩))).symm.trans hverb)
    intro c hc
    rcases List.mem_cons.mp hc with rfl | hc
    · exact isVerb_ne hv
    · rw [List.mem_singleton.mp hc]
      exact ho
  · intro c hc
    rw [List.mem_singleton.mp hc]
    exact (hlast d).resolve_right fun hd' => h ⟨(show Tel.iac ≠ .text by decide), htext, hd'⟩

end Telnet

/-! ## The buffer and its text -/

section Texts

variable {tel : Tel} {c : UInt8} {s u x y cur w : Bytes} {p q fuel : ℕ} {l l' l'' : Vlu}

/-- The buffer has the text from `p` on. -/
structure Text (l : Vlu) (p : ℕ) (b : Bytes) : Prop where
  bufp : l.bufp = p + b.length
  stored : StoredAt l.buf p (b ++ [0])

/-- What a scan that begins at `p` leaves. -/
structure Kept (p : ℕ) (l l' : Vlu) : Prop where
  bufl : l'.bufl = l.bufl
  telnet : l'.telnet = l.telnet
  bufp : l'.bufp ≤ l.bufp
  buf : ∀ i < p, l'.buf i = l.buf i

theorem Kept.refl (p : ℕ) (l : Vlu) : Kept p l l := ⟨rfl, rfl, Nat.le_refl _, fun _ _ => rfl⟩

theorem Kept.trans (h : Kept p l l') (h' : Kept p l' l'') : Kept p l l'' :=
  ⟨h'.bufl.trans h.bufl, h'.telnet.trans h.telnet, h'.bufp.trans h.bufp, fun i hi => (h'.buf i hi).trans (h.buf i hi)⟩

theorem Kept.mono (h : Kept q l l') (hp : p ≤ q) : Kept p l l' := ⟨h.bufl, h.telnet, h.bufp, fun i hi => h.buf i (Nat.lt_of_lt_of_le hi hp)⟩

theorem Text.head (h : Text l p (c :: x)) : l.buf p = c := (storedAt_cons.mp h.stored).1

theorem Text.end_zero (h : Text l p []) : l.buf p = 0 := (storedAt_cons.mp h.stored).1

theorem Text.right (h : Text l p (cur ++ x)) : Text l (p + cur.length) x := by
  obtain ⟨h1, h2⟩ := h
  rw [List.append_assoc, storedAt_append] at h2
  rw [List.length_append, ← Nat.add_assoc] at h1
  exact ⟨h1, h2.2⟩

/-- What is behind a text is replaced. -/
theorem Text.join (h : Text l p (cur ++ x)) (hk : Kept (p + cur.length) l l') (h' : Text l' (p + cur.length) y) : Text l' p (cur ++ y) := by
  have hcur := h.stored
  rw [List.append_assoc, storedAt_append] at hcur
  refine ⟨?_, ?_⟩
  · rw [h'.bufp, List.length_append, Nat.add_assoc]
  · rw [List.append_assoc, storedAt_append]
    refine ⟨?_, h'.stored⟩
    rw [StoredAt, rd_congr fun i _ hi => hk.buf i hi]
    exact hcur.1

/-- `vlu_dotelnet` removes a whole sequence.  At the end of the text its bytes stay behind the NUL. -/
theorem vluDotelnet_seq (hs : Seq s) (h : Text l q (255 :: (s ++ y))) : ∃ l', vluDotelnet l q = some (false, l') ∧ Kept q l l' ∧ Text l' q y ∧
    (y = [] → StoredAt l'.buf (q + 1) (s ++ [0])) := by
  obtain ⟨hp, hst⟩ := h
  rw [List.length_cons, List.length_append] at hp
  rw [List.cons_append, List.append_assoc, storedAt_cons, storedAt_append] at hst
  obtain ⟨h255, hseq, hrest⟩ := hst
  have hmove : rd l.buf (q + 1 + s.length) (1 + l.bufp - (q + 1 + s.length)) = y ++ [0] := by
    refine hrest.rd ?_
    rw [List.length_append, List.length_singleton]
    omega
  have hlen : s.length = (if isVerb (l.buf (q + 1)) then 2 else 1) ∧ ¬ (isVerb (l.buf (q + 1)) = true ∧ q + 2 = l.bufp) ∧ s ≠ [] := by
    rcases hs with ⟨v, o, hv, rfl⟩ | ⟨d, hd, rfl⟩
    · rw [storedAt_cons] at hseq
      rw [hseq.1, hv]
      refine ⟨rfl, fun hc => ?_, List.cons_ne_nil _ _⟩
      simp only [List.length_cons, List.length_nil] at hp
      omega
    · rw [storedAt_cons] at hseq
      rw [hseq.1, hd]
      exact ⟨rfl, fun hc => absurd hc.1 Bool.false_ne_true, List.cons_ne_nil _ _⟩
  obtain ⟨hi, hcut, hne⟩ := hlen
  have hpos : 0 < s.length := List.length_pos_iff.mpr hne
  have hi' : q + (if isVerb (l.buf (q + 1)) = true then 3 else 2) = q + 1 + s.length := by
    rw [hi]
    split <;> rfl
  obtain ⟨sent, heq⟩ : ∃ sent, vluDotelnet l q = some (false, { l with buf := wr l.buf q (y ++ [0]), bufp := q + y.length, sent := sent }) := by
    have hbufp : l.bufp - (if isVerb (l.buf (q + 1)) = true then 3 else 2) = q + y.length := by omega
    rw [vluDotelnet, if_neg (not_not.mpr ⟨by omega, h255⟩), if_neg (by omega), if_neg hcut]
    dsimp only
    rw [hi', hmove, hbufp]
    exact ⟨_, rfl⟩
  refine ⟨_, heq, ⟨rfl, rfl, ?_, fun i hi => wr_of_lt hi⟩, ⟨rfl, storedAt_wr _ _ _⟩, ?_⟩
  · dsimp only
    omega
  · rintro rfl
    exact StoredAt.wr_off (storedAt_append.mpr ⟨hseq, hrest⟩) (.inr (Nat.le_refl _))

/-- It waits for the rest of one that is not whole. -/
theorem vluDotelnet_open (ht : tel.Open) (h : Text l q tel.bytes) : vluDotelnet l q = some (true, l) := by
  rcases ht with rfl | ⟨v, hv, rfl⟩
  · have hp : l.bufp = q + 1 := h.bufp
    rw [vluDotelnet, if_neg (by rw [h.head, hp]; simp), if_pos hp.symm]
  · have hp : l.bufp = q + 2 := h.bufp
    have h1 := (storedAt_cons.mp (storedAt_cons.mp h.stored).2).1
    rw [vluDotelnet, if_neg (by rw [h.head, hp]; simp), if_neg (by omega), if_pos ⟨by rw [h1]; exact hv, hp.symm⟩]

/-- Whole sequences in front of a text. -/
inductive Skips : Bytes → Bytes → Prop
  | refl (x : Bytes) : Skips x x
  | seq {s y x : Bytes} (hs : Seq s) (h : Skips y x) : Skips (255 :: (s ++ y)) x

theorem Skips.strip (h : Skips x y) : (strip true).run .text x = (strip true).run .text y := by
  induction h with
  | refl x => rfl
  | seq hs _ ih => rw [strip_seq hs, ih]

theorem Skips.endsBadly (h : Skips x y) (hy : EndsBadly true y) : EndsBadly true x := by
  induction h with
  | refl x => exact hy
  | seq hs _ ih =>
    rename_i s y x _
    have hu := congrArg Prod.snd (strip_seq hs [])
    rw [List.append_nil] at hu
    rw [← List.cons_append]
    exact (ih hy).append hu

theorem Skips.suffix (h : Skips x y) : y <:+ x := by
  induction h with
  | refl x => exact List.suffix_refl x
  | seq hs _ ih => exact (ih.trans (List.suffix_append _ _)).trans (List.suffix_cons _ _)

/-- What the bytes of a removed last sequence are like, behind the NUL at `q`. -/
def Stale (x : Bytes) (q : ℕ) (l : Vlu) : Prop :=
  ∃ s, Seq s ∧ StoredAt l.buf (q + 1) (s ++ [0]) ∧ s <:+ x ∧ s.length < x.length ∧ (¬ EndsBadly true x → ∀ c ∈ s, c ≠ 255 ∧ isEol c = false)

theorem Stale.seq (hs : Seq s) (h : Stale y q l) : Stale (255 :: (s ++ y)) q l := by
  obtain ⟨t, ht, hst, hsuf, hlen, hbad⟩ := h
  refine ⟨t, ht, hst, (hsuf.trans (List.suffix_append _ _)).trans (List.suffix_cons _ _), ?_, fun hx => hbad fun hy => hx ?_⟩
  · rw [List.length_cons, List.length_append]
    omega
  · exact (Skips.seq hs (.refl y)).endsBadly hy

/-- The sequences at `q` are removed: either one is left that is not whole, or none. -/
theorem skipTelnet_spec (h : Text l q x) (hf : x.length < fuel) :
    (∃ (tel : Tel) (l' : Vlu), skipTelnet fuel l q = some (true, l') ∧ l.telnet = true ∧ tel.Open ∧ Skips x tel.bytes ∧ Kept q l l' ∧
      Text l' q tel.bytes) ∨
    ∃ (y : Bytes) (l' : Vlu), skipTelnet fuel l q = some (false, l') ∧ (l.telnet = true → Skips x y ∧ l'.buf q ≠ 255) ∧
      (l.telnet = false → y = x) ∧ Kept q l l' ∧ Text l' q y ∧ (y = [] → x = [] ∧ l' = l ∨ Stale x q l') := by
  induction fuel generalizing l x with
  | zero => exact absurd hf (Nat.not_lt_zero _)
  | succ fuel ih =>
    by_cases hc : l.telnet = true ∧ l.buf q = 255
    · obtain ⟨htel, h255⟩ := hc
      have hx : ∃ t, x = 255 :: t := by
        cases x with
        | nil => exact absurd (h.end_zero.symm.trans h255) (by decide)
        | cons c t => exact ⟨t, congrArg (· :: t) (h.head.symm.trans h255)⟩
      obtain ⟨t, rfl⟩ := hx
      rw [skipTelnet, if_pos ⟨htel, h255⟩]
      rcases open_or_seq t with ⟨tel, ht, heq⟩ | ⟨s, y, hs, rfl⟩
      · rw [heq] at h ⊢
        rw [vluDotelnet_open ht h]
        exact .inl ⟨tel, l, rfl, htel, ht, .refl _, .refl q l, h⟩
      · obtain ⟨l₁, h1, hk, htext, hstale⟩ := vluDotelnet_seq hs h
        rw [h1]
        rw [List.length_cons, List.length_append] at hf
        have htel₁ : l₁.telnet = true := hk.telnet.trans htel
        rcases ih htext (by omega) with ⟨tel, l', h', -, ht, hsk, hk', ht'⟩ | ⟨z, l', h', hsk, -, hk', ht', hz⟩
        · exact .inl ⟨tel, l', h', htel, ht, .seq hs hsk, hk.trans hk', ht'⟩
        · refine .inr ⟨z, l', h', fun _ => ⟨.seq hs (hsk htel₁).1, (hsk htel₁).2⟩, fun hoff => ?_, hk.trans hk', ht', fun hnil => .inr ?_⟩
          · exact absurd (htel.symm.trans hoff) (by decide)
          · rcases hz hnil with ⟨rfl, rfl⟩ | hz
            · have hst := hstale rfl
              rw [List.append_nil]
              exact ⟨s, hs, hst, List.suffix_cons _ _, Nat.lt_succ_self _, stale_of_not_endsBadly hs⟩
            · exact hz.seq hs
    · rw [skipTelnet, if_neg hc]
      exact .inr ⟨x, l, rfl, fun htel => ⟨.refl x, fun h255 => hc ⟨htel, h255⟩⟩, fun _ => rfl, .refl q l, h,
        fun hnil => .inl ⟨hnil, rfl⟩⟩

/-! ### One line -/

theorem framing_skips (hs : Skips x y) : (framing true).run (.text, cur) x = (framing true).run (.text, cur) y := by
  rw [framing, Transducer.comp_run, Transducer.comp_run, hs.strip]

theorem framing_open (ht : tel.Open) : (framing true).run (.text, cur) tel.bytes = ([], tel, cur) := by
  rw [framing, Transducer.comp_run, strip_open ht]
  rfl

theorem framing_plain {telnet : Bool} (hc : telnet = true → c ≠ 255) (he : isEol c = false) (y : Bytes) :
    (framing telnet).run (.text, cur) (c :: y) = (framing telnet).run (.text, cur ++ [c]) y := by
  have hstep : splitLines.step cur c = ([], cur ++ [c]) := if_neg (by rw [he]; exact Bool.false_ne_true)
  rw [framing, Transducer.comp_run, strip_plain hc, Transducer.comp_run, Transducer.run_cons_of_nil _ _ hstep]

theorem framing_eol {telnet : Bool} (hc : telnet = true → c ≠ 255) (he : isEol c = true) (y : Bytes) :
    (framing telnet).run (.text, cur) (c :: y) = (cur :: ((framing telnet).run (.text, []) y).1, ((framing telnet).run (.text, []) y).2) := by
  have hstep : splitLines.step cur c = ([cur], []) := if_pos he
  rw [framing, Transducer.comp_run, strip_plain hc, Transducer.comp_run, Transducer.run_cons, hstep]
  rfl

/-- The bytes behind the NUL are passed over. -/
theorem findEnd_stale (h : StoredAt l.buf q (s ++ [0])) (h0 : 0 ∉ s) (hs : ∀ c ∈ s, c ≠ 255 ∧ isEol c = false) (hf : s.length < fuel) :
    findEnd fuel l q = some (some (q + s.length), l) := by
  induction s generalizing q fuel with
  | nil =>
    obtain ⟨f, rfl⟩ := Nat.exists_eq_succ_of_ne_zero (Nat.ne_of_gt hf)
    rw [findEnd, if_pos (storedAt_cons.mp h).1]
    rfl
  | cons c s ih =>
    obtain ⟨f, rfl⟩ := Nat.exists_eq_succ_of_ne_zero (Nat.ne_of_gt (Nat.lt_of_le_of_lt (Nat.zero_le _) hf))
    obtain ⟨hc, hrest⟩ := storedAt_cons.mp h
    obtain ⟨h255, heol⟩ := hs c List.mem_cons_self
    have hne : c ≠ 0 := fun hc => h0 (hc ▸ List.mem_cons_self)
    rw [findEnd, if_neg (by rw [hc]; exact hne), skipTelnet, if_neg (by rw [hc]; exact fun hcon => h255 hcon.2)]
    dsimp only
    rw [hc, heol, if_neg Bool.false_ne_true,
      ih hrest (fun h => h0 (List.mem_cons_of_mem _ h)) (fun c hc => hs c (List.mem_cons_of_mem _ hc)) (Nat.lt_of_succ_lt_succ hf),
      List.length_cons, Nat.add_assoc, Nat.add_comm 1]

/-- What a scan of `x` finds, when `cur` of the line is behind it. -/
inductive Found (telnet : Bool) (cur x : Bytes) (p : ℕ) (l : Vlu) : Option ℕ → Prop
  | cut {tel : Tel} {w : Bytes} (ht : tel ≠ .text) (hrun : (framing telnet).run (.text, cur) x = ([], tel, w))
      (htext : Text l p (w ++ tel.bytes)) : Found telnet cur x p l none
  | stop {w : Bytes} {q : ℕ} (h0 : 0 ∉ w) (hrun : (framing telnet).run (.text, cur) x = ([], .text, w)) (htext : Text l p w)
      (hq : l.buf q = 0) : Found telnet cur x p l (some q)
  | eol {w y : Bytes} {c : UInt8} (h0 : 0 ∉ w ++ c :: y)
      (hrun : (framing telnet).run (.text, cur) x = (w :: ((framing telnet).run (.text, []) y).1, ((framing telnet).run (.text, []) y).2))
      (htext : Text l p (w ++ c :: y)) (hlen : y.length < x.length) (hbad : EndsBadly telnet y → EndsBadly telnet x) :
      Found telnet cur x p l (some (p + w.length))

/-- What is found in a text that reads the same is found here. -/
theorem Found.of {telnet : Bool} {cur' : Bytes} {r : Option ℕ} (hrun : (framing telnet).run (.text, cur) x = (framing telnet).run (.text, cur') y)
    (hlen : y.length ≤ x.length) (hbad : EndsBadly telnet y → EndsBadly telnet x) (h : Found telnet cur' y p l r) :
    Found telnet cur x p l r := by
  cases h with
  | cut ht hr htext => exact .cut ht (hrun.trans hr) htext
  | stop h0 hr htext hq => exact .stop h0 (hrun.trans hr) htext hq
  | eol h0 hr htext hl hb => exact .eol h0 (hrun.trans hr) htext (Nat.lt_of_lt_of_le hl hlen) fun hz => hbad (hb hz)

theorem EndsBadly.cons {telnet : Bool} (hc : telnet = true → c ≠ 255) (h : EndsBadly telnet y) : EndsBadly telnet (c :: y) :=
  EndsBadly.append (u := [c]) (congrArg Prod.snd (strip_plain hc [])) h

/-- `y` is `x` without the sequences in front. -/
structure Cleared (telnet : Bool) (x y : Bytes) : Prop where
  suffix : y <:+ x
  run : ∀ cur, (framing telnet).run (.text, cur) x = (framing telnet).run (.text, cur) y
  bad : EndsBadly telnet y → EndsBadly telnet x

theorem cleared_of {telnet : Bool} (hon : telnet = true → Skips x y) (hoff : telnet = false → y = x) : Cleared telnet x y := by
  cases telnet with
  | true => exact ⟨(hon rfl).suffix, fun _ => framing_skips (hon rfl), (hon rfl).endsBadly⟩
  | false =>
    obtain rfl := hoff rfl
    exact ⟨⟨[], rfl⟩, fun _ => rfl, id⟩

theorem Cleared.cons {telnet : Bool} (hx : Cleared telnet x (c :: y)) (hc : telnet = true → c ≠ 255) (h : EndsBadly telnet y) :
    EndsBadly telnet x :=
  hx.bad (h.cons hc)

/-- Nothing is left of the text at `q`: the scan ends behind the bytes of its last sequence. -/
theorem findEnd_cleared (h : Stale x q l) (h0 : 0 ∉ x) (hbad : ¬ EndsBadly true x) (hf : x.length ≤ fuel) :
    ∃ r, findEnd fuel l (q + 1) = some (some r, l) ∧ l.buf r = 0 := by
  obtain ⟨s, hs, hst, hsuf, hlen, hsbad⟩ := h
  have hfound := findEnd_stale hst (fun hm => h0 (hsuf.subset hm)) (hsbad hbad) (Nat.lt_of_lt_of_le hlen hf)
  exact ⟨_, hfound, (storedAt_cons.mp (storedAt_append.mp hst).2).1⟩

/-- The scan of a text finds its first line, or what there is of it. -/
theorem findEnd_spec (h : Text l p (cur ++ x)) (h0 : 0 ∉ cur ++ x)
    (hbad : ((framing l.telnet).run (.text, cur) x).1 = [] → ¬ EndsBadly l.telnet x) (hf : x.length < fuel) :
    ∃ r l', findEnd fuel l (p + cur.length) = some (r, l') ∧ Kept p l l' ∧ Found l.telnet cur x p l' r := by
  induction fuel generalizing l cur x with
  | zero => exact absurd hf (Nat.not_lt_zero _)
  | succ fuel ih =>
    have h0cur : 0 ∉ cur := fun hm => h0 (List.mem_append_left _ hm)
    have h0x : 0 ∉ x := fun hm => h0 (List.mem_append_right _ hm)
    cases x with
    | nil =>
      have hz := h.right.end_zero
      rw [findEnd, if_pos hz]
      rw [List.append_nil] at h
      exact ⟨_, l, rfl, .refl p l, .stop h0cur rfl h hz⟩
    | cons c t =>
      have hc : l.buf (p + cur.length) = c := h.right.head
      have hne : c ≠ 0 := fun hc => h0x (hc ▸ List.mem_cons_self)
      have hlen : (c :: t).length < l.bufp + 1 := by
        have := h.right.bufp
        omega
      rw [findEnd, if_neg (by rw [hc]; exact hne)]
      rcases skipTelnet_spec h.right hlen with ⟨tel, l', h', htel, ht, hsk, hk, ht'⟩ | ⟨y, l', h', hon, hoff, hk, ht', hy⟩
      · rw [h']
        refine ⟨none, l', rfl, hk.mono (Nat.le_add_right _ _), ?_⟩
        rw [htel]
        exact .cut ht.ne ((framing_skips hsk).trans (framing_open ht)) (h.join hk ht')
      · rw [h']
        have hcl : Cleared l.telnet (c :: t) y := cleared_of (fun htel => (hon htel).1) hoff
        have hjoin := h.join hk ht'
        have hkp := hk.mono (Nat.le_add_right p cur.length)
        dsimp only
        cases y with
        | nil =>
          have hstale : Stale (c :: t) (p + cur.length) l' := (hy rfl).resolve_left fun hcon => (by cases hcon.1)
          have htel : l.telnet = true := eq_true_of_ne_false fun htel => (by cases hoff htel)
          have hnb := hbad (congrArg Prod.fst (hcl.run cur))
          rw [htel] at hnb
          obtain ⟨r, hr, hr0⟩ := findEnd_cleared hstale h0x hnb (Nat.le_of_lt_succ hf)
          rw [ht'.end_zero, if_neg (by decide), hr]
          rw [List.append_nil] at hjoin
          exact ⟨_, l', rfl, hkp, .stop h0cur (hcl.run cur) hjoin hr0⟩
        | cons d y =>
          have hd : l.telnet = true → d ≠ 255 := by
            intro htel h255
            exact (hon htel).2 (ht'.head.trans h255)
          have h0' : 0 ∉ cur ++ d :: y := fun hm => (List.mem_append.mp hm).elim h0cur fun hm => h0x (hcl.suffix.subset hm)
          have hlen' : (d :: y).length ≤ (c :: t).length := hcl.suffix.length_le
          rw [ht'.head]
          cases he : isEol d with
          | true =>
            rw [if_pos rfl]
            exact ⟨_, l', rfl, hkp, .eol h0' ((hcl.run cur).trans (framing_eol hd he y)) hjoin hlen' (hcl.cons hd)⟩
          | false =>
            rw [if_neg Bool.false_ne_true]
            have hrun := (hcl.run cur).trans (framing_plain hd he y)
            rw [List.append_cons] at hjoin h0'
            rw [List.length_cons] at hlen'
            obtain ⟨r, l'', hr, hk'', hfound⟩ := ih hjoin h0' (by
              rw [hk.telnet, ← hrun]
              exact fun hnil hbad' => hbad hnil (hcl.cons hd hbad')) (by omega)
            rw [List.length_append, List.length_singleton, ← Nat.add_assoc] at hr
            rw [hk.telnet] at hfound
            exact ⟨r, l'', hr, hkp.trans hk'', hfound.of hrun (by omega) (hcl.cons hd)⟩

end Texts

end Varnish.LineUp
