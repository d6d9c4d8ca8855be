import Varnish.Cli.Vlu

/-!
# Varnish.Cli.Reassemble — the lines do not depend on the pieces (`LineUpProcess`, `VLU_Fd`, `VLU_Data`)

* `lineLoop_spec`: one pass over the buffer calls `func` with its lines, and leaves the line that has not ended.
* `St.Right`: the lines are those of what has been read.
* `reach_lines`: this holds in every state of a run in which there is room in the buffer, no line of it was delivered before, and no
  telnet sequence ends it with a CR, an NL or 255.
-/

namespace Varnish.LineUp

open Varnish.Lib

/-! ## One pass -/

section Pass

variable {func : List Bytes → ℤ} {x y w : Bytes} {p fuel : ℕ} {l l' : Vlu} {lines a b : List Bytes}

/-- The lines of a stream. -/
def linesOf (telnet : Bool) (x : Bytes) : List Bytes := ((framing telnet).run (.text, []) x).1

/-- What the buffer has to hold behind a stream. -/
def restOf (telnet : Bool) (x : Bytes) : Bytes := ((framing telnet).run (.text, []) x).2.2 ++ ((framing telnet).run (.text, []) x).2.1.bytes

/-- What is in the buffer. -/
def Vlu.text (l : Vlu) : Bytes := rd l.buf 0 l.bufp

theorem mem_rd {m : Mem} {off n i : ℕ} (h1 : off ≤ i) (h2 : i < off + n) : m i ∈ rd m off n :=
  List.mem_map_of_mem (List.mem_range'_1.mpr ⟨h1, h2⟩)

theorem cString_spec (h : StoredAt l.buf p (w ++ [0])) (h0 : 0 ∉ w) (hl : p + w.length ≤ l.bufl) : cString l p = w := by
  have hlen : l.bufl + 1 - p = (w ++ [0]).length + (l.bufl - (p + w.length)) := by
    rw [List.length_append, List.length_singleton]
    omega
  rw [cString, hlen, rd_add, h.rd rfl, List.append_assoc, List.takeWhile_append_of_pos fun c hc => ?_]
  · rw [List.singleton_append, List.takeWhile_cons_of_neg (by decide), List.append_nil]
  · exact decide_eq_true fun hz => h0 (hz ▸ hc)

/-- What is left of a text is moved to the front. -/
theorem keep_spec (h : Text l p w) (h0 : 0 ∉ w) (hl : l.bufp ≤ l.bufl) :
    (keep l p).text = w ∧ (keep l p).bufl = l.bufl ∧ (keep l p).telnet = l.telnet ∧ (keep l p).bufp ≤ l.bufp := by
  have hp := h.bufp
  cases w with
  | nil =>
    rw [keep, if_neg (not_not.mpr h.end_zero)]
    exact ⟨rfl, rfl, rfl, Nat.zero_le _⟩
  | cons c t =>
    have hne : l.buf p ≠ 0 := by
      rw [h.head]
      rintro rfl
      exact h0 List.mem_cons_self
    have hstr : cString l p = c :: t := cString_spec h.stored h0 (by omega)
    have hw : rd l.buf p (c :: t).length = c :: t := (storedAt_append.mp h.stored).1
    rw [keep, if_pos hne, hstr]
    dsimp only
    rw [hw]
    refine ⟨?_, rfl, rfl, by omega⟩
    show rd _ 0 (c :: t).length = c :: t
    rw [rd_wr_off (.inl (by rw [Nat.zero_add])), rd_wr]

theorem heard_append (h : (heard func lines a).1 = 0) : heard func lines (a ++ b) = heard func (heard func lines a).2 b := by
  induction a generalizing lines with
  | nil => rfl
  | cons w a ih =>
    rw [heard] at h ⊢
    rw [List.cons_append, heard]
    by_cases hf : func (lines ++ [w]) ≠ 0
    · rw [if_pos hf] at h
      exact absurd h hf
    · rw [if_neg hf] at h ⊢
      rw [if_neg hf]
      exact ih h

/-- The end of the line is overwritten. -/
def Vlu.ended (l : Vlu) (q : ℕ) : Vlu := { l with buf := wr l.buf q [0] }

theorem ended_zero (l : Vlu) (q : ℕ) : (l.ended q).buf (q + 1 - 1) = 0 := (storedAt_cons.mp (storedAt_wr l.buf q [0])).1

theorem ended {c : UInt8} (h : Text l p (w ++ c :: y)) :
    StoredAt (l.ended (p + w.length)).buf p (w ++ [0]) ∧ Text (l.ended (p + w.length)) (p + w.length + 1) y := by
  obtain ⟨hb, hst⟩ := h
  rw [List.append_assoc, storedAt_append, List.cons_append, storedAt_cons] at hst
  rw [List.length_append, List.length_cons] at hb
  refine ⟨storedAt_append.mpr ⟨hst.1.wr_off (.inl (Nat.le_refl _)), storedAt_wr _ _ _⟩, ?_, hst.2.2.wr_off (.inr (Nat.le_refl _))⟩
  show l.bufp = _
  omega

/-- A pass over the lines from `p` on.  Before `p` is the NUL of a line that was delivered. -/
theorem lineLoop_spec (h : Text l p x) (h0 : 0 ∉ x) (hp : p = 0 ∨ l.buf (p - 1) = 0) (hl : l.bufp ≤ l.bufl)
    (hbad : (heard func lines (linesOf l.telnet x)).1 = 0 → ¬ EndsBadly l.telnet x) (hf : x.length < fuel) :
    ∃ l', lineLoop func fuel l p lines = some ((heard func lines (linesOf l.telnet x)).1, (heard func lines (linesOf l.telnet x)).2, l') ∧
      l'.bufl = l.bufl ∧ l'.telnet = l.telnet ∧ l'.bufp ≤ l.bufp ∧
      ((heard func lines (linesOf l.telnet x)).1 = 0 → ((framing l.telnet).run (.text, []) x).2.1 = .text ∨ 0 ∉ l'.text →
        l'.text = restOf l.telnet x) := by
  induction fuel generalizing l p x lines with
  | zero => exact absurd hf (Nat.not_lt_zero _)
  | succ fuel ih =>
    rw [linesOf] at hbad ⊢
    rw [lineLoop, restOf]
    by_cases hz : l.buf p = 0
    · have hx : x = [] := by
        cases x with
        | nil => rfl
        | cons c t => exact absurd (h.head.symm.trans hz ▸ List.mem_cons_self) h0
      subst hx
      obtain ⟨h1, h2, h3, h4⟩ := keep_spec h h0 hl
      rw [if_pos hz]
      exact ⟨_, rfl, h2, h3, h4, fun _ _ => h1⟩
    · have hpx := h.bufp
      obtain ⟨r, l₁, hr, hk, hfound⟩ := @findEnd_spec x [] p (l.bufl + 2) l h h0 (fun hnil => hbad (by rw [hnil]; rfl)) (by omega)
      have hl₁ : l₁.bufp ≤ l₁.bufl := le_trans hk.bufp (le_trans hl (Nat.le_of_eq hk.bufl.symm))
      have hr : findEnd (l.bufl + 2) l p = some (r, l₁) := hr
      rw [if_neg hz, hr]
      cases hfound with
      | cut ht hrun htext =>
        rename_i tel w
        rw [hrun]
        refine ⟨l₁, rfl, hk.bufl, hk.telnet, hk.bufp, fun _ hleft => ?_⟩
        have hzero : 0 ∉ l₁.text := hleft.resolve_left ht
        by_cases hp0 : p = 0
        · subst hp0
          exact (storedAt_append.mp htext.stored).1.rd (by rw [htext.bufp, Nat.zero_add])
        · have hnul : l₁.buf (p - 1) = 0 := (hk.buf (p - 1) (by omega)).trans (hp.resolve_left hp0)
          have hb := htext.bufp
          exact absurd (hnul ▸ mem_rd (Nat.zero_le _) (by omega)) hzero
      | stop h0w hrun htext hq =>
        obtain ⟨h1, h2, h3, h4⟩ := keep_spec htext h0w hl₁
        dsimp only
        rw [if_pos hq, hrun]
        refine ⟨_, rfl, h2.trans hk.bufl, h3.trans hk.telnet, le_trans h4 hk.bufp, fun _ _ => ?_⟩
        rw [h1]
        exact (List.append_nil _).symm
      | @eol w y c h0w hrun htext hlen hb =>
        have hw : 0 ∉ w := fun hm => h0w (List.mem_append_left _ hm)
        have hy : 0 ∉ y := fun hm => h0w (List.mem_append_right _ (List.mem_cons_of_mem _ hm))
        have hc : l₁.buf (p + w.length) ≠ 0 := by
          rw [htext.right.head]
          rintro rfl
          exact h0w (List.mem_append_right _ List.mem_cons_self)
        have hb₁ := htext.bufp
        rw [List.length_append, List.length_cons] at hb₁
        obtain ⟨h1, h2⟩ := ended htext
        have hstr : cString (l₁.ended (p + w.length)) p = w := cString_spec h1 hw (show p + w.length ≤ l₁.bufl by omega)
        dsimp only
        rw [if_neg hc]
        show ∃ l', (if func (lines ++ [cString (l₁.ended (p + w.length)) p]) ≠ 0 then
            some (func (lines ++ [cString (l₁.ended (p + w.length)) p]), lines ++ [cString (l₁.ended (p + w.length)) p], l₁.ended (p + w.length))
          else lineLoop func fuel (l₁.ended (p + w.length)) (p + w.length + 1) (lines ++ [cString (l₁.ended (p + w.length)) p])) = _ ∧ _
        rw [hstr]
        rw [hrun] at hbad ⊢
        rw [heard] at hbad ⊢
        by_cases hf : func (lines ++ [w]) ≠ 0
        · rw [if_pos hf, if_pos hf]
          exact ⟨_, rfl, hk.bufl, hk.telnet, hk.bufp, fun h0 => absurd h0 hf⟩
        · rw [if_neg hf] at hbad
          rw [if_neg hf, if_neg hf]
          obtain ⟨l', h', hl1, hl2, hl3, hl4⟩ := ih h2 hy (.inr (ended_zero l₁ _)) hl₁
            (fun hh he => hbad (hk.telnet ▸ hh) (hb (hk.telnet ▸ he))) (by omega)
          have htel : (l₁.ended (p + w.length)).telnet = l.telnet := hk.telnet
          rw [htel] at h' hl2 hl4
          exact ⟨l', h', hl1.trans hk.bufl, hl2, le_trans hl3 hk.bufp, hl4⟩

/-- `LineUpProcess` calls `func` with the lines of the buffer. -/
theorem lineUpProcess_spec (h0 : 0 ∉ l.text) (hl : l.bufp ≤ l.bufl)
    (hbad : (heard func lines (linesOf l.telnet l.text)).1 = 0 → ¬ EndsBadly l.telnet l.text) :
    ∃ l', lineUpProcess func l lines = some ((heard func lines (linesOf l.telnet l.text)).1, (heard func lines (linesOf l.telnet l.text)).2, l') ∧
      l'.bufl = l.bufl ∧ l'.telnet = l.telnet ∧ l'.bufp ≤ l.bufp ∧
      ((heard func lines (linesOf l.telnet l.text)).1 = 0 → ((framing l.telnet).run (.text, []) l.text).2.1 = .text ∨ 0 ∉ l'.text →
        l'.text = restOf l.telnet l.text) := by
  have hlen : l.text.length = l.bufp := length_rd _ _ _
  have htext : Text { l with buf := wr l.buf l.bufp [0] } 0 l.text := by
    refine ⟨by rw [hlen, Nat.zero_add], storedAt_append.mpr ⟨?_, ?_⟩⟩
    · have hst : StoredAt l.buf 0 l.text := by rw [StoredAt, hlen, Vlu.text]
      exact hst.wr_off (.inl (by rw [hlen, Nat.zero_add]))
    · rw [hlen, Nat.zero_add]
      exact storedAt_wr _ _ _
  exact lineLoop_spec htext h0 (.inl rfl) hl hbad (by omega)

end Pass

/-! ## What is kept from one pass to the next -/

section Rest

variable {telnet : Bool} {tel : Tel} {x y w cur : Bytes}

/-- The bytes of a line that has not ended, and where in a sequence it ends. -/
def Fresh (telnet : Bool) (s : Tel × Bytes) : Prop :=
  (∀ c ∈ s.2, (telnet = true → c ≠ 255) ∧ isEol c = false) ∧ (s.1 = .text ∨ telnet = true ∧ s.1.Open)

theorem Fresh.step {s : Tel × Bytes} (h : Fresh telnet s) (c : UInt8) : Fresh telnet ((framing telnet).step s c).2 := by
  obtain ⟨tel, w⟩ := s
  obtain ⟨hw, ht⟩ := h
  cases tel with
  | text =>
    by_cases hc : telnet = true ∧ c = 255
    · have hstep : (strip telnet).step .text c = ([], .iac) := if_pos hc
      rw [framing, Transducer.comp_step, hstep]
      exact ⟨hw, .inr ⟨hc.1, .inl rfl⟩⟩
    · have hstep : (strip telnet).step .text c = ([c], .text) := if_neg hc
      rw [framing, Transducer.comp_step, hstep]
      refine ⟨?_, .inl rfl⟩
      show ∀ d ∈ (splitLines.step w c).2, (telnet = true → d ≠ 255) ∧ isEol d = false
      cases he : isEol c with
      | true =>
        rw [show splitLines.step w c = ([w], []) from if_pos he]
        exact fun d hd => (by cases hd)
      | false =>
        rw [show splitLines.step w c = ([], w ++ [c]) from if_neg (by rw [he]; exact Bool.false_ne_true)]
        intro d hd
        rcases List.mem_append.mp hd with hd | hd
        · exact hw d hd
        · rw [List.mem_singleton.mp hd]
          exact ⟨fun htel h255 => hc ⟨htel, h255⟩, he⟩
  | iac =>
    have htel : telnet = true := ht.elim (fun h => (by cases h)) And.left
    cases hv : isVerb c with
    | true =>
      have hstep : (strip telnet).step .iac c = ([], .verb c) := if_pos hv
      rw [framing, Transducer.comp_step, hstep]
      exact ⟨hw, .inr ⟨htel, .inr ⟨c, hv, rfl⟩⟩⟩
    | false =>
      have hstep : (strip telnet).step .iac c = ([], .text) := if_neg (by rw [hv]; exact Bool.false_ne_true)
      rw [framing, Transducer.comp_step, hstep]
      exact ⟨hw, .inl rfl⟩
  | verb v => exact ⟨hw, .inl rfl⟩

theorem Fresh.run {s : Tel × Bytes} (h : Fresh telnet s) (x : Bytes) : Fresh telnet ((framing telnet).run s x).2 := by
  induction x generalizing s with
  | nil => exact h
  | cons c x ih => exact ih (h.step c)

theorem framing_plains (hw : ∀ c ∈ w, (telnet = true → c ≠ 255) ∧ isEol c = false) (y : Bytes) :
    (framing telnet).run (.text, cur) (w ++ y) = (framing telnet).run (.text, cur ++ w) y := by
  induction w generalizing cur with
  | nil => rw [List.nil_append, List.append_nil]
  | cons c w ih =>
    obtain ⟨hc, he⟩ := hw c List.mem_cons_self
    rw [List.cons_append, framing_plain hc he, ih fun d hd => hw d (List.mem_cons_of_mem _ hd), List.append_assoc, List.singleton_append]

/-- What is left is read again with the same result. -/
theorem framing_fresh (h : Fresh telnet (tel, w)) : (framing telnet).run (.text, []) (w ++ tel.bytes) = ([], tel, w) := by
  obtain ⟨hw, ht⟩ := h
  rw [framing_plains hw, List.nil_append]
  rcases ht with ht | ⟨rfl, ht⟩
  · have ht : tel = .text := ht
    rw [ht]
    rfl
  · exact framing_open ht

/-- **Only what has not ended is read again.** -/
theorem run_rest (x y : Bytes) : linesOf telnet (x ++ y) = linesOf telnet x ++ linesOf telnet (restOf telnet x ++ y) ∧
    restOf telnet (x ++ y) = restOf telnet (restOf telnet x ++ y) := by
  have hfresh : Fresh telnet ((framing telnet).run (.text, []) x).2 := Fresh.run ⟨fun c hc => (by cases hc), .inl rfl⟩ x
  have h := Transducer.run_append (framing telnet) (.text, []) x y
  have h' := Transducer.run_append (framing telnet) (.text, []) (restOf telnet x) y
  have hrest : (framing telnet).run (.text, []) (restOf telnet x) = ([], ((framing telnet).run (.text, []) x).2) := framing_fresh hfresh
  rw [hrest] at h'
  constructor
  · rw [linesOf, linesOf, linesOf, h, h']
    rfl
  · rw [restOf, h, restOf, h']

end Rest

/-! ## Runs -/

section Runs

variable {func : List Bytes → ℤ} {telnet : Bool} {input used d : Bytes} {s s' : St} {l l' : Vlu} {lines : List Bytes} {a : Act}

/-- `d` can be put into the buffer and processed: there is room, no line of the buffer was delivered before, and unless `func` stops it, the
pass does not come to a telnet sequence that ends with a CR, an NL or 255 where the text ends. -/
def St.Safe (func : List Bytes → ℤ) (s : St) (d : Bytes) : Prop :=
  s.vlu.bufp < s.vlu.bufl ∧ 0 ∉ s.vlu.text ∧
    ((heard func s.lines (linesOf s.vlu.telnet (s.vlu.text ++ d))).1 = 0 → ¬ EndsBadly s.vlu.telnet (s.vlu.text ++ d))

/-- The condition on a step. -/
def Act.Cond (func : List Bytes → ℤ) (s : St) : Act → Prop
  | .fd k => s.input ≠ [] → s.Safe func (s.piece (.fd k))
  | .data _ => True
  | .copy => s.Safe func (s.piece .copy)

instance (s : St) (d : Bytes) : Decidable (s.Safe func d) := inferInstanceAs (Decidable (_ ∧ _ ∧ _))

instance (s : St) (a : Act) : Decidable (a.Cond func s) :=
  match a with
  | .fd k => inferInstanceAs (Decidable (s.input ≠ [] → s.Safe func (s.piece (.fd k))))
  | .data _ => inferInstanceAs (Decidable True)
  | .copy => inferInstanceAs (Decidable (s.Safe func (s.piece .copy)))

/-- `func` was called with the lines of what has been read.  Either all calls returned what it returned, or the last one found the end. -/
def St.Right (func : List Bytes → ℤ) (telnet : Bool) (input : Bytes) (s : St) : Prop :=
  ∃ used, input = used ++ (s.todo ++ s.input) ∧ s.lines = (heard func [] (linesOf telnet used)).2 ∧
    (s.ret = (heard func [] (linesOf telnet used)).1 ∨ s.ret = -1 ∧ (heard func [] (linesOf telnet used)).1 = 0 ∧ s.todo = [] ∧ s.input = [])

/-- A buffer behind a part of the stream. -/
structure Behind (func : List Bytes → ℤ) (telnet : Bool) (used : Bytes) (r : ℤ × List Bytes × Vlu) : Prop where
  tel : r.2.2.telnet = telnet
  room : r.2.2.bufp ≤ r.2.2.bufl
  calls : (r.1, r.2.1) = heard func [] (linesOf telnet used)
  rest : r.1 = 0 → 0 ∉ r.2.2.text → r.2.2.text = restOf telnet used

theorem fill_text (l : Vlu) (d : Bytes) : (l.fill d).text = l.text ++ d := by
  show rd (wr l.buf l.bufp d) 0 (l.bufp + d.length) = rd l.buf 0 l.bufp ++ d
  rw [rd_add, rd_wr_off (.inl (by rw [Nat.zero_add])), Nat.zero_add, rd_wr]

/-- A pass when `d` has come. -/
theorem Behind.pass (h : Behind func telnet used (0, s.lines, s.vlu)) (hsafe : s.Safe func d) (h0 : 0 ∉ d) (hd : d.length ≤ s.space) :
    ∃ r, lineUpProcess func (s.vlu.fill d) s.lines = some r ∧ Behind func telnet (used ++ d) r := by
  obtain ⟨htel, hbufp, hlines, htext⟩ := h
  obtain ⟨hroom, hnul, hbad⟩ := hsafe
  have htext : s.vlu.text = restOf telnet used := htext rfl hnul
  have htel : s.vlu.telnet = telnet := htel
  rw [htel, ← fill_text] at hbad
  have h0' : 0 ∉ (s.vlu.fill d).text := by
    rw [fill_text]
    exact fun hm => (List.mem_append.mp hm).elim hnul h0
  have hl : (s.vlu.fill d).bufp ≤ (s.vlu.fill d).bufl := by
    show s.vlu.bufp + d.length ≤ s.vlu.bufl
    rw [St.space] at hd
    omega
  obtain ⟨hlines', hrest⟩ := @run_rest telnet used d
  have hheard : heard func s.lines (linesOf telnet (s.vlu.fill d).text) = heard func [] (linesOf telnet (used ++ d)) := by
    rw [hlines', heard_append (by rw [← hlines]), ← hlines, fill_text, htext]
  obtain ⟨l', hpass, hl1, hl2, hl3, hl4⟩ := @lineUpProcess_spec func _ s.lines h0' hl (by
    rw [show (s.vlu.fill d).telnet = telnet from htel]
    exact hbad)
  rw [show (s.vlu.fill d).telnet = telnet from htel, hheard] at hpass hl4
  refine ⟨_, hpass, hl2.trans htel, ?_, rfl, fun hz hn => ?_⟩
  · exact le_trans hl3 (le_trans hl (Nat.le_of_eq hl1.symm))
  · rw [hl4 hz (.inr hn), fill_text, htext, hrest]

/-- The invariant of a run. -/
def Inv (func : List Bytes → ℤ) (telnet : Bool) (input : Bytes) (s : St) : Prop :=
  ∃ used r, input = used ++ (s.todo ++ s.input) ∧ Behind func telnet used (r, s.lines, s.vlu) ∧
    (s.ret = r ∨ s.ret = -1 ∧ r = 0 ∧ s.todo = [] ∧ s.input = [])

theorem Inv.right (h : Inv func telnet input s) : s.Right func telnet input := by
  obtain ⟨used, r, hin, hb, hr⟩ := h
  have hheard := hb.calls
  refine ⟨used, hin, ?_, ?_⟩
  · rw [← hheard]
  · rw [← hheard]
    exact hr

theorem take_ne_nil {n : ℕ} (hd : d ≠ []) (hn : 0 < n) : d.take n ≠ [] := by
  rw [Ne, List.take_eq_nil_iff, not_or]
  exact ⟨Nat.ne_of_gt hn, hd⟩

/-- One step: it returns, and the loop of `VLU_Data` gets on. -/
theorem Inv.step (hn : 0 ∉ input) (h : Inv func telnet input s) (hcall : a.Called s) (hcond : a.Cond func s) :
    ∃ s', vluStep func s a = some s' ∧ Inv func telnet input s' ∧ (a = .copy → s'.todo.length < s.todo.length) := by
  obtain ⟨used, r, hin, hb, hr⟩ := h
  obtain ⟨hret, hcall⟩ := hcall
  have hr0 : r = 0 := by
    rcases hr with hr | ⟨-, hr, -⟩
    · exact hr.symm.trans hret
    · exact hr
  subst hr0
  have hin0 : 0 ∉ s.todo ++ s.input := fun hm => hn (hin ▸ List.mem_append_right _ hm)
  cases a with
  | data k =>
    have hcall : s.todo = [] := hcall
    refine ⟨_, rfl, ⟨used, 0, ?_, hb, .inl hret⟩, fun h => (by cases h)⟩
    rw [List.take_append_drop, hin, hcall, List.nil_append]
  | fd k =>
    obtain ⟨htodo, hk⟩ : s.todo = [] ∧ 0 < k := hcall
    rw [htodo, List.nil_append] at hin hin0
    rw [vluStep, vluFd]
    by_cases hend : s.input = []
    · rw [if_pos (by rw [St.piece, hend, List.take_nil])]
      refine ⟨_, rfl, ⟨used, 0, ?_, hb, .inr ⟨rfl, rfl, htodo, ?_⟩⟩, fun h => (by cases h)⟩
      · show input = used ++ (s.todo ++ s.input.drop _)
        rw [hin, htodo, hend, List.drop_nil, List.nil_append]
      · show s.input.drop _ = []
        rw [hend, List.drop_nil]
    · have hsafe : s.Safe func (s.piece (.fd k)) := hcond hend
      have hspace : 0 < s.space := Nat.sub_pos_of_lt hsafe.1
      have hpiece : s.piece (.fd k) ≠ [] := take_ne_nil hend (Nat.lt_min.mpr ⟨hk, hspace⟩)
      rw [if_neg hpiece]
      obtain ⟨⟨i, lines, l⟩, hpass, hb'⟩ := hb.pass hsafe (fun hm => hin0 (List.mem_of_mem_take hm))
        (le_trans (List.length_take_le _ _) (Nat.min_le_right _ _))
      rw [hpass]
      refine ⟨_, rfl, ⟨_, i, ?_, hb', .inl rfl⟩, fun h => (by cases h)⟩
      show input = used ++ s.piece (.fd k) ++ (s.todo ++ s.input.drop _)
      rw [St.piece, htodo, List.nil_append, List.append_assoc, List.take_append_drop, hin]
  | copy =>
    have htodo : s.todo ≠ [] := hcall
    have hsafe : s.Safe func (s.piece .copy) := hcond
    have hspace : 0 < s.space := Nat.sub_pos_of_lt hsafe.1
    have hpos : 0 < s.todo.length := List.length_pos_iff.mpr htodo
    obtain ⟨⟨i, lines, l⟩, hpass, hb'⟩ := hb.pass hsafe (fun hm => hin0 (List.mem_append_left _ (List.mem_of_mem_take hm)))
      (le_trans (List.length_take_le _ _) (Nat.min_le_right _ _))
    rw [vluStep, hpass]
    refine ⟨_, rfl, ⟨_, i, ?_, hb', .inl rfl⟩, fun _ => ?_⟩
    · show input = used ++ s.piece .copy ++ (s.todo.drop _ ++ s.input)
      rw [St.piece, List.append_assoc, ← List.append_assoc (List.take _ _), List.take_append_drop, hin]
    · show (s.todo.drop _).length < _
      rw [List.length_drop]
      omega

theorem inv_start (junk : Mem) (bufsize : ℕ) : Inv func telnet input (start (vluNew junk bufsize telnet) input) :=
  ⟨[], 0, rfl, ⟨rfl, Nat.zero_le _, rfl, fun _ _ => rfl⟩, .inl rfl⟩

/-- **In every run whose steps meet the condition the lines are those of what has been read**, however it was cut; every call returns, and the
loop of `VLU_Data` comes to its end. -/
theorem reach_lines (func : List Bytes → ℤ) (junk : Mem) (bufsize : ℕ) (telnet : Bool) {input : Bytes} (hn : 0 ∉ input)
    (h : Reach (vluStep func) (fun s a => a.Called s ∧ a.Cond func s) (start (vluNew junk bufsize telnet) input) s) :
    s.Right func telnet input ∧ ∀ a : Act, a.Called s → a.Cond func s →
      ∃ s', vluStep func s a = some s' ∧ (a = .copy → s'.todo.length < s.todo.length) := by
  have hinv : Inv func telnet input s := by
    refine h.inv (I := Inv func telnet input) (inv_start junk bufsize) fun s a s' hi hok hs => ?_
    obtain ⟨s₁, hs₁, hi₁, -⟩ := hi.step hn hok.1 hok.2
    rw [hs] at hs₁
    cases hs₁
    exact hi₁
  refine ⟨hinv.right, fun a hcall hcond => ?_⟩
  obtain ⟨s', hs', -, hlt⟩ := hinv.step hn hcall hcond
  exact ⟨s', hs', hlt⟩

/-- Room for 15 bytes, and telnet. -/
def small : Vlu := vluNew (fun _ => 0) 16 true

/-- `a`, NL, `b`, WILL 1, `c`, CR; the sequence is cut in the middle. -/
def cutRun : List Act := [.fd 2, .fd 2, .data 2, .copy, .fd 100]

theorem reach_lines_cutRun : ∃ s, Reach (vluStep fun _ => 0) (fun s a => a.Called s ∧ a.Cond (fun _ => 0) s)
      (start small [97, 10, 98, 255, 251, 1, 99, 13]) s ∧ s.lines = [[97], [98, 99]] ∧
    s.Right (fun _ => 0) true [97, 10, 98, 255, 251, 1, 99, 13] := by
  have hres : (cutRun.foldlM (vluStep fun _ => 0) (start small [97, 10, 98, 255, 251, 1, 99, 13])).map (fun s => s.lines) =
      some [[97], [98, 99]] := by decide +kernel
  obtain ⟨s, hs, hlines⟩ := Option.map_eq_some_iff.mp hres
  have hreach : Reach (vluStep fun _ => 0) (fun s a => a.Called s ∧ a.Cond (fun _ => 0) s) _ s := Reach.of_run (by decide +kernel) hs
  exact ⟨s, hreach, hlines, (reach_lines (fun _ => 0) (fun _ => 0) 16 true (by decide) hreach).1⟩

/-- `a`, NL, WILL 1, `b`, NL in one read, and in two with the sequence cut in the middle: then the second line is lost. -/
theorem second_line_lost : ∃ s s' : St, Reach (vluStep fun _ => 0) Act.Called (start small [97, 10, 255, 251, 1, 98, 10]) s ∧
    Reach (vluStep fun _ => 0) Act.Called (start small [97, 10, 255, 251, 1, 98, 10]) s' ∧
    (s.todo ++ s.input, s.lines) = ([], [[97], [98]]) ∧ (s'.todo ++ s'.input, s'.lines) = ([], [[97]]) := by
  have hwhole : ([.fd 7].foldlM (vluStep fun _ => 0) (start small [97, 10, 255, 251, 1, 98, 10])).map
      (fun s => (s.todo ++ s.input, s.lines)) = some ([], [[97], [98]]) := by decide +kernel
  have hcut : ([.fd 3, .fd 4].foldlM (vluStep fun _ => 0) (start small [97, 10, 255, 251, 1, 98, 10])).map
      (fun s => (s.todo ++ s.input, s.lines)) = some ([], [[97]]) := by decide +kernel
  obtain ⟨s, hs, hl⟩ := Option.map_eq_some_iff.mp hwhole
  obtain ⟨s', hs', hl'⟩ := Option.map_eq_some_iff.mp hcut
  exact ⟨s, s', Reach.of_run (by decide +kernel) hs, Reach.of_run (by decide +kernel) hs', hl, hl'⟩

end Runs

/-! ## A full buffer -/

section Full

variable {func : List Bytes → ℤ} {s : St}

theorem strip_plains {telnet : Bool} {w : Bytes} (hw : ∀ c ∈ w, telnet = true → c ≠ 255) : ((strip telnet).run .text w).2 = .text := by
  induction w with
  | nil => rfl
  | cons c w ih =>
    rw [strip_plain (hw c List.mem_cons_self)]
    exact ih fun d hd => hw d (List.mem_cons_of_mem _ hd)

/-- A line that fills the buffer stays there: the loop of `VLU_Data` goes on for ever. -/
theorem copy_full (h0 : 0 ∉ s.vlu.text) (hfull : s.vlu.bufp = s.vlu.bufl) (hline : Fresh s.vlu.telnet (.text, s.vlu.text)) :
    ∃ s', vluStep func s .copy = some s' ∧ s'.todo = s.todo ∧ s'.input = s.input ∧ s'.ret = 0 ∧ s'.vlu.text = s.vlu.text ∧
      s'.vlu.bufp = s'.vlu.bufl ∧ s'.vlu.telnet = s.vlu.telnet := by
  have hspace : s.space = 0 := by rw [St.space, hfull, Nat.sub_self]
  have hpiece : s.piece .copy = [] := by rw [St.piece, hspace, Nat.min_zero, List.take_zero]
  have hfill : s.vlu.fill [] = s.vlu := by rw [Vlu.fill, wr_nil]; rfl
  have hrun := framing_fresh hline
  rw [Tel.bytes, List.append_nil] at hrun
  have hlines : linesOf s.vlu.telnet s.vlu.text = [] := congrArg Prod.fst hrun
  have hrest : restOf s.vlu.telnet s.vlu.text = s.vlu.text := by
    rw [restOf, hrun]
    exact List.append_nil _
  have hbad : ¬ EndsBadly s.vlu.telnet s.vlu.text := fun he =>
    he.1 (strip_plains fun c hc => (hline.1 c (List.dropLast_subset _ hc)).1)
  obtain ⟨l', hpass, hl1, hl2, -, hl4⟩ := @lineUpProcess_spec func _ s.lines h0 (Nat.le_of_eq hfull) (fun _ => hbad)
  have htext : l'.text = s.vlu.text := by
    rw [hl4 (by rw [hlines]; rfl) (.inl (by rw [hrun])), hrest]
  have hlen : l'.bufp = s.vlu.bufp := by
    have := congrArg List.length htext
    rw [Vlu.text, Vlu.text, length_rd, length_rd] at this
    exact this
  rw [vluStep, hpiece, hfill, hpass, hlines, hspace, Nat.min_zero, List.drop_zero]
  exact ⟨_, rfl, rfl, rfl, rfl, htext, hlen.trans (hfull.trans hl1.symm), hl2⟩

end Full

end Varnish.LineUp
