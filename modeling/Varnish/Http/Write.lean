import Mathlib.Data.List.DropRight
import Mathlib.Data.List.ReduceOption
import Varnish.Http.Delimit

/-!
# Varnish.Http.Write — a message that is sent on (`http_Write`)

* `httpWrite`: the first line and the header fields.
* `CleanLine`, `CleanHdrs`: what a message can say, and still be read as it was meant.
* `write_iff`: a message is read again as it was written if and only if it is clean.
* `received_iff`: one that was received is, unless its first header field is nothing but blanks; then the reader takes the fields
  behind it for what comes after the message.
-/

namespace Varnish.Http

open Varnish.Ban
open Varnish.Lib (isspace)

/-! ## The function -/

section Function

def eol : Str := ['\r', '\n']

/-- The loop of `http_Write`; a slot may be empty. -/
def writeFields (hd : List (Option Str)) : Str := hd.flatMap fun b => b.elim [] (· ++ eol)

/-- `http_Write`: the method, the URL and the protocol of a request, or the protocol, the status and the reason of a response. -/
def httpWrite (h1 h2 h3 : Str) (hd : List (Option Str)) : Str :=
  h1 ++ ' ' :: (h2 ++ ' ' :: (h3 ++ (eol ++ (writeFields hd ++ eol))))

end Function

/-! ## What can be written -/

section Clean

/-- Neither blank nor control character. -/
def PlainPart (w : Str) : Prop := w ≠ [] ∧ ∀ c ∈ w, vctIssp c = false ∧ vctIsctl c = false

/-- The third part may have blanks, but not in front. -/
def CleanLine (h1 h2 h3 : Str) : Prop :=
  PlainPart h1 ∧ PlainPart h2 ∧ (∀ c ∈ h3, vctIsctl c = false) ∧ continues h3 = false

/-- A header field is a line, and no blank is at its end. -/
def FieldLine (b : Str) : Prop := (∀ c ∈ b, vctIscrlf c = false) ∧ trimSp b = b

/-- None is empty, and only the first may begin with a blank. -/
def CleanHdrs (hd : List Str) : Prop := (∀ b ∈ hd, FieldLine b ∧ b ≠ []) ∧ ∀ b ∈ hd.tail, continues b = false

instance (w : Str) : Decidable (PlainPart w) :=
  have : Decidable (∀ c ∈ w, vctIssp c = false ∧ vctIsctl c = false) := List.decidableBAll _ w
  inferInstanceAs (Decidable (_ ∧ _))

instance (b : Str) : Decidable (FieldLine b) :=
  have : Decidable (∀ c ∈ b, vctIscrlf c = false) := List.decidableBAll _ b
  inferInstanceAs (Decidable (_ ∧ _))

end Clean

/-! ## What is written is read -/

section Read

variable {behind a b t h1 h2 h3 : Str} {slots fuel : ℕ} {stop : Char → Bool} {c : Char} {hd : List Str}

theorem scanTo_eq (ha : ∀ d ∈ a, stop d = false ∧ vctIsctl d = false) (hc : stop c = true) :
    scanTo stop (a ++ c :: t) = some (a, c :: t) := by
  induction a with
  | nil => rw [List.nil_append, scanTo, if_pos hc]
  | cons d a ih =>
    obtain ⟨hd, hctl⟩ := ha d List.mem_cons_self
    rw [List.cons_append, scanTo, if_neg (by rw [hd]; exact Bool.false_ne_true), if_neg (by rw [hctl]; exact Bool.false_ne_true),
      ih fun x hx => ha x (List.mem_cons_of_mem d hx)]
    rfl

theorem lws_of_plain (h : vctIssp c = false ∧ vctIsctl c = false) : vctIslws c = false := by
  rw [vctIslws, h.1, Bool.false_or]
  by_contra hcr
  have := isctl_of_crlf (by simpa using hcr)
  rw [h.2] at this
  cases this

theorem crlf_of_ctl (h : vctIsctl c = false) : vctIscrlf c = false := by
  by_contra hcr
  have := isctl_of_crlf (by simpa using hcr)
  rw [h] at this
  cases this

/-- The first line is read as it was written. -/
theorem firstLine_write (h : CleanLine h1 h2 h3) (t : Str) :
    firstLine (h1 ++ ' ' :: (h2 ++ ' ' :: (h3 ++ (eol ++ t)))) = .ok (h1, h2, h3, t) := by
  obtain ⟨⟨hne, hp1⟩, ⟨hne2, hp2⟩, hp3, hc3⟩ := h
  obtain ⟨c, w, rfl⟩ := List.exists_cons_of_ne_nil hne
  obtain ⟨d, v, rfl⟩ := List.exists_cons_of_ne_nil hne2
  have hlead : ∀ r : Str, (c :: w ++ r).dropWhile vctIslws = c :: w ++ r := fun r =>
    List.dropWhile_cons_of_neg (by rw [lws_of_plain (hp1 c List.mem_cons_self)]; exact Bool.false_ne_true)
  have hskip : ∀ (x : Char) (r : Str), vctIssp x = false → scanTo (fun c => !vctIssp c) (' ' :: x :: r) = some ([' '], x :: r) := by
    intro x r hx
    have hstop : scanTo (fun c => !vctIssp c) (x :: r) = some ([], x :: r) := by
      rw [scanTo, if_pos (by rw [hx]; rfl)]
    rw [scanTo, if_neg (by decide), if_neg (by decide), hstop]
    rfl
  rw [firstLine, hlead, scanTo_eq hp1 (by rfl)]
  simp only
  rw [List.cons_append, hskip d _ (hp2 d List.mem_cons_self).1]
  simp only
  rw [← List.cons_append, scanTo_eq (fun x hx => ⟨lws_of_plain (hp2 x hx), (hp2 x hx).2⟩) (by rfl)]
  simp only
  rw [if_neg (List.cons_ne_nil d v)]
  have hthird : scanTo (fun c => !vctIssp c) (' ' :: (h3 ++ (eol ++ t))) = some ([' '], h3 ++ (eol ++ t)) := by
    cases h3 with
    | nil => exact hskip '\r' _ (by decide)
    | cons x u => exact hskip x _ hc3
  rw [hthird]
  simp only
  rw [show h3 ++ (eol ++ t) = h3 ++ '\r' :: ('\n' :: t) from rfl,
    scanTo_eq (fun x hx => ⟨crlf_of_ctl (hp3 x hx), hp3 x hx⟩) (by rfl)]
  rfl

theorem writeFields_reduceOption (hd : List (Option Str)) : writeFields hd = writeFields (hd.reduceOption.map some) := by
  induction hd with
  | nil => rfl
  | cons b hd ih =>
    cases b with
    | none => exact ih
    | some b => exact congrArg (b ++ eol ++ ·) ih

theorem writeFields_cons (b : Str) (hd : List Str) : writeFields ((b :: hd).map some) = b ++ (eol ++ writeFields (hd.map some)) :=
  List.append_assoc b eol _

/-- No line behind the first is a continuation. -/
theorem continues_write (h : ∀ b ∈ hd, b ≠ [] ∧ continues b = false) : continues (writeFields (hd.map some) ++ eol) = false := by
  cases hd with
  | nil => rfl
  | cons b hd =>
    obtain ⟨hne, hc⟩ := h b List.mem_cons_self
    obtain ⟨c, w, rfl⟩ := List.exists_cons_of_ne_nil hne
    rw [writeFields_cons]
    exact hc

/-- One field of a text. -/
theorem dissectRun_field (hb : ∀ c ∈ b, vctIscrlf c = false) (hne : b ≠ []) (ht : continues t = false) :
    dissectRun behind (fuel + 1) (slots + 1) (b ++ (eol ++ t)) =
      (⟨(dissectRun behind fuel slots t).1.status, isCond b || (dissectRun behind fuel slots t).1.conds,
        trimSp b :: (dissectRun behind fuel slots t).1.hd⟩, (dissectRun behind fuel slots t).2) := by
  have hscan : scanLine behind 0 [] 0 (b ++ (['\r', '\n'] ++ t)) = (b, b.length, t) := by
    rw [scanLine_line hb (.inl rfl), List.nil_append, after, if_neg (by rw [ht]; exact Bool.false_ne_true)]
  obtain ⟨c, w, rfl⟩ := List.exists_cons_of_ne_nil hne
  rw [List.cons_append] at hscan
  rw [eol, List.cons_append, dissectRun, hscan]
  simp only
  rw [if_neg (by simp), List.take_length]

/-- The header fields are read as they were written. -/
theorem dissectRun_write (h : CleanHdrs hd) (hs : hd.length ≤ slots) (hf : hd.length < fuel) :
    dissectRun behind fuel slots (writeFields (hd.map some) ++ eol) = (⟨0, hd.any isCond, hd⟩, []) := by
  induction hd generalizing fuel slots with
  | nil =>
    obtain ⟨fuel, rfl⟩ := Nat.exists_eq_succ_of_ne_zero (Nat.ne_of_gt hf)
    rfl
  | cons b hd ih =>
    obtain ⟨fuel, rfl⟩ := Nat.exists_eq_succ_of_ne_zero (Nat.ne_of_gt (Nat.zero_lt_of_lt hf))
    obtain ⟨slots, rfl⟩ := Nat.exists_eq_succ_of_ne_zero (Nat.ne_of_gt (Nat.zero_lt_of_lt (Nat.lt_of_lt_of_le (Nat.zero_lt_succ _) hs)))
    obtain ⟨⟨hb, htrim⟩, hne⟩ := h.1 b List.mem_cons_self
    have htail : CleanHdrs hd := ⟨fun x hx => h.1 x (List.mem_cons_of_mem b hx), fun x hx => h.2 x (List.mem_of_mem_tail hx)⟩
    have hcont := continues_write fun x hx => ⟨(htail.1 x hx).2, h.2 x hx⟩
    rw [writeFields_cons, List.append_assoc, List.append_assoc, dissectRun_field hb hne hcont,
      ih htail (Nat.le_of_succ_le_succ hs) (Nat.lt_of_succ_lt_succ hf), htrim]
    rfl

/-- A message with a clean first line; `t` is what is behind it. -/
theorem splitline_line (h : CleanLine h1 h2 h3) (t : Str) :
    httpSplitline behind slots (h1 ++ ' ' :: (h2 ++ ' ' :: (h3 ++ (eol ++ t)))) =
      if (dissectRun behind ((skipCr t).length + 1) slots (skipCr t)).1.status = 0 then
        .ok ⟨h1, h2, h3, (dissectRun behind ((skipCr t).length + 1) slots (skipCr t)).1,
          (dissectRun behind ((skipCr t).length + 1) slots (skipCr t)).2⟩
      else .error (dissectRun behind ((skipCr t).length + 1) slots (skipCr t)).1.status := by
  have happ : h1 ++ ' ' :: (h2 ++ ' ' :: (h3 ++ (eol ++ t))) ++ behind = h1 ++ ' ' :: (h2 ++ ' ' :: (h3 ++ (eol ++ (t ++ behind)))) := by
    simp
  rw [httpSplitline, happ, firstLine_write h]
  simp only
  rw [List.length_append, Nat.add_sub_cancel, List.take_left]

theorem length_writeFields (hd : List Str) : hd.length ≤ (writeFields (hd.map some)).length := by
  induction hd with
  | nil => exact Nat.le_refl 0
  | cons b hd ih =>
    rw [writeFields_cons, List.length_append, List.length_append, List.length_cons]
    have : eol.length = 2 := rfl
    omega

/-- A clean message is read as it was written. -/
theorem splitline_write (h : CleanLine h1 h2 h3) (hh : CleanHdrs hd) (hs : hd.length ≤ slots) :
    httpSplitline behind slots (httpWrite h1 h2 h3 (hd.map some)) = .ok ⟨h1, h2, h3, ⟨0, hd.any isCond, hd⟩, []⟩ := by
  rw [httpWrite, splitline_line h]
  cases hd with
  | nil => rfl
  | cons b hd =>
    obtain ⟨⟨hb, -⟩, hne⟩ := hh.1 b List.mem_cons_self
    have hskip : skipCr (writeFields ((b :: hd).map some) ++ eol) = writeFields ((b :: hd).map some) ++ eol := by
      obtain ⟨c, w, rfl⟩ := List.exists_cons_of_ne_nil hne
      refine skipCr_ne fun he => ?_
      rw [writeFields_cons, List.append_assoc, List.cons_append, List.head?_cons, Option.some.injEq] at he
      have := hb c List.mem_cons_self
      rw [he] at this
      cases this
    have hlen := length_writeFields (b :: hd)
    rw [hskip, dissectRun_write hh hs (by rw [List.length_append]; omega)]
    rfl

end Read

/-! ## What is read is clean -/

section Sound

variable {behind b l p r t h1 h2 h3 cur : Str} {slots n : ℕ} {stop : Char → Bool} {ls : List (Str × ℕ)} {hd : List Str}

theorem scanTo_stop {f : Str} (h : scanTo stop p = some (f, r)) : ∀ c ∈ f, stop c = false := by
  induction p generalizing f with
  | nil => cases h
  | cons c p ih =>
    rw [scanTo] at h
    by_cases hs : stop c = true
    · rw [if_pos hs] at h
      cases h
      exact fun d hd => absurd hd List.not_mem_nil
    · rw [if_neg hs] at h
      by_cases hc : vctIsctl c = true
      · rw [if_pos hc] at h
        cases h
      · rw [if_neg hc] at h
        obtain ⟨⟨f', r'⟩, hr, he⟩ := Option.map_eq_some_iff.mp h
        cases he
        intro d hd
        rcases List.mem_cons.mp hd with rfl | hd
        · exact Bool.not_eq_true _ ▸ hs
        · exact ih hr d hd

/-- An accepted first line is clean. -/
theorem firstLine_clean (h : firstLine p = .ok (h1, h2, h3, t)) : CleanLine h1 h2 h3 := by
  unfold firstLine at h
  split at h
  · cases h
  next f1 p1 hs1 =>
    split at h
    · cases h
    next f2 p2 hs2 =>
      split at h
      · cases h
      next f3 p3 hs3 =>
        split at h
        · cases h
        next hne =>
          split at h
          · cases h
          next f4 p4 hs4 =>
            split at h
            · cases h
            next f5 p5 hs5 =>
              cases h
              obtain ⟨he1, hc1, c1, t1, rfl, hp1⟩ := scanTo_spec hs1
              obtain ⟨-, hc3, -⟩ := scanTo_spec hs3
              obtain ⟨he5, hc5, -⟩ := scanTo_spec hs5
              obtain ⟨-, -, c4, t4, rfl, hp4⟩ := scanTo_spec hs4
              refine ⟨⟨?_, fun c hc => ⟨scanTo_stop hs1 c hc, hc1 c hc⟩⟩, ⟨hne, fun c hc => ⟨?_, hc3 c hc⟩⟩, hc5, ?_⟩
              · rintro rfl
                have hhead := List.head?_dropWhile_not vctIslws p
                rw [he1, List.nil_append, List.head?_cons] at hhead
                have hlws : vctIslws c1 = false := hhead
                rw [vctIslws, hp1] at hlws
                cases hlws
              · have := scanTo_stop hs3 c hc
                rw [vctIslws, Bool.or_eq_false_iff] at this
                exact this.1
              · cases h3 with
                | nil => rfl
                | cons c w =>
                  cases (List.cons.inj he5).1
                  exact (Bool.not_eq_true' _).mp hp4

theorem trimSp_le (l : Str) : trimSp l <+: l := by
  rw [trimSp, ← List.reverse_suffix, List.reverse_reverse]
  exact List.dropWhile_suffix _

theorem trimSp_idem (l : Str) : trimSp (trimSp l) = trimSp l := by
  rw [trimSp, trimSp, List.reverse_reverse, List.dropWhile_idempotent]

theorem line_trimSp (h : ∀ c ∈ l, vctIscrlf c = false) : FieldLine (trimSp l) :=
  ⟨fun c hc => h c ((trimSp_le l).subset hc), trimSp_idem l⟩

theorem plain_blanks (n : ℕ) : ∀ c ∈ blanks n, vctIscrlf c = false := by
  intro c hc
  rw [(List.mem_replicate.mp hc).2]
  decide

theorem plain_blankLead (h : ∀ c ∈ l, vctIscrlf c = false) : ∀ c ∈ blankLead l, vctIscrlf c = false := by
  intro c hc
  rcases List.mem_append.mp hc with hc | hc
  · exact plain_blanks _ c hc
  · exact h c ((List.dropWhile_suffix _).subset hc)

theorem plain_physical (t cur : Str) (hcur : ∀ c ∈ cur, vctIscrlf c = false) : ∀ q ∈ physical cur t, ∀ c ∈ q.1, vctIscrlf c = false := by
  fun_induction physical cur t with
  | case1 => exact fun q hq => absurd hq List.not_mem_nil
  | case2 acc t ih =>
    intro q hq
    rcases List.mem_cons.mp hq with rfl | hq
    · exact hcur
    · exact ih (fun c hc => absurd hc List.not_mem_nil) q hq
  | case3 acc c t _ hc ih =>
    intro q hq
    rcases List.mem_cons.mp hq with rfl | hq
    · exact hcur
    · exact ih (fun c hc => absurd hc List.not_mem_nil) q hq
  | case4 acc c t _ hc ih =>
    refine ih fun d hd => ?_
    rcases List.mem_append.mp hd with hd | hd
    · exact hcur d hd
    · rw [List.mem_singleton.mp hd]
      simpa using hc

theorem plain_codeFrom (swallow : Bool) (cur : Str) (n : ℕ) (hcur : ∀ c ∈ cur, vctIscrlf c = false)
    (hls : ∀ q ∈ ls, ∀ c ∈ q.1, vctIscrlf c = false) : ∀ l ∈ codeFrom swallow cur n ls, ∀ c ∈ l, vctIscrlf c = false := by
  induction ls generalizing swallow cur n with
  | nil =>
    intro l hl
    rw [List.mem_singleton.mp hl]
    split
    · intro c hc
      rcases List.mem_append.mp hc with hc | hc
      · exact hcur c hc
      · exact plain_blanks n c hc
    · exact hcur
  | cons q ls ih =>
    obtain ⟨m, k⟩ := q
    have hm : ∀ c ∈ m, vctIscrlf c = false := hls (m, k) List.mem_cons_self
    have hls' : ∀ q ∈ ls, ∀ c ∈ q.1, vctIscrlf c = false := fun q hq => hls q (List.mem_cons_of_mem _ hq)
    rw [codeFrom]
    split
    · refine ih _ _ _ (fun c hc => ?_) hls'
      rcases List.mem_append.mp hc with hc | hc
      · rcases List.mem_append.mp hc with hc | hc
        · exact hcur c hc
        · exact plain_blanks n c hc
      · exact plain_blankLead hm c hc
    · intro l hl
      rcases List.mem_cons.mp hl with rfl | hl
      · exact hcur
      · exact ih false m k hm hls' l hl

theorem plain_codeLines (t : Str) : ∀ l ∈ codeLines (physical [] t), ∀ c ∈ l, vctIscrlf c = false := by
  have h := plain_physical t [] fun c hc => absurd hc List.not_mem_nil
  generalize physical [] t = ls at h
  cases ls with
  | nil => exact fun l hl => absurd hl List.not_mem_nil
  | cons q ls => exact plain_codeFrom false q.1 q.2 (h q List.mem_cons_self) fun q' hq => h q' (List.mem_cons_of_mem _ hq)

/-- The lines behind the first begin with a character that is no blank, or are empty. -/
theorem codeFrom_tail (swallow : Bool) (cur : Str) (n : ℕ) (hls : ∀ q ∈ ls.dropLast, q.1 ≠ []) :
    ∀ l ∈ (codeFrom swallow cur n ls).tail, l ≠ [] → ∃ c w, l = c :: w ∧ vctIssp c = false := by
  induction ls generalizing swallow cur n with
  | nil => exact fun l hl => absurd hl List.not_mem_nil
  | cons q ls ih =>
    obtain ⟨m, k⟩ := q
    have hls' : ∀ q ∈ ls.dropLast, q.1 ≠ [] := fun q hq => hls q (by
      cases ls with
      | nil => exact absurd hq List.not_mem_nil
      | cons x ls => exact List.mem_cons_of_mem _ hq)
    rw [codeFrom]
    split
    · exact ih _ _ _ hls'
    next hcont =>
      have hm : continues m = false := by
        rw [Bool.or_eq_true, not_or] at hcont
        simpa using hcont.2
      obtain ⟨l0, ls0, he, w, hw⟩ := codeFrom_prefix false m k ls
      have htail := ih false m k hls'
      rw [he] at htail
      rw [List.tail_cons, he]
      intro l hl hne
      rcases List.mem_cons.mp hl with rfl | hl
      · cases m with
        | cons c m => exact ⟨c, m ++ w, hw.symm, hm⟩
        | nil =>
          cases ls with
          | nil =>
            cases he
            exact absurd rfl hne
          | cons x ls => exact absurd rfl (hls ([], k) List.mem_cons_self)
      · exact htail l hl hne

/-- How many fields can come of these lines. -/
theorem effective_lines {bs : List Str} (cur : Str) (n : ℕ) (hbs : ∀ b ∈ bs, FieldLine b) :
    (effective (codeFrom false cur n (bs.map (fun b => (b, 2)) ++ [([], 2)]))).length ≤ bs.length + 1 ∧
    ((effective (codeFrom false cur n (bs.map (fun b => (b, 2)) ++ [([], 2)]))).length = bs.length + 1 →
      cur ≠ [] ∧ ∀ b ∈ bs, b ≠ [] ∧ continues b = false) := by
  have hone (x : Str) (xs : List Str) : (effective (x :: xs)).length ≤ (effective xs).length + 1 ∧
      (x = [] → (effective (x :: xs)).length = 0) := by
    by_cases hx : x = []
    · subst hx
      exact ⟨Nat.zero_le _, fun _ => rfl⟩
    · rw [effective_cons hx]
      exact ⟨Nat.le_refl _, fun he => absurd he hx⟩
  induction bs generalizing cur n with
  | nil =>
    have h := hone cur [[]]
    refine ⟨h.1, fun he => ⟨fun hc => ?_, fun b hb => absurd hb List.not_mem_nil⟩⟩
    have := h.2 hc
    rw [List.length_nil] at he
    change (effective [cur, []]).length = 1 at he
    omega
  | cons b bs ih =>
    have hbs' : ∀ b ∈ bs, FieldLine b := fun x hx => hbs x (List.mem_cons_of_mem b hx)
    rw [List.map_cons, List.cons_append, codeFrom, Bool.false_or, List.length_cons]
    cases hc : continues b with
    | true =>
      -- a field in front takes this one
      have hblank : b.all vctIssp = false := by
        by_contra hall
        have hall' : ∀ c ∈ b.reverse, vctIssp c = true := fun c hc => by
          simp only [Bool.not_eq_false, List.all_eq_true] at hall
          exact hall c (List.mem_reverse.mp hc)
        have htrim := (hbs b List.mem_cons_self).2
        rw [trimSp, List.dropWhile_eq_nil_iff.mpr hall'] at htrim
        rw [← htrim] at hc
        cases hc
      rw [if_pos rfl, hblank]
      have h := (ih (cur ++ blanks n ++ blankLead b) 2 hbs').1
      exact ⟨by omega, fun he => absurd he (by omega)⟩
    | false =>
      rw [if_neg Bool.false_ne_true]
      have h := hone cur (codeFrom false b 2 (bs.map (fun b => (b, 2)) ++ [([], 2)]))
      obtain ⟨h1, h2⟩ := ih b 2 hbs'
      refine ⟨by omega, fun he => ?_⟩
      obtain ⟨hb, hrest⟩ := h2 (by omega)
      refine ⟨fun hcur => ?_, fun x hx => ?_⟩
      · have := h.2 hcur
        omega
      · rcases List.mem_cons.mp hx with rfl | hx
        · exact ⟨hb, hc⟩
        · exact hrest x hx

theorem physical_write {bs : List Str} (hbs : ∀ b ∈ bs, ∀ c ∈ b, vctIscrlf c = false) :
    physical [] (writeFields (bs.map some) ++ eol) = bs.map (fun b => (b, 2)) ++ [([], 2)] := by
  induction bs with
  | nil => rfl
  | cons b bs ih =>
    rw [writeFields_cons, List.append_assoc, List.append_assoc, physical_line (e := eol) (hbs b List.mem_cons_self) (.inl rfl),
      ih fun x hx => hbs x (List.mem_cons_of_mem b hx)]
    rfl

/-- The fields as they are read. -/
theorem dissected (hd : (dissectRun behind ((skipCr t).length + 1) slots (skipCr t)).1.status = 0) (ht : Term (skipCr t)) :
    (dissectRun behind ((skipCr t).length + 1) slots (skipCr t)).1.hd = (effective (codeLines (physical [] (skipCr t)))).map trimSp ∧
    (effective (codeLines (physical [] (skipCr t)))).length ≤ slots := by
  rw [dissectRun_fst] at hd ⊢
  have h : (_, (dissectLoop behind ((skipCr t).length + 1) slots (skipCr t)).hd) = _ := dissectLoop_eq ht (Nat.lt_succ_self _) slots
  rw [hd, hdrsOf] at h
  obtain ⟨h1, h2⟩ := Prod.mk.inj h
  have hlen : (effective (codeLines (physical [] (skipCr t)))).length ≤ slots := by
    by_contra hn
    rw [if_neg hn] at h1
    cases h1
  rw [h2, List.take_of_length_le (by rw [List.length_map]; exact hlen)]
  exact ⟨rfl, hlen⟩

theorem term_write (hd : List (Option Str)) : Term (skipCr (writeFields hd ++ eol)) := by
  refine Complete.term ?_
  rw [Complete, List.getLast?_append]
  rfl

/-- Fields that are read as they were written are clean. -/
theorem cleanHdrs_of_read (hs : (dissectRun behind ((skipCr (writeFields (hd.map some) ++ eol)).length + 1) slots
      (skipCr (writeFields (hd.map some) ++ eol))).1.status = 0)
    (hh : (dissectRun behind ((skipCr (writeFields (hd.map some) ++ eol)).length + 1) slots
      (skipCr (writeFields (hd.map some) ++ eol))).1.hd = hd) : CleanHdrs hd ∧ hd.length ≤ slots := by
  obtain ⟨hmap, hlen⟩ := dissected hs (term_write _)
  rw [hh] at hmap
  have hline : ∀ b ∈ hd, FieldLine b := by
    intro b hb
    rw [hmap] at hb
    obtain ⟨l, hl, rfl⟩ := List.mem_map.mp hb
    exact line_trimSp (plain_codeLines _ l ((List.takeWhile_prefix _).subset hl))
  have hcount := congrArg List.length hmap
  rw [List.length_map] at hcount
  refine ⟨?_, hcount ▸ hlen⟩
  cases hd with
  | nil => exact ⟨fun b hb => absurd hb List.not_mem_nil, fun b hb => absurd hb List.not_mem_nil⟩
  | cons b bs =>
    have hb := hline b List.mem_cons_self
    have hbs : ∀ x ∈ bs, FieldLine x := fun x hx => hline x (List.mem_cons_of_mem b hx)
    obtain ⟨n, hphys⟩ : ∃ n, physical [] (skipCr (writeFields ((b :: bs).map some) ++ eol)) =
        (b, n) :: (bs.map (fun b => (b, 2)) ++ [([], 2)]) := by
      cases b with
      | nil =>
        refine ⟨1, ?_⟩
        rw [writeFields_cons, List.append_assoc, List.append_assoc]
        exact (physical_eol (e := ['\n']) (.inr (.inl rfl))).trans (congrArg _ (physical_write fun x hx => (hbs x hx).1))
      | cons c w =>
        have hne : c ≠ '\r' := by
          rintro rfl
          cases hb.1 '\r' List.mem_cons_self
        refine ⟨2, ?_⟩
        rw [skipCr_ne (by rw [writeFields_cons]; exact fun he => hne (Option.some.inj he)), physical_write fun x hx => (hline x hx).1]
        rfl
    rw [hphys, codeLines] at hcount
    obtain ⟨hne, hrest⟩ := (effective_lines b n hbs).2 hcount.symm
    refine ⟨fun x hx => ⟨hline x hx, ?_⟩, fun x hx => (hrest x hx).2⟩
    rcases List.mem_cons.mp hx with rfl | hx
    · exact hne
    · exact (hrest x hx).1

/-- The first line of what is accepted is clean. -/
theorem splitline_clean {block : Str} {r : Split} (h : httpSplitline behind slots block = .ok r) : CleanLine r.hd1 r.hd2 r.hd3 := by
  unfold httpSplitline at h
  split at h
  · cases h
  next h1 h2 h3 t hfirst =>
    dsimp only at h
    split at h
    · cases h
      exact firstLine_clean hfirst
    · cases h

end Sound

/-! ## Where the message ends -/

section End

variable {a b t u h1 h2 h3 : Str} {c : Char} {hd : List Str} {k : ℕ}

theorem headerEnd_line (ha : '\n' ∉ a) : headerEnd (a ++ t) = (headerEnd t).map (· + a.length) := by
  induction a with
  | nil => simp
  | cons c a ih =>
    have hc : c ≠ '\n' := fun he => ha (he ▸ List.mem_cons_self)
    rw [List.cons_append, headerEnd, if_neg (fun h => hc h.1), ih fun hm => ha (List.mem_cons_of_mem c hm),
      Option.map_map]
    rfl

/-- A line end behind which the text goes on with a character. -/
theorem headerEnd_eol (hc : vctIscrlf c = false) : headerEnd (eol ++ c :: t) = (headerEnd (c :: t)).map (· + 2) := by
  have hcr : c ≠ '\r' := by rintro rfl; cases hc
  have hlf : c ≠ '\n' := by rintro rfl; cases hc
  have hn : headerEnd ('\n' :: c :: t) = (headerEnd (c :: t)).map (· + 1) := by
    have hskip : skipCr (c :: t) = c :: t := skipCr_ne fun he => hcr (Option.some.inj he)
    rw [headerEnd, if_neg]
    rw [hskip]
    exact fun h => hlf (Option.some.inj h.2)
  rw [show eol ++ c :: t = ['\r'] ++ '\n' :: c :: t from rfl, headerEnd_line (by decide), hn, Option.map_map]
  rfl

theorem not_mem_of_line (hb : ∀ c ∈ b, vctIscrlf c = false) : '\n' ∉ b := fun hm => by
  have := hb '\n' hm
  cases this

/-- The end of the first empty line, behind fields that are not. -/
theorem headerEnd_fields (h : ∀ b ∈ hd, (∀ c ∈ b, vctIscrlf c = false) ∧ b ≠ []) :
    headerEnd (eol ++ (writeFields (hd.map some) ++ (eol ++ t))) = some (eol ++ (writeFields (hd.map some) ++ eol)).length := by
  have hlen : eol.length = 2 := rfl
  induction hd with
  | nil =>
    show headerEnd ('\r' :: '\n' :: '\r' :: '\n' :: t) = some 4
    rw [headerEnd, if_neg (fun h => by cases h.1), headerEnd, if_pos ⟨rfl, rfl⟩, skipCr, List.length_cons, List.length_cons]
    simp only [Option.map_some, Option.some.injEq]
    omega
  | cons b hd ih =>
    obtain ⟨hb, hne⟩ := h b List.mem_cons_self
    obtain ⟨c, w, rfl⟩ := List.exists_cons_of_ne_nil hne
    have hrec := ih fun x hx => h x (List.mem_cons_of_mem _ hx)
    rw [writeFields_cons, List.append_assoc, List.append_assoc, List.append_assoc, List.append_assoc, List.cons_append,
      headerEnd_eol (hb c List.mem_cons_self), ← List.cons_append, headerEnd_line (not_mem_of_line hb), hrec]
    simp only [Option.map_some, List.length_append, Option.some.injEq]
    omega

theorem ctl_free {w : Str} (h : ∀ c ∈ w, vctIsctl c = false) : '\n' ∉ w := fun hm => by
  have := h '\n' hm
  cases this

/-- The delimiter takes a message up to its end, whatever is behind it. -/
theorem complete_write (h : CleanLine h1 h2 h3) (hh : ∀ b ∈ hd, (∀ c ∈ b, vctIscrlf c = false) ∧ b ≠ [])
    (hz : '\x00' ∉ httpWrite h1 h2 h3 (hd.map some)) (t : Str) :
    (htcHeaderComplete (httpWrite h1 h2 h3 (hd.map some) ++ t)).1 = (httpWrite h1 h2 h3 (hd.map some)).length := by
  have hc : cstr (httpWrite h1 h2 h3 (hd.map some) ++ t) = httpWrite h1 h2 h3 (hd.map some) ++ cstr t := by
    refine List.takeWhile_append_of_pos fun c hm => decide_eq_true ?_
    rintro rfl
    exact hz hm
  have hline : '\n' ∉ h1 ++ ' ' :: (h2 ++ ' ' :: h3) := by
    intro hm
    simp only [List.mem_append, List.mem_cons] at hm
    rcases hm with hm | hm | hm | hm | hm
    · exact ctl_free (fun c hc => (h.1.2 c hc).2) hm
    · cases hm
    · exact ctl_free (fun c hc => (h.2.1.2 c hc).2) hm
    · cases hm
    · exact ctl_free h.2.2.1 hm
  have hsplit (u : Str) : httpWrite h1 h2 h3 (hd.map some) ++ u =
      (h1 ++ ' ' :: (h2 ++ ' ' :: h3)) ++ (eol ++ (writeFields (hd.map some) ++ (eol ++ u))) := by
    simp [httpWrite]
  have hdrop : (httpWrite h1 h2 h3 (hd.map some) ++ cstr t).dropWhile isspace = httpWrite h1 h2 h3 (hd.map some) ++ cstr t := by
    obtain ⟨c, w, rfl⟩ := List.exists_cons_of_ne_nil h.1.1
    have hp := h.1.2 c List.mem_cons_self
    refine List.dropWhile_cons_of_neg fun hs => ?_
    rcases isspace_cases hs with hl | hl
    · rw [lws_of_plain hp] at hl
      cases hl
    · rw [hp.2] at hl
      cases hl
  have hend : headerEnd (httpWrite h1 h2 h3 (hd.map some) ++ cstr t) = some (httpWrite h1 h2 h3 (hd.map some)).length := by
    rw [hsplit, headerEnd_line hline, headerEnd_fields hh]
    have := congrArg List.length (hsplit [])
    rw [List.append_nil, List.append_nil] at this
    rw [this, @List.length_append _ (h1 ++ _), Option.map_some, Nat.add_comm]
  have hne : httpWrite h1 h2 h3 (hd.map some) ++ cstr t ≠ [] := by
    intro he
    rw [he] at hend
    cases hend
  unfold htcHeaderComplete
  dsimp only
  rw [hc, hdrop, if_neg hne, hend, Nat.sub_self]
  exact Nat.zero_add _

end End

/-! ## Sent on -/

section Sent

variable {h1 h2 h3 : Str} {slots : ℕ}

/-- A message is read as it was written if and only if it is clean and has no more fields than the reader has slots for; and then
all of it is read, and it ends where the delimiter ends it, whatever is sent behind it. -/
theorem write_iff (behind : Str) (slots : ℕ) (h1 h2 h3 : Str) (hd : List (Option Str)) :
    ((∃ r, httpSplitline behind slots (httpWrite h1 h2 h3 hd) = .ok r ∧ r.hd1 = h1 ∧ r.hd2 = h2 ∧ r.hd3 = h3 ∧
      r.hdrs.hd = hd.reduceOption) ↔ CleanLine h1 h2 h3 ∧ CleanHdrs hd.reduceOption ∧ hd.reduceOption.length ≤ slots) ∧
    (CleanLine h1 h2 h3 → CleanHdrs hd.reduceOption → hd.reduceOption.length ≤ slots →
      httpSplitline behind slots (httpWrite h1 h2 h3 hd) = .ok ⟨h1, h2, h3, ⟨0, hd.reduceOption.any isCond, hd.reduceOption⟩, []⟩ ∧
      ('\x00' ∉ httpWrite h1 h2 h3 hd → ∀ t,
        (htcHeaderComplete (httpWrite h1 h2 h3 hd ++ t)).1 = (httpWrite h1 h2 h3 hd).length)) := by
  have hwrite : httpWrite h1 h2 h3 hd = httpWrite h1 h2 h3 (hd.reduceOption.map some) := by
    rw [httpWrite, httpWrite, writeFields_reduceOption]
  rw [hwrite]
  generalize hd.reduceOption = bs
  refine ⟨⟨?_, fun ⟨hl, hh, hs⟩ => ⟨_, splitline_write hl hh hs, rfl, rfl, rfl, rfl⟩⟩, fun hl hh hs =>
    ⟨splitline_write hl hh hs, fun hz t => complete_write hl (fun b hb => ⟨(hh.1 b hb).1.1, (hh.1 b hb).2⟩) hz t⟩⟩
  rintro ⟨r, hr, rfl, rfl, rfl, hhd⟩
  have hline := splitline_clean hr
  refine ⟨hline, ?_⟩
  rw [httpWrite, splitline_line hline] at hr
  split at hr
  next hs =>
    rw [← Except.ok.inj hr] at hhd
    exact cleanHdrs_of_read hs hhd
  · cases hr

/-- A request without a protocol. -/
theorem write_iff_short : httpSplitline [] 8 (httpWrite "GET".toList "/".toList [] [none, some "Host: a".toList]) =
    .ok ⟨"GET".toList, "/".toList, [], ⟨0, false, ["Host: a".toList]⟩, []⟩ := by
  have hline : CleanLine "GET".toList "/".toList [] :=
    ⟨by decide +kernel, by decide +kernel, fun c hc => absurd hc List.not_mem_nil, rfl⟩
  have hhdrs : CleanHdrs ["Host: a".toList] := by
    refine ⟨fun b hb => ?_, fun b hb => absurd hb List.not_mem_nil⟩
    rw [List.mem_singleton.mp hb]
    exact ⟨by decide +kernel, by decide +kernel⟩
  exact ((write_iff [] 8 "GET".toList "/".toList [] [none, some "Host: a".toList]).2 hline hhdrs (by decide)).1

/-- Behind a first line whose end has its LF, the only empty line is the last one. -/
theorem lines_filled {m e t : Str} (he : IsEol e t) (hlast : (m ++ (e ++ t)).getLast? = some '\n') (hcr : NoBareCr (m ++ (e ++ t)))
    (hend : OnlyEnd (m ++ (e ++ t))) : ∀ q ∈ (physical [] (skipCr t)).dropLast, q.1 ≠ [] := by
  have hcr2 : NoBareCr (e ++ t) := hcr.suffix
  have hend2 : OnlyEnd ('\n' :: t) := by
    rcases he.noBareCr hcr2 with rfl | rfl
    · exact OnlyEnd.suffix (a := m ++ ['\r']) (by simpa using hend)
    · exact OnlyEnd.suffix (a := m) (by simpa using hend)
  rcases skipCr_cases t with ⟨u, rfl, hu⟩ | ht
  · have hlf : u.head? = some '\n' := hcr2.suffix.1 rfl
    rw [hend2.1 rfl (hu ▸ hlf)]
    exact fun q hq => absurd hq List.not_mem_nil
  · rw [ht]
    have hterm : Term t := by
      by_cases hz : t = []
      · exact .inl hz
      · rw [← List.append_assoc, List.getLast?_append_of_ne_nil _ hz] at hlast
        exact .inr hlast
    exact physical_filled hterm hcr2.suffix hend2

/-- The lines of an accepted message behind its first one. -/
theorem received_lines {data behind : Str} {n : ℕ} {r : Split} (hn : n ≠ 0) (hd : (htcHeaderComplete data).1 = n)
    (hr : httpSplitline behind slots (data.take n) = .ok r) (hcr : NoBareCr (data.take n)) :
    ∃ t, Term t ∧ (∀ q ∈ (physical [] t).dropLast, q.1 ≠ []) ∧ r.hdrs.hd = (effective (codeLines (physical [] t))).map trimSp ∧
      (effective (codeLines (physical [] t))).length ≤ slots := by
  obtain ⟨lead, b, hblock, hlead, hhead, hlast, hend⟩ := complete_spec hd hn
  have hbne : b ≠ [] := by
    rintro rfl
    cases hlast
  obtain ⟨lead', hdrop, hctl⟩ := dropWhile_lws_lead hlead hhead hbne
  rw [hblock] at hr hcr
  have hlast' : (lead' ++ b).getLast? = some '\n' := by
    rw [List.getLast?_append, hlast]
    rfl
  unfold httpSplitline at hr
  split at hr
  · cases hr
  next h1 h2 h3 t hfirst =>
    obtain ⟨m, e, t2, hb, hm, he, rfl, -⟩ := firstLine_block hdrop (by simp [hbne]) hlast' hfirst
    have htake : (t2 ++ behind).take ((t2 ++ behind).length - behind.length) = t2 := by
      rw [List.length_append, Nat.add_sub_cancel, List.take_left]
    dsimp only at hr
    rw [htake] at hr
    have hterm : Term (skipCr t2) := by
      by_cases hz : t2 = []
      · subst hz
        exact .inl rfl
      · refine Complete.term ?_
        rw [hb, ← List.append_assoc, List.getLast?_append_of_ne_nil _ hz] at hlast'
        exact hlast'
    split at hr
    next hs =>
      have hhd := dissected hs hterm
      rw [← Except.ok.inj hr]
      refine ⟨skipCr t2, hterm, ?_, hhd⟩
      -- the white space in front has no control character that the dissector would not have refused
      have hnil : lead' = [] := by
        cases lead' with
        | nil => rfl
        | cons c lead' =>
          obtain ⟨hc, hncr⟩ := hctl c rfl
          cases m with
          | nil =>
            obtain ⟨d, e', rfl⟩ := List.exists_cons_of_ne_nil (l := e) (by
              rintro rfl
              exact absurd he.length (by decide))
            cases (List.cons.inj hb).1
            exact absurd (he.crlf c List.mem_cons_self) (by simp [hncr])
          | cons d m =>
            cases (List.cons.inj hb).1
            exact absurd hc (by simp [hm c List.mem_cons_self])
      subst hnil
      rw [List.nil_append] at hb hlast'
      subst hb
      exact lines_filled he hlast' hcr.suffix hend
    · cases hr

theorem codeLines_tail {ls : List (Str × ℕ)} (h : ∀ q ∈ ls.dropLast, q.1 ≠ []) :
    ∀ l ∈ (codeLines ls).tail, l ≠ [] → ∃ c w, l = c :: w ∧ vctIssp c = false := by
  cases ls with
  | nil => exact fun l hl => absurd hl List.not_mem_nil
  | cons q ls =>
    refine codeFrom_tail false q.1 q.2 fun x hx => h x ?_
    cases ls with
    | nil => exact absurd hx List.not_mem_nil
    | cons y ls => exact List.mem_cons_of_mem _ hx

/-- What the fields of a received message are: lines, of which only the first may be empty or begin with a blank. -/
theorem received_hdrs {data behind : Str} {n : ℕ} {r : Split} (hn : n ≠ 0) (hd : (htcHeaderComplete data).1 = n)
    (hr : httpSplitline behind slots (data.take n) = .ok r) (hcr : NoBareCr (data.take n)) :
    (∀ b ∈ r.hdrs.hd, FieldLine b) ∧ (∀ b ∈ r.hdrs.hd.tail, b ≠ [] ∧ continues b = false) ∧ r.hdrs.hd.length ≤ slots := by
  obtain ⟨t, -, hfill, hhd, hlen⟩ := received_lines hn hd hr hcr
  have hplain := plain_codeLines t
  have htail := codeLines_tail hfill
  rw [hhd]
  generalize codeLines (physical [] t) = lines at hplain htail hlen
  refine ⟨fun b hb => ?_, fun b hb => ?_, by rw [List.length_map]; exact hlen⟩
  · obtain ⟨l, hl, rfl⟩ := List.mem_map.mp hb
    exact line_trimSp (hplain l ((List.takeWhile_prefix _).subset hl))
  · rw [← List.map_tail] at hb
    obtain ⟨l, hl, rfl⟩ := List.mem_map.mp hb
    have hlt : l ∈ lines.tail ∧ l ≠ [] := by
      cases lines with
      | nil => exact absurd hl List.not_mem_nil
      | cons x xs =>
        by_cases hx : x = []
        · subst hx
          exact absurd hl List.not_mem_nil
        · rw [effective_cons hx, List.tail_cons] at hl
          exact ⟨(List.takeWhile_prefix _).subset hl, of_decide_eq_true (List.mem_takeWhile_imp (p := fun l => decide (l ≠ [])) hl)⟩
    obtain ⟨c, w, rfl, hc⟩ := htail l hlt.1 hlt.2
    have hpos : trimSp (c :: w) ≠ [] := by
      intro he
      have := lt_length_trimSp (a := []) (b := w) hc
      rw [List.nil_append, he] at this
      exact absurd this (Nat.lt_irrefl 0)
    obtain ⟨d, v, hv⟩ := List.exists_cons_of_ne_nil hpos
    obtain ⟨u, hu⟩ := trimSp_le (c :: w)
    rw [hv] at hu ⊢
    refine ⟨List.cons_ne_nil d v, ?_⟩
    rw [(List.cons.inj hu).1]
    exact hc

theorem reduceOption_some (bs : List Str) : (bs.map some).reduceOption = bs := by
  induction bs with
  | nil => rfl
  | cons b bs ih => rw [List.map_cons, List.reduceOption_cons_of_some, ih]

/-- A received message is read as it was when it is sent on, unless its first field is empty, which was a line of blanks.  In that
case what is sent is a message without fields for the reader, and the fields are in front of the next message. -/
theorem received_iff {data behind behind' : Str} {n : ℕ} {r : Split} (hn : n ≠ 0) (hd : (htcHeaderComplete data).1 = n)
    (hr : httpSplitline behind slots (data.take n) = .ok r) (hcr : NoBareCr (data.take n)) :
    ((∃ r', httpSplitline behind' slots (httpWrite r.hd1 r.hd2 r.hd3 (r.hdrs.hd.map some)) = .ok r' ∧ r'.hd1 = r.hd1 ∧
      r'.hd2 = r.hd2 ∧ r'.hd3 = r.hd3 ∧ r'.hdrs.hd = r.hdrs.hd) ↔ [] ∉ r.hdrs.hd) ∧
    ([] ∈ r.hdrs.hd → ∃ bs, r.hdrs.hd = [] :: bs ∧
      httpWrite r.hd1 r.hd2 r.hd3 (r.hdrs.hd.map some) = httpWrite r.hd1 r.hd2 r.hd3 [] ++ (writeFields (bs.map some) ++ eol) ∧
      httpSplitline behind' slots (httpWrite r.hd1 r.hd2 r.hd3 []) = .ok ⟨r.hd1, r.hd2, r.hd3, ⟨0, false, []⟩, []⟩ ∧
      ('\x00' ∉ httpWrite r.hd1 r.hd2 r.hd3 [] →
        (htcHeaderComplete (httpWrite r.hd1 r.hd2 r.hd3 (r.hdrs.hd.map some))).1 = (httpWrite r.hd1 r.hd2 r.hd3 []).length)) := by
  have hline := splitline_clean hr
  obtain ⟨hlines, htail, hlen⟩ := received_hdrs hn hd hr hcr
  have hred := reduceOption_some r.hdrs.hd
  have hiff := (write_iff behind' slots r.hd1 r.hd2 r.hd3 (r.hdrs.hd.map some)).1
  rw [hred] at hiff
  refine ⟨hiff.trans ⟨fun h hm => (h.2.1.1 [] hm).2 rfl, fun h => ⟨hline, ⟨fun b hb => ⟨hlines b hb, ?_⟩, fun b hb => (htail b hb).2⟩,
    hlen⟩⟩, fun hm => ?_⟩
  · rintro rfl
    exact h hb
  · cases hfs : r.hdrs.hd with
    | nil =>
      rw [hfs] at hm
      exact absurd hm List.not_mem_nil
    | cons b bs =>
      rw [hfs] at hm htail
      rcases List.mem_cons.mp hm with rfl | hm
      · have happ : httpWrite r.hd1 r.hd2 r.hd3 (([] :: bs).map some) =
            httpWrite r.hd1 r.hd2 r.hd3 [] ++ (writeFields (bs.map some) ++ eol) := by
          rw [httpWrite, httpWrite, writeFields_cons]
          simp [writeFields]
        have hnone : CleanHdrs [] := ⟨fun b hb => absurd hb List.not_mem_nil, fun b hb => absurd hb List.not_mem_nil⟩
        refine ⟨bs, rfl, happ, @splitline_write behind' _ _ _ slots [] hline hnone (Nat.zero_le slots), fun hz => ?_⟩
        rw [happ]
        exact @complete_write _ _ _ [] hline (fun b hb => absurd hb List.not_mem_nil) hz _
      · exact absurd rfl (htail [] hm).1

/-- Blanks in front of the first field. -/
def blankFirst : Str := "GET / HTTP/1.1\r\n \r\nHost: a\r\n\r\n".toList

theorem received_iff_blank : (htcHeaderComplete blankFirst).1 = 30 ∧
    (htcHeaderComplete (httpWrite "GET".toList "/".toList "HTTP/1.1".toList [some [], some "Host: a".toList])).1 = 18 := by
  have hr : httpSplitline [] 8 (blankFirst.take 30) =
      .ok ⟨"GET".toList, "/".toList, "HTTP/1.1".toList, ⟨0, false, [[], "Host: a".toList]⟩, []⟩ := by decide +kernel
  have hlen : (htcHeaderComplete blankFirst).1 = 30 := by decide +kernel
  obtain ⟨bs, -, -, -, hcut⟩ := (@received_iff 8 blankFirst [] [] 30 _ (by decide) hlen hr (by decide +kernel)).2 List.mem_cons_self
  exact ⟨hlen, hcut (by decide +kernel)⟩

end Sent

end Varnish.Http
