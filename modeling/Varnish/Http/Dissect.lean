import Mathlib.Data.List.TakeWhile
import Mathlib.Order.Lattice
import Varnish.Ban.Test

/-!
# Varnish.Http.Dissect — the header lines of a message (`http_dissect_hdrs`)

* `scanLine`, `dissectLoop`, `httpDissectHdrs`: the function.
* `physical`, `specFrom`, `specHdrs`: the lines of the block, unfolded.
* `codeFrom`: the lines as the function takes them.  `dissectLoop_eq`: it does.
* `dissect_iff`: for which blocks the two are the same.
-/

namespace Varnish.Http

open Varnish.Ban

/-! ## The function -/

section Function

/-- `vct_iscrlf` -/
def vctIscrlf (c : Char) : Bool := c = '\n' || c = '\r'

/-- `vct_islws` -/
def vctIslws (c : Char) : Bool := vctIssp c || vctIscrlf c

def blanks (n : ℕ) : Str := List.replicate n ' '

/-- The run of white space in front of `t`; `behind` is the memory at `t.e`, which is not looked for here. -/
def lwsRun (behind t : Str) : ℕ := ((t ++ behind).takeWhile vctIslws).length

/-- What is behind a line end continues the line. -/
def continues : Str → Bool
  | [] => false
  | c :: _ => vctIssp c

/-- The inner loop of `http_dissect_hdrs` from `r` on.  `k` is the number of characters at `r` that were cleared to spaces, `acc`
what is between `p` and `r`, and `q` the distance of `q` from `p`. -/
def scanLine (behind : Str) : (k : ℕ) → (acc : Str) → (q : ℕ) → Str → Str × ℕ × Str
  | _, acc, q, [] => (acc, q, [])
  | k + 1, acc, q, _ :: t => scanLine behind k (acc ++ [' ']) q t
  | 0, acc, _, '\r' :: '\n' :: t =>
    if continues t then scanLine behind (lwsRun behind t) (acc ++ blanks 2) (acc.length + 2 + lwsRun behind t) t
    else (acc, acc.length, t)
  | 0, acc, q, c :: t =>
    if vctIscrlf c then
      if continues t then scanLine behind (lwsRun behind t) (acc ++ blanks 1) (acc.length + 1 + lwsRun behind t) t
      else (acc, acc.length, t)
    else scanLine behind 0 (acc ++ [c]) q t

/-- The result, `hp->conds` and the headers from `HTTP_HDR_FIRST` on. -/
structure Hdrs where
  status : ℕ
  conds : Bool
  hd : List Str
deriving DecidableEq

/-- The header is a conditional. -/
def isCond : Str → Bool
  | a :: b :: c :: _ => (a = 'i' || a = 'I') && (b = 'f' || b = 'F') && c = '-'
  | _ => false

/-- Without `SP` and `HT` at the end. -/
def trimSp (h : Str) : Str := (h.reverse.dropWhile vctIssp).reverse

/-- The outer loop; `slots` headers can still be stored. -/
def dissectLoop (behind : Str) : (fuel slots : ℕ) → Str → Hdrs
  | 0, _, _ => ⟨0, false, []⟩
  | _ + 1, _, [] => ⟨0, false, []⟩
  | fuel + 1, slots, c :: t =>
    let (acc, q, rest) := scanLine behind 0 [] 0 (c :: t)
    if q = 0 then ⟨0, false, []⟩
    else
      match slots with
      | 0 => ⟨400, isCond acc, []⟩
      | slots + 1 =>
        let r := dissectLoop behind fuel slots rest
        ⟨r.status, isCond acc || r.conds, trimSp (acc.take q) :: r.hd⟩

/-- The block begins behind a CR that is left of the first line. -/
def skipCr : Str → Str
  | '\r' :: t => t
  | t => t

/-- `http_dissect_hdrs`, with `slots` header slots. -/
def httpDissectHdrs (behind : Str) (slots : ℕ) (p : Str) : Hdrs :=
  dissectLoop behind ((skipCr p).length + 1) slots (skipCr p)

end Function

/-! ## The lines of a block -/

section Spec

/-- The lines up to their ends, with the lengths of the ends. -/
def physical : (acc : Str) → Str → List (Str × ℕ)
  | _, [] => []
  | acc, '\r' :: '\n' :: t => (acc, 2) :: physical [] t
  | acc, c :: t => if vctIscrlf c then (acc, 1) :: physical [] t else physical (acc ++ [c]) t

/-- The blanks in front of a continuation become spaces. -/
def blankLead (m : Str) : Str := blanks (m.takeWhile vctIssp).length ++ m.dropWhile vctIssp

/-- The logical lines: a line end that is not followed by `SP` or `HT` ends the line `cur`, all others become spaces. -/
def specFrom : (cur : Str) → (n : ℕ) → List (Str × ℕ) → List Str
  | cur, _, [] => [cur]
  | cur, n, (m, k) :: ls => if continues m then specFrom (cur ++ blanks n ++ blankLead m) k ls else cur :: specFrom m k ls

def specLines : List (Str × ℕ) → List Str
  | [] => []
  | (m, k) :: ls => specFrom m k ls

/-- An empty line ends the block. -/
def effective (lines : List Str) : List Str := lines.takeWhile (· ≠ [])

/-- What is to be made of the lines: the headers without white space at the end, as many as there are slots. -/
def hdrsOf (slots : ℕ) (lines : List Str) : ℕ × List Str :=
  (if (effective lines).length ≤ slots then 0 else 400, ((effective lines).map trimSp).take slots)

/-- The headers of a block. -/
def specHdrs (slots : ℕ) (block : Str) : ℕ × List Str := hdrsOf slots (specLines (physical [] block))

/-- The lines as the function takes them: behind a continuation of nothing but blanks, `swallow`, every line is a continuation. -/
def codeFrom : (swallow : Bool) → (cur : Str) → (n : ℕ) → List (Str × ℕ) → List Str
  | swallow, cur, n, [] => [if swallow then cur ++ blanks n else cur]
  | swallow, cur, n, (m, k) :: ls =>
    if swallow || continues m then codeFrom (m.all vctIssp) (cur ++ blanks n ++ blankLead m) k ls
    else cur :: codeFrom false m k ls

def codeLines : List (Str × ℕ) → List Str
  | [] => []
  | (m, k) :: ls => codeFrom false m k ls

end Spec

/-! ## Lines in the text -/

section Lines

variable {behind acc m e t t2 w cur : Str} {n k q : ℕ} {c : Char}

/-- A line end in front of `t`. -/
def IsEol (e t : Str) : Prop := e = ['\r', '\n'] ∨ e = ['\n'] ∨ e = ['\r'] ∧ t.head? ≠ some '\n'

/-- Every line of the text has an end. -/
def Term (t : Str) : Prop := t = [] ∨ t.getLast? = some '\n'

theorem IsEol.length (h : IsEol e t) : 1 ≤ e.length := by
  rcases h with rfl | rfl | ⟨rfl, -⟩ <;> simp

theorem IsEol.crlf (h : IsEol e t) : ∀ c ∈ e, vctIscrlf c = true := by
  intro c hc
  have hcr : c = '\r' ∨ c = '\n' := by
    rcases h with rfl | rfl | ⟨rfl, -⟩ <;> simp_all
  rcases hcr with rfl | rfl <;> rfl

theorem islws_plain (h : vctIscrlf c = false) : vctIslws c = vctIssp c := by rw [vctIslws, h, Bool.or_false]

theorem islws_crlf (h : vctIscrlf c = true) : vctIslws c = true := by rw [vctIslws, h, Bool.or_true]

/-- The first line of a text. -/
theorem exists_line (h : Term t) (hne : t ≠ []) :
    ∃ m e t2, t = m ++ (e ++ t2) ∧ (∀ c ∈ m, vctIscrlf c = false) ∧ IsEol e t2 ∧ Term t2 := by
  induction t with
  | nil => exact absurd rfl hne
  | cons c t ih =>
    have hterm : t ≠ [] → Term t := fun hne => by
      obtain ⟨d, t, rfl⟩ := List.exists_cons_of_ne_nil hne
      refine .inr ?_
      rcases h with h | h
      · cases h
      · rwa [List.getLast?_cons_cons] at h
    have hterm' : Term t := by
      by_cases hne : t = []
      · exact .inl hne
      · exact hterm hne
    by_cases hc : vctIscrlf c = true
    · by_cases hcr : c = '\r' ∧ t.head? = some '\n'
      · obtain ⟨rfl, hh⟩ := hcr
        obtain ⟨t2, rfl⟩ := List.head?_eq_some_iff.mp hh
        refine ⟨[], ['\r', '\n'], t2, rfl, fun c hc => absurd hc List.not_mem_nil, .inl rfl, ?_⟩
        cases t2 with
        | nil => exact .inl rfl
        | cons d t2 =>
          rcases hterm' with h | h
          · cases h
          · exact .inr (by rwa [List.getLast?_cons_cons] at h)
      · refine ⟨[], [c], t, rfl, fun c hc => absurd hc List.not_mem_nil, ?_, hterm'⟩
        rw [vctIscrlf, Bool.or_eq_true, decide_eq_true_eq, decide_eq_true_eq] at hc
        rcases hc with rfl | rfl
        · exact .inr (.inl rfl)
        · exact .inr (.inr ⟨rfl, fun hh => hcr ⟨rfl, hh⟩⟩)
    · have hne' : t ≠ [] := by
        rintro rfl
        rcases h with h | h
        · cases h
        · cases h
          exact hc (by decide)
      obtain ⟨m, e, t2, rfl, hm, he, ht2⟩ := ih (hterm hne') hne'
      refine ⟨c :: m, e, t2, rfl, fun d hd => ?_, he, ht2⟩
      rcases List.mem_cons.mp hd with rfl | hd
      · simpa using hc
      · exact hm d hd

theorem physical_plain (hc : vctIscrlf c = false) : physical acc (c :: t) = physical (acc ++ [c]) t := by
  rw [physical]
  · rw [hc]
    rfl
  · rintro u rfl
    cases hc

theorem physical_eol (he : IsEol e t) : physical acc (e ++ t) = (acc, e.length) :: physical [] t := by
  rcases he with rfl | rfl | ⟨rfl, hh⟩
  · rfl
  · rw [List.singleton_append, physical]
    · rfl
    · rintro u h
      cases h
  · rw [List.singleton_append, physical]
    · rfl
    · rintro u - rfl
      exact hh rfl

theorem physical_line (hm : ∀ c ∈ m, vctIscrlf c = false) (he : IsEol e t) :
    physical acc (m ++ (e ++ t)) = (acc ++ m, e.length) :: physical [] t := by
  induction m generalizing acc with
  | nil =>
    rw [List.nil_append, List.append_nil]
    exact physical_eol he
  | cons c m ih =>
    rw [List.cons_append, physical_plain (hm c List.mem_cons_self), ih fun d hd => hm d (List.mem_cons_of_mem _ hd)]
    simp

/-- The end of a line, where the text goes on with `t`. -/
def after (behind cur : Str) (n : ℕ) (t : Str) : Str × ℕ × Str :=
  if continues t then scanLine behind (lwsRun behind t) (cur ++ blanks n) (cur.length + n + lwsRun behind t) t
  else (cur, cur.length, t)

theorem scanLine_plain (hc : vctIscrlf c = false) : scanLine behind 0 acc q (c :: t) = scanLine behind 0 (acc ++ [c]) q t := by
  rw [scanLine]
  · rw [hc]
    rfl
  · rintro u rfl
    cases hc

theorem scanLine_eol (he : IsEol e t) : scanLine behind 0 acc q (e ++ t) = after behind acc e.length t := by
  rcases he with rfl | rfl | ⟨rfl, hh⟩
  · rfl
  · rw [List.singleton_append, scanLine]
    · rfl
    · rintro u h
      cases h
  · rw [List.singleton_append, scanLine]
    · rfl
    · rintro u - rfl
      exact hh rfl

theorem scanLine_line (hm : ∀ c ∈ m, vctIscrlf c = false) (he : IsEol e t) :
    scanLine behind 0 acc q (m ++ (e ++ t)) = after behind (acc ++ m) e.length t := by
  induction m generalizing acc with
  | nil =>
    rw [List.nil_append, List.append_nil]
    exact scanLine_eol he
  | cons c m ih =>
    rw [List.cons_append, scanLine_plain (hm c List.mem_cons_self), ih fun d hd => hm d (List.mem_cons_of_mem _ hd)]
    simp

theorem blanks_add (a b : ℕ) : blanks (a + b) = blanks a ++ blanks b := List.replicate_add a b ' '

theorem length_blanks (n : ℕ) : (blanks n).length = n := List.length_replicate

/-- Cleared characters are passed over. -/
theorem scanLine_cleared (w : Str) : scanLine behind (w.length + k) acc q (w ++ t) = scanLine behind k (acc ++ blanks w.length) q t := by
  induction w generalizing acc with
  | nil => simp [blanks]
  | cons c w ih =>
    rw [List.length_cons, Nat.add_right_comm, List.cons_append, scanLine, ih, Nat.add_comm, blanks_add, ← List.append_assoc]
    rfl

/-- The run of white space over a line of blanks goes on behind it. -/
theorem lwsRun_blank (hm : ∀ c ∈ m, vctIscrlf c = false) (he : IsEol e t) (hb : m.all vctIssp = true) :
    lwsRun behind (m ++ (e ++ t)) = m.length + (e.length + lwsRun behind t) := by
  rw [List.all_eq_true] at hb
  rw [lwsRun, List.append_assoc, List.append_assoc, List.takeWhile_append_of_pos fun c hc => by rw [islws_plain (hm c hc), hb c hc],
    List.takeWhile_append_of_pos fun c hc => islws_crlf (he.crlf c hc), List.length_append, List.length_append, lwsRun]

theorem not_all_split (hb : m.all vctIssp = false) :
    ∃ w c m', m = w ++ c :: m' ∧ (∀ d ∈ w, vctIssp d = true) ∧ vctIssp c = false := by
  induction m with
  | nil => cases hb
  | cons c m ih =>
    by_cases hc : vctIssp c = true
    · rw [List.all_cons, hc, Bool.true_and] at hb
      obtain ⟨w, d, m', rfl, hw, hd⟩ := ih hb
      refine ⟨c :: w, d, m', rfl, fun x hx => ?_, hd⟩
      rcases List.mem_cons.mp hx with rfl | hx
      · exact hc
      · exact hw x hx
    · exact ⟨[], c, m, rfl, fun d hd => absurd hd List.not_mem_nil, by simpa using hc⟩

theorem blankLead_split {m' : Str} (hw : ∀ d ∈ w, vctIssp d = true) (hc : vctIssp c = false) :
    blankLead (w ++ c :: m') = blanks w.length ++ c :: m' := by
  have hn : ¬ vctIssp c = true := by simp [hc]
  rw [blankLead, List.takeWhile_append_of_pos hw, List.dropWhile_append_of_pos hw, List.takeWhile_cons_of_neg hn,
    List.dropWhile_cons_of_neg hn, List.append_nil]

theorem blankLead_blank (hb : m.all vctIssp = true) : blankLead m = blanks m.length := by
  rw [List.all_eq_true] at hb
  have h1 : m.takeWhile vctIssp = m := by
    have := @List.takeWhile_append_of_pos _ vctIssp m [] hb
    simpa using this
  have h2 : m.dropWhile vctIssp = [] := by
    have := @List.dropWhile_append_of_pos _ vctIssp m [] hb
    simpa using this
  rw [blankLead, h1, h2, List.append_nil]

/-- A line of blanks in the run is cleared with its end. -/
theorem scanLine_run_blank (hm : ∀ c ∈ m, vctIscrlf c = false) (he : IsEol e t) (hb : m.all vctIssp = true) :
    scanLine behind (lwsRun behind (m ++ (e ++ t))) acc q (m ++ (e ++ t)) =
      scanLine behind (lwsRun behind t) (acc ++ blankLead m ++ blanks e.length) q t := by
  rw [lwsRun_blank hm he hb, scanLine_cleared, scanLine_cleared, blankLead_blank hb]

/-- Any other line ends the run, and is read up to its end. -/
theorem scanLine_run_text (hm : ∀ c ∈ m, vctIscrlf c = false) (he : IsEol e t) (hb : m.all vctIssp = false) :
    scanLine behind (lwsRun behind (m ++ (e ++ t))) acc q (m ++ (e ++ t)) = after behind (acc ++ blankLead m) e.length t := by
  obtain ⟨w, c, m', rfl, hw, hc⟩ := not_all_split hb
  have hrun : lwsRun behind (w ++ c :: m' ++ (e ++ t)) = w.length + 0 := by
    rw [lwsRun, List.append_assoc, List.append_assoc, List.takeWhile_append_of_pos, List.cons_append, List.takeWhile_cons_of_neg]
    · simp
    · rw [islws_plain (hm c (by simp)), hc]
      decide
    · intro d hd
      rw [islws_plain (hm d (List.mem_append_left _ hd)), hw d hd]
  rw [hrun, List.append_assoc, scanLine_cleared,
    scanLine_line (fun d hd => hm d (List.mem_append_right _ hd)) he, blankLead_split hw hc, List.append_assoc]

end Lines

/-! ## The lines that the function takes -/

section Code

variable {behind acc m t cur : Str} {n q : ℕ}

/-- One header was found: `lines` begins with it. -/
structure Found (res : Str × ℕ × Str) (len : ℕ) (lines : List Str) : Prop where
  lines : lines = res.1 :: codeLines (physical [] res.2.2)
  whole : res.1.length ≤ res.2.1
  empty : res.2.1 = 0 ↔ res.1 = []
  term : Term res.2.2
  shorter : res.2.2.length ≤ len

theorem continues_line {e t2 : Str} (he : IsEol e t2) : continues (m ++ (e ++ t2)) = continues m := by
  cases m with
  | nil =>
    rcases he with rfl | rfl | ⟨rfl, -⟩ <;> rfl
  | cons c m => rfl

/-- From the end of a line on, and in a run of white space. -/
theorem scan_found (behind : Str) (h : Term t) : (∀ cur n, 1 ≤ n → Found (after behind cur n t) t.length (codeFrom false cur n (physical [] t))) ∧
    ∀ cur n, 1 ≤ n → Found (scanLine behind (lwsRun behind t) (cur ++ blanks n) (cur.length + n + lwsRun behind t) t) t.length
      (codeFrom true cur n (physical [] t)) := by
  induction hl : t.length using Nat.strong_induction_on generalizing t with
  | _ len ih =>
    subst hl
    have hrun : ∀ cur n, 1 ≤ n →
        Found (scanLine behind (lwsRun behind t) (cur ++ blanks n) (cur.length + n + lwsRun behind t) t) t.length
          (codeFrom true cur n (physical [] t)) := by
      intro cur n hn
      by_cases hne : t = []
      · subst hne
        have hres : ∀ k a q, scanLine behind k a q [] = (a, q, []) := fun k a q => by cases k <;> rfl
        rw [hres]
        refine ⟨rfl, ?_, ?_, .inl rfl, Nat.le_refl _⟩
        · show (cur ++ blanks n).length ≤ cur.length + n + lwsRun behind []
          rw [List.length_append, length_blanks]
          omega
        · refine iff_of_false ?_ fun hz => ?_
          · show ¬ cur.length + n + _ = 0
            omega
          · have := congrArg List.length hz
            rw [List.length_append, length_blanks, List.length_nil] at this
            omega
      · obtain ⟨m, e, t2, rfl, hm, he, ht2⟩ := exists_line h hne
        have hlen : t2.length < (m ++ (e ++ t2)).length := by
          have := he.length
          rw [List.length_append, List.length_append]
          omega
        obtain ⟨ih1, ih2⟩ := ih t2.length hlen ht2 rfl
        rw [physical_line hm he, codeFrom, List.nil_append, Bool.true_or, if_pos rfl]
        cases hb : m.all vctIssp with
        | true =>
          have hq : cur.length + n + lwsRun behind (m ++ (e ++ t2)) =
              (cur ++ blanks n ++ blankLead m).length + e.length + lwsRun behind t2 := by
            rw [lwsRun_blank hm he hb, blankLead_blank hb, List.length_append, List.length_append, length_blanks, length_blanks]
            omega
          rw [scanLine_run_blank hm he hb, hq]
          obtain ⟨h1, h2, h3, h4, h5⟩ := ih2 (cur ++ blanks n ++ blankLead m) e.length he.length
          exact ⟨h1, h2, h3, h4, h5.trans (Nat.le_of_lt hlen)⟩
        | false =>
          rw [scanLine_run_text hm he hb]
          obtain ⟨h1, h2, h3, h4, h5⟩ := ih1 (cur ++ blanks n ++ blankLead m) e.length he.length
          exact ⟨h1, h2, h3, h4, h5.trans (Nat.le_of_lt hlen)⟩
    refine ⟨fun cur n hn => ?_, hrun⟩
    rw [after]
    by_cases hc : continues t = true
    · rw [if_pos hc]
      have hne : t ≠ [] := by
        rintro rfl
        cases hc
      obtain ⟨m, e, t2, rfl, hm, he, -⟩ := exists_line h hne
      have hsame : codeFrom false cur n (physical [] (m ++ (e ++ t2))) = codeFrom true cur n (physical [] (m ++ (e ++ t2))) := by
        rw [continues_line he] at hc
        rw [physical_line hm he, codeFrom, codeFrom, List.nil_append, hc, Bool.or_true, Bool.or_true]
      rw [hsame]
      exact hrun cur n hn
    · rw [if_neg hc]
      refine ⟨?_, Nat.le_refl _, List.length_eq_zero_iff, h, Nat.le_refl _⟩
      by_cases hne : t = []
      · subst hne
        rfl
      · obtain ⟨m, e, t2, rfl, hm, he, -⟩ := exists_line h hne
        rw [continues_line he] at hc
        rw [Bool.not_eq_true] at hc
        rw [physical_line hm he, codeFrom, List.nil_append, hc, Bool.or_false, if_neg (by decide)]
        rfl

/-- The first header of a text. -/
theorem scanLine_found (behind : Str) (h : Term t) (hne : t ≠ []) : Found (scanLine behind 0 [] 0 t) (t.length - 1) (codeLines (physical [] t)) := by
  obtain ⟨m, e, t2, rfl, hm, he, ht2⟩ := exists_line h hne
  rw [scanLine_line hm he, physical_line hm he]
  obtain ⟨h1, h2, h3, h4, h5⟩ := (scan_found behind ht2).1 m e.length he.length
  refine ⟨h1, h2, h3, h4, h5.trans ?_⟩
  have := he.length
  rw [List.length_append, List.length_append]
  omega

theorem hdrsOf_cons (slots : ℕ) (l : Str) (ls : List Str) (hl : l ≠ []) :
    hdrsOf (slots + 1) (l :: ls) = ((hdrsOf slots ls).1, trimSp l :: (hdrsOf slots ls).2) := by
  simp [hdrsOf, effective, hl]

/-- **The loop of `http_dissect_hdrs`**: the headers are made of the lines `codeLines`. -/
theorem dissectLoop_eq (h : Term t) {fuel : ℕ} (hf : t.length < fuel) (slots : ℕ) :
    ((dissectLoop behind fuel slots t).status, (dissectLoop behind fuel slots t).hd) = hdrsOf slots (codeLines (physical [] t)) := by
  induction fuel generalizing t slots with
  | zero => exact absurd hf (Nat.not_lt_zero _)
  | succ fuel ih =>
    cases t with
    | nil => simp [dissectLoop, physical, codeLines, hdrsOf, effective]
    | cons c t =>
      have hfound := scanLine_found behind h (List.cons_ne_nil c t)
      rw [dissectLoop]
      generalize scanLine behind 0 [] 0 (c :: t) = res at hfound
      obtain ⟨acc, q, rest⟩ := res
      obtain ⟨hlines, hwhole, hempty, hterm, hshort⟩ := hfound
      rw [hlines]
      simp only at hwhole hempty hterm hshort ⊢
      by_cases hq : q = 0
      · rw [if_pos hq, hempty.mp hq]
        simp [hdrsOf, effective]
      · have hne : acc ≠ [] := fun he => hq (hempty.mpr he)
        rw [if_neg hq, List.take_of_length_le hwhole]
        cases slots with
        | zero => simp [hdrsOf, effective, hne]
        | succ slots =>
          have hrec := ih hterm (by simp only [List.length_cons] at hf hshort; omega) slots
          rw [hdrsOf_cons slots acc _ hne, ← hrec]

end Code

/-! ## When the two are the same -/

section Same

variable {m cur : Str} {n k : ℕ} {ls : List (Str × ℕ)}

/-- The block ends with the line `m`: it is empty, and there are only blanks behind it. -/
def Last (m : Str) (ls : List (Str × ℕ)) : Prop :=
  m = [] ∧ (∀ l ∈ ls.head?, continues l.1 = false) ∧ ∀ l ∈ ls, l.1.all vctIssp = true

/-- Where a continuation of nothing but blanks, `swallow`, is not continued, the block ends; `empty` is an empty line that has
ended it before. -/
def Tidy : (swallow empty : Bool) → List (Str × ℕ) → Prop
  | _, _, [] => True
  | swallow, empty, (m, _) :: ls =>
    if continues m then Tidy (m.all vctIssp) false ls
    else if swallow then Last m ls
    else if empty then True
    else Tidy false m.isEmpty ls

/-- The condition on a block. -/
def TidyBlock : List (Str × ℕ) → Prop
  | [] => True
  | (m, _) :: ls => Tidy false m.isEmpty ls

theorem effective_cons {l : Str} {ls : List Str} (hl : l ≠ []) : effective (l :: ls) = l :: effective ls :=
  List.takeWhile_cons_of_pos (decide_eq_true hl)

theorem trimSp_blanks (h : Str) (n : ℕ) : trimSp (h ++ blanks n) = trimSp h := by
  rw [trimSp, List.reverse_append, blanks, List.reverse_replicate, List.dropWhile_append_of_pos]
  · rfl
  · intro c hc
    rw [(List.mem_replicate.mp hc).2]
    rfl

theorem length_trimSp_le (h : Str) : (trimSp h).length ≤ h.length := by
  rw [trimSp, List.length_reverse]
  exact (List.dropWhile_sublist _).length_le.trans (by rw [List.length_reverse])

/-- Behind a character that is no blank nothing is trimmed. -/
theorem lt_length_trimSp {a b : Str} {c : Char} (hc : vctIssp c = false) : a.length < (trimSp (a ++ c :: b)).length := by
  rw [trimSp, List.length_reverse, List.reverse_append, List.reverse_cons, List.append_assoc]
  have hstop : ∀ u v : Str, v.length < ((u ++ ([c] ++ v)).dropWhile vctIssp).length := by
    intro u v
    induction u with
    | nil =>
      rw [List.nil_append, List.singleton_append, List.dropWhile_cons_of_neg (by simp [hc])]
      exact Nat.lt_succ_self _
    | cons d u ih =>
      rw [List.cons_append, List.dropWhile_cons]
      split
      · exact ih
      · simp only [List.length_cons, List.length_append]
        omega
  have := hstop b.reverse a.reverse
  rwa [List.length_reverse] at this

/-- A line that is swallowed only grows. -/
theorem codeFrom_prefix (swallow : Bool) (cur : Str) (n : ℕ) (ls : List (Str × ℕ)) : ∃ l ls', codeFrom swallow cur n ls = l :: ls' ∧ cur <+: l := by
  induction ls generalizing swallow cur n with
  | nil =>
    refine ⟨_, [], rfl, ?_⟩
    cases swallow
    · exact List.prefix_refl _
    · exact List.prefix_append _ _
  | cons p ls ih =>
    obtain ⟨m, k⟩ := p
    rw [codeFrom]
    split
    · obtain ⟨l, ls', he, hp⟩ := ih (m.all vctIssp) (cur ++ blanks n ++ blankLead m) k
      refine ⟨l, ls', he, List.IsPrefix.trans ?_ hp⟩
      rw [List.append_assoc]
      exact List.prefix_append _ _
    · exact ⟨cur, _, rfl, List.prefix_refl _⟩

/-- Lines of blanks, all of them swallowed. -/
theorem codeFrom_blank (cur : Str) (n : ℕ) (hb : ∀ l ∈ ls, l.1.all vctIssp = true) : ∃ j, codeFrom true cur n ls = [cur ++ blanks j] := by
  induction ls generalizing cur n with
  | nil => exact ⟨n, rfl⟩
  | cons p ls ih =>
    obtain ⟨m, k⟩ := p
    have hm : m.all vctIssp = true := hb _ List.mem_cons_self
    obtain ⟨j, hj⟩ := ih (cur ++ blanks n ++ blankLead m) k fun l hl => hb l (List.mem_cons_of_mem _ hl)
    refine ⟨n + m.length + j, ?_⟩
    rw [codeFrom, Bool.true_or, if_pos rfl, hm, hj, blankLead_blank hm, blanks_add, blanks_add]
    simp

/-- Lines that are swallowed up to one that is not blank: it becomes a part of the header. -/
theorem codeFrom_text (cur : Str) (n : ℕ) (hb : ∃ l ∈ ls, l.1.all vctIssp = false) :
    ∃ l ls', codeFrom true cur n ls = l :: ls' ∧ cur.length < (trimSp l).length := by
  induction ls generalizing cur n with
  | nil =>
    obtain ⟨l, hl, -⟩ := hb
    cases hl
  | cons p ls ih =>
    obtain ⟨m, k⟩ := p
    rw [codeFrom, Bool.true_or, if_pos rfl]
    cases hm : m.all vctIssp with
    | true =>
      have hb' : ∃ l ∈ ls, l.1.all vctIssp = false := by
        obtain ⟨l, hl, hlb⟩ := hb
        rcases List.mem_cons.mp hl with rfl | hl
        · rw [hm] at hlb
          cases hlb
        · exact ⟨l, hl, hlb⟩
      obtain ⟨l, ls', he, hlt⟩ := ih (cur ++ blanks n ++ blankLead m) k hb'
      refine ⟨l, ls', he, Nat.lt_of_le_of_lt ?_ hlt⟩
      rw [List.append_assoc, List.length_append]
      exact Nat.le_add_right _ _
    | false =>
      obtain ⟨w, c, m', rfl, hw, hc⟩ := not_all_split hm
      obtain ⟨l, ls', he, u, rfl⟩ := codeFrom_prefix false (cur ++ blanks n ++ blankLead (w ++ c :: m')) k ls
      refine ⟨_, ls', he, ?_⟩
      rw [blankLead_split hw hc]
      have hlt := lt_length_trimSp (a := cur ++ blanks n ++ blanks w.length) (b := m' ++ u) hc
      have hle : cur.length ≤ (cur ++ blanks n ++ blanks w.length).length := by
        rw [List.append_assoc, List.length_append]
        exact Nat.le_add_right _ _
      refine Nat.lt_of_le_of_lt hle ?_
      simpa using hlt

/-- The first logical line behind a split, and when it is empty. -/
theorem specFrom_head (m : Str) (ls : List (Str × ℕ)) (hk : 1 ≤ k) : ∃ l ls', specFrom m k ls = l :: ls' ∧
    (l = [] ↔ m = [] ∧ ∀ p ∈ ls.head?, continues p.1 = false) := by
  cases ls with
  | nil => exact ⟨m, [], rfl, by simp⟩
  | cons p ls =>
    obtain ⟨m2, k2⟩ := p
    rw [specFrom]
    by_cases hc : continues m2 = true
    · rw [if_pos hc]
      have hgrow : ∀ (ls : List (Str × ℕ)) (cur : Str) (n : ℕ), ∃ l ls', specFrom cur n ls = l :: ls' ∧ cur <+: l := by
        intro ls
        induction ls with
        | nil => exact fun cur n => ⟨cur, [], rfl, List.prefix_refl _⟩
        | cons p ls ih =>
          intro cur n
          rw [specFrom]
          split
          · obtain ⟨l, ls', he, hp⟩ := ih (cur ++ blanks n ++ blankLead p.1) p.2
            refine ⟨l, ls', he, List.IsPrefix.trans ?_ hp⟩
            rw [List.append_assoc]
            exact List.prefix_append _ _
          · exact ⟨cur, _, rfl, List.prefix_refl _⟩
      obtain ⟨l, ls', he, hp⟩ := hgrow ls (m ++ blanks k ++ blankLead m2) k2
      refine ⟨l, ls', he, iff_of_false ?_ ?_⟩
      · rintro rfl
        have := congrArg List.length (List.prefix_nil.mp hp)
        rw [List.length_append, List.length_append, length_blanks, List.length_nil] at this
        omega
      · rintro ⟨-, h⟩
        rw [h _ rfl] at hc
        cases hc
    · rw [if_neg hc]
      refine ⟨m, _, rfl, ?_⟩
      simp [Bool.not_eq_true _ ▸ hc]

/-- A line end that does not end the line for the function, because it is in a run of white space. -/
theorem same_swallowed (hcur : cur ≠ []) (hk : 1 ≤ k) (hc : continues m = false) :
    (effective (codeFrom true cur n ((m, k) :: ls))).map trimSp = (effective (specFrom cur n ((m, k) :: ls))).map trimSp ↔
      Last m ls := by
  have hspec : effective (specFrom cur n ((m, k) :: ls)) = cur :: effective (specFrom m k ls) := by
    rw [specFrom, hc, if_neg (by decide), effective_cons hcur]
  obtain ⟨l, ls', hl, hempty⟩ := specFrom_head m ls hk
  by_cases hb : ∀ p ∈ (m, k) :: ls, p.1.all vctIssp = true
  · -- nothing but blanks up to the end of the block
    obtain ⟨j, hj⟩ := codeFrom_blank cur n hb
    have hcode : effective (codeFrom true cur n ((m, k) :: ls)) = [cur ++ blanks j] := by
      rw [hj, effective_cons (by simp [hcur])]
      rfl
    rw [hspec, hcode, hl, List.map_singleton, List.map_cons, trimSp_blanks, List.cons.injEq, eq_self, true_and]
    have hnil : [] = (effective (l :: ls')).map trimSp ↔ l = [] := by
      rw [effective, List.takeWhile_cons]
      split
      · rename_i h
        simpa using h
      · rename_i h
        simpa using h
    rw [hnil, hempty, Last]
    have hbls : ∀ p ∈ ls, p.1.all vctIssp = true := fun p hp => hb p (List.mem_cons_of_mem _ hp)
    exact ⟨fun h => ⟨h.1, h.2, hbls⟩, fun h => ⟨h.1, h.2.1⟩⟩
  · -- there is text that the header does not get from the lines
    have hb' : ∃ p ∈ (m, k) :: ls, p.1.all vctIssp = false := by
      by_contra hno
      refine hb fun p hp => ?_
      by_contra hf
      exact hno ⟨p, hp, Bool.not_eq_true _ ▸ hf⟩
    obtain ⟨l2, ls2, hl2, hlt⟩ := codeFrom_text cur n hb'
    refine iff_of_false (fun he => ?_) fun hlast => hb fun p hp => ?_
    · have hne : l2 ≠ [] := by
        rintro rfl
        exact absurd hlt (Nat.not_lt_zero _)
      rw [hspec, hl2, effective_cons hne, List.map_cons, List.map_cons] at he
      have hlen := congrArg List.length (List.cons.inj he).1
      have := length_trimSp_le cur
      omega
    · rcases List.mem_cons.mp hp with rfl | hp
      · rw [hlast.1]
        rfl
      · exact hlast.2.2 p hp

/-- The two lists of lines, line by line. -/
theorem same_iff (swallow : Bool) (hn : 1 ≤ n) (hls : ∀ p ∈ ls, 1 ≤ p.2) (hcur : swallow = true → cur ≠ []) :
    (effective (codeFrom swallow cur n ls)).map trimSp = (effective (specFrom cur n ls)).map trimSp ↔ Tidy swallow cur.isEmpty ls := by
  induction ls generalizing swallow cur n with
  | nil =>
    refine iff_of_true ?_ trivial
    cases swallow with
    | false => rfl
    | true =>
      have hne := hcur rfl
      simp [codeFrom, specFrom, effective, hne, trimSp_blanks]
  | cons p ls ih =>
    obtain ⟨m, k⟩ := p
    have hk : 1 ≤ k := hls (m, k) List.mem_cons_self
    have hls' : ∀ p ∈ ls, 1 ≤ p.2 := fun p hp => hls p (List.mem_cons_of_mem _ hp)
    by_cases hc : continues m = true
    · have hne : cur ++ blanks n ++ blankLead m ≠ [] := by
        intro he
        have := congrArg List.length he
        rw [List.length_append, List.length_append, length_blanks, List.length_nil] at this
        omega
      rw [codeFrom, specFrom, Tidy, hc, Bool.or_true, if_pos rfl, if_pos rfl, if_pos rfl,
        ih (m.all vctIssp) hk hls' fun _ => hne, List.isEmpty_eq_false_iff.mpr hne]
    · rw [Bool.not_eq_true] at hc
      cases swallow with
      | true =>
        rw [same_swallowed (hcur rfl) hk hc, Tidy, hc, if_neg (by decide), if_pos rfl]
      | false =>
        rw [codeFrom, specFrom, Tidy, hc, Bool.or_false, if_neg (by decide), if_neg (by decide), if_neg (by decide), if_neg (by decide)]
        by_cases he : cur = []
        · subst he
          exact iff_of_true rfl trivial
        · rw [List.isEmpty_eq_false_iff.mpr he, if_neg (by decide), effective_cons he, effective_cons he, List.map_cons, List.map_cons,
            List.cons.injEq, eq_self, true_and, ih false hk hls' fun h => by cases h]

/-- With enough slots all the lines are seen. -/
theorem hdrsOf_same {a b : List Str} : (∀ slots, hdrsOf slots a = hdrsOf slots b) ↔ (effective a).map trimSp = (effective b).map trimSp := by
  constructor
  · intro h
    have hs := congrArg Prod.snd (h ((effective a).length + (effective b).length))
    simp only [hdrsOf] at hs
    rwa [List.take_of_length_le (by rw [List.length_map]; omega), List.take_of_length_le (by rw [List.length_map]; omega)] at hs
  · intro h slots
    have hlen := congrArg List.length h
    rw [List.length_map, List.length_map] at hlen
    rw [hdrsOf, hdrsOf, h, hlen]

/-- A complete block, as `HTC_Rx` passes it: it ends with the end of an empty line. -/
def Complete (p : Str) : Prop := p.getLast? = some '\n'

theorem Complete.term {p : Str} (h : Complete p) : Term (skipCr p) := by
  unfold skipCr
  split
  · rename_i t
    cases t with
    | nil => exact .inl rfl
    | cons c t => exact .inr (by rwa [Complete, List.getLast?_cons_cons] at h)
  · exact .inr h

theorem physical_pos : ∀ (t acc : Str), ∀ p ∈ physical acc t, 1 ≤ p.2 := by
  intro t acc
  fun_induction physical acc t with
  | case1 acc => exact fun p hp => absurd hp List.not_mem_nil
  | case2 acc t ih =>
    intro p hp
    rcases List.mem_cons.mp hp with rfl | hp
    · exact Nat.le_succ 1
    · exact ih p hp
  | case3 acc c t _ _ ih =>
    intro p hp
    rcases List.mem_cons.mp hp with rfl | hp
    · exact Nat.le_refl 1
    · exact ih p hp
  | case4 acc c t _ _ ih => exact ih

/-- **Header dissection**: for every complete block, the function finds the logical lines of the block, and 400 if there are more of
them than slots, for every number of slots, if and only if the block is tidy. -/
theorem dissect_iff (behind p : Str) (h : Complete p) :
    (∀ slots, ((httpDissectHdrs behind slots p).status, (httpDissectHdrs behind slots p).hd) = specHdrs slots (skipCr p)) ↔
      TidyBlock (physical [] (skipCr p)) := by
  have hcode : ∀ slots, ((httpDissectHdrs behind slots p).status, (httpDissectHdrs behind slots p).hd) =
      hdrsOf slots (codeLines (physical [] (skipCr p))) := fun slots => dissectLoop_eq h.term (Nat.lt_succ_self _) slots
  have hpos := physical_pos (skipCr p) []
  simp only [hcode, specHdrs]
  rw [hdrsOf_same]
  generalize physical [] (skipCr p) = ls at hpos
  cases ls with
  | nil => exact iff_of_true rfl trivial
  | cons q ls =>
    obtain ⟨m, k⟩ := q
    exact same_iff false (hpos (m, k) List.mem_cons_self) (fun q hq => hpos q (List.mem_cons_of_mem _ hq)) fun h => by cases h

/-- A block with a folded header. -/
def foldedBlock : Str := "Host: a\r\nCookie: b;\r\n\tc\r\n\r\n".toList

theorem dissect_iff_folded : httpDissectHdrs [] 2 foldedBlock = ⟨0, false, ["Host: a".toList, "Cookie: b;   c".toList]⟩ ∧
    ∀ slots, ((httpDissectHdrs [] slots foldedBlock).status, (httpDissectHdrs [] slots foldedBlock).hd) =
      specHdrs slots (skipCr foldedBlock) := by
  refine ⟨by decide +kernel, (dissect_iff [] foldedBlock (show foldedBlock.getLast? = _ by decide +kernel)).mpr ?_⟩
  have hphys : physical [] (skipCr foldedBlock) = [("Host: a".toList, 2), ("Cookie: b;".toList, 2), ("\tc".toList, 2), ([], 2)] := by
    decide +kernel
  rw [hphys]
  exact trivial

/-- A continuation of blanks takes the line behind it into the header. -/
theorem dissect_merged :
    httpDissectHdrs [] 2 "A: b\r\n \r\nC: d\r\n\r\n".toList = ⟨0, false, ["A: b     C: d".toList]⟩ ∧
      specHdrs 2 "A: b\r\n \r\nC: d\r\n\r\n".toList = (0, ["A: b".toList, "C: d".toList]) := by
  decide +kernel

end Same

end Varnish.Http
