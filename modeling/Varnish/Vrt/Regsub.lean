import Mathlib.Data.Nat.Notation
import Mathlib.Order.Lattice
import Mathlib.Tactic.IntervalCases

/-!
# Varnish.Vrt.Regsub — substitution with regular expressions

`VRT_regsub` of `bin/varnishd/cache_vrt_re.c`, with `Tadd` of `cache.h`.  The matcher is a parameter: it is given a subject and
the place in it where it begins to look.  A text is the bytes before its NUL.

* `vrtRegsub`: the loop, with a bound of its rounds.  It gives what is left of the text to the matcher, as a subject of its own.
* `replaceFirst`, `replaceAll`: what `regsub` and `regsuball` are for.  `Computes`: the loop ends with that, or with the
  original text when there is no room.
* `Agrees`: the matches of what is left are those of the text, and none ends where it is looked for.
* `computes_iff`: when the program does what it is for.
-/

namespace Varnish.Vrt

/-! ## The program -/

section Model

abbrev Text := List UInt8

/-- The vector of `VRE_exec`: the places of the match and of its groups. -/
abbrev Ovector := ℕ → ℕ × ℕ

/-- What is between two places. -/
def span (str : Text) (r : ℕ × ℕ) : Text := (str.take r.2).drop r.1

/-- A `txt` that is written: what is before `b`, and the bytes from `b` to `e`. -/
structure Txt where
  out : Text
  left : ℕ

/-- `Tadd` -/
def Txt.add (t : Txt) (p : Text) : Txt := if p.length < t.left then ⟨t.out ++ p, t.left - p.length⟩ else { t with left := 0 }

/-- One byte is written when there is room. -/
def Txt.put (t : Txt) (c : UInt8) : Txt := if 0 < t.left then ⟨t.out ++ [c], t.left - 1⟩ else t

def isdigit (c : UInt8) : Bool := 48 ≤ c && c ≤ 57

/-- The inner loop, over the template. -/
def putSub (str : Text) (m : Ovector) : (sub : Text) → Txt → Txt
  | [], t => t
  | [c], t => t.put c
  | c :: d :: sub, t =>
    if c ≠ 92 then putSub str m (d :: sub) (t.put c)
    else if isdigit d then putSub str m sub (t.add (span str (m (d.toNat - 48))))
    else putSub str m sub (t.put d)

/-- What is behind the last match goes to the result, with the NUL; without room, `str` is returned. -/
def finish (str : Text) (res : Txt) : Text :=
  let res := res.add (str ++ [0])
  if res.left = 0 then str else res.out.dropLast

/-- `VRE_exec`, by the subject and the place where the search begins. -/
abbrev Matcher := Text → ℕ → Option Ovector

variable (exec : Matcher) (all : Bool) (sub : Text)

/-- The outer loop, at most `n` rounds of it. -/
def regsubLoop : (n : ℕ) → (str : Text) → (m : Ovector) → Txt → Option Text
  | 0, _, _, _ => none
  | n + 1, str, m, res =>
    let res := putSub str m sub (res.add (str.take (m 0).1))
    let str := str.drop (m 0).2
    match if all then exec str 0 else none with
    | none => some (finish str res)
    | some m => regsubLoop n str m res

/-- `VRT_regsub`, with `u` bytes of workspace -/
def vrtRegsub (u n : ℕ) : (str : Option Text) → Option Text
  | none => some []
  | some str =>
    match exec str 0 with
    | none => some str
    | some m => regsubLoop exec all sub n str m ⟨[], u⟩

end Model

/-! ## What it is for -/

section Spec

/-- The template for a match. -/
def expand (str : Text) (m : Ovector) : (sub : Text) → Text
  | [] => []
  | [c] => [c]
  | c :: d :: sub =>
    if c ≠ 92 then c :: expand str m (d :: sub)
    else if isdigit d then span str (m (d.toNat - 48)) ++ expand str m sub
    else d :: expand str m sub

variable (exec : Matcher) (all : Bool) (sub : Text)

def replaceFirst (str : Text) : Text :=
  match exec str 0 with
  | none => str
  | some m => str.take (m 0).1 ++ expand str m sub ++ str.drop (m 0).2

/-- The text from `p` on, with its matches replaced.  After a match of no bytes one byte is kept; `seen` is whether there was
such a match just before. -/
def replaceAll (str : Text) (seen : Bool) (p : ℕ) : Text :=
  match exec str p with
  | none => str.drop p
  | some m =>
    if hp : p < str.length then
      if (m 0).2 ≤ p then (if seen then [] else expand str m sub) ++ str.get ⟨p, hp⟩ :: replaceAll str false (p + 1)
      else span str (p, (m 0).1) ++ expand str m sub ++ replaceAll str ((m 0).1 = (m 0).2) (m 0).2
    else if seen then [] else expand str m sub
termination_by str.length - p

/-- The text with its matches replaced. -/
def replaced (str : Text) : Text := if all then replaceAll exec sub str false 0 else replaceFirst exec sub str

/-- The loop ends with the text in which matches are replaced, or with the original one when there is no room. -/
def Computes (u : ℕ) (str : Text) : Prop :=
  ∃ n₀, ∀ n, n₀ ≤ n → vrtRegsub exec all sub u n (some str) =
    some (if (replaced exec all sub str).length + 1 < u then replaced exec all sub str else str)

/-- The places that the matcher gives are in the text, and the match is not before the place where the search begins. -/
def Sound : Prop :=
  ∀ str p m, p ≤ str.length → exec str p = some m → p ≤ (m 0).1 ∧ ∀ x, (m x).1 ≤ (m x).2 ∧ (m x).2 ≤ str.length

/-- The next match of the text from `p` on; after one of no bytes at `p`, not the same again. -/
def next (str : Text) (seen : Bool) (p : ℕ) : Option Ovector :=
  match exec str p with
  | none => none
  | some m => if seen = true ∧ (m 0).2 ≤ p then (if p < str.length then exec str (p + 1) else none) else some m

/-- From `p` on, what is left of the text has the matches of the text: at the same places, with the same contents of the groups,
and none that ends where it is looked for. -/
inductive Agrees (str : Text) : (seen : Bool) → (p : ℕ) → Prop
  | done {seen : Bool} {p : ℕ} (hrest : exec (str.drop p) 0 = none) (hnext : next exec str seen p = none) : Agrees str seen p
  | step {seen : Bool} {p : ℕ} {m m' : Ovector} (hrest : exec (str.drop p) 0 = some m) (hnext : next exec str seen p = some m')
      (hplace : (m' 0).1 = p + (m 0).1 ∧ (m' 0).2 = p + (m 0).2)
      (hgroups : ∀ x < 10, span (str.drop p) (m x) = span str (m' x)) (h0 : (m 0).2 ≠ 0)
      (h : Agrees str ((m' 0).1 = (m' 0).2) (m' 0).2) : Agrees str seen p

end Spec

variable {exec : Matcher} {all : Bool} {sub str w : Text} {m m' : Ovector} {res : Txt} {u n p : ℕ} {seen : Bool}

/-! ## The result that is written -/

section Write

/-- The text `w` was written, as far as there is room. -/
structure Holds (u : ℕ) (w : Text) (t : Txt) : Prop where
  left : t.left = u - w.length
  out : 0 < t.left → t.out = w

theorem Holds.add (h : Holds u w res) (p : Text) : Holds u (w ++ p) (res.add p) := by
  have hleft := h.left
  rw [Txt.add]
  by_cases hp : p.length < res.left
  · rw [if_pos hp]
    refine ⟨?_, fun _ => ?_⟩
    · rw [List.length_append]
      simp only
      omega
    · rw [← h.out (by omega)]
  · rw [if_neg hp]
    refine ⟨?_, fun h0 => absurd h0 (lt_irrefl 0)⟩
    rw [List.length_append]
    simp only
    omega

theorem Holds.put (h : Holds u w res) (c : UInt8) : Holds u (w ++ [c]) (res.put c) := by
  have hleft := h.left
  rw [Txt.put]
  by_cases h0 : 0 < res.left
  · rw [if_pos h0]
    refine ⟨?_, fun _ => ?_⟩
    · rw [List.length_append, List.length_singleton]
      simp only
      omega
    · rw [← h.out h0]
  · rw [if_neg h0]
    refine ⟨?_, fun hpos => absurd hpos h0⟩
    rw [List.length_append, List.length_singleton]
    omega

/-- The template is written. -/
theorem Holds.putSub (h : Holds u w res) (str : Text) (m : Ovector) (sub : Text) :
    Holds u (w ++ expand str m sub) (putSub str m sub res) := by
  induction sub using expand.induct generalizing w res with
  | case1 =>
    rw [expand, List.append_nil]
    exact h
  | case2 c => exact h.put c
  | case3 c d sub hc ih =>
    rw [expand, if_pos hc, Vrt.putSub, if_pos hc, List.append_cons]
    exact ih (h.put c)
  | case4 c d sub hc hd ih =>
    rw [expand, if_neg hc, if_pos hd, Vrt.putSub, if_neg hc, if_pos hd, ← List.append_assoc]
    exact ih (h.add _)
  | case5 c d sub hc hd ih =>
    rw [expand, if_neg hc, if_neg hd, Vrt.putSub, if_neg hc, if_neg hd, List.append_cons]
    exact ih (h.put d)

theorem finish_eq (h : Holds u w res) (str : Text) :
    finish str res = if (w ++ str).length + 1 < u then w ++ str else str := by
  have hadd := h.add (str ++ [0])
  have hlen : (w ++ (str ++ [0])).length = (w ++ str).length + 1 := by
    rw [← List.append_assoc, List.length_append, List.length_singleton]
  have hleft := hadd.left
  rw [finish]
  by_cases hfit : (w ++ str).length + 1 < u
  · rw [if_pos hfit, if_neg (by omega), hadd.out (by omega), ← List.append_assoc, List.dropLast_concat]
  · rw [if_neg hfit, if_pos (by omega)]

end Write

/-! ## The loop -/

section Loop

/-- A match ends where it is looked for. -/
inductive Stuck (exec : Matcher) : Text → Prop
  | here {str : Text} {m : Ovector} (hm : exec str 0 = some m) (h0 : (m 0).2 = 0) : Stuck exec str
  | later {str : Text} {m : Ovector} (hm : exec str 0 = some m) (h0 : (m 0).2 ≠ 0) (h : Stuck exec (str.drop (m 0).2)) :
      Stuck exec str

/-- The text with the matches of what is left replaced. -/
def replaceRests (exec : Matcher) (sub str : Text) : Text :=
  match exec str 0 with
  | none => str
  | some m =>
    if _h : 0 < (m 0).2 ∧ (m 0).2 ≤ str.length then
      str.take (m 0).1 ++ expand str m sub ++ replaceRests exec sub (str.drop (m 0).2)
    else str
termination_by str.length
decreasing_by
  rw [List.length_drop]
  omega

theorem replaceRests_of_none (hm : exec str 0 = none) : replaceRests exec sub str = str := by
  rw [replaceRests, hm]

theorem replaceRests_of_match (hexec : Sound exec) (hm : exec str 0 = some m) (h0 : (m 0).2 ≠ 0) :
    replaceRests exec sub str = str.take (m 0).1 ++ expand str m sub ++ replaceRests exec sub (str.drop (m 0).2) := by
  have hle := ((hexec _ _ _ (Nat.zero_le _) hm).2 0).2
  rw [replaceRests, hm]
  exact dif_pos ⟨Nat.pos_of_ne_zero h0, hle⟩

/-- One round, whose match is the last one. -/
theorem loop_last (hnext : (if all then exec (str.drop (m 0).2) 0 else none) = none) :
    regsubLoop exec all sub (n + 1) str m res =
      some (finish (str.drop (m 0).2) (putSub str m sub (res.add (str.take (m 0).1)))) := by
  rw [regsubLoop, hnext]

/-- One round, after which there is another match. -/
theorem loop_next (hall : all = true) (hnext : exec (str.drop (m 0).2) 0 = some m') :
    regsubLoop exec all sub (n + 1) str m res =
      regsubLoop exec all sub n (str.drop (m 0).2) m' (putSub str m sub (res.add (str.take (m 0).1))) := by
  rw [regsubLoop, if_pos hall, hnext]

theorem Stuck.exec_ne_none (h : Stuck exec str) : exec str 0 ≠ none := by
  intro hnone
  cases h with
  | here hm _ =>
    rw [hnone] at hm
    cases hm
  | later hm _ _ =>
    rw [hnone] at hm
    cases hm

/-- The loop makes no progress from a match of no bytes on. -/
theorem loop_stuck (hall : all = true) (h : Stuck exec str) (hm : exec str 0 = some m) :
    regsubLoop exec all sub n str m res = none := by
  induction n generalizing str m res with
  | zero => rfl
  | succ n ih =>
    cases h with
    | here hm' h0 =>
      cases hm.symm.trans hm'
      have hsame : str.drop (m 0).2 = str := by rw [h0, List.drop_zero]
      rw [loop_next hall (hsame.symm ▸ hm), hsame]
      exact ih (.here hm h0) hm
    | later hm' h0 h =>
      cases hm.symm.trans hm'
      cases hnext : exec (str.drop (m 0).2) 0 with
      | none => exact absurd hnext h.exec_ne_none
      | some m' =>
        rw [loop_next hall hnext]
        exact ih h hnext

/-- The loop ends with what was written and the rest with its matches replaced, or, without room, with a shorter text. -/
theorem loop_run (hexec : Sound exec) (hall : all = true) (hm : exec str 0 = some m) (hstuck : ¬ Stuck exec str)
    (hn : str.length ≤ n) (h : Holds u w res) :
    ∃ str', str'.length < str.length ∧ regsubLoop exec all sub n str m res =
      some (if (w ++ replaceRests exec sub str).length + 1 < u then w ++ replaceRests exec sub str else str') := by
  induction n generalizing str m res w with
  | zero =>
    have hle := ((hexec _ _ _ (Nat.zero_le _) hm).2 0).2
    exact absurd (.here hm (by omega)) hstuck
  | succ n ih =>
    have hle := ((hexec _ _ _ (Nat.zero_le _) hm).2 0).2
    have h0 : (m 0).2 ≠ 0 := fun h0 => hstuck (.here hm h0)
    have hshort : (str.drop (m 0).2).length < str.length := by
      rw [List.length_drop]
      omega
    have hwrite := (h.add (str.take (m 0).1)).putSub str m sub
    rw [replaceRests_of_match hexec hm h0, ← List.append_assoc, ← List.append_assoc]
    cases hnext : exec (str.drop (m 0).2) 0 with
    | none =>
      refine ⟨str.drop (m 0).2, hshort, ?_⟩
      rw [loop_last (by rw [if_pos hall]; exact hnext), finish_eq hwrite, replaceRests_of_none hnext]
    | some m' =>
      obtain ⟨str', hlen, hrun⟩ := ih hnext (fun hs => hstuck (.later hm h0 hs)) (by omega) hwrite
      exact ⟨str', hlen.trans hshort, (loop_next hall hnext).trans hrun⟩

end Loop

/-! ## The matches of what is left -/

section Agree

theorem span_self (str : Text) (p : ℕ) : span str (p, p) = [] := by
  rw [span, List.drop_take, Nat.sub_self, List.take_zero]

theorem span_eq (str : Text) (p b : ℕ) : span str (p, b) = (str.drop p).take (b - p) := by
  rw [span, List.drop_take]

theorem next_sound (hexec : Sound exec) (hp : p ≤ str.length) (h : next exec str seen p = some m) :
    p ≤ (m 0).1 ∧ ∀ x, (m x).1 ≤ (m x).2 ∧ (m x).2 ≤ str.length := by
  rw [next] at h
  cases hm : exec str p with
  | none =>
    rw [hm] at h
    cases h
  | some m₀ =>
    rw [hm] at h
    simp only at h
    split at h
    · split at h
      · next hlt =>
        obtain ⟨hbeg, hin⟩ := hexec _ _ _ hlt h
        exact ⟨by omega, hin⟩
      · cases h
    · cases h
      exact hexec _ _ _ hp hm

theorem replaceAll_of_none (h : next exec str seen p = none) : replaceAll exec sub str seen p = str.drop p := by
  rw [next] at h
  rw [replaceAll]
  cases hm : exec str p with
  | none => rfl
  | some m =>
    rw [hm] at h
    simp only at h ⊢
    split at h
    · next hseen =>
      rw [hseen.1]
      by_cases hlt : p < str.length
      · rw [if_pos hlt] at h
        rw [dif_pos hlt, if_pos hseen.2, if_pos rfl, replaceAll, h, List.nil_append]
        exact (List.drop_eq_getElem_cons hlt).symm
      · rw [dif_neg hlt, if_pos rfl, List.drop_eq_nil_of_le (Nat.not_lt.mp hlt)]
    · cases h

theorem replaceAll_match (seen : Bool) (hm : exec str p = some m) :
    replaceAll exec sub str seen p =
      if hp : p < str.length then
        if (m 0).2 ≤ p then (if seen then [] else expand str m sub) ++ str.get ⟨p, hp⟩ :: replaceAll exec sub str false (p + 1)
        else span str (p, (m 0).1) ++ expand str m sub ++ replaceAll exec sub str ((m 0).1 = (m 0).2) (m 0).2
      else if seen then [] else expand str m sub := by
  rw [replaceAll, hm]

/-- Where a match of no bytes was replaced, the text goes on as if it had been seen. -/
theorem replaceAll_of_match_at (hexec : Sound exec) (hp : p ≤ str.length) (hm : exec str p = some m) :
    replaceAll exec sub str false p =
      span str (p, (m 0).1) ++ expand str m sub ++ replaceAll exec sub str ((m 0).1 = (m 0).2) (m 0).2 := by
  obtain ⟨hbeg, hin⟩ := hexec _ _ _ hp hm
  have hle := (hin 0).1
  by_cases hend : (m 0).2 ≤ p
  · have hb : (m 0).1 = p := by omega
    have he : (m 0).2 = p := by omega
    rw [hb, he, span_self, List.nil_append, decide_eq_true rfl, replaceAll_match false hm, replaceAll_match true hm]
    by_cases hlt : p < str.length
    · rw [dif_pos hlt, dif_pos hlt, if_pos hend, if_pos hend]
      rfl
    · rw [dif_neg hlt, dif_neg hlt]
      exact (List.append_nil _).symm
  · have hlt : p < str.length := by
      have := (hin 0).2
      omega
    rw [replaceAll_match false hm, dif_pos hlt, if_neg hend]

theorem replaceAll_of_some (hexec : Sound exec) (hp : p ≤ str.length) (h : next exec str seen p = some m) :
    replaceAll exec sub str seen p =
      span str (p, (m 0).1) ++ expand str m sub ++ replaceAll exec sub str ((m 0).1 = (m 0).2) (m 0).2 := by
  rw [next] at h
  cases hm : exec str p with
  | none =>
    rw [hm] at h
    cases h
  | some m₀ =>
    rw [hm] at h
    simp only at h
    split at h
    · next hseen =>
      split at h
      · next hlt =>
        obtain ⟨hbeg, -⟩ := hexec _ _ _ hlt h
        rw [replaceAll_match seen hm, dif_pos hlt, if_pos hseen.2, if_pos hseen.1, List.nil_append, replaceAll_of_match_at hexec hlt h, ← List.cons_append,
          ← List.cons_append, span_eq, span_eq]
        refine congrArg (· ++ _ ++ _) ?_
        rw [List.drop_eq_getElem_cons hlt, show (m 0).1 - p = (m 0).1 - (p + 1) + 1 by omega, List.take_succ_cons]
        rfl
      · cases h
    · next hno =>
      cases h
      obtain ⟨hbeg, hin⟩ := hexec _ _ _ hp hm
      cases seen with
      | false => exact replaceAll_of_match_at hexec hp hm
      | true =>
        have hend : ¬ (m 0).2 ≤ p := fun hend => hno ⟨rfl, hend⟩
        have hlt : p < str.length := by
          have := (hin 0).2
          omega
        rw [replaceAll_match true hm, dif_pos hlt, if_neg hend]

/-- The template needs the first ten groups only. -/
theorem expand_congr {str' : Text} (hgroups : ∀ x < 10, span str (m x) = span str' (m' x)) (sub : Text) :
    expand str m sub = expand str' m' sub := by
  induction sub using expand.induct with
  | case1 => rfl
  | case2 c => rfl
  | case3 c d sub hc ih => rw [expand, if_pos hc, expand, if_pos hc, ih]
  | case4 c d sub hc hd ih =>
    have hten : d.toNat - 48 < 10 := by
      rw [isdigit, Bool.and_eq_true, decide_eq_true_iff, decide_eq_true_iff] at hd
      have hle : d.toNat ≤ 57 := UInt8.le_iff_toNat_le.mp hd.2
      omega
    rw [expand, if_neg hc, if_pos hd, expand, if_neg hc, if_pos hd, hgroups _ hten, ih]
  | case5 c d sub hc hd ih => rw [expand, if_neg hc, if_neg hd, expand, if_neg hc, if_neg hd, ih]

theorem Agrees.not_stuck (h : Agrees exec str seen p) : ¬ Stuck exec (str.drop p) := by
  induction h with
  | done hrest _ => exact fun hs => hs.exec_ne_none hrest
  | step hrest _ hplace _ h0 _ ih =>
    intro hs
    cases hs with
    | here hm h0' =>
      cases hrest.symm.trans hm
      exact h0 h0'
    | later hm _ hlater =>
      cases hrest.symm.trans hm
      rw [List.drop_drop, ← hplace.2] at hlater
      exact ih hlater

/-- Where the matches agree, so do the texts, for every template. -/
theorem Agrees.replaceRests_eq (hexec : Sound exec) (hp : p ≤ str.length) (h : Agrees exec str seen p) :
    replaceRests exec sub (str.drop p) = replaceAll exec sub str seen p := by
  induction h with
  | done hrest hnext => rw [replaceRests_of_none hrest, replaceAll_of_none hnext]
  | @step _ p m m' hrest hnext hplace hgroups h0 _ ih =>
    obtain ⟨-, hin⟩ := next_sound hexec hp hnext
    have hbefore : span str (p, (m' 0).1) = (str.drop p).take (m 0).1 := by
      rw [span_eq, hplace.1, Nat.add_sub_cancel_left]
    rw [replaceRests_of_match hexec hrest h0, replaceAll_of_some hexec hp hnext, expand_congr hgroups, hbefore, List.drop_drop,
      ← hplace.2, ih (hin 0).2]

/-! ### Templates that show a difference -/

/-- A byte of a template that is not this one. -/
def other (c : UInt8) : UInt8 := if c = 1 then 2 else 1

theorem other_spec (c : UInt8) : other c ≠ c ∧ other c ≠ 0 := by
  rw [other]
  split
  · next h =>
    rw [h]
    decide
  · next h => exact ⟨fun h' => h h'.symm, by decide⟩

/-- Behind a text there is a byte that another text does not go on with. -/
theorem exists_byte_end (A r : Text) : ∃ y, y ≠ 0 ∧ ∀ t, r ≠ A ++ y :: t := by
  refine ⟨other (r.getD A.length 0), (other_spec _).2, fun t h => ?_⟩
  have hget : r.getD A.length 0 = other (r.getD A.length 0) := by
    rw [List.getD_eq_getElem?_getD]
    conv_lhs => rw [h, List.getElem?_append_right (le_refl _), Nat.sub_self]
    rfl
  exact (other_spec _).1 hget.symm

/-- Behind two texts that differ, there is a byte that keeps them apart, whatever follows. -/
theorem exists_byte {A B : Text} (hne : A ≠ B) : ∃ y, y ≠ 0 ∧ ∀ t t', A ++ y :: t ≠ B ++ y :: t' := by
  rcases Nat.lt_trichotomy A.length B.length with hlt | heq | hlt
  · refine ⟨other (B.get ⟨A.length, hlt⟩), (other_spec _).2, fun t t' h => (other_spec (B.get ⟨A.length, hlt⟩)).1 ?_⟩
    have hget := congrArg (·[A.length]?) h
    simp only [List.getElem?_append_right (le_refl _), Nat.sub_self, List.getElem?_append_left hlt] at hget
    rw [List.getElem?_eq_getElem hlt] at hget
    exact Option.some.inj hget
  · exact ⟨1, by decide, fun t t' h => hne (List.append_inj h heq).1⟩
  · refine ⟨other (A.get ⟨B.length, hlt⟩), (other_spec _).2, fun t t' h => (other_spec (A.get ⟨B.length, hlt⟩)).1 ?_⟩
    have hget := congrArg (·[B.length]?) h
    simp only [List.getElem?_append_right (le_refl _), Nat.sub_self, List.getElem?_append_left hlt] at hget
    rw [List.getElem?_eq_getElem hlt] at hget
    exact (Option.some.inj hget).symm

/-- The template `\x` with a byte behind it. -/
theorem expand_group (str : Text) (m : Ovector) {x : ℕ} (hx : x < 10) (y : UInt8) :
    expand str m [92, UInt8.ofNat (48 + x), y] = span str (m x) ++ [y] := by
  interval_cases x <;> rfl

theorem digit_ne_zero {x : ℕ} (hx : x < 10) : UInt8.ofNat (48 + x) ≠ 0 := by
  interval_cases x <;> decide

/-- Where the matches do not agree, there is a template that shows it. -/
theorem exists_template (hexec : Sound exec) (hp : p ≤ str.length) (hstuck : ¬ Stuck exec (str.drop p))
    (hno : ¬ Agrees exec str seen p) :
    ∃ sub, (∀ c ∈ sub, c ≠ 0) ∧ replaceRests exec sub (str.drop p) ≠ replaceAll exec sub str seen p := by
  induction hk : str.length - p using Nat.strongRecOn generalizing p seen with
  | ind k ih =>
    subst hk
    cases hrest : exec (str.drop p) 0 with
    | none =>
      cases hnext : next exec str seen p with
      | none => exact absurd (.done hrest hnext) hno
      | some m' =>
        -- one match more in the text
        obtain ⟨y, hy, hne⟩ := exists_byte_end (span str (p, (m' 0).1)) (str.drop p)
        refine ⟨[y], fun c hc => List.mem_singleton.mp hc ▸ hy, ?_⟩
        rw [replaceRests_of_none hrest, replaceAll_of_some hexec hp hnext, expand, List.append_assoc]
        exact hne _
    | some m =>
      have h0 : (m 0).2 ≠ 0 := fun h0 => hstuck (.here hrest h0)
      obtain ⟨-, hinr⟩ := hexec _ _ _ (Nat.zero_le _) hrest
      have hlen : (str.drop p).length = str.length - p := List.length_drop
      cases hnext : next exec str seen p with
      | none =>
        -- one match more in what is left
        obtain ⟨y, hy, hne⟩ := exists_byte_end ((str.drop p).take (m 0).1) (str.drop p)
        refine ⟨[y], fun c hc => List.mem_singleton.mp hc ▸ hy, fun h => ?_⟩
        rw [replaceRests_of_match hexec hrest h0, replaceAll_of_none hnext, expand, List.append_assoc] at h
        exact hne _ h.symm
      | some m' =>
        obtain ⟨hbeg, hin⟩ := next_sound hexec hp hnext
        have htexts : ∀ sub, replaceRests exec sub (str.drop p) = replaceAll exec sub str seen p ↔
            (str.drop p).take (m 0).1 ++ expand (str.drop p) m sub ++ replaceRests exec sub (str.drop (p + (m 0).2)) =
              span str (p, (m' 0).1) ++ expand str m' sub ++ replaceAll exec sub str ((m' 0).1 = (m' 0).2) (m' 0).2 := by
          intro sub
          rw [replaceRests_of_match hexec hrest h0, replaceAll_of_some hexec hp hnext, List.drop_drop]
        by_cases hstart : (m' 0).1 = p + (m 0).1
        · have hbefore : span str (p, (m' 0).1) = (str.drop p).take (m 0).1 := by
            rw [span_eq, hstart, Nat.add_sub_cancel_left]
          by_cases hgroups : ∀ x < 10, span (str.drop p) (m x) = span str (m' x)
          · have hend : (m' 0).2 = p + (m 0).2 := by
              have hspan := congrArg List.length (hgroups 0 (by decide))
              have hle := hinr 0
              have hle' := hin 0
              rw [span, span, List.length_drop, List.length_drop, List.length_take, List.length_take, hlen] at hspan
              omega
            have hle := hinr 0
            obtain ⟨sub, hsub, hne⟩ := ih (str.length - (m' 0).2) (by omega) (hin 0).2
              (fun hs => hstuck (.later hrest h0 (by rw [List.drop_drop, ← hend]; exact hs)))
              (fun hagrees => hno (.step hrest hnext ⟨hstart, hend⟩ hgroups h0 hagrees)) rfl
            refine ⟨sub, hsub, fun h => hne ?_⟩
            rw [htexts, hbefore, expand_congr hgroups, ← hend] at h
            exact List.append_cancel_left h
          · -- the contents of a group are different, perhaps all of the match
            simp only [not_forall] at hgroups
            obtain ⟨x, hx, hspan⟩ := hgroups
            obtain ⟨y, hy, hne⟩ := exists_byte hspan
            refine ⟨[92, UInt8.ofNat (48 + x), y], ?_, fun h => ?_⟩
            · simp only [List.mem_cons, List.not_mem_nil, or_false, forall_eq_or_imp, forall_eq]
              exact ⟨by decide, digit_ne_zero hx, hy⟩
            · rw [htexts, hbefore, expand_group _ _ hx, expand_group _ _ hx] at h
              simp only [List.append_assoc] at h
              exact hne _ _ (List.append_cancel_left h)
        · -- the match is at another place
          have hdiff : (str.drop p).take (m 0).1 ≠ span str (p, (m' 0).1) := by
            intro h
            have hlens := congrArg List.length h
            have hle := hinr 0
            have hle' := hin 0
            rw [span_eq, List.length_take, List.length_take, hlen] at hlens
            omega
          obtain ⟨y, hy, hne⟩ := exists_byte hdiff
          refine ⟨[y], fun c hc => List.mem_singleton.mp hc ▸ hy, fun h => ?_⟩
          rw [htexts, expand, expand, List.append_assoc, List.append_assoc] at h
          exact hne _ _ h

end Agree

/-! ## The result -/

section Result

theorem vrtRegsub_of_match (hm : exec str 0 = some m) :
    vrtRegsub exec all sub u n (some str) = regsubLoop exec all sub n str m ⟨[], u⟩ := by
  rw [vrtRegsub, hm]

theorem holds_start (u : ℕ) : Holds u [] ⟨[], u⟩ := ⟨rfl, fun _ => rfl⟩

theorem next_start (exec : Matcher) (str : Text) : next exec str false 0 = exec str 0 := by
  rw [next]
  cases exec str 0 with
  | none => rfl
  | some m => exact if_neg fun h => absurd h.1 Bool.false_ne_true

theorem computes_of_none (hm : exec str 0 = none) : Computes exec all sub u str := by
  have hsame : replaced exec all sub str = str := by
    rw [replaced]
    cases all with
    | true => exact replaceAll_of_none ((next_start exec str).trans hm)
    | false => rw [if_neg Bool.false_ne_true, replaceFirst, hm]
  refine ⟨0, fun n _ => ?_⟩
  rw [hsame, ite_self, vrtRegsub, hm]

/-- What the loop returns is what it is for, or, without room, a rest of the text, which should be all of it. -/
theorem computes_iff_rest (Rest : Text → Prop) {c : Prop} (hm : exec str 0 = some m)
    (hrest : ∀ str', Rest str' → (str' = str ↔ c))
    (hrun : ∀ n, str.length < n → ∃ str', Rest str' ∧ regsubLoop exec all sub n str m ⟨[], u⟩ =
      some (if (replaced exec all sub str).length + 1 < u then replaced exec all sub str else str')) :
    Computes exec all sub u str ↔ (replaced exec all sub str).length + 1 < u ∨ c := by
  by_cases hfit : (replaced exec all sub str).length + 1 < u
  · refine iff_of_true ⟨str.length + 1, fun n hn => ?_⟩ (.inl hfit)
    obtain ⟨str', -, hloop⟩ := hrun n hn
    rw [vrtRegsub_of_match hm, hloop, if_pos hfit, if_pos hfit]
  · rw [or_iff_right hfit]
    constructor
    · rintro ⟨n₀, hn₀⟩
      obtain ⟨str', hstr', hloop⟩ := hrun (n₀ + str.length + 1) (by omega)
      have hsome := hn₀ (n₀ + str.length + 1) (by omega)
      rw [vrtRegsub_of_match hm, hloop, if_neg hfit, if_neg hfit] at hsome
      exact (hrest str' hstr').mp (Option.some.inj hsome)
    · intro hc
      refine ⟨str.length + 1, fun n hn => ?_⟩
      obtain ⟨str', hstr', hloop⟩ := hrun n hn
      rw [vrtRegsub_of_match hm, hloop, if_neg hfit, if_neg hfit, (hrest str' hstr').mpr hc]

/-- `regsub` needs room, or a match that ends where the text begins. -/
theorem computes_first (hexec : Sound exec) (hm : exec str 0 = some m) :
    Computes exec false sub u str ↔ (replaced exec false sub str).length + 1 < u ∨ (m 0).2 = 0 := by
  have hle := ((hexec _ _ _ (Nat.zero_le _) hm).2 0).2
  have hwrite := ((holds_start u).add (str.take (m 0).1)).putSub str m sub
  have hreplaced : replaced exec false sub str = [] ++ str.take (m 0).1 ++ expand str m sub ++ str.drop (m 0).2 := by
    rw [replaced, if_neg Bool.false_ne_true, replaceFirst, hm]
    rfl
  have hrest : ∀ str', str' = str.drop (m 0).2 → (str' = str ↔ (m 0).2 = 0) := by
    rintro str' rfl
    refine ⟨fun hsame => ?_, fun h0 => by rw [h0, List.drop_zero]⟩
    have hlen := congrArg List.length hsame
    rw [List.length_drop] at hlen
    omega
  refine computes_iff_rest _ hm hrest fun n hn => ?_
  obtain ⟨n, rfl⟩ : ∃ k, n = k + 1 := ⟨n - 1, by omega⟩
  refine ⟨_, rfl, ?_⟩
  rw [loop_last rfl, finish_eq hwrite, hreplaced]

/-- `regsuball` needs room, where the matches agree. -/
theorem computes_all (hexec : Sound exec) (hm : exec str 0 = some m) (h : Agrees exec str false 0) :
    Computes exec true sub u str ↔ (replaced exec true sub str).length + 1 < u := by
  have hreplaced : replaced exec true sub str = replaceRests exec sub str :=
    (h.replaceRests_eq hexec (Nat.zero_le _)).symm
  have hrest : ∀ str' : Text, str'.length < str.length → (str' = str ↔ False) :=
    fun str' hlt => iff_of_false (fun hsame => by rw [hsame] at hlt; exact lt_irrefl _ hlt) id
  refine (computes_iff_rest _ hm hrest fun n hn => ?_).trans (or_iff_left id)
  obtain ⟨str', hlt, hloop⟩ := loop_run hexec rfl hm h.not_stuck hn.le (holds_start u)
  rw [hreplaced]
  exact ⟨str', hlt, hloop⟩

/-- Where they do not, some template is not put in as it should be. -/
theorem not_computes_all (hexec : Sound exec) (hno : ¬ Agrees exec str false 0) :
    ∃ sub u, (∀ c ∈ sub, c ≠ 0) ∧ (replaced exec true sub str).length + 1 < u ∧ ¬ Computes exec true sub u str := by
  cases hm : exec str 0 with
  | none => exact absurd (.done hm ((next_start exec str).trans hm)) hno
  | some m =>
    by_cases hstuck : Stuck exec str
    · refine ⟨[], (replaced exec true [] str).length + 2, fun c hc => absurd hc List.not_mem_nil, Nat.lt_succ_self _, ?_⟩
      rintro ⟨n₀, hn₀⟩
      have hsome := hn₀ n₀ (le_refl n₀)
      rw [vrtRegsub_of_match hm, loop_stuck rfl hstuck hm] at hsome
      cases hsome
    · obtain ⟨sub, hsub, hne⟩ := exists_template hexec (Nat.zero_le _) hstuck hno
      refine ⟨sub, (replaced exec true sub str).length + (replaceRests exec sub str).length + 2, hsub, by omega, ?_⟩
      rintro ⟨n₀, hn₀⟩
      have hsome := hn₀ (n₀ + str.length) (Nat.le_add_right _ _)
      obtain ⟨str', -, hloop⟩ := loop_run (n := n₀ + str.length) hexec rfl hm hstuck (Nat.le_add_left _ _) (holds_start _)
      rw [vrtRegsub_of_match hm, hloop, List.nil_append, if_pos (by omega), if_pos (by omega)] at hsome
      exact hne (Option.some.inj hsome)

/-- **Substitution**: where the matches of what is left agree with those of the text, as `regsub` does not need, `VRT_regsub`
returns the text with its matches replaced, or the original one when there is no room, if and only if there is room for the result;
`regsub` without room has to find its match where the text begins.  Where they do not agree, `regsuball` fails, with room, for some
template. -/
theorem computes_iff (hexec : Sound exec) :
    ((all = true → Agrees exec str false 0) →
      (Computes exec all sub u str ↔ ∀ m, exec str 0 = some m →
        (replaced exec all sub str).length + 1 < u ∨ (all = false ∧ (m 0).2 = 0))) ∧
    (all = true → ¬ Agrees exec str false 0 →
      ∃ sub u, (∀ c ∈ sub, c ≠ 0) ∧ (replaced exec true sub str).length + 1 < u ∧ ¬ Computes exec true sub u str) := by
  refine ⟨fun hagrees => ?_, fun _ => not_computes_all hexec⟩
  cases hm : exec str 0 with
  | none => exact iff_of_true (computes_of_none hm) fun m hm' => by cases hm'
  | some m =>
    have hone : ∀ P : Ovector → Prop, (∀ m', some m = some m' → P m') ↔ P m :=
      fun P => ⟨fun h => h m rfl, fun h m' hm' => by cases hm'; exact h⟩
    rw [hone]
    cases all with
    | false =>
      rw [computes_first hexec hm]
      exact or_congr_right (and_iff_right rfl).symm
    | true =>
      rw [computes_all hexec hm (hagrees rfl)]
      exact (or_iff_left fun h => absurd h.1 (by decide)).symm

/-- The matcher of one byte. -/
def byteMatcher (c : UInt8) (str : Text) (p : ℕ) : Option Ovector :=
  ((str.drop p).findIdx? (· = c)).map fun i _ => (p + i, p + i + 1)

theorem byteMatcher_sound (c : UInt8) : Sound (byteMatcher c) := by
  intro str p m hp hm
  obtain ⟨i, hi, rfl⟩ := Option.map_eq_some_iff.mp hm
  obtain ⟨hlt, -⟩ := List.findIdx?_eq_some_iff_findIdx_eq.mp hi
  rw [List.length_drop] at hlt
  exact ⟨Nat.le_add_right p i, fun _ => ⟨Nat.le_succ _, show p + i + 1 ≤ str.length by omega⟩⟩

/-- The matcher of no bytes. -/
def emptyMatcher (_str : Text) (p : ℕ) : Option Ovector := some fun _ => (p, p)

/-- The matcher of `"^a"`. -/
def anchoredMatcher (str : Text) (p : ℕ) : Option Ovector := if p = 0 ∧ str.head? = some 97 then some fun _ => (0, 1) else none

/-- In `"bab"`, the `a` is replaced by `"<a>"`. -/
theorem computes_iff_byte : Computes (byteMatcher 97) true [60, 92, 48, 62] 100 [98, 97, 98] := by
  have hagrees : Agrees (byteMatcher 97) [98, 97, 98] false 0 := by
    refine @Agrees.step _ _ _ _ (fun _ => (1, 2)) (fun _ => (1, 2)) rfl rfl ⟨rfl, rfl⟩ (fun x _ => rfl) (by decide) ?_
    exact .done rfl rfl
  refine ((computes_iff (byteMatcher_sound 97)).1 fun _ => hagrees).mpr fun m _ => .inl ?_
  rw [replaced, if_pos rfl, ← hagrees.replaceRests_eq (byteMatcher_sound 97) (Nat.zero_le _)]
  rw [replaceRests_of_match (m := fun _ => (1, 2)) (byteMatcher_sound 97) rfl (by decide), replaceRests_of_none rfl]
  decide

/-- A match of no bytes, which is replaced over and over; a match at the beginning, which is found again; and a result of two bytes for
which there are two bytes of room. -/
theorem regsub_fails :
    ¬ Computes emptyMatcher true [120] 100 [97] ∧ ¬ Computes anchoredMatcher true [120] 100 [97, 97, 97] ∧
      ¬ Computes (byteMatcher 97) false [120] 3 [97, 98] := by
  refine ⟨?_, ?_, ?_⟩
  · rintro ⟨n₀, hn₀⟩
    have hsome := hn₀ n₀ (le_refl n₀)
    rw [vrtRegsub_of_match rfl, loop_stuck rfl (.here rfl rfl) rfl] at hsome
    cases hsome
  · rintro ⟨n₀, hn₀⟩
    have hsome := hn₀ (n₀ + 3) (Nat.le_add_right _ _)
    have hcode : vrtRegsub anchoredMatcher true [120] 100 (n₀ + 3) (some [97, 97, 97]) = some [120, 120, 120] := rfl
    have hspec : replaced anchoredMatcher true [120] [97, 97, 97] = [120, 97, 97] := by
      rw [replaced, if_pos rfl, replaceAll_match (m := fun _ => (0, 1)) false rfl]
      rw [dif_pos (by decide), if_neg (by decide), replaceAll_of_none rfl]
      rfl
    rw [hcode, hspec] at hsome
    exact absurd hsome (by decide)
  · rintro ⟨n₀, hn₀⟩
    have hm : byteMatcher 97 [97, 98] 0 = some fun _ => (0, 1) := rfl
    have hsome := hn₀ (n₀ + 1) (Nat.le_succ n₀)
    rw [vrtRegsub_of_match hm, loop_last rfl] at hsome
    exact absurd hsome (by decide)

end Result

end Varnish.Vrt
