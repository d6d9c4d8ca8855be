import Varnish.Esi.Result

/-!
# Varnish.Esi.Complete — what is left out of the output, and what is not

* `idealMet`: the items of a body, where every marker is found by its text.
* `Met.clear`: no NUL stands behind a marker, and no marker of an ESI comment ends the body.
* `next_cases`: `CMP` misses no marker but one that ends the body.
* `stream_complete`: the output is the body without the markers and the elements, if all items are clear.
-/

namespace Varnish.Esi

open Varnish.Lib

/-! ## Clear items -/

section Clear

/-- The items of a body, by the texts of the markers. -/
def idealMet (env : Env) (st : Store) : List Met := met Matcher.ideal (env.syn.testBit 1) (st.body env)

/-- A byte other than NUL is behind `n` bytes, or the end of the body. -/
def NoNul (body : List UInt8) (n : ℕ) : Prop := (body.drop n).head? ≠ some 0

/-- No NUL stands behind a marker that is looked for at the item, and the ones of an ESI comment, outside of `esi:remove`, are not at
the end of the body. -/
structure Met.Clear (body : List UInt8) (x : Met) : Prop where
  starts : ∀ lit ∈ starts, lit <+: body.drop x.n → NoNul body (x.n + lit.length)
  fin : (∃ fin bs, x.item = .block fin bs) ∨ x.item = .cls → NoNul body (x.n + x.item.bytes.length)
  inside : x.item = .opn ∨ x.item = .cls → x.rem = false → body.drop (x.n + x.item.bytes.length) ≠ []

theorem noNul_of_not_mem {body : List UInt8} (h : 0 ∉ body) (n : ℕ) : NoNul body n :=
  fun h0 => h (List.mem_of_mem_drop (List.mem_of_mem_head? h0))

end Clear

/-! ## `CMP` against the text -/

section Match

variable {env : Env} {lit fin r : List UInt8} {short inc rem : Bool}

theorem code_of_ideal (h : lit <+: r) (hne : r.drop lit.length ≠ []) (h0 : (r.drop lit.length).head? ≠ some 0) :
    Matcher.code env lit r = true := by
  refine cmpBytes_of_prefix h ?_
  cases hd : r.drop lit.length with
  | nil => exact absurd hd hne
  | cons d t =>
    rw [hd] at h0
    simpa using h0

theorem ideal_iff : Matcher.ideal lit r = true ↔ lit <+: r := List.isPrefixOf_iff_prefix

theorem prefix_of_code (h0 : 0 ∉ lit) (h : Matcher.code env lit r = true) : lit <+: r ∧ lit.length < r.length := starts_of_cmpBytes h0 h

/-- The two matchers agree on a marker that no NUL follows, and that does not end the body. -/
theorem code_eq_ideal (h0 : 0 ∉ lit) (hnul : lit <+: r → (r.drop lit.length).head? ≠ some 0) (hflush : r ≠ lit) :
    Matcher.code env lit r = Matcher.ideal lit r := by
  by_cases h : lit <+: r
  · rw [ideal_iff.2 h, code_of_ideal h ?_ (hnul h)]
    intro hd
    exact hflush (List.IsPrefix.eq_of_length_le h (List.drop_eq_nil_iff.1 hd)).symm
  · rw [Bool.eq_false_iff.2 (fun hc => h (prefix_of_code h0 hc).1), Bool.eq_false_iff.2 (fun hc => h (ideal_iff.1 hc))]

theorem endOf_short (h0 : 0 ∉ fin) (h : r.length ≤ fin.length) : endOf (Matcher.code env) fin r = [] := by
  induction r with
  | nil => rfl
  | cons c t ih =>
    rw [endOf, if_neg fun hc => absurd (prefix_of_code h0 hc).2 (by omega)]
    rw [List.length_cons] at h
    exact ih (by omega)

theorem endOf_eq (h0 : 0 ∉ fin) (h3 : fin.length = 3) (h : (endOf Matcher.ideal fin r).head? ≠ some 0) :
    endOf (Matcher.code env) fin r = endOf Matcher.ideal fin r := by
  induction r with
  | nil => rfl
  | cons c t ih =>
    rw [endOf] at h
    rw [endOf, endOf]
    by_cases hi : Matcher.ideal fin (c :: t) = true
    · rw [if_pos hi] at h ⊢
      have hpre := ideal_iff.1 hi
      by_cases hd : (c :: t).drop 3 = []
      · have hlen := List.drop_eq_nil_iff.1 hd
        rw [List.length_cons] at hlen
        rw [if_neg fun hc => absurd (prefix_of_code h0 hc).2 (by rw [List.length_cons]; omega), hd]
        exact endOf_short h0 (by omega)
      · rw [if_pos (code_of_ideal hpre (by rw [h3]; exact hd) (by rw [h3]; exact h))]
    · rw [if_neg hi] at h ⊢
      rw [if_neg fun hc => hi (ideal_iff.2 (prefix_of_code h0 hc).1)]
      exact ih h

end Match

/-! ## Text at the end of the body -/

section Tail

variable {env : Env} {url r : List UInt8} {short inc rem : Bool}

/-- What a text is worth. -/
def textOut (rem : Bool) (bs : List UInt8) : Out := if rem then [] else verb bs

theorem textOut_append (rem : Bool) (a b : List UInt8) : textOut rem (a ++ b) = textOut rem a ++ textOut rem b := by
  cases rem with
  | true => rfl
  | false => exact verb_append a b

/-- Without `<`, and without an end of the comment, all is text. -/
theorem render_plain (env : Env) (url : List UInt8) (short inc rem : Bool) {g : ℕ} (n : ℕ) (h60 : 60 ∉ r) (hcmp : ∀ s, s <:+ r → Matcher.code env (ascii "-->") s = false) (hg : r.length < g) :
    render url (scan (Matcher.code env) short g n rem inc r) = textOut rem r := by
  induction g generalizing n r with
  | zero => exact absurd hg (Nat.not_lt_zero _)
  | succ g ih =>
    cases r with
    | nil => cases rem <;> rfl
    | cons c t =>
      have hc : c ≠ 60 := fun h => h60 (h ▸ List.mem_cons_self)
      have hnext : next (Matcher.code env) short inc (c :: t) = (.text [c], t) := by
        unfold next
        rw [if_neg (by rw [hcmp _ (List.suffix_refl _)]; simp), if_pos (by simpa using hc)]
        rfl
      have hrest := ih (n + 1) (fun h => h60 (List.mem_cons_of_mem c h)) (fun s hs => hcmp s (hs.trans (List.suffix_cons c t)))
        (by rw [List.length_cons] at hg; omega)
      rw [scan, hnext]
      show textOut rem [c] ++ render url (scan (Matcher.code env) short g (n + 1) rem inc t) = _
      rw [hrest, ← textOut_append]
      rfl

theorem no_cmp_of_short (hlen : r.length ≤ 3) : ∀ s, s <:+ r → Matcher.code env (ascii "-->") s = false := by
  intro s hs
  have := hs.length_le
  refine Bool.eq_false_iff.2 fun hc => ?_
  have h : 3 < s.length := (prefix_of_code (by decide) hc).2
  omega

theorem no_cmp_of_no_gt (h62 : 62 ∉ r) : ∀ s, s <:+ r → Matcher.code env (ascii "-->") s = false := by
  intro s hs
  refine Bool.eq_false_iff.2 fun hc => h62 (hs.subset ?_)
  have h : ascii "-->" <+: s := (prefix_of_code (by decide) hc).1
  exact h.subset (by decide)

end Tail

/-! ## A marker that ends the body -/

section Flush

variable {env : Env} {url r : List UInt8} {short inc rem : Bool}

theorem no_code {lit : List UInt8} (h0 : 0 ∉ lit) (h : ¬ (lit <+: r ∧ lit.length < r.length)) : Matcher.code env lit r = false :=
  Bool.eq_false_iff.2 fun hc => h (prefix_of_code h0 hc)

/-- A `<` where no marker is found, and nothing behind it. -/
theorem render_flush {g : ℕ} (n : ℕ) {l : List UInt8} (h60 : 60 ∉ l) (h62 : 62 ∉ l)
    (hno : ∀ lit ∈ ascii "-->" :: starts, Matcher.code env lit (60 :: l) = false) (hg : (60 :: l).length < g) :
    render url (scan (Matcher.code env) short g n rem inc (60 :: l)) = textOut rem (60 :: l) := by
  obtain ⟨g, rfl⟩ : ∃ g', g = g' + 1 := ⟨g - 1, by omega⟩
  have hnext : next (Matcher.code env) short inc (60 :: l) =
      (.text (upTo (60 :: l) (endMarkup short (60 :: l))), endMarkup short (60 :: l)) := by
    unfold next
    rw [if_neg (by rw [hno _ List.mem_cons_self]; simp), if_neg (by simp), if_neg (by rw [hno _ (by simp [starts])]; simp),
      if_neg (by rw [hno _ (by simp [starts])]; simp), if_neg (by rw [hno _ (by simp [starts])]; simp),
      if_neg (by rw [hno _ (by simp [starts])]; simp), if_neg (by rw [hno _ (by simp [starts])]; simp)]
  rw [scan, hnext]
  rw [List.length_cons] at hg
  cases short with
  | true =>
    have hrest := render_plain env url true inc rem (n + 1) h60 (no_cmp_of_no_gt h62)
      (show l.length < g by omega)
    have hup : upTo (60 :: l) (endMarkup true (60 :: l)) = [60] := by
      unfold upTo endMarkup
      simp
    rw [hup]
    show textOut rem [60] ++ render url (scan (Matcher.code env) true g (n + 1) rem inc l) = _
    rw [hrest, ← textOut_append]
    rfl
  | false =>
    have hend : endMarkup false (60 :: l) = [] := dropWhile_eq_nil.2 fun h => h62 (List.mem_of_mem_tail h)
    rw [hend]
    have hup : upTo (60 :: l) [] = 60 :: l := by simp [upTo]
    rw [hup]
    show textOut rem (60 :: l) ++ render url (scan (Matcher.code env) false g _ rem inc []) = _
    cases g <;> exact List.append_nil _

/-- `<!--esi` at the end of the body is taken for a comment. -/
theorem render_esi {g : ℕ} (n : ℕ) (hg : 7 < g) :
    render url (scan (Matcher.code env) short g n rem inc (ascii "<!--esi")) = textOut rem (ascii "<!--esi") := by
  obtain ⟨g, rfl⟩ : ∃ g', g = g' + 1 := ⟨g - 1, by omega⟩
  have hcmt : Matcher.code env (ascii "<!--") (ascii "<!--esi") = true := code_of_ideal (by decide) (by decide) (by decide)
  have hend : endOf (Matcher.code env) (ascii "-->") (ascii "<!--esi").tail = [] := by
    rw [endOf_eq (by decide) rfl (by decide)]
    rfl
  have hnext : next (Matcher.code env) short inc (ascii "<!--esi") = (.block (ascii "-->") (ascii "<!--esi"), []) := by
    unfold next
    rw [if_neg (by rw [no_code (by decide) (by decide)]; simp), if_neg (by decide),
      if_neg (by rw [no_code (by decide) (by decide)]; simp), if_pos hcmt]
    unfold nextBlock
    rw [hend]
    rfl
  rw [show ascii "<!--esi" = 60 :: ascii "!--esi" from rfl] at hnext ⊢
  rw [scan, hnext]
  show textOut rem (ascii "<!--esi") ++ render url (scan (Matcher.code env) short g _ rem inc []) = _
  cases g <;> exact List.append_nil _

/-- A marker that ends the body puts out its text. -/
theorem render_start {g : ℕ} (n : ℕ) (hr : r ∈ starts) (hg : r.length < g) :
    render url (scan (Matcher.code env) short g n rem inc r) = textOut rem r := by
  have hplain (l : List UInt8) (h60 : 60 ∉ l) (h62 : 62 ∉ l)
      (hno : ∀ lit ∈ ascii "-->" :: starts, 0 ∉ lit ∧ ¬ (lit <+: 60 :: l ∧ lit.length < (60 :: l).length)) (hg : (60 :: l).length < g) :
      render url (scan (Matcher.code env) short g n rem inc (60 :: l)) = textOut rem (60 :: l) :=
    render_flush n h60 h62 (fun lit hlit => no_code (hno lit hlit).1 (hno lit hlit).2) hg
  simp only [starts, List.mem_cons, List.not_mem_nil, or_false] at hr
  rcases hr with rfl | rfl | rfl | rfl | rfl
  · exact render_esi n hg
  · exact hplain (ascii "!--") (by decide) (by decide) (by decide) hg
  · exact hplain (ascii "/esi") (by decide) (by decide) (by decide) hg
  · exact hplain (ascii "esi:") (by decide) (by decide) (by decide) hg
  · exact hplain (ascii "![CDATA[") (by decide) (by decide) (by decide) hg

end Flush

/-! ## One turn -/

section Turn

variable {env : Env} {url r : List UInt8} {short inc rem : Bool} {c : UInt8} {t : List UInt8}

/-- `CMP` misses nothing but a marker that ends the body. -/
def Missed (env : Env) (url : List UInt8) (short rem inc : Bool) (r : List UInt8) : Prop :=
  (next Matcher.ideal short inc r).2 = [] ∧
  (∀ g n, r.length < g → render url (scan (Matcher.code env) short g n rem inc r) = textOut rem r) ∧
  ((next Matcher.ideal short inc r).1 = .opn ∨ (next Matcher.ideal short inc r).1 = .cls ∨
    ∀ n, Met.out url ⟨(next Matcher.ideal short inc r).1, n, rem, inc⟩ = textOut rem r)

theorem missed_start (hr : r ∈ starts) : Missed env url short rem inc r := by
  have hrender (g n : ℕ) (hg : r.length < g) : render url (scan (Matcher.code env) short g n rem inc r) = textOut rem r :=
    render_start n hr hg
  simp only [starts, List.mem_cons, List.not_mem_nil, or_false] at hr
  rcases hr with rfl | rfl | rfl | rfl | rfl
  · exact ⟨by cases short <;> cases inc <;> rfl, hrender, .inl (by cases short <;> cases inc <;> rfl)⟩
  all_goals exact ⟨by cases short <;> cases inc <;> rfl, hrender, .inr (.inr fun n => by cases short <;> cases inc <;> rfl)⟩

theorem missed_cls (hinc : inc = true) : Missed env url short rem inc (ascii "-->") := by
  subst hinc
  refine ⟨by cases short <;> rfl, fun g n hg => render_plain _ _ _ _ _ n (by decide) (no_cmp_of_short (by decide)) hg,
    .inr (.inl (by cases short <;> rfl))⟩

theorem next_cases (hst : ∀ lit ∈ starts, lit <+: c :: t → ((c :: t).drop lit.length).head? ≠ some 0)
    (hfin : (∃ fin bs, (next Matcher.ideal short inc (c :: t)).1 = .block fin bs) ∨ (next Matcher.ideal short inc (c :: t)).1 = .cls →
      (next Matcher.ideal short inc (c :: t)).2.head? ≠ some 0) :
    next (Matcher.code env) short inc (c :: t) = next Matcher.ideal short inc (c :: t) ∨ Missed env url short rem inc (c :: t) := by
  by_cases hflush : c :: t ∈ starts
  · exact .inr (missed_start hflush)
  have heq (lit : List UInt8) (hmem : lit ∈ starts) (h0 : 0 ∉ lit) :
      Matcher.code env lit (c :: t) = Matcher.ideal lit (c :: t) :=
    code_eq_ideal h0 (hst lit hmem) fun h => hflush (h ▸ hmem)
  have hblock (fin : List UInt8) (h0 : 0 ∉ fin) (h3 : fin.length = 3) (h : (endOf Matcher.ideal fin t).head? ≠ some 0) :
      nextBlock (Matcher.code env) fin (c :: t) = nextBlock Matcher.ideal fin (c :: t) := by
    unfold nextBlock
    rw [List.tail_cons, endOf_eq h0 h3 h]
  unfold next at hfin
  by_cases h1 : inc = true ∧ Matcher.ideal (ascii "-->") (c :: t) = true
  · rw [if_pos (by simp [h1])] at hfin
    have hpre := ideal_iff.1 h1.2
    by_cases hd : (c :: t).drop 3 = []
    · have hcls : ascii "-->" = c :: t := hpre.eq_of_length_le (List.drop_eq_nil_iff.1 hd)
      rw [← hcls]
      exact .inr (missed_cls h1.1)
    · left
      have hcode : Matcher.code env (ascii "-->") (c :: t) = true := code_of_ideal hpre hd (hfin (.inr rfl))
      unfold next
      rw [if_pos (by rw [h1.1, hcode]; rfl), if_pos (by rw [h1.1, h1.2]; rfl)]
  have h1' : ¬ (inc && Matcher.code env (ascii "-->") (c :: t)) = true := by
    intro h
    have h' : inc = true ∧ Matcher.code env (ascii "-->") (c :: t) = true := by simpa using h
    exact h1 ⟨h'.1, ideal_iff.2 (prefix_of_code (by decide) h'.2).1⟩
  have h1 : ¬ (inc && Matcher.ideal (ascii "-->") (c :: t)) = true := by simpa using h1
  left
  rw [if_neg h1] at hfin
  unfold next
  rw [if_neg h1', if_neg h1, heq _ (by simp [starts]) (by decide), heq _ (by simp [starts]) (by decide),
    heq _ (by simp [starts]) (by decide), heq _ (by simp [starts]) (by decide), heq _ (by simp [starts]) (by decide)]
  by_cases h2 : (c :: t).head? ≠ some 60
  · rw [if_pos h2, if_pos h2]
  rw [if_neg h2] at hfin ⊢
  rw [if_neg h2]
  by_cases h3 : Matcher.ideal (ascii "<!--esi") (c :: t) = true
  · rw [if_pos h3, if_pos h3]
  rw [if_neg h3] at hfin ⊢
  rw [if_neg h3]
  by_cases h4 : Matcher.ideal (ascii "<!--") (c :: t) = true
  · rw [if_pos h4] at hfin ⊢
    rw [if_pos h4]
    exact hblock _ (by decide) rfl (hfin (.inl ⟨_, _, rfl⟩))
  rw [if_neg h4] at hfin ⊢
  rw [if_neg h4]
  by_cases h5 : Matcher.ideal (ascii "</esi") (c :: t) = true
  · rw [if_pos h5, if_pos h5]
  rw [if_neg h5] at hfin ⊢
  rw [if_neg h5]
  by_cases h6 : Matcher.ideal (ascii "<esi:") (c :: t) = true
  · rw [if_pos h6, if_pos h6]
  rw [if_neg h6] at hfin ⊢
  rw [if_neg h6]
  by_cases h7 : Matcher.ideal (ascii "<![CDATA[") (c :: t) = true
  · rw [if_pos h7] at hfin ⊢
    rw [if_pos h7]
    exact hblock _ (by decide) rfl (hfin (.inl ⟨_, _, rfl⟩))
  rw [if_neg h7, if_neg h7]

end Turn

/-! ## The whole body -/

section Body

variable {env : Env} {url body r : List UInt8} {short inc rem : Bool} {g n : ℕ}

theorem drop_split {x : Item × List UInt8} (hdrop : body.drop n = r) (hs : Splits r x) :
    body.drop (n + x.1.bytes.length) = x.2 := by
  rw [← List.drop_drop, hdrop, ← hs.eq, List.drop_left]

theorem render_cons (x : Met) (xs : List Met) : render url (x :: xs) = x.out url ++ render url xs := List.flatMap_cons

theorem Met.Clear.turn (env : Env) (url : List UInt8) {c : UInt8} {t : List UInt8} (hdrop : body.drop n = c :: t)
    (h : Met.Clear body ⟨(next Matcher.ideal short inc (c :: t)).1, n, rem, inc⟩) :
    next (Matcher.code env) short inc (c :: t) = next Matcher.ideal short inc (c :: t) ∨ Missed env url short rem inc (c :: t) := by
  have hs := next_split Matcher.sound_ideal short inc c t
  refine next_cases (fun lit hmem hpre => ?_) fun hx => ?_
  · have h1 := h.starts lit hmem (by rw [hdrop]; exact hpre)
    unfold NoNul at h1
    rwa [← List.drop_drop, hdrop] at h1
  · have h1 := h.fin hx
    unfold NoNul at h1
    rwa [drop_split hdrop hs] at h1

/-- The parser puts out what the items by the texts are worth. -/
theorem render_eq (hdrop : body.drop n = r) (hg : r.length < g)
    (hclear : ∀ x ∈ scan Matcher.ideal short g n rem inc r, x.Clear body) :
    render url (scan (Matcher.code env) short g n rem inc r) = render url (scan Matcher.ideal short g n rem inc r) := by
  induction g generalizing n rem inc r with
  | zero => exact absurd hg (Nat.not_lt_zero _)
  | succ g ih =>
    cases r with
    | nil => rfl
    | cons c t =>
      have hs := next_split Matcher.sound_ideal short inc c t
      have hlt := hs.lt
      have hnext := drop_split hdrop hs
      have hc := hclear _ List.mem_cons_self
      rcases Met.Clear.turn env url hdrop hc with heq | ⟨hnil, hout, hitem⟩
      · rw [scan, scan, heq, render_cons, render_cons,
          ih hnext (by omega) fun x hx => hclear x (List.mem_cons_of_mem _ hx)]
      · rw [hout _ _ hg, scan, hnil, render_cons]
        have htail (k : ℕ) (rem' inc' : Bool) : render url (scan Matcher.ideal short g k rem' inc' []) = [] := by cases g <;> rfl
        rw [htail, List.append_nil]
        by_cases hmark : (next Matcher.ideal short inc (c :: t)).1 = .opn ∨ (next Matcher.ideal short inc (c :: t)).1 = .cls
        · have hrem : rem = true := by
            by_contra hrem
            exact hc.inside hmark (Bool.eq_false_iff.2 hrem) (hnext.trans hnil)
          rw [hrem]
          rcases hmark with h | h
          · rw [h]
            rfl
          · rw [h]
            rfl
        · rcases hitem with h | h | h
          · exact absurd (.inl h) hmark
          · exact absurd (.inr h) hmark
          · exact (h n).symm

theorem nextTag_item (closing : Bool) (r : List UInt8) : (nextTag closing r).1 ≠ .opn ∧ (nextTag closing r).1 ≠ .cls := by
  unfold nextTag
  cases r.tail.dropWhile (· ≠ 62) <;> exact ⟨nofun, nofun⟩

/-- Behind a marker that `CMP` has found there is a byte. -/
theorem next_code_inside (h : (next (Matcher.code env) short inc r).1 = .opn ∨ (next (Matcher.code env) short inc r).1 = .cls) :
    (next (Matcher.code env) short inc r).2 ≠ [] := by
  have hdrop (lit : List UInt8) (h0 : 0 ∉ lit) (hc : Matcher.code env lit r = true) : r.drop lit.length ≠ [] := by
    rw [Ne, List.drop_eq_nil_iff]
    have := (prefix_of_code h0 hc).2
    omega
  unfold next at h ⊢
  split_ifs at h ⊢ with h1 h2 h3 h4 h5 h6 h7
  · have h1' : inc = true ∧ Matcher.code env (ascii "-->") r = true := by simpa using h1
    exact hdrop (ascii "-->") (by decide) h1'.2
  · exact h.elim nofun nofun
  · exact hdrop (ascii "<!--esi") (by decide) h3
  · exact h.elim nofun nofun
  · exact h.elim (fun h => absurd h (nextTag_item true r).1) fun h => absurd h (nextTag_item true r).2
  · exact h.elim (fun h => absurd h (nextTag_item false r).1) fun h => absurd h (nextTag_item false r).2
  · exact h.elim nofun nofun
  · exact h.elim nofun nofun

/-- Without NULs, the output tells whether a marker of an ESI comment was missed. -/
theorem clear_of_render_eq (h0 : 0 ∉ body) (hdrop : body.drop n = r) (hg : r.length < g)
    (heq : render url (scan (Matcher.code env) short g n rem inc r) = render url (scan Matcher.ideal short g n rem inc r)) :
    ∀ x ∈ scan Matcher.ideal short g n rem inc r, x.Clear body := by
  have hnul (k : ℕ) : NoNul body k := noNul_of_not_mem h0 k
  induction g generalizing n rem inc r with
  | zero => exact absurd hg (Nat.not_lt_zero _)
  | succ g ih =>
    cases r with
    | nil => exact nofun
    | cons c t =>
      have hs := next_split Matcher.sound_ideal short inc c t
      have hlt := hs.lt
      have hnext := drop_split hdrop hs
      have hturn : next (Matcher.code env) short inc (c :: t) = next Matcher.ideal short inc (c :: t) ∨
          Missed env url short rem inc (c :: t) :=
        next_cases (fun lit _ _ h => h0 (List.drop_subset n body (by
          rw [hdrop]
          exact List.drop_subset _ _ (List.mem_of_mem_head? h)))) fun _ h => h0 (List.drop_subset _ body (by
          rw [hnext]
          exact List.mem_of_mem_head? h))
      intro x hx
      rcases hturn with hsame | ⟨hnil, hout, hitem⟩
      · rw [scan, scan, hsame, render_cons, render_cons] at heq
        rcases List.mem_cons.1 hx with rfl | hx
        · refine ⟨fun _ _ _ => hnul _, fun _ => hnul _, fun hmark _ hend => ?_⟩
          have hinside := next_code_inside (by rw [hsame]; exact hmark)
          rw [hsame] at hinside
          exact hinside (hnext.symm.trans hend)
        · exact ih hnext (by omega) (List.append_cancel_left heq) x hx
      · rw [hout _ _ hg, scan, hnil, render_cons] at heq
        have htail (k : ℕ) (rem' inc' : Bool) : scan Matcher.ideal short g k rem' inc' [] = [] := by cases g <;> rfl
        rw [scan, hnil] at hx
        simp only [htail, List.mem_cons, List.not_mem_nil, or_false] at hx heq
        subst hx
        refine ⟨fun _ _ _ => hnul _, fun _ => hnul _, fun hmark hrem _ => ?_⟩
        have hrem : rem = false := hrem
        subst hrem
        have hnone : Met.out url ⟨(next Matcher.ideal short inc (c :: t)).1, n, false, inc⟩ = [] := by
          rcases hmark with h | h
          · have h : (next Matcher.ideal short inc (c :: t)).1 = .opn := h
            rw [h]
            rfl
          · have h : (next Matcher.ideal short inc (c :: t)).1 = .cls := h
            rw [h]
            rfl
        rw [hnone] at heq
        exact List.cons_ne_nil _ _ heq

theorem scan_opn {x : Met} (hg : r.length < g) (hx : x ∈ scan (Matcher.code env) short g n rem inc r) (hopn : x.item = .opn) :
    x.n + 7 < n + r.length := by
  induction g generalizing n rem inc r with
  | zero => exact absurd hg (Nat.not_lt_zero _)
  | succ g ih =>
    cases r with
    | nil => cases hx
    | cons c t =>
      have hs := next_split (Matcher.sound_code env) short inc c t
      have hlt := hs.lt
      have hlen := congrArg List.length hs.eq
      rw [List.length_append] at hlen
      rcases List.mem_cons.1 hx with rfl | hx
      · have hopn : (next (Matcher.code env) short inc (c :: t)).1 = .opn := hopn
        have hne := List.length_pos_iff.2 (next_code_inside (.inl hopn))
        rw [hopn, show Item.opn.bytes.length = 7 from rfl] at hlen
        show n + 7 < n + (c :: t).length
        omega
      · have := ih (by omega) hx
        omega

end Body

/-! ## One segment -/

section One

variable {env : Env} {st : Store} {sg : Seg}

theorem no_cut (hone : st.segs = [sg]) : ∀ x ∈ codeMet env st, ¬ Cut st x := by
  rintro x hx ⟨hopn, -, htorn⟩
  have hlen : (st.body env).length = sg.len := by
    unfold Store.body
    rw [hone]
    simp
  have hlt := scan_opn (Nat.lt_succ_self _) hx hopn
  rw [Nat.zero_add, hlen] at hlt
  have hpos (k : ℕ) (hk : k < sg.len) : (st.pos k).st = [sg] := by
    unfold Store.pos
    rw [hone, Cursor.adv_lt]
    · rfl
    · show k < sg.ptr + sg.len - sg.ptr
      omega
  exact htorn ((hpos _ hlt).trans (hpos _ (by omega)).symm)

/-- **The output is complete**: of a body in one segment, what the bits put out is the body without the markers and the elements, if all
items are clear.  Without NULs, it is only then. -/
theorem stream_complete (hone : st.segs = [sg]) {bits : List Bit} (h : esiParse env st.segs = some (some bits)) :
    ((∀ x ∈ idealMet env st, x.Clear (st.body env)) → stream env.mem bits = render env.url (idealMet env st)) ∧
    (0 ∉ st.body env → stream env.mem bits = render env.url (idealMet env st) → ∀ x ∈ idealMet env st, x.Clear (st.body env)) := by
  have hcode : stream env.mem bits = render env.url (codeMet env st) :=
    (esiParse_some h).same fun ⟨x, hx, hc⟩ => no_cut hone x hx hc
  rw [hcode]
  exact ⟨fun hclear => render_eq rfl (Nat.lt_succ_self _) hclear, fun h0 heq => clear_of_render_eq h0 rfl (Nat.lt_succ_self _) heq⟩

theorem stream_complete_cut :
    (∀ x ∈ idealMet (textEnv cutBody) wholeStore, x.Clear (wholeStore.body (textEnv cutBody))) ∧
    stream (textEnv cutBody).mem [⟨1, 0, none, some (ascii "/a" ++ [0])⟩, ⟨24, 1, none, none⟩] =
      render (textEnv cutBody).url (idealMet (textEnv cutBody) wholeStore) := by
  have hnul : ∀ n, NoNul (wholeStore.body (textEnv cutBody)) n := noNul_of_not_mem (by decide +kernel)
  have hitems : ∀ x ∈ idealMet (textEnv cutBody) wholeStore, x.item ≠ .opn ∧ x.item ≠ .cls := by decide +kernel
  have hclear : ∀ x ∈ idealMet (textEnv cutBody) wholeStore, x.Clear (wholeStore.body (textEnv cutBody)) := fun x hx =>
    ⟨fun _ _ _ => hnul _, fun _ => hnul _, fun h => absurd h (not_or.mpr (hitems x hx))⟩
  exact ⟨hclear, (stream_complete rfl (by decide +kernel)).1 hclear⟩

/-- The end of an ESI comment stays in where the body ends with it. -/
theorem end_left_in :
    ((esiParse (textEnv (ascii "<!--esi x-->")) (textStore 11 (by decide)).segs).bind fun bits =>
      bits.map (stream (textEnv (ascii "<!--esi x-->")).mem)) = some (verb (ascii " x-->")) ∧
    render (ascii "/") (idealMet (textEnv (ascii "<!--esi x-->")) (textStore 11 (by decide))) = verb (ascii " x") := by
  decide +kernel

end One

end Varnish.Esi
