import Mathlib.Data.List.TakeWhile
import Varnish.Http.Vary

/-!
# Varnish.Http.VaryForm — which `Vary` headers `VRY_Create` accepts

* `varyNames`: the names in a `Vary` header, as the text has them between its commas.
* `Format`: the documented format of the string.
* `format_entry`: an entry is read in one way only.
* `vryCreate_iff`: the string is made, and has this format, if and only if each name is free of blanks and has at most 126
  characters, and the value of its header has less than 65535.
-/

namespace Varnish.Http

open Varnish.Ban

/-! ## The names -/

section VaryNames

/-- A text, cut at its commas. -/
def pieces : Str → List Str
  | [] => [[]]
  | c :: t =>
    if c = ',' then [] :: pieces t
    else
      match pieces t with
      | [] => [[c]]
      | p :: ps => (c :: p) :: ps

/-- Without a last one that is empty. -/
def varyNames (v : Str) : List Str :=
  let ps := (pieces v).map strip
  if ps.getLast? = some [] then ps.dropLast else ps

theorem pieces_ne (v : Str) : pieces v ≠ [] := by
  cases v with
  | nil => exact List.cons_ne_nil _ _
  | cons c t =>
    rw [pieces]
    by_cases hc : c = ','
    · rw [if_pos hc]
      exact List.cons_ne_nil _ _
    · rw [if_neg hc]
      cases pieces t <;> exact List.cons_ne_nil _ _

theorem pieces_end {p : Str} (hp : ',' ∉ p) : pieces p = [p] := by
  induction p with
  | nil => rfl
  | cons c p ih =>
    have hc : c ≠ ',' := fun h => hp (h ▸ List.mem_cons_self)
    rw [pieces, if_neg hc, ih fun h => hp (List.mem_cons_of_mem c h)]

theorem pieces_comma {p : Str} (hp : ',' ∉ p) (t : Str) : pieces (p ++ ',' :: t) = p :: pieces t := by
  induction p with
  | nil => rw [List.nil_append, pieces, if_pos rfl]
  | cons c p ih =>
    have hc : c ≠ ',' := fun h => hp (h ▸ List.mem_cons_self)
    rw [List.cons_append, pieces, if_neg hc, ih fun h => hp (List.mem_cons_of_mem c h)]

theorem varyNames_end {p : Str} (hp : ',' ∉ p) : varyNames p = if strip p = [] then [] else [strip p] := by
  unfold varyNames
  rw [pieces_end hp]
  by_cases h : strip p = []
  · simp [h]
  · simp [h]

theorem varyNames_comma {p : Str} (hp : ',' ∉ p) (t : Str) : varyNames (p ++ ',' :: t) = strip p :: varyNames t := by
  unfold varyNames
  rw [pieces_comma hp]
  obtain ⟨q, qs, hq⟩ := List.exists_cons_of_ne_nil (pieces_ne t)
  rw [hq, List.map_cons, List.map_cons]
  by_cases h : (strip q :: qs.map strip).getLast? = some []
  · simp only [List.getLast?_cons_cons, if_pos h, List.dropLast_cons_cons]
  · simp only [List.getLast?_cons_cons, if_neg h]

end VaryNames

/-! ## Blanks -/

section Blanks

variable {p : Str}

/-- Behind the stripped text there are only blanks. -/
theorem strip_split (p : Str) : ∃ w, (∀ c ∈ w, Lib.isspace c = true) ∧ p.dropWhile Lib.isspace = strip p ++ w := by
  refine ⟨((p.dropWhile Lib.isspace).reverse.takeWhile Lib.isspace).reverse, fun c hc => ?_, ?_⟩
  · exact List.mem_takeWhile_imp (List.mem_reverse.1 hc)
  · unfold strip
    rw [← List.reverse_append, List.takeWhile_append_dropWhile, List.reverse_reverse]

theorem strip_dropWhile (p : Str) : strip (p.dropWhile Lib.isspace) = strip p := by
  unfold strip
  have hidem : (p.dropWhile Lib.isspace).dropWhile Lib.isspace = p.dropWhile Lib.isspace := by
    have hhead := List.head?_dropWhile_not Lib.isspace p
    cases hd : p.dropWhile Lib.isspace with
    | nil => rfl
    | cons c t =>
      rw [hd] at hhead
      exact List.dropWhile_cons_of_neg (by simpa using hhead)
  rw [hidem]

theorem strip_ne {c : Char} {t : Str} (hc : Lib.isspace c = false) : strip (c :: t) ≠ [] := by
  obtain ⟨w, hw, hsplit⟩ := strip_split (c :: t)
  rw [List.dropWhile_cons_of_neg (by rw [hc]; exact Bool.false_ne_true)] at hsplit
  intro hnil
  rw [hnil, List.nil_append] at hsplit
  have := hw c (hsplit ▸ List.mem_cons_self)
  rw [hc] at this
  exact Bool.false_ne_true this

/-- A text that starts with a word: it is the stripped text, or there is a blank in that. -/
theorem strip_word {name q : Str} (hn : ∀ c ∈ name, Lib.isspace c = false) (hne : name ≠ [])
    (hq : ∀ c t, q = c :: t → Lib.isspace c = true) :
    (q.dropWhile Lib.isspace = [] → strip (name ++ q) = name) ∧
    (q.dropWhile Lib.isspace ≠ [] → ∃ c ∈ strip (name ++ q), Lib.isspace c = true) := by
  obtain ⟨w, hw, hsplit⟩ := strip_split (name ++ q)
  obtain ⟨d, l, rfl⟩ := List.exists_cons_of_ne_nil hne
  have hd := hn d List.mem_cons_self
  rw [List.cons_append, List.dropWhile_cons_of_neg (by rw [hd]; exact Bool.false_ne_true), ← List.cons_append] at hsplit
  constructor
  · intro hblank
    have hqb : ∀ c ∈ q, Lib.isspace c = true := by
      intro c hc
      rw [List.dropWhile_eq_nil_iff] at hblank
      exact hblank c hc
    unfold strip
    rw [List.cons_append, List.dropWhile_cons_of_neg (by rw [hd]; exact Bool.false_ne_true), ← List.cons_append, List.reverse_append,
      List.dropWhile_append_of_pos fun c hc => hqb c (List.mem_reverse.1 hc)]
    have hlast : (d :: l).reverse.dropWhile Lib.isspace = (d :: l).reverse := by
      cases hr : (d :: l).reverse with
      | nil => rfl
      | cons e r =>
        have he := hn e (List.mem_reverse.1 (hr ▸ List.mem_cons_self))
        rw [List.dropWhile_cons_of_neg (by rw [he]; exact Bool.false_ne_true)]
    rw [hlast, List.reverse_reverse]
  · intro hrest
    by_contra hnone
    have hall : ∀ c ∈ strip (d :: l ++ q), Lib.isspace c = false := by
      intro c hc
      by_contra hs
      exact hnone ⟨c, hc, Bool.not_eq_false _ ▸ hs⟩
    -- the stripped text is within the word, so that all that follows the word is blank
    obtain ⟨b, t, rfl⟩ := List.exists_cons_of_ne_nil fun h : q = [] => hrest (by rw [h]; rfl)
    have hb := hq b t rfl
    rcases List.append_eq_append_iff.1 hsplit with ⟨r, h1, h2⟩ | ⟨r, h1, h2⟩
    · cases r with
      | nil =>
        rw [List.nil_append] at h2
        exact hrest (List.dropWhile_eq_nil_iff.2 fun c hc => hw c (h2 ▸ hc))
      | cons e r =>
        obtain ⟨rfl, -⟩ := List.cons.inj h2
        have := hall b (by rw [h1]; simp)
        rw [hb] at this
        exact Bool.false_ne_true this.symm
    · refine hrest (List.dropWhile_eq_nil_iff.2 fun c hc => hw c ?_)
      rw [h2]
      exact List.mem_append_right _ hc

end Blanks

/-! ## The format -/

section Format

variable {req : Http} {name s : Str} {h : Option Str}

/-- An entry: the name with its length, and the value with its length, or the mark for "not present". -/
def entryText (name : Str) (value : Option Str) : Str :=
  hdrName name ++
    match value with
    | none => [Char.ofNat 0xff, Char.ofNat 0xff]
    | some w => Char.ofNat (w.length / 256) :: Char.ofNat (w.length % 256) :: w

/-- The lengths are what the bytes say, and the mark is there for a header that is not. -/
structure EntryOk (req : Http) (e : Str × Option Str) : Prop where
  name : e.1.length < 255
  value : ∀ w, e.2 = some w → w.length < 0xffff
  absent : e.2 = none → httpGetHdr req e.1 = none

/-- The documented format: a sequence of entries, and a NUL. -/
def Format (req : Http) (s : Str) : Prop :=
  ∃ es : List (Str × Option Str), (∀ e ∈ es, EntryOk req e) ∧ s = es.flatMap (fun e => entryText e.1 e.2) ++ ['\x00']

theorem format_nil : Format req ['\x00'] := ⟨[], nofun, rfl⟩

theorem entryText_cons (name : Str) (value : Option Str) (s : Str) : ∃ a b : Char, ∃ w : Str,
    entryText name value ++ s = Char.ofNat ((1 + name.length) % 256) :: (name ++ ':' :: '\x00' :: a :: b :: (w ++ s)) ∧
    (value = none → a.toNat * 256 + b.toNat = 0xffff ∧ w = []) ∧
    (∀ v, value = some v → v.length < 65536 → a.toNat * 256 + b.toNat = v.length ∧ w = v) := by
  cases value with
  | none =>
    refine ⟨Char.ofNat 0xff, Char.ofNat 0xff, [], by simp [entryText, hdrName], fun _ => ⟨by decide, rfl⟩, (fun _ hv => by cases hv)⟩
  | some v =>
    refine ⟨Char.ofNat (v.length / 256), Char.ofNat (v.length % 256), v, by simp [entryText, hdrName], (fun hv => by cases hv), ?_⟩
    rintro _ ⟨⟩ hlt
    rw [toNat_ofNat (by omega), toNat_ofNat (by omega)]
    exact ⟨by omega, rfl⟩

theorem head_ne_nul (hlen : name.length < 255) : Char.ofNat ((1 + name.length) % 256) ≠ '\x00' := by
  intro he
  have := congrArg Char.toNat he
  rw [toNat_ofNat (by omega), Nat.mod_eq_of_lt (by omega)] at this
  exact absurd this (by simp)

/-- **An entry** is read in one way only. -/
theorem format_entry (hlen : name.length < 255) (hget : (httpGetHdr req name).map strip = h) (hh : ∀ w, h = some w → w.length < 65536) :
    Format req (entryText name h ++ s) ↔ (∀ w, h = some w → w.length < 0xffff) ∧ Format req s := by
  constructor
  · rintro ⟨es, hok, heq⟩
    obtain ⟨a, b, w, hsplit, hnone, hsome⟩ := entryText_cons name h s
    rw [hsplit] at heq
    cases es with
    | nil =>
      simp only [List.flatMap_nil, List.nil_append, List.cons.injEq] at heq
      exact absurd heq.1 (head_ne_nul hlen)
    | cons e es =>
      have he := hok e List.mem_cons_self
      obtain ⟨a', b', w', hsplit', hnone', hsome'⟩ := entryText_cons e.1 e.2 (es.flatMap (fun e => entryText e.1 e.2) ++ ['\x00'])
      rw [List.flatMap_cons, List.append_assoc, hsplit'] at heq
      obtain ⟨hlen', hrest⟩ := List.cons.inj heq
      have helen := he.name
      have hnames : name.length = e.1.length := by
        have := congrArg Char.toNat hlen'
        rw [toNat_ofNat (by omega), toNat_ofNat (by omega), Nat.mod_eq_of_lt (by omega), Nat.mod_eq_of_lt (by omega)] at this
        omega
      obtain ⟨hname, htail⟩ := List.append_inj hrest hnames
      obtain ⟨-, htail⟩ := List.cons.inj htail
      obtain ⟨-, htail⟩ := List.cons.inj htail
      obtain ⟨ha, htail⟩ := List.cons.inj htail
      obtain ⟨hb, htail⟩ := List.cons.inj htail
      rw [← ha, ← hb] at hnone' hsome'
      have hfmt : Format req (es.flatMap (fun e => entryText e.1 e.2) ++ ['\x00']) :=
        ⟨es, fun e' he' => hok e' (List.mem_cons_of_mem e he'), rfl⟩
      cases hv : e.2 with
      | none =>
        have hreq := he.absent hv
        rw [← hname] at hreq
        rw [hreq] at hget
        subst hget
        rw [(hnone rfl).2, (hnone' hv).2, List.nil_append, List.nil_append] at htail
        exact ⟨nofun, htail ▸ hfmt⟩
      | some v =>
        have hvlt := he.value v hv
        have hv' := hsome' v hv (by omega)
        cases h with
        | none => exact absurd (hv'.1.symm.trans (hnone rfl).1) (by omega)
        | some u =>
          have hu := hsome u rfl (hh u rfl)
          have hlens : u.length = v.length := hu.1.symm.trans hv'.1
          rw [hu.2, hv'.2] at htail
          refine ⟨fun x hx => by cases hx; omega, (List.append_inj htail hlens).2 ▸ hfmt⟩
  · rintro ⟨hlt, es, hok, rfl⟩
    refine ⟨(name, h) :: es, ?_, by simp⟩
    rintro e he
    rcases List.mem_cons.1 he with rfl | he
    · refine ⟨hlen, hlt, fun hnone => ?_⟩
      have hnone : h = none := hnone
      rw [hnone] at hget
      simpa using hget
    · exact hok e he

end Format

/-! ## The loop -/

section VaryLoop

variable {req : Http} {name q t : Str}

/-- A name that `VRY_Create` can make an entry of. -/
structure NameOk (req : Http) (name : Str) : Prop where
  chars : ∀ c ∈ name, Lib.isspace c = false
  len : name.length ≤ 126
  value : ∀ h, httpGetHdr req name = some h → (strip h).length < 0xffff

/-- `http_GetHdr` reads the length as a `char`. -/
theorem httpGetHdrAt_name (hnul : '\x00' ∉ name) :
    httpGetHdrAt req (hdrName name) = if name.length ≤ 126 then some (httpGetHdr req name) else none := by
  have hcons : hdrName name = Char.ofNat ((1 + name.length) % 256) :: (name ++ [':', '\x00']) := rfl
  have htake : (name ++ [':', '\x00']).takeWhile (· ≠ '\x00') = name ++ [':'] := by
    rw [List.takeWhile_append_of_pos fun c hc => by simpa using fun h : c = '\x00' => hnul (h ▸ hc)]
    rfl
  have hhead : (Char.ofNat ((1 + name.length) % 256)).toNat = (1 + name.length) % 256 := toNat_ofNat (by omega)
  rw [hcons, httpGetHdrAt]
  simp only [hhead, htake]
  by_cases hlen : name.length ≤ 126
  · have hmod : (1 + name.length) % 256 = 1 + name.length := Nat.mod_eq_of_lt (by omega)
    have h1 : (name ++ [':', '\x00'])[1 + name.length]? = some '\x00' := by
      rw [List.getElem?_append_right (by omega)]
      simp
    have h2 : (Char.ofNat (1 + name.length) :: (name ++ [':', '\x00']))[1 + name.length]? = some ':' := by
      rw [Nat.add_comm, List.getElem?_cons_succ, List.getElem?_append_right (Nat.le_refl _)]
      simp
    rw [hmod, h1, h2, if_pos hlen, if_pos (by simp; omega), Nat.add_sub_cancel_left, List.take_left]
  · rw [if_neg hlen, if_neg]
    simp only [Bool.and_eq_true, decide_eq_true_eq, List.length_append, List.length_singleton, not_and]
    omega

theorem hdrName_value (name : Str) (h : Option Str) :
    (hdrValue h).map (hdrName name ++ ·) =
      if ∀ w, h = some w → (strip w).length < 65536 then some (entryText name (h.map strip)) else none := by
  cases h with
  | none => rfl
  | some w =>
    unfold hdrValue
    simp only [Option.some.injEq, forall_eq']
    by_cases hlt : (strip w).length < 65536
    · rw [if_pos hlt, if_pos hlt]
      rfl
    · rw [if_neg hlt, if_neg hlt]
      rfl

/-- One turn of the loop of `VRY_Create`: a name, blanks, and a comma or the end. -/
theorem vryLoop_word {rest : Str} {fuel : ℕ} (hnul : '\x00' ∉ name) (hn : ∀ c ∈ name, Lib.isspace c = false ∧ c ≠ ',')
    (hq : ∀ c t, q = c :: t → Lib.isspace c = true) (hrest : rest = [] ∨ rest = ',' :: t) (hne : name = [] → q = [] ∧ rest ≠ []) :
    vryLoop req (fuel + 1) (name ++ q ++ rest) =
      if name.length ≤ 126 ∧ ∀ w, httpGetHdr req name = some w → (strip w).length < 65536 then
        (match (q ++ rest).dropWhile Lib.isspace with
        | [] => some (entryText name ((httpGetHdr req name).map strip))
        | d :: t' =>
          if d = ',' then (vryLoop req fuel t').map (entryText name ((httpGetHdr req name).map strip) ++ ·) else none)
      else none := by
  have hstop : ∀ d u, q ++ rest = d :: u → (!Lib.isspace d && decide (d ≠ ',')) = false := by
    intro d u he
    cases q with
    | nil =>
      rcases hrest with rfl | rfl
      · cases he
      · cases he
        rfl
    | cons e q =>
      obtain ⟨rfl, -⟩ := List.cons.inj he
      rw [hq e q rfl]
      rfl
  have htake : (name ++ (q ++ rest)).takeWhile (fun c => !Lib.isspace c && c ≠ ',') = name := by
    rw [List.takeWhile_append_of_pos fun d hd => by simp [hn d hd]]
    cases hpt : q ++ rest with
    | nil => simp
    | cons d u => rw [List.takeWhile_cons_of_neg (by rw [hstop d u hpt]; decide), List.append_nil]
  have hhead : ∃ c u, name ++ (q ++ rest) = c :: u ∧ Lib.isspace c = false := by
    cases name with
    | nil =>
      obtain ⟨rfl, hr⟩ := hne rfl
      rcases hrest with rfl | rfl
      · exact absurd rfl hr
      · exact ⟨',', t, rfl, rfl⟩
    | cons c u => exact ⟨c, u ++ (q ++ rest), rfl, (hn c List.mem_cons_self).1⟩
  obtain ⟨c, u, hcu, hc⟩ := hhead
  have hdrop : (c :: u).drop name.length = q ++ rest := by rw [← hcu, List.drop_left]
  rw [hcu] at htake
  rw [List.append_assoc, hcu, vryLoop, if_neg (by rw [hc]; exact Bool.false_ne_true)]
  simp only [htake, hdrop, httpGetHdrAt_name hnul, Option.bind_eq_bind]
  by_cases hlen : name.length ≤ 126
  · rw [if_pos hlen, Option.bind_some]
    have hval := hdrName_value name (httpGetHdr req name)
    by_cases hw : ∀ w, httpGetHdr req name = some w → (strip w).length < 65536
    · rw [if_pos hw] at hval
      obtain ⟨value, hv, htext⟩ := Option.map_eq_some_iff.1 hval
      rw [if_pos ⟨hlen, hw⟩, hv, Option.bind_some, htext]
      cases (q ++ rest).dropWhile Lib.isspace with
      | nil => rfl
      | cons d t' =>
        simp only
        by_cases hd : d = ','
        · rw [if_pos hd, if_pos hd]
          cases vryLoop req fuel t' <;> rfl
        · rw [if_neg hd, if_neg hd]
    · rw [if_neg hw, Option.map_eq_none_iff] at hval
      rw [if_neg fun h => hw h.2, hval]
      rfl
  · rw [if_neg hlen, if_neg fun h => hlen h.1]
    rfl

/-- The loop makes a string in the documented format. -/
def Makes (req : Http) (fuel : ℕ) (v : Str) : Prop := ∃ s, vryLoop req fuel v = some s ∧ Format req (s ++ ['\x00'])

theorem makes_word {rest : Str} {fuel : ℕ} (hnul : '\x00' ∉ name) (hn : ∀ c ∈ name, Lib.isspace c = false ∧ c ≠ ',')
    (hq : ∀ c t, q = c :: t → Lib.isspace c = true) (hrest : rest = [] ∨ rest = ',' :: t) (hne : name = [] → q = [] ∧ rest ≠ [])
    (hcomma : ',' ∉ q) :
    Makes req (fuel + 1) (name ++ q ++ rest) ↔
      q.dropWhile Lib.isspace = [] ∧ NameOk req name ∧ (rest = [] ∨ Makes req fuel t) := by
  have hentry (s : Str) (hlen : name.length ≤ 126) (hw : ∀ w, httpGetHdr req name = some w → (strip w).length < 65536) :
      Format req (entryText name ((httpGetHdr req name).map strip) ++ s) ↔ NameOk req name ∧ Format req s := by
    rw [format_entry (by omega) rfl fun w hx => by obtain ⟨x, hget, rfl⟩ := Option.map_eq_some_iff.1 hx; exact hw x hget]
    refine and_congr_left fun _ => ⟨fun h => ⟨fun c hc => (hn c hc).1, hlen, fun x hx => h _ (by rw [hx]; rfl)⟩, fun h w hx => ?_⟩
    obtain ⟨x, hget, rfl⟩ := Option.map_eq_some_iff.1 hx
    exact h.value x hget
  unfold Makes
  rw [vryLoop_word hnul hn hq hrest hne]
  by_cases hok : name.length ≤ 126 ∧ ∀ w, httpGetHdr req name = some w → (strip w).length < 65536
  · rw [if_pos hok]
    obtain ⟨hlen, hw⟩ := hok
    cases hd : q.dropWhile Lib.isspace with
    | nil =>
      have hblank : ∀ c ∈ q, Lib.isspace c = true := fun c hc => List.dropWhile_eq_nil_iff.1 hd c hc
      rw [List.dropWhile_append_of_pos hblank]
      rcases hrest with rfl | rfl
      · simp only [List.dropWhile_nil, Option.some.injEq, exists_eq_left', true_or, and_true, true_and]
        rw [hentry _ hlen hw]
        exact and_iff_left format_nil
      · have hcom : (',' :: t).dropWhile Lib.isspace = ',' :: t := rfl
        rw [hcom]
        simp only [if_true, List.cons_ne_nil, false_or, true_and, Option.map_eq_some_iff]
        constructor
        · rintro ⟨_, ⟨s, hs, rfl⟩, hf⟩
          rw [List.append_assoc, hentry _ hlen hw] at hf
          exact ⟨hf.1, s, hs, hf.2⟩
        · rintro ⟨hname, s, hs, hf⟩
          refine ⟨_, ⟨s, hs, rfl⟩, ?_⟩
          rw [List.append_assoc, hentry _ hlen hw]
          exact ⟨hname, hf⟩
    | cons d q' =>
      have hd' : d ∈ q := (List.dropWhile_suffix Lib.isspace).subset (hd ▸ List.mem_cons_self)
      have hdne : d ≠ ',' := fun h => hcomma (h ▸ hd')
      have hdw : (q ++ rest).dropWhile Lib.isspace = d :: (q' ++ rest) := by
        rw [List.dropWhile_append, hd]
        rfl
      rw [hdw]
      simp [hdne]
  · rw [if_neg hok]
    refine iff_of_false (by simp) fun h => hok ⟨h.2.1.len, fun w hw => ?_⟩
    have := h.2.1.value w hw
    omega

/-- A text is its first piece, and what is behind it. -/
theorem exists_piece (v : Str) : ∃ p rest, v = p ++ rest ∧ ',' ∉ p ∧ ∃ t, rest = [] ∨ rest = ',' :: t := by
  refine ⟨v.takeWhile (· ≠ ','), v.dropWhile (· ≠ ','), (List.takeWhile_append_dropWhile).symm, fun h => ?_, ?_⟩
  · simpa using List.mem_takeWhile_imp h
  · have hhead := List.head?_dropWhile_not (fun c => decide (c ≠ ',')) v
    cases hd : v.dropWhile (· ≠ ',') with
    | nil => exact ⟨[], .inl rfl⟩
    | cons d t =>
      rw [hd] at hhead
      have hd' : d = ',' := by simpa using hhead
      exact ⟨t, .inr (by rw [hd'])⟩

/-- The names are the first piece, and those of the rest. -/
theorem names_piece {p rest : Str} (hp : ',' ∉ p) (hrest : rest = [] ∨ rest = ',' :: t) :
    (∀ n ∈ varyNames (p ++ rest), NameOk req n) ↔
      (strip p = [] ∧ rest = [] ∨ NameOk req (strip p) ∧ (rest = [] ∨ ∀ n ∈ varyNames t, NameOk req n)) := by
  rcases hrest with rfl | rfl
  · rw [List.append_nil, varyNames_end hp]
    by_cases hs : strip p = []
    · simp [hs]
    · simp [hs]
  · rw [varyNames_comma hp]
    simp

/-- Blanks in front are passed. -/
theorem makes_blank (p rest : Str) (f : ℕ) :
    Makes req ((p.takeWhile Lib.isspace).length + f) (p ++ rest) ↔ Makes req f (p.dropWhile Lib.isspace ++ rest) := by
  have hblank : vryLoop req ((p.takeWhile Lib.isspace).length + f) (p.takeWhile Lib.isspace ++ (p.dropWhile Lib.isspace ++ rest)) =
      vryLoop req f (p.dropWhile Lib.isspace ++ rest) := vryLoop_blank (fun c hc => List.mem_takeWhile_imp hc) f _
  rw [← List.append_assoc, List.takeWhile_append_dropWhile] at hblank
  unfold Makes
  rw [hblank]

/-- A text that does not begin with a blank is a word, and a blank and more behind it. -/
theorem exists_word {c : Char} (hc : Lib.isspace c = false) (t : Str) : ∃ name q, c :: t = name ++ q ∧ (∀ d ∈ name, Lib.isspace d = false) ∧
    name ≠ [] ∧ ∀ d u, q = d :: u → Lib.isspace d = true := by
  refine ⟨(c :: t).takeWhile fun c => !Lib.isspace c, (c :: t).dropWhile fun c => !Lib.isspace c, List.takeWhile_append_dropWhile.symm,
    fun d hd => ?_, ?_, fun d u hdu => ?_⟩
  · simpa using List.mem_takeWhile_imp hd
  · rw [List.takeWhile_cons_of_pos (by rw [hc]; rfl)]
    exact List.cons_ne_nil _ _
  · have hhead := List.head?_dropWhile_not (fun c => !Lib.isspace c) (c :: t)
    rw [hdu] at hhead
    simpa using hhead

/-- A piece that does not begin with a blank. -/
theorem makes_piece {p rest : Str} {f : ℕ} (hclean : ∀ c ∈ p, c ≠ ',' ∧ c ≠ '\x00') (hblank : ∀ c ∈ p.head?, Lib.isspace c = false)
    (hrest : rest = [] ∨ rest = ',' :: t) (ht : rest ≠ [] → (Makes req f t ↔ ∀ n ∈ varyNames t, NameOk req n)) :
    Makes req (f + 1) (p ++ rest) ↔
      (strip p = [] ∧ rest = [] ∨ NameOk req (strip p) ∧ (rest = [] ∨ ∀ n ∈ varyNames t, NameOk req n)) := by
  have hword (name q : Str) (hpq : p = name ++ q) (hn : ∀ c ∈ name, Lib.isspace c = false) (hq : ∀ c t, q = c :: t → Lib.isspace c = true)
      (hne : name = [] → q = [] ∧ rest ≠ []) :
      Makes req (f + 1) (p ++ rest) ↔
        q.dropWhile Lib.isspace = [] ∧ NameOk req name ∧ (rest = [] ∨ ∀ n ∈ varyNames t, NameOk req n) := by
    rw [hpq, makes_word (fun h => (hclean _ (hpq ▸ List.mem_append_left _ h)).2 rfl)
      (fun c hc => ⟨hn c hc, (hclean c (hpq ▸ List.mem_append_left _ hc)).1⟩) hq hrest hne
      (fun h => (hclean _ (hpq ▸ List.mem_append_right _ h)).1 rfl)]
    refine and_congr_right fun _ => and_congr_right fun _ => ?_
    by_cases h : rest = []
    · simp [h]
    · simp only [h, false_or]
      exact ht h
  cases p with
  | nil =>
    have hstrip : strip [] = [] := rfl
    by_cases hr : rest = []
    · subst hr
      simp only [hstrip, true_and, true_or, iff_true]
      exact ⟨[], rfl, format_nil⟩
    · rw [hword [] [] rfl (fun _ h => absurd h List.not_mem_nil) (fun _ _ h => (by cases h)) fun _ => ⟨rfl, hr⟩]
      simp [hr, hstrip]
  | cons c u =>
    have hc := hblank c rfl
    obtain ⟨name, q, hpq, hn, hnn, hq⟩ := exists_word hc u
    obtain ⟨h1, h2⟩ := strip_word hn hnn hq
    have hne := strip_ne (t := u) hc
    rw [hword name q hpq hn hq fun h => absurd h hnn, hpq]
    rw [hpq] at hne
    simp only [hne, false_and, false_or]
    by_cases hend : q.dropWhile Lib.isspace = []
    · rw [h1 hend]
      exact and_iff_right hend
    · obtain ⟨d, hd, hsp⟩ := h2 hend
      refine iff_of_false (fun h => hend h.1) fun h => ?_
      have := h.1.chars d hd
      rw [hsp] at this
      cases this

theorem makes_iff {v : Str} {fuel : ℕ} (hnul : '\x00' ∉ v) (hfuel : v.length < fuel) :
    Makes req fuel v ↔ ∀ n ∈ varyNames v, NameOk req n := by
  induction hl : v.length using Nat.strong_induction_on generalizing v fuel with
  | _ l ih =>
  subst hl
  obtain ⟨p, rest, rfl, hp, t, hrest⟩ := exists_piece v
  rw [names_piece hp hrest]
  -- the blanks in front
  have hlens := congrArg List.length (List.takeWhile_append_dropWhile (p := Lib.isspace) (l := p))
  rw [List.length_append] at hlens hfuel
  obtain ⟨f, rfl⟩ : ∃ f, fuel = (p.takeWhile Lib.isspace).length + (f + 1) := ⟨fuel - (p.takeWhile Lib.isspace).length - 1, by omega⟩
  rw [makes_blank, ← strip_dropWhile p]
  refine makes_piece (fun c hc => ?_) (fun c hc => ?_) hrest fun hne => ?_
  · have hcp := (List.dropWhile_suffix Lib.isspace).subset hc
    exact ⟨fun h => hp (h ▸ hcp), fun h => hnul (List.mem_append_left _ (h ▸ hcp))⟩
  · have hhead := List.head?_dropWhile_not Lib.isspace p
    rw [Option.mem_def.mp hc] at hhead
    simpa using hhead
  · rcases hrest with rfl | rfl
    · exact absurd rfl hne
    · rw [List.length_cons] at hfuel
      refine ih t.length ?_ (fun h => hnul (List.mem_append_right _ (List.mem_cons_of_mem _ h))) (by omega) rfl
      rw [List.length_append, List.length_cons]
      omega

/-- `VRY_Create` comes to its end, with a string in the documented format or without a `Vary` header. -/
def VaryOk (req resp : Http) : Prop :=
  ∃ r, vryCreate req resp = some r ∧ ∀ s, r = some s → Format req s

/-- **`VRY_Create`** accepts a `Vary` header if and only if each of its names is free of blanks and has at most 126 characters, and the
value of its header has less than 65535. -/
theorem vryCreate_iff {req resp : Http} (hnul : ∀ v, httpGetHdr resp hVary = some v → '\x00' ∉ v) :
    VaryOk req resp ↔ ∀ v, httpGetHdr resp hVary = some v → ∀ n ∈ varyNames v, NameOk req n := by
  unfold VaryOk vryCreate
  cases hv : httpGetHdr resp hVary with
  | none => exact iff_of_true ⟨none, rfl, nofun⟩ nofun
  | some v =>
    simp only [Option.some.injEq, forall_eq', Option.map_eq_some_iff]
    rw [← makes_iff (hnul v hv) (Nat.lt_succ_self v.length)]
    constructor
    · rintro ⟨_, ⟨s, hs, rfl⟩, hf⟩
      exact ⟨s, hs, hf _ rfl⟩
    · rintro ⟨s, hs, hf⟩
      refine ⟨_, ⟨s, hs, rfl⟩, ?_⟩
      rintro _ ⟨⟩
      exact hf

/-- Two names, and a comma and blanks behind each. -/
theorem vryCreate_two : VaryOk gzipReq varyResp ↔ ∀ v, httpGetHdr varyResp hVary = some v → ∀ n ∈ varyNames v, NameOk gzipReq n :=
  vryCreate_iff fun v hv => by
    have hget : httpGetHdr varyResp hVary = some "Accept-Encoding , cookie".toList := by decide +kernel
    rw [hget] at hv
    cases hv
    decide

/-- A blank in a name. -/
def spaceResp : Http := ⟨none, [some "Vary: Accept Encoding".toList]⟩

/-- A name of 127 characters. -/
def longResp : Http := ⟨none, [some ("Vary: ".toList ++ List.replicate 127 'x')]⟩

/-- `VRY_Create` does not come to its end. -/
theorem vryCreate_dies : vryCreate gzipReq spaceResp = none ∧ vryCreate gzipReq longResp = none := by decide +kernel

/-- Headers of that kind do not go through. -/
theorem not_vryCreate_ok : ¬ ∀ req resp, (∀ v, httpGetHdr resp hVary = some v → '\x00' ∉ v) → VaryOk req resp := by
  intro hall
  obtain ⟨r, hr, -⟩ := hall gzipReq longResp fun v hv => by
    have hget : httpGetHdr longResp hVary = some (List.replicate 127 'x') := by decide +kernel
    rw [hget] at hv
    cases hv
    rw [List.mem_replicate]
    decide
  rw [vryCreate_dies.2] at hr
  cases hr

end VaryLoop

end Varnish.Http
