import Varnish.Http.Dissect
import Varnish.Lib.Ctype

/-!
# Varnish.Http.Delimit — where a message ends (`htc_header_complete`, `http_splitline`)

* `htcHeaderComplete`: the delimiter.
* `dissectRun`, `httpSplitline`: the dissector, with what it leaves behind the line that it takes for the end.
* `Early`: the block has an empty line in front of its last one.
* `splitline_rest_iff`: the two agree on the end unless there is such a line, and for that there has to be a CR without its LF.
-/

namespace Varnish.Http

open Varnish.Ban
open Varnish.Lib (isspace)

/-! ## The delimiter -/

section Delimiter

/-- The string that begins at `t`. -/
def cstr (t : Str) : Str := t.takeWhile (· ≠ '\x00')

/-- The loop of `htc_header_complete`: the distance of the end of the first empty line. -/
def headerEnd : Str → Option ℕ
  | [] => none
  | c :: t =>
    if c = '\n' ∧ (skipCr t).head? = some '\n' then some (t.length - (skipCr t).length + 2)
    else (headerEnd t).map (· + 1)

/-- `htc_header_complete`: its result, and what it leaves in the buffer. -/
def htcHeaderComplete (t : Str) : ℕ × Str :=
  let p := (cstr t).dropWhile isspace
  if p = [] then (0, [])
  else
    match headerEnd p with
    | none => (0, t)
    | some k => ((cstr t).length - p.length + k, t)

end Delimiter

/-! ## The dissector -/

section Dissector

/-- `vct_isctl` -/
def vctIsctl (c : Char) : Bool := c.toNat < 32 || c.toNat = 127

/-- `vct_skipcrlf` -/
def skipcrlf : Str → Str
  | '\r' :: '\n' :: t => t
  | t => t.tail

/-- The outer loop of `http_dissect_hdrs` with the text behind the line where it ends. -/
def dissectRun (behind : Str) : (fuel slots : ℕ) → Str → Hdrs × Str
  | 0, _, t => (⟨0, false, []⟩, t)
  | _ + 1, _, [] => (⟨0, false, []⟩, [])
  | fuel + 1, slots, c :: t =>
    let (acc, q, rest) := scanLine behind 0 [] 0 (c :: t)
    if q = 0 then (⟨0, false, []⟩, rest)
    else
      match slots with
      | 0 => (⟨400, isCond acc, []⟩, c :: t)
      | slots + 1 =>
        let (r, rest) := dissectRun behind fuel slots rest
        (⟨r.status, isCond acc || r.conds, trimSp (acc.take q) :: r.hd⟩, rest)

/-- A loop of `http_splitline`: up to a character that `stop`s it, with no control character in front of it. -/
def scanTo (stop : Char → Bool) : Str → Option (Str × Str)
  | [] => none
  | c :: t => if stop c then some ([], c :: t) else if vctIsctl c then none else (scanTo stop t).map fun r => (c :: r.1, r.2)

/-- What `http_splitline` leaves in `hp`, and what is behind the line where the dissection ends. -/
structure Split where
  hd1 : Str
  hd2 : Str
  hd3 : Str
  hdrs : Hdrs
  rest : Str
deriving DecidableEq

/-- The first line, and where the headers begin. -/
def firstLine (p : Str) : Except ℤ (Str × Str × Str × Str) :=
  match scanTo vctIssp (p.dropWhile vctIslws) with
  | none => .error (-1)
  | some (h1, p) =>
    match scanTo (fun c => !vctIssp c) p with
    | none => .error (-1)
    | some (_, p) =>
      match scanTo vctIslws p with
      | none => .error (-1)
      | some (h2, p) =>
        if h2 = [] then .error 400
        else
          match scanTo (fun c => !vctIssp c) p with
          | none => .error (-1)
          | some (_, p) =>
            match scanTo vctIscrlf p with
            | none => .error (-1)
            | some (h3, p) => .ok (h1, h2, h3, skipcrlf p)

/-- `http_splitline` with `http_dissect_hdrs`, on a block in front of the memory `behind`. -/
def httpSplitline (behind : Str) (slots : ℕ) (block : Str) : Except ℤ Split :=
  match firstLine (block ++ behind) with
  | .error e => .error e
  | .ok (h1, h2, h3, p) =>
    let p := skipCr (p.take (p.length - behind.length))
    let r := dissectRun behind (p.length + 1) slots p
    if r.1.status = 0 then .ok ⟨h1, h2, h3, r.1, r.2⟩ else .error r.1.status

end Dissector

/-! ## Where the loop ends -/

section Rest

variable {behind t cur : Str} {n slots : ℕ} {ls : List (Str × ℕ)}

theorem dissectRun_fst (behind : Str) (fuel slots : ℕ) (t : Str) :
    (dissectRun behind fuel slots t).1 = dissectLoop behind fuel slots t := by
  induction fuel generalizing slots t with
  | zero => rfl
  | succ fuel ih =>
    cases t with
    | nil => rfl
    | cons c t =>
      rw [dissectRun, dissectLoop]
      dsimp only
      split
      · rfl
      · cases slots with
        | zero => rfl
        | succ slots =>
          dsimp only
          rw [ih]

/-- There is an empty line in front of the last one.  The line before the list is empty or not; in a run of white space, behind a
continuation of nothing but blanks, no line is empty. -/
def Early : (swallow empty : Bool) → List (Str × ℕ) → Prop
  | _, _, [] => False
  | swallow, empty, (m, _) :: ls =>
    if swallow || continues m then Early (m.all vctIssp) false ls else empty = true ∨ Early false m.isEmpty ls

/-- The same for all the lines of a block. -/
def EarlyBlock : List (Str × ℕ) → Prop
  | [] => False
  | (m, _) :: ls => Early false m.isEmpty ls

/-- No line but the last is empty. -/
def Filled (lines : List Str) : Prop := ∀ l ∈ lines.dropLast, l ≠ []

theorem filled_cons {l : Str} {lines : List Str} (hne : lines ≠ []) : Filled (l :: lines) ↔ l ≠ [] ∧ Filled lines := by
  rw [Filled, List.dropLast_cons_of_ne_nil hne]
  simp [Filled]

theorem filled_singleton (l : Str) : Filled [l] := fun _ h => absurd h List.not_mem_nil

theorem codeFrom_ne_nil (swallow : Bool) (cur : Str) (n : ℕ) (ls : List (Str × ℕ)) : codeFrom swallow cur n ls ≠ [] := by
  induction ls generalizing swallow cur n with
  | nil => exact List.cons_ne_nil _ _
  | cons p ls ih =>
    rw [codeFrom]
    split
    · exact ih _ _ _
    · exact List.cons_ne_nil _ _

theorem codeLines_ne_nil (h : Term t) (hne : t ≠ []) : codeLines (physical [] t) ≠ [] := by
  obtain ⟨m, e, t2, rfl, hm, he, -⟩ := exists_line h hne
  rw [physical_line hm he]
  exact codeFrom_ne_nil _ _ _ _

/-- The loop gets to the end of the text, unless a line in front of the last is empty. -/
theorem dissectRun_rest (h : Term t) {fuel : ℕ} (hf : t.length < fuel) (hs : (dissectRun behind fuel slots t).1.status = 0) :
    (dissectRun behind fuel slots t).2 = [] ↔ Filled (codeLines (physical [] t)) := by
  induction fuel generalizing t slots with
  | zero => exact absurd hf (Nat.not_lt_zero _)
  | succ fuel ih =>
    cases t with
    | nil => exact iff_of_true rfl fun _ h => absurd h List.not_mem_nil
    | cons c t =>
      have hfound := scanLine_found behind h (List.cons_ne_nil c t)
      rw [dissectRun] at hs ⊢
      generalize scanLine behind 0 [] 0 (c :: t) = res at hfound hs
      obtain ⟨acc, q, rest⟩ := res
      obtain ⟨hlines, -, hempty, hterm, hshort⟩ := hfound
      rw [hlines]
      simp only at hempty hterm hshort hs ⊢
      have hlen : rest.length < fuel := by
        rw [List.length_cons] at hf hshort
        omega
      by_cases hq : q = 0
      · rw [if_pos hq, hempty.mp hq]
        by_cases hr : rest = []
        · subst hr
          exact iff_of_true rfl (filled_singleton [])
        · exact iff_of_false hr fun hf => ((filled_cons (codeLines_ne_nil hterm hr)).mp hf).1 rfl
      · have hacc : acc ≠ [] := fun he => hq (hempty.mpr he)
        rw [if_neg hq] at hs ⊢
        cases slots with
        | zero => simp at hs
        | succ slots =>
          refine (ih hterm hlen hs).trans ?_
          by_cases hr : rest = []
          · subst hr
            exact iff_of_true (fun _ h => absurd h List.not_mem_nil) (filled_singleton acc)
          · exact ⟨fun h => (filled_cons (codeLines_ne_nil hterm hr)).mpr ⟨hacc, h⟩,
              fun h => ((filled_cons (codeLines_ne_nil hterm hr)).mp h).2⟩

theorem filled_iff (swallow : Bool) (hn : 1 ≤ n) (hls : ∀ p ∈ ls, 1 ≤ p.2) :
    Filled (codeFrom swallow cur n ls) ↔ ¬ Early swallow cur.isEmpty ls := by
  induction ls generalizing swallow cur n with
  | nil => exact iff_of_true (filled_singleton _) id
  | cons p ls ih =>
    obtain ⟨m, k⟩ := p
    have hk : 1 ≤ k := hls (m, k) List.mem_cons_self
    have hls' : ∀ p ∈ ls, 1 ≤ p.2 := fun p hp => hls p (List.mem_cons_of_mem _ hp)
    rw [codeFrom, Early]
    split
    · have hne : cur ++ blanks n ++ blankLead m ≠ [] := by
        intro he
        have := congrArg List.length he
        rw [List.length_append, List.length_append, length_blanks, List.length_nil] at this
        omega
      rw [ih _ hk hls', List.isEmpty_eq_false_iff.mpr hne]
    · rw [filled_cons (codeFrom_ne_nil _ _ _ _), ih false hk hls', not_or, List.isEmpty_iff]

theorem filled_block_iff (t : Str) : Filled (codeLines (physical [] t)) ↔ ¬ EarlyBlock (physical [] t) := by
  have hpos := physical_pos t []
  generalize physical [] t = ls at hpos
  cases ls with
  | nil => exact iff_of_true (fun _ h => absurd h List.not_mem_nil) id
  | cons p ls => exact filled_iff false (hpos p List.mem_cons_self) fun q hq => hpos q (List.mem_cons_of_mem _ hq)

end Rest

/-! ## Where the headers begin -/

section First

variable {behind block b e m p t t2 : Str} {c : Char}

/-- The headers of a block: what is behind its first line. -/
def headerText (block : Str) : Str := skipCr (skipcrlf ((block.dropWhile vctIslws).dropWhile fun c => !vctIscrlf c))

theorem isctl_of_crlf (h : vctIscrlf c = true) : vctIsctl c = true := by
  rw [vctIscrlf, Bool.or_eq_true, decide_eq_true_eq, decide_eq_true_eq] at h
  rcases h with rfl | rfl <;> decide

theorem scanTo_spec {stop : Char → Bool} {f r : Str} (h : scanTo stop p = some (f, r)) :
    p = f ++ r ∧ (∀ c ∈ f, vctIsctl c = false) ∧ ∃ c t, r = c :: t ∧ stop c = true := by
  induction p generalizing f with
  | nil => cases h
  | cons c p ih =>
    rw [scanTo] at h
    by_cases hs : stop c = true
    · rw [if_pos hs] at h
      cases h
      exact ⟨rfl, fun c hc => absurd hc List.not_mem_nil, c, p, rfl, hs⟩
    · rw [if_neg hs] at h
      by_cases hc : vctIsctl c = true
      · rw [if_pos hc] at h
        cases h
      · rw [if_neg hc] at h
        obtain ⟨⟨f', r'⟩, hr, he⟩ := Option.map_eq_some_iff.mp h
        cases he
        obtain ⟨rfl, hf, hstop⟩ := ih hr
        refine ⟨rfl, fun d hd => ?_, hstop⟩
        rcases List.mem_cons.mp hd with rfl | hd
        · exact Bool.not_eq_true _ ▸ hc
        · exact hf d hd

/-- A first line that is accepted: no control character up to its end. -/
theorem firstLine_spec {h1 h2 h3 : Str} (h : firstLine p = .ok (h1, h2, h3, t)) :
    ∃ m c r, p.dropWhile vctIslws = m ++ c :: r ∧ (∀ c ∈ m, vctIsctl c = false) ∧ vctIscrlf c = true ∧ t = skipcrlf (c :: r) := by
  unfold firstLine at h
  split at h
  · cases h
  next f1 p1 hs1 =>
    split at h
    · cases h
    next f2 p2 hs2 =>
      split at h
      · cases h
      next f3 p3 hs3 =>
        split at h
        · cases h
        split at h
        · cases h
        next f4 p4 hs4 =>
          split at h
          · cases h
          next f5 p5 hs5 =>
            cases h
            obtain ⟨he1, hc1, -⟩ := scanTo_spec hs1
            obtain ⟨he2, hc2, -⟩ := scanTo_spec hs2
            obtain ⟨he3, hc3, -⟩ := scanTo_spec hs3
            obtain ⟨he4, hc4, -⟩ := scanTo_spec hs4
            obtain ⟨he5, hc5, c, r, rfl, hstop⟩ := scanTo_spec hs5
            refine ⟨h1 ++ (f2 ++ (h2 ++ (f4 ++ h3))), c, r, ?_, fun d hd => ?_, hstop, rfl⟩
            · rw [he1, he2, he3, he4, he5]
              simp only [List.append_assoc]
            · simp only [List.mem_append] at hd
              rcases hd with hd | hd | hd | hd | hd
              · exact hc1 d hd
              · exact hc2 d hd
              · exact hc3 d hd
              · exact hc4 d hd
              · exact hc5 d hd

theorem skipcrlf_eol (he : IsEol e t) : skipcrlf (e ++ t) = t := by
  rcases he with rfl | rfl | ⟨rfl, hh⟩
  · rfl
  · rw [List.singleton_append, skipcrlf]
    · rfl
    · rintro u h
      cases h
  · rw [List.singleton_append, skipcrlf]
    · rfl
    · rintro u h
      cases h
      exact hh rfl

theorem isEol_append (he : IsEol e t2) (hlast : (e ++ t2).getLast? = some '\n') : IsEol e (t2 ++ behind) := by
  rcases he with rfl | rfl | ⟨rfl, hh⟩
  · exact .inl rfl
  · exact .inr (.inl rfl)
  · refine .inr (.inr ⟨rfl, ?_⟩)
    cases t2 with
    | nil => cases hlast
    | cons c t2 => exact hh

/-- Two texts that begin with a line. -/
theorem line_unique {m' r r' : Str} {c' : Char} (h : m ++ c :: r = m' ++ c' :: r') (hm : ∀ d ∈ m, vctIscrlf d = false)
    (hm' : ∀ d ∈ m', vctIscrlf d = false) (hc : vctIscrlf c = true) (hc' : vctIscrlf c' = true) : m = m' ∧ c :: r = c' :: r' := by
  induction m generalizing m' with
  | nil =>
    cases m' with
    | nil => exact ⟨rfl, h⟩
    | cons d m' =>
      cases (List.cons.inj h).1
      exact absurd hc (by simp [hm' c List.mem_cons_self])
  | cons d m ih =>
    cases m' with
    | nil =>
      cases (List.cons.inj h).1
      exact absurd hc' (by simp [hm c' List.mem_cons_self])
    | cons d' m' =>
      obtain ⟨rfl, htail⟩ := List.cons.inj h
      obtain ⟨rfl, hrest⟩ := ih htail (fun x hx => hm x (List.mem_cons_of_mem _ hx)) fun x hx => hm' x (List.mem_cons_of_mem _ hx)
      exact ⟨rfl, hrest⟩

/-- The first line of an accepted block ends inside the block. -/
theorem firstLine_block {h1 h2 h3 : Str} (hb : block.dropWhile vctIslws = b) (hne : b ≠ []) (hlast : b.getLast? = some '\n')
    (h : firstLine (block ++ behind) = .ok (h1, h2, h3, t)) :
    ∃ m e t2, b = m ++ (e ++ t2) ∧ (∀ c ∈ m, vctIsctl c = false) ∧ IsEol e t2 ∧ t = t2 ++ behind ∧ skipCr t2 = headerText block := by
  obtain ⟨m, c, r, hp, hm, hc, rfl⟩ := firstLine_spec h
  obtain ⟨m', e, t2, hb', hm', he, -⟩ := exists_line (.inr hlast) hne
  have hcrlf : ∀ d ∈ m, vctIscrlf d = false := fun d hd => by
    by_contra hd'
    exact absurd (isctl_of_crlf (by simpa using hd')) (by simp [hm d hd])
  obtain ⟨c', e', rfl⟩ : ∃ c' e', e = c' :: e' := List.exists_cons_of_ne_nil fun hz => by
    have := he.length
    simp [hz] at this
  have hc' : vctIscrlf c' = true := he.crlf c' List.mem_cons_self
  have happ : (block ++ behind).dropWhile vctIslws = b ++ behind := by
    obtain ⟨d, b', rfl⟩ := List.exists_cons_of_ne_nil hne
    rw [List.dropWhile_append, hb]
    rfl
  have hsplit : m ++ c :: r = m' ++ c' :: (e' ++ (t2 ++ behind)) := by
    rw [← hp, happ, hb']
    simp only [List.append_assoc, List.cons_append]
  obtain ⟨rfl, hcr⟩ := line_unique hsplit hcrlf hm' hc hc'
  refine ⟨m, c' :: e', t2, hb', hm, he, ?_, ?_⟩
  · rw [hcr, ← List.cons_append]
    refine skipcrlf_eol (isEol_append he ?_)
    rw [hb', List.getLast?_append] at hlast
    simpa using hlast
  · have hdrop : b.dropWhile (fun c => !vctIscrlf c) = c' :: e' ++ t2 := by
      rw [hb', List.dropWhile_append_of_pos fun d hd => by simp [hm' d hd], List.cons_append,
        List.dropWhile_cons_of_neg (by simp [hc'])]
    rw [headerText, hb, hdrop, skipcrlf_eol he]

end First

/-! ## Agreement -/

section Agree

variable {data p t u : Str} {k n : ℕ} {c : Char}

/-- Nothing but the end of the text is an empty line for the delimiter. -/
def OnlyEnd : Str → Prop
  | [] => True
  | c :: t => (c = '\n' → (skipCr t).head? = some '\n' → skipCr t = ['\n']) ∧ OnlyEnd t

theorem OnlyEnd.suffix {a : Str} (h : OnlyEnd (a ++ t)) : OnlyEnd t := by
  induction a with
  | nil => exact h
  | cons c a ih => exact ih h.2

theorem skipCr_cases (t : Str) : (∃ u, t = '\r' :: u ∧ skipCr t = u) ∨ skipCr t = t := by
  unfold skipCr
  split
  · exact .inl ⟨_, rfl, rfl⟩
  · exact .inr rfl

theorem skipCr_ne (h : t.head? ≠ some '\r') : skipCr t = t := by
  rcases skipCr_cases t with ⟨u, rfl, -⟩ | h'
  · exact absurd rfl h
  · exact h'

theorem head_skipCr_take (h : (skipCr (t.take k)).head? = some '\n') : (skipCr t).head? = some '\n' := by
  rcases skipCr_cases (t.take k) with ⟨u, ht, hu⟩ | ht
  · rw [hu] at h
    obtain ⟨v, rfl⟩ := List.head?_eq_some_iff.mp h
    have happ := List.take_append_drop k t
    rw [ht] at happ
    rw [← happ]
    rfl
  · rw [ht] at h
    obtain ⟨v, hv⟩ := List.head?_eq_some_iff.mp h
    have happ := List.take_append_drop k t
    rw [hv] at happ
    rw [← happ]
    rfl

/-- What the delimiter finds. -/
theorem headerEnd_spec (h : headerEnd p = some k) : k ≤ p.length ∧ (p.take k).getLast? = some '\n' ∧ OnlyEnd (p.take k) := by
  induction p generalizing k with
  | nil => cases h
  | cons c t ih =>
    rw [headerEnd] at h
    by_cases hc : c = '\n' ∧ (skipCr t).head? = some '\n'
    · rw [if_pos hc] at h
      cases h
      obtain ⟨rfl, hh⟩ := hc
      obtain ⟨v, hv⟩ := List.head?_eq_some_iff.mp hh
      rcases skipCr_cases t with ⟨u, rfl, hu⟩ | ht
      · rw [hu] at hv
        subst hv
        simp [skipCr, OnlyEnd]
      · rw [ht] at hv
        subst hv
        simp [skipCr, OnlyEnd]
    · rw [if_neg hc] at h
      obtain ⟨j, hj, rfl⟩ := Option.map_eq_some_iff.mp h
      obtain ⟨hle, hlast, hend⟩ := ih hj
      refine ⟨Nat.succ_le_succ hle, ?_, ?_, hend⟩
      · rw [List.take_succ_cons]
        obtain ⟨d, w, hw⟩ := List.exists_cons_of_ne_nil (l := t.take j) (by
          intro hz
          simp [hz] at hlast)
        rw [hw] at hlast ⊢
        rwa [List.getLast?_cons_cons]
      · intro hcn hhead
        exact absurd ⟨hcn, head_skipCr_take hhead⟩ hc

theorem isspace_of_lws (h : vctIslws c = true) : isspace c = true := by
  simp only [vctIslws, vctIssp, vctIscrlf, Bool.or_eq_true, decide_eq_true_eq] at h
  rcases h with (rfl | rfl) | rfl | rfl <;> decide

theorem isspace_cases (h : isspace c = true) : vctIslws c = true ∨ vctIsctl c = true := by
  simp only [isspace, Bool.or_eq_true, Bool.and_eq_true, decide_eq_true_eq] at h
  rcases h with rfl | ⟨-, h⟩
  · exact .inl rfl
  · refine .inr ?_
    simp only [vctIsctl, Bool.or_eq_true, decide_eq_true_eq]
    omega

/-- A complete block: white space, and a text that ends with its only empty line. -/
theorem complete_spec (h : (htcHeaderComplete data).1 = n) (hn : n ≠ 0) :
    ∃ lead b, data.take n = lead ++ b ∧ (∀ c ∈ lead, isspace c = true) ∧ (∀ c ∈ b.head?, isspace c = false) ∧
      b.getLast? = some '\n' ∧ OnlyEnd b := by
  unfold htcHeaderComplete at h
  dsimp only at h
  generalize hp : (cstr data).dropWhile isspace = p at h
  split at h
  · exact absurd h.symm hn
  split at h
  · exact absurd h.symm hn
  next k hk =>
    obtain ⟨hle, hlast, hend⟩ := headerEnd_spec hk
    have hsplit : cstr data = (cstr data).takeWhile isspace ++ p := by
      rw [← hp]
      exact List.takeWhile_append_dropWhile.symm
    refine ⟨(cstr data).takeWhile isspace, p.take k, ?_, fun c hc => List.mem_takeWhile_imp hc, ?_, hlast, hend⟩
    · have hlen : (cstr data).length - p.length = ((cstr data).takeWhile isspace).length := by
        have := congrArg List.length hsplit
        rw [List.length_append] at this
        omega
      have hn' : n ≤ (cstr data).length := by
        have := congrArg List.length hsplit
        rw [List.length_append] at this
        dsimp only at h
        omega
      have hcstr : data.take n = (cstr data).take n := by
        have hpre : cstr data ++ data.dropWhile (· ≠ '\x00') = data := List.takeWhile_append_dropWhile
        rw [← List.take_append_of_le_length hn', hpre]
      have htake : ((cstr data).takeWhile isspace ++ p).take (((cstr data).takeWhile isspace).length + k) =
          (cstr data).takeWhile isspace ++ p.take k := by
        rw [List.take_append, List.take_of_length_le (Nat.le_add_right _ _), Nat.add_sub_cancel_left]
      rw [← hsplit, ← hlen] at htake
      rw [hcstr, ← h]
      exact htake
    · intro c hc
      have hhead : p.head? = some c := by
        rw [List.head?_take] at hc
        split at hc
        · cases hc
        · exact hc
      obtain ⟨w, rfl⟩ := List.head?_eq_some_iff.mp hhead
      have := List.head?_dropWhile_not isspace (cstr data)
      rw [hp] at this
      simpa using this

/-- Behind the white space in front of it, a block that is accepted is what the delimiter has seen. -/
theorem dropWhile_lws_lead {lead b : Str} (hlead : ∀ c ∈ lead, isspace c = true) (hb : ∀ c ∈ b.head?, isspace c = false)
    (hne : b ≠ []) : ∃ lead', (lead ++ b).dropWhile vctIslws = lead' ++ b ∧
      ∀ c ∈ lead'.head?, vctIsctl c = true ∧ vctIscrlf c = false := by
  induction lead with
  | nil =>
    obtain ⟨c, w, rfl⟩ := List.exists_cons_of_ne_nil hne
    refine ⟨[], ?_, fun c hc => by cases hc⟩
    rw [List.nil_append, List.dropWhile_cons_of_neg]
    intro h
    exact absurd (isspace_of_lws h) (by simp [hb c rfl])
  | cons c lead ih =>
    by_cases hc : vctIslws c = true
    · rw [List.cons_append, List.dropWhile_cons_of_pos hc]
      exact ih fun d hd => hlead d (List.mem_cons_of_mem _ hd)
    · rw [List.cons_append, List.dropWhile_cons_of_neg hc]
      refine ⟨c :: lead, rfl, fun d hd => ?_⟩
      cases hd
      refine ⟨(isspace_cases (hlead c List.mem_cons_self)).resolve_left hc, ?_⟩
      by_contra hcr
      exact hc (islws_crlf (by simpa using hcr))

/-- Every CR has its LF. -/
def NoBareCr : Str → Prop
  | [] => True
  | c :: t => (c = '\r' → t.head? = some '\n') ∧ NoBareCr t

instance decNoBareCr : (t : Str) → Decidable (NoBareCr t)
  | [] => isTrue trivial
  | _ :: t =>
    have := decNoBareCr t
    inferInstanceAs (Decidable (_ ∧ _))

theorem NoBareCr.suffix {a : Str} (h : NoBareCr (a ++ t)) : NoBareCr t := by
  induction a with
  | nil => exact h
  | cons c a ih => exact ih h.2

/-- A line end, where every CR has its LF. -/
theorem IsEol.noBareCr {e : Str} (he : IsEol e t) (h : NoBareCr (e ++ t)) : e = ['\r', '\n'] ∨ e = ['\n'] := by
  rcases he with rfl | rfl | ⟨rfl, hh⟩
  · exact .inl rfl
  · exact .inr rfl
  · exact absurd (h.1 rfl) hh

/-- Behind an LF no line is empty for the dissector that is not one for the delimiter. -/
theorem physical_filled (h : Term t) (hcr : NoBareCr t) (hend : OnlyEnd ('\n' :: t)) : ∀ p ∈ (physical [] t).dropLast, p.1 ≠ [] := by
  induction hl : t.length using Nat.strong_induction_on generalizing t with
  | _ len ih =>
    subst hl
    by_cases hne : t = []
    · subst hne
      exact fun p hp => absurd hp List.not_mem_nil
    obtain ⟨m, e, t2, rfl, hm, he, ht2⟩ := exists_line h hne
    have hcr2 : NoBareCr (e ++ t2) := hcr.suffix
    rw [physical_line hm he, List.nil_append]
    by_cases hne2 : t2 = []
    · subst hne2
      exact fun p hp => absurd hp List.not_mem_nil
    have hphys : physical [] t2 ≠ [] := by
      obtain ⟨m', e', t3, rfl, hm', he', -⟩ := exists_line ht2 hne2
      rw [physical_line hm' he']
      exact List.cons_ne_nil _ _
    rw [List.dropLast_cons_of_ne_nil hphys]
    have hlf : ∃ a, '\n' :: (m ++ (e ++ t2)) = a ++ '\n' :: t2 := by
      rcases he.noBareCr hcr2 with rfl | rfl
      · exact ⟨'\n' :: (m ++ ['\r']), by simp⟩
      · exact ⟨'\n' :: m, by simp⟩
    obtain ⟨a, ha⟩ := hlf
    intro p hp
    rcases List.mem_cons.mp hp with rfl | hp
    · rintro rfl
      have hskip : skipCr (e ++ t2) = '\n' :: t2 := by
        rcases he.noBareCr hcr2 with rfl | rfl <;> rfl
      have := hend.1 rfl (by rw [List.nil_append, hskip]; rfl)
      rw [List.nil_append, hskip] at this
      exact hne2 (List.cons.inj this).2
    · refine ih t2.length ?_ ht2 hcr2.suffix ?_ rfl p hp
      · have := he.length
        rw [List.length_append, List.length_append]
        omega
      · rw [ha] at hend
        exact hend.suffix

theorem early_empty {swallow empty : Bool} {ls : List (Str × ℕ)} (h : Early swallow empty ls) :
    (empty = true ∧ ls ≠ []) ∨ ∃ p ∈ ls.dropLast, p.1 = [] := by
  induction ls generalizing swallow empty with
  | nil => exact absurd h id
  | cons q ls ih =>
    obtain ⟨m, k⟩ := q
    rw [Early] at h
    have hmem : ∀ p ∈ ls.dropLast, p ∈ ((m, k) :: ls).dropLast := by
      intro p hp
      cases ls with
      | nil => cases hp
      | cons q ls => exact List.mem_cons_of_mem _ hp
    split at h
    · rcases ih h with ⟨hf, -⟩ | ⟨p, hp, hpe⟩
      · cases hf
      · exact .inr ⟨p, hmem p hp, hpe⟩
    · rcases h with h | h
      · exact .inl ⟨h, List.cons_ne_nil _ _⟩
      · rcases ih h with ⟨hm, hne⟩ | ⟨p, hp, hpe⟩
        · refine .inr ⟨(m, k), ?_, List.isEmpty_iff.mp hm⟩
          rw [List.dropLast_cons_of_ne_nil hne]
          exact List.mem_cons_self
        · exact .inr ⟨p, hmem p hp, hpe⟩

theorem earlyBlock_empty {ls : List (Str × ℕ)} (h : EarlyBlock ls) : ∃ p ∈ ls.dropLast, p.1 = [] := by
  cases ls with
  | nil => exact absurd h id
  | cons q ls =>
    obtain ⟨m, k⟩ := q
    rcases early_empty h with ⟨hm, hne⟩ | ⟨p, hp, hpe⟩
    · refine ⟨(m, k), ?_, List.isEmpty_iff.mp hm⟩
      rw [List.dropLast_cons_of_ne_nil hne]
      exact List.mem_cons_self
    · refine ⟨p, ?_, hpe⟩
      cases ls with
      | nil => cases hp
      | cons q ls => exact List.mem_cons_of_mem _ hp

/-- Behind a first line whose end has its LF, an empty line of the dissector is one of the delimiter. -/
theorem not_early {m e t2 : Str} (he : IsEol e t2) (hlast : (m ++ (e ++ t2)).getLast? = some '\n') (hcr : NoBareCr (m ++ (e ++ t2)))
    (hend : OnlyEnd (m ++ (e ++ t2))) : ¬ EarlyBlock (physical [] (skipCr t2)) := by
  intro hearly
  obtain ⟨p, hp, hpe⟩ := earlyBlock_empty hearly
  have hcr2 : NoBareCr (e ++ t2) := hcr.suffix
  have hend2 : OnlyEnd ('\n' :: t2) := by
    rcases he.noBareCr hcr2 with rfl | rfl
    · exact OnlyEnd.suffix (a := m ++ ['\r']) (by simpa using hend)
    · exact OnlyEnd.suffix (a := m) (by simpa using hend)
  rcases skipCr_cases t2 with ⟨u, rfl, hu⟩ | ht
  · have hlf : u.head? = some '\n' := hcr2.suffix.1 rfl
    have := hend2.1 rfl (hu ▸ hlf)
    rw [this] at hp
    exact absurd hp List.not_mem_nil
  · rw [ht] at hp
    have hterm : Term t2 := by
      by_cases hz : t2 = []
      · exact .inl hz
      · rw [← List.append_assoc, List.getLast?_append_of_ne_nil _ hz] at hlast
        exact .inr hlast
    exact physical_filled hterm hcr2.suffix hend2 p hp hpe

/-- **The end of a message**: in a block that the delimiter has found complete and the dissector accepts, the dissection gets to the
end of the block, if and only if no line in front of the last is empty; and that is so if every CR has its LF. -/
theorem splitline_rest_iff (data behind : Str) (slots n : ℕ) (r : Split) (hn : n ≠ 0) (hd : (htcHeaderComplete data).1 = n)
    (hr : httpSplitline behind slots (data.take n) = .ok r) :
    (r.rest = [] ↔ ¬ EarlyBlock (physical [] (headerText (data.take n)))) ∧ (NoBareCr (data.take n) → r.rest = []) := by
  obtain ⟨lead, b, hblock, hlead, hhead, hlast, hend⟩ := complete_spec hd hn
  have hbne : b ≠ [] := by
    rintro rfl
    cases hlast
  obtain ⟨lead', hdrop, hctl⟩ := dropWhile_lws_lead hlead hhead hbne
  rw [hblock] at hr ⊢
  have hlast' : (lead' ++ b).getLast? = some '\n' := by
    rw [List.getLast?_append, hlast]
    rfl
  unfold httpSplitline at hr
  split at hr
  · cases hr
  next h1 h2 h3 t hfirst =>
    obtain ⟨m, e, t2, hb, hm, he, rfl, htext⟩ := firstLine_block hdrop (by simp [hbne]) hlast' hfirst
    have htake : (t2 ++ behind).take ((t2 ++ behind).length - behind.length) = t2 := by
      rw [List.length_append, Nat.add_sub_cancel, List.take_left]
    dsimp only at hr
    rw [htake, htext] at hr
    have hterm : Term (headerText (lead ++ b)) := by
      rw [← htext]
      by_cases hz : t2 = []
      · subst hz
        exact .inl rfl
      · refine Complete.term ?_
        rw [hb, ← List.append_assoc, List.getLast?_append_of_ne_nil _ hz] at hlast'
        exact hlast'
    split at hr
    next hs =>
      cases hr
      have hiff := (dissectRun_rest hterm (Nat.lt_succ_self _) hs).trans (filled_block_iff _)
      refine ⟨hiff, fun hcr => hiff.mpr ?_⟩
      -- the white space in front has no control character that the dissector would not have refused
      have hnil : lead' = [] := by
        cases lead' with
        | nil => rfl
        | cons c lead' =>
          obtain ⟨hc, hncr⟩ := hctl c rfl
          cases m with
          | nil =>
            obtain ⟨d, e', rfl⟩ := List.exists_cons_of_ne_nil (l := e) (by
              rintro rfl
              exact absurd he.length (by decide))
            cases (List.cons.inj hb).1
            exact absurd (he.crlf c List.mem_cons_self) (by simp [hncr])
          | cons d m =>
            cases (List.cons.inj hb).1
            exact absurd hc (by simp [hm c List.mem_cons_self])
      subst hnil
      rw [List.nil_append] at hb hlast'
      subst hb
      rw [← htext]
      exact not_early he hlast' hcr.suffix hend
    · cases hr

def someRequest : Str := "\r\nGET / HTTP/1.1\r\nHost: a\r\n\r\nGET".toList

theorem splitline_rest_iff_request :
    (htcHeaderComplete someRequest).1 = 29 ∧ ∃ r, httpSplitline "GET".toList 8 (someRequest.take 29) = .ok r ∧ r.rest = [] := by
  refine ⟨by decide +kernel, ⟨"GET".toList, "/".toList, "HTTP/1.1".toList, ⟨0, false, ["Host: a".toList]⟩, []⟩, by decide +kernel, ?_⟩
  exact (splitline_rest_iff someRequest "GET".toList 8 29 _ (by decide) (by decide +kernel) (by decide +kernel)).2 (by decide +kernel)

/-- Two CR end the headers for the dissector, but not for the delimiter. -/
theorem splitline_rest_hidden :
    (htcHeaderComplete "GET / HTTP/1.1\nA: b\r\rC: d\n\n".toList).1 = 27 ∧
      httpSplitline [] 8 ("GET / HTTP/1.1\nA: b\r\rC: d\n\n".toList.take 27) =
        .ok ⟨"GET".toList, "/".toList, "HTTP/1.1".toList, ⟨0, false, ["A: b".toList]⟩, "C: d\n\n".toList⟩ := by
  decide +kernel

end Agree

end Varnish.Http
