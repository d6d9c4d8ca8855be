import Mathlib.Data.List.Find
import Varnish.Ban.Test
import Varnish.Lib.Ctype
import Varnish.Vrt.Assemble

/-!
# Varnish.Vrt.Headers — header fields are set from VCL (`VRT_SetHdr`, `VRT_GetHdr`)

The fields are slots that point into a memory, of which the workspace is a part; a text is put together there and then found again
by its name.

* `httpUnset`, `httpSetHeader`, `vrtSetHdr`, `httpGetHdr`: the functions; `none` is a failed assertion, or a string without its end.
* `Ok`: every slot has a string that is not in the free part of the workspace.
* `httpGetHdr_chars`: a field is found where it is found in the texts as strings.
* `vrtSetHdr_spec`: what is set and what stays.  `reach_headers`: after any number of calls.
-/

namespace Varnish.Vrt.Headers

open Varnish.Lib Varnish.Workspace

/-! ## The functions -/

section Functions

/-- `strncasecmp` finds nothing else than `a` at `p`. -/
def sameAt (m : Mem) (p : ℕ) (a : List UInt8) : Bool := (rd m p a.length).map lower = a.map lower

/-- `hd[u]` -/
structure Txt where
  b : ℕ
  e : ℕ
deriving DecidableEq

/-- The slots from `HTTP_HDR_FIRST` on that are in use, of `room` ones. -/
structure Http where
  ws : Ws
  mem : Mem
  hd : List Txt
  room : ℕ

/-- `http_Unset`, where `hdr` ends in the colon. -/
def httpUnset (hp : Http) (hdr : List UInt8) : Http := { hp with hd := hp.hd.filter fun t => !sameAt hp.mem t.b hdr }

/-- `strchr(p, '\0')`, in front of `p + fuel`. -/
def strend (m : Mem) (p : ℕ) : (fuel : ℕ) → Option ℕ
  | 0 => none
  | fuel + 1 => if m p = 0 then some p else strend m (p + 1) fuel

/-- `http_SetHeader`; a header that finds no slot is lost. -/
def httpSetHeader (hp : Http) (b : ℕ) : Option Http :=
  if hp.room ≤ hp.hd.length then some hp
  else (strend hp.mem b (hp.ws.e - b)).map fun e => { hp with hd := hp.hd ++ [⟨b, e⟩] }

/-- The name with its colon. -/
def colon (name : List UInt8) : List UInt8 := name ++ [58]

/-- `VRT_SetHdr` -/
def vrtSetHdr (hp : Http) (name : List UInt8) : List (Option (List UInt8)) → Option Http
  | none :: _ => some (httpUnset hp (colon name))
  | ps =>
    (vrtAssembleString hp.ws hp.mem (some (colon name)) ps).bind fun r =>
      match r.2.2 with
      | none => some { hp with ws := r.1, mem := r.2.1 }
      | some b => httpSetHeader (httpUnset { hp with ws := r.1, mem := r.2.1 } (colon name)) b

/-- `http_findhdr` -/
def httpFindhdr (hp : Http) (name : List UInt8) : Option Txt :=
  hp.hd.find? fun t => t.b + name.length + 1 ≤ t.e && hp.mem (t.b + name.length) = 58 && sameAt hp.mem t.b name

/-- `vct_issp` -/
def isSp (c : UInt8) : Bool := c = 32 || c = 9

/-- `http_GetHdr`, which is `VRT_GetHdr`: the string behind the colon and the blanks. -/
def httpGetHdr (hp : Http) (name : List UInt8) : Option (List UInt8) :=
  (httpFindhdr hp name).map fun t => (rd hp.mem (t.b + (name.length + 1)) (t.e - (t.b + (name.length + 1)))).dropWhile isSp

end Functions

/-! ## Texts -/

section Texts

variable {m m' : Mem} {t : Txt} {a n n' x : List UInt8} {ws : Ws}

/-- The string of a slot. -/
def text (m : Mem) (t : Txt) : List UInt8 := rd m t.b (t.e - t.b)

/-- A string that is not in the free part of the workspace. -/
structure SlotOk (ws : Ws) (m : Mem) (t : Txt) : Prop where
  le : t.b ≤ t.e
  off : t.e < ws.f ∨ ws.e ≤ t.b
  nul : m t.e = 0
  free : 0 ∉ text m t

/-- The text is a field of this name. -/
def isField (n x : List UInt8) : Bool := (x.take (n.length + 1)).map lower = (colon n).map lower

/-- What a name is made of. -/
def Name (n : List UInt8) : Prop := 0 ∉ n ∧ 58 ∉ n

theorem lower_eq_zero {c : UInt8} : lower c = 0 ↔ c = 0 := by
  rw [lower]
  split
  · constructor
    · intro h
      have := congrArg UInt8.toNat h
      simp only [UInt8.toNat_add] at this
      rename_i hc
      have h1 := hc.1
      have h2 := hc.2
      simp at this
      omega
    · rintro rfl
      rename_i hc
      exact absurd hc (by decide)
  · rfl

theorem lower_eq_colon {c : UInt8} : lower c = 58 ↔ c = 58 := by
  rw [lower]
  split
  · constructor
    · intro h
      have := congrArg UInt8.toNat h
      simp only [UInt8.toNat_add] at this
      rename_i hc
      have h1 := hc.1
      have h2 := hc.2
      simp at this
      omega
    · rintro rfl
      rename_i hc
      exact absurd hc (by decide)
  · rfl

theorem rd_take (m : Mem) (p : ℕ) {k n : ℕ} (h : k ≤ n) : (rd m p n).take k = rd m p k := by
  obtain ⟨j, rfl⟩ := Nat.exists_eq_add_of_le h
  rw [rd_add, List.take_left' (length_rd m p k)]

/-- The comparison is about the string of the slot; it does not get past its NUL. -/
theorem sameAt_eq (hle : t.b ≤ t.e) (hnul : m t.e = 0) (ha : 0 ∉ a) :
    sameAt m t.b a = decide (((text m t).take a.length).map lower = a.map lower) := by
  rw [sameAt]
  congr 1
  rw [eq_iff_iff]
  by_cases hlen : a.length ≤ t.e - t.b
  · rw [text, rd_take m t.b hlen]
  · refine iff_of_false (fun h => ?_) fun h => ?_
    · have hi : t.e - t.b < a.length := Nat.lt_of_not_le hlen
      have hget := congrArg (fun l => l[t.e - t.b]?) h
      simp only [List.getElem?_map, rd, List.getElem?_range' hi, Option.map_some, List.getElem?_eq_getElem hi, Nat.one_mul,
        Nat.add_sub_cancel' hle, hnul] at hget
      have hz := lower_eq_zero.mp ((Option.some.inj hget).symm.trans (lower_eq_zero.mpr rfl))
      exact ha (hz ▸ List.getElem_mem hi)
    · have := congrArg List.length h
      simp only [List.length_map, List.length_take, text, length_rd] at this
      omega

theorem zero_not_mem_colon (hn : Name n) : 0 ∉ colon n := by
  intro hm
  rcases List.mem_append.mp hm with hm | hm
  · exact hn.1 hm
  · rw [List.mem_singleton] at hm
    cases hm

/-- `http_Unset` and `http_findhdr` look for the same. -/
theorem isField_unset (h : SlotOk ws m t) (hn : Name n) : sameAt m t.b (colon n) = isField n (text m t) := by
  rw [sameAt_eq h.le h.nul (zero_not_mem_colon hn), isField, show (colon n).length = n.length + 1 from List.length_append]

theorem isField_iff : isField n x = true ↔ n.length + 1 ≤ x.length ∧ x[n.length]? = some 58 ∧ (x.take n.length).map lower = n.map lower := by
  rw [isField, decide_eq_true_eq]
  constructor
  · intro h
    have hlen := congrArg List.length h
    simp only [List.length_map, List.length_take, colon, List.length_append, List.length_singleton] at hlen
    have hle : n.length + 1 ≤ x.length := by omega
    rw [List.take_succ_eq_append_getElem hle, colon, List.map_append, List.map_append] at h
    obtain ⟨h1, h2⟩ := List.append_inj h (by simp only [List.length_map, List.length_take]; omega)
    refine ⟨hle, ?_, h1⟩
    rw [List.getElem?_eq_getElem hle]
    exact congrArg some (lower_eq_colon.mp ((List.cons.inj h2).1.trans (lower_eq_colon.mpr rfl)))
  · rintro ⟨hle, hc, h⟩
    rw [List.getElem?_eq_getElem hle, Option.some.injEq] at hc
    rw [List.take_succ_eq_append_getElem hle, colon, List.map_append, List.map_append, h, hc]

theorem isField_find (h : SlotOk ws m t) (hn : Name n) :
    (t.b + n.length + 1 ≤ t.e && m (t.b + n.length) = 58 && sameAt m t.b n) = isField n (text m t) := by
  rw [sameAt_eq h.le h.nul hn.1, Bool.eq_iff_iff, isField_iff]
  simp only [Bool.and_eq_true, decide_eq_true_eq, text, length_rd]
  have hle := h.le
  constructor
  · rintro ⟨⟨h1, h2⟩, h3⟩
    refine ⟨by omega, ?_, of_decide_eq_true h3⟩
    rw [rd, List.getElem?_map, List.getElem?_range' (by omega), Option.map_some, Nat.one_mul, h2]
  · rintro ⟨h1, h2, h3⟩
    refine ⟨⟨by omega, ?_⟩, decide_eq_true h3⟩
    rw [rd, List.getElem?_map, List.getElem?_range' (by omega), Option.map_some, Nat.one_mul] at h2
    exact Option.some.inj h2

/-- A text is a field of one name. -/
theorem isField_name (hn : Name n) (h : isField n x = true) : n.map lower = (x.map lower).takeWhile (· ≠ 58) := by
  rw [isField, decide_eq_true_eq] at h
  have hsplit : x.map lower = n.map lower ++ 58 :: (x.drop (n.length + 1)).map lower := by
    rw [← List.take_append_drop (n.length + 1) x, List.map_append, h, colon, List.map_append, List.append_assoc,
      List.take_append_drop]
    rfl
  rw [hsplit, List.takeWhile_append_of_pos, List.takeWhile_cons_of_neg (by decide), List.append_nil]
  intro c hc
  obtain ⟨d, hd, rfl⟩ := List.mem_map.mp hc
  refine decide_eq_true fun he => hn.2 ?_
  rw [← lower_eq_colon.mp he]
  exact hd

theorem isField_congr (h : n.map lower = n'.map lower) : isField n x = isField n' x := by
  have hlen := congrArg List.length h
  rw [List.length_map, List.length_map] at hlen
  rw [isField, isField, colon, colon, List.map_append, List.map_append, h, hlen]

end Texts

/-! ## What can be found -/

section Find

variable {hp : Http} {n n' v : List UInt8}

structure Ok (hp : Http) : Prop where
  ready : Ready hp.ws
  slot : ∀ t ∈ hp.hd, SlotOk hp.ws hp.mem t
  room : hp.hd.length ≤ hp.room

/-- The texts of the slots. -/
def Http.texts (hp : Http) : List (List UInt8) := hp.hd.map (text hp.mem)

/-- The value of a text. -/
def value (n x : List UInt8) : List UInt8 := (x.drop (n.length + 1)).dropWhile isSp

/-- The value of the first field of this name. -/
def get (n : List UInt8) (xs : List (List UInt8)) : Option (List UInt8) := (xs.find? (isField n)).map (value n)

theorem httpGetHdr_eq (h : Ok hp) (hn : Name n) : httpGetHdr hp n = get n hp.texts := by
  have hfind : httpFindhdr hp n = hp.hd.find? fun t => isField n (text hp.mem t) := by
    refine List.find?_congr fun t ht => ?_
    exact isField_find (h.slot t ht) hn
  rw [httpGetHdr, hfind, get, Http.texts, List.find?_map, Option.map_map]
  cases hf : hp.hd.find? fun t => isField n (text hp.mem t) with
  | none =>
    rw [show hp.hd.find? (isField n ∘ text hp.mem) = none from hf]
    rfl
  | some t =>
    rw [show hp.hd.find? (isField n ∘ text hp.mem) = some t from hf]
    have hfield : isField n (text hp.mem t) = true := by
      have := List.find?_some hf
      exact this
    have hlen := (isField_iff.mp hfield).1
    rw [text, length_rd] at hlen
    simp only [Option.map_some, Option.some.injEq, Function.comp, value, text]
    congr 1
    obtain ⟨j, hj⟩ := Nat.exists_eq_add_of_le hlen
    rw [hj, rd_add, List.drop_left' (length_rd _ _ _)]
    congr 1
    omega

/-- The texts are compared as those of `http_GetHdr` on strings are. -/
theorem isHdr_chars (n x : List UInt8) : Ban.isHdr (chars n) (chars x) = isField n x := by
  have hget : (chars x)[(chars n).length]? = some ':' ↔ x[n.length]? = some 58 := by
    rw [chars, chars, List.length_map, List.getElem?_map, Option.map_eq_some_iff]
    constructor
    · rintro ⟨b, hb, hc⟩
      have hcolon : char b = char 58 := hc
      rw [hb, char_inj hcolon]
    · intro hb
      exact ⟨58, hb, rfl⟩
  have hlower (l : List UInt8) : (chars l).map Char.toLower = (l.map lower).map char := by
    rw [chars, List.map_map, List.map_map]
    exact List.map_congr_left fun b _ => toLower_char b
  have htake : ((chars x).take (chars n).length).map Char.toLower = (chars n).map Char.toLower ↔
      (x.take n.length).map lower = n.map lower := by
    rw [show (chars x).take (chars n).length = chars (x.take n.length) by rw [chars, chars, chars, List.length_map, List.map_take],
      hlower, hlower]
    exact (List.map_injective_iff.mpr fun _ _ => char_inj).eq_iff
  rw [Bool.eq_iff_iff, isField_iff, Ban.isHdr, Bool.and_eq_true, Bool.and_eq_true, decide_eq_true_eq, decide_eq_true_eq,
    decide_eq_true_eq, hget, htake, and_assoc]
  simp only [chars, List.length_map]

/-- What is found in the memory is what `http_GetHdr` finds in the texts as strings. -/
theorem httpGetHdr_chars (h : Ok hp) (hn : Name n) (url : Option Ban.Str) :
    Ban.httpGetHdr ⟨url, hp.texts.map fun x => some (chars x)⟩ (chars n) = (httpGetHdr hp n).map chars := by
  have hfind (xs : List (List UInt8)) : (xs.map fun x => some (chars x)).findSome? (fun b => b.filter (Ban.isHdr (chars n))) =
      (xs.find? (isField n)).map chars := by
    induction xs with
    | nil => rfl
    | cons x xs ih =>
      rw [List.map_cons, List.findSome?_cons, List.find?_cons, Option.filter_some, isHdr_chars]
      cases isField n x with
      | true => rfl
      | false => exact ih
  have hblank (b : UInt8) : Ban.vctIssp (char b) = isSp b := by
    rw [Ban.vctIssp, isSp, Bool.eq_iff_iff]
    simp only [Bool.or_eq_true, decide_eq_true_eq]
    have hsame (a : UInt8) : char b = char a ↔ b = a := ⟨fun hc => char_inj hc, fun hb => congrArg char hb⟩
    exact or_congr (hsame 32) (hsame 9)
  have hvalue (x : List UInt8) : ((chars x).drop ((chars n).length + 1)).dropWhile Ban.vctIssp = chars (value n x) := by
    rw [value, chars, chars, chars, List.length_map, ← List.map_drop, List.dropWhile_map]
    congr 2
    exact funext hblank
  rw [httpGetHdr_eq h hn, get, Ban.httpGetHdr, Ban.httpFindhdr, hfind, Option.map_map, Option.map_map]
  exact congrArg (fun f => (hp.texts.find? (isField n)).map f) (funext hvalue)

/-- `http_Unset` leaves the other texts in their order. -/
theorem texts_unset (h : Ok hp) (hn : Name n) : (httpUnset hp (colon n)).texts = hp.texts.filter fun x => !isField n x := by
  rw [Http.texts, Http.texts, httpUnset, List.filter_map]
  refine congrArg _ (List.filter_congr fun t ht => ?_)
  rw [isField_unset (h.slot t ht) hn]
  rfl

theorem Ok.unset (h : Ok hp) (hdr : List UInt8) : Ok (httpUnset hp hdr) :=
  ⟨h.ready, fun t ht => h.slot t (List.mem_of_mem_filter ht), (List.length_filter_le _ _).trans h.room⟩

theorem get_unset (n : List UInt8) (xs : List (List UInt8)) : get n (xs.filter fun x => !isField n x) = none := by
  rw [get, Option.map_eq_none_iff, List.find?_eq_none]
  intro x hx
  simpa using (List.mem_filter.mp hx).2

theorem get_unset_ne (hn : Name n) (hn' : Name n') (hne : n'.map lower ≠ n.map lower) (xs : List (List UInt8)) :
    get n' (xs.filter fun x => !isField n x) = get n' xs := by
  rw [get, get, List.find?_filter]
  congr 2
  funext x
  cases hx : isField n' x with
  | false => simp
  | true =>
    have : isField n x = false := by
      by_contra hc
      exact hne ((isField_name hn' hx).trans (isField_name hn (by simpa using hc)).symm)
    simp [this]

end Find

/-! ## Setting a field -/

section Set

variable {hp hp' : Http} {n n' v x : List UInt8} {ps : List (Option (List UInt8))} {m m' : Mem} {ws ws' : Ws} {t : Txt}

theorem get_append (n : List UInt8) (xs : List (List UInt8)) (x : List UInt8) :
    get n (xs ++ [x]) = (get n xs).or (if isField n x then some (value n x) else none) := by
  rw [get, get, List.find?_append]
  cases xs.find? (isField n) with
  | some y => rfl
  | none =>
    rw [Option.none_or, List.find?_singleton]
    cases isField n x <;> rfl

/-- The string ends in front of its first NUL. -/
theorem strend_eq {p k : ℕ} (hx : StoredAt m p (x ++ [0])) (hz : 0 ∉ x) (hk : x.length < k) : strend m p k = some (p + x.length) := by
  induction x generalizing p k with
  | nil =>
    obtain ⟨k, rfl⟩ := Nat.exists_eq_succ_of_ne_zero (Nat.ne_of_gt hk)
    rw [strend, if_pos (storedAt_cons.mp hx).1]
    rfl
  | cons c x ih =>
    obtain ⟨k, rfl⟩ := Nat.exists_eq_succ_of_ne_zero (Nat.ne_of_gt (Nat.zero_lt_of_lt hk))
    obtain ⟨hc, hrest⟩ := storedAt_cons.mp hx
    have hne : m p ≠ 0 := by
      rw [hc]
      rintro rfl
      exact hz List.mem_cons_self
    rw [strend, if_neg hne, ih hrest (fun hm => hz (List.mem_cons_of_mem c hm)) (Nat.lt_of_succ_lt_succ hk), List.length_cons,
      Nat.add_assoc, Nat.add_comm 1]

/-- What is outside of the free part is not touched. -/
theorem SlotOk.outside (h : SlotOk ws m t) (hm : ∀ a, a < ws.f ∨ ws.e ≤ a → m' a = m a) (hf : ws.f ≤ ws'.f) (he : ws'.e = ws.e) :
    SlotOk ws' m' t ∧ text m' t = text m t := by
  have hle := h.le
  have htext : text m' t = text m t := by
    refine rd_congr fun i h1 h2 => hm i ?_
    rcases h.off with ho | ho
    · exact .inl (by omega)
    · exact .inr (by omega)
  refine ⟨⟨hle, ?_, ?_, by rw [htext]; exact h.free⟩, htext⟩
  · rcases h.off with ho | ho
    · exact .inl (by omega)
    · exact .inr (by omega)
  · rw [hm t.e (by
      rcases h.off with ho | ho
      · exact .inl ho
      · exact .inr (by omega))]
    exact h.nul

theorem Ok.outside (h : Ok hp) (hready : Ready ws') (hm : ∀ a, a < hp.ws.f ∨ hp.ws.e ≤ a → m' a = hp.mem a) (hf : hp.ws.f ≤ ws'.f)
    (he : ws'.e = hp.ws.e) : Ok { hp with ws := ws', mem := m' } ∧ Http.texts { hp with ws := ws', mem := m' } = hp.texts :=
  ⟨⟨hready, fun t ht => ((h.slot t ht).outside hm hf he).1, h.room⟩,
    List.map_congr_left fun t ht => ((h.slot t ht).outside hm hf he).2⟩

/-- What a caller passes: strings, and not one that just fits. -/
structure Cond (hp : Http) (n : List UInt8) (ps : List (Option (List UInt8))) : Prop where
  name : Name n
  parts : ∀ p ∈ ps, ∀ s ∈ p, 0 ∉ s
  fits : need List.length (some (colon n)) ps < hp.ws.e - hp.ws.f ∨ hp.ws.e - hp.ws.f < need ulen (some (colon n)) ps

/-- The string is longer than the workspace. -/
def TooLong (hp : Http) (n : List UInt8) (ps : List (Option (List UInt8))) : Prop :=
  hp.ws.e - hp.ws.f < need List.length (some (colon n)) ps

instance (hp : Http) (n : List UInt8) (ps : List (Option (List UInt8))) : Decidable (TooLong hp n ps) :=
  inferInstanceAs (Decidable (_ < _))

/-- The field that is made. -/
def field (n : List UInt8) (ps : List (Option (List UInt8))) : List UInt8 := assembly (some (colon n)) ps

theorem zero_not_mem_field (hn : Name n) (hps : ∀ p ∈ ps, ∀ s ∈ p, 0 ∉ s) : 0 ∉ field n ps := by
  intro hm
  rcases List.mem_append.mp hm with hm | hm
  · rcases List.mem_append.mp hm with hm | hm
    · exact zero_not_mem_colon hn hm
    · rw [List.mem_singleton] at hm
      cases hm
  · obtain ⟨s, hs, hz⟩ := List.mem_flatten.mp hm
    obtain ⟨p, hp, rfl⟩ := List.mem_map.mp hs
    cases p with
    | none => exact absurd hz (by decide)
    | some s => exact hps _ hp s rfl hz

theorem isField_field (n : List UInt8) (ps : List (Option (List UInt8))) : isField n (field n ps) = true := by
  have hlen : (colon n).length = n.length + 1 := List.length_append
  rw [isField, field, assembly, Option.elim_some, List.append_assoc, ← hlen, List.take_left]
  exact decide_eq_true rfl

theorem value_field (n : List UInt8) (ps : List (Option (List UInt8))) :
    value n (field n ps) = (assembly none ps).dropWhile isSp := by
  have hlen : (colon n).length = n.length + 1 := List.length_append
  rw [value, field, assembly, Option.elim_some, List.append_assoc, ← hlen, List.drop_left, List.singleton_append,
    List.dropWhile_cons_of_pos (by decide)]
  rfl

/-- What the texts are afterwards. -/
def setTexts (hp : Http) (n : List UInt8) (ps : List (Option (List UInt8))) : List (List UInt8) :=
  let rest := hp.texts.filter fun x => !isField n x
  match ps with
  | none :: _ => rest
  | ps => if TooLong hp n ps then hp.texts else if rest.length < hp.room then rest ++ [field n ps] else rest

theorem setTexts_some (hps : ps.head? ≠ some none) : setTexts hp n ps = if TooLong hp n ps then hp.texts
    else if (hp.texts.filter fun x => !isField n x).length < hp.room then (hp.texts.filter fun x => !isField n x) ++ [field n ps]
    else hp.texts.filter fun x => !isField n x := by
  unfold setTexts
  split
  · exact absurd rfl hps
  · rfl

theorem vrtSetHdr_some (hps : ps.head? ≠ some none) : vrtSetHdr hp n ps =
    (vrtAssembleString hp.ws hp.mem (some (colon n)) ps).bind fun r =>
      match r.2.2 with
      | none => some { hp with ws := r.1, mem := r.2.1 }
      | some b => httpSetHeader (httpUnset { hp with ws := r.1, mem := r.2.1 } (colon n)) b := by
  unfold vrtSetHdr
  split
  · exact absurd rfl hps
  · rfl

/-- The string at `b` becomes the last field, if there is a slot. -/
theorem httpSetHeader_spec {b : ℕ} (h : Ok hp) (hx : StoredAt hp.mem b (x ++ [0])) (hz : 0 ∉ x) (hb : b + (x.length + 1) ≤ hp.ws.f) :
    ∃ hp', httpSetHeader hp b = some hp' ∧ Ok hp' ∧ hp'.room = hp.room ∧
      hp'.texts = if hp.texts.length < hp.room then hp.texts ++ [x] else hp.texts := by
  have hlen : hp.texts.length = hp.hd.length := List.length_map _
  rw [httpSetHeader, hlen]
  by_cases hroom : hp.room ≤ hp.hd.length
  · exact ⟨hp, if_pos hroom, h, rfl, (if_neg (Nat.not_lt.mpr hroom)).symm⟩
  · have hfe := h.ready.asserted.2.2.2.2.1
    rw [if_neg hroom, if_pos (Nat.lt_of_not_le hroom), strend_eq hx hz (by omega)]
    obtain ⟨hx, hnul⟩ := storedAt_append.mp hx
    have htext : text hp.mem ⟨b, b + x.length⟩ = x := hx.rd (Nat.add_sub_cancel_left b _)
    refine ⟨_, rfl, ⟨h.ready, fun t ht => ?_, ?_⟩, rfl, ?_⟩
    · rcases List.mem_append.mp ht with ht | ht
      · exact h.slot t ht
      · rw [List.mem_singleton.mp ht]
        refine ⟨Nat.le_add_right _ _, .inl ?_, (storedAt_cons.mp hnul).1, by rw [htext]; exact hz⟩
        show b + x.length < hp.ws.f
        omega
    · rw [List.length_append, List.length_singleton]
      exact Nat.lt_of_not_le hroom
    · rw [Http.texts, List.map_append, List.map_singleton, htext]
      rfl

theorem vrtSetHdr_spec (h : Ok hp) (hc : Cond hp n ps) : ∃ hp', vrtSetHdr hp n ps = some hp' ∧ Ok hp' ∧ hp'.room = hp.room ∧
    hp'.texts = setTexts hp n ps := by
  by_cases hps : ps.head? = some none
  · obtain ⟨ps, rfl⟩ := List.head?_eq_some_iff.mp hps
    exact ⟨_, rfl, h.unset _, rfl, texts_unset h hc.name⟩
  · obtain ⟨ws', m', r, hrun, hnone, hsame, hsome, hout⟩ := (assembled_iff h.ready).mpr hc.fits
    rw [vrtSetHdr_some hps, setTexts_some hps, hrun, Option.bind_some]
    cases r with
    | none =>
      have hlong : TooLong hp n ps := hnone.mp rfl
      rw [hsame rfl, if_pos hlong]
      obtain ⟨hok, htexts⟩ := h.outside h.ready hout (Nat.le_refl _) rfl
      exact ⟨_, rfl, hok, rfl, htexts⟩
    | some b =>
      obtain ⟨rfl, hread, hready, -, he, hle⟩ := hsome b rfl
      have hshort : ¬ TooLong hp n ps := fun hl => by
        have := hnone.mpr hl
        cases this
      obtain ⟨hok, htexts⟩ := h.outside hready hout (by omega) he
      have hunset := texts_unset hok hc.name
      rw [htexts] at hunset
      have hlen : (field n ps).length + 1 = need List.length (some (colon n)) ps := by
        rw [← length_assembly, List.length_append]
        rfl
      obtain ⟨hp', hset, hok', hroom, htexts'⟩ := httpSetHeader_spec (x := field n ps) (b := hp.ws.f) (hok.unset (colon n))
        (by rw [StoredAt, List.length_append, List.length_singleton, hlen]; exact hread) (zero_not_mem_field hc.name hc.parts)
        (by rw [hlen]; exact hle)
      rw [if_neg hshort]
      rw [hunset] at htexts'
      exact ⟨hp', hset, hok', hroom, htexts'⟩

/-- Every other field keeps its value. -/
theorem get_setTexts_ne (hn : Name n) (hn' : Name n') (hne : n'.map lower ≠ n.map lower) :
    get n' (setTexts hp n ps) = get n' hp.texts := by
  have hother : isField n' (field n ps) = false := by
    by_contra hf
    exact hne ((isField_name hn' (by simpa using hf)).trans (isField_name hn (isField_field n ps)).symm)
  have hrest := get_unset_ne hn hn' hne hp.texts
  by_cases hps : ps.head? = some none
  · obtain ⟨ps, rfl⟩ := List.head?_eq_some_iff.mp hps
    exact hrest
  · rw [setTexts_some hps]
    split
    · rfl
    · split
      · rw [get_append, hother, hrest]
        simp
      · exact hrest

/-- What is found under the name. -/
theorem get_setTexts (hn : n'.map lower = n.map lower) : get n' (setTexts hp n ps) =
    if ps.head? = some none then none else if TooLong hp n ps then get n' hp.texts
    else if (hp.texts.filter fun x => !isField n x).length < hp.room then some ((assembly none ps).dropWhile isSp) else none := by
  have hlen := congrArg List.length hn
  rw [List.length_map, List.length_map] at hlen
  have hsame (xs : List (List UInt8)) : get n' xs = get n xs := by
    rw [get, get, show isField n' = isField n from funext fun x => isField_congr hn, show value n' = value n from funext fun x => by
      rw [value, value, hlen]]
  by_cases hps : ps.head? = some none
  · rw [if_pos hps, hsame]
    obtain ⟨ps, rfl⟩ := List.head?_eq_some_iff.mp hps
    exact get_unset n hp.texts
  · rw [if_neg hps, setTexts_some hps, hsame, hsame]
    split
    · rfl
    · split
      · rw [get_append, get_unset, isField_field, value_field]
        rfl
      · exact get_unset n hp.texts

end Set

/-! ## Any number of fields -/

section Runs

variable {hp hp₀ : Http}

/-- A call of `VRT_SetHdr`. -/
structure Call where
  name : List UInt8
  parts : List (Option (List UInt8))

def step (hp : Http) (c : Call) : Option Http := vrtSetHdr hp c.name c.parts

def Called (hp : Http) (c : Call) : Prop := Cond hp c.name c.parts

/-- After any calls in which no string just fits, each further one goes through.  A NULL takes all fields of the name away; a string
that is too long changes nothing; any other string is found under the name afterwards, if one of the name was there or a slot is
free, and nothing is if not.  No call changes what is found under another name. -/
theorem reach_headers (h : Ok hp₀) (hr : Reach step Called hp₀ hp) : Ok hp ∧ ∀ c, Called hp c → ∃ hp', step hp c = some hp' ∧
    (∀ n, Name n → n.map lower ≠ c.name.map lower → httpGetHdr hp' n = httpGetHdr hp n) ∧
    ∀ n, n.map lower = c.name.map lower → Name n → httpGetHdr hp' n =
      if c.parts.head? = some none then none
      else if TooLong hp c.name c.parts then httpGetHdr hp n
      else if (httpUnset hp (colon c.name)).hd.length < hp.room then some ((assembly none c.parts).dropWhile isSp) else none := by
  have hok : Ok hp := hr.inv h fun hp c hp' hok hc he => by
    obtain ⟨hp1, he1, hok', -⟩ := vrtSetHdr_spec hok hc
    rw [step, he1] at he
    cases he
    exact hok'
  refine ⟨hok, fun c hc => ?_⟩
  obtain ⟨hp', he, hok', -, htexts⟩ := vrtSetHdr_spec hok hc
  refine ⟨hp', he, fun n hn hne => ?_, fun n hsame hn => ?_⟩
  · rw [httpGetHdr_eq hok' hn, httpGetHdr_eq hok hn, htexts, get_setTexts_ne hc.name hn hne]
  · have hcount : (httpUnset hp (colon c.name)).hd.length = (httpUnset hp (colon c.name)).texts.length := (List.length_map _).symm
    rw [httpGetHdr_eq hok' hn, httpGetHdr_eq hok hn, htexts, get_setTexts hsame, hcount, texts_unset hok hc.name]

instance (n : List UInt8) : Decidable (Name n) := inferInstanceAs (Decidable (_ ∧ _))

instance (hp : Http) (n : List UInt8) (ps : List (Option (List UInt8))) : Decidable (Cond hp n ps) :=
  decidable_of_iff (Name n ∧ (∀ p ∈ ps, ∀ s ∈ p, 0 ∉ s) ∧ (need List.length (some (colon n)) ps < hp.ws.e - hp.ws.f ∨
    hp.ws.e - hp.ws.f < need ulen (some (colon n)) ps)) ⟨fun ⟨h1, h2, h3⟩ => ⟨h1, h2, h3⟩, fun h => ⟨h.name, h.parts, h.fits⟩⟩

instance (hp : Http) (c : Call) : Decidable (Called hp c) := inferInstanceAs (Decidable (Cond hp c.name c.parts))

/-- An empty table with one slot. -/
def oneSlot : Http := ⟨⟨16, 16, none, 48, 0⟩, fun _ => 0, [], 1⟩

theorem ok_oneSlot : Ok oneSlot := ⟨⟨by decide, rfl, by decide⟩, fun t ht => absurd ht List.not_mem_nil, Nat.zero_le 1⟩

/-- `a: x` is set twice, the second time as `A: yz`; `b: x` finds no slot. -/
theorem reach_headers_oneSlot : ∃ hp hp', [Call.mk [97] [some [120]], ⟨[65], [some [121], some [122]]⟩].foldlM step oneSlot = some hp ∧
    step hp ⟨[98], [some [120]]⟩ = some hp' ∧ httpGetHdr hp' [98] = none ∧ httpGetHdr hp' [97] = some [121, 122] := by
  have hok : OkRun step Called oneSlot [⟨[97], [some [120]]⟩, ⟨[65], [some [121], some [122]]⟩] := by decide +kernel
  have hrun : ([Call.mk [97] [some [120]], ⟨[65], [some [121], some [122]]⟩].foldlM step oneSlot).map (fun hp =>
      (httpGetHdr hp [97], (httpUnset hp (colon [98])).hd.length, hp.room, decide (Called hp ⟨[98], [some [120]]⟩),
        decide (TooLong hp [98] [some [120]]))) = some (some [121, 122], 1, 1, true, false) := by decide +kernel
  obtain ⟨hp, hs, hproj⟩ := Option.map_eq_some_iff.mp hrun
  obtain ⟨hget, hproj⟩ := Prod.mk.inj hproj
  obtain ⟨hlen, hproj⟩ := Prod.mk.inj hproj
  obtain ⟨hroom, hproj⟩ := Prod.mk.inj hproj
  obtain ⟨hcalled, hlong⟩ := Prod.mk.inj hproj
  obtain ⟨hp', he, hother, hsame⟩ := (reach_headers ok_oneSlot (Reach.of_run hok hs)).2 _ (of_decide_eq_true hcalled)
  refine ⟨hp, hp', hs, he, ?_, (hother [97] (by decide) (by decide)).trans hget⟩
  rw [hsame [98] rfl (by decide), if_neg (by decide), if_neg (of_decide_eq_false hlong), hlen, hroom]
  rfl

end Runs

end Varnish.Vrt.Headers
