import Varnish.Ban.Argv

/-!
# Varnish.Http.Vary — the Vary matching string (`cache_vary.c`)

A string has one entry for each name in the `Vary` header: the name as `http_GetHdr` takes it, two bytes of length or the mark for
"not present", and the value.

* `vryCreate`, `vryMatch`: the two functions.  A failed assertion, and a read behind the end of the string, is `none`.
* `vryLoop_spell`: what is made of a list of names.
* `vryMatch_entries`: what is found in it again.
* `vryMatch_vryCreate`: a request matches if and only if it has the same headers.
-/

namespace Varnish.Http

open Varnish.Ban

/-! ## The functions -/

section Functions

/-- Without white space at both ends. -/
def strip (h : Str) : Str := ((h.dropWhile Lib.isspace).reverse.dropWhile Lib.isspace).reverse

/-- `http_GetHdr` with the header name as it stands in a string: its length and the colon counted, the name, the colon and a NUL.
The outer `none` is a failed assertion. -/
def httpGetHdrAt (hp : Http) : Str → Option (Option Str)
  | [] => none
  | c :: t =>
    let l := c.toNat
    -- `hdr[0]` is a `char`, and is not negative
    if l < 128 && decide ((t.takeWhile (· ≠ '\x00')).length = l) && t[l]? == some '\x00' && (c :: t)[l]? == some ':' then
      some (httpGetHdr hp (t.take (l - 1)))
    else none

/-- The name of a header, as `VRY_Create` puts it in front of the value. -/
def hdrName (name : Str) : Str := Char.ofNat ((1 + name.length) % 256) :: name ++ [':', '\x00']

/-- The length and the bytes of the value, or "not present". -/
def hdrValue : Option Str → Option Str
  | none => some [Char.ofNat 0xff, Char.ofNat 0xff]
  | some h =>
    let l := (strip h).length
    if l < 0x10000 then some (Char.ofNat (l / 256) :: Char.ofNat (l % 256) :: strip h) else none

/-- The loop of `VRY_Create` over the value of the `Vary` header. -/
def vryLoop (hp : Http) : (fuel : ℕ) → Str → Option Str
  | 0, _ => none
  | _ + 1, [] => some []
  | fuel + 1, c :: t =>
    if Lib.isspace c then vryLoop hp fuel t
    else do
      let name := (c :: t).takeWhile fun c => !Lib.isspace c && c ≠ ','
      let h ← httpGetHdrAt hp (hdrName name)
      let value ← hdrValue h
      match ((c :: t).drop name.length).dropWhile Lib.isspace with
      | [] => some (hdrName name ++ value)
      | q :: t' =>
        if q = ',' then do
          let rest ← vryLoop hp fuel t'
          some (hdrName name ++ value ++ rest)
        else none

/-- The name of the `Vary` header. -/
def hVary : Str := "Vary".toList

/-- `VRY_Create`; the inner `none` is a response without a `Vary` header. -/
def vryCreate (req resp : Http) : Option (Option Str) :=
  match httpGetHdr resp hVary with
  | none => some none
  | some v => (vryLoop req (v.length + 1) v).map fun s => some (s ++ ['\x00'])

/-- The loop of `VRY_Match`. -/
def vryMatchLoop (hp : Http) : (fuel : ℕ) → Str → Option Bool
  | 0, _ => none
  | _ + 1, [] => none
  | fuel + 1, c :: t =>
    if c = '\x00' then some true
    else do
      let i ← httpGetHdrAt hp (c :: t)
      match t.drop (c.toNat + 1) with
      | a :: b :: rest =>
        let l := a.toNat * 256 + b.toNat
        match i with
        | none => if l ≠ 0xffff then some false else vryMatchLoop hp fuel rest
        | some h =>
          if l = 0xffff then some false
          else if (strip h).length ≠ l then some false
          else if rest.length < l then none
          else if strip h ≠ rest.take l then some false
          else vryMatchLoop hp fuel (rest.drop l)
      | _ => none

/-- `VRY_Match` -/
def vryMatch (hp : Http) (vary : Str) : Option Bool := vryMatchLoop hp vary.length vary

end Functions

/-! ## Names -/

section Names

variable {name rest : Str} {hp : Http}

/-- The name of a header in a `Vary` header. -/
structure IsName (name : Str) : Prop where
  ne : name ≠ []
  len : name.length ≤ 125
  chars : ∀ c ∈ name, Lib.isspace c = false ∧ c ≠ ',' ∧ c ≠ '\x00'

theorem toNat_ofNat {n : ℕ} (h : n < 256) : (Char.ofNat n).toNat = n := by
  have hv : n.isValidChar := .inl (by omega)
  rw [Char.ofNat, dif_pos hv]
  rfl

theorem IsName.head (h : IsName name) : (Char.ofNat ((1 + name.length) % 256)).toNat = 1 + name.length := by
  have := h.len
  rw [Nat.mod_eq_of_lt (by omega), toNat_ofNat (by omega)]

/-- The name is read again, whatever is behind it. -/
theorem httpGetHdrAt_hdrName (hp : Http) (h : IsName name) (rest : Str) :
    httpGetHdrAt hp (hdrName name ++ rest) = some (httpGetHdr hp name) := by
  have hlen := h.len
  have hcons : hdrName name ++ rest = Char.ofNat ((1 + name.length) % 256) :: (name ++ ':' :: '\x00' :: rest) := by
    simp [hdrName]
  have htake : (name ++ ':' :: '\x00' :: rest).takeWhile (· ≠ '\x00') = name ++ [':'] := by
    rw [List.takeWhile_append_of_pos fun c hc => by simpa using (h.chars c hc).2.2]
    rfl
  have hnul : (name ++ ':' :: '\x00' :: rest)[1 + name.length]? = some '\x00' := by
    rw [List.getElem?_append_right (by omega)]
    simp
  have hcolon : (Char.ofNat ((1 + name.length) % 256) :: (name ++ ':' :: '\x00' :: rest))[1 + name.length]? = some ':' := by
    rw [Nat.add_comm, List.getElem?_cons_succ, List.getElem?_append_right (Nat.le_refl _)]
    simp
  rw [hcons, httpGetHdrAt]
  simp only [h.head, htake, hnul, hcolon]
  rw [if_pos (by simp; omega), Nat.add_sub_cancel_left, List.take_left]

/-- Behind the name. -/
theorem drop_hdrName (h : IsName name) (rest : Str) :
    (name ++ ':' :: '\x00' :: rest).drop ((Char.ofNat ((1 + name.length) % 256)).toNat + 1) = rest := by
  rw [h.head, List.drop_append, List.drop_of_length_le (by omega)]
  simp [show 1 + name.length + 1 - name.length = 2 by omega]

end Names

/-! ## Values -/

section Values

variable {hp : Http} {h h' : Option Str} {name rest value : Str}

/-- The lengths that a value can have. -/
def Fits (h : Option Str) : Prop := ∀ w, h = some w → (strip w).length < 65535

theorem hdrValue_spec (hf : Fits h) : ∃ a b, hdrValue h = some (a :: b :: (h.map strip).getD []) ∧
    a.toNat * 256 + b.toNat = (h.map fun w => (strip w).length).getD 0xffff := by
  cases h with
  | none => exact ⟨_, _, rfl, by decide⟩
  | some w =>
    have hlt := hf w rfl
    refine ⟨Char.ofNat ((strip w).length / 256), Char.ofNat ((strip w).length % 256), ?_, ?_⟩
    · rw [hdrValue, if_pos (by omega)]
      rfl
    · rw [toNat_ofNat (by omega), toNat_ofNat (by omega)]
      show _ = (strip w).length
      omega

/-- **One entry** of the string: the loop goes on behind it if the header has the same value, and stops if it has not. -/
theorem vryMatchLoop_entry (hn : IsName name) (hf : Fits h) (hv : hdrValue h = some value) (fuel : ℕ) :
    vryMatchLoop hp (fuel + 1) (hdrName name ++ value ++ rest) =
      if (httpGetHdr hp name).map strip = h.map strip then vryMatchLoop hp fuel rest else some false := by
  obtain ⟨a, b, hv', hl⟩ := hdrValue_spec hf
  obtain rfl := Option.some.inj (hv.symm.trans hv')
  have hcons : hdrName name ++ (a :: b :: (h.map strip).getD []) ++ rest =
      Char.ofNat ((1 + name.length) % 256) :: (name ++ ':' :: '\x00' :: (a :: b :: ((h.map strip).getD [] ++ rest))) := by
    simp [hdrName]
  have hget := httpGetHdrAt_hdrName hp hn (a :: b :: ((h.map strip).getD [] ++ rest))
  rw [show hdrName name ++ (a :: b :: ((h.map strip).getD [] ++ rest)) =
    Char.ofNat ((1 + name.length) % 256) :: (name ++ ':' :: '\x00' :: (a :: b :: ((h.map strip).getD [] ++ rest))) by
      simp [hdrName]] at hget
  have h0 : Char.ofNat ((1 + name.length) % 256) ≠ '\x00' := by
    intro he
    have := congrArg Char.toNat he
    rw [hn.head] at this
    exact absurd this (by simp)
  rw [hcons, vryMatchLoop, if_neg h0, hget, drop_hdrName hn]
  simp only [Option.bind_eq_bind, Option.bind_some, hl]
  cases hi : httpGetHdr hp name with
  | none =>
    cases h with
    | none => simp
    | some w =>
      have := hf w rfl
      simp
      omega
  | some g =>
    cases h with
    | none => simp
    | some w =>
      have hlt := hf w rfl
      simp only [Option.map_some, Option.getD_some, Option.some.injEq]
      have hroom : ¬ (strip w ++ rest).length < (strip w).length := by
        rw [List.length_append]
        omega
      rw [if_neg (by omega : ¬ (strip w).length = 65535), List.take_left, List.drop_left, if_neg hroom]
      by_cases hg : strip g = strip w
      · rw [if_neg (not_not_intro (congrArg List.length hg)), if_neg (not_not_intro hg), if_pos hg]
      · rw [if_neg hg, if_pos hg]
        exact ite_self _

end Values

/-! ## Lists of names -/

section Lists

variable {hp : Http}

/-- A name in the list, with the white space around it. -/
structure Item where
  pre : Str
  name : Str
  post : Str

structure Item.Ok (i : Item) : Prop where
  pre : ∀ c ∈ i.pre, Lib.isspace c = true
  name : IsName i.name
  post : ∀ c ∈ i.post, Lib.isspace c = true

/-- The value of the `Vary` header. -/
def spell : List Item → Str
  | [] => []
  | [i] => i.pre ++ i.name ++ i.post
  | i :: is => i.pre ++ i.name ++ i.post ++ ',' :: spell is

/-- The entry of a name. -/
def entry (hp : Http) (name : Str) : Str := hdrName name ++ (hdrValue (httpGetHdr hp name)).getD []

theorem vryLoop_blank {w : Str} (h : ∀ c ∈ w, Lib.isspace c = true) (fuel : ℕ) (t : Str) :
    vryLoop hp (w.length + fuel) (w ++ t) = vryLoop hp fuel t := by
  induction w with
  | nil => simp
  | cons c w ih =>
    rw [List.length_cons, Nat.add_right_comm, List.cons_append, vryLoop, if_pos (h c List.mem_cons_self)]
    exact ih fun d hd => h d (List.mem_cons_of_mem _ hd)

theorem dropWhile_blank {w t : Str} (h : ∀ c ∈ w, Lib.isspace c = true) (ht : ∀ c t', t = c :: t' → Lib.isspace c = false) :
    (w ++ t).dropWhile Lib.isspace = t := by
  rw [List.dropWhile_append_of_pos h]
  cases t with
  | nil => rfl
  | cons c t => exact List.dropWhile_cons_of_neg (by simp [ht c t rfl])

/-- One name of the list, up to the comma or the end. -/
theorem vryLoop_name {name post t : Str} (hn : IsName name) (hp' : ∀ c ∈ post, Lib.isspace c = true)
    (ht : t = [] ∨ ∃ t', t = ',' :: t') (hf : Fits (httpGetHdr hp name)) (fuel : ℕ) :
    vryLoop hp (fuel + 1) (name ++ (post ++ t)) =
      if t = [] then some (entry hp name) else (vryLoop hp fuel t.tail).map (entry hp name ++ ·) := by
  obtain ⟨c, w, rfl⟩ := List.exists_cons_of_ne_nil hn.ne
  have hc := hn.chars c List.mem_cons_self
  have hstop : ∀ d t', post ++ t = d :: t' → (!Lib.isspace d && decide (d ≠ ',')) = false := by
    intro d t' he
    cases post with
    | nil =>
      rcases ht with rfl | ⟨u, rfl⟩
      · cases he
      · cases he
        rfl
    | cons e post =>
      obtain ⟨rfl, -⟩ := List.cons.inj he
      rw [hp' e List.mem_cons_self]
      rfl
  have htake : (c :: w ++ (post ++ t)).takeWhile (fun c => !Lib.isspace c && c ≠ ',') = c :: w := by
    rw [List.takeWhile_append_of_pos fun d hd => by simp [hn.chars d hd]]
    cases hpt : post ++ t with
    | nil => simp
    | cons d u => rw [List.takeWhile_cons_of_neg (by rw [hstop d u hpt]; decide), List.append_nil]
  have hdrop : ((c :: w ++ (post ++ t)).drop (c :: w).length).dropWhile Lib.isspace = t := by
    rw [List.drop_left]
    refine dropWhile_blank hp' ?_
    rintro d u rfl
    rcases ht with h | ⟨t', h⟩
    · cases h
    · cases h
      rfl
  obtain ⟨a, b, hv, -⟩ := hdrValue_spec hf
  have hget : httpGetHdrAt hp (hdrName (c :: w)) = some (httpGetHdr hp (c :: w)) := by
    have := httpGetHdrAt_hdrName hp hn []
    rwa [List.append_nil] at this
  have hentry : hdrName (c :: w) ++ (a :: b :: ((httpGetHdr hp (c :: w)).map strip).getD []) = entry hp (c :: w) := by
    rw [entry, hv]
    rfl
  rw [List.cons_append] at htake hdrop ⊢
  rw [vryLoop, if_neg (by simp [hc.1])]
  simp only [htake, hdrop, hget, hv, Option.bind_eq_bind, Option.bind_some]
  rcases ht with rfl | ⟨t', rfl⟩
  · simp only [if_pos, hentry]
  · simp only [if_true, hentry, if_neg (List.cons_ne_nil _ _), List.tail_cons]
    cases vryLoop hp fuel t' <;> rfl

/-- **The loop of `VRY_Create`** makes an entry of each name in the list. -/
theorem vryLoop_spell {is : List Item} (hok : ∀ i ∈ is, i.Ok) (hf : ∀ i ∈ is, Fits (httpGetHdr hp i.name)) {fuel : ℕ}
    (hfuel : (spell is).length < fuel) : vryLoop hp fuel (spell is) = some (is.flatMap fun i => entry hp i.name) := by
  induction is generalizing fuel with
  | nil =>
    obtain ⟨fuel, rfl⟩ := Nat.exists_eq_add_of_lt hfuel
    rfl
  | cons i is ih =>
    have hi := hok i List.mem_cons_self
    have hfi := hf i List.mem_cons_self
    have hsplit : ∃ t, spell (i :: is) = i.pre ++ (i.name ++ (i.post ++ t)) ∧ (t = [] ∧ is = [] ∨ t = ',' :: spell is ∧ is ≠ []) := by
      cases is with
      | nil => exact ⟨[], by simp [spell], .inl ⟨rfl, rfl⟩⟩
      | cons j is => exact ⟨',' :: spell (j :: is), by simp [spell], .inr ⟨rfl, List.cons_ne_nil _ _⟩⟩
    obtain ⟨t, ht, hcase⟩ := hsplit
    rw [ht, List.length_append, List.length_append, List.length_append] at hfuel
    obtain ⟨f, rfl⟩ : ∃ f, fuel = i.pre.length + (f + 1) := ⟨fuel - i.pre.length - 1, by omega⟩
    rw [ht, vryLoop_blank hi.pre, List.flatMap_cons]
    rcases hcase with ⟨rfl, rfl⟩ | ⟨rfl, -⟩
    · rw [vryLoop_name hi.name hi.post (.inl rfl) hfi, if_pos rfl]
      simp
    · rw [vryLoop_name hi.name hi.post (.inr ⟨_, rfl⟩) hfi, if_neg (List.cons_ne_nil _ _), List.tail_cons,
        ih (fun j hj => hok j (List.mem_cons_of_mem _ hj)) (fun j hj => hf j (List.mem_cons_of_mem _ hj))
          (by simp only [List.length_cons] at hfuel; omega)]
      rfl

/-- The header has the same value in both requests, or none in both. -/
def SameHdr (req req' : Http) (name : Str) : Prop := (httpGetHdr req' name).map strip = (httpGetHdr req name).map strip

instance (req req' : Http) (name : Str) : Decidable (SameHdr req req' name) :=
  inferInstanceAs (Decidable ((httpGetHdr req' name).map strip = (httpGetHdr req name).map strip))

/-- **The loop of `VRY_Match`** on the entries of another request: it compares them all, and does not read behind the last. -/
theorem vryMatchLoop_entries {req req' : Http} {is : List Item} (hok : ∀ i ∈ is, i.Ok)
    (hf : ∀ i ∈ is, Fits (httpGetHdr req i.name)) {fuel : ℕ} (hfuel : is.length < fuel) :
    vryMatchLoop req' fuel ((is.flatMap fun i => entry req i.name) ++ ['\x00']) =
      some (decide (∀ i ∈ is, SameHdr req req' i.name)) := by
  induction is generalizing fuel with
  | nil =>
    obtain ⟨fuel, rfl⟩ := Nat.exists_eq_add_of_lt hfuel
    simp [vryMatchLoop]
  | cons i is ih =>
    rw [List.length_cons] at hfuel
    obtain ⟨f, rfl⟩ : ∃ f, fuel = f + 1 := ⟨fuel - 1, by omega⟩
    obtain ⟨a, b, hv, -⟩ := hdrValue_spec (hf i List.mem_cons_self)
    have hentry : entry req i.name = hdrName i.name ++ (a :: b :: ((httpGetHdr req i.name).map strip).getD []) := by
      rw [entry, hv]
      rfl
    rw [List.flatMap_cons, List.append_assoc, hentry,
      vryMatchLoop_entry (hok i List.mem_cons_self).name (hf i List.mem_cons_self) hv,
      ih (fun j hj => hok j (List.mem_cons_of_mem _ hj)) (fun j hj => hf j (List.mem_cons_of_mem _ hj)) (by omega)]
    by_cases hs : (httpGetHdr req' i.name).map strip = (httpGetHdr req i.name).map strip
    · rw [if_pos hs]
      simp [show SameHdr req req' i.name from hs]
    · rw [if_neg hs]
      simp [show ¬ SameHdr req req' i.name from hs]

theorem length_entries {is : List Item} : is.length ≤ (is.flatMap fun i => entry hp i.name).length := by
  induction is with
  | nil => exact Nat.le_refl _
  | cons i is ih =>
    rw [List.flatMap_cons, List.length_append, List.length_cons]
    have : 1 ≤ (entry hp i.name).length := by simp [entry, hdrName]
    omega

theorem length_strip_le (h : Str) : (strip h).length ≤ h.length := by
  rw [strip, List.length_reverse]
  refine Nat.le_trans (List.dropWhile_sublist _).length_le ?_
  rw [List.length_reverse]
  exact (List.dropWhile_sublist _).length_le

/-- A value is not longer than its line. -/
theorem length_httpGetHdr {name w : Str} (h : httpGetHdr hp name = some w) : ∃ b, some b ∈ hp.hd ∧ w.length ≤ b.length := by
  obtain ⟨b, hb, rfl⟩ := Option.map_eq_some_iff.mp h
  obtain ⟨l, hl, hlb⟩ := List.exists_of_findSome?_eq_some hb
  rw [Option.filter_eq_some_iff] at hlb
  refine ⟨b, hlb.1 ▸ hl, ?_⟩
  exact Nat.le_trans (List.dropWhile_sublist _).length_le (List.drop_sublist _ _).length_le

/-- **Vary matching**: for a `Vary` header that is a list of names, `VRY_Create` makes a string of any request with values shorter
than 65535 bytes, and `VRY_Match` with another request returns 1 if and only if each header of the list is absent in both requests
or has the same value in both, without reading behind the end of the string. -/
theorem vryMatch_vryCreate {req req' resp : Http} {is : List Item} (hv : httpGetHdr resp hVary = some (spell is))
    (hok : ∀ i ∈ is, i.Ok) (hlen : ∀ name w, httpGetHdr req name = some w → w.length < 65535) :
    ∃ vary, vryCreate req resp = some (some vary) ∧
      vryMatch req' vary = some (decide (∀ i ∈ is, SameHdr req req' i.name)) := by
  have hf : ∀ i ∈ is, Fits (httpGetHdr req i.name) := fun i _ w hw => Nat.lt_of_le_of_lt (length_strip_le w) (hlen _ w hw)
  refine ⟨(is.flatMap fun i => entry req i.name) ++ ['\x00'], ?_, ?_⟩
  · rw [vryCreate, hv]
    simp only
    rw [vryLoop_spell hok hf (Nat.lt_succ_self _)]
    rfl
  · rw [vryMatch, vryMatchLoop_entries hok hf]
    rw [List.length_append]
    exact Nat.lt_succ_of_le length_entries

/-! A response that varies on two headers, and two requests. -/

def varyResp : Http := ⟨none, [some "Server: x".toList, some "Vary: Accept-Encoding , cookie".toList]⟩

def gzipReq : Http := ⟨none, [some "accept-encoding:  gzip ".toList]⟩

def gzipReq' : Http := ⟨none, [some "Host: a".toList, some "Accept-Encoding: gzip".toList]⟩

def varyItems : List Item := [⟨[], "Accept-Encoding".toList, " ".toList⟩, ⟨" ".toList, "cookie".toList, []⟩]

theorem vryMatch_vryCreate_gzip : ∃ vary, vryCreate gzipReq varyResp = some (some vary) ∧ vryMatch gzipReq' vary = some true := by
  have hchars : ∀ i ∈ varyItems, i.pre.all Lib.isspace = true ∧ (i.name ≠ [] ∧ i.name.length ≤ 125 ∧
      i.name.all (fun c => !Lib.isspace c && (c != ',' && c != '\x00')) = true) ∧ i.post.all Lib.isspace = true := by
    decide +kernel
  have hok : ∀ i ∈ varyItems, i.Ok := by
    intro i hi
    obtain ⟨hpre, ⟨hne, hlen, hname⟩, hpost⟩ := hchars i hi
    refine ⟨List.all_eq_true.mp hpre, ⟨hne, hlen, fun c hc => ?_⟩, List.all_eq_true.mp hpost⟩
    have hall := List.all_eq_true.mp hname c hc
    simpa using hall
  have hlines : ∀ b ∈ gzipReq.hd, ∀ w ∈ b, w.length < 65535 := by decide +kernel
  have hlen : ∀ name w, httpGetHdr gzipReq name = some w → w.length < 65535 := by
    intro name w h
    obtain ⟨b, hb, hle⟩ := length_httpGetHdr h
    exact Nat.lt_of_le_of_lt hle (hlines _ hb b rfl)
  obtain ⟨vary, hc, hm⟩ := vryMatch_vryCreate 
    (show httpGetHdr varyResp hVary = some (spell varyItems) by decide +kernel) hok hlen
  refine ⟨vary, hc, hm.trans ?_⟩
  decide +kernel

end Lists

end Varnish.Http
