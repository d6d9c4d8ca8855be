import Varnish.Esi.Include

/-!
# Varnish.Esi.Agree — the parser against the items of the body

* `Torn`, `gap`: a marker that a segment boundary separates from the byte behind it.
* `Sound`: an item that makes no assertion fail.  `Single`: no second `src`.
* `Track`: what holds in front of an item.  `Settled`: it does right behind `esi_addpfx`.
* `mainStep_spec`: one turn of the main loop.  `parseBody_spec`: all of them.
-/

namespace Varnish.Esi

open Varnish.Lib

/-! ## Conditions on an item -/

section Conditions

variable (env : Env) (st : Store)

/-- The marker behind `n` bytes starts in another segment than the one of the byte behind it. -/
def Torn (n : ℕ) : Prop := (st.pos (n + 7)).st ≠ (st.pos n).st

instance (n : ℕ) : Decidable (Torn st n) := inferInstanceAs (Decidable (_ ≠ _))

/-- How far the end of the segment is from the byte behind the marker, as an `unsigned`. -/
def gap (n : ℕ) : ℕ := pdiff (st.pos (n + 7)).p (st.pos n).e

/-- The byte behind an element, where `ew->tag` has it. -/
def nextByte (n k : ℕ) : UInt8 :=
  if (st.pos (n + k)).st = (st.pos n).st then env.mem (st.pos (n + k)).p else env.wsO (n + k + 1)

/-- The byte behind the one that ends the attributes. -/
def behindFin (n : ℕ) (bs : List UInt8) : UInt8 := if tagEmpty bs then 62 else nextByte env st n bs.length

/-- A closing element without a name. -/
def Nameless (closing : Bool) (bs : List UInt8) : Prop := closing = true ∧ (bs = ascii "</esi>" ∨ bs = ascii "</esi/>")

instance (closing : Bool) (bs : List UInt8) : Decidable (Nameless closing bs) := inferInstanceAs (Decidable (_ ∧ _))

/-- The item makes no assertion fail. -/
def Sound (x : Met) : Prop :=
  match x.item with
  | .opn => x.inc = false ∧ (x.rem = false → Torn st x.n → gap st x.n ≠ 0)
  | .tag closing bs => ¬ Nameless closing bs ∧
      (isInclude x.rem closing bs = true →
        Reads env (x.n + bs.length + 1) (behindFin env st x.n bs) (inclAttribs closing bs))
  | _ => True

/-- No include element has a second `src` with a value. -/
def Single (x : Met) : Prop :=
  match x.item with
  | .tag closing bs => isInclude x.rem closing bs = true → (srcs (inclAttribs closing bs).1).length ≤ 1
  | _ => True

/-- A torn marker, outside of `esi:remove`. -/
def Cut (x : Met) : Prop := x.item = .opn ∧ x.rem = false ∧ Torn st x.n

instance (x : Met) : Decidable (Cut st x) := inferInstanceAs (Decidable (_ ∧ _))

end Conditions

/-! ## What is put out -/

section Texts

/-- The bytes that are sent as they are. -/
def texts (o : Out) : ℕ := o.countP Sum.isLeft

@[simp] theorem texts_append (a b : Out) : texts (a ++ b) = texts a + texts b := List.countP_append

@[simp] theorem texts_verb (bs : List UInt8) : texts (verb bs) = bs.length := by
  unfold texts verb
  rw [List.countP_map, List.countP_eq_length]
  exact fun _ _ => rfl

/-- The output is right, or if `cut` too long. -/
structure Rel (cut : Prop) (a b : Out) : Prop where
  same : ¬ cut → a = b
  longer : cut → texts b < texts a

variable {cut : Prop} {a b : Out}

theorem Rel.append (h : Rel cut a b) (c : Out) : Rel cut (a ++ c) (b ++ c) :=
  ⟨fun hc => by rw [h.same hc], fun hc => by have := h.longer hc; simp only [texts_append]; omega⟩

theorem Rel.le (h : Rel cut a b) : texts b ≤ texts a := by
  by_cases hc : cut
  · exact (h.longer hc).le
  · rw [h.same hc]

end Texts

/-! ## The state in front of an item -/

section Track

variable (env : Env) (st : Store)

/-- The space is what the bits take, and more if a `src` was counted twice. -/
structure Acct (w : Work) (dbl : Prop) : Prop where
  host : ∀ b ∈ w.bits, b.incl = none → b.host = none
  space : ∃ e, w.space = takes w.bits + e ∧ (e = 0 ↔ ¬ dbl)

/-- `s` is set between two segments: its address is the one behind the marker at `q`, its segment the one of `q`. -/
structure TornAt (w : Work) (q r : List UInt8) : Prop where
  suf : q <:+ st.body env
  le : r <:+ q.drop 7
  ne : (st.ptr env (q.drop 7)).st ≠ (st.ptr env q).st
  s : w.s = { st.ptr env q with p := (st.ptr env (q.drop 7)).p }

/-- What is not recorded yet. -/
inductive Pend (w : Work) (r : List UInt8) (rem : Bool) (out : Out) (cut : Prop) : Prop
  | removed (hrem : rem = true) (h : Rel cut (outOf env.mem w.bits) out)
  | clean (hrem : rem = false) (q : List UInt8) (hq : q <:+ st.body env) (hr : r <:+ q) (hs : w.s = st.ptr env q)
      (h : Rel cut (outOf env.mem w.bits ++ verb (upTo q r)) out)
  | torn (hrem : rem = false) (hcut : cut) (q : List UInt8) (ht : TornAt env st w q r) (hlen : 7 ≤ q.length)
      (hgap : pdiff (st.ptr env (q.drop 7)).p (st.ptr env q).e ≠ 0)
      (h : texts out ≤ texts (outOf env.mem w.bits) + (q.length - 7 - r.length))

/-- What holds with `r` left of the body, where `out` is what is to be put out so far. -/
structure Track (w : Work) (r : List UInt8) (rem inc : Bool) (out : Out) (cut dbl : Prop) : Prop where
  suf : r <:+ st.body env
  remflg : w.remflg = rem
  incmt : w.incmt = inc
  acct : Acct w dbl
  pend : Pend env st w r rem out cut

/-- All is recorded. -/
structure Settled (w : Work) (r : List UInt8) (rem inc : Bool) (out : Out) (cut dbl : Prop) : Prop where
  suf : r <:+ st.body env
  remflg : w.remflg = rem
  incmt : w.incmt = inc
  acct : Acct w dbl
  s : w.s = st.ptr env r
  rel : Rel cut (outOf env.mem w.bits) out

variable {env st} {w : Work} {r r' q : List UInt8} {rem inc : Bool} {out : Out} {cut dbl : Prop}

theorem upTo_self (r : List UInt8) : upTo r r = [] := by simp [upTo]

theorem upTo_trans (hr : r <:+ q) (hr' : r' <:+ r) : upTo q r' = upTo q r ++ upTo r r' := by
  refine (List.append_left_inj r').1 ?_
  rw [upTo_append (hr'.trans hr), List.append_assoc, upTo_append hr', upTo_append hr]

theorem Settled.track (h : Settled env st w r rem inc out cut dbl) : Track env st w r rem inc out cut dbl := by
  refine ⟨h.suf, h.remflg, h.incmt, h.acct, ?_⟩
  cases rem with
  | true => exact .removed rfl h.rel
  | false =>
    refine .clean rfl r h.suf (List.suffix_refl r) h.s ?_
    rw [upTo_self, verb_nil, List.append_nil]
    exact h.rel

theorem TornAt.mono (h : TornAt env st w q r) (hr : r' <:+ r) : TornAt env st w q r' := ⟨h.suf, hr.trans h.le, h.ne, h.s⟩

/-- Text is passed. -/
theorem Track.text (h : Track env st w r rem inc out cut dbl) (hr : r' <:+ r) :
    Track env st w r' rem inc (out ++ if rem then [] else verb (upTo r r')) cut dbl := by
  refine ⟨hr.trans h.suf, h.remflg, h.incmt, h.acct, ?_⟩
  cases h.pend with
  | removed hrem hrel =>
    refine .removed hrem ?_
    rw [if_pos hrem, List.append_nil]
    exact hrel
  | clean hrem q hq hrq hs hrel =>
    refine .clean hrem q hq (hr.trans hrq) hs ?_
    rw [if_neg (by rw [hrem]; exact Bool.false_ne_true), upTo_trans hrq hr, verb_append, ← List.append_assoc]
    exact hrel.append _
  | torn hrem hcut q ht hlen hgap hle =>
    refine .torn hrem hcut q (ht.mono hr) hlen hgap ?_
    have h1 := ht.le.length_le
    have h2 := hr.length_le
    rw [List.length_drop] at h1
    rw [if_neg (by rw [hrem]; exact Bool.false_ne_true), texts_append, texts_verb, length_upTo hr]
    omega

/-- Farther on, the segment does not come back. -/
theorem TornAt.ptr_ne (h : TornAt env st w q r) : (st.ptr env r).st ≠ (st.ptr env q).st := by
  intro heq
  have hq7 := suffix_dropn h.suf 7
  have h1 := (st.ptr env q).adv_suffix (q.length - (q.drop 7).length)
  have h2 := (st.ptr env (q.drop 7)).adv_suffix ((q.drop 7).length - r.length)
  rw [← st.ptr_adv h.suf (List.drop_suffix 7 q)] at h1
  rw [← st.ptr_adv hq7 h.le, heq] at h2
  exact h.ne (h1.eq_of_length_le h2.length_le)

theorem Acct.adds (h : Acct w dbl) (vs : List (ℕ × ℕ)) : Acct (w.adds vs) dbl := by
  constructor
  · intro b hb hnone
    rcases List.mem_append.1 hb with hb | hb
    · obtain ⟨v, -, rfl⟩ := List.mem_map.1 hb
      rfl
    · exact h.host b hb hnone
  · obtain ⟨e, he, hiff⟩ := h.space
    refine ⟨e, ?_, hiff⟩
    show w.space + vs.length * sizeofBit = takes (vs.map Bit.text ++ w.bits) + e
    rw [takes_text, he]
    omega

/-- `esi_addpfx` records what is pending. -/
theorem Track.flush (h : Track env st w r rem inc out cut dbl) :
    ∃ w', esiAddpfx (w.on env st r) = some (w'.on env st r) ∧ Settled env st w' r rem inc out cut dbl := by
  cases h.pend with
  | removed hrem hrel =>
    exact ⟨{ w with s := st.ptr env r }, esiAddpfx_rem (h.remflg.trans hrem), h.suf, h.remflg, h.incmt, ⟨h.acct.host, h.acct.space⟩,
      rfl, hrel⟩
  | clean hrem q hq hrq hs hrel =>
    obtain ⟨vs, h1, h2⟩ := esiAddpfx_clean (h.remflg.trans hrem) hq hrq hs
    refine ⟨{ w.adds vs with s := st.ptr env r }, h1, h.suf, h.remflg, h.incmt, ⟨(h.acct.adds vs).host, (h.acct.adds vs).space⟩, rfl, ?_⟩
    show Rel cut (outOf env.mem (vs.map Bit.text ++ w.bits)) out
    rw [outOf_text, h2]
    exact hrel
  | torn hrem hcut q ht hlen hgap hle =>
    have hr7 := ht.le.length_le
    rw [List.length_drop] at hr7
    obtain ⟨vs, h1, h2⟩ := (esiAddpfx_torn (h.remflg.trans hrem) ht.suf (ht.le.trans (List.drop_suffix 7 q)) ht.s ht.ptr_ne).2 hgap
    refine ⟨{ w.adds vs with s := st.ptr env r }, h1, h.suf, h.remflg, h.incmt, ⟨(h.acct.adds vs).host, (h.acct.adds vs).space⟩, rfl,
      fun hc => absurd hcut hc, fun _ => ?_⟩
    show texts out < texts (outOf env.mem (vs.map Bit.text ++ w.bits))
    rw [outOf_text, texts_append, texts_verb]
    -- the segment of `q` ends within the marker
    have hseg : (st.ptr env q).e - (st.ptr env q).p ≤ 7 := by
      have := Cursor.adv_other (c := st.ptr env q) (d := q.length - (q.drop 7).length)
        (by rw [← st.ptr_adv ht.suf (List.drop_suffix 7 q)]; exact ht.ne)
      rw [List.length_drop] at this
      omega
    omega

/-- `esi_addpfx` will fail. -/
def Doomed (env : Env) (st : Store) (w : Work) (r : List UInt8) : Prop :=
  w.remflg = false ∧ ∃ q, TornAt env st w q r ∧ pdiff (st.ptr env (q.drop 7)).p (st.ptr env q).e = 0

theorem Doomed.flush (h : Doomed env st w r) : esiAddpfx (w.on env st r) = none := by
  obtain ⟨hrem, q, ht, hgap⟩ := h
  exact (esiAddpfx_torn hrem ht.suf (ht.le.trans (List.drop_suffix 7 q)) ht.s ht.ptr_ne).1 hgap

theorem Doomed.mono (h : Doomed env st w r) (hr : r' <:+ r) : Doomed env st w r' := by
  obtain ⟨hrem, q, ht, hgap⟩ := h
  exact ⟨hrem, q, ht.mono hr, hgap⟩

end Track

/-! ## Include elements -/

section Includes

variable {env : Env} {w : Work} {out : Out} {cut dbl : Prop} {fin nx : UInt8} {t : List UInt8}

/-- The bit that an include goes to has none yet. -/
structure Fresh (env : Env) (w w₁ : Work) (eb : Bit) (bits : List Bit) : Prop where
  eq : w₁ = { w with bits := eb :: bits, space := w₁.space }
  incl : eb.incl = none
  host : eb.host = none
  out : outOf env.mem (eb :: bits) = outOf env.mem w.bits

/-- `esi_handle_include` behind its first lines. -/
def setBit (env : Env) (w : Work) (fin nx : UInt8) (t : List UInt8) : Option Work :=
  match w.bits with
  | [] => none
  | eb :: bits =>
    (includeLoop env w.off fin nx (t.length + 1) t false eb.host eb.incl w.space).bind fun r =>
      some { w with bits := { eb with host := r.1, incl := r.2.1 } :: bits, space := r.2.2 }

theorem Acct.addNull (h : Acct w dbl) : Acct (esiAddbitNull w) dbl := by
  constructor
  · intro b hb hnone
    rcases List.mem_cons.1 hb with rfl | hb
    · rfl
    · exact h.host b hb hnone
  · obtain ⟨e, he, hiff⟩ := h.space
    refine ⟨e, ?_, hiff⟩
    show w.space + sizeofBit = takes w.bits + sizeofBit + e
    omega

theorem fresh_exists (env : Env) (fin nx : UInt8) (t : List UInt8) (h : Acct w dbl) :
    ∃ w₁ eb bits, esiHandleInclude env w fin nx t = setBit env w₁ fin nx t ∧ Fresh env w w₁ eb bits ∧ Acct w₁ dbl := by
  have hnull : Fresh env w (esiAddbitNull w) ⟨w.s.p, 0, none, none⟩ w.bits :=
    ⟨rfl, rfl, rfl, by rw [outOf]; exact List.append_nil _⟩
  cases hb : w.bits with
  | nil =>
    refine ⟨esiAddbitNull w, _, _, ?_, hnull, h.addNull⟩
    unfold esiHandleInclude
    rw [hb]
    rfl
  | cons eb bits =>
    by_cases hi : eb.incl.isSome = true
    · refine ⟨esiAddbitNull w, _, _, ?_, hnull, h.addNull⟩
      unfold esiHandleInclude
      rw [hb]
      simp only [if_pos hi]
      rfl
    · have hnone : eb.incl = none := by simpa using hi
      refine ⟨w, eb, bits, ?_, ⟨by rw [← hb], hnone, h.host eb (hb ▸ List.mem_cons_self) hnone, by rw [hb]⟩, h⟩
      unfold esiHandleInclude
      rw [hb]
      simp only [if_neg hi]
      rfl

theorem foldl_set_none (url : List UInt8) (as : List Attr) (s : Loop) (h : (as.foldl (Loop.set url) s).2.1 = none) : as = [] := by
  induction as generalizing s with
  | nil => rfl
  | cons a as ih =>
    have has := ih _ h
    subst has
    cases h

/-- The bit that an include goes to is complete, and is accounted for. -/
theorem handleInclude_spec (env : Env) (fin nx : UInt8) (t : List UInt8) (hacct : Acct w dbl) (hrel : Rel cut (outOf env.mem w.bits) out) :
    (Reads env w.off nx (attribs fin (t.length + 1) t) →
      ∃ bits space, esiHandleInclude env w fin nx t = some { w with bits := bits, space := space } ∧
        Rel cut (outOf env.mem bits) (out ++ inclOut (included env.url (attribs fin (t.length + 1) t).1)) ∧
        Acct { w with bits := bits, space := space } (dbl ∨ ¬ (srcs (attribs fin (t.length + 1) t).1).length ≤ 1)) ∧
    (¬ Reads env w.off nx (attribs fin (t.length + 1) t) → esiHandleInclude env w fin nx t = none) := by
  obtain ⟨w₁, eb, bits, heq, hfresh, hacct₁⟩ := fresh_exists env fin nx t hacct
  have hb₁ : w₁.bits = eb :: bits := by rw [hfresh.eq]
  have hoff : w₁.off = w.off := by rw [hfresh.eq]
  generalize has : attribs fin (t.length + 1) t = as
  have hset : setBit env w₁ fin nx t =
      (includeLoop env w.off fin nx (t.length + 1) t false none none w₁.space).bind fun r =>
        some { w₁ with bits := { eb with host := r.1, incl := r.2.1 } :: bits, space := r.2.2 } := by
    unfold setBit
    rw [hb₁, hoff]
    simp only [hfresh.host, hfresh.incl]
  have hloop := includeLoop_spec env w.off fin nx (Nat.lt_succ_self t.length) (none, none, w₁.space)
  rw [has] at hloop
  rw [heq, hset]
  constructor
  · intro hr
    have hres : ∀ a ∈ srcs as.1, ∃ junk, resolve env.url junk a.val ≠ none := by
      intro a ha
      obtain ⟨hmem, hsrc⟩ := List.mem_filter.1 ha
      exact ⟨_, fun hnone => (resolve_eq_none.1 hnone).2 (hr.resolves a hmem hsrc (resolve_eq_none.1 hnone).1)⟩
    have hincl := foldl_set_included env.url as.1 w₁.space
    have hspace := foldl_set_space env.url (srcs as.1) (none, none, w₁.space)
    have hnone := foldl_set_none env.url (srcs as.1) (none, none, w₁.space)
    have hempty (h : srcs as.1 = []) : (srcs as.1).foldl (Loop.set env.url) (none, none, w₁.space) = (none, none, w₁.space) := by
      rw [h]
      rfl
    rw [hloop.1 hr, Option.bind_some]
    generalize (srcs as.1).foldl (Loop.set env.url) (none, none, w₁.space) = s' at hincl hspace hnone hempty
    refine ⟨{ eb with host := s'.1, incl := s'.2.1 } :: bits, s'.2.2, by rw [hfresh.eq], ?_, ?_, ?_⟩
    · rw [← hincl, outOf]
      have hout := hfresh.out
      rw [outOf, Bit.out, hfresh.host, hfresh.incl, show inclOut (none, none) = [] from rfl, List.append_nil] at hout
      rw [Bit.out, ← List.append_assoc, hout]
      exact hrel.append _
    · intro b hb hbn
      rcases List.mem_cons.1 hb with rfl | hb
      · have hnil := hnone hbn
        unfold included at hincl
        rw [hnil] at hincl
        exact congrArg Prod.fst hincl
      · exact hacct₁.host b (hb₁ ▸ List.mem_cons_of_mem eb hb) hbn
    · obtain ⟨e, he, hiff⟩ := hacct₁.space
      have hsize : takes (eb :: bits) = takes bits + sizeofBit := by
        rw [takes, Bit.size, hfresh.host, hfresh.incl]
        rfl
      rw [hb₁, hsize] at he
      have htakes : takes ({ eb with host := s'.1, incl := s'.2.1 } :: bits) = takes bits + sizeofBit + setSize s'.1 s'.2.1 := by
        rw [takes, Bit.size, setSize]
        simp only
        omega
      by_cases hnil : srcs as.1 = []
      · refine ⟨e, ?_, ?_⟩
        · show s'.2.2 = takes ({ eb with host := s'.1, incl := s'.2.1 } :: bits) + e
          rw [htakes, hempty hnil]
          exact he
        · rw [hnil, not_or, not_not, hiff]
          simp
      · obtain ⟨e', he', hiff'⟩ := hspace hnil hres
        refine ⟨e + e', ?_, ?_⟩
        · show s'.2.2 = takes ({ eb with host := s'.1, incl := s'.2.1 } :: bits) + (e + e')
          rw [htakes, he']
          show w₁.space + setSize s'.1 s'.2.1 + e' = _
          omega
        · rw [not_or, not_not, ← hiff, ← hiff']
          omega
  · intro hr
    rw [hloop.2 hr]
    rfl

end Includes

/-! ## One turn -/

section Turns

variable (env : Env) (st : Store)

/-- An item at the place where `r` is left. -/
def metAt (it : Item) (r : List UInt8) (rem inc : Bool) : Met := ⟨it, (st.body env).length - r.length, rem, inc⟩

/-- How a turn ends that takes the item `it` and leaves `r'`. -/
def Turn (it : Item) (r r' : List UInt8) (rem inc : Bool) (out : Out) (cut dbl : Prop) (res : Option Work) : Prop :=
  (Sound env st (metAt env st it r rem inc) ∧ ∃ w', res = some (w'.on env st r') ∧
    Track env st w' r' (it.rem rem) (it.inc inc) (out ++ (metAt env st it r rem inc).out env.url)
      (cut ∨ Cut st (metAt env st it r rem inc)) (dbl ∨ ¬ Single (metAt env st it r rem inc))) ∨
  (¬ Sound env st (metAt env st it r rem inc) ∧ (res = none ∨ ∃ w', res = some (w'.on env st r') ∧ Doomed env st w' r'))

variable {env st} {w v : Work} {r r' lit : List UInt8} {rem inc : Bool} {out : Out} {cut dbl : Prop} {it : Item} {f : ℕ}

theorem Turn.ok {res : Option Work} (hs : Sound env st (metAt env st it r rem inc)) (hc : ¬ Cut st (metAt env st it r rem inc))
    (h1 : Single (metAt env st it r rem inc)) (hres : res = some (v.on env st r'))
    (ht : Track env st v r' (it.rem rem) (it.inc inc) (out ++ (metAt env st it r rem inc).out env.url) cut dbl) :
    Turn env st it r r' rem inc out cut dbl res := by
  refine .inl ⟨hs, v, hres, ?_⟩
  rw [show (cut ∨ Cut st (metAt env st it r rem inc)) = cut from propext (or_iff_left hc),
    show (dbl ∨ ¬ Single (metAt env st it r rem inc)) = dbl from propext (or_iff_left (not_not_intro h1))]
  exact ht

/-- Text is passed. -/
theorem turn_text {res : Option Work} (ht : Track env st w r rem inc out cut dbl) (hr : r' <:+ r) (hres : res = some (w.on env st r')) :
    Turn env st (.text (upTo r r')) r r' rem inc out cut dbl res :=
  .ok trivial (fun h => nomatch h.1) trivial hres (ht.text hr)

theorem turn_block {res : Option Work} (fin : List UInt8) (ht : Track env st w r rem inc out cut dbl) (hr : r' <:+ r)
    (hres : res = some (w.on env st r')) : Turn env st (.block fin (upTo r r')) r r' rem inc out cut dbl res :=
  .ok trivial (fun h => nomatch h.1) trivial hres (ht.text hr)

/-- The end of an ESI comment. -/
theorem turn_cls (ht : Track env st w r rem inc out cut dbl) :
    Turn env st .cls r (r.drop 3) rem inc out cut dbl
      ((esiAddpfx (w.on env st r)).bind fun w =>
        let w := w.Ns 3
        some { w with s := w.p, incmt := false }) := by
  obtain ⟨w', h1, h2⟩ := ht.flush
  refine .ok (v := { w' with s := st.ptr env (r.drop 3), incmt := false }) trivial (fun h => nomatch h.1) trivial ?_ ?_
  · rw [h1, Option.bind_some]
    simp only [Ns_on ht.suf]
    rfl
  · have hset : Settled env st { w' with s := st.ptr env (r.drop 3), incmt := false } (r.drop 3) rem false out cut dbl :=
      ⟨suffix_dropn ht.suf 3, h2.remflg, rfl, ⟨h2.acct.host, h2.acct.space⟩, rfl, h2.rel⟩
    rw [show (metAt env st .cls r rem inc).out env.url = [] from rfl, List.append_nil]
    exact hset.track

theorem pos_add (hr : r <:+ st.body env) {k : ℕ} (hk : k ≤ r.length) :
    st.pos ((st.body env).length - r.length + k) = st.ptr env (r.drop k) := by
  have := hr.length_le
  unfold Store.ptr
  rw [List.length_drop]
  congr 1
  omega

/-- `<!--esi` -/
theorem turn_opn (ht : Track env st w r rem inc out cut dbl) (hlen : 7 ≤ r.length) :
    Turn env st .opn r (r.drop 7) rem inc out cut dbl (parseEsiComment (w.on env st r)) := by
  obtain ⟨w', h1, h2⟩ := ht.flush
  have hinc := h2.incmt
  have hsuf := suffix_dropn ht.suf 7
  set w₂ : Work := { w' with incmt := true, s := { w'.s with p := (st.ptr env (r.drop 7)).p } } with hw₂
  have hres : parseEsiComment (w.on env st r) = if inc then none else some (w₂.on env st (r.drop 7)) := by
    unfold parseEsiComment
    rw [h1, Option.bind_some]
    simp only [Ns_on ht.suf]
    rw [show (w'.on env st (r.drop 7)).incmt = inc from hinc]
    rfl
  have htorn : Torn st (metAt env st .opn r rem inc).n ↔ (st.ptr env (r.drop 7)).st ≠ (st.ptr env r).st := by
    unfold Torn metAt
    rw [pos_add ht.suf hlen]
    rfl
  have hgap : gap st (metAt env st .opn r rem inc).n = pdiff (st.ptr env (r.drop 7)).p (st.ptr env r).e := by
    unfold gap metAt
    rw [pos_add ht.suf hlen]
    rfl
  rw [hres]
  cases inc with
  | true => exact .inr ⟨fun hs => Bool.noConfusion hs.1, .inl (if_pos rfl)⟩
  | false =>
    rw [if_neg Bool.false_ne_true]
    have hs₂ : w₂.s = { st.ptr env r with p := (st.ptr env (r.drop 7)).p } := by rw [hw₂, ← h2.s]
    have hout : out ++ (metAt env st .opn r rem false).out env.url = out := List.append_nil out
    by_cases hcut : rem = false ∧ (st.ptr env (r.drop 7)).st ≠ (st.ptr env r).st
    · -- only `s.p` is moved to the other segment
      obtain ⟨hrem, hne⟩ := hcut
      have hat : TornAt env st w₂ r (r.drop 7) := ⟨ht.suf, List.suffix_refl _, hne, hs₂⟩
      by_cases hg : pdiff (st.ptr env (r.drop 7)).p (st.ptr env r).e = 0
      · exact .inr ⟨fun hs => hs.2 hrem (htorn.2 hne) (hgap.trans hg), .inr ⟨w₂, rfl, h2.remflg.trans hrem, r, hat, hg⟩⟩
      · have hc : Cut st (metAt env st .opn r rem false) := ⟨rfl, hrem, htorn.2 hne⟩
        refine .inl ⟨⟨rfl, fun _ _ => by rw [hgap]; exact hg⟩, w₂, rfl, hsuf, h2.remflg, rfl, ?_, ?_⟩
        · rw [show (dbl ∨ ¬ Single (metAt env st .opn r rem false)) = dbl from propext (or_iff_left (not_not_intro trivial))]
          exact ⟨h2.acct.host, h2.acct.space⟩
        · refine .torn hrem (.inr hc) r hat hlen hg ?_
          rw [hout]
          exact h2.rel.le.trans (Nat.le_add_right _ _)
    · have hns : rem = false → ¬ Torn st (metAt env st .opn r rem false).n := fun hrem h => hcut ⟨hrem, htorn.1 h⟩
      refine .ok ⟨rfl, fun hrem h => absurd h (hns hrem)⟩ (fun h => hns h.2.1 h.2.2) trivial rfl ?_
      rw [hout]
      refine ⟨hsuf, h2.remflg, rfl, ⟨h2.acct.host, h2.acct.space⟩, ?_⟩
      cases rem with
      | true => exact .removed rfl h2.rel
      | false =>
        have heq : (st.ptr env (r.drop 7)).st = (st.ptr env r).st := by
          by_contra hne
          exact hcut ⟨rfl, hne⟩
        refine .clean rfl (r.drop 7) hsuf (List.suffix_refl _) ?_ ?_
        · rw [hs₂]
          show (⟨(st.ptr env (r.drop 7)).p, (st.ptr env r).st⟩ : Cursor) = st.ptr env (r.drop 7)
          rw [← heq]
        · rw [upTo_self, verb_nil, List.append_nil]
          exact h2.rel

end Turns

/-! ## Elements -/

section Elements

variable {env : Env} {st : Store} {w : Work} {r r' lit : List UInt8} {rem inc closing : Bool} {out : Out} {cut dbl : Prop} {f : ℕ}

theorem not_both {a b bs : List UInt8} (ha : a.isPrefixOf bs = true) (hb : b.isPrefixOf bs = true) (hab : ¬ a <+: b) (hba : ¬ b <+: a) :
    False := by
  rcases List.prefix_or_prefix_of_prefix (List.isPrefixOf_iff_prefix.1 ha) (List.isPrefixOf_iff_prefix.1 hb) with h | h
  · exact hab h
  · exact hba h

/-- An element is an include, or does nothing but open or close `esi:remove`. -/
theorem doTag_spec (env : Env) (closing : Bool) (fin nx : UInt8) (bs : List UInt8) (hrem : w.remflg = rem) :
    (isInclude rem closing bs = false →
      doTag env w closing (tagEmpty bs) fin nx (tagBody closing bs) = some { w with remflg := (Item.tag closing bs).rem rem }) ∧
    (isInclude rem closing bs = true → (Item.tag closing bs).rem rem = rem ∧
      doTag env w closing (tagEmpty bs) fin nx (tagBody closing bs) = esiHandleInclude env w fin nx ((tagBody closing bs).drop 7)) := by
  have hsame : some w = some { w with remflg := rem } := by rw [← hrem]
  unfold doTag isInclude Item.rem
  by_cases h1 : (ascii "remove").isPrefixOf (tagBody closing bs) = true
  · have h2 : (ascii "include").isPrefixOf (tagBody closing bs) = false := by
      by_contra h
      exact not_both h1 (Bool.not_eq_false _ ▸ h) (by decide) (by decide)
    simp only [h1, h2, if_true, Bool.and_false, Bool.true_and]
    refine ⟨fun _ => ?_, fun h => absurd h Bool.false_ne_true⟩
    cases tagEmpty bs with
    | true => exact hsame
    | false => cases closing <;> rfl
  · simp only [Bool.eq_false_iff.2 h1, Bool.false_and, Bool.false_eq_true, if_false]
    cases rem with
    | true =>
      rw [if_pos hrem]
      exact ⟨fun _ => hsame, fun h => absurd h (by simp)⟩
    | false =>
      rw [if_neg (by rw [hrem]; exact Bool.false_ne_true)]
      by_cases h2 : (ascii "comment").isPrefixOf (tagBody closing bs) = true
      · have h3 : (ascii "include").isPrefixOf (tagBody closing bs) = false := by
          by_contra h
          exact not_both h2 (Bool.not_eq_false _ ▸ h) (by decide) (by decide)
        rw [if_pos h2, h3]
        exact ⟨fun _ => hsame, fun h => absurd h (by simp)⟩
      · rw [if_neg h2]
        by_cases h3 : (ascii "include").isPrefixOf (tagBody closing bs) = true
        · rw [if_pos h3, h3]
          exact ⟨fun h => absurd h (by simp), fun _ => ⟨trivial, rfl⟩⟩
        · rw [if_neg h3, Bool.eq_false_iff.2 h3]
          exact ⟨fun _ => hsame, fun h => absurd h (by simp)⟩

/-- An element that the main loop has found. -/
def Shape (closing : Bool) (bs : List UInt8) : Prop :=
  ∃ mid, bs = (if closing then ascii "</esi" else ascii "<esi:") ++ mid ++ [62]

theorem tagText_concat (lit m : List UInt8) (c d : UInt8) :
    tagText (d :: lit ++ (m ++ [c]) ++ [62]) = if c = 47 then lit ++ m else lit ++ m ++ [c] := by
  have hin : (d :: lit ++ (m ++ [c]) ++ [62]).tail.dropLast = lit ++ m ++ [c] := by
    rw [List.cons_append, List.cons_append, List.tail_cons, List.dropLast_concat, List.append_assoc]
  unfold tagText tagEmpty
  rw [hin, List.getLast?_concat, List.dropLast_concat]
  by_cases hc : c = 47
  · rw [if_pos hc, if_pos (by simp [hc])]
  · rw [if_neg hc, if_neg (by simp [hc])]

/-- Only a nameless element is too short. -/
theorem tagText_length {bs : List UInt8} (h : Shape closing bs) : (tagText bs).length < tagSkip closing ↔ Nameless closing bs := by
  obtain ⟨mid, rfl⟩ := h
  cases closing with
  | false =>
    have hno : ¬ Nameless false (ascii "<esi:" ++ mid ++ [62]) := fun h => Bool.noConfusion h.1
    refine iff_of_false ?_ hno
    rcases List.eq_nil_or_concat mid with rfl | ⟨m, c, rfl⟩
    · decide
    · rw [List.concat_eq_append]
      show ¬ (tagText (60 :: ascii "esi:" ++ (m ++ [c]) ++ [62])).length < 4
      rw [tagText_concat]
      have hlit : (ascii "esi:").length = 4 := rfl
      by_cases hc : c = 47
      · rw [if_pos hc, List.length_append]
        omega
      · rw [if_neg hc, List.length_append, List.length_append]
        omega
  | true =>
    rcases List.eq_nil_or_concat mid with rfl | ⟨m, c, rfl⟩
    · decide
    · have hlit : (ascii "/esi").length = 4 := rfl
      have hbs : Nameless true (ascii "</esi" ++ (m ++ [c]) ++ [62]) ↔ m = [] ∧ c = 47 := by
        unfold Nameless
        constructor
        · rintro ⟨-, h | h⟩
          · have := congrArg List.length h
            simp [ascii] at this
          · have h' : ascii "</esi" ++ (m ++ [c]) ++ [62] = ascii "</esi" ++ ([] ++ [47]) ++ [62] := h
            have h'' := List.append_cancel_left (List.append_cancel_right h')
            exact ⟨(List.append_inj' h'' rfl).1, by simpa using (List.append_inj' h'' rfl).2⟩
        · rintro ⟨rfl, rfl⟩
          exact ⟨rfl, .inr rfl⟩
      rw [List.concat_eq_append]
      show (tagText (60 :: ascii "/esi" ++ (m ++ [c]) ++ [62])).length < 5 ↔ _
      refine Iff.trans ?_ hbs.symm
      rw [tagText_concat]
      by_cases hc : c = 47
      · rw [if_pos hc, List.length_append, hlit]
        constructor
        · intro h
          exact ⟨List.length_eq_zero_iff.1 (by omega), hc⟩
        · rintro ⟨rfl, -⟩
          decide
      · rw [if_neg hc, List.length_append, List.length_append, List.length_singleton, hlit]
        exact iff_of_false (by omega) fun h => hc h.2

theorem finishTag_spec {bs : List UInt8} (nx : UInt8) (hshape : Shape closing bs) (hset : Settled env st w r rem inc out cut dbl)
    (hr : r' <:+ r) (hbs : bs = upTo r r') (hnx : nx = nextByte env st ((st.body env).length - r.length) bs.length) :
    Turn env st (.tag closing bs) r r' rem inc out cut dbl (finishTag env (w.on env st r') closing bs nx) := by
  have hsuf := hr.trans hset.suf
  have hoff : (w.on env st r').off = (metAt env st (.tag closing bs) r rem inc).n + bs.length + 1 := by
    have h1 := hset.suf.length_le
    have h2 := hr.length_le
    show (st.body env).length - r'.length + 1 = (st.body env).length - r.length + bs.length + 1
    rw [hbs, length_upTo hr]
    omega
  unfold finishTag
  by_cases hless : Nameless closing bs
  · rw [if_pos ((tagText_length hshape).2 hless)]
    exact .inr ⟨fun hs => hs.1 hless, .inl rfl⟩
  rw [if_neg (fun h => hless ((tagText_length hshape).1 h))]
  obtain ⟨hother, hincl⟩ := doTag_spec (w := w.on env st r') env closing (tagFin bs)
    (if tagEmpty bs then 62 else nx) bs hset.remflg
  cases hi : isInclude rem closing bs with
  | false =>
    have hdo := hother hi
    unfold tagBody at hdo
    rw [hdo, Option.bind_some]
    refine .ok (v := { w with remflg := (Item.tag closing bs).rem rem, s := st.ptr env r' }) ⟨hless, fun h => ?_⟩ (fun h => nomatch h.1)
      (fun h => ?_) rfl ?_
    · exact absurd (hi.symm.trans h) Bool.false_ne_true
    · exact absurd (hi.symm.trans h) Bool.false_ne_true
    · have hout : (metAt env st (.tag closing bs) r rem inc).out env.url = [] := by
        unfold Met.out metAt
        simp only [hi, Bool.false_eq_true, if_false]
      rw [hout, List.append_nil]
      exact Settled.track ⟨hsuf, rfl, hset.incmt, ⟨hset.acct.host, hset.acct.space⟩, rfl, hset.rel⟩
  | true =>
    obtain ⟨hrem, hdo⟩ := hincl hi
    have hat : (inclAttribs closing bs) =
        attribs (tagFin bs) (((tagBody closing bs).drop 7).length + 1) ((tagBody closing bs).drop 7) := rfl
    have hbehind : (if tagEmpty bs then 62 else nx) = behindFin env st (metAt env st (.tag closing bs) r rem inc).n bs := by
      rw [hnx]
      rfl
    have hout : (metAt env st (.tag closing bs) r rem inc).out env.url = inclOut (included env.url (inclAttribs closing bs).1) := by
      unfold Met.out metAt
      simp only [hi, if_true]
    obtain ⟨hreads, hbad⟩ := handleInclude_spec env (w := w.on env st r') (tagFin bs) (if tagEmpty bs then 62 else nx)
      ((tagBody closing bs).drop 7) ⟨hset.acct.host, hset.acct.space⟩ hset.rel
    rw [← hat, hoff, hbehind] at hreads hbad
    rw [show (tagText bs).drop (tagSkip closing) = tagBody closing bs from rfl, hdo, hbehind]
    by_cases hr : Reads env ((metAt env st (.tag closing bs) r rem inc).n + bs.length + 1)
      (behindFin env st (metAt env st (.tag closing bs) r rem inc).n bs) (inclAttribs closing bs)
    · obtain ⟨bits, space, h1, h2, h3⟩ := hreads hr
      refine .inl ⟨⟨hless, fun _ => hr⟩, { w with bits := bits, space := space, s := st.ptr env r' }, ?_, ?_⟩
      · rw [h1, ← hoff]
        rfl
      · have hcut : (cut ∨ Cut st (metAt env st (.tag closing bs) r rem inc)) = cut := propext (or_iff_left fun h => nomatch h.1)
        have hdbl : (dbl ∨ ¬ Single (metAt env st (.tag closing bs) r rem inc)) =
            (dbl ∨ ¬ (srcs (inclAttribs closing bs).1).length ≤ 1) := by
          congr 2
          exact propext ⟨fun h => h hi, fun h _ => h⟩
        rw [hcut, hdbl, hout, hrem]
        exact Settled.track ⟨hsuf, hset.remflg, hset.incmt, ⟨h3.host, h3.space⟩, rfl, h2⟩
    · refine .inr ⟨fun hs => hr (hs.2 hi), .inl ?_⟩
      rw [hbad hr]
      rfl

theorem shape_of_prefix (hlit : (if closing then ascii "</esi" else ascii "<esi:") <+: r)
    (hd : r.tail.dropWhile (· ≠ 62) = 62 :: r') (hr : r' <:+ r) : Shape closing (upTo r r') := by
  obtain ⟨r₁, rfl⟩ := hlit
  have hpass (c : UInt8) (l : List UInt8) (h : ∀ b ∈ l, decide (b ≠ (62 : UInt8)) = true) :
      (c :: l ++ r₁).tail.dropWhile (· ≠ 62) = r₁.dropWhile (· ≠ 62) := by
    rw [List.cons_append, List.tail_cons, List.dropWhile_append_of_pos h]
  have hr₁ : r₁.dropWhile (· ≠ 62) = 62 :: r' := by
    rw [← hd]
    cases closing with
    | true => exact (hpass 60 (ascii "/esi") (List.all_eq_true.1 rfl)).symm
    | false => exact (hpass 60 (ascii "esi:") (List.all_eq_true.1 rfl)).symm
  refine ⟨r₁.takeWhile (· ≠ 62), (List.append_left_inj r').1 ?_⟩
  have hsplit := List.takeWhile_append_dropWhile (p := fun b : UInt8 => decide (b ≠ 62)) (l := r₁)
  rw [hr₁] at hsplit
  rw [upTo_append hr, List.append_assoc, List.append_assoc, List.singleton_append, hsplit]

/-- The element is in one segment, or is pulled together. -/
theorem turn_tag (closing : Bool) (ht : Track env st w r rem inc out cut dbl) (hf : r.length < f)
    (hlit : (if closing then ascii "</esi" else ascii "<esi:") <+: r) :
    Turn env st (nextTag closing r).1 r (nextTag closing r).2 rem inc out cut dbl (parseEsiTag env f (w.on env st r) closing) := by
  obtain ⟨w', h1, h2⟩ := ht.flush
  have hsuf := ht.suf
  unfold parseEsiTag nextTag
  rw [h1, Option.bind_some]
  simp only [skipGt_on hsuf hf.le, on_p]
  cases hd : r.tail.dropWhile (· ≠ 62) with
  | nil =>
    have hend : (st.ptr env []).p = (st.ptr env []).e := by
      rw [(st.valid_ptr env []).eq_first ((st.ptr_st (List.nil_suffix)).2 rfl)]
      rfl
    obtain ⟨w'', h3, h4⟩ := (h2.track.text List.nil_suffix).flush
    rw [if_pos hend]
    have hr : upTo r [] = r := by simp [upTo]
    rw [hr] at h4
    exact .ok trivial (fun h => by cases h.1) trivial h3 h4.track
  | cons d r' =>
    have hdr : d :: r' <:+ r.tail := hd ▸ List.dropWhile_suffix _
    have hd62 : d = 62 := by
      have := List.head?_dropWhile_not (p := fun b : UInt8 => decide (b ≠ 62)) (l := r.tail)
      rw [hd] at this
      simpa using this
    subst hd62
    have hsuf' : 62 :: r' <:+ st.body env := hdr.trans (suffix_tail hsuf)
    have hr' : r' <:+ r := (List.suffix_cons 62 r').trans (hdr.trans (List.tail_suffix r))
    have hne : (st.ptr env (62 :: r')).p ≠ (st.ptr env (62 :: r')).e := ((st.ptr_lt hsuf').2 (List.cons_ne_nil _ _)).ne
    rw [if_neg hne, N_on hsuf', List.tail_cons]
    have hshape : Shape closing (upTo r r') := shape_of_prefix hlit hd hr'
    have hpos : st.pos ((st.body env).length - r.length + (upTo r r').length) = st.ptr env r' := by
      have e1 := hsuf.length_le
      have e2 := hr'.length_le
      unfold Store.ptr
      rw [length_upTo hr']
      congr 1
      omega
    have hoff : (st.body env).length - r.length + (upTo r r').length + 1 = (w'.on env st r').off := by
      have e1 := hsuf.length_le
      have e2 := hr'.length_le
      show _ = (st.body env).length - r'.length + 1
      rw [length_upTo hr']
      omega
    have hs : (w'.on env st r').s = st.ptr env r := h2.s
    have hnext : nextByte env st ((st.body env).length - r.length) (upTo r r').length =
        if (st.ptr env r').st = (st.ptr env r).st then env.mem (st.ptr env r').p else env.wsO (w'.on env st r').off := by
      unfold nextByte
      rw [hpos, hoff]
      rfl
    by_cases hseg : (st.ptr env r').st = (st.ptr env r).st
    · rw [if_pos (by rw [on_p, hs]; exact hseg)]
      have hraw : rd env.mem (st.ptr env r).p ((st.ptr env r').p - (st.ptr env r).p) = upTo r r' := by
        have hadv := st.ptr_adv hsuf hr'
        have hnil : (st.ptr env r).st ≠ [] := by
          rw [Ne, st.ptr_st hsuf]
          rintro rfl
          simp at hd
        obtain ⟨hlt, hp⟩ := (st.valid_ptr env r).adv_same hnil (by rw [← hadv]; exact hseg)
        rw [hadv, hp, Nat.add_sub_cancel_left, ← Cursor.take_rest env.mem hlt.le, st.rest_ptr hsuf]
        rfl
      rw [hs, on_p, hraw]
      exact finishTag_spec _ hshape h2 hr' rfl (by rw [hnext, if_pos hseg])
    · rw [if_neg (by rw [on_p, hs]; exact hseg), hs, on_p,
        pull_ptr hsuf hr' (by omega)]
      exact finishTag_spec _ hshape h2 hr' rfl (by rw [hnext, if_neg hseg])

end Elements

/-! ## The main loop -/

section Run

variable {env : Env} {st : Store} {w : Work} {r : List UInt8} {rem inc : Bool} {out : Out} {cut dbl : Prop} {f g : ℕ} {c : UInt8}
  {t : List UInt8}

/-- One turn of the main loop takes the next item. -/
theorem mainStep_spec (ht : Track env st w (c :: t) rem inc out cut dbl) (hf : (c :: t).length < f) :
    Turn env st (next (Matcher.code env) (env.syn.testBit 1) inc (c :: t)).1 (c :: t)
      (next (Matcher.code env) (env.syn.testBit 1) inc (c :: t)).2 rem inc out cut dbl (mainStep env f (w.on env st (c :: t))) := by
  have hsuf := ht.suf
  have hinc : (w.on env st (c :: t)).incmt = inc := ht.incmt
  obtain ⟨x, hx⟩ : ∃ x, next (Matcher.code env) (env.syn.testBit 1) inc (c :: t) = x := ⟨_, rfl⟩
  rw [hx]
  unfold next at hx
  unfold mainStep
  simp only [on_p, deref_ptr hsuf, cmp_ptr hsuf, hinc, List.headD_cons]
  by_cases h1 : inc = true ∧ Matcher.code env (ascii "-->") (c :: t) = true
  · have hc : c = 45 := code_head 45 [45, 62] (by decide) h1.2
    rw [if_pos (by simp [h1])] at hx
    subst hx
    rw [if_pos ⟨h1.1, hc, h1.2⟩]
    exact turn_cls ht
  rw [if_neg (by simpa using h1)] at hx
  rw [if_neg (fun h => h1 ⟨h.1, h.2.2⟩)]
  by_cases h2 : c ≠ 60
  · rw [if_pos (by simpa using h2)] at hx
    subst hx
    have htake : (c :: t).take 1 = upTo (c :: t) t := by simp [upTo]
    rw [if_pos h2, N_on hsuf, htake]
    exact turn_text ht (List.suffix_cons c t) rfl
  rw [if_neg (by simpa using h2)] at hx
  rw [if_neg h2]
  by_cases h3 : Matcher.code env (ascii "<!--esi") (c :: t) = true
  · rw [if_pos h3] at hx ⊢
    subst hx
    exact turn_opn ht (starts_of_cmpBytes (by decide) h3).2.le
  rw [if_neg h3] at hx ⊢
  by_cases h4 : Matcher.code env (ascii "<!--") (c :: t) = true
  · rw [if_pos h4] at hx ⊢
    subst hx
    refine turn_block (ascii "-->") ht ((endOf_suffix _ _ _).trans (List.suffix_cons c t)) ?_
    exact congrArg some (skipTo_on 45 [45, 62] (by decide) hsuf hf.le)
  rw [if_neg h4] at hx ⊢
  by_cases h5 : Matcher.code env (ascii "</esi") (c :: t) = true
  · rw [if_pos h5] at hx ⊢
    subst hx
    exact turn_tag true ht hf (starts_of_cmpBytes (by decide) h5).1
  rw [if_neg h5] at hx ⊢
  by_cases h6 : Matcher.code env (ascii "<esi:") (c :: t) = true
  · rw [if_pos h6] at hx ⊢
    subst hx
    exact turn_tag false ht hf (starts_of_cmpBytes (by decide) h6).1
  rw [if_neg h6] at hx ⊢
  by_cases h7 : Matcher.code env (ascii "<![CDATA[") (c :: t) = true
  · rw [if_pos h7] at hx ⊢
    subst hx
    obtain ⟨w', h8, h9⟩ := ht.flush
    refine turn_block (ascii "]]>") h9.track ((endOf_suffix _ _ _).trans (List.suffix_cons c t)) ?_
    unfold parseCdata
    rw [h8, Option.bind_some]
    exact congrArg some (skipTo_on 93 [93, 62] (by decide) hsuf hf.le)
  rw [if_neg h7] at hx ⊢
  subst hx
  refine turn_text ht ((endMarkup_suffix _ _).trans (List.tail_suffix _)) ?_
  unfold endMarkup
  have htail := suffix_tail hsuf
  by_cases h8 : env.syn.testBit 1 = true
  · rw [if_pos h8, if_pos h8, N_on hsuf]
  · rw [if_neg h8, if_neg h8, N_on hsuf, skipGt_on htail (by rw [List.length_tail]; omega)]

/-- Once `esi_addpfx` will fail, nothing sets `s` before it does. -/
theorem Doomed.step (h : Doomed env st w (c :: t)) (hsuf : c :: t <:+ st.body env) (hf : (c :: t).length < f) :
    mainStep env f (w.on env st (c :: t)) = none ∨ ∃ r', r' <:+ t ∧ mainStep env f (w.on env st (c :: t)) = some (w.on env st r') := by
  have hflush := h.flush
  have htext : some (w.on env st (c :: t)).N = some (w.on env st t) := congrArg some (N_on hsuf)
  have htag (isend : Bool) : parseEsiTag env f (w.on env st (c :: t)) isend = none := by
    unfold parseEsiTag
    rw [hflush]
    rfl
  unfold mainStep
  by_cases h1 : (w.on env st (c :: t)).incmt ∧ deref env (w.on env st (c :: t)).p = 45 ∧ cmp env (w.on env st (c :: t)).p (ascii "-->") = 0
  · rw [if_pos h1, hflush]
    exact .inl rfl
  rw [if_neg h1]
  by_cases h2 : deref env (w.on env st (c :: t)).p ≠ 60
  · rw [if_pos h2, htext]
    exact .inr ⟨t, List.suffix_refl t, rfl⟩
  rw [if_neg h2]
  by_cases h3 : cmp env (w.on env st (c :: t)).p (ascii "<!--esi") = 0
  · rw [if_pos h3, parseEsiComment, hflush]
    exact .inl rfl
  rw [if_neg h3]
  by_cases h4 : cmp env (w.on env st (c :: t)).p (ascii "<!--") = 0
  · rw [if_pos h4]
    exact .inr ⟨_, endOf_suffix _ _ _, congrArg some (skipTo_on 45 [45, 62] (by decide) hsuf hf.le)⟩
  rw [if_neg h4]
  by_cases h5 : cmp env (w.on env st (c :: t)).p (ascii "</esi") = 0
  · rw [if_pos h5, htag]
    exact .inl rfl
  rw [if_neg h5]
  by_cases h6 : cmp env (w.on env st (c :: t)).p (ascii "<esi:") = 0
  · rw [if_pos h6, htag]
    exact .inl rfl
  rw [if_neg h6]
  by_cases h7 : cmp env (w.on env st (c :: t)).p (ascii "<![CDATA[") = 0
  · rw [if_pos h7, parseCdata, hflush]
    exact .inl rfl
  rw [if_neg h7]
  by_cases h8 : env.syn.testBit 1 = true
  · rw [if_pos h8, htext]
    exact .inr ⟨t, List.suffix_refl t, rfl⟩
  · rw [if_neg h8, N_on hsuf]
    refine .inr ⟨t.tail.dropWhile (· ≠ 62), (List.dropWhile_suffix _).trans (List.tail_suffix t), ?_⟩
    exact congrArg some (skipGt_on (suffix_tail hsuf) (by rw [List.length_tail]; omega))

theorem mainLoop_nil (w : Work) : mainLoop env f (g + 1) (w.on env st []) = some (w.on env st []) := by
  rw [mainLoop, if_neg]
  intro h
  exact (st.ptr_lt List.nil_suffix).1 h rfl

theorem mainLoop_cons (hsuf : c :: t <:+ st.body env) (w : Work) :
    mainLoop env f (g + 1) (w.on env st (c :: t)) = (mainStep env f (w.on env st (c :: t))).bind (mainLoop env f g) := by
  rw [mainLoop, if_pos]
  exact (st.ptr_lt hsuf).2 (List.cons_ne_nil c t)

theorem Doomed.loop (h : Doomed env st w r) (hsuf : r <:+ st.body env) (hg : r.length < g) (hf : r.length < f) :
    (mainLoop env f g (w.on env st r)).bind esiAddpfx = none := by
  induction g generalizing r with
  | zero => exact absurd hg (Nat.not_lt_zero _)
  | succ g ih =>
    cases r with
    | nil =>
      rw [mainLoop_nil, Option.bind_some]
      exact h.flush
    | cons c t =>
      rw [mainLoop_cons hsuf]
      rcases h.step hsuf hf with hnone | ⟨r', hr', hsome⟩
      · rw [hnone]
        rfl
      · have hlen := hr'.length_le
        have hr := hr'.trans (List.suffix_cons c t)
        rw [List.length_cons] at hg hf
        rw [hsome, Option.bind_some]
        exact ih (h.mono hr) (hr.trans hsuf) (by omega) (by omega)

/-- The main loop takes one item after the other. -/
theorem mainLoop_spec (ht : Track env st w r rem inc out cut dbl) (hg : r.length < g) (hf : r.length < f) :
    ((∀ x ∈ scan (Matcher.code env) (env.syn.testBit 1) g ((st.body env).length - r.length) rem inc r, Sound env st x) →
      ∃ w', (mainLoop env f g (w.on env st r)).bind esiAddpfx = some w' ∧
        Rel (cut ∨ ∃ x ∈ scan (Matcher.code env) (env.syn.testBit 1) g ((st.body env).length - r.length) rem inc r, Cut st x)
          (outOf env.mem w'.bits)
          (out ++ render env.url (scan (Matcher.code env) (env.syn.testBit 1) g ((st.body env).length - r.length) rem inc r)) ∧
        Acct w' (dbl ∨ ∃ x ∈ scan (Matcher.code env) (env.syn.testBit 1) g ((st.body env).length - r.length) rem inc r, ¬ Single x)) ∧
    ((¬ ∀ x ∈ scan (Matcher.code env) (env.syn.testBit 1) g ((st.body env).length - r.length) rem inc r, Sound env st x) →
      (mainLoop env f g (w.on env st r)).bind esiAddpfx = none) := by
  induction g generalizing w r rem inc out cut dbl with
  | zero => exact absurd hg (Nat.not_lt_zero _)
  | succ g ih =>
    cases r with
    | nil =>
      rw [scan, mainLoop_nil, Option.bind_some]
      obtain ⟨w', h1, h2⟩ := ht.flush
      refine ⟨fun _ => ⟨w'.on env st [], h1, ?_, ?_⟩, fun h => absurd (fun x hx => by cases hx) h⟩
      · have hrel : Rel cut (outOf env.mem (w'.on env st []).bits) out := h2.rel
        simpa [render] using hrel
      · have hacct : Acct (w'.on env st []) dbl := ⟨h2.acct.host, h2.acct.space⟩
        simpa using hacct
    | cons c t =>
      have hsuf := ht.suf
      have hs := next_split (Matcher.sound_code env) (env.syn.testBit 1) inc c t
      have hturn := mainStep_spec ht hf
      rw [mainLoop_cons hsuf, scan]
      generalize next (Matcher.code env) (env.syn.testBit 1) inc (c :: t) = x at hs hturn ⊢
      have hx2 : x.2 <:+ c :: t := ⟨_, hs.eq⟩
      have hlt := hs.lt
      have hplace : (st.body env).length - (c :: t).length + x.1.bytes.length = (st.body env).length - x.2.length := by
        have h1 := congrArg List.length hs.eq
        have h2 := hsuf.length_le
        rw [List.length_append] at h1
        omega
      simp only [hplace]
      rw [show (⟨x.1, (st.body env).length - (c :: t).length, rem, inc⟩ : Met) = metAt env st x.1 (c :: t) rem inc from rfl]
      rcases hturn with ⟨hsound, w', hres, htrack⟩ | ⟨hbad, hres⟩
      · obtain ⟨h1, h2⟩ := ih htrack (by omega) (by omega)
        rw [hres, Option.bind_some]
        constructor
        · intro hall
          obtain ⟨w'', h3, h4, h5⟩ := h1 fun y hy => hall y (List.mem_cons_of_mem _ hy)
          refine ⟨w'', h3, ?_, ?_⟩
          · rw [or_assoc] at h4
            simpa [render] using h4
          · rw [or_assoc] at h5
            simpa using h5
        · intro hnall
          refine h2 fun hall => hnall fun y hy => ?_
          rcases List.mem_cons.1 hy with rfl | hy
          · exact hsound
          · exact hall y hy
      · refine ⟨fun hall => absurd (hall _ List.mem_cons_self) hbad, fun _ => ?_⟩
        rcases hres with hnone | ⟨w', hsome, hdoom⟩
        · rw [hnone]
          rfl
        · rw [hsome, Option.bind_some]
          exact hdoom.loop (hx2.trans hsuf) (by omega) (by omega)

end Run

end Varnish.Esi
