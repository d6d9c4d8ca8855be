import Varnish.Esi.Pointer

/-!
# Varnish.Esi.Flush — what `esi_addpfx` records

* `outOf`, `takes`: what a list of bits puts out, and what it takes in the storage.
* `Work.adds`: the parser with more bits of text.
* `esiAddpfx_clean`: the text from `s` to `p` is recorded, piece by piece.
* `esiAddpfx_torn`: where `s` has the address of one segment and is said to be in another, something longer is, or nothing works.
-/

namespace Varnish.Esi

open Varnish.Lib

/-! ## Bits -/

section Bits

variable (m : Mem)

/-- What a bit puts out. -/
def Bit.out (b : Bit) : Out := verb (rd m b.b b.len) ++ inclOut (b.host, b.incl)

/-- What the bits put out, the newest one last. -/
def outOf : List Bit → Out
  | [] => []
  | b :: bits => outOf bits ++ b.out m

/-- What the bits take in the storage. -/
def takes : List Bit → ℕ
  | [] => sizeofData
  | b :: bits => takes bits + b.size

/-- The text of pieces of the memory, the newest one last. -/
def textOf : List (ℕ × ℕ) → List UInt8
  | [] => []
  | v :: vs => textOf vs ++ rd m v.1 v.2

def Bit.text (v : ℕ × ℕ) : Bit := ⟨v.1, v.2, none, none⟩

/-- The parser, with more bits of text. -/
def Work.adds (w : Work) (vs : List (ℕ × ℕ)) : Work :=
  { w with bits := vs.map Bit.text ++ w.bits, space := w.space + vs.length * sizeofBit }

variable {m}

@[simp] theorem verb_append (a b : List UInt8) : verb (a ++ b) = verb a ++ verb b := List.map_append

@[simp] theorem verb_nil : verb [] = [] := rfl

theorem outOf_text (vs : List (ℕ × ℕ)) (bits : List Bit) :
    outOf m (vs.map Bit.text ++ bits) = outOf m bits ++ verb (textOf m vs) := by
  induction vs with
  | nil => simp [textOf]
  | cons v vs ih =>
    rw [List.map_cons, List.cons_append, outOf, ih, textOf, verb_append, List.append_assoc]
    congr 2
    exact List.append_nil _

theorem takes_text (vs : List (ℕ × ℕ)) (bits : List Bit) : takes (vs.map Bit.text ++ bits) = takes bits + vs.length * sizeofBit := by
  induction vs with
  | nil => simp
  | cons v vs ih =>
    have hsize : (Bit.text v).size = sizeofBit := rfl
    rw [List.map_cons, List.cons_append, takes, ih, hsize, List.length_cons, Nat.succ_mul, Nat.add_assoc]

theorem textOf_append (vs us : List (ℕ × ℕ)) : textOf m (vs ++ us) = textOf m us ++ textOf m vs := by
  induction vs with
  | nil => simp [textOf]
  | cons v vs ih => rw [List.cons_append, textOf, ih, textOf, List.append_assoc]

theorem adds_adds (w : Work) (vs us : List (ℕ × ℕ)) : (w.adds us).adds vs = w.adds (vs ++ us) := by
  simp [Work.adds, Nat.add_mul, Nat.add_comm, Nat.add_left_comm]

theorem stream_reverse (bits : List Bit) : bits.reverse.flatMap (Bit.out m) = outOf m bits := by
  induction bits with
  | nil => rfl
  | cons b bits ih => rw [List.reverse_cons, List.flatMap_append, ih, outOf]; simp

theorem copiedLen_reverse (bits : List Bit) : copiedLen bits.reverse = takes bits := by
  unfold copiedLen
  induction bits with
  | nil => rfl
  | cons b bits ih => rw [List.reverse_cons, List.foldl_append, ih]; rfl

end Bits

/-! ## The pieces up to a place -/

section Pieces

variable {m : Mem} {w : Work} {c : EsiPtr} {d f : ℕ}

theorem pdiff_eq {b e : ℕ} (h : b ≤ e) (hlt : e - b < 2 ^ 32) : pdiff b e = e - b := by
  unfold pdiff
  rw [Int.emod_eq_of_lt (by omega) (by norm_cast)]
  omega

theorem esiAddbit_pos {len : ℕ} (h : len ≠ 0) (v : ℕ) : esiAddbit w v len = some (w.adds [(v, len)]) := by
  rw [esiAddbit, if_neg h]
  simp [Work.adds, Bit.text]

/-- The end of a segment is passed. -/
theorem nep_end (hst : c.st ≠ []) (a : ℕ) (ha : a = c.e) : nep { c with p := a } = .first c.st.tail := by
  obtain ⟨p, st⟩ := c
  cases st with
  | nil => exact absurd rfl hst
  | cons sg st =>
    have hpos := sg.ptr_pos
    have he : a = sg.ptr + sg.len := ha
    have ha0 : a ≠ finis := by
      rw [he]
      exact (Nat.add_pos_left hpos _).ne'
    unfold nep
    rw [if_neg ha0, if_neg]
    · cases st <;> rfl
    · show ¬ a + 1 < sg.ptr + sg.len
      omega

theorem addpfxLoop_spec (m : Mem) (hv : c.Valid) (hd : d ≤ (c.rest m).length) (hf : c.st.length < f) (hs : w.s = c)
    (hp : w.p = c.adv d) :
    ∃ vs k, addpfxLoop f w = some { w.adds vs with s := c.adv k } ∧ k ≤ d ∧ (c.adv k).st = (c.adv d).st ∧
      textOf m vs = (c.rest m).take k := by
  induction f generalizing w c d with
  | zero => exact absurd hf (Nat.not_lt_zero _)
  | succ f ih =>
    rw [addpfxLoop]
    by_cases hst : (c.adv d).st = c.st
    · rw [if_pos (by rw [hs, hp, hst])]
      refine ⟨[], 0, ?_, Nat.zero_le _, hst.symm, rfl⟩
      rw [← hs]
      simp [Work.adds, Cursor.adv]
    · rw [if_neg (by rw [hs, hp]; exact Ne.symm hst)]
      have hle := Cursor.adv_other hst
      have hne : c.st ≠ [] := by
        intro hnil
        have h := (c.adv_suffix d)
        rw [hnil] at h hst
        exact hst (List.suffix_nil.1 h)
      have hlt := hv.p_lt hne
      have hlen := c.length_rest m
      have hdiff : pdiff c.p c.e = c.e - c.p := pdiff_eq hlt.2.1.le hlt.2.2
      obtain ⟨d', rfl⟩ : ∃ d', d = c.e - c.p + d' := ⟨d - (c.e - c.p), by omega⟩
      have hend : c.adv (c.e - c.p + d') = (Cursor.first c.st.tail).adv d' := hv.adv_seg d'
      obtain ⟨vs, k, h1, h2, h3, h4⟩ := ih (w := { w.adds [(c.p, c.e - c.p)] with s := .first c.st.tail })
        (Cursor.valid_first c.st.tail) (d := d') (by rw [Cursor.rest_first]; omega)
        (by rw [Cursor.first_st, List.length_tail]; have := List.length_pos_iff.2 hne; omega) rfl (hp.trans hend)
      refine ⟨vs ++ [(c.p, c.e - c.p)], c.e - c.p + k, ?_, by omega, ?_, ?_⟩
      · simp only [hs]
        rw [hdiff, esiAddbit_pos (by omega), Option.bind_some]
        simp only [show (w.adds [(c.p, c.e - c.p)]).s = c from hs, nep_end hne _ rfl]
        rw [hv.adv_seg k, ← adds_adds]
        exact h1
      · rw [hv.adv_seg k, hend, h3]
      · rw [textOf_append, h4, Cursor.rest_first, List.take_add]
        have hcut : (c.rest m).take (c.e - c.p) = rd m c.p (c.e - c.p) := Cursor.take_rest m le_rfl
        have hleft : (c.rest m).drop (c.e - c.p) = segBytes m c.st.tail := by
          unfold Cursor.rest
          exact List.drop_left' (length_rd m _ _)
        rw [hcut, hleft]
        simp [textOf]

/-- The last piece of `esi_addpfx`. -/
def addpfxLast (w : Work) : Option Work :=
  (if w.s.st ≠ [] ∧ w.p.p ≠ w.s.p then esiAddbit w w.s.p (pdiff w.s.p w.p.p) else some w).bind fun w =>
    some { w with s := { w.s with p := w.p.p } }

theorem addpfxLast_spec (m : Mem) (hv : c.Valid) (hst : (c.adv d).st = c.st) (hs : w.s = c) (hp : w.p = c.adv d) :
    ∃ vs, addpfxLast w = some { w.adds vs with s := c.adv d } ∧ textOf m vs = (c.rest m).take d := by
  have hback : { c with p := (c.adv d).p } = c.adv d := by rw [← hst]
  have hnone (h : ¬ (c.st ≠ [] ∧ (c.adv d).p ≠ c.p)) : addpfxLast w = some { w.adds [] with s := c.adv d } := by
    unfold addpfxLast
    rw [if_neg (by rw [hs, hp]; exact h), Option.bind_some, hs, hp, hback]
    simp [Work.adds, hp]
  by_cases hnil : c.st = []
  · refine ⟨[], hnone fun h => h.1 hnil, ?_⟩
    rw [(hv.rest_eq_nil (m := m)).2 hnil]
    simp [textOf]
  · obtain ⟨hlt, hpd⟩ := hv.adv_same hnil hst
    have hbound := hv.p_lt hnil
    by_cases hd : d = 0
    · subst hd
      exact ⟨[], hnone fun h => h.2 rfl, rfl⟩
    · refine ⟨[(c.p, d)], ?_, ?_⟩
      · have hw : (w.adds [(c.p, d)]).s = c ∧ (w.adds [(c.p, d)]).p = c.adv d := ⟨hs, hp⟩
        unfold addpfxLast
        rw [if_pos (by rw [hs, hp]; exact ⟨hnil, by omega⟩), hs, hp, hpd, pdiff_eq (by omega) (by omega),
          Nat.add_sub_cancel_left, esiAddbit_pos hd, Option.bind_some]
        simp only [hw.1, hw.2, hback]
      · rw [Cursor.take_rest m hlt.le]
        exact List.nil_append _

/-- `esi_addpfx` behind its test of `remflg`, with the given fuel. -/
def addpfxFrom (f : ℕ) (w : Work) : Option Work := (addpfxLoop f w).bind addpfxLast

theorem addpfxFrom_spec (m : Mem) (hv : c.Valid) (hd : d ≤ (c.rest m).length) (hf : c.st.length < f) (hs : w.s = c)
    (hp : w.p = c.adv d) :
    ∃ vs, addpfxFrom f w = some { w.adds vs with s := c.adv d } ∧ textOf m vs = (c.rest m).take d := by
  obtain ⟨vs, k, h1, h2, h3, h4⟩ := addpfxLoop_spec m hv hd hf hs hp
  obtain ⟨j, rfl⟩ : ∃ j, d = k + j := ⟨d - k, by omega⟩
  rw [Cursor.adv_add] at h3 hp ⊢
  obtain ⟨us, h5, h6⟩ := addpfxLast_spec (w := { w.adds vs with s := c.adv k }) m (hv.adv k) h3.symm rfl hp
  refine ⟨us ++ vs, ?_, ?_⟩
  · rw [addpfxFrom, h1, Option.bind_some, h5, ← adds_adds]
    rfl
  · rw [textOf_append, h4, h6, hv.rest_adv, List.take_add]

end Pieces

/-! ## `esi_addpfx` -/

section Addpfx

variable {env : Env} {st : Store} {w : Work} {q r : List UInt8}

theorem esiAddpfx_of_not_rem (hrem : w.remflg = false) : esiAddpfx w = addpfxFrom (w.s.st.length + 1) w := by
  unfold esiAddpfx
  rw [if_neg (by rw [hrem]; exact Bool.false_ne_true)]
  rfl

theorem esiAddpfx_rem (hrem : w.remflg = true) : esiAddpfx (w.on env st r) = some { w.on env st r with s := st.ptr env r } := by
  have h : (w.on env st r).remflg = true := hrem
  unfold esiAddpfx
  rw [if_pos h]
  rfl

theorem esiAddpfx_clean (hrem : w.remflg = false) (hq : q <:+ st.body env) (hr : r <:+ q) (hs : w.s = st.ptr env q) :
    ∃ vs, esiAddpfx (w.on env st r) = some { (w.adds vs).on env st r with s := st.ptr env r } ∧
      textOf env.mem vs = upTo q r := by
  have hrest := st.rest_ptr hq
  have hlen := hr.length_le
  obtain ⟨vs, h1, h2⟩ := addpfxFrom_spec (w := w.on env st r) (f := w.s.st.length + 1) env.mem (st.valid_ptr env q)
    (d := q.length - r.length) (by rw [hrest]; omega) (by rw [hs]; omega) hs (st.ptr_adv hq hr)
  refine ⟨vs, ?_, by rw [h2, hrest]; rfl⟩
  rw [esiAddpfx_of_not_rem (w := w.on env st r) hrem, st.ptr_adv hq hr]
  exact h1

/-- `s` has the address `a`, and the segment of the place where `q` is left. -/
theorem esiAddpfx_torn {a : ℕ} (hrem : w.remflg = false) (hq : q <:+ st.body env) (hr : r <:+ q)
    (hs : w.s = { st.ptr env q with p := a }) (hst : (st.ptr env r).st ≠ (st.ptr env q).st) :
    (pdiff a (st.ptr env q).e = 0 → esiAddpfx (w.on env st r) = none) ∧
    (pdiff a (st.ptr env q).e ≠ 0 →
      ∃ vs, esiAddpfx (w.on env st r) = some { (w.adds vs).on env st r with s := st.ptr env r } ∧
        (textOf env.mem vs).length + ((st.ptr env q).e - (st.ptr env q).p) =
          pdiff a (st.ptr env q).e + (q.length - r.length)) := by
  have hadv := st.ptr_adv hq hr
  have hv := st.valid_ptr env q
  have hrest := st.rest_ptr hq
  have hlen := hr.length_le
  have hlr := (st.ptr env q).length_rest env.mem
  generalize st.ptr env q = c at hs hst hadv hv hrest hlr ⊢
  have hle : c.e - c.p ≤ q.length - r.length := Cursor.adv_other (by rw [← hadv]; exact hst)
  have hne : c.st ≠ [] := by
    intro hnil
    have h := c.adv_suffix (q.length - r.length)
    rw [← hadv, hnil] at h
    exact hst ((List.suffix_nil.1 h).trans hnil.symm)
  have hstart : esiAddpfx (w.on env st r) = (esiAddbit (w.on env st r) a (pdiff a c.e)).bind fun w =>
      addpfxFrom c.st.length { w with s := nep { w.s with p := c.e } } := by
    have hse : w.s.e = c.e := by
      rw [hs]
      rfl
    rw [esiAddpfx_of_not_rem (w := w.on env st r) hrem, addpfxFrom, show (w.on env st r).s = w.s from rfl, addpfxLoop,
      if_neg (by rw [on_p, show (w.on env st r).s = w.s from rfl, hs]; exact Ne.symm hst), show (w.on env st r).s = w.s from rfl, hse, hs,
      Option.bind_assoc]
    rfl
  rw [hstart]
  constructor
  · intro h0
    rw [h0]
    rfl
  · intro h0
    obtain ⟨d', hd'⟩ : ∃ d', q.length - r.length = c.e - c.p + d' := ⟨q.length - r.length - (c.e - c.p), by omega⟩
    rw [hd', hv.adv_seg d'] at hadv
    have hs' : ((w.adds [(a, pdiff a c.e)]).on env st r).s = { c with p := a } := hs
    obtain ⟨vs, h1, h2⟩ := addpfxFrom_spec (w := { (w.adds [(a, pdiff a c.e)]).on env st r with s := .first c.st.tail })
      (f := c.st.length) env.mem (Cursor.valid_first c.st.tail) (d := d')
      (by rw [Cursor.rest_first]; rw [hrest] at hlr; omega)
      (by rw [Cursor.first_st, List.length_tail]; have := List.length_pos_iff.2 hne; omega) rfl hadv
    refine ⟨vs ++ [(a, pdiff a c.e)], ?_, ?_⟩
    · rw [esiAddbit_pos h0, Option.bind_some]
      rw [show ((w.on env st r).adds [(a, pdiff a c.e)]) = (w.adds [(a, pdiff a c.e)]).on env st r from rfl, hs',
        nep_end hne _ rfl, h1, ← hadv, ← adds_adds]
      rfl
    · rw [textOf_append, h2, Cursor.rest_first, List.length_append, List.length_take]
      rw [hrest] at hlr
      have htext : textOf env.mem [(a, pdiff a c.e)] = rd env.mem a (pdiff a c.e) := List.nil_append _
      rw [htext, length_rd]
      omega

end Addpfx

end Varnish.Esi
