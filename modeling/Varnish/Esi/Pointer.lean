import Varnish.Esi.Lex

/-!
# Varnish.Esi.Pointer — pointers into a body, by what is left of it

* `Store`: the segments of a body.  `Store.pos`: the place behind `n` bytes.
* `Store.ptr`: the place where `r` is left of the body.  `Work.on`: the parser is there.
* `N_on`, `deref_ptr`, `cmp_ptr`: one step, one byte and one marker, told by what is left.
* `skipTo_on`, `skipGt_on`, `pull_ptr`: the loops.
-/

namespace Varnish.Esi

open Varnish.Lib

/-! ## Places -/

section Places

/-- The segments of a body lie apart. -/
structure Store where
  segs : List Seg
  apart : segs.Pairwise Seg.Apart

variable (env : Env) (st : Store)

def Store.body : List UInt8 := segBytes env.mem st.segs

def Store.pos (n : ℕ) : EsiPtr := (Cursor.first st.segs).adv n

def Store.ptr (r : List UInt8) : EsiPtr := st.pos ((st.body env).length - r.length)

/-- The parser, with `r` left of the body. -/
def Work.on (w : Work) (r : List UInt8) : Work :=
  { w with p := st.ptr env r, off := (st.body env).length - r.length + 1 }

variable {env} {st} {r q : List UInt8}

theorem Store.valid_pos (n : ℕ) : (st.pos n).Valid := (Cursor.valid_first _).adv n

theorem Store.rest_pos (n : ℕ) : (st.pos n).rest env.mem = (st.body env).drop n := by
  rw [pos, (Cursor.valid_first _).rest_adv, Cursor.rest_first]
  rfl

theorem Store.valid_ptr (env : Env) (st : Store) (r : List UInt8) : (st.ptr env r).Valid := valid_pos _

theorem suffix_drop (h : r <:+ q) : q.drop (q.length - r.length) = r := by
  obtain ⟨t, rfl⟩ := h
  simp

theorem Store.rest_ptr (hr : r <:+ st.body env) : (st.ptr env r).rest env.mem = r := by
  rw [ptr, rest_pos, suffix_drop hr]

/-- From one place to a later one. -/
theorem Store.ptr_adv (hq : q <:+ st.body env) (hr : r <:+ q) : st.ptr env r = (st.ptr env q).adv (q.length - r.length) := by
  have h1 := hq.length_le
  have h2 := hr.length_le
  unfold ptr pos
  rw [← Cursor.adv_add]
  congr 1
  omega

theorem Store.ptr_st (hr : r <:+ st.body env) : (st.ptr env r).st = [] ↔ r = [] := by
  rw [← (valid_ptr env st r).rest_eq_nil (m := env.mem), rest_ptr hr]

theorem Store.ptr_lt (hr : r <:+ st.body env) : (st.ptr env r).p < (st.ptr env r).e ↔ r ≠ [] := by
  rw [(valid_ptr env st r).lt_e_iff (m := env.mem), rest_ptr hr]

end Places

/-! ## Steps and comparisons -/

section Steps

variable {env : Env} {st : Store} {w : Work} {r : List UInt8}

theorem nep_eq {c : EsiPtr} (h : c.Valid) : nep c = c.next := by
  unfold nep
  by_cases hp : c.p = finis
  · rw [if_pos hp]
    by_cases hst : c.st = []
    · rw [h.eq_first hst]
      rfl
    · exact absurd hp (h.p_lt hst).1.ne'
  · rw [if_neg hp]
    unfold Cursor.next
    congr 1

theorem nep_ptr (hr : r <:+ st.body env) : nep (st.ptr env r) = st.ptr env r.tail := by
  rw [nep_eq (st.valid_ptr env r)]
  cases r with
  | nil =>
    have h := (st.valid_ptr env []).eq_first ((st.ptr_st hr).2 rfl)
    rw [List.tail_nil, h]
    rfl
  | cons c t => rw [List.tail_cons, st.ptr_adv hr (List.suffix_cons c t), List.length_cons, Nat.add_sub_cancel_left]; rfl

theorem deref_ptr (hr : r <:+ st.body env) : deref env (st.ptr env r) = r.headD 0 := by
  have h := (st.valid_ptr env r).head (m := env.mem)
  rw [st.rest_ptr hr] at h
  exact h.symm

theorem suffix_tail (hr : r <:+ st.body env) : r.tail <:+ st.body env := (List.tail_suffix r).trans hr

theorem suffix_dropn (hr : r <:+ st.body env) (n : ℕ) : r.drop n <:+ st.body env := (List.drop_suffix n r).trans hr

theorem cmpLoop_ptr (hr : r <:+ st.body env) (str : List UInt8) :
    cmpLoop env str (st.ptr env r) = 0 ↔ cmpBytes str r = true := by
  induction str generalizing r with
  | nil => simp [cmpLoop, cmpBytes]
  | cons c str ih =>
    rw [cmpLoop, cmpBytes, deref_ptr hr]
    by_cases hc : c = r.headD 0
    · rw [if_pos hc, if_pos hc, nep_ptr hr]
      exact ih (suffix_tail hr)
    · rw [if_neg hc, if_neg hc]
      simp

theorem cmp_ptr (hr : r <:+ st.body env) (lit : List UInt8) :
    cmp env (st.ptr env r) lit = 0 ↔ Matcher.code env lit r = true := cmpLoop_ptr hr _

theorem N_on (hr : r <:+ st.body env) : (w.on env st r).N = w.on env st r.tail := by
  have hl := hr.length_le
  unfold Work.N Work.on
  simp only [nep_ptr hr, st.ptr_lt hr, Work.mk.injEq, and_true]
  cases r with
  | nil => rfl
  | cons c t =>
    rw [if_pos (List.cons_ne_nil c t), List.tail_cons]
    rw [List.length_cons] at hl ⊢
    omega

theorem Ns_on (hr : r <:+ st.body env) (n : ℕ) : (w.on env st r).Ns n = w.on env st (r.drop n) := by
  induction n generalizing r with
  | zero => rfl
  | succ n ih =>
    rw [Work.Ns, N_on hr, ih (suffix_tail hr), List.drop_tail]

end Steps

/-! ## The loops -/

section Loops

variable {env : Env} {st : Store} {w : Work} {r q : List UInt8}

@[simp] theorem on_p : (w.on env st r).p = st.ptr env r := rfl

/-- A marker that starts with `c` is only found at a `c`. -/
theorem code_head (c : UInt8) (lit : List UInt8) (h0 : 0 ∉ c :: lit) (h : Matcher.code env (c :: lit) r = true) :
    r.headD 0 = c := by
  obtain ⟨t, rfl⟩ := (starts_of_cmpBytes h0 h).1
  rfl

theorem skipTo_on (c : UInt8) (lit : List UInt8) {f : ℕ} (h0 : 0 ∉ c :: lit) (hr : r <:+ st.body env) (hf : r.length ≤ f) :
    skipTo env c (c :: lit) f (w.on env st r) = w.on env st (endOf (Matcher.code env) (c :: lit) r.tail) := by
  induction f generalizing r with
  | zero =>
    rw [List.length_eq_zero_iff.1 (Nat.le_zero.1 hf)]
    rfl
  | succ f ih =>
    have ht := suffix_tail hr
    rw [skipTo]
    simp only [N_on hr, on_p, deref_ptr ht, cmp_ptr ht, st.ptr_lt ht]
    cases hrt : r.tail with
    | nil =>
      rw [if_neg, if_neg (by simp)]
      · rfl
      · exact fun h => h0 (h.1 ▸ List.mem_cons_self)
    | cons d t =>
      rw [hrt] at ht
      have hlen : (d :: t).length ≤ f := by
        rw [← hrt, List.length_tail]
        omega
      rw [endOf]
      by_cases hm : Matcher.code env (c :: lit) (d :: t) = true
      · rw [if_pos ⟨code_head c lit h0 hm, hm⟩, if_pos hm, Ns_on ht]
      · rw [if_neg fun h => hm h.2, if_neg hm, if_pos (List.cons_ne_nil d t), ih ht hlen]
        rfl

theorem skipGt_on {f : ℕ} (hr : r <:+ st.body env) (hf : r.length ≤ f) :
    skipGt env f (w.on env st r) = w.on env st (r.tail.dropWhile (· ≠ 62)) := by
  induction f generalizing r with
  | zero =>
    rw [List.length_eq_zero_iff.1 (Nat.le_zero.1 hf)]
    rfl
  | succ f ih =>
    have ht := suffix_tail hr
    rw [skipGt]
    simp only [N_on hr, on_p, deref_ptr ht, st.ptr_lt ht]
    cases hrt : r.tail with
    | nil => rw [if_neg (by simp)]; rfl
    | cons d t =>
      rw [hrt] at ht
      have hlen : (d :: t).length ≤ f := by
        rw [← hrt, List.length_tail]
        omega
      rw [List.headD_cons]
      by_cases hd : d = 62
      · rw [if_neg (by simp [hd]), List.dropWhile_cons_of_neg (by simp [hd])]
      · rw [if_pos ⟨hd, List.cons_ne_nil d t⟩, ih ht hlen, List.dropWhile_cons_of_pos (by simp [hd])]
        rfl

/-- An element is pulled together up to the place where the parser stands. -/
theorem pull_ptr {f : ℕ} (hq : q <:+ st.body env) (hr : r <:+ q) (hf : q.length - r.length < f) :
    pull env f (st.ptr env q) (st.ptr env r).p = upTo q r := by
  induction f generalizing q with
  | zero => exact absurd hf (Nat.not_lt_zero _)
  | succ f ih =>
    have hlen := hr.length_le
    rw [pull]
    by_cases heq : q.length = r.length
    · have hqr : r = q := hr.eq_of_length heq.symm
      rw [hqr, if_pos rfl]
      simp [upTo]
    · have hne : (st.ptr env q).p ≠ (st.ptr env r).p := by
        rw [st.ptr_adv hq hr]
        refine ((st.valid_ptr env q).adv_ne ?_ ?_ (by omega)).symm
        · have hsub := ((Cursor.first st.segs).adv_suffix ((st.body env).length - q.length)).sublist
          rw [Cursor.first_st] at hsub
          exact st.apart.sublist hsub
        · rw [Ne, st.ptr_st hq]
          rintro rfl
          exact heq (Nat.le_zero.1 hlen).symm
      rw [if_neg hne, deref_ptr hq, nep_ptr hq]
      cases q with
      | nil => exact absurd (Nat.le_zero.1 hlen).symm heq
      | cons c t =>
        have hrt : r <:+ t := by
          rcases List.suffix_cons_iff.1 hr with h | h
          · exact absurd (congrArg List.length h).symm heq
          · exact h
        have hl := hrt.length_le
        rw [List.length_cons] at hf
        have ht := suffix_tail hq
        rw [List.tail_cons] at ht ⊢
        rw [ih ht hrt (by omega)]
        unfold upTo
        rw [List.length_cons, show t.length + 1 - r.length = (t.length - r.length) + 1 by omega]
        rfl

end Loops

end Varnish.Esi
