import Varnish.Lib.Bytes

/-!
# Varnish.Lib.Segments — a string that lies in several segments of a memory

* `Seg`, `Seg.Apart`: pieces of the memory.  `segBytes`: the string that they hold together.
* `Cursor`, `Cursor.next`: a place in the string, and the next one.  Behind the last byte the address is `0`.
* `Cursor.rest`: what is left of the string.  `rest_adv`: `n` steps on, `n` bytes less are left.
* `adv_lt`, `adv_seg`: steps inside of a segment, and over its end.
* `Valid.adv_ne`: where the segments lie apart, no later place has the address of an earlier one.
-/

namespace Varnish.Lib

/-! ## Segments -/

section Segments

/-- A piece of the memory, with at least one byte.  Its length is an `unsigned`. -/
structure Seg where
  ptr : ℕ
  len : ℕ
  ptr_pos : 0 < ptr
  len_pos : 0 < len
  len_lt : len < 2 ^ 32
deriving DecidableEq

def Seg.Apart (a b : Seg) : Prop := a.ptr + a.len ≤ b.ptr ∨ b.ptr + b.len ≤ a.ptr

instance : DecidableRel Seg.Apart := fun _ _ => inferInstanceAs (Decidable (_ ∨ _))

def segBytes (m : Mem) (st : List Seg) : List UInt8 := st.flatMap fun sg => rd m sg.ptr sg.len

@[simp] theorem segBytes_nil (m : Mem) : segBytes m [] = [] := rfl

@[simp] theorem segBytes_cons (m : Mem) (sg : Seg) (st : List Seg) :
    segBytes m (sg :: st) = rd m sg.ptr sg.len ++ segBytes m st := by simp [segBytes]

end Segments

/-! ## Cursors -/

section Cursors

/-- An address, and the segments from the one on that it lies in. -/
structure Cursor where
  p : ℕ
  st : List Seg
deriving DecidableEq

namespace Cursor

/-- In front of the first byte. -/
def first : List Seg → Cursor
  | [] => ⟨0, []⟩
  | sg :: st => ⟨sg.ptr, sg :: st⟩

/-- The end of the segment. -/
def e (c : Cursor) : ℕ :=
  match c.st with
  | [] => 0
  | sg :: _ => sg.ptr + sg.len

def next (c : Cursor) : Cursor :=
  if c.p + 1 < c.e then { c with p := c.p + 1 } else first c.st.tail

def adv : ℕ → Cursor → Cursor
  | 0, c => c
  | n + 1, c => adv n c.next

def Valid (c : Cursor) : Prop :=
  match c.st with
  | [] => c.p = 0
  | sg :: _ => sg.ptr ≤ c.p ∧ c.p < sg.ptr + sg.len

def rest (m : Mem) (c : Cursor) : List UInt8 := rd m c.p (c.e - c.p) ++ segBytes m c.st.tail

@[simp] theorem first_st (st : List Seg) : (first st).st = st := by cases st <;> rfl

theorem valid_first (st : List Seg) : (first st).Valid := by
  cases st with
  | nil => rfl
  | cons sg st => exact ⟨le_refl _, Nat.lt_add_of_pos_right sg.len_pos⟩

@[simp] theorem rest_first (m : Mem) (st : List Seg) : (first st).rest m = segBytes m st := by
  cases st with
  | nil => rfl
  | cons sg st => simp [rest, first, e]

theorem Valid.eq_first {c : Cursor} (h : c.Valid) (hst : c.st = []) : c = first [] := by
  obtain ⟨p, st⟩ := c
  simp only at hst
  subst hst
  have hp : p = 0 := h
  rw [hp]
  rfl

theorem Valid.p_lt {c : Cursor} (h : c.Valid) (hst : c.st ≠ []) : 0 < c.p ∧ c.p < c.e ∧ c.e - c.p < 2 ^ 32 := by
  obtain ⟨p, st⟩ := c
  cases st with
  | nil => exact absurd rfl hst
  | cons sg st =>
    obtain ⟨h1, h2⟩ : sg.ptr ≤ p ∧ p < sg.ptr + sg.len := h
    have := sg.ptr_pos
    have := sg.len_lt
    show 0 < p ∧ p < sg.ptr + sg.len ∧ sg.ptr + sg.len - p < 2 ^ 32
    omega

theorem Valid.next {c : Cursor} (h : c.Valid) : c.next.Valid := by
  unfold Cursor.next
  by_cases hlt : c.p + 1 < c.e
  · rw [if_pos hlt]
    obtain ⟨p, st⟩ := c
    cases st with
    | nil => exact absurd hlt (Nat.not_lt_zero _)
    | cons sg st =>
      obtain ⟨h1, h2⟩ : sg.ptr ≤ p ∧ p < sg.ptr + sg.len := h
      exact ⟨Nat.le_succ_of_le h1, hlt⟩
  · rw [if_neg hlt]
    exact valid_first _

theorem Valid.adv {c : Cursor} (h : c.Valid) (n : ℕ) : (c.adv n).Valid := by
  induction n generalizing c with
  | zero => exact h
  | succ n ih => exact ih h.next

theorem adv_add (c : Cursor) (a b : ℕ) : c.adv (a + b) = (c.adv a).adv b := by
  induction a generalizing c with
  | zero => rw [Nat.zero_add]; rfl
  | succ a ih => rw [Nat.succ_add]; exact ih c.next

theorem adv_succ (c : Cursor) (n : ℕ) : c.adv (n + 1) = (c.adv n).next := adv_add c n 1

end Cursor

end Cursors

/-! ## What is left -/

section Rest

namespace Cursor

variable {c : Cursor} {m : Mem}

theorem rest_of_lt (m : Mem) (h : c.p < c.e) : c.rest m = m c.p :: (rd m (c.p + 1) (c.e - (c.p + 1)) ++ segBytes m c.st.tail) := by
  unfold rest
  rw [show c.e - c.p = 1 + (c.e - (c.p + 1)) by omega, rd_add]
  rfl

theorem Valid.rest_eq_nil (h : c.Valid) : c.rest m = [] ↔ c.st = [] := by
  constructor
  · intro hr
    by_contra hst
    rw [rest_of_lt m (h.p_lt hst).2.1] at hr
    exact List.cons_ne_nil _ _ hr
  · intro hst
    rw [h.eq_first hst]
    rfl

theorem Valid.lt_e_iff (h : c.Valid) : c.p < c.e ↔ c.rest m ≠ [] := by
  rw [Ne, h.rest_eq_nil]
  constructor
  · intro hlt hst
    rw [h.eq_first hst] at hlt
    exact absurd hlt (lt_irrefl 0)
  · intro hst
    exact (h.p_lt hst).2.1

theorem Valid.p_eq_zero (h : c.Valid) : c.p = 0 ↔ c.rest m = [] := by
  rw [h.rest_eq_nil]
  constructor
  · intro hp
    by_contra hst
    exact absurd hp (h.p_lt hst).1.ne'
  · intro hst
    rw [h.eq_first hst]
    rfl

/-- The byte at the cursor. -/
theorem Valid.head (h : c.Valid) : (c.rest m).headD 0 = if c.p = 0 then 0 else m c.p := by
  by_cases hp : c.p = 0
  · rw [if_pos hp, h.p_eq_zero.1 hp]
    rfl
  · rw [if_neg hp, rest_of_lt m ((h.lt_e_iff (m := m)).2 fun hr => hp (h.p_eq_zero.2 hr))]
    rfl

theorem Valid.rest_next (h : c.Valid) : c.next.rest m = (c.rest m).tail := by
  by_cases hst : c.st = []
  · rw [h.eq_first hst]
    rfl
  · rw [rest_of_lt m (h.p_lt hst).2.1, List.tail_cons]
    unfold Cursor.next
    by_cases hlt : c.p + 1 < c.e
    · rw [if_pos hlt]
      rfl
    · rw [if_neg hlt, rest_first, show c.e - (c.p + 1) = 0 by omega, rd_zero, List.nil_append]

theorem Valid.rest_adv (h : c.Valid) (n : ℕ) : (c.adv n).rest m = (c.rest m).drop n := by
  induction n generalizing c with
  | zero => rfl
  | succ n ih =>
    show (c.next.adv n).rest m = _
    rw [ih h.next, h.rest_next, List.drop_tail]

theorem length_rest (c : Cursor) (m : Mem) : (c.rest m).length = c.e - c.p + (segBytes m c.st.tail).length := by
  simp [rest]

end Cursor

end Rest

/-! ## Steps inside of a segment, and over its end -/

section Steps

namespace Cursor

variable {c : Cursor} {m : Mem} {d i j : ℕ}

theorem adv_lt (h : d < c.e - c.p) : c.adv d = { c with p := c.p + d } := by
  induction d with
  | zero => rfl
  | succ d ih =>
    rw [adv_succ, ih (by omega)]
    show (if c.p + d + 1 < c.e then _ else _) = _
    rw [if_pos (by omega)]
    rfl

theorem Valid.adv_seg (h : c.Valid) (d : ℕ) : c.adv (c.e - c.p + d) = (first c.st.tail).adv d := by
  by_cases hst : c.st = []
  · rw [h.eq_first hst]
    show (first []).adv (0 + d) = _
    rw [Nat.zero_add]
    rfl
  · have hlt := (h.p_lt hst).2.1
    obtain ⟨k, hk⟩ : ∃ k, c.e - c.p = k + 1 := ⟨c.e - c.p - 1, by omega⟩
    have hend : c.adv (k + 1) = first c.st.tail := by
      rw [adv_succ, adv_lt (by omega)]
      show (if c.p + k + 1 < c.e then _ else _) = _
      rw [if_neg (by omega)]
    rw [hk, adv_add, hend]

theorem next_suffix (c : Cursor) : c.next.st <:+ c.st := by
  unfold next
  split
  · exact List.suffix_refl _
  · rw [first_st]
    exact List.tail_suffix _

theorem adv_suffix (c : Cursor) (d : ℕ) : (c.adv d).st <:+ c.st := by
  induction d generalizing c with
  | zero => exact List.suffix_refl _
  | succ d ih => exact (ih c.next).trans c.next_suffix

/-- In the same segment, the steps are the distance. -/
theorem Valid.adv_same (h : c.Valid) (hst : c.st ≠ []) (hd : (c.adv d).st = c.st) :
    d < c.e - c.p ∧ (c.adv d).p = c.p + d := by
  by_cases hlt : d < c.e - c.p
  · exact ⟨hlt, by rw [adv_lt hlt]⟩
  · exfalso
    rw [show d = c.e - c.p + (d - (c.e - c.p)) by omega, h.adv_seg] at hd
    have hle := (adv_suffix (first c.st.tail) (d - (c.e - c.p))).length_le
    rw [hd, first_st, List.length_tail] at hle
    have := List.length_pos_iff.2 hst
    omega

/-- In another segment, the end of this one is passed. -/
theorem adv_other (hd : (c.adv d).st ≠ c.st) : c.e - c.p ≤ d := by
  by_contra hlt
  rw [adv_lt (by omega)] at hd
  exact hd rfl

/-- What is passed inside of a segment. -/
theorem take_rest (m : Mem) (hd : d ≤ c.e - c.p) : (c.rest m).take d = rd m c.p d := by
  unfold rest
  rw [List.take_append_of_le_length (by simpa using hd), show c.e - c.p = d + (c.e - c.p - d) by omega, rd_add,
    List.take_left' (length_rd m c.p d)]

theorem Valid.mem_seg (h : c.Valid) (hst : c.st ≠ []) : ∃ sg ∈ c.st, sg.ptr ≤ c.p ∧ c.p < sg.ptr + sg.len := by
  obtain ⟨p, st⟩ := c
  cases st with
  | nil => exact absurd rfl hst
  | cons sg st => exact ⟨sg, List.mem_cons_self, h⟩

/-- Where the segments lie apart, no address comes back. -/
theorem Valid.adv_ne (h : c.Valid) (hap : c.st.Pairwise Seg.Apart) (hst : c.st ≠ []) (hd : 0 < d) : (c.adv d).p ≠ c.p := by
  have hlt := h.p_lt hst
  by_cases hin : d < c.e - c.p
  · rw [adv_lt hin]
    show c.p + d ≠ c.p
    omega
  · rw [show d = c.e - c.p + (d - (c.e - c.p)) by omega, h.adv_seg]
    generalize d - (c.e - c.p) = k
    have hv := (valid_first c.st.tail).adv k
    intro heq
    by_cases hnil : ((first c.st.tail).adv k).st = []
    · rw [hv.eq_first hnil] at heq
      exact absurd heq.symm hlt.1.ne'
    · obtain ⟨sg, hmem, hlo, hhi⟩ := hv.mem_seg hnil
      have hmem : sg ∈ c.st.tail := first_st c.st.tail ▸ (adv_suffix _ k).subset hmem
      obtain ⟨p, st⟩ := c
      cases st with
      | nil => exact hst rfl
      | cons s₀ st =>
        obtain ⟨h1, h2⟩ : s₀.ptr ≤ p ∧ p < s₀.ptr + s₀.len := h
        simp only at heq
        rw [heq] at hlo hhi
        rcases List.rel_of_pairwise_cons hap hmem with hap | hap <;> omega

end Cursor

end Steps

end Varnish.Lib
