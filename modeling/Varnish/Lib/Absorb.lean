import Mathlib.Data.List.Basic
import Mathlib.Data.List.FinRange

/-!
# Varnish.Lib.Absorb — a state that takes in its input block by block

`f : σ → List β → σ` takes a block of `n` items into the state.

* `push f n`: one item more.  The items that do not fill a block yet are held.
* `foldl_push_of_lt`, `foldl_push_of_eq`: a piece that stays below the block, and one that completes it.
* `blocksOf`, `blocks`: an input cut into blocks.  `flatten_blocks`: nothing is lost when they fill it.
* `foldl_push_flatten`, `foldl_push`: item by item is block by block.
* `foldl_finRange`, `foldl_finRange₂`: the invariant of a loop over an index, and of two loops side by side.
-/

namespace Varnish.Lib

variable {β σ : Type*} {f : σ → List β → σ} {n : ℕ} {s : σ} {h p m : List β}

/-! ## Item by item -/

section Push

/-- The state and the items of the block that is not full yet, after one more item. -/
def push (f : σ → List β → σ) (n : ℕ) (c : σ × List β) (b : β) : σ × List β :=
  if c.2.length + 1 = n then (f c.1 (c.2 ++ [b]), []) else (c.1, c.2 ++ [b])

/-- The piece stays below the block. -/
theorem foldl_push_of_lt (hp : h.length + p.length < n) : p.foldl (push f n) (s, h) = (s, h ++ p) := by
  induction p generalizing h with
  | nil => simp
  | cons b p ih =>
    rw [List.length_cons] at hp
    rw [List.foldl_cons, push, if_neg (by simp only; omega), ih (by rw [List.length_append]; simp; omega)]
    simp

/-- The piece completes the block. -/
theorem foldl_push_of_eq (hp : h.length + p.length = n) (hne : p ≠ []) :
    p.foldl (push f n) (s, h) = (f s (h ++ p), []) := by
  induction p generalizing h with
  | nil => exact absurd rfl hne
  | cons b p ih =>
    rw [List.length_cons] at hp
    cases p with
    | nil =>
      rw [List.length_nil] at hp
      rw [List.foldl_cons, push, if_pos (by simp only; omega), List.foldl_nil]
    | cons b' p =>
      rw [List.length_cons] at hp
      rw [List.foldl_cons, push, if_neg (by simp only; omega),
        ih (by rw [List.length_append]; simp; omega) (List.cons_ne_nil _ _)]
      simp

end Push

/-! ## Block by block -/

section Blocks

/-- The first `k` blocks. -/
def blocksOf (n : ℕ) : ℕ → List β → List (List β)
  | 0, _ => []
  | k + 1, m => m.take n :: blocksOf n k (m.drop n)

def blocks (n : ℕ) (m : List β) : List (List β) := blocksOf n (m.length / n) m

theorem flatten_blocksOf {k : ℕ} (hm : m.length = n * k) : (blocksOf n k m).flatten = m := by
  induction k generalizing m with
  | zero =>
    rw [Nat.mul_zero, List.length_eq_zero_iff] at hm
    rw [hm]
    rfl
  | succ k ih =>
    rw [blocksOf, List.flatten_cons, ih, List.take_append_drop]
    rw [List.length_drop, hm, Nat.mul_succ, Nat.add_sub_cancel]

theorem flatten_blocks (hm : n ∣ m.length) : (blocks n m).flatten = m :=
  flatten_blocksOf (Nat.mul_div_cancel' hm).symm

theorem length_of_mem_blocksOf {k : ℕ} (hm : n * k ≤ m.length) (hp : p ∈ blocksOf n k m) : p.length = n := by
  induction k generalizing m with
  | zero => cases hp
  | succ k ih =>
    rw [Nat.mul_succ] at hm
    rcases List.mem_cons.mp hp with rfl | hp
    · rw [List.length_take]
      omega
    · exact ih (by rw [List.length_drop]; omega) hp

theorem length_of_mem_blocks (hp : p ∈ blocks n m) : p.length = n :=
  length_of_mem_blocksOf (Nat.mul_div_le _ _) hp

theorem foldl_push_flatten {bs : List (List β)} (hn : 0 < n) (hbs : ∀ b ∈ bs, b.length = n) :
    bs.flatten.foldl (push f n) (s, []) = (bs.foldl f s, []) := by
  induction bs generalizing s with
  | nil => rfl
  | cons b bs ih =>
    have hb := hbs b List.mem_cons_self
    have hne : b ≠ [] := by
      rintro rfl
      exact absurd hb (Nat.ne_of_lt hn)
    have hlen : ([] : List β).length + b.length = n := by rw [List.length_nil, Nat.zero_add, hb]
    rw [List.flatten_cons, List.foldl_append, foldl_push_of_eq hlen hne, List.nil_append,
      ih fun b' hb' => hbs b' (List.mem_cons_of_mem _ hb'), List.foldl_cons]

/-- An input of whole blocks, taken in item by item, is taken in block by block. -/
theorem foldl_push (hn : 0 < n) (hm : n ∣ m.length) :
    m.foldl (push f n) (s, []) = ((blocks n m).foldl f s, []) := by
  conv_lhs => rw [← flatten_blocks hm]
  exact foldl_push_flatten hn fun b hb => length_of_mem_blocks hb

end Blocks

/-! ## Loops over an index -/

section Loops

variable {α τ : Type*}

theorem foldl_finRange₂ {k : ℕ} {R : ℕ → α → τ → Prop} {g : α → Fin k → α} {G : τ → Fin k → τ} {a : α} {t : τ}
    (h0 : R 0 a t) (hstep : ∀ (i : Fin k) a t, R i a t → R (i + 1) (g a i) (G t i)) :
    R k ((List.finRange k).foldl g a) ((List.finRange k).foldl G t) := by
  induction k generalizing R a t with
  | zero => exact h0
  | succ k ih =>
    simp only [List.finRange_succ, List.foldl_cons, List.foldl_map]
    refine ih (R := fun i => R (i + 1)) (hstep 0 a t h0) fun i a t h => ?_
    exact hstep i.succ a t h

theorem foldl_finRange {k : ℕ} {P : ℕ → α → Prop} {g : α → Fin k → α} {a : α} (h0 : P 0 a)
    (hstep : ∀ (i : Fin k) a, P i a → P (i + 1) (g a i)) : P k ((List.finRange k).foldl g a) :=
  foldl_finRange₂ (R := fun i a (_ : Unit) => P i a) (G := fun t _ => t) (t := ()) h0 fun i a _ h => hstep i a h

end Loops

end Varnish.Lib
