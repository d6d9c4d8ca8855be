import Mathlib.Data.Nat.Notation
import Mathlib.Logic.Relation

/-!
# Varnish.Lib.Walk — recursive walks over a finite graph

A walk is given a depth; it is `none` where it goes deeper, and otherwise an error or a result.

* `forEach`: the loop over the neighbours, that stops at the first error.
* `forEach_ok`, `forEach_isSome`, `forEach_error_iff`: its rules.
* `Depth next k a`: no path from `a` has more than `k` vertices.
* `Depth.acyclic`: then there is no cycle behind `a`.
* `countP_lt`: a measure for walks that mark the vertices that they are in.
-/

namespace Varnish.Lib

/-! ## Loops -/

section ForEach

variable {σ α ε : Type} {body : σ → α → Option (Except ε σ)} {s s' : σ} {as : List α}

def forEach (body : σ → α → Option (Except ε σ)) : σ → List α → Option (Except ε σ)
  | s, [] => some (.ok s)
  | s, a :: as =>
    match body s a with
    | none => none
    | some (.error e) => some (.error e)
    | some (.ok s') => forEach body s' as

theorem forEach_ok_cons {a : α} : forEach body s (a :: as) = some (.ok s') ↔
    ∃ s1, body s a = some (.ok s1) ∧ forEach body s1 as = some (.ok s') := by
  rcases hb : body s a with _ | (e | s1)
  · simp [forEach, hb]
  · simp [forEach, hb]
  · simp [forEach, hb]

/-- An invariant of the loop, and what each turn has shown. -/
theorem forEach_ok {I : σ → Prop} {P : α → Prop}
    (hbody : ∀ a ∈ as, ∀ s s', I s → body s a = some (.ok s') → I s' ∧ P a)
    (hs : I s) (h : forEach body s as = some (.ok s')) : I s' ∧ ∀ a ∈ as, P a := by
  induction as generalizing s with
  | nil =>
    cases h
    exact ⟨hs, by simp⟩
  | cons a as ih =>
    obtain ⟨s1, h1, h2⟩ := forEach_ok_cons.mp h
    obtain ⟨hs1, hp⟩ := hbody a List.mem_cons_self s s1 hs h1
    obtain ⟨hs', hps⟩ := ih (fun b hb => hbody b (List.mem_cons_of_mem _ hb)) hs1 h2
    exact ⟨hs', List.forall_mem_cons.mpr ⟨hp, hps⟩⟩

/-- The loop ends when each turn does. -/
theorem forEach_isSome {I : σ → Prop}
    (hbody : ∀ a ∈ as, ∀ s, I s → ∃ r, body s a = some r ∧ ∀ s', r = .ok s' → I s')
    (hs : I s) : ∃ r, forEach body s as = some r := by
  induction as generalizing s with
  | nil => exact ⟨_, rfl⟩
  | cons a as ih =>
    obtain ⟨r, hr, hok⟩ := hbody a List.mem_cons_self s hs
    unfold forEach
    rw [hr]
    cases r with
    | error e => exact ⟨_, rfl⟩
    | ok s1 => exact ih (fun b hb => hbody b (List.mem_cons_of_mem _ hb)) (hok s1 rfl)

end ForEach

section Check

variable {α ε : Type}

/-- A loop that only checks has an error when one of its turns has. -/
theorem forEach_error_iff (body : Unit → α → Option (Except ε Unit)) (as : List α) (hbody : ∀ a ∈ as, ∃ r, body () a = some r) :
    ∃ r, forEach body () as = some r ∧ ((∃ e, r = .error e) ↔ ∃ a ∈ as, ∃ e, body () a = some (.error e)) := by
  induction as with
  | nil => exact ⟨.ok (), rfl, by simp⟩
  | cons a as ih =>
    obtain ⟨r, hr⟩ := hbody a List.mem_cons_self
    unfold forEach
    rw [hr]
    cases r with
    | error e => exact ⟨.error e, rfl, iff_of_true ⟨e, rfl⟩ ⟨a, List.mem_cons_self, e, hr⟩⟩
    | ok u =>
      obtain ⟨r', hr', hiff⟩ := ih fun b hb => hbody b (List.mem_cons_of_mem _ hb)
      refine ⟨r', hr', hiff.trans ?_⟩
      simp [hr]

end Check

/-! ## Depth -/

section Depth

variable {α : Type} {next : α → List α} {k l : ℕ} {a b : α}

/-- No path from the vertex has more than `k` vertices. -/
def Depth (next : α → List α) : ℕ → α → Prop
  | 0, _ => False
  | k + 1, a => ∀ b ∈ next a, Depth next k b

theorem Depth.up (h : Depth next k a) : Depth next (k + 1) a := by
  induction k generalizing a with
  | zero => exact h.elim
  | succ k ih => exact fun b hb => ih (h b hb)

theorem Depth.mono (h : Depth next k a) (hkl : k ≤ l) : Depth next l a := by
  induction hkl with
  | refl => exact h
  | step _ ih => exact ih.up

theorem Depth.step (h : Depth next k a) (hb : b ∈ next a) : Depth next k b := by
  cases k with
  | zero => exact h.elim
  | succ k => exact Depth.up (h b hb)

theorem Depth.reach (h : Depth next k a) (hab : Relation.ReflTransGen (fun a b => b ∈ next a) a b) : Depth next k b := by
  induction hab with
  | refl => exact h
  | tail _ hbc ih => exact ih.step hbc

theorem Depth.not_cycle (h : Depth next k a) : ¬ Relation.TransGen (fun a b => b ∈ next a) a a := by
  induction k generalizing a with
  | zero => exact h.elim
  | succ k ih =>
    intro hc
    -- the cycle is also one through the first vertex behind `a`
    obtain ⟨b, hab, hba⟩ := Relation.TransGen.head'_iff.mp hc
    exact ih (h b hab) (.tail' hba hab)

/-- There is no cycle behind a vertex with a depth. -/
theorem Depth.acyclic (h : Depth next k a) (hab : Relation.ReflTransGen (fun a b => b ∈ next a) a b) :
    ¬ Relation.TransGen (fun a b => b ∈ next a) b b :=
  (h.reach hab).not_cycle

end Depth

/-! ## Marks -/

/-- A walk that marks a vertex leaves fewer of them unmarked. -/
theorem countP_lt {α : Type} {p q : α → Bool} {l : List α} {a : α} (h : ∀ b ∈ l, p b = true → q b = true) (ha : a ∈ l)
    (hp : ¬ p a = true) (hq : q a = true) : l.countP p < l.countP q := by
  induction l with
  | nil => cases ha
  | cons b l ih =>
    have hle : l.countP p ≤ l.countP q := List.countP_mono_left fun c hc => h c (List.mem_cons_of_mem _ hc)
    rw [List.countP_cons, List.countP_cons]
    rcases List.mem_cons.mp ha with rfl | hal
    · rw [if_neg hp, if_pos hq]
      omega
    · have hlt := ih (fun c hc => h c (List.mem_cons_of_mem _ hc)) hal
      have hb := h b List.mem_cons_self
      split <;> split <;> first | omega | simp_all

end Varnish.Lib
