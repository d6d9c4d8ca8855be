import Mathlib.Data.List.Basic

/-!
# Varnish.Lib.Tailq — the operations of a tail queue on lists

A tail queue is a list of distinct elements, and an element is found in it by itself.

* `before`, `after`: the elements on both sides of one.
* `insertBefore`, `insertAfter`, `next`, `prev`: what is done at an element.
* `insertBefore_mid`, `insertAfter_mid`, `next_mid`, `prev_mid`, `erase_mid`: the same where the list is written out.
* `insertWhile`: an element goes before the first one that a condition stops at.
-/

namespace Varnish.Lib.Tailq

variable {α : Type} [DecidableEq α] {p q : α} {l₁ l₂ : List α}

def before (p : α) (l : List α) : List α := l.takeWhile (· ≠ p)

def after (p : α) (l : List α) : List α := (l.dropWhile (· ≠ p)).tail

/-- `VTAILQ_INSERT_BEFORE` -/
def insertBefore (q p : α) (l : List α) : List α := before p l ++ q :: l.dropWhile (· ≠ p)

/-- `VTAILQ_INSERT_AFTER` -/
def insertAfter (q p : α) (l : List α) : List α := before p l ++ p :: q :: after p l

/-- `VTAILQ_NEXT` -/
def next (p : α) (l : List α) : Option α := (after p l).head?

/-- `VTAILQ_PREV` -/
def prev (p : α) (l : List α) : Option α := (before p l).getLast?

/-- The loop that looks for the place of an element, and its insertion there. -/
def insertWhile (pass : α → Bool) (p : α) (l : List α) : List α := l.takeWhile pass ++ p :: l.dropWhile pass

theorem dropWhile_mid (hp : p ∉ l₁) : (l₁ ++ p :: l₂).dropWhile (· ≠ p) = p :: l₂ := by
  rw [List.dropWhile_append_of_pos, List.dropWhile_cons_of_neg]
  · simp
  · intro a ha
    exact decide_eq_true fun he => hp (he ▸ ha)

theorem before_mid (hp : p ∉ l₁) : before p (l₁ ++ p :: l₂) = l₁ := by
  rw [before, List.takeWhile_append_of_pos, List.takeWhile_cons_of_neg, List.append_nil]
  · simp
  · intro a ha
    exact decide_eq_true fun he => hp (he ▸ ha)

theorem after_mid (hp : p ∉ l₁) : after p (l₁ ++ p :: l₂) = l₂ := by
  rw [after, dropWhile_mid hp, List.tail_cons]

theorem insertBefore_mid (hp : p ∉ l₁) : insertBefore q p (l₁ ++ p :: l₂) = l₁ ++ q :: p :: l₂ := by
  rw [insertBefore, before_mid hp, dropWhile_mid hp]

theorem insertAfter_mid (hp : p ∉ l₁) : insertAfter q p (l₁ ++ p :: l₂) = l₁ ++ p :: q :: l₂ := by
  rw [insertAfter, before_mid hp, after_mid hp]

theorem next_mid (hp : p ∉ l₁) : next p (l₁ ++ p :: l₂) = l₂.head? := by
  rw [next, after_mid hp]

theorem prev_mid (hp : p ∉ l₁) : prev p (l₁ ++ p :: l₂) = l₁.getLast? := by
  rw [prev, before_mid hp]

theorem erase_mid (hp : p ∉ l₁) : (l₁ ++ p :: l₂).erase p = l₁ ++ l₂ := by
  rw [List.erase_append_right _ hp, List.erase_cons_head]

omit [DecidableEq α] in
theorem mem_insertWhile {pass : α → Bool} {x : α} {l : List α} : x ∈ insertWhile pass p l ↔ x = p ∨ x ∈ l := by
  rw [insertWhile, List.mem_append, List.mem_cons]
  constructor
  · rintro (h | rfl | h)
    · exact .inr ((List.takeWhile_sublist _).subset h)
    · exact .inl rfl
    · exact .inr ((List.dropWhile_sublist _).subset h)
  · rintro (rfl | h)
    · exact .inr (.inl rfl)
    · rw [← List.takeWhile_append_dropWhile (p := pass) (l := l), List.mem_append] at h
      rcases h with h | h
      · exact .inl h
      · exact .inr (.inr h)

omit [DecidableEq α] in
theorem perm_insertWhile (pass : α → Bool) (p : α) (l : List α) : (insertWhile pass p l).Perm (p :: l) := by
  have h : (insertWhile pass p l).Perm (p :: (l.takeWhile pass ++ l.dropWhile pass)) := List.perm_middle
  rwa [List.takeWhile_append_dropWhile] at h

omit [DecidableEq α] in
/-- Insertion keeps an order when the element goes behind all that are passed, and before the rest. -/
theorem pairwise_insertWhile_of {R : α → α → Prop} {pass : α → Bool} {l : List α} (hl : l.Pairwise R)
    (hpass : ∀ a ∈ l, pass a = true → R a p) (hstop : ∀ a ∈ l, pass a = false → R p a ∧ ∀ b ∈ l, R a b → R p b) :
    (insertWhile pass p l).Pairwise R := by
  induction l with
  | nil => exact List.pairwise_singleton _ _
  | cons a l ih =>
    obtain ⟨ha, htl⟩ := List.pairwise_cons.mp hl
    cases hp : pass a with
    | false =>
      rw [insertWhile, List.takeWhile_cons_of_neg (by simp [hp]), List.dropWhile_cons_of_neg (by simp [hp])]
      obtain ⟨hpa, hpb⟩ := hstop a List.mem_cons_self hp
      refine List.pairwise_cons.mpr ⟨fun b hb => ?_, hl⟩
      rcases List.mem_cons.mp hb with rfl | hb
      · exact hpa
      · exact hpb b (List.mem_cons_of_mem _ hb) (ha b hb)
    | true =>
      rw [insertWhile, List.takeWhile_cons_of_pos hp, List.dropWhile_cons_of_pos hp]
      refine List.pairwise_cons.mpr ⟨fun b hb => ?_, ih htl ?_ ?_⟩
      · rcases mem_insertWhile.mp hb with rfl | hb
        · exact hpass a List.mem_cons_self hp
        · exact ha b hb
      · intro b hb
        exact hpass b (List.mem_cons_of_mem _ hb)
      · intro b hb hf
        obtain ⟨hpb, hpc⟩ := hstop b (List.mem_cons_of_mem _ hb) hf
        exact ⟨hpb, fun c hc => hpc c (List.mem_cons_of_mem _ hc)⟩

omit [DecidableEq α] in
/-- Insertion keeps the order of a key, when no other element has the same one. -/
theorem pairwise_insertWhile {key : α → ℕ} {l : List α} (hl : l.Pairwise fun a b => key a < key b)
    (hne : ∀ a ∈ l, key a ≠ key p) :
    (insertWhile (fun a => ¬ key p < key a) p l).Pairwise fun a b => key a < key b := by
  refine pairwise_insertWhile_of hl ?_ ?_
  · intro a ha hp
    have hle := of_decide_eq_true hp
    have := hne a ha
    omega
  · intro a ha hp
    have hlt : key p < key a := by simpa using hp
    exact ⟨hlt, fun b _ hab => Nat.lt_trans hlt hab⟩

end Varnish.Lib.Tailq
