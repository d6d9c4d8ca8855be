import Mathlib.Logic.Basic

/-!
# Varnish.Lib.Run — runs of a transition system

A system is a partial step function `step : S → A → Option S`, where `none` is a failure, and a condition
`ok : S → A → Prop` on the actions that are taken.

* `Reach step ok s₀ s`: a run of `ok` actions leads from `s₀` to `s`.
* `OkRun step ok s as`, `Reach.of_run`: a given list of actions is such a run, which can be decided.
* `Reach.inv`: what holds at the start and is kept by every step holds in every state of a run.
* `countdown`, `exists_countdown`: runs in which every step counts down.
* `answers`, `answers_refine`: a run against a total specification.
* `outputs`, `outputs_sim`: the answers of a system that gives one at each step, and when two systems give the same.
-/

namespace Varnish.Lib

variable {S A : Type} {step : S → A → Option S} {ok ok' : S → A → Prop} {s₀ s s' : S}

/-- A run of `ok` actions leads from `s₀` to the state. -/
inductive Reach (step : S → A → Option S) (ok : S → A → Prop) (s₀ : S) : S → Prop
  | refl : Reach step ok s₀ s₀
  | tail {s s' : S} (a : A) (h : Reach step ok s₀ s) (hok : ok s a) (hs : step s a = some s') : Reach step ok s₀ s'

/-- The invariant rule. -/
theorem Reach.inv {I : S → Prop} (h0 : I s₀) (hstep : ∀ s a s', I s → ok s a → step s a = some s' → I s')
    (h : Reach step ok s₀ s) : I s := by
  induction h with
  | refl => exact h0
  | tail a _ hok hs ih => exact hstep _ a _ ih hok hs

/-- Each action of the list is `ok` where it is taken. -/
def OkRun (step : S → A → Option S) (ok : S → A → Prop) : S → List A → Prop
  | _, [] => True
  | s, a :: as => ok s a ∧ ∀ s' ∈ step s a, OkRun step ok s' as

instance decOkRun (step : S → A → Option S) (ok : S → A → Prop) [∀ s a, Decidable (ok s a)] :
    (as : List A) → (s : S) → Decidable (OkRun step ok s as)
  | [], _ => isTrue trivial
  | a :: as, s =>
    have : Decidable (∀ s' ∈ step s a, OkRun step ok s' as) :=
      match h : step s a with
      | none => isTrue fun _ hs' => by cases hs'
      | some s' =>
        match decOkRun step ok as s' with
        | isTrue ht => isTrue fun _ hs => by cases hs; exact ht
        | isFalse hf => isFalse fun hall => hf (hall s' rfl)
    inferInstanceAs (Decidable (_ ∧ _))

theorem Reach.trans {s₁ : S} (h : Reach step ok s₀ s₁) (h' : Reach step ok s₁ s) : Reach step ok s₀ s := by
  induction h' with
  | refl => exact h
  | tail a _ hok hs ih => exact ih.tail a hok hs

theorem Reach.of_run {as : List A} (hok : OkRun step ok s₀ as) (hr : as.foldlM step s₀ = some s) :
    Reach step ok s₀ s := by
  induction as generalizing s₀ with
  | nil =>
    cases hr
    exact Reach.refl
  | cons a as ih =>
    rw [List.foldlM_cons] at hr
    obtain ⟨s1, hs1, hr⟩ := Option.bind_eq_some_iff.mp hr
    exact (Reach.refl.tail a hok.1 hs1).trans (ih (hok.2 s1 hs1) hr)

/-! ## Runs that end -/

section Countdown

variable {I : S → Prop} {μ : S → Nat} {as : List A}

/-- A run whose every step counts down by one. -/
theorem countdown (hstep : ∀ s a s', I s → step s a = some s' → I s' ∧ μ s' + 1 = μ s) (h : I s)
    (hr : as.foldlM step s = some s') : I s' ∧ as.length + μ s' = μ s := by
  induction as generalizing s with
  | nil =>
    cases hr
    exact ⟨h, Nat.zero_add _⟩
  | cons a as ih =>
    rw [List.foldlM_cons] at hr
    obtain ⟨s1, hs1, hr⟩ := Option.bind_eq_some_iff.mp hr
    obtain ⟨h1, hm⟩ := hstep s a s1 h hs1
    obtain ⟨h', hm'⟩ := ih h1 hr
    refine ⟨h', ?_⟩
    rw [List.length_cons]
    omega

/-- Such a run can go on to its end. -/
theorem exists_countdown (hstep : ∀ s a s', I s → step s a = some s' → I s' ∧ μ s' + 1 = μ s)
    (hprog : ∀ s, I s → 0 < μ s → ∃ a s', step s a = some s') {n : Nat} (h : I s) (hn : μ s = n) :
    ∃ (as : List A) (s' : S), as.foldlM step s = some s' ∧ I s' ∧ μ s' = 0 := by
  induction n generalizing s with
  | zero => exact ⟨[], s, rfl, h, hn⟩
  | succ n ih =>
    obtain ⟨a, s1, hs1⟩ := hprog s h (by omega)
    obtain ⟨h1, hm⟩ := hstep s a s1 h hs1
    obtain ⟨as, s', hr, h', hm'⟩ := ih h1 (by omega)
    refine ⟨a :: as, s', ?_, h', hm'⟩
    rw [List.foldlM_cons, hs1]
    exact hr

end Countdown

/-! ## Answers -/

section Outputs

variable {S S' A O : Type} {step : S → A → Option (S × O)} {step' : S' → A → Option (S' × O)} {ok : S → A → Prop}

/-- The answers along a list of actions. -/
def outputs (step : S → A → Option (S × O)) : S → List A → Option (List O)
  | _, [] => some []
  | s, a :: as => do
    let (s, o) ← step s a
    let os ← outputs step s as
    some (o :: os)

/-- Each action of the list is `ok` where it is taken. -/
def OkOutputs (step : S → A → Option (S × O)) (ok : S → A → Prop) (s : S) (as : List A) : Prop :=
  OkRun (fun s a => (step s a).map Prod.fst) ok s as

instance (step : S → A → Option (S × O)) (ok : S → A → Prop) [∀ s a, Decidable (ok s a)] (s : S) (as : List A) :
    Decidable (OkOutputs step ok s as) :=
  decOkRun _ _ as s

/-- The simulation rule: where each answer of the second system is one of the first, so are the answers of a run. -/
theorem outputs_sim {Rel : S → S' → Prop} {s : S} {s' : S'} {as : List A} {os : List O}
    (hstep : ∀ s s' a r', Rel s s' → ok s a → step' s' a = some r' → ∃ s1, step s a = some (s1, r'.2) ∧ Rel s1 r'.1)
    (h : Rel s s') (hok : OkOutputs step ok s as) (hos : outputs step' s' as = some os) :
    outputs step s as = some os := by
  induction as generalizing s s' os with
  | nil => exact hos
  | cons a as ih =>
    rw [outputs] at hos
    obtain ⟨⟨s1', o⟩, hs1', hos⟩ := Option.bind_eq_some_iff.mp hos
    obtain ⟨os1, hos1, hos⟩ := Option.bind_eq_some_iff.mp hos
    obtain ⟨s1, hs1, hrel⟩ := hstep s s' a _ h hok.1 hs1'
    have hok1 := hok.2 s1 (by simp [hs1])
    have := ih hrel hok1 hos1
    rw [outputs, hs1]
    simp only [Option.bind_eq_bind, Option.bind_some, this]
    exact hos

end Outputs

/-! ## Against a specification -/

section Refine

variable {S F A O : Type} {step : S → A → Option (S × O)} {spec : F → A → F × O} {ok : F → A → Prop} {s : S} {f : F}

/-- The answers along a list of actions, and the last state. -/
def answers (step : S → A → Option (S × O)) : S → List A → Option (List O × S)
  | s, [] => some ([], s)
  | s, a :: as => do
    let (s, o) ← step s a
    let (os, s) ← answers step s as
    some (o :: os, s)

/-- The same for a specification that answers always. -/
def specAnswers (spec : F → A → F × O) : F → List A → List O × F
  | f, [] => ([], f)
  | f, a :: as => ((spec f a).2 :: (specAnswers spec (spec f a).1 as).1, (specAnswers spec (spec f a).1 as).2)

/-- Each action of the list is `ok` where the specification takes it. -/
def OkSpec (spec : F → A → F × O) (ok : F → A → Prop) : F → List A → Prop
  | _, [] => True
  | f, a :: as => ok f a ∧ OkSpec spec ok (spec f a).1 as

/-- The refinement rule: a system that answers as the specification at each `ok` action does so along a run. -/
theorem answers_refine (step : S → A → Option (S × O)) (Rel : S → F → Prop) {as : List A}
    (hstep : ∀ s f a, Rel s f → ok f a → ∃ s', step s a = some (s', (spec f a).2) ∧ Rel s' (spec f a).1)
    (h : Rel s f) (hok : OkSpec spec ok f as) :
    ∃ s', answers step s as = some ((specAnswers spec f as).1, s') ∧ Rel s' (specAnswers spec f as).2 := by
  induction as generalizing s f with
  | nil => exact ⟨s, rfl, h⟩
  | cons a as ih =>
    obtain ⟨s1, hs1, hrel⟩ := hstep s f a h hok.1
    obtain ⟨s2, hs2, hrel2⟩ := ih hrel hok.2
    refine ⟨s2, ?_, hrel2⟩
    rw [answers, hs1]
    simp only [Option.bind_eq_bind, Option.bind_some, hs2]
    rfl

theorem OkSpec.and {ok' : F → A → Prop} {as : List A} (h : OkSpec spec ok f as) (h' : OkSpec spec ok' f as) :
    OkSpec spec (fun f a => ok f a ∧ ok' f a) f as := by
  induction as generalizing f with
  | nil => trivial
  | cons a as ih => exact ⟨⟨h.1, h'.1⟩, ih h.2 h'.2⟩

end Refine

end Varnish.Lib
