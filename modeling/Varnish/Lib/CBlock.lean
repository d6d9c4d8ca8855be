import Mathlib.Data.List.Basic

/-!
# Varnish.Lib.CBlock — line-wise execution of `if` / `else if` blocks

A function body printed line by line: `opn false c` is `if (c) {`, `opn true c` is `else if (c) {`, `close` is
`}`, `ret v` is `return (v);` and `call f` a call statement without influence on the control flow.  `CMode` is the
state of the execution after some lines; `s` counts the blocks that were entered and are still open.

* `run s`: the next line is executed.
* `after s t`: a block at level `s` was just closed; `t` says that one of the blocks of its chain was entered, so
  an `else` that follows is not taken.
* `skip s n t`: the lines of a block at level `s` are passed over, `n` more blocks are open inside it.
* `bad`: an `else` without its `if`, or a `}` without its `{`.
-/

namespace Varnish.Lib

variable {C V F : Type}

inductive CLine (C V F : Type) where
  | opn (els : Bool) (c : C)
  | close
  | ret (v : V)
  | call (f : F)
deriving DecidableEq, Repr

inductive CMode (V : Type) where
  | run (s : ℕ)
  | after (s : ℕ) (taken : Bool)
  | skip (s n : ℕ) (taken : Bool)
  | done (v : V)
  | bad
deriving DecidableEq, Repr

section Exec

variable (holds : C → Bool)

/-- Execute a line where control is at level `s` (no `else` pending). -/
def cRun (s : ℕ) : CLine C V F → CMode V
  | .opn true _ => .bad
  | .opn false c => if holds c then .run (s + 1) else .skip s 0 false
  | .close => match s with
    | 0 => .bad
    | s + 1 => .after s true
  | .ret v => .done v
  | .call _ => .run s

/-- Pass over a line of a block that is not executed. -/
def cSkip (s n : ℕ) (t : Bool) : CLine C V F → CMode V
  | .opn _ _ => .skip s (n + 1) t
  | .close => match n with
    | 0 => .after s t
    | n + 1 => .skip s n t
  | .ret _ => .skip s n t
  | .call _ => .skip s n t

/-- The effect of one line. -/
def cStep : CMode V → CLine C V F → CMode V
  | .run s, ln => cRun holds s ln
  | .after s t, ln => match ln with
    | .opn true c => if t then .skip s 0 true else if holds c then .run (s + 1) else .skip s 0 false
    | ln => cRun holds s ln
  | .skip s n t, ln => cSkip s n t ln
  | .done v, _ => .done v
  | .bad, _ => .bad

/-- The effect of a list of lines. -/
def cExec (md : CMode V) (lines : List (CLine C V F)) : CMode V := lines.foldl (cStep holds) md

end Exec

section Lemmas

variable {holds : C → Bool} {s n : ℕ} {t : Bool}

@[simp] theorem cExec_nil (md : CMode V) : cExec (V := V) (F := F) holds md [] = md := rfl

@[simp] theorem cExec_cons (md : CMode V) (ln : CLine C V F) (ls : List (CLine C V F)) :
    cExec holds md (ln :: ls) = cExec holds (cStep holds md ln) ls := rfl

theorem cExec_append (md : CMode V) (l₁ l₂ : List (CLine C V F)) :
    cExec holds md (l₁ ++ l₂) = cExec holds (cExec holds md l₁) l₂ := List.foldl_append

@[simp] theorem cExec_done (v : V) (ls : List (CLine C V F)) : cExec holds (.done v) ls = .done v := by
  induction ls with
  | nil => rfl
  | cons ln ls ih => exact ih

/-- Lines that neither open nor close a block are passed over. -/
theorem cExec_skip_flat {ls : List (CLine C V F)} (h : ∀ ln ∈ ls, (∃ v, ln = .ret v) ∨ ∃ f, ln = .call f) :
    cExec holds (.skip s n t) ls = .skip s n t := by
  induction ls with
  | nil => rfl
  | cons ln ls ih =>
    have hln : cStep holds (.skip s n t) ln = (.skip s n t : CMode V) := by
      rcases h ln (by simp) with ⟨v, rfl⟩ | ⟨f, rfl⟩ <;> rfl
    rw [cExec_cons, hln]
    exact ih (fun ln' hln' => h ln' (by simp [hln']))

/-- Opening lines inside a skipped block. -/
theorem cExec_skip_opns {ls : List (CLine C V F)} (h : ∀ ln ∈ ls, ∃ e c, ln = .opn e c) :
    cExec holds (.skip s n t) ls = .skip s (n + ls.length) t := by
  induction ls generalizing n with
  | nil => rfl
  | cons ln ls ih =>
    obtain ⟨e, c, rfl⟩ := h ln (by simp)
    have : cExec holds (.skip s n t) (.opn e c :: ls) = cExec holds (.skip s (n + 1) t) ls := rfl
    rw [this, ih (fun ln' hln' => h ln' (by simp [hln'])), List.length_cons]
    congr 1
    omega

/-- Closing no more than the inner blocks of a skipped block. -/
theorem cExec_skip_closes {k : ℕ} (hk : k ≤ n) :
    cExec (V := V) (F := F) holds (.skip s n t) (List.replicate k .close) = .skip s (n - k) t := by
  induction k generalizing n with
  | zero => rfl
  | succ k ih =>
    obtain ⟨n, rfl⟩ : ∃ m, n = m + 1 := ⟨n - 1, by omega⟩
    have : cExec (V := V) (F := F) holds (.skip s (n + 1) t) (List.replicate (k + 1) .close)
        = cExec holds (.skip s n t) (List.replicate k .close) := rfl
    rw [this, ih (by omega)]
    congr 1
    omega

/-- Closing a skipped block and `k` entered blocks around it. -/
theorem cExec_skip_closes_all {k : ℕ} (hk : k ≤ s) :
    cExec (V := V) (F := F) holds (.skip s n t) (List.replicate (n + 1 + k) .close)
      = if k = 0 then .after s t else .after (s - k) true := by
  rw [List.replicate_add, cExec_append, List.replicate_add, cExec_append, cExec_skip_closes (Nat.le_refl n), Nat.sub_self]
  have hone : cExec (V := V) (F := F) holds (.skip s 0 t) (List.replicate 1 .close) = .after s t := rfl
  rw [hone]
  clear hone
  induction k generalizing s t with
  | zero => rfl
  | succ k ih =>
    obtain ⟨s, rfl⟩ : ∃ m, s = m + 1 := ⟨s - 1, by omega⟩
    have : cExec (V := V) (F := F) holds (.after (s + 1) t) (List.replicate (k + 1) .close)
        = cExec holds (.after s true) (List.replicate k .close) := rfl
    rw [this, ih (by omega)]
    by_cases h0 : k = 0
    · subst h0; simp
    · simp only [h0, if_false, Nat.add_eq_zero_iff, Nat.one_ne_zero, and_false]
      congr 1
      omega

end Lemmas

end Varnish.Lib
