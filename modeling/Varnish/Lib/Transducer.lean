import Mathlib.Data.List.Basic

/-!
# Varnish.Lib.Transducer — machines that read a stream letter by letter

* `Transducer`, `run`: a state, and what is given out at each letter.
* `run_append`: a stream that is read in two pieces.
* `comp`, `comp_run`: one machine reads what the other gives out.
-/

namespace Varnish.Lib

/-- A machine with states `Q` that reads letters `α` and gives out letters `β`. -/
structure Transducer (Q α β : Type) where
  step : Q → α → List β × Q

namespace Transducer

variable {Q R α β γ : Type}

/-- What is given out along a stream, and the last state. -/
def run (m : Transducer Q α β) : Q → List α → List β × Q
  | q, [] => ([], q)
  | q, a :: s => ((m.step q a).1 ++ (run m (m.step q a).2 s).1, (run m (m.step q a).2 s).2)

variable (m : Transducer Q α β) (n : Transducer R β γ) (q : Q) (r : R)

@[simp] theorem run_nil : m.run q [] = ([], q) := rfl

theorem run_cons (a : α) (s : List α) :
    m.run q (a :: s) = ((m.step q a).1 ++ (m.run (m.step q a).2 s).1, (m.run (m.step q a).2 s).2) := rfl

/-- **The pieces in which a stream comes do not matter.** -/
theorem run_append (s t : List α) :
    m.run q (s ++ t) = ((m.run q s).1 ++ (m.run (m.run q s).2 t).1, (m.run (m.run q s).2 t).2) := by
  induction s generalizing q with
  | nil => rfl
  | cons a s ih => rw [List.cons_append, run_cons, ih, run_cons, List.append_assoc]

/-- A step that gives out nothing. -/
theorem run_cons_of_nil {a : α} {q' : Q} (h : m.step q a = ([], q')) (s : List α) : m.run q (a :: s) = m.run q' s := by
  rw [run_cons, h]
  rfl

/-- The second machine reads what the first one gives out. -/
def comp : Transducer (Q × R) α γ where
  step p a := ((n.run p.2 (m.step p.1 a).1).1, (m.step p.1 a).2, (n.run p.2 (m.step p.1 a).1).2)

theorem comp_step (a : α) :
    (m.comp n).step (q, r) a = ((n.run r (m.step q a).1).1, (m.step q a).2, (n.run r (m.step q a).1).2) := rfl

theorem comp_run (s : List α) : (m.comp n).run (q, r) s = ((n.run r (m.run q s).1).1, (m.run q s).2, (n.run r (m.run q s).1).2) := by
  induction s generalizing q r with
  | nil => rfl
  | cons a s ih => rw [run_cons, comp_step, ih, run_cons, run_append]

end Transducer

end Varnish.Lib
