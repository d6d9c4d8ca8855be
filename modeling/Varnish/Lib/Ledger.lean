import Mathlib.Data.Nat.Notation

/-!
# Varnish.Lib.Ledger — accounts of references

References are numbered as they are taken, and the ones that are given back are listed.

* `Accounts L owned`: each reference that was taken is either owned or was given back, and exactly once.
* `Accounts.take`, `Accounts.giveBack`, `Accounts.swap`: the rules.
* `Accounts.once`: an owner of nothing has given back each reference once.
-/

namespace Varnish.Lib

/-- The number of references taken, and those given back. -/
structure Ledger where
  taken : ℕ := 0
  released : List ℕ := []
deriving DecidableEq

namespace Ledger

variable {L : Ledger} {owned owned' : List ℕ} {r : ℕ}

/-- One more reference, with the number `L.taken`. -/
def take (L : Ledger) : Ledger := { L with taken := L.taken + 1 }

def release (L : Ledger) (r : ℕ) : Ledger := { L with released := r :: L.released }

def Accounts (L : Ledger) (owned : List ℕ) : Prop :=
  ∀ r, L.released.count r + owned.count r = if r < L.taken then 1 else 0

theorem accounts_empty : Accounts {} [] := fun r => by simp

theorem Accounts.swap (h : Accounts L owned) (hp : ∀ r, owned'.count r = owned.count r) : Accounts L owned' :=
  fun r => (hp r).symm ▸ h r

theorem Accounts.take (h : Accounts L owned) : Accounts L.take (L.taken :: owned) := by
  intro r
  have hr := h r
  show L.released.count r + (L.taken :: owned).count r = if r < L.taken + 1 then 1 else 0
  simp only [List.count_cons, beq_iff_eq]
  by_cases he : L.taken = r
  · subst he
    simp only [Nat.lt_irrefl, if_false, if_true, Nat.lt_succ_self] at hr ⊢
    omega
  · rw [if_neg he]
    by_cases hlt : r < L.taken
    · rw [if_pos hlt] at hr
      rw [if_pos (by omega)]
      omega
    · rw [if_neg hlt] at hr
      rw [if_neg (by omega)]
      omega

theorem Accounts.release (h : Accounts L (r :: owned)) : Accounts (L.release r) owned := by
  intro i
  have hi := h i
  show (r :: L.released).count i + owned.count i = if i < L.taken then 1 else 0
  simp only [List.count_cons] at hi ⊢
  omega

/-- A pointer is cleared, and its reference given back. -/
theorem Accounts.giveBack {o : Option ℕ} (h : Accounts L owned) (hp : ∀ r, owned.count r = o.toList.count r + owned'.count r) :
    Accounts (o.elim L L.release) owned' := by
  cases o with
  | none => exact h.swap fun r => by simpa using (hp r).symm
  | some r =>
    refine Accounts.release (h.swap fun i => ?_)
    rw [hp i, ← List.count_append]
    rfl

/-- Every reference was given back, and no reference twice. -/
theorem Accounts.once (h : Accounts L []) (r : ℕ) : L.released.count r = if r < L.taken then 1 else 0 := by
  simpa using h r

end Ledger

end Varnish.Lib
