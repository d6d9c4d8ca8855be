import Mathlib.Logic.Basic
import Mathlib.Logic.Function.Iterate
import Mathlib.Order.Basic

/-!
# Varnish.Lib.HeapOrder — heap order over an arbitrary parent function

A heap is a function `f` on the indices from 1 to `n - 1`; the tree is given by a parent function `par` only, so that
nothing here depends on how the children of an index are numbered.  `lt` is a strict weak order.

* `Up.root`: where parents come before their children, the indices are one tree.
* `Ordered`: no element is less than its parent.
* `Hole u`: the same but for the pairs that `u` is in.  `Hole.up`: the step of sifting up.  `Hole.done`: its end.
* `DownHole u`: the same but for the children of `u`.  `DownHole.down`: the step of sifting down.  `DownHole.done`: its
  end.
-/

namespace Varnish.Lib

variable {E : Type}

/-- A strict weak order, as a test. -/
structure WeakOrder (lt : E → E → Bool) : Prop where
  asymm : ∀ a b, lt a b = true → lt b a = false
  ntrans : ∀ a b c, lt a b = false → lt b c = false → lt a c = false

theorem WeakOrder.irrefl {lt : E → E → Bool} (h : WeakOrder lt) (a : E) : lt a a = false := by
  by_cases ha : lt a a = true
  · exact h.asymm a a ha
  · simpa using ha

/-- The order with a greatest element `none`. -/
def liftLt (lt : E → E → Bool) : Option E → Option E → Bool
  | some a, some b => lt a b
  | some _, none => true
  | none, _ => false

theorem WeakOrder.lift {lt : E → E → Bool} (h : WeakOrder lt) : WeakOrder (liftLt lt) where
  asymm a b hab := by
    cases a with
    | none => cases hab
    | some a =>
      cases b with
      | none => rfl
      | some b => exact h.asymm a b hab
  ntrans a b c hab hbc := by
    cases a with
    | none => rfl
    | some a =>
      cases b with
      | none => cases hab
      | some b =>
        cases c with
        | none => cases hbc
        | some c => exact h.ntrans a b c hab hbc

/-- `f` with the elements at `u` and `v` exchanged. -/
def swapAt (f : ℕ → E) (u v : ℕ) : ℕ → E := fun i => if i = u then f v else if i = v then f u else f i

section Swap

variable {f : ℕ → E} {u v i : ℕ}

@[simp] theorem swapAt_left : swapAt f u v u = f v := by simp [swapAt]

@[simp] theorem swapAt_right : swapAt f u v v = f u := by
  by_cases h : v = u
  · simp [swapAt, h]
  · simp [swapAt, h]

theorem swapAt_of_ne (hu : i ≠ u) (hv : i ≠ v) : swapAt f u v i = f i := by simp [swapAt, hu, hv]

end Swap

section Heap

variable (lt : E → E → Bool) (par : ℕ → ℕ) (n : ℕ)

/-- Parents come before their children. -/
def Up : Prop := ∀ i, 1 < i → i < n → 0 < par i ∧ par i < i

def Ordered (f : ℕ → E) : Prop := ∀ i, 1 < i → i < n → lt (f i) (f (par i)) = false

/-- All is in order but for the pairs of `u`; the children of `u` are in order with the parent of `u`. -/
structure Hole (f : ℕ → E) (u : ℕ) : Prop where
  others : ∀ i, 1 < i → i < n → i ≠ u → par i ≠ u → lt (f i) (f (par i)) = false
  grand : ∀ i, 1 < i → i < n → par i = u → 1 < u → lt (f i) (f (par u)) = false

/-- All is in order but for the children of `u`. -/
structure DownHole (f : ℕ → E) (u : ℕ) : Prop where
  others : ∀ i, 1 < i → i < n → par i ≠ u → lt (f i) (f (par i)) = false
  grand : ∀ i, 1 < i → i < n → par i = u → 1 < u → lt (f i) (f (par u)) = false

/-- The children of `u` are in order with it. -/
def KidsOk (f : ℕ → E) (u : ℕ) : Prop := ∀ i, 1 < i → i < n → par i = u → lt (f i) (f u) = false

variable {lt par n} {f : ℕ → E} {u v : ℕ}

/-- Every index is below the root. -/
theorem Up.root (hup : Up par n) (h0 : 0 < u) (hu : u < n) : ∃ k, par^[k] u = 1 := by
  induction u using Nat.strongRecOn with
  | ind u ih =>
    rcases Nat.lt_or_ge 1 u with h1 | h1
    · obtain ⟨hp0, hpu⟩ := hup u h1 hu
      obtain ⟨k, hk⟩ := ih (par u) hpu hp0 (Nat.lt_trans hpu hu)
      exact ⟨k + 1, hk⟩
    · exact ⟨0, Nat.le_antisymm h1 h0⟩

/-- Another element at `u` makes a hole. -/
theorem Ordered.hole (hlt : WeakOrder lt) (hup : Up par n) (h : Ordered lt par n f) (hu : u < n) (x : E) :
    Hole lt par n (Function.update f u x) u where
  others i hi hn hne hp := by
    rw [Function.update_of_ne hne, Function.update_of_ne hp]
    exact h i hi hn
  grand i hi hn hp h1 := by
    have hpu := (hup u h1 hu).2
    have hiu : i ≠ u := by
      rintro rfl
      omega
    rw [Function.update_of_ne hiu, Function.update_of_ne (by omega)]
    refine hlt.ntrans _ (f u) _ ?_ (h u h1 hu)
    rw [← hp]
    exact h i hi hn

/-- Only the indices in use matter. -/
theorem Hole.congr {g : ℕ → E} (hup : Up par n) (hfg : ∀ i, 0 < i → i < n → g i = f i) (hu : u < n)
    (h : Hole lt par n f u) : Hole lt par n g u where
  others i hi hn hne hp := by
    obtain ⟨h0, hlt⟩ := hup i hi hn
    rw [hfg i (by omega) hn, hfg (par i) h0 (by omega)]
    exact h.others i hi hn hne hp
  grand i hi hn hp h1 := by
    obtain ⟨h0, hlt⟩ := hup u h1 hu
    rw [hfg i (by omega) hn, hfg (par u) h0 (by omega)]
    exact h.grand i hi hn hp h1

theorem Ordered.congr {g : ℕ → E} (hup : Up par n) (hfg : ∀ i, 0 < i → i < n → g i = f i) (h : Ordered lt par n f) :
    Ordered lt par n g := by
  intro i hi hn
  obtain ⟨h0, hlt⟩ := hup i hi hn
  rw [hfg i (by omega) hn, hfg (par i) h0 (by omega)]
  exact h i hi hn

theorem Ordered.mono {m : ℕ} (h : Ordered lt par n f) (hm : m ≤ n) : Ordered lt par m f :=
  fun i hi hn => h i hi (by omega)

/-- A new last element makes a hole, and has no children. -/
theorem Ordered.push (hup : Up par (n + 1)) (h : Ordered lt par n f) (x : E) :
    Hole lt par (n + 1) (Function.update f n x) n ∧ KidsOk lt par (n + 1) (Function.update f n x) n := by
  have hno : ∀ i, 1 < i → i < n + 1 → par i ≠ n := fun i hi hn hp => by
    have := (hup i hi hn).2
    omega
  refine ⟨⟨fun i hi hn hne hp => ?_, fun i hi hn hp => absurd hp (hno i hi hn)⟩, fun i hi hn hp => absurd hp (hno i hi hn)⟩
  rw [Function.update_of_ne hne, Function.update_of_ne hp]
  exact h i hi (by omega)

/-- **Sifting up**, one step: `u` is less than its parent, and they change places. -/
theorem Hole.up (hlt : WeakOrder lt) (hup : Up par n) (h : Hole lt par n f u) (h1 : 1 < u) (hu : u < n)
    (hless : lt (f u) (f (par u)) = true) :
    Hole lt par n (swapAt f u (par u)) (par u) ∧ KidsOk lt par n (swapAt f u (par u)) (par u) := by
  obtain ⟨hp0, hpu⟩ := hup u h1 hu
  have habove : 1 < par u → lt (f (par u)) (f (par (par u))) = false := fun hp1 => by
    have := (hup (par u) hp1 (by omega)).2
    exact h.others _ hp1 (by omega) (by omega) (by omega)
  -- a sibling of `u` is not less than the old parent
  have hsib : ∀ i, 1 < i → i < n → i ≠ u → par i = par u → lt (f i) (f (par u)) = false := fun i hi hn hne hp => by
    rw [← hp]
    exact h.others i hi hn hne (by omega)
  have hval : ∀ i, 1 < i → i < n → i ≠ u → par i = par u → swapAt f u (par u) i = f i := fun i hi hn hne hp => by
    have := (hup i hi hn).2
    exact swapAt_of_ne hne (by omega)
  refine ⟨⟨fun i hi hn hne hp => ?_, fun i hi hn hp hp1 => ?_⟩, fun i hi hn hp => ?_⟩
  · by_cases hiu : i = u
    · subst hiu
      exact absurd rfl hp
    · rw [swapAt_of_ne hiu hne]
      by_cases hpi : par i = u
      · rw [hpi, swapAt_left]
        exact h.grand i hi hn hpi h1
      · rw [swapAt_of_ne hpi hp]
        exact h.others i hi hn hiu hpi
  · have hgp := (hup (par u) hp1 (by omega)).2
    rw [swapAt_of_ne (by omega : par (par u) ≠ u) (by omega)]
    by_cases hiu : i = u
    · subst hiu
      rw [swapAt_left]
      exact habove hp1
    · rw [hval i hi hn hiu hp]
      exact hlt.ntrans _ _ _ (hsib i hi hn hiu hp) (habove hp1)
  · rw [swapAt_right]
    by_cases hiu : i = u
    · subst hiu
      rw [swapAt_left]
      exact hlt.asymm _ _ hless
    · rw [hval i hi hn hiu hp]
      exact hlt.ntrans _ _ _ (hsib i hi hn hiu hp) (hlt.asymm _ _ hless)

/-- Sifting up ends: `u` is not less than its parent. -/
theorem Hole.done (h : Hole lt par n f u) (hstop : 1 < u → lt (f u) (f (par u)) = false) : DownHole lt par n f u where
  others i hi hn hp := by
    by_cases hiu : i = u
    · subst hiu
      exact hstop hi
    · exact h.others i hi hn hiu hp
  grand := h.grand

/-- Nothing is out of order if the children of `u` are not. -/
theorem DownHole.ordered (h : DownHole lt par n f u) (hk : KidsOk lt par n f u) : Ordered lt par n f := by
  intro i hi hn
  by_cases hp : par i = u
  · rw [hp]
    exact hk i hi hn hp
  · exact h.others i hi hn hp

/-- `v` is the least child of `u`. -/
structure LeastKid (lt : E → E → Bool) (par : ℕ → ℕ) (n : ℕ) (f : ℕ → E) (u v : ℕ) : Prop where
  one_lt : 1 < v
  lt_n : v < n
  par_eq : par v = u
  least : ∀ i, 1 < i → i < n → par i = u → lt (f i) (f v) = false

/-- Sifting down ends: `u` is less than its least child. -/
theorem LeastKid.kidsOk (hlt : WeakOrder lt) (hv : LeastKid lt par n f u v) (hless : lt (f u) (f v) = true) :
    KidsOk lt par n f u := fun i hi hn hp =>
  hlt.ntrans _ _ _ (hv.least i hi hn hp) (hlt.asymm _ _ hless)

/-- **Sifting down**, one step: `u` and its least child change places. -/
theorem DownHole.down (hup : Up par n) (h : DownHole lt par n f u) (hv : LeastKid lt par n f u v)
    (hnot : lt (f u) (f v) = false) : DownHole lt par n (swapAt f u v) v := by
  have huv : u < v := by
    have := (hup v hv.one_lt hv.lt_n).2
    rw [hv.par_eq] at this
    exact this
  refine ⟨fun i hi hn hp => ?_, fun i hi hn hp h1 => ?_⟩
  · by_cases hiv : i = v
    · subst hiv
      rw [hv.par_eq, swapAt_right, swapAt_left]
      exact hnot
    · by_cases hpu : par i = u
      · have hiu : i ≠ u := by
          have := (hup i hi hn).2
          omega
        rw [hpu, swapAt_left, swapAt_of_ne hiu hiv]
        exact hv.least i hi hn hpu
      · by_cases hiu : i = u
        · subst hiu
          rw [swapAt_left, swapAt_of_ne hpu hp]
          exact h.grand v hv.one_lt hv.lt_n hv.par_eq hi
        · rw [swapAt_of_ne hiu hiv, swapAt_of_ne hpu hp]
          exact h.others i hi hn hpu
  · have hvi := (hup i hi hn).2
    rw [hv.par_eq, swapAt_left, swapAt_of_ne (by omega) (by omega), ← hp]
    exact h.others i hi hn (by omega)

/-- The first element is a least one. -/
theorem Ordered.root_least (hlt : WeakOrder lt) (hup : Up par n) (h : Ordered lt par n f) :
    ∀ i, 0 < i → i < n → lt (f i) (f 1) = false := by
  intro i
  induction i using Nat.strongRecOn with
  | ind i ih =>
    intro h0 hn
    rcases Nat.lt_or_ge 1 i with h1 | h1
    · obtain ⟨hp0, hpi⟩ := hup i h1 hn
      exact hlt.ntrans _ _ _ (h i h1 hn) (ih (par i) hpi hp0 (by omega))
    · obtain rfl : i = 1 := by omega
      exact hlt.irrefl _

end Heap

end Varnish.Lib
