import Varnish.Lib.Bytes

/-!
# Varnish.Lib.Stores — a memory that is filled by single stores

A program that fills a part of a memory makes its stores one after another, and others may run in between.

* `Store`, `memcpy`: single bytes that are stored.
* `Fills m off bs todo`: the bytes `bs` belong at `off`; each of them is there, or its store is still to be made.
* `Fills.own`, `Fills.other`: what is so after one more store.  `Fills.done`: when no store is left, `bs` is read.
* `makeStores`, `Fills.run`: all stores are made at once.
-/

namespace Varnish.Lib

/-- A byte that is stored at an address. -/
abbrev Store := ℕ × UInt8

def Store.apply (m : Mem) (s : Store) : Mem := fun a => if a = s.1 then s.2 else m a

/-- The stores of `memcpy`. -/
def memcpy : (p : ℕ) → List UInt8 → List Store
  | _, [] => []
  | p, b :: bs => (p, b) :: memcpy (p + 1) bs

/-- Each byte of `bs` is in its place behind `off`, or its store is still to be made. -/
def Fills (m : Mem) (off : ℕ) (bs : List UInt8) (todo : List Store) : Prop :=
  ∀ i b, bs[i]? = some b → (∃ v, (off + i, v) ∈ todo) ∨ m (off + i) = b

variable {m : Mem} {off p : ℕ} {bs : List UInt8} {s : Store} {todo : List Store}

@[simp] theorem apply_self (m : Mem) (s : Store) : s.apply m s.1 = s.2 := if_pos rfl

theorem apply_of_ne {a : ℕ} (h : a ≠ s.1) : s.apply m a = m a := if_neg h

theorem mem_memcpy : s ∈ memcpy p bs ↔ ∃ i, s.1 = p + i ∧ bs[i]? = some s.2 := by
  induction bs generalizing p with
  | nil => simp [memcpy]
  | cons b bs ih =>
    rw [memcpy, List.mem_cons, ih]
    constructor
    · rintro (rfl | ⟨i, hi, hb⟩)
      · exact ⟨0, rfl, rfl⟩
      · exact ⟨i + 1, by omega, hb⟩
    · rintro ⟨_ | i, hi, hb⟩
      · left
        have hb := Option.some.inj hb
        exact Prod.ext hi hb.symm
      · exact .inr ⟨i, by omega, hb⟩

/-- Before the first store. -/
theorem Fills.start (h : ∀ i, i < bs.length → ∃ v, (off + i, v) ∈ todo) : Fills m off bs todo := by
  intro i b hb
  obtain ⟨hi, -⟩ := List.getElem?_eq_some_iff.mp hb
  exact .inl (h i hi)

/-- One of the stores is made: of a byte that belongs there, or outside of `bs`. -/
theorem Fills.own (h : Fills m off bs (s :: todo)) (hs : ∀ i b, bs[i]? = some b → s.1 = off + i → s.2 = b) :
    Fills (s.apply m) off bs todo := by
  intro i b hb
  by_cases hi : off + i = s.1
  · right
    rw [hi, apply_self]
    exact hs i b hb hi.symm
  · rw [apply_of_ne hi]
    refine (h i b hb).imp_left ?_
    rintro ⟨v, hv⟩
    rcases List.mem_cons.mp hv with rfl | hv
    · exact absurd rfl hi
    · exact ⟨v, hv⟩

/-- Somebody else stores a byte: outside of `bs`, or where the own store is still to be made. -/
theorem Fills.other (h : Fills m off bs todo)
    (hs : ∀ i, i < bs.length → s.1 = off + i → ∃ v, (off + i, v) ∈ todo) : Fills (s.apply m) off bs todo := by
  intro i b hb
  obtain ⟨hi, -⟩ := List.getElem?_eq_some_iff.mp hb
  by_cases he : off + i = s.1
  · exact .inl (hs i hi he.symm)
  · rw [apply_of_ne he]
    exact h i b hb

theorem Fills.done (h : Fills m off bs []) : rd m off bs.length = bs := by
  refine List.ext_getElem (by simp) fun i h1 h2 => ?_
  rcases h i _ (List.getElem?_eq_getElem h2) with ⟨v, hv⟩ | hm
  · cases hv
  · simpa [rd] using hm

/-- All stores are made, one after the other. -/
def makeStores (m : Mem) (ss : List Store) : Mem := ss.foldl Store.apply m

theorem makeStores_of_ne {a : ℕ} {ss : List Store} (h : ∀ s ∈ ss, s.1 ≠ a) : makeStores m ss a = m a := by
  induction ss generalizing m with
  | nil => rfl
  | cons s ss ih =>
    have hs : a ≠ s.1 := fun he => h s List.mem_cons_self he.symm
    exact (ih fun s' hs' => h s' (List.mem_cons_of_mem _ hs')).trans (apply_of_ne hs)

/-- When nobody else makes a store, the bytes are there in the end. -/
theorem Fills.run {ss : List Store} (h : Fills m off bs ss)
    (hs : ∀ s ∈ ss, ∀ i b, bs[i]? = some b → s.1 = off + i → s.2 = b) : rd (makeStores m ss) off bs.length = bs := by
  induction ss generalizing m with
  | nil => exact h.done
  | cons s ss ih =>
    exact ih (h.own (hs s List.mem_cons_self)) fun s' hs' => hs s' (List.mem_cons_of_mem _ hs')

end Varnish.Lib
