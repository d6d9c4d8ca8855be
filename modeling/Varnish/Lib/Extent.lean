import Mathlib.Data.List.Sort
import Mathlib.Data.List.Chain

/-!
# Varnish.Lib.Extent — pieces of a file that are mapped to memory

An `Extent` has a place in memory, a place in the file, and a size.

* `cells`: the bytes of an extent, each with its two places.
* `Touch`: an extent goes on where another one ends, in memory and in the file.
* `front`, `back`, `cells_split`, `laid_split`: an extent is cut in two, or two that touch are joined.
* `eq_of_cells`: extents of which none touch are determined by their bytes.
-/

namespace Varnish.Lib

structure Extent where
  ptr : ℕ
  off : ℕ
  size : ℕ
deriving DecidableEq

namespace Extent

variable {e f : Extent} {n : ℕ} {l l' l₁ l₂ : List Extent}

def cells (e : Extent) : List (ℕ × ℕ) := (List.range e.size).map fun i => (e.ptr + i, e.off + i)

/-- All bytes of a list of extents. -/
def allCells (l : List Extent) : List (ℕ × ℕ) := l.flatMap cells

/-- `f` goes on where `e` ends. -/
def Touch (e f : Extent) : Prop := f.ptr = e.ptr + e.size ∧ f.off = e.off + e.size

instance (e f : Extent) : Decidable (Touch e f) := inferInstanceAs (Decidable (_ ∧ _))

/-- `e` ends in memory before `f` begins. -/
def Before (e f : Extent) : Prop := e.ptr + e.size ≤ f.ptr

def front (e : Extent) (n : ℕ) : Extent := { e with size := n }

def back (e : Extent) (n : ℕ) : Extent := ⟨e.ptr + n, e.off + n, e.size - n⟩

theorem touch_front_back (e : Extent) (n : ℕ) : Touch (e.front n) (e.back n) := ⟨rfl, rfl⟩

theorem cells_split (h : n ≤ e.size) : (e.front n).cells ++ (e.back n).cells = e.cells := by
  obtain ⟨k, hk⟩ := Nat.exists_eq_add_of_le h
  have hback : e.size - n = k := by omega
  simp only [cells, front, back, hback]
  rw [hk, List.range_add, List.map_append, List.map_map]
  congr 2
  funext i
  simp only [Function.comp, Nat.add_assoc]

/-- Extents that are sorted by memory, do not overlap, and are not empty. -/
structure Laid (l : List Extent) : Prop where
  sorted : l.Pairwise Before
  pos : ∀ e ∈ l, 0 < e.size

theorem laid_split (h0 : 0 < n) (hn : n < e.size) :
    Laid (l₁ ++ e.front n :: e.back n :: l₂) ↔ Laid (l₁ ++ e :: l₂) := by
  have hfront : (e.front n).ptr = e.ptr ∧ (e.front n).size = n := ⟨rfl, rfl⟩
  have hback : (e.back n).ptr = e.ptr + n ∧ (e.back n).size = e.size - n := ⟨rfl, rfl⟩
  constructor
  · rintro ⟨hs, hp⟩
    obtain ⟨h₁, h₂, h₁₂⟩ := List.pairwise_append.mp hs
    obtain ⟨hf, hb⟩ := List.pairwise_cons.mp h₂
    obtain ⟨hb, h₂⟩ := List.pairwise_cons.mp hb
    refine ⟨List.pairwise_append.mpr ⟨h₁, List.pairwise_cons.mpr ⟨fun x hx => ?_, h₂⟩, fun a ha x hx => ?_⟩, fun x hx => ?_⟩
    · have hbx := hb x hx
      unfold Before at hbx ⊢
      omega
    · rcases List.mem_cons.mp hx with rfl | hx
      · exact h₁₂ a ha (x.front n) List.mem_cons_self
      · exact h₁₂ a ha x (List.mem_cons_of_mem _ (List.mem_cons_of_mem _ hx))
    · rcases List.mem_append.mp hx with hx | hx
      · exact hp x (List.mem_append_left _ hx)
      · rcases List.mem_cons.mp hx with rfl | hx
        · omega
        · exact hp x (List.mem_append_right _ (List.mem_cons_of_mem _ (List.mem_cons_of_mem _ hx)))
  · rintro ⟨hs, hp⟩
    obtain ⟨h₁, h₂, h₁₂⟩ := List.pairwise_append.mp hs
    obtain ⟨he, h₂⟩ := List.pairwise_cons.mp h₂
    refine ⟨List.pairwise_append.mpr ⟨h₁, List.pairwise_cons.mpr ⟨fun x hx => ?_, List.pairwise_cons.mpr
      ⟨fun x hx => ?_, h₂⟩⟩, fun a ha x hx => ?_⟩, fun x hx => ?_⟩
    · rcases List.mem_cons.mp hx with rfl | hx
      · exact le_refl _
      · have hex := he x hx
        unfold Before at hex ⊢
        omega
    · have hex := he x hx
      unfold Before at hex ⊢
      omega
    · have hae := h₁₂ a ha e List.mem_cons_self
      unfold Before at hae ⊢
      rcases List.mem_cons.mp hx with rfl | hx
      · exact hae
      · rcases List.mem_cons.mp hx with rfl | hx
        · omega
        · exact h₁₂ a ha x (List.mem_cons_of_mem _ hx)
    · rcases List.mem_append.mp hx with hx | hx
      · exact hp x (List.mem_append_left _ hx)
      · rcases List.mem_cons.mp hx with rfl | hx
        · exact h0
        · rcases List.mem_cons.mp hx with rfl | hx
          · omega
          · exact hp x (List.mem_append_right _ (List.mem_cons_of_mem _ hx))

theorem allCells_split (hn : n ≤ e.size) : allCells (l₁ ++ e.front n :: e.back n :: l₂) = allCells (l₁ ++ e :: l₂) := by
  simp only [allCells, List.flatMap_append, List.flatMap_cons]
  rw [← List.append_assoc (e.front n).cells, cells_split hn]

/-- The cells of extents that are laid out are sorted. -/
theorem Laid.pairwise_cells (h : Laid l) : (allCells l).Pairwise fun a b => a.1 < b.1 := by
  rw [allCells, List.pairwise_flatMap]
  refine ⟨fun e _ => ?_, h.sorted.imp fun hef a ha b hb => ?_⟩
  · rw [cells, List.pairwise_map]
    exact List.pairwise_lt_range.imp fun hij => Nat.add_lt_add_left hij _
  · obtain ⟨i, hi, rfl⟩ := List.mem_map.mp ha
    obtain ⟨j, -, rfl⟩ := List.mem_map.mp hb
    have hlt := List.mem_range.mp hi
    unfold Before at hef
    simp only
    omega

/-- An extent that begins where another one ends is the next one. -/
theorem Laid.head_of_ptr (h : Laid (l₁ ++ e :: l₂)) (hf : f ∈ l₁ ++ e :: l₂) (hptr : f.ptr = e.ptr + e.size) :
    l₂.head? = some f := by
  obtain ⟨hs, hp⟩ := h
  obtain ⟨-, h₂, h₁₂⟩ := List.pairwise_append.mp hs
  obtain ⟨he, h₂⟩ := List.pairwise_cons.mp h₂
  have hpe := hp e (List.mem_append_right _ List.mem_cons_self)
  rcases List.mem_append.mp hf with hf | hf
  · have hb := h₁₂ f hf e List.mem_cons_self
    unfold Before at hb
    omega
  · rcases List.mem_cons.mp hf with rfl | hf
    · omega
    · cases l₂ with
      | nil => cases hf
      | cons x l₂ =>
        rcases List.mem_cons.mp hf with rfl | hf
        · rfl
        · have hex := he x List.mem_cons_self
          have hxf := (List.pairwise_cons.mp h₂).1 f hf
          have hpx := hp x (List.mem_append_right _ (List.mem_cons_of_mem _ List.mem_cons_self))
          unfold Before at hex hxf
          omega

/-- An extent that ends where another one begins is the one before it. -/
theorem Laid.last_of_ptr (h : Laid (l₁ ++ e :: l₂)) (hf : f ∈ l₁ ++ e :: l₂) (hptr : e.ptr = f.ptr + f.size) :
    l₁.getLast? = some f := by
  obtain ⟨hs, hp⟩ := h
  obtain ⟨h₁, h₂, h₁₂⟩ := List.pairwise_append.mp hs
  obtain ⟨he, -⟩ := List.pairwise_cons.mp h₂
  have hpf := hp f hf
  rcases List.mem_append.mp hf with hf | hf
  · cases l₁ using List.reverseRecOn with
    | nil => cases hf
    | append_singleton l₁ x =>
      rcases List.mem_append.mp hf with hf | hf
      · have hfx := (List.pairwise_append.mp h₁).2.2 f hf x (List.mem_singleton_self x)
        have hxe := h₁₂ x (List.mem_append_right _ (List.mem_singleton_self x)) e List.mem_cons_self
        have hpx := hp x (List.mem_append_left _ (List.mem_append_right _ (List.mem_singleton_self x)))
        unfold Before at hfx hxe
        omega
      · cases List.mem_singleton.mp hf
        exact List.getLast?_concat
  · rcases List.mem_cons.mp hf with rfl | hf
    · omega
    · have hef := he f hf
      unfold Before at hef
      omega

/-! ## Extents that do not touch -/

section Apart

/-- The first cell. -/
theorem cells_eq_cons (h : 0 < e.size) : ∃ cs, e.cells = (e.ptr, e.off) :: cs := by
  obtain ⟨k, hk⟩ := Nat.exists_eq_add_of_lt h
  rw [cells, hk, Nat.zero_add, List.range_succ_eq_map]
  exact ⟨_, rfl⟩

theorem allCells_cons_ne_nil (h : 0 < e.size) : allCells (e :: l) ≠ [] := by
  obtain ⟨cs, hcs⟩ := cells_eq_cons h
  rw [allCells, List.flatMap_cons, hcs]
  exact List.cons_ne_nil _ _

/-- The first extent is not a part of the first one of another list with the same cells. -/
theorem not_size_lt (hchain : (e :: l).IsChain fun a b => ¬ Touch a b) (hpos : ∀ x ∈ e :: l, 0 < x.size)
    (hptr : e.ptr = f.ptr) (hoff : e.off = f.off) (hcells : allCells (e :: l) = allCells (f :: l')) : ¬ e.size < f.size := by
  intro hlt
  have hfront : f.front e.size = e := by rw [front, ← hptr, ← hoff]
  have hrest : allCells l = allCells (f.back e.size :: l') := by
    rw [← List.nil_append (f :: l'), ← allCells_split hlt.le, hfront, List.nil_append, allCells, allCells,
      List.flatMap_cons, List.flatMap_cons] at hcells
    exact List.append_cancel_left hcells
  cases l with
  | nil => exact allCells_cons_ne_nil (Nat.sub_pos_of_lt hlt) hrest.symm
  | cons x l =>
    have hx : 0 < x.size := hpos x (List.mem_cons_of_mem _ List.mem_cons_self)
    obtain ⟨cs, hcs⟩ := cells_eq_cons hx
    obtain ⟨ds, hds⟩ := cells_eq_cons (e := f.back e.size) (Nat.sub_pos_of_lt hlt)
    rw [allCells, allCells, List.flatMap_cons, List.flatMap_cons, hcs, hds, List.cons_append, List.cons_append] at hrest
    obtain ⟨hxp, hxo⟩ := Prod.mk.inj (List.cons.inj hrest).1
    refine (List.isChain_cons_cons.mp hchain).1 ⟨?_, ?_⟩
    · rw [hxp, hptr]
      rfl
    · rw [hxo, hoff]
      rfl

/-- **Uniqueness**: extents of which none touches the next one are determined by their cells. -/
theorem eq_of_cells (hc : l.IsChain fun a b => ¬ Touch a b) (hc' : l'.IsChain fun a b => ¬ Touch a b)
    (hp : ∀ x ∈ l, 0 < x.size) (hp' : ∀ x ∈ l', 0 < x.size) (h : allCells l = allCells l') : l = l' := by
  induction l generalizing l' with
  | nil =>
    cases l' with
    | nil => rfl
    | cons f l' => exact absurd h.symm (allCells_cons_ne_nil (hp' f List.mem_cons_self))
  | cons e l ih =>
    cases l' with
    | nil => exact absurd h (allCells_cons_ne_nil (hp e List.mem_cons_self))
    | cons f l' =>
      obtain ⟨cs, hcs⟩ := cells_eq_cons (hp e List.mem_cons_self)
      obtain ⟨ds, hds⟩ := cells_eq_cons (hp' f List.mem_cons_self)
      have hfst := h
      rw [allCells, allCells, List.flatMap_cons, List.flatMap_cons, hcs, hds, List.cons_append, List.cons_append] at hfst
      obtain ⟨hptr, hoff⟩ := Prod.mk.inj (List.cons.inj hfst).1
      have hsize : e.size = f.size := by
        have hle := not_size_lt hc hp hptr hoff h
        have hge := not_size_lt hc' hp' hptr.symm hoff.symm h.symm
        omega
      have hef : e = f := by
        cases e
        cases f
        simp only at hptr hoff hsize
        rw [hptr, hoff, hsize]
      subst hef
      rw [allCells, allCells, List.flatMap_cons, List.flatMap_cons] at h
      have htail := ih hc.tail hc'.tail (fun x hx => hp x (List.mem_cons_of_mem _ hx))
        (fun x hx => hp' x (List.mem_cons_of_mem _ hx)) (List.append_cancel_left h)
      rw [htail, List.tail_cons]

end Apart

end Extent

end Varnish.Lib
