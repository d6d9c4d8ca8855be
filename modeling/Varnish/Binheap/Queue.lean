import Mathlib.Data.List.Perm.Basic
import Mathlib.Data.List.Nodup
import Varnish.Binheap.Index
import Varnish.Lib.Run

/-!
# Varnish.Binheap.Queue — insertions and deletions keep the priority queue

* `trickleup_spec`, `trickledown_spec`: the two loops end, and end with the heap in order.
* `DownSafe`: sifting down meets no index at which `child` gives a wrong second child, or a wrapped one.
* `insert_spec`, `delete_spec`: what one operation does to the heap.
-/

namespace Varnish.Binheap

open Varnish.Lib

variable {E : Type}

/-! ## The rows -/

section Rows

/-- The rows cover the indices in use, and are within reach of the arithmetic on `length` and `next`. -/
structure Space (h : Heap E) : Prop where
  rows : ∃ r, h.length = rowWidth * r ∧ r ≤ h.rows ∧ ∀ i, h.row i = true ↔ i < r
  next_le : h.next ≤ h.length
  next_pos : 0 < h.next
  room : h.length ≤ 2 ^ 32 - 2 * rowWidth

theorem rowWidth_eq : rowWidth = 65536 := by decide

variable {h h' : Heap E} {i : ℕ}

theorem Space.length_pos (hs : Space h) : 0 < h.length := lt_of_lt_of_le hs.next_pos hs.next_le

theorem Space.one_lt_length (hs : Space h) : 1 < h.length := by
  obtain ⟨r, hr, -, -⟩ := hs.rows
  have hpos := hs.length_pos
  rw [hr, rowWidth_eq] at hpos ⊢
  omega

theorem Space.access (hs : Space h) (hi : i < h.length) : i >>> rowShift < h.rows ∧ h.row (i >>> rowShift) = true := by
  obtain ⟨r, hr, hle, hrow⟩ := hs.rows
  have hlt : i >>> rowShift < r := by
    rw [Nat.shiftRight_eq_div_pow, Nat.div_lt_iff_lt_mul (by decide), mul_comm]
    rw [hr] at hi
    exact hi
  exact ⟨by omega, (hrow _).mpr hlt⟩

theorem Space.A (hs : Space h) (hi : i < h.length) : h.A i = h.cell i := by
  rw [Heap.A, if_pos (hs.access hi)]

theorem Space.setA (hs : Space h) (hi : i < h.length) (p : Option E) :
    h.setA i p = some { h with cell := Function.update h.cell i p } := by
  rw [Heap.setA, if_pos (hs.access hi)]

/-- A change that leaves rows and counters alone. -/
structure SameRows (h h' : Heap E) : Prop where
  row : h'.row = h.row
  rows : h'.rows = h.rows
  length : h'.length = h.length
  next : h'.next = h.next

theorem SameRows.refl (h : Heap E) : SameRows h h := ⟨rfl, rfl, rfl, rfl⟩

theorem SameRows.trans {h'' : Heap E} (h1 : SameRows h h') (h2 : SameRows h' h'') : SameRows h h'' :=
  ⟨h2.row.trans h1.row, h2.rows.trans h1.rows, h2.length.trans h1.length, h2.next.trans h1.next⟩

theorem Space.same (hs : Space h) (he : SameRows h h') : Space h' := by
  obtain ⟨h1, h2, h3, h4⟩ := hs
  refine ⟨?_, ?_, ?_, ?_⟩
  · rw [he.length, he.rows, he.row]
    exact h1
  · rw [he.length, he.next]
    exact h2
  · rw [he.next]
    exact h3
  · rw [he.length]
    exact h4

/-- A new row when the last one is full. -/
theorem addrow_spec (hs : Space h) (hfull : h.length = h.next) (hroom : h.next < 2 ^ 32 - 2 * rowWidth) :
    ∃ h', binheapAddrow h = some h' ∧ h'.cell = h.cell ∧ h'.idx = h.idx ∧ h'.next = h.next ∧ Space h' ∧
      h'.next < h'.length := by
  obtain ⟨r, hr, hle, hrow⟩ := hs.rows
  have hw := rowWidth_eq
  have hshift : h.length >>> rowShift = r := by
    rw [hr, Nat.shiftRight_eq_div_pow, hw, show 2 ^ rowShift = 65536 from rfl, Nat.mul_div_cancel_left _ (by norm_num)]
  have hfree : h.row r = false := by
    have := (hrow r).not.mpr (lt_irrefl r)
    simpa using this
  have hbound : rowWidth * (r + 1) ≤ 2 ^ 32 - 2 * rowWidth := by
    have hlt : 65536 * r < 65536 * 65534 := by
      have : h.length < 2 ^ 32 - 2 * rowWidth := by omega
      rw [hr, hw] at this
      omega
    rw [hw]
    omega
  have hwrap : wrap (h.length + rowWidth) = rowWidth * (r + 1) := by
    rw [wrap, hr, ← Nat.mul_succ, Nat.mod_eq_of_lt (by rw [hw] at hbound ⊢; omega)]
  have hrows : r + 1 ≤ if h.rows ≤ r then h.rows * 2 else h.rows := by
    split_ifs with hc
    · have h0 : 0 < r := by
        have := hs.length_pos
        rw [hr] at this
        exact Nat.pos_of_mul_pos_left this
      omega
    · omega
  have hrow' : ∀ i, Function.update h.row r true i = true ↔ i < r + 1 := fun i => by
    by_cases hi : i = r
    · subst hi
      simp
    · rw [Function.update_of_ne hi, hrow]
      omega
  refine ⟨{ h with row := Function.update h.row r true, rows := if h.rows ≤ r then h.rows * 2 else h.rows,
                   length := rowWidth * (r + 1) }, ?_, rfl, rfl, rfl, ⟨⟨r + 1, rfl, hrows, hrow'⟩, ?_, hs.next_pos, hbound⟩,
    ?_⟩
  · unfold binheapAddrow
    simp only [hshift, ge_iff_le]
    split_ifs with hc
    all_goals simp_all
  · simp only
    rw [← hfull, hr, Nat.mul_succ]
    omega
  · simp only
    rw [← hfull, hr, Nat.mul_succ]
    omega

end Rows

/-! ## The loops -/

section Loops

variable [DecidableEq E] {lt : E → E → Bool} {pg : Page} {h h' : Heap E} {u v i fuel : ℕ} {x y : E}

/-- The indices in use hold elements, and the last index that was reported for an element is where it is. -/
structure Filled (h : Heap E) : Prop where
  full : ∀ i, 0 < i → i < h.next → ∃ x, h.cell i = some x
  idx : ∀ i x, 0 < i → i < h.next → h.cell i = some x → h.idx x = i

/-- `x` is in use. -/
def Stored (h : Heap E) (x : E) : Prop := ∃ i, 0 < i ∧ i < h.next ∧ h.cell i = some x

/-- The elements change places among themselves only; nothing is reported for other elements. -/
structure Moved (h h' : Heap E) : Prop where
  same : SameRows h h'
  filled : Filled h'
  stored : ∀ x, Stored h' x ↔ Stored h x
  other : ∀ x, ¬ Stored h x → h'.idx x = h.idx x

omit [DecidableEq E] in
theorem Moved.refl (hf : Filled h) : Moved h h := ⟨SameRows.refl h, hf, fun _ => Iff.rfl, fun _ _ => rfl⟩

omit [DecidableEq E] in
theorem Moved.trans {h'' : Heap E} (h1 : Moved h h') (h2 : Moved h' h'') : Moved h h'' where
  same := h1.same.trans h2.same
  filled := h2.filled
  stored x := (h2.stored x).trans (h1.stored x)
  other x hx := by rw [h2.other x (fun hs => hx ((h1.stored x).mp hs)), h1.other x hx]

theorem update_spec (hs : Space h) (hu : u < h.next) (hx : h.cell u = some x) :
    binheapUpdate h u = some { h with idx := Function.update h.idx x u } := by
  rw [binheapUpdate, if_pos hu, hs.A (lt_of_lt_of_le hu hs.next_le), hx]
  rfl

/-- **`binhead_swap`** of two indices in use. -/
theorem swap_spec (hs : Space h) (hf : Filled h) (hu0 : 0 < u) (hu : u < h.next) (hv0 : 0 < v) (hv : v < h.next)
    (huv : u ≠ v) : ∃ h', binheadSwap h u v = some h' ∧ h'.cell = swapAt h.cell u v ∧ Moved h h' := by
  obtain ⟨x, hx⟩ := hf.full u hu0 hu
  obtain ⟨y, hy⟩ := hf.full v hv0 hv
  have hul := lt_of_lt_of_le hu hs.next_le
  have hvl := lt_of_lt_of_le hv hs.next_le
  have hxy : x ≠ y := by
    rintro rfl
    exact huv ((hf.idx u x hu0 hu hx).symm.trans (hf.idx v x hv0 hv hy))
  let c := Function.update (Function.update h.cell u (some y)) v (some x)
  have hc : c = swapAt h.cell u v := by
    funext i
    by_cases hiv : i = v
    · subst hiv
      simp [c, hx]
    · by_cases hiu : i = u
      · subst hiu
        simp [c, hiv, hy]
      · simp [c, hiv, hiu, swapAt]
  have hcu : c u = some y := by simp [c, huv]
  have hcv : c v = some x := by simp [c]
  let h' : Heap E := { h with cell := c, idx := Function.update (Function.update h.idx y u) x v }
  have hres : binheadSwap h u v = some h' := by
    let h1 : Heap E := { h with cell := Function.update h.cell u (some y) }
    let h2 : Heap E := { h with cell := c }
    let h3 : Heap E := { h2 with idx := Function.update h.idx y u }
    have e1 : h.setA u (h.A v) = some h1 := by rw [hs.A hvl, hy, hs.setA hul]
    have s1 : Space h1 := hs.same ⟨rfl, rfl, rfl, rfl⟩
    have e2 : h1.setA v (some x) = some h2 := s1.setA hvl (some x)
    have s2 : Space h2 := hs.same ⟨rfl, rfl, rfl, rfl⟩
    have e3 : binheapUpdate h2 u = some h3 := update_spec s2 hu hcu
    have s3 : Space h3 := hs.same ⟨rfl, rfl, rfl, rfl⟩
    have e4 : binheapUpdate h3 v = some h' := update_spec s3 hv hcv
    rw [binheadSwap, if_pos ⟨hu, hv⟩, e1, hs.A hul, hx]
    simp only [Option.bind_eq_bind, Option.bind_some, e2, e3, e4]
  -- which elements are where
  have hmem : ∀ z, Stored h' z ↔ Stored h z := fun z => by
    constructor
    · rintro ⟨i, h0, hn, hz⟩
      have hz' : c i = some z := hz
      rw [hc] at hz'
      by_cases hiu : i = u
      · subst hiu
        rw [swapAt_left] at hz'
        exact ⟨v, hv0, hv, hz'⟩
      · by_cases hiv : i = v
        · subst hiv
          rw [swapAt_right] at hz'
          exact ⟨u, hu0, hu, hz'⟩
        · rw [swapAt_of_ne hiu hiv] at hz'
          exact ⟨i, h0, hn, hz'⟩
    · rintro ⟨i, h0, hn, hz⟩
      by_cases hiu : i = u
      · refine ⟨v, hv0, hv, ?_⟩
        rw [show h'.cell = c from rfl, hc, swapAt_right, ← hiu, hz]
      · by_cases hiv : i = v
        · refine ⟨u, hu0, hu, ?_⟩
          rw [show h'.cell = c from rfl, hc, swapAt_left, ← hiv, hz]
        · refine ⟨i, h0, hn, ?_⟩
          rw [show h'.cell = c from rfl, hc, swapAt_of_ne hiu hiv, hz]
  refine ⟨h', hres, hc, ⟨rfl, rfl, rfl, rfl⟩, ⟨fun i h0 hn => ?_, fun i z h0 hn hz => ?_⟩, hmem, fun z hz => ?_⟩
  · rw [show h'.cell = c from rfl, hc]
    unfold swapAt
    split_ifs
    · exact ⟨y, hy⟩
    · exact ⟨x, hx⟩
    · exact hf.full i h0 hn
  · have hz' : c i = some z := hz
    by_cases hiv : i = v
    · subst hiv
      rw [hcv] at hz'
      cases hz'
      simp [h']
    · by_cases hiu : i = u
      · subst hiu
        rw [hcu] at hz'
        cases hz'
        simp [h', Ne.symm hxy]
      · rw [hc, swapAt_of_ne hiu hiv] at hz'
        have hi := hf.idx i z h0 hn hz'
        have hzx : z ≠ x := by
          rintro rfl
          exact hiu (hi.symm.trans (hf.idx u z hu0 hu hx))
        have hzy : z ≠ y := by
          rintro rfl
          exact hiv (hi.symm.trans (hf.idx v z hv0 hv hy))
        simp only [h', Function.update_of_ne hzx, Function.update_of_ne hzy]
        exact hi
  · have hzx : z ≠ x := fun he => hz ⟨u, hu0, hu, he ▸ hx⟩
    have hzy : z ≠ y := fun he => hz ⟨v, hv0, hv, he ▸ hy⟩
    simp only [h', Function.update_of_ne hzx, Function.update_of_ne hzy]

/-- **`binheap_trickleup`** ends, at an index that is in order with its parent. -/
theorem trickleup_spec (fuel : ℕ) (hlt : WeakOrder lt) (hs : Space h) (hf : Filled h) (hu0 : 0 < u) (hu : u < h.next)
    (hfuel : u < fuel) (hole : Hole (liftLt lt) (parent pg) h.next h.cell u) :
    ∃ h' u', binheapTrickleup lt pg fuel h u = some (h', u') ∧ Moved h h' ∧ 0 < u' ∧ u' < h.next ∧
      DownHole (liftLt lt) (parent pg) h.next h'.cell u' ∧
      (KidsOk (liftLt lt) (parent pg) h.next h.cell u → KidsOk (liftLt lt) (parent pg) h.next h'.cell u') := by
  induction fuel generalizing h u with
  | zero => omega
  | succ fuel ih =>
    rw [binheapTrickleup]
    by_cases h1 : u > rootIdx
    · have hu1 : 1 < u := h1
      obtain ⟨hp0, hpu⟩ := up_parent pg h.next u hu1 hu
      obtain ⟨x, hx⟩ := hf.full u hu0 hu
      obtain ⟨y, hy⟩ := hf.full (parent pg u) hp0 (by omega)
      have hAu : h.A u = some x := by rw [hs.A (lt_of_lt_of_le hu hs.next_le), hx]
      have hAp : h.A (parent pg u) = some y := by
        rw [hs.A (lt_of_lt_of_le (hpu.trans hu) hs.next_le), hy]
      have hcmp : liftLt lt (h.cell u) (h.cell (parent pg u)) = lt x y := by rw [hx, hy]; rfl
      rw [if_pos h1]
      simp only [hAu, hAp, Option.bind_eq_bind, Option.bind_some]
      by_cases hless : lt x y = true
      · rw [if_pos hless]
        obtain ⟨h1', hswap, hcell, hmoved⟩ := swap_spec hs hf hu0 hu hp0 (hpu.trans hu) (by omega)
        rw [hswap]
        simp only [Option.bind_some]
        obtain ⟨hole', hkids⟩ := hole.up hlt.lift (up_parent pg _) hu1 hu (by rw [hcmp, hless])
        rw [← hcell] at hole' hkids
        have hn := hmoved.same.next
        obtain ⟨h2, u', hres, hmv, hu'0, hu'n, hdown, hk⟩ := ih (hs.same hmoved.same) hmoved.filled hp0
          (by rw [hn]; omega) (by omega) (by rw [hn]; exact hole')
        rw [hn] at hu'n hdown hk
        exact ⟨h2, u', hres, hmoved.trans hmv, hu'0, hu'n, hdown, fun _ => hk hkids⟩
      · rw [if_neg hless]
        refine ⟨h, u, rfl, Moved.refl hf, hu0, hu, hole.done fun _ => ?_, id⟩
        rw [hcmp]
        simpa using hless
    · rw [if_neg h1]
      refine ⟨h, u, rfl, Moved.refl hf, hu0, hu, hole.done fun hu1 => ?_, id⟩
      exact absurd hu1 h1

/-- The element `p` is sifted down from `u` without meeting an index in use whose children `child` gets wrong: one of its
last branch, where `*b` is stale, or one whose children are beyond 32 bits. -/
def DownSafe (lt : E → E → Bool) (pg : Page) (h : Heap E) (p : E) : (fuel u : ℕ) → Prop
  | 0, _ => True
  | fuel + 1, u => (child pg u 0).1 < h.next → ¬ Usual pg u ∧ ¬ Overflows pg u ∧
      ∀ v ∈ lesserChild lt h (child pg u 0).1 (child pg u 0).2, ∀ y ∈ h.A v, lt p y = false →
        DownSafe lt pg h p fuel v

instance decDownSafe (h : Heap E) (p : E) : (fuel u : ℕ) → Decidable (DownSafe lt pg h p fuel u)
  | 0, _ => isTrue trivial
  | fuel + 1, _ =>
    have : ∀ v, Decidable (DownSafe lt pg h p fuel v) := decDownSafe h p fuel
    inferInstanceAs (Decidable (_ → _ ∧ _ ∧ ∀ v ∈ lesserChild lt h _ _, ∀ y ∈ h.A v, lt p y = false → _))

theorem child_fst (b : ℕ) : (child pg u b).1 = (child pg u 0).1 := by
  unfold child
  split_ifs <;> rfl

theorem child_of_not_usual (hu : ¬ Usual pg u) (b : ℕ) : child pg u b = child pg u 0 := by
  unfold child
  split_ifs with hm hb
  · rfl
  · rfl
  · exact absurd ⟨hm, hb⟩ hu

/-- The children that `child` gives come later. -/
theorem lt_child (hu : ¬ Usual pg u) (ho : ¬ Overflows pg u) : u < (child pg u 0).1 ∧ u < (child pg u 0).2 := by
  obtain ⟨h1, hp1, h2, hp2, -⟩ := child_spec (b := 0) hu ho
  have hlt1 := (up_parent pg ((child pg u 0).1 + 1) _ h1 (by omega)).2
  have hlt2 := (up_parent pg ((child pg u 0).2 + 1) _ h2 (by omega)).2
  rw [hp1] at hlt1
  rw [hp2] at hlt2
  exact ⟨hlt1, hlt2⟩

omit [DecidableEq E] in
theorem lesserChild_mem {v1 v2 : ℕ} (h : lesserChild lt h v1 v2 = some v) : v = v1 ∨ v = v2 := by
  unfold lesserChild at h
  split_ifs at h with hn
  · obtain ⟨x, -, h⟩ := Option.bind_eq_some_iff.mp h
    obtain ⟨y, -, h⟩ := Option.bind_eq_some_iff.mp h
    simp only [Option.some.injEq] at h
    split_ifs at h <;> omega
  · cases h
    exact .inl rfl

omit [DecidableEq E] in
theorem lesserChild_congr {v1 v2 : ℕ} (hn : h'.next = h.next) (h1 : h'.A v1 = h.A v1) (h2 : h'.A v2 = h.A v2) :
    lesserChild lt h' v1 v2 = lesserChild lt h v1 v2 := by
  rw [lesserChild, lesserChild, hn, h1, h2]

omit [DecidableEq E] in
/-- Only what is below `u` matters. -/
theorem DownSafe.congr {p : E} (hn : h'.next = h.next) (hA : ∀ i, u < i → h'.A i = h.A i)
    (hd : DownSafe lt pg h p fuel u) : DownSafe lt pg h' p fuel u := by
  induction fuel generalizing u with
  | zero => trivial
  | succ fuel ih =>
    intro hc
    obtain ⟨hu, ho, hrest⟩ := hd (by rw [← hn]; exact hc)
    obtain ⟨hlt1, hlt2⟩ := lt_child hu ho
    refine ⟨hu, ho, fun v hv y hy hle => ?_⟩
    have hv' := lesserChild_mem hv
    have huv : u < v := by omega
    rw [lesserChild_congr hn (hA _ hlt1) (hA _ hlt2)] at hv
    rw [hA v huv] at hy
    exact ih (fun i hi => hA i (by omega)) (hrest v hv y hy hle)

omit [DecidableEq E] in
/-- The child that is chosen is a least one. -/
theorem lesserChild_spec (hlt : WeakOrder lt) (hs : Space h) (hf : Filled h) (hu : ¬ Usual pg u)
    (ho : ¬ Overflows pg u) (hc : (child pg u 0).1 < h.next) :
    ∃ v, lesserChild lt h (child pg u 0).1 (child pg u 0).2 = some v ∧
      LeastKid (liftLt lt) (parent pg) h.next h.cell u v := by
  obtain ⟨h1, hp1, h2, hp2, hall⟩ := child_spec (b := 0) hu ho
  generalize (child pg u 0).1 = v1 at *
  generalize (child pg u 0).2 = v2 at *
  obtain ⟨x1, hx1⟩ := hf.full v1 (by omega) hc
  have hA1 : h.A v1 = some x1 := by rw [hs.A (lt_of_lt_of_le hc hs.next_le), hx1]
  rw [lesserChild]
  by_cases hn : v2 < h.next
  · obtain ⟨x2, hx2⟩ := hf.full v2 (by omega) hn
    have hA2 : h.A v2 = some x2 := by rw [hs.A (lt_of_lt_of_le hn hs.next_le), hx2]
    rw [if_pos hn, hA1, hA2]
    have hcmp : liftLt lt (h.cell v2) (h.cell v1) = lt x2 x1 := by rw [hx1, hx2]; rfl
    by_cases hless : lt x2 x1 = true
    · refine ⟨v2, by simp [hless], h2, hn, hp2, fun i hi hin hp => ?_⟩
      rcases hall i hi hp with rfl | rfl
      · exact hlt.lift.asymm _ _ (by rw [hcmp, hless])
      · exact hlt.lift.irrefl _
    · refine ⟨v1, by simp [hless], h1, hc, hp1, fun i hi hin hp => ?_⟩
      rcases hall i hi hp with rfl | rfl
      · exact hlt.lift.irrefl _
      · rw [hcmp]
        simpa using hless
  · rw [if_neg hn]
    refine ⟨v1, rfl, h1, hc, hp1, fun i hi hin hp => ?_⟩
    rcases hall i hi hp with rfl | rfl
    · exact hlt.lift.irrefl _
    · exact absurd hin hn

/-- **`binheap_trickledown`** ends with the heap in order, if it is safe. -/
theorem trickledown_spec (fuel : ℕ) {p : E} (hlt : WeakOrder lt) (hs : Space h) (hf : Filled h) (hu0 : 0 < u) (hu : u < h.next)
    (hfuel : h.next < u + fuel) (hp : h.cell u = some p) (hole : DownHole (liftLt lt) (parent pg) h.next h.cell u)
    (hsafe : DownSafe lt pg h p fuel u) (b : ℕ) :
    ∃ h', binheapTrickledown lt pg fuel h u b = some h' ∧ Moved h h' ∧
      Ordered (liftLt lt) (parent pg) h.next h'.cell := by
  induction fuel generalizing h u b with
  | zero => omega
  | succ fuel ih =>
    have hn32 : h.next ≤ 2 ^ 32 := by
      have := hs.next_le
      have := hs.room
      omega
    rw [binheapTrickledown]
    simp only
    by_cases hc : (child pg u b).1 ≥ h.next
    · rw [if_pos hc]
      exact ⟨h, rfl, Moved.refl hf, hole.ordered fun i hi hin hpar => absurd hpar (no_kids hn32 hc hi hin)⟩
    · have hc' : (child pg u 0).1 < h.next := by
        rw [child_fst] at hc
        omega
      obtain ⟨hus, ho, hrest⟩ := hsafe hc'
      rw [if_neg hc, child_of_not_usual hus b]
      obtain ⟨v, hv, hleast⟩ := lesserChild_spec hlt hs hf hus ho hc'
      have huv : u < v := by
        have := lt_child hus ho
        rcases lesserChild_mem hv with rfl | rfl <;> omega
      have hv0 : 0 < v := by omega
      obtain ⟨y, hy⟩ := hf.full v hv0 hleast.lt_n
      have hAv : h.A v = some y := by rw [hs.A (lt_of_lt_of_le hleast.lt_n hs.next_le), hy]
      have hAu : h.A u = some p := by rw [hs.A (lt_of_lt_of_le hu hs.next_le), hp]
      have hcmp : liftLt lt (h.cell u) (h.cell v) = lt p y := by rw [hp, hy]; rfl
      simp only [hv, hAu, hAv, Option.bind_eq_bind, Option.bind_some]
      by_cases hless : lt p y = true
      · rw [if_pos hless]
        exact ⟨h, rfl, Moved.refl hf, hole.ordered (hleast.kidsOk hlt.lift (by rw [hcmp, hless]))⟩
      · rw [if_neg hless]
        have hle : lt p y = false := by simpa using hless
        obtain ⟨h1, hswap, hcell, hmoved⟩ := swap_spec hs hf hu0 hu hv0 hleast.lt_n (by omega)
        rw [hswap]
        simp only [Option.bind_some]
        have hn := hmoved.same.next
        have hs1 := hs.same hmoved.same
        have hhole1 := hole.down (up_parent pg _) hleast (by rw [hcmp, hle])
        rw [← hcell] at hhole1
        have hA1 : ∀ i, v < i → h1.A i = h.A i := fun i hi => by
          simp only [Heap.A, hmoved.same.row, hmoved.same.rows, hcell, swapAt_of_ne (by omega : i ≠ u)
            (by omega : i ≠ v)]
        have hsafe1 : DownSafe lt pg h1 p fuel v := (hrest v hv y hAv hle).congr hn hA1
        obtain ⟨h2, hres, hmv, hord⟩ := ih hs1 hmoved.filled hv0 (by rw [hn]; exact hleast.lt_n)
          (by rw [hn]; omega) (by rw [hcell, swapAt_right, hp]) (by rw [hn]; exact hhole1) hsafe1 (child pg u 0).2
        rw [hn] at hord
        exact ⟨h2, hres, hmoved.trans hmv, hord⟩

end Loops

/-! ## The operations -/

section Ops

variable [DecidableEq E] {lt : E → E → Bool} {pg : Page} {h : Heap E} {idx : ℕ} {p : E}

/-- The heap between two operations. -/
structure QInv (lt : E → E → Bool) (pg : Page) (h : Heap E) : Prop where
  space : Space h
  filled : Filled h
  ordered : Ordered (liftLt lt) (parent pg) h.next h.cell
  empty : h.next = 1 → h.cell 1 = none

omit [DecidableEq E] in
/-- The room for a new element is there, or is made. -/
theorem room_spec (hs : Space h) (hroom : h.next < 2 ^ 32 - 2 * rowWidth) :
    ∃ h1, binheapRoom h = some h1 ∧ h1.cell = h.cell ∧ h1.idx = h.idx ∧ h1.next = h.next ∧ Space h1 ∧
      h1.next < h1.length := by
  rw [binheapRoom]
  by_cases hfull : h.length = h.next
  · rw [if_pos hfull]
    exact addrow_spec hs hfull hroom
  · rw [if_neg hfull]
    have := hs.next_le
    exact ⟨h, rfl, rfl, rfl, rfl, hs, by omega⟩

/-- What an insertion does to the elements. -/
structure Inserted (h h' : Heap E) (p : E) : Prop where
  next : h'.next = h.next + 1
  stored : ∀ x, Stored h' x ↔ x = p ∨ Stored h x
  other : ∀ x, ¬ Stored h' x → h'.idx x = h.idx x

/-- The new element at the end, before it is sifted up. -/
theorem push_spec (hs : Space h) (hf : Filled h) (hp : ¬ Stored h p) (hlen : h.next < h.length) :
    ∃ h', binheapPush h p = some h' ∧ h'.cell = Function.update h.cell h.next (some p) ∧ Space h' ∧ Filled h' ∧
      Inserted h h' p := by
  have hpos := hs.next_pos
  have hroom := hs.room
  have hw := rowWidth_eq
  have hwrap : wrap (h.next + 1) = h.next + 1 := by
    rw [wrap, Nat.mod_eq_of_lt (by omega)]
  let h1 : Heap E := { h with next := h.next + 1 }
  let h2 : Heap E := { h1 with cell := Function.update h.cell h.next (some p) }
  let h3 : Heap E := { h2 with idx := Function.update h.idx p h.next }
  have hn3 : h3.next = h.next + 1 := rfl
  have hs1 : Space h1 := ⟨hs.rows, hlen, Nat.succ_pos _, hs.room⟩
  have e2 : h1.setA h.next (some p) = some h2 := hs1.setA hlen (some p)
  have hs2 : Space h2 := hs1.same ⟨rfl, rfl, rfl, rfl⟩
  have e3 : binheapUpdate h2 h.next = some h3 := update_spec hs2 (Nat.lt_succ_self _) (by simp [h2])
  have hcell : ∀ i, i ≠ h.next → h3.cell i = h.cell i := fun i hi => by simp [h3, h2, hi]
  have hcn : h3.cell h.next = some p := by simp [h3, h2]
  refine ⟨h3, ?_, rfl, hs1.same ⟨rfl, rfl, rfl, rfl⟩, ⟨fun i h0 hn => ?_, fun i x h0 hn hx => ?_⟩, hn3, fun x => ?_,
    fun x hx => ?_⟩
  · rw [binheapPush, hwrap]
    simp only [Option.bind_eq_bind]
    rw [show ({ h with next := h.next + 1 } : Heap E) = h1 from rfl, e2]
    exact e3
  · by_cases hi : i = h.next
    · exact ⟨p, hi ▸ hcn⟩
    · rw [hcell i hi]
      exact hf.full i h0 (by omega)
  · by_cases hi : i = h.next
    · subst hi
      rw [hcn] at hx
      cases hx
      simp [h3]
    · rw [hcell i hi] at hx
      have hxp : x ≠ p := fun he => hp ⟨i, h0, by omega, he ▸ hx⟩
      simp only [h3, Function.update_of_ne hxp]
      exact hf.idx i x h0 (by omega) hx
  · constructor
    · rintro ⟨i, h0, hn, hx⟩
      by_cases hi : i = h.next
      · subst hi
        rw [hcn] at hx
        cases hx
        exact .inl rfl
      · rw [hcell i hi] at hx
        exact .inr ⟨i, h0, by omega, hx⟩
    · rintro (rfl | ⟨i, h0, hn, hx⟩)
      · exact ⟨h.next, hpos, by omega, hcn⟩
      · exact ⟨i, h0, by omega, by rw [hcell i (by omega), hx]⟩
  · have hxp : x ≠ p := fun he => hx ⟨h.next, hpos, by omega, he ▸ hcn⟩
    simp only [h3, Function.update_of_ne hxp]

/-- **`binheap_insert`** of an element that is not stored. -/
theorem insert_spec (hlt : WeakOrder lt) (hq : QInv lt pg h) (hp : ¬ Stored h p)
    (hroom : h.next < 2 ^ 32 - 2 * rowWidth) :
    ∃ h', binheapInsert lt pg h p = some h' ∧ QInv lt pg h' ∧ Inserted h h' p := by
  obtain ⟨h1, hadd, hcell, hidx, hnext, hs1, hlen⟩ := room_spec hq.space hroom
  have hf1 : Filled h1 := by
    refine ⟨?_, ?_⟩
    · rw [hcell, hnext]
      exact hq.filled.full
    · rw [hcell, hnext, hidx]
      exact hq.filled.idx
  have hst1 : ∀ x, Stored h1 x ↔ Stored h x := fun x => by rw [Stored, Stored, hcell, hnext]
  obtain ⟨h2, hpush, hcell2, hs2, hf2, hins⟩ := push_spec hs1 hf1 (fun hs => hp ((hst1 p).mp hs)) hlen
  have hn2 : h2.next = h.next + 1 := by rw [hins.next, hnext]
  obtain ⟨hole, hkids⟩ := hq.ordered.push (up_parent pg _) (some p)
  rw [hcell, hnext] at hcell2
  rw [← hcell2, ← hn2] at hole hkids
  obtain ⟨h3, u', hres, hmoved, -, -, hdown, hk⟩ := trickleup_spec (h.next + 1) hlt hs2 hf2 hq.space.next_pos
    (by omega) (by omega) hole
  have hn3 : h3.next = h2.next := hmoved.same.next
  refine ⟨h3, ?_, ⟨hs2.same hmoved.same, hmoved.filled, ?_, fun h1 => ?_⟩, by omega, fun x => ?_, fun x hx => ?_⟩
  · rw [binheapInsert, if_pos hq.space.next_le]
    simp only [hadd, hpush, hnext, hres, Option.bind_eq_bind, Option.bind_some]
  · rw [hn3]
    exact hdown.ordered (hk hkids)
  · have := hq.space.next_pos
    omega
  · rw [hmoved.stored x, hins.stored x, hst1 x]
  · have hx2 : ¬ Stored h2 x := fun hs => hx ((hmoved.stored x).mpr hs)
    rw [hmoved.other x hx2, hins.other x hx2, hidx]

/-- Deleting `idx` sifts the tail element down without meeting an index whose children `child` gets wrong. -/
def DeleteSafe (lt : E → E → Bool) (pg : Page) (h : Heap E) (idx : ℕ) : Prop :=
  idx ≠ h.next - 1 → ∀ x ∈ h.A idx, ∀ h1 ∈ binheapReplace (binheapRetire h x) idx,
    ∀ hu ∈ binheapTrickleup lt pg (idx + 1) h1 idx, ∀ p ∈ hu.1.A hu.2, DownSafe lt pg hu.1 p (hu.1.next + 1) hu.2

instance (h : Heap E) (idx : ℕ) : Decidable (DeleteSafe lt pg h idx) :=
  inferInstanceAs (Decidable (_ → ∀ x ∈ h.A idx, ∀ h1 ∈ binheapReplace (binheapRetire h x) idx,
    ∀ hu ∈ binheapTrickleup lt pg (idx + 1) h1 idx, ∀ p ∈ hu.1.A hu.2, DownSafe lt pg hu.1 p (hu.1.next + 1) hu.2))

/-- What a deletion of `x` does to the elements. -/
structure Removed (h h' : Heap E) (x : E) : Prop where
  stored : ∀ z, Stored h' z ↔ z ≠ x ∧ Stored h z
  gone : h'.idx x = 0
  other : ∀ z, z ≠ x → ¬ Stored h z → h'.idx z = h.idx z

omit [DecidableEq E] in
/-- The element at an index is not found at any other index. -/
theorem Filled.ne_of_idx (hf : Filled h) {i j : ℕ} {x z : E} (h0 : 0 < i) (hi : i < h.next) (hx : h.cell i = some x)
    (hj0 : 0 < j) (hj : j < h.next) (hz : h.cell j = some z) (hij : j ≠ i) : z ≠ x := by
  rintro rfl
  exact hij ((hf.idx j z hj0 hj hz).symm.trans (hf.idx i z h0 hi hx))

/-- The last element goes. -/
theorem delete_tail (hq : QInv lt pg h) (h1 : 1 < h.next) {x : E} (hx : h.cell (h.next - 1) = some x) :
    ∃ h', (binheapRetire h x).setA (h.next - 1) none = some h' ∧ QInv lt pg h' ∧ Removed h h' x := by
  have hs := hq.space
  have hle := hs.next_le
  let hr := binheapRetire h x
  have hsr : Space hr := ⟨hs.rows, show h.next - 1 ≤ h.length by omega, show 0 < h.next - 1 by omega, hs.room⟩
  have hcell : ∀ i, i < h.next - 1 → Function.update h.cell (h.next - 1) none i = h.cell i := fun i hi =>
    Function.update_of_ne (by omega) _ _
  have hne : ∀ {i z}, 0 < i → i < h.next - 1 → h.cell i = some z → z ≠ x := fun h0 hi hz =>
    hq.filled.ne_of_idx (by omega) (by omega) hx h0 (by omega) hz (by omega)
  have hstored : ∀ z, (∃ i, 0 < i ∧ i < h.next - 1 ∧ Function.update h.cell (h.next - 1) none i = some z) ↔
      z ≠ x ∧ Stored h z := fun z => by
    constructor
    · rintro ⟨i, h0, hi, hz⟩
      rw [hcell i hi] at hz
      exact ⟨hne h0 hi hz, i, h0, by omega, hz⟩
    · rintro ⟨hzx, i, h0, hi, hz⟩
      have hlast : i ≠ h.next - 1 := by
        rintro rfl
        rw [hx] at hz
        cases hz
        exact hzx rfl
      exact ⟨i, h0, by omega, by rw [hcell i (by omega), hz]⟩
  refine ⟨_, hsr.setA (show h.next - 1 < h.length by omega) none, ⟨hsr.same ⟨rfl, rfl, rfl, rfl⟩, ⟨?_, ?_⟩, ?_, ?_⟩,
    hstored, by simp [hr, binheapRetire], fun z hz _ => ?_⟩
  · intro i h0 (hi : i < h.next - 1)
    simp only [hcell i hi, hr, binheapRetire]
    exact hq.filled.full i h0 (by omega)
  · intro i z h0 (hi : i < h.next - 1) hz
    simp only [hr, binheapRetire, hcell i hi] at hz
    simp only [hr, binheapRetire, Function.update_of_ne (hne h0 hi hz)]
    exact hq.filled.idx i z h0 (by omega) hz
  · exact (hq.ordered.mono (by omega : h.next - 1 ≤ h.next)).congr (up_parent pg _) fun i _ hi => hcell i hi
  · intro (he : h.next - 1 = 1)
    simp [he, hr, binheapRetire]
  · simp [hr, binheapRetire, hz]

/-- The tail element `p` takes the place of `x`. -/
theorem replace_spec (hlt : WeakOrder lt) (hq : QInv lt pg h) (h0 : 0 < idx) (hi : idx < h.next - 1) {x : E}
    (hx : h.cell idx = some x) :
    ∃ h', binheapReplace (binheapRetire h x) idx = some h' ∧ h'.next = h.next - 1 ∧ Space h' ∧ Filled h' ∧
      Hole (liftLt lt) (parent pg) h'.next h'.cell idx ∧ Removed h h' x := by
  have hs := hq.space
  have hle := hs.next_le
  obtain ⟨p, hp⟩ := hq.filled.full (h.next - 1) (by omega) (by omega)
  have hpx : p ≠ x := hq.filled.ne_of_idx h0 (by omega) hx (by omega) (by omega) hp (by omega)
  let hr := binheapRetire h x
  let h1 : Heap E := { hr with cell := Function.update h.cell idx (some p) }
  let h2 : Heap E := { hr with cell := Function.update h1.cell (h.next - 1) none }
  let h3 : Heap E := { h2 with idx := Function.update hr.idx p idx }
  have hnr : hr.next = h.next - 1 := rfl
  have hsr : Space hr := ⟨hs.rows, show h.next - 1 ≤ h.length by omega, show 0 < h.next - 1 by omega, hs.room⟩
  have hs1 : Space h1 := hsr.same ⟨rfl, rfl, rfl, rfl⟩
  have hs2 : Space h2 := hsr.same ⟨rfl, rfl, rfl, rfl⟩
  have hc2 : ∀ i, i < h.next - 1 → h2.cell i = Function.update h.cell idx (some p) i := fun i hi' =>
    Function.update_of_ne (by omega) _ _
  have hci : h2.cell idx = some p := by rw [hc2 idx hi, Function.update_self]
  have hco : ∀ i, i < h.next - 1 → i ≠ idx → h2.cell i = h.cell i := fun i hi' hne => by
    rw [hc2 i hi', Function.update_of_ne hne]
  have e0 : hr.A (h.next - 1) = some p := by
    rw [hsr.A (show h.next - 1 < h.length by omega)]
    exact hp
  have e1 : hr.setA idx (some p) = some h1 := hsr.setA (show idx < h.length by omega) _
  have e2 : h1.setA (h.next - 1) none = some h2 := hs1.setA (show h.next - 1 < h.length by omega) _
  have e3 : binheapUpdate h2 idx = some h3 := update_spec hs2 hi hci
  have hres : binheapReplace hr idx = some h3 := by
    rw [binheapReplace, hnr, e0, e1]
    simp only [Option.bind_eq_bind, Option.bind_some]
    rw [show h1.next = h.next - 1 from rfl, e2]
    exact e3
  -- the other elements are neither `x` nor `p`
  have hne : ∀ {i z}, 0 < i → i < h.next - 1 → i ≠ idx → h.cell i = some z → z ≠ x ∧ z ≠ p := fun h0' hi' hne hz =>
    ⟨hq.filled.ne_of_idx h0 (by omega) hx h0' (by omega) hz hne,
      hq.filled.ne_of_idx (by omega) (by omega) hp h0' (by omega) hz (by omega)⟩
  refine ⟨h3, hres, rfl, hsr.same ⟨rfl, rfl, rfl, rfl⟩, ⟨?_, ?_⟩, ?_, fun z => ⟨?_, ?_⟩, ?_, fun z hzx hz => ?_⟩
  · intro i h0' (hi' : i < h.next - 1)
    by_cases hne' : i = idx
    · exact ⟨p, hne' ▸ hci⟩
    · rw [show h3.cell = h2.cell from rfl, hco i hi' hne']
      exact hq.filled.full i h0' (by omega)
  · intro i z h0' (hi' : i < h.next - 1) hz
    by_cases hne' : i = idx
    · subst hne'
      have : h2.cell i = some z := hz
      rw [hci] at this
      cases this
      simp [h3]
    · have hz' : h2.cell i = some z := hz
      rw [hco i hi' hne'] at hz'
      obtain ⟨hzx, hzp⟩ := hne h0' hi' hne' hz'
      simp only [h3, hr, binheapRetire, Function.update_of_ne hzp, Function.update_of_ne hzx]
      exact hq.filled.idx i z h0' (by omega) hz'
  · have hord : Ordered (liftLt lt) (parent pg) (h.next - 1) h.cell := hq.ordered.mono (by omega)
    exact (hord.hole hlt.lift (up_parent pg _) hi (some p)).congr (up_parent pg _) (fun i _ hi' => hc2 i hi') hi
  · rintro ⟨i, h0', (hi' : i < h.next - 1), hz⟩
    by_cases hne' : i = idx
    · subst hne'
      have : h2.cell i = some z := hz
      rw [hci] at this
      cases this
      exact ⟨hpx, h.next - 1, by omega, by omega, hp⟩
    · have hz' : h2.cell i = some z := hz
      rw [hco i hi' hne'] at hz'
      exact ⟨(hne h0' hi' hne' hz').1, i, h0', by omega, hz'⟩
  · rintro ⟨hzx, i, h0', hi', hz⟩
    by_cases hlast : i = h.next - 1
    · subst hlast
      rw [hp] at hz
      cases hz
      exact ⟨idx, h0, hi, hci⟩
    · have hne' : i ≠ idx := by
        rintro rfl
        rw [hx] at hz
        cases hz
        exact hzx rfl
      have hin : i < h.next - 1 := by omega
      refine ⟨i, h0', hin, ?_⟩
      rw [show h3.cell = h2.cell from rfl, hco i hin hne', hz]
  · simp [h3, hr, binheapRetire, Ne.symm hpx]
  · have hzp : z ≠ p := fun he => hz ⟨h.next - 1, by omega, by omega, he ▸ hp⟩
    simp only [h3, hr, binheapRetire, Function.update_of_ne hzp, Function.update_of_ne hzx]

omit [DecidableEq E] in
/-- Giving a row back leaves the elements alone. -/
theorem shrink_spec (hs : Space h) (hroom : h.next < 2 ^ 32 - 2 * rowWidth) : Space (binheapShrink h) ∧
    (binheapShrink h).next = h.next ∧ (binheapShrink h).cell = h.cell ∧ (binheapShrink h).idx = h.idx := by
  have hw := rowWidth_eq
  unfold binheapShrink
  split_ifs with hc
  · rw [wrap, Nat.mod_eq_of_lt (by omega)] at hc
    obtain ⟨r, hr, hle, hrow⟩ := hs.rows
    have hr0 : 0 < r := by
      have := hs.length_pos
      rw [hr] at this
      exact Nat.pos_of_mul_pos_left this
    obtain ⟨r, rfl⟩ := Nat.exists_eq_succ_of_ne_zero (by omega : r ≠ 0)
    have hlen : h.length = rowWidth * r + rowWidth := by rw [hr, Nat.mul_succ]
    have hlast : (h.length - 1) >>> rowShift = r := by
      rw [Nat.shiftRight_eq_div_pow, show 2 ^ rowShift = rowWidth from rfl, Nat.div_eq_iff (by omega)]
      rw [hlen, Nat.mul_comm]
      omega
    refine ⟨⟨⟨r, ?_, by simp only; omega, fun i => ?_⟩, ?_, hs.next_pos, ?_⟩, rfl, rfl, rfl⟩
    · simp only
      omega
    · simp only [hlast]
      by_cases hi : i = r
      · subst hi
        simp
      · rw [Function.update_of_ne hi, hrow]
        omega
    · simp only
      omega
    · have := hs.room
      simp only
      omega
  · exact ⟨hs, rfl, rfl, rfl⟩

/-- **`binheap_delete`** of an index in use, if it is safe. -/
theorem delete_spec (hlt : WeakOrder lt) (hq : QInv lt pg h) (h0 : 0 < idx) (hi : idx < h.next)
    (hsafe : DeleteSafe lt pg h idx) (junk : ℕ) :
    ∃ h' x, h.A idx = some x ∧ binheapDelete lt pg h idx junk = some h' ∧ QInv lt pg h' ∧ Removed h h' x := by
  have hs := hq.space
  have hle := hs.next_le
  have hw := rowWidth_eq
  obtain ⟨x, hx⟩ := hq.filled.full idx h0 hi
  have hA : h.A idx = some x := by rw [hs.A (by omega), hx]
  have hcond : h.next > rootIdx ∧ idx < h.next ∧ idx > 0 := ⟨lt_of_le_of_lt h0 hi, hi, h0⟩
  have hdel : binheapDelete lt pg h idx junk = if idx = h.next - 1 then (binheapRetire h x).setA (h.next - 1) none
      else (binheapReplace (binheapRetire h x) idx).bind fun h1 => (binheapTrickleup lt pg (idx + 1) h1 idx).bind fun hu =>
        (binheapTrickledown lt pg (hu.1.next + 1) hu.1 hu.2 junk).bind fun h3 => some (binheapShrink h3) := by
    rw [binheapDelete, if_pos hcond, hA]
    rfl
  rw [hdel]
  by_cases htail : idx = h.next - 1
  · rw [if_pos htail]
    obtain ⟨h', hres, hq', hrem⟩ := delete_tail hq (by omega) (htail ▸ hx)
    exact ⟨h', x, hA, hres, hq', hrem⟩
  · rw [if_neg htail]
    obtain ⟨h1, hrep, hn1, hs1, hf1, hole, hrem⟩ := replace_spec hlt hq h0 (by omega) hx
    obtain ⟨h2, u, hup, hmoved, hu0, hu, hdown, -⟩ :=
      trickleup_spec (idx + 1) hlt hs1 hf1 h0 (by omega) (by omega) hole
    have hn2 := hmoved.same.next
    have hs2 := hs1.same hmoved.same
    obtain ⟨p, hp⟩ := hmoved.filled.full u hu0 (by omega)
    have hAp : h2.A u = some p := by rw [hs2.A (lt_of_lt_of_le (by omega) hs2.next_le), hp]
    obtain ⟨h3, hdn, hmoved3, hord⟩ := trickledown_spec (h2.next + 1) hlt hs2 hmoved.filled hu0 (by omega)
      (by omega) hp (by rw [hn2]; exact hdown) (hsafe htail x hA h1 hrep (h2, u) hup p hAp) junk
    have hn3 := hmoved3.same.next
    have hroom := hs.room
    obtain ⟨hs4, hn4, hc4, hi4⟩ := shrink_spec (hs2.same hmoved3.same) (by omega)
    have hst : ∀ z, Stored (binheapShrink h3) z ↔ Stored h1 z := fun z => by
      rw [← hmoved.stored z, ← hmoved3.stored z, Stored, Stored, hn4, hc4]
    refine ⟨binheapShrink h3, x, hA, ?_, ⟨hs4, ⟨?_, ?_⟩, ?_, fun h1 => ?_⟩, fun z => ?_, ?_, fun z hzx hz => ?_⟩
    · rw [hrep]
      simp only [Option.bind_some, hup, hdn]
    · rw [hn4, hc4]
      exact hmoved3.filled.full
    · rw [hn4, hc4, hi4]
      exact hmoved3.filled.idx
    · rw [hn4, hc4, hn3]
      exact hord
    · omega
    · rw [hst z, hrem.stored z]
    · have hx1 : ¬ Stored h1 x := fun hs => ((hrem.stored x).mp hs).1 rfl
      rw [hi4, hmoved3.other x (fun hs => hx1 ((hmoved.stored x).mp hs)), hmoved.other x hx1, hrem.gone]
    · have hz1 : ¬ Stored h1 z := fun hs => hz ((hrem.stored z).mp hs).2
      rw [hi4, hmoved3.other z (fun hs => hz1 ((hmoved.stored z).mp hs)), hmoved.other z hz1, hrem.other z hzx hz]

end Ops

end Varnish.Binheap
