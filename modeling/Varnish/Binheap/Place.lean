import Varnish.Binheap.Queue

/-!
# Varnish.Binheap.Place — where the elements are, whatever the order

The callers of the expiry heap change the time of an element while it is stored, and `child` can give a wrong second
child: the heap is then out of order.  What follows needs no order at all.

* `Placed`: the rows cover the indices in use, these hold elements, and each element was told where it is.
* `trickleup_sifted`, `trickledown_sifted`: the loops only exchange elements, whatever they compare.
* `insert_placed`, `delete_placed`: what the operations that end do to the elements.
-/

namespace Varnish.Binheap

open Varnish.Lib

variable {E : Type}

/-- The heap between two operations, but for its order.  Index 0 is never written: a comparison that reads it fails if
it is `NULL`. -/
structure Placed (h : Heap E) : Prop where
  space : Space h
  filled : Filled h
  empty : h.next = 1 → h.cell 1 = none
  zero : h.cell 0 = none

section Sift

variable {h h' h'' : Heap E} {u v fuel : ℕ} {x : E}

/-- A stored element is found at the index that was reported for it. -/
theorem Placed.A_idx (hp : Placed h) (hx : Stored h x) : h.A (h.idx x) = some x := by
  obtain ⟨i, h0, hi, hx⟩ := hx
  rw [hp.filled.idx i x h0 hi hx, hp.space.A (lt_of_lt_of_le hi hp.space.next_le), hx]

theorem Placed.idx_ne (hp : Placed h) (hx : Stored h x) : h.idx x ≠ 0 := by
  obtain ⟨i, h0, hi, hx⟩ := hx
  rw [hp.filled.idx i x h0 hi hx]
  omega

/-- Elements that are in use are exchanged. -/
structure Sifted (h h' : Heap E) : Prop where
  moved : Moved h h'
  zero : h'.cell 0 = h.cell 0

theorem Sifted.refl (hf : Filled h) : Sifted h h := ⟨Moved.refl hf, rfl⟩

theorem Sifted.trans (h1 : Sifted h h') (h2 : Sifted h' h'') : Sifted h h'' :=
  ⟨h1.moved.trans h2.moved, h2.zero.trans h1.zero⟩

/-- The index of an element that is read is in use, or is 0. -/
theorem Space.cell_of_A (hs : Space h) (hu : u < h.next) (hx : h.A u = some x) : h.cell u = some x := by
  rw [← hs.A (lt_of_lt_of_le hu hs.next_le), hx]

/-- An index at which an element is read is not 0. -/
theorem pos_of_A (hz : h.cell 0 = none) (hx : h.A u = some x) : 0 < u := by
  refine Nat.pos_of_ne_zero fun h0 => ?_
  subst h0
  rw [Heap.A] at hx
  split_ifs at hx
  rw [hz] at hx
  cases hx

variable [DecidableEq E] {lt : E → E → Bool} {pg : Page}

/-- `binhead_swap` of an index with itself changes nothing. -/
theorem swap_self (hs : Space h) (hf : Filled h) (hu0 : 0 < u) (hu : u < h.next) : binheadSwap h u u = some h := by
  obtain ⟨x, hx⟩ := hf.full u hu0 hu
  have hul := lt_of_lt_of_le hu hs.next_le
  have hcell : Function.update h.cell u (some x) = h.cell := by rw [← hx, Function.update_eq_self]
  have hidx : Function.update h.idx x u = h.idx := by
    rw [← hf.idx u x hu0 hu hx, Function.update_eq_self]
  have hset : h.setA u (some x) = some h := by rw [hs.setA hul, hcell]
  have hupd : binheapUpdate h u = some h := by rw [update_spec hs hu hx, hidx]
  rw [binheadSwap, if_pos ⟨hu, hu⟩, hs.A hul, hx]
  simp only [Option.bind_eq_bind, Option.bind_some, hset, hupd]

/-- `binhead_swap` of indices in use, which may be the same. -/
theorem swap_sifted (hs : Space h) (hf : Filled h) (hu0 : 0 < u) (hu : u < h.next) (hv0 : 0 < v) (hv : v < h.next) :
    ∃ h', binheadSwap h u v = some h' ∧ Sifted h h' := by
  by_cases huv : u = v
  · subst huv
    exact ⟨h, swap_self hs hf hu0 hu, Sifted.refl hf⟩
  · obtain ⟨h', hres, hcell, hmoved⟩ := swap_spec hs hf hu0 hu hv0 hv huv
    refine ⟨h', hres, hmoved, ?_⟩
    rw [hcell, swapAt_of_ne (by omega) (by omega)]

/-- **`binheap_trickleup`**, whatever it compares. -/
theorem trickleup_sifted {r : Heap E × ℕ} (hs : Space h) (hf : Filled h) (hu0 : 0 < u) (hu : u < h.next)
    (hr : binheapTrickleup lt pg fuel h u = some r) : Sifted h r.1 ∧ 0 < r.2 ∧ r.2 < h.next := by
  induction fuel generalizing h u with
  | zero => cases hr
  | succ fuel ih =>
    rw [binheapTrickleup] at hr
    by_cases h1 : u > rootIdx
    · obtain ⟨hp0, hpu⟩ := up_parent pg h.next u h1 hu
      rw [if_pos h1] at hr
      obtain ⟨x, -, hr⟩ := Option.bind_eq_some_iff.mp hr
      obtain ⟨y, -, hr⟩ := Option.bind_eq_some_iff.mp hr
      by_cases hless : lt x y = true
      · rw [if_pos hless] at hr
        obtain ⟨h2, hswap, hsift⟩ := swap_sifted hs hf hu0 hu hp0 (hpu.trans hu)
        rw [hswap] at hr
        have hn := hsift.moved.same.next
        obtain ⟨hsift', hr0, hrn⟩ := ih (hs.same hsift.moved.same) hsift.moved.filled hp0 (by omega) hr
        exact ⟨hsift.trans hsift', hr0, by omega⟩
      · rw [if_neg hless] at hr
        cases hr
        exact ⟨Sifted.refl hf, hu0, hu⟩
    · rw [if_neg h1] at hr
      cases hr
      exact ⟨Sifted.refl hf, hu0, hu⟩

/-- **`binheap_trickledown`**, whatever it compares and whatever the second child is. -/
theorem trickledown_sifted {b : ℕ} (hs : Space h) (hf : Filled h) (hz : h.cell 0 = none) (hu0 : 0 < u) (hu : u < h.next)
    (hr : binheapTrickledown lt pg fuel h u b = some h') : Sifted h h' := by
  induction fuel generalizing h u b with
  | zero => cases hr
  | succ fuel ih =>
    rw [binheapTrickledown] at hr
    simp only at hr
    by_cases hc : (child pg u b).1 ≥ h.next
    · rw [if_pos hc] at hr
      cases hr
      exact Sifted.refl hf
    · rw [if_neg hc] at hr
      obtain ⟨v, hv, hr⟩ := Option.bind_eq_some_iff.mp hr
      obtain ⟨x, -, hr⟩ := Option.bind_eq_some_iff.mp hr
      obtain ⟨y, hy, hr⟩ := Option.bind_eq_some_iff.mp hr
      by_cases hless : lt x y = true
      · rw [if_pos hless] at hr
        cases hr
        exact Sifted.refl hf
      · rw [if_neg hless] at hr
        have hv0 : 0 < v := pos_of_A hz hy
        have hvn : v < h.next := by
          rw [lesserChild] at hv
          by_cases hn : (child pg u b).2 < h.next
          · rw [if_pos hn] at hv
            obtain ⟨x', -, hv⟩ := Option.bind_eq_some_iff.mp hv
            obtain ⟨y', -, hv⟩ := Option.bind_eq_some_iff.mp hv
            simp only [Option.some.injEq] at hv
            split_ifs at hv <;> omega
          · rw [if_neg hn] at hv
            cases hv
            omega
        obtain ⟨h2, hswap, hsift⟩ := swap_sifted hs hf hu0 hu hv0 hvn
        rw [hswap] at hr
        have hn := hsift.moved.same.next
        have hsift' := ih (hs.same hsift.moved.same) hsift.moved.filled (hsift.zero.trans hz) hv0 (by omega) hr
        exact hsift.trans hsift'

end Sift

section Ops

variable [DecidableEq E] {lt : E → E → Bool} {pg : Page} {h h' : Heap E} {idx junk : ℕ} {p x : E}

/-- Nothing is less than anything. -/
def noLt (_ _ : E) : Bool := false

omit [DecidableEq E] in
theorem noLt_weak : WeakOrder (noLt : E → E → Bool) := ⟨fun _ _ h => (by cases h), fun _ _ _ _ _ => rfl⟩

omit [DecidableEq E] in
/-- A heap is in order if no element is less than another one. -/
theorem Placed.queue (hp : Placed h) (pg : Page) : QInv noLt pg h where
  space := hp.space
  filled := hp.filled
  ordered i h1 hi := by
    obtain ⟨hp0, hpi⟩ := up_parent pg h.next i h1 hi
    obtain ⟨x, hx⟩ := hp.filled.full i (by omega) hi
    obtain ⟨y, hy⟩ := hp.filled.full (parent pg i) hp0 (by omega)
    rw [hx, hy]
    rfl
  empty := hp.empty

/-- **`binheap_insert`** of an element that is not stored, if it ends. -/
theorem insert_placed (hp : Placed h) (hx : ¬ Stored h x) (hroom : h.next < 2 ^ 32 - 2 * rowWidth)
    (hr : binheapInsert lt pg h x = some h') : Placed h' ∧ Inserted h h' x := by
  obtain ⟨h1, hadd, hcell, hidx, hnext, hs1, hlen⟩ := room_spec hp.space hroom
  have hf1 : Filled h1 := by
    refine ⟨?_, ?_⟩
    · rw [hcell, hnext]
      exact hp.filled.full
    · rw [hcell, hnext, hidx]
      exact hp.filled.idx
  have hst1 : ∀ z, Stored h1 z ↔ Stored h z := fun z => by rw [Stored, Stored, hcell, hnext]
  obtain ⟨h2, hpush, hcell2, hs2, hf2, hins⟩ := push_spec hs1 hf1 (fun hs => hx ((hst1 x).mp hs)) hlen
  have hn2 : h2.next = h.next + 1 := by rw [hins.next, hnext]
  have hpos := hp.space.next_pos
  rw [binheapInsert, if_pos hp.space.next_le] at hr
  simp only [hadd, hpush, hnext, Option.bind_eq_bind, Option.bind_some] at hr
  obtain ⟨⟨h3, u⟩, hup, hr⟩ := Option.bind_eq_some_iff.mp hr
  obtain rfl : h3 = h' := Option.some.inj hr
  obtain ⟨hsift, -, -⟩ := trickleup_sifted hs2 hf2 hpos (by omega) hup
  have hmoved := hsift.moved
  have hn3 : h3.next = h2.next := hmoved.same.next
  have hz3 : h3.cell 0 = none := by
    rw [hsift.zero, hcell2, hcell, hnext, Function.update_of_ne (by omega), hp.zero]
  refine ⟨⟨hs2.same hmoved.same, hmoved.filled, fun h1 => by omega, hz3⟩, by omega, fun z => ?_, fun z hz => ?_⟩
  · rw [hmoved.stored z, hins.stored z, hst1 z]
  · have hz2 : ¬ Stored h2 z := fun hs => hz ((hmoved.stored z).mpr hs)
    rw [hmoved.other z hz2, hins.other z hz2, hidx]

omit [DecidableEq E] in
theorem setA_eq {n : ℕ} {o : Option E} (hs : h.setA n o = some h') :
    h' = { h with cell := Function.update h.cell n o } := by
  rw [Heap.setA] at hs
  split_ifs at hs
  cases hs
  rfl

/-- Index 0 is not touched when the tail element takes the place of another one. -/
theorem replace_zero (hr : binheapReplace (binheapRetire h x) idx = some h') (hz : h.cell 0 = none) (h0 : 0 < idx)
    (h1 : 1 < h.next) : h'.cell 0 = none := by
  rw [binheapReplace] at hr
  obtain ⟨g1, hg1, hr⟩ := Option.bind_eq_some_iff.mp hr
  obtain ⟨g2, hg2, hr⟩ := Option.bind_eq_some_iff.mp hr
  have hc2 : g2.cell 0 = none := by
    rw [setA_eq hg2, setA_eq hg1]
    simp only [binheapRetire]
    rw [Function.update_of_ne (by omega), Function.update_of_ne (by omega), hz]
  rw [binheapUpdate] at hr
  split_ifs at hr
  obtain ⟨y, -, hr⟩ := Option.bind_eq_some_iff.mp hr
  cases hr
  exact hc2

/-- **`binheap_delete`**, if it ends. -/
theorem delete_placed (hp : Placed h) (hr : binheapDelete lt pg h idx junk = some h') :
    ∃ x, h.cell idx = some x ∧ 0 < idx ∧ idx < h.next ∧ h'.next + 1 = h.next ∧ Placed h' ∧ Removed h h' x := by
  have hs := hp.space
  have hle := hs.next_le
  have hlen := hs.room
  have hw := rowWidth_eq
  rw [binheapDelete] at hr
  by_cases hcond : h.next > rootIdx ∧ idx < h.next ∧ idx > 0
  · rw [if_pos hcond] at hr
    obtain ⟨-, hi, h0⟩ := hcond
    obtain ⟨x, hA, hr⟩ := Option.bind_eq_some_iff.mp hr
    have hx := hs.cell_of_A hi hA
    refine ⟨x, hx, h0, hi, ?_⟩
    simp only at hr
    by_cases htail : idx = h.next - 1
    · rw [show (binheapRetire h x).next = h.next - 1 from rfl, if_pos htail] at hr
      obtain ⟨h1, hres, hq, hrem⟩ := delete_tail (hp.queue pg) (by omega) (htail ▸ hx)
      have hset := setA_eq hres
      have hn : h1.next = h.next - 1 := by rw [hset]; rfl
      have hz : h1.cell 0 = none := by
        rw [hset]
        exact (Function.update_of_ne (by omega) _ _).trans hp.zero
      rw [hres] at hr
      cases hr
      exact ⟨by omega, ⟨hq.space, hq.filled, hq.empty, hz⟩, hrem⟩
    · rw [show (binheapRetire h x).next = h.next - 1 from rfl, if_neg htail] at hr
      obtain ⟨h1, hrep, hn1, hs1, hf1, -, hrem⟩ := replace_spec noLt_weak (hp.queue pg) h0 (by omega) hx
      have hz1 : h1.cell 0 = none := replace_zero hrep hp.zero h0 (by omega)
      rw [hrep, Option.bind_eq_bind, Option.bind_some] at hr
      obtain ⟨⟨h2, u⟩, hup, hr⟩ := Option.bind_eq_some_iff.mp hr
      obtain ⟨h3, hdn, hr⟩ := Option.bind_eq_some_iff.mp hr
      obtain rfl : binheapShrink h3 = h' := Option.some.inj hr
      obtain ⟨hsift, hu0, hun⟩ := trickleup_sifted hs1 hf1 h0 (by omega) hup
      have hn2 := hsift.moved.same.next
      have hsift3 := trickledown_sifted (hs1.same hsift.moved.same) hsift.moved.filled (hsift.zero.trans hz1) hu0
        (by omega) hdn
      have hall := hsift.trans hsift3
      have hmoved := hall.moved
      have hn3 := hmoved.same.next
      obtain ⟨hs4, hn4, hc4, hi4⟩ := shrink_spec (hs1.same hmoved.same) (by omega)
      have hst : ∀ z, Stored (binheapShrink h3) z ↔ Stored h1 z := fun z => by
        rw [← hmoved.stored z, Stored, Stored, hn4, hc4]
      refine ⟨by omega, ⟨hs4, ⟨?_, ?_⟩, fun h1 => by omega, ?_⟩, fun z => ?_, ?_, fun z hzx hz => ?_⟩
      · rw [hn4, hc4]
        exact hmoved.filled.full
      · rw [hn4, hc4, hi4]
        exact hmoved.filled.idx
      · rw [hc4, hall.zero, hz1]
      · rw [hst z, hrem.stored z]
      · have hx1 : ¬ Stored h1 x := fun hs => ((hrem.stored x).mp hs).1 rfl
        rw [hi4, hmoved.other x hx1, hrem.gone]
      · have hz1 : ¬ Stored h1 z := fun hs => hz ((hrem.stored z).mp hs).2
        rw [hi4, hmoved.other z hz1, hrem.other z hzx hz]
  · rw [if_neg hcond] at hr
    cases hr

end Ops

end Varnish.Binheap
