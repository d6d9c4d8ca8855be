import Varnish.Expire.Runs

/-!
# Varnish.Expire.Overflow — an expiry heap with too many objcores

Objcores are loaded in the order of their times, so that each one stays where it is put, up to the last row but one.
Two more are put on the heap, and one of them is nuked: `next + 2 * ROW_WIDTH` is then beyond 32 bits, and the row of
the other one is given back.

* `insert_append`: an element that is not less than its parent stays at the end.
* `heap_overflow`: the objcore that stays on its LRU list is not found where its `timer_idx` says.
-/

namespace Varnish.Expire

open Varnish.Binheap Varnish.Lib

/-! ## The heap -/

section Heaps

variable {E : Type} [DecidableEq E] {lt : E → E → Bool} {pg : Page} {h h' : Heap E} {p : E} {u r i : ℕ}

/-- The rows that are there. -/
structure Rows (h : Heap E) (r : ℕ) : Prop where
  le : r ≤ h.rows
  row : ∀ i, h.row i = true ↔ i < r

omit [DecidableEq E] in
theorem Rows.access (hr : Rows h r) (hi : i < rowWidth * r) : i >>> rowShift < h.rows ∧ h.row (i >>> rowShift) = true := by
  have hlt : i >>> rowShift < r := by
    rw [Nat.shiftRight_eq_div_pow, Nat.div_lt_iff_lt_mul (by decide), mul_comm]
    exact hi
  exact ⟨lt_of_lt_of_le hlt hr.le, (hr.row _).mpr hlt⟩

omit [DecidableEq E] in
theorem Rows.A (hr : Rows h r) (hi : i < rowWidth * r) : h.A i = h.cell i := by
  rw [Heap.A, if_pos (hr.access hi)]

omit [DecidableEq E] in
theorem Rows.setA (hr : Rows h r) (hi : i < rowWidth * r) (o : Option E) :
    h.setA i o = some { h with cell := Function.update h.cell i o } := by
  rw [Heap.setA, if_pos (hr.access hi)]

/-- The element is not less than its parent. -/
def Stays (lt : E → E → Bool) (pg : Page) (h : Heap E) (u : ℕ) (p : E) : Prop :=
  u = 1 ∨ ∃ y, h.cell (parent pg u) = some y ∧ lt p y = false

omit [DecidableEq E] in
/-- Only what is before the element matters. -/
theorem Stays.congr (hst : Stays lt pg h u p) (hu : 0 < u) (hcell : ∀ i < u, h'.cell i = h.cell i) :
    Stays lt pg h' u p := by
  rcases hst with h1 | ⟨y, hy, hlt⟩
  · exact .inl h1
  · by_cases h1 : u = 1
    · exact .inl h1
    · have hp := (up_parent pg (u + 1) u (by omega) (by omega)).2
      exact .inr ⟨y, by rw [hcell _ hp, hy], hlt⟩

/-- Such an element is not sifted up. -/
theorem trickleup_stays (hx : h.cell u = some p) (hA : ∀ i ≤ u, h.A i = h.cell i)
    (hst : Stays lt pg h u p) (fuel : ℕ) : binheapTrickleup lt pg (fuel + 1) h u = some (h, u) := by
  rw [binheapTrickleup]
  rcases hst with rfl | ⟨y, hy, hlt⟩
  · rw [if_neg (by simp [rootIdx])]
  · by_cases h1 : u > rootIdx
    · have hp := (up_parent pg (u + 1) u h1 (by omega)).2
      have hAu : h.A u = some p := by rw [hA u (le_refl u), hx]
      have hAp : h.A (parent pg u) = some y := by rw [hA _ hp.le, hy]
      rw [if_pos h1]
      simp only [hAu, hAp, Option.bind_eq_bind, Option.bind_some]
      rw [if_neg (by simp [hlt])]
    · rw [if_neg h1]

/-- **`binheap_insert`** of an element that stays at the end, while the counters can take it. -/
theorem insert_append (hs : Space h) (hf : Filled h) (hp : ¬ Stored h p) (hroom : h.next < 2 ^ 32 - 2 * rowWidth)
    (hst : Stays lt pg h h.next p) :
    ∃ h', binheapInsert lt pg h p = some h' ∧ Space h' ∧ Filled h' ∧ h'.next = h.next + 1 ∧
      h'.cell = Function.update h.cell h.next (some p) := by
  obtain ⟨h1, hadd, hcell, hidx, hnext, hs1, hlen⟩ := room_spec hs hroom
  have hf1 : Filled h1 := by
    refine ⟨?_, ?_⟩
    · rw [hcell, hnext]
      exact hf.full
    · rw [hcell, hnext, hidx]
      exact hf.idx
  have hp1 : ¬ Stored h1 p := by
    rw [Stored, hcell, hnext]
    exact hp
  obtain ⟨h2, hpush, hcell2, hs2, hf2, hins⟩ := push_spec hs1 hf1 hp1 hlen
  rw [hcell, hnext] at hcell2
  have hn2 : h2.next = h.next + 1 := by rw [hins.next, hnext]
  have hpos := hs.next_pos
  have hx : h2.cell h.next = some p := by rw [hcell2, Function.update_self]
  have hst2 : Stays lt pg h2 h.next p := hst.congr hpos fun i hi => by rw [hcell2, Function.update_of_ne (by omega)]
  have hup := trickleup_stays hx (fun i hi => hs2.A (lt_of_lt_of_le (by omega) hs2.next_le)) hst2 h.next
  refine ⟨h2, ?_, hs2, hf2, hn2, hcell2⟩
  rw [binheapInsert, if_pos hs.next_le]
  simp only [hadd, hpush, hnext, hup, Option.bind_eq_bind, Option.bind_some]

/-- A new element at the end. -/
def pushed (h : Heap E) (p : E) : Heap E :=
  { h with next := h.next + 1, cell := Function.update h.cell h.next (some p), idx := Function.update h.idx p h.next }

/-- `binheap_insert` of an element that stays at the end, wherever that is. -/
theorem insert_pushed {h1 : Heap E} (hle : h.next ≤ h.length) (hroom : binheapRoom h = some h1) (hn : h1.next = h.next)
    (hr : Rows h1 r) (hlt : h.next < rowWidth * r) (hwrap : h.next + 1 < 2 ^ 32) (hpos : 0 < h.next)
    (hst : Stays lt pg h1 h.next p) : binheapInsert lt pg h p = some (pushed h1 p) := by
  have hw : wrap (h1.next + 1) = h1.next + 1 := by rw [wrap, Nat.mod_eq_of_lt (by omega)]
  have hrp : Rows (pushed h1 p) r := ⟨hr.le, hr.row⟩
  have hcell : (pushed h1 p).cell h.next = some p := by rw [← hn]; exact Function.update_self _ _ _
  have hpush : binheapPush h1 p = some (pushed h1 p) := by
    have hr1 : Rows { h1 with next := h1.next + 1 } r := ⟨hr.le, hr.row⟩
    have hr2 : Rows { h1 with next := h1.next + 1, cell := Function.update h1.cell h1.next (some p) } r := ⟨hr.le, hr.row⟩
    rw [binheapPush, hw]
    simp only [hr1.setA (show h1.next < rowWidth * r by omega), Option.bind_eq_bind, Option.bind_some]
    rw [binheapUpdate, if_pos (Nat.lt_succ_self _), hr2.A (show h1.next < rowWidth * r by omega)]
    simp [pushed]
  have hst' : Stays lt pg (pushed h1 p) h.next p := hst.congr hpos fun i hi => Function.update_of_ne (by omega) _ _
  have hup := trickleup_stays hcell (fun i hi => hrp.A (by omega)) hst' h.next
  rw [binheapInsert, if_pos hle, hroom]
  simp only [Option.bind_eq_bind, Option.bind_some, hpush, hn, hup]

/-- The last element `p` at the place before it. -/
def pulled (h : Heap E) (u : ℕ) (x p : E) : Heap E :=
  { h with next := u + 1, cell := Function.update (Function.update h.cell u (some p)) (u + 1) none,
           idx := Function.update (Function.update h.idx x 0) p u }

/-- `binheap_delete` of the last element but one, if the last one stays at its place. -/
theorem delete_pulled {x : E} (junk : ℕ) (hr : Rows h r) (hn : h.next = u + 2) (hlt : u + 1 < rowWidth * r) (hu : 0 < u)
    (hx : h.cell u = some x) (hp : h.cell (u + 1) = some p) (hst : Stays lt pg h u p)
    (hc : u + 1 ≤ (child pg u junk).1) : binheapDelete lt pg h u junk = some (binheapShrink (pulled h u x p)) := by
  have hA : h.A u = some x := by rw [hr.A (by omega), hx]
  have hretire : (binheapRetire h x).next = u + 1 := by rw [binheapRetire, hn]; rfl
  have hrep : binheapReplace (binheapRetire h x) u = some (pulled h u x p) := by
    let h0 := binheapRetire h x
    let h1 : Heap E := { h0 with cell := Function.update h.cell u (some p) }
    let h2 : Heap E := { h0 with cell := Function.update (Function.update h.cell u (some p)) (u + 1) none }
    have hr0 : Rows h0 r := ⟨hr.le, hr.row⟩
    have hr1 : Rows h1 r := ⟨hr.le, hr.row⟩
    have hr2 : Rows h2 r := ⟨hr.le, hr.row⟩
    have e0 : h0.A (u + 1) = some p := by rw [hr0.A hlt]; exact hp
    have e1 : h0.setA u (some p) = some h1 := hr0.setA (by omega) _
    have e2 : h1.setA (u + 1) none = some h2 := hr1.setA hlt _
    have e3 : binheapUpdate h2 u = some (pulled h u x p) := by
      rw [binheapUpdate, if_pos (show u < h0.next by rw [hretire]; omega), hr2.A (by omega),
        show h2.cell u = some p by simp [h2]]
      simp [pulled, h2, h0, binheapRetire, hn]
    rw [binheapReplace, hretire, e0, e1]
    simp only [Option.bind_eq_bind, Option.bind_some]
    rw [show h1.next = u + 1 from hretire, e2]
    exact e3
  have hrp : Rows (pulled h u x p) r := ⟨hr.le, hr.row⟩
  have hcell : (pulled h u x p).cell u = some p := by simp [pulled]
  have hst' : Stays lt pg (pulled h u x p) u p := hst.congr hu fun i hi =>
    (Function.update_of_ne (by omega) _ _).trans (Function.update_of_ne (by omega) _ _)
  have hup := trickleup_stays hcell (fun i hi => hrp.A (by omega)) hst' u
  have hdown : binheapTrickledown lt pg ((pulled h u x p).next + 1) (pulled h u x p) u junk = some (pulled h u x p) := by
    rw [binheapTrickledown]
    simp only
    rw [if_pos (show (child pg u junk).1 ≥ (pulled h u x p).next from hc)]
  rw [binheapDelete, if_pos ⟨by simp only [rootIdx]; omega, by omega, hu⟩, hA]
  simp only [Option.bind_eq_bind, Option.bind_some, hretire]
  rw [if_neg (by omega), hrep]
  simp only [Option.bind_some, hup, hdown]

end Heaps

/-! ## The run -/

section Load

variable {s s₀ : Exp ℕ} {pg : Page} {oc n ttl : ℕ} {L : List ℕ} {rest : List Lru}

/-- The objcore of a silo that is on the list of its segment. -/
def loaded (ttl : ℕ) : Core ℕ := ⟨1, false, true, true, true, ttl⟩

/-- The objcore while it is put on the heap. -/
def loading (s : Exp ℕ) (oc ttl : ℕ) : ℕ → Option (Core ℕ) :=
  Function.update s.core oc (some ⟨1, false, false, true, true, ttl⟩)

/-- The heap after a new objcore was made. -/
def cleared (s : Exp ℕ) (oc : ℕ) : Heap ℕ := { s.heap with idx := Function.update s.heap.idx oc 0 }

/-- An objcore is loaded and injected. -/
theorem load_inject {h : Heap ℕ} (hlru : s.lru = ⟨true, L⟩ :: rest)
    (hins : binheapInsert (objectCmp (loading s oc ttl)) pg (cleared s oc) oc = some h) (hidx : h.idx oc ≠ 0) :
    expInject pg (loadCore s oc ttl) oc 0 ttl = some { s with
      core := Function.update s.core oc (some (loaded ttl)), heap := h, lru := ⟨true, L ++ [oc]⟩ :: rest,
      others := Function.update s.others oc 0 } := by
  have hcore : (loadCore s oc ttl).core oc = some ⟨1, false, false, true, true, ttl⟩ := Function.update_self _ _ _
  have hset : ((loadCore s oc ttl).setCore oc (some ⟨1, false, false, true, true, ttl⟩)).core = loading s oc ttl :=
    Function.update_idem _ _ _
  rw [expInject, hcore]
  simp only [Option.bind_eq_bind, Option.bind_some]
  rw [if_pos (show (loadCore s oc ttl).heap.idx oc = 0 from Function.update_self _ _ _), heapInsert, hset]
  rw [show ((loadCore s oc ttl).setCore oc (some ⟨1, false, false, true, true, ttl⟩)).heap = cleared s oc from rfl, hins]
  simp only [Option.bind_eq_bind, Option.bind_some]
  rw [if_pos hidx]
  simp [lruInsert, vlistInsert, Exp.setCore, Exp.setOthers, loadCore, hlru, loaded, loading]

/-- The first `n` objcores are on the heap in the order of their times, and on the list of a segment. -/
structure Tall (n : ℕ) (s : Exp ℕ) : Prop where
  next : s.heap.next = n + 1
  space : Space s.heap
  filled : Filled s.heap
  cell : ∀ i, 0 < i → i ≤ n → s.heap.cell i = some i
  core : ∀ i, 0 < i → i ≤ n → s.core i = some (loaded i)
  fresh : ∀ i, n < i → s.core i = none
  lru : ∃ L, s.lru = [⟨true, L⟩, ⟨false, []⟩]

/-- A later time is not less than that of the parent. -/
theorem stays_of_core {core : ℕ → Option (Core ℕ)} {h : Heap ℕ} {u p : ℕ} (hu : 0 < u)
    (hcell : u ≠ 1 → h.cell (parent pg u) = some (parent pg u))
    (hpar : u ≠ 1 → ∃ c, core (parent pg u) = some c ∧ c.timerWhen = parent pg u)
    (hp : ∃ c, core p = some c ∧ u ≤ c.timerWhen) : Stays (objectCmp core) pg h u p := by
  by_cases h1 : u = 1
  · exact .inl h1
  · obtain ⟨c, hc, hct⟩ := hpar h1
    obtain ⟨d, hd, hdt⟩ := hp
    have hlt := (up_parent pg (u + 1) u (by omega) (by omega)).2
    refine .inr ⟨_, hcell h1, ?_⟩
    simp only [objectCmp, hc, hd, hct]
    simp
    omega

/-- A new objcore is told that it is nowhere, which changes nothing for the others. -/
theorem cleared_filled (hf : Filled s.heap) (hp : ¬ Stored s.heap oc) : Filled (cleared s oc) := by
  refine ⟨hf.full, fun i x h0 hi hx => ?_⟩
  have hne : x ≠ oc := fun he => hp ⟨i, h0, hi, he ▸ hx⟩
  simp only [cleared, Function.update_of_ne hne]
  exact hf.idx i x h0 hi hx

theorem Tall.notStored (h : Tall n s) (hoc : n < oc) : ¬ Stored s.heap oc := by
  rintro ⟨i, h0, hi, hx⟩
  rw [h.next] at hi
  rw [h.cell i h0 (by omega)] at hx
  cases hx
  omega

/-- The next one is loaded. -/
theorem Tall.load (h : Tall n s) (hroom : n + 1 < 2 ^ 32 - 2 * rowWidth) : ∃ s', Tall (n + 1) s' ∧
    Reach (expStep page4k) (fun s a => a.Ok s) s s' := by
  have hnext : (cleared s (n + 1)).next = n + 1 := h.next
  have hns := h.notStored (Nat.lt_succ_self n)
  have hpar : n + 1 ≠ 1 → 0 < parent page4k (n + 1) ∧ parent page4k (n + 1) ≤ n := fun h1 => by
    have := up_parent page4k (n + 2) (n + 1) (by omega) (by omega)
    omega
  have hst : Stays (objectCmp (loading s (n + 1) (n + 1))) page4k (cleared s (n + 1)) (cleared s (n + 1)).next (n + 1) := by
    rw [hnext]
    refine stays_of_core (by omega) (fun h1 => h.cell _ (hpar h1).1 (hpar h1).2) (fun h1 => ⟨loaded _, ?_, rfl⟩)
      ⟨_, Function.update_self _ _ _, le_refl _⟩
    rw [loading, Function.update_of_ne (by have := hpar h1; omega)]
    exact h.core _ (hpar h1).1 (hpar h1).2
  obtain ⟨h', hins, hs', hf', hn', hc'⟩ := insert_append (h := cleared s (n + 1)) (h.space.same ⟨rfl, rfl, rfl, rfl⟩)
    (cleared_filled h.filled hns) hns (by omega) hst
  rw [hnext] at hn' hc'
  have hself : h'.cell (n + 1) = some (n + 1) := by rw [hc', Function.update_self]
  have hidx : h'.idx (n + 1) ≠ 0 := by
    rw [hf'.idx (n + 1) (n + 1) (by omega) (by omega) hself]
    omega
  obtain ⟨L, hlru⟩ := h.lru
  have hinj := load_inject hlru hins hidx
  refine ⟨_, ⟨hn', hs', hf', fun i h0 hi => ?_, fun i h0 hi => ?_, fun i hi => ?_, ⟨_, rfl⟩⟩,
    (Reach.refl.tail (.loadCore (n + 1) (n + 1)) (h.fresh _ (Nat.lt_succ_self n)) rfl).tail (.inject (n + 1) 0 (n + 1))
      ⟨?_, ?_⟩ hinj⟩
  · by_cases hin : i = n + 1
    · rw [hin, hself]
    · rw [hc', Function.update_of_ne hin]
      exact h.cell i h0 (by omega)
  · by_cases hin : i = n + 1
    · rw [hin]
      exact Function.update_self _ _ _
    · exact (Function.update_of_ne hin _ _).trans (h.core i h0 (by omega))
  · exact (Function.update_of_ne (by omega) _ _).trans (h.fresh i (by omega))
  · simp [loadCore, Exp.setOthers]
  · simp [Exp.segLru, loadCore, Exp.setOthers, Exp.setCore, hlru]

/-- Any number of objcores that the counters can take. -/
theorem reach_tall (hs₀ : Tall 0 s₀) (hn : n < 2 ^ 32 - 2 * rowWidth) : ∃ s, Tall n s ∧
    Reach (expStep page4k) (fun s a => a.Ok s) s₀ s := by
  induction n with
  | zero => exact ⟨s₀, hs₀, Reach.refl⟩
  | succ n ih =>
    obtain ⟨s, hs, hreach⟩ := ih (by omega)
    obtain ⟨s', hs', hstep⟩ := hs.load hn
    exact ⟨s', hs', hreach.trans hstep⟩

end Load

/-! ## Two more -/

section Last

variable {s s₀ : Exp ℕ} {pg : Page} {oc ttl : ℕ} {L : List ℕ}

/-- The first index beyond the last row but one. -/
def top : ℕ := 2 ^ 32 - 2 * rowWidth

theorem top_eq : top = rowWidth * 65534 := by decide

/-- The objcore of a fetch while it is put on the heap. -/
def fetching (s : Exp ℕ) (oc ttl : ℕ) : ℕ → Option (Core ℕ) :=
  Function.update s.core oc (some ⟨2, true, false, false, false, ttl⟩)

/-- An object was fetched, is in the cache, and nobody uses it any more. -/
def fetched (s : Exp ℕ) (oc ttl : ℕ) (h : Heap ℕ) (L : List ℕ) : Exp ℕ :=
  { s with core := Function.update s.core oc (some ⟨1, false, true, false, false, ttl⟩), heap := h,
           lru := [⟨true, L⟩, ⟨false, [oc]⟩], others := Function.update s.others oc 0 }

theorem reach_fetched {h : Heap ℕ} (ttl : ℕ) (hnone : s.core oc = none) (hlru : s.lru = [⟨true, L⟩, ⟨false, []⟩])
    (hins : binheapInsert (objectCmp (fetching s oc ttl)) pg (cleared s oc) oc = some h) (hidx : h.idx oc ≠ 0) :
    Reach (expStep pg) (fun s a => a.Ok s) s (fetched s oc ttl h L) := by
  let s2 : Exp ℕ := { s with core := Function.update s.core oc (some ⟨2, true, true, false, false, ttl⟩), heap := h,
                             lru := [⟨true, L⟩, ⟨false, [oc]⟩], others := Function.update s.others oc 1 }
  let s3 : Exp ℕ := { s2 with core := Function.update s.core oc (some ⟨2, false, true, false, false, ttl⟩) }
  have e2 : expInsert pg (newCore s oc ttl) ⟨some oc, true, true, some ttl, some 1⟩ = some s2 := by
    have hcore : (newCore s oc ttl).core oc = some ⟨1, true, false, false, false, ttl⟩ := Function.update_self _ _ _
    have hset : ((newCore s oc ttl).setCore oc (some ⟨2, true, false, false, false, ttl⟩)).core = fetching s oc ttl :=
      Function.update_idem _ _ _
    rw [expInsert]
    simp only [Option.bind_eq_bind, Option.bind_some, hcore]
    rw [if_pos ⟨trivial, trivial, trivial, by norm_num, Function.update_self _ _ _⟩, heapInsert, hset]
    rw [show ((newCore s oc ttl).setCore oc (some ⟨2, true, false, false, false, ttl⟩)).heap = cleared s oc from rfl, hins]
    simp only [Option.bind_eq_bind, Option.bind_some]
    rw [if_pos hidx]
    simp [lruInsert, vlistInsert, Exp.setCore, Exp.setOthers, newCore, hlru, fetching, s2]
  have e3 : hshUnbusy s2 oc = some s3 := by simp [hshUnbusy, s2, s3, Exp.setCore]
  have e4 : sessDeref s3 oc = some (fetched s oc ttl h L) := by
    simp [sessDeref, hshDeref, s3, s2, fetched, Exp.setCore, Exp.setOthers]
  have r2 : Reach (expStep pg) (fun s a => a.Ok s) s s2 :=
    (Reach.refl.tail (.newCore oc ttl) hnone rfl).tail (.insert ⟨some oc, true, true, some ttl, some 1⟩)
      (by simp [Act.Ok, newCore, Exp.setOthers, Exp.setCore, Exp.stvLru, hlru]) e2
  have r3 : Reach (expStep pg) (fun s a => a.Ok s) s s3 := r2.tail (.unbusy oc) (show Act.Ok s2 (.unbusy oc) from trivial) e3
  exact r3.tail (.deref oc) (by simp [Act.Ok, s3, s2]) e4

/-- The row that is added last. -/
def grown (h : Heap ℕ) : Heap ℕ :=
  { h with row := Function.update h.row 65534 true, rows := if h.rows ≤ 65534 then h.rows * 2 else h.rows,
           length := rowWidth * 65535 }

/-- A heap without room for one more element. -/
theorem Tall.full {n : ℕ} (h : Tall n s) (hn : n + 1 = top) : s.heap.length = top ∧ Rows s.heap 65534 := by
  have hle := h.space.next_le
  have hroom := h.space.room
  have hnext := h.next
  have hlen : s.heap.length = top := by
    rw [top] at hn ⊢
    omega
  obtain ⟨r, hr, hrows, hrow⟩ := h.space.rows
  obtain rfl : r = 65534 := by
    rw [hlen, top_eq] at hr
    exact (Nat.eq_of_mul_eq_mul_left (by decide) hr).symm
  exact ⟨hlen, hrows, hrow⟩

theorem room_grown {h : Heap ℕ} (hlen : h.length = top) (hn : h.next = top) (hr : Rows h 65534) :
    binheapRoom h = some (grown h) ∧ Rows (grown h) 65535 := by
  have hshift : top >>> rowShift = 65534 := by decide
  have hfree : h.row 65534 = false := by
    have := (hr.row 65534).not.mpr (lt_irrefl _)
    simpa using this
  have hwrap : wrap (top + rowWidth) = rowWidth * 65535 := by decide
  refine ⟨?_, ?_, fun i => ?_⟩
  · rw [binheapRoom, if_pos (hlen.trans hn.symm), binheapAddrow]
    simp only [hlen, hshift, ge_iff_le]
    by_cases hc : h.rows ≤ 65534
    · simp only [if_pos hc, hshift, hfree, hwrap, grown, Bool.false_eq_true, if_false]
    · simp only [if_neg hc, hlen, hshift, hfree, hwrap, grown, Bool.false_eq_true, if_false]
  · have := hr.le
    simp only [grown]
    split_ifs <;> omega
  · simp only [grown]
    by_cases hi : i = 65534
    · subst hi
      simp
    · rw [Function.update_of_ne hi, hr.row]
      omega

/-- The objcore `top` is nuked, and `top + 1` stays on the list `L` but not in a row that is there. -/
theorem nuke_overflow {g : Heap ℕ} (hlru : s.lru = [⟨true, L⟩, ⟨false, [top]⟩]) (hL : top + 1 ∈ L)
    (hcore : s.core top = some ⟨1, false, true, false, false, ttl⟩) (hidx : s.heap.idx top = top)
    (hrow : g.row 65534 = false) (hgone : g.idx top = 0) (hlast : g.idx (top + 1) = top)
    (hdel : binheapDelete (objectCmp s.core) pg s.heap top 0 = some g) :
    ∃ s', expNukeOne pg s 1 0 = some s' ∧ ¬ ExpOk s' := by
  have htop : top ≠ 0 := by decide
  have hscan : nukeScan s [top] = some (some top) := by simp [nukeScan, hcore, hidx, htop]
  have hcmp : objectCmp (unlist s top ⟨1, false, true, false, false, ttl⟩).core = objectCmp s.core :=
    objectCmp_update hcore rfl
  have hheap : heapDelete pg (unlist s top ⟨1, false, true, false, false, ttl⟩) top 0 =
      some { unlist s top ⟨1, false, true, false, false, ttl⟩ with
        heap := g, missed := (unlist s top ⟨1, false, true, false, false, ttl⟩).missed ||
          decide (s.heap.A (s.heap.idx top) ≠ some top) } := by
    rw [heapDelete, hcmp, show (unlist s top ⟨1, false, true, false, false, ttl⟩).heap = s.heap from rfl, hidx, hdel]
    simp only [Option.bind_eq_bind, Option.bind_some]
    rw [if_pos hgone]
  have hnuke : expNukeOne pg s 1 0 = some { unlist s top ⟨1, false, true, false, false, ttl⟩ with
      heap := g, hands := (.nuke, top) :: s.hands,
      missed := (unlist s top ⟨1, false, true, false, false, ttl⟩).missed ||
        decide (s.heap.A (s.heap.idx top) ≠ some top) } := by
    rw [expNukeOne, hlru]
    simp only [List.getElem?_cons_succ, List.getElem?_cons_zero, Option.bind_eq_bind, Option.bind_some, hscan, hcore]
    rw [show (vlistRemove s top).setCore top (some ⟨1, false, false, false, false, ttl⟩) =
      unlist s top ⟨1, false, true, false, false, ttl⟩ from rfl, hheap]
    rfl
  refine ⟨_, hnuke, fun hok => ?_⟩
  have hmem : (⟨true, L.erase top⟩ : Lru) ∈ (unlist s top ⟨1, false, true, false, false, ttl⟩).lru := by
    simp [unlist, vlistRemove, Exp.setCore, hlru]
  have hin : top + 1 ∈ L.erase top := (List.mem_erase_of_ne (Nat.succ_ne_self _)).mpr hL
  obtain ⟨-, -, hA⟩ := hok.lru _ hmem (top + 1) hin
  simp only [hlast] at hA
  rw [Heap.A, show top >>> rowShift = 65534 from by decide, hrow] at hA
  simp at hA

/-- The objcore `top`, of an object, and `k` more are on the heap. -/
structure Above (k : ℕ) (s : Exp ℕ) : Prop where
  rows : Rows s.heap 65535
  length : s.heap.length = rowWidth * 65535
  next : s.heap.next = top + k + 1
  cell : ∀ i, 0 < i → i ≤ top + k → s.heap.cell i = some i
  idx : s.heap.idx top = top
  core : ∀ i, 0 < i → i ≤ top + k → i ≠ top → s.core i = some (loaded i)
  coreTop : s.core top = some ⟨1, false, true, false, false, top⟩
  fresh : ∀ i, top + k < i → s.core i = none
  lru : ∃ L, s.lru = [⟨true, L⟩, ⟨false, [top]⟩] ∧ (0 < k → top + 1 ∈ L)

theorem parent_top : (0 < parent page4k top ∧ parent page4k top < top) ∧
    0 < parent page4k (top + 1) ∧ parent page4k (top + 1) < top := by decide

/-- The object is put where no row was before. -/
theorem Tall.fetch {n : ℕ} (h : Tall n s) (hn : n + 1 = top) :
    ∃ s', Above 0 s' ∧ Reach (expStep page4k) (fun s a => a.Ok s) s s' := by
  have hw := rowWidth_eq
  have htop : top = 4294836224 := by decide
  obtain ⟨⟨hp0, hpt⟩, -⟩ := parent_top
  obtain ⟨hlen, hrows⟩ := h.full hn
  obtain ⟨L, hlru⟩ := h.lru
  have hnext : (cleared s top).next = top := h.next.trans hn
  obtain ⟨hgrow, hrows1⟩ := room_grown (h := cleared s top) hlen hnext ⟨hrows.le, hrows.row⟩
  have hgn : (grown (cleared s top)).next = top := hnext
  have hstays : Stays (objectCmp (fetching s top top)) page4k (grown (cleared s top)) top top := by
    refine stays_of_core (by omega) (fun _ => h.cell _ hp0 (by omega)) (fun _ => ⟨loaded _, ?_, rfl⟩)
      ⟨_, Function.update_self _ _ _, le_refl _⟩
    rw [fetching, Function.update_of_ne (by omega)]
    exact h.core _ hp0 (by omega)
  have hins : binheapInsert (objectCmp (fetching s top top)) page4k (cleared s top) top =
      some (pushed (grown (cleared s top)) top) :=
    insert_pushed (by rw [hnext]; exact hlen.ge) hgrow rfl hrows1 (by omega) (by omega) (by omega) (by rw [hnext]; exact hstays)
  have hcell : (pushed (grown (cleared s top)) top).cell = Function.update s.heap.cell top (some top) := by
    simp only [pushed, hgn]
    rfl
  have hidx : (pushed (grown (cleared s top)) top).idx top = top := by simp only [pushed, hgn, Function.update_self]
  refine ⟨_, ⟨⟨hrows1.le, hrows1.row⟩, rfl, ?_, fun i h0 hi => ?_, hidx, fun i h0 hi hne => ?_, by simp [fetched],
    fun i hi => ?_, ⟨L, rfl, fun h0 => (by omega)⟩⟩, reach_fetched top (h.fresh top (by omega)) hlru hins (by omega)⟩
  · simp only [fetched, pushed, hgn]
  · simp only [fetched, hcell]
    by_cases hit : i = top
    · rw [hit, Function.update_self]
    · rw [Function.update_of_ne hit]
      exact h.cell i h0 (by omega)
  · simp only [fetched]
    rw [Function.update_of_ne hne]
    exact h.core i h0 (by omega)
  · simp only [fetched]
    rw [Function.update_of_ne (by omega)]
    exact h.fresh i (by omega)

/-- An objcore of a silo is put behind it. -/
theorem Above.load (h : Above 0 s) : ∃ s', Above 1 s' ∧ Reach (expStep page4k) (fun s a => a.Ok s) s s' := by
  have hw := rowWidth_eq
  have htop : top = 4294836224 := by decide
  obtain ⟨-, hp0, hpt⟩ := parent_top
  obtain ⟨L, hlru, -⟩ := h.lru
  have hnext : (cleared s (top + 1)).next = top + 1 := h.next
  have hlen : (cleared s (top + 1)).length = rowWidth * 65535 := h.length
  have hstays : Stays (objectCmp (loading s (top + 1) (top + 1))) page4k (cleared s (top + 1)) (top + 1) (top + 1) := by
    refine stays_of_core (by omega) (fun _ => h.cell _ hp0 (by omega)) (fun _ => ⟨loaded _, ?_, rfl⟩)
      ⟨_, Function.update_self _ _ _, le_refl _⟩
    rw [loading, Function.update_of_ne (by omega)]
    exact h.core _ hp0 (by omega) (by omega)
  have hins : binheapInsert (objectCmp (loading s (top + 1) (top + 1))) page4k (cleared s (top + 1)) (top + 1) =
      some (pushed (cleared s (top + 1)) (top + 1)) := by
    refine insert_pushed (r := 65535) (by omega) ?_ rfl ⟨h.rows.le, h.rows.row⟩ (by omega) (by omega) (by omega)
      (by rw [hnext]; exact hstays)
    rw [binheapRoom, if_neg (by omega)]
  have hcell : (pushed (cleared s (top + 1)) (top + 1)).cell = Function.update s.heap.cell (top + 1) (some (top + 1)) := by
    simp only [pushed, hnext]
    rfl
  have hidx : (pushed (cleared s (top + 1)) (top + 1)).idx (top + 1) = top + 1 := by
    simp only [pushed, hnext, Function.update_self]
  have hinj := load_inject hlru hins (by omega)
  refine ⟨{ s with
      core := Function.update s.core (top + 1) (some (loaded (top + 1))), heap := pushed (cleared s (top + 1)) (top + 1),
      lru := [⟨true, L ++ [top + 1]⟩, ⟨false, [top]⟩], others := Function.update s.others (top + 1) 0 },
    ⟨⟨h.rows.le, h.rows.row⟩, hlen, ?_, fun i h0 hi => ?_, ?_, fun i h0 hi hne => ?_, ?_, fun i hi => ?_,
      ⟨_, rfl, fun _ => (by simp)⟩⟩, (Reach.refl.tail (.loadCore (top + 1) (top + 1)) (h.fresh _ (by omega)) rfl).tail
      (.inject (top + 1) 0 (top + 1)) ⟨?_, ?_⟩ hinj⟩
  · simp only [pushed, hnext]
  · simp only [hcell]
    by_cases hit : i = top + 1
    · rw [hit, Function.update_self]
    · rw [Function.update_of_ne hit]
      exact h.cell i h0 (by omega)
  · simp only [pushed, cleared]
    rw [Function.update_of_ne (by omega), Function.update_of_ne (by omega), h.idx]
  · simp only
    by_cases hit : i = top + 1
    · rw [hit, Function.update_self]
    · rw [Function.update_of_ne hit]
      exact h.core i h0 (by omega) hne
  · simp only
    rw [Function.update_of_ne (by omega), h.coreTop]
  · simp only
    rw [Function.update_of_ne (by omega)]
    exact h.fresh i (by omega)
  · simp [loadCore, Exp.setOthers]
  · simp [Exp.segLru, loadCore, Exp.setOthers, Exp.setCore, hlru]

/-- `next + 2 * ROW_WIDTH` does not fit: the last row goes, with an element in it. -/
theorem shrink_overflow {h : Heap ℕ} (hn : h.next = top + 1) (hl : h.length = rowWidth * 65535) :
    (binheapShrink h).row 65534 = false ∧ (binheapShrink h).idx = h.idx := by
  have hw1 : wrap (top + 1 + 2 * rowWidth) ≤ rowWidth * 65535 := by decide
  have hw2 : (rowWidth * 65535 - 1) >>> rowShift = 65534 := by decide
  rw [binheapShrink, hn, hl, if_pos hw1, hw2]
  exact ⟨by simp, rfl⟩

/-- **The heap overflows**: a run after which an objcore is on an LRU list, and its `timer_idx` is an index of a row that
was given back. -/
theorem heap_overflow : ∃ s₀ s : Exp ℕ, expInit (fun _ => none) = some s₀ ∧
    Reach (expStep page4k) (fun s a => a.Ok s) s₀ s ∧ ¬ ExpOk s := by
  have hw := rowWidth_eq
  have htop : top = 4294836224 := by decide
  obtain ⟨⟨hp0, hpt⟩, -⟩ := parent_top
  -- the start, with a list of each kind
  let s₀ : Exp ℕ := ⟨fun _ => none, newHeap (fun _ => none) fun _ => 0, [], [], fun _ => 0, false⟩
  let s₁ : Exp ℕ := { s₀ with lru := [⟨true, []⟩, ⟨false, []⟩] }
  have hinit : expInit (fun _ => none) = some s₀ := by
    have hsys := sysNew_eq (fun _ => none) fun _ : ℕ => 0
    rw [sysNew, Option.map_eq_some_iff] at hsys
    obtain ⟨h, hnew, hsys⟩ := hsys
    rw [Sys.mk.injEq] at hsys
    rw [expInit, hnew, hsys.1]
    rfl
  have r₁ : Reach (expStep page4k) (fun s a => a.Ok s) s₀ s₁ :=
    (Reach.refl.tail (.lruAlloc true) trivial rfl).tail (.lruAlloc false) trivial rfl
  have hq : QInv noLt page4k s₁.heap := (sysInv_new (fun _ => none) fun _ => 0).queue
  have ht₁ : Tall 0 s₁ := ⟨rfl, hq.space, hq.filled, fun i h0 hi => (by omega), fun i h0 hi => (by omega), fun i _ => rfl,
    ⟨[], rfl⟩⟩
  obtain ⟨s₂, ht, r₂⟩ := reach_tall (n := top - 1) ht₁ (by rw [← top]; omega)
  obtain ⟨s₃, ha₃, r₃⟩ := ht.fetch (by omega)
  obtain ⟨s₄, ha, r₄⟩ := ha₃.load
  obtain ⟨L, hlru, hL⟩ := ha.lru
  -- one of the last two goes, and the other one takes its place
  have hstays : Stays (objectCmp s₄.core) page4k s₄.heap top (top + 1) :=
    stays_of_core (by omega) (fun _ => ha.cell _ hp0 (by omega))
      (fun _ => ⟨loaded _, ha.core _ hp0 (by omega) (by omega), rfl⟩)
      ⟨loaded (top + 1), ha.core _ (by omega) (by omega) (by omega), by simp [loaded]⟩
  have hchild : (child page4k top 0).1 = top + 2 := by decide
  have hdel := delete_pulled 0 ha.rows ha.next (by omega) (by omega) (ha.cell top (by omega) (by omega))
    (ha.cell (top + 1) (by omega) (by omega)) hstays (by omega)
  obtain ⟨hrow, hidx⟩ := shrink_overflow (h := pulled s₄.heap top top (top + 1)) rfl ha.length
  have hgone : (pulled s₄.heap top top (top + 1)).idx top = 0 := by
    simp only [pulled]
    rw [Function.update_of_ne (by omega), Function.update_self]
  have hlast : (pulled s₄.heap top top (top + 1)).idx (top + 1) = top := by simp [pulled]
  obtain ⟨s₅, hnuke, hbad⟩ := nuke_overflow hlru (hL (by omega)) ha.coreTop ha.idx hrow (by rw [hidx, hgone])
    (by rw [hidx, hlast]) hdel
  refine ⟨s₀, s₅, hinit, (((r₁.trans r₂).trans r₃).trans r₄).tail (.nukeOne 1 0) ?_ hnuke, hbad⟩
  simp [Act.Ok, Exp.stvLru, hlru]

end Last

end Varnish.Expire
