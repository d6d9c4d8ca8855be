import Varnish.Binheap.Runs
import Varnish.Expire.Agree

/-!
# Varnish.Expire.Runs — heap, LRU lists and references agree, over whole runs

* `ExpOk`: `OC_F_ONLRU`, `timer_idx`, lists, heap and reference counts agree, and every reference that was taken off the
  heap is released once.
* `expInv_step`: one step keeps the invariant.
* `reach_expOk`: every state of every run is `ExpOk`, while the counters of the heap can take what is put on it.
-/

namespace Varnish.Expire

open Varnish.Binheap Varnish.Lib

variable {T : Type} [LinearOrder T] {pg : Page} {s s' : Exp T} {oc : ℕ}

/-! ## Runs -/

section Runs

variable {s₀ : Exp T}

/-- **One step** keeps the invariant. -/
theorem expInv_step {a : Act T} (h : ExpInv s) (hok : a.Ok s) (hfits : a.Fits s) (hs : expStep pg s a = some s') :
    ExpInv s' := by
  cases a with
  | lruAlloc seg =>
    cases hs
    have hlisted : listed (s.lru ++ [⟨seg, []⟩]) = listed s.lru := by simp [listed]
    refine ⟨h.heap, ?_, ?_, ?_, h.refs, h.hands, h.silo, fun lru hlru hseg oc hoc => ?_, h.nuke, h.missed⟩
    · simp only [hlisted]
      exact h.flag
    · simp only [hlisted]
      exact h.lru
    · simp only [hlisted]
      exact h.nodup
    · rcases List.mem_append.mp hlru with hlru | hlru
      · exact h.stv lru hlru hseg oc hoc
      · rw [List.mem_singleton.mp hlru] at hoc
        cases hoc
  | newCore oc when =>
    cases hs
    exact h.create hok rfl rfl fun hp => by cases hp
  | loadCore oc when =>
    cases hs
    exact h.create hok rfl rfl fun _ => ⟨rfl, rfl⟩
  | fixup oc =>
    simp only [expStep, smpFixup] at hs
    obtain ⟨c, hc, hs⟩ := Option.bind_eq_some_iff.mp hs
    split_ifs at hs
    cases hs
    exact h.setCore _ hc rfl rfl fun hp => by cases hp
  | unbusy oc =>
    simp only [expStep, hshUnbusy] at hs
    obtain ⟨c, hc, hs⟩ := Option.bind_eq_some_iff.mp hs
    split_ifs at hs
    cases hs
    exact h.setCore _ hc rfl rfl fun hp => ⟨hp, rfl, (h.silo oc c hc hp).2.2⟩
  | smpObject oc =>
    simp only [expStep, smpObject] at hs
    obtain ⟨c, hc, hs⟩ := Option.bind_eq_some_iff.mp hs
    cases hs
    exact h.setCore _ hc rfl rfl fun hp => ⟨hp, (h.silo oc c hc hp).2.1, rfl⟩
  | ref oc =>
    simp only [expStep, sessRef] at hs
    obtain ⟨c, hc, hs⟩ := Option.bind_eq_some_iff.mp hs
    cases hs
    have hpers : c.persistent = false := by
      simp only [Act.Ok, hc] at hok
      simpa using hok
    refine h.update _ hc _ rfl (by simp only; omega) fun hp => ?_
    simp only [hpers] at hp
    cases hp
  | deref oc => exact hshDeref_inv (dropped_others hok) h hs
  | inject oc l ttl => exact expInject_inv h hok.1 hok.2 hfits hs
  | insert o => exact expInsert_inv h hfits hs
  | touch o locked => exact expTouch_inv h hs
  | rearm o junk => exact expRearm_inv h hs
  | timer t junk => exact expTimer_inv h hs
  | nukeOne l junk => exact expNukeOne_inv h hok hs
  | release taker oc =>
    obtain ⟨s₁, hs₁, h₁⟩ := release_inv h hok
    rw [expStep, hs₁] at hs
    cases hs
    exact h₁

omit [LinearOrder T] in
/-- What `EXP_Init` makes. -/
theorem expInit_inv {junk : ℕ → Option ℕ} (hj : junk 0 = none) (h0 : expInit junk = some s₀) : ExpInv s₀ := by
  rw [expInit] at h0
  obtain ⟨h, hnew, h0⟩ := Option.map_eq_some_iff.mp h0
  subst h0
  obtain rfl : h = newHeap junk fun _ => 0 := by
    have hsys := sysNew_eq junk fun _ => 0
    rw [sysNew, hnew, Option.map_some, Option.some.injEq, Sys.mk.injEq] at hsys
    exact hsys.1
  have hq : QInv noLt page4k (newHeap junk fun _ => 0) := (sysInv_new junk fun _ => 0).queue
  have hz : (newHeap junk fun _ => 0).cell 0 = none := by simp [newHeap, hj]
  have hn1 : (newHeap junk fun _ => 0).next = 1 := rfl
  have hnone : ∀ oc, ¬ Stored (newHeap junk fun _ => 0) oc := by
    rintro oc ⟨i, h0, hi, -⟩
    omega
  have hlisted : ∀ oc, oc ∉ listed [] := fun oc hoc => by cases hoc
  refine ⟨⟨⟨hq.space, hq.filled, hq.empty, hz⟩, fun oc hoc => absurd hoc (hnone oc), fun oc hoc => (by cases hoc)⟩,
    fun oc c hc => (by cases hc), fun oc hoc => absurd hoc (hlisted oc), List.nodup_nil, fun oc c hc => (by cases hc),
    fun p hp => (by cases hp), fun oc c hc => (by cases hc), fun lru hlru => (by cases hlru), fun oc c hoc => (by cases hoc),
    rfl⟩

/-- Heap, lists and references agree. -/
structure ExpOk (s : Exp T) : Prop where
  /-- `OC_F_ONLRU` is set on what is on a list. -/
  flag : ∀ oc c, s.core oc = some c → (c.onLru = true ↔ ∃ lru ∈ s.lru, oc ∈ lru.list)
  /-- No objcore is on two lists, or twice on one. -/
  once : (s.lru.flatMap Lru.list).Nodup
  /-- What is on a list is on the heap, where `timer_idx` says. -/
  lru : ∀ lru ∈ s.lru, ∀ oc ∈ lru.list, (s.core oc).isSome ∧ s.heap.idx oc ≠ 0 ∧ s.heap.A (s.heap.idx oc) = some oc
  /-- `timer_idx` is not zero exactly for what is on the heap. -/
  heap : ∀ oc c, s.core oc = some c → (s.heap.idx oc ≠ 0 ↔ ∃ i, 0 < i ∧ i < s.heap.next ∧ s.heap.A i = some oc)
  /-- What is on the heap was not freed. -/
  live : ∀ i oc, 0 < i → i < s.heap.next → s.heap.A i = some oc → (s.core oc).isSome
  /-- One reference is held for what is on the heap, and one for each time that it was taken off and not released. -/
  refs : ∀ oc c, s.core oc = some c → c.refcnt = s.others oc + onHeap s.heap oc + inHand s.hands oc
  /-- Who took an objcore off the heap releases one reference: the objcore goes with the last one. -/
  released : ∀ taker oc, (taker, oc) ∈ s.hands → ∃ c s', s.core oc = some c ∧ release s taker oc = some s' ∧
    s'.hands = s.hands.erase (taker, oc) ∧
    s'.core oc = if c.refcnt = 1 then none else some { c with refcnt := c.refcnt - 1 }
  /-- Nothing was removed from where it is not. -/
  missed : s.missed = false

omit [LinearOrder T] in
theorem release_spec {taker : Taker} (h : ExpInv s) (hp : (taker, oc) ∈ s.hands) :
    ∃ c s', s.core oc = some c ∧ release s taker oc = some s' ∧ s'.hands = s.hands.erase (taker, oc) ∧
      s'.core oc = if c.refcnt = 1 then none else some { c with refcnt := c.refcnt - 1 } := by
  obtain ⟨c, hc⟩ := Option.isSome_iff_exists.mp (h.hands _ hp)
  obtain ⟨s', hs', -⟩ := release_inv h hp
  refine ⟨c, s', hc, hs', ?_⟩
  have hrefs := h.refs oc c hc
  have hpos : 0 < inHand s.hands oc := inHand_pos hp
  have hderef : hshDeref { s with hands := s.hands.erase (taker, oc) } oc = some s' →
      s'.hands = s.hands.erase (taker, oc) ∧
        s'.core oc = if c.refcnt = 1 then none else some { c with refcnt := c.refcnt - 1 } := fun hd => by
    simp only [hshDeref, hc, Option.bind_eq_bind, Option.bind_some] at hd
    by_cases hcond : c.persistent = false ∧ 0 < c.refcnt
    · rw [if_pos hcond] at hd
      cases hd
      refine ⟨rfl, ?_⟩
      simp only [Exp.setCore, Function.update_self, show c.refcnt - 1 = 0 ↔ c.refcnt = 1 by omega]
    · rw [if_neg hcond] at hd
      cases hd
  cases taker with
  | nuke => exact hderef hs'
  | timer =>
    simp only [release, hc, Option.bind_eq_bind, Option.bind_some] at hs'
    by_cases hpers : c.persistent = true
    · rw [if_pos hpers] at hs'
      simp only [hshDerefObjCore, hc, Option.bind_eq_bind, Option.bind_some] at hs'
      cases hs'
      rw [if_pos (h.silo oc c hc hpers).1]
      exact ⟨rfl, Function.update_self _ _ _⟩
    · rw [if_neg hpers] at hs'
      exact hderef hs'

omit [LinearOrder T] in
theorem ExpInv.expOk (h : ExpInv s) : ExpOk s := by
  have hs := h.heap.placed.space
  have hA : ∀ i, i < s.heap.next → s.heap.A i = s.heap.cell i := fun i hi => hs.A (lt_of_lt_of_le hi hs.next_le)
  refine ⟨fun oc c hc => ?_, h.nodup, fun lru hlru oc hoc => ?_, fun oc c hc => ?_, fun i oc h0 hi hA' => ?_, h.refs,
    fun taker oc hp => release_spec h hp, h.missed⟩
  · rw [h.flag oc c hc, listed, List.mem_flatMap]
  · obtain ⟨hlive, hidx⟩ := h.lru oc (List.mem_flatMap.mpr ⟨lru, hlru, hoc⟩)
    exact ⟨hlive, hidx, h.heap.placed.A_idx ((h.heap.idx oc hlive).mp hidx)⟩
  · rw [h.heap.idx oc (by rw [hc]; rfl)]
    constructor
    · rintro ⟨i, h0, hi, hx⟩
      exact ⟨i, h0, hi, by rw [hA i hi, hx]⟩
    · rintro ⟨i, h0, hi, hx⟩
      exact ⟨i, h0, hi, by rw [← hA i hi, hx]⟩
  · rw [hA i hi] at hA'
    exact h.heap.live oc ⟨i, h0, hi, hA'⟩

/-- **Heap, lists and references agree** in every state of every run from `EXP_Init` on, of any page size, if objcores are
put on the heap only while its counters can take them, and if index 0 of the heap, which nothing writes, is `NULL`. -/
theorem reach_expOk {junk : ℕ → Option ℕ} (hj : junk 0 = none) (h0 : expInit junk = some s₀)
    (h : Reach (expStep pg) (fun s a => a.Ok s ∧ a.Fits s) s₀ s) : ExpOk s := by
  have hinv : ExpInv s := Reach.inv (expInit_inv hj h0) (fun s a s' hi hok hs => expInv_step hi hok.1 hok.2 hs) h
  exact hinv.expOk

/-- Two lists; an object that is fetched, used and nuked, and an objcore that is loaded from a silo and expires. -/
def expireRun : List (Act ℕ) :=
  [.lruAlloc true, .lruAlloc false, .newCore 7 0, .insert ⟨some 7, true, true, some 5, some 1⟩, .unbusy 7,
    .loadCore 8 0, .inject 8 0 3, .touch ⟨some 7, true, true, some 5, some 1⟩ false,
    .rearm ⟨some 7, true, true, some 2, some 1⟩ 0, .rearm ⟨some 7, true, true, some 9, some 1⟩ 0, .deref 7,
    .timer 4 0, .nukeOne 1 0, .release .timer 8]

theorem reach_expOk_expireRun : ∃ s₀ s : Exp ℕ, expInit (fun _ => none) = some s₀ ∧
    Reach (expStep page4k) (fun s a => a.Ok s ∧ a.Fits s) s₀ s ∧ ExpOk s ∧ s.hands = [(.nuke, 7)] := by
  obtain ⟨s₀, h0⟩ : ∃ s₀, (expInit fun _ => none : Option (Exp ℕ)) = some s₀ := Option.isSome_iff_exists.mp (by decide +kernel)
  have hres : ((expInit fun _ => none : Option (Exp ℕ)).bind fun s => (expireRun.foldlM (expStep page4k) s).map Exp.hands) =
      some [(.nuke, 7)] := by decide +kernel
  have hrun : (expInit fun _ => none : Option (Exp ℕ)).all fun s => decide (OkRun (expStep page4k)
      (fun s a => a.Ok s ∧ a.Fits s) s expireRun) := by decide +kernel
  rw [h0] at hres hrun
  obtain ⟨s, hs, hhands⟩ := Option.map_eq_some_iff.mp hres
  have hreach : Reach (expStep page4k) (fun s a => a.Ok s ∧ a.Fits s) s₀ s :=
    Reach.of_run (by simpa using hrun) hs
  exact ⟨s₀, s, h0, hreach, reach_expOk rfl h0 hreach, hhands⟩

end Runs

end Varnish.Expire
