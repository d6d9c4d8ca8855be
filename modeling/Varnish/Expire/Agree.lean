import Mathlib.Data.List.Flatten
import Mathlib.Data.List.Perm.Basic
import Varnish.Binheap.Place
import Varnish.Expire.Model

/-!
# Varnish.Expire.Agree — what each operation does to heap, LRU lists and references

* `HeapInv`: `timer_idx` tells which objcores are on the heap.  `heapInsert_spec`, `heapDelete_spec`: what the heap
  operations do to that.
* `ExpInv`: the invariant.
* `ExpInv.create`, `ExpInv.update`, `Dropped.free`, `Dropped.keep`: objcores come and go with their references.
* `ExpInv.push`, `ExpInv.enlist`, `ExpInv.unlist`, `ExpInv.take`: the parts that the functions of `cache_expire.c` are
  made of.
* `expInject_inv`, `expInsert_inv`, `expTouch_inv`, `expRearm_inv`, `expTimer_inv`, `expNukeOne_inv`, `release_inv`.
-/

namespace Varnish.Expire

open Varnish.Binheap

variable {T : Type} [LinearOrder T] {pg : Page} {s s' : Exp T} {oc l junk : ℕ} {c c' : Core T}

/-! ## The heap -/

section OnHeap

/-- What is on the heap is alive, and `timer_idx` tells whether an objcore is on it. -/
structure HeapInv (core : ℕ → Option (Core T)) (h : Heap ℕ) : Prop where
  placed : Placed h
  live : ∀ oc, Stored h oc → (core oc).isSome
  idx : ∀ oc, (core oc).isSome → (h.idx oc ≠ 0 ↔ Stored h oc)

variable {core core' : ℕ → Option (Core T)} {h h' : Heap ℕ}

omit [LinearOrder T] in
theorem HeapInv.congr (hi : HeapInv core h) (hc : ∀ z, (core' z).isSome = (core z).isSome) : HeapInv core' h where
  placed := hi.placed
  live z hz := by
    rw [hc]
    exact hi.live z hz
  idx z hz := by
    rw [hc] at hz
    exact hi.idx z hz

/-- An objcore goes on the heap. -/
theorem heapInsert_spec (hi : HeapInv s.core s.heap) (hc : s.core oc = some c) (h0 : s.heap.idx oc = 0)
    (hroom : s.heap.next < 2 ^ 32 - 2 * rowWidth) (hs : heapInsert pg s oc = some s') :
    ∃ h, s' = { s with heap := h } ∧ HeapInv s.core h ∧
      ∀ z, (s.core z).isSome → (h.idx z ≠ 0 ↔ z = oc ∨ s.heap.idx z ≠ 0) := by
  have hlive : (s.core oc).isSome := by rw [hc]; rfl
  have hout : ¬ Stored s.heap oc := fun hst => (hi.idx oc hlive).mpr hst h0
  rw [heapInsert] at hs
  obtain ⟨h, hins, hs⟩ := Option.bind_eq_some_iff.mp hs
  split_ifs at hs
  cases hs
  obtain ⟨hp, hin⟩ := insert_placed hi.placed hout hroom hins
  have hidx : ∀ z, (s.core z).isSome → (h.idx z ≠ 0 ↔ Stored h z) := fun z hz => by
    refine ⟨fun hne => ?_, hp.idx_ne⟩
    by_contra hst
    rw [hin.other z hst] at hne
    exact hst ((hin.stored z).mpr (.inr ((hi.idx z hz).mp hne)))
  refine ⟨h, rfl, ⟨hp, fun z hz => ?_, hidx⟩, fun z hz => ?_⟩
  · rcases (hin.stored z).mp hz with rfl | hst
    · exact hlive
    · exact hi.live z hst
  · rw [hidx z hz, hin.stored z, hi.idx z hz]

/-- An objcore goes off the heap: it was on it. -/
theorem heapDelete_spec (hi : HeapInv s.core s.heap) (hc : s.core oc = some c)
    (hs : heapDelete pg s oc junk = some s') :
    ∃ h, s' = { s with heap := h } ∧ HeapInv s.core h ∧ s.heap.idx oc ≠ 0 ∧ h.next + 1 = s.heap.next ∧
      ∀ z, (s.core z).isSome → (h.idx z ≠ 0 ↔ z ≠ oc ∧ s.heap.idx z ≠ 0) := by
  have hlive : (s.core oc).isSome := by rw [hc]; rfl
  rw [heapDelete] at hs
  obtain ⟨h, hdel, hs⟩ := Option.bind_eq_some_iff.mp hs
  split_ifs at hs
  cases hs
  obtain ⟨x, hx, h0, hn, hnext, hp, hrem⟩ := delete_placed hi.placed hdel
  have hst : Stored s.heap oc := (hi.idx oc hlive).mp (by omega)
  have hA := hi.placed.A_idx hst
  obtain rfl : x = oc := by
    rw [hi.placed.space.A (lt_of_lt_of_le hn hi.placed.space.next_le), hx] at hA
    exact Option.some.inj hA
  have hidx : ∀ z, (s.core z).isSome → (h.idx z ≠ 0 ↔ Stored h z) := fun z hz => by
    refine ⟨fun hne => ?_, hp.idx_ne⟩
    have hzx : z ≠ x := fun he => hne (he ▸ hrem.gone)
    rw [hrem.stored z]
    refine ⟨hzx, ?_⟩
    by_contra hst'
    rw [hrem.other z hzx hst'] at hne
    exact hst' ((hi.idx z hz).mp hne)
  refine ⟨h, ?_, ⟨hp, fun z hz => hi.live z ((hrem.stored z).mp hz).2, hidx⟩, by omega, hnext, fun z hz => ?_⟩
  · simp [hA]
  · rw [hidx z hz, hrem.stored z, hi.idx z hz]

end OnHeap

/-! ## The lists -/

section OnLists

/-- The objcores that are on LRU lists. -/
def listed (lru : List Lru) : List ℕ := lru.flatMap Lru.list

theorem listed_erase_sublist (lru : List Lru) (oc : ℕ) :
    (listed (lru.map fun x => { x with list := x.list.erase oc })).Sublist (listed lru) := by
  induction lru with
  | nil => exact List.Sublist.refl _
  | cons x lru ih =>
    simp only [listed, List.map_cons, List.flatMap_cons] at ih ⊢
    exact List.erase_sublist.append ih

theorem mem_listed_erase {lru : List Lru} (oc : ℕ) (hnd : (listed lru).Nodup) (z : ℕ) :
    z ∈ listed (lru.map fun x => { x with list := x.list.erase oc }) ↔ z ≠ oc ∧ z ∈ listed lru := by
  simp only [listed, List.mem_flatMap, List.mem_map]
  have hnd' : ∀ x ∈ lru, x.list.Nodup := fun x hx => (List.nodup_flatMap.mp hnd).1 x hx
  constructor
  · rintro ⟨_, ⟨x, hx, rfl⟩, hz⟩
    rw [(hnd' x hx).mem_erase_iff] at hz
    exact ⟨hz.1, x, hx, hz.2⟩
  · rintro ⟨hne, x, hx, hz⟩
    exact ⟨_, ⟨x, hx, rfl⟩, (hnd' x hx).mem_erase_iff.mpr ⟨hne, hz⟩⟩

theorem listed_insert_perm {lru : List Lru} {l : ℕ} (hl : l < lru.length) (oc : ℕ) :
    (listed (lru.modify l fun x => { x with list := x.list ++ [oc] })).Perm (oc :: listed lru) := by
  induction lru generalizing l with
  | nil => cases hl
  | cons x lru ih =>
    cases l with
    | zero =>
      simp only [List.modify_zero_cons, listed, List.flatMap_cons, List.append_assoc]
      exact List.perm_middle
    | succ l =>
      simp only [List.modify_succ_cons, listed, List.flatMap_cons] at ih ⊢
      exact ((ih (by simpa using hl)).append_left x.list).trans List.perm_middle

theorem any_contains {lru : List Lru} {oc : ℕ} : (lru.any fun x => x.list.contains oc) = true ↔ oc ∈ listed lru := by
  simp [listed]

end OnLists

/-! ## The invariant -/

section Inv

/-- 1 for an objcore on the heap. -/
def onHeap (h : Heap ℕ) (oc : ℕ) : ℕ := if h.idx oc ≠ 0 then 1 else 0

/-- How many references to an objcore were taken off the heap and are still to be released. -/
def inHand (hands : List (Taker × ℕ)) (oc : ℕ) : ℕ := (hands.map Prod.snd).count oc

structure ExpInv (s : Exp T) : Prop where
  heap : HeapInv s.core s.heap
  flag : ∀ oc c, s.core oc = some c → (c.onLru = true ↔ oc ∈ listed s.lru)
  lru : ∀ oc ∈ listed s.lru, (s.core oc).isSome ∧ s.heap.idx oc ≠ 0
  nodup : (listed s.lru).Nodup
  refs : ∀ oc c, s.core oc = some c → c.refcnt = s.others oc + onHeap s.heap oc + inHand s.hands oc
  hands : ∀ p ∈ s.hands, (s.core p.2).isSome
  -- an objcore that was not fixed up has one reference, and is on no list of a stevedore
  silo : ∀ oc c, s.core oc = some c → c.persistent = true → c.refcnt = 1 ∧ c.busy = false ∧ c.dontMove = true
  stv : ∀ lru ∈ s.lru, lru.seg = false → ∀ oc ∈ lru.list, ∀ c, s.core oc = some c → c.persistent = false
  nuke : ∀ oc c, (.nuke, oc) ∈ s.hands → s.core oc = some c → c.persistent = false
  missed : s.missed = false

omit [LinearOrder T] in
/-- After an objcore was written, it is what was written, and every other one is as before. -/
theorem update_core_cases {core : ℕ → Option (Core T)} {o : Option (Core T)} {z : ℕ} {d : Core T}
    (hd : Function.update core oc o z = some d) : (z = oc ∧ o = some d) ∨ (z ≠ oc ∧ core z = some d) := by
  by_cases hz : z = oc
  · subst hz
    rw [Function.update_self] at hd
    exact .inl ⟨rfl, hd⟩
  · rw [Function.update_of_ne hz] at hd
    exact .inr ⟨hz, hd⟩

omit [LinearOrder T] in
/-- An objcore stays alive and on its list; references come and go with those who hold them. -/
theorem ExpInv.update (h : ExpInv s) (c' : Core T) (hc : s.core oc = some c) (n : ℕ) (hl : c'.onLru = c.onLru)
    (hr : c'.refcnt + s.others oc = c.refcnt + n)
    (hp : c'.persistent = true → c.persistent = true ∧ c'.refcnt = 1 ∧ c'.busy = false ∧ c'.dontMove = true) :
    ExpInv ((s.setCore oc (some c')).setOthers oc n) := by
  have hlive : ∀ z, (Function.update s.core oc (some c') z).isSome = (s.core z).isSome := fun z => by
    by_cases hz : z = oc
    · subst hz
      simp [hc]
    · rw [Function.update_of_ne hz]
  have hpers : ∀ z d, Function.update s.core oc (some c') z = some d →
      (∀ d', s.core z = some d' → d'.persistent = false) → d.persistent = false := by
    intro z d hd hall
    rcases update_core_cases hd with ⟨rfl, ⟨⟩⟩ | ⟨-, hd⟩
    · by_contra hne
      have := hall c hc
      rw [(hp (by simpa using hne)).1] at this
      cases this
    · exact hall d hd
  refine ⟨h.heap.congr hlive, fun z d hd => ?_, fun z hz => ?_, h.nodup, fun z d hd => ?_, fun p hp => ?_, fun z d hd hdp => ?_,
    fun lru hlru hseg z hz d hd => ?_, fun z d hz hd => ?_, h.missed⟩
  · rcases update_core_cases hd with ⟨rfl, ⟨⟩⟩ | ⟨-, hd⟩
    · rw [hl]
      exact h.flag z c hc
    · exact h.flag z d hd
  · exact ⟨(hlive z).trans (h.lru z hz).1, (h.lru z hz).2⟩
  · rcases update_core_cases hd with ⟨rfl, ⟨⟩⟩ | ⟨hz, hd⟩
    · have hrefs := h.refs z c hc
      simp only [Exp.setOthers, Exp.setCore, Function.update_self]
      omega
    · simp only [Exp.setOthers, Function.update_of_ne hz]
      exact h.refs z d hd
  · exact (hlive p.2).trans (h.hands p hp)
  · rcases update_core_cases hd with ⟨rfl, ⟨⟩⟩ | ⟨-, hd⟩
    · exact (hp hdp).2
    · exact h.silo z d hd hdp
  · exact hpers z d hd fun d' hd' => h.stv lru hlru hseg z hz d' hd'
  · exact hpers z d hd fun d' hd' => h.nuke z d' hz hd'

omit [LinearOrder T] in
/-- A new objcore. -/
theorem ExpInv.create (h : ExpInv s) (hn : s.core oc = none) (h1 : c.refcnt = 1) (hl : c.onLru = false)
    (hp : c.persistent = true → c.busy = false ∧ c.dontMove = true) :
    ExpInv (({ s with heap := { s.heap with idx := Function.update s.heap.idx oc 0 } }.setCore oc (some c)).setOthers
      oc 1) := by
  have hst : ¬ Stored s.heap oc := fun hst => by
    have := h.heap.live oc hst
    rw [hn] at this
    cases this
  have hlisted : oc ∉ listed s.lru := fun hm => by
    have := (h.lru oc hm).1
    rw [hn] at this
    cases this
  have hhand : ∀ p ∈ s.hands, p.2 ≠ oc := fun p hp he => by
    have := h.hands p hp
    rw [he, hn] at this
    cases this
  have hzero : inHand s.hands oc = 0 := List.count_eq_zero.mpr fun hm => by
    obtain ⟨p, hp, he⟩ := List.mem_map.mp hm
    exact hhand p hp he
  have hlive : ∀ z, (s.core z).isSome → z ≠ oc := fun z hz he => by
    rw [he, hn] at hz
    cases hz
  have hheap : HeapInv (Function.update s.core oc (some c)) { s.heap with idx := Function.update s.heap.idx oc 0 } := by
    refine ⟨⟨h.heap.placed.space.same ⟨rfl, rfl, rfl, rfl⟩, ⟨h.heap.placed.filled.full, fun i x h0 hi hx => ?_⟩,
      h.heap.placed.empty, h.heap.placed.zero⟩, fun z hz => ?_, fun z hz => ?_⟩
    · have hx' : x ≠ oc := fun he => hst ⟨i, h0, hi, he ▸ hx⟩
      simp only [Function.update_of_ne hx']
      exact h.heap.placed.filled.idx i x h0 hi hx
    · have hlz := h.heap.live z hz
      rw [Function.update_of_ne (hlive z hlz)]
      exact hlz
    · by_cases hzo : z = oc
      · subst hzo
        simp only [Function.update_self, ne_eq, not_true_eq_false, false_iff]
        exact hst
      · rw [Function.update_of_ne hzo] at hz
        simp only [Function.update_of_ne hzo]
        exact h.heap.idx z hz
  refine ⟨hheap, fun z d hd => ?_, fun z hz => ?_, h.nodup, fun z d hd => ?_, fun p hp => ?_, fun z d hd hdp => ?_,
    fun lru hlru hseg z hz d hd => ?_, fun z d hz hd => ?_, h.missed⟩
  · rcases update_core_cases hd with ⟨rfl, ⟨⟩⟩ | ⟨-, hd⟩
    · rw [hl]
      exact ⟨fun he => (by cases he), fun hm => absurd hm hlisted⟩
    · exact h.flag z d hd
  · obtain ⟨hz1, hz2⟩ := h.lru z hz
    have hzo := hlive z hz1
    simp only [Exp.setOthers, Exp.setCore, Function.update_of_ne hzo]
    exact ⟨hz1, hz2⟩
  · rcases update_core_cases hd with ⟨rfl, ⟨⟩⟩ | ⟨hz, hd⟩
    · simp only [Exp.setOthers, Exp.setCore, Function.update_self, onHeap, ne_eq, not_true_eq_false, if_false]
      rw [hzero, h1]
    · simp only [Exp.setOthers, Exp.setCore, Function.update_of_ne hz, onHeap]
      exact h.refs z d hd
  · have hlp := h.hands p hp
    simp only [Exp.setOthers, Exp.setCore, Function.update_of_ne (hlive _ hlp)]
    exact hlp
  · rcases update_core_cases hd with ⟨rfl, ⟨⟩⟩ | ⟨-, hd⟩
    · exact ⟨h1, hp hdp⟩
    · exact h.silo z d hd hdp
  · rcases update_core_cases hd with ⟨rfl, ⟨⟩⟩ | ⟨-, hd⟩
    · exact absurd (List.mem_flatMap.mpr ⟨lru, hlru, hz⟩) hlisted
    · exact h.stv lru hlru hseg z hz d hd
  · rcases update_core_cases hd with ⟨rfl, ⟨⟩⟩ | ⟨-, hd⟩
    · exact absurd rfl (hhand _ hz)
    · exact h.nuke z d hz hd

end Inv

/-! ## References that are released -/

section Release

/-- `s₁` is `s` but for one reference to `oc`, which nobody holds any more. -/
structure Dropped (s s₁ : Exp T) (oc : ℕ) : Prop where
  core : s₁.core = s.core
  heap : s₁.heap = s.heap
  lru : s₁.lru = s.lru
  missed : s₁.missed = s.missed
  hands : ∀ p ∈ s₁.hands, p ∈ s.hands
  here : s₁.others oc + inHand s₁.hands oc + 1 = s.others oc + inHand s.hands oc
  there : ∀ z, z ≠ oc → s₁.others z = s.others z ∧ inHand s₁.hands z = inHand s.hands z

variable {s₁ : Exp T}

theorem inHand_pos {p : Taker × ℕ} {hands : List (Taker × ℕ)} (hp : p ∈ hands) : 0 < inHand hands p.2 :=
  List.count_pos_iff.mpr (List.mem_map_of_mem hp)

omit [LinearOrder T] in
/-- The last reference goes, and the objcore with it. -/
theorem Dropped.free (hd : Dropped s s₁ oc) (h : ExpInv s) (hc : s.core oc = some c) (h1 : c.refcnt = 1) :
    ExpInv (s₁.setCore oc none) := by
  have hrefs := h.refs oc c hc
  have hhere := hd.here
  have hoff : s.heap.idx oc = 0 := by
    by_contra hne
    rw [onHeap, if_pos hne] at hrefs
    omega
  have hnone : inHand s₁.hands oc = 0 := by omega
  have hlive : ∀ z, z ≠ oc → Function.update s.core oc none z = s.core z := fun z hz => Function.update_of_ne hz _ _
  have hidx : ∀ z, s.heap.idx z ≠ 0 → z ≠ oc := fun z hz he => hz (he ▸ hoff)
  have hheap : HeapInv (Function.update s.core oc none) s.heap := by
    refine ⟨h.heap.placed, fun z hz => ?_, fun z hz => ?_⟩
    · rw [hlive z (hidx z (h.heap.placed.idx_ne hz))]
      exact h.heap.live z hz
    · have hzo : z ≠ oc := fun he => by
        rw [he, Function.update_self] at hz
        cases hz
      rw [hlive z hzo] at hz
      exact h.heap.idx z hz
  have hcore : ∀ {z d}, (s₁.setCore oc none).core z = some d → z ≠ oc ∧ s.core z = some d := by
    intro z d hz
    simp only [Exp.setCore, hd.core] at hz
    rcases update_core_cases hz with ⟨-, ⟨⟩⟩ | hz
    exact hz
  refine ⟨?_, fun z d hz => ?_, fun z hz => ?_, ?_, fun z d hz => ?_, fun p hp => ?_, fun z d hz => ?_,
    fun lru hlru hseg z hz d hdz => ?_, fun z d hz hdz => ?_, ?_⟩
  · simp only [Exp.setCore, hd.core, hd.heap]
    exact hheap
  · simp only [Exp.setCore, hd.lru]
    exact h.flag z d (hcore hz).2
  · simp only [Exp.setCore, hd.lru, hd.heap, hd.core] at hz ⊢
    obtain ⟨hz1, hz2⟩ := h.lru z hz
    rw [hlive z (hidx z hz2)]
    exact ⟨hz1, hz2⟩
  · simp only [Exp.setCore, hd.lru]
    exact h.nodup
  · obtain ⟨hzo, hz⟩ := hcore hz
    obtain ⟨ho, hi⟩ := hd.there z hzo
    simp only [Exp.setCore, hd.heap, ho, hi]
    exact h.refs z d hz
  · have hpo : p.2 ≠ oc := fun he => by
      have := inHand_pos hp
      simp only [Exp.setCore] at this
      rw [he] at this
      omega
    simp only [Exp.setCore, hd.core, hlive _ hpo]
    exact h.hands p (hd.hands p hp)
  · exact h.silo z d (hcore hz).2
  · simp only [Exp.setCore, hd.lru] at hlru
    exact h.stv lru hlru hseg z hz d (hcore hdz).2
  · exact h.nuke z d (hd.hands _ hz) (hcore hdz).2
  · simp only [Exp.setCore, hd.missed]
    exact h.missed

omit [LinearOrder T] in
/-- One reference of several goes. -/
theorem Dropped.keep (hd : Dropped s s₁ oc) (h : ExpInv s) (hc : s.core oc = some c) (hp : c.persistent = false) :
    ExpInv (s₁.setCore oc (some { c with refcnt := c.refcnt - 1 })) := by
  have hrefs := h.refs oc c hc
  have hhere := hd.here
  have hlive : ∀ z, (Function.update s.core oc (some { c with refcnt := c.refcnt - 1 }) z).isSome = (s.core z).isSome :=
    fun z => by
      by_cases hz : z = oc
      · subst hz
        simp [hc]
      · rw [Function.update_of_ne hz]
  have hcore : ∀ {z d}, (s₁.setCore oc (some { c with refcnt := c.refcnt - 1 })).core z = some d →
      (z = oc ∧ d = { c with refcnt := c.refcnt - 1 }) ∨ (z ≠ oc ∧ s.core z = some d) := by
    intro z d hz
    simp only [Exp.setCore, hd.core] at hz
    rcases update_core_cases hz with ⟨rfl, ⟨⟩⟩ | hz
    · exact .inl ⟨rfl, rfl⟩
    · exact .inr hz
  refine ⟨?_, fun z d hz => ?_, fun z hz => ?_, ?_, fun z d hz => ?_, fun p hp => ?_, fun z d hz hdp => ?_,
    fun lru hlru hseg z hz d hdz => ?_, fun z d hz hdz => ?_, ?_⟩
  · simp only [Exp.setCore, hd.core, hd.heap]
    exact h.heap.congr hlive
  · simp only [Exp.setCore, hd.lru]
    rcases hcore hz with ⟨rfl, rfl⟩ | ⟨-, hz⟩
    · exact h.flag z c hc
    · exact h.flag z d hz
  · simp only [Exp.setCore, hd.lru, hd.heap, hd.core] at hz ⊢
    rw [hlive z]
    exact h.lru z hz
  · simp only [Exp.setCore, hd.lru]
    exact h.nodup
  · rcases hcore hz with ⟨rfl, rfl⟩ | ⟨hzo, hz⟩
    · simp only [Exp.setCore, hd.heap]
      omega
    · obtain ⟨ho, hi⟩ := hd.there z hzo
      simp only [Exp.setCore, hd.heap, ho, hi]
      exact h.refs z d hz
  · simp only [Exp.setCore, hd.core, hlive]
    exact h.hands p (hd.hands p hp)
  · rcases hcore hz with ⟨rfl, rfl⟩ | ⟨-, hz⟩
    · simp only [hp] at hdp
      cases hdp
    · exact h.silo z d hz hdp
  · simp only [Exp.setCore, hd.lru] at hlru
    rcases hcore hdz with ⟨rfl, rfl⟩ | ⟨-, hdz⟩
    · exact hp
    · exact h.stv lru hlru hseg z hz d hdz
  · rcases hcore hdz with ⟨rfl, rfl⟩ | ⟨-, hdz⟩
    · exact hp
    · exact h.nuke z d (hd.hands _ hz) hdz
  · simp only [Exp.setCore, hd.missed]
    exact h.missed

omit [LinearOrder T] in
/-- **`HSH_Deref`** of a reference that somebody held. -/
theorem hshDeref_inv (hd : Dropped s s₁ oc) (h : ExpInv s) (hs : hshDeref s₁ oc = some s') : ExpInv s' := by
  rw [hshDeref, hd.core] at hs
  obtain ⟨c, hc, hs⟩ := Option.bind_eq_some_iff.mp hs
  by_cases hcond : c.persistent = false ∧ 0 < c.refcnt
  · rw [if_pos hcond] at hs
    cases hs
    by_cases h1 : c.refcnt - 1 = 0
    · rw [if_pos h1]
      exact hd.free h hc (by omega)
    · rw [if_neg h1]
      exact hd.keep h hc hcond.1
  · rw [if_neg hcond] at hs
    cases hs

omit [LinearOrder T] in
/-- The reference of a session. -/
theorem dropped_others (hpos : 0 < s.others oc) : Dropped s (s.setOthers oc (s.others oc - 1)) oc where
  core := rfl
  heap := rfl
  lru := rfl
  missed := rfl
  hands _ hp := hp
  here := by
    simp only [Exp.setOthers, Function.update_self]
    omega
  there z hz := ⟨Function.update_of_ne hz _ _, rfl⟩

omit [LinearOrder T] in
/-- The reference that was taken off the heap. -/
theorem dropped_hand {taker : Taker} (hp : (taker, oc) ∈ s.hands) :
    Dropped s { s with hands := s.hands.erase (taker, oc) } oc := by
  have hperm := (List.perm_cons_erase hp).map Prod.snd
  refine ⟨rfl, rfl, rfl, rfl, fun p hp => List.mem_of_mem_erase hp, ?_, fun z hz => ⟨rfl, ?_⟩⟩
  · have hcount := hperm.count_eq oc
    rw [List.map_cons, List.count_cons_self] at hcount
    simp only [inHand]
    omega
  · have hcount := hperm.count_eq z
    rw [List.map_cons, List.count_cons_of_ne (Ne.symm hz)] at hcount
    exact hcount.symm

omit [LinearOrder T] in
/-- **`exp_timer` and `EXP_NukeOne`** release the reference that they took, and the release does not fail. -/
theorem release_inv {taker : Taker} (h : ExpInv s) (hp : (taker, oc) ∈ s.hands) :
    ∃ s', release s taker oc = some s' ∧ ExpInv s' := by
  have hd := dropped_hand hp
  obtain ⟨c, hc⟩ := Option.isSome_iff_exists.mp (h.hands _ hp)
  have hrefs := h.refs oc c hc
  have hpos : 0 < inHand s.hands oc := inHand_pos hp
  have hderef : c.persistent = false → ∃ s', hshDeref { s with hands := s.hands.erase (taker, oc) } oc = some s' ∧
      ExpInv s' := fun hpers => by
    have hsome : (hshDeref { s with hands := s.hands.erase (taker, oc) } oc).isSome := by
      simp only [hshDeref, hc, Option.bind_eq_bind, Option.bind_some]
      rw [if_pos ⟨hpers, by omega⟩]
      rfl
    obtain ⟨s', hs'⟩ := Option.isSome_iff_exists.mp hsome
    exact ⟨s', hs', hshDeref_inv hd h hs'⟩
  cases taker with
  | nuke => exact hderef (h.nuke oc c hp hc)
  | timer =>
    simp only [release, hc, Option.bind_eq_bind, Option.bind_some]
    by_cases hpers : c.persistent = true
    · rw [if_pos hpers]
      simp only [hshDerefObjCore, hc, Option.bind_eq_bind, Option.bind_some]
      exact ⟨_, rfl, hd.free h hc (h.silo oc c hc hpers).1⟩
    · rw [if_neg hpers]
      exact hderef (by simpa using hpers)

end Release

/-! ## On and off -/

section OnOff

/-- A reference of somebody else becomes the one that is held for the heap. -/
theorem ExpInv.push (h : ExpInv s) (hc : s.core oc = some c) (h0 : s.heap.idx oc = 0) (hpos : 0 < s.others oc)
    (hroom : s.heap.next < 2 ^ 32 - 2 * rowWidth) (hs : heapInsert pg s oc = some s') :
    ExpInv (s'.setOthers oc (s'.others oc - 1)) ∧ s'.core = s.core ∧ s'.lru = s.lru ∧ s'.heap.idx oc ≠ 0 := by
  obtain ⟨h', rfl, hheap, hidx⟩ := heapInsert_spec h.heap hc h0 hroom hs
  have hlive : (s.core oc).isSome := by rw [hc]; rfl
  refine ⟨⟨hheap, h.flag, fun z hz => ?_, h.nodup, fun z d hd => ?_, h.hands, h.silo, h.stv, h.nuke, h.missed⟩, rfl, rfl,
    (hidx oc hlive).mpr (.inl rfl)⟩
  · obtain ⟨hz1, hz2⟩ := h.lru z hz
    exact ⟨hz1, (hidx z hz1).mpr (.inr hz2)⟩
  · have hlz : (s.core z).isSome := by rw [show s.core z = some d from hd]; rfl
    have hrefs := h.refs z d hd
    by_cases hz : z = oc
    · subst hz
      have hon : onHeap h' z = 1 := if_pos ((hidx z hlz).mpr (.inl rfl))
      have hoff : onHeap s.heap z = 0 := if_neg (by simp [h0])
      simp only [Exp.setOthers, Function.update_self]
      omega
    · have hon : onHeap h' z = onHeap s.heap z := by simp only [onHeap, hidx z hlz, hz, false_or]
      simp only [Exp.setOthers, Function.update_of_ne hz, hon]
      exact hrefs

omit [LinearOrder T] in
/-- An objcore that is on the heap goes on a list. -/
theorem ExpInv.enlist (h : ExpInv s) (hc : s.core oc = some c) (hon : s.heap.idx oc ≠ 0) (hl : c.onLru = false)
    (hstv : c.persistent = true → s.segLru l) (hs : lruInsert s l oc = some s') : ExpInv s' := by
  have hlive : (s.core oc).isSome := by rw [hc]; rfl
  have hout : oc ∉ listed s.lru := fun hm => by
    rw [(h.flag oc c hc).mpr hm] at hl
    cases hl
  rw [lruInsert] at hs
  obtain ⟨s₁, hs₁, hs⟩ := Option.bind_eq_some_iff.mp hs
  rw [vlistInsert] at hs₁
  split_ifs at hs₁ with hlen
  cases hs₁
  simp only [hc] at hs
  cases hs
  have hperm := listed_insert_perm hlen oc
  have hlive' : ∀ z, (Function.update s.core oc (some { c with onLru := true }) z).isSome = (s.core z).isSome := fun z => by
    by_cases hz : z = oc
    · subst hz
      simp [hc]
    · rw [Function.update_of_ne hz]
  refine ⟨h.heap.congr hlive', fun z d hd => ?_, fun z hz => ?_, ?_, fun z d hd => ?_, fun p hp => (hlive' p.2).trans
    (h.hands p hp), fun z d hd hdp => ?_, fun lru hlru hseg z hz d hd => ?_, fun z d hz hd => ?_, h.missed⟩
  · have hmem : z ∈ listed (s.lru.modify l fun lru => { lru with list := lru.list ++ [oc] }) ↔ z = oc ∨ z ∈ listed s.lru :=
      hperm.mem_iff.trans List.mem_cons
    refine Iff.trans ?_ hmem.symm
    rcases update_core_cases hd with ⟨rfl, ⟨⟩⟩ | ⟨hz, hd⟩
    · simp
    · simp only [hz, false_or]
      exact h.flag z d hd
  · simp only [Exp.setCore, hlive']
    rcases List.mem_cons.mp (hperm.mem_iff.mp hz) with rfl | hz
    · exact ⟨hlive, hon⟩
    · exact h.lru z hz
  · exact hperm.nodup_iff.mpr (List.nodup_cons.mpr ⟨hout, h.nodup⟩)
  · rcases update_core_cases hd with ⟨rfl, ⟨⟩⟩ | ⟨-, hd⟩
    · exact h.refs z c hc
    · exact h.refs z d hd
  · rcases update_core_cases hd with ⟨rfl, ⟨⟩⟩ | ⟨-, hd⟩
    · exact h.silo z c hc hdp
    · exact h.silo z d hd hdp
  · -- the list is one of those before, or the one that `oc` is put on
    obtain ⟨i, hi⟩ := List.mem_iff_getElem?.mp hlru
    simp only [Exp.setCore, List.getElem?_modify] at hi
    obtain ⟨lru₀, hi₀, rfl⟩ := Option.map_eq_some_iff.mp hi
    have hmem₀ : lru₀ ∈ s.lru := List.mem_iff_getElem?.mpr ⟨i, hi₀⟩
    by_cases hil : l = i
    · subst hil
      simp only [if_true] at hz hseg
      rcases List.mem_append.mp hz with hz₀ | hz₀
      · rcases update_core_cases hd with ⟨rfl, ⟨⟩⟩ | ⟨-, hd⟩
        · exact h.stv lru₀ hmem₀ hseg z hz₀ c hc
        · exact h.stv lru₀ hmem₀ hseg z hz₀ d hd
      · obtain rfl := List.mem_singleton.mp hz₀
        rcases update_core_cases hd with ⟨-, ⟨⟩⟩ | ⟨hne, -⟩
        · by_contra hp
          have := hstv (by simpa using hp)
          rw [Exp.segLru, hi₀] at this
          simp [hseg] at this
        · exact absurd rfl hne
    · simp only [hil, if_false] at hz hseg
      rcases update_core_cases hd with ⟨rfl, ⟨⟩⟩ | ⟨-, hd⟩
      · exact h.stv lru₀ hmem₀ hseg z hz c hc
      · exact h.stv lru₀ hmem₀ hseg z hz d hd
  · rcases update_core_cases hd with ⟨rfl, ⟨⟩⟩ | ⟨-, hd⟩
    · exact h.nuke z c hz hc
    · exact h.nuke z d hz hd

/-- An objcore goes off its list. -/
def unlist (s : Exp T) (oc : ℕ) (c : Core T) : Exp T := (vlistRemove s oc).setCore oc (some { c with onLru := false })

omit [LinearOrder T] in
/-- What has the flag is taken off a list that it is on. -/
theorem ExpInv.unlist (h : ExpInv s) (hc : s.core oc = some c) (hl : c.onLru = true) : ExpInv (unlist s oc c) := by
  have hin : oc ∈ listed s.lru := (h.flag oc c hc).mp hl
  have hmem := mem_listed_erase oc h.nodup
  have hlive : ∀ z, (Function.update s.core oc (some { c with onLru := false }) z).isSome = (s.core z).isSome := fun z => by
    by_cases hz : z = oc
    · subst hz
      simp [hc]
    · rw [Function.update_of_ne hz]
  refine ⟨h.heap.congr hlive, fun z d hd => ?_, fun z hz => ?_, h.nodup.sublist (listed_erase_sublist _ _),
    fun z d hd => ?_, fun p hp => (hlive p.2).trans (h.hands p hp), fun z d hd hdp => ?_,
    fun lru hlru hseg z hz d hd => ?_, fun z d hz hd => ?_, ?_⟩
  · refine Iff.trans ?_ (hmem z).symm
    rcases update_core_cases hd with ⟨rfl, ⟨⟩⟩ | ⟨hz, hd⟩
    · simp
    · simp only [hz, ne_eq, not_false_eq_true, true_and]
      exact h.flag z d hd
  · obtain ⟨hz1, hz2⟩ := h.lru z ((hmem z).mp hz).2
    exact ⟨(hlive z).trans hz1, hz2⟩
  · rcases update_core_cases hd with ⟨rfl, ⟨⟩⟩ | ⟨-, hd⟩
    · exact h.refs z c hc
    · exact h.refs z d hd
  · rcases update_core_cases hd with ⟨rfl, ⟨⟩⟩ | ⟨-, hd⟩
    · exact h.silo z c hc hdp
    · exact h.silo z d hd hdp
  · obtain ⟨lru₀, hlru₀, rfl⟩ := List.mem_map.mp hlru
    have hz₀ := List.mem_of_mem_erase hz
    rcases update_core_cases hd with ⟨rfl, ⟨⟩⟩ | ⟨-, hd⟩
    · exact h.stv lru₀ hlru₀ hseg z hz₀ c hc
    · exact h.stv lru₀ hlru₀ hseg z hz₀ d hd
  · rcases update_core_cases hd with ⟨rfl, ⟨⟩⟩ | ⟨-, hd⟩
    · exact h.nuke z c hz hc
    · exact h.nuke z d hz hd
  · show (s.missed || !s.lru.any fun lru => lru.list.contains oc) = false
    rw [h.missed, any_contains.mpr hin]
    rfl

/-- What is on no list is taken off the heap; the reference is in hand. -/
theorem ExpInv.take (taker : Taker) (h : ExpInv s) (hc : s.core oc = some c) (hl : c.onLru = false)
    (hnuke : taker = .nuke → c.persistent = false) (hs : heapDelete pg s oc junk = some s') :
    ExpInv { s' with hands := (taker, oc) :: s'.hands } := by
  obtain ⟨h', rfl, hheap, hon, -, hidx⟩ := heapDelete_spec h.heap hc hs
  have hlive : (s.core oc).isSome := by rw [hc]; rfl
  refine ⟨hheap, h.flag, fun z hz => ?_, h.nodup, fun z d hd => ?_, fun p hp => ?_, h.silo, h.stv, fun z d hz hd => ?_,
    h.missed⟩
  · obtain ⟨hz1, hz2⟩ := h.lru z hz
    have hzo : z ≠ oc := fun he => by
      rw [he] at hz
      rw [(h.flag oc c hc).mpr hz] at hl
      cases hl
    exact ⟨hz1, (hidx z hz1).mpr ⟨hzo, hz2⟩⟩
  · have hlz : (s.core z).isSome := by rw [show s.core z = some d from hd]; rfl
    have hrefs := h.refs z d hd
    by_cases hz : z = oc
    · subst hz
      have hoff : onHeap h' z = 0 := if_neg fun hne => ((hidx z hlz).mp hne).1 rfl
      have hon' : onHeap s.heap z = 1 := if_pos hon
      have hin : inHand ((taker, z) :: s.hands) z = inHand s.hands z + 1 := by simp [inHand]
      simp only [hoff, hin]
      omega
    · have hon' : onHeap h' z = onHeap s.heap z := by
        simp only [onHeap, hidx z hlz, hz, ne_eq, not_false_eq_true, true_and]
      have hin : inHand ((taker, oc) :: s.hands) z = inHand s.hands z := by simp [inHand, Ne.symm hz]
      simp only [hon', hin]
      exact hrefs
  · rcases List.mem_cons.mp hp with rfl | hp
    · exact hlive
    · exact h.hands p hp
  · rcases List.mem_cons.mp hz with he | hz
    · obtain ⟨htaker, rfl⟩ := Prod.mk.inj he
      obtain rfl : c = d := Option.some.inj (hc.symm.trans hd)
      exact hnuke htaker.symm
    · exact h.nuke z d hz hd

end OnOff

/-! ## The functions -/

section Functions

omit [LinearOrder T] in
@[simp] theorem setOthers_self (s : Exp T) (oc : ℕ) : s.setOthers oc (s.others oc) = s := by simp [Exp.setOthers]

omit [LinearOrder T] in
@[simp] theorem setOthers_twice (s : Exp T) (oc m n : ℕ) : (s.setOthers oc m).setOthers oc n = s.setOthers oc n := by
  simp [Exp.setOthers]

omit [LinearOrder T] in
@[simp] theorem setOthers_others (s : Exp T) (oc n : ℕ) : (s.setOthers oc n).others oc = n := Function.update_self _ _ _

omit [LinearOrder T] in
/-- A change of an objcore that no one else can see. -/
theorem ExpInv.setCore (h : ExpInv s) (c' : Core T) (hc : s.core oc = some c) (hl : c'.onLru = c.onLru) (hr : c'.refcnt = c.refcnt)
    (hp : c'.persistent = true → c.persistent = true ∧ c'.busy = false ∧ c'.dontMove = true) :
    ExpInv (s.setCore oc (some c')) := by
  have := h.update c' hc (s.others oc) hl (by rw [hr]) fun hpers => by
    obtain ⟨h1, h2, h3⟩ := hp hpers
    exact ⟨h1, hr.trans (h.silo oc c hc h1).1, h2, h3⟩
  rwa [show (s.setCore oc (some c')).setOthers oc (s.others oc) = s.setCore oc (some c') from
    setOthers_self (s.setCore oc (some c')) oc] at this

/-- The counts of references are not looked at. -/
theorem heapInsert_setOthers {z n : ℕ} (hs : heapInsert pg s oc = some s') :
    heapInsert pg (s.setOthers z n) oc = some (s'.setOthers z n) ∧ s'.others = s.others := by
  rw [heapInsert] at hs ⊢
  obtain ⟨h, hins, hs⟩ := Option.bind_eq_some_iff.mp hs
  split_ifs at hs with hne
  cases hs
  refine ⟨?_, rfl⟩
  simp only [Exp.setOthers, hins, Option.bind_eq_bind, Option.bind_some]
  rw [if_pos hne]

omit [LinearOrder T] in
theorem lruInsert_setOthers {z n : ℕ} (hs : lruInsert s l oc = some s') :
    lruInsert (s.setOthers z n) l oc = some (s'.setOthers z n) ∧ s'.others = s.others := by
  rw [lruInsert] at hs ⊢
  obtain ⟨s₁, hs₁, hs⟩ := Option.bind_eq_some_iff.mp hs
  rw [vlistInsert] at hs₁ ⊢
  split_ifs at hs₁ with hl
  cases hs₁
  obtain ⟨c, hc, hs⟩ := Option.bind_eq_some_iff.mp hs
  cases hs
  refine ⟨?_, rfl⟩
  rw [if_pos (show l < (s.setOthers z n).lru.length from hl)]
  simp only [Exp.setOthers, Option.bind_eq_bind, Option.bind_some]
  rw [show s.core oc = some c from hc]
  rfl

/-- **`EXP_Inject`** -/
theorem expInject_inv {ttl : T} (h : ExpInv s) (hpos : 0 < s.others oc) (hseg : s.segLru l)
    (hroom : s.heap.next < 2 ^ 32 - 2 * rowWidth) (hs : expInject pg s oc l ttl = some s') : ExpInv s' := by
  rw [expInject] at hs
  obtain ⟨c, hc, hs⟩ := Option.bind_eq_some_iff.mp hs
  split_ifs at hs with h0
  obtain ⟨s₁, hs₁, hs⟩ := Option.bind_eq_some_iff.mp hs
  obtain ⟨s₂, hs₂, hs⟩ := Option.bind_eq_some_iff.mp hs
  cases hs
  have hout : c.onLru = false := by
    by_contra hon
    exact (h.lru oc ((h.flag oc c hc).mp (by simpa using hon))).2 h0
  have hset := h.setCore { c with timerWhen := ttl } hc rfl rfl fun hp => ⟨hp, (h.silo oc c hc hp).2⟩
  obtain ⟨hpush, hcore, hlru, hon⟩ := hset.push (Function.update_self _ _ _) h0 hpos hroom hs₁
  obtain ⟨hins, hoth⟩ := lruInsert_setOthers (z := oc) (n := s₁.others oc - 1) hs₂
  rw [hoth]
  refine hpush.enlist (c := { c with timerWhen := ttl }) ?_ hon hout (fun _ => ?_) hins
  · exact (congrFun hcore oc).trans (Function.update_self _ _ _)
  · simp only [Exp.segLru, Exp.setOthers, hlru]
    exact hseg

/-- **`EXP_Insert`** -/
theorem expInsert_inv {o : Object T} (h : ExpInv s) (hroom : s.heap.next < 2 ^ 32 - 2 * rowWidth)
    (hs : expInsert pg s o = some s') : ExpInv s' := by
  rw [expInsert] at hs
  obtain ⟨oc, -, hs⟩ := Option.bind_eq_some_iff.mp hs
  obtain ⟨c, hc, hs⟩ := Option.bind_eq_some_iff.mp hs
  obtain ⟨when, -, hs⟩ := Option.bind_eq_some_iff.mp hs
  split_ifs at hs with hcond
  obtain ⟨hbusy, -, -, -, h0⟩ := hcond
  obtain ⟨s₁, hs₁, hs⟩ := Option.bind_eq_some_iff.mp hs
  have hout : c.onLru = false := by
    by_contra hon
    exact (h.lru oc ((h.flag oc c hc).mp (by simpa using hon))).2 h0
  have hpers : c.persistent = false := by
    by_contra hp
    rw [(h.silo oc c hc (by simpa using hp)).2.1] at hbusy
    cases hbusy
  -- the new reference is one of the caller until the heap has it
  have hset := h.update { c with refcnt := c.refcnt + 1, timerWhen := when } hc (s.others oc + 1) rfl
    (by simp only; omega) fun hp => by
      simp only [hpers] at hp
      cases hp
  obtain ⟨hins, hoth⟩ := heapInsert_setOthers (z := oc) (n := s.others oc + 1) hs₁
  obtain ⟨hpush, hcore, hlru, hon⟩ := hset.push (Function.update_self _ _ _) h0 (by simp) hroom hins
  have hback : ((s₁.setOthers oc (s.others oc + 1)).setOthers oc ((s₁.setOthers oc (s.others oc + 1)).others oc - 1)) =
      s₁ := by
    rw [setOthers_others, setOthers_twice, Nat.add_sub_cancel, show s.others = s₁.others from hoth.symm, setOthers_self]
  rw [hback] at hpush
  cases hst : o.objstore with
  | none =>
    rw [hst] at hs
    cases hs
    exact hpush
  | some l =>
    rw [hst] at hs
    refine hpush.enlist (c := { c with refcnt := c.refcnt + 1, timerWhen := when }) ?_ hon hout (fun hp => ?_) hs
    · exact (congrFun hcore oc).trans (Function.update_self _ _ _)
    · simp only [hpers] at hp
      cases hp

omit [LinearOrder T] in
/-- The flag is set again. -/
theorem relist (hc : s.core oc = some c) (hl : c.onLru = true) :
    lruInsert (unlist s oc c) l oc = vlistInsert (vlistRemove s oc) l oc := by
  have hcore : (unlist s oc c).core oc = some { c with onLru := false } := Function.update_self _ _ _
  have hsame : ({ c with onLru := true } : Core T) = c := by rw [← hl]
  rw [lruInsert, vlistInsert, vlistInsert]
  by_cases hlen : l < (vlistRemove s oc).lru.length
  · rw [if_pos hlen, if_pos (show l < (unlist s oc c).lru.length from hlen)]
    simp only [Option.bind_eq_bind, Option.bind_some, hcore]
    simp only [Exp.setCore, unlist, vlistRemove, Function.update_idem, hsame]
    rw [← hc, Function.update_eq_self]
  · rw [if_neg hlen, if_neg (show ¬ l < (unlist s oc c).lru.length from hlen)]
    rfl

omit [LinearOrder T] in
/-- **`EXP_Touch`** -/
theorem expTouch_inv {o : Object T} {locked : Bool} (h : ExpInv s) (hs : expTouch s o locked = some s') : ExpInv s' := by
  rw [expTouch] at hs
  cases hoc : o.objcore with
  | none =>
    rw [hoc] at hs
    cases hs
    exact h
  | some oc =>
    rw [hoc] at hs
    obtain ⟨c, hc, hs⟩ := Option.bind_eq_some_iff.mp hs
    by_cases hmove : c.dontMove = true
    · rw [if_pos hmove] at hs
      cases hs
      exact h
    · rw [if_neg hmove] at hs
      have hpers : c.persistent = false := by
        by_contra hp
        exact hmove (h.silo oc c hc (by simpa using hp)).2.2
      cases hst : o.objstore with
      | none =>
        rw [hst] at hs
        cases hs
        exact h
      | some l =>
        rw [hst] at hs
        simp only at hs
        by_cases hlock : locked = true
        · rw [if_pos hlock] at hs
          cases hs
          exact h
        · rw [if_neg hlock] at hs
          by_cases hl : c.onLru = true
          · rw [if_pos hl] at hs
            -- it comes off its list, and goes on the list of the stevedore
            have hun := h.unlist hc hl
            have hcore : (unlist s oc c).core oc = some { c with onLru := false } := Function.update_self _ _ _
            have hins : lruInsert (unlist s oc c) l oc = some s' := by rw [relist hc hl, hs]
            refine hun.enlist hcore (h.lru oc ((h.flag oc c hc).mp hl)).2 rfl (fun hp => ?_) hins
            simp only [hpers] at hp
            cases hp
          · rw [if_neg hl] at hs
            cases hs
            exact h

omit [LinearOrder T] in
/-- Another heap with the same objcores. -/
theorem ExpInv.setHeap {h' : Heap ℕ} (h : ExpInv s) (hheap : HeapInv s.core h')
    (hidx : ∀ z, (s.core z).isSome → (h'.idx z ≠ 0 ↔ s.heap.idx z ≠ 0)) : ExpInv { s with heap := h' } := by
  refine ⟨hheap, h.flag, fun z hz => ?_, h.nodup, fun z d hd => ?_, h.hands, h.silo, h.stv, h.nuke, h.missed⟩
  · obtain ⟨hz1, hz2⟩ := h.lru z hz
    exact ⟨hz1, (hidx z hz1).mpr hz2⟩
  · have hlz : (s.core z).isSome := by rw [show s.core z = some d from hd]; rfl
    have hon : onHeap h' z = onHeap s.heap z := by simp only [onHeap, hidx z hlz]
    simp only [hon]
    exact h.refs z d hd

/-- **`EXP_Rearm`** -/
theorem expRearm_inv {o : Object T} (h : ExpInv s) (hs : expRearm pg s o junk = some s') : ExpInv s' := by
  rw [expRearm] at hs
  cases hoc : o.objcore with
  | none =>
    rw [hoc] at hs
    cases hs
    exact h
  | some oc =>
    rw [hoc] at hs
    obtain ⟨c, hc, hs⟩ := Option.bind_eq_some_iff.mp hs
    by_cases h0 : s.heap.idx oc = 0
    · rw [if_pos h0] at hs
      cases hs
      exact h
    · rw [if_neg h0] at hs
      obtain ⟨when, -, hs⟩ := Option.bind_eq_some_iff.mp hs
      by_cases hw : when = c.timerWhen
      · rw [if_pos hw] at hs
        cases hs
        exact h
      · rw [if_neg hw] at hs
        obtain ⟨s₁, hs₁, hs⟩ := Option.bind_eq_some_iff.mp hs
        have hset := h.setCore { c with timerWhen := when } hc rfl rfl fun hp => ⟨hp, (h.silo oc c hc hp).2⟩
        have hcore : (s.setCore oc (some { c with timerWhen := when })).core oc = some { c with timerWhen := when } :=
          Function.update_self _ _ _
        obtain ⟨h₁, rfl, hheap₁, -, hnext, hidx₁⟩ := heapDelete_spec hset.heap hcore hs₁
        have hlive : ((s.setCore oc (some { c with timerWhen := when })).core oc).isSome := by rw [hcore]; rfl
        have hgone : h₁.idx oc = 0 := by
          by_contra hne
          exact ((hidx₁ oc hlive).mp hne).1 rfl
        have hroom : h₁.next < 2 ^ 32 - 2 * rowWidth := by
          have := h.heap.placed.space.next_le
          have := h.heap.placed.space.room
          simp only [Exp.setCore] at hnext
          omega
        obtain ⟨h₂, rfl, hheap₂, hidx₂⟩ := heapInsert_spec (s := { s.setCore oc (some { c with timerWhen := when }) with
          heap := h₁ }) hheap₁ hcore hgone hroom hs
        refine hset.setHeap hheap₂ fun z hz => ?_
        rw [hidx₂ z hz, hidx₁ z hz]
        by_cases hz : z = oc
        · subst hz
          simp only [true_or, true_iff]
          exact h0
        · simp only [hz, false_or, ne_eq, not_false_eq_true, true_and]

theorem objectCmp_update {core : ℕ → Option (Core T)} (hc : core oc = some c) (hw : c'.timerWhen = c.timerWhen) :
    objectCmp (Function.update core oc (some c')) = objectCmp core := by
  funext a b
  have hwhen : ∀ z, (Function.update core oc (some c') z).map Core.timerWhen = (core z).map Core.timerWhen := fun z => by
    by_cases hz : z = oc
    · subst hz
      simp [hc, hw]
    · rw [Function.update_of_ne hz]
  have hcmp : ∀ core : ℕ → Option (Core T), objectCmp core a b =
      ((core a).map Core.timerWhen).elim false fun x => ((core b).map Core.timerWhen).elim false fun y => decide (x < y) := by
    intro core
    unfold objectCmp
    cases core a <;> cases core b <;> rfl
  rw [hcmp, hcmp, hwhen, hwhen]

/-- `exp_timer` takes the objcore off the heap before it takes it off the list, which comes to the same. -/
theorem heapDelete_unlist (hc : s.core oc = some c) (hs : heapDelete pg s oc junk = some s') :
    heapDelete pg (unlist s oc c) oc junk = some (unlist s' oc c) := by
  rw [heapDelete] at hs ⊢
  obtain ⟨h, hdel, hs⟩ := Option.bind_eq_some_iff.mp hs
  split_ifs at hs with h0
  cases hs
  have hcmp : objectCmp (unlist s oc c).core = objectCmp s.core := objectCmp_update hc rfl
  rw [hcmp, show (unlist s oc c).heap = s.heap from rfl, hdel]
  simp only [Option.bind_eq_bind, Option.bind_some]
  rw [if_pos h0]
  simp only [unlist, vlistRemove, Exp.setCore, Bool.or_right_comm]

/-- **`exp_timer`** under the lock -/
theorem expTimer_inv {t : T} (h : ExpInv s) (hs : expTimer pg s t junk = some s') : ExpInv s' := by
  rw [expTimer] at hs
  cases hroot : binheapRoot s.heap with
  | none =>
    rw [hroot] at hs
    cases hs
    exact h
  | some oc =>
    rw [hroot] at hs
    obtain ⟨c, hc, hs⟩ := Option.bind_eq_some_iff.mp hs
    by_cases hw : c.timerWhen > t
    · rw [if_pos hw] at hs
      cases hs
      exact h
    · rw [if_neg hw] at hs
      by_cases hne : s.heap.idx oc ≠ 0
      swap
      · rw [if_neg hne] at hs
        cases hs
      rw [if_pos hne] at hs
      obtain ⟨s₁, hs₁, hs⟩ := Option.bind_eq_some_iff.mp hs
      by_cases hl : c.onLru = true
      · simp only [hl, if_true] at hs
        cases hs
        exact (h.unlist hc hl).take .timer (Function.update_self _ _ _) rfl (fun he => by cases he)
          (heapDelete_unlist hc hs₁)
      · simp only [hl] at hs
        cases hs
        exact h.take .timer hc (by simpa using hl) (fun he => by cases he) hs₁

omit [LinearOrder T] in
theorem nukeScan_mem {ocs : List ℕ} (hs : nukeScan s ocs = some (some oc)) : oc ∈ ocs := by
  induction ocs with
  | nil => cases hs
  | cons z ocs ih =>
    rw [nukeScan] at hs
    obtain ⟨c, -, hs⟩ := Option.bind_eq_some_iff.mp hs
    split_ifs at hs
    · exact List.mem_cons_of_mem _ (ih hs)
    · cases hs
      exact List.mem_cons_self
    · exact List.mem_cons_of_mem _ (ih hs)

/-- **`EXP_NukeOne`** under the lock, on the list of a stevedore -/
theorem expNukeOne_inv (h : ExpInv s) (hstv : s.stvLru l) (hs : expNukeOne pg s l junk = some s') : ExpInv s' := by
  rw [expNukeOne] at hs
  obtain ⟨lru, hlru, hs⟩ := Option.bind_eq_some_iff.mp hs
  obtain ⟨found, hscan, hs⟩ := Option.bind_eq_some_iff.mp hs
  have hmem : lru ∈ s.lru := List.mem_iff_getElem?.mpr ⟨l, hlru⟩
  have hseg : lru.seg = false := by
    rw [Exp.stvLru, hlru] at hstv
    simpa using hstv
  cases found with
  | none =>
    cases hs
    exact h
  | some oc =>
    obtain ⟨c, hc, hs⟩ := Option.bind_eq_some_iff.mp hs
    obtain ⟨s₁, hs₁, hs⟩ := Option.bind_eq_some_iff.mp hs
    cases hs
    have hin := nukeScan_mem hscan
    have hl : c.onLru = true := (h.flag oc c hc).mpr (List.mem_flatMap.mpr ⟨lru, hmem, hin⟩)
    have hpers := h.stv lru hmem hseg oc hin c hc
    exact (h.unlist hc hl).take .nuke (Function.update_self _ _ _) rfl (fun _ => hpers) hs₁

end Functions

end Varnish.Expire
