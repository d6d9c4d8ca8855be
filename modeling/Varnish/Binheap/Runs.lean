import Varnish.Binheap.Queue

/-!
# Varnish.Binheap.Runs — the heap as a priority queue, over whole runs

* `QueueOk`: heap order, the root, the reported indices, the stored elements and the rows.
* `reach_queueOk`: it holds in every state of every run of insertions and deletions that are `Safe`.
* `queue_broken`: a run of four insertions and one deletion after which the root is not a least element.
-/

namespace Varnish.Binheap

open Varnish.Lib

variable {E : Type} [DecidableEq E]

section Sys

/-- The heap, and the elements that were inserted and deleted so far. -/
structure Sys (E : Type) where
  heap : Heap E
  ins : List E
  del : List E

inductive Act (E : Type) where
  | insert (p : E)
  | delete (idx junk : ℕ)

def sysStep (lt : E → E → Bool) (pg : Page) (s : Sys E) : Act E → Option (Sys E)
  | .insert p => (binheapInsert lt pg s.heap p).map fun h => { s with heap := h, ins := p :: s.ins }
  | .delete idx junk => do
    let x ← s.heap.A idx
    let h ← binheapDelete lt pg s.heap idx junk
    some { s with heap := h, del := x :: s.del }

/-- What the callers promise: an element is not inserted while it is stored, and only an index in use is deleted. -/
def Act.Ok (s : Sys E) : Act E → Prop
  | .insert p => ∀ i < s.heap.next, 0 < i → s.heap.cell i ≠ some p
  | .delete idx _ => 0 < idx ∧ idx < s.heap.next

/-- The condition: fewer elements than the 32-bit counters can take, and no deletion that meets an index whose children
`child` gets wrong. -/
def Act.Safe (lt : E → E → Bool) (pg : Page) (s : Sys E) : Act E → Prop
  | .insert _ => s.heap.next < 2 ^ 32 - 2 * rowWidth
  | .delete idx _ => DeleteSafe lt pg s.heap idx

instance (s : Sys E) : (a : Act E) → Decidable (a.Ok s)
  | .insert p => inferInstanceAs (Decidable (∀ i < s.heap.next, 0 < i → s.heap.cell i ≠ some p))
  | .delete idx _ => inferInstanceAs (Decidable (0 < idx ∧ idx < s.heap.next))

instance (lt : E → E → Bool) (pg : Page) (s : Sys E) : (a : Act E) → Decidable (a.Safe lt pg s)
  | .insert _ => inferInstanceAs (Decidable (s.heap.next < 2 ^ 32 - 2 * rowWidth))
  | .delete idx _ => inferInstanceAs (Decidable (DeleteSafe lt pg s.heap idx))

/-- The elements, in the order of their indices. -/
def contents (h : Heap E) : List (Option E) := (List.range' 1 (h.next - 1)).map h.A

end Sys

section Result

/-- A correct priority queue. -/
structure QueueOk (lt : E → E → Bool) (pg : Page) (s : Sys E) : Prop where
  /-- No element is less than the one at the parent index. -/
  order : ∀ i, 1 < i → i < s.heap.next → ∃ x y, s.heap.A i = some x ∧ s.heap.A (parent pg i) = some y ∧ lt x y = false
  /-- The root is `NULL` exactly if nothing is stored. -/
  root_none : binheapRoot s.heap = none ↔ contents s.heap = []
  /-- The root is a least element. -/
  root_least : ∀ r, binheapRoot s.heap = some r → some r ∈ contents s.heap ∧
    ∀ x, some x ∈ contents s.heap → lt x r = false
  /-- The last index reported for a stored element is where it is. -/
  idx_stored : ∀ i x, 0 < i → i < s.heap.next → s.heap.A i = some x → s.heap.idx x = i
  /-- The last index reported for a deleted element is 0. -/
  idx_deleted : ∀ x ∈ s.del, some x ∉ contents s.heap → s.heap.idx x = 0
  /-- What is stored is what was inserted and not deleted. -/
  stored : (contents s.heap ++ s.del.map some).Perm (s.ins.map some)
  /-- The rows cover the indices in use. -/
  cover : s.heap.length ≥ s.heap.next

/-- The invariant of the runs; `st` lists what is stored. -/
structure SysInv (lt : E → E → Bool) (pg : Page) (s : Sys E) (st : List E) : Prop where
  queue : QInv lt pg s.heap
  nodup : st.Nodup
  mem : ∀ x, x ∈ st ↔ Stored s.heap x
  perm : (st ++ s.del).Perm s.ins
  gone : ∀ x ∈ s.del, ¬ Stored s.heap x → s.heap.idx x = 0

variable {lt : E → E → Bool} {pg : Page} {s s' : Sys E} {st : List E} {h : Heap E}

omit [DecidableEq E] in
theorem mem_contents (hs : Space h) {x : E} : some x ∈ contents h ↔ Stored h x := by
  have hle := hs.next_le
  rw [contents, List.mem_map]
  constructor
  · rintro ⟨i, hi, hx⟩
    rw [List.mem_range'_1] at hi
    exact ⟨i, by omega, by omega, by rw [← hs.A (by omega), hx]⟩
  · rintro ⟨i, h0, hi, hx⟩
    exact ⟨i, by rw [List.mem_range'_1]; omega, by rw [hs.A (by omega), hx]⟩

omit [DecidableEq E] in
theorem contents_perm (hq : QInv lt pg h) (hnd : st.Nodup) (hmem : ∀ x, x ∈ st ↔ Stored h x) :
    (contents h).Perm (st.map some) := by
  have hs := hq.space
  have hle := hs.next_le
  have hfull : ∀ i ∈ List.range' 1 (h.next - 1), 0 < i ∧ i < h.next := fun i hi => by
    rw [List.mem_range'_1] at hi
    omega
  refine (List.perm_ext_iff_of_nodup ?_ (hnd.map (Option.some_injective E))).mpr fun o => ?_
  · refine List.Nodup.map_on (fun i hi j hj hij => ?_) List.nodup_range'
    obtain ⟨hi0, hin⟩ := hfull i hi
    obtain ⟨hj0, hjn⟩ := hfull j hj
    rw [hs.A (by omega), hs.A (by omega)] at hij
    obtain ⟨x, hx⟩ := hq.filled.full i hi0 hin
    exact (hq.filled.idx i x hi0 hin hx).symm.trans (hq.filled.idx j x hj0 hjn (hij ▸ hx))
  · cases o with
    | none =>
      refine ⟨fun hn => ?_, fun hn => ?_⟩
      · obtain ⟨i, hi, hx⟩ := List.mem_map.mp hn
        obtain ⟨hi0, hin⟩ := hfull i hi
        obtain ⟨x, hx'⟩ := hq.filled.full i hi0 hin
        rw [hs.A (by omega), hx'] at hx
        cases hx
      · obtain ⟨x, -, hx⟩ := List.mem_map.mp hn
        cases hx
    | some x =>
      rw [mem_contents hs, ← hmem x, List.mem_map]
      exact ⟨fun hx => ⟨x, hx, rfl⟩, fun ⟨y, hy, he⟩ => Option.some.inj he ▸ hy⟩

omit [DecidableEq E] in
theorem SysInv.queueOk (hlt : WeakOrder lt) (hinv : SysInv lt pg s st) : QueueOk lt pg s := by
  have hq := hinv.queue
  have hs := hq.space
  have hle := hs.next_le
  have hpos := hs.next_pos
  have hroot : binheapRoot s.heap = s.heap.cell 1 := hs.A hs.one_lt_length
  refine ⟨fun i h1 hi => ?_, ?_, fun r hr => ?_, fun i x h0 hi hx => ?_, fun x hx hc => ?_, ?_, hle⟩
  · obtain ⟨hp0, hpi⟩ := up_parent pg s.heap.next i h1 hi
    obtain ⟨x, hx⟩ := hq.filled.full i (by omega) hi
    obtain ⟨y, hy⟩ := hq.filled.full (parent pg i) hp0 (by omega)
    have hord := hq.ordered i h1 hi
    rw [hx, hy] at hord
    exact ⟨x, y, by rw [hs.A (by omega), hx], by rw [hs.A (by omega), hy], hord⟩
  · rw [hroot, contents, List.map_eq_nil_iff, List.range'_eq_nil_iff]
    refine ⟨fun hn => ?_, fun hn => hq.empty (by omega)⟩
    by_contra h1
    obtain ⟨x, hx⟩ := hq.filled.full 1 (by omega) (by omega)
    rw [hx] at hn
    cases hn
  · rw [hroot] at hr
    have h1 : 1 < s.heap.next := by
      by_contra h1
      rw [hq.empty (by omega)] at hr
      cases hr
    refine ⟨(mem_contents hs).mpr ⟨1, by omega, h1, hr⟩, fun x hx => ?_⟩
    obtain ⟨i, h0, hi, hx⟩ := (mem_contents hs).mp hx
    have := hq.ordered.root_least hlt.lift (up_parent pg _) i h0 hi
    rw [hx, hr] at this
    exact this
  · rw [hs.A (by omega)] at hx
    exact hq.filled.idx i x h0 hi hx
  · exact hinv.gone x hx fun hst => hc ((mem_contents hs).mpr hst)
  · refine ((contents_perm hq hinv.nodup hinv.mem).append_right _).trans ?_
    rw [← List.map_append]
    exact hinv.perm.map _

/-- **One operation** that is safe does not fail and keeps the invariant. -/
theorem sysInv_step {a : Act E} (hlt : WeakOrder lt) (hinv : SysInv lt pg s st) (hok : a.Ok s) (hsafe : a.Safe lt pg s) :
    ∃ s' st', sysStep lt pg s a = some s' ∧ SysInv lt pg s' st' := by
  cases a with
  | insert p =>
    have hp : ¬ Stored s.heap p := fun ⟨i, h0, hi, hx⟩ => hok i hi h0 hx
    obtain ⟨h', hres, hq', hins⟩ := insert_spec hlt hinv.queue hp hsafe
    refine ⟨{ s with heap := h', ins := p :: s.ins }, p :: st, by rw [sysStep, hres]; rfl, hq', ?_, fun x => ?_, ?_,
      fun x hx hst => ?_⟩
    · exact List.nodup_cons.mpr ⟨fun hx => hp ((hinv.mem p).mp hx), hinv.nodup⟩
    · rw [List.mem_cons, hinv.mem x, hins.stored x]
    · exact hinv.perm.cons p
    · have hst' : ¬ Stored s.heap x := fun h => hst ((hins.stored x).mpr (.inr h))
      rw [hins.other x hst]
      exact hinv.gone x hx hst'
  | delete idx junk =>
    obtain ⟨h', x, hA, hres, hq', hrem⟩ := delete_spec hlt hinv.queue hok.1 hok.2 hsafe junk
    have hx : x ∈ st := by
      have hs := hinv.queue.space
      refine (hinv.mem x).mpr ⟨idx, hok.1, hok.2, ?_⟩
      rw [← hs.A (lt_of_lt_of_le hok.2 hs.next_le), hA]
    refine ⟨{ s with heap := h', del := x :: s.del }, st.erase x, ?_, hq', hinv.nodup.erase x, fun z => ?_, ?_,
      fun z hz hst => ?_⟩
    · rw [sysStep, hA]
      simp only [Option.bind_eq_bind, Option.bind_some, hres]
    · rw [hinv.nodup.mem_erase_iff, hinv.mem z, hrem.stored z]
    · refine List.perm_middle.trans ?_
      rw [← List.cons_append]
      exact ((List.perm_cons_erase hx).symm.append_right _).trans hinv.perm
    · by_cases hzx : z = x
      · rw [hzx]
        exact hrem.gone
      · have hst' : ¬ Stored s.heap z := fun h => hst ((hrem.stored z).mpr ⟨hzx, h⟩)
        rw [hrem.other z hzx hst']
        exact hinv.gone z ((List.mem_cons.mp hz).resolve_left hzx) hst'

/-- The start: a new heap. -/
def sysNew (junk : ℕ → Option E) (idx : E → ℕ) : Option (Sys E) :=
  (binheapNew junk idx).map fun h => { heap := h, ins := [], del := [] }

/-- What `binheap_new` makes. -/
def newHeap (junk : ℕ → Option E) (idx : E → ℕ) : Heap E :=
  { cell := Function.update junk 1 none, row := Function.update (fun _ => false) 0 true, rows := 16, length := 65536,
    next := 1, idx := idx }

omit [DecidableEq E] in
theorem sysNew_eq (junk : ℕ → Option E) (idx : E → ℕ) :
    sysNew junk idx = some { heap := newHeap junk idx, ins := [], del := [] } := by
  simp [sysNew, binheapNew, binheapAddrow, Heap.setA, rowShift, rowWidth, rootIdx, wrap, newHeap]

omit [DecidableEq E] in
theorem sysInv_new (junk : ℕ → Option E) (idx : E → ℕ) :
    SysInv lt pg { heap := newHeap junk idx, ins := [], del := [] } [] := by
  have hnone : ∀ i, 0 < i → i < (newHeap junk idx).next → False := fun i h0 (hi : i < 1) => by omega
  have hrow : ∀ i, (newHeap junk idx).row i = true ↔ i < 1 := fun i => by
    by_cases hi : i = 0
    · subst hi
      simp [newHeap]
    · simp [newHeap, hi]
  have hspace : Space (newHeap junk idx) :=
    ⟨⟨1, by rw [rowWidth_eq]; rfl, by simp [newHeap], hrow⟩, by simp [newHeap], by simp [newHeap],
      by rw [rowWidth_eq]; simp [newHeap]⟩
  have hq : QInv lt pg (newHeap junk idx) :=
    ⟨hspace, ⟨fun i h0 hi => (hnone i h0 hi).elim, fun i x h0 hi => (hnone i h0 hi).elim⟩,
      fun i h1 hi => (hnone i (by omega) hi).elim, fun _ => by simp [newHeap]⟩
  refine ⟨hq, List.nodup_nil, fun x => ?_, List.Perm.refl _, fun x hx => by cases hx⟩
  exact ⟨fun hx => (by cases hx), fun ⟨i, h0, hi, _⟩ => (hnone i h0 hi).elim⟩

/-- **The heap is a priority queue**: in every state of every run from `binheap_new` on, of any page size, order and
memory, in which all operations are safe; and the next safe operation does not fail. -/
theorem reach_queueOk {junk : ℕ → Option E} {idx : E → ℕ} {s₀ : Sys E} (hlt : WeakOrder lt)
    (h0 : sysNew junk idx = some s₀)
    (h : Reach (sysStep lt pg) (fun s a => a.Ok s ∧ a.Safe lt pg s) s₀ s) :
    QueueOk lt pg s ∧ ∀ a : Act E, a.Ok s → a.Safe lt pg s → (sysStep lt pg s a).isSome := by
  obtain ⟨st, hinv⟩ : ∃ st, SysInv lt pg s st := by
    refine Reach.inv (I := fun s => ∃ st, SysInv lt pg s st) ?_ ?_ h
    · rw [sysNew_eq] at h0
      cases h0
      exact ⟨[], sysInv_new junk idx⟩
    · rintro s a s' ⟨st, hinv⟩ ⟨hok, hsafe⟩ hs
      obtain ⟨s1, st1, hs1, hinv1⟩ := sysInv_step hlt hinv hok hsafe
      rw [hs1] at hs
      cases hs
      exact ⟨st1, hinv1⟩
  refine ⟨hinv.queueOk hlt, fun a hok hsafe => ?_⟩
  obtain ⟨s1, st1, hs1, -⟩ := sysInv_step hlt hinv hok hsafe
  rw [hs1]
  rfl

end Result

/-! ## Runs -/

section Runs

def natLt (a b : ℕ) : Bool := decide (a < b)

theorem natLt_weak : WeakOrder natLt where
  asymm a b h := by
    simp only [natLt, decide_eq_true_eq, decide_eq_false_iff_not] at h ⊢
    omega
  ntrans a b c h1 h2 := by
    simp only [natLt, decide_eq_false_iff_not] at h1 h2 ⊢
    omega

/-- Pages of four pointers: the second level is the bottom row. -/
def smallPage : Page := ⟨2, by decide, by decide⟩

/-- Pages of 4096 bytes. -/
def page4k : Page := ⟨9, by decide, by decide⟩

/-- Six elements, of which the second one is deleted. -/
def safeRun : List (Act ℕ) :=
  [.insert 1, .insert 2, .insert 3, .insert 4, .insert 5, .insert 6, .delete 2 0]

theorem reach_queueOk_safeRun : ∃ s₀ s : Sys ℕ, sysNew (fun _ => none) (fun _ => 0) = some s₀ ∧
    Reach (sysStep natLt smallPage) (fun s a => a.Ok s ∧ a.Safe natLt smallPage s) s₀ s ∧
    (QueueOk natLt smallPage s ∧ ∀ a : Act ℕ, a.Ok s → a.Safe natLt smallPage s → (sysStep natLt smallPage s a).isSome) ∧
    contents s.heap = [some 1, some 4, some 3, some 6, some 5] := by
  have hnew := sysNew_eq (fun _ => none) (fun _ : ℕ => 0)
  have hres : (safeRun.foldlM (sysStep natLt smallPage) ⟨newHeap (fun _ => none) (fun _ => 0), [], []⟩).map
      (fun s => contents s.heap) = some [some 1, some 4, some 3, some 6, some 5] := by decide +kernel
  obtain ⟨s, hs, hc⟩ := Option.map_eq_some_iff.mp hres
  have hreach : Reach (sysStep natLt smallPage) (fun s a => a.Ok s ∧ a.Safe natLt smallPage s) _ s :=
    Reach.of_run (by decide +kernel) hs
  exact ⟨_, s, hnew, hreach, reach_queueOk natLt_weak hnew hreach, hc⟩

/-- Four elements, of which the first one is deleted. -/
def brokenRun : List (Act ℕ) := [.insert 1, .insert 5, .insert 2, .insert 6, .delete 1 0]

theorem queue_broken : ∃ s₀ s : Sys ℕ, sysNew (fun _ => none) (fun _ => 0) = some s₀ ∧
    Reach (sysStep natLt page4k) (fun s a => a.Ok s) s₀ s ∧ ¬ QueueOk natLt page4k s := by
  have hnew := sysNew_eq (fun _ => none) (fun _ : ℕ => 0)
  have hres : (brokenRun.foldlM (sysStep natLt page4k) ⟨newHeap (fun _ => none) (fun _ => 0), [], []⟩).map
      (fun s => (binheapRoot s.heap, contents s.heap)) = some (some 5, [some 5, some 6, some 2]) := by decide +kernel
  obtain ⟨s, hs, hc⟩ := Option.map_eq_some_iff.mp hres
  obtain ⟨hroot, hcont⟩ := Prod.mk.inj hc
  refine ⟨_, s, hnew, Reach.of_run (by decide +kernel) hs, fun hok => ?_⟩
  have hleast := (hok.root_least 5 hroot).2 2 (by rw [hcont]; simp)
  cases hleast

end Runs

end Varnish.Binheap
