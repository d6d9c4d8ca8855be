import Varnish.File.Open

/-!
# Varnish.File.Runs — the file storage over whole runs

* `SmfOk`: the lists of the storage are in order.
* `reach_smfOk`: they are after every run in which no size is rounded to zero, and when all segments are freed, the storage
  is what it was at the start.
* `empty_segment`: a request of 4 GB less one byte gets a segment without any bytes.
-/

namespace Varnish.File

open Varnish.Lib

variable {pagesize : ℕ} {C : List Extent} {s s' s₀ : Sc} {p size : ℕ}

/-! ## The steps -/

section Steps

variable (pagesize)

/-- The condition of an operation: a size that is rounded to zero is asked for only when no segment is free. -/
def Op.Cond (s : Sc) : Op → Prop
  | .alloc size => roundUp pagesize size = 0 → ∀ b < nbucket, s.free b = []
  | .trim _ _ => True
  | .free _ => True

instance (s : Sc) : (op : Op) → Decidable (op.Cond pagesize s)
  | .alloc size => inferInstanceAs (Decidable (roundUp pagesize size = 0 → ∀ b < nbucket, s.free b = []))
  | .trim _ _ => isTrue trivial
  | .free _ => isTrue trivial

variable {pagesize}

theorem findFree_of_empty {bytes : ℕ} (h : ∀ b < nbucket, s.free b = []) : findFree pagesize s bytes = none := by
  rw [findFree, Option.or_eq_none_iff]
  refine ⟨List.findSome?_eq_none_iff.mpr fun i hi => ?_, ?_⟩
  · have hlt := List.mem_range.mp hi
    rw [h _ (by omega), List.head?_nil]
  · rw [h _ (by decide), List.find?_nil]

/-- The space of a `struct storage` is a part of no invariant. -/
theorem Inv.setSpace (h : Inv pagesize C [] s) (hp : p ∈ s.order) (n : ℕ) :
    Inv pagesize C [] (s.set p { s.smf p with space := n }) := by
  have hself : (s.set p { s.smf p with space := n }).smf p = { s.smf p with space := n } := set_smf_self ..
  have hc : Change s (s.set p { s.smf p with space := n }) p [] [] := by
    refine ⟨rfl, rfl, by rw [hself], fun x hx => set_smf_of_ne s _ hx, fun x _ => Iff.rfl, fun x _ => Iff.rfl,
      fun b x _ => Iff.rfl⟩
  refine h.change hc hp h.status.used_nodup ?_ ?_ h.status.free_sorted ?_ (fun hm => absurd hm List.not_mem_nil) ?_
  · rw [hself]
    exact (h.status.mem_used p).trans ⟨fun ha => ha.2, fun ha => ⟨hp, ha⟩⟩
  · intro b
    rw [hself]
    exact (h.status.mem_free b p).trans ⟨fun ha => ha.2, fun ha => ⟨hp, ha⟩⟩
  · rw [hself]
    exact h.status.flist p hp
  · intro ha hL x hx hxp hxa hxL
    rw [hself] at ha
    exact ⟨h.coalesced p hp x hx ha hxa hL hxL, h.coalesced x hx p hp hxa ha hxL hL⟩

theorem smfAlloc_inv {r : Sc × Option ℕ} (h : Inv pagesize C [] s) (hC : FileApart C)
    (hcond : roundUp pagesize size = 0 → ∀ b < nbucket, s.free b = []) (hs : smfAlloc pagesize s size = some r) :
    Inv pagesize C [] r.1 := by
  rw [smfAlloc] at hs
  simp only [bind, Option.bind] at hs
  by_cases h0 : size = 0
  · rw [if_pos h0] at hs
    cases hs
  · rw [if_neg h0] at hs
    by_cases hpage : roundUp pagesize size % pagesize = 0
    · obtain ⟨s₁, r₁, hs₁, hi₁, hr₁⟩ := allocSmf_inv h hC hpage fun hz => findFree_of_empty (hcond hz)
      rw [hs₁] at hs
      cases r₁ with
      | none =>
        cases hs
        exact hi₁
      | some q =>
        obtain ⟨hqu, hqs⟩ := hr₁ q rfl
        simp only at hs
        rw [if_pos hqs] at hs
        cases hs
        exact hi₁.setSpace ((hi₁.status.mem_used q).mp hqu).1 _
    · rw [allocSmf, if_pos hpage] at hs
      cases hs

theorem smfTrim_inv (h : Inv pagesize C [] s) (hC : FileApart C) (hp : p ∈ s.used)
    (hs : smfTrim pagesize s p size = some s') : Inv pagesize C [] s' := by
  rw [smfTrim] at hs
  by_cases hbad : size = 0 ∨ (s.smf p).space < size ∨ (s.smf p).ext.size < size
  · rw [if_pos hbad] at hs
    cases hs
  · rw [if_neg hbad] at hs
    by_cases hlt : roundUp pagesize size < (s.smf p).ext.size
    · rw [if_pos hlt] at hs
      obtain ⟨s₁, hs₁, hs⟩ := Option.bind_eq_some_iff.mp hs
      by_cases hround : roundUp pagesize size = 0 ∨ roundUp pagesize size % pagesize ≠ 0
      · rw [trimSmf, if_pos (by tauto)] at hs₁
        cases hs₁
      · obtain ⟨s₂, hs₂, hi₂, hu₂, he₂⟩ := trimSmf_inv h hC hp (by omega) hlt (by omega)
        rw [hs₂] at hs₁
        cases hs₁
        rw [if_pos (by rw [he₂]; rfl)] at hs
        cases hs
        exact hi₂.setSpace ((hi₂.status.mem_used p).mp (hu₂ ▸ hp)).1 _
    · rw [if_neg hlt] at hs
      cases hs
      exact h

theorem smfStep_inv {op : Op} (h : Inv pagesize C [] s) (hC : FileApart C) (hcalled : op.Called s)
    (hcond : op.Cond pagesize s) (hs : smfStep pagesize s op = some s') : Inv pagesize C [] s' := by
  cases op with
  | alloc size =>
    obtain ⟨r, hr, rfl⟩ := Option.map_eq_some_iff.mp hs
    exact smfAlloc_inv h hC hcond hr
  | trim p size => exact smfTrim_inv h hC hcalled hs
  | free p =>
    obtain ⟨s₁, hs₁, hi₁, -⟩ := freeSmf_inv h hC hcalled
    rw [smfStep, smfFree, hs₁] at hs
    cases hs
    exact hi₁

end Steps

/-! ## The result -/

section Result

/-- The lists of the storage are in order, and its segments tile the chunks. -/
structure SmfOk (pagesize : ℕ) (C : List Extent) (s : Sc) : Prop where
  sorted : s.exts.Pairwise fun e f => e.ptr < f.ptr ∨ e.ptr = f.ptr ∧ e.off < f.off
  apart : s.exts.Pairwise fun e f => e.ptr + e.size ≤ f.ptr
  sizes : ∀ e ∈ s.exts, 0 < e.size ∧ pagesize ∣ e.size
  tiles : (Extent.allCells s.exts).Perm (Extent.allCells C)
  lists : s.used.Nodup ∧ (∀ b, (s.free b).Nodup) ∧ (∀ p ∈ s.used, p ∈ s.order) ∧ ∀ b, ∀ p ∈ s.free b, p ∈ s.order
  status : ∀ p ∈ s.order,
    p ∈ s.used ∧ (∀ b, p ∉ s.free b) ∨
    p ∉ s.used ∧ ∀ b, p ∈ s.free b ↔ b = min ((s.smf p).ext.size / pagesize) (nbucket - 1)
  free_sorted : ∀ b, (s.free b).Pairwise fun p q => (s.smf p).ext.off < (s.smf q).ext.off
  coalesced : ∀ p ∈ s.order, ∀ q ∈ s.order, p ∉ s.used → q ∉ s.used → ¬ (s.smf p).ext.Touch (s.smf q).ext

theorem Inv.alloc_iff (h : Inv pagesize C [] s) (hp : p ∈ s.order) : p ∉ s.used ↔ (s.smf p).alloc = false := by
  rw [h.status.mem_used]
  simp [hp]

theorem Inv.smfOk (h : Inv pagesize C [] s) : SmfOk pagesize C s := by
  refine ⟨?_, h.geom.laid.sorted, fun e he => ?_, h.geom.tiles, ⟨h.status.used_nodup, h.status.free_nodup,
    fun p hp => ((h.status.mem_used p).mp hp).1, fun b p hp => ((h.status.mem_free b p).mp hp).1⟩, fun p hp => ?_,
    h.status.free_sorted, fun p hp q hq hpu hqu => ?_⟩
  · refine h.geom.laid.sorted.imp_of_mem fun {e f} he _ hlt => .inl ?_
    have hpos := h.geom.laid.pos e he
    unfold Extent.Before at hlt
    omega
  · obtain ⟨p, hp, rfl⟩ := List.mem_map.mp he
    exact ⟨h.geom.pos hp, h.geom.pages p hp⟩
  · by_cases hu : p ∈ s.used
    · refine .inl ⟨hu, fun b hb => ?_⟩
      have ha := ((h.status.mem_used p).mp hu).2
      rw [((h.status.mem_free b p).mp hb).2.1] at ha
      cases ha
    · refine .inr ⟨hu, fun b => ?_⟩
      rw [h.status.mem_free, ← bucket_eq_min]
      have ha := (h.alloc_iff hp).mp hu
      simp only [hp, ha, List.not_mem_nil, not_false_eq_true, true_and, Sc.bucketOf]
      exact eq_comm
  · exact h.coalesced p hp q hq ((h.alloc_iff hp).mp hpu) ((h.alloc_iff hq).mp hqu) List.not_mem_nil List.not_mem_nil

/-- A storage of which nothing is in use is determined by the chunks. -/
theorem exts_eq_of_unused (h : Inv pagesize C [] s) (h' : Inv pagesize C [] s') (hu : s.used = []) (hu' : s'.used = []) :
    s.exts = s'.exts := by
  have hchain : ∀ {t : Sc}, Inv pagesize C [] t → t.used = [] → t.exts.IsChain fun e f => ¬ e.Touch f := by
    intro t ht htu
    refine List.Pairwise.isChain ?_
    rw [Sc.exts, List.pairwise_map]
    refine List.pairwise_of_forall_mem_list fun p hp q hq => ?_
    have hnot : ∀ x, x ∉ t.used := fun x => by rw [htu]; exact List.not_mem_nil
    exact ht.smfOk.coalesced p hp q hq (hnot p) (hnot q)
  have hcells : Extent.allCells s.exts = Extent.allCells s'.exts := by
    have hperm := h.geom.tiles.trans h'.geom.tiles.symm
    exact hperm.eq_of_pairwise (fun a b _ _ hab hba => absurd hab (by omega)) h.geom.laid.pairwise_cells
      h'.geom.laid.pairwise_cells
  exact Extent.eq_of_cells (hchain h hu) (hchain h' hu') h.geom.laid.pos h'.geom.laid.pos hcells

/-- All segments in use are freed, in any order. -/
theorem freeAll_inv {l : List ℕ} (h : Inv pagesize C [] s) (hC : FileApart C) (hl : l.Perm s.used) :
    ∃ s', l.foldlM (smfFree pagesize) s = some s' ∧ Inv pagesize C [] s' ∧ s'.used = [] := by
  induction l generalizing s with
  | nil => exact ⟨s, rfl, h, hl.nil_eq.symm⟩
  | cons p l ih =>
    obtain ⟨s₁, hs₁, hi₁, hu₁, -⟩ := freeSmf_inv h hC (hl.subset List.mem_cons_self)
    have hperm : l.Perm s₁.used := by
      rw [hu₁]
      exact (List.cons_perm_iff_perm_erase.mp hl).2
    rw [List.foldlM_cons, smfFree, hs₁]
    exact ih hi₁ hperm

/-- **The file storage**: for any chunks, in every run whose operations meet the condition, its lists are in order and its
segments tile the chunks.  When all segments in use are freed, in any order, the segments are those of the start. -/
theorem reach_smfOk (hok : ChunksOk pagesize C) :
    ∃ s₀, openChunks pagesize C = some s₀ ∧
      ∀ s, Reach (smfStep pagesize) (fun s op => op.Called s ∧ op.Cond pagesize s) s₀ s →
        SmfOk pagesize C s ∧ ∀ l : List ℕ, l.Perm s.used →
          ∃ s', l.foldlM (smfFree pagesize) s = some s' ∧ s'.used = [] ∧ s'.exts = s₀.exts := by
  obtain ⟨s₀, h₀, hi₀, hu₀⟩ := openChunks_inv hok
  refine ⟨s₀, h₀, fun s hr => ?_⟩
  have hinv : Inv pagesize C [] s :=
    Reach.inv hi₀ (fun _ _ _ hi hop hs => smfStep_inv hi hok.fileApart hop.1 hop.2 hs) hr
  refine ⟨hinv.smfOk, fun l hl => ?_⟩
  obtain ⟨s', hs', hi', hu'⟩ := freeAll_inv hinv hok.fileApart hl
  exact ⟨s', hs', hu', exts_eq_of_unused hi' hi₀ hu' hu₀⟩

/-- Two chunks, which touch in the file but not in memory. -/
def chunks : List Extent := [⟨1048576, 0, 524288⟩, ⟨4194304, 524288, 524288⟩]

theorem chunks_ok : ChunksOk 4096 chunks where
  size := by decide
  mem := by
    unfold Extent.Before
    decide
  file := by decide

/-- Three segments are allocated; one is trimmed, and one is freed. -/
def fileRun : List Op := [.alloc 100, .alloc 200000, .alloc 70000, .trim 3 100000, .free 2]

theorem reach_smfOk_fileRun : ∃ s₀ s, openChunks 4096 chunks = some s₀ ∧ fileRun.foldlM (smfStep 4096) s₀ = some s ∧
    s.used = [3, 4] ∧ SmfOk 4096 chunks s := by
  obtain ⟨s₀, h₀, hall⟩ := reach_smfOk chunks_ok
  have hok : ∀ s₀ ∈ openChunks 4096 chunks,
      OkRun (smfStep 4096) (fun s op => op.Called s ∧ op.Cond 4096 s) s₀ fileRun := by decide +kernel
  have hused : ((openChunks 4096 chunks).bind fun s₀ => (fileRun.foldlM (smfStep 4096) s₀).map Sc.used) = some [3, 4] := by
    decide +kernel
  rw [h₀, Option.bind_some] at hused
  obtain ⟨s, hs, hu⟩ := Option.map_eq_some_iff.mp hused
  exact ⟨s₀, s, h₀, hs, hu, (hall s (Reach.of_run (hok s₀ h₀) hs)).1⟩

/-- A request of 4294967295 bytes, as `fetch_straight` may make it, is rounded to zero. -/
theorem empty_segment : ∃ s₀ s, openChunks 4096 chunks = some s₀ ∧
    Reach (smfStep 4096) (fun s op => op.Called s) s₀ s ∧ ¬ SmfOk 4096 chunks s := by
  obtain ⟨s₀, h₀, -⟩ := openChunks_inv chunks_ok
  have hempty : ((openChunks 4096 chunks).bind fun s₀ => (smfStep 4096 s₀ (.alloc 4294967295)).map
      fun s => s.exts.all fun e => 0 < e.size) = some false := by decide +kernel
  rw [h₀, Option.bind_some] at hempty
  obtain ⟨s, hs, hfalse⟩ := Option.map_eq_some_iff.mp hempty
  refine ⟨s₀, s, h₀, Reach.refl.tail (.alloc 4294967295) trivial hs, fun hsmf => ?_⟩
  have htrue : (s.exts.all fun e => 0 < e.size) = true :=
    List.all_eq_true.mpr fun e he => decide_eq_true (hsmf.sizes e he).1
  rw [htrue] at hfalse
  cases hfalse

end Result

end Varnish.File
