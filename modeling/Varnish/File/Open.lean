import Varnish.File.Ops

/-!
# Varnish.File.Open — the chunks of the file storage

* `newSmf_inv`: a chunk is added, which may join segments that touch it.
* `openChunks_inv`: the storage when all chunks were added.
-/

namespace Varnish.File

open Varnish.Lib

variable {pagesize : ℕ} {C : List Extent} {L : List ℕ} {s : Sc} {p : ℕ}

/-! ## `new_smf` -/

section New

variable {e : Extent}

/-- A chunk that overlaps no other chunk overlaps no segment. -/
theorem Geom.before_or (h : Geom pagesize C s) (he : 0 < e.size) (hd : ∀ c ∈ C, e.Before c ∨ c.Before e)
    (hp : p ∈ s.order) : e.Before (s.smf p).ext ∨ (s.smf p).ext.Before e := by
  by_contra hno
  have hpos := h.pos hp
  rw [not_or, Extent.Before, Extent.Before] at hno
  -- the first byte that both have
  have hcell : ((s.smf p).ext.ptr + (e.ptr - (s.smf p).ext.ptr), (s.smf p).ext.off + (e.ptr - (s.smf p).ext.ptr)) ∈
      (s.smf p).ext.cells :=
    List.mem_map.mpr ⟨_, List.mem_range.mpr (by omega), rfl⟩
  have hall := h.tiles.mem_iff.mp (List.mem_flatMap.mpr ⟨_, List.mem_map_of_mem hp, hcell⟩)
  obtain ⟨c, hc, hcc⟩ := List.mem_flatMap.mp hall
  obtain ⟨i, hi, heq⟩ := List.mem_map.mp hcc
  have hlt := List.mem_range.mp hi
  have hptr := (Prod.mk.inj heq).1
  have hdc := hd c hc
  unfold Extent.Before at hdc
  omega

theorem inserted_smf_of_ne (s : Sc) (e : Extent) {x : ℕ} (h : x ≠ s.next) : (inserted s e).smf x = s.smf x :=
  set_smf_of_ne s _ h

theorem inserted_smf_next (s : Sc) (e : Extent) : (inserted s e).smf s.next = ⟨true, e, none, 0⟩ := set_smf_self ..

theorem mem_inserted_order {x : ℕ} : x ∈ (inserted s e).order ↔ x = s.next ∨ x ∈ s.order := Tailq.mem_insertWhile

theorem Geom.inserted (h : Geom pagesize C s) (hpos : 0 < e.size) (hpage : pagesize ∣ e.size)
    (hd : ∀ c ∈ C, e.Before c ∨ c.Before e) : Geom pagesize (e :: C) (inserted s e) := by
  have hq := h.next_not_mem
  have hold : ∀ x ∈ s.order, (File.inserted s e).smf x = s.smf x := fun x hx =>
    inserted_smf_of_ne s e fun he => hq (he ▸ hx)
  have hnew := inserted_smf_next s e
  have hsorted := h.laid.sorted
  rw [Sc.exts, List.pairwise_map] at hsorted
  -- two segments, of which one may be the new one, do not overlap
  have hapart : ∀ x ∈ (File.inserted s e).order, ∀ y ∈ (File.inserted s e).order, x ≠ y →
      ((File.inserted s e).smf x).ext.Before ((File.inserted s e).smf y).ext ∨
      ((File.inserted s e).smf y).ext.Before ((File.inserted s e).smf x).ext := by
    have : Std.Symm fun x y => (s.smf x).ext.Before (s.smf y).ext ∨ (s.smf y).ext.Before (s.smf x).ext :=
      ⟨fun _ _ hxy => hxy.symm⟩
    have hpair := (hsorted.imp fun {x y} hxy => show (s.smf x).ext.Before (s.smf y).ext ∨ (s.smf y).ext.Before (s.smf x).ext
      from .inl hxy)
    intro x hx y hy hxy
    rcases mem_inserted_order.mp hx with rfl | hx
    · rcases mem_inserted_order.mp hy with rfl | hy
      · exact absurd rfl hxy
      · rw [hnew, hold y hy]
        exact h.before_or hpos hd hy
    · rcases mem_inserted_order.mp hy with rfl | hy
      · rw [hnew, hold x hx]
        exact (h.before_or hpos hd hx).symm
      · rw [hold x hx, hold y hy]
        exact hpair.forall hx hy hxy
  have hposall : ∀ x ∈ (File.inserted s e).order, 0 < ((File.inserted s e).smf x).ext.size := by
    intro x hx
    rcases mem_inserted_order.mp hx with rfl | hx
    · rw [hnew]
      exact hpos
    · rw [hold x hx]
      exact h.pos hx
  have hkey : (Tailq.insertWhile (fun q => ¬ ((File.inserted s e).smf s.next).ext.ptr < ((File.inserted s e).smf q).ext.ptr)
      s.next s.order).Pairwise fun x y => ((File.inserted s e).smf x).ext.ptr < ((File.inserted s e).smf y).ext.ptr := by
    refine Tailq.pairwise_insertWhile (hsorted.imp_of_mem fun {x y} hx hy hxy => ?_) fun x hx => ?_
    · have hpx := h.pos hx
      rw [hold x hx, hold y hy]
      unfold Extent.Before at hxy
      omega
    · have hpx := h.pos hx
      have hd' := h.before_or hpos hd hx
      rw [hnew, hold x hx]
      unfold Extent.Before at hd'
      simp only
      omega
  rw [hnew] at hkey
  refine ⟨⟨?_, fun f hf => ?_⟩, ?_, fun x hx => ?_, fun x hx => ?_⟩
  · rw [Sc.exts, List.pairwise_map]
    refine hkey.imp_of_mem fun {x y} hx hy hlt => ?_
    have hpx := hposall x hx
    have hpy := hposall y hy
    have hxy := hapart x hx y hy fun he => by subst he; omega
    unfold Extent.Before at hxy ⊢
    omega
  · obtain ⟨x, hx, rfl⟩ := List.mem_map.mp hf
    exact hposall x hx
  · have hperm : (File.inserted s e).exts.Perm (e :: s.exts) := by
      have hmap := (Tailq.perm_insertWhile (fun q => ¬ e.ptr < ((File.inserted s e).smf q).ext.ptr) s.next s.order).map
        fun x => ((File.inserted s e).smf x).ext
      have hsame : (s.order.map fun x => ((File.inserted s e).smf x).ext) = s.exts :=
        exts_congr fun x hx => by rw [hold x hx]
      rw [List.map_cons, hnew, hsame] at hmap
      exact hmap
    refine (hperm.flatMap_right _).trans ?_
    rw [List.flatMap_cons, Extent.allCells, List.flatMap_cons]
    exact h.tiles.append_left _
  · rcases mem_inserted_order.mp hx with rfl | hx
    · rw [hnew]
      exact hpage
    · rw [hold x hx]
      exact h.pages x hx
  · change x < s.next + 1
    rcases mem_inserted_order.mp hx with rfl | hx
    · exact Nat.lt_succ_self _
    · exact Nat.lt_succ_of_lt (h.fresh x hx)

/-- The lists, with the new segment. -/
theorem Inv.inserted (h : Inv pagesize C [] s) (hpos : 0 < e.size) (hpage : pagesize ∣ e.size)
    (hd : ∀ c ∈ C, e.Before c ∨ c.Before e) : Inv pagesize (e :: C) [] (inserted s e) := by
  have hs := h.status
  have hq := h.geom.next_not_mem
  have hnew := inserted_smf_next s e
  have hold : ∀ x, x ≠ s.next → (File.inserted s e).smf x = s.smf x := fun x hx => inserted_smf_of_ne s e hx
  have hqfree : ∀ b, s.next ∉ s.free b := fun b hb => hq ((hs.mem_free b _).mp hb).1
  have hsame : ∀ b, ∀ x ∈ s.free b, (File.inserted s e).smf x = s.smf x := fun b x hx =>
    hold x fun he => hqfree b (he ▸ hx)
  refine ⟨h.geom.inserted hpos hpage hd, ⟨?_, fun x => ?_, fun b x => ?_, fun b => ?_, fun x hx => ?_,
    fun x hx => (by cases hx)⟩, ?_⟩
  · exact List.nodup_cons.mpr ⟨fun hu => hq ((hs.mem_used _).mp hu).1, hs.used_nodup⟩
  · rw [mem_inserted_order]
    change x ∈ s.next :: s.used ↔ _
    rw [List.mem_cons, hs.mem_used]
    by_cases hxq : x = s.next
    · simp [hxq, hnew]
    · simp [hxq, hold x hxq]
  · rw [mem_inserted_order]
    change x ∈ s.free b ↔ _
    rw [hs.mem_free]
    by_cases hxq : x = s.next
    · simp [hxq, hnew, hq]
    · rw [Sc.bucketOf, Sc.bucketOf, hold x hxq]
      simp [hxq]
  · change (s.free b).Pairwise _
    refine (hs.free_sorted b).imp_of_mem fun {x y} hx hy hlt => ?_
    rw [hsame b x hx, hsame b y hy]
    exact hlt
  · by_cases hxq : x = s.next
    · rw [hxq, hnew, if_pos (.inl rfl)]
    · rw [Sc.bucketOf, hold x hxq]
      exact hs.flist x ((mem_inserted_order.mp hx).resolve_left hxq)
  · have hne : ∀ x ∈ (File.inserted s e).order, ((File.inserted s e).smf x).alloc = false →
        x ∈ s.order ∧ (File.inserted s e).smf x = s.smf x := by
      intro x hx ha
      have hxq : x ≠ s.next := by
        rintro rfl
        rw [hnew] at ha
        cases ha
      exact ⟨(mem_inserted_order.mp hx).resolve_left hxq, hold x hxq⟩
    intro x hx y hy hax hay hxL hyL
    obtain ⟨hxo, hxs⟩ := hne x hx hax
    obtain ⟨hyo, hys⟩ := hne y hy hay
    rw [hxs] at hax ⊢
    rw [hys] at hay ⊢
    exact h.coalesced x hxo y hyo hax hay hxL hyL

theorem newSmf_inv (h : Inv pagesize C [] s) (hpos : 0 < e.size) (hpage : pagesize ∣ e.size)
    (hd : ∀ c ∈ C, e.Before c ∨ c.Before e) (hC : FileApart (e :: C)) :
    ∃ s', newSmf pagesize s e = some s' ∧ Inv pagesize (e :: C) [] s' ∧ s'.used = s.used := by
  obtain ⟨s', hs', hi', hu', -⟩ := freeSmf_inv (h.inserted hpos hpage hd) hC (p := s.next) List.mem_cons_self
  refine ⟨s', ?_, hi', ?_⟩
  · rw [newSmf, if_neg (fun hne => hne (Nat.mod_eq_zero_of_dvd hpage)), hs']
  · rw [hu']
    exact List.erase_cons_head ..

end New

/-! ## The chunks -/

section Chunks

/-- The chunks that are mapped: whole pages, in places of their own in memory and in the file. -/
structure ChunksOk (pagesize : ℕ) (C : List Extent) : Prop where
  size : ∀ e ∈ C, 0 < e.size ∧ pagesize ∣ e.size
  mem : C.Pairwise fun e f => e.Before f ∨ f.Before e
  file : C.Pairwise fun e f => e.off + e.size ≤ f.off ∨ f.off + f.size ≤ e.off

theorem ChunksOk.fileApart (h : ChunksOk pagesize C) : FileApart C := by
  rw [FileApart, List.Nodup, List.pairwise_map, Extent.allCells, List.pairwise_flatMap]
  refine ⟨fun e _ => ?_, h.file.imp fun hef a ha b hb => ?_⟩
  · rw [Extent.cells, List.pairwise_map]
    exact List.pairwise_lt_range.imp fun hij => by simp only; omega
  · obtain ⟨i, hi, rfl⟩ := List.mem_map.mp ha
    obtain ⟨j, hj, rfl⟩ := List.mem_map.mp hb
    have hi' := List.mem_range.mp hi
    have hj' := List.mem_range.mp hj
    simp only
    omega

theorem ChunksOk.reverse (h : ChunksOk pagesize C) : ChunksOk pagesize C.reverse where
  size e he := h.size e (List.mem_reverse.mp he)
  mem := List.pairwise_reverse.mpr (h.mem.imp Or.symm)
  file := List.pairwise_reverse.mpr (h.file.imp Or.symm)

theorem Inv.perm {C' : List Extent} (h : Inv pagesize C L s) (hC : C.Perm C') : Inv pagesize C' L s where
  geom := { h.geom with tiles := h.geom.tiles.trans (hC.flatMap_right _) }
  status := h.status
  coalesced := h.coalesced

theorem emptySc_inv : Inv pagesize [] [] emptySc := by
  refine ⟨⟨⟨List.Pairwise.nil, fun e he => ?_⟩, List.Perm.nil, fun p hp => ?_, fun p hp => ?_⟩, ⟨List.nodup_nil, fun p => ?_,
    fun b p => ?_, fun b => List.Pairwise.nil, fun p hp => ?_, fun p hp => ?_⟩, fun p hp => ?_⟩
  all_goals simp_all [emptySc, Sc.exts]

/-- The chunks are added one after the other. -/
theorem openChunks_from {D : List Extent} (h : Inv pagesize D [] s) (hu : s.used = []) (hok : ChunksOk pagesize (C.reverse ++ D)) :
    ∃ s', C.foldlM (newSmf pagesize) s = some s' ∧ Inv pagesize (C.reverse ++ D) [] s' ∧ s'.used = [] := by
  induction C generalizing s D with
  | nil => exact ⟨s, rfl, h, hu⟩
  | cons e C ih =>
    rw [List.reverse_cons, List.append_assoc, List.singleton_append] at hok ⊢
    have hsub : (e :: D).Sublist (C.reverse ++ e :: D) := List.sublist_append_right _ _
    obtain ⟨hd, -⟩ := List.pairwise_cons.mp (hok.mem.sublist hsub)
    obtain ⟨hpos, hpage⟩ := hok.size e (hsub.subset List.mem_cons_self)
    have hok' : ChunksOk pagesize (e :: D) :=
      ⟨fun x hx => hok.size x (hsub.subset hx), hok.mem.sublist hsub, hok.file.sublist hsub⟩
    obtain ⟨s₁, hs₁, hi₁, hu₁⟩ := newSmf_inv h hpos hpage hd hok'.fileApart
    rw [List.foldlM_cons, hs₁]
    exact ih hi₁ (hu₁.trans hu) hok

theorem openChunks_inv (hok : ChunksOk pagesize C) :
    ∃ s, openChunks pagesize C = some s ∧ Inv pagesize C [] s ∧ s.used = [] := by
  have hrev : ChunksOk pagesize (C.reverse ++ []) := by
    rw [List.append_nil]
    exact hok.reverse
  obtain ⟨s, hs, hi, hu⟩ := openChunks_from emptySc_inv rfl hrev
  rw [List.append_nil] at hi
  exact ⟨s, hs, hi.perm (List.reverse_perm C), hu⟩

end Chunks

end Varnish.File
