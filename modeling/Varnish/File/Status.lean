import Varnish.File.Model

/-!
# Varnish.File.Status — the invariant of the file storage

Every function of the allocator is a sequence of changes of one kind: a segment is taken off its list or put on one, a
segment is cut, or two are joined.  In between, some segments are free but on no list.

* `Geom`: the segments are sorted and tile the chunks.  `Status`: each one is on the list where it belongs, but for those
  in `L`.  `Coalesced`: no two free segments touch.
* `retire`, `admit`, `grant`, `release`: the changes of the lists.
-/

namespace Varnish.File

open Varnish.Lib

variable {pagesize : ℕ} {C : List Extent} {L : List ℕ} {s s' : Sc} {p q b : ℕ}

/-! ## The invariant -/

section Inv

variable (pagesize C L)

def Sc.exts (s : Sc) : List Extent := s.order.map fun p => (s.smf p).ext

/-- The list of a segment, by its size. -/
def Sc.bucketOf (s : Sc) (p : ℕ) : ℕ := bucket pagesize (s.smf p).ext.size

structure Geom (s : Sc) : Prop where
  laid : Extent.Laid s.exts
  tiles : (Extent.allCells s.exts).Perm (Extent.allCells C)
  pages : ∀ p ∈ s.order, pagesize ∣ (s.smf p).ext.size
  fresh : ∀ p ∈ s.order, p < s.next

structure Status (s : Sc) : Prop where
  used_nodup : s.used.Nodup
  mem_used : ∀ p, p ∈ s.used ↔ p ∈ s.order ∧ (s.smf p).alloc = true
  mem_free : ∀ b p, p ∈ s.free b ↔ p ∈ s.order ∧ (s.smf p).alloc = false ∧ p ∉ L ∧ s.bucketOf pagesize p = b
  free_sorted : ∀ b, (s.free b).Pairwise fun p q => (s.smf p).ext.off < (s.smf q).ext.off
  flist : ∀ p ∈ s.order, (s.smf p).flist =
    if (s.smf p).alloc = true ∨ p ∈ L then none else some (s.bucketOf pagesize p)
  limbo : ∀ p ∈ L, p ∈ s.order ∧ (s.smf p).alloc = false

def Coalesced (s : Sc) : Prop :=
  ∀ p ∈ s.order, ∀ q ∈ s.order, (s.smf p).alloc = false → (s.smf q).alloc = false → p ∉ L → q ∉ L →
    ¬ (s.smf p).ext.Touch (s.smf q).ext

structure Inv (s : Sc) : Prop where
  geom : Geom pagesize C s
  status : Status pagesize L s
  coalesced : Coalesced L s

/-- The chunks have different places in the file. -/
def FileApart : Prop := ((Extent.allCells C).map Prod.snd).Nodup

variable {pagesize C L}

theorem Geom.nodup (h : Geom pagesize C s) : s.order.Nodup := by
  have hs := h.laid.sorted
  have hp := h.laid.pos
  rw [Sc.exts, List.pairwise_map] at hs
  refine hs.imp_of_mem fun {p q} hp' _ hlt heq => ?_
  subst heq
  have hpos := hp _ (List.mem_map_of_mem hp')
  unfold Extent.Before at hlt
  omega

theorem Geom.pos (h : Geom pagesize C s) (hp : p ∈ s.order) : 0 < (s.smf p).ext.size :=
  h.laid.pos _ (List.mem_map_of_mem hp)

/-- Two segments have different places in the file. -/
theorem Geom.off_ne (h : Geom pagesize C s) (hC : FileApart C) (hp : p ∈ s.order) (hq : q ∈ s.order) (hne : p ≠ q) :
    (s.smf p).ext.off ≠ (s.smf q).ext.off := by
  have hnodup : ((Extent.allCells s.exts).map Prod.snd).Nodup := ((h.tiles.map Prod.snd).nodup_iff).mpr hC
  rw [List.Nodup, List.pairwise_map, Extent.allCells, List.pairwise_flatMap, Sc.exts, List.pairwise_map] at hnodup
  have hsym : ∀ x ∈ s.order, ∀ y ∈ s.order, x ≠ y → ∀ a ∈ (s.smf x).ext.cells, ∀ b ∈ (s.smf y).ext.cells, a.2 ≠ b.2 := by
    have : Std.Symm fun x y => ∀ a ∈ (s.smf x).ext.cells, ∀ b ∈ (s.smf y).ext.cells, a.2 ≠ b.2 :=
      ⟨fun x y hxy a ha b hb => (hxy b hb a ha).symm⟩
    exact fun x hx y hy hxy => hnodup.2.forall hx hy hxy
  have hfst : ∀ x ∈ s.order, ((s.smf x).ext.ptr, (s.smf x).ext.off) ∈ (s.smf x).ext.cells := by
    intro x hx
    obtain ⟨cs, hcs⟩ := Extent.cells_eq_cons (h.pos hx)
    rw [hcs]
    exact List.mem_cons_self
  exact hsym p hp q hq hne _ (hfst p hp) _ (hfst q hq)

theorem Status.free_nodup (h : Status pagesize L s) (b : ℕ) : (s.free b).Nodup :=
  (h.free_sorted b).imp fun hlt heq => by subst heq; omega

/-- Nothing about the places changes. -/
theorem Geom.of_eq (h : Geom pagesize C s) (ho : s'.order = s.order) (hn : s'.next = s.next)
    (he : ∀ p, (s'.smf p).ext = (s.smf p).ext) : Geom pagesize C s' := by
  have hexts : s'.exts = s.exts := by
    rw [Sc.exts, Sc.exts, ho]
    exact List.map_congr_left fun p _ => he p
  refine ⟨hexts ▸ h.laid, hexts ▸ h.tiles, fun p hp => ?_, fun p hp => ?_⟩
  · rw [he]
    exact h.pages p (ho ▸ hp)
  · rw [hn]
    exact h.fresh p (ho ▸ hp)

end Inv

/-! ## A change of one segment -/

section Change

@[simp] theorem set_smf_self (s : Sc) (p : ℕ) (sp : Smf) : (s.set p sp).smf p = sp := Function.update_self ..

theorem set_smf_of_ne (s : Sc) {p x : ℕ} (sp : Smf) (h : x ≠ p) : (s.set p sp).smf x = s.smf x :=
  Function.update_of_ne h ..

/-- Only `p` changes, and not its place. -/
structure Change (s s' : Sc) (p : ℕ) (L L' : List ℕ) : Prop where
  order : s'.order = s.order
  next : s'.next = s.next
  ext : (s'.smf p).ext = (s.smf p).ext
  smf : ∀ x ≠ p, s'.smf x = s.smf x
  limbo : ∀ x ≠ p, x ∈ L' ↔ x ∈ L
  used : ∀ x ≠ p, x ∈ s'.used ↔ x ∈ s.used
  free : ∀ b, ∀ x ≠ p, x ∈ s'.free b ↔ x ∈ s.free b

variable {L' : List ℕ}

theorem Change.exts (hc : Change s s' p L L') (x : ℕ) : (s'.smf x).ext = (s.smf x).ext := by
  by_cases hx : x = p
  · rw [hx, hc.ext]
  · rw [hc.smf x hx]

theorem Change.bucketOf (hc : Change s s' p L L') (x : ℕ) : s'.bucketOf pagesize x = s.bucketOf pagesize x := by
  rw [Sc.bucketOf, Sc.bucketOf, hc.exts]

/-- The invariant after the change, where something is to be shown for `p` only. -/
theorem Inv.change (h : Inv pagesize C L s) (hc : Change s s' p L L') (hp : p ∈ s.order) (hnodup : s'.used.Nodup)
    (hused : p ∈ s'.used ↔ (s'.smf p).alloc = true)
    (hfree : ∀ b, p ∈ s'.free b ↔ (s'.smf p).alloc = false ∧ p ∉ L' ∧ s.bucketOf pagesize p = b)
    (hsorted : ∀ b, (s'.free b).Pairwise fun x y => (s.smf x).ext.off < (s.smf y).ext.off)
    (hflist : (s'.smf p).flist = if (s'.smf p).alloc = true ∨ p ∈ L' then none else some (s.bucketOf pagesize p))
    (hlimbo : p ∈ L' → (s'.smf p).alloc = false)
    (hapart : (s'.smf p).alloc = false → p ∉ L' → ∀ x ∈ s.order, x ≠ p → (s.smf x).alloc = false → x ∉ L →
      ¬ (s.smf p).ext.Touch (s.smf x).ext ∧ ¬ (s.smf x).ext.Touch (s.smf p).ext) :
    Inv pagesize C L' s' := by
  have hs := h.status
  refine ⟨h.geom.of_eq hc.order hc.next hc.exts, ⟨hnodup, fun x => ?_, fun b x => ?_, fun b => ?_, fun x hx => ?_,
    fun x hx => ?_⟩, ?_⟩
  · rw [hc.order]
    by_cases hx : x = p
    · subst hx
      rw [hused]
      exact ⟨fun ha => ⟨hp, ha⟩, fun ha => ha.2⟩
    · rw [hc.used x hx, hc.smf x hx]
      exact hs.mem_used x
  · rw [hc.order, hc.bucketOf]
    by_cases hx : x = p
    · subst hx
      rw [hfree]
      exact ⟨fun ha => ⟨hp, ha⟩, fun ha => ha.2⟩
    · rw [hc.free b x hx, hc.smf x hx, hc.limbo x hx]
      exact hs.mem_free b x
  · simp only [hc.exts]
    exact hsorted b
  · rw [hc.order] at hx
    rw [hc.bucketOf]
    by_cases hxp : x = p
    · rw [hxp]
      exact hflist
    · simp only [hc.smf x hxp, hc.limbo x hxp]
      exact hs.flist x hx
  · rw [hc.order]
    by_cases hxp : x = p
    · rw [hxp] at hx ⊢
      exact ⟨hp, hlimbo hx⟩
    · rw [hc.smf x hxp]
      exact hs.limbo x ((hc.limbo x hxp).mp hx)
  · intro x hx y hy hax hay hxL hyL
    rw [hc.order] at hx hy
    rw [hc.exts, hc.exts]
    by_cases hxp : x = p
    · subst hxp
      by_cases hyp : y = x
      · rw [hyp]
        have hpos := h.geom.pos hx
        rintro ⟨ht, -⟩
        omega
      · rw [hc.smf y hyp] at hay
        exact (hapart hax hxL y hy hyp hay fun hL => hyL ((hc.limbo y hyp).mpr hL)).1
    · rw [hc.smf x hxp] at hax
      have hxL' : x ∉ L := fun hL => hxL ((hc.limbo x hxp).mpr hL)
      by_cases hyp : y = p
      · subst hyp
        exact (hapart hay hyL x hx hxp hax hxL').2
      · rw [hc.smf y hyp] at hay
        exact h.coalesced x hx y hy hax hay hxL' fun hL => hyL ((hc.limbo y hyp).mpr hL)

end Change

/-! ## The changes of the lists -/

section Lists

theorem mem_cons_of_ne {x : ℕ} (h : x ≠ p) : x ∈ p :: L ↔ x ∈ L := by
  rw [List.mem_cons]
  exact or_iff_right h

/-- What `remfree` makes of the lists. -/
def retired (pagesize : ℕ) (s : Sc) (p : ℕ) : Sc :=
  { s.set p { s.smf p with flist := none } with
    free := Function.update s.free (s.bucketOf pagesize p) ((s.free (s.bucketOf pagesize p)).erase p) }

/-- `remfree` takes a segment off its list. -/
theorem Inv.retire (h : Inv pagesize C L s) (hp : p ∈ s.order) (hfree : (s.smf p).alloc = false) (hL : p ∉ L) :
    remfree pagesize s p = some (retired pagesize s p) ∧ Inv pagesize C (p :: L) (retired pagesize s p) := by
  have hflist := h.status.flist p hp
  rw [if_neg (by simp [hfree, hL])] at hflist
  have hself : (retired pagesize s p).smf p = { s.smf p with flist := none } := set_smf_self ..
  have hnodup := h.status.free_nodup
  have hc : Change s (retired pagesize s p) p L (p :: L) := by
    refine ⟨rfl, rfl, by rw [hself], fun x hx => set_smf_of_ne s _ hx, fun x hx => mem_cons_of_ne hx, fun x _ => Iff.rfl, ?_⟩
    intro b x hx
    by_cases hb : b = s.bucketOf pagesize p
    · rw [hb]
      simp only [retired, Function.update_self]
      exact List.mem_erase_of_ne hx
    · simp only [retired, Function.update_of_ne hb]
  refine ⟨by rw [remfree]; exact if_pos ⟨hfree, hflist⟩, h.change hc hp h.status.used_nodup ?_ ?_ ?_ ?_ ?_ ?_⟩
  · rw [hself]
    exact (h.status.mem_used p).trans ⟨fun ha => ha.2, fun ha => ⟨hp, ha⟩⟩
  · intro b
    rw [hself]
    refine ⟨fun hb => absurd hb ?_, fun hb => absurd List.mem_cons_self hb.2.1⟩
    by_cases hbp : b = s.bucketOf pagesize p
    · rw [hbp]
      simp only [retired, Function.update_self]
      exact List.Nodup.not_mem_erase (hnodup _)
    · simp only [retired, Function.update_of_ne hbp]
      intro hb
      exact hbp ((h.status.mem_free b p).mp hb).2.2.2.symm
  · intro b
    by_cases hbp : b = s.bucketOf pagesize p
    · rw [hbp]
      simp only [retired, Function.update_self]
      exact (h.status.free_sorted _).sublist List.erase_sublist
    · simp only [retired, Function.update_of_ne hbp]
      exact h.status.free_sorted b
  · rw [hself, if_pos (.inr List.mem_cons_self)]
  · intro _
    rw [hself]
    exact hfree
  · intro _ hmem
    exact absurd List.mem_cons_self hmem

/-- What `insfree` makes of the lists. -/
def admitted (pagesize : ℕ) (s : Sc) (p : ℕ) : Sc :=
  { s.set p { s.smf p with flist := some (s.bucketOf pagesize p) } with
    free := Function.update s.free (s.bucketOf pagesize p)
      (Tailq.insertWhile (passes s (s.smf p)) p (s.free (s.bucketOf pagesize p))) }

/-- A segment is not smaller than the pages of its list. -/
theorem bucket_mul_le (size : ℕ) : bucket pagesize size * pagesize ≤ size := by
  refine le_trans (Nat.mul_le_mul_right _ ?_) (Nat.div_mul_le_self size pagesize)
  rw [bucket]
  split
  · omega
  · exact le_refl _

/-- `insfree` puts a segment on its list, when it touches no free one. -/
theorem Inv.admit (h : Inv pagesize C (p :: L) s) (hC : FileApart C) (hL : p ∉ L)
    (hapart : ∀ x ∈ s.order, x ≠ p → (s.smf x).alloc = false → x ∉ L →
      ¬ (s.smf p).ext.Touch (s.smf x).ext ∧ ¬ (s.smf x).ext.Touch (s.smf p).ext) :
    insfree pagesize s p = some (admitted pagesize s p) ∧ Inv pagesize C L (admitted pagesize s p) := by
  obtain ⟨hp, hfree⟩ := h.status.limbo p List.mem_cons_self
  have hflist := h.status.flist p hp
  rw [if_pos (.inr List.mem_cons_self)] at hflist
  have hself : (admitted pagesize s p).smf p = { s.smf p with flist := some (s.bucketOf pagesize p) } := set_smf_self ..
  have hnot : ∀ b, p ∉ s.free b := fun b hb => ((h.status.mem_free b p).mp hb).2.2.1 List.mem_cons_self
  have hlisted : ∀ x ∈ s.free (s.bucketOf pagesize p), Listed pagesize s (s.bucketOf pagesize p) x := by
    intro x hx
    obtain ⟨hxo, hxa, hxL, hxb⟩ := (h.status.mem_free _ x).mp hx
    refine ⟨?_, hxa, ?_⟩
    · rw [← hxb]
      exact bucket_mul_le _
    · rw [h.status.flist x hxo, if_neg (by simp [hxa, hxL]), hxb]
  have hc : Change s (admitted pagesize s p) p (p :: L) L := by
    refine ⟨rfl, rfl, by rw [hself], fun x hx => set_smf_of_ne s _ hx, fun x hx => (mem_cons_of_ne hx).symm,
      fun x _ => Iff.rfl, fun b x hx => ?_⟩
    by_cases hb : b = s.bucketOf pagesize p
    · rw [hb]
      simp only [admitted, Function.update_self]
      rw [Tailq.mem_insertWhile]
      exact or_iff_right hx
    · simp only [admitted, Function.update_of_ne hb]
  refine ⟨?_, h.change hc hp h.status.used_nodup ?_ ?_ ?_ ?_ (fun hmem => absurd hmem hL) ?_⟩
  · rw [insfree]
    refine if_pos ⟨hfree, hflist, fun x hx => hlisted x ?_⟩
    rcases List.mem_append.mp hx with hx | hx
    · exact (List.takeWhile_sublist _).subset hx
    · exact (List.dropWhile_sublist _).subset (List.mem_of_mem_take hx)
  · rw [hself]
    exact (h.status.mem_used p).trans ⟨fun ha => ha.2, fun ha => ⟨hp, ha⟩⟩
  · intro b
    rw [hself]
    refine ⟨fun hb => ⟨hfree, hL, ?_⟩, fun hb => ?_⟩
    · by_contra hne
      simp only [admitted, Function.update_of_ne (Ne.symm hne)] at hb
      exact hnot b hb
    · rw [← hb.2.2]
      simp only [admitted, Function.update_self]
      exact Tailq.mem_insertWhile.mpr (.inl rfl)
  · intro b
    by_cases hbp : b = s.bucketOf pagesize p
    · rw [hbp]
      simp only [admitted, Function.update_self]
      refine Tailq.pairwise_insertWhile (h.status.free_sorted _) fun x hx => ?_
      exact h.geom.off_ne hC ((h.status.mem_free _ x).mp hx).1 hp fun he => hnot _ (he ▸ hx)
    · simp only [admitted, Function.update_of_ne hbp]
      exact h.status.free_sorted b
  · rw [hself, if_neg (by simp [hfree, hL])]
  · intro _ _ x hx hxp hxa hxL
    refine hapart x hx hxp hxa fun hmem => hxL (List.mem_cons_of_mem _ hmem)

theorem Inv.grant (h : Inv pagesize C (p :: L) s) (hL : p ∉ L) : Inv pagesize C L (granted s p) := by
  obtain ⟨hp, hfree⟩ := h.status.limbo p List.mem_cons_self
  have hself : (granted s p).smf p = { s.smf p with alloc := true } := set_smf_self ..
  have hnot : p ∉ s.used := by
    intro hu
    have ha := ((h.status.mem_used p).mp hu).2
    rw [hfree] at ha
    cases ha
  have hc : Change s (granted s p) p (p :: L) L := by
    refine ⟨rfl, rfl, by rw [hself], fun x hx => set_smf_of_ne s _ hx, fun x hx => (mem_cons_of_ne hx).symm,
      fun x hx => ?_, fun b x _ => Iff.rfl⟩
    rw [granted, List.mem_append, List.mem_singleton]
    exact or_iff_left hx
  refine h.change hc hp ?_ ?_ ?_ h.status.free_sorted ?_ (fun hmem => absurd hmem hL) ?_
  · exact List.nodup_append.mpr ⟨h.status.used_nodup, List.nodup_singleton p, fun a ha b hb => by
      rw [List.mem_singleton.mp hb]
      exact fun he => hnot (he ▸ ha)⟩
  · rw [hself]
    exact ⟨fun _ => rfl, fun _ => List.mem_append_right _ (List.mem_singleton_self p)⟩
  · intro b
    rw [hself]
    refine ⟨fun hb => ?_, fun hb => (by cases hb.1)⟩
    exact absurd List.mem_cons_self ((h.status.mem_free b p).mp hb).2.2.1
  · rw [hself, if_pos (.inl rfl)]
    have hflist := h.status.flist p hp
    rwa [if_pos (.inr List.mem_cons_self)] at hflist
  · intro ha
    rw [hself] at ha
    cases ha

theorem Inv.release (h : Inv pagesize C L s) (hp : p ∈ s.used) : Inv pagesize C (p :: L) (released s p) := by
  obtain ⟨hpo, halloc⟩ := (h.status.mem_used p).mp hp
  have hself : (released s p).smf p = { s.smf p with alloc := false } := set_smf_self ..
  have hc : Change s (released s p) p L (p :: L) := by
    refine ⟨rfl, rfl, by rw [hself], fun x hx => set_smf_of_ne s _ hx, fun x hx => mem_cons_of_ne hx,
      fun x hx => List.mem_erase_of_ne hx, fun b x _ => Iff.rfl⟩
  refine h.change hc hpo (h.status.used_nodup.erase p) ?_ ?_ h.status.free_sorted ?_ ?_ ?_
  · rw [hself]
    refine ⟨fun hu => absurd hu (List.Nodup.not_mem_erase h.status.used_nodup), fun ha => (by cases ha)⟩
  · intro b
    refine ⟨fun hb => ?_, fun hb => absurd List.mem_cons_self hb.2.1⟩
    have ha := ((h.status.mem_free b p).mp hb).2.1
    rw [halloc] at ha
    cases ha
  · rw [hself, if_pos (.inr List.mem_cons_self)]
    have hflist := h.status.flist p hpo
    rwa [if_pos (.inl halloc)] at hflist
  · intro _
    rw [hself]
  · intro _ hmem
    exact absurd List.mem_cons_self hmem

end Lists

end Varnish.File
