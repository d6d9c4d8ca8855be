import Varnish.File.Status

/-!
# Varnish.File.Cut — segments are cut and joined

* `Inv.cut`: a segment that is on no free list is cut, and the new one is in use.
* `Inv.absorb`: of two segments that touch and are on no list, one takes the place of both.
* `geom_insert`: a new segment in a place of its own.
-/

namespace Varnish.File

open Varnish.Lib

variable {pagesize n : ℕ} {C : List Extent} {L L' : List ℕ} {s s' : Sc} {p q : ℕ} {l₁ l₂ : List ℕ}

/-! ## Places -/

section Geom

theorem exts_congr {l : List ℕ} (h : ∀ x ∈ l, (s'.smf x).ext = (s.smf x).ext) :
    (l.map fun x => (s'.smf x).ext) = l.map fun x => (s.smf x).ext :=
  List.map_congr_left h

/-- The place of `c` is cut into those of `a` and `b`, one of which is new. -/
theorem Geom.cut {a b c : ℕ} (h : Geom pagesize C s) (ho : s.order = l₁ ++ c :: l₂) (ho' : s'.order = l₁ ++ a :: b :: l₂)
    (h0 : 0 < n) (hn : n < (s.smf c).ext.size) (hpage : pagesize ∣ n)
    (ha : (s'.smf a).ext = (s.smf c).ext.front n) (hb : (s'.smf b).ext = (s.smf c).ext.back n)
    (hother : ∀ x ∈ l₁ ++ l₂, (s'.smf x).ext = (s.smf x).ext) (hfresh : ∀ x ∈ s'.order, x < s'.next) :
    Geom pagesize C s' := by
  have hexts : s.exts = (l₁.map fun x => (s.smf x).ext) ++ (s.smf c).ext :: l₂.map fun x => (s.smf x).ext := by
    rw [Sc.exts, ho, List.map_append, List.map_cons]
  have hexts' : s'.exts = (l₁.map fun x => (s.smf x).ext) ++ (s.smf c).ext.front n :: (s.smf c).ext.back n ::
      l₂.map fun x => (s.smf x).ext := by
    rw [Sc.exts, ho', List.map_append, List.map_cons, List.map_cons, ha, hb,
      exts_congr fun x hx => hother x (List.mem_append_left _ hx), exts_congr fun x hx => hother x (List.mem_append_right _ hx)]
  have hc := h.pages c (by rw [ho]; exact List.mem_append_right _ List.mem_cons_self)
  refine ⟨?_, ?_, fun x hx => ?_, hfresh⟩
  · rw [hexts', Extent.laid_split h0 hn, ← hexts]
    exact h.laid
  · rw [hexts', Extent.allCells_split hn.le, ← hexts]
    exact h.tiles
  · rw [ho'] at hx
    have hold : x ∈ l₁ ++ l₂ → pagesize ∣ (s'.smf x).ext.size := by
      intro hx
      rw [hother x hx]
      refine h.pages x ?_
      rw [ho]
      rcases List.mem_append.mp hx with hx | hx
      · exact List.mem_append_left _ hx
      · exact List.mem_append_right _ (List.mem_cons_of_mem _ hx)
    rcases List.mem_append.mp hx with hx | hx
    · exact hold (List.mem_append_left _ hx)
    · rcases List.mem_cons.mp hx with rfl | hx
      · rw [ha]
        exact hpage
      · rcases List.mem_cons.mp hx with rfl | hx
        · rw [hb]
          exact Nat.dvd_sub hc hpage
        · exact hold (List.mem_append_right _ hx)

/-- The places of `a` and `b`, which touch, are joined to that of `a`. -/
theorem Geom.join {a b : ℕ} (h : Geom pagesize C s) (ho : s.order = l₁ ++ a :: b :: l₂) (ho' : s'.order = l₁ ++ a :: l₂)
    (htouch : (s.smf a).ext.Touch (s.smf b).ext)
    (ha : (s'.smf a).ext = { (s.smf a).ext with size := (s.smf a).ext.size + (s.smf b).ext.size })
    (hother : ∀ x ∈ l₁ ++ l₂, (s'.smf x).ext = (s.smf x).ext) (hnext : s'.next = s.next) : Geom pagesize C s' := by
  have hma : a ∈ s.order := by
    rw [ho]
    exact List.mem_append_right _ List.mem_cons_self
  have hmb : b ∈ s.order := by
    rw [ho]
    exact List.mem_append_right _ (List.mem_cons_of_mem _ List.mem_cons_self)
  have hpa := h.pos hma
  have hpb := h.pos hmb
  generalize hea : (s.smf a).ext = ea at *
  generalize heb : (s.smf b).ext = eb at *
  generalize he : ({ ea with size := ea.size + eb.size } : Extent) = e at *
  have hsize : e.size = ea.size + eb.size := by rw [← he]
  have hfront : e.front ea.size = ea := by rw [← he]; rfl
  have hback : e.back ea.size = eb := by
    rw [← he, Extent.back]
    obtain ⟨hptr, hoff⟩ := htouch
    simp only [Nat.add_sub_cancel_left, ← hptr, ← hoff]
  have hexts : s.exts = (l₁.map fun x => (s.smf x).ext) ++ e.front ea.size :: e.back ea.size ::
      l₂.map fun x => (s.smf x).ext := by
    rw [Sc.exts, ho, List.map_append, List.map_cons, List.map_cons, hea, heb, hfront, hback]
  have hexts' : s'.exts = (l₁.map fun x => (s.smf x).ext) ++ e :: l₂.map fun x => (s.smf x).ext := by
    rw [Sc.exts, ho', List.map_append, List.map_cons, ha,
      exts_congr fun x hx => hother x (List.mem_append_left _ hx), exts_congr fun x hx => hother x (List.mem_append_right _ hx)]
  refine ⟨?_, ?_, fun x hx => ?_, fun x hx => ?_⟩
  · rw [hexts', ← Extent.laid_split hpa (by omega), ← hexts]
    exact h.laid
  · rw [hexts', ← Extent.allCells_split (show ea.size ≤ e.size by omega), ← hexts]
    exact h.tiles
  · rw [ho'] at hx
    have hold : x ∈ l₁ ++ l₂ → pagesize ∣ (s'.smf x).ext.size := by
      intro hx
      rw [hother x hx]
      refine h.pages x ?_
      rw [ho]
      rcases List.mem_append.mp hx with hx | hx
      · exact List.mem_append_left _ hx
      · exact List.mem_append_right _ (List.mem_cons_of_mem _ (List.mem_cons_of_mem _ hx))
    rcases List.mem_append.mp hx with hx | hx
    · exact hold (List.mem_append_left _ hx)
    · rcases List.mem_cons.mp hx with rfl | hx
      · rw [ha, hsize]
        exact Nat.dvd_add (hea ▸ h.pages _ hma) (heb ▸ h.pages _ hmb)
      · exact hold (List.mem_append_right _ hx)
  · rw [hnext]
    refine h.fresh x ?_
    rw [ho' ] at hx
    rw [ho]
    rcases List.mem_append.mp hx with hx | hx
    · exact List.mem_append_left _ hx
    · rcases List.mem_cons.mp hx with rfl | hx
      · exact List.mem_append_right _ List.mem_cons_self
      · exact List.mem_append_right _ (List.mem_cons_of_mem _ (List.mem_cons_of_mem _ hx))

end Geom

/-! ## The lists -/

section Lists

/-- A segment is cut, and the new one `q` is in use: the lists are in order when the places are. -/
theorem Inv.cut {e₁ e₂ : Extent} (h : Inv pagesize C L s) (hgeom : Geom pagesize C s') (hp : p ∈ s.order)
    (hoff : (s.smf p).alloc = true ∨ p ∈ L) (hq : q ∉ s.order) (horder : ∀ x, x ∈ s'.order ↔ x = q ∨ x ∈ s.order)
    (hsmf : ∀ x, x ≠ p → x ≠ q → s'.smf x = s.smf x) (hsp : s'.smf p = { s.smf p with ext := e₁ })
    (hsq : s'.smf q = { s.smf p with ext := e₂, alloc := true }) (hused : s'.used = s.used ++ [q]) (hfree : s'.free = s.free) :
    Inv pagesize C L s' := by
  have hs := h.status
  have hpq : p ≠ q := fun he => hq (he ▸ hp)
  have hflist : (s.smf p).flist = none := by rw [hs.flist p hp, if_pos hoff]
  have hqused : q ∉ s.used := fun hu => hq ((hs.mem_used q).mp hu).1
  have hqL : q ∉ L := fun hL => hq (hs.limbo q hL).1
  -- neither of the two is on a free list
  have hpfree : ∀ b, p ∉ s.free b := by
    intro b hb
    obtain ⟨-, ha, hL, -⟩ := (hs.mem_free b p).mp hb
    rcases hoff with hoff | hoff
    · rw [hoff] at ha
      cases ha
    · exact hL hoff
  have hqfree : ∀ b, q ∉ s.free b := fun b hb => hq ((hs.mem_free b q).mp hb).1
  have hsame : ∀ b, ∀ x ∈ s.free b, s'.smf x = s.smf x := fun b x hx =>
    hsmf x (fun he => hpfree b (he ▸ hx)) fun he => hqfree b (he ▸ hx)
  refine ⟨hgeom, ⟨?_, fun x => ?_, fun b x => ?_, fun b => ?_, fun x hx => ?_, fun x hx => ?_⟩, ?_⟩
  · rw [hused]
    refine List.nodup_append.mpr ⟨hs.used_nodup, List.nodup_singleton q, fun a ha b hb => ?_⟩
    rw [List.mem_singleton.mp hb]
    exact fun he => hqused (he ▸ ha)
  · rw [hused, List.mem_append, List.mem_singleton, horder, hs.mem_used]
    by_cases hxq : x = q
    · simp [hxq, hsq]
    · by_cases hxp : x = p
      · simp [hxp, hpq, hsp]
      · simp [hxq, hsmf x hxp hxq]
  · rw [hfree, horder, hs.mem_free]
    by_cases hxq : x = q
    · simp [hxq, hsq, hq]
    · by_cases hxp : x = p
      · rw [hxp, hsp]
        constructor
        · rintro ⟨-, ha, hL, -⟩
          rcases hoff with hoff | hoff
          · rw [hoff] at ha
            cases ha
          · exact absurd hoff hL
        · rintro ⟨-, ha, hL, -⟩
          rcases hoff with hoff | hoff
          · simp only [hoff] at ha
            cases ha
          · exact absurd hoff hL
      · rw [Sc.bucketOf, Sc.bucketOf, hsmf x hxp hxq]
        simp [hxq]
  · rw [hfree]
    refine (hs.free_sorted b).imp_of_mem fun {x y} hx hy hlt => ?_
    rw [hsame b x hx, hsame b y hy]
    exact hlt
  · by_cases hxq : x = q
    · rw [hxq, hsq, if_pos (.inl rfl)]
      exact hflist
    · by_cases hxp : x = p
      · rw [hxp, hsp, if_pos hoff]
        exact hflist
      · rw [Sc.bucketOf, hsmf x hxp hxq]
        exact hs.flist x (((horder x).mp hx).resolve_left hxq)
  · obtain ⟨hxo, hxa⟩ := hs.limbo x hx
    have hxq : x ≠ q := fun he => hqL (he ▸ hx)
    refine ⟨(horder x).mpr (.inr hxo), ?_⟩
    by_cases hxp : x = p
    · rw [hxp, hsp]
      exact hxp ▸ hxa
    · rw [hsmf x hxp hxq]
      exact hxa
  · have hne : ∀ x ∈ s'.order, (s'.smf x).alloc = false → x ∉ L → x ∈ s.order ∧ s'.smf x = s.smf x := by
      intro x hx ha hL
      have hxq : x ≠ q := by
        rintro rfl
        rw [hsq] at ha
        cases ha
      have hxp : x ≠ p := by
        rintro rfl
        rw [hsp] at ha
        exact hoff.elim (fun ho => by simp only [ho] at ha; cases ha) hL
      exact ⟨((horder x).mp hx).resolve_left hxq, hsmf x hxp hxq⟩
    intro x hx y hy hax hay hxL hyL
    obtain ⟨hxo, hxs⟩ := hne x hx hax hxL
    obtain ⟨hyo, hys⟩ := hne y hy hay hyL
    rw [hxs] at hax ⊢
    rw [hys] at hay ⊢
    exact h.coalesced x hxo y hyo hax hay hxL hyL

/-- Two segments on no list are joined, and `q` goes: the lists are in order when the places are. -/
theorem Inv.absorb {e : Extent} (h : Inv pagesize C L s) (hgeom : Geom pagesize C s') (hpL : p ∈ L) (hqL : q ∈ L) (hpq : p ≠ q)
    (horder : ∀ x, x ∈ s'.order ↔ x ∈ s.order ∧ x ≠ q) (hsmf : ∀ x ≠ p, s'.smf x = s.smf x)
    (hsp : s'.smf p = { s.smf p with ext := e }) (hused : s'.used = s.used) (hfree : s'.free = s.free)
    (hL : ∀ x, x ∈ L' ↔ x ∈ L ∧ x ≠ q) : Inv pagesize C L' s' := by
  have hs := h.status
  obtain ⟨hpo, hpa⟩ := hs.limbo p hpL
  obtain ⟨hqo, hqa⟩ := hs.limbo q hqL
  have hqused : q ∉ s.used := by
    intro hu
    have ha := ((hs.mem_used q).mp hu).2
    rw [hqa] at ha
    cases ha
  have halloc : ∀ x, (s'.smf x).alloc = (s.smf x).alloc := by
    intro x
    by_cases hxp : x = p
    · rw [hxp, hsp]
    · rw [hsmf x hxp]
  have hsame : ∀ b, ∀ x ∈ s.free b, s'.smf x = s.smf x := fun b x hx =>
    hsmf x fun he => ((hs.mem_free b x).mp hx).2.2.1 (he ▸ hpL)
  refine ⟨hgeom, ⟨hused ▸ hs.used_nodup, fun x => ?_, fun b x => ?_, fun b => ?_, fun x hx => ?_, fun x hx => ?_⟩, ?_⟩
  · rw [hused, horder, halloc, hs.mem_used]
    constructor
    · rintro ⟨hxo, hxa⟩
      refine ⟨⟨hxo, ?_⟩, hxa⟩
      rintro rfl
      rw [hqa] at hxa
      cases hxa
    · rintro ⟨⟨hxo, -⟩, hxa⟩
      exact ⟨hxo, hxa⟩
  · rw [hfree, horder, halloc, hs.mem_free, hL]
    by_cases hxp : x = p
    · rw [hxp]
      constructor
      · rintro ⟨-, -, hn, -⟩
        exact absurd hpL hn
      · rintro ⟨-, -, hn, -⟩
        exact absurd ⟨hpL, hpq⟩ hn
    · rw [Sc.bucketOf, Sc.bucketOf, hsmf x hxp]
      constructor
      · rintro ⟨hxo, hxa, hxL, hxb⟩
        exact ⟨⟨hxo, fun he => hxL (he ▸ hqL)⟩, hxa, fun hx => hxL hx.1, hxb⟩
      · rintro ⟨⟨hxo, hxq⟩, hxa, hxL, hxb⟩
        exact ⟨hxo, hxa, fun hx => hxL ⟨hx, hxq⟩, hxb⟩
  · rw [hfree]
    refine (hs.free_sorted b).imp_of_mem fun {x y} hx hy hlt => ?_
    rw [hsame b x hx, hsame b y hy]
    exact hlt
  · obtain ⟨hxo, hxq⟩ := (horder x).mp hx
    by_cases hxp : x = p
    · rw [hxp, hsp, if_pos (.inr ((hL p).mpr ⟨hpL, hpq⟩))]
      have hf := hs.flist p hpo
      rwa [if_pos (.inr hpL)] at hf
    · rw [Sc.bucketOf, hsmf x hxp, hs.flist x hxo, Sc.bucketOf]
      simp [hL, hxq]
  · obtain ⟨hxL, hxq⟩ := (hL x).mp hx
    obtain ⟨hxo, hxa⟩ := hs.limbo x hxL
    exact ⟨(horder x).mpr ⟨hxo, hxq⟩, (halloc x).trans hxa⟩
  · have hne : ∀ x ∈ s'.order, x ∉ L' → x ∈ s.order ∧ x ∉ L ∧ s'.smf x = s.smf x := by
      intro x hx hxL'
      obtain ⟨hxo, hxq⟩ := (horder x).mp hx
      have hxL : x ∉ L := fun hx => hxL' ((hL x).mpr ⟨hx, hxq⟩)
      exact ⟨hxo, hxL, hsmf x fun he => hxL (he ▸ hpL)⟩
    intro x hx y hy hax hay hxL hyL
    obtain ⟨hxo, hxL', hxs⟩ := hne x hx hxL
    obtain ⟨hyo, hyL', hys⟩ := hne y hy hyL
    rw [hxs] at hax ⊢
    rw [hys] at hay ⊢
    exact h.coalesced x hxo y hyo hax hay hxL' hyL'

end Lists

end Varnish.File
