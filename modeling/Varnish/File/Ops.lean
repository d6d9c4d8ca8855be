import Varnish.File.Cut

/-!
# Varnish.File.Ops — the operations of the file storage keep its invariant

* `joinNext_inv`, `joinPrev_inv`, `freeSmf_inv`: a segment is freed, and joined to its neighbours.
* `trimSmf_inv`, `allocSmf_inv`: a segment is cut.
-/

namespace Varnish.File

open Varnish.Lib

variable {pagesize n bytes : ℕ} {C : List Extent} {L : List ℕ} {s : Sc} {p q : ℕ}

/-! ## Neighbours -/

section Neighbours

theorem Geom.ext_inj (h : Geom pagesize C s) (hp : p ∈ s.order) (hq : q ∈ s.order) (he : (s.smf p).ext = (s.smf q).ext) :
    p = q := by
  by_contra hne
  have hs := h.laid.sorted
  rw [Sc.exts, List.pairwise_map] at hs
  have : Std.Symm fun x y => (s.smf x).ext ≠ (s.smf y).ext := ⟨fun _ _ hxy => hxy.symm⟩
  have hpair : s.order.Pairwise fun x y => (s.smf x).ext ≠ (s.smf y).ext := by
    refine hs.imp_of_mem fun {x y} hx _ hlt heq => ?_
    have hpos := h.pos hx
    unfold Extent.Before at hlt
    rw [← heq] at hlt
    omega
  exact hpair.forall hp hq hne he

/-- A segment that goes on where `p` ends is the next one. -/
theorem Geom.next_of_touch (h : Geom pagesize C s) (hp : p ∈ s.order) (hq : q ∈ s.order)
    (ht : (s.smf p).ext.Touch (s.smf q).ext) : Tailq.next p s.order = some q := by
  obtain ⟨l₁, l₂, ho, hp₁⟩ := List.eq_append_cons_of_mem hp
  have hlaid := h.laid
  have hmem : (s.smf q).ext ∈ s.exts := List.mem_map_of_mem hq
  rw [Sc.exts, ho, List.map_append, List.map_cons] at hlaid hmem
  have hhead := hlaid.head_of_ptr hmem ht.1
  rw [List.head?_map] at hhead
  obtain ⟨y, hy, hye⟩ := Option.map_eq_some_iff.mp hhead
  have hyo : y ∈ s.order := by
    rw [ho]
    exact List.mem_append_right _ (List.mem_cons_of_mem _ (List.mem_of_mem_head? hy))
  rw [ho, Tailq.next_mid hp₁, hy, h.ext_inj hyo hq hye]

/-- A segment that ends where `p` begins is the one before it. -/
theorem Geom.prev_of_touch (h : Geom pagesize C s) (hp : p ∈ s.order) (hq : q ∈ s.order)
    (ht : (s.smf q).ext.Touch (s.smf p).ext) : Tailq.prev p s.order = some q := by
  obtain ⟨l₁, l₂, ho, hp₁⟩ := List.eq_append_cons_of_mem hp
  have hlaid := h.laid
  have hmem : (s.smf q).ext ∈ s.exts := List.mem_map_of_mem hq
  rw [Sc.exts, ho, List.map_append, List.map_cons] at hlaid hmem
  have hlast := hlaid.last_of_ptr hmem ht.1
  rw [List.getLast?_map] at hlast
  obtain ⟨y, hy, hye⟩ := Option.map_eq_some_iff.mp hlast
  have hyo : y ∈ s.order := by
    rw [ho]
    exact List.mem_append_left _ (List.mem_of_getLast? hy)
  rw [ho, Tailq.prev_mid hp₁, hy, h.ext_inj hyo hq hye]

end Neighbours

/-! ## `free_smf` -/

section Free

/-- `q` is joined to `p` and goes. -/
def joined (s : Sc) (p q : ℕ) : Sc :=
  { s.set p { s.smf p with ext := { (s.smf p).ext with size := (s.smf p).ext.size + (s.smf q).ext.size } } with
    order := s.order.erase q }

theorem joined_smf_of_ne (s : Sc) {x : ℕ} (h : x ≠ p) : (joined s p q).smf x = s.smf x := set_smf_of_ne s _ h

theorem joined_ext (s : Sc) (p q : ℕ) :
    ((joined s p q).smf p).ext = { (s.smf p).ext with size := (s.smf p).ext.size + (s.smf q).ext.size } := by
  rw [joined]
  simp only [set_smf_self]

/-- Two neighbours on no list are joined. -/
theorem Inv.joined {L' : List ℕ} {l₁ l₂ : List ℕ} (h : Inv pagesize C L s) (ho : s.order = l₁ ++ p :: q :: l₂) (hpL : p ∈ L)
    (hqL : q ∈ L) (ht : (s.smf p).ext.Touch (s.smf q).ext) (hL : ∀ x, x ∈ L' ↔ x ∈ L ∧ x ≠ q) :
    Inv pagesize C L' (joined s p q) := by
  have hnodup := h.geom.nodup
  have hmid : l₁ ++ p :: q :: l₂ = (l₁ ++ [p]) ++ q :: l₂ := by rw [List.append_assoc]; rfl
  have hq : q ∉ l₁ ++ [p] := by
    rw [ho, hmid] at hnodup
    exact fun hq => (List.nodup_append.mp hnodup).2.2 q hq q List.mem_cons_self rfl
  have hpq : p ≠ q := fun he => hq (List.mem_append_right _ (List.mem_singleton.mpr he.symm))
  have ho' : (File.joined s p q).order = l₁ ++ p :: l₂ := by
    rw [File.joined, ho, hmid, Tailq.erase_mid hq, List.append_assoc]
    rfl
  have hp : p ∉ l₁ ++ l₂ := by
    rw [ho] at hnodup
    obtain ⟨-, h₂, h₁₂⟩ := List.nodup_append.mp hnodup
    intro hp
    rcases List.mem_append.mp hp with hp | hp
    · exact h₁₂ p hp p List.mem_cons_self rfl
    · exact (List.nodup_cons.mp h₂).1 (List.mem_cons_of_mem _ hp)
  have hgeom : Geom pagesize C (File.joined s p q) := by
    refine h.geom.join ho ho' ht (joined_ext s p q) (fun x hx => ?_) rfl
    rw [joined_smf_of_ne s fun he : x = p => hp (he ▸ hx)]
  refine h.absorb hgeom hpL hqL hpq (fun x => ?_) (fun x hx => joined_smf_of_ne s hx) (set_smf_self ..) rfl rfl hL
  rw [File.joined, hnodup.mem_erase_iff]
  exact and_comm

/-- What is left as it was when a segment is freed. -/
structure Keeps (s s' : Sc) : Prop where
  used : s'.used = s.used
  smf : ∀ x ∈ s.used, s'.smf x = s.smf x

theorem retired_smf_of_ne (s : Sc) {x : ℕ} (h : x ≠ p) : (retired pagesize s p).smf x = s.smf x := set_smf_of_ne s _ h

theorem set_ext (s : Sc) {sp : Smf} (h : sp.ext = (s.smf p).ext) (x : ℕ) : ((s.set p sp).smf x).ext = (s.smf x).ext := by
  by_cases hx : x = p
  · rw [hx, set_smf_self, h]
  · rw [set_smf_of_ne s sp hx]

theorem retired_ext (s : Sc) (p x : ℕ) : ((retired pagesize s p).smf x).ext = (s.smf x).ext :=
  set_ext s (by rfl) x

theorem admitted_ext (s : Sc) (p x : ℕ) : ((admitted pagesize s p).smf x).ext = (s.smf x).ext :=
  set_ext s (by rfl) x

theorem granted_ext (s : Sc) (p x : ℕ) : ((granted s p).smf x).ext = (s.smf x).ext :=
  set_ext s (by rfl) x

/-- The order in which `free_smf` does the first join does not matter. -/
theorem joinNext_eq (hpq : p ≠ q) (hnext : Tailq.next p s.order = some q) (hj : Joins (s.smf p) (s.smf q))
    (hflist : (s.smf q).flist = some (s.bucketOf pagesize q)) :
    joinNext pagesize s p = some (joined (retired pagesize s q) p q) := by
  rw [joinNext, hnext]
  simp only
  rw [if_pos hj, remfree, joined, retired_smf_of_ne s hpq, retired_ext]
  have hq : ∀ sp, (s.set p sp).smf q = s.smf q := fun sp => set_smf_of_ne s sp hpq.symm
  simp only [Sc.set] at hq
  simp only [Sc.set, hq, Sc.bucketOf] at hflist ⊢
  rw [if_pos ⟨hj.1, hflist⟩]
  simp only [retired, Sc.set, Sc.bucketOf]
  rw [Function.update_comm hpq]

theorem joinNext_inv (h : Inv pagesize C [p] s) :
    ∃ s', joinNext pagesize s p = some s' ∧ Inv pagesize C [p] s' ∧ Keeps s s' ∧
      ∀ x ∈ s'.order, x ≠ p → (s'.smf x).alloc = false → ¬ (s'.smf p).ext.Touch (s'.smf x).ext := by
  obtain ⟨hp, hpa⟩ := h.status.limbo p List.mem_cons_self
  by_cases hj : ∃ q, Tailq.next p s.order = some q ∧ Joins (s.smf p) (s.smf q)
  · obtain ⟨q, hnext, hj⟩ := hj
    obtain ⟨l₁, l₂, ho, hp₁⟩ := List.eq_append_cons_of_mem hp
    have hl₂ : ∃ l₃, l₂ = q :: l₃ := by
      rw [ho, Tailq.next_mid hp₁] at hnext
      cases l₂ with
      | nil => cases hnext
      | cons y l₃ =>
        cases hnext
        exact ⟨l₃, rfl⟩
    obtain ⟨l₃, rfl⟩ := hl₂
    have hq : q ∈ s.order := by
      rw [ho]
      exact List.mem_append_right _ (List.mem_cons_of_mem _ List.mem_cons_self)
    have hpq : p ≠ q := by
      rintro rfl
      have hpos := h.geom.pos hp
      have ht := hj.2.1
      omega
    have hqL : q ∉ [p] := fun hm => hpq (List.mem_singleton.mp hm).symm
    have hflist := h.status.flist q hq
    rw [if_neg (by simp [hj.1, hpq.symm])] at hflist
    obtain ⟨-, hinv⟩ := h.retire hq hj.1 hqL
    have htouch : ((retired pagesize s q).smf p).ext.Touch ((retired pagesize s q).smf q).ext := by
      rw [retired_ext, retired_ext]
      exact hj.2
    have hinv' : Inv pagesize C [p] (joined (retired pagesize s q) p q) := by
      refine hinv.joined ho (by simp) (by simp) htouch fun x => ?_
      simp only [List.mem_cons, List.not_mem_nil, or_false]
      constructor
      · rintro rfl
        exact ⟨.inr rfl, hpq⟩
      · rintro ⟨rfl | hx, hxq⟩
        · exact absurd rfl hxq
        · exact hx
    refine ⟨_, joinNext_eq hpq hnext hj hflist, hinv', ⟨rfl, fun x hx => ?_⟩, fun x hx hxp hxa ht => ?_⟩
    · obtain ⟨-, hxa⟩ := (h.status.mem_used x).mp hx
      have hxp : x ≠ p := by
        rintro rfl
        rw [hpa] at hxa
        cases hxa
      have hxq : x ≠ q := by
        rintro rfl
        rw [hj.1] at hxa
        cases hxa
      rw [joined_smf_of_ne _ hxp, retired_smf_of_ne s hxq]
    · -- what touches the end of both touched the end of `q`
      have hxo : x ∈ s.order ∧ x ≠ q := by
        have hmem : x ∈ s.order.erase q := hx
        rw [h.geom.nodup.mem_erase_iff] at hmem
        exact hmem.symm
      rw [joined_smf_of_ne _ hxp, retired_smf_of_ne s hxo.2] at hxa
      rw [joined_ext, joined_smf_of_ne _ hxp, retired_ext, retired_ext, retired_ext] at ht
      refine h.coalesced q hq x hxo.1 hj.1 hxa hqL (fun hm => hxp (List.mem_singleton.mp hm)) ?_
      obtain ⟨htp, hto⟩ := ht
      obtain ⟨hjp, hjo⟩ := hj.2
      simp only at htp hto
      exact ⟨by omega, by omega⟩
  · refine ⟨s, ?_, h, ⟨rfl, fun x _ => rfl⟩, fun x hx hxp hxa ht => ?_⟩
    · rw [joinNext]
      cases hnext : Tailq.next p s.order with
      | none => rfl
      | some q =>
        simp only
        exact if_neg fun hjq => hj ⟨q, hnext, hjq⟩
    · exact hj ⟨x, h.geom.next_of_touch hp hx ht, hxa, ht⟩

theorem joinPrev_inv (h : Inv pagesize C [p] s)
    (hright : ∀ x ∈ s.order, x ≠ p → (s.smf x).alloc = false → ¬ (s.smf p).ext.Touch (s.smf x).ext) :
    ∃ s' p', joinPrev pagesize s p = some (s', p') ∧ Inv pagesize C [p'] s' ∧ Keeps s s' ∧
      ∀ x ∈ s'.order, x ≠ p' → (s'.smf x).alloc = false →
        ¬ (s'.smf p').ext.Touch (s'.smf x).ext ∧ ¬ (s'.smf x).ext.Touch (s'.smf p').ext := by
  obtain ⟨hp, hpa⟩ := h.status.limbo p List.mem_cons_self
  by_cases hj : ∃ q, Tailq.prev p s.order = some q ∧ (s.smf q).alloc = false ∧ (s.smf q).ext.Touch (s.smf p).ext
  · obtain ⟨q, hprev, hqa, ht⟩ := hj
    obtain ⟨l₁, l₂, ho, hp₁⟩ := List.eq_append_cons_of_mem hp
    have hl₁ : ∃ l₀, l₁ = l₀ ++ [q] := by
      rw [ho, Tailq.prev_mid hp₁] at hprev
      exact List.getLast?_eq_some_iff.mp hprev
    obtain ⟨l₀, rfl⟩ := hl₁
    have ho' : s.order = l₀ ++ q :: p :: l₂ := by rw [ho, List.append_assoc]; rfl
    have hq : q ∈ s.order := by
      rw [ho']
      exact List.mem_append_right _ List.mem_cons_self
    have hpq : p ≠ q := fun he => hp₁ (List.mem_append_right _ (List.mem_singleton.mpr he))
    have hqL : q ∉ [p] := fun hm => hpq (List.mem_singleton.mp hm).symm
    obtain ⟨hrem, hinv⟩ := h.retire hq hqa hqL
    have htouch : ((retired pagesize s q).smf q).ext.Touch ((retired pagesize s q).smf p).ext := by
      rw [retired_ext, retired_ext]
      exact ht
    have hinv' : Inv pagesize C [q] (joined (retired pagesize s q) q p) := by
      refine hinv.joined ho' (by simp) (by simp) htouch fun x => ?_
      simp only [List.mem_cons, List.not_mem_nil, or_false]
      constructor
      · rintro rfl
        exact ⟨.inl rfl, hpq.symm⟩
      · rintro ⟨hx | rfl, hxp⟩
        · exact hx
        · exact absurd rfl hxp
    refine ⟨_, q, ?_, hinv', ⟨rfl, fun x hx => ?_⟩, fun x hx hxq hxa => ?_⟩
    · rw [joinPrev, hprev]
      simp only
      rw [if_pos ⟨hqa, ht⟩, hrem]
      rfl
    · obtain ⟨-, hxa⟩ := (h.status.mem_used x).mp hx
      have hxq : x ≠ q := by
        rintro rfl
        rw [hqa] at hxa
        cases hxa
      rw [joined_smf_of_ne _ hxq, retired_smf_of_ne s hxq]
    · have hxo : x ∈ s.order ∧ x ≠ p := by
        have hmem : x ∈ s.order.erase p := hx
        rw [h.geom.nodup.mem_erase_iff] at hmem
        exact hmem.symm
      rw [joined_smf_of_ne _ hxq, retired_smf_of_ne s hxq] at hxa
      rw [joined_ext, joined_smf_of_ne _ hxq, retired_ext, retired_ext, retired_ext]
      obtain ⟨hjp, hjo⟩ := ht
      constructor
      · rintro ⟨htp, hto⟩
        simp only at htp hto
        exact hright x hxo.1 hxo.2 hxa ⟨by omega, by omega⟩
      · rintro ⟨htp, hto⟩
        exact h.coalesced x hxo.1 q hq hxa hqa (fun hm => hxo.2 (List.mem_singleton.mp hm)) hqL ⟨htp, hto⟩
  · refine ⟨s, p, ?_, h, ⟨rfl, fun x _ => rfl⟩, fun x hx hxp hxa => ⟨hright x hx hxp hxa, fun ht => ?_⟩⟩
    · rw [joinPrev]
      cases hprev : Tailq.prev p s.order with
      | none => rfl
      | some q =>
        simp only
        exact if_neg fun hjq => hj ⟨q, hprev, hjq⟩
    · exact hj ⟨x, h.geom.prev_of_touch hp hx ht, hxa, ht⟩

theorem admitted_smf_of_ne (s : Sc) {x : ℕ} (h : x ≠ p) : (admitted pagesize s p).smf x = s.smf x := set_smf_of_ne s _ h

/-- A segment in use is freed. -/
theorem freeSmf_inv (h : Inv pagesize C [] s) (hC : FileApart C) (hp : p ∈ s.used) :
    ∃ s', freeSmf pagesize s p = some s' ∧ Inv pagesize C [] s' ∧ s'.used = s.used.erase p ∧
      ∀ x ∈ s.used, x ≠ p → s'.smf x = s.smf x := by
  obtain ⟨hpo, hpa⟩ := (h.status.mem_used p).mp hp
  have hpos := h.geom.pos hpo
  have hpage : (s.smf p).ext.size % pagesize = 0 := Nat.mod_eq_zero_of_dvd (h.geom.pages p hpo)
  obtain ⟨s₁, hs₁, hi₁, hk₁, hr₁⟩ := joinNext_inv (h.release hp)
  obtain ⟨s₂, p', hs₂, hi₂, hk₂, hr₂⟩ := joinPrev_inv hi₁ hr₁
  obtain ⟨hs₃, hi₃⟩ := hi₂.admit hC List.not_mem_nil fun x hx hxp hxa _ => hr₂ x hx hxp hxa
  refine ⟨_, ?_, hi₃, ?_, fun x hx hxp => ?_⟩
  · rw [freeSmf]
    simp only [bind, Option.bind]
    rw [if_neg (by simp [hpa, hpage]; omega)]
    rw [hs₁]
    simp only [hs₂, hs₃]
  · exact hk₂.used.trans hk₁.used
  · have hx₁ : x ∈ (released s p).used := (List.mem_erase_of_ne hxp).mpr hx
    have hx₂ : x ∈ s₁.used := hk₁.used ▸ hx₁
    have hxp' : x ≠ p' := by
      rintro rfl
      obtain ⟨-, hxa⟩ := (hi₂.status.mem_used x).mp (hk₂.used ▸ hx₂)
      have hxf := (hi₂.status.limbo x List.mem_cons_self).2
      rw [hxa] at hxf
      cases hxf
    rw [admitted_smf_of_ne s₂ hxp', hk₂.smf x hx₂, hk₁.smf x hx₁]
    exact set_smf_of_ne s _ hxp

end Free

/-! ## `trim_smf` -/

section Trim

theorem Geom.next_not_mem (h : Geom pagesize C s) : s.next ∉ s.order := fun hm => absurd (h.fresh _ hm) (lt_irrefl _)

/-- The segment `p` is cut into `a` and `b`, one of which is `p` and the other one new. -/
theorem Geom.cut_new {a b : ℕ} {l₁ l₂ : List ℕ} (h : Geom pagesize C s) (ho : s.order = l₁ ++ p :: l₂)
    (ho' : s'.order = l₁ ++ a :: b :: l₂) (hab : a = p ∧ b = s.next ∨ a = s.next ∧ b = p) (hnext : s'.next = s.next + 1)
    (hsmf : ∀ x, x ≠ p → x ≠ s.next → s'.smf x = s.smf x) (h0 : 0 < n) (hn : n < (s.smf p).ext.size) (hpage : pagesize ∣ n)
    (ha : (s'.smf a).ext = (s.smf p).ext.front n) (hb : (s'.smf b).ext = (s.smf p).ext.back n) :
    Geom pagesize C s' ∧ ∀ x, x ∈ s'.order ↔ x = s.next ∨ x ∈ s.order := by
  have horder : ∀ x, x ∈ s'.order ↔ x = s.next ∨ x ∈ s.order := by
    intro x
    rw [ho', ho]
    simp only [List.mem_append, List.mem_cons]
    rcases hab with ⟨rfl, rfl⟩ | ⟨rfl, rfl⟩
    · tauto
    · tauto
  have hnodup := h.nodup
  rw [ho] at hnodup
  obtain ⟨-, hcons, hapart⟩ := List.nodup_append.mp hnodup
  have hp₁ : p ∉ l₁ := fun hx => hapart p hx p List.mem_cons_self rfl
  have hp₂ : p ∉ l₂ := (List.nodup_cons.mp hcons).1
  refine ⟨h.cut ho ho' h0 hn hpage ha hb (fun x hx => ?_) fun x hx => ?_, horder⟩
  · rw [hsmf x]
    · rintro rfl
      exact (List.mem_append.mp hx).elim hp₁ hp₂
    · rintro rfl
      refine h.next_not_mem ?_
      rw [ho]
      rcases List.mem_append.mp hx with hx | hx
      · exact List.mem_append_left _ hx
      · exact List.mem_append_right _ (List.mem_cons_of_mem _ hx)
  · rw [hnext]
    rcases (horder x).mp hx with rfl | hx
    · exact Nat.lt_succ_self _
    · exact Nat.lt_succ_of_lt (h.fresh x hx)

theorem Inv.cutBack (h : Inv pagesize C L s) (hp : p ∈ s.used) (h0 : 0 < n) (hn : n < (s.smf p).ext.size)
    (hpage : pagesize ∣ n) : Inv pagesize C L (cutBack s p n) := by
  obtain ⟨hpo, hpa⟩ := (h.status.mem_used p).mp hp
  have hq := h.geom.next_not_mem
  have hpq : s.next ≠ p := fun he => hq (he ▸ hpo)
  obtain ⟨l₁, l₂, ho, hp₁⟩ := List.eq_append_cons_of_mem hpo
  have hsp : (File.cutBack s p n).smf p = { s.smf p with ext := (s.smf p).ext.front n } := set_smf_self ..
  have hsq : (File.cutBack s p n).smf s.next = { s.smf p with ext := (s.smf p).ext.back n, alloc := true } := by
    rw [File.cutBack]
    simp only
    rw [set_smf_of_ne _ _ hpq, set_smf_self, ← hpa]
  have hsmf : ∀ x, x ≠ p → x ≠ s.next → (File.cutBack s p n).smf x = s.smf x := by
    intro x hxp hxq
    rw [File.cutBack]
    simp only
    rw [set_smf_of_ne _ _ hxp, set_smf_of_ne _ _ hxq]
  have ho' : (File.cutBack s p n).order = l₁ ++ p :: s.next :: l₂ := by
    rw [File.cutBack, ho, Tailq.insertAfter_mid hp₁]
  obtain ⟨hgeom, horder⟩ := h.geom.cut_new ho ho' (.inl ⟨rfl, rfl⟩) rfl hsmf h0 hn hpage (by rw [hsp]) (by rw [hsq])
  exact h.cut hgeom hpo (.inl hpa) hq horder hsmf hsp hsq rfl rfl

theorem trimSmf_inv (h : Inv pagesize C [] s) (hC : FileApart C) (hp : p ∈ s.used) (h0 : 0 < bytes)
    (hlt : bytes < (s.smf p).ext.size) (hpage : bytes % pagesize = 0) :
    ∃ s', trimSmf pagesize s p bytes = some s' ∧ Inv pagesize C [] s' ∧ s'.used = s.used ∧
      (s'.smf p).ext = (s.smf p).ext.front bytes := by
  obtain ⟨hpo, hpa⟩ := (h.status.mem_used p).mp hp
  have hq := h.geom.next_not_mem
  have hqu : s.next ∉ s.used := fun hu => hq ((h.status.mem_used _).mp hu).1
  have hpq : p ≠ s.next := fun he => hq (he ▸ hpo)
  have hsize : (s.smf p).ext.size % pagesize = 0 := Nat.mod_eq_zero_of_dvd (h.geom.pages p hpo)
  have hinv := h.cutBack hp h0 hlt (Nat.dvd_of_mod_eq_zero hpage)
  obtain ⟨s', hs', hi', hu', hk'⟩ := freeSmf_inv hinv hC (p := s.next) (List.mem_append_right _ (List.mem_singleton_self _))
  refine ⟨s', ?_, hi', ?_, ?_⟩
  · rw [trimSmf, if_neg]
    · exact hs'
    · simp only [hpa, hpage, hsize]
      simp
      omega
  · rw [hu']
    change (s.used ++ [s.next]).erase s.next = s.used
    rw [Tailq.erase_mid hqu, List.append_nil]
  · rw [hk' p (List.mem_append_left _ hp) hpq]
    exact congrArg Smf.ext (set_smf_self ..)

end Trim

/-! ## `alloc_smf` -/

section Alloc

theorem bucket_eq_min (size : ℕ) : bucket pagesize size = min (size / pagesize) (nbucket - 1) := by
  rw [bucket]
  have hn : nbucket = 33 := rfl
  split <;> omega

/-- The segment that is found is free and large enough. -/
theorem findFree_spec (h : Inv pagesize C [] s) (hpage : bytes % pagesize = 0) (hf : findFree pagesize s bytes = some p) :
    p ∈ s.order ∧ (s.smf p).alloc = false ∧ bytes ≤ (s.smf p).ext.size := by
  have hfree : ∀ b, p ∈ s.free b → p ∈ s.order ∧ (s.smf p).alloc = false ∧ s.bucketOf pagesize p = b := by
    intro b hb
    obtain ⟨hpo, hpa, -, hpb⟩ := (h.status.mem_free b p).mp hb
    exact ⟨hpo, hpa, hpb⟩
  rw [findFree] at hf
  rcases Option.or_eq_some_iff.mp hf with hf | ⟨-, hf⟩
  · obtain ⟨i, hi, hhead⟩ := List.exists_of_findSome?_eq_some hf
    obtain ⟨hpo, hpa, hpb⟩ := hfree _ (List.mem_of_mem_head? hhead)
    refine ⟨hpo, hpa, ?_⟩
    have hlt := List.mem_range.mp hi
    rw [Sc.bucketOf, bucket_eq_min, bucket_eq_min] at hpb
    rw [bucket_eq_min] at hlt
    have hdiv : bytes / pagesize ≤ (s.smf p).ext.size / pagesize := by omega
    calc bytes = bytes / pagesize * pagesize := (Nat.div_mul_cancel (Nat.dvd_of_mod_eq_zero hpage)).symm
      _ ≤ (s.smf p).ext.size / pagesize * pagesize := Nat.mul_le_mul_right _ hdiv
      _ ≤ (s.smf p).ext.size := Nat.div_mul_le_self _ _
  · obtain ⟨hpo, hpa, -⟩ := hfree _ (List.mem_of_find?_eq_some hf)
    exact ⟨hpo, hpa, by simpa using List.find?_some hf⟩

theorem cutFront_smf (s : Sc) (p n : ℕ) (hpq : s.next ≠ p) :
    (cutFront s p n).smf p = { s.smf p with ext := (s.smf p).ext.back n } ∧
    (cutFront s p n).smf s.next = { s.smf p with ext := (s.smf p).ext.front n, alloc := true } ∧
    ∀ x, x ≠ p → x ≠ s.next → (cutFront s p n).smf x = s.smf x := by
  refine ⟨set_smf_self .., ?_, fun x hxp hxq => ?_⟩
  · rw [cutFront]
    simp only
    rw [set_smf_of_ne _ _ hpq, set_smf_self]
  · rw [cutFront]
    simp only
    rw [set_smf_of_ne _ _ hxp, set_smf_of_ne _ _ hxq]

theorem Inv.cutFront (h : Inv pagesize C L s) (hpL : p ∈ L) (h0 : 0 < n) (hn : n < (s.smf p).ext.size)
    (hpage : pagesize ∣ n) : Inv pagesize C L (cutFront s p n) := by
  obtain ⟨hpo, hpa⟩ := h.status.limbo p hpL
  have hq := h.geom.next_not_mem
  have hpq : s.next ≠ p := fun he => hq (he ▸ hpo)
  obtain ⟨l₁, l₂, ho, hp₁⟩ := List.eq_append_cons_of_mem hpo
  obtain ⟨hsp, hsq, hsmf⟩ := cutFront_smf s p n hpq
  have ho' : (File.cutFront s p n).order = l₁ ++ s.next :: p :: l₂ := by
    rw [File.cutFront, ho, Tailq.insertBefore_mid hp₁]
  obtain ⟨hgeom, horder⟩ := h.geom.cut_new ho ho' (.inr ⟨rfl, rfl⟩) rfl hsmf h0 hn hpage (by rw [hsq]) (by rw [hsp])
  exact h.cut hgeom hpo (.inr hpL) hq horder hsmf hsp hsq rfl rfl

/-- Space is allocated, when there is a free segment that is large enough. -/
theorem allocSmf_inv (h : Inv pagesize C [] s) (hC : FileApart C) (hpage : bytes % pagesize = 0)
    (h0 : bytes = 0 → findFree pagesize s bytes = none) :
    ∃ s' r, allocSmf pagesize s bytes = some (s', r) ∧ Inv pagesize C [] s' ∧
      ∀ q ∈ r, q ∈ s'.used ∧ (s'.smf q).ext.size = bytes := by
  rw [allocSmf, if_neg (fun hne => hne hpage)]
  cases hf : findFree pagesize s bytes with
  | none => exact ⟨s, none, rfl, h, fun q hq => (by cases hq)⟩
  | some p =>
    have hpos : 0 < bytes := Nat.pos_of_ne_zero fun hz => by rw [h0 hz] at hf; cases hf
    obtain ⟨hp, hpa, hle⟩ := findFree_spec h hpage hf
    obtain ⟨hrem, hinv⟩ := h.retire hp hpa List.not_mem_nil
    have hself : (retired pagesize s p).smf p = { s.smf p with flist := none } := set_smf_self ..
    have hsize : ((retired pagesize s p).smf p).ext.size = (s.smf p).ext.size := by rw [hself]
    simp only [bind, Option.bind]
    rw [if_neg (by omega), hrem]
    simp only
    by_cases heq : ((retired pagesize s p).smf p).ext.size = bytes
    · rw [if_pos heq]
      refine ⟨granted (retired pagesize s p) p, some p, rfl, hinv.grant List.not_mem_nil, fun q hq => ?_⟩
      cases hq
      exact ⟨List.mem_append_right _ (List.mem_singleton_self p), by rw [granted_ext]; exact heq⟩
    · rw [if_neg heq]
      have hlt : bytes < ((retired pagesize s p).smf p).ext.size := by omega
      have hcut := hinv.cutFront List.mem_cons_self hpos hlt (Nat.dvd_of_mod_eq_zero hpage)
      have hpq : (retired pagesize s p).next ≠ p := fun he => hinv.geom.next_not_mem (he ▸ hp)
      obtain ⟨hsp, hsq, hsmf⟩ := cutFront_smf (retired pagesize s p) p bytes hpq
      have hpo' := (hcut.status.limbo p List.mem_cons_self).1
      have hqu : (retired pagesize s p).next ∈ (cutFront (retired pagesize s p) p bytes).used :=
        List.mem_append_right _ (List.mem_singleton_self _)
      have hqo := ((hcut.status.mem_used _).mp hqu).1
      -- the back touches no free segment: before it is the new one, and behind it nothing changed
      have hapart : ∀ x ∈ (cutFront (retired pagesize s p) p bytes).order, x ≠ p →
          ((cutFront (retired pagesize s p) p bytes).smf x).alloc = false → x ∉ ([] : List ℕ) →
          ¬ ((cutFront (retired pagesize s p) p bytes).smf p).ext.Touch ((cutFront (retired pagesize s p) p bytes).smf x).ext ∧
          ¬ ((cutFront (retired pagesize s p) p bytes).smf x).ext.Touch
            ((cutFront (retired pagesize s p) p bytes).smf p).ext := by
        intro x hx hxp hxa _
        have hxq : x ≠ (retired pagesize s p).next := by
          rintro rfl
          rw [hsq] at hxa
          cases hxa
        have hxo : x ∈ s.order := by
          obtain ⟨l₁, l₂, ho, hp₁⟩ := List.eq_append_cons_of_mem hp
          have hx' : x ∈ Tailq.insertBefore (retired pagesize s p).next p s.order := hx
          rw [ho, Tailq.insertBefore_mid hp₁] at hx'
          rw [ho]
          simp only [List.mem_append, List.mem_cons] at hx' ⊢
          tauto
        constructor
        · intro ht
          rw [hsmf x hxp hxq, retired_smf_of_ne s hxp] at ht hxa
          rw [hsp] at ht
          refine h.coalesced p hp x hxo hpa hxa List.not_mem_nil List.not_mem_nil ?_
          obtain ⟨htp, hto⟩ := ht
          rw [hself] at htp hto
          simp only [Extent.back] at htp hto
          exact ⟨by omega, by omega⟩
        · intro ht
          have hprev := hcut.geom.prev_of_touch hpo' hx ht
          have htq : ((cutFront (retired pagesize s p) p bytes).smf (retired pagesize s p).next).ext.Touch
              ((cutFront (retired pagesize s p) p bytes).smf p).ext := by
            rw [hsp, hsq]
            exact Extent.touch_front_back _ _
          rw [hcut.geom.prev_of_touch hpo' hqo htq] at hprev
          cases hprev
          exact hxq rfl
      obtain ⟨hadm, hadmi⟩ := hcut.admit hC List.not_mem_nil hapart
      refine ⟨admitted pagesize (cutFront (retired pagesize s p) p bytes) p, some (retired pagesize s p).next, ?_, hadmi, ?_⟩
      · rw [hadm]
      · intro q hq
        cases hq
        refine ⟨hqu, ?_⟩
        rw [admitted_ext, hsq]
        rfl

end Alloc

end Varnish.File
