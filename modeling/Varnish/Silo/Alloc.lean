import Varnish.Silo.Layout

/-!
# Varnish.Silo.Alloc — the allocations of a silo

* `grab_inv`, `tries_inv`, `alloc_inv`: `smp_alloc` keeps the invariant, under its condition.
* `reach_spaceOk`: the space of a silo is in order after every run, and no assertion fails.
* `full_segment`: a segment that is filled to the last byte ends behind the space that was reserved for it.
-/

namespace Varnish.Silo

open Varnish.Lib

variable {g : Media} {s s' : Space} {sg : SmpSeg} {oc : Bool} {left size : ℕ}

/-! ## `smp_alloc` -/

section Alloc

theorem le_cAlign {x : ℕ} (h : x + 15 < 2 ^ 64) : x ≤ cAlign x := by
  rw [cAlign_of_lt h]
  omega

theorem cAlign_eq_self {x : ℕ} (hmod : x % 16 = 0) (hlt : x < 2 ^ 64) : cAlign x = x := by
  rw [cAlign_of_lt (by omega)]
  omega

theorem Media.aimNobj_lt (g : Media) : g.aimNobj < 2 ^ 32 := Nat.mod_lt _ (by decide)

theorem overhead_eq (s : Space) (oc : Bool) : overhead s oc = 80 + 128 + cAlign (objreservWith s oc) := by
  rw [overhead, cAlign_storage, segSpace_eq, objreservWith]
  cases oc with
  | false => rfl
  | true => rw [if_pos rfl, if_pos rfl, Nat.add_comm smpObjectSize]

theorem SpaceInv.bitten (h : SpaceInv g s) (hcur : s.cur = some sg) (hsize : size % 16 = 0) (hcount : sg.nalloc + 1 < 2 ^ 32)
    (hroom : sg.nextAddr + (overhead s oc + size) < sg.segend) : SpaceInv g (s.bitten sg oc size) := by
  have hsegs := segments_of_some hcur
  have hsegs' : (s.bitten sg oc size).segments = s.closed ++ [sg.bitten oc size] := rfl
  have hseg := h.seg
  have hside := h.side
  have hapart := h.apart
  have hids := h.ids
  have hring := h.ring
  rw [hsegs] at hseg hside hapart hids hring
  obtain ⟨hapart₁, -, hapart₂⟩ := List.pairwise_append.mp hapart
  obtain ⟨hids₁, -, hids₂⟩ := List.pairwise_append.mp hids
  have hmem : sg ∈ s.closed ++ [sg] := List.mem_append_right _ (List.mem_singleton_self sg)
  have hi := hseg sg hmem
  have hc := h.cur sg hcur
  have hnmod := hc.next_mod
  have hfo := hc.segend_eq
  have hfomod := h.mod
  have hhead := hc.head
  have halign := cAlign_mod (objreservWith s oc)
  rw [overhead_eq] at hroom
  have hnext : (sg.bitten oc size).nextAddr = sg.nextAddr + 80 + size := rfl
  have hend : (sg.bitten oc size).segend = sg.segend := rfl
  -- the segments, with the current one as it was
  have hold : ∀ x ∈ s.closed ++ [sg.bitten oc size], ∃ y ∈ s.closed ++ [sg],
      x.id = y.id ∧ x.offset = y.offset ∧ x.segend = y.segend ∧ y.nextAddr ≤ x.nextAddr := by
    intro x hx
    rcases List.mem_append.mp hx with hx | hx
    · exact ⟨x, List.mem_append_left _ hx, rfl, rfl, rfl, le_refl _⟩
    · cases List.mem_singleton.mp hx
      exact ⟨sg, hmem, rfl, rfl, rfl, by omega⟩
  refine ⟨h.spc_le, h.le_media, h.mod, ?_, ?_, ?_, ?_, ?_, ?_, ?_, ?_, ?_⟩
  · intro x hx
    rcases List.mem_append.mp (hsegs' ▸ hx) with hx | hx
    · have hxi := hseg x (List.mem_append_left _ hx)
      have hne : sg.id ≠ x.id := fun he => hids₂ x hx sg (List.mem_singleton_self sg) he.symm
      refine { hxi with objects := ?_, fixed := ?_ }
      · rw [countObjects, Space.bitten, List.countP_append, List.countP_singleton, if_neg (by simp [hne])]
        exact hxi.objects
      · rw [countFixed, Space.bitten, List.countP_append, List.countP_singleton, if_neg (by simp)]
        exact hxi.fixed
    · cases List.mem_singleton.mp hx
      refine { hi with next_le := ?_, objects := ?_, fixed := ?_ }
      · rw [hnext, hend]
        omega
      · rw [countObjects, Space.bitten, List.countP_append, List.countP_singleton, SmpSeg.bitten]
        have hobj := hi.objects
        rw [countObjects] at hobj
        cases oc with
        | false => simpa using hobj
        | true => simpa using hobj
      · rw [countFixed, Space.bitten, List.countP_append, List.countP_singleton, if_neg (by simp)]
        exact hi.fixed
  · intro x hx
    cases hx
    refine ⟨hend.trans hfo, ?_, ?_, ?_, ?_, ?_⟩
    · rw [hnext]
      change sg.offset + signSpace ≤ _
      omega
    · rw [hnext]
      omega
    · rw [hnext, hend]
      change _ + cAlign (objreservWith s oc) ≤ _
      rw [segSpace_eq]
      omega
    · have hres := hc.objreserv
      change (if oc then sg.nalloc1 + 1 else sg.nalloc1) * smpObjectSize = objreservWith s oc
      rw [objreservWith]
      cases oc with
      | false => exact hres
      | true => rw [if_pos rfl, if_pos rfl, Nat.add_mul, hres, Nat.one_mul]
    · rw [countBites, Space.bitten, List.countP_append, List.countP_singleton, if_pos (by simp [SmpSeg.bitten])]
      change (sg.nalloc + 1) % 2 ^ 32 = _
      rw [Nat.mod_eq_of_lt hcount, hc.count]
      rfl
  · rw [hsegs', List.pairwise_append]
    refine ⟨hapart₁, List.pairwise_singleton _ _, fun a ha b hb => ?_⟩
    cases List.mem_singleton.mp hb
    exact hapart₂ a ha sg (List.mem_singleton_self sg)
  · rw [hsegs', List.pairwise_append]
    refine ⟨hids₁, List.pairwise_singleton _ _, fun a ha b hb => ?_⟩
    cases List.mem_singleton.mp hb
    exact hids₂ a ha sg (List.mem_singleton_self sg)
  · intro x hx
    obtain ⟨y, hy, -, ho, he, -⟩ := hold x (hsegs' ▸ hx)
    rw [ho, he]
    exact hside y hy
  · intro f hf x hx
    obtain ⟨y, hy, -, ho, -⟩ := hold x (hsegs' ▸ hx)
    rw [hsegs'] at hf
    have hfirst : ∃ f' ∈ (s.closed ++ [sg]).head?, f.offset = f'.offset := by
      cases hcl : s.closed with
      | nil =>
        rw [hcl] at hf
        cases hf
        exact ⟨sg, rfl, rfl⟩
      | cons f₀ rest =>
        rw [hcl] at hf
        exact ⟨f, hf, rfl⟩
    obtain ⟨f', hf', hfo'⟩ := hfirst
    rw [RingAt, ho, hfo']
    exact hring f' hf' y hy
  · intro b hb
    rcases List.mem_append.mp hb with hb | hb
    · obtain ⟨y, hy, hid, hlo, hhi⟩ := h.bite b hb
      rw [hsegs] at hy
      rcases List.mem_append.mp hy with hy | hy
      · exact ⟨y, List.mem_append_left _ hy, hid, hlo, hhi⟩
      · cases List.mem_singleton.mp hy
        exact ⟨sg.bitten oc size, List.mem_append_right _ (List.mem_singleton_self _), hid, hlo, by rw [hnext]; omega⟩
    · cases List.mem_singleton.mp hb
      refine ⟨sg.bitten oc size, List.mem_append_right _ (List.mem_singleton_self _), rfl, ?_, le_refl _⟩
      change sg.offset ≤ sg.nextAddr
      omega
  · refine List.pairwise_append.mpr ⟨h.bites, List.pairwise_singleton _ _, fun a ha b hb => ?_⟩
    cases List.mem_singleton.mp hb
    obtain ⟨y, hy, -, hlo, hhi⟩ := h.bite a ha
    rw [hsegs] at hy
    rcases List.mem_append.mp hy with hy | hy
    · have hle := (hseg y (List.mem_append_left _ hy)).next_le
      rcases hapart₂ y hy sg (List.mem_singleton_self sg) with hap | hap
      · exact .inl (by simp only; omega)
      · refine .inr ?_
        simp only [Bite.stop, cAlign_storage]
        omega
    · cases List.mem_singleton.mp hy
      exact .inl hhi
  · intro b hb
    rcases List.mem_append.mp hb with hb | hb
    · exact h.index b hb
    · cases List.mem_singleton.mp hb
      exact fun hx => (by cases hx)

theorem grab_inv (h : SpaceInv g s) (hcur : s.cur = some sg) (hsize : size % 16 = 0)
    (hle : sg.nextAddr + (overhead s oc + size) ≤ sg.segend) (hoc : oc = false ∨ sg.nalloc1 < g.aimNobj)
    (hok : GrabOk s sg oc (sg.segend - sg.nextAddr) size) : ∃ s', grab g oc s sg size = .ok s' ∧ SpaceInv g s' := by
  obtain ⟨h32, hfull, hcount⟩ := hok
  have hi := h.seg sg (mem_segments hcur)
  have hc := h.cur sg hcur
  have hinv : SpaceInv g (s.bitten sg oc size) := h.bitten hcur hsize hcount (by omega)
  have hcn := hinv.cur _ rfl
  have hmedia := (hi.segend_le).trans hi.resv_le
  have haim := g.aimNobj_lt
  rw [overhead_eq] at hle
  -- the table has room for one more object
  have hobj : ¬ (oc = true ∧ sg.segend - (sg.nextAddr + 80 + size) < objreservWith s oc) := by
    rintro ⟨rfl, hlt⟩
    have hn1 : sg.nalloc1 < g.aimNobj := hoc.resolve_left (by decide)
    have hres := hc.objreserv
    have hwith : objreservWith s true = s.objreserv + smpObjectSize := rfl
    have hsz : smpObjectSize = 56 := rfl
    have hal := le_cAlign (x := objreservWith s true) (by rw [hwith, ← hres, hsz]; omega)
    omega
  have hend : (sg.bitten oc size).segend = sg.segend := rfl
  have hnext : (sg.bitten oc size).nextAddr = sg.nextAddr + 80 + size := rfl
  refine ⟨_, ?_, hinv⟩
  rw [grab, if_neg, smpSpaceleft, if_pos (by omega), hend, hnext]
  · simp only [bind, Except.bind]
    rw [if_neg hobj, cAlign_storage, if_neg (by omega)]
  · rintro ⟨rfl, hn⟩
    have hlt := hoc.resolve_left (by decide)
    omega

/-- What a request needs does not overflow when it is granted. -/
theorem needed_eq (h : SpaceInv g s) (hcur : s.cur = some sg) (hoc : oc = false ∨ sg.nalloc1 < g.aimNobj)
    (hsize : size < 2 ^ 32) : (overhead s oc + size) % 2 ^ 64 = overhead s oc + size := by
  have hi := h.seg sg (mem_segments hcur)
  have hc := h.cur sg hcur
  have hmedia := (hi.segend_le).trans hi.resv_le
  have hlt := g.lt_off
  have hroom := hc.room
  have haim := g.aimNobj_lt
  refine Nat.mod_eq_of_lt ?_
  rw [overhead_eq]
  cases oc with
  | false =>
    change 80 + 128 + cAlign s.objreserv + size < 2 ^ 64
    omega
  | true =>
    have hn1 := hoc.resolve_left (by decide)
    have hres := hc.objreserv
    have hwith : objreservWith s true = s.objreserv + 56 := rfl
    rw [show smpObjectSize = 56 from rfl] at hres
    rw [hwith, cAlign_of_lt (by omega)]
    omega

theorem trimmed_size (hsize : size % 16 = 0) (hlt : size < 2 ^ 64) (hleft : left < 2 ^ 64) :
    (trimmed s oc left size).1 % 16 = 0 ∧ (trimmed s oc left size).1 < 2 ^ 64 := by
  rw [trimmed]
  split
  · exact ⟨Nat.mul_mod_left _ _, by simp only; omega⟩
  · exact ⟨hsize, hlt⟩

/-- A request that was not granted was not cut. -/
theorem trimmed_of_not_fits (h : ¬ Fits g sg oc left (trimmed s oc left size).2) : (trimmed s oc left size).1 = size := by
  rw [trimmed] at h ⊢
  split
  · next hcut =>
    rw [if_pos hcut] at h
    refine absurd ⟨le_refl _, .inl ?_⟩ h
    simpa using hcut.1
  · rfl

/-- A request that is granted lies in what is left. -/
theorem granted_le (h : SpaceInv g s) (hcur : s.cur = some sg)
    (hfits : Fits g sg oc left (trimmed s oc left size).2) (hlt : (trimmed s oc left size).1 < 2 ^ 32) :
    overhead s oc + (trimmed s oc left size).1 ≤ left := by
  obtain ⟨hle, hoc⟩ := hfits
  rw [trimmed] at hle hlt ⊢
  by_cases hcut : !oc ∧ left < (overhead s oc + size) % 2 ^ 64 ∧ overhead s oc + 4096 < left
  · rw [if_pos hcut]
    simp only
    omega
  · rw [if_neg hcut] at hle hlt ⊢
    simp only at hle hlt ⊢
    rw [needed_eq h hcur hoc hlt] at hle
    exact hle

/-- What the loop of `smp_alloc` leaves: a segment that is too small, or the current one, where the request fits. -/
structure Tried (g : Media) (oc : Bool) (r : Space × SmpSeg × ℕ × ℕ) : Prop where
  inv : SpaceInv g r.1
  next_le : r.2.1.nextAddr ≤ r.2.1.segend
  size_mod : r.2.2.1 % 16 = 0
  size_lt : r.2.2.1 < 2 ^ 64
  fits : r.2.1.segend - r.2.1.nextAddr < r.2.2.2 ∨
    (r.1.cur = some r.2.1 ∧ r.2.1.nextAddr + (overhead r.1 oc + r.2.2.1) ≤ r.2.1.segend ∧
      (oc = false ∨ r.2.1.nalloc1 < g.aimNobj) ∧ GrabOk r.1 r.2.1 oc (r.2.1.segend - r.2.1.nextAddr) r.2.2.1)

/-- One try: it is granted, or the segment is closed and there is a new one. -/
theorem try_inv {rest : ℕ → ℕ → Space → Prop} (h : SpaceInv g s) (hcur : s.cur = some sg) (hok : TryOk g oc s size rest) :
    Fits g sg oc (sg.segend - sg.nextAddr) (trimmed s oc (sg.segend - sg.nextAddr) size).2 ∧
      GrabOk s sg oc (sg.segend - sg.nextAddr) (trimmed s oc (sg.segend - sg.nextAddr) size).1 ∨
    ¬ Fits g sg oc (sg.segend - sg.nextAddr) (trimmed s oc (sg.segend - sg.nextAddr) size).2 ∧
      ∃ s₁, smpCloseSeg g s = .ok s₁ ∧ (smpNewSeg g s₁ = .error .exit ∨
        ∃ s₂, smpNewSeg g s₁ = .ok s₂ ∧ SpaceInv g s₂ ∧ s₂.cur.isSome ∧
          rest (sg.segend - sg.nextAddr) (trimmed s oc (sg.segend - sg.nextAddr) size).2 s₂) := by
  have hleft : (smpSpaceleft sg).toOption = some (sg.segend - sg.nextAddr) := by
    rw [smpSpaceleft, if_pos (h.seg sg (mem_segments hcur)).next_le]
    rfl
  have hok' := hok sg hcur _ hleft
  by_cases hfits : Fits g sg oc (sg.segend - sg.nextAddr) (trimmed s oc (sg.segend - sg.nextAddr) size).2
  · rw [if_pos hfits] at hok'
    exact .inl ⟨hfits, hok'⟩
  · rw [if_neg hfits] at hok'
    obtain ⟨hclose, hnew⟩ := hok'
    obtain ⟨s₁, hs₁, hi₁, hc₁⟩ := closeSeg_inv h hcur hclose
    obtain ⟨hnewOk, hrest⟩ := hnew s₁ (by rw [hs₁]; rfl)
    refine .inr ⟨hfits, s₁, hs₁, ?_⟩
    rcases newSeg_inv hi₁ hc₁ hnewOk with hexit | ⟨s₂, hs₂, hi₂, hc₂⟩
    · exact .inl hexit
    · exact .inr ⟨s₂, hs₂, hi₂, hc₂, hrest s₂ (by rw [hs₂]; rfl)⟩

/-- The end of the loop, when the request fits. -/
theorem tried_of_fits (h : SpaceInv g s) (hcur : s.cur = some sg) (hsize : size % 16 = 0) (hlt : size < 2 ^ 64)
    (hfits : Fits g sg oc (sg.segend - sg.nextAddr) (trimmed s oc (sg.segend - sg.nextAddr) size).2)
    (hok : GrabOk s sg oc (sg.segend - sg.nextAddr) (trimmed s oc (sg.segend - sg.nextAddr) size).1) :
    Tried g oc (s, sg, trimmed s oc (sg.segend - sg.nextAddr) size) := by
  have hi := h.seg sg (mem_segments hcur)
  have hmedia := (hi.segend_le).trans hi.resv_le
  have hoff := g.lt_off
  have hnext := hi.next_le
  have hgrant := granted_le h hcur hfits hok.1
  obtain ⟨hmod', hlt'⟩ := trimmed_size hsize hlt (show sg.segend - sg.nextAddr < 2 ^ 64 by omega)
  exact ⟨h, hnext, hmod', hlt', .inr ⟨hcur, by simp only; omega, hfits.2, hok⟩⟩

theorem tries_inv {tries : ℕ} (h : SpaceInv g s) (hcur : s.cur.isSome) (hsize : size % 16 = 0) (hlt : size < 2 ^ 64)
    (hok : TriesOk g oc tries s size) :
    allocTries g oc tries s size = .error .exit ∨ ∃ r, allocTries g oc tries s size = .ok r ∧ Tried g oc r := by
  induction tries generalizing s with
  | zero =>
    obtain ⟨sg, hsg⟩ := Option.isSome_iff_exists.mp hcur
    have hnext := (h.seg sg (mem_segments hsg)).next_le
    rw [allocTries, hsg]
    simp only [smpSpaceleft, if_pos hnext, bind, Except.bind]
    rcases try_inv h hsg hok with ⟨hfits, hgrab⟩ | ⟨hfits, s₁, hs₁, hnew⟩
    · exact .inr ⟨_, if_pos hfits, tried_of_fits h hsg hsize hlt hfits hgrab⟩
    · rw [if_neg hfits, hs₁]
      rcases hnew with hexit | ⟨s₂, hs₂, hi₂, -, hsmall⟩
      · exact .inl (by simp only [hexit])
      · refine .inr ⟨(s₂, sg, trimmed s oc (sg.segend - sg.nextAddr) size), by simp only [hs₂], hi₂, hnext, ?_, ?_,
          .inl hsmall⟩
        · rw [trimmed_of_not_fits hfits]
          exact hsize
        · rw [trimmed_of_not_fits hfits]
          exact hlt
  | succ tries ih =>
    obtain ⟨sg, hsg⟩ := Option.isSome_iff_exists.mp hcur
    have hnext := (h.seg sg (mem_segments hsg)).next_le
    rw [allocTries, hsg]
    simp only [smpSpaceleft, if_pos hnext, bind, Except.bind]
    rcases try_inv h hsg hok with ⟨hfits, hgrab⟩ | ⟨hfits, s₁, hs₁, hnew⟩
    · exact .inr ⟨_, if_pos hfits, tried_of_fits h hsg hsize hlt hfits hgrab⟩
    · rw [if_neg hfits, hs₁]
      rcases hnew with hexit | ⟨s₂, hs₂, hi₂, hc₂, hrest⟩
      · exact .inl (by simp only [hexit])
      · simp only [hs₂, trimmed_of_not_fits hfits]
        exact ih hi₂ hc₂ hrest

theorem alloc_inv (h : SpaceInv g s) (hcur : s.cur.isSome) (hok : TriesOk g oc 2 s (cAlign size)) :
    smpAlloc g s size oc = .error .exit ∨ ∃ s', smpAlloc g s size oc = .ok s' ∧ SpaceInv g s' := by
  rw [smpAlloc]
  rcases tries_inv h hcur (cAlign_mod size) (cAlign_lt size) hok with hexit | ⟨⟨s', sg, size', needed⟩, hr, htried⟩
  · exact .inl (by rw [hexit]; rfl)
  · obtain ⟨hinv, hnext, hmod, hlt, hfits⟩ := htried
    simp only at hinv hnext hmod hlt hfits
    rw [hr]
    simp only [bind, Except.bind, smpSpaceleft, if_pos hnext]
    rw [if_neg (by rw [cAlign_eq_self hmod hlt]; exact fun hne => hne rfl)]
    refine .inr ?_
    by_cases hsmall : sg.segend - sg.nextAddr < needed
    · exact ⟨s', if_pos hsmall, hinv⟩
    · obtain ⟨hsg, hle, hoc, hgrab⟩ := hfits.resolve_left hsmall
      rw [if_neg hsmall]
      exact grab_inv hinv hsg hmod hle hoc hgrab

end Alloc

/-! ## The result -/

section Result

theorem spaceStep_inv {op : SpaceOp} (h : SpaceInv g s) (hcalled : op.Called s) (hok : op.Cond g s) :
    spaceStep g s op = .error .exit ∨ ∃ s', spaceStep g s op = .ok s' ∧ SpaceInv g s' := by
  cases op with
  | newSeg =>
    rcases newSeg_inv h hcalled hok with hexit | ⟨s', hs, hi, -⟩
    · exact .inl hexit
    · exact .inr ⟨s', hs, hi⟩
  | closeSeg =>
    obtain ⟨sg, hsg⟩ := Option.isSome_iff_exists.mp hcalled
    obtain ⟨s', hs, hi, -⟩ := closeSeg_inv h hsg hok
    exact .inr ⟨s', hs, hi⟩
  | object i =>
    obtain ⟨b, hb, hoc, hnone⟩ := hcalled
    exact .inr (object_inv h hb hoc hnone)
  | alloc size oc => exact alloc_inv h hcalled hok

theorem ok_of_toOption {ε α : Type} {x : Except ε α} {a : α} (h : x.toOption = some a) : x = .ok a := by
  cases x with
  | error e => cases h
  | ok a' =>
    cases h
    rfl

/-- **The space of a silo**: from an empty one of any size, in every run whose operations meet their conditions, segments and
allocations do not overlap and are where they should be, the current segment has room for its end, no segment goes beyond
its reservation, and the program does not end but by `exit`, when there is no space. -/
theorem reach_spaceOk (h : Reach (fun s op => (spaceStep g s op).toOption) (fun s op => op.Called s ∧ op.Cond g s)
    (smpOpenEmpty g) s) :
    SpaceOk g s ∧ ∀ op : SpaceOp, op.Called s → op.Cond g s → ∀ e, spaceStep g s op = .error e → e = .exit := by
  have hinv : SpaceInv g s := by
    refine Reach.inv (openEmpty_inv g) (fun s op s' hi hok hs => ?_) h
    rcases spaceStep_inv hi hok.1 hok.2 with hexit | ⟨s₁, hs₁, hi₁⟩
    · rw [hexit] at hs
      cases hs
    · rw [hs₁] at hs
      cases hs
      exact hi₁
  refine ⟨hinv.spaceOk, fun op hcalled hok e he => ?_⟩
  rcases spaceStep_inv hinv hcalled hok with hexit | ⟨s₁, hs₁, -⟩
  · rw [hexit] at he
    cases he
    rfl
  · rw [hs₁] at he
    cases he

/-- A silo of 4 MB and 92 KB, with segments of 2000 bytes. -/
def media : Media where
  granularity := 4096
  mediasize := 4288512
  aimNseg := 45
  page := by decide
  whole := by decide
  spc_lt := by decide
  lt_off := by decide
  aimNseg_pos := by decide
  aimNseg_le := by decide +kernel

/-- Two objects and something else are stored, in two segments; one more request is too large for a segment. -/
def spaceRun : List SpaceOp :=
  [.newSeg, .alloc 100 true, .object 0, .alloc 900 false, .alloc 1300 true, .object 2, .alloc 5000 true, .closeSeg]

theorem reach_spaceOk_spaceRun : ∃ s, spaceRun.foldlM (fun s op => (spaceStep media s op).toOption) (smpOpenEmpty media) =
    some s ∧ s.closed.length = 2 ∧ s.bites.length = 3 ∧ SpaceOk media s := by
  have hok : OkRun (fun s op => (spaceStep media s op).toOption) (fun s op => op.Called s ∧ op.Cond media s)
      (smpOpenEmpty media) spaceRun := by decide +kernel
  have hlen : ((spaceRun.foldlM (fun s op => (spaceStep media s op).toOption) (smpOpenEmpty media)).map
      fun s => (s.closed.length, s.bites.length)) = some (2, 3) := by decide +kernel
  obtain ⟨s, hs, hl⟩ := Option.map_eq_some_iff.mp hlen
  obtain ⟨hl₁, hl₂⟩ := Prod.mk.injEq .. ▸ hl
  exact ⟨s, hs, hl₁, hl₂, (reach_spaceOk (Reach.of_run hok hs)).1⟩

/-- An object fills the segment to the last byte that `smp_alloc` gives away; then the tail is eight bytes too far. -/
def fullRun : List SpaceOp := [.newSeg, .alloc 1664 true, .object 0, .closeSeg]

theorem full_segment : ∃ s, Reach (fun s op => (spaceStep media s op).toOption) (fun s op => op.Called s)
    (smpOpenEmpty media) s ∧ ¬ SpaceOk media s := by
  have hok : OkRun (fun s op => (spaceStep media s op).toOption) (fun s op => op.Called s) (smpOpenEmpty media) fullRun := by
    decide +kernel
  have hend : ((fullRun.foldlM (fun s op => (spaceStep media s op).toOption) (smpOpenEmpty media)).map
      fun s => s.segments.all fun sg => sg.segend ≤ sg.resv) = some false := by decide +kernel
  obtain ⟨s, hs, hfalse⟩ := Option.map_eq_some_iff.mp hend
  refine ⟨s, Reach.of_run hok hs, fun hspace => ?_⟩
  have htrue : (s.segments.all fun sg => sg.segend ≤ sg.resv) = true :=
    List.all_eq_true.mpr fun sg hsg => decide_eq_true (hspace.resv sg hsg)
  rw [htrue] at hfalse
  cases hfalse

end Result

end Varnish.Silo
