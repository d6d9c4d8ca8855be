import Varnish.Silo.Crash

/-!
# Varnish.Silo.Reopen — the free space of a silo that is opened again

`smp_open_segs` reads the table of segments, looks for `free_reserve` bytes of free space, and drops segments from the front
of the table until there is as much.

* `dropSeg1`, `dropSeg2`, `loadSegs`, `smpOpenTable`: the loops and the assertions.
* `Circular`: the tables that `smp_save_segs` writes.  `Reopened`: what is wanted of the result.
* `reopened_iff`: it is so if there is room for the free reserve in one of three places.
* `reopened_last`: one segment at the end of the space is enough for a failed assertion.
-/

namespace Varnish.Silo

open Varnish.Lib

/-! ## The code -/

section Code

/-- `smp_segend` -/
def Segptr.segend (p : Segptr) : UInt64 := p.offset + p.length

/-- The first loop, over the segments before `se`; `l` is what was left there. -/
def dropSeg1 (reserve : UInt64) (se : Segptr) : List Segptr → (l : UInt64) → List Segptr × UInt64
  | [], l => ([], l)
  | p :: ps, l =>
    if se.offset < p.offset then
      if reserve < p.offset - se.segend then (p :: ps, p.offset - se.segend)
      else dropSeg1 reserve se ps (p.offset - se.segend)
    else (p :: ps, l)

/-- The second loop. -/
def dropSeg2 (reserve spc : UInt64) : List Segptr → (l : UInt64) → List Segptr × UInt64
  | [], l => ([], l)
  | p :: ps, _ =>
    if reserve < p.offset - spc then (p :: ps, p.offset - spc) else dropSeg2 reserve spc ps (p.offset - spc)

/-- The assertions about two segments. -/
def segsApart (a b : Segptr) : Bool :=
  a.offset ≠ b.offset && if a.offset < b.offset then a.segend ≤ b.offset else b.segend ≤ a.offset

/-- The last loop: each segment is compared with the first one and with the one before it. -/
def loadSegs : (sg1 sg2 : Option Segptr) → List Segptr → Bool
  | _, _, [] => true
  | sg1, sg2, sg :: sgs => sg1.all (segsApart · sg) && sg2.all (segsApart · sg) && loadSegs (sg1.or (some sg)) (some sg) sgs

variable (spc mediasize reserve : UInt64)

/-- The last part of `smp_open_segs`: `l` bytes are free at `free`, and the segments `init` and `se` are left. -/
def keepSegs (free l : UInt64) (init : List Segptr) (se : Segptr) : Option (UInt64 × List Segptr) :=
  if reserve ≤ l ∧ loadSegs none none (init ++ [se]) then some (free, init ++ [se]) else none

/-- `smp_open_segs` of a table that is not empty: `free_offset` and the segments, unless an assertion fails. -/
def smpOpenTable (ps : List Segptr) : Option (UInt64 × List Segptr) :=
  match ps.head?, ps.getLast? with
  | some ss, some se =>
    let free := se.segend
    let l := mediasize - free
    let (init, l) :=
      if ss.offset < se.offset ∧ reserve ≤ l then (ps.dropLast, l)
      else if se.offset < ss.offset then dropSeg1 reserve se ps.dropLast l
      else (ps.dropLast, l)
    if l < reserve then
      let (init, l) := dropSeg2 reserve spc init l
      keepSegs reserve spc l init se
    else keepSegs reserve free l init se
  | _, _ => none

/-- `smp_open_segs`, which returns its result, `free_offset` and the segments; `free` is the `free_offset` from before. -/
def smpOpenSegsSc (sha : List UInt8 → List UInt8) (m : Mem) (c : Signctx) (free : UInt64) :
    Option (ℕ × UInt64 × List Segptr) :=
  let (r, ps) := smpOpenSegs sha m c
  if r ≠ 0 then some (r, free, [])
  else if readLength m c = 0 then some (0, spc, [])
  else (smpOpenTable spc mediasize reserve ps).map fun (free, kept) => (0, free, kept)

end Code

/-! ## The tables -/

section Spec

/-- The bytes of a segment are those from `start` to `stop`. -/
def Segptr.start (p : Segptr) : ℕ := p.offset.toNat

def Segptr.stop (p : Segptr) : ℕ := p.offset.toNat + p.length.toNat

/-- One segment is before another one. -/
def Segptr.Before (p q : Segptr) : Prop := p.stop ≤ q.start

instance (p q : Segptr) : Decidable (p.Before q) := inferInstanceAs (Decidable (_ ≤ _))

variable (spc mediasize reserve : UInt64)

/-- The segments are inside the space of the silo and in circular order: from some place of the table on, they go around. -/
structure Circular (ps : List Segptr) : Prop where
  ne_nil : ps ≠ []
  inside : ∀ p ∈ ps, spc.toNat ≤ p.start ∧ p.start < p.stop ∧ p.stop ≤ mediasize.toNat
  order : ∃ tail front, ps = tail ++ front ∧ (front ++ tail).Pairwise Segptr.Before

/-- No assertion fails, the segments that are kept are the last ones of the table, and the free reserve is in the space of
the silo and off these segments. -/
def Reopened (ps : List Segptr) (r : Option (ℕ × UInt64 × List Segptr)) : Prop :=
  ∃ free kept, r = some (0, free, kept) ∧ kept <:+ ps ∧ spc ≤ free ∧ free.toNat + reserve.toNat ≤ mediasize.toNat ∧
    ∀ p ∈ kept, free.toNat + reserve.toNat ≤ p.start ∨ p.stop ≤ free.toNat

/-- There is room for the free reserve behind the last segment, when the table does not go around; or between the last
segment and some other one that is behind it; or before some segment that is before the last one. -/
def Roomy (ps : List Segptr) : Prop :=
  ∃ ss ∈ ps.head?, ∃ se ∈ ps.getLast?,
    (ss.start ≤ se.start ∧ se.stop + reserve.toNat ≤ mediasize.toNat) ∨
    (∃ p ∈ ps, se.start < p.start ∧ se.stop + reserve.toNat ≤ p.start) ∨
    ∃ p ∈ ps, p.start < se.start ∧ spc.toNat + reserve.toNat ≤ p.start

end Spec

/-! ## The loops -/

section Loops

variable {reserve spc : UInt64} {gap : Segptr → UInt64} {ps : List Segptr} {l : UInt64}

/-- Both loops: segments go while the gap before them is not larger than the reserve. -/
def drops (gap : Segptr → UInt64) (reserve : UInt64) : List Segptr → (l : UInt64) → List Segptr × UInt64
  | [], l => ([], l)
  | p :: ps, _ => if reserve < gap p then (p :: ps, gap p) else drops gap reserve ps (gap p)

theorem dropSeg2_eq (ps : List Segptr) (l : UInt64) :
    dropSeg2 reserve spc ps l = drops (fun p => p.offset - spc) reserve ps l := by
  induction ps generalizing l with
  | nil => rfl
  | cons p ps ih => rw [dropSeg2, drops, ih]

/-- The first loop ends where the table goes around. -/
theorem dropSeg1_append {se : Segptr} {tail front : List Segptr} (htail : ∀ p ∈ tail, se.offset < p.offset)
    (hfront : ∀ p ∈ front, ¬ se.offset < p.offset) (l : UInt64) :
    dropSeg1 reserve se (tail ++ front) l = ((drops (fun p => p.offset - se.segend) reserve tail l).1 ++ front,
      (drops (fun p => p.offset - se.segend) reserve tail l).2) := by
  induction tail generalizing l with
  | nil =>
    cases front with
    | nil => rfl
    | cons p front =>
      rw [List.nil_append, dropSeg1, if_neg (hfront p List.mem_cons_self)]
      rfl
  | cons p tail ih =>
    rw [List.cons_append, dropSeg1, drops, if_pos (htail p List.mem_cons_self)]
    by_cases hlt : reserve < p.offset - se.segend
    · rw [if_pos hlt, if_pos hlt]
      rfl
    · rw [if_neg hlt, if_neg hlt, ih fun p hp => htail p (List.mem_cons_of_mem _ hp)]

/-- What is left after a loop, when the gaps grow. -/
structure Dropped (gap : Segptr → UInt64) (reserve : UInt64) (ps : List Segptr) (l : UInt64)
    (r : List Segptr × UInt64) : Prop where
  suffix : r.1 <:+ ps
  last : (ps = [] ∧ r.2 = l) ∨ ∃ p ∈ ps, r.2 = gap p
  room : (∃ p ∈ ps, reserve ≤ gap p) → reserve ≤ r.2
  gaps : ∀ p ∈ r.1, r.2 ≤ gap p
  empty : r.2 < reserve → r.1 = []

theorem drops_dropped (reserve : UInt64) (h : ps.Pairwise fun a b => gap a ≤ gap b) (l : UInt64) :
    Dropped gap reserve ps l (drops gap reserve ps l) := by
  induction ps generalizing l with
  | nil => exact ⟨List.suffix_refl _, .inl ⟨rfl, rfl⟩, fun ⟨p, hp, _⟩ => (by cases hp), fun p hp => (by cases hp), fun _ => rfl⟩
  | cons p ps ih =>
    obtain ⟨hp, hps⟩ := List.pairwise_cons.1 h
    rw [drops]
    by_cases hlt : reserve < gap p
    · rw [if_pos hlt]
      refine ⟨List.suffix_refl _, .inr ⟨p, List.mem_cons_self, rfl⟩, fun _ => UInt64.le_of_lt hlt, ?_, fun hr => ?_⟩
      · intro q hq
        rcases List.mem_cons.1 hq with rfl | hq
        · exact UInt64.le_refl _
        · exact hp q hq
      · exact absurd (UInt64.lt_trans hlt hr) (UInt64.lt_irrefl _)
    · rw [if_neg hlt]
      have hd := ih hps (gap p)
      refine ⟨hd.suffix.trans (List.suffix_cons _ _), .inr ?_, ?_, hd.gaps, hd.empty⟩
      · rcases hd.last with ⟨-, hl⟩ | ⟨q, hq, hl⟩
        · exact ⟨p, List.mem_cons_self, hl⟩
        · exact ⟨q, List.mem_cons_of_mem _ hq, hl⟩
      · rintro ⟨q, hq, hle⟩
        rcases List.mem_cons.1 hq with rfl | hq
        · -- the gap of the first segment is just the reserve
          rcases hd.last with ⟨-, hl⟩ | ⟨q', hq', hl⟩
          · rw [hl]
            exact hle
          · rw [hl]
            exact UInt64.le_trans hle (hp q' hq')
        · exact hd.room ⟨q, hq, hle⟩

/-- The assertions of the last loop hold of segments that are apart. -/
theorem loadSegs_of_apart {sg1 sg2 : Option Segptr} (h1 : ∀ a ∈ sg1, ∀ b ∈ ps, segsApart a b)
    (h2 : ∀ a ∈ sg2, ∀ b ∈ ps, segsApart a b) (h : ps.Pairwise fun a b => segsApart a b) : loadSegs sg1 sg2 ps := by
  induction ps generalizing sg1 sg2 with
  | nil => rfl
  | cons p ps ih =>
    obtain ⟨hp, hps⟩ := List.pairwise_cons.1 h
    have hall : ∀ sg : Option Segptr, (∀ a ∈ sg, ∀ b ∈ p :: ps, segsApart a b) → sg.all (segsApart · p) := by
      intro sg hsg
      cases sg with
      | none => rfl
      | some a => exact hsg a rfl p List.mem_cons_self
    rw [loadSegs, hall sg1 h1, hall sg2 h2, Bool.and_self, Bool.true_and]
    refine ih ?_ ?_ hps
    · intro a ha b hb
      cases sg1 with
      | none =>
        cases ha
        exact hp b hb
      | some a' => exact h1 a ha b (List.mem_cons_of_mem _ hb)
    · intro a ha b hb
      cases ha
      exact hp b hb

end Loops

/-! ## Segments in circular order -/

section Order

variable {spc mediasize reserve free l : UInt64} {ps tail front init : List Segptr} {p q ss se : Segptr}

theorem toNat_segend (h : p.stop ≤ mediasize.toNat) : p.segend.toNat = p.stop := by
  have hlt := mediasize.toNat_lt
  rw [Segptr.stop] at h ⊢
  rw [Segptr.segend, UInt64.toNat_add, Nat.mod_eq_of_lt (by omega)]

/-- The gap between an end and the start of a segment. -/
theorem toNat_gap {x : UInt64} (h : x.toNat ≤ p.start) : (p.offset - x).toNat = p.start - x.toNat :=
  UInt64.toNat_sub_of_le _ _ (UInt64.le_iff_toNat_le.2 h)

/-- The table, cut where it goes around and before its last segment. -/
structure SegRing (spc mediasize : UInt64) (tail front : List Segptr) (se : Segptr) : Prop where
  inside : ∀ p ∈ tail ++ front ++ [se], spc.toNat ≤ p.start ∧ p.start < p.stop ∧ p.stop ≤ mediasize.toNat
  behind : ∀ p ∈ tail, se.stop ≤ p.start
  before : ∀ p ∈ front, p.stop ≤ se.start
  tailUp : tail.Pairwise Segptr.Before
  frontUp : front.Pairwise Segptr.Before
  around : ∀ p ∈ front, ∀ q ∈ tail, p.Before q

theorem Circular.ring (h : Circular spc mediasize ps) :
    ∃ tail front se, ps = tail ++ front ++ [se] ∧ SegRing spc mediasize tail front se := by
  obtain ⟨tail, front, hps, hup⟩ := h.order
  -- a table that does not go around has no tail
  obtain ⟨tail, front, hps, hup, hne⟩ : ∃ tail front : List Segptr, ps = tail ++ front ∧
      (front ++ tail).Pairwise Segptr.Before ∧ front ≠ [] := by
    by_cases hne : front = []
    · subst hne
      rw [List.append_nil] at hps
      exact ⟨[], ps, rfl, by rw [List.append_nil, hps]; exact hup, h.ne_nil⟩
    · exact ⟨tail, front, hps, hup, hne⟩
  obtain ⟨front, se, rfl⟩ : ∃ front' se, front = front' ++ [se] := ⟨_, _, (List.dropLast_append_getLast hne).symm⟩
  refine ⟨tail, front, se, by rw [hps, List.append_assoc], ?_⟩
  obtain ⟨hfront, htail, haround⟩ := List.pairwise_append.1 hup
  obtain ⟨hfront, -, hse⟩ := List.pairwise_append.1 hfront
  refine ⟨?_, ?_, ?_, htail, hfront, fun p hp q hq => haround p (List.mem_append_left _ hp) q hq⟩
  · rw [List.append_assoc, ← hps]
    exact h.inside
  · intro p hp
    exact haround se (by simp) p hp
  · intro p hp
    exact hse p hp se (by simp)

theorem segsApart_of_before (hp : p.start < p.stop) (hmedia : p.stop ≤ mediasize.toNat) (h : p.Before q) :
    segsApart p q ∧ segsApart q p := by
  have hend := toNat_segend hmedia
  rw [Segptr.Before] at h
  have hlt : p.offset < q.offset := UInt64.lt_iff_toNat_lt.2 (show p.start < q.start by omega)
  have hne : p.offset ≠ q.offset := fun he => absurd (he ▸ hlt) (UInt64.lt_irrefl _)
  have hnlt : ¬ q.offset < p.offset := fun h' => absurd (UInt64.lt_trans hlt h') (UInt64.lt_irrefl _)
  have hle : p.segend ≤ q.offset := UInt64.le_iff_toNat_le.2 (by rw [hend]; exact h)
  constructor
  · simp [segsApart, hlt, hle, hne]
  · simp [segsApart, hnlt, hle, Ne.symm hne]

/-- All segments of the table are apart. -/
theorem SegRing.apart (h : SegRing spc mediasize tail front se) :
    (tail ++ front ++ [se]).Pairwise fun a b => segsApart a b := by
  have hbefore : ∀ {p q}, p ∈ tail ++ front ++ [se] → p.Before q → segsApart p q ∧ segsApart q p := fun hp hpq =>
    segsApart_of_before (h.inside _ hp).2.1 (h.inside _ hp).2.2 hpq
  refine List.pairwise_append.2 ⟨List.pairwise_append.2 ⟨?_, ?_, ?_⟩, List.pairwise_singleton _ _, ?_⟩
  · exact h.tailUp.imp_of_mem fun hp _ hpq => (hbefore (by simp [hp]) hpq).1
  · exact h.frontUp.imp_of_mem fun hp _ hpq => (hbefore (by simp [hp]) hpq).1
  · intro p hp q hq
    exact (hbefore (by simp [hq]) (h.around q hq p hp)).2
  · intro p hp q hq
    rw [List.mem_singleton.1 hq]
    rcases List.mem_append.1 hp with hp | hp
    · exact (hbefore (by simp) (h.behind p hp)).2
    · exact (hbefore (by simp [hp]) (h.before p hp)).1

/-- The assertions of the last loop hold. -/
theorem SegRing.keepSegs_eq (h : SegRing spc mediasize tail front se) (hinit : init <:+ tail ++ front) :
    keepSegs reserve free l init se = if reserve ≤ l then some (free, init ++ [se]) else none := by
  have hsub : (init ++ [se]).Sublist (tail ++ front ++ [se]) := hinit.sublist.append (List.Sublist.refl _)
  have hload : loadSegs none none (init ++ [se]) :=
    loadSegs_of_apart (fun a ha => by cases ha) (fun a ha => by cases ha) (h.apart.sublist hsub)
  rw [keepSegs]
  simp only [hload, and_true]

end Order

/-! ## The result -/

section Result

variable {spc mediasize reserve l : UInt64} {ps tail front : List Segptr} {se : Segptr}

/-- What is wanted of `smpOpenTable`. -/
def Found (spc mediasize reserve : UInt64) (ps : List Segptr) (r : Option (UInt64 × List Segptr)) : Prop :=
  Reopened spc mediasize reserve ps (r.map fun x => (0, x.1, x.2))

theorem found_some {free : UInt64} {kept : List Segptr} (hkept : kept <:+ ps) (hspc : spc.toNat ≤ free.toNat)
    (hfree : free.toNat + reserve.toNat ≤ mediasize.toNat)
    (hoff : ∀ p ∈ kept, free.toNat + reserve.toNat ≤ p.start ∨ p.stop ≤ free.toNat) :
    Found spc mediasize reserve ps (some (free, kept)) :=
  ⟨free, kept, rfl, hkept, UInt64.le_iff_toNat_le.2 hspc, hfree, hoff⟩

theorem not_found_none : ¬ Found spc mediasize reserve ps none := by
  rintro ⟨free, kept, he, -⟩
  cases he

/-- **The second loop**, after which there is room at the start of the space or none. -/
theorem SegRing.found_front (h : SegRing spc mediasize tail front se) (hl : l < reserve) :
    Found spc mediasize reserve (tail ++ front ++ [se]) (keepSegs reserve spc (dropSeg2 reserve spc front l).2
      (dropSeg2 reserve spc front l).1 se) ↔ ∃ p ∈ front, spc.toNat + reserve.toNat ≤ p.start := by
  have hgap : ∀ p ∈ front, (p.offset - spc).toNat = p.start - spc.toNat := fun p hp =>
    toNat_gap (h.inside p (by simp [hp])).1
  have hle : ∀ p ∈ front, (reserve ≤ p.offset - spc ↔ spc.toNat + reserve.toNat ≤ p.start) := by
    intro p hp
    have hin := (h.inside p (by simp [hp])).1
    rw [UInt64.le_iff_toNat_le, hgap p hp]
    omega
  have hup : front.Pairwise fun a b => a.offset - spc ≤ b.offset - spc := by
    refine h.frontUp.imp_of_mem fun {a b} ha hb hab => UInt64.le_iff_toNat_le.2 ?_
    have hin := h.inside a (by simp [ha])
    rw [hgap a ha, hgap b hb]
    rw [Segptr.Before] at hab
    omega
  have hd := drops_dropped reserve hup l
  rw [dropSeg2_eq, h.keepSegs_eq (hd.suffix.trans (List.suffix_append _ _))]
  by_cases hr : reserve ≤ (drops (fun p => p.offset - spc) reserve front l).2
  · -- some segment had the gap that was found
    obtain ⟨p, hp, hlast⟩ : ∃ p ∈ front, (drops (fun p => p.offset - spc) reserve front l).2 = p.offset - spc := by
      rcases hd.last with ⟨-, hl'⟩ | hp
      · rw [hl'] at hr
        exact absurd (UInt64.lt_of_lt_of_le hl hr) (UInt64.lt_irrefl _)
      · exact hp
    have hroom := (hle p hp).1 (hlast ▸ hr)
    rw [if_pos hr]
    refine ⟨fun _ => ⟨p, hp, hroom⟩, fun _ => ?_⟩
    have hpin := h.inside p (by simp [hp])
    have hpse := h.before p hp
    have hsuffix := hd.suffix.trans (List.suffix_append tail front)
    refine found_some (List.suffix_append_self_iff.2 hsuffix) (le_refl _) (by omega) ?_
    · intro q hq
      rcases List.mem_append.1 hq with hq | hq
      · exact .inl ((hle q (hd.suffix.subset hq)).1 (UInt64.le_trans hr (hd.gaps q hq)))
      · rw [List.mem_singleton.1 hq]
        left
        omega
  · rw [if_neg hr]
    refine ⟨fun hf => absurd hf not_found_none, fun ⟨p, hp, hroom⟩ => ?_⟩
    exact absurd (hd.room ⟨p, hp, (hle p hp).2 hroom⟩) hr

/-- `smp_open_segs` of a table that does not go around. -/
theorem SegRing.openTable_nil (h : SegRing spc mediasize [] front se) :
    smpOpenTable spc mediasize reserve ([] ++ front ++ [se]) =
      if mediasize - se.segend < reserve then
        keepSegs reserve spc (dropSeg2 reserve spc front (mediasize - se.segend)).2
          (dropSeg2 reserve spc front (mediasize - se.segend)).1 se
      else keepSegs reserve se.segend (mediasize - se.segend) front se := by
  obtain ⟨ss, hss, hle⟩ : ∃ ss, ([] ++ front ++ [se]).head? = some ss ∧ ¬ se.offset < ss.offset := by
    cases front with
    | nil => exact ⟨se, rfl, UInt64.lt_irrefl _⟩
    | cons ss front =>
      refine ⟨ss, rfl, fun hlt => ?_⟩
      have hbefore := h.before ss List.mem_cons_self
      have hpos := h.inside ss (by simp)
      have := UInt64.lt_iff_toNat_lt.1 hlt
      rw [Segptr.start] at hbefore hpos
      omega
  rw [List.nil_append] at hss ⊢
  rw [smpOpenTable]
  simp only [hss, List.getLast?_concat, List.dropLast_concat, if_neg hle, ite_self]

/-- `smp_open_segs` of a table that goes around. -/
theorem SegRing.openTable_tail (h : SegRing spc mediasize tail front se) (hne : tail ≠ []) :
    smpOpenTable spc mediasize reserve (tail ++ front ++ [se]) =
      let r := drops (fun p => p.offset - se.segend) reserve tail (mediasize - se.segend)
      if r.2 < reserve then
        keepSegs reserve spc (dropSeg2 reserve spc (r.1 ++ front) r.2).2 (dropSeg2 reserve spc (r.1 ++ front) r.2).1 se
      else keepSegs reserve se.segend r.2 (r.1 ++ front) se := by
  have htail : ∀ p ∈ tail, se.offset < p.offset := by
    intro p hp
    have hbehind := h.behind p hp
    have hpos := h.inside se (by simp)
    exact UInt64.lt_iff_toNat_lt.2 (show se.start < p.start by omega)
  have hfront : ∀ p ∈ front, ¬ se.offset < p.offset := by
    intro p hp hlt
    have hbefore := h.before p hp
    have hpos := h.inside p (by simp [hp])
    have := UInt64.lt_iff_toNat_lt.1 hlt
    rw [Segptr.start] at hbefore hpos
    omega
  obtain ⟨ss, hss, hmem⟩ : ∃ ss, (tail ++ front ++ [se]).head? = some ss ∧ ss ∈ tail := by
    cases tail with
    | nil => exact absurd rfl hne
    | cons ss tail => exact ⟨ss, rfl, List.mem_cons_self⟩
  have hlt := htail ss hmem
  have hnlt : ¬ ss.offset < se.offset := fun h' => absurd (UInt64.lt_trans hlt h') (UInt64.lt_irrefl _)
  rw [smpOpenTable]
  simp only [hss, List.getLast?_concat, List.dropLast_concat, hnlt, false_and, if_false, if_pos hlt,
    dropSeg1_append htail hfront]

/-- **The free reserve behind the last segment**, when there is room up to the end or up to the next segment. -/
theorem SegRing.found_behind (h : SegRing spc mediasize tail front se) {kept : List Segptr} (hkept : kept <:+ tail)
    (hmedia : se.stop + reserve.toNat ≤ mediasize.toNat) (hroom : ∀ p ∈ kept, se.stop + reserve.toNat ≤ p.start) :
    Found spc mediasize reserve (tail ++ front ++ [se]) (some (se.segend, kept ++ front ++ [se])) := by
  have hse := h.inside se (by simp)
  have hend : se.segend.toNat = se.stop := toNat_segend hse.2.2
  refine found_some ?_ (by omega) (by omega) ?_
  · rw [List.append_assoc, List.append_assoc]
    exact List.suffix_append_self_iff.2 hkept
  · intro p hp
    rw [hend]
    rcases List.mem_append.1 hp with hp | hp
    · rcases List.mem_append.1 hp with hp | hp
      · exact .inl (hroom p hp)
      · have hbefore := h.before p hp
        right
        omega
    · rw [List.mem_singleton.1 hp]
      exact .inr (le_refl _)

/-- When `smp_open_segs` finds the free reserve. -/
theorem SegRing.found_iff (h : SegRing spc mediasize tail front se) :
    Found spc mediasize reserve (tail ++ front ++ [se]) (smpOpenTable spc mediasize reserve (tail ++ front ++ [se])) ↔
      (tail = [] ∧ se.stop + reserve.toNat ≤ mediasize.toNat) ∨ (∃ p ∈ tail, se.stop + reserve.toNat ≤ p.start) ∨
        ∃ p ∈ front, spc.toNat + reserve.toNat ≤ p.start := by
  have hse := h.inside se (by simp)
  have hend : se.segend.toNat = se.stop := toNat_segend hse.2.2
  by_cases hnil : tail = []
  · subst hnil
    have hleft : (mediasize - se.segend).toNat = mediasize.toNat - se.stop := by
      rw [UInt64.toNat_sub_of_le _ _ (UInt64.le_iff_toNat_le.2 (by omega)), hend]
    rw [h.openTable_nil]
    by_cases hlt : mediasize - se.segend < reserve
    · rw [if_pos hlt, h.found_front hlt]
      have := UInt64.lt_iff_toNat_lt.1 hlt
      constructor
      · exact fun hp => .inr (.inr hp)
      · rintro (⟨-, hroom⟩ | ⟨p, hp, -⟩ | hp)
        · omega
        · cases hp
        · exact hp
    · have hle := UInt64.not_lt.1 hlt
      have hroom := UInt64.le_iff_toNat_le.1 hle
      have hsuffix : front <:+ [] ++ front := List.suffix_refl _
      rw [if_neg hlt, h.keepSegs_eq hsuffix, if_pos hle]
      refine ⟨fun _ => .inl ⟨rfl, by omega⟩, fun _ => ?_⟩
      exact h.found_behind (List.suffix_refl _) (by omega) fun p hp => by cases hp
  · have hgap : ∀ p ∈ tail, (p.offset - se.segend).toNat = p.start - se.stop := fun p hp => by
      have hbehind := h.behind p hp
      rw [toNat_gap (by omega), hend]
    have hle : ∀ p ∈ tail, (reserve ≤ p.offset - se.segend ↔ se.stop + reserve.toNat ≤ p.start) := by
      intro p hp
      have hbehind := h.behind p hp
      rw [UInt64.le_iff_toNat_le, hgap p hp]
      omega
    have hup : tail.Pairwise fun a b => a.offset - se.segend ≤ b.offset - se.segend := by
      refine h.tailUp.imp_of_mem fun {a b} ha hb hab => UInt64.le_iff_toNat_le.2 ?_
      have hin := h.inside a (by simp [ha])
      rw [hgap a ha, hgap b hb]
      rw [Segptr.Before] at hab
      omega
    have hd := drops_dropped reserve hup (mediasize - se.segend)
    obtain ⟨p, hp, hlast⟩ := hd.last.resolve_left fun hl => hnil hl.1
    rw [h.openTable_tail hnil]
    simp only
    by_cases hlt : (drops (fun p => p.offset - se.segend) reserve tail (mediasize - se.segend)).2 < reserve
    · -- the whole tail goes
      rw [if_pos hlt, hd.empty hlt, List.nil_append, h.found_front hlt]
      constructor
      · exact fun hp => .inr (.inr hp)
      · rintro (⟨hnil', -⟩ | ⟨q, hq, hroom⟩ | hp)
        · exact absurd hnil' hnil
        · exact absurd hlt (UInt64.not_lt.2 (hd.room ⟨q, hq, (hle q hq).2 hroom⟩))
        · exact hp
    · have hr := UInt64.not_lt.1 hlt
      have hroom := (hle p hp).1 (hlast ▸ hr)
      have hpin := h.inside p (by simp [hp])
      have hsuffix : (drops (fun p => p.offset - se.segend) reserve tail (mediasize - se.segend)).1 ++ front <:+
          tail ++ front := List.suffix_append_self_iff.2 hd.suffix
      rw [if_neg hlt, h.keepSegs_eq hsuffix, if_pos hr]
      refine ⟨fun _ => .inr (.inl ⟨p, hp, hroom⟩), fun _ => ?_⟩
      refine h.found_behind hd.suffix (by omega) fun q hq => ?_
      exact (hle q (hd.suffix.subset hq)).1 (UInt64.le_trans hr (hd.gaps q hq))

theorem SegRing.roomy_iff (h : SegRing spc mediasize tail front se) :
    Roomy spc mediasize reserve (tail ++ front ++ [se]) ↔
      (tail = [] ∧ se.stop + reserve.toNat ≤ mediasize.toNat) ∨ (∃ p ∈ tail, se.stop + reserve.toNat ≤ p.start) ∨
        ∃ p ∈ front, spc.toNat + reserve.toNat ≤ p.start := by
  have hse := h.inside se (by simp)
  -- where a segment is says in which part of the table it is
  have hbehind : ∀ p ∈ tail, se.start < p.start := fun p hp => by
    have := h.behind p hp
    omega
  have hbefore : ∀ p ∈ front, p.start < se.start := fun p hp => by
    have := h.before p hp
    have := h.inside p (by simp [hp])
    omega
  have hmem : ∀ p ∈ tail ++ front ++ [se], p ∈ tail ∨ p ∈ front ∨ p = se := by simp
  have hhead : ∀ ss ∈ (tail ++ front ++ [se]).head?, (ss.start ≤ se.start ↔ tail = []) := by
    intro ss hss
    constructor
    · intro hle
      cases tail with
      | nil => rfl
      | cons p tail =>
        cases hss
        have := hbehind ss List.mem_cons_self
        omega
    · rintro rfl
      rcases hmem ss (List.mem_of_mem_head? hss) with hp | hp | rfl
      · cases hp
      · exact Nat.le_of_lt (hbefore ss hp)
      · exact le_refl _
  have hlast : (tail ++ front ++ [se]).getLast? = some se := List.getLast?_concat ..
  constructor
  · rintro ⟨ss, hss, se', hse', hroom⟩
    rw [hlast] at hse'
    cases hse'
    rcases hroom with ⟨hle, hroom⟩ | ⟨p, hp, hlt, hroom⟩ | ⟨p, hp, hlt, hroom⟩
    · exact .inl ⟨(hhead ss hss).1 hle, hroom⟩
    · rcases hmem p hp with hp | hp | rfl
      · exact .inr (.inl ⟨p, hp, hroom⟩)
      · have := hbefore p hp
        omega
      · omega
    · rcases hmem p hp with hp | hp | rfl
      · have := hbehind p hp
        omega
      · exact .inr (.inr ⟨p, hp, hroom⟩)
      · omega
  · intro hroom
    obtain ⟨ss, hss⟩ : ∃ ss, (tail ++ front ++ [se]).head? = some ss :=
      Option.isSome_iff_exists.1 (by simp)
    refine ⟨ss, hss, se, hlast, ?_⟩
    rcases hroom with ⟨hnil, hroom⟩ | ⟨p, hp, hroom⟩ | ⟨p, hp, hroom⟩
    · exact .inl ⟨(hhead ss hss).2 hnil, hroom⟩
    · exact .inr (.inl ⟨p, by simp [hp], hbehind p hp, hroom⟩)
    · exact .inr (.inr ⟨p, by simp [hp], hbefore p hp, hroom⟩)

variable {sha : List UInt8 → List UInt8} {m : Mem} {c : Signctx}

/-- **A silo that is opened again finds its free reserve** if and only if there is room for it behind the last segment, in a
table that does not go around, or between the last segment and another one behind it, or before a segment that is before
the last one; for every table of segments in circular order, that a copy holds. -/
theorem reopened_iff (hopen : Opened m c (segBody ps)) (hchk : smpChkSign sha m c = 0)
    (hps : Circular spc mediasize ps) (free : UInt64) :
    Reopened spc mediasize reserve ps (smpOpenSegsSc spc mediasize reserve sha m c free) ↔
      Roomy spc mediasize reserve ps := by
  have hlen : readLength m c ≠ 0 := by
    have := List.length_pos_of_ne_nil hps.ne_nil
    rw [hopen.readLength, length_segBody]
    omega
  have heq : smpOpenSegsSc spc mediasize reserve sha m c free =
      (smpOpenTable spc mediasize reserve ps).map fun x => (0, x.1, x.2) := by
    rw [smpOpenSegsSc, openSegs_opened hopen hchk]
    simp only [ne_eq, not_true_eq_false, if_false, hlen]
  obtain ⟨tail, front, se, rfl, hring⟩ := hps.ring
  rw [heq, hring.roomy_iff]
  exact hring.found_iff

/-- A silo with 4 MB of space, and segments of 64 KB. -/
def segSpc : UInt64 := 4198400

def segMedia : UInt64 := 8392704

def segAt (i : UInt64) : Segptr := ⟨segSpc + 65536 * i, 65536, 0, 1, 0⟩

/-- The memory after the segments were saved. -/
def segMem (ps : List Segptr) : Mem := applyAll (fun _ => 0) (saveWrites polySha geom.seg1 ps)

theorem signed_segMem (ps : List Segptr) (h : 32 * ps.length < 2 ^ 32) :
    Opened (segMem ps) geom.seg1 (segBody ps) ∧ smpChkSign polySha (segMem ps) geom.seg1 = 0 := by
  have hs : Signed polySha (segMem ps) geom.seg1 (segBody ps) :=
    signed_saveWrites (fun x => length_le _ _) (wf_seg1 geom) _ h
  exact ⟨hs.opened, hs.chk (wf_seg1 geom)⟩

/-- A table that goes around, of which the first segment is dropped. -/
theorem reopened_iff_around : ∃ m c, Opened m c (segBody [segAt 10, segAt 40, segAt 0]) ∧
    smpChkSign polySha m c = 0 ∧ Circular segSpc segMedia [segAt 10, segAt 40, segAt 0] ∧
    Reopened segSpc segMedia 655360 [segAt 10, segAt 40, segAt 0]
      (smpOpenSegsSc segSpc segMedia 655360 polySha m c 0) := by
  obtain ⟨hopen, hchk⟩ := signed_segMem [segAt 10, segAt 40, segAt 0] (by decide)
  have hps : Circular segSpc segMedia [segAt 10, segAt 40, segAt 0] :=
    ⟨by decide, by decide, [segAt 10, segAt 40], [segAt 0], rfl, by decide⟩
  refine ⟨_, _, hopen, hchk, hps, (reopened_iff hopen hchk hps 0).2 ?_⟩
  exact ⟨segAt 10, rfl, segAt 0, rfl, .inr (.inl ⟨segAt 40, by decide, by decide, by decide⟩)⟩

/-- One segment at the end of the space: all that is before it is free, and an assertion fails. -/
theorem reopened_last : ∃ m c, Opened m c (segBody [segAt 63]) ∧ smpChkSign polySha m c = 0 ∧
    Circular segSpc segMedia [segAt 63] ∧
    (655360 : UInt64).toNat + (segAt 63).length.toNat ≤ segMedia.toNat - segSpc.toNat ∧
    ¬ Reopened segSpc segMedia 655360 [segAt 63] (smpOpenSegsSc segSpc segMedia 655360 polySha m c 0) := by
  obtain ⟨hopen, hchk⟩ := signed_segMem [segAt 63] (by decide)
  have hps : Circular segSpc segMedia [segAt 63] := ⟨by decide, by decide, [], [segAt 63], rfl, by decide⟩
  refine ⟨_, _, hopen, hchk, hps, by decide, fun hr => ?_⟩
  obtain ⟨ss, hss, se, hse, hroom⟩ := (reopened_iff hopen hchk hps 0).1 hr
  cases hss
  cases hse
  revert hroom
  decide

end Result

end Varnish.Silo
