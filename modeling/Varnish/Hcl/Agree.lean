import Varnish.Hcb.Owner
import Varnish.Hcl.Model

/-!
# Varnish.Hcl.Agree — the two hash backends are one map

* `specStep`: the map from digests to objheads with their reference counts.
* `Counts`: a backend that has the entries of the map; one lemma for each thing that can happen to it.
* `hcl_step`, `hcb_step`: each backend answers as the map does.
* `backends_agree`: over every sequence of lookups and derefs both backends answer the same, and have the same entries.
-/

namespace Varnish.Hcl

open Varnish.Hcb Varnish.Lib CTree

/-! ## The map -/

section Spec

/-- The objhead of a digest, and its references. -/
abbrev Counted := Digest → Option (Ptr × ℕ)

/-- The map, and the objheads that ever were in it. -/
structure Spec where
  map : Counted
  used : List Ptr

/-- A lookup of the digest `d`, with the objhead that is offered for it, or a deref. -/
inductive Op where
  | lookup (noh : Ptr) (d : Digest)
  | deref (oh : Ptr)

def Counted.deref (f : Counted) (oh : Ptr) : Counted := fun d =>
  (f d).bind fun p => if p.1 = oh then if p.2 = 1 then none else some (oh, p.2 - 1) else some p

def specStep (f : Spec) : Op → Spec × Option Ptr
  | .lookup noh d =>
    match f.map d with
    | some (oh, n) => ({ f with map := Function.update f.map d (some (oh, n + 1)) }, some oh)
    | none => ({ map := Function.update f.map d (some (noh, 1)), used := noh :: f.used }, some noh)
  | .deref oh => ({ f with map := f.map.deref oh }, none)

/-- An objhead is offered that is not in the map, and one is dereferenced that is. -/
def Op.Ok (f : Spec) : Op → Prop
  | .lookup noh _ => ∀ d n, f.map d ≠ some (noh, n)
  | .deref oh => ∃ d n, f.map d = some (oh, n)

/-- No objhead is offered again after it was in the map, as long as none is reclaimed. -/
def Op.Fresh (f : Spec) : Op → Prop
  | .lookup noh _ => noh ∉ f.used
  | .deref _ => True

def Spec.start : Spec := { map := fun _ => none, used := [] }

end Spec

/-! ## Entries -/

section Counts

variable {P P' : Ptr → Prop} {dig dig' : Ptr → Digest} {rc rc' : Ptr → ℕ} {f : Counted} {oh : Ptr} {d : Digest}

/-- The objheads `P` with these digests and counts are the entries of the map. -/
def Counts (P : Ptr → Prop) (dig : Ptr → Digest) (rc : Ptr → ℕ) (f : Counted) : Prop :=
  ∀ d oh n, f d = some (oh, n) ↔ P oh ∧ dig oh = d ∧ rc oh = n

theorem Counts.of_mem (h : Counts P dig rc f) (hp : P oh) : f (dig oh) = some (oh, rc oh) := (h _ _ _).mpr ⟨hp, rfl, rfl⟩

theorem Counts.inj (h : Counts P dig rc f) {a b : Ptr} (ha : P a) (hb : P b) (hd : dig a = dig b) : a = b := by
  have h1 := h.of_mem ha
  rw [hd, h.of_mem hb] at h1
  exact (congrArg Prod.fst (Option.some.inj h1)).symm

theorem Counts.congr (h : Counts P dig rc f) (hP : ∀ z, P' z ↔ P z) (hd : ∀ z, P z → dig' z = dig z)
    (hr : ∀ z, P z → rc' z = rc z) : Counts P' dig' rc' f := by
  intro d oh n
  rw [h d oh n, hP]
  exact and_congr_right fun hp => by rw [hd oh hp, hr oh hp]

/-- A lookup that finds `oh`. -/
theorem Counts.hit (h : Counts P dig rc f) (hp : P oh) :
    Counts P dig (Function.update rc oh (rc oh + 1)) (Function.update f (dig oh) (some (oh, rc oh + 1))) := by
  intro d z n
  by_cases hd : d = dig oh
  · subst hd
    rw [Function.update_self]
    constructor
    · rintro ⟨rfl⟩
      exact ⟨hp, rfl, Function.update_self _ _ _⟩
    · rintro ⟨hz, hdz, hn⟩
      obtain rfl := h.inj hz hp hdz
      rw [Function.update_self] at hn
      rw [hn]
  · rw [Function.update_of_ne hd, h d z n]
    refine and_congr_right fun hz => and_congr_right fun hdz => ?_
    have hne : z ≠ oh := by
      rintro rfl
      exact hd hdz.symm
    rw [Function.update_of_ne hne]

/-- A lookup that finds nothing. -/
theorem Counts.miss (h : Counts P dig rc f) (hn : ∀ z, P z → dig z ≠ dig oh) (hP : ∀ z, P' z ↔ z = oh ∨ P z) (hr : rc oh = 1) :
    f (dig oh) = none ∧ Counts P' dig rc (Function.update f (dig oh) (some (oh, 1))) := by
  constructor
  · cases hf : f (dig oh) with
    | none => rfl
    | some p =>
      obtain ⟨hp, hd, -⟩ := (h _ p.1 p.2).mp hf
      exact absurd hd (hn _ hp)
  · intro d z n
    rw [hP]
    by_cases hd : d = dig oh
    · subst hd
      rw [Function.update_self]
      constructor
      · rintro ⟨rfl⟩
        exact ⟨.inl rfl, rfl, hr⟩
      · rintro ⟨rfl | hz, hdz, hnz⟩
        · rw [← hnz, hr]
        · exact absurd hdz (hn z hz)
    · rw [Function.update_of_ne hd, h d z n]
      refine ⟨fun hz => ⟨.inr hz.1, hz.2⟩, ?_⟩
      rintro ⟨rfl | hz, hdz, hnz⟩
      · exact absurd hdz.symm hd
      · exact ⟨hz, hdz, hnz⟩

theorem deref_of_ne (h : ∀ p, f d = some p → p.1 ≠ oh) : f.deref oh d = f d := by
  unfold Counted.deref
  cases hf : f d with
  | none => rfl
  | some p => exact if_neg (h p hf)

theorem deref_of_eq {n : ℕ} (h : f d = some (oh, n)) : f.deref oh d = if n = 1 then none else some (oh, n - 1) := by
  rw [Counted.deref, h, Option.bind_some, if_pos rfl]

/-- A deref of one of several references. -/
theorem Counts.dec (h : Counts P dig rc f) (hp : P oh) (h1 : rc oh ≠ 1) :
    Counts P dig (Function.update rc oh (rc oh - 1)) (f.deref oh) := by
  intro d z n
  by_cases hd : d = dig oh
  · subst hd
    rw [deref_of_eq (h.of_mem hp), if_neg h1]
    constructor
    · rintro ⟨rfl⟩
      exact ⟨hp, rfl, Function.update_self _ _ _⟩
    · rintro ⟨hz, hdz, hn⟩
      obtain rfl := h.inj hz hp hdz
      rw [Function.update_self] at hn
      rw [hn]
  · have hne : ∀ y, P y → dig y = d → y ≠ oh := by
      rintro y - hy rfl
      exact hd hy.symm
    have hother : f.deref oh d = f d := deref_of_ne fun p hf => by
      obtain ⟨hy, hdy, -⟩ := (h d p.1 p.2).mp hf
      exact hne p.1 hy hdy
    rw [hother, h d z n]
    refine and_congr_right fun hz => and_congr_right fun hdz => ?_
    rw [Function.update_of_ne (hne z hz hdz)]

/-- A deref of the last reference. -/
theorem Counts.drop (h : Counts P dig rc f) (hp : P oh) (h1 : rc oh = 1) (hP : ∀ z, P' z ↔ P z ∧ z ≠ oh)
    (hd' : ∀ z, P' z → dig' z = dig z) (hr' : ∀ z, P' z → rc' z = rc z) : Counts P' dig' rc' (f.deref oh) := by
  intro d z n
  by_cases hd : d = dig oh
  · subst hd
    rw [deref_of_eq (h.of_mem hp), if_pos h1]
    refine iff_of_false (by simp) ?_
    rintro ⟨hz, hdz, -⟩
    rw [hd' z hz] at hdz
    obtain ⟨hz, hne⟩ := (hP z).mp hz
    exact hne (h.inj hz hp hdz)
  · have hother : f.deref oh d = f d := deref_of_ne fun p hf he => by
      obtain ⟨-, hdy, -⟩ := (h d p.1 p.2).mp hf
      exact hd (by rw [← he, hdy])
    rw [hother, h d z n]
    constructor
    · rintro ⟨hz, hdz, hn⟩
      have hz' : P' z := (hP z).mpr ⟨hz, fun he => hd (by rw [← he, hdz])⟩
      exact ⟨hz', (hd' z hz').trans hdz, (hr' z hz').trans hn⟩
    · rintro ⟨hz, hdz, hn⟩
      rw [hd' z hz] at hdz
      rw [hr' z hz] at hn
      exact ⟨((hP z).mp hz).1, hdz, hn⟩

end Counts

/-! ## The sorted buckets -/

section Classic

/-- A call of `hash->lookup` or `hash->deref`, in the classic hash. -/
def hclStep (s : Table) : Op → Option (Table × Option Ptr)
  | .lookup noh d =>
    let p := hclLookup (hshOffer s noh d) noh
    some (p.2, some p.1)
  | .deref oh => (hclDeref s oh).map fun p => (p.2, none)

/-- The buckets are sorted, each objhead is in the bucket of its digest, and they are the entries of the map. -/
structure HclInv (t : Table) (f : Counted) : Prop where
  sorted : ∀ u, Sorted t.digest (t.head u)
  home : ∀ u, ∀ oh ∈ t.head u, bucket t.nhash (t.digest oh) = u ∧ t.hohHead oh = some u
  counted : ∀ u, ∀ oh ∈ t.head u, 0 < t.refcnt oh
  entries : Counts (fun oh => ∃ u, oh ∈ t.head u) t.digest t.refcnt f

variable {t : Table} {f : Counted} {noh oh : Ptr} {d : Digest}

theorem hclInv_start (nhash : ℕ) (digest : Ptr → Digest) : HclInv (Table.start nhash digest) fun _ => none where
  sorted _ := List.Pairwise.nil
  home _ _ h := absurd h List.not_mem_nil
  counted _ _ h := absurd h List.not_mem_nil
  entries d oh n := by
    refine iff_of_false (by simp) ?_
    rintro ⟨⟨u, hu⟩, -⟩
    exact absurd hu List.not_mem_nil

/-- The offered objhead is in no bucket, so its memory does not matter. -/
theorem HclInv.offer (h : HclInv t f) (hn : ∀ u, noh ∉ t.head u) (d : Digest) : HclInv (hshOffer t noh d) f := by
  have hne : ∀ u, ∀ oh ∈ t.head u, oh ≠ noh := by
    rintro u oh hoh rfl
    exact hn u hoh
  have hdig : ∀ u, ∀ oh ∈ t.head u, (hshOffer t noh d).digest oh = t.digest oh := fun u oh hoh =>
    Function.update_of_ne (hne u oh hoh) _ _
  constructor
  case sorted =>
    intro u
    refine List.Pairwise.imp_of_mem (fun ha hb hab => ?_) (h.sorted u)
    rw [hdig u _ ha, hdig u _ hb]
    exact hab
  case home =>
    intro u oh hoh
    rw [hdig u oh hoh]
    exact ⟨(h.home u oh hoh).1, (Function.update_of_ne (hne u oh hoh) _ _).trans (h.home u oh hoh).2⟩
  case counted =>
    intro u oh hoh
    show 0 < Function.update t.refcnt noh 1 oh
    rw [Function.update_of_ne (hne u oh hoh)]
    exact h.counted u oh hoh
  case entries =>
    refine h.entries.congr (fun z => Iff.rfl) ?_ ?_
    · rintro z ⟨u, hu⟩
      exact hdig u z hu
    · rintro z ⟨u, hu⟩
      exact Function.update_of_ne (hne u z hu) _ _

/-- An objhead is in the bucket of its digest or in none. -/
theorem HclInv.mem_iff (h : HclInv t f) : (∃ u, oh ∈ t.head u) ↔ oh ∈ t.head (bucket t.nhash (t.digest oh)) := by
  constructor
  · rintro ⟨u, hu⟩
    rw [(h.home u oh hu).1]
    exact hu
  · exact fun hu => ⟨_, hu⟩

theorem HclInv.lookup (h : HclInv t f) (hn : ∀ u, noh ∉ t.head u) (hr : t.refcnt noh = 1) :
    (∃ oh n, f (t.digest noh) = some (oh, n) ∧ (hclLookup t noh).1 = oh ∧
      HclInv (hclLookup t noh).2 (Function.update f (t.digest noh) (some (oh, n + 1)))) ∨
    f (t.digest noh) = none ∧ (hclLookup t noh).1 = noh ∧
      HclInv (hclLookup t noh).2 (Function.update f (t.digest noh) (some (noh, 1))) := by
  unfold hclLookup
  dsimp only
  set u := bucket t.nhash (t.digest noh) with hu
  rcases hclWalk_spec noh (h.sorted u) with ⟨oh, hoh, hd, hw⟩ | ⟨hmiss, l, hw, hp, hs⟩
  · left
    refine ⟨oh, t.refcnt oh, hd ▸ h.entries.of_mem ⟨u, hoh⟩, ?_⟩
    rw [hw]
    refine ⟨rfl, h.sorted, h.home, fun v z hz => ?_, ?_⟩
    · show 0 < Function.update t.refcnt oh (t.refcnt oh + 1) z
      by_cases hzo : z = oh
      · rw [hzo, Function.update_self]
        exact Nat.succ_pos _
      · rw [Function.update_of_ne hzo]
        exact h.counted v z hz
    · rw [← hd]
      exact h.entries.hit ⟨u, hoh⟩
  · right
    rw [hw]
    have hhead : ∀ v z, z ∈ Function.update t.head u l v ↔ (z = noh ∧ v = u) ∨ z ∈ t.head v := by
      intro v z
      by_cases hv : v = u
      · subst hv
        rw [Function.update_self, hp.mem_iff, List.mem_cons]
        simp
      · rw [Function.update_of_ne hv]
        simp [hv]
    have hentries : f (t.digest noh) = none ∧ Counts (fun z => ∃ v, z ∈ Function.update t.head u l v) t.digest t.refcnt
        (Function.update f (t.digest noh) (some (noh, 1))) := h.entries.miss
      (by
        rintro z hz hd
        refine hmiss z ?_ hd
        rw [h.mem_iff, hd] at hz
        exact hz)
      (by
        intro z
        simp only [hhead]
        constructor
        · rintro ⟨v, ⟨rfl, -⟩ | hz⟩
          · exact .inl rfl
          · exact .inr ⟨v, hz⟩
        · rintro (rfl | ⟨v, hz⟩)
          · exact ⟨u, .inl ⟨rfl, rfl⟩⟩
          · exact ⟨v, .inr hz⟩)
      hr
    refine ⟨hentries.1, rfl, fun v => ?_, fun v z hz => ?_, fun v z hz => ?_, hentries.2⟩
    · show Sorted t.digest (Function.update t.head u l v)
      by_cases hv : v = u
      · rw [hv, Function.update_self]
        exact hs
      · rw [Function.update_of_ne hv]
        exact h.sorted v
    · rcases (hhead v z).mp hz with ⟨rfl, rfl⟩ | hold
      · exact ⟨hu.symm, Function.update_self _ _ _⟩
      · have hne : z ≠ noh := fun he => hn v (he ▸ hold)
        exact ⟨(h.home v z hold).1, (Function.update_of_ne hne _ _).trans (h.home v z hold).2⟩
    · rcases (hhead v z).mp hz with ⟨rfl, rfl⟩ | hz
      · show 0 < t.refcnt z
        omega
      · exact h.counted v z hz

theorem HclInv.deref {n : ℕ} (h : HclInv t f) (hf : f d = some (oh, n)) :
    ∃ r t', hclDeref t oh = some (r, t') ∧ HclInv t' (f.deref oh) := by
  obtain ⟨⟨u, hu⟩, -, -⟩ := (h.entries d oh n).mp hf
  obtain ⟨hb, hh⟩ := h.home u oh hu
  have hpos := h.counted u oh hu
  unfold hclDeref
  rw [hh]
  simp only [Option.bind_eq_bind, Option.bind_some, if_pos hpos]
  by_cases h1 : t.refcnt oh = 1
  · rw [if_pos (by omega)]
    have hnodup : (t.head u).Nodup := (h.sorted u).imp fun hab he => (he ▸ hab.ne) rfl
    have hhead : ∀ v z, z ∈ Function.update t.head u ((t.head u).erase oh) v ↔ z ∈ t.head v ∧ z ≠ oh := by
      intro v z
      by_cases hv : v = u
      · rw [hv, Function.update_self, hnodup.mem_erase_iff]
        exact and_comm
      · rw [Function.update_of_ne hv]
        refine ⟨fun hz => ⟨hz, ?_⟩, fun hz => hz.1⟩
        rintro rfl
        exact hv ((h.home v z hz).1.symm.trans hb)
    refine ⟨false, _, rfl, fun v => ?_, fun v z hz => h.home v z ((hhead v z).mp hz).1, fun v z hz => ?_, ?_⟩
    · show Sorted t.digest (Function.update t.head u ((t.head u).erase oh) v)
      by_cases hv : v = u
      · rw [hv, Function.update_self]
        exact (h.sorted u).sublist List.erase_sublist
      · rw [Function.update_of_ne hv]
        exact h.sorted v
    · obtain ⟨hz, hne⟩ := (hhead v z).mp hz
      show 0 < Function.update t.refcnt oh (t.refcnt oh - 1) z
      rw [Function.update_of_ne hne]
      exact h.counted v z hz
    · refine h.entries.drop ⟨u, hu⟩ h1 (fun z => ?_) (fun z _ => rfl) ?_
      · simp only [hhead]
        exact exists_and_right
      · rintro z ⟨v, hz⟩
        exact Function.update_of_ne ((hhead v z).mp hz).2 _ _
  · rw [if_neg (by omega)]
    refine ⟨true, _, rfl, h.sorted, h.home, fun v z hz => ?_, h.entries.dec ⟨u, hu⟩ h1⟩
    show 0 < Function.update t.refcnt oh (t.refcnt oh - 1) z
    by_cases hzo : z = oh
    · rw [hzo, Function.update_self]
      omega
    · rw [Function.update_of_ne hzo]
      exact h.counted v z hz

/-- One call, in the classic hash: it answers as the map. -/
theorem hcl_step (s : Table) (f : Spec) (op : Op) (h : HclInv s f.map) (hok : op.Ok f) :
    ∃ s', hclStep s op = some (s', (specStep f op).2) ∧ HclInv s' (specStep f op).1.map := by
  cases op with
  | lookup noh d =>
    have hn : ∀ u, noh ∉ s.head u := fun u hu => hok _ _ (h.entries.of_mem ⟨u, hu⟩)
    have hd : (hshOffer s noh d).digest noh = d := Function.update_self _ _ _
    have hlook := (h.offer hn d).lookup hn (Function.update_self _ _ _)
    rw [hd] at hlook
    rcases hlook with ⟨oh, n, hf, hret, hinv⟩ | ⟨hf, hret, hinv⟩
    · simp only [hclStep, specStep, hf, hret]
      exact ⟨_, rfl, hinv⟩
    · simp only [hclStep, specStep, hf, hret]
      exact ⟨_, rfl, hinv⟩
  | deref oh =>
    obtain ⟨d, n, hf⟩ := hok
    obtain ⟨r, t', ht', hinv⟩ := h.deref hf
    exact ⟨t', by rw [hclStep, ht']; rfl, hinv⟩

end Classic

/-! ## The crit-bit tree -/

section Critbit

/-- The second pass of `hcb_lookup`, with the lock held, and the objhead it returns. -/
def hcbLocked (s : Sys) (noh : Ptr) (d : Digest) : Option (Sys × Ptr) := do
  let (r, _) ← hcbInsert (s.mem.setDigest noh d) noh true
  let oh ← r
  let s' ← hcbLookup s noh d
  some (s', oh)

/-- `hcb_lookup`: first without the lock, then with it if nothing was found, or only an objhead without references. -/
def hcbLookupBoth (s : Sys) (noh : Ptr) (d : Digest) : Option (Sys × Ptr) := do
  let (r, m) ← hcbInsert (s.mem.setDigest noh d) noh false
  match r with
  | some oh =>
    if oh = noh then none
    else if s.refcnt oh ≠ 0 then some (hcbNolock { s with mem := m } oh, oh)
    else hcbLocked { s with mem := m } noh d
  | none => hcbLocked { s with mem := m } noh d

/-- A call of `hash->lookup` or `hash->deref`, in the crit-bit hash, with `HSH_Prealloc`. -/
def hcbStep (s : Sys) : Op → Option (Sys × Option Ptr)
  | .lookup noh d =>
    (hcbLookupBoth (if s.fresh noh then s else hshPrealloc s noh) noh d).map fun p => (p.1, some p.2)
  | .deref oh => (hcbDeref s oh).map fun s' => (s', none)

/-- The leaves of the tree are the entries of the map. -/
structure HcbInv (s : Sys) (o : Option (CTree Ptr)) (f : Spec) : Prop where
  sys : SysInv s o
  entries : Counts (· ∈ leavesOf o) s.mem.digest s.refcnt f.map
  used : ∀ oh, oh ∈ f.used ↔ s.live oh = true ∧ s.fresh oh = false

variable {s : Sys} {o : Option (CTree Ptr)} {f : Spec} {noh oh : Ptr} {d : Digest}

theorem hcbInv_start (digest : Ptr → Digest) : HcbInv (Sys.start digest) none Spec.start where
  sys := sysInv_start digest
  entries d oh n := iff_of_false (by simp [Spec.start]) fun h => absurd h.1 List.not_mem_nil
  used oh := iff_of_false List.not_mem_nil fun h => by cases h.1

/-- Without the lock nothing is inserted. -/
theorem hcbInsert_miss {m : Hcb.Mem} (h : Shape m o) (hd : ∀ a ∈ leavesOf o, m.digest a ≠ m.digest oh) :
    ∃ n, hcbInsert m oh false = some (none, m.addCmps n) := by
  cases o with
  | none =>
    have h0 : m.origo = 0 := h
    have hm : m.addCmps 0 = m := by
      cases m
      simp [Hcb.Mem.addCmps]
    exact ⟨0, by simp [hcbInsert, h0, hm]⟩
  | some t =>
    have hh : Holds m t := h
    have hlook : m.digest (look (m.digest oh).bits t) ≠ m.digest oh := hd _ look_mem
    obtain ⟨q, n, hdesc⟩ := hcbDescend_spec (d := m.digest oh) (p := .origo) hh.rep hh.depth_lt
    have h0 : m.origo ≠ 0#64 := rep_ne_zero hh.rep
    exact ⟨n, by simp [hcbInsert, h0, hdesc, hlook]⟩

/-- `HSH_Prealloc`, where the worker has no objhead. -/
theorem HcbInv.prealloc (h : HcbInv s o f) (hok : s.live noh = false) : HcbInv (hshPrealloc s noh) o f := by
  have hne : ∀ z, s.live z = true → z ≠ noh := by
    rintro z hz rfl
    rw [hok] at hz
    cases hz
  refine ⟨sysInv_prealloc h.sys hok, h.entries.congr (fun z => Iff.rfl) ?_ ?_, fun z => ?_⟩
  · intro z hz
    exact Function.update_of_ne (hne z (h.sys.leaf z hz).1) _ _
  · intro z hz
    exact Function.update_of_ne (hne z (h.sys.leaf z hz).1) _ _
  · rw [h.used z]
    show _ ↔ Function.update s.live noh true z = true ∧ Function.update s.fresh noh true z = false
    by_cases hz : z = noh
    · rw [hz, Function.update_self, Function.update_self, hok]
      simp
    · rw [Function.update_of_ne hz, Function.update_of_ne hz]

/-- The digest of the offered objhead is written. -/
theorem HcbInv.setDigest (h : HcbInv s o f) (hf : s.fresh noh = true) (d : Digest) (n : ℕ) :
    HcbInv { s with mem := (s.mem.setDigest noh d).addCmps n } o f := by
  have hne : ∀ z, z ∈ leavesOf o → z ≠ noh := by
    rintro z hz rfl
    have := (h.sys.leaf z hz).2.1
    rw [hf] at this
    cases this
  have hleaf : noh ∉ leavesOf o := fun hz => hne noh hz rfl
  refine ⟨⟨(h.sys.shape.setDigest hleaf).addCmps n, h.sys.leaf, h.sys.node, h.sys.cool, h.sys.nodup, h.sys.own, h.sys.known⟩,
    h.entries.congr (fun z => Iff.rfl) ?_ (fun z _ => rfl), h.used⟩
  intro z hz
  exact Function.update_of_ne (hne z hz) _ _

/-- A lookup of a digest that the tree has: the first pass finds it. -/
theorem HcbInv.lookup_hit (h : HcbInv s o f) (hf : s.fresh noh = true) (hoh : oh ∈ leavesOf o) (hd : s.mem.digest oh = d) :
    ∃ s', hcbLookupBoth s noh d = some (s', oh) ∧
      HcbInv s' o { f with map := Function.update f.map d (some (oh, s.refcnt oh + 1)) } := by
  obtain ⟨hlive, hfresh, hpos⟩ := h.sys.leaf oh hoh
  have hne : oh ≠ noh := by
    rintro rfl
    rw [hf] at hfresh
    cases hfresh
  have hself : (s.mem.setDigest noh d).digest noh = d := Function.update_self _ _ _
  have hother : (s.mem.setDigest noh d).digest oh = d := (Function.update_of_ne hne _ _).trans hd
  have hleaf : noh ∉ leavesOf o := fun hz => by
    have := (h.sys.leaf noh hz).2.1
    rw [hf] at this
    cases this
  obtain ⟨n, hins⟩ : ∃ n, hcbInsert (s.mem.setDigest noh d) noh false = some (some oh, (s.mem.setDigest noh d).addCmps n) := by
    cases o with
    | none => cases hoh
    | some t => exact hcbInsert_found (h.sys.shape.setDigest hleaf) hoh (by rw [hself, hother]) false
  have h' := h.setDigest hf d n
  refine ⟨_, ?_, sysInv_nolock h'.sys hlive hfresh, ?_, ?_⟩
  · simp only [hcbLookupBoth, hins, Option.bind_eq_bind, Option.bind_some, if_neg hne, if_pos (Nat.ne_of_gt hpos)]
  · rw [hcbNolock, if_pos (Nat.ne_of_gt hpos)]
    have := h'.entries.hit hoh
    rw [show ({ s with mem := (s.mem.setDigest noh d).addCmps n } : Sys).mem.digest oh = d from hother] at this
    exact this
  · rw [hcbNolock, if_pos (Nat.ne_of_gt hpos)]
    exact h'.used

/-- A lookup of a digest that the tree does not have: the second pass inserts the objhead. -/
theorem HcbInv.lookup_miss (h : HcbInv s o f) (hf : s.fresh noh = true) (hd : ∀ a ∈ leavesOf o, s.mem.digest a ≠ d) :
    ∃ s' o', hcbLookupBoth s noh d = some (s', noh) ∧ f.map d = none ∧
      HcbInv s' o' { map := Function.update f.map d (some (noh, 1)), used := noh :: f.used } := by
  have hne : ∀ z, z ∈ leavesOf o → z ≠ noh := by
    rintro z hz rfl
    have := (h.sys.leaf z hz).2.1
    rw [hf] at this
    cases this
  have hnode : noh ∉ nodesOf o := fun hz => by
    have := (h.sys.node_live hz).2
    rw [hf] at this
    cases this
  have hleaf : noh ∉ leavesOf o := fun hz => hne noh hz rfl
  have hdig : ∀ a ∈ leavesOf o, (s.mem.setDigest noh d).digest a ≠ (s.mem.setDigest noh d).digest noh := by
    intro a ha
    rw [show (s.mem.setDigest noh d).digest noh = d from Function.update_self _ _ _,
      show (s.mem.setDigest noh d).digest a = s.mem.digest a from Function.update_of_ne (hne a ha) _ _]
    exact hd a ha
  obtain ⟨n, hmiss⟩ := hcbInsert_miss (h.sys.shape.setDigest hleaf) hdig
  -- the second pass, on the memory that the first one has left
  have h' := h.setDigest hf d n
  set s1 : Sys := { s with mem := (s.mem.setDigest noh d).addCmps n } with hs1
  have hself : s1.mem.digest noh = d := Function.update_self _ _ _
  have hidem : s1.mem.setDigest noh d = s1.mem := by
    simp [hs1, Hcb.Mem.setDigest, Hcb.Mem.addCmps, Function.update_idem]
  have hdig' : ∀ a ∈ leavesOf o, s1.mem.digest a ≠ s1.mem.digest noh := hdig
  rcases hcbInsert_spec h'.sys.shape hnode with ⟨a, ha, he, -⟩ | ⟨-, m', o', hins, hres⟩
  · exact absurd he (hdig' a ha)
  obtain ⟨s2, o2, hlook, hinv⟩ := sysInv_lookup (d := d) h'.sys (show s1.fresh noh = true from hf)
  have href : s1.refcnt noh = 1 := (h'.sys.own noh hf).2
  have hs2 : s2 = { s1 with mem := m', fresh := Function.update s1.fresh noh false } := by
    have : hcbLookup s1 noh d = some { s1 with mem := m', fresh := Function.update s1.fresh noh false } := by
      simp [hcbLookup, href, hidem, hins]
    exact Option.some.inj (hlook.symm.trans this)
  have hleaves : ∀ z, z ∈ leavesOf o2 ↔ z = noh ∨ z ∈ leavesOf o := by
    intro z
    have hshape : Shape m' o2 := by
      have := hinv.shape
      rwa [hs2] at this
    rw [hshape.mem_leaves, ← hres.shape.mem_leaves, hres.leaves.mem_iff, List.mem_cons]
  obtain ⟨hnone, hentries⟩ := h'.entries.miss (fun z hz => hdig' z hz) hleaves href
  rw [hself] at hnone hentries
  refine ⟨s2, o2, ?_, hnone, hinv, ?_, fun z => ?_⟩
  · have hlocked : hcbLocked s1 noh d = some (s2, noh) := by
      simp only [hcbLocked, hidem, hins, hlook, Option.bind_eq_bind, Option.bind_some]
    simp only [hcbLookupBoth, hmiss, Option.bind_eq_bind, Option.bind_some]
    exact hlocked
  · rw [hs2]
    show Counts _ m'.digest s1.refcnt _
    rw [hres.digest]
    exact hentries
  · rw [hs2, List.mem_cons, h'.used z]
    show _ ↔ s1.live z = true ∧ Function.update s1.fresh noh false z = false
    by_cases hz : z = noh
    · rw [hz, Function.update_self]
      exact iff_of_true (.inl rfl) ⟨(h'.sys.own noh hf).1, rfl⟩
    · rw [Function.update_of_ne hz]
      simp [hz]

theorem HcbInv.deref {n : ℕ} (h : HcbInv s o f) (hf : f.map d = some (oh, n)) :
    ∃ s' o', hcbDeref s oh = some s' ∧ HcbInv s' o' { f with map := f.map.deref oh } := by
  obtain ⟨hoh, -, -⟩ := (h.entries d oh n).mp hf
  obtain ⟨hlive, hfresh, hpos⟩ := h.sys.leaf oh hoh
  obtain ⟨s', o', hs', hinv⟩ := sysInv_deref h.sys hlive hfresh hpos
  by_cases h1 : s.refcnt oh = 1
  · obtain ⟨m, o1, hdel, hres⟩ := hcbDelete_spec h.sys.shape hoh
    have hs'eq : s' = (layDown s m oh).setRefcnt oh 0 := by
      have : hcbDeref s oh = some ((layDown s m oh).setRefcnt oh 0) := by simp [hcbDeref, hlive, h1, hdel]
      exact Option.some.inj (hs'.symm.trans this)
    have hnodup := List.nodup_cons.mp (hres.leaves.nodup_iff.mp (leavesOf_nodup h.sys.shape))
    have hleaves : ∀ z, z ∈ leavesOf o' ↔ z ∈ leavesOf o ∧ z ≠ oh := by
      intro z
      have hshape : Shape (m.setDigest oh ((m.digest oh).setFirst 0)) o' := by
        have := hinv.shape
        rwa [hs'eq] at this
      rw [hshape.mem_leaves, ← (hres.shape.setDigest hnodup.1).mem_leaves, hres.leaves.mem_iff, List.mem_cons]
      constructor
      · intro hz
        refine ⟨.inr hz, ?_⟩
        rintro rfl
        exact hnodup.1 hz
      · exact fun hz => hz.1.resolve_left hz.2
    refine ⟨s', o', hs', hinv, ?_, ?_⟩
    · rw [hs'eq]
      refine h.entries.drop hoh h1 hleaves ?_ ?_
      · intro z hz
        have hne := ((hleaves z).mp hz).2
        show Function.update m.digest oh _ z = s.mem.digest z
        rw [Function.update_of_ne hne, hres.digest]
      · intro z hz
        exact Function.update_of_ne ((hleaves z).mp hz).2 _ _
    · rw [hs'eq]
      exact h.used
  · have hs'eq : s' = s.setRefcnt oh (s.refcnt oh - 1) := by
      have : hcbDeref s oh = some (s.setRefcnt oh (s.refcnt oh - 1)) := by simp [hcbDeref, hlive, hpos, h1]
      exact Option.some.inj (hs'.symm.trans this)
    have hleaves : ∀ z, z ∈ leavesOf o' ↔ z ∈ leavesOf o := by
      intro z
      have hshape : Shape s.mem o' := by
        have := hinv.shape
        rwa [hs'eq] at this
      rw [hshape.mem_leaves, h.sys.shape.mem_leaves]
    refine ⟨s', o', hs', hinv, ?_, ?_⟩
    · rw [hs'eq]
      exact (h.entries.dec hoh h1).congr hleaves (fun z _ => rfl) fun z _ => rfl
    · rw [hs'eq]
      exact h.used

/-- One call, in the crit-bit hash: it answers as the map. -/
theorem hcb_step (s : Sys) (f : Spec) (op : Op) (h : ∃ o, HcbInv s o f) (hok : op.Ok f ∧ op.Fresh f) :
    ∃ s', hcbStep s op = some (s', (specStep f op).2) ∧ ∃ o, HcbInv s' o (specStep f op).1 := by
  obtain ⟨o, h⟩ := h
  cases op with
  | lookup noh d =>
    have hused : noh ∉ f.used := hok.2
    rw [h.used] at hused
    obtain ⟨s1, hs1, hf, h1⟩ : ∃ s1, (if s.fresh noh then s else hshPrealloc s noh) = s1 ∧ s1.fresh noh = true ∧ HcbInv s1 o f := by
      by_cases hf : s.fresh noh = true
      · exact ⟨s, if_pos hf, hf, h⟩
      · have hlive : s.live noh = false := by
          by_contra hl
          rw [Bool.not_eq_false] at hl
          rw [Bool.not_eq_true] at hf
          exact hused ⟨hl, hf⟩
        exact ⟨_, if_neg hf, Function.update_self _ _ _, h.prealloc hlive⟩
    simp only [hcbStep, hs1, specStep]
    by_cases hex : ∃ a ∈ leavesOf o, s1.mem.digest a = d
    · obtain ⟨a, ha, hd⟩ := hex
      obtain ⟨s2, hs2, hinv⟩ := h1.lookup_hit hf ha hd
      have hfd : f.map d = some (a, s1.refcnt a) := hd ▸ h1.entries.of_mem ha
      rw [hs2, hfd]
      exact ⟨s2, rfl, o, hinv⟩
    · obtain ⟨s2, o2, hs2, hfd, hinv⟩ := h1.lookup_miss hf fun a ha hd => hex ⟨a, ha, hd⟩
      rw [hs2, hfd]
      exact ⟨s2, rfl, o2, hinv⟩
  | deref oh =>
    obtain ⟨d, n, hfd⟩ := hok.1
    obtain ⟨s', o', hs', hinv⟩ := h.deref hfd
    exact ⟨s', by rw [hcbStep, hs']; rfl, o', hinv⟩

end Critbit

/-! ## Both -/

section Both

theorem nhash_hclStep {s s' : Table} {op : Op} {r : Option Ptr} (h : hclStep s op = some (s', r)) : s'.nhash = s.nhash := by
  cases op with
  | lookup noh d =>
    obtain ⟨rfl, -⟩ := Prod.mk.inj (Option.some.inj h)
    unfold hclLookup
    dsimp only
    cases hclWalk (hshOffer s noh d).digest noh ((hshOffer s noh d).head (bucket (hshOffer s noh d).nhash ((hshOffer s noh d).digest noh))) with
    | mk a l =>
      cases a with
      | none => rfl
      | some oh => rfl
  | deref oh =>
    obtain ⟨p, hp, h⟩ := Option.map_eq_some_iff.mp h
    obtain ⟨rfl, -⟩ := Prod.mk.inj h
    obtain ⟨u, -, hp⟩ := Option.bind_eq_some_iff.mp hp
    split at hp
    · dsimp only at hp
      split at hp
      · cases hp
        rfl
      · cases hp
        rfl
    · cases hp

/-- What the two backends have in common after a sequence of calls that the map answers with `rs` and ends in `f`. -/
structure Agree (nhash : ℕ) (digest : Ptr → Digest) (ops : List Op) (rs : List (Option Ptr)) (f : Spec) : Prop where
  classic : ∃ t, answers hclStep (Table.start nhash digest) ops = some (rs, t) ∧ t.nhash = nhash ∧
    Counts (fun oh => ∃ u, oh ∈ t.head u) t.digest t.refcnt f.map ∧ ∀ u, Sorted t.digest (t.head u) ∧
      ∀ oh ∈ t.head u, bucket nhash (t.digest oh) = u
  critbit : OkSpec specStep (fun f op => op.Fresh f) Spec.start ops →
    ∃ s, answers hcbStep (Sys.start digest) ops = some (rs, s) ∧ TreeInv s.mem ∧
      Counts (fun oh => ∃ path, AtNode s.mem path oh) s.mem.digest s.refcnt f.map

/-- **The two hash backends agree**: over every sequence of calls, where an objhead that is offered is not in the hash and one that
is dereferenced is, the classic hash answers as the map and ends in sorted buckets with the entries of the map; if no objhead is
used twice, as long as none is reclaimed, the crit-bit hash gives the same answers and has the same entries. -/
theorem backends_agree (nhash : ℕ) (digest : Ptr → Digest) (ops : List Op)
    (hok : OkSpec specStep (fun f op => op.Ok f) Spec.start ops) :
    Agree nhash digest ops (specAnswers specStep Spec.start ops).1 (specAnswers specStep Spec.start ops).2 := by
  constructor
  case classic =>
    obtain ⟨t, ht, hinv, hn⟩ := answers_refine hclStep (fun s f => HclInv s f.map ∧ s.nhash = nhash)
      (fun s f op hrel hop => by
        obtain ⟨s', hs', hinv⟩ := hcl_step s f op hrel.1 hop
        exact ⟨s', hs', hinv, (nhash_hclStep hs').trans hrel.2⟩)
      ⟨hclInv_start nhash digest, rfl⟩ hok
    exact ⟨t, ht, hn, hinv.entries, fun u => ⟨hinv.sorted u, fun oh hoh => hn ▸ (hinv.home u oh hoh).1⟩⟩
  case critbit =>
    intro hfresh
    obtain ⟨s, hs, o, hinv⟩ := answers_refine hcbStep (fun s f => ∃ o, HcbInv s o f) hcb_step
      ⟨none, hcbInv_start digest⟩ (hok.and hfresh)
    exact ⟨s, hs, hinv.sys.shape.inv, hinv.entries.congr (fun z => hinv.sys.shape.mem_leaves.symm) (fun _ _ => rfl) fun _ _ => rfl⟩

/-! A run: a digest is looked up twice, and both references are dropped again. -/

def twice : List Op := [.lookup ohA (digestFrom 0), .lookup ohB (digestFrom 0), .deref ohA, .deref ohA]

theorem ok_twice : OkSpec specStep (fun f op => op.Ok f) Spec.start twice := by
  unfold twice
  refine ⟨fun d n => ?_, fun d n => ?_, ⟨digestFrom 0, 2, ?_⟩, ⟨digestFrom 0, 1, ?_⟩, trivial⟩
  · exact fun h => by cases h
  · show Function.update (fun _ => none) (digestFrom 0) (some (ohA, 1)) d ≠ some (ohB, n)
    by_cases hd : d = digestFrom 0
    · rw [hd, Function.update_self]
      have hne : ohA ≠ ohB := by decide
      exact fun h => hne (congrArg Prod.fst (Option.some.inj h))
    · rw [Function.update_of_ne hd]
      exact fun h => by cases h
  · decide +kernel
  · decide +kernel

theorem fresh_twice : OkSpec specStep (fun f op => op.Fresh f) Spec.start twice := by
  unfold twice
  refine ⟨?_, ?_, trivial, trivial, trivial⟩
  · exact List.not_mem_nil
  · show ohB ∉ [ohA]
    decide

theorem backends_agree_twice : ∃ f, Agree 16383 (fun _ => digestFrom 1) twice [some ohA, some ohA, none, none] f ∧
    f.map (digestFrom 0) = none ∧ OkSpec specStep (fun f op => op.Fresh f) Spec.start twice :=
  ⟨_, backends_agree 16383 (fun _ => digestFrom 1) twice ok_twice, by decide +kernel, fresh_twice⟩

end Both

end Varnish.Hcl
