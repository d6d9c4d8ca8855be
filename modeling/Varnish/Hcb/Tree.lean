import Varnish.Hcb.Word
import Varnish.Lib.CritTree

/-!
# Varnish.Hcb.Tree — the links in memory form a crit-bit tree

`Rep Y t w`: from the word `w` on, the links form the tree `t` of `Varnish.Lib.CritTree`; a node is the Y of the
objhead of the same name.  `Shape m o`: the whole memory holds the tree `o` (`none` for the empty one).

* `rep_replace`: writing one link word replaces one subtree.
* `hcbInsert_spec`, `hcbDelete_spec`: what the two operations do to the tree; neither fails.
-/

namespace Varnish.Hcb

open Varnish.Lib CTree

/-! ## Reads and writes -/

section ReadWrite

variable {m : Mem} {p q : Loc} {w : Word} {z : Ptr}

/-- The objhead whose Y the word stands in. -/
def Loc.owner : Loc → Option Ptr
  | .origo => none
  | .leaf y _ => some y

@[simp] theorem leaf_setLeaf_same (y : HcbY) (s : Bool) : (y.setLeaf s w).leaf s = w := by
  cases s <;> rfl

theorem leaf_setLeaf_ne (y : HcbY) {s s' : Bool} (h : s' ≠ s) : (y.setLeaf s w).leaf s' = y.leaf s' := by
  cases s <;> cases s' <;> first | rfl | exact absurd rfl h

@[simp] theorem selects_setLeaf (y : HcbY) (s : Bool) (c : ℕ) : (y.setLeaf s w).Selects c ↔ y.Selects c := by
  cases s <;> rfl

@[simp] theorem read_write_same : (m.write p w).read p = w := by
  cases p with
  | origo => rfl
  | leaf y s => simp [Mem.write, Mem.read, Mem.setY]

theorem read_write_ne (h : q ≠ p) : (m.write p w).read q = m.read q := by
  cases p with
  | origo =>
    cases q with
    | origo => exact absurd rfl h
    | leaf y s => rfl
  | leaf y s =>
    cases q with
    | origo => rfl
    | leaf y' s' =>
      by_cases hy : y' = y
      · subst hy
        have hs : s' ≠ s := fun hs => h (by rw [hs])
        simp [Mem.write, Mem.read, Mem.setY, leaf_setLeaf_ne _ hs]
      · simp [Mem.write, Mem.read, Mem.setY, hy]

@[simp] theorem selects_write {c : ℕ} : ((m.write p w).y z).Selects c ↔ (m.y z).Selects c := by
  cases p with
  | origo => rfl
  | leaf y s =>
    by_cases hy : z = y
    · subst hy
      simp [Mem.write, Mem.setY]
    · simp [Mem.write, Mem.setY, hy]

@[simp] theorem digest_write : (m.write p w).digest = m.digest := by cases p <;> rfl

theorem y_write_ne (h : p.owner ≠ some z) : (m.write p w).y z = m.y z := by
  cases p with
  | origo => rfl
  | leaf y s =>
    have hz : z ≠ y := fun hz => h (by rw [hz]; rfl)
    simp [Mem.write, Mem.setY, hz]

@[simp] theorem read_addCmps (n : ℕ) : (m.addCmps n).read p = m.read p := by cases p <;> rfl

@[simp] theorem y_addCmps (n : ℕ) : (m.addCmps n).y = m.y := rfl

@[simp] theorem digest_addCmps (n : ℕ) : (m.addCmps n).digest = m.digest := rfl

end ReadWrite

/-! ## Representation -/

section Rep

/-- The links from `w` on form the tree. -/
def Rep (Y : Ptr → HcbY) : CTree Ptr → Word → Prop
  | .leaf a, w => w = hcbRNode a
  | .node y c l r, w => w = hcbRY y ∧ (Y y).Selects c ∧ Rep Y l ((Y y).leaf false) ∧ Rep Y r ((Y y).leaf true)

/-- `p` is no link of a node of the tree. -/
def Outside (p : Loc) (t : CTree Ptr) : Prop := ∀ z, p.owner = some z → z ∉ nodes t

/-- The location at the end of a path from `p`. -/
def locAt (m : Mem) : Loc → List Bool → Option Loc
  | p, [] => some p
  | p, s :: path => (hcbLY (m.read p)).bind fun y => locAt m (.leaf y s) path

variable {m m' : Mem} {Y Y' : Ptr → HcbY} {t u u' : CTree Ptr} {w : Word} {p q : Loc} {path : List Bool}

theorem rep_ne_zero (h : Rep Y t w) : w ≠ 0 := by
  cases t with
  | leaf a =>
    rw [Rep] at h
    simp [h]
  | node y c l r => simp [h.1]

theorem rep_bounded (h : Rep Y t w) : Bounded (8 * digestLen) t := by
  induction t generalizing w with
  | leaf a => trivial
  | node y c l r ihl ihr => exact ⟨h.2.1.2.2.2, ihl h.2.2.1, ihr h.2.2.2⟩

theorem rep_congr (hsel : ∀ z ∈ nodes t, ∀ c, (Y z).Selects c → (Y' z).Selects c)
    (hleaf : ∀ z ∈ nodes t, ∀ s, (Y' z).leaf s = (Y z).leaf s) (h : Rep Y t w) : Rep Y' t w := by
  induction t generalizing w with
  | leaf a => exact h
  | node y c l r ihl ihr =>
    obtain ⟨hw, hs, hl, hr⟩ := h
    have hmeml : ∀ z ∈ nodes l, z ∈ nodes (node y c l r) := fun z hz =>
      List.mem_cons_of_mem _ (List.mem_append_left _ hz)
    have hmemr : ∀ z ∈ nodes r, z ∈ nodes (node y c l r) := fun z hz =>
      List.mem_cons_of_mem _ (List.mem_append_right _ hz)
    refine ⟨hw, hsel y List.mem_cons_self c hs, ?_, ?_⟩
    · rw [hleaf y List.mem_cons_self]
      exact ihl (fun z hz => hsel z (hmeml z hz)) (fun z hz => hleaf z (hmeml z hz)) hl
    · rw [hleaf y List.mem_cons_self]
      exact ihr (fun z hz => hsel z (hmemr z hz)) (fun z hz => hleaf z (hmemr z hz)) hr

theorem rep_frame (hy : ∀ z ∈ nodes t, Y' z = Y z) (h : Rep Y t w) : Rep Y' t w :=
  rep_congr (fun z hz c hs => by rw [hy z hz]; exact hs) (fun z hz s => by rw [hy z hz]) h

/-- The child on side `s`, its word and its nodes. -/
theorem rep_child {y : Ptr} {c : ℕ} {l r : CTree Ptr} (h : Rep m.y (node y c l r) w) (s : Bool) :
    Rep m.y (if s then r else l) (m.read (.leaf y s)) := by
  cases s
  · exact h.2.2.1
  · exact h.2.2.2

theorem locAt_cons {y : Ptr} {c : ℕ} {l r : CTree Ptr} (h : Rep m.y (node y c l r) (m.read p)) (s : Bool) :
    locAt m p (s :: path) = locAt m (.leaf y s) path := by
  rw [locAt, h.1, hcbLY_rY]
  rfl

theorem locAt_owner (h : Rep m.y t (m.read p)) (hq : locAt m p path = some q) (hu : sub t path = some u) :
    q = p ∨ ∃ z ∈ nodes t, q.owner = some z := by
  induction path generalizing t p with
  | nil =>
    cases hq
    exact .inl rfl
  | cons s path ih =>
    cases t with
    | leaf a => cases hu
    | node y c l r =>
      rw [locAt_cons h] at hq
      right
      have hu' : sub (if s then r else l) path = some u := by cases s <;> exact hu
      rcases ih (rep_child h s) hq hu' with rfl | ⟨z, hz, ho⟩
      · exact ⟨y, List.mem_cons_self, rfl⟩
      · refine ⟨z, List.mem_cons_of_mem _ ?_, ho⟩
        cases s
        · exact List.mem_append_left _ hz
        · exact List.mem_append_right _ hz

/-- What is unfolded of a node with disjoint parts. -/
theorem nodup_node {y : Ptr} {c : ℕ} {l r : CTree Ptr} (h : (nodes (node y c l r)).Nodup) (s : Bool) :
    y ∉ nodes (if s then r else l) ∧ (nodes (if s then r else l)).Nodup ∧
      ∀ z ∈ nodes (if s then r else l), z ∉ nodes (if s then l else r) := by
  rw [nodes, List.nodup_cons, List.nodup_append] at h
  obtain ⟨hy, hl, hr, hdisj⟩ := h
  rw [List.mem_append, not_or] at hy
  cases s
  · exact ⟨hy.1, hl, fun z hz hz' => hdisj z hz z hz' rfl⟩
  · exact ⟨hy.2, hr, fun z hz hz' => hdisj z hz' z hz rfl⟩

theorem locAt_outside (h : Rep m.y t (m.read p)) (hout : Outside p t) (hn : (nodes t).Nodup)
    (hq : locAt m p path = some q) (hu : sub t path = some u) : Outside q u := by
  induction path generalizing t p with
  | nil =>
    cases hq
    rw [sub_nil] at hu
    cases hu
    exact hout
  | cons s path ih =>
    cases t with
    | leaf a => cases hu
    | node y c l r =>
      rw [locAt_cons h] at hq
      obtain ⟨hy, hn', -⟩ := nodup_node hn s
      have hu' : sub (if s then r else l) path = some u := by cases s <;> exact hu
      refine ih (rep_child h s) (fun z hz => ?_) hn' hq hu'
      cases hz
      exact hy

theorem rep_sub (h : Rep m.y t (m.read p)) (hq : locAt m p path = some q) (hu : sub t path = some u) :
    Rep m.y u (m.read q) := by
  induction path generalizing t p with
  | nil =>
    cases hq
    rw [sub_nil] at hu
    cases hu
    exact h
  | cons s path ih =>
    cases t with
    | leaf a => cases hu
    | node y c l r =>
      rw [locAt_cons h] at hq
      have hu' : sub (if s then r else l) path = some u := by cases s <;> exact hu
      exact ih (rep_child h s) hq hu'

theorem locAt_iff_sub (h : Rep m.y t (m.read p)) :
    (∃ q, locAt m p path = some q) ↔ ∃ u, sub t path = some u := by
  induction path generalizing t p with
  | nil => simp [locAt]
  | cons s path ih =>
    cases t with
    | leaf a =>
      rw [Rep] at h
      simp [locAt, h, sub]
    | node y c l r =>
      rw [locAt_cons h, ih (rep_child h s)]
      cases s <;> rfl

/-- **Replacing a subtree**: `m'` holds the tree `u'` from the location at the end of the path on, and the links on the
way there and beside it are those of `m`. -/
theorem rep_replace (h : Rep m.y t (m.read p)) (hout : Outside p t) (hn : (nodes t).Nodup)
    (hq : locAt m p path = some q) (hu : sub t path = some u)
    (hsel : ∀ z ∈ nodes t, z ∉ nodes u → ∀ c, (m.y z).Selects c → (m'.y z).Selects c)
    (hread : ∀ r ≠ q, (r = p ∨ ∃ z ∈ nodes t, z ∉ nodes u ∧ r.owner = some z) → m'.read r = m.read r)
    (hu' : Rep m'.y u' (m'.read q)) : Rep m'.y (replace t path u') (m'.read p) := by
  induction path generalizing t p with
  | nil =>
    cases hq
    rwa [replace_nil]
  | cons s path ih =>
    cases t with
    | leaf a => cases hu
    | node y c l r =>
      have hmem : ∀ s, ∀ z ∈ nodes (if s = true then r else l), z ∈ nodes (node y c l r) := fun s z hz => by
        cases s
        · exact List.mem_cons_of_mem _ (List.mem_append_left _ hz)
        · exact List.mem_cons_of_mem _ (List.mem_append_right _ hz)
      obtain ⟨hy, hn', hdisj⟩ := nodup_node hn s
      have hq' := hq
      rw [locAt_cons h] at hq'
      have hus : sub (if s then r else l) path = some u := by cases s <;> exact hu
      have hyu : y ∉ nodes u := fun hyu => hy (nodes_sub hus hyu)
      have hown := locAt_owner (rep_child h s) hq' hus
      -- the word at `p` and the other link of `y` are not the one that is written
      have hpq : p ≠ q := by
        rintro rfl
        rcases hown with rfl | ⟨z, hz, ho⟩
        · exact hout y rfl List.mem_cons_self
        · exact hout z ho (hmem s z hz)
      have hsq : Loc.leaf y (!s) ≠ q := by
        rintro rfl
        rcases hown with he | ⟨z, hz, ho⟩
        · cases s <;> cases he
        · cases ho
          exact hy hz
      have hchild : Rep m'.y (replace (if s then r else l) path u') (m'.read (.leaf y s)) := by
        refine ih (rep_child h s) (fun z hz => ?_) hn' hq' hus (fun z hz => hsel z (hmem s z hz)) (fun r' hr' hc => ?_)
        · cases hz
          exact hy
        · refine hread r' hr' (.inr ?_)
          rcases hc with rfl | ⟨z, hz, hzu, ho⟩
          · exact ⟨y, List.mem_cons_self, hyu, rfl⟩
          · exact ⟨z, hmem s z hz, hzu, ho⟩
      have hsib : Rep m'.y (if s then l else r) (m'.read (.leaf y (!s))) := by
        have hsw : (if (!s) = true then r else l) = if s = true then l else r := by cases s <;> rfl
        have hr0 := rep_child h (!s)
        rw [hread _ hsq (.inr ⟨y, List.mem_cons_self, hyu, rfl⟩)]
        rw [hsw] at hr0
        have hz' : ∀ z ∈ nodes (if s then l else r), z ∈ nodes (node y c l r) ∧ z ∉ nodes u := fun z hz => by
          refine ⟨hmem (!s) z (hsw ▸ hz), fun hzu => ?_⟩
          exact hdisj z (nodes_sub hus hzu) hz
        refine rep_congr (fun z hz => hsel z (hz' z hz).1 (hz' z hz).2) (fun z hz s' => ?_) hr0
        refine hread (.leaf z s') ?_ (.inr ⟨z, (hz' z hz).1, (hz' z hz).2, rfl⟩)
        rintro rfl
        rcases hown with he | ⟨x, hx, ho⟩
        · cases he
          have hyn := (nodup_node hn (!s)).1
          exact hyn (hsw ▸ hz)
        · cases ho
          exact hdisj z hx hz
      have hroot : m'.read p = hcbRY y := by rw [hread p hpq (.inl rfl), h.1]
      have hsel' := hsel y List.mem_cons_self hyu c h.2.1
      cases s
      · exact ⟨hroot, hsel', hchild, hsib⟩
      · exact ⟨hroot, hsel', hsib, hchild⟩

end Rep

/-! ## The loops -/

section Loops

variable {m : Mem} {t : CTree Ptr} {p : Loc} {d : Digest} {fuel : ℕ}

theorem ptr_lt {y : HcbY} {c : ℕ} (h : y.Selects c) : y.ptr < digestLen := by
  obtain ⟨-, hp, -, hc⟩ := h
  omega

theorem hcbDescend_spec (h : Rep m.y t (m.read p)) (hf : depth t < fuel) :
    ∃ q n, hcbDescend m d fuel p = some (q, hcbRNode (look d.bits t), n) := by
  induction t generalizing p fuel with
  | leaf a =>
    obtain ⟨fuel, rfl⟩ := Nat.exists_eq_succ_of_ne_zero (by omega : fuel ≠ 0)
    refine ⟨p, 0, ?_⟩
    rw [Rep] at h
    simp [hcbDescend, h, look]
  | node y c l r ihl ihr =>
    obtain ⟨fuel, rfl⟩ := Nat.exists_eq_succ_of_ne_zero (by omega : fuel ≠ 0)
    rw [depth] at hf
    have hside := side_eq_bits h.2.1 d
    simp only [hcbDescend, h.1, hcbIsY_rY, hcbLY_rY, if_true, Option.bind_eq_bind, Option.bind_some, ptr_lt h.2.1, hside]
    rw [look]
    by_cases hk : d.bits c = true
    · obtain ⟨q, n, hd⟩ := ihr (rep_child h true) (by omega : depth r < fuel)
      refine ⟨q, n + 1, ?_⟩
      rw [hk, hd]
      rfl
    · obtain ⟨q, n, hd⟩ := ihl (rep_child h false) (by omega : depth l < fuel)
      have hk' : d.bits c = false := by simpa using hk
      refine ⟨q, n + 1, ?_⟩
      rw [hk', hd]
      rfl

theorem hcbPlace_spec {c : ℕ} (h : Rep m.y t (m.read p)) (hf : depth t < fuel) :
    ∃ q n, hcbPlace m d c fuel p = some (q, n) ∧ locAt m p (spot d.bits c t) = some q := by
  induction t generalizing p fuel with
  | leaf a =>
    obtain ⟨fuel, rfl⟩ := Nat.exists_eq_succ_of_ne_zero (by omega : fuel ≠ 0)
    refine ⟨p, 0, ?_, rfl⟩
    rw [Rep] at h
    simp [hcbPlace, h]
  | node y c' l r ihl ihr =>
    obtain ⟨fuel, rfl⟩ := Nat.exists_eq_succ_of_ne_zero (by omega : fuel ≠ 0)
    rw [depth] at hf
    have hside := side_eq_bits h.2.1 d
    have hcrit : (m.y y).critbit = c' := h.2.1.1
    simp only [hcbPlace, h.1, hcbIsY_rY, hcbLY_rY, if_true, Option.bind_eq_bind, Option.bind_some, ptr_lt h.2.1, hside,
      hcrit]
    rw [spot]
    by_cases hc : c < c'
    · rw [if_pos hc, if_pos hc]
      exact ⟨p, 0, rfl, rfl⟩
    · rw [if_neg hc, if_neg hc]
      by_cases hk : d.bits c' = true
      · obtain ⟨q, n, hd, hl⟩ := ihr (rep_child h true) (by omega : depth r < fuel)
        rw [if_pos hk, locAt_cons h]
        refine ⟨q, n + 1, ?_, hl⟩
        rw [hk, hd]
        rfl
      · obtain ⟨q, n, hd, hl⟩ := ihl (rep_child h false) (by omega : depth l < fuel)
        have hk' : d.bits c' = false := by simpa using hk
        rw [if_neg hk, locAt_cons h]
        refine ⟨q, n + 1, ?_, hl⟩
        rw [hk', hd]
        rfl

/-- A leaf is told apart from the other trees by its link. -/
theorem rep_eq_rNode {Y : Ptr → HcbY} {w : Word} {a : Ptr} (h : Rep Y t w) : w = hcbRNode a ↔ t = leaf a := by
  cases t with
  | leaf b =>
    rw [Rep] at h
    simp [h]
  | node y c l r => simp [h.1]

theorem addCmps_addCmps (i j : ℕ) : (m.addCmps i).addCmps j = m.addCmps (i + j) := by
  simp [Mem.addCmps, UInt32.ofNat_add, UInt32.add_assoc]

theorem locAt_addCmps (n : ℕ) (path : List Bool) : locAt (m.addCmps n) p path = locAt m p path := by
  induction path generalizing p with
  | nil => rfl
  | cons s path ih => simp only [locAt, read_addCmps, ih]

/-- The loop ends at the node above the leaf `oh`. -/
theorem hcbDeleteLoop_spec {key : Ptr → ℕ → Bool} {oh : Ptr} (hk : ∀ i, key oh i = (m.digest oh).bits i)
    (hc : Crit key t) (ha : oh ∈ leaves t) (hne : t ≠ leaf oh) (h : Rep m.y t (m.read p)) (hf : depth t ≤ fuel) :
    ∃ path q z c l r s n, hcbDeleteLoop m oh fuel p = some (hcbUnlink (m.addCmps n) q z s) ∧
      locAt m p path = some q ∧ sub t path = some (node z c l r) ∧ (if s then r else l) = leaf oh := by
  induction fuel generalizing m p t with
  | zero =>
    cases t with
    | leaf b => exact absurd (by rw [List.mem_singleton.mp ha]) hne
    | node y c l r => exact absurd hf (by rw [depth]; omega)
  | succ fuel ih =>
    cases t with
    | leaf b => exact absurd (by rw [List.mem_singleton.mp ha]) hne
    | node y c l r =>
      have hside := mem_side hc ha hk
      have hsel := h.2.1
      simp only [hcbDeleteLoop, h.1, hcbIsY_rY, hcbLY_rY, if_true, Option.bind_eq_bind, Option.bind_some, ptr_lt hsel,
        side_eq_bits hsel]
      generalize (m.digest oh).bits c = s at hside ⊢
      have hchild := rep_child h s
      have hiff : (m.y y).leaf s = hcbRNode oh ↔ _ := rep_eq_rNode hchild
      by_cases hleaf : (if s then r else l) = leaf oh
      · rw [if_pos (hiff.mpr hleaf)]
        exact ⟨[], p, y, c, l, r, s, 0, by simp [Mem.addCmps], rfl, rfl, hleaf⟩
      · rw [if_neg (fun hw => hleaf (hiff.mp hw))]
        have hcs : Crit key (if s then r else l) := by
          cases s
          · exact hc.1
          · exact hc.2.1
        have hds : depth (if s then r else l) ≤ fuel := by
          rw [depth] at hf
          cases s <;> simp <;> omega
        obtain ⟨path, q, z, d, l', r', s', n, h1, h2, h3, h4⟩ :=
          ih (m := m.addCmps 1) (p := .leaf y s) hk hcs hside hleaf (by simpa using hchild) hds
        refine ⟨s :: path, q, z, d, l', r', s', 1 + n, ?_, ?_, ?_, h4⟩
        · rw [h1, addCmps_addCmps]
        · rw [locAt_cons h, ← h2, locAt_addCmps]
        · cases s <;> exact h3

end Loops

/-! ## The operations -/

section Ops

/-- The bits of the objheads' digests. -/
def Mem.key (m : Mem) (a : Ptr) : ℕ → Bool := (m.digest a).bits

/-- The memory holds the tree `t`. -/
structure Holds (m : Mem) (t : CTree Ptr) : Prop where
  rep : Rep m.y t m.origo
  crit : Crit m.key t
  nodup : (nodes t).Nodup

/-- The memory holds a tree, or the empty one. -/
def Shape (m : Mem) : Option (CTree Ptr) → Prop
  | none => m.origo = 0
  | some t => Holds m t

def leavesOf (o : Option (CTree Ptr)) : List Ptr := (o.map leaves).getD []

def nodesOf (o : Option (CTree Ptr)) : List Ptr := (o.map nodes).getD []

variable {m : Mem} {t : CTree Ptr} {o : Option (CTree Ptr)} {oh : Ptr}

theorem Holds.depth_lt (h : Holds m t) : depth t < hcbFuel := by
  have := depth_le (i := 0) h.crit (rep_bounded h.rep) (.inl rfl)
  rw [hcbFuel]
  omega

theorem Holds.outside_origo (t : CTree Ptr) : Outside .origo t := fun z hz => by cases hz

theorem Holds.digest_inj (h : Holds m t) {a b : Ptr} (ha : a ∈ leaves t) (hb : b ∈ leaves t)
    (hd : m.digest a = m.digest b) : a = b :=
  key_injOn h.crit ha hb fun i => by rw [Mem.key, Mem.key, hd]

theorem Holds.addCmps (h : Holds m t) (n : ℕ) : Holds (m.addCmps n) t := ⟨h.rep, h.crit, h.nodup⟩

/-- The leaf that the first loop finds has the searched digest if any leaf has it. -/
theorem Holds.look_digest (h : Holds m t) {a : Ptr} {d : Digest} (ha : a ∈ leaves t) (hd : m.digest a = d) :
    look d.bits t = a := by
  refine h.digest_inj look_mem ha ?_
  rw [hd]
  exact Digest.ext_bits (look_eq_of_key h.crit ha (fun i => by rw [Mem.key, hd]))

theorem hcbInsert_found (h : Holds m t) {a : Ptr} (ha : a ∈ leaves t) (hd : m.digest a = m.digest oh) (hasLock : Bool) :
    ∃ n, hcbInsert m oh hasLock = some (some a, m.addCmps n) := by
  obtain ⟨q, n, hdesc⟩ := hcbDescend_spec (d := m.digest oh) (p := .origo) h.rep h.depth_lt
  refine ⟨n, ?_⟩
  rw [h.look_digest ha hd] at hdesc
  have h0 : m.origo ≠ 0#64 := rep_ne_zero h.rep
  simp [hcbInsert, h0, hdesc, hd]

/-- What a new objhead does to the tree. -/
structure Inserted (m m' : Mem) (o o' : Option (CTree Ptr)) (oh : Ptr) : Prop where
  shape : Shape m' o'
  leaves : (leavesOf o').Perm (oh :: leavesOf o)
  nodes : ∀ z ∈ nodesOf o', z = oh ∨ z ∈ nodesOf o
  nodes_mono : ∀ z ∈ nodesOf o, z ∈ nodesOf o'
  digest : m'.digest = m.digest
  selects : ∀ z ≠ oh, ∀ c, (m.y z).Selects c → (m'.y z).Selects c

/-- The two writes that link a new Y above the place `q`. -/
theorem rep_hcbLink {k : ℕ → Bool} {c : ℕ} {s : Bool} {q : Loc} (h : Rep m.y t (m.read .origo)) (hn : (nodes t).Nodup)
    (ho : oh ∉ nodes t) (hsel : (m.y oh).Selects c) (hleaf : (m.y oh).leaf s = hcbRNode oh) (hs : k c = s)
    (hq : locAt m .origo (spot k c t) = some q) :
    Rep (hcbLink m oh (!s) q).y (splice oh k c t) ((hcbLink m oh (!s) q).read .origo) := by
  obtain ⟨u, hu, -⟩ := sub_spot (k := k) (c := c) (t := t)
  have hqo : q.owner ≠ some oh := by
    rcases locAt_owner h hq hu with rfl | ⟨z, hz, hown⟩
    · simp [Loc.owner]
    · rw [hown]
      rintro ⟨rfl⟩
      exact ho hz
  have hqu := locAt_outside h (Holds.outside_origo t) hn hq hu
  have hread : ∀ p, p ≠ q → p ≠ .leaf oh (!s) → (hcbLink m oh (!s) q).read p = m.read p := fun p hpq hps => by
    rw [hcbLink, read_write_ne hpq, read_write_ne hps]
  have hselw : ∀ z c, (m.y z).Selects c → ((hcbLink m oh (!s) q).y z).Selects c := fun z c hz => by
    rw [hcbLink, selects_write, selects_write]
    exact hz
  rw [splice_eq_replace hu]
  refine rep_replace h (Holds.outside_origo t) hn hq hu (fun z _ _ => hselw z) (fun r hr hc => ?_) ?_
  · refine hread r hr ?_
    rintro rfl
    rcases hc with hc | ⟨z, hz, -, hown⟩
    · cases hc
    · cases hown
      exact ho hz
  · -- below the new Y: the old subtree and the new leaf
    have hold : Rep (hcbLink m oh (!s) q).y u ((hcbLink m oh (!s) q).read (.leaf oh (!s))) := by
      have hne : Loc.leaf oh (!s) ≠ q := fun he => hqo (by rw [← he]; rfl)
      rw [show (hcbLink m oh (!s) q).read (.leaf oh (!s)) = m.read q by
        rw [hcbLink, read_write_ne hne, read_write_same]]
      refine rep_frame (fun z hz => ?_) (rep_sub h hq hu)
      rw [hcbLink, y_write_ne (fun hz' => hqu z hz' hz), y_write_ne]
      rintro ⟨rfl⟩
      exact ho (nodes_sub hu hz)
    have hnew : (hcbLink m oh (!s) q).read (.leaf oh s) = hcbRNode oh := by
      rw [hread _ (fun he => hqo (by rw [← he]; rfl)) (by cases s <;> simp)]
      exact hleaf
    have hroot : (hcbLink m oh (!s) q).read q = hcbRY oh := by rw [hcbLink, read_write_same]
    rw [hroot, fork, hs]
    cases s
    · exact ⟨rfl, hselw oh c hsel, hnew, hold⟩
    · exact ⟨rfl, hselw oh c hsel, hold, hnew⟩

theorem hcbInsert_new (h : Holds m t) (hd : ∀ a ∈ leaves t, m.digest a ≠ m.digest oh) (ho : oh ∉ nodes t) :
    ∃ m' o', hcbInsert m oh true = some (some oh, m') ∧ Inserted m m' (some t) o' oh := by
  have h0 : m.origo ≠ 0#64 := rep_ne_zero h.rep
  have hlook : m.digest (look (m.digest oh).bits t) ≠ m.digest oh := hd _ look_mem
  obtain ⟨q0, n0, hdesc⟩ := hcbDescend_spec (d := m.digest oh) (p := .origo) h.rep h.depth_lt
  obtain ⟨c, y2, hcrit, hsel, -, -, hag, hne⟩ := hcbCritBit_spec hlook.symm HcbY.zero
  have hside := side_eq_bits hsel (m.digest oh)
  have hcb : y2.critbit = c := hsel.1
  generalize hs2 : (m.digest oh).bits c = s2 at hside
  -- the new Y, before its second leaf is known
  generalize hm1 : (m.addCmps n0).setY oh (y2.setLeaf s2 (hcbRNode oh)) = m1
  have hy1 : ∀ z ≠ oh, m1.y z = m.y z := fun z hz => by
    rw [← hm1]
    simp [Mem.setY, hz]
  have hoh1 : m1.y oh = y2.setLeaf s2 (hcbRNode oh) := by
    rw [← hm1]
    simp [Mem.setY]
  have hdig1 : m1.digest = m.digest := by rw [← hm1]; rfl
  have horigo : m1.origo = m.origo := by rw [← hm1]; rfl
  have hrep1 : Rep m1.y t (m1.read .origo) := by
    rw [Mem.read, horigo]
    exact rep_frame (fun z hz => hy1 z fun hzo => ho (hzo ▸ hz)) h.rep
  obtain ⟨q, n, hplace, hloc⟩ := hcbPlace_spec (d := m.digest oh) (c := c) hrep1 h.depth_lt
  have hres : hcbInsert m oh true = some (some oh, hcbLink (m1.addCmps n) oh (!s2) q) := by
    simp [hcbInsert, h0, hdesc, hlook, hcrit, hside, hcb, hm1, horigo, hdig1, hplace]
  have hdig : (hcbLink (m1.addCmps n) oh (!s2) q).digest = m.digest := by simp [hcbLink, hdig1]
  have hnodes := nodes_splice_perm (a := oh) (k := (m.digest oh).bits) (c := c) (t := t)
  refine ⟨_, some (splice oh (m.digest oh).bits c t), hres, ⟨?_, ?_, ?_⟩, leaves_splice_perm, fun z hz => ?_,
    fun z hz => ?_, hdig, ?_⟩
  · refine rep_hcbLink (m := m1.addCmps n) (by simpa using hrep1) h.nodup ho ?_ ?_ hs2 ?_
    · simpa [hoh1] using hsel
    · simp [hoh1]
    · rw [locAt_addCmps, hloc]
  · have hkey : (hcbLink (m1.addCmps n) oh (!s2) q).key = m.key := by
      funext a
      rw [Mem.key, Mem.key, hdig]
    rw [hkey]
    exact crit_splice h.crit (fun i => rfl) hag hne.symm
  · rw [hnodes.nodup_iff]
    exact List.nodup_cons.mpr ⟨ho, h.nodup⟩
  · exact List.mem_cons.mp (hnodes.subset hz)
  · exact hnodes.symm.subset (List.mem_cons_of_mem _ hz)
  · intro z hz c' hs
    rw [hcbLink, selects_write, selects_write, y_addCmps, hy1 z hz]
    exact hs

/-- What taking out an objhead does to the tree: the Y that links to `oh` is unlinked and cleared. -/
structure Deleted (m m' : Mem) (o o' : Option (CTree Ptr)) (oh : Ptr) : Prop where
  shape : Shape m' o'
  leaves : (leavesOf o).Perm (oh :: leavesOf o')
  nodes : ∀ z ∈ nodesOf o', z ∈ nodesOf o
  above : ∀ z ∈ nodesOf o, z ∈ nodesOf o' ∨ ∃ s, (m.y z).leaf s = hcbRNode oh
  cleared : ∀ z ∈ nodesOf o, ∀ s, (m.y z).leaf s = hcbRNode oh → ∀ b, (m'.y z).leaf b = 0
  digest : m'.digest = m.digest
  selects : ∀ z c, (m.y z).Selects c → (m'.y z).Selects c

/-- The three writes that take out a Y with the leaf on its side `s`. -/
theorem rep_hcbUnlink {path : List Bool} {q : Loc} {z : Ptr} {c : ℕ} {l r : CTree Ptr} {s : Bool}
    (h : Rep m.y t (m.read .origo)) (hn : (nodes t).Nodup) (hq : locAt m .origo path = some q)
    (hu : sub t path = some (node z c l r)) :
    Rep (hcbUnlink m q z s).y (replace t path (if s then l else r)) ((hcbUnlink m q z s).read .origo) := by
  have hqu := locAt_outside h (Holds.outside_origo t) hn hq hu
  have hqz : ∀ b, q ≠ .leaf z b := fun b he => hqu z (by rw [he]; rfl) List.mem_cons_self
  have hread : ∀ p, p ≠ q → p.owner ≠ some z → (hcbUnlink m q z s).read p = m.read p := fun p hpq hpz => by
    have hb : ∀ b, p ≠ .leaf z b := fun b he => hpz (by rw [he]; rfl)
    rw [hcbUnlink, read_write_ne (hb _), read_write_ne (hb _), read_write_ne hpq]
  have hroot : (hcbUnlink m q z s).read q = m.read (.leaf z !s) := by
    rw [hcbUnlink, read_write_ne (hqz _), read_write_ne (hqz _), read_write_same]
    rfl
  refine rep_replace h (Holds.outside_origo t) hn hq hu (fun x _ _ d hx => ?_) (fun p hp hc => ?_) ?_
  · rw [hcbUnlink, selects_write, selects_write, selects_write]
    exact hx
  · refine hread p hp fun ho => ?_
    rcases hc with rfl | ⟨x, -, hx, ho'⟩
    · cases ho
    · rw [ho] at ho'
      cases ho'
      exact hx List.mem_cons_self
  · -- the other child is where it was, and its word is now at `q`
    have hnode := rep_sub h hq hu
    have hsw : (if (!s) = true then r else l) = if s = true then l else r := by cases s <;> rfl
    have hchild := rep_child hnode (!s)
    obtain ⟨hzs, -, -⟩ := nodup_node ((nodes_nodup_sub hn hu)) (!s)
    rw [hsw] at hchild hzs
    rw [hroot]
    refine rep_frame (fun x hx => ?_) hchild
    have hxz : ∀ b, (Loc.leaf z b).owner ≠ some x := by
      rintro b ⟨rfl⟩
      exact hzs hx
    have hxu : x ∈ nodes (node z c l r) := by
      refine List.mem_cons_of_mem _ (List.mem_append.mpr ?_)
      cases s
      · exact .inr hx
      · exact .inl hx
    rw [hcbUnlink, y_write_ne (hxz _), y_write_ne (hxz _), y_write_ne fun ho => hqu x ho hxu]

theorem hcbDelete_leaf (h : Holds m (.leaf oh)) : hcbDelete m oh = some (m.write .origo 0) := by
  have : m.origo = hcbRNode oh := h.rep
  rw [hcbDelete, if_pos this]

theorem hcbDelete_node (h : Holds m t) (ha : oh ∈ leaves t) (hne : t ≠ .leaf oh) :
    ∃ m' o', hcbDelete m oh = some m' ∧ Deleted m m' (some t) o' oh := by
  have hne' : m.origo ≠ hcbRNode oh := fun he => hne ((rep_eq_rNode h.rep).mp he)
  have hY : hcbIsY m.origo = true := by
    cases t with
    | leaf b => exact absurd (by rw [List.mem_singleton.mp ha]) hne
    | node y c l r => rw [h.rep.1, hcbIsY_rY]
  obtain ⟨path, q, z, c, l, r, s, n, hres, hq, hu, hleaf⟩ :=
    hcbDeleteLoop_spec (p := .origo) (fun i => rfl) h.crit ha hne h.rep h.depth_lt.le
  have hz : ∃ s, (m.y z).leaf s = hcbRNode oh := by
    have hnode := rep_child (rep_sub h.rep hq hu) s
    rw [hleaf] at hnode
    exact ⟨s, hnode⟩
  obtain ⟨hcrit, hleaves, hnodes⟩ := crit_lift h.crit hu hleaf
  have hdig : (hcbUnlink (m.addCmps n) q z s).digest = m.digest := by simp [hcbUnlink]
  refine ⟨_, some (replace t path (if s then l else r)), ?_, ⟨?_, ?_, ?_⟩, hleaves, fun x hx => ?_, fun x hx => ?_,
    fun x hx b hb b' => ?_, hdig, ?_⟩
  · rw [hcbDelete, if_neg hne', if_pos hY, hres]
  · refine rep_hcbUnlink (m := m.addCmps n) h.rep h.nodup ?_ hu
    rw [locAt_addCmps, hq]
  · have hkey : (hcbUnlink (m.addCmps n) q z s).key = m.key := by
      funext a
      rw [Mem.key, Mem.key, hdig]
    rw [hkey]
    exact hcrit
  · exact (List.nodup_cons.mp (hnodes.nodup_iff.mp h.nodup)).2
  · exact hnodes.symm.subset (List.mem_cons_of_mem _ hx)
  · rcases List.mem_cons.mp (hnodes.subset hx) with rfl | hx
    · exact .inr hz
    · exact .inl hx
  · -- the links to `oh` are at the end of one path
    obtain ⟨path', c', l', r', hu'⟩ := mem_nodes_iff.mp hx
    obtain ⟨q', hq'⟩ := (locAt_iff_sub (p := .origo) h.rep).mpr ⟨_, hu'⟩
    have hleaf' := (rep_eq_rNode (rep_child (rep_sub h.rep hq' hu') b)).mp hb
    have h1 : sub t (path ++ [s]) = some (leaf oh) := by
      rw [sub_append, hu]
      cases s <;> simpa [sub] using hleaf
    have h2 : sub t (path' ++ [b]) = some (leaf oh) := by
      rw [sub_append, hu']
      cases b <;> simpa [sub] using hleaf'
    obtain ⟨rfl, -⟩ := List.append_inj' (leaf_path_unique h.crit h1 h2) rfl
    rw [hu] at hu'
    cases hu'
    cases b'
    · rw [hcbUnlink, show ∀ M : Mem, (M.y z).leaf false = M.read (.leaf z false) from fun _ => rfl,
        read_write_ne (by simp), read_write_same]
    · rw [hcbUnlink, show ∀ M : Mem, (M.y z).leaf true = M.read (.leaf z true) from fun _ => rfl, read_write_same]
  · intro x d hx
    rw [hcbUnlink, selects_write, selects_write, selects_write]
    exact hx

/-- **`hcb_insert`** with the lock, of an objhead that is not linked: it does not fail, and returns the objhead with the
digest if the tree has it, and links the new one otherwise. -/
theorem hcbInsert_spec (h : Shape m o) (ho : oh ∉ nodesOf o) :
    (∃ a ∈ leavesOf o, m.digest a = m.digest oh ∧ ∃ n, hcbInsert m oh true = some (some a, m.addCmps n)) ∨
    (∀ a ∈ leavesOf o, m.digest a ≠ m.digest oh) ∧
      ∃ m' o', hcbInsert m oh true = some (some oh, m') ∧ Inserted m m' o o' oh := by
  cases o with
  | none =>
    have h0 : m.origo = 0 := h
    refine .inr ⟨fun a ha => (by cases ha), m.write .origo (hcbRNode oh), some (.leaf oh), by simp [hcbInsert, h0], ?_⟩
    exact ⟨⟨rfl, trivial, List.nodup_nil⟩, List.Perm.refl _, fun z hz => (by cases hz), fun z hz => (by cases hz), rfl,
      fun z _ c hs => hs⟩
  | some t =>
    by_cases hex : ∃ a ∈ leaves t, m.digest a = m.digest oh
    · obtain ⟨a, ha, hd⟩ := hex
      exact .inl ⟨a, ha, hd, hcbInsert_found h ha hd true⟩
    · have hd : ∀ a ∈ leaves t, m.digest a ≠ m.digest oh := fun a ha hd => hex ⟨a, ha, hd⟩
      exact .inr ⟨hd, hcbInsert_new h hd ho⟩

/-- **`hcb_delete`** of a linked objhead: it does not fail, and takes out that objhead. -/
theorem hcbDelete_spec (h : Shape m o) (ha : oh ∈ leavesOf o) : ∃ m' o', hcbDelete m oh = some m' ∧ Deleted m m' o o' oh := by
  cases o with
  | none => cases ha
  | some t =>
    by_cases ht : t = .leaf oh
    · subst ht
      refine ⟨_, none, hcbDelete_leaf h, rfl, List.Perm.refl _, fun z hz => (by cases hz), fun z hz => (by cases hz),
        fun z hz => (by cases hz), digest_write, fun z c hs => selects_write.mpr hs⟩
    · exact hcbDelete_node h ha ht

end Ops

end Varnish.Hcb
