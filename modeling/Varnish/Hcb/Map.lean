import Varnish.Hcb.Tree

/-!
# Varnish.Hcb.Map — the tree is a map from digests to objheads

Everything here is stated on the memory: `locAt m .origo path` is the place at the end of a path of sides from the root.

* `TreeInv m`: the representation invariant.  `Shape.inv`: a memory that holds a crit-bit tree has it.
* `exec_refines`: over every sequence of locked insertions and deletions the tree behaves as a finite map, and no
  assertion fails.
-/

namespace Varnish.Hcb

open Varnish.Lib CTree

/-! ## The invariant, on the memory -/

section Inv

/-- The path from the root ends at the Y of `y`. -/
def AtY (m : Mem) (path : List Bool) (y : Ptr) : Prop := ∃ q, locAt m .origo path = some q ∧ m.read q = hcbRY y

/-- The path from the root ends at the objhead `oh`. -/
def AtNode (m : Mem) (path : List Bool) (oh : Ptr) : Prop := ∃ q, locAt m .origo path = some q ∧ m.read q = hcbRNode oh

/-- The objhead is in the tree, itself or with its Y. -/
def Linked (m : Mem) (oh : Ptr) : Prop := ∃ path, AtY m path oh ∨ AtNode m path oh

/-- The representation invariant of the tree. -/
structure TreeInv (m : Mem) : Prop where
  /-- Every link leads to a Y or to an objhead, unless the tree is empty. -/
  word : ∀ path q, locAt m .origo path = some q →
    (∃ y, m.read q = hcbRY y) ∨ (∃ oh, m.read q = hcbRNode oh) ∨ path = [] ∧ m.read q = 0
  critbit_lt : ∀ path s rest y y', AtY m path y → AtY m (path ++ s :: rest) y' → (m.y y).critbit < (m.y y').critbit
  side_eq : ∀ path s rest y oh, AtY m path y → AtNode m (path ++ s :: rest) oh → side (m.digest oh) (m.y y) = s
  selects : ∀ path y, AtY m path y →
    (m.y y).ptr = (m.y y).critbit / 8 ∧ (m.y y).bitmask = maskOf ((m.y y).critbit % 8) ∧ (m.y y).ptr < digestLen
  agree : ∀ path rest rest' y a b, AtY m path y → AtNode m (path ++ rest) a → AtNode m (path ++ rest') b →
    ∀ i < (m.y y).critbit, (m.digest a).bits i = (m.digest b).bits i

variable {m : Mem} {t : CTree Ptr} {o : Option (CTree Ptr)} {p q : Loc} {path : List Bool} {y oh : Ptr}

theorem rep_eq_rY {Y : Ptr → HcbY} {w : Word} (h : Rep Y t w) : w = hcbRY y ↔ ∃ c l r, t = node y c l r := by
  cases t with
  | leaf a =>
    rw [Rep] at h
    simp [h]
  | node z c l r => simp [h.1]

theorem Holds.atY_iff (h : Holds m t) : AtY m path y ↔ ∃ c l r, sub t path = some (node y c l r) := by
  constructor
  · rintro ⟨q, hq, hw⟩
    obtain ⟨u, hu⟩ := (locAt_iff_sub h.rep).mp ⟨q, hq⟩
    obtain ⟨c, l, r, rfl⟩ := (rep_eq_rY (rep_sub h.rep hq hu)).mp hw
    exact ⟨c, l, r, hu⟩
  · rintro ⟨c, l, r, hu⟩
    obtain ⟨q, hq⟩ := (locAt_iff_sub (p := .origo) h.rep).mpr ⟨_, hu⟩
    exact ⟨q, hq, (rep_sub h.rep hq hu).1⟩

theorem Holds.atNode_iff (h : Holds m t) : AtNode m path oh ↔ sub t path = some (leaf oh) := by
  constructor
  · rintro ⟨q, hq, hw⟩
    obtain ⟨u, hu⟩ := (locAt_iff_sub h.rep).mp ⟨q, hq⟩
    obtain rfl := (rep_eq_rNode (rep_sub h.rep hq hu)).mp hw
    exact hu
  · intro hu
    obtain ⟨q, hq⟩ := (locAt_iff_sub (p := .origo) h.rep).mpr ⟨_, hu⟩
    exact ⟨q, hq, rep_sub h.rep hq hu⟩

theorem locAt_empty (h : m.origo = 0) : locAt m .origo path = some q ↔ path = [] ∧ q = .origo := by
  cases path with
  | nil => simp [locAt, eq_comm]
  | cons s path => simp [locAt, Mem.read, h]

theorem not_atY_empty (h : m.origo = 0) : ¬ AtY m path y := by
  rintro ⟨q, hq, hw⟩
  obtain ⟨-, rfl⟩ := (locAt_empty h).mp hq
  rw [Mem.read, h] at hw
  exact hcbRY_ne_zero hw.symm

theorem not_atNode_empty (h : m.origo = 0) : ¬ AtNode m path oh := by
  rintro ⟨q, hq, hw⟩
  obtain ⟨-, rfl⟩ := (locAt_empty h).mp hq
  rw [Mem.read, h] at hw
  exact hcbRNode_ne_zero hw.symm

/-- The Y's on the paths from the root are the nodes of the tree. -/
theorem Shape.mem_nodes (h : Shape m o) : y ∈ nodesOf o ↔ ∃ path, AtY m path y := by
  cases o with
  | none => exact ⟨fun hy => (by cases hy), fun ⟨_, hp⟩ => absurd hp (not_atY_empty h)⟩
  | some t =>
    rw [show nodesOf (some t) = nodes t from rfl, mem_nodes_iff]
    exact exists_congr fun path => (Holds.atY_iff h).symm

/-- The objheads on the paths from the root are the leaves of the tree. -/
theorem Shape.mem_leaves (h : Shape m o) : oh ∈ leavesOf o ↔ ∃ path, AtNode m path oh := by
  cases o with
  | none => exact ⟨fun hy => (by cases hy), fun ⟨_, hp⟩ => absurd hp (not_atNode_empty h)⟩
  | some t =>
    rw [show leavesOf (some t) = leaves t from rfl, mem_leaves_iff]
    exact exists_congr fun path => (Holds.atNode_iff h).symm

/-- Below a Y: what its own subtree says. -/
theorem Holds.under (h : Holds m t) (hy : AtY m path y) : ∃ c l r, (m.y y).Selects c ∧ Crit m.key (node y c l r) ∧
    ∀ rest, sub t (path ++ rest) = sub (node y c l r) rest := by
  obtain ⟨c, l, r, hu⟩ := h.atY_iff.mp hy
  obtain ⟨q, hq, -⟩ := hy
  exact ⟨c, l, r, (rep_sub h.rep hq hu).2.1, crit_sub h.crit hu, fun rest => by rw [sub_append, hu]; rfl⟩

theorem Holds.inv (h : Holds m t) : TreeInv m where
  word path q hq := by
    obtain ⟨u, hu⟩ := (locAt_iff_sub h.rep).mp ⟨q, hq⟩
    have hrep := rep_sub h.rep hq hu
    cases u with
    | leaf a => exact .inr (.inl ⟨a, hrep⟩)
    | node y c l r => exact .inl ⟨y, hrep.1⟩
  critbit_lt path s rest y y' hy hy' := by
    obtain ⟨c, l, r, hsel, hcrit, hsub⟩ := h.under hy
    obtain ⟨c', l', r', hu'⟩ := h.atY_iff.mp hy'
    obtain ⟨q', hq', -⟩ := hy'
    have hsel' := (rep_sub h.rep hq' hu').2.1
    rw [hsel.1, hsel'.1]
    rw [hsub] at hu'
    exact crit_lt_of_sub hcrit hu'
  side_eq path s rest y oh hy hoh := by
    obtain ⟨c, l, r, hsel, hcrit, hsub⟩ := h.under hy
    have hu := h.atNode_iff.mp hoh
    rw [hsub] at hu
    rw [side_eq_bits hsel]
    obtain ⟨-, -, -, -, h0, h1, -⟩ := hcrit
    cases s
    · exact h0 oh (leaves_sub (t := l) hu (List.mem_singleton.mpr rfl))
    · exact h1 oh (leaves_sub (t := r) hu (List.mem_singleton.mpr rfl))
  selects path y hy := by
    obtain ⟨c, l, r, hsel, -, -⟩ := h.under hy
    refine ⟨?_, ?_, ptr_lt hsel⟩
    · rw [hsel.1, hsel.2.1]
    · rw [hsel.1, hsel.2.2.1]
  agree path rest rest' y a b hy ha hb := by
    obtain ⟨c, l, r, hsel, hcrit, hsub⟩ := h.under hy
    have hua := h.atNode_iff.mp ha
    have hub := h.atNode_iff.mp hb
    rw [hsub] at hua hub
    obtain ⟨-, -, -, -, -, -, hag⟩ := hcrit
    rw [hsel.1]
    exact hag a (leaves_sub hua (List.mem_singleton.mpr rfl)) b (leaves_sub hub (List.mem_singleton.mpr rfl))

theorem Shape.inv (h : Shape m o) : TreeInv m := by
  cases o with
  | none =>
    refine ⟨fun path q hq => ?_, fun _ _ _ _ _ hy => ?_, fun _ _ _ _ _ hy => ?_, fun _ _ hy => ?_,
      fun _ _ _ _ _ _ hy => ?_⟩
    · obtain ⟨rfl, rfl⟩ := (locAt_empty h).mp hq
      exact .inr (.inr ⟨rfl, h⟩)
    all_goals exact absurd hy (not_atY_empty h)
  | some t => exact Holds.inv h

end Inv

/-! ## Sequences of operations -/

section Exec

/-- A locked operation.  The digest of a new objhead is written before it is inserted. -/
inductive Op where
  | insert (oh : Ptr) (d : Digest)
  | delete (oh : Ptr)

def Mem.setDigest (m : Mem) (oh : Ptr) (d : Digest) : Mem := { m with digest := Function.update m.digest oh d }

/-- One operation: what it returns, and the memory afterwards. -/
def execOp (m : Mem) : Op → Option (Option Ptr × Mem)
  | .insert oh d => hcbInsert (m.setDigest oh d) oh true
  | .delete oh => (hcbDelete m oh).map fun m => (none, m)

/-- What the callers promise: an objhead is inserted only while it is not linked, and deleted only from the tree. -/
def Op.Ok (m : Mem) : Op → Prop
  | .insert oh _ => ¬ Linked m oh
  | .delete oh => ∃ path, AtNode m path oh

def exec : Mem → List Op → Option (List (Option Ptr) × Mem)
  | m, [] => some ([], m)
  | m, op :: ops => do
    let (r, m) ← execOp m op
    let (rs, m) ← exec m ops
    some (r :: rs, m)

/-- The promise, along a sequence. -/
def Legal : Mem → List Op → Prop
  | _, [] => True
  | m, op :: ops => op.Ok m ∧ ∀ r m', execOp m op = some (r, m') → Legal m' ops

/-! The abstract map. -/

abbrev DigestMap := Digest → Option Ptr

def mapOp (f : DigestMap) : Op → Option Ptr × DigestMap
  | .insert oh d =>
    match f d with
    | some a => (some a, f)
    | none => (some oh, Function.update f d (some oh))
  | .delete oh => (none, fun d => if f d = some oh then none else f d)

def mapExec : DigestMap → List Op → List (Option Ptr) × DigestMap
  | f, [] => ([], f)
  | f, op :: ops => ((mapOp f op).1 :: (mapExec (mapOp f op).2 ops).1, (mapExec (mapOp f op).2 ops).2)

/-- The tree has exactly the objheads of the map. -/
def Agrees (m : Mem) (f : DigestMap) : Prop := ∀ oh d, f d = some oh ↔ (∃ path, AtNode m path oh) ∧ m.digest oh = d

variable {m : Mem} {o : Option (CTree Ptr)} {f : DigestMap} {oh : Ptr} {d : Digest}

theorem Shape.setDigest (h : Shape m o) (hl : oh ∉ leavesOf o) : Shape (m.setDigest oh d) o := by
  cases o with
  | none => exact h
  | some t =>
    refine ⟨h.rep, crit_congr (fun a ha i => ?_) h.crit, h.nodup⟩
    have hne : a ≠ oh := fun he => hl (he ▸ ha)
    simp [Mem.key, Mem.setDigest, hne]

theorem not_linked (h : Shape m o) (hl : ¬ Linked m oh) : oh ∉ nodesOf o ∧ oh ∉ leavesOf o := by
  refine ⟨fun hn => ?_, fun hn => ?_⟩
  · obtain ⟨path, hp⟩ := h.mem_nodes.mp hn
    exact hl ⟨path, .inl hp⟩
  · obtain ⟨path, hp⟩ := h.mem_leaves.mp hn
    exact hl ⟨path, .inr hp⟩

/-- The tree and the map, seen from the tree. -/
theorem Shape.agrees_iff (h : Shape m o) : Agrees m f ↔ ∀ oh d, f d = some oh ↔ oh ∈ leavesOf o ∧ m.digest oh = d := by
  simp only [Agrees, h.mem_leaves]

theorem Shape.digest_inj (h : Shape m o) {a b : Ptr} (ha : a ∈ leavesOf o) (hb : b ∈ leavesOf o)
    (hd : m.digest a = m.digest b) : a = b := by
  cases o with
  | none => cases ha
  | some t => exact Holds.digest_inj h ha hb hd

theorem mapOp_insert_some {a : Ptr} (h : f d = some a) : mapOp f (.insert oh d) = (some a, f) := by
  simp only [mapOp, h]

theorem mapOp_insert_none (h : f d = none) : mapOp f (.insert oh d) = (some oh, Function.update f d (some oh)) := by
  simp only [mapOp, h]

theorem execOp_insert (h : Shape m o) (hf : Agrees m f) (hl : ¬ Linked m oh) :
    ∃ m' o', execOp m (.insert oh d) = some ((mapOp f (.insert oh d)).1, m') ∧ Shape m' o' ∧
      Agrees m' (mapOp f (.insert oh d)).2 := by
  obtain ⟨hn, hlv⟩ := not_linked h hl
  rw [h.agrees_iff] at hf
  have hS := h.setDigest (d := d) hlv
  have hself : (m.setDigest oh d).digest oh = d := by simp [Mem.setDigest]
  have hother : ∀ a ∈ leavesOf o, (m.setDigest oh d).digest a = m.digest a := fun a ha => by
    have hne : a ≠ oh := fun he => hlv (he ▸ ha)
    simp [Mem.setDigest, hne]
  rcases hcbInsert_spec hS hn with ⟨a, ha, hd, n, hres⟩ | ⟨hd, m', o', hres, hins⟩
  · have hfd : f d = some a := (hf a d).mpr ⟨ha, by rw [← hother a ha, hd, hself]⟩
    have hS' : Shape ((m.setDigest oh d).addCmps n) o := by
      cases o with
      | none => cases ha
      | some t => exact Holds.addCmps hS n
    refine ⟨_, o, ?_, hS', ?_⟩
    · rw [execOp, hres, mapOp_insert_some hfd]
    · rw [mapOp_insert_some hfd, hS'.agrees_iff]
      intro b e
      rw [hf b e]
      exact and_congr_right fun hb => by rw [digest_addCmps, hother b hb]
  · have hfd : f d = none := by
      cases hfd : f d with
      | none => rfl
      | some a =>
        obtain ⟨ha, had⟩ := (hf a d).mp hfd
        exact absurd (by rw [hother a ha, had, hself]) (hd a ha)
    refine ⟨m', o', ?_, hins.shape, ?_⟩
    · rw [execOp, hres, mapOp_insert_none hfd]
    · rw [mapOp_insert_none hfd, hins.shape.agrees_iff]
      intro b e
      simp only
      rw [hins.leaves.mem_iff, List.mem_cons, hins.digest]
      by_cases he : e = d
      · subst he
        rw [Function.update_self]
        constructor
        · rintro ⟨rfl⟩
          exact ⟨.inl rfl, hself⟩
        · rintro ⟨rfl | hb, hbd⟩
          · rfl
          · exact absurd (by rw [hbd, hself]) (hd b hb)
      · rw [Function.update_of_ne he, hf b e]
        constructor
        · exact fun ⟨hb, hbd⟩ => ⟨.inr hb, by rw [hother b hb, hbd]⟩
        · rintro ⟨rfl | hb, hbd⟩
          · exact absurd (hbd.symm.trans hself) he
          · exact ⟨hb, by rw [← hother b hb, hbd]⟩

theorem execOp_delete (h : Shape m o) (hf : Agrees m f) (hl : ∃ path, AtNode m path oh) :
    ∃ m' o', execOp m (.delete oh) = some ((mapOp f (.delete oh)).1, m') ∧ Shape m' o' ∧
      Agrees m' (mapOp f (.delete oh)).2 := by
  have ha := h.mem_leaves.mpr hl
  rw [h.agrees_iff] at hf
  obtain ⟨m', o', hres, hdel⟩ := hcbDelete_spec h ha
  refine ⟨m', o', by rw [execOp, hres]; rfl, hdel.shape, ?_⟩
  rw [hdel.shape.agrees_iff]
  intro b e
  have hnd : oh ∉ leavesOf o' := by
    have hnodup : (leavesOf o).Nodup := by
      cases o with
      | none => cases ha
      | some t => exact leaves_nodup h.crit
    exact (List.nodup_cons.mp (hdel.leaves.nodup_iff.mp hnodup)).1
  have hmem : ∀ c, c ∈ leavesOf o ↔ c = oh ∨ c ∈ leavesOf o' := fun c => by
    rw [hdel.leaves.mem_iff, List.mem_cons]
  rw [hdel.digest]
  simp only [mapOp]
  split_ifs with hfe
  · -- the digest of `oh` is that of no other objhead
    obtain ⟨-, hd⟩ := (hf oh e).mp hfe
    refine ⟨fun hb => by simp at hb, fun ⟨hb, hbd⟩ => ?_⟩
    have : b = oh := h.digest_inj ((hmem b).mpr (.inr hb)) ha (by rw [hbd, hd])
    exact absurd (this ▸ hb) hnd
  · rw [hf b e, hmem b]
    constructor
    · rintro ⟨rfl | hb, hbd⟩
      · exact absurd ((hf b e).mpr ⟨ha, hbd⟩) hfe
      · exact ⟨hb, hbd⟩
    · exact fun ⟨hb, hbd⟩ => ⟨.inr hb, hbd⟩

theorem exec_sim {ops : List Op} (h : Shape m o) (hf : Agrees m f) (hl : Legal m ops) :
    ∃ m' o', exec m ops = some ((mapExec f ops).1, m') ∧ Shape m' o' ∧ Agrees m' (mapExec f ops).2 := by
  induction ops generalizing m o f with
  | nil => exact ⟨m, o, rfl, h, hf⟩
  | cons op ops ih =>
    obtain ⟨hok, hrest⟩ := hl
    obtain ⟨m1, o1, hres, hS, hA⟩ : ∃ m' o', execOp m op = some ((mapOp f op).1, m') ∧ Shape m' o' ∧
        Agrees m' (mapOp f op).2 := by
      cases op with
      | insert oh d => exact execOp_insert h hf hok
      | delete oh => exact execOp_delete h hf hok
    obtain ⟨m2, o2, hres2, hS2, hA2⟩ := ih hS hA (hrest _ _ hres)
    refine ⟨m2, o2, ?_, hS2, hA2⟩
    rw [exec, hres]
    simp only [Option.bind_eq_bind, Option.bind_some, hres2]
    rfl

/-- **The crit-bit tree is a map**: from the empty tree, every legal sequence of locked insertions and deletions runs
without a failed assertion, returns what the map returns, and ends in a tree that has the representation invariant and
the objheads of the map. -/
theorem exec_refines {ops : List Op} (h0 : m.origo = 0) (hl : Legal m ops) :
    ∃ m', exec m ops = some ((mapExec (fun _ => none) ops).1, m') ∧ TreeInv m' ∧
      Agrees m' (mapExec (fun _ => none) ops).2 := by
  have hf : Agrees m (fun _ => none) := fun oh d => by
    refine ⟨fun hn => by simp at hn, fun ⟨⟨_, hp⟩, _⟩ => absurd hp (not_atNode_empty h0)⟩
  obtain ⟨m', o', hres, hS, hA⟩ := exec_sim (o := none) h0 hf hl
  exact ⟨m', hres, hS.inv, hA⟩

/-! A run: two objheads are inserted, and the first one is taken out again. -/

def ohA : Ptr := ⟨0x1000#64, by decide⟩

def ohB : Ptr := ⟨0x2000#64, by decide⟩

/-- A digest that starts with the byte `b`. -/
def digestFrom (b : UInt8) : Digest := ⟨b :: List.replicate 31 0, rfl⟩

def twoOps : List Op := [.insert ohA (digestFrom 0), .insert ohB (digestFrom 0x40), .delete ohA]

theorem not_linked_empty (h : m.origo = 0) : ¬ Linked m oh := by
  rintro ⟨path, hp | hp⟩
  · exact not_atY_empty h hp
  · exact not_atNode_empty h hp

theorem not_linked_leaf {a : Ptr} (h : m.origo = hcbRNode a) (hne : oh ≠ a) : ¬ Linked m oh := by
  have hS : Shape m (some (.leaf a)) := ⟨h, trivial, List.nodup_nil⟩
  rintro ⟨path, hp | hp⟩
  · cases hS.mem_nodes.mpr ⟨path, hp⟩
  · exact hne (List.mem_singleton.mp (hS.mem_leaves.mpr ⟨path, hp⟩))

theorem legal_twoOps : Legal (Mem.start fun _ => digestFrom 0) twoOps := by
  refine ⟨not_linked_empty rfl, fun r m1 h1 => ?_⟩
  obtain ⟨rfl, rfl⟩ := Prod.mk.inj (Option.some.inj h1)
  refine ⟨not_linked_leaf (a := ohA) rfl (by decide), fun r m2 h2 => ⟨?_, fun _ _ _ => trivial⟩⟩
  obtain ⟨rfl, rfl⟩ := Prod.mk.inj (Option.some.inj h2)
  exact ⟨[false], .leaf ohB false, by decide +kernel, by decide +kernel⟩

theorem exec_refines_twoOps : Legal (Mem.start fun _ => digestFrom 0) twoOps ∧
    ∃ m', exec (Mem.start fun _ => digestFrom 0) twoOps = some ([some ohA, some ohB, none], m') ∧ TreeInv m' ∧
      Agrees m' (mapExec (fun _ => none) twoOps).2 :=
  ⟨legal_twoOps, exec_refines (m := Mem.start fun _ => digestFrom 0) rfl legal_twoOps⟩

end Exec

end Varnish.Hcb
