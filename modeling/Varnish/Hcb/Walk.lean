import Varnish.Hcb.Owner

/-!
# Varnish.Hcb.Walk — `hcb_insert` without the lock, next to locked updates

The walk of `hcb_insert(root, oh, 0)` reads one link word at a time.  Between two reads other threads insert and delete
with the lock held.

* `walk_cleared_fails`: a walk that stands on a Y at the moment a deletion takes that Y out reads a cleared link next,
  and `assert(hcb_is_node(pp))` fails.
* `walk_safe`: as long as no deletion takes out the Y that the walk stands on, the walk does not fail, and it ends after
  a bounded number of reads with `NULL` or with an objhead that has the searched digest.
-/

namespace Varnish.Hcb

open Varnish.Lib CTree

/-! ## The system -/

section Sys

/-- Where the walk is: before its first read, on a Y, at an objhead that is not yet compared, or back with its
result. -/
inductive Walker where
  | start
  | atY (y : Ptr)
  | atNode (oh : Ptr)
  | done (r : Option Ptr)
deriving DecidableEq

/-- The loop condition of the walk, and the assertion behind the loop, on the word that was read. -/
def walkWord (pp : Word) : Option Walker :=
  if hcbIsY pp then (hcbLY pp).map Walker.atY
  else if hcbIsNode pp then (hcbLNode pp).map Walker.atNode
  else none

/-- One read of the walk for the digest `d`. -/
def walkStep (m : Mem) (d : Digest) : Walker → Option Walker
  | .start => if m.origo = 0 then some (.done none) else walkWord m.origo
  | .atY y => if (m.y y).ptr < digestLen then walkWord ((m.y y).leaf (side d (m.y y))) else none
  | .atNode oh => some (.done (if m.digest oh = d then some oh else none))
  | .done r => some (.done r)

/-- The memory, the walk and the number of its reads so far. -/
structure WSys where
  mem : Mem
  walk : Walker
  reads : ℕ

inductive WAct where
  | read
  | insert (oh : Ptr) (d : Digest)
  | delete (oh : Ptr)

/-- A deletion is the locked part of `hcb_deref`. -/
def wStep (d : Digest) (s : WSys) : WAct → Option WSys
  | .read => (walkStep s.mem d s.walk).map fun w => { s with walk := w, reads := s.reads + 1 }
  | .insert oh d' => (hcbInsert (s.mem.setDigest oh d') oh true).map fun rm => { s with mem := rm.2 }
  | .delete oh => (hcbDelete s.mem oh).map fun m => { s with mem := m.setDigest oh ((m.digest oh).setFirst 0) }

/-- The walk reads until it has its result; the updates are those that the callers of the tree make. -/
def WAct.Ok (s : WSys) : WAct → Prop
  | .read => ∀ r, s.walk ≠ .done r
  | .insert oh _ => ¬ Linked s.mem oh
  | .delete oh => ∃ path, AtNode s.mem path oh

/-- The action takes out no Y on which the walk stands: no deletion of an objhead that this Y links to. -/
def WAct.Spares (s : WSys) : WAct → Prop
  | .delete oh => ∀ y, s.walk = .atY y → ∀ b, (s.mem.y y).leaf b ≠ hcbRNode oh
  | _ => True

def WSys.init (m : Mem) : WSys := { mem := m, walk := .start, reads := 0 }

end Sys

/-! ## A deletion under the walk -/

section Cleared

variable {m : Mem}

/-- The assertion that fails. -/
theorem walk_cleared_fails {y : Ptr} {d : Digest} (h : ∀ b, (m.y y).leaf b = 0) : walkStep m d (.atY y) = none := by
  rw [walkStep, h]
  split_ifs <;> rfl

end Cleared

/-! ## The invariant -/

section Inv

/-- More than the number of reads that are still to come. -/
def rank (m : Mem) : Walker → ℕ
  | .start => 8 * digestLen + 2
  | .atY y => 8 * digestLen + 1 - (m.y y).critbit
  | .atNode _ => 1
  | .done _ => 0

/-- The Y that the walk stands on is linked. -/
structure WInv (s : WSys) (o : Option (CTree Ptr)) : Prop where
  shape : Shape s.mem o
  on : ∀ y, s.walk = .atY y → y ∈ nodesOf o
  bound : s.reads + rank s.mem s.walk ≤ 8 * digestLen + 2

variable {s s' : WSys} {o : Option (CTree Ptr)} {m : Mem} {d : Digest}

/-- The words that a linked Y has: objheads, and Y's with greater critical bits. -/
theorem Shape.leaf_word (h : Shape m o) {y : Ptr} (hy : y ∈ nodesOf o) : ∃ c, (m.y y).Selects c ∧ ∀ b,
    (∃ a, (m.y y).leaf b = hcbRNode a) ∨
      ∃ y' ∈ nodesOf o, (m.y y).leaf b = hcbRY y' ∧ c < (m.y y').critbit ∧ (m.y y').critbit < 8 * digestLen := by
  cases o with
  | none => cases hy
  | some t =>
    obtain ⟨path, c, l, r, hu⟩ := mem_nodes_iff.mp hy
    obtain ⟨q, hq⟩ := (locAt_iff_sub (p := .origo) h.rep).mpr ⟨_, hu⟩
    have hrep := rep_sub h.rep hq hu
    obtain ⟨-, -, hbl, hbr, -, -, -⟩ := crit_sub h.crit hu
    refine ⟨c, hrep.2.1, fun b => ?_⟩
    have hchild : Rep m.y (if b then r else l) ((m.y y).leaf b) := rep_child hrep b
    have hbelow : Below c (if b then r else l) := by cases b <;> assumption
    have hmem : ∀ z ∈ nodes (if b then r else l), z ∈ nodes t := fun z hz => by
      refine nodes_sub hu (List.mem_cons_of_mem _ (List.mem_append.mpr ?_))
      cases b
      · exact .inl hz
      · exact .inr hz
    cases hc : (if b then r else l) with
    | leaf a =>
      rw [hc] at hchild
      exact .inl ⟨a, hchild⟩
    | node y' c' l' r' =>
      rw [hc] at hchild hbelow hmem
      refine .inr ⟨y', hmem y' List.mem_cons_self, hchild.1, ?_⟩
      rw [hchild.2.1.1]
      exact ⟨hbelow, hchild.2.1.2.2.2⟩

theorem Shape.origo_word (h : Shape m o) : m.origo = 0 ∨ (∃ a, m.origo = hcbRNode a) ∨
    ∃ y ∈ nodesOf o, m.origo = hcbRY y := by
  cases o with
  | none => exact .inl h
  | some t =>
    have hrep := Holds.rep h
    cases t with
    | leaf a => exact .inr (.inl ⟨a, hrep⟩)
    | node y c l r => exact .inr (.inr ⟨y, List.mem_cons_self, hrep.1⟩)

@[simp] theorem walkWord_rNode (a : Ptr) : walkWord (hcbRNode a) = some (.atNode a) := by simp [walkWord]

@[simp] theorem walkWord_rY (y : Ptr) : walkWord (hcbRY y) = some (.atY y) := by simp [walkWord]

/-- **One read** does not fail, brings the walk on, and a result that it gives is `NULL` or has the digest. -/
theorem walkStep_ok (h : Shape m o) {w : Walker} (hon : ∀ y, w = .atY y → y ∈ nodesOf o) (hnd : ∀ r, w ≠ .done r) :
    ∃ w', walkStep m d w = some w' ∧ (∀ y, w' = .atY y → y ∈ nodesOf o) ∧ rank m w' < rank m w ∧
      ∀ oh, w' = .done (some oh) → m.digest oh = d := by
  cases w with
  | start =>
    rcases h.origo_word with h0 | ⟨a, ha⟩ | ⟨y, hy, hw⟩
    · exact ⟨.done none, by rw [walkStep, if_pos h0], fun y he => (by cases he), by simp [rank],
        fun oh he => (by cases he)⟩
    · exact ⟨.atNode a, by simp [walkStep, ha], fun y he => (by cases he), by simp [rank],
        fun oh he => (by cases he)⟩
    · refine ⟨.atY y, by simp [walkStep, hw], fun z he => ?_, ?_, fun oh he => (by cases he)⟩
      · cases he
        exact hy
      · rw [rank, rank]
        omega
  | atY y =>
    obtain ⟨c, hsel, hword⟩ := h.leaf_word (hon y rfl)
    have hp := ptr_lt hsel
    have hc : (m.y y).critbit = c := hsel.1
    have hc' : c < 8 * digestLen := hsel.2.2.2
    rcases hword (side d (m.y y)) with ⟨a, ha⟩ | ⟨y', hy', hw, hlt, hlt'⟩
    · refine ⟨.atNode a, by simp [walkStep, hp, ha], fun y he => (by cases he), ?_, fun oh he => (by cases he)⟩
      rw [rank, rank]
      omega
    · refine ⟨.atY y', by simp [walkStep, hp, hw], fun z he => ?_, ?_, fun oh he => (by cases he)⟩
      · cases he
        exact hy'
      · rw [rank, rank]
        omega
  | atNode oh =>
    refine ⟨_, rfl, fun y he => (by cases he), by simp [rank], fun a he => ?_⟩
    split_ifs at he with hd
    · cases he
      exact hd
    · cases he
  | done r => exact absurd rfl (hnd r)

/-- The updates leave the walk where it is and do not move it back. -/
theorem rank_le {m m' : Mem} {w : Walker} (h : ∀ y, w = .atY y → (m'.y y).critbit = (m.y y).critbit) :
    rank m' w ≤ rank m w := by
  cases w with
  | atY y => rw [rank, rank, h y rfl]
  | start => exact le_rfl
  | atNode a => exact le_rfl
  | done r => exact le_rfl

theorem wInv_insert (h : WInv s o) {oh : Ptr} {d' : Digest} (hok : ¬ Linked s.mem oh) :
    ∃ s' o', wStep d s (.insert oh d') = some s' ∧ WInv s' o' := by
  obtain ⟨hn, hlv⟩ := not_linked h.shape hok
  have hS := h.shape.setDigest (d := d') hlv
  rcases hcbInsert_spec hS hn with ⟨a, -, -, n, hres⟩ | ⟨-, m', o', hres, hins⟩
  · refine ⟨{ s with mem := (s.mem.setDigest oh d').addCmps n }, o, by rw [wStep, hres]; rfl, hS.addCmps n, h.on, ?_⟩
    exact le_trans (Nat.add_le_add_left (rank_le fun _ _ => rfl) _) h.bound
  · refine ⟨{ s with mem := m' }, o', by rw [wStep, hres]; rfl, hins.shape, fun y hy => hins.nodes_mono y (h.on y hy), ?_⟩
    refine le_trans (Nat.add_le_add_left (rank_le fun y hy => ?_) _) h.bound
    have hne : y ≠ oh := fun he => hn (he ▸ h.on y hy)
    obtain ⟨c, hsel, -⟩ := h.shape.leaf_word (h.on y hy)
    exact (hins.selects y hne c hsel).1.trans hsel.1.symm

/-- A deletion, and whether the walk can go on after it. -/
theorem wInv_delete (h : WInv s o) {oh : Ptr} (hok : ∃ path, AtNode s.mem path oh) :
    ∃ s' o', wStep d s (.delete oh) = some s' ∧ (WAct.Spares s (.delete oh) → WInv s' o') ∧
      (¬ WAct.Spares s (.delete oh) → walkStep s'.mem d s'.walk = none) := by
  have hleaf := h.shape.mem_leaves.mpr hok
  obtain ⟨m', o', hres, hdel⟩ := hcbDelete_spec h.shape hleaf
  have hnd := (List.nodup_cons.mp (hdel.leaves.nodup_iff.mp (leavesOf_nodup h.shape))).1
  refine ⟨{ s with mem := m'.setDigest oh ((m'.digest oh).setFirst 0) }, o', by rw [wStep, hres]; rfl, fun hsp => ?_,
    fun hsp => ?_⟩
  · refine ⟨hdel.shape.setDigest hnd, fun y hy => ?_, ?_⟩
    · refine (hdel.above y (h.on y hy)).resolve_right ?_
      rintro ⟨b, hb⟩
      exact hsp y hy b hb
    · refine le_trans (Nat.add_le_add_left (rank_le fun y hy => ?_) _) h.bound
      obtain ⟨c, hsel, -⟩ := h.shape.leaf_word (h.on y hy)
      exact (hdel.selects y c hsel).1.trans hsel.1.symm
  · simp only [WAct.Spares, not_forall, not_not] at hsp
    obtain ⟨y, hy, b, hb⟩ := hsp
    simp only [hy]
    exact walk_cleared_fails (hdel.cleared y (h.on y hy) b hb)

theorem wInv_step {a : WAct} (h : WInv s o) (hok : a.Ok s) (hsp : a.Spares s) :
    ∃ s' o', wStep d s a = some s' ∧ WInv s' o' := by
  cases a with
  | read =>
    obtain ⟨w', hw, hon, hlt, -⟩ := walkStep_ok (d := d) h.shape h.on hok
    refine ⟨{ s with walk := w', reads := s.reads + 1 }, o, by rw [wStep, hw]; rfl, h.shape, hon, ?_⟩
    have hb := h.bound
    simp only
    omega
  | insert oh d' => exact wInv_insert h hok
  | delete oh =>
    obtain ⟨s', o', hs, hinv, -⟩ := wInv_delete (d := d) h hok
    exact ⟨s', o', hs, hinv hsp⟩

theorem reach_wInv {m : Mem} (h0 : m.origo = 0)
    (h : Reach (wStep d) (fun s a => a.Ok s ∧ a.Spares s) (WSys.init m) s) : ∃ o, WInv s o := by
  have hinit : WInv (WSys.init m) none := ⟨h0, fun y hy => (by cases hy), by simp [WSys.init, rank]⟩
  refine Reach.inv (I := fun s => ∃ o, WInv s o) ⟨none, hinit⟩ ?_ h
  rintro s a s' ⟨o, ho⟩ ⟨hok, hsp⟩ hs
  obtain ⟨s1, o1, hs1, hinv⟩ := wInv_step (d := d) ho hok hsp
  rw [hs1] at hs
  cases hs
  exact ⟨o1, hinv⟩

/-- What is said of a state of a run. -/
structure WalkSafe (d : Digest) (s : WSys) : Prop where
  /-- No action fails, the next read of the walk included. -/
  runs : ∀ a : WAct, a.Ok s → a.Spares s → (wStep d s a).isSome
  /-- A result that the walk comes to is `NULL` or has the searched digest. -/
  result : ∀ oh, (∀ r, s.walk ≠ .done r) → walkStep s.mem d s.walk = some (.done (some oh)) → s.mem.digest oh = d
  /-- The walk comes to its result. -/
  reads_le : s.reads ≤ 8 * digestLen + 2
  /-- A deletion that takes out the Y under the walk makes the next read fail. -/
  exact : ∀ oh, WAct.Ok s (.delete oh) → ∀ s', wStep d s (.delete oh) = some s' → ¬ WAct.Spares s (.delete oh) →
    walkStep s'.mem d s'.walk = none

/-- **The walk is safe while the Y under it stays**: in every state of every run, from the empty tree on, in which no
deletion takes out the Y that the walk stands on. -/
theorem walk_safe {m : Mem} (h0 : m.origo = 0)
    (h : Reach (wStep d) (fun s a => a.Ok s ∧ a.Spares s) (WSys.init m) s) : WalkSafe d s := by
  obtain ⟨o, ho⟩ := reach_wInv h0 h
  refine ⟨fun a hok hsp => ?_, fun oh hnd hw => ?_, ?_, fun oh hok s' hs hsp => ?_⟩
  · obtain ⟨s', o', hs, -⟩ := wInv_step (d := d) ho hok hsp
    rw [hs]
    rfl
  · obtain ⟨w', hw', -, -, hdig⟩ := walkStep_ok (d := d) ho.shape ho.on hnd
    rw [hw] at hw'
    cases hw'
    exact hdig oh rfl
  · have := ho.bound
    omega
  · obtain ⟨s1, o1, hs1, -, hfail⟩ := wInv_delete (d := d) ho hok
    rw [hs1] at hs
    cases hs
    exact hfail hsp

end Inv

/-! ## Runs -/

section Runs

/-- The tree of two objheads before the walk starts. -/
def wStart : WSys := WSys.init (Mem.start fun _ => digestFrom 0)

/-- The walk has left the Y when `ohA` is deleted. -/
theorem walk_safe_left : ∃ s, WalkSafe (digestFrom 0) s ∧ s.walk = .atNode ohA ∧ s.mem.origo = hcbRNode ohB := by
  refine ⟨_, walk_safe (m := Mem.start fun _ => digestFrom 0) rfl
    (((((Reach.refl.tail (.insert ohA (digestFrom 0)) ⟨?first, trivial⟩ rfl).tail (.insert ohB (digestFrom 0x40))
      ⟨?second, trivial⟩ rfl).tail .read ⟨?onY, trivial⟩ rfl).tail .read ⟨?onNode, trivial⟩ rfl).tail (.delete ohA)
      ⟨?linked, ?spared⟩ rfl), rfl, rfl⟩
  case first => exact not_linked_empty rfl
  case second => exact not_linked_leaf (a := ohA) rfl (by decide)
  case onY => exact fun r hr => by cases hr
  case onNode => exact fun r hr => by cases hr
  case linked => exact ⟨[false], .leaf ohB false, by decide +kernel, by decide +kernel⟩
  case spared => exact fun y hy => by cases hy

/-- The walk for the digest of `ohA` stands on the Y above `ohA` when `ohA` is deleted: the next read fails. -/
theorem walk_not_safe : ∃ s, Reach (wStep (digestFrom 0)) (fun s a => a.Ok s) wStart s ∧
    WAct.Ok s .read ∧ wStep (digestFrom 0) s .read = none := by
  refine ⟨_, (((Reach.refl.tail (.insert ohA (digestFrom 0)) ?_ rfl).tail (.insert ohB (digestFrom 0x40)) ?_ rfl).tail
    .read ?_ rfl).tail (.delete ohA) ?_ rfl, ?_, ?_⟩
  · exact not_linked_empty rfl
  · exact not_linked_leaf (a := ohA) rfl (by decide)
  · intro r hr
    cases hr
  · exact ⟨[false], .leaf ohB false, by decide +kernel, by decide +kernel⟩
  · intro r hr
    cases hr
  · rfl

end Runs

end Varnish.Hcb
