import Mathlib.Data.Finset.Card
import Varnish.Hcb.Map
import Varnish.Lib.Run

/-!
# Varnish.Hcb.Owner — the Y's of the tree and the objheads they are embedded in

The crit-bit tree with the life of its objheads: preallocation, lookup under the lock, the cool-down list `laylow` of
`hcb_deref` and the passes of `hcb_cleaner`.

* `SysInv`: an objhead that was looked up is in the tree or cools down, and every linked Y belongs to such an objhead.
* `reach_owned`: no Y of a freed objhead is linked, whatever the history of insertions and deletions.
-/

namespace Varnish.Hcb

open Varnish.Lib CTree

/-! ## The system -/

section Sys

/-- `COOL_DURATION`. -/
def coolDuration : UInt8 := 60

/-- The memory, and for each objhead its reference count, whether it is allocated, and whether it is still the
`nobjhead` of some worker. -/
structure Sys where
  mem : Mem
  refcnt : Ptr → ℕ
  laylow : List Ptr
  live : Ptr → Bool
  fresh : Ptr → Bool

def Sys.start (digest : Ptr → Digest) : Sys :=
  { mem := Mem.start digest, refcnt := fun _ => 0, laylow := [], live := fun _ => false, fresh := fun _ => false }

def Digest.zero : Digest := ⟨List.replicate digestLen 0, rfl⟩

/-- `digest[0] = b`. -/
def Digest.setFirst (d : Digest) (b : UInt8) : Digest := ⟨d.bytes.set 0 b, by rw [List.length_set, d.len]⟩

def Sys.setRefcnt (s : Sys) (oh : Ptr) (n : ℕ) : Sys := { s with refcnt := Function.update s.refcnt oh n }

/-- `FREE_OBJ`. -/
def Sys.free (s : Sys) (oh : Ptr) : Sys := { s with live := Function.update s.live oh false }

/-- `HSH_Prealloc`: zeroed memory with one reference. -/
def hshPrealloc (s : Sys) (oh : Ptr) : Sys :=
  { s with
    mem := (s.mem.setY oh HcbY.zero).setDigest oh Digest.zero
    refcnt := Function.update s.refcnt oh 1
    live := Function.update s.live oh true
    fresh := Function.update s.fresh oh true }

/-- `HSH_Cleanup` of a worker with the `nobjhead` `oh`. -/
def hshCleanup (s : Sys) (oh : Ptr) : Sys := { s.free oh with fresh := Function.update s.fresh oh false }

/-- `hcb_lookup` of the digest `d`, the part with the lock held, and what `HSH_Lookup` does with `nobjhead`. -/
def hcbLookup (s : Sys) (noh : Ptr) (d : Digest) : Option Sys :=
  if s.refcnt noh = 1 then do
    let (r, m) ← hcbInsert (s.mem.setDigest noh d) noh true
    let oh ← r
    if oh = noh then
      if s.refcnt oh > 0 then some { s with mem := m, fresh := Function.update s.fresh noh false } else none
    else if s.live oh && s.live noh then
      if s.refcnt oh > 0 then some ({ s with mem := m }.setRefcnt oh (s.refcnt oh + 1)) else none
    else none
  else none

/-- `hcb_lookup`, an objhead that the walk without the lock came upon. -/
def hcbNolock (s : Sys) (oh : Ptr) : Sys := if s.refcnt oh ≠ 0 then s.setRefcnt oh (s.refcnt oh + 1) else s

/-- `oh->digest[0] = 0`, and `oh` at the end of the cool-down list. -/
def layDown (s : Sys) (m : Mem) (oh : Ptr) : Sys :=
  { s with mem := m.setDigest oh ((m.digest oh).setFirst 0), laylow := s.laylow ++ [oh] }

/-- `hcb_deref`. -/
def hcbDeref (s : Sys) (oh : Ptr) : Option Sys :=
  if s.live oh && s.refcnt oh > 0 then
    if s.refcnt oh = 1 then do
      let m ← hcbDelete s.mem oh
      some ((layDown s m oh).setRefcnt oh (s.refcnt oh - 1))
    else some (s.setRefcnt oh (s.refcnt oh - 1))
  else none

/-- `oh->digest[0] = b`. -/
def setFirst (s : Sys) (oh : Ptr) (b : UInt8) : Sys :=
  { s with mem := s.mem.setDigest oh ((s.mem.digest oh).setFirst b) }

/-- The body of the loop of `hcb_cleaner`. -/
def hcbCool (s : Sys) (oh : Ptr) : Option Sys :=
  if s.live oh && s.refcnt oh == 0 then
    if (s.mem.y oh).leaf0 ≠ 0 ∨ (s.mem.y oh).leaf1 ≠ 0 then some s
    else
      let b := (s.mem.digest oh).byte 0 + 1
      let s := setFirst s oh b
      if b > coolDuration then some ({ s with laylow := s.laylow.erase oh }.free oh) else some s
  else none

/-- One pass of `hcb_cleaner` over the list. -/
def hcbCleaner (s : Sys) : Option Sys := s.laylow.foldlM hcbCool s

inductive Act where
  | prealloc (oh : Ptr)
  | cleanup (oh : Ptr)
  | lookup (noh : Ptr) (d : Digest)
  | nolock (oh : Ptr)
  | deref (oh : Ptr)
  | cleaner

def sysStep (s : Sys) : Act → Option Sys
  | .prealloc oh => some (hshPrealloc s oh)
  | .cleanup oh => some (hshCleanup s oh)
  | .lookup noh d => hcbLookup s noh d
  | .nolock oh => some (hcbNolock s oh)
  | .deref oh => hcbDeref s oh
  | .cleaner => hcbCleaner s

/-- Who may call what: memory is handed out only once until it is freed, a worker looks up with its own `nobjhead`, and
a reference is dropped by one who has it. -/
def Act.Ok (s : Sys) : Act → Prop
  | .prealloc oh => s.live oh = false
  | .cleanup oh => s.fresh oh = true
  | .lookup noh _ => s.fresh noh = true
  | .nolock oh => s.live oh = true ∧ s.fresh oh = false
  | .deref oh => s.live oh = true ∧ s.fresh oh = false ∧ 0 < s.refcnt oh
  | .cleaner => True

end Sys

/-! ## The invariant -/

section Inv

/-- Every objhead is a worker's `nobjhead`, or in the tree, or on the cool-down list; the linked Y's belong to the
latter two kinds. -/
structure SysInv (s : Sys) (o : Option (CTree Ptr)) : Prop where
  shape : Shape s.mem o
  leaf : ∀ oh ∈ leavesOf o, s.live oh = true ∧ s.fresh oh = false ∧ 0 < s.refcnt oh
  node : ∀ y ∈ nodesOf o, y ∈ leavesOf o ∨ y ∈ s.laylow
  cool : ∀ oh ∈ s.laylow, s.live oh = true ∧ s.fresh oh = false ∧ s.refcnt oh = 0
  nodup : s.laylow.Nodup
  own : ∀ oh, s.fresh oh = true → s.live oh = true ∧ s.refcnt oh = 1
  known : ∀ oh, s.live oh = true → s.fresh oh = false → oh ∈ leavesOf o ∨ oh ∈ s.laylow

variable {s s' : Sys} {o : Option (CTree Ptr)} {oh : Ptr}

theorem SysInv.node_live (h : SysInv s o) {y : Ptr} (hy : y ∈ nodesOf o) : s.live y = true ∧ s.fresh y = false := by
  rcases h.node y hy with hl | hl
  · exact ⟨(h.leaf y hl).1, (h.leaf y hl).2.1⟩
  · exact ⟨(h.cool y hl).1, (h.cool y hl).2.1⟩

theorem sysInv_start (digest : Ptr → Digest) : SysInv (Sys.start digest) none where
  shape := rfl
  leaf := fun oh h => by cases h
  node := fun oh h => by cases h
  cool := fun oh h => by cases h
  nodup := List.nodup_nil
  own := fun oh h => by cases h
  known := fun oh h => by cases h

theorem Shape.setY {m : Mem} {v : HcbY} (h : Shape m o) (hn : oh ∉ nodesOf o) : Shape (m.setY oh v) o := by
  cases o with
  | none => exact h
  | some t =>
    refine ⟨rep_frame (fun z hz => ?_) h.rep, h.crit, h.nodup⟩
    have hne : z ≠ oh := fun he => hn (he ▸ hz)
    simp [Mem.setY, hne]

theorem Shape.addCmps {m : Mem} (h : Shape m o) (n : ℕ) : Shape (m.addCmps n) o := by
  cases o with
  | none => exact h
  | some t => exact Holds.addCmps h n

/-- The objheads that are not `oh` keep what the invariant says of them. -/
theorem update_ne {α : Type} {f : Ptr → α} {v : α} {z : Ptr} (h : z ≠ oh) : Function.update f oh v z = f z :=
  Function.update_of_ne h v f

theorem sysInv_prealloc (h : SysInv s o) (hok : s.live oh = false) : SysInv (hshPrealloc s oh) o := by
  have hne : ∀ z, s.live z = true → z ≠ oh := fun z hz he => by rw [he, hok] at hz; cases hz
  have hnode : oh ∉ nodesOf o := fun hy => hne oh (h.node_live hy).1 rfl
  have hleaf : oh ∉ leavesOf o := fun hy => hne oh (h.leaf oh hy).1 rfl
  refine ⟨(h.shape.setY hnode).setDigest hleaf, fun z hz => ?_, h.node, fun z hz => ?_, h.nodup, fun z hz => ?_,
    fun z hz hf => ?_⟩
  · have hz' := hne z (h.leaf z hz).1
    simp only [hshPrealloc, update_ne hz']
    exact h.leaf z hz
  · have hz' := hne z (h.cool z hz).1
    simp only [hshPrealloc, update_ne hz']
    exact h.cool z hz
  · by_cases hz' : z = oh
    · subst hz'
      simp [hshPrealloc]
    · simp only [hshPrealloc, update_ne hz'] at hz ⊢
      exact h.own z hz
  · by_cases hz' : z = oh
    · subst hz'
      simp [hshPrealloc] at hf
    · simp only [hshPrealloc, update_ne hz'] at hz hf
      exact h.known z hz hf

theorem sysInv_cleanup (h : SysInv s o) (hok : s.fresh oh = true) : SysInv (hshCleanup s oh) o := by
  have hne : ∀ z, s.fresh z = false → z ≠ oh := fun z hz he => by rw [he, hok] at hz; cases hz
  refine ⟨h.shape, fun z hz => ?_, h.node, fun z hz => ?_, h.nodup, fun z hz => ?_, fun z hz hf => ?_⟩
  · have hz' := hne z (h.leaf z hz).2.1
    simp only [hshCleanup, Sys.free, update_ne hz']
    exact h.leaf z hz
  · have hz' := hne z (h.cool z hz).2.1
    simp only [hshCleanup, Sys.free, update_ne hz']
    exact h.cool z hz
  · by_cases hz' : z = oh
    · subst hz'
      simp [hshCleanup] at hz
    · simp only [hshCleanup, Sys.free, update_ne hz'] at hz ⊢
      exact h.own z hz
  · by_cases hz' : z = oh
    · subst hz'
      simp [hshCleanup, Sys.free] at hz
    · simp only [hshCleanup, Sys.free, update_ne hz'] at hz hf
      exact h.known z hz hf

/-- More references on an objhead of the tree. -/
theorem sysInv_setRefcnt (h : SysInv s o) {n : ℕ} (hl : oh ∈ leavesOf o) (hn : 0 < n) : SysInv (s.setRefcnt oh n) o := by
  have hoh := h.leaf oh hl
  refine ⟨h.shape, fun z hz => ?_, h.node, fun z hz => ?_, h.nodup, fun z hz => ?_, h.known⟩
  · obtain ⟨h1, h2, h3⟩ := h.leaf z hz
    refine ⟨h1, h2, ?_⟩
    by_cases hz' : z = oh
    · subst hz'
      simpa [Sys.setRefcnt] using hn
    · simpa only [Sys.setRefcnt, update_ne hz'] using h3
  · obtain ⟨h1, h2, h3⟩ := h.cool z hz
    have hz' : z ≠ oh := fun he => by subst he; omega
    exact ⟨h1, h2, by simpa only [Sys.setRefcnt, update_ne hz'] using h3⟩
  · obtain ⟨h1, h2⟩ := h.own z hz
    have hz' : z ≠ oh := fun he => by
      subst he
      exact absurd (hoh.2.1.symm.trans hz) (by simp)
    exact ⟨h1, by simpa only [Sys.setRefcnt, update_ne hz'] using h2⟩

theorem sysInv_lookup (h : SysInv s o) {d : Digest} (hok : s.fresh oh = true) :
    ∃ s' o', hcbLookup s oh d = some s' ∧ SysInv s' o' := by
  obtain ⟨hlive, href⟩ := h.own oh hok
  have hne : ∀ z, s.fresh z = false → z ≠ oh := fun z hz he => by rw [he, hok] at hz; cases hz
  have hnode : oh ∉ nodesOf o := fun hy => hne oh (h.node_live hy).2 rfl
  have hleaf : oh ∉ leavesOf o := fun hy => hne oh (h.leaf oh hy).2.1 rfl
  have hS := h.shape.setDigest (d := d) hleaf
  rcases hcbInsert_spec hS hnode with ⟨a, ha, -, n, hres⟩ | ⟨-, m', o', hres, hins⟩
  · obtain ⟨hla, hfa, hra⟩ := h.leaf a ha
    have hinv : SysInv { s with mem := (s.mem.setDigest oh d).addCmps n } o :=
      ⟨hS.addCmps n, h.leaf, h.node, h.cool, h.nodup, h.own, h.known⟩
    refine ⟨_, o, ?_, sysInv_setRefcnt hinv ha (Nat.succ_pos (s.refcnt a))⟩
    simp [hcbLookup, href, hres, hne a hfa, hla, hlive, hra]
  · refine ⟨{ s with mem := m', fresh := Function.update s.fresh oh false }, o', ?_, hins.shape, fun z hz => ?_,
      fun z hz => ?_, fun z hz => ?_, h.nodup, fun z hz => ?_, fun z hz hf => ?_⟩
    · simp [hcbLookup, href, hres]
    · rcases List.mem_cons.mp (hins.leaves.subset hz) with rfl | hz
      · simp [hlive, href]
      · simp only [update_ne (hne z (h.leaf z hz).2.1)]
        exact h.leaf z hz
    · rcases hins.nodes z hz with rfl | hz
      · exact .inl (hins.leaves.symm.subset List.mem_cons_self)
      · exact (h.node z hz).imp (fun hl => hins.leaves.symm.subset (List.mem_cons_of_mem _ hl)) id
    · simp only [update_ne (hne z (h.cool z hz).2.1)]
      exact h.cool z hz
    · by_cases hz' : z = oh
      · subst hz'
        simp at hz
      · simp only [update_ne hz'] at hz
        exact h.own z hz
    · by_cases hz' : z = oh
      · subst hz'
        exact .inl (hins.leaves.symm.subset List.mem_cons_self)
      · simp only [update_ne hz'] at hf
        exact (h.known z hz hf).imp (fun hl => hins.leaves.symm.subset (List.mem_cons_of_mem _ hl)) id

theorem sysInv_nolock (h : SysInv s o) (hl : s.live oh = true) (hf : s.fresh oh = false) : SysInv (hcbNolock s oh) o := by
  rw [hcbNolock]
  split_ifs with h0
  · rcases h.known oh hl hf with hk | hk
    · exact sysInv_setRefcnt h hk (Nat.succ_pos _)
    · exact absurd (h.cool oh hk).2.2 h0
  · exact h

theorem leavesOf_nodup {m : Mem} (h : Shape m o) : (leavesOf o).Nodup := by
  cases o with
  | none => exact List.nodup_nil
  | some t => exact leaves_nodup h.crit

theorem sysInv_deref (h : SysInv s o) (hl : s.live oh = true) (hf : s.fresh oh = false) (hr : 0 < s.refcnt oh) :
    ∃ s' o', hcbDeref s oh = some s' ∧ SysInv s' o' := by
  have hleaf : oh ∈ leavesOf o := (h.known oh hl hf).resolve_right fun hc => by
    have := (h.cool oh hc).2.2
    omega
  by_cases h1 : s.refcnt oh = 1
  · obtain ⟨m', o', hres, hdel⟩ := hcbDelete_spec h.shape hleaf
    have hnd := List.nodup_cons.mp (hdel.leaves.nodup_iff.mp (leavesOf_nodup h.shape))
    have hmem : ∀ z, z ∈ leavesOf o ↔ z = oh ∨ z ∈ leavesOf o' := fun z => by
      rw [hdel.leaves.mem_iff, List.mem_cons]
    have hres' : hcbDeref s oh = some ((layDown s m' oh).setRefcnt oh 0) := by simp [hcbDeref, hl, h1, hres]
    refine ⟨_, o', hres', hdel.shape.setDigest hnd.1, fun z hz => ?_, fun z hz => ?_,
      fun z hz => ?_, ?_, fun z hz => ?_, fun z hz hf' => ?_⟩
    · have hz' : z ≠ oh := fun he => hnd.1 (he ▸ hz)
      obtain ⟨h1, h2, h3⟩ := h.leaf z ((hmem z).mpr (.inr hz))
      exact ⟨h1, h2, by simpa only [Sys.setRefcnt, layDown, update_ne hz'] using h3⟩
    · -- the Y of `oh` may still be linked: `oh` is on the cool-down list now
      rcases h.node z (hdel.nodes z hz) with hz' | hz'
      · rcases (hmem z).mp hz' with rfl | hz'
        · exact .inr (List.mem_append_right _ (List.mem_singleton.mpr rfl))
        · exact .inl hz'
      · exact .inr (List.mem_append_left _ hz')
    · rcases List.mem_append.mp hz with hz | hz
      · obtain ⟨h1, h2, h3⟩ := h.cool z hz
        have hz' : z ≠ oh := fun he => by subst he; omega
        exact ⟨h1, h2, by simpa only [Sys.setRefcnt, layDown, update_ne hz'] using h3⟩
      · obtain rfl := List.mem_singleton.mp hz
        exact ⟨hl, hf, by simp [Sys.setRefcnt]⟩
    · refine List.nodup_append.mpr ⟨h.nodup, List.nodup_singleton _, ?_⟩
      rintro a ha b hb rfl
      obtain rfl := List.mem_singleton.mp hb
      have := (h.cool a ha).2.2
      omega
    · obtain ⟨h1, h2⟩ := h.own z hz
      have hz' : z ≠ oh := fun he => by
        subst he
        have hz : s.fresh z = true := hz
        rw [hf] at hz
        cases hz
      exact ⟨h1, by simpa only [Sys.setRefcnt, layDown, update_ne hz'] using h2⟩
    · rcases h.known z hz hf' with hz' | hz'
      · rcases (hmem z).mp hz' with rfl | hz'
        · exact .inr (List.mem_append_right _ (List.mem_singleton.mpr rfl))
        · exact .inl hz'
      · exact .inr (List.mem_append_left _ hz')
  · have hres : hcbDeref s oh = some (s.setRefcnt oh (s.refcnt oh - 1)) := by simp [hcbDeref, hl, hr, h1]
    exact ⟨_, o, hres, sysInv_setRefcnt h hleaf (by omega)⟩

/-! The cleaner: one objhead, then the pass. -/

/-- A Y whose links are clear is not in the tree. -/
theorem not_mem_nodes {m : Mem} (h : Shape m o) (h0 : (m.y oh).leaf0 = 0) : oh ∉ nodesOf o := by
  intro hn
  cases o with
  | none => cases hn
  | some t =>
    obtain ⟨path, c, l, r, hu⟩ := mem_nodes_iff.mp hn
    obtain ⟨q, hq⟩ := (locAt_iff_sub (p := .origo) h.rep).mpr ⟨_, hu⟩
    exact rep_ne_zero (rep_sub h.rep hq hu).2.2.1 h0

/-- What the cleaner does to one objhead of its list. -/
theorem sysInv_cool (h : SysInv s o) (hoh : oh ∈ s.laylow) : ∃ s', hcbCool s oh = some s' ∧ SysInv s' o ∧
    (∀ z, s.live z = true → s'.live z = false → z = oh ∧ z ∉ nodesOf o ∧ z ∉ leavesOf o) ∧
    ∀ z ∈ s.laylow, z ≠ oh → z ∈ s'.laylow := by
  obtain ⟨hl, hf, hr⟩ := h.cool oh hoh
  have hleaf : oh ∉ leavesOf o := fun hm => by
    have := (h.leaf oh hm).2.2
    omega
  by_cases hY : (s.mem.y oh).leaf0 ≠ 0 ∨ (s.mem.y oh).leaf1 ≠ 0
  · refine ⟨s, by simp only [hcbCool, hl, hr, hY]; rfl, h, fun z h1 h2 => ?_, fun z hz _ => hz⟩
    rw [h1] at h2
    cases h2
  · have hnode : oh ∉ nodesOf o := by
      rw [not_or, not_not, not_not] at hY
      exact not_mem_nodes h.shape hY.1
    have hS := h.shape.setDigest (d := (s.mem.digest oh).setFirst ((s.mem.digest oh).byte 0 + 1)) hleaf
    have hcool : hcbCool s oh = if (s.mem.digest oh).byte 0 + 1 > coolDuration
        then some ({ setFirst s oh ((s.mem.digest oh).byte 0 + 1) with laylow := s.laylow.erase oh }.free oh)
        else some (setFirst s oh ((s.mem.digest oh).byte 0 + 1)) := by
      rw [hcbCool, if_pos (by simp [hl, hr]), if_neg hY]
      rfl
    rw [hcool]
    by_cases hb : (s.mem.digest oh).byte 0 + 1 > coolDuration
    · rw [if_pos hb]
      refine ⟨_, rfl, ⟨hS, fun z hz => ?_, fun z hz => ?_, fun z hz => ?_,
        h.nodup.erase oh, fun z hz => ?_, fun z hz hf' => ?_⟩, fun z h1 h2 => ?_, fun z hz hne => ?_⟩
      · have hz' : z ≠ oh := fun he => hleaf (he ▸ hz)
        simp only [Sys.free, update_ne hz']
        exact h.leaf z hz
      · have hz' : z ≠ oh := fun he => hnode (he ▸ hz)
        exact (h.node z hz).imp id fun hc => (List.mem_erase_of_ne hz').mpr hc
      · have hz' : z ≠ oh := fun he => by
          subst he
          exact absurd hz h.nodup.not_mem_erase
        simp only [Sys.free, update_ne hz']
        exact h.cool z (List.mem_of_mem_erase hz)
      · have hz' : z ≠ oh := fun he => by
          subst he
          have hz : s.fresh z = true := hz
          rw [hf] at hz
          cases hz
        simp only [Sys.free, update_ne hz']
        exact h.own z hz
      · by_cases hz' : z = oh
        · subst hz'
          simp [Sys.free] at hz
        · simp only [Sys.free, update_ne hz'] at hz
          exact (h.known z hz hf').imp id fun hc => (List.mem_erase_of_ne hz').mpr hc
      · by_cases hz' : z = oh
        · exact ⟨hz', hz' ▸ hnode, hz' ▸ hleaf⟩
        · simp only [Sys.free, setFirst, update_ne hz'] at h2
          exact absurd (h1.symm.trans h2) (by simp)
      · exact (List.mem_erase_of_ne hne).mpr hz
    · rw [if_neg hb]
      refine ⟨_, rfl, ⟨hS, h.leaf, h.node, h.cool, h.nodup, h.own, h.known⟩,
        fun z h1 h2 => ?_, fun z hz _ => hz⟩
      exact absurd (h1.symm.trans h2) (by simp)

theorem sysInv_coolAll {ohs : List Ptr} (h : SysInv s o) (hsub : ∀ oh ∈ ohs, oh ∈ s.laylow) (hnd : ohs.Nodup) :
    ∃ s', ohs.foldlM hcbCool s = some s' ∧ SysInv s' o ∧
      ∀ z, s.live z = true → s'.live z = false → z ∉ nodesOf o ∧ z ∉ leavesOf o := by
  induction ohs generalizing s with
  | nil =>
    refine ⟨s, rfl, h, fun z h1 h2 => ?_⟩
    rw [h1] at h2
    cases h2
  | cons oh ohs ih =>
    obtain ⟨s1, hres, hinv, hfree, hkeep⟩ := sysInv_cool h (hsub oh List.mem_cons_self)
    rw [List.nodup_cons] at hnd
    have hsub1 : ∀ z ∈ ohs, z ∈ s1.laylow := fun z hz =>
      hkeep z (hsub z (List.mem_cons_of_mem _ hz)) fun he => hnd.1 (he ▸ hz)
    obtain ⟨s2, hres2, hinv2, hfree2⟩ := ih hinv hsub1 hnd.2
    refine ⟨s2, ?_, hinv2, fun z h1 h2 => ?_⟩
    · rw [List.foldlM_cons, hres]
      exact hres2
    · cases hz : s1.live z with
      | true => exact hfree2 z hz h2
      | false => exact (hfree z h1 hz).2

/-- **One step** of the system neither fails nor breaks the invariant. -/
theorem sysInv_step {a : Act} (h : SysInv s o) (hok : a.Ok s) : ∃ s' o', sysStep s a = some s' ∧ SysInv s' o' := by
  cases a with
  | prealloc oh => exact ⟨_, o, rfl, sysInv_prealloc h hok⟩
  | cleanup oh => exact ⟨_, o, rfl, sysInv_cleanup h hok⟩
  | lookup noh d => exact sysInv_lookup h hok
  | nolock oh => exact ⟨_, o, rfl, sysInv_nolock h hok.1 hok.2⟩
  | deref oh => exact sysInv_deref h hok.1 hok.2.1 hok.2.2
  | cleaner =>
    obtain ⟨s', hres, hinv, -⟩ := sysInv_coolAll h (fun _ hz => hz) h.nodup
    exact ⟨s', o, hres, hinv⟩

theorem reach_sysInv {digest : Ptr → Digest} (h : Reach sysStep (fun s a => a.Ok s) (Sys.start digest) s) :
    ∃ o, SysInv s o := by
  refine Reach.inv (I := fun s => ∃ o, SysInv s o) ⟨none, sysInv_start digest⟩ ?_ h
  rintro s a s' ⟨o, ho⟩ hok hs
  obtain ⟨s1, o1, hs1, hinv⟩ := sysInv_step ho hok
  rw [hs1] at hs
  cases hs
  exact ⟨o1, hinv⟩

end Inv

/-! ## The result -/

section Owned

variable {s : Sys}

/-- What is said of the Y's of a state. -/
structure Owned (s : Sys) : Prop where
  /-- A link to a Y leads into exactly one objhead that is not freed. -/
  live : ∀ path q, locAt s.mem .origo path = some q → hcbIsY (s.mem.read q) = true →
    ∃! oh, s.live oh = true ∧ s.mem.read q = hcbRY oh
  /-- There is one Y less than there are objheads in the tree. -/
  count : ∃ ohs ys : Finset Ptr, (∀ oh, oh ∈ ohs ↔ ∃ path, AtNode s.mem path oh) ∧
    (∀ y, y ∈ ys ↔ ∃ path, AtY s.mem path y) ∧ (ohs.Nonempty → ys.card + 1 = ohs.card)
  /-- No Y is at the end of two paths. -/
  unique : ∀ path path' y, AtY s.mem path y → AtY s.mem path' y → path = path'
  /-- The cleaner frees no objhead whose Y is linked. -/
  cleaner : ∀ s', hcbCleaner s = some s' → ∀ oh, s.live oh = true → s'.live oh = false → ¬ ∃ path, AtY s.mem path oh

theorem SysInv.owned {o : Option (CTree Ptr)} (h : SysInv s o) : Owned s where
  live path q hq hy := by
    rcases h.shape.inv.word path q hq with ⟨y, hw⟩ | ⟨oh, hw⟩ | ⟨-, hw⟩
    · have hn : y ∈ nodesOf o := h.shape.mem_nodes.mpr ⟨path, q, hq, hw⟩
      exact ⟨y, ⟨(h.node_live hn).1, hw⟩, fun z hz => hcbRY_inj.mp (hz.2.symm.trans hw)⟩
    · rw [hw, hcbIsY_rNode] at hy
      cases hy
    · rw [hw] at hy
      cases hy
  count := by
    refine ⟨(leavesOf o).toFinset, (nodesOf o).toFinset, fun oh => ?_, fun y => ?_, fun hne => ?_⟩
    · rw [List.mem_toFinset]
      exact h.shape.mem_leaves
    · rw [List.mem_toFinset]
      exact h.shape.mem_nodes
    · cases o with
      | none => cases hne with | intro _ hx => cases hx
      | some t =>
        have hn : (nodesOf (some t)).Nodup := h.shape.nodup
        rw [List.toFinset_card_of_nodup (leavesOf_nodup h.shape), List.toFinset_card_of_nodup hn]
        exact length_leaves.symm
  unique path path' y hy hy' := by
    cases o with
    | none => exact absurd hy (not_atY_empty h.shape)
    | some t =>
      obtain ⟨c, l, r, hu⟩ := h.shape.atY_iff.mp hy
      obtain ⟨c', l', r', hu'⟩ := h.shape.atY_iff.mp hy'
      exact path_unique h.shape.nodup hu hu'
  cleaner s' hs oh hl hl' := by
    obtain ⟨s1, hres, -, hfree⟩ := sysInv_coolAll h (fun _ hz => hz) h.nodup
    rw [hcbCleaner, hres] at hs
    cases hs
    rw [← h.shape.mem_nodes]
    exact (hfree oh hl hl').1

/-- **Ownership of the Y's**: in every state of every run of preallocations, lookups, dereferences and cleaner passes
the linked Y's belong to objheads that are not freed, and no step fails an assertion. -/
theorem reach_owned {digest : Ptr → Digest} (h : Reach sysStep (fun s a => a.Ok s) (Sys.start digest) s) :
    Owned s ∧ ∀ a : Act, a.Ok s → (sysStep s a).isSome := by
  obtain ⟨o, ho⟩ := reach_sysInv h
  refine ⟨ho.owned, fun a ha => ?_⟩
  obtain ⟨s', o', hs, -⟩ := sysInv_step ho ha
  rw [hs]
  rfl

/-! A run: the second objhead brings the only Y with it, and is then taken out; its Y goes with it. -/

instance (s : Sys) : (a : Act) → Decidable (a.Ok s)
  | .prealloc oh => inferInstanceAs (Decidable (s.live oh = false))
  | .cleanup oh => inferInstanceAs (Decidable (s.fresh oh = true))
  | .lookup noh _ => inferInstanceAs (Decidable (s.fresh noh = true))
  | .nolock oh => inferInstanceAs (Decidable (s.live oh = true ∧ s.fresh oh = false))
  | .deref oh => inferInstanceAs (Decidable (s.live oh = true ∧ s.fresh oh = false ∧ 0 < s.refcnt oh))
  | .cleaner => isTrue trivial

def ownRun : List Act :=
  [.prealloc ohA, .lookup ohA (digestFrom 0), .prealloc ohB, .lookup ohB (digestFrom 0x40), .deref ohB, .cleaner]

theorem reach_owned_ownRun : ∃ s, Reach sysStep (fun s a => a.Ok s) (Sys.start fun _ => digestFrom 0) s ∧
    (Owned s ∧ ∀ a : Act, a.Ok s → (sysStep s a).isSome) ∧ s.laylow = [ohB] := by
  have hres : (ownRun.foldlM sysStep (Sys.start fun _ => digestFrom 0)).map Sys.laylow = some [ohB] := by decide +kernel
  obtain ⟨s, hs, hlay⟩ := Option.map_eq_some_iff.mp hres
  have hreach : Reach sysStep (fun s a => a.Ok s) (Sys.start fun _ => digestFrom 0) s :=
    Reach.of_run (by decide +kernel) hs
  exact ⟨s, hreach, reach_owned hreach, hlay⟩

end Owned

end Varnish.Hcb
