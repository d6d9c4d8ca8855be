import Mathlib.Algebra.Group.Nat.Defs
import Mathlib.Order.Lattice
import Varnish.Lib.Run

/-!
# Varnish.Ws.Workspace — workspaces (`cache_ws.c`)

* `wsInit`, `wsReset`, `wsAlloc`, `wsSnapshot`, `wsReserve`, `wsRelease`, `wsReleaseP`: the functions; `none` is a failed
  assertion.
* `wsStep`: what a caller does, with the allocations and snapshots that it may still use.
* `reach_wsOk_iff`: the assertions hold as long as no workspace is reset to a snapshot that was taken when it was full.
-/

namespace Varnish.Workspace

open Varnish.Lib

/-! ## The functions -/

section Functions

/-- `struct ws`.  The pointers are numbers; `r` is `none` when it is null. -/
structure Ws where
  s : ℕ
  f : ℕ
  r : Option ℕ
  e : ℕ
  overflow : ℕ := 0
deriving DecidableEq

/-- `WS_Assert` -/
def WsAssert (ws : Ws) : Prop :=
  ws.s ≠ 0 ∧ ws.e ≠ 0 ∧ ws.s < ws.e ∧ ws.s ≤ ws.f ∧ ws.f ≤ ws.e ∧ ∀ r ∈ ws.r, ws.s < r ∧ r ≤ ws.e

instance (ws : Ws) : Decidable (WsAssert ws) := inferInstanceAs (Decidable (_ ∧ _))

/-- `WS_Init`, where `len` is an `unsigned`. -/
def wsInit (space len : ℕ) : Option Ws :=
  let ws : Ws := { s := space, e := space + len, f := space, r := none }
  if space ≠ 0 ∧ WsAssert ws then some ws else none

/-- `WS_Reset` -/
def wsReset (ws : Ws) (p : Option ℕ) : Option Ws :=
  if WsAssert ws ∧ ws.r = none then
    match p with
    | none => some { ws with f := ws.s }
    | some p => if ws.s ≤ p ∧ p < ws.e then some { ws with f := p } else none
  else none

/-- `WS_Alloc`; the pointer is null when there is not enough space. -/
def wsAlloc (ws : Ws) (bytes : ℕ) : Option (Ws × Option ℕ) :=
  if WsAssert ws ∧ ws.r = none then
    if ws.e < ws.f + bytes then some ({ ws with overflow := ws.overflow + 1 }, none)
    else some ({ ws with f := ws.f + bytes }, some ws.f)
  else none

/-- `WS_Dup`, of a string without its NUL. -/
def wsDup (ws : Ws) (s : List UInt8) : Option (Ws × Option ℕ) := wsAlloc ws ((s.length + 1) % 2 ^ 32)

/-- `WS_Snapshot` -/
def wsSnapshot (ws : Ws) : Option ℕ := if WsAssert ws ∧ ws.r = none then some ws.f else none

/-- `WS_Reserve` -/
def wsReserve (ws : Ws) (bytes : ℕ) : Option (Ws × ℕ) :=
  let b2 := if bytes = 0 then (ws.e - ws.f) % 2 ^ 32 else bytes
  if WsAssert ws ∧ ws.r = none ∧ ws.f + b2 ≤ ws.e then some ({ ws with r := some (ws.f + b2) }, b2) else none

/-- `WS_Release` -/
def wsRelease (ws : Ws) (bytes : ℕ) : Option Ws :=
  if WsAssert ws ∧ bytes ≤ ws.e - ws.f ∧ ∃ r ∈ ws.r, ws.f + bytes ≤ r then some { ws with f := ws.f + bytes, r := none }
  else none

/-- `WS_ReleaseP` -/
def wsReleaseP (ws : Ws) (ptr : ℕ) : Option Ws :=
  if WsAssert ws ∧ ∃ r ∈ ws.r, ws.f ≤ ptr ∧ ptr ≤ r then some { ws with f := ptr, r := none } else none

end Functions

/-! ## The callers -/

section Callers

/-- A workspace with the snapshots and the blocks, from the first byte to the one behind the last, that are still good. -/
structure Use where
  ws : Ws
  snaps : List ℕ
  blocks : List (ℕ × ℕ)

inductive Op
  | alloc (bytes : ℕ)
  | dup (s : List UInt8)
  | snapshot
  | reset (p : Option ℕ)
  | reserve (bytes : ℕ)
  | release (bytes : ℕ)
  | releaseP (ptr : ℕ)

/-- A block comes into use, when there is one. -/
def Use.grant (u : Use) (ws : Ws) (p : Option ℕ) : Use :=
  { u with ws, blocks := u.blocks ++ (p.toList.map fun b => (b, ws.f)) }

/-- What lies above the free pointer is lost. -/
def Use.cut (u : Use) (ws : Ws) : Use :=
  { ws, snaps := u.snaps.filter (· ≤ ws.f), blocks := u.blocks.filter (·.2 ≤ ws.f) }

def wsStep (u : Use) : Op → Option Use
  | .alloc bytes => (wsAlloc u.ws bytes).map fun r => u.grant r.1 r.2
  | .dup s => (wsDup u.ws s).map fun r => u.grant r.1 r.2
  | .snapshot => (wsSnapshot u.ws).map fun p => { u with snaps := u.snaps ++ [p] }
  | .reset p => (wsReset u.ws p).map u.cut
  | .reserve bytes => (wsReserve u.ws bytes).map fun r => { u with ws := r.1 }
  | .release bytes => (wsRelease u.ws bytes).map fun ws => u.grant ws (some u.ws.f)
  | .releaseP ptr => (wsReleaseP u.ws ptr).map fun ws => u.grant ws (some u.ws.f)

/-- How the functions are called: nothing but a release while there is a reservation, a reset to a good snapshot, and no more
than there is is reserved or released. -/
def Op.Called (u : Use) : Op → Prop
  | .alloc _ => u.ws.r = none
  | .dup _ => u.ws.r = none
  | .snapshot => u.ws.r = none
  | .reset p => u.ws.r = none ∧ ∀ q ∈ p, q ∈ u.snaps
  | .reserve bytes => u.ws.r = none ∧ u.ws.f + bytes ≤ u.ws.e
  | .release bytes => ∃ r ∈ u.ws.r, u.ws.f + bytes ≤ r
  | .releaseP ptr => ∃ r ∈ u.ws.r, u.ws.f ≤ ptr ∧ ptr ≤ r

/-- The snapshot that the workspace is reset to was not taken when it was full. -/
def Op.Good (u : Use) : Op → Prop
  | .reset p => ∀ q ∈ p, q ≠ u.ws.e
  | _ => True

/-- The workspace is in order: the blocks follow each other up to the free pointer, and so do the snapshots. -/
structure WsOk (u : Use) : Prop where
  asserted : WsAssert u.ws
  small : u.ws.e < u.ws.s + 2 ^ 32
  snaps : ∀ p ∈ u.snaps, u.ws.s ≤ p ∧ p ≤ u.ws.f
  inside : ∀ b ∈ u.blocks, u.ws.s ≤ b.1 ∧ b.1 ≤ b.2 ∧ b.2 ≤ u.ws.f
  apart : u.blocks.Pairwise fun b c => b.2 ≤ c.1

end Callers

/-! ## Each step -/

section Steps

variable {u : Use} {ws : Ws}

theorem wsInit_ok {space len : ℕ} (hs : space ≠ 0) (hpos : 0 < len) (hlen : len < 2 ^ 32) :
    ∃ ws, wsInit space len = some ws ∧ WsOk ⟨ws, [], []⟩ := by
  have hassert : WsAssert ⟨space, space, none, space + len, 0⟩ :=
    ⟨hs, by simp only; omega, by simp only; omega, le_rfl, by simp only; omega, by simp⟩
  have hsmall : space + len < space + 2 ^ 32 := by omega
  exact ⟨_, if_pos ⟨hs, hassert⟩, hassert, hsmall, by simp, by simp, .nil⟩

/-- The free pointer goes up, and what it passes may be a block. -/
theorem WsOk.grant (h : WsOk u) {p : Option ℕ} (hws : WsAssert ws) (hs : ws.s = u.ws.s) (he : ws.e = u.ws.e)
    (hf : u.ws.f ≤ ws.f) (hp : ∀ b ∈ p, b = u.ws.f) : WsOk (u.grant ws p) := by
  have hlow := h.asserted.2.2.2.1
  have hnew : ∀ c ∈ p.toList.map fun b => (b, ws.f), c = (u.ws.f, ws.f) := by
    intro c hc
    obtain ⟨b, hb, rfl⟩ := List.mem_map.1 hc
    rw [hp b (Option.mem_toList.1 hb)]
  refine ⟨hws, ?_, fun q hq => ?_, fun b hb => ?_, ?_⟩
  · have hsmall := h.small
    show ws.e < ws.s + 2 ^ 32
    rw [hs, he]
    exact hsmall
  · have hq' := h.snaps q hq
    exact ⟨hs ▸ hq'.1, hq'.2.trans hf⟩
  · show ws.s ≤ b.1 ∧ b.1 ≤ b.2 ∧ b.2 ≤ ws.f
    rw [hs]
    rcases List.mem_append.1 hb with hb | hb
    · have hin := h.inside b hb
      exact ⟨hin.1, hin.2.1, hin.2.2.trans hf⟩
    · rw [hnew b hb]
      exact ⟨hlow, hf, le_rfl⟩
  · refine List.pairwise_append.2 ⟨h.apart, ?_, fun b hb c hc => ?_⟩
    · cases p with
      | none => exact .nil
      | some b => exact List.pairwise_singleton _ _
    · rw [hnew c hc]
      exact (h.inside b hb).2.2

/-- The free pointer goes down. -/
theorem WsOk.cut (h : WsOk u) (hws : WsAssert ws) (hs : ws.s = u.ws.s) (he : ws.e = u.ws.e) : WsOk (u.cut ws) := by
  refine ⟨hws, ?_, fun q hq => ?_, fun b hb => ?_, h.apart.filter _⟩
  · have hsmall := h.small
    show ws.e < ws.s + 2 ^ 32
    rw [hs, he]
    exact hsmall
  · obtain ⟨hq, hle⟩ := List.mem_filter.1 hq
    exact ⟨hs ▸ (h.snaps q hq).1, of_decide_eq_true hle⟩
  · obtain ⟨hb, hle⟩ := List.mem_filter.1 hb
    have hin := h.inside b hb
    exact ⟨hs ▸ hin.1, hin.2.1, of_decide_eq_true hle⟩

/-- The reservation changes, and nothing else. -/
theorem WsOk.reserved (h : WsOk u) {r : Option ℕ} (hws : WsAssert { u.ws with r }) : WsOk { u with ws := { u.ws with r } } :=
  ⟨hws, h.small, h.snaps, h.inside, h.apart⟩

theorem alloc_ok (h : WsOk u) (hr : u.ws.r = none) (bytes : ℕ) :
    ∃ r, wsAlloc u.ws bytes = some r ∧ WsOk (u.grant r.1 r.2) := by
  obtain ⟨h1, h2, h3, h4, h5, h6⟩ := h.asserted
  rw [wsAlloc, if_pos ⟨h.asserted, hr⟩]
  split
  · refine ⟨_, rfl, h.grant ⟨h1, h2, h3, h4, h5, h6⟩ rfl rfl le_rfl (by simp)⟩
  · rename_i hfits
    have hup : u.ws.s ≤ u.ws.f + bytes := by omega
    have hle : u.ws.f + bytes ≤ u.ws.e := Nat.le_of_not_lt hfits
    exact ⟨_, rfl, h.grant ⟨h1, h2, h3, hup, hle, h6⟩ rfl rfl (Nat.le_add_right _ _) (by simp)⟩

theorem reserve_ok (h : WsOk u) (hr : u.ws.r = none) {bytes : ℕ} (hb : u.ws.f + bytes ≤ u.ws.e) :
    ∃ r, wsReserve u.ws bytes = some r ∧ WsOk { u with ws := r.1 } := by
  obtain ⟨h1, h2, h3, h4, h5, h6⟩ := h.asserted
  have hsmall := h.small
  have hb2 : ∃ b2, (if bytes = 0 then (u.ws.e - u.ws.f) % 2 ^ 32 else bytes) = b2 ∧ u.ws.f + b2 ≤ u.ws.e ∧
      u.ws.s < u.ws.f + b2 := by
    refine ⟨_, rfl, ?_⟩
    split
    · rw [Nat.mod_eq_of_lt (by omega)]
      omega
    · omega
  obtain ⟨b2, hb2, hle, hlt⟩ := hb2
  rw [wsReserve, hb2, if_pos ⟨h.asserted, hr, hle⟩]
  refine ⟨_, rfl, h.reserved ⟨h1, h2, h3, h4, h5, ?_⟩⟩
  intro r hr
  obtain rfl := Option.some.inj hr
  exact ⟨hlt, hle⟩

/-- What is released is a block. -/
theorem released_ok (h : WsOk u) {r p : ℕ} (hr : r ∈ u.ws.r) (hf : u.ws.f ≤ p) (hp : p ≤ r) :
    WsOk (u.grant { u.ws with f := p, r := none } (some u.ws.f)) := by
  obtain ⟨h1, h2, h3, h4, h5, h6⟩ := h.asserted
  have hre := (h6 r hr).2
  exact h.grant ⟨h1, h2, h3, h4.trans hf, hp.trans hre, by simp⟩ rfl rfl hf (by simp)

theorem reset_ok (h : WsOk u) (hr : u.ws.r = none) {p : Option ℕ} (hp : ∀ q ∈ p, q ∈ u.snaps) (hgood : ∀ q ∈ p, q ≠ u.ws.e) :
    ∃ ws, wsReset u.ws p = some ws ∧ WsOk (u.cut ws) ∧ ws.f = p.getD u.ws.s := by
  obtain ⟨h1, h2, h3, h4, h5, h6⟩ := h.asserted
  cases p with
  | none => exact ⟨_, if_pos ⟨h.asserted, hr⟩, h.cut ⟨h1, h2, h3, le_rfl, h3.le, h6⟩ rfl rfl, rfl⟩
  | some q =>
    have hin := h.snaps q (hp q rfl)
    have hne := hgood q rfl
    have hlt : q < u.ws.e := by omega
    have hdef : wsReset u.ws (some q) = some { u.ws with f := q } :=
      (if_pos ⟨h.asserted, hr⟩).trans (if_pos ⟨hin.1, hlt⟩)
    exact ⟨_, hdef, h.cut ⟨h1, h2, h3, hin.1, hlt.le, h6⟩ rfl rfl, rfl⟩

theorem wsStep_ok {op : Op} (h : WsOk u) (hcalled : op.Called u) (hgood : op.Good u) :
    ∃ u', wsStep u op = some u' ∧ WsOk u' := by
  cases op with
  | alloc bytes =>
    obtain ⟨r, hr, hok⟩ := alloc_ok h hcalled bytes
    exact ⟨_, congrArg (Option.map _) hr, hok⟩
  | dup s =>
    obtain ⟨r, hr, hok⟩ := alloc_ok h hcalled ((s.length + 1) % 2 ^ 32)
    exact ⟨_, congrArg (Option.map _) hr, hok⟩
  | snapshot =>
    have hlow := h.asserted.2.2.2.1
    have hsnap : wsSnapshot u.ws = some u.ws.f := if_pos ⟨h.asserted, hcalled⟩
    refine ⟨_, congrArg (Option.map _) hsnap, h.asserted, h.small, fun q hq => ?_, h.inside, h.apart⟩
    rcases List.mem_append.1 hq with hq | hq
    · exact h.snaps q hq
    · rw [List.mem_singleton.1 hq]
      exact ⟨hlow, le_rfl⟩
  | reset p =>
    obtain ⟨ws, hws, hok, -⟩ := reset_ok h hcalled.1 hcalled.2 hgood
    exact ⟨_, congrArg (Option.map _) hws, hok⟩
  | reserve bytes =>
    obtain ⟨r, hr, hok⟩ := reserve_ok h hcalled.1 hcalled.2
    exact ⟨_, congrArg (Option.map _) hr, hok⟩
  | release bytes =>
    obtain ⟨r, hr, hle⟩ := hcalled
    have hre := (h.asserted.2.2.2.2.2 r hr).2
    have hdef : wsRelease u.ws bytes = some _ := if_pos ⟨h.asserted, by omega, r, hr, hle⟩
    exact ⟨_, congrArg (Option.map _) hdef, released_ok h hr (Nat.le_add_right _ _) hle⟩
  | releaseP ptr =>
    obtain ⟨r, hr, hlow, hle⟩ := hcalled
    have hdef : wsReleaseP u.ws ptr = some _ := if_pos ⟨h.asserted, r, hr, hlow, hle⟩
    exact ⟨_, congrArg (Option.map _) hdef, released_ok h hr hlow hle⟩

/-- A reset to a snapshot that was taken when the workspace was full fails. -/
theorem wsStep_bad {op : Op} (hbad : ¬ op.Good u) : wsStep u op = none := by
  cases op with
  | reset p =>
    cases p with
    | none => exact absurd (fun q hq => by cases hq) hbad
    | some q =>
      have hq : q = u.ws.e := by
        by_contra hne
        exact hbad fun q' hq' => by
          obtain rfl := Option.some.inj hq'
          exact hne
      have hno : wsReset u.ws (some q) = none := by
        unfold wsReset
        split
        · exact if_neg fun hlt => absurd hlt.2 (by omega)
        · rfl
      exact congrArg (Option.map _) hno
  | _ => exact absurd trivial hbad

end Steps

/-! ## Runs -/

section Runs

/-- In a run whose resets are good, the workspace is in order in each state.  Each call there is accepted, and leaves it in
order, if and only if it is good too; a reset puts the free pointer to where it was at the snapshot. -/
theorem reach_wsOk_iff {space len : ℕ} (hs : space ≠ 0) (hpos : 0 < len) (hlen : len < 2 ^ 32) :
    ∃ ws, wsInit space len = some ws ∧
      ∀ u, Reach wsStep (fun u op => op.Called u ∧ op.Good u) ⟨ws, [], []⟩ u → WsOk u ∧
        ∀ op, op.Called u → ((∃ u', wsStep u op = some u' ∧ WsOk u' ∧ ∀ p, op = .reset p → u'.ws.f = p.getD u.ws.s) ↔
          op.Good u) := by
  obtain ⟨ws, hws, hok⟩ := wsInit_ok hs hpos hlen
  refine ⟨ws, hws, fun u hu => ?_⟩
  have hu' : WsOk u := by
    refine hu.inv hok fun v op v' hv hop hstep => ?_
    obtain ⟨w, hw, hwok⟩ := wsStep_ok hv hop.1 hop.2
    rw [hstep] at hw
    rwa [Option.some.inj hw]
  refine ⟨hu', fun op hcalled => ⟨fun ⟨u', hstep, _⟩ => ?_, fun hgood => ?_⟩⟩
  · by_contra hbad
    rw [wsStep_bad hbad] at hstep
    cases hstep
  · obtain ⟨u', hstep, hok'⟩ := wsStep_ok hu' hcalled hgood
    refine ⟨u', hstep, hok', ?_⟩
    rintro p rfl
    obtain ⟨ws', hws', -, hf⟩ := reset_ok hu' hcalled.1 hcalled.2 hgood
    have hcut : wsStep u (.reset p) = some (u.cut ws') := congrArg (Option.map _) hws'
    rw [hcut] at hstep
    rw [← Option.some.inj hstep]
    exact hf

/-- A workspace of 16 bytes, at 1000. -/
theorem reach_wsOk_iff_small : ∃ ws, wsInit 1000 16 = some ws ∧
    ∀ u, Reach wsStep (fun u op => op.Called u ∧ op.Good u) ⟨ws, [], []⟩ u → WsOk u ∧
      ∀ op, op.Called u → ((∃ u', wsStep u op = some u' ∧ WsOk u' ∧ ∀ p, op = .reset p → u'.ws.f = p.getD u.ws.s) ↔
        op.Good u) :=
  reach_wsOk_iff (by decide) (by decide) (by decide)

/-- All bytes are allocated, and then the workspace is to be reset to where it is. -/
theorem reset_full : ∃ u, Reach wsStep (fun u op => op.Called u) ⟨⟨1000, 1000, none, 1016, 0⟩, [], []⟩ u ∧
    wsInit 1000 16 = some ⟨1000, 1000, none, 1016, 0⟩ ∧ Op.Called u (.reset (some 1016)) ∧
    wsStep u (.reset (some 1016)) = none := by
  have h1 : Reach wsStep (fun u op => Op.Called u op) ⟨⟨1000, 1000, none, 1016, 0⟩, [], []⟩ _ :=
    Reach.refl.tail (Op.alloc 16) rfl rfl
  have h2 := h1.tail Op.snapshot rfl rfl
  exact ⟨_, h2, rfl, ⟨rfl, fun q hq => by obtain rfl := Option.some.inj hq; decide⟩, rfl⟩

end Runs

end Varnish.Workspace
