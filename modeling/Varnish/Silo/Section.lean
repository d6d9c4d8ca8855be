import Varnish.Sha.Model
import Varnish.Silo.Tables

/-!
# Varnish.Silo.Section — a signed section over its life

* `SectOp`: blocks and bans are appended, and the context is made again as when the silo is reopened.
* `sectStep`: what these do, a failed `XXXAZ` included.
* `SectInv`: the section holds its blocks, is signed, and the context is ready for the next one.
* `section_roundtrip`: every section is accepted and holds what was appended, and its bans are read back.
-/

namespace Varnish.Silo

open Varnish.Lib

/-! ## Operations -/

section Operations

/-- An operation on a section. -/
inductive SectOp
  /-- A block is put behind the section, and `smp_append_sign`. -/
  | append (data : List UInt8)
  /-- `smp_appendban`, as `SMP_NewBan` calls it. -/
  | appendban (b : Ban)
  /-- `smp_def_sign` and `smp_chk_sign`, where `junk` is left in the context. -/
  | reopen (junk : List UInt8)

/-- What the operation appends. -/
def SectOp.bytes : SectOp → List UInt8
  | .append data => data
  | .appendban b => b.record
  | .reopen _ => []

def SectOp.isAppend : SectOp → Bool
  | .append _ => true
  | _ => false

def SectOp.ban : SectOp → Option Ban
  | .appendban b => some b
  | _ => none

/-- The silo, and the context of the section. -/
structure Sect where
  mem : Mem
  ctx : Signctx

/-- The bytes of all operations. -/
def sectBytes (ops : List SectOp) : List UInt8 := (ops.map SectOp.bytes).flatten

variable (sha : List UInt8 → List UInt8)

/-- The state after some writes, unless the program has stopped. -/
def wrote (m : Mem) (r : List Write × Option Signctx) : Option Sect := r.2.map fun c => ⟨applyAll m r.1, c⟩

/-- `smp_chk_sign` with the context that it leaves. -/
def smpChkSignCtx (m : Mem) (c : Signctx) : ℕ × Signctx :=
  let r := smpChkSign sha m c
  (r, if r = 0 ∨ r = 4 then { c with ctx := rd m c.ss lengthOff ++ signedData m c } else c)

/-- The section is made again from its place and its name. -/
def reopenSect (s : Sect) (junk : List UInt8) : Option Sect :=
  let r := smpChkSignCtx sha s.mem { s.ctx with ctx := junk }
  if r.1 = 0 then some ⟨s.mem, r.2⟩ else none

/-- A step. -/
def sectStep (s : Sect) : SectOp → Option Sect
  | .append data =>
    let m := applyAll s.mem [⟨signEnd s.mem s.ctx, data⟩]
    wrote m (smpAppendSign sha m s.ctx (signEnd s.mem s.ctx) (data.length % 2 ^ 32))
  | .appendban b =>
    wrote s.mem (smpAppendban sha s.mem s.ctx b.t0 0 ((b.text.length + 1) % 2 ^ 32) (b.text ++ [0]))
  | .reopen junk => reopenSect sha s junk

/-- A section from its `smp_reset_sign` on. -/
def sectRun (m : Mem) (c : Signctx) (ops : List SectOp) : Option Sect :=
  (wrote m (smpResetSign sha m c)).bind fun s => ops.foldlM (sectStep sha) s

end Operations

/-! ## The invariant -/

section Invariant

variable {sha : List UInt8 → List UInt8} {c : Signctx} {s : Sect} {body : List UInt8}

/-- The section at the place of `c` holds `body`. -/
structure SectInv (sha : List UInt8 → List UInt8) (c : Signctx) (body : List UInt8) (s : Sect) : Prop where
  signed : Signed sha s.mem c body
  ctx : s.ctx = { c with ctx := c.header ++ body }

/-- The context does not matter for what a section holds. -/
theorem Opened.withCtx {m : Mem} (h : Opened m c body) (x : List UInt8) : Opened m { c with ctx := x } body :=
  ⟨h.head, h.length, h.bytes, h.small⟩

theorem Signctx.Wf.withCtx (h : c.Wf) (x : List UInt8) : ({ c with ctx := x } : Signctx).Wf := ⟨h.id, h.unique, h.addr⟩

theorem chkSign_withCtx (m : Mem) (c : Signctx) (x : List UInt8) :
    smpChkSign sha m { c with ctx := x } = smpChkSign sha m c := rfl

theorem SectInv.chk (hc : c.Wf) (h : SectInv sha c body s) :
    smpChkSign sha s.mem s.ctx = 0 ∧ signedData s.mem s.ctx = body := by
  rw [h.ctx, chkSign_withCtx]
  exact ⟨h.signed.chk hc, h.signed.opened.signedData⟩

theorem sectInv_reset (hsha : ∀ x, (sha x).length = 32) (hc : c.Wf) (m : Mem) :
    ∃ s, wrote m (smpResetSign sha m c) = some s ∧ SectInv sha c [] s := by
  rw [resetSign_eq hsha hc]
  refine ⟨_, rfl, ?_, ?_⟩
  · have h := (opened_reset hc m).sign hsha
    rw [← applyAll_append] at h
    exact h
  · rw [List.append_nil]

/-- **`smp_append_sign`** of a block. -/
theorem SectInv.append (hsha : ∀ x, (sha x).length = 32) (hc : c.Wf) (h : SectInv sha c body s) {data : List UInt8}
    (hdata : data.length < 2 ^ 32) (hsmall : (body ++ data).length < 2 ^ 64) :
    ∃ s', sectStep sha s (.append data) = some s' ∧ SectInv sha c (body ++ data) s' := by
  obtain ⟨m, ctx⟩ := s
  obtain rfl : ctx = { c with ctx := c.header ++ body } := h.ctx
  have hend : signEnd m { c with ctx := c.header ++ body } = endOf c body := (h.signed.opened.withCtx _).signEnd
  have hw : Within (endOf c body) (endOf c body + data.length) [(⟨endOf c body, data⟩ : Write)] := by
    intro w hw
    rw [List.mem_singleton.1 hw]
    exact ⟨le_refl _, le_refl _⟩
  have hopen := h.signed.opened.frame hw (.inl (le_refl _))
  have hrd : rd (applyAll m [⟨endOf c body, data⟩]) (endOf c body) data.length = data := rd_wr_of_eq rfl
  have happ := appendSign_eq hsha (hc.withCtx (c.header ++ body)) (hopen.withCtx _) rfl hrd hsmall
  refine ⟨⟨applyAll (applyAll m [⟨endOf c body, data⟩])
    ((if data = [] then [] else [lengthWrite c (body ++ data).length]) ++ [digestWrite sha c (body ++ data)]),
    { c with ctx := c.header ++ (body ++ data) }⟩, ?_, ?_, rfl⟩
  · show wrote (applyAll m [⟨signEnd m { c with ctx := c.header ++ body }, data⟩])
      (smpAppendSign sha (applyAll m [⟨signEnd m { c with ctx := c.header ++ body }, data⟩])
        { c with ctx := c.header ++ body } (signEnd m { c with ctx := c.header ++ body }) (data.length % 2 ^ 32)) = _
    rw [hend, Nat.mod_eq_of_lt hdata]
    show wrote _ (smpAppendSign sha _ _ (endOf { c with ctx := c.header ++ body } body) data.length) = _
    rw [happ]
    rfl
  · rw [applyAll_append]
    by_cases he : data = []
    · subst he
      rw [if_pos rfl, applyAll_nil]
      rw [List.append_nil]
      exact hopen.sign hsha
    · rw [if_neg he]
      exact (hopen.extend hrd hsmall).sign hsha

/-- **`smp_appendban`** -/
theorem SectInv.appendban (hsha : ∀ x, (sha x).length = 32) (hc : c.Wf) (h : SectInv sha c body s) {b : Ban}
    (hrec : b.record.length < 2 ^ 32) (hsmall : (body ++ b.record).length < 2 ^ 64) :
    ∃ s', sectStep sha s (.appendban b) = some s' ∧ SectInv sha c (body ++ b.record) s' := by
  obtain ⟨m, ctx⟩ := s
  obtain rfl : ctx = { c with ctx := c.header ++ body } := h.ctx
  have happ := appendban_eq hsha (hc.withCtx (c.header ++ body)) (h.signed.opened.withCtx _) rfl hrec hsmall
  refine ⟨⟨applyAll m (banWrites sha c body b), { c with ctx := c.header ++ (body ++ b.record) }⟩, ?_, ?_, rfl⟩
  · show wrote m _ = _
    rw [happ]
    rfl
  · exact signed_banWrites hsha h.signed.opened hsmall

/-- **A section that is opened again** -/
theorem SectInv.reopen (hc : c.Wf) (h : SectInv sha c body s) (junk : List UInt8) :
    ∃ s', sectStep sha s (.reopen junk) = some s' ∧ SectInv sha c body s' := by
  obtain ⟨m, ctx⟩ := s
  obtain rfl : ctx = { c with ctx := c.header ++ body } := h.ctx
  have hchk : smpChkSign sha m c = 0 := h.signed.chk hc
  refine ⟨⟨m, { c with ctx := c.header ++ body }⟩, ?_, h.signed, rfl⟩
  show (if smpChkSign sha m { c with ctx := junk } = 0 then _ else _) = _
  rw [chkSign_withCtx, if_pos hchk]
  show some (Sect.mk m (if smpChkSign sha m { c with ctx := junk } = 0 ∨ smpChkSign sha m { c with ctx := junk } = 4 then
    { c with ctx := rd m c.ss lengthOff ++ signedData m c } else _)) = _
  rw [chkSign_withCtx, if_pos (.inl hchk), lengthOff, h.signed.opened.head, h.signed.opened.signedData]

end Invariant

/-! ## The round trip -/

section Roundtrip

variable {sha : List UInt8 → List UInt8} {c : Signctx} {s : Sect} {body : List UInt8}

theorem SectInv.step (hsha : ∀ x, (sha x).length = 32) (hc : c.Wf) (h : SectInv sha c body s) (op : SectOp)
    (hop : op.bytes.length < 2 ^ 32) (hsmall : (body ++ op.bytes).length < 2 ^ 64) :
    ∃ s', sectStep sha s op = some s' ∧ SectInv sha c (body ++ op.bytes) s' := by
  cases op with
  | append data => exact h.append hsha hc hop hsmall
  | appendban b => exact h.appendban hsha hc hop hsmall
  | reopen junk =>
    rw [SectOp.bytes, List.append_nil]
    exact h.reopen hc junk

theorem SectInv.run (hsha : ∀ x, (sha x).length = 32) (hc : c.Wf) (ops : List SectOp)
    (hops : ∀ op ∈ ops, op.bytes.length < 2 ^ 32) {body : List UInt8} {s : Sect} (h : SectInv sha c body s)
    (hsmall : (body ++ sectBytes ops).length < 2 ^ 64) :
    ∃ s', ops.foldlM (sectStep sha) s = some s' ∧ SectInv sha c (body ++ sectBytes ops) s' := by
  induction ops generalizing body s with
  | nil =>
    refine ⟨s, rfl, ?_⟩
    rw [show sectBytes [] = [] from rfl, List.append_nil]
    exact h
  | cons op ops ih =>
    have hcons : sectBytes (op :: ops) = op.bytes ++ sectBytes ops := rfl
    rw [hcons, ← List.append_assoc] at hsmall ⊢
    have hle : (body ++ op.bytes).length < 2 ^ 64 := by
      rw [List.length_append] at hsmall
      omega
    obtain ⟨s₁, hs₁, h₁⟩ := h.step hsha hc op (hops op (List.mem_cons_self ..)) hle
    obtain ⟨s₂, hs₂, h₂⟩ := ih (fun op hop => hops op (List.mem_cons_of_mem _ hop)) h₁ hsmall
    refine ⟨s₂, ?_, h₂⟩
    rw [List.foldlM_cons, hs₁]
    exact hs₂

/-- Without other blocks, a section has the records of its bans. -/
theorem sectBytes_bans {ops : List SectOp} (h : ∀ op ∈ ops, op.isAppend = false) :
    sectBytes ops = banBody (ops.filterMap SectOp.ban) := by
  induction ops with
  | nil => rfl
  | cons op ops ih =>
    have hops := ih fun op hop => h op (List.mem_cons_of_mem _ hop)
    have hcons : sectBytes (op :: ops) = op.bytes ++ sectBytes ops := rfl
    rw [hcons, hops]
    cases op with
    | append data => exact absurd (h _ (List.mem_cons_self ..)) (by simp [SectOp.isAppend])
    | appendban b => rfl
    | reopen junk => rfl

/-- **Signed sections round-trip**: whatever is appended after `smp_reset_sign`, with the context made again at any time,
`smp_chk_sign` accepts the section, it holds what was appended, and if that were bans, `smp_open_bans` reads them back; for
any hash function with digests of 32 bytes, and as long as the section with its digest is in the address space. -/
theorem section_roundtrip (hsha : ∀ x, (sha x).length = 32) (hc : c.Wf) (m : Mem) (ops : List SectOp)
    (hops : ∀ op ∈ ops, op.bytes.length < 2 ^ 32) (hfit : c.addr + 32 + (sectBytes ops).length + 32 ≤ 2 ^ 64) :
    ∃ s, sectRun sha m c ops = some s ∧ smpChkSign sha s.mem s.ctx = 0 ∧ signedData s.mem s.ctx = sectBytes ops ∧
      ((∀ op ∈ ops, op.isAppend = false) → smpOpenBans sha s.mem s.ctx = (0, ops.filterMap SectOp.ban)) := by
  obtain ⟨s₀, hs₀, h₀⟩ := sectInv_reset hsha hc m
  obtain ⟨s, hs, h⟩ := h₀.run hsha hc ops hops (by rw [List.nil_append]; omega)
  rw [List.nil_append] at h
  obtain ⟨hchk, hdata⟩ := h.chk hc
  refine ⟨s, ?_, hchk, hdata, ?_⟩
  · unfold sectRun
    rw [hs₀]
    exact hs
  · intro hbans
    have hopen := h.signed.opened
    rw [sectBytes_bans hbans] at hopen
    apply openBans_opened _ _ hchk
    · rw [h.ctx]
      exact hopen.withCtx _
    · intro b hb
      obtain ⟨op, hop, hban⟩ := List.mem_filterMap.1 hb
      cases op with
      | append data => simp [SectOp.ban] at hban
      | appendban b' =>
        obtain rfl : b' = b := by simpa [SectOp.ban] using hban
        exact hops _ hop
      | reopen junk => simp [SectOp.ban] at hban

/-- The hash of `vsha256.c`. -/
def sha256 (x : List UInt8) : List UInt8 :=
  Sha.sha256Final (Sha.sha256Update (Sha.sha256Init (Vector.replicate 64 0)) x)

theorem length_sha256 (x : List UInt8) : (sha256 x).length = 32 := by
  rw [sha256, Sha.sha256Final, Sha.be32encVect, List.length_flatMap]
  have hword : ∀ u : UInt32, (Sha.mybe32enc u).length = 4 := fun _ => rfl
  simp [hword]

/-- The section of some ban table. -/
def someSection : Signctx := ⟨4096, 4096, 7, [66, 65, 78, 32, 49], []⟩

def someBan : Ban := ⟨1, [97], by simp⟩

/-- A ban, the silo opened again, and another ban. -/
theorem section_roundtrip_twice : ∃ s,
    sectRun sha256 (fun _ => 0) someSection [.appendban someBan, .reopen [], .appendban someBan] = some s ∧
      smpOpenBans sha256 s.mem s.ctx = (0, [someBan, someBan]) := by
  obtain ⟨s, hs, -, -, hopen⟩ := @section_roundtrip sha256 someSection length_sha256
    ⟨by decide, by decide, by decide⟩ (fun _ => 0) [.appendban someBan, .reopen [], .appendban someBan] (by decide)
    (by decide)
  exact ⟨s, hs, hopen (by decide)⟩

end Roundtrip

end Varnish.Silo
