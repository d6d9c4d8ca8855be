import Varnish.Silo.Model

/-!
# Varnish.Silo.Sign — one signed copy of a table

* `Opened`: a copy has its header, a length and that many bytes.  `Signed`: and the digest of them.
* `Opened.chk_iff`: `smp_chk_sign` accepts a copy that is open if the digest is right.
* `appendSign_eq`, `resetSign_eq`: the writes of the functions, on a copy that is open.
* `Opened.extend`, `Opened.sign`, `opened_reset`: what these writes make of a copy.
-/

namespace Varnish.Silo

open Varnish.Lib

variable {sha : List UInt8 → List UInt8} {m : Mem} {c : Signctx} {body data : List UInt8} {ws : List Write} {lo hi : ℕ}

/-- What `smp_def_sign` asserts, and the sizes of the fields. -/
structure Signctx.Wf (c : Signctx) : Prop where
  id : c.id.length < 8
  unique : c.unique < 2 ^ 32
  addr : c.addr < 2 ^ 64

/-! ## The parts of a copy -/

section Parts

/-- Where the digest is. -/
def endOf (c : Signctx) (body : List UInt8) : ℕ := c.ss + 32 + body.length

def digest (sha : List UInt8 → List UInt8) (c : Signctx) (body : List UInt8) : List UInt8 :=
  sha (c.header ++ body ++ le 8 body.length)

/-- The copy holds `body`, which may not be signed yet. -/
structure Opened (m : Mem) (c : Signctx) (body : List UInt8) : Prop where
  head : rd m c.ss 24 = c.header
  length : rd m (c.ss + 24) 8 = le 8 body.length
  bytes : rd m (c.ss + 32) body.length = body
  small : body.length < 2 ^ 64

/-- The copy holds `body`, and is signed. -/
structure Signed (sha : List UInt8 → List UInt8) (m : Mem) (c : Signctx) (body : List UInt8) : Prop where
  opened : Opened m c body
  sign : rd m (endOf c body) 32 = digest sha c body

theorem Signctx.Wf.header_length (hc : c.Wf) : c.header.length = 24 := by
  have := hc.id
  simp only [Signctx.header, List.length_append, List.length_replicate, length_le, List.length_cons, List.length_nil]
  omega

theorem Opened.readLength (h : Opened m c body) : readLength m c = body.length := by
  rw [Silo.readLength, lengthOff, h.length, ofLe_le]
  have := h.small
  omega

theorem Opened.signedData (h : Opened m c body) : signedData m c = body := by
  rw [Silo.signedData, signData, signSize, h.readLength, h.bytes]

theorem Opened.signEnd (h : Opened m c body) : signEnd m c = endOf c body := by
  rw [Silo.signEnd, signData, signSize, h.readLength, endOf]

/-- The header passes the first three tests of `smp_chk_sign`. -/
theorem Opened.chk_iff (hc : c.Wf) (h : Opened m c body) :
    smpChkSign sha m c = 0 ↔ rd m (endOf c body) 32 = digest sha c body := by
  have hid := hc.id
  have h24 := h.head
  -- the header, cut where the fields are
  have hparts : rd m c.ss 8 = c.id ++ List.replicate (8 - c.id.length) 0 ∧ rd m (c.ss + 8) 4 = le 4 c.unique ∧
      rd m (c.ss + 16) 8 = le 8 c.addr := by
    rw [show 24 = 8 + (4 + (4 + 8)) by norm_num, rd_add, rd_add, rd_add, Signctx.header, List.append_assoc,
      List.append_assoc] at h24
    obtain ⟨h1, h24⟩ := List.append_inj h24 (by simp; omega)
    obtain ⟨h2, h24⟩ := List.append_inj h24 (by simp)
    obtain ⟨-, h4⟩ := List.append_inj h24 (by simp)
    exact ⟨h1, h2, h4⟩
  obtain ⟨h8, hu, ha⟩ := hparts
  have hident : rd m c.ss (c.id.length + 1) = c.id ++ [0] := by
    rw [show 8 = (c.id.length + 1) + (7 - c.id.length) by omega, rd_add] at h8
    have hrep : List.replicate (8 - c.id.length) (0 : UInt8) = [0] ++ List.replicate (7 - c.id.length) 0 := by
      rw [show 8 - c.id.length = 1 + (7 - c.id.length) by omega, List.replicate_add]
      rfl
    rw [show c.id.length + 1 + (7 - c.id.length) - c.id.length = 8 - c.id.length by omega, hrep, ← List.append_assoc] at h8
    exact (List.append_inj h8 (by simp)).1
  have hunique : ofLe (rd m (c.ss + 8) 4) = c.unique := by
    rw [hu, ofLe_le]
    have := hc.unique
    omega
  have haddr : ofLe (rd m (c.ss + 16) 8) = c.addr := by
    rw [ha, ofLe_le]
    have := hc.addr
    omega
  rw [digest, smpChkSign, if_neg (not_not.mpr hident), if_neg (not_not.mpr hunique), if_neg (not_not.mpr haddr), h.signEnd,
    h.signedData, lengthOff, h.head, h.length, shaLen]
  constructor
  · intro hr
    by_contra hne
    rw [if_pos (Ne.symm hne)] at hr
    cases hr
  · intro he
    rw [if_neg (not_not.mpr he.symm)]

theorem Signed.chk (hc : c.Wf) (h : Signed sha m c body) : smpChkSign sha m c = 0 := (h.opened.chk_iff hc).mpr h.sign

/-- Writes elsewhere leave a copy alone. -/
theorem Opened.frame (h : Opened m c body) (hws : Within lo hi ws) (hoff : endOf c body ≤ lo ∨ hi ≤ c.ss) :
    Opened (applyAll m ws) c body := by
  rw [endOf] at hoff
  refine ⟨?_, ?_, ?_, h.small⟩
  · rw [hws.rd_off (by omega), h.head]
  · rw [hws.rd_off (by omega), h.length]
  · rw [hws.rd_off (by omega), h.bytes]

theorem Signed.frame (h : Signed sha m c body) (hws : Within lo hi ws) (hoff : endOf c body + 32 ≤ lo ∨ hi ≤ c.ss) :
    Signed sha (applyAll m ws) c body := by
  refine ⟨h.opened.frame hws (by omega), ?_⟩
  rw [hws.rd_off, h.sign]
  rw [endOf] at hoff ⊢
  omega

end Parts

/-! ## The writes -/

section Writes

/-- The header that `smp_reset_sign` makes. -/
def headWrite (c : Signctx) : Write := ⟨c.ss, c.header ++ le 8 0⟩

def lengthWrite (c : Signctx) (n : ℕ) : Write := ⟨c.ss + 24, le 8 n⟩

def digestWrite (sha : List UInt8 → List UInt8) (c : Signctx) (body : List UInt8) : Write :=
  ⟨endOf c body, digest sha c body⟩

/-- The length of a longer body. -/
theorem Opened.extend (h : Opened m c body) (hd : rd m (endOf c body) data.length = data)
    (hsmall : (body ++ data).length < 2 ^ 64) :
    Opened (applyAll m [lengthWrite c (body ++ data).length]) c (body ++ data) := by
  refine ⟨?_, ?_, ?_, hsmall⟩
  · rw [applyAll_cons, applyAll_nil, lengthWrite, rd_wr_off (by simp), h.head]
  · rw [applyAll_cons, applyAll_nil, lengthWrite, rd_wr_of_eq (by simp)]
  · rw [applyAll_cons, applyAll_nil, lengthWrite, rd_wr_off (by simp), List.length_append, rd_add, h.bytes, ← endOf, hd]

/-- The digest of a body. -/
theorem Opened.sign (hsha : ∀ x, (sha x).length = 32) (h : Opened m c body) :
    Signed sha (applyAll m [digestWrite sha c body]) c body := by
  have hw : Within (endOf c body) (endOf c body + 32) [digestWrite sha c body] := by
    intro w hw
    rw [List.mem_singleton.mp hw]
    exact ⟨le_refl _, by simp [digestWrite, digest, hsha]⟩
  exact ⟨h.frame hw (.inl (le_refl _)), rd_wr_of_eq (hsha _)⟩

theorem opened_reset (hc : c.Wf) (m : Mem) : Opened (applyAll m [headWrite c]) c [] := by
  have hlen := hc.header_length
  have hall : rd (applyAll m [headWrite c]) c.ss 32 = c.header ++ le 8 0 := by
    refine rd_wr_of_eq ?_
    rw [headWrite, List.length_append, hlen, length_le]
  rw [show 32 = 24 + 8 by norm_num, rd_add] at hall
  obtain ⟨h1, h2⟩ := List.append_inj hall (by simp [hlen])
  exact ⟨h1, h2, rfl, by norm_num⟩

/-- **`smp_append_sign`** of what is behind the body. -/
theorem appendSign_eq (hsha : ∀ x, (sha x).length = 32) (hc : c.Wf) (h : Opened m c body)
    (hctx : c.ctx = c.header ++ body) (hd : rd m (endOf c body) data.length = data)
    (hsmall : (body ++ data).length < 2 ^ 64) :
    smpAppendSign sha m c (endOf c body) data.length =
      ((if data = [] then [] else [lengthWrite c (body ++ data).length]) ++ [digestWrite sha c (body ++ data)],
        some { c with ctx := c.header ++ (body ++ data) }) := by
  have hzero : data.length ≠ 0 ↔ ¬ data = [] := by rw [ne_eq, List.length_eq_zero_iff]
  -- the copy before the digest is written
  have hopen : Opened (applyAll m (if data = [] then [] else [lengthWrite c (body ++ data).length])) c (body ++ data) := by
    by_cases he : data = []
    · subst he
      rw [if_pos rfl, List.append_nil]
      exact h
    · rw [if_neg he]
      exact h.extend hd hsmall
  have hws : (if data.length ≠ 0 then [(⟨c.ss + lengthOff, le 8 (readLength m c + data.length)⟩ : Write)] else []) =
      if data = [] then [] else [lengthWrite c (body ++ data).length] := by
    by_cases he : data = []
    · rw [if_pos he, if_neg (not_not.mpr (List.length_eq_zero_iff.mpr he))]
    · rw [if_neg he, if_pos (hzero.mpr he), h.readLength, lengthWrite, List.length_append, lengthOff]
  have hctx' : (if data.length ≠ 0 then c.ctx ++ rd m (endOf c body) data.length else c.ctx) =
      c.header ++ (body ++ data) := by
    by_cases he : data = []
    · rw [if_neg (not_not.mpr (List.length_eq_zero_iff.mpr he)), hctx, he, List.append_nil]
    · rw [if_pos (hzero.mpr he), hctx, hd, List.append_assoc]
  have hsigned := hopen.sign hsha
  have hw : (⟨Silo.signEnd (applyAll m (if data = [] then [] else [lengthWrite c (body ++ data).length])) c,
      sha (c.header ++ (body ++ data) ++ rd (applyAll m (if data = [] then [] else [lengthWrite c (body ++ data).length]))
        (c.ss + lengthOff) 8)⟩ : Write) = digestWrite sha c (body ++ data) := by
    rw [hopen.signEnd, lengthOff, hopen.length]
    rfl
  rw [smpAppendSign]
  simp only [hws, hctx', hw]
  rw [if_pos (hsigned.chk hc), hsigned.opened.signedData, lengthOff, hsigned.opened.head]

/-- **`smp_reset_sign`** -/
theorem resetSign_eq (hsha : ∀ x, (sha x).length = 32) (hc : c.Wf) (m : Mem) :
    smpResetSign sha m c = ([headWrite c, digestWrite sha c []], some { c with ctx := c.header }) := by
  have h := opened_reset hc m
  have hc' : ({ c with ctx := c.header } : Signctx).Wf := ⟨hc.id, hc.unique, hc.addr⟩
  have h' : Opened (applyAll m [headWrite c]) { c with ctx := c.header } [] := ⟨h.head, h.length, h.bytes, h.small⟩
  have happ : smpAppendSign sha (applyAll m [headWrite c]) { c with ctx := c.header } 0 0 =
      smpAppendSign sha (applyAll m [headWrite c]) { c with ctx := c.header } (endOf c []) ([] : List UInt8).length := rfl
  have hnil : rd (applyAll m [headWrite c]) (endOf { c with ctx := c.header } []) ([] : List UInt8).length = [] := rfl
  have heq := appendSign_eq hsha hc' h' (by simp [Signctx.header]) hnil (by norm_num)
  rw [smpResetSign]
  simp only
  rw [show rd (applyAll m [(⟨c.ss, c.header ++ le 8 0⟩ : Write)]) c.ss lengthOff = c.header from h.head]
  rw [show applyAll m [(⟨c.ss, c.header ++ le 8 0⟩ : Write)] = applyAll m [headWrite c] from rfl, happ]
  rw [show endOf c [] = endOf { c with ctx := c.header } [] from rfl, heq]
  simp only [if_true, List.append_nil, List.nil_append]
  rfl

end Writes

end Varnish.Silo
