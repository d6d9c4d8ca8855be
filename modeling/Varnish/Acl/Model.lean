import Varnish.Lib.CBlock
import Varnish.Lib.BitPrefix

/-!
# Varnish.Acl.Model — the ACL compiler of `vcc_acl.c`

`vcl_acl_cmp`, `vcc_acl_add_entry` and `vcc_acl_emit`.  The emitter's output is a list of `CLine`s, one for each
`Fh` call of its loop, and `matchAcl` executes them on a client address (`Varnish.Lib.CBlock`).  `Longest` is the
purpose of the component: the verdict of the most specific entry that contains the address.
-/

namespace Varnish.Acl

open Varnish.Lib

/-- `PF_INET` and `PF_INET6`. -/
inductive Fam where
  | inet
  | inet6
deriving DecidableEq, Repr

/-- The value of the address family constant (one byte, see the assertion `fam <= 0xff`). -/
def Fam.pf : Fam → UInt8
  | .inet => 2
  | .inet6 => 10

/-- The number of address bytes. -/
def Fam.len : Fam → ℕ
  | .inet => 4
  | .inet6 => 16

/-- An address of a family, with as many bytes as the family has. -/
structure Addr where
  fam : Fam
  bytes : List UInt8
  len : bytes.length = fam.len

/-- The address bytes with the family in front, the layout of `acl_e.data`. -/
def Addr.byte (a : Addr) (i : ℕ) : UInt8 := (a.fam.pf :: a.bytes).getD i 0

/-- `struct acl_e`, the fields that the sorting and the emitter read. -/
structure AclE where
  data : List UInt8
  mask : ℕ
  not : Bool
  tAddr : String
  tMask : Option String
deriving DecidableEq, Repr

/-- `ae->data[i]`. -/
def AclE.byte (ae : AclE) (i : ℕ) : UInt8 := ae.data.getD i 0

/-- The mask of the top `m` bits of a byte, `(0xff00 >> m) & 0xff`. -/
def topMask (m : ℕ) : UInt8 := UInt8.ofNat ((0xff00 >>> m) &&& 0xff)

/-- `CMP(a, b)`. -/
def cmp8 (a b : UInt8) : Ordering := if a < b then .lt else if b < a then .gt else .eq

/-- The loop of `vcl_acl_cmp` over `k` whole bytes from byte `i` on. -/
def cmpWhole (ae1 ae2 : AclE) : (k i : ℕ) → Ordering
  | 0, _ => .eq
  | k + 1, i => (cmp8 (ae1.byte i) (ae2.byte i)).then (cmpWhole ae1 ae2 k (i + 1))

/-- `vcl_acl_cmp`: compare on the shorter mask, then the longer mask is less. -/
def vclAclCmp (ae1 ae2 : AclE) : Ordering :=
  let m := min ae1.mask ae2.mask
  (cmpWhole ae1 ae2 (m / 8) 0).then <|
    (if m % 8 = 0 then .eq
      else cmp8 (ae1.byte (m / 8) &&& topMask (m % 8)) (ae2.byte (m / 8) &&& topMask (m % 8))).then <|
    if ae2.mask < ae1.mask then .lt else if ae1.mask < ae2.mask then .gt else .eq

/-! ## Adding entries -/

/-- An entry as the parser hands it to `vcc_acl_add_entry`. -/
structure Entry where
  addr : Addr
  mask : ℕ
  not : Bool
  tAddr : String
  tMask : Option String

/-- The errors that `vcc_acl_add_entry` reports. -/
inductive AclErr where
  | tooWide4 (mask : ℕ)
  | tooWide6 (mask : ℕ)
  | conflict (ae2 aen : AclE)
deriving DecidableEq, Repr

/-- The text printed to `tl->sb` (the token positions are printed by `vcc_ErrWhere`). -/
def AclErr.text : AclErr → String
  | .tooWide4 mask => "Too wide mask (" ++ toString mask ++ ") for IPv4 address"
  | .tooWide6 mask => "Too wide mask (" ++ toString mask ++ ") for IPv6 address"
  | .conflict ae2 aen => "Conflicting ACL entries:\n" ++ ae2.tAddr ++ "vs:\n" ++ aen.tAddr

/-- The copy of the template that is linked: the family is the first byte and counts in the mask. -/
def mkAclE (e : Entry) : AclE :=
  { data := e.addr.fam.pf :: e.addr.bytes, mask := e.mask + 8, not := e.not, tAddr := e.tAddr, tMask := e.tMask }

/-- The `VTAILQ_FOREACH` of `vcc_acl_add_entry`. -/
def aclInsert (aen : AclE) : List AclE → Except AclErr (List AclE)
  | [] => .ok [aen]
  | ae2 :: rest =>
    match vclAclCmp aen ae2 with
    | .eq => if aen.not = ae2.not then .ok (ae2 :: rest) else .error (.conflict ae2 aen)
    | .lt => .ok (aen :: ae2 :: rest)
    | .gt => do
      let rest' ← aclInsert aen rest
      .ok (ae2 :: rest')

/-- `vcc_acl_add_entry`. -/
def vccAclAddEntry (acl : List AclE) (e : Entry) : Except AclErr (List AclE) :=
  match e.addr.fam with
  | .inet => if 32 < e.mask then .error (.tooWide4 e.mask) else aclInsert (mkAclE e) acl
  | .inet6 => if 128 < e.mask then .error (.tooWide6 e.mask) else aclInsert (mkAclE e) acl

/-- The entries of one `acl` block, in source order, into an empty list; the first error stops. -/
def vccAclAddEntries (es : List Entry) : Except AclErr (List AclE) := es.foldlM vccAclAddEntry []

/-! ## The emitter -/

/-- The conditions the emitter prints: `fam == v`, `a[i] == v` and `(a[i] & m) == v`. -/
inductive AclCond where
  | fam (v : UInt8)
  | byte (i : ℕ) (v : UInt8)
  | masked (i : ℕ) (m v : UInt8)
deriving DecidableEq, Repr

/-- `VRT_acl_log(sp, ...)`: a match of an entry, or `NO_MATCH`. -/
inductive AclLog where
  | found (neg : Bool) (acln : String) (tAddr : String) (tMask : Option String)
  | noMatch (acln : String)
deriving DecidableEq, Repr

abbrev Line := CLine AclCond Bool AclLog

/-- The variables of the emitter's loop.  `depth` counts the open blocks (the source's `depth` plus one) and
`vals i` is `at[i]`, where 256 stands for a block that tests a fraction of a byte. -/
structure EmitSt where
  depth : ℕ
  vals : ℕ → ℕ

/-- `for (l = 0; l <= depth && l * 8 < ae->mask; l++) if (ae->data[l] != at[l]) break;` with `k` blocks to go. -/
def commonPrefix (ae : AclE) (vals : ℕ → ℕ) : (k l : ℕ) → ℕ
  | 0, l => l
  | k + 1, l => if l * 8 < ae.mask ∧ (ae.byte l).toNat = vals l then commonPrefix ae vals k (l + 1) else l

/-- The whole byte compare of byte `i`, `els` being the `else` in front of it. -/
def wholeLine (ae : AclE) (els : Bool) (i : ℕ) : Line :=
  if i = 0 then .opn els (.fam (ae.byte i)) else .opn els (.byte (i - 1) (ae.byte i))

/-- The loop that prints `k` whole byte compares from byte `i` on; only the first can have an `else`. -/
def wholeLines (ae : AclE) : (els : Bool) → (k i : ℕ) → List Line
  | _, 0, _ => []
  | els, k + 1, i => wholeLine ae els i :: wholeLines ae false k (i + 1)

/-- The fractional byte compare of the top `m` bits of byte `i`. -/
def fracLine (ae : AclE) (els : Bool) (i m : ℕ) : Line :=
  .opn els (.masked (i - 1) (topMask m) (ae.byte i &&& topMask m))

/-- The log call (not in anonymous lists) and the return of an entry. -/
def leafLines (acln : String) (anon : Bool) (ae : AclE) : List Line :=
  (if anon then [] else [.call (.found ae.not acln ae.tAddr ae.tMask)]) ++ [.ret !ae.not]

/-- One round of the emitter's loop: the lines printed for `ae`. -/
def emitLines (acln : String) (anon : Bool) (st : EmitSt) (ae : AclE) : List Line :=
  let l := commonPrefix ae st.vals st.depth 0
  let els := decide (l < st.depth)
  let m := ae.mask - l * 8
  let i := l + m / 8
  List.replicate (st.depth - l) .close ++
    wholeLines ae els (m / 8) l ++
    (if 0 < m % 8 then [fracLine ae (els && m / 8 == 0) i (m % 8)] else []) ++
    leafLines acln anon ae

/-- One round of the emitter's loop: `depth` and `at[]` afterwards. -/
def emitSt (st : EmitSt) (ae : AclE) : EmitSt :=
  let l := commonPrefix ae st.vals st.depth 0
  let m := ae.mask - l * 8
  { depth := l + m / 8 + (if 0 < m % 8 then 1 else 0)
    vals := fun j =>
      if l ≤ j ∧ j < l + m / 8 then (ae.byte j).toNat
      else if 0 < m % 8 ∧ j = l + m / 8 then 256
      else st.vals j }

/-- The `VTAILQ_FOREACH` of `vcc_acl_emit` and the unwinding after it. -/
def emitLoop (acln : String) (anon : Bool) : EmitSt → List AclE → List Line
  | st, [] => List.replicate st.depth .close
  | st, ae :: rest => emitLines acln anon st ae ++ emitLoop acln anon (emitSt st ae) rest

/-- Deny by default. -/
def defaultLines (acln : String) (anon : Bool) : List Line :=
  (if anon then [] else [.call (.noMatch acln)]) ++ [.ret false]

/-- `vcc_acl_emit`: the body of the matcher after the family switch, with the default at its end. -/
def vccAclEmit (acln : String) (anon : Bool) (acl : List AclE) : List Line :=
  emitLoop acln anon { depth := 0, vals := fun _ => 256 } acl ++ defaultLines acln anon

/-! ## Running the matcher -/

/-- The printed conditions on a client address. -/
def AclCond.holds (x : Addr) : AclCond → Bool
  | .fam v => x.byte 0 = v
  | .byte i v => x.byte (i + 1) = v
  | .masked i m v => x.byte (i + 1) &&& m = v

/-- The value the matcher returns, if it gets to a return statement. -/
def matchAcl (lines : List Line) (x : Addr) : Option Bool :=
  match cExec (AclCond.holds x) (.run 0) lines with
  | .done v => some v
  | _ => none

/-! ## What an ACL means -/

/-- `e` contains `x`: same family, and the same first `mask` address bits. -/
def Entry.Contains (e : Entry) (x : Addr) : Prop :=
  e.addr.fam = x.fam ∧ ∀ i < e.mask, bitOf (fun j => e.addr.bytes.getD j 0) i = bitOf (fun j => x.bytes.getD j 0) i

/-- `v` is the verdict for `x`: that of a containing entry of the longest prefix, `false` without one. -/
def Longest (es : List Entry) (x : Addr) (v : Bool) : Prop :=
  (∃ e ∈ es, e.Contains x ∧ (∀ e' ∈ es, e'.Contains x → e'.mask ≤ e.mask) ∧ v = !e.not) ∨
    ((∀ e ∈ es, ¬ e.Contains x) ∧ v = false)

end Varnish.Acl
