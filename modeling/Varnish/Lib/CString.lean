import Varnish.Lib.Ctype

/-!
# Varnish.Lib.CString — the string literals of C

A sequence of string literals, which the compiler joins, read character by character. Trigraphs are not replaced, as is
the default of the compilers.

* `next`: the reader, as an automaton.
* `cString`: what a text of string literals denotes.
* `cRun_plain`, `cRun_simple`, `cRun_octal`, `cRun_joined`: the characters, the escapes and the joints.
-/

namespace Varnish.Lib.CString

/-! ## The reader -/

section Reader

/-- Where the reader is. -/
inductive St
  /-- Between literals. -/
  | out
  | inside
  /-- Behind a backslash. -/
  | esc
  /-- In an octal escape that may go on for `k` digits. -/
  | oct (k v : ℕ)
  /-- In a hexadecimal escape. -/
  | hex (v : Option ℕ)
deriving DecidableEq

/-- A digit of the given base. -/
def digit (base : ℕ) (c : UInt8) : Option ℕ :=
  let d :=
    if 48 ≤ c.toNat ∧ c.toNat ≤ 57 then c.toNat - 48
    else if 97 ≤ c.toNat ∧ c.toNat ≤ 102 then c.toNat - 87
    else if 65 ≤ c.toNat ∧ c.toNat ≤ 70 then c.toNat - 55
    else base
  if d < base then some d else none

/-- The escapes of one letter. -/
def simple : List (UInt8 × UInt8) :=
  [(39, 39), (34, 34), (63, 63), (92, 92), (97, 7), (98, 8), (102, 12), (110, 10), (114, 13), (116, 9), (118, 11)]

/-- A character inside of a literal. -/
def nextInside (c : UInt8) : Option (List UInt8 × St) :=
  if c = 34 then some ([], .out)
  else if c = 92 then some ([], .esc)
  else if c = 10 then none
  else some ([c], .inside)

/-- The end of a numeric escape, which has to be a byte. -/
def flush (v : ℕ) (c : UInt8) : Option (List UInt8 × St) :=
  if v < 256 then (nextInside c).map fun r => (UInt8.ofNat v :: r.1, r.2) else none

/-- A character: the bytes that it completes. -/
def next : St → UInt8 → Option (List UInt8 × St)
  | .out, c => if c = 34 then some ([], .inside) else if bspace c then some ([], .out) else none
  | .inside, c => nextInside c
  | .esc, c =>
    match digit 8 c with
    | some d => some ([], .oct 2 d)
    | none => if c = 120 then some ([], .hex none) else (simple.lookup c).map fun b => ([b], .inside)
  | .oct 0 v, c => flush v c
  | .oct (k + 1) v, c =>
    match digit 8 c with
    | some d => some ([], .oct k (8 * v + d))
    | none => flush v c
  | .hex v, c =>
    match digit 16 c, v with
    | some d, _ => some ([], .hex (some (16 * v.getD 0 + d)))
    | none, some v => flush v c
    | none, none => none

/-- The bytes of a text. -/
def cRun : St → List UInt8 → Option (List UInt8)
  | st, [] => if st = .out then some [] else none
  | st, c :: t =>
    match next st c with
    | none => none
    | some r => (cRun r.2 t).map (r.1 ++ ·)

/-- What the literals of a text denote. -/
def cString : List UInt8 → Option (List UInt8)
  | [] => none
  | c :: t => if c = 34 then cRun .inside t else none

end Reader

/-! ## How it reads -/

section Lemmas

variable {c : UInt8} {t : List UInt8}

theorem cRun_plain (h1 : c ≠ 34) (h2 : c ≠ 92) (h3 : c ≠ 10) (t : List UInt8) :
    cRun .inside (c :: t) = (cRun .inside t).map (c :: ·) := by
  rw [cRun, next, nextInside, if_neg h1, if_neg h2, if_neg h3]
  rfl

theorem cRun_esc (t : List UInt8) : cRun .inside (92 :: t) = cRun .esc t := by
  rw [cRun]
  show (cRun .esc t).map ([] ++ ·) = _
  simp

theorem cRun_simple {b : UInt8} (hd : digit 8 c = none) (hx : c ≠ 120) (h : simple.lookup c = some b) (t : List UInt8) :
    cRun .inside (92 :: c :: t) = (cRun .inside t).map (b :: ·) := by
  rw [cRun_esc, cRun, next, hd]
  dsimp only
  rw [if_neg hx, h]
  rfl

/-- Three octal digits, whatever is behind them. -/
theorem cRun_octal {a b d : UInt8} {x y z : ℕ} (ha : digit 8 a = some x) (hb : digit 8 b = some y)
    (hd : digit 8 d = some z) (hv : 64 * x + 8 * y + z < 256) (ht : t ≠ []) :
    cRun .inside (92 :: a :: b :: d :: t) =
      (cRun .inside t).map (UInt8.ofNat (64 * x + 8 * y + z) :: ·) := by
  obtain ⟨c, t, rfl⟩ := List.exists_cons_of_ne_nil ht
  have hval : 8 * (8 * x + y) + z = 64 * x + 8 * y + z := by omega
  have hrun : cRun .inside (92 :: a :: b :: d :: c :: t) = cRun (.oct 0 (64 * x + 8 * y + z)) (c :: t) := by
    rw [cRun_esc, cRun, next, ha]
    dsimp only
    rw [cRun, next, hb]
    dsimp only
    rw [cRun, next, hd]
    dsimp only
    rw [hval]
    simp
  rw [hrun, cRun, next, flush, if_pos hv, cRun, next]
  cases nextInside c with
  | none => rfl
  | some r =>
    dsimp only [Option.map_some]
    rw [Option.map_map]
    rfl

/-- The end of a literal, white space, and the next one. -/
theorem cRun_joined {ws : List UInt8} (h : ∀ c ∈ ws, bspace c = true ∧ c ≠ 34) (t : List UInt8) :
    cRun .inside (34 :: (ws ++ 34 :: t)) = cRun .inside t := by
  have hout : ∀ ws : List UInt8, (∀ c ∈ ws, bspace c = true ∧ c ≠ 34) → cRun .out (ws ++ 34 :: t) = cRun .inside t := by
    intro ws hws
    induction ws with
    | nil =>
      rw [List.nil_append, cRun]
      show (cRun .inside t).map ([] ++ ·) = _
      simp
    | cons c ws ih =>
      obtain ⟨hsp, hq⟩ := hws c (List.mem_cons_self ..)
      rw [List.cons_append, cRun, next, if_neg hq, if_pos hsp]
      dsimp only
      rw [ih fun c hc => hws c (List.mem_cons_of_mem _ hc)]
      simp
  rw [cRun]
  show (cRun .out (ws ++ 34 :: t)).map ([] ++ ·) = _
  rw [hout ws h]
  simp

end Lemmas

end Varnish.Lib.CString
