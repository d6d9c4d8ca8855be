import Mathlib.Data.List.Basic

/-!
# Varnish.Lib.CText — reading a text of C statements

* `readLevel`: the expressions of C, with the precedence of its binary operators; `readStmt`, `readItems`: statements.
* `Expr.eval`, `Stmt.exec`: what they do in a machine that is given by its primary expressions and simple statements.
* `Reads`, `Closed`, `ReadsStmt`, `Items`: which texts are read as what, wherever they stand; one rule for each form.

A primary expression (a name, a constant, a call) is one token, and so is a simple statement with its semicolon.
-/

namespace Varnish.Lib.CText

variable {P A S : Type}

/-! ## Syntax -/

section Syntax

inductive BinOp
  | comma
  | lor
  | land
  | eq
  | ne
  | lt
  | gt
  | le
  | ge
deriving DecidableEq, Repr

/-- The precedence, from the weakest. -/
def BinOp.level : BinOp → ℕ
  | .comma => 0
  | .lor => 1
  | .land => 2
  | .eq => 3
  | .ne => 3
  | .lt => 4
  | .gt => 4
  | .le => 4
  | .ge => 4

/-- The level above all binary operators. -/
def unaryLevel : ℕ := 5

inductive Tok (P A : Type)
  | prim (p : P)
  | bin (op : BinOp)
  | not
  | lpar
  | rpar
  | semi
  | lbrace
  | rbrace
  | kif
  | kelse
  | stmt (a : A)
deriving DecidableEq, Repr

inductive Expr (P : Type)
  | prim (p : P)
  | not (e : Expr P)
  | bin (op : BinOp) (a b : Expr P)
deriving DecidableEq, Repr

inductive Stmt (P A : Type)
  | skip
  | simple (a : A)
  | expr (e : Expr P)
  | seq (s t : Stmt P A)
  | ite (e : Expr P) (s t : Stmt P A)
deriving DecidableEq, Repr

end Syntax

/-! ## The grammar -/

section Grammar

def Tok.skipRpar : List (Tok P A) → Option (List (Tok P A))
  | .rpar :: ts => some ts
  | _ => none

def Tok.skipRbrace : List (Tok P A) → Option (List (Tok P A))
  | .rbrace :: ts => some ts
  | _ => none

def Tok.skipSemi : List (Tok P A) → Option (List (Tok P A))
  | .semi :: ts => some ts
  | _ => none

mutual

def readUnary : ℕ → List (Tok P A) → Option (Expr P × List (Tok P A))
  | _ + 1, .prim p :: ts => some (.prim p, ts)
  | n + 1, .not :: ts => do
    let r ← readUnary n ts
    some (.not r.1, r.2)
  | n + 1, .lpar :: ts => do
    let r ← readLevel n 0 ts
    let ts ← Tok.skipRpar r.2
    some (r.1, ts)
  | _, _ => none

/-- An expression whose operators are of level `l` and above. -/
def readLevel : ℕ → ℕ → List (Tok P A) → Option (Expr P × List (Tok P A))
  | 0, _, _ => none
  | n + 1, l, ts =>
    if l = unaryLevel then readUnary n ts
    else do
      let r ← readLevel n (l + 1) ts
      readTail n l r.1 r.2

/-- The operators of level `l` behind `e`; they associate to the left. -/
def readTail : ℕ → ℕ → Expr P → List (Tok P A) → Option (Expr P × List (Tok P A))
  | n + 1, l, e, .bin op :: ts =>
    if op.level = l then do
      let r ← readLevel n (l + 1) ts
      readTail n l (.bin op e r.1) r.2
    else some (e, .bin op :: ts)
  | _ + 1, _, e, ts => some (e, ts)
  | 0, _, _, _ => none

end

mutual

/-- A statement; an `else` belongs to the nearest `if`. -/
def readStmt : ℕ → List (Tok P A) → Option (Stmt P A × List (Tok P A))
  | 0, _ => none
  | _ + 1, .stmt a :: ts => some (.simple a, ts)
  | n + 1, .lbrace :: ts => do
    let r ← readItems n ts
    let ts ← Tok.skipRbrace r.2
    some (r.1, ts)
  | n + 1, .kif :: .lpar :: ts => do
    let r ← readLevel n 0 ts
    let ts ← Tok.skipRpar r.2
    let s ← readStmt n ts
    readElse n r.1 s.1 s.2
  | n + 1, ts => do
    let r ← readLevel n 0 ts
    let ts ← Tok.skipSemi r.2
    some (.expr r.1, ts)

def readElse : ℕ → Expr P → Stmt P A → List (Tok P A) → Option (Stmt P A × List (Tok P A))
  | n + 1, e, s, .kelse :: ts => do
    let t ← readStmt n ts
    some (.ite e s t.1, t.2)
  | _ + 1, e, s, ts => some (.ite e s .skip, ts)
  | 0, _, _, _ => none

/-- The statements up to the end of the text, or of the block. -/
def readItems : ℕ → List (Tok P A) → Option (Stmt P A × List (Tok P A))
  | 0, _ => none
  | _ + 1, [] => some (.skip, [])
  | _ + 1, .rbrace :: ts => some (.skip, .rbrace :: ts)
  | n + 1, ts => do
    let s ← readStmt n ts
    let r ← readItems n s.2
    some (.seq s.1 r.1, r.2)

end

end Grammar

/-! ## Meaning -/

section Meaning

/-- What a C program runs in: `stmt` says if the statement returns from the function. -/
structure Machine (P A S : Type) where
  Val : Type
  truth : Val → Bool
  ofBool : Bool → Val
  truth_ofBool : ∀ b, truth (ofBool b) = b
  prim : P → S → Val × S
  cmp : BinOp → Val → Val → Bool
  stmt : A → S → Bool × S

attribute [simp] Machine.truth_ofBool

variable (M : Machine P A S)

/-- `||` and `&&` evaluate their right side only where the left side has not decided. -/
def Expr.eval : Expr P → S → M.Val × S
  | .prim p, s => M.prim p s
  | .not e, s => (M.ofBool (!M.truth (e.eval s).1), (e.eval s).2)
  | .bin op a b, s =>
    match op with
    | .comma => b.eval (a.eval s).2
    | .lor =>
      if M.truth (a.eval s).1 then (M.ofBool true, (a.eval s).2)
      else (M.ofBool (M.truth (b.eval (a.eval s).2).1), (b.eval (a.eval s).2).2)
    | .land =>
      if M.truth (a.eval s).1 then (M.ofBool (M.truth (b.eval (a.eval s).2).1), (b.eval (a.eval s).2).2)
      else (M.ofBool false, (a.eval s).2)
    | op => (M.ofBool (M.cmp op (a.eval s).1 (b.eval (a.eval s).2).1), (b.eval (a.eval s).2).2)

/-- The truth of a condition, and the state behind it. -/
def Expr.test (e : Expr P) (s : S) : Bool × S := (M.truth (e.eval M s).1, (e.eval M s).2)

theorem Expr.test_not (e : Expr P) (s : S) : (Expr.not e).test M s = (!(e.test M s).1, (e.test M s).2) := by
  simp only [Expr.test, Expr.eval, Machine.truth_ofBool]

theorem Expr.test_land (a b : Expr P) (s : S) :
    (Expr.bin .land a b).test M s = if (a.test M s).1 then b.test M (a.test M s).2 else (false, (a.test M s).2) := by
  simp only [Expr.test, Expr.eval]
  by_cases h : M.truth (a.eval M s).1 = true <;> simp [h]

theorem Expr.test_lor (a b : Expr P) (s : S) :
    (Expr.bin .lor a b).test M s = if (a.test M s).1 then (true, (a.test M s).2) else b.test M (a.test M s).2 := by
  simp only [Expr.test, Expr.eval]
  by_cases h : M.truth (a.eval M s).1 = true <;> simp [h]

/-- What follows, where nothing has returned. -/
def andThen (r : Bool × S) (k : S → Bool × S) : Bool × S := if r.1 then r else k r.2

def Stmt.exec : Stmt P A → S → Bool × S
  | .skip, s => (false, s)
  | .simple a, s => M.stmt a s
  | .expr e, s => (false, (e.eval M s).2)
  | .seq s t, x => andThen (s.exec x) t.exec
  | .ite e s t, x => if (e.test M x).1 then s.exec (e.test M x).2 else t.exec (e.test M x).2

variable {M}

theorem andThen_assoc (r : Bool × S) (k l : S → Bool × S) :
    andThen (andThen r k) l = andThen r fun x => andThen (k x) l := by
  unfold andThen
  by_cases h : r.1 = true
  · simp only [h, if_true]
  · simp only [h, Bool.false_eq_true, if_false]

@[simp] theorem andThen_false (x : S) (k : S → Bool × S) : andThen (false, x) k = k x := rfl

theorem andThen_skip (r : Bool × S) : andThen r (fun x => (false, x)) = r := by
  obtain ⟨b, x⟩ := r
  cases b <;> rfl

/-- Statements, one behind the other, and then `t`. -/
def Stmt.seqs (ss : List (Stmt P A)) (t : Stmt P A) : Stmt P A := ss.foldr .seq t

theorem Stmt.exec_seqs (ss : List (Stmt P A)) (t : Stmt P A) (x : S) :
    (Stmt.seqs ss t).exec M x = andThen ((Stmt.seqs ss .skip).exec M x) (t.exec M) := by
  induction ss generalizing x with
  | nil => rfl
  | cons s ss ih =>
    have hseq (u : Stmt P A) : (Stmt.seqs (s :: ss) u).exec M x = andThen (s.exec M x) ((Stmt.seqs ss u).exec M) := rfl
    rw [hseq, hseq, andThen_assoc]
    exact congrArg (andThen (s.exec M x)) (funext ih)

theorem Stmt.exec_seqs_append (ss ss' : List (Stmt P A)) (x : S) :
    (Stmt.seqs (ss ++ ss') .skip).exec M x
      = andThen ((Stmt.seqs ss .skip).exec M x) ((Stmt.seqs ss' .skip).exec M) := by
  rw [← exec_seqs, seqs, seqs, seqs, List.foldr_append]

end Meaning

/-! ## Reading expressions -/

section Expressions

variable {l : ℕ} {ts us : List (Tok P A)} {a b e : Expr P}

/-- No operator of level `l` or above stands first. -/
def Stops (l : ℕ) (ts : List (Tok P A)) : Prop := ∀ op us, ts = .bin op :: us → op.level < l

/-- The text is a unary expression, whatever follows. -/
def ReadsUnary (ts : List (Tok P A)) (e : Expr P) : Prop :=
  ∃ k, ∀ n rest, k ≤ n → readUnary n (ts ++ rest) = some (e, rest)

/-- The text is an expression of level `l`, where no operator of this level follows. -/
def Reads (l : ℕ) (ts : List (Tok P A)) (e : Expr P) : Prop :=
  ∃ k, ∀ n rest, k ≤ n → Stops l rest → readLevel n l (ts ++ rest) = some (e, rest)

/-- The text is an expression of level `l`, and the left side of the operators of this level that follow. -/
def LeftSide (l : ℕ) (ts : List (Tok P A)) (e : Expr P) : Prop :=
  ∃ j k, ∀ n rest, k ≤ n → Stops (l + 1) rest → readLevel (n + j) l (ts ++ rest) = readTail n l e rest

theorem Stops.mono {l m : ℕ} (h : Stops l ts) (hlm : l ≤ m) : Stops m ts :=
  fun op us hts => Nat.lt_of_lt_of_le (h op us hts) hlm

theorem stops_bin {op : BinOp} (h : op.level < l) : Stops l (.bin op :: ts : List (Tok P A)) := by
  intro op' us hts
  obtain ⟨hop, -⟩ := List.cons.inj hts
  rw [← Tok.bin.inj hop]
  exact h

theorem stops_rpar : Stops l (.rpar :: ts : List (Tok P A)) := by
  intro op us hts
  cases hts

theorem stops_semi : Stops l (.semi :: ts : List (Tok P A)) := by
  intro op us hts
  cases hts

theorem readTail_stops {n : ℕ} (h : Stops l ts) : readTail (n + 1) l e ts = some (e, ts) := by
  cases ts with
  | nil => rfl
  | cons t us =>
    cases t with
    | bin op => rw [readTail, if_neg (Nat.ne_of_lt (h op us rfl))]
    | _ => rfl

theorem ReadsUnary.prim (p : P) : ReadsUnary (A := A) [.prim p] (.prim p) := by
  refine ⟨1, fun n rest hn => ?_⟩
  obtain ⟨m, rfl⟩ : ∃ m, n = m + 1 := ⟨n - 1, by omega⟩
  rfl

theorem ReadsUnary.not (h : ReadsUnary ts e) : ReadsUnary (.not :: ts) (.not e) := by
  obtain ⟨k, hk⟩ := h
  refine ⟨k + 1, fun n rest hn => ?_⟩
  obtain ⟨m, rfl⟩ : ∃ m, n = m + 1 := ⟨n - 1, by omega⟩
  have hm := hk m rest (by omega)
  simp only [List.cons_append, readUnary, hm, Option.bind_eq_bind, Option.bind_some]

theorem ReadsUnary.paren (h : Reads 0 ts e) : ReadsUnary (.lpar :: ts ++ [.rpar]) e := by
  obtain ⟨k, hk⟩ := h
  refine ⟨k + 1, fun n rest hn => ?_⟩
  obtain ⟨m, rfl⟩ : ∃ m, n = m + 1 := ⟨n - 1, by omega⟩
  have hm := hk m (.rpar :: rest) (by omega) stops_rpar
  simp only [List.cons_append, List.append_assoc, List.nil_append, readUnary, hm, Tok.skipRpar,
    Option.bind_eq_bind, Option.bind_some]

theorem ReadsUnary.reads (h : ReadsUnary ts e) : Reads unaryLevel ts e := by
  obtain ⟨k, hk⟩ := h
  refine ⟨k + 1, fun n rest hn _ => ?_⟩
  obtain ⟨m, rfl⟩ : ∃ m, n = m + 1 := ⟨n - 1, by omega⟩
  rw [readLevel, if_pos rfl]
  exact hk m rest (by omega)

/-- The first operand of level `l`. -/
theorem Reads.leftSide (h : Reads (l + 1) ts e) (hl : l < unaryLevel) : LeftSide l ts e := by
  obtain ⟨k, hk⟩ := h
  refine ⟨1, k, fun n rest hn hrest => ?_⟩
  rw [readLevel, if_neg (Nat.ne_of_lt hl), hk n rest hn hrest]
  rfl

/-- One more operand. -/
theorem LeftSide.snoc {op : BinOp} (ha : LeftSide l ts a) (hb : Reads (l + 1) us b) (hop : op.level = l) :
    LeftSide l (ts ++ .bin op :: us) (.bin op a b) := by
  obtain ⟨j, k, hj⟩ := ha
  obtain ⟨k', hk⟩ := hb
  refine ⟨j + 1, max k k', fun n rest hn hrest => ?_⟩
  have hstop : Stops (l + 1) (.bin op :: (us ++ rest) : List (Tok P A)) := stops_bin (by omega)
  have hleft := hj (n + 1) _ (by omega) hstop
  have hright := hk n rest (by omega) hrest
  rw [List.append_assoc, List.cons_append, show n + (j + 1) = n + 1 + j by omega, hleft, readTail, if_pos hop, hright]
  rfl

theorem LeftSide.reads (h : LeftSide l ts e) : Reads l ts e := by
  obtain ⟨j, k, hj⟩ := h
  refine ⟨k + j + 1, fun n rest hn hrest => ?_⟩
  obtain ⟨m, rfl⟩ : ∃ m, n = m + 1 + j := ⟨n - 1 - j, by omega⟩
  rw [hj (m + 1) rest (by omega) (hrest.mono (Nat.le_succ l))]
  exact readTail_stops hrest

theorem Reads.weaken (h : Reads (l + 1) ts e) (hl : l < unaryLevel) : Reads l ts e := (h.leftSide hl).reads

/-- A text of a higher level where a lower one is asked for. -/
theorem Reads.lower {m : ℕ} (h : Reads m ts e) (hl : l ≤ m) (hm : m ≤ unaryLevel) : Reads l ts e := by
  induction hl with
  | refl => exact h
  | step hlm ih => exact ih (h.weaken hm) (Nat.le_of_succ_le hm)

theorem ReadsUnary.lower (h : ReadsUnary ts e) (hl : l ≤ unaryLevel) : Reads l ts e := h.reads.lower hl (Nat.le_refl _)

/-- Two operands that bind tighter than the operator between them. -/
theorem Reads.bin {op : BinOp} (ha : Reads (op.level + 1) ts a) (hb : Reads (op.level + 1) us b) :
    Reads op.level (ts ++ .bin op :: us) (.bin op a b) :=
  ((ha.leftSide (by cases op <;> decide)).snoc hb rfl).reads

end Expressions

/-! ## Reading statements -/

section Statements

variable {ts us : List (Tok P A)} {s t : Stmt P A} {e : Expr P}

/-- No `else` stands first. -/
def NoElse (ts : List (Tok P A)) : Prop := ∀ us, ts ≠ .kelse :: us

/-- The text is a statement, whatever follows. -/
def Closed (ts : List (Tok P A)) (s : Stmt P A) : Prop :=
  ∃ k, ∀ n rest, k ≤ n → readStmt n (ts ++ rest) = some (s, rest)

/-- The text is a statement, where no `else` follows. -/
def ReadsStmt (ts : List (Tok P A)) (s : Stmt P A) : Prop :=
  ∃ k, ∀ n rest, k ≤ n → NoElse rest → readStmt n (ts ++ rest) = some (s, rest)

/-- The text is a list of statements. -/
def Items (ts : List (Tok P A)) (ss : List (Stmt P A)) : Prop :=
  NoElse ts ∧ ∃ j k, ∀ n rest, k ≤ n → NoElse rest →
    readItems (n + j) (ts ++ rest) = (readItems n rest).map fun r => (Stmt.seqs ss r.1, r.2)

theorem NoElse.nil : NoElse ([] : List (Tok P A)) := by
  intro us h
  cases h

theorem NoElse.append (h : NoElse ts) (h' : NoElse us) : NoElse (ts ++ us) := by
  cases ts with
  | nil => exact h'
  | cons t ts =>
    intro vs hvs
    obtain ⟨rfl, -⟩ := List.cons.inj hvs
    exact h ts rfl

theorem readLevel_none (h : ∀ n, readUnary n ts = none) (n l : ℕ) : readLevel n l ts = none := by
  induction n generalizing l with
  | zero => rfl
  | succ n ih =>
    rw [readLevel]
    split
    · exact h n
    · rw [ih (l + 1)]
      rfl

theorem readStmt_nil (n : ℕ) : readStmt n ([] : List (Tok P A)) = none := by
  cases n with
  | zero => rfl
  | succ n =>
    rw [readStmt, readLevel_none (fun n => by cases n <;> rfl) n 0]
    · rfl
    all_goals simp

theorem readStmt_kelse (n : ℕ) : readStmt n (.kelse :: ts) = none := by
  cases n with
  | zero => rfl
  | succ n =>
    rw [readStmt, readLevel_none (fun n => by cases n <;> rfl) n 0]
    · rfl
    all_goals simp

theorem readStmt_rbrace (n : ℕ) : readStmt n (.rbrace :: ts) = none := by
  cases n with
  | zero => rfl
  | succ n =>
    rw [readStmt, readLevel_none (fun n => by cases n <;> rfl) n 0]
    · rfl
    all_goals simp

theorem ReadsStmt.noElse (h : ReadsStmt ts s) : NoElse ts := by
  intro us hts
  obtain ⟨k, hk⟩ := h
  have hread := hk k [] (Nat.le_refl k) NoElse.nil
  rw [List.append_nil, hts, readStmt_kelse] at hread
  cases hread

theorem Closed.readsStmt (h : Closed ts s) : ReadsStmt ts s := by
  obtain ⟨k, hk⟩ := h
  exact ⟨k, fun n rest hn _ => hk n rest hn⟩

theorem Closed.simple (a : A) : Closed (P := P) [.stmt a] (.simple a) := by
  refine ⟨1, fun n rest hn => ?_⟩
  obtain ⟨m, rfl⟩ : ∃ m, n = m + 1 := ⟨n - 1, by omega⟩
  rfl

/-- A call as a statement. -/
theorem Closed.prim (p : P) : Closed (A := A) [.prim p, .semi] (.expr (.prim p)) := by
  obtain ⟨k, hk⟩ := (ReadsUnary.prim (A := A) p).lower (Nat.zero_le _)
  refine ⟨k + 1, fun n rest hn => ?_⟩
  obtain ⟨m, rfl⟩ : ∃ m, n = m + 1 := ⟨n - 1, by omega⟩
  have hm := hk m (.semi :: rest) (by omega) stops_semi
  rw [List.cons_append, List.nil_append] at hm
  rw [List.cons_append, List.cons_append, List.nil_append, readStmt, hm]
  · rfl
  all_goals simp

/-- A block. -/
theorem Items.block {ss : List (Stmt P A)} (h : Items ts ss) : Closed (.lbrace :: ts ++ [.rbrace]) (Stmt.seqs ss .skip) := by
  obtain ⟨-, j, k, hj⟩ := h
  refine ⟨k + j + 2, fun n rest hn => ?_⟩
  obtain ⟨m, rfl⟩ : ∃ m, n = m + 1 + j + 1 := ⟨n - 2 - j, by omega⟩
  have hm := hj (m + 1) (.rbrace :: rest) (by omega) (by intro us h; cases h)
  simp only [List.cons_append, List.append_assoc, List.nil_append, readStmt, hm, readItems, Tok.skipRbrace,
    Option.bind_eq_bind, Option.bind_some, Option.map_some]

theorem readStmt_if {ts us : List (Tok P A)} (hc : Reads 0 ts e) (hs : Closed us s) :
    ∃ k, ∀ n rest, k ≤ n →
      readStmt (n + 1) (.kif :: .lpar :: ts ++ .rpar :: us ++ rest) = readElse n e s rest := by
  obtain ⟨k, hk⟩ := hc
  obtain ⟨k', hk'⟩ := hs
  refine ⟨max k k', fun n rest hn => ?_⟩
  have hcond := hk n (.rpar :: (us ++ rest)) (by omega) stops_rpar
  have hbody := hk' n rest (by omega)
  simp only [List.cons_append, List.append_assoc, readStmt, hcond, Tok.skipRpar, hbody,
    Option.bind_eq_bind, Option.bind_some]

/-- An `if` without an `else`. -/
theorem ReadsStmt.ifOnly (hc : Reads 0 ts e) (hs : Closed us s) :
    ReadsStmt (.kif :: .lpar :: ts ++ .rpar :: us) (.ite e s .skip) := by
  obtain ⟨k, hk⟩ := readStmt_if hc hs
  refine ⟨k + 2, fun n rest hn hrest => ?_⟩
  obtain ⟨m, rfl⟩ : ∃ m, n = m + 1 + 1 := ⟨n - 2, by omega⟩
  rw [hk (m + 1) rest (by omega)]
  cases rest with
  | nil => rfl
  | cons t rest =>
    cases t with
    | kelse => exact absurd rfl (hrest rest)
    | _ => rfl

theorem ReadsStmt.ifElse {vs : List (Tok P A)} (hc : Reads 0 ts e) (hs : Closed us s) (ht : ReadsStmt vs t) :
    ReadsStmt (.kif :: .lpar :: ts ++ .rpar :: us ++ .kelse :: vs) (.ite e s t) := by
  obtain ⟨k, hk⟩ := readStmt_if hc hs
  obtain ⟨k', hk'⟩ := ht
  refine ⟨max k k' + 2, fun n rest hn hrest => ?_⟩
  obtain ⟨m, rfl⟩ : ∃ m, n = m + 1 + 1 := ⟨n - 2, by omega⟩
  have helse := hk' m rest (by omega) hrest
  rw [List.append_assoc, hk (m + 1) _ (by omega), List.cons_append, readElse, helse]
  rfl

/-- Nothing, or an `else` with its statement. -/
def ElsePart (ts : List (Tok P A)) (t : Stmt P A) : Prop :=
  (ts = [] ∧ t = .skip) ∨ ∃ us, ts = .kelse :: us ∧ ReadsStmt us t

theorem ReadsStmt.ifStmt {vs : List (Tok P A)} (hc : Reads 0 ts e) (hs : Closed us s) (ht : ElsePart vs t) :
    ReadsStmt (.kif :: .lpar :: ts ++ .rpar :: us ++ vs) (.ite e s t) := by
  rcases ht with ⟨rfl, rfl⟩ | ⟨ws, rfl, ht⟩
  · rw [List.append_nil]
    exact .ifOnly hc hs
  · exact .ifElse hc hs ht

theorem Items.nil : Items ([] : List (Tok P A)) [] := by
  refine ⟨NoElse.nil, 0, 0, fun n rest _ _ => ?_⟩
  cases h : readItems n rest <;> simp [h, Stmt.seqs]

theorem ReadsStmt.items (h : ReadsStmt ts s) : Items ts [s] := by
  have hts := h.noElse
  obtain ⟨k, hk⟩ := h
  refine ⟨hts, 1, k, fun n rest hn hrest => ?_⟩
  have hread := hk n rest hn hrest
  cases hall : ts ++ rest with
  | nil => rw [hall, readStmt_nil] at hread; cases hread
  | cons t us =>
    rw [hall] at hread
    have hstep : readItems (n + 1) (t :: us) = (readItems n rest).map fun r => (.seq s r.1, r.2) := by
      cases t with
      | rbrace => rw [readStmt_rbrace] at hread; cases hread
      | _ =>
        rw [readItems, hread]
        · rw [Option.bind_eq_bind, Option.bind_some]
          cases readItems n rest <;> rfl
        all_goals simp
    exact hstep

theorem Items.append {ss ss' : List (Stmt P A)} (h : Items ts ss) (h' : Items us ss') : Items (ts ++ us) (ss ++ ss') := by
  obtain ⟨hts, j, k, hj⟩ := h
  obtain ⟨hus, j', k', hj'⟩ := h'
  refine ⟨hts.append hus, j' + j, max k k', fun n rest hn hrest => ?_⟩
  have hstart := hj (n + j') (us ++ rest) (by omega) (hus.append hrest)
  have hend := hj' n rest (by omega) hrest
  rw [List.append_assoc, show n + (j' + j) = n + j' + j by omega, hstart, hend, Option.map_map]
  simp only [Stmt.seqs, List.foldr_append, Function.comp_def]

/-- A text of statements and nothing else. -/
theorem Items.read {ss : List (Stmt P A)} (h : Items ts ss) :
    ∃ k, ∀ n, k ≤ n → readItems n ts = some (Stmt.seqs ss .skip, []) := by
  obtain ⟨-, j, k, hj⟩ := h
  refine ⟨k + 1 + j, fun n hn => ?_⟩
  obtain ⟨m, rfl⟩ : ∃ m, n = m + 1 + j := ⟨n - 1 - j, by omega⟩
  have hread := hj (m + 1) [] (by omega) NoElse.nil
  rw [List.append_nil] at hread
  exact hread

end Statements

end Varnish.Lib.CText
