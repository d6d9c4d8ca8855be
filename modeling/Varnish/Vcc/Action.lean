import Mathlib.Control.Monad.Basic
import Varnish.Vcc.Xref

/-!
# Varnish.Vcc.Action — the statements of a VCL program (`vcc_parse.c`, `vcc_action.c`)

* `Code`: the statements of a sub; `Decl`: what stands at the top level.
* `Code.parse`, `vccParse`: what the parser records of them and the C code that it writes.
* `Recorded`: the procedures and the C code of a program.
* `vccParse_recorded`: the parser keeps them together, up to what `parse_error` and inline C do not record.
* `done_allowed_iff`: when every `VRT_done` of a program that passes the checks is one that its methods may return.
-/

namespace Varnish.Vcc

open Varnish.Lib

/-! ## Programs -/

section Syntax

/-- `enum ref_type` -/
inductive RefType
  | func
  | acl
  | backend
deriving DecidableEq

/-- What the parsers of values and conditions record: the variables, and the names of acls and backends. -/
structure Value where
  uses : List Use := []
  refs : List (RefType × String) := []

/-- A statement without its blocks. -/
inductive Stmt
  | call (f : String)
  | error (v : Value)
  | ret (r : Ret)
  /-- `set`, `unset`, `remove`, `purge`, `purge_url`, `esi`, `panic`, `rollback`, `synthetic` -/
  | action (v : Value)
  /-- Inline C, with the actions of its `VRT_done`. -/
  | csrc (dones : List Ret)
  /-- The condition of an `if`. -/
  | cond (v : Value)
  /-- A brace, or an `else`. -/
  | brace

def Stmt.calls : Stmt → List String
  | .call f => [f]
  | _ => []

/-- The actions of a statement that `vcc_ProcAction` is not told of. -/
def Stmt.unrecorded : Stmt → List Ret
  | .error _ => [.error]
  | .csrc dones => dones
  | _ => []

/-- The two places of the grammar: in a compound, and behind the compound of an `if`. -/
inductive Part
  | compound
  | chain

inductive Code : Part → Type
  | close : Code .compound
  | stmt (s : Stmt) (rest : Code .compound) : Code .compound
  | compound (body rest : Code .compound) : Code .compound
  | ifStmt (v : Value) (body : Code .compound) (chain : Code .chain) (rest : Code .compound) : Code .compound
  | endIf : Code .chain
  | els (body : Code .compound) : Code .chain
  | elseIf (v : Value) (body : Code .compound) (chain : Code .chain) : Code .chain

/-- All statements of the text, in their order. -/
def Code.stmts : {k : Part} → Code k → List Stmt
  | _, .close => [.brace]
  | _, .stmt s rest => s :: rest.stmts
  | _, .compound body rest => .brace :: body.stmts ++ rest.stmts
  | _, .ifStmt v body chain rest => .cond v :: .brace :: body.stmts ++ chain.stmts ++ rest.stmts
  | _, .endIf => []
  | _, .els body => .brace :: .brace :: body.stmts
  | _, .elseIf v body chain => .brace :: .cond v :: .brace :: body.stmts ++ chain.stmts

/-- The top level. A backend is a director without members. -/
inductive Decl
  | sub (name : String) (body : Code .compound)
  | acl (name : String)
  | director (name : String) (inlined : ℕ) (members : List String)
  | csrc

/-- The statements of the program, with the subs that they are in. -/
def stmts (prog : List Decl) : List (String × Stmt) :=
  prog.flatMap fun
    | .sub name body => body.stmts.map (name, ·)
    | _ => []

end Syntax

/-! ## The parser -/

section Parser

/-- What matters of a line of C in a function: the call of another function, `VRT_done`, or inline C. -/
inductive CLine
  | call (f : String)
  | done (r : Ret)
  | src (dones : List Ret)
  | other
deriving DecidableEq

/-- `struct ref` -/
structure Ref where
  type : RefType
  name : String
  defcnt : ℕ := 0
  refcnt : ℕ := 0
deriving DecidableEq

/-- `struct tokenlist`. A line of C is kept with the function that it is in: the buffer `fm[m]` has the lines of the method
`m`, and `fc` those of the other subs. -/
structure TokenList where
  procs : List Proc := []
  refs : List Ref := []
  mprocs : List String := []
  curproc : String := ""
  ndirector : ℕ := 0
  lines : List (String × CLine) := []
  err : Bool := false

variable (tl : TokenList)

/-- `vcc_findref`, and a change of what it finds. -/
def updateRef (refs : List Ref) (type : RefType) (name : String) (u : Ref → Ref) : List Ref :=
  if refs.any (fun r => r.type = type && r.name = name) = true then
    refs.map fun r => if r.type = type ∧ r.name = name then u r else r
  else refs ++ [u { type, name }]

/-- `vcc_AddRef` -/
def addRef (type : RefType) (name : String) : TokenList :=
  { tl with refs := updateRef tl.refs type name fun r => { r with refcnt := r.refcnt + 1 } }

/-- `vcc_AddDef` -/
def addDef (type : RefType) (name : String) : TokenList :=
  { tl with
    err := tl.err || tl.refs.any fun r => r.type = type && r.name = name && decide (0 < r.defcnt)
    refs := updateRef tl.refs type name fun r => { r with
      defcnt := r.defcnt + 1
      refcnt := if type = .backend ∧ tl.ndirector = 0 then r.refcnt + 1 else r.refcnt } }

def Proc.define (p : Proc) : Proc := { p with exist := p.exist + 1 }

def Proc.addUse (pu : Use) (p : Proc) : Proc := { p with uses := p.uses ++ [pu] }

def Proc.addCall (n : String) (p : Proc) : Proc := { p with calls := p.calls ++ [n] }

def Proc.addRet (r : Ret) (p : Proc) : Proc := { p with retBitmap := p.retBitmap ||| r.bit }

/-- `vcc_findproc` -/
def findProc (ps : List Proc) (n : String) : List Proc := if n ∈ ps.map Proc.name then ps else ps ++ [{ name := n }]

/-- `vcc_AddProc` -/
def addProc (n : String) : TokenList :=
  { tl with procs := setProc (findProc tl.procs n) n Proc.define }

/-- A change of `tl->curproc`. -/
def updateCur (u : Proc → Proc) : TokenList := { tl with procs := setProc tl.procs tl.curproc u }

/-- `vcc_AddUses` -/
def addUses (pu : Use) : TokenList := updateCur tl (Proc.addUse pu)

/-- `vcc_AddCall` -/
def addCall (n : String) : TokenList := updateCur { tl with procs := findProc tl.procs n } (Proc.addCall n)

/-- `vcc_ProcAction` -/
def procAction (r : Ret) : TokenList := updateCur tl (Proc.addRet r)

/-- `Fb` -/
def fb (l : CLine) : TokenList := { tl with lines := tl.lines ++ [(tl.curproc, l)] }

def value (v : Value) : TokenList := v.refs.foldl (fun tl r => addRef tl r.1 r.2) (v.uses.foldl addUses tl)

def parseCall (f : String) : TokenList := fb (addRef (addCall tl f) .func f) (.call f)

/-- It writes a `VRT_done` too, but has no `vcc_ProcAction`. -/
def parseError (v : Value) : TokenList := fb (value tl v) (.done .error)

def parseReturn (r : Ret) : TokenList := procAction (fb tl (.done r)) r

/-- The table of `vcc_ParseAction`, and the other lines of `Compound`. -/
def parseStmt (tl : TokenList) : Stmt → TokenList
  | .call f => parseCall tl f
  | .error v => parseError tl v
  | .ret r => parseReturn tl r
  | .action v => fb (value tl v) .other
  | .csrc dones => fb tl (.src dones)
  | .cond v => fb (value tl v) .other
  | .brace => fb tl .other

/-- `Compound` and `IfStmt` -/
def Code.parse : {k : Part} → Code k → TokenList → TokenList
  | _, .close, tl => parseStmt tl .brace
  | _, .stmt s rest, tl => rest.parse (parseStmt tl s)
  | _, .compound body rest, tl => rest.parse (body.parse (parseStmt tl .brace))
  | _, .ifStmt v body chain rest, tl => rest.parse (chain.parse (body.parse (parseStmt (parseStmt tl (.cond v)) .brace)))
  | _, .endIf, tl => tl
  | _, .els body, tl => body.parse (parseStmt (parseStmt tl .brace) .brace)
  | _, .elseIf v body chain, tl =>
    chain.parse (body.parse (parseStmt (parseStmt (parseStmt tl .brace) (.cond v)) .brace))

/-- `Function`, up to its body. -/
def enter (name : String) : TokenList :=
  match isMethod name with
  | some _ =>
    if name ∈ tl.mprocs then { tl with curproc := name }
    else { addRef (addDef (addProc tl name) .func name) .func name with curproc := name, mprocs := tl.mprocs ++ [name] }
  | none => { addDef (addProc tl name) .func name with curproc := name }

/-- `Function`. Where it is not a method it gets a last `return(0)`. -/
def function (name : String) (body : Code .compound) : TokenList :=
  let tl := body.parse (parseStmt (enter tl name) .brace)
  if (isMethod name).isSome = true then tl else fb tl .other

/-- A turn of `vcc_Parse`. -/
def parseDecl (tl : TokenList) : Decl → TokenList
  | .sub name body => function tl name body
  | .acl name => addDef tl .acl name
  | .director name inlined members =>
    let tl := { addDef tl .backend name with ndirector := tl.ndirector + 1 + inlined }
    members.foldl (fun tl h => addRef tl .backend h) tl
  | .csrc => tl

def vccParse (prog : List Decl) : TokenList := prog.foldl parseDecl {}

/-- `vcc_CheckReferences` -/
def checkReferences : ℕ := tl.refs.countP fun r => r.defcnt = 0 || r.refcnt = 0

end Parser

/-! ## What is recorded -/

section Recorded

variable {tl tl' tl1 : TokenList} {P Q : List (String × Stmt)} {D : List String} {ps : List Proc} {n f : String} {k : Part}

/-- The records and the C code of the statements `P` in the subs `D`. -/
structure Recorded (tl : TokenList) (P : List (String × Stmt)) (D : List String) : Prop where
  mprocs : ∀ m ∈ tl.mprocs, m ∈ tl.procs.map Proc.name
  exist : ∀ f, (get tl.procs f).exist ≠ 0 → f ∈ D
  calls : ∀ f g, g ∈ (get tl.procs f).calls ↔ (f, .call g) ∈ P
  rets : ∀ f r, (get tl.procs f).retBitmap.getLsbD r.num = true ↔ (f, .ret r) ∈ P
  callLines : ∀ f g, (f, .call g) ∈ tl.lines ↔ (f, .call g) ∈ P
  doneLines : ∀ f r, (f, .done r) ∈ tl.lines ↔ (f, .ret r) ∈ P ∨ r = .error ∧ ∃ v, (f, .error v) ∈ P
  srcLines : ∀ f dones, (f, .src dones) ∈ tl.lines ↔ (f, .csrc dones) ∈ P

/-- Nothing of it is changed. -/
structure Kept (tl tl' : TokenList) : Prop where
  mprocs : tl'.mprocs = tl.mprocs
  lines : tl'.lines = tl.lines
  curproc : tl'.curproc = tl.curproc
  names : tl'.procs.map Proc.name = tl.procs.map Proc.name
  exist : ∀ f, (get tl'.procs f).exist = (get tl.procs f).exist
  calls : ∀ f, (get tl'.procs f).calls = (get tl.procs f).calls
  rets : ∀ f, (get tl'.procs f).retBitmap = (get tl.procs f).retBitmap

theorem Kept.refl (tl : TokenList) : Kept tl tl := ⟨rfl, rfl, rfl, rfl, fun _ => rfl, fun _ => rfl, fun _ => rfl⟩

theorem Kept.trans (h : Kept tl tl1) (h' : Kept tl1 tl') : Kept tl tl' where
  mprocs := h'.mprocs.trans h.mprocs
  lines := h'.lines.trans h.lines
  curproc := h'.curproc.trans h.curproc
  names := h'.names.trans h.names
  exist f := (h'.exist f).trans (h.exist f)
  calls f := (h'.calls f).trans (h.calls f)
  rets f := (h'.rets f).trans (h.rets f)

theorem Kept.recorded (h : Kept tl tl') (hr : Recorded tl P D) : Recorded tl' P D where
  mprocs := h.mprocs.symm ▸ h.names.symm ▸ hr.mprocs
  exist f hf := hr.exist f (h.exist f ▸ hf)
  calls f := h.calls f ▸ hr.calls f
  rets f := h.rets f ▸ hr.rets f
  callLines := h.lines ▸ hr.callLines
  doneLines := h.lines ▸ hr.doneLines
  srcLines := h.lines ▸ hr.srcLines

theorem kept_foldl {α : Type} {step : TokenList → α → TokenList} (hstep : ∀ tl a, Kept tl (step tl a)) (as : List α) :
    Kept tl (as.foldl step tl) := by
  induction as generalizing tl with
  | nil => exact Kept.refl tl
  | cons a as ih => exact (hstep tl a).trans ih

theorem kept_addRef (type : RefType) (name : String) : Kept tl (addRef tl type name) :=
  ⟨rfl, rfl, rfl, rfl, fun _ => rfl, fun _ => rfl, fun _ => rfl⟩

theorem kept_addDef (type : RefType) (name : String) : Kept tl (addDef tl type name) :=
  ⟨rfl, rfl, rfl, rfl, fun _ => rfl, fun _ => rfl, fun _ => rfl⟩

theorem get_setProc_field {α : Type} (field : Proc → α) {u : Proc → Proc} (hu : ∀ p, (u p).name = p.name)
    (hfield : ∀ p, field (u p) = field p) (f : String) : field (get (setProc ps n u) f) = field (get ps f) := by
  by_cases hf : f = n
  · subst hf
    by_cases hmem : f ∈ ps.map Proc.name
    · rw [get_setProc hu hmem, hfield]
    · have hsame : setProc ps f u = ps := by
        refine (List.map_congr_left fun p hp => if_neg ?_).trans (List.map_id ps)
        rintro rfl
        exact hmem (List.mem_map_of_mem hp)
      rw [hsame]
  · rw [get_setProc_ne hu hf]

theorem kept_addUses (pu : Use) : Kept tl (addUses tl pu) where
  mprocs := rfl
  lines := rfl
  curproc := rfl
  names := names_setProc (u := Proc.addUse pu) fun _ => rfl
  exist := get_setProc_field Proc.exist (u := Proc.addUse pu) (fun _ => rfl) fun _ => rfl
  calls := get_setProc_field Proc.calls (u := Proc.addUse pu) (fun _ => rfl) fun _ => rfl
  rets := get_setProc_field Proc.retBitmap (u := Proc.addUse pu) (fun _ => rfl) fun _ => rfl

theorem kept_value (v : Value) : Kept tl (value tl v) :=
  (kept_foldl (fun _ => kept_addUses) v.uses).trans (kept_foldl (fun _ r => kept_addRef r.1 r.2) v.refs)

theorem get_findProc (ps : List Proc) (n f : String) : get (findProc ps n) f = get ps f := by
  unfold findProc
  split
  · rfl
  next hn =>
    unfold get
    rw [List.find?_append]
    cases hf : ps.find? (·.name = f) with
    | some p => rfl
    | none =>
      by_cases hnf : n = f
      · simp [hnf]
      · simp [hnf]

theorem mem_findProc (ps : List Proc) (n : String) : n ∈ (findProc ps n).map Proc.name := by
  unfold findProc
  split
  · assumption
  · simp

theorem mem_findProc_of_mem (h : f ∈ ps.map Proc.name) : f ∈ (findProc ps n).map Proc.name := by
  unfold findProc
  split
  · exact h
  · simpa using .inl (List.mem_map.mp h)

theorem Recorded.findProc (h : Recorded tl P D) (n : String) : Recorded { tl with procs := findProc tl.procs n } P D where
  mprocs m hm := mem_findProc_of_mem (h.mprocs m hm)
  exist f hf := h.exist f (get_findProc tl.procs n f ▸ hf)
  calls f := (get_findProc tl.procs n f).symm ▸ h.calls f
  rets f := (get_findProc tl.procs n f).symm ▸ h.rets f
  callLines := h.callLines
  doneLines := h.doneLines
  srcLines := h.srcLines

theorem getLsbD_bit (a : BitVec 32) (r r' : Ret) :
    (a ||| r.bit).getLsbD r'.num = true ↔ a.getLsbD r'.num = true ∨ r' = r := by
  have hbit : r.bit.getLsbD r'.num = decide (r' = r) := by
    cases r <;> cases r' <;> decide
  rw [BitVec.getLsbD_or, hbit]
  simp

theorem mem_snoc_pair {α : Type} {x y : α} {l : List (String × α)} :
    (f, x) ∈ l ++ [(n, y)] ↔ (f, x) ∈ l ∨ f = n ∧ y = x := by
  rw [List.mem_append, List.mem_singleton, Prod.mk.injEq, @eq_comm _ x]

/-- A line is written for the statement, and the procedures are as they should be then. -/
theorem Recorded.line {s : Stmt} (l : CLine) (h : Recorded tl P D)
    (hnames : ∀ f ∈ tl.procs.map Proc.name, f ∈ tl'.procs.map Proc.name) (hmprocs : tl'.mprocs = tl.mprocs)
    (hcalls : ∀ f g, g ∈ (get tl'.procs f).calls ↔ g ∈ (get tl.procs f).calls ∨ f = tl.curproc ∧ s = .call g)
    (hrets : ∀ f r, (get tl'.procs f).retBitmap.getLsbD r.num = true ↔
      (get tl.procs f).retBitmap.getLsbD r.num = true ∨ f = tl.curproc ∧ s = .ret r)
    (hexist : ∀ f, (get tl'.procs f).exist = (get tl.procs f).exist)
    (hlines : tl'.lines = tl.lines ++ [(tl.curproc, l)])
    (hcall : ∀ g, l = .call g ↔ s = .call g) (hdone : ∀ r, l = .done r ↔ s = .ret r ∨ r = .error ∧ ∃ v, s = .error v)
    (hsrc : ∀ ds, l = .src ds ↔ s = .csrc ds) : Recorded tl' (P ++ [(tl.curproc, s)]) D where
  mprocs m hm := hnames m (h.mprocs m (hmprocs ▸ hm))
  exist f hf := h.exist f (hexist f ▸ hf)
  calls f g := by rw [hcalls, h.calls, mem_snoc_pair]
  rets f r := by rw [hrets, h.rets, mem_snoc_pair]
  callLines f g := by rw [hlines, mem_snoc_pair, mem_snoc_pair, h.callLines, hcall]
  doneLines f r := by
    have herr : (∃ v, (f, Stmt.error v) ∈ P ++ [(tl.curproc, s)]) ↔
        (∃ v, (f, Stmt.error v) ∈ P) ∨ f = tl.curproc ∧ ∃ v, s = .error v := by
      simp only [mem_snoc_pair, exists_or, exists_and_left]
    rw [hlines, mem_snoc_pair, mem_snoc_pair, h.doneLines, hdone, herr, and_or_left, and_or_left, or_or_or_comm,
      and_left_comm]
  srcLines f ds := by rw [hlines, mem_snoc_pair, mem_snoc_pair, h.srcLines, hsrc]

/-- A statement of which only a line of C is left. -/
theorem Kept.line {s : Stmt} (l : CLine) (hk : Kept tl tl') (h : Recorded tl P D) (hcall : ∀ g, l = .call g ↔ s = .call g)
    (hdone : ∀ r, l = .done r ↔ s = .ret r ∨ r = .error ∧ ∃ v, s = .error v) (hsrc : ∀ ds, l = .src ds ↔ s = .csrc ds)
    (hs : ∀ g, s ≠ .call g) (hret : ∀ r, s ≠ .ret r) : Recorded (fb tl' l) (P ++ [(tl.curproc, s)]) D := by
  refine h.line l (fun f hf => hk.names.symm ▸ hf) hk.mprocs (fun f g => ?_) (fun f r => ?_) hk.exist ?_ hcall hdone hsrc
  · simp [fb, hk.calls, hs]
  · simp [fb, hk.rets, hret]
  · simp [fb, hk.lines, hk.curproc]

theorem get_updateCur (tl : TokenList) {u : Proc → Proc} (hu : ∀ p, (u p).name = p.name) (hc : tl.curproc ∈ tl.procs.map Proc.name) (f : String) :
    get (updateCur tl u).procs f = if f = tl.curproc then u (get tl.procs f) else get tl.procs f := by
  split
  next hf =>
    subst hf
    exact get_setProc hu hc
  next hf => exact get_setProc_ne hu hf

/-- One statement. -/
theorem Recorded.stmt (h : Recorded tl P D) (hc : tl.curproc ∈ tl.procs.map Proc.name) (s : Stmt) :
    Recorded (parseStmt tl s) (P ++ [(tl.curproc, s)]) D ∧ (parseStmt tl s).curproc = tl.curproc ∧
      tl.curproc ∈ (parseStmt tl s).procs.map Proc.name := by
  cases s with
  | call g =>
    have hmem : tl.curproc ∈ (Vcc.findProc tl.procs g).map Proc.name := mem_findProc_of_mem hc
    have hnames : ∀ f ∈ tl.procs.map Proc.name, f ∈ (parseStmt tl (.call g)).procs.map Proc.name := by
      intro f hf
      have hnew : (parseStmt tl (.call g)).procs.map Proc.name = (Vcc.findProc tl.procs g).map Proc.name :=
        names_setProc (u := Proc.addCall g) fun _ => rfl
      rw [hnew]
      exact mem_findProc_of_mem hf
    have hget : ∀ f, get (parseStmt tl (.call g)).procs f =
        if f = tl.curproc then (get tl.procs f).addCall g else get tl.procs f := by
      intro f
      rw [← get_findProc tl.procs g f]
      exact get_updateCur { tl with procs := Vcc.findProc tl.procs g } (u := Proc.addCall g) (fun _ => rfl) hmem f
    refine ⟨h.line (.call g) hnames rfl (fun f g' => ?_) (fun f r => ?_) (fun f => ?_) rfl (by simp) (by simp) (by simp), rfl,
      hnames _ hc⟩
    · rw [hget]
      split <;> simp_all [Proc.addCall, eq_comm]
    · rw [hget]
      split <;> simp [Proc.addCall]
    · rw [hget]
      split <;> rfl
  | ret r =>
    have hget : ∀ f, get (parseStmt tl (.ret r)).procs f =
        if f = tl.curproc then (get tl.procs f).addRet r else get tl.procs f := fun f =>
      get_updateCur (fb tl (.done r)) (u := Proc.addRet r) (fun _ => rfl) hc f
    have hnames : ∀ f ∈ tl.procs.map Proc.name, f ∈ (parseStmt tl (.ret r)).procs.map Proc.name := by
      intro f hf
      have hnew : (parseStmt tl (.ret r)).procs.map Proc.name = tl.procs.map Proc.name :=
        names_setProc (u := Proc.addRet r) fun _ => rfl
      exact hnew.symm ▸ hf
    refine ⟨h.line (.done r) hnames rfl (fun f g' => ?_) (fun f r' => ?_) (fun f => ?_) rfl (by simp) (by simp) (by simp), rfl,
      hnames _ hc⟩
    · rw [hget]
      split <;> simp [Proc.addRet]
    · rw [hget]
      split
      next hf => rw [Proc.addRet, getLsbD_bit, Stmt.ret.injEq, @eq_comm _ r, and_iff_right hf]
      next hf => simp [hf]
    · rw [hget]
      split <;> rfl
  | error v =>
    have hk : Kept tl (value tl v) := kept_value v
    refine ⟨hk.line (.done .error) h (by simp) (by simp [eq_comm]) (by simp) (by simp) (by simp), hk.curproc, ?_⟩
    exact hk.names.symm ▸ hc
  | action v =>
    have hk : Kept tl (value tl v) := kept_value v
    refine ⟨hk.line .other h (by simp) (by simp) (by simp) (by simp) (by simp), hk.curproc, ?_⟩
    exact hk.names.symm ▸ hc
  | cond v =>
    have hk : Kept tl (value tl v) := kept_value v
    refine ⟨hk.line .other h (by simp) (by simp) (by simp) (by simp) (by simp), hk.curproc, ?_⟩
    exact hk.names.symm ▸ hc
  | csrc dones =>
    exact ⟨(Kept.refl tl).line (.src dones) h (by simp) (by simp) (by simp) (by simp) (by simp), rfl, hc⟩
  | brace => exact ⟨(Kept.refl tl).line .other h (by simp) (by simp) (by simp) (by simp) (by simp), rfl, hc⟩

theorem Code.parse_eq (c : Code k) : c.parse tl = c.stmts.foldl parseStmt tl := by
  induction c generalizing tl with
  | close => rfl
  | stmt s rest ih => exact ih
  | compound body rest ihb ihr => simp [Code.parse, Code.stmts, ihb, ihr]
  | ifStmt v body chain rest ihb ihc ihr => simp [Code.parse, Code.stmts, ihb, ihc, ihr]
  | endIf => rfl
  | els body ih => exact ih
  | elseIf v body chain ihb ihc => simp [Code.parse, Code.stmts, ihb, ihc]

/-- The statements of a text. -/
theorem Recorded.stmts (h : Recorded tl P D) (hc : tl.curproc ∈ tl.procs.map Proc.name) (ss : List Stmt) :
    Recorded (ss.foldl parseStmt tl) (P ++ ss.map (tl.curproc, ·)) D ∧
      (ss.foldl parseStmt tl).curproc = tl.curproc ∧ tl.curproc ∈ (ss.foldl parseStmt tl).procs.map Proc.name := by
  induction ss generalizing tl P with
  | nil => exact ⟨by simpa using h, rfl, hc⟩
  | cons s ss ih =>
    obtain ⟨h1, hcur, hmem⟩ := h.stmt hc s
    obtain ⟨h2, hcur2, hmem2⟩ := ih h1 (hcur.symm ▸ hmem)
    rw [hcur] at h2 hcur2 hmem2
    exact ⟨by simpa using h2, hcur2, hmem2⟩

/-- Braces are not recorded. -/
theorem Recorded.filter (h : Recorded tl P D) (hPQ : ∀ f s, s ≠ .brace → ((f, s) ∈ P ↔ (f, s) ∈ Q)) : Recorded tl Q D where
  mprocs := h.mprocs
  exist := h.exist
  calls f g := (h.calls f g).trans (hPQ f _ (by simp))
  rets f r := (h.rets f r).trans (hPQ f _ (by simp))
  callLines f g := (h.callLines f g).trans (hPQ f _ (by simp))
  doneLines f r := by
    rw [h.doneLines, hPQ f (.ret r) (by simp)]
    simp only [fun v => hPQ f (.error v) (by simp)]
  srcLines f ds := (h.srcLines f ds).trans (hPQ f _ (by simp))

theorem Recorded.define (h : Recorded tl P D) (n : String) : Recorded (addProc tl n) P (D ++ [n]) := by
  have hnames : (addProc tl n).procs.map Proc.name = (Vcc.findProc tl.procs n).map Proc.name :=
    names_setProc (u := Proc.define) fun _ => rfl
  have hget : ∀ f, get (addProc tl n).procs f = if f = n then (get tl.procs f).define else get tl.procs f := by
    intro f
    rw [← get_findProc tl.procs n f]
    split
    next hf =>
      subst hf
      exact get_setProc (u := Proc.define) (fun _ => rfl) (mem_findProc _ _)
    next hf => exact get_setProc_ne (u := Proc.define) (fun _ => rfl) hf
  refine ⟨?_, fun f hf => ?_, fun f => ?_, fun f => ?_, h.callLines, h.doneLines, h.srcLines⟩
  · intro m hm
    rw [hnames]
    exact mem_findProc_of_mem (h.mprocs m hm)
  · rw [hget] at hf
    split at hf
    next hfn => simp [hfn]
    next hfn => exact List.mem_append_left _ (h.exist f hf)
  · rw [hget]
    split <;> exact h.calls f
  · rw [hget]
    split <;> exact h.rets f

theorem mem_addProc (tl : TokenList) (n : String) : n ∈ (addProc tl n).procs.map Proc.name := by
  have hnames : (addProc tl n).procs.map Proc.name = (Vcc.findProc tl.procs n).map Proc.name :=
    names_setProc (u := Proc.define) fun _ => rfl
  exact hnames ▸ mem_findProc _ _

theorem Recorded.enter (h : Recorded tl P D) (n : String) :
    Recorded (enter tl n) P (D ++ [n]) ∧ (enter tl n).curproc = n ∧ n ∈ (enter tl n).procs.map Proc.name := by
  have hnew := h.define n
  have hmem := mem_addProc tl n
  unfold Vcc.enter
  split
  · split
    next hm => exact ⟨{ h with exist := fun f hf => List.mem_append_left _ (h.exist f hf) }, rfl, h.mprocs n hm⟩
    next hm =>
      refine ⟨{ hnew with mprocs := fun m hm' => ?_ }, rfl, hmem⟩
      rcases List.mem_append.mp hm' with hold | hnew'
      · exact hnew.mprocs m hold
      · rw [List.mem_singleton.mp hnew']
        exact hmem
  · exact ⟨{ hnew with }, rfl, hmem⟩

/-- One sub. -/
theorem Recorded.function (h : Recorded tl P D) (n : String) (body : Code .compound) :
    Recorded (function tl n body) (P ++ body.stmts.map (n, ·)) (D ++ [n]) := by
  obtain ⟨h1, hcur, hmem⟩ := h.enter n
  have hc : (Vcc.enter tl n).curproc ∈ (Vcc.enter tl n).procs.map Proc.name := hcur.symm ▸ hmem
  obtain ⟨h2, -, -⟩ := h1.stmts hc (.brace :: body.stmts)
  have hbody : Recorded (body.parse (parseStmt (Vcc.enter tl n) .brace)) (P ++ body.stmts.map (n, ·)) (D ++ [n]) := by
    rw [Code.parse_eq]
    rw [hcur] at h2
    refine h2.filter fun f s hs => ?_
    simp [hs]
  unfold Vcc.function
  dsimp only
  split
  · exact hbody
  · refine ((Kept.refl _).line (s := .brace) .other hbody (by simp) (by simp) (by simp) (by simp) (by simp)).filter
      fun f s hs => ?_
    rw [mem_snoc_pair]
    simp [hs.symm]

/-- The subs of the program. -/
def subs (prog : List Decl) : List String :=
  prog.flatMap fun
    | .sub name _ => [name]
    | _ => []

/-- One declaration. -/
theorem Recorded.decl (h : Recorded tl P D) (d : Decl) :
    Recorded (parseDecl tl d) (P ++ Vcc.stmts [d]) (D ++ subs [d]) := by
  cases d with
  | sub n body =>
    have hsub := h.function n body
    simpa [Vcc.stmts, subs, parseDecl] using hsub
  | acl n => simpa [Vcc.stmts, subs, parseDecl] using (kept_addDef .acl n).recorded h
  | director n inlined members =>
    have hdef : Kept tl { addDef tl .backend n with ndirector := tl.ndirector + 1 + inlined } :=
      ⟨rfl, rfl, rfl, rfl, fun _ => rfl, fun _ => rfl, fun _ => rfl⟩
    have hall := (hdef.trans (kept_foldl (fun _ h => kept_addRef .backend h) members)).recorded h
    simpa [Vcc.stmts, subs, parseDecl] using hall
  | csrc => simpa [Vcc.stmts, subs, parseDecl] using h

theorem Recorded.decls (h : Recorded tl P D) (prog : List Decl) :
    Recorded (prog.foldl parseDecl tl) (P ++ Vcc.stmts prog) (D ++ subs prog) := by
  induction prog generalizing tl P D with
  | nil => simpa [Vcc.stmts, subs] using h
  | cons d prog ih =>
    have h1 := ih (h.decl d)
    simpa [Vcc.stmts, subs] using h1

/-- The whole program. -/
theorem vccParse_recorded (prog : List Decl) : Recorded (vccParse prog) (stmts prog) (subs prog) := by
  have h0 : Recorded {} [] [] := by
    refine ⟨by simp, fun f hf => absurd rfl hf, fun f g => by simp [get], fun f r => by simp [get], ?_, ?_, ?_⟩ <;> simp
  simpa [vccParse] using h0.decls prog

end Recorded

/-! ## The checks -/

section Checks

variable {prog : List Decl} {tl : TokenList} {ps ps' : List Proc} {k : ℕ} {m : Method} {f : String} {r : Ret}

/-- The program gets through `vcc_Parse`, `vcc_CheckReferences` and `vcc_CheckAction`. -/
structure Passes (k : ℕ) (prog : List Decl) : Prop where
  parse : (vccParse prog).err = false
  references : checkReferences (vccParse prog) = 0
  action : ∃ ps', checkAction k (vccParse prog).procs = some (.ok ps')

/-- The assertions of `VCL_MET_MAC` on `sp->handling` after the method. -/
def Method.Allows (m : Method) (r : Ret) : Prop := r.bit &&& m.retBitmap ≠ 0 ∧ r.bit &&& ~~~m.retBitmap = 0

/-- One C function calls the other, through any number of functions. -/
def CChain (tl : TokenList) : String → String → Prop := Relation.ReflTransGen fun f g => (f, .call g) ∈ tl.lines

/-- There is a `VRT_done` of the action in the C function. -/
def DoneIn (tl : TokenList) (f : String) (r : Ret) : Prop :=
  (f, .done r) ∈ tl.lines ∨ ∃ dones, (f, .src dones) ∈ tl.lines ∧ r ∈ dones

/-- One sub calls the other, through any number of subs. -/
def SubChain (prog : List Decl) : String → String → Prop := Relation.ReflTransGen fun f g => (f, .call g) ∈ stmts prog

/-- The sub has an `error` statement, or inline C with a `VRT_done`. -/
def Unrecorded (prog : List Decl) (f : String) (r : Ret) : Prop := ∃ s, (f, s) ∈ stmts prog ∧ r ∈ s.unrecorded

theorem unrecorded_iff : Unrecorded prog f r ↔
    (r = .error ∧ ∃ v, (f, .error v) ∈ stmts prog) ∨ ∃ dones, (f, .csrc dones) ∈ stmts prog ∧ r ∈ dones := by
  constructor
  · rintro ⟨s, hs, hr⟩
    cases s with
    | error v => exact .inl ⟨by simpa [Stmt.unrecorded] using hr, v, hs⟩
    | csrc dones => exact .inr ⟨dones, hs, hr⟩
    | call => cases hr
    | ret => cases hr
    | action => cases hr
    | cond => cases hr
    | brace => cases hr
  · rintro (⟨rfl, v, hv⟩ | ⟨dones, hd, hr⟩)
    · exact ⟨_, hv, List.mem_singleton_self _⟩
    · exact ⟨_, hd, hr⟩

theorem allows_iff : m.Allows r ↔ m.retBitmap.getLsbD r.num = true := by
  have hand : ∀ a : BitVec 32, r.bit &&& a = if a.getLsbD r.num = true then r.bit else 0#32 := by
    intro a
    rw [BitVec.and_comm]
    exact BitVec.and_twoPow a r.num
  have hne : r.bit ≠ 0#32 := by cases r <;> decide
  have hlt : r.num < 32 := by cases r <;> decide
  unfold Method.Allows
  rw [hand, hand, BitVec.getLsbD_not]
  by_cases h : m.retBitmap.getLsbD r.num = true <;> simp [h, hne, hlt]

/-- Only bits of the map pass the test of `vcc_CheckActionRecurse`. -/
theorem getLsbD_of_and_not {a b : BitVec 32} {i : ℕ} (h : a &&& ~~~b = 0) (ha : a.getLsbD i = true) : b.getLsbD i = true := by
  have hi : i < 32 := BitVec.lt_of_getLsbD ha
  have hbit : (a &&& ~~~b).getLsbD i = false := by
    rw [h]
    simp
  simpa [ha, hi] using hbit

theorem isMethod_self (h : m ∈ methodTab) : isMethod m.name = some m := by
  have hall : ∀ m ∈ methodTab, isMethod m.name = some m := by decide
  exact hall m h

theorem get_of_not_mem {n : String} (h : n ∉ ps.map Proc.name) : get ps n = { name := n } := by
  unfold get
  have hnone : ps.find? (·.name = n) = none := by
    rw [List.find?_eq_none]
    rintro p hp
    have : p.name ≠ n := fun he => h (he ▸ List.mem_map_of_mem hp)
    simpa using this
  rw [hnone]
  rfl

/-- What is below a method of a program that passes. -/
theorem below_method (h : checkAction k ps = some (.ok ps')) (hm : m ∈ methodTab) (hf : Chain ps m.name f) :
    (get ps f).retBitmap &&& ~~~m.retBitmap = 0 ∧ ¬ Relation.TransGen (fun a b => b ∈ callees ps a) f f ∧
      ∀ g ∈ (get ps f).calls, (get ps g).exist ≠ 0 := by
  by_cases hmem : m.name ∈ ps.map Proc.name
  · have hpassed := (checkAction_ok h).2 m.name hmem m (isMethod_self hm)
    exact ⟨hpassed.ret f hf, hpassed.depth.acyclic hf, fun g hg => hpassed.exist g (hf.tail hg)⟩
  · -- the method has no text, and there is nothing below it
    have hget := get_of_not_mem hmem
    have hdepth : Depth (callees ps) 1 m.name := by
      intro c hc
      simp [callees, hget] at hc
    rcases hf.cases with rfl | ⟨c, hc, -⟩
    · exact ⟨by simp [hget], hdepth.not_cycle, by simp [hget]⟩
    · simp [hget] at hc

/-- Every `VRT_done` that a method can come to is one that it may return, and below the methods there is no recursion and no
sub that is not defined, if and only if this is so for the `VRT_done` that are not recorded. -/
theorem done_allowed_iff (h : Passes k prog) :
    (∀ m ∈ methodTab, ∀ f, CChain (vccParse prog) m.name f → (∀ r, DoneIn (vccParse prog) f r → m.Allows r) ∧
      ¬ Relation.TransGen (fun f g => (f, .call g) ∈ (vccParse prog).lines) f f ∧
      ∀ g, (f, .call g) ∈ (vccParse prog).lines → g ∈ subs prog) ↔
    ∀ m ∈ methodTab, ∀ f, SubChain prog m.name f → ∀ r, Unrecorded prog f r → m.Allows r := by
  obtain ⟨ps', hact⟩ := h.action
  have hrec := vccParse_recorded prog
  have hcalls : (fun f g => (f, CLine.call g) ∈ (vccParse prog).lines) = fun f g => g ∈ callees (vccParse prog).procs f := by
    funext f g
    exact propext ((hrec.callLines f g).trans (hrec.calls f g).symm)
  have hsrc : (fun f g => (f, Stmt.call g) ∈ stmts prog) = fun f g => g ∈ callees (vccParse prog).procs f := by
    funext f g
    exact propext (hrec.calls f g).symm
  unfold CChain SubChain
  rw [hcalls, hsrc]
  constructor
  · intro hall m hm f hf r hr
    refine (hall m hm f hf).1 r ?_
    rcases unrecorded_iff.mp hr with hr | ⟨dones, hsrc, hr⟩
    · exact .inl ((hrec.doneLines f r).mpr (.inr hr))
    · exact .inr ⟨dones, (hrec.srcLines f dones).mpr hsrc, hr⟩
  · intro hall m hm f hf
    obtain ⟨hret, hcycle, hexist⟩ := below_method hact hm hf
    refine ⟨fun r hr => ?_, hcycle, fun g hg => ?_⟩
    · rcases hr with hr | ⟨dones, hsrc, hr⟩
      · rcases (hrec.doneLines f r).mp hr with hr | hr
        · exact allows_iff.mpr (getLsbD_of_and_not hret ((hrec.rets f r).mpr hr))
        · exact hall m hm f hf r (unrecorded_iff.mpr (.inl hr))
      · exact hall m hm f hf r (unrecorded_iff.mpr (.inr ⟨dones, (hrec.srcLines f dones).mp hsrc, hr⟩))
    · exact hrec.exist g (hexist g ((hrec.calls f g).mpr ((hrec.callLines f g).mp hg)))

/-- A variable of every method. -/
def anyUse (text name : String) : Use := ⟨text, ⟨name, 0x1ff⟩⟩

def returns (r : Ret) : Code .compound := .stmt (.ret r) .close

/-- `default.vcl` -/
def defaultVcl : List Decl :=
  let xff := anyUse "req.http.X-Forwarded-For" "req.http."
  let ip := anyUse "client.ip" "client.ip"
  let req := anyUse "req.request" "req.request"
  let hash : Use := ⟨"req.hash", ⟨"req.hash", 0b100001000⟩⟩
  let obj text : Use := ⟨text, ⟨text, 0b100000000⟩⟩
  [.sub "vcl_recv"
      (.ifStmt { uses := [anyUse "req.http.x-forwarded-for" "req.http."] }
        (.stmt (.action { uses := [xff, xff, ip] }) .close) (.els (.stmt (.action { uses := [xff, ip] }) .close)) <|
      .ifStmt { uses := [req, req, req, req, req, req, req] } (returns .pipe) .endIf <|
      .ifStmt { uses := [req, req] } (returns .pass) .endIf <|
      .ifStmt { uses := [anyUse "req.http.Authorization" "req.http.", anyUse "req.http.Cookie" "req.http."] }
        (returns .pass) .endIf <|
      returns .lookup),
    .sub "vcl_pipe" (returns .pipe),
    .sub "vcl_pass" (returns .pass),
    .sub "vcl_hash"
      (.stmt (.action { uses := [hash, anyUse "req.url" "req.url"] }) <|
      .ifStmt { uses := [anyUse "req.http.host" "req.http."] }
        (.stmt (.action { uses := [hash, anyUse "req.http.host" "req.http."] }) .close)
        (.els (.stmt (.action { uses := [hash, anyUse "server.ip" "server.ip"] }) .close)) <|
      returns .hash),
    .sub "vcl_hit"
      (.ifStmt { uses := [⟨"obj.cacheable", ⟨"obj.cacheable", 0b100000⟩⟩] } (returns .pass) .endIf (returns .deliver)),
    .sub "vcl_miss" (returns .fetch),
    .sub "vcl_fetch"
      (.ifStmt { uses := [⟨"beresp.cacheable", ⟨"beresp.cacheable", 0b1000000⟩⟩] } (returns .pass) .endIf <|
      .ifStmt { uses := [⟨"beresp.http.Set-Cookie", ⟨"beresp.http.", 0b1000000⟩⟩] } (returns .pass) .endIf <|
      returns .deliver),
    .sub "vcl_deliver" (returns .deliver),
    .sub "vcl_error"
      (.stmt (.action { uses := [⟨"obj.http.Content-Type", ⟨"obj.http.", 0b100100000⟩⟩] }) <|
      .stmt (.action { uses := [obj "obj.status", obj "obj.response", obj "obj.status", obj "obj.response",
        obj "obj.response", anyUse "req.xid" "req.xid"] }) <|
      returns .deliver)]

/-- A backend, and one method with an `error` statement in a sub that it calls. -/
def errorVcl (method : String) : List Decl :=
  [.director "default" 0 [], .sub method (.stmt (.call "refuse") .close), .sub "refuse" (.stmt (.error {}) .close)] ++ defaultVcl

theorem done_allowed_iff_recv : Passes 11 (errorVcl "vcl_recv") ∧ ∀ m ∈ methodTab, ∀ f,
    CChain (vccParse (errorVcl "vcl_recv")) m.name f → ∀ r, DoneIn (vccParse (errorVcl "vcl_recv")) f r → m.Allows r := by
  have hpasses : Passes 11 (errorVcl "vcl_recv") :=
    ⟨by decide +kernel, by decide +kernel, (vccParse (errorVcl "vcl_recv")).procs.map Proc.leave, by decide +kernel⟩
  have hcalls : ∀ x ∈ stmts (errorVcl "vcl_recv"), x.2.calls ≠ [] → x.1 = "vcl_recv" := by decide +kernel
  have hunrec : ∀ x ∈ stmts (errorVcl "vcl_recv"), ∀ r ∈ x.2.unrecorded, x.1 = "refuse" ∧ r = .error := by decide +kernel
  have hnames : ∀ m ∈ methodTab, m.name ≠ "refuse" ∧ (m.name = "vcl_recv" → Ret.error.bit &&& m.retBitmap ≠ 0 ∧
      Ret.error.bit &&& ~~~m.retBitmap = 0) := by decide
  refine ⟨hpasses, fun m hm f hf => ((done_allowed_iff hpasses).mpr ?_ m hm f hf).1⟩
  rintro m hm f hf r ⟨s, hs, hr⟩
  obtain ⟨rfl, rfl⟩ := hunrec _ hs r hr
  rcases Relation.ReflTransGen.cases_head hf with heq | ⟨c, hc, -⟩
  · exact absurd heq (hnames m hm).1
  · exact (hnames m hm).2 (hcalls _ hc (List.cons_ne_nil _ _))

/-- An `error` statement in a sub that `vcl_deliver` calls is not found by the checks. -/
theorem done_allowed_deliver : Passes 11 (errorVcl "vcl_deliver") ∧
    checkUses 11 (vccParse (errorVcl "vcl_deliver")).procs = some (.ok ()) ∧
    ¬ ∀ m ∈ methodTab, ∀ f, CChain (vccParse (errorVcl "vcl_deliver")) m.name f →
      (∀ r, DoneIn (vccParse (errorVcl "vcl_deliver")) f r → m.Allows r) ∧
      ¬ Relation.TransGen (fun f g => (f, .call g) ∈ (vccParse (errorVcl "vcl_deliver")).lines) f f ∧
      ∀ g, (f, .call g) ∈ (vccParse (errorVcl "vcl_deliver")).lines → g ∈ subs (errorVcl "vcl_deliver") := by
  have hpasses : Passes 11 (errorVcl "vcl_deliver") :=
    ⟨by decide +kernel, by decide +kernel, (vccParse (errorVcl "vcl_deliver")).procs.map Proc.leave, by decide +kernel⟩
  refine ⟨hpasses, by decide +kernel, fun hall => ?_⟩
  have hcall : CChain (vccParse (errorVcl "vcl_deliver")) "vcl_deliver" "refuse" := .single (by decide +kernel)
  have hdone : DoneIn (vccParse (errorVcl "vcl_deliver")) "refuse" .error := .inl (by decide +kernel)
  have hallows := (hall ⟨"vcl_deliver", Ret.restart.bit ||| Ret.deliver.bit, 1#32 <<< 7⟩ (by decide) "refuse" hcall).1 _ hdone
  exact absurd hallows.1 (by decide)

end Checks

end Varnish.Vcc
