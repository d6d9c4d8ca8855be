import Mathlib.Data.Int.Notation
import Mathlib.Data.Nat.Notation
import Mathlib.Logic.Function.Basic
import Varnish.Lib.Run

/-!
# Varnish.Vcl.Model — the loaded VCL programs of the worker process (cache_vcl.c)

The CLI thread loads, selects and discards programs, and all other threads take and release references to the
active one.  `vcl_mtx` is held in short sections; between them any thread may run.

* `Cli`: what only the CLI thread writes.  `St`: with the reference counts, and who holds references.
* `vclGet`, `vclRel`, `vclRefresh`: the section of each, with the look at `vcl_active` in front of it.
* `vclLoad`, `configDiscard`, `configUse`, `vclPoll`, `vclNuke`: the CLI thread, from one section to the next (`Pc`).
* `step`: one section, or one look at what the section of another thread may change.
* `Called`: what the callers see to.

A `struct vcls` is told by its address; `none` is memory that is not allocated, and every look at it fails.
-/

namespace Varnish.Vcl

open Varnish.Lib

/-! ## The state -/

section State

/-- `struct vcls` with `discard` of its `conf`. -/
structure Vcls where
  name : List Char
  file : List Char
  discard : Bool
deriving DecidableEq

/-- What comes of `dlopen`, `dlsym` and the check of the magic number. -/
inductive Opened
  | good | noDlopen | noSymbol | badMagic
deriving DecidableEq

/-- The commands that change something. -/
inductive Cmd
  | load (name file : List Char) (opened : Opened)
  | discard (name : List Char)
  | use (name : List Char)
deriving DecidableEq

/-- Where `VCL_Nuke` returns to: the end of `vcl.discard`, or the loop of `VCL_Poll` with what it has not looked at. -/
inductive Return
  | discard (name : List Char)
  | poll (rest : List ℕ)
deriving DecidableEq

/-- Where the CLI thread is. -/
inductive Pc
  | idle
  | loaded (v : ℕ) (name file : List Char)
  | discarded (v : ℕ) (name : List Char)
  | chosen (v : ℕ) (name : List Char)
  | poll (rest : List ℕ)
  | nuke (v : ℕ) (ret : Return)
deriving DecidableEq

/-- `vcl_head`, the programs, `vcl_active`, the counters `n_vcl`, `n_vcl_avail` and `n_vcl_discard`, and the commands
that were answered, with whether the status was `CLIS_OK`. -/
structure Cli where
  head : List ℕ
  mem : ℕ → Option Vcls
  active : Option ℕ
  nVcl : ℤ
  nAvail : ℤ
  nDiscard : ℤ
  pc : Pc
  replies : List (Cmd × Bool)

/-- With `busy` of each `conf`, `once` of `VCL_Get`, and the variables that point to a program. -/
structure St where
  cli : Cli
  busy : ℕ → ℕ
  once : Bool
  hold : ℕ → Option ℕ

def start : St where
  cli :=
    { head := []
      mem := fun _ => none
      active := none
      nVcl := 0
      nAvail := 0
      nDiscard := 0
      pc := .idle
      replies := [] }
  busy := fun _ => 0
  once := false
  hold := fun _ => none

/-- The CLI thread goes back to its loop with an answer. -/
def Cli.reply (c : Cli) (cmd : Cmd) (ok : Bool) : Cli := { c with pc := .idle, replies := c.replies ++ [(cmd, ok)] }

end State

/-! ## References -/

section References

/-- `VCL_Get`; as long as nothing was ever loaded it waits. -/
def vclGet (s : St) (k : ℕ) : Option St :=
  if s.once = false ∧ s.cli.active = none then some s
  else
    match s.cli.active with
    | none => none
    | some v =>
      match s.cli.mem v with
      | none => none
      | some vcl =>
        if vcl.discard then none
        else some
          { s with
            once := true
            hold := Function.update s.hold k (some v)
            busy := Function.update s.busy v (s.busy v + 1) }

/-- `VCL_Rel` -/
def vclRel (s : St) (k : ℕ) : Option St :=
  match s.hold k with
  | none => none
  | some v =>
    if s.cli.mem v = none ∨ s.busy v = 0 then none
    else some
      { s with
        hold := Function.update s.hold k none
        busy := Function.update s.busy v (s.busy v - 1) }

/-- `VCL_Refresh` up to its `VCL_Get`, which is a step of its own. -/
def vclRefresh (s : St) (k : ℕ) : Option St :=
  if s.cli.active ≠ none ∧ s.hold k = s.cli.active then some s
  else if s.hold k ≠ none then vclRel s k
  else some s

/-- A pointer goes from one variable to another, as between `sp->vcl` and `wrk->vcl`. -/
def St.move (s : St) (k k' : ℕ) : St :=
  { s with hold := Function.update (Function.update s.hold k none) k' (s.hold k) }

/-- A call of a method of the program. -/
def vclMethod (s : St) (k : ℕ) : Option St :=
  match s.hold k with
  | none => none
  | some v => if s.cli.mem v = none then none else some s

end References

/-! ## The CLI thread -/

section CliThread

/-- `vcl_find`; the outer `none` is a look at freed memory. -/
def vclFind (mem : ℕ → Option Vcls) (name : List Char) : List ℕ → Option (Option ℕ)
  | [] => some none
  | v :: vs =>
    match mem v with
    | none => none
    | some vcl =>
      if vcl.discard then vclFind mem name vs
      else if vcl.name = name then some (some v)
      else vclFind mem name vs

/-- `VCL_Load` up to the lock, with the address that `ALLOC_OBJ` gives. -/
def vclLoad (c : Cli) (name file : List Char) (opened : Opened) (v : ℕ) : Option Cli :=
  match vclFind c.mem name c.head with
  | none => none
  | some (some _) => some (c.reply (.load name file opened) false)
  | some none =>
    if opened ≠ .good then some (c.reply (.load name file opened) false)
    else some
      { c with
        mem := Function.update c.mem v (some ⟨name, file, false⟩)
        head := c.head ++ [v]
        pc := .loaded v name file }

/-- `ccf_config_discard` up to its unlock. -/
def configDiscard (c : Cli) (name : List Char) : Option Cli :=
  match vclFind c.mem name c.head with
  | none => none
  | some none => some (c.reply (.discard name) false)
  | some (some v) =>
    if c.active = some v then some (c.reply (.discard name) false)
    else
      match c.mem v with
      | none => none
      | some vcl => some
        { c with
          mem := Function.update c.mem v (some { vcl with discard := true })
          nDiscard := c.nDiscard + 1
          nAvail := c.nAvail - 1
          pc := .discarded v name }

/-- `ccf_config_use` up to its lock. -/
def configUse (c : Cli) (name : List Char) : Option Cli :=
  match vclFind c.mem name c.head with
  | none => none
  | some none => some (c.reply (.use name) false)
  | some (some v) => some { c with pc := .chosen v name }

/-- `VCL_Poll`, up to the first look at a program. -/
def vclPoll (c : Cli) : Cli := { c with pc := .poll c.head }

def Return.back (c : Cli) : Return → Cli
  | .discard name => c.reply (.discard name) true
  | .poll rest => { c with pc := .poll rest }

/-- `VCL_Nuke` -/
def vclNuke (c : Cli) (busy : ℕ → ℕ) (v : ℕ) (ret : Return) : Option Cli :=
  match c.mem v with
  | none => none
  | some vcl =>
    if c.active = some v ∨ vcl.discard = false ∨ busy v ≠ 0 then none
    else some (ret.back
      { c with
        mem := Function.update c.mem v none
        head := c.head.erase v
        nVcl := c.nVcl - 1
        nDiscard := c.nDiscard - 1 })

/-- The CLI thread goes on. -/
def cliNext (c : Cli) (busy : ℕ → ℕ) : Option Cli :=
  match c.pc with
  | .idle => none
  | .loaded v name file => some (
    { c with
      active := if c.active = none then some v else c.active
      nVcl := c.nVcl + 1
      nAvail := c.nAvail + 1 }.reply (.load name file .good) true)
  | .discarded v name =>
    if c.mem v = none then none
    else some (if busy v = 0 then { c with pc := .nuke v (.discard name) } else c.reply (.discard name) true)
  | .chosen v name => some ({ c with active := some v }.reply (.use name) true)
  | .poll [] => some { c with pc := .idle }
  | .poll (v :: vs) =>
    match c.mem v with
    | none => none
    | some vcl => some { c with pc := if vcl.discard = true ∧ busy v = 0 then .nuke v (.poll vs) else .poll vs }
  | .nuke v ret => vclNuke c busy v ret

end CliThread

/-! ## Runs -/

section Runs

inductive Act
  | get (k : ℕ)
  | rel (k : ℕ)
  | refresh (k : ℕ)
  | move (k k' : ℕ)
  | method (k : ℕ)
  | load (name file : List Char) (opened : Opened) (v : ℕ)
  | discard (name : List Char)
  | use (name : List Char)
  | poll
  | next
deriving DecidableEq

def St.withCli (s : St) (c : Cli) : St := { s with cli := c }

/-- The memory that is allocated for a program has a `busy` of 0. -/
def step (s : St) : Act → Option St
  | .get k => vclGet s k
  | .rel k => vclRel s k
  | .refresh k => vclRefresh s k
  | .move k k' => some (s.move k k')
  | .method k => vclMethod s k
  | .load name file opened v => (vclLoad s.cli name file opened v).map { s with busy := Function.update s.busy v 0 }.withCli
  | .discard name => (configDiscard s.cli name).map s.withCli
  | .use name => (configUse s.cli name).map s.withCli
  | .poll => some (s.withCli (vclPoll s.cli))
  | .next => (cliNext s.cli s.busy).map s.withCli

/-- A reference is taken into a variable without one, and released or used out of one with one; memory is allocated
where there is none; the CLI thread takes up a command or the poll in front of it when it has ended the last one. -/
def Called (s : St) : Act → Prop
  | .get k => s.hold k = none
  | .rel k => s.hold k ≠ none
  | .refresh _ => True
  | .move k k' => k ≠ k' ∧ s.hold k' = none
  | .method k => s.hold k ≠ none
  | .load _ _ _ v => s.cli.pc = .idle ∧ s.cli.mem v = none
  | .discard _ => s.cli.pc = .idle
  | .use _ => s.cli.pc = .idle
  | .poll => s.cli.pc = .idle
  | .next => s.cli.pc ≠ .idle

instance (s : St) (a : Act) : Decidable (Called s a) := by
  cases a <;> unfold Called <;> infer_instance

end Runs

end Varnish.Vcl
