import Mathlib.Data.Nat.Notation
import Mathlib.Logic.Function.Basic

/-!
# Varnish.Vbe.Model — backends and their connections (`cache_backend.c`, `cache_backend_cfg.c`)

The sessions and the CLI thread take turns; a step is a section under a lock with the code around it that needs none.

* `vbeGetVbe` and what follows it: how a session gets a connection, which is idle or new.
* `vbeClosedFd`, `vbeRecycleFd`: how it gives it back.
* `vbeAddBackend`, `vbeDropRef`, `vbeNuke`, `vbePoll`: what the CLI thread does with the backends of a VCL.
* `Act`, `poolStep`: the steps.
-/

namespace Varnish.Vbe

/-! ## Data -/

section Data

/-- `struct backend`; `ident` is what `VBE_AddBackend` compares, `probe` if there is a probe thread. -/
structure Backend where
  ident : ℕ
  refcount : ℕ
  nConn : ℕ
  maxConn : ℕ
  connlist : List ℕ
  probe : Bool

/-- `struct vbe_conn`; one that is not `live` was freed. -/
structure VbeConn where
  live : Bool
  fd : Option ℕ
  backend : Option ℕ

/-- Where a session is: outside, in the loop of `vbe_GetVbe` for the backend `b`, with an idle connection that is not checked, without
one, before and behind the check for `max_conn`, with a new one, in `bes_conn_try`, behind it without success, with a connection, and
in `VBE_ClosedFd` behind the lock, from which it goes back to `vbe_GetVbe` if `again`. -/
inductive Pc
  | free
  | start (b : ℕ)
  | taken (b vc : ℕ)
  | miss (b : ℕ)
  | wants (b : ℕ)
  | fresh (b vc : ℕ)
  | trying (b vc : ℕ)
  | failed (vc : ℕ)
  | held (b vc : ℕ)
  | closing (vc : ℕ) (again : Option ℕ)
deriving DecidableEq

/-- Where the CLI thread is: between two commands or in one, behind `VBE_Poll` or not; in `VBE_AddBackend`, which has read a `refcount`;
in the disposal of a VCL; behind the last reference of a backend. -/
inductive Cli
  | idle (polled : Bool)
  | adding (v b read : ℕ)
  | dropping (v : ℕ)
  | cleaning (v b : ℕ)
deriving DecidableEq

/-- All of it.  `backends` and `vbeConns` are the lists, `dirs` the directors of the VCLs with their backends, `fds` what is open;
`vcl` and `pc` are the VCL of a session and where it is. -/
structure Pool where
  be : ℕ → Backend
  backends : List ℕ
  nextBe : ℕ
  vc : ℕ → VbeConn
  vbeConns : List ℕ
  nextVc : ℕ
  fds : List ℕ
  dirs : List (ℕ × ℕ)
  discard : ℕ → Bool
  vcl : ℕ → Option ℕ
  pc : ℕ → Pc
  cli : Cli

def Pool.init : Pool where
  be _ := ⟨0, 0, 0, 0, [], false⟩
  backends := []
  nextBe := 0
  vc _ := ⟨false, none, none⟩
  vbeConns := []
  nextVc := 0
  fds := []
  dirs := []
  discard _ := false
  vcl _ := none
  pc _ := .free
  cli := .idle false

def Pool.setBe (s : Pool) (b : ℕ) (x : Backend) : Pool := { s with be := Function.update s.be b x }

def Pool.setVc (s : Pool) (vc : ℕ) (x : VbeConn) : Pool := { s with vc := Function.update s.vc vc x }

def Pool.setPc (s : Pool) (sp : ℕ) (pc : Pc) : Pool := { s with pc := Function.update s.pc sp pc }

end Data

/-! ## The sessions -/

section Sessions

/-- `VBE_ReleaseConn`, where `cached` is `params->cache_vbe_conns`. -/
def vbeReleaseConn (cached : Bool) (s : Pool) (vc : ℕ) : Option Pool :=
  if (s.vc vc).backend = none ∧ (s.vc vc).fd = none then
    if cached then some { s with vbeConns := vc :: s.vbeConns } else some (s.setVc vc { s.vc vc with live := false })
  else none

/-- `VBE_DropRefLocked` up to the unlock. -/
def vbeDropRefLocked (s : Pool) (b : ℕ) : Option Pool :=
  if 0 < (s.be b).refcount then some (s.setBe b { s.be b with refcount := (s.be b).refcount - 1 }) else none

/-- `close` of an open file. -/
def closeFd (s : Pool) (vc f : ℕ) : Option Pool :=
  if f ∈ s.fds then some ({ s with fds := s.fds.erase f }.setVc vc { s.vc vc with fd := none }) else none

/-- `VBE_ClosedFd` with `VBE_DropRefConn`, up to the unlock; `ASSERT_CLI` fails behind the last reference. -/
def vbeClosedFd (s : Pool) (sp vc : ℕ) (again : Option ℕ) : Option Pool :=
  match (s.vc vc).fd, (s.vc vc).backend with
  | some f, some b => do
    let s ← closeFd s vc f
    if (s.be b).nConn = 0 then none
    else
      let s ← vbeDropRefLocked (s.setBe b { s.be b with nConn := (s.be b).nConn - 1 }) b
      if (s.be b).refcount = 0 then none else some (s.setPc sp (.closing vc again))
  | _, _ => none

/-- `VBE_RecycleFd` -/
def vbeRecycleFd (s : Pool) (sp vc : ℕ) : Option Pool :=
  match (s.vc vc).fd, (s.vc vc).backend with
  | some _, some b => do
    let s ← vbeDropRefLocked (s.setBe b { s.be b with connlist := vc :: (s.be b).connlist }) b
    if (s.be b).refcount = 0 then none else some (s.setPc sp .free)
  | _, _ => none

/-- `vbe_GetVbe`: the section in which an idle connection is taken. -/
def vbeGetVbe (s : Pool) (sp b : ℕ) : Option Pool :=
  match (s.be b).connlist with
  | [] => some (s.setPc sp (.miss b))
  | vc :: l =>
    if (s.vc vc).backend = some b ∧ (s.vc vc).fd ≠ none then
      some ((s.setBe b { s.be b with refcount := (s.be b).refcount + 1, connlist := l }).setPc sp (.taken b vc))
    else none

/-- `vbe_GetVbe` behind the loop: whether it goes on to a new connection, where `healthy` is the answer of `vbe_Healthy`. -/
def vbeMaxConn (healthy : Bool) (s : Pool) (sp b : ℕ) : Pool :=
  if healthy = false then s.setPc sp .free
  else if 0 < (s.be b).maxConn ∧ (s.be b).maxConn ≤ (s.be b).nConn then s.setPc sp .free
  else s.setPc sp (.wants b)

/-- `vbe_NewConn`, with the assertions of `vbe_GetVbe` on what it gives. -/
def vbeNewConn (s : Pool) (sp b : ℕ) : Option Pool :=
  match s.vbeConns with
  | vc :: l =>
    if (s.vc vc).fd = none ∧ (s.vc vc).backend = none then some ({ s with vbeConns := l }.setPc sp (.fresh b vc)) else none
  | [] => some (({ s with nextVc := s.nextVc + 1 }.setVc s.nextVc ⟨true, none, none⟩).setPc sp (.fresh b s.nextVc))

/-- `bes_conn_try`, the first section. -/
def besConnTry (s : Pool) (sp b vc : ℕ) : Pool :=
  (s.setBe b { s.be b with refcount := (s.be b).refcount + 1, nConn := (s.be b).nConn + 1 }).setPc sp (.trying b vc)

/-- `bes_conn_try` behind `vbe_TryConnect`, which opens the file `r` or none. -/
def besConnected (s : Pool) (sp b vc : ℕ) (r : Option ℕ) : Option Pool :=
  match r with
  | none =>
    some ((s.setBe b { s.be b with refcount := (s.be b).refcount - 1, nConn := (s.be b).nConn - 1 }).setPc sp (.failed vc))
  | some f =>
    if f ∈ s.fds then none
    else some (({ s with fds := f :: s.fds }.setVc vc { s.vc vc with fd := some f, backend := some b }).setPc sp (.held b vc))

end Sessions

/-! ## The CLI thread -/

section CliThread

/-- `VBE_AddBackend`: a backend that is there is found, and its `refcount` read, or a new one is made. -/
def vbeAddBackend (s : Pool) (v ident maxConn : ℕ) (probe : Bool) : Pool :=
  match s.backends.find? fun b => (s.be b).ident = ident with
  | some b => { s with cli := .adding v b (s.be b).refcount }
  | none => { s.setBe s.nextBe ⟨ident, 1, 0, maxConn, [], probe⟩ with
    backends := s.backends ++ [s.nextBe]
    nextBe := s.nextBe + 1
    dirs := (v, s.nextBe) :: s.dirs }

/-- `b->refcount++`, which has read `read`. -/
def vbeAddStore (s : Pool) (v b read : ℕ) : Pool :=
  { s.setBe b { s.be b with refcount := read + 1 } with dirs := (v, b) :: s.dirs, cli := .idle true }

/-- `VBE_DropRef` for the next director of a VCL, up to the unlock. -/
def vbeDropRef (s : Pool) (v : ℕ) : Option Pool :=
  match s.dirs.find? fun d => d.1 = v with
  | none => some { s with cli := .idle false }
  | some d => do
    let s ← vbeDropRefLocked s d.2
    some { s with dirs := s.dirs.erase d, cli := if (s.be d.2).refcount = 0 then .cleaning v d.2 else .dropping v }

/-- `VBE_Nuke` -/
def vbeNuke (s : Pool) (b : ℕ) : Pool := { s with backends := s.backends.erase b }

/-- `VBE_DropRefLocked` behind the last reference: an idle connection is closed, or all were and the probe is stopped or the backend
freed. -/
def vbeClean (cached : Bool) (s : Pool) (v b : ℕ) : Option Pool :=
  match (s.be b).connlist with
  | vc :: l => do
    let s := s.setBe b { s.be b with connlist := l }
    let s ← match (s.vc vc).fd with
      | some f => closeFd s vc f
      | none => some s
    vbeReleaseConn cached (s.setVc vc { s.vc vc with backend := none }) vc
  | [] =>
    if (s.be b).probe then some { s.setBe b { s.be b with probe := false } with cli := .dropping v }
    else some { vbeNuke s b with cli := .dropping v }

/-- `VBE_Poll` -/
def vbePoll (s : Pool) : Pool :=
  { s with backends := s.backends.filter fun b => !((s.be b).refcount = 0 && !(s.be b).probe), cli := .idle true }

end CliThread

/-! ## The steps -/

section Steps

inductive Act
  | vclGet (sp v : ℕ)
  | vclRel (sp : ℕ)
  | getFd (sp b : ℕ)
  | getVbe (sp : ℕ)
  | checkFd (sp : ℕ) (ok : Bool)
  | maxConn (sp : ℕ) (healthy : Bool)
  | newConn (sp : ℕ)
  | connTry (sp : ℕ)
  | connected (sp : ℕ) (r : Option ℕ)
  | release (sp : ℕ) (cached : Bool)
  | closedFd (sp : ℕ)
  | recycleFd (sp : ℕ)
  | add (v ident maxConn : ℕ) (probe : Bool)
  | addStore
  | discard (v : ℕ)
  | dispose (v : ℕ)
  | dropRef
  | clean (cached : Bool)
  | poll

/-- A step of a session, by where it is. -/
def sessStep (s : Pool) (sp : ℕ) : Pc → Act → Option Pool
  | .free, .getFd _ b =>
    match s.vcl sp with
    | some v => if (v, b) ∈ s.dirs then some (s.setPc sp (.start b)) else none
    | none => none
  | .start b, .getVbe _ => vbeGetVbe s sp b
  | .taken b vc, .checkFd _ ok => if ok then some (s.setPc sp (.held b vc)) else vbeClosedFd s sp vc (some b)
  | .miss b, .maxConn _ healthy => some (vbeMaxConn healthy s sp b)
  | .wants b, .newConn _ => vbeNewConn s sp b
  | .fresh b vc, .connTry _ => some (besConnTry s sp b vc)
  | .trying b vc, .connected _ r => besConnected s sp b vc r
  | .failed vc, .release _ cached => vbeReleaseConn cached (s.setPc sp .free) vc
  | .closing vc again, .release _ cached =>
    vbeReleaseConn cached ((s.setVc vc { s.vc vc with backend := none }).setPc sp (again.elim .free .start)) vc
  | .held _ vc, .closedFd _ => vbeClosedFd s sp vc none
  | .held _ vc, .recycleFd _ => vbeRecycleFd s sp vc
  | _, _ => none

/-- A step of the CLI thread, by where it is. -/
def cliStep (s : Pool) : Cli → Act → Option Pool
  | .idle true, .add v ident maxConn probe => if s.discard v then none else some (vbeAddBackend s v ident maxConn probe)
  | .adding v b read, .addStore => some (vbeAddStore s v b read)
  | .idle _, .discard v => some { s with discard := Function.update s.discard v true }
  | .idle _, .dispose v => if s.discard v then some { s with cli := .dropping v } else none
  | .dropping v, .dropRef => vbeDropRef s v
  | .cleaning v b, .clean cached => vbeClean cached s v b
  | .idle _, .poll => some (vbePoll s)
  | _, _ => none

def poolStep (s : Pool) : Act → Option Pool
  | .vclGet sp v =>
    if s.vcl sp = none ∧ s.pc sp = .free ∧ s.discard v = false then some { s with vcl := Function.update s.vcl sp (some v) } else none
  | .vclRel sp => if s.pc sp = .free then some { s with vcl := Function.update s.vcl sp none } else none
  | .getFd sp b => sessStep s sp (s.pc sp) (.getFd sp b)
  | .getVbe sp => sessStep s sp (s.pc sp) (.getVbe sp)
  | .checkFd sp ok => sessStep s sp (s.pc sp) (.checkFd sp ok)
  | .maxConn sp healthy => sessStep s sp (s.pc sp) (.maxConn sp healthy)
  | .newConn sp => sessStep s sp (s.pc sp) (.newConn sp)
  | .connTry sp => sessStep s sp (s.pc sp) (.connTry sp)
  | .connected sp r => sessStep s sp (s.pc sp) (.connected sp r)
  | .release sp cached => sessStep s sp (s.pc sp) (.release sp cached)
  | .closedFd sp => sessStep s sp (s.pc sp) (.closedFd sp)
  | .recycleFd sp => sessStep s sp (s.pc sp) (.recycleFd sp)
  | a => cliStep s s.cli a

/-- When a VCL is disposed of: no session uses it. -/
def Act.Ok (s : Pool) : Act → Prop
  | .dispose v => ∀ sp, s.vcl sp ≠ some v
  | _ => True

/-- No session has changed the `refcount` since `VBE_AddBackend` read it. -/
def Act.Safe (s : Pool) : Act → Prop
  | .addStore => ∀ v b read, s.cli = .adding v b read → (s.be b).refcount = read
  | _ => True

end Steps

end Varnish.Vbe
