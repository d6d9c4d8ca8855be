import Varnish.Cli.Auth
import Varnish.Vcl.Table

/-!
# Varnish.Mgt.Model — the manager and its child (mgt_child.c, mgt_vcc.c)

* `Child`, `childLine`: the worker process as the CLI sees it: its programs, and whether it was told to start.
* `mgtCliAskchild`: a request to the child, which answers, ends, ends inside the answer, or answers too late.
* `startChild`, `mgtStopChild`, `mgtSigchld`, `childListener`, `childPoker`: the life of the child and what the manager keeps
  open for it.
* `mcfConfigLoad`, `mcfConfigUse`, `mcfConfigDiscard`, `mgtPushVcls`: the programs, and how the child gets them.
* `step`: the commands and the events of the manager.  `none` is a failed assertion, or the use of an event that is gone.
-/

namespace Varnish.Mgt

open Varnish.Ban Varnish.Serve Varnish.Vcl

/-! ## The child -/

section Worker

/-- The worker process. -/
structure Child where
  table : Table
  started : Bool
deriving DecidableEq

/-- A line of the manager: what it does, and the status of the answer.  `none` is a failed assertion of the child. -/
def childLine (c : Child) (opened : Opened) (line : Str) : Option (Child × ℕ) :=
  match clsVlu childCls 0 line with
  | .fault => none
  | .ignored => some (c, 400)
  | .answer status _ => some (c, status)
  | .call h av =>
    let vcl (cmd : Cmd) : Option (Child × ℕ) :=
      some ({ c with table := (c.table.exec cmd).1 }, if (c.table.exec cmd).2 then 200 else 106)
    match h with
    | .configLoad => vcl (.load (av.getD 1 []) (av.getD 2 []) opened)
    | .configDiscard => vcl (.discard (av.getD 1 []))
    | .configUse => vcl (.use (av.getD 1 []))
    | .start => some ({ c with started := true }, 200)
    | .panic => none
    | _ => some (c, 200)

end Worker

/-! ## The manager -/

section Manager

inductive ChildState
  | stopped | starting | running | stopping | died
deriving DecidableEq

/-- `struct vclprog` -/
structure Vclprog where
  name : Str
  fname : Str
  active : ℕ
deriving DecidableEq

/-- The manager.  `pid`, `cliFds`, `output` and `ask` tell that `child_pid`, the two ends of the CLI pipes, `child_output`, and
`cli_i` and `cli_o` are not -1; `evPoker` and `evListen` that the pointer is set, `pokerEv` and `listenEv` that the event is
there.  `lost` counts the descriptors that were overwritten while they were open, `files` are the shared objects that
exist, and `proc` is the process, while it has not ended. -/
structure St where
  childState : ChildState
  pid : Bool
  cliFds : Bool
  output : Bool
  ask : Bool
  evPoker : Bool
  pokerEv : Bool
  evListen : Bool
  listenEv : Bool
  lost : ℕ
  vclhead : List Vclprog
  files : List Str
  proc : Option Child
deriving DecidableEq

/-- How a request ends: with an answer, without one as the child ends, with one that is cut off behind its first line as the child
ends, or with an answer after the time is up; then the manager takes `status` for the answer, which is `CLIS_COMMS` or belongs to
an earlier request. -/
inductive Answer
  | reply (opened : Opened)
  | lost
  | cut
  | late (opened : Opened) (status : ℕ)

/-- What the child makes of a line that it gets, and the status that `cli_readres` reads.  It asserts that all of an answer comes when
the first line did. -/
def St.deliver (s : St) (line : Str) (a : Answer) : Option (St × ℕ) :=
  match s.proc, a with
  | none, _ => some (s, 400)
  | some _, .lost => some ({ s with proc := none }, 400)
  | some _, .cut => none
  | some c, .reply opened =>
    match childLine c opened line with
    | none => some ({ s with proc := none }, 400)
    | some (c, status) => some ({ s with proc := some c }, status)
  | some c, .late opened status =>
    match childLine c opened line with
    | none => some ({ s with proc := none }, 400)
    | some (c, _) => some ({ s with proc := some c }, status)

/-- `mgt_cli_askchild`, of a line without its newline; `buf` is `params->cli_buffer`. -/
def mgtCliAskchild (buf : ℕ) (s : St) (line : Str) (a : Answer) : Option (St × ℕ) :=
  if ¬ s.ask then some (s, 300)
  else if line.length + 1 ≥ buf then none
  else s.deliver line a

/-- `"vcl.load \"%s\" %s\n"` -/
def pushLoad (vp : Vclprog) : Str := "vcl.load".toList ++ ' ' :: '"' :: (vp.name ++ '"' :: ' ' :: vp.fname)

/-- `"vcl.use \"%s\"\n"` -/
def pushUse (vp : Vclprog) : Str := "vcl.use".toList ++ ' ' :: '"' :: (vp.name ++ ['"'])

/-- `mgt_push_vcls_and_start`, and whether it failed. -/
def mgtPushVcls (buf : ℕ) : St → List Vclprog → List Answer → Option (St × Bool)
  | s, [], as => do
    let (s, status) ← mgtCliAskchild buf s "start".toList (as.headD .lost)
    some (s, status ≠ 200)
  | s, vp :: vps, as => do
    let (s, status) ← mgtCliAskchild buf s (pushLoad vp) (as.headD .lost)
    if status ≠ 200 then some (s, true)
    else if vp.active = 0 then mgtPushVcls buf s vps as.tail
    else do
      let (s, status) ← mgtCliAskchild buf s (pushUse vp) (as.tail.headD .lost)
      if status ≠ 200 then some (s, true) else mgtPushVcls buf s vps as.tail.tail

/-- Takes the poker out of the events. -/
def St.delPoker (s : St) : Option St :=
  if ¬ s.evPoker then some s
  else if ¬ s.pokerEv then none
  else some { s with evPoker := false, pokerEv := false }

def St.delListen (s : St) : Option St :=
  if ¬ s.evListen then some s
  else if ¬ s.listenEv then none
  else some { s with evListen := false, listenEv := false }

/-- `closex` of the two descriptors of the CLI. -/
def St.closeCli (s : St) : Option St := if s.cliFds then some { s with cliFds := false } else none

def mgtStopChild (s : St) : Option St :=
  if s.childState ≠ .running then some s
  else do
    let s ← { s with childState := .stopping }.delPoker
    { s with ask := false }.closeCli

/-- What `start_child` does before it pushes the programs. -/
def St.launch (s : St) (ping : Bool) : St :=
  { s with
    childState := .starting
    lost := s.lost + (if s.cliFds then 2 else 0) + (if s.output then 1 else 0)
    cliFds := true
    output := true
    evListen := true
    listenEv := true
    evPoker := ping
    pokerEv := s.pokerEv || ping
    ask := true
    pid := true
    proc := some ⟨⟨[], none⟩, false⟩ }

/-- `start_child`.  `sockets` tells that one socket could be opened, `ping` that `ping_interval` is not 0. -/
def startChild (buf : ℕ) (s : St) (sockets ping : Bool) (as : List Answer) : Option St :=
  if s.childState ≠ .stopped ∧ s.childState ≠ .died then some s
  else if ¬ sockets then some { s with childState := .stopped }
  else if s.evListen ∨ s.evPoker then none
  else do
    let (s, failed) ← mgtPushVcls buf (s.launch ping) s.vclhead as
    if failed then mgtStopChild { s with childState := .running } else some { s with childState := .running }

/-- The first half of `mgt_sigchld`, for a child that has ended. -/
def St.reap (s : St) : Option St := do
  let s := { s with pid := false }
  let s ← if s.childState = .running then St.closeCli { s with childState := .died, ask := false } else some s
  let s ← s.delListen
  if s.output then some { s with output := false } else none

/-- `mgt_sigchld`; `restart` is `params->auto_restart`. -/
def mgtSigchld (buf : ℕ) (s : St) (restart sockets ping : Bool) (as : List Answer) : Option St := do
  let s ← s.delPoker
  if ¬ s.pid ∨ s.proc.isSome then some s
  else do
    let s ← s.reap
    if s.childState = .died ∧ restart then startChild buf s sockets ping as
    else if s.childState = .died ∨ s.childState = .stopping then some { s with childState := .stopped }
    else some s

/-- `child_listener`, with the end of the output or not. -/
def childListener (s : St) (hup : Bool) : St := if hup then { s with evListen := false, listenEv := false } else s

/-- `child_poker`; a callback that does not return 0 takes its event away. -/
def childPoker (buf : ℕ) (s : St) (a : Answer) : Option St :=
  if s.childState ≠ .running then some { s with pokerEv := false }
  else if ¬ s.pid then some s
  else (mgtCliAskchild buf s "ping".toList a).map Prod.fst

/-- `mcf_server_startstop`, `priv` is not NULL for `stop`. -/
def mcfServerStartstop (buf : ℕ) (s : St) (priv sockets ping : Bool) (as : List Answer) : Option St :=
  if priv ∧ s.childState = .running then mgtStopChild s
  else if ¬ priv ∧ s.childState = .stopped then
    if s.vclhead ≠ [] then startChild buf s sockets ping as else some s
  else some s

/-! ## Programs -/

/-- `mgt_vcc_byname` -/
def mgtVccByname (l : List Vclprog) (name : Str) : Option Vclprog := l.find? fun vp => name = vp.name

/-- The part that `mcf_config_load` and `mcf_config_inline` share; `compiled` is the file that the compilers give. -/
def mcfConfigInline (buf : ℕ) (s : St) (name : Str) (compiled : Option Str) (a : Answer) : Option St :=
  match mgtVccByname s.vclhead name, compiled with
  | some _, _ => some s
  | none, none => some s
  | none, some vf => do
    let s := { s with files := vf :: s.files }
    let mgtVccAdd (s : St) : St := { s with vclhead := s.vclhead ++ [⟨name, vf, 0⟩] }
    if s.pid then
      let (s, status) ← mgtCliAskchild buf s ("vcl.load".toList ++ ' ' :: (name ++ ' ' :: vf)) a
      if status ≠ 200 then some s else some (mgtVccAdd s)
    else some (mgtVccAdd s)

/-- `mcf_config_load`; `vcl` tells that the file could be read. -/
def mcfConfigLoad (buf : ℕ) (s : St) (name : Str) (vcl : Bool) (compiled : Option Str) (a : Answer) : Option St :=
  mcfConfigInline buf s name (if vcl then compiled else none) a

/-- The first program of that name gets the 2. -/
def markTwo (name : Str) : List Vclprog → List Vclprog
  | [] => []
  | vp :: vps => if name = vp.name then { vp with active := 2 } :: vps else vp :: markTwo name vps

def settleActive (vp : Vclprog) : Vclprog :=
  if vp.active = 1 then { vp with active := 0 } else if vp.active = 2 then { vp with active := 1 } else vp

def mcfConfigUse (buf : ℕ) (s : St) (name : Str) (a : Answer) : Option St :=
  match mgtVccByname s.vclhead name with
  | none => some s
  | some vp =>
    if vp.active ≠ 0 then some s
    else do
      let mark (s : St) : St := { s with vclhead := (markTwo name s.vclhead).map settleActive }
      if s.pid then
        let (s, status) ← mgtCliAskchild buf s ("vcl.use".toList ++ ' ' :: name) a
        if status ≠ 200 then some s else some (mark s)
      else some (mark s)

/-- `mgt_vcc_delbyname`, with the `XXXAZ` on `unlink`. -/
def mgtVccDelbyname (s : St) (name : Str) : Option St :=
  match mgtVccByname s.vclhead name with
  | none => none
  | some vp =>
    if !s.files.contains vp.fname then none
    else some { s with vclhead := s.vclhead.eraseP fun vp => name = vp.name, files := s.files.erase vp.fname }

def mcfConfigDiscard (buf : ℕ) (s : St) (name : Str) (a : Answer) : Option St :=
  match mgtVccByname s.vclhead name with
  | none => some s
  | some vp =>
    if vp.active ≠ 0 then some s
    else if s.pid then do
      let (s, status) ← mgtCliAskchild buf s ("vcl.discard".toList ++ ' ' :: name) a
      if status ≠ 200 then some s else mgtVccDelbyname s name
    else mgtVccDelbyname s name

/-- `mcf_config_list`, but for the texts. -/
def mcfConfigList (buf : ℕ) (s : St) (a : Answer) : Option St :=
  if s.pid then (mgtCliAskchild buf s "vcl.list".toList a).map Prod.fst else some s

/-- A line of a session, which `mcf_askchild` may hand on; the other functions have actions of their own. -/
def userLine (s : St) (auth : ℕ) (p : Str) (a : Answer) : Option St :=
  match clsVlu cls auth p with
  | .call h av =>
    if s.ask ∧ (h = .askchild ∨ h = .help ∧ .askchild ∈ clsFuncHelp cls av.tail) then (s.deliver (command p) a).map Prod.fst else some s
  | _ => some s

/-! ## Runs -/

inductive Act
  | startstop (priv sockets ping : Bool) (as : List Answer)
  | sigchld (restart sockets ping : Bool) (as : List Answer)
  | listener (hup : Bool)
  | poker (a : Answer)
  | load (name : Str) (vcl : Bool) (compiled : Option Str) (a : Answer)
  | use (name : Str) (a : Answer)
  | discard (name : Str) (a : Answer)
  | list (a : Answer)
  | user (auth : ℕ) (p : Str) (a : Answer)
  | ends

/-- The answers that a command or an event may need. -/
def Act.answers : Act → List Answer
  | .startstop _ _ _ as | .sigchld _ _ _ as => as
  | .poker a | .load _ _ _ a | .use _ a | .discard _ a | .list a | .user _ _ a => [a]
  | .listener _ | .ends => []

def step (buf : ℕ) (s : St) : Act → Option St
  | .startstop priv sockets ping as => mcfServerStartstop buf s priv sockets ping as
  | .sigchld restart sockets ping as => mgtSigchld buf s restart sockets ping as
  | .listener hup => some (childListener s hup)
  | .poker a => childPoker buf s a
  | .load name vcl compiled a => mcfConfigLoad buf s name vcl compiled a
  | .use name a => mcfConfigUse buf s name a
  | .discard name a => mcfConfigDiscard buf s name a
  | .list a => mcfConfigList buf s a
  | .user auth p a => userLine s auth p a
  | .ends => some { s with proc := none }

/-- Before `MGT_Run`, with the program that `mgt_vcc_default` compiles, if it is asked for one. -/
def start (boot : Option Str) : St where
  childState := .stopped
  pid := false
  cliFds := false
  output := false
  ask := false
  evPoker := false
  pokerEv := false
  evListen := false
  listenEv := false
  lost := 0
  vclhead := (boot.map fun vf => ⟨"boot".toList, vf, 1⟩).toList
  files := boot.toList
  proc := none

/-- When the event loop calls, and with what: an event that is there; a file that `vtmpfile` has made.  The requests about the
program fit in the buffer. -/
def Called (buf : ℕ) (s : St) : Act → Prop
  | .listener _ => s.listenEv = true
  | .poker _ => s.pokerEv = true
  | .load name _ compiled _ => ∀ vf ∈ compiled, vf ∉ s.files ∧ vf ≠ [] ∧ name.length + vf.length + 13 < buf
  | _ => True

instance (buf : ℕ) (s : St) : (a : Act) → Decidable (Called buf s a)
  | .listener _ => inferInstanceAs (Decidable (s.listenEv = true))
  | .poker _ => inferInstanceAs (Decidable (s.pokerEv = true))
  | .load name _ compiled _ =>
    inferInstanceAs (Decidable (∀ vf ∈ compiled, vf ∉ s.files ∧ vf ≠ [] ∧ name.length + vf.length + 13 < buf))
  | .startstop _ _ _ _ | .sigchld _ _ _ _ | .use _ _ | .discard _ _ | .list _ | .user _ _ _ | .ends => isTrue trivial

end Manager

end Varnish.Mgt
