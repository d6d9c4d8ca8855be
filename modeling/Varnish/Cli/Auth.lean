import Varnish.Lib.Run
import Varnish.Sha.Key
import Varnish.Http.Body
import Varnish.Cli.Serve

/-!
# Varnish.Cli.Auth — who may do what over the CLI (mgt_cli.c, cache_cli.c)

* `cls`, `childCls`: the tables of the manager and of the child.  The child gives every line the authority 0.
* `mcfAuth`, `line`, `mgtCliSetup`: a session that was opened with a challenge, and what its lines do.
* `Granted`: a response was accepted that is the hash of the challenge shown last and of the secret as it was read.
* `session_granted`: a session does nothing but help, ping, auth and quit before that, in the manager and in the child.
-/

namespace Varnish.Serve

open Varnish.Ban Varnish.Lib Varnish.Sha

/-! ## Tables -/

section Tables

/-- The functions of the manager. -/
inductive Handler
  | help | ping | auth | close | banner | status | start | stop | stats | configLoad | configInline | configUse
  | configDiscard | configList | configShow | paramShow | paramSet | panic | askchild
deriving DecidableEq

/-- The functions of the child. -/
inductive ChildHandler
  | ping | help | sizeof | panic | fragfetch | xid | srandom | configLoad | configList | configDiscard | configUse | backend
  | health | hcbDump | purgeUrl | purge | purgeList | start | listenAddress
deriving DecidableEq

def cliAuth : List (CliProto Handler) :=
  [⟨"help".toList, 0, 1, [], some .help⟩,
   ⟨"ping".toList, 0, 1, [], some .ping⟩,
   ⟨"auth".toList, 1, 1, [], some .auth⟩,
   ⟨"quit".toList, 0, 0, [], some .close⟩]

def cliProto : List (CliProto Handler) :=
  [⟨"banner".toList, 0, 0, [], some .banner⟩,
   ⟨"status".toList, 0, 0, [], some .status⟩,
   ⟨"start".toList, 0, 0, [], some .start⟩,
   ⟨"stop".toList, 0, 0, [], some .stop⟩,
   ⟨"stats".toList, 0, 0, [], some .stats⟩,
   ⟨"vcl.load".toList, 2, 2, [], some .configLoad⟩,
   ⟨"vcl.inline".toList, 2, 2, [], some .configInline⟩,
   ⟨"vcl.use".toList, 1, 1, [], some .configUse⟩,
   ⟨"vcl.discard".toList, 1, 1, [], some .configDiscard⟩,
   ⟨"vcl.list".toList, 0, 0, [], some .configList⟩,
   ⟨"vcl.show".toList, 1, 1, [], some .configShow⟩,
   ⟨"param.show".toList, 0, 2, [], some .paramShow⟩,
   ⟨"param.set".toList, 2, 2, [], some .paramSet⟩]

def cliDebug : List (CliProto Handler) := [⟨"debug.panic.master".toList, 0, 0, ['d'], some .panic⟩]

def cliAskchild : List (CliProto Handler) := [⟨"*".toList, 0, 9999, ['h', '*'], some .askchild⟩]

/-- `mgt_cli_init_cls`, with `MCF_NOAUTH` and `MCF_AUTH`. -/
def cls : List (ℕ × List (CliProto Handler)) := [(0, cliAuth), (16, cliProto), (16, cliDebug), (16, cliAskchild)]

/-- `master_cmds` -/
def masterCmds : List (CliProto ChildHandler) :=
  [⟨"ping".toList, 0, 1, ['i'], some .ping⟩,
   ⟨"help".toList, 0, 1, ['i'], some .help⟩,
   ⟨"debug.sizeof".toList, 0, 0, ['d'], some .sizeof⟩,
   ⟨"debug.panic.worker".toList, 0, 0, ['d'], some .panic⟩]

def vclCmds : List (CliProto ChildHandler) :=
  [⟨"vcl.load".toList, 2, 2, ['i'], some .configLoad⟩,
   ⟨"vcl.list".toList, 0, 0, ['i'], some .configList⟩,
   ⟨"vcl.discard".toList, 1, 1, ['i'], some .configDiscard⟩,
   ⟨"vcl.use".toList, 1, 1, ['i'], some .configUse⟩]

def banCmds : List (CliProto ChildHandler) :=
  [⟨"url.purge".toList, 1, 1, ['h'], some .purgeUrl⟩,
   ⟨"purge.url".toList, 1, 1, [], some .purgeUrl⟩,
   ⟨"purge".toList, 3, 2 ^ 32 - 1, [], some .purge⟩,
   ⟨"purge.list".toList, 0, 0, [], some .purgeList⟩]

def vcaCmds : List (CliProto ChildHandler) :=
  [⟨"start".toList, 0, 0, ['i'], some .start⟩,
   ⟨"debug.listen_address".toList, 0, 0, ['d'], some .listenAddress⟩]

/-- The tables in the order in which `child_main` adds them. -/
def childCls : List (ℕ × List (CliProto ChildHandler)) :=
  [(0, masterCmds),
   (0, [⟨"debug.fragfetch".toList, 1, 1, ['d'], some .fragfetch⟩]),
   (0, [⟨"debug.xid".toList, 0, 1, ['d'], some .xid⟩, ⟨"debug.srandom".toList, 0, 1, ['d'], some .srandom⟩]),
   (0, vclCmds),
   (0, [⟨"debug.backend".toList, 0, 0, ['d'], some .backend⟩]),
   (0, [⟨"debug.health".toList, 0, 0, ['d'], some .health⟩]),
   (0, [⟨"hcb.dump".toList, 0, 0, ['d'], some .hcbDump⟩]),
   (0, banCmds),
   (0, vcaCmds)]

end Tables

/-! ## Sessions -/

section Sessions

/-- What a session does: it shows a challenge, takes a response, calls a function, or hands a line to the child, which calls
functions. -/
inductive Event
  | shown (challenge : List UInt8)
  | granted (reads : List (List UInt8)) (response : Str)
  | ran (h : Handler)
  | asked (cmd : Str) (calls : List ChildHandler)
deriving DecidableEq

/-- A session, and what it has done. -/
structure Session where
  auth : ℕ
  challenge : List UInt8
  closed : Bool
  log : List Event
deriving DecidableEq

/-- What a line meets: does the child run, does the secret file open and what do the reads give, the values of `random`, the
bytes in the block of the hash, and does the answer get through. -/
structure Env where
  child : Bool
  secret : Option (List (List UInt8))
  random : Vector ℕ 32
  stale : Vector UInt8 64
  sent : Bool

def Session.note (s : Session) (e : Event) : Session := { s with log := s.log ++ [e] }

/-- The text of `mgt_cli_challenge`. -/
def challengeText (random : Vector ℕ 32) : List UInt8 := (random.map fun r => UInt8.ofNat (r % 26 + 97)).toList ++ [10, 0]

/-- `mgt_cli_challenge` -/
def mgtCliChallenge (env : Env) (s : Session) : Session :=
  { s with challenge := challengeText env.random }.note (.shown (challengeText env.random))

/-- `mcf_auth`.  `conf` tells that there is a secret file. -/
def mcfAuth (conf : Bool) (env : Env) (arg : Str) (s : Session) : Session :=
  if ¬ conf then s
  else
    match env.secret with
    | none => s
    | some reads =>
      if ¬ Http.strcaseEq (chars (cliResponse env.stale s.challenge reads)) arg then mgtCliChallenge env s
      else
        ({ s with auth := 16, challenge := List.replicate 34 0 }.note (.granted reads arg)).note (.ran .banner)

/-- The functions that a line calls in the child. -/
def childCalls (cmd : Str) : List ChildHandler :=
  match clsVlu childCls 0 cmd with
  | .call .help av => .help :: clsFuncHelp childCls av.tail
  | .call h _ => [h]
  | _ => []

/-- `mcf_askchild` -/
def mcfAskchild (env : Env) (cmd : Str) (s : Session) : Session :=
  let s := s.note (.ran .askchild)
  if ¬ env.child then s else s.note (.asked cmd (childCalls cmd))

/-- A function of the manager, called with the words `av` of the line `cmd`. -/
def run (conf : Bool) (env : Env) (cmd : Str) (av : List Str) (h : Handler) (s : Session) : Session :=
  match h with
  | .askchild => mcfAskchild env cmd s
  | .auth => mcfAuth conf env (av.getD 1 []) (s.note (.ran .auth))
  | h => s.note (.ran h)

/-- The functions that `help` calls are called with its line. -/
def call (conf : Bool) (env : Env) (cmd : Str) (av : List Str) (h : Handler) (s : Session) : Session :=
  let s := run conf env cmd av h s
  if h = .help then (clsFuncHelp cls av.tail).foldl (fun s h => run conf env cmd av h s) s else s

/-- `cls_vlu` of a session of the manager; `none` is a failed assertion, or the session is closed. -/
def line (conf : Bool) (s : Session) (a : Str × Env) : Option Session :=
  if s.closed then none
  else
    match clsVlu cls s.auth a.1 with
    | .fault => none
    | .ignored => some s
    | .answer _ _ => some { s with closed := ¬ a.2.sent }
    | .call h av =>
      let s := call conf a.2 (command a.1) av h s
      some { s with closed := h = .close ∨ ¬ a.2.sent }

/-- `mgt_cli_setup` -/
def mgtCliSetup (conf : Bool) (fdi : ℕ) (env : Env) : Session :=
  let s : Session := ⟨0, List.replicate 34 0, false, []⟩
  if fdi ≠ 0 ∧ conf then mgtCliChallenge env s else { s with auth := 16 }.note (.ran .banner)

end Sessions

/-! ## Responses -/

section Granted

/-- The challenge that was shown last. -/
def LastShown (log : List Event) (challenge : List UInt8) : Prop :=
  ∃ l l', log = l ++ .shown challenge :: l' ∧ ∀ c, .shown c ∉ l'

/-- A response to the challenge that was shown last was taken, and it is the hash of the challenge, the secret as it was read,
and the challenge again. -/
def Granted (log : List Event) : Prop :=
  ∃ l l' challenge reads response, log = l ++ .granted reads response :: l' ∧ LastShown l challenge ∧
    Http.strcaseEq (chars ((Fips.sha256 (challenge.take 32 ++ [10] ++ (reads.takeWhile (· ≠ [])).flatten ++
      challenge.take 32 ++ [10])).flatMap hex2)) response

/-- What is done for everyone: help, ping, auth and quit, and help in the child. -/
def Event.Free : Event → Prop
  | .shown _ => True
  | .granted _ _ => True
  | .ran h => h = .help ∨ h = .ping ∨ h = .auth ∨ h = .close ∨ h = .askchild
  | .asked _ calls => ∀ h ∈ calls, h = .help

/-- Whatever else was done was done after a response was taken. -/
def Guarded (log : List Event) : Prop := ∀ l e l', log = l ++ e :: l' → e.Free ∨ Granted l

theorem Granted.append {log : List Event} (h : Granted log) (l'' : List Event) : Granted (log ++ l'') := by
  obtain ⟨l, l', challenge, reads, response, rfl, hx⟩ := h
  exact ⟨l, l' ++ l'', challenge, reads, response, by simp, hx⟩

theorem Guarded.note {log : List Event} {e : Event} (h : Guarded log) (he : e.Free ∨ Granted log) : Guarded (log ++ [e]) := by
  intro l x l' hl
  rcases List.eq_nil_or_concat l' with rfl | ⟨l'', y, rfl⟩
  · obtain ⟨rfl, hx⟩ := List.append_inj' hl rfl
    cases hx
    exact he
  · have hl' : log ++ [e] = (l ++ x :: l'') ++ [y] := by simpa using hl
    obtain ⟨rfl, -⟩ := List.append_inj' hl' rfl
    exact h l x l'' rfl

theorem LastShown.note {log : List Event} {e : Event} {c : List UInt8} (h : LastShown log c) (he : ∀ c', e ≠ .shown c') :
    LastShown (log ++ [e]) c := by
  obtain ⟨l, l', rfl, hl'⟩ := h
  refine ⟨l, l' ++ [e], by simp, fun c' hc => ?_⟩
  rcases List.mem_append.mp hc with hc | hc
  · exact hl' c' hc
  · exact he c' (List.mem_singleton.mp hc).symm

/-- Either no authority, and the challenge is the one shown last, or a response was taken. -/
def Inv (s : Session) : Prop :=
  Guarded s.log ∧ ((s.auth = 0 ∧ LastShown s.log s.challenge) ∨ Granted s.log)

end Granted

/-! ## What a line keeps -/

section Lines

variable {conf : Bool} {env : Env} {cmd : Str} {av : List Str} {h : Handler} {s s' : Session}

theorem Inv.note {e : Event} (hs : Inv s) (he : e.Free ∨ Granted s.log) (hc : ∀ c', e ≠ .shown c') : Inv (s.note e) := by
  refine ⟨hs.1.note he, ?_⟩
  rcases hs.2 with ⟨ha, hl⟩ | hg
  · exact .inl ⟨ha, hl.note hc⟩
  · exact .inr (hg.append [e])

theorem mgtCliChallenge_inv (hs : Inv s) : Inv (mgtCliChallenge env s) := by
  refine ⟨hs.1.note (.inl trivial), ?_⟩
  rcases hs.2 with ⟨ha, -⟩ | hg
  · exact .inl ⟨ha, s.log, [], rfl, fun c hc => by cases hc⟩
  · exact .inr (hg.append _)

theorem mcfAuth_inv (hs : Inv s) (arg : Str) : Inv (mcfAuth conf env arg s) := by
  rw [mcfAuth]
  split
  · exact hs
  · split
    · exact hs
    · rename_i reads _
      split
      · exact mgtCliChallenge_inv hs
      · rename_i heq
        have hg : Granted (s.log ++ [.granted reads arg]) := by
          rcases hs.2 with ⟨-, hl⟩ | hg
          · rw [not_not, cliResponse_eq] at heq
            exact ⟨s.log, [], s.challenge, reads, arg, rfl, hl, heq⟩
          · exact hg.append _
        exact ⟨Guarded.note (hs.1.note (.inl trivial)) (.inr hg), .inr (hg.append _)⟩

/-- What is allowed without a response. -/
def Allowed (cmd : Str) (h : Handler) : Prop :=
  h = .help ∨ h = .ping ∨ h = .auth ∨ h = .close ∨ (h = .askchild ∧ ∀ c ∈ childCalls cmd, c = .help)

theorem Allowed.free (hh : Allowed cmd h) : (Event.ran h).Free :=
  hh.imp_right fun hh => hh.imp_right fun hh => hh.imp_right fun hh => hh.imp_right And.left

theorem run_inv (hs : Inv s) (hh : Allowed cmd h ∨ Granted s.log) : Inv (run conf env cmd av h s) := by
  have hran : Inv (s.note (.ran h)) := hs.note (hh.imp_left Allowed.free) (by simp)
  cases h with
  | askchild =>
    rw [run, mcfAskchild]
    split
    · exact hran
    · refine hran.note ?_ (by simp)
      rcases hh with hh | hg
      · have hc : ∀ c ∈ childCalls cmd, c = .help := by simpa [Allowed] using hh
        exact .inl hc
      · exact .inr (hg.append _)
  | auth => exact mcfAuth_inv hran _
  | _ => exact hran

theorem run_granted (hg : Granted s.log) : Granted (run conf env cmd av h s).log := by
  have hnote (t : Session) (e : Event) (ht : Granted t.log) : Granted (t.note e).log := ht.append [e]
  cases h with
  | askchild =>
    rw [run, mcfAskchild]
    split
    · exact hnote _ _ hg
    · exact hnote _ _ (hnote _ _ hg)
  | auth =>
    rw [run, mcfAuth]
    split
    · exact hnote _ _ hg
    · split
      · exact hnote _ _ hg
      · split
        · exact hnote _ _ (hnote _ _ hg)
        · exact hnote _ _ (hnote _ _ (hnote _ _ hg))
  | _ => exact hnote _ _ hg

theorem call_inv (hs : Inv s) (hh : Allowed cmd h ∨ Granted s.log)
    (hhelp : h = .help → (∀ x ∈ clsFuncHelp cls av.tail, Allowed cmd x) ∨ Granted s.log) :
    Inv (call conf env cmd av h s) := by
  rw [call]
  have h1 : Inv (run conf env cmd av h s) := run_inv hs hh
  split
  · rename_i he
    have h2 : (∀ x ∈ clsFuncHelp cls av.tail, Allowed cmd x) ∨ Granted (run conf env cmd av h s).log :=
      (hhelp he).imp_right run_granted
    generalize run conf env cmd av h s = t at h1 h2
    generalize clsFuncHelp cls av.tail = xs at h2
    induction xs generalizing t with
    | nil => exact h1
    | cons x xs ih =>
      rw [List.foldl_cons]
      refine ih _ (run_inv h1 (h2.imp_left fun h => h x List.mem_cons_self)) ?_
      rcases h2 with h2 | h2
      · exact .inl fun y hy => h2 y (List.mem_cons_of_mem x hy)
      · exact .inr (run_granted h2)
  · exact h1

/-! ## Lines of a session without authority -/

theorem clsFuncs_help {ws : List Str} (hl : ws.length ≤ 1) :
    clsFuncs 0 "help".toList ws childCls = .call .help ("help".toList :: ws) := by
  have hfind : (masterCmds.find? fun cp => "help".toList = cp.request ∨ cp.request = ['*']) =
      some ⟨"help".toList, 0, 1, ['i'], some .help⟩ := by rfl
  have hd : clsDispatch masterCmds "help".toList ws = .call .help := by
    rw [clsDispatch, hfind]
    exact if_neg (Nat.not_lt_zero _) |>.trans (if_neg (Nat.not_lt.mpr hl))
  rw [childCls, clsFuncs, if_neg (Nat.lt_irrefl 0), hd]

theorem clsFuncHelp_child (args : List Str) : clsFuncHelp childCls args = [] := by
  have hstar : ∀ cp ∈ childCls.flatMap Prod.snd, '*' ∉ cp.flags := by decide
  refine List.eq_nil_iff_forall_not_mem.mpr fun h hh => ?_
  obtain ⟨cp, hm, hf, -⟩ := mem_clsFuncHelp hh
  exact hstar cp hm hf

/-- A line whose first word is `help` calls nothing else in the child. -/
theorem childCalls_help {p : Str} {ws : List Str} (hl : ws.length ≤ 1)
    (hp : parseArgv false false ((command p).length + 1) (command p) = .ok ("help".toList :: ws)) :
    ∀ c ∈ childCalls (command p), c = .help := by
  have hne : command p ≠ [] := by
    intro he
    rw [he] at hp
    cases hp
  have hc : clsVlu childCls 0 (command p) = .call .help ("help".toList :: ws) := by
    rw [clsVlu_command, clsVlu, if_neg hne, hp]
    exact clsFuncs_help hl
  intro c hm
  rw [childCalls, hc] at hm
  have hm' : c ∈ .help :: clsFuncHelp childCls ws := hm
  rw [clsFuncHelp_child] at hm'
  exact List.mem_singleton.mp hm'

/-- Without authority a line calls what is in the first table. -/
theorem clsVlu_free {p : Str} (hc : clsVlu cls 0 p = .call h av) :
    h = .help ∨ h = .ping ∨ h = .auth ∨ h = .close := by
  obtain ⟨w, ws, -, -, cfn, hm, ha, cp, hcp, hf, -⟩ := clsVlu_called hc
  have hall : ∀ cfn ∈ cls, cfn.1 ≤ 0 → ∀ cp ∈ cfn.2, cp.func = some .help ∨ cp.func = some .ping ∨ cp.func = some .auth ∨
      cp.func = some .close := by decide
  simpa [hf] using hall cfn hm ha cp hcp

/-- What `help` calls is `mcf_askchild`. -/
theorem clsFuncHelp_cls {args : List Str} (hh : h ∈ clsFuncHelp cls args) : h = .askchild := by
  obtain ⟨cp, hm, hf, hfunc⟩ := mem_clsFuncHelp hh
  have hall : ∀ cp ∈ cls.flatMap Prod.snd, '*' ∈ cp.flags → cp.func = some .askchild := by decide
  rw [hall cp hm hf] at hfunc
  exact (Option.some.inj hfunc).symm

/-- `help` is called under its name alone, with one argument at most. -/
theorem clsVlu_help {p : Str} {auth : ℕ} (hc : clsVlu cls auth p = .call .help av) :
    ∃ ws, av = "help".toList :: ws ∧ ws.length ≤ 1 ∧
      parseArgv false false ((command p).length + 1) (command p) = .ok av := by
  obtain ⟨w, ws, rfl, hp, cfn, hm, -, cp, hcp, hf, hw, -, hl⟩ := clsVlu_called hc
  have hall : ∀ cfn ∈ cls, ∀ cp ∈ cfn.2, cp.func = some .help → cp.request = "help".toList ∧ cp.maxarg = 1 := by decide
  obtain ⟨hr, hmax⟩ := hall cfn hm cp hcp hf
  rw [hr] at hw
  rcases hw with rfl | hw
  · exact ⟨ws, rfl, by omega, hp⟩
  · cases hw

theorem line_inv {a : Str × Env} (hs : Inv s) (hl : line conf s a = some s') : Inv s' := by
  rw [line] at hl
  split at hl
  · cases hl
  · split at hl
    · cases hl
    · cases hl
      exact hs
    · cases hl
      exact hs
    · rename_i h av hc
      cases hl
      have hfree : Allowed (command a.1) h ∨ Granted s.log := by
        refine hs.2.imp_left fun ⟨ha, _⟩ => ?_
        rw [ha] at hc
        rcases clsVlu_free hc with hh | hh | hh | hh
        · exact .inl hh
        · exact .inr (.inl hh)
        · exact .inr (.inr (.inl hh))
        · exact .inr (.inr (.inr (.inl hh)))
      exact call_inv hs hfree fun hh => .inl fun x hx => by
        subst hh
        obtain ⟨ws, rfl, hws, hp⟩ := clsVlu_help hc
        exact .inr (.inr (.inr (.inr ⟨clsFuncHelp_cls hx, childCalls_help hws hp⟩)))

/-- In every run of a session that was opened with a challenge: whatever the session did besides help, ping, auth and quit, in
the manager or through it in the child, it did after it had given the response to the challenge shown last. -/
theorem session_granted {fdi : ℕ} {env : Env} (hf : fdi ≠ 0)
    (hr : Reach (line true) (fun _ _ => True) (mgtCliSetup true fdi env) s) : Guarded s.log := by
  have h0 : Inv (mgtCliSetup true fdi env) := by
    rw [mgtCliSetup, if_pos ⟨hf, rfl⟩]
    refine ⟨@Guarded.note [] _ (fun l e l' he => ?_) (.inl trivial), .inl ⟨rfl, [], [], rfl, fun c hc => by cases hc⟩⟩
    simp at he
  exact (hr.inv h0 fun s a s' hs _ hl => line_inv hs hl).1

/-- Help on a command of the child, and a command that is not for everyone. -/
theorem session_granted_helpRun : Guarded [.shown (challengeText (Vector.replicate 32 7)), .ran .help, .ran .askchild,
    .asked "help purge".toList [.help]] := by
  let env : Env := ⟨true, none, Vector.replicate 32 7, Vector.replicate 64 0, true⟩
  have hr : [("help purge".toList, env), ("vcl.use boot".toList, env)].foldlM (line true) (mgtCliSetup true 5 env) =
      some ⟨0, challengeText (Vector.replicate 32 7), false, [.shown (challengeText (Vector.replicate 32 7)), .ran .help,
        .ran .askchild, .asked "help purge".toList [.help]]⟩ := by decide +kernel
  have hok : OkRun (line true) (fun _ _ => True) (mgtCliSetup true 5 env)
      [("help purge".toList, env), ("vcl.use boot".toList, env)] := by decide +kernel
  exact session_granted (by decide : 5 ≠ 0) (Reach.of_run hok hr)

end Lines

end Varnish.Serve
