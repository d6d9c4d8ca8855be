import Mathlib.Data.List.DropRight
import Varnish.Ban.Argv

/-!
# Varnish.Cli.Serve — what a line of the CLI calls (cli_serve.c)

* `CliProto`: an entry of a table of commands, without the texts that only `help` prints.
* `clsDispatch`, `clsFuncs`, `clsVlu`: a line is ignored, answered with an error, or calls a function.
* `clsFuncHelp`: the functions that `help` calls itself, those of the entries with the flag `*`.
* `clsVlu_called`: what is called is in a table that the session may use, under the first word of the line or under `*`.
* `clsVlu_command`: the blanks in front of the line do not matter.
-/

namespace Varnish.Serve

open Varnish.Ban
open Varnish.Lib (isspace)

/-! ## Commands -/

section Dispatch

variable {H : Type}

/-- `struct cli_proto` -/
structure CliProto (H : Type) where
  request : Str
  minarg : ℕ
  maxarg : ℕ
  flags : List Char
  func : Option H

/-- What comes of a table: nothing, a status and a text, or a call. -/
inductive Dispatch (H : Type)
  | pass
  | error (status : ℕ) (text : String)
  | call (h : H)

/-- `cls_dispatch`, of the words `w :: ws`. -/
def clsDispatch (clp : List (CliProto H)) (w : Str) (ws : List Str) : Dispatch H :=
  match clp.find? fun cp => w = cp.request ∨ cp.request = ['*'] with
  | none => .pass
  | some cp =>
    match cp.func with
    | none => .error 102 "Unimplemented\n"
    | some h =>
      if ws.length < cp.minarg then .error 104 "Too few parameters\n"
      else if ws.length > cp.maxarg then .error 105 "Too many parameters\n"
      else .call h

/-- What comes of a line.  `fault` is a failed assertion of `ParseArgv`. -/
inductive Verdict (H : Type)
  | ignored
  | fault
  | answer (status : ℕ) (text : String)
  | call (h : H) (av : List Str)

def unknown : String := "Unknown request.\nType 'help' for more info.\n"

/-- The loop over the tables, each with the authority it asks for. -/
def clsFuncs (auth : ℕ) (w : Str) (ws : List Str) : List (ℕ × List (CliProto H)) → Verdict H
  | [] => .answer 101 unknown
  | cfn :: funcs =>
    if cfn.1 > auth then clsFuncs auth w ws funcs
    else
      match clsDispatch cfn.2 w ws with
      | .pass => clsFuncs auth w ws funcs
      | .error status text => .answer status (unknown ++ text)
      | .call h => .call h (w :: ws)

/-- The command that the line is, without the blanks in front of it. -/
def command (p : Str) : Str := p.dropWhile isspace

/-- `cls_vlu`, up to the call.  Every line that is not ignored has a first word. -/
def clsVlu (funcs : List (ℕ × List (CliProto H))) (auth : ℕ) (p : Str) : Verdict H :=
  if command p = [] then .ignored
  else
    match parseArgv false false ((command p).length + 1) (command p) with
    | .error .fault => .fault
    | .error (.text msg) => .answer 100 (unknown ++ "Syntax Error: " ++ msg ++ "\n")
    | .ok [] => .fault
    | .ok (w :: ws) =>
      match w with
      | [] => .answer 101 unknown
      | c :: _ =>
        if c.isUpper then .answer 101 (unknown ++ "all commands are in lower-case.\n")
        else if ¬ c.isLower then .answer 101 unknown
        else clsFuncs auth w ws funcs

/-- The part of `CLS_func_help` with a command: up to the entry, or to the first one with the flag `*`. -/
def helpOf (name : Str) : List (CliProto H) → List H
  | [] => []
  | cp :: cps =>
    if cp.request = name then []
    else if '*' ∈ cp.flags then cp.func.toList
    else helpOf name cps

/-- The functions that `CLS_func_help` calls, with its arguments; it looks at the tables of every authority. -/
def clsFuncHelp (funcs : List (ℕ × List (CliProto H))) (args : List Str) : List H :=
  match args with
  | [] => (funcs.flatMap Prod.snd).flatMap fun cp => if '*' ∈ cp.flags ∧ 'i' ∉ cp.flags then cp.func.toList else []
  | a :: _ =>
    if a = ['-', 'a'] ∨ a = ['-', 'd'] then
      (funcs.flatMap Prod.snd).flatMap fun cp => if '*' ∈ cp.flags ∧ 'i' ∉ cp.flags then cp.func.toList else []
    else helpOf a (funcs.flatMap Prod.snd)

end Dispatch

/-! ## Calls -/

section Calls

variable {H : Type} {funcs : List (ℕ × List (CliProto H))} {auth : ℕ} {w p : Str} {ws av : List Str} {h : H}

theorem clsDispatch_call {clp : List (CliProto H)} (hc : clsDispatch clp w ws = .call h) :
    ∃ cp ∈ clp, cp.func = some h ∧ (w = cp.request ∨ cp.request = ['*']) ∧ cp.minarg ≤ ws.length ∧ ws.length ≤ cp.maxarg := by
  rw [clsDispatch] at hc
  split at hc
  · cases hc
  · rename_i cp hfind
    split at hc
    · cases hc
    · rename_i h' hf
      split at hc
      · cases hc
      · split at hc
        · cases hc
        · cases hc
          refine ⟨cp, List.mem_of_find?_eq_some hfind, hf, ?_, by omega, by omega⟩
          simpa using List.find?_some hfind

theorem clsFuncs_call (hc : clsFuncs auth w ws funcs = .call h av) :
    av = w :: ws ∧ ∃ cfn ∈ funcs, cfn.1 ≤ auth ∧ ∃ cp ∈ cfn.2, cp.func = some h ∧ (w = cp.request ∨ cp.request = ['*']) ∧
      cp.minarg ≤ ws.length ∧ ws.length ≤ cp.maxarg := by
  induction funcs with
  | nil => cases hc
  | cons cfn funcs ih =>
    rw [clsFuncs] at hc
    by_cases ha : cfn.1 > auth
    · rw [if_pos ha] at hc
      obtain ⟨hav, c, hm, hx⟩ := ih hc
      exact ⟨hav, c, List.mem_cons_of_mem cfn hm, hx⟩
    · rw [if_neg ha] at hc
      split at hc
      · obtain ⟨hav, c, hm, hx⟩ := ih hc
        exact ⟨hav, c, List.mem_cons_of_mem cfn hm, hx⟩
      · cases hc
      · rename_i h' hd
        cases hc
        exact ⟨rfl, cfn, List.mem_cons_self, by omega, clsDispatch_call hd⟩

theorem clsVlu_call (hc : clsVlu funcs auth p = .call h av) :
    ∃ w ws, parseArgv false false ((command p).length + 1) (command p) = .ok (w :: ws) ∧
      clsFuncs auth w ws funcs = .call h av := by
  rw [clsVlu] at hc
  split at hc
  · cases hc
  · split at hc
    · cases hc
    · cases hc
    · cases hc
    · rename_i w ws hp
      split at hc
      · cases hc
      · split at hc
        · cases hc
        · split at hc
          · cases hc
          · exact ⟨_, ws, hp, hc⟩

/-- What a line calls is in a table that the session may use, under its first word or under `*`. -/
theorem clsVlu_called (hc : clsVlu funcs auth p = .call h av) :
    ∃ w ws, av = w :: ws ∧ parseArgv false false ((command p).length + 1) (command p) = .ok av ∧
      ∃ cfn ∈ funcs, cfn.1 ≤ auth ∧ ∃ cp ∈ cfn.2, cp.func = some h ∧ (w = cp.request ∨ cp.request = ['*']) ∧
        cp.minarg ≤ ws.length ∧ ws.length ≤ cp.maxarg := by
  obtain ⟨w, ws, hp, hf⟩ := clsVlu_call hc
  obtain ⟨rfl, hx⟩ := clsFuncs_call hf
  exact ⟨w, ws, rfl, hp, hx⟩

theorem command_command (p : Str) : command (command p) = command p := by
  exact List.dropWhile_idempotent isspace p

theorem clsVlu_command (funcs : List (ℕ × List (CliProto H))) (auth : ℕ) (p : Str) :
    clsVlu funcs auth (command p) = clsVlu funcs auth p := by
  rw [clsVlu, clsVlu, command_command]

theorem mem_helpOf {name : Str} {cps : List (CliProto H)} (hh : h ∈ helpOf name cps) :
    ∃ cp ∈ cps, '*' ∈ cp.flags ∧ cp.func = some h := by
  induction cps with
  | nil => cases hh
  | cons cp cps ih =>
    rw [helpOf] at hh
    split at hh
    · cases hh
    · split at hh
      · rename_i hf
        exact ⟨cp, List.mem_cons_self, hf, by simpa using hh⟩
      · obtain ⟨cp', hm, hx⟩ := ih hh
        exact ⟨cp', List.mem_cons_of_mem cp hm, hx⟩

/-- `help` calls nothing but entries with the flag `*`. -/
theorem mem_clsFuncHelp {args : List Str} (hh : h ∈ clsFuncHelp funcs args) :
    ∃ cp ∈ funcs.flatMap Prod.snd, '*' ∈ cp.flags ∧ cp.func = some h := by
  have hall (hh : h ∈ (funcs.flatMap Prod.snd).flatMap fun cp =>
      if '*' ∈ cp.flags ∧ 'i' ∉ cp.flags then cp.func.toList else []) :
      ∃ cp ∈ funcs.flatMap Prod.snd, '*' ∈ cp.flags ∧ cp.func = some h := by
    obtain ⟨cp, hm, hf⟩ := List.mem_flatMap.mp hh
    split at hf
    · rename_i hstar
      exact ⟨cp, hm, hstar.1, by simpa using hf⟩
    · cases hf
  cases args with
  | nil => exact hall hh
  | cons a args =>
    rw [clsFuncHelp] at hh
    split at hh
    · exact hall hh
    · exact mem_helpOf hh

end Calls

end Varnish.Serve
