import Mathlib.Data.List.Basic
import Varnish.Vcl.Runs

/-!
# Varnish.Vcl.Table — what the CLI commands of the worker process do to the programs

* `Table`: the available programs in order, and the active one.  `Table.exec`: a command at one stroke.
* `Cli.table`: what the list of programs stands for.  Discarded programs are not in it.
* `Sim`: how far the table is ahead of the answers while the CLI thread works on a command.
* `reach_vcls`: between two commands the table is what the answered commands make of an empty one, and each answer is
  the table's, whatever the other threads do in the meantime.
-/

namespace Varnish.Vcl

open Varnish.Lib

/-! ## The table -/

section Table

structure Table where
  avail : List (List Char × List Char)
  active : Option (List Char)
deriving DecidableEq

def Table.names (t : Table) : List (List Char) := t.avail.map Prod.fst

/-- A command, and whether it succeeds. -/
def Table.exec (t : Table) : Cmd → Table × Bool
  | .load name file opened =>
    if name ∈ t.names ∨ opened ≠ .good then (t, false)
    else (⟨t.avail ++ [(name, file)], if t.active = none then some name else t.active⟩, true)
  | .discard name =>
    if name ∉ t.names ∨ t.active = some name then (t, false)
    else ({ t with avail := t.avail.filter fun e => e.1 ≠ name }, true)
  | .use name => if name ∉ t.names then (t, false) else ({ t with active := some name }, true)

/-- The commands again; they must be answered as before. -/
def Table.replay (t : Table) (rs : List (Cmd × Bool)) : Option Table :=
  rs.foldlM (fun t r => if (t.exec r.1).2 = r.2 then some (t.exec r.1).1 else none) t

theorem Table.replay_snoc {t t' : Table} {rs : List (Cmd × Bool)} (h : t.replay rs = some t') {t'' : Table} {cmd : Cmd} {ok : Bool}
    (he : t'.exec cmd = (t'', ok)) : t.replay (rs ++ [(cmd, ok)]) = some t'' := by
  rw [Table.replay] at h ⊢
  rw [List.foldlM_append, h]
  simp [he]

def entry : Option Vcls → Option (List Char × List Char)
  | some ⟨name, file, false⟩ => some (name, file)
  | _ => none

def entries (mem : ℕ → Option Vcls) (l : List ℕ) : List (List Char × List Char) := l.filterMap fun v => entry (mem v)

def Cli.table (c : Cli) : Table where
  avail := entries c.mem c.head
  active := c.active.bind fun v => (c.mem v).map Vcls.name

theorem entry_eq_some {p : Option Vcls} {e : List Char × List Char} : entry p = some e ↔ p = some ⟨e.1, e.2, false⟩ := by
  rcases p with _ | ⟨name, file, _ | _⟩
  · simp [entry]
  · simp [entry, Prod.ext_iff]
  · simp [entry]

theorem entry_dropped {p : Option Vcls} (h : Vcls.Dropped p) : entry p = none := by
  obtain ⟨⟨name, file, d⟩, rfl, hd⟩ := h
  simp only at hd
  rw [hd]
  rfl

theorem entries_cons (mem : ℕ → Option Vcls) (v : ℕ) (l : List ℕ) :
    entries mem (v :: l) = (entry (mem v)).toList ++ entries mem l := by
  rw [entries, List.filterMap_cons]
  cases entry (mem v) <;> rfl

end Table

/-! ## What the functions do to it -/

section Effects

variable {c c' : Cli} {v : ℕ} {name file : List Char} {opened : Opened} {busy : ℕ → ℕ} {ret : Return}

theorem Shape.mem_names (h : Shape c) : name ∈ c.table.names ↔ ∃ v file, c.mem v = some ⟨name, file, false⟩ := by
  simp only [Table.names, Cli.table, entries, List.mem_map, List.mem_filterMap, entry_eq_some]
  constructor
  · rintro ⟨e, ⟨v, -, hm⟩, rfl⟩
    exact ⟨v, e.2, hm⟩
  · rintro ⟨v, file, hm⟩
    exact ⟨(name, file), ⟨v, (h.listed.alloc v).mpr (by rw [hm]; exact Option.some_ne_none _), hm⟩, rfl⟩

/-- The active program is told by its name. -/
theorem Shape.active_iff (h : Shape c) (hm : c.mem v = some ⟨name, file, false⟩) :
    c.table.active = some name ↔ c.active = some v := by
  simp only [Cli.table]
  cases ha : c.active with
  | none => simp
  | some u =>
    obtain ⟨⟨n, f, d⟩, hu, hd⟩ := h.listed.active u ha
    simp only at hd
    rw [hd] at hu
    rw [Option.bind_some, hu, Option.map_some, Option.some.injEq, Option.some.injEq]
    constructor
    · intro hn
      simp only at hn
      rw [hn] at hu
      exact h.listed.names u v name f file hu hm
    · rintro rfl
      rw [hm] at hu
      cases hu
      rfl

theorem Shape.active_none (h : Shape c) : c.table.active = none ↔ c.active = none := by
  simp only [Cli.table]
  cases ha : c.active with
  | none => simp
  | some u =>
    obtain ⟨p, hu, -⟩ := h.listed.active u ha
    simp [hu]

theorem entries_update {l : List ℕ} {mem : ℕ → Option Vcls} (hv : v ∉ l) (p : Option Vcls) :
    entries (Function.update mem v p) l = entries mem l := by
  refine List.filterMap_congr fun u hu => ?_
  have he : u ≠ v := by
    rintro rfl
    exact hv hu
  rw [Function.update_of_ne he]

theorem entries_drop {l : List ℕ} {mem : ℕ → Option Vcls} (hm : mem v = some ⟨name, file, false⟩)
    (hnames : ∀ u f, mem u = some ⟨name, f, false⟩ → u = v) {q : Option Vcls} (hq : entry q = none) :
    entries (Function.update mem v q) l = (entries mem l).filter fun e => e.1 ≠ name := by
  induction l with
  | nil => rfl
  | cons u l ih =>
    rw [entries_cons, entries_cons, List.filter_append, ih]
    congr 1
    by_cases he : u = v
    · subst he
      rw [Function.update_self, hq, hm]
      simp [entry]
    · rw [Function.update_of_ne he]
      cases hu : entry (mem u) with
      | none => rfl
      | some e =>
        have hne : e.1 ≠ name := by
          rintro rfl
          exact he (hnames u e.2 (entry_eq_some.mp hu))
        simp [hne]

/-- Nothing of the table is lost with a dropped program. -/
theorem entries_erase {l : List ℕ} {mem : ℕ → Option Vcls} (hl : l.Nodup) (hd : Vcls.Dropped (mem v)) :
    entries (Function.update mem v none) (l.erase v) = entries mem l := by
  rw [entries_update fun hv => absurd rfl (hl.mem_erase_iff.mp hv).1]
  clear hl
  induction l with
  | nil => rfl
  | cons u l ih =>
    by_cases he : u = v
    · subst he
      rw [List.erase_cons_head, entries_cons, entry_dropped hd]
      rfl
    · rw [List.erase_cons_tail (by simpa using he), entries_cons, entries_cons, ih]

theorem entries_append (mem : ℕ → Option Vcls) (l l' : List ℕ) : entries mem (l ++ l') = entries mem l ++ entries mem l' :=
  List.filterMap_append

/-- The name of the active program is what it was if its program is. -/
theorem active_congr {c c' : Cli} (ha : c'.active = c.active)
    (hm : ∀ v, c.active = some v → (c'.mem v).map Vcls.name = (c.mem v).map Vcls.name) :
    c'.table.active = c.table.active := by
  simp only [Cli.table, ha]
  cases hc : c.active with
  | none => rfl
  | some v => exact hm v hc

end Effects

/-! ## Commands and answers -/

section Sim

variable {c c' : Cli} {v : ℕ} {name file : List Char} {opened : Opened} {busy : ℕ → ℕ} {ret : Return} {s : St}

/-- How the table `t'` is ahead of the table `t`, when the CLI thread is at this place. -/
def Ahead (t t' : Table) : Pc → Prop
  | .loaded _ name file =>
    t.exec (.load name file .good) = (⟨t'.avail, if t'.active = none then some name else t'.active⟩, true)
  | .discarded _ name => t.exec (.discard name) = (t', true)
  | .nuke _ (.discard name) => t.exec (.discard name) = (t', true)
  | _ => t = t'

/-- The answers give a table, and what the command in hand has done already is ahead of it. -/
def Sim (c : Cli) : Prop := ∃ t, Table.replay ⟨[], none⟩ c.replies = some t ∧ Ahead t c.table c.pc

theorem Sim.idle (h : Sim c) (hpc : c.pc = .idle) : Table.replay ⟨[], none⟩ c.replies = some c.table := by
  obtain ⟨t, ht, hm⟩ := h
  rw [hpc] at hm
  rw [ht, show t = c.table from hm]

/-- A command that is answered at once. -/
theorem Sim.reply (h : Sim c) (hpc : c.pc = .idle) {cmd : Cmd} {ok : Bool} (he : c.table.exec cmd = (c.table, ok)) :
    Sim (c.reply cmd ok) :=
  ⟨c.table, Table.replay_snoc (h.idle hpc) he, rfl⟩

theorem load_sim (hs : Shape c) (h : Sim c) (hi : c.pc = .idle) (hv : c.mem v = none)
    (hc : vclLoad c name file opened v = some c') : Sim c' := by
  rw [vclLoad] at hc
  rcases hs.find name with ⟨u, file', hf, -, hm⟩ | ⟨hf, hno⟩
  · rw [hf] at hc
    cases hc
    refine h.reply hi ?_
    rw [Table.exec, if_pos (.inl (hs.mem_names.mpr ⟨u, file', hm⟩))]
  · have hfree : name ∉ c.table.names := fun hin => by
      obtain ⟨u, f, hm⟩ := hs.mem_names.mp hin
      exact hno u f hm
    rw [hf] at hc
    by_cases ho : opened = .good
    · simp only [ho, ne_eq, not_true_eq_false, if_false] at hc
      cases hc
      refine ⟨c.table, h.idle hi, ?_⟩
      have hvh : v ∉ c.head := fun hvh => (hs.listed.alloc v).mp hvh hv
      have havail : entries (Function.update c.mem v (some ⟨name, file, false⟩)) (c.head ++ [v]) =
          c.table.avail ++ [(name, file)] := by
        rw [entries_append, entries_update hvh, entries_cons, Function.update_self]
        rfl
      have hact : (Cli.table { c with
          mem := Function.update c.mem v (some ⟨name, file, false⟩)
          head := c.head ++ [v]
          pc := .loaded v name file }).active = c.table.active := by
        refine active_congr rfl fun u hu => ?_
        have he : u ≠ v := by
          rintro rfl
          obtain ⟨p, hp, -⟩ := hs.listed.active u hu
          rw [hv] at hp
          cases hp
        simp only [Function.update_of_ne he]
      rw [Ahead, Table.exec, if_neg (by simpa using hfree), hact]
      exact Prod.ext (congrArg₂ Table.mk havail.symm rfl) rfl
    · simp only [ne_eq, ho, not_false_eq_true, if_true] at hc
      cases hc
      refine h.reply hi ?_
      rw [Table.exec, if_pos (.inr ho)]

theorem discard_sim (hs : Shape c) (h : Sim c) (hi : c.pc = .idle) (hc : configDiscard c name = some c') : Sim c' := by
  rw [configDiscard] at hc
  rcases hs.find name with ⟨v, file, hf, -, hm⟩ | ⟨hf, hno⟩
  · have hin : name ∈ c.table.names := hs.mem_names.mpr ⟨v, file, hm⟩
    rw [hf] at hc
    by_cases ha : c.active = some v
    · simp only [ha, if_true] at hc
      cases hc
      refine h.reply hi ?_
      rw [Table.exec, if_pos (.inr ((hs.active_iff hm).mpr ha))]
    · simp only [ha, if_false, hm] at hc
      cases hc
      refine ⟨c.table, h.idle hi, ?_⟩
      have hact : (Cli.table { c with
          mem := Function.update c.mem v (some ⟨name, file, true⟩)
          nDiscard := c.nDiscard + 1
          nAvail := c.nAvail - 1
          pc := .discarded v name }).active = c.table.active := by
        refine active_congr rfl fun u hu => ?_
        have he : u ≠ v := by
          rintro rfl
          exact ha hu
        simp only [Function.update_of_ne he]
      have havail := entries_drop (l := c.head) hm (fun u f hu => hs.listed.names u v name f file hu hm)
        (q := some ⟨name, file, true⟩) rfl
      simp only [Ahead, Table.exec, hin, not_true_eq_false, false_or]
      rw [if_neg fun hn => ha ((hs.active_iff hm).mp hn)]
      exact Prod.ext (congrArg₂ Table.mk havail.symm hact.symm) rfl
  · have hfree : name ∉ c.table.names := fun hin => by
      obtain ⟨u, f, hm⟩ := hs.mem_names.mp hin
      exact hno u f hm
    rw [hf] at hc
    cases hc
    refine h.reply hi ?_
    rw [Table.exec, if_pos (.inl hfree)]

theorem use_sim (hs : Shape c) (h : Sim c) (hi : c.pc = .idle) (hc : configUse c name = some c') : Sim c' := by
  rw [configUse] at hc
  rcases hs.find name with ⟨v, file, hf, -, hm⟩ | ⟨hf, hno⟩
  · rw [hf] at hc
    cases hc
    exact ⟨c.table, h.idle hi, rfl⟩
  · have hfree : name ∉ c.table.names := fun hin => by
      obtain ⟨u, f, hm⟩ := hs.mem_names.mp hin
      exact hno u f hm
    rw [hf] at hc
    cases hc
    refine h.reply hi ?_
    rw [Table.exec, if_pos hfree]

theorem nuke_sim (hs : Shape c) (h : Sim c) (hpc : c.pc = .nuke v ret) (hc : vclNuke c busy v ret = some c') : Sim c' := by
  have hok := hs.pc
  rw [hpc] at hok
  have hd := mem_of_pc hok
  have htable : ∀ rs pc n d, Cli.table { c with
      mem := Function.update c.mem v none
      head := c.head.erase v
      replies := rs
      pc := pc
      nVcl := n
      nDiscard := d } = c.table := by
    intro rs pc n d
    refine congrArg₂ Table.mk (entries_erase hs.listed.nodup hd) ?_
    refine active_congr rfl fun u hu => ?_
    simp only [Function.update_of_ne (ne_of_dropped hd (hs.listed.active u hu))]
  obtain ⟨t, ht, hm⟩ := h
  rw [hpc] at hm
  rw [vclNuke] at hc
  split at hc
  · cases hc
  · split at hc
    · cases hc
    · cases ret with
      | discard name =>
        cases hc
        refine ⟨c.table, Table.replay_snoc ht hm, ?_⟩
        exact (htable _ _ _ _).symm
      | poll rest =>
        cases hc
        refine ⟨t, ht, ?_⟩
        rw [show t = c.table from hm]
        exact (htable _ _ _ _).symm

theorem next_sim (hs : Shape c) (h : Sim c) (hc : cliNext c busy = some c') : Sim c' := by
  have hok := hs.pc
  obtain ⟨t, ht, hm⟩ := id h
  rw [cliNext] at hc
  cases hpc : c.pc with
  | idle =>
    rw [hpc] at hc
    cases hc
  | loaded v name file =>
    rw [hpc] at hc hok hm
    cases hc
    refine ⟨_, Table.replay_snoc ht hm, ?_⟩
    refine congrArg (Table.mk _) ?_
    by_cases ha : c.active = none
    · rw [if_pos (hs.active_none.mpr ha)]
      simp only [Cli.reply, ha, if_true, Option.bind_some]
      rw [show c.mem v = some ⟨name, file, false⟩ from hok]
      rfl
    · rw [if_neg fun hn => ha (hs.active_none.mp hn)]
      simp only [Cli.table, Cli.reply, ha, if_false]
  | discarded v name =>
    rw [hpc] at hc hm
    simp only at hc
    split at hc
    · cases hc
    · cases hc
      split
      · exact ⟨t, ht, hm⟩
      · exact ⟨_, Table.replay_snoc ht hm, rfl⟩
  | chosen v name =>
    rw [hpc] at hc hok hm
    cases hc
    obtain ⟨file, hv⟩ := hok
    have hm : t = c.table := hm
    have he : t.exec (.use name) = (⟨c.table.avail, some name⟩, true) := by
      rw [Table.exec, hm, if_neg (by simpa using hs.mem_names.mpr ⟨v, file, hv⟩)]
    refine ⟨_, Table.replay_snoc ht he, ?_⟩
    refine congrArg (Table.mk _) ?_
    simp only [Cli.reply, Option.bind_some, hv]
    rfl
  | poll rest =>
    rw [hpc] at hc hm
    cases rest with
    | nil =>
      cases hc
      exact ⟨t, ht, hm⟩
    | cons v vs =>
      simp only at hc
      split at hc
      · cases hc
      · cases hc
        refine ⟨t, ht, ?_⟩
        have hm : t = c.table := hm
        split <;> exact hm
  | nuke v ret =>
    rw [hpc] at hc
    exact nuke_sim hs h hpc hc

/-- Between two commands the table is what the commands that were answered make of an empty one, and every answer is
the one that the table gives. -/
theorem reach_vcls (h : Reach step Called start s) (hpc : s.cli.pc = .idle) :
    Table.replay ⟨[], none⟩ s.cli.replies = some s.cli.table := by
  refine Sim.idle ?_ hpc
  refine (h.inv (I := fun s => Inv s ∧ Sim s.cli) ⟨⟨shape_start, refs_start⟩, ⟨[], none⟩, rfl, rfl⟩ ?_).2
  rintro s a s' ⟨hi, hsim⟩ ha hs
  obtain ⟨s'', hs'', hi'⟩ := step_spec hi ha
  rw [hs] at hs''
  cases hs''
  refine ⟨hi', ?_⟩
  cases a with
  | load name file opened v =>
    obtain ⟨c, hc, rfl⟩ := Option.map_eq_some_iff.mp hs
    exact load_sim hi.shape hsim ha.1 ha.2 hc
  | discard name =>
    obtain ⟨c, hc, rfl⟩ := Option.map_eq_some_iff.mp hs
    exact discard_sim hi.shape hsim ha hc
  | use name =>
    obtain ⟨c, hc, rfl⟩ := Option.map_eq_some_iff.mp hs
    exact use_sim hi.shape hsim ha hc
  | poll =>
    cases hs
    exact ⟨s.cli.table, hsim.idle ha, rfl⟩
  | next =>
    obtain ⟨c, hc, rfl⟩ := Option.map_eq_some_iff.mp hs
    exact next_sim hi.shape hsim hc
  | get | rel | refresh | move | method =>
    rw [others_cli hi ha trivial (by simp) hs]
    exact hsim

theorem reach_vcls_turnRun : ∃ s, Reach step Called start s ∧ s.cli.replies.length = 4 ∧
    Table.replay ⟨[], none⟩ s.cli.replies = some s.cli.table := by
  have hres : (turnRun.foldlM step start).map (fun s => (s.cli.pc, s.cli.replies.length)) = some (.idle, 4) := by decide +kernel
  obtain ⟨s, hs, hc⟩ := Option.map_eq_some_iff.mp hres
  have hreach : Reach step Called start s := Reach.of_run (by decide +kernel) hs
  exact ⟨s, hreach, congrArg Prod.snd hc, reach_vcls hreach (congrArg Prod.fst hc)⟩

end Sim

end Varnish.Vcl
