import Varnish.Lib.CountIs
import Varnish.Vcl.Model

/-!
# Varnish.Vcl.Runs — no program is freed while somebody holds it

* `Shape`: what is so of the part that the CLI thread writes.  `Refs`: `busy` counts the holders.
* `vclFind_spec`, `load_spec`, …: what each function of the CLI thread does, and that it looks at no freed memory.
* `shape_cli`, `refs_step`: one step keeps both, whatever thread takes it.
* `reach_safe`: no assertion fails and nothing freed is looked at, in any order of the sections.
* `others_cli`, `others_unheld`: the other threads during a poll.
* `poll_collects`: a discarded program without holders does not survive a `VCL_Poll`.
-/

namespace Varnish.Vcl

open Varnish.Lib

/-! ## The invariant -/

section Invariant

def Vcls.Dropped (p : Option Vcls) : Prop := ∃ vcl, p = some vcl ∧ vcl.discard = true

def Vcls.Avail (p : Option Vcls) : Prop := ∃ vcl, p = some vcl ∧ vcl.discard = false

/-- The program that is on the list and not in the counters yet. -/
def Pc.pending : Pc → ℤ
  | .loaded _ _ _ => 1
  | _ => 0

/-- What the CLI thread knows of the program that it works on. -/
def PcOk (head : List ℕ) (mem : ℕ → Option Vcls) : Pc → Prop
  | .idle => True
  | .loaded v name file => mem v = some ⟨name, file, false⟩
  | .discarded v name => ∃ file, mem v = some ⟨name, file, true⟩
  | .chosen v name => ∃ file, mem v = some ⟨name, file, false⟩
  | .poll rest => rest.Nodup ∧ rest ⊆ head
  | .nuke v (.discard name) => ∃ file, mem v = some ⟨name, file, true⟩
  | .nuke v (.poll rest) => Vcls.Dropped (mem v) ∧ (v :: rest).Nodup ∧ rest ⊆ head

/-- The list has the programs that are allocated; the active one is available; no two available ones have one name. -/
structure Listed (head : List ℕ) (mem : ℕ → Option Vcls) (active : Option ℕ) : Prop where
  nodup : head.Nodup
  alloc : ∀ v, v ∈ head ↔ mem v ≠ none
  active : ∀ v, active = some v → Vcls.Avail (mem v)
  names : ∀ v v' name file file', mem v = some ⟨name, file, false⟩ → mem v' = some ⟨name, file', false⟩ → v = v'

structure Shape (c : Cli) : Prop where
  listed : Listed c.head c.mem c.active
  nVcl : ∃ n : ℕ, CountIs c.mem (· ≠ none) n ∧ c.nVcl + c.pc.pending = n
  nAvail : ∃ n : ℕ, CountIs c.mem Vcls.Avail n ∧ c.nAvail + c.pc.pending = n
  nDiscard : ∃ n : ℕ, CountIs c.mem Vcls.Dropped n ∧ c.nDiscard = n
  pc : PcOk c.head c.mem c.pc

structure Refs (s : St) : Prop where
  count : ∀ v, CountIs s.hold (· = some v) (s.busy v)
  held : ∀ k v, s.hold k = some v → s.cli.mem v ≠ none
  once : s.once = true → s.cli.active ≠ none
  nuke : ∀ v ret, s.cli.pc = .nuke v ret → s.busy v = 0

theorem shape_start : Shape start.cli where
  listed := ⟨List.nodup_nil, fun v => by simp [start], fun v h => (by cases h), fun v v' name file file' h => (by cases h)⟩
  nVcl := by
    refine ⟨0, ⟨?_, ?_⟩, rfl⟩ <;> simp [start]
  nAvail := by
    refine ⟨0, ⟨?_, ?_⟩, rfl⟩ <;> simp [start, Vcls.Avail]
  nDiscard := by
    refine ⟨0, ⟨?_, ?_⟩, rfl⟩ <;> simp [start, Vcls.Dropped]
  pc := trivial

theorem refs_start : Refs start where
  count v := by constructor <;> simp [start]
  held k v h := by cases h
  once h := by cases h
  nuke v ret h := by cases h

end Invariant

/-! ## The list of programs -/

section Listed

variable {head : List ℕ} {mem : ℕ → Option Vcls} {active : Option ℕ} {v : ℕ} {name file : List Char}

theorem Listed.insert (h : Listed head mem active) (hv : mem v = none) (hno : ∀ u f, mem u ≠ some ⟨name, f, false⟩) :
    Listed (head ++ [v]) (Function.update mem v (some ⟨name, file, false⟩)) active where
  nodup := List.nodup_append.mpr ⟨h.nodup, List.nodup_singleton v, fun a ha b hb => by
    rw [List.mem_singleton.mp hb]
    rintro rfl
    exact (h.alloc a).mp ha hv⟩
  alloc u := by
    rw [List.mem_append, List.mem_singleton, h.alloc u]
    by_cases he : u = v
    · subst he
      simp
    · rw [Function.update_of_ne he]
      exact or_iff_left he
  active u hu := by
    have he : u ≠ v := by
      rintro rfl
      obtain ⟨vcl, hm, -⟩ := h.active u hu
      rw [hv] at hm
      cases hm
    rw [Function.update_of_ne he]
    exact h.active u hu
  names u u' n f f' hu hu' := by
    by_cases he : u = v
    · subst he
      by_cases he' : u' = u
      · exact he'.symm
      · rw [Function.update_self] at hu
        cases hu
        rw [Function.update_of_ne he'] at hu'
        exact absurd hu' (hno u' f')
    · rw [Function.update_of_ne he] at hu
      by_cases he' : u' = v
      · subst he'
        rw [Function.update_self] at hu'
        cases hu'
        exact absurd hu (hno u f)
      · rw [Function.update_of_ne he'] at hu'
        exact h.names u u' n f f' hu hu'

/-- An available program is marked. -/
theorem Listed.drop (h : Listed head mem active) (hm : mem v = some ⟨name, file, false⟩) (ha : active ≠ some v) :
    Listed head (Function.update mem v (some ⟨name, file, true⟩)) active where
  nodup := h.nodup
  alloc u := by
    rw [h.alloc u]
    by_cases he : u = v
    · subst he
      simp [hm]
    · rw [Function.update_of_ne he]
  active u hu := by
    have he : u ≠ v := by
      rintro rfl
      exact ha hu
    rw [Function.update_of_ne he]
    exact h.active u hu
  names u u' n f f' hu hu' := by
    have he : u ≠ v := by
      rintro rfl
      rw [Function.update_self] at hu
      cases hu
    have he' : u' ≠ v := by
      rintro rfl
      rw [Function.update_self] at hu'
      cases hu'
    rw [Function.update_of_ne he] at hu
    rw [Function.update_of_ne he'] at hu'
    exact h.names u u' n f f' hu hu'

/-- A marked program is freed. -/
theorem Listed.erase (h : Listed head mem active) (hm : Vcls.Dropped (mem v)) :
    Listed (head.erase v) (Function.update mem v none) active where
  nodup := h.nodup.erase v
  alloc u := by
    rw [h.nodup.mem_erase_iff, h.alloc u]
    by_cases he : u = v
    · subst he
      simp
    · rw [Function.update_of_ne he]
      exact and_iff_right he
  active u hu := by
    have he : u ≠ v := by
      rintro rfl
      obtain ⟨p, hp, hd⟩ := hm
      obtain ⟨q, hq, hd'⟩ := h.active u hu
      rw [hp] at hq
      cases hq
      rw [hd] at hd'
      cases hd'
    rw [Function.update_of_ne he]
    exact h.active u hu
  names u u' n f f' hu hu' := by
    have he : u ≠ v := by
      rintro rfl
      rw [Function.update_self] at hu
      cases hu
    have he' : u' ≠ v := by
      rintro rfl
      rw [Function.update_self] at hu'
      cases hu'
    rw [Function.update_of_ne he] at hu
    rw [Function.update_of_ne he'] at hu'
    exact h.names u u' n f f' hu hu'

theorem Listed.use (h : Listed head mem active) (hm : Vcls.Avail (mem v)) : Listed head mem (some v) :=
  ⟨h.nodup, h.alloc, fun u hu => by cases hu; exact hm, h.names⟩

end Listed

/-! ## The CLI thread -/

section CliThread

variable {c c' : Cli} {v : ℕ} {name file : List Char} {opened : Opened} {busy : ℕ → ℕ} {ret : Return} {cmd : Cmd} {ok : Bool}

/-- The search finds the available program of that name, if there is one. -/
theorem vclFind_spec {mem : ℕ → Option Vcls} {l : List ℕ} (hl : ∀ v ∈ l, mem v ≠ none) :
    (∃ v file, vclFind mem name l = some (some v) ∧ v ∈ l ∧ mem v = some ⟨name, file, false⟩) ∨
      (vclFind mem name l = some none ∧ ∀ v ∈ l, ∀ file, mem v ≠ some ⟨name, file, false⟩) := by
  induction l with
  | nil => exact .inr ⟨rfl, fun v hv => by cases hv⟩
  | cons u l ih =>
    have ih := ih fun v hv => hl v (List.mem_cons_of_mem _ hv)
    obtain ⟨p, hp⟩ := Option.ne_none_iff_exists'.mp (hl u List.mem_cons_self)
    rw [vclFind, hp]
    simp only
    by_cases hd : p.discard = true
    · rw [if_pos hd]
      refine ih.imp ?_ ?_
      · rintro ⟨v, file, hf, hv, hm⟩
        exact ⟨v, file, hf, List.mem_cons_of_mem _ hv, hm⟩
      · rintro ⟨hf, hno⟩
        refine ⟨hf, fun v hv file hm => ?_⟩
        rcases List.mem_cons.mp hv with rfl | hv
        · rw [hp] at hm
          cases hm
          cases hd
        · exact hno v hv file hm
    · rw [if_neg hd]
      by_cases hn : p.name = name
      · rw [if_pos hn]
        left
        refine ⟨u, p.file, rfl, List.mem_cons_self, ?_⟩
        rw [hp, ← hn, ← Bool.not_eq_true _ |>.mp hd]
      · rw [if_neg hn]
        refine ih.imp ?_ ?_
        · rintro ⟨v, file, hf, hv, hm⟩
          exact ⟨v, file, hf, List.mem_cons_of_mem _ hv, hm⟩
        · rintro ⟨hf, hno⟩
          refine ⟨hf, fun v hv file hm => ?_⟩
          rcases List.mem_cons.mp hv with rfl | hv
          · rw [hp] at hm
            cases hm
            exact hn rfl
          · exact hno v hv file hm

theorem Shape.find (h : Shape c) (name : List Char) :
    (∃ v file, vclFind c.mem name c.head = some (some v) ∧ v ∈ c.head ∧ c.mem v = some ⟨name, file, false⟩) ∨
      (vclFind c.mem name c.head = some none ∧ ∀ v file, c.mem v ≠ some ⟨name, file, false⟩) := by
  refine (vclFind_spec fun v hv => (h.listed.alloc v).mp hv).imp_right fun ⟨hf, hno⟩ => ⟨hf, fun v file hm => ?_⟩
  refine hno v ((h.listed.alloc v).mpr ?_) file hm
  rw [hm]
  exact Option.some_ne_none _

/-- Nothing but the place and the answers changes. -/
theorem Shape.goto (h : Shape c) (pc : Pc) (hp : c.pc.pending = pc.pending) (hpc : PcOk c.head c.mem pc)
    (rs : List (Cmd × Bool)) : Shape { c with pc := pc, replies := rs } :=
  ⟨h.listed, by rw [← hp]; exact h.nVcl, by rw [← hp]; exact h.nAvail, h.nDiscard, hpc⟩

theorem Shape.reply (h : Shape c) (hp : c.pc.pending = 0) : Shape (c.reply cmd ok) := h.goto .idle hp trivial _

/-- What a step of the CLI thread leaves to the others. -/
structure Leaves (busy : ℕ → ℕ) (c c' : Cli) : Prop where
  mem : ∀ v, c.mem v ≠ none → busy v ≠ 0 → c'.mem v ≠ none
  active : c.active ≠ none → c'.active ≠ none
  nuke : ∀ v ret, c'.pc = .nuke v ret → busy v = 0

theorem leaves_reply : Leaves busy c (c.reply cmd ok) := ⟨fun _ h _ => h, id, fun v ret hp => by cases hp⟩

/-- `VCL_Load` puts the program on the list, if its name is free and it can be opened. -/
theorem load_spec (h : Shape c) (hi : c.pc = .idle) (hv : c.mem v = none) :
    ∃ c', vclLoad c name file opened v = some c' ∧ Shape c' ∧ Leaves busy c c' := by
  have hpend : c.pc.pending = 0 := by rw [hi]; rfl
  rcases h.find name with ⟨u, file', hf, -, -⟩ | ⟨hf, hno⟩
  · rw [vclLoad, hf]
    exact ⟨_, rfl, h.reply hpend, leaves_reply⟩
  · rw [vclLoad, hf]
    by_cases ho : opened = .good
    · simp only [ho, ne_eq, not_true_eq_false, if_false]
      refine ⟨_, rfl, ⟨h.listed.insert hv hno, ?_, ?_, ?_, Function.update_self ..⟩, ?_, id, fun u ret hp => by cases hp⟩
      · obtain ⟨n, hn, he⟩ := h.nVcl
        refine ⟨n + 1, hn.on (by simp [hv]) (Option.some_ne_none _), ?_⟩
        simp only [Pc.pending]
        omega
      · obtain ⟨n, hn, he⟩ := h.nAvail
        refine ⟨n + 1, hn.on (by simp [hv, Vcls.Avail]) ⟨_, rfl, rfl⟩, ?_⟩
        simp only [Pc.pending]
        omega
      · obtain ⟨n, hn, he⟩ := h.nDiscard
        exact ⟨n, hn.same (by simp [hv, Vcls.Dropped]), he⟩
      · intro u hu _
        have he : u ≠ v := by
          rintro rfl
          exact hu hv
        simpa only [Function.update_of_ne he] using hu
    · simp only [ne_eq, ho, not_false_eq_true, if_true]
      exact ⟨_, rfl, h.reply hpend, leaves_reply⟩

/-- `vcl.discard` marks the program, unless it is the active one. -/
theorem discard_spec (h : Shape c) (hi : c.pc = .idle) :
    ∃ c', configDiscard c name = some c' ∧ Shape c' ∧ Leaves busy c c' := by
  have hpend : c.pc.pending = 0 := by rw [hi]; rfl
  rcases h.find name with ⟨v, file, hf, -, hm⟩ | ⟨hf, -⟩
  · rw [configDiscard, hf]
    by_cases ha : c.active = some v
    · simp only [ha, if_true]
      exact ⟨_, rfl, h.reply hpend, leaves_reply⟩
    · simp only [ha, if_false, hm]
      refine ⟨_, rfl, ⟨h.listed.drop hm ha, ?_, ?_, ?_, ⟨file, Function.update_self ..⟩⟩, ?_, id, fun u ret hp => by cases hp⟩
      · obtain ⟨n, hn, he⟩ := h.nVcl
        rw [hpend] at he
        exact ⟨n, hn.same (by simp [hm]), he⟩
      · obtain ⟨n, hn, he⟩ := h.nAvail
        have hpos : 0 < n := hn.pos (k := v) ⟨_, hm, rfl⟩
        obtain ⟨n, rfl⟩ := Nat.exists_eq_add_of_lt hpos
        rw [Nat.zero_add] at hn
        refine ⟨n, hn.off ⟨_, hm, rfl⟩ (by simp [Vcls.Avail]), ?_⟩
        simp only [Pc.pending]
        omega
      · obtain ⟨n, hn, he⟩ := h.nDiscard
        refine ⟨n + 1, hn.on (by simp [hm, Vcls.Dropped]) ⟨_, rfl, rfl⟩, ?_⟩
        simp only
        omega
      · intro u hu _
        by_cases he : u = v
        · subst he
          simp
        · simpa only [Function.update_of_ne he] using hu
  · rw [configDiscard, hf]
    exact ⟨_, rfl, h.reply hpend, leaves_reply⟩

theorem use_spec (h : Shape c) (hi : c.pc = .idle) :
    ∃ c', configUse c name = some c' ∧ Shape c' ∧ Leaves busy c c' := by
  have hpend : c.pc.pending = 0 := by rw [hi]; rfl
  rcases h.find name with ⟨v, file, hf, -, hm⟩ | ⟨hf, -⟩
  · rw [configUse, hf]
    exact ⟨_, rfl, h.goto (.chosen v name) hpend ⟨file, hm⟩ _, fun _ hu _ => hu, id, fun u ret hp => by cases hp⟩
  · rw [configUse, hf]
    exact ⟨_, rfl, h.reply hpend, leaves_reply⟩

theorem poll_spec (h : Shape c) (hi : c.pc = .idle) : Shape (vclPoll c) ∧ Leaves busy c (vclPoll c) := by
  have hpend : c.pc.pending = 0 := by rw [hi]; rfl
  exact ⟨h.goto (.poll c.head) hpend ⟨h.listed.nodup, List.Subset.refl _⟩ _, fun _ hu _ => hu, id, fun u ret hp => by cases hp⟩

theorem mem_of_pc {head : List ℕ} {mem : ℕ → Option Vcls} (h : PcOk head mem (.nuke v ret)) : Vcls.Dropped (mem v) := by
  cases ret with
  | discard name =>
    obtain ⟨file, hm⟩ := h
    exact ⟨_, hm, rfl⟩
  | poll rest => exact h.1

theorem nuke_spec (h : Shape c) (hpc : c.pc = .nuke v ret) (hb : busy v = 0) :
    ∃ c', vclNuke c busy v ret = some c' ∧ Shape c' ∧ Leaves busy c c' := by
  have hok := h.pc
  rw [hpc] at hok
  obtain ⟨p, hm, hd⟩ := mem_of_pc hok
  have ha : c.active ≠ some v := by
    intro ha
    obtain ⟨q, hq, hd'⟩ := h.listed.active v ha
    rw [hm] at hq
    cases hq
    rw [hd] at hd'
    cases hd'
  have hpend : c.pc.pending = 0 := by rw [hpc]; rfl
  rw [vclNuke, hm]
  simp only [ha, hd, hb, Bool.true_eq_false, ne_eq, not_true_eq_false, or_false, if_false]
  have hlisted := h.listed.erase ⟨p, hm, hd⟩
  have hshape : Shape
      { c with
        mem := Function.update c.mem v none
        head := c.head.erase v
        nVcl := c.nVcl - 1
        nDiscard := c.nDiscard - 1
        pc := .idle } := by
    refine ⟨hlisted, ?_, ?_, ?_, trivial⟩
    · obtain ⟨n, hn, he⟩ := h.nVcl
      obtain ⟨n, rfl⟩ := Nat.exists_eq_add_of_lt (hn.pos (k := v) (by simp [hm]))
      rw [Nat.zero_add] at hn
      refine ⟨n, hn.off (by simp [hm]) (by simp), ?_⟩
      simp only [Pc.pending]
      omega
    · obtain ⟨n, hn, he⟩ := h.nAvail
      rw [hpend] at he
      exact ⟨n, hn.same (by simp [hm, hd, Vcls.Avail]), he⟩
    · obtain ⟨n, hn, he⟩ := h.nDiscard
      obtain ⟨n, rfl⟩ := Nat.exists_eq_add_of_lt (hn.pos (k := v) ⟨p, hm, hd⟩)
      rw [Nat.zero_add] at hn
      refine ⟨n, hn.off ⟨p, hm, hd⟩ (by simp [Vcls.Dropped]), ?_⟩
      simp only
      omega
  have hmem : ∀ u, c.mem u ≠ none → busy u ≠ 0 → Function.update c.mem v none u ≠ none := by
    intro u hu hbu
    have he : u ≠ v := by
      rintro rfl
      exact hbu hb
    rwa [Function.update_of_ne he]
  cases ret with
  | discard name => exact ⟨_, rfl, hshape.reply rfl, hmem, id, fun u ret hp => by cases hp⟩
  | poll rest =>
    refine ⟨_, rfl, hshape.goto (.poll rest) rfl ⟨hok.2.1.of_cons, fun u hu => ?_⟩ _, hmem, id, fun u ret hp => by cases hp⟩
    have hne : u ≠ v := by
      rintro rfl
      exact (List.nodup_cons.mp hok.2.1).1 hu
    exact (h.listed.nodup.mem_erase_iff).mpr ⟨hne, hok.2.2 hu⟩

theorem next_spec (h : Shape c) (hpc : c.pc ≠ .idle) (hb : ∀ v ret, c.pc = .nuke v ret → busy v = 0) :
    ∃ c', cliNext c busy = some c' ∧ Shape c' ∧ Leaves busy c c' := by
  have hok := h.pc
  rw [cliNext]
  cases hc : c.pc with
  | idle => exact absurd hc hpc
  | loaded v name file =>
    rw [hc] at hok
    have hlisted : Listed c.head c.mem (if c.active = none then some v else c.active) := by
      by_cases ha : c.active = none
      · rw [if_pos ha]
        exact h.listed.use ⟨_, hok, rfl⟩
      · rw [if_neg ha]
        exact h.listed
    refine ⟨_, rfl, ⟨hlisted, ?_, ?_, h.nDiscard, trivial⟩, fun _ hu _ => hu, fun ha => ?_, fun u ret hp => by cases hp⟩
    · obtain ⟨n, hn, he⟩ := h.nVcl
      rw [hc] at he
      refine ⟨n, hn, ?_⟩
      simp only [Cli.reply, Pc.pending] at he ⊢
      omega
    · obtain ⟨n, hn, he⟩ := h.nAvail
      rw [hc] at he
      refine ⟨n, hn, ?_⟩
      simp only [Cli.reply, Pc.pending] at he ⊢
      omega
    · simp only [Cli.reply, ha, if_false]
      exact ha
  | discarded v name =>
    rw [hc] at hok
    obtain ⟨file, hm⟩ := hok
    simp only [hm, reduceCtorEq, if_false]
    by_cases hv : busy v = 0
    · rw [if_pos hv]
      exact ⟨_, rfl, h.goto (.nuke v (.discard name)) (by rw [hc]; rfl) ⟨file, hm⟩ _, fun _ hu _ => hu, id,
        fun u ret hp => by cases hp; exact hv⟩
    · rw [if_neg hv]
      exact ⟨_, rfl, h.reply (by rw [hc]; rfl), leaves_reply⟩
  | chosen v name =>
    rw [hc] at hok
    obtain ⟨file, hm⟩ := hok
    have hshape : Shape { c with active := some v } :=
      ⟨h.listed.use ⟨_, hm, rfl⟩, h.nVcl, h.nAvail, h.nDiscard, h.pc⟩
    exact ⟨_, rfl, hshape.reply (by show c.pc.pending = 0; rw [hc]; rfl), fun _ hu _ => hu,
      fun _ => Option.some_ne_none v, fun u ret hp => by cases hp⟩
  | poll rest =>
    rw [hc] at hok
    cases rest with
    | nil => exact ⟨_, rfl, h.goto .idle (by rw [hc]; rfl) trivial _, fun _ hu _ => hu, id, fun u ret hp => by cases hp⟩
    | cons v vs =>
      have hv := (h.listed.alloc v).mp (hok.2 List.mem_cons_self)
      obtain ⟨p, hm⟩ := Option.ne_none_iff_exists'.mp hv
      simp only [hm]
      by_cases hn : p.discard = true ∧ busy v = 0
      · rw [if_pos hn]
        exact ⟨_, rfl, h.goto (.nuke v (.poll vs)) (by rw [hc]; rfl)
          ⟨⟨p, hm, hn.1⟩, hok.1, fun u hu => hok.2 (List.mem_cons_of_mem _ hu)⟩ _, fun _ hu _ => hu, id,
          fun u ret hp => by cases hp; exact hn.2⟩
      · rw [if_neg hn]
        exact ⟨_, rfl, h.goto (.poll vs) (by rw [hc]; rfl)
          ⟨hok.1.of_cons, fun u hu => hok.2 (List.mem_cons_of_mem _ hu)⟩ _, fun _ hu _ => hu, id,
          fun u ret hp => by cases hp⟩
  | nuke v ret => exact nuke_spec h hc (hb v ret hc)

end CliThread

/-! ## One step -/

section Steps

variable {s s' : St} {k v : ℕ} {a : Act}

/-- The CLI thread keeps both parts. -/
theorem Refs.cli (h : Refs s) {busy : ℕ → ℕ} {c : Cli} (hl : Leaves busy s.cli c)
    (hb : ∀ v, CountIs s.hold (· = some v) (busy v)) : Refs { s with cli := c, busy := busy } where
  count := hb
  held k v hk := hl.mem v (h.held k v hk) (Nat.pos_iff_ne_zero.mp ((hb v).pos hk))
  once ho := hl.active (h.once ho)
  nuke := hl.nuke

theorem get_spec (hs : Shape s.cli) (h : Refs s) (hk : s.hold k = none) :
    ∃ s', vclGet s k = some s' ∧ s'.cli = s.cli ∧ Refs s' := by
  rw [vclGet]
  by_cases hw : s.once = false ∧ s.cli.active = none
  · rw [if_pos hw]
    exact ⟨s, rfl, rfl, h⟩
  · rw [if_neg hw]
    cases ha : s.cli.active with
    | none =>
      refine absurd ha (h.once ?_)
      rw [ha] at hw
      simpa using hw
    | some v =>
      obtain ⟨p, hm, hd⟩ := hs.listed.active v ha
      simp only [hm, hd, Bool.false_eq_true, if_false]
      refine ⟨_, rfl, rfl, fun u => ?_, fun i u hi => ?_, fun _ => by simp [ha], fun u ret hp => ?_⟩
      · by_cases hu : u = v
        · subst hu
          simp only [Function.update_self]
          exact (h.count u).on (by simp [hk]) rfl
        · simp only [Function.update_of_ne hu]
          exact (h.count u).same (by simp [hk, Ne.symm hu])
      · by_cases hi' : i = k
        · subst hi'
          simp only [Function.update_self, Option.some.injEq] at hi
          subst hi
          simp [hm]
        · simp only [Function.update_of_ne hi'] at hi
          exact h.held i u hi
      · have hu : u ≠ v := by
          rintro rfl
          have hok := hs.pc
          rw [hp] at hok
          obtain ⟨q, hq, hd'⟩ := mem_of_pc hok
          rw [hm] at hq
          cases hq
          rw [hd] at hd'
          cases hd'
        simp only [Function.update_of_ne hu]
        exact h.nuke u ret hp

theorem rel_spec (h : Refs s) (hk : s.hold k ≠ none) : ∃ s', vclRel s k = some s' ∧ s'.cli = s.cli ∧ Refs s' := by
  obtain ⟨v, hv⟩ := Option.ne_none_iff_exists'.mp hk
  have hpos : 0 < s.busy v := (h.count v).pos hv
  rw [vclRel, hv]
  simp only [h.held k v hv, false_or]
  rw [if_neg (Nat.pos_iff_ne_zero.mp hpos)]
  refine ⟨_, rfl, rfl, fun u => ?_, fun i u hi => ?_, h.once, fun u ret hp => ?_⟩
  · by_cases hu : u = v
    · subst hu
      simp only [Function.update_self]
      have hc := h.count u
      rw [← Nat.sub_add_cancel hpos] at hc
      exact hc.off hv (by simp)
    · simp only [Function.update_of_ne hu]
      exact (h.count u).same (by simp [hv, Ne.symm hu])
  · by_cases hi' : i = k
    · subst hi'
      simp at hi
    · simp only [Function.update_of_ne hi'] at hi
      exact h.held i u hi
  · have hu : u ≠ v := by
      rintro rfl
      exact absurd (h.nuke u ret hp) (Nat.pos_iff_ne_zero.mp hpos)
    simp only [Function.update_of_ne hu]
    exact h.nuke u ret hp

theorem Refs.move (h : Refs s) {k' : ℕ} (hne : k ≠ k') (hk : s.hold k' = none) : Refs (s.move k k') := by
  have hk' : Function.update s.hold k none k' = none := by rw [Function.update_of_ne (Ne.symm hne), hk]
  refine ⟨fun v => ?_, fun i v hi => ?_, h.once, h.nuke⟩
  · simp only [St.move]
    by_cases hv : s.hold k = some v
    · have hc := h.count v
      have hpos := hc.pos hv
      rw [← Nat.sub_add_cancel hpos] at hc
      have hc := (hc.off (x := none) hv (by simp)).on (k := k') (x := s.hold k) (by simp [hk']) hv
      rwa [Nat.sub_add_cancel hpos] at hc
    · exact ((h.count v).same (x := none) (k := k) (by simp [hv])).same (by simp [hv, hk'])
  · by_cases hi' : i = k'
    · subst hi'
      simp only [St.move, Function.update_self] at hi
      exact h.held k v hi
    · simp only [St.move, Function.update_of_ne hi'] at hi
      by_cases hik : i = k
      · subst hik
        simp at hi
      · rw [Function.update_of_ne hik] at hi
        exact h.held i v hi

/-- The invariant of a run. -/
structure Inv (s : St) : Prop where
  shape : Shape s.cli
  refs : Refs s

/-- A step of the CLI thread. -/
theorem cli_step (h : Inv s) {busy : ℕ → ℕ} {o : Option Cli} (hb : ∀ v, CountIs s.hold (· = some v) (busy v))
    (ho : ∃ c, o = some c ∧ Shape c ∧ Leaves busy s.cli c) :
    ∃ s', o.map { s with busy := busy }.withCli = some s' ∧ Inv s' := by
  obtain ⟨c, rfl, hs, hl⟩ := ho
  exact ⟨_, rfl, hs, h.refs.cli hl hb⟩

/-- No step fails, and each keeps the invariant. -/
theorem step_spec (h : Inv s) (ha : Called s a) : ∃ s', step s a = some s' ∧ Inv s' := by
  have hcount := h.refs.count
  cases a with
  | get k =>
    obtain ⟨s', hs', hc, hr⟩ := get_spec h.shape h.refs ha
    exact ⟨s', hs', by rw [hc]; exact h.shape, hr⟩
  | rel k =>
    obtain ⟨s', hs', hc, hr⟩ := rel_spec h.refs ha
    exact ⟨s', hs', by rw [hc]; exact h.shape, hr⟩
  | refresh k =>
    rw [step, vclRefresh]
    by_cases hsame : s.cli.active ≠ none ∧ s.hold k = s.cli.active
    · rw [if_pos hsame]
      exact ⟨s, rfl, h⟩
    · rw [if_neg hsame]
      by_cases hk : s.hold k ≠ none
      · rw [if_pos hk]
        obtain ⟨s', hs', hc, hr⟩ := rel_spec h.refs hk
        exact ⟨s', hs', by rw [hc]; exact h.shape, hr⟩
      · rw [if_neg hk]
        exact ⟨s, rfl, h⟩
  | move k k' => exact ⟨_, rfl, h.shape, h.refs.move ha.1 ha.2⟩
  | method k =>
    obtain ⟨v, hv⟩ := Option.ne_none_iff_exists'.mp ha
    rw [step, vclMethod, hv]
    simp only [h.refs.held k v hv, if_false]
    exact ⟨s, rfl, h⟩
  | load name file opened v =>
    refine cli_step h (fun u => ?_) (load_spec h.shape ha.1 ha.2)
    by_cases hu : u = v
    · subst hu
      have hzero : s.busy u = 0 := by
        by_contra hne
        obtain ⟨i, hi⟩ := (hcount u).nonempty_iff.mpr hne
        exact h.refs.held i u hi ha.2
      rw [Function.update_self, ← hzero]
      exact hcount u
    · rw [Function.update_of_ne hu]
      exact hcount u
  | discard name => exact cli_step h hcount (discard_spec h.shape ha)
  | use name => exact cli_step h hcount (use_spec h.shape ha)
  | poll =>
    obtain ⟨hs, hl⟩ : _ ∧ Leaves s.busy _ _ := poll_spec h.shape ha
    exact ⟨_, rfl, hs, h.refs.cli hl hcount⟩
  | next => exact cli_step h hcount (next_spec h.shape ha h.refs.nuke)

end Steps

/-! ## Runs -/

section Runs

variable {s s' : St} {a : Act} {v : ℕ}

theorem reach_inv (h : Reach step Called start s) : Inv s := by
  refine h.inv ⟨shape_start, refs_start⟩ fun s a s' hi ha hs => ?_
  obtain ⟨s'', hs'', hi'⟩ := step_spec hi ha
  rw [hs] at hs''
  cases hs''
  exact hi'

/-- In any order of the sections no assertion fails and nothing freed is looked at; each variable that points to a
program points into the list; `busy` counts these variables; the active program is available; and between two
commands the counters are right. -/
theorem reach_safe (h : Reach step Called start s) :
    (∀ a, Called s a → (step s a).isSome) ∧
      (∀ k v, s.hold k = some v → v ∈ s.cli.head) ∧
      (∀ v, CountIs s.hold (· = some v) (s.busy v)) ∧
      (∀ v, s.cli.active = some v → v ∈ s.cli.head ∧ Vcls.Avail (s.cli.mem v)) ∧
      (s.cli.pc = .idle → ∃ avail dropped : ℕ, CountIs s.cli.mem Vcls.Avail avail ∧
        CountIs s.cli.mem Vcls.Dropped dropped ∧ s.cli.nAvail = avail ∧ s.cli.nDiscard = dropped ∧
        CountIs s.cli.mem (· ≠ none) s.cli.nVcl.toNat) := by
  have hi := reach_inv h
  refine ⟨fun a ha => ?_, fun k v hk => ?_, hi.refs.count, fun v hv => ?_, fun hpc => ?_⟩
  · obtain ⟨s', hs', -⟩ := step_spec hi ha
    rw [hs']
    rfl
  · exact (hi.shape.listed.alloc v).mpr (hi.refs.held k v hk)
  · have hav := hi.shape.listed.active v hv
    obtain ⟨p, hp, -⟩ := id hav
    exact ⟨(hi.shape.listed.alloc v).mpr (by rw [hp]; exact Option.some_ne_none p), hav⟩
  · obtain ⟨n, hn, he⟩ := hi.shape.nVcl
    obtain ⟨a, ha, hae⟩ := hi.shape.nAvail
    obtain ⟨d, hd, hde⟩ := hi.shape.nDiscard
    rw [hpc] at he hae
    simp only [Pc.pending, add_zero] at he hae
    exact ⟨a, d, ha, hd, hae, hde, by rw [he]; exact hn⟩

/-- A program is held, moved on and released while another one takes its place and it is discarded. -/
def turnRun : List Act :=
  [.load ['a'] ['f'] .good 0, .next, .get 5, .load ['b'] ['g'] .good 1, .next, .use ['b'], .next, .move 5 6, .discard ['a'],
    .next, .method 6]

theorem reach_safe_turnRun : ∃ s, Reach step Called start s ∧ (s.hold 6 = some 0 ∧ s.busy 0 = 1) ∧
    (∀ a, Called s a → (step s a).isSome) ∧
      (∀ k v, s.hold k = some v → v ∈ s.cli.head) ∧
      (∀ v, CountIs s.hold (· = some v) (s.busy v)) ∧
      (∀ v, s.cli.active = some v → v ∈ s.cli.head ∧ Vcls.Avail (s.cli.mem v)) ∧
      (s.cli.pc = .idle → ∃ avail dropped : ℕ, CountIs s.cli.mem Vcls.Avail avail ∧
        CountIs s.cli.mem Vcls.Dropped dropped ∧ s.cli.nAvail = avail ∧ s.cli.nDiscard = dropped ∧
        CountIs s.cli.mem (· ≠ none) s.cli.nVcl.toNat) := by
  have hres : (turnRun.foldlM step start).map (fun s => (s.hold 6, s.busy 0)) = some (some 0, 1) := by decide +kernel
  obtain ⟨s, hs, hc⟩ := Option.map_eq_some_iff.mp hres
  have hreach : Reach step Called start s := Reach.of_run (by decide +kernel) hs
  exact ⟨s, hreach, ⟨congrArg Prod.fst hc, congrArg Prod.snd hc⟩, reach_safe hreach⟩

end Runs

/-! ## The poll -/

section Poll

variable {s s' : St} {a : Act} {v : ℕ}

/-- The actions that take place in the middle of a poll. -/
def Act.Within : Act → Prop
  | .load _ _ _ _ | .discard _ | .use _ | .poll => False
  | _ => True

instance : (a : Act) → Decidable a.Within
  | .load _ _ _ _ | .discard _ | .use _ | .poll => isFalse id
  | .get _ | .rel _ | .refresh _ | .move _ _ | .method _ | .next => isTrue trivial

/-- Nobody holds the program. -/
def St.Unheld (s : St) (v : ℕ) : Prop := ∀ k, s.hold k ≠ some v

theorem ne_of_dropped {mem : ℕ → Option Vcls} {u : ℕ} (hd : Vcls.Dropped (mem v)) (ha : Vcls.Avail (mem u)) : u ≠ v := by
  rintro rfl
  obtain ⟨p, hp, hd⟩ := hd
  obtain ⟨q, hq, hd'⟩ := ha
  rw [hp] at hq
  cases hq
  rw [hd] at hd'
  cases hd'

theorem rel_unheld {k : ℕ} (hs : vclRel s k = some s') (hu : s.Unheld v) : s'.Unheld v := by
  rw [vclRel] at hs
  cases hk : s.hold k with
  | none =>
    rw [hk] at hs
    cases hs
  | some u =>
    simp only [hk] at hs
    split at hs
    · cases hs
    · cases hs
      intro i
      by_cases hi : i = k
      · subst hi
        simp
      · simp only [Function.update_of_ne hi]
        exact hu i

/-- No other thread gets at a dropped program that nobody holds. -/
theorem others_unheld (hi : Inv s) (hd : Vcls.Dropped (s.cli.mem v)) (hu : s.Unheld v) (ha : a.Within) (hn : a ≠ .next)
    (hs : step s a = some s') : s'.Unheld v := by
  cases a with
  | load | discard | use | poll => cases ha
  | next => exact absurd rfl hn
  | rel k => exact rel_unheld hs hu
  | method k =>
    rw [step, vclMethod] at hs
    split at hs
    · cases hs
    · split at hs
      · cases hs
      · cases hs
        exact hu
  | refresh k =>
    rw [step, vclRefresh] at hs
    split at hs
    · cases hs
      exact hu
    · split at hs
      · exact rel_unheld hs hu
      · cases hs
        exact hu
  | move k k' =>
    cases hs
    intro i
    by_cases hik' : i = k'
    · subst hik'
      simp only [St.move, Function.update_self]
      exact hu k
    · by_cases hik : i = k
      · subst hik
        simp [St.move, Function.update_of_ne hik']
      · simp only [St.move, Function.update_of_ne hik', Function.update_of_ne hik]
        exact hu i
  | get k =>
    rw [step, vclGet] at hs
    split at hs
    · cases hs
      exact hu
    · cases hact : s.cli.active with
      | none =>
        rw [hact] at hs
        cases hs
      | some u =>
        have hav := hi.shape.listed.active u hact
        have hne := ne_of_dropped hd hav
        obtain ⟨p, hp, hpd⟩ := hav
        simp only [hact, hp, hpd, Bool.false_eq_true, if_false] at hs
        cases hs
        intro i
        by_cases hik : i = k
        · subst hik
          simp [hne]
        · simp only [Function.update_of_ne hik]
          exact hu i

/-- The CLI thread is in a poll that comes to the program. -/
def Pc.ComesTo (v : ℕ) : Pc → Prop
  | .poll rest => v ∈ rest
  | .nuke u (.poll rest) => u = v ∨ v ∈ rest
  | _ => False

/-- The program is still to be freed, or it is. -/
def Sweep (v : ℕ) (s : St) : Prop :=
  Inv s ∧ ((s.cli.pc.ComesTo v ∧ Vcls.Dropped (s.cli.mem v) ∧ s.Unheld v) ∨ s.cli.mem v = none)

theorem Sweep.next (hi : Inv s) (hc : s.cli.pc.ComesTo v) (hd : Vcls.Dropped (s.cli.mem v)) (hu : s.Unheld v)
    {c : Cli} (hs : cliNext s.cli s.busy = some c) : (c.pc.ComesTo v ∧ Vcls.Dropped (c.mem v)) ∨ c.mem v = none := by
  have hb : s.busy v = 0 := by
    by_contra hne
    obtain ⟨k, hk⟩ := (hi.refs.count v).nonempty_iff.mpr hne
    exact hu k hk
  rw [cliNext] at hs
  cases hpc : s.cli.pc with
  | idle | loaded | discarded | chosen =>
    rw [hpc] at hc
    cases hc
  | poll rest =>
    rw [hpc] at hc hs
    cases rest with
    | nil => cases hc
    | cons u rest =>
      cases hm : s.cli.mem u with
      | none =>
        simp only [hm] at hs
        cases hs
      | some p =>
        simp only [hm] at hs
        cases hs
        refine .inl ⟨?_, hd⟩
        rcases List.mem_cons.mp hc with rfl | hc
        · obtain ⟨q, hq, hqd⟩ := hd
          rw [hm] at hq
          cases hq
          rw [if_pos ⟨hqd, hb⟩]
          exact .inl rfl
        · split
          · exact .inr hc
          · exact hc
  | nuke u ret =>
    rw [hpc] at hc hs
    cases ret with
    | discard name => cases hc
    | poll rest =>
      simp only [vclNuke] at hs
      split at hs
      · cases hs
      · split at hs
        · cases hs
        · cases hs
          by_cases he : v = u
          · subst he
            exact .inr (Function.update_self ..)
          · refine .inl ⟨hc.resolve_left fun h => he h.symm, ?_⟩
            show Vcls.Dropped (Function.update s.cli.mem u none v)
            rwa [Function.update_of_ne he]

/-- What is freed stays so as long as nothing is loaded. -/
theorem next_freed {c c' : Cli} {busy : ℕ → ℕ} (hs : cliNext c busy = some c') (hv : c.mem v = none) : c'.mem v = none := by
  rw [cliNext] at hs
  cases hpc : c.pc with
  | idle =>
    rw [hpc] at hs
    cases hs
  | loaded u name file | chosen u name =>
    rw [hpc] at hs
    cases hs
    exact hv
  | discarded u name =>
    rw [hpc] at hs
    simp only at hs
    split at hs
    · cases hs
    · cases hs
      split <;> exact hv
  | poll rest =>
    rw [hpc] at hs
    cases rest with
    | nil =>
      cases hs
      exact hv
    | cons u rest =>
      simp only at hs
      split at hs
      · cases hs
      · cases hs
        exact hv
  | nuke u ret =>
    rw [hpc] at hs
    simp only [vclNuke] at hs
    split at hs
    · cases hs
    · split at hs
      · cases hs
      · have hfreed : Function.update c.mem u none v = none := by
          by_cases he : v = u
          · rw [he, Function.update_self]
          · rw [Function.update_of_ne he, hv]
        cases ret <;> cases hs <;> exact hfreed

theorem others_cli (hi : Inv s) (hcalled : Called s a) (hw : a.Within) (hn : a ≠ .next) (hs : step s a = some s') :
    s'.cli = s.cli := by
  cases a with
  | load | discard | use | poll => cases hw
  | next => exact absurd rfl hn
  | get k =>
    obtain ⟨t, ht, hc, -⟩ := get_spec hi.shape hi.refs hcalled
    rw [step, ht] at hs
    cases hs
    exact hc
  | rel k =>
    obtain ⟨t, ht, hc, -⟩ := rel_spec hi.refs hcalled
    rw [step, ht] at hs
    cases hs
    exact hc
  | refresh k =>
    rw [step, vclRefresh] at hs
    split at hs
    · cases hs
      rfl
    · split at hs
      · rename_i hk
        obtain ⟨t, ht, hc, -⟩ := rel_spec hi.refs hk
        rw [ht] at hs
        cases hs
        exact hc
      · cases hs
        rfl
  | move k k' =>
    cases hs
    rfl
  | method k =>
    obtain ⟨u, hu⟩ := Option.ne_none_iff_exists'.mp hcalled
    rw [step, vclMethod, hu] at hs
    simp only at hs
    split at hs
    · cases hs
    · cases hs
      rfl

theorem Sweep.step (h : Sweep v s) (hcalled : Called s a) (hw : a.Within) (hs : Vcl.step s a = some s') : Sweep v s' := by
  obtain ⟨s'', hs'', hi'⟩ := step_spec h.1 hcalled
  rw [hs] at hs''
  cases hs''
  refine ⟨hi', ?_⟩
  rcases h.2 with ⟨hc, hd, hu⟩ | hnone
  · by_cases hn : a = .next
    · subst hn
      obtain ⟨c, hcs, rfl⟩ := Option.map_eq_some_iff.mp hs
      exact (Sweep.next h.1 hc hd hu hcs).imp_left fun hcd => ⟨hcd.1, hcd.2, hu⟩
    · rw [others_cli h.1 hcalled hw hn hs]
      exact .inl ⟨hc, hd, others_unheld h.1 hd hu hw hn hs⟩
  · right
    by_cases hn : a = .next
    · subst hn
      obtain ⟨c, hcs, rfl⟩ := Option.map_eq_some_iff.mp hs
      exact next_freed hcs hnone
    · rw [others_cli h.1 hcalled hw hn hs]
      exact hnone

/-- A discarded program that nobody holds when a `VCL_Poll` begins is freed when it ends, whatever the other threads do
in the meantime. -/
theorem poll_collects (h : Reach step Called start s) (hidle : s.cli.pc = .idle) (hd : Vcls.Dropped (s.cli.mem v))
    (hu : s.Unheld v) (hpoll : Reach step (fun s a => Called s a ∧ a.Within) (s.withCli (vclPoll s.cli)) s')
    (hend : s'.cli.pc = .idle) : s'.cli.mem v = none := by
  have hi := reach_inv h
  obtain ⟨s1, hs1, hi1⟩ := step_spec (a := .poll) hi hidle
  cases hs1
  have hv : v ∈ s.cli.head := by
    obtain ⟨p, hp, -⟩ := hd
    exact (hi.shape.listed.alloc v).mpr (by rw [hp]; exact Option.some_ne_none p)
  have hstart : Sweep v (s.withCli (vclPoll s.cli)) := ⟨hi1, .inl ⟨hv, hd, hu⟩⟩
  have hsweep := hpoll.inv (I := Sweep v) hstart fun s a s' hsw hok hs => hsw.step hok.1 hok.2 hs
  rcases hsweep.2 with ⟨hc, -, -⟩ | hnone
  · rw [hend] at hc
    cases hc
  · exact hnone

/-- The last holder lets go. -/
def turned : St := ((turnRun ++ [Act.rel 6]).foldlM step start).getD start

/-- During the poll another thread takes the active program. -/
def sweepRun : List Act := [.next, .get 7, .next, .next, .next]

def swept : St := (sweepRun.foldlM step (turned.withCli (vclPoll turned.cli))).getD start

theorem eq_some_getD {o : Option St} (h : o.isSome = true) : o = some (o.getD start) := by
  cases o with
  | none => cases h
  | some s => rfl

theorem poll_collects_turnRun : turned.cli.mem 0 = some ⟨['a'], ['f'], true⟩ ∧ swept.cli.mem 0 = none := by
  have hs := eq_some_getD (o := (turnRun ++ [Act.rel 6]).foldlM step start) (by decide +kernel)
  have hs' := eq_some_getD (o := sweepRun.foldlM step (turned.withCli (vclPoll turned.cli))) (by decide +kernel)
  have hreach : Reach step Called start turned := Reach.of_run (by decide +kernel) hs
  have hpoll : Reach step (fun s a => Called s a ∧ a.Within) (turned.withCli (vclPoll turned.cli)) swept :=
    Reach.of_run (by decide +kernel) hs'
  have hmem : turned.cli.mem 0 = some ⟨['a'], ['f'], true⟩ := by decide +kernel
  have hbusy : turned.busy 0 = 0 := by decide +kernel
  have hunheld : turned.Unheld 0 := fun k hk =>
    absurd hbusy (Nat.pos_iff_ne_zero.mp (((reach_inv hreach).refs.count 0).pos hk))
  exact ⟨hmem, poll_collects hreach (by decide +kernel) ⟨_, hmem, rfl⟩ hunheld hpoll (by decide +kernel)⟩

end Poll

end Varnish.Vcl
