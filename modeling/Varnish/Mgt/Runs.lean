import Mathlib.Data.List.Nodup
import Varnish.Mgt.Model

/-!
# Varnish.Mgt.Runs — what the manager has open, over whole runs

* `Progs`: the list of programs: no name twice, at most one active, and each has its file.
* `Down`, `Inv`: what is open for a child that is there, and that nothing is open for one that is not.
* `Done`: a function goes through, but for an answer that is cut off.
* `startChild_spec`, `mgtStopChild_spec`, `mgtSigchld_spec`, …: each function goes through and keeps `Inv`.
* `reach_open`: in every run no event is used that is gone, no descriptor is lost, and no assertion fails but that on a whole answer.
* `reach_unpoked`: any SIGCHLD takes the poker away for the rest of the child's life.
-/

namespace Varnish.Mgt

open Varnish.Ban Varnish.Serve Varnish.Vcl Varnish.Lib

/-! ## Invariants -/

section Invariants

/-- The programs of the manager. -/
structure Progs (buf : ℕ) (l : List Vclprog) (files : List Str) : Prop where
  names : (l.map Vclprog.name).Nodup
  fnames : (l.map Vclprog.fname).Nodup
  files : ∀ vp ∈ l, vp.fname ∈ files
  fits : ∀ vp ∈ l, vp.fname ≠ [] ∧ vp.name.length + vp.fname.length + 13 < buf
  active : l.Pairwise fun v w => v.active = 0 ∨ w.active = 0
  flags : ∀ vp ∈ l, vp.active = 0 ∨ vp.active = 1

/-- Nothing is open. -/
structure Down (s : St) : Prop where
  pid : s.pid = false
  cli : s.cliFds = false
  output : s.output = false
  ask : s.ask = false
  poker : s.evPoker = false ∧ s.pokerEv = false
  listen : s.evListen = false ∧ s.listenEv = false
  lost : s.lost = 0
  proc : s.proc = none

/-- Between two events: the state tells what is open. -/
structure Inv (buf : ℕ) (s : St) : Prop where
  state : s.childState = .stopped ∨ s.childState = .running ∨ s.childState = .stopping
  pid : s.pid = true ↔ s.childState ≠ .stopped
  output : s.output = s.pid
  cli : s.cliFds = true ↔ s.childState = .running
  ask : s.ask = s.cliFds
  pokerEv : s.pokerEv = s.evPoker
  poker : s.evPoker = true → s.childState = .running
  listenEv : s.listenEv = s.evListen
  listen : s.evListen = true → s.pid = true
  lost : s.lost = 0
  proc : s.proc ≠ none → s.pid = true
  progs : Progs buf s.vclhead s.files

/-- Only the process has changed, and it has not come back. -/
def Same (s s' : St) : Prop := ∃ p, s' = { s with proc := p } ∧ (p ≠ none → s.proc ≠ none)

variable {buf : ℕ} {s s' s'' : St} {line name : Str} {a : Answer} {as : List Answer}

theorem Same.refl (s : St) : Same s s := ⟨s.proc, rfl, id⟩

theorem Same.trans (h : Same s s') (h' : Same s' s'') : Same s s'' := by
  obtain ⟨p, rfl, hp⟩ := h
  obtain ⟨q, rfl, hq⟩ := h'
  exact ⟨q, rfl, fun hn => hp (hq hn)⟩

theorem Same.pokerEv (h : Same s s') : s'.pokerEv = s.pokerEv := by
  obtain ⟨p, rfl, -⟩ := h
  rfl

theorem Same.inv (h : Same s s') (hs : Inv buf s) : Inv buf s' := by
  obtain ⟨p, rfl, hp⟩ := h
  exact ⟨hs.state, hs.pid, hs.output, hs.cli, hs.ask, hs.pokerEv, hs.poker, hs.listenEv, hs.listen, hs.lost,
    fun hn => hs.proc (hp hn), hs.progs⟩

end Invariants

/-! ## Answers that are cut off -/

section Answers

variable {α β : Type} {as bs : List Answer} {x : Option α} {y : α} {f : α → Option β} {P : α → Prop} {Q : β → Prop}

/-- A function with these answers goes through, with a result that has `P`, or one of them is cut off. -/
def Done (as : List Answer) (x : Option α) (P : α → Prop) : Prop := (x = none ∧ .cut ∈ as) ∨ ∃ y, x = some y ∧ P y

theorem Done.pure (h : P y) : Done as (some y) P := .inr ⟨y, rfl, h⟩

theorem Done.of_eq (h : Done as x P) (he : x = some y) : P y := by
  obtain ⟨hx, -⟩ | ⟨z, hx, hz⟩ := h
  · cases hx.symm.trans he
  · cases hx.symm.trans he
    exact hz

theorem Done.isSome (h : Done as x P) (hc : .cut ∉ as) : x.isSome := by
  obtain ⟨-, hx⟩ | ⟨y, rfl, -⟩ := h
  · exact absurd hx hc
  · rfl

theorem Done.sub (h : Done as x P) (hs : as ⊆ bs) : Done bs x P := h.imp_left fun hx => ⟨hx.1, hs hx.2⟩

theorem Done.mono {R : α → Prop} (h : Done as x P) (hr : ∀ y, P y → R y) : Done as x R :=
  h.imp_right fun ⟨y, hx, hy⟩ => ⟨y, hx, hr y hy⟩

theorem Done.bind (h : Done as x P) (hf : ∀ y, P y → Done as (f y) Q) : Done as (x.bind f) Q := by
  obtain ⟨rfl, hc⟩ | ⟨y, rfl, hy⟩ := h
  · exact .inl ⟨rfl, hc⟩
  · exact hf y hy

theorem Done.map {g : α → β} (h : Done as x P) (hg : ∀ y, P y → Q (g y)) : Done as (x.map g) Q := by
  obtain ⟨rfl, hc⟩ | ⟨y, rfl, hy⟩ := h
  · exact .inl ⟨rfl, hc⟩
  · exact .pure (hg y hy)

/-- The first answer, if there is one. -/
theorem Done.head (h : Done [as.headD .lost] x P) : Done as x P := by
  cases as with
  | nil => exact h.imp_left fun hx => absurd hx.2 (by simp)
  | cons a as => exact h.sub (by simp)

end Answers

/-! ## Requests -/

section Requests

variable {buf : ℕ} {s s' : St} {line name : Str} {a : Answer} {as : List Answer}

theorem deliver_spec (s : St) (line : Str) (a : Answer) : Done [a] (s.deliver line a) fun r => Same s r.1 := by
  have hend : Same s { s with proc := none } := ⟨none, rfl, fun h => absurd rfl h⟩
  cases hp : s.proc with
  | none =>
    simp only [St.deliver, hp]
    exact .pure (Same.refl s)
  | some c =>
    have hsome (c' : Child) : Same s { s with proc := some c' } := ⟨_, rfl, fun _ => by rw [hp]; exact Option.some_ne_none c⟩
    cases a with
    | lost =>
      simp only [St.deliver, hp]
      exact .pure hend
    | cut =>
      simp only [St.deliver, hp]
      exact .inl ⟨rfl, List.mem_singleton.mpr rfl⟩
    | reply opened =>
      simp only [St.deliver, hp]
      cases childLine c opened line with
      | none => exact .pure hend
      | some r => exact .pure (hsome r.1)
    | late opened status =>
      simp only [St.deliver, hp]
      cases childLine c opened line with
      | none => exact .pure hend
      | some r => exact .pure (hsome r.1)

theorem askchild_spec (hl : line.length + 1 < buf) (s : St) (a : Answer) :
    Done [a] (mgtCliAskchild buf s line a) fun r => Same s r.1 := by
  rw [mgtCliAskchild]
  split
  · exact .pure (Same.refl s)
  · rw [if_neg (Nat.not_le.mpr hl)]
    exact deliver_spec s line a

theorem length_words : "vcl.load".toList.length = 8 ∧ "vcl.use".toList.length = 7 ∧ "vcl.discard".toList.length = 11 := by decide

theorem length_pushLoad : (vp : Vclprog) → (pushLoad vp).length = vp.name.length + vp.fname.length + 12
  | ⟨name, fname, _⟩ => by
    have h : ("vcl.load".toList ++ ' ' :: '"' :: (name ++ '"' :: ' ' :: fname)).length = name.length + fname.length + 12 := by
      simp only [List.length_append, List.length_cons, length_words.1]
      omega
    exact h

theorem length_pushUse : (vp : Vclprog) → (pushUse vp).length = vp.name.length + 10
  | ⟨name, _, _⟩ => by
    have h : ("vcl.use".toList ++ ' ' :: '"' :: (name ++ ['"'])).length = name.length + 10 := by
      simp only [List.length_append, List.length_cons, List.length_nil, length_words.2.1]
      omega
    exact h

theorem pushVcls_spec {l : List Vclprog} (hb : 13 < buf) (hl : ∀ vp ∈ l, vp.name.length + vp.fname.length + 13 < buf) :
    Done as (mgtPushVcls buf s l as) fun r => Same s r.1 := by
  induction l generalizing s as with
  | nil =>
    have h1 : "start".toList.length + 1 < buf := Nat.lt_trans (by decide) hb
    rw [mgtPushVcls, Option.bind_eq_bind]
    exact (askchild_spec h1 s (as.headD .lost)).head.bind fun _ hsame => .pure hsame
  | cons vp l ih =>
    have hvp := hl vp List.mem_cons_self
    have ih' (s : St) (as : List Answer) := @ih s as fun w hw => hl w (List.mem_cons_of_mem vp hw)
    have h1 : (pushLoad vp).length + 1 < buf := by
      rw [length_pushLoad]
      omega
    have h2 : (pushUse vp).length + 1 < buf := by
      rw [length_pushUse]
      omega
    have htail : as.tail ⊆ as := List.tail_subset as
    rw [mgtPushVcls, Option.bind_eq_bind]
    refine (askchild_spec h1 s (as.headD .lost)).head.bind ?_
    rintro ⟨s1, st1⟩ hs1
    simp only
    split
    · exact .pure hs1
    · split
      · exact ((ih' s1 as.tail).sub htail).mono fun _ h => hs1.trans h
      · refine ((askchild_spec h2 s1 (as.tail.headD .lost)).head.sub htail).bind ?_
        rintro ⟨s2, st2⟩ hs2
        simp only
        split
        · exact .pure (hs1.trans hs2)
        · have hrest := ((ih' s2 as.tail.tail).sub (List.tail_subset as.tail)).sub htail
          exact hrest.mono fun _ h => (hs1.trans hs2).trans h

end Requests

/-! ## The life of the child -/

section Life

variable {buf : ℕ} {s s' : St} {as : List Answer}

theorem mgtStopChild_spec (hs : Inv buf s) : ∃ s', mgtStopChild s = some s' ∧ Inv buf s' ∧ s'.vclhead = s.vclhead := by
  by_cases hr : s.childState = .running
  · have hp : s.pid = true := hs.pid.mpr (by rw [hr]; decide)
    have hc : s.cliFds = true := hs.cli.mpr hr
    obtain ⟨cs, pid, cliFds, output, ask, evPoker, pokerEv, evListen, listenEv, lost, vclhead, files, proc⟩ := s
    obtain ⟨-, -, hout, -, -, hpe, -, hle, hli, hlo, hpr, hprogs⟩ := hs
    simp only at *
    subst hr hp hc hout hpe hle hlo
    refine ⟨⟨.stopping, true, false, true, false, false, false, listenEv, listenEv, 0, vclhead, files, proc⟩, ?_, ?_, rfl⟩
    · cases pokerEv <;> rfl
    · exact ⟨.inr (.inr rfl), by simp, rfl, by simp, rfl, rfl, by simp, rfl, hli, rfl, hpr, hprogs⟩
  · exact ⟨s, if_pos hr, hs, rfl⟩

theorem stop_eq (he : mgtStopChild s = some s') :
    s'.vclhead = s.vclhead ∧ s'.pid = s.pid ∧ s'.childState ≠ .running := by
  rw [mgtStopChild] at he
  split at he
  · rename_i hc
    cases he
    exact ⟨rfl, rfl, hc⟩
  · rw [Option.bind_eq_bind, St.delPoker] at he
    obtain ⟨s1, he1, he2⟩ := Option.bind_eq_some_iff.mp he
    rw [St.closeCli] at he2
    split at he2
    · cases he2
      split at he1
      · cases he1
        exact ⟨rfl, rfl, by simp⟩
      · split at he1
        · cases he1
        · cases he1
          exact ⟨rfl, rfl, by simp⟩
    · cases he2

/-- A child is started when nothing is open. -/
theorem startChild_spec {sockets ping : Bool} (hb : 13 < buf) (hd : Down s) (hc : s.childState = .stopped ∨ s.childState = .died)
    (hprogs : Progs buf s.vclhead s.files) :
    Done as (startChild buf s sockets ping as) fun s' => Inv buf s' ∧ s'.vclhead = s.vclhead := by
  rw [startChild, if_neg (by rcases hc with hc | hc <;> simp [hc])]
  cases sockets with
  | false =>
    refine .inr ⟨{ s with childState := .stopped }, rfl, ?_, rfl⟩
    exact ⟨.inl rfl, by simp [hd.pid], by rw [hd.output, hd.pid], by simp [hd.cli], by rw [hd.ask, hd.cli],
      by rw [hd.poker.1, hd.poker.2], by simp [hd.poker.1], by rw [hd.listen.1, hd.listen.2], by simp [hd.listen.1], hd.lost,
      fun hn => absurd hd.proc hn, hprogs⟩
  | true =>
    rw [if_neg (by simp), if_neg (by simp [hd.listen.1, hd.poker.1])]
    rw [Option.bind_eq_bind]
    refine (@pushVcls_spec buf (s.launch ping) as s.vclhead hb fun vp hvp => (hprogs.fits vp hvp).2).bind ?_
    rintro ⟨s1, failed⟩ ⟨p, rfl, -⟩
    have hinv : Inv buf { s.launch ping with childState := .running, proc := p } := by
      refine ⟨.inr (.inl rfl), by simp [St.launch], rfl, by simp [St.launch], rfl, ?_, by simp, rfl, by simp [St.launch], ?_,
        by simp [St.launch], hprogs⟩
      · simp [St.launch, hd.poker.2]
      · simp [St.launch, hd.lost, hd.cli, hd.output]
    cases failed with
    | false => exact .pure ⟨hinv, rfl⟩
    | true => exact .inr (mgtStopChild_spec hinv)

theorem delPoker_spec (hs : Inv buf s) : s.delPoker = some { s with evPoker := false, pokerEv := false } ∧
    Inv buf { s with evPoker := false, pokerEv := false } := by
  constructor
  · have hpe := hs.pokerEv
    rw [St.delPoker]
    cases hev : s.evPoker with
    | true =>
      rw [hev] at hpe
      simp [hpe]
    | false =>
      rw [hev] at hpe
      obtain ⟨cs, pid, cliFds, output, ask, evPoker, pokerEv, evListen, listenEv, lost, vclhead, files, proc⟩ := s
      simp only at hev hpe
      rw [hev, hpe]
      rfl
  · exact ⟨hs.state, hs.pid, hs.output, hs.cli, hs.ask, rfl, by simp, hs.listenEv, hs.listen, hs.lost, hs.proc, hs.progs⟩

/-- The child has ended: everything is closed, and the state tells why. -/
theorem reap_spec (hs : Inv buf s) (hk : s.evPoker = false) (hp : s.pid = true) (hn : s.proc = none) :
    ∃ s', s.reap = some s' ∧ Down s' ∧ (s'.childState = .died ∨ s'.childState = .stopping) ∧ s'.vclhead = s.vclhead ∧
      s'.files = s.files := by
  obtain ⟨cs, pid, cliFds, output, ask, evPoker, pokerEv, evListen, listenEv, lost, vclhead, files, proc⟩ := s
  obtain ⟨hst, hpid, hout, hcli, hask, hpe, -, hle, -, hlo, -, -⟩ := hs
  simp only at *
  subst hk hp hn hout hpe hle hlo hask
  have hls (cs : ChildState) : ∃ s', (do
      let s ← (⟨cs, false, false, true, false, false, false, listenEv, listenEv, 0, vclhead, files, none⟩ : St).delListen
      if s.output then some { s with output := false } else none) = some s' ∧ Down s' ∧ s'.childState = cs ∧
      s'.vclhead = vclhead ∧ s'.files = files := by
    refine ⟨⟨cs, false, false, false, false, false, false, false, false, 0, vclhead, files, none⟩, ?_,
      ⟨rfl, rfl, rfl, rfl, ⟨rfl, rfl⟩, ⟨rfl, rfl⟩, rfl, rfl⟩, rfl, rfl, rfl⟩
    cases listenEv <;> rfl
  have hns : cs ≠ .stopped := hpid.mp rfl
  rcases hst with rfl | rfl | rfl
  · exact absurd rfl hns
  · obtain rfl : ask = true := hcli.mpr rfl
    obtain ⟨s', he, hd, hcs, hv, hf⟩ := hls .died
    exact ⟨s', he, hd, .inl hcs, hv, hf⟩
  · obtain rfl : ask = false := by simpa using hcli
    obtain ⟨s', he, hd, hcs, hv, hf⟩ := hls .stopping
    exact ⟨s', he, hd, .inr hcs, hv, hf⟩

theorem mgtSigchld_spec {restart sockets ping : Bool} (hb : 13 < buf) (hs : Inv buf s) :
    Done as (mgtSigchld buf s restart sockets ping as) fun s' => Inv buf s' ∧ s'.vclhead = s.vclhead := by
  obtain ⟨he, hinv⟩ := delPoker_spec hs
  rw [mgtSigchld, he, Option.bind_eq_bind, Option.bind_some]
  split
  · exact .pure ⟨hinv, rfl⟩
  · rename_i hcond
    have hp : s.pid = true := by
      by_contra hn
      exact hcond (.inl hn)
    have hn : s.proc = none := by
      by_contra hn
      exact hcond (.inr (Option.isSome_iff_ne_none.mpr hn))
    obtain ⟨s1, he1, hd, hcs, hv, hf⟩ := reap_spec hinv rfl hp hn
    have hprogs : Progs buf s1.vclhead s1.files := by
      rw [hv, hf]
      exact hs.progs
    have hdown : Inv buf { s1 with childState := .stopped } := by
      exact ⟨.inl rfl, by simp [hd.pid], by rw [hd.output, hd.pid], by simp [hd.cli], by rw [hd.ask, hd.cli],
        by rw [hd.poker.1, hd.poker.2], by simp [hd.poker.1], by rw [hd.listen.1, hd.listen.2], by simp [hd.listen.1], hd.lost,
        fun hn => absurd hd.proc hn, hprogs⟩
    rw [he1, Option.bind_some]
    split
    · rename_i hdied
      exact (@startChild_spec buf s1 as sockets ping hb hd (.inr hdied.1) hprogs).mono fun _ h => ⟨h.1, h.2.trans hv⟩
    · exact .pure ⟨hdown, hv⟩

theorem childListener_inv (hs : Inv buf s) (hup : Bool) : Inv buf (childListener s hup) := by
  cases hup with
  | false => exact hs
  | true =>
    exact ⟨hs.state, hs.pid, hs.output, hs.cli, hs.ask, hs.pokerEv, hs.poker, rfl, (fun h => absurd h Bool.false_ne_true),
      hs.lost, hs.proc, hs.progs⟩

theorem childPoker_spec (hb : 13 < buf) (hs : Inv buf s) (hev : s.pokerEv = true) (a : Answer) :
    Done [a] (childPoker buf s a) (Inv buf) := by
  have hr : s.childState = .running := hs.poker (hs.pokerEv ▸ hev)
  have hp : s.pid = true := hs.pid.mpr (by rw [hr]; decide)
  have hl : "ping".toList.length + 1 < buf := Nat.lt_trans (by decide) hb
  rw [childPoker, if_neg (not_not.mpr hr), if_neg (not_not.mpr hp)]
  exact (askchild_spec hl s a).map fun _ hsame => hsame.inv hs

theorem mcfServerStartstop_spec {priv sockets ping : Bool} (hb : 13 < buf) (hs : Inv buf s) :
    Done as (mcfServerStartstop buf s priv sockets ping as) fun s' => Inv buf s' ∧ s'.vclhead = s.vclhead := by
  rw [mcfServerStartstop]
  split
  · exact .inr (mgtStopChild_spec hs)
  · split
    · rename_i hst
      split
      · have hst := hst.2
        have hp : s.pid = false := by
          by_contra hn
          exact hs.pid.mp (by simpa using hn) hst
        have hcli : s.cliFds = false := by
          by_contra hn
          rw [hs.cli.mp (by simpa using hn)] at hst
          cases hst
        have hpoker : s.evPoker = false := by
          by_contra hn
          rw [hs.poker (by simpa using hn)] at hst
          cases hst
        have hlisten : s.evListen = false := by
          by_contra hn
          rw [hs.listen (by simpa using hn)] at hp
          cases hp
        have hproc : s.proc = none := by
          by_contra hn
          rw [hs.proc hn] at hp
          cases hp
        have hd : Down s := ⟨hp, hcli, by rw [hs.output, hp], by rw [hs.ask, hcli], ⟨hpoker, by rw [hs.pokerEv, hpoker]⟩,
          ⟨hlisten, by rw [hs.listenEv, hlisten]⟩, hs.lost, hproc⟩
        exact startChild_spec hb hd (.inl hst) hs.progs
      · exact .pure ⟨hs, rfl⟩
    · exact .pure ⟨hs, rfl⟩

end Life

/-! ## The programs -/

section Programs

variable {buf : ℕ} {s s' : St} {l : List Vclprog} {files : List Str} {name vf : Str} {vp : Vclprog} {a : Answer}

theorem byname_none : mgtVccByname l name = none ↔ name ∉ l.map Vclprog.name := by
  simp only [mgtVccByname, List.find?_eq_none, decide_eq_true_eq, List.mem_map, not_exists, not_and]
  exact ⟨fun h vp hvp he => h vp hvp he.symm, fun h vp hvp he => h vp hvp he.symm⟩

theorem byname_some (h : mgtVccByname l name = some vp) : vp ∈ l ∧ vp.name = name := by
  refine ⟨List.mem_of_find?_eq_some h, ?_⟩
  have := List.find?_some h
  simp only [decide_eq_true_eq] at this
  exact this.symm

theorem Progs.file (h : Progs buf l files) (vf : Str) : Progs buf l (vf :: files) :=
  ⟨h.names, h.fnames, fun vp hvp => List.mem_cons_of_mem vf (h.files vp hvp), h.fits, h.active, h.flags⟩

theorem Progs.add (h : Progs buf l files) (hn : mgtVccByname l name = none) (hf : vf ∉ files)
    (hfit : vf ≠ [] ∧ name.length + vf.length + 13 < buf) : Progs buf (l ++ [⟨name, vf, 0⟩]) (vf :: files) := by
  have hvf : vf ∉ l.map Vclprog.fname := by
    intro hm
    obtain ⟨vp, hvp, rfl⟩ := List.mem_map.mp hm
    exact hf (h.files vp hvp)
  have hsplit {P : Vclprog → Prop} (hl : ∀ vp ∈ l, P vp) (hx : P ⟨name, vf, 0⟩) : ∀ vp ∈ l ++ [⟨name, vf, 0⟩], P vp := by
    intro vp hvp
    rcases List.mem_append.mp hvp with hvp | hvp
    · exact hl vp hvp
    · rw [List.mem_singleton.mp hvp]
      exact hx
  refine ⟨?_, ?_, hsplit (h.file vf).files List.mem_cons_self, hsplit h.fits hfit, ?_, hsplit h.flags (.inl rfl)⟩
  · rw [List.map_append]
    exact List.nodup_append'.mpr ⟨h.names, List.nodup_singleton _, by simpa using byname_none.mp hn⟩
  · rw [List.map_append]
    exact List.nodup_append'.mpr ⟨h.fnames, List.nodup_singleton _, by simpa using hvf⟩
  · exact List.pairwise_append.mpr ⟨h.active, List.pairwise_singleton _ _, fun v _ w hw => .inr (by
      rw [List.mem_singleton.mp hw])⟩

/-- The flags after `vcl.use`. -/
def useFlag (name : Str) (vp : Vclprog) : Vclprog := { vp with active := if name = vp.name then 1 else 0 }

theorem settle_zero (vp : Vclprog) (hne : name ≠ vp.name) (hf : vp.active = 0 ∨ vp.active = 1) :
    settleActive vp = useFlag name vp := by
  obtain ⟨n, f, x⟩ := vp
  rcases hf with rfl | rfl <;> simp [settleActive, useFlag, hne]

theorem mark_eq (hn : (l.map Vclprog.name).Nodup) (hf : ∀ vp ∈ l, vp.active = 0 ∨ vp.active = 1) :
    (markTwo name l).map settleActive = l.map (useFlag name) := by
  induction l with
  | nil => rfl
  | cons vp l ih =>
    rw [List.map_cons, List.nodup_cons] at hn
    have hfl := fun w hw => hf w (List.mem_cons_of_mem vp hw)
    rw [markTwo]
    split
    · rename_i he
      rw [List.map_cons, List.map_cons]
      refine List.cons_eq_cons.mpr ⟨by simp [settleActive, useFlag, he], List.map_congr_left fun w hw => ?_⟩
      refine settle_zero w (fun hw' => hn.1 ?_) (hfl w hw)
      rw [← he, hw']
      exact List.mem_map_of_mem hw
    · rename_i he
      rw [List.map_cons, List.map_cons, ih hn.2 hfl, settle_zero vp he (hf vp List.mem_cons_self)]

theorem Progs.use (h : Progs buf l files) (name : Str) : Progs buf (l.map (useFlag name)) files := by
  have hall {P : Vclprog → Prop} (hl : ∀ vp ∈ l, P (useFlag name vp)) : ∀ vp ∈ l.map (useFlag name), P vp := by
    intro vp hvp
    obtain ⟨w, hw, rfl⟩ := List.mem_map.mp hvp
    exact hl w hw
  refine ⟨?_, ?_, hall h.files, hall h.fits, ?_, hall fun w _ => ?_⟩
  · rw [List.map_map]
    exact h.names
  · rw [List.map_map]
    exact h.fnames
  · rw [List.pairwise_map]
    refine (List.pairwise_map.mp h.names).imp fun {v w} hne => ?_
    by_cases hv : name = v.name
    · right
      exact if_neg fun hw => hne (hv.symm.trans hw)
    · exact .inl (if_neg hv)
  · rw [useFlag]
    split
    · exact .inr rfl
    · exact .inl rfl

theorem erase_eq (hn : (l.map Vclprog.name).Nodup) :
    (l.eraseP fun w => name = w.name) = l.filter fun w => w.name ≠ name := by
  induction l with
  | nil => rfl
  | cons vp l ih =>
    rw [List.map_cons, List.nodup_cons] at hn
    by_cases he : name = vp.name
    · have hl : ∀ w ∈ l, w.name ≠ name := by
        intro w hw hw'
        exact hn.1 (he ▸ hw' ▸ List.mem_map_of_mem hw)
      rw [List.eraseP_cons_of_pos (by simpa using he), List.filter_cons_of_neg (by simpa using he.symm)]
      exact (List.filter_eq_self.mpr fun w hw => by simpa using hl w hw).symm
    · rw [List.eraseP_cons_of_neg (by simpa using he), List.filter_cons_of_pos (by simpa using fun h => he h.symm), ih hn.2]

theorem Progs.del (h : Progs buf l files) (hb : mgtVccByname l name = some vp) :
    Progs buf (l.eraseP fun w => name = w.name) (files.erase vp.fname) := by
  have hsub : (l.eraseP fun w => name = w.name).Sublist l := List.eraseP_sublist
  refine ⟨h.names.sublist (hsub.map _), h.fnames.sublist (hsub.map _), fun w hw => ?_, fun w hw => h.fits w (hsub.subset hw),
    h.active.sublist hsub, fun w hw => h.flags w (hsub.subset hw)⟩
  have hne : w.fname ≠ vp.fname := by
    intro he
    have hwv : w = vp := List.inj_on_of_nodup_map h.fnames (hsub.subset hw) (byname_some hb).1 he
    rw [erase_eq h.names, hwv] at hw
    have hnv := (List.mem_filter.mp hw).2
    simp [(byname_some hb).2] at hnv
  exact (List.mem_erase_of_ne hne).mpr (h.files w (hsub.subset hw))

theorem mcfConfigInline_spec {compiled : Option Str} (hs : Inv buf s)
    (hc : ∀ vf ∈ compiled, vf ∉ s.files ∧ vf ≠ [] ∧ name.length + vf.length + 13 < buf) :
    Done [a] (mcfConfigInline buf s name compiled a) fun s' => Inv buf s' ∧ s'.pokerEv = s.pokerEv := by
  cases hb : mgtVccByname s.vclhead name with
  | some vp => exact .inr ⟨s, by simp only [mcfConfigInline, hb], hs, rfl⟩
  | none =>
    cases compiled with
    | none => exact .inr ⟨s, by simp only [mcfConfigInline, hb], hs, rfl⟩
    | some vf =>
      obtain ⟨hf, hfit⟩ := hc vf rfl
      have h1 : Inv buf { s with files := vf :: s.files } :=
        ⟨hs.state, hs.pid, hs.output, hs.cli, hs.ask, hs.pokerEv, hs.poker, hs.listenEv, hs.listen, hs.lost, hs.proc,
          hs.progs.file vf⟩
      have hadd {t : St} (hsame : Same { s with files := vf :: s.files } t) :
          Inv buf { t with vclhead := t.vclhead ++ [⟨name, vf, 0⟩] } := by
        have ht : Inv buf t := hsame.inv h1
        obtain ⟨p, rfl, -⟩ := hsame
        exact ⟨ht.state, ht.pid, ht.output, ht.cli, ht.ask, ht.pokerEv, ht.poker, ht.listenEv, ht.listen, ht.lost, ht.proc,
          hs.progs.add hb hf hfit⟩
      have hl : ("vcl.load".toList ++ ' ' :: (name ++ ' ' :: vf)).length + 1 < buf := by
        simp only [List.length_append, List.length_cons, length_words.1]
        omega
      simp only [mcfConfigInline, hb]
      split
      · rw [Option.bind_eq_bind]
        refine (askchild_spec hl { s with files := vf :: s.files } a).bind ?_
        rintro ⟨s', status⟩ hsame
        simp only
        split
        · exact .pure ⟨hsame.inv h1, hsame.pokerEv⟩
        · exact .pure ⟨hadd hsame, hsame.pokerEv⟩
      · exact .pure ⟨hadd (Same.refl _), rfl⟩

theorem mcfConfigLoad_spec {vcl : Bool} {compiled : Option Str} (hs : Inv buf s)
    (hc : Called buf s (.load name vcl compiled a)) :
    Done [a] (mcfConfigLoad buf s name vcl compiled a) fun s' => Inv buf s' ∧ s'.pokerEv = s.pokerEv := by
  refine mcfConfigInline_spec hs fun vf hvf => ?_
  cases vcl with
  | true => exact hc vf hvf
  | false => cases hvf

theorem mcfConfigUse_spec (hs : Inv buf s) :
    Done [a] (mcfConfigUse buf s name a) fun s' => Inv buf s' ∧ s'.pokerEv = s.pokerEv := by
  cases hb : mgtVccByname s.vclhead name with
  | none => exact .inr ⟨s, by rw [mcfConfigUse, hb], hs, rfl⟩
  | some vp =>
    have hmark {t : St} (hsame : Same s t) : Inv buf { t with vclhead := (markTwo name t.vclhead).map settleActive } := by
      have ht : Inv buf t := hsame.inv hs
      obtain ⟨p, rfl, -⟩ := hsame
      refine ⟨ht.state, ht.pid, ht.output, ht.cli, ht.ask, ht.pokerEv, ht.poker, ht.listenEv, ht.listen, ht.lost, ht.proc, ?_⟩
      simp only [mark_eq hs.progs.names hs.progs.flags]
      exact hs.progs.use name
    have hl : ("vcl.use".toList ++ ' ' :: name).length + 1 < buf := by
      have hfit := (hs.progs.fits vp (byname_some hb).1).2
      rw [(byname_some hb).2] at hfit
      simp only [List.length_append, List.length_cons, length_words.2.1]
      omega
    simp only [mcfConfigUse, hb]
    split
    · exact .pure ⟨hs, rfl⟩
    · split
      · rw [Option.bind_eq_bind]
        refine (askchild_spec hl s a).bind ?_
        rintro ⟨s', status⟩ hsame
        simp only
        split
        · exact .pure ⟨hsame.inv hs, hsame.pokerEv⟩
        · exact .pure ⟨hmark hsame, hsame.pokerEv⟩
      · exact .pure ⟨hmark (Same.refl s), rfl⟩

theorem mgtVccDelbyname_spec (hs : Inv buf s) (hb : mgtVccByname s.vclhead name = some vp) :
    ∃ s', mgtVccDelbyname s name = some s' ∧ Inv buf s' ∧ s'.pokerEv = s.pokerEv := by
  have hf : vp.fname ∈ s.files := hs.progs.files vp (byname_some hb).1
  simp only [mgtVccDelbyname, hb]
  rw [List.contains_iff_mem.mpr hf, Bool.not_true, if_neg Bool.false_ne_true]
  exact ⟨_, rfl, ⟨hs.state, hs.pid, hs.output, hs.cli, hs.ask, hs.pokerEv, hs.poker, hs.listenEv, hs.listen, hs.lost, hs.proc,
    hs.progs.del hb⟩, rfl⟩

theorem mcfConfigDiscard_spec (hs : Inv buf s) :
    Done [a] (mcfConfigDiscard buf s name a) fun s' => Inv buf s' ∧ s'.pokerEv = s.pokerEv := by
  cases hb : mgtVccByname s.vclhead name with
  | none => exact .inr ⟨s, by rw [mcfConfigDiscard, hb], hs, rfl⟩
  | some vp =>
    have hl : ("vcl.discard".toList ++ ' ' :: name).length + 1 < buf := by
      obtain ⟨hne, hfit⟩ := hs.progs.fits vp (byname_some hb).1
      have hpos := List.length_pos_of_ne_nil hne
      rw [(byname_some hb).2] at hfit
      simp only [List.length_append, List.length_cons, length_words.2.2]
      omega
    simp only [mcfConfigDiscard, hb]
    split
    · exact .pure ⟨hs, rfl⟩
    · split
      · rw [Option.bind_eq_bind]
        refine (askchild_spec hl s a).bind ?_
        rintro ⟨s', status⟩ hsame
        simp only
        split
        · exact .pure ⟨hsame.inv hs, hsame.pokerEv⟩
        · have hs' : Inv buf s' := hsame.inv hs
          obtain ⟨p, rfl, -⟩ := hsame
          exact .inr (mgtVccDelbyname_spec hs' hb)
      · exact .inr (mgtVccDelbyname_spec hs hb)

theorem mcfConfigList_spec (hb : 13 < buf) (s : St) (a : Answer) : Done [a] (mcfConfigList buf s a) (Same s) := by
  rw [mcfConfigList]
  split
  · have hl : "vcl.list".toList.length + 1 < buf := Nat.lt_trans (by decide) hb
    exact (askchild_spec hl s a).map fun _ hsame => hsame
  · exact .pure (Same.refl s)

theorem userLine_spec (s : St) (auth : ℕ) (p : Str) (a : Answer) : Done [a] (userLine s auth p a) (Same s) := by
  rw [userLine]
  split
  · split
    · exact (deliver_spec s (command p) a).map fun _ hsame => hsame
    · exact .pure (Same.refl s)
  · exact .pure (Same.refl s)

end Programs

/-! ## Runs -/

section Runs

variable {buf : ℕ} {s : St}

/-- Every command and every event goes through and keeps the invariant, but for an answer that is cut off. -/
theorem step_spec (hb : 13 < buf) (hs : Inv buf s) {a : Act} (ha : Called buf s a) : Done a.answers (step buf s a) (Inv buf) := by
  cases a with
  | startstop priv sockets ping as => exact (mcfServerStartstop_spec hb hs).mono fun _ h => h.1
  | sigchld restart sockets ping as => exact (mgtSigchld_spec hb hs).mono fun _ h => h.1
  | listener hup => exact .pure (childListener_inv hs hup)
  | poker a => exact childPoker_spec hb hs ha a
  | load name vcl compiled a => exact (mcfConfigLoad_spec hs ha).mono fun _ h => h.1
  | use name a => exact (mcfConfigUse_spec hs).mono fun _ h => h.1
  | discard name a => exact (mcfConfigDiscard_spec hs).mono fun _ h => h.1
  | list a => exact (mcfConfigList_spec hb s a).mono fun _ hsame => hsame.inv hs
  | user auth p a => exact (userLine_spec s auth p a).mono fun _ hsame => hsame.inv hs
  | ends => exact .pure (Same.inv ⟨none, rfl, fun h => absurd rfl h⟩ hs)

theorem start_inv {boot : Option Str} (hboot : ∀ vf ∈ boot, vf ≠ [] ∧ vf.length + 17 < buf) : Inv buf (start boot) := by
  refine ⟨.inl rfl, by simp [start], rfl, by simp [start], rfl, rfl, by simp [start], rfl, by simp [start], rfl,
    fun h => absurd rfl h, ?_⟩
  cases boot with
  | none =>
    exact ⟨List.nodup_nil, List.nodup_nil, by simp [start], by simp [start], List.Pairwise.nil, by simp [start]⟩
  | some vf =>
    obtain ⟨hne, hfit⟩ := hboot vf rfl
    refine ⟨List.nodup_singleton _, List.nodup_singleton _, by simp [start], ?_, List.pairwise_singleton _ _, by simp [start]⟩
    intro vp hvp
    rw [List.mem_singleton.mp hvp]
    refine ⟨hne, ?_⟩
    have hboot4 : "boot".toList.length = 4 := by rfl
    simp only [hboot4]
    omega

/-- In every run every command and every event goes through, unless the child ends inside an answer: no other assertion fails, and no
event is used after it is gone.  The manager is never between two states, has open what the state of its child tells and nothing
else, and each program has its file. -/
theorem reach_open {boot : Option Str} (hb : 13 < buf) (hboot : ∀ vf ∈ boot, vf ≠ [] ∧ vf.length + 17 < buf)
    (hr : Reach (step buf) (Called buf) (start boot) s) :
    (s.childState = .stopped ∨ s.childState = .running ∨ s.childState = .stopping) ∧
    (s.pid = true ↔ s.childState ≠ .stopped) ∧ s.output = s.pid ∧
    (s.cliFds = true ↔ s.childState = .running) ∧ s.ask = s.cliFds ∧
    (s.pokerEv = s.evPoker ∧ (s.evPoker = true → s.childState = .running)) ∧
    (s.listenEv = s.evListen ∧ (s.evListen = true → s.pid = true)) ∧ s.lost = 0 ∧
    (∀ vp ∈ s.vclhead, vp.fname ∈ s.files) ∧ ∀ a, Called buf s a → .cut ∉ a.answers → (step buf s a).isSome := by
  have hs : Inv buf s := hr.inv (start_inv hboot) fun s a s' hs ha he => (step_spec hb hs ha).of_eq he
  exact ⟨hs.state, hs.pid, hs.output, hs.cli, hs.ask, ⟨hs.pokerEv, hs.poker⟩, ⟨hs.listenEv, hs.listen⟩, hs.lost,
    hs.progs.files, fun a ha hc => (step_spec hb hs ha).isSome hc⟩

/-- A child that ends while a program is compiled, and is started again. -/
def endRun : List Act :=
  [.startstop false true true [.reply .good, .reply .good, .reply .good], .sigchld true true true [],
   .load "b".toList true (some "./vcl.2.so".toList) .lost, .listener true, .sigchld true true false [.reply .good, .late .good 400],
   .ends, .sigchld false true true [], .startstop true true true []]

theorem reach_open_endRun : ∃ s, endRun.foldlM (step 8192) (start (some "./vcl.1.so".toList)) = some s ∧
    s.childState = .stopped ∧ s.lost = 0 ∧ ∀ vp ∈ s.vclhead, vp.fname ∈ s.files := by
  have hok : OkRun (step 8192) (Called 8192) (start (some "./vcl.1.so".toList)) endRun := by decide +kernel
  have hrun : (endRun.foldlM (step 8192) (start (some "./vcl.1.so".toList))).map St.childState = some .stopped := by
    decide +kernel
  obtain ⟨s, hs, hx⟩ := Option.map_eq_some_iff.mp hrun
  have h := reach_open (by decide) (by decide +kernel) (Reach.of_run hok hs)
  exact ⟨s, hs, hx, h.2.2.2.2.2.2.2.1, h.2.2.2.2.2.2.2.2.1⟩

/-! ### The poker -/

variable {s' : St}

/-- A poker that is not there does not come back while the child is there. -/
theorem step_unpoked (hb : 13 < buf) (hs : Inv buf s) (hp : s.proc ≠ none) (hk : s.pokerEv = false) {a : Act}
    (ha : Called buf s a) (he : step buf s a = some s') : s'.pokerEv = false := by
  have hs' : Inv buf s' := (step_spec hb hs ha).of_eq he
  cases a with
  | startstop priv sockets ping as =>
    rw [step, mcfServerStartstop] at he
    split at he
    · obtain ⟨-, -, hc⟩ := stop_eq he
      rw [hs'.pokerEv]
      by_contra hn
      exact hc (hs'.poker (by simpa using hn))
    · split at he
      · rename_i hst
        exact absurd hst.2 (hs.pid.mp (hs.proc hp))
      · cases he
        exact hk
  | sigchld restart sockets ping as =>
    rw [step, mgtSigchld, (delPoker_spec hs).1, Option.bind_eq_bind, Option.bind_some,
      if_pos (.inr (Option.isSome_iff_ne_none.mpr hp))] at he
    cases he
    rfl
  | listener hup =>
    cases he
    cases hup <;> exact hk
  | poker a =>
    have ha : s.pokerEv = true := ha
    rw [hk] at ha
    cases ha
  | load name vcl compiled a =>
    rw [((mcfConfigLoad_spec hs ha).of_eq he).2, hk]
  | use name a =>
    rw [((mcfConfigUse_spec hs).of_eq he).2, hk]
  | discard name a =>
    rw [((mcfConfigDiscard_spec hs).of_eq he).2, hk]
  | list a =>
    rw [((mcfConfigList_spec hb s a).of_eq he).pokerEv, hk]
  | user auth p a =>
    rw [((userLine_spec s auth p a).of_eq he).pokerEv, hk]
  | ends =>
    cases he
    exact hk

/-- After a SIGCHLD that is not the end of the child, such as that of a compiler, the child is not asked for a sign of life
any more: the poker is gone in every state until the child has ended. -/
theorem reach_unpoked {boot : Option Str} {s₁ s₂ : St} {restart sockets ping : Bool} {as : List Answer} (hb : 13 < buf)
    (hboot : ∀ vf ∈ boot, vf ≠ [] ∧ vf.length + 17 < buf) (hr : Reach (step buf) (Called buf) (start boot) s₁)
    (hp : s₁.proc ≠ none) (he : mgtSigchld buf s₁ restart sockets ping as = some s₂)
    (hr₂ : Reach (step buf) (fun s a => Called buf s a ∧ s.proc ≠ none) s₂ s) : s.pokerEv = false ∧ s.evPoker = false := by
  have hkeep {s a s'} (hs : Inv buf s) (ha : Called buf s a) (he : step buf s a = some s') : Inv buf s' :=
    (step_spec hb hs ha).of_eq he
  have h1 : Inv buf s₁ := hr.inv (start_inv hboot) fun s a s' hs ha he => hkeep hs ha he
  have h2 : Inv buf s₂ ∧ s₂.pokerEv = false := by
    refine ⟨@hkeep s₁ (.sigchld restart sockets ping as) s₂ h1 trivial he, ?_⟩
    rw [mgtSigchld, (delPoker_spec h1).1, Option.bind_eq_bind, Option.bind_some,
      if_pos (.inr (Option.isSome_iff_ne_none.mpr hp))] at he
    cases he
    rfl
  have h : Inv buf s ∧ s.pokerEv = false :=
    hr₂.inv (I := fun s => Inv buf s ∧ s.pokerEv = false) h2 fun s a s' hs ha he =>
      ⟨hkeep hs.1 ha.1 he, step_unpoked hb hs.1 ha.2 hs.2 ha.1 he⟩
  exact ⟨h.2, h.1.pokerEv ▸ h.2⟩

/-- The compilers of `vcl.load` have ended, and the child goes on. -/
theorem reach_unpoked_compilerRun : ∃ s : St, s.proc ≠ none ∧ s.childState = .running ∧ s.pokerEv = false := by
  let begin : List Act := [.startstop false true true [.reply .good, .reply .good, .reply .good]]
  let after : List Act := [.load "b".toList true (some "./vcl.2.so".toList) (.reply .good), .use "b".toList (.reply .good)]
  have hok : OkRun (step 8192) (Called 8192) (start (some "./vcl.1.so".toList)) begin := by decide +kernel
  have hrun : ((begin.foldlM (step 8192) (start (some "./vcl.1.so".toList))).bind fun s₁ => if s₁.proc = none then none else
      (mgtSigchld 8192 s₁ true true true []).bind fun s₂ =>
        if OkRun (step 8192) (fun s a => Called 8192 s a ∧ s.proc ≠ none) s₂ after then
          (after.foldlM (step 8192) s₂).map fun s => (s.proc.isSome, s.childState) else none) = some (true, .running) := by
    decide +kernel
  obtain ⟨s₁, hs₁, hrun⟩ := Option.bind_eq_some_iff.mp hrun
  split at hrun
  · cases hrun
  · rename_i hp
    obtain ⟨s₂, hs₂, hrun⟩ := Option.bind_eq_some_iff.mp hrun
    split at hrun
    · rename_i hok₂
      obtain ⟨s, hs, hx⟩ := Option.map_eq_some_iff.mp hrun
      obtain ⟨hp', hst⟩ := Prod.ext_iff.mp hx
      have h := reach_unpoked (by decide) (by decide +kernel) (Reach.of_run hok hs₁) hp hs₂ (Reach.of_run hok₂ hs)
      exact ⟨s, Option.isSome_iff_ne_none.mp hp', hst, h.1⟩
    · cases hrun

end Runs

end Varnish.Mgt
