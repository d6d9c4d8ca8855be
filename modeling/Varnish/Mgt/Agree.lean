import Varnish.Mgt.Runs

/-!
# Varnish.Mgt.Agree — the child has the programs that the manager lists

* `PlainWord`, `parse_word`, `parse_quoted`: the child reads the words of a request as they were written.
* `published`: the table that the list of the manager stands for: the programs in order, and as the active one the one marked
  active, or else the first.
* `published_load`, `published_use`, `published_discard`: what the child does to it is what the manager does to its list.
* `push_agree`: a new child gets it from the requests of `mgt_push_vcls_and_start`.
* `user_agree`: no line that is handed on for a user touches it.
* `reach_agree`: while the child runs, its table is the one that the list stands for.
-/

namespace Varnish.Mgt

open Varnish.Ban Varnish.Serve Varnish.Vcl Varnish.Lib

/-! ## Requests as the child reads them -/

section Requests

variable {w r name vf p : Str} {n : ℕ} {ws : List Str} {c : Child} {opened : Opened}

/-- A word that needs neither quotes nor escapes. -/
def PlainWord (w : Str) : Prop := w ≠ [] ∧ ∀ c ∈ w, c ≠ '\\' ∧ c ≠ '"' ∧ isspace c = false ∧ c ≠ '\x00'

instance (w : Str) : Decidable (PlainWord w) :=
  have : Decidable (∀ c ∈ w, c ≠ '\\' ∧ c ≠ '"' ∧ isspace c = false ∧ c ≠ '\x00') :=
    List.decidableBAll (fun c => c ≠ '\\' ∧ c ≠ '"' ∧ isspace c = false ∧ c ≠ '\x00') w
  inferInstanceAs (Decidable (_ ∧ _))

theorem PlainWord.clean (h : PlainWord w) : Clean w := fun c hc => ⟨(h.2 c hc).1, (h.2 c hc).2.2.1⟩

theorem PlainWord.cut (h : PlainWord w) : w.takeWhile (· ≠ '\x00') = w :=
  List.takeWhile_eq_self_iff.mpr fun c hc => by simpa using (h.2 c hc).2.2.2

theorem parse_word (h : PlainWord w) (hr : ∀ c t, r = c :: t → c = ' ') :
    parseArgv false false (n + 1) (w ++ r) = (parseArgv false false n (r.drop 1)).map (w :: ·) := by
  have hcl := argWord_clean h.clean hr
  have hcut := h.cut
  obtain ⟨hne, hall⟩ := h
  cases w with
  | nil => exact absurd rfl hne
  | cons c t =>
    obtain ⟨-, hq, hs, -⟩ := hall c List.mem_cons_self
    rw [List.cons_append] at hcl ⊢
    rw [parseArgv, hs]
    simp only [hq, Bool.false_eq_true, if_false, Bool.false_and, decide_false]
    rw [hcl]
    simp only [bind, Except.bind, hcut]
    cases parseArgv false false n (r.drop 1) <;> rfl

theorem parse_last (h : PlainWord w) : parseArgv false false (n + 2) w = .ok [w] := by
  have hp := @parse_word w [] (n + 1) h fun c t hct => by cases hct
  rw [List.append_nil] at hp
  rw [hp]
  rfl

theorem argWord_quote (h : PlainWord w) : argWord false true (w ++ '"' :: r) = .ok (w, '"' :: r) := by
  obtain ⟨-, hall⟩ := h
  induction w with
  | nil => exact argWord_end (fun c t' hct => by cases hct; rfl) fun _ => List.cons_ne_nil _ _
  | cons c t ih =>
    obtain ⟨hb, hq, -⟩ := hall c List.mem_cons_self
    have hp : Plain true c := ⟨hb, hq⟩
    rw [List.cons_append, argWord_plain hp, ih fun d hd => hall d (List.mem_cons_of_mem c hd)]
    rfl

theorem parse_quoted (h : PlainWord w) :
    parseArgv false false (n + 1) ('"' :: (w ++ '"' :: r)) = (parseArgv false false n r).map (w :: ·) := by
  have hq := @argWord_quote w r h
  have hs : isspace '"' = false := by decide
  rw [parseArgv, hs]
  simp only [Bool.false_eq_true, if_false, Bool.false_and, decide_true, if_true]
  rw [hq]
  simp only [bind, Except.bind, h.cut, List.drop_succ_cons, List.drop_zero]
  cases parseArgv false false n r <;> rfl

theorem head_blank (r : Str) : ∀ c t, ' ' :: r = c :: t → c = ' ' := fun _ _ h => (List.cons.inj h).1.symm

theorem parse_blank : parseArgv false false (n + 1) (' ' :: r) = parseArgv false false n r := by
  have hs : isspace ' ' = true := by decide
  rw [parseArgv, if_pos hs]

/-- A word that names a command. -/
def Keyword (w : Str) : Prop := PlainWord w ∧ ∃ d ∈ w.head?, d.isLower = true ∧ d.isUpper = false

instance (w : Str) : Decidable (Keyword w) :=
  decidable_of_iff (PlainWord w ∧ w.head?.any (fun d => d.isLower && !d.isUpper) = true) (by
    rw [Keyword]
    simp [Option.any_eq_true])

section Lookup

variable {H : Type} {funcs : List (ℕ × List (CliProto H))} {auth : ℕ}

theorem clsVlu_read (hk : Keyword w) (hw : parseArgv false false ((w ++ r).length + 1) (w ++ r) = .ok (w :: ws)) :
    clsVlu funcs auth (w ++ r) = clsFuncs auth w ws funcs := by
  obtain ⟨hp, d, hd, hl, hu⟩ := hk
  obtain ⟨t, rfl⟩ : ∃ t, w = d :: t := by
    cases w with
    | nil => cases hd
    | cons c t => exact ⟨t, by rw [Option.mem_some_iff.mp hd]⟩
  have hs : isspace d = false := (hp.2 d List.mem_cons_self).2.2.1
  have hc : command (d :: t ++ r) = d :: t ++ r := by
    rw [command, List.cons_append, List.dropWhile_cons_of_neg (by simp [hs])]
  have hne : d :: t ++ r ≠ [] := List.cons_ne_nil d _
  rw [clsVlu, hc, if_neg hne, hw]
  simp only
  rw [hu, if_neg Bool.false_ne_true, hl, if_neg (not_not.mpr rfl)]

theorem read_one (hk : Keyword w) (hn : PlainWord name) :
    clsVlu funcs auth (w ++ ' ' :: name) = clsFuncs auth w [name] funcs := by
  obtain ⟨n, hlen⟩ : ∃ n, (w ++ ' ' :: name).length = n + 2 := by
    have := List.length_pos_of_ne_nil hn.1
    exact ⟨w.length + name.length - 1, by simp only [List.length_append, List.length_cons]; omega⟩
  refine clsVlu_read hk ?_
  rw [hlen, parse_word hk.1 (head_blank _), List.drop_succ_cons, List.drop_zero, parse_last hn]
  rfl

theorem read_two (hk : Keyword w) (hn : PlainWord name) (hf : PlainWord vf) :
    clsVlu funcs auth (w ++ ' ' :: (name ++ ' ' :: vf)) = clsFuncs auth w [name, vf] funcs := by
  obtain ⟨n, hlen⟩ : ∃ n, (w ++ ' ' :: (name ++ ' ' :: vf)).length = n + 3 := by
    have := List.length_pos_of_ne_nil hn.1
    exact ⟨w.length + name.length + vf.length - 1, by simp only [List.length_append, List.length_cons]; omega⟩
  refine clsVlu_read hk ?_
  rw [hlen, parse_word hk.1 (head_blank _), List.drop_succ_cons, List.drop_zero, parse_word hn (head_blank _),
    List.drop_succ_cons, List.drop_zero, parse_last hf]
  rfl

theorem read_quoted (hk : Keyword w) (hn : PlainWord name) :
    clsVlu funcs auth (w ++ ' ' :: '"' :: (name ++ ['"'])) = clsFuncs auth w [name] funcs := by
  obtain ⟨n, hlen⟩ : ∃ n, (w ++ ' ' :: '"' :: (name ++ ['"'])).length = n + 2 :=
    ⟨w.length + name.length + 1, by simp only [List.length_append, List.length_cons, List.length_nil]; omega⟩
  refine clsVlu_read hk ?_
  rw [hlen, parse_word hk.1 (head_blank _), List.drop_succ_cons, List.drop_zero, parse_quoted hn]
  rfl

theorem read_quoted_two (hk : Keyword w) (hn : PlainWord name) (hf : PlainWord vf) :
    clsVlu funcs auth (w ++ ' ' :: '"' :: (name ++ '"' :: ' ' :: vf)) = clsFuncs auth w [name, vf] funcs := by
  obtain ⟨n, hlen⟩ : ∃ n, (w ++ ' ' :: '"' :: (name ++ '"' :: ' ' :: vf)).length = n + 4 :=
    ⟨w.length + name.length + vf.length, by simp only [List.length_append, List.length_cons]; omega⟩
  refine clsVlu_read hk ?_
  rw [hlen, parse_word hk.1 (head_blank _), List.drop_succ_cons, List.drop_zero, parse_quoted hn, parse_blank, parse_last hf]
  rfl

end Lookup

theorem clsFuncs_load (name vf : Str) :
    clsFuncs 0 "vcl.load".toList [name, vf] childCls = .call .configLoad ["vcl.load".toList, name, vf] := by rfl

theorem clsFuncs_use (name : Str) : clsFuncs 0 "vcl.use".toList [name] childCls = .call .configUse ["vcl.use".toList, name] := by
  rfl

theorem clsFuncs_discard (name : Str) :
    clsFuncs 0 "vcl.discard".toList [name] childCls = .call .configDiscard ["vcl.discard".toList, name] := by rfl

/-- What a command does to a child, and its status. -/
def Child.exec (c : Child) (cmd : Cmd) : Child × ℕ :=
  ({ c with table := (c.table.exec cmd).1 }, if (c.table.exec cmd).2 then 200 else 106)

theorem childLine_load (hp : clsVlu childCls 0 p = .call .configLoad ["vcl.load".toList, name, vf]) :
    childLine c opened p = some (c.exec (.load name vf opened)) := by
  rw [childLine, hp]
  rfl

theorem childLine_use (hp : clsVlu childCls 0 p = .call .configUse ["vcl.use".toList, name]) :
    childLine c opened p = some (c.exec (.use name)) := by
  rw [childLine, hp]
  rfl

theorem childLine_discard (hp : clsVlu childCls 0 p = .call .configDiscard ["vcl.discard".toList, name]) :
    childLine c opened p = some (c.exec (.discard name)) := by
  rw [childLine, hp]
  rfl

/-- The words of the requests that the manager makes itself. -/
theorem keyword_request : Keyword "vcl.load".toList ∧ Keyword "vcl.use".toList ∧ Keyword "vcl.discard".toList := by
  decide +kernel

theorem read_load (hn : PlainWord name) (hf : PlainWord vf) (c : Child) (opened : Opened) :
    childLine c opened ("vcl.load".toList ++ ' ' :: (name ++ ' ' :: vf)) = some (c.exec (.load name vf opened)) :=
  childLine_load ((read_two keyword_request.1 hn hf).trans (clsFuncs_load name vf))

theorem read_use (hn : PlainWord name) (c : Child) (opened : Opened) :
    childLine c opened ("vcl.use".toList ++ ' ' :: name) = some (c.exec (.use name)) :=
  childLine_use ((read_one keyword_request.2.1 hn).trans (clsFuncs_use name))

theorem read_discard (hn : PlainWord name) (c : Child) (opened : Opened) :
    childLine c opened ("vcl.discard".toList ++ ' ' :: name) = some (c.exec (.discard name)) :=
  childLine_discard ((read_one keyword_request.2.2 hn).trans (clsFuncs_discard name))

/-- The quoted requests are read as the others are. -/
theorem read_pushLoad {vp : Vclprog} (hn : PlainWord vp.name) (hf : PlainWord vp.fname) (c : Child) (opened : Opened) :
    childLine c opened (pushLoad vp) = some (c.exec (.load vp.name vp.fname opened)) :=
  childLine_load ((read_quoted_two keyword_request.1 hn hf).trans (clsFuncs_load _ _))

theorem read_pushUse {vp : Vclprog} (hn : PlainWord vp.name) (c : Child) (opened : Opened) :
    childLine c opened (pushUse vp) = some (c.exec (.use vp.name)) :=
  childLine_use ((read_quoted keyword_request.2.1 hn).trans (clsFuncs_use _))

theorem read_start (c : Child) (opened : Opened) :
    childLine c opened "start".toList = some ({ c with started := true }, 200) := by
  have hv : clsVlu childCls 0 "start".toList = .call .start ["start".toList] := by rfl
  rw [childLine, hv]

end Requests

/-! ## The table that the list stands for -/

section Published

variable {l done rest : List Vclprog} {name vf : Str} {vp : Vclprog} {opened : Opened}

def published (l : List Vclprog) : Table where
  avail := l.map fun vp => (vp.name, vp.fname)
  active := ((l.find? fun vp => vp.active ≠ 0).or l.head?).map Vclprog.name

theorem published_names (l : List Vclprog) : (published l).names = l.map Vclprog.name := by
  rw [Table.names, published, List.map_map]
  rfl

/-- A child that has programs has an active one. -/
theorem published_active (h : l ≠ []) : ∃ vp ∈ l, (published l).active = some vp.name := by
  cases hf : l.find? fun vp => vp.active ≠ 0 with
  | some vp => exact ⟨vp, List.mem_of_find?_eq_some hf, by rw [published, hf]; rfl⟩
  | none =>
    cases l with
    | nil => exact absurd rfl h
    | cons v l => exact ⟨v, List.mem_cons_self, by rw [published, hf]; rfl⟩

theorem find_active_append (hx : vp.active = 0) :
    ((l ++ [vp]).find? fun vp => vp.active ≠ 0) = l.find? fun vp => vp.active ≠ 0 := by
  rw [List.find?_append, List.find?_cons_of_neg (by simp [hx]), List.find?_nil, Option.or_none]

theorem published_snoc (hx : vp.active = 0) :
    published (l ++ [vp]) = ⟨(published l).avail ++ [(vp.name, vp.fname)],
      if (published l).active = none then some vp.name else (published l).active⟩ := by
  rw [published, find_active_append hx, List.map_append]
  cases l with
  | nil => rfl
  | cons v l =>
    obtain ⟨w, -, hw⟩ := published_active (List.cons_ne_nil v l)
    rw [if_neg (by rw [hw]; exact Option.some_ne_none _)]
    rfl

theorem published_load (hn : name ∉ l.map Vclprog.name) :
    (published l).exec (.load name vf opened) =
      if opened = .good then (published (l ++ [⟨name, vf, 0⟩]), true) else (published l, false) := by
  rw [Table.exec, published_names]
  by_cases ho : opened = .good
  · rw [if_pos ho, if_neg (by simp [hn, ho]), published_snoc rfl]
  · rw [if_neg ho, if_pos (.inr ho)]

theorem find_useFlag (hn : name ∈ l.map Vclprog.name) :
    ((l.map (useFlag name)).find? fun vp => vp.active ≠ 0).map Vclprog.name = some name := by
  induction l with
  | nil => cases hn
  | cons vp l ih =>
    rw [List.map_cons]
    by_cases he : name = vp.name
    · rw [List.find?_cons_of_pos (by simp [useFlag, he]), Option.map_some]
      exact congrArg some he.symm
    · rw [List.find?_cons_of_neg (by simp [useFlag, he])]
      refine ih ?_
      rcases List.mem_cons.mp hn with h | h
      · exact absurd h he
      · exact h

theorem published_use (hn : name ∈ l.map Vclprog.name) :
    (published l).exec (.use name) = (published (l.map (useFlag name)), true) := by
  rw [Table.exec, published_names, if_neg (not_not.mpr hn)]
  have hf := find_useFlag hn
  cases hx : (l.map (useFlag name)).find? fun vp => vp.active ≠ 0 with
  | none =>
    rw [hx] at hf
    cases hf
  | some vp =>
    rw [hx] at hf
    have ha : (published (l.map (useFlag name))).active = some name := by
      rw [published, hx]
      exact hf
    have hv : (published (l.map (useFlag name))).avail = (published l).avail := by
      rw [published, published, List.map_map]
      rfl
    rw [← ha, ← hv]

theorem published_discard (hl : (l.map Vclprog.name).Nodup) (hb : mgtVccByname l name = some vp) (hx : vp.active = 0) :
    (published l).exec (.discard name) =
      if (published l).active = some name then (published l, false)
      else (published (l.filter fun w => w.name ≠ name), true) := by
  obtain ⟨hm, rfl⟩ := byname_some hb
  have hn : vp.name ∈ l.map Vclprog.name := List.mem_map_of_mem hm
  rw [Table.exec, published_names]
  by_cases ha : (published l).active = some vp.name
  · rw [if_pos (.inr ha), if_pos ha]
  · rw [if_neg (by simp only [hn, not_true, false_or]; exact ha), if_neg ha]
    have havail : (published l).avail.filter (fun e => e.1 ≠ vp.name) = (published (l.filter fun w => w.name ≠ vp.name)).avail := by
      rw [published, published, List.filter_map]
      rfl
    have hfind : ((l.filter fun w => w.name ≠ vp.name).find? fun w => w.active ≠ 0) = l.find? fun w => w.active ≠ 0 := by
      rw [← List.head?_filter, ← List.head?_filter, List.filter_filter]
      refine congrArg List.head? (List.filter_congr fun w hw => ?_)
      by_cases he : w.name = vp.name
      · have hwv : w = vp := List.inj_on_of_nodup_map hl hw hm he
        simp [hwv, hx]
      · simp [he]
    have hact : (published (l.filter fun w => w.name ≠ vp.name)).active = (published l).active := by
      rw [published, published, hfind]
      cases hf : l.find? fun w => w.active ≠ 0 with
      | some w => rfl
      | none =>
        cases l with
        | nil => rfl
        | cons v l =>
          have hv : v.name ≠ vp.name := by
            intro he
            refine ha ?_
            rw [published, hf, ← he]
            rfl
          rw [List.filter_cons_of_pos (by simpa using hv)]
          rfl
    rw [havail, ← hact]

/-- What is kept of a list with an active program that is not the discarded one. -/
theorem filter_ne_nil (hl : l ≠ []) (ha : (published l).active ≠ some name) : (l.filter fun w => w.name ≠ name) ≠ [] := by
  obtain ⟨v, hv, hact⟩ := published_active hl
  rw [hact] at ha
  have hne : v.name ≠ name := fun h => ha (by rw [h])
  exact List.ne_nil_of_mem (List.mem_filter.mpr ⟨hv, by simpa using hne⟩)

end Published

/-! ## Answers in time -/

section Answers

variable {buf : ℕ} {s s' : St} {line : Str} {a : Answer} {status : ℕ}

/-- Not an answer after the time is up. -/
def Answer.InTime : Answer → Prop
  | .late _ _ => False
  | _ => True

instance : (a : Answer) → Decidable a.InTime
  | .late _ _ => isFalse id
  | .reply _ | .lost | .cut => isTrue trivial

/-- The child does what the line says and its answer comes, or it has ended. -/
theorem deliver_cases (ha : a.InTime) (he : s.deliver line a = some (s', status)) :
    s' = { s with proc := none } ∧ status = 400 ∨
    ∃ c opened c', s.proc = some c ∧ childLine c opened line = some (c', status) ∧ s' = { s with proc := some c' } := by
  cases hp : s.proc with
  | none =>
    left
    simp only [St.deliver, hp] at he
    cases he
    obtain ⟨cs, pid, cliFds, output, ask, evPoker, pokerEv, evListen, listenEv, lost, vclhead, files, proc⟩ := s
    simp only at hp
    rw [hp]
    exact ⟨rfl, rfl⟩
  | some c =>
    simp only [St.deliver, hp] at he
    cases a with
    | late _ _ => exact absurd ha id
    | cut => cases he
    | lost =>
      cases he
      exact .inl ⟨rfl, rfl⟩
    | reply opened =>
      cases hc : childLine c opened line with
      | none =>
        simp only [hc] at he
        cases he
        exact .inl ⟨rfl, rfl⟩
      | some r =>
        simp only [hc] at he
        cases he
        exact .inr ⟨c, opened, r.1, rfl, hc, rfl⟩

theorem askchild_cases (ha : a.InTime) (he : mgtCliAskchild buf s line a = some (s', status)) :
    (s.ask = false ∧ s' = s ∧ status ≠ 200) ∨ (s' = { s with proc := none } ∧ status ≠ 200) ∨
    ∃ c opened c', s.ask = true ∧ s.proc = some c ∧ childLine c opened line = some (c', status) ∧
      s' = { s with proc := some c' } := by
  rw [mgtCliAskchild] at he
  split at he
  · rename_i hask
    cases he
    exact .inl ⟨by simpa using hask, rfl, by decide⟩
  · rename_i hask
    split at he
    · cases he
    · rcases deliver_cases ha he with ⟨hs, rfl⟩ | ⟨c, opened, c', hp, hc, hs⟩
      · exact .inr (.inl ⟨hs, by decide⟩)
      · exact .inr (.inr ⟨c, opened, c', by simpa using hask, hp, hc, hs⟩)

end Answers

/-! ## A new child -/

section Push

variable {buf : ℕ} {s s' : St} {done rest : List Vclprog} {as : List Answer}

/-- What is asked of a list: plain words, no name twice, and one active program at most. -/
def Listed (l : List Vclprog) : Prop :=
  (∀ vp ∈ l, PlainWord vp.name ∧ PlainWord vp.fname) ∧ (l.map Vclprog.name).Nodup ∧
    l.Pairwise fun v w => v.active = 0 ∨ w.active = 0

/-- With an active program behind them, those in front are not active. -/
theorem published_active_snoc {vp : Vclprog} (hl : Listed (done ++ [vp])) (hx : vp.active ≠ 0) :
    published (done ++ [vp]) = ⟨(published done).avail ++ [(vp.name, vp.fname)], some vp.name⟩ := by
  have hnone : (done.find? fun w => w.active ≠ 0) = none := by
    rw [List.find?_eq_none]
    intro w hw hwx
    rcases (List.pairwise_append.mp hl.2.2).2.2 w hw vp List.mem_cons_self with h | h
    · simp [h] at hwx
    · exact hx h
  rw [published, List.find?_append, hnone, Option.none_or, List.find?_cons_of_pos (by simpa using hx), List.map_append]
  rfl

theorem exec_push {vp : Vclprog} (hl : Listed (done ++ [vp])) (hx : vp.active ≠ 0) :
    (published (done ++ [⟨vp.name, vp.fname, 0⟩])).exec (.use vp.name) = (published (done ++ [vp]), true) := by
  have hm : vp.name ∈ (done ++ [(⟨vp.name, vp.fname, 0⟩ : Vclprog)]).map Vclprog.name := by
    rw [List.map_append]
    exact List.mem_append_right _ List.mem_cons_self
  rw [Table.exec, published_names, if_neg (not_not.mpr hm), published_active_snoc hl hx, published_snoc rfl]

/-- A request that was answered with 200. -/
theorem ask_done {line : Str} {a : Answer} {c : Child} {cmd : Opened → Cmd} (ha : a.InTime)
    (hread : ∀ opened, childLine c opened line = some (c.exec (cmd opened)))
    (hp : ∀ c', s.proc = some c' → c' = c) (he : mgtCliAskchild buf s line a = some (s', 200)) :
    s.ask = true ∧ ∃ opened, (c.table.exec (cmd opened)).2 = true ∧
      s' = { s with proc := some ⟨(c.table.exec (cmd opened)).1, c.started⟩ } := by
  rcases askchild_cases ha he with ⟨-, -, h⟩ | ⟨-, h⟩ | ⟨c0, opened, c', hask, hc, hr, rfl⟩
  · exact absurd rfl h
  · exact absurd rfl h
  · rw [hp c0 hc, hread opened] at hr
    cases hb : (c.table.exec (cmd opened)).2 with
    | false =>
      simp only [Child.exec, hb, Option.some.injEq, Prod.mk.injEq] at hr
      exact absurd hr.2 (by decide)
    | true =>
      simp only [Child.exec, hb, Option.some.injEq, Prod.mk.injEq] at hr
      exact ⟨hask, opened, hb, by rw [← hr.1]⟩

/-- The child's table grows with the requests. -/
theorem push_agree (hl : Listed (done ++ rest)) (has : ∀ a ∈ as, a.InTime) (hask : s.ask = true)
    (hp : ∀ c, s.proc = some c → c = ⟨published done, false⟩) (he : mgtPushVcls buf s rest as = some (s', false)) :
    ∀ c, s'.proc = some c → c = ⟨published (done ++ rest), true⟩ := by
  have hhead (as : List Answer) (has : ∀ a ∈ as, a.InTime) : (as.headD .lost).InTime := by
    cases as with
    | nil => trivial
    | cons a as => exact has a List.mem_cons_self
  have htail (as : List Answer) (has : ∀ a ∈ as, a.InTime) : ∀ a ∈ as.tail, a.InTime :=
    fun a ha => has a (List.mem_of_mem_tail ha)
  induction rest generalizing s done as with
  | nil =>
    rw [mgtPushVcls, Option.bind_eq_bind] at he
    obtain ⟨⟨s1, st⟩, he1, he⟩ := Option.bind_eq_some_iff.mp he
    simp only [Option.some.injEq, Prod.mk.injEq, decide_eq_false_iff_not, not_not] at he
    obtain ⟨rfl, rfl⟩ := he
    rcases askchild_cases (hhead as has) he1 with ⟨-, -, h⟩ | ⟨-, h⟩ | ⟨c, opened, c', -, hc, hread, rfl⟩
    · exact absurd rfl h
    · exact absurd rfl h
    · rw [read_start, hp c hc] at hread
      cases hread
      intro c hc
      cases hc
      rw [List.append_nil]
  | cons vp rest ih =>
    have hl' : Listed ((done ++ [vp]) ++ rest) := by simpa using hl
    have hdone : Listed (done ++ [vp]) := by
      have hsub : (done ++ [vp]).Sublist ((done ++ [vp]) ++ rest) := List.sublist_append_left _ _
      exact ⟨fun w hw => hl'.1 w (hsub.subset hw), hl'.2.1.sublist (hsub.map _), hl'.2.2.sublist hsub⟩
    obtain ⟨hn, hf⟩ := hdone.1 vp (List.mem_append_right _ List.mem_cons_self)
    have hnew : vp.name ∉ done.map Vclprog.name := by
      have := hdone.2.1
      rw [List.map_append, List.nodup_append] at this
      intro hm
      exact this.2.2 _ hm _ List.mem_cons_self rfl
    rw [mgtPushVcls, Option.bind_eq_bind] at he
    obtain ⟨⟨s1, st⟩, he1, he⟩ := Option.bind_eq_some_iff.mp he
    simp only at he
    split at he
    · cases he
    · rename_i hst
      rw [not_not] at hst
      subst hst
      have hstep : s1 = { s with proc := some ⟨published (done ++ [⟨vp.name, vp.fname, 0⟩]), false⟩ } := by
        obtain ⟨-, opened, hok, hs1⟩ := ask_done (hhead as has) (read_pushLoad hn hf ⟨published done, false⟩) hp he1
        simp only [published_load hnew] at hok hs1
        by_cases hg : opened = .good
        · rw [if_pos hg] at hs1
          exact hs1
        · rw [if_neg hg] at hok
          cases hok
      subst hstep
      split at he
      · rename_i hx
        have hvp : (⟨vp.name, vp.fname, 0⟩ : Vclprog) = vp := by rw [← hx]
        rw [hvp] at he
        have := ih hl' (htail as has) (s := { s with proc := some ⟨published (done ++ [vp]), false⟩ }) hask
          (fun c hc => by cases hc; rfl) he
        rwa [List.append_assoc] at this
      · rename_i hx
        obtain ⟨⟨s2, st⟩, he2, he⟩ := Option.bind_eq_some_iff.mp he
        simp only at he
        split at he
        · cases he
        · rename_i hst
          rw [not_not] at hst
          subst hst
          have hstep : s2 = { s with proc := some ⟨published (done ++ [vp]), false⟩ } := by
            obtain ⟨-, opened, -, hs2⟩ := ask_done (hhead as.tail (htail as has))
              (read_pushUse hn ⟨published (done ++ [⟨vp.name, vp.fname, 0⟩]), false⟩) (fun c hc => by cases hc; rfl) he2
            simp only [exec_push hdone hx] at hs2
            exact hs2
          subst hstep
          have := ih hl' (htail _ (htail as has)) (s := { s with proc := some ⟨published (done ++ [vp]), false⟩ }) hask
            (fun c hc => by cases hc; rfl) he
          rwa [List.append_assoc] at this

end Push

/-! ## Lines of users -/

section Users

variable {p : Str} {auth : ℕ} {h : Handler} {av : List Str} {c c' : Child} {opened : Opened} {status : ℕ}

/-- The commands of the child that concern its programs or its start are the manager's own. -/
theorem own_commands {cfn : ℕ × List (CliProto ChildHandler)} (hm : cfn ∈ childCls) {cp : CliProto ChildHandler}
    (hcp : cp ∈ cfn.2) : cp.request ≠ ['*'] ∧
      (cp.func = some .configLoad ∨ cp.func = some .configDiscard ∨ cp.func = some .configUse ∨ cp.func = some .start →
        cp.request ∈ cliProto.map CliProto.request ∧ cp.request ≠ "help".toList) := by
  have hall : ∀ cfn ∈ childCls, ∀ cp ∈ cfn.2, cp.request ≠ ['*'] ∧
      (cp.func = some .configLoad ∨ cp.func = some .configDiscard ∨ cp.func = some .configUse ∨ cp.func = some .start →
        cp.request ∈ cliProto.map CliProto.request ∧ cp.request ≠ "help".toList) := by decide +kernel
  exact hall cfn hm cp hcp

/-- `mcf_askchild` is not called under the name of another function. -/
theorem askchild_word {w : Str} {ws : List Str} (hc : clsFuncs auth w ws cls = .call .askchild av) :
    w ∉ cliProto.map CliProto.request := by
  have hfirst : ∀ cp ∈ cliAuth, cp.func ≠ some .askchild := by decide
  rw [cls, clsFuncs, if_neg (Nat.not_lt_zero auth)] at hc
  cases hd : clsDispatch cliAuth w ws with
  | error status text =>
    rw [hd] at hc
    cases hc
  | call h =>
    rw [hd] at hc
    cases hc
    obtain ⟨cp, hcp, hf, -⟩ := clsDispatch_call hd
    exact absurd hf (hfirst cp hcp)
  | pass =>
    rw [hd] at hc
    simp only [clsFuncs] at hc
    by_cases ha : 16 > auth
    · simp only [if_pos ha] at hc
      cases hc
    · simp only [if_neg ha] at hc
      intro hm
      obtain ⟨cp, hcp, he⟩ := List.mem_map.mp hm
      have hproto : ∀ cp ∈ cliProto, cp.func ≠ some .askchild := by decide
      cases hd' : clsDispatch cliProto w ws with
      | error status text =>
        rw [hd'] at hc
        cases hc
      | call h =>
        rw [hd'] at hc
        cases hc
        obtain ⟨cp, hcp, hf, -⟩ := clsDispatch_call hd'
        exact absurd hf (hproto cp hcp)
      | pass =>
        rw [clsDispatch] at hd'
        split at hd'
        · rename_i hfind
          have := List.find?_eq_none.mp hfind cp hcp
          simp [he] at this
        · split at hd'
          · cases hd'
          · split at hd'
            · cases hd'
            · split at hd' <;> cases hd'

/-- A line that is handed on leaves the child's programs as they are. -/
theorem handed_on (hc : clsVlu cls auth p = .call h av)
    (hh : h = .askchild ∨ h = .help ∧ .askchild ∈ clsFuncHelp cls av.tail)
    (hr : childLine c opened (command p) = some (c', status)) : c' = c := by
  obtain ⟨w, ws, hp, hf⟩ := clsVlu_call hc
  have hw : w ∉ cliProto.map CliProto.request ∨ w = "help".toList := by
    rcases hh with rfl | ⟨rfl, -⟩
    · exact .inl (askchild_word hf)
    · obtain ⟨ws', rfl, -, hp'⟩ := clsVlu_help hc
      rw [hp] at hp'
      cases hp'
      exact .inr rfl
  rw [childLine, clsVlu_command] at hr
  cases hv : clsVlu childCls 0 p with
  | fault =>
    rw [hv] at hr
    cases hr
  | ignored =>
    rw [hv] at hr
    cases hr
    rfl
  | answer st text =>
    rw [hv] at hr
    cases hr
    rfl
  | call h' av' =>
    have hother (hown : h' = .configLoad ∨ h' = .configDiscard ∨ h' = .configUse ∨ h' = .start) : False := by
      obtain ⟨w', ws', hp', hf'⟩ := clsVlu_call hv
      rw [hp] at hp'
      cases hp'
      obtain ⟨-, cfn, hm, -, cp, hcp, hfunc, hreq, -⟩ := clsFuncs_call hf'
      obtain ⟨hstar, hcmd⟩ := own_commands hm hcp
      have hreq : w = cp.request := hreq.resolve_right hstar
      obtain ⟨hmem, hhelp⟩ := hcmd (by simpa [hfunc] using hown)
      rw [← hreq] at hmem hhelp
      rcases hw with hw | hw
      · exact hw hmem
      · exact hhelp hw
    rw [hv] at hr
    cases h' with
    | configLoad => exact absurd (.inl rfl) hother
    | configDiscard => exact absurd (.inr (.inl rfl)) hother
    | configUse => exact absurd (.inr (.inr (.inl rfl))) hother
    | start => exact absurd (.inr (.inr (.inr rfl))) hother
    | panic => cases hr
    | _ =>
      cases hr
      rfl

end Users

/-! ## Runs -/

section Runs

variable {buf : ℕ} {s s' : St} {name : Str} {a : Answer} {as : List Answer}

/-- The words are plain, a child that is there has programs, and a running one has those of the list. -/
structure Agree (s : St) : Prop where
  plain : ∀ vp ∈ s.vclhead, PlainWord vp.name ∧ PlainWord vp.fname
  nonempty : s.pid = true → s.vclhead ≠ []
  child : s.childState = .running → ∀ c, s.proc = some c → c = ⟨published s.vclhead, true⟩

/-- The condition on a run: plain names, and no answer comes after the time is up. -/
def Cond (buf : ℕ) (s : St) (a : Act) : Prop :=
  Called buf s a ∧
  match a with
  | .startstop _ _ _ as | .sigchld _ _ _ as => ∀ a ∈ as, a.InTime
  | .poker a | .use _ a | .discard _ a | .list a | .user _ _ a => a.InTime
  | .load name _ compiled a => a.InTime ∧ PlainWord name ∧ ∀ vf ∈ compiled, PlainWord vf
  | .listener _ | .ends => True

instance (buf : ℕ) (s : St) (a : Act) : Decidable (Cond buf s a) := by
  unfold Cond
  cases a <;> infer_instance

/-- A state with the same list and child, or one whose child does not run or has ended. -/
theorem Agree.keep (h : Agree s) (hv : s'.vclhead = s.vclhead) (hp : s'.pid = true → s.pid = true)
    (hc : s'.childState = .running → ∀ c, s'.proc = some c → s.childState = .running ∧ s.proc = some c) : Agree s' := by
  refine ⟨by rw [hv]; exact h.plain, fun hpid => by rw [hv]; exact h.nonempty (hp hpid), fun hr c hpc => ?_⟩
  rw [hv]
  obtain ⟨hr', hpc'⟩ := hc hr c hpc
  exact h.child hr' c hpc'

/-- A request that the child answers and that leaves its programs as they are. -/
theorem ask_keep (h : Agree s) {line : Str} {status : ℕ} (ha : a.InTime)
    (hread : ∀ c opened c' st, childLine c opened line = some (c', st) → c' = c)
    (he : mgtCliAskchild buf s line a = some (s', status)) : Agree s' := by
  rcases askchild_cases ha he with ⟨-, rfl, -⟩ | ⟨rfl, -⟩ | ⟨c, opened, c', -, hp, hr, rfl⟩
  · exact h
  · exact h.keep rfl id fun _ c hc => by cases hc
  · rw [hread c opened c' status hr]
    refine h.keep rfl id fun hrun d hd => ⟨hrun, ?_⟩
    rw [hp]
    exact hd

theorem stop_agree (h : Agree s) (he : mgtStopChild s = some s') : Agree s' := by
  obtain ⟨hv, hp, hc⟩ := stop_eq he
  exact h.keep hv (by rw [hp]; exact id) fun hr => absurd hr hc

theorem listed_of_progs {files : List Str} {l : List Vclprog} (hp : ∀ vp ∈ l, PlainWord vp.name ∧ PlainWord vp.fname)
    (hprogs : Progs buf l files) : Listed l := ⟨hp, hprogs.names, hprogs.active⟩

theorem start_agree {sockets ping : Bool} (hb : 13 < buf) (hprogs : Progs buf s.vclhead s.files)
    (hl : Listed s.vclhead) (hne : s.vclhead ≠ []) (has : ∀ a ∈ as, a.InTime) (hc : s.childState ≠ .running)
    (he : startChild buf s sockets ping as = some s') : Agree s' := by
  have hdown {t : St} (hv : t.vclhead = s.vclhead) (ht : t.childState ≠ .running) : Agree t :=
    ⟨by rw [hv]; exact hl.1, fun _ => by rw [hv]; exact hne, fun hr => absurd hr ht⟩
  rw [startChild] at he
  split at he
  · cases he
    exact hdown rfl hc
  · split at he
    · cases he
      exact hdown rfl (by simp)
    · split at he
      · cases he
      · rw [Option.bind_eq_bind] at he
        obtain ⟨⟨s1, failed⟩, hpush, he⟩ := Option.bind_eq_some_iff.mp he
        obtain ⟨p, rfl, -⟩ : Same (s.launch ping) s1 := (pushVcls_spec hb fun vp hvp => (hprogs.fits vp hvp).2).of_eq hpush
        cases failed with
        | true =>
          obtain ⟨hv, -, hst⟩ := @stop_eq { s.launch ping with childState := .running, proc := p } s' he
          exact hdown hv hst
        | false =>
          cases he
          refine ⟨hl.1, fun _ => hne, fun _ c hp => ?_⟩
          have hl' : Listed ([] ++ s.vclhead) := hl
          exact push_agree hl' has rfl (fun c hc => by cases hc; rfl) hpush c hp

theorem sigchld_agree {restart sockets ping : Bool} (hb : 13 < buf) (hs : Inv buf s) (h : Agree s)
    (has : ∀ a ∈ as, a.InTime) (he : mgtSigchld buf s restart sockets ping as = some s') : Agree s' := by
  obtain ⟨hd, hinv⟩ := delPoker_spec hs
  rw [mgtSigchld, hd, Option.bind_eq_bind, Option.bind_some] at he
  split at he
  · cases he
    exact h.keep rfl id fun hr c hp => ⟨hr, hp⟩
  · rename_i hcond
    have hp : s.pid = true := by
      by_contra hn
      exact hcond (.inl hn)
    have hn : s.proc = none := by
      by_contra hn
      exact hcond (.inr (Option.isSome_iff_ne_none.mpr hn))
    obtain ⟨s1, he1, hdown, hcs, hv, hf⟩ := reap_spec hinv rfl hp hn
    have hv : s1.vclhead = s.vclhead := hv
    have hf : s1.files = s.files := hf
    have hl : Listed s1.vclhead := by
      rw [hv]
      exact listed_of_progs h.plain hs.progs
    have hprogs : Progs buf s1.vclhead s1.files := by
      rw [hv, hf]
      exact hs.progs
    rw [he1, Option.bind_some] at he
    split at he
    · rename_i hdied
      refine start_agree hb hprogs hl (by rw [hv]; exact h.nonempty hp) has ?_ he
      rw [hdied.1]
      decide
    · cases he
      exact ⟨hl.1, fun hpid => absurd hpid (by simp [hdown.pid]), fun hr => by cases hr⟩

theorem startstop_agree {priv sockets ping : Bool} (hb : 13 < buf) (hs : Inv buf s) (h : Agree s)
    (has : ∀ a ∈ as, a.InTime) (he : mcfServerStartstop buf s priv sockets ping as = some s') : Agree s' := by
  rw [mcfServerStartstop] at he
  split at he
  · exact stop_agree h he
  · split at he
    · rename_i hst
      split at he
      · rename_i hne
        refine start_agree hb hs.progs (listed_of_progs h.plain hs.progs) hne has ?_ he
        rw [hst.2]
        decide
      · cases he
        exact h
    · cases he
      exact h

theorem read_ping (c : Child) (opened : Opened) : childLine c opened "ping".toList = some (c, 200) := by
  have hv : clsVlu childCls 0 "ping".toList = .call .ping ["ping".toList] := by rfl
  rw [childLine, hv]

theorem read_list (c : Child) (opened : Opened) : childLine c opened "vcl.list".toList = some (c, 200) := by
  have hv : clsVlu childCls 0 "vcl.list".toList = .call .configList ["vcl.list".toList] := by rfl
  rw [childLine, hv]

theorem poker_agree (h : Agree s) (ha : a.InTime) (he : childPoker buf s a = some s') : Agree s' := by
  rw [childPoker] at he
  split at he
  · cases he
    exact h.keep rfl id fun hr c hp => ⟨hr, hp⟩
  · split at he
    · cases he
      exact h
    · obtain ⟨⟨s1, st⟩, hask, he⟩ := Option.map_eq_some_iff.mp he
      cases he
      refine ask_keep h ha (fun c opened c' st hr => ?_) hask
      rw [read_ping] at hr
      cases hr
      rfl

theorem list_agree (h : Agree s) (ha : a.InTime) (he : mcfConfigList buf s a = some s') : Agree s' := by
  rw [mcfConfigList] at he
  split at he
  · obtain ⟨⟨s1, st⟩, hask, he⟩ := Option.map_eq_some_iff.mp he
    cases he
    refine ask_keep h ha (fun c opened c' st hr => ?_) hask
    rw [read_list] at hr
    cases hr
    rfl
  · cases he
    exact h

theorem user_agree (h : Agree s) (ha : a.InTime) {auth : ℕ} {p : Str} (he : userLine s auth p a = some s') : Agree s' := by
  rw [userLine] at he
  split at he
  · rename_i hd av hc
    split at he
    · rename_i hask
      obtain ⟨⟨s1, st⟩, hx, he⟩ := Option.map_eq_some_iff.mp he
      cases he
      rcases deliver_cases ha hx with ⟨rfl, -⟩ | ⟨c, opened, c', hp, hr, rfl⟩
      · exact h.keep rfl id fun _ c hc => by cases hc
      · rw [handed_on hc hask.2 hr]
        refine h.keep rfl id fun hrun d hd => ⟨hrun, ?_⟩
        rw [hp]
        exact hd
    · cases he
      exact h
  · cases he
    exact h

/-- A request about the programs: what the manager does when it is answered with 200 is what the child does. -/
theorem ask_agree (hs : Inv buf s) (h : Agree s) {line : Str} {cmd : Opened → Cmd} {status : ℕ} {l : List Vclprog}
    (ha : a.InTime) (hread : ∀ c opened, childLine c opened line = some (c.exec (cmd opened)))
    (hexec : ∀ opened, (published s.vclhead).exec (cmd opened) = (published s.vclhead, false) ∨
      (published s.vclhead).exec (cmd opened) = (published l, true))
    (he : mgtCliAskchild buf s line a = some (s', status)) :
    (status ≠ 200 ∧ Agree s') ∨
    (status = 200 ∧ (∃ opened, ((published s.vclhead).exec (cmd opened)).2 = true) ∧
      s' = { s with proc := some ⟨published l, true⟩ }) := by
  rcases askchild_cases ha he with ⟨-, rfl, hst⟩ | ⟨rfl, hst⟩ | ⟨c, opened, c', hask, hp, hr, rfl⟩
  · exact .inl ⟨hst, h⟩
  · exact .inl ⟨hst, h.keep rfl id fun _ c hc => by cases hc⟩
  · have hrun : s.childState = .running := hs.cli.mp (by rw [← hs.ask]; exact hask)
    have hc := h.child hrun c hp
    rw [hread, hc] at hr
    rcases hexec opened with hx | hx
    · simp only [Child.exec, hx, Option.some.injEq, Prod.mk.injEq] at hr
      obtain ⟨rfl, rfl⟩ := hr
      refine .inl ⟨by decide, h.keep rfl id fun _ d hd => ⟨hrun, ?_⟩⟩
      rw [hp, hc]
      exact hd
    · simp only [Child.exec, hx, Option.some.injEq, Prod.mk.injEq] at hr
      obtain ⟨rfl, rfl⟩ := hr
      exact .inr ⟨rfl, ⟨opened, by rw [hx]⟩, rfl⟩

theorem load_agree {compiled : Option Str} (hs : Inv buf s) (h : Agree s) (ha : a.InTime) (hn : PlainWord name)
    (hc : ∀ vf ∈ compiled, PlainWord vf) (he : mcfConfigInline buf s name compiled a = some s') : Agree s' := by
  cases hb : mgtVccByname s.vclhead name with
  | some vp =>
    simp only [mcfConfigInline, hb] at he
    cases he
    exact h
  | none =>
    cases compiled with
    | none =>
      simp only [mcfConfigInline, hb] at he
      cases he
      exact h
    | some vf =>
      have hnew := byname_none.mp hb
      have h0 : Agree { s with files := vf :: s.files } := h.keep rfl id fun hr c hp => ⟨hr, hp⟩
      have hs0 : Inv buf { s with files := vf :: s.files } :=
        ⟨hs.state, hs.pid, hs.output, hs.cli, hs.ask, hs.pokerEv, hs.poker, hs.listenEv, hs.listen, hs.lost, hs.proc,
          hs.progs.file vf⟩
      have hplain : ∀ vp ∈ s.vclhead ++ [⟨name, vf, 0⟩], PlainWord vp.name ∧ PlainWord vp.fname := by
        intro vp hvp
        rcases List.mem_append.mp hvp with hvp | hvp
        · exact h.plain vp hvp
        · rw [List.mem_singleton.mp hvp]
          exact ⟨hn, hc vf rfl⟩
      simp only [mcfConfigInline, hb] at he
      split at he
      · rw [Option.bind_eq_bind] at he
        obtain ⟨⟨s1, st⟩, hask, he⟩ := Option.bind_eq_some_iff.mp he
        have hexec (opened : Opened) := @published_load s.vclhead name vf opened hnew
        rcases @ask_agree buf _ s1 a hs0 h0 _ (.load name vf) st (s.vclhead ++ [⟨name, vf, 0⟩]) ha
            (read_load hn (hc vf rfl)) (fun opened => by
              rw [hexec]
              by_cases hg : opened = .good
              · exact .inr (if_pos hg)
              · exact .inl (if_neg hg)) hask with ⟨hst, h1⟩ | ⟨rfl, -, rfl⟩
        · simp only [if_pos hst] at he
          cases he
          exact h1
        · cases he
          exact ⟨hplain, fun _ => by simp, fun _ c hp => by cases hp; rfl⟩
      · rename_i hpid
        cases he
        refine ⟨hplain, fun _ => by simp, fun hr => absurd (hs.pid.mpr ?_) hpid⟩
        have hr : s.childState = .running := hr
        rw [hr]
        decide

theorem use_agree (hs : Inv buf s) (h : Agree s) (ha : a.InTime) (he : mcfConfigUse buf s name a = some s') : Agree s' := by
  cases hb : mgtVccByname s.vclhead name with
  | none =>
    simp only [mcfConfigUse, hb] at he
    cases he
    exact h
  | some vp =>
    obtain ⟨hm, hname⟩ := byname_some hb
    have hn : PlainWord name := hname ▸ (h.plain vp hm).1
    have hmem : name ∈ s.vclhead.map Vclprog.name := hname ▸ List.mem_map_of_mem hm
    have hne : s.vclhead.map (useFlag name) ≠ [] := by
      rw [Ne, List.map_eq_nil_iff]
      exact List.ne_nil_of_mem hm
    have hplain : ∀ vp ∈ s.vclhead.map (useFlag name), PlainWord vp.name ∧ PlainWord vp.fname := by
      intro w hw
      obtain ⟨v, hv, rfl⟩ := List.mem_map.mp hw
      exact h.plain v hv
    simp only [mcfConfigUse, hb] at he
    split at he
    · cases he
      exact h
    · split at he
      · rw [Option.bind_eq_bind] at he
        obtain ⟨⟨s1, st⟩, hask, he⟩ := Option.bind_eq_some_iff.mp he
        rcases @ask_agree buf s s1 a hs h _ (fun _ => .use name) st (s.vclhead.map (useFlag name)) ha
            (read_use hn) (fun _ => .inr (published_use hmem)) hask with ⟨hst, h1⟩ | ⟨rfl, -, rfl⟩
        · simp only [if_pos hst] at he
          cases he
          exact h1
        · simp only [mark_eq hs.progs.names hs.progs.flags] at he
          cases he
          exact ⟨hplain, fun _ => hne, fun _ c hp => by cases hp; rfl⟩
      · rename_i hpid
        simp only [mark_eq hs.progs.names hs.progs.flags] at he
        cases he
        refine ⟨hplain, fun _ => hne, fun hr => absurd (hs.pid.mpr ?_) hpid⟩
        have hr : s.childState = .running := hr
        rw [hr]
        decide

theorem delete_eq {vp : Vclprog} (hn : (s.vclhead.map Vclprog.name).Nodup) (hb : mgtVccByname s.vclhead name = some vp)
    (he : mgtVccDelbyname s name = some s') :
    s' = { s with vclhead := s.vclhead.filter fun w => w.name ≠ name, files := s.files.erase vp.fname } := by
  simp only [mgtVccDelbyname, hb] at he
  split at he
  · cases he
  · cases he
    rw [erase_eq hn]

theorem discard_agree (hs : Inv buf s) (h : Agree s) (ha : a.InTime) (he : mcfConfigDiscard buf s name a = some s') :
    Agree s' := by
  cases hb : mgtVccByname s.vclhead name with
  | none =>
    simp only [mcfConfigDiscard, hb] at he
    cases he
    exact h
  | some vp =>
    obtain ⟨hm, hname⟩ := byname_some hb
    have hn : PlainWord name := hname ▸ (h.plain vp hm).1
    have hplain : ∀ vp ∈ s.vclhead.filter fun w => w.name ≠ name, PlainWord vp.name ∧ PlainWord vp.fname := fun w hw =>
      h.plain w (List.mem_of_mem_filter hw)
    simp only [mcfConfigDiscard, hb] at he
    split at he
    · cases he
      exact h
    · rename_i hx
      have hexec := published_discard hs.progs.names hb (not_not.mp hx)
      split at he
      · rw [Option.bind_eq_bind] at he
        obtain ⟨⟨s1, st⟩, hask, he⟩ := Option.bind_eq_some_iff.mp he
        by_cases hact : (published s.vclhead).active = some name
        · rw [if_pos hact] at hexec
          rcases @ask_agree buf s s1 a hs h _ (fun _ => .discard name) st [] ha (read_discard hn)
              (fun _ => .inl hexec) hask with ⟨hst, h1⟩ | ⟨-, ⟨_, hok⟩, -⟩
          · simp only [if_pos hst] at he
            cases he
            exact h1
          · rw [hexec] at hok
            cases hok
        · rw [if_neg hact] at hexec
          rcases @ask_agree buf s s1 a hs h _ (fun _ => .discard name) st (s.vclhead.filter fun w => w.name ≠ name) ha
              (read_discard hn) (fun _ => .inr hexec) hask with ⟨hst, h1⟩ | ⟨rfl, -, rfl⟩
          · simp only [if_pos hst] at he
            cases he
            exact h1
          · obtain rfl := @delete_eq { s with proc := some ⟨published (s.vclhead.filter fun w => w.name ≠ name), true⟩ } s' name vp
              hs.progs.names hb he
            exact ⟨hplain, fun _ => filter_ne_nil (List.ne_nil_of_mem hm) hact, fun _ c hp => by cases hp; rfl⟩
      · rename_i hpid
        obtain rfl := delete_eq hs.progs.names hb he
        refine ⟨hplain, fun hp => absurd hp hpid, fun hr => absurd (hs.pid.mpr ?_) hpid⟩
        have hr : s.childState = .running := hr
        rw [hr]
        decide

theorem step_agree (hb : 13 < buf) (hs : Inv buf s) (h : Agree s) {act : Act} (hc : Cond buf s act)
    (he : step buf s act = some s') : Agree s' := by
  obtain ⟨hcalled, hcond⟩ := hc
  cases act with
  | startstop priv sockets ping as => exact startstop_agree hb hs h hcond he
  | sigchld restart sockets ping as => exact sigchld_agree hb hs h hcond he
  | listener hup =>
    cases he
    cases hup with
    | false => exact h
    | true => exact h.keep rfl id fun hr c hp => ⟨hr, hp⟩
  | poker a => exact poker_agree h hcond he
  | load name vcl compiled a =>
    refine load_agree hs h hcond.1 hcond.2.1 (fun vf hvf => ?_) he
    cases vcl with
    | true => exact hcond.2.2 vf hvf
    | false => cases hvf
  | use name a => exact use_agree hs h hcond he
  | discard name a => exact discard_agree hs h hcond he
  | list a => exact list_agree h hcond he
  | user auth p a => exact user_agree h hcond he
  | ends =>
    cases he
    exact h.keep rfl id fun _ c hp => by cases hp

/-- In every run with plain names in which no answer comes after the time is up: while the child runs and has not ended, it has
been started, and has the programs of the manager's list in its order.  The active one is the one that the manager marks, or the
first if it marks none, and there is one. -/
theorem reach_agree {boot : Option Str} (hb : 13 < buf) (hboot : ∀ vf ∈ boot, PlainWord vf ∧ vf.length + 17 < buf)
    (hr : Reach (step buf) (Cond buf) (start boot) s) (hrun : s.childState = .running) {c : Child} (hc : s.proc = some c) :
    c.started = true ∧ c.table = published s.vclhead ∧ ∃ vp ∈ s.vclhead, c.table.active = some vp.name := by
  have hs : Inv buf s ∧ Agree s := by
    refine hr.inv (I := fun s => Inv buf s ∧ Agree s) ⟨start_inv fun vf hvf => ⟨(hboot vf hvf).1.1, (hboot vf hvf).2⟩, ?_⟩ ?_
    · refine ⟨(fun vp hvp => ?_), (fun hp => absurd hp Bool.false_ne_true), (fun hr => by cases hr)⟩
      have hword : PlainWord "boot".toList := by decide +kernel
      cases boot with
      | none => cases hvp
      | some vf =>
        rw [List.mem_singleton.mp hvp]
        exact ⟨hword, (hboot vf rfl).1⟩
    · rintro s a s' ⟨hi, ha⟩ hcond he
      exact ⟨(step_spec hb hi hcond.1).of_eq he, step_agree hb hi ha hcond he⟩
  obtain ⟨hi, ha⟩ := hs
  rw [ha.child hrun c hc]
  exact ⟨rfl, rfl, published_active (ha.nonempty (hi.pid.mpr (by rw [hrun]; decide)))⟩

/-! ### A run -/

/-- The child is started, gets a second program, ends, and is started again after a third was made active. -/
def restartRun : List Act :=
  let good : Answer := .reply .good
  [.startstop false true true [good, good, good], .load "b".toList true (some "./vcl.2.so".toList) good, .use "b".toList good,
   .user 16 "purge req.url ~ x".toList good, .discard "boot".toList good, .ends,
   .sigchld true true true [good, good, good], .poker good]

theorem reach_agree_restartRun : ∃ (s : St) (c : Child), s.proc = some c ∧ c.started = true ∧ c.table = published s.vclhead ∧
    ∃ vp ∈ s.vclhead, c.table.active = some vp.name := by
  have hok : OkRun (step 8192) (Cond 8192) (start (some "./vcl.1.so".toList)) restartRun := by decide +kernel
  have hrun : (restartRun.foldlM (step 8192) (start (some "./vcl.1.so".toList))).map (fun s => (s.childState, s.proc)) =
      some (.running, some ⟨⟨[("b".toList, "./vcl.2.so".toList)], some "b".toList⟩, true⟩) := by decide +kernel
  obtain ⟨s, hs, hx⟩ := Option.map_eq_some_iff.mp hrun
  obtain ⟨hst, hp⟩ := Prod.ext_iff.mp hx
  exact ⟨s, _, hp, reach_agree (by decide) (by decide +kernel) (Reach.of_run hok hs) hst hp⟩

end Runs

end Varnish.Mgt
