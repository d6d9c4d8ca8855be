import Mathlib.Data.Nat.Notation
import Varnish.Lib.Walk

/-!
# Varnish.Vcc.Xref — the checks of the procedures (`vcc_xref.c`)

* `Proc`: what is recorded of a procedure while its text is parsed.
* `checkAction`, `checkUses`: the two walks over the calls; both go down to a depth `k`, and are `none` below it.
* `checkAction_isSome`: the first walk never goes deeper than the number of procedures.
* `checkAction_ok`: what a program that passes it has.
* `checkUses_iff`: after it the second walk ends too, and finds every illegal use.
-/

namespace Varnish.Vcc

open Varnish.Lib

/-! ## Returns and methods -/

section Methods

/-- `VCL_RET_*` of `vcl.h` -/
inductive Ret
  | deliver
  | error
  | fetch
  | hash
  | lookup
  | pass
  | pipe
  | restart
deriving DecidableEq

def Ret.num : Ret → ℕ
  | .deliver => 0
  | .error => 1
  | .fetch => 2
  | .hash => 3
  | .lookup => 4
  | .pass => 5
  | .pipe => 6
  | .restart => 7

def Ret.text : Ret → String
  | .deliver => "deliver"
  | .error => "error"
  | .fetch => "fetch"
  | .hash => "hash"
  | .lookup => "lookup"
  | .pass => "pass"
  | .pipe => "pipe"
  | .restart => "restart"

def Ret.bit (r : Ret) : BitVec 32 := 1#32 <<< r.num

/-- The order of `vcl_returns.h`. -/
def rets : List Ret := [.deliver, .error, .fetch, .hash, .lookup, .pass, .pipe, .restart]

/-- `struct method` -/
structure Method where
  name : String
  retBitmap : BitVec 32
  bitval : BitVec 32
deriving DecidableEq

def methodTab : List Method :=
  [⟨"vcl_recv", Ret.error.bit ||| Ret.pass.bit ||| Ret.pipe.bit ||| Ret.lookup.bit, 1#32 <<< 0⟩,
    ⟨"vcl_pipe", Ret.error.bit ||| Ret.pipe.bit, 1#32 <<< 1⟩,
    ⟨"vcl_pass", Ret.error.bit ||| Ret.restart.bit ||| Ret.pass.bit, 1#32 <<< 2⟩,
    ⟨"vcl_hash", Ret.hash.bit, 1#32 <<< 3⟩,
    ⟨"vcl_miss", Ret.error.bit ||| Ret.restart.bit ||| Ret.pass.bit ||| Ret.fetch.bit, 1#32 <<< 4⟩,
    ⟨"vcl_hit", Ret.error.bit ||| Ret.restart.bit ||| Ret.pass.bit ||| Ret.deliver.bit, 1#32 <<< 5⟩,
    ⟨"vcl_fetch", Ret.error.bit ||| Ret.restart.bit ||| Ret.pass.bit ||| Ret.deliver.bit, 1#32 <<< 6⟩,
    ⟨"vcl_deliver", Ret.restart.bit ||| Ret.deliver.bit, 1#32 <<< 7⟩,
    ⟨"vcl_error", Ret.restart.bit ||| Ret.deliver.bit, 1#32 <<< 8⟩]

/-- `IsMethod`, with the entry of the table in place of its index. -/
def isMethod (name : String) : Option Method := methodTab.find? (·.name = name)

end Methods

/-! ## Procedures -/

section Procs

/-- What the checks look at in a `struct var`. -/
structure Var where
  name : String
  methods : BitVec 32
deriving DecidableEq

/-- `struct procuse`, with the text of its token. -/
structure Use where
  text : String
  v : Var
deriving DecidableEq

/-- `struct proc`. A call is the name of the procedure that `vcc_findproc` has found for it. -/
structure Proc where
  name : String
  calls : List String := []
  uses : List Use := []
  retBitmap : BitVec 32 := 0
  exist : BitVec 32 := 0
  called : BitVec 32 := 0
  active : Bool := false
deriving DecidableEq

variable {ps ps' ps1 : List Proc} {n f : String} {u : Proc → Proc}

/-- The procedure of a name, and an empty one where there is none in the list. -/
def get (ps : List Proc) (n : String) : Proc := (ps.find? (·.name = n)).getD { name := n }

/-- The marks of `vcc_CheckActionRecurse` on its way in. -/
def Proc.enter (p : Proc) : Proc := { p with active := true }

/-- And on its way out. -/
def Proc.leave (p : Proc) : Proc := { p with active := false, called := p.called + 1 }

theorem Proc.enter_name (p : Proc) : p.enter.name = p.name := rfl

theorem Proc.leave_name (p : Proc) : p.leave.name = p.name := rfl

def setProc (ps : List Proc) (n : String) (u : Proc → Proc) : List Proc :=
  ps.map fun p => if p.name = n then u p else p

theorem names_setProc (hu : ∀ p, (u p).name = p.name) : (setProc ps n u).map Proc.name = ps.map Proc.name := by
  induction ps with
  | nil => rfl
  | cons p ps ih =>
    simp only [setProc, List.map_cons, List.map_map] at ih ⊢
    rw [ih]
    split <;> simp [hu]

theorem get_setProc_ne (hu : ∀ p, (u p).name = p.name) (hf : f ≠ n) : get (setProc ps n u) f = get ps f := by
  unfold get
  congr 1
  induction ps with
  | nil => rfl
  | cons p ps ih =>
    simp only [setProc, List.map_cons] at ih ⊢
    by_cases hp : p.name = n
    · simp [hp, hu, hf.symm, ih]
    · simp [hp, List.find?_cons, ih]

theorem get_setProc (hu : ∀ p, (u p).name = p.name) (hn : n ∈ ps.map Proc.name) :
    get (setProc ps n u) n = u (get ps n) := by
  unfold get
  induction ps with
  | nil => cases hn
  | cons p ps ih =>
    simp only [setProc, List.map_cons] at ih ⊢
    by_cases hp : p.name = n
    · simp [hp, hu]
    · have hn' : n ∈ ps.map Proc.name := (List.mem_cons.mp hn).resolve_left fun h => hp h.symm
      simpa [hp, List.find?_cons] using ih hn'

/-- Only procedures of the list exist. -/
theorem mem_of_exist (h : (get ps n).exist ≠ 0) : n ∈ ps.map Proc.name := by
  unfold get at h
  cases hp : ps.find? (·.name = n) with
  | none => simp [hp] at h
  | some p =>
    have hname : p.name = n := by simpa using List.find?_some hp
    exact List.mem_map.mpr ⟨p, List.mem_of_find?_eq_some hp, hname⟩

def callees (ps : List Proc) (n : String) : List String := (get ps n).calls

/-- A chain of calls leads from one procedure to the other. -/
def Chain (ps : List Proc) : String → String → Prop := Relation.ReflTransGen fun a b => b ∈ callees ps a

end Procs

/-! ## The walks -/

section Walks

variable {σ : Type}

/-- The lines that a caller prints behind those of a failed call. -/
def behind (lines : List String) (r : Option (Except (List String) σ)) : Option (Except (List String) σ) :=
  r.map (Except.mapError (· ++ lines))

@[simp] theorem behind_ok {lines : List String} {r : Option (Except (List String) σ)} {s : σ} :
    behind lines r = some (.ok s) ↔ r = some (.ok s) := by
  rcases r with _ | (e | s')
  · simp [behind]
  · have hb : behind lines (some (.error e : Except (List String) σ)) = some (.error (e ++ lines)) := rfl
    simp [hb]
  · have hb : behind lines (some (.ok s')) = some (.ok s') := rfl
    rw [hb]

@[simp] theorem behind_error (lines : List String) {r : Option (Except (List String) σ)} :
    (∃ e, behind lines r = some (.error e)) ↔ ∃ e, r = some (.error e) := by
  rcases r with _ | (e | s')
  · simp [behind]
  · exact ⟨fun _ => ⟨e, rfl⟩, fun _ => ⟨e ++ lines, rfl⟩⟩
  · have hb : behind lines (some (.ok s')) = some (.ok s') := rfl
    rw [hb]

theorem behind_isSome (lines : List String) {r : Option (Except (List String) σ)} :
    (∃ x, behind lines r = some x) ↔ ∃ x, r = some x := by
  cases r <;> simp [behind]

def quoted (n : String) : String := "\"" ++ n ++ "\""

/-- `vcc_CheckActionRecurse`, without the places that `vcc_ErrWhere` prints. -/
def checkActionRecurse (bitmap : BitVec 32) : ℕ → List Proc → String → Option (Except (List String) (List Proc))
  | 0, _, _ => none
  | k + 1, ps, n =>
    let p := get ps n
    if p.exist = 0 then some (.error ["Function " ++ p.name ++ " does not exist"])
    else if p.active = true then some (.error ["Function recurses on"])
    else
      let u := p.retBitmap &&& ~~~bitmap
      if u ≠ 0 then
        some (.error (((rets.filter fun r => u &&& r.bit ≠ 0).map fun r => "Invalid return " ++ quoted r.text) ++
          ["...in function " ++ quoted p.name]))
      else
        let turn ps c := behind ["...called from " ++ quoted p.name] (checkActionRecurse bitmap k ps c)
        match forEach turn (setProc ps n Proc.enter) p.calls with
        | none => none
        | some (.error e) => some (.error e)
        | some (.ok ps) => some (.ok (setProc ps n Proc.leave))

/-- One turn of the first loop of `vcc_CheckAction`. -/
def checkMethod (k : ℕ) (ps : List Proc) (n : String) : Option (Except (List String) (List Proc)) :=
  match isMethod n with
  | none => some (.ok ps)
  | some m =>
    behind ["...which is the " ++ quoted m.name ++ " method", "Legal returns are:" ++
        String.join ((rets.filter fun r => m.retBitmap &&& r.bit ≠ 0).map fun r => " " ++ quoted r.text)]
      (checkActionRecurse m.retBitmap k ps n)

/-- `vcc_CheckAction` -/
def checkAction (k : ℕ) (ps : List Proc) : Option (Except (List String) (List Proc)) :=
  match forEach (checkMethod k) ps (ps.map Proc.name) with
  | none => none
  | some (.error e) => some (.error e)
  | some (.ok ps) => if ps.any (·.called = 0) = true then some (.error ["Function unused"]) else some (.ok ps)

/-- `vcc_FindIllegalUse` -/
def findIllegalUse (p : Proc) (m : Method) : Option Use := p.uses.find? fun pu => pu.v.methods &&& m.bitval = 0

/-- `vcc_CheckUseRecurse` -/
def checkUseRecurse (m : Method) (ps : List Proc) : ℕ → String → Option (Except (List String) Unit)
  | 0, _ => none
  | k + 1, n =>
    let p := get ps n
    match findIllegalUse p m with
    | some pu =>
      some (.error ["Variable " ++ quoted pu.text ++ " is not available in " ++ m.name, "...in function " ++ quoted p.name])
    | none => forEach (fun _ c => behind ["...called from " ++ quoted p.name] (checkUseRecurse m ps k c)) () p.calls

/-- One turn of the loop of `vcc_CheckUses`. -/
def checkMethodUses (k : ℕ) (ps : List Proc) (n : String) : Option (Except (List String) Unit) :=
  match isMethod n with
  | none => some (.ok ())
  | some m =>
    match findIllegalUse (get ps n) m with
    | some pu => some (.error ["Variable '" ++ pu.text ++ "' not accessible in method '" ++ n ++ "'."])
    | none => behind ["...which is the " ++ quoted m.name ++ " method"] (checkUseRecurse m ps k n)

/-- `vcc_CheckUses` -/
def checkUses (k : ℕ) (ps : List Proc) : Option (Except (List String) Unit) :=
  forEach (fun _ n => checkMethodUses k ps n) () (ps.map Proc.name)

end Walks

/-! ## What the first walk leaves -/

section Agree

variable {ps ps' ps1 : List Proc} {n f : String} {k : ℕ} {bitmap : BitVec 32}

def Proc.uncount (p : Proc) : Proc := { p with called := 0 }

/-- The same procedures, up to the counts of calls. -/
structure Agree (ps ps' : List Proc) : Prop where
  names : ps'.map Proc.name = ps.map Proc.name
  procs : ∀ n, (get ps' n).uncount = (get ps n).uncount

theorem Agree.refl (ps : List Proc) : Agree ps ps := ⟨rfl, fun _ => rfl⟩

theorem Agree.trans (h : Agree ps ps1) (h' : Agree ps1 ps') : Agree ps ps' :=
  ⟨h'.names.trans h.names, fun n => (h'.procs n).trans (h.procs n)⟩

theorem Agree.calls (h : Agree ps ps') (n : String) : (get ps' n).calls = (get ps n).calls :=
  (congrArg Proc.calls (h.procs n) :)

theorem Agree.uses (h : Agree ps ps') (n : String) : (get ps' n).uses = (get ps n).uses :=
  (congrArg Proc.uses (h.procs n) :)

theorem Agree.exist (h : Agree ps ps') (n : String) : (get ps' n).exist = (get ps n).exist :=
  (congrArg Proc.exist (h.procs n) :)

theorem Agree.active (h : Agree ps ps') (n : String) : (get ps' n).active = (get ps n).active :=
  (congrArg Proc.active (h.procs n) :)

theorem Agree.retBitmap (h : Agree ps ps') (n : String) : (get ps' n).retBitmap = (get ps n).retBitmap :=
  (congrArg Proc.retBitmap (h.procs n) :)

theorem Agree.callees (h : Agree ps ps') : callees ps' = callees ps := funext h.calls

theorem Agree.chain (h : Agree ps ps') : Chain ps' = Chain ps := by
  unfold Chain
  rw [h.callees]

/-- The procedure `n` is marked. -/
def mark (ps : List Proc) (n : String) : List Proc := setProc ps n Proc.enter

theorem get_mark_ne (hf : f ≠ n) : get (mark ps n) f = get ps f := get_setProc_ne Proc.enter_name hf

theorem get_mark (hn : (get ps n).exist ≠ 0) : get (mark ps n) n = (get ps n).enter :=
  get_setProc Proc.enter_name (mem_of_exist hn)

theorem calls_mark (hn : (get ps n).exist ≠ 0) (f : String) : (get (mark ps n) f).calls = (get ps f).calls := by
  by_cases hf : f = n
  · rw [hf, get_mark hn, Proc.enter]
  · rw [get_mark_ne hf]

theorem callees_mark (hn : (get ps n).exist ≠ 0) : callees (mark ps n) = callees ps := funext (calls_mark hn)

/-- Taking the mark back gives what was there before. -/
theorem agree_unmark (hn : (get ps n).exist ≠ 0) (ha : (get ps n).active = false) (h : Agree (mark ps n) ps1) :
    Agree ps (setProc ps1 n Proc.leave) := by
  have hnames : (mark ps n).map Proc.name = ps.map Proc.name := names_setProc Proc.enter_name
  refine ⟨?_, fun f => ?_⟩
  · rw [names_setProc Proc.leave_name, h.names, hnames]
  by_cases hf : f = n
  · have hmem : n ∈ ps1.map Proc.name := by
      rw [h.names, hnames]
      exact mem_of_exist hn
    have hproc := h.procs n
    rw [get_mark hn] at hproc
    rw [hf, get_setProc Proc.leave_name hmem]
    generalize get ps1 n = q at hproc
    generalize get ps n = p at hproc ha
    cases p
    cases q
    simp_all [Proc.uncount, Proc.enter, Proc.leave]
  · rw [get_setProc_ne Proc.leave_name hf, h.procs f, get_mark_ne hf]

/-- A call of `vcc_CheckActionRecurse` that finds no error. -/
theorem checkActionRecurse_cases (h : checkActionRecurse bitmap (k + 1) ps n = some (.ok ps')) :
    (get ps n).exist ≠ 0 ∧ (get ps n).active = false ∧ (get ps n).retBitmap &&& ~~~bitmap = 0 ∧ ∃ ps1,
      forEach (fun ps1 c => behind ["...called from " ++ quoted (get ps n).name] (checkActionRecurse bitmap k ps1 c))
        (mark ps n) (get ps n).calls = some (.ok ps1) ∧
      ps' = setProc ps1 n Proc.leave := by
  rw [checkActionRecurse] at h
  split at h
  · simp at h
  split at h
  · simp at h
  dsimp only at h
  split at h
  · simp at h
  next hexist hactive hret =>
    refine ⟨hexist, by simpa using hactive, by simpa using hret, ?_⟩
    split at h
    · simp at h
    · simp at h
    · next ps1 heq =>
      refine ⟨ps1, heq, ?_⟩
      simpa using h.symm

/-- What `vcc_CheckActionRecurse` has seen below a procedure when it finds no error. -/
structure Passed (ps : List Proc) (bitmap : BitVec 32) (k : ℕ) (n : String) : Prop where
  depth : Depth (callees ps) k n
  exist : ∀ f, Chain ps n f → (get ps f).exist ≠ 0
  active : ∀ f, Chain ps n f → (get ps f).active = false
  ret : ∀ f, Chain ps n f → (get ps f).retBitmap &&& ~~~bitmap = 0

theorem Chain.cases (h : Chain ps n f) : f = n ∨ ∃ c ∈ (get ps n).calls, Chain ps c f := by
  rcases Relation.ReflTransGen.cases_head h with rfl | ⟨c, hc, hf⟩
  · exact .inl rfl
  · exact .inr ⟨c, hc, hf⟩

theorem Agree.passed (h : Agree ps ps') (hp : Passed ps' bitmap k n) : Passed ps bitmap k n where
  depth := h.callees ▸ hp.depth
  exist f hf := h.exist f ▸ hp.exist f (h.chain ▸ hf)
  active f hf := h.active f ▸ hp.active f (h.chain ▸ hf)
  ret f hf := h.retBitmap f ▸ hp.ret f (h.chain ▸ hf)

/-- The walk leaves its marks as they were, and a procedure that it is still in is not called. -/
theorem checkActionRecurse_ok (h : checkActionRecurse bitmap k ps n = some (.ok ps')) :
    Agree ps ps' ∧ Passed ps bitmap k n := by
  induction k generalizing ps ps' n with
  | zero => simp [checkActionRecurse] at h
  | succ k ih =>
    obtain ⟨hexist, hactive, hret, ps1, hloop, rfl⟩ := checkActionRecurse_cases h
    -- every procedure that is called passes while `n` is marked
    have hturn : ∀ c ∈ (get ps n).calls, ∀ s s', Agree (mark ps n) s →
        behind ["...called from " ++ quoted (get ps n).name] (checkActionRecurse bitmap k s c) = some (.ok s') →
        Agree (mark ps n) s' ∧ Passed (mark ps n) bitmap k c := by
      intro c _ s s' hs hc
      obtain ⟨hagree, hpassed⟩ := ih (behind_ok.mp hc)
      exact ⟨hs.trans hagree, hs.passed hpassed⟩
    obtain ⟨hagree, hpassed⟩ := forEach_ok hturn (Agree.refl _) hloop
    have hcallees := callees_mark hexist
    have hchain : Chain (mark ps n) = Chain ps := by
      unfold Chain
      rw [hcallees]
    -- so none of them is `n`
    have hne : ∀ c ∈ (get ps n).calls, ∀ f, Chain ps c f → f ≠ n := by
      rintro c hc f hf rfl
      have := (hpassed c hc).active f (hchain ▸ hf)
      simp [get_mark hexist, Proc.enter] at this
    refine ⟨agree_unmark hexist hactive hagree, ?_, fun f hf => ?_, fun f hf => ?_, fun f hf => ?_⟩
    · intro c hc
      exact hcallees ▸ (hpassed c hc).depth
    · rcases hf.cases with rfl | ⟨c, hc, hf⟩
      · exact hexist
      · exact get_mark_ne (hne c hc f hf) ▸ (hpassed c hc).exist f (hchain ▸ hf)
    · rcases hf.cases with rfl | ⟨c, hc, hf⟩
      · exact hactive
      · exact get_mark_ne (hne c hc f hf) ▸ (hpassed c hc).active f (hchain ▸ hf)
    · rcases hf.cases with rfl | ⟨c, hc, hf⟩
      · exact hret
      · exact get_mark_ne (hne c hc f hf) ▸ (hpassed c hc).ret f (hchain ▸ hf)

theorem checkMethod_ok (h : checkMethod k ps n = some (.ok ps')) :
    Agree ps ps' ∧ ∀ m, isMethod n = some m → Passed ps m.retBitmap k n := by
  unfold checkMethod at h
  cases hm : isMethod n with
  | none =>
    simp only [hm, Option.some.injEq, Except.ok.injEq] at h
    subst h
    exact ⟨Agree.refl _, by simp⟩
  | some m =>
    simp only [hm, behind_ok] at h
    obtain ⟨hagree, hpassed⟩ := checkActionRecurse_ok h
    refine ⟨hagree, fun m' hm' => ?_⟩
    cases hm'
    exact hpassed

/-- The procedures of a program that passes `vcc_CheckAction`. -/
theorem checkAction_ok (h : checkAction k ps = some (.ok ps')) :
    Agree ps ps' ∧ ∀ n ∈ ps.map Proc.name, ∀ m, isMethod n = some m → Passed ps m.retBitmap k n := by
  unfold checkAction at h
  split at h
  · simp at h
  · simp at h
  next ps1 hloop =>
    split at h
    · simp at h
    simp only [Option.some.injEq, Except.ok.injEq] at h
    subst h
    refine forEach_ok (fun n _ s s' hs hn => ?_) (Agree.refl ps) hloop
    obtain ⟨hagree, hpassed⟩ := checkMethod_ok hn
    exact ⟨hs.trans hagree, fun m hm => hs.passed (hpassed m hm)⟩

end Agree

/-! ## The first walk ends -/

section Ends

variable {ps ps' : List Proc} {n : String} {k : ℕ} {bitmap : BitVec 32}

/-- The number of procedures that are not marked. -/
def unmarked (ps : List Proc) : ℕ := (ps.map Proc.name).countP fun n => !(get ps n).active

theorem Agree.unmarked (h : Agree ps ps') : unmarked ps' = unmarked ps := by
  unfold Vcc.unmarked
  rw [h.names]
  exact List.countP_congr fun n _ => by rw [h.active n]

theorem unmarked_mark (hn : (get ps n).exist ≠ 0) (ha : (get ps n).active = false) : unmarked (mark ps n) < unmarked ps := by
  unfold unmarked
  rw [show (mark ps n).map Proc.name = ps.map Proc.name from names_setProc Proc.enter_name]
  refine countP_lt ?_ (mem_of_exist hn) ?_ ?_
  · intro f _ hf
    by_cases hfn : f = n
    · simp [hfn, get_mark hn, Proc.enter] at hf
    · rwa [get_mark_ne hfn] at hf
  · simp [get_mark hn, Proc.enter]
  · simp [ha]

/-- Every call marks one more procedure. -/
theorem checkActionRecurse_isSome (h : unmarked ps < k) : ∃ r, checkActionRecurse bitmap k ps n = some r := by
  induction k generalizing ps n with
  | zero => omega
  | succ k ih =>
    rw [checkActionRecurse]
    split
    · exact ⟨_, rfl⟩
    split
    · exact ⟨_, rfl⟩
    dsimp only
    split
    · exact ⟨_, rfl⟩
    next hexist hactive hret =>
      have hlt := unmarked_mark hexist (by simpa using hactive)
      have hloop : ∃ r, forEach (fun ps1 c => behind ["...called from " ++ quoted (get ps n).name]
          (checkActionRecurse bitmap k ps1 c)) (mark ps n) (get ps n).calls = some r := by
        refine forEach_isSome (I := Agree (mark ps n)) (fun c _ s hs => ?_) (Agree.refl _)
        have hsk : unmarked s < k := by
          rw [hs.unmarked]
          omega
        obtain ⟨r, hr⟩ := (behind_isSome _).mpr (ih hsk)
        exact ⟨r, hr, fun s' hok => hs.trans (checkActionRecurse_ok (behind_ok.mp (hok ▸ hr))).1⟩
      obtain ⟨r, hr⟩ := hloop
      rw [show setProc ps n Proc.enter = mark ps n from rfl, hr]
      cases r with
      | error e => exact ⟨_, rfl⟩
      | ok ps1 => exact ⟨_, rfl⟩

theorem unmarked_le (ps : List Proc) : unmarked ps ≤ ps.length := by
  unfold unmarked
  simpa using List.countP_le_length (p := fun n => !(get ps n).active) (l := ps.map Proc.name)

/-- `vcc_CheckAction` never goes deeper than there are procedures, and one more. -/
theorem checkAction_isSome (h : ps.length < k) : ∃ r, checkAction k ps = some r := by
  have hloop : ∃ r, forEach (checkMethod k) ps (ps.map Proc.name) = some r := by
    refine forEach_isSome (I := Agree ps) (fun n _ s hs => ?_) (Agree.refl ps)
    have hsk : unmarked s < k := by
      rw [hs.unmarked]
      exact Nat.lt_of_le_of_lt (unmarked_le ps) h
    have hsome : ∃ r, checkMethod k s n = some r := by
      unfold checkMethod
      split
      · exact ⟨_, rfl⟩
      · exact (behind_isSome _).mpr (checkActionRecurse_isSome hsk)
    obtain ⟨r, hr⟩ := hsome
    exact ⟨r, hr, fun s' hok => hs.trans (checkMethod_ok (hok ▸ hr)).1⟩
  obtain ⟨r, hr⟩ := hloop
  unfold checkAction
  rw [hr]
  cases r with
  | error e => exact ⟨_, rfl⟩
  | ok ps1 =>
    dsimp only
    split
    · exact ⟨_, rfl⟩
    · exact ⟨_, rfl⟩

end Ends

/-! ## The second walk -/

section Uses

variable {ps ps' : List Proc} {n f : String} {k l : ℕ} {m : Method}

/-- The procedure has a use of a variable that is not for the method. -/
def IllegalUse (ps : List Proc) (m : Method) (f : String) : Prop := ∃ pu ∈ (get ps f).uses, pu.v.methods &&& m.bitval = 0

theorem findIllegalUse_none (h : findIllegalUse (get ps n) m = none) : ¬ IllegalUse ps m n := by
  rintro ⟨pu, hpu, hbit⟩
  have := List.find?_eq_none.mp h pu hpu
  simp [hbit] at this

theorem findIllegalUse_some {pu : Use} (h : findIllegalUse (get ps n) m = some pu) : IllegalUse ps m n :=
  ⟨pu, List.mem_of_find?_eq_some h, by simpa using List.find?_some h⟩

/-- One use below a procedure is in it or below one that it calls. -/
theorem illegal_below (h : ¬ IllegalUse ps m n) : (∃ f, Chain ps n f ∧ IllegalUse ps m f) ↔
    ∃ c ∈ (get ps n).calls, ∃ f, Chain ps c f ∧ IllegalUse ps m f := by
  constructor
  · rintro ⟨f, hf, hill⟩
    rcases hf.cases with rfl | ⟨c, hc, hf⟩
    · exact absurd hill h
    · exact ⟨c, hc, f, hf, hill⟩
  · rintro ⟨c, hc, f, hf, hill⟩
    exact ⟨f, Relation.ReflTransGen.head hc hf, hill⟩

theorem checkUseRecurse_iff (h : Depth (callees ps) k n) : ∃ r, checkUseRecurse m ps k n = some r ∧
    ((∃ e, r = .error e) ↔ ∃ f, Chain ps n f ∧ IllegalUse ps m f) := by
  induction k generalizing n with
  | zero => exact h.elim
  | succ k ih =>
    rw [checkUseRecurse]
    cases huse : findIllegalUse (get ps n) m with
    | some pu => exact ⟨_, rfl, iff_of_true ⟨_, rfl⟩ ⟨n, .refl, findIllegalUse_some huse⟩⟩
    | none =>
      have hturn : ∀ c ∈ (get ps n).calls, ∃ r, checkUseRecurse m ps k c = some r := by
        intro c hc
        obtain ⟨r, hr, -⟩ := ih (h c hc)
        exact ⟨r, hr⟩
      obtain ⟨r, hr, hiff⟩ := forEach_error_iff
        (fun _ c => behind ["...called from " ++ quoted (get ps n).name] (checkUseRecurse m ps k c)) (get ps n).calls
        fun c hc => (behind_isSome _).mpr (hturn c hc)
      refine ⟨r, hr, hiff.trans ?_⟩
      rw [illegal_below (findIllegalUse_none huse)]
      refine exists_congr fun c => and_congr_right fun hc => ?_
      obtain ⟨r', hr', hiff'⟩ := ih (h c hc)
      rw [behind_error, hr', ← hiff']
      simp

theorem checkMethodUses_iff (h : ∀ m, isMethod n = some m → Depth (callees ps) k n) : ∃ r, checkMethodUses k ps n = some r ∧
    ((∃ e, r = .error e) ↔ ∃ m, isMethod n = some m ∧ ∃ f, Chain ps n f ∧ IllegalUse ps m f) := by
  unfold checkMethodUses
  cases hm : isMethod n with
  | none => exact ⟨_, rfl, by simp⟩
  | some m =>
    simp only [Option.some.injEq, exists_eq_left']
    cases huse : findIllegalUse (get ps n) m with
    | some pu => exact ⟨_, rfl, iff_of_true ⟨_, rfl⟩ ⟨n, .refl, findIllegalUse_some huse⟩⟩
    | none =>
      obtain ⟨r, hr, hiff⟩ := checkUseRecurse_iff (m := m) (h m hm)
      obtain ⟨r', hr'⟩ := (behind_isSome ["...which is the " ++ quoted m.name ++ " method"]).mpr ⟨r, hr⟩
      have herr := behind_error ["...which is the " ++ quoted m.name ++ " method"] (r := checkUseRecurse m ps k n)
      refine ⟨r', hr', ?_⟩
      rw [hr', hr] at herr
      simpa [hiff] using herr

/-- After `vcc_CheckAction` has passed, `vcc_CheckUses` ends, and it reports an error if and only if a use that is not for a
method is in a procedure that can be called from it. -/
theorem checkUses_iff (h : checkAction k ps = some (.ok ps')) (hkl : k ≤ l) : ∃ r, checkUses l ps' = some r ∧
    ((∃ e, r = .error e) ↔ ∃ n ∈ ps.map Proc.name, ∃ m, isMethod n = some m ∧ ∃ f, Chain ps n f ∧
      ∃ pu ∈ (get ps f).uses, pu.v.methods &&& m.bitval = 0) := by
  obtain ⟨hagree, hpassed⟩ := checkAction_ok h
  have hdepth : ∀ n ∈ ps.map Proc.name, ∀ m, isMethod n = some m → Depth (callees ps') l n := by
    intro n hn m hm
    rw [hagree.callees]
    exact (hpassed n hn m hm).depth.mono hkl
  have hill : ∀ m f, IllegalUse ps' m f ↔ IllegalUse ps m f := by
    intro m f
    unfold IllegalUse
    rw [hagree.uses f]
  obtain ⟨r, hr, hiff⟩ := forEach_error_iff (fun _ n => checkMethodUses l ps' n) (ps.map Proc.name) fun n hn => by
    obtain ⟨r, hr, -⟩ := checkMethodUses_iff (hdepth n hn)
    exact ⟨r, hr⟩
  refine ⟨r, ?_, hiff.trans ?_⟩
  · unfold checkUses
    rw [hagree.names]
    exact hr
  · refine exists_congr fun n => and_congr_right fun hn => ?_
    obtain ⟨r', hr', hiff'⟩ := checkMethodUses_iff (hdepth n hn)
    rw [hr']
    simp only [Option.some.injEq]
    rw [hiff', hagree.chain]
    simp only [hill]
    rfl

/-- The sub `tidy` uses a variable that `vcl_deliver` does not have. -/
def tidyProcs : List Proc :=
  [⟨"vcl_deliver", ["tidy"], [], Ret.deliver.bit, 1, 0, false⟩,
    ⟨"tidy", [], [⟨"bereq.url", ⟨"bereq.url", 0b1010110#32⟩⟩], 0, 1, 0, false⟩]

theorem checkUses_iff_tidy : ∃ ps', checkAction 3 tidyProcs = some (.ok ps') ∧ ∃ e, checkUses 3 ps' = some (.error e) := by
  have hpass : ∃ ps', checkAction 3 tidyProcs = some (.ok ps') := ⟨tidyProcs.map Proc.leave, by rfl⟩
  obtain ⟨ps', hps'⟩ := hpass
  obtain ⟨r, hr, hiff⟩ := checkUses_iff hps' (Nat.le_refl 3)
  refine ⟨ps', hps', ?_⟩
  have hcall : Chain tidyProcs "vcl_deliver" "tidy" := .single (by decide +kernel)
  obtain ⟨e, rfl⟩ := hiff.mpr ⟨"vcl_deliver", by decide +kernel, ⟨"vcl_deliver", Ret.restart.bit ||| Ret.deliver.bit, 1#32 <<< 7⟩,
    by decide +kernel, "tidy", hcall, ⟨"bereq.url", ⟨"bereq.url", 0b1010110#32⟩⟩, by decide +kernel, by decide +kernel⟩
  exact ⟨e, hr⟩

end Uses

end Varnish.Vcc
