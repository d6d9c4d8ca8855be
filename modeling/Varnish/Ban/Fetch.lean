import Varnish.Ban.Overlap

/-!
# Varnish.Ban.Fetch — the lurker and a fetch in progress (`cache_center.c`, `cache_ban.c`, `cache_hash.c`)

`cnt_fetch` for cacheable objects in its steps, from `BAN_NewObj` to `HSH_Unbusy` or `HSH_Drop`, for any number of
objects, with the steps of the turns of `ban_lurker` and of `BAN_Insert` in between.

* `FetchOk`: the assertions on `o->ban` hold, no test looks at an object without its headers, and what a ban matched is
  not served.
* `reach_fetchOk`: it holds in every state of every run in which the lurker takes no busy objcore.
* `lurker_hits_fetch`: a run in which it does.
-/

namespace Varnish.Ban

open Varnish.Lib

variable {R T : Type}

/-! ## The system -/

section Sys

/-- Where `cnt_fetch` goes on with an object; the last three are `HSH_Drop`. -/
inductive Pc where
  | fields
  | headers
  | body
  | handling
  | expInsert
  | check
  | enterUnbusy
  | unbusy
  | dropEnter
  | dropUnbusy
  | dropDeref
deriving DecidableEq

/-- Where a turn of the lurker goes on. -/
inductive Lpc where
  | walk
  | locked
  | writes
  | deref
deriving DecidableEq

/-- The bans and the objects with the check of the lurker, and for each object its objcore (`OC_F_BUSY`, `refcnt`), the
fetch, whether its headers are filled in, and whether a ban matched it; what the lurker has in its hands; for each of its
walks whether it evaluated a test, and whether the headers were filled in; whether an assertion failed. -/
structure Fetch (R T : Type) where
  checks : Over R T
  busy : ℕ → Bool
  refcnt : ℕ → ℕ
  pc : ℕ → Option Pc
  filled : ℕ → Bool
  matched : ℕ → Bool
  lurk : Option (ℕ × Lpc)
  evals : List (Bool × Bool)
  panic : Bool

def Fetch.init (R : Type) {T : Type} (now : T) : Fetch R T where
  checks := Over.init R now
  busy _ := false
  refcnt _ := 0
  pc _ := none
  filled _ := false
  matched _ := false
  lurk := none
  evals := []
  panic := false

def Fetch.setPc (s : Fetch R T) (oc : ℕ) (p : Option Pc) : Fetch R T := { s with pc := Function.update s.pc oc p }

/-- A write of `cnt_fetch` to the object. -/
def Fetch.setObj (s : Fetch R T) (oc : ℕ) (f : Object T → Object T) : Fetch R T :=
  { s with checks := { s.checks with obj := Function.update s.checks.obj oc (f (s.checks.obj oc)) } }

/-- `AN(o->ban)`. -/
def Fetch.an (s : Fetch R T) (oc : ℕ) : Fetch R T := if (s.checks.obj oc).ban = none then { s with panic := true } else s

/-- The objcore that `ban_lurker` takes: nothing is retired, the last ban is not `ban_start`, and it is the first one on
its list. -/
def lurkerPick (s : Bans R T) : Option ℕ :=
  match (banCheckLast s).1 with
  | some _ => none
  | none => do
    let b ← s.head.getLast?
    if b = s.start then none else (s.ban b).objcore.head?

/-- The walk of the lurker evaluates a test: there is a ban to look at, and it does not need a request. -/
def evaluates (s : Bans R T) : Option ℕ → Bool
  | none => false
  | some ob =>
    match walked s ob with
    | [] => false
    | b :: _ => !(s.ban b).req && !(s.ban b).tests.isEmpty

variable (vre : Vre R)

/-- `HSH_Deref`. -/
def Fetch.deref (s : Fetch R T) (oc : ℕ) : Option (Fetch R T) :=
  if s.refcnt oc = 0 then none
  else if s.refcnt oc = 1 then do
    let checks ← overStep vre s.checks (.destroyObj oc)
    some { s with checks, refcnt := Function.update s.refcnt oc 0 }
  else some { s with refcnt := Function.update s.refcnt oc (s.refcnt oc - 1) }

/-- `HSH_Drop` up to `HSH_Unbusy`. -/
def Fetch.drop (s : Fetch R T) (oc : ℕ) : Fetch R T :=
  (s.setObj oc fun o => { o with ttl := 0, cacheable := false }).setPc oc (some .dropEnter)

inductive FetchAct (R T : Type) where
  | ban (a : OverAct R T)
  | newObj (oc : ℕ)
  | fields (oc : ℕ) (ttl grace : ℤ)
  | headers (oc : ℕ) (http : Http)
  | body (oc : ℕ) (failed : Bool)
  | deliver (oc : ℕ)
  | pass (oc : ℕ) (tReq defaultTtl : ℤ)
  | drop (oc : ℕ)
  | go (oc : ℕ)
  | find
  | lurk

/-- The end of `cnt_fetch`, and of `HSH_Drop`. -/
def fetchGo (s : Fetch R T) (oc : ℕ) : Pc → Option (Fetch R T)
  | .expInsert =>
    some (if (s.checks.obj oc).cacheable then
      { s with refcnt := Function.update s.refcnt oc (s.refcnt oc + 1) }.setPc oc (some .check)
    else { s with panic := true })
  | .check => some ((s.an oc).setPc oc (some .enterUnbusy))
  | .enterUnbusy => some ((s.an oc).setPc oc (some .unbusy))
  | .unbusy => some (({ s with busy := Function.update s.busy oc false }.an oc).setPc oc none)
  | .dropEnter => some ((s.an oc).setPc oc (some .dropUnbusy))
  | .dropUnbusy => some (({ s with busy := Function.update s.busy oc false }.an oc).setPc oc (some .dropDeref))
  | .dropDeref => do
    let s ← s.deref vre oc
    some (s.setPc oc none)
  | _ => none

/-- A step of a turn of the lurker, after `HSH_FindBan`. -/
def lurkGo (s : Fetch R T) (oc : ℕ) : Lpc → Option (Fetch R T)
  | .walk => do
    let checks ← overStep vre s.checks (.walk .lurker oc ⟨none, []⟩)
    some { s with
      checks
      evals := (evaluates s.checks.bans (s.checks.obj oc).ban, s.filled oc) :: s.evals
      lurk := some (oc, if checks.chk .lurker oc = none then .deref else .locked) }
  | .locked => do
    let checks ← overStep vre s.checks (.locked .lurker oc)
    some { s with checks, lurk := some (oc, .writes) }
  | .writes => do
    let checks ← overStep vre s.checks (.writes .lurker oc)
    let r := checks.done.head?.any fun d => d.1
    some { s with checks, matched := Function.update s.matched oc (s.matched oc || r), lurk := some (oc, .deref) }
  | .deref => do
    let s ← s.deref vre oc
    some { s with lurk := none }

def fetchStep (s : Fetch R T) (a : FetchAct R T) : Option (Fetch R T) :=
  if s.panic then none
  else match a with
  | .ban a => (overStep vre s.checks a).map fun checks => { s with checks }
  | .newObj oc => do
    let (bans, o) ← banNewObj s.checks.bans { s.checks.obj oc with http := ⟨none, []⟩, ttl := 0, cacheable := false } oc
    some { s with
      checks := { s.checks with bans, obj := Function.update s.checks.obj oc o }
      busy := Function.update s.busy oc true
      refcnt := Function.update s.refcnt oc 1
      pc := Function.update s.pc oc (some .fields)
      filled := Function.update s.filled oc false
      matched := Function.update s.matched oc false }
  | .fields oc ttl grace =>
    if s.pc oc = some .fields then
      some ((s.setObj oc fun o => { o with ttl, cacheable := !(ttl == 0 && grace == 0) }).setPc oc (some .headers))
    else none
  | .headers oc http =>
    if s.pc oc = some .headers then
      some ({ s.setObj oc fun o => { o with http } with filled := Function.update s.filled oc true }.setPc oc (some .body))
    else none
  | .body oc failed =>
    if s.pc oc = some .body then some (if failed then s.drop oc else s.setPc oc (some .handling)) else none
  | .deliver oc =>
    if s.pc oc = some .handling then
      some ((s.setObj oc fun o => { o with cacheable := true }).setPc oc (some .expInsert))
    else none
  | .pass oc tReq defaultTtl =>
    if s.pc oc = some .handling then
      some ((s.setObj oc fun o => { o with
        ttl := if o.ttl - tReq < defaultTtl then tReq + defaultTtl else o.ttl
        cacheable := true }).setPc oc (some .expInsert))
    else none
  | .drop oc => if s.pc oc = some .handling then some (s.drop oc) else none
  | .go oc => do
    let p ← s.pc oc
    fetchGo vre s oc p
  | .find =>
    match lurkerPick s.checks.bans with
    | none => some s
    | some oc =>
      -- `HSH_FindBan` takes a reference if the objcore is still in the hash
      if s.refcnt oc = 0 then some s
      else some { s with refcnt := Function.update s.refcnt oc (s.refcnt oc + 1), lurk := some (oc, .walk) }
  | .lurk => do
    let (oc, l) ← s.lurk
    lurkGo vre s oc l

/-- The steps of `BAN_Insert` and `BAN_CheckLast`. -/
def isBan : OverAct R T → Bool
  | .insertHead .. | .hunt .. | .insertEnd .. | .checkLast => true
  | _ => false

/-- Who may call what: an objcore is new when its object is made, and the lurker has one in its hands at a time. -/
def FetchAct.Ok (s : Fetch R T) : FetchAct R T → Prop
  | .ban a => isBan a = true ∧ a.Ok s.checks
  | .newObj oc => s.refcnt oc = 0
  | .find => s.lurk = none
  | _ => True

/-- The condition: the lurker does not take a busy objcore. -/
def FetchAct.Safe (s : Fetch R T) : FetchAct R T → Prop
  | .find => ∀ oc ∈ lurkerPick s.checks.bans, s.busy oc = false
  | _ => True

/-- What `HSH_Lookup` asks of an object before it has it checked and may take it as a hit. -/
def servable (s : Fetch R T) (oc : ℕ) : Bool :=
  !s.busy oc && (s.checks.obj oc).cacheable && decide ((s.checks.obj oc).ttl ≠ 0)

/-- The fetch and the lurker do not disturb each other. -/
structure FetchOk (s : Fetch R T) : Prop where
  /-- The assertions of `cnt_fetch`, `EXP_Insert` and `HSH_Unbusy` hold. -/
  asserts : s.panic = false
  /-- No test is evaluated on an object whose headers are not filled in. -/
  evals : ∀ e ∈ s.evals, e.1 = true → e.2 = true
  /-- An object that a ban matched is not served. -/
  matched : ∀ oc, s.matched oc = true → servable s oc = false

end Sys

/-! ## The invariant -/

section Inv

variable {vre : Vre R} {s s' : Fetch R T} {oc : ℕ}

/-- The objcore is busy while the fetch is there. -/
def Pc.isBusy : Pc → Bool
  | .dropDeref => false
  | _ => true

/-- The headers are not filled in yet. -/
def Pc.isEarly : Pc → Bool
  | .fields => true
  | .headers => true
  | _ => false

/-- What concerns one object. -/
structure View (T : Type) where
  obj : Object T
  chk : Option Phase
  busy : Bool
  refcnt : ℕ
  pc : Option Pc
  filled : Bool
  matched : Bool
  lurk : Option Lpc

def Fetch.lurkAt (s : Fetch R T) (oc : ℕ) : Option Lpc :=
  match s.lurk with
  | some (i, l) => if i = oc then some l else none
  | none => none

def Fetch.view (s : Fetch R T) (oc : ℕ) : View T :=
  ⟨s.checks.obj oc, s.checks.chk .lurker oc, s.busy oc, s.refcnt oc, s.pc oc, s.filled oc, s.matched oc, s.lurkAt oc⟩

structure ViewOk (v : View T) : Prop where
  busy_eq : v.busy = (v.pc.map Pc.isBusy).getD false
  /-- The fetch and the lurker have a reference each. -/
  refs : v.pc.isSome.toNat + v.lurk.isSome.toNat ≤ v.refcnt
  /-- During the fetch the object is on its ban, and the lurker does not have it. -/
  fetching : v.busy = true → v.obj.ban ≠ none ∧ v.matched = false ∧ v.lurk = none
  filled : v.busy = false → 0 < v.refcnt → v.filled = true
  late : ∀ p, v.pc = some p → p.isEarly = false → v.filled = true
  matched : v.matched = true → v.obj.ttl = 0 ∧ v.obj.cacheable = false
  ready : v.pc = some .expInsert → v.obj.cacheable = true
  idle : v.lurk ≠ some .locked → v.lurk ≠ some .writes → v.chk = none
  fresh : ∀ c, v.chk = some (.walked c) → v.obj.ban = some c.ob

structure FetchInv (s : Fetch R T) : Prop where
  checks : OverInv s.checks
  client : ∀ oc, s.checks.chk .client oc = none
  lurks : (∀ oc, s.lurk ≠ some (oc, .locked) ∧ s.lurk ≠ some (oc, .writes)) → s.checks.lurks = false
  panic : s.panic = false
  evals : ∀ e ∈ s.evals, e.1 = true → e.2 = true
  view : ∀ oc, ViewOk (s.view oc)

theorem FetchInv.fetchOk (h : FetchInv s) : FetchOk s where
  asserts := h.panic
  evals := h.evals
  matched oc hm := by
    have hv := (h.view oc).matched hm
    unfold servable
    rw [show (s.checks.obj oc).cacheable = false from hv.2]
    simp

theorem fetchInv_init (R : Type) (now : T) : FetchInv (Fetch.init R now) where
  checks := overInv_init R now
  client _ := rfl
  lurks _ := rfl
  panic := rfl
  evals := by simp [Fetch.init]
  view oc := by
    refine ⟨rfl, Nat.le_refl 0, ?_, ?_, ?_, ?_, ?_, fun _ _ => rfl, ?_⟩
    all_goals simp [Fetch.view, Fetch.init, Over.init]

/-- A step on one object: the invariant of the bans, and the object itself. -/
theorem FetchInv.step (h : FetchInv s) (oc : ℕ) (hover : OverInv s'.checks) (hclient : ∀ oc, s'.checks.chk .client oc = none)
    (hlurks : (∀ oc, s'.lurk ≠ some (oc, .locked) ∧ s'.lurk ≠ some (oc, .writes)) → s'.checks.lurks = false)
    (hpanic : s'.panic = false) (hevals : ∀ e ∈ s'.evals, e.1 = true → e.2 = true)
    (hother : ∀ i, i ≠ oc → s'.view i = s.view i) (hview : ViewOk (s'.view oc)) : FetchInv s' := by
  refine ⟨hover, hclient, hlurks, hpanic, hevals, fun i => ?_⟩
  by_cases hi : i = oc
  · exact hi ▸ hview
  · rw [hother i hi]
    exact h.view i

/-- Nobody checks an object that is being fetched. -/
theorem FetchInv.idle (h : FetchInv s) (oc : ℕ) (hl : s.lurkAt oc ≠ some .locked) (hl' : s.lurkAt oc ≠ some .writes) :
    ∀ w, s.checks.chk w oc = none := by
  intro w
  cases w with
  | client => exact h.client oc
  | lurker => exact (h.view oc).idle hl hl'

/-- The steps on the bans do not touch the objects. -/
theorem overStep_ban {o o' : Over R T} {a : OverAct R T} (ha : isBan a = true) (hs : overStep vre o a = some o') :
    o'.obj = o.obj ∧ o'.chk = o.chk ∧ o'.lurks = o.lurks := by
  cases a with
  | insertHead c now dups =>
    rw [overStep] at hs
    split at hs
    all_goals
      cases hs
      exact ⟨rfl, rfl, rfl⟩
  | hunt b bi =>
    cases hs
    exact ⟨rfl, rfl, rfl⟩
  | insertEnd b be =>
    cases hs
    exact ⟨rfl, rfl, rfl⟩
  | checkLast =>
    obtain ⟨bans, -, hs⟩ := Option.bind_eq_some_iff.mp hs
    cases hs
    exact ⟨rfl, rfl, rfl⟩
  | newObj => cases ha
  | destroyObj => cases ha
  | walk => cases ha
  | locked => cases ha
  | writes => cases ha

theorem FetchInv.ban (h : FetchInv s) {a : OverAct R T} (ha : isBan a = true) (hok : a.Ok s.checks) {o : Over R T}
    (hs : overStep vre s.checks a = some o) : FetchInv { s with checks := o } := by
  obtain ⟨h1, h2, h3⟩ := overStep_ban ha hs
  have hsafe : a.Safe s.checks := by
    cases a with
    | walk => cases ha
    | locked => cases ha
    | _ => trivial
  refine ⟨overInv_step a h.checks hok hsafe hs, fun oc => by rw [h2]; exact h.client oc, fun hl => ?_, h.panic, h.evals,
    fun oc => ?_⟩
  · rw [h3]
    exact h.lurks hl
  · have hv : ({ s with checks := o } : Fetch R T).view oc = s.view oc := by
      simp [Fetch.view, Fetch.lurkAt, h1, h2]
    rw [hv]
    exact h.view oc

/-! ### The fetch -/

/-- What the fetch can write of its object. -/
def Fetch.put (s : Fetch R T) (oc : ℕ) (o : Object T) (busy : Bool) (refcnt : ℕ) (p : Option Pc) (filled : Bool) :
    Fetch R T :=
  { s with
    checks := { s.checks with obj := Function.update s.checks.obj oc o }
    busy := Function.update s.busy oc busy
    refcnt := Function.update s.refcnt oc refcnt
    pc := Function.update s.pc oc p
    filled := Function.update s.filled oc filled }

theorem setPc_eq_put (s : Fetch R T) (oc : ℕ) (p : Option Pc) :
    s.setPc oc p = s.put oc (s.checks.obj oc) (s.busy oc) (s.refcnt oc) p (s.filled oc) := by
  simp [Fetch.setPc, Fetch.put]

theorem setObj_setPc_eq_put (s : Fetch R T) (oc : ℕ) (f : Object T → Object T) (p : Option Pc) :
    (s.setObj oc f).setPc oc p = s.put oc (f (s.checks.obj oc)) (s.busy oc) (s.refcnt oc) p (s.filled oc) := by
  simp [Fetch.setObj, Fetch.setPc, Fetch.put]

/-- A busy objcore has an object on a ban, which the lurker does not have. -/
theorem FetchInv.busy (h : FetchInv s) (hb : s.busy oc = true) :
    (s.checks.obj oc).ban ≠ none ∧ s.matched oc = false ∧ s.lurkAt oc = none :=
  (h.view oc).fetching hb

theorem FetchInv.an (h : FetchInv s) (hb : s.busy oc = true) : s.an oc = s := if_neg (h.busy hb).1

theorem FetchInv.put (h : FetchInv s) {o : Object T} {b : Bool} {n : ℕ} {p : Option Pc} {g : Bool}
    (hb : s.busy oc = true) (ho : o.ban = (s.checks.obj oc).ban) (hv : ViewOk ⟨o, none, b, n, p, g, false, none⟩) :
    FetchInv (s.put oc o b n p g) := by
  obtain ⟨hban, hm, hl⟩ := h.busy hb
  have hidle : ∀ w, s.checks.chk w oc = none := h.idle oc (by simp [hl]) (by simp [hl])
  refine h.step oc ?_ h.client h.lurks h.panic h.evals (fun i hi => ?_) ?_
  · refine h.checks.setObj hidle (same_refl _) ?_ fun b hbb => ?_
    · rw [ho, ← refers_of_idle hidle, Function.update_eq_self]
      exact h.checks.counts
    · rw [ho, ← refers_of_idle hidle] at hbb
      exact h.checks.kept oc b hbb
  · simp [Fetch.view, Fetch.put, Fetch.lurkAt, hi]
  · have : (s.put oc o b n p g).view oc = ⟨o, none, b, n, p, g, false, none⟩ := by
      have hl' : (s.put oc o b n p g).lurkAt oc = none := hl
      simp [Fetch.view, hl']
      simp [Fetch.put, hidle, hm]
    rw [this]
    exact hv

/-- A step of `cnt_fetch` while the objcore is busy. -/
theorem FetchInv.put_busy (h : FetchInv s) (p' : Pc) {o : Object T} {n : ℕ} {p : Pc} {g : Bool} (hp : s.pc oc = some p)
    (hpb : p.isBusy = true) (hpb' : p'.isBusy = true) (ho : o.ban = (s.checks.obj oc).ban) (hn : s.refcnt oc ≤ n)
    (hg : p'.isEarly = false → g = true) (hr : p' = .expInsert → o.cacheable = true) :
    FetchInv (s.put oc o (s.busy oc) n (some p') g) := by
  have hv := h.view oc
  have hb : s.busy oc = true := by
    have := hv.busy_eq
    simpa [Fetch.view, hp, hpb] using this
  have hrefs : 1 ≤ s.refcnt oc := by
    have := hv.refs
    simp only [Fetch.view, hp] at this
    simp at this
    omega
  refine h.put hb ho ⟨by simp [hb, hpb'], ?_, ?_, ?_, ?_, ?_, ?_, fun _ _ => rfl, ?_⟩
  · simp
    omega
  · intro _
    exact ⟨by rw [ho]; exact (h.busy hb).1, rfl, rfl⟩
  · simp [hb]
  · rintro q hq hearly
    cases hq
    exact hg hearly
  · simp
  · rintro hq
    cases hq
    exact hr rfl
  · simp

/-- The objcore is not busy any more. -/
theorem FetchInv.unbusy (h : FetchInv s) {p : Pc} {q : Option Pc} (hp : s.pc oc = some p) (hpb : p.isBusy = true)
    (hpe : p.isEarly = false) (hq : (q.map Pc.isBusy).getD false = false) (hqi : q ≠ some .expInsert) :
    FetchInv (({ s with busy := Function.update s.busy oc false }.an oc).setPc oc q) := by
  have hv := h.view oc
  have hb : s.busy oc = true := by
    have := hv.busy_eq
    simpa [Fetch.view, hp, hpb] using this
  have hfilled : s.filled oc = true := hv.late p hp hpe
  have hrefs := hv.refs
  simp only [Fetch.view, hp, (h.busy hb).2.2] at hrefs
  have han : ({ s with busy := Function.update s.busy oc false } : Fetch R T).an oc =
      { s with busy := Function.update s.busy oc false } := if_neg (h.busy hb).1
  have heq : ({ s with busy := Function.update s.busy oc false } : Fetch R T).setPc oc q =
      s.put oc (s.checks.obj oc) false (s.refcnt oc) q true := by
    simp [Fetch.setPc, Fetch.put, ← hfilled]
  rw [han, heq]
  refine h.put hb rfl ⟨hq.symm, ?_, ?_, fun _ _ => rfl, fun _ _ _ => rfl, ?_, fun hq => absurd hq hqi, fun _ _ => rfl, ?_⟩
  · have hle := q.isSome.toNat_le
    simp at hrefs ⊢
    omega
  · simp
  · simp
  · simp

/-- `HSH_Deref` of an object that nobody checks if the reference is the last one. -/
theorem FetchInv.deref_spec (h : FetchInv s) (hidle : s.refcnt oc = 1 → ∀ w, s.checks.chk w oc = none)
    (hs : s.deref vre oc = some s') :
    ∃ o : Over R T, s' = { s with checks := o, refcnt := Function.update s.refcnt oc (s.refcnt oc - 1) } ∧ OverInv o ∧
      o.chk = s.checks.chk ∧ o.lurks = s.checks.lurks ∧ (∀ i, i ≠ oc → o.obj i = s.checks.obj i) ∧
      (o.obj oc).ttl = (s.checks.obj oc).ttl ∧ (o.obj oc).cacheable = (s.checks.obj oc).cacheable ∧
      (s.refcnt oc ≠ 1 → o = s.checks) := by
  unfold Fetch.deref at hs
  split_ifs at hs with h0 h1
  · obtain ⟨o, ho, hs⟩ := Option.bind_eq_some_iff.mp hs
    cases hs
    have hinv := overInv_step (.destroyObj oc) h.checks (hidle h1) trivial ho
    obtain ⟨⟨bans, x⟩, hd, ho⟩ := Option.bind_eq_some_iff.mp ho
    cases ho
    have hx : x.ttl = (s.checks.obj oc).ttl ∧ x.cacheable = (s.checks.obj oc).cacheable := by
      unfold banDestroyObj at hd
      split at hd
      · cases hd
        exact ⟨rfl, rfl⟩
      · split_ifs at hd
        obtain ⟨bs1, -, hd⟩ := Option.bind_eq_some_iff.mp hd
        obtain ⟨bs2, -, hd⟩ := Option.bind_eq_some_iff.mp hd
        cases hd
        exact ⟨rfl, rfl⟩
    refine ⟨_, by rw [h1], hinv, rfl, rfl, fun i hi => ?_, ?_, ?_, fun hn => absurd h1 hn⟩
    · simp [hi]
    · simpa using hx.1
    · simpa using hx.2
  · cases hs
    exact ⟨s.checks, rfl, h.checks, rfl, rfl, fun _ _ => rfl, rfl, rfl, fun _ => rfl⟩

theorem FetchInv.dropDeref (h : FetchInv s) (hp : s.pc oc = some .dropDeref) (hs : s.deref vre oc = some s') :
    FetchInv (s'.setPc oc none) := by
  have hv := h.view oc
  have hb : s.busy oc = false := by
    have := hv.busy_eq
    simpa [Fetch.view, hp, Pc.isBusy] using this
  have hrefs := hv.refs
  simp only [Fetch.view, hp] at hrefs
  have hnolurk : s.refcnt oc = 1 → s.lurkAt oc = none := fun h1 => by
    have hle : (s.lurkAt oc).isSome.toNat = 0 := by
      simp only [Option.isSome_some, Bool.toNat_true] at hrefs
      omega
    simpa using hle
  have hidle : s.refcnt oc = 1 → ∀ w, s.checks.chk w oc = none := fun h1 =>
    h.idle oc (by simp [hnolurk h1]) (by simp [hnolurk h1])
  obtain ⟨o, rfl, hinv, hchk, hlurks, hobj, httl, hca, hsame⟩ := h.deref_spec hidle hs
  refine h.step oc hinv (fun i => by change o.chk _ _ = _; rw [hchk]; exact h.client i) (fun hl => ?_) h.panic
    h.evals (fun i hi => ?_) ?_
  · change o.lurks = false
    rw [hlurks]
    exact h.lurks hl
  · simp [Fetch.view, Fetch.setPc, Fetch.lurkAt, hi, hobj i hi, hchk]
  · have hview : (({ s with checks := o, refcnt := Function.update s.refcnt oc (s.refcnt oc - 1) } : Fetch R T).setPc oc
        none).view oc =
        ⟨o.obj oc, s.checks.chk .lurker oc, false, s.refcnt oc - 1, none, s.filled oc, s.matched oc, s.lurkAt oc⟩ := by
      simp [Fetch.view, Fetch.setPc, Fetch.lurkAt, hchk, hb]
    rw [hview]
    refine ⟨rfl, ?_, ?_, fun _ _ => hv.late _ hp rfl, ?_, fun hm => ?_, ?_, hv.idle, fun c hc => ?_⟩
    · simp at hrefs ⊢
      omega
    · simp
    · simp
    · have := hv.matched hm
      exact ⟨httl.trans this.1, hca.trans this.2⟩
    · simp
    · have hne : s.refcnt oc ≠ 1 := fun h1 => by
        rw [hidle h1 .lurker] at hc
        cases hc
      rw [hsame hne]
      exact hv.fresh c hc

/-! ### The lurker -/

theorem lurkAt_self {l : Lpc} (hl : s.lurk = some (oc, l)) : s.lurkAt oc = some l := by
  simp [Fetch.lurkAt, hl]

theorem FetchInv.newObj (h : FetchInv s) (h0 : s.refcnt oc = 0) (ho : (s.checks.obj oc).ban = none) {o : Object T}
    (hb : o.ban = some s.checks.bans.start) :
    FetchInv { s with
      checks := { s.checks with bans := s.checks.bans.attach s.checks.bans.start oc, obj := Function.update s.checks.obj oc o }
      busy := Function.update s.busy oc true
      refcnt := Function.update s.refcnt oc 1
      pc := Function.update s.pc oc (some .fields)
      filled := Function.update s.filled oc false
      matched := Function.update s.matched oc false } := by
  have hrefs := (h.view oc).refs
  have hlurk : s.lurkAt oc = none := by
    by_contra hl
    simp [Fetch.view, hl, h0] at hrefs
  have hidle : ∀ w, s.checks.chk w oc = none := h.idle oc (by simp [hlurk]) (by simp [hlurk])
  refine h.step oc (h.checks.newObj hidle ho hb) h.client h.lurks h.panic h.evals (fun i hi => ?_) ?_
  · simp [Fetch.view, Fetch.lurkAt, hi]
  · have hview : Fetch.view { s with
        checks := { s.checks with bans := s.checks.bans.attach s.checks.bans.start oc, obj := Function.update s.checks.obj oc o }
        busy := Function.update s.busy oc true
        refcnt := Function.update s.refcnt oc 1
        pc := Function.update s.pc oc (some .fields)
        filled := Function.update s.filled oc false
        matched := Function.update s.matched oc false } oc =
        ⟨o, none, true, 1, some .fields, false, false, none⟩ := by
      simp only [Fetch.view, Function.update_self, hidle, View.mk.injEq, true_and]
      exact hlurk
    rw [hview]
    refine ⟨rfl, by simp, fun _ => ⟨by simp [hb], rfl, rfl⟩, ?_, ?_, ?_, ?_, fun _ _ => rfl, ?_⟩
    · simp
    · rintro p hp hearly
      cases hp
      cases hearly
    · simp
    · simp
    · simp

theorem FetchInv.find (h : FetchInv s) (hl : s.lurk = none) (h0 : s.refcnt oc ≠ 0) (hb : s.busy oc = false) :
    FetchInv { s with refcnt := Function.update s.refcnt oc (s.refcnt oc + 1), lurk := some (oc, .walk) } := by
  have hv := h.view oc
  have hlurk : ∀ i, s.lurkAt i = none := fun i => by simp [Fetch.lurkAt, hl]
  refine h.step oc h.checks h.client (fun _ => h.lurks (by simp [hl])) h.panic h.evals (fun i hi => ?_) ?_
  · simp [Fetch.view, Fetch.lurkAt, hi, hl, Ne.symm hi]
  · have hview : Fetch.view
        { s with refcnt := Function.update s.refcnt oc (s.refcnt oc + 1), lurk := some (oc, .walk) } oc =
        { s.view oc with refcnt := s.refcnt oc + 1, lurk := some .walk } := by
      simp [Fetch.view, Fetch.lurkAt]
    rw [hview]
    have hrefs : (s.pc oc).isSome.toNat ≤ s.refcnt oc := by simpa [Fetch.view, hlurk] using hv.refs
    refine ⟨hv.busy_eq, by simpa [Fetch.view] using hrefs, ?_, fun hb _ => hv.filled hb (Nat.pos_of_ne_zero h0), hv.late, hv.matched, hv.ready,
      fun _ _ => ?_, hv.fresh⟩
    · simp [Fetch.view, hb]
    · exact hv.idle (by simp [Fetch.view, hlurk]) (by simp [Fetch.view, hlurk])

/-- What the lurker has is complete. -/
theorem FetchInv.taken (h : FetchInv s) {l : Lpc} (hl : s.lurk = some (oc, l)) :
    s.busy oc = false ∧ 0 < s.refcnt oc ∧ s.filled oc = true := by
  have hv := h.view oc
  have hat := lurkAt_self hl
  have hb : s.busy oc = false := by
    by_contra hb
    have := (h.busy (by simpa using hb)).2.2
    rw [hat] at this
    cases this
  have hrefs : 0 < s.refcnt oc := by
    have := hv.refs
    simp [Fetch.view, hat] at this
    omega
  exact ⟨hb, hrefs, hv.filled hb hrefs⟩

/-- A step of the check of the lurker: only its own object and its own check change. -/
theorem FetchInv.lurkStep (h : FetchInv s) (l' : Lpc) {l : Lpc} {o : Over R T} {m : Bool} {ev : List (Bool × Bool)}
    (hl : s.lurk = some (oc, l)) (hover : OverInv o) (hclient : ∀ i, o.chk .client i = none)
    (hother : ∀ i, i ≠ oc → o.obj i = s.checks.obj i ∧ o.chk .lurker i = s.checks.chk .lurker i)
    (hlurks : l' ≠ .locked → l' ≠ .writes → o.lurks = false ∧ o.chk .lurker oc = none)
    (hev : ∀ e ∈ ev, e.1 = true → e.2 = true)
    (hm : m = true → (o.obj oc).ttl = 0 ∧ (o.obj oc).cacheable = false)
    (hfresh : ∀ c, o.chk .lurker oc = some (.walked c) → (o.obj oc).ban = some c.ob)
    (hready : s.pc oc = some .expInsert → (o.obj oc).cacheable = true) :
    FetchInv { s with checks := o, evals := ev, matched := Function.update s.matched oc m, lurk := some (oc, l') } := by
  have hv := h.view oc
  have hat := lurkAt_self hl
  obtain ⟨hb, hpos, hfilled⟩ := h.taken hl
  refine h.step oc hover hclient (fun hn => (hlurks ?_ ?_).1) h.panic hev (fun i hi => ?_) ?_
  · rintro rfl
    exact (hn oc).1 rfl
  · rintro rfl
    exact (hn oc).2 rfl
  · simp [Fetch.view, Fetch.lurkAt, hi, hl, Ne.symm hi, hother i hi]
  · have hview : Fetch.view
        { s with checks := o, evals := ev, matched := Function.update s.matched oc m, lurk := some (oc, l') } oc =
        ⟨o.obj oc, o.chk .lurker oc, s.busy oc, s.refcnt oc, s.pc oc, s.filled oc, m, some l'⟩ := by
      simp [Fetch.view, Fetch.lurkAt]
    rw [hview]
    have hrefs := hv.refs
    simp only [Fetch.view, hat] at hrefs
    refine ⟨hv.busy_eq, by simpa using hrefs, ?_, fun _ _ => hfilled, hv.late, hm, hready, fun h1 h2 => ?_, hfresh⟩
    · simp [hb]
    · exact (hlurks (fun he => h1 (by rw [he])) fun he => h2 (by rw [he])).2

theorem FetchInv.lurk_walk (h : FetchInv s) (hl : s.lurk = some (oc, .walk)) (hs : lurkGo vre s oc .walk = some s') :
    FetchInv s' := by
  have hv := h.view oc
  have hat := lurkAt_self hl
  have hidle := h.idle oc (by simp [hat]) (by simp [hat])
  have hlurks : s.checks.lurks = false := h.lurks (by simp [hl])
  obtain ⟨o, ho, hs⟩ := Option.bind_eq_some_iff.mp hs
  cases hs
  have hinv := overInv_step (.walk .lurker oc ⟨none, []⟩) h.checks ⟨hidle .lurker, fun _ => hlurks⟩
    (congrArg isMoved (hidle .client)) ho
  have hev : ∀ e ∈ (evaluates s.checks.bans (s.checks.obj oc).ban, s.filled oc) :: s.evals, e.1 = true → e.2 = true := by
    intro e he
    rcases List.mem_cons.mp he with rfl | he
    · exact fun _ => (h.taken hl).2.2
    · exact h.evals e he
  have hm : s.matched oc = true → (s.checks.obj oc).ttl = 0 ∧ (s.checks.obj oc).cacheable = false := hv.matched
  obtain ⟨ob, hob, ho⟩ := Option.bind_eq_some_iff.mp ho
  obtain ⟨w, hw, ho⟩ := Option.bind_eq_some_iff.mp ho
  cases w with
  | clean =>
    cases ho
    have := h.lurkStep .deref hl hinv h.client (fun _ _ => ⟨rfl, rfl⟩)
      (fun _ _ => ⟨hlurks, hidle .lurker⟩) hev hm hv.fresh hv.ready
    rw [Function.update_eq_self] at this
    simpa [hidle] using this
  | «section» b0 b =>
    cases ho
    have := h.lurkStep .locked hl hinv (fun i => ?_) (fun i hi => ⟨rfl, setChk_of_ne _ _ _ hi _⟩)
      (fun h1 => absurd rfl h1) hev hm (fun c hc => ?_) hv.ready
    · rw [Function.update_eq_self] at this
      simpa [setChk_self] using this
    · simpa [Over.setChk] using h.client i
    · rw [setChk_self] at hc
      cases hc
      exact hob

theorem FetchInv.lurk_locked (h : FetchInv s) (hl : s.lurk = some (oc, .locked))
    (hs : lurkGo vre s oc .locked = some s') : FetchInv s' := by
  have hv := h.view oc
  obtain ⟨o, ho, hs⟩ := Option.bind_eq_some_iff.mp hs
  cases hs
  have hfresh : Fresh s.checks oc (s.checks.chk .lurker oc) := by
    match hc : s.checks.chk .lurker oc with
    | none => trivial
    | some (.moved c d) => trivial
    | some (.walked c) => exact hv.fresh c hc
  have hinv := overInv_step (.locked .lurker oc) h.checks trivial ⟨congrArg isMoved (h.client oc), hfresh⟩ ho
  rw [overStep] at ho
  split at ho
  · obtain ⟨bans, -, ho⟩ := Option.bind_eq_some_iff.mp ho
    cases ho
    have := h.lurkStep (m := s.matched oc) .writes hl hinv (fun i => ?_) (fun i hi => ⟨rfl, setChk_of_ne _ _ _ hi _⟩)
      (fun _ h2 => absurd rfl h2) h.evals hv.matched (fun c hc => ?_) hv.ready
    · rwa [Function.update_eq_self] at this
    · simpa [Over.setChk] using h.client i
    · rw [setChk_self] at hc
      cases hc
  · cases ho

theorem checkWrites_fields {bans : Bans R T} {o o' : Object T} {b0 b : ℕ} {r : Bool}
    (h : checkWrites bans o b0 b = (o', r)) :
    if r then o'.ttl = 0 ∧ o'.cacheable = false else o'.ttl = o.ttl ∧ o'.cacheable = o.cacheable := by
  unfold checkWrites at h
  split_ifs at h
  all_goals
    cases h
    exact ⟨rfl, rfl⟩

theorem FetchInv.lurk_writes (h : FetchInv s) (hl : s.lurk = some (oc, .writes))
    (hs : lurkGo vre s oc .writes = some s') : FetchInv s' := by
  have hv := h.view oc
  have hb := (h.taken hl).1
  obtain ⟨o, ho, hs⟩ := Option.bind_eq_some_iff.mp hs
  cases hs
  have hinv := overInv_step (.writes .lurker oc) h.checks trivial trivial ho
  rw [overStep] at ho
  split at ho
  · rename_i c d hc
    cases hcw : checkWrites s.checks.bans (s.checks.obj oc) c.b0 c.b with
    | mk x r => ?_
    rw [hcw] at ho
    cases ho
    have hx := checkWrites_fields hcw
    refine h.lurkStep .deref hl hinv (fun i => ?_) (fun i hi => ⟨?_, setChk_of_ne _ _ _ hi _⟩) (fun _ _ => ?_)
      h.evals (fun hm => ?_) (fun c hc => ?_) fun hp => ?_
    · simpa [Over.setChk] using h.client i
    · simp [Over.setChk, hi]
    · exact ⟨by simp [Over.setChk], setChk_self ..⟩
    · simp only [Over.setChk, Function.update_self]
      simp only [Over.setChk, List.head?_cons, Option.any_some, Bool.or_eq_true] at hm
      cases r with
      | true => exact hx
      | false =>
        have hold := hv.matched (hm.resolve_right Bool.false_ne_true)
        exact ⟨hx.1.trans hold.1, hx.2.trans hold.2⟩
    · rw [setChk_self] at hc
      cases hc
    · -- an object whose fetch is at `EXP_Insert` is busy
      have := hv.busy_eq
      rw [show (s.view oc).pc = some .expInsert from hp, show (s.view oc).busy = false from hb] at this
      cases this
  · cases ho

theorem FetchInv.lurk_deref (h : FetchInv s) (hl : s.lurk = some (oc, .deref)) (hs : s.deref vre oc = some s') :
    FetchInv { s' with lurk := none } := by
  have hv := h.view oc
  have hat := lurkAt_self hl
  have hidle := h.idle oc (by simp [hat]) (by simp [hat])
  have hlurks : s.checks.lurks = false := h.lurks (by simp [hl])
  obtain ⟨hb, hpos, hfilled⟩ := h.taken hl
  have hrefs := hv.refs
  simp only [Fetch.view, hat, Option.isSome_some, Bool.toNat_true] at hrefs
  obtain ⟨o, rfl, hinv, hchk, hlk, hobj, httl, hca, hsame⟩ := h.deref_spec (fun _ => hidle) hs
  refine h.step oc hinv (fun i => by change o.chk _ _ = _; rw [hchk]; exact h.client i)
    (fun _ => hlk.trans hlurks) h.panic h.evals (fun i hi => ?_) ?_
  · simp [Fetch.view, Fetch.lurkAt, hi, hobj i hi, hchk, hl, Ne.symm hi]
  · have hview : Fetch.view { s with
        checks := o, refcnt := Function.update s.refcnt oc (s.refcnt oc - 1), lurk := none } oc =
        ⟨o.obj oc, none, false, s.refcnt oc - 1, s.pc oc, true, s.matched oc, none⟩ := by
      simp [Fetch.view, Fetch.lurkAt, hchk, hidle, hb, hfilled]
    rw [hview]
    refine ⟨?_, ?_, ?_, fun _ _ => rfl, fun _ _ _ => rfl, fun hm => ?_, fun hp => ?_, fun _ _ => rfl, ?_⟩
    · exact hb.symm.trans hv.busy_eq
    · simp
      omega
    · simp
    · have := hv.matched hm
      exact ⟨httl.trans this.1, hca.trans this.2⟩
    · exact hca.trans (hv.ready hp)
    · simp

end Inv

/-! ## Whole runs -/

section Runs

variable {vre : Vre R} {s s' : Fetch R T}

/-- The writes of `cnt_fetch` to its object. -/
theorem FetchInv.cntFetch (h : FetchInv s) {oc : ℕ} {p p' : Pc} (hp : s.pc oc = some p) (hpb : p.isBusy = true)
    (hpb' : p'.isBusy = true) {f : Object T → Object T} (hf : ∀ o, (f o).ban = o.ban)
    (hg : p'.isEarly = false → p.isEarly = false) (hr : p' = .expInsert → (f (s.checks.obj oc)).cacheable = true) :
    FetchInv ((s.setObj oc f).setPc oc (some p')) := by
  rw [setObj_setPc_eq_put]
  exact h.put_busy _ hp hpb hpb' (hf _) (le_refl _) (fun he => (h.view oc).late p hp (hg he)) hr

theorem FetchInv.go (h : FetchInv s) {oc : ℕ} {p : Pc} (hp : s.pc oc = some p) (hs : fetchGo vre s oc p = some s') :
    FetchInv s' := by
  have hv := h.view oc
  have hbusy : p.isBusy = true → s.busy oc = true := fun hpb => by
    have := hv.busy_eq
    simpa [Fetch.view, hp, hpb] using this
  have hstep : ∀ p' : Pc, p.isBusy = true → p.isEarly = false → p'.isBusy = true → p' ≠ .expInsert →
      FetchInv ((s.an oc).setPc oc (some p')) := fun p' hpb hpe hpb' hne => by
    rw [h.an (hbusy hpb), setPc_eq_put]
    exact h.put_busy _ hp hpb hpb' rfl (le_refl _) (fun _ => hv.late p hp hpe) fun he => absurd he hne
  cases p with
  | expInsert =>
    have hca : (s.checks.obj oc).cacheable = true := hv.ready hp
    rw [fetchGo, Option.some_inj, if_pos hca] at hs
    subst hs
    have := h.put_busy .check (n := s.refcnt oc + 1) (g := s.filled oc) (o := s.checks.obj oc) hp rfl rfl rfl
      (Nat.le_succ _) (fun _ => hv.late _ hp rfl) fun he => (by cases he)
    simpa [Fetch.put, Fetch.setPc] using this
  | check =>
    cases hs
    exact hstep .enterUnbusy rfl rfl rfl (by decide)
  | enterUnbusy =>
    cases hs
    exact hstep .unbusy rfl rfl rfl (by decide)
  | unbusy =>
    cases hs
    exact h.unbusy hp rfl rfl rfl (by simp)
  | dropEnter =>
    cases hs
    exact hstep .dropUnbusy rfl rfl rfl (by decide)
  | dropUnbusy =>
    cases hs
    exact h.unbusy hp rfl rfl rfl (by simp)
  | dropDeref =>
    obtain ⟨s1, hs1, hs⟩ := Option.bind_eq_some_iff.mp hs
    cases hs
    exact h.dropDeref hp hs1
  | fields => cases hs
  | headers => cases hs
  | body => cases hs
  | handling => cases hs

theorem fetchInv_step (a : FetchAct R T) (h : FetchInv s) (hok : a.Ok s) (hsafe : a.Safe s)
    (hs : fetchStep vre s a = some s') : FetchInv s' := by
  unfold fetchStep at hs
  rw [if_neg (by simp [h.panic])] at hs
  cases a with
  | ban a =>
    obtain ⟨o, ho, rfl⟩ := Option.map_eq_some_iff.mp hs
    exact h.ban hok.1 hok.2 ho
  | newObj oc =>
    obtain ⟨⟨bans, o⟩, hn, hs⟩ := Option.bind_eq_some_iff.mp hs
    cases hs
    unfold banNewObj at hn
    split_ifs at hn with ho
    cases hn
    exact h.newObj hok ho rfl
  | fields oc ttl grace =>
    dsimp only at hs
    split_ifs at hs with hp
    cases hs
    exact h.cntFetch hp rfl rfl (fun _ => rfl) (fun he => (by cases he)) fun he => (by cases he)
  | headers oc http =>
    dsimp only at hs
    split_ifs at hs with hp
    cases hs
    have := h.put_busy .body (n := s.refcnt oc) (g := true) (o := { s.checks.obj oc with http }) hp rfl rfl rfl
      (le_refl _) (fun _ => rfl) fun he => (by cases he)
    simpa [Fetch.put, Fetch.setPc, Fetch.setObj] using this
  | body oc failed =>
    dsimp only at hs
    split_ifs at hs with hp hf
    · cases hs
      exact h.cntFetch hp rfl rfl (fun _ => rfl) (fun _ => rfl) fun he => (by cases he)
    · cases hs
      rw [setPc_eq_put]
      exact h.put_busy _ hp rfl rfl rfl (le_refl _) (fun _ => (h.view oc).late _ hp rfl) fun he => (by cases he)
  | deliver oc =>
    dsimp only at hs
    split_ifs at hs with hp
    cases hs
    exact h.cntFetch hp rfl rfl (fun _ => rfl) (fun _ => rfl) fun _ => rfl
  | pass oc tReq defaultTtl =>
    dsimp only at hs
    split_ifs at hs with hp
    cases hs
    exact h.cntFetch hp rfl rfl (fun _ => rfl) (fun _ => rfl) fun _ => rfl
  | drop oc =>
    dsimp only at hs
    split_ifs at hs with hp
    cases hs
    exact h.cntFetch hp rfl rfl (fun _ => rfl) (fun _ => rfl) fun he => (by cases he)
  | go oc =>
    obtain ⟨p, hp, hs⟩ := Option.bind_eq_some_iff.mp hs
    exact h.go hp hs
  | find =>
    dsimp only at hs
    split at hs
    · cases hs
      exact h
    · rename_i oc hpick
      split_ifs at hs with h0
      · cases hs
        exact h
      · cases hs
        exact h.find hok h0 (hsafe oc hpick)
  | lurk =>
    obtain ⟨⟨oc, l⟩, hl, hs⟩ := Option.bind_eq_some_iff.mp hs
    cases l with
    | walk => exact h.lurk_walk hl hs
    | locked => exact h.lurk_locked hl hs
    | writes => exact h.lurk_writes hl hs
    | deref =>
      obtain ⟨s1, hs1, hs⟩ := Option.bind_eq_some_iff.mp hs
      cases hs
      exact h.lurk_deref hl hs1

/-- **The fetch and the lurker do not disturb each other** in any run in which the lurker takes no busy objcore. -/
theorem reach_fetchOk (vre : Vre R) (now : T) {s : Fetch R T}
    (h : Reach (fetchStep vre) (fun s a => a.Ok s ∧ a.Safe s) (Fetch.init R now) s) : FetchOk s :=
  (h.inv (I := FetchInv) (fetchInv_init R now) fun _ a _ hi hok hs => fetchInv_step a hi hok.1 hok.2 hs).fetchOk

instance FetchAct.decOk (s : Fetch R T) : (a : FetchAct R T) → Decidable (a.Ok s)
  | .ban a => inferInstanceAs (Decidable (isBan a = true ∧ a.Ok s.checks))
  | .newObj oc => inferInstanceAs (Decidable (s.refcnt oc = 0))
  | .find => inferInstanceAs (Decidable (s.lurk = none))
  | .fields .. | .headers .. | .body .. | .deliver _ | .pass .. | .drop _ | .go _ | .lurk => isTrue trivial

instance FetchAct.decSafe (s : Fetch R T) : (a : FetchAct R T) → Decidable (a.Safe s)
  | .find => inferInstanceAs (Decidable (∀ oc ∈ lurkerPick s.checks.bans, s.busy oc = false))
  | .ban _ | .newObj _ | .fields .. | .headers .. | .body .. | .deliver _ | .pass .. | .drop _ | .go _ | .lurk =>
    isTrue trivial

/-- A ban on all objects without `a: c`, which also matches an object without headers. -/
def banNotA : BanSpec Str := ⟨[⟨.objHttp "a".toList, true, .dst "c".toList⟩], false, "obj.http.a != c".toList⟩

/-- Two fetches, one of which fails after its headers came; the lurker comes when they are done. -/
def patientRun : List (FetchAct Str ℕ) :=
  [.newObj 0, .newObj 1, .fields 0 10 0, .ban (.insertHead banNotA 1 false), .headers 0 ⟨none, [some "a: b".toList]⟩,
    .body 0 false, .fields 1 10 0, .deliver 0, .go 0, .headers 1 ⟨none, [some "a: c".toList]⟩, .go 0, .go 0, .go 0, .find,
    .lurk, .body 1 true, .go 1, .lurk, .go 1, .lurk, .go 1, .lurk]

theorem reach_fetchOk_patientRun : ∃ s : Fetch Str ℕ,
    Reach (fetchStep plainVre) (fun s a => a.Ok s ∧ a.Safe s) (Fetch.init Str 0) s ∧ FetchOk s ∧
    s.matched 0 = true ∧ s.refcnt 1 = 0 := by
  have hres : (patientRun.foldlM (fetchStep plainVre) (Fetch.init Str 0)).map (fun s => (s.matched 0, s.refcnt 1)) =
      some (true, 0) := by decide +kernel
  obtain ⟨s, hs, hc⟩ := Option.map_eq_some_iff.mp hres
  obtain ⟨h1, h2⟩ := Prod.mk.inj hc
  have hreach : Reach (fetchStep plainVre) (fun s a => a.Ok s ∧ a.Safe s) (Fetch.init Str 0) s :=
    Reach.of_run (by decide +kernel) hs
  exact ⟨s, hreach, reach_fetchOk plainVre 0 hreach, h1, h2⟩

/-- The lurker comes right after `BAN_NewObj`. -/
def hastyRun : List (FetchAct Str ℕ) :=
  [.newObj 0, .ban (.insertHead banNotA 1 false), .find, .lurk, .lurk, .lurk, .fields 0 10 0,
    .headers 0 ⟨none, [some "a: c".toList]⟩, .body 0 false, .deliver 0, .go 0, .go 0]

/-- The ban is tested on an object without headers, and the assertion of `cnt_fetch` on `o->ban` fails. -/
theorem lurker_hits_fetch : ∃ s : Fetch Str ℕ,
    Reach (fetchStep plainVre) (fun s a => a.Ok s) (Fetch.init Str 0) s ∧ ¬ FetchOk s ∧
    s.panic = true ∧ s.evals = [(true, false)] := by
  have hres : (hastyRun.foldlM (fetchStep plainVre) (Fetch.init Str 0)).map (fun s => (s.panic, s.evals)) =
      some (true, [(true, false)]) := by decide +kernel
  obtain ⟨s, hs, hc⟩ := Option.map_eq_some_iff.mp hres
  obtain ⟨h1, h2⟩ := Prod.mk.inj hc
  refine ⟨s, Reach.of_run (by decide +kernel) hs, fun hok => ?_, h1, h2⟩
  have := hok.asserts
  rw [h1] at this
  cases this

end Runs

end Varnish.Ban
