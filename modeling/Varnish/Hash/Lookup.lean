import Varnish.Ban.Count
import Varnish.Hash.Model
import Varnish.Http.Vary

/-!
# Varnish.Hash.Lookup — which object `HSH_Lookup` takes (`cache_hash.c`)

* `lookLoop`, `lookup`: the function, with the objects, the bans and `Vary`.
* `fitOf`: what the loop makes of an object, from the objects before the call.
* `lookup_choose`: the function is `choose` over `fitOf`.
* `Right`: what the choice should be.  `lookup_right`: it is, if and only if the last object within its own grace is `LastEnough`.
-/

namespace Varnish.Hash

open Varnish.Ban Varnish.Http Varnish.Lib

variable {R T : Type}

/-! ## The function -/

section Function

/-- What `HSH_Lookup` reads and writes of `struct object`; a `grace` that is not a number is none. -/
structure Obj (T : Type) extends Ban.Object T where
  vary : Option Str
  grace : Option ℤ
  hits : ℕ

/-- `struct objcore` with its object; `ban` is for an object that is still in its silo. -/
structure CoreObj (T : Type) where
  busy : Bool
  persistent : Bool
  ban : Option ℕ
  refcnt : ℕ
  obj : Obj T

/-- The bans and the objcores. -/
structure Objs (R T : Type) where
  bans : Bans R T
  core : ℕ → CoreObj T

def Objs.setCore (s : Objs R T) (oc : ℕ) (c : CoreObj T) : Objs R T := { s with core := Function.update s.core oc c }

/-- What is looked up: the request, `t_req` and `grace` of the session, `params->default_grace`, and if the director is healthy. -/
structure LookReq where
  http : Ban.Http
  tReq : ℤ
  grace : Option ℤ
  defaultGrace : ℤ
  healthy : Bool

/-- `HSH_Grace` -/
def hshGrace (q : LookReq) (g : Option ℤ) : ℤ := g.getD q.defaultGrace

/-- `SMP_Fixup` -/
def smpFixup (s : Objs R T) (oc : ℕ) : Objs R T :=
  let c := s.core oc
  s.setCore oc { c with persistent := false, obj := { c.obj with ban := c.ban } }

/-- The writes of `ban_check_object`. -/
def Objs.checked (s : Objs R T) (oc : ℕ) (bans : Bans R T) (o : Ban.Object T) : Objs R T :=
  Objs.setCore { s with bans := bans } oc { s.core oc with obj := { (s.core oc).obj with toObject := o } }

/-- The test of `vary` -/
def varyFits (q : LookReq) (x : Obj T) : Option Bool :=
  match x.vary with
  | none => some true
  | some v => vryMatch q.http v

/-- The loop over `objcs` with `busy_oc` and `grace_oc`: the objcore at which it ends early, if it does, and these two. -/
def lookLoop (vre : Vre R) (q : LookReq) :
    (busyOc graceOc : Option ℕ) → List ℕ → Objs R T → Option ((Option ℕ × Option ℕ × Option ℕ) × Objs R T)
  | busyOc, graceOc, [], s => some ((none, busyOc, graceOc), s)
  | busyOc, graceOc, oc :: l, s =>
    let s := if (s.core oc).persistent then smpFixup s oc else s
    let c := s.core oc
    if c.busy then lookLoop vre q (some oc) graceOc l s
    else if c.obj.cacheable = false then lookLoop vre q busyOc graceOc l s
    else if c.obj.ttl = 0 then lookLoop vre q busyOc graceOc l s
    else
      match banCheckObject vre s.bans c.obj.toObject oc (some q.http) true with
      | none => none
      | some (bans, o, banned) =>
        let s := s.checked oc bans o
        if banned then lookLoop vre q busyOc graceOc l s
        else
          match varyFits q (s.core oc).obj with
          | none => none
          | some false => lookLoop vre q busyOc graceOc l s
          | some true =>
            let x := (s.core oc).obj
            if q.tReq ≤ x.ttl then some ((some oc, busyOc, graceOc), s)
            else if q.tReq ≤ x.ttl + hshGrace q x.grace then lookLoop vre q busyOc (some oc) l s
            else lookLoop vre q busyOc graceOc l s

/-- What comes of a lookup: an object, a wait for a busy one, or a new busy objcore. -/
inductive Found where
  | object (oc : ℕ)
  | wait
  | fresh
deriving DecidableEq

/-- An object we like. -/
def hit (s : Objs R T) (oc : ℕ) : Objs R T :=
  let c := s.core oc
  s.setCore oc { c with
    refcnt := c.refcnt + 1
    obj := { c.obj with hits := if c.obj.hits < 2 ^ 31 - 1 then c.obj.hits + 1 else c.obj.hits } }

/-- `HSH_Lookup` from the loop on. -/
def lookup (vre : Vre R) (q : LookReq) (objcs : List ℕ) (s : Objs R T) : Option (Found × Objs R T) :=
  match lookLoop vre q none none objcs s with
  | none => none
  | some ((oc, busyOc, graceOc), s) =>
    let oc :=
      match oc, graceOc with
      | none, some g =>
        if busyOc.isSome || !q.healthy then
          if q.tReq ≤ (s.core g).obj.ttl + hshGrace q q.grace then some g else none
        else none
      | oc, _ => oc
    match oc with
    | some oc => some (.object oc, hit s oc)
    | none => if busyOc.isSome then some (.wait, s) else some (.fresh, s)

end Function

/-! ## The objects before the call -/

section Before

/-- The object, with the ban of the objcore if it is still in its silo. -/
def objOf (s : Objs R T) (oc : ℕ) : Obj T :=
  if (s.core oc).persistent then { (s.core oc).obj with ban := (s.core oc).ban } else (s.core oc).obj

/-- A ban that is newer than the one of the object matches. -/
def banned (vre : Vre R) (q : LookReq) (s : Bans R T) (o : Ban.Object T) : Bool :=
  match o.ban with
  | none => false
  | some ob => (walked s ob).any fun b => holds vre o.http (some q.http) (s.ban b).tests

/-- The object can be used for the request, if it is not too old. -/
def usable (vre : Vre R) (q : LookReq) (s : Objs R T) (oc : ℕ) : Bool :=
  !(s.core oc).busy && ((objOf s oc).cacheable && (decide ((objOf s oc).ttl ≠ 0) &&
    (!banned vre q s.bans (objOf s oc).toObject && varyFits q (objOf s oc) == some true)))

/-- What the loop makes of an object. -/
def fitOf (vre : Vre R) (q : LookReq) (s : Objs R T) (oc : ℕ) : Fit :=
  if usable vre q s oc = false then .no
  else if q.tReq ≤ (objOf s oc).ttl then .valid
  else if q.tReq ≤ (objOf s oc).ttl + hshGrace q (objOf s oc).grace then .grace
  else .no

/-- The ban an objcore refers to. -/
def Objs.refers (s : Objs R T) (oc : ℕ) : Option ℕ := (objOf s oc).ban

/-- What the rest of the cache guarantees of the objcores on a list: the bans are counted, and the ban of an object that can be used is
on the list; the `vary` strings are in their format. -/
structure Listed (q : LookReq) (s : Objs R T) (l : List ℕ) : Prop where
  wf : s.bans.Wf
  ok : ∀ b ∈ s.bans.head, (s.bans.ban b).toBanSpec.Ok
  counts : ∃ ext, s.bans.Counts s.refers ext
  ban : ∀ oc ∈ l, (s.core oc).busy = false → (objOf s oc).cacheable = true → (objOf s oc).ttl ≠ 0 → ∃ ob ∈ s.bans.head, s.refers oc = some ob
  vary : ∀ oc ∈ l, (s.core oc).busy = false → varyFits q (objOf s oc) ≠ none
  nodup : l.Nodup

end Before

/-! ## The loop -/

section Loop

variable {vre : Vre R} {q : LookReq} {s s' : Objs R T} {oc : ℕ} {l : List ℕ}

theorem objOf_plain (h : (s.core oc).persistent = false) : objOf s oc = (s.core oc).obj := by
  unfold objOf
  rw [if_neg (by rw [h]; exact Bool.false_ne_true)]

/-- `SMP_Fixup` makes no difference for the objects. -/
theorem fixup_spec (s : Objs R T) (oc : ℕ) :
    let s' := if (s.core oc).persistent then smpFixup s oc else s
    s'.bans = s.bans ∧ (s'.core oc).persistent = false ∧ (s'.core oc).busy = (s.core oc).busy ∧ (s'.core oc).obj = objOf s oc ∧
      (∀ i, i ≠ oc → s'.core i = s.core i) ∧ s'.refers = s.refers := by
  intro s'
  by_cases hp : (s.core oc).persistent = true
  · have hs' : s' = smpFixup s oc := if_pos hp
    have hcore : s'.core oc = { s.core oc with persistent := false, obj := { (s.core oc).obj with ban := (s.core oc).ban } } := by
      rw [hs']
      exact Function.update_self _ _ _
    have hother : ∀ i, i ≠ oc → s'.core i = s.core i := by
      intro i hi
      rw [hs']
      exact Function.update_of_ne hi _ _
    have hobj : objOf s oc = { (s.core oc).obj with ban := (s.core oc).ban } := by
      unfold objOf
      rw [if_pos hp]
    refine ⟨by rw [hs']; rfl, by rw [hcore], by rw [hcore], by rw [hcore, hobj], hother, ?_⟩
    funext i
    unfold Objs.refers
    by_cases hi : i = oc
    · subst hi
      rw [objOf_plain (by rw [hcore]), hcore, hobj]
    · unfold objOf
      rw [hother i hi]
  · have hs' : s' = s := if_neg hp
    rw [Bool.not_eq_true] at hp
    rw [hs']
    exact ⟨rfl, hp, rfl, (objOf_plain hp).symm, fun _ _ => rfl, rfl⟩

/-- Only one object is written. -/
theorem checked_spec (s : Objs R T) (hp : (s.core oc).persistent = false) (bans : Bans R T) (o : Ban.Object T) :
    ((s.checked oc bans o).core oc).obj = { (s.core oc).obj with toObject := o } ∧
      (∀ i, i ≠ oc → (s.checked oc bans o).core i = s.core i) ∧
      (s.checked oc bans o).refers = Function.update s.refers oc o.ban := by
  have hself : (s.checked oc bans o).core oc = { s.core oc with obj := { (s.core oc).obj with toObject := o } } :=
    Function.update_self _ _ _
  have hother : ∀ i, i ≠ oc → (s.checked oc bans o).core i = s.core i := fun i hi => Function.update_of_ne hi _ _
  refine ⟨by rw [hself], hother, ?_⟩
  funext i
  unfold Objs.refers
  by_cases hi : i = oc
  · subst hi
    rw [objOf_plain (by rw [hself]; exact hp), hself, Function.update_self]
  · unfold objOf
    rw [hother i hi, Function.update_of_ne hi]

theorem banned_same {s s' : Bans R T} (h : s.Same s') (o : Ban.Object T) : banned vre q s' o = banned vre q s o := by
  unfold banned
  cases o.ban with
  | none => rfl
  | some ob =>
    have hw : walked s' ob = walked s ob := by
      unfold walked
      rw [h.head]
      simp only [h.gone]
    have ht : ∀ b, (s'.ban b).tests = (s.ban b).tests := fun b => congrArg BanSpec.tests (h.spec b)
    dsimp only
    rw [hw]
    simp only [ht]

theorem banCheckObject_ttl {b b' : Bans R T} {o o' : Ban.Object T} {sp : Option Ban.Http}
    (h : banCheckObject vre b o oc sp true = some (b', o', false)) : o'.ttl = o.ttl ∧ o'.cacheable = o.cacheable := by
  unfold banCheckObject at h
  obtain ⟨w, -, h⟩ := Option.bind_eq_some_iff.1 h
  cases w with
  | clean =>
    cases h
    exact ⟨rfl, rfl⟩
  | «section» b0 b1 =>
    obtain ⟨s1, -, h⟩ := Option.bind_eq_some_iff.1 h
    unfold checkWrites at h
    split at h
    · cases h
      exact ⟨rfl, rfl⟩
    · cases h

/-- The check of an object whose ban is on the list. -/
theorem check_spec (vre : Vre R) (q : LookReq) (hw : s.bans.Wf) (hok : ∀ b ∈ s.bans.head, (s.bans.ban b).toBanSpec.Ok) (hc : ∃ ext, s.bans.Counts s.refers ext)
    {o : Ban.Object T} {ob : ℕ} (ho : o.ban = some ob) (hob : ob ∈ s.bans.head) (href : s.refers oc = some ob) :
    ∃ bans o' ext, banCheckObject vre s.bans o oc (some q.http) true = some (bans, o', banned vre q s.bans o) ∧ s.bans.Same bans ∧
      bans.Counts (Function.update s.refers oc o'.ban) ext ∧
      (banned vre q s.bans o = false → o'.ttl = o.ttl ∧ o'.cacheable = o.cacheable) := by
  obtain ⟨ext, hc⟩ := hc
  have hspec := banCheckObject_spec vre hc ho href hob hw.first hok (show true = true → (some q.http).isSome from fun _ => rfl)
  have hban : banned vre q s.bans o = (walked s.bans ob).any (stop vre (fun b => (s.bans.ban b).toBanSpec) o.http (some q.http) true) := by
    unfold banned
    rw [ho]
    rfl
  cases hf : (walked s.bans ob).find? (stop vre (fun b => (s.bans.ban b).toBanSpec) o.http (some q.http) true) with
  | none =>
    rw [hf] at hspec
    obtain ⟨s', o', hrun, hsame, hcounts, hbo, -⟩ := hspec
    have hfalse : banned vre q s.bans o = false := by
      rw [hban, List.any_eq_false]
      exact List.find?_eq_none.1 hf
    rw [hfalse]
    exact ⟨s', o', ext, hrun, hsame, hbo ▸ hcounts, fun _ => banCheckObject_ttl hrun⟩
  | some b =>
    rw [hf] at hspec
    obtain ⟨s', o', hrun, hsame, hcounts, hbo⟩ := hspec
    have htrue : banned vre q s.bans o = true := by
      rw [hban, List.any_eq_true]
      exact ⟨b, List.mem_of_find?_eq_some hf, List.find?_some hf⟩
    rw [htrue]
    exact ⟨s', o', ext, hrun, hsame, hbo ▸ hcounts, nofun⟩

/-- For the objcores on the list nothing has changed. -/
structure Agree (s s' : Objs R T) (l : List ℕ) : Prop where
  same : s.bans.Same s'.bans
  core : ∀ i ∈ l, s'.core i = s.core i

theorem Agree.objOf (h : Agree s s' l) (hoc : oc ∈ l) : objOf s' oc = objOf s oc := by
  unfold Hash.objOf
  rw [h.core oc hoc]

theorem Agree.fitOf (h : Agree s s' l) (hoc : oc ∈ l) : fitOf vre q s' oc = fitOf vre q s oc := by
  unfold Hash.fitOf Hash.usable
  rw [h.objOf hoc, h.core oc hoc, banned_same h.same]

theorem Agree.listed (h : Agree s s' l) (hl : Listed q s l) (hc : ∃ ext, s'.bans.Counts s'.refers ext) : Listed q s' l where
  wf := hl.wf.same h.same
  ok b hb := by
    rw [h.same.head] at hb
    rw [h.same.spec b]
    exact hl.ok b hb
  counts := hc
  ban oc hoc := by
    unfold Objs.refers
    rw [h.core oc hoc, h.objOf hoc, h.same.head]
    exact hl.ban oc hoc
  vary oc hoc := by
    rw [h.core oc hoc, h.objOf hoc]
    exact hl.vary oc hoc
  nodup := hl.nodup

theorem scan_congr {busy busy' : ℕ → Bool} {fit fit' : ℕ → Fit} (hb : ∀ i ∈ l, busy' i = busy i) (hf : ∀ i ∈ l, fit' i = fit i)
    (b g : Option ℕ) : scan busy' fit' b g l = scan busy fit b g l := by
  induction l generalizing b g with
  | nil => rfl
  | cons oc l ih =>
    have ih := ih (fun i hi => hb i (List.mem_cons_of_mem oc hi)) fun i hi => hf i (List.mem_cons_of_mem oc hi)
    rw [scan, scan, hb oc List.mem_cons_self, hf oc List.mem_cons_self]
    simp only [ih]

/-- What the check of one object makes of it. -/
theorem fitOf_cases (vre : Vre R) (q : LookReq) (s : Objs R T) (oc : ℕ) (hb : (s.core oc).busy = false) :
    fitOf vre q s oc =
      if (objOf s oc).cacheable = false then .no
      else if (objOf s oc).ttl = 0 then .no
      else if banned vre q s.bans (objOf s oc).toObject = true then .no
      else if varyFits q (objOf s oc) = some true then
        if q.tReq ≤ (objOf s oc).ttl then .valid
        else if q.tReq ≤ (objOf s oc).ttl + hshGrace q (objOf s oc).grace then .grace
        else .no
      else .no := by
  unfold fitOf usable
  rw [hb]
  by_cases h1 : (objOf s oc).cacheable = false
  · simp [h1]
  by_cases h2 : (objOf s oc).ttl = 0
  · simp [h2]
  by_cases h3 : banned vre q s.bans (objOf s oc).toObject = true
  · simp [h3]
  by_cases h4 : varyFits q (objOf s oc) = some true
  · rw [if_neg h1, if_neg h2, if_neg h3, if_pos h4, if_neg]
    rw [Bool.not_eq_false] at h1
    rw [Bool.not_eq_true] at h3
    simp [h1, h2, h3, h4]
  · simp [h4]

theorem ttl_objOf (s : Objs R T) (i : ℕ) : (s.core i).obj.ttl = (objOf s i).ttl := by
  unfold objOf
  split
  · rfl
  · rfl

/-- **The loop** is `scan` over what the objects were before it. -/
theorem lookLoop_scan (vre : Vre R) (h : Listed q s l) (b g : Option ℕ) :
    ∃ s', lookLoop vre q b g l s = some (scan (fun oc => (s.core oc).busy) (fitOf vre q s) b g l, s') ∧
      (∀ i ∉ l, s'.core i = s.core i) ∧ ∀ i, fitOf vre q s i ≠ .no → (s'.core i).obj.ttl = (objOf s i).ttl := by
  induction l generalizing b g s with
  | nil => exact ⟨s, rfl, fun _ _ => rfl, fun i _ => ttl_objOf s i⟩
  | cons oc l ih =>
    have hnot : oc ∉ l := (List.nodup_cons.1 h.nodup).1
    have hne : ∀ i ∈ l, i ≠ oc := fun i hi he => hnot (he ▸ hi)
    -- the loop goes on from a state in which only this objcore has changed
    have hgo (s1 : Objs R T) (hsame : s.bans.Same s1.bans) (hcore : ∀ i, i ≠ oc → s1.core i = s.core i)
        (hc : ∃ ext, s1.bans.Counts s1.refers ext) (ht : fitOf vre q s oc ≠ .no → (s1.core oc).obj.ttl = (objOf s oc).ttl) (b g : Option ℕ) :
        ∃ s', lookLoop vre q b g l s1 = some (scan (fun oc => (s.core oc).busy) (fitOf vre q s) b g l, s') ∧
          (∀ i ∉ oc :: l, s'.core i = s.core i) ∧ ∀ i, fitOf vre q s i ≠ .no → (s'.core i).obj.ttl = (objOf s i).ttl := by
      have hagree : Agree s s1 l := ⟨hsame, fun i hi => hcore i (hne i hi)⟩
      have hlisted : Listed q s l := ⟨h.wf, h.ok, h.counts, fun i hi => h.ban i (List.mem_cons_of_mem oc hi),
        fun i hi => h.vary i (List.mem_cons_of_mem oc hi), (List.nodup_cons.1 h.nodup).2⟩
      obtain ⟨s', hrun, hout, hfit⟩ := ih (hagree.listed hlisted hc) b g
      refine ⟨s', ?_, fun i hi => ?_, fun i hi => ?_⟩
      · rw [hrun, scan_congr (fun i hi => by rw [hagree.core i hi]) fun i hi => hagree.fitOf hi]
      · rw [hout i fun hm => hi (List.mem_cons_of_mem oc hm), hcore i fun he => hi (he ▸ List.mem_cons_self)]
      · by_cases hi' : i = oc
        · subst hi'
          rw [hout i hnot]
          exact ht hi
        · have hone : Agree s s1 [i] := ⟨hsame, fun j hj => by rw [List.mem_singleton.1 hj]; exact hcore i hi'⟩
          rw [hfit i (by rw [hone.fitOf List.mem_cons_self]; exact hi), hone.objOf List.mem_cons_self]
    obtain ⟨hbans, hpers, hbusy, hobj, hcore, hrefers⟩ := fixup_spec s oc
    unfold lookLoop scan
    generalize (if (s.core oc).persistent = true then smpFixup s oc else s) = s1 at hbans hpers hbusy hobj hcore hrefers
    have hcounts1 : ∃ ext, s1.bans.Counts s1.refers ext := by
      rw [hbans, hrefers]
      exact h.counts
    have hsame1 : s.bans.Same s1.bans := by
      rw [hbans]
      exact same_refl _
    have hgo1 := hgo s1 hsame1 hcore hcounts1 fun _ => by rw [hobj]
    dsimp only
    rw [hbusy, hobj]
    by_cases hb : (s.core oc).busy = true
    · rw [if_pos hb, if_pos hb]
      exact hgo1 (some oc) g
    · rw [if_neg hb, if_neg hb]
      rw [Bool.not_eq_true] at hb
      have hfit := fitOf_cases vre q s oc hb
      by_cases h1 : (objOf s oc).cacheable = false
      · rw [if_pos h1] at hfit
        rw [if_pos h1, hfit]
        exact hgo1 b g
      rw [if_neg h1] at hfit
      rw [if_neg h1]
      by_cases h2 : (objOf s oc).ttl = 0
      · rw [if_pos h2] at hfit
        rw [if_pos h2, hfit]
        exact hgo1 b g
      rw [if_neg h2] at hfit
      rw [if_neg h2]
      rw [Bool.not_eq_false] at h1
      -- the bans
      obtain ⟨ob, hob, href⟩ := h.ban oc List.mem_cons_self hb h1 h2
      obtain ⟨bans, o', ext, hcheck, hsame, hcounts, hkeep⟩ := check_spec vre q h.wf h.ok h.counts href hob href
      rw [hbans, hcheck]
      dsimp only
      obtain ⟨hchk, hother, hnew⟩ := checked_spec s1 hpers bans o'
      rw [hobj] at hchk
      have hcore2 : ∀ i, i ≠ oc → (s1.checked oc bans o').core i = s.core i := fun i hi => (hother i hi).trans (hcore i hi)
      have hcounts2 : ∃ ext, (s1.checked oc bans o').bans.Counts (s1.checked oc bans o').refers ext := by
        refine ⟨ext, ?_⟩
        have heq : (s1.checked oc bans o').refers = Function.update s.refers oc o'.ban := by
          rw [hnew, hrefers]
        rw [heq]
        exact hcounts
      by_cases h3 : banned vre q s.bans (objOf s oc).toObject = true
      · rw [if_pos h3] at hfit
        rw [h3, if_pos rfl, hfit]
        exact hgo _ hsame hcore2 hcounts2 (fun hne => absurd hfit hne) b g
      rw [if_neg h3] at hfit
      rw [Bool.not_eq_true] at h3
      obtain ⟨hk1, -⟩ := hkeep h3
      rw [h3, if_neg Bool.false_ne_true]
      have ht2 : fitOf vre q s oc ≠ .no → ((s1.checked oc bans o').core oc).obj.ttl = (objOf s oc).ttl := fun _ => by
        rw [hchk]
        exact hk1
      have hgo2 := hgo _ hsame hcore2 hcounts2 ht2
      -- `Vary`
      have hv : varyFits q ({ objOf s oc with toObject := o' } : Obj T) = varyFits q (objOf s oc) := rfl
      rw [hchk, hv]
      cases hvf : varyFits q (objOf s oc) with
      | none => exact absurd hvf (h.vary oc List.mem_cons_self hb)
      | some m =>
        rw [hvf] at hfit
        cases m with
        | false =>
          rw [if_neg (by decide)] at hfit
          rw [hfit]
          exact hgo2 b g
        | true =>
          rw [if_pos rfl] at hfit
          dsimp only
          rw [hk1]
          by_cases h4 : q.tReq ≤ (objOf s oc).ttl
          · rw [if_pos h4] at hfit
            rw [if_pos h4, hfit]
            refine ⟨_, rfl, fun i hi => hcore2 i fun he => hi (he ▸ List.mem_cons_self), fun i hi => ?_⟩
            by_cases hi' : i = oc
            · subst hi'
              exact ht2 hi
            · rw [hcore2 i hi']
              exact ttl_objOf s i
          · rw [if_neg h4] at hfit
            rw [if_neg h4]
            by_cases h5 : q.tReq ≤ (objOf s oc).ttl + hshGrace q (objOf s oc).grace
            · rw [if_pos h5] at hfit
              rw [if_pos h5, hfit]
              exact hgo2 b (some oc)
            · rw [if_neg h5] at hfit
              rw [if_neg h5, hfit]
              exact hgo2 b g

end Loop

/-! ## The function is the choice -/

section Choice

variable {vre : Vre R} {q : LookReq} {s s' : Objs R T} {oc : ℕ} {l objcs : List ℕ}

/-- The loop over the objects before the call. -/
def scanned (vre : Vre R) (q : LookReq) (s : Objs R T) (objcs : List ℕ) : Option ℕ × Option ℕ × Option ℕ :=
  scan (fun oc => (s.core oc).busy) (fitOf vre q s) none none objcs

/-- The request allows a grace that is enough for the object. -/
def enough (q : LookReq) (s : Objs R T) (oc : ℕ) : Bool := q.tReq ≤ (objOf s oc).ttl + hshGrace q q.grace

/-- The question that is decided without the objects. -/
def askOf (vre : Vre R) (q : LookReq) (s : Objs R T) (objcs : List ℕ) (digest : ℕ) (esi : Bool) : Ask :=
  ⟨digest, fitOf vre q s, q.healthy, (scanned vre q s objcs).2.2.any (enough q s), esi⟩

def foundOf : Option ℕ × Option ℕ → Found
  | (some oc, _) => .object oc
  | (none, some _) => .wait
  | (none, none) => .fresh

/-- What the loop remembers, and where it ends. -/
theorem scan_spec (busy : ℕ → Bool) (fit : ℕ → Fit) (b g : Option ℕ) (l : List ℕ) :
    (∃ oc bo go, scan busy fit b g l = (some oc, bo, go) ∧ oc ∈ l ∧ fit oc = .valid) ∨
    (∃ bo go, scan busy fit b g l = (none, bo, go) ∧ (∀ oc ∈ l, busy oc = false → fit oc ≠ .valid) ∧
      (bo.isSome = true ↔ b.isSome = true ∨ ∃ oc ∈ l, busy oc = true) ∧
      ((go = g ∧ ∀ oc ∈ l, busy oc = false → fit oc ≠ .grace) ∨
        ∃ last l1 l2, go = some last ∧ l = l1 ++ last :: l2 ∧ fit last = .grace ∧ ∀ oc ∈ l2, busy oc = false → fit oc ≠ .grace)) := by
  induction l generalizing b g with
  | nil => exact .inr ⟨b, g, rfl, nofun, by simp, .inl ⟨rfl, nofun⟩⟩
  | cons oc l ih =>
    -- the objcore is not remembered as one in grace
    have hskip (b' : Option ℕ) (hrun : scan busy fit b g (oc :: l) = scan busy fit b' g l) (hv : busy oc = false → fit oc ≠ .valid)
        (hg : busy oc = false → fit oc ≠ .grace) (hb : b'.isSome = true ↔ b.isSome = true ∨ busy oc = true) :
        (∃ oc' bo go, scan busy fit b g (oc :: l) = (some oc', bo, go) ∧ oc' ∈ oc :: l ∧ fit oc' = .valid) ∨
        (∃ bo go, scan busy fit b g (oc :: l) = (none, bo, go) ∧ (∀ i ∈ oc :: l, busy i = false → fit i ≠ .valid) ∧
          (bo.isSome = true ↔ b.isSome = true ∨ ∃ i ∈ oc :: l, busy i = true) ∧
          ((go = g ∧ ∀ i ∈ oc :: l, busy i = false → fit i ≠ .grace) ∨
            ∃ last l1 l2, go = some last ∧ oc :: l = l1 ++ last :: l2 ∧ fit last = .grace ∧
              ∀ i ∈ l2, busy i = false → fit i ≠ .grace)) := by
      rw [hrun]
      rcases ih b' g with ⟨oc', bo, go, hs, hm, hf⟩ | ⟨bo, go, hs, hval, hbusy, hgr⟩
      · exact .inl ⟨oc', bo, go, hs, List.mem_cons_of_mem oc hm, hf⟩
      · refine .inr ⟨bo, go, hs, List.forall_mem_cons.2 ⟨hv, hval⟩, ?_, ?_⟩
        · rw [hbusy, hb, List.exists_mem_cons_iff, or_assoc]
        · rcases hgr with ⟨hgo, hnone⟩ | ⟨last, l1, l2, hgo, rfl, hlast, hnone⟩
          · exact .inl ⟨hgo, List.forall_mem_cons.2 ⟨hg, hnone⟩⟩
          · exact .inr ⟨last, oc :: l1, l2, hgo, rfl, hlast, hnone⟩
    by_cases hb : busy oc = true
    · refine hskip (some oc) (by rw [scan, if_pos hb]) (fun h => absurd hb (by rw [h]; exact Bool.false_ne_true))
        (fun h => absurd hb (by rw [h]; exact Bool.false_ne_true)) (by simp [hb])
    · cases hf : fit oc with
      | no =>
        refine hskip b (by rw [scan, if_neg hb, hf]) (fun _ => by rw [hf]; exact nofun) (fun _ => by rw [hf]; exact nofun) ?_
        simp [hb]
      | valid => exact .inl ⟨oc, b, g, by rw [scan, if_neg hb, hf], List.mem_cons_self, hf⟩
      | grace =>
        have hrun : scan busy fit b g (oc :: l) = scan busy fit b (some oc) l := by rw [scan, if_neg hb, hf]
        rw [hrun]
        rcases ih b (some oc) with ⟨oc', bo, go, hs, hm, hf'⟩ | ⟨bo, go, hs, hval, hbusy, hgr⟩
        · exact .inl ⟨oc', bo, go, hs, List.mem_cons_of_mem oc hm, hf'⟩
        · refine .inr ⟨bo, go, hs, List.forall_mem_cons.2 ⟨fun _ => by rw [hf]; exact nofun, hval⟩, ?_, .inr ?_⟩
          · rw [hbusy, List.exists_mem_cons_iff]
            simp [hb]
          · rcases hgr with ⟨hgo, hnone⟩ | ⟨last, l1, l2, hgo, rfl, hlast, hnone⟩
            · exact ⟨oc, [], l, hgo, rfl, hf, hnone⟩
            · exact ⟨last, oc :: l1, l2, hgo, rfl, hlast, hnone⟩

/-- **`HSH_Lookup`** is the choice over what the objects were before it. -/
theorem lookup_choose (vre : Vre R) (h : Listed q s objcs) (digest : ℕ) (esi : Bool) :
    ∃ s', lookup vre q objcs s = some (foundOf (choose (askOf vre q s objcs digest esi) (fun oc => (s.core oc).busy) objcs), s') := by
  obtain ⟨s', hrun, -, httl⟩ := lookLoop_scan vre h none none
  unfold lookup
  rw [hrun]
  unfold choose askOf
  have hscan : scan (fun oc => (s.core oc).busy) (fitOf vre q s) none none objcs = scanned vre q s objcs := rfl
  rw [hscan]
  have hspec := scan_spec (fun oc => (s.core oc).busy) (fitOf vre q s) none none objcs
  rw [hscan] at hspec
  rcases hspec with ⟨oc, bo, go, hs, -, -⟩ | ⟨bo, go, hs, -, -, hg⟩
  · rw [hs]
    exact ⟨_, rfl⟩
  · rw [hs]
    dsimp only
    cases go with
    | none =>
      cases bo with
      | none => exact ⟨_, rfl⟩
      | some b => exact ⟨_, rfl⟩
    | some g =>
      have hgrace : fitOf vre q s g = .grace := by
        rcases hg with ⟨hgo, -⟩ | ⟨last, l1, l2, hgo, -, hlast, -⟩
        · cases hgo
        · cases hgo
          exact hlast
      dsimp only
      rw [httl g (by rw [hgrace]; exact nofun)]
      have hany : (some g).any (enough q s) = decide (q.tReq ≤ (objOf s g).ttl + hshGrace q q.grace) := rfl
      rw [hany]
      by_cases hst : (bo.isSome || !q.healthy) = true
      · rw [if_pos hst, hst]
        by_cases he : q.tReq ≤ (objOf s g).ttl + hshGrace q q.grace
        · rw [if_pos he, decide_eq_true he]
          exact ⟨_, rfl⟩
        · rw [if_neg he, decide_eq_false he]
          cases bo with
          | none => exact ⟨_, rfl⟩
          | some b => exact ⟨_, rfl⟩
      · rw [if_neg hst]
        rw [Bool.not_eq_true] at hst
        rw [hst]
        cases bo with
        | none => exact ⟨_, rfl⟩
        | some b => cases hst

end Choice

/-! ## What is right -/

section Right

variable {vre : Vre R} {q : LookReq} {s s' : Objs R T} {oc : ℕ} {l objcs : List ℕ}

/-- The object is one for this request. -/
structure Matches (vre : Vre R) (q : LookReq) (s : Objs R T) (oc : ℕ) : Prop where
  busy : (s.core oc).busy = false
  cacheable : (objOf s oc).cacheable = true
  ttl : (objOf s oc).ttl ≠ 0
  bans : ∀ ob, (objOf s oc).ban = some ob → ∀ b ∈ walked s.bans ob, holds vre (objOf s oc).http (some q.http) (s.bans.ban b).tests = false
  vary : ∀ v, (objOf s oc).vary = some v → vryMatch q.http v = some true

def Fresh (vre : Vre R) (q : LookReq) (s : Objs R T) (oc : ℕ) : Prop := Matches vre q s oc ∧ q.tReq ≤ (objOf s oc).ttl

/-- Within its own grace. -/
def InGrace (vre : Vre R) (q : LookReq) (s : Objs R T) (oc : ℕ) : Prop :=
  Matches vre q s oc ∧ (objOf s oc).ttl < q.tReq ∧ q.tReq ≤ (objOf s oc).ttl + hshGrace q (objOf s oc).grace

/-- Within the grace of the request. -/
def Enough (q : LookReq) (s : Objs R T) (oc : ℕ) : Prop := q.tReq ≤ (objOf s oc).ttl + hshGrace q q.grace

def BusySeen (s : Objs R T) (objcs : List ℕ) : Prop := ∃ oc ∈ objcs, (s.core oc).busy = true

/-- An object that may be used: a fresh one, or one in grace where there is a busy objcore or the director is not healthy. -/
def Qualifies (vre : Vre R) (q : LookReq) (s : Objs R T) (objcs : List ℕ) (oc : ℕ) : Prop :=
  Fresh vre q s oc ∨ ((BusySeen s objcs ∨ q.healthy = false) ∧ InGrace vre q s oc ∧ Enough q s oc)

/-- The choice is right. -/
def Right (vre : Vre R) (q : LookReq) (s : Objs R T) (objcs : List ℕ) : Found → Prop
  | .object oc => oc ∈ objcs ∧ Qualifies vre q s objcs oc
  | .wait => BusySeen s objcs ∧ ∀ oc ∈ objcs, ¬ Qualifies vre q s objcs oc
  | .fresh => ¬ BusySeen s objcs ∧ ∀ oc ∈ objcs, ¬ Qualifies vre q s objcs oc

/-- The last object within its own grace is within that of the request. -/
def LastEnough (vre : Vre R) (q : LookReq) (s : Objs R T) (objcs : List ℕ) : Prop :=
  ∀ last l1 l2, objcs = l1 ++ last :: l2 → InGrace vre q s last → (∀ oc ∈ l2, ¬ InGrace vre q s oc) → Enough q s last

/-- Where an object in grace is what there is to use, the last one can be used. -/
def GraceKept (vre : Vre R) (q : LookReq) (s : Objs R T) (objcs : List ℕ) : Prop :=
  (∀ oc ∈ objcs, ¬ Fresh vre q s oc) → (∃ oc ∈ objcs, Qualifies vre q s objcs oc) → LastEnough vre q s objcs

theorem usable_iff : usable vre q s oc = true ↔ Matches vre q s oc := by
  unfold usable
  simp only [Bool.and_eq_true, Bool.not_eq_true', decide_eq_true_eq, beq_iff_eq]
  constructor
  · rintro ⟨hb, hc, ht, hban, hvary⟩
    refine ⟨hb, hc, ht, fun ob hob b hm => ?_, fun v hx => ?_⟩
    · unfold banned at hban
      have hob' : (objOf s oc).toObject.ban = some ob := hob
      rw [hob'] at hban
      have := (List.any_eq_false.1 hban) b hm
      exact Bool.not_eq_true _ ▸ this
    · unfold varyFits at hvary
      rw [hx] at hvary
      exact hvary
  · intro h
    refine ⟨h.busy, h.cacheable, h.ttl, ?_, ?_⟩
    · unfold banned
      cases hob : (objOf s oc).toObject.ban with
      | none => rfl
      | some ob =>
        dsimp only
        rw [List.any_eq_false]
        intro b hm
        rw [h.bans ob hob b hm]
        exact Bool.false_ne_true
    · unfold varyFits
      cases hx : (objOf s oc).vary with
      | none => rfl
      | some v => exact h.vary v hx

theorem fitOf_iff (vre : Vre R) (q : LookReq) (s : Objs R T) (oc : ℕ) :
    (fitOf vre q s oc = .valid ↔ Fresh vre q s oc) ∧ (fitOf vre q s oc = .grace ↔ InGrace vre q s oc) := by
  have hu : usable vre q s oc = true ↔ Matches vre q s oc := usable_iff
  unfold fitOf Fresh InGrace
  by_cases hm : Matches vre q s oc
  · rw [if_neg (by rw [hu.2 hm]; decide)]
    by_cases h1 : q.tReq ≤ (objOf s oc).ttl
    · rw [if_pos h1]
      exact ⟨iff_of_true rfl ⟨hm, h1⟩, iff_of_false nofun fun h => absurd h.2.1 (not_lt.2 h1)⟩
    · rw [if_neg h1]
      by_cases h2 : q.tReq ≤ (objOf s oc).ttl + hshGrace q (objOf s oc).grace
      · rw [if_pos h2]
        exact ⟨iff_of_false nofun fun h => h1 h.2, iff_of_true rfl ⟨hm, not_le.1 h1, h2⟩⟩
      · rw [if_neg h2]
        exact ⟨iff_of_false nofun fun h => h1 h.2, iff_of_false nofun fun h => h2 h.2.2⟩
  · have hno : usable vre q s oc = false := by
      rw [← Bool.not_eq_true, hu]
      exact hm
    rw [if_pos hno]
    exact ⟨iff_of_false nofun fun h => hm h.1, iff_of_false nofun fun h => hm h.1⟩

/-- **The choice is right** if and only if the grace is kept: an object in grace is not lost for a later one that the request does not
allow. -/
theorem lookup_right (vre : Vre R) (h : Listed q s objcs) :
    ∃ found s', lookup vre q objcs s = some (found, s') ∧ (Right vre q s objcs found ↔ GraceKept vre q s objcs) := by
  obtain ⟨s', hrun⟩ := lookup_choose vre h 0 false
  refine ⟨_, s', hrun, ?_⟩
  have hv := fitOf_iff vre q s
  -- a busy objcore fits as little as any
  have hval (oc : ℕ) (hno : (s.core oc).busy = false → fitOf vre q s oc ≠ .valid) : ¬ Fresh vre q s oc :=
    fun hf => hno hf.1.busy ((hv oc).1.2 hf)
  have hgra (oc : ℕ) (hno : (s.core oc).busy = false → fitOf vre q s oc ≠ .grace) : ¬ InGrace vre q s oc :=
    fun hf => hno hf.1.busy ((hv oc).2.2 hf)
  have hspec := scan_spec (fun oc => (s.core oc).busy) (fitOf vre q s) none none objcs
  unfold choose askOf
  dsimp only
  have hscan : scan (fun oc => (s.core oc).busy) (fitOf vre q s) none none objcs = scanned vre q s objcs := rfl
  rw [hscan] at hspec ⊢
  rcases hspec with ⟨oc, bo, go, hs, hoc, hf⟩ | ⟨bo, go, hs, hnov, hbusy, hg⟩
  · -- a fresh object
    rw [hs]
    have hfresh := (hv oc).1.1 hf
    exact iff_of_true ⟨hoc, .inl hfresh⟩ fun hnone => absurd hfresh (hnone oc hoc)
  · rw [hs]
    have hnof : ∀ oc ∈ objcs, ¬ Fresh vre q s oc := fun oc hoc => hval oc (hnov oc hoc)
    have hbo : bo.isSome = true ↔ BusySeen s objcs := by
      rw [hbusy]
      simp [BusySeen]
    have hnil : (∀ oc ∈ objcs, ¬ Qualifies vre q s objcs oc) → (Right vre q s objcs (foundOf (none, bo)) ↔ GraceKept vre q s objcs) := by
      intro hnoq
      refine iff_of_true ?_ fun _ ⟨oc, hoc, hq⟩ => absurd hq (hnoq oc hoc)
      cases bo with
      | none => exact ⟨fun hbs => absurd (hbo.2 hbs) Bool.false_ne_true, hnoq⟩
      | some b => exact ⟨hbo.1 rfl, hnoq⟩
    rcases hg with ⟨rfl, hnog⟩ | ⟨last, l1, l2, rfl, hsplit, hlast, hafter⟩
    · -- nothing in grace
      refine hnil fun oc hoc hq => ?_
      rcases hq with hq | ⟨-, hq, -⟩
      · exact hnof oc hoc hq
      · exact hgra oc (hnog oc hoc) hq
    · have hmem : last ∈ objcs := by
        rw [hsplit]
        exact List.mem_append_right _ List.mem_cons_self
      have hin := (hv last).2.1 hlast
      have hlater : ∀ oc ∈ l2, ¬ InGrace vre q s oc := fun oc hoc =>
        hgra oc (hafter oc hoc)
      have hany : (some last).any (enough q s) = true ↔ Enough q s last := decide_eq_true_iff
      have hst : (bo.isSome || !q.healthy) = true ↔ (BusySeen s objcs ∨ q.healthy = false) := by
        rw [Bool.or_eq_true, hbo, Bool.not_eq_true']
      dsimp only
      by_cases hboth : ((bo.isSome || !q.healthy) && (some last).any (enough q s)) = true
      · rw [if_pos hboth]
        rw [Bool.and_eq_true, hst, hany] at hboth
        refine iff_of_true ⟨hmem, .inr ⟨hboth.1, hin, hboth.2⟩⟩ fun _ _ x l1' l2' hs' hx hx' => ?_
        -- there is one last object in grace
        have heq : x = last := by
          rw [hsplit] at hs'
          rcases List.append_eq_append_iff.1 hs' with ⟨a, h1, h2⟩ | ⟨a, h1, h2⟩
          · cases a with
            | nil => exact (List.cons.inj h2).1.symm
            | cons y a =>
              have h3 := (List.cons.inj h2).2
              exact absurd hx (hlater x (by rw [h3]; exact List.mem_append_right _ List.mem_cons_self))
          · cases a with
            | nil => exact (List.cons.inj h2).1
            | cons y a =>
              have h3 := (List.cons.inj h2).2
              exact absurd hin (hx' last (by rw [h3]; exact List.mem_append_right _ List.mem_cons_self))
        rw [heq]
        exact hboth.2
      · rw [if_neg hboth]
        rw [Bool.and_eq_true, hst, hany] at hboth
        by_cases hq : ∃ oc ∈ objcs, Qualifies vre q s objcs oc
        · obtain ⟨oc, hoc, hq⟩ := hq
          have hstale : BusySeen s objcs ∨ q.healthy = false := by
            rcases hq with hq | ⟨hq, -⟩
            · exact absurd hq (hnof oc hoc)
            · exact hq
          refine iff_of_false (fun hr => ?_) fun hk => hboth ⟨hstale, hk hnof ⟨oc, hoc, hq⟩ last l1 l2 hsplit hin hlater⟩
          cases bo with
          | none => exact hr.2 oc hoc hq
          | some b => exact hr.2 oc hoc hq
        · exact hnil fun oc hoc hq' => hq ⟨oc, hoc, hq'⟩

/-- An object with a grace of 100. -/
def graced (ttl : ℤ) : CoreObj ℕ where
  busy := false
  persistent := false
  ban := none
  refcnt := 1
  obj := { http := ⟨none, []⟩, ban := some 0, banT := 0, ttl, cacheable := true, vary := none, grace := some 100, hits := 0 }

def noCore : CoreObj ℕ where
  busy := true
  persistent := false
  ban := none
  refcnt := 0
  obj := { http := ⟨none, []⟩, ban := none, banT := 0, ttl := 0, cacheable := false, vary := none, grace := none, hits := 0 }

/-- Two objects, the times of which ended at 90 and at 50. -/
def twoObjs : Objs Str ℕ where
  bans := ((⟨fun _ => (newBan banNew 0).mark true, [0], 0, 1⟩ : Bans Str ℕ).attach 0 0).attach 0 1
  core oc := if oc = 0 then graced 90 else if oc = 1 then graced 50 else noCore

/-- A request at 100 with a grace of 20, and no healthy backend. -/
def lateReq : LookReq := ⟨⟨none, []⟩, 100, some 20, 10, false⟩

theorem listed_twoObjs {l : List ℕ} (hl : ∀ oc ∈ l, oc = 0 ∨ oc = 1) (hn : l.Nodup) : Listed lateReq twoObjs l where
  wf := wf_init _
  ok b hb := by
    have hb : b ∈ [0] := hb
    rw [List.mem_singleton.1 hb]
    rfl
  counts := by
    have hinit : (⟨fun _ => (newBan banNew 0).mark true, [0], 0, 1⟩ : Bans Str ℕ).Counts (fun _ => none) fun _ => 0 :=
      ⟨fun _ => rfl, fun _ _ => by simp [newBan, BanRec.mark], fun _ => List.nodup_nil⟩
    have hcounts := counts_attach (counts_attach hinit 0 rfl) 0 (show Function.update (fun _ => none) 0 (some 0) 1 = none from rfl)
    refine ⟨fun _ => 0, ?_⟩
    have href : twoObjs.refers = Function.update (Function.update (fun _ => none) 0 (some 0)) 1 (some 0) := by
      funext i
      by_cases h0 : i = 0
      · subst h0
        rfl
      · by_cases h1 : i = 1
        · subst h1
          rfl
        · rw [Function.update_of_ne h1, Function.update_of_ne h0]
          unfold Objs.refers objOf twoObjs
          simp [h0, h1, noCore]
    rw [href]
    exact hcounts
  ban oc hoc _ _ _ := by
    rcases hl oc hoc with rfl | rfl
    · exact ⟨0, List.mem_singleton.2 rfl, rfl⟩
    · exact ⟨0, List.mem_singleton.2 rfl, rfl⟩
  vary oc hoc _ := by
    intro hv
    rcases hl oc hoc with rfl | rfl
    · cases hv
    · cases hv
  nodup := hn

/-- The object to use comes last. -/
theorem lookup_right_last : ∃ found s', lookup plainVre lateReq [1, 0] twoObjs = some (found, s') ∧
    (Right plainVre lateReq twoObjs [1, 0] found ↔ GraceKept plainVre lateReq twoObjs [1, 0]) :=
  lookup_right plainVre (listed_twoObjs (by simp) (by decide))

/-- It comes first, and is lost: a new busy objcore is made, though the object could be used. -/
theorem lookup_not_right : ∃ s', Listed lateReq twoObjs [0, 1] ∧ lookup plainVre lateReq [0, 1] twoObjs = some (.fresh, s') ∧
    ¬ Right plainVre lateReq twoObjs [0, 1] .fresh := by
  have hrun : (lookup plainVre lateReq [0, 1] twoObjs).map Prod.fst = some .fresh := by decide +kernel
  obtain ⟨⟨found, s'⟩, hx, hf⟩ := Option.map_eq_some_iff.1 hrun
  have hf : found = .fresh := hf
  subst hf
  refine ⟨s', listed_twoObjs (by simp) (by decide), hx, fun h => h.2 0 (by simp) (.inr ⟨.inr rfl, ⟨?_, ?_, ?_⟩, ?_⟩)⟩
  · refine ⟨rfl, rfl, by decide, ?_, nofun⟩
    rintro _ ⟨⟩ b hb
    cases hb
  · decide
  · decide
  · show (100 : ℤ) ≤ 90 + 20
    decide

end Right

end Varnish.Hash
