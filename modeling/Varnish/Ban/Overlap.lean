import Mathlib.Data.Set.Card
import Varnish.Ban.Count
import Varnish.Lib.Run

/-!
# Varnish.Ban.Overlap — checks of one object that overlap (`cache_ban.c`, `cache_hash.c`)

`ban_check_object` in its three steps, by a client and by the lurker on any objects, with the steps of `BAN_Insert` and
with `BAN_CheckLast` in between.

* `OverOk`: the counters are the numbers of the objects that point at the bans, nothing points at a retired ban, and an
  object is banned only after a match.
* `reach_overOk`: it holds in every state of every run in which a check does not use an `o->ban` that another check of
  the object has changed or is about to change.
* `banned_without_match`: a run in which the lurker and a client check one object at the same time.
-/

namespace Varnish.Ban

open Varnish.Lib

variable {R T : Type}

/-! ## The system -/

section Sys

/-- Who checks: under the mutex of the objhead at most one client checks an object, and there is one lurker. -/
inductive Who where
  | client
  | lurker
deriving DecidableEq

def Who.other : Who → Who
  | .client => .lurker
  | .lurker => .client

/-- `has_req`. -/
def Who.hasReq : Who → Bool
  | .client => true
  | .lurker => false

/-- The variables `b0` and `b` of a check, and what its walk has seen: the ban of the object, and whether a newer one
matched. -/
structure Chk where
  b0 : ℕ
  b : ℕ
  ob : ℕ
  hit : Bool
deriving DecidableEq

/-- A check after its walk, and after the part with the lock, which has put the object on the ban `dst`. -/
inductive Phase where
  | walked (c : Chk)
  | moved (c : Chk) (dst : Option ℕ)
deriving DecidableEq

/-- The bans and the objects, the checks in progress, the insertions that hold a reference on the last ban, and for each
check that is done its result and whether there was a match. -/
structure Over (R T : Type) where
  bans : Bans R T
  obj : ℕ → Object T
  chk : Who → ℕ → Option Phase
  lurks : Bool
  ins : List (ℕ × ℕ)
  done : List (Bool × Bool)

def Over.init (R : Type) {T : Type} (now : T) : Over R T where
  bans := ⟨fun _ => (newBan banNew now).mark true, [0], 0, 1⟩
  obj _ := ⟨⟨none, []⟩, none, now, 0, false⟩
  chk _ _ := none
  lurks := false
  ins := []
  done := []

def Over.setChk (s : Over R T) (who : Who) (oc : ℕ) (p : Option Phase) : Over R T :=
  { s with
    chk := fun w i => if w = who ∧ i = oc then p else s.chk w i
    lurks := if who = .lurker then p.isSome else s.lurks }

inductive OverAct (R T : Type) where
  | newObj (oc : ℕ) (http : Http) (ttl : ℤ)
  | destroyObj (oc : ℕ)
  | insertHead (c : BanSpec R) (now : T) (dups : Bool)
  | hunt (b bi : ℕ)
  | insertEnd (b be : ℕ)
  | checkLast
  | walk (who : Who) (oc : ℕ) (req : Http)
  | locked (who : Who) (oc : ℕ)
  | writes (who : Who) (oc : ℕ)

/-- The session that a check is given: the one of the lurker has no request. -/
def Who.sp (who : Who) (req : Http) : Option Http := if who.hasReq then some req else none

/-- A ban newer than the one of the object matched. -/
def isHit (vre : Vre R) (s : Bans R T) (http : Http) (sp : Option Http) (ob b : ℕ) : Bool :=
  decide (b ∈ walked s ob) && holds vre http sp (s.ban b).tests

def overStep (vre : Vre R) (s : Over R T) : OverAct R T → Option (Over R T)
  | .newObj oc http ttl => do
    let (bans, o) ← banNewObj s.bans { s.obj oc with http, ttl, cacheable := true } oc
    some { s with bans, obj := Function.update s.obj oc o }
  | .destroyObj oc => do
    let (bans, o) ← banDestroyObj s.bans (s.obj oc) oc
    some { s with bans, obj := Function.update s.obj oc o }
  | .insertHead c now dups =>
    match banInsertHead s.bans c now dups with
    | (none, bans) => some { s with bans }
    | (some be, bans) => some { s with bans, ins := (s.bans.next, be) :: s.ins }
  | .hunt b bi => some { s with bans := huntDup b s.bans bi }
  | .insertEnd b be => some { s with bans := s.bans.ref be (-1), ins := s.ins.erase (b, be) }
  | .checkLast => do
    let bans ← banRetire s.bans
    some { s with bans }
  | .walk who oc req => do
    let o := s.obj oc
    let ob ← o.ban
    match ← checkWalk vre s.bans o (who.sp req) who.hasReq with
    | .clean => some { s with done := (false, false) :: s.done }
    | .section b0 b => some (s.setChk who oc (some (.walked ⟨b0, b, ob, isHit vre s.bans o.http (who.sp req) ob b⟩)))
  | .locked who oc =>
    match s.chk who oc with
    | some (.walked c) => do
      let bans ← checkSection s.bans (s.obj oc) oc c.b0 c.b
      some ({ s with bans }.setChk who oc
        (some (.moved c (if (s.obj oc).ban = some c.b then some c.b0 else none))))
    | _ => none
  | .writes who oc =>
    match s.chk who oc with
    | some (.moved c _) =>
      let (o, r) := checkWrites s.bans (s.obj oc) c.b0 c.b
      some ({ s with obj := Function.update s.obj oc o, done := (r, c.hit) :: s.done }.setChk who oc none)
    | _ => none

/-- Who may call what: an object is not being checked when it is made or destroyed, a ban has the right flag, an insertion goes on with its own
bans, and a client or the lurker starts one check at a time. -/
def OverAct.Ok (s : Over R T) : OverAct R T → Prop
  | .newObj oc _ _ => ∀ who, s.chk who oc = none
  | .destroyObj oc => ∀ who, s.chk who oc = none
  | .insertHead c _ _ => c.Ok
  | .hunt b bi => b ∈ s.ins.map Prod.fst ∧ bi ∈ after b s.bans.head
  | .insertEnd b be => (b, be) ∈ s.ins
  | .checkLast => True
  | .walk who oc _ => s.chk who oc = none ∧ (who = .lurker → s.lurks = false)
  | .locked .. => True
  | .writes .. => True

/-- Where the object is now, if the check is between its part with the lock and its writes. -/
def movedTo : Option Phase → Option (Option ℕ)
  | some (.moved _ dst) => some dst
  | _ => none

/-- The check is between its part with the lock and its writes. -/
def isMoved (p : Option Phase) : Bool := (movedTo p).isSome

/-- The check may use the `o->ban` that its walk went to. -/
def Fresh (s : Over R T) (oc : ℕ) : Option Phase → Prop
  | some (.walked c) => (s.obj oc).ban = some c.ob
  | _ => True

/-- The condition: no check walks or takes the lock while another check of the object is between its part with the lock
and its writes, and none takes the lock after another one has changed `o->ban`. -/
def OverAct.Safe (s : Over R T) : OverAct R T → Prop
  | .walk who oc _ => isMoved (s.chk who.other oc) = false
  | .locked who oc => isMoved (s.chk who.other oc) = false ∧ Fresh s oc (s.chk who oc)
  | _ => True

end Sys

/-! ## The invariant -/

section Inv

variable {vre : Vre R} {s s' : Over R T} {who : Who} {oc : ℕ} {c : Chk}

/-- The ban that an object points at. Between the part with the lock and the writes of a check `o->ban` is out of date,
and the object points where the check has put it. -/
def Over.refers (s : Over R T) (oc : ℕ) : Option ℕ :=
  match movedTo (s.chk .client oc), movedTo (s.chk .lurker oc) with
  | some dst, _ => dst
  | none, some dst => dst
  | none, none => (s.obj oc).ban

/-- The references are right, and so are the results. -/
structure OverOk (s : Over R T) : Prop where
  /-- The count is the number of the objects that point at the ban plus the explicit references. -/
  count : ∀ b ∈ s.bans.head,
    (s.bans.ban b).refcount = ({oc | s.refers oc = some b}.ncard : ℤ) + (s.ins.map Prod.snd).count b
  /-- No object points at a ban that was retired. -/
  kept : ∀ oc b, s.refers oc = some b → b ∈ s.bans.head
  /-- The result is 1 only if a ban newer than the one of the object matched. -/
  result : ∀ d ∈ s.done, d.1 = true → d.2 = true

/-- A check in progress, on an object with the `o->ban` `oban` that points at `refers`. -/
def PhaseOk (head : List ℕ) (oban refers : Option ℕ) : Option Phase → Prop
  | none => True
  | some (.walked c) => c.ob < c.b0 ∧ (c.b ≠ c.ob → c.hit = true) ∧ (∀ ob, oban = some ob → c.ob ≤ ob) ∧
      (refers = some c.ob → c.b0 ∈ head)
  | some (.moved c dst) => c.ob < c.b0 ∧ (c.b ≠ c.ob → c.hit = true) ∧ oban = some c.ob ∧
      dst = if c.b = c.ob then some c.b0 else none

structure OverInv (s : Over R T) : Prop where
  counts : s.bans.Counts s.refers fun b => ((s.ins.map Prod.snd).count b : ℤ)
  wf : s.bans.Wf
  ok : ∀ b, (s.bans.ban b).toBanSpec.Ok
  kept : ∀ oc b, s.refers oc = some b → b ∈ s.bans.head
  ins_kept : ∀ p ∈ s.ins, p.2 ∈ s.bans.head
  one : ∀ who oc, isMoved (s.chk who oc) = true → isMoved (s.chk who.other oc) = false
  phase : ∀ who oc, PhaseOk s.bans.head (s.obj oc).ban (s.refers oc) (s.chk who oc)
  result : ∀ d ∈ s.done, d.1 = true → d.2 = true

theorem OverInv.overOk (h : OverInv s) : OverOk s where
  count b _ := by
    have hset : {oc | s.refers oc = some b} = ((s.bans.ban b).objcore.toFinset : Set ℕ) := by
      ext oc
      simp only [Set.mem_ofPred_eq, List.coe_toFinset]
      exact (h.counts.mem_iff b oc).symm
    have hcard := List.toFinset_card_of_nodup (h.counts.nodup b)
    rw [hset, Set.ncard_coe_finset, hcard]
    exact h.counts.count b
  kept := h.kept
  result := h.result

theorem overInv_init (R : Type) (now : T) : OverInv (Over.init R now) where
  counts := ⟨fun _ => rfl, fun _ _ => by simp [Over.init, newBan, BanRec.mark, Over.refers, movedTo],
    fun _ => List.nodup_nil⟩
  wf := wf_init _
  ok _ := rfl
  kept := by simp [Over.init, Over.refers, movedTo]
  ins_kept := by simp [Over.init]
  one := by simp [Over.init, isMoved, movedTo]
  phase _ _ := trivial
  result := by simp [Over.init]

theorem refers_congr {i : ℕ} (hc : ∀ w, s'.chk w i = s.chk w i) (ho : (s'.obj i).ban = (s.obj i).ban) :
    s'.refers i = s.refers i := by
  unfold Over.refers
  rw [hc, hc, ho]

/-- Nobody is between the part with the lock and the writes. -/
theorem refers_eq_ban (h : ∀ w, isMoved (s.chk w oc) = false) : s.refers oc = (s.obj oc).ban := by
  unfold Over.refers
  have hc := h .client
  have hl := h .lurker
  simp only [isMoved, Option.isSome_eq_false_iff, Option.isNone_iff_eq_none] at hc hl
  rw [hc, hl]

theorem refers_eq_dst (who : Who) {dst : Option ℕ} (h : movedTo (s.chk who oc) = some dst)
    (ho : isMoved (s.chk who.other oc) = false) : s.refers oc = dst := by
  unfold Over.refers
  simp only [isMoved, Option.isSome_eq_false_iff, Option.isNone_iff_eq_none] at ho
  cases who with
  | client => rw [h]
  | lurker =>
    rw [h]
    rw [Who.other] at ho
    rw [ho]

@[simp] theorem setChk_self (s : Over R T) (who : Who) (oc : ℕ) (p : Option Phase) :
    (s.setChk who oc p).chk who oc = p := by
  simp [Over.setChk]

@[simp] theorem setChk_other (s : Over R T) (who : Who) (oc : ℕ) (p : Option Phase) :
    (s.setChk who oc p).chk who.other oc = s.chk who.other oc := by
  cases who <;> simp [Over.setChk, Who.other]

theorem setChk_of_ne (s : Over R T) (who w : Who) {oc i : ℕ} (hi : i ≠ oc) (p : Option Phase) :
    (s.setChk who oc p).chk w i = s.chk w i := by
  simp [Over.setChk, hi]

theorem who_cases (who w : Who) : w = who ∨ w = who.other := by
  cases who <;> cases w <;> simp [Who.other]

end Inv

/-! ## The steps -/

section Steps

variable {vre : Vre R} {s s' : Over R T} {who : Who} {oc : ℕ} {c : Chk} {bans : Bans R T} {ins : List (ℕ × ℕ)}

/-- A step on the bans only, which keeps what is referred to and what checks in progress go to. -/
theorem OverInv.setBans (h : OverInv s)
    (hc : bans.Counts s.refers fun b => ((ins.map Prod.snd).count b : ℤ)) (hwf : bans.Wf)
    (hok : ∀ b, (bans.ban b).toBanSpec.Ok) (hins : ∀ p ∈ ins, p.2 ∈ bans.head)
    (hkept : ∀ oc b, s.refers oc = some b → b ∈ bans.head)
    (hwalk : ∀ who oc c, s.chk who oc = some (.walked c) → s.refers oc = some c.ob → c.b0 ∈ bans.head) :
    OverInv { s with bans, ins } where
  counts := hc
  wf := hwf
  ok := hok
  kept := hkept
  ins_kept := hins
  one := h.one
  phase who oc := by
    have hp := h.phase who oc
    change PhaseOk bans.head (s.obj oc).ban (s.refers oc) (s.chk who oc)
    match hph : s.chk who oc with
    | none => trivial
    | some (.walked c) =>
      rw [hph] at hp
      exact ⟨hp.1, hp.2.1, hp.2.2.1, hwalk who oc c hph⟩
    | some (.moved c dst) =>
      rw [hph] at hp
      exact hp
  result := h.result

theorem OverInv.walked_b0 (h : OverInv s) (hph : s.chk who oc = some (.walked c)) (hr : s.refers oc = some c.ob) :
    c.b0 ∈ s.bans.head := by
  have hp := h.phase who oc
  rw [hph] at hp
  exact hp.2.2.2 hr

theorem OverInv.hunt (h : OverInv s) (b bi : ℕ) : OverInv { s with bans := huntDup b s.bans bi } := by
  have heq := huntDup_eq s.bans b bi
  refine h.setBans (h.counts.congr ?_ ?_) ?_ ?_ ?_ ?_ ?_
  · simp [heq, BanRec.mark]
  · simp [heq, BanRec.mark]
  · rw [heq]
    exact ⟨h.wf.sorted, h.wf.lt_next, h.wf.first⟩
  · intro i
    rw [heq]
    exact h.ok i
  · rw [heq]
    exact h.ins_kept
  · rw [heq]
    exact h.kept
  · rw [heq]
    exact fun _ _ _ hph hr => h.walked_b0 hph hr

theorem OverInv.checkLast (h : OverInv s) (hr : banRetire s.bans = some bans) : OverInv { s with bans } := by
  rcases banRetire_eq h.counts (fun b => Int.natCast_nonneg _) with h1 | ⟨b, hlast, hfirst, -, he, hp, h1⟩
  · rw [h1, Option.some_inj] at hr
    subst hr
    exact h
  · rw [h1, Option.some_inj] at hr
    subst hr
    have hkeep : ∀ oc i, s.refers oc = some i → i ∈ s.bans.head.dropLast := fun oc i hi =>
      mem_dropLast hlast (h.kept oc i hi) fun hb => hp oc (hb ▸ hi)
    refine h.setBans h.counts (h.wf.retire hlast hfirst) h.ok (fun p hpi => ?_) hkeep fun w i c hph hri => ?_
    · refine mem_dropLast hlast (h.ins_kept p hpi) ?_
      rintro rfl
      have : (s.ins.map Prod.snd).count p.2 = 0 := by exact_mod_cast he
      exact List.count_eq_zero.mp this (List.mem_map_of_mem hpi)
    · -- the ban of the object is older than `b0`, so that `b0` is not the last one
      refine mem_dropLast hlast (h.walked_b0 hph hri) ?_
      rintro rfl
      have hlt : c.ob < c.b0 := by
        have hpo := h.phase w i
        rw [hph] at hpo
        exact hpo.1
      have hs := h.wf.sorted
      rw [← List.dropLast_append_getLast? c.b0 hlast] at hs
      have hgt := (List.pairwise_append.mp hs).2.2 c.ob (hkeep i c.ob hri) c.b0 (List.mem_singleton_self _)
      exact absurd hlt (Nat.not_lt.mpr (Nat.le_of_lt hgt))

theorem OverInv.insertEnd (h : OverInv s) {b be : ℕ} (hb : (b, be) ∈ s.ins) :
    OverInv { s with bans := s.bans.ref be (-1), ins := s.ins.erase (b, be) } := by
  have hmem : be ∈ s.ins.map Prod.snd := List.mem_map_of_mem hb
  have hext : (Function.update (fun b => ((s.ins.map Prod.snd).count b : ℤ)) be ((s.ins.map Prod.snd).count be + -1)) =
      fun i => (((s.ins.erase (b, be)).map Prod.snd).count i : ℤ) := by
    funext i
    have hperm : ((s.ins.map Prod.snd)).Perm (be :: (s.ins.erase (b, be)).map Prod.snd) :=
      (List.perm_cons_erase hb).map Prod.snd
    have hcount := hperm.count_eq i
    by_cases hi : i = be
    · subst hi
      rw [List.count_cons_self] at hcount
      rw [Function.update_self]
      omega
    · rw [List.count_cons_of_ne (Ne.symm hi)] at hcount
      rw [Function.update_of_ne hi, hcount]
  have hc := counts_ref h.counts be (-1)
  rw [hext] at hc
  have hsame : s.bans.Same (s.bans.ref be (-1)) := same_upd _ _ (fun _ => rfl) fun _ => rfl
  refine h.setBans hc (h.wf.same hsame) (fun i => hsame.spec i ▸ h.ok i) ?_ h.kept fun _ _ _ hph hr =>
    h.walked_b0 hph hr
  exact fun p hp => h.ins_kept p (List.mem_of_mem_erase hp)

/-- An insertion takes a reference on a ban of the list. -/
theorem OverInv.ref (h : OverInv s) (b : ℕ) {be : ℕ} (hbe : be ∈ s.bans.head) :
    OverInv { s with bans := s.bans.ref be 1, ins := (b, be) :: s.ins } := by
  have hext : (Function.update (fun b => ((s.ins.map Prod.snd).count b : ℤ)) be ((s.ins.map Prod.snd).count be + 1)) =
      fun i => ((((b, be) :: s.ins).map Prod.snd).count i : ℤ) := by
    funext i
    by_cases hi : i = be
    · subst hi
      simp
    · rw [Function.update_of_ne hi, List.map_cons, List.count_cons_of_ne (Ne.symm hi)]
  have hc := counts_ref h.counts be 1
  rw [hext] at hc
  have hsame : s.bans.Same (s.bans.ref be 1) := same_upd _ _ (fun _ => rfl) fun _ => rfl
  refine h.setBans hc (h.wf.same hsame) (fun i => hsame.spec i ▸ h.ok i) ?_ h.kept fun _ _ _ hph hr =>
    h.walked_b0 hph hr
  intro p hp
  rcases List.mem_cons.mp hp with rfl | hp
  · exact hbe
  · exact h.ins_kept p hp

theorem OverInv.insertHead (h : OverInv s) {x : BanSpec R} (hx : x.Ok) (now : T) (dups : Bool)
    (hs : overStep vre s (.insertHead x now dups) = some s') : OverInv s' := by
  have hout : s.bans.next ∉ s.bans.head := fun hm => Nat.lt_irrefl _ (h.wf.lt_next _ hm)
  let bans : Bans R T :=
    { ban := Function.update s.bans.ban s.bans.next (newBan x now), head := s.bans.next :: s.bans.head,
      start := s.bans.next, next := s.bans.next + 1 }
  -- the new list without the reference
  have hnew : OverInv { s with bans } := by
    refine h.setBans ?_ (h.wf.insert rfl rfl rfl) (fun i => ?_) ?_ ?_ ?_
    · refine counts_new (b := s.bans.next) h.counts ?_ ?_ ?_ fun i hi => ?_
      · have : s.bans.next ∉ s.ins.map Prod.snd := fun hm => by
          obtain ⟨p, hp, he⟩ := List.mem_map.mp hm
          exact hout (he ▸ h.ins_kept p hp)
        exact_mod_cast List.count_eq_zero.mpr this
      · exact fun oc hoc => hout (h.kept oc _ hoc)
      · simp [bans, newBan]
      · simp [bans, hi]
    · by_cases hi : i = s.bans.next
      · subst hi
        simpa [bans, newBan] using hx
      · simpa [bans, hi] using h.ok i
    · exact fun p hp => List.mem_cons_of_mem _ (h.ins_kept p hp)
    · exact fun oc b hb => List.mem_cons_of_mem _ (h.kept oc b hb)
    · exact fun _ _ _ hph hr => List.mem_cons_of_mem _ (h.walked_b0 hph hr)
  have hhead : banInsertHead s.bans x now dups =
      bans.head.getLast?.elim (none, bans) fun be =>
        if dups && be != s.bans.next then (some be, bans.ref be 1) else (none, bans) := rfl
  rw [overStep, hhead] at hs
  cases hl : bans.head.getLast? with
  | none =>
    rw [hl] at hs
    cases hs
    exact hnew
  | some be =>
    rw [hl, Option.elim_some] at hs
    split_ifs at hs
    · cases hs
      exact hnew.ref s.bans.next (List.mem_of_getLast? hl)
    · cases hs
      exact hnew

/-- An object that nobody checks changes, and the bans only in their counters. -/
theorem OverInv.setObj (h : OverInv s) {o : Object T} (hn : ∀ w, s.chk w oc = none) (hsame : s.bans.Same bans)
    (hc : bans.Counts (Function.update s.refers oc o.ban) fun b => ((s.ins.map Prod.snd).count b : ℤ))
    (hk : ∀ b, o.ban = some b → b ∈ s.bans.head) :
    OverInv { s with bans, obj := Function.update s.obj oc o } := by
  have hptr : ({ s with bans, obj := Function.update s.obj oc o } : Over R T).refers =
      Function.update s.refers oc o.ban := by
    funext i
    by_cases hi : i = oc
    · subst hi
      refine (refers_eq_ban fun w => ?_).trans (by simp)
      exact congrArg isMoved (hn w)
    · rw [Function.update_of_ne hi]
      exact refers_congr (fun _ => rfl) (by simp [hi])
  refine ⟨by rw [hptr]; exact hc, h.wf.same hsame, fun i => hsame.spec i ▸ h.ok i, fun i b hb => ?_, fun p hp => ?_,
    h.one, fun w i => ?_, h.result⟩
  · change b ∈ bans.head
    rw [hsame.head]
    rw [hptr] at hb
    by_cases hi : i = oc
    · subst hi
      rw [Function.update_self] at hb
      exact hk b hb
    · rw [Function.update_of_ne hi] at hb
      exact h.kept i b hb
  · change p.2 ∈ bans.head
    rw [hsame.head]
    exact h.ins_kept p hp
  · by_cases hi : i = oc
    · subst hi
      change PhaseOk _ _ _ (s.chk w i)
      rw [hn w]
      trivial
    · change PhaseOk bans.head _ _ (s.chk w i)
      rw [hptr, hsame.head]
      simpa [hi] using h.phase w i

theorem refers_of_idle (hn : ∀ w, s.chk w oc = none) : s.refers oc = (s.obj oc).ban :=
  refers_eq_ban fun w => congrArg isMoved (hn w)

theorem OverInv.newObj (h : OverInv s) {o : Object T} (hn : ∀ w, s.chk w oc = none) (ho : (s.obj oc).ban = none)
    (hb : o.ban = some s.bans.start) :
    OverInv { s with bans := s.bans.attach s.bans.start oc, obj := Function.update s.obj oc o } := by
  refine h.setObj hn (same_attach _ _ _) ?_ fun b hbb => ?_
  · rw [hb]
    exact counts_attach h.counts _ (by rw [refers_of_idle hn, ho])
  · rw [hb, Option.some_inj] at hbb
    exact hbb ▸ h.wf.start_mem

theorem OverInv.destroyObj (h : OverInv s) {o : Object T} (hn : ∀ w, s.chk w oc = none)
    (hd : banDestroyObj s.bans (s.obj oc) oc = some (bans, o)) :
    OverInv { s with bans, obj := Function.update s.obj oc o } := by
  unfold banDestroyObj at hd
  split at hd
  · cases hd
    rw [Function.update_eq_self]
    exact h
  · rename_i b hb
    split_ifs at hd
    obtain ⟨bs1, hbs1, hd⟩ := Option.bind_eq_some_iff.mp hd
    obtain ⟨bs2, hbs2, hd⟩ := Option.bind_eq_some_iff.mp hd
    cases hd
    obtain ⟨_, heq, hsame, hc⟩ := counts_detach h.counts ((refers_of_idle hn).trans hb)
    rw [hbs1, Option.some_inj] at heq
    subst heq
    have h1 : OverInv { s with bans := bs1, obj := Function.update s.obj oc { s.obj oc with ban := none } } :=
      h.setObj hn hsame hc fun _ hb => (by cases hb)
    exact h1.checkLast hbs2

/-- A walk that goes on to the lock. -/
theorem OverInv.walk (h : OverInv s) (hown : s.chk who oc = none) (hb0 : c.b0 = s.bans.start) (hlt : c.ob < c.b0)
    (hhit : c.b ≠ c.ob → c.hit = true) (hob : (s.obj oc).ban = some c.ob) :
    OverInv (s.setChk who oc (some (.walked c))) := by
  have hmoved : ∀ w i, movedTo ((s.setChk who oc (some (.walked c))).chk w i) = movedTo (s.chk w i) := fun w i => by
    by_cases hi : i = oc
    · subst hi
      rcases who_cases who w with rfl | rfl
      · rw [setChk_self, hown]
        rfl
      · rw [setChk_other]
    · rw [setChk_of_ne _ _ _ hi]
  have hptr : (s.setChk who oc (some (.walked c))).refers = s.refers := by
    funext i
    unfold Over.refers
    rw [hmoved, hmoved]
    rfl
  refine ⟨by rw [hptr]; exact h.counts, h.wf, h.ok, by rw [hptr]; exact h.kept, h.ins_kept, fun w i => ?_, fun w i => ?_,
    h.result⟩
  · unfold isMoved
    rw [hmoved, hmoved]
    exact h.one w i
  · rw [hptr]
    by_cases hi : i = oc
    · subst hi
      rcases who_cases who w with rfl | rfl
      · rw [setChk_self]
        refine ⟨hlt, hhit, fun ob hb => ?_, fun _ => hb0 ▸ h.wf.start_mem⟩
        have hb : (s.obj i).ban = some ob := hb
        rw [hob, Option.some_inj] at hb
        exact hb.le
      · rw [setChk_other]
        exact h.phase _ i
    · rw [setChk_of_ne _ _ _ hi]
      exact h.phase w i

/-- The part with the lock, of a check that saw the right `o->ban`. -/
theorem OverInv.locked (h : OverInv s) (hph : s.chk who oc = some (.walked c))
    (hother : isMoved (s.chk who.other oc) = false) (hfresh : (s.obj oc).ban = some c.ob) :
    ∃ bans, checkSection s.bans (s.obj oc) oc c.b0 c.b = some bans ∧
      OverInv ({ s with bans }.setChk who oc
        (some (.moved c (if (s.obj oc).ban = some c.b then some c.b0 else none)))) := by
  have hpo := h.phase who oc
  rw [hph] at hpo
  obtain ⟨hlt, hhit, hle, hb0⟩ := hpo
  have hfree : ∀ w, isMoved (s.chk w oc) = false := fun w => by
    rcases who_cases who w with rfl | rfl
    · rw [hph]
      rfl
    · exact hother
  have href : s.refers oc = some c.ob := (refers_eq_ban hfree).trans hfresh
  obtain ⟨bans, hres, hsame, hc⟩ := checkSection_spec h.counts hfresh href c.b0 c.b
  refine ⟨bans, hres, ?_⟩
  have hdst : (if (s.obj oc).ban = some c.b then some c.b0 else none) = if c.b = c.ob then some c.b0 else none := by
    by_cases hb : c.b = c.ob
    · simp [hfresh, hb]
    · simp [hfresh, hb, Ne.symm hb]
  rw [hdst]
  set dst : Option ℕ := if c.b = c.ob then some c.b0 else none with hd
  have hptr : ({ s with bans }.setChk who oc (some (.moved c dst))).refers = Function.update s.refers oc dst := by
    funext i
    by_cases hi : i = oc
    · subst hi
      rw [Function.update_self]
      exact refers_eq_dst who (by rw [setChk_self]; rfl) (by rw [setChk_other]; exact hother)
    · rw [Function.update_of_ne hi]
      exact refers_congr (fun w => setChk_of_ne _ _ _ hi _) rfl
  -- the object goes to a newer ban, so that other checks of it are out of date
  have hnewer : ∀ b, dst = some b → c.ob < b ∧ b ∈ s.bans.head := fun b hb => by
    rw [hd] at hb
    split_ifs at hb
    cases hb
    exact ⟨hlt, hb0 href⟩
  refine ⟨by rw [hptr]; exact hc, h.wf.same hsame, fun i => hsame.spec i ▸ h.ok i, fun i b hb => ?_, fun p hp => ?_,
    fun w i => ?_, fun w i => ?_, h.result⟩
  · change b ∈ bans.head
    rw [hptr] at hb
    rw [hsame.head]
    by_cases hi : i = oc
    · subst hi
      rw [Function.update_self] at hb
      exact (hnewer b hb).2
    · rw [Function.update_of_ne hi] at hb
      exact h.kept i b hb
  · change p.2 ∈ bans.head
    rw [hsame.head]
    exact h.ins_kept p hp
  · by_cases hi : i = oc
    · subst hi
      rcases who_cases who w with rfl | rfl
      · intro _
        rw [setChk_other]
        exact hother
      · rw [setChk_other]
        intro hm
        change isMoved (s.chk who.other i) = true at hm
        rw [hother] at hm
        cases hm
    · rw [setChk_of_ne _ _ _ hi, setChk_of_ne _ _ _ hi]
      exact h.one w i
  · change PhaseOk bans.head (s.obj i).ban _ _
    rw [hptr, hsame.head]
    by_cases hi : i = oc
    · subst hi
      rw [Function.update_self]
      rcases who_cases who w with rfl | rfl
      · rw [setChk_self]
        exact ⟨hlt, hhit, hfresh, hd⟩
      · rw [setChk_other]
        change PhaseOk _ _ _ (s.chk who.other i)
        have hp := h.phase who.other i
        match hpo : s.chk who.other i with
        | none => trivial
        | some (.moved c' dst') =>
          rw [hpo] at hother
          cases hother
        | some (.walked c') =>
          rw [hpo] at hp
          refine ⟨hp.1, hp.2.1, hp.2.2.1, fun hb => ?_⟩
          have h1 := (hnewer _ hb).1
          have h2 := hp.2.2.1 c.ob hfresh
          omega
    · rw [Function.update_of_ne hi, setChk_of_ne _ _ _ hi]
      exact h.phase w i

/-- The writes at the end of a check. -/
theorem OverInv.writes (h : OverInv s) {dst : Option ℕ} (hph : s.chk who oc = some (.moved c dst)) :
    OverInv ({ s with
      obj := Function.update s.obj oc (checkWrites s.bans (s.obj oc) c.b0 c.b).1
      done := ((checkWrites s.bans (s.obj oc) c.b0 c.b).2, c.hit) :: s.done }.setChk who oc none) := by
  have hpo := h.phase who oc
  rw [hph] at hpo
  obtain ⟨hlt, hhit, hban, hdst⟩ := hpo
  have hother := h.one who oc (by rw [hph]; rfl)
  have href : s.refers oc = dst := refers_eq_dst who (by rw [hph]; rfl) hother
  have hb : (checkWrites s.bans (s.obj oc) c.b0 c.b).1.ban = dst := by
    unfold checkWrites
    by_cases hb : c.b = c.ob
    · simp [hban, hb, hdst]
    · simp [hban, hb, Ne.symm hb, hdst]
  have hr : (checkWrites s.bans (s.obj oc) c.b0 c.b).2 = true → c.b ≠ c.ob := by
    unfold checkWrites
    intro hr he
    simp [hban, he] at hr
  generalize checkWrites s.bans (s.obj oc) c.b0 c.b = w at hb hr
  obtain ⟨o, r⟩ := w
  dsimp only at hb hr
  let s1 : Over R T := { s with obj := Function.update s.obj oc o, done := (r, c.hit) :: s.done }
  change OverInv (s1.setChk who oc none)
  have hfree : ∀ w, isMoved ((s1.setChk who oc none).chk w oc) = false := fun w => by
    rcases who_cases who w with rfl | rfl
    · rw [setChk_self]
      rfl
    · rw [setChk_other]
      exact hother
  have hptr : (s1.setChk who oc none).refers = s.refers := by
    funext i
    by_cases hi : i = oc
    · subst hi
      rw [refers_eq_ban hfree, href, ← hb]
      simp [Over.setChk, s1]
    · exact refers_congr (fun w => setChk_of_ne _ _ _ hi _) (by simp [Over.setChk, s1, hi])
  refine ⟨by rw [hptr]; exact h.counts, h.wf, h.ok, by rw [hptr]; exact h.kept, h.ins_kept, fun w i => ?_, fun w i => ?_,
    fun d hd => ?_⟩
  · by_cases hi : i = oc
    · subst hi
      exact fun _ => hfree _
    · rw [setChk_of_ne _ _ _ hi, setChk_of_ne _ _ _ hi]
      exact h.one w i
  · rw [hptr]
    by_cases hi : i = oc
    · subst hi
      rcases who_cases who w with rfl | rfl
      · rw [setChk_self]
        trivial
      · rw [setChk_other]
        have hp := h.phase who.other i
        have ho : ((s1.setChk who i none).obj i).ban = dst := by simpa [Over.setChk, s1] using hb
        rw [ho]
        change PhaseOk s.bans.head dst (s.refers i) (s.chk who.other i)
        match hpo : s.chk who.other i with
        | none => trivial
        | some (.moved c' dst') =>
          rw [hpo] at hother
          cases hother
        | some (.walked c') =>
          rw [hpo] at hp
          refine ⟨hp.1, hp.2.1, fun ob hob => ?_, hp.2.2.2⟩
          have h2 := hp.2.2.1 c.ob hban
          rw [hdst] at hob
          split_ifs at hob
          cases hob
          omega
    · rw [setChk_of_ne _ _ _ hi]
      simpa [Over.setChk, s1, hi] using h.phase w i
  · rcases List.mem_cons.mp hd with rfl | hd
    · exact fun h1 => hhit (hr h1)
    · exact h.result d hd

/-- A walk that does not return at once sees a match, or comes to the ban of the object. -/
theorem checkWalk_hit (h : OverInv s) {req : Http} {ob b0 b : ℕ} (hown : s.chk who oc = none)
    (hother : isMoved (s.chk who.other oc) = false) (hob : (s.obj oc).ban = some ob)
    (hw : checkWalk vre s.bans (s.obj oc) (who.sp req) who.hasReq = some (.section b0 b)) :
    b0 = s.bans.start ∧ ob < b0 ∧ (b ≠ ob → isHit vre s.bans (s.obj oc).http (who.sp req) ob b = true) := by
  have hfree : ∀ w, isMoved (s.chk w oc) = false := fun w => by
    rcases who_cases who w with rfl | rfl
    · rw [hown]
      rfl
    · exact hother
  have hmem : ob ∈ s.bans.head := h.kept oc ob ((refers_eq_ban hfree).trans hob)
  have hsp : who.hasReq = true → (who.sp req).isSome := fun hr => by simp [Who.sp, hr]
  rw [checkWalk_eq hob hmem h.wf.first (fun b _ => h.ok b) hsp, Option.some_inj] at hw
  cases hf : (walked s.bans ob).find? (stop vre (fun b => (s.bans.ban b).toBanSpec) (s.obj oc).http (who.sp req)
      who.hasReq) with
  | none =>
    rw [hf] at hw
    dsimp only at hw
    split_ifs at hw with hst
    cases hw
    exact ⟨rfl, h.wf.lt_start hmem hst, fun hne => absurd rfl hne⟩
  | some x =>
    rw [hf] at hw
    dsimp only at hw
    split_ifs at hw with hreq
    cases hw
    have hx := List.mem_of_find?_eq_some hf
    have hstop := List.find?_some hf
    have hst : s.bans.start ≠ ob := fun hst => by
      rw [← hst, h.wf.walked_start] at hx
      cases hx
    refine ⟨rfl, h.wf.lt_start hmem hst, fun _ => ?_⟩
    unfold stop at hstop
    simp only [hreq, Bool.false_or] at hstop
    simp [isHit, hx, hstop]

theorem overInv_step (a : OverAct R T) (h : OverInv s) (hok : a.Ok s) (hsafe : a.Safe s)
    (hs : overStep vre s a = some s') : OverInv s' := by
  cases a with
  | newObj oc http ttl =>
    obtain ⟨⟨bans, o⟩, hn, hs⟩ := Option.bind_eq_some_iff.mp hs
    cases hs
    unfold banNewObj at hn
    split_ifs at hn with ho
    cases hn
    exact h.newObj hok ho rfl
  | destroyObj oc =>
    obtain ⟨⟨bans, o⟩, hd, hs⟩ := Option.bind_eq_some_iff.mp hs
    cases hs
    exact h.destroyObj hok hd
  | insertHead x now dups => exact h.insertHead hok now dups hs
  | hunt b bi =>
    cases hs
    exact h.hunt b bi
  | insertEnd b be =>
    cases hs
    exact h.insertEnd hok
  | checkLast =>
    obtain ⟨bans, hr, hs⟩ := Option.bind_eq_some_iff.mp hs
    cases hs
    exact h.checkLast hr
  | walk who oc req =>
    obtain ⟨ob, hob, hs⟩ := Option.bind_eq_some_iff.mp hs
    obtain ⟨w, hw, hs⟩ := Option.bind_eq_some_iff.mp hs
    cases w with
    | clean =>
      cases hs
      refine ⟨h.counts, h.wf, h.ok, h.kept, h.ins_kept, h.one, h.phase, fun d hd => ?_⟩
      rcases List.mem_cons.mp hd with rfl | hd
      · exact fun h1 => absurd h1 Bool.false_ne_true
      · exact h.result d hd
    | «section» b0 b =>
      cases hs
      obtain ⟨hb0, hlt, hhit⟩ := checkWalk_hit h hok.1 hsafe hob hw
      exact h.walk hok.1 hb0 hlt hhit hob
  | locked who oc =>
    rw [overStep] at hs
    split at hs
    · rename_i c hph
      have hfresh : Fresh s oc (s.chk who oc) := hsafe.2
      rw [hph] at hfresh
      obtain ⟨bans, hres, hinv⟩ := h.locked hph hsafe.1 hfresh
      rw [hres] at hs
      cases hs
      exact hinv
    · cases hs
  | writes who oc =>
    rw [overStep] at hs
    split at hs
    · rename_i c dst hph
      cases hs
      exact h.writes hph
    · cases hs

end Steps

/-! ## Whole runs -/

section Runs

/-- **The references and the results are right** in every state of every run in which no check walks or takes the lock
while another one of the object is between its part with the lock and its writes, or takes the lock when `o->ban` is no
longer the ban it walked to. -/
theorem reach_overOk (vre : Vre R) (now : T) {s : Over R T}
    (h : Reach (overStep vre) (fun s a => a.Ok s ∧ a.Safe s) (Over.init R now) s) : OverOk s :=
  (h.inv (I := OverInv) (overInv_init R now) fun _ a _ hi hok hs => overInv_step a hi hok.1 hok.2 hs).overOk

instance OverAct.decOk (s : Over R T) : (a : OverAct R T) → Decidable (a.Ok s)
  | .newObj oc _ _ | .destroyObj oc =>
    decidable_of_iff (s.chk .client oc = none ∧ s.chk .lurker oc = none)
      ⟨fun h who => by cases who <;> simp [h], fun h => ⟨h .client, h .lurker⟩⟩
  | .insertHead c _ _ => inferInstanceAs (Decidable (c.req = _))
  | .hunt b bi => inferInstanceAs (Decidable (b ∈ s.ins.map Prod.fst ∧ bi ∈ after b s.bans.head))
  | .insertEnd b be => inferInstanceAs (Decidable ((b, be) ∈ s.ins))
  | .checkLast | .locked .. | .writes .. => isTrue trivial
  | .walk who oc _ => inferInstanceAs (Decidable (s.chk who oc = none ∧ (who = .lurker → s.lurks = false)))

instance decFresh (s : Over R T) (oc : ℕ) : (p : Option Phase) → Decidable (Fresh s oc p)
  | some (.walked c) => inferInstanceAs (Decidable ((s.obj oc).ban = some c.ob))
  | some (.moved ..) => isTrue trivial
  | none => isTrue trivial

instance OverAct.decSafe (s : Over R T) : (a : OverAct R T) → Decidable (a.Safe s)
  | .walk who oc _ => inferInstanceAs (Decidable (isMoved (s.chk who.other oc) = false))
  | .locked who oc => inferInstanceAs (Decidable (isMoved (s.chk who.other oc) = false ∧ Fresh s oc (s.chk who oc)))
  | .newObj .. | .destroyObj _ | .insertHead .. | .hunt .. | .insertEnd .. | .checkLast | .writes .. => isTrue trivial

/-- A ban that does not match objects without a header `a`. -/
def banOnA : BanSpec Str := ⟨[⟨.objHttp "a".toList, false, .dst "c".toList⟩], false, "obj.http.a == c".toList⟩

/-- The lurker walks while a client checks the same object, and returns to it afterwards. -/
def turnsRun : List (OverAct Str ℕ) :=
  [.newObj 0 ⟨none, []⟩ 10, .insertHead banOnA 1 true, .walk .client 0 ⟨none, []⟩, .hunt 1 0, .insertEnd 1 0,
    .locked .client 0, .checkLast, .writes .client 0, .insertHead banOnA 2 false, .walk .lurker 0 ⟨none, []⟩,
    .locked .lurker 0, .writes .lurker 0, .checkLast]

theorem reach_overOk_turnsRun : ∃ s : Over Str ℕ,
    Reach (overStep plainVre) (fun s a => a.Ok s ∧ a.Safe s) (Over.init Str 0) s ∧ OverOk s ∧
    (s.obj 0).ban = some 2 ∧ s.bans.head = [2] := by
  have hres : (turnsRun.foldlM (overStep plainVre) (Over.init Str 0)).map (fun s => ((s.obj 0).ban, s.bans.head)) =
      some (some 2, [2]) := by decide +kernel
  obtain ⟨s, hs, hc⟩ := Option.map_eq_some_iff.mp hres
  obtain ⟨h1, h2⟩ := Prod.mk.inj hc
  have hreach : Reach (overStep plainVre) (fun s a => a.Ok s ∧ a.Safe s) (Over.init Str 0) s :=
    Reach.of_run (by decide +kernel) hs
  exact ⟨s, hreach, reach_overOk plainVre 0 hreach, h1, h2⟩

/-- The lurker has walked when a client checks the object from the beginning to the end. -/
def crossRun : List (OverAct Str ℕ) :=
  [.newObj 0 ⟨none, []⟩ 10, .insertHead banOnA 1 false, .walk .lurker 0 ⟨none, []⟩, .walk .client 0 ⟨none, []⟩,
    .locked .client 0, .writes .client 0, .locked .lurker 0, .writes .lurker 0]

/-- The lurker then takes the object for banned. -/
theorem banned_without_match : ∃ s : Over Str ℕ,
    Reach (overStep plainVre) (fun s a => a.Ok s) (Over.init Str 0) s ∧ ¬ OverOk s := by
  have hres : (crossRun.foldlM (overStep plainVre) (Over.init Str 0)).map (fun s => s.done) =
      some [(true, false), (false, false)] := by decide +kernel
  obtain ⟨s, hs, hc⟩ := Option.map_eq_some_iff.mp hres
  refine ⟨s, Reach.of_run (by decide +kernel) hs, fun hok => ?_⟩
  have := hok.result (true, false) (by rw [hc]; simp) rfl
  cases this

end Runs

end Varnish.Ban
