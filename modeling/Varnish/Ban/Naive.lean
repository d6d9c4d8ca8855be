import Varnish.Ban.Count
import Varnish.Lib.Run

/-!
# Varnish.Ban.Naive — the ban list against a list that is never tidied up

* `Cache`, `cacheStep`: the ban list and the objects, and the operations of the command line, of the clients and of the
  lurker on them.
* `Naive`, `naiveStep`: the reference, which keeps for every object the bans that are still in force for it.
* `Sim`: each ban in force has a newer or equal one with the same tests before the ban of the object.
* `outputs_naive`: the answers are those of the reference, if no ban goes as the duplicate of one with other tests.
* `text_clash`: a run in which one does, and an object that is served although a ban matches it.
-/

namespace Varnish.Ban

open Varnish.Lib

variable {R T : Type}

/-! ## The two systems -/

section Systems

inductive Op (T : Type) where
  | insert (av : List Str) (now : T) (dups : Bool)
  | newObj (oc : ℕ) (http : Http) (ttl : ℤ)
  | check (oc : ℕ) (req : Http)
  | lurker (oc : ℕ)
  | destroy (oc : ℕ)
  | checkLast

inductive Out where
  | done
  | error (msg : Str)
  | checked (banned : Bool)
deriving DecidableEq

/-- The ban list and the objects; an object without a ban is not checked. -/
structure Cache (R T : Type) where
  bans : Bans R T
  obj : ℕ → Object T

/-- After `BAN_Init`. -/
def Cache.init (R : Type) {T : Type} (now : T) : Cache R T where
  bans := ⟨fun _ => (newBan banNew now).mark true, [0], 0, 1⟩
  obj _ := ⟨⟨none, []⟩, none, now, 0, false⟩

def Cache.setObj (s : Cache R T) (oc : ℕ) (bans : Bans R T) (o : Object T) : Cache R T :=
  ⟨bans, Function.update s.obj oc o⟩

/-- An operation and its answer. -/
def cacheStep (vre : Vre R) (s : Cache R T) : Op T → Option (Cache R T × Out)
  | .insert av now dups => do
    match ← ccfPurge vre av with
    | .error e => some (s, .error e)
    | .ok c => some ({ s with bans := banInsert s.bans c now dups }, .done)
  | .newObj oc http ttl => do
    let (bans, o) ← banNewObj s.bans { s.obj oc with http, ttl, cacheable := true } oc
    some (s.setObj oc bans o, .done)
  | .check oc req => do
    let (bans, o, r) ← banCheckObject vre s.bans (s.obj oc) oc (some req) true
    some (s.setObj oc bans o, .checked r)
  | .lurker oc => do
    let (bans, o, r) ← banCheckObject vre s.bans (s.obj oc) oc none false
    some (s.setObj oc bans o, .checked r)
  | .destroy oc => do
    let (bans, o) ← banDestroyObj s.bans (s.obj oc) oc
    some (s.setObj oc bans o, .done)
  | .checkLast => do
    let bans ← banRetire s.bans
    some ({ s with bans }, .done)

/-- The reference: all the bans there ever were, and for each object that can be checked its headers and the bans since
its creation that no check found not to match, newest first. -/
structure Naive (R : Type) where
  ban : ℕ → BanSpec R
  next : ℕ
  obj : ℕ → Option (Http × List ℕ)

def Naive.init (R : Type) : Naive R := ⟨fun _ => banNew, 1, fun _ => none⟩

def Naive.setObj (n : Naive R) (oc : ℕ) (x : Option (Http × List ℕ)) : Naive R :=
  { n with obj := Function.update n.obj oc x }

def naiveStep (vre : Vre R) (n : Naive R) : Op T → Option (Naive R × Out)
  | .insert av _ _ => do
    match ← ccfPurge vre av with
    | .error e => some (n, .error e)
    | .ok c =>
      some (⟨Function.update n.ban n.next c, n.next + 1, fun oc => (n.obj oc).map fun x => (x.1, n.next :: x.2)⟩, .done)
  | .newObj oc http _ => if n.obj oc = none then some (n.setObj oc (some (http, [])), .done) else none
  | .check oc req => do
    let (http, p) ← n.obj oc
    if p.any fun b => holds vre http (some req) (n.ban b).tests then some (n.setObj oc none, .checked true)
    else some (n.setObj oc (some (http, [])), .checked false)
  | .lurker oc => do
    let (http, p) ← n.obj oc
    -- the bans before the first that matches or looks at the request are evaluated, and do not match
    match p.dropWhile fun b => !(n.ban b).req && !holds vre http none (n.ban b).tests with
    | [] => some (n.setObj oc (some (http, [])), .checked false)
    | b :: l =>
      if (n.ban b).req then some (n.setObj oc (some (http, b :: l)), .checked false)
      else some (n.setObj oc none, .checked true)
  | .destroy oc => some (n.setObj oc none, .done)
  | .checkLast => some (n, .done)

/-- No ban that is still in force has the text of the new one but other tests. -/
def NoClash (s : Bans R T) (c : BanSpec R) : Prop :=
  ∀ b ∈ s.head, (s.ban b).gone = false → c.test = (s.ban b).test → (s.ban b).tests = c.tests

instance decNoClash [DecidableEq R] (s : Bans R T) (c : BanSpec R) : Decidable (NoClash s c) :=
  inferInstanceAs (Decidable (∀ b ∈ s.head, _ → _ → _))

/-- The condition: a ban that is inserted with `purge_dups` does not clash with another one. -/
def Op.Safe (vre : Vre R) (s : Cache R T) : Op T → Prop
  | .insert av _ true =>
    match ccfPurge vre av with
    | some (.ok c) => NoClash s.bans c
    | _ => True
  | _ => True

instance Op.decSafe [DecidableEq R] (vre : Vre R) (s : Cache R T) : (op : Op T) → Decidable (op.Safe vre s)
  | .insert av now true =>
    match h : ccfPurge vre av with
    | some (.ok c) => decidable_of_iff (NoClash s.bans c) (by simp [Op.Safe, h])
    | some (.error e) => isTrue (by simp [Op.Safe, h])
    | none => isTrue (by simp [Op.Safe, h])
  | .insert _ _ false => isTrue trivial
  | .newObj .. => isTrue trivial
  | .check .. => isTrue trivial
  | .lurker _ => isTrue trivial
  | .destroy _ => isTrue trivial
  | .checkLast => isTrue trivial

end Systems

/-! ## Bans in force -/

section Force

variable {vre : Vre R} {ban : ℕ → BanSpec R} {next : ℕ} {http : Http} {w p : List ℕ}

/-- The ban does not look at the request, and does not match. -/
def Harmless (vre : Vre R) (http : Http) (c : BanSpec R) : Prop := c.req = false ∧ holds vre http none c.tests = false

/-- Without tests of the request, the request does not matter. -/
theorem holds_of_not_req {bts : List (BanTest R)} (h : (bts.any fun bt => bt.func.isReq) = false) (sp : Option Http) :
    holds vre http sp bts = holds vre http none bts := by
  unfold holds
  rw [Bool.eq_iff_iff, List.all_eq_true, List.all_eq_true]
  have hc : ∀ bt ∈ bts, banCond vre bt http sp = banCond vre bt http none := fun bt hbt => by
    have hr := List.any_eq_false.mp h bt hbt
    unfold banCond
    cases hf : bt.func with
    | objHttp src => rfl
    | url => simp [hf, BanFunc.isReq] at hr
    | reqHttp src => simp [hf, BanFunc.isReq] at hr
  exact ⟨fun ha bt hbt => hc bt hbt ▸ ha bt hbt, fun ha bt hbt => (hc bt hbt).symm ▸ ha bt hbt⟩

/-- A harmless ban stops no walk. -/
theorem Harmless.not_stop {b : ℕ} (h : Harmless vre http (ban b)) (hok : (ban b).Ok) (sp : Option Http) (hasReq : Bool) :
    stop vre ban http sp hasReq b = false := by
  have hq : ((ban b).tests.any fun bt => bt.func.isReq) = false := hok ▸ h.1
  unfold stop
  rw [holds_of_not_req hq, h.1, h.2]
  simp

/-- `w` are the bans that a walk looks at, and `p` those that are in force for the object. -/
structure Force (vre : Vre R) (ban : ℕ → BanSpec R) (next : ℕ) (http : Http) (w p : List ℕ) : Prop where
  sorted : p.Pairwise (· > ·)
  lt_next : ∀ a ∈ p, a < next
  covered : ∀ a ∈ p, ∃ b ∈ w, a ≤ b ∧ (ban b).tests = (ban a).tests
  harmless : ∀ b ∈ w, b ∈ p ∨ Harmless vre http (ban b)

/-- What is found first in a descending list. -/
theorem find?_sorted {l : List ℕ} {f : ℕ → Bool} (hl : l.Pairwise (· > ·)) {x : ℕ} :
    l.find? f = some x ↔ x ∈ l ∧ f x = true ∧ ∀ y ∈ l, f y = true → y ≤ x := by
  induction l with
  | nil => simp
  | cons a l ih =>
    rw [List.pairwise_cons] at hl
    rw [List.find?_cons]
    cases hf : f a with
    | true =>
      simp only [Option.some_inj, List.mem_cons]
      refine ⟨?_, ?_⟩
      · rintro rfl
        refine ⟨Or.inl rfl, hf, ?_⟩
        rintro y (rfl | hy) _
        · exact le_refl _
        · exact (hl.1 y hy).le
      · rintro ⟨rfl | hx, -, hmax⟩
        · rfl
        · exact absurd (hmax a (Or.inl rfl) hf) (Nat.not_le.mpr (hl.1 x hx))
    | false =>
      simp only [ih hl.2, List.mem_cons]
      refine ⟨?_, ?_⟩
      · rintro ⟨hx, hfx, hmax⟩
        refine ⟨Or.inr hx, hfx, ?_⟩
        rintro y (rfl | hy) hfy
        · rw [hf] at hfy
          cases hfy
        · exact hmax y hy hfy
      · rintro ⟨rfl | hx, hfx, hmax⟩
        · rw [hf] at hfx
          cases hfx
        · exact ⟨hx, hfx, fun y hy => hmax y (Or.inr hy)⟩

/-- Two descending lists, where what is found in one is in the other and conversely up to something greater. -/
theorem find?_eq_of_sorted {f : ℕ → Bool} (hw : w.Pairwise (· > ·)) (hp : p.Pairwise (· > ·))
    (h1 : ∀ b ∈ w, f b = true → b ∈ p) (h2 : ∀ a ∈ p, f a = true → ∃ b ∈ w, a ≤ b ∧ f b = true) :
    w.find? f = p.find? f := by
  cases hfw : w.find? f with
  | none =>
    symm
    rw [List.find?_eq_none] at hfw ⊢
    intro a ha hfa
    obtain ⟨b, hb, -, hfb⟩ := h2 a ha hfa
    exact hfw b hb hfb
  | some x =>
    obtain ⟨hx, hfx, hmax⟩ := (find?_sorted hw).mp hfw
    symm
    refine (find?_sorted hp).mpr ⟨h1 x hx hfx, hfx, fun a ha hfa => ?_⟩
    obtain ⟨b, hb, hab, hfb⟩ := h2 a ha hfa
    exact hab.trans (hmax b hb hfb)

/-- **The two walks end at the same ban.** -/
theorem Force.find?_eq (h : Force vre ban next http w p) (hw : w.Pairwise (· > ·))
    (hok : ∀ b, (ban b).Ok) (sp : Option Http) (hasReq : Bool) :
    w.find? (stop vre ban http sp hasReq) = p.find? (stop vre ban http sp hasReq) := by
  refine find?_eq_of_sorted hw h.sorted (fun b hb hf => ?_) fun a ha hf => ?_
  · rcases h.harmless b hb with hp | hh
    · exact hp
    · rw [hh.not_stop (hok b)] at hf
      cases hf
  · obtain ⟨b, hb, hab, ht⟩ := h.covered a ha
    refine ⟨b, hb, hab, ?_⟩
    have hreq : (ban b).req = (ban a).req := by
      rw [hok b, hok a, ht]
    unfold stop at hf ⊢
    rwa [hreq, ht]

/-- A new ban covers the ones with its tests that are no longer walked. -/
theorem Force.insert (dup : ℕ → Prop) {w' : List ℕ} {c : BanSpec R} (h : Force vre ban next http w p)
    (hw : ∀ b ∈ w, b < next) (hw' : ∀ b, b ∈ w' ↔ b = next ∨ (b ∈ w ∧ ¬ dup b))
    (hdup : ∀ b ∈ w, dup b → (ban b).tests = c.tests) :
    Force vre (Function.update ban next c) (next + 1) http w' (next :: p) := by
  have hold : ∀ i, i < next → Function.update ban next c i = ban i := fun i hi => Function.update_of_ne hi.ne _ _
  refine ⟨List.pairwise_cons.mpr ⟨h.lt_next, h.sorted⟩, fun a ha => ?_, fun a ha => ?_, fun b hb => ?_⟩
  · rcases List.mem_cons.mp ha with rfl | ha
    · exact Nat.lt_succ_self _
    · exact Nat.lt_succ_of_lt (h.lt_next a ha)
  · rcases List.mem_cons.mp ha with rfl | ha
    · exact ⟨a, (hw' a).mpr (Or.inl rfl), le_refl _, rfl⟩
    · obtain ⟨b, hb, hab, ht⟩ := h.covered a ha
      rw [hold a (h.lt_next a ha)]
      by_cases hd : dup b
      · refine ⟨next, (hw' next).mpr (Or.inl rfl), (h.lt_next a ha).le, ?_⟩
        rw [Function.update_self, ← ht, hdup b hb hd]
      · refine ⟨b, (hw' b).mpr (Or.inr ⟨hb, hd⟩), hab, ?_⟩
        rw [hold b (hw b hb), ht]
  · rcases (hw' b).mp hb with rfl | ⟨hb, -⟩
    · exact Or.inl List.mem_cons_self
    · rw [hold b (hw b hb)]
      exact (h.harmless b hb).imp_left (List.mem_cons_of_mem _)

/-- Harmless bans need not stay in force. -/
theorem Force.sublist {p' : List ℕ} (h : Force vre ban next http w p) (hsub : p'.Sublist p)
    (hh : ∀ b ∈ p, b ∉ p' → Harmless vre http (ban b)) : Force vre ban next http w p' where
  sorted := h.sorted.sublist hsub
  lt_next a ha := h.lt_next a (hsub.mem ha)
  covered a ha := h.covered a (hsub.mem ha)
  harmless b hb := by
    by_cases hb' : b ∈ p'
    · exact Or.inl hb'
    · exact Or.inr ((h.harmless b hb).elim (fun hp => hh b hp hb') id)

theorem force_nil (vre : Vre R) (ban : ℕ → BanSpec R) (next : ℕ) (http : Http) : Force vre ban next http [] [] :=
  ⟨List.Pairwise.nil, fun _ h => (by cases h), fun _ h => (by cases h), fun _ h => (by cases h)⟩

end Force

/-! ## The simulation -/

section Simulation

variable {vre : Vre R} {s : Cache R T} {n : Naive R} {bs bs' : Bans R T} {o : Object T} {oc ob : ℕ}

/-- An object of the cache and what the reference has for it. -/
def ObjSim (vre : Vre R) (bs : Bans R T) (ban : ℕ → BanSpec R) (next : ℕ) (o : Object T) : Option (Http × List ℕ) → Prop
  | none => o.ban = none
  | some (http, p) =>
    http = o.http ∧ ∃ ob ∈ bs.head, o.ban = some ob ∧ Force vre ban next http (walked bs ob) p

structure Sim (vre : Vre R) (s : Cache R T) (n : Naive R) : Prop where
  counts : s.bans.Counts (fun oc => (s.obj oc).ban) fun _ => 0
  wf : s.bans.Wf
  next_eq : n.next = s.bans.next
  spec : ∀ b, (s.bans.ban b).toBanSpec = n.ban b
  ok : ∀ b, (n.ban b).Ok
  obj : ∀ oc, ObjSim vre s.bans n.ban n.next (s.obj oc) (n.obj oc)

theorem sim_init (vre : Vre R) (now : T) : Sim vre (Cache.init R now) (Naive.init R) where
  counts := ⟨fun _ => rfl, fun _ _ => by simp [Cache.init, newBan, BanRec.mark], fun _ => List.nodup_nil⟩
  wf := wf_init _
  next_eq := rfl
  spec _ := rfl
  ok _ := rfl
  obj _ := rfl

theorem walked_same (h : bs.Same bs') (ob : ℕ) : walked bs' ob = walked bs ob := by
  unfold walked
  rw [h.head]
  simp only [h.gone]

theorem ObjSim.same (h : bs.Same bs') {x : Option (Http × List ℕ)} (ho : ObjSim vre bs n.ban n.next o x) :
    ObjSim vre bs' n.ban n.next o x := by
  rcases x with - | ⟨http, p⟩
  · exact ho
  · obtain ⟨hh, ob, hob, hban, hf⟩ := ho
    exact ⟨hh, ob, by rwa [h.head], hban, by rwa [walked_same h]⟩

/-- One object changes, and the bans only in their counters. -/
theorem Sim.setObj (h : Sim vre s n) (hs : s.bans.Same bs') {x : Option (Http × List ℕ)}
    (hc : bs'.Counts (Function.update (fun oc => (s.obj oc).ban) oc o.ban) fun _ => 0)
    (ho : ObjSim vre s.bans n.ban n.next o x) : Sim vre (s.setObj oc bs' o) (n.setObj oc x) where
  counts := by
    have hptr : (fun i => ((s.setObj oc bs' o).obj i).ban) = Function.update (fun oc => (s.obj oc).ban) oc o.ban := by
      funext i
      by_cases hi : i = oc
      · subst hi
        simp [Cache.setObj]
      · simp [Cache.setObj, hi]
    rw [hptr]
    exact hc
  wf := h.wf.same hs
  next_eq := by rw [Cache.setObj, hs.next]; exact h.next_eq
  spec b := (hs.spec b).trans (h.spec b)
  ok := h.ok
  obj i := by
    by_cases hi : i = oc
    · subst hi
      simpa [Cache.setObj, Naive.setObj] using ho.same hs
    · simpa [Cache.setObj, Naive.setObj, hi] using (h.obj i).same hs

theorem takeWhile_append_of_mem {l l' : List ℕ} (h : ob ∈ l) :
    (l ++ l').takeWhile (· ≠ ob) = l.takeWhile (· ≠ ob) := by
  induction l with
  | nil => cases h
  | cons a l ih =>
    by_cases ha : a = ob
    · simp [ha]
    · have : ob ∈ l := (List.mem_cons.mp h).resolve_left (Ne.symm ha)
      simpa [ha] using ih this

/-- Retirement: no object refers to the last ban. -/
theorem Sim.retire (h : Sim vre s n) : ∃ bs, banRetire s.bans = some bs ∧ Sim vre { s with bans := bs } n := by
  rcases banRetire_eq h.counts fun _ => Int.le_refl 0 with hr | ⟨b, hlast, hfirst, -, -, hp, hr⟩
  · exact ⟨_, hr, h⟩
  · refine ⟨_, hr, ?_⟩
    refine ⟨h.counts, h.wf.retire hlast hfirst, h.next_eq, h.spec, h.ok, fun i => ?_⟩
    have ho := h.obj i
    rcases hx : n.obj i with - | ⟨http, p⟩
    · rw [hx] at ho
      exact ho
    · rw [hx] at ho
      obtain ⟨hh, ob, hob, hban, hf⟩ := ho
      have hmem := mem_dropLast hlast hob fun he => hp i (he ▸ hban)
      have hw : walked { s.bans with head := s.bans.head.dropLast } ob = walked s.bans ob := by
        unfold walked
        nth_rewrite 3 [← List.dropLast_append_getLast? b hlast]
        rw [takeWhile_append_of_mem hmem]
      exact ⟨hh, ob, hmem, hban, by rwa [hw]⟩

theorem mem_walked_insert (h : Sim vre s n) (c : BanSpec R) (now : T) (dups : Bool) (hob : ob ∈ s.bans.head) {b : ℕ} :
    b ∈ walked (banInsert s.bans c now dups) ob ↔
      b = s.bans.next ∨ (b ∈ walked s.bans ob ∧ ¬ (dups = true ∧ c.test = (s.bans.ban b).test)) := by
  have hne : s.bans.next ≠ ob := Nat.ne_of_gt (h.wf.lt_next ob hob)
  rw [banInsert_eq h.wf.lt_next]
  unfold walked
  rw [List.mem_filter, List.takeWhile_cons_of_pos (by simpa using hne), List.mem_cons]
  by_cases hb : b = s.bans.next
  · subst hb
    simp [newBan]
  · simp only [hb, false_or, if_false, List.mem_filter, and_assoc]
    refine and_congr_right fun hmem => ?_
    have hhead : b ∈ s.bans.head := (List.takeWhile_sublist _).mem hmem
    cases dups <;> simp [BanRec.mark, hhead]

/-- Insertion: the new ban covers those that are marked as its duplicates. -/
theorem Sim.insert (h : Sim vre s n) {c : BanSpec R} (hc : c.Ok) (now : T) {dups : Bool}
    (hno : dups = true → NoClash s.bans c) :
    Sim vre { s with bans := banInsert s.bans c now dups }
      ⟨Function.update n.ban n.next c, n.next + 1, fun oc => (n.obj oc).map fun x => (x.1, n.next :: x.2)⟩ := by
  have hne : ∀ i ∈ s.bans.head, i ≠ s.bans.next := fun i hi => Nat.ne_of_lt (h.wf.lt_next i hi)
  have hold : ∀ i, i ≠ n.next → Function.update n.ban n.next c i = n.ban i := fun i hi => Function.update_of_ne hi _ _
  have hnn := h.next_eq
  have hptr : ∀ oc, (s.obj oc).ban ≠ some s.bans.next := fun oc hb => by
    have ho := h.obj oc
    rcases hx : n.obj oc with - | ⟨http, p⟩
    · rw [hx] at ho
      rw [ho] at hb
      cases hb
    · rw [hx] at ho
      obtain ⟨-, ob, hob, hban, -⟩ := ho
      rw [hb, Option.some_inj] at hban
      exact hne ob hob hban.symm
  have heq := banInsert_eq h.wf.lt_next c now dups
  refine ⟨?_, ?_, ?_, ?_, ?_, fun i => ?_⟩
  · refine counts_new h.counts rfl hptr ?_ fun i hi => ?_
    · simp [heq, newBan]
    · simp [heq, hi, BanRec.mark]
  · exact h.wf.insert (by rw [heq]) (by rw [heq]) (by rw [heq])
  · simp [heq, hnn]
  · intro i
    by_cases hi : i = s.bans.next
    · simp [heq, hi, hnn, newBan]
    · change _ = Function.update n.ban n.next c i
      rw [hold i (hnn ▸ hi), ← h.spec i]
      simp [heq, hi, BanRec.mark]
  · intro i
    by_cases hi : i = n.next
    · subst hi
      simpa using hc
    · change BanSpec.Ok (Function.update n.ban n.next c i)
      rw [hold i hi]
      exact h.ok i
  · have ho := h.obj i
    rcases hx : n.obj i with - | ⟨http, p⟩
    · rw [hx] at ho
      simpa [ObjSim, hx] using ho
    · rw [hx] at ho
      obtain ⟨hh, ob, hob, hban, hf⟩ := ho
      simp only [hx, Option.map_some]
      refine ⟨hh, ob, by simp [heq, hob], hban, ?_⟩
      refine hf.insert (fun b => dups = true ∧ c.test = (s.bans.ban b).test) ?_ ?_ ?_
      · exact fun b hb => hnn ▸ h.wf.lt_next b (walked_mem hb)
      · exact fun b => hnn ▸ mem_walked_insert h c now dups hob
      · intro b hb hd
        rw [← h.spec b]
        exact hno hd.1 b (walked_mem hb) (by simpa using (List.mem_filter.mp hb).2) hd.2

/-- A check ends as the reference does with the bans in force. -/
theorem Sim.checkObject (h : Sim vre s n) {http : Http} {p : List ℕ} (hx : n.obj oc = some (http, p))
    (sp : Option Http) (hasReq : Bool) (hsp : hasReq = true → sp.isSome) :
    match p.find? (stop vre n.ban http sp hasReq) with
    | none => ∃ bs o, banCheckObject vre s.bans (s.obj oc) oc sp hasReq = some (bs, o, false) ∧
        Sim vre (s.setObj oc bs o) (n.setObj oc (some (http, [])))
    | some b =>
      if !hasReq && (n.ban b).req then
        banCheckObject vre s.bans (s.obj oc) oc sp hasReq = some (s.bans, s.obj oc, false)
      else ∃ bs o, banCheckObject vre s.bans (s.obj oc) oc sp hasReq = some (bs, o, true) ∧
        Sim vre (s.setObj oc bs o) (n.setObj oc none) := by
  have ho := h.obj oc
  rw [hx] at ho
  obtain ⟨rfl, ob, hob, hban, hf⟩ := ho
  have hspec : (fun b => (s.bans.ban b).toBanSpec) = n.ban := funext h.spec
  have hok : ∀ b ∈ s.bans.head, (s.bans.ban b).toBanSpec.Ok := fun b _ => h.spec b ▸ h.ok b
  have hsw : (walked s.bans ob).Pairwise (· > ·) :=
    h.wf.sorted.sublist (List.filter_sublist.trans (List.takeWhile_sublist _))
  have hcheck := banCheckObject_spec vre h.counts hban hban hob h.wf.first hok hsp
  rw [hspec, hf.find?_eq hsw h.ok] at hcheck
  cases hfind : p.find? (stop vre n.ban (s.obj oc).http sp hasReq) with
  | none =>
    rw [hfind] at hcheck
    obtain ⟨bs, o, hres, hsame, hc, ho, hh⟩ := hcheck
    refine ⟨bs, o, hres, h.setObj hsame (by rwa [ho]) ?_⟩
    -- the object is now at the first ban, and there is nothing to walk
    refine ⟨hh.symm, s.bans.start, h.wf.start_mem, ho, ?_⟩
    rw [h.wf.walked_start]
    exact force_nil ..
  | some b =>
    rw [hfind] at hcheck
    have hb : (s.bans.ban b).req = (n.ban b).req := by rw [h.spec b]
    dsimp only at hcheck ⊢
    rw [hb] at hcheck
    split_ifs at hcheck ⊢
    · exact hcheck
    · obtain ⟨bs, o, hres, hsame, hc, ho⟩ := hcheck
      exact ⟨bs, o, hres, h.setObj hsame (by rwa [ho]) ho⟩

variable {r : Naive R × Out}

theorem Sim.step_newObj {http : Http} {ttl : ℤ} (h : Sim vre s n)
    (hn : naiveStep vre n (.newObj (T := T) oc http ttl) = some r) :
    ∃ s1, cacheStep vre s (.newObj oc http ttl) = some (s1, r.2) ∧ Sim vre s1 r.1 := by
  rw [naiveStep] at hn
  split_ifs at hn with hx
  cases hn
  have ho := h.obj oc
  rw [hx] at ho
  let o : Object T :=
    { http, ttl, cacheable := true, ban := some s.bans.start, banT := (s.bans.ban s.bans.start).t0 }
  refine ⟨s.setObj oc (s.bans.attach s.bans.start oc) o, ?_, ?_⟩
  · simp [cacheStep, banNewObj, show (s.obj oc).ban = none from ho, o]
  · refine h.setObj (same_attach _ _ _) (counts_attach h.counts s.bans.start ho) ?_
    refine ⟨rfl, s.bans.start, h.wf.start_mem, rfl, ?_⟩
    rw [h.wf.walked_start]
    exact force_nil ..

theorem Sim.step_check {req : Http} (h : Sim vre s n) (hn : naiveStep vre n (.check (T := T) oc req) = some r) :
    ∃ s1, cacheStep vre s (.check oc req) = some (s1, r.2) ∧ Sim vre s1 r.1 := by
  rw [naiveStep] at hn
  obtain ⟨⟨http, p⟩, hx, hn⟩ := Option.bind_eq_some_iff.mp hn
  have hcheck := h.checkObject hx (some req) true fun _ => rfl
  have hstop : stop vre n.ban http (some req) true = fun b => holds vre http (some req) (n.ban b).tests := by
    funext b
    simp [stop]
  rw [hstop] at hcheck
  dsimp only at hn
  rw [← List.isSome_find?] at hn
  cases hf : p.find? fun b => holds vre http (some req) (n.ban b).tests with
  | none =>
    rw [hf] at hn hcheck
    cases hn
    obtain ⟨bs, o, hres, hsim⟩ := hcheck
    exact ⟨s.setObj oc bs o, by simp [cacheStep, hres], hsim⟩
  | some b =>
    rw [hf] at hn hcheck
    cases hn
    obtain ⟨bs, o, hres, hsim⟩ := hcheck
    exact ⟨s.setObj oc bs o, by simp [cacheStep, hres], hsim⟩

theorem Sim.step_lurker (h : Sim vre s n) (hn : naiveStep vre n (.lurker (T := T) oc) = some r) :
    ∃ s1, cacheStep vre s (.lurker oc) = some (s1, r.2) ∧ Sim vre s1 r.1 := by
  rw [naiveStep] at hn
  obtain ⟨⟨http, p⟩, hx, hn⟩ := Option.bind_eq_some_iff.mp hn
  have hcheck := h.checkObject hx none false fun hf => (by cases hf)
  have hstop : (fun b => !(n.ban b).req && !holds vre http none (n.ban b).tests) =
      fun b => !stop vre n.ban http none false b := by
    funext b
    simp [stop]
  dsimp only at hn
  rw [hstop] at hn
  rw [List.find?_eq_head?_dropWhile_not] at hcheck
  cases hd : p.dropWhile fun b => !stop vre n.ban http none false b with
  | nil =>
    rw [hd] at hn hcheck
    cases hn
    obtain ⟨bs, o, hres, hsim⟩ := hcheck
    exact ⟨s.setObj oc bs o, by simp [cacheStep, hres], hsim⟩
  | cons b l =>
    rw [hd] at hn hcheck
    dsimp only [List.head?_cons] at hn hcheck
    simp only [Bool.not_false, Bool.true_and] at hcheck
    split_ifs at hn hcheck with hreq
    · cases hn
      refine ⟨s.setObj oc s.bans (s.obj oc), by simp [cacheStep, hcheck], ?_⟩
      -- what was evaluated before the ban on the request is harmless
      have ho := h.obj oc
      rw [hx] at ho
      obtain ⟨hh, ob, hob, hban, hf⟩ := ho
      refine h.setObj (same_refl _) (by rw [Function.update_eq_self]; exact h.counts) ⟨hh, ob, hob, hban, ?_⟩
      refine hf.sublist (hd ▸ List.dropWhile_sublist _) fun a ha hna => ?_
      rw [← List.takeWhile_append_dropWhile (p := fun b => !stop vre n.ban http none false b) (l := p), hd] at ha
      have hta := (List.mem_append.mp ha).resolve_right hna
      have := List.mem_takeWhile_imp hta
      simpa [stop, Harmless] using this
    · cases hn
      obtain ⟨bs, o, hres, hsim⟩ := hcheck
      exact ⟨s.setObj oc bs o, by simp [cacheStep, hres], hsim⟩

theorem Sim.step_destroy (h : Sim vre s n) :
    ∃ s1, cacheStep vre s (.destroy oc) = some (s1, .done) ∧ Sim vre s1 (n.setObj oc none) := by
  cases hban : (s.obj oc).ban with
  | none =>
    refine ⟨s.setObj oc s.bans (s.obj oc), by simp [cacheStep, banDestroyObj, hban], ?_⟩
    exact h.setObj (same_refl _) (by rw [Function.update_eq_self]; exact h.counts) hban
  | some b =>
    have hpos := Tally.pos h.counts hban (Int.le_refl 0)
    obtain ⟨bs1, hd, hsame, hc⟩ := counts_detach h.counts hban
    let o : Object T := { s.obj oc with ban := none }
    have hs : Sim vre (s.setObj oc bs1 o) (n.setObj oc none) := h.setObj hsame hc rfl
    obtain ⟨bs, hbs, hsim⟩ := hs.retire
    have hbs : banRetire bs1 = some bs := hbs
    refine ⟨s.setObj oc bs o, ?_, hsim⟩
    simp only [cacheStep, banDestroyObj, hban, hd]
    rw [if_pos hpos]
    simp only [Option.bind_eq_bind, Option.bind_some, hbs, o]

/-- **The step**: whatever the reference answers, the cache answers too. -/
theorem sim_step (op : Op T) (h : Sim vre s n) (hsafe : op.Safe vre s) (hn : naiveStep vre n op = some r) :
    ∃ s1, cacheStep vre s op = some (s1, r.2) ∧ Sim vre s1 r.1 := by
  cases op with
  | insert av now dups =>
    rw [naiveStep] at hn
    obtain ⟨c, hc, hn⟩ := Option.bind_eq_some_iff.mp hn
    cases c with
    | error e =>
      cases hn
      exact ⟨s, by simp [cacheStep, hc], h⟩
    | ok c =>
      cases hn
      refine ⟨_, by simp [cacheStep, hc]; rfl, h.insert (ccfPurge_ok hc) now fun hd => ?_⟩
      subst hd
      simpa [Op.Safe, hc] using hsafe
  | newObj oc http ttl => exact h.step_newObj hn
  | check oc req => exact h.step_check hn
  | lurker oc => exact h.step_lurker hn
  | destroy oc =>
    cases hn
    exact h.step_destroy
  | checkLast =>
    cases hn
    obtain ⟨bs, hbs, hsim⟩ := h.retire
    exact ⟨{ s with bans := bs }, by simp [cacheStep, hbs], hsim⟩

end Simulation

/-! ## Whole runs -/

section Runs

/-- **The answers are those of the reference**, in every run in which each ban that is inserted with `purge_dups` has the
tests of the bans with its text. -/
theorem outputs_naive (vre : Vre R) (now : T) {ops : List (Op T)} {outs : List Out}
    (hsafe : OkOutputs (cacheStep vre) (fun s op => op.Safe vre s) (Cache.init R now) ops)
    (hn : outputs (naiveStep vre) (Naive.init R) ops = some outs) :
    outputs (cacheStep vre) (Cache.init R now) ops = some outs :=
  outputs_sim (fun _ _ op _ h hs hr => sim_step op h hs hr) (sim_init vre now) hsafe hn

/-- A request for `/x`. -/
def reqX : Http := ⟨some "/x".toList, []⟩

/-- Two objects; the ban of the second goes as a duplicate, and the lurker stops at the ban on the URL. -/
def tidyOps : List (Op ℕ) :=
  [.newObj 0 ⟨none, [some "a: b".toList]⟩ 10,
    .insert ["obj.http.a".toList, "==".toList, "c".toList] 1 true,
    .insert ["req.url".toList, "~".toList, "x".toList] 2 true,
    .newObj 1 ⟨none, [some "a: c".toList]⟩ 10,
    .insert ["obj.http.a".toList, "==".toList, "c".toList] 3 true,
    .lurker 0,
    .check 1 reqX,
    .check 0 reqX]

theorem outputs_naive_tidyOps :
    OkOutputs (cacheStep plainVre) (fun s op => op.Safe plainVre s) (Cache.init Str 0) tidyOps ∧
    outputs (cacheStep plainVre) (Cache.init Str 0) tidyOps =
      some [.done, .done, .done, .done, .done, .checked false, .checked true, .checked true] :=
  have hsafe : OkOutputs (cacheStep plainVre) (fun s op => op.Safe plainVre s) (Cache.init Str 0) tidyOps := by
    decide +kernel
  ⟨hsafe, outputs_naive plainVre 0 hsafe (by decide +kernel)⟩

/-- A ban with two tests, and one with a single test of a strange header that has the same text. -/
def clashOps : List (Op ℕ) :=
  [.newObj 0 ⟨none, [some "a: b".toList, some "c: d".toList]⟩ 10,
    .insert ["obj.http.a".toList, "==".toList, "b".toList, "&&".toList, "obj.http.c".toList, "==".toList, "d".toList] 1 true,
    .insert ["obj.http.a == b && obj.http.c".toList, "==".toList, "d".toList] 2 true,
    .check 0 reqX]

/-- The first ban matches the object, and goes as a duplicate of the second one, which does not. -/
theorem text_clash : ¬ ∀ (vre : Vre Str) (ops : List (Op ℕ)) (outs : List Out),
    outputs (naiveStep vre) (Naive.init Str) ops = some outs →
      outputs (cacheStep vre) (Cache.init Str 0) ops = some outs := by
  intro h
  have hn : outputs (naiveStep plainVre) (Naive.init Str) clashOps = some [.done, .done, .done, .checked true] := by
    decide +kernel
  have hc : outputs (cacheStep plainVre) (Cache.init Str 0) clashOps = some [.done, .done, .done, .checked false] := by
    decide +kernel
  rw [h plainVre clashOps _ hn] at hc
  revert hc
  decide

end Runs

end Varnish.Ban
