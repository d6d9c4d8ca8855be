import Varnish.Hash.Refs

/-!
# Varnish.Hash.Wake — nobody waits for nothing (`cache_hash.c`)

The hash with `OC_F_PERSISTENT`: an objcore of a silo that was not fixed up goes through `HSH_DerefObjCore`, which calls
`hsh_rush` for busy objcores only.

* `WakeOk`: where sessions wait, there is a busy objcore, or a reference whose release calls `hsh_rush`, or a session that
  was woken and has not looked up yet.
* `hshRush_wake`: what `hsh_rush` does, whether or not the sessions can be queued.
* `reach_wakeOk`: `WakeOk` holds in every state of every run in which the first session that is woken when the last such
  objcore goes can be queued.
* `waiter_forgotten`: a run in which it cannot.
-/

namespace Varnish.Hash

open Varnish.Lib

/-! ## The system -/

section WakeSys

/-- The hash, and the objcores with `OC_F_PERSISTENT`. -/
structure Wake where
  hsh : Hsh
  persistent : ℕ → Bool

def Wake.init : Wake := ⟨Hsh.init, fun _ => false⟩

inductive WakeAct where
  | hsh (a : Act)
  | findBan (oc : ℕ)

/-- The objcores that the loop of `HSH_Lookup` looks at, and has fixed up. -/
def looked (busy : ℕ → Bool) (fit : ℕ → Fit) : List ℕ → List ℕ
  | [] => []
  | oc :: l =>
    if busy oc then oc :: looked busy fit l
    else
      match fit oc with
      | .valid => [oc]
      | .no | .grace => oc :: looked busy fit l

/-- The objhead of a lookup. -/
def lookupOh (s : Hsh) (sp : ℕ) (a : Ask) : ℕ := (s.sess sp).objhead.getD (hashLookup s a.digest).1

/-- `OC_F_PERSISTENT` after an action: `smp_load_seg` sets it for what it inserts, `SMP_Fixup` clears it. -/
def Wake.flag (w : Wake) : Act → ℕ → Bool
  | .lookup sp a => fun oc =>
    w.persistent oc && !decide (oc ∈ looked (fun oc => (w.hsh.oc oc).busy) a.fit (w.hsh.oh (lookupOh w.hsh sp a)).objcs)
  | .insert _ => Function.update w.persistent w.hsh.nextOc true
  | _ => w.persistent

def wakeStep (w : Wake) : WakeAct → Option Wake
  | .hsh a => (hshStep w.hsh a).map fun s => ⟨s, w.flag a⟩
  | .findBan oc =>
    -- the objcore may have gone before the lock was taken
    if (w.hsh.oc oc).live = true then
      some ⟨w.hsh.setOc oc fun y => { y with refcnt := y.refcnt + 1 }, Function.update w.persistent oc false⟩
    else some w

/-- The smallest `params->rush_exponent`. -/
def minRush : ℕ := 2

/-- Who may call what: `exp_timer` calls `HSH_DerefObjCore` for objcores that were not fixed up. -/
def WakeAct.Ok (w : Wake) : WakeAct → Prop
  | .hsh (.lookup sp a) => (Act.lookup sp a).Ok w.hsh
  | .hsh (.unbusy _ r) | .hsh (.drop _ r) | .hsh (.derefObj _ r) | .hsh (.derefObjCore _ r) | .hsh (.deref _ r) =>
    minRush ≤ r.exponent
  | .hsh (.expire oc r) => minRush ≤ r.exponent ∧ w.persistent oc = true
  | _ => True

/-- An objcore whose last reference goes with a call of `hsh_rush`. -/
def Wake.counts (w : Wake) (oc : ℕ) : Bool := (w.hsh.oc oc).busy || !w.persistent oc

/-- One of the first `n` sessions can be queued, or there are no others, when the last objcore that counts goes. -/
def Rushes (r : Rush) (w : Wake) (n : ℕ) : Option ℕ → Prop
  | some oc =>
    (∃ c ∈ (w.hsh.oh (w.hsh.oc oc).objhead).objcs, c ≠ oc ∧ w.counts c = true) ∨
    (w.hsh.oh (w.hsh.oc oc).objhead).waitinglist.length ≤ n ∨
    ∃ sp ∈ (w.hsh.oh (w.hsh.oc oc).objhead).waitinglist.take n, r.queued sp = true
  | none => True

/-- Only the last reference takes an objcore away. -/
def LastRef (s : Hsh) : Option ℕ → Prop
  | some oc => (s.oc oc).refcnt = 1
  | none => False

/-- The condition: a session that is woken can be queued, where nothing else is left to wake the others. -/
def WakeAct.Safe (w : Wake) : WakeAct → Prop
  | .hsh (.drop sp r) => LastRef w.hsh (w.hsh.sess sp).obj → Rushes r w 2 (w.hsh.sess sp).obj
  | .hsh (.derefObj sp r) => LastRef w.hsh (w.hsh.sess sp).obj → Rushes r w 1 (w.hsh.sess sp).obj
  | .hsh (.derefObjCore sp r) => Rushes r w 1 (w.hsh.sess sp).objcore
  | .hsh (.deref oc r) => LastRef w.hsh (some oc) → Rushes r w 1 (some oc)
  | .hsh (.expire oc r) => Busy w.hsh (some oc) → Rushes r w 1 (some oc)
  | _ => True

/-- Somebody will call `hsh_rush` on the objhead. -/
def Wakes (w : Wake) (oh : ℕ) : Prop :=
  (∃ oc ∈ (w.hsh.oh oh).objcs, (w.hsh.oc oc).busy = true) ∨
  -- a reference that goes through `HSH_Deref`
  (∃ oc ∈ (w.hsh.oh oh).objcs, w.persistent oc = false ∧ 0 < (w.hsh.oc oc).refcnt) ∨
  -- a session that looks up next
  ∃ sp, (w.hsh.sess sp).holds = some oh ∧ (w.hsh.sess sp).waits = false

/-- No wakeup is lost. -/
def WakeOk (w : Wake) : Prop := ∀ oh, (w.hsh.oh oh).waitinglist ≠ [] → Wakes w oh

end WakeSys

/-! ## Who has what -/

section Links

variable {s s' : Hsh} {w w' : Wake} {oh oc sp n : ℕ} {x : Sess} {queued : ℕ → Bool}

/-- The objcores and the sessions, without the counters of the objheads. -/
structure Links (s : Hsh) : Prop where
  objcs_iff : ∀ i oc, oc ∈ (s.oh i).objcs ↔ (s.oc oc).live = true ∧ (s.oc oc).objhead = i
  objcs_nodup : ∀ i, (s.oh i).objcs.Nodup
  live_lt : ∀ oc, (s.oc oc).live = true → oc < s.nextOc ∧ (s.oc oc).objhead < s.nextOh ∧ 0 < (s.oc oc).refcnt
  holds_lt : ∀ sp i, (s.sess sp).holds = some i → i < s.nextOh
  hash_lt : ∀ i ∈ s.hash, i < s.nextOh
  waits : Waits s

/-- The objcore of a miss is busy and belongs to one session, and what a session has was fixed up. -/
structure Owns (w : Wake) : Prop where
  pers_lt : ∀ oc, w.persistent oc = true → oc < w.hsh.nextOc
  core : ∀ sp oc, (w.hsh.sess sp).objcore = some oc →
    oc < w.hsh.nextOc ∧ w.persistent oc = false ∧ ((w.hsh.oc oc).live = true → (w.hsh.oc oc).busy = true)
  obj : ∀ sp oc, (w.hsh.sess sp).obj = some oc → oc < w.hsh.nextOc ∧ w.persistent oc = false
  core_inj : ∀ sp sp' oc, (w.hsh.sess sp).objcore = some oc → (w.hsh.sess sp').objcore = some oc → sp = sp'
  core_obj : ∀ sp sp' oc, (w.hsh.sess sp).objcore = some oc → (w.hsh.sess sp').obj ≠ some oc

structure WakeInv (w : Wake) : Prop where
  links : Links w.hsh
  owns : Owns w
  ok : WakeOk w

/-- What counts is enough. -/
theorem Links.wakes (h : Links w.hsh) (hoc : oc ∈ (w.hsh.oh oh).objcs) (hc : w.counts oc = true) : Wakes w oh := by
  have hl := ((h.objcs_iff oh oc).mp hoc).1
  rcases Bool.or_eq_true_iff.mp hc with hb | hp
  · exact Or.inl ⟨oc, hoc, hb⟩
  · refine Or.inr (Or.inl ⟨oc, hoc, ?_, (h.live_lt oc hl).2.2⟩)
    simpa using hp

theorem Wakes.cases (h : Wakes w oh) :
    (∃ oc ∈ (w.hsh.oh oh).objcs, w.counts oc = true) ∨
      ∃ sp, (w.hsh.sess sp).holds = some oh ∧ (w.hsh.sess sp).waits = false := by
  rcases h with ⟨oc, hoc, hb⟩ | ⟨oc, hoc, hp, -⟩ | hs
  · exact Or.inl ⟨oc, hoc, by simp [Wake.counts, hb]⟩
  · exact Or.inl ⟨oc, hoc, by simp [Wake.counts, hp]⟩
  · exact Or.inr hs

/-- Only the counters of the objheads and the hash change. -/
structure Alike (s s' : Hsh) : Prop where
  oc : s'.oc = s.oc
  sess : s'.sess = s.sess
  nextOh : s.nextOh ≤ s'.nextOh
  hash_lt : (∀ i ∈ s.hash, i < s.nextOh) → ∀ i ∈ s'.hash, i < s'.nextOh
  nextOc : s'.nextOc = s.nextOc
  objcs : ∀ i, (s'.oh i).objcs = (s.oh i).objcs
  waitinglist : ∀ i, (s'.oh i).waitinglist = (s.oh i).waitinglist

theorem Links.alike (h : Links s) (ha : Alike s s') : Links s' := by
  refine ⟨?_, ?_, ?_, ?_, ha.hash_lt h.hash_lt, ?_, ?_⟩
  · intro i oc
    rw [ha.objcs, ha.oc]
    exact h.objcs_iff i oc
  · intro i
    rw [ha.objcs]
    exact h.objcs_nodup i
  · rw [ha.oc, ha.nextOc]
    intro oc hoc
    obtain ⟨h1, h2, h3⟩ := h.live_lt oc hoc
    exact ⟨h1, lt_of_lt_of_le h2 ha.nextOh, h3⟩
  · rw [ha.sess]
    intro sp i hi
    exact lt_of_lt_of_le (h.holds_lt sp i hi) ha.nextOh
  · intro i
    rw [ha.waitinglist]
    exact h.waits.nodup i
  · intro i
    rw [ha.waitinglist, ha.sess]
    exact h.waits.waits i

theorem Owns.alike {p : ℕ → Bool} (h : Owns ⟨s, p⟩) (ha : Alike s s') : Owns ⟨s', p⟩ := by
  refine ⟨?_, ?_, ?_, ?_, ?_⟩ <;> dsimp only
  · rw [ha.nextOc]
    exact h.pers_lt
  · rw [ha.sess, ha.nextOc, ha.oc]
    exact h.core
  · rw [ha.sess, ha.nextOc]
    exact h.obj
  · rw [ha.sess]
    exact h.core_inj
  · rw [ha.sess]
    exact h.core_obj

theorem WakeOk.alike {p : ℕ → Bool} (h : WakeOk ⟨s, p⟩) (ha : Alike s s') : WakeOk ⟨s', p⟩ := by
  intro oh hwl
  have hw := h oh (by rw [← ha.waitinglist oh]; exact hwl)
  dsimp only [Wakes] at hw ⊢
  rw [ha.objcs, ha.oc, ha.sess]
  exact hw

theorem hashDeref_alike (s : Hsh) (oh : ℕ) : Alike s (hashDeref s oh).2 := by
  have hoh : ∀ i, (hashDeref s oh).2.oh i = if i = oh then { s.oh i with refcnt := (s.oh i).refcnt - 1 } else s.oh i := by
    rw [hashDeref_eq]
    exact setOh_oh s oh fun x => { x with refcnt := x.refcnt - 1 }
  refine ⟨?_, ?_, ?_, ?_, ?_, fun i => ?_, fun i => ?_⟩
  · rw [hashDeref_eq]
    rfl
  · rw [hashDeref_eq]
    rfl
  · rw [hashDeref_eq]
    exact le_refl s.nextOh
  · rw [hashDeref_eq]
    dsimp only
    intro hlt i hi
    refine hlt i ?_
    split_ifs at hi
    · exact List.mem_of_mem_erase hi
    · exact hi
  · rw [hashDeref_eq]
    rfl
  · rw [hoh]
    split_ifs <;> rfl
  · rw [hoh]
    split_ifs <;> rfl

/-- `hash->deref` and the deletion of an objhead change nothing else. -/
theorem derefObjHead_alike (h : derefObjHead s oh = some s') : Alike s s' := by
  have ha := hashDeref_alike s oh
  rw [derefObjHead] at h
  rcases hd : hashDeref s oh with ⟨b, s1⟩
  rw [hd] at h ha
  cases b with
  | true =>
    cases h
    exact ha
  | false =>
    dsimp only at h
    split_ifs at h
    cases h
    exact ha

theorem Owns.setSess {p : ℕ → Bool} (h : Owns ⟨s, p⟩) (hc : ∀ oc, x.objcore = some oc → (s.sess sp).objcore = some oc)
    (ho : ∀ oc, x.obj = some oc → (s.sess sp).obj = some oc) : Owns ⟨s.setSess sp x, p⟩ := by
  have hcore : ∀ i oc, ((s.setSess sp x).sess i).objcore = some oc → (s.sess i).objcore = some oc := by
    intro i oc hi
    rw [setSess_sess] at hi
    split_ifs at hi with he
    · exact he ▸ hc oc hi
    · exact hi
  have hobj : ∀ i oc, ((s.setSess sp x).sess i).obj = some oc → (s.sess i).obj = some oc := by
    intro i oc hi
    rw [setSess_sess] at hi
    split_ifs at hi with he
    · exact he ▸ ho oc hi
    · exact hi
  refine ⟨h.pers_lt, ?_, ?_, ?_, ?_⟩
  · intro i oc hi
    exact h.core i oc (hcore i oc hi)
  · intro i oc hi
    exact h.obj i oc (hobj i oc hi)
  · intro i j oc hi hj
    exact h.core_inj i j oc (hcore i oc hi) (hcore j oc hj)
  · intro i j oc hi hj
    exact h.core_obj i j oc (hcore i oc hi) (hobj j oc hj)

theorem Links.setSess (h : Links s) (sp : ℕ) (hx : ∀ i, x.holds = some i → i < s.nextOh)
    (hw : ∀ i, sp ∈ (s.oh i).waitinglist → x.waits = true ∧ x.holds = some i) : Links (s.setSess sp x) := by
  refine ⟨h.objcs_iff, h.objcs_nodup, h.live_lt, ?_, h.hash_lt, h.waits.setSess hw⟩
  intro i j hj
  rw [setSess_sess] at hj
  split_ifs at hj
  · exact hx j hj
  · exact h.holds_lt i j hj

/-! ## Rushing -/

/-- What `hsh_rush` leaves as it was. -/
structure Rushed (s s' : Hsh) (oh : ℕ) : Prop where
  oc : s'.oc = s.oc
  nextOh : s'.nextOh = s.nextOh
  nextOc : s'.nextOc = s.nextOc
  objcs : ∀ i, (s'.oh i).objcs = (s.oh i).objcs
  others : ∀ i, i ≠ oh → (s'.oh i).waitinglist = (s.oh i).waitinglist
  suffix : (s'.oh oh).waitinglist <:+ (s.oh oh).waitinglist
  rest : ∀ sp, sp ∉ (s.oh oh).waitinglist → s'.sess sp = s.sess sp

theorem rushed_refl (s : Hsh) (oh : ℕ) : Rushed s s oh :=
  ⟨rfl, rfl, rfl, fun _ => rfl, fun _ _ => rfl, List.suffix_rfl, fun _ _ => rfl⟩

theorem Rushed.trans {s'' : Hsh} (h : Rushed s s' oh) (h' : Rushed s' s'' oh) : Rushed s s'' oh := by
  refine ⟨h'.oc.trans h.oc, h'.nextOh.trans h.nextOh, h'.nextOc.trans h.nextOc, fun i => (h'.objcs i).trans (h.objcs i),
    fun i hi => (h'.others i hi).trans (h.others i hi), h'.suffix.trans h.suffix, ?_⟩
  intro sp hsp
  rw [h'.rest sp fun hm => hsp (h.suffix.subset hm), h.rest sp hsp]

/-- **One session goes off the list**, to be queued or to be deleted. -/
theorem Links.take {l : List ℕ} {p : ℕ → Bool} (h : Links s) (ho : Owns ⟨s, p⟩) (hl : (s.oh oh).waitinglist = sp :: l)
    (hx : x = { s.sess sp with waits := false } ∨ x = ⟨none, none, none, false⟩) :
    Links ((s.setOh oh fun y => { y with waitinglist := l }).setSess sp x) ∧
      Owns ⟨(s.setOh oh fun y => { y with waitinglist := l }).setSess sp x, p⟩ ∧
      Rushed s ((s.setOh oh fun y => { y with waitinglist := l }).setSess sp x) oh ∧
      (((s.setOh oh fun y => { y with waitinglist := l }).setSess sp x).oh oh).waitinglist = l := by
  set s1 := s.setOh oh fun y => { y with waitinglist := l } with hs1
  have hoh : ∀ i, s1.oh i = if i = oh then { s.oh i with waitinglist := l } else s.oh i :=
    setOh_oh s oh fun y => { y with waitinglist := l }
  have hobjcs : ∀ i, (s1.oh i).objcs = (s.oh i).objcs := fun i => by rw [hoh]; split_ifs <;> rfl
  have hwl : ∀ i, (s1.oh i).waitinglist = if i = oh then l else (s.oh i).waitinglist := fun i => by
    rw [hoh]
    split_ifs <;> rfl
  have hmem : sp ∈ (s.oh oh).waitinglist := by
    rw [hl]
    exact List.mem_cons_self
  have hholds := (h.waits.waits oh sp hmem).2
  have hnd := h.waits.nodup oh
  rw [hl, List.nodup_cons] at hnd
  -- the session is on no other list
  have hoff : ∀ i, sp ∉ (s1.oh i).waitinglist := by
    intro i hi
    rw [hwl] at hi
    split_ifs at hi with he
    · exact hnd.1 hi
    · have := (h.waits.waits i sp hi).2
      rw [hholds, Option.some_inj] at this
      exact he this.symm
  have hsub : ∀ i, (s1.oh i).waitinglist <:+ (s.oh i).waitinglist := by
    intro i
    rw [hwl]
    split_ifs with he
    · rw [he, hl]
      exact List.suffix_cons sp l
    · exact List.suffix_rfl
  have hlinks : Links s1 := by
    refine ⟨?_, ?_, h.live_lt, h.holds_lt, h.hash_lt, ?_, ?_⟩
    · intro i oc
      rw [hobjcs]
      exact h.objcs_iff i oc
    · intro i
      rw [hobjcs]
      exact h.objcs_nodup i
    · intro i
      exact (h.waits.nodup i).sublist (hsub i).sublist
    · intro i sp' hsp'
      exact h.waits.waits i sp' ((hsub i).subset hsp')
  have howns : Owns ⟨s1, p⟩ := ⟨ho.pers_lt, ho.core, ho.obj, ho.core_inj, ho.core_obj⟩
  refine ⟨hlinks.setSess sp ?_ fun i hi => absurd hi (hoff i), howns.setSess ?_ ?_, ?_, ?_⟩
  · rcases hx with rfl | rfl
    · exact fun i hi => h.holds_lt sp i hi
    · exact fun i hi => by cases hi
  · rcases hx with rfl | rfl
    · exact fun oc hoc => hoc
    · exact fun oc hoc => by cases hoc
  · rcases hx with rfl | rfl
    · exact fun oc hoc => hoc
    · exact fun oc hoc => by cases hoc
  · refine ⟨rfl, rfl, rfl, hobjcs, ?_, hsub oh, ?_⟩
    · intro i hi
      rw [setSess_oh, hwl, if_neg hi]
    · intro i hi
      rw [setSess_sess, if_neg]
      · rfl
      · rintro rfl
        exact hi hmem
  · rw [setSess_oh, hwl, if_pos rfl]

/-- **`hsh_rush`**, whether or not the sessions can be queued. -/
theorem hshRush_wake {p : ℕ → Bool} (queued : ℕ → Bool) (oh n : ℕ) (h : Links s) (ho : Owns ⟨s, p⟩) :
    Links (hshRush queued oh n s) ∧ Owns ⟨hshRush queued oh n s, p⟩ ∧ Rushed s (hshRush queued oh n s) oh := by
  induction n generalizing s with
  | zero => exact ⟨h, ho, rushed_refl s oh⟩
  | succ n ih =>
    rw [hshRush]
    cases hl : (s.oh oh).waitinglist with
    | nil => exact ⟨h, ho, rushed_refl s oh⟩
    | cons sp l =>
      dsimp only
      split_ifs with hq
      · obtain ⟨h1, ho1, hr1, -⟩ := h.take ho hl (Or.inl rfl)
        obtain ⟨h2, ho2, hr2⟩ := ih h1 ho1
        exact ⟨h2, ho2, hr1.trans hr2⟩
      · obtain ⟨h1, ho1, hr1, -⟩ := h.take ho hl (Or.inr rfl)
        exact ⟨h1, ho1, hr1⟩

/-- A session that is queued is awake; one that is not is followed by nobody. -/
theorem hshRush_first {l : List ℕ} {p : ℕ → Bool} (queued : ℕ → Bool) (h : Links s) (ho : Owns ⟨s, p⟩)
    (hl : (s.oh oh).waitinglist = sp :: l) (hn : 0 < n) :
    (queued sp = true → ((hshRush queued oh n s).sess sp).holds = some oh ∧
      ((hshRush queued oh n s).sess sp).waits = false) ∧
    (queued sp = false → ((hshRush queued oh n s).oh oh).waitinglist = l) := by
  obtain ⟨n, rfl⟩ := Nat.exists_eq_succ_of_ne_zero (Nat.pos_iff_ne_zero.mp hn)
  have hholds := (h.waits.waits oh sp (by rw [hl]; exact List.mem_cons_self)).2
  rw [hshRush, hl]
  dsimp only
  constructor
  · intro hq
    rw [if_pos hq]
    obtain ⟨h1, ho1, -, hwl⟩ := h.take ho hl (Or.inl rfl)
    obtain ⟨-, -, hr⟩ := hshRush_wake queued oh n h1 ho1
    have hnd := h.waits.nodup oh
    rw [hl, List.nodup_cons] at hnd
    have hsess : ((s.setOh oh fun y => { y with waitinglist := l }).setSess sp
        { s.sess sp with waits := false }).sess sp = { s.sess sp with waits := false } := by
      rw [setSess_sess, if_pos rfl]
    have haw := hr.rest sp (by rw [hwl]; exact hnd.1)
    rw [hsess] at haw
    rw [show (s.setOh oh fun y => { y with waitinglist := l }).sess sp = s.sess sp from rfl, haw]
    exact ⟨hholds, rfl⟩
  · intro hq
    rw [if_neg (by rw [hq]; exact Bool.false_ne_true)]
    exact (h.take ho hl (Or.inr rfl)).2.2.2

theorem Rushed.waitinglist {i : ℕ} (hr : Rushed s s' oh) (hwl : (s'.oh i).waitinglist ≠ []) :
    (s.oh i).waitinglist ≠ [] := by
  by_cases hi : i = oh
  · subst hi
    intro hnil
    have := hr.suffix
    rw [hnil, List.suffix_nil] at this
    exact hwl this
  · rw [← hr.others i hi]
    exact hwl

theorem Rushed.wakes {i : ℕ} {p : ℕ → Bool} (hr : Rushed s s' oh) (h : Links s) (hw : Wakes ⟨s, p⟩ i) :
    Wakes ⟨s', p⟩ i := by
  dsimp only [Wakes] at hw ⊢
  rw [hr.objcs, hr.oc]
  rcases hw with hb | hd | ⟨sp, hh, hsp⟩
  · exact Or.inl hb
  · exact Or.inr (Or.inl hd)
  · refine Or.inr (Or.inr ⟨sp, ?_⟩)
    rw [hr.rest sp (h.waits.off hsp oh)]
    exact ⟨hh, hsp⟩

/-- A rush by which nothing else changes. -/
theorem WakeInv.rush {p : ℕ → Bool} (h : WakeInv ⟨s, p⟩) (queued : ℕ → Bool) (oh n : ℕ) :
    WakeInv ⟨hshRush queued oh n s, p⟩ := by
  obtain ⟨h1, ho1, hr⟩ := hshRush_wake queued oh n h.links h.owns
  refine ⟨h1, ho1, ?_⟩
  intro i hwl
  exact hr.wakes h.links (h.ok i (hr.waitinglist hwl))

/-! ## Objcores -/

/-- An objcore changes, and stays where it is. -/
theorem WakeInv.setOc {p : ℕ → Bool} {f : Objcore → Objcore} (h : WakeInv ⟨s, p⟩) (oc : ℕ)
    (hl : (f (s.oc oc)).live = (s.oc oc).live) (ho : (f (s.oc oc)).objhead = (s.oc oc).objhead)
    (hr : (s.oc oc).live = true → 0 < (f (s.oc oc)).refcnt)
    (hb : (f (s.oc oc)).busy = (s.oc oc).busy ∨ ((∀ sp, (s.sess sp).objcore ≠ some oc) ∧ p oc = false)) :
    WakeInv ⟨s.setOc oc f, p⟩ := by
  have hoc : ∀ i, (s.setOc oc f).oc i = if i = oc then f (s.oc i) else s.oc i := setOc_oc s oc f
  have hlive : ∀ i, ((s.setOc oc f).oc i).live = (s.oc i).live := by
    intro i
    rw [hoc]
    split_ifs with hi
    · rw [hi, hl]
    · rfl
  have hhead : ∀ i, ((s.setOc oc f).oc i).objhead = (s.oc i).objhead := by
    intro i
    rw [hoc]
    split_ifs with hi
    · rw [hi, ho]
    · rfl
  have hlinks : Links (s.setOc oc f) := by
    refine ⟨?_, h.links.objcs_nodup, ?_, h.links.holds_lt, h.links.hash_lt, h.links.waits.nodup, h.links.waits.waits⟩
    · intro i c
      rw [hlive, hhead]
      exact h.links.objcs_iff i c
    · intro c hc
      rw [hlive] at hc
      obtain ⟨h1, h2, h3⟩ := h.links.live_lt c hc
      refine ⟨h1, by rw [hhead]; exact h2, ?_⟩
      rw [hoc]
      split_ifs with hi
      · subst hi
        exact hr hc
      · exact h3
  refine ⟨hlinks, ⟨h.owns.pers_lt, ?_, h.owns.obj, h.owns.core_inj, h.owns.core_obj⟩, ?_⟩
  · intro sp c hc
    obtain ⟨h1, h2, h3⟩ := h.owns.core sp c hc
    refine ⟨h1, h2, ?_⟩
    intro hcl
    have hcl' := h3 (by rw [← hlive c]; exact hcl)
    change ((s.setOc oc f).oc c).busy = true
    rw [hoc]
    split_ifs with hi
    · subst hi
      rcases hb with hb | ⟨hno, -⟩
      · rw [hb]
        exact hcl'
      · exact absurd hc (hno sp)
    · exact hcl'
  · intro i hwl
    rcases (h.ok i hwl).cases with ⟨c, hc, hcc⟩ | hs
    · refine hlinks.wakes (hc : c ∈ ((s.setOc oc f).oh i).objcs) ?_
      simp only [Wake.counts, hoc] at hcc ⊢
      split_ifs with hi
      · subst hi
        rcases hb with hb | ⟨-, hp⟩
        · rw [hb]
          exact hcc
        · simp [hp]
      · exact hcc
    · exact Or.inr (Or.inr hs)

/-- `hsh_rush` does not look at the objcores. -/
theorem hshRush_setOc (queued : ℕ → Bool) (oh n oc : ℕ) (f : Objcore → Objcore) (s : Hsh) :
    hshRush queued oh n (s.setOc oc f) = (hshRush queued oh n s).setOc oc f := by
  induction n generalizing s with
  | zero => rfl
  | succ n ih =>
    rw [hshRush, hshRush]
    have hwl : ((s.setOc oc f).oh oh).waitinglist = (s.oh oh).waitinglist := rfl
    rw [hwl]
    cases hl : (s.oh oh).waitinglist with
    | nil => rfl
    | cons sp l =>
      dsimp only
      split_ifs
      · exact ih ((s.setOh oh fun x => { x with waitinglist := l }).setSess sp { s.sess sp with waits := false })
      · rfl

/-- An objcore goes. -/
theorem Links.removeOc {p : ℕ → Bool} (h : Links s) (ho : Owns ⟨s, p⟩) (hl : (s.oc oc).live = true)
    (hoh : (s.oc oc).objhead = oh) {s1 : Hsh}
    (hs1 : s1 = (s.setOh oh fun x => { x with objcs := x.objcs.erase oc }).setOc oc fun y => { y with live := false }) :
    Links s1 ∧ Owns ⟨s1, p⟩ ∧ (∀ i, (s1.oh i).waitinglist = (s.oh i).waitinglist) ∧
      ∀ i c, c ∈ (s.oh i).objcs → c ≠ oc → c ∈ (s1.oh i).objcs ∧ s1.oc c = s.oc c := by
  subst hs1
  set s1 := (s.setOh oh fun x => { x with objcs := x.objcs.erase oc }).setOc oc fun y => { y with live := false } with hs1
  have hohs : ∀ i, s1.oh i = if i = oh then { s.oh i with objcs := (s.oh i).objcs.erase oc } else s.oh i :=
    setOh_oh s oh fun x => { x with objcs := x.objcs.erase oc }
  have hoc : ∀ c, s1.oc c = if c = oc then { s.oc c with live := false } else s.oc c :=
    setOc_oc s oc fun y => { y with live := false }
  have hwl : ∀ i, (s1.oh i).waitinglist = (s.oh i).waitinglist := fun i => by
    rw [hohs]
    split_ifs <;> rfl
  have hlive : ∀ c, (s1.oc c).live = true → c ≠ oc ∧ s1.oc c = s.oc c := by
    intro c hc
    rw [hoc] at hc ⊢
    split_ifs at hc ⊢ with hi
    exact ⟨hi, rfl⟩
  have hmem : ∀ i c, c ∈ (s1.oh i).objcs ↔ c ∈ (s.oh i).objcs ∧ c ≠ oc := by
    intro i c
    rw [hohs]
    split_ifs with hi
    · rw [(h.objcs_nodup i).mem_erase_iff]
      exact and_comm
    · refine ⟨fun hc => ⟨hc, ?_⟩, fun hc => hc.1⟩
      rintro rfl
      exact hi (((h.objcs_iff i c).mp hc).2.symm.trans hoh)
  refine ⟨⟨?_, ?_, ?_, h.holds_lt, h.hash_lt, ?_, ?_⟩, ⟨ho.pers_lt, ?_, ho.obj, ho.core_inj, ho.core_obj⟩, hwl, ?_⟩
  · intro i c
    rw [hmem, h.objcs_iff i c]
    constructor
    · rintro ⟨hc, hne⟩
      rw [hoc, if_neg hne]
      exact hc
    · rintro ⟨hc, hi⟩
      obtain ⟨hne, heq⟩ := hlive c hc
      rw [heq] at hc hi
      exact ⟨⟨hc, hi⟩, hne⟩
  · intro i
    rw [hohs]
    split_ifs
    · exact (h.objcs_nodup i).erase oc
    · exact h.objcs_nodup i
  · intro c hc
    obtain ⟨-, heq⟩ := hlive c hc
    rw [heq] at hc ⊢
    exact h.live_lt c hc
  · intro i
    rw [hwl]
    exact h.waits.nodup i
  · intro i
    rw [hwl]
    exact h.waits.waits i
  · intro sp c hc
    obtain ⟨h1, h2, h3⟩ := ho.core sp c hc
    refine ⟨h1, h2, ?_⟩
    intro hcl
    obtain ⟨-, heq⟩ := hlive c hcl
    change (s1.oc c).live = true at hcl
    change (s1.oc c).busy = true
    rw [heq] at hcl ⊢
    exact h3 hcl
  · intro i c hc hne
    exact ⟨(hmem i c).mpr ⟨hc, hne⟩, by rw [hoc, if_neg hne]⟩

/-- What is left on the objheads when an objcore goes. -/
theorem Wakes.left {i : ℕ} {p : ℕ → Bool} (hw : Wakes ⟨s, p⟩ i)
    (hi : ∀ c ∈ (s.oh i).objcs, (Wake.mk s p).counts c = true → c ≠ oc) {s1 : Hsh} (h1 : Links s1)
    (hsess : s1.sess = s.sess)
    (hkeep : ∀ i c, c ∈ (s.oh i).objcs → c ≠ oc → c ∈ (s1.oh i).objcs ∧ s1.oc c = s.oc c) : Wakes ⟨s1, p⟩ i := by
  rcases hw.cases with ⟨c, hc, hcc⟩ | ⟨sp, hsp⟩
  · obtain ⟨hmem, heq⟩ := hkeep i c hc (hi c hc hcc)
    refine Links.wakes (w := ⟨s1, p⟩) h1 hmem ?_
    simp only [Wake.counts, heq] at hcc ⊢
    exact hcc
  · refine Or.inr (Or.inr ⟨sp, ?_⟩)
    change (s1.sess sp).holds = some i ∧ (s1.sess sp).waits = false
    rw [hsess]
    exact hsp

/-- An objcore that does not count goes, and nobody is woken. -/
theorem WakeInv.quiet {p : ℕ → Bool} (h : WakeInv ⟨s, p⟩) (hl : (s.oc oc).live = true) (hoh : (s.oc oc).objhead = oh)
    (hc : (Wake.mk s p).counts oc = false) :
    WakeInv ⟨(s.setOh oh fun x => { x with objcs := x.objcs.erase oc }).setOc oc fun y => { y with live := false }, p⟩ := by
  obtain ⟨h1, ho1, hwl, hkeep⟩ := h.links.removeOc h.owns hl hoh rfl
  refine ⟨h1, ho1, ?_⟩
  intro i hi
  have hi' : (s.oh i).waitinglist ≠ [] := by
    rw [← hwl i]
    exact hi
  refine (h.ok i hi').left ?_ h1 rfl hkeep
  rintro c - hcc rfl
  rw [hc] at hcc
  cases hcc

/-- **An objcore goes, and sessions are woken**, the first of which can be queued if nothing else is left. -/
theorem WakeInv.release {p : ℕ → Bool} (h : WakeInv ⟨s, p⟩) (queued : ℕ → Bool) (hl : (s.oc oc).live = true) (hoh : (s.oc oc).objhead = oh)
    (hn : 0 < n)
    (hq : (∃ c ∈ (s.oh oh).objcs, c ≠ oc ∧ (Wake.mk s p).counts c = true) ∨
      (∃ sp, (s.sess sp).holds = some oh ∧ (s.sess sp).waits = false) ∨
      (s.oh oh).waitinglist.length ≤ 1 ∨ ∃ sp ∈ (s.oh oh).waitinglist.take 1, queued sp = true) :
    WakeInv ⟨(hshRush queued oh n (s.setOh oh fun x => { x with objcs := x.objcs.erase oc })).setOc oc
      fun y => { y with live := false }, p⟩ ∧
    ∀ sp, sp ∉ (s.oh oh).waitinglist →
      (hshRush queued oh n (s.setOh oh fun x => { x with objcs := x.objcs.erase oc })).sess sp = s.sess sp := by
  have hcomm := hshRush_setOc queued oh n oc (fun y => { y with live := false })
    (s.setOh oh fun x => { x with objcs := x.objcs.erase oc })
  rw [← hcomm]
  obtain ⟨h1, ho1, hwl, hkeep⟩ := h.links.removeOc h.owns hl hoh rfl
  set s1 := (s.setOh oh fun x => { x with objcs := x.objcs.erase oc }).setOc oc fun y => { y with live := false } with hs1
  have hsess : s1.sess = s.sess := rfl
  obtain ⟨h2, ho2, hr⟩ := hshRush_wake queued oh n h1 ho1
  refine ⟨⟨h2, ho2, ?_⟩, ?_⟩
  swap
  · intro sp hsp
    have := hr.rest sp (by rw [hwl]; exact hsp)
    rw [hcomm] at this
    exact this
  intro i hi
  have hi1 := hr.waitinglist hi
  have hi' : (s.oh i).waitinglist ≠ [] := by
    rw [← hwl i]
    exact hi1
  by_cases hio : i = oh
  · subst hio
    rcases hq with ⟨c, hc, hne, hcc⟩ | ⟨sp, hsp⟩ | hfew
    · obtain ⟨hmem, heq⟩ := hkeep i c hc hne
      refine hr.wakes h1 (Links.wakes (w := ⟨s1, p⟩) h1 hmem ?_)
      simp only [Wake.counts, heq] at hcc ⊢
      exact hcc
    · refine hr.wakes h1 (Or.inr (Or.inr ⟨sp, ?_⟩))
      change (s1.sess sp).holds = some i ∧ (s1.sess sp).waits = false
      rw [hsess]
      exact hsp
    · -- the first session of the list
      obtain ⟨sp, l, hsl⟩ := List.exists_cons_of_ne_nil hi'
      have hsl1 : (s1.oh i).waitinglist = sp :: l := by rw [hwl, hsl]
      obtain ⟨hyes, hno⟩ := hshRush_first queued h1 ho1 hsl1 hn
      cases hqs : queued sp with
      | true => exact Or.inr (Or.inr ⟨sp, hyes hqs⟩)
      | false =>
        rcases hfew with hfew | ⟨sp', hsp', hq'⟩
        · rw [hsl, List.length_cons] at hfew
          have hnil : l = [] := List.length_eq_zero_iff.mp (by omega)
          exact absurd ((hno hqs).trans hnil) hi
        · rw [hsl, List.take_succ_cons, List.take_zero, List.mem_singleton] at hsp'
          rw [hsp', hqs] at hq'
          cases hq'
  · refine hr.wakes h1 ((h.ok i hi').left ?_ h1 rfl hkeep)
    rintro c hc - rfl
    exact hio (((h.links.objcs_iff i c).mp hc).2.symm.trans hoh)

end Links

/-! ## The steps -/

section Steps

variable {s s' : Hsh} {p : ℕ → Bool} {oh oc sp n : ℕ} {x : Sess} {r : Rush}

theorem WakeInv.alike (h : WakeInv ⟨s, p⟩) (ha : Alike s s') : WakeInv ⟨s', p⟩ :=
  ⟨h.links.alike ha, h.owns.alike ha, h.ok.alike ha⟩

/-- A session changes, and neither what it holds nor whether it waits. -/
theorem WakeInv.setSess (h : WakeInv ⟨s, p⟩) (hx : x.holds = (s.sess sp).holds) (hw : x.waits = (s.sess sp).waits)
    (ho : Owns ⟨s.setSess sp x, p⟩) : WakeInv ⟨s.setSess sp x, p⟩ := by
  refine ⟨h.links.setSess sp ?_ ?_, ho, ?_⟩
  · rw [hx]
    exact h.links.holds_lt sp
  · rw [hx, hw]
    exact fun i hi => h.links.waits.waits i sp hi
  · intro i hi
    rcases h.ok i hi with hb | hd | ⟨sp', hh, hsp'⟩
    · exact Or.inl hb
    · exact Or.inr (Or.inl hd)
    · refine Or.inr (Or.inr ⟨sp', ?_⟩)
      change ((s.setSess sp x).sess sp').holds = some i ∧ ((s.setSess sp x).sess sp').waits = false
      rw [setSess_sess]
      split_ifs with he
      · rw [hx, hw, ← he]
        exact ⟨hh, hsp'⟩
      · exact ⟨hh, hsp'⟩

/-- A session that does not wait, and what it has. -/
theorem Links.unlisted (h : Links s) (hc : (s.sess sp).objcore = some oc) (i : ℕ) : sp ∉ (s.oh i).waitinglist := by
  intro hm
  have := (h.waits.waits i sp hm).2
  rw [Sess.holds, hc] at this
  cases this

/-- **`HSH_DerefObjCore`**: only an objcore that does not count goes without a rush. -/
theorem WakeInv.derefObjCore (h : WakeInv ⟨s, p⟩) (hn : minRush ≤ r.exponent)
    (hc : (s.oc oc).busy = true ∨ p oc = true) (hq : (s.oc oc).busy = true → Rushes r ⟨s, p⟩ 1 (some oc))
    (hs : hshDerefObjCore r s oh oc = some s') :
    WakeInv ⟨s', p⟩ ∧ ∀ sp, sp ∉ (s.oh oh).waitinglist → s'.sess sp = s.sess sp := by
  have hpos : 0 < r.exponent := lt_of_lt_of_le Nat.two_pos hn
  rw [hshDerefObjCore] at hs
  split_ifs at hs with hl
  obtain ⟨hlive, hoh⟩ := hl
  dsimp only at hs
  cases hb : (s.oc oc).busy with
  | true =>
    rw [hb, if_pos rfl] at hs
    split_ifs at hs
    have ha := derefObjHead_alike hs
    have hleft := hq hb
    simp only [Rushes, hoh] at hleft
    obtain ⟨h1, h2⟩ := h.release r.queued hlive hoh hpos (hleft.imp_right Or.inr)
    refine ⟨h1.alike ha, ?_⟩
    intro sp hsp
    rw [ha.sess]
    exact h2 sp hsp
  | false =>
    rw [hb, if_neg Bool.false_ne_true] at hs
    split_ifs at hs
    have ha := derefObjHead_alike hs
    have hp : p oc = true := hc.resolve_left (by rw [hb]; exact Bool.false_ne_true)
    have h1 := h.quiet hlive hoh (by simp [Wake.counts, hb, hp])
    refine ⟨h1.alike ha, ?_⟩
    intro sp _
    rw [ha.sess]
    rfl

theorem setOc_setOc (s : Hsh) (oc : ℕ) (f g : Objcore → Objcore) :
    (s.setOc oc f).setOc oc g = s.setOc oc fun y => g (f y) := by
  simp [Hsh.setOc]

/-- **`HSH_Deref`**. -/
theorem WakeInv.deref (h : WakeInv ⟨s, p⟩) (hn : minRush ≤ r.exponent)
    (hq : (s.oc oc).refcnt = 1 →
      (∃ c ∈ (s.oh (s.oc oc).objhead).objcs, c ≠ oc ∧ (Wake.mk s p).counts c = true) ∨
      (∃ sp, (s.sess sp).holds = some (s.oc oc).objhead ∧ (s.sess sp).waits = false) ∨
      (s.oh (s.oc oc).objhead).waitinglist.length ≤ 1 ∨
      ∃ sp ∈ (s.oh (s.oc oc).objhead).waitinglist.take 1, r.queued sp = true)
    (hs : hshDeref r s oc = some s') : WakeInv ⟨s', p⟩ := by
  have hpos : 0 < r.exponent := lt_of_lt_of_le Nat.two_pos hn
  rw [hshDeref] at hs
  dsimp only at hs
  set s0 := s.setOc oc fun y => { y with refcnt := y.refcnt - 1 } with hs0
  have hoc : s0.oc oc = { s.oc oc with refcnt := (s.oc oc).refcnt - 1 } := by rw [hs0, setOc_oc, if_pos rfl]
  split_ifs at hs with hl hz hr
  · have hone : (s.oc oc).refcnt = 1 := by omega
    have ha := derefObjHead_alike hs
    obtain ⟨h1, -⟩ := h.release r.queued (n := r.exponent) hl.1 rfl hpos (hq hone)
    -- the counter of an objcore that is gone does not matter
    have h2 := h1.setOc oc (f := fun y => { y with refcnt := y.refcnt - 1 }) rfl rfl (fun hlive => by
      rw [setOc_oc, if_pos rfl] at hlive
      cases hlive) (Or.inl rfl)
    have heq : (hshRush r.queued (s.oc oc).objhead r.exponent (s0.setOh (s.oc oc).objhead fun x =>
        { x with objcs := x.objcs.erase oc })).setOc oc (fun y => { y with live := false }) =
        ((hshRush r.queued (s.oc oc).objhead r.exponent (s.setOh (s.oc oc).objhead fun x =>
          { x with objcs := x.objcs.erase oc })).setOc oc fun y => { y with live := false }).setOc oc
          fun y => { y with refcnt := y.refcnt - 1 } := by
      have hcomm := hshRush_setOc r.queued (s.oc oc).objhead r.exponent oc (fun y => { y with refcnt := y.refcnt - 1 })
        (s.setOh (s.oc oc).objhead fun x => { x with objcs := x.objcs.erase oc })
      have hswap : s0.setOh (s.oc oc).objhead (fun x => { x with objcs := x.objcs.erase oc }) =
          (s.setOh (s.oc oc).objhead fun x => { x with objcs := x.objcs.erase oc }).setOc oc
            fun y => { y with refcnt := y.refcnt - 1 } := rfl
      rw [hswap, hcomm, setOc_setOc, setOc_setOc]
    rw [heq] at ha
    exact h2.alike ha
  · rw [Option.some_inj] at hs
    have h0 : WakeInv ⟨s0, p⟩ := h.setOc oc rfl rfl (fun _ => Nat.pos_of_ne_zero hz) (Or.inl rfl)
    exact hs ▸ h0.rush r.queued (s.oc oc).objhead r.exponent

/-- **`HSH_Unbusy`**: the objcore of a session that is not busy any more still counts. -/
theorem WakeInv.unbusy (h : WakeInv ⟨s, p⟩) (hobj : (s.sess sp).obj = some oc) (hs : hshUnbusy r s oc = some s') :
    WakeInv ⟨s.setOc oc fun y => { y with busy := false }, p⟩ ∧
      hshRush r.queued (s.oc oc).objhead r.exponent (s.setOc oc fun y => { y with busy := false }) = s' := by
  rw [hshUnbusy] at hs
  split_ifs at hs with hl
  rw [Option.some_inj] at hs
  have hno : ∀ sp', (s.sess sp').objcore ≠ some oc := fun sp' hc => h.owns.core_obj sp' sp oc hc hobj
  exact ⟨h.setOc oc rfl rfl (fun _ => hl.2.2.1) (Or.inr ⟨hno, (h.owns.obj sp oc hobj).2⟩), hs⟩

/-- What the first of the two rushes of `HSH_Drop` leaves for the second. -/
theorem Rushes.unbusy (hn : minRush ≤ r.exponent) (hq : Rushes r ⟨s, p⟩ 2 (some oc))
    (h0 : WakeInv ⟨s.setOc oc fun y => { y with busy := false }, p⟩)
    (hs : hshRush r.queued (s.oc oc).objhead r.exponent (s.setOc oc fun y => { y with busy := false }) = s') :
    (∃ c ∈ (s'.oh (s'.oc oc).objhead).objcs, c ≠ oc ∧ (Wake.mk s' p).counts c = true) ∨
    (∃ sp, (s'.sess sp).holds = some (s'.oc oc).objhead ∧ (s'.sess sp).waits = false) ∨
    (s'.oh (s'.oc oc).objhead).waitinglist.length ≤ 1 ∨
    ∃ sp ∈ (s'.oh (s'.oc oc).objhead).waitinglist.take 1, r.queued sp = true := by
  have hpos : 0 < r.exponent := lt_of_lt_of_le Nat.two_pos hn
  set s0 := s.setOc oc fun y => { y with busy := false } with hs0
  obtain ⟨-, -, hr⟩ := hshRush_wake r.queued (s.oc oc).objhead r.exponent h0.links h0.owns
  rw [hs] at hr
  have hoc : s'.oc = s0.oc := hr.oc
  have hhead : (s'.oc oc).objhead = (s.oc oc).objhead := by
    rw [hoc, hs0, setOc_oc, if_pos rfl]
  rw [hhead]
  rcases hq with ⟨c, hc, hne, hcc⟩ | hq
  · refine Or.inl ⟨c, by rw [hr.objcs]; exact hc, hne, ?_⟩
    simp only [Wake.counts, hoc, hs0, setOc_oc, if_neg hne] at hcc ⊢
    exact hcc
  · right
    cases hwl : (s.oh (s.oc oc).objhead).waitinglist with
    | nil =>
      have hsuf := hr.suffix
      change _ <:+ (s.oh (s.oc oc).objhead).waitinglist at hsuf
      rw [hwl, List.suffix_nil] at hsuf
      rw [hsuf]
      exact Or.inr (Or.inl (Nat.zero_le 1))
    | cons a l =>
      dsimp only at hq
      rw [hwl] at hq
      obtain ⟨hyes, hfail⟩ := hshRush_first r.queued h0.links h0.owns hwl hpos
      rw [hs] at hyes hfail
      cases ha : r.queued a with
      | true => exact Or.inl ⟨a, hyes ha⟩
      | false =>
        rw [hfail ha]
        rcases hq with hlen | ⟨sp', hsp', hq'⟩
        · rw [List.length_cons] at hlen
          exact Or.inr (Or.inl (by omega))
        · rw [List.take_succ_cons, List.mem_cons] at hsp'
          rcases hsp' with rfl | hsp'
          · rw [ha] at hq'
            cases hq'
          · exact Or.inr (Or.inr ⟨sp', hsp', hq'⟩)

/-- **`HSH_Drop`**. -/
theorem WakeInv.drop (h : WakeInv ⟨s, p⟩) (hn : minRush ≤ r.exponent) (hobj : (s.sess sp).obj = some oc)
    (hq : (s.oc oc).refcnt = 1 → Rushes r ⟨s, p⟩ 2 (some oc)) (hs : hshDrop r s oc = some s') : WakeInv ⟨s', p⟩ := by
  rw [hshDrop] at hs
  split_ifs at hs
  obtain ⟨s1, hs1, hs⟩ := Option.bind_eq_some_iff.mp hs
  obtain ⟨h0, hs1⟩ := h.unbusy hobj hs1
  have h1 := h0.rush r.queued (s.oc oc).objhead r.exponent
  obtain ⟨-, -, hr⟩ := hshRush_wake r.queued (s.oc oc).objhead r.exponent h0.links h0.owns
  rw [hs1] at h1 hr
  have hcnt : (s1.oc oc).refcnt = (s.oc oc).refcnt := by
    rw [hr.oc, setOc_oc, if_pos rfl]
  refine h1.deref hn ?_ hs
  intro hone
  exact Rushes.unbusy hn (hq (hcnt.symm.trans hone)) h0 hs1

/-! ### Lookup -/

/-- **`hash->lookup`**: a new objhead has no objcores and nobody waits for it. -/
theorem hashLookup_alike (h : Links s) (digest : ℕ) :
    Alike s (hashLookup s digest).2 ∧ (hashLookup s digest).1 < (hashLookup s digest).2.nextOh := by
  rw [hashLookup]
  cases hf : s.hash.find? fun oh => (s.oh oh).digest = digest with
  | some oh =>
    have hoh := setOh_oh s oh fun x => { x with refcnt := x.refcnt + 1 }
    refine ⟨⟨rfl, rfl, le_refl _, id, rfl, fun i => ?_, fun i => ?_⟩, h.hash_lt oh (List.mem_of_find?_eq_some hf)⟩
    all_goals
      dsimp only
      rw [hoh]
      split_ifs <;> rfl
  | none =>
    have hnew : (s.oh s.nextOh).objcs = [] ∧ (s.oh s.nextOh).waitinglist = [] := by
      constructor
      · refine List.eq_nil_iff_forall_not_mem.mpr fun oc hoc => ?_
        obtain ⟨hl, he⟩ := (h.objcs_iff s.nextOh oc).mp hoc
        have := (h.live_lt oc hl).2.1
        omega
      · refine List.eq_nil_iff_forall_not_mem.mpr fun sp hsp => ?_
        exact lt_irrefl _ (h.holds_lt sp _ (h.waits.waits s.nextOh sp hsp).2)
    refine ⟨⟨rfl, rfl, Nat.le_succ _, ?_, rfl, fun i => ?_, fun i => ?_⟩, Nat.lt_succ_self _⟩
    · intro hlt i hi
      rcases List.mem_cons.mp hi with rfl | hi
      · exact Nat.lt_succ_self _
      · exact Nat.lt_succ_of_lt (hlt i hi)
    all_goals
      dsimp only
      by_cases hi : i = s.nextOh
      · rw [hi, Function.update_self]
        first
          | exact hnew.1.symm
          | exact hnew.2.symm
      · rw [Function.update_of_ne hi]

/-- Fewer objcores have `OC_F_PERSISTENT`. -/
theorem WakeInv.fixup {p' : ℕ → Bool} (h : WakeInv ⟨s, p⟩) (hp : ∀ oc, p' oc = true → p oc = true) :
    WakeInv ⟨s, p'⟩ := by
  have hf : ∀ oc, p oc = false → p' oc = false := by
    intro oc hoc
    cases hpo : p' oc with
    | false => rfl
    | true =>
      rw [hp oc hpo] at hoc
      cases hoc
  refine ⟨h.links, ⟨fun oc hoc => h.owns.pers_lt oc (hp oc hoc), ?_, ?_, h.owns.core_inj, h.owns.core_obj⟩, ?_⟩
  · intro sp oc hoc
    obtain ⟨h1, h2, h3⟩ := h.owns.core sp oc hoc
    exact ⟨h1, hf oc h2, h3⟩
  · intro sp oc hoc
    obtain ⟨h1, h2⟩ := h.owns.obj sp oc hoc
    exact ⟨h1, hf oc h2⟩
  · intro i hi
    rcases h.ok i hi with hb | ⟨oc, hoc, hpo, hr⟩ | hs
    · exact Or.inl hb
    · exact Or.inr (Or.inl ⟨oc, hoc, hf oc hpo, hr⟩)
    · exact Or.inr (Or.inr hs)

/-- What `HSH_Lookup` uses is on the list, not busy, and was looked at. -/
theorem scan_mem (busy : ℕ → Bool) (fit : ℕ → Fit) (b g : Option ℕ) (l : List ℕ) :
    (∀ oc, (scan busy fit b g l).1 = some oc → oc ∈ l ∧ busy oc = false ∧ oc ∈ looked busy fit l) ∧
    (∀ oc, (scan busy fit b g l).2.1 = some oc → b = some oc ∨ (oc ∈ l ∧ busy oc = true)) ∧
    ((scan busy fit b g l).1 = none → ∀ oc, (scan busy fit b g l).2.2 = some oc →
      g = some oc ∨ (oc ∈ l ∧ busy oc = false ∧ oc ∈ looked busy fit l)) := by
  induction l generalizing b g with
  | nil =>
    refine ⟨?_, fun _ h => Or.inl h, fun _ _ h => Or.inl h⟩
    intro _ h
    cases h
  | cons c l ih =>
    rw [scan, looked]
    by_cases hb : busy c = true
    · obtain ⟨h1, h2, h3⟩ := ih (some c) g
      rw [if_pos hb, if_pos hb]
      refine ⟨?_, ?_, ?_⟩
      · intro oc hoc
        obtain ⟨hm, hbo, hlo⟩ := h1 oc hoc
        exact ⟨List.mem_cons_of_mem c hm, hbo, List.mem_cons_of_mem c hlo⟩
      · intro oc hoc
        rcases h2 oc hoc with he | ⟨hm, hbo⟩
        · cases he
          exact Or.inr ⟨List.mem_cons_self, hb⟩
        · exact Or.inr ⟨List.mem_cons_of_mem c hm, hbo⟩
      · intro hn oc hoc
        rcases h3 hn oc hoc with he | ⟨hm, hbo, hlo⟩
        · exact Or.inl he
        · exact Or.inr ⟨List.mem_cons_of_mem c hm, hbo, List.mem_cons_of_mem c hlo⟩
    · have hbf : busy c = false := by simpa using hb
      rw [if_neg hb, if_neg hb]
      -- an objcore that is passed by
      have hpass : ∀ g', (g' = g ∨ g' = some c) →
          (∀ oc, (scan busy fit b g' l).1 = some oc → oc ∈ c :: l ∧ busy oc = false ∧ oc ∈ c :: looked busy fit l) ∧
          (∀ oc, (scan busy fit b g' l).2.1 = some oc → b = some oc ∨ (oc ∈ c :: l ∧ busy oc = true)) ∧
          ((scan busy fit b g' l).1 = none → ∀ oc, (scan busy fit b g' l).2.2 = some oc →
            g = some oc ∨ (oc ∈ c :: l ∧ busy oc = false ∧ oc ∈ c :: looked busy fit l)) := by
        intro g' hg'
        obtain ⟨h1, h2, h3⟩ := ih b g'
        refine ⟨?_, ?_, ?_⟩
        · intro oc hoc
          obtain ⟨hm, hbo, hlo⟩ := h1 oc hoc
          exact ⟨List.mem_cons_of_mem c hm, hbo, List.mem_cons_of_mem c hlo⟩
        · intro oc hoc
          rcases h2 oc hoc with he | ⟨hm, hbo⟩
          · exact Or.inl he
          · exact Or.inr ⟨List.mem_cons_of_mem c hm, hbo⟩
        · intro hn oc hoc
          rcases h3 hn oc hoc with he | ⟨hm, hbo, hlo⟩
          · rcases hg' with rfl | rfl
            · exact Or.inl he
            · cases he
              exact Or.inr ⟨List.mem_cons_self, hbf, List.mem_cons_self⟩
          · exact Or.inr ⟨List.mem_cons_of_mem c hm, hbo, List.mem_cons_of_mem c hlo⟩
      cases hf : fit c with
      | no => exact hpass g (Or.inl rfl)
      | grace => exact hpass (some c) (Or.inr rfl)
      | valid =>
        refine ⟨?_, fun oc hoc => Or.inl hoc, ?_⟩
        · intro oc hoc
          cases hoc
          exact ⟨List.mem_cons_self, hbf, List.mem_cons_self⟩
        · intro hn
          cases hn

theorem choose_mem {a : Ask} {busy : ℕ → Bool} {l : List ℕ} {c b : Option ℕ} (h : choose a busy l = (c, b)) :
    (∀ oc, c = some oc → oc ∈ l ∧ busy oc = false ∧ oc ∈ looked busy a.fit l) ∧
    ∀ oc, b = some oc → oc ∈ l ∧ busy oc = true := by
  obtain ⟨h1, h2, h3⟩ := scan_mem busy a.fit none none l
  have hbusy : ∀ oc, (scan busy a.fit none none l).2.1 = some oc → oc ∈ l ∧ busy oc = true := by
    intro oc hoc
    exact (h2 oc hoc).resolve_left fun he => by cases he
  rw [choose] at h
  rcases hs : scan busy a.fit none none l with ⟨_ | oc, bo, _ | g⟩
  all_goals rw [hs] at h h1 hbusy h3
  · cases h
    exact ⟨fun oc he => (by cases he), hbusy⟩
  · dsimp only at h
    split_ifs at h
    · cases h
      refine ⟨?_, hbusy⟩
      intro oc hoc
      exact (h3 rfl oc hoc).resolve_left fun he => by cases he
    · cases h
      exact ⟨fun oc he => (by cases he), hbusy⟩
  · cases h
    exact ⟨h1, hbusy⟩
  · cases h
    exact ⟨h1, hbusy⟩

/-- A new objcore. -/
theorem Links.addOc {b : Bool} (h : Links s) (hoh : oh < s.nextOh) :
    Links (newObjcore s oh b) ∧ (∀ i, ((newObjcore s oh b).oh i).waitinglist = (s.oh i).waitinglist) ∧
      (∀ i, (s.oh i).objcs ⊆ ((newObjcore s oh b).oh i).objcs) ∧ s.nextOc ∈ ((newObjcore s oh b).oh oh).objcs ∧
      (newObjcore s oh b).oc s.nextOc = ⟨true, b, 1, oh⟩ ∧
      ∀ c, c ≠ s.nextOc → (newObjcore s oh b).oc c = s.oc c := by
  set s1 := newObjcore s oh b with hs1
  have hohs : ∀ i, s1.oh i = if i = oh then { s.oh i with objcs := (s.oh i).objcs ++ [s.nextOc] } else s.oh i :=
    setOh_oh s oh fun x => { x with objcs := x.objcs ++ [s.nextOc] }
  have hself : s1.oc s.nextOc = ⟨true, b, 1, oh⟩ := Function.update_self _ _ _
  have hne : ∀ c, c ≠ s.nextOc → s1.oc c = s.oc c := fun c hc => Function.update_of_ne hc _ _
  have hdead : ∀ i, s.nextOc ∉ (s.oh i).objcs := fun i hc =>
    lt_irrefl _ (h.live_lt _ ((h.objcs_iff i s.nextOc).mp hc).1).1
  have hwl : ∀ i, (s1.oh i).waitinglist = (s.oh i).waitinglist := fun i => by
    rw [hohs]
    split_ifs <;> rfl
  have hmem : ∀ i c, c ∈ (s1.oh i).objcs ↔ c ∈ (s.oh i).objcs ∨ (i = oh ∧ c = s.nextOc) := by
    intro i c
    rw [hohs]
    split_ifs with hi
    · simp [hi]
    · simp [hi]
  refine ⟨⟨?_, ?_, ?_, h.holds_lt, h.hash_lt, ?_, ?_⟩, hwl, ?_, ?_, hself, hne⟩
  · intro i c
    rw [hmem]
    by_cases hc : c = s.nextOc
    · rw [hc, hself]
      simp [hdead i, eq_comm]
    · rw [hne c hc, h.objcs_iff i c]
      simp [hc]
  · intro i
    rw [hohs]
    split_ifs
    · exact List.nodup_append.mpr ⟨h.objcs_nodup i, List.nodup_singleton _, fun a ha b hb => by
        rw [List.mem_singleton.mp hb]
        exact fun he => hdead i (he ▸ ha)⟩
    · exact h.objcs_nodup i
  · intro c hc
    by_cases hcn : c = s.nextOc
    · rw [hcn, hself]
      exact ⟨Nat.lt_succ_self _, hoh, Nat.one_pos⟩
    · rw [hne c hcn] at hc ⊢
      obtain ⟨h1, h2⟩ := h.live_lt c hc
      exact ⟨Nat.lt_succ_of_lt h1, h2⟩
  · intro i
    rw [hwl]
    exact h.waits.nodup i
  · intro i
    rw [hwl]
    exact h.waits.waits i
  · intro i c hc
    exact (hmem i c).mpr (Or.inl hc)
  · exact (hmem oh s.nextOc).mpr (Or.inr ⟨rfl, rfl⟩)

/-- What a step of a session that holds nothing else leaves on the objheads. -/
theorem Wakes.others {i : ℕ} {s1 : Hsh} (hw : Wakes ⟨s, p⟩ i) (hsp : (s.sess sp).holds ≠ some i) (h1 : Links s1)
    (hobjcs : ∀ c ∈ (s.oh i).objcs, c ∈ (s1.oh i).objcs ∧ (s1.oc c).busy = (s.oc c).busy)
    (hsess : ∀ j, j ≠ sp → s1.sess j = s.sess j) : Wakes ⟨s1, p⟩ i := by
  rcases hw.cases with ⟨c, hc, hcc⟩ | ⟨j, hj, hjw⟩
  · obtain ⟨hmem, hbusy⟩ := hobjcs c hc
    refine Links.wakes (w := ⟨s1, p⟩) h1 hmem ?_
    simp only [Wake.counts, hbusy] at hcc ⊢
    exact hcc
  · have hne : j ≠ sp := by
      rintro rfl
      exact hsp hj
    refine Or.inr (Or.inr ⟨j, ?_⟩)
    change (s1.sess j).holds = some i ∧ (s1.sess j).waits = false
    rw [hsess j hne]
    exact ⟨hj, hjw⟩

/-- A miss: the new objcore is busy. -/
theorem WakeInv.miss (h : WakeInv ⟨s, p⟩) (hoh : oh < s.nextOh) (hoff : ∀ i, sp ∉ (s.oh i).waitinglist)
    (hother : ∀ i, i ≠ oh → (s.sess sp).holds ≠ some i) :
    WakeInv ⟨(newObjcore s oh true).setSess sp { s.sess sp with objhead := some oh, objcore := some s.nextOc }, p⟩ := by
  obtain ⟨h1, hwl, hobjcs, hnew, hself, hne⟩ := h.links.addOc (b := true) hoh
  set x : Sess := { s.sess sp with objhead := some oh, objcore := some s.nextOc } with hx
  set s1 := newObjcore s oh true with hs1
  have hnext : s1.nextOc = s.nextOc + 1 := rfl
  have h2 : Links (s1.setSess sp x) :=
    h1.setSess sp (fun i hi => by cases hi) fun i hi => absurd (hwl i ▸ hi) (hoff i)
  have hsess : ∀ j, j ≠ sp → (s1.setSess sp x).sess j = s.sess j := fun j hj => by
    rw [setSess_sess, if_neg hj]
    rfl
  have hself' : (s1.setSess sp x).sess sp = x := by rw [setSess_sess, if_pos rfl]
  -- nobody has the new objcore
  have hfresh : ∀ j, (s.sess j).objcore ≠ some s.nextOc ∧ (s.sess j).obj ≠ some s.nextOc := fun j =>
    ⟨fun hc => lt_irrefl _ (h.owns.core j _ hc).1, fun hc => lt_irrefl _ (h.owns.obj j _ hc).1⟩
  have hobj : ∀ j, ((s1.setSess sp x).sess j).obj = (s.sess j).obj := fun j => by
    by_cases hj : j = sp
    · rw [hj, hself']
    · rw [hsess j hj]
  have hcore : ∀ j c, ((s1.setSess sp x).sess j).objcore = some c →
      (j = sp ∧ c = s.nextOc) ∨ (j ≠ sp ∧ (s.sess j).objcore = some c) := by
    intro j c hc
    by_cases hj : j = sp
    · rw [hj, hself'] at hc
      cases hc
      exact Or.inl ⟨hj, rfl⟩
    · rw [hsess j hj] at hc
      exact Or.inr ⟨hj, hc⟩
  have hfree : p s.nextOc = false := by
    cases hp : p s.nextOc with
    | false => rfl
    | true => exact absurd (h.owns.pers_lt _ hp) (lt_irrefl _)
  refine ⟨h2, ⟨fun c hc => Nat.lt_succ_of_lt (h.owns.pers_lt c hc), ?_, ?_, ?_, ?_⟩, ?_⟩
  · intro j c hc
    rcases hcore j c hc with ⟨-, rfl⟩ | ⟨-, hc'⟩
    · refine ⟨Nat.lt_succ_self _, hfree, fun _ => ?_⟩
      change (s1.oc s.nextOc).busy = true
      rw [hself]
    · obtain ⟨hc1, hc2, hc3⟩ := h.owns.core j c hc'
      refine ⟨Nat.lt_succ_of_lt hc1, hc2, ?_⟩
      change (s1.oc c).live = true → (s1.oc c).busy = true
      rw [hne c (Nat.ne_of_lt hc1)]
      exact hc3
  · intro j c hc
    dsimp only at hc
    rw [hobj] at hc
    obtain ⟨hc1, hc2⟩ := h.owns.obj j c hc
    exact ⟨Nat.lt_succ_of_lt hc1, hc2⟩
  · intro j k c hj hk
    rcases hcore j c hj with ⟨rfl, rfl⟩ | ⟨-, hj'⟩
    · rcases hcore k _ hk with ⟨rfl, -⟩ | ⟨-, hk'⟩
      · rfl
      · exact absurd hk' (hfresh k).1
    · rcases hcore k c hk with ⟨rfl, rfl⟩ | ⟨-, hk'⟩
      · exact absurd hj' (hfresh j).1
      · exact h.owns.core_inj j k c hj' hk'
  · intro j k c hj hk
    dsimp only at hk
    rw [hobj] at hk
    rcases hcore j c hj with ⟨rfl, rfl⟩ | ⟨-, hj'⟩
    · exact (hfresh k).2 hk
    · exact h.owns.core_obj j k c hj' hk
  · intro i hi
    change (s1.oh i).waitinglist ≠ [] at hi
    rw [hwl] at hi
    by_cases hio : i = oh
    · refine Or.inl ⟨s.nextOc, ?_, ?_⟩
      · rw [hio]
        exact hnew
      · change (s1.oc s.nextOc).busy = true
        rw [hself]
    · refine (h.ok i hi).others (hother i hio) h2 ?_ hsess
      intro c hc
      refine ⟨hobjcs i hc, ?_⟩
      have hlt := (h.links.live_lt c ((h.links.objcs_iff i c).mp hc).1).1
      change (s1.oc c).busy = _
      rw [hne c (Nat.ne_of_lt hlt)]

theorem Links.enqueue (h : Links s) (hoh : oh < s.nextOh) (hwait : (s.sess sp).waits = false)
    (hx : x.waits = true ∧ x.holds = some oh) :
    Links ((s.setOh oh fun y => { y with waitinglist := y.waitinglist ++ [sp] }).setSess sp x) := by
  have hobjcs : ∀ i, (((s.setOh oh fun y => { y with waitinglist := y.waitinglist ++ [sp] }).setSess sp x).oh i).objcs =
      (s.oh i).objcs := fun i => by
    rw [setSess_oh, setOh_oh]
    split_ifs <;> rfl
  refine ⟨?_, ?_, h.live_lt, ?_, h.hash_lt, h.waits.enqueue hwait hx⟩
  · intro i c
    rw [hobjcs]
    exact h.objcs_iff i c
  · intro i
    rw [hobjcs]
    exact h.objcs_nodup i
  · intro j i hi
    rw [setSess_sess] at hi
    split_ifs at hi
    · rw [hx.2, Option.some_inj] at hi
      exact hi ▸ hoh
    · exact h.holds_lt j i hi

/-- A session holds the objhead of a busy objcore. -/
theorem WakeInv.park {s1 : Hsh} {b : ℕ} (h : WakeInv ⟨s, p⟩) (hother : ∀ i, i ≠ oh → (s.sess sp).holds ≠ some i)
    (h1 : Links s1) (hoc : s1.oc = s.oc) (hnext : s1.nextOc = s.nextOc) (hobjcs : ∀ i, (s1.oh i).objcs = (s.oh i).objcs)
    (hwl : ∀ i, i ≠ oh → (s1.oh i).waitinglist = (s.oh i).waitinglist) (hsess : ∀ j, j ≠ sp → s1.sess j = s.sess j)
    (hsp : (s1.sess sp).objcore = none ∧ (s1.sess sp).obj = (s.sess sp).obj) (hbm : b ∈ (s.oh oh).objcs)
    (hbb : (s.oc b).busy = true) : WakeInv ⟨s1, p⟩ := by
  have hcore : ∀ j c, (s1.sess j).objcore = some c → (s.sess j).objcore = some c := by
    intro j c hc
    by_cases hj : j = sp
    · rw [hj, hsp.1] at hc
      cases hc
    · rw [hsess j hj] at hc
      exact hc
  have hobj : ∀ j, (s1.sess j).obj = (s.sess j).obj := by
    intro j
    by_cases hj : j = sp
    · rw [hj, hsp.2]
    · rw [hsess j hj]
  refine ⟨h1, ⟨?_, ?_, ?_, ?_, ?_⟩, ?_⟩
  · intro c hc
    rw [hnext]
    exact h.owns.pers_lt c hc
  · intro j c hc
    dsimp only
    rw [hnext, hoc]
    exact h.owns.core j c (hcore j c hc)
  · intro j c hc
    dsimp only at hc ⊢
    rw [hobj] at hc
    rw [hnext]
    exact h.owns.obj j c hc
  · intro j k c hj hk
    exact h.owns.core_inj j k c (hcore j c hj) (hcore k c hk)
  · intro j k c hj hk
    dsimp only at hk
    rw [hobj] at hk
    exact h.owns.core_obj j k c (hcore j c hj) hk
  · intro i hi
    by_cases hio : i = oh
    · refine Or.inl ⟨b, ?_, ?_⟩
      · dsimp only
        rw [hobjcs, hio]
        exact hbm
      · dsimp only
        rw [hoc]
        exact hbb
    · dsimp only at hi
      rw [hwl i hio] at hi
      refine (h.ok i hi).others (hother i hio) h1 ?_ hsess
      intro c hc
      rw [hobjcs, hoc]
      exact ⟨hc, rfl⟩

/-- A hit: the session has a reference on an objcore that is not busy. -/
theorem WakeInv.hit (h : WakeInv ⟨s, p⟩) (oh : ℕ) (hm : oc ∈ (s.oh oh).objcs) (hb : (s.oc oc).busy = false)
    (hp : p oc = false) (hwait : (s.sess sp).waits = false)
    (hother : ∀ i, i ≠ oh → (s.sess sp).holds ≠ some i) :
    WakeInv ⟨s.setSess sp { s.sess sp with objhead := none, obj := some oc }, p⟩ := by
  set x : Sess := { s.sess sp with objhead := none, obj := some oc } with hx
  have hl := ((h.links.objcs_iff oh oc).mp hm).1
  have hxh : x.holds = none := by rw [Sess.holds, ite_self]
  have h1 : Links (s.setSess sp x) :=
    h.links.setSess sp (fun i hi => by rw [hxh] at hi; cases hi) fun i hi => absurd hi (h.links.waits.off hwait i)
  have hsess : ∀ j, j ≠ sp → (s.setSess sp x).sess j = s.sess j := fun j hj => by rw [setSess_sess, if_neg hj]
  have hcores : ∀ j c, ((s.setSess sp x).sess j).objcore = some c → (s.sess j).objcore = some c := by
    intro j c hc
    rw [setSess_sess] at hc
    split_ifs at hc with hj
    · rw [hj]
      exact hc
    · exact hc
  -- the objcore of a miss is busy
  have hno : ∀ j, (s.sess j).objcore ≠ some oc := by
    intro j hj
    have := (h.owns.core j oc hj).2.2 hl
    dsimp only at this
    rw [hb] at this
    cases this
  refine ⟨h1, ⟨h.owns.pers_lt, ?_, ?_, ?_, ?_⟩, ?_⟩
  · intro j c hc
    exact h.owns.core j c (hcores j c hc)
  · intro j c hc
    dsimp only at hc
    rw [setSess_sess] at hc
    split_ifs at hc
    · cases hc
      exact ⟨(h.links.live_lt oc hl).1, hp⟩
    · exact h.owns.obj j c hc
  · intro j k c hj hk
    exact h.owns.core_inj j k c (hcores j c hj) (hcores k c hk)
  · intro j k c hj hk
    have hj' := hcores j c hj
    dsimp only at hk
    rw [setSess_sess] at hk
    split_ifs at hk
    · cases hk
      exact hno j hj'
    · exact h.owns.core_obj j k c hj' hk
  · intro i hi
    by_cases hio : i = oh
    · refine Links.wakes (w := ⟨s.setSess sp x, p⟩) (h1 : Links (s.setSess sp x)) (hio ▸ hm : oc ∈ (s.oh i).objcs) ?_
      simp [Wake.counts, hp]
    · exact (h.ok i hi).others (hother i hio) h1 (fun c hc => ⟨hc, rfl⟩) hsess

/-- **`HSH_Lookup`**: a hit and a miss leave a reference, and who waits does so for a busy objcore. -/
theorem WakeInv.lookupIn {a : Ask} (h : WakeInv ⟨s, p⟩) (hoh : oh < s.nextOh) (hwait : (s.sess sp).waits = false)
    (hoc : (s.sess sp).objcore = none) (hholds : ∀ i, (s.sess sp).holds = some i → i = oh)
    (hp : ∀ c ∈ looked (fun oc => (s.oc oc).busy) a.fit (s.oh oh).objcs, p c = false)
    (hs : lookupIn s sp oh a = some s') : WakeInv ⟨s', p⟩ := by
  have hoff := h.links.waits.off hwait
  have hother : ∀ i, i ≠ oh → (s.sess sp).holds ≠ some i := fun i hi hh => hi (hholds i hh)
  rw [Hash.lookupIn] at hs
  dsimp only at hs
  by_cases hassert : (s.oh oh).refcnt ≤ 0 ∨ ((s.oh oh).objcs ≠ [] ∧ (s.oh oh).refcnt ≤ 1)
  · rw [if_pos hassert] at hs
    cases hs
  rw [if_neg hassert] at hs
  generalize hch : choose a (fun oc => (s.oc oc).busy) (s.oh oh).objcs = r at hs
  obtain ⟨c, b⟩ := r
  obtain ⟨hhit, hbusy⟩ := choose_mem hch
  cases c with
  | none =>
    cases b with
    | none =>
      cases hs
      exact h.miss hoh hoff hother
    | some b =>
      obtain ⟨hbm, hbb⟩ := hbusy b rfl
      dsimp only at hs
      have hx : ∀ i, (some oh : Option ℕ) = some i → i < s.nextOh := by
        rintro i hi
        cases hi
        exact hoh
      split_ifs at hs
      · -- an ESI include asks again
        cases hs
        have h1 := h.links.setSess sp (x := { s.sess sp with objhead := some oh })
          (by rw [Sess.holds, if_pos hoc]; exact hx) fun i hi => absurd hi (hoff i)
        refine h.park hother h1 rfl rfl (fun i => rfl) (fun i _ => rfl) (fun j hj => ?_) ?_ hbm hbb
        · rw [setSess_sess, if_neg hj]
        · rw [setSess_sess, if_pos rfl]
          exact ⟨hoc, rfl⟩
      · cases hs
        have h1 := h.links.enqueue hoh hwait (x := { s.sess sp with objhead := some oh, waits := true })
          ⟨rfl, by rw [Sess.holds, if_pos hoc]⟩
        refine h.park hother h1 rfl rfl (fun i => ?_) (fun i hi => ?_) (fun j hj => ?_) ?_ hbm hbb
        · rw [setSess_oh, setOh_oh]
          split_ifs <;> rfl
        · rw [setSess_oh, setOh_oh, if_neg hi]
        · rw [setSess_sess, if_neg hj]
          rfl
        · rw [setSess_sess, if_pos rfl]
          exact ⟨hoc, rfl⟩
  | some oc =>
    obtain ⟨hm, hb, hlo⟩ := hhit oc rfl
    dsimp only at hs
    have h1 : WakeInv ⟨s.setOc oc fun y => { y with refcnt := y.refcnt + 1 }, p⟩ :=
      h.setOc oc rfl rfl (fun _ => Nat.succ_pos _) (Or.inl rfl)
    set s1 := s.setOc oc fun y => { y with refcnt := y.refcnt + 1 } with hs1
    have ha := hashDeref_alike s1 oh
    rcases hd : hashDeref s1 oh with ⟨_ | _, s2⟩
    · rw [hd] at hs
      cases hs
    · rw [hd] at hs ha
      cases hs
      have h2 := h1.alike ha
      have hsess : s2.sess = s.sess := ha.sess
      have hoc2 : s2.oc = s1.oc := ha.oc
      refine h2.hit oh ?_ ?_ (hp oc hlo) ?_ ?_
      · rw [ha.objcs]
        exact hm
      · rw [hoc2, hs1, setOc_oc, if_pos rfl]
        exact hb
      · rw [hsess]
        exact hwait
      · rw [hsess]
        exact hother

/-- `cnt_fetch`: the busy objcore follows from `sp->objcore` to the object. -/
theorem WakeInv.newObject (h : WakeInv ⟨s, p⟩) (hoc : (s.sess sp).objcore = some oc) :
    WakeInv ⟨s.setSess sp { s.sess sp with objhead := none, objcore := none, obj := some oc }, p⟩ := by
  set x : Sess := { s.sess sp with objhead := none, objcore := none, obj := some oc } with hx
  have hxh : x.holds = (s.sess sp).holds := by
    rw [Sess.holds, Sess.holds, ite_self, hoc, if_neg (Option.some_ne_none oc)]
  have hcores : ∀ j c, ((s.setSess sp x).sess j).objcore = some c → j ≠ sp ∧ (s.sess j).objcore = some c := by
    intro j c hc
    rw [setSess_sess] at hc
    by_cases hj : j = sp
    · rw [if_pos hj] at hc
      cases hc
    · rw [if_neg hj] at hc
      exact ⟨hj, hc⟩
  refine h.setSess hxh rfl ⟨h.owns.pers_lt, ?_, ?_, ?_, ?_⟩
  · intro j c hc
    exact h.owns.core j c (hcores j c hc).2
  · intro j c hc
    dsimp only at hc
    rw [setSess_sess] at hc
    split_ifs at hc
    · cases hc
      obtain ⟨h1, h2, -⟩ := h.owns.core sp oc hoc
      exact ⟨h1, h2⟩
    · exact h.owns.obj j c hc
  · intro j k c hj hk
    exact h.owns.core_inj j k c (hcores j c hj).2 (hcores k c hk).2
  · intro j k c hj hk
    obtain ⟨hne, hj'⟩ := hcores j c hj
    dsimp only at hk
    rw [setSess_sess] at hk
    split_ifs at hk
    · cases hk
      exact hne (h.owns.core_inj j sp oc hj' hoc)
    · exact h.owns.core_obj j k c hj' hk

/-- What comes off a silo: an objcore that does not count. -/
theorem WakeInv.insert (h : WakeInv ⟨s, p⟩) (digest : ℕ) :
    WakeInv ⟨hshInsert s digest, Function.update p s.nextOc true⟩ := by
  obtain ⟨ha, hlt⟩ := hashLookup_alike h.links digest
  have h1 := h.alike ha
  have hnext : (hashLookup s digest).2.nextOc = s.nextOc := ha.nextOc
  rw [hshInsert]
  dsimp only
  rw [← hnext]
  set s1 := (hashLookup s digest).2 with hs1
  obtain ⟨h2, hwl, hobjcs, -, hself, hne⟩ := h1.links.addOc (b := false) hlt
  have hp : ∀ c, c < s1.nextOc → Function.update p s1.nextOc true c = p c := fun c hc =>
    Function.update_of_ne (Nat.ne_of_lt hc) _ _
  refine ⟨h2, ⟨?_, ?_, ?_, h1.owns.core_inj, h1.owns.core_obj⟩, ?_⟩
  · intro c hc
    by_cases hcn : c = s1.nextOc
    · rw [hcn]
      exact Nat.lt_succ_self _
    · dsimp only at hc
      rw [Function.update_of_ne hcn] at hc
      exact Nat.lt_succ_of_lt (h1.owns.pers_lt c hc)
  · intro j c hc
    obtain ⟨hc1, hc2, hc3⟩ := h1.owns.core j c hc
    refine ⟨Nat.lt_succ_of_lt hc1, (hp c hc1).trans hc2, ?_⟩
    dsimp only
    rw [hne c (Nat.ne_of_lt hc1)]
    exact hc3
  · intro j c hc
    obtain ⟨hc1, hc2⟩ := h1.owns.obj j c hc
    exact ⟨Nat.lt_succ_of_lt hc1, (hp c hc1).trans hc2⟩
  · intro i hi
    dsimp only at hi
    rw [hwl] at hi
    rcases (h1.ok i hi).cases with ⟨c, hc, hcc⟩ | hs
    · have hcl := (h1.links.live_lt c ((h1.links.objcs_iff i c).mp hc).1).1
      refine Links.wakes (w := ⟨_, _⟩) h2 (hobjcs i hc) ?_
      simp only [Wake.counts, hne c (Nat.ne_of_lt hcl), hp c hcl] at hcc ⊢
      exact hcc
    · exact Or.inr (Or.inr hs)

end Steps

/-! ## Runs -/

section WakeRuns

variable {w w' : Wake}

theorem wakeInv_init : WakeInv Wake.init where
  links := ⟨by simp [Wake.init, Hsh.init], fun _ => List.nodup_nil, by simp [Wake.init, Hsh.init],
    by simp [Wake.init, Hsh.init, Sess.holds], by simp [Wake.init, Hsh.init], fun _ => List.nodup_nil,
    by simp [Wake.init, Hsh.init]⟩
  owns := ⟨by simp [Wake.init], by simp [Wake.init, Hsh.init], by simp [Wake.init, Hsh.init],
    by simp [Wake.init, Hsh.init], by simp [Wake.init, Hsh.init]⟩
  ok := fun _ h => absurd rfl h

theorem WakeInv.lookup {sp : ℕ} {a : Ask} {s' : Hsh} (h : WakeInv w) (hok : (Act.lookup sp a).Ok w.hsh)
    (hs : hshLookup w.hsh sp a = some s') : WakeInv ⟨s', w.flag (.lookup sp a)⟩ := by
  obtain ⟨hwait, hoc⟩ := hok
  have hfix : WakeInv ⟨w.hsh, w.flag (.lookup sp a)⟩ := by
    refine WakeInv.fixup (p := w.persistent) h ?_
    intro oc hoc
    exact (Bool.and_eq_true_iff.mp hoc).1
  have hp : ∀ c ∈ looked (fun oc => (w.hsh.oc oc).busy) a.fit (w.hsh.oh (lookupOh w.hsh sp a)).objcs,
      w.flag (.lookup sp a) c = false := by
    intro c hc
    simp [Wake.flag, hc]
  rw [hshLookup] at hs
  cases hoh : (w.hsh.sess sp).objhead with
  | some oh =>
    rw [hoh] at hs
    have hh : (w.hsh.sess sp).holds = some oh := by rw [Sess.holds, if_pos hoc, hoh]
    rw [lookupOh, hoh, Option.getD_some] at hp
    refine hfix.lookupIn (h.links.holds_lt sp oh hh) hwait hoc ?_ hp hs
    intro i hi
    rw [hh, Option.some_inj] at hi
    exact hi.symm
  | none =>
    rw [hoh] at hs
    obtain ⟨ha, hlt⟩ := hashLookup_alike h.links a.digest
    rw [lookupOh, hoh, Option.getD_none] at hp
    have h1 := hfix.alike ha
    refine h1.lookupIn hlt ?_ ?_ ?_ ?_ hs
    · rw [ha.sess]
      exact hwait
    · rw [ha.sess]
      exact hoc
    · intro i hi
      rw [ha.sess, Sess.holds, if_pos hoc, hoh] at hi
      cases hi
    · rw [ha.oc, ha.objcs]
      exact hp

/-- **One step**. -/
theorem wakeInv_step (a : WakeAct) (h : WakeInv w) (hok : a.Ok w) (hsafe : a.Safe w) (hs : wakeStep w a = some w') :
    WakeInv w' := by
  cases a with
  | findBan oc =>
    rw [wakeStep] at hs
    split_ifs at hs with hl
    · cases hs
      have h1 : WakeInv ⟨w.hsh.setOc oc fun y => { y with refcnt := y.refcnt + 1 }, w.persistent⟩ :=
        WakeInv.setOc (p := w.persistent) h oc rfl rfl (fun _ => Nat.succ_pos _) (Or.inl rfl)
      refine h1.fixup ?_
      intro c hc
      by_cases hcn : c = oc
      · rw [hcn, Function.update_self] at hc
        cases hc
      · rw [Function.update_of_ne hcn] at hc
        exact hc
    · cases hs
      exact h
  | hsh a =>
    obtain ⟨s', hs', rfl⟩ := Option.map_eq_some_iff.mp hs
    cases a with
    | lookup sp a => exact h.lookup hok hs'
    | insert digest =>
      cases hs'
      exact WakeInv.insert (p := w.persistent) h digest
    | newObject sp =>
      obtain ⟨oc, hoc, hs1⟩ := Option.bind_eq_some_iff.mp hs'
      cases hs1
      exact WakeInv.newObject (p := w.persistent) h hoc
    | unbusy sp r =>
      obtain ⟨oc, hoc, hs1⟩ := Option.bind_eq_some_iff.mp hs'
      obtain ⟨h0, heq⟩ := WakeInv.unbusy (p := w.persistent) h hoc hs1
      exact heq ▸ h0.rush r.queued (w.hsh.oc oc).objhead r.exponent
    | drop sp r =>
      obtain ⟨oc, hoc, hs2⟩ := Option.bind_eq_some_iff.mp hs'
      obtain ⟨s1, hs1, hs3⟩ := Option.bind_eq_some_iff.mp hs2
      cases hs3
      simp only [WakeAct.Safe, hoc] at hsafe
      have h1 := WakeInv.drop (p := w.persistent) h hok hoc hsafe hs1
      exact h1.setSess rfl rfl (h1.owns.setSess (fun _ hc => hc) fun _ hc => (by cases hc))
    | derefObj sp r =>
      obtain ⟨oc, hoc, hs2⟩ := Option.bind_eq_some_iff.mp hs'
      obtain ⟨s1, hs1, hs3⟩ := Option.bind_eq_some_iff.mp hs2
      cases hs3
      simp only [WakeAct.Safe, hoc] at hsafe
      have h1 := WakeInv.deref (p := w.persistent) h hok (fun hone => (hsafe hone).imp_right Or.inr) hs1
      exact h1.setSess rfl rfl (h1.owns.setSess (fun _ hc => hc) fun _ hc => (by cases hc))
    | derefObjCore sp r =>
      obtain ⟨oh, hoh, hs2⟩ := Option.bind_eq_some_iff.mp hs'
      obtain ⟨oc, hoc, hs3⟩ := Option.bind_eq_some_iff.mp hs2
      obtain ⟨s1, hs1, hs4⟩ := Option.bind_eq_some_iff.mp hs3
      cases hs4
      simp only [WakeAct.Safe, hoc] at hsafe
      have hlive : (w.hsh.oc oc).live = true := by
        rw [hshDerefObjCore] at hs1
        split_ifs at hs1 with hl
        exact hl.1
      have hbusy := (h.owns.core sp oc hoc).2.2 hlive
      obtain ⟨h1, hsess⟩ := WakeInv.derefObjCore (p := w.persistent) h hok (Or.inl hbusy) (fun _ => hsafe) hs1
      have hsp := hsess sp (h.links.unlisted hoc oh)
      refine h1.setSess ?_ rfl (h1.owns.setSess (fun _ hc => (by cases hc)) fun _ hc => hc)
      rw [hsp]
      simp [Sess.holds, hoc]
    | ref oc =>
      simp only [hshStep, hshRef] at hs'
      split_ifs at hs'
      cases hs'
      exact WakeInv.setOc (p := w.persistent) h oc rfl rfl (fun _ => Nat.succ_pos _) (Or.inl rfl)
    | deref oc r =>
      exact WakeInv.deref (p := w.persistent) h hok (fun hone => (hsafe hone).imp_right Or.inr) hs'
    | expire oc r =>
      exact (WakeInv.derefObjCore (p := w.persistent) h hok.1 (Or.inr hok.2) hsafe hs').1

/-- **No wakeup is lost**, in every run in which a session that is woken can be queued where nothing else is left. -/
theorem reach_wakeOk (h : Reach wakeStep (fun w a => a.Ok w ∧ a.Safe w) Wake.init w) : WakeOk w :=
  (h.inv (I := WakeInv) wakeInv_init fun _ a _ hi hok hs => wakeInv_step a hi hok.1 hok.2 hs).ok

instance decRushes (r : Rush) (w : Wake) (n : ℕ) : (o : Option ℕ) → Decidable (Rushes r w n o)
  | some oc => inferInstanceAs (Decidable ((∃ c ∈ (w.hsh.oh (w.hsh.oc oc).objhead).objcs, c ≠ oc ∧ w.counts c = true) ∨
      (w.hsh.oh (w.hsh.oc oc).objhead).waitinglist.length ≤ n ∨
      ∃ sp ∈ (w.hsh.oh (w.hsh.oc oc).objhead).waitinglist.take n, r.queued sp = true))
  | none => isTrue trivial

instance decLastRef (s : Hsh) : (o : Option ℕ) → Decidable (LastRef s o)
  | some oc => inferInstanceAs (Decidable ((s.oc oc).refcnt = 1))
  | none => isFalse id

instance WakeAct.decOk (w : Wake) : (a : WakeAct) → Decidable (a.Ok w)
  | .hsh (.lookup sp a) => inferInstanceAs (Decidable ((Act.lookup sp a).Ok w.hsh))
  | .hsh (.unbusy _ r) | .hsh (.drop _ r) | .hsh (.derefObj _ r) | .hsh (.derefObjCore _ r) | .hsh (.deref _ r) =>
    inferInstanceAs (Decidable (minRush ≤ r.exponent))
  | .hsh (.expire oc r) => inferInstanceAs (Decidable (minRush ≤ r.exponent ∧ w.persistent oc = true))
  | .hsh (.insert _) | .hsh (.newObject _) | .hsh (.ref _) | .findBan _ => isTrue trivial

instance WakeAct.decSafe (w : Wake) : (a : WakeAct) → Decidable (a.Safe w)
  | .hsh (.drop sp r) =>
    inferInstanceAs (Decidable (LastRef w.hsh (w.hsh.sess sp).obj → Rushes r w 2 (w.hsh.sess sp).obj))
  | .hsh (.derefObj sp r) =>
    inferInstanceAs (Decidable (LastRef w.hsh (w.hsh.sess sp).obj → Rushes r w 1 (w.hsh.sess sp).obj))
  | .hsh (.derefObjCore sp r) => inferInstanceAs (Decidable (Rushes r w 1 (w.hsh.sess sp).objcore))
  | .hsh (.deref oc r) => inferInstanceAs (Decidable (LastRef w.hsh (some oc) → Rushes r w 1 (some oc)))
  | .hsh (.expire oc r) => inferInstanceAs (Decidable (Busy w.hsh (some oc) → Rushes r w 1 (some oc)))
  | .hsh (.lookup ..) | .hsh (.insert _) | .hsh (.newObject _) | .hsh (.unbusy ..) | .hsh (.ref _) | .findBan _ =>
    isTrue trivial

/-- The workers have room for the first session only. -/
def rushOne : Rush := ⟨2, fun sp => sp == 2⟩

/-- Four sessions wait for a fetch that fails; the first of them is queued, the second is not, and the other two stay until
the first one has been served. -/
def patientWake : List WakeAct :=
  [.hsh (.insert 7), .hsh (.lookup 1 (askFor 5)), .hsh (.lookup 2 (askFor 5)), .hsh (.lookup 3 (askFor 5)),
    .hsh (.lookup 4 (askFor 5)), .hsh (.lookup 6 (askFor 5)), .hsh (.expire 0 rushTwo), .hsh (.derefObjCore 1 rushOne),
    .hsh (.lookup 2 (askFor 5)), .hsh (.newObject 2), .hsh (.ref 2), .findBan 2]

theorem reach_wakeOk_patientWake : ∃ w : Wake,
    Reach wakeStep (fun w a => a.Ok w ∧ a.Safe w) Wake.init w ∧ WakeOk w ∧ (w.hsh.oh 1).waitinglist = [4, 6] := by
  have hres : (patientWake.foldlM wakeStep Wake.init).map (fun w => (w.hsh.oh 1).waitinglist) = some [4, 6] := by
    decide +kernel
  obtain ⟨w, hw, hc⟩ := Option.map_eq_some_iff.mp hres
  have hreach : Reach wakeStep (fun w a => a.Ok w ∧ a.Safe w) Wake.init w := Reach.of_run (by decide +kernel) hw
  exact ⟨w, hreach, reach_wakeOk hreach, hc⟩

/-- Two sessions wait for a fetch that fails when the workers have no room. -/
def forgetfulRun : List WakeAct :=
  [.hsh (.lookup 1 (askFor 7)), .hsh (.lookup 2 (askFor 7)), .hsh (.lookup 3 (askFor 7)),
    .hsh (.derefObjCore 1 ⟨2, fun _ => false⟩)]

/-- The first session is deleted, the second one stays on the list, and there is nobody left to wake it. -/
theorem waiter_forgotten : ∃ w : Wake, Reach wakeStep (fun w a => a.Ok w) Wake.init w ∧ ¬ WakeOk w ∧
    (w.hsh.oh 0).waitinglist = [3] ∧ (w.hsh.oh 0).objcs = [] := by
  obtain ⟨w, hw⟩ : ∃ w, forgetfulRun.foldlM wakeStep Wake.init = some w := ⟨_, rfl⟩
  have hsess : ∀ sp, (w.hsh.sess sp).holds = some 0 → (w.hsh.sess sp).waits = true := by
    cases hw
    rintro (_ | _ | _ | _ | sp) hsp
    · cases hsp
    · cases hsp
    · cases hsp
    · rfl
    · cases hsp
  have hoh : (w.hsh.oh 0).waitinglist = [3] ∧ (w.hsh.oh 0).objcs = [] := by
    cases hw
    decide +kernel
  refine ⟨w, Reach.of_run (by decide +kernel) hw, ?_, hoh⟩
  intro hok
  rcases (hok 0 (by rw [hoh.1]; exact List.cons_ne_nil 3 [])).cases with ⟨oc, hoc, -⟩ | ⟨sp, hsp, hwait⟩
  · rw [hoh.2] at hoc
    cases hoc
  · rw [hsess sp hsp] at hwait
    cases hwait

end WakeRuns

end Varnish.Hash
