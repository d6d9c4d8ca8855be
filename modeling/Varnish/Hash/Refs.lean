import Mathlib.Data.Set.Card
import Varnish.Hash.Model
import Varnish.Lib.Run
import Varnish.Lib.Tally

/-!
# Varnish.Hash.Refs — the references on the objheads

* `HashOk`: the `refcnt` of an objhead is the number of its objcores plus the number of the sessions that hold it, and it
  is in the hash exactly while something refers to it.
* `hshRush_spec`, `hashLookup_spec`, `lookupIn_spec`, `derefObjHead_spec`: what the functions do to the references; a
  reference that a function holds in a local variable is counted apart.
* `reach_hashOk`: it holds in every state of every run in which `hsh_rush` can queue the sessions it takes.
* `rush_leak`: a run in which it cannot.
-/

namespace Varnish.Hash

open Varnish.Lib

/-! ## The system -/

section Sys

inductive Act where
  | lookup (sp : ℕ) (a : Ask)
  | insert (digest : ℕ)
  | newObject (sp : ℕ)
  | unbusy (sp : ℕ) (r : Rush)
  | drop (sp : ℕ) (r : Rush)
  | derefObj (sp : ℕ) (r : Rush)
  | derefObjCore (sp : ℕ) (r : Rush)
  | ref (oc : ℕ)
  | deref (oc : ℕ) (r : Rush)
  | expire (oc : ℕ) (r : Rush)

def hshStep (s : Hsh) : Act → Option Hsh
  | .lookup sp a => hshLookup s sp a
  | .insert digest => some (hshInsert s digest)
  | .newObject sp => do
    -- `cnt_fetch`: the references follow the pointers
    let oc ← (s.sess sp).objcore
    some (s.setSess sp { s.sess sp with objhead := none, objcore := none, obj := some oc })
  | .unbusy sp r => do
    let oc ← (s.sess sp).obj
    hshUnbusy r s oc
  | .drop sp r => do
    let oc ← (s.sess sp).obj
    let s ← hshDrop r s oc
    some (s.setSess sp { s.sess sp with obj := none })
  | .derefObj sp r => do
    let oc ← (s.sess sp).obj
    let s ← hshDeref r s oc
    some (s.setSess sp { s.sess sp with obj := none })
  | .derefObjCore sp r => do
    let oh ← (s.sess sp).objhead
    let oc ← (s.sess sp).objcore
    let s ← hshDerefObjCore r s oh oc
    some (s.setSess sp { s.sess sp with objhead := none, objcore := none })
  | .ref oc => hshRef s oc
  | .deref oc r => hshDeref r s oc
  -- `exp_timer`, with an objcore of a silo that was not fixed up
  | .expire oc r => hshDerefObjCore r s (s.oc oc).objhead oc

/-- Who may call: a session looks up when it does not wait, and has let go of the objcore of a miss. -/
def Act.Ok (s : Hsh) : Act → Prop
  | .lookup sp _ => (s.sess sp).waits = false ∧ (s.sess sp).objcore = none
  | _ => True

/-- The first `n` sessions on the waiting list can be queued. -/
def Queues (r : Rush) (s : Hsh) (n : ℕ) : Option ℕ → Prop
  | some oc => ∀ sp ∈ (s.oh (s.oc oc).objhead).waitinglist.take n, r.queued sp = true
  | none => True

def Busy (s : Hsh) : Option ℕ → Prop
  | some oc => (s.oc oc).busy = true
  | none => False

/-- The condition: `WRK_QueueSession` takes the sessions that `hsh_rush` gives it. -/
def Act.Safe (s : Hsh) : Act → Prop
  | .unbusy sp r | .derefObj sp r => Queues r s r.exponent (s.sess sp).obj
  | .drop sp r => Queues r s (r.exponent + r.exponent) (s.sess sp).obj
  | .derefObjCore sp r => Busy s (s.sess sp).objcore → Queues r s r.exponent (s.sess sp).objcore
  | .expire oc r => Busy s (some oc) → Queues r s r.exponent (some oc)
  | .deref oc r => Queues r s r.exponent (some oc)
  | _ => True

/-- The objhead that a session holds, on the waiting list or to be run again. With an objcore the reference is the
objcore's. -/
def Sess.holds (x : Sess) : Option ℕ := if x.objcore = none then x.objhead else none

structure HashOk (s : Hsh) : Prop where
  /-- The count is the number of objcores plus the number of sessions that hold the objhead. -/
  count : ∀ oh ∈ s.hash, (s.oh oh).refcnt = (s.oh oh).objcs.length + ({sp | (s.sess sp).holds = some oh}.ncard : ℤ)
  /-- An objhead is in the hash while something refers to it, and only then. -/
  released : ∀ oh, oh ∈ s.hash ↔ ((s.oh oh).objcs ≠ [] ∨ ∃ sp, (s.sess sp).holds = some oh)

end Sys

/-! ## References -/

section Refs

variable {s s' : Hsh} {ptr : ℕ → Option ℕ} {ext : ℕ → ℤ} {oh oc sp : ℕ}

/-- One reference on `oh` that is in a local variable. -/
def one (oh : ℕ) : ℕ → ℤ := Function.update (fun _ => 0) oh 1

/-- The references of the objcores, of the sessions as `ptr` has them, and those in local variables. -/
structure Refs (s : Hsh) (ptr : ℕ → Option ℕ) (ext : ℕ → ℤ) : Prop where
  tally : ∃ hold, Tally (fun i => (s.oh i).refcnt - (s.oh i).objcs.length) hold ptr ext
  linked : ∀ i, i ∈ s.hash ↔ (s.oh i).refcnt ≠ 0
  hash_nodup : s.hash.Nodup
  hash_lt : ∀ i ∈ s.hash, i < s.nextOh
  objcs_iff : ∀ i oc, oc ∈ (s.oh i).objcs ↔ (s.oc oc).live = true ∧ (s.oc oc).objhead = i
  objcs_nodup : ∀ i, (s.oh i).objcs.Nodup
  live_lt : ∀ oc, (s.oc oc).live = true → oc < s.nextOc

/-- The sessions on a waiting list wait, and hold the objhead. -/
structure Waits (s : Hsh) : Prop where
  nodup : ∀ i, (s.oh i).waitinglist.Nodup
  waits : ∀ i, ∀ sp ∈ (s.oh i).waitinglist, (s.sess sp).waits = true ∧ (s.sess sp).holds = some i

/-- Only the waiting lists change, and who is on them. -/
structure Frame (s s' : Hsh) : Prop where
  oc : s'.oc = s.oc
  hash : s'.hash = s.hash
  nextOh : s'.nextOh = s.nextOh
  nextOc : s'.nextOc = s.nextOc
  refcnt : ∀ i, (s'.oh i).refcnt = (s.oh i).refcnt
  objcs : ∀ i, (s'.oh i).objcs = (s.oh i).objcs
  holds : ∀ sp, (s'.sess sp).holds = (s.sess sp).holds

theorem frame_refl (s : Hsh) : Frame s s := ⟨rfl, rfl, rfl, rfl, fun _ => rfl, fun _ => rfl, fun _ => rfl⟩

theorem Frame.trans {s'' : Hsh} (h : Frame s s') (h' : Frame s' s'') : Frame s s'' :=
  ⟨h'.oc.trans h.oc, h'.hash.trans h.hash, h'.nextOh.trans h.nextOh, h'.nextOc.trans h.nextOc,
    fun i => (h'.refcnt i).trans (h.refcnt i), fun i => (h'.objcs i).trans (h.objcs i),
    fun i => (h'.holds i).trans (h.holds i)⟩

/-- The counts do not depend on who waits. -/
theorem Refs.congr (h : Refs s ptr ext) (hr : ∀ i, (s'.oh i).refcnt = (s.oh i).refcnt)
    (ho : ∀ i, (s'.oh i).objcs = (s.oh i).objcs)
    (hc : ∀ i, (s'.oc i).live = (s.oc i).live ∧ (s'.oc i).objhead = (s.oc i).objhead) (hh : s'.hash = s.hash)
    (hn : s'.nextOh = s.nextOh) (hn' : s'.nextOc = s.nextOc) : Refs s' ptr ext := by
  refine ⟨?_, ?_, by rw [hh]; exact h.hash_nodup, by rw [hh, hn]; exact h.hash_lt, ?_, ?_, ?_⟩
  · simp only [hr, ho]
    exact h.tally
  · simp only [hh, hr]
    exact h.linked
  · simp only [ho, hc]
    exact h.objcs_iff
  · simp only [ho]
    exact h.objcs_nodup
  · simp only [hc, hn']
    exact h.live_lt

theorem Refs.frame (h : Refs s ptr ext) (hf : Frame s s') : Refs s' ptr ext :=
  h.congr hf.refcnt hf.objcs (fun i => by rw [hf.oc]; exact ⟨rfl, rfl⟩) hf.hash hf.nextOh hf.nextOc

end Refs

/-! ## What the functions do to the references -/

section Functions

variable {s s' : Hsh} {ptr : ℕ → Option ℕ} {ext : ℕ → ℤ} {oh oc sp : ℕ}

theorem setOh_oh (s : Hsh) (oh : ℕ) (f : Objhead → Objhead) (i : ℕ) :
    (s.setOh oh f).oh i = if i = oh then f (s.oh i) else s.oh i := by
  by_cases h : i = oh
  · subst h
    simp [Hsh.setOh]
  · simp [Hsh.setOh, h]

theorem setOc_oc (s : Hsh) (oc : ℕ) (f : Objcore → Objcore) (i : ℕ) :
    (s.setOc oc f).oc i = if i = oc then f (s.oc i) else s.oc i := by
  by_cases h : i = oc
  · subst h
    simp [Hsh.setOc]
  · simp [Hsh.setOc, h]

theorem setSess_sess (s : Hsh) (sp : ℕ) (x : Sess) (i : ℕ) :
    (s.setSess sp x).sess i = if i = sp then x else s.sess i := by
  by_cases h : i = sp
  · subst h
    simp [Hsh.setSess]
  · simp [Hsh.setSess, h]

theorem setSess_oh (s : Hsh) (sp : ℕ) (x : Sess) : (s.setSess sp x).oh = s.oh := rfl

/-- **`hsh_rush`** that can queue what it takes: the first sessions go off the list, and keep their references. -/
theorem hshRush_spec {queued : ℕ → Bool} (oh n : ℕ) (hw : Waits s)
    (hq : ∀ sp ∈ (s.oh oh).waitinglist.take n, queued sp = true) :
    Waits (hshRush queued oh n s) ∧ Frame s (hshRush queued oh n s) ∧
      ((hshRush queued oh n s).oh oh).waitinglist = (s.oh oh).waitinglist.drop n := by
  induction n generalizing s with
  | zero => exact ⟨hw, frame_refl s, rfl⟩
  | succ n ih =>
    rw [hshRush]
    cases hl : (s.oh oh).waitinglist with
    | nil => exact ⟨hw, frame_refl s, by rw [hl]; rfl⟩
    | cons sp l =>
      rw [hl] at hq
      have hsp := hq sp (by simp)
      dsimp only
      rw [if_pos hsp]
      have hnd := hw.nodup oh
      rw [hl, List.nodup_cons] at hnd
      set s1 := (s.setOh oh fun x => { x with waitinglist := l }).setSess sp { s.sess sp with waits := false } with hs1
      have hwl : ∀ i, (s1.oh i).waitinglist = if i = oh then l else (s.oh i).waitinglist := fun i => by
        simp only [hs1, Hsh.setSess, setOh_oh]
        split_ifs <;> rfl
      have hholds : ∀ i, (s1.sess i).holds = (s.sess i).holds := fun i => by
        rw [hs1, setSess_sess]
        split_ifs with hi
        · rw [hi]
          rfl
        · rfl
      have hf : Frame s s1 := by
        refine ⟨rfl, rfl, rfl, rfl, fun i => ?_, fun i => ?_, hholds⟩
        all_goals
          simp only [hs1, Hsh.setSess, setOh_oh]
          split_ifs <;> rfl
      have hw1 : Waits s1 := by
        refine ⟨fun i => ?_, fun i sp' hsp' => ?_⟩
        · rw [hwl]
          split_ifs
          · exact hnd.2
          · exact hw.nodup i
        · rw [hholds]
          have hold : sp' ∈ (s.oh i).waitinglist ∧ sp' ≠ sp := by
            rw [hwl] at hsp'
            split_ifs at hsp' with hi
            · subst hi
              exact ⟨by rw [hl]; exact List.mem_cons_of_mem _ hsp', fun he => hnd.1 (he ▸ hsp')⟩
            · refine ⟨hsp', ?_⟩
              rintro rfl
              have h1 := (hw.waits i sp' hsp').2
              rw [(hw.waits oh sp' (by rw [hl]; exact List.mem_cons_self)).2, Option.some_inj] at h1
              exact hi h1.symm
          have hws := hw.waits i sp' hold.1
          refine ⟨?_, hws.2⟩
          rw [hs1, setSess_sess, if_neg hold.2]
          exact hws.1
      have hwl1 : (s1.oh oh).waitinglist = l := by rw [hwl, if_pos rfl]
      have hq1 : ∀ sp' ∈ (s1.oh oh).waitinglist.take n, queued sp' = true := fun sp' hsp' => by
        rw [hwl1] at hsp'
        exact hq sp' (by simp [hsp'])
      obtain ⟨h1, h2, h3⟩ := ih hw1 hq1
      rw [hwl1] at h3
      exact ⟨h1, hf.trans h2, h3⟩

/-- What is counted is never more than the counter. -/
theorem Refs.le_refcnt (h : Refs s ptr ext) (oh : ℕ) : (s.oh oh).objcs.length + ext oh ≤ (s.oh oh).refcnt := by
  obtain ⟨hold, ht⟩ := h.tally
  have := ht.count oh
  omega

theorem one_self (oh : ℕ) : one oh oh = 1 := Function.update_self _ _ _

theorem update_one (oh : ℕ) : Function.update (one oh) oh (one oh oh + -1) = 0 := by
  rw [one_self, one, Function.update_idem]
  exact Function.update_eq_self oh _

/-- **One counter changes**, by a reference in a local variable. -/
theorem Refs.bump (h : Refs s ptr ext) (s' : Hsh) (oh : ℕ) (k : ℤ)
    (hk : (s'.oh oh).refcnt - (s'.oh oh).objcs.length = (s.oh oh).refcnt - (s.oh oh).objcs.length + k)
    (hne : ∀ i, i ≠ oh → s'.oh i = s.oh i) :
    ∃ hold, Tally (fun i => (s'.oh i).refcnt - (s'.oh i).objcs.length) hold ptr
      (Function.update ext oh (ext oh + k)) := by
  obtain ⟨hold, ht⟩ := h.tally
  refine ⟨hold, ?_⟩
  have heq : (fun i => (s'.oh i).refcnt - ((s'.oh i).objcs.length : ℤ)) =
      Function.update (fun i => (s.oh i).refcnt - ((s.oh i).objcs.length : ℤ)) oh
        ((s.oh oh).refcnt - (s.oh oh).objcs.length + k) := by
    ext i
    by_cases hi : i = oh
    · subst hi
      rw [Function.update_self, hk]
    · rw [Function.update_of_ne hi, hne i hi]
  rw [heq]
  exact ht.add oh k

/-- **`hash->lookup`**: the reference it returns is in a local variable. -/
theorem hashLookup_spec (h : Refs s ptr 0) (hw : Waits s) (digest : ℕ) :
    Refs (hashLookup s digest).2 ptr (one (hashLookup s digest).1) ∧ Waits (hashLookup s digest).2 ∧
      (hashLookup s digest).2.sess = s.sess := by
  have hone : ∀ oh, Function.update (0 : ℕ → ℤ) oh ((0 : ℕ → ℤ) oh + 1) = one oh := fun oh => rfl
  rw [hashLookup]
  cases hf : s.hash.find? fun oh => (s.oh oh).digest = digest with
  | some oh =>
    have hmem := List.mem_of_find?_eq_some hf
    have hoh : ∀ i, (s.setOh oh fun x => { x with refcnt := x.refcnt + 1 }).oh i =
        if i = oh then { s.oh i with refcnt := (s.oh i).refcnt + 1 } else s.oh i := setOh_oh s oh _
    have hobjcs : ∀ i, ((s.setOh oh fun x => { x with refcnt := x.refcnt + 1 }).oh i).objcs = (s.oh i).objcs :=
      fun i => by rw [hoh]; split_ifs <;> rfl
    have hwl : ∀ i, ((s.setOh oh fun x => { x with refcnt := x.refcnt + 1 }).oh i).waitinglist =
        (s.oh i).waitinglist := fun i => by rw [hoh]; split_ifs <;> rfl
    have ht := h.bump (s.setOh oh fun x => { x with refcnt := x.refcnt + 1 }) oh 1
      (by rw [hoh, if_pos rfl]; dsimp only; omega) (fun i hi => by rw [hoh, if_neg hi])
    rw [hone] at ht
    refine ⟨⟨ht, fun i => ?_, h.hash_nodup, h.hash_lt, fun i oc => ?_, fun i => ?_, h.live_lt⟩, ⟨fun i => ?_, fun i => ?_⟩,
      rfl⟩
    · rw [hoh]
      split_ifs with hi
      · subst hi
        have := h.le_refcnt i
        have hpos : (s.oh i).refcnt + 1 ≠ 0 := by simp only [Pi.zero_apply] at this; omega
        exact iff_of_true hmem hpos
      · exact h.linked i
    · rw [hobjcs]
      exact h.objcs_iff i oc
    · rw [hobjcs]
      exact h.objcs_nodup i
    · rw [hwl]
      exact hw.nodup i
    · rw [hwl]
      exact hw.waits i
  | none =>
    -- nothing refers to a new objhead
    have hnew : s.nextOh ∉ s.hash := fun hm => lt_irrefl _ (h.hash_lt _ hm)
    have hzero : (s.oh s.nextOh).refcnt = 0 := by
      by_contra hne
      exact hnew ((h.linked _).mpr hne)
    have hle := h.le_refcnt s.nextOh
    rw [hzero] at hle
    have hnil : (s.oh s.nextOh).objcs = [] := List.length_eq_zero_iff.mp (by simp only [Pi.zero_apply] at hle; omega)
    dsimp only
    set s1 : Hsh := { s with
      oh := Function.update s.oh s.nextOh ⟨1, digest, [], []⟩
      hash := s.nextOh :: s.hash
      nextOh := s.nextOh + 1 } with hs1
    have hself : s1.oh s.nextOh = ⟨1, digest, [], []⟩ := Function.update_self _ _ _
    have hne : ∀ i, i ≠ s.nextOh → s1.oh i = s.oh i := fun i hi => Function.update_of_ne hi _ _
    have ht := h.bump s1 s.nextOh 1 (by rw [hself, hzero, hnil]; rfl) hne
    rw [hone] at ht
    refine ⟨⟨ht, fun i => ?_, ?_, fun i hi => ?_, fun i oc => ?_, fun i => ?_, h.live_lt⟩, ⟨fun i => ?_, fun i => ?_⟩, rfl⟩
    · by_cases hi : i = s.nextOh
      · rw [hi, hself]
        exact iff_of_true List.mem_cons_self one_ne_zero
      · rw [hne i hi, ← h.linked i]
        simp [hs1, hi]
    · exact List.nodup_cons.mpr ⟨hnew, h.hash_nodup⟩
    · rcases List.mem_cons.mp hi with rfl | hi
      · exact Nat.lt_succ_self _
      · exact Nat.lt_succ_of_lt (h.hash_lt i hi)
    · by_cases hi : i = s.nextOh
      · have := h.objcs_iff s.nextOh oc
        rw [hnil] at this
        rw [hi, hself]
        exact this
      · rw [hne i hi]
        exact h.objcs_iff i oc
    · by_cases hi : i = s.nextOh
      · rw [hi, hself]
        exact List.nodup_nil
      · rw [hne i hi]
        exact h.objcs_nodup i
    · by_cases hi : i = s.nextOh
      · rw [hi, hself]
        exact List.nodup_nil
      · rw [hne i hi]
        exact hw.nodup i
    · by_cases hi : i = s.nextOh
      · rw [hi, hself]
        exact fun sp hsp => absurd hsp List.not_mem_nil
      · rw [hne i hi]
        exact hw.waits i

/-- `hash->deref` changes the counter, and the hash if it comes to 0. -/
theorem hashDeref_eq (s : Hsh) (oh : ℕ) :
    hashDeref s oh = (decide ((s.oh oh).refcnt - 1 ≠ 0), { s.setOh oh fun x => { x with refcnt := x.refcnt - 1 } with
      hash := if (s.oh oh).refcnt - 1 = 0 then s.hash.erase oh else s.hash }) := by
  rw [hashDeref]
  dsimp only
  rw [setOh_oh, if_pos rfl]
  split_ifs with h0
  · have h0' : (s.oh oh).refcnt - 1 = 0 := h0
    simp [h0', Hsh.setOh]
  · have h0' : (s.oh oh).refcnt - 1 ≠ 0 := h0
    simp [h0', Hsh.setOh]

/-- **`hash->deref`** gives up the reference in a local variable, and keeps an objhead with objcores. -/
theorem hashDeref_spec (h : Refs s ptr (one oh)) (hw : Waits s) :
    Refs (hashDeref s oh).2 ptr 0 ∧ Waits (hashDeref s oh).2 ∧ (hashDeref s oh).2.sess = s.sess ∧
      ((hashDeref s oh).2.oh oh).objcs = (s.oh oh).objcs ∧ ((hashDeref s oh).1 = false → (s.oh oh).objcs = []) := by
  rw [hashDeref_eq]
  dsimp only
  set s1 : Hsh := { s.setOh oh fun x => { x with refcnt := x.refcnt - 1 } with
      hash := if (s.oh oh).refcnt - 1 = 0 then s.hash.erase oh else s.hash } with hs1
  have hoh : ∀ i, s1.oh i = if i = oh then { s.oh i with refcnt := (s.oh i).refcnt - 1 } else s.oh i :=
    setOh_oh s oh fun x => { x with refcnt := x.refcnt - 1 }
  have hobjcs : ∀ i, (s1.oh i).objcs = (s.oh i).objcs := fun i => by rw [hoh]; split_ifs <;> rfl
  have hwl : ∀ i, (s1.oh i).waitinglist = (s.oh i).waitinglist := fun i => by rw [hoh]; split_ifs <;> rfl
  have hle := h.le_refcnt oh
  rw [one_self] at hle
  have ht := h.bump s1 oh (-1) (by rw [hoh, if_pos rfl]; dsimp only; omega)
    (fun i hi => by rw [hoh, if_neg hi])
  rw [update_one] at ht
  have hsub : ∀ i ∈ s1.hash, i ∈ s.hash := fun i hi => by
    rw [hs1] at hi
    dsimp only at hi
    split_ifs at hi
    · exact List.mem_of_mem_erase hi
    · exact hi
  refine ⟨⟨ht, fun i => ?_, ?_, fun i hi => h.hash_lt i (hsub i hi), fun i oc => ?_, fun i => ?_, h.live_lt⟩,
    ⟨fun i => ?_, fun i => ?_⟩, rfl, hobjcs oh, fun h0 => ?_⟩
  · -- only the objhead itself can leave the hash
    rw [hoh, hs1]
    dsimp only
    by_cases hi : i = oh
    · subst hi
      rw [if_pos rfl]
      split_ifs with h0
      · exact iff_of_false h.hash_nodup.not_mem_erase (fun hn => hn h0)
      · exact iff_of_true ((h.linked i).mpr (by omega)) h0
    · rw [if_neg hi, ← h.linked i]
      split_ifs
      · exact List.mem_erase_of_ne hi
      · exact Iff.rfl
  · rw [hs1]
    dsimp only
    split_ifs
    · exact h.hash_nodup.erase oh
    · exact h.hash_nodup
  · rw [hobjcs]
    exact h.objcs_iff i oc
  · rw [hobjcs]
    exact h.objcs_nodup i
  · rw [hwl]
    exact hw.nodup i
  · rw [hwl]
    exact hw.waits i
  · have h0 : (s.oh oh).refcnt - 1 = 0 := by simpa using h0
    exact List.length_eq_zero_iff.mp (by omega)

/-- **An objhead is only deleted when nothing refers to it.** -/
theorem derefObjHead_spec (h : Refs s ptr (one oh)) (hw : Waits s) :
    ∃ s', derefObjHead s oh = some s' ∧ Refs s' ptr 0 ∧ Waits s' ∧ s'.sess = s.sess := by
  obtain ⟨h1, h2, h3, h4, h5⟩ := hashDeref_spec h hw
  rw [derefObjHead]
  rcases hd : hashDeref s oh with ⟨b, s1⟩
  rw [hd] at h1 h2 h3 h4 h5
  cases b with
  | true => exact ⟨s1, rfl, h1, h2, h3⟩
  | false =>
    have hnil : (s1.oh oh).objcs = [] := h4.trans (h5 rfl)
    exact ⟨s1, if_pos hnil, h1, h2, h3⟩

/-- A new objcore takes over the reference in a local variable. -/
theorem newObjcore_spec {b : Bool} (h : Refs s ptr (one oh)) : Refs (newObjcore s oh b) ptr 0 := by
  set s1 := newObjcore s oh b with hs1
  have hoh : ∀ i, s1.oh i = if i = oh then { s.oh i with objcs := (s.oh i).objcs ++ [s.nextOc] } else s.oh i :=
    setOh_oh s oh fun x => { x with objcs := x.objcs ++ [s.nextOc] }
  have hself : s1.oc s.nextOc = ⟨true, b, 1, oh⟩ := Function.update_self _ _ _
  have hne : ∀ c, c ≠ s.nextOc → s1.oc c = s.oc c := fun c hc => Function.update_of_ne hc _ _
  have hdead : ∀ i, s.nextOc ∉ (s.oh i).objcs := fun i hc =>
    lt_irrefl _ (h.live_lt _ ((h.objcs_iff i s.nextOc).mp hc).1)
  have ht := h.bump s1 oh (-1)
    (by rw [hoh, if_pos rfl, List.length_append, List.length_singleton]; push_cast; omega)
    (fun i hi => by rw [hoh, if_neg hi])
  rw [update_one] at ht
  refine ⟨ht, fun i => ?_, h.hash_nodup, h.hash_lt, fun i oc => ?_, fun i => ?_, fun oc hoc => ?_⟩
  · have : (s1.oh i).refcnt = (s.oh i).refcnt := by rw [hoh]; split_ifs <;> rfl
    rw [this]
    exact h.linked i
  · have hmem : oc ∈ (s1.oh i).objcs ↔ oc ∈ (s.oh i).objcs ∨ (i = oh ∧ oc = s.nextOc) := by
      rw [hoh]
      split_ifs with hi
      · simp [hi]
      · simp [hi]
    rw [hmem]
    by_cases hc : oc = s.nextOc
    · rw [hc, hself]
      simp [hdead i, eq_comm]
    · rw [hne oc hc, h.objcs_iff i oc]
      simp [hc]
  · rw [hoh]
    split_ifs
    · exact List.nodup_append.mpr ⟨h.objcs_nodup i, List.nodup_singleton _, fun a ha b hb => by
        rw [List.mem_singleton.mp hb]
        exact fun he => hdead i (he ▸ ha)⟩
    · exact h.objcs_nodup i
  · by_cases hc : oc = s.nextOc
    · rw [hc]
      exact Nat.lt_succ_self _
    · rw [hne oc hc] at hoc
      exact Nat.lt_succ_of_lt (h.live_lt oc hoc)

theorem newObjcore_waits (oh : ℕ) (b : Bool) (hw : Waits s) : Waits (newObjcore s oh b) := by
  have hwl : ∀ i, ((newObjcore s oh b).oh i).waitinglist = (s.oh i).waitinglist := fun i => by
    change ((s.setOh oh fun x => { x with objcs := x.objcs ++ [s.nextOc] }).oh i).waitinglist = _
    rw [setOh_oh]
    split_ifs <;> rfl
  exact ⟨fun i => by rw [hwl]; exact hw.nodup i, fun i => by rw [hwl]; exact hw.waits i⟩

/-- **An objcore that goes** leaves its reference in a local variable. -/
theorem Refs.removeOc (h : Refs s ptr 0) (hl : (s.oc oc).live = true) (ho : (s.oc oc).objhead = oh) :
    Refs ((s.setOh oh fun x => { x with objcs := x.objcs.erase oc }).setOc oc fun y => { y with live := false }) ptr
      (one oh) := by
  set s1 := (s.setOh oh fun x => { x with objcs := x.objcs.erase oc }).setOc oc fun y => { y with live := false } with hs1
  have hoh : ∀ i, s1.oh i = if i = oh then { s.oh i with objcs := (s.oh i).objcs.erase oc } else s.oh i :=
    setOh_oh s oh fun x => { x with objcs := x.objcs.erase oc }
  have hoc : ∀ c, s1.oc c = if c = oc then { s.oc c with live := false } else s.oc c :=
    setOc_oc s oc fun y => { y with live := false }
  have hmem : oc ∈ (s.oh oh).objcs := (h.objcs_iff oh oc).mpr ⟨hl, ho⟩
  have hlen := List.length_erase_of_mem hmem
  have hpos : 0 < (s.oh oh).objcs.length := List.length_pos_of_mem hmem
  have ht := h.bump s1 oh 1 (by rw [hoh, if_pos rfl]; dsimp only; omega)
    (fun i hi => by rw [hoh, if_neg hi])
  refine ⟨ht, fun i => ?_, h.hash_nodup, h.hash_lt, fun i c => ?_, fun i => ?_, fun c hc => h.live_lt c ?_⟩
  · have : (s1.oh i).refcnt = (s.oh i).refcnt := by rw [hoh]; split_ifs <;> rfl
    rw [this]
    exact h.linked i
  · rw [hoh, hoc]
    by_cases hc : c = oc
    · subst hc
      rw [if_pos rfl]
      split_ifs with hi
      · simp [(h.objcs_nodup i).not_mem_erase]
      · have : c ∉ (s.oh i).objcs := fun hm => hi (((h.objcs_iff i c).mp hm).2.symm.trans ho)
        simp [this]
    · rw [if_neg hc, ← h.objcs_iff i c]
      split_ifs
      · exact List.mem_erase_of_ne hc
      · exact Iff.rfl
  · rw [hoh]
    split_ifs
    · exact (h.objcs_nodup i).erase oc
    · exact h.objcs_nodup i
  · rw [hoc] at hc
    split_ifs at hc
    exact hc

end Functions

/-! ## The invariant -/

section Invariant

variable {s s' : Hsh} {oh oc sp n : ℕ} {x : Sess} {a : Ask} {queued : ℕ → Bool} {r : Rush}

structure HInv (s : Hsh) : Prop where
  refs : Refs s (fun sp => (s.sess sp).holds) 0
  waits : Waits s

theorem HInv.hashOk (h : HInv s) : HashOk s where
  count oh _ := by
    obtain ⟨hold, ht⟩ := h.refs.tally
    have hset : {sp | (s.sess sp).holds = some oh} = ((hold oh).toFinset : Set ℕ) := by
      ext sp
      simp only [Set.mem_ofPred_eq, List.coe_toFinset]
      exact (ht.mem_iff oh sp).symm
    have hcard := List.toFinset_card_of_nodup (ht.nodup oh)
    rw [hset, Set.ncard_coe_finset, hcard]
    have := ht.count oh
    simp only [Pi.zero_apply] at this
    omega
  released oh := by
    obtain ⟨hold, ht⟩ := h.refs.tally
    have hc := ht.count oh
    simp only [Pi.zero_apply] at hc
    rw [h.refs.linked oh]
    constructor
    · intro hne
      by_cases hnil : (s.oh oh).objcs = []
      · obtain ⟨sp, hsp⟩ := List.exists_mem_of_length_pos (l := hold oh) (by rw [hnil, List.length_nil] at hc; omega)
        exact Or.inr ⟨sp, (ht.mem_iff oh sp).mp hsp⟩
      · exact Or.inl hnil
    · rintro (hne | ⟨sp, hsp⟩)
      · have := List.length_pos_of_ne_nil hne
        omega
      · have := List.length_pos_of_mem ((ht.mem_iff oh sp).mpr hsp)
        omega

theorem hInv_init : HInv Hsh.init where
  refs := ⟨⟨fun _ => [], ⟨fun _ => rfl, fun _ _ => by simp [Hsh.init, Sess.holds], fun _ => List.nodup_nil⟩⟩,
    fun _ => by simp [Hsh.init], List.nodup_nil, by simp [Hsh.init], by simp [Hsh.init], fun _ => List.nodup_nil,
    by simp [Hsh.init]⟩
  waits := ⟨fun _ => List.nodup_nil, by simp [Hsh.init]⟩

theorem holds_setSess (s : Hsh) (sp : ℕ) (x : Sess) :
    (fun i => ((s.setSess sp x).sess i).holds) = Function.update (fun i => (s.sess i).holds) sp x.holds := by
  ext1 i
  rw [setSess_sess]
  by_cases hi : i = sp
  · rw [if_pos hi, hi, Function.update_self]
  · rw [if_neg hi, Function.update_of_ne hi]

/-- A session that does not wait is on no list. -/
theorem Waits.off (hw : Waits s) (hs : (s.sess sp).waits = false) (i : ℕ) : sp ∉ (s.oh i).waitinglist := fun hsp => by
  rw [(hw.waits i sp hsp).1] at hs
  cases hs

theorem Waits.setSess (hw : Waits s) (hx : ∀ i, sp ∈ (s.oh i).waitinglist → x.waits = true ∧ x.holds = some i) :
    Waits (s.setSess sp x) := by
  refine ⟨hw.nodup, fun i sp' hsp' => ?_⟩
  rw [setSess_sess]
  split_ifs with h
  · exact hx i (h ▸ hsp')
  · exact hw.waits i sp' hsp'

theorem HInv.of_refs (h : Refs s (Function.update (fun i => (s.sess i).holds) sp x.holds) 0)
    (hw : Waits (s.setSess sp x)) : HInv (s.setSess sp x) := by
  refine ⟨?_, hw⟩
  rw [holds_setSess]
  exact h.congr (fun _ => rfl) (fun _ => rfl) (fun _ => ⟨rfl, rfl⟩) rfl rfl rfl

/-- A session changes, and neither what it holds nor whether it waits. -/
theorem HInv.setSess (h : HInv s) (hx : x.holds = (s.sess sp).holds) (hw : x.waits = (s.sess sp).waits) :
    HInv (s.setSess sp x) := by
  refine HInv.of_refs ?_ (h.waits.setSess fun i hi => by rw [hx, hw]; exact h.waits.waits i sp hi)
  rw [hx, Function.update_eq_self_iff.mpr rfl]
  exact h.refs

/-- An objcore changes, and neither its objhead nor whether it is there. -/
theorem HInv.setOc (h : HInv s) {f : Objcore → Objcore} (hl : ∀ y, (f y).live = y.live)
    (ho : ∀ y, (f y).objhead = y.objhead) : HInv (s.setOc oc f) := by
  refine ⟨h.refs.congr (fun _ => rfl) (fun _ => rfl) (fun i => ?_) rfl rfl rfl, h.waits.nodup, h.waits.waits⟩
  rw [setOc_oc]
  split_ifs
  · exact ⟨hl _, ho _⟩
  · exact ⟨rfl, rfl⟩

theorem HInv.frame (h : HInv s) (hf : Frame s s') (hw : Waits s') : HInv s' := by
  refine ⟨?_, hw⟩
  simp only [hf.holds]
  exact h.refs.frame hf

/-! ## Lookup -/

/-- A session that brings an objhead hands its reference over. -/
theorem HInv.grab (h : HInv s) (hh : (s.sess sp).holds = some oh) :
    Refs s (Function.update (fun i => (s.sess i).holds) sp none) (one oh) := by
  obtain ⟨hold, ht⟩ := h.refs.tally
  have ht1 := (ht.detach hh).add oh 1
  refine ⟨⟨Function.update hold oh ((hold oh).erase sp), ?_⟩, h.refs.linked, h.refs.hash_nodup, h.refs.hash_lt, h.refs.objcs_iff, h.refs.objcs_nodup, h.refs.live_lt⟩
  have hcnt : Function.update (fun i => (s.oh i).refcnt - ((s.oh i).objcs.length : ℤ)) oh
      ((s.oh oh).refcnt - (s.oh oh).objcs.length - 1 + 1) = fun i => (s.oh i).refcnt - ((s.oh i).objcs.length : ℤ) := by
    rw [sub_add_cancel]
    exact Function.update_eq_self oh _
  simp only [Function.update_self, Function.update_idem, hcnt] at ht1
  exact ht1

/-- A session goes on the waiting list, or to sleep, with the reference in a local variable. -/
theorem Refs.park (h : Refs s (Function.update (fun i => (s.sess i).holds) sp none) (one oh)) :
    Refs s (Function.update (fun i => (s.sess i).holds) sp (some oh)) 0 := by
  obtain ⟨hold, ht⟩ := h.tally
  have ht1 := (ht.attach (m := sp) oh (Function.update_self _ _ _)).add oh (-1)
  refine ⟨⟨Function.update hold oh (hold oh ++ [sp]), ?_⟩, h.linked, h.hash_nodup, h.hash_lt, h.objcs_iff, h.objcs_nodup, h.live_lt⟩
  have hcnt : Function.update (fun i => (s.oh i).refcnt - ((s.oh i).objcs.length : ℤ)) oh
      ((s.oh oh).refcnt - (s.oh oh).objcs.length + 1 + -1) = fun i => (s.oh i).refcnt - ((s.oh i).objcs.length : ℤ) := by
    rw [add_neg_cancel_right]
    exact Function.update_eq_self oh _
  simp only [Function.update_self, Function.update_idem, hcnt, update_one] at ht1
  exact ht1

/-- A session goes to the end of the waiting list. -/
theorem Waits.enqueue (hw : Waits s) (hwait : (s.sess sp).waits = false) (hx : x.waits = true ∧ x.holds = some oh) :
    Waits ((s.setOh oh fun y => { y with waitinglist := y.waitinglist ++ [sp] }).setSess sp x) := by
  have hoff := hw.off hwait
  have hwl : ∀ i, (((s.setOh oh fun y => { y with waitinglist := y.waitinglist ++ [sp] }).setSess sp x).oh i).waitinglist =
      if i = oh then (s.oh i).waitinglist ++ [sp] else (s.oh i).waitinglist := fun i => by
    rw [setSess_oh, setOh_oh]
    split_ifs <;> rfl
  refine ⟨fun i => ?_, fun i sp' hsp' => ?_⟩
  · rw [hwl]
    split_ifs
    · exact List.nodup_append.mpr ⟨hw.nodup i, List.nodup_singleton sp, fun a ha b hb => by
        rw [List.mem_singleton.mp hb]
        exact fun he => hoff i (he ▸ ha)⟩
    · exact hw.nodup i
  · rw [hwl] at hsp'
    rw [setSess_sess]
    split_ifs with hi
    · -- nobody else's list has the session
      subst hi
      split_ifs at hsp' with hoh
      · rw [hoh]
        exact hx
      · exact absurd hsp' (hoff i)
    · refine hw.waits i sp' ?_
      split_ifs at hsp'
      · simpa [hi] using hsp'
      · exact hsp'

theorem choose_nil (a : Ask) (busy : ℕ → Bool) : choose a busy [] = (none, none) := rfl

/-- **`HSH_Lookup` with a reference** passes its assertions, and the reference is given up, or goes to the session or to the
new objcore. -/
theorem lookupIn_spec (h : Refs s (Function.update (fun i => (s.sess i).holds) sp none) (one oh)) (hw : Waits s)
    (hwait : (s.sess sp).waits = false) (hoc : (s.sess sp).objcore = none) (a : Ask) :
    ∃ s', lookupIn s sp oh a = some s' ∧ HInv s' := by
  have hle := h.le_refcnt oh
  rw [one_self] at hle
  have hassert : ¬ ((s.oh oh).refcnt ≤ 0 ∨ ((s.oh oh).objcs ≠ [] ∧ (s.oh oh).refcnt ≤ 1)) := by
    rintro (h0 | ⟨hne, h1⟩)
    · omega
    · have := List.length_pos_of_ne_nil hne
      omega
  rw [lookupIn]
  dsimp only
  rw [if_neg hassert]
  rcases hch : choose a (fun oc => (s.oc oc).busy) (s.oh oh).objcs with ⟨_ | oc, b⟩
  · cases b with
    | none =>
      -- a miss
      have hwn := newObjcore_waits oh true hw
      exact ⟨_, rfl, HInv.of_refs (newObjcore_spec h) (hwn.setSess fun i hi => absurd hi (hwn.off hwait i))⟩
    | some b =>
      -- a busy objcore
      have hpark := h.park
      dsimp only
      split_ifs with hesi
      · refine ⟨_, rfl, HInv.of_refs ?_ (hw.setSess fun i hi => absurd hi (hw.off hwait i))⟩
        rw [Sess.holds, if_pos hoc]
        exact hpark
      · refine ⟨_, rfl, HInv.of_refs ?_ (hw.enqueue hwait ⟨rfl, by rw [Sess.holds, if_pos hoc]⟩)⟩
        rw [Sess.holds, if_pos hoc]
        refine hpark.congr (fun i => ?_) (fun i => ?_) (fun _ => ⟨rfl, rfl⟩) rfl rfl rfl
        all_goals
          rw [setOh_oh]
          split_ifs <;> rfl
  · -- a hit: the objcore keeps the objhead in the hash
    have hne : (s.oh oh).objcs ≠ [] := fun hnil => by
      rw [hnil, choose_nil] at hch
      cases hch
    dsimp only
    set s1 := s.setOc oc fun y => { y with refcnt := y.refcnt + 1 } with hs1
    have h1 : Refs s1 (Function.update (fun i => (s.sess i).holds) sp none) (one oh) := by
      refine h.congr (fun _ => rfl) (fun _ => rfl) (fun i => ?_) rfl rfl rfl
      rw [hs1, setOc_oc]
      split_ifs <;> exact ⟨rfl, rfl⟩
    have hw1 : Waits s1 := ⟨hw.nodup, hw.waits⟩
    obtain ⟨h2, hw2, hsess, _, hdel⟩ := hashDeref_spec h1 hw1
    rcases hd : hashDeref s1 oh with ⟨stays, s2⟩
    rw [hd] at h2 hw2 hsess hdel
    cases stays with
    | false => exact absurd (hdel rfl) hne
    | true =>
      have hs2 : s2.sess = s.sess := hsess
      have hwait2 : (s2.sess sp).waits = false := by rw [hs2]; exact hwait
      refine ⟨_, rfl, HInv.of_refs ?_ (hw2.setSess fun i hi => absurd hi (hw2.off hwait2 i))⟩
      rw [Sess.holds, ite_self, hs2]
      exact h2

/-- **`HSH_Lookup` never fails**, and keeps the references. -/
theorem hshLookup_spec (h : HInv s) (hwait : (s.sess sp).waits = false) (hoc : (s.sess sp).objcore = none) (a : Ask) :
    ∃ s', hshLookup s sp a = some s' ∧ HInv s' := by
  rw [hshLookup]
  cases hoh : (s.sess sp).objhead with
  | some oh =>
    have hh : (s.sess sp).holds = some oh := by rw [Sess.holds, if_pos hoc, hoh]
    exact lookupIn_spec (h.grab hh) h.waits hwait hoc a
  | none =>
    have hh : (s.sess sp).holds = none := by rw [Sess.holds, if_pos hoc, hoh]
    obtain ⟨h1, hw1, hs1⟩ := hashLookup_spec h.refs h.waits a.digest
    dsimp only
    refine lookupIn_spec ?_ hw1 (by rw [hs1]; exact hwait) (by rw [hs1]; exact hoc) a
    rw [hs1, Function.update_eq_self_iff.mpr hh.symm]
    exact h1

theorem hshInsert_spec (h : HInv s) (digest : ℕ) : HInv (hshInsert s digest) := by
  obtain ⟨h1, hw1, hs1⟩ := hashLookup_spec h.refs h.waits digest
  have h2 := newObjcore_spec (b := false) h1
  rw [← hs1] at h2
  exact ⟨h2, newObjcore_waits _ _ hw1⟩

/-! ## Release -/

/-- **The last reference on an objcore**: it leaves the objhead, sessions are woken, and the objhead is given up. -/
theorem release_spec (queued : ℕ → Bool) (oh oc n : ℕ) (h : HInv s) (hl : (s.oc oc).live = true) (ho : (s.oc oc).objhead = oh)
    (hq : ∀ sp ∈ (s.oh oh).waitinglist.take n, queued sp = true) {s1 : Hsh}
    (hs1 : s1 = (hshRush queued oh n (s.setOh oh fun x => { x with objcs := x.objcs.erase oc })).setOc oc
      fun y => { y with live := false }) :
    ∃ s', (if (s1.oh oh).refcnt > 0 then derefObjHead s1 oh else none) = some s' ∧ HInv s' ∧
      ∀ sp, (s'.sess sp).holds = (s.sess sp).holds := by
  set s0 := s.setOh oh fun x => { x with objcs := x.objcs.erase oc } with hs0
  have hwl : ∀ i, (s0.oh i).waitinglist = (s.oh i).waitinglist := fun i => by
    rw [hs0, setOh_oh]
    split_ifs <;> rfl
  have hw0 : Waits s0 := ⟨fun i => by rw [hwl]; exact h.waits.nodup i, fun i => by rw [hwl]; exact h.waits.waits i⟩
  obtain ⟨hw1, hf, -⟩ := hshRush_spec oh n hw0 (by rw [hwl]; exact hq)
  have hr := h.refs.removeOc hl ho
  -- `hsh_rush` does not look at the objcores
  have hr1 : Refs s1 (fun sp => (s.sess sp).holds) (one oh) := by
    rw [hs1]
    refine hr.congr hf.refcnt hf.objcs (fun i => ?_) hf.hash hf.nextOh hf.nextOc
    rw [setOc_oc, setOc_oc, hf.oc]
    exact ⟨rfl, rfl⟩
  have hpos : (s1.oh oh).refcnt > 0 := by
    have := hr1.le_refcnt oh
    rw [one_self] at this
    omega
  obtain ⟨s', hs', h1, h2, h3⟩ := derefObjHead_spec hr1 (hs1 ▸ ⟨hw1.nodup, hw1.waits⟩)
  have hholds : ∀ sp, (s'.sess sp).holds = (s.sess sp).holds := fun sp => by
    rw [h3, hs1]
    exact hf.holds sp
  refine ⟨s', (if_pos hpos).trans hs', ⟨?_, h2⟩, hholds⟩
  simp only [hholds]
  exact h1

theorem hshDerefObjCore_spec (h : HInv s) (ho : (s.oc oc).objhead = oh)
    (hq : (s.oc oc).busy = true → ∀ sp ∈ (s.oh oh).waitinglist.take r.exponent, r.queued sp = true)
    (hs : hshDerefObjCore r s oh oc = some s') : HInv s' ∧ ∀ sp, (s'.sess sp).holds = (s.sess sp).holds := by
  rw [hshDerefObjCore] at hs
  split_ifs at hs with hl
  have hturns : ∀ s0 : Hsh, (if (s.oc oc).busy = true then hshRush r.queued oh r.exponent s0 else s0) =
      hshRush r.queued oh (if (s.oc oc).busy = true then r.exponent else 0) s0 := fun s0 => by
    split_ifs <;> rfl
  dsimp only at hs
  rw [hturns] at hs
  obtain ⟨s1, hs1, h1, h2⟩ := release_spec r.queued oh oc (if (s.oc oc).busy = true then r.exponent else 0) h hl.1
    ho (fun sp hsp => by
      split_ifs at hsp with hb
      · exact hq hb sp hsp
      · cases hsp) rfl
  rw [hs1, Option.some_inj] at hs
  exact hs ▸ ⟨h1, h2⟩

theorem hshDeref_spec (h : HInv s) (hq : Queues r s r.exponent (some oc)) (hs : hshDeref r s oc = some s') :
    HInv s' ∧ ∀ sp, (s'.sess sp).holds = (s.sess sp).holds := by
  rw [hshDeref] at hs
  dsimp only at hs
  set s0 := s.setOc oc fun y => { y with refcnt := y.refcnt - 1 } with hs0
  have h0 : HInv s0 := h.setOc (fun _ => rfl) fun _ => rfl
  have hoc : s0.oc oc = { s.oc oc with refcnt := (s.oc oc).refcnt - 1 } := by rw [hs0, setOc_oc, if_pos rfl]
  split_ifs at hs with hl hz hpos
  · obtain ⟨s1, hs1, h1, h2⟩ := release_spec r.queued (s.oc oc).objhead oc r.exponent h0
      (by rw [hoc]; exact hl.1) (by rw [hoc]) hq rfl
    rw [if_pos hpos, hs, Option.some_inj] at hs1
    exact hs1 ▸ ⟨h1, h2⟩
  · rw [Option.some_inj] at hs
    obtain ⟨hw, hf, -⟩ := hshRush_spec (s.oc oc).objhead r.exponent h0.waits hq
    exact hs ▸ ⟨h0.frame hf hw, hf.holds⟩

theorem hshUnbusy_spec (h : HInv s) (hq : Queues r s r.exponent (some oc)) (hs : hshUnbusy r s oc = some s') :
    HInv s' ∧ (∀ sp, (s'.sess sp).holds = (s.sess sp).holds) ∧ (s'.oc oc).objhead = (s.oc oc).objhead ∧
      (s'.oh (s.oc oc).objhead).waitinglist = (s.oh (s.oc oc).objhead).waitinglist.drop r.exponent := by
  rw [hshUnbusy] at hs
  split_ifs at hs
  rw [Option.some_inj] at hs
  have h0 : HInv (s.setOc oc fun y => { y with busy := false }) := h.setOc (fun _ => rfl) fun _ => rfl
  obtain ⟨hw, hf, hwl⟩ := hshRush_spec (s.oc oc).objhead r.exponent h0.waits hq
  subst hs
  refine ⟨h0.frame hf hw, hf.holds, ?_, hwl⟩
  rw [hf.oc, setOc_oc, if_pos rfl]

theorem hshDrop_spec (h : HInv s) (hq : Queues r s (r.exponent + r.exponent) (some oc)) (hs : hshDrop r s oc = some s') :
    HInv s' ∧ ∀ sp, (s'.sess sp).holds = (s.sess sp).holds := by
  rw [hshDrop] at hs
  split_ifs at hs
  obtain ⟨s1, hs1, hs⟩ := Option.bind_eq_some_iff.mp hs
  obtain ⟨h1, hh1, ho1, hwl1⟩ := hshUnbusy_spec h
    (fun sp hsp => hq sp (List.take_subset_take_left _ (Nat.le_add_left _ _) hsp)) hs1
  have hq1 : Queues r s1 r.exponent (some oc) := fun sp hsp => by
    rw [ho1, hwl1, List.take_drop] at hsp
    exact hq sp (List.mem_of_mem_drop hsp)
  obtain ⟨h2, hh2⟩ := hshDeref_spec h1 hq1 hs
  exact ⟨h2, fun sp => (hh2 sp).trans (hh1 sp)⟩

end Invariant

/-! ## Runs -/

section Runs

variable {s s' : Hsh}

/-- **One step**, of whoever. -/
theorem hInv_step (a : Act) (h : HInv s) (hok : a.Ok s) (hsafe : a.Safe s) (hs : hshStep s a = some s') : HInv s' := by
  cases a with
  | lookup sp a =>
    obtain ⟨s1, hs1, h1⟩ := hshLookup_spec h hok.1 hok.2 a
    rw [hshStep, hs1, Option.some_inj] at hs
    exact hs ▸ h1
  | insert digest =>
    rw [hshStep, Option.some_inj] at hs
    exact hs ▸ hshInsert_spec h digest
  | newObject sp =>
    obtain ⟨oc, hoc, hs⟩ := Option.bind_eq_some_iff.mp hs
    rw [Option.some_inj] at hs
    subst hs
    refine h.setSess ?_ rfl
    simp [Sess.holds, hoc]
  | unbusy sp r =>
    obtain ⟨oc, hoc, hs⟩ := Option.bind_eq_some_iff.mp hs
    rw [Act.Safe, hoc] at hsafe
    exact (hshUnbusy_spec h hsafe hs).1
  | drop sp r =>
    obtain ⟨oc, hoc, hs⟩ := Option.bind_eq_some_iff.mp hs
    obtain ⟨s1, hs1, hs⟩ := Option.bind_eq_some_iff.mp hs
    rw [Act.Safe, hoc] at hsafe
    cases hs
    exact (hshDrop_spec h hsafe hs1).1.setSess rfl rfl
  | derefObj sp r =>
    obtain ⟨oc, hoc, hs⟩ := Option.bind_eq_some_iff.mp hs
    obtain ⟨s1, hs1, hs⟩ := Option.bind_eq_some_iff.mp hs
    rw [Act.Safe, hoc] at hsafe
    cases hs
    exact (hshDeref_spec h hsafe hs1).1.setSess rfl rfl
  | derefObjCore sp r =>
    obtain ⟨oh, hoh, hs⟩ := Option.bind_eq_some_iff.mp hs
    obtain ⟨oc, hoc, hs⟩ := Option.bind_eq_some_iff.mp hs
    obtain ⟨s1, hs1, hs⟩ := Option.bind_eq_some_iff.mp hs
    rw [Act.Safe, hoc] at hsafe
    have ho : (s.oc oc).objhead = oh := by
      rw [hshDerefObjCore] at hs1
      split_ifs at hs1 with hl
      exact hl.2
    obtain ⟨h1, hh⟩ := hshDerefObjCore_spec h ho (ho ▸ hsafe) hs1
    cases hs
    refine h1.setSess ?_ rfl
    rw [hh sp]
    simp [Sess.holds, hoc]
  | ref oc =>
    rw [hshStep, hshRef] at hs
    split_ifs at hs
    cases hs
    exact h.setOc (fun _ => rfl) fun _ => rfl
  | deref oc r => exact (hshDeref_spec h hsafe hs).1
  | expire oc r => exact (hshDerefObjCore_spec h rfl hsafe hs).1

/-- **The references on the objheads are right** in every run in which `hsh_rush` can queue the sessions it takes. -/
theorem reach_hashOk (h : Reach hshStep (fun s a => a.Ok s ∧ a.Safe s) Hsh.init s) : HashOk s :=
  (h.inv (I := HInv) hInv_init fun _ a _ hi hok hs => hInv_step a hi hok.1 hok.2 hs).hashOk

instance Act.decOk (s : Hsh) : (a : Act) → Decidable (a.Ok s)
  | .lookup sp _ => inferInstanceAs (Decidable ((s.sess sp).waits = false ∧ (s.sess sp).objcore = none))
  | .insert _ | .newObject _ | .unbusy .. | .drop .. | .derefObj .. | .derefObjCore .. | .ref _ | .deref .. | .expire .. =>
    isTrue trivial

instance decQueues (r : Rush) (s : Hsh) (n : ℕ) : (o : Option ℕ) → Decidable (Queues r s n o)
  | some oc => inferInstanceAs (Decidable (∀ sp ∈ (s.oh (s.oc oc).objhead).waitinglist.take n, r.queued sp = true))
  | none => isTrue trivial

instance decBusy (s : Hsh) : (o : Option ℕ) → Decidable (Busy s o)
  | some oc => inferInstanceAs (Decidable ((s.oc oc).busy = true))
  | none => isFalse id

instance Act.decSafe (s : Hsh) : (a : Act) → Decidable (a.Safe s)
  | .unbusy sp r | .derefObj sp r => inferInstanceAs (Decidable (Queues r s r.exponent (s.sess sp).obj))
  | .drop sp r => inferInstanceAs (Decidable (Queues r s (r.exponent + r.exponent) (s.sess sp).obj))
  | .derefObjCore sp r =>
    inferInstanceAs (Decidable (Busy s (s.sess sp).objcore → Queues r s r.exponent (s.sess sp).objcore))
  | .expire oc r => inferInstanceAs (Decidable (Busy s (some oc) → Queues r s r.exponent (some oc)))
  | .deref oc r => inferInstanceAs (Decidable (Queues r s r.exponent (some oc)))
  | .lookup .. | .insert _ | .newObject _ | .ref _ => isTrue trivial

/-- A request that takes any object of the digest. -/
def askFor (digest : ℕ) : Ask := ⟨digest, fun _ => .valid, true, false, false⟩

/-- Two sessions at a time, which are all queued. -/
def rushTwo : Rush := ⟨2, fun _ => true⟩

/-- Three sessions wait for a fourth, an object of a silo expires, and one fetch is given up. -/
def queueRun : List Act :=
  [.lookup 1 (askFor 7), .lookup 2 (askFor 7), .lookup 3 (askFor 7), .lookup 4 (askFor 7), .insert 9, .newObject 1, .ref 0,
    .unbusy 1 rushTwo, .lookup 2 (askFor 7), .lookup 5 (askFor 3), .derefObj 1 rushTwo, .lookup 3 (askFor 7),
    .lookup 4 (askFor 7), .derefObjCore 5 rushTwo, .expire 1 rushTwo, .lookup 6 (askFor 4), .newObject 6,
    .drop 6 rushTwo, .derefObj 2 rushTwo, .deref 0 rushTwo, .derefObj 3 rushTwo]

theorem reach_hashOk_queueRun : ∃ s : Hsh,
    Reach hshStep (fun s a => a.Ok s ∧ a.Safe s) Hsh.init s ∧ HashOk s ∧ s.nextOh = 4 ∧ s.hash = [0] := by
  have hres : (queueRun.foldlM hshStep Hsh.init).map (fun s => (s.nextOh, s.hash)) = some (4, [0]) := by decide +kernel
  obtain ⟨s, hs, hc⟩ := Option.map_eq_some_iff.mp hres
  obtain ⟨h1, h2⟩ := Prod.mk.inj hc
  have hreach : Reach hshStep (fun s a => a.Ok s ∧ a.Safe s) Hsh.init s := Reach.of_run (by decide +kernel) hs
  exact ⟨s, hreach, reach_hashOk hreach, h1, h2⟩

/-- A session waits for another, whose fetch fails when the workers have no room for it. -/
def leakRun : List Act := [.lookup 1 (askFor 7), .lookup 2 (askFor 7), .derefObjCore 1 ⟨2, fun _ => false⟩]

/-- The session is deleted, and its reference keeps the objhead in the hash. -/
theorem rush_leak : ∃ s : Hsh, Reach hshStep (fun s a => a.Ok s) Hsh.init s ∧ ¬ HashOk s ∧
    s.hash = [0] ∧ (s.oh 0).refcnt = 1 ∧ (s.oh 0).objcs = [] ∧ ∀ sp, (s.sess sp).holds = none := by
  obtain ⟨s, hs⟩ : ∃ s, leakRun.foldlM hshStep Hsh.init = some s := ⟨_, rfl⟩
  have hsess : ∀ sp, (s.sess sp).holds = none := by
    cases hs
    rintro (_ | _ | _ | sp) <;> rfl
  have hoh : s.hash = [0] ∧ (s.oh 0).refcnt = 1 ∧ (s.oh 0).objcs = [] := by
    cases hs
    decide +kernel
  refine ⟨s, Reach.of_run (by decide +kernel) hs, fun hok => ?_, hoh.1, hoh.2.1, hoh.2.2, hsess⟩
  rcases (hok.released 0).mp (by rw [hoh.1]; exact List.mem_singleton.mpr rfl) with h | ⟨sp, hsp⟩
  · exact h hoh.2.2
  · rw [hsess sp] at hsp
    cases hsp

end Runs

end Varnish.Hash
