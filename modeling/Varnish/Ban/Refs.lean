import Mathlib.Data.List.Count
import Varnish.Ban.Count
import Varnish.Lib.Run

/-!
# Varnish.Ban.Refs — who refers to a ban (`cache_ban.c`, `cache_hash.c`, `storage_persistent.c`)

The ban list with the objcores of the cache, where those of a persistent silo refer to their ban themselves until
`SMP_Fixup`, and with the references of the silos on the last ban.

* `RefsOk`: the reference counts are right, nothing that was freed is on the list of a ban, and nothing refers to a ban
  that was freed.
* `reach_refsOk`: it holds in every state of every run of `Safe` actions.
* `dangling_objcore`: a run in which an objcore expires before it is fixed up.
-/

namespace Varnish.Ban

open Varnish.Lib

variable {R T : Type}

/-! ## The system -/

section Sys

/-- `struct objcore` with its object; an objcore that is not `live` was freed. -/
structure Core (T : Type) where
  live : Bool
  persistent : Bool
  refcnt : ℕ
  ban : Option ℕ
  obj : Object T

/-- The ban that an objcore refers to, itself or through its object. -/
def Core.refers (c : Core T) : Option ℕ := if c.live then if c.persistent then c.ban else c.obj.ban else none

/-- The bans, the objcores, and the `tailban` of each silo that has one. -/
structure RefSys (R T : Type) where
  bans : Bans R T
  core : ℕ → Core T
  tails : List ℕ

/-- After `BAN_Init`. -/
def RefSys.init (R : Type) {T : Type} (now : T) : RefSys R T where
  bans := ⟨fun _ => (newBan banNew now).mark true, [0], 0, 1⟩
  core _ := ⟨false, false, 0, none, ⟨⟨none, []⟩, none, now, 0, false⟩⟩
  tails := []

def RefSys.setCore (s : RefSys R T) (oc : ℕ) (bans : Bans R T) (c : Core T) : RefSys R T :=
  { s with bans, core := Function.update s.core oc c }

inductive RefAct (R T : Type) where
  | insert (c : BanSpec R) (now : T) (dups : Bool)
  | prealloc (oc : ℕ)
  | newObj (oc : ℕ) (http : Http) (ttl : ℤ)
  | check (oc : ℕ) (sp : Option Http) (hasReq : Bool)
  | checkLast
  | reload (t0 : T) (test : Str)
  | tailRef
  | deref (b : ℕ)
  | refBan (oc : ℕ) (t0 : T) (tail : ℕ)
  | fixup (oc : ℕ) (o : Object T)
  | hshRef (oc : ℕ)
  | hshDeref (oc : ℕ)
  | hshDerefObjCore (oc : ℕ)

/-- `HSH_Deref`, the part that is about bans: the last reference takes the object off its ban. -/
def hshDeref (s : RefSys R T) (oc : ℕ) : Option (RefSys R T) :=
  let c := s.core oc
  if c.refcnt = 0 then none
  else if c.refcnt = 1 then do
    let (bans, o) ← banDestroyObj s.bans c.obj oc
    some (s.setCore oc bans { c with live := false, refcnt := 0, obj := o })
  else some (s.setCore oc s.bans { c with refcnt := c.refcnt - 1 })

variable [LinearOrder T]

def refStep (vre : Vre R) (s : RefSys R T) : RefAct R T → Option (RefSys R T)
  | .insert c now dups => some { s with bans := banInsert s.bans c now dups }
  | .prealloc oc =>
    let c := s.core oc
    some (s.setCore oc s.bans { c with live := true, persistent := false, refcnt := 1, obj := { c.obj with ban := none } })
  | .newObj oc http ttl => do
    let c := s.core oc
    let (bans, o) ← banNewObj s.bans { c.obj with http, ttl, cacheable := true } oc
    some (s.setCore oc bans { c with obj := o })
  | .check oc sp hasReq => do
    let c := s.core oc
    let (bans, o, _) ← banCheckObject vre s.bans c.obj oc sp hasReq
    some (s.setCore oc bans { c with obj := o })
  | .checkLast => do
    let bans ← banRetire s.bans
    some { s with bans }
  | .reload t0 test => some { s with bans := banReload s.bans t0 test }
  | .tailRef => do
    let (b, bans) ← banTailRef s.bans
    some { s with bans, tails := b :: s.tails }
  | .deref b => some { s with bans := banDeref s.bans b, tails := s.tails.erase b }
  | .refBan oc t0 tail => do
    -- `smp_load_seg`, with the objcore it has just allocated
    let (b, bans) ← banRefBan s.bans oc t0 tail
    some (s.setCore oc bans { s.core oc with live := true, persistent := true, refcnt := 1, ban := some b })
  | .fixup oc o =>
    -- `SMP_Fixup`, with the object that is read from the silo
    let c := s.core oc
    if c.persistent then some (s.setCore oc s.bans { c with persistent := false, obj := { o with ban := c.ban } })
    else none
  | .hshRef oc =>
    let c := s.core oc
    if c.refcnt > 0 then some (s.setCore oc s.bans { c with refcnt := c.refcnt + 1 }) else none
  | .hshDeref oc => hshDeref s oc
  | .hshDerefObjCore oc => some (s.setCore oc s.bans { s.core oc with live := false })

/-- Who may call what: memory that is free is allocated, an object is used only while it is live and fixed up, and a
silo gives up its own reference. -/
def RefAct.Ok (s : RefSys R T) : RefAct R T → Prop
  | .insert .. => True
  | .prealloc oc => (s.core oc).live = false
  | .newObj oc _ _ => (s.core oc).live = true ∧ (s.core oc).persistent = false
  | .check oc _ _ => (s.core oc).live = true ∧ (s.core oc).persistent = false
  | .checkLast => True
  | .reload .. => True
  | .tailRef => True
  | .deref b => b ∈ s.tails
  | .refBan oc _ _ => (s.core oc).live = false
  | .fixup oc _ => (s.core oc).live = true
  | .hshRef oc => (s.core oc).live = true
  | .hshDeref oc => (s.core oc).live = true ∧ (s.core oc).persistent = false
  | .hshDerefObjCore oc => (s.core oc).live = true

/-- `ban_start` is the last ban, there is a first one before it, and `k` is its reference count. -/
def StartLast (s : Bans R T) (k : ℤ) : Prop :=
  s.head.getLast? = some s.start ∧ s.head.head? ≠ some s.start ∧ (s.ban s.start).refcount = k

/-- The condition: no objcore goes through `HSH_DerefObjCore` that is on the list of a ban, and `BAN_CheckLast` does not
run when it would take off `ban_start`. -/
def RefAct.Safe (s : RefSys R T) : RefAct R T → Prop
  | .checkLast => ¬ StartLast s.bans 0
  | .hshDeref oc => (s.core oc).refcnt = 1 → ∀ b ∈ (s.core oc).obj.ban,
      ¬ StartLast s.bans (if b = s.bans.start then 1 else 0)
  | .hshDerefObjCore oc => (s.core oc).refers = none
  | _ => True

instance RefAct.decOk (s : RefSys R T) : (a : RefAct R T) → Decidable (a.Ok s)
  | .insert .. | .checkLast | .reload .. | .tailRef => isTrue trivial
  | .prealloc _ | .refBan .. | .fixup .. | .hshRef _ | .hshDerefObjCore _ => inferInstanceAs (Decidable (_ = _))
  | .newObj .. | .check .. | .hshDeref _ => inferInstanceAs (Decidable (_ ∧ _))
  | .deref b => inferInstanceAs (Decidable (b ∈ s.tails))

instance decStartLast (s : Bans R T) (k : ℤ) : Decidable (StartLast s k) := inferInstanceAs (Decidable (_ ∧ _))

instance RefAct.decSafe (s : RefSys R T) : (a : RefAct R T) → Decidable (a.Safe s)
  | .checkLast => inferInstanceAs (Decidable (¬ StartLast s.bans 0))
  | .hshDeref oc =>
    inferInstanceAs (Decidable ((s.core oc).refcnt = 1 → ∀ b ∈ (s.core oc).obj.ban,
      ¬ StartLast s.bans (if b = s.bans.start then 1 else 0)))
  | .hshDerefObjCore oc => inferInstanceAs (Decidable ((s.core oc).refers = none))
  | .insert .. | .prealloc _ | .newObj .. | .check .. | .reload .. | .tailRef | .deref _ | .refBan .. | .fixup .. |
    .hshRef _ => isTrue trivial

end Sys

/-! ## The invariant -/

section Inv

variable {vre : Vre R} {s s' : RefSys R T} {bs : Bans R T} {c : Core T} {oc : ℕ}

/-- The references on each ban are right, and what is referred to has not been freed. -/
structure RefsOk (s : RefSys R T) : Prop where
  /-- The count is the number of live objcores on the list plus the explicit references. -/
  count : ∀ b ∈ s.bans.head,
    (s.bans.ban b).refcount = ((s.bans.ban b).objcore.filter fun oc => (s.core oc).live).length + s.tails.count b
  /-- The objcores on the list of a ban are live and refer to it. -/
  listed : ∀ b ∈ s.bans.head, ∀ oc ∈ (s.bans.ban b).objcore, (s.core oc).live = true ∧ (s.core oc).refers = some b
  /-- Nothing refers to a ban that was taken off the list. -/
  objcore_kept : ∀ oc b, (s.core oc).refers = some b → b ∈ s.bans.head
  tail_kept : ∀ b ∈ s.tails, b ∈ s.bans.head
  start_kept : s.bans.start ∈ s.bans.head

structure RefInv (s : RefSys R T) : Prop where
  counts : s.bans.Counts (fun oc => (s.core oc).refers) fun b => s.tails.count b
  nodup : s.bans.head.Nodup
  lt_next : ∀ b ∈ s.bans.head, b < s.bans.next
  objcore_kept : ∀ oc b, (s.core oc).refers = some b → b ∈ s.bans.head
  tail_kept : ∀ b ∈ s.tails, b ∈ s.bans.head
  start_kept : s.bans.start ∈ s.bans.head

theorem refers_live {b : ℕ} (h : c.refers = some b) : c.live = true := by
  unfold Core.refers at h
  split_ifs at h with hl
  all_goals exact hl

theorem RefInv.refsOk (h : RefInv s) : RefsOk s where
  count b _ := by
    have hf : (s.bans.ban b).objcore.filter (fun oc => (s.core oc).live) = (s.bans.ban b).objcore := by
      rw [List.filter_eq_self]
      exact fun oc hoc => refers_live ((h.counts.mem_iff b oc).mp hoc)
    rw [hf]
    exact h.counts.count b
  listed b _ oc hoc := by
    have hr := (h.counts.mem_iff b oc).mp hoc
    exact ⟨refers_live hr, hr⟩
  objcore_kept := h.objcore_kept
  tail_kept := h.tail_kept
  start_kept := h.start_kept

theorem refInv_init (R : Type) (now : T) : RefInv (RefSys.init R now) where
  counts := ⟨fun _ => rfl, fun _ _ => by simp [RefSys.init, newBan, BanRec.mark, Core.refers], fun _ => List.nodup_nil⟩
  nodup := List.nodup_singleton 0
  lt_next := by simp [RefSys.init]
  objcore_kept := by simp [RefSys.init, Core.refers]
  tail_kept := by simp [RefSys.init]
  start_kept := by simp [RefSys.init]

/-- One objcore changes, and the bans only in their counters. -/
theorem RefInv.setCore (h : RefInv s) (hs : s.bans.Same bs)
    (hc : bs.Counts (Function.update (fun oc => (s.core oc).refers) oc c.refers) fun b => s.tails.count b)
    (hk : ∀ b, c.refers = some b → b ∈ s.bans.head) : RefInv (s.setCore oc bs c) where
  counts := by
    have hptr : (fun i => ((s.setCore oc bs c).core i).refers) =
        Function.update (fun oc => (s.core oc).refers) oc c.refers := by
      funext i
      by_cases hi : i = oc
      · subst hi
        simp [RefSys.setCore]
      · simp [RefSys.setCore, hi]
    rw [hptr]
    exact hc
  nodup := by rw [RefSys.setCore, hs.head]; exact h.nodup
  lt_next := by rw [RefSys.setCore, hs.head, hs.next]; exact h.lt_next
  objcore_kept i b hb := by
    rw [RefSys.setCore, hs.head]
    by_cases hi : i = oc
    · subst hi
      exact hk b (by simpa [RefSys.setCore] using hb)
    · exact h.objcore_kept i b (by simpa [RefSys.setCore, hi] using hb)
  tail_kept := by rw [RefSys.setCore, hs.head]; exact h.tail_kept
  start_kept := by rw [RefSys.setCore, hs.head, hs.start]; exact h.start_kept

/-- An objcore changes but refers to what it did. -/
theorem RefInv.setCore_of_refers (h : RefInv s) (hc : c.refers = (s.core oc).refers) :
    RefInv (s.setCore oc s.bans c) := by
  refine h.setCore (same_refl _) ?_ ?_
  · rw [hc, Function.update_eq_self]
    exact h.counts
  · rw [hc]
    exact h.objcore_kept oc

/-- A new ban that nothing refers to, anywhere in the list. -/
theorem RefInv.grow (h : RefInv s) (l l' : List ℕ) (hl : l ++ l' = s.bans.head)
    (hhead : bs.head = l ++ s.bans.next :: l') (hnext : bs.next = s.bans.next + 1) (hstart : bs.start ∈ bs.head)
    (hnew : (bs.ban s.bans.next).refcount = 0 ∧ (bs.ban s.bans.next).objcore = [])
    (hold : ∀ i, i ≠ s.bans.next →
      (bs.ban i).refcount = (s.bans.ban i).refcount ∧ (bs.ban i).objcore = (s.bans.ban i).objcore) :
    RefInv { s with bans := bs } := by
  have hout : s.bans.next ∉ s.bans.head := fun hm => Nat.lt_irrefl _ (h.lt_next _ hm)
  have hperm : bs.head.Perm (s.bans.next :: s.bans.head) := by
    rw [hhead, ← hl]
    exact List.perm_middle
  have hsub : ∀ b ∈ s.bans.head, b ∈ bs.head := fun b hb => hperm.mem_iff.mpr (List.mem_cons_of_mem _ hb)
  refine ⟨?_, ?_, ?_, fun oc b hb => hsub b (h.objcore_kept oc b hb), fun b hb => hsub b (h.tail_kept b hb), hstart⟩
  · refine counts_new h.counts ?_ (fun oc hb => hout (h.objcore_kept oc _ hb)) hnew hold
    have : s.bans.next ∉ s.tails := fun hm => hout (h.tail_kept _ hm)
    exact_mod_cast List.count_eq_zero.mpr this
  · exact hperm.nodup_iff.mpr (List.nodup_cons.mpr ⟨hout, h.nodup⟩)
  · intro b hb
    have hb := hperm.mem_iff.mp hb
    change b < bs.next
    rw [hnext]
    rcases List.mem_cons.mp hb with rfl | hb
    · exact Nat.lt_succ_self _
    · exact Nat.lt_succ_of_lt (h.lt_next b hb)

theorem RefInv.insert (h : RefInv s) (c : BanSpec R) (now : T) (dups : Bool) :
    RefInv { s with bans := banInsert s.bans c now dups } := by
  have heq := banInsert_eq h.lt_next c now dups
  refine h.grow [] s.bans.head rfl (by rw [heq]; rfl) (by rw [heq]) (by rw [heq]; simp) ?_ ?_
  · rw [heq]
    simp [newBan]
  · intro i hi
    rw [heq]
    simp [hi, BanRec.mark]

/-- Retirement of the last ban, which is not `ban_start`. -/
theorem RefInv.retire (h : RefInv s) (hn : ¬ StartLast s.bans 0) (hr : banRetire s.bans = some bs) :
    RefInv { s with bans := bs } := by
  rcases banRetire_eq h.counts (fun b => Int.natCast_nonneg _) with h1 | ⟨b, hlast, hfirst, hz, he, hp, h1⟩
  · rw [h1, Option.some_inj] at hr
    subst hr
    exact h
  · rw [h1, Option.some_inj] at hr
    subst hr
    have hkeep : ∀ i ∈ s.bans.head, i ≠ b → i ∈ s.bans.head.dropLast := fun i hi hne => mem_dropLast hlast hi hne
    have hsub := List.dropLast_sublist s.bans.head
    refine ⟨h.counts, h.nodup.sublist hsub, fun i hi => h.lt_next i (hsub.mem hi), ?_, ?_, ?_⟩
    · exact fun oc i hi => hkeep i (h.objcore_kept oc i hi) fun hb => hp oc (hb ▸ hi)
    · intro i hi
      refine hkeep i (h.tail_kept i hi) ?_
      rintro rfl
      have : s.tails.count i = 0 := by exact_mod_cast he
      exact List.count_eq_zero.mp this hi
    · refine hkeep _ h.start_kept ?_
      rintro rfl
      exact hn ⟨hlast, hfirst, hz⟩

/-- A reference of a silo on a ban of the list. -/
theorem RefInv.tailRef (h : RefInv s) {b : ℕ} (hb : b ∈ s.bans.head) :
    RefInv { s with bans := s.bans.ref b 1, tails := b :: s.tails } := by
  refine ⟨?_, h.nodup, h.lt_next, h.objcore_kept, ?_, h.start_kept⟩
  · have := counts_ref h.counts b 1
    have hext : (Function.update (fun b => (s.tails.count b : ℤ)) b (s.tails.count b + 1)) =
        fun i => ((b :: s.tails).count i : ℤ) := by
      funext i
      by_cases hi : i = b
      · subst hi
        simp
      · simp [hi, List.count_cons_of_ne (Ne.symm hi)]
    rwa [hext] at this
  · intro i hi
    rcases List.mem_cons.mp hi with rfl | hi
    · exact hb
    · exact h.tail_kept i hi

theorem RefInv.deref (h : RefInv s) {b : ℕ} (hb : b ∈ s.tails) :
    RefInv { s with bans := banDeref s.bans b, tails := s.tails.erase b } := by
  refine ⟨?_, h.nodup, h.lt_next, h.objcore_kept, fun i hi => h.tail_kept i (List.mem_of_mem_erase hi), h.start_kept⟩
  have := counts_ref h.counts b (-1)
  have hext : (Function.update (fun b => (s.tails.count b : ℤ)) b (s.tails.count b + -1)) =
      fun i => ((s.tails.erase b).count i : ℤ) := by
    funext i
    by_cases hi : i = b
    · subst hi
      have hpos := List.count_pos_iff.mpr hb
      rw [Function.update_self, List.count_erase_self]
      omega
    · rw [Function.update_of_ne hi, List.count_erase_of_ne hi]
  rwa [hext] at this

/-- An objcore that refers to nothing is put on the list of a ban. -/
theorem RefInv.attach (h : RefInv s) {b : ℕ} (hb : b ∈ s.bans.head) (hoc : (s.core oc).refers = none)
    (hc : c.refers = some b) : RefInv (s.setCore oc (s.bans.attach b oc) c) := by
  refine h.setCore (same_attach _ _ _) ?_ fun i hi => ?_
  · rw [hc]
    exact counts_attach h.counts b hoc
  · rw [hc, Option.some_inj] at hi
    exact hi ▸ hb

theorem RefInv.check (h : RefInv s) (hl : (s.core oc).live = true ∧ (s.core oc).persistent = false)
    {sp : Option Http} {hasReq r : Bool} {o : Object T}
    (hres : banCheckObject vre s.bans (s.core oc).obj oc sp hasReq = some (bs, o, r)) :
    RefInv (s.setCore oc bs { s.core oc with obj := o }) := by
  have hoc : (s.core oc).refers = (s.core oc).obj.ban := by simp [Core.refers, hl]
  have hr : ({ s.core oc with obj := o } : Core T).refers = o.ban := by simp [Core.refers, hl]
  obtain ⟨hsame, hc, hban⟩ := banCheckObject_counts h.counts hoc hres
  refine h.setCore hsame (by rwa [hr]) fun b hb => ?_
  rw [hr] at hb
  rcases hban with h1 | h1 | h1
  · exact h.objcore_kept oc b (by rw [hoc, ← h1, hb])
  · rw [h1, Option.some_inj] at hb
    exact hb ▸ h.start_kept
  · rw [h1] at hb
    cases hb

theorem RefInv.hshDeref (h : RefInv s) (hl : (s.core oc).live = true ∧ (s.core oc).persistent = false)
    (hsafe : (RefAct.hshDeref (R := R) (T := T) oc).Safe s) (hres : hshDeref s oc = some s') : RefInv s' := by
  have hoc : (s.core oc).refers = (s.core oc).obj.ban := by simp [Core.refers, hl]
  unfold Ban.hshDeref at hres
  dsimp only at hres
  split_ifs at hres with h0 h1
  · obtain ⟨⟨bs, o⟩, hd, hres⟩ := Option.bind_eq_some_iff.mp hres
    cases hres
    unfold banDestroyObj at hd
    split at hd
    · rename_i hn
      cases hd
      exact h.setCore_of_refers (by rw [hoc, hn]; simp [Core.refers])
    · rename_i b hb
      split_ifs at hd
      obtain ⟨bs1, hbs1, hd⟩ := Option.bind_eq_some_iff.mp hd
      obtain ⟨bs2, hbs2, hd⟩ := Option.bind_eq_some_iff.mp hd
      cases hd
      obtain ⟨_, heq, hsame, hc⟩ := counts_detach h.counts (hoc.trans hb)
      rw [hbs1, Option.some_inj] at heq
      subst heq
      -- off its ban first, and then the last ban may go
      let c : Core T := { s.core oc with live := false, refcnt := 0, obj := { (s.core oc).obj with ban := none } }
      have hcore : RefInv (s.setCore oc bs1 c) := h.setCore hsame (by simpa [Core.refers, c] using hc) (by
        simp [Core.refers, c])
      refine hcore.retire ?_ hbs2
      rintro ⟨hlast, hfirst, hz⟩
      have hlast : bs1.head.getLast? = some bs1.start := hlast
      have hfirst : bs1.head.head? ≠ some bs1.start := hfirst
      have hz : (bs1.ban bs1.start).refcount = 0 := hz
      rw [hsame.head, hsame.start] at hlast hfirst
      refine hsafe h1 b hb ⟨hlast, hfirst, ?_⟩
      unfold Bans.detach at hbs1
      split_ifs at hbs1
      cases hbs1
      simp only [upd_start, upd_ban] at hz
      split_ifs at hz ⊢ with hbs hsb hsb
      · simp at hz
        omega
      · exact absurd hbs.symm hsb
      · exact absurd hsb.symm hbs
      · exact hz
  · cases hres
    exact h.setCore_of_refers rfl

section Reload

variable [LinearOrder T]

theorem RefInv.reload (h : RefInv s) (t0 : T) (test : Str) : RefInv { s with bans := banReload s.bans t0 test } := by
  unfold banReload
  split
  · exact h
  · rename_i gone n _
    rw [banHunt_eq]
    refine h.grow (s.bans.head.take n) (s.bans.head.drop n) (List.take_append_drop _ _) rfl rfl ?_ ?_ ?_
    · have := h.start_kept
      rw [← List.take_append_drop n s.bans.head] at this
      rcases List.mem_append.mp this with h1 | h1
      · exact List.mem_append_left _ h1
      · exact List.mem_append_right _ (List.mem_cons_of_mem _ h1)
    · simp [BanRec.mark]
    · intro i hi
      simp [BanRec.mark, hi]

end Reload

end Inv

/-! ## Whole runs -/

section Runs

variable [LinearOrder T] {vre : Vre R} {s s' : RefSys R T}

theorem refInv_step (a : RefAct R T) (h : RefInv s) (hok : a.Ok s) (hsafe : a.Safe s)
    (hs : refStep vre s a = some s') : RefInv s' := by
  cases a with
  | insert c now dups =>
    cases hs
    exact h.insert c now dups
  | prealloc oc =>
    cases hs
    have hl : (s.core oc).live = false := hok
    exact h.setCore_of_refers (by simp [Core.refers, hl])
  | newObj oc http ttl =>
    obtain ⟨⟨bs, o⟩, hn, hs⟩ := Option.bind_eq_some_iff.mp hs
    cases hs
    unfold banNewObj at hn
    split_ifs at hn with ho
    cases hn
    have hl : (s.core oc).live = true ∧ (s.core oc).persistent = false := hok
    exact h.attach h.start_kept (by simpa [Core.refers, hl] using ho) (by simp [Core.refers, hl])
  | check oc sp hasReq =>
    obtain ⟨⟨bs, o, r⟩, hc, hs⟩ := Option.bind_eq_some_iff.mp hs
    cases hs
    exact h.check hok hc
  | checkLast =>
    obtain ⟨bs, hr, hs⟩ := Option.bind_eq_some_iff.mp hs
    cases hs
    exact h.retire hsafe hr
  | reload t0 test =>
    cases hs
    exact h.reload t0 test
  | tailRef =>
    obtain ⟨⟨b, bs⟩, ht, hs⟩ := Option.bind_eq_some_iff.mp hs
    cases hs
    obtain ⟨_, hlast, ht⟩ := Option.map_eq_some_iff.mp ht
    cases ht
    exact h.tailRef (List.mem_of_getLast? hlast)
  | deref b =>
    cases hs
    exact h.deref hok
  | refBan oc t0 tail =>
    obtain ⟨⟨b, bs⟩, hr, hs⟩ := Option.bind_eq_some_iff.mp hs
    cases hs
    obtain ⟨_, hfind, hr⟩ := Option.bind_eq_some_iff.mp hr
    split_ifs at hr
    cases hr
    have hl : (s.core oc).live = false := hok
    exact h.attach (List.mem_of_find?_eq_some hfind) (by simp [Core.refers, hl]) (by simp [Core.refers])
  | fixup oc o =>
    rw [refStep] at hs
    split_ifs at hs with hp
    cases hs
    have hl : (s.core oc).live = true := hok
    exact h.setCore_of_refers (by simp [Core.refers, hl, hp])
  | hshRef oc =>
    rw [refStep] at hs
    split_ifs at hs
    cases hs
    exact h.setCore_of_refers rfl
  | hshDeref oc => exact h.hshDeref hok hsafe hs
  | hshDerefObjCore oc =>
    cases hs
    have hr : (s.core oc).refers = none := hsafe
    exact h.setCore_of_refers (by rw [hr]; simp [Core.refers])

/-- **The references on the bans are right** in every state of every run in which no objcore that is on the list of a
ban goes through `HSH_DerefObjCore` and `ban_start` is not taken off the list. -/
theorem reach_refsOk (vre : Vre R) (now : T) {s : RefSys R T}
    (h : Reach (refStep vre) (fun s a => a.Ok s ∧ a.Safe s) (RefSys.init R now) s) : RefsOk s :=
  (h.inv (I := RefInv) (refInv_init R now) fun _ a _ hi hok hs => refInv_step a hi hok.1 hok.2 hs).refsOk

/-- An object on disk. -/
def diskObject : Object ℕ := ⟨⟨none, [some "a: b".toList]⟩, none, 1, 10, true⟩

/-- A silo brings a ban and an objcore; the objcore is fixed up, checked against a new ban and removed, and the bans that
nothing refers to any more are retired. -/
def siloRun : List (RefAct Str ℕ) :=
  [.reload 1 "obj.http.a == c".toList, .tailRef, .refBan 0 1 1, .prealloc 1, .newObj 1 ⟨none, []⟩ 10,
    .insert ⟨[⟨.objHttp "a".toList, false, .dst "c".toList⟩], false, "obj.http.a == c".toList⟩ 5 true, .fixup 0 diskObject,
    .check 0 none false, .hshRef 0, .hshDeref 0, .hshDeref 0, .checkLast, .deref 1, .hshDeref 1, .checkLast]

theorem reach_refsOk_siloRun : ∃ s : RefSys Str ℕ,
    Reach (refStep plainVre) (fun s a => a.Ok s ∧ a.Safe s) (RefSys.init Str 3) s ∧ RefsOk s ∧ s.bans.head = [2] := by
  have hres : (siloRun.foldlM (refStep plainVre) (RefSys.init Str 3)).map (fun s => s.bans.head) = some [2] := by
    decide +kernel
  obtain ⟨s, hs, hc⟩ := Option.map_eq_some_iff.mp hres
  have hreach : Reach (refStep plainVre) (fun s a => a.Ok s ∧ a.Safe s) (RefSys.init Str 3) s :=
    Reach.of_run (by decide +kernel) hs
  exact ⟨s, hreach, reach_refsOk plainVre 3 hreach, hc⟩

/-- An objcore of a silo expires before anybody asked for its object. -/
def expireRun : List (RefAct Str ℕ) :=
  [.reload 1 "obj.http.a == c".toList, .tailRef, .refBan 0 1 1, .hshDerefObjCore 0]

/-- The list of the ban then has an objcore that was freed. -/
theorem dangling_objcore : ∃ s : RefSys Str ℕ,
    Reach (refStep plainVre) (fun s a => a.Ok s) (RefSys.init Str 3) s ∧ ¬ RefsOk s := by
  have hres : (expireRun.foldlM (refStep plainVre) (RefSys.init Str 3)).map
      (fun s => (s.bans.head, (s.bans.ban 1).objcore, (s.core 0).live)) = some ([0, 1], [0], false) := by
    decide +kernel
  obtain ⟨s, hs, hc⟩ := Option.map_eq_some_iff.mp hres
  obtain ⟨hhead, hc⟩ := Prod.mk.inj hc
  obtain ⟨hoc, hlive⟩ := Prod.mk.inj hc
  refine ⟨s, Reach.of_run (by decide +kernel) hs, fun hok => ?_⟩
  have := (hok.listed 1 (by simp [hhead]) 0 (by simp [hoc])).1
  rw [hlive] at this
  cases this

end Runs

end Varnish.Ban
