import Mathlib.Algebra.Group.Int.Defs
import Mathlib.Data.List.TakeWhile
import Varnish.Ban.Model

/-!
# Varnish.Ban.Count — what the operations on the ban list do to the reference counts

* `banHunt_eq`, `banInsert_eq`: an insertion in closed form; the hunt only marks bans `BAN_F_GONE`.
* `Bans.Counts`: the counters are right for given pointers of the objcores and given further references.
* `counts_attach`, `counts_detach`, `counts_ref`, `counts_new`, `banRetire_eq`: how the operations keep it.
* `banWalk_eq`, `banCheckObject_spec`: a check in closed form, over the bans it walks past.
-/

namespace Varnish.Ban

open Varnish.Lib

variable {R T : Type} {s s' : Bans R T}

/-! ## Insertion in closed form -/

section Insert

@[simp] theorem upd_head (s : Bans R T) (b : ℕ) (f : BanRec R T → BanRec R T) : (s.upd b f).head = s.head := rfl
@[simp] theorem upd_start (s : Bans R T) (b : ℕ) (f : BanRec R T → BanRec R T) : (s.upd b f).start = s.start := rfl
@[simp] theorem upd_next (s : Bans R T) (b : ℕ) (f : BanRec R T → BanRec R T) : (s.upd b f).next = s.next := rfl

theorem upd_ban (s : Bans R T) (b : ℕ) (f : BanRec R T → BanRec R T) (i : ℕ) :
    (s.upd b f).ban i = if i = b then f (s.ban i) else s.ban i := by
  by_cases h : i = b
  · subst h
    simp [Bans.upd]
  · simp [Bans.upd, h]

/-- The ban marked `BAN_F_GONE` if `g`. -/
def BanRec.mark (x : BanRec R T) (g : Bool) : BanRec R T := { x with gone := x.gone || g }

@[simp] theorem mark_false (x : BanRec R T) : x.mark false = x := by
  cases x
  simp [BanRec.mark]

@[simp] theorem mark_mark (x : BanRec R T) (g g' : Bool) : (x.mark g).mark g' = x.mark (g || g') := by
  simp [BanRec.mark, Bool.or_assoc]

theorem mark_of_gone {x : BanRec R T} (hg : x.gone = true) (g : Bool) : x.mark g = x := by
  ext1 <;> simp [BanRec.mark, hg]

theorem huntDup_eq (s : Bans R T) (b bi : ℕ) :
    huntDup b s bi =
      { s with ban := fun i => (s.ban i).mark (decide (i = bi) && decide ((s.ban b).test = (s.ban i).test)) } := by
  have hban : ∀ i, (huntDup b s bi).ban i =
      (s.ban i).mark (decide (i = bi) && decide ((s.ban b).test = (s.ban i).test)) := fun i => by
    unfold huntDup
    by_cases hi : i = bi
    · subst hi
      split_ifs with hg ht
      · rw [mark_of_gone hg]
      · simp [Bans.setGone, upd_ban, BanRec.mark, ht]
      · simp [ht]
    · split_ifs <;> simp [Bans.setGone, upd_ban, hi]
  refine Bans.ext (funext hban) ?_ ?_ ?_
  all_goals
    unfold huntDup
    split_ifs <;> rfl

/-- The hunt over a list of bans. -/
theorem foldl_huntDup (s : Bans R T) (b : ℕ) (l : List ℕ) :
    l.foldl (huntDup b) s =
      { s with ban := fun i => (s.ban i).mark (decide (i ∈ l) && decide ((s.ban b).test = (s.ban i).test)) } := by
  induction l generalizing s with
  | nil => simp
  | cons bi l ih =>
    rw [List.foldl_cons, ih, huntDup_eq]
    simp only [Bans.mk.injEq, and_self, and_true]
    funext i
    rw [mark_mark]
    congr 1
    by_cases ht : (s.ban b).test = (s.ban i).test
    · simp [BanRec.mark, ht]
    · simp [BanRec.mark, ht]

/-- The hunt marks the bans after `b` that have its text. -/
theorem banHunt_eq (s : Bans R T) (b : ℕ) :
    banHunt s b =
      { s with
        ban := fun i => (s.ban i).mark (decide (i ∈ after b s.head) && decide ((s.ban b).test = (s.ban i).test)) } :=
  foldl_huntDup s b _

/-- A new ban. -/
def newBan (c : BanSpec R) (now : T) : BanRec R T :=
  { c with gone := false, pending := false, refcount := 0, objcore := [], t0 := now }

/-- **Insertion**: the new ban is the first one, and with `dups` the others with its text are marked. -/
theorem banInsert_eq (hlt : ∀ b ∈ s.head, b < s.next) (c : BanSpec R) (now : T) (dups : Bool) :
    banInsert s c now dups =
      { ban := fun i =>
          if i = s.next then newBan c now
          else (s.ban i).mark (dups && decide (i ∈ s.head) && decide (c.test = (s.ban i).test))
        head := s.next :: s.head
        start := s.next
        next := s.next + 1 } := by
  have hne : ∀ i ∈ s.head, i ≠ s.next := fun i hi => Nat.ne_of_lt (hlt i hi)
  unfold banInsert banInsertHead
  dsimp only
  cases hl : (s.next :: s.head).getLast? with
  | none => simp at hl
  | some be =>
    dsimp only
    cases hd : (dups && be != s.next) with
    | true =>
      have hbe : be ≠ s.next := by simpa using (Bool.and_eq_true_iff.mp hd).2
      obtain rfl : dups = true := (Bool.and_eq_true_iff.mp hd).1
      simp only [if_true, banHunt_eq, Bans.ref]
      refine Bans.ext (funext fun i => ?_) rfl rfl rfl
      simp only [upd_ban, upd_head, after]
      by_cases hi : i = s.next
      · subst hi
        have hni : s.next ∉ s.head := fun h => hne _ h rfl
        simp [hbe.symm, hni, newBan]
      · by_cases hib : i = be
        · subst hib
          simp [hi, hbe.symm, BanRec.mark]
        · simp [hi, hib, hbe.symm, BanRec.mark]
    | false =>
      refine Bans.ext (funext fun i => ?_) rfl rfl rfl
      by_cases hi : i = s.next
      · subst hi
        simp [newBan]
      · -- without a hunt, or if there is no other ban, nothing is marked
        have : (dups && decide (i ∈ s.head)) = false := by
          cases dups with
          | false => rfl
          | true =>
            obtain rfl : be = s.next := by simpa using hd
            have hnil : s.head = [] := by
              by_contra hh
              rw [List.getLast?_cons_of_ne_nil hh] at hl
              exact hne _ (List.mem_of_getLast? hl) rfl
            simp [hnil]
        simp [hi, this]

end Insert

/-! ## Writes to the counters -/

section Same

/-- The bans are the same but for the counters and the lists. -/
structure Bans.Same (s s' : Bans R T) : Prop where
  head : s'.head = s.head
  start : s'.start = s.start
  next : s'.next = s.next
  spec : ∀ i, (s'.ban i).toBanSpec = (s.ban i).toBanSpec
  gone : ∀ i, (s'.ban i).gone = (s.ban i).gone

theorem same_refl (s : Bans R T) : s.Same s := ⟨rfl, rfl, rfl, fun _ => rfl, fun _ => rfl⟩

theorem Bans.Same.trans {s'' : Bans R T} (h : s.Same s') (h' : s'.Same s'') : s.Same s'' :=
  ⟨h'.head.trans h.head, h'.start.trans h.start, h'.next.trans h.next, fun i => (h'.spec i).trans (h.spec i),
    fun i => (h'.gone i).trans (h.gone i)⟩

theorem same_upd (s : Bans R T) (b : ℕ) {f : BanRec R T → BanRec R T}
    (hs : ∀ x, (f x).toBanSpec = x.toBanSpec) (hg : ∀ x, (f x).gone = x.gone) : s.Same (s.upd b f) := by
  refine ⟨rfl, rfl, rfl, fun i => ?_, fun i => ?_⟩
  all_goals
    rw [upd_ban]
    split_ifs
  · exact hs _
  · rfl
  · exact hg _
  · rfl

theorem same_attach (s : Bans R T) (b oc : ℕ) : s.Same (s.attach b oc) := same_upd s b (fun _ => rfl) fun _ => rfl

theorem same_detach {b oc : ℕ} (h : s.detach b oc = some s') : s.Same s' := by
  unfold Bans.detach at h
  split_ifs at h
  cases h
  exact same_upd s b (fun _ => rfl) fun _ => rfl

end Same

/-! ## The order of the list -/

section Wf

/-- The bans are listed in the order of their numbers, newest first, and `ban_start` is the first one. -/
structure Bans.Wf (s : Bans R T) : Prop where
  sorted : s.head.Pairwise (· > ·)
  lt_next : ∀ b ∈ s.head, b < s.next
  first : s.head.head? = some s.start

theorem wf_init (ban : ℕ → BanRec R T) : (⟨ban, [0], 0, 1⟩ : Bans R T).Wf :=
  ⟨List.pairwise_singleton _ _, fun b hb => by rw [List.mem_singleton.mp hb]; exact Nat.zero_lt_one, rfl⟩

theorem Bans.Wf.same (h : s.Wf) (hs : s.Same s') : s'.Wf := by
  refine ⟨?_, ?_, ?_⟩
  · rw [hs.head]
    exact h.sorted
  · rw [hs.head, hs.next]
    exact h.lt_next
  · rw [hs.head, hs.start]
    exact h.first

theorem Bans.Wf.start_mem (h : s.Wf) : s.start ∈ s.head := List.mem_of_mem_head? h.first

/-- The other bans are older than `ban_start`. -/
theorem Bans.Wf.lt_start (h : s.Wf) {b : ℕ} (hb : b ∈ s.head) (hne : s.start ≠ b) : b < s.start := by
  have hs := h.sorted
  have hf := h.first
  cases hh : s.head with
  | nil => simp [hh] at hb
  | cons a l =>
    rw [hh] at hb hs hf
    rw [List.head?_cons, Option.some_inj] at hf
    subst hf
    rcases List.mem_cons.mp hb with rfl | hb
    · exact absurd rfl hne
    · exact (List.pairwise_cons.mp hs).1 b hb

/-- A new ban goes to the front. -/
theorem Bans.Wf.insert (h : s.Wf) (hh : s'.head = s.next :: s.head) (hst : s'.start = s.next)
    (hn : s'.next = s.next + 1) : s'.Wf := by
  refine ⟨?_, fun b hb => ?_, ?_⟩
  · rw [hh]
    exact List.pairwise_cons.mpr ⟨h.lt_next, h.sorted⟩
  · rw [hh] at hb
    rw [hn]
    rcases List.mem_cons.mp hb with rfl | hb
    · exact Nat.lt_succ_self _
    · exact Nat.lt_succ_of_lt (h.lt_next b hb)
  · rw [hh, hst, List.head?_cons]

/-- The last ban goes, which is not the first. -/
theorem Bans.Wf.retire (h : s.Wf) {b : ℕ} (hlast : s.head.getLast? = some b) (hfirst : s.head.head? ≠ some b) :
    ({ s with head := s.head.dropLast } : Bans R T).Wf := by
  have happ : s.head.dropLast ++ [b] = s.head := List.dropLast_append_getLast? b hlast
  have hsub := List.dropLast_sublist s.head
  refine ⟨h.sorted.sublist hsub, fun i hi => h.lt_next i (hsub.mem hi), ?_⟩
  have hne : s.head.dropLast ≠ [] := fun hnil => by
    rw [hnil, List.nil_append] at happ
    rw [← happ] at hfirst
    exact hfirst rfl
  have h1 := h.first
  rw [← happ, List.head?_append_of_ne_nil _ hne] at h1
  exact h1

/-- A ban that is not the last one stays. -/
theorem mem_dropLast {l : List ℕ} {b i : ℕ} (hlast : l.getLast? = some b) (hi : i ∈ l) (hne : i ≠ b) :
    i ∈ l.dropLast := by
  rw [← List.dropLast_append_getLast? b hlast] at hi
  simpa [hne] using hi

end Wf

/-! ## The counters -/

section Counts

variable {ptr : ℕ → Option ℕ} {ext : ℕ → ℤ} {b oc : ℕ}

/-- The reference counts and the lists of the objcores, where `ptr` are the bans the objcores refer to and `ext` the
number of further references. -/
def Bans.Counts (s : Bans R T) (ptr : ℕ → Option ℕ) (ext : ℕ → ℤ) : Prop :=
  Tally (fun b => (s.ban b).refcount) (fun b => (s.ban b).objcore) ptr ext

/-- Only the counters and the lists matter. -/
theorem Bans.Counts.congr (h : s.Counts ptr ext) (hr : ∀ i, (s'.ban i).refcount = (s.ban i).refcount)
    (ho : ∀ i, (s'.ban i).objcore = (s.ban i).objcore) : s'.Counts ptr ext := by
  unfold Bans.Counts
  simp only [hr, ho]
  exact h

/-- A write to one ban, seen through one of its fields. -/
theorem upd_field {α : Type} (g : BanRec R T → α) (s : Bans R T) (b : ℕ) (f : BanRec R T → BanRec R T) :
    (fun i => g ((s.upd b f).ban i)) = Function.update (fun i => g (s.ban i)) b (g (f (s.ban b))) := by
  funext i
  by_cases h : i = b
  · subst h
    simp [upd_ban]
  · simp [upd_ban, h]

theorem counts_ref (h : s.Counts ptr ext) (b : ℕ) (k : ℤ) :
    (s.ref b k).Counts ptr (Function.update ext b (ext b + k)) := by
  have := Tally.add h b k
  unfold Bans.Counts Bans.ref
  rw [upd_field BanRec.refcount, upd_field BanRec.objcore, Function.update_eq_self]
  exact this

theorem counts_attach (h : s.Counts ptr ext) (b : ℕ) (hoc : ptr oc = none) :
    (s.attach b oc).Counts (Function.update ptr oc (some b)) ext := by
  have := Tally.attach h b hoc
  unfold Bans.Counts Bans.attach
  rw [upd_field BanRec.refcount, upd_field BanRec.objcore]
  exact this

theorem counts_detach (h : s.Counts ptr ext) (hoc : ptr oc = some b) :
    ∃ s', s.detach b oc = some s' ∧ s.Same s' ∧ s'.Counts (Function.update ptr oc none) ext := by
  have hd : s.detach b oc = some _ := if_pos ((h.mem_iff b oc).mpr hoc)
  refine ⟨_, hd, same_detach hd, ?_⟩
  have := Tally.detach h hoc
  unfold Bans.Counts
  rw [upd_field BanRec.refcount, upd_field BanRec.objcore]
  exact this

/-- A new ban at a free place, whatever else is marked. -/
theorem counts_new (h : s.Counts ptr ext) (he : ext b = 0) (hp : ∀ oc, ptr oc ≠ some b)
    (hb : (s'.ban b).refcount = 0 ∧ (s'.ban b).objcore = [])
    (hr : ∀ i, i ≠ b → (s'.ban i).refcount = (s.ban i).refcount ∧ (s'.ban i).objcore = (s.ban i).objcore) :
    s'.Counts ptr ext := by
  have := Tally.clear h he hp
  have hrf : (fun i => (s'.ban i).refcount) = Function.update (fun i => (s.ban i).refcount) b 0 := by
    funext i
    by_cases hi : i = b
    · subst hi
      simp [hb.1]
    · simp [hi, (hr i hi).1]
  have hof : (fun i => (s'.ban i).objcore) = Function.update (fun i => (s.ban i).objcore) b [] := by
    funext i
    by_cases hi : i = b
    · subst hi
      simp [hb.2]
    · simp [hi, (hr i hi).2]
  unfold Bans.Counts
  rw [hrf, hof]
  exact this

/-- What `BAN_CheckLast` does to the list: it loses its last ban, if that is not the first one and not referred to. -/
theorem banRetire_eq (h : s.Counts ptr ext) (he : ∀ b, 0 ≤ ext b) :
    banRetire s = some s ∨
    ∃ b, s.head.getLast? = some b ∧ s.head.head? ≠ some b ∧ (s.ban b).refcount = 0 ∧ ext b = 0 ∧
      (∀ oc, ptr oc ≠ some b) ∧ banRetire s = some { s with head := s.head.dropLast } := by
  unfold banRetire banCheckLast
  cases hl : s.head.getLast? with
  | none => exact Or.inl rfl
  | some b =>
    dsimp only
    split_ifs with hb
    · obtain ⟨ho, he0, hp⟩ := Tally.unused h hb.2 (he b)
      refine Or.inr ⟨b, rfl, hb.1, hb.2, he0, hp, ?_⟩
      exact if_pos ⟨hb.2, ho⟩
    · exact Or.inl rfl

end Counts

/-! ## A check -/

section Check

variable {vre : Vre R} {ptr : ℕ → Option ℕ} {ext : ℕ → ℤ} {o : Object T} {oc ob b0 b : ℕ} {sp : Option Http}
  {hasReq : Bool}

/-- The part with the lock moves the reference of the object to `b0`, or gives it up. -/
theorem checkSection_spec (h : s.Counts ptr ext) (ho : o.ban = some ob) (hoc : ptr oc = some ob) (b0 b : ℕ) :
    ∃ s', checkSection s o oc b0 b = some s' ∧ s.Same s' ∧
      s'.Counts (Function.update ptr oc (if b = ob then some b0 else none)) ext := by
  obtain ⟨s1, hd, hsame, hc⟩ := counts_detach h hoc
  unfold checkSection
  rw [ho]
  simp only [Option.bind_eq_bind, Option.bind_some, hd]
  split_ifs with hb
  · refine ⟨_, rfl, hsame.trans (same_attach _ b0 oc), ?_⟩
    have := counts_attach hc b0 (Function.update_self oc none ptr)
    rwa [Function.update_idem] at this
  · exact ⟨_, rfl, hsame, hc⟩

/-- The bans that a walk to `ob` looks at. -/
def walked (s : Bans R T) (ob : ℕ) : List ℕ := (s.head.takeWhile (· ≠ ob)).filter fun b => !(s.ban b).gone

/-- Where a walk ends before it comes to the ban of the object. -/
def stop (vre : Vre R) (ban : ℕ → BanSpec R) (o : Http) (sp : Option Http) (hasReq : Bool) (b : ℕ) : Bool :=
  (!hasReq && (ban b).req) || holds vre o sp (ban b).tests

/-- **The walk** ends at the first ban that stops it, and it does not evaluate a test that it cannot. -/
theorem banWalk_eq {ban : ℕ → BanRec R T} {o : Http} {l : List ℕ} (hob : ob ∈ l)
    (hok : ∀ b ∈ l, (ban b).toBanSpec.Ok) (hsp : hasReq = true → sp.isSome) :
    banWalk vre ban o sp hasReq ob l =
      match ((l.takeWhile (· ≠ ob)).filter fun b => !(ban b).gone).find?
        (stop vre (fun b => (ban b).toBanSpec) o sp hasReq) with
      | none => some (some ob)
      | some b => some (if !hasReq && (ban b).req then none else some b) := by
  induction l with
  | nil => cases hob
  | cons b l ih =>
    rw [banWalk]
    by_cases hb : b = ob
    · subst hb
      simp
    · have hl : ob ∈ l := by
        rcases List.mem_cons.mp hob with h | h
        · exact absurd h.symm hb
        · exact h
      have ih := ih hl fun i hi => hok i (List.mem_cons_of_mem b hi)
      rw [if_neg hb, List.takeWhile_cons_of_pos (by simpa using hb)]
      cases hg : (ban b).gone with
      | true =>
        rw [List.filter_cons_of_neg (by simp [hg])]
        simpa using ih
      | false =>
        rw [List.filter_cons_of_pos (by simp [hg]), List.find?_cons]
        cases hr : (!hasReq && (ban b).req) with
        | true => simp [stop, hr]
        | false =>
          have hev : sp.isSome ∨ ((ban b).tests.any fun bt => bt.func.isReq) = false := by
            cases hasReq with
            | true => exact Or.inl (hsp rfl)
            | false =>
              rw [← hok b List.mem_cons_self]
              exact Or.inr (by simpa using hr)
          rw [banMatch_eq hev]
          cases hm : holds vre o sp (ban b).tests with
          | true => simp [stop, hr, hm]
          | false =>
            simp only [stop, hr, hm, Bool.or_false]
            simpa [hm] using ih

theorem walked_ne {b : ℕ} (hb : b ∈ walked s ob) : b ≠ ob := by
  simpa using List.mem_takeWhile_imp (List.mem_filter.mp hb).1

theorem walked_mem {b : ℕ} (hb : b ∈ walked s ob) : b ∈ s.head :=
  (List.takeWhile_sublist _).mem (List.mem_filter.mp hb).1

/-- Nothing is newer than `ban_start`. -/
theorem Bans.Wf.walked_start (h : s.Wf) : walked s s.start = [] := by
  cases hh : s.head with
  | nil => simp [walked, hh]
  | cons a l =>
    have h1 := h.first
    rw [hh, List.head?_cons, Option.some_inj] at h1
    simp [walked, hh, h1]

/-- The walk of `ban_check_object` on an object whose ban is on the list. -/
theorem checkWalk_eq (ho : o.ban = some ob) (hob : ob ∈ s.head) (hfirst : s.head.head? = some s.start)
    (hok : ∀ b ∈ s.head, (s.ban b).toBanSpec.Ok) (hsp : hasReq = true → sp.isSome) :
    checkWalk vre s o sp hasReq =
      some (match (walked s ob).find? (stop vre (fun b => (s.ban b).toBanSpec) o.http sp hasReq) with
        | none => if s.start = ob then .clean else .section s.start ob
        | some b => if !hasReq && (s.ban b).req then .clean else .section s.start b) := by
  obtain ⟨l, hl⟩ : ∃ l, s.head = s.start :: l := by
    cases hh : s.head with
    | nil => simp [hh] at hfirst
    | cons a l =>
      rw [hh, List.head?_cons, Option.some_inj] at hfirst
      exact ⟨l, by rw [hfirst]⟩
  have hdrop : s.head.dropWhile (· ≠ s.start) = s.head := by simp [hl]
  unfold checkWalk
  rw [ho]
  simp only [Option.bind_eq_bind, Option.bind_some, hdrop]
  by_cases hst : s.start = ob
  · -- nothing is newer than the ban of the object
    have hw : walked s ob = [] := by simp [walked, hl, hst]
    simp [hw, hst]
  · rw [if_neg hst, banWalk_eq hob hok hsp]
    have hw : ((s.head.takeWhile (· ≠ ob)).filter fun b => !(s.ban b).gone) = walked s ob := rfl
    rw [hw]
    cases hf : (walked s ob).find? (stop vre (fun b => (s.ban b).toBanSpec) o.http sp hasReq) with
    | none => simp [hst]
    | some b => cases hr : (!hasReq && (s.ban b).req) <;> simp [hr]

/-- `ban_check_object` on an object whose ban is on the list, with the three ways it can end. -/
theorem banCheckObject_spec (vre : Vre R) (h : s.Counts ptr ext) (ho : o.ban = some ob) (hoc : ptr oc = some ob)
    (hob : ob ∈ s.head) (hfirst : s.head.head? = some s.start) (hok : ∀ b ∈ s.head, (s.ban b).toBanSpec.Ok)
    (hsp : hasReq = true → sp.isSome) :
    match (walked s ob).find? (stop vre (fun b => (s.ban b).toBanSpec) o.http sp hasReq) with
    | none => ∃ s' o', banCheckObject vre s o oc sp hasReq = some (s', o', false) ∧ s.Same s' ∧
        s'.Counts (Function.update ptr oc (some s.start)) ext ∧ o'.ban = some s.start ∧ o'.http = o.http
    | some b =>
      if !hasReq && (s.ban b).req then banCheckObject vre s o oc sp hasReq = some (s, o, false)
      else ∃ s' o', banCheckObject vre s o oc sp hasReq = some (s', o', true) ∧ s.Same s' ∧
        s'.Counts (Function.update ptr oc none) ext ∧ o'.ban = none := by
  unfold banCheckObject
  rw [checkWalk_eq ho hob hfirst hok hsp]
  cases hf : (walked s ob).find? (stop vre (fun b => (s.ban b).toBanSpec) o.http sp hasReq) with
  | none =>
    dsimp only
    by_cases hst : s.start = ob
    · rw [if_pos hst]
      refine ⟨s, o, rfl, same_refl s, ?_, by rw [ho, hst], rfl⟩
      rwa [hst, ← hoc, Function.update_eq_self]
    · rw [if_neg hst]
      obtain ⟨s', hs', hsame, hc⟩ := checkSection_spec h ho hoc s.start ob
      rw [if_pos rfl] at hc
      refine ⟨s', { o with ban := some s.start, banT := (s'.ban s.start).t0 }, ?_, hsame, hc, rfl, rfl⟩
      simp [hs', checkWrites, ho]
  | some b =>
    have hne := walked_ne (List.mem_of_find?_eq_some hf)
    dsimp only
    split_ifs with hr
    · rfl
    · obtain ⟨s', hs', hsame, hc⟩ := checkSection_spec h ho hoc s.start b
      rw [if_neg hne] at hc
      refine ⟨s', { o with ttl := 0, cacheable := false, ban := none }, ?_, hsame, hc, rfl⟩
      simp [hs', checkWrites, ho, hne.symm]

/-- A walk that goes on to the lock started at `ban_start`. -/
theorem checkWalk_section (h : checkWalk vre s o sp hasReq = some (.section b0 b)) :
    b0 = s.start ∧ ∃ ob, o.ban = some ob := by
  unfold checkWalk at h
  obtain ⟨ob, hob, h⟩ := Option.bind_eq_some_iff.mp h
  dsimp only at h
  split_ifs at h
  · cases h
  · obtain ⟨x, -, h⟩ := Option.bind_eq_some_iff.mp h
    cases x with
    | none => cases h
    | some x =>
      cases h
      exact ⟨rfl, ob, hob⟩

/-- What any check that returns does to the counters. -/
theorem banCheckObject_counts {o' : Object T} {r : Bool} (h : s.Counts ptr ext) (hoc : ptr oc = o.ban)
    (hres : banCheckObject vre s o oc sp hasReq = some (s', o', r)) :
    s.Same s' ∧ s'.Counts (Function.update ptr oc o'.ban) ext ∧
      (o'.ban = o.ban ∨ o'.ban = some s.start ∨ o'.ban = none) := by
  unfold banCheckObject at hres
  obtain ⟨w, hw, hres⟩ := Option.bind_eq_some_iff.mp hres
  cases w with
  | clean =>
    cases hres
    refine ⟨same_refl s, ?_, Or.inl rfl⟩
    rwa [← hoc, Function.update_eq_self]
  | «section» b0 b =>
    obtain ⟨rfl, ob, hob⟩ := checkWalk_section hw
    obtain ⟨s1, hs1, hsame, hc⟩ := checkSection_spec h hob (hoc.trans hob) s.start b
    simp only [hs1, Option.bind_eq_bind, Option.bind_some, Option.some_inj] at hres
    unfold checkWrites at hres
    rw [hob] at hres
    by_cases hb : b = ob
    · rw [if_pos (by rw [hb])] at hres
      cases hres
      rw [if_pos hb] at hc
      exact ⟨hsame, hc, Or.inr (Or.inl rfl)⟩
    · rw [if_neg (by simpa using Ne.symm hb)] at hres
      cases hres
      rw [if_neg hb] at hc
      exact ⟨hsame, hc, Or.inr (Or.inr rfl)⟩

end Check

end Varnish.Ban
