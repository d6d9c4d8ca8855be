import Mathlib.Data.Fin.VecNotation
import Mathlib.Data.Fintype.EquivFin
import Mathlib.Data.Nat.ModEq
import Varnish.Vbe.Director

/-!
# Varnish.Vbe.RoundRobin — which host a round-robin director tries (`vdi_round_robin_getfd`)

All workers share `next_host`, and take no lock: between two accesses of a request it can change.

* `vdiRoundRobinGetfd`: the function, with what the others do.  `turn`: the host of a round.
* `round_robin_iff`: the director does not give up early, whatever hosts are healthy and fail, just where no host has two turns.
* `turns_alone`: so it is where no other worker is at it.
* `never_gives_up_iff`: all directors.
-/

namespace Varnish.Director

open Varnish.Lib Binary64

/-! ## The function -/

section Functions

variable {C : Type}

/-- `struct vdi_round_robin` -/
structure RoundRobin where
  nhosts : ℕ
  nextHost : Fin nhosts

/-- `(next_host + 1) % nhosts` -/
def nextOf {n : ℕ} (i : Fin n) : Fin n := ⟨(i + 1) % n, Nat.mod_lt _ i.pos⟩

/-- What the other workers make of `next_host` in a round: between the two times that it is read, and after it is written.  What they write
between the second read and the write is lost. -/
structure Others (n : ℕ) where
  between : ℕ → Fin n → Fin n
  after : ℕ → Fin n → Fin n

/-- What a round leaves of `next_host`. -/
def Others.next {n : ℕ} (others : Others n) (k : ℕ) (i : Fin n) : Fin n := others.after k (nextOf (others.between k i))

/-- The loop over the hosts, and where the next request begins; `k` rounds were made before. -/
def roundLoop (req : Request C) {n : ℕ} (others : Others n) : ℕ → ℕ → Fin n → Log C → Option C × Fin n × Log C
  | 0, _, next, log => (none, next, log)
  | m + 1, k, next, log =>
    if ¬ req.healthy next then roundLoop req others m (k + 1) (others.next k next) log
    else
      match req.getFd log next with
      | some c => (some c, others.next k next, log ++ [((next : ℕ), some c)])
      | none => roundLoop req others m (k + 1) (others.next k next) (log ++ [((next : ℕ), none)])

/-- `vdi_round_robin_getfd` -/
def vdiRoundRobinGetfd (vs : RoundRobin) (others : Others vs.nhosts) (req : Request C) : Option C × RoundRobin × Log C :=
  let r := roundLoop req others vs.nhosts 0 vs.nextHost []
  (r.1, ⟨vs.nhosts, r.2.1⟩, r.2.2)

end Functions

/-! ## What it is for -/

section Spec

variable {C : Type} {n : ℕ}

/-- What a round-robin director does with a request. -/
structure RoundRobinOk (vs : RoundRobin) (others : Others vs.nhosts) (req : Request C) : Prop where
  tried : Tried vs.nhosts req (vdiRoundRobinGetfd vs others req).2.2 (vdiRoundRobinGetfd vs others req).1
  exhausted : Exhausted vs.nhosts req (vdiRoundRobinGetfd vs others req).2.2 (vdiRoundRobinGetfd vs others req).1

/-- The host that has its turn, `m` rounds after round `k`. -/
def turn (others : Others n) : ℕ → Fin n → ℕ → Fin n
  | _, i, 0 => i
  | k, i, m + 1 => turn others (k + 1) (others.next k i) m

/-- No host has two turns. -/
def InTurn (others : Others n) (next : Fin n) : Prop := ∀ a b, a < b → b < n → turn others 0 next a ≠ turn others 0 next b

end Spec

/-! ## The rounds -/

section Rounds

variable {C : Type} {req : Request C} {n : ℕ} {others : Others n} {log : Log C}

theorem roundLoop_spec (others : Others n) {m : ℕ} (k : ℕ) (next : Fin n) (ht : Tried n req log none)
    (hnew : ∀ a < m, (turn others k next a : ℕ) ∉ log.map Prod.fst)
    (hturn : ∀ a b, a < b → b < m → turn others k next a ≠ turn others k next b) :
    Tried n req (roundLoop req others m k next log).2.2 (roundLoop req others m k next log).1 ∧
      ((roundLoop req others m k next log).1 = none → (∀ e ∈ log, e ∈ (roundLoop req others m k next log).2.2) ∧
        ∀ a < m, req.healthy (turn others k next a) = true →
          ((turn others k next a : ℕ), none) ∈ (roundLoop req others m k next log).2.2) := by
  induction m generalizing k next log with
  | zero => exact ⟨ht, fun _ => ⟨fun e he => he, fun a ha => absurd ha (Nat.not_lt_zero a)⟩⟩
  | succ m ih =>
    have hlater : ∀ a < m, (turn others (k + 1) (others.next k next) a : ℕ) ∉ log.map Prod.fst := fun a ha => hnew (a + 1) (by omega)
    have hturn' : ∀ a b, a < b → b < m →
        turn others (k + 1) (others.next k next) a ≠ turn others (k + 1) (others.next k next) b :=
      fun a b hab hb => hturn (a + 1) (b + 1) (by omega) (by omega)
    rw [roundLoop]
    by_cases hh : req.healthy next = true
    · rw [if_neg (not_not.mpr hh)]
      have hfree : free req log next = true := free_iff.mpr ⟨hh, hnew 0 (by omega)⟩
      cases hv : req.getFd log next with
      | some c => exact ⟨ht.snoc next.isLt hfree (some c), fun h => by cases h⟩
      | none =>
        have hnew' : ∀ a < m,
            (turn others (k + 1) (others.next k next) a : ℕ) ∉ (log ++ [((next : ℕ), (none : Option C))]).map Prod.fst := by
          intro a ha
          rw [List.map_append, List.map_singleton, List.mem_append, List.mem_singleton, not_or]
          exact ⟨hlater a ha, fun heq => hturn 0 (a + 1) (by omega) (by omega) (Fin.ext heq.symm)⟩
        obtain ⟨h1, h2⟩ := ih (k + 1) (others.next k next) (ht.snoc next.isLt hfree none) hnew' hturn'
        refine ⟨h1, fun hnone => ?_⟩
        obtain ⟨h3, h4⟩ := h2 hnone
        refine ⟨fun e he => h3 e (List.mem_append_left _ he), fun a ha hah => ?_⟩
        cases a with
        | zero => exact h3 _ (List.mem_append_right _ (List.mem_singleton.mpr rfl))
        | succ a => exact h4 a (by omega) hah
    · rw [if_pos hh]
      obtain ⟨h1, h2⟩ := ih (k + 1) (others.next k next) ht hlater hturn'
      refine ⟨h1, fun hnone => ?_⟩
      obtain ⟨h3, h4⟩ := h2 hnone
      refine ⟨h3, fun a ha hah => ?_⟩
      cases a with
      | zero => exact absurd hah hh
      | succ a => exact h4 a (by omega) hah

/-- Where no host has two turns, each has one. -/
theorem InTurn.exists_turn {next : Fin n} (h : InTurn others next) (i : Fin n) : ∃ m < n, turn others 0 next m = i := by
  have hinj : Function.Injective fun m : Fin n => turn others 0 next m := by
    intro a b hab
    rcases Nat.lt_trichotomy a b with hlt | heq | hlt
    · exact absurd hab (h a b hlt b.isLt)
    · exact Fin.ext heq
    · exact absurd hab.symm (h b a hlt a.isLt)
  obtain ⟨m, hm⟩ := Finite.injective_iff_surjective.mp hinj i
  exact ⟨m, m.isLt, hm⟩

/-- All hosts are healthy, and no connection is made. -/
def allFail (C : Type) : Request C := ⟨fun _ => true, fun _ _ => none, fun _ => 0, fun _ => 0⟩

theorem roundLoop_allFail (others : Others n) (m k : ℕ) (next : Fin n) (log : Log C) :
    (roundLoop (allFail C) others m k next log).2.2 = log ++ (List.range m).map fun a => ((turn others k next a : ℕ), none) := by
  induction m generalizing k next log with
  | zero => exact (List.append_nil log).symm
  | succ m ih =>
    have hstep : roundLoop (allFail C) others (m + 1) k next log =
        roundLoop (allFail C) others m (k + 1) (others.next k next) (log ++ [((next : ℕ), none)]) := rfl
    rw [hstep, ih, List.range_succ_eq_map, List.map_cons, List.map_map, List.append_assoc, List.singleton_append]
    rfl

/-- Only where no host has two turns the director serves every request. -/
theorem round_robin_iff (vs : RoundRobin) (others : Others vs.nhosts) :
    (∀ req : Request C, RoundRobinOk vs others req) ↔ InTurn others vs.nextHost := by
  constructor
  · intro h a b hab hb heq
    have hlog := @roundLoop_allFail C vs.nhosts others vs.nhosts 0 vs.nextHost []
    have honce := (h (allFail C)).tried.once
    rw [vdiRoundRobinGetfd, hlog, List.nil_append, List.map_map] at honce
    have hinj := List.inj_on_of_nodup_map honce (List.mem_range.mpr (hab.trans hb)) (List.mem_range.mpr hb) (congrArg Fin.val heq)
    exact absurd hinj hab.ne
  · intro h req
    obtain ⟨h1, h2⟩ := roundLoop_spec others 0 vs.nextHost (tried_nil vs.nhosts req) (fun m _ => List.not_mem_nil) h
    refine ⟨h1, fun hnone i hi hh => ?_⟩
    obtain ⟨-, h4⟩ := h2 hnone
    obtain ⟨m, hm, hmi⟩ := h.exists_turn ⟨i, hi⟩
    have hfail := h4 m hm
    rw [hmi] at hfail
    exact hfail hh

end Rounds

/-! ## No other worker -/

section Alone

variable {n : ℕ}

/-- No other worker uses the director. -/
def alone (n : ℕ) : Others n := ⟨fun _ i => i, fun _ i => i⟩

theorem turn_alone (k m : ℕ) (i : Fin n) : (turn (alone n) k i m : ℕ) = (i + m) % n := by
  induction m generalizing k i with
  | zero => exact (Nat.mod_eq_of_lt i.isLt).symm
  | succ m ih =>
    have hnext : ((alone n).next k i : ℕ) = (i + 1) % n := rfl
    rw [turn, ih, hnext, Nat.mod_add_mod, Nat.add_assoc, Nat.add_comm 1 m]

theorem turns_alone (next : Fin n) : InTurn (alone n) next := by
  intro a b hab hb heq
  have hmod : (next + a) % n = (next + b) % n := by
    rw [← turn_alone 0 a next, ← turn_alone 0 b next, heq]
  have hab' : a % n = b % n := Nat.ModEq.add_left_cancel' (next : ℕ) hmod
  rw [Nat.mod_eq_of_lt (hab.trans hb), Nat.mod_eq_of_lt hb] at hab'
  exact absurd hab' hab.ne

end Alone

/-! ## All directors -/

/-- **Director selection**: a random, hash or client director does what it is for just where rounding leads away from no canonical host, a
round-robin director just where no host has two turns. -/
theorem never_gives_up_iff {C : Type} (vs : Random) (rr : RoundRobin) (others : Others rr.nhosts) :
    (∀ req : Request C, RandomOk vs req ↔ (vs.criteria ≠ .random → Undisturbed vs req)) ∧
      ((∀ req : Request C, RoundRobinOk rr others req) ↔ InTurn others rr.nextHost) :=
  ⟨random_getfd_iff vs, round_robin_iff rr others⟩

/-- Two hosts; the first one has the larger share. -/
def uneven : Random where
  criteria := .hash
  retries := 2
  nhosts := 2
  weight i := ((if i = 0 then 7450919 else 2549082 : ℕ) : ℚ)
  nhosts_pos := by decide
  retries_pos := by decide
  weight_pos i _ := Nat.cast_pos.mpr (by split <;> decide)
  weight_double i _ := rnd_natCast (by split <;> decide)

/-- A digest whose key is just below the end of the first share. -/
def nearEnd : Request Unit := ⟨fun _ => true, fun _ _ => some (), ![0x7f, 0x56, 0xbe, 0xbe], fun _ => 0⟩

/-- The first host has the key, but the point is rounded to the end of its share. -/
theorem uneven_disturbed : ¬ Undisturbed uneven nearEnd := by
  have hkey : (key nearEnd.hp).toNat = 3200145023 := by decide +kernel
  have hrange : List.range uneven.nhosts = [0, 1] := rfl
  have hfst : [0].foldl uneven.exact 0 = 7450919 := zero_add _
  have hall : [0, 1].foldl uneven.exact 0 = 10000001 := by
    have h : [0, 1].foldl uneven.exact 0 = [0].foldl uneven.exact 0 + (2549082 : ℕ) := rfl
    rw [h, hfst]
    norm_num
  have hwhole : Whole uneven := fun i _ => ⟨_, rfl⟩
  have hmem : ∀ i ∈ [0, 1], i < uneven.nhosts := by decide
  have hfst' : [0].foldl uneven.add 0 = 7450919 := by
    rw [foldl_add_eq hwhole (by decide) (by rw [hfst]; norm_num), hfst]
  have hall' : [0, 1].foldl uneven.add 0 = 10000001 := by
    rw [foldl_add_eq hwhole hmem (by rw [hall]; norm_num), hall]
  have hpoint : rnd ((3200145023 : ℕ) / 2 ^ 32 * 10000001) = 7450919 := by
    rw [rnd_eq (e := 22) (by norm_num) (by norm_num), nearest_eq (n := 7450919 * 2 ^ 30) (by norm_num) (by norm_num)]
    norm_num
  have hcan : Canonical uneven nearEnd 0 := by
    rw [Canonical, hrange, hall, hkey]
    refine ⟨[], [1], rfl, by norm_num, ?_⟩
    have hlt : (3200145023 : ℕ) / 2 ^ 32 * 10000001 < (7450919 : ℚ) := by norm_num
    exact lt_of_lt_of_eq hlt hfst.symm
  have hone : Rounded uneven nearEnd (List.range uneven.nhosts) 1 := by
    rw [Rounded, hrange, hall', hkey, hpoint]
    refine ⟨[0], [], rfl, hfst'.le, ?_⟩
    exact lt_of_lt_of_eq (by norm_num) hall'.symm
  intro h
  obtain hz | ⟨p, -, hp, -⟩ := h 0 hcan rfl
  · exact absurd (hz.unique hmem hone) (by decide)
  · cases hp

/-- Another worker takes a turn after each round. -/
def busy (n : ℕ) : Others n := ⟨fun _ i => i, fun _ i => nextOf i⟩

/-- Two hosts, one of them with two turns. -/
theorem never_gives_up_fails : ¬ RandomOk uneven nearEnd ∧ ¬ RoundRobinOk ⟨2, 0⟩ (busy 2) (allFail Unit) := by
  constructor
  · intro h
    exact uneven_disturbed ((random_getfd_iff uneven nearEnd).mp h (by decide))
  · intro h
    have hlog : (vdiRoundRobinGetfd ⟨2, 0⟩ (busy 2) (allFail Unit)).2.2 = [(0, none), (0, none)] := rfl
    have honce := h.tried.once
    rw [hlog] at honce
    exact absurd honce (by decide)

end Varnish.Director
