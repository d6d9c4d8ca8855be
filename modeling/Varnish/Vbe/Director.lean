import Mathlib.Data.List.Nodup
import Mathlib.Logic.Function.Basic
import Varnish.Lib.Binary64
import Varnish.Lib.Bytes
import Varnish.Lib.Weights

/-!
# Varnish.Vbe.Director — which host a random, hash or client director tries (`vdi_random_getfd`)

A host is its number in the director.  Weights are doubles, and so are their sums and the point that is looked for: both are rounded.

* `vdiRandomGetfd`: the function, with a log of the hosts that are tried.
* `Tried`, `Exhausted`: what a log says.  `Canonical`: the host whose interval has the key, without rounding.
* `random_getfd_iff`: a director does not give up early, and begins with the canonical host just where rounding moves no interval over the point.
* `random_whole`: weights that are whole numbers, with a sum of up to `2^21`, are not rounded.
-/

namespace Varnish.Director

open Varnish.Lib Binary64

/-! ## The functions -/

section Functions

variable {C : Type}

/-- `enum crit_e` -/
inductive Crit
  | random
  | hash
  | client
deriving DecidableEq

/-- `enum health_c` -/
inductive Health
  | unknown
  | unhealthy
  | healthy
deriving DecidableEq

/-- `struct vdi_random`; `vrt_init` asserts that the weights, which are doubles, are positive.  There is a host, and a retry at least.

Of a double only the mantissa is bounded here: the compiler writes whole numbers of 32 bits, and with these no exponent comes to its end. -/
structure Random where
  criteria : Crit
  retries : ℕ
  nhosts : ℕ
  weight : ℕ → ℚ
  nhosts_pos : 0 < nhosts
  retries_pos : 0 < retries
  weight_pos : ∀ i < nhosts, 0 < weight i
  weight_double : ∀ i < nhosts, rnd (weight i) = weight i

/-- What a request meets: which hosts are healthy, what `VBE_GetFd` returns when some hosts were tried, the bytes of the hash, and the numbers
of `random()`. -/
structure Request (C : Type) where
  healthy : ℕ → Bool
  getFd : List (ℕ × Option C) → ℕ → Option C
  hp : Fin 4 → UInt8
  random : ℕ → Fin (2 ^ 31)

/-- The hosts that were tried, with what came of it. -/
abbrev Log (C : Type) := List (ℕ × Option C)

structure St (C : Type) where
  cache : ℕ → Health
  log : Log C

/-- A sum, and the weight of one more host: the double that is nearest. -/
def Random.add (vs : Random) (s1 : ℚ) (i : ℕ) : ℚ := rnd (s1 + vs.weight i)

/-- `tot_weight` -/
def Random.totWeight (vs : Random) : ℚ := (List.range vs.nhosts).foldl vs.add 0

/-- The number that the hash begins with. -/
def key (hp : Fin 4 → UInt8) : UInt32 := (hp 3).toUInt32 <<< 24 ||| (hp 2).toUInt32 <<< 16 ||| (hp 1).toUInt32 <<< 8 ||| (hp 0).toUInt32

/-- `vdi_random_cache_healthy` -/
def cacheHealthy (req : Request C) (i : ℕ) (st : St C) : Bool × St C :=
  let cache :=
    if st.cache i = .unknown then Function.update st.cache i (if req.healthy i then .healthy else .unhealthy) else st.cache
  (cache i = .healthy, { st with cache })

/-- `VBE_GetFd`; a host that fails is not healthy any more. -/
def tryHost (req : Request C) (i : ℕ) (st : St C) : Option C × St C :=
  let vbe := req.getFd st.log i
  let log := st.log ++ [(i, vbe)]
  match vbe with
  | some c => (some c, { st with log })
  | none => (none, { st with log, cache := Function.update st.cache i .unhealthy })

/-- The loop that looks for the canonical host. -/
def canonicalLoop (vs : Random) (req : Request C) (r : ℚ) : ℚ → List ℕ → St C → Option C × St C
  | _, [], st => (none, st)
  | s1, i :: is, st =>
    if vs.add s1 i ≤ r then canonicalLoop vs req r (vs.add s1 i) is st
    else
      let h := cacheHealthy req i st
      if h.1 then tryHost req i h.2 else (none, h.2)

/-- The sum of the weights of the healthy hosts. -/
def sumHealthy (vs : Random) (req : Request C) : ℚ → List ℕ → St C → ℚ × St C
  | s1, [], st => (s1, st)
  | s1, i :: is, st =>
    let h := cacheHealthy req i st
    sumHealthy vs req (if h.1 then vs.add s1 i else s1) is h.2

/-- The loop that looks for a host among the healthy ones. -/
def pickLoop (vs : Random) (req : Request C) (r : ℚ) : ℚ → List ℕ → St C → Option C × St C
  | _, [], st => (none, st)
  | s1, i :: is, st =>
    let h := cacheHealthy req i st
    if ¬ h.1 then pickLoop vs req r s1 is h.2
    else if vs.add s1 i ≤ r then pickLoop vs req r (vs.add s1 i) is h.2
    else tryHost req i h.2

/-- The number between 0 and 1 that is taken; the quotients are doubles. -/
def point (vs : Random) (req : Request C) (k : ℕ) : ℚ :=
  if vs.criteria ≠ .random then (key req.hp).toNat / 2 ^ 32 else (req.random k : ℕ) / 2 ^ 31

/-- The rounds; `k` of them were made before. -/
def retryLoop (vs : Random) (req : Request C) : ℕ → ℕ → St C → Option C × St C
  | 0, _, st => (none, st)
  | n + 1, k, st =>
    let s := sumHealthy vs req 0 (List.range vs.nhosts) st
    if s.1 = 0 then (none, s.2)
    else
      let p := pickLoop vs req (rnd (point vs req k * s.1)) 0 (List.range vs.nhosts) s.2
      match p.1 with
      | some c => (some c, p.2)
      | none => retryLoop vs req n (k + 1) p.2

/-- `vdi_random_getfd` -/
def vdiRandomGetfd (vs : Random) (req : Request C) : Option C × St C :=
  let st : St C := ⟨fun _ => .unknown, []⟩
  let p := if vs.criteria ≠ .random then canonicalLoop vs req (rnd (point vs req 0 * vs.totWeight)) 0 (List.range vs.nhosts) st else (none, st)
  match p.1 with
  | some c => (some c, p.2)
  | none => retryLoop vs req vs.retries 0 p.2

end Functions

/-! ## What it is for -/

section Spec

variable {C : Type}

/-- Only healthy hosts are tried, each at most once, and when one yields a connection it is the last one, and its connection is returned. -/
structure Tried (n : ℕ) (req : Request C) (log : Log C) (vbe : Option C) : Prop where
  healthy : ∀ e ∈ log, e.1 < n ∧ req.healthy e.1 = true
  once : (log.map Prod.fst).Nodup
  failed : vbe = none → ∀ e ∈ log, e.2 = none
  connected : ∀ c ∈ vbe, ∃ l i, log = l ++ [(i, some c)] ∧ ∀ e ∈ l, e.2 = none

/-- Where there is no connection every healthy host was tried, and failed. -/
def Exhausted (n : ℕ) (req : Request C) (log : Log C) (vbe : Option C) : Prop :=
  vbe = none → ∀ i < n, req.healthy i = true → (i, none) ∈ log

/-- The exact sum. -/
def Random.exact (vs : Random) (s1 : ℚ) (i : ℕ) : ℚ := s1 + vs.weight i

/-- The interval of a host, among all of them, contains the key: nothing is rounded. -/
def Canonical (vs : Random) (req : Request C) (i : ℕ) : Prop :=
  Weights.Contains vs.exact 0 (List.range vs.nhosts) ((key req.hp).toNat / 2 ^ 32 * (List.range vs.nhosts).foldl vs.exact 0) i

/-- What a random, hash or client director does with a request. -/
structure RandomOk (vs : Random) (req : Request C) : Prop where
  tried : Tried vs.nhosts req (vdiRandomGetfd vs req).2.log (vdiRandomGetfd vs req).1
  exhausted : vs.nhosts ≤ vs.retries → Exhausted vs.nhosts req (vdiRandomGetfd vs req).2.log (vdiRandomGetfd vs req).1
  canonical : vs.criteria ≠ .random → (∃ i, Canonical vs req i) ∧
    ∀ i, Canonical vs req i → req.healthy i = true → ∃ v l, (vdiRandomGetfd vs req).2.log = (i, v) :: l

/-- The interval of a host among some, with the sums of doubles, contains the key on the scale of their sum, which is a double too. -/
def Rounded (vs : Random) (req : Request C) (hosts : List ℕ) (i : ℕ) : Prop :=
  Weights.Contains vs.add 0 hosts (rnd ((key req.hp).toNat / 2 ^ 32 * hosts.foldl vs.add 0)) i

/-- The host that the key leads to first: the one that has it among all, or, where that one is sick, the one that has it among the healthy. -/
def First (vs : Random) (req : Request C) (i : ℕ) : Prop :=
  Rounded vs req (List.range vs.nhosts) i ∨
    ∃ p, Rounded vs req (List.range vs.nhosts) p ∧ req.healthy p = false ∧ Rounded vs req ((List.range vs.nhosts).filter req.healthy) i

/-- Rounding leads away from no host that is canonical and healthy. -/
def Undisturbed (vs : Random) (req : Request C) : Prop := ∀ i, Canonical vs req i → req.healthy i = true → First vs req i

end Spec

/-! ## The log -/

section Logs

variable {C : Type} {n i : ℕ} {req : Request C} {log : Log C} {vbe : Option C}

/-- A healthy host that was not tried yet. -/
def free (req : Request C) (log : Log C) (i : ℕ) : Bool := req.healthy i && decide (i ∉ log.map Prod.fst)

theorem free_iff : free req log i = true ↔ req.healthy i = true ∧ i ∉ log.map Prod.fst := by
  rw [free, Bool.and_eq_true, decide_eq_true_eq]

theorem free_snoc (j : ℕ) : free req (log ++ [(i, vbe)]) j = (free req log j && decide (j ≠ i)) := by
  rw [Bool.eq_iff_iff, Bool.and_eq_true, decide_eq_true_eq, free_iff, free_iff, List.map_append, List.map_singleton, List.mem_append,
    List.mem_singleton, not_or, and_assoc]

theorem tried_nil (n : ℕ) (req : Request C) : Tried n req ([] : Log C) none where
  healthy e he := absurd he List.not_mem_nil
  once := List.nodup_nil
  failed _ e he := absurd he List.not_mem_nil
  connected c hc := by cases hc

/-- One more host is tried. -/
theorem Tried.snoc (h : Tried n req log none) (hi : i < n) (hf : free req log i = true) (vbe : Option C) :
    Tried n req (log ++ [(i, vbe)]) vbe where
  healthy := by
    intro e he
    rcases List.mem_append.mp he with he | he
    · exact h.healthy e he
    · rw [List.mem_singleton.mp he]
      exact ⟨hi, (free_iff.mp hf).1⟩
  once := by
    rw [List.map_append, List.map_singleton]
    refine List.nodup_append.mpr ⟨h.once, List.nodup_singleton i, ?_⟩
    rintro a ha b hb rfl
    rw [List.mem_singleton.mp hb] at ha
    exact (free_iff.mp hf).2 ha
  failed := by
    rintro rfl e he
    rcases List.mem_append.mp he with he | he
    · exact h.failed rfl e he
    · rw [List.mem_singleton.mp he]
  connected := by
    intro c hc
    rw [Option.mem_def.mp hc]
    exact ⟨log, i, rfl, h.failed rfl⟩

/-- A host that is not free any more, though it is healthy, has failed. -/
theorem Tried.failed_of_not_free (h : Tried n req log none) (hi : req.healthy i = true) (hf : free req log i = false) : (i, none) ∈ log := by
  have hmem : i ∈ log.map Prod.fst := by
    by_contra hno
    rw [free_iff.mpr ⟨hi, hno⟩] at hf
    cases hf
  obtain ⟨⟨j, v⟩, he, rfl⟩ := List.mem_map.mp hmem
  have hv : v = none := h.failed rfl (j, v) he
  rwa [hv] at he

/-- The hosts that can still be tried. -/
def candidates (n : ℕ) (req : Request C) (log : Log C) : List ℕ := (List.range n).filter (free req log)

theorem candidates_snoc (hi : i ∈ candidates n req log) (vbe : Option C) :
    (candidates n req (log ++ [(i, vbe)])).length + 1 = (candidates n req log).length := by
  have hnd : (candidates n req log).Nodup := List.nodup_range.filter _
  have hcand : candidates n req (log ++ [(i, vbe)]) = (candidates n req log).erase i := by
    rw [hnd.erase_eq_filter, candidates, candidates, List.filter_filter]
    refine List.filter_congr fun j _ => ?_
    rw [free_snoc, Bool.and_comm]
    congr 1
    rw [Bool.eq_iff_iff, bne_iff_ne, decide_eq_true_eq]
  have hpos := List.length_pos_of_mem hi
  rw [hcand, List.length_erase_of_mem hi]
  omega

theorem exhausted_of_candidates (h : Tried n req log none) (hc : candidates n req log = []) (vbe : Option C) : Exhausted n req log vbe := by
  intro _ i hi hh
  refine h.failed_of_not_free hh ?_
  have := List.filter_eq_nil_iff.mp hc i (List.mem_range.mpr hi)
  rwa [Bool.not_eq_true] at this

theorem exhausted_some (n : ℕ) (req : Request C) (log : Log C) (c : C) : Exhausted n req log (some c) := by
  intro h
  cases h

end Logs

/-! ## The cache -/

section Cache

variable {C : Type} {vs : Random} {req : Request C} {st : St C} {r s1 : ℚ} {i : ℕ} {is : List ℕ}

/-- What the cache says is so. -/
structure Agrees (req : Request C) (st : St C) : Prop where
  healthy : ∀ i, st.cache i = .healthy → free req st.log i = true
  unhealthy : ∀ i, st.cache i = .unhealthy → free req st.log i = false
  unknown : ∀ i, st.cache i = .unknown → i ∉ st.log.map Prod.fst

theorem agrees_empty (req : Request C) : Agrees req ⟨fun _ => .unknown, []⟩ where
  healthy i h := by cases h
  unhealthy i h := by cases h
  unknown i _ := List.not_mem_nil

/-- The question of a host: the answer is whether it can be tried. -/
theorem cacheHealthy_spec (ha : Agrees req st) (i : ℕ) :
    (cacheHealthy req i st).1 = free req st.log i ∧ Agrees req (cacheHealthy req i st).2 ∧ (cacheHealthy req i st).2.log = st.log := by
  cases hc : st.cache i with
  | unknown =>
    have hfree : free req st.log i = req.healthy i := by
      rw [free, decide_eq_true (ha.unknown i hc), Bool.and_true]
    have hcache : (cacheHealthy req i st).2.cache = Function.update st.cache i (if req.healthy i then .healthy else .unhealthy) := if_pos hc
    have hat : (cacheHealthy req i st).2.cache i = if req.healthy i then .healthy else .unhealthy := by
      rw [hcache, Function.update_self]
    refine ⟨?_, ⟨fun j hj => ?_, fun j hj => ?_, fun j hj => ?_⟩, rfl⟩
    · show decide ((cacheHealthy req i st).2.cache i = .healthy) = _
      rw [hat, hfree]
      cases req.healthy i <;> rfl
    · by_cases hji : j = i
      · subst hji
        rw [hat] at hj
        show free req st.log j = true
        rw [hfree]
        by_contra hno
        rw [if_neg hno] at hj
        cases hj
      · rw [hcache, Function.update_of_ne hji] at hj
        exact ha.healthy j hj
    · by_cases hji : j = i
      · subst hji
        rw [hat] at hj
        show free req st.log j = false
        rw [hfree]
        by_contra hno
        rw [if_pos (by simpa using hno)] at hj
        cases hj
      · rw [hcache, Function.update_of_ne hji] at hj
        exact ha.unhealthy j hj
    · by_cases hji : j = i
      · subst hji
        exact ha.unknown j hc
      · rw [hcache, Function.update_of_ne hji] at hj
        exact ha.unknown j hj
  | unhealthy =>
    have hsame : cacheHealthy req i st = (decide (st.cache i = .healthy), st) := by
      rw [cacheHealthy, if_neg (by rw [hc]; decide)]
    rw [hsame, hc, ha.unhealthy i hc]
    exact ⟨rfl, ha, rfl⟩
  | healthy =>
    have hsame : cacheHealthy req i st = (decide (st.cache i = .healthy), st) := by
      rw [cacheHealthy, if_neg (by rw [hc]; decide)]
    rw [hsame, hc, ha.healthy i hc]
    exact ⟨rfl, ha, rfl⟩

/-- What is done with a host that can be tried. -/
theorem tryHost_spec (ha : Agrees req st) (i : ℕ) : (tryHost req i st).1 = req.getFd st.log i ∧
    (tryHost req i st).2.log = st.log ++ [(i, req.getFd st.log i)] ∧ (req.getFd st.log i = none → Agrees req (tryHost req i st).2) := by
  cases hv : req.getFd st.log i with
  | some c =>
    rw [tryHost, hv]
    exact ⟨rfl, rfl, fun h => by cases h⟩
  | none =>
    rw [tryHost, hv]
    refine ⟨rfl, rfl, fun _ => ⟨fun j hj => ?_, fun j hj => ?_, fun j hj => ?_⟩⟩
    · dsimp only at hj ⊢
      by_cases hji : j = i
      · rw [hji, Function.update_self] at hj
        cases hj
      · rw [Function.update_of_ne hji] at hj
        rw [free_snoc, ha.healthy j hj, decide_eq_true hji]
        rfl
    · dsimp only at hj ⊢
      by_cases hji : j = i
      · rw [free_snoc, decide_eq_false (not_not.mpr hji), Bool.and_false]
      · rw [Function.update_of_ne hji] at hj
        rw [free_snoc, ha.unhealthy j hj, Bool.false_and]
    · dsimp only at hj ⊢
      by_cases hji : j = i
      · rw [hji, Function.update_self] at hj
        cases hj
      · rw [Function.update_of_ne hji] at hj
        rw [List.map_append, List.map_singleton, List.mem_append, List.mem_singleton]
        exact fun hl => hl.elim (ha.unknown j hj) hji

/-! ### The loops -/

theorem sumHealthy_spec (ha : Agrees req st) :
    (sumHealthy vs req s1 is st).1 = (is.filter (free req st.log)).foldl vs.add s1 ∧ Agrees req (sumHealthy vs req s1 is st).2 ∧
      (sumHealthy vs req s1 is st).2.log = st.log := by
  induction is generalizing s1 st with
  | nil => exact ⟨rfl, ha, rfl⟩
  | cons i is ih =>
    obtain ⟨h1, h2, h3⟩ := cacheHealthy_spec ha i
    rw [sumHealthy]
    obtain ⟨e1, e2, e3⟩ := @ih (cacheHealthy req i st).2 (if (cacheHealthy req i st).1 then vs.add s1 i else s1) h2
    refine ⟨?_, e2, e3.trans h3⟩
    rw [e1, h3, h1]
    cases hf : free req st.log i with
    | false => rw [List.filter_cons_of_neg (by simp [hf]), if_neg Bool.false_ne_true]
    | true => rw [List.filter_cons_of_pos hf, List.foldl_cons, if_pos rfl]

/-- The loop tries the host that is picked. -/
theorem pickLoop_spec (ha : Agrees req st) (hp : Weights.pick vs.add r s1 (is.filter (free req st.log)) = some i) :
    ∃ st', pickLoop vs req r s1 is st = tryHost req i st' ∧ Agrees req st' ∧ st'.log = st.log := by
  induction is generalizing s1 st with
  | nil => cases hp
  | cons j is ih =>
    obtain ⟨h1, h2, h3⟩ := cacheHealthy_spec ha j
    rw [pickLoop, h1]
    cases hf : free req st.log j with
    | false =>
      rw [List.filter_cons_of_neg (by simp [hf])] at hp
      rw [if_pos Bool.false_ne_true]
      obtain ⟨st', e1, e2, e3⟩ := ih h2 (by rwa [h3])
      exact ⟨st', e1, e2, e3.trans h3⟩
    | true =>
      rw [List.filter_cons_of_pos hf, Weights.pick] at hp
      rw [if_neg (not_not.mpr rfl)]
      by_cases hle : vs.add s1 j ≤ r
      · rw [if_pos hle] at hp ⊢
        obtain ⟨st', e1, e2, e3⟩ := ih h2 (by rwa [h3])
        exact ⟨st', e1, e2, e3.trans h3⟩
      · rw [if_neg hle] at hp ⊢
        cases hp
        exact ⟨_, rfl, h2, h3⟩

/-- The loop tries the canonical host, when it is healthy. -/
theorem canonicalLoop_spec (ha : Agrees req st) (hp : Weights.pick vs.add r s1 is = some i) :
    ∃ st', canonicalLoop vs req r s1 is st = (if free req st.log i then tryHost req i st' else (none, st')) ∧ Agrees req st' ∧
      st'.log = st.log := by
  induction is generalizing s1 with
  | nil => cases hp
  | cons j is ih =>
    rw [Weights.pick] at hp
    rw [canonicalLoop]
    by_cases hle : vs.add s1 j ≤ r
    · rw [if_pos hle] at hp ⊢
      exact ih hp
    · rw [if_neg hle] at hp ⊢
      cases hp
      obtain ⟨h1, h2, h3⟩ := cacheHealthy_spec ha i
      refine ⟨_, ?_, h2, h3⟩
      rw [← h1]

end Cache

/-! ## Sums of doubles -/

section Sums

variable {C : Type} {vs : Random} {req : Request C} {is : List ℕ} {s : ℚ} {i : ℕ}

/-- A sum of weights is a double, and positive when there is a host. -/
theorem total_double (his : ∀ i ∈ is, i < vs.nhosts) :
    0 ≤ is.foldl vs.add 0 ∧ rnd (is.foldl vs.add 0) = is.foldl vs.add 0 ∧ (is ≠ [] → 0 < is.foldl vs.add 0) := by
  induction is using List.reverseRecOn with
  | nil => exact ⟨le_refl 0, rnd_zero, fun h => absurd rfl h⟩
  | append_singleton is i ih =>
    obtain ⟨h1, -, -⟩ := ih fun j hj => his j (List.mem_append_left _ hj)
    have hw := vs.weight_pos i (his i (List.mem_append_right _ (List.mem_singleton.mpr rfl)))
    have hsum : 0 < is.foldl vs.add 0 + vs.weight i := by linarith
    rw [List.foldl_append, List.foldl_cons, List.foldl_nil, Random.add]
    exact ⟨rnd_nonneg hsum.le, rnd_rnd hsum.le, fun _ => rnd_pos hsum⟩

/-- The weight of one more host makes no sum smaller. -/
theorem grows_add (his : ∀ i ∈ is, i < vs.nhosts) : Weights.Grows vs.add 0 is := by
  intro l i hl
  have hmem : ∀ j ∈ l ++ [i], j < vs.nhosts := fun j hj => his j (hl.subset hj)
  obtain ⟨h1, h2, -⟩ := total_double fun j hj => hmem j (List.mem_append_left _ hj)
  have hw := vs.weight_pos i (hmem i (List.mem_append_right _ (List.mem_singleton.mpr rfl)))
  have hle : rnd (l.foldl vs.add 0) ≤ rnd (l.foldl vs.add 0 + vs.weight i) := rnd_mono h1 (by linarith)
  rwa [h2] at hle

theorem exact_pos (his : ∀ i ∈ is, i < vs.nhosts) : 0 ≤ is.foldl vs.exact 0 ∧ (is ≠ [] → 0 < is.foldl vs.exact 0) := by
  induction is using List.reverseRecOn with
  | nil => exact ⟨le_refl 0, fun h => absurd rfl h⟩
  | append_singleton is i ih =>
    obtain ⟨h1, -⟩ := ih fun j hj => his j (List.mem_append_left _ hj)
    have hw := vs.weight_pos i (his i (List.mem_append_right _ (List.mem_singleton.mpr rfl)))
    have hsum : 0 < is.foldl vs.exact 0 + vs.weight i := by linarith
    rw [List.foldl_append, List.foldl_cons, List.foldl_nil, Random.exact]
    exact ⟨hsum.le, fun _ => hsum⟩

/-- The number that is taken is so far from 1 that rounding does not lead there. -/
theorem point_mem (vs : Random) (req : Request C) (k : ℕ) : 0 ≤ point vs req k ∧ point vs req k ≤ 1 - 1 / 2 ^ 32 := by
  rw [point]
  split
  · have h : ((key req.hp).toNat : ℚ) + 1 ≤ 2 ^ 32 := by exact_mod_cast (key req.hp).toNat_lt
    refine ⟨by positivity, ?_⟩
    rw [div_le_iff₀ (by norm_num)]
    linarith
  · have h : ((req.random k : ℕ) : ℚ) + 1 ≤ 2 ^ 31 := by exact_mod_cast (req.random k).isLt
    refine ⟨by positivity, ?_⟩
    rw [div_le_iff₀ (by norm_num)]
    linarith

/-- The point that is looked for is below the sum. -/
theorem point_mul (k : ℕ) (hs : 0 < s) : 0 ≤ rnd (point vs req k * s) ∧ rnd (point vs req k * s) < s := by
  obtain ⟨h0, h1⟩ := point_mem vs req k
  have hnonneg : 0 ≤ point vs req k * s := mul_nonneg h0 hs.le
  refine ⟨rnd_nonneg hnonneg, ?_⟩
  have hle : point vs req k * s ≤ (1 - 1 / 2 ^ 32) * s := mul_le_mul_of_nonneg_right h1 hs.le
  have herr := (rnd_error hnonneg).2
  linarith

/-- Some host has the point, and it is the one that is picked. -/
theorem exists_pick (vs : Random) (req : Request C) (k : ℕ) (his : ∀ i ∈ is, i < vs.nhosts) (hne : is ≠ []) :
    ∃ i, Weights.pick vs.add (rnd (point vs req k * is.foldl vs.add 0)) 0 is = some i ∧
      Weights.Contains vs.add 0 is (rnd (point vs req k * is.foldl vs.add 0)) i := by
  obtain ⟨h1, h2⟩ := @point_mul _ vs req _ k ((total_double his).2.2 hne)
  exact Weights.pick_contains h1 h2

theorem range_ne_nil (vs : Random) : List.range vs.nhosts ≠ [] := by
  rw [Ne, List.range_eq_nil]
  exact Nat.pos_iff_ne_zero.mp vs.nhosts_pos

theorem exists_canonical (vs : Random) (req : Request C) : ∃ i, Canonical vs req i := by
  have hpos : 0 < (List.range vs.nhosts).foldl vs.exact 0 := (exact_pos fun i hi => List.mem_range.mp hi).2 (range_ne_nil vs)
  have hlt : ((key req.hp).toNat : ℚ) / 2 ^ 32 < 1 := by
    rw [div_lt_one (by norm_num)]
    exact_mod_cast (key req.hp).toNat_lt
  obtain ⟨i, -, hi⟩ := Weights.pick_contains (f := vs.exact) (mul_nonneg (by positivity) hpos.le) (mul_lt_of_lt_one_left hpos hlt)
  exact ⟨i, hi⟩

theorem Rounded.unique {j : ℕ} (his : ∀ i ∈ is, i < vs.nhosts) (hi : Rounded vs req is i) (hj : Rounded vs req is j) : i = j :=
  Weights.Contains.unique (grows_add his) hi hj

end Sums

/-! ## The rounds -/

section Rounds

variable {C : Type} {vs : Random} {req : Request C} {st : St C} {i : ℕ}

/-- What a try leaves when the host could be tried. -/
theorem tried_tryHost (ha : Agrees req st) (ht : Tried vs.nhosts req st.log none) (hi : i ∈ candidates vs.nhosts req st.log) :
    Tried vs.nhosts req (tryHost req i st).2.log (tryHost req i st).1 ∧
      ((tryHost req i st).1 = none → Agrees req (tryHost req i st).2) ∧
      (candidates vs.nhosts req (tryHost req i st).2.log).length + 1 = (candidates vs.nhosts req st.log).length := by
  obtain ⟨h1, h2, h3⟩ := tryHost_spec ha i
  obtain ⟨hin, hfree⟩ := List.mem_filter.mp hi
  rw [h1, h2]
  exact ⟨ht.snoc (List.mem_range.mp hin) hfree _, h3, candidates_snoc hi _⟩

theorem candidates_lt {n : ℕ} {log : Log C} : ∀ i ∈ candidates n req log, i < n :=
  fun _ hi => List.mem_range.mp (List.mem_filter.mp hi).1

/-- One round tries a host that can be tried, if there is one. -/
theorem retryLoop_succ (vs : Random) (n k : ℕ) (ha : Agrees req st) :
    (candidates vs.nhosts req st.log = [] ∧ (retryLoop vs req (n + 1) k st).1 = none ∧ (retryLoop vs req (n + 1) k st).2.log = st.log) ∨
      ∃ i st', Weights.Contains vs.add 0 (candidates vs.nhosts req st.log)
          (rnd (point vs req k * (candidates vs.nhosts req st.log).foldl vs.add 0)) i ∧
        Agrees req st' ∧ st'.log = st.log ∧
        retryLoop vs req (n + 1) k st = match (tryHost req i st').1 with
          | some c => (some c, (tryHost req i st').2)
          | none => retryLoop vs req n (k + 1) (tryHost req i st').2 := by
  obtain ⟨h1, h2, h3⟩ := @sumHealthy_spec _ vs req st 0 (List.range vs.nhosts) ha
  rw [retryLoop]
  dsimp only
  by_cases hnil : candidates vs.nhosts req st.log = []
  · left
    have hzero : (sumHealthy vs req 0 (List.range vs.nhosts) st).1 = 0 := h1.trans (congrArg (List.foldl vs.add 0) hnil)
    rw [if_pos hzero]
    exact ⟨hnil, rfl, h3⟩
  · right
    have hpos := lt_of_lt_of_eq ((total_double candidates_lt).2.2 hnil) h1.symm
    obtain ⟨i, hp, hi⟩ := exists_pick vs req k candidates_lt hnil
    have hp' := hp
    rw [candidates, ← h3] at hp'
    obtain ⟨st', e1, e2, e3⟩ := pickLoop_spec h2 hp'
    refine ⟨i, st', hi, e2, e3.trans h3, ?_⟩
    rw [if_neg hpos.ne', h1, ← e1, h3]

/-- The rounds: each tries one host, and there are enough of them when there are as many as hosts that can be tried. -/
theorem retryLoop_spec (n k : ℕ) (ha : Agrees req st) (ht : Tried vs.nhosts req st.log none) :
    Tried vs.nhosts req (retryLoop vs req n k st).2.log (retryLoop vs req n k st).1 ∧
      ((candidates vs.nhosts req st.log).length ≤ n →
        Exhausted vs.nhosts req (retryLoop vs req n k st).2.log (retryLoop vs req n k st).1) ∧
      ∃ l, (retryLoop vs req n k st).2.log = st.log ++ l := by
  induction n generalizing k st with
  | zero =>
    refine ⟨ht, fun hn => ?_, [], (List.append_nil _).symm⟩
    exact exhausted_of_candidates ht (List.eq_nil_of_length_eq_zero (Nat.le_zero.mp hn)) _
  | succ n ih =>
    obtain ⟨hnil, h1, h2⟩ | ⟨i, st', hi, e2, e3, hrun⟩ := retryLoop_succ vs n k ha
    · rw [h1, h2]
      exact ⟨ht, fun _ => exhausted_of_candidates ht hnil _, [], (List.append_nil _).symm⟩
    · have hi := hi.mem
      rw [hrun]
      rw [← e3] at ht hi ⊢
      obtain ⟨t1, t2, t3⟩ := tried_tryHost e2 ht hi
      have hlog := (tryHost_spec e2 i).2.1
      cases hv : (tryHost req i st').1 with
      | some c =>
        rw [hv] at t1
        exact ⟨t1, fun _ => exhausted_some _ _ _ c, _, hlog⟩
      | none =>
        rw [hv] at t1
        obtain ⟨f1, f2, l, f3⟩ := ih (k + 1) (t2 hv) t1
        refine ⟨f1, fun hn => f2 (by omega), (i, req.getFd st'.log i) :: l, ?_⟩
        dsimp only
        rw [f3, hlog, List.append_assoc, List.singleton_append]

/-! ### The canonical host -/

theorem length_candidates (n : ℕ) (req : Request C) (log : Log C) : (candidates n req log).length ≤ n := by
  have := List.length_filter_le (free req log) (List.range n)
  rwa [List.length_range] at this

/-- What the request begins with: the rounds, or a host that was tried for its key. -/
theorem getfd_cases (vs : Random) (req : Request C) :
    (∃ st, Agrees req st ∧ st.log = [] ∧ vdiRandomGetfd vs req = retryLoop vs req vs.retries 0 st ∧
        (vs.criteria ≠ .random → ∃ p, Rounded vs req (List.range vs.nhosts) p ∧ req.healthy p = false)) ∨
      vs.criteria ≠ .random ∧ ∃ p st, Rounded vs req (List.range vs.nhosts) p ∧ req.healthy p = true ∧ Agrees req st ∧ st.log = [] ∧
        vdiRandomGetfd vs req = match (tryHost req p st).1 with
          | some c => (some c, (tryHost req p st).2)
          | none => retryLoop vs req vs.retries 0 (tryHost req p st).2 := by
  have ha : Agrees req (⟨fun _ => .unknown, []⟩ : St C) := agrees_empty req
  by_cases hc : vs.criteria = .random
  · refine .inl ⟨_, ha, rfl, ?_, fun h => absurd hc h⟩
    rw [vdiRandomGetfd]
    rw [if_neg (not_not.mpr hc)]
  · obtain ⟨p, hp, hcont⟩ := exists_pick vs req 0 (fun i hi => List.mem_range.mp hi) (range_ne_nil vs)
    obtain ⟨st, e1, e2, e3⟩ := canonicalLoop_spec ha hp
    have hround : Rounded vs req (List.range vs.nhosts) p := by
      rw [point, if_pos hc] at hcont
      exact hcont
    have hfree : free req ([] : Log C) p = req.healthy p := Bool.and_true _
    have hrun : vdiRandomGetfd vs req = match (if req.healthy p then tryHost req p st else (none, st)).1 with
        | some c => (some c, (if req.healthy p then tryHost req p st else (none, st)).2)
        | none => retryLoop vs req vs.retries 0 (if req.healthy p then tryHost req p st else (none, st)).2 := by
      rw [vdiRandomGetfd, Random.totWeight]
      rw [if_pos hc, e1, hfree]
    cases hh : req.healthy p with
    | false =>
      rw [hh] at hrun
      exact .inl ⟨st, e2, e3, hrun, fun _ => ⟨p, hround, hh⟩⟩
    | true =>
      rw [hh] at hrun
      exact .inr ⟨hc, p, st, hround, hh, e2, e3, hrun⟩

theorem candidates_nil (n : ℕ) (req : Request C) : candidates n req [] = (List.range n).filter req.healthy :=
  List.filter_congr fun _ _ => Bool.and_true _

/-- No rounding leads to a host twice, or makes a director give up. -/
theorem random_tried (vs : Random) (req : Request C) : Tried vs.nhosts req (vdiRandomGetfd vs req).2.log (vdiRandomGetfd vs req).1 ∧
    (vs.nhosts ≤ vs.retries → Exhausted vs.nhosts req (vdiRandomGetfd vs req).2.log (vdiRandomGetfd vs req).1) := by
  have hrest : ∀ {st : St C}, Agrees req st → Tried vs.nhosts req st.log none →
      Tried vs.nhosts req (retryLoop vs req vs.retries 0 st).2.log (retryLoop vs req vs.retries 0 st).1 ∧ (vs.nhosts ≤ vs.retries →
        Exhausted vs.nhosts req (retryLoop vs req vs.retries 0 st).2.log (retryLoop vs req vs.retries 0 st).1) := by
    intro st ha ht
    obtain ⟨h1, h2, -⟩ := retryLoop_spec vs.retries 0 ha ht
    exact ⟨h1, fun hn => h2 (le_trans (length_candidates _ _ _) hn)⟩
  obtain ⟨st, ha, hnil, hrun, -⟩ | ⟨-, p, st, hp, hh, ha, hnil, hrun⟩ := getfd_cases vs req
  · rw [hrun]
    exact hrest ha (hnil ▸ tried_nil vs.nhosts req)
  · rw [hrun]
    have hcand : p ∈ candidates vs.nhosts req st.log := by
      rw [hnil, candidates_nil]
      exact List.mem_filter.mpr ⟨hp.mem, hh⟩
    obtain ⟨t1, t2, -⟩ := tried_tryHost ha (hnil ▸ tried_nil vs.nhosts req) hcand
    cases hv : (tryHost req p st).1 with
    | some c =>
      rw [hv] at t1
      exact ⟨t1, fun _ => exhausted_some _ _ _ c⟩
    | none =>
      rw [hv] at t1
      exact hrest (t2 hv) t1

/-- Where a request begins with a host, whatever comes after it, that host is the first one. -/
theorem log_of_try {n k : ℕ} (ha : Agrees req st) (hlog : st.log = []) (hi : i ∈ (List.range vs.nhosts).filter req.healthy) :
    ∃ v l, (match (tryHost req i st).1 with
      | some c => (some c, (tryHost req i st).2)
      | none => retryLoop vs req n k (tryHost req i st).2).2.log = (i, v) :: l := by
  have htry := (tryHost_spec ha i).2.1
  rw [← candidates_nil, ← hlog] at hi
  obtain ⟨t1, t2, -⟩ := tried_tryHost ha (hlog ▸ tried_nil vs.nhosts req) hi
  rw [hlog] at htry
  cases hv : (tryHost req i st).1 with
  | some c => exact ⟨_, _, htry⟩
  | none =>
    rw [hv] at t1
    obtain ⟨-, -, l, hl⟩ := retryLoop_spec n k (t2 hv) t1
    exact ⟨_, l, hl.trans (congrArg (· ++ l) htry)⟩

theorem exists_first (hc : vs.criteria ≠ .random) (hi : i < vs.nhosts) (hh : req.healthy i = true) :
    ∃ q, First vs req q ∧ req.healthy q = true ∧ ∃ v l, (vdiRandomGetfd vs req).2.log = (q, v) :: l := by
  obtain ⟨st, ha, hnil, hrun, hsick⟩ | ⟨-, p, st, hp, hhp, ha, hnil, hrun⟩ := getfd_cases vs req
  · obtain ⟨p, hp, hhp⟩ := hsick hc
    obtain ⟨m, hm⟩ := Nat.exists_eq_succ_of_ne_zero (Nat.pos_iff_ne_zero.mp vs.retries_pos)
    rw [hm] at hrun
    obtain ⟨hno, -⟩ | ⟨q, st', hq, ha', hlog', hstep⟩ := retryLoop_succ vs m 0 ha
    · rw [hnil, candidates_nil] at hno
      exact absurd (List.mem_filter.mpr ⟨List.mem_range.mpr hi, hh⟩) (hno ▸ List.not_mem_nil)
    · rw [hnil, candidates_nil, point, if_pos hc] at hq
      refine ⟨q, .inr ⟨p, hp, hhp, hq⟩, (List.mem_filter.mp hq.mem).2, ?_⟩
      rw [hrun, hstep]
      exact log_of_try ha' (hlog'.trans hnil) hq.mem
  · refine ⟨p, .inl hp, hhp, ?_⟩
    rw [hrun]
    exact log_of_try ha hnil (List.mem_filter.mpr ⟨hp.mem, hhp⟩)

/-- The key leads to one healthy host only. -/
theorem First.unique {j : ℕ} (hi : First vs req i) (hhi : req.healthy i = true) (hj : First vs req j) (hhj : req.healthy j = true) : i = j := by
  have hrange : ∀ k ∈ List.range vs.nhosts, k < vs.nhosts := fun k hk => List.mem_range.mp hk
  have hfilter : ∀ k ∈ (List.range vs.nhosts).filter req.healthy, k < vs.nhosts := fun k hk => hrange k (List.mem_filter.mp hk).1
  obtain hi | ⟨p, hp, hhp, hi⟩ := hi
  · obtain hj | ⟨q, hq, hhq, -⟩ := hj
    · exact hi.unique hrange hj
    · rw [hi.unique hrange hq, hhq] at hhi
      cases hhi
  · obtain hj | ⟨q, hq, hhq, hj⟩ := hj
    · rw [hj.unique hrange hp, hhp] at hhj
      cases hhj
    · exact hi.unique hfilter hj

theorem random_getfd_iff (vs : Random) (req : Request C) : RandomOk vs req ↔ (vs.criteria ≠ .random → Undisturbed vs req) := by
  obtain ⟨h1, h2⟩ := random_tried vs req
  constructor
  · rintro ⟨-, -, hcan⟩ hc i hi hh
    obtain ⟨q, hq, hhq, v, l, hlog⟩ := exists_first hc (List.mem_range.mp hi.mem) hh
    obtain ⟨v', l', hlog'⟩ := (hcan hc).2 i hi hh
    cases hlog.symm.trans hlog'
    exact hq
  · intro hund
    refine ⟨h1, h2, fun hc => ⟨exists_canonical vs req, fun i hi hh => ?_⟩⟩
    obtain ⟨q, hq, hhq, hlog⟩ := exists_first hc (List.mem_range.mp hi.mem) hh
    rwa [(hund hc i hi hh).unique hh hq hhq]

end Rounds

/-! ## Whole numbers -/

section Whole

variable {C : Type} {vs : Random} {req : Request C} {is : List ℕ} {s : ℚ} {i : ℕ}

/-- The weights are whole numbers. -/
def Whole (vs : Random) : Prop := ∀ i < vs.nhosts, ∃ w : ℕ, vs.weight i = w

theorem rnd_natCast {n : ℕ} (hn : n ≤ 2 ^ 53) : rnd n = n := by
  have h := rnd_of_mantissa n hn 0
  rwa [zpow_zero, mul_one] at h

theorem exact_whole (hw : Whole vs) (his : ∀ i ∈ is, i < vs.nhosts) : ∃ n : ℕ, is.foldl vs.exact 0 = n := by
  induction is using List.reverseRecOn with
  | nil => exact ⟨0, Nat.cast_zero.symm⟩
  | append_singleton is i ih =>
    obtain ⟨n, hn⟩ := ih fun j hj => his j (List.mem_append_left _ hj)
    obtain ⟨w, hi⟩ := hw i (his i (List.mem_append_right _ (List.mem_singleton.mpr rfl)))
    refine ⟨n + w, ?_⟩
    rw [List.foldl_append, List.foldl_cons, List.foldl_nil, Random.exact, hn, hi, Nat.cast_add]

/-- Sums of up to `2^53` are not rounded. -/
theorem foldl_add_eq (hw : Whole vs) (his : ∀ i ∈ is, i < vs.nhosts) (hle : is.foldl vs.exact 0 ≤ 2 ^ 53) :
    is.foldl vs.add 0 = is.foldl vs.exact 0 := by
  induction is using List.reverseRecOn with
  | nil => rfl
  | append_singleton is i ih =>
    obtain ⟨n, hn⟩ := exact_whole hw his
    have hi := vs.weight_pos i (his i (List.mem_append_right _ (List.mem_singleton.mpr rfl)))
    have hsum : (is ++ [i]).foldl vs.exact 0 = is.foldl vs.exact 0 + vs.weight i := List.foldl_append
    have hadd : (is ++ [i]).foldl vs.add 0 = rnd (is.foldl vs.add 0 + vs.weight i) := List.foldl_append
    rw [hadd, ih (fun j hj => his j (List.mem_append_left _ hj)) (by linarith), ← hsum, hn]
    rw [hn] at hle
    exact rnd_natCast (by exact_mod_cast hle)

/-- Weights that are whole numbers, with a sum of up to `2^21`, are not rounded, nor is the point. -/
theorem random_whole (hw : Whole vs) (hle : (List.range vs.nhosts).foldl vs.exact 0 ≤ 2 ^ 21) : RandomOk vs req := by
  have hrange : ∀ i ∈ List.range vs.nhosts, i < vs.nhosts := fun i hi => List.mem_range.mp hi
  refine (random_getfd_iff vs req).mpr fun _ i hi _ => .inl ?_
  have htot := foldl_add_eq hw hrange (hle.trans (by norm_num))
  -- the point is a number of 53 bits, moved by 32 of them
  have hpoint : rnd ((key req.hp).toNat / 2 ^ 32 * (List.range vs.nhosts).foldl vs.exact 0) =
      (key req.hp).toNat / 2 ^ 32 * (List.range vs.nhosts).foldl vs.exact 0 := by
    obtain ⟨n, hn⟩ := exact_whole hw hrange
    rw [hn] at hle ⊢
    have hn' : n ≤ 2 ^ 21 := by exact_mod_cast hle
    have hbound : (key req.hp).toNat * n ≤ 2 ^ 32 * 2 ^ 21 := Nat.mul_le_mul (key req.hp).toNat_lt.le hn'
    have h := rnd_of_mantissa ((key req.hp).toNat * n) hbound (-32)
    have heq : (((key req.hp).toNat * n : ℕ) : ℚ) * 2 ^ (-32 : ℤ) = (key req.hp).toNat / 2 ^ 32 * n := by
      rw [Nat.cast_mul, zpow_neg, zpow_ofNat]
      ring
    rwa [heq] at h
  obtain ⟨l₁, l₂, hl, h1, h2⟩ := hi
  have hsub : ∀ {m : List ℕ}, m <+: List.range vs.nhosts → m.foldl vs.add 0 = m.foldl vs.exact 0 := by
    rintro m ⟨t, ht⟩
    have hmem : ∀ j ∈ m ++ t, j < vs.nhosts := fun j hj => hrange j (ht ▸ hj)
    have hgrow : Weights.Grows vs.exact 0 (m ++ t) := by
      intro m' j hm
      exact le_add_of_nonneg_right (vs.weight_pos j (hmem j (hm.subset (List.mem_append_right _ (List.mem_singleton.mpr rfl))))).le
    have hle' := hgrow.foldl_le
    rw [ht] at hle'
    exact foldl_add_eq hw (fun j hj => hmem j (List.mem_append_left _ hj)) ((hle'.trans hle).trans (by norm_num))
  refine ⟨l₁, l₂, hl, ?_, ?_⟩
  · rwa [htot, hpoint, hsub ⟨i :: l₂, hl.symm⟩]
  · have hlast : vs.add (l₁.foldl vs.add 0) i = vs.exact (l₁.foldl vs.exact 0) i := by
      have h := hsub (m := l₁ ++ [i]) ⟨l₂, by rw [hl, List.append_assoc, List.singleton_append]⟩
      rwa [List.foldl_append, List.foldl_append] at h
    rwa [htot, hpoint, hlast]

end Whole

end Varnish.Director
