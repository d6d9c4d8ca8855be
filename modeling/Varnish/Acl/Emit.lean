import Varnish.Acl.Order

/-!
# Varnish.Acl.Emit — what the emitted matcher computes

The emitter's two slips, on the list `before` of the entries already printed (nearest first):

* `misplaced`: the common prefix is counted in started bytes (`l * 8 < ae->mask`), so an entry whose mask ends
  inside a byte is put into the block of its predecessor when that one is open for the same whole byte;
* `Shadow`: blocks of one level are chained with `else`, so a fractional compare is not reached by an address for
  which a whole byte compare of the chain held.

`cutOff` says which entries an address does not reach for these reasons.  `emit_step` follows one round of the loop,
`emitLoop_exec` the whole of it: the matcher returns the verdict of the first entry of `tl->acl` that contains the
address and is not cut off.
-/

namespace Varnish.Acl

open Varnish.Lib

/-! ## The entries an address does not reach -/

section Cut

instance (a b : ℕ → Bool) (m : ℕ) : Decidable (Agree a b m) := inferInstanceAs (Decidable (∀ i < m, a i = b i))

/-- `ae` contains `x`, on the bits of `data[]`. -/
abbrev AclE.Contains (ae : AclE) (x : Addr) : Prop := Agree ae.bits x.bits ae.mask

/-- `ae` ends inside a byte and is printed into the open block of its predecessor for that whole byte. -/
def misplaced : List AclE → AclE → Bool
  | [], _ => false
  | p :: before, ae => decide (ae.mask % 8 ≠ 0 ∧ ∀ j < ae.mask / 8 + 1, p.byte j = ae.byte j) &&
      (decide (8 * (ae.mask / 8 + 1) ≤ p.mask) || (decide (p.mask / 8 = ae.mask / 8) && misplaced before p))

/-- Some entry printed before tests byte `s` as a whole, and `x` passes this test and those around it. -/
def Shadow (before : List AclE) (x : Addr) (s : ℕ) : Prop :=
  ∃ q ∈ before, 8 * (s + 1) ≤ q.mask ∧ ∀ j < s + 1, q.byte j = x.byte j

instance (before : List AclE) (x : Addr) (s : ℕ) : Decidable (Shadow before x s) :=
  inferInstanceAs (Decidable (∃ q ∈ before, 8 * (s + 1) ≤ q.mask ∧ ∀ j < s + 1, q.byte j = x.byte j))

/-- The control flow for `x` does not get to the return of `ae`, although `ae` contains `x`. -/
def cutOff (before : List AclE) (ae : AclE) (x : Addr) : Prop :=
  ae.mask % 8 ≠ 0 ∧
    if misplaced before ae then x.byte (ae.mask / 8) ≠ ae.byte (ae.mask / 8) else Shadow before x (ae.mask / 8)

instance (before : List AclE) (ae : AclE) (x : Addr) : Decidable (cutOff before ae x) :=
  inferInstanceAs (Decidable (_ ∧ _))

/-- The first entry that contains `x` and is not cut off, `before` being printed already. -/
def firstReached (x : Addr) : (before acl : List AclE) → Option AclE
  | _, [] => none
  | before, ae :: rest =>
    if ae.Contains x ∧ ¬ cutOff before ae x then some ae else firstReached x (ae :: before) rest

/-- The verdict of the entry found, `false` by default. -/
def verdict : Option AclE → Bool
  | some ae => !ae.not
  | none => false

end Cut

/-! ## The variables of the loop -/

section Vars

/-- What the loop over the common prefix finds. -/
structure PrefixOk (ae : AclE) (vals : ℕ → ℕ) (d l : ℕ) : Prop where
  le : l ≤ d
  start : l = 0 ∨ (l - 1) * 8 < ae.mask
  eq : ∀ j < l, (ae.byte j).toNat = vals j
  stop : l < d → ae.mask ≤ l * 8 ∨ (ae.byte l).toNat ≠ vals l

theorem commonPrefix_ok (ae : AclE) (vals : ℕ → ℕ) (d : ℕ) : PrefixOk ae vals d (commonPrefix ae vals d 0) := by
  have key : ∀ k l, (l = 0 ∨ (l - 1) * 8 < ae.mask) → (∀ j < l, (ae.byte j).toNat = vals j) →
      PrefixOk ae vals (l + k) (commonPrefix ae vals k l) := by
    intro k
    induction k with
    | zero => exact fun l h1 h2 => ⟨le_rfl, h1, h2, fun h => absurd h (lt_irrefl _)⟩
    | succ k ih =>
      intro l h1 h2
      rw [commonPrefix]
      split_ifs with hc
      · have := ih (l + 1) (Or.inr (by simpa using hc.1)) (fun j hj => by
          rcases Nat.lt_succ_iff_lt_or_eq.mp hj with hj | rfl
          · exact h2 j hj
          · exact hc.2)
        rwa [show l + 1 + k = l + (k + 1) by omega] at this
      · refine ⟨by omega, h1, h2, fun _ => ?_⟩
        by_contra hn
        rw [not_or, not_le, not_not] at hn
        exact hc hn
  simpa using key d 0 (Or.inl rfl) (by simp)

/-- The variables after the entries `before`: the open blocks are those of the last entry. -/
def VarsOk (before : List AclE) (st : EmitSt) : Prop :=
  match before with
  | [] => st.depth = 0
  | p :: rest => st.depth = (p.mask + 7) / 8 ∧ (∀ j < p.mask / 8, st.vals j = (p.byte j).toNat) ∧
      (p.mask % 8 ≠ 0 → st.vals (p.mask / 8) = if misplaced rest p then (p.byte (p.mask / 8)).toNat else 256)

variable {before : List AclE} {st : EmitSt} {ae : AclE}

/-- An entry is misplaced iff the common prefix runs past the byte in which its mask ends. -/
theorem misplaced_iff (hv : VarsOk before st) (hf : ae.mask % 8 ≠ 0) :
    misplaced before ae = true ↔ ae.mask / 8 < commonPrefix ae st.vals st.depth 0 := by
  have hp := commonPrefix_ok ae st.vals st.depth
  generalize commonPrefix ae st.vals st.depth 0 = l at hp
  cases before with
  | nil =>
    have h0 : st.depth = 0 := hv
    have := hp.le
    simp only [misplaced, Bool.false_eq_true, false_iff]
    omega
  | cons p rest =>
    obtain ⟨hd, hw, hfr⟩ := hv
    simp only [misplaced, Bool.and_eq_true, Bool.or_eq_true, decide_eq_true_eq]
    constructor
    · rintro ⟨⟨-, hb⟩, hopen⟩
      -- all started bytes of `ae` equal the values of open blocks, so the loop does not stop at one of them
      have hval : ∀ j < ae.mask / 8 + 1, j < st.depth ∧ st.vals j = (ae.byte j).toNat := by
        intro j hj
        rw [← hb j hj]
        rcases hopen with h | ⟨h, hm⟩
        · exact ⟨by omega, hw j (by omega)⟩
        · by_cases hj' : j < p.mask / 8
          · exact ⟨by omega, hw j hj'⟩
          · obtain rfl : j = p.mask / 8 := by omega
            have hpf : p.mask % 8 ≠ 0 := by
              intro h0
              cases rest <;> simp [misplaced, h0] at hm
            exact ⟨by omega, by rw [hfr hpf, hm]; rfl⟩
      by_contra hlt
      obtain ⟨h1, h2⟩ := hval l (by omega)
      rcases hp.stop h1 with h | h
      · omega
      · exact h h2.symm
    · intro hl
      have hle := hp.le
      have heq : ∀ j < ae.mask / 8 + 1, (ae.byte j).toNat = st.vals j := fun j hj => hp.eq j (by omega)
      have hbyte : ∀ j < ae.mask / 8 + 1, j < p.mask / 8 → p.byte j = ae.byte j := fun j hj hj' => by
        rw [← UInt8.toNat_inj, heq j hj, hw j hj']
      rcases Nat.lt_or_ge (ae.mask / 8) (p.mask / 8) with h | h
      · exact ⟨⟨hf, fun j hj => hbyte j hj (by omega)⟩, Or.inl (by omega)⟩
      · have hpi : p.mask / 8 = ae.mask / 8 := by omega
        have hpf : p.mask % 8 ≠ 0 := by omega
        have hlast := heq (ae.mask / 8) (by omega)
        rw [← hpi, hfr hpf] at hlast
        by_cases hm : misplaced rest p = true
        · rw [if_pos hm, UInt8.toNat_inj] at hlast
          refine ⟨⟨hf, fun j hj => ?_⟩, Or.inr ⟨hpi, hm⟩⟩
          rcases Nat.lt_or_ge j (p.mask / 8) with hj' | hj'
          · exact hbyte j hj hj'
          · obtain rfl : j = p.mask / 8 := by omega
            exact hlast.symm
        · rw [if_neg hm] at hlast
          have := toNat_lt_256 (ae.byte (p.mask / 8))
          omega

/-- One round keeps the description of the variables. -/
theorem VarsOk.step (hv : VarsOk before st) (ae : AclE) : VarsOk (ae :: before) (emitSt st ae) := by
  have hp := commonPrefix_ok ae st.vals st.depth
  have hmis : ae.mask % 8 ≠ 0 → _ := misplaced_iff hv
  unfold VarsOk emitSt
  generalize commonPrefix ae st.vals st.depth 0 = l at hp hmis
  have hstart := hp.start
  refine ⟨by dsimp only; split_ifs <;> omega, fun j hj => ?_, fun hf => ?_⟩
  · dsimp only
    split_ifs with h1 h2
    · rfl
    · omega
    · exact (hp.eq j (by omega)).symm
  · dsimp only
    by_cases hl : ae.mask / 8 < l
    · rw [if_pos ((hmis hf).mpr hl), if_neg (by omega), if_neg (by omega)]
      exact (hp.eq _ hl).symm
    · rw [if_neg (fun h => hl ((hmis hf).mp h)), if_neg (by omega), if_pos (by omega)]

end Vars

/-! ## The printed lines -/

section Lines

variable {ae : AclE} {x : Addr}

/-- The compares printed for `ae` when `l` blocks are common. -/
def openLines (ae : AclE) (els : Bool) (l : ℕ) : List Line :=
  wholeLines ae els ((ae.mask - l * 8) / 8) l ++
    if 0 < (ae.mask - l * 8) % 8 then
      [fracLine ae (els && (ae.mask - l * 8) / 8 == 0) (l + (ae.mask - l * 8) / 8) ((ae.mask - l * 8) % 8)]
    else []

theorem emitLines_eq (acln : String) (anon : Bool) (st : EmitSt) (ae : AclE) {l : ℕ}
    (hl : commonPrefix ae st.vals st.depth 0 = l) : emitLines acln anon st ae =
      List.replicate (st.depth - l) .close ++ (openLines ae (decide (l < st.depth)) l ++ leafLines acln anon ae) := by
  subst hl
  simp [emitLines, openLines, List.append_assoc]

theorem wholeLines_length (els : Bool) (k i : ℕ) : (wholeLines ae els k i).length = k := by
  induction k generalizing els i with
  | zero => rfl
  | succ k ih => simp [wholeLines, ih]

theorem openLines_length (ae : AclE) {l : ℕ} (els : Bool) (h : l * 8 < ae.mask + 8) :
    (openLines ae els l).length = (ae.mask + 7) / 8 - l := by
  unfold openLines
  rw [List.length_append, wholeLines_length]
  split_ifs <;> simp only [List.length_singleton, List.length_nil] <;> omega

theorem wholeLine_opn (ae : AclE) (x : Addr) (els : Bool) (i : ℕ) :
    ∃ c, wholeLine ae els i = .opn els c ∧ AclCond.holds x c = decide (x.byte i = ae.byte i) := by
  unfold wholeLine
  split_ifs with h
  · exact ⟨_, rfl, by subst h; rfl⟩
  · refine ⟨_, rfl, ?_⟩
    rw [AclCond.holds, show i - 1 + 1 = i by omega]

theorem wholeLines_opn (ae : AclE) (els : Bool) (k i : ℕ) : ∀ ln ∈ wholeLines ae els k i, ∃ e c, ln = .opn e c := by
  induction k generalizing els i with
  | zero => intro ln hln; simp [wholeLines] at hln
  | succ k ih =>
    intro ln hln
    rcases List.mem_cons.mp hln with rfl | hln
    · unfold wholeLine
      split_ifs
      · exact ⟨_, _, rfl⟩
      · exact ⟨_, _, rfl⟩
    · exact ih false (i + 1) ln hln

theorem openLines_opn (ae : AclE) (els : Bool) (l : ℕ) : ∀ ln ∈ openLines ae els l, ∃ e c, ln = .opn e c := by
  intro ln hln
  rcases List.mem_append.mp hln with hln | hln
  · exact wholeLines_opn ae _ _ _ ln hln
  · split_ifs at hln
    · rw [List.mem_singleton] at hln
      exact ⟨_, _, hln⟩
    · simp at hln

theorem leafLines_flat (acln : String) (anon : Bool) (ae : AclE) :
    ∀ ln ∈ leafLines acln anon ae, (∃ v, ln = .ret v) ∨ ∃ f, ln = .call f := by
  intro ln hln
  rcases List.mem_append.mp hln with hln | hln
  · split_ifs at hln
    · simp at hln
    · exact Or.inr ⟨_, List.mem_singleton.mp hln⟩
  · exact Or.inl ⟨_, List.mem_singleton.mp hln⟩

/-- The first compare carries the `else`, the others do not depend on it. -/
theorem openLines_cons (ae : AclE) {l : ℕ} (h : l * 8 < ae.mask) : ∃ c tl, ∀ els, openLines ae els l = .opn els c :: tl := by
  cases hk : (ae.mask - l * 8) / 8 with
  | zero =>
    refine ⟨.masked (l - 1) (topMask ((ae.mask - l * 8) % 8)) (ae.byte l &&& topMask ((ae.mask - l * 8) % 8)), [],
      fun els => ?_⟩
    rw [openLines, if_pos (by omega), hk]
    simp [wholeLines, fracLine]
  | succ k =>
    obtain ⟨c, hc⟩ : ∃ c, ∀ els, wholeLine ae els l = .opn els c := by
      unfold wholeLine
      split_ifs
      · exact ⟨_, fun _ => rfl⟩
      · exact ⟨_, fun _ => rfl⟩
    refine ⟨c, openLines ae false (l + 1), fun els => ?_⟩
    have hm : ae.mask - (l + 1) * 8 = ae.mask - l * 8 - 8 := by omega
    have hk' : (ae.mask - l * 8 - 8) / 8 = k := by omega
    have hr : (ae.mask - l * 8 - 8) % 8 = (ae.mask - l * 8) % 8 := by omega
    rw [openLines, openLines, hm, hk', hr, hk, wholeLines, hc els]
    simp [show l + (k + 1) = l + 1 + k by omega]

/-- The returns are executed where no block is skipped. -/
theorem exec_leaf_run (acln : String) (anon : Bool) (ae : AclE) (s : ℕ) :
    cExec (AclCond.holds x) (.run s) (leafLines acln anon ae) = .done !ae.not := by
  unfold leafLines
  cases anon <;> rfl

theorem exec_leaf_after (acln : String) (anon : Bool) (ae : AclE) (s : ℕ) (t : Bool) :
    cExec (AclCond.holds x) (.after s t) (leafLines acln anon ae) = .done !ae.not := by
  unfold leafLines
  cases anon <;> rfl

/-- Containment, byte by byte. -/
theorem contains_iff_bytes : ae.Contains x ↔ (∀ j < ae.mask / 8, ae.byte j = x.byte j) ∧
    (ae.mask % 8 ≠ 0 → x.byte (ae.mask / 8) &&& topMask (ae.mask % 8)
      = ae.byte (ae.mask / 8) &&& topMask (ae.mask % 8)) := by
  have hm : 8 * (ae.mask / 8) + ae.mask % 8 = ae.mask := Nat.div_add_mod _ 8
  have hlt : ae.mask % 8 < 8 := Nat.mod_lt _ (by omega)
  have hwhole : Agree ae.bits x.bits (8 * (ae.mask / 8)) ↔ ∀ j < ae.mask / 8, ae.byte j = x.byte j := agree_whole
  have hnum : ∀ d : ℕ → UInt8, pnum (bitOf d) ae.mask = pnum (bitOf d) (8 * (ae.mask / 8)) * 2 ^ (ae.mask % 8)
      + (d (ae.mask / 8)).toNat / 2 ^ (8 - ae.mask % 8) := fun d => by
    rw [← pnum_byte d _ _ hlt.le, hm]
  by_cases h0 : ae.mask % 8 = 0
  · have : 8 * (ae.mask / 8) = ae.mask := by omega
    rw [← hwhole, this]
    exact ⟨fun h => ⟨h, fun h' => absurd h0 h'⟩, fun h => h.1⟩
  · rw [and_topMask_eq_iff _ _ hlt]
    constructor
    · intro h
      have hb := hwhole.mp (h.mono (by omega))
      refine ⟨hb, fun _ => ?_⟩
      have e1 := agree_iff_pnum.mp h
      have e2 := agree_iff_pnum.mp (hwhole.mpr hb)
      unfold AclE.bits Addr.bits at e1 e2
      rw [hnum, hnum, e2] at e1
      omega
    · rintro ⟨hb, hf⟩
      have e2 := agree_iff_pnum.mp (hwhole.mpr hb)
      refine agree_iff_pnum.mpr ?_
      unfold AclE.bits Addr.bits at e2 ⊢
      rw [hnum, hnum, e2, hf h0]

/-- Whole byte compares from level `i` on: all pass, or the first that fails skips the rest. -/
theorem exec_whole (ae : AclE) (x : Addr) : ∀ k i,
    ((∀ j, i ≤ j → j < i + k → ae.byte j = x.byte j) ∧
      cExec (AclCond.holds x) (.run i) (wholeLines ae false k i) = .run (i + k)) ∨
    ∃ s, i ≤ s ∧ s < i + k ∧ (∀ j, i ≤ j → j < s → ae.byte j = x.byte j) ∧ ae.byte s ≠ x.byte s ∧
      cExec (AclCond.holds x) (.run i) (wholeLines ae false k i) = .skip s (i + k - 1 - s) false
  | 0, i => Or.inl ⟨fun j h1 h2 => by omega, rfl⟩
  | k + 1, i => by
    obtain ⟨c, hc, hh⟩ := wholeLine_opn ae x false i
    have hstep : cExec (AclCond.holds x) (.run i) (wholeLines ae false (k + 1) i) =
        cExec (AclCond.holds x) (if x.byte i = ae.byte i then .run (i + 1) else .skip i 0 false)
          (wholeLines ae false k (i + 1)) := by
      rw [wholeLines, hc, cExec_cons, cStep, cRun, hh]
      simp
    rw [hstep]
    by_cases hb : x.byte i = ae.byte i
    · rw [if_pos hb]
      have hi : ∀ {s}, (∀ j, i + 1 ≤ j → j < s → ae.byte j = x.byte j) →
          ∀ j, i ≤ j → j < s → ae.byte j = x.byte j := by
        intro s h j hj hj'
        rcases Nat.eq_or_lt_of_le hj with rfl | hj
        · exact hb.symm
        · exact h j hj hj'
      rcases exec_whole ae x k (i + 1) with ⟨h1, h2⟩ | ⟨s, h1, h2, h3, h4, h5⟩
      · left
        rw [show i + (k + 1) = i + 1 + k by omega]
        exact ⟨hi h1, h2⟩
      · right
        rw [show i + (k + 1) = i + 1 + k by omega]
        exact ⟨s, by omega, h2, hi h3, h4, h5⟩
    · right
      rw [if_neg hb]
      refine ⟨i, le_rfl, by omega, fun j h1 h2 => by omega, fun h => hb h.symm, ?_⟩
      rw [cExec_skip_opns (wholeLines_opn ae _ _ _), wholeLines_length]
      congr 1
      omega

/-- All compares from level `l` on, where `l` is not past the byte in which the mask ends: all pass and `ae`
contains `x`, or the first that fails skips the rest. -/
theorem exec_open {l : ℕ} (hl : l ≤ ae.mask / 8) (h8 : 8 ≤ ae.mask) (hpre : ∀ j < l, ae.byte j = x.byte j) :
    (ae.Contains x ∧ cExec (AclCond.holds x) (.run l) (openLines ae false l) = .run ((ae.mask + 7) / 8)) ∨
    (¬ ae.Contains x ∧ ∃ s, l ≤ s ∧ s < (ae.mask + 7) / 8 ∧ (∀ j < s, ae.byte j = x.byte j) ∧
      (s < ae.mask / 8 → ae.byte s ≠ x.byte s) ∧
      cExec (AclCond.holds x) (.run l) (openLines ae false l) = .skip s ((ae.mask + 7) / 8 - 1 - s) false) := by
  have hk : l + (ae.mask - l * 8) / 8 = ae.mask / 8 := by omega
  have hr : (ae.mask - l * 8) % 8 = ae.mask % 8 := by omega
  have hjoin : ∀ {s}, (∀ j, l ≤ j → j < s → ae.byte j = x.byte j) → ∀ j < s, ae.byte j = x.byte j := by
    intro s h j hj
    rcases Nat.lt_or_ge j l with hj' | hj'
    · exact hpre j hj'
    · exact h j hj' hj
  rw [contains_iff_bytes, openLines, cExec_append, hk, hr, Bool.false_and]
  rcases exec_whole ae x ((ae.mask - l * 8) / 8) l with ⟨h1, h2⟩ | ⟨s, h1, h2, h3, h4, h5⟩
  · rw [h2, hk]
    rw [hk] at h1
    by_cases h0 : ae.mask % 8 = 0
    · left
      rw [if_neg (by omega)]
      refine ⟨⟨hjoin h1, fun h => absurd h0 h⟩, ?_⟩
      rw [cExec_nil]
      congr 1
      omega
    · rw [if_pos (by omega)]
      have hfrac : cExec (AclCond.holds x) (.run (ae.mask / 8)) [fracLine ae false (ae.mask / 8) (ae.mask % 8)] =
          if x.byte (ae.mask / 8) &&& topMask (ae.mask % 8) = ae.byte (ae.mask / 8) &&& topMask (ae.mask % 8)
          then .run (ae.mask / 8 + 1) else .skip (ae.mask / 8) 0 false := by
        rw [fracLine, cExec_cons, cExec_nil, cStep, cRun, AclCond.holds, show ae.mask / 8 - 1 + 1 = ae.mask / 8 by omega]
        simp
      rw [hfrac]
      split_ifs with hb
      · left
        refine ⟨⟨hjoin h1, fun _ => hb⟩, ?_⟩
        congr 1
        omega
      · right
        refine ⟨fun h => hb (h.2 h0), ae.mask / 8, hl, by omega, hjoin h1, fun h => absurd h (lt_irrefl _), ?_⟩
        congr 1
        omega
  · right
    rw [hk] at h2 h5
    refine ⟨fun h => h4 (h.1 s h2), s, h1, by omega, hjoin h3, fun _ => h4, ?_⟩
    rw [h5, cExec_skip_opns (fun ln hln => ?_)]
    · congr 1
      split_ifs <;> simp only [List.length_singleton, List.length_nil] <;> omega
    · split_ifs at hln
      · exact ⟨_, _, List.mem_singleton.mp hln⟩
      · simp at hln

end Lines

/-! ## One round of the loop -/

section Round

variable {x : Addr} {before : List AclE} {st : EmitSt} {ae : AclE} {md : CMode Bool}

/-- The control flow for `x` after the entries `before`, none of which returned: it passes over the block of level
`s`, the blocks around it are those of `x`, and `t` says whether a whole byte compare held in the chain of level
`s`. -/
def SkipOk (x : Addr) (before : List AclE) (st : EmitSt) (md : CMode Bool) : Prop :=
  ∃ s n t, md = .skip s n t ∧ s + 1 + n = st.depth ∧ (∀ j < s, st.vals j = (x.byte j).toNat) ∧
    (t = true ↔ Shadow before x s) ∧ st.vals s ≠ (x.byte s).toNat

/-- The control flow before the next round. -/
def FlowOk (x : Addr) (before : List AclE) (st : EmitSt) (md : CMode Bool) : Prop :=
  (before = [] ∧ md = .run 0) ∨ SkipOk x before st md

theorem Shadow.mono {s s' : ℕ} (h : Shadow before x s') (hs : s ≤ s') : Shadow before x s := by
  obtain ⟨q, hq, hm, hb⟩ := h
  exact ⟨q, hq, by omega, fun j hj => hb j (by omega)⟩

theorem shadow_cons {s : ℕ} : Shadow (ae :: before) x s ↔
    (8 * (s + 1) ≤ ae.mask ∧ ∀ j < s + 1, ae.byte j = x.byte j) ∨ Shadow before x s := by
  simp [Shadow]

/-- The variables at the common levels are kept, those of new whole bytes are the bytes of `ae`. -/
theorem emitSt_vals {l : ℕ} (hl : commonPrefix ae st.vals st.depth 0 = l) (j : ℕ) :
    (j < l → (emitSt st ae).vals j = st.vals j) ∧
    (l ≤ j → j < ae.mask / 8 → (emitSt st ae).vals j = (ae.byte j).toNat) ∧
    (ae.mask % 8 ≠ 0 → l ≤ ae.mask / 8 → (emitSt st ae).vals (ae.mask / 8) = 256) := by
  subst hl
  simp only [emitSt]
  refine ⟨fun h => ?_, fun h1 h2 => ?_, fun h1 h2 => ?_⟩
  · rw [if_neg (by omega), if_neg (by omega)]
  · rw [if_pos (by omega)]
  · rw [if_neg (by omega), if_pos (by omega)]

theorem emitSt_depth (hv : VarsOk before st) : (emitSt st ae).depth = (ae.mask + 7) / 8 := (hv.step ae).1

/-- A round that tests `x` from the first new compare on. -/
theorem round_open (acln : String) (anon : Bool) {l : ℕ} (hv : VarsOk before st)
    (hl : commonPrefix ae st.vals st.depth 0 = l) (h8 : 8 ≤ ae.mask) (hlt : l * 8 < ae.mask)
    (hpre : ∀ j < l, st.vals j = (x.byte j).toNat) (hns : ¬ Shadow before x l)
    (hmd : md = cExec (AclCond.holds x) (.run l) (openLines ae false l ++ leafLines acln anon ae)) :
    (ae.Contains x ∧ ¬ cutOff before ae x ∧ md = .done !ae.not) ∨
    (¬ ae.Contains x ∧ SkipOk x (ae :: before) (emitSt st ae) md) := by
  have hp := commonPrefix_ok ae st.vals st.depth
  rw [hl] at hp
  have hbytes : ∀ j < l, ae.byte j = x.byte j := fun j hj => by
    rw [← UInt8.toNat_inj, hp.eq j hj, hpre j hj]
  rw [cExec_append] at hmd
  rcases exec_open (by omega) h8 hbytes with ⟨hc, he⟩ | ⟨hc, s, h1, h2, h3, h4, he⟩
  · left
    refine ⟨hc, ?_, by rw [hmd, he, exec_leaf_run]⟩
    rintro ⟨hf, hcut⟩
    have hmis : ¬ misplaced before ae = true := fun h => by
      have := (misplaced_iff hv hf).mp h
      omega
    rw [if_neg hmis] at hcut
    exact hns (hcut.mono (by omega))
  · right
    refine ⟨hc, s, _, false, by rw [hmd, he, cExec_skip_flat (leafLines_flat acln anon ae)], ?_, fun j hj => ?_, ?_, ?_⟩
    · rw [emitSt_depth hv]; omega
    · rw [← h3 j hj]
      rcases Nat.lt_or_ge j l with hj' | hj'
      · rw [(emitSt_vals hl j).1 hj', hp.eq j hj']
      · exact (emitSt_vals hl j).2.1 hj' (by omega)
    · rw [shadow_cons]
      simp only [Bool.false_eq_true, false_iff, not_or]
      exact ⟨fun ⟨hm, hb⟩ => h4 (by omega) (hb s (by omega)), fun h => hns (h.mono h1)⟩
    · rcases Nat.lt_or_ge s (ae.mask / 8) with hs | hs
      · rw [(emitSt_vals hl s).2.1 h1 hs]
        exact fun h => h4 hs (UInt8.toNat_inj.mp h)
      · obtain rfl : s = ae.mask / 8 := by omega
        rw [(emitSt_vals hl 0).2.2 (by omega) h1]
        have := toNat_lt_256 (x.byte (ae.mask / 8))
        omega

/-- An address that is in a whole byte block of `before` at level `s` but not in that of the last entry is not in
that of the next entry either: the entries of one block stand together. -/
theorem next_byte_ne {s : ℕ} (hv : VarsOk before st) (hs : (ae :: before).Pairwise fun a b => b.Lt a)
    (hsh : Shadow before x s) (hne : st.vals s ≠ (x.byte s).toNat) (hm : 8 * (s + 1) ≤ ae.mask)
    (hpre : ∀ j < s, ae.byte j = x.byte j) : ae.byte s ≠ x.byte s := by
  intro hb
  have hae : Agree ae.bits x.bits (8 * (s + 1)) := agree_whole.mpr fun j hj => by
    rcases Nat.lt_succ_iff_lt_or_eq.mp hj with hj | rfl
    · exact hpre j hj
    · exact hb
  obtain ⟨q, hq, hqm, hqb⟩ := hsh
  cases before with
  | nil => simp at hq
  | cons p rest =>
    obtain ⟨-, hw, -⟩ := hv
    obtain ⟨hpa, hs'⟩ := List.pairwise_cons.mp hs
    -- the last entry `p` has this whole byte as well
    have hp : 8 * (s + 1) ≤ p.mask ∧ p.byte s = x.byte s := by
      rcases List.mem_cons.mp hq with rfl | hq
      · exact ⟨hqm, hqb s (by omega)⟩
      · have hqx : Agree q.bits x.bits (8 * (s + 1)) := agree_whole.mpr hqb
        obtain ⟨h1, h2⟩ := plt_between ((List.pairwise_cons.mp hs').1 q hq) (hpa p (by simp)) hqm hm
          (hqx.trans hae.symm)
        exact ⟨h1, agree_whole.mp (h2.trans hae) s (by omega)⟩
    exact hne (by rw [hw s (by omega), hp.2])

/-- A round whose first new compare is an `else` after a block that was entered. -/
theorem round_else {acln : String} {anon : Bool} {l : ℕ} (hv : VarsOk before st)
    (hl : commonPrefix ae st.vals st.depth 0 = l) (hlt : l * 8 < ae.mask)
    (hpre : ∀ j < l, st.vals j = (x.byte j).toNat) (hsh : Shadow before x l)
    (hne : 8 * (l + 1) ≤ ae.mask → ae.byte l ≠ x.byte l)
    (hmd : md = cExec (AclCond.holds x) (.after l true) (openLines ae true l ++ leafLines acln anon ae)) :
    ¬ (ae.Contains x ∧ ¬ cutOff before ae x) ∧ SkipOk x (ae :: before) (emitSt st ae) md := by
  obtain ⟨c, tl, hopen⟩ := openLines_cons ae hlt
  have hlen := openLines_length ae (l := l) true (by omega)
  have hopn := openLines_opn ae true l
  rw [hopen, List.length_cons] at hlen
  rw [hopen] at hopn
  have hmd' : md = .skip l tl.length true := by
    rw [hmd, cExec_append, hopen, cExec_cons]
    have : cStep (AclCond.holds x) (.after l true) (.opn true c : Line) = .skip l 0 true := rfl
    rw [this, cExec_skip_opns (fun ln hln => hopn ln (by simp [hln])), Nat.zero_add,
      cExec_skip_flat (leafLines_flat acln anon ae)]
  refine ⟨fun ⟨hc, hcut⟩ => ?_, l, tl.length, true, hmd', ?_, fun j hj => ?_, ?_, ?_⟩
  · rcases Nat.lt_or_ge l (ae.mask / 8) with h | h
    · exact hne (by omega) ((contains_iff_bytes.mp hc).1 l h)
    · obtain rfl : l = ae.mask / 8 := by omega
      have hf : ae.mask % 8 ≠ 0 := by omega
      refine hcut ⟨hf, ?_⟩
      rw [if_neg (fun h => by have := (misplaced_iff hv hf).mp h; omega)]
      exact hsh
  · rw [emitSt_depth hv]; omega
  · rw [(emitSt_vals hl j).1 hj, hpre j hj]
  · rw [shadow_cons]
    exact ⟨fun _ => Or.inr hsh, fun _ => rfl⟩
  · rcases Nat.lt_or_ge l (ae.mask / 8) with h | h
    · rw [(emitSt_vals hl l).2.1 le_rfl h]
      exact fun h' => hne (by omega) (UInt8.toNat_inj.mp h')
    · obtain rfl : l = ae.mask / 8 := by omega
      rw [(emitSt_vals hl 0).2.2 (by omega) le_rfl]
      have := toNat_lt_256 (x.byte (ae.mask / 8))
      omega

/-- **One round**: it returns the verdict of `ae` if `ae` contains `x` and is not cut off; if not, the description of
the control flow carries over. -/
theorem emit_step (acln : String) (anon : Bool) (hv : VarsOk before st) (hf : FlowOk x before st md)
    (hs : (ae :: before).Pairwise fun a b => b.Lt a) (h8 : 8 ≤ ae.mask) :
    (ae.Contains x ∧ ¬ cutOff before ae x ∧
      cExec (AclCond.holds x) md (emitLines acln anon st ae) = .done !ae.not) ∨
    (¬ (ae.Contains x ∧ ¬ cutOff before ae x) ∧
      SkipOk x (ae :: before) (emitSt st ae) (cExec (AclCond.holds x) md (emitLines acln anon st ae))) := by
  have hp := commonPrefix_ok ae st.vals st.depth
  generalize hl : commonPrefix ae st.vals st.depth 0 = l at hp
  rw [emitLines_eq acln anon st ae hl, cExec_append]
  rcases hf with ⟨rfl, rfl⟩ | ⟨s, n, t, rfl, hd, hpre, ht, hne⟩
  · -- the first entry: nothing to close
    have h0 : st.depth = 0 := hv
    obtain rfl : l = 0 := by have := hp.le; omega
    rw [h0]
    have hns : ¬ Shadow [] x 0 := by simp [Shadow]
    exact (round_open acln anon hv hl h8 (by omega) (by simp) hns rfl).imp id
      (fun h => ⟨fun hc => h.1 hc.1, h.2⟩)
  · rcases Nat.lt_or_ge s l with hsl | hls
    · -- `ae` is printed into the block that is passed over
      right
      rw [cExec_append, cExec_skip_closes (by omega), cExec_skip_opns (openLines_opn ae _ _),
        cExec_skip_flat (leafLines_flat acln anon ae), openLines_length ae _ (by have := hp.start; omega)]
      have hae : (ae.byte s).toNat ≠ (x.byte s).toNat := by rw [hp.eq s hsl]; exact hne
      refine ⟨fun ⟨hc, hcut⟩ => ?_, s, _, t, rfl, ?_, fun j hj => ?_, ?_, ?_⟩
      · rcases Nat.lt_or_ge s (ae.mask / 8) with h | h
        · exact hae (by rw [(contains_iff_bytes.mp hc).1 s h])
        · have hfr : ae.mask % 8 ≠ 0 := by have := hp.start; omega
          obtain rfl : s = ae.mask / 8 := by have := hp.start; omega
          refine hcut ⟨hfr, ?_⟩
          rw [if_pos ((misplaced_iff hv hfr).mpr (by rw [hl]; exact hsl))]
          exact fun h => hae (by rw [h])
      · have := hp.le
        have := hp.start
        rw [emitSt_depth hv]; omega
      · rw [(emitSt_vals hl j).1 (by omega), hpre j hj]
      · rw [shadow_cons, ht]
        exact ⟨Or.inr, fun h => h.resolve_left fun h' => hae (by rw [h'.2 s (by omega)])⟩
      · rw [(emitSt_vals hl s).1 hsl]; exact hne
    · -- the block is closed, and the entered ones down to level `l`
      have hcl : st.depth - l = n + 1 + (s - l) := by omega
      have hbytes : ∀ j < l, ae.byte j = x.byte j := fun j hj => by
        rw [← UInt8.toNat_inj, hp.eq j hj, hpre j (by omega)]
      rw [hcl, cExec_skip_closes_all (by omega)]
      rcases Nat.lt_or_ge (l * 8) ae.mask with hlt | hge
      · have hels : decide (l < st.depth) = true := by simp; omega
        rw [hels]
        rcases Nat.eq_or_lt_of_le hls with rfl | hls
        · rw [Nat.sub_self, if_pos rfl]
          cases t with
          | true =>
            right
            exact round_else hv hl hlt hpre (ht.mp rfl)
              (fun hm => next_byte_ne hv hs (ht.mp rfl) hne hm hbytes) rfl
          | false =>
            obtain ⟨c, tl, hopen⟩ := openLines_cons ae hlt
            have hsame : cExec (AclCond.holds x) (.after l false) (openLines ae true l ++ leafLines acln anon ae)
                = cExec (AclCond.holds x) (.run l) (openLines ae false l ++ leafLines acln anon ae) := by
              rw [hopen, hopen]; rfl
            rw [hsame]
            have hns : ¬ Shadow before x l := fun h => by have := ht.mpr h; cases this
            exact (round_open acln anon hv hl h8 hlt hpre hns rfl).imp id
              (fun h => ⟨fun hc => h.1 hc.1, h.2⟩)
        · -- a block of level `l` was entered: the last entry is in it
          rw [if_neg (by omega), show s - (s - l) = l by omega]
          right
          have hvl : (ae.byte l).toNat ≠ (x.byte l).toNat := by
            rw [← hpre l hls]
            rcases hp.stop (by omega) with h | h
            · omega
            · exact h
          refine round_else hv hl hlt (fun j hj => hpre j (by omega)) ?_ (fun _ h => hvl (by rw [h])) rfl
          cases before with
          | nil => have h0 : st.depth = 0 := hv; omega
          | cons p rest =>
            obtain ⟨h1, h2, -⟩ := hv
            refine ⟨p, by simp, by omega, fun j hj => ?_⟩
            rw [← UInt8.toNat_inj, ← h2 j (by omega), hpre j (by omega)]
      · -- no new compare: the return of `ae` is executed
        left
        have hnil : openLines ae (decide (l < st.depth)) l = [] := by
          rw [← List.length_eq_zero_iff, openLines_length ae _ (by have := hp.start; omega)]
          omega
        refine ⟨contains_iff_bytes.mpr ⟨fun j hj => hbytes j (by omega), fun hfr => ?_⟩, ?_, ?_⟩
        · rw [hbytes _ (by omega)]
        · rintro ⟨hfr, hcut⟩
          rw [if_pos ((misplaced_iff hv hfr).mpr (by omega))] at hcut
          exact hcut (hbytes _ (by omega)).symm
        · rw [hnil, List.nil_append]
          split_ifs
          · exact exec_leaf_after acln anon ae _ _
          · exact exec_leaf_after acln anon ae _ _

end Round

/-! ## The whole loop -/

section Loop

variable {x : Addr}

/-- Closing all blocks and the lines after the loop: the default. -/
theorem exec_default (acln : String) (anon : Bool) {before : List AclE} {st : EmitSt} {md : CMode Bool}
    (hv : VarsOk before st) (hf : FlowOk x before st md) :
    cExec (AclCond.holds x) md (List.replicate st.depth .close ++ defaultLines acln anon) = .done false := by
  rw [cExec_append]
  have htail : ∀ (r : CMode Bool), (∃ s, r = .run s) ∨ (∃ s t, r = .after s t) →
      cExec (AclCond.holds x) r (defaultLines acln anon) = .done false := by
    rintro r (⟨s, rfl⟩ | ⟨s, t, rfl⟩) <;> cases anon <;> rfl
  rcases hf with ⟨rfl, rfl⟩ | ⟨s, n, t, rfl, hd, -⟩
  · have h0 : st.depth = 0 := hv
    rw [h0]
    exact htail _ (Or.inl ⟨0, rfl⟩)
  · rw [← hd, show s + 1 + n = n + 1 + s by omega, cExec_skip_closes_all le_rfl]
    split_ifs
    · exact htail _ (Or.inr ⟨_, _, rfl⟩)
    · exact htail _ (Or.inr ⟨_, _, rfl⟩)

/-- **The loop**: from any round on, the matcher returns the verdict of the first entry to come that contains `x`
and is not cut off. -/
theorem emitLoop_exec (acln : String) (anon : Bool) : ∀ (acl before : List AclE) (st : EmitSt) (md : CMode Bool),
    VarsOk before st → FlowOk x before st md → Sorted (before.reverse ++ acl) → (∀ ae ∈ acl, 8 ≤ ae.mask) →
    cExec (AclCond.holds x) md (emitLoop acln anon st acl ++ defaultLines acln anon)
      = .done (verdict (firstReached x before acl))
  | [], before, st, md, hv, hf, _, _ => exec_default acln anon hv hf
  | ae :: rest, before, st, md, hv, hf, hs, h8 => by
    have hs' : (ae :: before).Pairwise fun a b => b.Lt a := by
      rw [← List.pairwise_reverse, List.reverse_cons]
      refine hs.sublist (List.Sublist.append_left ?_ _)
      exact List.singleton_sublist.mpr (by simp)
    rw [emitLoop, List.append_assoc, cExec_append, firstReached]
    rcases emit_step acln anon hv hf hs' (h8 ae (by simp)) with ⟨h1, h2, h3⟩ | ⟨h1, h2⟩
    · rw [h3, cExec_done, if_pos ⟨h1, h2⟩]
      rfl
    · rw [if_neg h1]
      refine emitLoop_exec acln anon rest (ae :: before) (emitSt st ae) _ (hv.step ae) (Or.inr h2) ?_
        (fun ae' h => h8 ae' (by simp [h]))
      simpa using hs

/-- The matcher of a sorted list. -/
theorem matchAcl_emit (acln : String) (anon : Bool) {acl : List AclE} (hs : Sorted acl)
    (h8 : ∀ ae ∈ acl, 8 ≤ ae.mask) (x : Addr) :
    matchAcl (vccAclEmit acln anon acl) x = some (verdict (firstReached x [] acl)) := by
  have := emitLoop_exec (x := x) acln anon acl [] { depth := 0, vals := fun _ => 256 } (.run 0) rfl
    (Or.inl ⟨rfl, rfl⟩) (by simpa using hs) h8
  rw [matchAcl, vccAclEmit, this]

end Loop

end Varnish.Acl
