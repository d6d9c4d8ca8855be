import Mathlib.Algebra.Group.Nat.Defs
import Mathlib.Data.List.Perm.Lattice
import Mathlib.Order.Lattice
import Varnish.Lib.Run
import Varnish.Lib.Tailq

/-!
# Varnish.Vbe.Saint — the trouble list of a backend (`VRT_l_beresp_saintmode`, `vbe_Healthy`)

Times are in a linear order, an object head is its address, and 0 is none.

* `vrtLBerespSaintmode`, `vbeHealthy`: the two functions.
* `entry`: the entry that a call is about.  `History`, `step`: a backend with all the entries that were ever added, and the last
  time it was asked at.
* `Inv`, `inv_step`: the entries that are gone are over.
* `saint_mode`: in every run the list is in order, and the answer is what the entries ever added say.
-/

namespace Varnish.Saint

open Varnish.Lib

/-! ## The functions -/

section Functions

variable {T : Type} [LinearOrder T] [Add T] [Zero T]

/-- `struct trouble` -/
structure Trouble (T : Type) where
  target : ℕ
  timeout : T

/-- What these functions use of `struct backend`. -/
structure Backend (T : Type) where
  healthy : Bool
  troublelist : List (Trouble T)
  saintmodeThreshold : UInt32

/-- What the VCL action uses of the session: the backend is the one of `sp->vbe`, when there is one. -/
structure Sess (T : Type) where
  vbe : Bool
  backend : Bool
  objhead : ℕ
  tReq : T

/-- The entry goes before the first one whose timeout is earlier, or to the end. -/
def insertTrouble (new : Trouble T) (l : List (Trouble T)) : List (Trouble T) :=
  Tailq.insertWhile (fun tr => ¬ tr.timeout < new.timeout) new l

/-- `VRT_l_beresp_saintmode`: the entry that is added to the list; `none` is a failed assertion. -/
def vrtLBerespSaintmode (sp : Sess T) (a : T) : Option (Option (Trouble T)) :=
  if ¬ sp.vbe then some none
  else if ¬ sp.backend then some none
  else if sp.objhead = 0 then some none
  else if 0 < a then some (some { target := sp.objhead, timeout := sp.tReq + a })
  else none

/-- The loop over the list: the answer, and the list without the entry that is removed. -/
def scan (now : T) (target : ℕ) (threshold : UInt32) : UInt32 → List (Trouble T) → Bool × List (Trouble T)
  | _, [] => (true, [])
  | i, tr :: l =>
    if tr.timeout < now then (true, l)
    else if tr.target = target then (false, tr :: l)
    else if threshold ≤ i + 1 then (false, tr :: l)
    else ((scan now target threshold (i + 1) l).1, tr :: (scan now target threshold (i + 1) l).2)

/-- The threshold that is used; `UINT_MAX` is for the parameter. -/
def thresholdOf (params : UInt32) (b : Backend T) : UInt32 :=
  if b.saintmodeThreshold = UInt32.ofNat (2 ^ 32 - 1) then params else b.saintmodeThreshold

/-- `vbe_Healthy` -/
def vbeHealthy (params : UInt32) (now : T) (target : ℕ) (b : Backend T) : Bool × Backend T :=
  if ¬ b.healthy then (false, b)
  else if thresholdOf params b = 0 then (true, b)
  else if target = 0 then (true, b)
  else
    let r := scan now target (thresholdOf params b) 0 b.troublelist
    (r.1, { b with troublelist := r.2 })

end Functions

/-! ## Runs -/

section Runs

variable {T : Type} [LinearOrder T] [Add T] [Zero T]

/-- A backend, the entries that were ever added, and the last time of a question. -/
structure History (T : Type) where
  backend : Backend T
  added : List (Trouble T)
  last : Option T

/-- What is done to a backend.  The probe sets `healthy`. -/
inductive Act (T : Type)
  | saintmode (sp : Sess T) (a : T)
  | healthy (params : UInt32) (now : T) (target : ℕ)
  | probe (healthy : Bool)

def Backend.insert (b : Backend T) (tr : Trouble T) : Backend T :=
  { b with troublelist := insertTrouble tr b.troublelist }

def add (h : History T) (tr : Trouble T) : History T :=
  { h with backend := h.backend.insert tr, added := tr :: h.added }

/-- The entry that a call is about: the object head has no luck with the backend for `a` from the request on. -/
def entry (sp : Sess T) (a : T) : Option (Trouble T) :=
  if sp.vbe ∧ sp.backend ∧ sp.objhead ≠ 0 then some { target := sp.objhead, timeout := sp.tReq + a } else none

def step (h : History T) : Act T → Option (History T)
  | .saintmode sp a => (vrtLBerespSaintmode sp a).map fun new =>
    { h with backend := new.elim h.backend h.backend.insert, added := (entry sp a).toList ++ h.added }
  | .healthy params now target => some { h with backend := (vbeHealthy params now target h.backend).2, last := some now }
  | .probe healthy => some { h with backend := { h.backend with healthy } }

/-- Questions are at non-decreasing times, about an object head, and with a threshold. -/
def Allowed (h : History T) : Act T → Prop
  | .healthy params now target => (∀ t ∈ h.last, t ≤ now) ∧ target ≠ 0 ∧ 0 < thresholdOf params h.backend
  | _ => True

/-- A new backend. -/
def created (healthy : Bool) (saintmodeThreshold : UInt32) : History T :=
  { backend := { healthy, troublelist := [], saintmodeThreshold }, added := [], last := none }

/-- Descending timeouts. -/
def Sorted (l : List (Trouble T)) : Prop := l.Pairwise fun tr tr' => tr'.timeout ≤ tr.timeout

/-- The entries that are not over. -/
def live (now : T) (l : List (Trouble T)) : List (Trouble T) := l.filter fun tr => now ≤ tr.timeout

/-- What the entries ever added say about a target. -/
def HealthyFor (h : History T) (params : UInt32) (now : T) (target : ℕ) : Prop :=
  h.backend.healthy = true ∧ (∀ tr ∈ h.added, tr.target = target → ¬ now ≤ tr.timeout) ∧
    (live now h.added).length < (thresholdOf params h.backend).toNat

end Runs

/-! ## The loop -/

section Scan

variable {T : Type} [LinearOrder T] {now : T} {target : ℕ} {threshold i : UInt32} {l : List (Trouble T)} {tr : Trouble T}

/-- Behind an entry that is over all the entries are over. -/
theorem live_eq_nil (hs : Sorted (tr :: l)) (hlt : tr.timeout < now) : live now (tr :: l) = [] := by
  refine List.filter_eq_nil_iff.mpr fun x hx => ?_
  rw [decide_eq_true_eq, not_le]
  rcases List.mem_cons.mp hx with rfl | hx
  · exact hlt
  · exact lt_of_le_of_lt ((List.pairwise_cons.mp hs).1 x hx) hlt

theorem not_le_of_over (hs : Sorted (tr :: l)) (hlt : tr.timeout < now) : ∀ x ∈ tr :: l, ¬ now ≤ x.timeout := by
  intro x hx hle
  have hmem : x ∈ live now (tr :: l) := List.mem_filter.mpr ⟨hx, decide_eq_true hle⟩
  rw [live_eq_nil hs hlt] at hmem
  exact absurd hmem List.not_mem_nil

theorem toNat_succ (hi : i < threshold) : (i + 1).toNat = i.toNat + 1 := by
  have h := UInt32.lt_iff_toNat_lt.mp hi
  have hb := threshold.toNat_lt
  rw [UInt32.toNat_add, Nat.mod_eq_of_lt]
  · rfl
  · show i.toNat + 1 < 2 ^ 32
    omega

/-- The answer of the loop: `i` entries that are not over were passed before. -/
theorem scan_fst (hs : Sorted l) (hi : i < threshold) : (scan now target threshold i l).1 = true ↔
    (∀ tr ∈ l, tr.target = target → ¬ now ≤ tr.timeout) ∧ i.toNat + (live now l).length < threshold.toNat := by
  have hin := UInt32.lt_iff_toNat_lt.mp hi
  induction l generalizing i with
  | nil => exact iff_of_true rfl ⟨fun tr htr => absurd htr List.not_mem_nil, hin⟩
  | cons tr l ih =>
    rw [scan]
    by_cases hlt : tr.timeout < now
    · rw [if_pos hlt, live_eq_nil hs hlt]
      exact iff_of_true rfl ⟨fun x hx _ => not_le_of_over hs hlt x hx, hin⟩
    · have hle : now ≤ tr.timeout := not_lt.mp hlt
      have hlive : (live now (tr :: l)).length = (live now l).length + 1 := by
        rw [live, List.filter_cons_of_pos (by simpa using hle)]
        rfl
      rw [if_neg hlt, hlive]
      by_cases htg : tr.target = target
      · rw [if_pos htg]
        refine iff_of_false Bool.false_ne_true ?_
        intro h
        exact h.1 tr List.mem_cons_self htg hle
      · rw [if_neg htg]
        have hnext := toNat_succ hi
        by_cases hth : threshold ≤ i + 1
        · rw [if_pos hth]
          have hn := UInt32.le_iff_toNat_le.mp hth
          refine iff_of_false Bool.false_ne_true ?_
          intro h
          omega
        · rw [if_neg hth]
          have hi' : i + 1 < threshold := UInt32.not_le.mp hth
          have := ih (List.pairwise_cons.mp hs).2 hi' (UInt32.lt_iff_toNat_lt.mp hi')
          refine this.trans (and_congr ?_ (by omega))
          constructor
          · intro h x hx hxt
            rcases List.mem_cons.mp hx with rfl | hx
            · exact absurd hxt htg
            · exact h x hx hxt
          · intro h x hx
            exact h x (List.mem_cons_of_mem _ hx)

/-- What is left of a list when some of the entries that are over are removed. -/
def Removes (now : T) (l l' : List (Trouble T)) : Prop :=
  l'.Sublist l ∧ ∃ gone, l.Perm (l' ++ gone) ∧ ∀ tr ∈ gone, tr.timeout < now

theorem removes_refl (now : T) (l : List (Trouble T)) : Removes now l l :=
  ⟨List.Sublist.refl _, [], by rw [List.append_nil], fun _ htr => absurd htr List.not_mem_nil⟩

/-- The loop removes entries that are over. -/
theorem scan_snd (now : T) (target : ℕ) (threshold i : UInt32) (l : List (Trouble T)) :
    Removes now l (scan now target threshold i l).2 := by
  induction l generalizing i with
  | nil => exact removes_refl now []
  | cons tr l ih =>
    rw [scan]
    by_cases hlt : tr.timeout < now
    · rw [if_pos hlt]
      refine ⟨List.sublist_cons_self _ _, [tr], (List.perm_append_singleton tr l).symm, ?_⟩
      intro x hx
      rwa [List.mem_singleton.mp hx]
    · rw [if_neg hlt]
      by_cases htg : tr.target = target
      · rw [if_pos htg]
        exact removes_refl now _
      · rw [if_neg htg]
        by_cases hth : threshold ≤ i + 1
        · rw [if_pos hth]
          exact removes_refl now _
        · rw [if_neg hth]
          obtain ⟨hsub, gone, hperm, hgone⟩ := ih (i + 1)
          exact ⟨hsub.cons_cons tr, gone, hperm.cons tr, hgone⟩

end Scan

/-! ## The invariant -/

section Invariant

variable {T : Type} [LinearOrder T] {h h' : History T} {act : Act T} {params : UInt32} {now : T} {target : ℕ}

/-- The list is in order, and the entries that are gone were over when the backend was asked. -/
structure Inv (h : History T) : Prop where
  sorted : Sorted h.backend.troublelist
  gone : ∃ gone, h.added.Perm (h.backend.troublelist ++ gone) ∧ ∀ tr ∈ gone, ∃ t ∈ h.last, tr.timeout < t

theorem inv_created (healthy : Bool) (saintmodeThreshold : UInt32) : Inv (created healthy saintmodeThreshold : History T) where
  sorted := List.Pairwise.nil
  gone := ⟨[], List.Perm.refl _, fun _ htr => absurd htr List.not_mem_nil⟩

theorem sorted_insertTrouble {new : Trouble T} {l : List (Trouble T)} (hs : Sorted l) : Sorted (insertTrouble new l) := by
  refine Tailq.pairwise_insertWhile_of hs ?_ ?_
  · intro tr _ hp
    exact not_lt.mp (of_decide_eq_true hp)
  · intro tr _ hp
    have hle : tr.timeout ≤ new.timeout := le_of_lt (by simpa using hp)
    exact ⟨hle, fun x _ hx => le_trans hx hle⟩

theorem inv_add {tr : Trouble T} (hi : Inv h) : Inv (add h tr) where
  sorted := sorted_insertTrouble hi.sorted
  gone := by
    obtain ⟨gone, hperm, hgone⟩ := hi.gone
    have hins : (insertTrouble tr h.backend.troublelist).Perm (tr :: h.backend.troublelist) := Tailq.perm_insertWhile _ _ _
    exact ⟨gone, (hperm.cons tr).trans (hins.symm.append_right gone), hgone⟩

/-- A question changes the list only. -/
theorem vbeHealthy_snd (params : UInt32) (now : T) (target : ℕ) (b : Backend T) :
    ∃ l, (vbeHealthy params now target b).2 = { b with troublelist := l } ∧ Removes now b.troublelist l := by
  have hsame : ∃ l, b = { b with troublelist := l } ∧ Removes now b.troublelist l := ⟨_, rfl, removes_refl now _⟩
  rw [vbeHealthy]
  by_cases hh : b.healthy
  · rw [if_neg (not_not.mpr hh)]
    by_cases hz : thresholdOf params b = 0
    · rw [if_pos hz]
      exact hsame
    · rw [if_neg hz]
      by_cases ht : target = 0
      · rw [if_pos ht]
        exact hsame
      · rw [if_neg ht]
        exact ⟨_, rfl, scan_snd now target (thresholdOf params b) 0 b.troublelist⟩
  · rw [if_pos hh]
    exact hsame

/-- The entries that are gone say nothing any more. -/
theorem live_added (hi : Inv h) (hmono : ∀ t ∈ h.last, t ≤ now) : (live now h.added).Perm (live now h.backend.troublelist) := by
  obtain ⟨gone, hperm, hgone⟩ := hi.gone
  have hnil : live now gone = [] := by
    refine List.filter_eq_nil_iff.mpr fun tr htr => ?_
    obtain ⟨t, ht, hlt⟩ := hgone tr htr
    rw [decide_eq_true_eq, not_le]
    exact lt_of_lt_of_le hlt (hmono t ht)
  have := hperm.filter fun tr => decide (now ≤ tr.timeout)
  rw [List.filter_append] at this
  change (live now h.added).Perm (live now h.backend.troublelist ++ live now gone) at this
  rwa [hnil, List.append_nil] at this

/-- The answer, in a state of the invariant. -/
theorem vbeHealthy_fst (hi : Inv h) (ha : Allowed h (.healthy params now target)) :
    (vbeHealthy params now target h.backend).1 = true ↔ HealthyFor h params now target := by
  obtain ⟨hmono, ht, hth⟩ := ha
  have hperm := live_added hi hmono
  rw [vbeHealthy]
  by_cases hh : h.backend.healthy
  · have hz : thresholdOf params h.backend ≠ 0 := by
      intro h0
      rw [h0] at hth
      exact absurd hth (by decide)
    rw [if_neg (not_not.mpr hh), if_neg hz, if_neg ht]
    refine (scan_fst hi.sorted hth).trans ?_
    rw [HealthyFor, hperm.length_eq]
    have hall : (∀ tr ∈ h.backend.troublelist, tr.target = target → ¬ now ≤ tr.timeout) ↔
        ∀ tr ∈ h.added, tr.target = target → ¬ now ≤ tr.timeout := by
      have hmem : ∀ tr, (tr ∈ h.added ∧ now ≤ tr.timeout ↔ tr ∈ h.backend.troublelist ∧ now ≤ tr.timeout) := by
        intro tr
        have := hperm.mem_iff (a := tr)
        simpa only [live, List.mem_filter, decide_eq_true_eq] using this
      constructor
      · intro hl tr htr htg hle
        exact hl tr ((hmem tr).mp ⟨htr, hle⟩).1 htg hle
      · intro hl tr htr htg hle
        exact hl tr ((hmem tr).mpr ⟨htr, hle⟩).1 htg hle
    rw [hall]
    constructor
    · rintro ⟨h1, h2⟩
      exact ⟨hh, h1, by simpa using h2⟩
    · rintro ⟨-, h1, h2⟩
      exact ⟨h1, by simpa using h2⟩
  · rw [if_pos hh]
    exact iff_of_false Bool.false_ne_true fun hf => hh hf.1

variable [Add T] [Zero T]

/-- What is put on the list is the entry that the call is about. -/
theorem vrtLBerespSaintmode_eq {sp : Sess T} {a : T} {new : Option (Trouble T)} (hv : vrtLBerespSaintmode sp a = some new) :
    new = entry sp a := by
  rw [vrtLBerespSaintmode] at hv
  rw [entry]
  by_cases hvbe : sp.vbe
  · by_cases hbackend : sp.backend
    · by_cases hhead : sp.objhead = 0
      · rw [if_neg (not_not.mpr hvbe), if_neg (not_not.mpr hbackend), if_pos hhead] at hv
        rw [if_neg fun hall => hall.2.2 hhead]
        exact (Option.some.inj hv).symm
      · rw [if_neg (not_not.mpr hvbe), if_neg (not_not.mpr hbackend), if_neg hhead] at hv
        rw [if_pos ⟨hvbe, hbackend, hhead⟩]
        split at hv
        · exact (Option.some.inj hv).symm
        · cases hv
    · rw [if_neg (not_not.mpr hvbe), if_pos hbackend] at hv
      rw [if_neg fun hall => hbackend hall.2.1]
      exact (Option.some.inj hv).symm
  · rw [if_pos hvbe] at hv
    rw [if_neg fun hall => hvbe hall.1]
    exact (Option.some.inj hv).symm

theorem inv_step (hi : Inv h) (ha : Allowed h act) (hs : step h act = some h') : Inv h' := by
  cases act with
  | saintmode sp a =>
    obtain ⟨new, hnew, rfl⟩ := Option.map_eq_some_iff.mp hs
    rw [← vrtLBerespSaintmode_eq hnew]
    cases new with
    | none => exact hi
    | some tr => exact inv_add hi
  | healthy params now target =>
    cases hs
    obtain ⟨l, hl, hsub, gone', hperm', hgone'⟩ := vbeHealthy_snd params now target h.backend
    rw [hl]
    obtain ⟨gone, hperm, hgone⟩ := hi.gone
    refine ⟨hi.sorted.sublist hsub, gone' ++ gone, ?_, ?_⟩
    · refine hperm.trans ?_
      rw [← List.append_assoc]
      exact hperm'.append_right gone
    · intro tr htr
      refine ⟨now, rfl, ?_⟩
      rcases List.mem_append.mp htr with htr | htr
      · exact hgone' tr htr
      · obtain ⟨t, ht, hlt⟩ := hgone tr htr
        exact lt_of_lt_of_le hlt (ha.1 t ht)
  | probe healthy =>
    cases hs
    exact ⟨hi.sorted, hi.gone⟩

/-- **Saint mode**: in every run the list is in order, and a backend is healthy for a target if and only if the probe says so, no entry of the
target is left over, and fewer than the threshold are. -/
theorem saint_mode {healthy : Bool} {saintmodeThreshold : UInt32}
    (hr : Reach step Allowed (created healthy saintmodeThreshold : History T) h) :
    Sorted h.backend.troublelist ∧ ∀ params now target, Allowed h (.healthy params now target) →
      ((vbeHealthy params now target h.backend).1 = true ↔ HealthyFor h params now target) := by
  have hi : Inv h := hr.inv (inv_created healthy saintmodeThreshold) fun _ _ _ hi ha hs => inv_step hi ha hs
  refine ⟨hi.sorted, ?_⟩
  intro params now target ha
  exact vbeHealthy_fst hi ha

/-- One entry for another object head does not make a backend sick when two would. -/
theorem saint_mode_oneEntry : (vbeHealthy 0 5 8 (add (created true 2 : History ℕ) ⟨7, 10⟩).backend).1 = true ↔
    HealthyFor (add (created true 2 : History ℕ) ⟨7, 10⟩) 0 5 8 := by
  have hr : Reach step Allowed (created true 2 : History ℕ) (add (created true 2) ⟨7, 10⟩) :=
    Reach.refl.tail (.saintmode ⟨true, true, 7, 0⟩ 10) trivial rfl
  refine (saint_mode hr).2 0 5 8 ⟨?_, by decide, by decide⟩
  intro t ht
  cases ht

end Invariant

end Varnish.Saint
