import Varnish.Ses.Model

/-!
# Varnish.Ses.Runs — each session is in one place, and no queue has two users

* `Inv`: the sessions without doubles, their number, the lock, and which queue is looked at.
* `alloc_eq`, `alloc_none`: when `ses_sm_alloc` fails.
* `acc_spec`, `thr_spec`, `delete_spec`: a step of each thread goes through and keeps it.
* `reach_memory`: in every order of the steps no session is handed out twice, no two threads touch one queue, and the number of
  sessions exceeds the limit by the number of threads at most.
-/

namespace Varnish.Ses

open Varnish.Lib

/-! ## The invariant -/

section Invariant

variable {T : ℕ}

/-- The queue that is in use. -/
def AccPc.touches : AccPc → Option Bool
  | .look _ q => some q
  | .remove _ q => some q
  | _ => none

def ThrPc.touches : ThrPc → Option Bool
  | .insert _ _ q => some q
  | _ => none

/-- Behind the limit, and not counted yet. -/
def AccPc.pending : AccPc → ℕ
  | .malloc => 1
  | _ => 0

def ThrPc.pending : ThrPc → Multiset Unit
  | .malloc => {()}
  | _ => 0

def St.pending (s : St T) : ℕ := s.acc.pending + (tokens ThrPc.pending s.thr).card

structure Inv (s : St T) : Prop where
  nodup : s.places.Nodup
  count : s.nSessMem = s.places.card
  limit : s.nSessMem + s.pending ≤ s.maxSess + T
  acc : ∀ q, s.acc.touches = some q → q = s.qp
  found : ∀ sm q, s.acc = .remove sm q → sm ∈ s.free q
  flip : s.acc = .flip ↔ s.mtx = some .acceptor
  thr : ∀ t q, (s.thr t).touches = some q → q = !s.qp ∧ s.mtx = some (.thread t)

theorem pending_le (s : St T) : s.pending ≤ T + 1 := by
  have h1 : s.acc.pending ≤ 1 := by
    cases s.acc <;> simp [AccPc.pending]
  have h2 : (tokens ThrPc.pending s.thr).card ≤ T := by
    refine (card_tokens_le fun x => ?_).trans_eq (Fintype.card_fin T)
    cases x <;> simp [ThrPc.pending]
  rw [St.pending]
  omega

theorem start_inv (maxSess workspace httpHeaders : ℕ) : Inv (start T maxSess workspace httpHeaders) := by
  have hf : tokens (fun l : List ℕ => (l : Multiset ℕ)) (start T maxSess workspace httpHeaders).free = 0 :=
    Finset.sum_eq_zero fun _ _ => rfl
  have ht : tokens ThrPc.holds (start T maxSess workspace httpHeaders).thr = 0 := Finset.sum_eq_zero fun _ _ => rfl
  have hp : tokens ThrPc.pending (start T maxSess workspace httpHeaders).thr = 0 := Finset.sum_eq_zero fun _ _ => rfl
  have hplaces : (start T maxSess workspace httpHeaders).places = 0 := by
    rw [St.places, hf, ht]
    rfl
  refine ⟨by rw [hplaces]; exact Multiset.nodup_zero, by rw [hplaces]; rfl, ?_, ?_, ?_, ?_, ?_⟩
  · rw [St.pending, hp]
    simp [start, AccPc.pending]
  · intro q h
    cases h
  · intro sm q h
    cases h
  · simp [start]
  · intro t q h
    cases h

end Invariant

/-! ## The length of a session -/

section Alloc

variable {T : ℕ} {z : Sizes} {s : St T}

theorem alloc_eq (h : Fits z s) (sm : ℕ) : s.alloc z sm = some (s.add sm) := by
  rw [Fits] at h
  refine if_neg (not_not.mpr ?_)
  rw [Nat.mod_eq_of_lt (a := 2 * _) (by omega), Nat.mod_eq_of_lt (by omega)]
  omega

/-- `l` is less than what `p` goes on by. -/
theorem alloc_none (h : ¬ Fits z s) (sm : ℕ) : s.alloc z sm = none := by
  rw [Fits] at h
  refine if_pos fun he => ?_
  have hlt : z.sm + z.httpEstimate s.httpHeaders + z.httpEstimate s.httpHeaders + s.workspace < 2 ^ 32 := by
    rw [he]
    exact Nat.mod_lt _ (by decide)
  omega

end Alloc

/-! ## The acceptor -/

section Acceptor

variable {T : ℕ} {z : Sizes} {s : St T} {r : Option ℕ}

theorem Inv.not_acceptor (h : Inv s) (hn : s.acc ≠ .flip) : s.mtx ≠ some .acceptor := fun hm => hn (h.flip.mpr hm)

/-- The acceptor goes on, and touches nothing but its own part of the state. -/
theorem Inv.setAcc (h : Inv s) {acc : AccPc} (hp : acc.pending ≤ s.acc.pending) (ht : ∀ q, acc.touches = some q → q = s.qp)
    (hf : ∀ sm q, acc = .remove sm q → sm ∈ s.free q) (hc : acc = .flip ↔ s.mtx = some .acceptor) : Inv { s with acc := acc } := by
  refine ⟨h.nodup, h.count, ?_, ht, hf, hc, h.thr⟩
  have hl := h.limit
  have hle : acc.pending + (tokens ThrPc.pending s.thr).card ≤ s.acc.pending + (tokens ThrPc.pending s.thr).card :=
    Nat.add_le_add_right hp _
  exact (Nat.add_le_add_left hle _).trans hl

/-- A new session, for `out`. -/
theorem places_alloc_out (s : St T) (sm : ℕ) (acc : AccPc) :
    ({ s.add sm with out := sm :: (s.add sm).out, acc := acc } : St T).places = sm ::ₘ s.places := by
  show tokens _ s.free + ((sm :: s.out : List ℕ) : Multiset ℕ) + tokens ThrPc.holds s.thr = _
  rw [← Multiset.cons_coe, Multiset.add_cons, Multiset.cons_add]
  rfl

/-- A session goes from its queue to `out`. -/
theorem places_remove {sm : ℕ} {q : Bool} (hmem : sm ∈ s.free q) (acc : AccPc) :
    ({ s with free := Function.update s.free q ((s.free q).erase sm), out := sm :: s.out, acc := acc } : St T).places = s.places := by
  show tokens _ (Function.update s.free q ((s.free q).erase sm)) + ((sm :: s.out : List ℕ) : Multiset ℕ) +
    tokens ThrPc.holds s.thr = tokens (fun l : List ℕ => (l : Multiset ℕ)) s.free + (s.out : Multiset ℕ) + tokens ThrPc.holds s.thr
  have hu := tokens_update (fun l : List ℕ => (l : Multiset ℕ)) s.free q ((s.free q).erase sm)
  have he : ((s.free q : List ℕ) : Multiset ℕ) = {sm} + (((s.free q).erase sm : List ℕ) : Multiset ℕ) := by
    rw [← Multiset.coe_erase, Multiset.singleton_add, Multiset.cons_erase (Multiset.mem_coe.mpr hmem)]
  simp only [he, ← add_assoc] at hu
  have hu' := add_right_cancel hu
  rw [← hu', ← Multiset.cons_coe, ← Multiset.singleton_add]
  abel

theorem Inv.remove {sm : ℕ} {q : Bool} (h : Inv s) (hacc : s.acc = .remove sm q) :
    Inv { s with free := Function.update s.free q ((s.free q).erase sm), out := sm :: s.out, acc := .idle } := by
  have hplaces := places_remove (h.found sm q hacc) .idle
  refine ⟨by rw [hplaces]; exact h.nodup, by rw [hplaces]; exact h.count, ?_, fun q hq => (by cases hq), fun sm q hq => (by cases hq),
    ?_, h.thr⟩
  · have hl := h.limit
    rw [St.pending, hacc] at hl
    exact hl
  · exact iff_of_false AccPc.noConfusion (h.not_acceptor (by rw [hacc]; exact AccPc.noConfusion))

/-- A new session is handed out. -/
theorem Inv.allocOut {sm : ℕ} (h : Inv s) (hacc : s.acc = .malloc) (hsm : sm ∉ s.places) :
    Inv { s.add sm with out := sm :: (s.add sm).out, acc := .idle } := by
  have hplaces := places_alloc_out s sm .idle
  refine ⟨?_, ?_, ?_, fun q hq => (by cases hq), fun sm q hq => (by cases hq), ?_, h.thr⟩
  · rw [hplaces]
    exact Multiset.nodup_cons.mpr ⟨hsm, h.nodup⟩
  · rw [hplaces, Multiset.card_cons, ← h.count]
    rfl
  · have hl := h.limit
    rw [St.pending, hacc] at hl
    show s.nSessMem + 1 + (0 + (tokens ThrPc.pending s.thr).card) ≤ s.maxSess + T
    have h1 : AccPc.malloc.pending = 1 := rfl
    omega
  · exact iff_of_false AccPc.noConfusion (h.not_acceptor (by rw [hacc]; exact AccPc.noConfusion))

theorem acc_spec (h : Inv s) (hr : ∀ sm ∈ r, sm ∉ s.places) (hf : s.acc = .malloc → r ≠ none → Fits z s) :
    ∃ s', accStep z s r = some s' ∧ Inv s' := by
  have hno {acc : AccPc} (hn : s.acc ≠ .flip) (ha : acc ≠ .flip) : acc = .flip ↔ s.mtx = some .acceptor :=
    iff_of_false ha (h.not_acceptor hn)
  unfold accStep
  cases hacc : s.acc with
  | idle =>
    refine ⟨_, rfl, h.setAcc (Nat.zero_le _) ?_ ?_ ?_⟩
    · intro q hq
      cases hq
      rfl
    · intro sm q hq
      cases hq
    · exact hno (by rw [hacc]; simp) (by simp)
  | look again q =>
    have hq : q = s.qp := h.acc q (by rw [hacc]; rfl)
    simp only
    cases hfree : s.free q with
    | cons sm l =>
      refine ⟨_, rfl, h.setAcc (Nat.zero_le _) ?_ ?_ ?_⟩
      · intro q' hq'
        cases hq'
        exact hq
      · intro sm' q' hq'
        cases hq'
        rw [hfree]
        exact List.mem_cons_self
      · exact hno (by rw [hacc]; simp) (by simp)
    | nil =>
      refine ⟨_, rfl, h.setAcc ?_ ?_ ?_ ?_⟩
      · cases again <;> exact Nat.zero_le _
      · intro q' hq'
        cases again <;> cases hq'
      · intro sm' q' hq'
        cases again <;> cases hq'
      · refine hno (by rw [hacc]; simp) ?_
        cases again <;> simp
  | wait =>
    simp only
    split
    · rename_i hm
      refine ⟨_, rfl, h.nodup, h.count, ?_, ?_, ?_, ?_, ?_⟩
      · have hl := h.limit
        rw [St.pending, hacc] at hl
        exact hl
      · intro q hq
        cases hq
      · intro sm q hq
        cases hq
      · exact iff_of_true rfl rfl
      · intro t q ht
        have := (h.thr t q ht).2
        rw [hm] at this
        cases this
    · exact ⟨s, rfl, h⟩
  | flip =>
    have hm : s.mtx = some .acceptor := h.flip.mp hacc
    refine ⟨_, rfl, h.nodup, h.count, ?_, ?_, ?_, ?_, ?_⟩
    · have hl := h.limit
      rw [St.pending, hacc] at hl
      exact hl
    · intro q hq
      cases hq
      rfl
    · intro sm q hq
      cases hq
    · simp
    · intro t q ht
      have := (h.thr t q ht).2
      rw [hm] at this
      cases this
  | remove sm q =>
    have hmem := h.found sm q hacc
    simp only
    rw [if_neg (not_not.mpr hmem)]
    exact ⟨_, rfl, h.remove hacc⟩
  | limit =>
    have hidle : AccPc.idle = .flip ↔ s.mtx = some .acceptor := hno (by rw [hacc]; simp) (by simp)
    simp only
    split
    · exact ⟨_, rfl, h.setAcc (Nat.zero_le _) (fun q hq => by cases hq) (fun sm q hq => by cases hq) hidle⟩
    · rename_i hlt
      refine ⟨_, rfl, h.nodup, h.count, ?_, fun q hq => (by cases hq), fun sm q hq => (by cases hq), ?_, h.thr⟩
      · have hp := pending_le ({ s with acc := .malloc } : St T)
        show s.nSessMem + _ ≤ s.maxSess + T
        omega
      · exact hno (by rw [hacc]; simp) (by simp)
  | malloc =>
    have hidle : AccPc.idle = .flip ↔ s.mtx = some .acceptor := hno (by rw [hacc]; simp) (by simp)
    cases r with
    | none => exact ⟨_, rfl, h.setAcc (Nat.zero_le _) (fun q hq => by cases hq) (fun sm q hq => by cases hq) hidle⟩
    | some sm =>
      simp only
      rw [alloc_eq (hf hacc (Option.some_ne_none sm)), Option.map_some]
      exact ⟨_, rfl, h.allocOut hacc (hr sm rfl)⟩

end Acceptor

/-! ## The other threads -/

section Threads

variable {T : ℕ} {z : Sizes} {s : St T} {t : Fin T} {pc : ThrPc} {sm : ℕ} {more : Bool} {r : Option ℕ}

/-- Only the thread's own part changes what it touches. -/
theorem touches_setThr (hpc : pc.touches = none) {t' : Fin T} {q : Bool}
    (ht : (Function.update s.thr t pc t').touches = some q) : t' ≠ t ∧ (s.thr t').touches = some q := by
  by_cases he : t' = t
  · subst he
    rw [Function.update_self, hpc] at ht
    cases ht
  · rw [Function.update_of_ne he] at ht
    exact ⟨he, ht⟩

theorem pending_setThr (s : St T) (t : Fin T) (pc : ThrPc) :
    (s.setThr t pc).pending + (s.thr t).pending.card = s.pending + pc.pending.card := by
  have hu := congrArg Multiset.card (tokens_update ThrPc.pending s.thr t pc)
  rw [Multiset.card_add, Multiset.card_add] at hu
  show s.acc.pending + (tokens ThrPc.pending (Function.update s.thr t pc)).card + _ = s.acc.pending + _ + _
  omega

theorem places_setThr (s : St T) (t : Fin T) (pc : ThrPc) :
    (s.setThr t pc).places + (s.thr t).holds = s.places + pc.holds := by
  have hu := tokens_update ThrPc.holds s.thr t pc
  show tokens (fun l : List ℕ => (l : Multiset ℕ)) s.free + (s.out : Multiset ℕ) +
    tokens ThrPc.holds (Function.update s.thr t pc) + (s.thr t).holds = tokens (fun l : List ℕ => (l : Multiset ℕ)) s.free +
    (s.out : Multiset ℕ) + tokens ThrPc.holds s.thr + pc.holds
  rw [add_assoc, hu, add_assoc _ _ pc.holds]

/-- A thread goes on with the session that it has, and touches no queue. -/
theorem Inv.setThr (h : Inv s) (hh : pc.holds = (s.thr t).holds) (hp : pc.pending.card ≤ (s.thr t).pending.card)
    (hpc : pc.touches = none) : Inv (s.setThr t pc) := by
  have hplaces : (s.setThr t pc).places = s.places := by
    have hu := places_setThr s t pc
    rw [hh] at hu
    exact add_right_cancel hu
  refine ⟨by rw [hplaces]; exact h.nodup, by rw [hplaces]; exact h.count, ?_, h.acc, h.found, h.flip, fun t' q ht => ?_⟩
  · have hl := h.limit
    have hu := pending_setThr s t pc
    show s.nSessMem + _ ≤ s.maxSess + T
    omega
  · obtain ⟨-, ht⟩ := touches_setThr hpc ht
    exact h.thr t' q ht

theorem Inv.drop (h : Inv s) (hpc : s.thr t = .drop sm) :
    s.nSessMem ≠ 0 ∧ Inv ({ s with nSessMem := s.nSessMem - 1 }.setThr t .precreate) := by
  have hplaces := places_setThr s t .precreate
  rw [hpc] at hplaces
  have hplaces : (s.setThr t .precreate).places + {sm} = s.places := by simpa [ThrPc.holds] using hplaces
  have hcard := congrArg Multiset.card hplaces
  rw [Multiset.card_add, Multiset.card_singleton, ← h.count] at hcard
  refine ⟨by omega, ?_, ?_, ?_, h.acc, h.found, h.flip, fun t' q ht => ?_⟩
  · exact Multiset.nodup_of_le (by rw [← hplaces]; exact Multiset.le_add_right _ _) h.nodup
  · show s.nSessMem - 1 = (s.setThr t .precreate).places.card
    omega
  · have hl := h.limit
    have hu := pending_setThr s t .precreate
    show s.nSessMem - 1 + (s.setThr t .precreate).pending ≤ s.maxSess + T
    have hz : ThrPc.precreate.pending.card = 0 := rfl
    omega
  · obtain ⟨-, ht⟩ := touches_setThr rfl ht
    exact h.thr t' q ht

/-- While nobody has the lock, a thread takes it, and the queue that is not in use. -/
theorem Inv.lock {last : Bool} (h : Inv s) (hpc : s.thr t = .put sm last) (hm : s.mtx = none) :
    Inv ({ s with mtx := some (.thread t) }.setThr t (.insert sm last (!s.qp))) := by
  have hother {t' : Fin T} {q : Bool} (ht : (s.thr t').touches = some q) : False := by
    have := (h.thr t' q ht).2
    rw [hm] at this
    cases this
  have hplaces : (s.setThr t (.insert sm last (!s.qp))).places = s.places := by
    have hu := places_setThr s t (.insert sm last (!s.qp))
    rw [hpc] at hu
    exact add_right_cancel hu
  refine ⟨?_, ?_, ?_, h.acc, h.found, ?_, fun t' q ht => ?_⟩
  · show (s.setThr t (.insert sm last (!s.qp))).places.Nodup
    rw [hplaces]
    exact h.nodup
  · show s.nSessMem = (s.setThr t (.insert sm last (!s.qp))).places.card
    rw [hplaces]
    exact h.count
  · have hl := h.limit
    have hu := pending_setThr s t (.insert sm last (!s.qp))
    rw [hpc] at hu
    show s.nSessMem + (s.setThr t (.insert sm last (!s.qp))).pending ≤ s.maxSess + T
    have hz : (ThrPc.put sm last).pending.card = 0 := rfl
    have hz' : (ThrPc.insert sm last (!s.qp)).pending.card = 0 := rfl
    omega
  · refine iff_of_false (fun hf => ?_) fun ho : some (Owner.thread t) = some .acceptor => by cases ho
    have := h.flip.mp hf
    rw [hm] at this
    cases this
  · by_cases he : t' = t
    · subst he
      have ht : (Function.update s.thr t' (.insert sm last (!s.qp)) t').touches = some q := ht
      rw [Function.update_self] at ht
      cases ht
      exact ⟨rfl, rfl⟩
    · have ht : (Function.update s.thr t (.insert sm last (!s.qp)) t').touches = some q := ht
      rw [Function.update_of_ne he] at ht
      exact absurd ht fun ht => hother ht

/-- Where a thread goes on behind the queue. -/
theorem next_spec : ∀ b : Bool, (if b then ThrPc.idle else .precreate).holds = 0 ∧
    (if b then ThrPc.idle else .precreate).pending.card = 0 ∧ (if b then ThrPc.idle else .precreate).touches = none := by
  decide

/-- A session goes from the thread to its queue. -/
theorem places_insert {last q : Bool} (hpc : s.thr t = .insert sm last q) :
    ({ s with free := Function.update s.free q (sm :: s.free q), mtx := none }.setThr t (if last then .idle else .precreate) :
      St T).places = s.places := by
  have hu := places_setThr s t (if last then .idle else .precreate)
  rw [hpc, (next_spec last).1, add_zero] at hu
  have hf := tokens_update (fun l : List ℕ => (l : Multiset ℕ)) s.free q (sm :: s.free q)
  simp only [← Multiset.cons_coe, ← Multiset.singleton_add, ← add_assoc] at hf
  have hf' := add_right_cancel hf
  show tokens (fun l : List ℕ => (l : Multiset ℕ)) (Function.update s.free q (sm :: s.free q)) + (s.out : Multiset ℕ) +
    tokens ThrPc.holds (Function.update s.thr t (if last then .idle else .precreate)) = s.places
  rw [hf', ← hu]
  show _ = tokens (fun l : List ℕ => (l : Multiset ℕ)) s.free + (s.out : Multiset ℕ) +
    tokens ThrPc.holds (Function.update s.thr t (if last then .idle else .precreate)) + {sm}
  abel

theorem Inv.insert {last q : Bool} (h : Inv s) (hpc : s.thr t = .insert sm last q) :
    Inv ({ s with free := Function.update s.free q (sm :: s.free q), mtx := none }.setThr t (if last then .idle else .precreate)) := by
  obtain ⟨hq, hm⟩ := h.thr t q (by rw [hpc]; rfl)
  obtain ⟨-, hp, htouch⟩ := next_spec last
  have hplaces := places_insert hpc
  refine ⟨by rw [hplaces]; exact h.nodup, by rw [hplaces]; exact h.count, ?_, h.acc, fun sm' q' hacc => ?_, ?_, fun t' q' ht => ?_⟩
  · have hl := h.limit
    have hu := pending_setThr s t (if last then .idle else .precreate)
    rw [hpc, hp] at hu
    show s.nSessMem + (s.setThr t (if last then .idle else .precreate)).pending ≤ s.maxSess + T
    omega
  · have hacc : s.acc = .remove sm' q' := hacc
    have hne : q' ≠ q := by
      rw [h.acc q' (by rw [hacc]; rfl), hq]
      cases s.qp <;> simp
    show sm' ∈ Function.update s.free q (sm :: s.free q) q'
    rw [Function.update_of_ne hne]
    exact h.found sm' q' hacc
  · refine iff_of_false (fun hf => ?_) fun ho : none = some Owner.acceptor => by cases ho
    have := h.flip.mp hf
    rw [hm] at this
    cases this
  · obtain ⟨hne, ht⟩ := touches_setThr htouch ht
    have := (h.thr t' q' ht).2
    rw [hm] at this
    cases this
    exact absurd rfl hne

/-- A new session for the queue. -/
theorem Inv.allocPut (h : Inv s) (hpc : s.thr t = .malloc) (hsm : sm ∉ s.places) : Inv ((s.add sm).setThr t (.put sm true)) := by
  have hplaces : ((s.add sm).setThr t (.put sm true)).places = sm ::ₘ s.places := by
    have hu := places_setThr (s.add sm) t (.put sm true)
    have hz : ((s.add sm).thr t).holds = 0 := by
      show (s.thr t).holds = 0
      rw [hpc]
      rfl
    rw [hz, add_zero] at hu
    rw [hu, ← Multiset.singleton_add, add_comm]
    rfl
  refine ⟨?_, ?_, ?_, h.acc, h.found, h.flip, fun t' q ht => ?_⟩
  · rw [hplaces]
    exact Multiset.nodup_cons.mpr ⟨hsm, h.nodup⟩
  · rw [hplaces, Multiset.card_cons, ← h.count]
    rfl
  · have hl := h.limit
    have hu := pending_setThr s t (.put sm true)
    rw [hpc] at hu
    show s.nSessMem + 1 + (s.setThr t (.put sm true)).pending ≤ s.maxSess + T
    have hz : ThrPc.malloc.pending.card = 1 := rfl
    have hz' : (ThrPc.put sm true).pending.card = 0 := rfl
    omega
  · obtain ⟨-, ht⟩ := touches_setThr rfl ht
    exact h.thr t' q ht

theorem thr_spec (h : Inv s) (hr : ∀ sm ∈ r, sm ∉ s.places) (hf : s.thr t = .malloc → r ≠ none → Fits z s) :
    ∃ s', thrStep z s t more r = some s' ∧ Inv s' := by
  unfold thrStep
  cases hpc : s.thr t with
  | idle => exact ⟨s, rfl, h⟩
  | drop sm =>
    obtain ⟨hpos, hinv⟩ := h.drop hpc
    simp only
    rw [if_neg hpos]
    exact ⟨_, rfl, hinv⟩
  | put sm last =>
    simp only
    split
    next hm => exact ⟨_, rfl, h.lock hpc hm⟩
    next => exact ⟨s, rfl, h⟩
  | insert sm last q => exact ⟨_, rfl, h.insert hpc⟩
  | precreate =>
    have hnext : ∀ b : Bool, (if b then ThrPc.limit else .idle).holds = 0 ∧
        (if b then ThrPc.limit else .idle).pending.card = 0 ∧ (if b then ThrPc.limit else .idle).touches = none := by
      decide
    obtain ⟨hh, hp, htouch⟩ := hnext more
    refine ⟨_, rfl, h.setThr ?_ ?_ htouch⟩
    · rw [hh, hpc]
      rfl
    · rw [hp]
      exact Nat.zero_le _
  | limit =>
    refine ⟨_, rfl, ?_⟩
    by_cases hlt : s.nSessMem ≥ s.maxSess
    · rw [if_pos hlt]
      refine h.setThr ?_ (Nat.zero_le _) rfl
      rw [hpc]
      rfl
    · rw [if_neg hlt]
      have hplaces : (s.setThr t .malloc).places = s.places := by
        have hu := places_setThr s t .malloc
        rw [hpc] at hu
        exact add_right_cancel hu
      refine ⟨by rw [hplaces]; exact h.nodup, by rw [hplaces]; exact h.count, ?_, h.acc, h.found, h.flip, fun t' q ht => ?_⟩
      · have hp := pending_le (s.setThr t .malloc)
        show s.nSessMem + (s.setThr t .malloc).pending ≤ s.maxSess + T
        omega
      · obtain ⟨-, ht⟩ := touches_setThr rfl ht
        exact h.thr t' q ht
  | malloc =>
    cases r with
    | none =>
      refine ⟨_, rfl, h.setThr ?_ (Nat.zero_le _) rfl⟩
      rw [hpc]
      rfl
    | some sm =>
      simp only
      rw [alloc_eq (hf hpc (Option.some_ne_none sm)), Option.map_some]
      exact ⟨_, rfl, h.allocPut hpc (hr sm rfl)⟩

theorem delete_spec (h : Inv s) (hi : s.thr t = .idle) (hm : sm ∈ s.out) : Inv (sesDelete s t sm) := by
  have hnext : (if s.ws sm ≠ s.workspace then ThrPc.drop sm else .put sm false).holds = {sm} ∧
      (if s.ws sm ≠ s.workspace then ThrPc.drop sm else .put sm false).pending.card = 0 ∧
      (if s.ws sm ≠ s.workspace then ThrPc.drop sm else .put sm false).touches = none := by
    split <;> exact ⟨rfl, rfl, rfl⟩
  obtain ⟨hh, hp, htouch⟩ := hnext
  have hplaces : (sesDelete s t sm).places = s.places := by
    have hu := places_setThr { s with out := s.out.erase sm } t (if s.ws sm ≠ s.workspace then ThrPc.drop sm else .put sm false)
    have hz : (s.thr t).holds = 0 := by
      rw [hi]
      rfl
    simp only [hz, add_zero, hh] at hu
    have he : (s.out : Multiset ℕ) = ((s.out.erase sm : List ℕ) : Multiset ℕ) + {sm} := by
      rw [← Multiset.coe_erase, add_comm, Multiset.singleton_add, Multiset.cons_erase (Multiset.mem_coe.mpr hm)]
    rw [sesDelete, hu]
    show tokens (fun l : List ℕ => (l : Multiset ℕ)) s.free + ((s.out.erase sm : List ℕ) : Multiset ℕ) + tokens ThrPc.holds s.thr + {sm} =
      tokens (fun l : List ℕ => (l : Multiset ℕ)) s.free + (s.out : Multiset ℕ) + tokens ThrPc.holds s.thr
    rw [he]
    abel
  refine ⟨by rw [hplaces]; exact h.nodup, by rw [hplaces]; exact h.count, ?_, h.acc, h.found, h.flip, fun t' q ht => ?_⟩
  · have hl := h.limit
    have hu := pending_setThr s t (if s.ws sm ≠ s.workspace then ThrPc.drop sm else .put sm false)
    rw [hp, hi] at hu
    show s.nSessMem + (s.setThr t (if s.ws sm ≠ s.workspace then ThrPc.drop sm else .put sm false)).pending ≤ s.maxSess + T
    omega
  · obtain ⟨-, ht⟩ := touches_setThr htouch ht
    exact h.thr t' q ht

end Threads

/-! ## Runs -/

section Runs

variable {T : ℕ} {z : Sizes} {s s' : St T} {a : Act T}

theorem step_spec (h : Inv s) (ha : Called s a) (hf : Allocates s a → Fits z s) : ∃ s', step z s a = some s' ∧ Inv s' := by
  cases a with
  | acceptor r => exact acc_spec h ha fun hm hr => hf ⟨hm, hr⟩
  | delete t sm => exact ⟨_, rfl, delete_spec h ha.1 ha.2⟩
  | thread t more r => exact thr_spec h ha fun hm hr => hf ⟨hm, hr⟩
  | param workspace httpHeaders => exact ⟨_, rfl, h.nodup, h.count, h.limit, h.acc, h.found, h.flip, h.thr⟩

/-- A session that was allocated has fitted. -/
theorem step_fits (he : step z s a = some s') (hal : Allocates s a) : Fits z s := by
  by_contra hno
  cases a with
  | acceptor r =>
    obtain ⟨hm, hr⟩ := hal
    obtain ⟨sm, rfl⟩ := Option.ne_none_iff_exists'.mp hr
    rw [step, accStep, hm] at he
    simp only at he
    rw [alloc_none hno] at he
    cases he
  | thread t more r =>
    obtain ⟨hm, hr⟩ := hal
    obtain ⟨sm, rfl⟩ := Option.ne_none_iff_exists'.mp hr
    rw [step, thrStep, hm] at he
    simp only at he
    rw [alloc_none hno] at he
    cases he
  | delete t sm => exact hal
  | param workspace httpHeaders => exact hal

theorem step_inv (h : Inv s) (ha : Called s a) (he : step z s a = some s') : Inv s' := by
  obtain ⟨s1, he1, hinv⟩ := step_spec h ha (step_fits he)
  rw [he] at he1
  cases he1
  exact hinv

theorem maxSess_step (he : step z s a = some s') : s'.maxSess = s.maxSess := by
  have halloc {sm : ℕ} {f : St T → St T} (h : (s.alloc z sm).map f = some s') (hf : ∀ t, (f t).maxSess = t.maxSess) :
      s'.maxSess = s.maxSess := by
    obtain ⟨t, ht, rfl⟩ := Option.map_eq_some_iff.mp h
    by_cases hfit : Fits z s
    · rw [alloc_eq hfit] at ht
      cases ht
      exact hf _
    · rw [alloc_none hfit] at ht
      cases ht
  cases a with
  | acceptor r =>
    rw [step] at he
    unfold accStep at he
    split at he <;> try split at he
    all_goals first | (cases he; rfl) | cases he | exact halloc he fun _ => rfl
  | delete t sm =>
    cases he
    rfl
  | thread t more r =>
    rw [step] at he
    unfold thrStep at he
    split at he <;> try split at he
    all_goals first | (cases he; rfl) | cases he | exact halloc he fun _ => rfl
  | param workspace httpHeaders =>
    cases he
    rfl

/-- In every order of the steps of the acceptor and the threads: a step fails just where it allocates a session of 4 GB or more; the
sessions that are on a queue, out or in the hands of a thread are all different and `n_sess_mem` is their number; a queue that a
thread changes is touched by nobody else, and is not about to be swapped; and the limit is exceeded by the number of threads at
most. -/
theorem reach_memory {maxSess workspace httpHeaders : ℕ} (hr : Reach (step z) Called (start T maxSess workspace httpHeaders) s) :
    s.places.Nodup ∧ s.nSessMem = s.places.card ∧ s.nSessMem ≤ maxSess + T ∧
    (∀ t q, (s.thr t).touches = some q →
      s.acc.touches ≠ some q ∧ s.acc ≠ .flip ∧ ∀ t', (s.thr t').touches ≠ none → t' = t) ∧
    ∀ a, Called s a → ((step z s a).isSome ↔ (Allocates s a → Fits z s)) := by
  have hinv : Inv s ∧ s.maxSess = maxSess := by
    refine hr.inv (I := fun s => Inv s ∧ s.maxSess = maxSess) ⟨start_inv maxSess workspace httpHeaders, rfl⟩ ?_
    rintro s a s' ⟨h, hm⟩ ha he
    exact ⟨step_inv h ha he, by rw [← hm]; exact maxSess_step he⟩
  obtain ⟨h, hm⟩ := hinv
  refine ⟨h.nodup, h.count, ?_, fun t q ht => ?_, fun a ha => ⟨fun hs hal => ?_, fun hf => ?_⟩⟩
  · have hl := h.limit
    omega
  · obtain ⟨hq, hmtx⟩ := h.thr t q ht
    refine ⟨fun hacc => ?_, fun hf => ?_, fun t' ht' => ?_⟩
    · have := h.acc q hacc
      rw [hq] at this
      exact absurd this (Bool.not_ne_self s.qp)
    · have := h.flip.mp hf
      rw [hmtx] at this
      cases this
    · obtain ⟨q', hq'⟩ := Option.ne_none_iff_exists'.mp ht'
      have := (h.thr t' q' hq').2
      rw [hmtx] at this
      cases this
      rfl
  · obtain ⟨s', he⟩ := Option.isSome_iff_exists.mp hs
    exact step_fits he hal
  · obtain ⟨s', he, -⟩ := step_spec h ha hf
    rw [he]
    rfl

/-- Two threads delete sessions while the acceptor swaps the queues and takes the one that was put back. -/
def swapRun : List (Act 2) :=
  [.acceptor none, .acceptor none, .acceptor none, .acceptor none, .acceptor none, .acceptor none, .acceptor (some 7),
   .acceptor none, .acceptor none, .acceptor none, .acceptor none, .acceptor none, .acceptor none, .acceptor (some 8),
   .delete 0 7, .thread 0 false none, .acceptor none, .thread 0 true none, .thread 0 true none, .acceptor none,
   .delete 1 8, .acceptor none, .thread 1 false none, .acceptor none, .thread 1 false none, .thread 1 true none,
   .acceptor none, .acceptor none, .thread 1 true none, .thread 1 true (some 9)]

theorem reach_memory_swapRun : ∃ s : St 2, (swapRun.foldlM (step ⟨800, 72, 16⟩) (start 2 2 65536 64)).isSome ∧ s.places.Nodup ∧
    s.nSessMem ≤ 2 + 2 ∧ s.nSessMem = 2 := by
  have hok : OkRun (step ⟨800, 72, 16⟩) Called (start 2 2 65536 64) swapRun := by decide +kernel
  have hrun : (swapRun.foldlM (step ⟨800, 72, 16⟩) (start 2 2 65536 64)).map St.nSessMem = some 2 := by decide +kernel
  obtain ⟨s, hs, hn⟩ := Option.map_eq_some_iff.mp hrun
  have h := reach_memory (Reach.of_run hok hs)
  exact ⟨s, by rw [hs]; rfl, h.1, h.2.2.1, hn⟩

end Runs

end Varnish.Ses
