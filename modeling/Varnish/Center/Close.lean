import Varnish.Center.Owner

/-!
# Varnish.Center.Close — closed connections leave the state machine

* `Live`: a session is open, or on its way to be deleted, or deleted.
* `live_exec`: a turn keeps this, and `assert(sp->fd >= 0)` holds in it, unless `cnt_wait` sees an overflow or
  `TCP_nonblocking` fails.
* `reach_closed`: in every run without these, a closed session is deleted, and once, and nobody else gets it.
-/

namespace Varnish.Center

open Varnish.Lib Varnish.Vcc

/-! ## The invariant -/

section Live

/-- A closed session is with a worker that goes to `cnt_done`, until it is deleted. -/
inductive Live (s : Sess) : Prop
  | opened (hfd : s.fd = true) (hd : s.deletes = 0) (hp : s.place ≠ .lost ∧ s.place ≠ .deleted)
  | closing (hfd : s.fd = false) (hd : s.deletes = 0) (hp : s.place = .worker ∧ s.step = .done ∨ s.place = .esi true)
  | deleted (hfd : s.fd = false) (hd : s.deletes = 1) (hp : s.place = .deleted)

/-- `assert(sp->fd >= 0)` does not fail, and the invariant holds behind the turn. -/
def Keeps (r : Except Stop Sess) : Prop := r ≠ .error .fd ∧ ∀ s', r = .ok s' → Live s'

/-- `cnt_wait` sees no overflow, and `TCP_nonblocking` does not fail where `vca_return_session` is called. -/
def CloseOk (p : Params) (s : Sess) : Act → Prop
  | .wait complete poll r nonblocking =>
    waitResult p complete poll r ≠ .overflow ∧ (waitResult p complete poll r = .more → nonblocking = true)
  | .done reinit rxbuf nonblocking =>
    0 < s.esis ∨ s.fd = false ∨ s.doclose = true ∨ reinit = true ∨ rxbuf = true ∨ p.linger = true ∨ nonblocking = true
  | _ => True

instance (p : Params) (s : Sess) (a : Act) : Decidable (CloseOk p s a) := by
  cases a <;> unfold CloseOk <;> infer_instance

variable {p : Params} {s s' : Sess} {ret : Ret}

@[simp] theorem keeps_ok : Keeps (.ok s) ↔ Live s := by simp [Keeps]

@[simp] theorem keeps_error {e : Stop} : Keeps (.error e) ↔ e ≠ .fd := by simp [Keeps]

theorem Live.worker (h : Live s) (hp : s.place = .worker) (hs : s.step ≠ .done) : s.fd = true ∧ s.deletes = 0 := by
  cases h with
  | opened hfd hd _ => exact ⟨hfd, hd⟩
  | closing _ _ hp' => simp [hp, hs] at hp'
  | deleted _ _ hp' => simp [hp] at hp'

theorem Live.deletes (h : Live s) : s.deletes = if s.place = .deleted then 1 else 0 := by
  cases h with
  | opened _ hd hp => rw [if_neg hp.2, hd]
  | closing _ hd hp =>
    rw [if_neg, hd]
    intro hdel
    simp [hdel] at hp
  | deleted _ hd hp => rw [if_pos hp, hd]

/-- The waiter has open sessions, and none is lost. -/
theorem Live.place (h : Live s) : s.place ≠ .lost ∧ (s.place = .waiter → s.fd = true) := by
  cases h with
  | opened hfd _ hp => exact ⟨hp.1, fun _ => hfd⟩
  | closing _ _ hp => rcases hp with ⟨hp, -⟩ | hp <;> simp [hp]
  | deleted _ _ hp => simp [hp]

theorem live_open (hfd : s.fd = true) (hd : s.deletes = 0) (hp : s.place = .worker) : Live s :=
  .opened hfd hd (by simp [hp])

theorem keeps_sesDelete (hfd : s.fd = false) (hd : s.deletes = 0) : Keeps (sesDelete s) := by
  unfold sesDelete
  split
  · simp
  · exact keeps_ok.mpr (.deleted hfd (congrArg Nat.succ hd) rfl)

theorem keeps_returnSession {nonblocking : Bool} (hfd : s.fd = true) (hd : s.deletes = 0) (hn : nonblocking = true) :
    Keeps (returnSession s nonblocking) := by
  unfold returnSession
  split
  · simp
  rw [if_neg (by simp [hfd]), if_neg (by simp [hn])]
  exact keeps_ok.mpr (.opened hfd hd (by simp))

theorem keeps_queueSession {queued : Bool} (hfd : s.fd = true) (hd : s.deletes = 0) : Keeps (queueSession s queued) := by
  unfold queueSession
  split
  · exact keeps_ok.mpr (.opened hfd hd (by simp))
  · exact keeps_sesDelete rfl hd

end Live

/-! ## Every turn -/

section Turns

variable {p : Params} {s s' : Sess} {ret : Ret}

theorem keeps_cntWait {complete poll nonblocking : Bool} {r : Rx} (hfd : s.fd = true) (hd : s.deletes = 0)
    (hp : s.place = .worker) (ha : CloseOk p s (.wait complete poll r nonblocking)) :
    Keeps (cntWait p s complete poll r nonblocking) := by
  unfold cntWait
  split
  · simp
  split
  next hr => exact keeps_returnSession hfd hd (ha.2 hr)
  · exact keeps_ok.mpr (live_open hfd hd hp)
  next hr => exact absurd hr ha.1
  · exact keeps_ok.mpr (.closing rfl hd (.inl ⟨hp, rfl⟩))

theorem keeps_cntStart {xid : ℕ} {o : Start} {doclose : Bool} (hfd : s.fd = true) (hd : s.deletes = 0)
    (hp : s.place = .worker) : Keeps (cntStart s xid o doclose) := by
  unfold cntStart
  split
  · simp
  cases o with
  | junk => exact keeps_ok.mpr (.closing rfl hd (.inl ⟨hp, rfl⟩))
  | refused => exact keeps_ok.mpr (live_open hfd hd hp)
  | expect => exact keeps_ok.mpr (live_open hfd hd hp)
  | ok => exact keeps_ok.mpr (live_open hfd hd hp)

theorem live_delivered (hd : s.deletes = 0) : Live (delivered s) := by
  cases hfd : s.fd with
  | true => exact live_open hfd hd rfl
  | false => exact .closing hfd hd (.inl ⟨rfl, rfl⟩)

theorem keeps_cntDeliver {doclose : Bool} {w : Write} (hfd : s.fd = true) (hd : s.deletes = 0) :
    Keeps (cntDeliver s ret doclose w) := by
  unfold cntDeliver
  split
  · simp
  split
  · simp
  cases w with
  | plain closed =>
    refine keeps_ok.mpr (live_delivered ?_)
    split
    · exact hd
    · exact hd
  | esi => exact keeps_ok.mpr (.opened hfd hd (by simp))

theorem keeps_esiDeliver {left : Bool} {t : Turn} (hd : s.deletes = 0) (hleft : left = false → s.fd = true) :
    Keeps (esiDeliver p s left t) := by
  unfold esiDeliver
  split
  · simp
  cases t with
  | bit flush =>
    dsimp only
    split
    · simp
    next hn =>
      have hfd : s.fd = true := hleft (by simpa using mt Or.inl hn)
      split
      · exact keeps_ok.mpr (live_delivered hd)
      · exact keeps_ok.mpr (live_open hfd hd rfl)
  | finish flush =>
    refine keeps_ok.mpr (live_delivered ?_)
    split
    · exact hd
    · exact hd

theorem keeps_cntPipe {connected : Bool} (hfd : s.fd = true) (hd : s.deletes = 0) (hp : s.place = .worker) :
    Keeps (cntPipe s ret connected) := by
  unfold cntPipe
  split
  · simp
  split
  · simp
  refine keeps_ok.mpr ?_
  split
  · exact .closing rfl hd (.inl ⟨hp, rfl⟩)
  · exact live_open hfd hd hp

theorem keeps_cntDone {reinit rxbuf nonblocking : Bool} (hd : s.deletes = 0) (hp : s.place = .worker)
    (ha : CloseOk p s (.done reinit rxbuf nonblocking)) : Keeps (cntDone p s reinit rxbuf nonblocking) := by
  unfold cntDone
  split
  · simp
  by_cases he : s.esis = 0
  · rw [if_pos he]
    dsimp only
    split
    next hn => exact absurd (he ▸ hn) (Nat.lt_irrefl 0)
    generalize ht : (if s.doclose = true then closeSession { s with
      refs := s.refs.giveVcl, director := false, restarts := 0, xid := 0 } else { s with
      refs := s.refs.giveVcl, director := false, restarts := 0, xid := 0 }) = t
    have htd : t.deletes = 0 := by
      subst ht
      split <;> exact hd
    have htp : t.place = .worker := by
      subst ht
      split <;> exact hp
    have htf : t.fd = true → s.fd = true ∧ s.doclose = false := by
      subst ht
      split
      · intro h
        cases h
      next hc => exact fun h => ⟨h, by simpa using hc⟩
    split
    next hf => exact keeps_sesDelete hf htd
    next hf =>
      have hopen : t.fd = true := by simpa using hf
      split
      · exact keeps_ok.mpr (live_open hopen htd htp)
      split
      · exact keeps_ok.mpr (live_open hopen htd htp)
      next hr hl =>
        refine keeps_returnSession hopen htd ?_
        obtain ⟨hsf, hsc⟩ := htf hopen
        simp only [CloseOk, he, hsf, hsc] at ha
        tauto
  · rw [if_neg he]
    dsimp only
    split
    · refine keeps_ok.mpr ?_
      cases hfd : s.fd with
      | true => exact .opened rfl hd (by simp)
      | false => exact .closing rfl hd (.inr rfl)
    next hn => exact absurd (Nat.pos_of_ne_zero he) hn

theorem keeps_idle : Keeps (.error .idle) := keeps_error.mpr (by simp)

theorem keeps_turn {c : Prop} [Decidable c] {r : Except Stop Sess} (h : c → Keeps r) : Keeps (if c then r else .error .idle) := by
  split
  next hc => exact h hc
  · exact keeps_idle

theorem keeps_check : Keeps (.error .check) := keeps_error.mpr (by simp)

theorem keeps_panic : Keeps (.error .panic) := keeps_error.mpr (by simp)

theorem keeps_ite {c : Prop} [Decidable c] {r r' : Except Stop Sess} (h : Keeps r) (h' : Keeps r') : Keeps (if c then r else r') := by
  split
  · exact h
  · exact h'

/-! ### The states that keep the connection and the worker -/

theorem keeps_cntFirst (hfd : s.fd = true) (hd : s.deletes = 0) (hp : s.place = .worker) :
    Keeps (cntFirst s) := by
  unfold cntFirst
  exact keeps_ite keeps_check (keeps_ok.mpr (live_open hfd hd hp))

theorem keeps_cntRecv {h hashing : Ret} (hfd : s.fd = true) (hd : s.deletes = 0) (hp : s.place = .worker) :
    Keeps (cntRecv p s h hashing) := by
  have hok : ∀ t : Step, Keeps (.ok { s with director := true, step := t }) := fun t => keeps_ok.mpr (live_open hfd hd hp)
  unfold cntRecv
  refine keeps_ite keeps_check (keeps_ite keeps_panic (keeps_ite (hok _) (keeps_ite keeps_panic ?_)))
  cases h with
  | lookup => exact hok .lookup
  | pipe => exact keeps_ite keeps_panic (hok .pipe)
  | pass => exact hok .pass
  | error => exact hok .error
  | deliver | fetch | hash | restart => exact keeps_panic

theorem keeps_cntLookup {o : Lookup} (hfd : s.fd = true) (hd : s.deletes = 0) (hp : s.place = .worker) : Keeps (cntLookup s o) := by
  unfold cntLookup
  refine keeps_ite keeps_check ?_
  cases o with
  | busy =>
    refine keeps_ok.mpr (.opened hfd hd ?_)
    dsimp only
    split <;> simp
  | miss => exact keeps_ok.mpr (live_open hfd hd hp)
  | hit => exact keeps_ok.mpr (live_open hfd hd hp)
  | hitPass => exact keeps_ok.mpr (live_open hfd hd hp)

theorem keeps_cntHit {h : Ret} (hfd : s.fd = true) (hd : s.deletes = 0) (hp : s.place = .worker) : Keeps (cntHit s h) := by
  unfold cntHit
  refine keeps_ite keeps_check (keeps_ite keeps_panic (keeps_ite (keeps_ok.mpr (live_open hfd hd hp)) (keeps_ite keeps_check ?_)))
  cases h with
  | pass => exact keeps_ok.mpr (live_open hfd hd hp)
  | error => exact keeps_ok.mpr (live_open hfd hd hp)
  | restart => exact keeps_ok.mpr (live_open hfd hd hp)
  | deliver | fetch | hash | lookup | pipe => exact keeps_panic

theorem keeps_cntMiss {h : Ret} (hfd : s.fd = true) (hd : s.deletes = 0) (hp : s.place = .worker) : Keeps (cntMiss s h) := by
  unfold cntMiss
  refine keeps_ite keeps_check (keeps_ite keeps_panic ?_)
  cases h with
  | error => exact keeps_ok.mpr (live_open hfd hd hp)
  | pass => exact keeps_ok.mpr (live_open hfd hd hp)
  | fetch => exact keeps_ok.mpr (live_open hfd hd hp)
  | deliver | hash | lookup | pipe | restart => exact keeps_panic

theorem keeps_cntPass {h : Ret} (hfd : s.fd = true) (hd : s.deletes = 0) (hp : s.place = .worker) : Keeps (cntPass s h) := by
  unfold cntPass
  refine keeps_ite keeps_check (keeps_ite keeps_panic ?_)
  cases h with
  | error => exact keeps_ok.mpr (live_open hfd hd hp)
  | pass => exact keeps_ok.mpr (live_open hfd hd hp)
  | deliver | fetch | hash | lookup | pipe | restart => exact keeps_panic

theorem keeps_fetchObj {o : Fetch} (hfd : s.fd = true) (hd : s.deletes = 0) (hp : s.place = .worker) : Keeps (fetchObj s o) := by
  unfold fetchObj
  refine keeps_ite keeps_check (keeps_ite keeps_panic (keeps_ite keeps_check (keeps_ite (keeps_ok.mpr (live_open hfd hd hp)) ?_)))
  cases o.handling with
  | restart => exact keeps_ok.mpr (live_open hfd hd hp)
  | error => exact keeps_ok.mpr (live_open hfd hd hp)
  | pass => exact keeps_ok.mpr (live_open hfd hd hp)
  | deliver => exact keeps_ok.mpr (live_open hfd hd hp)
  | fetch | hash | lookup | pipe => exact keeps_panic

theorem keeps_cntFetch {o : Fetch} (hfd : s.fd = true) (hd : s.deletes = 0) (hp : s.place = .worker) : Keeps (cntFetch s o) := by
  have hobj : Keeps (fetchObj { s with vbe := true } o) := keeps_fetchObj hfd hd hp
  unfold cntFetch
  exact keeps_ite keeps_check (keeps_ite (keeps_ok.mpr (live_open hfd hd hp)) (keeps_ite keeps_panic hobj))

theorem keeps_cntError {h : Ret} (hfd : s.fd = true) (hd : s.deletes = 0) (hp : s.place = .worker) : Keeps (cntError p s h) := by
  unfold cntError
  refine keeps_ite keeps_panic (keeps_ite ?_ ?_)
  · exact keeps_ok.mpr (live_open hfd hd hp)
  · exact keeps_ok.mpr (live_open hfd hd hp)

/-- One state for each act. -/
theorem keeps_cntSession (h : Live s) (hp : s.place = .worker) (a : Act) (ha : CloseOk p s a) : Keeps (cntSession p s a) := by
  -- only `cnt_done` sees a closed session
  have hturn : ∀ {t : Step} {r : Except Stop Sess}, t ≠ .done → (s.fd = true → s.deletes = 0 → Keeps r) →
      Keeps (if s.step = t then r else .error .idle) := by
    intro t r hne hr
    refine keeps_turn fun hs => ?_
    obtain ⟨hfd, hd⟩ := h.worker hp (hs ▸ hne)
    exact hr hfd hd
  cases a with
  | first => exact hturn (by simp) fun hfd hd => keeps_cntFirst hfd hd hp
  | wait complete poll r nonblocking => exact hturn (by simp) fun hfd hd => keeps_cntWait hfd hd hp ha
  | start xid o doclose => exact hturn (by simp) fun hfd hd => keeps_cntStart hfd hd hp
  | recv h hashing => exact hturn (by simp) fun hfd hd => keeps_cntRecv hfd hd hp
  | lookup o => exact hturn (by simp) fun hfd hd => keeps_cntLookup hfd hd hp
  | hit h => exact hturn (by simp) fun hfd hd => keeps_cntHit hfd hd hp
  | miss h => exact hturn (by simp) fun hfd hd => keeps_cntMiss hfd hd hp
  | pass h => exact hturn (by simp) fun hfd hd => keeps_cntPass hfd hd hp
  | fetch o => exact hturn (by simp) fun hfd hd => keeps_cntFetch hfd hd hp
  | deliver h doclose w => exact hturn (by simp) fun hfd hd => keeps_cntDeliver hfd hd
  | error h => exact hturn (by simp) fun hfd hd => keeps_cntError hfd hd hp
  | pipe h connected => exact hturn (by simp) fun hfd hd => keeps_cntPipe hfd hd hp
  | done reinit rxbuf nonblocking =>
    refine keeps_turn fun _ => keeps_cntDone ?_ hp ha
    cases h with
    | opened _ hd _ => exact hd
    | closing _ hd _ => exact hd
    | deleted _ _ hp' => simp [hp] at hp'
  | queue | pick | rx | hangup | wake | esi => exact keeps_idle

theorem live_exec (h : Live s) (a : Act) (ha : CloseOk p s a) : Keeps (exec p s a) := by
  have hopen : s.place ≠ .worker → (∀ l, s.place ≠ .esi l) → s.place ≠ .deleted → s.fd = true ∧ s.deletes = 0 := by
    intro hw he hd
    cases h with
    | opened hfd hd _ => exact ⟨hfd, hd⟩
    | closing _ _ hp => exact absurd hp (by simp [hw, he])
    | deleted _ _ hp => exact absurd hp hd
  unfold exec
  split
  next queued hp =>
    obtain ⟨hfd, hd⟩ := hopen (by simp [hp]) (by simp [hp]) (by simp [hp])
    exact keeps_queueSession hfd hd
  next hp =>
    obtain ⟨hfd, hd⟩ := hopen (by simp [hp]) (by simp [hp]) (by simp [hp])
    split
    · exact keeps_ok.mpr (live_open hfd hd rfl)
    · simp
  next r queued hp =>
    obtain ⟨hfd, hd⟩ := hopen (by simp [hp]) (by simp [hp]) (by simp [hp])
    split
    · exact keeps_ok.mpr h
    · cases r with
      | overflow => exact keeps_sesDelete rfl hd
      | error => exact keeps_sesDelete rfl hd
      | more => exact keeps_error.mpr (by simp)
      | complete => exact keeps_queueSession (s := { s with step := .start }) hfd hd
  next hp =>
    obtain ⟨-, hd⟩ := hopen (by simp [hp]) (by simp [hp]) (by simp [hp])
    exact keeps_sesDelete rfl hd
  next queued hp =>
    obtain ⟨hfd, hd⟩ := hopen (by simp [hp]) (by simp [hp]) (by simp [hp])
    exact keeps_queueSession hfd hd
  next left t hp =>
    cases h with
    | opened hfd hd _ => exact keeps_esiDeliver hd fun _ => hfd
    | closing _ hd hp' =>
      refine keeps_esiDeliver hd fun hl => ?_
      simp [hp, hl] at hp'
    | deleted _ _ hp' => simp [hp] at hp'
  next hp => exact keeps_cntSession h hp _ ha
  · exact keeps_idle

end Turns

/-! ## Closed sessions -/

section Closed

variable {p : Params} {s s' : Sess} {a : Act}

/-- The number of turns that a closed session has left. -/
def closing (s : Sess) : ℕ :=
  match s.place with
  | .worker => 2 * s.esis + 1
  | .esi _ => 2 * s.esis + 2
  | _ => 0

/-- A closed session that is in order. -/
structure Shut (s : Sess) : Prop where
  live : Live s
  inv : Inv True s
  fd : s.fd = false

theorem Shut.deleted_iff (h : Shut s) : s.place = .deleted ↔ closing s = 0 := by
  cases h.live with
  | opened hfd _ _ => simp [h.fd] at hfd
  | closing _ _ hp => rcases hp with ⟨hp, -⟩ | hp <;> simp [closing, hp]
  | deleted _ _ hp => simp [closing, hp]

/-- `cnt_done` of a closed session: it goes back to `ESI_Deliver`, or it is deleted. -/
theorem cntDone_shut (h : Shut s) (hp : s.place = .worker) (hs : s.step = .done) (reinit rxbuf nonblocking : Bool) :
    ∃ s', cntDone p s reinit rxbuf nonblocking = .ok s' ∧ s'.fd = false ∧ closing s' + 1 = closing s := by
  have hsafe : Safe True (cntDone p s reinit rxbuf nonblocking) := safe_cntDone h.inv hp hs reinit rxbuf nonblocking
  have hfd := h.fd
  revert hsafe
  unfold cntDone
  split
  · simp
  by_cases he : s.esis = 0
  · rw [if_pos he]
    dsimp only
    split
    next hn => exact absurd (he ▸ hn) (Nat.lt_irrefl 0)
    generalize ht : (if s.doclose = true then closeSession { s with
      refs := s.refs.giveVcl, director := false, restarts := 0, xid := 0 } else { s with
      refs := s.refs.giveVcl, director := false, restarts := 0, xid := 0 }) = t
    have htf : t.fd = false := by
      subst ht
      split
      · rfl
      · exact hfd
    rw [if_pos htf]
    unfold sesDelete
    split
    · simp
    · intro _
      exact ⟨_, rfl, htf, by simp [closing, hp, he]⟩
  · rw [if_neg he]
    dsimp only
    split
    · intro _
      refine ⟨_, rfl, hfd, ?_⟩
      have hlen : s.refs.saved.tail.length + 1 = s.refs.saved.length := by
        rw [List.length_tail]
        exact Nat.sub_add_cancel (Nat.pos_of_ne_zero he)
      simp only [closing, hp, Sess.esis, Refs.restore]
      omega
    next hn => exact absurd (Nat.pos_of_ne_zero he) hn

/-- The end of `ESI_Deliver` of a closed session. -/
theorem esiDeliver_shut (h : Shut s) (hp : s.place = .esi true) (flush : Bool) :
    ∃ s', esiDeliver p s true (.finish flush) = .ok s' ∧ s'.fd = false ∧ closing s' + 1 = closing s := by
  have hplace := h.inv.place
  simp only [AtPlace, hp] at hplace
  unfold esiDeliver
  rw [if_neg (by simp [hplace.1.obj])]
  refine ⟨_, rfl, ?_, ?_⟩
  · cases flush
    · exact h.fd
    · rfl
  · cases flush
    · simp [closing, hp, delivered, Sess.esis, Refs.derefObj]
    · simp [closing, hp, delivered, Sess.esis, Refs.derefObj, closeSession]

theorem exec_deleted (hp : s.place = .deleted) (a : Act) : exec p s a = .error .idle := by
  unfold exec
  rw [hp]

/-- What a closed session does: nothing else is possible. -/
theorem step_shut (h : Shut s) (hs : step p s a = some s') : Shut s' ∧ closing s' + 1 = closing s := by
  have hex := step_eq hs
  have hok : CloseOk p s a ∧ s'.fd = false ∧ closing s' + 1 = closing s := by
    cases h.live with
    | opened hfd _ _ => simp [h.fd] at hfd
    | deleted _ _ hp => simp [exec_deleted hp] at hex
    | closing _ _ hp =>
      rcases hp with ⟨hp, hst⟩ | hp
      · cases a with
        | done reinit rxbuf nonblocking =>
          obtain ⟨t, ht, hrest⟩ := cntDone_shut (p := p) h hp hst reinit rxbuf nonblocking
          simp only [exec, hp, cntSession, hst, if_true, ht, Except.ok.injEq] at hex
          exact ⟨.inr (.inl h.fd), hex ▸ hrest⟩
        | _ => simp [exec, hp, cntSession, hst] at hex
      · cases a with
        | esi t =>
          cases t with
          | bit flush =>
            have hplace := h.inv.place
            simp only [AtPlace, hp] at hplace
            simp [exec, hp, esiDeliver, hplace.1.obj] at hex
          | finish flush =>
            obtain ⟨t, ht, hrest⟩ := esiDeliver_shut (p := p) h hp flush
            simp only [exec, hp, ht, Except.ok.injEq] at hex
            exact ⟨trivial, hex ▸ hrest⟩
        | _ => simp [exec, hp] at hex
  exact ⟨⟨(live_exec h.live a hok.1).2 s' hex, (inv_exec h.inv a (.inr trivial)).2 s' hex, hok.2.1⟩, hok.2.2⟩

theorem progress_shut (p : Params) (h : Shut s) (hc : 0 < closing s) : ∃ a s', step p s a = some s' := by
  cases h.live with
  | opened hfd _ _ => simp [h.fd] at hfd
  | deleted _ _ hp => simp [closing, hp] at hc
  | closing _ _ hp =>
    rcases hp with ⟨hp, hst⟩ | hp
    · obtain ⟨t, ht, -⟩ := cntDone_shut (p := p) h hp hst false false false
      exact ⟨.done false false false, t, by simp [step, exec, hp, cntSession, hst, ht, Except.toOption]⟩
    · obtain ⟨t, ht, -⟩ := esiDeliver_shut (p := p) h hp false
      exact ⟨.esi (.finish false), t, by simp [step, exec, hp, ht, Except.toOption]⟩

theorem reach_live (h : Reach (step p) (CloseOk p) {} s) : Live s :=
  h.inv (.opened rfl rfl (by simp)) fun s a s' hl ha hs => (live_exec hl a ha).2 s' (step_eq hs)

/-- In every run in which `cnt_wait` sees no overflow and `TCP_nonblocking` does not fail: the assertion holds, no session is
lost, the waiter has open ones only, and a closed session is deleted by the worker that has it, once. -/
theorem reach_closed (p : Params) (s : Sess) (h : Reach (step p) (CloseOk p) {} s) :
    (∀ a, CloseOk p s a → exec p s a ≠ .error .fd) ∧ s.place ≠ .lost ∧ (s.place = .waiter → s.fd = true) ∧
      s.deletes = (if s.place = .deleted then 1 else 0) ∧
      (s.fd = false →
        (∃ (as : List Act) (s' : Sess), as.foldlM (step p) s = some s' ∧ s'.place = .deleted) ∧
        ∀ (as : List Act) (s' : Sess), as.foldlM (step p) s = some s' →
          s'.fd = false ∧ s'.place ≠ .waiter ∧ s'.deletes = (if s'.place = .deleted then 1 else 0) ∧
          as.length + closing s' = closing s ∧ (s'.place = .deleted ↔ closing s' = 0)) := by
  have hlive := reach_live h
  have hinv : Inv True s := reach_inv (fun _ _ _ => .inr trivial) h
  refine ⟨fun a ha => (live_exec hlive a ha).1, hlive.place.1, hlive.place.2, hlive.deletes, fun hfd => ⟨?_, ?_⟩⟩
  · obtain ⟨as, s', hr, hs', hz⟩ := exists_countdown (fun _ _ _ => step_shut) (fun _ => progress_shut p)
      ⟨hlive, hinv, hfd⟩ rfl
    exact ⟨as, s', hr, hs'.deleted_iff.mpr hz⟩
  · intro as s' hr
    obtain ⟨hs', hlen⟩ := countdown (fun _ _ _ => step_shut) ⟨hlive, hinv, hfd⟩ hr
    refine ⟨hs'.fd, ?_, hs'.live.deletes, hlen, hs'.deleted_iff⟩
    intro hw
    exact Bool.noConfusion ((hs'.live.place.2 hw).symm.trans hs'.fd)

/-- A pipelined request that cannot be parsed. -/
def junkRun : List Act := [.queue true, .pick, .first, .wait true false .more true, .start 1 .junk false]

def junkEnd : Sess := { step := .done, place := .worker, refs := { vcl := some 0, ledger := ⟨1, []⟩ }, xid := 1, fd := false }

theorem reach_closed_junk :
    ∃ (as : List Act) (s' : Sess), as.foldlM (step someParams) junkEnd = some s' ∧ s'.place = .deleted :=
  have hrun : junkRun.foldlM (step someParams) {} = some junkEnd := by decide +kernel
  ((reach_closed someParams junkEnd (Reach.of_run (by decide +kernel) hrun)).2.2.2.2 rfl).1

/-- The receive buffer is full in `cnt_wait`. -/
def overflowRun : List Act := [.queue true, .pick, .first, .wait false true .overflow true]

def overflowEnd : Sess := { step := .wait, place := .worker, fd := false }

/-- `TCP_nonblocking` fails. -/
def herdRun : List Act := [.queue true, .pick, .first, .wait false false .more false]

def herdEnd : Sess := { step := .wait, place := .lost, fd := false }

/-- After an overflow `cnt_wait` is called again, and `assert(sp->fd >= 0)` fails. After a failure of `TCP_nonblocking` nobody
has the session. -/
theorem reach_closed_overflow :
    Reach (step { someParams with linger := true }) (fun _ _ => True) {} overflowEnd ∧ overflowEnd.fd = false ∧
      exec { someParams with linger := true } overflowEnd (.wait false false .more true) = .error .fd ∧
      Reach (step someParams) (fun _ _ => True) {} herdEnd ∧ herdEnd.fd = false ∧ herdEnd.deletes = 0 ∧
      ∀ a, exec someParams herdEnd a = .error .idle :=
  have hover : overflowRun.foldlM (step { someParams with linger := true }) {} = some overflowEnd := by decide +kernel
  have hherd : herdRun.foldlM (step someParams) {} = some herdEnd := by decide +kernel
  ⟨Reach.of_run (by decide +kernel) hover, rfl, by rfl, Reach.of_run (by decide +kernel) hherd, rfl, rfl,
    fun a => by cases a <;> rfl⟩

end Closed

end Varnish.Center
