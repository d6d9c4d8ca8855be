import Mathlib.Data.List.Nodup
import Varnish.Ses.Epoll

/-!
# Varnish.Ses.EpollRuns — a session is never with two threads

* `SessOk`, `Inv`: what a session, its descriptor and the kernel's table have to do with each other, and who is on which list.
* `Frame`, `Inv.change`: a step that is about one session leaves the others as they are.
* `adoptAll_spec`, `event_spec`, `timeouts_spec`, …: each step goes through and keeps the invariant.
* `reach_owner`: in every order of the steps no `epoll_ctl` fails, and each event is about a session on the waiter's list.
-/

namespace Varnish.Ses.Epoll

open Varnish.Lib

/-! ## The invariant -/

section Invariant

/-- A session and what is registered for its descriptor; only one that waits is armed. -/
def SessOk (kern : ℕ → Option (Option Reg)) (sp : ℕ) (x : Sess) : Prop :=
  match x.fd with
  | none => x.place ≠ .listed ∧ x.place ≠ .piped ∧ (x.place = .free → x.ev = false)
  | some fd => x.place ≠ .free ∧ x.place ≠ .leaked ∧
      if x.ev then ∃ armed, kern fd = some (some ⟨sp, armed⟩) ∧ (armed = true → x.place = .listed)
      else x.place ≠ .listed ∧ kern fd = some none

/-- The sessions of the batch. -/
def ptrs (batch : List Event) : List ℕ := batch.filterMap Event.ptr

theorem ptrs_concat (batch : List Event) (ev : Event) : ptrs (batch ++ [ev]) = ptrs batch ++ ev.ptr.toList := by
  rw [ptrs, List.filterMap_append]
  cases ev <;> rfl

theorem ptrs_session (sp : ℕ) (e : Events) (batch : List Event) : ptrs (.session sp e :: batch) = sp :: ptrs batch := rfl

structure Inv (s : St) : Prop where
  sess : ∀ sp, SessOk s.kern sp (s.sess sp)
  inj : ∀ sp sp' fd, (s.sess sp).fd = some fd → (s.sess sp').fd = some fd → sp = sp'
  reg : ∀ fd r, s.kern fd = some (some r) → (s.sess r.ptr).fd = some fd
  head : ∀ sp, sp ∈ s.sesshead ↔ (s.sess sp).place = .listed
  headNodup : s.sesshead.Nodup
  pipe : ∀ sp, sp ∈ s.pipe ↔ (s.sess sp).place = .piped
  pipeNodup : s.pipe.Nodup
  batch : ∀ sp ∈ ptrs s.batch, (s.sess sp).place = .listed ∧ ∀ fd, (s.sess sp).fd = some fd → s.kern fd = some (some ⟨sp, false⟩)
  batchNodup : (ptrs s.batch).Nodup

theorem SessOk.open {kern : ℕ → Option (Option Reg)} {sp : ℕ} {x : Sess} (h : SessOk kern sp x)
    (hp : x.place = .listed ∨ x.place = .piped) : ∃ fd, x.fd = some fd := by
  cases hf : x.fd with
  | some fd => exact ⟨fd, rfl⟩
  | none =>
    simp only [SessOk, hf] at h
    rcases hp with hp | hp
    · exact absurd hp h.1
    · exact absurd hp h.2.1

theorem SessOk.kern_open {kern : ℕ → Option (Option Reg)} {sp fd : ℕ} {x : Sess} (h : SessOk kern sp x) (hf : x.fd = some fd) :
    kern fd ≠ none := by
  simp only [SessOk, hf] at h
  split at h
  · obtain ⟨-, -, armed, hk, -⟩ := h
    rw [hk]
    exact Option.some_ne_none _
  · rw [h.2.2.2]
    exact Option.some_ne_none _

/-- A session on the list is registered. -/
theorem SessOk.listed {kern : ℕ → Option (Option Reg)} {sp : ℕ} {x : Sess} (h : SessOk kern sp x) (hp : x.place = .listed) :
    ∃ fd armed, x.fd = some fd ∧ x.ev = true ∧ kern fd = some (some ⟨sp, armed⟩) := by
  obtain ⟨fd, hf⟩ := h.open (.inl hp)
  simp only [SessOk, hf] at h
  split at h
  · rename_i hev
    obtain ⟨-, -, armed, hk, -⟩ := h
    exact ⟨fd, armed, hf, hev, hk⟩
  · exact absurd hp h.2.2.1

/-- Only the session `sp` and its descriptor have changed. -/
def Frame (s s' : St) (sp : ℕ) : Prop :=
  ∀ sp', sp' ≠ sp → s'.sess sp' = s.sess sp' ∧ ∀ fd, (s.sess sp').fd = some fd → s'.kern fd = s.kern fd

variable {s s' : St} {sp fd : ℕ}

theorem Inv.change (h : Inv s) (hframe : Frame s s' sp) (hok : SessOk s'.kern sp (s'.sess sp))
    (hfd : ∀ fd, (s'.sess sp).fd = some fd → (s.sess sp).fd = some fd ∨ s.kern fd = none)
    (hreg : ∀ fd r, s'.kern fd = some (some r) →
      s.kern fd = some (some r) ∧ (s.sess sp).fd ≠ some fd ∨ r.ptr = sp ∧ (s'.sess sp).fd = some fd)
    (hhead : ∀ sp', sp' ≠ sp → (sp' ∈ s'.sesshead ↔ sp' ∈ s.sesshead)) (hsp : sp ∈ s'.sesshead ↔ (s'.sess sp).place = .listed)
    (hnd : s'.sesshead.Nodup) (hpipe : ∀ sp', sp' ≠ sp → (sp' ∈ s'.pipe ↔ sp' ∈ s.pipe))
    (hsp' : sp ∈ s'.pipe ↔ (s'.sess sp).place = .piped) (hnd' : s'.pipe.Nodup)
    (hb : ∀ sp' ∈ ptrs s'.batch, sp' ≠ sp ∧ sp' ∈ ptrs s.batch) (hbn : (ptrs s'.batch).Nodup) : Inv s' := by
  have hother {sp' : ℕ} (hne : sp' ≠ sp) : SessOk s'.kern sp' (s.sess sp') := by
    have hx := h.sess sp'
    cases hf : (s.sess sp').fd with
    | none =>
      simp only [SessOk, hf] at hx ⊢
      exact hx
    | some fd =>
      simp only [SessOk, hf] at hx ⊢
      rw [(hframe sp' hne).2 fd hf]
      exact hx
  have hinj (sp' fd : ℕ) (hne : sp' ≠ sp) (h1 : (s.sess sp').fd = some fd) (h2 : (s'.sess sp).fd = some fd) : False := by
    rcases hfd fd h2 with hf | hk
    · exact hne (h.inj sp' sp fd h1 hf)
    · exact (h.sess sp').kern_open h1 hk
  refine ⟨fun sp' => ?_, fun sp₁ sp₂ fd h1 h2 => ?_, fun fd r hk => ?_, fun sp' => ?_, hnd, fun sp' => ?_, hnd', fun sp' hm => ?_,
    hbn⟩
  · by_cases he : sp' = sp
    · subst he
      exact hok
    · rw [(hframe sp' he).1]
      exact hother he
  · by_cases he₁ : sp₁ = sp
    · by_cases he₂ : sp₂ = sp
      · rw [he₁, he₂]
      · subst he₁
        rw [(hframe sp₂ he₂).1] at h2
        exact (hinj sp₂ fd he₂ h2 h1).elim
    · rw [(hframe sp₁ he₁).1] at h1
      by_cases he₂ : sp₂ = sp
      · subst he₂
        exact (hinj sp₁ fd he₁ h1 h2).elim
      · rw [(hframe sp₂ he₂).1] at h2
        exact h.inj sp₁ sp₂ fd h1 h2
  · rcases hreg fd r hk with ⟨hk', hn⟩ | ⟨hp, hf⟩
    · have hr := h.reg fd r hk'
      have hne : r.ptr ≠ sp := by
        intro he
        rw [he] at hr
        exact hn hr
      rw [(hframe r.ptr hne).1]
      exact hr
    · rw [hp]
      exact hf
  · by_cases he : sp' = sp
    · subst he
      exact hsp
    · rw [hhead sp' he, (hframe sp' he).1]
      exact h.head sp'
  · by_cases he : sp' = sp
    · subst he
      exact hsp'
    · rw [hpipe sp' he, (hframe sp' he).1]
      exact h.pipe sp'
  · obtain ⟨hne, hm'⟩ := hb sp' hm
    obtain ⟨hp, hk⟩ := h.batch sp' hm'
    rw [(hframe sp' hne).1]
    refine ⟨hp, fun fd hf => ?_⟩
    rw [(hframe sp' hne).2 fd hf]
    exact hk fd hf

theorem Frame.put (h : Inv s) {x : Sess} {r : Option (Option Reg)} {p l : List ℕ} {b : List Event} {t : Bool}
    (hown : (s.sess sp).fd = some fd ∨ (s.sess sp).fd = none ∧ s.kern fd = none) :
    Frame s ⟨Function.update s.sess sp x, Function.update s.kern fd r, p, l, b, t⟩ sp := by
  refine fun sp' hne => ⟨Function.update_of_ne hne _ _, fun g hg => ?_⟩
  have hne' : g ≠ fd := by
    rintro rfl
    rcases hown with hf | ⟨-, hk⟩
    · exact hne (h.inj sp' sp g hg hf)
    · exact (h.sess sp').kern_open hg hk
  exact Function.update_of_ne hne' _ _

/-- Only what is registered for the descriptor changes. -/
theorem Frame.kern (h : Inv s) (hf : (s.sess sp).fd = some fd) (r : Option (Option Reg)) (b : List Event) :
    Frame s { s with kern := Function.update s.kern fd r, batch := b } sp := by
  have hframe := Frame.put h (x := s.sess sp) (r := r) (p := s.pipe) (l := s.sesshead) (b := b) (t := s.dotimer) (.inl hf)
  rwa [Function.update_eq_self] at hframe

/-- The session `sp` and what is registered for its descriptor `fd` are changed, and the session is moved between the lists. -/
theorem Inv.put (h : Inv s) {x : Sess} {r : Option (Option Reg)} {p l : List ℕ} {b : List Event} {t : Bool}
    (hown : (s.sess sp).fd = some fd ∨ (s.sess sp).fd = none ∧ s.kern fd = none)
    (hok : SessOk (Function.update s.kern fd r) sp x) (hx : x.fd = some fd ∨ x.fd = none)
    (hr : ∀ g, r = some (some g) → g.ptr = sp ∧ x.fd = some fd)
    (hl : ∀ sp', sp' ≠ sp → (sp' ∈ l ↔ sp' ∈ s.sesshead)) (hsp : sp ∈ l ↔ x.place = .listed) (hnd : l.Nodup)
    (hp : ∀ sp', sp' ≠ sp → (sp' ∈ p ↔ sp' ∈ s.pipe)) (hsp' : sp ∈ p ↔ x.place = .piped) (hnd' : p.Nodup)
    (hb : ∀ sp' ∈ ptrs b, sp' ≠ sp ∧ sp' ∈ ptrs s.batch) (hbn : (ptrs b).Nodup) :
    Inv ⟨Function.update s.sess sp x, Function.update s.kern fd r, p, l, b, t⟩ := by
  have hself : Function.update s.sess sp x sp = x := Function.update_self sp x s.sess
  refine h.change (Frame.put h hown) ?_ (fun g hg => ?_) (fun g q hk => ?_) hl ?_ hnd hp ?_ hnd' hb hbn
  · show SessOk (Function.update s.kern fd r) sp (Function.update s.sess sp x sp)
    rw [hself]
    exact hok
  · change (Function.update s.sess sp x sp).fd = some g at hg
    rw [hself] at hg
    rcases hx with hx | hx <;> rw [hx] at hg
    · cases hg
      exact hown.imp id And.right
    · cases hg
  · by_cases he : g = fd
    · subst he
      change Function.update s.kern g r g = some (some q) at hk
      rw [Function.update_self] at hk
      refine .inr ⟨(hr q hk).1, ?_⟩
      show (Function.update s.sess sp x sp).fd = some g
      rw [hself]
      exact (hr q hk).2
    · refine .inl ⟨by rw [← hk]; exact (Function.update_of_ne he _ _).symm, fun hf => ?_⟩
      rcases hown with hf' | ⟨hf', -⟩ <;> rw [hf'] at hf
      · cases hf
        exact he rfl
      · cases hf
  · show sp ∈ l ↔ (Function.update s.sess sp x sp).place = .listed
    rw [hself]
    exact hsp
  · show sp ∈ p ↔ (Function.update s.sess sp x sp).place = .piped
    rw [hself]
    exact hsp'

/-- As `Inv.put`, when nothing changes in the kernel. -/
theorem Inv.move (h : Inv s) {x : Sess} {p l : List ℕ} {b : List Event} {t : Bool}
    (hok : SessOk s.kern sp x) (hx : x.fd = (s.sess sp).fd)
    (hl : ∀ sp', sp' ≠ sp → (sp' ∈ l ↔ sp' ∈ s.sesshead)) (hsp : sp ∈ l ↔ x.place = .listed) (hnd : l.Nodup)
    (hp : ∀ sp', sp' ≠ sp → (sp' ∈ p ↔ sp' ∈ s.pipe)) (hsp' : sp ∈ p ↔ x.place = .piped) (hnd' : p.Nodup)
    (hb : ∀ sp' ∈ ptrs b, sp' ≠ sp ∧ sp' ∈ ptrs s.batch) (hbn : (ptrs b).Nodup) :
    Inv ⟨Function.update s.sess sp x, s.kern, p, l, b, t⟩ := by
  have hself : Function.update s.sess sp x sp = x := Function.update_self sp x s.sess
  refine @Inv.change s _ sp h (fun sp' hne => ⟨Function.update_of_ne hne _ _, fun g hg => rfl⟩) ?_ (fun g hg => ?_) (fun g q hk => ?_)
    hl ?_ hnd hp ?_ hnd' hb hbn
  · show SessOk s.kern sp (Function.update s.sess sp x sp)
    rw [hself]
    exact hok
  · change (Function.update s.sess sp x sp).fd = some g at hg
    rw [hself, hx] at hg
    exact .inl hg
  · by_cases hf : (s.sess sp).fd = some g
    · refine .inr ⟨h.inj _ _ g (h.reg g q hk) hf, ?_⟩
      show (Function.update s.sess sp x sp).fd = some g
      rw [hself, hx]
      exact hf
    · exact .inl ⟨hk, hf⟩
  · show sp ∈ l ↔ (Function.update s.sess sp x sp).place = .listed
    rw [hself]
    exact hsp
  · show sp ∈ p ↔ (Function.update s.sess sp x sp).place = .piped
    rw [hself]
    exact hsp'

theorem start_inv : Inv start := by
  refine ⟨fun sp => ⟨by simp [start], by simp [start], fun _ => rfl⟩, ?_, ?_, ?_, List.nodup_nil, ?_, List.nodup_nil, ?_,
    List.nodup_nil⟩
  · intro sp sp' fd hf _
    cases hf
  · intro fd r hk
    cases hk
  · exact fun sp => ⟨fun hm => (List.not_mem_nil hm).elim, fun hp => by cases hp⟩
  · exact fun sp => ⟨fun hm => (List.not_mem_nil hm).elim, fun hp => by cases hp⟩
  · exact fun sp hm => (List.not_mem_nil hm).elim

end Invariant

/-! ## No session is forgotten -/

section Watch

variable {s s' : St} {sp fd : ℕ}

/-- Each session on the list is armed, or is in the batch. -/
def Watched (s : St) : Prop := ∀ sp, (s.sess sp).place = .listed → sp ∈ ptrs s.batch ∨ s.regOf sp = some ⟨sp, true⟩

theorem St.regOf_eq (hf : (s.sess sp).fd = some fd) : s.regOf sp = (s.kern fd).join := by
  rw [regOf, hf]
  rfl

theorem regOf_put (sess : ℕ → Sess) (kern : ℕ → Option (Option Reg)) {x : Sess} (hf : x.fd = some fd) (r : Reg) (p l : List ℕ)
    (b : List Event) (t : Bool) :
    St.regOf ⟨Function.update sess sp x, Function.update kern fd (some (some r)), p, l, b, t⟩ sp = some r := by
  simp only [St.regOf, Function.update_self, hf, Option.bind_some, Option.join_some]

theorem Frame.regOf (h : Frame s s' sp) {sp' : ℕ} (hne : sp' ≠ sp) : s'.regOf sp' = s.regOf sp' := by
  obtain ⟨hs, hk⟩ := h sp' hne
  cases hf : (s.sess sp').fd with
  | none => rw [St.regOf, St.regOf, hs, hf]; rfl
  | some fd => rw [St.regOf_eq hf, St.regOf_eq (hs ▸ hf), hk fd hf]

theorem Watched.change (h : Watched s) (hframe : Frame s s' sp) (hb : ∀ sp' ∈ ptrs s.batch, sp' ≠ sp → sp' ∈ ptrs s'.batch)
    (hsp : (s'.sess sp).place = .listed → sp ∈ ptrs s'.batch ∨ s'.regOf sp = some ⟨sp, true⟩) : Watched s' := by
  intro sp' hp
  by_cases he : sp' = sp
  · subst he
    exact hsp hp
  · rw [(hframe sp' he).1] at hp
    rw [hframe.regOf he]
    exact (h sp' hp).imp_left fun hm => hb sp' hm he

/-- The session is not on the list afterwards. -/
theorem Watched.off (h : Watched s) (hframe : Frame s s' sp) (hb : ∀ sp' ∈ ptrs s.batch, sp' ≠ sp → sp' ∈ ptrs s'.batch)
    (hp : (s'.sess sp).place ≠ .listed) : Watched s' := h.change hframe hb fun hp' => absurd hp' hp

end Watch

/-! ## A session leaves the list -/

section Off

variable {s : St} {sp fd : ℕ} {l : List ℕ} {b : List Event} {e : Events}

/-- The list and the batch without the session. -/
structure Off (s : St) (sp : ℕ) (l : List ℕ) (b : List Event) : Prop where
  head : ∀ sp', sp' ≠ sp → (sp' ∈ l ↔ sp' ∈ s.sesshead)
  gone : sp ∉ l
  headNodup : l.Nodup
  batch : ∀ sp', sp' ∈ ptrs b ↔ sp' ≠ sp ∧ sp' ∈ ptrs s.batch
  batchNodup : (ptrs b).Nodup

theorem Off.self (h : Inv s) (hp : (s.sess sp).place ≠ .listed) : Off s sp s.sesshead s.batch := by
  refine ⟨fun _ _ => Iff.rfl, fun hm => hp ((h.head sp).mp hm), h.headNodup, fun sp' => ?_, h.batchNodup⟩
  refine ⟨fun hm => ⟨?_, hm⟩, And.right⟩
  rintro rfl
  exact hp (h.batch sp' hm).1

theorem Off.erase (h : Inv s) (hb : ∀ sp', sp' ∈ ptrs b ↔ sp' ≠ sp ∧ sp' ∈ ptrs s.batch) (hbn : (ptrs b).Nodup) :
    Off s sp (s.sesshead.erase sp) b :=
  ⟨fun _ hne => List.mem_erase_of_ne hne, h.headNodup.not_mem_erase, h.headNodup.erase sp, hb, hbn⟩

/-- The session of the event that is looked at. -/
theorem mem_ptrs_tail (h : Inv s) (hb : s.batch = .session sp e :: b) (sp' : ℕ) :
    sp' ∈ ptrs b ↔ sp' ≠ sp ∧ sp' ∈ ptrs s.batch := by
  have hn := h.batchNodup
  rw [hb, ptrs_session, List.nodup_cons] at hn
  rw [hb, ptrs_session, List.mem_cons]
  constructor
  · refine fun hm => ⟨?_, .inr hm⟩
    rintro rfl
    exact hn.1 hm
  · rintro ⟨hne, he | hm⟩
    · exact absurd he hne
    · exact hm

theorem nodup_tail (h : Inv s) {ev : Event} (hb : s.batch = ev :: b) : (ptrs b).Nodup := by
  have hn := h.batchNodup
  rw [hb] at hn
  exact hn.sublist ((List.sublist_cons_self ev b).filterMap _)

/-- The session of an event waits and is not armed. -/
theorem Inv.looked (h : Inv s) (hb : s.batch = .session sp e :: b) :
    ∃ fd, s.sess sp = ⟨.listed, some fd, true, (s.sess sp).tOpen⟩ ∧ s.kern fd = some (some ⟨sp, false⟩) := by
  have hm : sp ∈ ptrs s.batch := by
    rw [hb, ptrs_session]
    exact List.mem_cons_self
  obtain ⟨hp, hk⟩ := h.batch sp hm
  obtain ⟨fd, armed, hf, hev, -⟩ := (h.sess sp).listed hp
  refine ⟨fd, ?_, hk fd hf⟩
  rw [← hp, ← hf, ← hev]

theorem Inv.not_piped (h : Inv s) (hp : (s.sess sp).place ≠ .piped) : sp ∉ s.pipe := fun hm => hp ((h.pipe sp).mp hm)

/-- `vca_close_session` does not fail when the descriptor is open. -/
theorem close_eq (hf : (s.sess sp).fd = some fd) (hk : s.kern fd ≠ none) : vcaCloseSession s sp =
    some ((s.setSess sp { s.sess sp with fd := none }).setKern fd none) := by
  rw [vcaCloseSession, hf]
  exact if_neg hk

theorem close_eq_none (hf : (s.sess sp).fd = none) : vcaCloseSession s sp = some s := by rw [vcaCloseSession, hf]

theorem drop_eq (hf : (s.sess sp).fd = some fd) (hk : s.kern fd ≠ none) :
    (vcaCloseSession s sp).map (fun s => sesDelete s sp) =
      some ⟨Function.update s.sess sp ⟨.free, none, false, (s.sess sp).tOpen⟩, Function.update s.kern fd none, s.pipe, s.sesshead,
        s.batch, s.dotimer⟩ := by
  rw [close_eq hf hk, Option.map_some]
  simp only [sesDelete, St.setSess, St.setKern, Function.update_self, Function.update_idem]

theorem drop_eq_none (hf : (s.sess sp).fd = none) : (vcaCloseSession s sp).map (fun s => sesDelete s sp) =
    some ⟨Function.update s.sess sp ⟨.free, none, false, (s.sess sp).tOpen⟩, s.kern, s.pipe, s.sesshead, s.batch, s.dotimer⟩ := by
  rw [close_eq_none hf]
  rfl

/-- The session is closed and deleted. -/
theorem drop_spec (h : Inv s) (hw : Watched s) (ho : Off s sp l b) (hp : sp ∉ s.pipe) :
    ∃ s', (vcaCloseSession { s with sesshead := l, batch := b } sp).map (fun s => sesDelete s sp) = some s' ∧ s'.batch = b ∧
      Inv s' ∧ Watched s' := by
  have hfree (kern : ℕ → Option (Option Reg)) : SessOk kern sp ⟨.free, none, false, (s.sess sp).tOpen⟩ :=
    ⟨(fun he => by cases he), (fun he => by cases he), fun _ => rfl⟩
  have hself : Function.update s.sess sp ⟨.free, none, false, (s.sess sp).tOpen⟩ sp = _ := Function.update_self _ _ _
  have hb (sp' : ℕ) (hm : sp' ∈ ptrs s.batch) (hne : sp' ≠ sp) : sp' ∈ ptrs b := (ho.batch sp').mpr ⟨hne, hm⟩
  cases hf : (s.sess sp).fd with
  | none =>
    refine ⟨_, drop_eq_none (s := { s with sesshead := l, batch := b }) hf, rfl, h.move (hfree _) hf.symm ho.head ⟨fun hm => absurd hm ho.gone, fun hp => by cases hp⟩ ho.headNodup
      (fun _ _ => Iff.rfl) ⟨fun hm => absurd hm hp, fun hp => by cases hp⟩ h.pipeNodup (fun sp' hm => (ho.batch sp').mp hm)
      ho.batchNodup, hw.off (fun sp' hne => ⟨Function.update_of_ne hne _ _, fun g hg => rfl⟩) hb ?_⟩
    show (Function.update s.sess sp ⟨.free, none, false, (s.sess sp).tOpen⟩ sp).place ≠ .listed
    rw [hself]
    exact fun hp => by cases hp
  | some fd =>
    refine ⟨_, drop_eq (s := { s with sesshead := l, batch := b }) hf ((h.sess sp).kern_open hf), rfl, h.put (.inl hf) (hfree _) (.inr rfl) (fun g hg => by cases hg) ho.head ⟨fun hm => absurd hm ho.gone, fun hp => by cases hp⟩
      ho.headNodup (fun _ _ => Iff.rfl) ⟨fun hm => absurd hm hp, fun hp => by cases hp⟩ h.pipeNodup
      (fun sp' hm => (ho.batch sp').mp hm) ho.batchNodup, hw.off (Frame.put h (.inl hf)) hb ?_⟩
    show (Function.update s.sess sp ⟨.free, none, false, (s.sess sp).tOpen⟩ sp).place ≠ .listed
    rw [hself]
    exact fun hp => by cases hp

/-- A worker gets the session. -/
theorem take_spec (h : Inv s) (hw : Watched s) (hb : s.batch = .session sp e :: b) :
    let s' := ({ s with sesshead := s.sesshead.erase sp, batch := b } : St).setSess sp { s.sess sp with place := .worker }
    Inv s' ∧ Watched s' := by
  have ho : Off s sp (s.sesshead.erase sp) b := Off.erase h (mem_ptrs_tail h hb) (nodup_tail h hb)
  obtain ⟨fd, hs, hk⟩ := h.looked hb
  have hp : sp ∉ s.pipe := h.not_piped (by rw [hs]; exact fun he => by cases he)
  refine ⟨h.move ?_ rfl ho.head ⟨fun hm => absurd hm ho.gone, fun hp => by cases hp⟩ ho.headNodup (fun _ _ => Iff.rfl)
    ⟨fun hm => absurd hm hp, fun hp => by cases hp⟩ h.pipeNodup (fun sp' hm => (ho.batch sp').mp hm) ho.batchNodup, ?_⟩
  · rw [hs]
    exact ⟨(fun he => by cases he), (fun he => by cases he), false, hk, fun he => by cases he⟩
  · refine hw.off (fun sp' hne => ⟨Function.update_of_ne hne _ _, fun g hg => rfl⟩)
      (fun sp' hm hne => (ho.batch sp').mpr ⟨hne, hm⟩) ?_
    show (Function.update s.sess sp { s.sess sp with place := .worker } sp).place ≠ .listed
    rw [Function.update_self]
    exact fun hp => by cases hp

end Off

/-! ## The events -/

section Events

variable {s : St} {sp fd : ℕ} {l : List ℕ} {b : List Event} {e : Events}

theorem unlist_eq (h : Inv s) (hb : s.batch = .session sp e :: b) : ({ s with batch := b } : St).unlist sp =
    some { s with sesshead := s.sesshead.erase sp, batch := b } := by
  obtain ⟨fd, hs, -⟩ := h.looked hb
  exact if_pos ((h.head sp).mpr (by rw [hs]))

/-- `vca_modadd`: the session waits for more. -/
theorem modadd_spec (h : Inv s) (hw : Watched s) (hb : s.batch = .session sp e :: b) :
    ∃ s', vcaModadd { s with batch := b } sp = some s' ∧ Inv s' ∧ Watched s' := by
  obtain ⟨fd, hs, hk⟩ := h.looked hb
  have hf : (s.sess sp).fd = some fd := by rw [hs]
  have hl : (s.sess sp).place = .listed := by rw [hs]
  have heq : vcaModadd { s with batch := b } sp = some ⟨Function.update s.sess sp { s.sess sp with ev := true },
      Function.update s.kern fd (some (some ⟨sp, true⟩)), s.pipe, s.sesshead, b, s.dotimer⟩ := by
    simp only [vcaModadd, hf, hk, St.setSess, St.setKern]
  refine ⟨_, heq, h.put (.inl hf) ?_ (.inl hf) (fun g hg => ?_) (fun _ _ => Iff.rfl) ?_ h.headNodup (fun _ _ => Iff.rfl) ?_ h.pipeNodup
    (fun sp' hm => (mem_ptrs_tail h hb sp').mp hm) (nodup_tail h hb), ?_⟩
  · rw [hs]
    exact ⟨(fun he => by cases he), (fun he => by cases he), true, Function.update_self _ _ _, fun _ => rfl⟩
  · cases hg
    exact ⟨rfl, hf⟩
  · exact h.head sp
  · exact h.pipe sp
  · refine hw.change (Frame.put h (.inl hf)) (fun sp' hm hne => (mem_ptrs_tail h hb sp').mpr ⟨hne, hm⟩) fun _ => .inr ?_
    exact regOf_put s.sess s.kern (x := { s.sess sp with ev := true }) hf _ _ _ _ _

theorem session_spec (h : Inv s) (hw : Watched s) (hb : s.batch = .session sp e :: b) {rx : ℤ} {queued : Bool}
    (hrx : rx = -2 ∨ rx = -1 ∨ rx = 0 ∨ rx = 1) :
    ∃ s', vcaEev { s with batch := b } (.session sp e) rx queued = some s' ∧ Inv s' ∧ Watched s' := by
  obtain ⟨fd, hs, -⟩ := h.looked hb
  have hl : (s.sess sp).place = .listed := by rw [hs]
  have hfree : (s.sess sp).place ≠ .free := by
    rw [hl]
    exact fun he => by cases he
  obtain ⟨s', hclose, -, hdrop⟩ := drop_spec h hw (Off.erase h (mem_ptrs_tail h hb) (nodup_tail h hb))
    (h.not_piped (by rw [hl]; exact fun he => by cases he))
  rw [vcaEev, if_neg hfree]
  by_cases hin : e.inn ∨ e.pri
  · rw [if_pos hin]
    by_cases h0 : rx = 0
    · rw [if_pos h0]
      exact modadd_spec h hw hb
    · rw [if_neg h0, unlist_eq h hb, Option.bind_eq_bind, Option.bind_some, vcaHandover]
      by_cases hneg : rx = -2 ∨ rx = -1
      · rw [if_pos hneg]
        exact ⟨s', hclose, hdrop⟩
      · rw [if_neg hneg, if_pos (by omega)]
        cases queued with
        | true => exact ⟨_, if_pos rfl, take_spec h hw hb⟩
        | false => exact ⟨s', hclose, hdrop⟩
  · have herr : e.err ∨ e.hup ∨ e.rdhup := by
      rcases e.reason with he | he | he
      · exact absurd (.inl he) hin
      · exact absurd (.inr he) hin
      · exact he
    rw [if_neg hin, if_pos herr, unlist_eq h hb]
    exact ⟨s', hclose, hdrop⟩

/-- One session out of the pipe; the rest of what was read is as good as in it. -/
theorem adopt_spec {sps : List ℕ} (h : Inv { s with pipe := sp :: sps ++ s.pipe }) (hw : Watched s) :
    ∃ s', adopt s sp = some s' ∧ s'.pipe = s.pipe ∧ Inv { s' with pipe := sps ++ s'.pipe } ∧ Watched s' := by
  have hp : (s.sess sp).place = .piped := (h.pipe sp).mp (List.mem_append_left _ List.mem_cons_self)
  have hok : SessOk s.kern sp (s.sess sp) := h.sess sp
  obtain ⟨fd, hf⟩ := hok.open (.inr hp)
  have hn : sp ∉ sps ++ s.pipe ∧ (sps ++ s.pipe).Nodup := List.nodup_cons.mp h.pipeNodup
  have hl : sp ∉ s.sesshead := fun hm => by
    have := (h.head sp).mp hm
    rw [hp] at this
    cases this
  have heq : adopt s sp = some ⟨Function.update s.sess sp ⟨.listed, some fd, true, (s.sess sp).tOpen⟩,
      Function.update s.kern fd (some (some ⟨sp, true⟩)), s.pipe, s.sesshead ++ [sp], s.batch, s.dotimer⟩ := by
    rw [adopt, if_neg (by rw [hp, hf]; rintro (he | he) <;> cases he)]
    simp only [vcaCondModadd, St.setSess, St.setKern, Function.update_self, hf]
    simp only [SessOk, hf] at hok
    cases hev : (s.sess sp).ev with
    | true =>
      rw [if_pos hev] at hok
      obtain ⟨-, -, armed, hk, -⟩ := hok
      rw [hk]
    | false =>
      rw [if_neg (by rw [hev]; exact Bool.false_ne_true)] at hok
      rw [hok.2.2.2]
      simp only [Function.update_idem]
  refine ⟨_, heq, rfl, h.put (.inl hf) ?_ (.inl rfl) (fun g hg => ?_) (fun sp' hne => ?_) ?_ ?_ (fun sp' hne => ?_) ?_ hn.2
    (fun sp' hm => ⟨?_, hm⟩) h.batchNodup, ?_⟩
  · exact ⟨(fun he => by cases he), (fun he => by cases he), true, Function.update_self _ _ _, fun _ => rfl⟩
  · cases hg
    exact ⟨rfl, rfl⟩
  · rw [List.mem_append, List.mem_singleton, or_iff_left hne]
  · exact ⟨fun _ => rfl, fun _ => List.mem_append_right _ List.mem_cons_self⟩
  · exact List.nodup_append.mpr ⟨h.headNodup, List.nodup_singleton sp, fun x hx y hy => by
      rw [List.mem_singleton.mp hy]
      rintro rfl
      exact hl hx⟩
  · rw [List.cons_append, List.mem_cons, or_iff_right hne]
  · exact ⟨fun hm => absurd hm hn.1, fun he => by cases he⟩
  · rintro rfl
    have := (h.batch sp' hm).1
    rw [show (s.sess sp').place = .piped from hp] at this
    cases this
  · refine hw.change (Frame.put h (.inl hf)) (fun sp' hm _ => hm) fun _ => .inr ?_
    exact regOf_put s.sess s.kern rfl _ _ _ _ _

theorem adoptAll_spec (sps : List ℕ) (h : Inv { s with pipe := sps ++ s.pipe }) (hw : Watched s) :
    ∃ s', adoptAll s sps = some s' ∧ Inv s' ∧ Watched s' := by
  induction sps generalizing s with
  | nil => exact ⟨s, rfl, h, hw⟩
  | cons sp sps ih =>
    obtain ⟨s1, he, -, h1, hw1⟩ := adopt_spec h hw
    obtain ⟨s', he', h'⟩ := ih h1 hw1
    refine ⟨s', ?_, h'⟩
    rw [adoptAll, he]
    exact he'

/-- The sessions that were open for too long. -/
theorem timeouts_spec (deadline : ℤ) (fuel : ℕ) (h : Inv s) (hw : Watched s) (hb : s.batch = []) :
    ∃ s', timeouts deadline fuel s = some s' ∧ Inv s' ∧ Watched s' := by
  induction fuel generalizing s with
  | zero => exact ⟨s, rfl, h, hw⟩
  | succ fuel ih =>
    rw [timeouts]
    cases hl : s.sesshead with
    | nil => exact ⟨s, rfl, h, hw⟩
    | cons sp sps =>
      have hm : sp ∈ s.sesshead := by
        rw [hl]
        exact List.mem_cons_self
      have hp := (h.head sp).mp hm
      by_cases ht : (s.sess sp).tOpen > deadline
      · exact ⟨s, if_pos ht, h, hw⟩
      · simp only [if_neg ht]
        have hnil (sp' : ℕ) : sp' ∈ ptrs s.batch ↔ sp' ≠ sp ∧ sp' ∈ ptrs s.batch := by
          rw [hb]
          exact ⟨fun hm => (List.not_mem_nil hm).elim, And.right⟩
        obtain ⟨s₁, hclose, hb₁, h₁, hw₁⟩ := drop_spec h hw (Off.erase h hnil h.batchNodup)
          (h.not_piped (by rw [hp]; exact fun he => by cases he))
        obtain ⟨s₀, hs₀, rfl⟩ := Option.map_eq_some_iff.mp hclose
        obtain ⟨s', he, h'⟩ := ih h₁ hw₁ (hb₁.trans hb)
        refine ⟨s', ?_, h'⟩
        rw [St.unlist, if_pos hm, Option.bind_eq_bind, Option.bind_some]
        exact Option.bind_eq_some_iff.mpr ⟨s₀, hs₀, he⟩

/-- `epoll_wait` returns an event. -/
theorem disarm_spec {ev : Event} (h : Inv s) (hw : Watched s) (hd : Due s ev) (hn : ∀ sp, ev.ptr = some sp → sp ∉ ptrs s.batch) :
    Inv { disarm s ev with batch := s.batch ++ [ev] } ∧ Watched { disarm s ev with batch := s.batch ++ [ev] } := by
  have hptrs := ptrs_concat s.batch ev
  cases ev with
  | pipes | ticker =>
    replace hptrs := hptrs.trans (List.append_nil _)
    exact ⟨⟨h.sess, h.inj, h.reg, h.head, h.headNodup, h.pipe, h.pipeNodup, hptrs ▸ h.batch, hptrs ▸ h.batchNodup⟩,
      fun sp hp => (hw sp hp).imp_left fun hm => hptrs ▸ hm⟩
  | session sp e =>
    rw [Event.ptr, Option.toList_some] at hptrs
    have hreg : s.regOf sp = some ⟨sp, true⟩ := hd
    obtain ⟨fd, hf⟩ : ∃ fd, (s.sess sp).fd = some fd := by
      cases hf : (s.sess sp).fd with
      | some fd => exact ⟨fd, rfl⟩
      | none =>
        rw [St.regOf, hf] at hreg
        cases hreg
    have hk : s.kern fd = some (some ⟨sp, true⟩) := by
      rw [St.regOf_eq hf] at hreg
      exact Option.join_eq_some_iff.mp hreg
    have hok := h.sess sp
    simp only [SessOk, hf] at hok
    split at hok
    next hev =>
      obtain ⟨hne, hne', armed, hk', harmed⟩ := hok
      rw [hk] at hk'
      cases hk'
      have hp : (s.sess sp).place = .listed := harmed rfl
      have hput := h.put (x := s.sess sp) (r := some (some ⟨sp, false⟩)) (p := s.pipe) (l := s.sesshead) (b := s.batch)
        (t := s.dotimer) (.inl hf)
        (by
          simp only [SessOk, hf, if_pos hev]
          exact ⟨hne, hne', false, Function.update_self _ _ _, fun he => by cases he⟩)
        (.inl hf) (fun g hg => by cases hg; exact ⟨rfl, hf⟩) (fun _ _ => Iff.rfl) (h.head sp) h.headNodup (fun _ _ => Iff.rfl) (h.pipe sp)
        h.pipeNodup (fun sp' hm => ⟨fun he => hn sp rfl (he ▸ hm), hm⟩) h.batchNodup
      rw [Function.update_eq_self] at hput
      have hdis : disarm s (.session sp e) = { s with kern := Function.update s.kern fd (some (some ⟨sp, false⟩)) } := by
        rw [disarm, hf]
        rfl
      rw [hdis]
      refine ⟨⟨hput.sess, hput.inj, hput.reg, hput.head, hput.headNodup, hput.pipe, hput.pipeNodup, ?_, ?_⟩, ?_⟩
      · intro sp' hm
        rw [hptrs, List.mem_append, List.mem_singleton] at hm
        rcases hm with hm | rfl
        · exact hput.batch sp' hm
        · refine ⟨hp, fun g hg => ?_⟩
          rw [show (s.sess sp').fd = some g from hg] at hf
          cases hf
          exact Function.update_self _ _ _
      · rw [hptrs]
        exact List.nodup_append.mpr ⟨h.batchNodup, List.nodup_singleton sp, fun x hx y hy => by
          rw [List.mem_singleton.mp hy]
          rintro rfl
          exact hn x rfl hx⟩
      · refine hw.change (Frame.kern h hf _ _) (fun sp' hm _ => ?_) fun _ => .inl ?_
        · rw [hptrs]
          exact List.mem_append_left _ hm
        · rw [hptrs]
          exact List.mem_append_right _ List.mem_cons_self
    next hev =>
      rw [hok.2.2.2] at hk
      cases hk

theorem regOf_disarm (h : Inv s) {ev : Event} (hne : ev.ptr ≠ some sp) : (disarm s ev).regOf sp = s.regOf sp := by
  cases ev with
  | pipes | ticker => rfl
  | session sp' e =>
    cases hf : (s.sess sp').fd with
    | none => rw [disarm, hf]
    | some fd =>
      rw [disarm, hf]
      exact (Frame.kern h hf (some (some ⟨sp', false⟩)) s.batch).regOf fun he => hne (by rw [he]; rfl)

theorem disarm_batch (s : St) (ev : Event) (b : List Event) : disarm { s with batch := b } ev = { disarm s ev with batch := b } := by
  cases ev with
  | pipes | ticker => rfl
  | session sp e =>
    cases hf : (s.sess sp).fd with
    | none => simp only [disarm, hf]
    | some fd => simp only [disarm, hf, St.setKern]

theorem foldl_disarm_batch (evs : List Event) (s : St) (b : List Event) :
    evs.foldl disarm { s with batch := b } = { evs.foldl disarm s with batch := b } := by
  induction evs generalizing s with
  | nil => rfl
  | cons ev evs ih => rw [List.foldl_cons, List.foldl_cons, disarm_batch, ih]

/-- All the events that `epoll_wait` returns. -/
theorem wait_spec (evs : List Event) (h : Inv s) (hw : Watched s) (hd : ∀ ev ∈ evs, Due s ev)
    (hn : (ptrs s.batch ++ ptrs evs).Nodup) :
    Inv { evs.foldl disarm s with batch := s.batch ++ evs } ∧ Watched { evs.foldl disarm s with batch := s.batch ++ evs } := by
  induction evs generalizing s with
  | nil =>
    rw [List.append_nil]
    exact ⟨h, hw⟩
  | cons ev evs ih =>
    have hptrs : ptrs (ev :: evs) = ev.ptr.toList ++ ptrs evs := by cases ev <;> rfl
    rw [hptrs, ← List.append_assoc] at hn
    have hfresh (sp : ℕ) (he : ev.ptr = some sp) : sp ∉ ptrs s.batch ∧ sp ∉ ptrs evs := by
      rw [he, List.append_assoc] at hn
      obtain ⟨-, hn', hdisj⟩ := List.nodup_append.mp hn
      exact ⟨fun hm => hdisj sp hm sp (List.mem_append_left _ List.mem_cons_self) rfl, (List.nodup_cons.mp hn').1⟩
    obtain ⟨h1, hw1⟩ := disarm_spec h hw (hd ev List.mem_cons_self) fun sp he => (hfresh sp he).1
    have hd1 : ∀ ev' ∈ evs, Due { disarm s ev with batch := s.batch ++ [ev] } ev' := by
      intro ev' hm
      have hdue := hd ev' (List.mem_cons_of_mem ev hm)
      cases ev' with
      | pipes | ticker => trivial
      | session sp' e' =>
        refine (regOf_disarm h fun he => (hfresh sp' he).2 ?_).trans hdue
        exact List.mem_filterMap.mpr ⟨_, hm, rfl⟩
    have hrest := ih h1 hw1 hd1 (by rw [ptrs_concat]; exact hn)
    rw [foldl_disarm_batch, List.append_assoc] at hrest
    exact hrest

theorem event_spec {ev : Event} (h : Inv s) (hw : Watched s) (hb : s.batch = ev :: b)
    {rx : ℤ} {queued : Bool} (hrx : rx = -2 ∨ rx = -1 ∨ rx = 0 ∨ rx = 1) :
    ∃ s', vcaEev { s with batch := b } ev rx queued = some s' ∧ Inv s' ∧ Watched s' := by
  have hsame (hptrs : ptrs s.batch = ptrs b) : Inv { s with batch := b } ∧ Watched { s with batch := b } :=
    ⟨⟨h.sess, h.inj, h.reg, h.head, h.headNodup, h.pipe, h.pipeNodup, hptrs ▸ h.batch, hptrs ▸ h.batchNodup⟩,
      fun sp hp => (hw sp hp).imp_left fun hm => hptrs ▸ hm⟩
  cases ev with
  | session sp e => exact session_spec h hw hb hrx
  | ticker =>
    obtain ⟨h', hw'⟩ := hsame (by rw [hb]; rfl)
    exact ⟨_, rfl, ⟨h'.sess, h'.inj, h'.reg, h'.head, h'.headNodup, h'.pipe, h'.pipeNodup, h'.batch, h'.batchNodup⟩, hw'⟩
  | pipes =>
    obtain ⟨h', hw'⟩ := hsame (by rw [hb]; rfl)
    refine adoptAll_spec (s := { s with batch := b, pipe := s.pipe.drop NEEV }) (s.pipe.take NEEV) ?_ hw'
    show Inv { s with batch := b, pipe := s.pipe.take NEEV ++ s.pipe.drop NEEV }
    rw [List.take_append_drop]
    exact h'

end Events

/-! ## The workers -/

section Workers

variable {s : St} {sp fd : ℕ}

/-- Who has a session that is neither on the list nor in the pipe has it alone. -/
theorem Inv.alone (h : Inv s) (hl : (s.sess sp).place ≠ .listed) (hp : (s.sess sp).place ≠ .piped) :
    sp ∉ s.sesshead ∧ sp ∉ s.pipe ∧ ∀ sp' ∈ ptrs s.batch, sp' ≠ sp ∧ sp' ∈ ptrs s.batch := by
  refine ⟨fun hm => hl ((h.head sp).mp hm), h.not_piped hp, fun sp' hm => ⟨?_, hm⟩⟩
  rintro rfl
  exact hl (h.batch sp' hm).1

/-- A session stays off the lists, and is closed or opened. -/
theorem alone_spec (h : Inv s) (hw : Watched s) {x : Sess} {r : Option (Option Reg)}
    (hoff : sp ∉ s.sesshead ∧ sp ∉ s.pipe ∧ ∀ sp' ∈ ptrs s.batch, sp' ≠ sp ∧ sp' ∈ ptrs s.batch)
    (hown : (s.sess sp).fd = some fd ∨ (s.sess sp).fd = none ∧ s.kern fd = none)
    (hok : SessOk (Function.update s.kern fd r) sp x) (hx : x.fd = some fd ∨ x.fd = none) (hr : r.join = none)
    (hl : x.place ≠ .listed) (hp : x.place ≠ .piped) :
    Inv ⟨Function.update s.sess sp x, Function.update s.kern fd r, s.pipe, s.sesshead, s.batch, s.dotimer⟩ ∧
      Watched ⟨Function.update s.sess sp x, Function.update s.kern fd r, s.pipe, s.sesshead, s.batch, s.dotimer⟩ := by
  refine ⟨h.put hown hok hx (fun g hg => ?_) (fun _ _ => Iff.rfl) ⟨fun hm => absurd hm hoff.1, fun he => absurd he hl⟩ h.headNodup
    (fun _ _ => Iff.rfl) ⟨fun hm => absurd hm hoff.2.1, fun he => absurd he hp⟩ h.pipeNodup hoff.2.2 h.batchNodup,
    hw.off (Frame.put h hown) (fun sp' hm _ => hm) ?_⟩
  · rw [hg] at hr
    cases hr
  · show (Function.update s.sess sp x sp).place ≠ .listed
    rw [Function.update_self]
    exact hl

theorem accept_spec (h : Inv s) (hw : Watched s) (now : ℤ) (hp : (s.sess sp).place = .free) (hk : s.kern fd = none) :
    ∃ s', step s (.accept sp fd now) = some s' ∧ Inv s' ∧ Watched s' := by
  have hok := h.sess sp
  have hf : (s.sess sp).fd = none := by
    cases hf : (s.sess sp).fd with
    | none => rfl
    | some g =>
      simp only [SessOk, hf] at hok
      exact absurd hp hok.1
  simp only [SessOk, hf] at hok
  have hev : (s.sess sp).ev = false := hok.2.2 hp
  have hoff := @Inv.alone s sp h (by rw [hp]; exact fun he => by cases he) (by rw [hp]; exact fun he => by cases he)
  refine ⟨_, rfl, alone_spec h hw (x := { s.sess sp with place := .worker, fd := some fd, tOpen := now }) (r := some none) hoff
    (.inr ⟨hf, hk⟩) ⟨(fun he => by cases he), (fun he => by cases he), ?_⟩ (.inl rfl) rfl (fun he => by cases he) (fun he => by cases he)⟩
  rw [if_neg (by rw [hev]; exact Bool.false_ne_true)]
  exact ⟨(fun he => by cases he), Function.update_self _ _ _⟩

theorem close_spec (h : Inv s) (hw : Watched s) (hp : (s.sess sp).place = .worker) :
    ∃ s', step s (.close sp) = some s' ∧ Inv s' ∧ Watched s' := by
  have hl : (s.sess sp).place ≠ .listed := by rw [hp]; exact fun he => by cases he
  have hp' : (s.sess sp).place ≠ .piped := by rw [hp]; exact fun he => by cases he
  cases hf : (s.sess sp).fd with
  | none => exact ⟨s, close_eq_none hf, h, hw⟩
  | some fd =>
    exact ⟨_, close_eq hf ((h.sess sp).kern_open hf), alone_spec h hw (x := { s.sess sp with fd := none }) (h.alone hl hp') (.inl hf)
      ⟨hl, hp', fun he => by rw [hp] at he; cases he⟩ (.inr rfl) rfl hl hp'⟩

theorem delete_spec (h : Inv s) (hw : Watched s) (hp : (s.sess sp).place = .worker) :
    ∃ s', step s (.delete sp) = some s' ∧ Inv s' ∧ Watched s' := by
  obtain ⟨s', hclose, -, hdrop⟩ := drop_spec h hw (Off.self h (by rw [hp]; exact fun he => by cases he))
    (h.not_piped (by rw [hp]; exact fun he => by cases he))
  exact ⟨s', hclose, hdrop⟩

theorem giveBack_spec (h : Inv s) (hw : Watched s) (now : ℤ) (block : Bool) (hp : (s.sess sp).place = .worker)
    (hopen : (s.sess sp).fd ≠ none) : ∃ s', step s (.giveBack sp now block) = some s' ∧ Inv s' ∧ Watched s' := by
  obtain ⟨fd, hf⟩ := Option.ne_none_iff_exists'.mp hopen
  have hoff := @Inv.alone s sp h (by rw [hp]; exact fun he => by cases he) (by rw [hp]; exact fun he => by cases he)
  have hself : Function.update s.sess sp { s.sess sp with tOpen := now } sp = { s.sess sp with tOpen := now } :=
    Function.update_self _ _ _
  rw [step, vcaReturnSession, if_neg (by simp only [St.setSess, hself]; exact hopen)]
  cases block with
  | true =>
    have hf' : (({ s with sess := Function.update s.sess sp { s.sess sp with tOpen := now } } : St).sess sp).fd = some fd := by
      simp only [hself]
      exact hf
    rw [if_pos rfl, St.setSess, close_eq hf' ((h.sess sp).kern_open hf), Option.map_some]
    refine ⟨_, rfl, ?_⟩
    simp only [St.setSess, St.setKern, Function.update_self, Function.update_idem]
    exact alone_spec h hw (x := ⟨.leaked, none, (s.sess sp).ev, now⟩) hoff (.inl hf)
      ⟨(fun he => by cases he), (fun he => by cases he), fun he => by cases he⟩ (.inr rfl) rfl (fun he => by cases he)
      (fun he => by cases he)
  | false =>
    refine ⟨_, if_neg Bool.false_ne_true, ?_⟩
    simp only [St.setSess, Function.update_self, Function.update_idem]
    refine ⟨h.move ?_ rfl (fun _ _ => Iff.rfl) ⟨fun hm => absurd hm hoff.1, fun he => by cases he⟩ h.headNodup (fun sp' hne => ?_)
      ⟨fun _ => rfl, fun _ => List.mem_append_right _ List.mem_cons_self⟩ ?_ hoff.2.2 h.batchNodup,
      @Watched.off s _ sp hw (fun sp' hne => ⟨Function.update_of_ne hne _ _, fun g hg => rfl⟩) (fun sp' hm _ => hm) ?_⟩
    · have hok := h.sess sp
      simp only [SessOk, hf] at hok ⊢
      refine ⟨(fun he => by cases he), (fun he => by cases he), ?_⟩
      cases hev : (s.sess sp).ev with
      | true =>
        rw [if_pos hev] at hok
        obtain ⟨-, -, armed, hk, harmed⟩ := hok
        refine ⟨armed, hk, fun he => ?_⟩
        have := harmed he
        rw [hp] at this
        cases this
      | false =>
        rw [if_neg (by rw [hev]; exact Bool.false_ne_true)] at hok
        exact ⟨(fun he => by cases he), hok.2.2.2⟩
    · rw [List.mem_append, List.mem_singleton, or_iff_left hne]
    · exact List.nodup_append.mpr ⟨h.pipeNodup, List.nodup_singleton sp, fun x hx y hy => by
        rw [List.mem_singleton.mp hy]
        rintro rfl
        exact hoff.2.1 hx⟩
    · show (Function.update s.sess sp _ sp).place ≠ .listed
      rw [Function.update_self]
      exact fun he => by cases he

end Workers

/-! ## Runs -/

section Runs

variable {s : St}

theorem step_spec (h : Inv s) (hw : Watched s) {a : Act} (ha : Called s a) : ∃ s', step s a = some s' ∧ Inv s' ∧ Watched s' := by
  cases a with
  | accept sp fd now => exact accept_spec h hw now ha.1 ha.2
  | close sp => exact close_spec h hw ha
  | delete sp => exact delete_spec h hw ha
  | giveBack sp now block => exact giveBack_spec h hw now block ha.1 ha.2
  | wait evs =>
    obtain ⟨hb, -, hd, hn⟩ := ha
    have hwait := wait_spec evs h hw hd (by rw [hb]; exact hn)
    rw [hb] at hwait
    exact ⟨_, rfl, hwait⟩
  | event rx queued =>
    rw [step]
    cases hb : s.batch with
    | nil => exact absurd hb ha.1
    | cons ev b => exact event_spec h hw hb ha.2
  | timer deadline =>
    obtain ⟨s', he, h', hw'⟩ := timeouts_spec deadline s.sesshead.length h hw ha.1
    refine ⟨{ s' with dotimer := false }, by rw [step, he]; rfl, ?_, hw'⟩
    exact ⟨h'.sess, h'.inj, h'.reg, h'.head, h'.headNodup, h'.pipe, h'.pipeNodup, h'.batch, h'.batchNodup⟩

/-- In every order of the steps of the acceptor, the workers and the waiter: no assertion and no `epoll_ctl` fails.  A session is
on the waiter's list, in its pipe or with a worker, and on a list once; each event that is not handled yet is about a session on
the list; each descriptor is registered for the session that has it, and armed while that session is on the list only; and no
session is forgotten there. -/
theorem reach_owner (hr : Reach step Called start s) :
    (∀ a, Called s a → (step s a).isSome) ∧
    (∀ sp, sp ∈ s.sesshead ↔ (s.sess sp).place = .listed) ∧ s.sesshead.Nodup ∧
    (∀ sp, sp ∈ s.pipe ↔ (s.sess sp).place = .piped) ∧ s.pipe.Nodup ∧
    (∀ sp e, Event.session sp e ∈ s.batch → sp ∈ s.sesshead) ∧
    (∀ fd r, s.kern fd = some (some r) → (s.sess r.ptr).fd = some fd ∧ (r.armed → r.ptr ∈ s.sesshead)) ∧
    ∀ sp ∈ s.sesshead, (∃ e, Event.session sp e ∈ s.batch) ∨ s.regOf sp = some ⟨sp, true⟩ := by
  obtain ⟨h, hw⟩ := hr.inv (I := fun s => Inv s ∧ Watched s) ⟨start_inv, fun sp hp => by cases hp⟩ fun s a s' hs ha he => by
    obtain ⟨s1, he1, h'⟩ := step_spec hs.1 hs.2 ha
    rw [he] at he1
    cases he1
    exact h'
  refine ⟨fun a ha => ?_, h.head, h.headNodup, h.pipe, h.pipeNodup, fun sp e hm => ?_, fun fd r hk => ⟨h.reg fd r hk, fun ha => ?_⟩,
    fun sp hm => (hw sp ((h.head sp).mp hm)).imp_left fun hb => ?_⟩
  · obtain ⟨s', he, -⟩ := step_spec h hw ha
    rw [he]
    rfl
  · exact (h.head sp).mpr (h.batch sp (List.mem_filterMap.mpr ⟨_, hm, rfl⟩)).1
  · have hok := h.sess r.ptr
    simp only [SessOk, h.reg fd r hk] at hok
    split at hok
    · obtain ⟨-, -, armed, hk', harmed⟩ := hok
      have hreg : Reg.mk r.ptr armed = r := Option.some.inj (Option.some.inj (hk'.symm.trans hk))
      exact (h.head r.ptr).mpr (harmed ((congrArg Reg.armed hreg).trans ha))
    · rw [hok.2.2.2] at hk
      cases hk
  · obtain ⟨ev, hm, hp⟩ := List.mem_filterMap.mp hb
    cases ev with
    | pipes | ticker => cases hp
    | session sp' e =>
      cases hp
      exact ⟨e, hm⟩

def input : Events := ⟨true, false, false, false, false, .inl rfl⟩

def hangup : Events := ⟨false, false, false, true, false, .inr (.inr (.inr (.inl rfl)))⟩

/-- Two sessions on one descriptor after the other: the first one comes back twice, and hangs up; the second one is open for too
long. -/
def sameRun : List Act :=
  [.accept 1 7 10, .giveBack 1 11 false, .wait [.pipes], .event 0 true, .wait [.session 1 input], .event 0 true,
   .wait [.session 1 input], .event 1 true, .giveBack 1 12 false, .wait [.pipes], .event 0 true,
   .wait [.ticker, .session 1 hangup], .event 0 true, .event 0 true, .timer 5, .accept 2 7 20, .giveBack 2 21 false,
   .wait [.pipes], .event 0 true, .wait [.ticker], .event 0 true]

theorem reach_owner_sameRun : ∃ s : St, sameRun.foldlM step start = some s ∧ s.sesshead = [2] ∧ s.regOf 2 = some ⟨2, true⟩ ∧
    (step s (.timer 30)).map St.sesshead = some [] := by
  have hok : OkRun step Called start sameRun := by decide +kernel
  have hrun : (sameRun.foldlM step start).map (fun s => (s.sesshead, s.batch, (step s (.timer 30)).map St.sesshead)) =
      some ([2], [], some []) := by decide +kernel
  obtain ⟨s, hs, hl⟩ := Option.map_eq_some_iff.mp hrun
  obtain ⟨hl, hb, ht⟩ := Prod.mk.inj hl |>.imp_right Prod.mk.inj
  have h := reach_owner (Reach.of_run hok hs)
  refine ⟨s, hs, hl, ?_, ht⟩
  rcases h.2.2.2.2.2.2.2 2 (by rw [hl]; exact List.mem_cons_self) with ⟨e, he⟩ | hreg
  · rw [hb] at he
    exact absurd he List.not_mem_nil
  · exact hreg

end Runs

end Varnish.Ses.Epoll
