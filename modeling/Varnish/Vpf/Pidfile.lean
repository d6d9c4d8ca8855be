import Mathlib.Data.Nat.Notation
import Mathlib.Logic.Function.Basic
import Varnish.Lib.Run

/-!
# Varnish.Vpf.Pidfile — one process for each pidfile (vpf.c, flopen.c, daemon.c)

Each system call of a process is a step, and the processes take turns in any order.

* `step`: `vpf_open` with the loop of `flopen`, `vpf_write`, `vpf_close`, `vpf_remove`, an end, and `fork`.
* `Inv`: who has a lock, and that the file of a process that is past the check is the one at the path.
* `reach_exclusive`: without `fork` no two processes have the pidfile, and nobody writes over the one that has it.
* `daemon_open`: `varnish_daemon` behind `vpf_open` leaves the file to the next process, and the first one takes it away.
-/

namespace Varnish.Vpf

open Varnish.Lib

/-! ## The processes -/

section Model

/-- What a process does next, and the file that its descriptor has open: in front of `open`, of `fcntl`, of `stat`, of the `close`
that goes around the loop, of the `close` that gives up, and of `ftruncate` in `flopen`; with the pidfile; between `ftruncate` and
`pwrite` in `vpf_write`; behind `unlink` in `_vpf_remove`. -/
inductive Pc
  | out
  | opening
  | locking (i : ℕ)
  | checking (i : ℕ)
  | again (i : ℕ)
  | failing (i : ℕ)
  | truncating (i : ℕ)
  | held (i : ℕ)
  | writing (i : ℕ)
  | removing (i : ℕ)
deriving DecidableEq

def Pc.file : Pc → Option ℕ
  | .out | .opening => none
  | .locking i | .checking i | .again i | .failing i | .truncating i | .held i | .writing i | .removing i => some i

/-- The file at the path, the pid that a file holds, and who has its lock. -/
structure St where
  path : Option ℕ
  text : ℕ → Option ℕ
  lock : ℕ → Option ℕ
  pc : ℕ → Pc

def start : St := ⟨none, fun _ => none, fun _ => none, fun _ => .out⟩

def St.goto (s : St) (p : ℕ) (c : Pc) : St := { s with pc := Function.update s.pc p c }

def St.write (s : St) (i : ℕ) (t : Option ℕ) : St := { s with text := Function.update s.text i t }

/-- `close` of a descriptor lets all locks go that the process has on the file. -/
def St.close (s : St) (p i : ℕ) : St := if s.lock i = some p then { s with lock := Function.update s.lock i none } else s

inductive Act
  | start (p : ℕ)
  | openf (p i : ℕ)
  | lock (p : ℕ)
  | stat (p : ℕ)
  | close (p : ℕ)
  | truncate (p : ℕ)
  | pwrite (p : ℕ)
  | unlink (p : ℕ)
  | done (p : ℕ)
  | exit (p : ℕ)
  | fork (p q : ℕ)

/-- `none` is a step of a process that is elsewhere.  The file of an `open` that finds none is `i`. -/
def step (s : St) : Act → Option St
  | .start p => if s.pc p = .out then some (s.goto p .opening) else none
  | .openf p i =>
    if s.pc p = .opening then
      match s.path with
      | some j => some (s.goto p (.locking j))
      | none => some ({ s with path := some i, text := Function.update s.text i none }.goto p (.locking i))
    else none
  | .lock p =>
    match s.pc p with
    | .locking i =>
      if s.lock i = none then some ({ s with lock := Function.update s.lock i (some p) }.goto p (.checking i))
      else some (s.goto p (.failing i))
    | _ => none
  | .stat p =>
    match s.pc p with
    -- `fstat` of the descriptor gives `i` whenever it is called
    | .checking i => some (s.goto p (if s.path = some i then .truncating i else .again i))
    | _ => none
  | .close p =>
    match s.pc p with
    | .again i => some ((s.close p i).goto p .opening)
    | .failing i | .removing i => some ((s.close p i).goto p .out)
    | _ => none
  | .truncate p =>
    match s.pc p with
    | .truncating i => some ((s.write i none).goto p (.held i))
    | .held i => some ((s.write i none).goto p (.writing i))
    | _ => none
  | .pwrite p =>
    match s.pc p with
    | .writing i => some ((s.write i (some p)).goto p (.held i))
    | _ => none
  -- also where `ftruncate` or `pwrite` fails in `vpf_write`
  | .unlink p =>
    match s.pc p with
    | .held i | .writing i => some ({ s with path := none }.goto p (.removing i))
    | _ => none
  -- `vpf_close`
  | .done p =>
    match s.pc p with
    | .held i => some ((s.close p i).goto p .out)
    | _ => none
  | .exit p =>
    match (s.pc p).file with
    | some i => some ((s.close p i).goto p .out)
    | none => some (s.goto p .out)
  -- the descriptor is copied, the lock is not
  | .fork p q =>
    match s.pc p with
    | .held i => if s.pc q = .out then some (s.goto q (.held i)) else none
    | _ => none

/-- A file that is made is one that nobody has open. -/
def Called (s : St) : Act → Prop
  | .openf _ i => s.path = none → ∀ q, (s.pc q).file ≠ some i
  | _ => True

/-- Nobody forks. -/
def Alone (s : St) (a : Act) : Prop := Called s a ∧ ∀ p q, a ≠ .fork p q

/-- `vpf_open` that nobody comes between. -/
def vpfOpen (p i : ℕ) : List Act := [.start p, .openf p i, .lock p, .stat p, .truncate p]

end Model

/-! ## The invariant -/

section Invariant

/-- The file that a process has the lock of. -/
def Pc.locked : Pc → Option ℕ
  | .checking i | .again i | .truncating i | .held i | .writing i | .removing i => some i
  | _ => none

/-- The file that a process has found at the path, and has not taken away. -/
def Pc.sure : Pc → Option ℕ
  | .truncating i | .held i | .writing i => some i
  | _ => none

/-- The pidfile that a process has. -/
def Pc.has : Pc → Option ℕ
  | .held i | .writing i => some i
  | _ => none

structure Inv (s : St) : Prop where
  lock : ∀ i p, s.lock i = some p ↔ (s.pc p).locked = some i
  sure : ∀ p i, (s.pc p).sure = some i → s.path = some i
  text : ∀ p i, (s.pc p).has = some i → s.text i = none ∨ s.text i = some p

variable {s s' : St} {p q i j : ℕ} {c : Pc} {a : Act}

theorem Pc.file_of_locked (h : c.locked = some i) : c.file = some i := by
  cases c <;> first | exact h | cases h

theorem Pc.locked_of_sure (h : c.sure = some i) : c.locked = some i := by
  cases c <;> first | exact h | cases h

theorem Pc.sure_of_has (h : c.has = some i) : c.sure = some i := by
  cases c <;> first | exact h | cases h

theorem inv_start : Inv start := by
  refine ⟨fun i p => ?_, fun p i h => ?_, fun p i h => ?_⟩
  · constructor
    · intro h
      cases h
    · intro h
      cases h
  · cases h
  · cases h

/-- Two processes that are sure are one. -/
theorem Inv.one (h : Inv s) (hp : (s.pc p).sure = some i) (hq : (s.pc q).sure = some j) : q = p ∧ j = i := by
  have hi : some j = some i := (h.sure q j hq).symm.trans (h.sure p i hp)
  cases hi
  have hl : some q = some p :=
    ((h.lock i q).mpr (Pc.locked_of_sure hq)).symm.trans ((h.lock i p).mpr (Pc.locked_of_sure hp))
  cases hl
  exact ⟨rfl, rfl⟩

/-- A step that leaves the files and the locks. -/
theorem Inv.goes (h : Inv s) (hl : c.locked = (s.pc p).locked) (hs : ∀ i, c.sure = some i → s.path = some i)
    (hc : c.has = none) : Inv (s.goto p c) := by
  refine ⟨fun i q => ?_, fun q i hq => ?_, fun q i hq => ?_⟩
  · by_cases he : q = p
    · subst he
      show _ ↔ (Function.update s.pc q c q).locked = some i
      rw [Function.update_self, hl]
      exact h.lock i q
    · show _ ↔ (Function.update s.pc p c q).locked = some i
      rw [Function.update_of_ne he]
      exact h.lock i q
  · by_cases he : q = p
    · subst he
      have hq : (Function.update s.pc q c q).sure = some i := hq
      rw [Function.update_self] at hq
      exact hs i hq
    · have hq : (Function.update s.pc p c q).sure = some i := hq
      rw [Function.update_of_ne he] at hq
      exact h.sure q i hq
  · by_cases he : q = p
    · subst he
      have hq : (Function.update s.pc q c q).has = some i := hq
      rw [Function.update_self, hc] at hq
      cases hq
    · have hq : (Function.update s.pc p c q).has = some i := hq
      rw [Function.update_of_ne he] at hq
      exact h.text q i hq

/-- A step that lets the file go. -/
theorem Inv.closes (h : Inv s) (hf : (s.pc p).file = some i) (hc : c.locked = none) : Inv ((s.close p i).goto p c) := by
  have hpath : (s.close p i).path = s.path := by
    rw [St.close]
    split <;> rfl
  have htext : (s.close p i).text = s.text := by
    rw [St.close]
    split <;> rfl
  have hpc : (s.close p i).pc = s.pc := by
    rw [St.close]
    split <;> rfl
  have hlock (j q : ℕ) : (s.close p i).lock j = some q ↔ s.lock j = some q ∧ q ≠ p := by
    by_cases hj : j = i
    · subst hj
      rw [St.close]
      split
      · next hl =>
        show Function.update s.lock j none j = some q ↔ _
        rw [Function.update_self, hl]
        constructor
        · intro hq
          cases hq
        · rintro ⟨hq, hne⟩
          exact absurd (Option.some.inj hq).symm hne
      · next hl => exact ⟨fun hq => ⟨hq, fun he => hl (by rw [hq, he])⟩, And.left⟩
    · have hne : s.lock j ≠ some p := fun hl => by
        have hfile := Pc.file_of_locked ((h.lock j p).mp hl)
        rw [hf] at hfile
        exact hj (Option.some.inj hfile).symm
      have hsame : (s.close p i).lock j = s.lock j := by
        rw [St.close]
        split
        · exact Function.update_of_ne hj _ _
        · rfl
      rw [hsame]
      exact ⟨fun hq => ⟨hq, fun he => hne (by rw [hq, he])⟩, And.left⟩
  have hother {q j : ℕ} (hq : (Function.update s.pc p c q).locked = some j) : q ≠ p ∧ Function.update s.pc p c q = s.pc q := by
    have he : q ≠ p := fun he => by
      subst he
      rw [Function.update_self, hc] at hq
      cases hq
    exact ⟨he, Function.update_of_ne he _ _⟩
  refine ⟨fun j q => ?_, fun q j hq => ?_, fun q j hq => ?_⟩
  · show (s.close p i).lock j = some q ↔ (Function.update (s.close p i).pc p c q).locked = some j
    rw [hpc, hlock, h.lock]
    constructor
    · rintro ⟨hq, he⟩
      rw [Function.update_of_ne he]
      exact hq
    · intro hq
      obtain ⟨he, hsame⟩ := hother hq
      rw [hsame] at hq
      exact ⟨hq, he⟩
  · have hq : (Function.update (s.close p i).pc p c q).sure = some j := hq
    rw [hpc] at hq
    obtain ⟨-, hsame⟩ := hother (Pc.locked_of_sure hq)
    rw [hsame] at hq
    show (s.close p i).path = some j
    rw [hpath]
    exact h.sure q j hq
  · have hq : (Function.update (s.close p i).pc p c q).has = some j := hq
    rw [hpc] at hq
    obtain ⟨-, hsame⟩ := hother (Pc.locked_of_sure (Pc.sure_of_has hq))
    rw [hsame] at hq
    show (s.close p i).text j = none ∨ (s.close p i).text j = some q
    rw [htext]
    exact h.text q j hq

/-- A step that writes to the pidfile. -/
theorem Inv.writes {t : Option ℕ} (h : Inv s) (hp : (s.pc p).sure = some i) (hc : c.sure = some i) (ht : t = none ∨ t = some p) :
    Inv ((s.write i t).goto p c) := by
  have hsure {q j : ℕ} (hq : (Function.update s.pc p c q).sure = some j) : (s.pc q).sure = some j := by
    by_cases he : q = p
    · subst he
      rw [Function.update_self, hc] at hq
      rw [hp, hq]
    · rw [Function.update_of_ne he] at hq
      exact hq
  refine ⟨fun j q => ?_, fun q j hq => h.sure q j (hsure hq), fun q j hq => ?_⟩
  · show s.lock j = some q ↔ (Function.update s.pc p c q).locked = some j
    by_cases he : q = p
    · subst he
      rw [Function.update_self, Pc.locked_of_sure hc, ← Pc.locked_of_sure hp]
      exact h.lock j q
    · rw [Function.update_of_ne he]
      exact h.lock j q
  · obtain ⟨rfl, rfl⟩ := h.one hp (hsure (Pc.sure_of_has hq))
    show Function.update s.text j t j = none ∨ Function.update s.text j t j = some q
    rw [Function.update_self]
    exact ht

/-- A new file at the path. -/
theorem Inv.creates (h : Inv s) (hpath : s.path = none) (hnew : ∀ q, (s.pc q).file ≠ some i) :
    Inv { s with path := some i, text := Function.update s.text i none } := by
  refine ⟨h.lock, fun q j hq => ?_, fun q j hq => ?_⟩
  · have := h.sure q j hq
    rw [hpath] at this
    cases this
  · have hj : j ≠ i := fun he => hnew q (he ▸ Pc.file_of_locked (Pc.locked_of_sure (Pc.sure_of_has hq)))
    show Function.update s.text i none j = none ∨ Function.update s.text i none j = some q
    rw [Function.update_of_ne hj]
    exact h.text q j hq

/-- `fcntl` that gets the lock. -/
theorem Inv.locks (h : Inv s) (hp : (s.pc p).locked = none) (hl : s.lock i = none) :
    Inv ({ s with lock := Function.update s.lock i (some p) }.goto p (.checking i)) := by
  refine ⟨fun j q => ?_, fun q j hq => ?_, fun q j hq => ?_⟩
  · show Function.update s.lock i (some p) j = some q ↔ (Function.update s.pc p (.checking i) q).locked = some j
    by_cases he : q = p
    · subst he
      rw [Function.update_self]
      by_cases hj : j = i
      · subst hj
        rw [Function.update_self]
        exact ⟨fun _ => rfl, fun _ => rfl⟩
      · rw [Function.update_of_ne hj, h.lock, hp]
        constructor
        · intro hq
          cases hq
        · intro hq
          exact absurd (Option.some.inj hq).symm hj
    · rw [Function.update_of_ne he]
      by_cases hj : j = i
      · subst hj
        rw [Function.update_self, ← h.lock, hl]
        constructor
        · intro hq
          exact absurd (Option.some.inj hq).symm he
        · intro hq
          cases hq
      · rw [Function.update_of_ne hj]
        exact h.lock j q
  · have hq : (Function.update s.pc p (.checking i) q).sure = some j := hq
    by_cases he : q = p
    · subst he
      rw [Function.update_self] at hq
      cases hq
    · rw [Function.update_of_ne he] at hq
      exact h.sure q j hq
  · have hq : (Function.update s.pc p (.checking i) q).has = some j := hq
    by_cases he : q = p
    · subst he
      rw [Function.update_self] at hq
      cases hq
    · rw [Function.update_of_ne he] at hq
      exact h.text q j hq

/-- `unlink`; nobody else is sure of the file. -/
theorem Inv.unlinks (h : Inv s) (hsure : (s.pc p).sure = some i) : Inv ({ s with path := none }.goto p (.removing i)) := by
  have hnone {q j : ℕ} (hq : (Function.update s.pc p (.removing i) q).sure = some j) : False := by
    by_cases he : q = p
    · subst he
      rw [Function.update_self] at hq
      cases hq
    · rw [Function.update_of_ne he] at hq
      exact he (h.one hsure hq).1
  refine ⟨fun j q => ?_, fun q j hq => (hnone hq).elim, fun q j hq => (hnone (Pc.sure_of_has hq)).elim⟩
  show s.lock j = some q ↔ (Function.update s.pc p (.removing i) q).locked = some j
  by_cases he : q = p
  · subst he
    rw [Function.update_self, h.lock, Pc.locked_of_sure hsure]
    exact Iff.rfl
  · rw [Function.update_of_ne he]
    exact h.lock j q

end Invariant

/-! ## Runs -/

section Runs

variable {s s' : St} {p q r i k : ℕ} {a : Act}

theorem step_inv (h : Inv s) (ha : Alone s a) (he : step s a = some s') : Inv s' := by
  cases a with
  | start p =>
    simp only [step] at he
    split at he
    · next hp =>
      cases he
      exact h.goes (by rw [hp]; rfl) (fun i hi => by cases hi) rfl
    · cases he
  | openf p i =>
    simp only [step] at he
    split at he
    · next hp =>
      split at he
      · cases he
        exact h.goes (by rw [hp]; rfl) (fun i hi => by cases hi) rfl
      · next hpath =>
        cases he
        exact (h.creates hpath (ha.1 hpath)).goes (by rw [hp]; rfl) (fun i hi => by cases hi) rfl
    · cases he
  | lock p =>
    simp only [step] at he
    split at he
    · next i hp =>
      split at he
      · next hl =>
        cases he
        exact h.locks (by rw [hp]; rfl) hl
      · cases he
        exact h.goes (by rw [hp]; rfl) (fun i hi => by cases hi) rfl
    · cases he
  | stat p =>
    simp only [step] at he
    split at he
    · next i hp =>
      cases he
      by_cases hpath : s.path = some i
      · rw [if_pos hpath]
        exact h.goes (by rw [hp]; rfl) (fun j hj => by cases hj; exact hpath) rfl
      · rw [if_neg hpath]
        exact h.goes (by rw [hp]; rfl) (fun j hj => by cases hj) rfl
    · cases he
  | close p =>
    simp only [step] at he
    split at he
    · next i hp =>
      cases he
      exact h.closes (by rw [hp]; rfl) rfl
    · next i hp =>
      cases he
      exact h.closes (by rw [hp]; rfl) rfl
    · next i hp =>
      cases he
      exact h.closes (by rw [hp]; rfl) rfl
    · cases he
  | truncate p =>
    simp only [step] at he
    split at he
    · next i hp =>
      cases he
      exact h.writes (by rw [hp]; rfl) rfl (.inl rfl)
    · next i hp =>
      cases he
      exact h.writes (by rw [hp]; rfl) rfl (.inl rfl)
    · cases he
  | pwrite p =>
    simp only [step] at he
    split at he
    · next i hp =>
      cases he
      exact h.writes (by rw [hp]; rfl) rfl (.inr rfl)
    · cases he
  | unlink p =>
    simp only [step] at he
    split at he
    · next i hp =>
      cases he
      exact h.unlinks (by rw [hp]; rfl)
    · next i hp =>
      cases he
      exact h.unlinks (by rw [hp]; rfl)
    · cases he
  | done p =>
    simp only [step] at he
    split at he
    · next i hp =>
      cases he
      exact h.closes (by rw [hp]; rfl) rfl
    · cases he
  | exit p =>
    simp only [step] at he
    split at he
    · next i hf =>
      cases he
      exact h.closes hf rfl
    · next hf =>
      cases he
      refine h.goes ?_ (fun i hi => by cases hi) rfl
      cases hl : (s.pc p).locked with
      | none => rfl
      | some i =>
        rw [Pc.file_of_locked hl] at hf
        cases hf
  | fork p q => exact absurd rfl (ha.2 p q)

/-- `vpf_open` gets a file at the path that nobody has locked, and empties it. -/
theorem vpfOpen_free (hr : s.pc r = .out) (hpath : s.path = some i) (hl : s.lock i = none) :
    (vpfOpen r k).foldlM step s =
      some ({ s with lock := Function.update s.lock i (some r), text := Function.update s.text i none }.goto r (.held i)) := by
  simp [vpfOpen, step, St.goto, St.write, hr, hpath, hl]

/-- The first process gets the pidfile. -/
theorem first_open (p i : ℕ) : ∃ s, Reach step Alone start s ∧ s.pc p = .held i ∧ ∀ q, q ≠ p → s.pc q = .out := by
  let s1 : St := start.goto p .opening
  let s2 : St := { s1 with path := some i, text := Function.update s1.text i none }.goto p (.locking i)
  have h1 : Reach step Alone start s1 := Reach.refl.tail (.start p) ⟨trivial, fun _ _ he => by cases he⟩ rfl
  have hnew (q : ℕ) : (s1.pc q).file ≠ some i := by
    by_cases hq : q = p
    · subst hq
      rw [show s1.pc q = .opening from Function.update_self ..]
      exact fun he => by cases he
    · rw [show s1.pc q = .out from Function.update_of_ne hq _ _]
      exact fun he => by cases he
  have hopen : step s1 (.openf p i) = some s2 := by
    simp [s1, s2, step, St.goto, start]
  have h2 : Reach step Alone start s2 := h1.tail (.openf p i) ⟨fun _ => hnew, fun _ _ he => by cases he⟩ hopen
  have hrun : [Act.lock p, .stat p, .truncate p].foldlM step s2 =
      some ({ s2 with lock := Function.update s2.lock i (some p), text := Function.update s2.text i none }.goto p (.held i)) := by
    simp [s1, s2, step, St.goto, St.write, start]
  have hok : OkRun step Alone s2 [.lock p, .stat p, .truncate p] :=
    ⟨⟨trivial, fun _ _ he => by cases he⟩, fun _ _ => ⟨⟨trivial, fun _ _ he => by cases he⟩, fun _ _ =>
      ⟨⟨trivial, fun _ _ he => by cases he⟩, fun _ _ => trivial⟩⟩⟩
  refine ⟨_, h2.trans (Reach.of_run hok hrun), Function.update_self .., fun q hq => ?_⟩
  show Function.update (Function.update (Function.update _ p _) p _) p _ q = _
  rw [Function.update_of_ne hq, Function.update_of_ne hq, Function.update_of_ne hq]
  rfl

/-- In every order of the steps of processes that do not fork, the pidfile of a process is the one at the path; nobody else has
one, its text is the pid or not written yet, and `vpf_open` of any other process finds it locked. -/
theorem reach_exclusive (h : Reach step Alone start s) (hp : (s.pc p).has = some i) :
    s.path = some i ∧ (s.text i = none ∨ s.text i = some p) ∧ (∀ q, (s.pc q).has ≠ none → q = p) ∧
      ∀ r k, s.pc r = .out → ∃ s', [Act.start r, .openf r k, .lock r].foldlM step s = some s' ∧ s'.pc r = .failing i := by
  have hi : Inv s := h.inv inv_start fun s a s' hi ha he => step_inv hi ha he
  have hsure := Pc.sure_of_has hp
  have hpath := hi.sure p i hsure
  refine ⟨hpath, hi.text p i hp, fun q hq => ?_, fun r k hr => ?_⟩
  · obtain ⟨j, hj⟩ := Option.ne_none_iff_exists'.mp hq
    exact (hi.one hsure (Pc.sure_of_has hj)).1
  · have hl : s.lock i = some p := (hi.lock i p).mpr (Pc.locked_of_sure hsure)
    refine ⟨s.goto r (.failing i), ?_, Function.update_self ..⟩
    simp [step, St.goto, hr, hpath, hl]

theorem reach_exclusive_third : ∃ s s', Reach step Alone start s ∧ s.path = some 7 ∧
    [Act.start 3, .openf 3 9, .lock 3].foldlM step s = some s' ∧ s'.pc 3 = .failing 7 := by
  obtain ⟨s, hs, hp, hq⟩ := first_open 1 7
  obtain ⟨hpath, -, -, hthird⟩ := reach_exclusive (p := 1) (i := 7) hs (by rw [hp]; rfl)
  obtain ⟨s', he, hfail⟩ := hthird 3 9 (hq 3 (by decide))
  exact ⟨s, s', hs, hpath, he, hfail⟩

/-- A process forks with the pidfile open and ends, as in `varnish_daemon`.  Then any other process gets it too, empty; and when
the first daemon is done it takes the file of the other one away. -/
theorem daemon_open (h : Reach step Alone start s) (hp : s.pc p = .held i) (hq : s.pc q = .out) (hr : s.pc r = .out) (hqr : q ≠ r)
    (k : ℕ) : ∃ s1 s2, (.fork p q :: .exit p :: vpfOpen r k).foldlM step s = some s1 ∧ s1.pc q = .held i ∧ s1.pc r = .held i ∧
      s1.path = some i ∧ s1.text i = none ∧ [.truncate q, .pwrite q, .unlink q, .close q].foldlM step s1 = some s2 ∧
      s2.pc r = .held i ∧ s2.path = none := by
  have hi : Inv s := h.inv inv_start fun s a s' hi ha he => step_inv hi ha he
  have hsure : (s.pc p).sure = some i := by rw [hp]; rfl
  have hl : s.lock i = some p := (hi.lock i p).mpr (Pc.locked_of_sure hsure)
  have hpq : p ≠ q := fun he => by
    rw [he, hq] at hp
    cases hp
  have hpr : p ≠ r := fun he => by
    rw [he, hr] at hp
    cases hp
  -- the lock went with the process that ended
  let s0 : St := ({ s with lock := Function.update s.lock i none }.goto q (.held i)).goto p .out
  have h0 : [Act.fork p q, .exit p].foldlM step s = some s0 := by
    simp [s0, step, St.goto, St.close, Pc.file, hp, hq, hl, Function.update_of_ne hpq]
  have hpc : s0.pc = Function.update (Function.update s.pc q (.held i)) p .out := rfl
  have hr0 : s0.pc r = .out := by
    rw [hpc, Function.update_of_ne hpr.symm, Function.update_of_ne hqr.symm, hr]
  have hq0 : s0.pc q = .held i := by
    rw [hpc, Function.update_of_ne hpq.symm, Function.update_self]
  have hpath0 : s0.path = some i := hi.sure p i hsure
  have hl0 : s0.lock i = none := Function.update_self ..
  let s1 : St := { s0 with lock := Function.update s0.lock i (some r), text := Function.update s0.text i none }.goto r (.held i)
  have h1 : (vpfOpen r k).foldlM step s0 = some s1 := vpfOpen_free hr0 hpath0 hl0
  have hq1 : s1.pc q = .held i := (Function.update_of_ne hqr _ _).trans hq0
  have hr1 : s1.pc r = .held i := Function.update_self ..
  have hl1 : s1.lock i = some r := Function.update_self ..
  have hrun : (Act.fork p q :: .exit p :: vpfOpen r k).foldlM step s = some s1 := by
    have happ : Act.fork p q :: .exit p :: vpfOpen r k = [.fork p q, .exit p] ++ vpfOpen r k := rfl
    rw [happ, List.foldlM_append, h0]
    exact h1
  -- the lock is not the one of `q`
  let s2 : St := { (s1.write i (some q)) with path := none }.goto q .out
  have h2 : [Act.truncate q, .pwrite q, .unlink q, .close q].foldlM step s1 = some s2 := by
    simp [s2, step, St.goto, St.write, St.close, hq1, hl1, hqr.symm]
  exact ⟨s1, s2, hrun, hq1, hr1, hpath0, Function.update_self .., h2, (Function.update_of_ne hqr.symm _ _).trans hr1, rfl⟩

theorem daemon_open_two : ∃ s s1 s2, Reach step Alone start s ∧
    (Act.fork 1 2 :: .exit 1 :: vpfOpen 3 9).foldlM step s = some s1 ∧ s1.pc 2 = .held 7 ∧ s1.pc 3 = .held 7 ∧
    [.truncate 2, .pwrite 2, .unlink 2, .close 2].foldlM step s1 = some s2 ∧ s2.path = none := by
  obtain ⟨s, hs, hp, hq⟩ := first_open 1 7
  obtain ⟨s1, s2, h1, h2, h3, -, -, h6, -, h8⟩ :=
    daemon_open (p := 1) (q := 2) (r := 3) (i := 7) hs hp (hq 2 (by decide)) (hq 3 (by decide)) (by decide) 9
  exact ⟨s, s1, s2, hs, h1, h2, h3, h6, h8⟩

end Runs

end Varnish.Vpf
