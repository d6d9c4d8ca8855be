import Mathlib.Data.Set.Card
import Varnish.Lib.Run
import Varnish.Lib.Shelves
import Varnish.Lib.Tally
import Varnish.Vbe.Model

/-!
# Varnish.Vbe.Pool — where the connections are, and the counts

* `Place`, `shelf`: the places a `vbe_conn` can be in.
* `Conns`, `Fds`, `Counts`, `Links`: the parts of the invariant, each with a lemma for each thing that happens to it.
* `Inv`, `inv_step`: what every step keeps.
* `PoolOk`, `reach_poolOk`: what holds in every state of every run.
* `nuke_late`: a backend can outlive its last reference.
-/

namespace Varnish.Vbe

open Varnish.Lib

/-! ## Places -/

section Places

/-- Where a `vbe_conn` can be. -/
inductive Place
  | pool
  | idle (b : ℕ)
  | held (sp : ℕ)
deriving DecidableEq

/-- The connection that a session has. -/
def Pc.vc : Pc → Option ℕ
  | .taken _ vc | .fresh _ vc | .trying _ vc | .failed vc | .held _ vc | .closing vc _ => some vc
  | _ => none

/-- The backend to which a session has a connection, or connects. -/
def Pc.counts : Pc → Option ℕ
  | .taken b _ | .trying b _ | .held b _ => some b
  | _ => none

/-- The backend that a session goes on with. -/
def Pc.uses : Pc → Option ℕ
  | .start b | .taken b _ | .miss b | .wants b | .fresh b _ | .trying b _ | .held b _ => some b
  | .closing _ again => again
  | _ => none

/-- What the connection of a session is like. -/
def Pc.Fits (c : VbeConn) : Pc → Prop
  | .taken b _ | .held b _ => c.backend = some b ∧ c.fd ≠ none
  | .fresh _ _ | .trying _ _ | .failed _ => c.backend = none ∧ c.fd = none
  | .closing _ _ => c.fd = none
  | _ => False

/-- The connections that are in a place. -/
def shelfOf (conns : List ℕ) (be : ℕ → Backend) (pc : ℕ → Pc) : Place → List ℕ
  | .pool => conns
  | .idle b => (be b).connlist
  | .held sp => (pc sp).vc.toList

/-- What a connection is like, by where it is. -/
def Fits (pc : ℕ → Pc) (c : VbeConn) : Option Place → Prop
  | none => c.live = false ∧ c.fd = none
  | some .pool => c.live = true ∧ c.backend = none ∧ c.fd = none
  | some (.idle b) => c.live = true ∧ c.backend = some b ∧ c.fd ≠ none
  | some (.held sp) => c.live = true ∧ (pc sp).Fits c

variable {conns : List ℕ} {be : ℕ → Backend} {pc : ℕ → Pc}

theorem shelfOf_conns (l : List ℕ) : shelfOf l be pc = Function.update (shelfOf conns be pc) .pool l := by
  funext p
  cases p <;> simp [shelfOf]

theorem shelfOf_be (b : ℕ) (x : Backend) :
    shelfOf conns (Function.update be b x) pc = Function.update (shelfOf conns be pc) (.idle b) x.connlist := by
  funext p
  cases p with
  | idle i =>
    by_cases hi : i = b
    · subst hi
      simp [shelfOf]
    · simp [shelfOf, hi]
  | pool => simp [shelfOf]
  | held sp => simp [shelfOf]

theorem shelfOf_pc (sp : ℕ) (q : Pc) :
    shelfOf conns be (Function.update pc sp q) = Function.update (shelfOf conns be pc) (.held sp) q.vc.toList := by
  funext p
  cases p with
  | held i =>
    by_cases hi : i = sp
    · subst hi
      simp [shelfOf]
    · simp [shelfOf, hi]
  | pool => simp [shelfOf]
  | idle b => simp [shelfOf]

end Places

/-! ## The connections -/

section Conns

/-- Each connection is in one place and fits there. -/
structure Conns (place : ℕ → Option Place) (vc : ℕ → VbeConn) (next : ℕ) (conns : List ℕ) (be : ℕ → Backend) (pc : ℕ → Pc) :
    Prop where
  shelves : Shelves place (shelfOf conns be pc)
  fits : ∀ x, Fits pc (vc x) (place x)
  lt : ∀ x, place x ≠ none → x < next

variable {place : ℕ → Option Place} {vc : ℕ → VbeConn} {next : ℕ} {conns l : List ℕ} {be : ℕ → Backend} {pc : ℕ → Pc}
variable {x b sp : ℕ} {c : VbeConn} {y : Backend} {q : Pc} {pc' : ℕ → Pc}

namespace Conns

theorem place_held (h : Conns place vc next conns be pc) : place x = some (.held sp) ↔ (pc sp).vc = some x := by
  rw [← h.shelves.mem_iff]
  simp [shelfOf]

theorem fits_held (h : Conns place vc next conns be pc) (hx : (pc sp).vc = some x) : (vc x).live = true ∧ (pc sp).Fits (vc x) := by
  have := h.fits x
  rwa [h.place_held.2 hx] at this

theorem fits_idle (h : Conns place vc next conns be pc) (hx : x ∈ (be b).connlist) :
    (vc x).live = true ∧ (vc x).backend = some b ∧ (vc x).fd ≠ none := by
  have := h.fits x
  rwa [(h.shelves.mem_iff (.idle b) x).1 hx] at this

theorem fits_pool (h : Conns place vc next conns be pc) (hx : x ∈ conns) :
    (vc x).live = true ∧ (vc x).backend = none ∧ (vc x).fd = none := by
  have := h.fits x
  rwa [(h.shelves.mem_iff .pool x).1 hx] at this

/-- A connection fits as before if the session that has it is where it was. -/
theorem fits_at (h : Conns place vc next conns be pc) (z : ℕ) (hpc : ∀ i, (pc i).vc = some z → pc' i = pc i) :
    Fits pc' (vc z) (place z) := by
  have hf := h.fits z
  cases hp : place z with
  | none => rwa [hp] at hf
  | some r =>
    rw [hp] at hf
    cases r with
    | pool => exact hf
    | idle b => exact hf
    | held i =>
      rw [Fits, hpc i (h.place_held.1 hp)]
      exact hf

/-- Where one connection changes, the others fit as before. -/
theorem fits_update (h : Conns place vc next conns be pc) (hpc : ∀ z, z ≠ x → ∀ i, (pc i).vc = some z → pc' i = pc i)
    {p : Option Place} (hx : Fits pc' c p) (z : ℕ) : Fits pc' (Function.update vc x c z) (Function.update place x p z) := by
  by_cases hz : z = x
  · subst hz
    rwa [Function.update_self, Function.update_self]
  · rw [Function.update_of_ne hz, Function.update_of_ne hz]
    exact h.fits_at z (hpc z hz)

/-- Only a session moves on that has the connection `x` or none. -/
theorem others (hsp : ∀ z, z ≠ x → (pc sp).vc ≠ some z) (z : ℕ) (hz : z ≠ x) (i : ℕ) (hi : (pc i).vc = some z) :
    Function.update pc sp q i = pc i :=
  Function.update_of_ne (fun he => hsp z hz (by rw [← he]; exact hi)) _ _

theorem lt_update (h : Conns place vc next conns be pc) (hx : x < next) {p : Option Place} (z : ℕ)
    (hz : Function.update place x p z ≠ none) : z < next := by
  by_cases he : z = x
  · exact he ▸ hx
  · rw [Function.update_of_ne he] at hz
    exact h.lt z hz

theorem lt_of_mem (h : Conns place vc next conns be pc) {p : Place} (hx : x ∈ shelfOf conns be pc p) : x < next :=
  h.lt x (by rw [(h.shelves.mem_iff p x).1 hx]; exact nofun)

/-- Nothing changes but what a session without a connection does. -/
theorem walk (h : Conns place vc next conns be pc) (hsp : (pc sp).vc = none) (hq : q.vc = none) :
    Conns place vc next conns be (Function.update pc sp q) := by
  refine ⟨?_, fun z => h.fits_at z fun i hi => Function.update_of_ne (fun he => ?_) _ _, h.lt⟩
  · rw [shelfOf_pc, hq, ← hsp]
    exact (Function.update_eq_self (Place.held sp) (shelfOf conns be pc)).symm ▸ h.shelves
  · rw [he, hsp] at hi
    cases hi

theorem shelf_free (hsp : (pc sp).vc = none) : shelfOf conns be pc (.held sp) = [] := by
  rw [shelfOf, hsp]
  rfl

theorem shelf_held (hsp : (pc sp).vc = some x) : shelfOf conns be pc (.held sp) = [x] := by
  rw [shelfOf, hsp]
  rfl

theorem others_free (hsp : (pc sp).vc = none) (z : ℕ) (hz : z ≠ x) (i : ℕ) (hi : (pc i).vc = some z) :
    Function.update pc sp q i = pc i :=
  others (fun _ _ he => by rw [hsp] at he; cases he) z hz i hi

theorem others_held (hsp : (pc sp).vc = some x) (z : ℕ) (hz : z ≠ x) (i : ℕ) (hi : (pc i).vc = some z) :
    Function.update pc sp q i = pc i :=
  others (fun _ hz he => hz (Option.some.inj (he.symm.trans hsp))) z hz i hi

/-- A session keeps its connection. -/
theorem stay (h : Conns place vc next conns be pc) (hsp : (pc sp).vc = some x) (hq : q.vc = some x) (hlive : c.live = true)
    (hc : q.Fits c) : Conns place (Function.update vc x c) next conns be (Function.update pc sp q) := by
  refine ⟨?_, fun z => ?_, h.lt⟩
  · rw [shelfOf_pc, hq, ← hsp]
    exact (Function.update_eq_self (Place.held sp) (shelfOf conns be pc)).symm ▸ h.shelves
  · have hz := h.fits_update (others_held hsp (q := q)) (p := some (.held sp)) (c := c)
      ⟨hlive, by rwa [Function.update_self]⟩ z
    rwa [← h.place_held.2 hsp, Function.update_eq_self] at hz

/-- A session without a connection takes an idle one. -/
theorem getIdle (h : Conns place vc next conns be pc) (hsp : (pc sp).vc = none) (hb : (be b).connlist = x :: y.connlist)
    (hq : q.vc = some x) (hc : q.Fits (vc x)) :
    Conns (Function.update place x (some (.held sp))) vc next conns (Function.update be b y) (Function.update pc sp q) := by
  have hl : shelfOf conns be pc (.idle b) = x :: y.connlist := hb
  refine ⟨?_, fun z => ?_, h.lt_update (h.lt_of_mem (hl ▸ List.mem_cons_self))⟩
  · have hm := h.shelves.move hl (q := .held sp) nofun
    rwa [shelf_free hsp, ← shelfOf_be, ← Option.toList_some, ← hq, ← shelfOf_pc] at hm
  · have hz := h.fits_update (x := x) (c := vc x) (p := some (.held sp)) (others_free (q := q) hsp)
      ⟨(h.fits_idle (hb ▸ List.mem_cons_self)).1, by rwa [Function.update_self]⟩ z
    rwa [Function.update_eq_self] at hz

/-- It takes one that has no backend. -/
theorem getPool (h : Conns place vc next (x :: l) be pc) (hsp : (pc sp).vc = none) (hq : q.vc = some x) (hc : q.Fits (vc x)) :
    Conns (Function.update place x (some (.held sp))) vc next l be (Function.update pc sp q) := by
  have hl : shelfOf (x :: l) be pc .pool = x :: l := rfl
  refine ⟨?_, fun z => ?_, h.lt_update (h.lt_of_mem (hl ▸ List.mem_cons_self))⟩
  · have hm := h.shelves.move hl (q := .held sp) nofun
    rwa [shelf_free hsp, ← shelfOf_conns, ← Option.toList_some, ← hq, ← shelfOf_pc] at hm
  · have hz := h.fits_update (x := x) (c := vc x) (p := some (.held sp)) (others_free (q := q) hsp)
      ⟨(h.fits_pool List.mem_cons_self).1, by rwa [Function.update_self]⟩ z
    rwa [Function.update_eq_self] at hz

/-- It makes a new one. -/
theorem getNew (h : Conns place vc next conns be pc) (hsp : (pc sp).vc = none) (hq : q.vc = some next) (hlive : c.live = true)
    (hc : q.Fits c) :
    Conns (Function.update place next (some (.held sp))) (Function.update vc next c) (next + 1) conns be
      (Function.update pc sp q) := by
  have hnew : place next = none := by
    by_contra hne
    exact Nat.lt_irrefl _ (h.lt next hne)
  refine ⟨?_, h.fits_update (others_free hsp) ⟨hlive, by rwa [Function.update_self]⟩, fun z hz => ?_⟩
  · have hm := h.shelves.put hnew (.held sp)
    rwa [shelf_free hsp, ← Option.toList_some, ← hq, ← shelfOf_pc] at hm
  · by_cases he : z = next
    · omega
    · rw [Function.update_of_ne he] at hz
      exact Nat.lt_succ_of_lt (h.lt z hz)

/-- A session gives its connection back to its backend. -/
theorem giveIdle (h : Conns place vc next conns be pc) (hsp : (pc sp).vc = some x) (hq : q.vc = none)
    (hy : y.connlist = x :: (be b).connlist) (hb : (vc x).backend = some b) (hfd : (vc x).fd ≠ none) :
    Conns (Function.update place x (some (.idle b))) vc next conns (Function.update be b y) (Function.update pc sp q) := by
  have hl : shelfOf conns be pc (.held sp) = [x] := shelf_held hsp
  refine ⟨?_, fun z => ?_, h.lt_update (h.lt_of_mem (hl ▸ List.mem_cons_self))⟩
  · have hm := h.shelves.move hl (q := .idle b) nofun
    rwa [shelfOf, ← hy, ← Option.toList_none, ← hq, ← shelfOf_pc, ← shelfOf_be] at hm
  · have hz := h.fits_update (c := vc x) (p := some (.idle b)) (others_held (q := q) hsp) ⟨(h.fits_held hsp).1, hb, hfd⟩ z
    rwa [Function.update_eq_self] at hz

/-- It gives one back that has no backend. -/
theorem givePool (h : Conns place vc next conns be pc) (hsp : (pc sp).vc = some x) (hq : q.vc = none) (hlive : c.live = true)
    (hb : c.backend = none) (hfd : c.fd = none) :
    Conns (Function.update place x (some .pool)) (Function.update vc x c) next (x :: conns) be (Function.update pc sp q) := by
  have hl : shelfOf conns be pc (.held sp) = [x] := shelf_held hsp
  refine ⟨?_, h.fits_update (others_held hsp) ⟨hlive, hb, hfd⟩, h.lt_update (h.lt_of_mem (hl ▸ List.mem_cons_self))⟩
  have hm := h.shelves.move hl (q := .pool) nofun
  rwa [shelfOf, ← Option.toList_none, ← hq, ← shelfOf_pc, ← shelfOf_conns] at hm

/-- It frees it. -/
theorem giveFree (h : Conns place vc next conns be pc) (hsp : (pc sp).vc = some x) (hq : q.vc = none) (hlive : c.live = false)
    (hfd : c.fd = none) :
    Conns (Function.update place x none) (Function.update vc x c) next conns be (Function.update pc sp q) := by
  have hl : shelfOf conns be pc (.held sp) = [x] := shelf_held hsp
  refine ⟨?_, h.fits_update (others_held hsp) ⟨hlive, hfd⟩, h.lt_update (h.lt_of_mem (hl ▸ List.mem_cons_self))⟩
  have hm := h.shelves.take hl
  rwa [← Option.toList_none, ← hq, ← shelfOf_pc] at hm

/-- An idle connection loses its backend. -/
theorem drainPool (h : Conns place vc next conns be pc) (hb : (be b).connlist = x :: y.connlist) (hlive : c.live = true)
    (hcb : c.backend = none) (hfd : c.fd = none) :
    Conns (Function.update place x (some .pool)) (Function.update vc x c) next (x :: conns) (Function.update be b y) pc := by
  have hl : shelfOf conns be pc (.idle b) = x :: y.connlist := hb
  refine ⟨?_, h.fits_update (fun _ _ _ _ => rfl) ⟨hlive, hcb, hfd⟩, h.lt_update (h.lt_of_mem (hl ▸ List.mem_cons_self))⟩
  have hm := h.shelves.move hl (q := .pool) nofun
  rwa [shelfOf, ← shelfOf_be, ← shelfOf_conns] at hm

/-- It is freed. -/
theorem drainFree (h : Conns place vc next conns be pc) (hb : (be b).connlist = x :: y.connlist) (hlive : c.live = false)
    (hfd : c.fd = none) :
    Conns (Function.update place x none) (Function.update vc x c) next conns (Function.update be b y) pc := by
  have hl : shelfOf conns be pc (.idle b) = x :: y.connlist := hb
  refine ⟨?_, h.fits_update (fun _ _ _ _ => rfl) ⟨hlive, hfd⟩, h.lt_update (h.lt_of_mem (hl ▸ List.mem_cons_self))⟩
  have hm := h.shelves.take hl
  rwa [← shelfOf_be] at hm

/-- The list of a backend is as it was. -/
theorem sameList (h : Conns place vc next conns be pc) (hy : y.connlist = (be b).connlist) :
    Conns place vc next conns (Function.update be b y) pc := by
  refine ⟨?_, h.fits, h.lt⟩
  rw [shelfOf_be, hy]
  exact (Function.update_eq_self (Place.idle b) (shelfOf conns be pc)).symm ▸ h.shelves

end Conns

end Conns

/-! ## The open files -/

section Fds

/-- Each open file is that of one connection. -/
structure Fds (fds : List ℕ) (vc : ℕ → VbeConn) : Prop where
  nodup : fds.Nodup
  mem_iff : ∀ f, f ∈ fds ↔ ∃ x, (vc x).fd = some f
  one : ∀ x y f, (vc x).fd = some f → (vc y).fd = some f → x = y

variable {fds : List ℕ} {vc : ℕ → VbeConn} {x f : ℕ} {c : VbeConn}

namespace Fds

theorem same (h : Fds fds vc) (hc : c.fd = (vc x).fd) : Fds fds (Function.update vc x c) := by
  have hfd : ∀ z, (Function.update vc x c z).fd = (vc z).fd := fun z => by
    by_cases hz : z = x
    · rw [hz, Function.update_self, hc]
    · rw [Function.update_of_ne hz]
  exact ⟨h.nodup, fun f => by simp only [hfd, h.mem_iff], fun y z f => by simpa only [hfd] using h.one y z f⟩

theorem close (h : Fds fds vc) (hx : (vc x).fd = some f) (hc : c.fd = none) : Fds (fds.erase f) (Function.update vc x c) := by
  refine ⟨h.nodup.erase f, fun g => ?_, fun y z g hy hz => ?_⟩
  · rw [h.nodup.mem_erase_iff, h.mem_iff]
    constructor
    · rintro ⟨hg, y, hy⟩
      have hne : y ≠ x := fun he => hg (Option.some.inj (hy.symm.trans (he ▸ hx)))
      exact ⟨y, by rwa [Function.update_of_ne hne]⟩
    · rintro ⟨y, hy⟩
      by_cases hyx : y = x
      · rw [hyx, Function.update_self, hc] at hy
        cases hy
      · rw [Function.update_of_ne hyx] at hy
        exact ⟨fun hg => hyx (h.one y x g hy (hg ▸ hx)), y, hy⟩
  · by_cases hyx : y = x
    · rw [hyx, Function.update_self, hc] at hy
      cases hy
    · by_cases hzx : z = x
      · rw [hzx, Function.update_self, hc] at hz
        cases hz
      · rw [Function.update_of_ne hyx] at hy
        rw [Function.update_of_ne hzx] at hz
        exact h.one y z g hy hz

theorem opens (h : Fds fds vc) (hf : f ∉ fds) (hx : (vc x).fd = none) (hc : c.fd = some f) :
    Fds (f :: fds) (Function.update vc x c) := by
  have hno : ∀ z, (vc z).fd ≠ some f := fun z hz => hf ((h.mem_iff f).2 ⟨z, hz⟩)
  refine ⟨List.nodup_cons.2 ⟨hf, h.nodup⟩, fun g => ?_, fun y z g hy hz => ?_⟩
  · rw [List.mem_cons, h.mem_iff]
    constructor
    · rintro (rfl | ⟨y, hy⟩)
      · exact ⟨x, by rw [Function.update_self, hc]⟩
      · have hne : y ≠ x := fun he => by
          rw [he, hx] at hy
          cases hy
        exact ⟨y, by rwa [Function.update_of_ne hne]⟩
    · rintro ⟨y, hy⟩
      by_cases hyx : y = x
      · rw [hyx, Function.update_self, hc] at hy
        exact .inl (Option.some.inj hy).symm
      · rw [Function.update_of_ne hyx] at hy
        exact .inr ⟨y, hy⟩
  · by_cases hyx : y = x
    · by_cases hzx : z = x
      · rw [hyx, hzx]
      · rw [hyx, Function.update_self, hc] at hy
        rw [Function.update_of_ne hzx] at hz
        exact absurd (hz.trans hy.symm) (hno z)
    · rw [Function.update_of_ne hyx] at hy
      by_cases hzx : z = x
      · rw [hzx, Function.update_self, hc] at hz
        exact absurd (hy.trans hz.symm) (hno y)
      · rw [Function.update_of_ne hzx] at hz
        exact h.one y z g hy hz

end Fds

end Fds

/-! ## The counts -/

section Counts

/-- The directors that have a backend. -/
def refs (dirs : List (ℕ × ℕ)) (b : ℕ) : ℕ := dirs.countP fun d => d.2 = b

/-- The counts of the backends are those of the directors, of the idle connections and of the sessions. -/
structure Counts (be : ℕ → Backend) (dirs : List (ℕ × ℕ)) (pc : ℕ → Pc) : Prop where
  tally : ∃ mem, Tally (fun b => ((be b).refcount : ℤ) - refs dirs b) mem (fun sp => (pc sp).counts) 0
  nConn : ∀ b, 0 < (be b).refcount → (be b).nConn + refs dirs b = (be b).connlist.length + (be b).refcount

variable {be : ℕ → Backend} {dirs dirs' : List (ℕ × ℕ)} {pc : ℕ → Pc} {q : Pc} {b sp : ℕ} {y : Backend}

theorem refs_cons (v i : ℕ) : refs ((v, b) :: dirs) i = refs dirs i + if b = i then 1 else 0 := by
  simp [refs, List.countP_cons]

theorem refs_erase {d : ℕ × ℕ} (hd : d ∈ dirs) (i : ℕ) : refs (dirs.erase d) i = refs dirs i - if d.2 = i then 1 else 0 := by
  simp [refs, List.countP_erase, hd]

theorem refs_pos {v : ℕ} (h : (v, b) ∈ dirs) : 0 < refs dirs b := List.countP_pos_iff.2 ⟨(v, b), h, by simp⟩

/-- The references of the sessions, where one backend changes. -/
theorem cnt_update {k : ℤ} (hk : (y.refcount : ℤ) - refs dirs b = k) :
    (fun i => ((Function.update be b y i).refcount : ℤ) - refs dirs i) =
      Function.update (fun i => ((be i).refcount : ℤ) - refs dirs i) b k := by
  funext i
  by_cases hi : i = b
  · rw [hi, Function.update_self, Function.update_self, hk]
  · rw [Function.update_of_ne hi, Function.update_of_ne hi]

theorem counts_update (sp : ℕ) (q : Pc) :
    (fun i => (Function.update pc sp q i).counts) = Function.update (fun i => (pc i).counts) sp q.counts := by
  funext i
  by_cases hi : i = sp
  · rw [hi, Function.update_self, Function.update_self]
  · rw [Function.update_of_ne hi, Function.update_of_ne hi]

namespace Counts

/-- A session goes on as it counts. -/
theorem walk (h : Counts be dirs pc) (hq : q.counts = (pc sp).counts) : Counts be dirs (Function.update pc sp q) := by
  obtain ⟨mem, ht⟩ := h.tally
  refine ⟨⟨mem, ?_⟩, h.nConn⟩
  rw [counts_update, hq, Function.update_eq_self sp fun i => (pc i).counts]
  exact ht

theorem refs_le (h : Counts be dirs pc) (b : ℕ) : refs dirs b ≤ (be b).refcount := by
  obtain ⟨mem, ht⟩ := h.tally
  have := ht.count b
  simp only [Pi.zero_apply] at this
  omega

theorem refs_lt (h : Counts be dirs pc) (hsp : (pc sp).counts = some b) : refs dirs b < (be b).refcount := by
  obtain ⟨mem, ht⟩ := h.tally
  have := ht.pos hsp le_rfl
  omega

theorem nConn_update (h : Counts be dirs pc) (hdirs : ∀ i, i ≠ b → refs dirs' i = refs dirs i)
    (hy : 0 < y.refcount → y.nConn + refs dirs' b = y.connlist.length + y.refcount) (i : ℕ)
    (hi : 0 < (Function.update be b y i).refcount) :
    (Function.update be b y i).nConn + refs dirs' i =
      (Function.update be b y i).connlist.length + (Function.update be b y i).refcount := by
  by_cases he : i = b
  · subst he
    rw [Function.update_self] at hi ⊢
    exact hy hi
  · rw [Function.update_of_ne he] at hi ⊢
    rw [hdirs i he]
    exact h.nConn i hi

/-- A session gets a connection, or starts to. -/
theorem attach (h : Counts be dirs pc) (hsp : (pc sp).counts = none) (hq : q.counts = some b) (hr : y.refcount = (be b).refcount + 1)
    (hpos : 0 < (be b).refcount) (hn : y.nConn + (be b).connlist.length = (be b).nConn + y.connlist.length + 1) :
    Counts (Function.update be b y) dirs (Function.update pc sp q) := by
  obtain ⟨mem, ht⟩ := h.tally
  have ha := ht.attach b hsp
  rw [← cnt_update (y := y) (by omega), ← hq, ← counts_update] at ha
  refine ⟨⟨_, ha⟩, h.nConn_update (fun _ _ => rfl) fun _ => ?_⟩
  have := h.nConn b hpos
  omega

/-- It no longer has it. -/
theorem detach (h : Counts be dirs pc) (hsp : (pc sp).counts = some b) (hq : q.counts = none) (hr : y.refcount = (be b).refcount - 1)
    (hn : y.nConn + (be b).connlist.length + 1 = (be b).nConn + y.connlist.length) :
    Counts (Function.update be b y) dirs (Function.update pc sp q) := by
  obtain ⟨mem, ht⟩ := h.tally
  have hlt := h.refs_lt hsp
  have ha := ht.detach hsp
  rw [← cnt_update (y := y) (by omega), ← hq, ← counts_update] at ha
  refine ⟨⟨_, ha⟩, h.nConn_update (fun _ _ => rfl) fun _ => ?_⟩
  have := h.nConn b (by omega)
  omega

/-- The directors and the `refcount` change together. -/
theorem dirs_update (h : Counts be dirs pc) (hdirs : ∀ i, i ≠ b → refs dirs' i = refs dirs i)
    (hr : y.refcount + refs dirs b = (be b).refcount + refs dirs' b)
    (hn : 0 < y.refcount → y.nConn + refs dirs' b = y.connlist.length + y.refcount) :
    Counts (Function.update be b y) dirs' pc := by
  obtain ⟨mem, ht⟩ := h.tally
  refine ⟨⟨mem, ?_⟩, h.nConn_update hdirs hn⟩
  have hc : (fun i => ((Function.update be b y i).refcount : ℤ) - refs dirs' i) = fun i => ((be i).refcount : ℤ) - refs dirs i := by
    funext i
    by_cases hi : i = b
    · rw [hi, Function.update_self]
      omega
    · rw [Function.update_of_ne hi, hdirs i hi]
  exact hc ▸ ht

/-- A backend that nothing refers to changes. -/
theorem unused (h : Counts be dirs pc) (hb : (be b).refcount = 0) (hy : y.refcount = 0) :
    Counts (Function.update be b y) dirs pc :=
  h.dirs_update (fun _ _ => rfl) (by omega) fun hpos => by omega

end Counts

end Counts

/-! ## The backends and the VCLs -/

section Links

/-- `VBE_Poll` was called, and no reference dropped since. -/
def Cli.polled : Cli → Bool
  | .idle p => p
  | .adding _ _ _ => true
  | _ => false

/-- The VCL that is disposed of. -/
def Cli.drops : Cli → Option ℕ
  | .dropping v | .cleaning v _ => some v
  | _ => none

/-- Who may use which backend, and what the CLI thread relies on. -/
structure Links (be : ℕ → Backend) (backends : List ℕ) (nextBe : ℕ) (dirs : List (ℕ × ℕ)) (discard : ℕ → Bool)
    (vcl : ℕ → Option ℕ) (pc : ℕ → Pc) (cli : Cli) : Prop where
  uses : ∀ sp b, (pc sp).uses = some b → ∃ v, vcl sp = some v ∧ (v, b) ∈ dirs
  listed : ∀ d ∈ dirs, d.2 ∈ backends
  nodup : backends.Nodup
  lt : ∀ b ∈ backends, b < nextBe
  freed : ∀ b, b ∉ backends → (be b).refcount = 0 ∧ (be b).connlist = []
  gone : ∀ v, cli.drops = some v → discard v = true ∧ ∀ sp, vcl sp ≠ some v
  zero : ∀ b ∈ backends, (be b).refcount = 0 →
    (cli.polled = false ∧ (be b).connlist = [] ∧ (be b).probe = false) ∨ ∃ v, cli = .cleaning v b
  adding : ∀ v b n, cli = .adding v b n → b ∈ backends
  cleaning : ∀ v b, cli = .cleaning v b → b ∈ backends ∧ (be b).refcount = 0

variable {be : ℕ → Backend} {backends : List ℕ} {nextBe : ℕ} {dirs : List (ℕ × ℕ)} {discard : ℕ → Bool}
variable {vcl : ℕ → Option ℕ} {pc : ℕ → Pc} {cli : Cli} {sp b v : ℕ} {y : Backend} {q : Pc}

namespace Links

/-- A session goes on with a backend of its VCL. -/
theorem walk (h : Links be backends nextBe dirs discard vcl pc cli)
    (hq : ∀ b, q.uses = some b → ∃ v, vcl sp = some v ∧ (v, b) ∈ dirs) :
    Links be backends nextBe dirs discard vcl (Function.update pc sp q) cli := by
  refine ⟨fun i b hi => ?_, h.listed, h.nodup, h.lt, h.freed, h.gone, h.zero, h.adding, h.cleaning⟩
  by_cases he : i = sp
  · rw [he, Function.update_self] at hi
    exact he ▸ hq b hi
  · rw [Function.update_of_ne he] at hi
    exact h.uses i b hi

/-- It goes on with the same backend. -/
theorem goesOn (h : Links be backends nextBe dirs discard vcl pc cli) (hq : q.uses = (pc sp).uses) :
    Links be backends nextBe dirs discard vcl (Function.update pc sp q) cli :=
  h.walk fun b hb => h.uses sp b (hq ▸ hb)

/-- It goes on with none. -/
theorem stops (h : Links be backends nextBe dirs discard vcl pc cli) (hq : q.uses = none) :
    Links be backends nextBe dirs discard vcl (Function.update pc sp q) cli :=
  h.walk fun b hb => by
    rw [hq] at hb
    cases hb

/-- A backend changes, which has references before and after. -/
theorem setBe (h : Links be backends nextBe dirs discard vcl pc cli) (hb : 0 < (be b).refcount) (hy : 0 < y.refcount) :
    Links (Function.update be b y) backends nextBe dirs discard vcl pc cli := by
  refine ⟨h.uses, h.listed, h.nodup, h.lt, fun i hi => ?_, h.gone, fun i hi hr => ?_, h.adding, fun v i hi => ?_⟩
  · have hf := h.freed i hi
    have hne : i ≠ b := fun he => by
      rw [he] at hf
      omega
    rwa [Function.update_of_ne hne]
  · have hne : i ≠ b := fun he => by
      rw [he, Function.update_self] at hr
      omega
    rw [Function.update_of_ne hne] at hr ⊢
    exact h.zero i hi hr
  · have hc := h.cleaning v i hi
    have hne : i ≠ b := fun he => by
      rw [he] at hc
      omega
    rwa [Function.update_of_ne hne]

/-- A session gets a VCL that is not discarded. -/
theorem vclGet (h : Links be backends nextBe dirs discard vcl pc cli) (hv : vcl sp = none) (hd : discard v = false) :
    Links be backends nextBe dirs discard (Function.update vcl sp (some v)) pc cli := by
  refine ⟨fun i b hi => ?_, h.listed, h.nodup, h.lt, h.freed, fun w hw => ?_, h.zero, h.adding, h.cleaning⟩
  · obtain ⟨w, hw, hm⟩ := h.uses i b hi
    have hne : i ≠ sp := fun he => by
      rw [he, hv] at hw
      cases hw
    exact ⟨w, by rwa [Function.update_of_ne hne], hm⟩
  · obtain ⟨hdw, hg⟩ := h.gone w hw
    refine ⟨hdw, fun i hi => ?_⟩
    by_cases he : i = sp
    · rw [he, Function.update_self] at hi
      rw [Option.some.inj hi, hdw] at hd
      cases hd
    · rw [Function.update_of_ne he] at hi
      exact hg i hi

theorem vclRel (h : Links be backends nextBe dirs discard vcl pc cli) (hsp : pc sp = .free) :
    Links be backends nextBe dirs discard (Function.update vcl sp none) pc cli := by
  refine ⟨fun i b hi => ?_, h.listed, h.nodup, h.lt, h.freed, fun w hw => ?_, h.zero, h.adding, h.cleaning⟩
  · have hne : i ≠ sp := fun he => by
      rw [he, hsp] at hi
      cases hi
    rw [Function.update_of_ne hne]
    exact h.uses i b hi
  · refine ⟨(h.gone w hw).1, fun i hi => ?_⟩
    by_cases he : i = sp
    · rw [he, Function.update_self] at hi
      cases hi
    · rw [Function.update_of_ne he] at hi
      exact (h.gone w hw).2 i hi

/-- Behind `VBE_Poll` each backend has references. -/
theorem pos_of_polled (h : Links be backends nextBe dirs discard vcl pc cli) (hcli : cli.polled = true) (hb : b ∈ backends) :
    0 < (be b).refcount := by
  refine Nat.pos_of_ne_zero fun hr => ?_
  obtain ⟨hp, -⟩ | ⟨v, hc⟩ := h.zero b hb hr
  · rw [hp] at hcli
    cases hcli
  · rw [hc] at hcli
    cases hcli

/-- `VBE_AddBackend` finds a backend. -/
theorem found (h : Links be backends nextBe dirs discard vcl pc (.idle true)) (hb : b ∈ backends) (n : ℕ) :
    Links be backends nextBe dirs discard vcl pc (.adding v b n) := by
  refine ⟨h.uses, h.listed, h.nodup, h.lt, h.freed, nofun, fun i hi hr => ?_, fun w i m he => ?_, nofun⟩
  · have := h.pos_of_polled rfl hi
    omega
  · cases he
    exact hb

/-- It counts one reference more. -/
theorem store {n : ℕ} (h : Links be backends nextBe dirs discard vcl pc (.adding v b n)) (hy : 0 < y.refcount) :
    Links (Function.update be b y) backends nextBe ((v, b) :: dirs) discard vcl pc (.idle true) := by
  have hb := h.adding v b n rfl
  have h1 := h.setBe (h.pos_of_polled rfl hb) hy
  refine ⟨fun sp i hi => ?_, fun d hd => ?_, h1.nodup, h1.lt, h1.freed, nofun, fun i hi hr => ?_, nofun, nofun⟩
  · obtain ⟨w, hw, hm⟩ := h1.uses sp i hi
    exact ⟨w, hw, List.mem_cons_of_mem _ hm⟩
  · obtain rfl | hd := List.mem_cons.1 hd
    · exact hb
    · exact h1.listed d hd
  · have := h1.pos_of_polled rfl hi
    omega

/-- It makes a new one. -/
theorem new (h : Links be backends nextBe dirs discard vcl pc (.idle true)) (hy : 0 < y.refcount) :
    Links (Function.update be nextBe y) (backends ++ [nextBe]) (nextBe + 1) ((v, nextBe) :: dirs) discard vcl pc (.idle true) := by
  have hne : ∀ i ∈ backends, i ≠ nextBe := fun i hi => (h.lt i hi).ne
  refine ⟨fun sp i hi => ?_, fun d hd => ?_, ?_, fun i hi => ?_, fun i hi => ?_, nofun, fun i hi hr => ?_, nofun, nofun⟩
  · obtain ⟨w, hw, hm⟩ := h.uses sp i hi
    exact ⟨w, hw, List.mem_cons_of_mem _ hm⟩
  · obtain rfl | hd := List.mem_cons.1 hd
    · simp
    · exact List.mem_append_left _ (h.listed d hd)
  · exact List.nodup_append.2 ⟨h.nodup, List.nodup_singleton _, fun i hi j hj => by
      rw [List.mem_singleton.1 hj]
      exact hne i hi⟩
  · obtain hi | hi := List.mem_append.1 hi
    · exact Nat.lt_succ_of_lt (h.lt i hi)
    · rw [List.mem_singleton.1 hi]
      exact Nat.lt_succ_self _
  · have hi' : i ≠ nextBe := fun he => hi (he ▸ by simp)
    rw [Function.update_of_ne hi']
    exact h.freed i fun hm => hi (List.mem_append_left _ hm)
  · by_cases he : i = nextBe
    · rw [he, Function.update_self] at hr
      omega
    · rw [Function.update_of_ne he] at hr
      obtain hi | hi := List.mem_append.1 hi
      · have := h.pos_of_polled rfl hi
        omega
      · exact absurd (List.mem_singleton.1 hi) he

/-- While a VCL is disposed of, a backend without references is closed, but for one that is being closed. -/
theorem closed (h : Links be backends nextBe dirs discard vcl pc cli) (hb : b ∈ backends) (hr : (be b).refcount = 0)
    (hcli : ∀ v, cli ≠ .cleaning v b) : cli.polled = false ∧ (be b).connlist = [] ∧ (be b).probe = false :=
  (h.zero b hb hr).resolve_right fun ⟨v, hv⟩ => hcli v hv

/-- A director of the VCL drops its reference. -/
theorem drop (h : Links be backends nextBe dirs discard vcl pc (.dropping v)) {d : ℕ × ℕ} (hd : d ∈ dirs) (hdv : d.1 = v) :
    Links (Function.update be d.2 y) backends nextBe (dirs.erase d) discard vcl pc
      (if y.refcount = 0 then .cleaning v d.2 else .dropping v) := by
  refine ⟨fun sp i hi => ?_, fun e he => h.listed e (List.mem_of_mem_erase he), h.nodup, h.lt, fun i hi => ?_, fun w hw => ?_,
    fun i hi hr => ?_, fun w i n hi => ?_, fun w i hi => ?_⟩
  · obtain ⟨w, hw, hm⟩ := h.uses sp i hi
    have hne : (w, i) ≠ d := fun he => by
      rw [← he] at hdv
      exact (h.gone v rfl).2 sp (hdv ▸ hw)
    exact ⟨w, hw, (List.mem_erase_of_ne hne).2 hm⟩
  · have hne : i ≠ d.2 := fun he => hi (he ▸ h.listed d hd)
    rw [Function.update_of_ne hne]
    exact h.freed i hi
  · split at hw
    all_goals
      cases hw
      exact h.gone v rfl
  · by_cases he : i = d.2
    · rw [he, Function.update_self] at hr
      exact .inr ⟨v, by rw [if_pos hr, he]⟩
    · rw [Function.update_of_ne he] at hr ⊢
      refine .inl ⟨?_, (h.closed hi hr nofun).2⟩
      split
      all_goals rfl
  · split at hi
    all_goals cases hi
  · split at hi
    · cases hi
      rw [Function.update_self]
      exact ⟨h.listed d hd, ‹_›⟩
    · cases hi

/-- The backend that is being closed changes. -/
theorem clean (h : Links be backends nextBe dirs discard vcl pc (.cleaning v b)) (hy : y.refcount = 0) :
    Links (Function.update be b y) backends nextBe dirs discard vcl pc (.cleaning v b) := by
  refine ⟨h.uses, h.listed, h.nodup, h.lt, fun i hi => ?_, h.gone, fun i hi hr => ?_, nofun, fun w i hi => ?_⟩
  · have hne : i ≠ b := fun he => hi (he ▸ (h.cleaning v b rfl).1)
    rw [Function.update_of_ne hne]
    exact h.freed i hi
  · by_cases he : i = b
    · exact .inr ⟨v, by rw [he]⟩
    · rw [Function.update_of_ne he] at hr ⊢
      exact .inl (h.closed hi hr fun w hw => he (by cases hw; rfl))
  · cases hi
    rw [Function.update_self]
    exact ⟨(h.cleaning v b rfl).1, hy⟩

/-- Its connections and its probe are gone. -/
theorem cleaned (h : Links be backends nextBe dirs discard vcl pc (.cleaning v b)) (hlist : (be b).connlist = [])
    (hprobe : (be b).probe = false) : Links be backends nextBe dirs discard vcl pc (.dropping v) := by
  refine ⟨h.uses, h.listed, h.nodup, h.lt, h.freed, h.gone, fun i hi hr => .inl ⟨rfl, ?_⟩, nofun, nofun⟩
  by_cases he : i = b
  · exact he ▸ ⟨hlist, hprobe⟩
  · exact (h.closed hi hr fun w hw => he (by cases hw; rfl)).2

/-- It is freed. -/
theorem nuke (h : Links be backends nextBe dirs discard vcl pc (.cleaning v b)) (hlist : (be b).connlist = [])
    (hdirs : ∀ d ∈ dirs, d.2 ≠ b) : Links be (backends.erase b) nextBe dirs discard vcl pc (.dropping v) := by
  refine ⟨h.uses, fun d hd => (List.mem_erase_of_ne (hdirs d hd)).2 (h.listed d hd), h.nodup.erase b,
    fun i hi => h.lt i (List.mem_of_mem_erase hi), fun i hi => ?_, h.gone, fun i hi hr => .inl ⟨rfl, ?_⟩, nofun, nofun⟩
  · by_cases he : i = b
    · exact he ▸ ⟨(h.cleaning v b rfl).2, hlist⟩
    · exact h.freed i fun hm => hi ((List.mem_erase_of_ne he).2 hm)
  · rw [h.nodup.mem_erase_iff] at hi
    exact (h.closed hi.2 hr fun w hw => hi.1 (by cases hw; rfl)).2

end Links

end Links

/-! ## The invariant -/

section Steps

structure Inv (s : Pool) : Prop where
  conns : ∃ place, Conns place s.vc s.nextVc s.vbeConns s.be s.pc
  fds : Fds s.fds s.vc
  counts : Counts s.be s.dirs s.pc
  links : Links s.be s.backends s.nextBe s.dirs s.discard s.vcl s.pc s.cli

variable {s s' : Pool} {sp b vc v f : ℕ} {q : Pc}

theorem Inv.refs_pos (h : Inv s) (hsp : (s.pc sp).uses = some b) : 0 < refs s.dirs b :=
  have ⟨_, _, hd⟩ := h.links.uses sp b hsp
  Vbe.refs_pos hd

theorem Inv.pos (h : Inv s) (hsp : (s.pc sp).uses = some b) : 0 < (s.be b).refcount :=
  (h.refs_pos hsp).trans_le (h.counts.refs_le b)

/-- A session without a connection goes on with a backend of its VCL. -/
theorem Inv.walk (h : Inv s) (hsp : (s.pc sp).vc = none) (hq : q.vc = none) (hc : q.counts = (s.pc sp).counts)
    (hu : ∀ b, q.uses = some b → ∃ v, s.vcl sp = some v ∧ (v, b) ∈ s.dirs) : Inv (s.setPc sp q) :=
  have ⟨_, hp⟩ := h.conns
  ⟨⟨_, hp.walk hsp hq⟩, h.fds, h.counts.walk hc, h.links.walk hu⟩

theorem inv_getVbe (h : Inv s) (hsp : s.pc sp = .start b) (hs : vbeGetVbe s sp b = some s') : Inv s' := by
  have hu : (s.pc sp).uses = some b := by rw [hsp]; rfl
  obtain ⟨place, hp⟩ := h.conns
  unfold vbeGetVbe at hs
  cases hl : (s.be b).connlist with
  | nil =>
    rw [hl] at hs
    cases hs
    exact h.walk (by rw [hsp]; rfl) rfl (by rw [hsp]; rfl) fun i hi => h.links.uses sp i (by rw [hsp]; exact hi)
  | cons vc l =>
    simp only [hl] at hs
    split at hs
    · cases hs
      have hc := hp.fits_idle (hl ▸ List.mem_cons_self)
      refine ⟨⟨_, hp.getIdle (by rw [hsp]; rfl) hl rfl hc.2⟩, h.fds, ?_, ?_⟩
      · exact h.counts.attach (by rw [hsp]; rfl) rfl rfl (h.pos hu) (by simp only [hl, List.length_cons]; omega)
      · exact (h.links.setBe (h.pos hu) (Nat.succ_pos _)).goesOn (by rw [hsp]; rfl)
    · cases hs

theorem inv_checkFd (h : Inv s) (hsp : s.pc sp = .taken b vc) : Inv (s.setPc sp (.held b vc)) := by
  obtain ⟨place, hp⟩ := h.conns
  have hf := hp.fits_held (show (s.pc sp).vc = some vc by rw [hsp]; rfl)
  have hst := hp.stay (q := .held b vc) (c := s.vc vc) (by rw [hsp]; rfl) rfl hf.1 (by rw [hsp] at hf; exact hf.2)
  rw [Function.update_eq_self] at hst
  exact ⟨⟨_, hst⟩, h.fds, h.counts.walk (by rw [hsp]; rfl), h.links.goesOn (by rw [hsp]; rfl)⟩

theorem inv_maxConn {healthy : Bool} (h : Inv s) (hsp : s.pc sp = .miss b) : Inv (vbeMaxConn healthy s sp b) := by
  have hstop : Inv (s.setPc sp .free) := h.walk (by rw [hsp]; rfl) rfl (by rw [hsp]; rfl) fun i hi => by cases hi
  unfold vbeMaxConn
  split
  · exact hstop
  · split
    · exact hstop
    · exact h.walk (by rw [hsp]; rfl) rfl (by rw [hsp]; rfl) fun i hi => h.links.uses sp i (by rw [hsp]; exact hi)

theorem inv_newConn (h : Inv s) (hsp : s.pc sp = .wants b) (hs : vbeNewConn s sp b = some s') : Inv s' := by
  obtain ⟨place, hp⟩ := h.conns
  unfold vbeNewConn at hs
  cases hconns : s.vbeConns with
  | cons x l =>
    simp only [hconns] at hs
    split at hs
    · cases hs
      rw [hconns] at hp
      have hc := hp.fits_pool List.mem_cons_self
      exact ⟨⟨_, hp.getPool (q := .fresh b x) (by rw [hsp]; rfl) rfl hc.2⟩, h.fds, h.counts.walk (by rw [hsp]; rfl),
        h.links.goesOn (by rw [hsp]; rfl)⟩
    · cases hs
  | nil =>
    simp only [hconns] at hs
    cases hs
    rw [hconns] at hp
    have hnew : place s.nextVc = none := by
      by_contra hne
      exact Nat.lt_irrefl _ (hp.lt _ hne)
    have hfd := hp.fits s.nextVc
    rw [hnew] at hfd
    have hn := hp.getNew (q := .fresh b s.nextVc) (c := ⟨true, none, none⟩) (by rw [hsp]; rfl) rfl rfl ⟨rfl, rfl⟩
    exact ⟨⟨_, hn⟩, h.fds.same hfd.2.symm, h.counts.walk (by rw [hsp]; rfl), h.links.goesOn (by rw [hsp]; rfl)⟩

theorem inv_connTry (h : Inv s) (hsp : s.pc sp = .fresh b vc) : Inv (besConnTry s sp b vc) := by
  have hu : (s.pc sp).uses = some b := by rw [hsp]; rfl
  obtain ⟨place, hp⟩ := h.conns
  have hf := hp.fits_held (show (s.pc sp).vc = some vc by rw [hsp]; rfl)
  rw [hsp] at hf
  have hst := hp.stay (q := .trying b vc) (c := s.vc vc) (by rw [hsp]; rfl) rfl hf.1 hf.2
  rw [Function.update_eq_self] at hst
  exact ⟨⟨_, hst.sameList rfl⟩, h.fds, h.counts.attach (by rw [hsp]; rfl) rfl rfl (h.pos hu) (by simp only; omega),
    (h.links.setBe (h.pos hu) (Nat.succ_pos _)).goesOn (by rw [hsp]; rfl)⟩

theorem inv_connected {r : Option ℕ} (h : Inv s) (hsp : s.pc sp = .trying b vc) (hs : besConnected s sp b vc r = some s') :
    Inv s' := by
  have hu : (s.pc sp).uses = some b := by rw [hsp]; rfl
  have hc : (s.pc sp).counts = some b := by rw [hsp]; rfl
  have hv : (s.pc sp).vc = some vc := by rw [hsp]; rfl
  obtain ⟨place, hp⟩ := h.conns
  have hf := hp.fits_held hv
  rw [hsp] at hf
  cases r with
  | none =>
    cases hs
    have hlt := h.counts.refs_lt hc
    have hpos := h.refs_pos hu
    have hn := h.counts.nConn b (h.pos hu)
    have hst := hp.stay (q := .failed vc) (c := s.vc vc) hv rfl hf.1 hf.2
    rw [Function.update_eq_self] at hst
    refine ⟨⟨_, hst.sameList rfl⟩, h.fds, h.counts.detach hc rfl rfl (by simp only; omega), ?_⟩
    exact (h.links.setBe (h.pos hu) (by simp only; omega)).stops rfl
  | some f =>
    simp only [besConnected] at hs
    split at hs
    · cases hs
    · rename_i hfd
      cases hs
      have hst := hp.stay (q := .held b vc) (c := { s.vc vc with fd := some f, backend := some b }) hv rfl hf.1 ⟨rfl, nofun⟩
      exact ⟨⟨_, hst⟩, h.fds.opens hfd hf.2.2 rfl, h.counts.walk (by rw [hsp]; rfl), h.links.goesOn (by rw [hsp]; rfl)⟩

theorem vbeDropRefLocked_spec (hs : vbeDropRefLocked s b = some s') :
    0 < (s.be b).refcount ∧ s' = s.setBe b { s.be b with refcount := (s.be b).refcount - 1 } := by
  unfold vbeDropRefLocked at hs
  split at hs
  · exact ⟨‹_›, (Option.some.inj hs).symm⟩
  · cases hs

theorem closeFd_spec (hs : closeFd s vc f = some s') :
    s' = { s with fds := s.fds.erase f }.setVc vc { s.vc vc with fd := none } := by
  unfold closeFd at hs
  split at hs
  · exact (Option.some.inj hs).symm
  · cases hs

theorem inv_closedFd {again : Option ℕ} (h : Inv s)
    (hsp : (s.pc sp = .taken b vc ∧ again = some b) ∨ (s.pc sp = .held b vc ∧ again = none))
    (hs : vbeClosedFd s sp vc again = some s') : Inv s' := by
  have hu : (s.pc sp).uses = some b := by rcases hsp with ⟨hsp, -⟩ | ⟨hsp, -⟩ <;> rw [hsp] <;> rfl
  have hc : (s.pc sp).counts = some b := by rcases hsp with ⟨hsp, -⟩ | ⟨hsp, -⟩ <;> rw [hsp] <;> rfl
  have hv : (s.pc sp).vc = some vc := by rcases hsp with ⟨hsp, -⟩ | ⟨hsp, -⟩ <;> rw [hsp] <;> rfl
  obtain ⟨place, hp⟩ := h.conns
  have hf := hp.fits_held hv
  have hbe : (s.vc vc).backend = some b := by rcases hsp with ⟨hsp, -⟩ | ⟨hsp, -⟩ <;> rw [hsp] at hf <;> exact hf.2.1
  unfold vbeClosedFd at hs
  cases hfd : (s.vc vc).fd with
  | none =>
    rw [hfd] at hs
    cases hs
  | some f =>
    rw [hfd, hbe] at hs
    obtain ⟨s1, hs1, hs⟩ := Option.bind_eq_some_iff.1 hs
    have h1 := closeFd_spec hs1
    subst h1
    split at hs
    · cases hs
    · rename_i hnc
      obtain ⟨s2, hs2, hs⟩ := Option.bind_eq_some_iff.1 hs
      obtain ⟨-, h2⟩ := vbeDropRefLocked_spec hs2
      subst h2
      split at hs
      · cases hs
      · cases hs
        have hlt := h.counts.refs_lt hc
        have hpos := h.refs_pos hu
        have hst := hp.stay (q := .closing vc again) (c := { s.vc vc with fd := none }) hv rfl hf.1 rfl
        simp only [Pool.setBe, Pool.setVc, Pool.setPc, Function.update_self, Function.update_idem] at hnc ⊢
        refine ⟨⟨_, hst.sameList rfl⟩, h.fds.close hfd rfl, h.counts.detach hc rfl rfl (by simp only; omega), ?_⟩
        refine (h.links.setBe (h.pos hu) (by simp only; omega)).walk fun i hi => ?_
        rcases hsp with ⟨-, hn⟩ | ⟨-, hn⟩
        · rw [hn] at hi
          exact h.links.uses sp i (hu.trans hi)
        · rw [hn] at hi
          cases hi

theorem inv_recycleFd (h : Inv s) (hsp : s.pc sp = .held b vc) (hs : vbeRecycleFd s sp vc = some s') : Inv s' := by
  have hu : (s.pc sp).uses = some b := by rw [hsp]; rfl
  have hc : (s.pc sp).counts = some b := by rw [hsp]; rfl
  have hv : (s.pc sp).vc = some vc := by rw [hsp]; rfl
  obtain ⟨place, hp⟩ := h.conns
  have hf := (hp.fits_held hv).2
  rw [hsp] at hf
  unfold vbeRecycleFd at hs
  cases hfd : (s.vc vc).fd with
  | none =>
    rw [hfd] at hs
    cases hs
  | some f =>
    rw [hfd, hf.1] at hs
    obtain ⟨s1, hs1, hs⟩ := Option.bind_eq_some_iff.1 hs
    obtain ⟨-, h1⟩ := vbeDropRefLocked_spec hs1
    subst h1
    split at hs
    · cases hs
    · cases hs
      have hlt := h.counts.refs_lt hc
      have hpos := h.refs_pos hu
      simp only [Pool.setBe, Pool.setPc, Function.update_self, Function.update_idem]
      refine ⟨⟨_, hp.giveIdle hv rfl rfl hf.1 hf.2⟩, h.fds, h.counts.detach hc rfl rfl ?_, ?_⟩
      · simp only [List.length_cons]
        omega
      · exact (h.links.setBe (h.pos hu) (by simp only; omega)).stops rfl

/-- A connection without a backend is given back. -/
theorem inv_release {cached : Bool} {c : VbeConn} (h : Inv s) (hv : (s.pc sp).vc = some vc) (hq : q.vc = none)
    (hcounts : q.counts = (s.pc sp).counts) (hu : ∀ b, q.uses = some b → (s.pc sp).uses = some b) (hlive : c.live = (s.vc vc).live)
    (hfd : c.fd = (s.vc vc).fd) (hs : vbeReleaseConn cached ((s.setVc vc c).setPc sp q) vc = some s') : Inv s' := by
  obtain ⟨place, hp⟩ := h.conns
  have hf := hp.fits_held hv
  have hw := h.links.walk (q := q) fun b hb => h.links.uses sp b (hu b hb)
  unfold vbeReleaseConn at hs
  split at hs
  · rename_i hc
    simp only [Pool.setPc, Pool.setVc, Function.update_self, Function.update_idem] at hc hs
    split at hs
    · cases hs
      exact ⟨⟨_, hp.givePool hv hq (hlive.trans hf.1) hc.1 hc.2⟩, h.fds.same hfd, h.counts.walk hcounts, hw⟩
    · cases hs
      exact ⟨⟨_, hp.giveFree (c := { c with live := false }) hv hq rfl hc.2⟩, h.fds.same hfd, h.counts.walk hcounts, hw⟩
  · cases hs

theorem inv_sessStep {a : Act} (h : Inv s) (hs : sessStep s sp (s.pc sp) a = some s') : Inv s' := by
  unfold sessStep at hs
  split at hs
  · rename_i hsp
    split at hs
    · split at hs
      · cases hs
        exact h.walk (by rw [hsp]; rfl) rfl (by rw [hsp]; rfl) fun i hi => by
          cases hi
          exact ⟨_, ‹_›, ‹_›⟩
      · cases hs
    · cases hs
  · exact inv_getVbe h ‹_› hs
  · rename_i hsp
    split at hs
    · cases hs
      exact inv_checkFd h hsp
    · exact inv_closedFd h (.inl ⟨hsp, rfl⟩) hs
  · cases hs
    exact inv_maxConn h ‹_›
  · exact inv_newConn h ‹_› hs
  · cases hs
    exact inv_connTry h ‹_›
  · exact inv_connected h ‹_› hs
  · rename_i vc _ cached hsp
    have hr : vbeReleaseConn cached ((s.setVc vc (s.vc vc)).setPc sp .free) vc = some s' := by
      rw [Pool.setVc, Function.update_eq_self]
      exact hs
    exact inv_release h (by rw [hsp]; rfl) rfl (by rw [hsp]; rfl) (fun b hb => by cases hb) rfl rfl hr
  · rename_i vc again _ _ hsp
    refine inv_release (c := { s.vc vc with backend := none }) (q := again.elim .free .start) h (by rw [hsp]; rfl) ?_ ?_ ?_ rfl rfl hs
    all_goals cases again
    all_goals simp [hsp, Pc.vc, Pc.counts, Pc.uses]
  · exact inv_closedFd h (.inr ⟨‹_›, rfl⟩) hs
  · exact inv_recycleFd h ‹_› hs
  · cases hs

/-! ### The CLI thread -/

theorem inv_addBackend {ident maxConn : ℕ} {probe : Bool} (h : Inv s) (hcli : s.cli = .idle true) :
    Inv (vbeAddBackend s v ident maxConn probe) := by
  obtain ⟨place, hp⟩ := h.conns
  have hl := h.links
  rw [hcli] at hl
  unfold vbeAddBackend
  split
  · rename_i b hb
    exact ⟨⟨_, hp⟩, h.fds, h.counts, hl.found (List.mem_of_find?_eq_some hb) _⟩
  · have hout : s.nextBe ∉ s.backends := fun hm => Nat.lt_irrefl _ (hl.lt _ hm)
    obtain ⟨hr, hlist⟩ := hl.freed _ hout
    have hle := h.counts.refs_le s.nextBe
    have hdirs : ∀ i, i ≠ s.nextBe → refs ((v, s.nextBe) :: s.dirs) i = refs s.dirs i := fun i hi => by
      rw [refs_cons, if_neg hi.symm, Nat.add_zero]
    refine ⟨⟨_, hp.sameList hlist.symm⟩, h.fds, h.counts.dirs_update hdirs ?_ fun _ => ?_, ?_⟩
    · rw [refs_cons, if_pos rfl]
      simp only
      omega
    · rw [refs_cons, if_pos rfl]
      simp only [List.length_nil]
      omega
    · have hn := hl.new (v := v) (y := ⟨ident, 1, 0, maxConn, [], probe⟩) Nat.one_pos
      rw [← hcli] at hn
      exact hn

theorem inv_addStore {n : ℕ} (h : Inv s) (hcli : s.cli = .adding v b n) (hsafe : (s.be b).refcount = n) :
    Inv (vbeAddStore s v b n) := by
  obtain ⟨place, hp⟩ := h.conns
  have hl := h.links
  rw [hcli] at hl
  have hdirs : ∀ i, i ≠ b → refs ((v, b) :: s.dirs) i = refs s.dirs i := fun i hi => by
    rw [refs_cons, if_neg hi.symm, Nat.add_zero]
  have hone : refs ((v, b) :: s.dirs) b = refs s.dirs b + 1 := by rw [refs_cons, if_pos rfl]
  refine ⟨⟨_, hp.sameList rfl⟩, h.fds, h.counts.dirs_update hdirs ?_ fun _ => ?_, hl.store (Nat.succ_pos n)⟩
  · show n + 1 + refs s.dirs b = (s.be b).refcount + refs ((v, b) :: s.dirs) b
    omega
  · have := h.counts.nConn b (hl.pos_of_polled rfl (hl.adding v b n rfl))
    show (s.be b).nConn + refs ((v, b) :: s.dirs) b = (s.be b).connlist.length + (n + 1)
    omega

theorem inv_discard (h : Inv s) : Inv { s with discard := Function.update s.discard v true } := by
  have hl := h.links
  refine ⟨h.conns, h.fds, h.counts, ⟨hl.uses, hl.listed, hl.nodup, hl.lt, hl.freed, fun w hw => ⟨?_, (hl.gone w hw).2⟩, hl.zero,
    hl.adding, hl.cleaning⟩⟩
  by_cases he : w = v
  · subst he
    exact Function.update_self w true s.discard
  · exact (Function.update_of_ne he true s.discard).trans (hl.gone w hw).1

/-- Between two commands every backend without references is closed. -/
theorem Inv.closed {p : Bool} (h : Inv s) (hcli : s.cli = .idle p) (hb : b ∈ s.backends) (hr : (s.be b).refcount = 0) :
    (s.be b).connlist = [] ∧ (s.be b).probe = false :=
  (h.links.closed hb hr fun v hv => by rw [hcli] at hv; cases hv).2

theorem inv_dispose {p : Bool} (h : Inv s) (hcli : s.cli = .idle p) (hd : s.discard v = true) (hv : ∀ sp, s.vcl sp ≠ some v) :
    Inv { s with cli := .dropping v } := by
  have hl := h.links
  refine ⟨h.conns, h.fds, h.counts, ⟨hl.uses, hl.listed, hl.nodup, hl.lt, hl.freed, fun w hw => ?_, fun b hb hr => ?_, nofun, nofun⟩⟩
  · cases hw
    exact ⟨hd, hv⟩
  · exact .inl ⟨rfl, h.closed hcli hb hr⟩

theorem inv_poll {p : Bool} (h : Inv s) (hcli : s.cli = .idle p) : Inv (vbePoll s) := by
  obtain ⟨place, hp⟩ := h.conns
  have hl := h.links
  have hkeep : ∀ b ∈ s.backends, 0 < (s.be b).refcount →
      b ∈ s.backends.filter fun b => !((s.be b).refcount = 0 && !(s.be b).probe) := fun b hb hr => by
    rw [List.mem_filter]
    exact ⟨hb, by simp [hr.ne']⟩
  have hpos : ∀ b ∈ s.backends.filter fun b => !((s.be b).refcount = 0 && !(s.be b).probe), 0 < (s.be b).refcount := fun b hb => by
    rw [List.mem_filter] at hb
    refine Nat.pos_of_ne_zero fun hr => ?_
    have := (h.closed hcli hb.1 hr).2
    simp [hr, this] at hb
  refine ⟨⟨_, hp⟩, h.fds, h.counts, ⟨hl.uses, fun d hd => ?_, hl.nodup.filter _, fun b hb => hl.lt b (List.mem_of_mem_filter hb),
    fun b hb => ?_, nofun, fun b hb hr => ?_, nofun, nofun⟩⟩
  · exact hkeep d.2 (hl.listed d hd) ((refs_pos hd).trans_le (h.counts.refs_le d.2))
  · by_cases hm : b ∈ s.backends
    · have hr : (s.be b).refcount = 0 := by
        by_contra hne
        exact hb (hkeep b hm (Nat.pos_of_ne_zero hne))
      exact ⟨hr, (h.closed hcli hm hr).1⟩
    · exact hl.freed b hm
  · have hb0 := hpos b hb
    exact absurd hr hb0.ne'

theorem inv_dropRef (h : Inv s) (hcli : s.cli = .dropping v) (hs : vbeDropRef s v = some s') : Inv s' := by
  obtain ⟨place, hp⟩ := h.conns
  have hl := h.links
  rw [hcli] at hl
  unfold vbeDropRef at hs
  split at hs
  · cases hs
    exact ⟨⟨_, hp⟩, h.fds, h.counts, ⟨hl.uses, hl.listed, hl.nodup, hl.lt, hl.freed, nofun,
      fun b hb hr => .inl ⟨rfl, (hl.closed hb hr nofun).2⟩, nofun, nofun⟩⟩
  · rename_i d hfind
    have hd := List.mem_of_find?_eq_some hfind
    have hdv : d.1 = v := by simpa using List.find?_some hfind
    obtain ⟨s1, hs1, hs⟩ := Option.bind_eq_some_iff.1 hs
    obtain ⟨hpos, h1⟩ := vbeDropRefLocked_spec hs1
    subst h1
    cases hs
    have hrefs := refs_erase hd
    have hin := refs_pos (b := d.2) (v := d.1) hd
    have hle := h.counts.refs_le d.2
    refine ⟨⟨_, hp.sameList rfl⟩, h.fds, h.counts.dirs_update (fun i hi => ?_) ?_ fun _ => ?_, ?_⟩
    · show refs (s.dirs.erase d) i = refs s.dirs i
      rw [hrefs, if_neg hi.symm, Nat.sub_zero]
    · show (s.be d.2).refcount - 1 + refs s.dirs d.2 = (s.be d.2).refcount + refs (s.dirs.erase d) d.2
      rw [hrefs, if_pos rfl]
      omega
    · have := h.counts.nConn d.2 hpos
      show (s.be d.2).nConn + refs (s.dirs.erase d) d.2 = (s.be d.2).connlist.length + ((s.be d.2).refcount - 1)
      rw [hrefs, if_pos rfl]
      omega
    · have hdrop := hl.drop (y := { s.be d.2 with refcount := (s.be d.2).refcount - 1 }) hd hdv
      simp only [Pool.setBe, Function.update_self]
      exact hdrop

theorem inv_clean {cached : Bool} (h : Inv s) (hcli : s.cli = .cleaning v b) (hs : vbeClean cached s v b = some s') : Inv s' := by
  obtain ⟨place, hp⟩ := h.conns
  have hl := h.links
  rw [hcli] at hl
  have hr := (hl.cleaning v b rfl).2
  have hle := h.counts.refs_le b
  unfold vbeClean at hs
  cases hlist : (s.be b).connlist with
  | nil =>
    rw [hlist] at hs
    simp only at hs
    split at hs
    · cases hs
      have hc := (hl.clean (y := { s.be b with probe := false }) hr).cleaned (by rw [Function.update_self]; exact hlist)
        (by rw [Function.update_self])
      exact ⟨⟨_, hp.sameList rfl⟩, h.fds, h.counts.unused hr hr, hc⟩
    · cases hs
      refine ⟨⟨_, hp⟩, h.fds, h.counts, hl.nuke hlist fun d hd he => ?_⟩
      have := refs_pos (b := d.2) (v := d.1) hd
      rw [he] at this
      omega
  | cons x l =>
    have hf := hp.fits_idle (b := b) (x := x) (by rw [hlist]; exact List.mem_cons_self)
    rw [hlist] at hs
    simp only at hs
    obtain ⟨f, hfd⟩ := Option.ne_none_iff_exists'.1 hf.2.2
    simp only [Pool.setBe, hfd] at hs
    obtain ⟨s1, hs1, hs⟩ := Option.bind_eq_some_iff.1 hs
    have h1 := closeFd_spec hs1
    subst h1
    have hlinks := hl.clean (y := { s.be b with connlist := l }) hr
    rw [← hcli] at hlinks
    have hcounts := h.counts.unused (y := { s.be b with connlist := l }) hr hr
    unfold vbeReleaseConn at hs
    split at hs
    · simp only [Pool.setVc, Function.update_self, Function.update_idem] at hs
      split at hs
      · cases hs
        exact ⟨⟨_, hp.drainPool (y := { s.be b with connlist := l }) hlist hf.1 rfl rfl⟩, h.fds.close hfd rfl, hcounts, hlinks⟩
      · cases hs
        exact ⟨⟨_, hp.drainFree (y := { s.be b with connlist := l }) hlist rfl rfl⟩, h.fds.close hfd rfl, hcounts, hlinks⟩
    · cases hs

theorem inv_init : Inv Pool.init := by
  refine ⟨⟨fun _ => none, ⟨fun p => ?_, fun p x => ?_⟩, fun _ => ⟨rfl, rfl⟩, fun x hx => absurd rfl hx⟩,
    ⟨List.nodup_nil, fun f => ?_, nofun⟩, ⟨⟨fun _ => [], fun _ => rfl, fun _ _ => ?_, fun _ => List.nodup_nil⟩, nofun⟩,
    ⟨nofun, nofun, List.nodup_nil, nofun, fun _ _ => ⟨rfl, rfl⟩, nofun, nofun, nofun, nofun⟩⟩
  all_goals try cases p
  all_goals simp [shelfOf, Pool.init, Pc.vc, Pc.counts]

theorem inv_cliStep {a : Act} (h : Inv s) (hok : a.Ok s) (hsafe : a.Safe s) (hs : cliStep s s.cli a = some s') : Inv s' := by
  unfold cliStep at hs
  split at hs
  · rename_i hcli
    split at hs
    · cases hs
    · cases hs
      exact inv_addBackend h hcli
  · rename_i hcli
    cases hs
    exact inv_addStore h hcli (hsafe _ _ _ hcli)
  · cases hs
    exact inv_discard h
  · rename_i hcli
    split at hs
    · cases hs
      exact inv_dispose h hcli ‹_› hok
    · cases hs
  · exact inv_dropRef h ‹_› hs
  · exact inv_clean h ‹_› hs
  · cases hs
    exact inv_poll h ‹_›
  · cases hs

theorem inv_step {a : Act} (h : Inv s) (hok : a.Ok s) (hsafe : a.Safe s) (hs : poolStep s a = some s') : Inv s' := by
  unfold poolStep at hs
  split at hs
  · split at hs
    · rename_i hc
      cases hs
      exact ⟨h.conns, h.fds, h.counts, h.links.vclGet hc.1 hc.2.2⟩
    · cases hs
  · split at hs
    · cases hs
      exact ⟨h.conns, h.fds, h.counts, h.links.vclRel ‹_›⟩
    · cases hs
  all_goals first | exact inv_sessStep h hs | exact inv_cliStep h hok hsafe hs

end Steps

/-! ## The result -/

section Result

/-- The connections that are in a place. -/
def Pool.shelf (s : Pool) : Place → List ℕ := shelfOf s.vbeConns s.be s.pc

/-- The sessions that have a connection to a backend, or connect to it. -/
def Pool.users (s : Pool) (b : ℕ) : Set ℕ := {sp | (s.pc sp).counts = some b}

structure PoolOk (s : Pool) : Prop where
  /-- A `vbe_conn` is in one place, once. -/
  place : ∀ x, (s.vc x).live = true → ∃! p, x ∈ s.shelf p
  nodup : ∀ p, (s.shelf p).Nodup
  live : ∀ p, ∀ x ∈ s.shelf p, (s.vc x).live = true
  pool : ∀ x ∈ s.shelf .pool, (s.vc x).fd = none ∧ (s.vc x).backend = none
  idle : ∀ b, ∀ x ∈ s.shelf (.idle b), (s.vc x).backend = some b ∧ ∃ f ∈ s.fds, (s.vc x).fd = some f
  held : ∀ sp, ∀ x ∈ s.shelf (.held sp), (s.pc sp).Fits (s.vc x)
  /-- An open file is that of one `vbe_conn`. -/
  file : ∀ f, f ∈ s.fds ↔ ∃! x, (s.vc x).live = true ∧ (s.vc x).fd = some f
  refcount : ∀ b ∈ s.backends, (s.be b).refcount = refs s.dirs b + (s.users b).ncard
  nConn : ∀ b ∈ s.backends, 0 < (s.be b).refcount → (s.be b).nConn = (s.be b).connlist.length + (s.users b).ncard
  /-- A backend that is freed has no references, and no connection is open to it. -/
  freed : ∀ b, b ∉ s.backends → (s.be b).refcount = 0 ∧ (s.be b).connlist = [] ∧
    ∀ x, (s.vc x).backend = some b → (s.vc x).fd = none
  /-- One that is not freed has references, but between their drop and the next `VBE_Poll`; it has no idle connections then, or
  they are being closed. -/
  late : ∀ b ∈ s.backends, (s.be b).refcount = 0 →
    s.cli.polled = false ∧ ((s.be b).connlist = [] ∨ ∃ v, s.cli = .cleaning v b)

variable {s : Pool}

theorem Inv.ncard_users (h : Inv s) (b : ℕ) : (s.be b).refcount = refs s.dirs b + (s.users b).ncard := by
  obtain ⟨mem, ht⟩ := h.counts.tally
  have hset : s.users b = ((mem b).toFinset : Set ℕ) := by
    ext sp
    simp only [Pool.users, Set.mem_ofPred_eq, List.coe_toFinset]
    exact (ht.mem_iff b sp).symm
  rw [hset, Set.ncard_coe_finset, List.toFinset_card_of_nodup (ht.nodup b)]
  have hc := ht.count b
  simp only [Pi.zero_apply] at hc
  omega

theorem Inv.live_of_fd (h : Inv s) {x f : ℕ} (hx : (s.vc x).fd = some f) : (s.vc x).live = true := by
  obtain ⟨place, hp⟩ := h.conns
  have hf := hp.fits x
  cases hpl : place x with
  | none =>
    rw [hpl] at hf
    rw [hf.2] at hx
    cases hx
  | some p =>
    rw [hpl] at hf
    cases p <;> exact hf.1

/-- A connection that is open is one to a backend that is not freed. -/
theorem Inv.listed_of_fd (h : Inv s) {x b : ℕ} (hb : (s.vc x).backend = some b) (hx : (s.vc x).fd ≠ none) : b ∈ s.backends := by
  obtain ⟨place, hp⟩ := h.conns
  have hf := hp.fits x
  cases hpl : place x with
  | none =>
    rw [hpl] at hf
    exact absurd hf.2 hx
  | some p =>
    rw [hpl] at hf
    cases p with
    | pool => exact absurd hf.2.2 hx
    | idle i =>
      have hi : i = b := Option.some.inj (hf.2.1.symm.trans hb)
      have hm : x ∈ (s.be i).connlist := (hp.shelves.mem_iff (.idle i) x).2 hpl
      by_contra hout
      rw [hi, (h.links.freed b hout).2] at hm
      cases hm
    | held sp =>
      have hu : (s.pc sp).uses = some b := by
        have hfit := hf.2
        cases hpc : s.pc sp <;> rw [hpc] at hfit <;> simp only [Pc.Fits] at hfit
        all_goals first | exact hfit.1.symm.trans hb | exact absurd hfit.2 hx | exact absurd hfit hx
      obtain ⟨v, -, hd⟩ := h.links.uses sp b hu
      exact h.links.listed _ hd

theorem Inv.poolOk (h : Inv s) : PoolOk s := by
  obtain ⟨place, hp⟩ := h.conns
  have hlive : ∀ p, ∀ x ∈ s.shelf p, (s.vc x).live = true := fun p x hx => by
    have hf := hp.fits x
    rw [(hp.shelves.mem_iff p x).1 hx] at hf
    cases p <;> exact hf.1
  refine ⟨fun x hx => ?_, hp.shelves.nodup, hlive, fun x hx => ?_, fun b x hx => ?_, fun sp x hx => ?_, fun f => ?_,
    fun b _ => h.ncard_users b, fun b _ hr => ?_, fun b hb => ?_, fun b hb hr => ?_⟩
  · have hf := hp.fits x
    cases hpl : place x with
    | none =>
      rw [hpl] at hf
      rw [hf.1] at hx
      cases hx
    | some p =>
      exact ⟨p, (hp.shelves.mem_iff p x).2 hpl, fun q hq => hp.shelves.unique hq ((hp.shelves.mem_iff p x).2 hpl)⟩
  · have hf := hp.fits_pool hx
    exact ⟨hf.2.2, hf.2.1⟩
  · have hf := hp.fits_idle (b := b) hx
    obtain ⟨f, hfd⟩ := Option.ne_none_iff_exists'.1 hf.2.2
    exact ⟨hf.2.1, f, (h.fds.mem_iff f).2 ⟨x, hfd⟩, hfd⟩
  · exact (hp.fits_held (hp.place_held.1 ((hp.shelves.mem_iff (.held sp) x).1 hx))).2
  · rw [h.fds.mem_iff]
    constructor
    · rintro ⟨x, hx⟩
      exact ⟨x, ⟨h.live_of_fd hx, hx⟩, fun y hy => h.fds.one y x f hy.2 hx⟩
    · rintro ⟨x, hx, -⟩
      exact ⟨x, hx.2⟩
  · have hn := h.counts.nConn b hr
    have hu := h.ncard_users b
    omega
  · obtain ⟨hr, hl⟩ := h.links.freed b hb
    refine ⟨hr, hl, fun x hx => ?_⟩
    by_contra hfd
    exact hb (h.listed_of_fd hx hfd)
  · obtain ⟨hpolled, hl, -⟩ | ⟨v, hv⟩ := h.links.zero b hb hr
    · exact ⟨hpolled, .inl hl⟩
    · exact ⟨by rw [hv]; rfl, .inr ⟨v, hv⟩⟩

/-- The pool of backend connections, in every state of every run. -/
theorem reach_poolOk (h : Reach poolStep (fun s a => a.Ok s ∧ a.Safe s) Pool.init s) : PoolOk s :=
  (h.inv inv_init fun _ _ _ hi hok hs => inv_step hi hok.1 hok.2 hs).poolOk

/-- A session has a new connection. -/
theorem reach_poolOk_held :
    ∃ s, Reach poolStep (fun s a => a.Ok s ∧ a.Safe s) Pool.init s ∧ s.shelf (.held 3) = [0] ∧ s.fds = [5] ∧ PoolOk s := by
  have h1 : Reach poolStep (fun s a => a.Ok s ∧ a.Safe s) Pool.init _ := Reach.refl.tail .poll ⟨trivial, trivial⟩ rfl
  have h2 := h1.tail (Act.add 1 7 0 true) ⟨trivial, trivial⟩ rfl
  have h3 := h2.tail (Act.vclGet 3 1) ⟨trivial, trivial⟩ rfl
  have h4 := h3.tail (Act.getFd 3 0) ⟨trivial, trivial⟩ rfl
  have h5 := h4.tail (Act.getVbe 3) ⟨trivial, trivial⟩ rfl
  have h6 := h5.tail (Act.maxConn 3 true) ⟨trivial, trivial⟩ rfl
  have h7 := h6.tail (Act.newConn 3) ⟨trivial, trivial⟩ rfl
  have h8 := h7.tail (Act.connTry 3) ⟨trivial, trivial⟩ rfl
  have h9 := h8.tail (Act.connected 3 (some 5)) ⟨trivial, trivial⟩ rfl
  exact ⟨_, h9, rfl, rfl, reach_poolOk h9⟩

/-- A backend with a probe is not freed with its last reference. -/
theorem nuke_late : ¬ ∀ s, Reach poolStep (fun s a => a.Ok s ∧ a.Safe s) Pool.init s →
    ∀ b < s.nextBe, (b ∉ s.backends ↔ (s.be b).refcount = 0) := by
  intro hall
  have h1 : Reach poolStep (fun s a => a.Ok s ∧ a.Safe s) Pool.init _ := Reach.refl.tail .poll ⟨trivial, trivial⟩ rfl
  have h2 := h1.tail (Act.add 1 7 0 true) ⟨trivial, trivial⟩ rfl
  have h3 := h2.tail (Act.discard 1) ⟨trivial, trivial⟩ rfl
  have h4 := h3.tail (Act.dispose 1) ⟨fun _ => nofun, trivial⟩ rfl
  have h5 := h4.tail Act.dropRef ⟨trivial, trivial⟩ rfl
  have h6 := h5.tail (Act.clean true) ⟨trivial, trivial⟩ rfl
  have h7 := h6.tail Act.dropRef ⟨trivial, trivial⟩ rfl
  exact (hall _ h7 0 (by decide)).2 rfl (by decide)

end Result

end Varnish.Vbe
