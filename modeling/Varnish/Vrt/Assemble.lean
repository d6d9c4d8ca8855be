import Mathlib.Algebra.Order.Group.Nat
import Varnish.Lib.Bytes
import Varnish.Ws.Workspace

/-!
# Varnish.Vrt.Assemble — a string is put together in a workspace (`vrt_assemble_string`)

A string is its bytes before the NUL; `strlen` is used as an `unsigned`.

* `vrtAssembleString`: the function; `none` is a failed assertion.
* `Assembled`: it does what it is for.
* `assembled_iff`: so it is unless the string just fits: then one byte more is released than was reserved.
-/

namespace Varnish.Vrt

open Varnish.Lib Varnish.Workspace

/-! ## The function -/

section Function

/-- `strlen`, as an `unsigned`. -/
def ulen (s : List UInt8) : ℕ := s.length % 2 ^ 32

/-- `if (b + x < e) memcpy(b, s, x); b += x` -/
def copy (e : ℕ) (s : List UInt8) (c : Mem × ℕ) : Mem × ℕ :=
  (if c.2 + ulen s < e then wr c.1 c.2 (s.take (ulen s)) else c.1, c.2 + ulen s)

/-- `if (b < e) *b = x; b++` -/
def putc (e : ℕ) (x : UInt8) (c : Mem × ℕ) : Mem × ℕ := (if c.2 < e then wr c.1 c.2 [x] else c.1, c.2 + 1)

/-- `"(null)"` -/
def nullText : List UInt8 := [40, 110, 117, 108, 108, 41]

/-- The loop over the parts, the list up to `vrt_magic_string_end`. -/
def copyParts (e : ℕ) : List (Option (List UInt8)) → Mem × ℕ → Mem × ℕ
  | [], c => c
  | p :: ps, c => if c.2 < e then copyParts e ps (copy e (p.getD nullText) c) else c

/-- The header name, and the blank behind it. -/
def copyName (e : ℕ) : Option (List UInt8) → Mem × ℕ → Mem × ℕ
  | none, c => c
  | some h, c => putc e 32 (copy e h c)

/-- `vrt_assemble_string`: the workspace, the memory, and what is returned. -/
def vrtAssembleString (ws : Ws) (m : Mem) (h : Option (List UInt8)) (ps : List (Option (List UInt8))) : Option (Ws × Mem × Option ℕ) :=
  (wsReserve ws 0).bind fun r =>
    let e := ws.f + r.2
    let c := putc e 0 (copyParts e ps (copyName e h (m, ws.f)))
    if e < c.2 then (wsRelease r.1 0).map fun ws => (ws, c.1, none)
    else (wsRelease r.1 ((1 + (c.2 - ws.f)) % 2 ^ 32)).map fun ws' => (ws', c.1, some ws.f)

end Function

/-! ## What it is for -/

section Spec

/-- The string, without its NUL. -/
def assembly (h : Option (List UInt8)) (ps : List (Option (List UInt8))) : List UInt8 :=
  (h.elim [] fun h => h ++ [32]) ++ (ps.map fun p => p.getD nullText).flatten

/-- How many bytes are needed, with the NUL, when a text has so many. -/
def need (len : List UInt8 → ℕ) (h : Option (List UInt8)) (ps : List (Option (List UInt8))) : ℕ :=
  (h.elim 0 fun h => len h + 1) + (ps.map fun p => len (p.getD nullText)).sum + 1

/-- The workspace is in order, and nothing is reserved. -/
structure Ready (ws : Ws) : Prop where
  asserted : WsAssert ws
  free : ws.r = none
  small : ws.e < ws.s + 2 ^ 32

/-- The function returns; it returns NULL if and only if the string does not fit, and the workspace is as it was then; otherwise the string
is in the memory, and the workspace is in order and goes on behind it.  Nothing else is written to. -/
def Assembled (ws : Ws) (m : Mem) (h : Option (List UInt8)) (ps : List (Option (List UInt8))) : Prop :=
  ∃ ws' m' r, vrtAssembleString ws m h ps = some (ws', m', r) ∧ (r = none ↔ ws.e - ws.f < need List.length h ps) ∧
    (r = none → ws' = ws) ∧
    (∀ b ∈ r, b = ws.f ∧ rd m' b (need List.length h ps) = assembly h ps ++ [0] ∧ Ready ws' ∧ ws'.s = ws.s ∧ ws'.e = ws.e ∧
      b + need List.length h ps ≤ ws'.f) ∧
    ∀ a, a < ws.f ∨ ws.e ≤ a → m' a = m a

end Spec

/-! ## The cursor -/

section Cursor

variable {f e : ℕ} {m : Mem} {c : Mem × ℕ} {s : List UInt8} {h : Option (List UInt8)} {ps : List (Option (List UInt8))}

/-- All the bytes are written, one behind the other. -/
def put (c : Mem × ℕ) (bs : List UInt8) : Mem × ℕ := (wr c.1 c.2 bs, c.2 + bs.length)

theorem put_put (c : Mem × ℕ) (bs bs' : List UInt8) : put (put c bs) bs' = put c (bs ++ bs') := by
  unfold put
  dsimp only
  rw [wr_append, List.length_append, Nat.add_assoc]

theorem copy_fits (hlt : s.length < 2 ^ 32) (hfits : c.2 + s.length < e) : copy e s c = put c s := by
  have hu : ulen s = s.length := Nat.mod_eq_of_lt hlt
  rw [copy, hu, if_pos hfits, List.take_length]
  rfl

theorem putc_fits {x : UInt8} (hfits : c.2 < e) : putc e x c = put c [x] := by
  rw [putc, if_pos hfits]
  rfl

/-- As long as there is room all the parts are written. -/
theorem copyParts_fits (hlt : (ps.map fun p => (p.getD nullText).length).sum < 2 ^ 32)
    (hfits : c.2 + (ps.map fun p => (p.getD nullText).length).sum < e) :
    copyParts e ps c = put c (ps.map fun p => p.getD nullText).flatten := by
  induction ps generalizing c with
  | nil =>
    show c = (wr c.1 c.2 [], c.2 + 0)
    rw [wr_nil]
    rfl
  | cons p ps ih =>
    rw [List.map_cons, List.sum_cons] at hlt hfits
    rw [copyParts, if_pos (by omega), copy_fits (by omega) (by omega), ih (by omega), put_put]
    · rfl
    · show c.2 + (p.getD nullText).length + _ < e
      omega

theorem copyName_fits (hlt : (h.elim 0 fun h => h.length + 1) < 2 ^ 32) (hfits : c.2 + (h.elim 0 fun h => h.length + 1) ≤ e) :
    copyName e h c = put c (h.elim [] fun h => h ++ [32]) := by
  cases h with
  | none =>
    show c = (wr c.1 c.2 [], c.2 + 0)
    rw [wr_nil]
    rfl
  | some h =>
    dsimp only [Option.elim] at hlt hfits ⊢
    rw [copyName, copy_fits (by omega) (by omega), putc_fits, put_put]
    show c.2 + h.length < e
    omega

/-- The pointer behind the parts: it stops where it is not in the workspace any more. -/
theorem copyParts_pos (e : ℕ) (ps : List (Option (List UInt8))) (c : Mem × ℕ) :
    let sum := (ps.map fun p => ulen (p.getD nullText)).sum
    c.2 + sum < e ∧ (copyParts e ps c).2 = c.2 + sum ∨ e ≤ c.2 + sum ∧ e ≤ (copyParts e ps c).2 := by
  induction ps generalizing c with
  | nil => exact (Nat.lt_or_ge c.2 e).imp (fun hlt => ⟨hlt, rfl⟩) fun hge => ⟨hge, hge⟩
  | cons p ps ih =>
    dsimp only
    rw [List.map_cons, List.sum_cons, ← Nat.add_assoc, copyParts]
    by_cases hc : c.2 < e
    · rw [if_pos hc]
      exact ih (copy e (p.getD nullText) c)
    · rw [if_neg hc]
      exact .inr ⟨by omega, Nat.le_of_not_lt hc⟩

theorem copyName_pos (e : ℕ) (h : Option (List UInt8)) (c : Mem × ℕ) : (copyName e h c).2 = c.2 + h.elim 0 fun h => ulen h + 1 := by
  cases h with
  | none => rfl
  | some h => rfl

/-- The cursor writes from `f` on, and not to `e` or behind it. -/
def Inside (f e : ℕ) (m : Mem) (c : Mem × ℕ) : Prop := f ≤ c.2 ∧ ∀ a, a < f ∨ e ≤ a → c.1 a = m a

theorem Inside.write {bs : List UInt8} (h : Inside f e m c) (hfits : c.2 + bs.length ≤ e) :
    ∀ a, a < f ∨ e ≤ a → wr c.1 c.2 bs a = m a := by
  have hlow := h.1
  intro a ha
  rw [← h.2 a ha]
  obtain ha | ha := ha
  · exact wr_of_lt (by omega)
  · exact wr_of_ge (by omega)

theorem Inside.copy (h : Inside f e m c) (s : List UInt8) : Inside f e m (copy e s c) := by
  refine ⟨h.1.trans (Nat.le_add_right _ _), ?_⟩
  unfold Vrt.copy
  dsimp only
  split
  next hlt =>
    refine h.write ?_
    have hle := List.length_take_le (ulen s) s
    omega
  · exact h.2

theorem Inside.putc (h : Inside f e m c) (x : UInt8) : Inside f e m (putc e x c) := by
  refine ⟨h.1.trans (Nat.le_succ _), ?_⟩
  unfold Vrt.putc
  dsimp only
  split
  next hlt => exact h.write hlt
  · exact h.2

theorem Inside.copyParts (h : Inside f e m c) (ps : List (Option (List UInt8))) : Inside f e m (copyParts e ps c) := by
  induction ps generalizing c with
  | nil => exact h
  | cons p ps ih =>
    rw [Vrt.copyParts]
    split
    · exact ih (h.copy _)
    · exact h

theorem Inside.copyName (hc : Inside f e m c) (h : Option (List UInt8)) : Inside f e m (copyName e h c) := by
  cases h with
  | none => exact hc
  | some h => exact (hc.copy h).putc 32

end Cursor

/-! ## The lengths -/

section Need

variable {h : Option (List UInt8)} {ps : List (Option (List UInt8))}

theorem length_assembly (h : Option (List UInt8)) (ps : List (Option (List UInt8))) :
    (assembly h ps ++ [0]).length = need List.length h ps := by
  have hname : (h.elim [] fun h => h ++ [32]).length = h.elim 0 fun h => h.length + 1 := by
    cases h with
    | none => rfl
    | some h => exact List.length_append
  rw [assembly, need, List.length_append, List.length_append, hname, List.length_flatten, List.map_map]
  rfl

theorem need_ulen_le (h : Option (List UInt8)) (ps : List (Option (List UInt8))) : need ulen h ps ≤ need List.length h ps := by
  have hname : (h.elim 0 fun h => ulen h + 1) ≤ h.elim 0 fun h => h.length + 1 := by
    cases h with
    | none => exact le_rfl
    | some h => exact Nat.succ_le_succ (Nat.mod_le _ _)
  have hparts : (ps.map fun p => ulen (p.getD nullText)).sum ≤ (ps.map fun p => (p.getD nullText).length).sum := by
    induction ps with
    | nil => exact le_rfl
    | cons p ps ih =>
      rw [List.map_cons, List.map_cons, List.sum_cons, List.sum_cons]
      exact Nat.add_le_add (Nat.mod_le _ _) ih
  exact Nat.succ_le_succ (Nat.add_le_add hname hparts)

/-- Where all fits in 32 bits, no length is cut. -/
theorem need_ulen (hlt : need List.length h ps < 2 ^ 32) : need ulen h ps = need List.length h ps := by
  unfold need at hlt ⊢
  have hname : (h.elim 0 fun h => ulen h + 1) = h.elim 0 fun h => h.length + 1 := by
    cases h with
    | none => rfl
    | some h =>
      dsimp only [Option.elim] at hlt ⊢
      rw [ulen, Nat.mod_eq_of_lt (by omega)]
  have hparts : (ps.map fun p => ulen (p.getD nullText)).sum = (ps.map fun p => (p.getD nullText).length).sum := by
    have hsum : (ps.map fun p => (p.getD nullText).length).sum < 2 ^ 32 := by omega
    clear hlt
    induction ps with
    | nil => rfl
    | cons p ps ih =>
      rw [List.map_cons, List.sum_cons] at hsum
      rw [List.map_cons, List.map_cons, List.sum_cons, List.sum_cons, ih (by omega), ulen, Nat.mod_eq_of_lt (by omega)]
  rw [hname, hparts]

end Need

/-! ## The result -/

section Result

variable {ws ws' : Ws} {m : Mem} {h : Option (List UInt8)} {ps : List (Option (List UInt8))}

/-- The cursor behind the NUL. -/
def cursor (ws : Ws) (m : Mem) (h : Option (List UInt8)) (ps : List (Option (List UInt8))) : Mem × ℕ :=
  putc ws.e 0 (copyParts ws.e ps (copyName ws.e h (m, ws.f)))

/-- All of the free space is reserved. -/
theorem reserve_all (h : Ready ws) : wsReserve ws 0 = some ({ ws with r := some ws.e }, ws.e - ws.f) := by
  obtain ⟨-, -, hse, hsf, hfe, -⟩ := h.asserted
  have hsmall := h.small
  have hmod : (ws.e - ws.f) % 2 ^ 32 = ws.e - ws.f := Nat.mod_eq_of_lt (by omega)
  unfold wsReserve
  rw [if_pos rfl, hmod]
  dsimp only
  rw [Nat.add_sub_cancel' hfe]
  exact if_pos ⟨h.asserted, h.free, le_rfl⟩

theorem release_all (h : Ready ws) (bytes : ℕ) :
    wsRelease { ws with r := some ws.e } bytes = if bytes ≤ ws.e - ws.f then some { ws with f := ws.f + bytes, r := none } else none := by
  obtain ⟨h1, h2, hse, hsf, hfe, -⟩ := h.asserted
  have hassert : WsAssert { ws with r := some ws.e } := by
    refine ⟨h1, h2, hse, hsf, hfe, ?_⟩
    intro r hr
    obtain rfl := Option.some.inj hr
    exact ⟨hse, le_rfl⟩
  unfold wsRelease
  by_cases hle : bytes ≤ ws.e - ws.f
  · rw [if_pos hle]
    exact if_pos ⟨hassert, hle, ws.e, rfl, by dsimp only; omega⟩
  · rw [if_neg hle]
    exact if_neg fun hc => hle hc.2.1

theorem release_none (h : Ready ws) : wsRelease { ws with r := some ws.e } 0 = some ws := by
  have hsame : { ws with f := ws.f + 0, r := none } = ws := by
    rw [← h.free]
    rfl
  rw [release_all h, if_pos (Nat.zero_le _), hsame]

theorem vrtAssembleString_eq (hr : Ready ws) (m : Mem) (h : Option (List UInt8)) (ps : List (Option (List UInt8))) :
    vrtAssembleString ws m h ps =
      if ws.e < (cursor ws m h ps).2 then some (ws, (cursor ws m h ps).1, none)
      else if (1 + ((cursor ws m h ps).2 - ws.f)) % 2 ^ 32 ≤ ws.e - ws.f then
        some ({ ws with f := ws.f + (1 + ((cursor ws m h ps).2 - ws.f)) % 2 ^ 32, r := none }, (cursor ws m h ps).1, some ws.f)
      else none := by
  have hfe := hr.asserted.2.2.2.2.1
  unfold vrtAssembleString
  rw [reserve_all hr, Option.bind_some]
  dsimp only
  rw [Nat.add_sub_cancel' hfe, release_none hr, release_all hr]
  unfold cursor
  split
  · rfl
  · split
    · rfl
    · rfl

/-- The cursor is in the workspace if and only if there is room for so many bytes. -/
theorem cursor_pos (hr : Ready ws) (m : Mem) (h : Option (List UInt8)) (ps : List (Option (List UInt8))) :
    need ulen h ps ≤ ws.e - ws.f ∧ (cursor ws m h ps).2 = ws.f + need ulen h ps ∨
      ws.e - ws.f < need ulen h ps ∧ ws.e < (cursor ws m h ps).2 := by
  have hfe := hr.asserted.2.2.2.2.1
  have hname : (copyName ws.e h (m, ws.f)).2 = ws.f + h.elim 0 fun h => ulen h + 1 := copyName_pos ws.e h (m, ws.f)
  have hparts := copyParts_pos ws.e ps (copyName ws.e h (m, ws.f))
  dsimp only at hparts
  rw [hname] at hparts
  unfold cursor need putc
  dsimp only
  omega

theorem inside_cursor (ws : Ws) (m : Mem) (h : Option (List UInt8)) (ps : List (Option (List UInt8))) :
    Inside ws.f ws.e m (cursor ws m h ps) := by
  have hstart : Inside ws.f ws.e m (m, ws.f) := ⟨le_rfl, fun _ _ => rfl⟩
  exact ((hstart.copyName h).copyParts ps).putc 0

/-- Where it fits, the string is written. -/
theorem cursor_fits (hr : Ready ws) (m : Mem) (hfits : need List.length h ps ≤ ws.e - ws.f) :
    cursor ws m h ps = put (m, ws.f) (assembly h ps ++ [0]) := by
  obtain ⟨-, -, hse, hsf, hfe, -⟩ := hr.asserted
  have hsmall := hr.small
  unfold need at hfits
  have hlen : (h.elim [] fun h => h ++ [32]).length = h.elim 0 fun h => h.length + 1 := by
    cases h with
    | none => rfl
    | some h => exact List.length_append
  have hflat : (ps.map fun p => p.getD nullText).flatten.length = (ps.map fun p => (p.getD nullText).length).sum := by
    rw [List.length_flatten, List.map_map]
    rfl
  have hname : copyName ws.e h (m, ws.f) = put (m, ws.f) (h.elim [] fun h => h ++ [32]) := copyName_fits (by omega) (by dsimp only; omega)
  have hparts : copyParts ws.e ps (copyName ws.e h (m, ws.f)) = put (m, ws.f) (assembly h ps) := by
    rw [hname, copyParts_fits (by omega), put_put]
    · rfl
    · show ws.f + (h.elim [] fun h => h ++ [32]).length + _ < ws.e
      omega
  unfold cursor
  rw [hparts, putc_fits, put_put]
  show ws.f + (assembly h ps).length < ws.e
  rw [assembly, List.length_append]
  omega

/-- A string that needs all of the space, or more by its true length, is not assembled. -/
theorem not_assembled (hr : Ready ws) (hle : need ulen h ps ≤ ws.e - ws.f) (hge : ws.e - ws.f ≤ need List.length h ps) :
    ¬ Assembled ws m h ps := by
  rintro ⟨ws', m', r, hrun, hnull, -, hsome, -⟩
  have hsmall := hr.small
  obtain ⟨-, -, hse, hsf, hfe, -⟩ := hr.asserted
  have hpos : 0 < need ulen h ps := Nat.succ_pos _
  rw [vrtAssembleString_eq hr] at hrun
  obtain ⟨-, hpos'⟩ | ⟨hlt, -⟩ := cursor_pos hr m h ps
  · rw [hpos', if_neg (by omega), Nat.add_sub_cancel_left] at hrun
    split at hrun
    next hrel =>
      simp only [Option.some.injEq, Prod.mk.injEq] at hrun
      obtain ⟨rfl, rfl, rfl⟩ := hrun
      -- the string just fits, and one byte more was released, if that is an unsigned
      have heq : need List.length h ps = ws.e - ws.f := by
        by_contra hne
        exact Option.some_ne_none _ (hnull.2 (by omega))
      have hfits := (hsome ws.f rfl).2.2.2.2.2
      dsimp only at hfits
      rw [← need_ulen (by omega)] at heq hfits
      by_cases hwrap : 1 + need ulen h ps < 2 ^ 32
      · rw [Nat.mod_eq_of_lt hwrap] at hrel
        omega
      · have hall : 1 + need ulen h ps = 2 ^ 32 := by omega
        rw [hall] at hfits
        omega
    · cases hrun
  · omega

/-- The string is assembled, or NULL is returned, if and only if not all of the free space is needed: with a byte more than that for the one
that is released behind the NUL.  A length is cut to 32 bits. -/
theorem assembled_iff (hr : Ready ws) :
    Assembled ws m h ps ↔ need List.length h ps < ws.e - ws.f ∨ ws.e - ws.f < need ulen h ps := by
  have hle := need_ulen_le h ps
  have hsmall := hr.small
  obtain ⟨h1, h2, hse, hsf, hfe, -⟩ := hr.asserted
  have hinside := (inside_cursor ws m h ps).2
  constructor
  · intro hass
    by_contra hc
    rw [not_or] at hc
    exact not_assembled hr (Nat.le_of_not_lt hc.2) (Nat.le_of_not_lt hc.1) hass
  · rintro (hlt | hlt)
    · have hput := cursor_fits hr m hlt.le
      have hpos : (cursor ws m h ps).2 = ws.f + need List.length h ps := by
        rw [hput, ← length_assembly]
        rfl
      have hmod : (1 + ((cursor ws m h ps).2 - ws.f)) % 2 ^ 32 = 1 + need List.length h ps := by
        rw [hpos, Nat.add_sub_cancel_left]
        exact Nat.mod_eq_of_lt (by omega)
      refine ⟨{ ws with f := ws.f + (1 + need List.length h ps), r := none }, (cursor ws m h ps).1, some ws.f, ?_, ?_, ?_, ?_, hinside⟩
      · rw [vrtAssembleString_eq hr, hmod, if_neg (by omega), if_pos (by omega)]
      · exact iff_of_false (Option.some_ne_none _) (by omega)
      · intro hc
        cases hc
      · intro b hb
        cases hb
        refine ⟨rfl, ?_, ⟨⟨h1, h2, hse, ?_, ?_, fun r hr => (by cases hr)⟩, rfl, hsmall⟩, rfl, rfl, ?_⟩
        · rw [hput]
          exact rd_wr_of_eq (length_assembly h ps)
        · dsimp only
          omega
        · dsimp only
          omega
        · dsimp only
          omega
    · obtain ⟨hle', -⟩ | ⟨-, hpos⟩ := cursor_pos hr m h ps
      · omega
      · refine ⟨ws, (cursor ws m h ps).1, none, ?_, iff_of_true rfl (hlt.trans_le hle), fun _ => rfl, fun b hb => (by cases hb), hinside⟩
        rw [vrtAssembleString_eq hr, if_pos hpos]

/-- A workspace of four bytes. -/
def fourBytes : Ws := ⟨16, 16, none, 20, 0⟩

theorem ready_fourBytes : Ready fourBytes := ⟨by decide, rfl, by decide⟩

theorem assembled_iff_fourBytes :
    (Assembled fourBytes (fun _ => 0) none [some [97, 98]] ↔ need List.length none [some [97, 98]] < 4 ∨ 4 < need ulen none [some [97, 98]]) :=
  assembled_iff ready_fourBytes

/-- Three characters and their NUL: an assertion of `WS_Release` fails. -/
theorem exact_fit : vrtAssembleString fourBytes (fun _ => 0) none [some [97, 98, 99]] = none ∧
    ¬ Assembled fourBytes (fun _ => 0) none [some [97, 98, 99]] := by
  have hnone : vrtAssembleString fourBytes (fun _ => 0) none [some [97, 98, 99]] = none := by
    refine Option.isNone_iff_eq_none.1 ?_
    decide
  refine ⟨hnone, ?_⟩
  rintro ⟨ws', m', r, hrun, -⟩
  rw [hnone] at hrun
  cases hrun

end Result

end Varnish.Vrt
