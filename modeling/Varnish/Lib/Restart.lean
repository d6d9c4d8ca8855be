import Mathlib.Algebra.Group.Nat.Even
import Mathlib.Data.List.Basic
import Mathlib.Data.List.Induction

/-!
# Varnish.Lib.Restart — a search that starts over after each failure

A search for `p` reads a text once and keeps how much of `p` it has seen.  Where a letter does not fit it starts over
behind that letter, also when the letter is the first one of `p`.

* `search`: what has been seen, or `none` when `p` was found.
* `Backed`: some beginnings of `p` stand back to back at the end of a text.
* `search_eq_none_iff`: the search finds the occurrences that have an even number of unfinished ones in front of them.
-/

namespace Varnish.Lib.Restart

variable {α : Type} [DecidableEq α] (p : List α)

/-- `k` letters of `p` have been seen. -/
def search : ℕ → List α → Option ℕ
  | k, [] => some k
  | k, b :: text =>
    if p[k]? = some b then if k + 1 = p.length then none else search (k + 1) text
    else search 0 text

/-- A beginning of `p`, and not all of it. -/
def Unfinished (w : List α) : Prop := ∃ m, 0 < m ∧ m < p.length ∧ w = p.take m

/-- The text ends in `n` unfinished ones, and in no more. -/
def Backed (text : List α) (n : ℕ) : Prop :=
  ∃ (lead : List α) (ws : List (List α)), text = lead ++ ws.flatten ∧ (∀ w ∈ ws, Unfinished p w) ∧ ws.length = n ∧
    ∀ w, Unfinished p w → ¬ w <:+ lead

variable {p}

/-- How much has been seen after one more letter. -/
def advance (p : List α) (k : ℕ) (b : α) : ℕ := if p[k]? = some b then k + 1 else 0

theorem advance_le {k : ℕ} (b : α) (h : k < p.length) : advance p k b ≤ p.length := by
  unfold advance
  split <;> omega

theorem search_cons (hp : p ≠ []) (k : ℕ) (b : α) (text : List α) :
    search p k (b :: text) = if advance p k b = p.length then none else search p (advance p k b) text := by
  have hpos : 0 < p.length := List.length_pos_iff.2 hp
  rw [search, advance]
  split
  · rfl
  · rw [if_neg (Nat.ne_of_lt hpos)]

theorem search_append (k : ℕ) (a b : List α) : search p k (a ++ b) = (search p k a).bind fun j => search p j b := by
  induction a generalizing k with
  | nil => rfl
  | cons c a ih =>
    rw [List.cons_append, search, search]
    split
    · split
      · rfl
      · exact ih (k + 1)
    · exact ih 0

/-- Reading on in `p`. -/
theorem search_drop_take (k m : ℕ) (h : k + m < p.length) : search p k ((p.drop k).take m) = some (k + m) := by
  induction m generalizing k with
  | zero => rfl
  | succ m ih =>
    have hk : k < p.length := by omega
    rw [List.drop_eq_getElem_cons hk, List.take_succ_cons, search, if_pos (List.getElem?_eq_getElem hk),
      if_neg (by omega), ih (k + 1) (by omega)]
    congr 1
    omega

theorem search_take {m : ℕ} (h : m < p.length) : search p 0 (p.take m) = some m := by
  have hread := search_drop_take (p := p) 0 m (by omega)
  rwa [List.drop_zero, Nat.zero_add] at hread

/-- The whole of `p`. -/
theorem search_self (hp : p ≠ []) : search p 0 p = none := by
  have hpos : 0 < p.length := List.length_pos_iff.2 hp
  have hall : p.take (p.length - 1) ++ [p[p.length - 1]] = p := by
    rw [List.take_append_getElem, Nat.sub_add_cancel hpos, List.take_length]
  have hend : search p (p.length - 1) [p[p.length - 1]] = none := by
    rw [search, if_pos (List.getElem?_eq_getElem _), if_pos (by omega)]
  have hread := search_append (p := p) 0 (p.take (p.length - 1)) [p[p.length - 1]]
  rw [hall, search_take (by omega), Option.bind_some, hend] at hread
  exact hread

/-- What has been seen is at the end of the text, and was begun afresh. -/
theorem search_some {text : List α} {k : ℕ} (hp : p ≠ []) (h : search p 0 text = some k) :
    k < p.length ∧ ∃ a, text = a ++ p.take k ∧ search p 0 a = some 0 := by
  have hpos : 0 < p.length := List.length_pos_iff.2 hp
  induction text using List.reverseRecOn generalizing k with
  | nil =>
    obtain rfl := Option.some.inj h
    exact ⟨hpos, [], rfl, rfl⟩
  | append_singleton text b ih =>
    have hall := h
    rw [search_append] at h
    obtain ⟨j, hj, hstep⟩ := Option.bind_eq_some_iff.1 h
    obtain ⟨hlt, a, ha, hfresh⟩ := ih hj
    rw [search] at hstep
    split at hstep
    · rename_i hb
      split at hstep
      · cases hstep
      · obtain rfl := Option.some.inj hstep
        refine ⟨by omega, a, ?_, hfresh⟩
        rw [ha, List.append_assoc, List.take_add_one, hb]
        rfl
    · obtain rfl := Option.some.inj hstep
      exact ⟨hpos, text ++ [b], (List.append_nil _).symm, hall⟩

section Head

variable {x : α} {q : List α}

/-- A text without the first letter of `p` begins nothing. -/
theorem search_without {text : List α} (h : x ∉ text) : search (x :: q) 0 text = some 0 := by
  induction text with
  | nil => rfl
  | cons b text ih =>
    rw [List.mem_cons, not_or] at h
    rw [search, List.getElem?_cons_zero, if_neg fun hb => h.1 (Option.some.inj hb)]
    exact ih h.2

/-- A beginning of `p` behind an unfinished one is not seen. -/
theorem search_unfinished (hx : x ∉ q) {w : List α} {k : ℕ} (hw : Unfinished (x :: q) w) (hk : 0 < k) :
    search (x :: q) k w = some 0 := by
  obtain ⟨m, hm, -, rfl⟩ := hw
  obtain ⟨m, rfl⟩ : ∃ n, m = n + 1 := ⟨m - 1, by omega⟩
  obtain ⟨k, rfl⟩ : ∃ n, k = n + 1 := ⟨k - 1, by omega⟩
  have hne : (x :: q)[k + 1]? ≠ some x := by
    rw [List.getElem?_cons_succ]
    intro h
    exact hx (List.mem_of_getElem? h)
  rw [List.take_succ_cons, search, if_neg hne]
  exact search_without fun h => hx (List.mem_of_mem_take h)

theorem search_fresh {w : List α} (hw : Unfinished (x :: q) w) : ∃ k, 0 < k ∧ search (x :: q) 0 w = some k := by
  obtain ⟨m, hm, hlt, rfl⟩ := hw
  exact ⟨m, hm, search_take hlt⟩

/-- Two unfinished ones cancel. -/
theorem search_flatten (hx : x ∉ q) {ws : List (List α)} (h : ∀ w ∈ ws, Unfinished (x :: q) w) :
    ∃ k, search (x :: q) 0 ws.flatten = some k ∧ (k = 0 ↔ Even ws.length) := by
  induction ws using List.reverseRecOn with
  | nil => exact ⟨0, rfl, by simp⟩
  | append_singleton ws w ih =>
    obtain ⟨k, hk, heven⟩ := ih fun v hv => h v (List.mem_append_left _ hv)
    have hw := h w (by simp)
    rw [List.flatten_append, List.flatten_singleton, search_append, hk, Option.bind_some, List.length_append,
      List.length_singleton, Nat.even_add_one]
    rcases Nat.eq_zero_or_pos k with rfl | hpos
    · obtain ⟨j, hj, hsearch⟩ := search_fresh hw
      exact ⟨j, hsearch, ⟨fun h0 => by omega, fun hodd => absurd (heven.1 rfl) hodd⟩⟩
    · exact ⟨0, search_unfinished hx hw hpos, ⟨fun _ hev => by have := heven.2 hev; omega, fun _ => rfl⟩⟩

/-- How many unfinished ones stand at the end is all that matters. -/
theorem search_backed (hx : x ∉ q) {text : List α} {n : ℕ} (h : Backed (x :: q) text n) {k : ℕ}
    (hk : search (x :: q) 0 text = some k) : k = 0 ↔ Even n := by
  obtain ⟨lead, ws, rfl, hws, rfl, hlead⟩ := h
  rw [search_append] at hk
  obtain ⟨j, hj, hrest⟩ := Option.bind_eq_some_iff.1 hk
  obtain ⟨hlt, a, ha, -⟩ := search_some (List.cons_ne_nil x q) hj
  obtain rfl : j = 0 := by
    by_contra hne
    exact hlead _ ⟨j, by omega, hlt, rfl⟩ ⟨a, ha.symm⟩
  obtain ⟨k', hk', heven⟩ := search_flatten hx hws
  rw [hk'] at hrest
  obtain rfl := Option.some.inj hrest
  exact heven

omit [DecidableEq α] in
/-- Each text ends in some number of unfinished ones. -/
theorem exists_backed (p : List α) (text : List α) : ∃ n, Backed p text n := by
  induction hlen : text.length using Nat.strongRecOn generalizing text with
  | ind l ih =>
    by_cases h : ∃ w, Unfinished p w ∧ w <:+ text
    · obtain ⟨w, hw, a, rfl⟩ := h
      have hpos : 0 < w.length := by
        obtain ⟨m, hm, hlt, rfl⟩ := hw
        rw [List.length_take]
        omega
      rw [List.length_append] at hlen
      obtain ⟨n, lead, ws, rfl, hws, rfl, hlead⟩ := ih a.length (by omega) a rfl
      refine ⟨ws.length + 1, lead, ws ++ [w], ?_, ?_, by simp, hlead⟩
      · rw [List.flatten_append, List.flatten_singleton, List.append_assoc]
      · intro v hv
        rcases List.mem_append.1 hv with hv | hv
        · exact hws v hv
        · rwa [List.mem_singleton.1 hv]
    · exact ⟨0, text, [], by simp, by simp, rfl, fun w hw hs => h ⟨w, hw, hs⟩⟩

/-- The occurrences that the search finds. -/
def Reached (p text : List α) : Prop := ∃ pre post n, text = pre ++ p ++ post ∧ Backed p pre n ∧ Even n

theorem search_eq_none_iff (hx : x ∉ q) (text : List α) : search (x :: q) 0 text = none ↔ Reached (x :: q) text := by
  constructor
  · intro h
    induction text using List.reverseRecOn with
    | nil => cases h
    | append_singleton text b ih =>
      rw [search_append] at h
      cases hk : search (x :: q) 0 text with
      | none =>
        obtain ⟨pre, post, n, rfl, hbacked⟩ := ih hk
        exact ⟨pre, post ++ [b], n, by simp, hbacked⟩
      | some k =>
        rw [hk, Option.bind_some, search] at h
        obtain ⟨hlt, pre, rfl, hfresh⟩ := search_some (List.cons_ne_nil x q) hk
        split at h
        · rename_i hb
          split at h
          · rename_i hlast
            obtain ⟨n, hn⟩ := exists_backed (x :: q) pre
            refine ⟨pre, [], n, ?_, hn, (search_backed hx hn hfresh).1 rfl⟩
            have hall : (x :: q).take k ++ [b] = x :: q := by
              have hsucc := List.take_add_one (l := x :: q) (i := k)
              rw [hb, hlast, List.take_length] at hsucc
              exact hsucc.symm
            rw [List.append_assoc, hall, List.append_nil]
          · cases h
        · cases h
  · rintro ⟨pre, post, n, rfl, hn, heven⟩
    rw [search_append, search_append]
    cases hk : search (x :: q) 0 pre with
    | none => rfl
    | some k =>
      obtain rfl := (search_backed hx hn hk).2 heven
      rw [Option.bind_some, search_self (List.cons_ne_nil x q)]
      rfl

end Head

end Varnish.Lib.Restart
