import Varnish.Esi.Model
import Varnish.Lib.Restart

/-!
# Varnish.Esi.Contain — when `contain_esi` sees that there is something to do

* `containStore`: `contain_esi`, segment by segment.
* `containStore_eq`: where the body is cut does not matter.
* `containStore_iff`: `contain_esi` starts over behind a letter that does not fit, also when it is a `<`.
-/

namespace Varnish.Esi

open Varnish.Lib Varnish.Lib.Restart

/-! ## The segments -/

section Segments

def wanted : List UInt8 := ascii "<esi:"

def wanted2 : List UInt8 := ascii "<!--esi"

/-- The loop over a segment; `none` is the return from inside of it. -/
def containSeg : (r r2 seg : List UInt8) → Option (List UInt8 × List UInt8)
  | r, r2, [] => some (r, r2)
  | r, r2, b :: seg =>
    let r := wantStep wanted r b
    let r2 := wantStep wanted2 r2 b
    if r = [] ∨ r2 = [] then none else containSeg r r2 seg

/-- The loop over the storage of the object. -/
def containStore : (r r2 : List UInt8) → (store : List (List UInt8)) → Bool
  | _, _, [] => false
  | r, r2, seg :: store =>
    match containSeg r r2 seg with
    | none => true
    | some (r, r2) => containStore r r2 store

theorem containEsi_cons (r r2 : List UInt8) (b : UInt8) (body : List UInt8) :
    containEsi r r2 (b :: body) = (decide (wantStep wanted r b = [] ∨ wantStep wanted2 r2 b = []) ||
      containEsi (wantStep wanted r b) (wantStep wanted2 r2 b) body) := by
  rw [Bool.decide_or]
  rfl

theorem containSeg_append (r r2 seg body : List UInt8) :
    containEsi r r2 (seg ++ body) = match containSeg r r2 seg with
      | none => true
      | some (r, r2) => containEsi r r2 body := by
  induction seg generalizing r r2 with
  | nil => rfl
  | cons b seg ih =>
    rw [List.cons_append, containEsi_cons, containSeg, ih]
    by_cases h : wantStep wanted r b = [] ∨ wantStep wanted2 r2 b = []
    · rw [if_pos h, decide_eq_true h]
      rfl
    · rw [if_neg h, decide_eq_false h]
      rfl

theorem containStore_eq (r r2 : List UInt8) (store : List (List UInt8)) :
    containStore r r2 store = containEsi r r2 store.flatten := by
  induction store generalizing r r2 with
  | nil => rfl
  | cons seg store ih =>
    rw [List.flatten_cons, containSeg_append, containStore]
    split
    · rfl
    · exact ih _ _

end Segments

/-! ## The two searches -/

section Searches

theorem wantStep_drop (w : List UInt8) (k : ℕ) (b : UInt8) : wantStep w (w.drop k) b = w.drop (advance w k b) := by
  rw [wantStep, advance, List.head?_drop]
  split
  · exact List.tail_drop
  · rfl

theorem drop_advance_eq_nil {w : List UInt8} {k : ℕ} (b : UInt8) (h : k < w.length) :
    w.drop (advance w k b) = [] ↔ advance w k b = w.length := by
  have hle := advance_le b h
  rw [List.drop_eq_nil_iff]
  omega

theorem containEsi_iff {k k2 : ℕ} (hk : k < wanted.length) (hk2 : k2 < wanted2.length) (body : List UInt8) :
    containEsi (wanted.drop k) (wanted2.drop k2) body = true ↔ search wanted k body = none ∨ search wanted2 k2 body = none := by
  induction body generalizing k k2 with
  | nil => simp [containEsi, search]
  | cons b body ih =>
    have hle := advance_le b hk
    have hle2 := advance_le b hk2
    rw [containEsi_cons, Bool.or_eq_true, decide_eq_true_iff, wantStep_drop, wantStep_drop, drop_advance_eq_nil b hk,
      drop_advance_eq_nil b hk2, search_cons (by decide), search_cons (by decide)]
    by_cases h : advance wanted k b = wanted.length
    · simp [h]
    · by_cases h2 : advance wanted2 k2 b = wanted2.length
      · simp [h2]
      · rw [if_neg h, if_neg h2, ih (by omega) (by omega)]
        simp [h, h2]

/-- `contain_esi` finds an occurrence with an even number of unfinished ones in front of it. -/
theorem containStore_reached (store : List (List UInt8)) :
    containStore wanted wanted2 store = true ↔ Reached wanted store.flatten ∨ Reached wanted2 store.flatten := by
  have hall := containEsi_iff (k := 0) (by decide) (Nat.zero_lt_of_ne_zero (by decide)) store.flatten
  have hfirst := search_eq_none_iff (x := 60) (q := ascii "esi:") (by decide) store.flatten
  have hsecond := search_eq_none_iff (x := 60) (q := ascii "!--esi") (by decide) store.flatten
  rw [containStore_eq]
  exact hall.trans (or_congr hfirst hsecond)

theorem Reached.occurs {p text : List UInt8} (h : Reached p text) : p <:+: text := by
  obtain ⟨pre, post, n, rfl, -⟩ := h
  exact ⟨pre, post, rfl⟩

/-- The test is right where the body has no such string, or one with an even number of unfinished ones in front. -/
theorem containStore_iff (store : List (List UInt8)) :
    (containStore wanted wanted2 store = true ↔ wanted <:+: store.flatten ∨ wanted2 <:+: store.flatten) ↔
      (wanted <:+: store.flatten ∨ wanted2 <:+: store.flatten → Reached wanted store.flatten ∨ Reached wanted2 store.flatten) := by
  rw [containStore_reached]
  constructor
  · exact fun h => h.2
  · intro h
    refine ⟨fun hr => ?_, h⟩
    rcases hr with hr | hr
    · exact .inl (Reached.occurs hr)
    · exact .inr (Reached.occurs hr)

/-- `<<esi:` in two segments. -/
theorem containStore_missed :
    ¬ (containStore wanted wanted2 [ascii "<", ascii "<esi:"] = true ↔
      wanted <:+: [ascii "<", ascii "<esi:"].flatten ∨ wanted2 <:+: [ascii "<", ascii "<esi:"].flatten) := by
  intro h
  have hthere : wanted <:+: [ascii "<", ascii "<esi:"].flatten := ⟨ascii "<", [], rfl⟩
  exact absurd (h.2 (.inl hthere)) (by decide)

end Searches

end Varnish.Esi
