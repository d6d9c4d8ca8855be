import Mathlib.Data.List.Nodup
import Mathlib.Data.List.Perm.Basic
import Varnish.Lib.BitPrefix

/-!
# Varnish.Lib.CritTree — crit-bit trees

Binary trees whose leaves have a bit string as key and whose inner nodes branch on one bit, the *critical bit* of the
leaves below.  Leaves and inner nodes are named by the same type `α`.

* `Crit key t`: below a node with critical bit `c` all keys agree on the bits before `c`, bit `c` of a key is the side
  of its leaf, and the critical bits grow downwards.
* `look k t`: follow the bits of `k` to a leaf.  `look_agree`: no leaf shares more bits with `k`.
* `splice a k c t`: put a new leaf `a` (and a node of the same name) at the place where bit `c` belongs.
* `sub t p`, `replace t p u`: the subtree at the end of a path, and the tree with another one there.  `splice` replaces
  one subtree (`splice_eq_replace`).
* `crit_lift`: a leaf is taken out together with the node above it, by putting the other child in the place of the node.
* `depth_le`: the depth is bounded by the critical bits there are.
-/

namespace Varnish.Lib

inductive CTree (α : Type) where
  | leaf (a : α)
  | node (y : α) (c : ℕ) (l r : CTree α)

namespace CTree

variable {α : Type}

def leaves : CTree α → List α
  | leaf a => [a]
  | node _ _ l r => leaves l ++ leaves r

def nodes : CTree α → List α
  | leaf _ => []
  | node y _ l r => y :: (nodes l ++ nodes r)

/-- `c` is less than the critical bit at the top, if there is one. -/
def Below (c : ℕ) : CTree α → Prop
  | leaf _ => True
  | node _ c' _ _ => c < c'

/-- The invariant of crit-bit trees. -/
def Crit (key : α → ℕ → Bool) : CTree α → Prop
  | leaf _ => True
  | node _ c l r => Crit key l ∧ Crit key r ∧ Below c l ∧ Below c r ∧
      (∀ a ∈ leaves l, key a c = false) ∧ (∀ a ∈ leaves r, key a c = true) ∧
      ∀ a ∈ leaves l ++ leaves r, ∀ b ∈ leaves l ++ leaves r, Agree (key a) (key b) c

def look (k : ℕ → Bool) : CTree α → α
  | leaf a => a
  | node _ c l r => if k c then look k r else look k l

/-- A node for the new leaf `a` above the tree `t`. -/
def fork (a : α) (k : ℕ → Bool) (c : ℕ) (t : CTree α) : CTree α :=
  if k c then node a c t (leaf a) else node a c (leaf a) t

def splice (a : α) (k : ℕ → Bool) (c : ℕ) : CTree α → CTree α
  | leaf b => fork a k c (leaf b)
  | node y c' l r =>
    if c < c' then fork a k c (node y c' l r)
    else if k c' then node y c' l (splice a k c r) else node y c' (splice a k c l) r

section Look

variable {key : α → ℕ → Bool} {k : ℕ → Bool} {t : CTree α}

theorem leaves_ne_nil (t : CTree α) : leaves t ≠ [] := by
  cases t with
  | leaf a => simp [leaves]
  | node y c l r => simp [leaves, leaves_ne_nil l]

theorem look_mem : look k t ∈ leaves t := by
  induction t with
  | leaf a => simp [look, leaves]
  | node y c l r ihl ihr =>
    rw [look, leaves]
    split_ifs
    · exact List.mem_append_right _ ihr
    · exact List.mem_append_left _ ihl

/-- All leaves agree on the bits up to any bit that is less than the top critical bit. -/
theorem agree_below {c : ℕ} (h : Crit key t) (hb : Below c t) {a b : α} (ha : a ∈ leaves t) (hb' : b ∈ leaves t) :
    Agree (key a) (key b) (c + 1) := by
  cases t with
  | leaf x =>
    rw [leaves, List.mem_singleton] at ha hb'
    subst ha hb'
    exact fun _ _ => rfl
  | node y c' l r =>
    obtain ⟨-, -, -, -, -, -, hag⟩ := h
    exact (hag a ha b hb').mono hb

/-- The leaf found shares as many bits with `k` as any leaf does. -/
theorem look_agree (h : Crit key t) {b : α} (hb : b ∈ leaves t) {m : ℕ} (hm : Agree k (key b) m) :
    Agree k (key (look k t)) m := by
  induction t with
  | leaf a =>
    rw [leaves, List.mem_singleton] at hb
    subst hb
    exact hm
  | node y c l r ihl ihr =>
    obtain ⟨hl, hr, -, -, h0, h1, hag⟩ := h
    rcases Nat.lt_or_ge c m with hc | hc
    · -- bit `c` of `k` is that of `b`, so `b` is on the side that is taken
      have hkc := hm c hc
      rw [look]
      rcases List.mem_append.mp hb with hb | hb
      · rw [hkc, h0 b hb, if_neg (by simp)]
        exact ihl hl hb
      · rw [hkc, h1 b hb, if_pos rfl]
        exact ihr hr hb
    · have hmem : look k (node y c l r) ∈ leaves l ++ leaves r := look_mem
      exact hm.trans ((hag b hb _ hmem).mono hc)

/-- The leaf found is the one with the key `k`, if there is one. -/
theorem look_eq_of_key (h : Crit key t) {b : α} (hb : b ∈ leaves t) (hk : ∀ i, key b i = k i) (i : ℕ) :
    key (look k t) i = k i :=
  (look_agree (k := k) (m := i + 1) h hb (fun j _ => (hk j).symm) i (by omega)).symm

end Look

/-! ## Inserting -/

section Splice

variable {key : α → ℕ → Bool} {k : ℕ → Bool} {t : CTree α} {a : α} {c : ℕ}

theorem mem_leaves_fork {b : α} : b ∈ leaves (fork a k c t) ↔ b = a ∨ b ∈ leaves t := by
  unfold fork
  split_ifs <;> simp [leaves, or_comm]

theorem mem_leaves_splice {b : α} : b ∈ leaves (splice a k c t) ↔ b = a ∨ b ∈ leaves t := by
  induction t with
  | leaf x => exact mem_leaves_fork
  | node y c' l r ihl ihr =>
    rw [splice]
    split_ifs
    · exact mem_leaves_fork
    · rw [leaves, leaves, List.mem_append, List.mem_append, ihr]
      exact or_left_comm
    · rw [leaves, leaves, List.mem_append, List.mem_append, ihl]
      exact or_assoc

/-- The leaves of two subtrees, when the right one or the left one gets `a`. -/
theorem mem_append_splice {b : α} {l r : CTree α} : b ∈ leaves l ++ leaves (splice a k c r) ↔ b = a ∨ b ∈ leaves l ++ leaves r := by
  rw [List.mem_append, List.mem_append, mem_leaves_splice]
  exact or_left_comm

theorem mem_splice_append {b : α} {l r : CTree α} : b ∈ leaves (splice a k c l) ++ leaves r ↔ b = a ∨ b ∈ leaves l ++ leaves r := by
  rw [List.mem_append, List.mem_append, mem_leaves_splice]
  exact or_assoc

theorem leaves_splice_perm : (leaves (splice a k c t)).Perm (a :: leaves t) := by
  induction t with
  | leaf x =>
    rw [splice, fork]
    split_ifs
    · exact List.Perm.swap _ _ _
    · exact List.Perm.refl _
  | node y c' l r ihl ihr =>
    rw [splice]
    split_ifs
    · rw [fork]
      split_ifs
      · exact List.perm_append_singleton _ _
      · exact List.Perm.refl _
    · exact (List.Perm.append_left _ ihr).trans List.perm_middle
    · exact List.Perm.append_right _ ihl

theorem nodes_splice_perm : (nodes (splice a k c t)).Perm (a :: nodes t) := by
  induction t with
  | leaf x =>
    rw [splice, fork]
    split_ifs <;> exact List.Perm.refl _
  | node y c' l r ihl ihr =>
    rw [splice]
    split_ifs
    · rw [fork]
      split_ifs
      · simp [nodes]
      · simp [nodes]
    · simp only [nodes]
      refine (List.Perm.cons y ((List.Perm.append_left _ ihr).trans List.perm_middle)).trans ?_
      exact List.Perm.swap _ _ _
    · simp only [nodes]
      exact (List.Perm.cons y (List.Perm.append_right _ ihl)).trans (List.Perm.swap _ _ _)

theorem below_splice {m : ℕ} (ht : Below m t) (hc : m < c) : Below m (splice a k c t) := by
  cases t with
  | leaf x =>
    rw [splice, fork]
    split_ifs <;> exact hc
  | node y c' l r =>
    rw [splice]
    split_ifs
    · rw [fork]
      split_ifs <;> exact hc
    · exact ht
    · exact ht

/-- A node above a tree whose leaves agree with `k` up to bit `c` and differ from it there. -/
theorem crit_fork (h : Crit key t) (hb : Below c t) (hk : ∀ i, key a i = k i)
    (hag : ∀ b ∈ leaves t, Agree k (key b) c) (hne : ∀ b ∈ leaves t, key b c ≠ k c) : Crit key (fork a k c t) := by
  have hka : ∀ i, k i = key a i := fun i => (hk i).symm
  have hall : ∀ b ∈ leaves t ++ [a], Agree k (key b) c := fun b hb' => by
    rcases List.mem_append.mp hb' with hb' | hb'
    · exact hag b hb'
    · rw [List.mem_singleton] at hb'
      subst hb'
      exact fun i _ => hka i
  unfold fork
  split_ifs with hkc
  · refine ⟨h, trivial, hb, trivial, fun b hb' => ?_, fun b hb' => ?_, fun b hb' d hd => ?_⟩
    · have := hne b hb'
      rw [hkc] at this
      simpa using this
    · rw [leaves, List.mem_singleton] at hb'
      subst hb'
      rw [hk, hkc]
    · exact (hall b hb').symm.trans (hall d hd)
  · have hkc' : k c = false := by simpa using hkc
    refine ⟨trivial, h, trivial, hb, fun b hb' => ?_, fun b hb' => ?_, fun b hb' d hd => ?_⟩
    · rw [leaves, List.mem_singleton] at hb'
      subst hb'
      rw [hk, hkc']
    · have := hne b hb'
      rw [hkc'] at this
      simpa using this
    · have hcomm : ∀ e ∈ leaves (leaf a) ++ leaves t, e ∈ leaves t ++ [a] := fun e he => by
        rw [leaves, List.mem_append] at he
        rw [List.mem_append]
        exact he.symm
      exact (hall b (hcomm b hb')).symm.trans (hall d (hcomm d hd))

/-- **Insertion**: `c` is the first bit in which `k` differs from the leaf that `look` finds. -/
theorem crit_splice (h : Crit key t) (hk : ∀ i, key a i = k i) (hag : Agree k (key (look k t)) c)
    (hne : key (look k t) c ≠ k c) : Crit key (splice a k c t) := by
  induction t with
  | leaf x =>
    refine crit_fork h trivial hk (fun b hb => ?_) (fun b hb => ?_) <;>
      · rw [leaves, List.mem_singleton] at hb
        subst hb
        assumption
  | node y c' l r ihl ihr =>
    rw [splice]
    have hmem : look k (node y c' l r) ∈ leaves (node y c' l r) := look_mem
    by_cases hc : c < c'
    · rw [if_pos hc]
      have hsame := fun b (hb : b ∈ leaves (node y c' l r)) => agree_below h (show Below c (node y c' l r) from hc) hmem hb
      refine crit_fork h hc hk (fun b hb => hag.trans ((hsame b hb).mono (by omega))) (fun b hb => ?_)
      rw [← hsame b hb c (by omega)]
      exact hne
    · rw [if_neg hc]
      obtain ⟨hl, hr, hbl, hbr, h0, h1, hpre⟩ := h
      -- bit `c'` of the leaf found is the side that was taken, so it is not the bit in which `k` differs
      have hlt : c' < c := by
        rcases Nat.lt_or_ge c' c with h' | h'
        · exact h'
        · obtain rfl : c' = c := by omega
          exfalso
          refine hne ?_
          by_cases hkc : k c' = true
          · rw [look, if_pos hkc, h1 _ look_mem, hkc]
          · rw [look, if_neg hkc, h0 _ look_mem]
            simpa using hkc
      have hka : Agree (key a) (key (look k (node y c' l r))) c' := fun i hi => by
        rw [hk i]
        exact hag i (by omega)
      have hpre' : ∀ b ∈ leaves l ++ leaves r, Agree (key a) (key b) c' := fun b hb =>
        hka.trans (hpre _ hmem b hb)
      have hall : ∀ {b d}, b = a ∨ b ∈ leaves l ++ leaves r → d = a ∨ d ∈ leaves l ++ leaves r →
          Agree (key b) (key d) c' := by
        rintro b d (rfl | hb) (rfl | hd)
        · exact fun _ _ => rfl
        · exact hpre' d hd
        · exact (hpre' b hb).symm
        · exact hpre b hb d hd
      by_cases hkc : k c' = true
      · rw [if_pos hkc]
        rw [look, if_pos hkc] at hag hne
        refine ⟨hl, ihr hr hag hne, hbl, below_splice hbr hlt, h0, fun b hb => ?_, fun b hb d hd => ?_⟩
        · rcases mem_leaves_splice.mp hb with rfl | hb
          · rw [hk, hkc]
          · exact h1 b hb
        · exact hall (mem_append_splice.mp hb) (mem_append_splice.mp hd)
      · rw [if_neg hkc]
        rw [look, if_neg hkc] at hag hne
        refine ⟨ihl hl hag hne, hr, below_splice hbl hlt, hbr, fun b hb => ?_, h1, fun b hb d hd => ?_⟩
        · rcases mem_leaves_splice.mp hb with rfl | hb
          · rw [hk]; simpa using hkc
          · exact h0 b hb
        · exact hall (mem_splice_append.mp hb) (mem_splice_append.mp hd)

end Splice

/-! ## Paths -/

section Paths

/-- The subtree at the end of a path. -/
def sub : CTree α → List Bool → Option (CTree α)
  | t, [] => some t
  | leaf _, _ :: _ => none
  | node _ _ l r, s :: p => if s then sub r p else sub l p

/-- Another subtree at the end of a path. -/
def replace : CTree α → List Bool → CTree α → CTree α
  | _, [], u => u
  | leaf a, _ :: _, _ => leaf a
  | node y c l r, s :: p, u => if s then node y c l (replace r p u) else node y c (replace l p u) r

/-- The path to the place of `splice`. -/
def spot (k : ℕ → Bool) (c : ℕ) : CTree α → List Bool
  | leaf _ => []
  | node _ c' l r => if c < c' then [] else if k c' then true :: spot k c r else false :: spot k c l

def depth : CTree α → ℕ
  | leaf _ => 0
  | node _ _ l r => max (depth l) (depth r) + 1

/-- All critical bits are less than `n`. -/
def Bounded (n : ℕ) : CTree α → Prop
  | leaf _ => True
  | node _ c l r => c < n ∧ Bounded n l ∧ Bounded n r

variable {key : α → ℕ → Bool} {k : ℕ → Bool} {t u : CTree α} {a : α} {c : ℕ} {p q : List Bool}

@[simp] theorem sub_nil : sub t [] = some t := by cases t <;> rfl

@[simp] theorem replace_nil : replace t [] u = u := by cases t <;> rfl

theorem sub_append : sub t (p ++ q) = (sub t p).bind fun u => sub u q := by
  induction p generalizing t with
  | nil => simp
  | cons s p ih =>
    cases t with
    | leaf a => rfl
    | node y c l r => cases s <;> simp only [List.cons_append, sub, if_true, if_false, ih, Bool.false_eq_true]

theorem leaves_sub (h : sub t p = some u) (ha : a ∈ leaves u) : a ∈ leaves t := by
  induction p generalizing t with
  | nil => simpa using (Option.some.inj (sub_nil ▸ h)) ▸ ha
  | cons s p ih =>
    cases t with
    | leaf b => cases h
    | node y c l r =>
      cases s
      · exact List.mem_append_left _ (ih h)
      · exact List.mem_append_right _ (ih h)

theorem nodes_sub (h : sub t p = some u) (ha : a ∈ nodes u) : a ∈ nodes t := by
  induction p generalizing t with
  | nil => simpa using (Option.some.inj (sub_nil ▸ h)) ▸ ha
  | cons s p ih =>
    cases t with
    | leaf b => cases h
    | node y c l r =>
      cases s
      · exact List.mem_cons_of_mem _ (List.mem_append_left _ (ih h))
      · exact List.mem_cons_of_mem _ (List.mem_append_right _ (ih h))

theorem nodes_nodup_sub (ht : (nodes t).Nodup) (h : sub t p = some u) : (nodes u).Nodup := by
  induction p generalizing t with
  | nil => simpa using (Option.some.inj (sub_nil ▸ h)) ▸ ht
  | cons s p ih =>
    cases t with
    | leaf b => cases h
    | node y c l r =>
      rw [nodes, List.nodup_cons, List.nodup_append] at ht
      cases s
      · exact ih ht.2.1 h
      · exact ih ht.2.2.1 h

theorem crit_sub (ht : Crit key t) (h : sub t p = some u) : Crit key u := by
  induction p generalizing t with
  | nil => simpa using (Option.some.inj (sub_nil ▸ h)) ▸ ht
  | cons s p ih =>
    cases t with
    | leaf b => cases h
    | node y c l r =>
      cases s
      · exact ih ht.1 h
      · exact ih ht.2.1 h

/-- The critical bits grow along a path. -/
theorem crit_lt_of_sub {y y' : α} {c' : ℕ} {l r l' r' : CTree α} {s : Bool} (h : Crit key (node y c l r))
    (hp : sub (node y c l r) (s :: p) = some (node y' c' l' r')) : c < c' := by
  induction p generalizing y c l r s with
  | nil =>
    obtain ⟨-, -, hbl, hbr, -⟩ := h
    cases s
    · rw [sub, if_neg (by simp), sub_nil] at hp
      cases hp
      exact hbl
    · rw [sub, if_pos rfl, sub_nil] at hp
      cases hp
      exact hbr
  | cons s' p ih =>
    obtain ⟨hl, hr, hbl, hbr, -⟩ := h
    cases s
    · cases l with
      | leaf b => cases hp
      | node z d u v => exact lt_trans hbl (ih hl hp)
    · cases r with
      | leaf b => cases hp
      | node z d u v => exact lt_trans hbr (ih hr hp)

/-- Only the keys of the leaves matter. -/
theorem crit_congr {key' : α → ℕ → Bool} (hk : ∀ a ∈ leaves t, ∀ i, key' a i = key a i) (h : Crit key t) :
    Crit key' t := by
  induction t with
  | leaf a => trivial
  | node y c l r ihl ihr =>
    obtain ⟨hl, hr, hbl, hbr, h0, h1, hag⟩ := h
    have hkl : ∀ a ∈ leaves l, ∀ i, key' a i = key a i := fun a ha => hk a (List.mem_append_left _ ha)
    have hkr : ∀ a ∈ leaves r, ∀ i, key' a i = key a i := fun a ha => hk a (List.mem_append_right _ ha)
    refine ⟨ihl hkl hl, ihr hkr hr, hbl, hbr, fun a ha => ?_, fun a ha => ?_, fun a ha b hb i hi => ?_⟩
    · rw [hkl a ha, h0 a ha]
    · rw [hkr a ha, h1 a ha]
    · rw [hk a ha, hk b hb]
      exact hag a ha b hb i hi

theorem mem_leaves_iff : a ∈ leaves t ↔ ∃ p, sub t p = some (leaf a) := by
  refine ⟨fun h => ?_, fun ⟨p, hp⟩ => leaves_sub hp (List.mem_singleton.mpr rfl)⟩
  induction t with
  | leaf b => exact ⟨[], by rw [List.mem_singleton.mp h, sub_nil]⟩
  | node y c l r ihl ihr =>
    rcases List.mem_append.mp h with h | h
    · obtain ⟨p, hp⟩ := ihl h
      exact ⟨false :: p, hp⟩
    · obtain ⟨p, hp⟩ := ihr h
      exact ⟨true :: p, hp⟩

theorem mem_nodes_iff : a ∈ nodes t ↔ ∃ p c l r, sub t p = some (node a c l r) := by
  refine ⟨fun h => ?_, fun ⟨p, c, l, r, hp⟩ => nodes_sub hp List.mem_cons_self⟩
  induction t with
  | leaf b => cases h
  | node y c l r ihl ihr =>
    rcases List.mem_cons.mp h with rfl | h
    · exact ⟨[], c, l, r, rfl⟩
    · rcases List.mem_append.mp h with h | h
      · obtain ⟨p, hp⟩ := ihl h
        exact ⟨false :: p, hp⟩
      · obtain ⟨p, hp⟩ := ihr h
        exact ⟨true :: p, hp⟩

/-- No node is at the end of two paths. -/
theorem path_unique {c' : ℕ} {l r l' r' : CTree α} (hn : (nodes t).Nodup) (hp : sub t p = some (node a c l r))
    (hq : sub t q = some (node a c' l' r')) : p = q := by
  induction t generalizing p q with
  | leaf b =>
    cases p <;> cases hp
  | node y d tl tr ihl ihr =>
    rw [nodes, List.nodup_cons, List.nodup_append] at hn
    obtain ⟨hy, hnl, hnr, hdisj⟩ := hn
    have hroot : ∀ {p : List Bool} {s : Bool} {c l r}, sub (node a d tl tr) (s :: p) = some (node a c l r) → y ≠ a := by
      rintro p s c l r h rfl
      refine hy ?_
      cases s
      · exact List.mem_append_left _ (mem_nodes_iff.mpr ⟨_, _, _, _, h⟩)
      · exact List.mem_append_right _ (mem_nodes_iff.mpr ⟨_, _, _, _, h⟩)
    cases p with
    | nil =>
      cases q with
      | nil => rfl
      | cons s q =>
        rw [sub_nil] at hp
        cases hp
        exact absurd rfl (hroot hq)
    | cons s p =>
      cases q with
      | nil =>
        rw [sub_nil] at hq
        cases hq
        exact absurd rfl (hroot hp)
      | cons s' q =>
        have hmem : ∀ {u : CTree α} {p c l r}, sub u p = some (node a c l r) → a ∈ nodes u := fun h =>
          mem_nodes_iff.mpr ⟨_, _, _, _, h⟩
        cases s <;> cases s'
        · rw [ihl hnl hp hq]
        · exact absurd rfl (hdisj a (hmem hp) a (hmem hq))
        · exact absurd rfl (hdisj a (hmem hq) a (hmem hp))
        · rw [ihr hnr hp hq]

/-- No leaf is at the end of two paths. -/
theorem leaf_path_unique (h : Crit key t) (hp : sub t p = some (leaf a)) (hq : sub t q = some (leaf a)) : p = q := by
  induction t generalizing p q with
  | leaf b =>
    cases p with
    | cons s p => cases hp
    | nil =>
      cases q with
      | cons s q => cases hq
      | nil => rfl
  | node y c l r ihl ihr =>
    obtain ⟨hl, hr, -, -, h0, h1, -⟩ := h
    have hmem : ∀ {u : CTree α} {p}, sub u p = some (leaf a) → a ∈ leaves u := fun h => mem_leaves_iff.mpr ⟨_, h⟩
    cases p with
    | nil => cases hp
    | cons s p =>
      cases q with
      | nil => cases hq
      | cons s' q =>
        cases s <;> cases s'
        · rw [ihl hl hp hq]
        · exact absurd ((h0 a (hmem hp)).symm.trans (h1 a (hmem hq))) (by simp)
        · exact absurd ((h0 a (hmem hq)).symm.trans (h1 a (hmem hp))) (by simp)
        · rw [ihr hr hp hq]

theorem depth_le {n i : ℕ} (h : Crit key t) (hn : Bounded n t) (hi : i = 0 ∨ Below (i - 1) t) : depth t ≤ n - i := by
  induction t generalizing i with
  | leaf a => exact Nat.zero_le _
  | node y c l r ihl ihr =>
    obtain ⟨hl, hr, hbl, hbr, -, -, -⟩ := h
    obtain ⟨hc, hnl, hnr⟩ := hn
    have h1 := ihl hl hnl (i := c + 1) (.inr hbl)
    have h2 := ihr hr hnr (i := c + 1) (.inr hbr)
    have hic : i ≤ c := by
      rcases hi with hi | hi
      · omega
      · have : i - 1 < c := hi
        omega
    rw [depth]
    omega

theorem sub_spot : ∃ u, sub t (spot k c t) = some u ∧ Below c u := by
  induction t with
  | leaf a => exact ⟨leaf a, rfl, trivial⟩
  | node y c' l r ihl ihr =>
    rw [spot]
    split_ifs with hc
    · exact ⟨_, rfl, hc⟩
    · exact ihr
    · exact ihl

theorem splice_eq_replace (h : sub t (spot k c t) = some u) :
    splice a k c t = replace t (spot k c t) (fork a k c u) := by
  induction t with
  | leaf b =>
    rw [spot, sub_nil] at h
    cases h
    rfl
  | node y c' l r ihl ihr =>
    rw [spot] at h ⊢
    rw [splice]
    split_ifs at h ⊢ with hc hk
    · rw [sub_nil] at h
      cases h
      rfl
    · rw [ihr h]
      rfl
    · rw [ihl h]
      rfl

/-- Leaves that differ in a bit are different: the invariant leaves no leaf twice. -/
theorem leaves_nodup (h : Crit key t) : (leaves t).Nodup := by
  induction t with
  | leaf a => exact List.nodup_singleton a
  | node y c l r ihl ihr =>
    obtain ⟨hl, hr, -, -, h0, h1, -⟩ := h
    refine List.nodup_append.mpr ⟨ihl hl, ihr hr, ?_⟩
    rintro a ha b hb rfl
    have := (h0 a ha).symm.trans (h1 a hb)
    simp at this

/-- A leaf is on the side of its own bit. -/
theorem mem_side {y : α} {l r : CTree α} (h : Crit key (node y c l r)) (ha : a ∈ leaves (node y c l r))
    (hk : ∀ i, key a i = k i) : a ∈ leaves (if k c then r else l) := by
  obtain ⟨-, -, -, -, h0, h1, -⟩ := h
  rcases List.mem_append.mp ha with ha | ha
  · rw [← hk, h0 a ha, if_neg (by simp)]
    exact ha
  · rw [← hk, h1 a ha, if_pos rfl]
    exact ha

/-- No two leaves have the same key. -/
theorem key_injOn {b : α} (h : Crit key t) (ha : a ∈ leaves t) (hb : b ∈ leaves t) (hk : ∀ i, key a i = key b i) :
    a = b := by
  induction t with
  | leaf x => rw [List.mem_singleton.mp ha, List.mem_singleton.mp hb]
  | node y c l r ihl ihr =>
    have ha' := mem_side (k := key a) h ha (fun _ => rfl)
    have hb' := mem_side (k := key a) h hb (fun i => (hk i).symm)
    obtain ⟨hl, hr, -⟩ := h
    split_ifs at ha' hb'
    · exact ihr hr ha' hb'
    · exact ihl hl ha' hb'

theorem length_leaves : (leaves t).length = (nodes t).length + 1 := by
  induction t with
  | leaf a => rfl
  | node y c l r ihl ihr =>
    rw [leaves, nodes, List.length_append, List.length_cons, List.length_append, ihl, ihr]
    omega

/-! ### Deleting -/

theorem leaves_replace_perm {v : CTree α} (h : sub t p = some u) (hp : (leaves u).Perm (a :: leaves v)) :
    (leaves t).Perm (a :: leaves (replace t p v)) := by
  induction p generalizing t with
  | nil =>
    rw [sub_nil] at h
    cases h
    rwa [replace_nil]
  | cons s p ih =>
    cases t with
    | leaf b => cases h
    | node y c l r =>
      cases s
      · exact List.Perm.append_right _ (ih h)
      · exact (List.Perm.append_left _ (ih h)).trans List.perm_middle

theorem nodes_replace_perm {v : CTree α} (h : sub t p = some u) (hp : (nodes u).Perm (a :: nodes v)) :
    (nodes t).Perm (a :: nodes (replace t p v)) := by
  induction p generalizing t with
  | nil =>
    rw [sub_nil] at h
    cases h
    rwa [replace_nil]
  | cons s p ih =>
    cases t with
    | leaf b => cases h
    | node y c l r =>
      have hswap : ∀ {xs ys : List α}, xs.Perm (a :: ys) → (y :: xs).Perm (a :: y :: ys) := fun hxs =>
        (hxs.cons y).trans (List.Perm.swap _ _ _)
      cases s
      · exact hswap (List.Perm.append_right _ (ih h))
      · exact hswap ((List.Perm.append_left _ (ih h)).trans List.perm_middle)

theorem below_replace {v : CTree α} {m : ℕ} (h : sub t p = some u) (hb : ∀ m, Below m u → Below m v)
    (ht : Below m t) : Below m (replace t p v) := by
  cases p with
  | nil =>
    rw [sub_nil] at h
    cases h
    rw [replace_nil]
    exact hb m ht
  | cons s p =>
    cases t with
    | leaf b => cases h
    | node y c l r => cases s <;> exact ht

/-- A subtree may be replaced by one with fewer leaves that fits below the same critical bits. -/
theorem crit_replace {v : CTree α} (ht : Crit key t) (h : sub t p = some u) (hv : Crit key v)
    (hsub : ∀ a ∈ leaves v, a ∈ leaves u) (hb : ∀ m, Below m u → Below m v) :
    Crit key (replace t p v) ∧ ∀ a ∈ leaves (replace t p v), a ∈ leaves t := by
  induction p generalizing t with
  | nil =>
    rw [sub_nil] at h
    cases h
    rw [replace_nil]
    exact ⟨hv, hsub⟩
  | cons s p ih =>
    cases t with
    | leaf b => cases h
    | node y c l r =>
      obtain ⟨hl, hr, hbl, hbr, h0, h1, hag⟩ := ht
      cases s
      · obtain ⟨hc, hs⟩ := ih hl h
        have hmem : ∀ b ∈ leaves (replace l p v) ++ leaves r, b ∈ leaves l ++ leaves r := fun b hb' =>
          List.mem_append.mpr ((List.mem_append.mp hb').imp (hs b) id)
        exact ⟨⟨hc, hr, below_replace h hb hbl, hbr, fun b hb' => h0 b (hs b hb'), h1,
          fun b hb' d hd => hag b (hmem b hb') d (hmem d hd)⟩, hmem⟩
      · obtain ⟨hc, hs⟩ := ih hr h
        have hmem : ∀ b ∈ leaves l ++ leaves (replace r p v), b ∈ leaves l ++ leaves r := fun b hb' =>
          List.mem_append.mpr ((List.mem_append.mp hb').imp id (hs b))
        exact ⟨⟨hl, hc, hbl, below_replace h hb hbr, h0, fun b hb' => h1 b (hs b hb'),
          fun b hb' d hd => hag b (hmem b hb') d (hmem d hd)⟩, hmem⟩

/-- **Deletion**: the node `z` above the leaf `a` is replaced by its other child. -/
theorem crit_lift {z : α} {l r : CTree α} {s : Bool} (ht : Crit key t) (h : sub t p = some (node z c l r))
    (ha : (if s then r else l) = leaf a) : Crit key (replace t p (if s then l else r)) ∧
      (leaves t).Perm (a :: leaves (replace t p (if s then l else r))) ∧
      (nodes t).Perm (z :: nodes (replace t p (if s then l else r))) := by
  obtain ⟨hl, hr, hbl, hbr, -, -, -⟩ := crit_sub ht h
  have hmono : ∀ {w : CTree α}, Below c w → ∀ m, Below m (node z c l r) → Below m w := fun {w} hw m hm => by
    cases w with
    | leaf b => trivial
    | node y d u v => exact lt_trans hm hw
  cases s
  · simp only [Bool.false_eq_true, if_false] at ha ⊢
    subst ha
    refine ⟨(crit_replace ht h hr (fun b hb => List.mem_append_right _ hb) (hmono hbr)).1, ?_, ?_⟩
    · exact leaves_replace_perm h (List.Perm.refl _)
    · exact nodes_replace_perm h (List.Perm.refl _)
  · simp only [if_true] at ha ⊢
    subst ha
    refine ⟨(crit_replace ht h hl (fun b hb => List.mem_append_left _ hb) (hmono hbl)).1, ?_, ?_⟩
    · exact leaves_replace_perm h (List.perm_append_singleton _ _)
    · exact nodes_replace_perm h (by simp [nodes])

end Paths

end CTree

end Varnish.Lib
