import Mathlib.Data.List.Nodup
import Mathlib.Data.List.TakeWhile
import Varnish.Ban.Count

/-!
# Varnish.Ban.Reload — the bans of the silos, in any order (`BAN_Reload`)

* `Line`, `reloadLines`: what `BAN_Reload` does with the times, the texts and `BAN_F_GONE`.  `lines_reload`: it does that.
* `Tidy`: the lines are sorted, no two have the same time and text, and those are gone for which there is a newer one with the
  same text.  `tidy_reload`: it stays so.
* `reload_all`: after any sequence of reloads the list is determined by the pairs in it.
-/

namespace Varnish.Ban

open Varnish.Lib

variable {R T : Type}

/-! ## Lines -/

section Lines

/-- Of a ban its time, its text and `BAN_F_GONE`. -/
@[ext]
structure Line (T : Type) where
  t0 : T
  test : Str
  gone : Bool
deriving DecidableEq

def Line.pair (x : Line T) : T × Str := (x.t0, x.test)

def BanRec.line (x : BanRec R T) : Line T := ⟨x.t0, x.test, x.gone⟩

def Bans.lines (s : Bans R T) : List (Line T) := s.head.map fun b => (s.ban b).line

/-- The times and texts of the bans in the list. -/
def Bans.pairs (s : Bans R T) : List (T × Str) := s.head.map fun b => ((s.ban b).t0, (s.ban b).test)

theorem map_pair_lines (s : Bans R T) : s.lines.map Line.pair = s.pairs := by
  rw [Bans.lines, List.map_map]
  rfl

/-- The line is gone, if there is a newer one with its text. -/
def Line.hunt (test : Str) (x : Line T) : Line T := { x with gone := x.gone || decide (x.test = test) }

variable [LinearOrder T]

/-- The new line comes behind those that are as old or newer. -/
def reloadLines (l : List (Line T)) (t0 : T) (test : Str) : List (Line T) :=
  let k := l.takeWhile fun x => t0 ≤ x.t0
  let k' := l.dropWhile fun x => t0 ≤ x.t0
  if k.any fun x => x.test = test ∧ x.t0 = t0 then l
  else k ++ ⟨t0, test, k.any fun x => x.test = test⟩ :: k'.map (Line.hunt test)

/-- The first loop stops at the first older ban. -/
theorem reloadScan_eq (ban : ℕ → BanRec R T) (t0 : T) (test : Str) (gone : Bool) (l : List ℕ) :
    reloadScan ban t0 test gone l =
      if (l.takeWhile fun b => t0 ≤ (ban b).t0).any fun b => (ban b).test = test ∧ (ban b).t0 = t0 then none
      else some (gone || (l.takeWhile fun b => t0 ≤ (ban b).t0).any fun b => (ban b).test = test,
        (l.takeWhile fun b => t0 ≤ (ban b).t0).length) := by
  induction l generalizing gone with
  | nil => simp [reloadScan]
  | cons b l ih =>
    simp only [reloadScan]
    rcases lt_trichotomy (ban b).t0 t0 with h | h | h
    · have h1 : ¬ t0 < (ban b).t0 := not_lt.mpr h.le
      rw [List.takeWhile_cons_of_neg (by simpa using h)]
      by_cases ht : (ban b).test = test <;> simp [ht, h1, h.ne, h]
    · subst h
      rw [List.takeWhile_cons_of_pos (by simp)]
      by_cases ht : (ban b).test = test
      · simp [ht]
      · simp only [ht, if_false, lt_irrefl, ih, List.any_cons, List.length_cons, decide_false, Bool.false_or, false_and]
        split <;> simp
    · rw [List.takeWhile_cons_of_pos (by simpa using h.le)]
      by_cases ht : (ban b).test = test
      · simp only [ht, if_true, gt_iff_lt, h, ih, List.any_cons, h.ne', and_false, decide_false, Bool.false_or,
          List.length_cons, decide_true, Bool.true_or, Bool.or_true]
        split <;> simp
      · simp only [ht, if_false, gt_iff_lt, h, if_true, ih, List.any_cons, decide_false, Bool.false_or, List.length_cons,
          false_and]
        split <;> simp

/-- The bans of the list are different ones, and the next one is new. -/
structure Bans.Fresh (s : Bans R T) : Prop where
  nodup : s.head.Nodup
  lt_next : ∀ b ∈ s.head, b < s.next

theorem fresh_reload {s : Bans R T} (h : s.Fresh) (t0 : T) (test : Str) : (banReload s t0 test).Fresh := by
  unfold banReload
  split
  case h_1 => exact h
  case h_2 gone n _ =>
    simp only [banHunt_eq]
    have hnew : s.next ∉ s.head := fun hm => absurd (h.lt_next _ hm) (lt_irrefl _)
    have hsub : ∀ b, b ∈ s.head.take n ++ s.next :: s.head.drop n ↔ b = s.next ∨ b ∈ s.head := by
      intro b
      conv_rhs => rw [← List.take_append_drop n s.head]
      simp only [List.mem_append, List.mem_cons]
      tauto
    constructor
    · refine (List.perm_middle.nodup_iff).mpr (List.nodup_cons.mpr ?_)
      rw [List.take_append_drop]
      exact ⟨hnew, h.nodup⟩
    · intro b hb
      rcases (hsub b).mp hb with rfl | hb
      · exact Nat.lt_succ_self _
      · exact Nat.lt_succ_of_lt (h.lt_next b hb)

/-- What `BAN_Reload` does with the lines. -/
theorem lines_reload {s : Bans R T} (h : s.Fresh) (t0 : T) (test : Str) :
    (banReload s t0 test).lines = reloadLines s.lines t0 test := by
  have hnew : s.next ∉ s.head := fun hm => absurd (h.lt_next _ hm) (lt_irrefl _)
  generalize hk : (s.head.takeWhile fun b => t0 ≤ (s.ban b).t0) = k
  generalize hk' : (s.head.dropWhile fun b => t0 ≤ (s.ban b).t0) = k'
  have hhead : s.head = k ++ k' := by rw [← hk, ← hk', List.takeWhile_append_dropWhile]
  have hlk : (s.lines.takeWhile fun x => t0 ≤ x.t0) = k.map fun b => (s.ban b).line := by
    rw [Bans.lines, List.takeWhile_map, ← hk]
    rfl
  have hlk' : (s.lines.dropWhile fun x => t0 ≤ x.t0) = k'.map fun b => (s.ban b).line := by
    rw [Bans.lines, List.dropWhile_map, ← hk']
    rfl
  unfold banReload reloadLines
  rw [reloadScan_eq, hk, hlk, hlk']
  simp only [List.any_map, Function.comp_def, BanRec.line]
  by_cases hany : (k.any fun b => (s.ban b).test = test ∧ (s.ban b).t0 = t0) = true
  · rw [if_pos hany, if_pos hany]
  rw [if_neg hany, if_neg hany]
  simp only [banHunt_eq]
  have htake : s.head.take k.length = k := by rw [hhead, List.take_left]
  have hdrop : s.head.drop k.length = k' := by rw [hhead, List.drop_left]
  have hdis : ∀ b ∈ k, b ∉ k' := by
    have := h.nodup
    rw [hhead] at this
    exact fun b hb hb' => (List.disjoint_of_nodup_append this) hb hb'
  have hne : ∀ b ∈ s.head, b ≠ s.next := fun b hb he => hnew (he ▸ hb)
  have hafter : after s.next (k ++ s.next :: k') = k' := by
    unfold after
    rw [List.dropWhile_append_of_pos fun b hb => by simpa using hne b (hhead ▸ List.mem_append_left _ hb),
      List.dropWhile_cons_of_neg (by simp)]
    rfl
  simp only [Bans.lines, htake, hdrop, hafter, Function.update_self, List.map_append, List.map_cons, List.map_map]
  refine congrArg₂ _ (List.map_congr_left fun b hb => ?_) (congrArg₂ _ ?_ (List.map_congr_left fun b hb => ?_))
  · have hb' := hne b (hhead ▸ List.mem_append_left _ hb)
    simp [BanRec.line, BanRec.mark, Function.update_of_ne hb', hdis b hb]
  · have hb' : s.next ∉ k' := fun hm => hnew (hhead ▸ List.mem_append_right _ hm)
    simp [BanRec.line, BanRec.mark, hb']
  · have hb' := hne b (hhead ▸ List.mem_append_right _ hb)
    simp [BanRec.line, BanRec.mark, Function.update_of_ne hb', hb, Line.hunt, eq_comm]

end Lines

/-! ## Tidy lists -/

section Tidy

variable [LinearOrder T] {M : List (T × Str)} {l l' : List (Line T)} {t0 : T} {test : Str}

/-- Sorted from the newest to the oldest, and no pair twice; those lines are gone that were so from the start, and those for
which there is a newer one with the same text. -/
structure Tidy (M : List (T × Str)) (l : List (Line T)) : Prop where
  sorted : l.Pairwise fun x y => y.t0 ≤ x.t0
  nodup : (l.map Line.pair).Nodup
  start : ∀ p ∈ M, p ∈ l.map Line.pair
  gone : ∀ x ∈ l, x.gone = true ↔ x.pair ∈ M ∨ ∃ p ∈ l.map Line.pair, p.2 = x.test ∧ x.t0 < p.1

theorem mem_takeWhile {α : Type} {f : α → T} {l : List α} (h : l.Pairwise fun x y => f y ≤ f x) {x : α} :
    (x ∈ l.takeWhile fun x => t0 ≤ f x) ↔ x ∈ l ∧ t0 ≤ f x := by
  induction l with
  | nil => simp
  | cons y l ih =>
    obtain ⟨hy, hl⟩ := List.pairwise_cons.mp h
    by_cases hle : t0 ≤ f y
    · rw [List.takeWhile_cons_of_pos (by simpa using hle), List.mem_cons, ih hl, List.mem_cons, or_and_right]
      exact or_congr_left ⟨fun he => ⟨he, he ▸ hle⟩, fun he => he.1⟩
    · rw [List.takeWhile_cons_of_neg (by simpa using hle)]
      refine ⟨fun hm => absurd hm List.not_mem_nil, ?_⟩
      rintro ⟨hm, hx⟩
      rcases List.mem_cons.mp hm with rfl | hm
      · exact absurd hx hle
      · exact absurd (hx.trans (hy x hm)) hle

theorem lt_of_mem_dropWhile (h : l.Pairwise fun x y => y.t0 ≤ x.t0) {x : Line T}
    (hx : x ∈ l.dropWhile fun x => t0 ≤ x.t0) : x.t0 < t0 := by
  induction l with
  | nil => cases hx
  | cons y l ih =>
    obtain ⟨hy, hl⟩ := List.pairwise_cons.mp h
    by_cases hle : t0 ≤ y.t0
    · rw [List.dropWhile_cons_of_pos (by simpa using hle)] at hx
      exact ih hl hx
    · rw [List.dropWhile_cons_of_neg (by simpa using hle)] at hx
      rcases List.mem_cons.mp hx with rfl | hx
      · exact not_le.mp hle
      · exact (hy x hx).trans_lt (not_le.mp hle)

/-- A pair that is there is found by the first loop. -/
theorem reload_of_mem (h : l.Pairwise fun x y => y.t0 ≤ x.t0) (hp : (t0, test) ∈ l.map Line.pair) :
    reloadLines l t0 test = l := by
  obtain ⟨x, hx, he⟩ := List.mem_map.mp hp
  obtain ⟨rfl, rfl⟩ : x.t0 = t0 ∧ x.test = test := Prod.mk.inj he
  unfold reloadLines
  refine if_pos (List.any_eq_true.mpr ⟨x, (mem_takeWhile h).mpr ⟨hx, le_refl _⟩, by simp⟩)

theorem reload_of_not_mem (hp : (t0, test) ∉ l.map Line.pair) :
    reloadLines l t0 test = (l.takeWhile fun x => t0 ≤ x.t0) ++
      ⟨t0, test, (l.takeWhile fun x => t0 ≤ x.t0).any fun x => x.test = test⟩ ::
        (l.dropWhile fun x => t0 ≤ x.t0).map (Line.hunt test) := by
  unfold reloadLines
  refine if_neg fun hany => hp ?_
  obtain ⟨x, hx, he⟩ := List.any_eq_true.mp hany
  obtain ⟨rfl, rfl⟩ : x.test = test ∧ x.t0 = t0 := by simpa using he
  exact List.mem_map.mpr ⟨x, (List.takeWhile_prefix _).subset hx, rfl⟩

/-- Otherwise it is added, and no other one. -/
theorem pairs_reload (hp : (t0, test) ∉ l.map Line.pair) :
    ((reloadLines l t0 test).map Line.pair).Perm ((t0, test) :: l.map Line.pair) := by
  have hl : l.map Line.pair = (l.takeWhile fun x => t0 ≤ x.t0).map Line.pair ++
      ((l.dropWhile fun x => t0 ≤ x.t0).map (Line.hunt test)).map Line.pair := by
    conv_lhs => rw [← List.takeWhile_append_dropWhile (p := fun x : Line T => t0 ≤ x.t0) (l := l)]
    rw [List.map_append, List.map_map]
    rfl
  rw [reload_of_not_mem hp, List.map_append, List.map_cons, hl]
  exact List.perm_middle

theorem mem_pairs_reload (h : l.Pairwise fun x y => y.t0 ≤ x.t0) (p : T × Str) :
    p ∈ (reloadLines l t0 test).map Line.pair ↔ p = (t0, test) ∨ p ∈ l.map Line.pair := by
  by_cases hp : (t0, test) ∈ l.map Line.pair
  · rw [reload_of_mem h hp]
    exact ⟨.inr, fun hq => hq.elim (fun he => he ▸ hp) id⟩
  · rw [(pairs_reload hp).mem_iff, List.mem_cons]

theorem tidy_reload (h : Tidy M l) (t0 : T) (test : Str) : Tidy M (reloadLines l t0 test) := by
  by_cases hp : (t0, test) ∈ l.map Line.pair
  · rw [reload_of_mem h.sorted hp]
    exact h
  have hmem : ∀ p, p ∈ (reloadLines l t0 test).map Line.pair ↔ p = (t0, test) ∨ p ∈ l.map Line.pair :=
    mem_pairs_reload h.sorted
  constructor
  case sorted =>
    rw [reload_of_not_mem hp, List.pairwise_append]
    refine ⟨h.sorted.sublist (List.takeWhile_sublist _), List.pairwise_cons.mpr ⟨?_, ?_⟩, ?_⟩
    · intro y hy
      obtain ⟨z, hz, rfl⟩ := List.mem_map.mp hy
      exact (lt_of_mem_dropWhile h.sorted hz).le
    · rw [List.pairwise_map]
      exact h.sorted.sublist (List.dropWhile_sublist _)
    · intro x hx y hy
      have hx := ((mem_takeWhile h.sorted).mp hx).2
      rcases List.mem_cons.mp hy with rfl | hy
      · exact hx
      · obtain ⟨z, hz, rfl⟩ := List.mem_map.mp hy
        exact (lt_of_mem_dropWhile h.sorted hz).le.trans hx
  case nodup => exact (pairs_reload hp).nodup_iff.mpr (List.nodup_cons.mpr ⟨hp, h.nodup⟩)
  case start => exact fun p hm => (hmem p).mpr (.inr (h.start p hm))
  case gone =>
    intro x hx
    rw [reload_of_not_mem hp] at hx
    rcases List.mem_append.mp hx with hx | hx
    · -- a line that is as old, or newer
      obtain ⟨hx, hle⟩ := (mem_takeWhile h.sorted).mp hx
      rw [h.gone x hx]
      refine or_congr_right (exists_congr fun p => ?_)
      rw [hmem]
      constructor
      · exact fun hq => ⟨.inr hq.1, hq.2⟩
      · rintro ⟨rfl | hq, ht, hlt⟩
        · exact absurd hle (not_le.mpr hlt)
        · exact ⟨hq, ht, hlt⟩
    rcases List.mem_cons.mp hx with rfl | hx
    · -- the new line
      rw [List.any_eq_true]
      constructor
      · rintro ⟨y, hy, he⟩
        obtain ⟨hy, hle⟩ := (mem_takeWhile h.sorted).mp hy
        have he : y.test = test := by simpa using he
        have hym : y.pair ∈ l.map Line.pair := List.mem_map.mpr ⟨y, hy, rfl⟩
        refine .inr ⟨y.pair, (hmem _).mpr (.inr hym), he, lt_of_le_of_ne hle fun ht => hp ?_⟩
        have ht : t0 = y.t0 := ht
        rw [ht, ← he]
        exact hym
      · rintro (hm | ⟨p, hq, ht, hlt⟩)
        · exact absurd (h.start _ hm) hp
        · rcases (hmem p).mp hq with rfl | hq
          · exact absurd hlt (lt_irrefl _)
          · obtain ⟨y, hy, rfl⟩ := List.mem_map.mp hq
            exact ⟨y, (mem_takeWhile h.sorted).mpr ⟨hy, le_of_lt hlt⟩, decide_eq_true ht⟩
    · -- an older line
      obtain ⟨y, hy, rfl⟩ := List.mem_map.mp hx
      have hlt := lt_of_mem_dropWhile h.sorted hy
      have hy : y ∈ l := (List.dropWhile_sublist _).subset hy
      simp only [Line.hunt, Bool.or_eq_true, decide_eq_true_eq, h.gone y hy]
      constructor
      · rintro ((hm | ⟨p, hq, ht⟩) | ht)
        · exact .inl hm
        · exact .inr ⟨p, (hmem p).mpr (.inr hq), ht⟩
        · exact .inr ⟨(t0, test), (hmem _).mpr (.inl rfl), ht.symm, hlt⟩
      · rintro (hm | ⟨p, hq, ht, hlt'⟩)
        · exact .inl (.inl hm)
        · rcases (hmem p).mp hq with rfl | hq
          · exact .inr ht.symm
          · exact .inl (.inr ⟨p, hq, ht, hlt'⟩)

/-- A tidy list is determined by its pairs. -/
theorem Tidy.mem_iff (h : Tidy M l) (h' : Tidy M l') (hp : ∀ p, p ∈ l.map Line.pair ↔ p ∈ l'.map Line.pair) (x : Line T) :
    x ∈ l → x ∈ l' := by
  intro hx
  obtain ⟨y, hy, he⟩ := List.mem_map.mp ((hp x.pair).mp (List.mem_map.mpr ⟨x, hx, rfl⟩))
  obtain ⟨ht0, htest⟩ : y.t0 = x.t0 ∧ y.test = x.test := Prod.mk.inj he
  have hg : y.gone = x.gone := by
    rw [Bool.eq_iff_iff, h.gone x hx, h'.gone y hy, he, ht0, htest]
    exact or_congr_right (exists_congr fun p => by rw [hp])
  have : y = x := Line.ext ht0 htest hg
  exact this ▸ hy

end Tidy

/-! ## Whole sequences -/

section Sequences

variable [LinearOrder T] (ban₀ : ℕ → BanRec R T) {s : Bans R T} {magic : Option T} {ps : List (T × Str)}

/-- The list before the silos are opened: empty, or with `ban_magic`, which `BAN_Init` has inserted and marked. -/
def bansStart : (magic : Option T) → Bans R T
  | none => ⟨ban₀, [], 0, 0⟩
  | some now =>
    ⟨Function.update ban₀ 0
      { tests := [], req := false, test := [], gone := true, pending := false, refcount := 0, objcore := [], t0 := now },
      [0], 0, 1⟩

/-- The pair of `ban_magic`. -/
def magicPairs (magic : Option T) : List (T × Str) := magic.toList.map fun now => (now, [])

def reloadAll (s : Bans R T) (ps : List (T × Str)) : Bans R T := ps.foldl (fun s p => banReload s p.1 p.2) s

/-- What is known of the list after a sequence of reloads. -/
structure ReloadInv (magic : Option T) (ps : List (T × Str)) (s : Bans R T) : Prop where
  fresh : s.Fresh
  tidy : Tidy (magicPairs magic) s.lines
  pairs : ∀ p, p ∈ s.pairs ↔ p ∈ ps ∨ p ∈ magicPairs magic

theorem reloadInv_start (magic : Option T) : ReloadInv magic [] (bansStart ban₀ magic) := by
  cases magic with
  | none =>
    refine ⟨⟨List.nodup_nil, fun b hb => absurd hb List.not_mem_nil⟩, ⟨List.Pairwise.nil, List.nodup_nil, ?_, ?_⟩, ?_⟩
    · exact fun p hp => absurd hp List.not_mem_nil
    · exact fun x hx => absurd hx List.not_mem_nil
    · exact fun p => by simp [Bans.pairs, bansStart, magicPairs]
  | some now =>
    refine ⟨⟨List.nodup_singleton _, ?_⟩, ⟨List.pairwise_singleton _ _, List.nodup_singleton _, ?_, ?_⟩, ?_⟩
    · intro b hb
      rw [List.mem_singleton.mp hb]
      exact Nat.zero_lt_one
    · simp [magicPairs, Bans.lines, bansStart, BanRec.line, Line.pair]
    · simp [magicPairs, Bans.lines, bansStart, BanRec.line, Line.pair]
    · exact fun p => by simp [Bans.pairs, bansStart, magicPairs]

theorem ReloadInv.step (h : ReloadInv magic ps s) (p : T × Str) : ReloadInv magic (ps ++ [p]) (banReload s p.1 p.2) where
  fresh := fresh_reload h.fresh _ _
  tidy := by
    rw [lines_reload h.fresh]
    exact tidy_reload h.tidy _ _
  pairs q := by
    rw [← map_pair_lines, lines_reload h.fresh, mem_pairs_reload h.tidy.sorted, map_pair_lines, h.pairs, List.mem_append,
      List.mem_singleton]
    tauto

theorem ReloadInv.all (h : ReloadInv magic ps s) (qs : List (T × Str)) : ReloadInv magic (ps ++ qs) (reloadAll s qs) := by
  induction qs generalizing s ps with
  | nil =>
    rw [List.append_nil]
    exact h
  | cons q qs ih =>
    have := ih (h.step q)
    rw [List.append_assoc] at this
    exact this

theorem ReloadInv.sorted (h : ReloadInv magic ps s) : s.head.Pairwise fun b b' => (s.ban b').t0 ≤ (s.ban b).t0 := by
  have := h.tidy.sorted
  rw [Bans.lines, List.pairwise_map] at this
  exact this

/-- A pair that is in the list is left alone. -/
theorem ReloadInv.again (h : ReloadInv magic ps s) {p : T × Str} (hp : p ∈ s.pairs) : banReload s p.1 p.2 = s := by
  obtain ⟨b, hb, rfl⟩ := List.mem_map.mp hp
  have hscan : reloadScan s.ban (s.ban b).t0 (s.ban b).test false s.head = none := by
    rw [reloadScan_eq, if_pos]
    exact List.any_eq_true.mpr ⟨b, (mem_takeWhile h.sorted).mpr ⟨hb, le_refl _⟩, by simp⟩
  rw [banReload, hscan]

/-- **Reloading**: the list after a sequence of reloads is sorted from the newest to the oldest and holds each pair once; a ban
other than `ban_magic` is gone if and only if there is a newer one with its text; another order of the same pairs gives the same
times, texts and marks; and reloading all of it again changes nothing. -/
structure Reloaded (magic : Option T) (ps : List (T × Str)) (s : Bans R T) : Prop where
  sorted : s.head.Pairwise fun b b' => (s.ban b').t0 ≤ (s.ban b).t0
  once : s.pairs.Nodup
  pairs : ∀ p, p ∈ s.pairs ↔ p ∈ ps ∨ p ∈ magicPairs magic
  gone : ∀ b ∈ s.head, ((s.ban b).t0, (s.ban b).test) ∉ magicPairs magic →
    ((s.ban b).gone = true ↔ ∃ b' ∈ s.head, (s.ban b').test = (s.ban b).test ∧ (s.ban b).t0 < (s.ban b').t0)
  order : ∀ qs, (∀ p, p ∈ qs ↔ p ∈ ps) → ∀ x, x ∈ s.lines ↔ x ∈ (reloadAll (bansStart ban₀ magic) qs).lines
  again : ∀ qs, (∀ p ∈ qs, p ∈ ps) → reloadAll s qs = s

theorem reload_all (magic : Option T) (ps : List (T × Str)) : Reloaded ban₀ magic ps (reloadAll (bansStart ban₀ magic) ps) := by
  have hinv := (reloadInv_start ban₀ magic).all ps
  rw [List.nil_append] at hinv
  generalize reloadAll (bansStart ban₀ magic) ps = s at hinv
  constructor
  case sorted => exact hinv.sorted
  case once =>
    rw [← map_pair_lines]
    exact hinv.tidy.nodup
  case pairs => exact hinv.pairs
  case gone =>
    intro b hb hm
    rw [show (s.ban b).gone = (s.ban b).line.gone from rfl, hinv.tidy.gone _ (List.mem_map.mpr ⟨b, hb, rfl⟩), map_pair_lines]
    constructor
    · rintro (hmag | ⟨p, hp, ht, hlt⟩)
      · exact absurd hmag hm
      · obtain ⟨b', hb', rfl⟩ := List.mem_map.mp hp
        exact ⟨b', hb', ht, hlt⟩
    · rintro ⟨b', hb', ht, hlt⟩
      exact .inr ⟨_, List.mem_map.mpr ⟨b', hb', rfl⟩, ht, hlt⟩
  case order =>
    intro qs hqs x
    have hinv' := (reloadInv_start ban₀ magic).all qs
    rw [List.nil_append] at hinv'
    have hp : ∀ p, p ∈ s.lines.map Line.pair ↔ p ∈ (reloadAll (bansStart ban₀ magic) qs).lines.map Line.pair := by
      intro p
      rw [map_pair_lines, map_pair_lines, hinv.pairs, hinv'.pairs, hqs]
    exact ⟨hinv.tidy.mem_iff hinv'.tidy hp x, hinv'.tidy.mem_iff hinv.tidy (fun p => (hp p).symm) x⟩
  case again =>
    intro qs hqs
    induction qs with
    | nil => rfl
    | cons q qs ih =>
      have hq := hinv.again ((hinv.pairs q).mpr (.inl (hqs q List.mem_cons_self)))
      rw [reloadAll, List.foldl_cons, hq]
      exact ih fun p hp => hqs p (List.mem_cons_of_mem _ hp)

end Sequences

end Varnish.Ban
