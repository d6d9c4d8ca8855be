import Mathlib.Data.List.TakeWhile
import Varnish.Ban.Argv

/-!
# Varnish.Ban.Text — the text of a ban and `BAN_Compile`

* `compileTests`, `banCompile`: the text that `BAN_Insert` has left in `test`, read again after a restart.
* `words_unquoted`, `words_quoted`: when one word is read as it was written.
* `banCompile_iff`: which bans mean the same after the restart.
-/

namespace Varnish.Ban

open Varnish.Lib (isspace)

/-! ## The reader of a saved ban -/

section Compile

variable {R : Type}

/-- The loop of `BAN_Compile` over the words; `none` is a word that is not `&&`, or the end of the words inside of a test. -/
def compileTests : (first : Bool) → List Str → Option (List (Str × Str × Str))
  | _, [] => some []
  | true, a1 :: a2 :: a3 :: av => (compileTests false av).map ((a1, a2, a3) :: ·)
  | false, w :: a1 :: a2 :: a3 :: av =>
    if w = "&&".toList then (compileTests false av).map ((a1, a2, a3) :: ·) else none
  | _, _ => none

/-- `ParseArgv(b->test, 0)`. -/
def words (s : Str) : Except ArgErr (List Str) := parseArgv false false (s.length + 1) s

/-- `BAN_Compile` of one ban: the tests it found and the ban they make; `none` is a failed assertion. -/
def banCompile (vre : Vre R) (test : Str) : Option (List (Str × Str × Str) × BanSpec R) :=
  match words test with
  | .error _ => none
  | .ok av => do
    let ts ← compileTests true av
    match addTests vre banNew ts with
    | some (.ok b) => some (ts, b)
    | _ => none

end Compile

/-! ## Words -/

section Words

variable {w r t : Str} {ws : List Str} {c : Char}

theorem length_of_argWord {comma quote : Bool} {p : Str × Str} (h : argWord comma quote t = .ok p) : p.2.length ≤ t.length := by
  unfold argWord at h
  cases hs : scanWord comma quote 0 t with
  | error e =>
    rw [hs] at h
    cases h
  | ok n =>
    rw [hs] at h
    cases h
    simp

/-- Blanks are passed over, and a word is followed by other words. -/
theorem parseArgv_cons (f : ℕ) : parseArgv false false (f + 1) (c :: t) =
    if isspace c = true then parseArgv false false f t
    else (argWord false (decide (c = '"')) (if decide (c = '"') = true then t else c :: t)).bind fun p =>
      (parseArgv false false f (p.2.drop 1)).map (p.1.takeWhile (· ≠ '\x00') :: ·) := by
  rw [parseArgv, if_neg (by simp : ¬ (false && decide (c = '#')) = true)]
  rfl

/-- What is left behind a word is shorter than the text. -/
theorem length_rest {p : Str × Str}
    (h : argWord false (decide (c = '"')) (if decide (c = '"') = true then t else c :: t) = .ok p) :
    (p.2.drop 1).length ≤ t.length := by
  have := length_of_argWord h
  rw [List.length_drop]
  split at this
  · omega
  · rw [List.length_cons] at this
    omega

/-- The fuel does not matter, if there is enough of it. -/
theorem parseArgv_fuel (f f' : ℕ) (s : Str) (h : s.length < f) (h' : s.length < f') :
    parseArgv false false f s = parseArgv false false f' s := by
  induction f generalizing f' s with
  | zero => exact absurd h (Nat.not_lt_zero _)
  | succ f ih =>
    obtain ⟨f', rfl⟩ := Nat.exists_eq_succ_of_ne_zero (Nat.ne_of_gt (Nat.lt_of_le_of_lt (Nat.zero_le _) h'))
    cases s with
    | nil => rfl
    | cons c t =>
      rw [List.length_cons] at h h'
      rw [Nat.succ_eq_add_one, parseArgv_cons, parseArgv_cons, ih f' t (by omega) (by omega)]
      cases hw : argWord false (decide (c = '"')) (if decide (c = '"') = true then t else c :: t) with
      | error e => rfl
      | ok p =>
        have := length_rest hw
        simp only [Except.bind]
        rw [ih f' (p.2.drop 1) (by omega) (by omega)]

theorem words_nil : words [] = .ok [] := rfl

theorem words_blank (h : isspace c = true) : words (c :: t) = words t := by
  unfold words
  rw [parseArgv, if_pos h, List.length_cons]

/-- A word, and the words behind it. -/
theorem words_step (hs : isspace c = false) :
    words (c :: t) = (argWord false (decide (c = '"')) (if decide (c = '"') = true then t else c :: t)).bind fun p =>
      (words (p.2.drop 1)).map (p.1.takeWhile (· ≠ '\x00') :: ·) := by
  unfold words
  rw [parseArgv_cons, if_neg (by simp [hs]), List.length_cons]
  cases hw : argWord false (decide (c = '"')) (if decide (c = '"') = true then t else c :: t) with
  | error e => rfl
  | ok p =>
    have := length_rest hw
    simp only [Except.bind]
    rw [parseArgv_fuel _ ((p.2.drop 1).length + 1) _ (by omega) (by omega)]

/-- A word without a NUL is not cut. -/
theorem takeWhile_byte (h : ∀ c ∈ w, Byte c) : w.takeWhile (· ≠ '\x00') = w := by
  rw [List.takeWhile_eq_self_iff]
  intro c hc
  have h0 : c ≠ '\x00' := by
    rintro rfl
    exact absurd (h _ hc).1 (by decide)
  simp [h0]

/-- The words begin with `w`, where what was read is not longer than `w`. -/
theorem bind_eq_cons {a : Except ArgErr (Str × Str)} (hw : ∀ c ∈ w, Byte c) (hlen : ∀ p, a = .ok p → p.1.length ≤ w.length) :
    (a.bind fun p => (words (p.2.drop 1)).map (p.1.takeWhile (· ≠ '\x00') :: ·)) = .ok (w :: ws) ↔
      ∃ r, a = .ok (w, r) ∧ words (r.drop 1) = .ok ws := by
  constructor
  · intro h
    cases ha : a with
    | error e =>
      rw [ha] at h
      cases h
    | ok p =>
      rw [ha] at h
      simp only [Except.bind] at h
      cases hr : words (p.2.drop 1) with
      | error e =>
        rw [hr] at h
        cases h
      | ok vs =>
        rw [hr] at h
        obtain ⟨h1, h2⟩ := List.cons.inj (Except.ok.inj h)
        have hp : p.1 = w := by
          rw [← h1]
          refine ((List.takeWhile_prefix _).eq_of_length_le ?_).symm
          rw [h1]
          exact hlen p ha
        refine ⟨p.2, ?_, hr.trans (congrArg _ h2)⟩
        rw [← hp]
  · rintro ⟨r, rfl, hr⟩
    simp only [Except.bind]
    rw [hr, takeWhile_byte hw]
    rfl

/-- A clean word in front of a blank is read as it is. -/
theorem words_clean (hw : ∀ c ∈ w, Byte c) (hc : Clean w) (hne : ∀ c ∈ w.head?, c ≠ '"') (hne' : w ≠ [])
    (hr : ∀ c t, r = c :: t → c = ' ') : words (w ++ r) = (words (r.drop 1)).map (w :: ·) := by
  obtain ⟨c, w, rfl⟩ := List.exists_cons_of_ne_nil hne'
  have hq : decide (c = '"') = false := decide_eq_false (hne c rfl)
  rw [List.cons_append, words_step (hc c List.mem_cons_self).2, hq, if_neg (by simp), ← List.cons_append, argWord_clean hc hr]
  simp only [Except.bind]
  rw [takeWhile_byte hw]

/-- A word that is written as it is: it is read again if and only if it is clean. -/
theorem words_unquoted (hw : ∀ d ∈ c :: w, Byte d) (hs : isspace c = false) (hq : c ≠ '"') (hr : Follow r) :
    words (c :: w ++ r) = .ok ((c :: w) :: ws) ↔ Clean (c :: w) ∧ words (r.drop 1) = .ok ws := by
  have hq' : decide (c = '"') = false := decide_eq_false hq
  rw [List.cons_append, words_step hs, hq', if_neg (by simp), ← List.cons_append,
    bind_eq_cons hw fun p hp => length_argWord hr hp]
  constructor
  · rintro ⟨r', ha, hr'⟩
    have hc := clean_of_argWord hr ha
    rw [argWord_clean hc hr.head] at ha
    cases ha
    exact ⟨hc, hr'⟩
  · rintro ⟨hc, hr'⟩
    exact ⟨r, argWord_clean hc hr.head, hr'⟩

/-- A word in quotes: it is read again if and only if no escape is in front of a digit. -/
theorem words_quoted (hw : ∀ d ∈ w, Byte d) :
    words ('"' :: w.flatMap quoteChar ++ ['"'] ++ r) = .ok (w :: ws) ↔ NoShort w ∧ words r = .ok ws := by
  rw [List.append_assoc, List.singleton_append, List.cons_append, words_step (by rfl), decide_eq_true rfl, if_pos rfl,
    bind_eq_cons hw fun p hp => length_argWord_quoted hw hp]
  constructor
  · rintro ⟨r', ha, hr'⟩
    have hs := noShort_of_argWord hw ha
    rw [argWord_quoted hw hs] at ha
    cases ha
    exact ⟨hs, hr'⟩
  · rintro ⟨hs, hr'⟩
    exact ⟨'"' :: r, argWord_quoted hw hs, hr'⟩

end Words

/-! ## Tests -/

section Tests

variable {R : Type} {vre : Vre R} {a1 a2 a3 r : Str} {ws : List Str} {ts : List (Str × Str × Str)}

/-- A test as `BAN_AddTest` writes it. -/
def testText (t : Str × Str × Str) : Str := t.1 ++ [' '] ++ t.2.1 ++ [' '] ++ vsbQuote t.2.2

/-- The tests behind the first one. -/
def tailText : List (Str × Str × Str) → Str
  | [] => []
  | t :: ts => " && ".toList ++ testText t ++ tailText ts

def tailWords : List (Str × Str × Str) → List Str
  | [] => []
  | t :: ts => "&&".toList :: t.1 :: t.2.1 :: t.2.2 :: tailWords ts

/-- The tests that are read as they were written: the field has no blank and no backslash in it, and the argument is not empty
and has no backslash in it, or is quoted and has no escape of one or two digits in front of a digit. -/
def Readable (t : Str × Str × Str) : Prop :=
  Clean t.1 ∧ if t.2.2.any (fun c => !isgraph c || c = '"') = true then NoShort t.2.2 else t.2.2 ≠ [] ∧ '\\' ∉ t.2.2

instance (t : Str × Str × Str) : Decidable (Readable t) :=
  inferInstanceAs (Decidable (Clean t.1 ∧
    if t.2.2.any (fun c => !isgraph c || c = '"') = true then NoShort t.2.2 else t.2.2 ≠ [] ∧ '\\' ∉ t.2.2))

/-- What `BAN_AddTest` accepts. -/
structure Accepted (t : Str × Str × Str) : Prop where
  field : ∃ c w, t.1 = c :: w ∧ isspace c = false ∧ c ≠ '"'
  oper : t.2.1 ∈ ["~".toList, "!~".toList, "==".toList, "!=".toList]

theorem accepted_of_addTest {b b' : BanSpec R} (h : banAddTest vre b a1 a2 a3 = some (.ok b')) : Accepted (a1, a2, a3) := by
  unfold banAddTest at h
  split at h
  · cases h
  · rename_i not arg harg
    split at h
    · cases h
    · rename_i pv hpv
      refine ⟨?_, ?_⟩
      · have hmem := List.mem_of_find?_eq_some hpv
        have hpre := List.find?_some hpv
        rw [List.isPrefixOf_iff_prefix] at hpre
        obtain ⟨u, rfl⟩ := hpre
        simp only [pvars, List.mem_cons, List.not_mem_nil, or_false] at hmem
        rcases hmem with rfl | rfl | rfl
        · exact ⟨'r', _, rfl, by decide, by decide⟩
        · exact ⟨'r', _, rfl, by decide, by decide⟩
        · exact ⟨'o', _, rfl, by decide, by decide⟩
      · by_contra ho
        simp only [List.mem_cons, List.not_mem_nil, or_false, not_or] at ho
        unfold banParseArg at harg
        rw [if_neg ho.1, if_neg ho.2.1, if_neg ho.2.2.1, if_neg ho.2.2.2] at harg
        cases harg

theorem test_addTest {b b' : BanSpec R} (h : banAddTest vre b a1 a2 a3 = some (.ok b')) :
    b'.test = b.test ++ (if b.tests.isEmpty then [] else " && ".toList) ++ testText (a1, a2, a3) ∧ b'.tests.isEmpty = false := by
  unfold banAddTest at h
  split at h
  · cases h
  · split at h
    · cases h
    · dsimp only at h
      split at h
      · cases h
      · cases h
        simp [testText]

/-- The text that the tests leave behind, and that all of them are such tests. -/
theorem test_addTests {b b' : BanSpec R} (h : addTests vre b ts = some (.ok b')) (hb : b.tests.isEmpty = false) :
    b'.test = b.test ++ tailText ts ∧ ∀ t ∈ ts, Accepted t := by
  induction ts generalizing b with
  | nil =>
    cases h
    simp [tailText]
  | cons t ts ih =>
    obtain ⟨a1, a2, a3⟩ := t
    rw [addTests] at h
    split at h
    · cases h
    · cases h
    · rename_i b1 hb1
      obtain ⟨ht, hne⟩ := test_addTest hb1
      obtain ⟨hrest, hacc⟩ := ih h hne
      refine ⟨?_, ?_⟩
      · rw [hrest, ht, hb, tailText]
        simp
      · intro t ht
        rcases List.mem_cons.mp ht with rfl | ht
        · exact accepted_of_addTest hb1
        · exact hacc t ht

theorem test_banNew {b : BanSpec R} {t : Str × Str × Str} (h : addTests vre banNew (t :: ts) = some (.ok b)) :
    b.test = testText t ++ tailText ts ∧ ∀ u ∈ t :: ts, Accepted u := by
  obtain ⟨a1, a2, a3⟩ := t
  rw [addTests] at h
  split at h
  · cases h
  · cases h
  · rename_i b1 hb1
    obtain ⟨ht, hne⟩ := test_addTest hb1
    obtain ⟨hrest, hacc⟩ := test_addTests h hne
    refine ⟨?_, ?_⟩
    · rw [hrest, ht]
      simp [banNew]
    · intro u hu
      rcases List.mem_cons.mp hu with rfl | hu
      · exact accepted_of_addTest hb1
      · exact hacc u hu

theorem follow_oper {a : Str} (h : a ∈ ["~".toList, "!~".toList, "==".toList, "!=".toList, "&&".toList]) (t : Str) :
    Follow (' ' :: a ++ ' ' :: t) := by
  have hclean : ∀ b ∈ ["~".toList, "!~".toList, "==".toList, "!=".toList, "&&".toList],
      b.all (fun c => c != '\\' && !isspace c) = true := by
    decide
  have hc : ∀ c ∈ a, c ≠ '\\' ∧ isspace c = false := by
    intro c hc
    have hall := List.all_eq_true.mp (hclean a h) c hc
    simpa using hall
  simp only [List.mem_cons, List.not_mem_nil, or_false] at h
  rcases h with rfl | rfl | rfl | rfl | rfl
  · exact .inr ⟨'~', [], t, rfl, hc, by decide, by decide, by decide, by decide, by decide, by decide⟩
  · exact .inr ⟨'!', ['~'], t, rfl, hc, by decide, by decide, by decide, by decide, by decide, by decide⟩
  · exact .inr ⟨'=', ['='], t, rfl, hc, by decide, by decide, by decide, by decide, by decide, by decide⟩
  · exact .inr ⟨'!', ['='], t, rfl, hc, by decide, by decide, by decide, by decide, by decide, by decide⟩
  · exact .inr ⟨'&', ['&'], t, rfl, hc, by decide, by decide, by decide, by decide, by decide, by decide⟩

/-- An operator, or `&&`, is always read as it is. -/
theorem words_oper {a : Str} (h : a ∈ ["~".toList, "!~".toList, "==".toList, "!=".toList, "&&".toList]) (t : Str) :
    words (a ++ ' ' :: t) = (words t).map (a :: ·) := by
  have hclean : ∀ b ∈ ["~".toList, "!~".toList, "==".toList, "!=".toList, "&&".toList], b ≠ [] ∧ b.head? ≠ some '"' ∧
      b.all (fun c => decide (0 < c.toNat ∧ c.toNat < 256) && (c != '\\' && !isspace c)) = true := by
    decide
  obtain ⟨hne, hq, hb⟩ := hclean a h
  have hchar : ∀ c ∈ a, (0 < c.toNat ∧ c.toNat < 256) ∧ c ≠ '\\' ∧ isspace c = false := by
    intro c hc
    have hall := List.all_eq_true.mp hb c hc
    simpa using hall
  have hhead : ∀ c ∈ a.head?, c ≠ '"' := by
    rintro c hc rfl
    exact hq hc
  exact words_clean (fun c hc => (hchar c hc).1) (fun c hc => (hchar c hc).2) hhead hne fun c u he => (List.cons.inj he).1.symm

/-- What is behind a test: nothing, or `&&`. -/
def Behind (r : Str) : Prop := r = [] ∨ ∃ t, r = ' ' :: "&&".toList ++ ' ' :: t

theorem Behind.follow (h : Behind r) : Follow r := by
  rcases h with rfl | ⟨t, rfl⟩
  · exact .inl rfl
  · exact follow_oper (by decide) t

theorem behind_tailText (ts : List (Str × Str × Str)) : Behind (tailText ts) := by
  cases ts with
  | nil => exact .inl rfl
  | cons t ts => exact .inr ⟨_, List.append_assoc _ _ _⟩

theorem Behind.words_drop (h : Behind r) : words (r.drop 1) = words r := by
  rcases h with rfl | ⟨t, rfl⟩
  · rfl
  · exact (words_blank (by rfl)).symm

theorem map_cons_eq {a : Except ArgErr (List Str)} {w w' : Str} :
    a.map (w :: ·) = .ok (w' :: ws) ↔ w = w' ∧ a = .ok ws := by
  cases a with
  | error e => simp [Except.map]
  | ok vs => simp [Except.map]

/-- The next word is not empty. -/
theorem Behind.words_ne (h : Behind r) : words r ≠ .ok ([] :: ws) := by
  intro he
  rcases h with rfl | ⟨t, rfl⟩
  · cases he
  · rw [List.cons_append, words_blank (by rfl), words_oper (by decide), map_cons_eq] at he
    exact absurd he.1 (by decide)

theorem isspace_of_isgraph {c : Char} (hg : isgraph c = true) : isspace c = false := by
  rw [isgraph, Bool.and_eq_true, decide_eq_true_eq, decide_eq_true_eq] at hg
  rw [isspace, Bool.or_eq_false_iff]
  refine ⟨decide_eq_false ?_, ?_⟩
  · rintro rfl
    exact absurd hg.1 (by decide)
  · rw [Bool.and_eq_false_iff, decide_eq_false_iff_not, decide_eq_false_iff_not]
    omega

theorem clean_of_graph (h : a3.any (fun c => !isgraph c || c = '"') = false) : Clean a3 ↔ '\\' ∉ a3 := by
  constructor
  · exact fun hc hm => (hc _ hm).1 rfl
  · intro hn c hc
    refine ⟨fun he => hn (he ▸ hc), isspace_of_isgraph ?_⟩
    have := List.any_eq_false.mp h c hc
    simp_all

/-- The argument of a test, as `vsb_quote` has written it. -/
theorem words_arg (hb : ∀ c ∈ a3, Byte c) (hr : Behind r) :
    words (vsbQuote a3 ++ r) = .ok (a3 :: ws) ↔
      (if a3.any (fun c => !isgraph c || c = '"') = true then NoShort a3 else a3 ≠ [] ∧ '\\' ∉ a3) ∧ words r = .ok ws := by
  unfold vsbQuote
  by_cases hq : a3.any (fun c => !isgraph c || c = '"') = true
  · rw [if_pos hq, if_pos hq, words_quoted hb]
  · rw [if_neg hq, if_neg hq]
    rw [Bool.not_eq_true] at hq
    cases a3 with
    | nil => simpa using fun h => hr.words_ne h
    | cons c w =>
      have hc : ¬ (!isgraph c || decide (c = '"')) = true := List.any_eq_false.mp hq c List.mem_cons_self
      rw [Bool.not_eq_true, Bool.or_eq_false_iff, decide_eq_false_iff_not, Bool.not_eq_false'] at hc
      have hs : isspace c = false := isspace_of_isgraph hc.1
      rw [words_unquoted hb hs hc.2 hr.follow, clean_of_graph hq, hr.words_drop]
      simp

/-- A test is read as it was written if and only if it is `Readable`. -/
theorem words_test {t : Str × Str × Str} (ht : Accepted t) (hb : ∀ c ∈ t.1 ++ t.2.2, Byte c) (hr : Behind r) :
    words (testText t ++ r) = .ok (t.1 :: t.2.1 :: t.2.2 :: ws) ↔ Readable t ∧ words r = .ok ws := by
  obtain ⟨a1, a2, a3⟩ := t
  obtain ⟨⟨c, w, rfl, hs, hq⟩, hop⟩ := ht
  have hop' : a2 ∈ ["~".toList, "!~".toList, "==".toList, "!=".toList, "&&".toList] :=
    List.mem_append_left ["&&".toList] hop
  have htext : testText (c :: w, a2, a3) ++ r = c :: w ++ (' ' :: a2 ++ ' ' :: (vsbQuote a3 ++ r)) := by simp [testText]
  rw [htext, words_unquoted (fun d hd => hb d (List.mem_append_left _ hd)) hs hq (follow_oper hop' _)]
  rw [List.cons_append, List.drop_succ_cons, List.drop_zero, words_oper hop', map_cons_eq,
    words_arg (fun d hd => hb d (List.mem_append_right _ hd)) hr, Readable]
  tauto

theorem words_tail (hacc : ∀ t ∈ ts, Accepted t) (hb : ∀ t ∈ ts, ∀ c ∈ t.1 ++ t.2.2, Byte c) :
    words (tailText ts) = .ok (tailWords ts) ↔ ∀ t ∈ ts, Readable t := by
  induction ts with
  | nil => simp [tailText, tailWords, words_nil]
  | cons t ts ih =>
    have htext : tailText (t :: ts) = ' ' :: ("&&".toList ++ ' ' :: (testText t ++ tailText ts)) := List.append_assoc _ _ _
    rw [htext, tailWords, words_blank (by rfl), words_oper (by decide), map_cons_eq, List.forall_mem_cons,
      words_test (hacc t List.mem_cons_self) (hb t List.mem_cons_self) (behind_tailText ts),
      ih (fun u hu => hacc u (List.mem_cons_of_mem _ hu)) fun u hu => hb u (List.mem_cons_of_mem _ hu)]
    simp

/-- The loop of `BAN_Compile` finds the tests in these words, and in no others. -/
theorem compileTests_tail {av : List Str} : compileTests false av = some ts ↔ av = tailWords ts := by
  induction ts generalizing av with
  | nil =>
    rcases av with _ | ⟨w, _ | ⟨a1, _ | ⟨a2, _ | ⟨a3, av⟩⟩⟩⟩ <;> simp [compileTests, tailWords]
  | cons t ts ih =>
    obtain ⟨b1, b2, b3⟩ := t
    rcases av with _ | ⟨w, _ | ⟨a1, _ | ⟨a2, _ | ⟨a3, av⟩⟩⟩⟩
    case cons.cons.cons.cons =>
      simp only [compileTests, tailWords, Option.ite_none_right_eq_some, Option.map_eq_some_iff, List.cons.injEq, Prod.mk.injEq]
      constructor
      · rintro ⟨rfl, vs, hvs, ⟨rfl, rfl, rfl⟩, rfl⟩
        exact ⟨rfl, rfl, rfl, rfl, ih.mp hvs⟩
      · rintro ⟨rfl, rfl, rfl, rfl, hav⟩
        exact ⟨rfl, ts, ih.mpr hav, ⟨rfl, rfl, rfl⟩, rfl⟩
    all_goals simp [compileTests, tailWords]

theorem compileTests_first {av : List Str} {t : Str × Str × Str} :
    compileTests true av = some (t :: ts) ↔ av = t.1 :: t.2.1 :: t.2.2 :: tailWords ts := by
  obtain ⟨b1, b2, b3⟩ := t
  rcases av with _ | ⟨a1, _ | ⟨a2, _ | ⟨a3, av⟩⟩⟩
  case cons.cons.cons =>
    simp only [compileTests, Option.map_eq_some_iff, List.cons.injEq, Prod.mk.injEq]
    constructor
    · rintro ⟨vs, hvs, ⟨rfl, rfl, rfl⟩, rfl⟩
      exact ⟨rfl, rfl, rfl, compileTests_tail.mp hvs⟩
    · rintro ⟨rfl, rfl, rfl, hav⟩
      exact ⟨ts, compileTests_tail.mpr hav, ⟨rfl, rfl, rfl⟩, rfl⟩
  all_goals simp [compileTests]

theorem banCompile_eq {b : BanSpec R} {text : Str} (h : addTests vre banNew ts = some (.ok b)) :
    banCompile vre text = some (ts, b) ↔ ∃ av, words text = .ok av ∧ compileTests true av = some ts := by
  unfold banCompile
  cases hw : words text with
  | error e => simp
  | ok av =>
    simp only [Except.ok.injEq, exists_eq_left', Option.bind_eq_bind, Option.bind_eq_some_iff]
    constructor
    · rintro ⟨us, hus, hb⟩
      split at hb
      · cases hb
        exact hus
      · cases hb
    · intro hts
      exact ⟨ts, hts, by rw [h]⟩

/-- For all the bans that `BAN_AddTest` has accepted: `BAN_Compile` finds the same tests in the text, and with them the same
ban, if and only if each test is `Readable`. -/
theorem banCompile_iff {b : BanSpec R} (h : addTests vre banNew ts = some (.ok b)) (hb : ∀ t ∈ ts, ∀ c ∈ t.1 ++ t.2.2, Byte c) :
    banCompile vre b.test = some (ts, b) ↔ ∀ t ∈ ts, Readable t := by
  rw [banCompile_eq h]
  cases ts with
  | nil =>
    cases h
    exact iff_of_true ⟨[], rfl, rfl⟩ fun t ht => absurd ht List.not_mem_nil
  | cons t ts =>
    obtain ⟨htext, hacc⟩ := test_banNew h
    have hts := words_tail (fun u hu => hacc u (List.mem_cons_of_mem _ hu)) fun u hu => hb u (List.mem_cons_of_mem _ hu)
    rw [htext, List.forall_mem_cons, ← hts,
      ← words_test (hacc t List.mem_cons_self) (hb t List.mem_cons_self) (behind_tailText ts)]
    constructor
    · rintro ⟨av, hav, hct⟩
      rw [compileTests_first] at hct
      rw [hav, hct]
    · exact fun hw => ⟨_, hw, compileTests_first.mpr rfl⟩

/-- Two tests, one of them with an argument in quotes. -/
def okTests : List (Str × Str × Str) :=
  [("req.url".toList, "~".toList, "png$".toList), ("obj.http.x".toList, "!=".toList, "a \"b\\".toList)]

def okBan : BanSpec Str where
  tests := [⟨.url, false, .re "png$".toList⟩, ⟨.objHttp "x".toList, true, .dst "a \"b\\".toList⟩]
  req := true
  test := "req.url ~ png$ && obj.http.x != \"a \\\"b\\\\\"".toList

theorem banCompile_iff_okTests :
    addTests plainVre banNew okTests = some (.ok okBan) ∧ banCompile plainVre okBan.test = some (okTests, okBan) := by
  have hadd : addTests plainVre banNew okTests = some (.ok okBan) := by decide +kernel
  have hbytes : ∀ t ∈ okTests, (t.1 ++ t.2.2).all (fun c => decide (Byte c)) = true := by decide +kernel
  refine ⟨hadd, (banCompile_iff hadd fun t ht c hc => ?_).mpr (by decide +kernel)⟩
  exact of_decide_eq_true (List.all_eq_true.mp (hbytes t ht) c hc)

/-- A pattern with a backslash is written as it is, and `BAN_Compile` does not get over it. -/
theorem banCompile_png : ∃ b : BanSpec Str,
    addTests plainVre banNew [("req.url".toList, "~".toList, "\\.png$".toList)] = some (.ok b) ∧
      b.test = "req.url ~ \\.png$".toList ∧ words b.test = .error (.text "Invalid backslash sequence") ∧
      banCompile plainVre b.test = none :=
  ⟨⟨[⟨.url, false, .re "\\.png$".toList⟩], true, "req.url ~ \\.png$".toList⟩, by decide +kernel⟩

end Tests

end Varnish.Ban
