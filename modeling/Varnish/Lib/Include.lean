import Mathlib.Data.Nat.Notation
import Mathlib.Logic.Relation

/-!
# Varnish.Lib.Include — texts that name texts to stand in their place

A text is a list of letters.  An `include` is three letters of it: one that announces it, a name, and one that closes it.  It is
replaced by the text of that name, with whatever is included there.

* `Reads`: a reader goes on by one letter, or into the text that an `include` names.
* `Expand`: the text with every `include` replaced.
* `Cyclic`, `Fails`: the reader comes to a text that leads to itself; he comes to an `include` that is malformed or names no text.
* `acc_iff_not_cyclic`: where the names are finitely many, reading ends if and only if the text is not cyclic.
-/

namespace Varnish.Lib.Include

open Relation (ReflTransGen)

/-- The letters of an `include`, and the texts that can be named. -/
structure Lang (α N : Type) where
  inc : α → Prop
  name : α → Option N
  close : α → Prop
  load : N → Option (List α)

variable {α N : Type} (L : Lang α N)

/-- The text begins with an `include` of `f`, behind which is `rest`. -/
inductive Opens : List α → N → List α → Prop
  | mk {i s m : α} {f : N} {rest : List α} (hi : L.inc i) (hs : L.name s = some f) (hm : L.close m) :
      Opens (i :: s :: m :: rest) f rest

inductive Reads : List α → List α → Prop
  | skip {t : α} {ts : List α} (h : ¬ L.inc t) : Reads (t :: ts) ts
  | enter {ts : List α} {f : N} {rest l : List α} (h : Opens L ts f rest) (hl : L.load f = some l) : Reads ts (l ++ rest)

/-- Each `include` is replaced by the text that it names, and so on. -/
inductive Expand : List α → List α → Prop
  | nil : Expand [] []
  | skip {t : α} {ts r : List α} (h : ¬ L.inc t) (ht : Expand ts r) : Expand (t :: ts) (t :: r)
  | enter {ts : List α} {f : N} {rest l r : List α} (h : Opens L ts f rest) (hl : L.load f = some l) (ht : Expand (l ++ rest) r) :
      Expand ts r

/-- The text begins with an `include` that is malformed, or names no text. -/
inductive Bad : List α → Prop
  | form {i : α} {ts : List α} (hi : L.inc i) (h : ∀ f rest, ¬ Opens L (i :: ts) f rest) : Bad (i :: ts)
  | load {ts : List α} {f : N} {rest : List α} (h : Opens L ts f rest) (hl : L.load f = none) : Bad ts

/-- The reader comes to an `include` of `f`. -/
def Meets (ts : List α) (f : N) : Prop := ∃ ts' rest, ReflTransGen (Reads L) ts ts' ∧ Opens L ts' f rest

def Fails (ts : List α) : Prop := ∃ ts', ReflTransGen (Reads L) ts ts' ∧ Bad L ts'

/-- The reader comes to an `include` of a text that leads to itself. -/
def Cyclic (ts : List α) : Prop := ∃ f l, Meets L ts f ∧ L.load f = some l ∧ Meets L l f

/-- Reading ends. -/
def Ends (ts : List α) : Prop := Acc (fun b a => Reads L a b) ts

variable {L} {ts ts' rest l r : List α} {f : N}

/-! ## One letter -/

section Letter

theorem Opens.inc {i : α} (h : Opens L (i :: ts) f rest) : L.inc i := by
  cases h with
  | mk hi _ _ => exact hi

theorem Opens.det {f' : N} {rest' : List α} (h : Opens L ts f rest) (h' : Opens L ts f' rest') : f = f' ∧ rest = rest' := by
  obtain ⟨_, hs, _⟩ := h
  obtain ⟨_, hs', _⟩ := h'
  exact ⟨Option.some.inj (hs.symm.trans hs'), rfl⟩

theorem Reads.det (h : Reads L ts l) (h' : Reads L ts r) : l = r := by
  cases h with
  | skip hno =>
    cases h' with
    | skip _ => rfl
    | enter ho _ => exact absurd ho.inc hno
  | enter ho hl =>
    cases h' with
    | skip hno => exact absurd ho.inc hno
    | enter ho' hl' =>
      obtain ⟨rfl, rfl⟩ := ho.det ho'
      obtain rfl := Option.some.inj (hl.symm.trans hl')
      rfl

theorem Bad.not_reads (h : Bad L ts) : ¬ Reads L ts ts' := by
  intro hr
  cases hr with
  | skip hno =>
    cases h with
    | form hi _ => exact hno hi
    | load ho _ => exact hno ho.inc
  | enter ho hl =>
    cases h with
    | form _ hno => exact hno _ _ ho
    | load ho' hl' =>
      obtain ⟨rfl, -⟩ := ho.det ho'
      rw [hl] at hl'
      cases hl'

theorem reads_or_bad (ts : List α) : ts = [] ∨ (∃ ts', Reads L ts ts') ∨ Bad L ts := by
  cases ts with
  | nil => exact .inl rfl
  | cons t ts =>
    by_cases ht : L.inc t
    · by_cases ho : ∃ f rest, Opens L (t :: ts) f rest
      · obtain ⟨f, rest, ho⟩ := ho
        cases hl : L.load f with
        | none => exact .inr (.inr (.load ho hl))
        | some l => exact .inr (.inl ⟨l ++ rest, .enter ho hl⟩)
      · exact .inr (.inr (.form ht fun f rest h => ho ⟨f, rest, h⟩))
    · exact .inr (.inl ⟨ts, .skip ht⟩)

/-! ### A text in front of another -/

theorem Opens.append (h : Opens L ts f rest) : Opens L (ts ++ r) f (rest ++ r) := by
  obtain ⟨hi, hs, hm⟩ := h
  exact .mk hi hs hm

theorem Reads.append (h : Reads L ts ts') : Reads L (ts ++ r) (ts' ++ r) := by
  cases h with
  | skip hno => exact .skip hno
  | enter ho hl =>
    rw [List.append_assoc]
    exact .enter ho.append hl

theorem star_append (h : ReflTransGen (Reads L) ts ts') : ReflTransGen (Reads L) (ts ++ r) (ts' ++ r) :=
  h.lift (· ++ r) fun _ _ hr => hr.append

/-- Where a text cannot be read on, but can be with another one behind it, it is the beginning of an `include`. -/
theorem length_lt_of_reads (hno : ∀ ts', ¬ Reads L ts ts') (hne : ts ≠ []) (h : Reads L (ts ++ r) l) : ts.length < 3 := by
  obtain hnil | ⟨ts', hr⟩ | hb := reads_or_bad (L := L) ts
  · exact absurd hnil hne
  · exact absurd hr (hno ts')
  · cases hb with
    | load ho hl => exact absurd h (Bad.load ho.append hl).not_reads
    | @form i ts hi hform =>
      cases h with
      | skip hinc => exact absurd hi hinc
      | enter ho _ =>
        match ts with
        | [] => exact Nat.lt_succ_of_lt (Nat.lt_succ_self 1)
        | [s] => exact Nat.lt_succ_self 2
        | s :: m :: ts =>
          obtain ⟨hi, hs, hm⟩ := ho
          exact absurd (Opens.mk hi hs hm) (hform _ _)

end Letter

/-! ## Reading to the end -/

section Ends

theorem Meets.head (h : ReflTransGen (Reads L) ts ts') (hm : Meets L ts' f) : Meets L ts f := by
  obtain ⟨x, rest, hx, ho⟩ := hm
  exact ⟨x, rest, h.trans hx, ho⟩

theorem Meets.append (h : Meets L ts f) : Meets L (ts ++ r) f := by
  obtain ⟨x, rest, hx, ho⟩ := h
  exact ⟨x ++ r, rest ++ r, star_append hx, ho.append⟩

theorem Cyclic.head (h : ReflTransGen (Reads L) ts ts') (hc : Cyclic L ts') : Cyclic L ts := by
  obtain ⟨f, l, hm, hl, hf⟩ := hc
  exact ⟨f, l, hm.head h, hl, hf⟩

theorem Fails.head (h : Reads L ts ts') (hf : Fails L ts') : Fails L ts := by
  obtain ⟨x, hx, hb⟩ := hf
  exact ⟨x, .head h hx, hb⟩

theorem Ends.of_reads (h : Reads L ts ts') (he : Ends L ts') : Ends L ts := by
  refine Acc.intro ts fun x hx => ?_
  rw [hx.det h]
  exact he

theorem Ends.of_star (h : ReflTransGen (Reads L) ts ts') (he : Ends L ts') : Ends L ts := by
  induction h using ReflTransGen.head_induction_on with
  | refl => exact he
  | head hr _ ih => exact ih.of_reads hr

theorem Ends.of_not_reads (h : ∀ ts', ¬ Reads L ts ts') : Ends L ts := Acc.intro ts fun x hx => absurd hx (h x)

/-- Where reading ends, there is a last text. -/
theorem Ends.exists_last (h : Ends L ts) : ∃ ts', ReflTransGen (Reads L) ts ts' ∧ ∀ x, ¬ Reads L ts' x := by
  induction h with
  | intro ts _ ih =>
    by_cases hr : ∃ x, Reads L ts x
    · obtain ⟨x, hx⟩ := hr
      obtain ⟨y, hy, hno⟩ := ih x hx
      exact ⟨y, .head hx hy, hno⟩
    · exact ⟨ts, .refl, fun x hx => hr ⟨x, hx⟩⟩

theorem Expand.not_fails (h : Expand L ts r) : ¬ Fails L ts := by
  induction h with
  | nil =>
    rintro ⟨x, hx, hb⟩
    obtain rfl | ⟨y, hy, -⟩ := hx.cases_head
    · cases hb with
      | load ho _ => cases ho
    · cases hy with
      | enter ho _ => cases ho
  | @skip t ts r hno _ ih =>
    rintro ⟨x, hx, hb⟩
    obtain rfl | ⟨y, hy, hx⟩ := hx.cases_head
    · exact hb.not_reads (.skip hno)
    · rw [hy.det (.skip hno)] at hx
      exact ih ⟨x, hx, hb⟩
  | enter ho hl _ ih =>
    rintro ⟨x, hx, hb⟩
    obtain rfl | ⟨y, hy, hx⟩ := hx.cases_head
    · exact hb.not_reads (.enter ho hl)
    · rw [hy.det (.enter ho hl)] at hx
      exact ih ⟨x, hx, hb⟩

/-- A text that leads to itself is read again and again, with more and more behind it. -/
theorem not_ends_of_meets (hl : L.load f = some l) (hm : Meets L l f) (h : ReflTransGen (Reads L) ts (l ++ r)) : ¬ Ends L ts := by
  intro he
  induction he generalizing r with
  | intro ts _ ih =>
    obtain rfl | ⟨y, hy, h⟩ := h.cases_head
    · obtain ⟨x, rest, hx, ho⟩ := hm
      have hread : Reads L (x ++ r) (l ++ (rest ++ r)) := .enter ho.append hl
      obtain rfl | ⟨z, hz, hx⟩ := hx.cases_head
      · exact ih _ hread .refl
      · exact ih _ hz.append ((star_append hx).tail hread)
    · exact ih y hy h

/-- Reading ends where it ends for every text that is met. -/
theorem ends_of_met (h : ∀ f l, Meets L ts f → L.load f = some l → Ends L l) : Ends L ts := by
  induction hn : ts.length using Nat.strongRecOn generalizing ts with
  | ind n ih =>
    subst hn
    obtain rfl | ⟨x, hx⟩ | hb := reads_or_bad (L := L) ts
    · refine .of_not_reads fun x hx => ?_
      cases hx with
      | enter ho _ => cases ho
    · cases hx with
      | skip hno => exact Ends.of_reads (.skip hno) (ih _ (Nat.lt_succ_self _) (fun f l hm => h f l (hm.head (.single (.skip hno)))) rfl)
      | @enter _ f rest l ho hl =>
        -- what is left of the text of `f` at its end is at most the beginning of an `include`
        obtain ⟨l', hl', hno⟩ := (h f l ⟨ts, rest, .refl, ho⟩ hl).exists_last
        have hstar : ReflTransGen (Reads L) ts (l' ++ rest) := .head (.enter ho hl) (star_append hl')
        refine Ends.of_star hstar ?_
        by_cases hr : ∃ x, Reads L (l' ++ rest) x
        · obtain ⟨x, hx⟩ := hr
          have hlt : (l' ++ rest).length < ts.length := by
            obtain ⟨_, _, _⟩ := ho
            rw [List.length_append]
            by_cases hne : l' = []
            · subst hne
              simp only [List.length_nil, List.length_cons]
              omega
            · have := length_lt_of_reads hno hne hx
              simp only [List.length_cons]
              omega
          exact ih _ hlt (fun g k hm => h g k (hm.head hstar)) rfl
        · exact .of_not_reads fun x hx => hr ⟨x, hx⟩
    · exact .of_not_reads fun x hx => hb.not_reads hx

/-- What a text meets, the one that includes it meets too. -/
theorem Meets.trans {g : N} (h : Meets L ts f) (hl : L.load f = some l) (hm : Meets L l g) : Meets L ts g := by
  obtain ⟨x, rest, hx, ho⟩ := h
  exact hm.append.head (hx.tail (.enter ho hl))

/-- Reading ends where the texts that are met are among finitely many, and none leads to itself. -/
theorem ends_of_not_cyclic [DecidableEq N] (names : List N) (hfin : ∀ f l, Meets L ts f → L.load f = some l → f ∈ names)
    (h : ¬ Cyclic L ts) : Ends L ts := by
  induction hn : names.length generalizing names ts with
  | zero =>
    refine ends_of_met fun f l hm hl => ?_
    have hf := hfin f l hm hl
    rw [List.length_eq_zero_iff.1 hn] at hf
    cases hf
  | succ n ih =>
    refine ends_of_met fun f l hm hl => ?_
    have hf := hfin f l hm hl
    -- the text of `f` does not meet `f`, so that there is one name less
    refine ih (names.erase f) (fun g k hg hk => ?_) ?_ ?_
    · have hne : g ≠ f := by
        rintro rfl
        exact h ⟨g, l, hm, hl, hg⟩
      exact (List.mem_erase_of_ne hne).2 (hfin g k (hm.trans hl hg) hk)
    · rintro ⟨g, k, hg, hk, hkg⟩
      exact h ⟨g, k, hm.trans hl hg, hk, hkg⟩
    · rw [List.length_erase_of_mem hf, hn]
      rfl

/-- Reading ends if and only if no text leads to itself. -/
theorem ends_iff_not_cyclic [DecidableEq N] {names : List N} (hfin : ∀ f, L.load f ≠ none → f ∈ names) :
    Ends L ts ↔ ¬ Cyclic L ts := by
  constructor
  · rintro he ⟨f, l, ⟨x, rest, hx, ho⟩, hl, hm⟩
    exact not_ends_of_meets hl hm (hx.tail (.enter ho hl)) he
  · intro h
    refine ends_of_not_cyclic names (fun f l _ hl => hfin f ?_) h
    rw [hl]
    exact Option.some_ne_none l

end Ends

end Varnish.Lib.Include
