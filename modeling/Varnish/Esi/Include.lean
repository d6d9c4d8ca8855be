import Mathlib.Data.List.TakeWhile
import Varnish.Esi.Flush

/-!
# Varnish.Esi.Include — the attributes of an include element

* `HostOnly`: a value `http://` with a host and no URL.  `resolve_eq_none`: nothing else makes `resolve` fail.
* `Reads`: the attributes of an element are read to their end, and their values resolve.
* `includeLoop_spec`: the loop comes to its end just then, with the last host and the last URL.
* `space_included`: it counts what the bit takes, once for each `src`.
-/

namespace Varnish.Esi

open Varnish.Lib

/-! ## Values -/

section Values

variable {url val : List UInt8} {junk : UInt8}

/-- The value of `src` after the entities are replaced. -/
def plainVal (val : List UInt8) : List UInt8 := (srcVal 0 val).1

/-- An absolute URL, with nothing behind the host. -/
def HostOnly (val : List UInt8) : Prop :=
  7 < (plainVal val).length ∧ (ascii "http://").isPrefixOf (plainVal val) = true ∧ 47 ∉ (plainVal val).drop 7

instance (val : List UInt8) : Decidable (HostOnly val) := inferInstanceAs (Decidable (_ ∧ _))

/-- The byte behind a value in the workspace is a slash, by chance. -/
def SlashBehind (junk : UInt8) (val : List UInt8) : Prop := 38 ∉ cstr (val ++ [0]) ∧ junk = 47

instance (junk : UInt8) (val : List UInt8) : Decidable (SlashBehind junk val) := inferInstanceAs (Decidable (_ ∧ _))

theorem srcVal_fst (junk : UInt8) (val : List UInt8) : (srcVal junk val).1 = plainVal val := by
  unfold plainVal srcVal
  dsimp only
  by_cases h : 38 ∈ cstr (val ++ [0])
  · rw [if_pos h, if_pos h]
  · rw [if_neg h, if_neg h]

theorem srcVal_snd (junk : UInt8) (val : List UInt8) : (srcVal junk val).2 = 47 ↔ SlashBehind junk val := by
  unfold srcVal SlashBehind
  dsimp only
  by_cases h : 38 ∈ cstr (val ++ [0])
  · rw [if_pos h]
    simp [h]
  · rw [if_neg h]
    simp [h]

theorem dropWhile_eq_nil {c : UInt8} {bs : List UInt8} : bs.dropWhile (· ≠ c) = [] ↔ c ∉ bs := by
  rw [List.dropWhile_eq_nil_iff]
  constructor
  · intro h hc
    simpa using h c hc
  · intro h b hb
    simpa using fun hbc : b = c => h (hbc ▸ hb)

theorem resolve_of_not_hostOnly (url : List UInt8) (h : ¬ HostOnly val) : ∃ r, ∀ junk, resolve url junk val = some r := by
  have hres (junk : UInt8) : resolve url junk val = resolve url 0 val ∧ resolve url 0 val ≠ none := by
    unfold resolve
    simp only [srcVal_fst]
    by_cases h1 : 7 < (plainVal val).length ∧ (ascii "http://").isPrefixOf (plainVal val) = true
    · rw [if_pos h1, if_pos h1]
      cases hd : ((plainVal val).drop 7).dropWhile (· ≠ 47) with
      | nil => exact absurd ⟨h1.1, h1.2, dropWhile_eq_nil.1 hd⟩ h
      | cons b bs => exact ⟨rfl, Option.some_ne_none _⟩
    · rw [if_neg h1, if_neg h1]
      refine ⟨rfl, ?_⟩
      by_cases h2 : (plainVal val).head? = some 47
      · rw [if_pos h2]
        exact Option.some_ne_none _
      · rw [if_neg h2]
        exact Option.some_ne_none _
  obtain ⟨r, hr⟩ := Option.ne_none_iff_exists'.1 (hres 0).2
  exact ⟨r, fun junk => (hres junk).1.trans hr⟩

theorem resolve_of_hostOnly (h : HostOnly val) (junk : UInt8) :
    resolve url junk val =
      if SlashBehind junk val then some (some (ascii "Host: " ++ ((plainVal val).drop 7).takeWhile (· ≠ 47) ++ [0]), []) else none := by
  unfold resolve
  simp only [srcVal_fst]
  rw [if_pos ⟨h.1, h.2.1⟩, dropWhile_eq_nil.2 h.2.2]
  simp only [srcVal_snd]

theorem resolve_eq_none : resolve url junk val = none ↔ HostOnly val ∧ ¬ SlashBehind junk val := by
  by_cases h : HostOnly val
  · rw [resolve_of_hostOnly h]
    by_cases hs : SlashBehind junk val
    · simp [hs]
    · simp [hs, h]
  · obtain ⟨r, hr⟩ := resolve_of_not_hostOnly url h
    rw [hr junk]
    simp [h]

/-- What a value resolves to does not depend on what is behind it. -/
theorem resolve_eq_target {r : Option (List UInt8) × List UInt8} (h : resolve url junk val = some r) : target url val = r := by
  unfold target
  by_cases hh : HostOnly val
  · rw [resolve_of_hostOnly hh] at h ⊢
    by_cases hs : SlashBehind junk val
    · rw [if_pos hs] at h
      rw [if_pos ⟨hs.1, rfl⟩, h]
      rfl
    · rw [if_neg hs] at h
      cases h
  · obtain ⟨r', hr⟩ := resolve_of_not_hostOnly url hh
    rw [hr] at h ⊢
    exact Option.some.inj h

end Values

/-! ## One attribute -/

section Attribute

variable {fin : UInt8} {t : List UInt8} {a : Attr}

theorem not_space_of_start {b : UInt8} (h : isxmlnamestart b = true) : b ≠ 61 ∧ bspace b = false := by
  unfold isxmlnamestart at h
  unfold bspace
  simp only [Bool.or_eq_true, Bool.and_eq_true, decide_eq_true_eq, Bool.or_eq_false_iff, Bool.and_eq_false_iff,
    decide_eq_false_iff_not, ← UInt8.toNat_inj, UInt8.le_iff_toNat_le, Ne] at h ⊢
  simp only [UInt8.reduceToNat] at h ⊢
  omega

theorem readVal_left {attrib : List UInt8} (h : readVal fin attrib t = some a) :
    a.left.length ≤ t.length ∧ (a.past = true → a.left = []) := by
  unfold readVal at h
  by_cases hsp : bspace (t.headD fin) = true
  · rw [if_pos hsp] at h
    cases h
    exact ⟨by simp, fun hp => absurd hp Bool.false_ne_true⟩
  rw [if_neg hsp] at h
  cases t with
  | nil =>
    cases h
    exact ⟨le_rfl, fun hp => absurd hp Bool.false_ne_true⟩
  | cons q u =>
    by_cases hq : q = 34
    · simp only [if_pos hq] at h
      cases hd : u.dropWhile (· ≠ 34) with
      | nil =>
        rw [hd] at h
        cases h
      | cons d left =>
        rw [hd] at h
        cases h
        have hl := (List.dropWhile_suffix (l := u) (· ≠ 34)).length_le
        rw [hd] at hl
        exact ⟨by simp only [List.length_cons] at hl ⊢; omega, fun hp => absurd hp Bool.false_ne_true⟩
    · simp only [if_neg hq] at h
      cases hd : (q :: u).dropWhile (fun b => ¬ bspace b) with
      | nil =>
        rw [hd] at h
        cases h
        exact ⟨Nat.zero_le _, fun _ => rfl⟩
      | cons d left =>
        rw [hd] at h
        cases h
        have hl := (List.dropWhile_suffix (l := q :: u) fun b => ¬ bspace b).length_le
        rw [hd] at hl
        exact ⟨by simp only [List.length_cons] at hl ⊢; omega, fun hp => absurd hp Bool.false_ne_true⟩

/-- An attribute takes something from the element. -/
theorem readAttrib_left (h : readAttrib fin t = some a) : a.left.length < t.length ∧ (a.past = true → a.left = []) := by
  unfold readAttrib at h
  cases ht : t.dropWhile bspace with
  | nil =>
    rw [ht] at h
    cases h
  | cons c u =>
    have hcu := (List.dropWhile_suffix (l := t) bspace).length_le
    rw [ht] at h hcu
    rw [List.length_cons] at hcu
    simp only at h
    by_cases hc : isxmlnamestart c = false
    · rw [if_pos hc] at h
      cases h
    rw [if_neg hc] at h
    have hstart := not_space_of_start (Bool.not_eq_false _ ▸ hc)
    have hdrop : (c :: u).dropWhile (fun b => b ≠ 61 && ¬ bspace b) = u.dropWhile fun b => b ≠ 61 && ¬ bspace b := by
      rw [List.dropWhile_cons_of_pos]
      simp [hstart]
    rw [hdrop] at h
    by_cases hall : ((c :: u).takeWhile fun b => b ≠ 61 && ¬ bspace b).all isxmlname = false
    · rw [if_pos hall] at h
      cases h
    rw [if_neg hall] at h
    have hu := (List.dropWhile_suffix (l := u) fun b => b ≠ 61 && ¬ bspace b).length_le
    cases hd : u.dropWhile (fun b => b ≠ 61 && ¬ bspace b) with
    | nil =>
      rw [hd] at h
      cases h
      exact ⟨by simp only [List.length_nil]; omega, fun hp => absurd hp Bool.false_ne_true⟩
    | cons d v =>
      rw [hd] at h hu
      rw [List.length_cons] at hu
      simp only at h
      by_cases hsp : bspace d = true
      · rw [if_pos hsp] at h
        cases h
        exact ⟨by rw [List.length_cons]; omega, fun hp => absurd hp Bool.false_ne_true⟩
      · rw [if_neg hsp] at h
        have hv := readVal_left h
        exact ⟨by omega, hv.2⟩

end Attribute

/-! ## All attributes -/

section Loop

variable {env : Env} {off : ℕ} {fin nx : UInt8} {t : List UInt8}

/-- What the loop has set: the host and the URL of the bit, and the space. -/
abbrev Loop := Option (List UInt8) × Option (List UInt8) × ℕ

/-- What an attribute `src` with a value does. -/
def Loop.set (url : List UInt8) (s : Loop) (a : Attr) : Loop :=
  let host := (target url a.val).1.or s.1
  (host, some (target url a.val).2, s.2.2 + (target url a.val).2.length + (host.map List.length).getD 0)

def isSrc (a : Attr) : Bool := a.attrib = ascii "src" && a.val ≠ []

/-- The value of an attribute resolves. -/
def Resolves (env : Env) (off : ℕ) (a : Attr) : Prop :=
  isSrc a = true → HostOnly a.val → SlashBehind (env.wsW off a.left.length) a.val

instance (a : Attr) : Decidable (Resolves env off a) := inferInstanceAs (Decidable (_ → _))

/-- The attributes are read to their end, and their values resolve. -/
structure Reads (env : Env) (off : ℕ) (nx : UInt8) (as : List Attr × Stop) : Prop where
  stop : as.2 ≠ .nul
  past : as.2 = .past → nx ≠ 0
  resolves : ∀ a ∈ as.1, Resolves env off a

instance (as : List Attr × Stop) : Decidable (Reads env off nx as) :=
  decidable_of_iff (as.2 ≠ .nul ∧ (as.2 = .past → nx ≠ 0) ∧ ∀ a ∈ as.1, Resolves env off a)
    ⟨fun h => ⟨h.1, h.2.1, h.2.2⟩, fun h => ⟨h.1, h.2, h.3⟩⟩

/-- One turn of the loop, with an attribute. -/
def includeStep (env : Env) (off : ℕ) (a : Attr) (s : Loop) : Option Loop :=
  if a.attrib ≠ ascii "src" ∨ a.val = [] then some s
  else
    (resolve env.url (env.wsW off a.left.length) a.val).bind fun r =>
      some (r.1.or s.1, some r.2, s.2.2 + r.2.length + ((r.1.or s.1).map List.length).getD 0)

theorem includeLoop_succ (f : ℕ) (past : Bool) (s : Loop) :
    includeLoop env off fin nx (f + 1) t past s.1 s.2.1 s.2.2 =
      (esiAttrib fin nx t past).bind fun
        | none => some s
        | some a => (includeStep env off a s).bind fun s' =>
            includeLoop env off fin nx f a.left a.past s'.1 s'.2.1 s'.2.2 := by
  rw [includeLoop]
  congr 1
  funext a
  cases a with
  | none => rfl
  | some a =>
    simp only [includeStep]
    by_cases h : a.attrib ≠ ascii "src" ∨ a.val = []
    · rw [if_pos h, if_pos h, Option.bind_some]
    · rw [if_neg h, if_neg h, Option.bind_assoc]
      rfl

theorem isSrc_eq_false {a : Attr} : isSrc a = false ↔ a.attrib ≠ ascii "src" ∨ a.val = [] := by
  simp only [isSrc, Bool.and_eq_false_iff, decide_eq_false_iff_not, Ne, not_not]

theorem includeStep_spec (env : Env) (off : ℕ) (a : Attr) (s : Loop) :
    (Resolves env off a → includeStep env off a s = some ((srcs [a]).foldl (Loop.set env.url) s)) ∧
    (¬ Resolves env off a → includeStep env off a s = none) := by
  have hsrcs : srcs [a] = if isSrc a then [a] else [] := by
    unfold srcs isSrc
    rw [List.filter_cons]
    rfl
  unfold includeStep
  cases hsrc : isSrc a with
  | false =>
    rw [if_pos (isSrc_eq_false.1 hsrc)]
    refine ⟨fun _ => ?_, fun h => absurd (fun h' => absurd h' (by simp [hsrc])) h⟩
    rw [hsrcs, hsrc]
    rfl
  | true =>
    rw [if_neg (fun h => by rw [isSrc_eq_false.2 h] at hsrc; cases hsrc)]
    constructor
    · intro hr
      have hne : resolve env.url (env.wsW off a.left.length) a.val ≠ none := fun h =>
        (resolve_eq_none.1 h).2 (hr hsrc (resolve_eq_none.1 h).1)
      obtain ⟨r, hres⟩ := Option.ne_none_iff_exists'.1 hne
      rw [hres, Option.bind_some, hsrcs, hsrc, ← resolve_eq_target hres]
      rfl
    · intro hr
      have hnone : resolve env.url (env.wsW off a.left.length) a.val = none := by
        refine resolve_eq_none.2 ?_
        unfold Resolves at hr
        simpa [hsrc] using hr
      rw [hnone]
      rfl

theorem srcs_cons (a : Attr) (as : List Attr) : srcs (a :: as) = srcs [a] ++ srcs as := by
  unfold srcs
  rw [← List.filter_append]
  rfl

theorem readAttrib_nil : readAttrib fin [] = none := rfl

/-- The loop of `esi_handle_include` comes to its end if the attributes read, and does nothing else but set what is in them. -/
theorem includeLoop_spec (env : Env) (off : ℕ) (fin nx : UInt8) {f : ℕ} (hf : t.length < f) (s : Loop) :
    (Reads env off nx (attribs fin f t) →
      includeLoop env off fin nx f t false s.1 s.2.1 s.2.2 = some ((srcs (attribs fin f t).1).foldl (Loop.set env.url) s)) ∧
    (¬ Reads env off nx (attribs fin f t) → includeLoop env off fin nx f t false s.1 s.2.1 s.2.2 = none) := by
  induction f generalizing t s with
  | zero => exact absurd hf (Nat.not_lt_zero _)
  | succ f ih =>
    rw [includeLoop_succ, attribs, esiAttrib, if_neg Bool.false_ne_true]
    by_cases h0 : t.headD fin = 0
    · rw [if_pos h0, if_pos h0]
      exact ⟨fun h => absurd rfl h.stop, fun _ => rfl⟩
    rw [if_neg h0, if_neg h0, Option.bind_some]
    cases ha : readAttrib fin t with
    | none => exact ⟨fun _ => rfl, fun h => absurd ⟨nofun, nofun, nofun⟩ h⟩
    | some a =>
      have hleft := readAttrib_left ha
      obtain ⟨hok, hbad⟩ := includeStep_spec env off a s
      simp only
      by_cases hp : a.past = true
      · -- the next turn looks one byte behind the element
        rw [if_pos hp, hp, hleft.2 hp]
        obtain ⟨f', rfl⟩ : ∃ f', f = f' + 1 := ⟨f - 1, by omega⟩
        have hlast (s' : Loop) : includeLoop env off fin nx (f' + 1) [] true s'.1 s'.2.1 s'.2.2 =
            if nx = 0 then none else some s' := by
          rw [includeLoop_succ, esiAttrib, if_pos rfl]
          by_cases hnx : nx = 0
          · rw [if_pos hnx, if_pos hnx]
            rfl
          · rw [if_neg hnx, if_neg hnx, Option.bind_some, readAttrib_nil]
        constructor
        · intro hr
          rw [hok (hr.resolves a List.mem_cons_self), Option.bind_some, hlast, if_neg (hr.past rfl)]
        · intro hr
          by_cases hra : Resolves env off a
          · have hnx : nx = 0 := by
              by_contra hnx
              exact hr ⟨nofun, fun _ => hnx, fun b hb => List.mem_singleton.1 hb ▸ hra⟩
            rw [hok hra, Option.bind_some, hlast, if_pos hnx]
          · rw [hbad hra]
            rfl
      · rw [if_neg hp, Bool.eq_false_iff.2 hp]
        have hlen : a.left.length < f := by omega
        obtain ⟨h1, h2⟩ := ih hlen ((srcs [a]).foldl (Loop.set env.url) s)
        constructor
        · intro hr
          rw [hok (hr.resolves a List.mem_cons_self), Option.bind_some,
            h1 ⟨hr.stop, hr.past, fun b hb => hr.resolves b (List.mem_cons_of_mem _ hb)⟩, ← List.foldl_append,
            ← srcs_cons]
        · intro hr
          by_cases hra : Resolves env off a
          · have hrest : ¬ Reads env off nx (attribs fin f a.left) := fun h =>
              hr ⟨h.stop, h.past, fun b hb => (List.mem_cons.1 hb).elim (fun e => e ▸ hra) (h.resolves b)⟩
            rw [hok hra, Option.bind_some, h2 hrest]
          · rw [hbad hra]
            rfl

end Loop

/-! ## What is set -/

section Set

variable {url : List UInt8}

theorem foldl_set (as : List Attr) (s : Loop) :
    (((as.foldl (Loop.set url) s).1, (as.foldl (Loop.set url) s).2.1) : Option (List UInt8) × Option (List UInt8)) =
      as.foldl (fun r a => ((target url a.val).1.or r.1, some (target url a.val).2)) (s.1, s.2.1) := by
  induction as generalizing s with
  | nil => rfl
  | cons a as ih => rw [List.foldl_cons, List.foldl_cons, ih]; rfl

/-- What the loop sets in a bit that has nothing yet. -/
theorem foldl_set_included (url : List UInt8) (as : List Attr) (n : ℕ) :
    (((srcs as).foldl (Loop.set url) (none, none, n)).1, ((srcs as).foldl (Loop.set url) (none, none, n)).2.1) =
      included url as := foldl_set _ _

def setSize (h i : Option (List UInt8)) : ℕ := (i.map List.length).getD 0 + (h.map List.length).getD 0

theorem resolve_pos {junk : UInt8} {val : List UInt8} {r : Option (List UInt8) × List UInt8}
    (h : resolve url junk val = some r) : r.2 ≠ [] ∨ ∃ host, r.1 = some host ∧ host ≠ [] := by
  by_cases hh : HostOnly val
  · rw [resolve_of_hostOnly hh] at h
    by_cases hs : SlashBehind junk val
    · rw [if_pos hs] at h
      cases h
      exact .inr ⟨_, rfl, by simp [ascii]⟩
    · rw [if_neg hs] at h
      cases h
  · refine .inl ?_
    unfold resolve at h
    simp only [srcVal_fst] at h
    by_cases h1 : 7 < (plainVal val).length ∧ (ascii "http://").isPrefixOf (plainVal val) = true
    · rw [if_pos h1] at h
      cases hd : ((plainVal val).drop 7).dropWhile (· ≠ 47) with
      | nil => exact absurd ⟨h1.1, h1.2, dropWhile_eq_nil.1 hd⟩ hh
      | cons b bs =>
        rw [hd] at h
        cases h
        exact List.cons_ne_nil b bs
    · rw [if_neg h1] at h
      by_cases h2 : (plainVal val).head? = some 47
      · rw [if_pos h2] at h
        cases h
        intro hnil
        simp only at hnil
        rw [hnil] at h2
        cases h2
      · rw [if_neg h2] at h
        cases h
        simp

theorem set_pos {junk : UInt8} {a : Attr} (s : Loop) (h : resolve url junk a.val ≠ none) :
    0 < setSize (Loop.set url s a).1 (Loop.set url s a).2.1 := by
  obtain ⟨r, hr⟩ := Option.ne_none_iff_exists'.1 h
  unfold Loop.set setSize
  rw [resolve_eq_target hr]
  rcases resolve_pos hr with h1 | ⟨host, h1, h2⟩
  · have := List.length_pos_iff.2 h1
    simp only [Option.map_some, Option.getD_some]
    omega
  · have := List.length_pos_iff.2 h2
    simp only [h1, Option.some_or, Option.map_some, Option.getD_some]
    omega

/-- Each `src` is counted, and only the last one is kept. -/
theorem foldl_set_space (url : List UInt8) (as : List Attr) (s : Loop) (hne : as ≠ []) (hres : ∀ a ∈ as, ∃ junk, resolve url junk a.val ≠ none) :
    ∃ e, (as.foldl (Loop.set url) s).2.2 =
        s.2.2 + setSize (as.foldl (Loop.set url) s).1 (as.foldl (Loop.set url) s).2.1 + e ∧ (e = 0 ↔ as.length ≤ 1) := by
  induction as generalizing s with
  | nil => exact absurd rfl hne
  | cons a as ih =>
    have hset : (Loop.set url s a).2.2 = s.2.2 + setSize (Loop.set url s a).1 (Loop.set url s a).2.1 := Nat.add_assoc _ _ _
    obtain ⟨junk, hj⟩ := hres a List.mem_cons_self
    rw [List.foldl_cons]
    cases as with
    | nil => exact ⟨0, by rw [List.foldl_nil, hset]; rfl, by simp⟩
    | cons b as =>
      obtain ⟨e, he, -⟩ := ih (Loop.set url s a) (List.cons_ne_nil b as) fun x hx => hres x (List.mem_cons_of_mem a hx)
      have hpos := set_pos s hj
      refine ⟨setSize (Loop.set url s a).1 (Loop.set url s a).2.1 + e, by rw [he, hset]; omega, ?_⟩
      simp only [List.length_cons]
      omega

end Set

end Varnish.Esi
