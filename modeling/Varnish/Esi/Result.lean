import Varnish.Esi.Agree

/-!
# Varnish.Esi.Result — assertions and segments

* `esiParse_spec`: what `ESI_Parse` does, told by the items that it meets.
* `esiParse_ends`: the condition for no assertion to fail.
* `Alike`: two runs end, with the same output.  `stream_segments`: so they do, unless an item is not sound in one of the cuts, or a
  marker is torn.
-/

namespace Varnish.Esi

open Varnish.Lib

/-! ## A whole body -/

section Whole

variable (env : Env) (st : Store)

/-- The items that the parser meets. -/
def codeMet : List Met := met (Matcher.code env) (env.syn.testBit 1) (st.body env)

/-- What the bits put out. -/
def stream (m : Mem) (bits : List Bit) : Out := bits.flatMap (Bit.out m)

variable {env st}

theorem start_on : startWork st.segs = (startWork st.segs).on env st (st.body env) := by
  unfold Work.on Store.ptr
  rw [Nat.sub_self]
  rfl

theorem start_track (env : Env) (st : Store) : Track env st (startWork st.segs) (st.body env) false false [] False False := by
  refine Settled.track ⟨List.suffix_refl _, rfl, rfl, ⟨nofun, 0, rfl, by simp⟩, ?_, fun _ => rfl, False.elim⟩
  unfold Store.ptr
  rw [Nat.sub_self]
  rfl

theorem parseBody_spec (env : Env) (st : Store) :
    ((∀ x ∈ codeMet env st, Sound env st x) →
      ∃ w, parseBody env st.segs = some w ∧
        Rel (∃ x ∈ codeMet env st, Cut st x) (outOf env.mem w.bits) (render env.url (codeMet env st)) ∧
        Acct w (∃ x ∈ codeMet env st, ¬ Single x)) ∧
    ((¬ ∀ x ∈ codeMet env st, Sound env st x) → parseBody env st.segs = none) := by
  have h := mainLoop_spec (g := (st.body env).length + 1) (f := (st.body env).length + 1) (start_track env st)
    (Nat.lt_succ_self _) (Nat.lt_succ_self _)
  rw [Nat.sub_self, ← start_on, false_or, false_or, List.nil_append] at h
  exact h

/-- `ESI_Parse`: an assertion fails, or the bits put out what the items are worth. -/
theorem esiParse_spec (hp : processed env (st.body env) = true) :
    ((∀ x ∈ codeMet env st, Sound env st x ∧ Single x) →
      ∃ bits, esiParse env st.segs = some (some bits) ∧
        Rel (∃ x ∈ codeMet env st, Cut st x) (stream env.mem bits) (render env.url (codeMet env st))) ∧
    ((¬ ∀ x ∈ codeMet env st, Sound env st x ∧ Single x) → esiParse env st.segs = none) := by
  obtain ⟨h1, h2⟩ := parseBody_spec env st
  have hparse : esiParse env st.segs = (parseBody env st.segs).bind fun w =>
      if copiedLen w.bits.reverse = w.space then some (some w.bits.reverse) else none := by
    unfold esiParse
    rw [if_neg (by rw [show segBytes env.mem st.segs = st.body env from rfl, hp]; exact Bool.noConfusion)]
  rw [hparse]
  by_cases hs : ∀ x ∈ codeMet env st, Sound env st x
  · obtain ⟨w, h3, h4, ⟨-, e, he, hiff⟩⟩ := h1 hs
    rw [h3, Option.bind_some, copiedLen_reverse, he]
    constructor
    · intro hall
      have he0 : e = 0 := hiff.2 fun ⟨x, hx, hx'⟩ => hx' (hall x hx).2
      rw [if_pos (by omega)]
      refine ⟨_, rfl, ?_⟩
      unfold stream
      rw [stream_reverse]
      exact h4
    · intro hnall
      rw [if_neg]
      intro h0
      have hsingle := hiff.1 (by omega)
      exact hnall fun x hx => ⟨hs x hx, not_not.1 fun hx' => hsingle ⟨x, hx, hx'⟩⟩
  · rw [h2 hs]
    exact ⟨fun hall => absurd (fun x hx => (hall x hx).1) hs, fun _ => rfl⟩

end Whole

/-! ## Assertions -/

section Assertions

theorem esiParse_unprocessed {env : Env} {st : Store} (hp : processed env (st.body env) = false) :
    esiParse env st.segs = some none := by
  unfold esiParse
  rw [if_pos (by rw [← hp]; rfl)]

/-- `ESI_Parse` comes to its end, with the space that it counted, if every item that it meets is sound, and no include element has two
`src` with a value. -/
theorem esiParse_ends (env : Env) (st : Store) :
    (∃ r, esiParse env st.segs = some r) ↔
      (processed env (st.body env) = true → ∀ x ∈ codeMet env st, Sound env st x ∧ Single x) := by
  cases hp : processed env (st.body env) with
  | false =>
    exact iff_of_true ⟨none, esiParse_unprocessed hp⟩ nofun
  | true =>
    obtain ⟨h1, h2⟩ := esiParse_spec hp
    constructor
    · rintro ⟨r, hr⟩ -
      by_contra hnall
      rw [h2 hnall] at hr
      cases hr
    · intro hall
      obtain ⟨bits, hbits, -⟩ := h1 (hall rfl)
      exact ⟨_, hbits⟩

/-- A memory that holds `bs`, from the address 1 on. -/
def textEnv (bs : List UInt8) : Env := ⟨fun i => bs.getD (i - 1) 0, 1, ascii "/", fun _ => [], fun _ => 1, fun _ _ => 1⟩

theorem textEnv_same (bs bs' : List UInt8) :
    (textEnv bs).syn = (textEnv bs').syn ∧ (textEnv bs).url = (textEnv bs').url ∧ (textEnv bs).ro = (textEnv bs').ro :=
  ⟨rfl, rfl, rfl⟩

/-- The first `n + 1` bytes of it. -/
def textStore (n : ℕ) (h : n + 1 < 2 ^ 32) : Store := ⟨[⟨1, n + 1, Nat.one_pos, Nat.succ_pos n, h⟩], List.pairwise_singleton _ _⟩

/-- An ESI comment inside of another one. -/
theorem nested_fails :
    (textStore 20 (by decide)).body (textEnv (ascii "<!--esi <!--esi x-->\n")) = ascii "<!--esi <!--esi x-->\n" ∧
    esiParse (textEnv (ascii "<!--esi <!--esi x-->\n")) (textStore 20 (by decide)).segs = none := by decide +kernel

end Assertions

/-! ## Segments -/

section Segments

/-- The items of a body that is processed, in a cut of it, are sound, and their elements have a single `src`. -/
def Parses (env : Env) (st : Store) : Prop :=
  processed env (st.body env) = true → ∀ x ∈ codeMet env st, Sound env st x ∧ Single x

theorem parses_of_some {env : Env} {st : Store} {r : Option (List Bit)} (h : esiParse env st.segs = some r) : Parses env st :=
  fun hp => by_contra fun hno => Option.some_ne_none _ (h.symm.trans ((esiParse_spec hp).2 hno))

theorem esiParse_some {env : Env} {st : Store} {bits : List Bit} (h : esiParse env st.segs = some (some bits)) :
    Rel (∃ x ∈ codeMet env st, Cut st x) (stream env.mem bits) (render env.url (codeMet env st)) := by
  cases hp : processed env (st.body env) with
  | false =>
    rw [esiParse_unprocessed hp] at h
    cases h
  | true =>
    obtain ⟨bits', hbits', hrel⟩ := (esiParse_spec hp).1 (parses_of_some h hp)
    cases h.symm.trans hbits'
    exact hrel

/-- Both runs end, and put out the same, or have no bits both. -/
def Alike (env₁ env₂ : Env) (st₁ st₂ : Store) : Prop :=
  ∃ r₁ r₂, esiParse env₁ st₁.segs = some r₁ ∧ esiParse env₂ st₂.segs = some r₂ ∧
    r₁.map (stream env₁.mem) = r₂.map (stream env₂.mem)

/-- Two cuts of the same body, of which `st₂` tears no marker: the runs end with the same output if and only if every item is sound in
both, and `st₁` tears no marker either. -/
theorem stream_segments {env₁ env₂ : Env} {st₁ st₂ : Store} (hsyn : env₁.syn = env₂.syn) (hurl : env₁.url = env₂.url)
    (hro : env₁.ro = env₂.ro) (hbody : st₁.body env₁ = st₂.body env₂) (hcut₂ : ∀ x ∈ codeMet env₂ st₂, ¬ Cut st₂ x) :
    Alike env₁ env₂ st₁ st₂ ↔ Parses env₁ st₁ ∧ Parses env₂ st₂ ∧
      (processed env₁ (st₁.body env₁) = true → ∀ x ∈ codeMet env₁ st₁, ¬ Cut st₁ x) := by
  have hmet : codeMet env₁ st₁ = codeMet env₂ st₂ := by
    unfold codeMet Matcher.code
    rw [hsyn, hro, hbody]
  have hproc : processed env₁ (st₁.body env₁) = processed env₂ (st₂.body env₂) := by
    unfold processed
    rw [hsyn, hbody]
  cases hp : processed env₁ (st₁.body env₁) with
  | false =>
    have hp₂ := hproc.symm.trans hp
    refine iff_of_true ⟨none, none, esiParse_unprocessed hp, esiParse_unprocessed hp₂, rfl⟩ ⟨?_, ?_, nofun⟩
    · exact fun h => absurd (hp.symm.trans h) Bool.false_ne_true
    · exact fun h => absurd (hp₂.symm.trans h) Bool.false_ne_true
  | true =>
    have hp₂ := hproc.symm.trans hp
    have hends₁ := (esiParse_spec hp).1
    have hends₂ := (esiParse_spec hp₂).1
    constructor
    · rintro ⟨r₁, r₂, hr₁, hr₂, heq⟩
      have hall₁ := parses_of_some hr₁
      have hall₂ := parses_of_some hr₂
      refine ⟨hall₁, hall₂, fun _ x hx hc => ?_⟩
      -- a torn marker makes the output longer
      obtain ⟨bits₁, hbits₁, hrel₁⟩ := hends₁ (hall₁ hp)
      obtain ⟨bits₂, hbits₂, hrel₂⟩ := hends₂ (hall₂ hp₂)
      have hsame₂ := hrel₂.same fun ⟨x, hx, hc⟩ => hcut₂ x hx hc
      have hlt := hrel₁.longer ⟨x, hx, hc⟩
      cases hr₁.symm.trans hbits₁
      cases hr₂.symm.trans hbits₂
      have hstream : stream env₁.mem bits₁ = stream env₂.mem bits₂ := Option.some.inj heq
      rw [hstream, hsame₂, ← hmet, ← hurl] at hlt
      exact lt_irrefl _ hlt
    · rintro ⟨hall₁, hall₂, hcut₁⟩
      obtain ⟨bits₁, hbits₁, hrel₁⟩ := hends₁ (hall₁ hp)
      obtain ⟨bits₂, hbits₂, hrel₂⟩ := hends₂ (hall₂ hp₂)
      refine ⟨_, _, hbits₁, hbits₂, congrArg some ?_⟩
      rw [hrel₁.same fun ⟨x, hx, hc⟩ => hcut₁ rfl x hx hc, hrel₂.same fun ⟨x, hx, hc⟩ => hcut₂ x hx hc, hmet, hurl]

def cutBody : List UInt8 := ascii "<esi:include src=\"/a\"/>\n"

/-- An include element in two segments, of which the second one has the lower address. -/
def cutText : List UInt8 := ascii "c=\"/a\"/>\n..........<esi:include sr"

def cutEnv : Env := textEnv cutText

def cutStore : Store :=
  ⟨[⟨20, 15, by decide, by decide, by decide⟩, ⟨1, 9, by decide, by decide, by decide⟩], by decide⟩

/-- The same body in one segment. -/
def wholeStore : Store := textStore 23 (by decide)

theorem stream_segments_cut : Alike cutEnv (textEnv cutBody) cutStore wholeStore := by
  have hparses₁ : Parses cutEnv cutStore := parses_of_some (show esiParse cutEnv cutStore.segs =
    some (some [⟨20, 0, none, some (ascii "/a" ++ [0])⟩, ⟨9, 1, none, none⟩]) by decide +kernel)
  have hparses₂ : Parses (textEnv cutBody) wholeStore := parses_of_some (show esiParse (textEnv cutBody) wholeStore.segs =
    some (some [⟨1, 0, none, some (ascii "/a" ++ [0])⟩, ⟨24, 1, none, none⟩]) by decide +kernel)
  have hbody : cutStore.body cutEnv = wholeStore.body (textEnv cutBody) := by decide +kernel
  have hcut₁ : ∀ x ∈ codeMet cutEnv cutStore, ¬ Cut cutStore x := by decide +kernel
  have hcut₂ : ∀ x ∈ codeMet (textEnv cutBody) wholeStore, ¬ Cut wholeStore x := by decide +kernel
  obtain ⟨hsyn, hurl, hro⟩ := textEnv_same cutText cutBody
  have hiff := @stream_segments cutEnv (textEnv cutBody) cutStore wholeStore hsyn hurl hro hbody hcut₂
  exact hiff.mpr ⟨hparses₁, hparses₂, fun _ => hcut₁⟩

/-- The marker `<!--esi` is in two segments, of which the second one has the lower address. -/
def tornEnv : Env := textEnv (ascii "esi x-->\n..........<!--")

def tornStore : Store :=
  ⟨[⟨20, 4, by decide, by decide, by decide⟩, ⟨1, 9, by decide, by decide, by decide⟩], by decide⟩

def bareBody : List UInt8 := ascii "<esi:include src=/a>\n"

/-- An element that ends with a value without quotes; there are NULs in the workspaces. -/
def bareEnv : Env := ⟨(textEnv bareBody).mem, 1, ascii "/", fun _ => [], fun _ => 0, fun _ _ => 0⟩

def bareStore : Store := ⟨[⟨1, 9, by decide, by decide, by decide⟩, ⟨10, 12, by decide, by decide, by decide⟩], by decide⟩

/-- The same body in one segment and in two: its output is not the same.  An element is parsed in one segment, and fails an assertion
in two. -/
theorem torn_differs :
    tornStore.body tornEnv = ascii "<!--esi x-->\n" ∧
    (textStore 12 (by decide)).body (textEnv (ascii "<!--esi x-->\n")) = ascii "<!--esi x-->\n" ∧
    ((esiParse tornEnv tornStore.segs).bind fun bits => bits.map (stream tornEnv.mem)) =
      some (verb (ascii " x-->\n..........<!--esi x\n")) ∧
    ((esiParse (textEnv (ascii "<!--esi x-->\n")) (textStore 12 (by decide)).segs).bind fun bits =>
      bits.map (stream (textEnv (ascii "<!--esi x-->\n")).mem)) = some (verb (ascii " x\n")) ∧
    bareStore.body bareEnv = bareBody ∧ (textStore 20 (by decide)).body bareEnv = bareBody ∧
    esiParse bareEnv bareStore.segs = none ∧ (esiParse bareEnv (textStore 20 (by decide)).segs).isSome = true := by decide +kernel

end Segments

end Varnish.Esi
