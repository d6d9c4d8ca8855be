import Varnish.Lib.Include
import Varnish.Vcc.Lexer

/-!
# Varnish.Vcc.Include — the `include` statements of a VCL program (`vcc_compile.c`)

* `vccResolveIncludes`: the function, which is called again after each `include`.
* `lang`: how tokens name tokens, and where the files have theirs.
* `Resolves`: it ends, with what textual inclusion gives, or with an error.
* `resolves_iff`: it does so if and only if no file that it comes to leads to itself.
-/

namespace Varnish.Vcc.Include

open Varnish.Lib.Include
open Varnish.Vcc.Lexer (vccLexer lexLoop_spec ch)
open Relation (ReflTransGen)

/-! ## The code -/

section Code

/-- `struct source` -/
structure Source where
  name : List UInt8
  text : List UInt8
deriving DecidableEq

/-- `struct token`, with the source that it is from. -/
structure Token extends Lexer.Token where
  src : Source
deriving DecidableEq

/-- The contents of the files, and what `strerror` says of the others. -/
structure Files where
  contents : List (List UInt8 × List UInt8)
  strerror : List UInt8 → List UInt8

def text (s : String) : List UInt8 := s.toList.map ch

def vreadfile (fs : Files) (fn : List UInt8) : Option (List UInt8) := (fs.contents.find? fun c => c.1 = fn).map Prod.snd

/-- `vcc_new_source` without an end, which looks for the NUL. -/
def vccNewSource (b name : List UInt8) : Source := ⟨name, b.takeWhile (· ≠ 0)⟩

def vccFileSource (fs : Files) (fn : List UInt8) : Except (List UInt8) Source :=
  match vreadfile fs fn with
  | none => .error (text "Cannot read file '" ++ fn ++ text "': " ++ fs.strerror fn ++ text "\n")
  | some f => .ok (vccNewSource f fn)

theorem vccLexer_isSome (src : List UInt8) : (vccLexer src).isSome = true := by
  obtain ⟨toks, err, h, -⟩ := @lexLoop_spec src 0 (src.length + 1) (Nat.lt_succ_self _)
  rw [vccLexer, h]
  rfl

/-- The error that `vcc_Lexer` reports. -/
def lexError (sp : Source) : Option String := ((vccLexer sp.text).get (vccLexer_isSome _)).2

/-- The tokens that `vcc_Lexer` adds. -/
def lexTokens (sp : Source) : List Token := ((vccLexer sp.text).get (vccLexer_isSome _)).1.map fun t => ⟨t, sp⟩

/-- How a call goes, up to the one that it makes itself. -/
inductive Pass
  | done
  | again (ts : List Token)
  | error (msg : List UInt8) (t : Option Token)
  | fault

/-- A file in the place of the three tokens; `t1` is its name. -/
def insertFile (fs : Files) (pre : List Token) (t1 : Token) (rest : List Token) : Pass :=
  match vccFileSource fs (t1.dec.getD []) with
  | .error msg => .error msg t1
  | .ok sp =>
    match lexError sp with
    | some msg => .error (text msg) none
    -- the tokens go behind the `;`, and the three are removed
    | none => .again (pre ++ (lexTokens sp ++ rest))

/-- The body of the loop at a `T_INCLUDE`, where `pre` is in front of it. -/
def atInclude (fs : Files) (pre : List Token) : List Token → Pass
  | [] => .fault
  | t1 :: ts =>
    if t1.tok ≠ .cstr then .error (text "include not followed by string constant.\n") t1
    else
      match ts with
      | [] => .fault
      | t2 :: rest =>
        if t2.tok ≠ .chr (ch ';') then .error (text "include <string> not followed by semicolon.\n") t1
        else insertFile fs pre t1 rest

/-- The loop, which has gone by `pre`. -/
def loop (fs : Files) : List Token → List Token → Pass
  | _, [] => .done
  | pre, t :: ts => if t.tok ≠ .tInclude then loop fs (pre ++ [t]) ts else atInclude fs pre ts

inductive Outcome
  | ok (ts : List Token)
  | error (msg : List UInt8) (t : Option Token)
  | fault

/-- `vcc_resolve_includes`, for at most so many calls. -/
def vccResolveIncludes (fs : Files) : ℕ → List Token → Option Outcome
  | 0, _ => none
  | n + 1, ts =>
    match loop fs [] ts with
    | .done => some (.ok ts)
    | .again ts => vccResolveIncludes fs n ts
    | .error msg t => some (.error msg t)
    | .fault => some .fault

/-- What `vcc_CompileSource` calls it with: the tokens of the source and of the default VCL, and an `EOI`. -/
def sourceTokens (sp dflt : Source) : List Token :=
  lexTokens sp ++ lexTokens dflt ++ [⟨⟨.eoi, dflt.text.length, dflt.text.length, none⟩, dflt⟩]

end Code

/-! ## What it should do -/

section Spec

variable (fs : Files)

/-- `include "file";` stands for the tokens of the file. -/
def lang : Lang Token (List UInt8) where
  inc t := t.tok = .tInclude
  name t := if t.tok = .cstr then some (t.dec.getD []) else none
  close t := t.tok = .chr (ch ';')
  load fn := (vreadfile fs fn).bind fun f =>
    if lexError (vccNewSource f fn) = none then some (lexTokens (vccNewSource f fn)) else none

/-- The function ends.  Where no file that is come to leads to itself, and no `include` is malformed or of a file without sound
tokens, it gives what textual inclusion does, and otherwise an error. -/
def Resolves (ts : List Token) : Prop :=
  ∃ n out, (∀ m, n ≤ m → vccResolveIncludes fs m ts = some out) ∧
    (¬ Cyclic (lang fs) ts → ¬ Fails (lang fs) ts → ∃ r, Expand (lang fs) ts r ∧ out = .ok r) ∧
    (Cyclic (lang fs) ts ∨ Fails (lang fs) ts → ∃ msg t, out = .error msg t)

end Spec

/-! ## A call -/

section Call

variable {fs : Files} {pre cur ts : List Token} {t : Token}

/-- The list ends with an `EOI`, unless it is empty. -/
def EoiLast (ts : List Token) : Prop := ∀ x ∈ ts.getLast?, x.tok = .eoi

theorem EoiLast.tail (h : EoiLast (t :: ts)) : EoiLast ts := by
  intro x hx
  cases ts with
  | nil => cases hx
  | cons u ts => exact h x (by rwa [List.getLast?_cons_cons])

theorem EoiLast.append (h : EoiLast ts) (hne : ts ≠ []) : EoiLast (cur ++ ts) := by
  intro x hx
  rw [List.getLast?_append, List.getLast?_eq_some_getLast hne, Option.some_or, ← List.getLast?_eq_some_getLast hne] at hx
  exact h x hx

theorem load_of_ok {fn : List UInt8} {sp : Source} (h : vccFileSource fs fn = .ok sp) :
    (lang fs).load fn = if lexError sp = none then some (lexTokens sp) else none := by
  unfold vccFileSource at h
  split at h
  · cases h
  · rename_i f hf
    cases h
    exact congrArg (Option.bind · _) hf

theorem load_of_error {fn msg : List UInt8} (h : vccFileSource fs fn = .error msg) : (lang fs).load fn = none := by
  unfold vccFileSource at h
  split at h
  · rename_i hf
    exact congrArg (Option.bind · _) hf
  · cases h

theorem name_cstr (h : t.tok = .cstr) : (lang fs).name t = some (t.dec.getD []) := if_pos h

theorem EoiLast.not_single (ht : t.tok ≠ .eoi) : ¬ EoiLast [t] := fun h => ht (h t rfl)

theorem insertFile_spec (pre : List Token) {t1 : Token} {rest : List Token} (ho : Opens (lang fs) ts (t1.dec.getD []) rest) :
    (∃ l, Reads (lang fs) ts (l ++ rest) ∧ insertFile fs pre t1 rest = .again (pre ++ (l ++ rest))) ∨
      Bad (lang fs) ts ∧ ∃ msg w, insertFile fs pre t1 rest = .error msg w := by
  unfold insertFile
  cases hf : vccFileSource fs (t1.dec.getD []) with
  | error msg => exact .inr ⟨.load ho (load_of_error hf), msg, some t1, rfl⟩
  | ok sp =>
    have hl := load_of_ok hf
    cases he : lexError sp with
    | some msg =>
      rw [he] at hl
      exact .inr ⟨.load ho hl, text msg, none, by simp only [he]⟩
    | none =>
      rw [he] at hl
      exact .inl ⟨lexTokens sp, .enter ho hl, by simp only [he]⟩

/-- The body of the loop reads on, or finds the `include` bad. -/
theorem atInclude_spec (fs : Files) (pre : List Token) (ht : t.tok = .tInclude) (hlast : EoiLast (t :: ts)) :
    (∃ x, Reads (lang fs) (t :: ts) x ∧ EoiLast x ∧ atInclude fs pre ts = .again (pre ++ x)) ∨
      Bad (lang fs) (t :: ts) ∧ ∃ msg w, atInclude fs pre ts = .error msg w := by
  cases ts with
  | nil => exact absurd hlast (EoiLast.not_single (by rw [ht]; decide))
  | cons t1 ts =>
    by_cases h1 : t1.tok = .cstr
    · cases ts with
      | nil => exact absurd hlast.tail (EoiLast.not_single (by rw [h1]; decide))
      | cons t2 rest =>
        by_cases h2 : t2.tok = .chr (ch ';')
        · have ho : Opens (lang fs) (t :: t1 :: t2 :: rest) (t1.dec.getD []) rest := .mk ht (name_cstr h1) h2
          have hpass : atInclude fs pre (t1 :: t2 :: rest) = insertFile fs pre t1 rest :=
            (if_neg (not_not_intro h1)).trans (if_neg (not_not_intro h2))
          have hrest : rest ≠ [] := by
            rintro rfl
            exact EoiLast.not_single (by rw [h2]; exact Lexer.Tok.noConfusion) hlast.tail.tail
          rw [hpass]
          obtain ⟨l, hr, hag⟩ | hbad := insertFile_spec pre ho
          · exact .inl ⟨l ++ rest, hr, hlast.tail.tail.tail.append hrest, hag⟩
          · exact .inr hbad
        · refine .inr ⟨.form ht fun f r ho => ?_, _, _, (if_neg (not_not_intro h1)).trans (if_pos h2)⟩
          cases ho with
          | mk _ _ hm => exact h2 hm
    · refine .inr ⟨.form ht fun f r ho => ?_, _, _, if_pos h1⟩
      cases ho with
      | mk _ hs _ =>
        rw [show (lang fs).name t1 = none from if_neg h1] at hs
        cases hs

theorem loop_append {p : List Token} (hp : ∀ t ∈ p, t.tok ≠ .tInclude) : loop fs pre (p ++ cur) = loop fs (pre ++ p) cur := by
  induction p generalizing pre with
  | nil => rw [List.append_nil, List.nil_append]
  | cons t p ih =>
    obtain ⟨ht, hp⟩ := List.forall_mem_cons.1 hp
    rw [List.cons_append, loop, if_pos ht, ih hp, List.append_assoc]
    rfl

/-- The loop comes to the first `include`. -/
theorem loop_include (hpre : ∀ t ∈ pre, t.tok ≠ .tInclude) (ht : t.tok = .tInclude) :
    loop fs [] (pre ++ t :: ts) = atInclude fs pre ts := by
  rw [loop_append hpre, List.nil_append, loop, if_neg (not_not_intro ht)]

theorem loop_done (hpre : ∀ t ∈ pre, t.tok ≠ .tInclude) : loop fs [] pre = .done := by
  have h : loop fs [] (pre ++ []) = loop fs ([] ++ pre) [] := loop_append hpre
  rwa [List.append_nil] at h

end Call

/-! ## All calls -/

section Calls

variable {fs : Files} {pre cur : List Token} {n : ℕ} {out : Outcome}

theorem noInclude_snoc {t : Token} (hpre : ∀ t ∈ pre, t.tok ≠ .tInclude) (ht : t.tok ≠ .tInclude) :
    ∀ u ∈ pre ++ [t], u.tok ≠ .tInclude := by
  intro u hu
  obtain hu | hu := List.mem_append.1 hu
  · exact hpre u hu
  · rwa [List.mem_singleton.1 hu]

/-- Where reading ends so do the calls, with what is left to read replaced, or with an error. -/
theorem resolve_of_ends (pre : List Token) (he : Ends (lang fs) cur) (hpre : ∀ t ∈ pre, t.tok ≠ .tInclude) (hlast : EoiLast cur) :
    ∃ n out, (∀ m, n ≤ m → vccResolveIncludes fs m (pre ++ cur) = some out) ∧
      ((∃ r, Expand (lang fs) cur r ∧ out = .ok (pre ++ r)) ∨ Fails (lang fs) cur ∧ ∃ msg t, out = .error msg t) := by
  induction he generalizing pre with
  | intro cur _ ih =>
    cases cur with
    | nil =>
      refine ⟨1, .ok (pre ++ []), fun m hm => ?_, .inl ⟨[], .nil, rfl⟩⟩
      obtain ⟨m, rfl⟩ := Nat.exists_eq_add_of_le' hm
      rw [List.append_nil, vccResolveIncludes, loop_done hpre]
    | cons t ts =>
      by_cases ht : t.tok = .tInclude
      · obtain ⟨x, hx, hxlast, hag⟩ | ⟨hbad, msg, w, herr⟩ := atInclude_spec fs pre ht hlast
        · obtain ⟨n, out, hrun, hout⟩ := ih x hx pre hpre hxlast
          refine ⟨n + 1, out, fun m hm => ?_, ?_⟩
          · obtain ⟨m, rfl⟩ : ∃ k, m = k + 1 := ⟨m - 1, by omega⟩
            rw [vccResolveIncludes, loop_include hpre ht, hag]
            exact hrun m (by omega)
          · obtain ⟨r, hr, rfl⟩ | ⟨hf, herr⟩ := hout
            · refine .inl ⟨r, ?_, rfl⟩
              cases hx with
              | skip hno => exact absurd ht hno
              | enter ho hl => exact .enter ho hl hr
            · exact .inr ⟨hf.head hx, herr⟩
        · refine ⟨1, .error msg w, fun m hm => ?_, .inr ⟨⟨t :: ts, .refl, hbad⟩, msg, w, rfl⟩⟩
          obtain ⟨m, rfl⟩ := Nat.exists_eq_add_of_le' hm
          rw [vccResolveIncludes, loop_include hpre ht, herr]
      · obtain ⟨n, out, hrun, hout⟩ := ih ts (.skip ht) (pre ++ [t]) (noInclude_snoc hpre ht) hlast.tail
        rw [List.append_assoc] at hrun
        refine ⟨n, out, hrun, ?_⟩
        obtain ⟨r, hr, rfl⟩ | ⟨hf, herr⟩ := hout
        · exact .inl ⟨t :: r, .skip ht hr, by rw [List.append_assoc]; rfl⟩
        · exact .inr ⟨hf.head (.skip ht), herr⟩

/-- Where the calls end so does reading. -/
theorem ends_of_resolve (hrun : vccResolveIncludes fs n (pre ++ cur) = some out) (hpre : ∀ t ∈ pre, t.tok ≠ .tInclude)
    (hlast : EoiLast cur) : Ends (lang fs) cur := by
  induction n generalizing pre cur with
  | zero => cases hrun
  | succ n ih =>
    -- up to the first `include` the tokens are read one by one
    induction cur generalizing pre with
    | nil =>
      refine .of_not_reads fun x hx => ?_
      cases hx with
      | enter ho _ => cases ho
    | cons t ts ihts =>
      by_cases ht : t.tok = .tInclude
      · obtain ⟨x, hx, hxlast, hag⟩ | ⟨hbad, -⟩ := atInclude_spec fs pre ht hlast
        · rw [vccResolveIncludes, loop_include hpre ht, hag] at hrun
          exact (ih hrun hpre hxlast).of_reads hx
        · exact .of_not_reads fun x hx => hbad.not_reads hx
      · have hrun1 : vccResolveIncludes fs (n + 1) ((pre ++ [t]) ++ ts) = some out := by rwa [List.append_assoc]
        exact (ihts hrun1 (noInclude_snoc hpre ht) hlast.tail).of_reads (.skip ht)

/-- A file that can be read is one of those that there are. -/
theorem mem_of_load {fn : List UInt8} (h : (lang fs).load fn ≠ none) : fn ∈ fs.contents.map Prod.fst := by
  cases hf : fs.contents.find? fun c => c.1 = fn with
  | none => exact absurd (by simp only [lang, vreadfile, hf, Option.map_none, Option.bind_none]) h
  | some c =>
    have hc : c.1 = fn := by simpa using List.find?_some hf
    exact List.mem_map.2 ⟨c, List.mem_of_find?_eq_some hf, hc⟩

theorem ends_iff {ts : List Token} : Ends (lang fs) ts ↔ ¬ Cyclic (lang fs) ts := ends_iff_not_cyclic fun _ => mem_of_load

theorem not_resolves_of_cyclic {ts : List Token} (hlast : EoiLast ts) (h : Cyclic (lang fs) ts) : ¬ Resolves fs ts := by
  rintro ⟨n, out, hrun, -⟩
  have hrun0 : vccResolveIncludes fs n ([] ++ ts) = some out := hrun n le_rfl
  exact ends_iff.1 (ends_of_resolve hrun0 (by intro t ht; cases ht) hlast) h

theorem resolves_of_not_cyclic {ts : List Token} (hlast : EoiLast ts) (h : ¬ Cyclic (lang fs) ts) : Resolves fs ts := by
  obtain ⟨n, out, hrun, hout⟩ := resolve_of_ends [] (ends_iff.2 h) (by intro t ht; cases ht) hlast
  refine ⟨n, out, hrun, fun _ hno => ?_, fun hbad => ?_⟩
  · obtain hr | ⟨hf, -⟩ := hout
    · exact hr
    · exact absurd hf hno
  · obtain ⟨r, hr, -⟩ | ⟨-, herr⟩ := hout
    · obtain hc | hf := hbad
      · exact absurd hc h
      · exact absurd hf hr.not_fails
    · exact herr

theorem eoiLast_sourceTokens (sp dflt : Source) : EoiLast (sourceTokens sp dflt) := by
  intro x hx
  rw [sourceTokens, List.getLast?_concat] at hx
  cases hx
  rfl

end Calls

/-! ## Every source -/

/-- `vcc_resolve_includes` does what it should if and only if no file that is come to leads to itself. -/
theorem resolves_iff (fs : Files) (sp dflt : Source) :
    Resolves fs (sourceTokens sp dflt) ↔ ¬ Cyclic (lang fs) (sourceTokens sp dflt) :=
  ⟨fun h hc => not_resolves_of_cyclic (eoiLast_sourceTokens sp dflt) hc h, resolves_of_not_cyclic (eoiLast_sourceTokens sp dflt)⟩

/-- `include "a";` -/
def includeA : List UInt8 := text "include \"a\";"

theorem lex_of_eq {sp : Source} {toks : List Lexer.Token} {err : Option String} (h : vccLexer sp.text = some (toks, err)) :
    lexTokens sp = toks.map (fun t => ⟨t, sp⟩) ∧ lexError sp = err := by
  have hget : (vccLexer sp.text).get (vccLexer_isSome _) = (toks, err) := Option.some.inj ((Option.some_get _).trans h)
  constructor
  · rw [lexTokens, hget]
  · rw [lexError, hget]

theorem lex_includeA (name : List UInt8) : lexTokens ⟨name, includeA⟩ =
    [⟨⟨.tInclude, 0, 7, none⟩, ⟨name, includeA⟩⟩, ⟨⟨.cstr, 8, 11, some (text "a")⟩, ⟨name, includeA⟩⟩,
      ⟨⟨.chr (ch ';'), 11, 12, none⟩, ⟨name, includeA⟩⟩] ∧ lexError ⟨name, includeA⟩ = none := by
  have hlex : vccLexer includeA =
      some ([⟨.tInclude, 0, 7, none⟩, ⟨.cstr, 8, 11, some (text "a")⟩, ⟨.chr (ch ';'), 11, 12, none⟩], none) := by decide +kernel
  exact @lex_of_eq ⟨name, includeA⟩ _ _ hlex

/-- The file `a` includes itself, and so the calls go on for ever. -/
theorem include_cycle : ¬ ∃ dflt, Resolves ⟨[(text "a", includeA)], fun _ => text "No such file or directory"⟩
    (sourceTokens ⟨text "input", includeA⟩ dflt) := by
  rintro ⟨dflt, h⟩
  refine not_resolves_of_cyclic (eoiLast_sourceTokens _ dflt) ⟨text "a", lexTokens ⟨text "a", includeA⟩, ?_, ?_, ?_⟩ h
  · rw [sourceTokens, (lex_includeA _).1]
    exact ⟨_, _, .refl, .mk rfl rfl rfl⟩
  · have hsp : vccNewSource includeA (text "a") = ⟨text "a", includeA⟩ := by decide +kernel
    simp only [lang, vreadfile, List.find?_cons_of_pos, decide_true, Option.map_some, Option.bind_some, hsp, (lex_includeA _).2,
      if_pos]
  · rw [(lex_includeA _).1]
    exact ⟨_, _, .refl, .mk rfl rfl rfl⟩

end Varnish.Vcc.Include
