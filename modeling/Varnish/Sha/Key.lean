import Mathlib.Data.List.Basic
import Varnish.Sha.Stream

/-!
# Varnish.Sha.Key — what is hashed (cache_hash.c, cache_center.c, cli_auth.c)

* `cntHash`: the digest of a request, from the strings that `vcl_hash` adds.  `cntHash_eq`: it is the hash of their
  key text, and two requests have one key text exactly when their strings have the same fields between the `#`.
* `cliResponse`: the answer to a challenge.  `cliResponse_eq`: it does not depend on how the secret file is read.
-/

namespace Varnish.Sha

open Varnish.Lib

/-! ## The key of a request -/

section Key

/-- `HSH_AddString`, of a string or a `NULL`. -/
def hshAddString (ctx : Context) (str : Option (List UInt8)) : Context :=
  sha256Update (sha256Update ctx (str.getD [])) [35]

/-- The digest that `cnt_recv` leaves in `sp->digest`, where `vcl_hash` adds these strings. -/
def cntHash (buf : Vector UInt8 64) (strs : List (Option (List UInt8))) : List UInt8 :=
  sha256Final (strs.foldl hshAddString (sha256Init buf))

def keyText (ss : List (List UInt8)) : List UInt8 := ss.flatMap fun s => s ++ [35]

/-- What stands between the `#` of the strings. -/
def fields (ss : List (List UInt8)) : List (List UInt8) := ss.flatMap fun s => s.splitOn 35

theorem splitOn_cons (b : UInt8) (s : List UInt8) :
    ∃ p ps, s.splitOn 35 = p :: ps ∧ (b :: s).splitOn 35 = if b = 35 then [] :: p :: ps else (b :: p) :: ps := by
  obtain ⟨p, ps, hp⟩ := List.exists_cons_of_ne_nil (List.splitOn_ne_nil 35 s)
  refine ⟨p, ps, hp, ?_⟩
  rw [List.splitOn_cons_eq_if_modifyHead, hp]
  by_cases hb : b = 35
  · rw [if_pos hb, if_pos (by rw [hb]; rfl)]
  · rw [if_neg hb, if_neg (by simpa using hb), List.modifyHead_cons]

/-- A string and its fields make the same text. -/
theorem keyText_splitOn (s : List UInt8) : keyText (s.splitOn 35) = s ++ [35] := by
  induction s with
  | nil => rfl
  | cons b s ih =>
    obtain ⟨p, ps, hp, hs⟩ := splitOn_cons b s
    rw [hp] at ih
    rw [hs]
    by_cases hb : b = 35
    · rw [if_pos hb, keyText, List.flatMap_cons, List.nil_append]
      exact congrArg₂ List.cons hb.symm ih
    · rw [if_neg hb, keyText, List.flatMap_cons]
      exact congrArg (List.cons b) ih

/-- Splitting goes on behind a `#`. -/
theorem splitOn_append (s t : List UInt8) : (s ++ 35 :: t).splitOn 35 = s.splitOn 35 ++ t.splitOn 35 := by
  induction s with
  | nil =>
    obtain ⟨p, ps, hp, hs⟩ := splitOn_cons 35 t
    rw [List.nil_append, hs, if_pos rfl, hp, List.splitOn_nil]
    rfl
  | cons b s ih =>
    obtain ⟨p, ps, hp, hs⟩ := splitOn_cons b s
    obtain ⟨q, qs, hq, hst⟩ := splitOn_cons b (s ++ 35 :: t)
    rw [ih, hp, List.cons_append, List.cons.injEq] at hq
    rw [List.cons_append, hst, hs]
    by_cases hb : b = 35
    · rw [if_pos hb, if_pos hb, ← hq.1, ← hq.2]
      rfl
    · rw [if_neg hb, if_neg hb, ← hq.1, ← hq.2]
      rfl

theorem keyText_fields (ss : List (List UInt8)) : keyText (fields ss) = keyText ss := by
  induction ss with
  | nil => rfl
  | cons s ss ih =>
    rw [fields, List.flatMap_cons, keyText, List.flatMap_append]
    exact congrArg₂ (· ++ ·) (keyText_splitOn s) ih

/-- The fields can be read off the key text. -/
theorem splitOn_keyText (ss : List (List UInt8)) : (keyText ss).splitOn 35 = fields ss ++ [[]] := by
  induction ss with
  | nil => rfl
  | cons s ss ih =>
    have hcons : keyText (s :: ss) = s ++ 35 :: keyText ss := by
      rw [keyText, List.flatMap_cons, List.append_assoc]
      rfl
    have hfields : fields (s :: ss) = s.splitOn 35 ++ fields ss := List.flatMap_cons
    rw [hcons, splitOn_append, ih, hfields, List.append_assoc]

theorem keyText_eq_iff (ss ss' : List (List UInt8)) : keyText ss = keyText ss' ↔ fields ss = fields ss' := by
  constructor
  · intro h
    have hs := congrArg (List.splitOn 35) h
    rw [splitOn_keyText, splitOn_keyText] at hs
    exact List.append_cancel_right hs
  · intro h
    rw [← keyText_fields ss, h, keyText_fields]

/-- The pieces that `HSH_AddString` gives to the hash. -/
theorem foldl_hshAddString (ctx : Context) (strs : List (Option (List UInt8))) :
    strs.foldl hshAddString ctx = (strs.flatMap fun s => [s.getD [], [35]]).foldl sha256Update ctx := by
  induction strs generalizing ctx with
  | nil => rfl
  | cons s strs ih =>
    rw [List.foldl_cons, ih]
    rfl

/-- The digest is the standard's hash of the key text, and the key text tells the fields and is told by them. -/
theorem cntHash_eq (buf : Vector UInt8 64) (strs strs' : List (Option (List UInt8))) :
    cntHash buf strs = Fips.sha256 (keyText (strs.map fun s => s.getD [])) ∧
      (keyText (strs.map fun s => s.getD []) = keyText (strs'.map fun s => s.getD []) ↔
        fields (strs.map fun s => s.getD []) = fields (strs'.map fun s => s.getD [])) := by
  refine ⟨?_, keyText_eq_iff _ _⟩
  rw [cntHash, foldl_hshAddString, final_eq]
  congr 1
  rw [keyText, List.flatMap_map]
  induction strs with
  | nil => rfl
  | cons s strs ih =>
    rw [List.flatMap_cons, List.flatMap_cons, List.flatten_append, ih]
    simp

end Key

/-! ## The answer to a challenge -/

section Response

/-- The reads of the secret file, up to the first that gives nothing. -/
def readSecret (ctx : Context) : (reads : List (List UInt8)) → Context
  | [] => ctx
  | r :: reads => if r = [] then ctx else readSecret (sha256Update ctx r) reads

def hexDigit (n : UInt8) : UInt8 := if n < 10 then 48 + n else 87 + n

/-- `%02x`. -/
def hex2 (b : UInt8) : List UInt8 := [hexDigit (b >>> 4), hexDigit (b &&& 15)]

/-- `CLI_response`: the text that it leaves in `response`, in front of the NUL. -/
def cliResponse (buf : Vector UInt8 64) (challenge : List UInt8) (reads : List (List UInt8)) : List UInt8 :=
  let ctx := sha256Update (sha256Update (sha256Init buf) (challenge.take 32)) [10]
  let ctx := readSecret ctx reads
  (sha256Final (sha256Update (sha256Update ctx (challenge.take 32)) [10])).flatMap hex2

theorem readSecret_eq (ctx : Context) (reads : List (List UInt8)) :
    readSecret ctx reads = (reads.takeWhile (· ≠ [])).foldl sha256Update ctx := by
  induction reads generalizing ctx with
  | nil => rfl
  | cons r reads ih =>
    rw [readSecret]
    by_cases hr : r = []
    · rw [if_pos hr, List.takeWhile_cons_of_neg (by simpa using hr)]
      rfl
    · rw [if_neg hr, ih, List.takeWhile_cons_of_pos (by simpa using hr)]
      rfl

/-- The response is the standard's hash of the challenge, the secret and the challenge again, however the secret file
comes in. -/
theorem cliResponse_eq (buf : Vector UInt8 64) (challenge : List UInt8) (reads : List (List UInt8)) :
    cliResponse buf challenge reads = (Fips.sha256 (challenge.take 32 ++ [10] ++ (reads.takeWhile (· ≠ [])).flatten ++
      challenge.take 32 ++ [10])).flatMap hex2 := by
  have h := final_eq buf ([challenge.take 32, [10]] ++ reads.takeWhile (· ≠ []) ++ [challenge.take 32, [10]])
  rw [List.foldl_append, List.foldl_append] at h
  simp only [List.foldl_cons, List.foldl_nil] at h
  rw [cliResponse, readSecret_eq, h]
  simp

end Response

end Varnish.Sha
