import Varnish.Vcc.Conditional

/-!
# Varnish.Vcc.Branches — the C text of an `if` means what the `if` means

* `cMachine`: the machine of VCL, where `VRT_count` keeps a list of what it has counted and does nothing else.
* `cond0_means`, `conditional_means`: a condition and its text are true in the same states, and leave the same state.
* `ifStmt_means`: the same for statements.
-/

namespace Varnish.Vcc.Conditional

open Varnish.Lib Varnish.Lib.CText

/-! ## The machine of the text -/

section Machines

variable {σ : Type}

def cMachine (M : Machine String String σ) : Machine Prim String (σ × List ℕ) where
  Val := M.Val
  truth := M.truth
  ofBool := M.ofBool
  truth_ofBool := M.truth_ofBool
  prim
    | .count n, x => (M.ofBool false, (x.1, x.2 ++ [n]))
    | .text p, x => ((M.prim p x.1).1, ((M.prim p x.1).2, x.2))
  cmp := M.cmp
  stmt a x := ((M.stmt a x.1).1, ((M.stmt a x.1).2, x.2))

abbrev CStmt := CText.Stmt Prim String

/-- A test or a statement of VCL. -/
abbrev Run := ∀ {σ : Type}, Machine String String σ → σ → Bool × σ

/-- The same answer and the same state, but for what was counted. -/
def Follows (r : Bool × (σ × List ℕ)) (q : Bool × σ) : Prop := r.1 = q.1 ∧ r.2.1 = q.2

/-- An expression of C has the truth of a test of VCL. -/
def Means (e : Expr Prim) (c : Run) : Prop :=
  ∀ (σ : Type) (M : Machine String String σ) (x : σ × List ℕ), Follows (e.test (cMachine M) x) (c M x.1)

theorem means_ask (p : String) : Means (.prim (.text p)) (fun M => ask M false p) := by
  intro σ M x
  exact ⟨(Bool.false_xor _).symm, rfl⟩

theorem means_ask_not (p : String) : Means (.not (.prim (.text p))) (fun M => ask M true p) := by
  intro σ M x
  exact ⟨(M.truth_ofBool _).trans (Bool.true_xor _).symm, rfl⟩

theorem means_compare {op : BinOp} (hop : 3 ≤ op.level) (l r : String) :
    Means (.bin op (.prim (.text l)) (.prim (.text r))) (fun M => compare M op l r) := by
  intro σ M x
  cases op with
  | comma => exact absurd hop (by decide)
  | lor => exact absurd hop (by decide)
  | land => exact absurd hop (by decide)
  | _ => exact ⟨M.truth_ofBool _, rfl⟩

theorem Means.not {e : Expr Prim} {c : Cond} (h : Means e fun M => c.eval M) :
    Means (.not e) fun M => (Cond.not c).eval M := by
  intro σ M x
  obtain ⟨h1, h2⟩ := h σ M x
  rw [Expr.test_not]
  exact ⟨congrArg Bool.not h1, h2⟩

/-- The counter in front of a condition. -/
theorem Means.counted {e : Expr Prim} {c : Cond} (h : Means e fun M => c.eval M) (n : ℕ) :
    Means (.bin .comma (.prim (.count n)) e) fun M => c.eval M := by
  intro σ M x
  exact h σ M (x.1, x.2 ++ [n])

theorem Means.and {e f : Expr Prim} {a b : Cond} (ha : Means e fun M => a.eval M) (hb : Means f fun M => b.eval M) :
    Means (.bin .land e f) fun M => (Cond.and a b).eval M := by
  intro σ M x
  obtain ⟨h1, h2⟩ := ha σ M x
  have h3 := hb σ M (e.test (cMachine M) x).2
  show Follows _ (if (a.eval M x.1).1 then b.eval M (a.eval M x.1).2 else (false, (a.eval M x.1).2))
  rw [Expr.test_land, ← h1, ← h2]
  split
  · exact h3
  · exact ⟨rfl, rfl⟩

theorem Means.or {e f : Expr Prim} {a b : Cond} (ha : Means e fun M => a.eval M) (hb : Means f fun M => b.eval M) :
    Means (.bin .lor e f) fun M => (Cond.or a b).eval M := by
  intro σ M x
  obtain ⟨h1, h2⟩ := ha σ M x
  have h3 := hb σ M (e.test (cMachine M) x).2
  show Follows _ (if (a.eval M x.1).1 then (true, (a.eval M x.1).2) else b.eval M (a.eval M x.1).2)
  rw [Expr.test_lor, ← h1, ← h2]
  split
  · exact ⟨rfl, rfl⟩
  · exact h3

end Machines

/-! ## The conditions -/

section Conditions

variable {S : Type} {V : Callees S}

theorem head_cons {ts : List Token} {t : Token} (h : ts.head? = some t) : ts = t :: ts.tail := by
  obtain ⟨us, rfl⟩ := List.head?_eq_some_iff.1 h
  rfl

theorem skipToken_spec {k : Lexer.Tok} {tl tl' : TokenList S} (h : skipToken k tl = some tl') :
    ∃ t, tl.t = t :: tl'.t ∧ t.tok = k := by
  simp only [skipToken, Option.bind_eq_bind, Option.bind_eq_some_iff] at h
  obtain ⟨t, ht, h⟩ := h
  split at h
  · rename_i htok
    obtain rfl := Option.some.inj h
    exact ⟨t, head_cons ht, htok⟩
  · cases h

theorem taken_take (n : ℕ) (ts : List Token) : Taken n (ts.take n) (ts.drop n) := by
  rw [Taken, List.take_append_drop]

theorem reads_bang (b : Bool) (p : Prim) :
    Reads 0 (bang b ++ [.prim p] : List CTok) (if b then .not (.prim p) else .prim p) := by
  cases b with
  | false => exact (ReadsUnary.prim p).lower (Nat.zero_le _)
  | true => exact (ReadsUnary.prim p).not.lower (Nat.zero_le _)

theorem reads_compare {op : BinOp} (hop : 3 ≤ op.level) (l r : String) :
    Reads 0 ([.prim (.text l), .bin op, .prim (.text r)] : List CTok) (.bin op (.prim (.text l)) (.prim (.text r))) := by
  have hmax : op.level + 1 ≤ unaryLevel := by cases op <;> decide
  have hread := ((ReadsUnary.prim (A := String) (Prim.text l)).lower hmax).bin ((ReadsUnary.prim (.text r)).lower hmax)
  exact hread.lower (Nat.zero_le _) (Nat.le_of_succ_le hmax)

/-- The text of a comparison behind its variable. -/
def Compares (V : Callees S) (vp : Var) (tl : TokenList S) (r : List CTok × TokenList S) : Prop :=
  ∃ (vs : List Token) (a : Atom) (e : Expr Prim),
    tl.t = vs ++ r.2.t ∧ (∀ v : Token, v.names V vp → Spelled V (v :: vs) a) ∧ Reads 0 r.1 e ∧ Means e fun M => a.eval M

theorem operator_of_intOp {k : Lexer.Tok} {op : BinOp} (h : intOp k = some op) : Operator k op := by
  unfold intOp at h
  split at h
  case h_1 => exact Option.some.inj h ▸ .eq
  case h_2 => exact Option.some.inj h ▸ .ne
  case h_3 => exact Option.some.inj h ▸ .le
  case h_4 => exact Option.some.inj h ▸ .ge
  case h_5 =>
    split at h
    · rename_i hk
      exact hk ▸ Option.some.inj h ▸ .gt
    · split at h
      · rename_i hk
        exact hk ▸ Option.some.inj h ▸ .lt
      · cases h

theorem Operator.level {k : Lexer.Tok} {op : BinOp} (h : Operator k op) : 3 ≤ op.level := by
  cases h <;> decide

theorem condInt_spec {vp : Var} {tl : TokenList S} {r : List CTok × TokenList S} (h : condInt V vp tl = some r)
    (hfmt : vp.fmt = .int ∨ vp.fmt = .size ∨ vp.fmt = .time ∨ vp.fmt = .rtime) : Compares V vp tl r := by
  simp only [condInt, Option.bind_eq_bind, Option.bind_eq_some_iff, Option.some.injEq] at h
  obtain ⟨t, ht, op, hop, q, hq, rfl⟩ := h
  have htl := head_cons ht
  have hoper := operator_of_intOp hop
  refine ⟨t :: tl.next.t.take q.1, .number vp op q.2.1, _, ?_, ?_, reads_compare hoper.level _ _,
    means_compare hoper.level _ _⟩
  · rw [htl, List.cons_append]
    exact congrArg (t :: ·) (List.take_append_drop _ _).symm
  · intro v hv
    have hval : V.varVal vp.fmt tl.st (tl.next.t.take q.1 ++ tl.next.t.drop q.1) = some q := by
      rw [List.take_append_drop]
      exact hq
    exact .number hv hfmt hoper hval (taken_take _ _)

theorem condBool_spec {vp : Var} {tl : TokenList S} {r : List CTok × TokenList S} (h : condBool vp tl = some r)
    (hfmt : vp.fmt = .bool) : Compares V vp tl r := by
  obtain rfl := Option.some.inj h
  refine ⟨[], .bool vp, _, rfl, fun v hv => .bool hv hfmt, ?_, means_ask _⟩
  exact reads_bang false _

/-- `==` or `!=`, and what the parser makes of it. -/
theorem neg_of_eq_or_ne {k : Lexer.Tok} (h : k = .tEq ∨ k = .tNeq) :
    ∃ neg : Bool, k = (if neg then .tNeq else .tEq) ∧ decide (k = .tNeq) = neg ∧ decide (k = .tEq) = !neg ∧
      (if k = .tEq then BinOp.eq else BinOp.ne) = if neg then .ne else .eq := by
  rcases h with rfl | rfl
  · exact ⟨false, by decide⟩
  · exact ⟨true, by decide⟩

theorem took_one {tl : TokenList S} {u : Token} (hu : tl.t.head? = some u) (st : S) : tl.t = u :: (tl.took 1 st).t := by
  rw [head_cons hu]
  exact congrArg (u :: ·) List.drop_one.symm

theorem condBackend_spec {vp : Var} {tl : TokenList S} {r : List CTok × TokenList S} (h : condBackend V vp tl = some r)
    (hfmt : vp.fmt = .backend) : Compares V vp tl r := by
  simp only [condBackend, Option.bind_eq_bind, Option.bind_eq_some_iff] at h
  obtain ⟨t, ht, u, hu, h⟩ := h
  split at h
  · rename_i hcond
    obtain ⟨hop, hid, -⟩ := hcond
    obtain rfl := Option.some.inj h
    obtain ⟨neg, hneg, -, -, hbin⟩ := neg_of_eq_or_ne hop
    have hlevel : 3 ≤ (if neg then BinOp.ne else BinOp.eq).level := by cases neg <;> decide
    rw [hbin]
    refine ⟨[t, u], .backend vp neg u.text, _, ?_, fun v hv => .backend hv hfmt hneg hid, reads_compare hlevel _ _,
      means_compare hlevel _ _⟩
    rw [head_cons ht]
    exact congrArg (t :: ·) (took_one hu _)
  · cases h

theorem means_ask_bool (neg : Bool) (p : String) :
    Means (if neg then .not (.prim (.text p)) else .prim (.text p)) (fun M => ask M neg p) := by
  cases neg with
  | false => exact means_ask p
  | true => exact means_ask_not p

theorem condString_spec {vp : Var} {tl : TokenList S} {r : List CTok × TokenList S} (h : condString V vp tl = some r)
    (hfmt : vp.fmt = .string) : Compares V vp tl r := by
  simp only [condString, Option.bind_eq_bind, Option.bind_eq_some_iff] at h
  obtain ⟨t, ht, h⟩ := h
  split at h
  · rename_i hop
    simp only [Option.bind_eq_some_iff] at h
    obtain ⟨u, hu, h⟩ := h
    split at h
    · rename_i hcstr
      simp only [Option.bind_eq_some_iff, Option.some.injEq] at h
      obtain ⟨q, hq, rfl⟩ := h
      have hneg : t.tok = (if decide (t.tok = .tNomatch) then .tNomatch else chr '~') := by
        rcases hop with hop | hop <;> rw [hop] <;> decide
      refine ⟨[t, u], .regex vp (decide (t.tok = .tNomatch)) q.1, _, ?_, fun v hv => .regex hv hfmt hneg hcstr hq,
        reads_bang _ _, means_ask_bool _ _⟩
      rw [head_cons ht]
      exact congrArg (t :: ·) (took_one hu _)
    · cases h
  · split at h
    · rename_i hop
      simp only [Option.bind_eq_some_iff, Option.some.injEq] at h
      obtain ⟨q, hq, rfl⟩ := h
      obtain ⟨neg, hneg, -, hdec, -⟩ := neg_of_eq_or_ne hop
      have hval : V.stringVal tl.st (tl.next.t.take q.1 ++ tl.next.t.drop q.1) = some q := by
        rw [List.take_append_drop]
        exact hq
      rw [hdec]
      refine ⟨t :: tl.next.t.take q.1, .string vp neg q.2.1, _, ?_,
        fun v hv => .string hv hfmt hneg hval (taken_take _ _), reads_bang _ _, means_ask_bool _ _⟩
      rw [head_cons ht, List.cons_append]
      exact congrArg (t :: ·) (List.take_append_drop _ _).symm
    · obtain rfl := Option.some.inj h
      exact ⟨[], .present vp, _, rfl, fun v hv => .present hv hfmt, reads_compare (by decide) _ _,
        means_compare (by decide) _ _⟩

theorem condIp_spec {vp : Var} {tl : TokenList S} {r : List CTok × TokenList S} (h : condIp V vp tl = some r)
    (hfmt : vp.fmt = .ip) : Compares V vp tl r := by
  simp only [condIp, Option.bind_eq_bind, Option.bind_eq_some_iff] at h
  obtain ⟨t, ht, h⟩ := h
  split at h
  · rename_i hop
    simp only [Option.bind_eq_some_iff] at h
    obtain ⟨u, hu, h⟩ := h
    split at h
    · rename_i hid
      obtain rfl := Option.some.inj h
      refine ⟨[t, u], .acl vp u.text, _, ?_, fun v hv => .acl hv hfmt hop hid, reads_bang false _, means_ask _⟩
      rw [head_cons ht]
      exact congrArg (t :: ·) (took_one hu _)
    · cases h
  · split at h
    · rename_i hop
      simp only [Option.bind_eq_some_iff, Option.some.injEq] at h
      obtain ⟨q, hq, rfl⟩ := h
      obtain ⟨neg, hneg, hdec, -, -⟩ := neg_of_eq_or_ne hop
      have hval : V.aclEntry tl.cnt tl.st (tl.next.t.take q.1 ++ tl.next.t.drop q.1) = some q := by
        rw [List.take_append_drop]
        exact hq
      rw [hdec]
      refine ⟨t :: tl.next.t.take q.1, .aclEntry vp neg tl.cnt, _, ?_,
        fun v hv => .aclEntry hv hfmt hneg hval (taken_take _ _), reads_bang _ _, means_ask_bool _ _⟩
      rw [head_cons ht, List.cons_append]
      exact congrArg (t :: ·) (List.take_append_drop _ _).symm
    · cases h

/-- What is known of the value of each type of variable. -/
theorem condVar_spec {vp : Var} {tl : TokenList S} {r : List CTok × TokenList S} (h : condVar V vp tl = some r) :
    Compares V vp tl r := by
  unfold condVar at h
  split at h
  case h_1 hfmt => exact condInt_spec h (.inl hfmt)
  case h_2 hfmt => exact condInt_spec h (.inr (.inl hfmt))
  case h_3 hfmt => exact condBool_spec h hfmt
  case h_4 hfmt => exact condIp_spec h hfmt
  case h_5 hfmt => exact condString_spec h hfmt
  case h_6 hfmt => exact condInt_spec h (.inr (.inr (.inl hfmt)))
  case h_7 hfmt => exact condInt_spec h (.inr (.inr (.inr hfmt)))
  case h_8 hfmt => exact condBackend_spec h hfmt
  case h_9 => cases h

/-- The text at a level of C is a condition of a level of VCL. -/
def Writes (V : Callees S) (k : Level) (l : ℕ) (tl : TokenList S) (r : List CTok × TokenList S) : Prop :=
  ∃ (ts : List Token) (c : Cond) (e : Expr Prim),
    tl.t = ts ++ r.2.t ∧ Derives V k ts c ∧ Reads l r.1 e ∧ Means e fun M => c.eval M

/-- The text of a loop goes on with the condition in front of it, whose last parenthesis is still open. -/
def Extends (V : Callees S) (k : Level) (l : ℕ) (tl : TokenList S) (r : List CTok × TokenList S) : Prop :=
  ∀ (us : List Token) (acc : List CTok) (a : Cond) (e : Expr Prim), Derives V k us a → LeftSide l (acc ++ [.rpar]) e →
    (Means e fun M => a.eval M) → ∃ (ts : List Token) (c : Cond) (f : Expr Prim),
      tl.t = ts ++ r.2.t ∧ Derives V k (us ++ ts) c ∧ LeftSide l (acc ++ r.1 ++ [.rpar]) f ∧ Means f fun M => c.eval M

/-- The functions with `n` levels of calls. -/
structure Spec (V : Callees S) (n : ℕ) : Prop where
  cond2 : ∀ tl r, cond2 V n tl = some r → Writes V .negation 0 tl r
  body : ∀ tl r, cond2Body V n tl = some r → Writes V .primary 0 tl r
  cond1 : ∀ tl r, cond1 V n tl = some r → Writes V .conjunction 2 tl r
  loop1 : ∀ tl r, cond1Loop V n tl = some r → Extends V .conjunction 2 tl r
  cond0 : ∀ tl r, cond0 V n tl = some r → Writes V .disjunction 1 tl r
  loop0 : ∀ tl r, cond0Loop V n tl = some r → Extends V .disjunction 1 tl r

variable {n : ℕ} {tl : TokenList S} {r : List CTok × TokenList S}

theorem reads_inParens {ts : List CTok} {e : Expr Prim} {l m : ℕ} (h : Reads l ts e) (hl : l ≤ unaryLevel)
    (hm : m ≤ unaryLevel) : Reads m (.lpar :: ts ++ [.rpar]) e :=
  (ReadsUnary.paren (h.lower (Nat.zero_le _) hl)).lower hm

/-- The counter in front of a condition. -/
theorem reads_counted (k : ℕ) {ts : List CTok} {e : Expr Prim} (h : ReadsUnary ts e) :
    Reads 0 (.prim (.count k) :: .bin .comma :: ts) (.bin .comma (.prim (.count k)) e) := by
  have hleft : Reads (BinOp.comma.level + 1) ([.prim (.count k)] : List CTok) (.prim (.count k)) :=
    (ReadsUnary.prim _).lower (by decide)
  exact hleft.bin (h.lower (by decide))

theorem Spec.writes_cond2 (hn : Spec V n) (h : Conditional.cond2 V (n + 1) tl = some r) : Writes V .negation 0 tl r := by
  simp only [Conditional.cond2, Option.bind_eq_bind, Option.bind_eq_some_iff, Option.some.injEq] at h
  obtain ⟨t, ht, q, hq, rfl⟩ := h
  obtain ⟨ts, c, e, hts, hderiv, hread, hmean⟩ := hn.body _ _ hq
  have hparen := ReadsUnary.paren hread
  by_cases hneg : t.tok = chr '!'
  · rw [decide_eq_true hneg, if_pos rfl] at hts
    rw [decide_eq_true hneg]
    refine ⟨t :: ts, .not c, _, ?_, .not hneg hderiv, reads_counted _ hparen.not, (Means.not hmean).counted _⟩
    rw [head_cons ht]
    exact congrArg (t :: ·) hts
  · rw [decide_eq_false hneg, if_neg Bool.false_ne_true] at hts
    rw [decide_eq_false hneg]
    exact ⟨ts, c, _, hts, .plain hderiv, reads_counted _ hparen, hmean.counted _⟩

theorem Spec.writes_body (hn : Spec V n) (h : cond2Body V (n + 1) tl = some r) : Writes V .primary 0 tl r := by
  simp only [cond2Body, Option.bind_eq_bind, Option.bind_eq_some_iff] at h
  obtain ⟨t, ht, h⟩ := h
  split at h
  · rename_i hpar
    simp only [Option.bind_eq_some_iff, Option.some.injEq] at h
    obtain ⟨q, hq, tl', hskip, rfl⟩ := h
    obtain ⟨ts, c, e, hts, hderiv, hread, hmean⟩ := hn.cond0 _ _ hq
    obtain ⟨u, hu, hclose⟩ := skipToken_spec hskip
    refine ⟨t :: ts ++ [u], c, e, ?_, .paren hpar hclose hderiv, hread.lower (Nat.zero_le _) (by decide), hmean⟩
    have hrest : tl.next.t = ts ++ ([u] ++ tl'.t) := by
      rw [hts, hu]
      rfl
    rw [head_cons ht, List.cons_append, List.cons_append, List.append_assoc]
    exact congrArg (t :: ·) hrest
  · split at h
    · rename_i hvar
      simp only [Option.bind_eq_some_iff] at h
      obtain ⟨q, hq, h⟩ := h
      obtain ⟨vs, a, e, hvs, hspell, hread, hmean⟩ := condVar_spec h
      refine ⟨t :: vs, .atom a, e, ?_, .atom (hspell t ⟨hvar, _, _, hq⟩), hread, hmean⟩
      rw [took_one ht q.2, hvs, List.cons_append]
    · cases h

/-- A condition and the loop behind it. -/
theorem Writes.extend {k : Level} {l m : ℕ} {tl' : TokenList S} {o os : List CTok} {tl'' : TokenList S}
    (h : Writes V k m tl (o, tl')) (hext : Extends V k l tl' (os, tl'')) (hm : m ≤ unaryLevel) (hl : l < unaryLevel) :
    Writes V k l tl (.lpar :: o ++ os ++ [.rpar], tl'') := by
  obtain ⟨us, a, e, hus, hderiv, hread, hmean⟩ := h
  obtain ⟨ts, c, f, hts, hderiv', hread', hmean'⟩ := hext us (.lpar :: o) a e hderiv 
    ((reads_inParens hread hm (Nat.le_of_lt_succ (Nat.succ_lt_succ hl))).leftSide hl) hmean
  refine ⟨us ++ ts, c, f, ?_, hderiv', hread'.reads, hmean'⟩
  rw [hus, hts, List.append_assoc]

theorem Spec.writes_cond1 (hn : Spec V n) (h : Conditional.cond1 V (n + 1) tl = some r) : Writes V .conjunction 2 tl r := by
  simp only [Conditional.cond1, Option.bind_eq_bind, Option.bind_eq_some_iff, Option.some.injEq] at h
  obtain ⟨q, hq, q', hq', rfl⟩ := h
  obtain ⟨ts, c, e, hts, hderiv, hread, hmean⟩ := hn.cond2 _ _ hq
  have hsingle : Writes V .conjunction 0 tl q := ⟨ts, c, e, hts, .single hderiv, hread, hmean⟩
  exact hsingle.extend (hn.loop1 _ _ hq') (by decide) (by decide)

theorem Spec.writes_cond0 (hn : Spec V n) (h : Conditional.cond0 V (n + 1) tl = some r) : Writes V .disjunction 1 tl r := by
  simp only [Conditional.cond0, Option.bind_eq_bind, Option.bind_eq_some_iff, Option.some.injEq] at h
  obtain ⟨q, hq, q', hq', rfl⟩ := h
  obtain ⟨ts, c, e, hts, hderiv, hread, hmean⟩ := hn.cond1 _ _ hq
  have hone : Writes V .disjunction 2 tl q := ⟨ts, c, e, hts, .one hderiv, hread, hmean⟩
  exact hone.extend (hn.loop0 _ _ hq') (by decide) (by decide)

/-- The end of a loop. -/
theorem extends_nil (V : Callees S) (k : Level) (l : ℕ) (tl : TokenList S) : Extends V k l tl ([], tl) := by
  intro us acc a e hderiv hread hmean
  refine ⟨[], a, e, rfl, ?_, ?_, hmean⟩
  · rw [List.append_nil]
    exact hderiv
  · rw [List.append_nil]
    exact hread

/-- One more operand: `) op (` and its text. -/
theorem Extends.cons (op : BinOp) {k : Level} {m : ℕ} {t : Token} {tl' tl'' : TokenList S} {o os : List CTok}
    {join : Cond → Cond → Cond} {k' : Level} (ht : tl.t.head? = some t) (h : Writes V k' m tl.next (o, tl'))
    (hext : Extends V k op.level tl' (os, tl'')) (hm : m ≤ unaryLevel) (hop : op.level < unaryLevel)
    (hderiv : ∀ {us vs : List Token} {a b : Cond}, Derives V k us a → Derives V k' vs b →
      Derives V k (us ++ t :: vs) (join a b))
    (hmean : ∀ {a b : Cond} {e f : Expr Prim}, (Means e fun M => a.eval M) → (Means f fun M => b.eval M) →
      Means (.bin op e f) fun M => (join a b).eval M) :
    Extends V k op.level tl (.rpar :: .bin op :: .lpar :: o ++ os, tl'') := by
  intro us acc a e hda hra hma
  obtain ⟨ts, b, f, hts, hdb, hrb, hmb⟩ := h
  have hchain : LeftSide op.level ((acc ++ .rpar :: .bin op :: .lpar :: o) ++ [.rpar]) (.bin op e f) := by
    have hsnoc := hra.snoc (reads_inParens hrb hm hop) rfl
    simpa only [List.append_assoc, List.cons_append, List.nil_append] using hsnoc
  obtain ⟨vs, c, g, hvs, hdc, hrc, hmc⟩ := hext _ _ _ _ (hderiv hda hdb) hchain (hmean hma hmb)
  refine ⟨t :: ts ++ vs, c, g, ?_, ?_, ?_, hmc⟩
  · have hrest : tl.next.t = ts ++ (vs ++ tl''.t) := by
      rw [hts, hvs]
    rw [head_cons ht, List.cons_append, List.cons_append, List.append_assoc]
    exact congrArg (t :: ·) hrest
  · simpa only [List.append_assoc, List.cons_append] using hdc
  · simpa only [List.append_assoc, List.cons_append] using hrc

theorem Spec.extends_loop1 (hn : Spec V n) (h : cond1Loop V (n + 1) tl = some r) : Extends V .conjunction 2 tl r := by
  simp only [cond1Loop, Option.bind_eq_bind, Option.bind_eq_some_iff] at h
  obtain ⟨t, ht, h⟩ := h
  split at h
  · rename_i hand
    simp only [Option.bind_eq_some_iff, Option.some.injEq] at h
    obtain ⟨q, hq, q', hq', rfl⟩ := h
    exact Extends.cons .land ht (hn.cond2 _ _ hq) (hn.loop1 _ _ hq') (by decide) (by decide) (.and hand) Means.and
  · obtain rfl := Option.some.inj h
    exact extends_nil V _ _ _

theorem Spec.extends_loop0 (hn : Spec V n) (h : cond0Loop V (n + 1) tl = some r) : Extends V .disjunction 1 tl r := by
  simp only [cond0Loop, Option.bind_eq_bind, Option.bind_eq_some_iff] at h
  obtain ⟨t, ht, h⟩ := h
  split at h
  · rename_i hor
    simp only [Option.bind_eq_some_iff, Option.some.injEq] at h
    obtain ⟨q, hq, q', hq', rfl⟩ := h
    exact Extends.cons .lor ht (hn.cond1 _ _ hq) (hn.loop0 _ _ hq') (by decide) (by decide) (.or hor) Means.or
  · obtain rfl := Option.some.inj h
    exact extends_nil V _ _ _

theorem spec (V : Callees S) (n : ℕ) : Spec V n := by
  induction n with
  | zero =>
    refine ⟨?_, ?_, ?_, ?_, ?_, ?_⟩ <;>
      · intro tl r h
        cases h
  | succ n ih =>
    refine ⟨?_, ?_, ?_, ?_, ?_, ?_⟩ <;> intro tl r h
    · exact ih.writes_cond2 h
    · exact ih.writes_body h
    · exact ih.writes_cond1 h
    · exact ih.extends_loop1 h
    · exact ih.writes_cond0 h
    · exact ih.extends_loop0 h

/-- A condition of an `if`, in its parentheses. -/
theorem conditional_means (h : conditional V n tl = some r) :
    ∃ (cs : List Token) (c : Cond) (o : List CTok) (e : Expr Prim), tl.t = cs ++ r.2.t ∧ InParens V cs c ∧
      r.1 = .lpar :: o ++ [.rpar] ∧ Reads 0 o e ∧ Means e fun M => c.eval M := by
  simp only [conditional, Option.bind_eq_bind, Option.bind_eq_some_iff, Option.some.injEq] at h
  obtain ⟨tl₁, hopen, q, hq, tl₂, hclose, rfl⟩ := h
  obtain ⟨t, ht, htok⟩ := skipToken_spec hopen
  obtain ⟨u, hu, hutok⟩ := skipToken_spec hclose
  obtain ⟨ts, c, e, hts, hderiv, hread, hmean⟩ := (spec V n).cond0 _ _ hq
  refine ⟨t :: ts ++ [u], c, q.1, e, ?_, ⟨t, u, ts, rfl, htok, hutok, hderiv⟩, rfl,
    hread.lower (Nat.zero_le _) (by decide), hmean⟩
  rw [ht, hts, hu]
  simp only [List.cons_append, List.append_assoc, List.nil_append]

end Conditions

/-! ## The statements -/

section Statements

variable {S : Type} {V : Callees S}

/-- A statement of C does what a piece of VCL does. -/
def Executes (s : CStmt) (f : Run) : Prop :=
  ∀ (σ : Type) (M : Machine String String σ) (x : σ × List ℕ), Follows (s.exec (cMachine M) x) (f M x.1)

/-- The counters of the text leave no trace in VCL. -/
def Idle (s : CStmt) : Prop := Executes s fun _ x => (false, x)

theorem Follows.andThen {σ : Type} {r : Bool × (σ × List ℕ)} {q : Bool × σ} {k : σ × List ℕ → Bool × (σ × List ℕ)}
    {l : σ → Bool × σ} (h : Follows r q) (hk : ∀ x, Follows (k x) (l x.1)) : Follows (andThen r k) (andThen q l) := by
  obtain ⟨h1, h2⟩ := h
  unfold CText.andThen
  rw [← h1, ← h2]
  split
  · exact ⟨h1, h2⟩
  · exact hk r.2

theorem idle_count (n : ℕ) : Idle (CText.Stmt.seqs [.expr (.prim (.count n))] .skip) := fun _ _ _ => ⟨rfl, rfl⟩

theorem executes_append {ss ss' : List CStmt} {f g : Run}
    (h : Executes (CText.Stmt.seqs ss .skip) f) (h' : Executes (CText.Stmt.seqs ss' .skip) g) :
    Executes (CText.Stmt.seqs (ss ++ ss') .skip) fun M x => andThen (f M x) (g M) := by
  intro σ M x
  rw [CText.Stmt.exec_seqs_append]
  exact (h σ M x).andThen (h' σ M)

theorem executes_append_idle {ss ss' : List CStmt} {f : Run}
    (h : Executes (CText.Stmt.seqs ss .skip) f) (h' : Idle (CText.Stmt.seqs ss' .skip)) :
    Executes (CText.Stmt.seqs (ss ++ ss') .skip) f := by
  intro σ M x
  have hboth : Follows _ (andThen (f M x.1) fun x => (false, x)) := executes_append h h' σ M x
  rwa [andThen_skip] at hboth

theorem executes_single {s : CStmt} {f : Run} (h : Executes s f) :
    Executes (CText.Stmt.seqs [s] .skip) f := by
  intro σ M x
  have hskip : (CText.Stmt.seqs [s] .skip).exec (cMachine M) x = s.exec (cMachine M) x := andThen_skip _
  rw [hskip]
  exact h σ M x

theorem executes_ite {e : Expr Prim} {s t : CStmt} {c f g : Run}
    (hc : Means e c) (hs : Executes s f) (ht : Executes t g) :
    Executes (.ite e s t) fun M x => if (c M x).1 then f M (c M x).2 else g M (c M x).2 := by
  intro σ M x
  have h1 : (e.test (cMachine M) x).1 = (c M x.1).1 := (hc σ M x).1
  have h2 : (e.test (cMachine M) x).2.1 = (c M x.1).2 := (hc σ M x).2
  have hexec : (CText.Stmt.ite e s t).exec (cMachine M) x
      = if (e.test (cMachine M) x).1 then s.exec (cMachine M) (e.test (cMachine M) x).2
        else t.exec (cMachine M) (e.test (cMachine M) x).2 := rfl
  show Follows _ (if (c M x.1).1 then f M (c M x.1).2 else g M (c M x.1).2)
  rw [hexec, ← h1, ← h2]
  split
  · exact hs σ M _
  · exact ht σ M _

theorem executes_simple (a : String) : Executes (.simple a) fun M => M.stmt a := fun _ _ _ => ⟨rfl, rfl⟩

theorem idle_skip : Idle .skip := fun _ _ _ => ⟨rfl, rfl⟩

/-- A statement that an action writes. -/
theorem simple_means (a : Simple) : ∃ s, Items a.toks [s] ∧ Executes s fun M => a.exec M := by
  cases a with
  | text s => exact ⟨.simple s, (Closed.simple s).readsStmt.items, executes_simple s⟩
  | call f =>
    have hread : Reads 0 ([.prim (.text ("VGC_function_" ++ f ++ "(sp)"))] : List CTok) _ := reads_bang false _
    exact ⟨_, (ReadsStmt.ifOnly hread (Closed.simple "return (1);")).items,
      executes_ite (means_ask _) (executes_simple _) idle_skip⟩

theorem actions_mean (l : List Simple) :
    ∃ ss, Items (l.flatMap Simple.toks) ss ∧ Executes (CText.Stmt.seqs ss .skip) fun M => execAll M l := by
  induction l with
  | nil => exact ⟨[], Items.nil, idle_skip⟩
  | cons a l ih =>
    obtain ⟨s, hs, hexec⟩ := simple_means a
    obtain ⟨ss, hss, hexecs⟩ := ih
    exact ⟨[s] ++ ss, hs.append hss, executes_append (executes_single hexec) hexecs⟩

/-- What is known of the text of `Compound`. -/
def WritesBlock (V : Callees S) (tl : TokenList S) (r : List CTok × TokenList S) : Prop :=
  ∃ (t : Token) (ts : List Token) (body : Code .compound) (s : CStmt), tl.t = t :: ts ++ r.2.t ∧
    t.tok = chr '{' ∧ Spells V ts body ∧ Closed r.1 s ∧ Executes s fun M => body.exec M

/-- What is known of the text of its loop. -/
def WritesItems (V : Callees S) (tl : TokenList S) (r : List CTok × TokenList S) : Prop :=
  ∃ (ts : List Token) (code : Code .compound) (os : List CTok) (ss : List CStmt), tl.t = ts ++ r.2.t ∧
    Spells V ts code ∧ r.1 = os ++ [.rbrace] ∧ Items os ss ∧ Executes (CText.Stmt.seqs ss .skip) fun M => code.exec M

/-- What is known of the text behind the compound of an `if`: an `else`, and a counter that does nothing. -/
def WritesChain (V : Callees S) (tl : TokenList S) (r : List CTok × TokenList S) : Prop :=
  ∃ (vs : List Token) (chain : Code .chain) (os us : List CTok) (t : CStmt) (ss : List CStmt),
    tl.t = vs ++ r.2.t ∧ Spells V vs chain ∧ r.1 = os ++ us ∧ ElsePart os t ∧ Items us ss ∧
    (Executes t fun M => chain.exec M) ∧ Idle (CText.Stmt.seqs ss .skip)

/-- The tokens of an `if`. -/
def IfSpelled (V : Callees S) (ts : List Token) (c : Cond) (body : Code .compound) (chain : Code .chain) : Prop :=
  ∃ (t u : Token) (cs bs vs : List Token), ts = t :: cs ++ u :: bs ++ vs ∧ t.tok = .tIf ∧ InParens V cs c ∧
    u.tok = chr '{' ∧ Spells V bs body ∧ Spells V vs chain

/-- What is known of the text of `IfStmt`. -/
def WritesIf (V : Callees S) (tl : TokenList S) (r : List CTok × TokenList S) : Prop :=
  ∃ (ts : List Token) (c : Cond) (body : Code .compound) (chain : Code .chain) (ss : List CStmt),
    tl.t = ts ++ r.2.t ∧ IfSpelled V ts c body chain ∧ Items r.1 ss ∧
    Executes (CText.Stmt.seqs ss .skip) fun M x =>
      if (c.eval M x).1 then body.exec M (c.eval M x).2 else chain.exec M (c.eval M x).2

/-- The functions with `n` levels of calls. -/
structure StmtSpec (V : Callees S) (n : ℕ) : Prop where
  ifStmt : ∀ tl r, ifStmt V n tl = some r → WritesIf V tl r
  chain : ∀ tl r, ifChain V n tl = some r → WritesChain V tl r
  elseIf : ∀ tl r, elseIf V n tl = some r → ∀ (tl' : TokenList S) (es : List Token), ElseIf es →
    tl'.t = es ++ tl.next.t → WritesChain V tl' r
  block : ∀ tl r, compound V n tl = some r → WritesBlock V tl r
  items : ∀ tl r, items V n tl = some r → WritesItems V tl r

variable {n : ℕ} {tl : TokenList S} {r : List CTok × TokenList S}

theorem StmtSpec.writes_block (hn : StmtSpec V n) (h : compound V (n + 1) tl = some r) : WritesBlock V tl r := by
  simp only [compound, Option.bind_eq_bind, Option.bind_eq_some_iff, Option.some.injEq] at h
  obtain ⟨tl', hskip, q, hq, rfl⟩ := h
  obtain ⟨t, ht, htok⟩ := skipToken_spec hskip
  obtain ⟨ts, code, os, ss, hts, hspell, hos, hitems, hexec⟩ := hn.items _ _ hq
  have hcount : Items (C .semi tl'.counted) [.expr (.prim (.count tl'.counted.cnt))] :=
    (Closed.prim _).readsStmt.items
  have hclosed := (hcount.append hitems).block
  refine ⟨t, ts, code, _, ?_, htok, hspell, ?_, executes_append (idle_count tl'.counted.cnt) hexec⟩
  · rw [ht]
    exact congrArg (t :: ·) hts
  · rw [hos]
    simpa only [List.append_assoc, List.cons_append] using hclosed

/-- A condition with the compound behind it. -/
theorem branch_means (hn : StmtSpec V n) {c b : List CTok × TokenList S} (hc : conditional V n tl = some c)
    (hb : compound V n c.2 = some b) :
    ∃ (cs : List Token) (u : Token) (bs : List Token) (cond : Cond) (body : Code .compound) (o : List CTok) (e : Expr Prim)
      (s : CStmt), tl.t = cs ++ u :: bs ++ b.2.t ∧ InParens V cs cond ∧ u.tok = chr '{' ∧ Spells V bs body ∧
      c.1 = .lpar :: o ++ [.rpar] ∧ Reads 0 o e ∧ (Means e fun M => cond.eval M) ∧ Closed b.1 s ∧
      Executes s fun M => body.exec M := by
  obtain ⟨cs, cond, o, e, hcs, hin, ho, hread, hmean⟩ := conditional_means hc
  obtain ⟨u, bs, body, s, hbs, hu, hspell, hclosed, hexec⟩ := hn.block _ _ hb
  refine ⟨cs, u, bs, cond, body, o, e, s, ?_, hin, hu, hspell, ho, hread, hmean, hclosed, hexec⟩
  rw [hcs, hbs, List.append_assoc]

theorem StmtSpec.writes_if (hn : StmtSpec V n) (h : Conditional.ifStmt V (n + 1) tl = some r) : WritesIf V tl r := by
  simp only [Conditional.ifStmt, Option.bind_eq_bind, Option.bind_eq_some_iff, Option.some.injEq] at h
  obtain ⟨tl', hskip, c, hc, b, hb, q, hq, rfl⟩ := h
  obtain ⟨t, ht, htok⟩ := skipToken_spec hskip
  obtain ⟨cs, u, bs, cond, body, o, e, s, hts, hin, hu, hspell, ho, hread, hmean, hclosed, hexec⟩ := branch_means hn hc hb
  obtain ⟨vs, chain, os, us, s', ss, hvs, hchain, hq1, helse, hitems, hexec', hidle⟩ := hn.chain _ _ hq
  have hread' := ReadsStmt.ifStmt hread hclosed helse
  have hif := hread'.items.append hitems
  refine ⟨t :: cs ++ u :: bs ++ vs, cond, body, chain, _, ?_, ⟨t, u, cs, bs, vs, rfl, htok, hin, hu, hspell, hchain⟩, ?_,
    executes_append_idle (executes_single (executes_ite hmean hexec hexec')) hidle⟩
  · rw [ht, hts, hvs]
    simp only [List.cons_append, List.append_assoc]
  · rw [ho, hq1]
    simpa only [List.append_assoc, List.cons_append, List.nil_append] using hif

theorem StmtSpec.writes_elseIf (hn : StmtSpec V n) (h : Conditional.elseIf V (n + 1) tl = some r) (tl' : TokenList S)
    (es : List Token) (hes : ElseIf es) (htl : tl'.t = es ++ tl.next.t) : WritesChain V tl' r := by
  simp only [Conditional.elseIf, Option.bind_eq_bind, Option.bind_eq_some_iff, Option.some.injEq] at h
  obtain ⟨c, hc, b, hb, q, hq, rfl⟩ := h
  obtain ⟨cs, u, bs, cond, body, o, e, s, hts, hin, hu, hspell, ho, hread, hmean, hclosed, hexec⟩ := branch_means hn hc hb
  obtain ⟨vs, chain, os, us, s', ss, hvs, hchain, hq1, helse, hitems, hexec', hidle⟩ := hn.chain _ _ hq
  have hread' := ReadsStmt.ifStmt hread hclosed helse
  refine ⟨es ++ cs ++ u :: bs ++ vs, .elseIf cond body chain, _, us, _, ss, ?_, .elseIf hes hin hu hspell hchain, ?_,
    .inr ⟨_, rfl, hread'⟩, hitems, executes_ite hmean hexec hexec', hidle⟩
  · rw [htl, hts, hvs]
    simp only [List.cons_append, List.append_assoc]
  · rw [ho, hq1]
    simp only [List.append_assoc, List.cons_append, List.nil_append]

theorem StmtSpec.writes_chain (hn : StmtSpec V n) (h : ifChain V (n + 1) tl = some r) : WritesChain V tl r := by
  simp only [ifChain, Option.bind_eq_bind, Option.bind_eq_some_iff] at h
  obtain ⟨t, ht, h⟩ := h
  have htl := head_cons ht
  split at h
  · rename_i helse
    simp only [Option.bind_eq_some_iff] at h
    obtain ⟨u, hu, h⟩ := h
    split at h
    · rename_i hif
      refine hn.elseIf _ _ h tl [t, u] (.inl ⟨t, u, rfl, helse, hif⟩) ?_
      rw [htl]
      exact congrArg (t :: ·) (head_cons hu)
    · simp only [Option.bind_eq_some_iff, Option.some.injEq] at h
      obtain ⟨b, hb, rfl⟩ := h
      obtain ⟨v, bs, body, s, hbs, hv, hspell, hclosed, hexec⟩ := hn.block _ _ hb
      refine ⟨t :: v :: bs, .els body, .kelse :: b.1, [], s, [], ?_, .els helse hv hspell, (List.append_nil _).symm,
        .inr ⟨_, rfl, hclosed.readsStmt⟩, .nil, hexec, idle_skip⟩
      rw [htl]
      exact congrArg (t :: ·) hbs
  · split at h
    · rename_i hif
      exact hn.elseIf _ _ h tl [t] (.inr ⟨t, rfl, hif⟩) htl
    · obtain rfl := Option.some.inj h
      have hcount : Items (C .semi tl.counted) [.expr (.prim (.count tl.counted.cnt))] :=
        (Closed.prim _).readsStmt.items
      exact ⟨[], .endIf, [], _, .skip, _, rfl, .endIf, rfl, .inl ⟨rfl, rfl⟩, hcount, idle_skip, idle_count _⟩

/-- A statement and what follows it in the compound. -/
theorem WritesItems.cons {ts : List Token} {o : List CTok} {tl' : TokenList S} {ss : List CStmt}
    {q : List CTok × TokenList S} {f : Run}
    {step : Code .compound → Code .compound} (hts : tl.t = ts ++ tl'.t) (hitems : Items o ss)
    (hexec : Executes (CText.Stmt.seqs ss .skip) f) (hrest : WritesItems V tl' q)
    (hspell : ∀ {us : List Token} {rest : Code .compound}, Spells V us rest → Spells V (ts ++ us) (step rest))
    (hstep : ∀ {σ : Type} (M : Machine String String σ) (rest : Code .compound) (x : σ),
      (step rest).exec M x = andThen (f M x) (rest.exec M)) : WritesItems V tl (o ++ q.1, q.2) := by
  obtain ⟨us, rest, os, ss', hus, hspell', hq1, hitems', hexec'⟩ := hrest
  refine ⟨ts ++ us, step rest, o ++ os, ss ++ ss', ?_, hspell hspell', ?_, hitems.append hitems', ?_⟩
  · rw [hts, hus, List.append_assoc]
  · rw [hq1, List.append_assoc]
  · intro σ M x
    have hboth : Follows _ (andThen (f M x.1) (rest.exec M)) := executes_append hexec hexec' σ M x
    rwa [← hstep M rest x.1] at hboth

theorem StmtSpec.writes_items (hn : StmtSpec V n) (h : Conditional.items V (n + 1) tl = some r) : WritesItems V tl r := by
  simp only [Conditional.items, Option.bind_eq_bind, Option.bind_eq_some_iff] at h
  obtain ⟨t, ht, h⟩ := h
  have htl := head_cons ht
  split at h
  · -- a compound
    simp only [Option.bind_eq_some_iff, Option.some.injEq] at h
    obtain ⟨b, hb, q, hq, rfl⟩ := h
    obtain ⟨u, bs, body, s, hbs, hu, hspell, hclosed, hexec⟩ := hn.block _ _ hb
    exact WritesItems.cons hbs hclosed.readsStmt.items (executes_single hexec) (hn.items _ _ hq)
      (fun hrest => .compound hu hspell hrest) (fun M rest x => rfl)
  split at h
  · -- an `if`
    simp only [Option.bind_eq_some_iff, Option.some.injEq] at h
    obtain ⟨b, hb, q, hq, rfl⟩ := h
    obtain ⟨ts, c, body, chain, ss, hts, hif, hitems, hexec⟩ := hn.ifStmt _ _ hb
    obtain ⟨v, u, cs, bs, vs, rfl, hv, hin, hu, hspell, hchain⟩ := hif
    refine WritesItems.cons hts hitems hexec (hn.items _ _ hq) (fun hrest => .ifStmt hv hin hu hspell hchain hrest)
      (fun M rest x => rfl)
  split at h
  · -- the end
    rename_i hclose
    obtain rfl := Option.some.inj h
    exact ⟨[t], .close, [], [], htl, .close hclose, rfl, .nil, idle_skip⟩
  split at h
  · -- inline C
    rename_i hcsrc
    simp only [Option.bind_eq_some_iff, Option.some.injEq] at h
    obtain ⟨q, hq, rfl⟩ := h
    have htl' : tl.t = [t] ++ tl.next.t := htl
    exact WritesItems.cons htl' ((Closed.simple t.text).readsStmt.items)
      (executes_single (executes_simple t.text)) (hn.items _ _ hq) (fun hrest => .csrc hcsrc hrest) (fun M rest x => rfl)
  split at h
  · -- an action
    simp only [Option.bind_eq_some_iff, Option.some.injEq] at h
    obtain ⟨a, ha, tl', hskip, q, hq, rfl⟩ := h
    obtain ⟨u, hu, hsemi⟩ := skipToken_spec hskip
    obtain ⟨ss, hitems, hexec⟩ := actions_mean a.2.1
    have htook : tl.t = (tl.t.take a.1 ++ [u]) ++ tl'.t := by
      rw [List.append_assoc, List.singleton_append, ← hu]
      exact (List.take_append_drop _ _).symm
    have hact : V.parseAction tl.st (tl.t.take a.1 ++ tl.t.drop a.1) = some a := by
      rw [List.take_append_drop]
      exact ha
    have hspell {us : List Token} {rest : Code .compound} (hrest : Spells V us rest) :
        Spells V ((tl.t.take a.1 ++ [u]) ++ us) (.action a.2.1 rest) := by
      rw [List.append_assoc, List.singleton_append]
      exact .action hact (taken_take _ _) hsemi hrest
    exact WritesItems.cons htook hitems hexec (hn.items _ _ hq) hspell (fun M rest x => rfl)
  · cases h

theorem stmtSpec (V : Callees S) (n : ℕ) : StmtSpec V n := by
  induction n with
  | zero =>
    refine ⟨?_, ?_, ?_, ?_, ?_⟩ <;>
      · intro tl r h
        cases h
  | succ n ih =>
    refine ⟨?_, ?_, ?_, ?_, ?_⟩ <;> intro tl r h
    · exact ih.writes_if h
    · exact ih.writes_chain h
    · exact ih.writes_elseIf h
    · exact ih.writes_block h
    · exact ih.writes_items h

end Statements

/-! ## The result -/

section Result

variable {S : Type}

/-- Every condition and every `if` that the parser accepts has a reading as C which means the same: the truth of the
condition, the state that its atoms leave, and the branch that is executed. -/
theorem ifStmt_means (V : Callees S) (n : ℕ) (tl : TokenList S) :
    (∀ r, conditional V n tl = some r → ∃ (ts : List Token) (c : Cond) (e : Expr Prim),
      tl.t = ts ++ r.2.t ∧ InParens V ts c ∧ (∃ k, ∀ m, k ≤ m → readLevel m 0 r.1 = some (e, [])) ∧
      ∀ (σ : Type) (M : Machine String String σ) (x : σ × List ℕ), Follows (e.test (cMachine M) x) (c.eval M x.1)) ∧
    ∀ r, ifStmt V n tl = some r →
      ∃ (ts : List Token) (c : Cond) (body : Code .compound) (chain : Code .chain) (s : CStmt),
        tl.t = ts ++ r.2.t ∧ IfSpelled V ts c body chain ∧ (∃ k, ∀ m, k ≤ m → readItems m r.1 = some (s, [])) ∧
        ∀ (σ : Type) (M : Machine String String σ) (x : σ × List ℕ), Follows (s.exec (cMachine M) x)
          (if (c.eval M x.1).1 then body.exec M (c.eval M x.1).2 else chain.exec M (c.eval M x.1).2) := by
  constructor
  · intro r h
    obtain ⟨ts, c, o, e, hts, hin, ho, hread, hmean⟩ := conditional_means h
    obtain ⟨k, hk⟩ := (ReadsUnary.paren hread).lower (Nat.zero_le _)
    refine ⟨ts, c, e, hts, hin, ⟨k, fun m hm => ?_⟩, hmean⟩
    have hall := hk m [] hm (by intro op us h; cases h)
    rwa [List.append_nil, ← ho] at hall
  · intro r h
    obtain ⟨ts, c, body, chain, ss, hts, hif, hitems, hexec⟩ := (stmtSpec V n).ifStmt tl r h
    exact ⟨ts, c, body, chain, _, hts, hif, hitems.read, hexec⟩

def sampleCallees : Callees Unit where
  findVar _ name :=
    if name = "req.url" then some (⟨.string, "VRT_r_req_url(sp)"⟩, ())
    else if name = "req.esi" then some (⟨.bool, "VRT_r_req_esi(sp)"⟩, ())
    else none
  varVal _ _ ts := ts.head?.map fun t => (1, t.text, ())
  stringVal _ ts := ts.head?.map fun t => (1, t.text, ())
  regexp _ _ := some ("VGC_re_0", ())
  aclEntry _ _ _ := some (1, ())
  addRef _ _ := ()
  isCid _ := true
  parseAction _ _ := some (1, [.text "VRT_ESI(sp);"], ())

/-- `if (!(req.url == "/" || req.esi) && req.esi) ⦃ esi; ⦄ elsif (req.url) ⦃ ⦄ else ⦃ ⦄` -/
def sampleTokens : List Token :=
  [⟨.tIf, "if"⟩, ⟨chr '(', "("⟩, ⟨chr '!', "!"⟩, ⟨chr '(', "("⟩, ⟨.var, "req.url"⟩, ⟨.tEq, "=="⟩, ⟨.cstr, "\"/\""⟩,
    ⟨.tCor, "||"⟩, ⟨.var, "req.esi"⟩, ⟨chr ')', ")"⟩, ⟨.tCand, "&&"⟩, ⟨.var, "req.esi"⟩, ⟨chr ')', ")"⟩,
    ⟨chr '{', "\x7b"⟩, ⟨.id, "esi"⟩, ⟨chr ';', ";"⟩, ⟨chr '}', "\x7d"⟩, ⟨.tElsif, "elsif"⟩, ⟨chr '(', "("⟩,
    ⟨.var, "req.url"⟩, ⟨chr ')', ")"⟩, ⟨chr '{', "\x7b"⟩, ⟨chr '}', "\x7d"⟩, ⟨.tElse, "else"⟩, ⟨chr '{', "\x7b"⟩,
    ⟨chr '}', "\x7d"⟩, ⟨.eoi, ""⟩]

theorem ifStmt_means_sample :
    ∃ r, ifStmt sampleCallees 20 ⟨sampleTokens, 0, ()⟩ = some r ∧
      ∃ (ts : List Token) (c : Cond) (body : Code .compound) (chain : Code .chain) (s : CStmt),
        sampleTokens = ts ++ r.2.t ∧ IfSpelled sampleCallees ts c body chain ∧
        (∃ k, ∀ m, k ≤ m → readItems m r.1 = some (s, [])) ∧
        ∀ (σ : Type) (M : Machine String String σ) (x : σ × List ℕ), Follows (s.exec (cMachine M) x)
          (if (c.eval M x.1).1 then body.exec M (c.eval M x.1).2 else chain.exec M (c.eval M x.1).2) :=
  have haccepts : (ifStmt sampleCallees 20 ⟨sampleTokens, 0, ()⟩).isSome = true := by decide +kernel
  have ⟨r, hr⟩ := Option.isSome_iff_exists.1 haccepts
  ⟨r, hr, (ifStmt_means sampleCallees 20 ⟨sampleTokens, 0, ()⟩).2 r hr⟩

end Result

end Varnish.Vcc.Conditional
