import Varnish.Http.Account

/-!
# Varnish.Http.Tally — the two embeddings of `FetchBody` agree

`Varnish.Http.Body` says what the storage segments hold, `Varnish.Http.Account` how long they are and what fails.  Here both read the
same stream, with the same reads and the same storage, and there is no `fetchfrag`.

* `Agree`: two computations end in the same way, and with related values.
* `Tallies`: the work of the one is that of the other, where only lengths are kept.
* `fetchBody_tally`: they return in the same cases, and leave segments of the same lengths.
-/

namespace Varnish.Http.Tally

open Varnish.Ban Varnish.Lib
open Varnish.Http.Account (Stop Storage Wire Work)

/-! ## Two computations -/

section Agree

variable {α β γ : Type} {R : α → β → Prop} {P : γ → β → Prop}

/-- Both return, and what they return is related, or neither does. -/
def Agree (R : α → β → Prop) : Option α → Except Stop β → Prop
  | some a, .ok b => R a b
  | none, .error _ => True
  | some _, .error _ => False
  | none, .ok _ => False

theorem Agree.cases {x : Option α} {y : Except Stop β} (h : Agree R x y) :
    (∃ e, x = none ∧ y = .error e) ∨ ∃ a b, x = some a ∧ y = .ok b ∧ R a b := by
  cases x with
  | none =>
    cases y with
    | error e => exact .inl ⟨e, rfl, rfl⟩
    | ok b => exact absurd h id
  | some a =>
    cases y with
    | error e => exact absurd h id
    | ok b => exact .inr ⟨a, b, rfl, rfl, h⟩

theorem Agree.map_left {x : Option α} {y : Except Stop β} {f : α → γ} (h : Agree R x y) (hr : ∀ a b, R a b → P (f a) b) :
    Agree P (x.map f) y := by
  obtain ⟨e, rfl, rfl⟩ | ⟨a, b, rfl, rfl, hab⟩ := h.cases
  · trivial
  · exact hr a b hab

end Agree

/-! ## Reading -/

section Read

variable {c : Conn} {s : Work} {len : ℕ} (cut : ℕ → ℕ) (stv : ℕ → ℕ → ℕ+) (chunksize : ℕ)

/-- What can be read of a connection without a pipeline. -/
def wireOf (c : Conn) : Wire := ⟨c.stream, false, c.reads⟩

/-- How much each `read` gets and each `STV_alloc`. -/
def fetchEnv : FetchEnv := ⟨cut, fun j v => stv j v, chunksize⟩

def accountEnv : Account.Env := ⟨cut, fun j v => some (stv j v), chunksize, 0⟩

@[simp] theorem fetchEnv_cut : (fetchEnv cut stv chunksize).cut = cut := rfl

/-- `s` reads what `c` reads. -/
structure SameWire (c : Conn) (s : Work) : Prop where
  pipe : c.pipe = none
  wire : s.wire = wireOf c

theorem left_eq (hp : c.pipe = none) : c.left = c.stream.length := by
  rw [Conn.left, hp]
  exact Nat.zero_add _

/-- Both reads get nothing, or the same. -/
theorem read_tally (h : SameWire c s) (hlen : 0 < len) :
    (c.stream = [] ∧ (htcRead cut c len).1 = [] ∧ s.read (accountEnv cut stv chunksize) len = (some [], s)) ∨
    ∃ b bs c', htcRead cut c len = (b :: bs, c') ∧ SameWire c' { s with wire := wireOf c' } ∧
      c.stream = (b :: bs) ++ c'.stream ∧ (b :: bs).length ≤ len ∧
      s.read (accountEnv cut stv chunksize) len = (some (b :: bs), { s with wire := wireOf c' }) := by
  have hread : htcRead cut c len = c.read cut len := by
    unfold htcRead pipeRead
    rw [h.pipe]
    exact if_neg (Nat.ne_of_gt hlen)
  rw [hread]
  by_cases hs : c.stream = []
  · refine .inl ⟨hs, ?_, ?_⟩
    · show c.stream.take _ = []
      rw [hs, List.take_nil]
    · have hs' : s.wire.stream = [] := by rw [h.wire]; exact hs
      rw [Account.read_end hs' hlen, h.wire]
      rfl
  · obtain ⟨b, S, hS⟩ := List.exists_cons_of_ne_nil hs
    obtain ⟨m, hm⟩ : ∃ m, min (cut c.reads + 1) len = m + 1 := ⟨min (cut c.reads + 1) len - 1, by omega⟩
    have hcut : min len (1 + cut c.reads) = m + 1 := by omega
    refine .inr ⟨b, S.take m, { c with stream := S.drop m, reads := c.reads + 1 }, ?_, ⟨h.pipe, rfl⟩, ?_, ?_, ?_⟩
    · unfold Conn.read
      rw [hm, hS, List.take_succ_cons, List.drop_succ_cons]
    · rw [hS, List.cons_append, List.take_append_drop]
    · rw [List.length_cons, List.length_take]
      omega
    · have hsome : Account.htcRead (accountEnv cut stv chunksize) (wireOf c) len =
          (some (b :: S.take m), wireOf { c with stream := S.drop m, reads := c.reads + 1 }) := by
        unfold Account.htcRead
        rw [if_neg (Nat.ne_of_gt hlen), if_neg (show (wireOf c).stream ≠ [] from hs)]
        simp only [wireOf, accountEnv, hcut, hS, List.take_succ_cons, List.drop_succ_cons]
      unfold Work.read
      rw [h.wire, hsome]

theorem SameWire.self (h : SameWire c s) : { s with wire := wireOf c } = s := by rw [← h.wire]

theorem readLine_tally (room : ℕ) (buf : List UInt8) (h : SameWire c s) :
    Agree (fun x y => y = (x.1, x.2.1, { s with wire := wireOf x.2.2 }) ∧ x.2.2.pipe = none)
      (readLine cut room buf c) (Account.readLine (accountEnv cut stv chunksize) room buf s) := by
  induction room generalizing buf c s with
  | zero =>
    rw [readLine, Account.readLine]
    cases sizeLine buf with
    | none => trivial
    | some x => exact ⟨by rw [h.self], h.pipe⟩
  | succ room ih =>
    unfold readLine Account.readLine
    cases sizeLine buf with
    | some x => exact ⟨by rw [h.self], h.pipe⟩
    | none =>
      dsimp only
      obtain ⟨-, hnil, hread'⟩ | ⟨b, bs, c', hread, hsame, -, -, hread'⟩ := read_tally cut stv chunksize h Nat.one_pos
      · rw [hread', if_pos hnil]
        trivial
      · rw [hread, hread', if_neg (List.cons_ne_nil _ _)]
        exact ih _ hsame

/-- `k` bytes more are in the segment in use. -/
structure Longer (k : ℕ) (s s' : Work) : Prop where
  full : s'.full = s.full
  allocs : s'.allocs = s.allocs
  st : s'.st = s.st.map fun t => { t with len := t.len + k }

theorem Longer.refl (s : Work) : Longer 0 s s := ⟨rfl, rfl, Option.map_id'.symm⟩

theorem Longer.trans {k l : ℕ} {s1 s2 : Work} (h : Longer k s s1) (h' : Longer l s1 s2) : Longer (k + l) s s2 := by
  refine ⟨h'.full.trans h.full, h'.allocs.trans h.allocs, ?_⟩
  rw [h'.st, h.st, Option.map_map]
  cases s.st with
  | none => rfl
  | some t =>
    show some (⟨t.len + k + l, t.space⟩ : Storage) = some ⟨t.len + (k + l), t.space⟩
    rw [Nat.add_assoc]

theorem longer_add (k : ℕ) (s : Work) : Longer k s (s.add k) := ⟨rfl, rfl, rfl⟩

theorem fill_tally (fuel v : ℕ) (h : SameWire c s) :
    Agree (fun x s' => x.1.length = v ∧ SameWire x.2 s' ∧ Longer v s s')
      (readSome cut fuel v c) (Account.fill (accountEnv cut stv chunksize) fuel v s) := by
  induction fuel generalizing v c s with
  | zero =>
    rw [readSome, Account.fill]
    by_cases hz : v = 0
    · subst hz
      exact ⟨rfl, h, Longer.refl s⟩
    · rw [if_neg hz, if_neg hz]
      trivial
  | succ fuel ih =>
    rw [readSome, Account.fill]
    by_cases hz : v = 0
    · subst hz
      exact ⟨rfl, h, Longer.refl s⟩
    · rw [if_neg hz, if_neg hz]
      dsimp only
      obtain ⟨-, hnil, hread'⟩ | ⟨b, bs, c', hread, hsame, -, hle, hread'⟩ :=
        read_tally cut stv chunksize h (Nat.pos_of_ne_zero hz)
      · rw [hread', if_pos hnil]
        trivial
      · rw [hread, hread', if_neg (List.cons_ne_nil _ _)]
        dsimp only
        have hadd : SameWire c' (Work.add (b :: bs).length { s with wire := wireOf c' }) := ⟨hsame.pipe, rfl⟩
        obtain ⟨e, hnone, herror⟩ | ⟨x, s', hsome, hok, hlen, hw, hlonger⟩ := (ih (v - (b :: bs).length) hadd).cases
        · rw [hnone, herror]
          trivial
        · rw [hsome, hok]
          have hmore := (longer_add (b :: bs).length { s with wire := wireOf c' }).trans hlonger
          rw [Nat.add_sub_cancel' hle] at hmore
          refine ⟨?_, hw, ⟨hmore.full, hmore.allocs, hmore.st⟩⟩
          show ((b :: bs) ++ x.1).length = v
          rw [List.length_append, hlen, Nat.add_sub_cancel' hle]

end Read

/-! ## The three ways -/

section Ways

variable {c : Conn} {s : Work} {f : Fetched} (cut : ℕ → ℕ) (stv : ℕ → ℕ → ℕ+) (chunksize : ℕ)

/-- A new segment behind the others. -/
def fresh (size : ℕ) (s : Work) : Work :=
  { s with full := s.store, st := some ⟨0, stv s.allocs size⟩, allocs := s.allocs + 1 }

theorem alloc_eq (size : ℕ) (s : Work) :
    s.alloc (accountEnv cut stv chunksize) size = .ok (fresh stv size s) := rfl

theorem fresh_room (size : ℕ) (s : Work) : (fresh stv size s).room = stv s.allocs size := Nat.sub_zero _

theorem straightLoop_tally (fuel cl : ℕ) (h : SameWire c s) :
    Agree (fun x s' => s'.store.map Storage.len = s.store.map Storage.len ++ x.1.map List.length)
      (straightLoop (fetchEnv cut stv chunksize) fuel cl s.allocs c)
      (Account.straightLoop (accountEnv cut stv chunksize) fuel cl s) := by
  induction fuel generalizing cl c s with
  | zero =>
    rw [straightLoop, Account.straightLoop]
    by_cases hz : cl = 0
    · rw [if_pos hz, if_pos hz]
      exact (List.append_nil _).symm
    · rw [if_neg hz, if_neg hz]
      trivial
  | succ fuel ih =>
    rw [straightLoop, Account.straightLoop]
    by_cases hz : cl = 0
    · rw [if_pos hz, if_pos hz]
      exact (List.append_nil _).symm
    · rw [if_neg hz, if_neg hz, alloc_eq]
      dsimp only [fetchEnv, bind, Except.bind]
      rw [fresh_room]
      have hfresh : SameWire c (fresh stv cl s) := ⟨h.pipe, h.wire⟩
      generalize min (stv s.allocs cl : ℕ) cl = sl
      obtain ⟨e, hnone, herror⟩ | ⟨x, s2, hsome, hok, hlen, hw, hlonger⟩ := (fill_tally cut stv chunksize sl sl hfresh).cases
      · rw [hnone, herror]
        trivial
      · rw [hsome, hok]
        have hstore : s2.store.map Storage.len = s.store.map Storage.len ++ [x.1.length] := by
          have hst : s2.st = some ⟨0 + sl, stv s.allocs cl⟩ := hlonger.st
          rw [Account.Work.store_of hst, hlonger.full, List.map_append, hlen, Nat.zero_add]
          rfl
        have hloop := ih (cl - sl) hw
        rw [hlonger.allocs, hstore] at hloop
        refine hloop.map_left fun a b hab => ?_
        rw [hab, List.append_assoc]
        rfl

theorem fetchStraight_tally {b : Str} (hb : strtoumax 0 b < 2 ^ 32)
    (hp : c.pipe = none) :
    (∃ e, fetchStraight (fetchEnv cut stv chunksize) b c = .error .eof ∧
      Account.fetchStraight (accountEnv cut stv chunksize) b ⟨[], none, 0, wireOf c, 0⟩ = .error e) ∨
    ∃ x s', fetchStraight (fetchEnv cut stv chunksize) b c = .ok x ∧
      Account.fetchStraight (accountEnv cut stv chunksize) b ⟨[], none, 0, wireOf c, 0⟩ = .ok s' ∧
      s'.store.map Storage.len = x.1.map List.length := by
  unfold fetchStraight Account.fetchStraight
  dsimp only
  by_cases hz : strtoumax 0 b = 0
  · rw [if_pos hz, if_pos hz]
    exact .inr ⟨_, _, rfl, rfl, rfl⟩
  · have hmod : ¬ strtoumax 0 b % 2 ^ 32 ≠ strtoumax 0 b := not_not_intro (Nat.mod_eq_of_lt hb)
    rw [if_neg hz, if_neg hz, if_neg hmod, if_neg hmod]
    have h : SameWire c ⟨[], none, 0, wireOf c, 0⟩ := ⟨hp, rfl⟩
    obtain ⟨e, hnone, herror⟩ | ⟨x, s', hsome, hok, hstore⟩ :=
      (straightLoop_tally cut stv chunksize (strtoumax 0 b % 2 ^ 32) (strtoumax 0 b % 2 ^ 32) h).cases
    · refine .inl ⟨e, ?_, herror⟩
      rw [hnone]
    · refine .inr ⟨x, s', ?_, hok, hstore⟩
      rw [hsome]

/-! ### Chunks -/

/-- The work of `fetch_chunked`, where only lengths are kept. -/
structure Tallies (f : Fetched) (s : Work) : Prop where
  same : SameWire f.conn s
  full : s.full.map Storage.len = f.full.map List.length
  st : s.st = f.st.map fun p => ⟨p.1.length, p.2⟩
  allocs : s.allocs = f.allocs

theorem Tallies.fresh (h : Tallies f s) (size : ℕ) :
    Tallies { f with full := f.full ++ (f.st.map Prod.fst).toList, st := some ([], stv f.allocs size), allocs := f.allocs + 1 }
      (fresh stv size s) := by
  refine ⟨⟨h.same.pipe, h.same.wire⟩, ?_, ?_, congrArg (· + 1) h.allocs⟩
  · show (s.full ++ s.st.toList).map Storage.len = (f.full ++ (f.st.map Prod.fst).toList).map List.length
    rw [List.map_append, List.map_append, h.full, h.st]
    cases f.st with
    | none => rfl
    | some p => rfl
  · show some (⟨0, stv s.allocs size⟩ : Storage) = some ⟨0, stv f.allocs size⟩
    rw [h.allocs]

theorem getStorage_tally (u : ℕ) (h : Tallies f s) :
    ∃ s' f' data space, Account.getStorage (accountEnv cut stv chunksize) u s = .ok s' ∧
      getStorage (fetchEnv cut stv chunksize) u f = (f', data, space) ∧ f'.st = some (data, space) ∧ f'.conn = f.conn ∧
      Tallies f' s' := by
  unfold Account.getStorage getStorage
  have hst := h.st
  cases hf : f.st with
  | none =>
    rw [hf] at hst
    have hfresh := h.fresh stv (if u < chunksize * 1024 % 2 ^ 32 then chunksize * 1024 % 2 ^ 32 else u)
    rw [hf, Option.map_none, Option.toList_none, List.append_nil] at hfresh
    rw [hst]
    exact ⟨_, _, _, _, rfl, rfl, rfl, rfl, hfresh⟩
  | some p =>
    obtain ⟨data, space⟩ := p
    rw [hf] at hst
    rw [hst]
    dsimp only [Option.map_some]
    by_cases hfull : data.length = space
    · have hfresh := h.fresh stv (if u < chunksize * 1024 % 2 ^ 32 then chunksize * 1024 % 2 ^ 32 else u)
      rw [hf] at hfresh
      rw [if_pos hfull, if_pos hfull]
      exact ⟨_, _, _, _, rfl, rfl, rfl, rfl, hfresh⟩
    · rw [if_neg hfull, if_neg hfull]
      exact ⟨s, f, data, space, rfl, rfl, hf, rfl, h⟩

theorem storeChunk_tally (fuel u : ℕ) (left : List UInt8) (h : Tallies f s) :
    Agree (fun x y => y.1 = x.1 ∧ Tallies x.2 y.2) (storeChunk (fetchEnv cut stv chunksize) fuel u left f)
      (Account.storeChunk (accountEnv cut stv chunksize) fuel u left s) := by
  induction fuel generalizing u left f s with
  | zero =>
    rw [storeChunk, Account.storeChunk]
    by_cases hz : u = 0
    · rw [if_pos hz, if_pos hz]
      exact ⟨rfl, h⟩
    · rw [if_neg hz, if_neg hz]
      trivial
  | succ fuel ih =>
    rw [storeChunk, Account.storeChunk]
    by_cases hz : u = 0
    · rw [if_pos hz, if_pos hz]
      exact ⟨rfl, h⟩
    · rw [if_neg hz, if_neg hz]
      obtain ⟨s1, f1, data, space, hstore, hstore', hst1, hconn, h1⟩ := getStorage_tally cut stv chunksize u h
      have hst : s1.st = some ⟨data.length, space⟩ := by
        rw [h1.st, hst1]
        rfl
      rw [hstore, hstore']
      dsimp only [bind, Except.bind]
      rw [Account.Work.room_of hst]
      generalize hv : min (space - data.length) u = v
      generalize hw : min left.length v = w
      have hleft : SameWire f1.conn (if w = 0 then s1 else s1.add w) ∧ Longer w s1 (if w = 0 then s1 else s1.add w) := by
        split
        next hw0 =>
          rw [hw0]
          exact ⟨h1.same, Longer.refl s1⟩
        next => exact ⟨⟨h1.same.pipe, h1.same.wire⟩, longer_add w s1⟩
      obtain ⟨e, hnone, herror⟩ | ⟨x, s2, hsome, hok, hlen, hsame, hlonger⟩ :=
        (fill_tally cut stv chunksize (v - w) (v - w) hleft.1).cases
      · rw [fetchEnv_cut, hnone, herror]
        trivial
      · have hmore := hleft.2.trans hlonger
        rw [Nat.add_sub_cancel' (hw ▸ Nat.min_le_right _ _)] at hmore
        rw [fetchEnv_cut, hsome, hok]
        have h2 : Tallies { f1 with conn := x.2, st := some (data ++ left.take w ++ x.1, space) } s2 := by
          refine ⟨hsame, ?_, ?_, hmore.allocs.trans h1.allocs⟩
          · rw [hmore.full]
            exact h1.full
          · rw [hmore.st, hst]
            show some (⟨data.length + v, space⟩ : Storage) = some ⟨(data ++ left.take w ++ x.1).length, space⟩
            rw [List.length_append, List.length_append, List.length_take, hlen, Nat.min_eq_left (hw ▸ Nat.min_le_left _ _), Nat.add_assoc,
              Nat.add_sub_cancel' (hw ▸ Nat.min_le_right _ _)]
        have hrest : u - w - x.1.length = u - v := by
          rw [hlen]
          omega
        dsimp only
        rw [hrest]
        exact ih (u - v) (left.drop w) h2

theorem chunkedLoop_tally (fuel : ℕ) (buf : List UInt8) (h : Tallies f s) :
    Agree Tallies (fetchLoop (fetchEnv cut stv chunksize) fuel buf f)
      (Account.chunkedLoop (accountEnv cut stv chunksize) fuel buf s) := by
  induction fuel generalizing buf f s with
  | zero => trivial
  | succ fuel ih =>
    rw [fetchLoop, Account.chunkedLoop]
    dsimp only [bind, Except.bind]
    obtain ⟨e, hnone, herror⟩ | ⟨x, y, hsome, hok, rfl, hpipe⟩ :=
      (readLine_tally cut stv chunksize (19 - buf.length) buf h.same).cases
    · rw [fetchEnv_cut, hnone, herror]
      trivial
    · rw [fetchEnv_cut, hsome, hok]
      have h1 : Tallies { f with conn := x.2.2 } { s with wire := wireOf x.2.2 } := ⟨⟨hpipe, rfl⟩, h.full, h.st, h.allocs⟩
      obtain ⟨u, left, c⟩ := x
      dsimp only at h1 ⊢
      by_cases hz : u = 0
      · rw [if_pos hz, if_pos hz]
        exact h1
      · rw [if_neg hz, if_neg hz]
        obtain ⟨e, hnone, herror⟩ | ⟨x, y, hsome, hok, hbuf, h2⟩ := (storeChunk_tally cut stv chunksize u u left h1).cases
        · rw [hnone, herror]
          trivial
        · rw [hsome, hok]
          dsimp only
          rw [hbuf]
          exact ih x.1 h2

/-- A last segment that is empty is taken off. -/
theorem fetchChunked_tally (fuel : ℕ) (h : Tallies ⟨c, [], none, 0⟩ s) :
    Agree (fun x s' => s'.store.map Storage.len = x.1.map List.length) (fetchChunked (fetchEnv cut stv chunksize) fuel c)
      ((Account.chunkedLoop (accountEnv cut stv chunksize) fuel [] s).map Work.finish) := by
  unfold fetchChunked
  obtain ⟨e, hnone, herror⟩ | ⟨f, s', hsome, hok, h'⟩ := (chunkedLoop_tally cut stv chunksize fuel [] h).cases
  · rw [hnone, herror]
    trivial
  · rw [hsome, hok]
    have hst := h'.st
    dsimp only [Except.map]
    cases hf : f.st with
    | none =>
      rw [hf] at hst
      show s'.finish.store.map Storage.len = f.full.map List.length
      rw [← h'.full, Work.finish, hst]
      show (s'.full ++ s'.st.toList).map Storage.len = _
      rw [hst, Option.map_none, Option.toList_none, List.append_nil]
    | some p =>
      rw [hf] at hst
      have hst : s'.st = some ⟨p.1.length, p.2⟩ := hst
      rw [Work.finish, hst]
      dsimp only
      by_cases hz : p.1 = []
      · rw [if_pos hz, if_pos (List.length_eq_zero_iff.2 hz)]
        show (s'.full ++ []).map Storage.len = f.full.map List.length
        rw [List.append_nil, h'.full]
      · rw [if_neg hz, if_neg fun hlen => hz (List.length_eq_zero_iff.1 hlen)]
        show s'.store.map Storage.len = (f.full ++ [p.1]).map List.length
        rw [Account.Work.store_of hst, List.map_append, List.map_append, h'.full]
        rfl

/-! ### Up to the end of the connection -/

theorem eofLoop_zero (n : ℕ) (s : Work) :
    Account.eofLoop (accountEnv cut stv chunksize) (n + 1) 0 s =
      Account.eofLoop (accountEnv cut stv chunksize) (n + 1) (stv s.allocs (chunksize * 1024)) (fresh stv (chunksize * 1024) s) := by
  have hzero : Account.eofSegment (accountEnv cut stv chunksize) 0 s =
      .ok (fresh stv (chunksize * 1024) s, stv s.allocs (chunksize * 1024)) := rfl
  have hpos : Account.eofSegment (accountEnv cut stv chunksize) (stv s.allocs (chunksize * 1024)) (fresh stv (chunksize * 1024) s) =
      .ok (fresh stv (chunksize * 1024) s, stv s.allocs (chunksize * 1024)) := if_neg (Nat.ne_of_gt (PNat.pos _))
  rw [Account.eofLoop, Account.eofLoop, hzero, hpos]

/-- Each segment takes at most two rounds of the one loop, and one of the other. -/
theorem eofLoop_tally {n m v : ℕ} (data : List UInt8) {t : Storage}
    (h : SameWire c s) (hst : s.st = some t) (ht : t.len = data.length) (hv : 0 < v) (hn : c.stream.length < n) (hm : 2 * c.stream.length < m) :
    ∃ s' t' segs last, Account.eofLoop (accountEnv cut stv chunksize) n v s = .ok s' ∧ s'.st = some t' ∧
      (eofLoop (fetchEnv cut stv chunksize) m s.allocs data v c).1 = segs ++ [last] ∧
      s'.full.map Storage.len = s.full.map Storage.len ++ segs.map List.length ∧ t'.len = last.length := by
  induction n generalizing c s m v data t with
  | zero => exact absurd hn (Nat.not_lt_zero _)
  | succ n ih =>
    obtain ⟨m, rfl⟩ : ∃ m', m = m' + 1 := ⟨m - 1, by omega⟩
    have hsegment : Account.eofSegment (accountEnv cut stv chunksize) v s = .ok (s, v) := if_neg (Nat.ne_of_gt hv)
    rw [Account.eofLoop, eofLoop, hsegment, if_neg (Nat.ne_of_gt hv)]
    dsimp only [bind, Except.bind]
    obtain ⟨-, hnil, hread'⟩ | ⟨b, bs, c', hread, hsame, hsplit, -, hread'⟩ := read_tally cut stv chunksize h hv
    · rw [hread', fetchEnv_cut, if_pos hnil]
      exact ⟨s, t, [], data, rfl, hst, rfl, (List.append_nil _).symm, ht⟩
    · rw [hread', fetchEnv_cut, hread]
      dsimp only
      rw [if_neg (List.cons_ne_nil _ _)]
      have hlen := congrArg List.length hsplit
      rw [List.length_append, List.length_cons] at hlen
      have hadd : SameWire c' (Work.add (b :: bs).length { s with wire := wireOf c' }) := ⟨hsame.pipe, rfl⟩
      have hst1 : (Work.add (b :: bs).length { s with wire := wireOf c' }).st = some ⟨t.len + (b :: bs).length, t.space⟩ :=
        Account.Work.add_st hst
      have ht1 : t.len + (b :: bs).length = (data ++ b :: bs).length := by rw [List.length_append, ht]
      generalize hv1 : v - (b :: bs).length = v1
      by_cases hz : v1 = 0
      · -- the segment is used up: a new one, and another round of `eofLoop`
        obtain ⟨n, rfl⟩ : ∃ n', n = n' + 1 := ⟨n - 1, by omega⟩
        obtain ⟨m, rfl⟩ : ∃ m', m = m' + 1 := ⟨m - 1, by omega⟩
        obtain ⟨s', t', segs, last, hok, hst', hsegs, hfull, hlast⟩ :=
          ih (s := fresh stv (chunksize * 1024) (Work.add (b :: bs).length { s with wire := wireOf c' })) (m := m) []
            ⟨hsame.pipe, rfl⟩ rfl rfl (PNat.pos _) (by omega) (by omega)
        subst hz
        rw [eofLoop_zero, eofLoop, if_pos rfl]
        refine ⟨s', t', (data ++ b :: bs) :: segs, last, hok, hst', congrArg (List.cons _) hsegs, ?_, hlast⟩
        rw [hfull]
        show (Work.add (b :: bs).length { s with wire := wireOf c' }).store.map Storage.len ++ _ = _
        rw [Account.Work.store_of hst1, List.map_append, List.append_assoc, List.map_cons, List.map_nil, ht1]
        rfl
      · exact ih (data ++ b :: bs) hadd hst1 ht1 (Nat.pos_of_ne_zero hz) (by omega) (by omega)

theorem fetchEof_tally (hp : c.pipe = none) :
    ∃ s', Account.fetchEof (accountEnv cut stv chunksize) ⟨[], none, 0, wireOf c, 0⟩ = .ok s' ∧
      s'.store.map Storage.len = (fetchEof (fetchEnv cut stv chunksize) c).1.map List.length := by
  have hleft := left_eq hp
  obtain ⟨s', t', segs, last, hok, hst, hsegs, hfull, hlast⟩ :=
    eofLoop_tally cut stv chunksize (m := 2 * c.left + 1) (n := c.stream.length + 1)
      (s := fresh stv (chunksize * 1024) ⟨[], none, 0, wireOf c, 0⟩) [] ⟨hp, rfl⟩ rfl rfl (PNat.pos (stv 0 (chunksize * 1024)))
      (Nat.lt_succ_self _) (by omega)
  have hsegs : (eofLoop (fetchEnv cut stv chunksize) (2 * c.left + 1) 1 [] (stv 0 (chunksize * 1024)) c).1 = segs ++ [last] := hsegs
  have hfull : s'.full.map Storage.len = segs.map List.length := hfull
  refine ⟨s'.finish, ?_, ?_⟩
  · rw [Account.fetchEof]
    show (Account.eofLoop _ (c.stream.length + 1) 0 _).map _ = _
    rw [eofLoop_zero]
    exact congrArg (Except.map Work.finish) hok
  · have hsegs' : (fetchEof (fetchEnv cut stv chunksize) c).1 = if last = [] then segs else segs ++ [last] := by
      have heof (x : List (List UInt8) × Conn)
          (hx : eofLoop (fetchEnv cut stv chunksize) (2 * c.left + 1) 1 [] (stv 0 (chunksize * 1024)) c = x) :
          fetchEof (fetchEnv cut stv chunksize) c = (if x.1.getLast? = some [] then x.1.dropLast else x.1, x.2) := by
        rw [← hx]
        rfl
      rw [heof _ rfl]
      generalize eofLoop (fetchEnv cut stv chunksize) (2 * c.left + 1) 1 [] (stv 0 (chunksize * 1024)) c = x at hsegs
      dsimp only
      rw [hsegs, List.getLast?_concat, List.dropLast_concat]
      exact if_congr Option.some_inj rfl rfl
    rw [hsegs', Work.finish, hst]
    dsimp only
    by_cases hz : last = []
    · rw [if_pos hz, if_pos (hlast.trans (List.length_eq_zero_iff.2 hz))]
      show (s'.full ++ []).map Storage.len = _
      rw [List.append_nil, hfull]
    · rw [if_neg hz, if_neg fun hlen => hz (List.length_eq_zero_iff.1 (hlast.symm.trans hlen))]
      rw [Account.Work.store_of hst, List.map_append, List.map_append, hfull, List.map_cons, hlast]
      rfl

end Ways

/-! ## `FetchBody` -/

section FetchBody

variable {c : Conn} {method : Str} {r : Response} (cut : ℕ → ℕ) (stv : ℕ → ℕ → ℕ+) (chunksize : ℕ)

theorem lengths_eq {ts : List Storage} {segs : List (List UInt8)} (h : ts.map Storage.len = segs.map List.length) :
    Account.lengths ts = segs.flatten.length := by
  have hsum (ts : List Storage) : Account.lengths ts = (ts.map Storage.len).sum := by
    induction ts with
    | nil => rfl
    | cons t ts ih => rw [Account.lengths, ih, List.map_cons, List.sum_cons]
  rw [hsum, h, List.length_flatten]

/-- The length is too large for both, or neither returns 0, or what both leave has the same lengths. -/
def Same : Except Fault Body → Except Stop Account.Ret → Prop
  | .ok b, .ok ret => ret.zero = true ∧ ret.store.map Storage.len = b.segs.map List.length ∧ ret.mklen = b.mklen ∧
      (ret.vbe = .recycled ↔ b.recycled = true)
  | .error .eof, .ok ret => ret.zero = false
  | .error .assertion, .error .tooLarge => True
  | _, _ => False

/-- How the body is read. -/
theorem readByBranch_tally (hp : c.pipe = none) (hbad : branch method r ≠ .bad) :
    (readByBranch (fetchEnv cut stv chunksize) method r c = .error .assertion ∧
      Account.readByBranch (accountEnv cut stv chunksize) ⟨[], none, 0, wireOf c, 0⟩ (branch method r) = .error .tooLarge) ∨
    (¬ (∃ b, branch method r = .length b ∧ 2 ^ 32 ≤ strtoumax 0 b) ∧
      ((∃ e, readByBranch (fetchEnv cut stv chunksize) method r c = .error .eof ∧
        Account.readByBranch (accountEnv cut stv chunksize) ⟨[], none, 0, wireOf c, 0⟩ (branch method r) = .error e) ∨
      ∃ cls mklen segs c' s', readByBranch (fetchEnv cut stv chunksize) method r c = .ok (cls, mklen, segs, c') ∧
        Account.readByBranch (accountEnv cut stv chunksize) ⟨[], none, 0, wireOf c, 0⟩ (branch method r) = .ok (cls, mklen, s') ∧
        s'.store.map Storage.len = segs.map List.length)) := by
  by_cases hlarge : ∃ b, branch method r = .length b ∧ 2 ^ 32 ≤ strtoumax 0 b
  · obtain ⟨b, hb, hle⟩ := hlarge
    have hne : strtoumax 0 b % 2 ^ 32 ≠ strtoumax 0 b := fun he => Nat.not_lt.2 hle (he ▸ Nat.mod_lt _ (by decide))
    have hassert : fetchStraight (fetchEnv cut stv chunksize) b c = .error .assertion := (if_neg (by omega)).trans (if_pos hne)
    have hstop : Account.fetchStraight (accountEnv cut stv chunksize) b ⟨[], none, 0, wireOf c, 0⟩ = .error .tooLarge :=
      (if_neg (by omega)).trans (if_pos hne)
    unfold readByBranch
    rw [hb]
    exact .inl ⟨congrArg (Except.map _) hassert, congrArg (Except.map _) hstop⟩
  · refine .inr ⟨hlarge, ?_⟩
    unfold readByBranch
    cases hbr : branch method r with
    | head => exact .inr ⟨_, _, _, _, _, rfl, rfl, rfl⟩
    | length b =>
      have hb : strtoumax 0 b < 2 ^ 32 := Nat.lt_of_not_le fun hle => hlarge ⟨b, hbr, hle⟩
      obtain ⟨e, heof, herror⟩ | ⟨x, s', hok, hok', hstore⟩ := fetchStraight_tally cut stv chunksize hb hp
      · exact .inl ⟨e, congrArg (Except.map _) heof, congrArg (Except.map _) herror⟩
      · exact .inr ⟨_, _, _, _, _, congrArg (Except.map _) hok, congrArg (Except.map _) hok', hstore⟩
    | chunked =>
      have h0 : Tallies ⟨c, [], none, 0⟩ ⟨[], none, 0, wireOf c, 0⟩ := ⟨⟨hp, rfl⟩, rfl, rfl, rfl⟩
      dsimp only
      rw [left_eq hp]
      obtain ⟨e, hnone, herror⟩ | ⟨x, s', hsome, hok, hstore⟩ := (fetchChunked_tally cut stv chunksize (c.stream.length + 1) h0).cases
      · rw [hnone]
        exact .inl ⟨e, rfl, congrArg (Except.map _) herror⟩
      · rw [hsome]
        exact .inr ⟨_, _, _, _, _, rfl, congrArg (Except.map _) hok, hstore⟩
    | bad => exact absurd hbr hbad
    | keepAlive => exact .inr ⟨_, _, _, _, _, rfl, rfl, rfl⟩
    | close =>
      obtain ⟨s', hok, hstore⟩ := fetchEof_tally cut stv chunksize hp
      exact .inr ⟨_, _, _, _, _, rfl, congrArg (Except.map _) hok, hstore⟩
    | oldhttp =>
      obtain ⟨s', hok, hstore⟩ := fetchEof_tally cut stv chunksize hp
      exact .inr ⟨_, _, _, _, _, rfl, congrArg (Except.map _) hok, hstore⟩
    | zero => exact .inr ⟨_, _, _, _, _, rfl, rfl, rfl⟩

/-- **The two embeddings** of `FetchBody` agree, for a body behind the header of which nothing was read before. -/
theorem fetchBody_tally (method : Str) (r : Response) (hp : c.pipe = none) :
    Same (fetchBody (fetchEnv cut stv chunksize) method r c)
      (Account.fetchBody (accountEnv cut stv chunksize) method r (wireOf c)) := by
  by_cases hbad : branch method r = .bad
  · have heof : fetchBody (fetchEnv cut stv chunksize) method r c = .error .eof := by
      unfold fetchBody readByBranch
      rw [hbad]
      rfl
    have hret : Account.fetchBody (accountEnv cut stv chunksize) method r (wireOf c) = .ok ⟨false, [], 0, .closed, none⟩ := by
      unfold Account.fetchBody
      rw [hbad]
    rw [heof, hret]
    exact rfl
  · unfold fetchBody
    rw [Account.fetchBody_eq hbad]
    obtain ⟨hassert, hstop⟩ | ⟨hsmall, hread⟩ := readByBranch_tally cut stv chunksize hp hbad
    · rw [hassert, hstop]
      trivial
    · -- the length is not too large and there is storage, so that the function returns
      have hret : ∃ ret, Account.epilogue r (Account.readByBranch (accountEnv cut stv chunksize) ⟨[], none, 0, wireOf c, 0⟩
          (branch method r)) = .ok ret := by
        rw [← Account.fetchBody_eq hbad]
        obtain ⟨⟨j, v, hnone⟩, -⟩ | ⟨ret, hret, -⟩ := Account.fetchBody_spec (accountEnv cut stv chunksize) (wireOf c) fun b hb =>
          Nat.lt_of_not_le fun hle => hsmall ⟨b, hb, hle⟩
        · cases hnone
        · exact ⟨ret, hret⟩
      obtain ⟨ret, hret⟩ := hret
      obtain ⟨e, heof, herror⟩ | ⟨cls, mklen, segs, c', s', hok, hok', hstore⟩ := hread
      · rw [herror] at hret ⊢
        rw [heof, hret]
        cases e with
        | minus1 s =>
          cases hret
          exact rfl
        | tooLarge => cases hret
        | noStorage => cases hret
        | accounts => cases hret
        | fuel => cases hret
      · rw [hok'] at hret ⊢
        rw [hok, hret]
        have hlen : Account.lengths s'.store = segs.flatten.length := lengths_eq hstore
        unfold Account.epilogue at hret
        dsimp only at hret
        split at hret
        · cases hret
        next hsum =>
          rw [hlen] at hsum
          cases hret
          refine ⟨rfl, hstore, ?_, ?_⟩
          · show (if mklen = true then some s'.len else none) = if mklen = true then some (segs.flatten.length % 2 ^ 32) else none
            rw [Decidable.not_not.1 hsum]
          · dsimp only
            generalize (cls || httpHdrIs r.http hConnection "close".toList ||
              (r.old && !httpHdrIs r.http hConnection "keep-alive".toList)) = b
            cases b with
            | true => exact ⟨fun h => (by cases h), fun h => (by cases h)⟩
            | false => exact ⟨fun _ => rfl, fun _ => rfl⟩

end FetchBody

end Varnish.Http.Tally
