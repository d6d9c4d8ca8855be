import Mathlib.Data.Int.Notation
import Mathlib.Data.List.TakeWhile
import Varnish.Lib.Scanf

/-!
# Varnish.Cli.Response — responses of the CLI (`cli_writeres`, `cli_readres`)

* `cliWriteres`, `readTmo`, `cliReadres`: a response is written, and read from a descriptor whose reads return what they like.
* `readTmo_spec`: a read goes on until all is there.
* `in_step`: responses that are read one after the other are those that were written, and nothing else is read.
-/

namespace Varnish.Response

open Varnish.Lib.Scanf

abbrev Bytes := List UInt8

/-! ## Writing -/

section Writing

/-- `CLI_LINE0_LEN` -/
def cliLine0Len : ℕ := 13

/-- What `strlen` counts. -/
def cstr (s : Bytes) : Bytes := s.takeWhile (· ≠ 0)

/-- `"%-3d %-8d\n"` -/
def line0 (result len : ℕ) : Bytes := left 3 (decimal result) ++ [32] ++ left 8 (decimal len) ++ [10]

/-- What `cli_writeres` writes.  `none` is a failed assertion. -/
def cliWriteres (result : ℕ) (sb : Bytes) : Option Bytes :=
  if ¬ (100 ≤ result ∧ result ≤ 999) then none
  else if (line0 result sb.length).length ≠ cliLine0Len then none
  else some (cstr (line0 result sb.length) ++ cstr sb ++ [10])

end Writing

/-! ## Reading -/

section Reading

/-- What a read finds when nothing is left. -/
inductive Ending
  /-- Nothing yet: it waits. -/
  | more
  | eof
  | error

/-- A descriptor: what was written and is not read yet, and how much the next reads return, which is at least one byte and not more than
there is or was asked for. -/
structure Fd where
  rest : Bytes
  sizes : List ℕ
  ending : Ending

/-- `read` of at most `len` bytes: what it returned, and the bytes.  `none`: it waits. -/
def read (fd : Fd) (len : ℕ) : Option (ℤ × Bytes × Fd) :=
  if fd.rest = [] then
    match fd.ending with
    | .more => none
    | .eof => some (0, [], fd)
    | .error => some (-1, [], fd)
  else
    let n := min len (max 1 (fd.sizes.head?.getD len))
    some ((fd.rest.take n).length, fd.rest.take n, { fd with rest := fd.rest.drop n, sizes := fd.sizes.tail })

/-- The loop of `read_tmo`, which has read `acc`. -/
def readLoop : (fuel : ℕ) → Fd → (len : ℕ) → (acc : Bytes) → Option (ℤ × Bytes × Fd)
  | 0, _, _, _ => none
  | fuel + 1, fd, len, acc =>
    if len = 0 then some (acc.length, acc, fd)
    else
      match read fd len with
      | none => none
      | some (i, d, fd) =>
        if i < 0 then some (i, acc, fd)
        else if i = 0 then some (acc.length, acc, fd)
        else readLoop fuel fd (len - d.length) (acc ++ d)

/-- `read_tmo`.  `poll` finds what was written, or the end; else it times out. -/
def readTmo (fd : Fd) (len : ℕ) : Option (ℤ × Bytes × Fd) :=
  match fd.rest, fd.ending with
  | [], .more => some (-1, [], fd)
  | _, _ => readLoop (len + 1) fd len []

def commsHdr : Bytes := "CLI communication error (hdr)".toList.map fun c => UInt8.ofNat c.toNat

def commsBody : Bytes := "CLI communication error (body)".toList.map fun c => UInt8.ofNat c.toNat

/-- `CLIS_COMMS` -/
def clisComms : ℕ := 400

/-- What `cli_readres` returned, and what it stored for its caller. -/
structure Answer where
  ret : ℤ
  status : ℕ
  text : Bytes
deriving DecidableEq

/-- `sscanf` with `"%u %u\n"` -/
def scanLine0 (res : Bytes) : Option (UInt32 × UInt32) :=
  (pair unsigned (fun u => pair space fun _ => pair unsigned fun v => give (u, v)) (cstr res)).map Prod.fst

/-- `cli_readres`.  `none` is a failed assertion, or a read that waits. -/
def cliReadres (fd : Fd) : Option (Answer × Fd) :=
  match readTmo fd cliLine0Len with
  | none => none
  | some (i, res, fd) =>
    if i ≠ cliLine0Len then some (⟨if i ≠ 0 then i else clisComms, clisComms, commsHdr⟩, fd)
    else if ¬ (res[3]? = some 32 ∧ res[cliLine0Len - 1]? = some 10) then none
    else
      match scanLine0 (res.take (cliLine0Len - 1)) with
      | none => none
      | some (u, v) =>
        match readTmo fd (v + 1).toNat with
        | none => none
        | some (i, p, fd) =>
          if i < 0 then some (⟨i, clisComms, commsBody⟩, fd)
          else if ¬ (i = (v + 1).toNat ∧ p[v.toNat]? = some 10) then none
          else some (⟨0, u.toNat, cstr (p.take v.toNat)⟩, fd)

/-- Responses that are read one after the other. -/
def readResponses : ℕ → Fd → Option (List Answer × Fd)
  | 0, fd => some ([], fd)
  | n + 1, fd => do
    let (a, fd) ← cliReadres fd
    let (as, fd) ← readResponses n fd
    some (a :: as, fd)

end Reading

/-! ## What was written is read -/

section RoundTrip

variable {fd : Fd} {b t sb acc : Bytes} {result len fuel : ℕ}

/-- A status, and a body without NUL whose length has at most eight digits. -/
def Valid (r : ℕ × Bytes) : Prop := (100 ≤ r.1 ∧ r.1 ≤ 999) ∧ 0 ∉ r.2 ∧ r.2.length < 10 ^ 8

theorem cstr_of_not_mem (h : 0 ∉ b) : cstr b = b :=
  List.takeWhile_eq_self_iff.mpr fun _ hc => decide_eq_true fun hz => h (hz ▸ hc)

/-- A read that finds something returns some of it. -/
theorem read_spec (hrest : fd.rest = b ++ t) (hb : b ≠ []) : ∃ (d : Bytes) (fd' : Fd), read fd b.length = some ((d.length : ℤ), d, fd') ∧ d ≠ [] ∧
    d <+: b ∧ fd'.rest = b.drop d.length ++ t := by
  have hne : fd.rest ≠ [] := by
    rw [hrest]
    exact List.append_ne_nil_of_left_ne_nil hb t
  have hlen : 0 < b.length := List.length_pos_iff.mpr hb
  generalize hn : min b.length (max 1 (fd.sizes.head?.getD b.length)) = n
  have hle : n ≤ b.length := by omega
  have hpos : 0 < n := by omega
  have htake : fd.rest.take n = b.take n := by rw [hrest, List.take_append_of_le_length hle]
  refine ⟨b.take n, { fd with rest := fd.rest.drop n, sizes := fd.sizes.tail }, ?_, ?_, List.take_prefix n b, ?_⟩
  · rw [read, if_neg hne]
    dsimp only
    rw [hn, htake]
  · intro h
    have := congrArg List.length h
    rw [List.length_take, List.length_nil] at this
    omega
  · show fd.rest.drop n = _
    rw [hrest, List.drop_append_of_le_length hle, List.length_take, Nat.min_eq_left hle]

/-- The loop goes on until all is there. -/
theorem readLoop_spec (hrest : fd.rest = b ++ t) (hf : b.length < fuel) :
    ∃ fd' : Fd, readLoop fuel fd b.length acc = some (((acc ++ b).length : ℤ), acc ++ b, fd') ∧ fd'.rest = t := by
  induction fuel generalizing fd b acc with
  | zero => exact absurd hf (Nat.not_lt_zero _)
  | succ fuel ih =>
    rw [readLoop]
    by_cases hb : b = []
    · subst hb
      rw [if_pos List.length_nil, List.append_nil]
      exact ⟨fd, rfl, hrest⟩
    · have hlen : 0 < b.length := List.length_pos_iff.mpr hb
      obtain ⟨d, fd₁, hread, hd, ⟨b', rfl⟩, hrest₁⟩ := read_spec hrest hb
      have hdlen : 0 < d.length := List.length_pos_iff.mpr hd
      rw [List.drop_left] at hrest₁
      rw [List.length_append] at hf
      obtain ⟨fd', hloop, hrest'⟩ := @ih fd₁ b' (acc ++ d) hrest₁ (by omega)
      rw [if_neg (by omega), hread]
      dsimp only
      rw [if_neg (by omega), if_neg (by omega), List.length_append, Nat.add_sub_cancel_left, hloop, List.append_assoc]
      exact ⟨fd', rfl, hrest'⟩

/-- **However the reads are cut, all that was asked for is read, and not more.** -/
theorem readTmo_spec (hrest : fd.rest = b ++ t) (hb : b ≠ []) :
    ∃ fd' : Fd, readTmo fd b.length = some ((b.length : ℤ), b, fd') ∧ fd'.rest = t := by
  have hne : fd.rest ≠ [] := by
    rw [hrest]
    exact List.append_ne_nil_of_left_ne_nil hb t
  obtain ⟨fd', hloop, hrest'⟩ := @readLoop_spec fd b t [] (b.length + 1) hrest (Nat.lt_succ_self _)
  refine ⟨fd', ?_, hrest'⟩
  rw [readTmo]
  split
  · rename_i h _
    exact absurd h hne
  · exact hloop

theorem decimal_no_nul (n : ℕ) : 0 ∉ decimal n := fun h => absurd (isDigit_decimal 0 h) (by decide)

theorem line0_no_nul (result len : ℕ) : 0 ∉ line0 result len := by
  have hleft : ∀ w n, 0 ∉ left w (decimal n) := by
    intro w n h
    rcases List.mem_append.mp h with h | h
    · exact decimal_no_nul n h
    · exact absurd (List.eq_of_mem_replicate h) (by decide)
  intro h
  rcases List.mem_append.mp h with h | h
  · rcases List.mem_append.mp h with h | h
    · rcases List.mem_append.mp h with h | h
      · exact hleft _ _ h
      · exact absurd (List.mem_singleton.mp h) (by decide)
    · exact hleft _ _ h
  · exact absurd (List.mem_singleton.mp h) (by decide)

theorem length_status (h : 100 ≤ result ∧ result ≤ 999) : (decimal result).length = 3 := by
  have h1 : (decimal result).length ≤ 3 := (length_decimal_le (by decide)).mpr (Nat.lt_of_le_of_lt h.2 (by decide))
  have h2 : ¬ (decimal result).length ≤ 2 := fun hle => absurd ((length_decimal_le (by decide)).mp hle) (Nat.not_lt.mpr h.1)
  omega

theorem length_line0 (h : 100 ≤ result ∧ result ≤ 999) (hlen : len < 10 ^ 8) : (line0 result len).length = cliLine0Len := by
  have h8 : (decimal len).length ≤ 8 := (length_decimal_le (by decide)).mpr hlen
  have h3 := length_status h
  rw [line0, List.length_append, List.length_append, List.length_append, length_left (Nat.le_of_eq h3), length_left h8]
  rfl

/-- The assertions of the writer hold. -/
theorem cliWriteres_eq (h : Valid (result, sb)) : cliWriteres result sb = some (line0 result sb.length ++ (sb ++ [10])) := by
  obtain ⟨hres, h0, hlen⟩ := h
  rw [cliWriteres, if_neg (not_not.mpr hres), if_neg (not_not.mpr (length_line0 hres hlen)), cstr_of_not_mem (line0_no_nul _ _),
    cstr_of_not_mem h0, List.append_assoc]

/-- The first line is read. -/
theorem scanLine0_eq (h : 100 ≤ result ∧ result ≤ 999) (hlen : len < 10 ^ 8) :
    scanLine0 ((line0 result len).take (cliLine0Len - 1)) = some (UInt32.ofNat result, UInt32.ofNat len) := by
  have hline : (line0 result len).take (cliLine0Len - 1) = decimal result ++ 32 :: left 8 (decimal len) := by
    have h3 := length_status h
    have hlen : (left 3 (decimal result) ++ [32] ++ left 8 (decimal len)).length = cliLine0Len - 1 := by
      rw [List.length_append, List.length_append, length_left (Nat.le_of_eq h3), length_left ((length_decimal_le (by decide)).mpr hlen)]
      rfl
    have hleft : left 3 (decimal result) = decimal result := by rw [left, h3, Nat.sub_self, List.replicate_zero, List.append_nil]
    rw [line0, ← hlen, List.take_left, hleft, List.append_assoc, List.singleton_append]
  have h0 : 0 ∉ (line0 result len).take (cliLine0Len - 1) := fun hm => line0_no_nul _ _ (List.mem_of_mem_take hm)
  have hblank : ∀ c ∈ (List.replicate (8 - (decimal len).length) 32 : Bytes).head?, isDigit c = false := by
    intro c hc
    rw [List.eq_of_mem_replicate (List.mem_of_mem_head? hc)]
    rfl
  have hspace : space (32 :: left 8 (decimal len)) = some ((), left 8 (decimal len)) := space_decimal len _
  rw [scanLine0, cstr_of_not_mem h0, hline, pair, unsigned_decimal (by omega) (fun c hc => by cases hc; rfl), Option.bind_some, pair, hspace,
    Option.bind_some, pair, left, unsigned_decimal (by omega) hblank]
  rfl

theorem line0_getElem (h : 100 ≤ result ∧ result ≤ 999) (hlen : len < 10 ^ 8) :
    (line0 result len)[3]? = some 32 ∧ (line0 result len)[cliLine0Len - 1]? = some 10 := by
  have h3 := length_left (Nat.le_of_eq (length_status h))
  have h8 := length_left ((length_decimal_le (by decide)).mpr hlen : (decimal len).length ≤ 8)
  constructor
  · rw [line0, List.append_assoc, List.append_assoc, List.getElem?_append_right (Nat.le_of_eq h3), h3]
    rfl
  · have h12 : (left 3 (decimal result) ++ [32] ++ left 8 (decimal len)).length = cliLine0Len - 1 := by
      rw [List.length_append, List.length_append, h3, h8]
      rfl
    rw [line0, ← h12, List.getElem?_concat_length]

/-- A response is read whole, and nothing behind it. -/
theorem cliReadres_spec (h : Valid (result, sb)) (hrest : fd.rest = line0 result sb.length ++ (sb ++ [10]) ++ t) :
    ∃ fd' : Fd, cliReadres fd = some (⟨0, result, sb⟩, fd') ∧ fd'.rest = t := by
  obtain ⟨hres, h0, hlen⟩ : (100 ≤ result ∧ result ≤ 999) ∧ 0 ∉ sb ∧ sb.length < 10 ^ 8 := h
  have h13 := length_line0 hres hlen
  have hsize : sb.length + 1 < UInt32.size ∧ result < UInt32.size := by
    rw [UInt32.size]
    omega
  have hne : line0 result sb.length ≠ [] := fun h => absurd ((congrArg List.length h).symm.trans h13) (by decide)
  rw [List.append_assoc] at hrest
  obtain ⟨fd₁, hread, hrest₁⟩ := readTmo_spec hrest hne
  obtain ⟨fd₂, hread', hrest₂⟩ := readTmo_spec hrest₁ (List.append_ne_nil_of_right_ne_nil sb (List.cons_ne_nil 10 []))
  have hv : (UInt32.ofNat sb.length).toNat = sb.length := UInt32.toNat_ofNat_of_lt (by omega)
  have hv1 : (UInt32.ofNat sb.length + 1).toNat = (sb ++ [10]).length := by
    rw [UInt32.toNat_add, hv, List.length_append, List.length_singleton]
    exact Nat.mod_eq_of_lt hsize.1
  have hr : (UInt32.ofNat result).toNat = result := UInt32.toNat_ofNat_of_lt hsize.2
  refine ⟨fd₂, ?_, hrest₂⟩
  rw [h13] at hread
  rw [cliReadres, hread]
  dsimp only
  rw [if_neg (not_not.mpr rfl), if_neg (not_not.mpr (line0_getElem hres hlen)), scanLine0_eq hres hlen]
  dsimp only
  rw [hv1, hread']
  dsimp only
  rw [hv, if_neg (by omega), if_neg (not_not.mpr ⟨rfl, List.getElem?_concat_length⟩), List.take_left, cstr_of_not_mem h0, hr]

/-- **Responses that are read one after the other are those that were written**, however the reads are cut, and what is behind them is left. -/
theorem in_step {rs : List (ℕ × Bytes)} (h : ∀ r ∈ rs, Valid r) : ∃ ws : List Bytes, rs.mapM (fun r => cliWriteres r.1 r.2) = some ws ∧
    ∀ (fd : Fd) (t : Bytes), fd.rest = ws.flatten ++ t → ∃ fd' : Fd,
      readResponses rs.length fd = some (rs.map fun r => ⟨0, r.1, r.2⟩, fd') ∧ fd'.rest = t := by
  induction rs with
  | nil => exact ⟨[], rfl, fun fd t hrest => ⟨fd, rfl, hrest⟩⟩
  | cons r rs ih =>
    obtain ⟨result, sb⟩ := r
    have hr := h (result, sb) List.mem_cons_self
    obtain ⟨ws, hws, hread⟩ := ih fun r hr => h r (List.mem_cons_of_mem _ hr)
    refine ⟨(line0 result sb.length ++ (sb ++ [10])) :: ws, ?_, fun fd t hrest => ?_⟩
    · rw [List.mapM_cons, hws, cliWriteres_eq hr]
      rfl
    · rw [List.flatten_cons, List.append_assoc] at hrest
      obtain ⟨fd₁, h1, hrest₁⟩ := cliReadres_spec hr hrest
      obtain ⟨fd₂, h2, hrest₂⟩ := hread fd₁ t hrest₁
      refine ⟨fd₂, ?_, hrest₂⟩
      rw [List.length_cons, readResponses, h1]
      dsimp only [Option.bind_eq_bind, Option.bind_some]
      rw [h2]
      rfl

/-- Two responses, the second one empty. -/
theorem in_step_two : ∃ ws : List Bytes, [(200, [80, 79, 78, 71]), (106, [])].mapM (fun r => cliWriteres r.1 r.2) = some ws ∧
    ∀ (fd : Fd) (t : Bytes), fd.rest = ws.flatten ++ t → ∃ fd' : Fd,
      readResponses 2 fd = some ([⟨0, 200, [80, 79, 78, 71]⟩, ⟨0, 106, []⟩], fd') ∧ fd'.rest = t :=
  @in_step [(200, [80, 79, 78, 71]), (106, [])] (by
    intro r hr
    rcases List.mem_cons.mp hr with rfl | hr
    · exact ⟨by decide, by decide, by decide⟩
    · rw [List.mem_singleton.mp hr]
      exact ⟨by decide, by decide, by decide⟩)

end RoundTrip

end Varnish.Response
