import Mathlib.Algebra.Group.Nat.Defs
import Mathlib.Tactic.IntervalCases
import Varnish.Lib.Stores

/-!
# Varnish.Shmlog.Model — the records of the shared memory log, and how they are stored

The embedding of `bin/varnishd/shmlog.c` and of the reader in `lib/libvarnishapi/shmlog.c`.  Addresses are relative to
`logstart`.  The contents of a record are at `SHMLOG_DATA`, 7 bytes behind its tag; the next tag is `SHMLOG_NEXTTAG`, 8 bytes,
and the length of the contents behind it.

* `vslHdr`: the stores of `vsl_hdr`, in their order.  `entry`: what a reader takes from the log.
* `Call`, `reserve`: a call of `VSLR`, `VSL` or `WSL_Flush`; the space it gets, and the stores it makes while it holds the
  mutex and afterwards.
* `lays`: the stores of a call are of its bytes and of one end marker behind them, and the first tag is stored last.
* `parse`: the log is read by the lengths of its records.  `parse_recs`: records that are there are read.
-/

namespace Varnish.Shmlog

open Varnish.Lib

/-! ## Records -/

/-- `SLT_ENDMARKER` -/
def endMarker : UInt8 := 0

/-- `SLT_WRAPMARKER` -/
def wrapMarker : UInt8 := 255

/-- The other members of `enum shmlogtag`. -/
structure Tag where
  val : UInt8
  notEnd : val ≠ endMarker
  notWrap : val ≠ wrapMarker
deriving DecidableEq

/-- A record; `vsl_hdr` asserts that its length has 16 bits. -/
structure Rec where
  tag : Tag
  id : UInt32
  data : List UInt8
  short : data.length < 0x10000
deriving DecidableEq

/-- The bytes of a record up to the next tag. -/
def Rec.bytes (r : Rec) : List UInt8 :=
  [r.tag.val, UInt8.ofNat (r.data.length >>> 8), UInt8.ofNat r.data.length, UInt8.ofNat (r.id.toNat >>> 24),
    UInt8.ofNat (r.id.toNat >>> 16), UInt8.ofNat (r.id.toNat >>> 8), UInt8.ofNat r.id.toNat] ++ r.data ++ [0]

def recBytes (rs : List Rec) : List UInt8 := rs.flatMap Rec.bytes

/-- `vsl_hdr`, where `UInt8.ofNat` is the `& 0xff`. -/
def vslHdr (r : Rec) (p : ℕ) : List Store :=
  let len := r.data.length
  [(p + 1, UInt8.ofNat (len >>> 8)),
    (p + 2, UInt8.ofNat len),
    (p + 3, UInt8.ofNat (r.id.toNat >>> 24)),
    (p + 4, UInt8.ofNat (r.id.toNat >>> 16)),
    (p + 5, UInt8.ofNat (r.id.toNat >>> 8)),
    (p + 6, UInt8.ofNat r.id.toNat),
    (p + (7 + len), 0),
    (p + (8 + len), endMarker),
    (p, r.tag.val)]

/-! ## The reader -/

/-- `SHMLOG_LEN` -/
def shmlogLen (m : Mem) (p : ℕ) : ℕ := (m (p + 1)).toNat <<< 8 ||| (m (p + 2)).toNat

/-- `SHMLOG_ID` -/
def shmlogId (m : Mem) (p : ℕ) : ℕ :=
  (m (p + 3)).toNat <<< 24 ||| ((m (p + 4)).toNat <<< 16 ||| ((m (p + 5)).toNat <<< 8 ||| (m (p + 6)).toNat))

/-- What a reader takes from the log: a tag, an identifier and the contents. -/
structure Entry where
  tag : UInt8
  id : ℕ
  data : List UInt8
deriving DecidableEq

def entry (m : Mem) (p : ℕ) : Entry := ⟨m p, shmlogId m p, rd m (p + 7) (shmlogLen m p)⟩

def Rec.entry (r : Rec) : Entry := ⟨r.tag.val, r.id.toNat, r.data⟩

/-- The entries from `p` up to the end marker, and where that is. -/
def parse (m : Mem) : (fuel : ℕ) → (p : ℕ) → Option (List Entry × ℕ)
  | 0, _ => none
  | fuel + 1, p =>
    if m p = endMarker then some ([], p)
    else do
      let (es, q) ← parse m fuel (p + shmlogLen m p + 8)
      some (entry m p :: es, q)

/-! ## Calls -/

/-- The parameter `shm_reclen`, which is at most 65535. -/
structure Params where
  reclen : ℕ
  lt : reclen < 0x10000

/-- The record of a text, which is cut off after `shm_reclen` bytes. -/
def Params.record (P : Params) (tag : Tag) (id : UInt32) (t : List UInt8) : Rec :=
  ⟨tag, id, t.take P.reclen, by
    have := P.lt
    rw [List.length_take]
    omega⟩

/-- A call: `VSLR` with a text, `VSL` with what its format gives, `WSL_Flush` with the records in the worker's buffer. -/
inductive Call
  | vslr (tag : Tag) (id : UInt32) (t : List UInt8)
  | vsl (tag : Tag) (id : UInt32) (out : List UInt8)
  | flush (wlb : List Rec)
deriving DecidableEq

section Calls

variable (P : Params)

def Call.recs : Call → List Rec
  | .vslr tag id t => [P.record tag id t]
  | .vsl tag id out => [P.record tag id out]
  | .flush wlb => wlb

/-- The bytes that the call adds to the log. -/
def Call.bytes (c : Call) : List UInt8 := recBytes (c.recs P)

/-- The room that is asked for: `VSL` does not know yet how long its record gets. -/
def Call.need (c : Call) : ℕ :=
  match c with
  | .vslr _ _ _ => (c.bytes P).length
  | .vsl _ _ _ => 8 + P.reclen
  | .flush _ => (c.bytes P).length

/-- The stores that are made before the mutex is released. -/
def Call.held (p : ℕ) (c : Call) : List Store :=
  match c with
  | .vslr _ _ _ => []
  | .vsl tag id out =>
    let r := P.record tag id out
    memcpy (p + 7) (r.data ++ [0]) ++ vslHdr r p
  | .flush _ => [(p + (c.bytes P).length, endMarker)]

/-- The stores that are made afterwards. -/
def Call.todo (p : ℕ) (c : Call) : List Store :=
  match c with
  | .vslr tag id t =>
    let r := P.record tag id t
    memcpy (p + 7) r.data ++ vslHdr r p
  | .vsl _ _ _ => []
  | .flush _ => memcpy (p + 1) ((c.bytes P).drop 1) ++ memcpy p ((c.bytes P).take 1)

/-- The stores of `vsl_wrap`. -/
def vslWrap (ptr : ℕ) : List Store := [(0, endMarker), (ptr, wrapMarker)]

/-- The test for a wrap, in 32 bits. -/
def wraps (size ptr need : ℕ) : Bool := size ≤ (ptr + need + 1) % 2 ^ 32

/-- What a call gets: where its bytes belong, the next position, and its stores. -/
structure Grant where
  base : ℕ
  ptr : ℕ
  held : List Store
  todo : List Store

/-- The part of a call that moves `loghead->ptr`; `none` is a failed assertion. -/
def reserve (size ptr : ℕ) (c : Call) : Option Grant :=
  let entryOk : Bool := match c with
    | .flush _ => true
    | _ => ptr < size
  let wrap := wraps size ptr (c.need P)
  let base := if wrap then 0 else ptr
  let ptr' := (base + (c.bytes P).length) % 2 ^ 32
  if entryOk ∧ ptr' < size then
    some ⟨base, ptr', (if wrap then vslWrap ptr else []) ++ c.held P base, c.todo P base⟩
  else none

end Calls

/-! ## What the stores of a call lay down -/

section Lays

variable {P : Params} {p : ℕ} {r : Rec} {rs : List Rec} {bs d : List UInt8} {ss : List Store}

/-- The stores are of the bytes at `p` and of the end marker behind them, and the first byte is stored last. -/
structure Lays (p : ℕ) (bs : List UInt8) (ss : List Store) : Prop where
  every : ∀ i, i < bs.length → ∃ v, (p + i, v) ∈ ss
  right : ∀ s ∈ ss, (∃ i, s.1 = p + i ∧ bs[i]? = some s.2) ∨ s = (p + bs.length, endMarker)
  mark : (p + bs.length, endMarker) ∈ ss
  tagLast : ∃ init b, ss = init ++ [(p, b)] ∧ ∀ s ∈ init, s.1 ≠ p

@[simp] theorem length_bytes (r : Rec) : r.bytes.length = 8 + r.data.length := by
  simp only [Rec.bytes, List.length_append, List.length_cons, List.length_nil]
  omega

theorem getElem?_bytes (r : Rec) (i : ℕ) : r.bytes[7 + i]? = (r.data ++ [0])[i]? := by
  rw [Rec.bytes, List.append_assoc, List.getElem?_append_right (by simp)]
  simp

@[simp] theorem recBytes_nil : recBytes [] = [] := rfl

@[simp] theorem recBytes_cons (r : Rec) (rs : List Rec) : recBytes (r :: rs) = r.bytes ++ recBytes rs := rfl

theorem recBytes_append (rs rs' : List Rec) : recBytes (rs ++ rs') = recBytes rs ++ recBytes rs' :=
  List.flatMap_append

theorem recBytes_singleton (r : Rec) : recBytes [r] = r.bytes := by simp

/-- Each store of `vsl_hdr` is of its byte. -/
theorem vslHdr_right {s : Store} (hs : s ∈ vslHdr r p) :
    (∃ i, s.1 = p + i ∧ r.bytes[i]? = some s.2) ∨ s = (p + r.bytes.length, endMarker) := by
  have hz : r.bytes[7 + r.data.length]? = some 0 := by
    rw [getElem?_bytes]
    simp
  simp only [vslHdr, List.mem_cons, List.not_mem_nil, or_false] at hs
  rcases hs with rfl | rfl | rfl | rfl | rfl | rfl | rfl | rfl | rfl
  · exact .inl ⟨1, rfl, rfl⟩
  · exact .inl ⟨2, rfl, rfl⟩
  · exact .inl ⟨3, rfl, rfl⟩
  · exact .inl ⟨4, rfl, rfl⟩
  · exact .inl ⟨5, rfl, rfl⟩
  · exact .inl ⟨6, rfl, rfl⟩
  · exact .inl ⟨_, rfl, hz⟩
  · exact .inr (by rw [length_bytes])
  · exact .inl ⟨0, rfl, rfl⟩

/-- The contents are copied first, then `vsl_hdr` stores the rest. -/
theorem lays_record (hd : d <+: r.data ++ [0]) (hl : r.data.length ≤ d.length) :
    Lays p r.bytes (memcpy (p + 7) d ++ vslHdr r p) where
  every i hi := by
    rw [length_bytes] at hi
    by_cases h7 : i < 7
    · have h : ∃ v, (p + i, v) ∈ vslHdr r p := by
        interval_cases i <;> simp [vslHdr]
      obtain ⟨v, hv⟩ := h
      exact ⟨v, List.mem_append_right _ hv⟩
    · by_cases he : i = 7 + r.data.length
      · exact ⟨0, List.mem_append_right _ (by simp [vslHdr, he])⟩
      · have hi' : i - 7 < d.length := by omega
        refine ⟨d[i - 7], List.mem_append_left _ (mem_memcpy.mpr ⟨i - 7, ?_, List.getElem?_eq_getElem hi'⟩)⟩
        simp only
        omega
  right s hs := by
    rcases List.mem_append.mp hs with hs | hs
    · obtain ⟨i, hi, hb⟩ := mem_memcpy.mp hs
      refine .inl ⟨7 + i, by omega, ?_⟩
      obtain ⟨t, ht⟩ := hd
      obtain ⟨hlt, -⟩ := List.getElem?_eq_some_iff.mp hb
      rw [getElem?_bytes, ← ht, List.getElem?_append_left hlt]
      exact hb
    · exact vslHdr_right hs
  mark := List.mem_append_right _ (by simp [vslHdr])
  tagLast := by
    refine ⟨memcpy (p + 7) d ++ (vslHdr r p).dropLast, r.tag.val, by simp [vslHdr], fun s hs => ?_⟩
    rcases List.mem_append.mp hs with hs | hs
    · obtain ⟨i, hi, -⟩ := mem_memcpy.mp hs
      omega
    · simp only [vslHdr, List.dropLast, List.mem_cons, List.not_mem_nil, or_false] at hs
      rcases hs with rfl | rfl | rfl | rfl | rfl | rfl | rfl | rfl <;> simp

/-- `WSL_Flush` stores the end marker first, then all but the first byte. -/
theorem lays_flush (h : bs ≠ []) :
    Lays p bs ((p + bs.length, endMarker) :: (memcpy (p + 1) (bs.drop 1) ++ memcpy p (bs.take 1))) := by
  obtain ⟨b, bs, rfl⟩ := List.exists_cons_of_ne_nil h
  constructor
  case every =>
    rintro (_ | i) hi
    · exact ⟨b, by simp [memcpy]⟩
    · have hi : i < bs.length := by simpa using hi
      refine ⟨bs[i], List.mem_cons_of_mem _ (List.mem_append_left _ (mem_memcpy.mpr ⟨i, ?_, ?_⟩))⟩
      · simp only
        omega
      · exact List.getElem?_eq_getElem hi
  case right =>
    intro s hs
    rcases List.mem_cons.mp hs with rfl | hs
    · exact .inr rfl
    left
    rcases List.mem_append.mp hs with hs | hs
    · obtain ⟨i, hi, hb⟩ := mem_memcpy.mp hs
      exact ⟨i + 1, by omega, hb⟩
    · simp only [List.take_succ_cons, List.take_zero, memcpy, List.mem_singleton] at hs
      exact ⟨0, by rw [hs]; rfl, by rw [hs]; rfl⟩
  case mark => exact List.mem_cons_self
  case tagLast =>
    refine ⟨(p + (b :: bs).length, endMarker) :: memcpy (p + 1) bs, b, by simp [memcpy], fun s hs => ?_⟩
    rcases List.mem_cons.mp hs with rfl | hs
    · simp
    · obtain ⟨i, hi, -⟩ := mem_memcpy.mp hs
      omega

theorem bytes_ne_nil (h : rs ≠ []) : recBytes rs ≠ [] := by
  obtain ⟨r, rs, rfl⟩ := List.exists_cons_of_ne_nil h
  simp [Rec.bytes]

/-- So it is for every call that has records. -/
theorem lays {c : Call} (p : ℕ) (h : c.recs P ≠ []) : Lays p (c.bytes P) (c.held P p ++ c.todo P p) := by
  cases c with
  | vslr tag id t =>
    rw [Call.bytes, Call.recs, recBytes_singleton]
    exact lays_record (List.prefix_append _ _) (le_refl _)
  | vsl tag id out =>
    rw [Call.bytes, Call.recs, recBytes_singleton, Call.todo, List.append_nil]
    exact lays_record (List.prefix_refl _) (by simp)
  | flush wlb => exact lays_flush (bytes_ne_nil h)

theorem length_le_need (P : Params) (c : Call) : (c.bytes P).length ≤ c.need P := by
  cases c with
  | vslr tag id t => exact le_refl _
  | vsl tag id out =>
    simp only [Call.bytes, Call.recs, recBytes_singleton, length_bytes, Call.need, Params.record, List.length_take]
    omega
  | flush wlb => exact le_refl _

/-- All stores but the last are behind the first tag. -/
theorem Lays.ne_base {sl : List Store} {x : Store} (h : Lays p bs ss) (hs : x :: sl <:+ ss)
    (hne : sl ≠ []) : x.1 ≠ p := by
  obtain ⟨init, b, hss, hinit⟩ := h.tagLast
  obtain ⟨t, ht⟩ := hs
  obtain ⟨ys, y, rfl⟩ := (List.eq_nil_or_concat sl).resolve_left hne
  rw [hss, List.concat_eq_append, ← List.cons_append, ← List.append_assoc] at ht
  have hin := (List.append_inj' ht rfl).1
  apply hinit x
  rw [← hin]
  simp

theorem Lays.base_mem {sl : List Store} (h : Lays p bs ss) (hs : sl <:+ ss) (hne : sl ≠ []) :
    ∃ v, (p, v) ∈ sl := by
  obtain ⟨init, b, hss, -⟩ := h.tagLast
  obtain ⟨t, ht⟩ := hs
  obtain ⟨ys, y, rfl⟩ := (List.eq_nil_or_concat sl).resolve_left hne
  rw [hss, List.concat_eq_append, ← List.append_assoc] at ht
  have hl := (List.append_inj' ht rfl).2
  refine ⟨b, ?_⟩
  rw [List.concat_eq_append, hl]
  exact List.mem_append_right _ List.mem_cons_self

theorem Lays.range {x : Store} (h : Lays p bs ss) (hx : x ∈ ss) :
    p ≤ x.1 ∧ x.1 ≤ p + bs.length ∧ (x.1 = p + bs.length → x.2 = endMarker) := by
  rcases h.right x hx with ⟨i, hi, hb⟩ | rfl
  · obtain ⟨hlt, -⟩ := List.getElem?_eq_some_iff.mp hb
    exact ⟨by omega, by omega, fun he => absurd he (by omega)⟩
  · exact ⟨Nat.le_add_right _ _, le_refl _, fun _ => rfl⟩

/-- What a call lays down is filled when its stores are made. -/
theorem Lays.fills {m : Mem} (h : Lays p bs ss) : Fills m p bs ss := Fills.start h.every

end Lays

/-! ## What is read -/

section Reads

variable {m : Mem} {p : ℕ} {r : Rec} {rs : List Rec}

theorem getElem?_rd (m : Mem) (p n i : ℕ) (h : i < n) : (rd m p n)[i]? = some (m (p + i)) := by
  rw [rd, List.getElem?_map, List.getElem?_range' h]
  simp

theorem shiftLeft_or {a b k : ℕ} (h : b < 2 ^ k) : a <<< k ||| b = a * 2 ^ k + b := by
  rw [← Nat.shiftLeft_add_eq_or_of_lt h, Nat.shiftLeft_eq]

/-- A record that is there has its length, and its entry. -/
theorem entry_of_rd (h : rd m p r.bytes.length = r.bytes) : shmlogLen m p = r.data.length ∧ entry m p = r.entry := by
  have hb : ∀ i, i < r.bytes.length → some (m (p + i)) = r.bytes[i]? := by
    intro i hi
    rw [← getElem?_rd m p _ i hi, h]
  have h8 : 8 ≤ r.bytes.length := by simp
  have hsh := r.short
  have hlen : shmlogLen m p = r.data.length := by
    have h1 : m (p + 1) = UInt8.ofNat (r.data.length >>> 8) := Option.some.inj (hb 1 (by omega))
    have h2 : m (p + 2) = UInt8.ofNat r.data.length := Option.some.inj (hb 2 (by omega))
    rw [shmlogLen, h1, h2]
    simp only [UInt8.toNat_ofNat', Nat.shiftRight_eq_div_pow]
    rw [shiftLeft_or (by omega)]
    omega
  have hid : shmlogId m p = r.id.toNat := by
    have h3 : m (p + 3) = UInt8.ofNat (r.id.toNat >>> 24) := Option.some.inj (hb 3 (by omega))
    have h4 : m (p + 4) = UInt8.ofNat (r.id.toNat >>> 16) := Option.some.inj (hb 4 (by omega))
    have h5 : m (p + 5) = UInt8.ofNat (r.id.toNat >>> 8) := Option.some.inj (hb 5 (by omega))
    have h6 : m (p + 6) = UInt8.ofNat r.id.toNat := Option.some.inj (hb 6 (by omega))
    have hr := r.id.toNat_lt
    rw [shmlogId, h3, h4, h5, h6]
    simp only [UInt8.toNat_ofNat', Nat.shiftRight_eq_div_pow]
    rw [shiftLeft_or (k := 8) (by omega), shiftLeft_or (k := 16) (by omega), shiftLeft_or (by omega)]
    omega
  refine ⟨hlen, ?_⟩
  have htag : m p = r.tag.val := Option.some.inj (hb 0 (by omega))
  have hdata : rd m (p + 7) r.data.length = r.data := by
    refine List.ext_getElem? fun i => ?_
    by_cases hi : i < r.data.length
    · rw [getElem?_rd _ _ _ _ hi, Nat.add_assoc, hb (7 + i) (by rw [length_bytes]; omega), getElem?_bytes,
        List.getElem?_append_left hi]
    · rw [List.getElem?_eq_none (by simpa using hi), List.getElem?_eq_none (by omega)]
  rw [entry, hlen, hid, htag, hdata, Rec.entry]

/-- Records that are there, with an end marker behind them, are read. -/
theorem parse_recs {fuel : ℕ} (h : rd m p (recBytes rs).length = recBytes rs) (he : m (p + (recBytes rs).length) = endMarker)
    (hf : rs.length < fuel) : parse m fuel p = some (rs.map Rec.entry, p + (recBytes rs).length) := by
  induction rs generalizing p fuel with
  | nil =>
    obtain _ | fuel := fuel
    · cases hf
    have he : m p = endMarker := he
    rw [parse, if_pos he]
    rfl
  | cons r rs ih =>
    obtain _ | fuel := fuel
    · omega
    simp only [recBytes_cons, List.length_append] at h he ⊢
    rw [rd_add] at h
    obtain ⟨h1, h2⟩ := List.append_inj h (by simp)
    obtain ⟨hlen, hent⟩ := entry_of_rd h1
    have htag : m p ≠ endMarker := by
      have : m p = r.tag.val := congrArg Entry.tag hent
      rw [this]
      exact r.tag.notEnd
    have hnext : p + shmlogLen m p + 8 = p + r.bytes.length := by
      rw [hlen, length_bytes]
      omega
    rw [parse, if_neg htag, hnext, ih h2 (by rw [← he, Nat.add_assoc]) (by simpa using hf), hent, Nat.add_assoc]
    rfl

end Reads

/-! ## Calls for the runs -/

/-- `shm_reclen` as it is set at first. -/
def stdParams : Params := ⟨255, by decide⟩

def tagDebug : Tag := ⟨1, by decide, by decide⟩

/-- Two texts of one byte; `VSLR` makes ten stores for each, and the end marker is the ninth of them. -/
def callA : Call := .vslr tagDebug 7 [97]

def callB : Call := .vslr tagDebug 8 [98]

end Varnish.Shmlog
