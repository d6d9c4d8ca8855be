import Varnish.Http.Body
import Varnish.Http.Write
import Varnish.Http.Wrw

/-!
# Varnish.Esi.Deliver — the delivery of an object with ESI data (`ESI_Deliver`, `RES_WriteObj`)

The includes of an object resolve to objects, which may have ESI data themselves.  An include is found by its path, the places of the
includes on the way to it.

* `esiDeliver`, `resWriteObj`: the functions, over the write layer.
* `parts`: the verbatim pieces and the included bodies in document order.
* `Delivers`: they are written, to an HTTP/1.1 client as a chunked body.
* `chars_pieces`: the header goes out as the text that `Varnish.Http.Write` makes of it.
* `delivers_iff`: so it is if and only if nothing that is written has 2^31 bytes, and no chunk has 2^32.
-/

namespace Varnish.Esi.Deliver

open Varnish.Http (isHex hexNum hexVal crlf)
open Varnish.Http.Wrw
open Varnish.Lib (chars)

/-! ## The functions -/

section Functions

/-- A digit of `%x`. -/
def hexDigit (n : ℕ) : UInt8 := UInt8.ofNat (if n < 10 then 48 + n else 87 + n)

/-- `%x` -/
def hexDigits (n : ℕ) : List UInt8 := if n < 16 then [hexDigit n] else hexDigits (n / 16) ++ [hexDigit (n % 16)]
termination_by n
decreasing_by omega

/-- `"%x\r\n"` -/
def chunkLine (n : ℕ) : List UInt8 := hexDigits n ++ crlf

/-- `struct esi_bit`; the length was printed by `esi_addbit`. -/
structure Bit where
  verbatim : List UInt8
  chunkLength : List UInt8
  incl : Bool
  made : verbatim ≠ [] → chunkLength = chunkLine verbatim.length
  small : verbatim.length < 2 ^ 32

/-- `esi_addbit`, of a verbatim piece. -/
def esiAddbit (verbatim : List UInt8) (incl : Bool) (h : verbatim.length < 2 ^ 32) : Bit :=
  ⟨verbatim, chunkLine verbatim.length, incl, fun _ => rfl, h⟩

/-- The storage of an object, its length, which is an `unsigned` that the lengths of the segments were added to, and its ESI data. -/
structure Object where
  store : List (List UInt8)
  len : ℕ
  esi : Option (List Bit)
  sum : store.flatten.length % 2 ^ 32 = len

structure Sess where
  disableEsi : Bool
  wantbody : Bool
  http11 : Bool

/-- The header of the response. -/
structure Resp where
  proto : List UInt8
  status : List UInt8
  response : List UInt8
  hdrs : List (List UInt8)

/-- Parameters of a delivery: the size of the array, the limit, the header, and what the includes resolve to. -/
structure Env where
  siov : ℕ+
  maxEsiIncludes : ℕ
  resp : Resp
  objs : List ℕ → Object

/-- `WRW_WriteH` -/
def wrwWriteH (siov : ℕ+) (hh suf : List UInt8) (w : Worker) : Option Worker := (writeMem siov hh w).bind (writeStr siov suf)

def writeHdrs (siov : ℕ+) : List (List UInt8) → Worker → Option Worker
  | [] => some
  | h :: hs => fun w => (wrwWriteH siov h crlf w).bind (writeHdrs siov hs)

/-- `http_Write` -/
def httpWrite (siov : ℕ+) (resp : Resp) (w : Worker) : Option Worker :=
  (wrwWriteH siov resp.proto [32] w).bind fun w =>
    (wrwWriteH siov resp.status [32] w).bind fun w =>
      (wrwWriteH siov resp.response crlf w).bind fun w =>
        (writeHdrs siov resp.hdrs w).bind (writeStr siov crlf)

def writeStore (siov : ℕ+) : List (List UInt8) → Worker → Option Worker
  | [] => some
  | st :: store => fun w => (writeMem siov st w).bind (writeStore siov store)

/-- What is done only under a condition. -/
def doIf (c : Bool) (f : Worker → Option Worker) (w : Worker) : Option Worker := if c then f w else some w

/-- The body of an object without ESI data; `framed` if it is a chunk. -/
def writeWhole (siov : ℕ+) (framed : Bool) (o : Object) (w : Worker) : Option Worker :=
  (doIf framed (writeStr siov (chunkLine o.len)) w).bind fun w =>
    (writeStore siov o.store w).bind fun w =>
      if o.store.flatten.length % 2 ^ 32 ≠ o.len then none else doIf framed (writeStr siov crlf) w

/-- A verbatim piece. -/
def esiVerbatim (siov : ℕ+) (http11 : Bool) (b : Bit) (w : Worker) : Option Worker :=
  if b.verbatim = [] then some w
  else
    (doIf http11 (writeStr siov b.chunkLength) w).bind fun w =>
      (writeMem siov b.verbatim w).bind (doIf http11 (writeStr siov crlf))

/-- The loop of `ESI_Deliver`, behind which is `fin`; `more` if the limit is not reached. -/
def esiBits (siov : ℕ+) (http11 more : Bool) (incl : ℕ → Worker → Option Worker) (fin : Worker → Option Worker) :
    ℕ → List Bit → Worker → Option Worker
  | _, [] => fin
  | i, b :: bits => fun w => (esiVerbatim siov http11 b w).bind fun w =>
      if b.incl = false ∨ more = false then esiBits siov http11 more incl fin (i + 1) bits w
      else
        flushOrReturn (fun w => (incl i w).bind fun w => (wrwReserve w).bind fun w =>
          if w.fd = false then fin w else esiBits siov http11 more incl fin (i + 1) bits w) w

/-- `"0\r\n\r\n"` -/
def lastChunk : List UInt8 := [48, 13, 10, 13, 10]

/-- The end of `ESI_Deliver`. -/
def esiEnd (siov : ℕ+) (last : Bool) (w : Worker) : Option Worker := (doIf last (writeStr siov lastChunk) w).bind flushOrClose

/-- `ESI_Deliver`; `sp->esis` is the length of the path. -/
def esiDeliver (env : Env) (http11 : Bool) (path : List ℕ) (bits : List Bit) (incl : ℕ → Worker → Option Worker) (w : Worker) :
    Option Worker :=
  (wrwReserve w).bind (esiBits env.siov http11 (path.length < env.maxEsiIncludes) incl
    (esiEnd env.siov (path.length = 0 && http11)) 0 bits)

/-- `RES_WriteObj`, where `incl` delivers the includes. -/
def writeObj (env : Env) (sp : Sess) (path : List ℕ) (o : Object) (incl : ℕ → Worker → Option Worker) (w : Worker) : Option Worker :=
  (wrwReserve w).bind fun w =>
    (doIf (sp.disableEsi || path.length = 0) (httpWrite env.siov env.resp) w).bind
      (match if sp.disableEsi = false ∧ sp.wantbody = true then o.esi else none with
      | some bits => flushOrReturn (esiDeliver env sp.http11 path bits incl)
      | none => fun w =>
        (doIf sp.wantbody (writeWhole env.siov (!sp.disableEsi && 0 < path.length && sp.http11 && 0 < o.len) o) w).bind flushOrClose)

/-- `RES_WriteObj`, for at most so many includes in each other.  The request for an include is a `GET`, and ESI is on. -/
def resWriteObj (env : Env) : ℕ → Sess → List ℕ → Object → Worker → Option Worker
  | 0, sp, path, o => writeObj env sp path o fun _ _ => none
  | n + 1, sp, path, o => writeObj env sp path o fun i =>
      resWriteObj env n { sp with disableEsi := false, wantbody := true } (path ++ [i]) (env.objs (path ++ [i]))

end Functions

/-! ## What should be written -/

section Spec

/-- The pieces and bodies of the bits; `incl` are those of an include. -/
def bitParts (more : Bool) (incl : ℕ → List (List (List UInt8))) : ℕ → List Bit → List (List (List UInt8))
  | _, [] => []
  | i, b :: bits => (if b.verbatim = [] then [] else [[b.verbatim]]) ++
      ((if b.incl = false ∨ more = false then [] else incl i) ++ bitParts more incl (i + 1) bits)

/-- The parts of an object, each a list of segments: the verbatim pieces and the included bodies in document order. -/
def objParts (env : Env) (path : List ℕ) (o : Object) (incl : ℕ → List (List (List UInt8))) : List (List (List UInt8)) :=
  match o.esi with
  | some bits => bitParts (path.length < env.maxEsiIncludes) incl 0 bits
  | none => [o.store]

def parts (env : Env) : ℕ → List ℕ → Object → List (List (List UInt8))
  | 0, path, o => objParts env path o fun _ => []
  | n + 1, path, o => objParts env path o fun i => parts env n (path ++ [i]) (env.objs (path ++ [i]))

def content (ps : List (List (List UInt8))) : List UInt8 := ps.flatten.flatten

/-- The data of the chunks: the parts that are not empty. -/
def datas (ps : List (List (List UInt8))) : List (List UInt8) := (ps.map List.flatten).filter fun d => !d.isEmpty

/-- Chunks, each with its length in front and none empty, and their data. -/
inductive Chunks : List UInt8 → List (List UInt8) → Prop
  | nil : Chunks [] []
  | cons {ds d x : List UInt8} {ys : List (List UInt8)} (hne : ds ≠ []) (hex : ∀ b ∈ ds, isHex b = true)
      (hlen : hexNum ds = d.length) (hd : d ≠ []) (h : Chunks x ys) : Chunks (ds ++ (crlf ++ (d ++ (crlf ++ x)))) (d :: ys)

/-- A chunked body, without extensions and trailer. -/
def IsChunked (body : List UInt8) (ds : List (List UInt8)) : Prop := ∃ x, body = x ++ lastChunk ∧ Chunks x ds

def Resp.text (resp : Resp) : List UInt8 :=
  resp.proto ++ [32] ++ resp.status ++ [32] ++ resp.response ++ crlf ++ (resp.hdrs.map (· ++ crlf)).flatten ++ crlf

/-- A worker that has not written yet. -/
def start : Worker := ⟨false, true, 0, [], 0, [], []⟩

/-- For a `GET` with ESI, what is passed to the write layer behind the header is the content, for an HTTP/1.1 client in chunks, and all
of it is sent in order. -/
def Delivers (env : Env) (http11 : Bool) (o : Object) : Prop :=
  ∃ w body, resWriteObj env env.maxEsiIncludes ⟨false, true, http11⟩ [] o start = some w ∧ w.passed = env.resp.text ++ body ∧
    w.sent = w.passed ∧
    if http11 then IsChunked body (datas (parts env env.maxEsiIncludes [] o)) else body = content (parts env env.maxEsiIncludes [] o)

/-- No string of the header, no verbatim piece and no segment that is delivered has 2^31 bytes. -/
def Small (env : Env) (o : Object) : Prop :=
  (∀ x ∈ env.resp.proto :: env.resp.status :: env.resp.response :: env.resp.hdrs, x.length < 2 ^ 31) ∧
    ∀ p ∈ parts env env.maxEsiIncludes [] o, ∀ x ∈ p, x.length < 2 ^ 31

/-- No part has 2^32 bytes. -/
def Short (env : Env) (o : Object) : Prop := ∀ p ∈ parts env env.maxEsiIncludes [] o, p.flatten.length < 2 ^ 32

/-- The data of the chunks are the content. -/
theorem flatten_datas (ps : List (List (List UInt8))) : (datas ps).flatten = content ps := by
  rw [datas, content, List.flatten_filter_not_isEmpty, List.flatten_flatten]

end Spec

/-! ## Chunks -/

section Framing

variable {http11 : Bool} {n : ℕ} {b : UInt8} {p : List (List UInt8)} {x y : List UInt8}

theorem hexVal_hexDigit (h : n < 16) : hexVal (hexDigit n) = some n := by
  have hall : ∀ k : Fin 16, hexVal (hexDigit k) = some k.val := by decide
  exact hall ⟨n, h⟩

theorem hexNum_append_single (ds : List UInt8) (b : UInt8) : hexNum (ds ++ [b]) = 16 * hexNum ds + (hexVal b).getD 0 := List.foldl_append

/-- What `%x` prints is read back. -/
theorem hexNum_hexDigits (n : ℕ) : hexNum (hexDigits n) = n := by
  induction n using Nat.strongRecOn with
  | ind n ih =>
    rw [hexDigits]
    split
    next h =>
      rw [← List.nil_append [hexDigit n], hexNum_append_single, hexVal_hexDigit h]
      exact Nat.zero_add n
    next h =>
      rw [hexNum_append_single, ih (n / 16) (by omega), hexVal_hexDigit (Nat.mod_lt n (by decide))]
      exact Nat.div_add_mod n 16

theorem mem_hexDigits (h : b ∈ hexDigits n) : ∃ k < 16, b = hexDigit k := by
  induction n using Nat.strongRecOn with
  | ind n ih =>
    rw [hexDigits] at h
    split at h
    next hlt => exact ⟨n, hlt, List.mem_singleton.1 h⟩
    next hge =>
      obtain h | h := List.mem_append.1 h
      · exact ih (n / 16) (by omega) h
      · exact ⟨n % 16, Nat.mod_lt n (by decide), List.mem_singleton.1 h⟩

theorem isHex_of_mem (h : b ∈ hexDigits n) : isHex b = true := by
  obtain ⟨k, hk, rfl⟩ := mem_hexDigits h
  rw [isHex, hexVal_hexDigit hk]
  rfl

theorem hexDigits_ne_nil (n : ℕ) : hexDigits n ≠ [] := by
  intro h
  rw [hexDigits] at h
  split at h
  · cases h
  · exact List.append_ne_nil_of_right_ne_nil _ (List.cons_ne_nil _ _) h

/-- At most eight digits for an `unsigned`. -/
theorem length_hexDigits (k : ℕ) (h : n < 16 ^ (k + 1)) : (hexDigits n).length ≤ k + 1 := by
  induction k generalizing n with
  | zero =>
    have hlt : n < 16 := h
    rw [hexDigits, if_pos hlt]
    exact le_rfl
  | succ k ih =>
    rw [hexDigits]
    split
    · exact Nat.le_add_left _ _
    · rw [List.length_append]
      exact Nat.succ_le_succ (ih (Nat.div_lt_of_lt_mul (by rwa [Nat.mul_comm, ← Nat.pow_succ])))

theorem length_chunkLine (h : n < 2 ^ 32) : (chunkLine n).length ≤ 10 := by
  have hle : (hexDigits n).length ≤ 8 := length_hexDigits 7 h
  have hcrlf : crlf.length = 2 := rfl
  rw [chunkLine, List.length_append]
  omega

theorem chunkLine_lt (h : n < 2 ^ 32) : (chunkLine n).length < 2 ^ 31 := Nat.lt_of_le_of_lt (length_chunkLine h) (by decide)

theorem hexVal_lt {k : ℕ} (h : hexVal b = some k) : k < 16 := by
  simp only [hexVal, UInt8.le_iff_toNat_le, UInt8.toNat_ofNat] at h
  split at h
  · cases h
    omega
  · split at h
    · cases h
      omega
    · split at h
      · cases h
        omega
      · cases h

/-- So many digits are a number with no more digits. -/
theorem hexNum_lt (ds : List UInt8) : hexNum ds < 16 ^ ds.length := by
  induction ds using List.reverseRecOn with
  | nil => exact Nat.one_pos
  | append_singleton ds b ih =>
    have hb : (hexVal b).getD 0 < 16 := by
      cases h : hexVal b with
      | none => decide
      | some k => exact hexVal_lt h
    rw [hexNum_append_single, List.length_append, List.length_singleton, Nat.pow_succ]
    omega

theorem zero_notMem_chunkLine (n : ℕ) : 0 ∉ chunkLine n := by
  intro h
  obtain h | h := List.mem_append.1 h
  · have hex := isHex_of_mem h
    cases hex
  · revert h
    decide

/-- A part as a chunk, with the length that an `unsigned` has, but not an empty one. -/
def frame (http11 : Bool) (p : List (List UInt8)) : List (List UInt8) :=
  if http11 = true ∧ p.flatten.length % 2 ^ 32 ≠ 0 then chunkLine (p.flatten.length % 2 ^ 32) :: (p ++ [crlf]) else p

theorem frame_old (p : List (List UInt8)) : frame false p = p := if_neg fun h => Bool.false_ne_true h.1

theorem datas_cons (p : List (List UInt8)) (ps : List (List (List UInt8))) :
    datas (p :: ps) = if p.flatten = [] then datas ps else p.flatten :: datas ps := by
  rw [datas, List.map_cons, List.filter_cons]
  by_cases h : p.flatten = []
  · rw [if_pos h, h]
    rfl
  · rw [if_neg h, if_pos (by rw [Bool.not_eq_true', Bool.eq_false_iff]; exact fun he => h (List.isEmpty_iff.mp he))]
    rfl

/-- The chunks are those of the parts, in order. -/
theorem chunks_frames {ps : List (List (List UInt8))} (hshort : ∀ p ∈ ps, p.flatten.length < 2 ^ 32) :
    Chunks (ps.flatMap (frame true)).flatten (datas ps) := by
  induction ps with
  | nil => exact .nil
  | cons p ps ih =>
    obtain ⟨hp, hps⟩ := List.forall_mem_cons.mp hshort
    rw [List.flatMap_cons, List.flatten_append, datas_cons, frame, Nat.mod_eq_of_lt hp]
    by_cases h : p.flatten = []
    · rw [if_pos h, if_neg (fun hc => hc.2 (by rw [h]; rfl)), h]
      exact ih hps
    · have hpos : p.flatten.length ≠ 0 := fun h0 => h (List.eq_nil_of_length_eq_zero h0)
      rw [if_neg h, if_pos ⟨rfl, hpos⟩]
      have hc := Chunks.cons (hexDigits_ne_nil p.flatten.length) (fun b hb => isHex_of_mem hb) (hexNum_hexDigits _) h (ih hps)
      simpa only [chunkLine, List.flatten_cons, List.flatten_append, List.flatten_nil, List.append_nil, List.append_assoc] using hc

/-- What is written for a part is not longer than a chunk of it, and shorter where the length is no `unsigned`. -/
theorem length_frame {ds : List UInt8} (hne : ds ≠ []) (hlen : hexNum ds = p.flatten.length) :
    (frame true p).flatten.length ≤ ds.length + p.flatten.length + 4 ∧
      (2 ^ 32 ≤ p.flatten.length → (frame true p).flatten.length < ds.length + p.flatten.length + 4) := by
  have hcrlf : crlf.length = 2 := rfl
  have hlt := hexNum_lt ds
  rw [hlen] at hlt
  by_cases h0 : p.flatten.length % 2 ^ 32 = 0
  · rw [frame, if_neg fun h => h.2 h0]
    omega
  · have hframe : (frame true p).flatten.length = (hexDigits (p.flatten.length % 2 ^ 32)).length + p.flatten.length + 4 := by
      rw [frame, if_pos ⟨rfl, h0⟩, chunkLine]
      simp only [List.flatten_cons, List.flatten_append, List.flatten_nil, List.append_nil, List.length_append, hcrlf]
      omega
    rw [hframe]
    have hpos := List.length_pos_iff.mpr hne
    obtain ⟨k, hk⟩ : ∃ k, ds.length = k + 1 := ⟨ds.length - 1, by omega⟩
    by_cases hbig : 2 ^ 32 ≤ p.flatten.length
    · have hmod : (hexDigits (p.flatten.length % 2 ^ 32)).length ≤ 8 := length_hexDigits 7 (Nat.mod_lt _ (by decide))
      have hnine : 8 < ds.length := by
        have hpow : 16 ^ 8 < 16 ^ ds.length := Nat.lt_of_le_of_lt hbig hlt
        exact (Nat.pow_lt_pow_iff_right (by decide)).mp hpow
      omega
    · have hle : (hexDigits (p.flatten.length % 2 ^ 32)).length ≤ k + 1 := by
        refine length_hexDigits k ?_
        rw [Nat.mod_eq_of_lt (Nat.not_le.mp hbig), ← hk]
        exact hlt
      omega

/-- Where the parts are the data of chunks, they are as long as what is written, and so no part has 2^32 bytes. -/
theorem length_frames {ps : List (List (List UInt8))} {x : List UInt8} (h : Chunks x (datas ps)) :
    (ps.flatMap (frame true)).flatten.length ≤ x.length ∧
      ((∃ p ∈ ps, 2 ^ 32 ≤ p.flatten.length) → (ps.flatMap (frame true)).flatten.length < x.length) := by
  induction ps generalizing x with
  | nil => exact ⟨Nat.zero_le _, fun ⟨_, hp, _⟩ => absurd hp List.not_mem_nil⟩
  | cons p ps ih =>
    rw [datas_cons] at h
    rw [List.flatMap_cons, List.flatten_append, List.length_append, List.exists_mem_cons_iff]
    by_cases hp : p.flatten = []
    · rw [if_pos hp] at h
      obtain ⟨hle, hlt⟩ := ih h
      have hframe : (frame true p).flatten.length = 0 := by
        rw [frame, hp, if_neg fun hc => hc.2 rfl, hp]
        rfl
      have hsmall : ¬ 2 ^ 32 ≤ p.flatten.length := by
        rw [hp]
        decide
      rw [hframe, Nat.zero_add, or_iff_right hsmall]
      exact ⟨hle, hlt⟩
    · rw [if_neg hp] at h
      cases h with
      | cons hne hex hlen hd h =>
        obtain ⟨hle, hlt⟩ := ih h
        obtain ⟨hle', hlt'⟩ := length_frame hne hlen
        have hcrlf : crlf.length = 2 := rfl
        simp only [List.length_append, hcrlf]
        refine ⟨by omega, ?_⟩
        rintro (hbig | hbig)
        · have := hlt' hbig
          omega
        · have := hlt hbig
          omega

theorem frames_old (ps : List (List (List UInt8))) : (ps.flatMap (frame false)).flatten = content ps := by
  induction ps with
  | nil => rfl
  | cons p ps ih =>
    rw [List.flatMap_cons, List.flatten_append, content, List.flatten_cons, List.flatten_append, frame_old, ih]
    rfl

theorem mem_frame (h : x ∈ p) : x ∈ frame http11 p := by
  unfold frame
  split
  · exact List.mem_cons_of_mem _ (List.mem_append_left _ h)
  · exact h

/-- What is added to a part is short. -/
theorem small_frame (hp : ∀ x ∈ p, x.length < 2 ^ 31) (h : x ∈ frame http11 p) : x.length < 2 ^ 31 := by
  unfold frame at h
  split at h
  · obtain rfl | h := List.mem_cons.1 h
    · exact chunkLine_lt (Nat.mod_lt _ (by decide))
    · obtain h | h := List.mem_append.1 h
      · exact hp x h
      · rw [List.mem_singleton.1 h]
        decide
  · exact hp x h

end Framing

/-! ## What is passed -/

section Passed

variable {http11 more : Bool} {siov : ℕ+} {a b c : Bool} {f g : Worker → Option Worker} {ps qs : List (List UInt8)}

theorem emits_doIf (c : Bool) (h : Emits a f ps a) : Emits a (doIf c f) (if c then ps else []) a := by
  cases c with
  | true => exact h
  | false => exact emits_some

theorem zero_notMem_crlf : 0 ∉ crlf := by decide

theorem crlf_lt : crlf.length < 2 ^ 31 := by decide

theorem emits_wrwWriteH (siov : ℕ+) (hh : List UInt8) {suf : List UInt8} (hnul : 0 ∉ suf) (hlt : suf.length < 2 ^ 31) :
    Emits true (wrwWriteH siov hh suf) [hh, suf] true :=
  (emits_writeMem siov hh).bind (emits_writeStr siov hnul hlt)

theorem emits_writeHdrs (siov : ℕ+) (hs : List (List UInt8)) :
    Emits true (writeHdrs siov hs) (hs.flatMap fun h => [h, crlf]) true := by
  induction hs with
  | nil => exact emits_some
  | cons h hs ih => exact (emits_wrwWriteH siov h zero_notMem_crlf crlf_lt).bind ih

/-- The pieces of the header. -/
def Resp.pieces (resp : Resp) : List (List UInt8) :=
  [resp.proto, [32]] ++ ([resp.status, [32]] ++ ([resp.response, crlf] ++ ((resp.hdrs.flatMap fun h => [h, crlf]) ++ [crlf])))

/-- The text that `http_Write` makes of the header. -/
theorem chars_pieces (resp : Resp) : chars resp.pieces.flatten =
    Http.httpWrite (chars resp.proto) (chars resp.status) (chars resp.response) (resp.hdrs.map fun h => some (chars h)) := by
  have hchars (a b : List UInt8) : chars (a ++ b) = chars a ++ chars b := List.map_append
  have hfields (hs : List (List UInt8)) : chars (hs.flatMap fun h => [h, crlf]).flatten =
      Http.writeFields (hs.map fun h => some (chars h)) := by
    induction hs with
    | nil => rfl
    | cons h hs ih =>
      have hwrite (l : List (Option Ban.Str)) : Http.writeFields (some (chars h) :: l) = chars h ++ Http.eol ++ Http.writeFields l := rfl
      have hcrlf : chars crlf = Http.eol := rfl
      rw [List.map_cons, hwrite, ← ih, ← hcrlf, List.flatMap_cons, List.flatten_append, hchars, ← hchars h]
      rfl
  rw [Resp.pieces]
  simp only [List.flatten_append, List.flatten_cons, List.flatten_nil, List.append_nil, hchars, hfields, Http.httpWrite,
    List.append_assoc]
  rfl

theorem emits_httpWrite (siov : ℕ+) (resp : Resp) : Emits true (httpWrite siov resp) resp.pieces true := by
  have hblank : (0 : UInt8) ∉ [32] := by decide
  have hlt : [(32 : UInt8)].length < 2 ^ 31 := by decide
  have hend : Emits true (fun w => (writeHdrs siov resp.hdrs w).bind (writeStr siov crlf)) _ true :=
    (emits_writeHdrs siov resp.hdrs).bind (emits_writeStr siov zero_notMem_crlf crlf_lt)
  have hresponse := (emits_wrwWriteH siov resp.response zero_notMem_crlf crlf_lt).bind hend
  have hstatus := (emits_wrwWriteH siov resp.status hblank hlt).bind hresponse
  exact (emits_wrwWriteH siov resp.proto hblank hlt).bind hstatus

theorem emits_writeStore (siov : ℕ+) (store : List (List UInt8)) : Emits true (writeStore siov store) store true := by
  induction store with
  | nil => exact emits_some
  | cons st store ih => exact (emits_writeMem siov st).bind ih

/-- The segments are as long as the object, so that the assertion holds. -/
theorem writeWhole_eq (siov : ℕ+) (framed : Bool) (o : Object) : writeWhole siov framed o = fun w =>
    (doIf framed (writeStr siov (chunkLine o.len)) w).bind fun w => (writeStore siov o.store w).bind (doIf framed (writeStr siov crlf)) := by
  funext w
  simp only [writeWhole, if_neg (not_not_intro o.sum)]

/-- The body of an object, which is a chunk if it is to be one and has bytes. -/
theorem emits_writeWhole (siov : ℕ+) (http11 : Bool) (o : Object) :
    Emits true (writeWhole siov (http11 && 0 < o.len) o) (frame http11 o.store) true := by
  have hline := emits_writeStr siov (zero_notMem_chunkLine o.len) (chunkLine_lt (o.sum ▸ Nat.mod_lt _ (by decide)))
  have hrest := (emits_writeStore siov o.store).bind (emits_doIf (http11 && 0 < o.len) (emits_writeStr siov zero_notMem_crlf crlf_lt))
  have hall := (emits_doIf (http11 && 0 < o.len) hline).bind hrest
  have hpieces : (if (http11 && 0 < o.len) = true then [chunkLine o.len] else []) ++
      (o.store ++ if (http11 && 0 < o.len) = true then [crlf] else []) = frame http11 o.store := by
    have hiff : (http11 && 0 < o.len) = true ↔ http11 = true ∧ o.store.flatten.length % 2 ^ 32 ≠ 0 := by
      rw [Bool.and_eq_true, decide_eq_true_iff, o.sum, Nat.pos_iff_ne_zero]
    unfold frame
    by_cases h : (http11 && 0 < o.len) = true
    · rw [if_pos h, if_pos h, if_pos (hiff.1 h), o.sum]
      rfl
    · rw [if_neg h, if_neg h, if_neg (fun hc => h (hiff.2 hc)), List.append_nil]
      rfl
  rwa [writeWhole_eq, ← hpieces]

theorem emits_esiVerbatim (siov : ℕ+) (http11 : Bool) (b : Bit) :
    Emits true (esiVerbatim siov http11 b) ((if b.verbatim = [] then [] else [[b.verbatim]]).flatMap (frame http11)) true := by
  by_cases hv : b.verbatim = []
  · have heq : esiVerbatim siov http11 b = some := funext fun w => if_pos hv
    rw [heq, if_pos hv]
    exact emits_some
  · have heq : esiVerbatim siov http11 b = fun w => (doIf http11 (writeStr siov b.chunkLength) w).bind fun w =>
        (writeMem siov b.verbatim w).bind (doIf http11 (writeStr siov crlf)) := funext fun w => if_neg hv
    have hline := emits_writeStr siov (zero_notMem_chunkLine b.verbatim.length) (chunkLine_lt b.small)
    rw [← b.made hv] at hline
    have hrest := (emits_writeMem siov b.verbatim).bind (emits_doIf http11 (emits_writeStr siov zero_notMem_crlf crlf_lt))
    have hall := (emits_doIf http11 hline).bind hrest
    have hflat : [b.verbatim].flatten = b.verbatim := List.flatten_singleton
    have hpieces : (if http11 = true then [b.chunkLength] else []) ++ ([b.verbatim] ++ if http11 = true then [crlf] else []) =
        [[b.verbatim]].flatMap (frame http11) := by
      have hlen : b.verbatim.length ≠ 0 := fun h0 => hv (List.eq_nil_of_length_eq_zero h0)
      rw [List.flatMap_singleton, frame, hflat, Nat.mod_eq_of_lt b.small, b.made hv]
      cases http11 with
      | true => exact (if_pos ⟨rfl, hlen⟩).symm
      | false => rfl
    rwa [heq, if_neg hv, ← hpieces]

/-- A bit, its include, and what follows. -/
theorem emits_esiBits {incl : ℕ → Worker → Option Worker} {fin : Worker → Option Worker} {inclParts : ℕ → List (List (List UInt8))}
    (hincl : more = true → ∀ i, Emits false (incl i) ((inclParts i).flatMap (frame http11)) false) (hfin : Emits true fin qs false)
    (i : ℕ) (bits : List Bit) :
    Emits true (esiBits siov http11 more incl fin i bits) ((bitParts more inclParts i bits).flatMap (frame http11) ++ qs) false := by
  induction bits generalizing i with
  | nil => exact hfin
  | cons b bits ih =>
    have hverb := emits_esiVerbatim siov http11 b
    rw [bitParts, List.flatMap_append, List.flatMap_append, List.append_assoc, List.append_assoc]
    by_cases hskip : b.incl = false ∨ more = false
    · have heq : esiBits siov http11 more incl fin i (b :: bits) = fun w =>
          (esiVerbatim siov http11 b w).bind (esiBits siov http11 more incl fin (i + 1) bits) := by
        funext w
        simp only [esiBits, if_pos hskip]
      rw [heq, if_pos hskip]
      exact hverb.bind (ih (i + 1))
    · have heq : esiBits siov http11 more incl fin i (b :: bits) = fun w => (esiVerbatim siov http11 b w).bind
          (flushOrReturn fun w => (incl i w).bind fun w => (wrwReserve w).bind fun w =>
            if w.fd = false then fin w else esiBits siov http11 more incl fin (i + 1) bits w) := by
        funext w
        simp only [esiBits, if_neg hskip]
      have hmore : more = true := by
        cases more with
        | true => rfl
        | false => exact absurd (.inr rfl) hskip
      have hnext := emits_reserve.bind ((ih (i + 1)).ifOpen hfin)
      rw [heq, if_neg hskip]
      exact hverb.bind ((hincl hmore i).bind hnext).orReturn

theorem emits_esiEnd (siov : ℕ+) (last : Bool) : Emits true (esiEnd siov last) (if last then [lastChunk] else []) false := by
  have hnul : 0 ∉ lastChunk := by decide
  have hlt : lastChunk.length < 2 ^ 31 := by decide
  have h := (emits_doIf last (emits_writeStr siov hnul hlt)).bind emits_flushOrClose
  rwa [List.append_nil] at h

/-- The parts of an object, and behind those of the outermost one the last chunk. -/
def pieces (http11 : Bool) (path : List ℕ) (ps : List (List (List UInt8))) : List (List UInt8) :=
  ps.flatMap (frame http11) ++ if path.length = 0 && http11 then [lastChunk] else []

variable {env : Env} {path : List ℕ} {o : Object} {incl : ℕ → Worker → Option Worker} {inclParts : ℕ → List (List (List UInt8))}

theorem emits_esiDeliver (bits : List Bit)
    (hincl : path.length < env.maxEsiIncludes → ∀ i, Emits false (incl i) ((inclParts i).flatMap (frame http11)) false) :
    Emits false (esiDeliver env http11 path bits incl)
      (pieces http11 path (bitParts (path.length < env.maxEsiIncludes) inclParts 0 bits)) false := by
  have hfin := emits_esiEnd env.siov (path.length = 0 && http11)
  exact emits_reserve.bind (emits_esiBits (fun hmore => hincl (of_decide_eq_true hmore)) hfin 0 bits)

/-- An included object without ESI data. -/
theorem writeObj_none (hesi : o.esi = none) (hpath : path.length ≠ 0) : writeObj env ⟨false, true, http11⟩ path o incl = fun w =>
    (wrwReserve w).bind fun w => (writeWhole env.siov (http11 && 0 < o.len) o w).bind flushOrClose := by
  funext w
  simp only [writeObj, hesi, Bool.false_or, Bool.not_false, Bool.true_and, decide_eq_false hpath, decide_eq_true (Nat.pos_of_ne_zero hpath)]
  rfl

/-- The object of the request has ESI data, an included one may have none. -/
theorem emits_writeObj (hesi : path ≠ [] ∨ o.esi ≠ none)
    (hincl : path.length < env.maxEsiIncludes → ∀ i, Emits false (incl i) ((inclParts i).flatMap (frame http11)) false) :
    Emits false (writeObj env ⟨false, true, http11⟩ path o incl)
      ((if path.length = 0 then env.resp.pieces else []) ++ pieces http11 path (objParts env path o inclParts)) false := by
  have hhead := emits_doIf (path.length = 0) (emits_httpWrite env.siov env.resp)
  simp only [decide_eq_true_eq] at hhead
  cases hbits : o.esi with
  | some bits =>
    have hbody := (emits_esiDeliver bits hincl).orReturn
    have hparts : objParts env path o inclParts = bitParts (path.length < env.maxEsiIncludes) inclParts 0 bits := by
      rw [objParts, hbits]
    rw [hparts]
    have h := emits_reserve.bind (hhead.bind hbody)
    have heq : writeObj env ⟨false, true, http11⟩ path o incl = fun w => (wrwReserve w).bind fun w =>
        (doIf (path.length = 0) (httpWrite env.siov env.resp) w).bind (flushOrReturn (esiDeliver env http11 path bits incl)) := by
      funext w
      simp only [writeObj, hbits, Bool.false_or]
      rfl
    rw [heq]
    exact h
  | none =>
    have hne : path ≠ [] := by
      obtain h | h := hesi
      · exact h
      · exact absurd hbits h
    have hlen : path.length ≠ 0 := fun h => hne (List.length_eq_zero_iff.1 h)
    have hpieces : pieces http11 path (objParts env path o inclParts) = frame http11 o.store ++ [] := by
      rw [pieces, objParts, hbits, List.flatMap_singleton, decide_eq_false hlen]
      rfl
    rw [writeObj_none hbits hlen, if_neg hlen, hpieces]
    exact emits_reserve.bind ((emits_writeWhole env.siov http11 o).bind emits_flushOrClose)

/-- By induction on how many includes may yet be in each other. -/
theorem emits_resWriteObj (env : Env) (http11 : Bool) (n : ℕ) {path : List ℕ} {o : Object} (hn : path.length + n = env.maxEsiIncludes)
    (hesi : path ≠ [] ∨ o.esi ≠ none) :
    Emits false (resWriteObj env n ⟨false, true, http11⟩ path o)
      ((if path.length = 0 then env.resp.pieces else []) ++ pieces http11 path (parts env n path o)) false := by
  induction n generalizing path o with
  | zero => exact emits_writeObj hesi fun hlt => absurd hlt (by omega)
  | succ n ih =>
    refine emits_writeObj hesi fun _ i => ?_
    have hlen : (path ++ [i]).length = path.length + 1 := List.length_append
    have hne : path ++ [i] ≠ [] := List.append_ne_nil_of_right_ne_nil _ (List.cons_ne_nil _ _)
    have h := @ih (path ++ [i]) (env.objs (path ++ [i])) (by omega) (.inl hne)
    rw [if_neg (by omega), pieces, decide_eq_false (by omega), List.nil_append] at h
    rwa [Bool.false_and, if_neg Bool.false_ne_true, List.append_nil] at h

end Passed

/-! ## What is sent -/

section Sent

variable {env : Env} {http11 more : Bool} {path : List ℕ} {o : Object} {p : List (List UInt8)}

theorem Resp.flatten_pieces (resp : Resp) : resp.pieces.flatten = resp.text := by
  have hhdrs : (resp.hdrs.flatMap fun h => [h, crlf]).flatten = (resp.hdrs.map (· ++ crlf)).flatten := by
    induction resp.hdrs with
    | nil => rfl
    | cons h hs ih =>
      rw [List.flatMap_cons, List.flatten_append, ih]
      simp only [List.map_cons, List.flatten_cons, List.flatten_nil, List.append_nil]
  simp only [Resp.pieces, Resp.text, List.flatten_append, hhdrs, List.flatten_cons, List.flatten_nil, List.append_nil, List.append_assoc]

theorem small_resp (resp : Resp) : (∀ x ∈ resp.pieces, x.length < 2 ^ 31) ↔
    ∀ x ∈ resp.proto :: resp.status :: resp.response :: resp.hdrs, x.length < 2 ^ 31 := by
  have hblank : [(32 : UInt8)].length < 2 ^ 31 := by decide
  have hcrlf := crlf_lt
  have hhdrs : (∀ x ∈ resp.hdrs.flatMap fun h => [h, crlf], x.length < 2 ^ 31) ↔ ∀ x ∈ resp.hdrs, x.length < 2 ^ 31 := by
    constructor
    · intro h x hx
      exact h x (List.mem_flatMap.2 ⟨x, hx, List.mem_cons_self⟩)
    · intro h x hx
      obtain ⟨y, hy, hxy⟩ := List.mem_flatMap.1 hx
      obtain rfl | hxy := List.mem_cons.1 hxy
      · exact h x hy
      · rw [List.mem_singleton.1 hxy]
        exact hcrlf
  simp only [Resp.pieces, List.forall_mem_append, List.forall_mem_cons, hhdrs, hblank, hcrlf, List.not_mem_nil, false_imp_iff, implies_true,
    and_true]

/-- What is passed for the object of a request. -/
def whole (env : Env) (http11 : Bool) (o : Object) : List (List UInt8) :=
  env.resp.pieces ++ pieces http11 [] (parts env env.maxEsiIncludes [] o)

theorem small_whole : (∀ x ∈ whole env http11 o, x.length < 2 ^ 31) ↔ Small env o := by
  unfold whole pieces Small
  rw [List.forall_mem_append, List.forall_mem_append, small_resp]
  refine and_congr_right fun _ => ?_
  constructor
  · intro h p hp x hx
    exact h.1 x (List.mem_flatMap.2 ⟨p, hp, mem_frame hx⟩)
  · intro h
    refine ⟨fun x hx => ?_, fun x hx => ?_⟩
    · obtain ⟨p, hp, hxp⟩ := List.mem_flatMap.1 hx
      exact small_frame (h p hp) hxp
    · split at hx
      · rw [List.mem_singleton.1 hx]
        decide
      · cases hx

theorem sound_start : Http.Wrw.Sound false start := ⟨rfl, rfl, rfl, ⟨[], rfl, rfl, rfl⟩, fun _ => rfl⟩

theorem emits_whole (env : Env) (http11 : Bool) (h : o.esi ≠ none) :
    Emits false (resWriteObj env env.maxEsiIncludes ⟨false, true, http11⟩ [] o) (whole env http11 o) false := by
  have hall := @emits_resWriteObj env http11 env.maxEsiIncludes [] o (Nat.zero_add _) (.inr h)
  rwa [if_pos List.length_nil] at hall

/-- What a worker has passed when everything was written. -/
theorem passed_whole (h : o.esi ≠ none) {w : Worker} (hw : resWriteObj env env.maxEsiIncludes ⟨false, true, http11⟩ [] o start = some w)
    (hsmall : Small env o) :
    w.passed = env.resp.text ++ (pieces http11 [] (parts env env.maxEsiIncludes [] o)).flatten ∧ w.sent = w.passed := by
  obtain ⟨w', hw', hsound, hpassed⟩ := (emits_whole env http11 h).sound start sound_start (small_whole.2 hsmall)
  cases hw.symm.trans hw'
  obtain ⟨bs, hbs, -, hsent⟩ := hsound.way
  rw [hsound.empty rfl] at hbs
  cases hbs
  rw [List.append_nil] at hsent
  refine ⟨?_, hsent⟩
  rw [hpassed, whole, List.flatten_append, Resp.flatten_pieces]
  rfl

/-- Small pieces are all sent, and they are the content or its chunks. -/
theorem delivers_of_small (h : o.esi ≠ none) (hsmall : Small env o) (hshort : http11 = true → Short env o) : Delivers env http11 o := by
  obtain ⟨w, hw, -⟩ := (emits_whole env http11 h).sound start sound_start (small_whole.2 hsmall)
  obtain ⟨hpassed, hsent⟩ := passed_whole h hw hsmall
  refine ⟨w, _, hw, hpassed, hsent, ?_⟩
  cases http11 with
  | true =>
    refine ⟨_, ?_, chunks_frames (hshort rfl)⟩
    rw [pieces, List.flatten_append]
    rfl
  | false =>
    rw [pieces, List.flatten_append, frames_old]
    exact List.append_nil _

/-- Where a piece is large, less is sent than was passed. -/
theorem small_of_delivers (h : o.esi ≠ none) (hdel : Delivers env http11 o) : Small env o := by
  obtain ⟨w, body, hw, -, hsent, -⟩ := hdel
  by_contra hlarge
  have hlost := (emits_whole env http11 h).large start w sound_start (fun hs => hlarge (small_whole.1 hs)) hw
  unfold Lost at hlost
  rw [hsent] at hlost
  omega

/-- Where a part is too long for its line, less is written than its chunk. -/
theorem short_of_delivers (h : o.esi ≠ none) (hdel : Delivers env true o) : Short env o := by
  have hsmall := small_of_delivers h hdel
  obtain ⟨w, body, hw, hpassed, -, x, hbody, hchunks⟩ := hdel
  rw [(passed_whole h hw hsmall).1, List.append_cancel_left_eq, hbody, pieces, List.flatten_append] at hpassed
  have hx : (List.flatMap (frame true) (parts env env.maxEsiIncludes [] o)).flatten = x := List.append_cancel_right hpassed
  intro p hp
  by_contra hlong
  have hlt := (length_frames hchunks).2 ⟨p, hp, Nat.not_lt.mp hlong⟩
  rw [hx] at hlt
  exact lt_irrefl _ hlt

/-- The body of a response is delivered as it should be if and only if nothing that is written has 2^31 bytes: the length of `WRW_Write`
is an `int`; and for an HTTP/1.1 client no part has 2^32: the length in front of a chunk is an `unsigned`. -/
theorem delivers_iff (env : Env) (http11 : Bool) (o : Object) (bits : List Bit) :
    Delivers env http11 { o with esi := some bits } ↔
      Small env { o with esi := some bits } ∧ (http11 = true → Short env { o with esi := some bits }) := by
  have h : { o with esi := some bits }.esi ≠ none := Option.some_ne_none bits
  constructor
  · intro hdel
    refine ⟨small_of_delivers h hdel, ?_⟩
    rintro rfl
    exact short_of_delivers h hdel
  · rintro ⟨hsmall, hshort⟩
    exact delivers_of_small h hsmall hshort

/-- A string of the source. -/
def str (s : String) : List UInt8 := s.toList.map fun c => UInt8.ofNat c.toNat

/-- A page that is one include. -/
def page : Object where
  store := [str "<esi:include src=\"/a\"/>"]
  len := 23
  esi := some [⟨[], [], true, fun h => absurd rfl h, Nat.two_pow_pos 32⟩]
  sum := by decide

/-- A segment of 2^32 - 1 bytes, of which the first is a NUL. -/
def nulSegment : List UInt8 := 0 :: List.replicate (2 ^ 32 - 2) 97

theorem length_nulSegment : nulSegment.length = 2 ^ 32 - 1 := by
  rw [nulSegment, List.length_cons, List.length_replicate]
  decide

def nulObject : Object where
  store := [nulSegment]
  len := 2 ^ 32 - 1
  esi := none
  sum := by
    rw [List.flatten_singleton, length_nulSegment]
    decide

def nulEnv : Env := ⟨16, 5, ⟨str "HTTP/1.1", str "200", str "OK", [str "Transfer-Encoding: chunked"]⟩, fun _ => nulObject⟩

theorem chunkLine_nul : chunkLine (2 ^ 32 - 1) = str "ffffffff\r\n" := by simp [chunkLine, hexDigits, hexDigit, str, crlf]

/-- As an `int` the length of the segment is -1. -/
theorem writeStore_nul (siov : ℕ+) :
    writeStore siov nulObject.store = fun w => ((wrwWrite siov nulSegment (-1) w).map (pass nulSegment)).bind some := by
  have hint : toInt nulSegment.length = -1 := by
    rw [length_nulSegment]
    decide
  have hmem : writeMem siov nulSegment = fun w => (wrwWrite siov nulSegment (-1) w).map (pass nulSegment) := by
    funext w
    rw [writeMem, hint]
  have hstore : writeStore siov nulObject.store = fun w => (writeMem siov nulSegment w).bind some := rfl
  rw [hstore, hmem]

/-- What is done for the included object. -/
def nulWrites (w : Worker) : Option Worker :=
  (wrwReserve w).bind fun w => ((writeStr 16 (str "ffffffff\r\n") w).bind fun w =>
    (((wrwWrite 16 nulSegment (-1) w).map (pass nulSegment)).bind some).bind (writeStr 16 crlf)).bind flushOrClose

theorem writeObj_nul (hpath : path.length ≠ 0) (incl : ℕ → Worker → Option Worker) :
    writeObj nulEnv ⟨false, true, true⟩ path nulObject incl = nulWrites := by
  have hlen : nulObject.len = 2 ^ 32 - 1 := rfl
  rw [writeObj_none rfl hpath, writeWhole_eq, writeStore_nul, hlen, chunkLine_nul]
  rfl

/-- `strlen` finds the NUL: all is written without an error, and nothing of the segment. -/
theorem nul_segment_run : ((resWriteObj nulEnv nulEnv.maxEsiIncludes ⟨false, true, true⟩ [] page start).map fun w => (w.fd, w.sent)) =
    some (true, nulEnv.resp.text ++ str "ffffffff\r\n\r\n0\r\n\r\n") := by
  have hincl : ∀ i, resWriteObj nulEnv 4 ⟨false, true, true⟩ ([] ++ [i]) (nulEnv.objs ([] ++ [i])) = nulWrites := by
    intro i
    have hpath : ([i] : List ℕ).length ≠ 0 := Nat.one_ne_zero
    exact writeObj_nul hpath _
  have htop : resWriteObj nulEnv nulEnv.maxEsiIncludes ⟨false, true, true⟩ [] page = writeObj nulEnv ⟨false, true, true⟩ [] page fun i =>
      resWriteObj nulEnv 4 ⟨false, true, true⟩ ([] ++ [i]) (nulEnv.objs ([] ++ [i])) := rfl
  rw [htop]
  simp only [hincl]
  decide +kernel

/-- An object of 2^32 bytes, none of whose segments is large; its length is 0. -/
def wrappedObject : Object where
  store := [List.replicate (2 ^ 31 - 1) 97, List.replicate (2 ^ 31 - 1) 97, [97, 97]]
  len := 0
  esi := none
  sum := by
    simp only [List.length_flatten, List.map_cons, List.map_nil, List.length_replicate, List.length_cons, List.length_nil,
      List.sum_cons, List.sum_nil]
    decide

/-- No write fails, and the session goes on; the chunk of 2^32 - 1 bytes has none.  An object of 2^32 bytes has no line in front. -/
theorem nul_segment_lost : (((resWriteObj nulEnv nulEnv.maxEsiIncludes ⟨false, true, true⟩ [] page start).map fun w => (w.fd, w.sent)) =
    some (true, nulEnv.resp.text ++ str "ffffffff\r\n\r\n0\r\n\r\n")) ∧ ¬ Delivers nulEnv true page ∧
    ¬ Delivers { nulEnv with objs := fun _ => wrappedObject } true page := by
  refine ⟨nul_segment_run, fun hdel => ?_, fun hdel => ?_⟩
  · have hmem : [nulSegment] ∈ parts nulEnv nulEnv.maxEsiIncludes [] page := List.mem_cons_self
    have hlt := (small_of_delivers (Option.some_ne_none _) hdel).2 _ hmem nulSegment (List.mem_singleton_self _)
    rw [length_nulSegment] at hlt
    exact absurd hlt (by decide)
  · have hlt := short_of_delivers (Option.some_ne_none _) hdel wrappedObject.store List.mem_cons_self
    simp only [wrappedObject, List.length_flatten, List.map_cons, List.map_nil, List.length_replicate, List.length_cons, List.length_nil,
      List.sum_cons, List.sum_nil] at hlt
    exact absurd hlt (by decide)

end Sent

end Varnish.Esi.Deliver
