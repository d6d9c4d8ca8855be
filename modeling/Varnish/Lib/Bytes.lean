import Mathlib.Data.List.Basic
import Mathlib.Tactic.Ring

/-!
# Varnish.Lib.Bytes — byte strings in a memory, and writes to it

* `le`, `ofLe`: numbers of a fixed width, the lowest byte first.
* `rd`, `wr`: a memory that is read and written by byte strings.  `rd_wr`: what was written is read.  `rd_wr_off`: what is
  elsewhere stays.
* `StoredAt`: a byte string is at a place; `storedAt_append`, `storedAt_cons`: its parts.
* `Write`, `applyAll`: sequences of writes, of which a prefix can be cut off.  `chunks`: writes one behind the other.
-/

namespace Varnish.Lib

/-! ## Numbers -/

section Numbers

/-- The lowest `w` bytes of a number. -/
def le : (w n : ℕ) → List UInt8
  | 0, _ => []
  | w + 1, n => UInt8.ofNat n :: le w (n / 256)

def ofLe : List UInt8 → ℕ
  | [] => 0
  | b :: bs => b.toNat + 256 * ofLe bs

@[simp] theorem length_le (w n : ℕ) : (le w n).length = w := by
  induction w generalizing n with
  | zero => rfl
  | succ w ih => simp [le, ih]

theorem ofLe_le {w n : ℕ} (h : n < 256 ^ w) : ofLe (le w n) = n := by
  induction w generalizing n with
  | zero =>
    rw [pow_zero] at h
    simp only [le, ofLe]
    omega
  | succ w ih =>
    have hd : n / 256 < 256 ^ w := by
      rw [Nat.div_lt_iff_lt_mul (by norm_num)]
      calc n < 256 ^ (w + 1) := h
        _ = 256 ^ w * 256 := by ring
    have hb : (UInt8.ofNat n).toNat = n % 256 := by simp
    rw [le, ofLe, ih hd, hb]
    omega

end Numbers

/-! ## The memory -/

section Memory

abbrev Mem := ℕ → UInt8

/-- The `n` bytes at `off`. -/
def rd (m : Mem) (off n : ℕ) : List UInt8 := (List.range' off n).map m

/-- `bs` is stored at `off`. -/
def wr (m : Mem) (off : ℕ) (bs : List UInt8) : Mem := fun i => if off ≤ i then bs[i - off]?.getD (m i) else m i

variable {m m' : Mem} {off off' n : ℕ} {bs : List UInt8}

@[simp] theorem length_rd (m : Mem) (off n : ℕ) : (rd m off n).length = n := by simp [rd]

@[simp] theorem rd_zero (m : Mem) (off : ℕ) : rd m off 0 = [] := rfl

theorem rd_add (m : Mem) (off a b : ℕ) : rd m off (a + b) = rd m off a ++ rd m (off + a) b := by
  simp only [rd, ← List.map_append]
  rw [List.range'_append_1]

theorem rd_congr (h : ∀ i, off ≤ i → i < off + n → m' i = m i) : rd m' off n = rd m off n := by
  refine List.map_congr_left fun i hi => ?_
  rw [List.mem_range'_1] at hi
  exact h i hi.1 hi.2

theorem wr_of_lt {i : ℕ} (h : i < off) : wr m off bs i = m i := by rw [wr, if_neg (by omega)]

theorem wr_of_ge {i : ℕ} (h : off + bs.length ≤ i) : wr m off bs i = m i := by
  rw [wr, if_pos (by omega), List.getElem?_eq_none (by omega)]
  rfl

/-- What was written is read. -/
theorem rd_wr (m : Mem) (off : ℕ) (bs : List UInt8) : rd (wr m off bs) off bs.length = bs := by
  refine List.ext_getElem (by simp) fun i h1 h2 => ?_
  simp only [rd, List.getElem_map, List.getElem_range', Nat.one_mul, wr]
  rw [if_pos (by omega), Nat.add_sub_cancel_left, List.getElem?_eq_getElem h2]
  rfl

theorem rd_wr_of_eq (hn : bs.length = n) : rd (wr m off bs) off n = bs := by rw [← hn, rd_wr]

/-- What is elsewhere stays. -/
theorem rd_wr_off (h : off' + n ≤ off ∨ off + bs.length ≤ off') : rd (wr m off bs) off' n = rd m off' n := by
  refine rd_congr fun i h1 h2 => ?_
  rcases h with h | h
  · exact wr_of_lt (by omega)
  · exact wr_of_ge (by omega)

/-- Two writes one behind the other are one. -/
theorem wr_append (m : Mem) (off : ℕ) (bs bs' : List UInt8) :
    wr (wr m off bs) (off + bs.length) bs' = wr m off (bs ++ bs') := by
  funext i
  by_cases hlow : i < off + bs.length
  · rw [wr_of_lt hlow, wr, wr]
    by_cases h : off ≤ i
    · rw [if_pos h, if_pos h, List.getElem?_append_left (by omega)]
    · rw [if_neg h, if_neg h]
  · have hge : off + bs.length ≤ i := Nat.le_of_not_lt hlow
    have hsub : i - (off + bs.length) = i - off - bs.length := by omega
    rw [wr, if_pos hge, wr_of_ge hge, wr, if_pos (by omega), List.getElem?_append_right (by omega), hsub]

@[simp] theorem wr_nil (m : Mem) (off : ℕ) : wr m off [] = m := by
  funext i
  rw [wr, List.getElem?_nil]
  split
  · rfl
  · rfl

end Memory

/-! ## What is stored -/

section StoredAt

variable {m : Mem} {off off' : ℕ} {c : UInt8} {a b bs : List UInt8}

/-- The byte string is at `off`. -/
def StoredAt (m : Mem) (off : ℕ) (bs : List UInt8) : Prop := rd m off bs.length = bs

theorem storedAt_append : StoredAt m off (a ++ b) ↔ StoredAt m off a ∧ StoredAt m (off + a.length) b := by
  rw [StoredAt, List.length_append, rd_add]
  constructor
  · intro h
    exact List.append_inj h (length_rd _ _ _)
  · rintro ⟨h1, h2⟩
    rw [StoredAt] at h1 h2
    rw [h1, h2]

theorem storedAt_cons : StoredAt m off (c :: b) ↔ m off = c ∧ StoredAt m (off + 1) b := by
  rw [← List.singleton_append, storedAt_append]
  exact and_congr_left' List.singleton_inj

theorem storedAt_wr (m : Mem) (off : ℕ) (bs : List UInt8) : StoredAt (wr m off bs) off bs := rd_wr m off bs

theorem StoredAt.wr_off (h : StoredAt m off a) (hoff : off + a.length ≤ off' ∨ off' + bs.length ≤ off) : StoredAt (wr m off' bs) off a := by
  rw [StoredAt, rd_wr_off hoff]
  exact h

theorem StoredAt.rd (h : StoredAt m off bs) {n : ℕ} (hn : n = bs.length) : rd m off n = bs := by
  rw [hn]
  exact h

end StoredAt

/-! ## Writes -/

section Writes

/-- One write of a byte string. -/
structure Write where
  off : ℕ
  bytes : List UInt8

def Write.apply (m : Mem) (w : Write) : Mem := wr m w.off w.bytes

def applyAll (m : Mem) (ws : List Write) : Mem := ws.foldl Write.apply m

variable {m : Mem} {ws ws' : List Write} {lo hi off n : ℕ}

@[simp] theorem applyAll_nil (m : Mem) : applyAll m [] = m := rfl

@[simp] theorem applyAll_cons (m : Mem) (w : Write) (ws : List Write) :
    applyAll m (w :: ws) = applyAll (wr m w.off w.bytes) ws := rfl

theorem applyAll_append (m : Mem) (ws ws' : List Write) : applyAll m (ws ++ ws') = applyAll (applyAll m ws) ws' :=
  List.foldl_append

/-- The writes are all to the bytes from `lo` up to `hi`. -/
def Within (lo hi : ℕ) (ws : List Write) : Prop := ∀ w ∈ ws, lo ≤ w.off ∧ w.off + w.bytes.length ≤ hi

theorem Within.take (h : Within lo hi ws) (k : ℕ) : Within lo hi (ws.take k) := fun w hw => h w (List.mem_of_mem_take hw)

theorem Within.append (h : Within lo hi ws) (h' : Within lo hi ws') : Within lo hi (ws ++ ws') := by
  intro w hw
  rcases List.mem_append.mp hw with hw | hw
  · exact h w hw
  · exact h' w hw

theorem Within.mono {lo' hi' : ℕ} (h : Within lo hi ws) (hlo : lo' ≤ lo) (hhi : hi ≤ hi') : Within lo' hi' ws := by
  intro w hw
  have := h w hw
  omega

/-- What is not written to stays. -/
theorem Within.rd_off (h : Within lo hi ws) (hoff : off + n ≤ lo ∨ hi ≤ off) : rd (applyAll m ws) off n = rd m off n := by
  induction ws generalizing m with
  | nil => rfl
  | cons w ws ih =>
    have hw := h w List.mem_cons_self
    rw [applyAll_cons, ih fun w' hw' => h w' (List.mem_cons_of_mem _ hw'), rd_wr_off (by omega)]

/-- Byte strings that are written one behind the other. -/
def chunks : (ptr : ℕ) → List (List UInt8) → List Write
  | _, [] => []
  | ptr, bs :: bss => ⟨ptr, bs⟩ :: chunks (ptr + bs.length) bss

theorem within_chunks (ptr : ℕ) (bss : List (List UInt8)) : Within ptr (ptr + bss.flatten.length) (chunks ptr bss) := by
  induction bss generalizing ptr with
  | nil =>
    intro w hw
    cases hw
  | cons bs bss ih =>
    intro w hw
    rw [List.flatten_cons, List.length_append]
    rcases List.mem_cons.mp hw with rfl | hw
    · simp only
      omega
    · have := ih (ptr + bs.length) w hw
      omega

/-- They are read as one. -/
theorem rd_chunks (m : Mem) (ptr : ℕ) (bss : List (List UInt8)) :
    rd (applyAll m (chunks ptr bss)) ptr bss.flatten.length = bss.flatten := by
  induction bss generalizing m ptr with
  | nil => rfl
  | cons bs bss ih =>
    rw [chunks, applyAll_cons, List.flatten_cons, List.length_append, rd_add, ih,
      (within_chunks (ptr + bs.length) bss).rd_off (.inl (le_refl _)), rd_wr]

end Writes

end Varnish.Lib
