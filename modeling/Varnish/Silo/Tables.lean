import Varnish.Silo.Sign

/-!
# Varnish.Silo.Tables — the tables of segments and of bans, and what is left of them when a save is cut off

* `saveSeg_eq`, `appendban_eq`: the writes of the functions.
* `saveSeg_cut`, `appendban_cut`: what a copy holds after any number of these writes, if `smp_chk_sign` accepts it.
* `openSegs_opened`, `openBans_opened`: what is read from a copy is what was saved.
-/

namespace Varnish.Silo

open Varnish.Lib

variable {sha : List UInt8 → List UInt8} {m : Mem} {c : Signctx}

/-! ## Segments -/

section Segs

/-- The table of segments. -/
def segBody (ps : List Segptr) : List UInt8 := (ps.map Segptr.bytes).flatten

@[simp] theorem length_segptr (p : Segptr) : p.bytes.length = 32 := by simp [Segptr.bytes]

theorem length_segBody (ps : List Segptr) : (segBody ps).length = 32 * ps.length := by
  induction ps with
  | nil => rfl
  | cons p ps ih =>
    rw [segBody] at ih ⊢
    simp only [List.map_cons, List.flatten_cons, List.length_append, length_segptr, ih, List.length_cons]
    omega

theorem segBody_eq_nil {ps : List Segptr} : segBody ps = [] ↔ ps = [] := by
  rw [← List.length_eq_zero_iff, length_segBody, ← List.length_eq_zero_iff]
  omega

theorem segWrites_eq (ptr : ℕ) (ps : List Segptr) : segWrites ptr ps = chunks ptr (ps.map Segptr.bytes) := by
  induction ps generalizing ptr with
  | nil => rfl
  | cons p ps ih => rw [segWrites, ih, List.map_cons, chunks, length_segptr, segptrSize]

theorem length_segWrites (ptr : ℕ) (ps : List Segptr) : (segWrites ptr ps).length = ps.length := by
  induction ps generalizing ptr with
  | nil => rfl
  | cons p ps ih => rw [segWrites, List.length_cons, ih, List.length_cons]

/-- The end of `smp_save_seg`. -/
def tailWrites (sha : List UInt8 → List UInt8) (c : Signctx) (ps : List Segptr) : List Write :=
  (if segBody ps = [] then [] else [lengthWrite c (segBody ps).length]) ++ [digestWrite sha c (segBody ps)]

/-- The writes of `smp_save_seg`. -/
def saveWrites (sha : List UInt8 → List UInt8) (c : Signctx) (ps : List Segptr) : List Write :=
  headWrite c :: digestWrite sha c [] :: (segWrites (c.ss + 32) ps ++ tailWrites sha c ps)

variable {ps old : List Segptr}

/-- A copy that was reset, while pointers are stored in it. -/
theorem opened_segWrites (hsha : ∀ x, (sha x).length = 32) (hc : c.Wf) (m : Mem) (ps : List Segptr) (k : ℕ) :
    Opened (applyAll m (headWrite c :: digestWrite sha c [] :: (segWrites (c.ss + 32) ps).take k)) c [] := by
  have h1 := opened_reset hc m
  have h2 := (h1.sign hsha).opened
  have hw : Within (c.ss + 32) (c.ss + 32 + (segBody ps).length) ((segWrites (c.ss + 32) ps).take k) := by
    rw [segWrites_eq]
    exact (within_chunks _ _).take k
  have h3 := h2.frame hw (.inl (le_refl _))
  rw [← applyAll_append, ← applyAll_append] at h3
  exact h3

/-- **`smp_save_seg`** -/
theorem saveSeg_eq (hsha : ∀ x, (sha x).length = 32) (hc : c.Wf) (m : Mem) (hsmall : 32 * ps.length < 2 ^ 32) :
    smpSaveSeg sha m c ps = (saveWrites sha c ps, some { c with ctx := c.header ++ segBody ps }) := by
  have hlen := length_segBody ps
  have hopen := opened_segWrites hsha hc m ps (segWrites (c.ss + 32) ps).length
  rw [List.take_length] at hopen
  have hopen' : Opened (applyAll m (headWrite c :: digestWrite sha c [] :: segWrites (c.ss + 32) ps))
      { c with ctx := c.header } [] := ⟨hopen.head, hopen.length, hopen.bytes, hopen.small⟩
  have hdata : rd (applyAll m (headWrite c :: digestWrite sha c [] :: segWrites (c.ss + 32) ps))
      (endOf { c with ctx := c.header } []) (segBody ps).length = segBody ps := by
    rw [segWrites_eq, applyAll_cons, applyAll_cons]
    exact rd_chunks _ _ _
  have happ := appendSign_eq (c := { c with ctx := c.header }) hsha ⟨hc.id, hc.unique, hc.addr⟩ hopen'
    (List.append_nil _).symm hdata (by rw [List.nil_append]; omega)
  rw [smpSaveSeg, resetSign_eq hsha hc]
  simp only
  rw [show signData { c with ctx := c.header } = c.ss + 32 from rfl,
    show [headWrite c, digestWrite sha c []] ++ segWrites (c.ss + 32) ps =
      headWrite c :: digestWrite sha c [] :: segWrites (c.ss + 32) ps from rfl]
  rw [show segptrSize * ps.length % 2 ^ 32 = (segBody ps).length by rw [hlen, segptrSize, Nat.mod_eq_of_lt hsmall]]
  rw [show endOf { c with ctx := c.header } [] = c.ss + 32 from rfl] at happ
  rw [happ]
  rfl

/-- The pointers are stored, and the length of the table. -/
theorem opened_length (hsha : ∀ x, (sha x).length = 32) (hc : c.Wf) (m : Mem) (hsmall : 32 * ps.length < 2 ^ 32) :
    Opened (applyAll m (headWrite c :: digestWrite sha c [] :: (segWrites (c.ss + 32) ps ++
      [lengthWrite c (segBody ps).length]))) c (segBody ps) := by
  have hlen := length_segBody ps
  have hopen := opened_segWrites hsha hc m ps (segWrites (c.ss + 32) ps).length
  rw [List.take_length] at hopen
  have hdata : rd (applyAll m (headWrite c :: digestWrite sha c [] :: segWrites (c.ss + 32) ps)) (endOf c [])
      (segBody ps).length = segBody ps := by
    rw [segWrites_eq, applyAll_cons, applyAll_cons]
    exact rd_chunks _ _ _
  have hext := hopen.extend hdata (by rw [List.nil_append]; omega)
  rw [← applyAll_append, List.nil_append, List.cons_append, List.cons_append] at hext
  exact hext

/-- A whole `smp_save_seg`. -/
theorem signed_saveWrites (hsha : ∀ x, (sha x).length = 32) (hc : c.Wf) (m : Mem) (hsmall : 32 * ps.length < 2 ^ 32) :
    Signed sha (applyAll m (saveWrites sha c ps)) c (segBody ps) := by
  by_cases hnil : segBody ps = []
  · have hps := segBody_eq_nil.mp hnil
    subst hps
    have h := ((opened_reset hc m).sign hsha).opened.sign hsha
    rw [← applyAll_append, ← applyAll_append] at h
    exact h
  · have h := (opened_length hsha hc m hsmall).sign hsha
    rw [← applyAll_append, List.cons_append, List.cons_append, List.append_assoc] at h
    rw [saveWrites, tailWrites, if_neg hnil]
    exact h

theorem within_saveWrites (hsha : ∀ x, (sha x).length = 32) (hc : c.Wf) (ps : List Segptr) :
    Within c.ss (endOf c (segBody ps) + 32) (saveWrites sha c ps) := by
  have hsegs := within_chunks (c.ss + 32) (ps.map Segptr.bytes)
  intro w hw
  simp only [saveWrites, List.mem_cons, List.mem_append, tailWrites, segWrites_eq] at hw
  rw [endOf]
  rcases hw with rfl | rfl | hw | hw | hw
  · simp only [headWrite, List.length_append, hc.header_length, length_le]
    omega
  · simp only [digestWrite, digest, hsha, endOf, List.length_nil]
    omega
  · have := hsegs w hw
    rw [← segBody] at this
    omega
  · split_ifs at hw with hnil
    · cases hw
    · rw [List.mem_singleton.mp hw]
      simp only [lengthWrite, length_le]
      omega
  · rcases hw with rfl | hw
    · simp only [digestWrite, digest, hsha, endOf]
      omega
    · cases hw

/-- **A save of the segments that is cut off**: what `smp_chk_sign` accepts is the table from before or the new one, but
for the empty table that `smp_reset_sign` signs. -/
theorem saveSeg_cut (hsha : ∀ x, (sha x).length = 32) (hc : c.Wf) (h : Signed sha m c (segBody old))
    (hold : ∀ p ∈ old, p.bytes ≠ digest sha c []) (hnew : ∀ p ∈ ps, p.bytes ≠ digest sha c [])
    (hsmall : 32 * ps.length < 2 ^ 32) (k : ℕ) (hk : k = 2 → old = [] ∨ ps = [])
    (hchk : smpChkSign sha (applyAll m ((saveWrites sha c ps).take k)) c = 0) :
    Opened (applyAll m ((saveWrites sha c ps).take k)) c (segBody old) ∨
      Opened (applyAll m ((saveWrites sha c ps).take k)) c (segBody ps) := by
  rcases k with _ | _ | k
  · exact .inl h.opened
  · -- only the header is new
    have hopen : Opened (applyAll m ((saveWrites sha c ps).take 1)) c [] := opened_reset hc m
    cases old with
    | nil => exact .inl hopen
    | cons p old =>
      rw [hopen.chk_iff hc] at hchk
      have hfirst : rd (applyAll m [headWrite c]) (c.ss + 32) 32 = p.bytes := by
        have hb := h.opened.bytes
        rw [segBody, List.map_cons, List.flatten_cons, List.length_append, length_segptr, rd_add] at hb
        have hlen : (headWrite c).bytes.length = 32 := by
          simp only [headWrite, List.length_append, hc.header_length, length_le]
        rw [applyAll_cons, applyAll_nil, rd_wr_off (.inr (by rw [hlen]; exact le_refl _))]
        exact (List.append_inj hb (by simp)).1
      exact absurd (hfirst.symm.trans hchk) (hold p List.mem_cons_self)
  · cases ps with
    | nil =>
      -- the empty table is the new one
      refine .inr ?_
      have h1 := ((opened_reset hc m).sign hsha).opened
      have h2 := (h1.sign hsha).opened
      rw [← applyAll_append] at h1
      rw [← applyAll_append, ← applyAll_append] at h2
      rcases k with _ | k
      · exact h1
      · rw [List.take_of_length_le (by simp [saveWrites, tailWrites, segWrites, segBody])]
        exact h2
    | cons p ps =>
      rcases Nat.eq_zero_or_pos k with rfl | hpos
      · rcases hk rfl with rfl | hps
        · refine .inl ?_
          have h1 := ((opened_reset hc m).sign hsha).opened
          rw [← applyAll_append] at h1
          exact h1
        · cases hps
      have htake : (saveWrites sha c (p :: ps)).take (k + 2) = headWrite c :: digestWrite sha c [] ::
          (segWrites (c.ss + 32) (p :: ps) ++ tailWrites sha c (p :: ps)).take k := rfl
      have hne : segBody (p :: ps) ≠ [] := fun he => by cases segBody_eq_nil.mp he
      have hn : (segWrites (c.ss + 32) (p :: ps)).length = ps.length + 1 := by rw [length_segWrites, List.length_cons]
      rw [htake] at hchk ⊢
      rcases Nat.lt_or_ge (ps.length + 1) k with hlt | hge
      · -- the length is new, or all is
        refine .inr ?_
        rw [List.take_append, hn, List.take_of_length_le (by omega), tailWrites, if_neg hne]
        obtain ⟨j, hj⟩ : ∃ j, k - (ps.length + 1) = j + 1 := ⟨k - (ps.length + 1) - 1, by omega⟩
        rw [hj]
        rcases j with _ | j
        · exact opened_length hsha hc m hsmall
        · rw [List.take_of_length_le (by simp)]
          have hs := (signed_saveWrites hsha hc m hsmall).opened
          rw [saveWrites, tailWrites, if_neg hne] at hs
          exact hs
      · -- the first pointer is where the digest was
        have hopen := opened_segWrites hsha hc m (p :: ps) k
        rw [List.take_append_of_le_length (by omega)] at hchk
        rw [hopen.chk_iff hc] at hchk
        obtain ⟨j, rfl⟩ : ∃ j, k = j + 1 := ⟨k - 1, by omega⟩
        have hfirst : rd (applyAll m (headWrite c :: digestWrite sha c [] :: (segWrites (c.ss + 32) (p :: ps)).take (j + 1)))
            (c.ss + 32) 32 = p.bytes := by
          rw [applyAll_cons, applyAll_cons, segWrites, List.take_succ_cons, applyAll_cons]
          have hw : Within (c.ss + 32 + segptrSize) (c.ss + 32 + segptrSize + (ps.map Segptr.bytes).flatten.length)
              ((segWrites (c.ss + 32 + segptrSize) ps).take j) := by
            rw [segWrites_eq]
            exact (within_chunks _ _).take j
          rw [hw.rd_off (.inl (by rw [segptrSize])), rd_wr_of_eq (length_segptr p)]
        exact absurd (hfirst.symm.trans hchk) (hnew p List.mem_cons_self)

/-- A table is read as it was stored. -/
theorem readSegptr_bytes {p : Segptr} {off : ℕ} (h : rd m off 32 = p.bytes) : readSegptr m off = p := by
  rw [show 32 = 8 + (8 + (8 + (4 + 4))) by norm_num, rd_add, rd_add, rd_add, rd_add, Segptr.bytes, List.append_assoc,
    List.append_assoc, List.append_assoc] at h
  obtain ⟨h1, h⟩ := List.append_inj h (by simp)
  obtain ⟨h2, h⟩ := List.append_inj h (by simp)
  obtain ⟨h3, h⟩ := List.append_inj h (by simp)
  obtain ⟨h4, h5⟩ := List.append_inj h (by simp)
  have h64 : ∀ x : UInt64, UInt64.ofNat (ofLe (le 8 x.toNat)) = x := fun x => by
    rw [ofLe_le (by have := x.toNat_lt; omega), UInt64.ofNat_toNat]
  have h32 : ∀ x : UInt32, UInt32.ofNat (ofLe (le 4 x.toNat)) = x := fun x => by
    rw [ofLe_le (by have := x.toNat_lt; omega), UInt32.ofNat_toNat]
  cases p
  simp only [readSegptr, Nat.add_assoc, Nat.reduceAdd] at h1 h2 h3 h4 h5 ⊢
  simp only [h1, h2, h3, h4, h5, h64, h32]

theorem readSegs_eq {off : ℕ} (h : rd m off (segBody ps).length = segBody ps) :
    (List.range ps.length).map (fun i => readSegptr m (off + segptrSize * i)) = ps := by
  induction ps generalizing off with
  | nil => rfl
  | cons p ps ih =>
    rw [segBody, List.map_cons, List.flatten_cons, List.length_append, length_segptr, rd_add] at h
    obtain ⟨h1, h2⟩ := List.append_inj h (by simp)
    rw [List.length_cons, List.range_succ_eq_map, List.map_cons, List.map_map, Nat.mul_zero, Nat.add_zero,
      readSegptr_bytes h1]
    congr 1
    refine Eq.trans (List.map_congr_left fun i _ => ?_) (ih h2)
    simp only [Function.comp, segptrSize, Nat.succ_eq_add_one]
    congr 1
    omega

/-- **`smp_open_segs`** reads the table that a copy holds. -/
theorem openSegs_opened (h : Opened m c (segBody ps)) (hchk : smpChkSign sha m c = 0) :
    smpOpenSegs sha m c = (0, ps) := by
  have hn : readLength m c / segptrSize = ps.length := by
    rw [h.readLength, length_segBody, segptrSize, Nat.mul_div_cancel_left _ (by norm_num)]
  rw [smpOpenSegs]
  simp only [hchk, ne_eq, not_true_eq_false, if_false, hn]
  rw [readSegs_eq (show rd m (signData c) (segBody ps).length = segBody ps from h.bytes)]

end Segs

/-! ## Bans -/

section Bans

/-- The parts of a record, as they are copied. -/
def Ban.parts (b : Ban) : List (List UInt8) :=
  [banMark, le 8 b.t0.toNat, le 4 0, le 4 (b.text.length + 1), b.text ++ [0]]

def Ban.record (b : Ban) : List UInt8 := b.parts.flatten

/-- The table of bans. -/
def banBody (bans : List Ban) : List UInt8 := (bans.map Ban.record).flatten

theorem length_record (b : Ban) : b.record.length = 20 + (b.text.length + 1) := by
  simp only [Ban.record, Ban.parts, List.flatten_cons, List.flatten_nil, List.length_append, length_le, banMark,
    List.length_cons, List.length_nil]
  omega

theorem length_record_le {bans : List Ban} {b : Ban} (hb : b ∈ bans) : b.record.length ≤ (banBody bans).length := by
  obtain ⟨l, r, rfl⟩ := List.append_of_mem hb
  simp [banBody]
  omega

theorem banBody_append (bans : List Ban) (b : Ban) : banBody (bans ++ [b]) = banBody bans ++ b.record := by
  simp [banBody]

variable {bans : List Ban} {b : Ban} {old : List UInt8}

/-- The writes of `smp_appendban`. -/
def banWrites (sha : List UInt8 → List UInt8) (c : Signctx) (old : List UInt8) (b : Ban) : List Write :=
  chunks (endOf c old) b.parts ++ [lengthWrite c (old ++ b.record).length, digestWrite sha c (old ++ b.record)]

section Parts

variable {parts : List (List UInt8)}

/-- The writes that append some parts to a copy. -/
def partWrites (sha : List UInt8 → List UInt8) (c : Signctx) (old : List UInt8) (parts : List (List UInt8)) : List Write :=
  chunks (endOf c old) parts ++ [lengthWrite c (old ++ parts.flatten).length, digestWrite sha c (old ++ parts.flatten)]

theorem banWrites_eq (sha : List UInt8 → List UInt8) (c : Signctx) (old : List UInt8) (b : Ban) :
    banWrites sha c old b = partWrites sha c old b.parts := rfl

theorem opened_parts (h : Opened m c old) (k : ℕ) : Opened (applyAll m ((chunks (endOf c old) parts).take k)) c old :=
  h.frame ((within_chunks _ _).take k) (.inl (le_refl _))

theorem opened_partLength (h : Opened m c old) (hsmall : (old ++ parts.flatten).length < 2 ^ 64) :
    Opened (applyAll m (chunks (endOf c old) parts ++ [lengthWrite c (old ++ parts.flatten).length])) c
      (old ++ parts.flatten) := by
  have hopen := h.frame (within_chunks (endOf c old) parts) (.inl (le_refl _))
  rw [applyAll_append]
  exact hopen.extend (rd_chunks _ _ _) hsmall

theorem signed_partWrites (hsha : ∀ x, (sha x).length = 32) (h : Opened m c old)
    (hsmall : (old ++ parts.flatten).length < 2 ^ 64) :
    Signed sha (applyAll m (partWrites sha c old parts)) c (old ++ parts.flatten) := by
  have hs := (opened_partLength h hsmall).sign hsha
  rw [← applyAll_append, List.append_assoc] at hs
  exact hs

theorem within_partWrites (hsha : ∀ x, (sha x).length = 32) :
    Within c.ss (endOf c (old ++ parts.flatten) + 32) (partWrites sha c old parts) := by
  have hparts := within_chunks (endOf c old) parts
  intro w hw
  simp only [partWrites, List.mem_append, List.mem_cons, List.not_mem_nil, or_false] at hw
  simp only [endOf, List.length_append] at hparts ⊢
  rcases hw with hw | rfl | rfl
  · have := hparts w hw
    omega
  · simp only [lengthWrite, length_le]
    omega
  · simp only [digestWrite, digest, hsha, endOf, List.length_append]
    omega

end Parts

/-- A record with any text. -/
def recParts (t0 : UInt64) (txt : List UInt8) : List (List UInt8) :=
  [banMark, le 8 t0.toNat, le 4 0, le 4 txt.length, txt]

theorem Ban.parts_eq (b : Ban) : b.parts = recParts b.t0 (b.text ++ [0]) := by
  rw [Ban.parts, recParts, List.length_append, List.length_singleton]

theorem length_recParts (t0 : UInt64) (txt : List UInt8) : (recParts t0 txt).flatten.length = 20 + txt.length := by
  simp only [recParts, List.flatten_cons, List.flatten_nil, List.length_append, length_le, banMark, List.length_cons,
    List.length_nil]
  omega

/-- **`smp_appendban`** of the first bytes of a text. -/
theorem appendban_parts (hsha : ∀ x, (sha x).length = 32) (hc : c.Wf) (h : Opened m c old)
    (hctx : c.ctx = c.header ++ old) {t0 : UInt64} {txt full : List UInt8} (htxt : full.take txt.length = txt)
    (hrec : 20 + txt.length < 2 ^ 32) (hsmall : (old ++ (recParts t0 txt).flatten).length < 2 ^ 64) :
    smpAppendban sha m c t0 0 txt.length full =
      (partWrites sha c old (recParts t0 txt), some { c with ctx := c.header ++ (old ++ (recParts t0 txt).flatten) }) := by
  have hlen := length_recParts t0 txt
  have hopen := h.frame (within_chunks (endOf c old) (recParts t0 txt)) (.inl (le_refl _))
  have hdata : rd (applyAll m (chunks (endOf c old) (recParts t0 txt))) (endOf c old) (recParts t0 txt).flatten.length =
      (recParts t0 txt).flatten := rd_chunks _ _ _
  have happ := appendSign_eq hsha hc hopen hctx hdata hsmall
  have hne : (recParts t0 txt).flatten ≠ [] := fun he => by
    rw [he, List.length_nil] at hlen
    omega
  have hws : ([⟨endOf c old, banMark⟩, ⟨endOf c old + 4, le 8 t0.toNat⟩, ⟨endOf c old + 12, le 4 0⟩,
      ⟨endOf c old + 16, le 4 txt.length⟩, ⟨endOf c old + 20, txt⟩] : List Write) =
      chunks (endOf c old) (recParts t0 txt) := by
    simp only [recParts, chunks, length_le, banMark, List.length_cons, List.length_nil, Nat.add_assoc, Nat.reduceAdd]
  rw [if_neg hne] at happ
  rw [smpAppendban]
  simp only [h.signEnd, htxt]
  rw [hws, show (20 + txt.length) % 2 ^ 32 = (recParts t0 txt).flatten.length by rw [hlen, Nat.mod_eq_of_lt hrec], happ]
  rfl

/-- What `SMP_NewBan` passes on of a ban: the length is a `uint32_t`. -/
def Ban.savedText (b : Ban) : List UInt8 := (b.text ++ [0]).take ((b.text.length + 1) % 2 ^ 32)

theorem length_savedText (b : Ban) : b.savedText.length = (b.text.length + 1) % 2 ^ 32 := by
  have hle : (b.text.length + 1) % 2 ^ 32 ≤ b.text.length + 1 := Nat.mod_le _ _
  rw [Ban.savedText, List.length_take, List.length_append, List.length_singleton, Nat.min_eq_left hle]

theorem savedText_of_lt (h : b.text.length + 1 < 2 ^ 32) : b.savedText = b.text ++ [0] := by
  rw [Ban.savedText, Nat.mod_eq_of_lt h, List.take_of_length_le (by simp)]

theorem signed_banWrites (hsha : ∀ x, (sha x).length = 32) (h : Opened m c old)
    (hsmall : (old ++ b.record).length < 2 ^ 64) :
    Signed sha (applyAll m (banWrites sha c old b)) c (old ++ b.record) := signed_partWrites hsha h hsmall

/-- **`smp_appendban`**, as `SMP_NewBan` calls it. -/
theorem appendban_saved (hsha : ∀ x, (sha x).length = 32) (hc : c.Wf) (h : Opened m c old)
    (hctx : c.ctx = c.header ++ old) (hrec : 20 + b.savedText.length < 2 ^ 32)
    (hsmall : (old ++ (recParts b.t0 b.savedText).flatten).length < 2 ^ 64) :
    smpAppendban sha m c b.t0 0 ((b.text.length + 1) % 2 ^ 32) (b.text ++ [0]) =
      (partWrites sha c old (recParts b.t0 b.savedText),
        some { c with ctx := c.header ++ (old ++ (recParts b.t0 b.savedText).flatten) }) := by
  have htxt : (b.text ++ [0]).take b.savedText.length = b.savedText := by rw [length_savedText, Ban.savedText]
  rw [← length_savedText]
  exact appendban_parts hsha hc h hctx htxt hrec hsmall

theorem appendban_eq (hsha : ∀ x, (sha x).length = 32) (hc : c.Wf) (h : Opened m c old) (hctx : c.ctx = c.header ++ old)
    (hrec : b.record.length < 2 ^ 32) (hsmall : (old ++ b.record).length < 2 ^ 64) :
    smpAppendban sha m c b.t0 0 ((b.text.length + 1) % 2 ^ 32) (b.text ++ [0]) =
      (banWrites sha c old b, some { c with ctx := c.header ++ (old ++ b.record) }) := by
  rw [length_record] at hrec
  have htxt := savedText_of_lt (b := b) (by omega)
  have hparts : b.parts = recParts b.t0 b.savedText := by rw [htxt, Ban.parts_eq]
  rw [Ban.record, hparts] at hsmall ⊢
  rw [banWrites_eq, hparts]
  exact appendban_saved hsha hc h hctx (by rw [htxt, List.length_append, List.length_singleton]; omega) hsmall

theorem within_banWrites (hsha : ∀ x, (sha x).length = 32) :
    Within c.ss (endOf c (old ++ b.record) + 32) (banWrites sha c old b) := within_partWrites hsha

/-- **A ban that is cut off**: a copy holds what it held before, or the new ban with it. -/
theorem appendban_cut (hsha : ∀ x, (sha x).length = 32) (h : Opened m c old) (hsmall : (old ++ b.record).length < 2 ^ 64)
    (k : ℕ) :
    Opened (applyAll m ((banWrites sha c old b).take k)) c old ∨
      Opened (applyAll m ((banWrites sha c old b).take k)) c (old ++ b.record) := by
  have hn : (chunks (endOf c old) b.parts).length = 5 := rfl
  rcases Nat.lt_or_ge 5 k with hlt | hge
  · refine .inr ?_
    obtain ⟨j, rfl⟩ : ∃ j, k = 5 + (j + 1) := ⟨k - 6, by omega⟩
    rw [banWrites, List.take_append, hn, List.take_of_length_le (by omega), Nat.add_sub_cancel_left]
    rcases j with _ | j
    · exact opened_partLength h hsmall
    · rw [List.take_of_length_le (by simp)]
      exact (signed_banWrites hsha h hsmall).opened
  · refine .inl ?_
    rw [banWrites, List.take_append_of_le_length (by omega)]
    exact opened_parts h k

/-- The fields of a record. -/
theorem record_fields {ptr : ℕ} (h : rd m ptr b.record.length = b.record) :
    rd m ptr 4 = banMark ∧ rd m (ptr + 4) 8 = le 8 b.t0.toNat ∧ rd m (ptr + 12) 4 = le 4 0 ∧
      rd m (ptr + 16) 4 = le 4 (b.text.length + 1) ∧ rd m (ptr + 20) (b.text.length + 1) = b.text ++ [0] ∧
      m (ptr + 20 + (b.text.length + 1) - 1) = 0 := by
  have hrec : b.record = banMark ++ (le 8 b.t0.toNat ++ (le 4 0 ++ (le 4 (b.text.length + 1) ++ (b.text ++ [0])))) := by
    simp [Ban.record, Ban.parts]
  have h0 := h
  rw [length_record, show 20 + (b.text.length + 1) = 4 + (8 + (4 + (4 + (b.text.length + 1)))) by omega, rd_add, rd_add,
    rd_add, rd_add, hrec] at h
  obtain ⟨h1, h⟩ := List.append_inj h rfl
  obtain ⟨h2, h⟩ := List.append_inj h (by simp)
  obtain ⟨h3, h⟩ := List.append_inj h (by simp)
  obtain ⟨h4, h5⟩ := List.append_inj h (by simp)
  simp only [Nat.add_assoc, Nat.reduceAdd] at h2 h3 h4 h5
  refine ⟨h1, h2, h3, h4, h5, ?_⟩
  rw [rd_add] at h5
  have hlast := (List.append_inj h5 (by simp)).2
  simp only [rd, List.range'_one, List.map_cons, List.map_nil, List.cons.injEq, and_true] at hlast
  rw [show ptr + 20 + (b.text.length + 1) - 1 = ptr + 20 + b.text.length by omega]
  exact hlast

theorem openBansLoop_eq {fuel ptr pe : ℕ} (h : rd m ptr (banBody bans).length = banBody bans)
    (hpe : pe = ptr + (banBody bans).length) (hfuel : (banBody bans).length ≤ fuel)
    (hsmall : ∀ b ∈ bans, b.record.length < 2 ^ 32) : openBansLoop fuel m ptr pe = (0, bans) := by
  induction bans generalizing ptr fuel with
  | nil =>
    rw [show (banBody []).length = 0 from rfl, Nat.add_zero] at hpe
    cases fuel with
    | zero => rfl
    | succ fuel => rw [openBansLoop, if_neg (by omega)]
  | cons b bans ih =>
    have hbody : banBody (b :: bans) = b.record ++ banBody bans := by simp [banBody]
    have hlen := length_record b
    rw [hbody, List.length_append] at hpe hfuel h
    rw [rd_add] at h
    obtain ⟨hb, hrest⟩ := List.append_inj h (by simp)
    obtain ⟨h1, h2, h3, h4, h5, h6⟩ := record_fields hb
    obtain ⟨fuel, rfl⟩ : ∃ f, fuel = f + 1 := ⟨fuel - 1, by omega⟩
    have hb32 := hsmall b (List.mem_cons_self ..)
    have hl : ofLe (le 4 (b.text.length + 1)) = b.text.length + 1 := ofLe_le (by omega)
    have ht : UInt64.ofNat (ofLe (le 8 b.t0.toNat)) = b.t0 := by
      rw [ofLe_le (by have := b.t0.toNat_lt; omega), UInt64.ofNat_toNat]
    have htext : (b.text ++ [0]).takeWhile (fun x => decide (x ≠ 0)) = b.text := by
      rw [List.takeWhile_append_of_pos (fun x hx => by simpa using b.noNul x hx)]
      simp
    have hnext : ptr + 20 + (b.text.length + 1) = ptr + b.record.length := by omega
    have hrec : openBansLoop fuel m (ptr + b.record.length) pe = (0, bans) :=
      ih hrest (by omega) (by omega) fun b hb => hsmall b (List.mem_cons_of_mem _ hb)
    rw [openBansLoop, if_pos (by omega), if_neg (not_not.mpr h1), h3, if_neg (by decide)]
    simp only [h4, hl]
    rw [if_neg (by omega), if_neg (not_not.mpr h6)]
    simp only [h2, ht, h5, htext, hnext, hrec]

/-- **`smp_open_bans`** reads the bans that a copy holds. -/
theorem openBans_opened (h : Opened m c (banBody bans)) (hsmall : ∀ b ∈ bans, b.record.length < 2 ^ 32)
    (hchk : smpChkSign sha m c = 0) :
    smpOpenBans sha m c = (0, bans) := by
  rw [smpOpenBans]
  simp only [hchk, ne_eq, not_true_eq_false, if_false]
  rw [h.readLength]
  exact openBansLoop_eq (show rd m (signData c) (banBody bans).length = banBody bans from h.bytes) rfl (le_refl _) hsmall

end Bans

end Varnish.Silo
