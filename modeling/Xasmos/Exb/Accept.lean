import Xasmos.Exb.Format

/-!
# The validator accepts exactly the format

`exbParse_ok_iff` says that `exb_parse` accepts exactly the files `ExbFormat` describes.
`Yields x a` says that the check `x`, run on a fixed image, passes with result
`a`.  The parser is a chain of binds, so `yields_bind` and `yields_failIf` turn
any straight-line part of it into the conjunction of its conditions.  The three
loops are by induction on the entries still to go, with the running state written
as a function of the index: the spans accepted so far are those of the entries
below, the page total is their sum, and a kind is marked seen when an entry below
has it.
-/

namespace Xasmos.Exb

open Bytes

/-! ## Outcomes on a fixed image -/

/-- The check passes and returns `a`. -/
def Yields {α : Type} (x : ExceptT ExbError Id α) (a : α) : Prop := Id.run x.run = Except.ok a

section Outcomes

variable {α β : Type}

@[simp] theorem yields_pure (a b : α) : Yields (pure a : ExceptT ExbError Id α) b ↔ a = b := by
  constructor
  · intro h; exact Except.ok.inj h
  · rintro rfl; rfl

@[simp] theorem yields_bind (x : ExceptT ExbError Id α) (f : α → ExceptT ExbError Id β) (b : β) :
    Yields (x >>= f) b ↔ ∃ a, Yields x a ∧ Yields (f a) b := by
  have hrun : Id.run (x >>= f).run = match Id.run x.run with
      | .ok a => Id.run (f a).run
      | .error e => Except.error e := by
    rw [ExceptT.run_bind]
    cases h : x.run <;> rfl
  unfold Yields
  rw [hrun]
  cases h : Id.run x.run with
  | error e => simp
  | ok a => simp

@[simp] theorem yields_lift (a b : α) : Yields (ExceptT.lift (m := Id) a) b ↔ a = b := by
  constructor
  · intro h; exact Except.ok.inj h
  · rintro rfl; rfl

@[simp] theorem yields_failIf (c : Prop) [Decidable c] (e : ExbError) (u : Unit) :
    Yields (failIf (m := Id) c e) u ↔ ¬ c := by
  unfold failIf
  by_cases h : c
  · rw [if_pos h]
    simp only [h, not_true_eq_false, iff_false]
    intro hy
    cases hy
  · rw [if_neg h]
    simp [h]

end Outcomes

@[simp] theorem yields_byteAt (img : Bytes) (o : ℕ) (b : UInt8) :
    Yields (byteAt (m := Id) img o) b ↔ img o = b := yields_lift _ _

@[simp] theorem yields_le16 (img : Bytes) (o v : ℕ) :
    Yields (le16 (m := Id) img o) v ↔ getLE 2 img o = v := by
  rw [le16, getLEM_id]; exact yields_lift _ _

@[simp] theorem yields_le32 (img : Bytes) (o v : ℕ) :
    Yields (le32 (m := Id) img o) v ↔ getLE 4 img o = v := by
  rw [le32, getLEM_id]; exact yields_lift _ _

@[simp] theorem yields_le64 (img : Bytes) (o v : ℕ) :
    Yields (le64 (m := Id) img o) v ↔ getLE 8 img o = v := by
  rw [le64, getLEM_id]; exact yields_lift _ _

theorem exbParse_of_yields {img : Bytes} {size : ℕ} {out info : ExbInfo}
    (h : Yields (parseImpl (m := Id) img size out) info) :
    Id.run (exbParse (m := Id) img size out) = (.ok (), info) := by
  have hrun : Id.run (parseImpl (m := Id) img size out).run = .ok info := h
  rw [exbParse, Id.run_bind, hrun]
  rfl

/-- The parser reports success exactly when its body passes. -/
theorem exbParse_eq_ok_iff (img : Bytes) (size : ℕ) (out : ExbInfo) :
    (Id.run (exbParse (m := Id) img size out)).1 = .ok () ↔
      ∃ info, Yields (parseImpl (m := Id) img size out) info := by
  unfold Yields
  cases h : Id.run (parseImpl (m := Id) img size out).run with
  | ok info =>
    rw [exbParse_of_yields h]
    simp
  | error e =>
    have hrun : Id.run (exbParse (m := Id) img size out) = (.error e, zeroOut) := by
      rw [exbParse, Id.run_bind, h]
      rfl
    rw [hrun]
    simp

/-! ## The header -/

theorem yields_checkReserved (img : Bytes) (k i : ℕ) (u : Unit) :
    Yields (checkReserved (m := Id) img k i) u ↔ ∀ j, i ≤ j → j < i + k → img j = 0 := by
  induction k generalizing i with
  | zero =>
    simp only [checkReserved, yields_pure, true_iff]
    intro j h1 h2
    omega
  | succ k ih =>
    simp only [checkReserved, yields_bind, yields_byteAt, yields_failIf, ih]
    constructor
    · rintro ⟨b, hb, _, h0, hrest⟩ j h1 h2
      by_cases hj : j = i
      · subst hj; rw [hb]; exact not_not.mp h0
      · exact hrest j (by omega) (by omega)
    · intro h
      exact ⟨img i, rfl, (), by simpa using h i le_rfl (by omega),
        fun j h1 h2 => h j (by omega) (by omega)⟩

/-- The header check is the conjunction of the header's conditions. -/
theorem yields_checkHeader (img : Bytes) (size : ℕ) (u : Unit) :
    Yields (checkHeader (m := Id) img size) u ↔
      (headerSize ≤ size ∧ size ≤ maxFile) ∧
      (img 0 = 0x7F ∧ img 1 = 0x45 ∧ img 2 = 0x58 ∧ img 3 = 0x42) ∧ img 4 = 1 ∧ img 5 = 1 ∧
      getLE 2 img 6 = headerSize ∧ getLE 4 img 8 = 0 ∧ (∀ i, 49 ≤ i → i < 64 → img i = 0) ∧
      img 48 = 0 ∧ getLE 4 img 12 = 1 ∧ getLE 4 img 24 = size ∧
      getLE 4 img 28 = crc32Ref img size := by
  simp only [checkHeader, yields_bind, yields_failIf, yields_byteAt, yields_le16, yields_le32,
    yields_checkReserved, exbCrc32Image_eq, yields_lift, exists_eq_left', exists_const, not_not,
    not_or, not_lt, Nat.reduceAdd, and_assoc]

/-! ## The tables -/

/-- Where the tables of a file lie. -/
def tablesOf (img : Bytes) : Tables :=
  ⟨segOff img, segOff img + segCnt img * segSize, segCnt img, capOff img,
    capOff img + capCnt img * capSize, capCnt img⟩

theorem overlap_eq_false_iff (a0 a1 b0 b1 : ℕ) :
    overlap a0 a1 b0 b1 = false ↔ b1 ≤ a0 ∨ a1 ≤ b0 := by
  simp only [overlap, Bool.and_eq_false_iff, decide_eq_false_iff_not, not_lt]

/-- Two intervals are disjoint when one is empty or the overlap test fails. -/
theorem disjoint_Ico_iff (a0 a1 b0 b1 : ℕ) :
    Disjoint (Set.Ico a0 a1) (Set.Ico b0 b1) ↔
      a1 ≤ a0 ∨ b1 ≤ b0 ∨ overlap a0 a1 b0 b1 = false := by
  rw [Set.Ico_disjoint_Ico, overlap_eq_false_iff]
  omega

theorem yields_checkTables (size so sc co cc : ℕ) (t : Tables) :
    Yields (checkTables (m := Id) size so sc co cc) t ↔
      (1 ≤ sc ∧ sc ≤ maxSegs) ∧ (headerSize ≤ so ∧ so + sc * segSize ≤ size) ∧
      cc ≤ maxCaps ∧ (cc = 0 → co = 0) ∧
      (0 < cc → headerSize ≤ co ∧ co + cc * capSize ≤ size) ∧
      Disjoint (Set.Ico so (so + sc * segSize)) (Set.Ico co (co + cc * capSize)) ∧
      t = ⟨so, so + sc * segSize, sc, co, co + cc * capSize, cc⟩ := by
  simp only [checkTables, yields_bind, yields_failIf, exists_const, not_or, not_lt]
  by_cases hc : cc = 0
  · subst hc
    simp only [if_true, yields_bind, yields_failIf, yields_pure, exists_const, not_not,
      Nat.zero_mul, Nat.add_zero, Set.Ico_self, Set.disjoint_empty,
      lt_irrefl, false_imp_iff, true_and, true_imp_iff, Nat.zero_le]
    tauto
  · have hpos : 0 < cc := Nat.pos_of_ne_zero hc
    simp only [hc, if_false, yields_bind, yields_failIf, yields_pure, exists_const, not_or, not_lt,
      hpos, true_imp_iff, false_imp_iff, true_and, Bool.not_eq_true, disjoint_Ico_iff]
    have hcap : ¬ (co + cc * capSize ≤ co) := by simp only [capSize]; omega
    constructor
    · rintro ⟨h1, h2, h3, h4, h5, h6⟩
      exact ⟨h1, h2, h3, h4, Or.inr (Or.inr h5), h6.symm⟩
    · rintro ⟨h1, h2, h3, h4, h5, h6⟩
      have hseg : ¬ (so + sc * segSize ≤ so) := by simp only [segSize]; omega
      simp only [hcap, hseg, false_or] at h5
      exact ⟨h1, h2, h3, h4, h5, h6.symm⟩

/-! ## Flag bits -/

theorem and_two_pow_eq_zero_iff (n i : ℕ) : n &&& 2 ^ i = 0 ↔ n.testBit i = false := by
  rw [Nat.and_two_pow]
  cases n.testBit i <;> simp

/-- The unknown bits of a 32-bit flag word are those from bit 3 on. -/
theorem unknown_flags_iff {fl : ℕ} (h : fl < 2 ^ 32) :
    fl &&& (2 ^ 32 - 1 - (segR ||| segW ||| segX)) = 0 ↔ fl < 8 := by
  have hmask : 2 ^ 32 - 1 - (segR ||| segW ||| segX) = (2 ^ 29 - 1) <<< 3 := by decide
  have hbit : ∀ i, (fl &&& (2 ^ 29 - 1) <<< 3).testBit i =
      (fl.testBit i && (decide (3 ≤ i) && decide (i - 3 < 29))) := by
    intro i
    rw [Nat.testBit_and, Nat.testBit_shiftLeft, Nat.testBit_two_pow_sub_one]
  rw [hmask]
  constructor
  · intro h0
    apply Nat.lt_pow_two_of_testBit (n := 3)
    intro i hi
    by_cases hi' : i < 32
    · have := hbit i
      rw [h0, Nat.zero_testBit] at this
      have h3 : i - 3 < 29 := by omega
      simpa [show 3 ≤ i from hi, h3] using this.symm
    · exact Nat.testBit_lt_two_pow (lt_of_lt_of_le h (Nat.pow_le_pow_right (by omega) (by omega)))
  · intro h8
    apply Nat.eq_of_testBit_eq
    intro i
    rw [hbit, Nat.zero_testBit]
    by_cases hi : 3 ≤ i
    · have hpow : 2 ^ 3 ≤ 2 ^ i := Nat.pow_le_pow_right (by omega) hi
      have : fl.testBit i = false := Nat.testBit_lt_two_pow (by omega)
      simp [this]
    · simp [hi]

theorem getLE4_lt (p : Bytes) (o : ℕ) : getLE 4 p o < 2 ^ 32 := getLE_lt 4 p o

/-! ## Segments -/

/-- The spans the parser keeps of segment entry `i`. -/
def spanAt (img : Bytes) (i : ℕ) : Span :=
  let s := segAt img i
  ⟨s.vaddr, s.vaddr + s.pages * page, s.fileOff, s.fileOff + s.fileSize⟩

theorem yields_checkFileData (img : Bytes) (size foff fsz : ℕ) (hs : 1 ≤ segCnt img) (u : Unit) :
    Yields (checkFileData (m := Id) size (tablesOf img) foff fsz) u ↔
      (fsz = 0 → foff = 0) ∧ (0 < fsz → headerSize ≤ foff ∧ foff + fsz ≤ size) ∧
      Disjoint (Set.Ico foff (foff + fsz)) (segTable img) ∧
      Disjoint (Set.Ico foff (foff + fsz)) (capTable img) := by
  simp only [checkFileData, segTable, capTable, disjoint_Ico_iff]
  by_cases hf : fsz = 0
  · subst hf
    simp
  · have hpos : 0 < fsz := Nat.pos_of_ne_zero hf
    have hdata : ¬ (foff + fsz ≤ foff) := by omega
    have hseg : ¬ (segOff img + segCnt img * segSize ≤ segOff img) := by
      simp only [segSize]; omega
    have hcap : capOff img + capCnt img * capSize ≤ capOff img ↔ capCnt img = 0 := by
      simp only [capSize]; omega
    simp only [hf, if_false, yields_bind, yields_failIf, exists_const, not_lt, hdata, hseg, hcap,
      hpos, false_or, false_imp_iff, true_imp_iff, true_and]
    simp only [tablesOf, not_and, Bool.not_eq_true, ne_eq, or_iff_not_imp_left, and_assoc]

/-- The test on a pair of segments: their spans do not meet, nor do their data. -/
theorem pairTest_iff (s : Span) (vaddr vend foff fsz : ℕ) :
    (overlap vaddr vend s.v0 s.v1 ||
      (decide (fsz ≠ 0) && decide (s.d0 < s.d1) && overlap foff (foff + fsz) s.d0 s.d1)) = false ↔
    overlap vaddr vend s.v0 s.v1 = false ∧
      Disjoint (Set.Ico s.d0 s.d1) (Set.Ico foff (foff + fsz)) := by
  rw [Bool.or_eq_false_iff, disjoint_Ico_iff, Bool.and_eq_false_iff, Bool.and_eq_false_iff,
    overlap_eq_false_iff foff, overlap_eq_false_iff s.d0, decide_eq_false_iff_not,
    decide_eq_false_iff_not]
  apply and_congr Iff.rfl
  omega

/-- One turn of the segment loop checks the entry on its own, the page total and
the entries before it. -/
theorem yields_parseSeg (img : Bytes) (size i : ℕ) (spans : List Span) (total : ℕ)
    (hs : 1 ≤ segCnt img) (r : ExbSeg × Span) :
    Yields (parseSeg (m := Id) img size (tablesOf img) spans total (segOff img + i * segSize)) r ↔
      SegOk img size i ∧ total + (segAt img i).pages ≤ maxImagePages ∧
      (∀ s ∈ spans, overlap (segAt img i).vaddr ((segAt img i).vaddr + (segAt img i).pages * page)
          s.v0 s.v1 = false ∧
        Disjoint (Set.Ico s.d0 s.d1) (segAt img i).data) ∧
      r = (segAt img i, spanAt img i) := by
  have hfl : (segAt img i).flags < 2 ^ 32 := getLE4_lt _ _
  have hpages : (segAt img i).pages = ((segAt img i).memSize + page - 1) / page := rfl
  have hR : (segAt img i).flags &&& segR = 0 ↔ (segAt img i).flags.testBit 0 = false :=
    and_two_pow_eq_zero_iff _ 0
  have hW : (segAt img i).flags &&& segW = 0 ↔ (segAt img i).flags.testBit 1 = false :=
    and_two_pow_eq_zero_iff _ 1
  have hX : (segAt img i).flags &&& segX = 0 ↔ (segAt img i).flags.testBit 2 = false :=
    and_two_pow_eq_zero_iff _ 2
  have hA : (segAt img i).vaddr &&& (page - 1) = (segAt img i).vaddr % page :=
    Nat.and_two_pow_sub_one_eq_mod _ 12
  simp only [parseSeg, yields_bind, yields_le64, yields_le32, yields_failIf, yields_pure,
    exists_eq_left', exists_const, yields_checkFileData img size _ _ hs, not_or, not_lt, not_le,
    ne_eq, not_not, Bool.not_eq_true, List.any_eq_false, pairTest_iff]
  constructor
  · rintro ⟨hres, hunk, hr, hwx, hal, ⟨hmin, _⟩, ⟨hmem, hmax⟩, hend, hfsz,
      ⟨hno, hin, hst, hct⟩, htot, hpair, rfl⟩
    refine ⟨⟨hres, (unknown_flags_iff hfl).mp hunk, ?_, ?_, ?_, hmin, hend, Nat.pos_of_ne_zero hmem,
      hfsz, hno, hin, hst, hct⟩, htot, ?_, rfl⟩
    · exact Bool.eq_true_of_not_eq_false (fun h => hr (hR.mpr h))
    · rintro ⟨h1, h2⟩
      exact hwx ⟨fun h => by simp [hW.mp h] at h1, fun h => by simp [hX.mp h] at h2⟩
    · exact Nat.dvd_of_mod_eq_zero (hA ▸ hal)
    · exact hpair
  · rintro ⟨h, htot, hpair, rfl⟩
    have hmem := h.mem_pos
    have hlim := h.va_limit
    have hpos : 0 < (segAt img i).pages := by
      rw [hpages]; simp only [page]; omega
    have hmax : (segAt img i).memSize ≤ maxImageBytes := by
      rw [hpages] at htot
      simp only [page, maxImageBytes, maxImagePages] at htot ⊢
      omega
    have hlt : (segAt img i).vaddr < vaLimit := by
      simp only [page] at hlim
      omega
    refine ⟨h.reserved, (unknown_flags_iff hfl).mpr h.flags_known, ?_, ?_, ?_, ⟨h.va_min, hlt⟩,
      ⟨Nat.pos_iff_ne_zero.mp hmem, hmax⟩, hlim, h.file_le_mem,
      ⟨h.no_data, h.data_inside, h.data_seg_table, h.data_cap_table⟩, htot, hpair, rfl⟩
    · intro h0
      simpa [h.readable] using hR.mp h0
    · rintro ⟨h1, h2⟩
      exact h.not_wx ⟨Bool.eq_true_of_not_eq_false (fun e => h1 (hW.mpr e)),
        Bool.eq_true_of_not_eq_false (fun e => h2 (hX.mpr e))⟩
    · exact hA.trans (Nat.mod_eq_zero_of_dvd h.aligned)

/-- Pages of the entries below `i`. -/
def pagesBelow (img : Bytes) (i : ℕ) : ℕ := ∑ j ∈ Finset.range i, (segAt img j).pages

/-- What the loop checks at entry `j`, given the entries below it. -/
def SegStep (img : Bytes) (size j : ℕ) : Prop :=
  SegOk img size j ∧ pagesBelow img (j + 1) ≤ maxImagePages ∧
  ∀ l < j, overlap (segAt img j).vaddr ((segAt img j).vaddr + (segAt img j).pages * page)
      (segAt img l).vaddr ((segAt img l).vaddr + (segAt img l).pages * page) = false ∧
    Disjoint (segAt img l).data (segAt img j).data

/-- The record with entries `i`, …, `i + k - 1` filled in. -/
def fillSegs (img : Bytes) (i k : ℕ) (out : ExbInfo) : ExbInfo :=
  { out with seg := fun j => if i ≤ j ∧ j < i + k then segAt img j else out.seg j }

theorem fillSegs_zero (img : Bytes) (i : ℕ) (out : ExbInfo) : fillSegs img i 0 out = out := by
  have hseg : (fun j => if i ≤ j ∧ j < i + 0 then segAt img j else out.seg j) = out.seg := by
    funext j
    rw [if_neg (by omega)]
  rw [fillSegs, hseg]

theorem fillSegs_succ (img : Bytes) (i k : ℕ) (out : ExbInfo) :
    fillSegs img (i + 1) k { out with seg := Function.update out.seg i (segAt img i) } =
      fillSegs img i (k + 1) out := by
  have hseg : (fun j => if i + 1 ≤ j ∧ j < i + 1 + k then segAt img j
      else Function.update out.seg i (segAt img i) j) =
      fun j => if i ≤ j ∧ j < i + (k + 1) then segAt img j else out.seg j := by
    funext j
    by_cases hj : j = i
    · subst hj; simp
    · rw [Function.update_of_ne hj]
      exact if_congr (by omega) rfl rfl
  simp only [fillSegs, hseg]

/-- The segment loop from entry `i` passes when each of its `k` entries does, and
then the record holds those entries. -/
theorem yields_parseSegs (img : Bytes) (size k i : ℕ) (out : ExbInfo) (hs : 1 ≤ segCnt img)
    (r : ℕ × ExbInfo) :
    Yields (parseSegs (m := Id) img size (tablesOf img) k i ((List.range i).map (spanAt img))
        (pagesBelow img i) out) r ↔
      (∀ j, i ≤ j → j < i + k → SegStep img size j) ∧
      r = (pagesBelow img (i + k), fillSegs img i k out) := by
  induction k generalizing i out with
  | zero =>
    simp only [parseSegs, yields_pure, fillSegs_zero, Nat.add_zero]
    constructor
    · rintro rfl
      exact ⟨fun j h1 h2 => by omega, rfl⟩
    · rintro ⟨_, rfl⟩
      rfl
  | succ k ih =>
    have htot : pagesBelow img i + (segAt img i).pages = pagesBelow img (i + 1) := by
      rw [pagesBelow, pagesBelow, Finset.sum_range_succ]
    have hspans : (List.range i).map (spanAt img) ++ [spanAt img i] =
        (List.range (i + 1)).map (spanAt img) := by
      rw [List.range_succ, List.map_append, List.map_singleton]
    have hbind : ∀ x : ExbSeg × Span,
        Yields (parseSeg (m := Id) img size (tablesOf img) ((List.range i).map (spanAt img))
          (pagesBelow img i) (segOff img + i * segSize)) x ↔
        SegStep img size i ∧ x = (segAt img i, spanAt img i) := by
      intro x
      rw [yields_parseSeg img size i _ _ hs, htot, SegStep, and_assoc, and_assoc]
      simp only [List.mem_map, List.mem_range, forall_exists_index, and_imp,
        forall_apply_eq_imp_iff₂]
      rfl
    rw [parseSegs, yields_bind]
    simp only [show (tablesOf img).segOff = segOff img from rfl, hbind]
    constructor
    · rintro ⟨_, ⟨h0, rfl⟩, hrest⟩
      rw [hspans, htot, ih, fillSegs_succ, show i + 1 + k = i + (k + 1) by omega] at hrest
      refine ⟨fun j h1 h2 => ?_, hrest.2⟩
      by_cases hj : j = i
      · subst hj; exact h0
      · exact hrest.1 j (by omega) (by omega)
    · rintro ⟨hall, rfl⟩
      refine ⟨(segAt img i, spanAt img i), ⟨hall i le_rfl (by omega), rfl⟩, ?_⟩
      rw [hspans, htot, ih, fillSegs_succ, show i + 1 + k = i + (k + 1) by omega]
      exact ⟨fun j h1 h2 => hall j (by omega) (by omega), rfl⟩

/-! ## Capabilities -/

/-- The kinds marked seen before entry `i`. -/
def seenBelow (img : Bytes) (i : ℕ) : Seen :=
  ⟨(List.range i).any fun l => decide (capBase img l = 1),
    (List.range i).any fun l => decide (capBase img l = 2),
    (List.range i).any fun l => decide (capBase img l = 3)⟩

theorem seenBelow_succ (img : Bytes) (i : ℕ) :
    seenBelow img (i + 1) =
      ⟨(seenBelow img i).stack || decide (capBase img i = 1),
        (seenBelow img i).heap || decide (capBase img i = 2),
        (seenBelow img i).tokens || decide (capBase img i = 3)⟩ := by
  simp [seenBelow, List.range_succ]

/-- What the loop checks at entry `j`, given the entries below it. -/
def CapStep (img : Bytes) (j : ℕ) : Prop :=
  CapOk img j ∧ ∀ l < j, capBase img l = capBase img j → 3 < capBase img j

/-- The record after capability entry `i`. -/
def fillCap (img : Bytes) (i : ℕ) (out : ExbInfo) : ExbInfo :=
  match capBase img i with
  | 1 => { out with stackBytes := capValue img i }
  | 2 => { out with heapFrames := capValue img i }
  | 3 => { out with extraTokens := capValue img i }
  | _ => out

theorem any_range_eq_false_iff (f : ℕ → ℕ) (i v : ℕ) :
    ((List.range i).any fun l => decide (f l = v)) = false ↔ ∀ l < i, f l ≠ v := by
  simp [List.any_eq_false]

/-- The step of an entry with a known kind. -/
theorem capStep_known {img : Bytes} {i v : ℕ} (hb : capBase img i = v) (h0 : 0 < v) (h3 : v ≤ 3) :
    CapStep img i ↔ capReserved img i = 0 ∧ (∀ l < i, capBase img l ≠ v) ∧
      (v = 1 → page ∣ capValue img i ∧ page ≤ capValue img i ∧
        capValue img i ≤ maxStackPages * page) ∧
      (v = 2 → capValue img i ≤ maxHeapRequest) ∧ (v = 3 → capValue img i ≤ maxTokenRequest) := by
  subst hb
  constructor
  · rintro ⟨h, honce⟩
    refine ⟨h.reserved, fun l hl he => ?_, h.stack, h.heap, h.tokens⟩
    have := honce l hl he
    omega
  · rintro ⟨hres, hnew, h1, h2, h3'⟩
    exact ⟨⟨hres, h0, h1, h2, h3', fun h => by omega⟩, fun l hl he => absurd he (hnew l hl)⟩

/-- The step of an entry with an unknown kind. -/
theorem capStep_unknown {img : Bytes} {i : ℕ} (hb : 3 < capBase img i) :
    CapStep img i ↔ capReserved img i = 0 ∧ (capKind img i).testBit 31 = true := by
  constructor
  · rintro ⟨h, _⟩
    exact ⟨h.reserved, h.unknown hb⟩
  · rintro ⟨hres, hopt⟩
    refine ⟨⟨hres, by omega, ?_, ?_, ?_, fun _ => hopt⟩, fun _ _ _ => hb⟩ <;> intro h <;> omega

/-- One turn of the capability loop checks the entry on its own and that its kind
is new, and marks the kind. -/
theorem yields_parseCap (img : Bytes) (i : ℕ) (out : ExbInfo) (r : Seen × ExbInfo) :
    Yields (parseCap (m := Id) img (seenBelow img i) out (capOff img + i * capSize)) r ↔
      CapStep img i ∧ r = (seenBelow img (i + 1), fillCap img i out) := by
  have hbase : capKind img i &&& (2 ^ 32 - 1 - capOptional) = capBase img i :=
    Nat.and_two_pow_sub_one_eq_mod _ 31
  have hopt : capKind img i &&& capOptional = 0 ↔ (capKind img i).testBit 31 = false :=
    and_two_pow_eq_zero_iff _ 31
  have hk : getLE 4 img (capOff img + i * capSize) = capKind img i := rfl
  have hr : getLE 4 img (capOff img + i * capSize + 4) = capReserved img i := rfl
  have hv : getLE 8 img (capOff img + i * capSize + 8) = capValue img i := rfl
  have hnew : ∀ v, ((List.range i).any fun l => decide (capBase img l = v)) = false ↔
      ∀ l < i, capBase img l ≠ v := any_range_eq_false_iff (capBase img) i
  simp only [parseCap, yields_bind, yields_le32, yields_le64, yields_failIf, exists_eq_left',
    exists_const, hk, hr, hv, ne_eq, not_not]
  rw [hbase, seenBelow_succ, eq_comm (a := r)]
  -- one case for each arm of the source's switch
  rcases hb : capBase img i with _ | _ | _ | _ | n
  · simp only [CapStep, not_true_eq_false, false_and, and_false, false_iff, not_and]
    intro h
    exact absurd h.1.base_pos (by omega)
  · rw [capStep_known hb (by omega) (by omega), ← hnew]
    simp only [yields_bind, yields_failIf, yields_pure, exists_const]
    simp [fillCap, hb, seenBelow, Nat.dvd_iff_mod_eq_zero, and_assoc]
  · rw [capStep_known hb (by omega) (by omega), ← hnew]
    simp only [yields_bind, yields_failIf, yields_pure, exists_const]
    simp [fillCap, hb, seenBelow, and_assoc]
  · rw [capStep_known hb (by omega) (by omega), ← hnew]
    simp only [yields_bind, yields_failIf, yields_pure, exists_const]
    simp [fillCap, hb, seenBelow, and_assoc]
  · rw [capStep_unknown (by omega)]
    simp only [yields_bind, yields_failIf, yields_pure, exists_const]
    simp [fillCap, hb, hopt, and_assoc]

/-- The record after capability entries `i`, …, `i + k - 1`. -/
def fillCaps (img : Bytes) : ℕ → ℕ → ExbInfo → ExbInfo
  | 0, _, out => out
  | k + 1, i, out => fillCaps img k (i + 1) (fillCap img i out)

/-- The capability loop from entry `i` passes when each of its `k` entries does. -/
theorem yields_parseCaps (img : Bytes) (k i : ℕ) (out r : ExbInfo) :
    Yields (parseCaps (m := Id) img (capOff img) k i (seenBelow img i) out) r ↔
      (∀ j, i ≤ j → j < i + k → CapStep img j) ∧ r = fillCaps img k i out := by
  induction k generalizing i out with
  | zero =>
    simp only [parseCaps, yields_pure, fillCaps, Nat.add_zero]
    constructor
    · rintro rfl
      exact ⟨fun j h1 h2 => by omega, rfl⟩
    · rintro ⟨_, rfl⟩
      rfl
  | succ k ih =>
    simp only [parseCaps, yields_bind, yields_parseCap, fillCaps]
    constructor
    · rintro ⟨_, ⟨h0, rfl⟩, hrest⟩
      obtain ⟨hall, hr⟩ := (ih _ _).mp hrest
      refine ⟨fun j h1 h2 => ?_, hr⟩
      by_cases hj : j = i
      · subst hj; exact h0
      · exact hall j (by omega) (by omega)
    · rintro ⟨hall, hr⟩
      exact ⟨_, ⟨hall i le_rfl (by omega), rfl⟩,
        (ih _ _).mpr ⟨fun j h1 h2 => hall j (by omega) (by omega), hr⟩⟩

/-! ## The whole file -/

/-- The entries' running checks together are the format's conditions on segments. -/
theorem forall_segStep_iff (img : Bytes) (size : ℕ) (hs : 1 ≤ segCnt img) :
    (∀ j < segCnt img, SegStep img size j) ↔
      (∀ i < segCnt img, SegOk img size i) ∧
      (∀ i j, i < j → j < segCnt img → Disjoint (segAt img i).span (segAt img j).span) ∧
      (∀ i j, i < j → j < segCnt img → Disjoint (segAt img i).data (segAt img j).data) ∧
      ∑ i ∈ Finset.range (segCnt img), (segAt img i).pages ≤ maxImagePages := by
  have hpos : ∀ i, SegOk img size i → ¬ (segAt img i).vaddr + (segAt img i).pages * page ≤
      (segAt img i).vaddr := by
    intro i h
    have hm := h.mem_pos
    have hp : (segAt img i).pages = ((segAt img i).memSize + page - 1) / page := rfl
    rw [hp]
    simp only [page]
    omega
  constructor
  · intro h
    refine ⟨fun i hi => (h i hi).1, fun i j hij hj => ?_, fun i j hij hj => ?_, ?_⟩
    · rw [ExbSeg.span, ExbSeg.span, disjoint_comm, disjoint_Ico_iff]
      exact Or.inr (Or.inr ((h j hj).2.2 i hij).1)
    · exact ((h j hj).2.2 i hij).2
    · have hlast := (h (segCnt img - 1) (by omega)).2.1
      rwa [pagesBelow, show segCnt img - 1 + 1 = segCnt img by omega] at hlast
  · rintro ⟨hok, hspan, hdata, htot⟩ j hj
    refine ⟨hok j hj, ?_, fun l hl => ⟨?_, hdata l j hl hj⟩⟩
    · refine le_trans (Finset.sum_le_sum_of_subset ?_) htot
      exact Finset.range_subset_range.mpr hj
    · have := hspan l j hl hj
      rw [ExbSeg.span, ExbSeg.span, disjoint_comm, disjoint_Ico_iff] at this
      simpa [hpos j (hok j hj), hpos l (hok l (by omega))] using this

/-- The entry test on a record is the format's condition on the entry point. -/
theorem holdsEntry_iff (entry : ℕ) (s : ExbSeg) :
    holdsEntry entry s = true ↔
      s.flags.testBit 2 = true ∧ s.vaddr ≤ entry ∧ entry < s.vaddr + s.fileSize := by
  have hX : s.flags &&& segX = 0 ↔ s.flags.testBit 2 = false := and_two_pow_eq_zero_iff _ 2
  simp only [holdsEntry, Bool.and_eq_true, decide_eq_true_eq, ne_eq, hX, Bool.not_eq_false,
    and_assoc]
  refine and_congr Iff.rfl (and_congr_right fun h => ?_)
  omega

/-- The record a successful parse leaves, whatever it held before. -/
def infoOf (img : Bytes) (out : ExbInfo) : ExbInfo :=
  fillCaps img (capCnt img) 0 { fillSegs img 0 (segCnt img) out with
    segCount := segCnt img
    imagePages := pagesBelow img (segCnt img)
    entry := entryField img
    stackBytes := defaultStackPages * page }

theorem fillCap_keeps (img : Bytes) (i : ℕ) (out : ExbInfo) :
    (fillCap img i out).seg = out.seg ∧ (fillCap img i out).segCount = out.segCount ∧
      (fillCap img i out).imagePages = out.imagePages ∧ (fillCap img i out).entry = out.entry := by
  unfold fillCap
  split <;> exact ⟨rfl, rfl, rfl, rfl⟩

theorem fillCaps_keeps (img : Bytes) (k i : ℕ) (out : ExbInfo) :
    (fillCaps img k i out).seg = out.seg ∧ (fillCaps img k i out).segCount = out.segCount ∧
      (fillCaps img k i out).imagePages = out.imagePages ∧
        (fillCaps img k i out).entry = out.entry := by
  induction k generalizing i out with
  | zero => exact ⟨rfl, rfl, rfl, rfl⟩
  | succ k ih =>
    obtain ⟨h1, h2, h3, h4⟩ := ih (i + 1) (fillCap img i out)
    obtain ⟨g1, g2, g3, g4⟩ := fillCap_keeps img i out
    exact ⟨h1.trans g1, h2.trans g2, h3.trans g3, h4.trans g4⟩

theorem segCount_infoOf (img : Bytes) (out : ExbInfo) : (infoOf img out).segCount = segCnt img :=
  (fillCaps_keeps img _ _ _).2.1

theorem entry_infoOf (img : Bytes) (out : ExbInfo) : (infoOf img out).entry = entryField img :=
  (fillCaps_keeps img _ _ _).2.2.2

theorem seg_infoOf (img : Bytes) (out : ExbInfo) {i : ℕ} (hi : i < segCnt img) :
    (infoOf img out).seg i = segAt img i := by
  rw [infoOf, (fillCaps_keeps img _ _ _).1]
  exact if_pos ⟨Nat.zero_le i, by omega⟩

/-- What the parts of the parser check, in their order. -/
structure Passes (img : Bytes) (size : ℕ) : Prop where
  header : Yields (checkHeader (m := Id) img size) ()
  tables : Yields (checkTables (m := Id) size (segOff img) (segCnt img) (capOff img) (capCnt img))
    (tablesOf img)
  segs : ∀ j < segCnt img, SegStep img size j
  entry : ∃ i < segCnt img, holdsEntry (entryField img) (segAt img i) = true
  caps : ∀ j < capCnt img, CapStep img j

/-- The parser's body passes when the header, the tables, the segment loop, the
entry test and the capability loop do, and then it fills the record. -/
theorem yields_parseImpl_iff (img : Bytes) (size : ℕ) (out info : ExbInfo) :
    Yields (parseImpl (m := Id) img size out) info ↔ Passes img size ∧ info = infoOf img out := by
  have hseg : ∀ hs : 1 ≤ segCnt img, ∀ r : ℕ × ExbInfo,
      Yields (parseSegs (m := Id) img size (tablesOf img) (segCnt img) 0 [] 0 out) r ↔
        (∀ j < segCnt img, SegStep img size j) ∧
        r = (pagesBelow img (segCnt img), fillSegs img 0 (segCnt img) out) := by
    intro hs r
    have h := yields_parseSegs img size (segCnt img) 0 out hs r
    simpa [pagesBelow] using h
  have hcap : ∀ o r, Yields (parseCaps (m := Id) img (capOff img) (capCnt img) 0
      ⟨false, false, false⟩ o) r ↔ (∀ j < capCnt img, CapStep img j) ∧
        r = fillCaps img (capCnt img) 0 o := by
    intro o r
    have h := yields_parseCaps img (capCnt img) 0 o r
    simpa [seenBelow] using h
  have hfill : ∀ j < segCnt img, (fillSegs img 0 (segCnt img) out).seg j = segAt img j := by
    intro j hj
    rw [fillSegs]
    exact if_pos ⟨Nat.zero_le j, by omega⟩
  constructor
  · intro h
    simp only [parseImpl, yields_bind, yields_le64, yields_le32, exists_eq_left'] at h
    obtain ⟨_, hh, t, ht, r, hs, h⟩ := h
    have hcount := ((yields_checkTables _ _ _ _ _ _).mp ht).1.1
    obtain rfl : t = tablesOf img := ((yields_checkTables _ _ _ _ _ _).mp ht).2.2.2.2.2.2
    obtain ⟨hsteps, rfl⟩ := (hseg hcount r).mp hs
    simp only [yields_failIf, not_not, exists_const, List.any_eq_true, List.mem_range] at h
    obtain ⟨⟨i, hi, he⟩, hc⟩ := h
    obtain ⟨hcaps, hinfo⟩ := (hcap _ _).mp hc
    refine ⟨⟨hh, ht, hsteps, ⟨i, hi, ?_⟩, hcaps⟩, hinfo⟩
    rwa [hfill i hi] at he
  · rintro ⟨⟨hh, ht, hsteps, ⟨i, hi, he⟩, hc⟩, rfl⟩
    have hcount := ((yields_checkTables _ _ _ _ _ _).mp ht).1.1
    simp only [parseImpl, yields_bind, yields_le64, yields_le32, exists_eq_left']
    have hany : Yields (failIf (m := Id) (¬ ((List.range (segCnt img)).any fun i =>
        holdsEntry (entryField img) ((fillSegs img 0 (segCnt img) out).seg i)) = true) .eEntry)
            () := by
      simp only [yields_failIf, not_not, List.any_eq_true, List.mem_range]
      exact ⟨i, hi, by rwa [hfill i hi]⟩
    exact ⟨(), hh, tablesOf img, ht, _, (hseg hcount _).mpr ⟨hsteps, rfl⟩, (), hany,
      (hcap _ _).mpr ⟨hc, rfl⟩⟩

/-- The checks of the parser together are the format. -/
theorem passes_iff (img : Bytes) (size : ℕ) : Passes img size ↔ ExbFormat img size := by
  constructor
  · rintro ⟨hheader, htables, hsegs, ⟨i, hi, he⟩, hcaps⟩
    obtain ⟨⟨hmin, hmax⟩, hmagic, hver, hend, hhs, hfl, hres, hkind, htgt, hsz, hcrc⟩ :=
      (yields_checkHeader img size ()).mp hheader
    obtain ⟨hsc, hst, hcc, hc0, hct, hdis, _⟩ := (yields_checkTables _ _ _ _ _ _).mp htables
    obtain ⟨hok, hspan, hdata, htot⟩ := (forall_segStep_iff img size hsc.1).mp hsegs
    exact ⟨hmin, hmax, hsz, hmagic, hver, hend, hhs, hfl, hres, hkind, htgt, hcrc, hsc, hst, hcc,
      hc0, hct, hdis, hok, hspan, hdata, htot, ⟨i, hi, (holdsEntry_iff _ _).mp he⟩,
      fun j hj => (hcaps j hj).1, fun l j hlj hj => (hcaps j hj).2 l hlj⟩
  · intro h
    obtain ⟨i, hi, he⟩ := h.entry
    refine ⟨(yields_checkHeader img size ()).mpr ⟨⟨h.size_min, h.size_max⟩, h.magic, h.version,
      h.endian, h.header_size,
        h.flags_zero, h.reserved, h.kind, h.target, h.size_field, h.crc⟩,
      (yields_checkTables _ _ _ _ _ _).mpr ⟨h.seg_count, h.seg_table, h.cap_count, h.cap_none,
        h.cap_table, h.tables_disjoint, rfl⟩,
      (forall_segStep_iff img size h.seg_count.1).mpr ⟨h.segs, h.spans_disjoint, h.data_disjoint,
        h.pages⟩,
      ⟨i, hi, (holdsEntry_iff _ _).mpr he⟩,
        fun j hj => ⟨h.caps j hj, fun l hl => h.caps_once l j hl hj⟩⟩

/-- **The validator accepts exactly the format.**  Whatever the record held before,
`exb_parse` reports `EXB_OK` on an image of `size` bytes when, and only when, those
bytes are an `.exb` v1 file. -/
theorem exbParse_ok_iff (img : Bytes) (size : ℕ) (out : ExbInfo) :
    (Id.run (exbParse (m := Id) img size out)).1 = .ok () ↔ ExbFormat img size := by
  rw [exbParse_eq_ok_iff, ← passes_iff]
  simp only [yields_parseImpl_iff]
  constructor
  · rintro ⟨_, h, _⟩
    exact h
  · intro h
    exact ⟨_, h, rfl⟩

end Xasmos.Exb
