import Xasmos.Exb.Loader
import Xasmos.Exb.Accept

/-!
# The validator on an image that changes

The validator runs on memory in which each read may see another byte.  `Scans B x Q` says that
`x` does nothing but read the image, at offsets in `B`, and that what it returns satisfies
`Q`; `Checks` is the same for a computation that may report an error.  With them each part of
the parser has two facts: on any memory it reads inside the image and what passes is safe
(`InfoSafe`), since every field is fetched once and checked as it was fetched; on an image
that nobody writes it passes only if the parser on that fixed image does.
-/

namespace Xasmos.Exb

open Bytes Prog
open Function (update update_self update_of_ne)

variable {capOff i k o size total : ℕ} {out : ExbInfo} {s : ExbSeg} {seg : ℕ → ExbSeg}
  {spans : List Span} {α β σ : Type}

/-! ## Computations that only read -/

section Rules

variable {B : ℕ → Prop}

/-- From `s` to `s'` the image was read, at offsets in `B`, and nothing else was done. -/
structure OnlyRead (B : ℕ → Prop) (s s' : LoadSt σ) : Prop where
  st : s'.st = s.st
  calls : s'.calls = s.calls
  reads : ∃ os, s'.reads = s.reads ++ os ∧ ∀ o ∈ os, B o

theorem OnlyRead.refl (s : LoadSt σ) : OnlyRead B s s := ⟨rfl, rfl, [], by simp, by simp⟩

theorem OnlyRead.trans {s t u : LoadSt σ} (h : OnlyRead B s t) (h' : OnlyRead B t u) :
    OnlyRead B s u := by
  obtain ⟨os, hos, hB⟩ := h.reads
  obtain ⟨os', hos', hB'⟩ := h'.reads
  refine ⟨h'.st.trans h.st, h'.calls.trans h.calls, os ++ os', ?_, ?_⟩
  · rw [hos', hos, List.append_assoc]
  · intro o ho
    rcases List.mem_append.mp ho with ho | ho
    · exact hB o ho
    · exact hB' o ho

/-- `x` only reads, at offsets in `B`, and returns what satisfies `Q`. -/
def Scans (B : ℕ → Prop) (x : LProg σ α) (Q : α → Prop) : Prop :=
  ∀ s, x.wp (fun a s' => OnlyRead B s s' ∧ Q a) (fun _ _ => False) s

theorem scans_pure {Q : α → Prop} {a : α} (h : Q a) :
    Scans B (pure a : LProg σ α) Q := fun s => ⟨.refl s, h⟩

theorem scans_bind {x : LProg σ α} {f : α → LProg σ β} {P : α → Prop} {Q : β → Prop}
    (hx : Scans B x P) (hf : ∀ a, P a → Scans B (f a) Q) : Scans B (x >>= f) Q := by
  intro s
  rw [wp_bind]
  refine wp_mono (hx s) ?_ (fun _ _ _ h => h)
  rintro a s' _ ⟨hread, ha⟩
  refine wp_mono (hf a ha s') ?_ (fun _ _ _ h => h)
  rintro b s'' _ ⟨hread', hb⟩
  exact ⟨hread.trans hread', hb⟩

theorem Scans.mono {x : LProg σ α} {P Q : α → Prop} (h : Scans B x P) (hPQ : ∀ a, P a → Q a) :
    Scans B x Q :=
  fun s => wp_mono (h s) (fun a _ _ ha => ⟨ha.1, hPQ a ha.2⟩) (fun _ _ _ h => h)

theorem scans_readImage (mem : ℕ → Bytes) (ho : B o) :
    Scans B (readImage mem o : LProg σ UInt8) fun b => ∃ t, b = mem t o :=
  fun s => ⟨⟨rfl, rfl, [o], rfl, by simpa using ho⟩, s.reads.length, rfl⟩

/-- `x` only reads, at offsets in `B`, and if it passes its result satisfies `Q`. -/
def Checks (B : ℕ → Prop) (x : ExceptT ExbError (LProg σ) α) (Q : α → Prop) : Prop :=
  Scans B x.run fun r => ∀ a, r = .ok a → Q a

theorem checks_pure {Q : α → Prop} {a : α} (h : Q a) :
    Checks B (pure a : ExceptT ExbError (LProg σ) α) Q :=
  scans_pure fun _ hb => Except.ok.inj hb ▸ h

theorem checks_bind {x : ExceptT ExbError (LProg σ) α} {f : α → ExceptT ExbError (LProg σ) β}
    {P : α → Prop} {Q : β → Prop} (hx : Checks B x P) (hf : ∀ a, P a → Checks B (f a) Q) :
    Checks B (x >>= f) Q := by
  rw [Checks, ExceptT.run_bind]
  refine scans_bind hx fun r hr => ?_
  cases r with
  | ok a => exact hf a (hr a rfl)
  | error e => exact scans_pure fun _ h => nomatch h

theorem Checks.mono {x : ExceptT ExbError (LProg σ) α} {P Q : α → Prop} (h : Checks B x P)
    (hPQ : ∀ a, P a → Q a) : Checks B x Q := Scans.mono h fun _ hr a ha => hPQ a (hr a ha)

theorem checks_lift {x : LProg σ α} {Q : α → Prop} (h : Scans B x Q) :
    Checks B (ExceptT.lift x) Q := by
  refine scans_bind h fun a ha => ?_
  exact scans_pure fun _ hb => Except.ok.inj hb ▸ ha

theorem checks_failIf (c : Prop) [Decidable c] (e : ExbError) :
    Checks B (failIf c e : ExceptT ExbError (LProg σ) Unit) fun _ => ¬ c := by
  unfold failIf
  split_ifs with h
  · exact scans_pure fun _ hb => nomatch hb
  · exact checks_pure h

/-- A check, and the rest when it passes. -/
theorem checks_failIf_bind {c : Prop} [Decidable c] {e : ExbError}
    {f : Unit → ExceptT ExbError (LProg σ) β} {Q : β → Prop} (hf : ¬ c → Checks B (f ()) Q) :
    Checks B (failIf c e >>= f) Q :=
  checks_bind (checks_failIf c e) fun _ h => hf h

theorem scans_getLEM (mem : ℕ → Bytes) (n : ℕ) (h : ∀ i < n, B (o + i)) :
    Scans B (getLEM n (readImage mem) o : LProg σ ℕ) fun v => ∀ img, mem = (fun _ => img) →
      v = getLE n img o := by
  induction n generalizing o with
  | zero => exact scans_pure fun _ _ => rfl
  | succ n ih =>
    refine scans_bind (scans_readImage mem (h 0 (by omega))) ?_
    rintro b ⟨t, rfl⟩
    refine scans_bind (ih (o := o + 1) fun i hi => ?_) fun v hv => scans_pure ?_
    · rw [show o + 1 + i = o + (i + 1) by omega]
      exact h (i + 1) (by omega)
    · rintro img rfl
      rw [hv img rfl]
      rfl

end Rules

/-! ## An image that nobody writes -/

section Stable

variable (img : Bytes)

/-- `x` only reads, and it ends as the computation `y` on the fixed image. -/
def Follows (x : ExceptT ExbError (LProg σ) α) (y : ExceptT ExbError Id α) : Prop :=
  Scans (fun _ => True) x.run fun r => r = Id.run y.run

theorem follows_pure (a : α) :
    Follows (pure a : ExceptT ExbError (LProg σ) α) (pure a) := scans_pure rfl

theorem follows_bind {x : ExceptT ExbError (LProg σ) α} {y : ExceptT ExbError Id α}
    {f : α → ExceptT ExbError (LProg σ) β} {g : α → ExceptT ExbError Id β} (hx : Follows x y)
    (hf : ∀ a, Follows (f a) (g a)) : Follows (x >>= f) (y >>= g) := by
  rw [Follows, ExceptT.run_bind]
  refine scans_bind hx fun r hr => ?_
  have hy : y.run = pure r := hr.symm
  cases r with
  | ok a =>
    refine Scans.mono (hf a) fun b hb => ?_
    rw [hb, ExceptT.run_bind, hy]
    rfl
  | error e =>
    rw [ExceptT.run_bind, hy]
    exact scans_pure rfl

theorem follows_failIf (c : Prop) [Decidable c] (e : ExbError) :
    Follows (failIf c e : ExceptT ExbError (LProg σ) Unit) (failIf c e) := by
  unfold failIf
  split_ifs
  · exact scans_pure rfl
  · exact scans_pure rfl

theorem follows_lift {x : LProg σ α} {y : Id α} (h : Scans (fun _ => True) x fun a => a = y) :
    Follows (ExceptT.lift x) (ExceptT.lift y) := by
  refine scans_bind h fun a ha => ?_
  rw [ha]
  exact scans_pure rfl

theorem follows_byteAt (o : ℕ) :
    Follows (byteAt (readImage fun _ => img) o : ExceptT ExbError (LProg σ) UInt8)
      (byteAt (m := Id) img o) := by
  refine follows_lift (Scans.mono (scans_readImage (fun _ => img) trivial) ?_)
  rintro b ⟨t, rfl⟩
  rfl

/-- A little-endian field. -/
theorem follows_getLEM (n o : ℕ) :
    Follows (ExceptT.lift (getLEM n (readImage fun _ => img) o) : ExceptT ExbError (LProg σ) ℕ)
      (ExceptT.lift (getLEM (m := Id) n img o)) := by
  refine follows_lift (Scans.mono (scans_getLEM (fun _ => img) n fun _ _ => trivial) fun v hv => ?_)
  rw [hv img rfl, getLEM_id]

theorem follows_crcLoop (k i : ℕ) (crc : BitVec 32) :
    Scans (fun _ => True) (crcLoop (readImage fun _ => img) k i crc : LProg σ (BitVec 32))
      fun c => c = crcLoop (m := Id) img k i crc := by
  induction k generalizing i crc with
  | zero => exact scans_pure rfl
  | succ k ih =>
    by_cases h : 28 ≤ i ∧ i < 32
    · simp only [crcLoop, h, and_self, if_true]
      exact scans_bind (P := fun b => b = 0) (scans_pure rfl) fun b hb => hb ▸ ih (i + 1) _
    · simp only [crcLoop, h, if_false]
      refine scans_bind (scans_readImage (fun _ => img) trivial) ?_
      rintro b ⟨t, rfl⟩
      exact ih (i + 1) _

theorem follows_checkReserved (k i : ℕ) :
    Follows (checkReserved (readImage fun _ => img) k i : ExceptT ExbError (LProg σ) Unit)
      (checkReserved (m := Id) img k i) := by
  induction k generalizing i with
  | zero => exact follows_pure ()
  | succ k ih =>
    exact follows_bind (follows_byteAt img i) fun _ => follows_bind (follows_failIf _ _) fun _ => ih
      (i + 1)

theorem follows_checkHeader (size : ℕ) :
    Follows (checkHeader (readImage fun _ => img) size : ExceptT ExbError (LProg σ) Unit)
      (checkHeader (m := Id) img size) := by
  have hcrc : Follows (ExceptT.lift (exbCrc32Image (readImage fun _ => img) size) : ExceptT ExbError
    (LProg σ) ℕ)
      (ExceptT.lift (exbCrc32Image (m := Id) img size)) := by
    refine follows_lift (scans_bind (follows_crcLoop img size 0 _) ?_)
    rintro c rfl
    exact scans_pure rfl
  unfold checkHeader
  repeat' first
    | exact follows_failIf _ _
    | exact hcrc
    | exact follows_checkReserved img _ _
    | refine follows_bind (follows_byteAt img _) fun _ => ?_
    | refine follows_bind (follows_getLEM img _ _) fun _ => ?_
    | refine follows_bind ?_ fun _ => ?_

theorem follows_checkTables (size so sc co cc : ℕ) :
    Follows (checkTables size so sc co cc : ExceptT ExbError (LProg σ) Tables)
      (checkTables (m := Id) size so sc co cc) := by
  unfold checkTables
  refine follows_bind (follows_failIf _ _) fun _ => follows_bind (follows_failIf _ _) fun _ =>
    follows_bind (follows_failIf _ _) fun _ => ?_
  split_ifs
  · exact follows_bind (follows_failIf _ _) fun _ => follows_pure _
  · exact follows_bind (follows_failIf _ _) fun _ => follows_bind (follows_failIf _ _)
      fun _ => follows_pure _

theorem follows_checkFileData (size : ℕ) (t : Tables) (foff fsz : ℕ) :
    Follows (checkFileData size t foff fsz : ExceptT ExbError (LProg σ) Unit)
      (checkFileData (m := Id) size t foff fsz) := by
  unfold checkFileData
  split_ifs
  · exact follows_failIf _ _
  · repeat' first
      | exact follows_failIf _ _
      | refine follows_bind ?_ fun _ => ?_

theorem follows_parseSeg (size : ℕ) (t : Tables) (spans : List Span) (total o : ℕ) :
    Follows (parseSeg (readImage fun _ => img) size t spans total o : ExceptT ExbError (LProg σ)
      (ExbSeg × Span))
      (parseSeg (m := Id) img size t spans total o) := by
  unfold parseSeg
  repeat' first
    | exact follows_pure _
    | exact follows_failIf _ _
    | exact follows_checkFileData _ _ _ _
    | refine follows_bind (follows_getLEM img _ _) fun _ => ?_
    | refine follows_bind ?_ fun _ => ?_

theorem follows_parseSegs (size : ℕ) (t : Tables) (k i : ℕ) (spans : List Span) (total : ℕ)
    (out : ExbInfo) :
    Follows (parseSegs (readImage fun _ => img) size t k i spans total out : ExceptT ExbError
      (LProg σ) (ℕ × ExbInfo))
      (parseSegs (m := Id) img size t k i spans total out) := by
  induction k generalizing i spans total out with
  | zero => exact follows_pure _
  | succ k ih => exact follows_bind (follows_parseSeg img _ _ _ _ _) fun _ => ih _ _ _ _

theorem follows_parseCap (seen : Seen) (out : ExbInfo) (o : ℕ) :
    Follows (parseCap (readImage fun _ => img) seen out o : ExceptT ExbError (LProg σ)
      (Seen × ExbInfo))
      (parseCap (m := Id) img seen out o) := by
  unfold parseCap
  refine follows_bind (follows_getLEM img _ _) fun kind => follows_bind (follows_getLEM img _ _)
      fun value =>
    follows_bind (follows_getLEM img _ _) fun res => follows_bind (follows_failIf _ _) fun _ =>
    follows_bind (follows_failIf _ _) fun _ => ?_
  split <;> repeat' first
    | exact follows_pure _
    | exact follows_failIf _ _
    | refine follows_bind ?_ fun _ => ?_

theorem follows_parseCaps (capOff k i : ℕ) (seen : Seen) (out : ExbInfo) :
    Follows (parseCaps (readImage fun _ => img) capOff k i seen out : ExceptT ExbError
      (LProg σ) ExbInfo)
      (parseCaps (m := Id) img capOff k i seen out) := by
  induction k generalizing i seen out with
  | zero => exact follows_pure _
  | succ k ih => exact follows_bind (follows_parseCap img _ _ _) fun _ => ih _ _ _

theorem follows_parseImpl (size : ℕ) (out : ExbInfo) :
    Follows (parseImpl (readImage fun _ => img) size out : ExceptT ExbError (LProg σ) ExbInfo)
      (parseImpl (m := Id) img size out) := by
  unfold parseImpl
  refine follows_bind (follows_checkHeader img size) fun _ => ?_
  iterate 5 refine follows_bind (follows_getLEM img _ _) fun _ => ?_
  refine follows_bind (follows_checkTables _ _ _ _ _) fun t => follows_bind
    (follows_parseSegs img _ _ _ _ _ _ _) fun r => ?_
  exact follows_bind (follows_failIf _ _) fun _ => follows_parseCaps img _ _ _ _ _

end Stable

/-! ## An image that changes -/

/-- A stack size the manifest may ask for. -/
def StackOk (n : ℕ) : Prop := page ∣ n ∧ page ≤ n ∧ n ≤ maxStackPages * page

theorem stackOk_default : StackOk (defaultStackPages * page) := by
  refine ⟨Dvd.intro_left _ rfl, ?_, ?_⟩ <;> simp only [defaultStackPages, maxStackPages, page] <;>
    omega

/-- A segment that can be loaded from an image of `size` bytes. -/
structure SegSafe (size : ℕ) (s : ExbSeg) : Prop where
  not_wx : ¬ (s.flags &&& segW ≠ 0 ∧ s.flags &&& segX ≠ 0)
  aligned : page ∣ s.vaddr
  va_min : vaMin ≤ s.vaddr
  va_limit : s.vaddr + s.pages * page ≤ vaLimit
  file_fits : s.fileSize ≤ s.pages * page
  data_inside : 0 < s.fileSize → s.fileOff + s.fileSize ≤ size

/-- The first `n` segments can be loaded, and do not meet. -/
structure SegsSafe (size n : ℕ) (seg : ℕ → ExbSeg) : Prop where
  safe : ∀ i < n, SegSafe size (seg i)
  disjoint : ∀ i j, i < j → j < n → Disjoint (seg i).span (seg j).span

/-- The pages of the first `n` segments are counted, and not too many. -/
structure PagesCounted (n : ℕ) (seg : ℕ → ExbSeg) (total : ℕ) : Prop where
  sum : total = ((List.range n).map fun i => (seg i).pages).sum
  le : total ≤ maxImagePages

/-- A record that is safe to load from. -/
structure InfoSafe (size : ℕ) (info : ExbInfo) : Prop where
  segs : SegsSafe size info.segCount info.seg
  stack : StackOk info.stackBytes
  pages : PagesCounted info.segCount info.seg info.imagePages
  count : info.segCount ≤ maxSegs

section Race

variable (mem : ℕ → Bytes)

theorem checks_byteAt (h : o < size) :
    Checks (· < size) (byteAt (readImage mem) o : ExceptT ExbError (LProg σ) UInt8) fun _ => True :=
  Checks.mono (checks_lift (scans_readImage mem h)) fun _ _ => trivial

/-- A field that lies inside the image. -/
theorem checks_getLEM (n : ℕ) (h : o + n ≤ size) :
    Checks (· < size) (ExceptT.lift (getLEM n (readImage mem) o) : ExceptT ExbError (LProg σ) ℕ)
      fun _ => True :=
  Checks.mono (checks_lift (scans_getLEM mem n fun i hi => by omega)) fun _ _ => trivial

theorem scans_crcLoop (crc : BitVec 32) (h : i + k ≤ size) :
    Scans (· < size) (crcLoop (readImage mem) k i crc : LProg σ (BitVec 32)) fun _ => True := by
  induction k generalizing i crc with
  | zero => exact scans_pure trivial
  | succ k ih =>
    by_cases hi : 28 ≤ i ∧ i < 32
    · simp only [crcLoop, hi, and_self, if_true]
      exact scans_bind (P := fun _ => True) (scans_pure trivial) fun _ _ => ih _ (by omega)
    · simp only [crcLoop, hi, if_false]
      exact scans_bind (scans_readImage mem (by omega)) fun _ _ => ih _ (by omega)

theorem checks_checkReserved (h : i + k ≤ size) :
    Checks (· < size) (checkReserved (readImage mem) k i : ExceptT ExbError (LProg σ) Unit)
      fun _ => True := by
  induction k generalizing i with
  | zero => exact checks_pure trivial
  | succ k ih =>
    exact checks_bind (checks_byteAt mem (by omega)) fun _ _ => checks_failIf_bind fun _ => ih
      (by omega)

theorem checks_checkHeader :
    Checks (· < size) (checkHeader (readImage mem) size : ExceptT ExbError (LProg σ) Unit)
      fun _ => headerSize ≤ size := by
  unfold checkHeader
  refine checks_failIf_bind fun hsize => ?_
  have hmin : headerSize ≤ size := by omega
  have h64 : 64 ≤ size := hmin
  iterate 6
    refine checks_bind (checks_byteAt mem (by omega)) fun _ _ => checks_failIf_bind fun _ => ?_
  iterate 2
    refine checks_bind (checks_getLEM mem _ (by omega)) fun _ _ => checks_failIf_bind fun _ => ?_
  refine checks_bind (checks_checkReserved mem (by omega)) fun _ _ => ?_
  refine checks_bind (checks_byteAt mem (by omega)) fun _ _ => checks_failIf_bind fun _ => ?_
  iterate 2
    refine checks_bind (checks_getLEM mem _ (by omega)) fun _ _ => checks_failIf_bind fun _ => ?_
  refine checks_bind (checks_getLEM mem _ (by omega)) fun _ _ => checks_bind
    (checks_lift (scans_bind
    (scans_crcLoop mem _ (by omega)) fun _ _ => scans_pure trivial) (Q := fun _ => True))
      fun _ _ => ?_
  exact Checks.mono (checks_failIf _ _) fun _ _ => hmin

theorem checks_checkTables (so sc co cc : ℕ) :
    Checks (· < size) (checkTables size so sc co cc : ExceptT ExbError (LProg σ) Tables) fun t =>
      t.segOff + t.segCnt * segSize ≤ size ∧ (0 < t.capCnt → t.capOff + t.capCnt * capSize ≤ size) ∧
          t.segCnt ≤ maxSegs := by
  unfold checkTables
  refine checks_failIf_bind fun hcnt => checks_failIf_bind fun hseg => checks_failIf_bind
    fun _ => ?_
  split_ifs with hc
  · refine checks_failIf_bind fun _ => checks_pure
      ⟨by simp only; omega, fun h => ?_, by simp only; omega⟩
    simp only at h
    omega
  · refine checks_failIf_bind fun hcap => checks_failIf_bind fun _ => checks_pure
      ⟨by simp only; omega, fun _ => ?_, by simp only; omega⟩
    simp only
    omega

theorem checks_checkFileData (t : Tables) (foff fsz : ℕ) :
    Checks (· < size) (checkFileData size t foff fsz : ExceptT ExbError (LProg σ) Unit) fun _ =>
      0 < fsz → foff + fsz ≤ size := by
  unfold checkFileData
  split_ifs with h
  · exact Checks.mono (checks_failIf _ _) fun _ _ hpos => by omega
  · refine checks_failIf_bind fun _ => checks_failIf_bind fun hin => checks_failIf_bind fun _ => ?_
    exact Checks.mono (checks_failIf _ _) fun _ _ _ => by omega

/-- What one turn of the segment loop knows of the entry it fetched. -/
theorem checks_parseSeg (t : Tables) (spans : List Span) (total : ℕ) (ho : o + segSize ≤ size) :
    Checks (· < size) (parseSeg (readImage mem) size t spans total o : ExceptT ExbError (LProg σ)
      (ExbSeg × Span)) fun r =>
      SegSafe size r.1 ∧ r.2.v0 = r.1.vaddr ∧ r.2.v1 = r.1.vaddr + r.1.pages * page ∧
        total + r.1.pages ≤ maxImagePages ∧
        ∀ sp ∈ spans, Disjoint (Set.Ico sp.v0 sp.v1) r.1.span := by
  have ho' : o + 32 ≤ size := ho
  unfold parseSeg
  iterate 5 refine checks_bind (checks_getLEM mem _ (by omega)) fun _ _ => ?_
  rename_i vaddr _ memSize _ foff _ fsz _ fl _
  refine checks_bind (checks_getLEM mem _ (by omega)) fun _ _ => checks_failIf_bind fun _ => ?_
  refine checks_failIf_bind fun _ => checks_failIf_bind fun _ => checks_failIf_bind
      fun hwx => checks_failIf_bind fun hal =>
    checks_failIf_bind fun hva => checks_failIf_bind fun _ => checks_failIf_bind fun hend =>
        checks_failIf_bind fun hfile =>
    checks_bind (checks_checkFileData t _ _) fun _ hdata => checks_failIf_bind fun htotal =>
        checks_failIf_bind fun hpair =>
    checks_pure ?_
  have hmod : vaddr &&& (page - 1) = vaddr % page := Nat.and_two_pow_sub_one_eq_mod _ 12
  refine ⟨⟨hwx, ?_, by simp only; omega, by simp only; omega, ?_, hdata⟩, rfl, rfl,
    not_lt.mp htotal, ?_⟩
  · exact Nat.dvd_of_mod_eq_zero (hmod ▸ not_not.mp hal)
  · simp only [page] at hfile ⊢
    omega
  · intro sp hsp
    simp only [List.any_eq_true, not_exists, not_and, Bool.not_eq_true] at hpair
    have h := Bool.or_eq_false_iff.mp (hpair sp hsp)
    rw [ExbSeg.span, disjoint_comm, disjoint_Ico_iff]
    exact Or.inr (Or.inr h.1)

/-- The spans that the loop keeps are those of the segments before. -/
def SpansOf (seg : ℕ → ExbSeg) (i : ℕ) (spans : List Span) : Prop :=
  ∀ j < i, ∃ sp ∈ spans, sp.v0 = (seg j).vaddr ∧ sp.v1 = (seg j).vaddr + (seg j).pages * page

theorem SegsSafe.snoc (h : SegsSafe size i seg) (hsp : SpansOf seg i spans) (hs : SegSafe size s)
    (hd : ∀ sp ∈ spans, Disjoint (Set.Ico sp.v0 sp.v1) s.span) :
    SegsSafe size (i + 1) (update seg i s) := by
  constructor
  · intro j hj
    by_cases hji : j = i
    · rw [hji, update_self]
      exact hs
    · rw [update_of_ne hji]
      exact h.safe j (by omega)
  · intro j l hjl hl
    rw [update_of_ne (show j ≠ i by omega)]
    by_cases hli : l = i
    · obtain ⟨sp, hmem, h0, h1⟩ := hsp j (by omega)
      rw [hli, update_self, ExbSeg.span, ← h1, ← h0]
      exact hd sp hmem
    · rw [update_of_ne hli]
      exact h.disjoint j l hjl (by omega)

theorem SpansOf.snoc {sp : Span} (hsp : SpansOf seg i spans) (h0 : sp.v0 = s.vaddr)
    (h1 : sp.v1 = s.vaddr + s.pages * page) : SpansOf (update seg i s) (i + 1) (spans ++ [sp]) := by
  intro j hj
  by_cases hji : j = i
  · rw [hji, update_self]
    exact ⟨sp, by simp, h0, h1⟩
  · rw [update_of_ne hji]
    obtain ⟨sp', hmem, h⟩ := hsp j (by omega)
    exact ⟨sp', List.mem_append_left _ hmem, h⟩

theorem PagesCounted.snoc (h : PagesCounted i seg total) (hle : total + s.pages ≤ maxImagePages) :
    PagesCounted (i + 1) (update seg i s) (total + s.pages) := by
  refine ⟨?_, hle⟩
  have hold : (List.range i).map (fun j => (update seg i s j).pages) = (List.range i).map fun j =>
      (seg j).pages := by
    refine List.map_congr_left fun j hj => ?_
    rw [update_of_ne (List.mem_range.mp hj).ne]
  rw [List.range_succ, List.map_append, hold, List.sum_append, ← h.sum]
  simp

theorem checks_parseSegs (t : Tables) (spans : List Span) (total : ℕ)
    (hk : t.segOff + (i + k) * segSize ≤ size) (hs : SegsSafe size i out.seg)
    (hsp : SpansOf out.seg i spans) (hp : PagesCounted i out.seg total) :
    Checks (· < size) (parseSegs (readImage mem) size t k i spans total out : ExceptT ExbError
      (LProg σ) (ℕ × ExbInfo))
      fun r => SegsSafe size (i + k) r.2.seg ∧ PagesCounted (i + k) r.2.seg r.1 := by
  induction k generalizing i spans total out with
  | zero => exact checks_pure ⟨hs, hp⟩
  | succ k ih =>
    have ho : t.segOff + i * segSize + segSize ≤ size := by
      simp only [segSize] at hk ⊢
      omega
    refine checks_bind (checks_parseSeg mem t spans total ho) ?_
    rintro ⟨s, sp⟩ ⟨hsafe, h0, h1, hle, hd⟩
    rw [show i + (k + 1) = i + 1 + k by omega] at hk ⊢
    exact ih _ _ hk (hs.snoc hsp hsafe hd) (hsp.snoc h0 h1) (hp.snoc hle)

theorem checks_parseCap (seen : Seen) (ho : o + capSize ≤ size) (hs : InfoSafe size out) :
    Checks (· < size) (parseCap (readImage mem) seen out o : ExceptT ExbError (LProg σ)
      (Seen × ExbInfo))
      fun r => InfoSafe size r.2 := by
  have ho' : o + 16 ≤ size := ho
  unfold parseCap
  refine checks_bind (checks_getLEM mem _ (by omega)) fun _ _ => checks_bind
      (checks_getLEM mem _ (by omega)) fun _ _ =>
    checks_bind (checks_getLEM mem _ (by omega)) fun _ _ => checks_failIf_bind
      fun _ => checks_failIf_bind fun _ => ?_
  split
  · refine checks_failIf_bind fun _ => checks_failIf_bind fun hv => checks_pure
      ⟨hs.segs, ?_, hs.pages, hs.count⟩
    simp only [not_or, not_not, not_lt] at hv
    exact ⟨Nat.dvd_of_mod_eq_zero hv.1, hv.2.1, hv.2.2⟩
  · exact checks_failIf_bind fun _ => checks_failIf_bind fun _ => checks_pure
      ⟨hs.segs, hs.stack, hs.pages, hs.count⟩
  · exact checks_failIf_bind fun _ => checks_failIf_bind fun _ => checks_pure
      ⟨hs.segs, hs.stack, hs.pages, hs.count⟩
  · exact checks_failIf_bind fun _ => checks_pure hs

theorem checks_parseCaps (seen : Seen) (hk : 0 < k → capOff + (i + k) * capSize ≤ size)
    (hs : InfoSafe size out) :
    Checks (· < size) (parseCaps (readImage mem) capOff k i seen out : ExceptT ExbError
      (LProg σ) ExbInfo) (InfoSafe size) := by
  induction k generalizing i seen out with
  | zero => exact checks_pure hs
  | succ k ih =>
    have ho : capOff + i * capSize + capSize ≤ size := by
      have := hk (by omega)
      simp only [capSize] at this ⊢
      omega
    refine checks_bind (checks_parseCap mem seen ho hs) fun r hr => ih r.1 (fun _ => ?_) hr
    have := hk (by omega)
    rwa [show i + (k + 1) = i + 1 + k by omega] at this

/-- **Whatever the reads see**, the parser stays inside the image and passes only what is safe. -/
theorem checks_parseImpl (out : ExbInfo) :
    Checks (· < size) (parseImpl (readImage mem) size out : ExceptT ExbError (LProg σ) ExbInfo)
      (InfoSafe size) := by
  unfold parseImpl
  refine checks_bind (checks_checkHeader mem) fun _ hmin => ?_
  have h64 : 64 ≤ size := hmin
  iterate 5 refine checks_bind (checks_getLEM mem _ (by omega)) fun _ _ => ?_
  refine checks_bind (checks_checkTables _ _ _ _) fun t ht => ?_
  have hnone : SegsSafe size 0 out.seg := ⟨fun i hi => by omega, fun i j _ hj => by omega⟩
  have hzero : PagesCounted 0 out.seg 0 := ⟨rfl, Nat.zero_le _⟩
  refine checks_bind (checks_parseSegs mem t [] 0 (i := 0) (by rw [Nat.zero_add]; exact ht.1) hnone
    (fun j hj => by omega) hzero) fun r hr => checks_failIf_bind fun _ => ?_
  rw [Nat.zero_add] at hr
  exact checks_parseCaps mem _ (fun hc => by rw [Nat.zero_add]; exact ht.2.1 hc)
    ⟨hr.1, stackOk_default, hr.2, ht.2.2⟩

end Race

/-- **What a parse that passes has established**, on any memory and on a fixed image.  A fixed image
of the format passes. -/
theorem scans_exbParse (mem : ℕ → Bytes) (size : ℕ) (out : ExbInfo) :
    Scans (· < size) (exbParse (readImage mem) size out : LProg σ (Except ExbError Unit × ExbInfo))
      fun r =>
      (r.1 = .ok () → InfoSafe size r.2 ∧ ∀ img, mem = (fun _ => img) → ExbFormat img size ∧
        r.2 = infoOf img out) ∧
        ∀ img, mem = (fun _ => img) → ExbFormat img size → r.1 = .ok () := by
  have hboth : Scans (· < size)
      (parseImpl (readImage mem) size out : ExceptT ExbError (LProg σ) ExbInfo).run fun r =>
      (∀ info, r = .ok info → InfoSafe size info) ∧ ∀ img, mem = (fun _ => img) →
          r = Id.run (parseImpl (m := Id) img size out).run := by
    intro s
    by_cases himg : ∃ img : Bytes, mem = fun _ => img
    · obtain ⟨img, rfl⟩ := himg
      refine wp_mono (wp_and (checks_parseImpl (fun _ => img) out s)
        (follows_parseImpl img size out s)) ?_
        (fun _ _ _ h => h.1)
      rintro r s' _ ⟨⟨hread, hsafe⟩, _, hfollow⟩
      refine ⟨hread, hsafe, fun img' he => ?_⟩
      obtain rfl : img = img' := congrFun he 0
      exact hfollow
    · refine wp_mono (checks_parseImpl mem out s) ?_ (fun _ _ _ h => h)
      rintro r s' _ ⟨hread, hsafe⟩
      exact ⟨hread, hsafe, fun img he => absurd ⟨img, he⟩ himg⟩
  refine scans_bind hboth fun r hr => ?_
  cases r with
  | ok info =>
    refine scans_pure ⟨fun _ => ⟨hr.1 info rfl, fun img he => ?_⟩, fun _ _ _ => rfl⟩
    obtain ⟨hp, hinfo⟩ := (yields_parseImpl_iff img size out info).mp (hr.2 img he).symm
    exact ⟨(passes_iff img size).mp hp, hinfo⟩
  | error e =>
    refine scans_pure ⟨by simp, fun img he hf => ?_⟩
    have hok : Yields (parseImpl (m := Id) img size out) (infoOf img out) :=
      (yields_parseImpl_iff img size out _).mpr ⟨(passes_iff img size).mpr hf, rfl⟩
    cases (hr.2 img he).trans hok

end Xasmos.Exb
