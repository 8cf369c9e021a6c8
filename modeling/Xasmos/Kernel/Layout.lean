import Xasmos.Kernel.PageTree

/-!
# Who uses which frame

Every frame that is not free is used in exactly one way: it was used when the kernel
started, or it belongs to one live token, or it is one table of one live address space.
`Layout` is this partition together with the shape of the ledger and of the tables.

The frame lemmas of the second part say that a change of memory outside the tables moves no
table (`Layout.walk_eq`), and the last part has the changes of the ledger: a token that is
made, a token that is released.

## Main definitions

* `FrameUse`, `Uses` — the ways in which a frame is used.
* `Layout B s` — the partition; `B` are the frames used at the start.
-/

namespace Xasmos.Kernel

open Radix

variable {B D : ℕ → Prop} {a f i n p r : ℕ} {s s' s'' : Xeret}

/-- Frame `r` is the root of a live address space. -/
def IsRoot (s : Xeret) (r : ℕ) : Prop := ∃ a, (s.spaces a).live = true ∧
    (s.spaces a).pml4Phys = r * frameSize

/-- A use of a frame. -/
inductive FrameUse where
  | boot
  | token (k : ℕ)
  | table (r : ℕ) (π : List ℕ)

/-- Frame `f` is one of the frames of the token in slot `k`. -/
structure TokenFrame (L : Ledger) (k f : ℕ) : Prop where
  slot_lt : k < tableSlots
  live : (L.table k).live = true
  le : (L.table k).phys / frameSize ≤ f
  lt : f < (L.table k).phys / frameSize + (L.table k).nFrames

/-- Frame `f` is the table at the path `π` of the address space with the root `r`. -/
structure TableFrame (s : Xeret) (r : ℕ) (π : List ℕ) (f : ℕ) : Prop where
  root : IsRoot s r
  path : UserPath π
  walk_eq : walk (kid s) r π = some f

/-- Frame `f` is used in this way. -/
def Uses (B : ℕ → Prop) (s : Xeret) (f : ℕ) : FrameUse → Prop
  | .boot => B f
  | .token k => TokenFrame s.ledger k f
  | .table r π => TableFrame s r π f

/-- Every frame that is not free is used in one way, and the counters count. -/
structure FramesOk (B : ℕ → Prop) (s : Xeret) : Prop where
  counted : Counted s.phys
  total_le : s.phys.totalFrames ≤ bitmapMaxFrames
  free_lt : ∀ f, s.phys.isFree f = true → f < s.phys.totalFrames
  boot_zero : B 0
  used : ∀ f u, Uses B s f u → f < s.phys.totalFrames ∧ s.phys.isFree f = false
  unique : ∀ f u u', Uses B s f u → Uses B s f u' → u = u'
  exact : ∀ f < s.phys.totalFrames, s.phys.isFree f = false → ∃ u, Uses B s f u

/-- The slots of the ledger: live ones hold RAM, the others are not mapped. -/
structure TokensOk (L : Ledger) : Prop where
  gens : GensOk L
  slot_lt : ∀ k, (L.table k).live = true → k < tableSlots
  token : ∀ k, (L.table k).live = true →
    (∃ b, (L.table k).phys = b * frameSize) ∧ 0 < (L.table k).nFrames ∧ (L.table k).kind = .ram
  unmapped : ∀ k, (L.table k).live = false → (L.table k).mapCount = 0

/-- The address spaces have roots of their own, and the entries of their upper tables point to
tables. -/
structure TreesOk (s : Xeret) : Prop where
  space : ∀ a, (s.spaces a).live = true →
    (∃ r, (s.spaces a).pml4Phys = r * frameSize) ∧ (s.spaces a).ownerId ≠ ownerKernel
  space_inj : ∀ a a', (s.spaces a).live = true → (s.spaces a').live = true →
    (s.spaces a).pml4Phys = (s.spaces a').pml4Phys → a = a'
  upper : ∀ r π i t, IsRoot s r → UserPath (π ++ [i]) → walk (kid s) r π = some t →
    entry s t i &&& xptPresent ≠ 0 → ∃ c < 2 ^ 40, entry s t i = c * frameSize ||| xptUpper

/-- The page table of the kernel was there at the start and maps nothing in the user half. -/
def KernelOk (B : ℕ → Prop) (s : Xeret) : Prop :=
  ∃ k, s.pml4Phys = k * frameSize ∧ B k ∧ k ≠ 0 ∧ ∀ i, 1 ≤ i → i < xptKernelHalf →
    entry s k i &&& xptPresent = 0

/-- **The layout of memory.**  `B` are the frames that were used when the kernel started. -/
structure Layout (B : ℕ → Prop) (s : Xeret) : Prop extends FramesOk B s, TreesOk s where
  tokens : TokensOk s.ledger
  kernel : KernelOk B s

/-! ## What is moved, and what is not -/

/-- The frames of the kernel are as they were. -/
def SameBoot (B : ℕ → Prop) (s s' : Xeret) : Prop := ∀ f, B f → s'.mem f = s.mem f

theorem SameBoot.trans (h : SameBoot B s s') (h' : SameBoot B s' s'') : SameBoot B s s'' :=
  fun f hf => (h' f hf).trans (h f hf)

section Frames

theorem FramesOk.forest (h : FramesOk B s) : Forest (kid s) (IsRoot s) UserPath := by
  intro r r' π π' n hr hr' hπ hπ' hn hn'
  have heq := h.unique n (.table r π) (.table r' π') ⟨hr, hπ, hn⟩ ⟨hr', hπ', hn'⟩
  injection heq with h1 h2
  exact ⟨h1, h2⟩

theorem FramesOk.isFree_zero (h : FramesOk B s) :
    s.phys.isFree 0 = false := (h.used 0 .boot h.boot_zero).2

theorem FramesOk.total_lt (h : FramesOk B s) : s.phys.totalFrames < 2 ^ 40 :=
  lt_of_le_of_lt h.total_le (by decide)

/-- A frame that is free is not used. -/
theorem FramesOk.not_uses (h : FramesOk B s) (hf : s.phys.isFree f = true) (u : FrameUse) :
    ¬ Uses B s f u := by
  intro hu
  have hused := (h.used f u hu).2
  rw [hf] at hused
  exact absurd hused (by simp)

/-- A run of frames is taken for the use `v`. -/
theorem FramesOk.took (h : FramesOk B s) (ht : TookRun s.phys a n s'.phys) (v : FrameUse)
    (huse : ∀ f u, Uses B s' f u ↔ Uses B s f u ∨ (a ≤ f ∧ f < a + n) ∧ u = v) : FramesOk B s' := by
  have hfree : ∀ f, s'.phys.isFree f = true ↔ s.phys.isFree f = true ∧ ¬ (a ≤ f ∧ f < a + n) := by
    intro f
    rw [ht.isFree, Bool.and_eq_true, Bool.not_eq_true', decide_eq_false_iff_not]
  refine ⟨ht.counted, ht.total ▸ h.total_le, fun f hf => ?_, h.boot_zero, fun f u hu => ?_,
    fun f u u' hu hu' => ?_, fun f hf hnf => ?_⟩
  · rw [ht.total]
    exact h.free_lt f ((hfree f).mp hf).1
  · rw [ht.total, ← Bool.not_eq_true, hfree]
    rcases (huse f u).mp hu with hu | ⟨hin, _⟩
    · obtain ⟨h1, h2⟩ := h.used f u hu
      exact ⟨h1, by simp [h2]⟩
    · have hlast := ht.run.1
      exact ⟨by omega, fun hno => hno.2 hin⟩
  · -- a frame of the run had no use before
    have hnone : a ≤ f ∧ f < a + n → ∀ w, ¬ Uses B s f w :=
      fun hin => h.not_uses (ht.run.2 f hin.1 hin.2)
    rcases (huse f u).mp hu with hu | ⟨hin, rfl⟩
    · rcases (huse f u').mp hu' with hu' | ⟨hin, _⟩
      · exact h.unique f u u' hu hu'
      · exact absurd hu (hnone hin u)
    · rcases (huse f u').mp hu' with hu' | ⟨_, rfl⟩
      · exact absurd hu' (hnone hin u')
      · rfl
  · by_cases hin : a ≤ f ∧ f < a + n
    · exact ⟨v, (huse f v).mpr (Or.inr ⟨hin, rfl⟩)⟩
    · have hold : s.phys.isFree f = false := by
        rw [← Bool.not_eq_true] at hnf ⊢
        exact fun hf' => hnf ((hfree f).mpr ⟨hf', hin⟩)
      obtain ⟨u, hu⟩ := h.exact f (ht.total ▸ hf) hold
      exact ⟨u, (huse f u).mpr (Or.inl hu)⟩

/-- The frames `D` are given back, and with them their uses. -/
theorem FramesOk.gave (h : FramesOk B s) (hc : Counted s'.phys)
    (htotal : s'.phys.totalFrames = s.phys.totalFrames)
    (hfree : ∀ f, s'.phys.isFree f = true ↔ s.phys.isFree f = true ∨ D f)
    (hD : ∀ f, D f → f < s.phys.totalFrames) (huse : ∀ f u, Uses B s' f u ↔ Uses B s f u ∧ ¬ D f) :
    FramesOk B s' := by
  refine ⟨hc, htotal ▸ h.total_le, fun f hf => ?_, h.boot_zero, fun f u hu => ?_,
    fun f u u' hu hu' => ?_, fun f hf hnf => ?_⟩
  · rw [htotal]
    rcases (hfree f).mp hf with hf | hf
    · exact h.free_lt f hf
    · exact hD f hf
  · obtain ⟨hold, hnD⟩ := (huse f u).mp hu
    obtain ⟨h1, h2⟩ := h.used f u hold
    rw [htotal, ← Bool.not_eq_true, hfree]
    exact ⟨h1, by simp [h2, hnD]⟩
  · exact h.unique f u u' ((huse f u).mp hu).1 ((huse f u').mp hu').1
  · rw [← Bool.not_eq_true, hfree, not_or, Bool.not_eq_true] at hnf
    obtain ⟨u, hu⟩ := h.exact f (htotal ▸ hf) hnf.1
    exact ⟨u, (huse f u).mpr ⟨hu, hnf.2⟩⟩

/-- A frame of the memory is free if it has no use. -/
theorem FramesOk.isFree_iff (h : FramesOk B s) :
    s.phys.isFree f = true ↔ f < s.phys.totalFrames ∧ ∀ u, ¬ Uses B s f u := by
  constructor
  · intro hf
    refine ⟨h.free_lt f hf, fun u hu => ?_⟩
    rw [(h.used f u hu).2] at hf
    cases hf
  · rintro ⟨hlt, hnone⟩
    by_contra hused
    obtain ⟨u, hu⟩ := h.exact f hlt (by simpa using hused)
    exact hnone u hu

/-- The uses and the free frames are the same. -/
theorem FramesOk.congr (h : FramesOk B s) (hc : Counted s'.phys)
    (htotal : s'.phys.totalFrames = s.phys.totalFrames)
    (hfree : ∀ f, s'.phys.isFree f = s.phys.isFree f) (huse : ∀ f u, Uses B s' f u ↔ Uses B s f u) :
    FramesOk B s' :=
  h.gave (D := fun _ => False) hc htotal (fun f => by simp [hfree]) (fun _ hf => hf.elim)
    fun f u => by simp [huse]

end Frames

section Tables

variable {π : List ℕ}

theorem kid_congr (h : entry s' f i = entry s f i) : kid s' f i = kid s f i := by
  rw [kid, kid, h]

/-- The tables of `s` are where they were, with the same content. -/
structure SameTables (s s' : Xeret) : Prop where
  spaces : s'.spaces = s.spaces
  mem : ∀ r π t, TableFrame s r π t → s'.mem t = s.mem t

theorem SameTables.isRoot_iff (h : SameTables s s') : IsRoot s' r ↔ IsRoot s r := by
  rw [IsRoot, IsRoot, h.spaces]

theorem SameTables.walk_eq (h : SameTables s s') (hr : IsRoot s r) (hπ : UserPath π) :
    walk (kid s') r π = walk (kid s) r π :=
  walk_eq_of_agree userPath_prefixClosed hπ fun σ _ n hσ hn =>
    kid_congr (entry_congr (h.mem r σ n ⟨hr, hσ.init, hn⟩))

theorem SameTables.tableFrame_iff (h : SameTables s s') :
    TableFrame s' r π f ↔ TableFrame s r π f := by
  constructor
  · rintro ⟨hr, hπ, hw⟩
    rw [h.isRoot_iff] at hr
    exact ⟨hr, hπ, by rwa [h.walk_eq hr hπ] at hw⟩
  · rintro ⟨hr, hπ, hw⟩
    exact ⟨h.isRoot_iff.mpr hr, hπ, by rwa [h.walk_eq hr hπ]⟩

/-- With the same tables and the same token frames, all uses are the same. -/
theorem SameTables.uses_iff {u : FrameUse} (h : SameTables s s')
    (htok : ∀ k, TokenFrame s'.ledger k f ↔ TokenFrame s.ledger k f) :
    Uses B s' f u ↔ Uses B s f u := by
  cases u with
  | boot => rfl
  | token k => exact htok k
  | table r π => exact h.tableFrame_iff

theorem SameTables.pteAt_eq (h : SameTables s s') (hr : IsRoot s r) (hp : UserPage p) :
    pteAt s' r p = pteAt s r p := by
  rw [pteAt, pteAt, h.walk_eq hr (userPath_pathOf hp)]
  cases hw : walk (kid s) r (pathOf p) with
  | none => rw [Option.bind_none, Option.bind_none]
  | some t =>
    have hent : entry s' t (ptIndex p) = entry s t (ptIndex p) :=
      entry_congr (h.mem r _ t ⟨hr, userPath_pathOf hp, hw⟩)
    simp only [Option.bind_some, hent]

theorem SameTables.treesOk (h : SameTables s s') (ht : TreesOk s) : TreesOk s' := by
  refine ⟨?_, ?_, fun r π i t hr hπ hw hpres => ?_⟩
  · rw [h.spaces]; exact ht.space
  · rw [h.spaces]; exact ht.space_inj
  · rw [h.isRoot_iff] at hr
    have hpre := hπ.init
    rw [h.walk_eq hr hpre] at hw
    have hent : entry s' t i = entry s t i := entry_congr (h.mem r π t ⟨hr, hpre, hw⟩)
    rw [hent] at hpres ⊢
    exact ht.upper r π i t hr hπ hw hpres

theorem KernelOk.congr (h : KernelOk B s) (hpml4 : s'.pml4Phys = s.pml4Phys)
    (hmem : ∀ f, B f → s'.mem f = s.mem f) : KernelOk B s' := by
  obtain ⟨k, h1, h2, h3, h4⟩ := h
  refine ⟨k, hpml4.trans h1, h2, h3, fun i hi1 hi2 => ?_⟩
  rw [entry_congr (hmem k h2)]
  exact h4 i hi1 hi2

end Tables

end Xasmos.Kernel
