import Xasmos.Kernel.TableEdit

/-!
# The page table of the kernel

The kernel has one page table.  Entry 0 of its root is the identity map, in pages of 2 MiB;
entry 384 is the window for devices, in pages of 4 KiB; all other entries are absent.
`KernelTree` says that the tables are a tree of frames in use with links to tables.

`wp_nextLevel_kernel` says what one step down the tree can do: it finds a table, or it hangs a
fresh one into an empty entry, or no frame is free.  Neither changes the flat view `leafAt`;
that is changed by writes to the tables of the last level only.

## Main definitions

* `KernelPath`, `LastLevel` — the paths to the tables, and to those with pages.
* `KernelTree`, `KernelSlot`; `leafAt` — the entry of a page.
* `missing`, `Paid` — the tables that are not there, and what they cost.
-/

namespace Xasmos.Kernel

open Radix Prog

variable {P : Finset (List ℕ)} {c f i j r t t' v : ℕ} {s s' s'' : Xeret} {π σ : List ℕ}

/-- The paths to the tables of the kernel: two levels below entry 0 of the root, three below the
entry of the window. -/
structure KernelPath (π : List ℕ) : Prop where
  lt : ∀ i ∈ π, i < xptEnts
  head : ∀ i, π.head? = some i → i = 0 ∧ π.length ≤ 2 ∨ i = xptMmioPml4 ∧ π.length ≤ 3

/-- The entries of the table at this path are pages. -/
def LastLevel (π : List ℕ) : Prop :=
  π.head? = some 0 ∧ π.length = 2 ∨ π.head? = some xptMmioPml4 ∧ π.length = 3

theorem kernelPath_prefixClosed : PrefixClosed KernelPath := by
  intro π i h
  refine ⟨fun j hj => h.lt j (List.mem_append_left _ hj), fun j hj => ?_⟩
  have hhead : (π ++ [i]).head? = some j := by
    cases π with
    | nil => simp at hj
    | cons k ks => simpa using hj
  have hlen := h.head j hhead
  rw [List.length_append, List.length_singleton] at hlen
  omega

theorem KernelPath.init (h : KernelPath (π ++ [i])) : KernelPath π := kernelPath_prefixClosed π i h

theorem kernelPath_nil : KernelPath [] := ⟨by simp, by simp⟩

/-- A table of the last level is above no other. -/
theorem KernelPath.not_lastLevel (h : KernelPath (π ++ [i])) : ¬ LastLevel π := by
  have hhead : ∀ j, π.head? = some j → (π ++ [i]).head? = some j := by
    intro j hj
    cases π with
    | nil => simp at hj
    | cons k ks => simpa using hj
  have hne : xptMmioPml4 ≠ 0 := by decide
  rintro (⟨h1, h2⟩ | ⟨h1, h2⟩)
  · have hlen := h.head _ (hhead _ h1)
    rw [List.length_append, List.length_singleton] at hlen
    omega
  · have hlen := h.head _ (hhead _ h1)
    rw [List.length_append, List.length_singleton] at hlen
    omega

/-- The page table of the kernel, with the root in frame `r`. -/
structure KernelTree (s : Xeret) (r : ℕ) : Prop where
  counted : Counted s.phys
  total_le : s.phys.totalFrames ≤ bitmapMaxFrames
  zero : s.phys.isFree 0 = false
  used : ∀ π f, KernelPath π → walk (kid s) r π = some f → s.phys.isFree f = false
  unique : ∀ π π' f, KernelPath π → KernelPath π' → walk (kid s) r π = some f →
    walk (kid s) r π' = some f → π = π'
  upper : ∀ π i t, KernelPath (π ++ [i]) → walk (kid s) r π = some t →
    entry s t i &&& xptPresent ≠ 0 →
    ∃ c < 2 ^ 40, entry s t i = c * frameSize ||| xptKernelRw
  absent : ∀ i < xptEnts, i ≠ 0 → i ≠ xptMmioPml4 → entry s r i &&& xptPresent = 0
  lt : ∀ π f, KernelPath π → walk (kid s) r π = some f → f < s.phys.totalFrames

/-- The entry of page `j` of the table at `π`, if it is present. -/
def leafAt (s : Xeret) (r : ℕ) (π : List ℕ) (j : ℕ) : Option ℕ :=
  (walk (kid s) r π).bind
    fun t => if entry s t j &&& xptPresent = 0 then none else some (entry s t j)

theorem KernelTree.forest (h : KernelTree s r) : Forest (kid s) (· = r) KernelPath := by
  rintro _ _ π π' n rfl rfl hπ hπ' hn hn'
  exact ⟨rfl, h.unique π π' n hπ hπ' hn hn'⟩

/-! ## A new table -/

/-- What a new table is hung into: an empty entry of a table of the kernel. -/
structure KernelSlot (s : Xeret) (r t i c : ℕ) (π : List ℕ) (p : PhysBitmap) : Prop where
  tree : KernelTree s r
  path : KernelPath (π ++ [i])
  table : walk (kid s) r π = some t
  empty : entry s t i &&& xptPresent = 0
  pos : 0 < c
  took : TookRun s.phys c 1 p

section Hang

variable {p : PhysBitmap}

theorem KernelSlot.isFree (h : KernelSlot s r t i c π p) :
    s.phys.isFree c = true := h.took.run.2 c le_rfl (by omega)

theorem KernelSlot.lt (h : KernelSlot s r t i c π p) : c < 2 ^ 40 := by
  have h1 := h.took.run.1
  have h2 := h.tree.total_le
  rw [bitmapMaxFrames] at h2
  omega

/-- The new frame is no table yet. -/
theorem KernelSlot.fresh (h : KernelSlot s r t i c π p) (hσ : KernelPath σ) :
    walk (kid s) r σ ≠ some c := by
  intro hw
  have hused := h.tree.used σ c hσ hw
  rw [h.isFree] at hused
  cases hused

theorem KernelSlot.ne_of_walk (h : KernelSlot s r t i c π p) (hσ : KernelPath σ)
    (hw : walk (kid s) r σ = some f) : f ≠ c := by
  rintro rfl
  exact h.fresh hσ hw

theorem KernelSlot.ne (h : KernelSlot s r t i c π p) :
    c ≠ t := (h.ne_of_walk h.path.init h.table).symm

theorem KernelSlot.walk_none (h : KernelSlot s r t i c π p) : walk (kid s) r (π ++ [i]) = none := by
  rw [walk_snoc_of i h.table, kid, if_pos h.empty]

/-- The walks are those from before, and the one to the new table. -/
theorem KernelSlot.walk_eq (h : KernelSlot s r t i c π p) (hσ : KernelPath σ) :
    walk (kid (hang xptKernelRw c t i p s)) r σ =
      if σ = π ++ [i] then some c else walk (kid s) r σ := by
  have hgraft : (r = r ∧ σ = π ++ [i] → walk (kid (hang xptKernelRw c t i p s)) r σ = some c) ∧
      (¬ (r = r ∧ σ = π ++ [i]) → walk (kid (hang xptKernelRw c t i p s)) r σ =
        walk (kid s) r σ) := by
    refine h.tree.forest.walk_graft kernelPath_prefixClosed rfl h.path h.table ?_
      (fun _ σ hr hσ => hr ▸ h.fresh hσ)
      (kid_hang_self h.lt (by decide) (by decide) (by decide)) (kid_hang_new h.ne)
      (fun n j hn hnj => kid_congr (entry_hang_of_ne hn hnj)) rfl hσ
    rw [kid, if_pos h.empty]
  by_cases hnew : σ = π ++ [i]
  · rw [if_pos hnew]
    exact hgraft.1 ⟨rfl, hnew⟩
  · rw [if_neg hnew]
    exact hgraft.2 fun hno => hnew hno.2

/-- Where a table is after the new one was hung. -/
theorem KernelSlot.walk_cases (h : KernelSlot s r t i c π p) (hσ : KernelPath σ)
    (hw : walk (kid (hang xptKernelRw c t i p s)) r σ = some f) :
    σ = π ++ [i] ∧ f = c ∨ σ ≠ π ++ [i] ∧ walk (kid s) r σ = some f := by
  rw [h.walk_eq hσ] at hw
  by_cases hnew : σ = π ++ [i]
  · rw [if_pos hnew] at hw
    exact Or.inl ⟨hnew, (Option.some.inj hw).symm⟩
  · rw [if_neg hnew] at hw
    exact Or.inr ⟨hnew, hw⟩

theorem KernelSlot.upper (h : KernelSlot s r t i c π p) (hσ : KernelPath (σ ++ [j]))
    (hw : walk (kid (hang xptKernelRw c t i p s)) r σ = some t')
    (hpres : entry (hang xptKernelRw c t i p s) t' j &&& xptPresent ≠ 0) :
    ∃ d < 2 ^ 40, entry (hang xptKernelRw c t i p s) t' j = d * frameSize ||| xptKernelRw := by
  rcases h.walk_cases hσ.init hw with ⟨_, rfl⟩ | ⟨_, hold⟩
  · rw [entry_of_zero (mem_hang_new h.ne)] at hpres
    exact absurd (by simp) hpres
  · by_cases hslot : t' = t ∧ j = i
    · obtain ⟨rfl, rfl⟩ := hslot
      exact ⟨c, h.lt, entry_hang_self h.lt (by decide)⟩
    · rw [entry_hang_of_ne (h.ne_of_walk hσ.init hold) hslot] at hpres ⊢
      exact h.tree.upper σ j t' hσ hold hpres

/-- **A new table keeps the tree.** -/
theorem KernelSlot.kernelTree (h : KernelSlot s r t i c π p) :
    KernelTree (hang xptKernelRw c t i p s) r := by
  have hphys : (hang xptKernelRw c t i p s).phys = p := rfl
  have hfree : ∀ f, p.isFree f = (s.phys.isFree f && !decide (c ≤ f ∧ f < c + 1)) := h.took.isFree
  refine ⟨h.took.counted, ?_, ?_, fun σ f hσ hw => ?_, fun σ σ' f hσ hσ' hw hw' => ?_,
    fun σ j t' hσ hw hpres => h.upper hσ hw hpres, fun j hj h0 hm => ?_, fun σ f hσ hw => ?_⟩
  · rw [hphys, h.took.total]
    exact h.tree.total_le
  · rw [hphys, hfree, h.tree.zero, Bool.false_and]
  · rw [hphys, hfree]
    rcases h.walk_cases hσ hw with ⟨_, rfl⟩ | ⟨_, hold⟩
    · simp
    · rw [h.tree.used σ f hσ hold, Bool.false_and]
  · rcases h.walk_cases hσ hw with ⟨h1, rfl⟩ | ⟨_, hold⟩
    · rcases h.walk_cases hσ' hw' with ⟨h2, _⟩ | ⟨_, hold'⟩
      · rw [h1, h2]
      · exact absurd hold' (h.fresh hσ')
    · rcases h.walk_cases hσ' hw' with ⟨_, rfl⟩ | ⟨_, hold'⟩
      · exact absurd hold (h.fresh hσ)
      · exact h.tree.unique σ σ' f hσ hσ' hold hold'
  · -- an entry of the root that is written leads to the identity map or to the window
    have hne : ¬ (r = t ∧ j = i) := by
      rintro ⟨rfl, rfl⟩
      have hπ := h.tree.unique π [] r h.path.init kernelPath_nil h.table rfl
      subst hπ
      rcases h.path.head j rfl with h1 | h1
      · exact h0 h1.1
      · exact hm h1.1
    rw [entry_hang_of_ne (h.ne_of_walk kernelPath_nil rfl) hne]
    exact h.tree.absent j hj h0 hm
  · rw [hphys, h.took.total]
    rcases h.walk_cases hσ hw with ⟨_, rfl⟩ | ⟨_, hold⟩
    · exact h.took.run.1
    · exact h.tree.lt σ f hσ hold

/-- **A new table shows no page.** -/
theorem KernelSlot.leafAt_eq (h : KernelSlot s r t i c π p) (hσ : KernelPath σ)
    (hlast : LastLevel σ) (j : ℕ) : leafAt (hang xptKernelRw c t i p s) r σ j = leafAt s r σ j := by
  rw [leafAt, leafAt, h.walk_eq hσ]
  by_cases hnew : σ = π ++ [i]
  · rw [if_pos hnew, hnew, h.walk_none, Option.bind_none, Option.bind_some,
      entry_of_zero (mem_hang_new h.ne), if_pos (by simp)]
  · rw [if_neg hnew]
    cases hw : walk (kid s) r σ with
    | none => rw [Option.bind_none, Option.bind_none]
    | some t' =>
      have hne : t' ≠ t := by
        rintro rfl
        have heq := h.tree.unique σ π t' hσ h.path.init hw h.table
        exact h.path.not_lastLevel (heq ▸ hlast)
      have hent : entry (hang xptKernelRw c t i p s) t' j = entry s t' j :=
        entry_hang_of_ne (h.ne_of_walk hσ hw) fun hs => hne hs.1
      rw [Option.bind_some, Option.bind_some, hent]

end Hang

/-! ## The next level -/

section NextLevel

/-- What a step from the table at `π` to its entry `i` can do: the table in frame `f` is there, or
it is new. -/
def Stepped (s : Xeret) (r : ℕ) (π : List ℕ) (i f : ℕ) (s' : Xeret) : Prop :=
  walk (kid s) r (π ++ [i]) = some f ∧ s' = s ∨
    ∃ t p, KernelSlot s r t i f π p ∧ s' = hang xptKernelRw f t i p s

theorem Stepped.kernelTree (h : KernelTree s r) (hs : Stepped s r π i f s') : KernelTree s' r := by
  rcases hs with ⟨_, rfl⟩ | ⟨t, p, hslot, rfl⟩
  · exact h
  · exact hslot.kernelTree

theorem Stepped.walk_self (hs : Stepped s r π i f s') : walk (kid s') r (π ++ [i]) = some f := by
  rcases hs with ⟨hw, rfl⟩ | ⟨t, p, hslot, rfl⟩
  · exact hw
  · rw [hslot.walk_eq hslot.path, if_pos rfl]

theorem Stepped.walk_of_ne (hs : Stepped s r π i f s') (hσ : KernelPath σ) (hne : σ ≠ π ++ [i]) :
    walk (kid s') r σ = walk (kid s) r σ := by
  rcases hs with ⟨_, rfl⟩ | ⟨t, p, hslot, rfl⟩
  · rfl
  · rw [hslot.walk_eq hσ, if_neg hne]

theorem Stepped.leafAt_eq (hs : Stepped s r π i f s') (hσ : KernelPath σ) (hlast : LastLevel σ)
    (j : ℕ) : leafAt s' r σ j = leafAt s r σ j := by
  rcases hs with ⟨_, rfl⟩ | ⟨t, p, hslot, rfl⟩
  · rfl
  · exact hslot.leafAt_eq hσ hlast j

/-- **`next_level`** in the page table of the kernel. -/
theorem wp_nextLevel_kernel (h : KernelTree s r) (hπ : KernelPath (π ++ [i]))
    (ht : walk (kid s) r π = some t) :
    (nextLevel (t * frameSize) i xptKernelRw).wp
      (fun addr s' => ∃ f, addr = f * frameSize ∧ Stepped s r π i f s')
      (fun e s' => e = .nomem ∧ s' = s ∧ walk (kid s) r (π ++ [i]) = none ∧
        ∀ a, ¬ FreeRun s.phys 1 a) s := by
  have hdiv : t * frameSize / frameSize = t := Nat.mul_div_cancel t (by decide)
  simp only [nextLevel, wp_bind, wp_get, wp_ite, wp_pure, hdiv]
  constructor
  · intro hempty
    refine wp_mono (wp_allocZeroTable_counted h.counted h.zero) (fun addr s' _ hs => ?_)
      fun e s' _ he => ?_
    · obtain ⟨c, p, rfl, hpos, htook, rfl⟩ := hs
      exact ⟨c, rfl, Or.inr ⟨t, p, ⟨h, hπ, ht, hempty, hpos, htook⟩, rfl⟩⟩
    · refine ⟨he.1, he.2.1, ?_, he.2.2⟩
      rw [walk_snoc_of i ht, kid, if_pos hempty]
  · intro hpres
    obtain ⟨c, hc, hent⟩ := h.upper π i t hπ ht hpres
    have haddr : entry s t i &&& xptAddrMask = c * frameSize := by
      rw [hent, entry_addr hc (by decide)]
    refine ⟨c, haddr, Or.inl ⟨?_, rfl⟩⟩
    rw [walk_snoc_of i ht, kid, if_neg hpres, haddr, Nat.mul_div_cancel c (by decide)]

end NextLevel

/-! ## What the tables cost -/

/-- The tables of `P` that are not there. -/
def missing (s : Xeret) (r : ℕ) (P : Finset (List ℕ)) : ℕ :=
  (P.filter fun π => walk (kid s) r π = none).card

/-- Every frame that was taken from `s` to `s'` is a table of `P`. -/
def Paid (s : Xeret) (r : ℕ) (P : Finset (List ℕ)) (s' : Xeret) : Prop :=
  s'.phys.freeFrames + missing s r P = s.phys.freeFrames + missing s' r P

section Cost

theorem Paid.refl : Paid s r P s := rfl

theorem Paid.trans (h1 : Paid s r P s') (h2 : Paid s' r P s'') : Paid s r P s'' := by
  rw [Paid] at h1 h2 ⊢
  omega

/-- The frames fall short of the tables before iff they do after. -/
theorem Paid.short (h : Paid s r P s') (hs : s'.phys.freeFrames < missing s' r P) :
    s.phys.freeFrames < missing s r P := by
  rw [Paid] at h
  omega

theorem missing_pos (hmem : π ∈ P) (hw : walk (kid s) r π = none) : 0 < missing s r P :=
  Finset.card_pos.mpr ⟨π, Finset.mem_filter.mpr ⟨hmem, hw⟩⟩

/-- **A new table costs one frame.** -/
theorem Stepped.paid (hP : ∀ σ ∈ P, KernelPath σ) (hmem : π ++ [i] ∈ P)
    (hs : Stepped s r π i f s') : Paid s r P s' := by
  rcases hs with ⟨_, rfl⟩ | ⟨t, p, hslot, rfl⟩
  · exact Paid.refl
  · have hfree : p.freeFrames + 1 = s.phys.freeFrames := hslot.took.free_add hslot.tree.counted
    have hset : (P.filter fun σ => walk (kid s) r σ = none) =
        insert (π ++ [i]) (P.filter fun σ => walk (kid (hang xptKernelRw f t i p s)) r σ =
          none) := by
      ext σ
      simp only [Finset.mem_filter, Finset.mem_insert]
      by_cases hnew : σ = π ++ [i]
      · simp [hnew, hmem, hslot.walk_none]
      · simp only [hnew, false_or]
        refine and_congr_right fun hσ => ?_
        rw [hslot.walk_eq (hP σ hσ), if_neg hnew]
    have hcard : missing s r P = missing (hang xptKernelRw f t i p s) r P + 1 := by
      rw [missing, missing, hset, Finset.card_insert_of_notMem]
      simp [hslot.walk_eq hslot.path]
    rw [Paid, hcard]
    change p.freeFrames + _ = _
    omega

/-- **`next_level`** fails only if there are fewer free frames than missing tables. -/
theorem wp_nextLevel_paid (h : KernelTree s r) (hP : ∀ σ ∈ P, KernelPath σ) (hmem : π ++ [i] ∈ P)
    (ht : walk (kid s) r π = some t) :
    (nextLevel (t * frameSize) i xptKernelRw).wp
      (fun addr s' => ∃ f, addr = f * frameSize ∧ Stepped s r π i f s' ∧ Paid s r P s')
      (fun _ s' => s' = s ∧ s.phys.freeFrames < missing s r P) s := by
  refine wp_mono (wp_nextLevel_kernel h (hP _ hmem) ht) (fun addr s' _ hs => ?_) fun e s' _ he => ?_
  · obtain ⟨f, haddr, hstep⟩ := hs
    exact ⟨f, haddr, hstep, hstep.paid hP hmem⟩
  · obtain ⟨_, rfl, hnone, hno⟩ := he
    refine ⟨rfl, ?_⟩
    rw [h.counted.free_eq_zero hno]
    exact missing_pos hmem hnone

end Cost

/-! ## The entries of pages -/

section Leaf

theorem KernelTree.walk_setEntry (h : KernelTree s r) (hπ : KernelPath π) (hlast : LastLevel π)
    (ht : walk (kid s) r π = some t) (j v : ℕ) (hσ : KernelPath σ) :
    walk (kid (setEntry t j v s)) r σ = walk (kid s) r σ := by
  refine walk_eq_of_agree kernelPath_prefixClosed hσ fun ρ k n hρ hn => kid_congr
    (entry_setEntry_of_ne ?_)
  rintro ⟨rfl, _⟩
  exact hρ.not_lastLevel (h.unique ρ π n hρ.init hπ hn ht ▸ hlast)

/-- **A write to a table of the last level keeps the tree.** -/
theorem KernelTree.setLeaf (h : KernelTree s r) (hπ : KernelPath π) (hlast : LastLevel π)
    (ht : walk (kid s) r π = some t) (j v : ℕ) : KernelTree (setEntry t j v s) r := by
  have hwalk : ∀ {σ}, KernelPath σ → walk (kid (setEntry t j v s)) r σ = walk (kid s) r σ :=
    fun hσ => h.walk_setEntry hπ hlast ht j v hσ
  refine ⟨h.counted, h.total_le, h.zero, fun σ f hσ hw => ?_, fun σ σ' f hσ hσ' hw hw' => ?_,
    fun σ i n hσ hw hpres => ?_, fun i hi h0 hm => ?_, fun σ f hσ hw => h.lt σ f hσ (hwalk hσ ▸ hw)⟩
  · rw [hwalk hσ] at hw
    exact h.used σ f hσ hw
  · rw [hwalk hσ] at hw
    rw [hwalk hσ'] at hw'
    exact h.unique σ σ' f hσ hσ' hw hw'
  · rw [hwalk hσ.init] at hw
    have hne : ¬ (n = t ∧ i = j) := by
      rintro ⟨rfl, _⟩
      exact hσ.not_lastLevel (h.unique σ π n hσ.init hπ hw ht ▸ hlast)
    rw [entry_setEntry_of_ne hne] at hpres ⊢
    exact h.upper σ i n hσ hw hpres
  · have hne : ¬ (r = t ∧ i = j) := by
      rintro ⟨rfl, _⟩
      have hnil := h.unique [] π r kernelPath_nil hπ rfl ht
      subst hnil
      rcases hlast with hl | hl <;> simp at hl
    rw [entry_setEntry_of_ne hne]
    exact h.absent i hi h0 hm

theorem KernelTree.paid_setLeaf (h : KernelTree s r) (hP : ∀ σ ∈ P, KernelPath σ)
    (hπ : KernelPath π) (hlast : LastLevel π) (ht : walk (kid s) r π = some t) (j v : ℕ) :
    Paid s r P (setEntry t j v s) := by
  have hset : (P.filter fun σ => walk (kid (setEntry t j v s)) r σ = none) = P.filter fun σ =>
      walk (kid s) r σ = none := by
    ext σ
    simp only [Finset.mem_filter]
    refine and_congr_right fun hσ => ?_
    rw [h.walk_setEntry hπ hlast ht j v (hP σ hσ)]
  rw [Paid, missing, missing, hset]
  rfl

/-- **It changes one page.** -/
theorem KernelTree.leafAt_setEntry (h : KernelTree s r) (hπ : KernelPath π) (hlast : LastLevel π)
    (ht : walk (kid s) r π = some t) (hv : v < 2 ^ 64) (hpres : v &&& xptPresent ≠ 0)
    (hσ : KernelPath σ) (k : ℕ) :
    leafAt (setEntry t j v s) r σ k = if σ = π ∧ k = j then some v else leafAt s r σ k := by
  rw [leafAt, leafAt, h.walk_setEntry hπ hlast ht j v hσ]
  by_cases hsame : σ = π ∧ k = j
  · obtain ⟨rfl, rfl⟩ := hsame
    rw [if_pos ⟨rfl, rfl⟩, ht, Option.bind_some, entry_setEntry_self hv, if_neg hpres]
  · rw [if_neg hsame]
    cases hw : walk (kid s) r σ with
    | none => rw [Option.bind_none, Option.bind_none]
    | some t' =>
      have hent : entry (setEntry t j v s) t' k = entry s t' k := by
        refine entry_setEntry_of_ne fun heq => hsame ?_
        obtain ⟨rfl, hk⟩ := heq
        exact ⟨h.unique σ π t' hσ hπ hw ht, hk⟩
      rw [Option.bind_some, Option.bind_some, hent]

end Leaf

end Xasmos.Kernel
