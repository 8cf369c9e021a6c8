import Xasmos.Kernel.TokenSpecs

/-!
# Changes of the page tables

`nextLevel` hangs a fresh table into an empty entry, `mapPage` and `unmapPages` write
entries of the lowest tables.  None of them touches a frame of a token or a frame of the
kernel (`TableEdit`), and each is given by what it does to the flat view `pteAt`: a new table
changes nothing there, a write changes one page of one address space.

## Main results

* `wp_nextLevel`, `wp_mapPage`, `unmapPages_spec`.
-/

namespace Xasmos.Kernel

open Radix Prog

variable {B : ℕ → Prop} {b c f fl i j leaf n p q r r' t t' v : ℕ} {s s' s'' : Xeret} {u : FrameUse}
  {π π' σ : List ℕ}

/-- The entries of the roots that all address spaces share, those of the kernel, are the same. -/
def SameHalf (s s' : Xeret) : Prop := ∀ r i, IsRoot s r → ¬ (1 ≤ i ∧ i < xptKernelHalf) →
    entry s' r i = entry s r i

/-- Only tables of the address space with the root `r` have changed, and free frames that became
such tables. -/
structure TableEdit (B : ℕ → Prop) (s : Xeret) (r : ℕ) (s' : Xeret) : Prop where
  layout : Layout B s'
  ledger : s'.ledger = s.ledger
  maps : s'.maps = s.maps
  pml4Phys : s'.pml4Phys = s.pml4Phys
  quota : s'.quota = s.quota
  spaces : s'.spaces = s.spaces
  uses : ∀ f u, Uses B s f u → Uses B s' f u
  mem : ∀ f u, Uses B s f u → (∀ π, u ≠ .table r π) → s'.mem f = s.mem f
  half : SameHalf s s'

section Edit

theorem TableEdit.sameBoot (h : TableEdit B s r s') :
    SameBoot B s s' := fun f hf => h.mem f .boot hf fun _ => by simp

theorem TableEdit.refl (h : Layout B s) : TableEdit B s r s :=
  ⟨h, rfl, rfl, rfl, rfl, rfl, fun _ _ hu => hu, fun _ _ _ _ => rfl, fun _ _ _ _ => rfl⟩

theorem SameHalf.trans (h : SameHalf s s') (h' : SameHalf s' s'') (hspaces : s'.spaces = s.spaces) :
    SameHalf s s'' := by
  intro r i hr hi
  have hr' : IsRoot s' r := by rwa [IsRoot, hspaces]
  exact (h' r i hr' hi).trans (h r i hr hi)

theorem TableEdit.trans (h : TableEdit B s r s') (h' : TableEdit B s' r s'') :
    TableEdit B s r s'' :=
  ⟨h'.layout, h'.ledger.trans h.ledger, h'.maps.trans h.maps, h'.pml4Phys.trans h.pml4Phys,
    h'.quota.trans h.quota, h'.spaces.trans h.spaces, fun f u hu => h'.uses f u (h.uses f u hu),
    fun f u hu hne => (h'.mem f u (h.uses f u hu) hne).trans (h.mem f u hu hne),
      h.half.trans h'.half h.spaces⟩

theorem TableEdit.isRoot_iff (h : TableEdit B s r s') : IsRoot s' r' ↔ IsRoot s r' := by
  rw [IsRoot, IsRoot, h.spaces]

/-- If no frame was taken, there are no new uses. -/
theorem FramesOk.uses_of_phys (h : FramesOk B s) (h' : FramesOk B s') (hphys : s'.phys = s.phys)
    (huses : ∀ f u, Uses B s f u → Uses B s' f u) (hu : Uses B s' f u) : Uses B s f u := by
  obtain ⟨hlt, hfree⟩ := h'.used f u hu
  rw [hphys] at hlt hfree
  obtain ⟨v, hv⟩ := h.exact f hlt hfree
  rwa [h'.unique f u v hu (huses f v hv)]

theorem TableEdit.uses_iff (h : TableEdit B s r s') (hl : Layout B s) (hphys : s'.phys = s.phys)
    (f : ℕ) (u : FrameUse) : Uses B s' f u ↔ Uses B s f u :=
  ⟨hl.uses_of_phys h.layout.toFramesOk hphys h.uses, h.uses f u⟩

end Edit

/-- The flat views of the address spaces are the same. -/
def SamePages (s s' : Xeret) : Prop := ∀ r p, IsRoot s r → UserPage p → pteAt s' r p = pteAt s r p

/-! ## A new table -/

/-- The frame `c`, taken from the bitmap `p`, becomes the table in entry `i` of the table in `t`,
with the flags `fl`. -/
def hang (fl c t i : ℕ) (p : PhysBitmap) (s : Xeret) : Xeret :=
  setEntry t i (c * frameSize ||| fl) (zeroFrames (c * frameSize) 1 { s with phys := p })

section Hang

variable {p : PhysBitmap}

theorem mem_hang_new (hct : c ≠ t) : (hang fl c t i p s).mem c = fun _ => 0 := by
  have hdiv : c * frameSize / frameSize = c := Nat.mul_div_cancel c (by decide)
  rw [hang, mem_setEntry_of_ne hct]
  simp [zeroFrames, hdiv]

theorem mem_hang_of_ne (hfc : f ≠ c) (hft : f ≠ t) : (hang fl c t i p s).mem f = s.mem f := by
  have hdiv : c * frameSize / frameSize = c := Nat.mul_div_cancel c (by decide)
  have hno : ¬ (c ≤ f ∧ f < c + 1) := by omega
  rw [hang, mem_setEntry_of_ne hft]
  simp only [zeroFrames, hdiv, if_neg hno]

theorem entry_hang_self (hc : c < 2 ^ 40) (hfl : fl < 2 ^ 64) :
    entry (hang fl c t i p s) t i = c * frameSize ||| fl :=
  entry_setEntry_self (entry_lt hc hfl)

theorem entry_hang_of_ne (hfc : f ≠ c) (h : ¬ (f = t ∧ j = i)) :
    entry (hang fl c t i p s) f j = entry s f j := by
  have hdiv : c * frameSize / frameSize = c := Nat.mul_div_cancel c (by decide)
  have hno : ¬ (c ≤ f ∧ f < c + 1) := by omega
  rw [hang, entry_setEntry_of_ne h]
  refine entry_congr ?_
  simp only [zeroFrames, hdiv, if_neg hno]

theorem flag_present (c : ℕ) (hpres : fl &&& xptPresent ≠ 0) :
    (c * frameSize ||| fl) &&& xptPresent ≠ 0 := by
  rwa [entry_flag c fl (by decide)]

theorem kid_hang_self (hc : c < 2 ^ 40) (hfl : fl < 2 ^ 64) (hpres : fl &&& xptPresent ≠ 0)
    (haddr : fl &&& xptAddrMask = 0) : kid (hang fl c t i p s) t i = some c := by
  rw [kid, entry_hang_self hc hfl, if_neg (flag_present c hpres), entry_addr hc haddr,
    Nat.mul_div_cancel c (by decide)]

theorem kid_hang_new (hct : c ≠ t) (j : ℕ) : kid (hang fl c t i p s) c j = none := by
  rw [kid, entry_of_zero (mem_hang_new hct), if_pos (by simp)]

/-- What the new table is hung into: an empty entry of a table. -/
structure Slot (B : ℕ → Prop) (s : Xeret) (r t i c : ℕ) (π : List ℕ) (p : PhysBitmap) : Prop where
  layout : Layout B s
  root : IsRoot s r
  path : UserPath (π ++ [i])
  table : walk (kid s) r π = some t
  empty : entry s t i &&& xptPresent = 0
  took : TookRun s.phys c 1 p

theorem Slot.isFree (h : Slot B s r t i c π p) :
    s.phys.isFree c = true := h.took.run.2 c le_rfl (by omega)

theorem Slot.lt (h : Slot B s r t i c π p) : c < 2 ^ 40 :=
  lt_trans (h.layout.free_lt c h.isFree) h.layout.total_lt

theorem Slot.tableFrame (h : Slot B s r t i c π p) :
    TableFrame s r π t := ⟨h.root, h.path.init, h.table⟩

/-- The new frame has no use yet. -/
theorem Slot.ne_of_uses (h : Slot B s r t i c π p) (hu : Uses B s f u) : f ≠ c := by
  rintro rfl
  exact h.layout.not_uses h.isFree u hu

theorem Slot.ne (h : Slot B s r t i c π p) :
    c ≠ t := (h.ne_of_uses (u := .table r π) h.tableFrame).symm

theorem Slot.walk_eq (h : Slot B s r t i c π p) (hr' : IsRoot s r') (hπ' : UserPath π') :
    (r' = r ∧ π' = π ++ [i] → walk (kid (hang xptUpper c t i p s)) r' π' = some c) ∧
      (¬ (r' = r ∧ π' = π ++ [i]) → walk (kid (hang xptUpper c t i p s)) r' π' =
        walk (kid s) r' π') := by
  refine h.layout.forest.walk_graft userPath_prefixClosed h.root h.path h.table ?_
    (fun r π hr hπ hw => ?_)
    (kid_hang_self h.lt (by decide) (by decide) (by decide)) (kid_hang_new h.ne)
    (fun n j hn hnj => kid_congr (entry_hang_of_ne hn hnj)) hr' hπ'
  · rw [kid, if_pos h.empty]
  · exact h.ne_of_uses (u := .table r π) ⟨hr, hπ, hw⟩ rfl

theorem Slot.tableFrame_iff (h : Slot B s r t i c π p) :
    TableFrame (hang xptUpper c t i p s) r' π' f ↔ TableFrame s r' π' f ∨ f = c ∧ r' = r ∧
      π' = π ++ [i] := by
  have hold : walk (kid s) r (π ++ [i]) = none := by
    rw [walk_snoc_of i h.table, kid, if_pos h.empty]
  constructor
  · rintro ⟨hr', hπ', hw⟩
    by_cases hnew : r' = r ∧ π' = π ++ [i]
    · rw [(h.walk_eq hr' hπ').1 hnew] at hw
      exact Or.inr ⟨(Option.some.inj hw).symm, hnew⟩
    · rw [(h.walk_eq hr' hπ').2 hnew] at hw
      exact Or.inl ⟨hr', hπ', hw⟩
  · rintro (⟨hr', hπ', hw⟩ | ⟨rfl, rfl, rfl⟩)
    · refine ⟨hr', hπ', ?_⟩
      rw [(h.walk_eq hr' hπ').2, hw]
      rintro ⟨rfl, rfl⟩
      rw [hold] at hw
      exact absurd hw (by simp)
    · exact ⟨h.root, h.path, (h.walk_eq h.root h.path).1 ⟨rfl, rfl⟩⟩

theorem Slot.uses_iff (h : Slot B s r t i c π p) (f : ℕ) (u : FrameUse) :
    Uses B (hang xptUpper c t i p s) f u ↔ Uses B s f u ∨ (c ≤ f ∧ f < c + 1) ∧
      u = .table r (π ++ [i]) := by
  have hone : (c ≤ f ∧ f < c + 1) ↔ f = c := by omega
  rw [hone]
  cases u with
  | boot => simp [Uses]
  | token k => simp [Uses, hang, setEntry, zeroFrames]
  | table r' π' =>
    rw [Uses, Uses, h.tableFrame_iff]
    simp

theorem Slot.upper (h : Slot B s r t i c π p) (hr' : IsRoot s r') (hπ' : UserPath (π' ++ [j]))
    (hw : walk (kid (hang xptUpper c t i p s)) r' π' = some t')
    (hpres : entry (hang xptUpper c t i p s) t' j &&& xptPresent ≠ 0) :
    ∃ d < 2 ^ 40, entry (hang xptUpper c t i p s) t' j = d * frameSize ||| xptUpper := by
  have hpre := hπ'.init
  by_cases hnew : r' = r ∧ π' = π ++ [i]
  · rw [(h.walk_eq hr' hpre).1 hnew] at hw
    obtain rfl := Option.some.inj hw
    rw [entry_of_zero (mem_hang_new h.ne)] at hpres
    exact absurd (by simp) hpres
  · rw [(h.walk_eq hr' hpre).2 hnew] at hw
    by_cases hslot : t' = t ∧ j = i
    · obtain ⟨rfl, rfl⟩ := hslot
      exact ⟨c, h.lt, entry_hang_self h.lt (by decide)⟩
    · have hne := h.ne_of_uses (u := .table r' π') ⟨hr', hpre, hw⟩
      rw [entry_hang_of_ne hne hslot] at hpres ⊢
      exact h.layout.upper r' π' j t' hr' hπ' hw hpres

/-- A new table is not hung into an entry that is shared. -/
theorem Slot.sameHalf (h : Slot B s r t i c π p) : SameHalf s (hang xptUpper c t i p s) := by
  intro r' j hr' hj
  refine entry_hang_of_ne (h.ne_of_uses (u := .table r' []) ⟨hr', userPath_nil, rfl⟩) ?_
  rintro ⟨rfl, rfl⟩
  obtain ⟨_, rfl⟩ := h.layout.forest r' r [] π r' hr' h.root userPath_nil h.path.init rfl h.table
  exact hj (h.path.head j rfl)

/-- **A new table is a change of the tables.** -/
theorem Slot.tableEdit (h : Slot B s r t i c π p) : TableEdit B s r (hang xptUpper c t i p s) := by
  have hmem : ∀ f u, Uses B s f u → (∀ σ, u ≠ .table r σ) →
      (hang xptUpper c t i p s).mem f = s.mem f := by
    intro f u hu hne
    refine mem_hang_of_ne (h.ne_of_uses hu) ?_
    rintro rfl
    exact hne π (h.layout.unique f u (.table r π) hu h.tableFrame)
  exact ⟨⟨h.layout.toFramesOk.took h.took (.table r (π ++ [i])) h.uses_iff,
    ⟨h.layout.space, h.layout.space_inj, fun r' π' j t' hr' hπ' hw hpres =>
      h.upper hr' hπ' hw hpres⟩, h.layout.tokens,
    h.layout.kernel.congr rfl fun f hf => hmem f .boot hf (by simp)⟩, rfl, rfl, rfl, rfl, rfl,
    fun f u hu => (h.uses_iff f u).mpr (Or.inl hu), hmem, h.sameHalf⟩

/-- **A new table shows no page.** -/
theorem Slot.samePages (h : Slot B s r t i c π p) : SamePages s (hang xptUpper c t i p s) := by
  intro r' q hr' hq
  have hpath := userPath_pathOf hq
  have hold : walk (kid s) r (π ++ [i]) = none := by
    rw [walk_snoc_of i h.table, kid, if_pos h.empty]
  by_cases hnew : r' = r ∧ pathOf q = π ++ [i]
  · have hw := (h.walk_eq hr' hpath).1 hnew
    obtain ⟨rfl, heq⟩ := hnew
    rw [pteAt, pteAt, hw, heq, hold, Option.bind_none, Option.bind_some,
      entry_of_zero (mem_hang_new h.ne), if_pos (by simp)]
  · rw [pteAt, pteAt, (h.walk_eq hr' hpath).2 hnew]
    cases hw : walk (kid s) r' (pathOf q) with
    | none => rw [Option.bind_none, Option.bind_none]
    | some t' =>
      -- the table of a page is not an upper table
      have hne : t' ≠ t := by
        rintro rfl
        have heq := (h.layout.forest r' r _ π t' hr' h.root hpath h.path.init hw h.table).2
        have hlen := h.path.length_le
        rw [← heq] at hlen
        simp [pathOf] at hlen
      have hent : entry (hang xptUpper c t i p s) t' (ptIndex q) = entry s t' (ptIndex q) :=
        entry_hang_of_ne (h.ne_of_uses (u := .table r' _) ⟨hr', hpath, hw⟩) fun hs => hne hs.1
      rw [Option.bind_some, Option.bind_some, hent]

end Hang

/-! ## The next level -/

section NextLevel

/-- In `s'` the path `π` of the root `r` leads to the table in frame `f`; no page has changed. -/
structure Descended (B : ℕ → Prop) (s : Xeret) (r : ℕ) (π : List ℕ) (f : ℕ) (s' : Xeret) :
    Prop where
  edit : TableEdit B s r s'
  pages : SamePages s s'
  walk_eq : walk (kid s') r π = some f
  free : s.phys.freeFrames ≤ s'.phys.freeFrames + 1
  made : s' = s ∨ walk (kid s) r π = none ∧ s'.phys.freeFrames < s.phys.freeFrames

theorem wp_allocZeroTable_counted (hc : Counted s.phys) (h0 : s.phys.isFree 0 = false) :
    allocZeroTable.wp
      (fun addr s' => ∃ c p, addr = c * frameSize ∧ 0 < c ∧ TookRun s.phys c 1 p ∧
        s' = zeroFrames (c * frameSize) 1 { s with phys := p })
      (fun e s' => e = .nomem ∧ s' = s ∧ ∀ a, ¬ FreeRun s.phys 1 a) s := by
  simp only [allocZeroTable, wp_bind, wp_get, wp_modify, wp_failIf]
  rcases physAllocFrames_spec hc h0 Nat.one_pos with ⟨h1, h2, h3⟩ | ⟨c, hc, h1, h2, _⟩
  · rw [h1, h2]
    exact ⟨fun _ => ⟨trivial, rfl, h3⟩, fun hne => absurd rfl hne⟩
  · have hne : c * frameSize ≠ 0 := Nat.mul_ne_zero (by omega) (by decide)
    rw [h1]
    exact ⟨fun h0 => absurd h0 hne, fun _ => ⟨c, _, rfl, hc, h2, rfl⟩⟩

theorem wp_allocZeroTable (h : Layout B s) :
    allocZeroTable.wp
      (fun addr s' => ∃ c p, addr = c * frameSize ∧ 0 < c ∧ TookRun s.phys c 1 p ∧
        s' = zeroFrames (c * frameSize) 1 { s with phys := p })
      (fun e s' => e = .nomem ∧ s' = s ∧ s.phys.freeFrames = 0) s :=
  wp_mono (wp_allocZeroTable_counted h.counted h.isFree_zero) (fun _ _ _ hs => hs) fun _ _ _ he =>
    ⟨he.1, he.2.1, h.counted.free_eq_zero he.2.2⟩

/-- **`next_level`** in the user half of an address space. -/
theorem wp_nextLevel (h : Layout B s) (hr : IsRoot s r) (hπ : UserPath (π ++ [i]))
    (ht : walk (kid s) r π = some t) :
    (nextLevel (t * frameSize) i xptUpper).wp
      (fun addr s' => ∃ f, addr = f * frameSize ∧ Descended B s r (π ++ [i]) f s')
      (fun e s' => e = .nomem ∧ s' = s ∧ s.phys.freeFrames = 0 ∧ walk (kid s) r (π ++ [i]) = none)
        s := by
  have hdiv : t * frameSize / frameSize = t := Nat.mul_div_cancel t (by decide)
  simp only [nextLevel, wp_bind, wp_get, wp_ite, wp_pure, hdiv]
  constructor
  · intro habsent
    have hnone : walk (kid s) r (π ++ [i]) = none := by rw [walk_snoc_of i ht, kid, if_pos habsent]
    refine wp_mono (wp_allocZeroTable h) (fun addr s' _ hs => ?_) fun _ _ _ he =>
      ⟨he.1, he.2.1, he.2.2, hnone⟩
    obtain ⟨c, p, rfl, _, htook, rfl⟩ := hs
    have hslot : Slot B s r t i c π p := ⟨h, hr, hπ, ht, habsent, htook⟩
    have hcount := htook.free_add h.counted
    exact ⟨c, rfl, hslot.tableEdit, hslot.samePages, (hslot.walk_eq hr hπ).1 ⟨rfl, rfl⟩, hcount.ge,
      Or.inr ⟨hnone, Nat.lt_of_succ_le hcount.le⟩⟩
  · intro hpres
    obtain ⟨c, hc, hent⟩ := h.upper r π i t hr hπ ht hpres
    have haddr : entry s t i &&& xptAddrMask = c * frameSize := by
      rw [hent, entry_addr hc (by decide)]
    refine ⟨c, haddr, TableEdit.refl h, fun _ _ _ _ => rfl, ?_, Nat.le_succ _, Or.inl rfl⟩
    rw [walk_snoc_of i ht, kid, if_neg hpres, haddr, Nat.mul_div_cancel c (by decide)]

/-- Tables on the path `π` were made, or none was missing. -/
def Grown (s : Xeret) (r : ℕ) (π : List ℕ) (s' : Xeret) : Prop :=
  s' = s ∨ walk (kid s) r π = none ∧ s'.phys.freeFrames < s.phys.freeFrames

theorem walk_snoc_none (h : walk (kid s) r π = none) (i : ℕ) :
    walk (kid s) r (π ++ [i]) = none := by
  rw [walk_snoc, h, Option.bind_none]

theorem Grown.missing (h : Grown s r π s') (hnone : walk (kid s') r (π ++ [i]) = none) :
    walk (kid s) r (π ++ [i]) = none := by
  rcases h with rfl | ⟨hπ, -⟩
  · exact hnone
  · exact walk_snoc_none hπ i

theorem Grown.phys (h : Grown s r π s') :
    s'.phys = s.phys ∨ s'.phys.freeFrames < s.phys.freeFrames :=
      h.imp (congrArg Xeret.phys) And.right

theorem Grown.down (h : Grown s r π s') (hd : Descended B s' r (π ++ [i]) f s'') :
    Grown s r (π ++ [i]) s'' := by
  rcases hd.made with rfl | ⟨hnone, hless⟩
  · rcases h with rfl | ⟨hπ, hless⟩
    · exact Or.inl rfl
    · exact Or.inr ⟨walk_snoc_none hπ i, hless⟩
  · refine Or.inr ⟨h.missing hnone, ?_⟩
    rcases h with rfl | ⟨-, hless'⟩
    · exact hless
    · exact hless.trans hless'

end NextLevel

/-! ## The entries of pages -/

/-- Page `p` of the address space with the root `r` has its tables. -/
def TablesFor (s : Xeret) (r p : ℕ) : Prop := walk (kid s) r (pathOf p) ≠ none

section Leaf

/-- The page table of a page. -/
structure Leaf (B : ℕ → Prop) (s : Xeret) (r p t : ℕ) : Prop where
  layout : Layout B s
  root : IsRoot s r
  page : UserPage p
  table : walk (kid s) r (pathOf p) = some t

theorem Leaf.tableFrame (h : Leaf B s r p t) :
    TableFrame s r (pathOf p) t := ⟨h.root, userPath_pathOf h.page, h.table⟩

/-- The table of a page is met on no way to a table. -/
theorem Leaf.ne_upper (h : Leaf B s r p t) (hr' : IsRoot s r') (hσ : UserPath (σ ++ [j]))
    (hn : walk (kid s) r' σ = some n) : n ≠ t := by
  rintro rfl
  have heq := (h.layout.forest r' r σ _ n hr' h.root hσ.init (userPath_pathOf h.page) hn h.table).2
  have hlen := hσ.length_le
  rw [heq] at hlen
  simp [pathOf] at hlen

theorem Leaf.walk_eq (h : Leaf B s r p t) (i v : ℕ) (hr' : IsRoot s r') (hπ : UserPath π) :
    walk (kid (setEntry t i v s)) r' π = walk (kid s) r' π :=
  walk_eq_of_agree userPath_prefixClosed hπ fun _ _ _ hσ hn =>
    kid_congr (entry_setEntry_of_ne fun heq => h.ne_upper hr' hσ hn heq.1)

theorem Leaf.uses_iff (h : Leaf B s r p t) (i v : ℕ) (f : ℕ) (u : FrameUse) :
    Uses B (setEntry t i v s) f u ↔ Uses B s f u := by
  cases u with
  | boot | token k => rfl
  | table r' π =>
    constructor
    · rintro ⟨hr', hπ, hw⟩
      exact ⟨hr', hπ, by rwa [h.walk_eq i v hr' hπ] at hw⟩
    · rintro ⟨hr', hπ, hw⟩
      exact ⟨hr', hπ, by rwa [h.walk_eq i v hr' hπ]⟩

/-- The table of a page is no root. -/
theorem Leaf.sameHalf (h : Leaf B s r p t) (i v : ℕ) : SameHalf s (setEntry t i v s) := by
  intro r' j hr' _
  refine entry_setEntry_of_ne ?_
  rintro ⟨rfl, _⟩
  have heq := (h.layout.forest r' r [] _ r' hr' h.root userPath_nil
    (userPath_pathOf h.page) rfl h.table).2
  simp [pathOf] at heq

/-- **A write to the table of a page is a change of the tables.** -/
theorem Leaf.tableEdit (h : Leaf B s r p t) (i v : ℕ) : TableEdit B s r (setEntry t i v s) := by
  have hmem : ∀ f u, Uses B s f u → (∀ σ, u ≠ .table r σ) → (setEntry t i v s).mem f = s.mem f := by
    intro f u hu hne
    refine mem_setEntry_of_ne ?_
    rintro rfl
    exact hne _ (h.layout.unique f u (.table r (pathOf p)) hu h.tableFrame)
  refine ⟨⟨h.layout.toFramesOk.congr h.layout.counted rfl (fun _ => rfl) (h.uses_iff i v),
    ⟨h.layout.space, h.layout.space_inj, fun r' π j t' hr' hπ hw hpres => ?_⟩, h.layout.tokens,
    h.layout.kernel.congr rfl fun f hf => hmem f .boot hf (by simp)⟩,
    rfl, rfl, rfl, rfl, rfl, fun f u hu => (h.uses_iff i v f u).mpr hu, hmem, h.sameHalf i v⟩
  rw [h.walk_eq i v hr' hπ.init] at hw
  have hent : entry (setEntry t i v s) t' j = entry s t' j :=
    entry_setEntry_of_ne fun heq => h.ne_upper hr' hπ hw heq.1
  rw [hent] at hpres ⊢
  exact h.layout.upper r' π j t' hr' hπ hw hpres

/-- **It changes one page of one address space.** -/
theorem Leaf.pteAt_eq (h : Leaf B s r p t) (hv : v < 2 ^ 64) (hr' : IsRoot s r') (hq : UserPage q) :
    pteAt (setEntry t (ptIndex p) v s) r' q =
      if r' = r ∧ q = p then (if v &&& xptPresent = 0 then none else some v) else pteAt s r' q := by
  rw [pteAt, pteAt, h.walk_eq _ v hr' (userPath_pathOf hq)]
  by_cases hsame : r' = r ∧ q = p
  · obtain ⟨rfl, rfl⟩ := hsame
    rw [if_pos ⟨rfl, rfl⟩, h.table, Option.bind_some, entry_setEntry_self hv]
  · rw [if_neg hsame]
    cases hw : walk (kid s) r' (pathOf q) with
    | none => rw [Option.bind_none, Option.bind_none]
    | some t' =>
      have hent : entry (setEntry t (ptIndex p) v s) t' (ptIndex q) = entry s t' (ptIndex q) := by
        refine entry_setEntry_of_ne fun heq => hsame ?_
        obtain ⟨rfl, hidx⟩ := heq
        obtain ⟨h1, h2⟩ := h.layout.forest r' r _ _ t' hr' h.root (userPath_pathOf hq)
          (userPath_pathOf h.page) hw h.table
        exact ⟨h1, page_inj hq h.page h2 hidx⟩
      rw [Option.bind_some, Option.bind_some, hent]

end Leaf

/-! ## Mapping and unmapping pages -/

section Pages

theorem SamePages.trans (h : SamePages s s') (h' : SamePages s' s'')
    (hroot : ∀ r, IsRoot s r → IsRoot s' r) :
    SamePages s s'' := fun r p hr hp => (h' r p (hroot r hr) hp).trans (h r p hr hp)

/-- In `s'` page `p` of the address space with the root `r` has the entry `e`; no other page has
changed. -/
structure SetPage (B : ℕ → Prop) (s : Xeret) (r p : ℕ) (e : Option ℕ) (s' : Xeret) : Prop where
  edit : TableEdit B s r s'
  pteAt_eq : ∀ r' q, IsRoot s r' → UserPage q →
    pteAt s' r' q = if r' = r ∧ q = p then e else pteAt s r' q

theorem userPath_pathOf_take (hp : UserPage p) : UserPath [pml4Index p] ∧
    UserPath [pml4Index p, pdptIndex p] := by
  have h := userPath_pathOf hp
  have h2 : UserPath [pml4Index p, pdptIndex p] :=
    UserPath.init (i := pdIndex p) h
  exact ⟨UserPath.init (i := pdptIndex p) h2, h2⟩

theorem tablesFor_of_pteAt (h : pteAt s r p ≠ none) : TablesFor s r p := by
  intro hnone
  rw [pteAt, hnone, Option.bind_none] at h
  exact h rfl

/-- **`map_page`** sets an absent page; if it fails no page has changed.  Frames are taken exactly
where tables were missing. -/
theorem wp_mapPage (h : Layout B s) (hr : IsRoot s r) (hp : UserPage p) (hb : b < 2 ^ 40)
    (hpres : leaf &&& xptPresent ≠ 0) (hleaf : leaf < 2 ^ 64) :
    (mapPage (r * frameSize) (p * frameSize) (b * frameSize) leaf).wp
      (fun _ s' => pteAt s r p = none ∧ SetPage B s r p (some (b * frameSize ||| leaf)) s' ∧
        s.phys.freeFrames ≤ s'.phys.freeFrames + 3 ∧ (TablesFor s r p ∧ s'.phys = s.phys ∨
          ¬ TablesFor s r p ∧ s'.phys.freeFrames < s.phys.freeFrames))
      (fun _ s' => (s.phys.freeFrames < 3 ∧ ¬ TablesFor s r p ∧ s'.phys.freeFrames = 0 ∧
          (s'.phys = s.phys ∨ s'.phys.freeFrames < s.phys.freeFrames) ∨
        pteAt s r p ≠ none ∧ s'.phys = s.phys) ∧ TableEdit B s r s' ∧ SamePages s s') s := by
  obtain ⟨hp1, hp2⟩ := userPath_pathOf_take hp
  have hp3 := userPath_pathOf hp
  simp only [mapPage, wp_bind, index_39, index_30, index_21, index_12]
  have hmissing : ∀ {t : Xeret} {π : List ℕ} {i : ℕ} (ρ : List ℕ), π ++ [i] ++ ρ = pathOf p →
    Grown s r π t →
      walk (kid t) r (π ++ [i]) = none → ¬ TablesFor s r p := by
    intro t π i ρ hpath hg hnone
    rw [TablesFor, ← hpath, walk_append, hg.missing hnone, Option.bind_none]
    exact not_not.mpr rfl
  refine wp_mono (wp_nextLevel (π := []) h hr hp1 rfl) (fun a1 s1 _ hd1 => ?_) (fun e s1 _ he => ?_)
  swap
  · obtain ⟨rfl, rfl, h0, hnone⟩ := he
    exact ⟨Or.inl ⟨by omega, hmissing _ rfl (Or.inl rfl) hnone, h0, Or.inl rfl⟩, TableEdit.refl h,
      fun _ _ _ _ => rfl⟩
  obtain ⟨f1, rfl, hd1⟩ := hd1
  have hr1 := hd1.edit.isRoot_iff.mpr hr
  have hg1 : Grown s r [pml4Index p] s1 := Grown.down (π := []) (Or.inl rfl) hd1
  rw [wp_bind]
  refine wp_mono (wp_nextLevel (π := [pml4Index p]) hd1.edit.layout hr1 hp2 hd1.walk_eq)
    (fun a2 s2 _ hd2 => ?_) (fun e s2 _ he => ?_)
  swap
  · obtain ⟨rfl, rfl, h0, hnone⟩ := he
    have hf1 := hd1.free
    exact ⟨Or.inl ⟨by omega, hmissing _ rfl hg1 hnone, h0, hg1.phys⟩, hd1.edit, hd1.pages⟩
  obtain ⟨f2, rfl, hd2⟩ := hd2
  have he2 := hd1.edit.trans hd2.edit
  have hs2 := hd1.pages.trans hd2.pages fun _ => hd1.edit.isRoot_iff.mpr
  have hr2 := he2.isRoot_iff.mpr hr
  have hg2 := hg1.down hd2
  rw [wp_bind]
  refine wp_mono (wp_nextLevel (π := [pml4Index p, pdptIndex p]) he2.layout hr2 hp3 hd2.walk_eq)
    (fun a3 s3 _ hd3 => ?_) (fun e s3 _ he => ?_)
  swap
  · obtain ⟨rfl, rfl, h0, hnone⟩ := he
    have hf1 := hd1.free
    have hf2 := hd2.free
    exact ⟨Or.inl ⟨by omega, hmissing [] rfl hg2 hnone, h0, hg2.phys⟩, he2, hs2⟩
  obtain ⟨f3, rfl, hd3⟩ := hd3
  have he3 := he2.trans hd3.edit
  have hs3 := hs2.trans hd3.pages fun _ => he2.isRoot_iff.mpr
  have hr3 := he3.isRoot_iff.mpr hr
  have hg3 : Grown s r (pathOf p) s3 := hg2.down hd3
  have hlf : Leaf B s3 r p f3 := ⟨he3.layout, hr3, hp, hd3.walk_eq⟩
  have hdiv : f3 * frameSize / frameSize = f3 := Nat.mul_div_cancel f3 (by decide)
  simp only [wp_bind, wp_get, wp_failIf, wp_modify, hdiv, frame_and_addrMask hb]
  have hfree : s.phys.freeFrames ≤ s3.phys.freeFrames + 3 := by
    have hf1 := hd1.free
    have hf2 := hd2.free
    have hf3 := hd3.free
    omega
  refine ⟨fun hpresent => ⟨Or.inr ?_, he3, hs3⟩,
    fun habsent => ⟨?_, ⟨he3.trans (hlf.tableEdit _ _), fun r' q hr' hq => ?_⟩, hfree, ?_⟩⟩
  · have hpte : pteAt s r p ≠ none := by
      rw [← hs3 r p hr hp, pteAt, hlf.table, Option.bind_some, if_neg hpresent]
      exact Option.some_ne_none _
    refine ⟨hpte, ?_⟩
    rcases hg3 with rfl | ⟨hnone, -⟩
    · rfl
    · exact absurd hnone (tablesFor_of_pteAt hpte)
  · rw [← hs3 r p hr hp, pteAt, hlf.table, Option.bind_some, if_pos (not_not.mp habsent)]
  · have hpresent : (b * frameSize ||| leaf) &&& xptPresent ≠ 0 := by
      rwa [entry_flag b leaf (by decide)]
    rw [hlf.pteAt_eq (entry_lt hb hleaf) (he3.isRoot_iff.mpr hr') hq, if_neg hpresent,
      hs3 r' q hr' hq]
  · rcases hg3 with rfl | ⟨hnone, hless⟩
    · refine Or.inl ⟨?_, rfl⟩
      rw [TablesFor, hlf.table]
      exact Option.some_ne_none _
    · exact Or.inr ⟨not_not.mpr hnone, hless⟩

/-- Where no frame was taken the same pages have their tables. -/
theorem TableEdit.tablesFor_iff (h : TableEdit B s r s') (hl : Layout B s)
    (hphys : s'.phys = s.phys) (hr : IsRoot s r) (hp : UserPage p) :
    TablesFor s' r p ↔ TablesFor s r p := by
  have hframe : ∀ f, walk (kid s') r (pathOf p) = some f ↔
      walk (kid s) r (pathOf p) = some f := fun f =>
    ⟨fun hw => TableFrame.walk_eq ((h.uses_iff hl hphys f (.table r (pathOf p))).mp
        ⟨h.isRoot_iff.mpr hr, userPath_pathOf hp, hw⟩),
      fun hw => TableFrame.walk_eq (h.uses f (.table r (pathOf p)) ⟨hr, userPath_pathOf hp, hw⟩)⟩
  simp only [TablesFor, Option.ne_none_iff_exists', hframe]

/-- `walk_pte` finds the table of a page. -/
theorem walkPte_eq (h : TreesOk s) (hr : IsRoot s r) (hp : UserPage p) :
    walkPte s (r * frameSize) (p * frameSize) = (walk (kid s) r (pathOf p)).map fun t =>
      (t, ptIndex p) := by
  obtain ⟨hp1, hp2⟩ := userPath_pathOf_take hp
  have hp3 := userPath_pathOf hp
  have hdiv : r * frameSize / frameSize = r := Nat.mul_div_cancel r (by decide)
  simp only [walkPte, index_39, index_30, index_21, index_12, hdiv, pathOf, walk]
  by_cases h1 : entry s r (pml4Index p) &&& xptPresent = 0
  · simp [kid, h1]
  have hk1 : kid s r (pml4Index p) = some ((entry s r (pml4Index p) &&& xptAddrMask) / frameSize) :=
    if_neg h1
  rw [if_neg h1, hk1, Option.bind_some]
  generalize (entry s r (pml4Index p) &&& xptAddrMask) / frameSize = t1 at hk1 ⊢
  have hw1 : walk (kid s) r [pml4Index p] = some t1 := by simp [walk, hk1]
  by_cases h2 : entry s t1 (pdptIndex p) &&& xptPresent = 0
  · simp [kid, h2]
  have hk2 : kid s t1 (pdptIndex p) =
    some ((entry s t1 (pdptIndex p) &&& xptAddrMask) / frameSize) := if_neg h2
  rw [if_neg h2, hk2, Option.bind_some]
  generalize (entry s t1 (pdptIndex p) &&& xptAddrMask) / frameSize = t2 at hk2 ⊢
  have hw2 : walk (kid s) r [pml4Index p, pdptIndex p] = some t2 := by simp [walk, hk1, hk2]
  by_cases h3 : entry s t2 (pdIndex p) &&& xptPresent = 0
  · simp [kid, h3]
  -- an entry of the user half is never a huge page
  obtain ⟨c, _, hent⟩ := h.upper r [pml4Index p, pdptIndex p] (pdIndex p) t2 hr hp3 hw2 h3
  have hhuge : entry s t2 (pdIndex p) &&& xptHuge = 0 := by
    rw [hent, entry_flag c xptUpper (by decide)]
    decide
  have hk3 : kid s t2 (pdIndex p) = some ((entry s t2 (pdIndex p) &&& xptAddrMask) / frameSize) :=
    if_neg h3
  rw [if_neg (by simp [h3, hhuge]), hk3]
  rfl

/-- **One turn of `unmap_pages`** makes a page absent. -/
theorem unmapPage_spec (h : Layout B s) (hr : IsRoot s r) (hp : UserPage p) :
    SetPage B s r p none (unmapPage (r * frameSize) (p * frameSize) s) := by
  rw [unmapPage, walkPte_eq h.toTreesOk hr hp]
  -- nothing is written if the page is absent
  have hkeep : pteAt s r p = none → SetPage B s r p none s := by
    intro hnone
    refine ⟨TableEdit.refl h, fun r' q hr' hq => ?_⟩
    by_cases hsame : r' = r ∧ q = p
    · rw [if_pos hsame, hsame.1, hsame.2, hnone]
    · rw [if_neg hsame]
  cases hw : walk (kid s) r (pathOf p) with
  | none =>
    rw [Option.map_none]
    exact hkeep (by rw [pteAt, hw, Option.bind_none])
  | some t =>
    rw [Option.map_some]
    simp only
    by_cases hpres : entry s t (ptIndex p) &&& xptPresent ≠ 0
    · rw [if_pos hpres]
      have hlf : Leaf B s r p t := ⟨h, hr, hp, hw⟩
      refine ⟨hlf.tableEdit _ 0, fun r' q hr' hq => ?_⟩
      rw [hlf.pteAt_eq (by decide) hr' hq, Nat.zero_and]
      simp
    · rw [if_neg hpres]
      exact hkeep (by rw [pteAt, hw, Option.bind_some, if_pos (not_not.mp hpres)])

/-- In `s'` the pages `p`, …, `p + n - 1` of the address space with the root `r` are absent; no
other page has changed. -/
structure Unmapped (B : ℕ → Prop) (s : Xeret) (r p n : ℕ) (s' : Xeret) : Prop where
  edit : TableEdit B s r s'
  pteAt_eq : ∀ r' q, IsRoot s r' → UserPage q →
    pteAt s' r' q = if r' = r ∧ p ≤ q ∧ q < p + n then none else pteAt s r' q

/-- **`unmap_pages`.** -/
theorem unmapPages_spec (h : Layout B s) (hr : IsRoot s r) (hp : ∀ i < n, UserPage (p + i)) :
    Unmapped B s r p n (unmapPages (r * frameSize) (p * frameSize) n s) := by
  refine loop_induct (fun k t => Unmapped B s r p k t) (Nat.zero_le n)
    ⟨TableEdit.refl h, fun r' q _ _ => ?_⟩
    fun k t _ hk ht => ?_
  · rw [if_neg (by omega)]
  · rw [← Nat.add_mul]
    have hone := unmapPage_spec ht.edit.layout (ht.edit.isRoot_iff.mpr hr) (hp k hk)
    refine ⟨ht.edit.trans hone.edit, fun r' q hr' hq => ?_⟩
    rw [hone.pteAt_eq r' q (ht.edit.isRoot_iff.mpr hr') hq, ht.pteAt_eq r' q hr' hq]
    by_cases hin : r' = r ∧ p ≤ q ∧ q < p + (k + 1)
    · rw [if_pos hin]
      by_cases hk' : r' = r ∧ q = p + k
      · rw [if_pos hk']
      · rw [if_neg hk', if_pos (by omega)]
    · rw [if_neg hin, if_neg (by omega), if_neg (by omega)]

end Pages

end Xasmos.Kernel
