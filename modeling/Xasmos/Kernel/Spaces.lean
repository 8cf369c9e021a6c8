import Xasmos.Kernel.UserMap

/-!
# Address spaces that come and go

`xas_create` makes a root whose user half is empty, `xas_destroy` drops the mappings of
an address space and frees its tables, level by level.

## Main results

* `wp_xasCreate` — one frame is taken, and it is a root without pages.
* `xasDestroy_spec` — the frames that become free are the tables of the address space.
-/

namespace Xasmos.Kernel

open Radix Prog
open Function (update update_self update_of_ne)

variable {B D D' D'' : ℕ → Prop} {a c f g hi i lo r r' : ℕ} {as : XAspace} {owner : OwnerId}
  {p q q' : PhysBitmap} {s s' t : Xeret} {π : List ℕ}

/-! ## Creating -/

/-- In `s'` the address space `a` is new: its root is frame `c`, and it maps nothing. -/
structure Created (B : ℕ → Prop) (s : Xeret) (a : ℕ) (owner : OwnerId) (c : ℕ) (s' : Xeret) :
    Prop where
  inv : KInv B s'
  owner_ne : owner ≠ ownerKernel
  took : TookRun s.phys c 1 s'.phys
  ledger : s'.ledger = s.ledger
  maps : s'.maps = s.maps
  pml4Phys : s'.pml4Phys = s.pml4Phys
  quota : s'.quota = s.quota
  spaces : s'.spaces = update s.spaces a ⟨c * frameSize, owner, true⟩
  mem : ∀ f, f ≠ c → s'.mem f = s.mem f
  uses : ∀ f u, Uses B s' f u ↔ Uses B s f u ∨ (c ≤ f ∧ f < c + 1) ∧ u = .table c []
  kept : ∀ r q, IsRoot s r → UserPage q → pteAt s' r q = pteAt s r q

theorem Created.sameBoot (h : Created B s a owner c s') (hs : FramesOk B s) : SameBoot B s s' := by
  intro f hf
  refine h.mem f fun hfc => ?_
  have hused := (hs.used f .boot hf).2
  rw [hfc, h.took.run.2 c le_rfl (by omega)] at hused
  cases hused

/-- The state while the root `c` is filled: its user half is empty. -/
structure NewRoot (s : Xeret) (c : ℕ) (p : PhysBitmap) (t : Xeret) : Prop where
  phys : t.phys = p
  ledger : t.ledger = s.ledger
  maps : t.maps = s.maps
  pml4Phys : t.pml4Phys = s.pml4Phys
  quota : t.quota = s.quota
  spaces : t.spaces = s.spaces
  mem : ∀ f, f ≠ c → t.mem f = s.mem f
  user : ∀ i, 1 ≤ i → i < xptKernelHalf → entry t c i = 0

section Create

theorem NewRoot.fresh : NewRoot s c p (zeroFrames (c * frameSize) 1 { s with phys := p }) := by
  have hdiv : c * frameSize / frameSize = c := Nat.mul_div_cancel c (by decide)
  refine ⟨rfl, rfl, rfl, rfl, rfl, rfl, fun f hf => ?_, fun i _ _ => entry_of_zero ?_⟩
  · have hno : ¬ (c ≤ f ∧ f < c + 1) := by omega
    simp only [zeroFrames, hdiv, if_neg hno]
  · simp [zeroFrames, hdiv]

/-- The entries that are copied are not in the user half. -/
theorem NewRoot.setEntry (h : NewRoot s c p t) (hi : ¬ (1 ≤ i ∧ i < xptKernelHalf)) (v : ℕ) :
    NewRoot s c p (setEntry c i v t) := by
  refine ⟨h.phys, h.ledger, h.maps, h.pml4Phys, h.quota, h.spaces, fun f hf => ?_,
    fun j hj1 hj2 => ?_⟩
  · rw [mem_setEntry_of_ne hf, h.mem f hf]
  · rw [entry_setEntry_of_ne (by rintro ⟨_, rfl⟩; exact hi ⟨hj1, hj2⟩), h.user j hj1 hj2]

/-- The address space `a`, which is not in use, gets the root `c`. -/
def openSpace (a : ℕ) (as : XAspace) (t : Xeret) : Xeret :=
  { t with spaces := update t.spaces a as }

/-- What the new root is made in. -/
structure Opening (B : ℕ → Prop) (s : Xeret) (a c : ℕ) (p : PhysBitmap) (t : Xeret) : Prop where
  inv : KInv B s
  dead : (s.spaces a).live = false
  took : TookRun s.phys c 1 p
  root : NewRoot s c p t

theorem Opening.isFree (h : Opening B s a c p t) :
    s.phys.isFree c = true := h.took.run.2 c le_rfl (by omega)

theorem Opening.ne_of_uses (h : Opening B s a c p t) {u : FrameUse} (hu : Uses B s f u) :
    f ≠ c := by
  rintro rfl
  exact h.inv.not_uses h.isFree u hu

theorem Opening.isRoot_ne (h : Opening B s a c p t) (hr : IsRoot s r) : r ≠ c :=
  h.ne_of_uses (u := .table r []) ⟨hr, userPath_nil, rfl⟩

theorem Opening.isRoot_iff (h : Opening B s a c p t) :
    IsRoot (openSpace a ⟨c * frameSize, owner, true⟩ t) r ↔ IsRoot s r ∨ r = c := by
  have hpos : 0 < frameSize := by decide
  simp only [IsRoot, openSpace, h.root.spaces]
  constructor
  · rintro ⟨b, h1, h2⟩
    by_cases hb : b = a
    · subst hb
      rw [update_self] at h2
      exact Or.inr (Nat.eq_of_mul_eq_mul_right hpos h2.symm)
    · rw [update_of_ne hb] at h1 h2
      exact Or.inl ⟨b, h1, h2⟩
  · rintro (⟨b, h1, h2⟩ | rfl)
    · have hb : b ≠ a := by
        rintro rfl
        rw [h.dead] at h1
        exact absurd h1 (by simp)
      exact ⟨b, by rw [update_of_ne hb]; exact h1, by rw [update_of_ne hb]; exact h2⟩
    · exact ⟨a, by rw [update_self], by rw [update_self]⟩

/-- The user half of the new root leads nowhere. -/
theorem Opening.walk_new (h : Opening B s a c p t) (hπ : UserPath π) (hne : π ≠ []) :
    walk (kid (openSpace a as t)) c π = none := by
  cases π with
  | nil => exact absurd rfl hne
  | cons i is =>
    obtain ⟨h1, h2⟩ := hπ.head i rfl
    have hent : entry (openSpace a as t) c i = 0 := h.root.user i h1 h2
    rw [walk, kid, hent, if_pos (Nat.zero_and _), Option.bind_none]

theorem Opening.walk_old (h : Opening B s a c p t) (hr : IsRoot s r) (hπ : UserPath π) :
    walk (kid (openSpace a as t)) r π = walk (kid s) r π :=
  walk_eq_of_agree userPath_prefixClosed hπ fun σ _ n hσ hn =>
    kid_congr (entry_congr (h.root.mem n (h.ne_of_uses (u := .table r σ) ⟨hr, hσ.init, hn⟩)))

theorem Opening.tableFrame_iff (h : Opening B s a c p t) :
    TableFrame (openSpace a ⟨c * frameSize, owner, true⟩ t) r π f ↔ TableFrame s r π f ∨ f = c ∧
      r = c ∧ π = [] := by
  constructor
  · rintro ⟨hr, hπ, hw⟩
    rcases h.isRoot_iff.mp hr with hr | rfl
    · rw [h.walk_old hr hπ] at hw
      exact Or.inl ⟨hr, hπ, hw⟩
    · by_cases hne : π = []
      · subst hne
        exact Or.inr ⟨(Option.some.inj hw).symm, rfl, rfl⟩
      · rw [h.walk_new hπ hne] at hw
        exact absurd hw (by simp)
  · rintro (⟨hr, hπ, hw⟩ | ⟨rfl, rfl, rfl⟩)
    · exact ⟨h.isRoot_iff.mpr (Or.inl hr), hπ, by rwa [h.walk_old hr hπ]⟩
    · exact ⟨h.isRoot_iff.mpr (Or.inr rfl), userPath_nil, rfl⟩

theorem Opening.uses_iff (h : Opening B s a c p t) (f : ℕ) (u : FrameUse) :
    Uses B (openSpace a ⟨c * frameSize, owner, true⟩ t) f u ↔ Uses B s f u ∨ (c ≤ f ∧ f < c + 1) ∧
      u = .table c [] := by
  have hone : (c ≤ f ∧ f < c + 1) ↔ f = c := by omega
  rw [hone]
  cases u with
  | boot => simp [Uses]
  | token k => simp [Uses, openSpace, h.root.ledger]
  | table r' π' =>
    rw [Uses, Uses, h.tableFrame_iff]
    simp

theorem Opening.pteAt_old (h : Opening B s a c p t) {q : ℕ} (hr : IsRoot s r) (hq : UserPage q) :
    pteAt (openSpace a as t) r q = pteAt s r q := by
  rw [pteAt, pteAt, h.walk_old hr (userPath_pathOf hq)]
  cases hw : walk (kid s) r (pathOf q) with
  | none => rw [Option.bind_none, Option.bind_none]
  | some n =>
    have hent : entry (openSpace a as t) n (ptIndex q) = entry s n (ptIndex q) :=
      entry_congr (h.root.mem n (h.ne_of_uses (u := .table r _) ⟨hr, userPath_pathOf hq, hw⟩))
    rw [Option.bind_some, Option.bind_some, hent]

/-- The trees with the new root. -/
theorem Opening.treesOk (h : Opening B s a c p t) (howner : owner ≠ ownerKernel) :
    TreesOk (openSpace a ⟨c * frameSize, owner, true⟩ t) := by
  have hspaces : (openSpace a ⟨c * frameSize, owner, true⟩ t).spaces = update s.spaces a
      ⟨c * frameSize, owner, true⟩ := by
    rw [openSpace, h.root.spaces]
  -- no address space in use has the new root
  have hne : ∀ b, b ≠ a → (s.spaces b).live = true → (s.spaces b).pml4Phys ≠ c * frameSize :=
    fun b _ hb heq => h.isRoot_ne ⟨b, hb, heq⟩ rfl
  refine ⟨fun b hb => ?_, fun b b' hb hb' heq => ?_, fun r π i n hr hπ hw hpres => ?_⟩
  · rw [hspaces] at hb ⊢
    by_cases hba : b = a
    · subst hba
      rw [update_self]
      exact ⟨⟨c, rfl⟩, howner⟩
    · rw [update_of_ne hba] at hb ⊢
      exact h.inv.space b hb
  · rw [hspaces] at hb hb' heq
    by_cases hba : b = a
    · by_cases hba' : b' = a
      · rw [hba, hba']
      · subst hba
        rw [update_of_ne hba'] at hb' heq
        rw [update_self] at heq
        exact absurd heq.symm (hne b' hba' hb')
    · rw [update_of_ne hba] at hb heq
      by_cases hba' : b' = a
      · subst hba'
        rw [update_self] at heq
        exact absurd heq (hne b hba hb)
      · rw [update_of_ne hba'] at hb' heq
        exact h.inv.space_inj b b' hb hb' heq
  · rcases h.isRoot_iff.mp hr with hr | rfl
    · rw [h.walk_old hr hπ.init] at hw
      have hent : entry (openSpace a ⟨c * frameSize, owner, true⟩ t) n i = entry s n i :=
        entry_congr (h.root.mem n (h.ne_of_uses (u := .table r π) ⟨hr, hπ.init, hw⟩))
      rw [hent] at hpres ⊢
      exact h.inv.upper r π i n hr hπ hw hpres
    · by_cases hnil : π = []
      · subst hnil
        obtain rfl := Option.some.inj hw
        obtain ⟨h1, h2⟩ := hπ.head i rfl
        have hent : entry (openSpace a ⟨r * frameSize, owner, true⟩ t) r i = 0 :=
          h.root.user i h1 h2
        rw [hent] at hpres
        exact absurd (Nat.zero_and _) hpres
      · rw [h.walk_new hπ.init hnil] at hw
        exact absurd hw (by simp)

/-- **The state with the new address space.** -/
theorem Opening.created (h : Opening B s a c p t) (howner : owner ≠ ownerKernel) :
    Created B s a owner c (openSpace a ⟨c * frameSize, owner, true⟩ t) := by
  have hframes : FramesOk B (openSpace a ⟨c * frameSize, owner, true⟩ t) :=
    h.inv.toFramesOk.took (by rw [openSpace, h.root.phys]; exact h.took) (.table c []) h.uses_iff
  have hkernel : KernelOk B (openSpace a ⟨c * frameSize, owner, true⟩ t) :=
    h.inv.kernel.congr h.root.pml4Phys fun f hf => h.root.mem f (h.ne_of_uses (u := .boot) hf)
  have htokens : TokensOk (openSpace a ⟨c * frameSize, owner, true⟩ t).ledger := by
    rw [openSpace, h.root.ledger]
    exact h.inv.tokens
  have hmapped : MapsOk (openSpace a ⟨c * frameSize, owner, true⟩ t) := by
    refine h.inv.mapped.move h.root.maps (fun i b _ hb _ => ?_)
      (fun i r q _ _ hr hq => h.pteAt_old hr hq)
      (fun r q e hr hq he => ?_) (fun i k _ hk => ?_) fun k tok hk => ?_
    · have hba : b ≠ a := by
        rintro rfl
        rw [h.dead] at hb
        exact absurd hb (by simp)
      rw [openSpace, h.root.spaces]
      exact update_of_ne hba _ _
    · rcases h.isRoot_iff.mp hr with hr | rfl
      · rw [h.pteAt_old hr hq] at he
        exact ⟨hr, he⟩
      · rw [pteAt, h.walk_new (userPath_pathOf hq) (by simp [pathOf]), Option.bind_none] at he
        exact absurd he (by simp)
    · rw [openSpace, h.root.ledger]
      exact ⟨hk, rfl⟩
    · rw [openSpace, h.root.ledger] at hk ⊢
      exact h.inv.mapped.count k tok hk
  exact ⟨⟨⟨hframes, h.treesOk howner, htokens, hkernel⟩, hmapped⟩,
    howner, by rw [openSpace, h.root.phys]; exact h.took,
    h.root.ledger, h.root.maps, h.root.pml4Phys,
    h.root.quota, by rw [openSpace, h.root.spaces], h.root.mem, h.uses_iff,
    fun r q hr hq => h.pteAt_old hr hq⟩

/-- **`xas_create`** in an `XAspace` that is not in use. -/
theorem wp_xasCreate (h : KInv B s) (hdead : (s.spaces a).live = false) (owner : OwnerId) :
    (xasCreate a owner).wp (fun _ s' => ∃ c, Created B s a owner c s')
      (fun _ s' => s' = s ∧ (owner = ownerKernel ∨ s.phys.freeFrames = 0)) s := by
  obtain ⟨k, hk, hboot, hk0, hempty⟩ := h.kernel
  have hkdiv : s.pml4Phys / frameSize = k := by
    rw [hk]
    exact Nat.mul_div_cancel k (by decide)
  simp only [xasCreate, wp_bind, wp_get, wp_failIf]
  have hpml4 : s.pml4Phys ≠ 0 := by
    rw [hk]
    exact Nat.mul_ne_zero hk0 (by decide)
  refine ⟨fun harg => ⟨trivial, Or.inl (harg.resolve_left hpml4)⟩, fun hargs => ?_⟩
  refine wp_mono (wp_allocZeroTable h.toLayout) (fun addr s1 _ hs => ?_) fun e s1 _ he =>
    ⟨he.2.1, Or.inr he.2.2⟩
  obtain ⟨c, p, rfl, _, htook, rfl⟩ := hs
  have hopen : Opening B s a c p (zeroFrames (c * frameSize) 1 { s with phys := p }) :=
    ⟨h, hdead, htook, NewRoot.fresh⟩
  have hcdiv : c * frameSize / frameSize = c := Nat.mul_div_cancel c (by decide)
  have hkc : k ≠ c := hopen.ne_of_uses (u := .boot) hboot
  simp only [wp_bind, wp_get, wp_ite, hcdiv]
  refine ⟨fun hany => ?_, fun _ => ?_⟩
  · -- the map of the kernel has nothing there
    obtain ⟨i, hi, hpres⟩ := List.any_eq_true.mp hany
    obtain ⟨h1, h2⟩ := List.mem_range'_1.mp hi
    have hent : entry (zeroFrames (c * frameSize) 1 { s with phys := p }) k i = entry s k i :=
      entry_congr (hopen.root.mem k hkc)
    have hkdiv' : (zeroFrames (c * frameSize) 1 { s with phys := p }).pml4Phys / frameSize =
      k := hkdiv
    rw [hkdiv', hent] at hpres
    exact absurd (hempty i h1 (by rw [xptKernelHalf] at *; omega)) (by simpa using hpres)
  · simp only [wp_bind, wp_modify]
    refine wp_mono (wp_iterate (E := fun _ _ => False) (fun _ _ t => NewRoot s c p t)
      (hopen.root.setEntry (by omega) _) fun n _ t _ ht => ?_) (fun _ t _ ht => ?_) fun _ _ _ hf =>
        hf.elim
    · simp only [wp_bind, wp_get, wp_modify]
      exact ht.setEntry (by omega) _
    · exact ⟨c, (Opening.mk h hdead htook ht).created fun ho => hargs (Or.inr ho)⟩

end Create

/-! ## Freeing the tables -/

/-- `q` is `p` with the frames `D` free. -/
structure Gave (p : PhysBitmap) (D : ℕ → Prop) (q : PhysBitmap) : Prop where
  total : q.totalFrames = p.totalFrames
  isFree : ∀ g, q.isFree g = true ↔ p.isFree g = true ∨ D g
  counted : Counted q

/-- Frame `g` is a table below the path `π`. -/
def Below (s : Xeret) (r : ℕ) (π : List ℕ) (g : ℕ) : Prop := ∃ i σ, TableFrame s r (π ++ i :: σ) g

section Free

theorem Gave.nothing (hc : Counted p) (hD : ∀ g, ¬ D g) : Gave p D p :=
  ⟨rfl, fun g => by simp [hD g], hc⟩

theorem Gave.free (h : Gave p D q) (hc : c < p.totalFrames) (hmax : p.totalFrames < 2 ^ 40)
    (hD : ∀ g, D' g ↔ D g ∨ g = c) : Gave p D' (physFreeFrames (c * frameSize) 1 q) := by
  have hg := physFreeFrames_spec (a := c) h.counted Nat.one_pos (by rw [h.total]; omega)
    (by rw [h.total]; omega)
  refine ⟨hg.total.trans h.total, fun g => ?_, hg.counted⟩
  have hone : (c ≤ g ∧ g < c + 1) ↔ g = c := by omega
  rw [hg.isFree, Bool.or_eq_true, decide_eq_true_iff, h.isFree, hone, hD, or_assoc]

theorem Gave.trans (h : Gave p D q) (h' : Gave q D' q') (hD : ∀ g, D'' g ↔ D g ∨ D' g) :
    Gave p D'' q' :=
  ⟨h'.total.trans h.total, fun g => by rw [h'.isFree, h.isFree, hD, or_assoc], h'.counted⟩

/-- A table below a path is the next table, or below it. -/
theorem below_iff (hf : walk (kid s) r π = some f) (hr : IsRoot s r) :
    Below s r π g ↔ ∃ i c, UserPath (π ++ [i]) ∧ kid s f i = some c ∧
      (Below s r (π ++ [i]) g ∨ g = c) := by
  constructor
  · rintro ⟨i, σ, _, hπ, hw⟩
    have hpre : UserPath (π ++ [i]) := userPath_prefixClosed.of_prefix ⟨σ, by simp⟩ hπ
    rw [List.append_cons, walk_append, walk_snoc_of i hf] at hw
    cases hc : kid s f i with
    | none =>
      rw [hc, Option.bind_none] at hw
      exact absurd hw (by simp)
    | some c =>
      refine ⟨i, c, hpre, hc, ?_⟩
      rw [hc, Option.bind_some] at hw
      cases σ with
      | nil => exact Or.inr (Option.some.inj hw).symm
      | cons j σ =>
        refine Or.inl ⟨j, σ, hr, by rwa [List.append_cons] at hπ, ?_⟩
        rw [walk_append, walk_snoc_of i hf, hc, Option.bind_some]
        exact hw
  · rintro ⟨i, c, hpre, hc, ⟨j, σ, ht⟩ | rfl⟩
    · exact ⟨i, j :: σ, by rwa [List.append_cons]⟩
    · exact ⟨i, [], hr, hpre, by rw [walk_snoc_of i hf, hc]⟩

/-- **One level of `xas_destroy`.**  If each table of the level hands back what is below it, the
level hands back what is below the path. -/
theorem freeTables_spec (h : Layout B s) (hr : IsRoot s r) (hf : walk (kid s) r π = some f)
    (hlo : ∀ i, UserPath (π ++ [i]) ↔ lo ≤ i ∧ i < hi) (hle : lo ≤ hi) (hc : Counted p)
    (htotal : p.totalFrames = s.phys.totalFrames) {each : ℕ → PhysBitmap → PhysBitmap}
    (heach : ∀ i c q, UserPath (π ++ [i]) → walk (kid s) r (π ++ [i]) = some c → Counted q →
      q.totalFrames = s.phys.totalFrames →
      Gave q (Below s r (π ++ [i])) (each c q)) :
    Gave p (Below s r π) (freeTables s f lo hi each p) := by
  have hmax := h.total_lt
  have hloop := loop_induct (s := p) (f := fun i p =>
      if isPresent (entry s f i) then
        physFreeFrames (entry s f i &&& xptAddrMask) 1 (each
          ((entry s f i &&& xptAddrMask) / frameSize) p)
      else p)
    (fun n q => Gave p (fun g => ∃ i c, (lo ≤ i ∧ i < n) ∧ kid s f i = some c ∧
      (Below s r (π ++ [i]) g ∨ g = c)) q) hle
    (Gave.nothing hc fun g hg => ?_) fun n q hn1 hn2 hq => ?_
  · refine ⟨hloop.total, fun g => ?_, hloop.counted⟩
    rw [below_iff hf hr]
    simp only [hlo]
    exact hloop.isFree g
  · obtain ⟨i, c, hi, _⟩ := hg
    omega
  · have hpath : UserPath (π ++ [n]) := (hlo n).mpr ⟨hn1, hn2⟩
    by_cases hpres : entry s f n &&& xptPresent = 0
    · have hkid : kid s f n = none := if_pos hpres
      rw [if_neg (by simp [isPresent, hpres])]
      refine ⟨hq.total, fun g => ?_, hq.counted⟩
      rw [hq.isFree]
      refine or_congr_right ⟨?_, ?_⟩
      · rintro ⟨i, c, hi, hrest⟩
        exact ⟨i, c, ⟨hi.1, by omega⟩, hrest⟩
      · rintro ⟨i, c, hi, hkc, hrest⟩
        have hin : i ≠ n := by
          rintro rfl
          rw [hkid] at hkc
          exact absurd hkc (by simp)
        exact ⟨i, c, ⟨hi.1, by omega⟩, hkc, hrest⟩
    · obtain ⟨c, hc40, hent⟩ := h.upper r π n f hr hpath hf hpres
      have haddr : entry s f n &&& xptAddrMask = c * frameSize := by
        rw [hent, entry_addr hc40 (by decide)]
      have hdiv : c * frameSize / frameSize = c := Nat.mul_div_cancel c (by decide)
      have hkid : kid s f n = some c := by rw [kid, if_neg hpres, haddr, hdiv]
      have hwalk : walk (kid s) r (π ++ [n]) = some c := by rw [walk_snoc_of n hf, hkid]
      have hlt : c < p.totalFrames := by
        rw [htotal]
        exact (h.used c (.table r (π ++ [n])) ⟨hr, hpath, hwalk⟩).1
      rw [if_pos (by simp [isPresent, hpres]), haddr, hdiv]
      have hsub := hq.trans (heach n c q hpath hwalk hq.counted (hq.total.trans htotal))
        fun _ => Iff.rfl
      refine hsub.free hlt (by omega) fun g => ?_
      constructor
      · rintro ⟨i, c', hi, hkc, hrest⟩
        by_cases hin : i = n
        · subst hin
          rw [hkid] at hkc
          obtain rfl := Option.some.inj hkc
          rcases hrest with hb | rfl
          · exact Or.inl (Or.inr hb)
          · exact Or.inr rfl
        · exact Or.inl (Or.inl ⟨i, c', ⟨hi.1, by omega⟩, hkc, hrest⟩)
      · rintro ((⟨i, c', hi, hrest⟩ | hb) | rfl)
        · exact ⟨i, c', ⟨hi.1, by omega⟩, hrest⟩
        · exact ⟨n, c, ⟨hn1, by omega⟩, hkid, Or.inl hb⟩
        · exact ⟨n, g, ⟨hn1, by omega⟩, hkid, Or.inr rfl⟩

theorem userPath_root_iff (i : ℕ) : UserPath ([] ++ [i]) ↔ 1 ≤ i ∧ i < xptKernelHalf := by
  constructor
  · intro h
    exact h.head i rfl
  · rintro ⟨h1, h2⟩
    refine ⟨by simp, fun j hj => ?_, fun j hj => ?_⟩
    · obtain rfl := List.mem_singleton.mp hj
      exact lt_trans h2 (by decide)
    · obtain rfl : i = j := by simpa using hj
      exact ⟨h1, h2⟩

theorem userPath_snoc_iff (hπ : UserPath π) (hne : π ≠ []) (hlen : π.length < 3) (i : ℕ) :
    UserPath (π ++ [i]) ↔ 0 ≤ i ∧ i < xptEnts := by
  constructor
  · intro h
    exact ⟨Nat.zero_le i, h.lt i (by simp)⟩
  · rintro ⟨_, hi⟩
    refine ⟨?_, fun j hj => ?_, fun j hj => hπ.head j ?_⟩
    · rw [List.length_append, List.length_singleton]
      omega
    · rcases List.mem_append.mp hj with hj | hj
      · exact hπ.lt j hj
      · obtain rfl := List.mem_singleton.mp hj
        exact hi
    · rwa [List.head?_append_of_ne_nil _ hne] at hj

theorem not_below (hlen : π.length = 3) (g : ℕ) : ¬ Below s r π g := by
  rintro ⟨i, σ, _, hπ, _⟩
  have h3 := hπ.length_le
  rw [List.length_append, List.length_cons, hlen] at h3
  omega

/-- **The tables that `xas_destroy` frees**: all of the address space, the root last. -/
theorem freeAll_spec (h : Layout B s) (hr : IsRoot s r) :
    Gave s.phys (fun g => ∃ π, TableFrame s r π g)
      (physFreeFrames (r * frameSize) 1 (freeTables s r 1 xptKernelHalf
      (fun pdpt => freeTables s pdpt 0 xptEnts (fun pd => freeTables s pd 0 xptEnts fun _ p => p))
        s.phys)) := by
  have hlevel : Gave s.phys (Below s r []) (freeTables s r 1 xptKernelHalf
      (fun pdpt => freeTables s pdpt 0 xptEnts (fun pd => freeTables s pd 0 xptEnts fun _ p => p))
      s.phys) := by
    refine freeTables_spec h hr rfl userPath_root_iff (by decide) h.counted rfl
      fun i c q hi hw hq ht => ?_
    refine freeTables_spec h hr hw (userPath_snoc_iff hi (by simp) (by simp)) (by decide) hq ht
      fun j d q' hj hw' hq' ht' => ?_
    refine freeTables_spec h hr hw' (userPath_snoc_iff hj (by simp) (by simp)) (by decide) hq' ht'
      fun k e q'' hk _ hq'' _ => ?_
    exact Gave.nothing hq'' (not_below (by simp))
  refine hlevel.free (h.used r (.table r []) ⟨hr, userPath_nil, rfl⟩).1 h.total_lt fun g => ?_
  constructor
  · rintro ⟨π, ht⟩
    cases π with
    | nil => exact Or.inr (Option.some.inj ht.walk_eq).symm
    | cons i σ => exact Or.inl ⟨i, σ, ht⟩
  · rintro (⟨i, σ, ht⟩ | rfl)
    · exact ⟨_, ht⟩
    · exact ⟨[], hr, userPath_nil, rfl⟩

end Free

/-! ## Destroying -/

/-- In `s'` the address space `a` is gone, with its mappings and its tables; its root was `r`. -/
structure Destroyed (B : ℕ → Prop) (s : Xeret) (a r : ℕ) (s' : Xeret) : Prop where
  inv : KInv B s'
  total : s'.phys.totalFrames = s.phys.totalFrames
  isFree : ∀ f, s'.phys.isFree f = true ↔ s.phys.isFree f = true ∨ ∃ π, TableFrame s r π f
  dead : ∀ i, LiveRec s i → (s.maps i).asPml4 = r * frameSize →
    s'.maps i = { s.maps i with live := false }
  other : ∀ i, ¬ (LiveRec s i ∧ (s.maps i).asPml4 = r * frameSize) → s'.maps i = s.maps i
  tokens : SameTokens s.ledger s'.ledger
  pml4Phys : s'.pml4Phys = s.pml4Phys
  quota : s'.quota = s.quota
  spaces : s'.spaces = update s.spaces a { s.spaces a with live := false }
  uses : ∀ f u, Uses B s' f u ↔ Uses B s f u ∧ ∀ π, u ≠ .table r π
  mem : ∀ f u, Uses B s f u → (∀ π, u ≠ .table r π) → s'.mem f = s.mem f
  kept : ∀ r' q, IsRoot s r' → r' ≠ r → UserPage q → pteAt s' r' q = pteAt s r' q

section Destroy

/-- The address space `a` is closed, with the frames of `q` free. -/
def closeSpace (a : ℕ) (q : PhysBitmap) (s : Xeret) : Xeret :=
  { s with phys := q, spaces := update s.spaces a { s.spaces a with live := false } }

theorem isRoot_closeSpace (h : TreesOk s) (hlive : (s.spaces a).live = true)
    (hroot : (s.spaces a).pml4Phys = r * frameSize) :
    IsRoot (closeSpace a q s) r' ↔ IsRoot s r' ∧ r' ≠ r := by
  have hpos : 0 < frameSize := by decide
  simp only [IsRoot, closeSpace]
  constructor
  · rintro ⟨b, h1, h2⟩
    have hb : b ≠ a := by
      rintro rfl
      rw [update_self] at h1
      exact absurd h1 (by simp)
    rw [update_of_ne hb] at h1 h2
    refine ⟨⟨b, h1, h2⟩, ?_⟩
    rintro rfl
    exact hb (h.space_inj b a h1 hlive (h2.trans hroot.symm))
  · rintro ⟨⟨b, h1, h2⟩, hne⟩
    have hb : b ≠ a := by
      rintro rfl
      exact hne (Nat.eq_of_mul_eq_mul_right hpos (h2.symm.trans hroot))
    exact ⟨b, by rw [update_of_ne hb]; exact h1, by rw [update_of_ne hb]; exact h2⟩

theorem uses_closeSpace (h : TreesOk s) (hlive : (s.spaces a).live = true)
    (hroot : (s.spaces a).pml4Phys = r * frameSize) (f : ℕ) (u : FrameUse) :
    Uses B (closeSpace a q s) f u ↔ Uses B s f u ∧ ∀ π, u ≠ .table r π := by
  cases u with
  | boot => simp [Uses]
  | token k => simp [Uses, closeSpace]
  | table r' π =>
    constructor
    · rintro ⟨hr', hπ, hw⟩
      obtain ⟨hr', hne⟩ := (isRoot_closeSpace h hlive hroot).mp hr'
      exact ⟨⟨hr', hπ, hw⟩, by simp [hne]⟩
    · rintro ⟨⟨hr', hπ, hw⟩, hne⟩
      refine ⟨(isRoot_closeSpace h hlive hroot).mpr ⟨hr', ?_⟩, hπ, hw⟩
      rintro rfl
      exact hne π rfl

/-- Closing an address space without records. -/
theorem KInv.close (h : KInv B s) (hlive : (s.spaces a).live = true)
    (hroot : (s.spaces a).pml4Phys = r * frameSize)
    (hrec : ∀ i, LiveRec s i → (s.maps i).asPml4 ≠ r * frameSize)
    (hq : Gave s.phys (fun g => ∃ π, TableFrame s r π g) q) : KInv B (closeSpace a q s) := by
  have hr : IsRoot s r := ⟨a, hlive, hroot⟩
  have huses := uses_closeSpace (B := B) (q := q) h.toTreesOk hlive hroot
  have hisRoot : ∀ {r'}, IsRoot (closeSpace a q s) r' ↔ IsRoot s r' ∧ r' ≠ r :=
    isRoot_closeSpace h.toTreesOk hlive hroot
  have hspace : ∀ {b}, ((closeSpace a q s).spaces b).live = true → b ≠ a ∧
      (closeSpace a q s).spaces b = s.spaces b := by
    intro b hb
    have hba : b ≠ a := by
      rintro rfl
      simp [closeSpace] at hb
    exact ⟨hba, by simp [closeSpace, hba]⟩
  have hframes : FramesOk B (closeSpace a q s) := by
    refine h.toFramesOk.gave (D := fun g => ∃ π, TableFrame s r π g) hq.counted hq.total hq.isFree
      (fun f ⟨π, hf⟩ => (h.used f (.table r π) hf).1) fun f u => ?_
    rw [huses]
    refine and_congr_right fun hu => ⟨fun hne hD => ?_, fun hD π hu' => ?_⟩
    · obtain ⟨π, hπ⟩ := hD
      exact hne π (h.unique f u (.table r π) hu hπ)
    · subst hu'
      exact hD ⟨π, hu⟩
  have htrees : TreesOk (closeSpace a q s) := by
    refine ⟨fun b hb => ?_, fun b b' hb hb' heq => ?_, fun r' π i t hr' hπ hw hpres => ?_⟩
    · obtain ⟨_, heq⟩ := hspace hb
      rw [heq] at hb ⊢
      exact h.space b hb
    · obtain ⟨_, h1⟩ := hspace hb
      obtain ⟨_, h2⟩ := hspace hb'
      rw [h1] at hb heq
      rw [h2] at hb' heq
      exact h.space_inj b b' hb hb' heq
    · exact h.upper r' π i t (hisRoot.mp hr').1 hπ hw hpres
  refine ⟨⟨hframes, htrees, h.tokens, h.kernel⟩, h.mapped.move rfl (fun i b hi hb hpml4 => ?_)
    (fun _ _ _ _ _ _ _ => rfl)
    (fun r' p e hr' _ he => ⟨(hisRoot.mp hr').1, he⟩) (fun _ _ _ hk => ⟨hk, rfl⟩) fun k tok hk =>
    h.mapped.count k tok hk⟩
  have hba : b ≠ a := by
    rintro rfl
    exact hrec i hi (hpml4.symm.trans hroot)
  simp [closeSpace, hba]

/-- The records of the address space are dropped and its tables are freed. -/
theorem Dropped.destroyed (hlive : (s.spaces a).live = true)
    (hroot : (s.spaces a).pml4Phys = r * frameSize)
    (hd : Dropped B s (fun i => LiveRec s i ∧ (s.maps i).asPml4 = r * frameSize) t)
    (hq : Gave t.phys (fun g => ∃ π, TableFrame t r π g) q) :
    Destroyed B s a r (closeSpace a q t) := by
  have hpos : 0 < frameSize := by decide
  have hlive' : (t.spaces a).live = true := by rw [hd.spaces]; exact hlive
  have hroot' : (t.spaces a).pml4Phys = r * frameSize := by rw [hd.spaces]; exact hroot
  have htable : ∀ f π, TableFrame t r π f ↔ TableFrame s r π f := fun f π => hd.uses f (.table r π)
  -- no live record is left in this address space
  have hrec : ∀ i, LiveRec t i → (t.maps i).asPml4 ≠ r * frameSize := by
    intro i hi heq
    by_cases hD : LiveRec s i ∧ (s.maps i).asPml4 = r * frameSize
    · have hli := hi.live
      rw [hd.dead i hD] at hli
      exact absurd hli (by simp)
    · rw [hd.other i hD] at heq
      exact hD ⟨⟨hi.lt, hd.other i hD ▸ hi.live⟩, heq⟩
  refine ⟨hd.inv.close hlive' hroot' hrec hq, ?_, fun f => ?_, fun i hi heq => hd.dead i ⟨hi, heq⟩,
    fun i hi => hd.other i hi,
    hd.tokens, hd.pml4Phys, hd.quota, ?_, fun f u => ?_, fun f u hu hne => ?_,
    fun r' p hr' hne hp => ?_⟩
  · exact hq.total.trans (by rw [hd.phys])
  · rw [← hd.phys]
    simp only [← htable]
    exact hq.isFree f
  · rw [closeSpace, hd.spaces]
  · rw [uses_closeSpace hd.inv.toTreesOk hlive' hroot', hd.uses]
  · refine hd.mem f u hu fun i r' π hi heq => ?_
    have hrr : r' = r := Nat.eq_of_mul_eq_mul_right hpos (heq.symm.trans hi.2)
    rw [hrr]
    exact hne π
  · refine hd.kept r' p hr' hp fun i hi hc => hne ?_
    exact Nat.eq_of_mul_eq_mul_right hpos (hc.asPml4.symm.trans hi.2)

/-- **`xas_destroy`** of an address space in use. -/
theorem xasDestroy_spec (h : KInv B s) (hlive : (s.spaces a).live = true) :
    ∃ r, (s.spaces a).pml4Phys = r * frameSize ∧ Destroyed B s a r (xasDestroy a s) := by
  obtain ⟨⟨r, hroot⟩, _⟩ := h.space a hlive
  refine ⟨r, hroot, ?_⟩
  have hdiv : r * frameSize / frameSize = r := Nat.mul_div_cancel r (by decide)
  obtain ⟨hd, _⟩ := dropRecords_spec h fun m => m.asPml4 == r * frameSize
  simp only [beq_iff_eq] at hd
  have hgave := freeAll_spec hd.inv.toLayout (hd.isRoot_iff.mpr ⟨a, hlive, hroot⟩)
  have hdest := hd.destroyed hlive hroot hgave
  simp only [xasDestroy, hlive, hroot, hdiv, closeSpace, hd.spaces, Bool.true_eq_false,
    if_false] at hdest ⊢
  exact hdest

end Destroy

end Xasmos.Kernel
