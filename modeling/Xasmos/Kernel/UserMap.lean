import Xasmos.Kernel.Mappings

/-!
# Mapping a token

`xas_map` pins the token, looks for a free record, writes the entries page by page and
fills the record at the end.  A failure on the way takes back the pages of this call and
the pin; only intermediate tables may stay.

## Main results

* `wp_xasMap` — a new record with its pages, or no page changed.
* `wp_xasUnmap` — one record is dropped, or nothing has changed.
-/

namespace Xasmos.Kernel

open Radix Prog
open Function (update update_self update_of_ne)

variable {B : ℕ → Prop} {N a b f i j k leaf n p r virt : ℕ} {perms : UInt32} {s s' t t' : Xeret}
  {tok : XToken}

theorem leafFlags_present (perms : UInt32) : leafFlags perms &&& xptPresent ≠ 0 := by
  unfold leafFlags
  split_ifs <;> decide

theorem leafFlags_lt (perms : UInt32) : leafFlags perms < 2 ^ 64 := by
  unfold leafFlags
  split_ifs <;> decide

/-- The record that `xas_map` fills. -/
def newRec (s : Xeret) (a virt : ℕ) (tok : XToken) (pages : ℕ) : MapRec :=
  ⟨(s.spaces a).pml4Phys, (s.spaces a).ownerId, virt, tok, pages, true⟩

/-- What the checks of `xas_map` establish: the token of slot `k` fits at page `p` of the address
space `a`, which has the root `r`. -/
structure Fits (s : Xeret) (a r p : ℕ) (tok : XToken) (k : ℕ) (perms : UInt32) : Prop where
  space : (s.spaces a).live = true
  root : (s.spaces a).pml4Phys = r * frameSize
  first : 2 ^ 27 ≤ p
  last : p + (s.ledger.table k).nFrames ≤ 2 ^ 35
  held : Held s.ledger tok k
  owner : (s.ledger.table k).ownerId = (s.spaces a).ownerId
  rights : (s.ledger.table k).rights &&& rightsFor perms = rightsFor perms
  wx : ¬ (perms &&& permW ≠ 0 ∧ perms &&& permX ≠ 0)

/-- Frames were taken for the tables of the pages `p`, …, `p + n - 1`, exactly if some were
missing. -/
def Cost (s : Xeret) (r p n : ℕ) (s' : Xeret) : Prop :=
  (∀ j < n, TablesFor s r (p + j)) ∧ s'.phys = s.phys ∨
    (∃ j < n, ¬ TablesFor s r (p + j)) ∧ s'.phys.freeFrames < s.phys.freeFrames

/-- Before any page without tables there is a page that is present. -/
def Blocked (s : Xeret) (r p n : ℕ) : Prop :=
  ∃ j < n, pteAt s r (p + j) ≠ none ∧ ∀ i < j, TablesFor s r (p + i)

/-- The loop of `xas_map` has failed: no table was made exactly if a page stood in its way before it
came to a table that was missing, or no frame was left for one. -/
def Stuck (s : Xeret) (r p n : ℕ) (s' : Xeret) : Prop :=
  (Blocked s r p n ∨ s.phys.freeFrames = 0) ∧ s'.phys = s.phys ∨
    ¬ (Blocked s r p n ∨ s.phys.freeFrames = 0) ∧ s'.phys.freeFrames < s.phys.freeFrames

/-- In `s'` the token of slot `k` has one more mapping, in record `i`: its pages were absent and
have entries now, and no other page has changed. -/
structure Mapped (B : ℕ → Prop) (s : Xeret) (a r p : ℕ) (tok : XToken) (perms : UInt32) (k i : ℕ)
    (s' : Xeret) : Prop where
  inv : KInv B s'
  fits : Fits s a r p tok k perms
  lt : i < maxMaps
  free : (s.maps i).live = false
  maps : s'.maps = update s.maps i (newRec s a (p * frameSize) tok (s.ledger.table k).nFrames)
  tokens : SameTokens s.ledger s'.ledger
  pml4Phys : s'.pml4Phys = s.pml4Phys
  quota : s'.quota = s.quota
  spaces : s'.spaces = s.spaces
  uses : ∀ f u, Uses B s f u → Uses B s' f u
  mem : ∀ f u, Uses B s f u → (∀ π, u ≠ .table r π) → s'.mem f = s.mem f
  absent : ∀ j < (s.ledger.table k).nFrames, pteAt s r (p + j) = none
  pteAt_eq : ∀ r' q, IsRoot s r' → UserPage q → pteAt s' r' q =
    if r' = r ∧ p ≤ q ∧ q < p + (s.ledger.table k).nFrames then
      some (((s.ledger.table k).phys / frameSize + (q - p)) * frameSize ||| leafFlags perms)
    else pteAt s r' q
  half : SameHalf s s'
  taken : s.phys.freeFrames ≤ s'.phys.freeFrames + 3 * (s.ledger.table k).nFrames
  cost : Cost s r p (s.ledger.table k).nFrames s'

theorem Mapped.sameBoot (h : Mapped B s a r p tok perms k i s') :
    SameBoot B s s' := fun f hf => h.mem f .boot hf fun _ => by simp

/-- The reasons for which `xas_map` fails before it comes to the pages. -/
inductive MapBarred (s : Xeret) (a virt : ℕ) (tok : XToken) (perms : UInt32) : Prop where
  | space (h : (s.spaces a).live = false)
  | perms (h : perms = 0 ∨ perms &&& ~~~(permR ||| permW ||| permX) ≠ 0)
  | wx (h : perms &&& permW ≠ 0 ∧ perms &&& permX ≠ 0)
  | align (h : virt &&& (frameSize - 1) ≠ 0)
  | range (h : virt < userBase ∨ userTop ≤ virt)
  | count (h : maxMapsPerOwner ≤ (mapsOf (s.spaces a).ownerId s).length)
  | token {e : MapError} (h : xtokMapAcquire tok (s.spaces a).ownerId (rightsFor perms) s =
    (.error e, s))
  | size {k : ℕ} (hk : Held s.ledger tok k)
      (h : (s.ledger.table k).nFrames = 0 ∨
        (userTop - virt) / frameSize < (s.ledger.table k).nFrames)
  | records (h : freeRecord s = none)

/-- The reasons for which `xas_map` fails. -/
inductive MapRefused (s : Xeret) (a virt : ℕ) (tok : XToken) (perms : UInt32) : Prop where
  | barred (h : MapBarred s a virt tok perms)
  | present {r p k j : ℕ} (hvirt : virt = p * frameSize) (hf : Fits s a r p tok k perms)
      (hj : j < (s.ledger.table k).nFrames) (h : pteAt s r (p + j) ≠ none)
  | frames {k : ℕ} (hk : Held s.ledger tok k)
    (h : s.phys.freeFrames < 3 * (s.ledger.table k).nFrames)

/-- What a call of `xas_map` that fails takes. -/
inductive MapFailed (s : Xeret) (a virt : ℕ) (tok : XToken) (perms : UInt32) (s' : Xeret) :
    Prop where
  | barred (h : MapBarred s a virt tok perms) (hs : s' = s)
  | stuck {r p k : ℕ} (h : ¬ MapBarred s a virt tok perms) (hvirt : virt = p * frameSize)
      (hf : Fits s a r p tok k perms) (hs : Stuck s r p (s.ledger.table k).nFrames s')

section Edits

/-- New tables do not touch the mappings. -/
theorem KInv.edit (h : KInv B s) (he : TableEdit B s r s') (hp : SamePages s s') : KInv B s' := by
  refine ⟨he.layout, h.mapped.congr he.maps he.spaces hp (fun i k _ hk => ?_) fun k tok hk => ?_⟩
  · rw [he.ledger]
    exact ⟨hk, rfl⟩
  · rw [he.ledger] at hk ⊢
    exact h.mapped.count k tok hk

/-- The state in which the token of slot `k` has one pin more. -/
def pinned (k : ℕ) (s : Xeret) : Xeret :=
  { s with ledger := setMapCount k ((s.ledger.table k).mapCount + 1) s.ledger }

theorem uses_pinned {u : FrameUse} :
    Uses B (pinned k s) f u ↔ Uses B s f u := uses_recount rfl rfl rfl

/-- Changes of tables that were made while a token was pinned. -/
theorem TableEdit.unpin (hlive : (s.ledger.table k).live = true)
    (he : TableEdit B (pinned k s) r t) : TableEdit B s r { t with ledger := s.ledger } := by
  have hback : s.ledger = setMapCount k (s.ledger.table k).mapCount t.ledger := by
    rw [he.ledger]
    simp [pinned, setMapCount]
  have hlive' : (t.ledger.table k).live = true := by
    rw [he.ledger]
    simpa [pinned, setMapCount] using hlive
  refine ⟨he.layout.recount hlive' hback rfl rfl rfl rfl, rfl, he.maps, he.pml4Phys, he.quota,
    he.spaces, fun f u hu => ?_, fun f u hu => he.mem f u (uses_pinned.mpr hu), he.half⟩
  have hunpin : Uses B { t with ledger := s.ledger } f u ↔ Uses B t f u :=
    uses_recount hback rfl rfl
  exact hunpin.mpr (he.uses f u (uses_pinned.mpr hu))

/-- Releasing the pin. -/
theorem xtokMapRelease_pinned (hk : Held s.ledger tok k) (hgens : GensOk s.ledger)
    (hL : t.ledger = (pinned k s).ledger) :
    xtokMapRelease tok t = { t with ledger := s.ledger } := by
  have hk' : Held t.ledger tok k := by rw [hL]; exact held_setMapCount.mpr hk
  have hgens' : GensOk t.ledger := by rw [hL]; exact hgens.setMapCount _
  rw [xtokMapRelease_eq hgens' hk' (by simp [hL, pinned, setMapCount])]
  simp [hL, pinned, setMapCount]

end Edits

/-! ## The loop over the pages -/

/-- The state after `n` rounds of the loop of `xas_map`: the pages `p`, …, `p + n - 1` were absent
and have entries now. -/
structure PagesSet (B : ℕ → Prop) (s : Xeret) (r p b leaf n : ℕ) (s' : Xeret) : Prop where
  edit : TableEdit B s r s'
  absent : ∀ j < n, pteAt s r (p + j) = none
  pteAt_eq : ∀ r' q, IsRoot s r' → UserPage q → pteAt s' r' q =
    if r' = r ∧ p ≤ q ∧ q < p + n then some ((b + (q - p)) * frameSize ||| leaf) else pteAt s r' q
  free : s.phys.freeFrames ≤ s'.phys.freeFrames + 3 * n
  cost : Cost s r p n s'

section Loop

theorem PagesSet.zero (h : Layout B s) : PagesSet B s r p b leaf 0 s := by
  refine ⟨TableEdit.refl h, fun j hj => absurd hj (Nat.not_lt_zero j), fun r' q _ _ => ?_,
    Nat.le_add_right _ _, Or.inl ⟨fun j hj => absurd hj (Nat.not_lt_zero j), rfl⟩⟩
  rw [if_neg (by omega)]

/-- The cost of one more page. -/
theorem Cost.succ (h : Cost s r p n t) (hl : Layout B s) (he : TableEdit B s r t) (hr : IsRoot s r)
    (hp : UserPage (p + n)) (hmade : TablesFor t r (p + n) ∧ t'.phys = t.phys ∨
      ¬ TablesFor t r (p + n) ∧ t'.phys.freeFrames < t.phys.freeFrames) :
    Cost s r p (n + 1) t' := by
  rcases h with ⟨hall, hphys⟩ | ⟨⟨j, hj, hno⟩, hless⟩
  · rw [he.tablesFor_iff hl hphys hr hp, hphys] at hmade
    rcases hmade with ⟨hyes, hsame⟩ | ⟨hno, hless⟩
    · refine Or.inl ⟨fun j hj => ?_, hsame⟩
      rcases Nat.lt_succ_iff_lt_or_eq.mp hj with hlt | rfl
      · exact hall j hlt
      · exact hyes
    · exact Or.inr ⟨⟨n, Nat.lt_succ_self n, hno⟩, hless⟩
  · refine Or.inr ⟨⟨j, Nat.lt_succ_of_lt hj, hno⟩, ?_⟩
    rcases hmade with ⟨-, hsame⟩ | ⟨-, hless'⟩
    · rw [hsame]
      exact hless
    · exact hless'.trans hless

/-- One more page. -/
theorem PagesSet.succ (h : PagesSet B s r p b leaf n t) (hr : IsRoot s r) (hp : UserPage (p + n))
    (habsent : pteAt t r (p + n) = none)
    (hset : SetPage B t r (p + n) (some ((b + n) * frameSize ||| leaf)) t')
    (hfree : t.phys.freeFrames ≤ t'.phys.freeFrames + 3) (hcost : Cost s r p (n + 1) t') :
    PagesSet B s r p b leaf (n + 1) t' := by
  have hbefore := h.free
  refine ⟨h.edit.trans hset.edit, fun j hj => ?_, fun r' q hr' hq => ?_, by omega, hcost⟩
  · by_cases hjn : j = n
    · rw [h.pteAt_eq r (p + n) hr hp, if_neg (by omega)] at habsent
      rw [hjn]
      exact habsent
    · exact h.absent j (by omega)
  · rw [hset.pteAt_eq r' q (h.edit.isRoot_iff.mpr hr') hq, h.pteAt_eq r' q hr' hq]
    by_cases hin : r' = r ∧ p ≤ q ∧ q < p + (n + 1)
    · rw [if_pos hin]
      by_cases hn : r' = r ∧ q = p + n
      · have hsub : q - p = n := by omega
        rw [if_pos hn, hsub]
      · rw [if_neg hn, if_pos (by omega)]
    · rw [if_neg hin, if_neg (by omega), if_neg (by omega)]

/-- The loop stops at a page. -/
theorem PagesSet.stuck (h : PagesSet B s r p b leaf n t) (hl : Layout B s) (hr : IsRoot s r)
    (hp : UserPage (p + n)) (hn : n < N) (hwhy : ¬ TablesFor t r (p + n) ∧ t'.phys.freeFrames = 0 ∧
        (t'.phys = t.phys ∨ t'.phys.freeFrames < t.phys.freeFrames) ∨
      pteAt t r (p + n) ≠ none ∧ t'.phys = t.phys) : Stuck s r p N t' := by
  have hpte : pteAt t r (p + n) = pteAt s r (p + n) := by
    rw [h.pteAt_eq r _ hr hp, if_neg (by omega)]
  rw [hpte] at hwhy
  -- a page that blocks the loop is not one of those that were set
  have hlate : Blocked s r p N → ∀ j ≤ n, j < n ∨ pteAt s r (p + n) = none →
      TablesFor s r (p + j) := by
    rintro ⟨j₀, -, hpres, htab⟩ j hj hor
    have hge : n ≤ j₀ := by
      by_contra hlt
      exact hpres (h.absent j₀ (by omega))
    refine htab j ?_
    rcases hor with hlt | hnone
    · omega
    · have hne : j₀ ≠ n := by
        rintro rfl
        exact hpres hnone
      omega
  rcases h.cost with ⟨hall, hphys⟩ | ⟨⟨j, hj, hno⟩, hless⟩
  · rw [hphys] at hwhy
    rcases hwhy with ⟨hno, hzero, hsame | hless⟩ | ⟨hpres, hsame⟩
    · exact Or.inl ⟨Or.inr (hsame ▸ hzero), hsame⟩
    · rw [h.edit.tablesFor_iff hl hphys hr hp] at hno
      refine Or.inr ⟨?_, hless⟩
      rintro (hb | hzero')
      · refine hno (hlate hb n le_rfl (Or.inr ?_))
        by_contra hpres
        exact hno (tablesFor_of_pteAt hpres)
      · omega
    · exact Or.inl ⟨Or.inl ⟨n, hn, hpres, hall⟩, hsame⟩
  · have hle : t'.phys.freeFrames ≤ t.phys.freeFrames := by
      rcases hwhy with ⟨-, hzero, -⟩ | ⟨-, hsame⟩
      · omega
      · rw [hsame]
    refine Or.inr ⟨?_, hle.trans_lt hless⟩
    rintro (hb | hzero)
    · exact hno (hlate hb j hj.le (Or.inl hj))
    · omega

/-- The rollback: the pages of this call are absent again. -/
theorem PagesSet.undo (h : PagesSet B s r p b leaf n t) (hr : IsRoot s r)
    (hp : ∀ j < n, UserPage (p + j)) (he : TableEdit B t r t') (hsame : SamePages t t') :
    TableEdit B s r (unmapPages (r * frameSize) (p * frameSize) n t') ∧
      SamePages s (unmapPages (r * frameSize) (p * frameSize) n t') := by
  have he' := h.edit.trans he
  have hun := unmapPages_spec he'.layout (he'.isRoot_iff.mpr hr) hp
  refine ⟨he'.trans hun.edit, fun r' q hr' hq => ?_⟩
  rw [hun.pteAt_eq r' q (he'.isRoot_iff.mpr hr') hq, hsame r' q (h.edit.isRoot_iff.mpr hr') hq,
    h.pteAt_eq r' q hr' hq]
  by_cases hin : r' = r ∧ p ≤ q ∧ q < p + n
  · obtain ⟨rfl, h1, h2⟩ := hin
    rw [if_pos ⟨rfl, h1, h2⟩, ← Nat.add_sub_cancel' h1]
    exact (h.absent (q - p) (by omega)).symm
  · rw [if_neg hin, if_neg hin]

end Loop

/-! ## `xas_map` -/

section Map

theorem Fits.userPage (h : Fits s a r p tok k perms) (hj : j < (s.ledger.table k).nFrames) :
    UserPage (p + j) := by
  have h1 := h.first
  have h2 := h.last
  exact ⟨by omega, by omega⟩

/-- When all pages are written the new record is right. -/
theorem PagesSet.mapsOk (h : KInv B s) (hf : Fits s a r p tok k perms) (hi : i < maxMaps)
    (hfree : (s.maps i).live = false)
    (hset : PagesSet B (pinned k s) r p ((s.ledger.table k).phys / frameSize) (leafFlags perms)
      (s.ledger.table k).nFrames t) :
    MapsOk { t with maps := update t.maps i (newRec s a (p * frameSize) tok
      (s.ledger.table k).nFrames) } := by
  set s' : Xeret := { t with
    maps := update t.maps i (newRec s a (p * frameSize) tok (s.ledger.table k).nFrames) }
    with hs'
  have hroot : IsRoot s r := ⟨a, hf.space, hf.root⟩
  have hmaps : s'.maps = update s.maps i (newRec s a (p * frameSize) tok
      (s.ledger.table k).nFrames) := by
    simp only [hs', hset.edit.maps, pinned]
  have hledger : s'.ledger = setMapCount k ((s.ledger.table k).mapCount + 1) s.ledger :=
    hset.edit.ledger
  have hspaces : s'.spaces = s.spaces := hset.edit.spaces
  have hsame : ∀ j, (s'.ledger.table j).ownerId = (s.ledger.table j).ownerId ∧
      (s'.ledger.table j).nFrames = (s.ledger.table j).nFrames ∧
        (s'.ledger.table j).rights = (s.ledger.table j).rights ∧
      (s'.ledger.table j).phys = (s.ledger.table j).phys := by
    intro j
    rw [hledger]
    by_cases hj : j = k <;> simp [setMapCount, hj]
  have hheld : ∀ {tok' j}, Held s'.ledger tok' j ↔ Held s.ledger tok' j := by
    intro tok' j
    rw [hledger]
    exact held_setMapCount
  have hrec : s'.maps i = newRec s a (p * frameSize) tok (s.ledger.table k).nFrames := by
    rw [hmaps, update_self]
  have hold : ∀ {j}, j ≠ i → s'.maps j = s.maps j := fun hj => by rw [hmaps, update_of_ne hj]
  have hlive : ∀ {j}, j ≠ i → (LiveRec s' j ↔ LiveRec s j) := by
    intro j hj
    constructor
    · intro hl
      exact ⟨hl.lt, hold hj ▸ hl.live⟩
    · intro hl
      exact ⟨hl.lt, by rw [hold hj]; exact hl.live⟩
  have hnew : MapsToken s' (s'.maps i) a r p k perms := by
    rw [hrec]
    obtain ⟨h1, h2, h3, h4⟩ := hsame k
    refine ⟨by rw [hspaces]; exact hf.space, by rw [hspaces]; exact hf.root, hf.root,
      by rw [hspaces]; rfl, rfl, hf.first, hf.last,
      hheld.mpr hf.held, h1.trans hf.owner, h2, by rw [h3]; exact hf.rights, hf.wx, fun j hj => ?_⟩
    have hpte : pteAt s' r (p + j) = _ := hset.pteAt_eq r (p + j) hroot (hf.userPage hj)
    rw [hpte, if_pos ⟨rfl, by omega, Nat.add_lt_add_left hj p⟩, Nat.add_sub_cancel_left, h4]
  -- a page of an old record is not one of the new pages, which were absent
  have hapart : ∀ {j r' q}, LiveRec s j → Covers (s.maps j) r' q → ¬ Covers (s'.maps i) r' q := by
    intro j r' q hj hc hci
    obtain ⟨a', r'', p', k', perms', hm⟩ := h.mapped.record j hj
    obtain ⟨rfl, h1, h2⟩ := hm.covers_iff.mp hc
    obtain ⟨rfl, h3, h4⟩ := hnew.covers_iff.mp hci
    rw [hrec] at h4
    have hnone := hset.absent (q - p) (by simp only [newRec] at h4; omega)
    have hsome := hm.pages (q - p') (by omega)
    rw [Nat.add_sub_cancel' h1] at hsome
    rw [Nat.add_sub_cancel' h3] at hnone
    have hnone' : pteAt s r' q = none := hnone
    rw [hnone'] at hsome
    exact absurd hsome (by simp)
  have hkept : ∀ {r' q}, IsRoot s r' → UserPage q → ¬ Covers (s'.maps i) r' q →
      pteAt s' r' q = pteAt s r' q := by
    intro r' q hr' hq hc
    refine (hset.pteAt_eq r' q hr' hq).trans (if_neg fun hin => hc (hnew.covers_iff.mpr ?_))
    rw [hrec]
    exact hin
  refine ⟨fun j hj => ?_, fun j j' r' q hj hj' hc hc' => ?_, fun r' q e hr' hq he => ?_,
    fun k' tok' hk' => ?_⟩
  · by_cases hji : j = i
    · subst hji
      exact ⟨a, r, p, k, perms, hnew⟩
    · have hj' := (hlive hji).mp hj
      obtain ⟨a', r', p', k', perms', hm⟩ := h.mapped.record j hj'
      refine ⟨a', r', p', k', perms', ?_⟩
      rw [hold hji]
      refine hm.congr (by rw [hspaces]) (hheld.mpr hm.held) (hsame k') fun d hd => hkept hm.isRoot
        (hm.userPage hd) ?_
      exact hapart hj' (hm.covers_iff.mpr ⟨rfl, by omega, by omega⟩)
  · by_cases hji : j = i
    · by_cases hji' : j' = i
      · rw [hji, hji']
      · subst hji
        rw [hold hji'] at hc'
        exact absurd hc (hapart ((hlive hji').mp hj') hc')
    · rw [hold hji] at hc
      by_cases hji' : j' = i
      · subst hji'
        exact absurd hc' (hapart ((hlive hji).mp hj) hc)
      · rw [hold hji'] at hc'
        exact h.mapped.disjoint j j' r' q ((hlive hji).mp hj) ((hlive hji').mp hj') hc hc'
  · have hr : IsRoot s r' := by rwa [IsRoot, hspaces] at hr'
    by_cases hc : Covers (s'.maps i) r' q
    · exact ⟨i, ⟨hi, by rw [hrec]; rfl⟩, hc⟩
    · rw [hkept hr hq hc] at he
      obtain ⟨j, hj, hcj⟩ := h.mapped.covered r' q e hr hq he
      have hji : j ≠ i := by
        rintro rfl
        rw [hj.live] at hfree
        exact absurd hfree (by simp)
      exact ⟨j, (hlive hji).mpr hj, by rw [hold hji]; exact hcj⟩
  · have hk := hheld.mp hk'
    have hcount := h.mapped.count k' tok' hk
    have hclear := recordsOf_clear (s := s') ⟨hi, by rw [hrec]; rfl⟩ hfree
      (fun j hj => (hold hj).symm) tok'
    rw [hrec, newRec] at hclear
    by_cases hkk : k' = k
    · subst hkk
      have htok : tok = tok' := hf.held.tok_eq.trans hk.tok_eq.symm
      rw [if_pos htok] at hclear
      rw [← hclear, ← hcount, hledger]
      simp [setMapCount]
    · have htok : tok ≠ tok' := by
        rintro rfl
        exact hkk (hk.slot_unique h.tokens.gens hf.held)
      rw [if_neg htok, Nat.add_zero] at hclear
      rw [← hclear, ← hcount, hledger]
      simp [setMapCount, hkk]

theorem xtokMapAcquire_spec (hgens : GensOk s.ledger) (tok : XToken) (caller : OwnerId)
    (need : UInt32) :
    (∃ e, xtokMapAcquire tok caller need s = (.error e, s)) ∨
      ∃ k, Held s.ledger tok k ∧ (s.ledger.table k).ownerId = caller ∧
        (s.ledger.table k).rights &&& need = need ∧
        xtokMapAcquire tok caller need s =
          (.ok ((s.ledger.table k).phys, (s.ledger.table k).nFrames), pinned k s) := by
  unfold xtokMapAcquire
  cases hl : lookupLive s.ledger tok with
  | none => exact Or.inl ⟨_, rfl⟩
  | some k =>
    simp only
    split_ifs with h1 h2 h3 h4
    · exact Or.inl ⟨_, rfl⟩
    · exact Or.inl ⟨_, rfl⟩
    · exact Or.inl ⟨_, rfl⟩
    · exact Or.inl ⟨_, rfl⟩
    · exact Or.inr ⟨k, (lookupLive_eq_some_iff hgens).mp hl, not_not.mp h2, not_not.mp h3, rfl⟩

theorem wp_mapAcquire (hgens : GensOk s.ledger) (caller : OwnerId) (need : UInt32) :
    (mapAcquire tok caller need).wp
      (fun ram s' => ∃ k, Held s.ledger tok k ∧ (s.ledger.table k).ownerId = caller ∧
        (s.ledger.table k).rights &&& need = need ∧
        ram = ((s.ledger.table k).phys, (s.ledger.table k).nFrames) ∧ s' = pinned k s ∧
        ∀ e, xtokMapAcquire tok caller need s ≠ (.error e, s))
      (fun _ s' => s' = s ∧ ∃ e, xtokMapAcquire tok caller need s = (.error e, s)) s := by
  unfold Prog.wp mapAcquire
  rcases xtokMapAcquire_spec hgens tok caller need with ⟨e, he⟩ | ⟨k, hk, howner, hrights, he⟩
  · simp only [he]
    exact ⟨rfl, e, rfl⟩
  · simp only [he]
    exact ⟨k, hk, howner, hrights, rfl, rfl, by simp⟩

/-- The state that `xas_map` ends in. -/
theorem PagesSet.mapped (h : KInv B s) (hf : Fits s a r p tok k perms) (hi : i < maxMaps)
    (hfree : (s.maps i).live = false)
    (hset : PagesSet B (pinned k s) r p ((s.ledger.table k).phys / frameSize) (leafFlags perms)
      (s.ledger.table k).nFrames t) :
    Mapped B s a r p tok perms k i
      { t with maps := update t.maps i (newRec s a (p * frameSize) tok
        (s.ledger.table k).nFrames) } := by
  have hok := hset.mapsOk h hf hi hfree
  have hmaps : t.maps = s.maps := hset.edit.maps
  have hsame : SameTokens s.ledger t.ledger := by
    rw [hset.edit.ledger]
    exact SameTokens.setMapCount _ _ _
  refine ⟨⟨hset.edit.layout.congrRecords _, hok⟩, hf, hi, hfree, ?_, hsame, hset.edit.pml4Phys,
    hset.edit.quota, hset.edit.spaces,
    fun f u hu => ?_, fun f u hu => hset.edit.mem f u (uses_pinned.mpr hu), hset.absent,
    hset.pteAt_eq, hset.edit.half, hset.free, hset.cost⟩
  · simp only [hmaps]
  · exact (uses_congrRecords _).mpr (hset.edit.uses f u (uses_pinned.mpr hu))

theorem exists_page (h : virt &&& (frameSize - 1) = 0) : ∃ p, virt = p * frameSize := by
  have hmod := Nat.and_two_pow_sub_one_eq_mod virt 12
  refine ⟨virt / frameSize, (Nat.div_mul_cancel (Nat.dvd_of_mod_eq_zero ?_)).symm⟩
  exact hmod.symm.trans h

theorem freeRecord_spec (hi : freeRecord s = some i) : i < maxMaps ∧ (s.maps i).live = false := by
  have hmem := List.mem_of_find?_eq_some hi
  have hp := List.find?_some hi
  exact ⟨List.mem_range.mp hmem, by simpa using hp⟩

/-- The loop of `xas_map`. -/
theorem wp_mapPages (h : KInv B s) (hf : Fits s a r p tok k perms) :
    (Prog.iterate (s.ledger.table k).nFrames (fun j _ =>
      (mapPage (s.spaces a).pml4Phys (p * frameSize + j * frameSize)
        ((s.ledger.table k).phys + j * frameSize) (leafFlags perms)).onError
        (fun s' => xtokMapRelease tok (unmapPages (s.spaces a).pml4Phys (p * frameSize) j s'))
          fun s' => by simp [LE.le]) ()).wp
      (fun _ => PagesSet B (pinned k s) r p ((s.ledger.table k).phys / frameSize) (leafFlags perms)
        (s.ledger.table k).nFrames)
      (fun _ s' => (TableEdit B s r s' ∧ SamePages s s') ∧
        MapRefused s a (p * frameSize) tok perms ∧
        Stuck s r p (s.ledger.table k).nFrames s') (pinned k s) := by
  obtain ⟨b, hb⟩ := (h.tokens.token k hf.held.live).1
  have hbdiv : (s.ledger.table k).phys / frameSize = b := by
    rw [hb]
    exact Nat.mul_div_cancel b (by decide)
  have hle := h.toLayout.token_le hf.held.slot_lt hf.held.live
  have htotal := h.total_lt
  have hroot : IsRoot (pinned k s) r := ⟨a, hf.space, hf.root⟩
  have hlayout : Layout B (pinned k s) := h.toLayout.recount hf.held.live rfl rfl rfl rfl rfl
  rw [hbdiv] at hle ⊢
  rw [hb, hf.root]
  refine wp_iterate (fun n _ => PagesSet B (pinned k s) r p b (leafFlags perms) n)
    (PagesSet.zero hlayout) fun n _ t hn ht => ?_
  rw [wp_onError, ← Nat.add_mul, ← Nat.add_mul]
  refine wp_mono (wp_mapPage ht.edit.layout (ht.edit.isRoot_iff.mpr hroot) (hf.userPage hn)
    (by omega)
    (leafFlags_present perms) (leafFlags_lt perms))
      (fun _ t' _ hq => ht.succ hroot (hf.userPage hn) hq.1 hq.2.1 hq.2.2.1
      (ht.cost.succ hlayout ht.edit hroot (hf.userPage hn) hq.2.2.2)) fun e t' _ he => ?_
  obtain ⟨hwhy, hedit, hsame⟩ := he
  obtain ⟨hundo, hback⟩ := ht.undo hroot (fun j hj => hf.userPage (hj.trans hn)) hedit hsame
  rw [xtokMapRelease_pinned hf.held h.tokens.gens hundo.ledger]
  have hstuck := ht.stuck hlayout hroot (hf.userPage hn) hn (hwhy.imp_left And.right)
  refine ⟨⟨hundo.unpin hf.held.live, hback⟩,
    ?_, by simp only [Stuck, phys_unmapPages]; exact hstuck⟩
  rcases hwhy with ⟨hfew, _⟩ | ⟨hpres, _⟩
  · have hbefore : s.phys.freeFrames ≤ t.phys.freeFrames + 3 * n := ht.free
    exact .frames hf.held (by omega)
  · rw [ht.pteAt_eq r _ hroot (hf.userPage hn), if_neg (by omega)] at hpres
    exact .present rfl hf hn hpres

/-- **`xas_map`** adds one mapping; if it fails no page and no record has changed. -/
theorem wp_xasMap (h : KInv B s) (a virt : ℕ) (tok : XToken) (perms : UInt32) :
    (xasMap a virt tok perms).wp (fun _ s' => ∃ r p k i, virt = p * frameSize ∧
      Mapped B s a r p tok perms k i s')
      (fun _ s' => (TableEdit B s ((s.spaces a).pml4Phys / frameSize) s' ∧ SamePages s s') ∧
        MapRefused s a virt tok perms ∧ MapFailed s a virt tok perms s') s := by
  have hstay : ∀ hb : MapBarred s a virt tok perms,
      (TableEdit B s ((s.spaces a).pml4Phys / frameSize) s ∧ SamePages s s) ∧
        MapRefused s a virt tok perms ∧ MapFailed s a virt tok perms s := fun hb =>
    ⟨⟨TableEdit.refl h.toLayout, fun _ _ _ _ => rfl⟩, .barred hb, .barred hb rfl⟩
  simp only [xasMap, wp_bind, wp_get, wp_failIf]
  refine ⟨fun hno => hstay (.space hno), fun hlive => ⟨fun hno => hstay (.perms hno), fun hperms =>
    ⟨fun hno => hstay (.wx hno), fun hwx => ⟨fun hno => hstay (.align hno), fun halign =>
    ⟨fun hno => hstay (.range hno),
      fun hrange => ⟨fun hno => hstay (.count hno), fun hcount => ?_⟩⟩⟩⟩⟩⟩
  refine wp_mono (wp_mapAcquire h.tokens.gens _ _) (fun ram s1 _ hacq => ?_) fun e s1 _ he => ?_
  swap
  · obtain ⟨rfl, e, he⟩ := he
    exact hstay (.token he)
  obtain ⟨k, hheld, howner, hrights, rfl, rfl, hacquired⟩ := hacq
  have hspace : (s.spaces a).live = true := by simpa using hlive
  obtain ⟨⟨r, hr⟩, _⟩ := h.space a hspace
  obtain ⟨p, rfl⟩ := exists_page (not_not.mp halign)
  have hrel : xtokMapRelease tok (pinned k s) = s := xtokMapRelease_pinned hheld h.tokens.gens rfl
  rw [wp_ite]
  refine ⟨fun hno => ?_, fun hfit => ?_⟩
  · simp only [mapRelease, wp_bind, wp_modify, wp_throw, hrel]
    exact hstay (.size hheld hno)
  have hf : Fits s a r p tok k perms := by
    rw [userBase, userTop, frameSize] at *
    refine ⟨hspace, hr, by omega, by omega, hheld, howner, hrights, hwx⟩
  simp only [wp_bind, wp_get]
  cases hrec : freeRecord (pinned k s) with
  | none =>
    simp only [mapRelease, wp_bind, wp_modify, wp_throw, hrel]
    exact hstay (.records hrec)
  | some i =>
    obtain ⟨hi, hfree⟩ := freeRecord_spec hrec
    rw [wp_bind]
    refine wp_mono (wp_mapPages h hf) (fun _ t _ hset => ?_) fun _ t _ he => ?_
    · rw [wp_modify]
      exact ⟨r, p, k, i, rfl, hset.mapped h hf hi hfree⟩
    · obtain ⟨hedit, hno, hstuck⟩ := he
      refine ⟨by rwa [hr, Nat.mul_div_cancel r (by decide)], hno,
        .stuck (fun hb => ?_) rfl hf hstuck⟩
      cases hb with
      | space hno => exact hlive hno
      | perms hno => exact hperms hno
      | wx hno => exact hwx hno
      | align hno => exact halign hno
      | range hno => exact hrange hno
      | count hno => exact hcount hno
      | token hno => exact hacquired _ hno
      | size hk hno =>
        obtain rfl := hheld.slot_unique h.tokens.gens hk
        exact hfit hno
      | records hno =>
        have hsome : freeRecord s = some i := hrec
        rw [hno] at hsome
        cases hsome

/-- **`xas_unmap`** drops the record that starts at the address. -/
theorem wp_xasUnmap (h : KInv B s) (a virt : ℕ) :
    (xasUnmap a virt).wp
      (fun _ s' => ∃ i, LiveRec s i ∧ (s.spaces a).live = true ∧
        (s.maps i).asPml4 = (s.spaces a).pml4Phys ∧ (s.maps i).virt = virt ∧
        Dropped B s (· = i) s')
      (fun _ s' => s' = s ∧ ((s.spaces a).live = false ∨
        ∀ i, LiveRec s i → ¬ ((s.maps i).asPml4 = (s.spaces a).pml4Phys ∧ (s.maps i).virt = virt)))
          s := by
  simp only [xasUnmap, wp_bind, wp_get, wp_failIf]
  refine ⟨fun hno => ⟨trivial, Or.inl hno⟩, fun hlive => ?_⟩
  cases hfind : (List.range maxMaps).find? fun i =>
      (s.maps i).live && (s.maps i).asPml4 == (s.spaces a).pml4Phys && (s.maps i).virt == virt with
  | none =>
    refine ⟨rfl, Or.inr ?_⟩
    rintro i ⟨hlt, hi⟩ ⟨h1, h2⟩
    have hnone := List.find?_eq_none.mp hfind i (List.mem_range.mpr hlt)
    simp [hi, h1, h2] at hnone
  | some i =>
    have hmem := List.mem_range.mp (List.mem_of_find?_eq_some hfind)
    have hp := List.find?_some hfind
    simp only [Bool.and_eq_true, beq_iff_eq] at hp
    obtain ⟨⟨h1, h2⟩, h3⟩ := hp
    exact ⟨i, ⟨hmem, h1⟩, by simpa using hlive, h2, h3, dropRecord_spec h ⟨hmem, h1⟩⟩

end Map

end Xasmos.Kernel
