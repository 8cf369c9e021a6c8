import Xasmos.Kernel.Owners

/-!
# The frames of a load that fails

A load that fails gives back its tokens and its mappings.  What `xas_map` took for page tables stays
with the address space until it is destroyed, so the frames that a failed load holds are the tables
it has made.

## Main results

* `KernelRun.load_frames_iff` — the free frames are as before exactly if the parts that were mapped
  had their tables and the one that failed needed none.
* `failed_load_holds_tables` — a program whose second segment does not fit into memory.
-/

namespace Xasmos.Kernel

open Exb

variable {B : ℕ → Prop} {D M T T' : List (XToken × Part)} {a c f i k n p q r : ℕ}
  {d : XToken × Part} {m m' : ℕ → MapRec} {owner : OwnerId} {perms : UInt32} {s s' t t' : Xeret}
  {tok : XToken}

section Lost

theorem Lent.tokenFrame_iff (h : Lent B s a owner [] [] s') :
    TokenFrame s'.ledger k f ↔ TokenFrame s.ledger k f := by
  constructor
  · intro hf
    have hold : (s.ledger.table k).live = true := by
      rcases h.tokens.only k (TokenFrame.live hf) with hold | ⟨d, hd, -⟩
      · exact hold
      · cases hd
    obtain ⟨hk, -, hlow, hhigh⟩ := hf
    rw [h.tokens.old k hold] at hlow hhigh
    exact ⟨hk, hold, hlow, hhigh⟩
  · intro hf
    have hold := h.tokens.old k hf.live
    exact ⟨hf.1, by rw [hold]; exact hf.live, by rw [hold]; exact hf.le, by rw [hold]; exact hf.lt⟩

/-- Nothing that was in use is free. -/
theorem Lent.uses (h : Lent B s a owner [] [] s') {u : FrameUse} (hu : Uses B s f u) :
    Uses B s' f u := by
  cases u with
  | boot => exact hu
  | token k => exact h.tokenFrame_iff.mpr hu
  | table r π => exact h.tables r π f hu

theorem Lent.isFree_iff (h : Lent B s a owner [] [] s') (hs : KInv B s) :
    (∀ f, s'.phys.isFree f = s.phys.isFree f) ↔ ∀ r π f, TableFrame s' r π f →
      TableFrame s r π f := by
  constructor
  · intro hfree r π f hf
    obtain ⟨hlt, hused⟩ := h.inv.used f (.table r π) hf
    rw [hfree] at hused
    obtain ⟨u, hu⟩ := hs.exact f (h.total ▸ hlt) hused
    obtain rfl := h.inv.unique f u (.table r π) (h.uses hu) hf
    exact hu
  · intro htables f
    have huses : ∀ u, Uses B s' f u ↔ Uses B s f u := by
      intro u
      refine ⟨fun hu => ?_, h.uses⟩
      cases u with
      | boot => exact hu
      | token k => exact h.tokenFrame_iff.mp hu
      | table r π => exact htables r π f hu
    rw [Bool.eq_iff_iff, h.inv.isFree_iff, hs.isFree_iff, h.total]
    simp only [huses]

end Lost

/-! ## The tables of a load -/

/-- No table of `t` is new since `s`. -/
def NoNew (s t : Xeret) : Prop := ∀ r π f, TableFrame t r π f → TableFrame s r π f

/-- The root of an address space. -/
def rootOf (s : Xeret) (a : ℕ) : ℕ := (s.spaces a).pml4Phys / frameSize

/-- Every page of the part has its tables. -/
def PartTabled (s : Xeret) (r : ℕ) (p : Part) : Prop :=
  ∀ j < p.pages, TablesFor s r (p.vaddr / frameSize + j)

/-- Page `q` is present, or is a page of one of the parts. -/
def Occupied (s : Xeret) (r : ℕ) (ps : List Part) (q : ℕ) : Prop :=
  pteAt s r q ≠ none ∨ ∃ p ∈ ps, p.vaddr / frameSize ≤ q ∧ q < p.vaddr / frameSize + p.pages

/-- The records that are live. -/
def liveRecords (s : Xeret) : List ℕ := (List.range maxMaps).filter fun i => (s.maps i).live

/-- After `n` parts were mapped, `xas_map` refuses the part before it comes to its pages. -/
inductive PartBarred (s : Xeret) (a : ℕ) (owner : OwnerId) (n : ℕ) (p : Part) : Prop where
  | space (h : (s.spaces a).live = false)
  | perms (h : p.perms = 0 ∨ p.perms &&& ~~~(permR ||| permW ||| permX) ≠ 0)
  | wx (h : p.perms &&& permW ≠ 0 ∧ p.perms &&& permX ≠ 0)
  | align (h : p.vaddr &&& (frameSize - 1) ≠ 0)
  | range (h : p.vaddr < userBase ∨ userTop ≤ p.vaddr)
  | count (h : maxMapsPerOwner ≤ (mapsOf (s.spaces a).ownerId s).length + n)
  | owner (h : owner ≠ (s.spaces a).ownerId)
  | rights (h : p.rights &&& rightsFor p.perms ≠ rightsFor p.perms)
  | size (h : p.pages = 0 ∨ (userTop - p.vaddr) / frameSize < p.pages)
  | records (h : maxMaps ≤ (liveRecords s).length + n)

/-- The part after `ps` is not mapped, and no table is made for it: it is refused at once, or a page
is in the way before a table is missing, or the parts have taken every frame. -/
def MakesNone (s : Xeret) (a : ℕ) (owner : OwnerId) (ps : List Part) (p : Part) : Prop :=
  PartBarred s a owner ps.length p ∨
    (∃ j < p.pages, Occupied s (rootOf s a) ps (p.vaddr / frameSize + j) ∧
      ∀ i < j, TablesFor s (rootOf s a) (p.vaddr / frameSize + i)) ∨
    s.phys.freeFrames = (ps.map Part.pages).sum + p.pages

/-- A load that stops after so many calls of `xlb_alloc` and `xlb_map` makes no table: every part
that it has mapped had its tables, and the one that it could not map makes none. -/
structure NoNewTable (s : Xeret) (a : ℕ) (owner : OwnerId) (parts : List Part) (allocs maps : ℕ) :
    Prop where
  mapped : ∀ p ∈ parts.take (allocs - 1), PartTabled s (rootOf s a) p
  last : ∀ n p, allocs = n + 1 → maps = n + 1 → parts[n]? = some p →
    MakesNone s a owner (parts.take n) p

/-- The calls of `xlb_alloc`. -/
def allocCalls (calls : List (BackendCall × Xeret)) : ℕ :=
  calls.countP fun c => match c.1 with
    | .alloc .. => true
    | _ => false

/-- The calls of `xlb_map`. -/
def mapCalls (calls : List (BackendCall × Xeret)) : ℕ :=
  calls.countP fun c => match c.1 with
    | .map .. => true
    | _ => false

/-- What the load has done to the pages, the records and the frames when the parts `D` are mapped
and the tokens of `T` are made. -/
structure Spent (s : Xeret) (a : ℕ) (D T : List (XToken × Part)) (t : Xeret) : Prop where
  page : IsRoot s (rootOf s a) → ∀ q, UserPage q →
    (pteAt t (rootOf s a) q ≠ none ↔ Occupied s (rootOf s a) (D.map Prod.snd) q)
  maps : (mapsOf (s.spaces a).ownerId t).length = (mapsOf (s.spaces a).ownerId s).length + D.length
  live : (liveRecords t).length = (liveRecords s).length + D.length
  cost : (∀ d ∈ D, PartTabled s (rootOf s a) d.2) ∧ NoNew s t ∧
      t.phys.freeFrames + (T.map fun d => d.2.pages).sum = s.phys.freeFrames ∨
    (∃ d ∈ D, ¬ PartTabled s (rootOf s a) d.2) ∧ ¬ NoNew s t

section Tables

variable
  {parts : List Part}

theorem Spent.refl (s : Xeret) (a : ℕ) : Spent s a [] [] s :=
  ⟨fun _ q _ => by simp [Occupied], (Nat.add_zero _).symm, (Nat.add_zero _).symm,
    Or.inl ⟨by simp, fun _ _ _ hf => hf, Nat.add_zero _⟩⟩

theorem NoNew.congr (h : ∀ r π f, TableFrame t' r π f ↔ TableFrame t r π f) :
    NoNew s t' ↔ NoNew s t := by
  simp only [NoNew, h]

/-- A step that touches no table and no record. -/
theorem Spent.step (h : Spent s a D T t) (hspaces : t.spaces = s.spaces) (hs : SameTables t t')
    (hmaps : t'.maps = t.maps) (hfree : t'.phys.freeFrames + (T'.map fun d => d.2.pages).sum =
      t.phys.freeFrames + (T.map fun d => d.2.pages).sum) : Spent s a D T' t' := by
  have hnew : NoNew s t' ↔ NoNew s t := NoNew.congr fun _ _ _ => hs.tableFrame_iff
  refine ⟨fun hr q hq => ?_, ?_, ?_, ?_⟩
  · have hr' : IsRoot t (rootOf s a) := by rwa [IsRoot, hspaces]
    rw [hs.pteAt_eq hr' hq]
    exact h.page hr q hq
  · rw [mapsOf, hmaps]
    exact h.maps
  · rw [liveRecords, hmaps]
    exact h.live
  · rw [hnew, hfree]
    exact h.cost

/-- If frames were taken, and not for tokens, there is a new table. -/
theorem FramesOk.exists_new (h : FramesOk B t) (h' : FramesOk B t')
    (htotal : t'.phys.totalFrames = t.phys.totalFrames)
    (htok : ∀ k f, TokenFrame t'.ledger k f → TokenFrame t.ledger k f)
    (hless : t'.phys.freeFrames < t.phys.freeFrames) : ¬ NoNew t t' := by
  intro hnew
  refine absurd hless (not_lt.mpr ?_)
  rw [h.counted.free_eq, h'.counted.free_eq, htotal, Nat.count_eq_card_filter_range,
    Nat.count_eq_card_filter_range]
  refine Finset.card_le_card (Finset.monotone_filter_right _ fun f _ hf => ?_)
  have hfree := h.isFree_iff.mp hf
  refine h'.isFree_iff.mpr ⟨htotal ▸ hfree.1, fun u hu => hfree.2 u ?_⟩
  cases u with
  | boot => exact hu
  | token k => exact htok k f hu
  | table r π => exact hnew r π f hu

/-- A table that is new stays. -/
theorem not_noNew_mono (h : ¬ NoNew s t)
    (hmono : ∀ r π f, TableFrame t r π f → TableFrame t' r π f) : ¬ NoNew s t' :=
  fun hnew => h fun r π f hf => hnew r π f (hmono r π f hf)

/-- Where no table is new the same pages have their tables. -/
theorem Lent.tablesFor_iff (h : Lent B s a owner T M t) (hnew : NoNew s t) (hr : IsRoot s r)
    (hq : UserPage q) : TablesFor t r q ↔ TablesFor s r q := by
  have hr' : IsRoot t r := by rwa [IsRoot, h.spaces]
  simp only [TablesFor, Option.ne_none_iff_exists']
  exact exists_congr fun f => ⟨fun hw => (hnew _ _ _ ⟨hr', userPath_pathOf hq, hw⟩).walk_eq,
    fun hw => (h.tables _ _ _ ⟨hr, userPath_pathOf hq, hw⟩).walk_eq⟩

/-- A record more of some kind. -/
theorem length_filter_update (c : MapRec → Bool) {x : MapRec} (hm : m' = Function.update m i x)
    (hi : i < n) (hold : c (m i) = false) (hnew : c x = true) :
    ((List.range n).filter fun j => c (m' j)).length =
      ((List.range n).filter fun j => c (m j)).length + 1 := by
  have hcount : ∀ f : ℕ → Bool, ((List.range n).filter f).length =
      Nat.count (fun j => f j = true) n := fun f => by
    rw [Nat.count, ← List.countP_eq_length_filter]
    simp
  rw [hm, hcount, hcount]
  exact (count_add_length (List.nodup_singleton i) (by simp [hi, hnew]) fun j _ => by
    by_cases hj : j = i <;> simp [hj, hold]).symm

/-- `xas_map` refuses the next part for what it was before the load. -/
theorem Lent.mapBarred_iff (h₀ : KInv B s) (h : Lent B s a owner (D ++ [d]) D t)
    (hs : Spent s a D T t) :
    MapBarred t a d.2.vaddr d.1 d.2.perms ↔ PartBarred s a owner D.length d.2 := by
  obtain ⟨k, hk, -, howner, hframes, hrights⟩ := h.tokens.new d (by simp)
  have hnodup := h.tokens.distinct
  rw [List.map_append, List.map_singleton, List.nodup_append] at hnodup
  have hcount : (t.ledger.table k).mapCount = 0 := h.unmapped h₀ (by simp)
    (fun e he => hnodup.2.2 _ (List.mem_map_of_mem he) _ (List.mem_singleton_self _)) hk
  have hacquire : (∃ e, xtokMapAcquire d.1 (t.spaces a).ownerId (rightsFor d.2.perms) t =
    (.error e, t)) ↔
      owner ≠ (s.spaces a).ownerId ∨ d.2.rights &&& rightsFor d.2.perms ≠ rightsFor d.2.perms := by
    have hkind : ¬ (t.ledger.table k).kind ≠ .ram := not_not.mpr (h.inv.tokens.token k hk.live).2.2
    simp only [xtokMapAcquire, (lookupLive_eq_some_iff h.inv.tokens.gens).mpr hk, if_neg hkind,
      howner, hrights, hcount, h.spaces]
    by_cases h1 : owner = (s.spaces a).ownerId <;>
      by_cases h2 : d.2.rights &&& rightsFor d.2.perms = rightsFor d.2.perms <;> simp [h1, h2]
  have hrecords : freeRecord t = none ↔ maxMaps ≤ (liveRecords s).length + D.length := by
    have hle := List.length_filter_le (fun i => (t.maps i).live) (List.range maxMaps)
    rw [List.length_range] at hle
    rw [← hs.live, liveRecords, freeRecord, List.find?_eq_none]
    have hall := List.length_filter_eq_length_iff (p := fun i => (t.maps i).live)
      (l := List.range maxMaps)
    rw [List.length_range] at hall
    simp only [Bool.not_eq_true', Bool.not_eq_false]
    exact ⟨fun hlive => (hall.mpr hlive).ge, fun hge => hall.mp (hle.antisymm hge)⟩
  constructor
  · intro hb
    cases hb with
    | space hno => exact .space (h.spaces ▸ hno)
    | perms hno => exact .perms hno
    | wx hno => exact .wx hno
    | align hno => exact .align hno
    | range hno => exact .range hno
    | count hno => exact .count (hs.maps ▸ h.spaces ▸ hno)
    | token hno =>
      rcases hacquire.mp ⟨_, hno⟩ with hno | hno
      · exact .owner hno
      · exact .rights hno
    | size hk' hno =>
      obtain rfl := hk.slot_unique h.inv.tokens.gens hk'
      exact .size (hframes ▸ hno)
    | records hno => exact .records (hrecords.mp hno)
  · intro hb
    cases hb with
    | space hno => exact .space (h.spaces ▸ hno)
    | perms hno => exact .perms hno
    | wx hno => exact .wx hno
    | align hno => exact .align hno
    | range hno => exact .range hno
    | count hno => exact .count (by rw [h.spaces, hs.maps]; exact hno)
    | owner hno => exact .token (hacquire.mpr (Or.inl hno)).choose_spec
    | rights hno => exact .token (hacquire.mpr (Or.inr hno)).choose_spec
    | size hno => exact .size hk (hframes ▸ hno)
    | records hno => exact .records (hrecords.mpr hno)

/-- The root of the space that `xas_map` works on. -/
theorem Fits.root_eq (hf : Fits t a r p tok k perms) (hspaces : t.spaces = s.spaces) :
    r = rootOf s a := by
  rw [rootOf, ← hspaces, hf.root, Nat.mul_div_cancel r (by decide)]

/-- One more part is mapped. -/
theorem Spent.mapped (h : Spent s a D (D ++ [d]) t) (hl : Lent B s a owner (D ++ [d]) D t)
    (hm : Mapped B t a r p d.1 d.2.perms k i t') (hvirt : d.2.vaddr = p * frameSize)
    (htotal : t'.phys.totalFrames = t.phys.totalFrames) : Spent s a (D ++ [d]) (D ++ [d]) t' := by
  obtain rfl := hm.fits.root_eq hl.spaces
  obtain ⟨k', hk', -, -, hframes, -⟩ := hl.tokens.new d (by simp)
  obtain rfl := hm.fits.held.slot_unique hl.inv.tokens.gens hk'
  have hpage : d.2.vaddr / frameSize = p := by rw [hvirt, Nat.mul_div_cancel p (by decide)]
  have hroot : IsRoot t (rootOf s a) := ⟨a, hm.fits.space, hm.fits.root⟩
  have hroot' : IsRoot s (rootOf s a) := by rwa [IsRoot, ← hl.spaces]
  have hmono : ∀ r π f, TableFrame t r π f → TableFrame t' r π f :=
    fun r π f hf => hm.uses f (.table r π) hf
  refine ⟨fun hr q hq => ?_, ?_, ?_, ?_⟩
  · rw [hm.pteAt_eq _ q hroot hq, hframes, Occupied, List.map_append]
    by_cases hin : p ≤ q ∧ q < p + d.2.pages
    · simp [hin, hpage]
    · rw [if_neg (by tauto), h.page hr q hq, Occupied]
      simp [hpage, hin]
  · have hmore := length_filter_update (fun x => x.live && x.owner == (s.spaces a).ownerId)
      hm.maps hm.lt
      (by simp [hm.free]) (by simp [newRec, hl.spaces])
    rw [mapsOf, hmore, List.length_append, List.length_singleton, ← Nat.add_assoc, ← h.maps, mapsOf]
  · have hmore := length_filter_update MapRec.live hm.maps hm.lt hm.free rfl
    rw [liveRecords, hmore, List.length_append, List.length_singleton, ← Nat.add_assoc, ← h.live,
      liveRecords]
  · rcases h.cost with ⟨hall, hnew, hfree⟩ | ⟨⟨e, he, hno⟩, hnew⟩
    · rcases hm.cost with ⟨htab, hphys⟩ | ⟨⟨j, hj, hno⟩, hless⟩
      · refine Or.inl ⟨fun e he => ?_, fun r π f hf => ?_, by rw [hphys]; exact hfree⟩
        · rcases List.mem_append.mp he with he | he
          · exact hall e he
          · rw [List.mem_singleton.mp he]
            intro j hj
            rw [← hframes] at hj
            rw [hpage]
            exact (hl.tablesFor_iff hnew hroot' (hm.fits.userPage hj)).mp (htab j hj)
        · exact hnew r π f (hl.inv.uses_of_phys hm.inv.toFramesOk hphys hm.uses
            (u := .table r π) hf)
      · refine Or.inr ⟨⟨d, by simp, fun htab => hno ?_⟩, fun hnew' => ?_⟩
        · have hyes := htab j (hframes ▸ hj)
          rw [hpage] at hyes
          exact (hl.tablesFor_iff hnew hroot' (hm.fits.userPage hj)).mpr hyes
        · refine hl.inv.exists_new hm.inv.toFramesOk htotal (fun j f hf => ?_) hless fun r π f hf =>
            hl.tables r π f (hnew' r π f hf)
          obtain ⟨h1, h2, h3, h4⟩ := hf
          rw [hm.tokens.table j] at h2 h3 h4
          exact ⟨h1, h2, h3, h4⟩
    · exact Or.inr ⟨⟨e, List.mem_append_left _ he, hno⟩, not_noNew_mono hnew hmono⟩

/-- A part could not be mapped. -/
theorem Spent.failed (h₀ : KInv B s) (h : Spent s a D (D ++ [d]) t)
    (hl : Lent B s a owner (D ++ [d]) D t) (he : TableEdit B t r t')
    (htotal : t'.phys.totalFrames = t.phys.totalFrames)
    (hfail : MapFailed t a d.2.vaddr d.1 d.2.perms t') :
    NoNew s t' ↔ (∀ e ∈ D, PartTabled s (rootOf s a) e.2) ∧
      MakesNone s a owner (D.map Prod.snd) d.2 := by
  rcases h.cost with ⟨hall, hnew, hfree⟩ | ⟨⟨e, hmem, hno⟩, hnew⟩
  swap
  · have hnew' := not_noNew_mono hnew fun r π f hf => he.uses f (.table r π) hf
    exact ⟨fun hyes => absurd hyes hnew', fun hyes => absurd (hyes.1 e hmem) hno⟩
  have hbarred := hl.mapBarred_iff h₀ h
  cases hfail with
  | barred hb hs =>
    rw [hs]
    exact ⟨fun _ => ⟨hall, Or.inl (by simpa using hbarred.mp hb)⟩, fun _ => hnew⟩
  | @stuck r' p k hb hvirt hf hstuck =>
    obtain rfl := hf.root_eq hl.spaces
    obtain ⟨k', hk', -, -, hframes, -⟩ := hl.tokens.new d (by simp)
    obtain rfl := hf.held.slot_unique hl.inv.tokens.gens hk'
    have hpage : d.2.vaddr / frameSize = p := by rw [hvirt, Nat.mul_div_cancel p (by decide)]
    have hroot : IsRoot s (rootOf s a) := ⟨a, hl.spaces ▸ hf.space, hl.spaces ▸ hf.root⟩
    have hblocked : Blocked t (rootOf s a) p (t.ledger.table k).nFrames ↔ ∃ j < d.2.pages,
        Occupied s (rootOf s a) (D.map Prod.snd) (d.2.vaddr / frameSize + j) ∧
        ∀ i < j, TablesFor s (rootOf s a) (d.2.vaddr / frameSize + i) := by
      rw [Blocked, hframes, hpage]
      refine exists_congr fun j => and_congr_right fun hj => and_congr ?_
        (forall₂_congr fun i hi => ?_)
      · exact h.page hroot _ (hf.userPage (hframes ▸ hj))
      · exact hl.tablesFor_iff hnew hroot (hf.userPage (hframes ▸ hi.trans hj))
    have hzero : t.phys.freeFrames = 0 ↔
        s.phys.freeFrames = ((D.map Prod.snd).map Part.pages).sum + d.2.pages := by
      simp only [List.map_append, List.sum_append, List.map_singleton, List.sum_singleton] at hfree
      rw [List.map_map, ← hfree, Function.comp_def]
      omega
    have hmakes : MakesNone s a owner (D.map Prod.snd) d.2 ↔
        Blocked t (rootOf s a) p (t.ledger.table k).nFrames ∨ t.phys.freeFrames = 0 := by
      rw [MakesNone, List.length_map, ← hbarred, hblocked, hzero]
      exact or_iff_right hb
    rw [hmakes]
    rcases hstuck with ⟨hyes, hphys⟩ | ⟨hno, hless⟩
    · refine ⟨fun _ => ⟨hall, hyes⟩, fun _ r π f hf' => hnew r π f ?_⟩
      exact (he.uses_iff hl.inv.toLayout hphys f (.table r π)).mp hf'
    · refine ⟨fun hyes => ?_, fun hyes => absurd hyes.2 hno⟩
      refine absurd (fun r π f hf' => hl.tables r π f (hyes r π f hf'))
        (hl.inv.exists_new he.layout.toFramesOk htotal ?_ hless)
      intro j f hf'
      rwa [he.ledger] at hf'

/-! ### The rules of a load, with its tables -/

theorem allocCalls_after (t : LoadSt Xeret) (c : BackendCall) (st : Xeret) :
    allocCalls (t.after c st).calls = allocCalls t.calls + match c with
      | .alloc .. => 1
      | _ => 0 := by
  cases c <;> simp [LoadSt.after, allocCalls]

theorem mapCalls_after (t : LoadSt Xeret) (c : BackendCall) (st : Xeret) :
    mapCalls (t.after c st).calls = mapCalls t.calls + match c with
      | .map .. => 1
      | _ => 0 := by
  cases c <;> simp [LoadSt.after, mapCalls]

/-- The load stops at an allocation. -/
theorem noNewTable_alloc (owner : OwnerId) {p : Part} (h : IsNext parts D p) :
    NoNewTable s a owner parts (D.length + 1) D.length ↔
    ∀ d ∈ D, PartTabled s (rootOf s a) d.2 := by
  constructor
  · intro hno d hd
    refine hno.mapped d.2 ?_
    rw [Nat.add_sub_cancel, h.take]
    exact List.mem_map_of_mem hd
  · intro hall
    refine ⟨fun p hp => ?_, fun n p hn hn' => by omega⟩
    rw [Nat.add_sub_cancel, h.take] at hp
    obtain ⟨d, hd, rfl⟩ := List.mem_map.mp hp
    exact hall d hd

/-- The load stops at a mapping. -/
theorem noNewTable_map {p : Part} (h : IsNext parts D p) :
    NoNewTable s a owner parts (D.length + 1) (D.length + 1) ↔
    (∀ d ∈ D, PartTabled s (rootOf s a) d.2) ∧ MakesNone s a owner (D.map Prod.snd) p := by
  rw [← noNewTable_alloc owner h]
  constructor
  · intro hno
    have hlast := hno.last D.length p rfl rfl h.getElem?
    rw [h.take] at hlast
    exact ⟨⟨hno.mapped, fun n q hn hn' => by omega⟩, hlast⟩
  · rintro ⟨hno, hlast⟩
    refine ⟨hno.mapped, fun n q hn _ hq => ?_⟩
    obtain rfl : D.length = n := by omega
    rw [h.getElem?, Option.some.injEq] at hq
    rw [h.take, ← hq]
    exact hlast

/-- The parts `D` are loaded. -/
structure TabledDone (B : ℕ → Prop) (s : Xeret) (a : ℕ) (owner : OwnerId) (D : List (XToken × Part))
    (t : LoadSt Xeret) : Prop where
  lent : Lent B s a owner D D t.st
  allocs : allocCalls t.calls = D.length
  maps : mapCalls t.calls = D.length
  spent : Spent s a D D t.st

/-- The part `d` has its token. -/
structure TabledFill (B : ℕ → Prop) (s : Xeret) (a : ℕ) (owner : OwnerId) (D : List (XToken × Part))
    (d : XToken × Part)
    (t : LoadSt Xeret) : Prop where
  lent : Lent B s a owner (D ++ [d]) D t.st
  allocs : allocCalls t.calls = D.length + 1
  maps : mapCalls t.calls = D.length
  spent : Spent s a D (D ++ [d]) t.st

/-- The load has failed. -/
structure TabledUndo (B : ℕ → Prop) (s : Xeret) (a : ℕ) (owner : OwnerId) (parts : List Part)
    (T M : List (XToken × Part))
    (t : LoadSt Xeret) : Prop where
  lent : Lent B s a owner T M t.st
  tables : NoNew s t.st ↔ NoNewTable s a owner parts (allocCalls t.calls) (mapCalls t.calls)

theorem Spent.noNew_iff (h : Spent s a D T t) :
    NoNew s t ↔ ∀ d ∈ D, PartTabled s (rootOf s a) d.2 := by
  rcases h.cost with ⟨hall, hnew, -⟩ | ⟨⟨d, hd, hno⟩, hnew⟩
  · exact ⟨fun _ => hall, fun _ => hnew⟩
  · exact ⟨fun hyes => absurd hyes hnew, fun hyes => absurd (hyes d hd) hno⟩

theorem tabled_rules {mem : ℕ → Bytes} (h₀ : KInv B s)
    (hfits : ∀ p ∈ parts, p.fileSize ≤ p.pages * page) :
    LoadRules amd64 a owner mem parts (TabledDone B s a owner)
      (fun D d _ => TabledFill B s a owner D d)
      (TabledUndo B s a owner parts) := by
  have hrules : LoadRules amd64 a owner mem parts (fun D t => Lent B s a owner D D t.st)
      (fun D d _ t => Lent B s a owner (D ++ [d]) D t.st)
      (fun T M t => Lent B s a owner T M t.st) := amd64_rules h₀ hfits
  constructor
  case alloc_none =>
    intro D p t hp h hr
    refine ⟨hrules.alloc_none D p t hp h.lent hr, ?_⟩
    simp only [allocCalls_after, mapCalls_after, h.allocs, h.maps, Nat.add_zero]
    rw [noNewTable_alloc owner hp, ← h.spent.noNew_iff]
    rcases xtokAllocRam_spec h.lent.inv.toLayout owner p.pages p.rights with ⟨-, hq⟩ | ⟨k, b, -,
      hne, -⟩
    · exact NoNew.congr fun _ _ _ => (hq.sameTables h.lent.inv.toFramesOk).tableFrame_iff
    · simp [amd64, hne] at hr
  case alloc_some =>
    intro D p t tok hp h hr
    refine ⟨hrules.alloc_some D p t tok hp h.lent hr, ?_, ?_, ?_⟩
    · simp [allocCalls_after, h.allocs]
    · simp [mapCalls_after, h.maps]
    · rcases xtokAllocRam_spec h.lent.inv.toLayout owner p.pages p.rights with ⟨hno, -⟩ | ⟨k, b,
        -, -, ha⟩
      · simp [amd64, hno] at hr
      · refine h.spent.step h.lent.spaces (ha.sameTables h.lent.inv.toFramesOk) ha.maps ?_
        have hcount := ha.took.free_add h.lent.inv.counted
        simp only [LoadSt.st_after, amd64, List.map_append, List.sum_append, List.map_singleton,
          List.sum_singleton]
        omega
  case poke =>
    intro D d n t v hp hn h hv
    obtain ⟨k, f, w, hf, heq⟩ :=
      h.lent.poke_eq (d := d) (by simp) (lt_of_lt_of_le hn (hfits _ hp.mem)) v
    refine ⟨hrules.poke D d n t v hp hn h.lent hv, ?_, ?_, ?_⟩
    · simp [allocCalls_after, h.allocs]
    · simp [mapCalls_after, h.maps]
    · rw [LoadSt.st_after, heq]
      exact h.spent.step h.lent.spaces (h.lent.inv.sameTables_store hf w) rfl rfl
  case map_false =>
    intro D d t hp h hmap
    refine ⟨hrules.map_false D d t hp h.lent hmap, ?_⟩
    simp only [allocCalls_after, mapCalls_after, h.allocs, h.maps, Nat.add_zero]
    rw [noNewTable_map hp]
    have hwp := wp_xasMap h.lent.inv a d.2.vaddr d.1 d.2.perms
    have htotal := (xasMap a d.2.vaddr d.1 d.2.perms).le_run t.st
    cases hrun : (xasMap a d.2.vaddr d.1 d.2.perms).run t.st with
    | mk res t' =>
      cases res with
      | ok u => simp [amd64, hrun] at hmap
      | error e =>
        rw [hrun] at htotal
        obtain ⟨⟨hedit, -⟩, -, hfail⟩ := hwp.error hrun
        have hst : (amd64.map a d.2.vaddr d.1 d.2.perms t.st).2 = t' := by simp only [amd64, hrun]
        rw [LoadSt.st_after, hst]
        exact h.spent.failed h₀ h.lent hedit htotal hfail
  case map_true =>
    intro D d t hp h hmap
    refine ⟨hrules.map_true D d t hp h.lent hmap, ?_, ?_, ?_⟩
    · simp [allocCalls_after, h.allocs]
    · simp [mapCalls_after, h.maps]
    · have hwp := wp_xasMap h.lent.inv a d.2.vaddr d.1 d.2.perms
      have htotal := (xasMap a d.2.vaddr d.1 d.2.perms).le_run t.st
      cases hrun : (xasMap a d.2.vaddr d.1 d.2.perms).run t.st with
      | mk res t' =>
        cases res with
        | error e => simp [amd64, hrun] at hmap
        | ok u =>
          rw [hrun] at htotal
          obtain ⟨r, p, k, i, hvirt, hm⟩ := hwp.ok hrun
          have hst : (amd64.map a d.2.vaddr d.1 d.2.perms t.st).2 = t' := by simp only [amd64, hrun]
          rw [LoadSt.st_after, hst]
          exact h.spent.mapped h.lent hm hvirt htotal
  case unmap =>
    intro T M d t h
    refine ⟨hrules.unmap T M d t h.lent, ?_⟩
    simp only [allocCalls_after, mapCalls_after, Nat.add_zero, LoadSt.st_after]
    refine (NoNew.congr fun r π f => ?_).trans h.tables
    have hwp := wp_xasUnmap h.lent.inv a d.2.vaddr
    cases hrun : (xasUnmap a d.2.vaddr).run t.st with
    | mk res t' =>
      simp only [amd64, hrun]
      cases res with
      | ok u =>
        obtain ⟨i, -, -, -, -, hd⟩ := hwp.ok hrun
        exact hd.uses f (.table r π)
      | error e =>
        obtain ⟨rfl, -⟩ := hwp.error hrun
        rfl
  case release =>
    intro T d t h
    refine ⟨hrules.release T d t h.lent, ?_⟩
    simp only [allocCalls_after, mapCalls_after, Nat.add_zero, LoadSt.st_after]
    refine (NoNew.congr fun r π f => ?_).trans h.tables
    simp only [amd64, xtokReclaim]
    rcases releaseImpl_spec h.lent.inv.toLayout d.1 false false 0 with ⟨e, he⟩ | ⟨k, -, -, -, hr⟩
    · rw [he]
    · exact hr.sameTables.tableFrame_iff

/-- What a load that fails has left, and what it has asked for. -/
theorem wp_xloadExb_tables (hinv : KInv B s) (a : ℕ) (owner : OwnerId) (img : Bytes) (size : ℕ)
    (out : ExbInfo) : (xloadExb amd64 a owner (fun _ => img) size out).wp (fun _ _ => True)
      (fun _ => TabledUndo B s a owner
        (infoParts (infoSegs (infoOf img out)) (infoOf img out).stackBytes) [] []) ⟨s, [], []⟩ := by
  have hearly : ∀ t', OnlyRead (· < size) ⟨s, [], []⟩ t' → t'.st = s ∧ t'.calls = [] :=
    fun t' hread => ⟨hread.st, hread.calls⟩
  refine wp_xloadExb_of_rules (fun t' hread _ => ?_) fun info t' hread hparsed _ _ => ?_
  · obtain ⟨hst, hcalls⟩ := hearly t' hread
    refine ⟨by rw [hst]; exact .refl hinv, ?_⟩
    rw [hst, hcalls]
    exact ⟨fun _ => ⟨fun p hp => absurd hp (by simp [allocCalls]), fun n p hn => absurd hn
      (by simp [allocCalls])⟩,
      fun _ _ _ _ hf => hf⟩
  · obtain ⟨-, rfl⟩ := hparsed.fixed img rfl
    obtain ⟨hst, hcalls⟩ := hearly t' hread
    refine ⟨_, _, _, tabled_rules hinv fun p hp => (hparsed.safe.parts_fit p hp).1,
      ⟨?_, ?_, ?_, ?_⟩, fun _ hu => hu, fun _ _ _ _ => trivial⟩
    · rw [hst]
      exact .refl hinv
    · rw [hcalls]
      rfl
    · rw [hcalls]
      rfl
    · rw [hst]
      exact .refl s a

end Tables

/-! ## A program that does not fit -/

/-- A program of one page of code and a segment of 1500 pages. -/
def bigImage : Bytes := fun i => List.getD
  ([0x7F, 0x45, 0x58, 0x42, 1, 1, 64, 0, 0, 0, 0, 0, 1, 0, 0, 0, 0, 0, 0, 0, 0x80, 0, 0, 0, 129,
    0, 0, 0,
    18, 124, 28, 60, 64, 0, 0, 0, 2, 0, 0, 0, 0, 0, 0, 0, 0, 0, 0, 0] ++ List.replicate 16 0 ++
   [0, 0, 0, 0, 0x80, 0, 0, 0, 1, 0, 0, 0, 0, 0, 0, 0, 128, 0, 0, 0, 1, 0, 0, 0, 5, 0, 0, 0, 0,
     0, 0, 0,
    0, 0, 0x20, 0, 0x80, 0, 0, 0, 0, 0xC0, 0x5D, 0, 0, 0, 0, 0, 0, 0, 0, 0, 0, 0, 0, 0, 1, 0, 0, 0,
    0, 0, 0, 0, 0xC3]) i 0

theorem exbFormat_bigImage : ExbFormat bigImage 129 := by
  have hok : (Id.run (parseImpl (m := Id) bigImage 129 zeroOut).run).isOk = true := by
    decide +kernel
  cases hrun : Id.run (parseImpl (m := Id) bigImage 129 zeroOut).run with
  | error e => simp [hrun, Except.isOk, Except.toBool] at hok
  | ok info => exact (passes_iff _ _).mp ((yields_parseImpl_iff _ _ _ info).mp hrun).1

/-- The code. -/
def bigCode : Part := ⟨0x8000000000, 1, segRights 5, segPerms 5, 128, 1⟩

/-- The segment that has no room. -/
def bigData : Part := ⟨0x8000200000, 1500, segRights 1, segPerms 1, 0, 0⟩

theorem parts_bigImage :
    infoParts (infoSegs (infoOf bigImage zeroOut)) (infoOf bigImage zeroOut).stackBytes =
    [bigCode, bigData, stackPart 0x4000] := by
  rfl

section Big

/-- The quota of the owner allows the program. -/
theorem NewProcess.quotaPassed (h : NewProcess B s c) :
    quotaPassed amd64 7 (infoOf bigImage zeroOut) s := by
  have hnone : ∀ g, held 7 g s.ledger = 0 := fun g => Finset.sum_eq_zero fun k _ => by
    rw [h.ledger]; rfl
  obtain ⟨hframes, htokens⟩ := h.inv.toLayout.toNat_usage 7
  have hquota : quotaOf 7 s = (defFrames, defTokens) := by
    rw [quotaOf, if_neg]
    rintro ⟨-, hset⟩
    rw [h.noQuota] at hset
    cases hset
  simp only [Exb.quotaPassed, amd64]
  rw [xlbQuotaOk_iff, hframes, htokens, usedFrames, usedTokens, hnone, hnone, hquota]
  decide +kernel

/-- The first page that is asked for is found. -/
theorem NewProcess.alloc (h : NewProcess B s c) (rights : UInt32) :
    ∃ k b, (xtokAllocRam 7 1 rights s).1 = packToken k (s.ledger.table k).generation ∧
      (xtokAllocRam 7 1 rights s).1 ≠ tokenInvalid ∧
        Allocated s 7 1 rights k b (xtokAllocRam 7 1 rights s).2 :=
  h.inv.alloc_one 7 rights (k := 0) (by decide) (by rw [h.ledger]; rfl) (by have := h.free; omega)

/-- The code has no tables yet. -/
theorem NewProcess.not_tabled (h : NewProcess B s c) : ¬ PartTabled s (rootOf s 0) bigCode := by
  intro htab
  obtain ⟨f, hf⟩ := Option.ne_none_iff_exists'.mp (htab 0 (by decide))
  have hroot : rootOf s 0 = c := by
    rw [rootOf, h.space]
    exact Nat.mul_div_cancel c (by decide)
  rw [hroot] at hf
  have hpage : UserPage (bigCode.vaddr / frameSize + 0) := ⟨by decide, by decide⟩
  have hpath := (h.tables c _ f ⟨⟨0, by rw [h.space], by rw [h.space]⟩,
    userPath_pathOf hpage, hf⟩).2
  simp [pathOf] at hpath

/-- The code of the program can be mapped. -/
theorem NewProcess.not_refused (h : NewProcess B s c) (hl : Lent B s 0 7 [d] [] t)
    (hd : d.2 = bigCode) (hfree : 3 ≤ t.phys.freeFrames) :
    ¬ MapRefused t 0 bigCode.vaddr d.1 bigCode.perms := by
  have hspace : t.spaces 0 = ⟨c * frameSize, 7, true⟩ := by rw [hl.spaces, h.space]
  have hnone : ∀ i < maxMaps, (t.maps i).live = false := by
    intro i hi
    by_contra hlive
    rcases hl.records.only i hi (by simpa using hlive) with hold | ⟨e, he, -⟩
    · rw [h.noRecord i] at hold
      cases hold
    · cases he
  obtain ⟨k, hk, -, howner, hn, hrights⟩ := hl.tokens.new d (by simp)
  rw [hd] at hn hrights
  exact hl.inv.not_refused
    ⟨by rw [hspace], hk, by rw [hspace, howner], hn, hrights,
      hl.unmapped h.inv (by simp) (by simp) hk,
      fun i hi => absurd hi.live (by simp [hnone i hi.lt]), ⟨0, by decide, hnone 0 (by decide)⟩,
      hfree⟩

/-- What a load of the program has after its calls: nothing, or the code. -/
def BigDone (B : ℕ → Prop) (s : Xeret) (D : List (XToken × Part)) (t : LoadSt Xeret) : Prop :=
  allocCalls t.calls = D.length ∧
    (D = [] ∧ t.st = s ∨ ∃ d, D = [d] ∧ Lent B s 0 7 [d] [d] t.st)

/-- The page of the code, before it is mapped. -/
structure BigFill (B : ℕ → Prop) (s : Xeret) (D : List (XToken × Part)) (d : XToken × Part)
    (t : LoadSt Xeret) : Prop where
  none : D = []
  part : d.2 = bigCode
  allocs : allocCalls t.calls = 1
  lent : Lent B s 0 7 [d] [] t.st
  free : 3 ≤ t.st.phys.freeFrames

theorem bigParts_fit : ∀ p ∈ [bigCode, bigData, stackPart 0x4000], p.fileSize ≤ p.pages * page := by
  decide

theorem NewProcess.rules (h : NewProcess B s c) :
    LoadRules amd64 0 7 (fun _ => bigImage) [bigCode, bigData, stackPart 0x4000]
      (BigDone B s) (fun D d _ t => BigFill B s D d t) (fun _ _ t => allocCalls t.calls = 2) := by
  have hrules : LoadRules amd64 0 7 (fun _ => bigImage) [bigCode, bigData, stackPart 0x4000]
    (fun D t => Lent B s 0 7 D D t.st)
      (fun D d _ t => Lent B s 0 7 (D ++ [d]) D t.st) (fun T M t => Lent B s 0 7 T M t.st) :=
      amd64_rules h.inv bigParts_fit
  constructor
  case alloc_none =>
    rintro D p t hp ⟨hn, ⟨rfl, ht⟩ | ⟨d, rfl, -⟩⟩ hr
    · obtain ⟨rest, hrest⟩ := hp
      obtain rfl : p = bigCode := (List.cons.inj hrest).1
      obtain ⟨k, b, -, hne, -⟩ := h.alloc bigCode.rights
      rw [ht] at hr
      simp only [amd64, bigCode, ite_eq_left_iff, reduceCtorEq, imp_false, not_not] at hr
      exact absurd hr hne
    · rw [allocCalls_after, hn]
      rfl
  case alloc_some =>
    rintro D p ⟨st, calls, reads⟩ tok hp ⟨hn, ⟨rfl, ht⟩ | ⟨d, rfl, hl⟩⟩ hr
    · obtain rfl : st = s := ht
      have hlent := hrules.alloc_some [] p ⟨st, calls, reads⟩ tok hp (Lent.refl h.inv) hr
      obtain ⟨rest, hrest⟩ := hp
      obtain rfl : p = bigCode := (List.cons.inj hrest).1
      obtain ⟨k, b, -, -, ha⟩ := h.alloc bigCode.rights
      have hcount := ha.took.free_add h.inv.counted
      have hfree := h.free
      refine ⟨rfl, rfl, by rw [allocCalls_after, hn]; rfl, hlent, ?_⟩
      simp only [LoadSt.st_after, amd64, show bigCode.pages = 1 from rfl]
      omega
    · -- the memory has 1024 frames
      obtain ⟨rest, hrest⟩ := hp
      obtain rfl : p = bigData := (List.cons.inj (List.cons.inj hrest).2).1
      rcases xtokAllocRam_spec hl.inv.toLayout 7 bigData.pages bigData.rights with ⟨hno, -⟩ | ⟨k, b,
        -, -, ha⟩
      · simp [amd64, hno] at hr
      · have hle := ha.took.run.1
        rw [hl.total, h.total, show bigData.pages = 1500 from rfl] at hle
        omega
  case poke =>
    rintro D d n t v hp hn hf hv
    obtain rfl := hf.none
    exact ⟨rfl, hf.part, by rw [allocCalls_after, hf.allocs]; rfl,
      hrules.poke [] d n t v hp hn hf.lent hv, hf.free⟩
  case map_false =>
    rintro D d t hp hf hmap
    obtain rfl := hf.none
    have hwp := wp_xasMap hf.lent.inv 0 d.2.vaddr d.1 d.2.perms
    cases hrun : (xasMap 0 d.2.vaddr d.1 d.2.perms).run t.st with
    | mk res t' =>
      cases res with
      | ok u => simp [amd64, hrun] at hmap
      | error e =>
        have hno := (hwp.error hrun).2.1
        rw [hf.part] at hno
        exact absurd hno (h.not_refused hf.lent hf.part hf.free)
  case map_true =>
    rintro D d t hp hf hmap
    obtain rfl := hf.none
    exact ⟨by rw [allocCalls_after, hf.allocs]; rfl,
      Or.inr ⟨d, rfl, hrules.map_true [] d t hp hf.lent hmap⟩⟩
  case unmap =>
    intro T M d t hu
    rw [allocCalls_after, hu]
    rfl
  case release =>
    intro T d t hu
    rw [allocCalls_after, hu]
    rfl

/-- The load of the program fails at the second part. -/
theorem NewProcess.wp_big (h : NewProcess B s c) :
    (xloadExb amd64 0 7 (fun _ => bigImage) 129 zeroOut).wp (fun _ _ => False)
      (fun _ t => allocCalls t.calls = 2) ⟨s, [], []⟩ := by
  apply wp_xloadExb_of_rules
  · intro t _ hno
    exfalso
    cases hno with
    | size hno | owner hno => cases hno
    | image hno => exact hno bigImage rfl exbFormat_bigImage
    | quota hparsed hno =>
      obtain ⟨-, rfl⟩ := hparsed.fixed bigImage rfl
      exact hno h.quotaPassed
  · intro info t hread hparsed _ _
    obtain ⟨-, rfl⟩ := hparsed.fixed bigImage rfl
    rw [parts_bigImage]
    refine ⟨_, _, _, h.rules, ⟨by rw [hread.calls]; rfl, Or.inl ⟨rfl, hread.st⟩⟩, fun _ hu => hu,
      fun D t' hD hd => ?_⟩
    rcases hd.2 with ⟨rfl, -⟩ | ⟨d, rfl, -⟩ <;> simp at hD

end Big

/-- The load of the program fails with fewer free frames. -/
theorem exists_big : ∃ s₀ s e t, KernelRun s₀ s ∧ (s.spaces 0).live = true ∧
    (xloadExb amd64 0 7 (fun _ => bigImage) 129 zeroOut).run ⟨s, [], []⟩ = (.error e, t) ∧
    ¬ ∀ f, t.st.phys.isFree f = s.phys.isFree f := by
  obtain ⟨s₀, s, c, hrun, hnew⟩ := exists_newProcess
  have hwp := hnew.wp_big
  cases hload : (xloadExb amd64 0 7 (fun _ => bigImage) 129 zeroOut).run ⟨s, [], []⟩ with
  | mk res t =>
    cases res with
    | ok r => exact (hwp.ok hload).elim
    | error e =>
      have hallocs := hwp.error hload
      have hundo := (wp_xloadExb_tables hnew.inv 0 7 bigImage 129 zeroOut).error hload
      refine ⟨s₀, s, e, t, hrun, by rw [hnew.space], hload, fun hfree => hnew.not_tabled ?_⟩
      refine (hundo.tables.mp ((hundo.lent.isFree_iff hnew.inv).mp hfree)).mapped _ ?_
      rw [parts_bigImage, hallocs]
      exact List.mem_singleton_self _

/-- **The frames of a load that fails**: they are free again exactly if every part that was mapped
before had its tables, and the one that could not be mapped makes none. -/
theorem KernelRun.load_frames_iff {s₀ s : Xeret} (h : KernelRun s₀ s) {a : ℕ} {owner : OwnerId}
    {img : Bytes} {size : ℕ} {out : ExbInfo} {e : XLoadError} {t : LoadSt Xeret}
    (hload : (xloadExb amd64 a owner (fun _ => img) size out).run ⟨s, [], []⟩ = (.error e, t)) :
    (∀ f, t.st.phys.isFree f = s.phys.isFree f) ↔
      NoNewTable s a owner (infoParts (infoSegs (infoOf img out)) (infoOf img out).stackBytes)
        (allocCalls t.calls) (mapCalls t.calls) := by
  obtain ⟨B, hinv⟩ : ∃ B, KInv B s := ⟨_, h.kinv⟩
  have hundo := (wp_xloadExb_tables hinv a owner img size out).error hload
  exact (hundo.lent.isFree_iff hinv).trans hundo.tables

theorem KernelRun.load_frames_iff_big : ∃ s₀ s e t, KernelRun s₀ s ∧ (s.spaces 0).live = true ∧
    (xloadExb amd64 0 7 (fun _ => bigImage) 129 zeroOut).run ⟨s, [], []⟩ = (.error e, t) ∧
    ¬ NoNewTable s 0 7 [bigCode, bigData, stackPart 0x4000] (allocCalls t.calls)
      (mapCalls t.calls) := by
  obtain ⟨s₀, s, e, t, hrun, hlive, hload, hfree⟩ := exists_big
  refine ⟨s₀, s, e, t, hrun, hlive, hload,
    fun hno => hfree ((KernelRun.load_frames_iff hrun hload).mpr ?_)⟩
  rw [parts_bigImage]
  exact hno

/-- **A load that fails keeps frames**: the tables of the code of `bigImage`. -/
theorem failed_load_holds_tables : ∃ s₀ s e s', KernelRun s₀ s ∧ (s.spaces 0).live = true ∧
    loaded 0 7 (fun _ => bigImage) 129 zeroOut s = (.error e, s') ∧ ¬ ∀ f,
      s'.phys.isFree f = s.phys.isFree f := by
  obtain ⟨s₀, s, e, t, hrun, hlive, hload, hfree⟩ := exists_big
  exact ⟨s₀, s, e, t.st, hrun, hlive, by simp only [loaded, hload], hfree⟩

end Xasmos.Kernel
