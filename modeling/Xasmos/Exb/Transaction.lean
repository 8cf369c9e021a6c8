import Xasmos.Exb.Reads

/-!
# The loader as a transaction

`xload_exb` allocates, fills and maps the parts of a program one after the other, and undoes them
in reverse if one fails.  `LoadRules` says once what each backend call has to do to three
predicates, and `LoadRules.wp_xloadExb` is what follows for the whole function: it ends with all
parts loaded, or with nothing to undo.

## Main definitions

* `LoadRules` — one rule for each call of the loader.
* `infoParts` — the parts of a record.
-/

namespace Xasmos.Exb

open Kernel Prog

variable {D M T : List (XToken × Part)} {as n size : ℕ} {info out : ExbInfo} {owner : OwnerId}
  {p : Part} {parts : List Part} {α σ : Type}

/-! ## The parts of a record -/

/-- The parts of a record: its segments, then its stack. -/
def infoParts (segs : List ExbSeg) (stackBytes : ℕ) : List Part :=
  segs.map segPart ++ [stackPart stackBytes]

/-- The segments of a record. -/
def infoSegs (info : ExbInfo) : List ExbSeg := (List.range info.segCount).map info.seg

/-- The part `p` is the one that follows the parts `D`. -/
def IsNext (parts : List Part) (D : List (XToken × Part)) (p : Part) : Prop :=
  ∃ rest, D.map Prod.snd ++ p :: rest = parts

theorem IsNext.mem (h : IsNext parts D p) : p ∈ parts := by
  obtain ⟨rest, rfl⟩ := h
  simp

theorem IsNext.take (h : IsNext parts D p) : parts.take D.length = D.map Prod.snd := by
  obtain ⟨rest, hrest⟩ := h
  rw [← hrest, List.take_left' (List.length_map _)]

theorem IsNext.getElem? (h : IsNext parts D p) : parts[D.length]? = some p := by
  obtain ⟨rest, hrest⟩ := h
  rw [← hrest, List.getElem?_append_right (by simp)]
  simp

/-- The parts around segment `n`. -/
theorem infoParts_split (info : ExbInfo) (hn : n < info.segCount) :
    infoParts (infoSegs info) info.stackBytes = (List.range n).map
      (fun i => segPart (info.seg i)) ++
      segPart (info.seg n) ::
        ((List.range' (n + 1) (info.segCount - (n + 1))).map (fun i => segPart (info.seg i)) ++
        [stackPart info.stackBytes]) := by
  have hrange : List.range info.segCount = List.range n ++ n :: List.range' (n + 1)
      (info.segCount - (n + 1)) := by
    have happ := List.range'_append_1 (s := 0) (m := n) (n := info.segCount - (n + 1) + 1)
    rw [Nat.zero_add, show n + (info.segCount - (n + 1) + 1) = info.segCount by omega] at happ
    rw [List.range_eq_range', List.range_eq_range', ← happ, List.range'_succ]
  rw [infoParts, infoSegs, List.map_map, hrange, List.map_append, List.map_cons, List.append_assoc]
  rfl

theorem infoParts_eq (info : ExbInfo) : infoParts (infoSegs info) info.stackBytes =
    (List.range info.segCount).map (fun i => segPart (info.seg i)) ++
      [stackPart info.stackBytes] := by
  rw [infoParts, infoSegs, List.map_map]
  rfl

/-- The pages of the parts are those that the loader asks the quota for. -/
theorem InfoSafe.sum_pages (h : InfoSafe size info) :
    ((infoParts (infoSegs info) info.stackBytes).map Part.pages).sum =
      info.imagePages + info.stackBytes / page := by
  rw [infoParts_eq, List.map_append, List.sum_append, List.map_map, h.pages.sum]
  simp [Function.comp_def, segPart, stackPart]

theorem length_infoParts (info : ExbInfo) :
    (infoParts (infoSegs info) info.stackBytes).length = info.segCount + 1 := by
  simp [infoParts_eq]

/-- The file bytes of each part fit into it, and lie inside the image. -/
theorem InfoSafe.parts_fit (h : InfoSafe size info) :
    ∀ p ∈ infoParts (infoSegs info) info.stackBytes, p.fileSize ≤ p.pages * page ∧
      (0 < p.fileSize → p.fileOff + p.fileSize ≤ size) := by
  intro p hp
  rcases List.mem_append.mp hp with hp | hp
  · obtain ⟨s, hs, rfl⟩ := List.mem_map.mp hp
    obtain ⟨i, hi, rfl⟩ := List.mem_map.mp hs
    have hseg := h.segs.safe i (List.mem_range.mp hi)
    exact ⟨hseg.file_fits, hseg.data_inside⟩
  · rw [List.mem_singleton.mp hp]
    exact ⟨Nat.zero_le _, fun h => absurd h (Nat.not_lt_zero _)⟩

/-! ## The rules -/

section Rules

/-- The state after the call `c`, which left the backend in `t`. -/
def LoadSt.after (s : LoadSt σ) (c : BackendCall) (t : σ) : LoadSt σ :=
  ⟨t, s.calls ++ [(c, s.st)], s.reads⟩

@[simp] theorem LoadSt.st_after (s : LoadSt σ) (c : BackendCall) (t : σ) :
    (s.after c t).st = t := rfl

@[simp] theorem wp_call {s : LoadSt σ} (c : BackendCall) (f : σ → α × σ) {Q : α → LoadSt σ → Prop}
    {E : XLoadError → LoadSt σ → Prop} :
    (call c f).wp Q E s ↔ Q (f s.st).1 (s.after c (f s.st).2) := Iff.rfl

@[simp] theorem wp_readImage {s : LoadSt σ} (mem : ℕ → Bytes) (o : ℕ) {Q : UInt8 → LoadSt σ → Prop}
    {E : XLoadError → LoadSt σ → Prop} :
    (readImage mem o).wp Q E s ↔ Q (mem s.reads.length o) { s with reads := s.reads ++ [o] } :=
      Iff.rfl

/-- What has to be undone after these parts. -/
def txnOf (D : List (XToken × Part)) : Txn := ⟨D.map Prod.fst, D.map fun d => d.2.vaddr⟩

/-- What each call of the loader does.  `Done D`: the parts `D` are loaded.  `Fill D d n`: after
these, the part `d` has its token and `n` of its bytes are copied.  `Undo T M`: the tokens of `T`
and the mappings of `M` are to be undone. -/
structure LoadRules (be : Backend σ) (as : ℕ) (owner : OwnerId) (mem : ℕ → Bytes)
    (parts : List Part)
    (Done : List (XToken × Part) → LoadSt σ → Prop) (Fill : List (XToken × Part) → XToken × Part →
      ℕ → LoadSt σ → Prop)
    (Undo : List (XToken × Part) → List (XToken × Part) → LoadSt σ → Prop) : Prop where
  alloc_none : ∀ D p s, IsNext parts D p → Done D s →
    (be.alloc owner p.pages p.rights s.st).1 = none →
    Undo D D (s.after (.alloc owner p.pages p.rights) (be.alloc owner p.pages p.rights s.st).2)
  alloc_some : ∀ D p s tok, IsNext parts D p → Done D s → (be.alloc owner p.pages p.rights s.st).1 =
    some tok →
    Fill D (tok, p) 0 (s.after (.alloc owner p.pages p.rights)
      (be.alloc owner p.pages p.rights s.st).2)
  poke : ∀ D d n s v, IsNext parts D d.2 → n < d.2.fileSize → Fill D d n s →
    v = mem s.reads.length (d.2.fileOff + n) →
    Fill D d (n + 1) (LoadSt.after { s with reads := s.reads ++ [d.2.fileOff + n] } (.poke d.1 n v)
      (be.poke d.1 n v s.st))
  map_false : ∀ D d s, IsNext parts D d.2 → Fill D d d.2.fileSize s →
    (be.map as d.2.vaddr d.1 d.2.perms s.st).1 = false →
    Undo (D ++ [d]) D (s.after (.map as d.2.vaddr d.1 d.2.perms)
      (be.map as d.2.vaddr d.1 d.2.perms s.st).2)
  map_true : ∀ D d s, IsNext parts D d.2 → Fill D d d.2.fileSize s →
    (be.map as d.2.vaddr d.1 d.2.perms s.st).1 = true →
    Done (D ++ [d]) (s.after (.map as d.2.vaddr d.1 d.2.perms)
      (be.map as d.2.vaddr d.1 d.2.perms s.st).2)
  unmap : ∀ T M d s, Undo T (M ++ [d]) s →
    Undo T M (s.after (.unmap as d.2.vaddr) (be.unmap as d.2.vaddr s.st).2)
  release : ∀ T d s, Undo (T ++ [d]) [] s → Undo T [] (s.after (.release d.1) (be.release d.1 s.st))

namespace LoadRules

variable {be : Backend σ} {mem : ℕ → Bytes}
  {Done : List (XToken × Part) → LoadSt σ → Prop}
  {Fill : List (XToken × Part) → XToken × Part → ℕ → LoadSt σ → Prop}
  {Undo : List (XToken × Part) → List (XToken × Part) → LoadSt σ → Prop} {s : LoadSt σ}

theorem wp_unmapAll (h : LoadRules be as owner mem parts Done Fill Undo) (hs : Undo T M s) :
    (unmapAll be as (M.map fun d => d.2.vaddr).reverse).wp (fun _ => Undo T [])
      (fun _ _ => False) s := by
  -- the last mapping goes first
  induction M using List.reverseRecOn generalizing s with
  | nil => exact hs
  | append_singleton M d ih =>
    rw [List.map_append, List.map_singleton, List.reverse_append, List.reverse_singleton,
      List.singleton_append, unmapAll, wp_bind, xlbUnmap, wp_call]
    exact ih (h.unmap T M d s hs)

theorem wp_releaseAll (h : LoadRules be as owner mem parts Done Fill Undo) (hs : Undo T [] s) :
    (releaseAll be (T.map Prod.fst).reverse).wp (fun _ => Undo [] []) (fun _ _ => False) s := by
  induction T using List.reverseRecOn generalizing s with
  | nil => exact hs
  | append_singleton T d ih =>
    rw [List.map_append, List.map_singleton, List.reverse_append, List.reverse_singleton,
      List.singleton_append, releaseAll, wp_bind, xlbRelease, wp_call]
    exact ih (h.release T d s hs)

/-- **Nothing of the load is left.** -/
theorem wp_rollback (h : LoadRules be as owner mem parts Done Fill Undo) (hs : Undo T M s) :
    (rollback be as ⟨T.map Prod.fst, M.map fun d => d.2.vaddr⟩).wp (fun _ => Undo [] [])
      (fun _ _ => False) s := by
  rw [rollback, wp_bind]
  exact wp_mono (h.wp_unmapAll hs) (fun _ _ _ h' => h.wp_releaseAll h') (fun _ _ _ h' => h')

/-- **One part is loaded, or nothing is held.** -/
theorem wp_loadPart (h : LoadRules be as owner mem parts Done Fill Undo) (hp : IsNext parts D p)
    (hs : Done D s) :
    (loadPart be as owner mem p (txnOf D)).wp
      (fun t s' => ∃ tok, t = txnOf (D ++ [(tok, p)]) ∧ Done (D ++ [(tok, p)]) s')
        (fun _ => Undo [] []) s := by
  rw [loadPart, wp_bind, xlbAlloc, wp_call]
  cases hr : (be.alloc owner p.pages p.rights s.st).1 with
  | none =>
    rw [wp_bind]
    exact wp_mono (h.wp_rollback (h.alloc_none D p s hp hs hr)) (fun _ _ _ h' => h')
      (fun _ _ _ h' => h'.elim)
  | some tok =>
    rw [wp_bind]
    -- the copy loop: one read and one store a turn
    refine wp_mono (wp_iterate (E := fun _ _ => False) (fun n _ => Fill D (tok, p) n)
      (h.alloc_some D p s tok hp hs hr)
      fun n _ s' hn hfill => ?_) (fun _ s' _ hfill => ?_) (fun _ _ _ h' => h'.elim)
    · rw [wp_bind, wp_readImage, xlbPoke, wp_call]
      exact h.poke D (tok, p) n s' _ hp hn hfill rfl
    · rw [wp_bind, xlbMap, wp_call]
      cases hmap : (be.map as p.vaddr tok p.perms s'.st).1 with
      | false =>
        simp only [Bool.false_eq_true, if_false, wp_bind]
        have hback := h.wp_rollback (h.map_false D (tok, p) s' hp hfill hmap)
        rw [List.map_append] at hback
        exact wp_mono hback (fun _ _ _ h' => h') (fun _ _ _ h' => h'.elim)
      | true =>
        simp only [if_true, wp_pure]
        exact ⟨tok, by simp [txnOf], h.map_true D (tok, p) s' hp hfill hmap⟩

/-- **All parts of a record are loaded, or nothing is held.** -/
theorem wp_loadParts
    (h : LoadRules be as owner mem (infoParts (infoSegs info) info.stackBytes) Done Fill Undo)
    (hs : Done [] s) :
    (Prog.iterate info.segCount (fun i t => loadPart be as owner mem (segPart (info.seg i)) t)
      ⟨[], []⟩ >>= fun t =>
      loadPart be as owner mem (stackPart info.stackBytes) t).wp
      (fun _ s' => ∃ D, D.map Prod.snd = infoParts (infoSegs info) info.stackBytes ∧ Done D s')
        (fun _ => Undo [] []) s := by
  rw [wp_bind]
  -- after `n` turns the parts of the first `n` segments are loaded
  refine wp_mono (wp_iterate (E := fun _ => Undo [] [])
    (fun n t s' => ∃ D, t = txnOf D ∧
      D.map Prod.snd = (List.range n).map (fun i => segPart (info.seg i)) ∧ Done D s')
    ⟨[], rfl, rfl, hs⟩ ?_) ?_ (fun _ _ _ h' => h')
  · rintro i t s' hi ⟨D, rfl, hD, hdone⟩
    have hp : IsNext (infoParts (infoSegs info) info.stackBytes) D (segPart (info.seg i)) :=
      ⟨_, by rw [hD, infoParts_split info hi]⟩
    refine wp_mono (h.wp_loadPart hp hdone) ?_ (fun _ _ _ h' => h')
    rintro t' s'' _ ⟨tok, rfl, hdone'⟩
    refine ⟨_, rfl, ?_, hdone'⟩
    rw [List.map_append, hD, List.range_succ, List.map_append]
    rfl
  · rintro t s' _ ⟨D, rfl, hD, hdone⟩
    have hp : IsNext (infoParts (infoSegs info) info.stackBytes) D (stackPart info.stackBytes) :=
      ⟨[], by rw [hD, infoParts_eq]⟩
    refine wp_mono (h.wp_loadPart hp hdone) ?_ (fun _ _ _ h' => h')
    rintro t' s'' _ ⟨tok, _, hdone'⟩
    refine ⟨_, ?_, hdone'⟩
    rw [List.map_append, hD, infoParts_eq]
    rfl

end LoadRules

/-- What the quota check of the loader asks for. -/
def quotaPassed (be : Backend σ) (owner : OwnerId) (info : ExbInfo) (s : σ) : Prop :=
  be.quotaOk owner (UInt64.ofNat (info.imagePages + info.stackBytes / page))
    (UInt32.ofNat (info.segCount + 1)) s = true

/-- The request of the loader does not wrap. -/
theorem InfoSafe.toNat_request (h : InfoSafe size info) :
    (UInt64.ofNat (info.imagePages + info.stackBytes / page)).toNat =
      info.imagePages + info.stackBytes / page ∧
      (UInt32.ofNat (info.segCount + 1)).toNat = info.segCount + 1 := by
  have hpages := h.pages.le
  have hstack := Nat.div_le_of_le_mul (h.stack.2.2.trans_eq (Nat.mul_comm _ _))
  have hcount := h.count
  rw [maxImagePages] at hpages
  rw [maxStackPages] at hstack
  rw [maxSegs] at hcount
  exact ⟨UInt64.toNat_ofNat_of_lt' (by norm_num; omega), UInt32.toNat_ofNat_of_lt'
    (by norm_num; omega)⟩

/-- The parser passed this record. -/
structure Parsed (mem : ℕ → Bytes) (size : ℕ) (out info : ExbInfo) : Prop where
  safe : InfoSafe size info
  fixed : ∀ img, mem = (fun _ => img) → ExbFormat img size ∧ info = infoOf img out

/-- The reasons for which a load ends before its first call. -/
inductive LoadRefused (be : Backend σ) (owner : OwnerId) (mem : ℕ → Bytes) (size : ℕ)
    (out : ExbInfo) (s : σ) : Prop where
  | size (h : size = 0)
  | owner (h : owner = ownerKernel)
  | image (h : ∀ img, mem = (fun _ => img) → ¬ ExbFormat img size)
  | quota {info : ExbInfo} (hparsed : Parsed mem size out info) (h : ¬ quotaPassed be owner info s)

/-- **The rule of `xload_exb`.**  Before the first call the load has only read.  A record that
passed the parser and the quota is loaded under some `LoadRules`. -/
theorem wp_xloadExb_of_rules {be : Backend σ} {mem : ℕ → Bytes} {s : LoadSt σ}
    {Q : XLoadResult → LoadSt σ → Prop} {E : LoadSt σ → Prop}
    (hearly : ∀ s', OnlyRead (· < size) s s' → LoadRefused be owner mem size out s.st → E s')
    (hload : ∀ info s', OnlyRead (· < size) s s' → Parsed mem size out info → owner ≠ ownerKernel →
      quotaPassed be owner info s.st →
      ∃ Done Fill Undo, LoadRules be as owner mem
        (infoParts (infoSegs info) info.stackBytes) Done Fill Undo ∧ Done [] s' ∧
        (∀ s'', Undo [] [] s'' → E s'') ∧
        ∀ D s'', D.map Prod.snd = infoParts (infoSegs info) info.stackBytes → Done D s'' →
          Q ⟨info.entry, xlbUserTop - page, info.stackBytes, info.extraTokens⟩ s'') :
    (xloadExb be as owner mem size out).wp Q (fun _ => E) s := by
  simp only [xloadExb, wp_bind, wp_failIf]
  refine ⟨fun hsize => hearly s (.refl s) (.size hsize),
    fun _ => ⟨fun ho => hearly s (.refl s) (.owner ho), fun howner => ?_⟩⟩
  refine wp_mono (scans_exbParse mem size out s) ?_ (fun _ _ _ h => h.elim)
  rintro ⟨status, info⟩ s₁ _ ⟨hread, hparse, haccepts⟩
  simp only [wp_bind, wp_failIf, wp_get]
  refine ⟨fun hstatus => hearly s₁ hread (.image fun img he hf => hstatus (haccepts img he hf)),
    fun hstatus => ?_⟩
  obtain ⟨hsafe, hfixed⟩ := hparse (not_not.mp hstatus)
  refine ⟨fun hquota => hearly s₁ hread (.quota ⟨hsafe, hfixed⟩ ?_), fun hquota => ?_⟩
  · rw [quotaPassed, ← hread.st, hquota]
    exact Bool.false_ne_true
  have hpassed : quotaPassed be owner info s.st := by
    rw [quotaPassed, ← hread.st]
    simpa using hquota
  obtain ⟨Done, Fill, Undo, hrules, hstart, hundo, hdone⟩ :=
    hload info s₁ hread ⟨hsafe, hfixed⟩ howner hpassed
  have hwp := hrules.wp_loadParts hstart
  rw [wp_bind] at hwp
  refine wp_mono hwp (fun t s' _ h' => ?_) fun _ _ _ h' => hundo _ h'
  rw [wp_bind]
  refine wp_mono h' ?_ fun _ _ _ h'' => hundo _ h''
  rintro _ s'' _ ⟨D, hD, hd⟩
  exact hdone D s'' hD hd

end Rules

end Xasmos.Exb
