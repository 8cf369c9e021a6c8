import Xasmos.Exfs.OpSpecs

/-!
# A committed state on a device

What it means for the content of a device to hold a table of nodes: records in an inode
table (`RecordOn`), chain blocks (`ChainOn`), bitmaps and superblocks (`Good`).  The
round trips say that what a commit encodes satisfies these predicates; that a mount
reads back exactly what satisfies them is in `MountRead`.

`Held` depends only on the blocks the committed state reaches, which are `Protected`
(`Held.frame`); `Good` also says that a mount would find it, since the other superblock
is older.

## Main definitions

* `Snap` — a committed state: the superblock's fields and the table of nodes.
* `RecordOn`, `ChainOn` — a node on a device.
* `Held`, `Good` — a device that holds a committed state.
-/

namespace Xasmos.Exfs

open Bytes

variable {T : ℕ → Option Node} {area b cnt i j n o o' top total : ℕ} {bs chain : List ℕ}
  {c c' : ℕ → Bytes} {es rest : List ExfsExtent} {f : Node} {m m' : GMap} {p q r r' : Bytes}
  {s s' : St}

/-! ## Extent arrays -/

section Exts

theorem putExts_of_notMem (h : j < o ∨ o + 16 * es.length ≤ j) : putExts es o p j = p j := by
  induction es generalizing o p with
  | nil => rfl
  | cons e es ih =>
    rw [List.length_cons] at h
    rw [putExts, ih (by omega), putLE_of_notMem (by omega), putLE_of_notMem (by omega)]

theorem getLE_putExts (h : o' + n ≤ o ∨ o + 16 * es.length ≤ o') :
    getLE n (putExts es o p) o' = getLE n p o' := by
  apply getLE_congr
  intro i hi
  exact putExts_of_notMem (by omega)

/-- The extents of a list fit the fields of an extent array. -/
def Fit (es : List ExfsExtent) : Prop := ∀ e ∈ es, e.start < 2 ^ 64 ∧ e.len < 2 ^ 32

theorem Within.fit (h : Within top es) (htop : top < 2 ^ 32) : Fit es := by
  intro e he
  have := h e he
  omega

theorem getExts_succ (p : Bytes) (o cnt : ℕ) : getExts p o (cnt + 1) =
    ⟨getLE 8 p o, getLE 4 p (o + 8)⟩ :: getExts p (o + 16) cnt := by
  rw [getExts, List.range_succ_eq_map, List.map_cons, List.map_map]
  simp only [Nat.zero_mul, Nat.add_zero, getExts, List.cons.injEq, true_and]
  refine List.map_congr_left fun j _ => ?_
  simp only [Function.comp_apply]
  rw [show o + (j + 1) * 16 = o + 16 + j * 16 by omega]

/-- **An extent array reads back.** -/
theorem getExts_putExts (h : Fit es) (o : ℕ) (p : Bytes) :
    getExts (putExts es o p) o es.length = es := by
  induction es generalizing o p with
  | nil => rfl
  | cons e es ih =>
    obtain ⟨hs, hl⟩ := h e List.mem_cons_self
    have hrest := ih (fun e' he' => h e' (List.mem_cons_of_mem _ he')) (o + 16)
      (putLE 4 (putLE 8 p o e.start) (o + 8) e.len)
    have hstart : getLE 8 (putExts (e :: es) o p) o = e.start := by
      rw [putExts, getLE_putExts (by omega), getLE_putLE_disjoint (by omega)]
      exact getLE_putLE_of_lt _ _ (by omega)
    have hlen : getLE 4 (putExts (e :: es) o p) (o + 8) = e.len := by
      rw [putExts, getLE_putExts (by omega)]
      exact getLE_putLE_of_lt _ _ (by omega)
    have htail : getExts (putExts (e :: es) o p) (o + 16) es.length = es := by
      rw [putExts]
      exact hrest
    rw [List.length_cons, getExts_succ, hstart, hlen, htail]

theorem getExts_congr (h : ∀ j < 16 * cnt, p (o + j) = q (o + j)) :
    getExts p o cnt = getExts q o cnt := by
  refine List.map_congr_left fun j hj => ?_
  have hj' := List.mem_range.mp hj
  have h1 : getLE 8 p (o + j * 16) = getLE 8 q (o + j * 16) := by
    apply getLE_congr
    intro i hi
    have := h (j * 16 + i) (by omega)
    rwa [← Nat.add_assoc] at this
  have h2 : getLE 4 p (o + j * 16 + 8) = getLE 4 q (o + j * 16 + 8) := by
    apply getLE_congr
    intro i hi
    have := h (j * 16 + 8 + i) (by omega)
    rwa [← Nat.add_assoc, ← Nat.add_assoc] at this
  rw [h1, h2]

theorem length_getExts (p : Bytes) (o cnt : ℕ) : (getExts p o cnt).length = cnt := by
  simp [getExts]

end Exts

/-! ## Records -/

/-- The record `r` describes the node, apart from its chain blocks. -/
def RecordOn (r : Bytes) : Option Node → Prop
  | none => getLE 4 r 0 = 0
  | some f => getLE 4 r 0 ≠ 0 ∧ getLE 4 r 4 = f.type ∧ getLE 8 r 8 = f.size ∧
      cname (fun j => r (16 + j)) = f.name ∧ getLE 8 r 112 = f.chain.headD 0 ∧
      getLE 4 r 120 = min f.exts.length inlineExt ∧
      getExts r 128 (min f.exts.length inlineExt) = f.exts.take inlineExt

theorem cname_congr {a b : Bytes} (h : ∀ j < nameMax, a j = b j) : cname a = cname b := by
  unfold cname
  rw [List.map_congr_left fun j hj => h j (List.mem_range.mp hj)]

/-- A record is its 256 bytes. -/
theorem RecordOn.congr {f : Option Node} (h : ∀ j < inodeBytes, r' j = r j) (hr : RecordOn r f) :
    RecordOn r' f := by
  simp only [inodeBytes] at h
  have hget : ∀ n o, o + n ≤ 256 → getLE n r' o = getLE n r o := fun n o hno =>
    getLE_congr fun i hi => h _ (by omega)
  cases f with
  | none =>
    simp only [RecordOn] at hr ⊢
    rw [hget 4 0 (by omega)]
    exact hr
  | some f =>
    simp only [RecordOn] at hr ⊢
    obtain ⟨h1, h2, h3, h4, h5, h6, h7⟩ := hr
    rw [hget 4 0 (by omega), hget 4 4 (by omega), hget 8 8 (by omega), hget 8 112 (by omega),
      hget 4 120 (by omega)]
    refine ⟨h1, h2, h3, ?_, h5, h6, ?_⟩
    · rw [← h4]
      exact cname_congr fun j hj => h _ (by simp only [nameMax] at hj; omega)
    · rw [← h7]
      refine getExts_congr fun j hj => h _ ?_
      have : min f.exts.length inlineExt ≤ 8 := Nat.min_le_right _ _
      omega

/-- **`inode_encode`** describes the node. -/
theorem recordOn_encode {v : Vol} (h : (v.files i).used = true → (v.files i).type < 2 ^ 32 ∧
      (v.files i).size < 2 ^ 64 ∧ Fit (exts v i) ∧ ∀ b ∈ chainOf (v.files i), b < 2 ^ 64) :
    RecordOn (inodeEncode v i) (nodeOf v i) := by
  have hlen : ((exts v i).take inlineExt).length ≤ 8 := List.length_take_le _ _
  have hread : ∀ n o, o + n ≤ 128 → getLE n (inodeEncode v i) o =
      getLE n (putLE 4 (putLE 8 (fun j => if 16 ≤ j ∧ j < 16 + (nameMax + 1) then
        (v.files i).name (j - 16) else putLE 8 (putLE 4 (putLE 4 (fun _ => 0) 0
          (if (v.files i).used then 1 else 0)) 4 (v.files i).type) 8 (v.files i).size j) 112
        (if (v.files i).nchain = 0 then 0 else (v.files i).chain 0)) 120
        (min (v.files i).n inlineExt)) o := by
    intro n o hno
    rw [inodeEncode]
    exact getLE_putExts (by omega)
  -- a field before the name is not touched by the name or by what follows
  have hlow : ∀ n o, o + n ≤ 16 → getLE n (inodeEncode v i) o =
      getLE n (putLE 8 (putLE 4 (putLE 4 (fun _ => 0) 0 (if (v.files i).used then 1 else 0)) 4
        (v.files i).type) 8 (v.files i).size) o := by
    intro n o hno
    rw [hread n o (by omega), getLE_putLE_disjoint (by omega), getLE_putLE_disjoint (by omega)]
    apply getLE_congr
    intro j hj
    rw [if_neg (by omega)]
  have hused : getLE 4 (inodeEncode v i) 0 = if (v.files i).used then 1 else 0 := by
    rw [hlow 4 0 (by omega), getLE_putLE_disjoint (by omega), getLE_putLE_disjoint (by omega)]
    refine getLE_putLE_of_lt _ _ ?_
    split <;> decide
  cases hu : (v.files i).used with
  | false =>
    rw [nodeOf_unused hu]
    simp only [RecordOn]
    rw [hused, hu]
    rfl
  | true =>
    obtain ⟨h1, h2, h3, h4⟩ := h hu
    have hn : (exts v i).length = (v.files i).n := by simp [exts]
    have hmin : ((exts v i).take inlineExt).length = min (exts v i).length inlineExt := by
      rw [List.length_take, Nat.min_comm]
    rw [nodeOf_used hu]
    refine ⟨?_, ?_, ?_, ?_, ?_, ?_, ?_⟩
    · rw [hused, hu]
      decide
    · rw [hlow 4 4 (by omega), getLE_putLE_disjoint (by omega)]
      exact getLE_putLE_of_lt _ _ (by omega)
    · rw [hlow 8 8 (by omega)]
      exact getLE_putLE_of_lt _ _ (by omega)
    · refine cname_congr fun j hj => ?_
      simp only [nameMax] at hj
      simp only [inodeEncode]
      rw [putExts_of_notMem (by omega), putLE_of_notMem (by omega), putLE_of_notMem (by omega),
        if_pos (by simp only [nameMax]; omega), Nat.add_sub_cancel_left]
    · rw [hread 8 112 (by omega), getLE_putLE_disjoint (by omega)]
      have hhead : (if (v.files i).nchain = 0 then 0 else (v.files i).chain 0) =
          (chainOf (v.files i)).headD 0 := by
        unfold chainOf
        cases (v.files i).nchain with
        | zero => rfl
        | succ k => simp [List.range_succ_eq_map]
      rw [hhead]
      refine getLE_putLE_of_lt _ _ ?_
      cases hc : chainOf (v.files i) with
      | nil => decide
      | cons b bs =>
        have := h4 b (by rw [hc]; exact List.mem_cons_self)
        simpa using this
    · rw [hread 4 120 (by omega), hn]
      refine getLE_putLE_of_lt _ _ ?_
      have : min (v.files i).n inlineExt ≤ 8 := Nat.min_le_right _ _
      omega
    · rw [← hmin]
      exact getExts_putExts (fun e he => h3 e (List.mem_of_mem_take he)) 128 _

/-! ## Chain blocks -/

/-- The chain blocks hold the rest of an extent list. -/
def ChainOn (c : ℕ → Bytes) : List ℕ → List ExfsExtent → Prop
  | [], rest => rest = []
  | b :: bs, rest => b ≠ 0 ∧ getLE 8 (c b) 0 = bs.headD 0 ∧
      getLE 4 (c b) 8 = min rest.length indExt ∧
      getExts (c b) 16 (min rest.length indExt) = rest.take indExt ∧ ChainOn c bs (rest.drop indExt)

theorem ChainOn.congr (h : ∀ b ∈ bs, c' b = c b) (hc : ChainOn c bs rest) : ChainOn c' bs rest := by
  induction bs generalizing rest with
  | nil => exact hc
  | cons b bs ih =>
    obtain ⟨h1, h2, h3, h4, h5⟩ := hc
    have hb := h b List.mem_cons_self
    refine ⟨h1, ?_, ?_, ?_, ih (fun x hx => h x (List.mem_cons_of_mem _ hx)) h5⟩
    · rw [hb]; exact h2
    · rw [hb]; exact h3
    · rw [hb]; exact h4

/-- The chain blocks of a list end with its last extent. -/
theorem chainNeed_cover (n : ℕ) : n ≤ inlineExt + chainNeed n * indExt := by
  by_cases h : inlineExt < n
  · rw [chainNeed, if_pos h]
    simp only [inlineExt, indExt] at *
    omega
  · omega

/-- A record can name all chain blocks a list may need. -/
theorem chainNeed_le (h : n ≤ maxExt) : chainNeed n ≤ maxChain := by
  by_cases h8 : inlineExt < n
  · rw [chainNeed, if_pos h8]
    simp only [inlineExt, indExt, maxExt, maxChain] at *
    omega
  · rw [chainNeed, if_neg h8]
    exact Nat.zero_le _

/-- **The pages a commit writes** hold the rest of the list. -/
theorem chainOn_pages (hfit : Fit es) (hlen : chain.length = chainNeed es.length)
    (hpos : ∀ b ∈ chain, b ≠ 0 ∧ b < 2 ^ 64)
    (hpage : ∀ k < chain.length, c (chain.getD k 0) = chainPage es chain k) :
    ChainOn c chain (es.drop inlineExt) := by
  -- from the last block backwards
  have hback : ∀ m k, k + m = chain.length →
      ChainOn c (chain.drop k) (es.drop (inlineExt + k * indExt)) := by
    intro m
    induction m with
    | zero =>
      intro k hk
      have hcov := chainNeed_cover es.length
      obtain rfl : k = chain.length := by omega
      rw [← hlen] at hcov
      rw [List.drop_length, List.drop_of_length_le hcov]
      rfl
    | succ m ih =>
      intro k hk
      have hlt : k < chain.length := by omega
      have hget : chain.getD k 0 = chain[k] := List.getD_eq_getElem _ _ hlt
      have hp := hpage k hlt
      rw [hget] at hp
      have hnext := ih (k + 1) (by omega)
      rw [List.drop_eq_getElem_cons hlt]
      set rest := es.drop (inlineExt + k * indExt) with hrest
      have hfit' : Fit (rest.take indExt) := fun e he =>
        hfit e (List.mem_of_mem_drop (List.mem_of_mem_take he))
      have hl : (rest.take indExt).length = min rest.length indExt := by
        rw [List.length_take, Nat.min_comm]
      have hle : min rest.length indExt ≤ indExt := Nat.min_le_right _ _
      simp only [indExt] at hle
      refine ⟨(hpos _ (List.getElem_mem hlt)).1, ?_, ?_, ?_, ?_⟩
      · rw [hp, chainPage, getLE_putExts (by omega), getLE_putLE_disjoint (by omega)]
        have hhead : (if k + 1 < chain.length then chain.getD (k + 1) 0 else 0) =
            (chain.drop (k + 1)).headD 0 := by
          by_cases hk1 : k + 1 < chain.length
          · rw [if_pos hk1, List.getD_eq_getElem _ _ hk1, List.drop_eq_getElem_cons hk1]
            rfl
          · rw [if_neg hk1, List.drop_of_length_le (by omega)]
            rfl
        rw [hhead]
        refine getLE_putLE_of_lt _ _ ?_
        cases hc : chain.drop (k + 1) with
        | nil => decide
        | cons b bs =>
          have := (hpos b (List.mem_of_mem_drop (by rw [hc]; exact List.mem_cons_self))).2
          simpa using this
      · rw [hp, chainPage, getLE_putExts (by omega)]
        exact getLE_putLE_of_lt _ _ (by simp only [indExt]; omega)
      · rw [hp, ← hl]
        exact getExts_putExts hfit' 16 _
      · rw [hrest, List.drop_drop]
        have hidx : inlineExt + k * indExt + indExt = inlineExt + (k + 1) * indExt := by
          rw [Nat.succ_mul]
          omega
        rw [hidx]
        exact hnext
  have h0 := hback chain.length 0 (Nat.zero_add _)
  rwa [List.drop_zero, Nat.zero_mul, Nat.add_zero] at h0

/-! ## A committed state -/

/-- The inode table in the blocks from `area` on, as one byte memory. -/
def itabOf (c : ℕ → Bytes) (area : ℕ) : Bytes :=
  fun p => if p < itabBlocks * blockBytes then c (area + p / blockBytes) (p % blockBytes) else 0

/-- Record `i` of an inode table. -/
def recordOf (c : ℕ → Bytes) (area i : ℕ) : Bytes := fun j => itabOf c area (i * inodeBytes + j)

/-- A committed state: the fields of its superblock and its table of nodes. -/
structure Snap where
  sb : SbFields
  node : ℕ → Option Node

variable {S : Snap}

/-- The facts about one node that do not concern other nodes. -/
structure NodeOk (total : ℕ) (f : Node) : Prop where
  n_le : f.exts.length ≤ maxExt
  size_lt : f.size < 2 ^ 64
  type_lt : f.type < 2 ^ 32
  within : Within total f.exts
  chain : f.chain.length = chainNeed f.exts.length

theorem NodeOk.chain_le (h : NodeOk total f) : f.chain.length ≤ maxChain := by
  rw [h.chain]
  exact chainNeed_le h.n_le

/-- The pool slots a node needs. -/
def nodeCap : Option Node → ℕ
  | none => 0
  | some f => capFor f.exts.length

/-- Block `b` is marked used in the committed bitmaps, and not reserved. -/
def snapTaken (m : GMap) (c : ℕ → Bytes) (S : Snap) (b : ℕ) : Bool :=
  decide (b < m.total) && bitOf (c (slotBlock m (b / m.gb) (S.sb.slot (b / m.gb)))) (b % m.gb) &&
    !reservedBlock m b

/-- The content `c` of a device with the geometry of `m` holds the committed state `S`. -/
structure Held (m : GMap) (c : ℕ → Bytes) (S : Snap) : Prop where
  sb : sbDecode (c (S.sb.gen % 2)) = .ok S.sb
  total : S.sb.total = m.total
  ngroups : S.sb.ngroups = m.ngroups
  map : MapOn m c S.sb.slot S.sb.free
  record : ∀ i < inodes, RecordOn (recordOf c (itabArea S.sb.gen) i) (S.node i)
  node : ∀ i < inodes, ∀ f, S.node i = some f → NodeOk m.total f
  chain : ∀ i < inodes, ∀ f, S.node i = some f → ChainOn c f.chain (f.exts.drop inlineExt)
  ledger : ∀ b, tableOwn S.node b = (snapTaken m c S b).toNat
  pool : ∑ i ∈ Finset.range inodes, nodeCap (S.node i) ≤ poolExt

/-- The content holds `S`, and no superblock is newer. -/
structure Good (m : GMap) (c : ℕ → Bytes) (S : Snap) : Prop extends Held m c S where
  other : ∀ f, sbDecode (c ((S.sb.gen + 1) % 2)) = .ok f → f.gen < S.sb.gen

/-- The blocks a committed state reaches. -/
def Protected (m : GMap) (S : Snap) (b : ℕ) : Prop :=
  b = S.sb.gen % 2 ∨ (itabArea S.sb.gen ≤ b ∧ b < itabArea S.sb.gen + itabBlocks) ∨
    (∃ g < m.ngroups, b = slotBlock m g (S.sb.slot g)) ∨ 0 < tableOwn S.node b

section Good

theorem recordOf_congr (h : ∀ b, area ≤ b → b < area + itabBlocks → c' b = c b) :
    recordOf c' area i = recordOf c area i := by
  funext j
  simp only [recordOf, itabOf]
  split
  · rename_i hlt
    have hdiv : (i * inodeBytes + j) / blockBytes < itabBlocks := by
      rw [Nat.div_lt_iff_lt_mul (by decide)]
      exact hlt
    rw [h _ (Nat.le_add_right _ _) (Nat.add_lt_add_left hdiv _)]
  · rfl

theorem tableOwn_pos_of_chain (hi : i < inodes) (hf : T i = some f) (hb : b ∈ f.chain) :
    0 < tableOwn T b := by
  have h1 := le_tableOwn T (b := b) hi
  have h2 := List.count_pos_iff.mpr hb
  rw [hf, nodeOwn] at h1
  omega

theorem tableOwn_pos_of_exts (hi : i < inodes) (hf : T i = some f) (hb : b ∈ blocks f.exts) :
    0 < tableOwn T b := by
  have h1 := le_tableOwn T (b := b) hi
  have h2 := List.count_pos_iff.mpr hb
  rw [hf, nodeOwn] at h1
  omega

/-- **A committed state depends only on the blocks it reaches.** -/
theorem Held.frame (h : Held m c S) (hc : ∀ b, Protected m S b → c' b = c b)
    (hgb : ∀ b < m.total, b / m.gb < m.ngroups) : Held m c' S := by
  have hslot : ∀ g < m.ngroups, c' (slotBlock m g (S.sb.slot g)) =
      c (slotBlock m g (S.sb.slot g)) :=
    fun g hg => hc _ (Or.inr (Or.inr (Or.inl ⟨g, hg, rfl⟩)))
  refine ⟨?_, h.total, h.ngroups, ⟨h.map.slot_le, h.map.two_slots, fun g hg => ?_,
    fun g hg i hi => ?_⟩, fun i hi => ?_, h.node, fun i hi f hf => ?_, fun b => ?_, h.pool⟩
  · rw [hc _ (Or.inl rfl)]
    exact h.sb
  · rw [hslot g hg]
    exact h.map.free_eq g hg
  · rw [hslot g hg]
    exact h.map.reserved g hg i hi
  · rw [recordOf_congr fun b h1 h2 => hc b (Or.inr (Or.inl ⟨h1, h2⟩))]
    exact h.record i hi
  · exact (h.chain i hi f hf).congr fun b hb =>
      hc b (Or.inr (Or.inr (Or.inr (tableOwn_pos_of_chain hi hf hb))))
  · rw [h.ledger b, snapTaken, snapTaken]
    by_cases hb : b < m.total
    · rw [hslot _ (hgb b hb)]
    · simp [hb]

/-- Only the geometry of the map matters. -/
theorem Held.congr_map (h : Held m c S) (hgb : m'.gb = m.gb) (ht : m'.total = m.total)
    (hn : m'.ngroups = m.ngroups) : Held m' c S := by
  have hs : slotBlock m' = slotBlock m := by
    funext g t
    exact slotBlock_congr hgb g t
  have hv : validBits m' = validBits m := by
    funext g
    exact validBits_congr hgb ht g
  refine ⟨h.sb, h.total.trans ht.symm, h.ngroups.trans hn.symm, ?_, h.record, ?_, h.chain,
    fun b => ?_, h.pool⟩
  · refine ⟨?_, ?_, ?_, ?_⟩
    · rw [hn]; exact h.map.slot_le
    · rw [hn, ht, hs]; exact h.map.two_slots
    · rw [hn, hs, hv]; exact h.map.free_eq
    · rw [hn, hs]; exact h.map.reserved
  · rw [ht]; exact h.node
  · rw [h.ledger b, snapTaken, snapTaken, hgb, ht, hs, reservedBlock, reservedBlock, hgb]

theorem Good.frame (h : Good m c S) (hc : ∀ b, Protected m S b → c' b = c b)
    (hother : ∀ f, sbDecode (c' ((S.sb.gen + 1) % 2)) = .ok f → f.gen < S.sb.gen)
    (hgb : ∀ b < m.total, b / m.gb < m.ngroups) : Good m c' S :=
  ⟨h.toHeld.frame hc hgb, hother⟩

theorem Good.congr_map (h : Good m c S) (hgb : m'.gb = m.gb) (ht : m'.total = m.total)
    (hn : m'.ngroups = m.ngroups) : Good m' c S :=
  ⟨h.toHeld.congr_map hgb ht hn, h.other⟩

end Good

/-! ## A volume over its committed state -/

/-- The invariant of a volume: sound in memory, over the committed state `S` on the
device.  Whatever `S` reaches is still owned, and a file that is not marked is as `S`
has it. -/
structure Inv (s : St) (S : Snap) : Prop extends RamInv s where
  good : Good s.v.gm s.disk.block S
  gen : s.v.gen = S.sb.gen
  slot : ∀ g < s.v.gm.ngroups, s.v.gm.slot g = S.sb.slot g
  keeps : ∀ b, 0 < tableOwn S.node b → 0 < owned s.v b
  clean : ∀ i < inodes, (s.v.files i).dirty = false → nodeOf s.v i = S.node i

section Inv

theorem MapInv.group_lt (h : MapInv s) (hb : b < s.v.gm.total) : b / s.v.gm.gb < s.v.gm.ngroups :=
  h.map.group_lt hb

theorem itabArea_le (gen : ℕ) : 2 ≤ itabArea gen ∧ itabArea gen + itabBlocks ≤ dataStart := by
  unfold itabArea
  split <;> decide

/-- The superblocks and the inode tables are not writable between commits. -/
theorem MapInv.low_not_writable (h : MapInv s) (hb : b < dataStart) : ¬ Writable s b := by
  intro hw
  have hmin := h.total_ge
  rcases hw with ⟨g, _, _, he⟩ | ⟨_, hf⟩
  · have hgb := h.gb
    simp only [groupMax] at hgb
    simp only [slotBlock, hgb, dataStart, itabArea1, itabArea0, itabBlocks] at he hb
    split at he <;> omega
  · have hr : reservedBlock s.v.gm b = true := h.map.reserved_low hb
    rw [h.used_of_reserved (by omega) hr] at hf
    exact absurd hf (by simp)

theorem mod_two_lt (n : ℕ) : n % 2 < dataStart := lt_trans (Nat.mod_lt n (by decide)) (by decide)

/-- Nothing the committed state reaches may be written. -/
theorem Inv.not_writable (h : Inv s S) (hp : Protected s.v.gm S b) : ¬ Writable s b := by
  have harea := itabArea_le S.sb.gen
  rcases hp with hp | hp | ⟨g, hg, rfl⟩ | hp
  · exact h.map.low_not_writable (hp ▸ mod_two_lt _)
  · exact h.map.low_not_writable (by omega)
  · have hs := h.good.map.slot_le g hg
    intro hw
    rcases hw with ⟨g', hg', _, he⟩ | ⟨hlt, hf⟩
    · have hs' := h.good.map.slot_le g' hg'
      obtain ⟨h1, h2⟩ := h.map.map.slotBlock_inj (s := s.gst) hs (by omega) he
      subst h1
      have := h.slot g hg
      omega
    · have hr : reservedBlock s.v.gm (slotBlock s.v.gm g (S.sb.slot g)) = true :=
        h.map.map.reserved_slot hs
      rw [h.map.used_of_reserved hlt hr] at hf
      exact absurd hf (by simp)
  · exact h.toVolInv.not_writable (h.keeps b hp)

/-- **A step between commits** keeps the committed state. -/
theorem Inv.evolves (h : Inv s S) (hr : RamInv s') (he : Evolves s s') : Inv s' S where
  toRamInv := hr
  good := by
    have ht : s'.v.gm.total = s.v.gm.total := by rw [hr.map.total, h.map.total, he.total]
    refine (h.good.frame (fun b hb => ?_) (fun f hf => ?_)
      fun b hb => h.map.group_lt hb).congr_map he.gb ht he.ngroups
    · exact he.wrote.block_eq he.disk_le (h.not_writable hb)
    · rw [he.wrote.block_eq he.disk_le (h.map.low_not_writable (mod_two_lt _))] at hf
      exact h.good.other f hf
  gen := he.gen.trans h.gen
  slot g hg := by
    rw [he.slot]
    exact h.slot g (he.ngroups ▸ hg)
  keeps b hb := he.owned_mono b (h.keeps b hb)
  clean i hi hd := by
    obtain ⟨h1, h2⟩ := he.clean i hi hd
    rw [h2]
    exact h.clean i hi h1

end Inv

end Xasmos.Exfs
