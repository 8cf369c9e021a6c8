import Xasmos.Exfs.Crash

/-!
# Files are byte arrays

A file of `size` bytes has `⌈size / 4096⌉` blocks, and the bytes of its last block past
`size` are zero (`Full`).  The second half is what makes the gap of a write past the end
read as zero.  Every call keeps it, for the nodes in memory and for those of the committed
state a mount goes back to, so in every state of a run the calls on a file are those of a
byte array (`ByteArrayLaw`).

## Main definitions

* `Full` — the blocks of a node hold its content.
* `Entry.splice` — a byte array with a range replaced, extended with zeros.
* `ByteArrayLaw` — what a state promises about the next call.
-/

namespace Xasmos.Exfs

open Bytes Prog

variable {T T' : ℕ → Option Node} {bs bs' fresh old : List ℕ} {buf : Bytes} {c c' : ℕ → Bytes}
  {d i len n off p size stop type w : ℕ} {f f' : Node} {name : CStr} {s s' : St}

/-! ## Bytes of a list of blocks -/

section Pages

/-- The pages of `exfs_write` hold the buffer, and zeros past it. -/
theorem dataPage_at (buf : Bytes) (len p : ℕ) :
    dataPage buf len (p / blockBytes) (p % blockBytes) = if p < len then buf p else 0 := by
  have hdiv := Nat.div_add_mod p blockBytes
  have hmod := Nat.mod_lt p (by decide : 0 < blockBytes)
  rw [Nat.mul_comm] at hdiv
  rw [dataPage, hdiv]
  by_cases h : p < len
  · rw [if_pos h, if_pos (by omega)]
  · rw [if_neg h, if_neg (by omega)]

/-- The content of the old blocks, extended with zeros. -/
def zeroExt (c : ℕ → Bytes) (bs : List ℕ) (size p : ℕ) : UInt8 :=
  if p < size then byteAt c bs p else 0

/-- The pages of `exfs_write_at` hold the buffer in the range and the old content, extended
with zeros, outside it. -/
theorem rangePage_at (hsize : size ≤ old.length * blockBytes) :
    rangePage c old size buf off stop (p / blockBytes) (p % blockBytes) =
      if off ≤ p ∧ p < stop then buf (p - off) else zeroExt c old size p := by
  have hdiv := Nat.div_add_mod p blockBytes
  have hmod := Nat.mod_lt p (by decide : 0 < blockBytes)
  rw [Nat.mul_comm] at hdiv
  have hiff : (max off (p / blockBytes * blockBytes) ≤ p ∧
      p < min stop (p / blockBytes * blockBytes + blockBytes)) ↔ off ≤ p ∧ p < stop := by
    omega
  rw [rangePage, hdiv, if_congr hiff rfl rfl]
  by_cases hin : off ≤ p ∧ p < stop
  · rw [if_pos hin, if_pos hin]
  · rw [if_neg hin, if_neg hin, oldPage, zeroExt]
    by_cases hl : p / blockBytes < old.length
    · -- a page the range does not cover starts from the old one
      have hpart : ¬ (off ≤ p / blockBytes * blockBytes ∧
          p / blockBytes * blockBytes + blockBytes ≤ stop) := by
        omega
      rw [if_pos ⟨hpart, hl⟩, byteAt]
      by_cases hp : p < size
      · rw [if_pos hp, if_neg (by omega)]
      · rw [if_neg hp, if_pos (by omega)]
    · have hp : ¬ p < size := by
        have := Nat.mul_le_mul_right blockBytes (not_lt.mp hl)
        omega
      rw [if_neg fun h => hl h.2, if_neg hp]

/-- **The bytes after `exfs_write_at`.** -/
theorem byteAt_splice (hsize : size ≤ old.length * blockBytes)
    (htail : ∀ p, size ≤ p → p < old.length * blockBytes → byteAt c old p = 0) (hpos : off < stop)
    (hw : w = min (off / blockBytes) old.length)
    (hlen : fresh.length = (stop - 1) / blockBytes - w + 1) (hold : ∀ b ∈ old, c' b = c b)
    (hpage : ∀ k < fresh.length, c' (fresh.getD k 0) = rangePage c old size buf off stop (w + k))
    (hp : p < (old.take w ++ fresh ++ old.drop ((stop - 1) / blockBytes + 1)).length * blockBytes) :
    byteAt c' (old.take w ++ fresh ++ old.drop ((stop - 1) / blockBytes + 1)) p =
      if off ≤ p ∧ p < stop then buf (p - off) else zeroExt c old size p := by
  have hdiv := Nat.div_add_mod p blockBytes
  have hmod := Nat.mod_lt p (by decide : 0 < blockBytes)
  have hwle : w ≤ old.length := by omega
  have hwoff : w * blockBytes ≤ off := by
    have := Nat.div_mul_le_self off blockBytes
    have := Nat.mul_le_mul_right blockBytes (show w ≤ off / blockBytes by omega)
    omega
  have hwl : w ≤ (stop - 1) / blockBytes := by
    have := Nat.div_le_div_right (c := blockBytes) (show off ≤ stop - 1 by omega)
    omega
  have htake : (old.take w).length = w := by rw [List.length_take, Nat.min_eq_left hwle]
  have hfront : (old.take w ++ fresh).length = (stop - 1) / blockBytes + 1 := by
    rw [List.length_append, htake, hlen]
    omega
  -- outside the fresh pages the block is an old one, away from the range
  have hkept : ∀ l, l = p / blockBytes → l < old.length → ¬ (off ≤ p ∧ p < stop) →
      c' (old.getD l 0) (p % blockBytes) =
        if off ≤ p ∧ p < stop then buf (p - off) else zeroExt c old size p := by
    intro l hl hlt hout
    have hmem : old.getD l 0 ∈ old := by
      rw [List.getD_eq_getElem _ _ hlt]
      exact List.getElem_mem _
    rw [if_neg hout, hold _ hmem, zeroExt]
    have hbyte : c (old.getD l 0) (p % blockBytes) = byteAt c old p := by rw [byteAt, hl]
    rw [hbyte]
    by_cases hps : p < size
    · rw [if_pos hps]
    · rw [if_neg hps]
      refine htail p (not_lt.mp hps) ?_
      have := Nat.mul_le_mul_right blockBytes (Nat.succ_le_of_lt hlt)
      rw [Nat.succ_mul, hl] at this
      rw [Nat.mul_comm] at hdiv
      omega
  rw [byteAt]
  rcases Nat.lt_or_ge (p / blockBytes) w with hlow | hlow
  · rw [List.append_assoc, List.getD_append _ _ _ _ (by rw [htake]; exact hlow)]
    have htk : (old.take w).getD (p / blockBytes) 0 = old.getD (p / blockBytes) 0 := by
      rw [List.getD_eq_getElem _ _ (by rw [htake]; exact hlow), List.getElem_take,
        List.getD_eq_getElem _ _ (by omega)]
    rw [htk]
    refine hkept _ rfl (by omega) fun hin => ?_
    have := Nat.mul_le_mul_right blockBytes (Nat.succ_le_of_lt hlow)
    rw [Nat.succ_mul] at this
    rw [Nat.mul_comm] at hdiv
    omega
  · rcases Nat.lt_or_ge (p / blockBytes) ((stop - 1) / blockBytes + 1) with hmid | hhigh
    · rw [List.getD_append _ _ _ _ (by rw [hfront]; exact hmid), List.getD_append_right _ _ _ _
        (by rw [htake]; exact hlow), htake, hpage _ (by omega), Nat.add_sub_cancel' hlow,
        rangePage_at hsize]
    · rw [List.getD_append_right _ _ _ _ (by rw [hfront]; exact hhigh), hfront]
      rw [List.length_append, hfront, List.length_drop] at hp
      have hlt : p / blockBytes < (stop - 1) / blockBytes + 1 +
          (old.length - ((stop - 1) / blockBytes + 1)) :=
          Nat.div_lt_of_lt_mul (by rw [Nat.mul_comm]; exact hp)
      have hdrop : (old.drop ((stop - 1) / blockBytes + 1)).getD
          (p / blockBytes - ((stop - 1) / blockBytes + 1)) 0 = old.getD (p / blockBytes) 0 := by
        rw [List.getD_eq_getElem _ _ (by rw [List.length_drop]; omega), List.getElem_drop,
          List.getD_eq_getElem _ _ (by omega)]
        congr 1
        omega
      rw [hdrop]
      refine hkept _ rfl (by omega) fun hin => ?_
      have h1 : p / blockBytes ≤ (stop - 1) / blockBytes := Nat.div_le_div_right (by omega)
      omega

end Pages

/-! ## Full nodes -/

/-- The blocks of a node reach its size, and hold zeros past it. -/
structure Full (c : ℕ → Bytes) (f : Node) : Prop where
  length : (blocks f.exts).length = (f.size + blockBytes - 1) / blockBytes
  tail : ∀ p, f.size ≤ p → p < (blocks f.exts).length * blockBytes → byteAt c (blocks f.exts) p = 0

/-- Every node of a table is full, and no two have one name. -/
structure FullTable (c : ℕ → Bytes) (T : ℕ → Option Node) : Prop where
  full : ∀ i < inodes, ∀ f, T i = some f → Full c f
  distinct : ∀ i j, i < inodes → j < inodes → ∀ f g, T i = some f → T j = some g →
    f.name = g.name → i = j

/-- A byte array with `[off, off + len)` replaced, extended with zeros to its new end. -/
def Entry.splice (e : Entry) (off : ℕ) (buf : Bytes) (len : ℕ) : Entry where
  type := e.type
  size := max e.size (off + len)
  byte p := if off ≤ p ∧ p < off + len then some (buf (p - off)) else
    if p < e.size then e.byte p else if p < max e.size (off + len) then some 0 else none

section Full

theorem Full.size_le (h : Full c f) : f.size ≤ (blocks f.exts).length * blockBytes := by
  rw [h.length]
  have := Nat.div_add_mod (f.size + blockBytes - 1) blockBytes
  have := Nat.mod_lt (f.size + blockBytes - 1) (by decide : 0 < blockBytes)
  have hb : blockBytes = 4096 := rfl
  rw [Nat.mul_comm]
  omega

/-- A full node has a byte at each offset before its end. -/
theorem Full.fileByte_eq (h : Full c f) (p : ℕ) :
    fileByte c f p = if p < f.size then some (byteAt c (blocks f.exts) p) else none := by
  rw [fileByte]
  split
  · rename_i hp
    have hlt : p / blockBytes < (blocks f.exts).length :=
      Nat.div_lt_of_lt_mul (by rw [Nat.mul_comm]; exact lt_of_lt_of_le hp h.size_le)
    rw [List.getElem?_eq_getElem hlt, Option.map_some, byteAt, List.getD_eq_getElem _ _ hlt]
  · rfl

theorem Full.congr (h : Full c f) (hx : f'.exts = f.exts) (hs : f'.size = f.size)
    (hc : ∀ b ∈ blocks f.exts, c' b = c b) : Full c' f' := by
  refine ⟨by rw [hx, hs]; exact h.length, fun p h1 h2 => ?_⟩
  rw [hx] at h2 ⊢
  rw [hs] at h1
  have hlt : p / blockBytes < (blocks f.exts).length :=
    Nat.div_lt_of_lt_mul (by rw [Nat.mul_comm]; exact h2)
  have hmem : (blocks f.exts).getD (p / blockBytes) 0 ∈ blocks f.exts := by
    rw [List.getD_eq_getElem _ _ hlt]
    exact List.getElem_mem _
  rw [byteAt, hc _ hmem]
  exact h.tail p h1 h2

theorem full_empty (c : ℕ → Bytes) (type : ℕ) (name : List UInt8) :
    Full c ⟨type, 0, name, [], []⟩ :=
  ⟨by simp [blockBytes], fun p _ h => absurd h (by simp)⟩

/-- A table whose nodes have the names, lists and sizes of a full one is full. -/
theorem FullTable.congr (h : FullTable c T)
    (hT : ∀ i < inodes, ∀ f', T' i = some f' →
      ∃ f, T i = some f ∧ f'.exts = f.exts ∧ f'.size = f.size ∧ f'.name = f.name)
    (hc : ∀ b, 0 < tableOwn T b → c' b = c b) : FullTable c' T' := by
  refine ⟨fun i hi f' hf' => ?_, fun i j hi hj f' g' hf' hg' he => ?_⟩
  · obtain ⟨f, hf, hx, hs, _⟩ := hT i hi f' hf'
    exact (h.full i hi f hf).congr hx hs fun b hb => hc b (tableOwn_pos_of_exts hi hf hb)
  · obtain ⟨f, hf, _, _, hfn⟩ := hT i hi f' hf'
    obtain ⟨g, hg, _, _, hgn⟩ := hT j hj g' hg'
    exact h.distinct i j hi hj f g hf hg (hfn.symm.trans (he.trans hgn))

/-- The nodes apart from `i` do not have the name of node `i`. -/
theorem FullTable.name_ne (h : FullTable c T) (hi : i < inodes) (hf : T i = some f) :
    ∀ j < inodes, j ≠ i → ∀ g, T j = some g → g.name ≠ f.name := fun j hj hji g hg he =>
  hji (h.distinct j i hj hi g f hg hf he)

/-- The tables differ in node `i` alone, which has the name `name` before and after if it is
there; no other node has that name. -/
structure OneNode (i : ℕ) (name : List UInt8) (T T' : ℕ → Option Node) : Prop where
  lt : i < inodes
  same : ∀ j < inodes, j ≠ i → T' j = T j
  before : ∀ f, T i = some f → f.name = name
  after : ∀ f, T' i = some f → f.name = name
  other : ∀ j < inodes, j ≠ i → ∀ g, T j = some g → g.name ≠ name

variable {name : List UInt8}

/-- A change of one node that leaves it full. -/
theorem FullTable.update (h : FullTable c T) (hT : OneNode i name T T')
    (hi : ∀ f, T' i = some f → Full c' f) (hc : ∀ b, 0 < tableOwn T b → c' b = c b) :
    FullTable c' T' := by
  have hne : ∀ j k, j < inodes → k < inodes → k = i → j ≠ i → ∀ f g, T' j = some f → T' k = some g →
      f.name ≠ g.name := by
    intro j k hj _ hk hji f g hf hg he
    rw [hT.same j hj hji] at hf
    exact hT.other j hj hji f hf (he.trans (hT.after g (hk ▸ hg)))
  refine ⟨fun j hj f hf => ?_, fun j k hj hk f g hf hg he => ?_⟩
  · by_cases hji : j = i
    · exact hi f (hji ▸ hf)
    · rw [hT.same j hj hji] at hf
      exact (h.full j hj f hf).congr rfl rfl fun b hb => hc b (tableOwn_pos_of_exts hj hf hb)
  · by_cases hji : j = i
    · by_contra hjk
      exact hne k j hk hj hji (fun hk' => hjk (hji.trans hk'.symm)) g f hg hf he.symm
    · by_cases hki : k = i
      · exact absurd he (hne j k hj hk hki hji f g hf hg)
      · rw [hT.same j hj hji] at hf
        rw [hT.same k hk hki] at hg
        exact h.distinct j k hj hk f g hf hg he

/-- A change of one node is seen under its name only. -/
theorem OneNode.viewOf (hT : OneNode i name T T') (hc : ∀ b, 0 < tableOwn T b → c' b = c b) :
    viewOf T' c' name = (T' i).map (entryOf c') ∧
      ∀ other, other ≠ name → Exfs.viewOf T' c' other = Exfs.viewOf T c other := by
  have hother : ∀ j < inodes, j ≠ i → ∀ g, T' j = some g → g.name ≠ name := by
    intro j hj hji g hg
    exact hT.other j hj hji g (hT.same j hj hji ▸ hg)
  constructor
  · rw [Exfs.viewOf]
    cases hf : T' i with
    | none =>
      rw [findNode_none, Option.bind_none, Option.map_none]
      intro j hj g hg
      by_cases hji : j = i
      · rw [hji, hf] at hg
        exact absurd hg (by simp)
      · exact hother j hj hji g hg
    | some f => rw [findNode_of_node hT.lt hf (hT.after f hf) hother, Option.bind_some, hf]
  · intro other hne
    have hfind : findNode T' other = findNode T other := by
      refine find?_congr_of_mem fun j hj => ?_
      by_cases hji : j = i
      · have hno : ∀ o : Option Node, (∀ f, o = some f → f.name = name) →
            (o.any fun f => f.name = other) = false := by
          intro o ho
          cases o with
          | none => rfl
          | some f => simp [ho f rfl, hne.symm]
        rw [hji, hno _ hT.after, hno _ hT.before]
      · rw [hT.same j (List.mem_range.mp hj) hji]
    rw [Exfs.viewOf, Exfs.viewOf, hfind]
    cases ho : findNode T other with
    | none => rfl
    | some j =>
      obtain ⟨hj, g, hg, hgo⟩ := findNode_some ho
      have hji : j ≠ i := fun hji => hne (hgo.symm.trans (hT.before g (hji ▸ hg)))
      rw [Option.bind_some, Option.bind_some, hT.same j hj hji, hg, Option.map_some,
        Option.map_some,
        entryOf, entryOf, fileByte_congr fun b hb => hc b (tableOwn_pos_of_exts hj hg hb)]

/-- What the pages of `exfs_write` make of a node. -/
theorem full_of_write (hlen : (blocks f.exts).length = (f.size + blockBytes - 1) / blockBytes)
    (hpage : ∀ k < (blocks f.exts).length, c ((blocks f.exts).getD k 0) = dataPage buf f.size k) :
    Full c f ∧ fileByte c f = fun p => if p < f.size then some (buf p) else none := by
  have hbyte : ∀ p < (blocks f.exts).length * blockBytes,
      byteAt c (blocks f.exts) p = if p < f.size then buf p else 0 := by
    intro p hp
    rw [byteAt, hpage _ (Nat.div_lt_of_lt_mul (by rw [Nat.mul_comm]; exact hp)), dataPage_at]
  have hfull : Full c f := ⟨hlen, fun p h1 h2 => by rw [hbyte p h2, if_neg (not_lt.mpr h1)]⟩
  refine ⟨hfull, funext fun p => ?_⟩
  rw [hfull.fileByte_eq]
  by_cases hp : p < f.size
  · rw [if_pos hp, if_pos hp, hbyte p (lt_of_lt_of_le hp hfull.size_le), if_pos hp]
  · rw [if_neg hp, if_neg hp]

/-- What the pages of `exfs_write_at` make of a node. -/
theorem full_of_writeAt (h : Full c f) (hpos : 0 < len)
    (hw : w = min (off / blockBytes) (blocks f.exts).length)
    (hblocks : blocks f'.exts = (blocks f.exts).take w ++ fresh ++
      (blocks f.exts).drop ((off + len - 1) / blockBytes + 1))
    (hlen : fresh.length = (off + len - 1) / blockBytes - w + 1) (htype : f'.type = f.type)
    (hsize : f'.size = max f.size (off + len)) (hold : ∀ b ∈ blocks f.exts, c' b = c b)
    (hpage : ∀ k < fresh.length,
      c' (fresh.getD k 0) = rangePage c (blocks f.exts) f.size buf off (off + len) (w + k)) :
    Full c' f' ∧ entryOf c' f' = (entryOf c f).splice off buf len := by
  have hbyte : ∀ p < (blocks f'.exts).length * blockBytes, byteAt c' (blocks f'.exts) p =
      if off ≤ p ∧ p < off + len then buf (p - off) else zeroExt c (blocks f.exts) f.size p := by
    intro p hp
    rw [hblocks] at hp ⊢
    exact byteAt_splice h.size_le h.tail (by omega) hw hlen hold hpage hp
  have hcount : (blocks f'.exts).length = (f'.size + blockBytes - 1) / blockBytes := by
    have hl := h.length
    have hmono := Nat.div_le_div_right (c := blockBytes) (show off ≤ off + len - 1 by omega)
    rw [hblocks, List.length_append, List.length_append, List.length_take, List.length_drop,
      hlen, hsize]
    have hstop : (off + len + blockBytes - 1) / blockBytes = (off + len - 1) / blockBytes + 1 := by
      rw [← Nat.add_div_right _ (by decide)]
      congr 1
      omega
    have hmax : (max f.size (off + len) + blockBytes - 1) / blockBytes =
        max ((f.size + blockBytes - 1) / blockBytes) ((off + len - 1) / blockBytes + 1) := by
      rw [← hstop]
      rcases Nat.le_total f.size (off + len) with hle | hle
      · rw [Nat.max_eq_right hle, Nat.max_eq_right (Nat.div_le_div_right (by omega))]
      · rw [Nat.max_eq_left hle, Nat.max_eq_left (Nat.div_le_div_right (by omega))]
    rw [hmax, ← hl]
    omega
  have hfull : Full c' f' := by
    refine ⟨hcount, fun p h1 h2 => ?_⟩
    rw [hbyte p h2, if_neg (by omega), zeroExt, if_neg (by omega)]
  refine ⟨hfull, ?_⟩
  have hb : fileByte c' f' = ((entryOf c f).splice off buf len).byte := by
    funext p
    rw [hfull.fileByte_eq]
    simp only [Entry.splice, entryOf, ← hsize]
    by_cases hp : p < f'.size
    · rw [if_pos hp, hbyte p (lt_of_lt_of_le hp hfull.size_le), zeroExt]
      by_cases hin : off ≤ p ∧ p < off + len
      · rw [if_pos hin, if_pos hin]
      · rw [if_neg hin, if_neg hin, h.fileByte_eq]
        by_cases hps : p < f.size
        · rw [if_pos hps, if_pos hps, if_pos hps]
        · rw [if_neg hps, if_neg hps, if_pos hp]
    · rw [if_neg hp, if_neg (by omega), if_neg (by omega), if_neg hp]
  rw [entryOf, hb, htype, hsize]
  rfl

end Full

/-! ## What the calls do to a byte array -/

section Calls

/-- In `s'` the name shows `e`, and every other name what it showed in `s`. -/
def Shows (s s' : St) (name : List UInt8) (e : Option Entry) : Prop :=
  view s' name = e ∧ ∀ other, other ≠ name → view s' other = view s other

/-- A call that fails leaves every node full, and nothing else to see. -/
theorem Staged.fullTable (h : RamInv s) (hfull : FullTable s.disk.block (nodeOf s.v))
    (hs : Staged s s' [] (0, 0)) : FullTable s'.disk.block (nodeOf s'.v) ∧ view s' = view s :=
  ⟨hfull.congr (fun _ hi f hf => ⟨f, by rw [← hs.nodeOf_eq hi]; exact hf, rfl, rfl, rfl⟩)
      fun _ hb =>
    hs.evolves.block_eq h.toVolInv (owned_of_tableOwn hb), hs.view_eq h.toVolInv⟩

/-- A call that changes one node leaves every node full if it leaves that one full, and shows
the change under its name. -/
theorem Changed.shows (h : RamInv s) (hfull : FullTable s.disk.block (nodeOf s.v))
    (hc : Changed i s s') (hT : OneNode i name.bytes (nodeOf s.v) (nodeOf s'.v))
    (hi : ∀ f, nodeOf s'.v i = some f → Full s'.disk.block f) :
    FullTable s'.disk.block (nodeOf s'.v) ∧
      Shows s s' name.bytes ((nodeOf s'.v i).map (entryOf s'.disk.block)) := by
  have hblock : ∀ b, 0 < tableOwn (nodeOf s.v) b → s'.disk.block b = s.disk.block b := fun _ hb =>
    hc.evolves.block_eq h.toVolInv (owned_of_tableOwn hb)
  exact ⟨hfull.update hT hi hblock, hT.viewOf hblock⟩

/-- The node found under a name, before a call that changes it. -/
theorem FullTable.oneNode (h : RamInv s) (hfull : FullTable s.disk.block (nodeOf s.v))
    (hfind : find s.v name.bytes = some i) (hc : Changed i s s')
    (hafter : ∀ f, nodeOf s'.v i = some f → f.name = name.bytes) :
    OneNode i name.bytes (nodeOf s.v) (nodeOf s'.v) := by
  rw [find_eq h.toVolInv name.no_nul] at hfind
  obtain ⟨hi, f, hf, hname⟩ := findNode_some hfind
  refine ⟨hi, hc.other, fun g hg => ?_, hafter, fun j hj hji g hg => ?_⟩
  · rw [hf] at hg
    rw [← Option.some.inj hg, hname]
  · rw [← hname]
    exact hfull.name_ne hi hf j hj hji g hg

/-- What a write shows. -/
theorem Written.shows {st : List ExfsExtent} (h : RamInv s)
    (hfull : FullTable s.disk.block (nodeOf s.v)) (hw : Written i s s' size st)
    (hfind : find s.v name.bytes = some i)
    (hi : Full s'.disk.block ⟨typeFile, size, cname (s.v.files i).name, st, []⟩) :
    FullTable s'.disk.block (nodeOf s'.v) ∧ Shows s s' name.bytes
      (some (entryOf s'.disk.block ⟨typeFile, size, cname (s.v.files i).name, st, []⟩)) := by
  have hname : cname (s.v.files i).name = name.bytes := by
    rw [find_eq h.toVolInv name.no_nul] at hfind
    obtain ⟨_, f, hf, hn⟩ := findNode_some hfind
    rw [hw.before] at hf
    rw [← hn, ← Option.some.inj hf]
  have hshows := hw.toChanged.shows h hfull (hfull.oneNode h hfind hw.toChanged fun f hf => by
    rw [hw.node] at hf
    rw [← Option.some.inj hf, hname]) fun f hf => by
    rw [hw.node] at hf
    exact Option.some.inj hf ▸ hi
  rwa [hw.node] at hshows

theorem view_of_find (h : RamInv s) (hfind : find s.v name.bytes = some i)
    (hf : nodeOf s.v i = some f) : view s name.bytes = some (entryOf s.disk.block f) := by
  rw [find_eq h.toVolInv name.no_nul] at hfind
  rw [view, viewOf, hfind, Option.bind_some, hf, Option.map_some]

theorem find_of_view (h : RamInv s) {e : Entry} (hv : view s name.bytes = some e) :
    ∃ i f, find s.v name.bytes = some i ∧ nodeOf s.v i = some f ∧ e = entryOf s.disk.block f := by
  rw [view, viewOf, Option.bind_eq_some_iff] at hv
  obtain ⟨i, hi, hv⟩ := hv
  obtain ⟨f, hf, rfl⟩ := Option.map_eq_some_iff.mp hv
  exact ⟨i, f, by rw [find_eq h.toVolInv name.no_nul]; exact hi, hf, rfl⟩

/-- **`exfs_create` and `exfs_mkdir`** make an empty node. -/
theorem wp_newNode_content (h : RamInv s) (hfull : FullTable s.disk.block (nodeOf s.v))
    (htype : type < 2 ^ 32) :
    (newNode name type).wp (fun _ s' => FullTable s'.disk.block (nodeOf s'.v) ∧
      Shows s s' name.bytes (some ⟨type, 0, fun _ => none⟩)) (fun _ s' => s' = s) s := by
  refine wp_newNode h htype (fun i s' hi _ hfind hn hc hnode _ _ => ?_) fun _ _ => rfl
  have hT : OneNode i name.bytes (nodeOf s.v) (nodeOf s'.v) := by
    refine ⟨hi, hc.other, fun f hf => ?_, fun f hf => ?_, fun j hj _ g hg he => ?_⟩
    · rw [hn] at hf
      exact absurd hf (by simp)
    · rw [hnode] at hf
      rw [← Option.some.inj hf]
    · rw [find_eq h.toVolInv name.no_nul, findNode, List.find?_eq_none] at hfind
      have := hfind j (List.mem_range.mpr hj)
      rw [hg] at this
      simp [he] at this
  have hshows := hc.shows h hfull hT fun f hf => by
    rw [hnode] at hf
    exact Option.some.inj hf ▸ full_empty _ _ _
  rwa [hnode] at hshows

/-- **`exfs_delete`** removes the name. -/
theorem wp_exfsDelete_content (h : RamInv s) (hfull : FullTable s.disk.block (nodeOf s.v)) :
    (exfsDelete name).wp (fun _ s' => FullTable s'.disk.block (nodeOf s'.v) ∧
      Shows s s' name.bytes none) (fun _ s' => s' = s) s := by
  refine wp_exfsDelete h (fun i s' _ hfind hc hnode _ => ?_) fun _ => rfl
  have hgone : ∀ f, nodeOf s'.v i ≠ some f := fun f hf => by
    rw [hnode] at hf
    exact absurd hf (by simp)
  have hshows := hc.shows h hfull (hfull.oneNode h hfind hc fun f hf => absurd hf (hgone f))
      fun f hf =>
    absurd hf (hgone f)
  rwa [hnode] at hshows

/-- **`exfs_write`** makes the content the buffer. -/
theorem wp_exfsWrite_content (h : RamInv s) (hfull : FullTable s.disk.block (nodeOf s.v))
    (hlen : len ≤ 2 ^ 64 - 4096) :
    (exfsWrite name buf len).wp (fun _ s' => FullTable s'.disk.block (nodeOf s'.v) ∧
        Shows s s' name.bytes
          (some ⟨typeFile, len, fun p => if p < len then some (buf p) else none⟩))
      (fun _ s' => FullTable s'.disk.block (nodeOf s'.v) ∧ view s' = view s) s := by
  refine wp_exfsWrite h (by omega) (fun i fresh s' _ hfind hw hneed hpage _ => ?_) fun _ s' hs =>
    hs.fullTable h hfull
  have hb : blockBytes = 4096 := rfl
  rw [Nat.mod_eq_of_lt (by omega)] at hneed
  obtain ⟨h1, h2⟩ := full_of_write
    (f := ⟨typeFile, len, cname (s.v.files i).name, fresh, []⟩) hneed hpage
  have hshows := hw.shows h hfull hfind h1
  rwa [entryOf, h2] at hshows

/-- **`exfs_write_at`** splices the buffer into the content. -/
theorem wp_exfsWriteAt_content (h : RamInv s) (hfull : FullTable s.disk.block (nodeOf s.v))
    (hoff : off < 2 ^ 64) (hlen : len < 2 ^ 64) :
    (exfsWriteAt name off buf len).wp (fun _ s' => FullTable s'.disk.block (nodeOf s'.v) ∧
        ∃ e, view s name.bytes = some e ∧
          Shows s s' name.bytes (some (if len = 0 then e else e.splice off buf len)))
      (fun _ s' => FullTable s'.disk.block (nodeOf s'.v) ∧ view s' = view s) s := by
  refine wp_exfsWriteAt h hoff hlen (fun i _ hfind h0 => ?_)
    (fun i st fresh s' _ hfind hpos hw => ?_)
    fun _ s' hs => hs.fullTable h hfull
  · obtain ⟨_, hu, _⟩ := find_some hfind
    have hv := view_of_find h hfind (nodeOf_used hu)
    exact ⟨hfull, _, hv, by rw [if_pos h0]; exact hv, fun _ _ => rfl⟩
  · obtain ⟨hi, _, _⟩ := find_some hfind
    have hold : ∀ b ∈ blocks (exts s.v i), s'.disk.block b = s.disk.block b := fun b hb =>
      hw.evolves.block_eq h.toVolInv (owned_of_tableOwn (tableOwn_pos_of_exts hi hw.before hb))
    obtain ⟨h1, h2⟩ := @full_of_writeAt _ _ _ _ _ _ _ _
      ⟨typeFile, max (s.v.files i).size (off + len), cname (s.v.files i).name, st, []⟩
      (hfull.full i hi _ hw.before) hpos rfl hw.splice hw.length rfl rfl hold hw.page
    have hshows := hw.toWritten.shows h hfull hfind h1
    rw [h2] at hshows
    exact ⟨hshows.1, _, view_of_find h hfind hw.before, by rw [if_neg (by omega)]; exact hshows.2⟩

/-- **`exfs_read_at`** returns the content and never `EXFS_EIO`. -/
theorem wp_exfsReadAt_content (name : CStr) (off cap : ℕ) (h : RamInv s) (hfault : s.disk.Faultless)
    (hm : s.v.mounted = true) (hfull : FullTable s.disk.block (nodeOf s.v)) :
    (exfsReadAt name off cap).wp (fun bs s' => view s' = view s ∧
        ∃ e, view s name.bytes = some e ∧ e.type = typeFile ∧ bs.length = min cap (e.size - off) ∧
          ∀ j < bs.length, bs[j]? = e.byte (off + j))
      (fun r s' => view s' = view s ∧ r ≠ .eio ∧ ∀ e, view s name.bytes = some e →
        e.type ≠ typeFile) s := by
  have hsame : ∀ s', Staged s s' [] (0, 0) → view s' = view s := fun s' hs => hs.view_eq h.toVolInv
  refine wp_exfsReadAt h (fun i s' _ hfind htype hs => ?_) fun r s' hs h1 h2 => ?_
  · obtain ⟨hi, hu, _⟩ := find_some hfind
    have hf := nodeOf_used hu
    have hlen : ∀ n, (bytesAt s.disk.block (blocks (exts s.v i)) off n).length = n := fun n => by
      rw [bytesAt, List.length_map, List.length_range]
    refine ⟨hsame s' hs, _, view_of_find h hfind hf, htype, ?_, fun j hj => ?_⟩
    · rw [hlen, Nat.min_comm]
      rfl
    · rw [hlen] at hj
      have hin : off + j < (s.v.files i).size := by omega
      have hbyte := (hfull.full i hi _ hf).fileByte_eq (off + j)
      rw [if_pos hin] at hbyte
      rw [bytesAt, List.getElem?_map, List.getElem?_range hj, Option.map_some]
      exact hbyte.symm
  · have hno : r ≠ .eio := by
      intro he
      obtain ⟨i, hfind, hlt⟩ := h2 hfault he
      obtain ⟨hi, hu, _⟩ := find_some hfind
      exact absurd (hfull.full i hi _ (nodeOf_used hu)).size_le (not_le.mpr hlt)
    refine ⟨hsame s' hs, hno, fun e he htype => ?_⟩
    obtain ⟨i, f, hfind, hf, rfl⟩ := find_of_view h he
    obtain ⟨_, hu, _⟩ := find_some hfind
    rw [nodeOf_used hu] at hf
    obtain rfl := Option.some.inj hf
    exact hno (h1 hm i hfind htype)

end Calls

/-! ## Runs -/

/-- A caller's buffer of `exfs_write` is at most `2 ^ 64 - 4096` bytes long, so that the
number of its blocks does not wrap. -/
def Op.Legal : Op → Prop
  | .write _ _ len => len.toNat ≤ 2 ^ 64 - 4096
  | _ => True

/-- What a volume shows. -/
abbrev View := List UInt8 → Option Entry

/-- The volume and its committed state, which shows `w`, have full nodes. -/
structure ContentInv (w : View) (s : St) (S : Snap) : Prop extends Inv s S where
  full : FullTable s.disk.block (nodeOf s.v)
  saved_full : FullTable s.disk.block S.node
  shown : w = viewOf S.node s.disk.block

/-- A commit, alone or in an unmount, that succeeds. -/
def Op.saves (d : ℕ) (op : Op) (s : St) : Bool := op.commits && ((op.prog d).run s).1.isOk

/-- What a mount goes back to after the calls `ops`: what the volume showed after the last commit
that succeeded, and `w` before there was one. -/
def committedView (d : ℕ) : St → View → List Op → View
  | _, w, [] => w
  | s, w, op :: ops =>
    committedView d (stepOp d s op) (if op.saves d s then view (stepOp d s op) else w) ops

/-- The calls in state `s`, over a committed state that shows `w`, are those of a map from names
to byte arrays.  The calls that return an error, a mount apart, change nothing. -/
structure ByteArrayLaw (d : ℕ) (w : View) (s : St) : Prop where
  create : ∀ (name : CStr) (s' : St), (exfsCreate name).run s = (.ok (), s') →
    Shows s s' name.bytes (some ⟨typeFile, 0, fun _ => none⟩)
  mkdir : ∀ (name : CStr) (s' : St), (exfsMkdir name).run s = (.ok (), s') →
    Shows s s' name.bytes (some ⟨typeDir, 0, fun _ => none⟩)
  delete : ∀ (name : CStr) (s' : St), (exfsDelete name).run s = (.ok (), s') →
    Shows s s' name.bytes none
  write : ∀ (name : CStr) (buf : Bytes) (len : UInt64) (s' : St), len.toNat ≤ 2 ^ 64 - 4096 →
    (exfsWrite name buf len.toNat).run s = (.ok (), s') → Shows s s' name.bytes
      (some ⟨typeFile, len.toNat, fun p => if p < len.toNat then some (buf p) else none⟩)
  writeAt : ∀ (name : CStr) (off : UInt64) (buf : Bytes) (len : UInt64) (s' : St),
    (exfsWriteAt name off.toNat buf len.toNat).run s = (.ok (), s') →
    ∃ e, view s name.bytes = some e ∧ Shows s s' name.bytes
      (some (if len.toNat = 0 then e else e.splice off.toNat buf len.toNat))
  readAt : ∀ (name : CStr) (off cap : UInt64) (e : Entry), s.v.mounted = true →
    view s name.bytes = some e → e.type = typeFile →
    ∃ bs s', (exfsReadAt name off.toNat cap.toNat).run s = (.ok bs, s') ∧ view s' = view s ∧
      bs.length = min cap.toNat (e.size - off.toNat) ∧
      ∀ j < bs.length, bs[j]? = e.byte (off.toNat + j)
  no_eio : ∀ (name : CStr) (off cap : UInt64) (s' : St),
    (exfsReadAt name off.toNat cap.toNat).run s ≠ (.error .eio, s')
  commit : ∀ s', exfsCommit.run s = (.ok (), s') → view s' = view s
  unmount : ∀ s', exfsUnmount.run s = (.ok (), s') → view s' = view s
  mount : ∃ s', (exfsMount d).run s = (.ok (), s') ∧ s'.v.mounted = true ∧ view s' = w
  failed : ∀ (op : Op) (e : ExfsError) (s' : St), op.Legal → op ≠ .mount →
    (op.prog d).run s = (.error e, s') → view s' = view s

section Run

variable {S : Snap} {op : Op} {w : View}

/-- A call that leaves nothing to see keeps the content. -/
theorem ContentInv.kept (hS : ContentInv w s S) (hk : Keeps S s s')
    (hfull : FullTable s'.disk.block (nodeOf s'.v)) : ContentInv w s' S := by
  have hblock : ∀ b, 0 < tableOwn S.node b → s'.disk.block b = s.disk.block b := fun b hb =>
    hk.wrote.block_eq (by rw [St.disk, St.disk, hk.dev]; exact hk.le _) fun hw =>
      hw.2 (Or.inr (Or.inr (Or.inr hb)))
  refine ⟨hk.inv, hfull, hS.saved_full.congr (fun _ _ f hf => ⟨f, hf, rfl, rfl, rfl⟩) hblock, ?_⟩
  rw [hS.shown]
  exact (viewOf_congr (fun _ _ => rfl) hblock).symm

/-- A volume that is its committed state. -/
theorem Settled.content (hS : Settled s S) (hfull : FullTable s.disk.block (nodeOf s.v)) :
    ContentInv (view s) s S :=
  ⟨hS.toInv, hfull, hfull.congr
    (fun i hi f hf => ⟨f, by rw [hS.node i hi]; exact hf, rfl, rfl, rfl⟩)
    fun _ _ => rfl, viewOf_congr hS.node fun _ _ => rfl⟩

/-- A commit shows what was shown; one that succeeds leaves a volume that is its committed
state, if the generation does not wrap. -/
theorem wp_commit_content (h : RunInv d n s) (hS : ContentInv w s S) :
    exfsCommit.wp (fun _ s' => (s.v.gen + 1 < 2 ^ 64 → ∀ on, ∃ S', Settled (s'.flag on) S') ∧
      FullTable s'.disk.block (nodeOf s'.v) ∧ view s' = view s) (fun _ s' => s' = s) s := by
  refine wp_exfsCommit hS.toRamInv hS.cleanChains h.disk_faultless (fun t _ _ hc => ?_)
    (fun _ hd => ?_) fun _ _ => rfl
  · have hblock : ∀ b, 0 < tableOwn (nodeOf s.v) b → t.disk.block b = s.disk.block b := fun b hb =>
      hc.owned_block_eq hS.toVolInv (owned_of_tableOwn hb)
    refine ⟨fun hgen on => ?_, hS.full.congr (fun i hi f' hf' => ?_) hblock, ?_⟩
    · obtain ⟨S', hinv, hsaved⟩ := hc.saved_inv hS.toInv hgen on
      exact ⟨S', hinv, hsaved.node, congrArg VolCore.defer hc.core⟩
    · rw [hc.nodeOf_eq hi] at hf'
      obtain ⟨f, hf, rfl⟩ := Option.map_eq_some_iff.mp hf'
      exact ⟨f, hf, rfl, rfl, rfl⟩
    · funext name
      have hfind : findNode (nodeOf t.v) name = findNode (nodeOf s.v) name :=
          findNode_names fun i hi => by
        rw [hc.nodeOf_eq hi]
        cases nodeOf s.v i <;> rfl
      rw [view, view, viewOf, viewOf, hfind]
      cases hf : findNode (nodeOf s.v) name with
      | none => rfl
      | some i =>
        obtain ⟨hi, f, hfi, _⟩ := findNode_some hf
        rw [Option.bind_some, Option.bind_some, hc.nodeOf_eq hi, hfi, Option.map_some,
          Option.map_some, Option.map_some, entryOf, entryOf]
        congr 2
        exact fileByte_congr (f := f) fun b hb => hblock b (tableOwn_pos_of_exts hi hfi hb)
  · have hset := hS.toInv.settled_of_idle hd
    exact ⟨fun _ on => ⟨S, hset.toInv.flag on, hset.node, hset.empty⟩, hS.full, rfl⟩

/-- The calls that may make a generation. -/
theorem wp_saves (h : RunInv d n s) (hS : ContentInv w s S) (hop : op.commits = true) :
    (op.prog d).wp (fun _ s' => (s.v.gen + 1 < 2 ^ 64 → ∃ S', Settled s' S') ∧
      FullTable s'.disk.block (nodeOf s'.v) ∧ view s' = view s) (fun _ s' => s' = s) s := by
  have hcommit := wp_commit_content h hS
  cases op with
  | commit =>
    rw [Op.prog, wp_bind]
    exact wp_mono hcommit (fun _ s' _ hq => ⟨fun hg => hq.1 hg s'.v.mounted, hq.2⟩)
      fun _ _ _ he => he
  | unmount =>
    simp only [Op.prog, exfsUnmount, wp_bind, wp_get, wp_failIf]
    refine ⟨fun _ => trivial, fun _ => wp_mono hcommit (fun _ s' _ hq => ?_) fun _ _ _ he => he⟩
    exact ⟨fun hg => hq.1 hg false, hq.2⟩
  | create name | mkdir name | delete name | write name buf len | writeAt name off buf len
  | readAt name off cap | mount => exact absurd hop (by simp [Op.commits])

/-- A mount shows the committed state. -/
theorem RunInv.mounted_content (h : RunInv d n s) (hS : ContentInv w s S) (hm : Mounted d s S s') :
    FullTable s'.disk.block (nodeOf s'.v) ∧ view s' = w := by
  have hblock : s'.disk.block = s.disk.block := by
    rw [St.disk, St.disk, hm.dev, h.dev, Disk.block, Disk.block, hm.ro.cache, (hm.ro.le d).stable]
  rw [hS.shown, view, hblock]
  refine ⟨hS.saved_full.congr (fun i hi f hf => ⟨f, ?_, rfl, rfl, rfl⟩) fun _ _ => rfl,
    viewOf_congr hm.settled.node fun _ _ => rfl⟩
  rw [← hm.settled.node i hi]
  exact hf

/-- The calls that make no generation leave every node full; those that fail show what was
shown. -/
theorem wp_fullTable (h : RunInv d n s) (hS : ContentInv w s S) (hop : op.Legal)
    (hc : op.commits = false) :
    (op.prog d).wp (fun _ s' => FullTable s'.disk.block (nodeOf s'.v))
      (fun _ s' => FullTable s'.disk.block (nodeOf s'.v) ∧ view s' = view s) s := by
  have hram := hS.toRamInv
  have hsame : ∀ t, t = s → FullTable t.disk.block (nodeOf t.v) ∧ view t = view s := by
    rintro t rfl
    exact ⟨hS.full, rfl⟩
  cases op with
  | create name | mkdir name =>
    rw [Op.prog, wp_bind]
    exact wp_mono (wp_newNode_content hram hS.full (by decide)) (fun _ _ _ hq => hq.1) fun _ t _ =>
      hsame t
  | delete name =>
    rw [Op.prog, wp_bind]
    exact wp_mono (wp_exfsDelete_content hram hS.full) (fun _ _ _ hq => hq.1) fun _ t _ => hsame t
  | write name buf len =>
    rw [Op.prog, wp_bind]
    exact wp_mono (wp_exfsWrite_content hram hS.full hop) (fun _ _ _ hq => hq.1) fun _ _ _ he => he
  | writeAt name off buf len =>
    rw [Op.prog, wp_bind]
    exact wp_mono (wp_exfsWriteAt_content hram hS.full off.toNat_lt len.toNat_lt)
      (fun _ _ _ hq => hq.1) fun _ _ _ he => he
  | readAt name off cap =>
    rw [Op.prog]
    exact wp_exfsReadAt hram (fun _ s' _ _ _ hs => (hs.fullTable hram hS.full).1) fun _ s' hs _ _ =>
      hs.fullTable hram hS.full
  | commit | unmount => exact absurd hc (by simp [Op.commits])
  | mount =>
    rw [Op.prog, wp_bind]
    exact wp_exfsMount h.disk h.faultless (h.good hS.toInv) fun s' hm => (h.mounted_content hS hm).1

/-- **A step keeps the content.** -/
theorem ContentInv.step (h : RunInv d n s) (hS : ContentInv w s S) (hop : op.Legal)
    (hn : n + commits [op] < 2 ^ 64) :
    ∃ S', ContentInv (if op.saves d s then view (stepOp d s op) else w) (stepOp d s op) S' := by
  cases hc : op.commits with
  | false =>
    have hfull := (wp_mono (wp_fullTable h hS hop hc) (fun _ _ _ hq => hq) fun _ _ _ he =>
      he.1).state
    have hno : op.saves d s = false := by rw [Op.saves, hc, Bool.false_and]
    rw [hno]
    rcases stepped h hS.toInv op with hk | ⟨t, on, hop', _, _⟩
    · exact ⟨S, hS.kept hk hfull⟩
    · rw [hc] at hop'
      exact absurd hop' (by simp)
  | true =>
    have hone : commits [op] = 1 := by simp [commits, hc]
    have hgen : s.v.gen + 1 < 2 ^ 64 := by
      have := h.gen_le
      omega
    rw [Op.saves, hc, Bool.true_and, stepOp]
    have hwp := wp_saves h hS hc
    cases hr : (op.prog d).run s with
    | mk r s' =>
      cases r with
      | ok bs =>
        obtain ⟨hset, hfull, _⟩ := hwp.ok hr
        obtain ⟨S', hS'⟩ := hset hgen
        exact ⟨S', hS'.content hfull⟩
      | error e =>
        obtain rfl : s' = s := hwp.error hr
        exact ⟨S, hS⟩

/-- **Every state of a run holds its content.** -/
theorem ContentInv.run {ops : List Op} (h : RunInv d n s) (hS : ContentInv w s S)
    (hop : ∀ op ∈ ops, op.Legal) (hn : n + commits ops < 2 ^ 64) :
    ∃ S', ContentInv (committedView d s w ops) (runOps d s ops) S' := by
  induction ops generalizing s n S w with
  | nil => exact ⟨S, hS⟩
  | cons op ops ih =>
    have hsplit := commits_cons op ops
    obtain ⟨S', hS'⟩ := hS.step h (hop op List.mem_cons_self) (by omega)
    exact ih (h.step (by omega)) hS' (fun o ho => hop o (List.mem_cons_of_mem _ ho)) (by omega)

/-- A run starts with full nodes. -/
theorem Start.content (h : Start d s) : ∃ S, ContentInv (view s) s S := by
  obtain ⟨_, S, hinv, hsaved⟩ := h.saved
  have hnode : ∀ i < inodes, ∀ f, nodeOf s.v i = some f → ∃ name, freshDirs[i]? = some name ∧
      f = ⟨typeDir, 0, name, [], []⟩ := by
    intro i hi f hf
    rw [h.node hi, freshNode] at hf
    obtain ⟨name, hname, rfl⟩ := Option.map_eq_some_iff.mp hf
    exact ⟨name, hname, rfl⟩
  refine ⟨S, Settled.content ⟨hinv, hsaved.node, hinv.idle h.fresh.2.2⟩ ⟨fun i hi f hf => ?_,
    fun i j hi hj f g hf hg he => ?_⟩⟩
  · obtain ⟨name, _, rfl⟩ := hnode i hi f hf
    exact full_empty _ _ _
  · obtain ⟨name, hname, rfl⟩ := hnode i hi f hf
    obtain ⟨name', hname', rfl⟩ := hnode j hj g hg
    obtain rfl : name = name' := he
    exact (List.getElem?_inj (List.getElem?_eq_some_iff.mp hname).1 (by decide)).mp
      (hname.trans hname'.symm)

/-- A state with full nodes keeps the law. -/
theorem ContentInv.law (h : RunInv d n s) (hS : ContentInv w s S) : ByteArrayLaw d w s where
  create name s' hrun := ((wp_newNode_content hS.toRamInv hS.full (by decide)).ok hrun).2
  mkdir name s' hrun := ((wp_newNode_content hS.toRamInv hS.full (by decide)).ok hrun).2
  delete name s' hrun := ((wp_exfsDelete_content hS.toRamInv hS.full).ok hrun).2
  write name buf len s' hlen hrun := ((wp_exfsWrite_content hS.toRamInv hS.full hlen).ok hrun).2
  writeAt name off buf len s' hrun :=
    ((wp_exfsWriteAt_content hS.toRamInv hS.full off.toNat_lt len.toNat_lt).ok hrun).2
  readAt name off cap e hm he htype := by
    have hwp := wp_exfsReadAt_content name off.toNat cap.toNat hS.toRamInv h.disk_faultless hm
      hS.full
    cases hr : (exfsReadAt name off.toNat cap.toNat).run s with
    | mk r s' =>
      cases r with
      | error err => exact absurd htype ((hwp.error hr).2.2 e he)
      | ok bs =>
        obtain ⟨hview, e', he', _, hlen, hbytes⟩ := hwp.ok hr
        obtain rfl : e = e' := Option.some.inj (he.symm.trans he')
        exact ⟨bs, s', rfl, hview, hlen, hbytes⟩
  no_eio name off cap s' hrun := by
    cases hm : s.v.mounted with
    | true =>
      exact ((wp_exfsReadAt_content name off.toNat cap.toNat hS.toRamInv h.disk_faultless hm
        hS.full).error hrun).2.1 rfl
    | false =>
      have hwp : (exfsReadAt name off.toNat cap.toNat).wp (fun _ _ => True)
          (fun e _ => e ≠ .eio) s := by
        simp [exfsReadAt, hm]
      exact hwp.error hrun rfl
  commit s' hrun := ((wp_commit_content h hS).ok hrun).2.2
  unmount s' hrun := ((wp_saves h hS (rfl : Op.unmount.commits = true)).ok (run_bind_ok hrun)).2.2
  mount := by
    obtain ⟨_, s', hrun, hm⟩ := (wp_exfsMount h.disk h.faultless (h.good hS.toInv)
      (Q := fun _ s' => Mounted d s S s') (E := fun _ _ => False) fun _ hm => hm).exists_ok
    exact ⟨s', hrun, hm.mounted, (h.mounted_content hS hm).2⟩
  failed op e s' hop hno hrun := by
    cases hc : op.commits with
    | false => exact ((wp_fullTable h hS hop hc).error hrun).2
    | true => rw [(wp_saves h hS hc).error hrun]

/-- **Files are byte arrays** in every state of a run of fewer than `2 ^ 64 - 1` commits, and a
mount shows them as the last commit that succeeded left them. -/
theorem run_byteArray (s₀ : St) (ops : List Op) (hstart : Start d s₀) (hop : ∀ op ∈ ops, op.Legal)
    (hn : commits ops + 1 < 2 ^ 64) :
    ByteArrayLaw d (committedView d s₀ (view s₀) ops) (runOps d s₀ ops) := by
  obtain ⟨S, hS⟩ := hstart.content
  obtain ⟨S', hS'⟩ := hS.run hstart.saved.1 hop (by omega)
  exact hS'.law (hstart.run hn)

/-- The file `|a` has one byte at its commit and is written again with two. -/
theorem run_byteArray_rewritten : ∃ s₀ s₁ s₂, Start 0 s₀ ∧
    (exfsReadAt nameA (0 : UInt64).toNat (9 : UInt64).toNat).run
      (runOps 0 s₀ (savedOps ++ rewriteOps)) = (.ok [2, 2], s₁) ∧
    (exfsMount 0).run (runOps 0 s₀ (savedOps ++ rewriteOps)) = (.ok (), s₂) ∧
    (view s₂ nameA.bytes).map Entry.size = some 1 := by
  obtain ⟨s₀, i, b, b', h⟩ := exists_rewritten
  have hlegal : ∀ op ∈ savedOps ++ rewriteOps, op.Legal := by
    simp [savedOps, fillOps, rewriteOps, Op.Legal]
  have hwrote := ((run_byteArray s₀ savedOps h.start
    (fun op ho => hlegal op (List.mem_append_left _ ho))
    (by decide)).write nameA (fun _ => 2) 2 _ (by decide) h.rewrite).1
  have hlaw := run_byteArray s₀ (savedOps ++ rewriteOps) h.start hlegal (by decide)
  obtain ⟨bs, s₁, hread, _, hlen, hbytes⟩ := hlaw.readAt nameA 0 9 _ h.again.mounted hwrote rfl
  obtain ⟨s₂, hmount, _, hview⟩ := hlaw.mount
  have hw : committedView 0 s₀ (view s₀) (savedOps ++ rewriteOps) =
      view (runOps 0 s₀ savedOps) := by
    have hsaves : Op.commit.saves 0 (runOps 0 s₀ fillOps) = true := by
      rw [Op.saves, Op.prog, run_bind_ok h.commit]
      rfl
    have hno : ∀ op s, op.commits = false → Op.saves 0 op s = false := fun op s hop => by
      rw [Op.saves, hop, Bool.false_and]
    have hlist : savedOps ++ rewriteOps = [.create nameA, .write nameA (fun _ => 1) 1, .commit,
      .write nameA (fun _ => 2) 2] := rfl
    rw [hlist]
    simp only [committedView, hno (.create _) _ rfl, hno (.write _ _ _) _ rfl]
    exact if_pos hsaves
  refine ⟨s₀, s₁, s₂, h.start, ?_, hmount, ?_⟩
  · obtain rfl : bs = [2, 2] := by
      have h2 : bs.length = 2 := hlen
      obtain ⟨x, y, rfl⟩ := List.length_eq_two.mp h2
      have hx := hbytes 0 (by simp)
      have hy := hbytes 1 (by simp)
      simp at hx hy
      rw [hx, hy]
    exact hread
  · rw [hview, hw, h.saved.view_size]

/-- A write of no bytes returns at once. -/
theorem exfsWriteAt_none (hm : s.v.mounted = true) (hb : s.v.broken = false)
    (hfind : find s.v name.bytes = some i) (htype : (s.v.files i).type = typeFile) :
    (exfsWriteAt name off buf 0).run s = (.ok (), s) := by
  have hwp : (exfsWriteAt name off buf 0).wp (fun _ s' => s' = s) (fun _ _ => False) s := by
    simp [exfsWriteAt, requireLive, lookup, hm, hb, hfind, htype]
  obtain ⟨_, s', hrun, rfl⟩ := hwp.exists_ok
  exact hrun

/-- A write of no bytes past the end of an empty file succeeds, and the file is still
empty: it is not extended to the offset. -/
theorem writeAt_none_keeps_size : ∃ s₀ s₁ e, Start 0 s₀ ∧ (exfsCreate nameA).run s₀ = (.ok (), s₁) ∧
    (exfsWriteAt nameA 1 (fun _ => 0) 0).run s₁ = (.ok (), s₁) ∧
    view s₁ nameA.bytes = some e ∧ e.size = 0 ∧ max e.size (1 + 0) = 1 := by
  obtain ⟨s₀, h⟩ := exists_start
  obtain ⟨s₁, i, hrun, _, _, hc, hnode, _, hcore, hfind⟩ :=
    h.create (show nameOk nameA.bytes = true by decide) (by decide) (by decide)
  have hmounted : s₁.v.mounted = true := (congrArg VolCore.mounted hcore).trans h.fresh.2.1
  have htype : (s₁.v.files i).type = typeFile := by
    rw [nodeOf_used (find_some hfind).2.1] at hnode
    exact congrArg Node.type (Option.some.inj hnode)
  exact ⟨s₀, s₁, _, h, hrun, exfsWriteAt_none hmounted hc.inv.broken hfind htype,
    view_of_find hc.inv hfind hnode, rfl, rfl⟩

end Run

end Xasmos.Exfs
