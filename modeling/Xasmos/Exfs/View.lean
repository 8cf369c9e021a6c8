import Xasmos.Exfs.OnDisk

/-!
# What a volume shows

The names of a volume and, for each name, its type, its size and its bytes, as a function
of the table of nodes and of the content of the device.  `find` is the search of that
table (`find_eq`), so two states with the same table and the same content in the blocks
the table owns show the same (`view_congr`).

A byte is an `Option`: a position before the end of the file that the extent list does
not reach has none.
-/

namespace Xasmos.Exfs

open Bytes

/-! ## Names -/

section Names

variable {a : Bytes} {name : List UInt8}

/-- A terminated name array holds the bytes before its first terminator. -/
theorem cname_spec (h : ∃ j ≤ nameMax, a j = 0) :
    ∃ n ≤ nameMax, a n = 0 ∧ (∀ k < n, a k ≠ 0) ∧ cname a = (List.range n).map a := by
  classical
  have hex : ∃ j, a j = 0 := h.imp fun _ hj => hj.2
  obtain ⟨j, hj, hj0⟩ := h
  have hle : Nat.find hex ≤ nameMax := le_trans (Nat.find_min' hex hj0) hj
  refine ⟨Nat.find hex, hle, Nat.find_spec hex, fun k hk => Nat.find_min hex hk, ?_⟩
  have hsplit : List.range nameMax = List.range (Nat.find hex) ++
      (List.range (nameMax - Nat.find hex)).map (Nat.find hex + ·) := by
    rw [← List.range_add, Nat.add_sub_cancel' hle]
  rw [cname, hsplit, List.map_append, List.takeWhile_append_of_pos]
  · cases hm : nameMax - Nat.find hex with
    | zero => simp
    | succ m =>
      rw [List.range_succ_eq_map, List.map_cons, List.map_cons, List.takeWhile_cons_of_neg]
      · simp
      · simpa using Nat.find_spec hex
  · intro c hc
    obtain ⟨k, hk, rfl⟩ := List.mem_map.mp hc
    simpa using Nat.find_min hex (List.mem_range.mp hk)

theorem nameEq_iff_forall (hnul : ∀ c ∈ name, c ≠ 0) (o : ℕ) :
    nameEq a name o = true ↔ (List.range name.length).map (fun k => a (o + k)) = name ∧
      a (o + name.length) = 0 := by
  induction name generalizing o with
  | nil => simp [nameEq]
  | cons c cs ih =>
    have hc : c ≠ 0 := hnul c List.mem_cons_self
    have hrest := ih (fun x hx => hnul x (List.mem_cons_of_mem _ hx)) (o + 1)
    rw [nameEq, List.length_cons, List.range_succ_eq_map, List.map_cons, List.map_map]
    have hshift : (List.range cs.length).map ((fun k => a (o + k)) ∘ Nat.succ) =
        (List.range cs.length).map fun k => a (o + 1 + k) :=
      List.map_congr_left fun k _ => by simp only [Function.comp_apply]; congr 1; omega
    rw [hshift, List.cons.injEq, Nat.add_zero]
    by_cases ha : a o = c
    · rw [if_pos ⟨by rw [ha]; exact hc, ha⟩, hrest,
        show o + (cs.length + 1) = o + 1 + cs.length by omega]
      simp [ha]
    · rw [if_neg fun hno => ha hno.2]
      simp [ha]

/-- **The comparison of `find`** is equality of names. -/
theorem nameEq_iff (h : ∃ j ≤ nameMax, a j = 0) (hnul : ∀ c ∈ name, c ≠ 0) :
    nameEq a name 0 = true ↔ cname a = name := by
  obtain ⟨n, _, hn0, hlt, hcname⟩ := cname_spec h
  rw [nameEq_iff_forall hnul, hcname]
  simp only [Nat.zero_add]
  refine ⟨fun ⟨h1, h2⟩ => ?_, fun he => ?_⟩
  · -- the first terminator is where the string ends
    have hle : n ≤ name.length := by
      by_contra hno
      exact hlt name.length (not_le.mp hno) h2
    have hge : name.length ≤ n := by
      by_contra hno
      have hmem : a n ∈ name := by
        rw [← h1]
        exact List.mem_map_of_mem (List.mem_range.mpr (not_le.mp hno))
      exact hnul _ hmem hn0
    rw [Nat.le_antisymm hle hge]
    exact h1
  · have hlen : name.length = n := by rw [← he]; simp
    rw [hlen]
    exact ⟨he, hn0⟩

end Names

/-! ## The view -/

/-- The node a name stands for: the first one that has it. -/
def findNode (T : ℕ → Option Node) (name : List UInt8) : Option ℕ :=
  (List.range inodes).find? fun i => (T i).any fun f => f.name = name

/-- The byte at offset `p` of a node, if `p` is before its end and in its blocks. -/
def fileByte (c : ℕ → Bytes) (f : Node) (p : ℕ) : Option UInt8 :=
  if p < f.size then ((blocks f.exts)[p / blockBytes]?).map fun b => c b (p % blockBytes) else none

/-- What a volume shows under a name. -/
structure Entry where
  type : ℕ
  size : ℕ
  byte : ℕ → Option UInt8

/-- The entry of a node. -/
def entryOf (c : ℕ → Bytes) (f : Node) : Entry := ⟨f.type, f.size, fileByte c f⟩

/-- What a table of nodes shows on a device with content `c`. -/
def viewOf (T : ℕ → Option Node) (c : ℕ → Bytes) (name : List UInt8) : Option Entry :=
  (findNode T name).bind fun i => (T i).map (entryOf c)

/-- What the volume shows. -/
def view (s : St) : List UInt8 → Option Entry := viewOf (nodeOf s.v) s.disk.block

section View

variable {T T' : ℕ → Option Node} {c c' : ℕ → Bytes} {name : List UInt8} {i : ℕ} {s s' : St}

theorem find?_congr_of_mem {α : Type} {p q : α → Bool} {l : List α} (h : ∀ x ∈ l, p x = q x) :
    l.find? p = l.find? q := by
  induction l with
  | nil => rfl
  | cons x l ih =>
    rw [List.find?_cons, List.find?_cons, h x List.mem_cons_self,
      ih fun y hy => h y (List.mem_cons_of_mem _ hy)]

/-- **`find`** searches the table of nodes. -/
theorem find_eq {X : List ℕ} {slice : ℕ × ℕ} (h : VolInv s X slice) (hnul : ∀ c ∈ name, c ≠ 0) :
    find s.v name = findNode (nodeOf s.v) name := by
  refine find?_congr_of_mem fun i hi => ?_
  cases hu : (s.v.files i).used with
  | false => simp [nodeOf_unused hu]
  | true =>
    have hiff := nameEq_iff (h.file i (List.mem_range.mp hi) hu).name_end hnul
    rw [nodeOf_used hu, Bool.true_and, Option.any_some, Bool.eq_iff_iff, hiff, decide_eq_true_iff]

/-- The lookup reads the names only. -/
theorem findNode_names (hT : ∀ i < inodes, (T' i).map Node.name = (T i).map Node.name) :
    findNode T' name = findNode T name := by
  have hany : ∀ o : Option Node, (o.any fun f => f.name = name) = (o.map Node.name).any
      (· = name) := by
    intro o
    cases o <;> rfl
  apply find?_congr_of_mem
  intro i hi
  rw [hany, hany, hT i (List.mem_range.mp hi)]

theorem findNode_congr (hT : ∀ i < inodes, T' i = T i) : findNode T' name = findNode T name :=
  findNode_names fun i hi => by rw [hT i hi]

theorem findNode_some (h : findNode T name = some i) :
    i < inodes ∧ ∃ f, T i = some f ∧ f.name = name := by
  refine ⟨List.mem_range.mp (List.mem_of_find?_eq_some h), ?_⟩
  rw [findNode] at h
  have hany := List.find?_some h
  obtain ⟨f, hf, hn⟩ := (Option.any_eq_true _ _).mp hany
  exact ⟨f, hf, of_decide_eq_true hn⟩

theorem findNode_none (h : ∀ j < inodes, ∀ f, T j = some f → f.name ≠ name) :
    findNode T name = none := by
  cases hf : findNode T name with
  | none => rfl
  | some i =>
    obtain ⟨hi, f, hnode, hname⟩ := findNode_some hf
    exact absurd hname (h i hi f hnode)

/-- The one node with a name is the one that is found. -/
theorem findNode_of_node {f : Node} (hi : i < inodes) (hf : T i = some f) (hname : f.name = name)
    (hother : ∀ j < inodes, j ≠ i → ∀ f, T j = some f → f.name ≠ name) :
    findNode T name = some i := by
  cases h : findNode T name with
  | none =>
    rw [findNode, List.find?_eq_none] at h
    have := h i (List.mem_range.mpr hi)
    rw [hf] at this
    simp [hname] at this
  | some j =>
    obtain ⟨hj, f', hfj, hname'⟩ := findNode_some h
    by_cases hji : j = i
    · rw [hji]
    · exact absurd hname' (hother j hj hji f' hfj)

theorem fileByte_congr {f : Node} (h : ∀ b ∈ blocks f.exts, c' b = c b) :
    fileByte c' f = fileByte c f := by
  funext p
  rw [fileByte, fileByte]
  split
  · cases hb : (blocks f.exts)[p / blockBytes]? with
    | none => rfl
    | some b => rw [Option.map_some, Option.map_some, h b (List.mem_of_getElem? hb)]
  · rfl

/-- **The view depends only on the table and on the blocks it owns.** -/
theorem viewOf_congr (hT : ∀ i < inodes, T' i = T i) (hc : ∀ b, 0 < tableOwn T b → c' b = c b) :
    viewOf T' c' = viewOf T c := by
  funext name
  rw [viewOf, viewOf, findNode_congr hT]
  cases hf : findNode T name with
  | none => rfl
  | some i =>
    obtain ⟨hi, f, hTi, _⟩ := findNode_some hf
    rw [Option.bind_some, Option.bind_some, hT i hi, hTi, Option.map_some, Option.map_some, entryOf,
      entryOf, fileByte_congr fun b hb => hc b (tableOwn_pos_of_exts hi hTi hb)]

/-- A call that only took blocks shows what was there. -/
theorem Staged.view_eq {X Y : List ℕ} {slice slice₀ : ℕ × ℕ} (hs : Staged s s' X slice)
    (h : VolInv s Y slice₀) : view s' = view s :=
  viewOf_congr (fun _ hi => hs.nodeOf_eq hi) fun _ hb => hs.evolves.block_eq h
    (owned_of_tableOwn hb)

end View

end Xasmos.Exfs
