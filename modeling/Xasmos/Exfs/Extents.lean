import Xasmos.Exfs.Ops
import Mathlib.Tactic.Linarith

/-!
# Extent lists as block lists

An extent list stands for the list of its blocks in logical order, `blocks`.  Through
it the splicing of `exfs_write_at` is list surgery: staging appends, walking a logical
range takes and drops, and the disk block of a logical one is an index.
-/

namespace Xasmos.Exfs

variable {b hi l1 len lo lpos oldb start top w0 : ℕ} {es fresh fs old st st' : List ExfsExtent}

/-! ## Basic facts -/

@[simp] theorem blocks_nil : blocks [] = [] := rfl

theorem blocks_cons (e : ExfsExtent) (es : List ExfsExtent) :
    blocks (e :: es) = List.range' e.start e.len ++ blocks es := rfl

@[simp] theorem blocks_append (es fs : List ExfsExtent) :
    blocks (es ++ fs) = blocks es ++ blocks fs :=
  List.flatMap_append

theorem length_blocks (es : List ExfsExtent) :
    (blocks es).length = (es.map ExfsExtent.len).sum := by
  induction es with
  | nil => rfl
  | cons e es ih => simp [blocks_cons, ih]

theorem blocks_singletons (bs : List ℕ) : blocks (bs.map fun b => ⟨b, 1⟩) = bs := by
  induction bs with
  | nil => rfl
  | cons b bs ih => rw [List.map_cons, blocks_cons, ih]; rfl

theorem mem_blocks : b ∈ blocks es ↔ ∃ e ∈ es, e.start ≤ b ∧ b < e.start + e.len := by
  simp [blocks, List.mem_flatMap, List.mem_range'_1]

/-- Extents of positive length that end by block `top`. -/
def Within (top : ℕ) (es : List ExfsExtent) : Prop := ∀ e ∈ es, 1 ≤ e.len ∧ e.start + e.len ≤ top

theorem Within.append (h : Within top es) (h' : Within top fs) : Within top (es ++ fs) := by
  intro e he
  rcases List.mem_append.mp he with h1 | h1
  · exact h e h1
  · exact h' e h1

theorem Within.singleton {e : ExfsExtent} (h1 : 1 ≤ e.len) (h2 : e.start + e.len ≤ top) :
    Within top [e] := by
  intro e' he
  rw [List.mem_singleton.mp he]
  exact ⟨h1, h2⟩

/-- A list of one block. -/
theorem Within.eq_singleton (h : Within top es) (hlen : (blocks es).length = 1) :
    ∃ b, es = [⟨b, 1⟩] := by
  match es with
  | [] => exact absurd hlen (by simp [blocks])
  | [e] =>
    rw [blocks_cons, blocks_nil, List.append_nil, List.length_range'] at hlen
    exact ⟨e.start, by rw [← hlen]⟩
  | e :: f :: fs =>
    have h1 := (h e (by simp)).1
    have h2 := (h f (by simp)).1
    simp only [blocks_cons, List.length_append, List.length_range'] at hlen
    omega

/-- An extent list within the volume has its blocks there. -/
theorem Within.lt (h : Within top es) (hb : b ∈ blocks es) : b < top := by
  obtain ⟨e, he, _, h2⟩ := mem_blocks.mp hb
  exact lt_of_lt_of_le h2 (h e he).2

/-! ## Staging -/

/-- Appending a run to the staged list appends its blocks. -/
theorem stageAdd_spec (htop : top < 2 ^ 32) (hst : Within top st) (h1 : 1 ≤ len)
    (h2 : start + len ≤ top) (h : stageAdd st start len = .ok st') :
    blocks st' = blocks st ++ List.range' start len ∧ Within top st' := by
  have hmod : len % 2 ^ 32 = len := Nat.mod_eq_of_lt (by omega)
  have hnew : Within top [⟨start, len⟩] := Within.singleton h1 h2
  rw [stageAdd] at h
  cases hl : st.getLast? with
  | none =>
    simp only [hl, hmod] at h
    have hnil : st = [] := List.getLast?_eq_none_iff.mp hl
    obtain rfl := Except.ok.inj h
    subst hnil
    exact ⟨by simp [blocks_cons], hnew⟩
  | some last =>
    have hsplit : st.dropLast ++ [last] = st := List.dropLast_append_getLast? last hl
    have hmem : last ∈ st := hsplit ▸ List.mem_append_right _ List.mem_cons_self
    have hlast := hst last hmem
    have hdrop : Within top st.dropLast := fun e he => hst e (List.dropLast_subset st he)
    simp only [hl] at h
    by_cases hc : (last.start + last.len) % 2 ^ 64 = start ∧ last.len + len ≤ 0xFFFFFFFF
    · -- the two runs are contiguous and become one
      rw [if_pos hc] at h
      obtain rfl := Except.ok.inj h
      have hend : last.start + last.len = start := by
        rw [← hc.1]
        exact (Nat.mod_eq_of_lt (by omega)).symm
      refine ⟨?_, hdrop.append (Within.singleton (by simp only; omega) (by simp only; omega))⟩
      conv_rhs => rw [← hsplit]
      rw [blocks_append, blocks_append, List.append_assoc, ← hend]
      congr 1
      simp [blocks_cons, List.range'_append_1]
    · rw [if_neg hc] at h
      by_cases hlen : maxExt ≤ st.length
      · rw [if_pos hlen] at h
        exact absurd h (by simp)
      · rw [if_neg hlen, hmod] at h
        obtain rfl := Except.ok.inj h
        exact ⟨by simp [blocks_cons], hst.append hnew⟩

theorem stageAdd_length (hst : st.length ≤ maxExt) (h : stageAdd st start len = .ok st') :
    st'.length ≤ maxExt := by
  rw [stageAdd] at h
  cases hl : st.getLast? with
  | none =>
    simp only [hl] at h
    obtain rfl := Except.ok.inj h
    simp [maxExt]
  | some last =>
    have hsplit : st.dropLast ++ [last] = st := List.dropLast_append_getLast? last hl
    have hlen : st.length = st.dropLast.length + 1 := by rw [← hsplit]; simp
    simp only [hl] at h
    split at h
    · obtain rfl := Except.ok.inj h
      simp only [List.length_append, List.length_singleton]
      omega
    · split at h
      · exact absurd h (by simp)
      · obtain rfl := Except.ok.inj h
        simp only [List.length_append, List.length_singleton]
        omega

/-! ## Walking a logical range -/

theorem take_range' (s n k : ℕ) : (List.range' s n).take k = List.range' s (min k n) := by
  rcases Nat.le_total k n with h | h
  · have hsplit : List.range' s n = List.range' s k ++ List.range' (s + k) (n - k) := by
      rw [List.range'_append_1]
      congr 1
      omega
    rw [hsplit, Nat.min_eq_left h]
    exact List.take_left' (by simp)
  · rw [Nat.min_eq_right h, List.take_of_length_le (by simpa using h)]

/-- The blocks of the logical range `[lo, hi)` of a list that starts at `lpos`. -/
def sliceOf (bs : List ℕ) (lpos lo hi : ℕ) : List ℕ := (bs.take (hi - lpos)).drop (lo - lpos)

/-- What an extent contributes to a logical range. -/
theorem clip_spec (e : ExfsExtent) (lpos lo hi : ℕ) (htop : top < 2 ^ 64)
    (he : e.start + e.len ≤ top) :
    sliceOf (List.range' e.start e.len) lpos lo hi = blocks ((clip e lpos lo hi).toList) ∧
    ∀ r, clip e lpos lo hi = some r → 1 ≤ r.len ∧ r.start + r.len ≤ top ∧ r.len ≤ e.len := by
  simp only [sliceOf, take_range', List.drop_range', clip]
  by_cases hc : max lpos lo < min (lpos + e.len) hi
  · rw [if_pos hc]
    have hmod : (e.start + (max lpos lo - lpos)) % 2 ^ 64 = e.start + (max lpos lo - lpos) :=
      Nat.mod_eq_of_lt (by omega)
    rw [hmod]
    refine ⟨?_, fun r hr => ?_⟩
    · simp only [Option.toList_some, blocks_cons, blocks_nil, List.append_nil]
      congr 1 <;> omega
    · obtain rfl := Option.some.inj hr
      simp only
      omega
  · rw [if_neg hc]
    refine ⟨?_, fun r hr => absurd hr (by simp)⟩
    have hz : min (hi - lpos) e.len - (lo - lpos) = 0 := by omega
    simp [hz]

/-- The range of a list is the range of its head followed by that of its tail. -/
theorem sliceOf_append (as bs : List ℕ) (lpos lo hi : ℕ) :
    sliceOf (as ++ bs) lpos lo hi = sliceOf as lpos lo hi ++
      sliceOf bs (lpos + as.length) lo hi := by
  simp only [sliceOf, List.take_append, List.drop_append, List.length_take]
  rcases Nat.le_total (hi - lpos) as.length with h | h
  · have hz : hi - lpos - as.length = 0 := by omega
    have hz' : hi - (lpos + as.length) = 0 := by omega
    simp [hz, hz']
  · have h1 : min (hi - lpos) as.length = as.length := Nat.min_eq_right h
    have h2 : hi - lpos - as.length = hi - (lpos + as.length) := by omega
    have h3 : lo - lpos - as.length = lo - (lpos + as.length) := by omega
    rw [h1, h2, h3]

theorem sliceOf_of_le {bs : List ℕ} (h : hi ≤ lpos) : sliceOf bs lpos lo hi = [] := by
  have hz : hi - lpos = 0 := by omega
  simp [sliceOf, hz]

/-- **Walking in mode 0** appends the blocks of the logical range. -/
theorem walkStage_spec (htop : top < 2 ^ 32) (hes : Within top es) (hst : Within top st)
    (h : walkStage lo hi es lpos st = .ok st') :
    blocks st' = blocks st ++ sliceOf (blocks es) lpos lo hi ∧ Within top st' := by
  induction es generalizing lpos st with
  | nil =>
    obtain rfl := Except.ok.inj h
    exact ⟨by simp [sliceOf], hst⟩
  | cons e es ih =>
    have he := hes e List.mem_cons_self
    have hes' : Within top es := fun x hx => hes x (List.mem_cons_of_mem _ hx)
    rw [walkStage] at h
    by_cases hhi : hi ≤ lpos
    · rw [if_pos hhi] at h
      obtain rfl := Except.ok.inj h
      exact ⟨by rw [sliceOf_of_le hhi, List.append_nil], hst⟩
    · rw [if_neg hhi] at h
      obtain ⟨hslice, hclip⟩ := clip_spec e lpos lo hi (by omega) he.2
      rw [blocks_cons, sliceOf_append, hslice, List.length_range']
      cases hc : clip e lpos lo hi with
      | none =>
        rw [hc] at h
        exact ih hes' hst h
      | some r =>
        obtain ⟨h1, h2, _⟩ := hclip r hc
        rw [hc] at h
        simp only at h
        cases hadd : stageAdd st r.start r.len with
        | error err => rw [hadd] at h; exact absurd h (by simp)
        | ok mid =>
          rw [hadd] at h
          obtain ⟨hmid, hw⟩ := stageAdd_spec htop hst h1 h2 hadd
          obtain ⟨hend, hw'⟩ := ih hes' hw h
          refine ⟨?_, hw'⟩
          rw [hend, hmid]
          simp [blocks_cons]

theorem walkStage_length (hst : st.length ≤ maxExt) (h : walkStage lo hi es lpos st = .ok st') :
    st'.length ≤ maxExt := by
  induction es generalizing lpos st with
  | nil =>
    obtain rfl := Except.ok.inj h
    exact hst
  | cons e es ih =>
    rw [walkStage] at h
    split at h
    · obtain rfl := Except.ok.inj h
      exact hst
    · cases hc : clip e lpos lo hi with
      | none =>
        rw [hc] at h
        exact ih hst h
      | some r =>
        rw [hc] at h
        simp only at h
        cases hadd : stageAdd st r.start r.len with
        | error err => rw [hadd] at h; exact absurd h (by simp)
        | ok mid =>
          rw [hadd] at h
          exact ih (stageAdd_length hst hadd) h

/-- Staging a list of runs. -/
theorem foldlM_stageAdd_spec (htop : top < 2 ^ 32) (hfs : Within top fs) (hst : Within top st)
    (h : fs.foldlM (fun st e => stageAdd st e.start e.len) st = .ok st') :
    blocks st' = blocks st ++ blocks fs ∧ Within top st' := by
  induction fs generalizing st with
  | nil =>
    obtain rfl := Except.ok.inj h
    exact ⟨by simp, hst⟩
  | cons f fs ih =>
    have hf := hfs f List.mem_cons_self
    rw [List.foldlM_cons] at h
    cases hadd : stageAdd st f.start f.len with
    | error err => rw [hadd] at h; exact absurd h (by intro h'; cases h')
    | ok mid =>
      rw [hadd] at h
      obtain ⟨hmid, hw⟩ := stageAdd_spec htop hst hf.1 hf.2 hadd
      obtain ⟨hend, hw'⟩ := ih (fun x hx => hfs x (List.mem_cons_of_mem _ hx)) hw h
      refine ⟨?_, hw'⟩
      rw [hend, hmid, blocks_cons, List.append_assoc]

theorem foldlM_stageAdd_length (hst : st.length ≤ maxExt)
    (h : fs.foldlM (fun st e => stageAdd st e.start e.len) st = .ok st') : st'.length ≤ maxExt := by
  induction fs generalizing st with
  | nil =>
    obtain rfl := Except.ok.inj h
    exact hst
  | cons f fs ih =>
    rw [List.foldlM_cons] at h
    cases hadd : stageAdd st f.start f.len with
    | error err => rw [hadd] at h; exact absurd h (by intro h'; cases h')
    | ok mid =>
      rw [hadd] at h
      exact ih (stageAdd_length hst hadd) h

theorem stageRange_length (h : stageRange old fresh w0 l1 oldb = .ok st) : st.length ≤ maxExt := by
  rw [stageRange] at h
  cases h1 : walkStage 0 w0 old 0 [] with
  | error err => rw [h1] at h; exact absurd h (by intro h'; cases h')
  | ok s1 =>
    rw [h1] at h
    change (fresh.foldlM (fun st e => stageAdd st e.start e.len) s1 >>= fun st =>
      walkStage (l1 + 1) oldb old 0 st) = .ok st at h
    cases h2 : fresh.foldlM (fun st e => stageAdd st e.start e.len) s1 with
    | error err => rw [h2] at h; exact absurd h (by intro h'; cases h')
    | ok s2 =>
      rw [h2] at h
      exact walkStage_length (foldlM_stageAdd_length (walkStage_length (Nat.zero_le _) h1) h2) h

/-- **The new list of a range write**: old blocks before the range, the fresh ones, old
blocks after it. -/
theorem stageRange_spec (htop : top < 2 ^ 32) (hold : Within top old) (hfresh : Within top fresh)
    (h : stageRange old fresh w0 l1 (blocks old).length = .ok st) :
    blocks st = (blocks old).take w0 ++ blocks fresh ++ (blocks old).drop (l1 + 1) ∧
      Within top st ∧ st.length ≤ maxExt := by
  have hnil : Within top [] := fun e he => absurd he List.not_mem_nil
  have hlen := stageRange_length h
  rw [stageRange] at h
  cases h1 : walkStage 0 w0 old 0 [] with
  | error err => rw [h1] at h; exact absurd h (by intro h'; cases h')
  | ok s1 =>
    rw [h1] at h
    obtain ⟨hb1, hw1⟩ := walkStage_spec htop hold hnil h1
    change (fresh.foldlM (fun st e => stageAdd st e.start e.len) s1 >>= fun st =>
      walkStage (l1 + 1) (blocks old).length old 0 st) = .ok st at h
    cases h2 : fresh.foldlM (fun st e => stageAdd st e.start e.len) s1 with
    | error err => rw [h2] at h; exact absurd h (by intro h'; cases h')
    | ok s2 =>
      rw [h2] at h
      change walkStage (l1 + 1) (blocks old).length old 0 s2 = .ok st at h
      obtain ⟨hb2, hw2⟩ := foldlM_stageAdd_spec htop hfresh hw1 h2
      obtain ⟨hb3, hw3⟩ := walkStage_spec htop hold hw2 h
      refine ⟨?_, hw3, hlen⟩
      rw [hb3, hb2, hb1]
      simp [sliceOf]

/-! ## Indexing -/

/-- The disk block of a logical one. -/
theorem oldPhys_eq (l : ℕ) (es : List ExfsExtent) (lpos : ℕ) (h : lpos ≤ l) :
    oldPhys l es lpos = (blocks es)[l - lpos]? := by
  induction es generalizing lpos with
  | nil => simp [oldPhys]
  | cons e es ih =>
    rw [oldPhys, blocks_cons]
    by_cases hl : l < lpos + e.len
    · rw [if_pos hl, List.getElem?_append_left (by simp; omega),
        List.getElem?_range' (by omega), Nat.one_mul]
    · rw [if_neg hl, ih _ (by omega), List.getElem?_append_right (by simp; omega),
        List.length_range']
      congr 1
      omega

end Xasmos.Exfs
