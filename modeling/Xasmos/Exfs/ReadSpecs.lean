import Xasmos.Exfs.OpSpecs

/-!
# What a read returns

`exfs_read_at` walks the extent list twice: once to the extent that holds the first
byte, once block by block.  `wp_exfsReadAt` says that it returns exactly the bytes of
the file's blocks, and that it can fail with `EXFS_EIO` only when the list is shorter
than the size says.
-/

namespace Xasmos.Exfs

open Bytes Prog

variable {E : ExfsError → St → Prop} {Q : List UInt8 → St → Prop}
  {cap ei fuel i inblk k l m n off want : ℕ} {s s₀ : St}

/-- The byte at offset `o` of the blocks `bs`. -/
def byteAt (c : ℕ → Bytes) (bs : List ℕ) (o : ℕ) : UInt8 :=
  c (bs.getD (o / blockBytes) 0) (o % blockBytes)

/-- `n` bytes of the blocks `bs` from offset `off` on. -/
def bytesAt (c : ℕ → Bytes) (bs : List ℕ) (off n : ℕ) : List UInt8 :=
  (List.range n).map fun j => byteAt c bs (off + j)

theorem bytesAt_succ_block {c : ℕ → Bytes} {bs : List ℕ} (hat : off + m = l * blockBytes + inblk)
    (hn : inblk + n ≤ blockBytes) :
    bytesAt c bs off m ++ (List.range n).map (fun j => c (bs.getD l 0) (inblk + j)) =
      bytesAt c bs off (m + n) := by
  have hpage : (List.range n).map (fun j => c (bs.getD l 0) (inblk + j)) =
      (List.range n).map fun j => byteAt c bs (off + (m + j)) := by
    refine List.map_congr_left fun j hj => ?_
    have hj' := List.mem_range.mp hj
    have h1 : off + (m + j) = blockBytes * l + (inblk + j) := by
      rw [Nat.mul_comm]
      omega
    rw [byteAt, h1, Nat.mul_add_mod, Nat.mul_add_div (by decide), Nat.mod_eq_of_lt (by omega),
      Nat.div_eq_of_lt (by omega), Nat.add_zero]
  rw [hpage, bytesAt, bytesAt, List.range_add, List.map_append, List.map_map]
  rfl

/-! ## Positions in an extent list -/

section Position

variable {es : List ExfsExtent}

theorem length_blocks_take_succ (hm : m < es.length) :
    (blocks (es.take (m + 1))).length = (blocks (es.take m)).length + es[m].len := by
  rw [← List.take_append_getElem hm, blocks_append, List.length_append, blocks_cons]
  simp

/-- Block `k` of extent `m`. -/
theorem blocks_getD (hm : m < es.length) (hk : k < es[m].len) :
    (blocks es).getD ((blocks (es.take m)).length + k) 0 = es[m].start + k := by
  have hsplit : es = es.take m ++ es[m] :: es.drop (m + 1) := by
    rw [List.cons_getElem_drop_succ, List.take_append_drop]
  have hblk : blocks es = blocks (es.take m) ++ (List.range' es[m].start es[m].len ++
      blocks (es.drop (m + 1))) := by
    rw [← blocks_cons, ← blocks_append, ← hsplit]
  rw [hblk, List.getD_append_right _ _ _ _ (by omega), Nat.add_sub_cancel_left,
    List.getD_append _ _ _ _ (by simpa using hk), List.getD_eq_getElem _ _ (by simpa using hk),
    List.getElem_range']
  omega

/-- **The first walk** stops at the extent that holds logical block `l`. -/
theorem seekExt_spec (l : ℕ) (es : List ExfsExtent) (i base : ℕ) (hb : base ≤ l) :
    ∃ m ≤ es.length, seekExt l es i base = (i + m, base + (blocks (es.take m)).length) ∧
      base + (blocks (es.take m)).length ≤ l ∧
      ∀ h : m < es.length, l < base + (blocks (es.take m)).length + es[m].len := by
  induction es generalizing i base with
  | nil => exact ⟨0, le_rfl, rfl, hb, fun h => absurd h (Nat.not_lt_zero 0)⟩
  | cons e es ih =>
    rw [seekExt]
    by_cases hle : base + e.len ≤ l
    · obtain ⟨m, h1, h2, h3, h4⟩ := ih (i + 1) (base + e.len) hle
      have hlen : (blocks ((e :: es).take (m + 1))).length =
          e.len + (blocks (es.take m)).length := by
        rw [List.take_succ_cons, blocks_cons, List.length_append, List.length_range']
      refine ⟨m + 1, by simpa using h1, ?_, ?_, fun h => ?_⟩
      · rw [if_pos hle, h2, hlen]
        simp only [Prod.mk.injEq]
        omega
      · rw [hlen]
        omega
      · have h' : m < es.length := by simpa using h
        have := h4 h'
        rw [hlen, List.getElem_cons_succ]
        omega
    · rw [if_neg hle]
      exact ⟨0, Nat.zero_le _, rfl, hb, fun _ => by simpa using hle⟩

end Position

/-! ## The read loop -/

section Read

/-- **The second walk** returns the bytes it was asked for, or runs off the list. -/
theorem wp_readLoop (hw : Within s₀.v.total (exts s₀.v i)) {done : List UInt8}
    (hst : Staged s₀ s [] (0, 0)) (hv : s.v = s₀.v) (hc : s.disk.block = s₀.disk.block)
    (hin : inblk < blockBytes) (hfuel : want ≤ m + fuel) (hm : m ≤ want)
    (hei : ei ≤ (exts s₀.v i).length)
    (hk : ∀ h : ei < (exts s₀.v i).length, k < (exts s₀.v i)[ei].len)
    (hkz : ei = (exts s₀.v i).length → k = 0)
    (hat : m < want → off + m = ((blocks ((exts s₀.v i).take ei)).length + k) * blockBytes + inblk)
    (hdone : done = bytesAt s₀.disk.block (blocks (exts s₀.v i)) off m)
    (hQ : ∀ s', Staged s₀ s' [] (0, 0) →
      Q (bytesAt s₀.disk.block (blocks (exts s₀.v i)) off want) s')
    (hE : ∀ s', Staged s₀ s' [] (0, 0) →
      (s₀.disk.Faultless → (blocks (exts s₀.v i)).length * blockBytes < off + want) → E .eio s') :
    (readLoop i want fuel ei k inblk done).wp Q E s := by
  have hlen : done.length = m := by rw [hdone]; simp [bytesAt]
  induction fuel generalizing s ei k inblk m done with
  | zero =>
    obtain rfl : m = want := by omega
    rw [readLoop, wp_ite, hlen]
    refine ⟨fun h => absurd h (Nat.lt_irrefl m), fun _ => ?_⟩
    rw [wp_pure, hdone]
    exact hQ s hst
  | succ fuel ih =>
    have hn : (s₀.v.files i).n = (exts s₀.v i).length := by simp [exts]
    simp only [readLoop, wp_ite, wp_bind, wp_get, wp_pure, hlen, hv, hn]
    refine ⟨fun hlt => ⟨fun hend => ?_, fun hnend => ?_⟩, fun hnot => ?_⟩
    · -- the list ends before the bytes do
      refine hE s hst fun _ => ?_
      have hat' := hat hlt
      rw [hkz hend, hend, List.take_length, Nat.add_zero] at hat'
      omega
    · have hlt' : ei < (exts s₀.v i).length := by omega
      have hke := hk hlt'
      have hat' := hat hlt
      have hpool : s₀.v.pool ((s₀.v.files i).extOff + ei) = (exts s₀.v i)[ei] := by simp [exts]
      have hwe := hw _ (List.getElem_mem hlt')
      have hblk := blocks_getD hlt' hke
      rw [hpool]
      refine wp_blkGot_any hst.map.fits (by rw [hv]; omega) ?_ fun hf d hle hd => ?_
      rotate_left
      · exact hE _ (hst.wroteOnly hle (.of_cache_eq hd)) fun h => absurd
          (h.later (St.disk_le hst.le hst.dev)) hf
      set n := min (want - m) (blockBytes - inblk) with hndef
      have hnext : ∀ {ei' k' : ℕ}, m + n < want →
          (blocks ((exts s₀.v i).take ei')).length + k' =
            (blocks ((exts s₀.v i).take ei)).length + k + 1 →
          off + (m + n) = ((blocks ((exts s₀.v i).take ei')).length + k') * blockBytes + 0 := by
        intro ei' k' hmn hidx
        rw [hidx, Nat.succ_mul]
        omega
      have hbytes : done ++ (List.range n).map (fun j => s.disk.block ((exts s₀.v i)[ei].start + k)
          (inblk + j)) = bytesAt s₀.disk.block (blocks (exts s₀.v i)) off (m + n) := by
        rw [hdone, hc, ← hblk]
        exact bytesAt_succ_block hat' (by omega)
      rw [hbytes, wp_ite]
      refine ⟨fun hlast => ?_, fun hmore => ?_⟩
      · have hadv := length_blocks_take_succ hlt'
        refine ih hst.served hv (by rw [St.served_block, hc]) (by decide) (by omega) (by omega)
          (by omega) (fun h => ?_) (fun _ => rfl) (fun hmn => hnext hmn (by omega)) rfl
          (by simp [bytesAt])
        exact (hw _ (List.getElem_mem h)).1
      · refine ih hst.served hv (by rw [St.served_block, hc]) (by decide) (by omega) (by omega)
          hei (fun _ => by omega) (fun h => by omega) (fun hmn => hnext hmn (by omega)) rfl
          (by simp [bytesAt])
    · obtain rfl : m = want := by omega
      rw [hdone]
      exact hQ s hst

/-- **`exfs_read_at`.** -/
theorem wp_exfsReadAt {name : CStr} (h : RamInv s)
    (hQ : ∀ i s', s.v.mounted = true → find s.v name.bytes = some i →
      (s.v.files i).type = typeFile → Staged s s' [] (0, 0) →
      Q (bytesAt s.disk.block (blocks (exts s.v i)) off (min ((s.v.files i).size - off) cap)) s')
    (hE : ∀ e s', Staged s s' [] (0, 0) →
      (s.v.mounted = true → ∀ i, find s.v name.bytes = some i → (s.v.files i).type = typeFile →
        e = .eio) →
      (s.disk.Faultless → e = .eio → ∃ i, find s.v name.bytes = some i ∧
        (blocks (exts s.v i)).length * blockBytes < (s.v.files i).size) → E e s') :
    (exfsReadAt name off cap).wp Q E s := by
  simp only [exfsReadAt, wp_bind, wp_get, wp_failIf]
  refine ⟨fun hm => hE _ s h.refl (fun hm' => by rw [hm] at hm'; exact absurd hm' (by simp))
    (fun _ he => absurd he (by decide)), fun hm => ?_⟩
  have hm : s.v.mounted = true := by simpa using hm
  refine wp_lookup (fun hnone => hE _ s h.refl
    (fun _ i hi => by rw [hnone] at hi; exact absurd hi (by simp))
    (fun _ he => absurd he (by decide))) fun i hfind => ?_
  obtain ⟨hi, hu, _⟩ := find_some hfind
  simp only [wp_bind, wp_failIf, wp_ite, wp_pure]
  refine ⟨fun ht => hE _ s h.refl (fun _ j hj ht' => ?_) (fun _ he => absurd he (by decide)),
    fun ht => ⟨fun hle => ?_, fun hgt => ?_⟩⟩
  · rw [hfind] at hj
    obtain rfl := Option.some.inj hj
    exact absurd ht' ht
  · have := hQ i s hm hfind (not_not.mp ht) h.refl
    rwa [Nat.sub_eq_zero_of_le hle, Nat.zero_min, bytesAt, List.range_zero, List.map_nil] at this
  · have hw := (h.file i hi hu).within
    obtain ⟨m, h1, h2, h3, h4⟩ := seekExt_spec (off / blockBytes) (exts s.v i) 0 0 (Nat.zero_le _)
    simp only [Nat.zero_add] at h2 h3 h4
    have hn : (s.v.files i).n = (exts s.v i).length := by simp [exts]
    have hshort : ∀ s', Staged s s' [] (0, 0) →
        (s.disk.Faultless → (blocks (exts s.v i)).length * blockBytes < (s.v.files i).size) →
          E .eio s' :=
      fun s' hs' hlt => hE .eio s' hs' (fun _ _ _ _ => rfl) fun hf _ => ⟨i, hfind, hlt hf⟩
    rw [h2, hn]
    refine ⟨fun hend => hshort s h.refl fun _ => ?_, fun hnend => ?_⟩
    · simp only at hend
      rw [hend, List.take_length] at h3
      have := Nat.div_mul_le_self off blockBytes
      have h5 := Nat.mul_le_mul_right blockBytes h3
      omega
    · simp only at hnend ⊢
      have hlt : m < (exts s.v i).length := by omega
      have h5 := h4 hlt
      refine wp_readLoop hw (m := 0) h.refl rfl rfl (Nat.mod_lt _ (by decide)) (by omega)
        (by omega) h1 (fun _ => by omega) (fun h => by omega) (fun _ => ?_) rfl
        (fun s' hs' => hQ i s' hm hfind (not_not.mp ht) hs') fun s' hs' hlt' => hshort s' hs'
          fun hf => ?_
      · rw [Nat.add_sub_cancel' h3, Nat.add_zero, Nat.mul_comm]
        exact (Nat.div_add_mod off blockBytes).symm
      · have := hlt' hf
        omega

end Read

end Xasmos.Exfs
