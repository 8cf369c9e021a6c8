import Xasmos.Kernel.FlatTables

/-!
# Isolation of owners

What a process can reach is what its page tables show. In every state of a run each entry of the
user half of an address space shows a frame of a live token of the same owner, with no more rights
than the token has. The frames of tokens are disjoint, and none of them is free or a page table, of
a process or of the kernel. So no frame is ever shown to two owners.

## Main results

* `KernelRun.isolated`.
-/
namespace Xasmos.Kernel

open Radix Prog

variable {B : ℕ → Prop} {a c e f j k k' p r va : ℕ} {need perms rights : UInt32}
  {s s' s'' s₀ : Xeret}

/-- A frame that holds a page table of the kernel. -/
def KernelTable (s : Xeret) (f : ℕ) : Prop := ∃ π, KernelPath π ∧
    walk (kid s) (s.pml4Phys / frameSize) π = some f

/-- An entry `e` shows a frame of the token of slot `k`, and no more than the token allows. -/
structure ShowsToken (L : Ledger) (k e : ℕ) : Prop where
  frame : TokenFrame L k ((e &&& xptAddrMask) / frameSize)
  kind : (L.table k).kind = .ram
  write : e &&& xptWrite ≠ 0 → (L.table k).rights &&& rightWrite ≠ 0
  execute : e &&& xptNx = 0 → (L.table k).rights &&& rightExecute ≠ 0
  exclusive : ¬ (e &&& xptWrite ≠ 0 ∧ e &&& xptNx = 0)

/-- **Isolation.** -/
structure Isolated (s : Xeret) : Prop where
  leaf : ∀ a va e, (s.spaces a).live = true → UserAddr va → leafEntry s (s.spaces a).pml4Phys va =
    some e →
    ∃ k, ShowsToken s.ledger k e ∧ (s.ledger.table k).ownerId = (s.spaces a).ownerId
  disjoint : ∀ k k' f, TokenFrame s.ledger k f → TokenFrame s.ledger k' f → k = k'
  used : ∀ k f, TokenFrame s.ledger k f → s.phys.isFree f = false ∧ (∀ r π, ¬ TableFrame s r π f) ∧
    ¬ KernelTable s f
  owners : ∀ a b va vb e e', (s.spaces a).live = true → (s.spaces b).live = true → UserAddr va →
    UserAddr vb →
    leafEntry s (s.spaces a).pml4Phys va = some e → leafEntry s (s.spaces b).pml4Phys vb = some e' →
    e &&& xptAddrMask = e' &&& xptAddrMask → (s.spaces a).ownerId = (s.spaces b).ownerId

/-! ## The page tables of the kernel -/

section Boot

theorem BootKept.trans (h : BootKept B s s') (h' : BootKept B s' s'') : BootKept B s s'' :=
  ⟨h'.pml4Phys.trans h.pml4Phys, h.boot.trans h'.boot, h'.total.trans h.total⟩

theorem KernelRun.booted (h : KernelRun s₀ s) : Booted s₀ := by
  induction h with
  | start h => exact h
  | step _ _ ih => exact ih

theorem KernelRun.bootKept (h : KernelRun s₀ s) : BootKept (bootFrames s₀) s₀ s := by
  induction h with
  | start _ => exact .refl
  | step hrun hs ih => exact ih.trans (hs.carried hrun.kinv).toBootKept

/-- The page tables of a machine that has started. -/
theorem Booted.kernelTree (h : Booted s) : ∃ r, s.pml4Phys = r * frameSize ∧ KernelTree s r := by
  cases h with
  | @start hand p mem hasNx physEnd extraBase extraSize _ hphys hbase hsize hrun =>
    obtain ⟨hc, hmax, -⟩ := physInitFromHandoff_spec hphys
    have hwp := wp_xptInitIdentity (s := coldXeret p mem) hasNx physEnd hc hmax
      (physInitFromHandoff_zero hphys) hbase hsize
    obtain ⟨-, -, r, -, hmap⟩ := hwp.ok hrun
    exact ⟨r, hmap.root, hmap.tree⟩

/-- **The page tables of the kernel** stay where they were at the start. -/
theorem KernelRun.boot_of_kernelTable (h : KernelRun s₀ s) (hf : KernelTable s f) :
    bootFrames s₀ f := by
  obtain ⟨π, hπ, hw⟩ := hf
  obtain ⟨r, hroot, htree⟩ := h.booted.kernelTree
  have hkept := h.bootKept
  rw [hkept.pml4Phys, hroot, Nat.mul_div_cancel r (by decide)] at hw
  have hwalk : walk (kid s) r π = walk (kid s₀) r π :=
    walk_eq_of_agree kernelPath_prefixClosed hπ fun σ i t hσ ht =>
      kid_congr (entry_congr (hkept.boot t ⟨htree.lt σ t hσ.init ht, htree.used σ t hσ.init ht⟩))
  rw [hwalk] at hw
  exact ⟨htree.lt π f hπ hw, htree.used π f hπ hw⟩

end Boot

/-! ## Entries and tokens -/

section Leaf

theorem frame_and_nx (hc : c < 2 ^ 40) : c * frameSize &&& xptNx = 0 := by
  rw [xptNx, Nat.and_two_pow, Nat.testBit_lt_two_pow]
  · simp
  · rw [frameSize]
    omega

/-- The flags of an entry of a frame. -/
theorem entry_and_nx (hc : c < 2 ^ 40) (fl : ℕ) :
    (c * frameSize ||| fl) &&& xptNx = fl &&& xptNx := by
  rw [Nat.and_or_distrib_right, frame_and_nx hc, Nat.zero_or]

theorem leafFlags_write (perms : UInt32) :
    leafFlags perms &&& xptWrite ≠ 0 ↔ perms &&& permW ≠ 0 := by
  unfold leafFlags
  split_ifs <;> simp_all <;> decide

theorem leafFlags_nx (perms : UInt32) : leafFlags perms &&& xptNx = 0 ↔ perms &&& permX ≠ 0 := by
  unfold leafFlags
  split_ifs <;> simp_all <;> decide

/-- A token that allows a mapping has the rights that the mapping asks for. -/
theorem rights_of_rightsFor (h : rights &&& rightsFor perms = rightsFor perms)
    (hneed : rightsFor perms &&& need = need) (hne : need ≠ 0) : rights &&& need ≠ 0 := by
  have heq : rights &&& need = need := by
    rw [← hneed, ← UInt32.and_assoc, h]
  rwa [heq]

theorem rightsFor_write (h : perms &&& permW ≠ 0) :
    rightsFor perms &&& rightWrite = rightWrite := by
  unfold rightsFor
  split_ifs <;> first | contradiction | decide

theorem rightsFor_execute (h : perms &&& permX ≠ 0) :
    rightsFor perms &&& rightExecute = rightExecute := by
  unfold rightsFor
  split_ifs <;> first | contradiction | decide

/-- An entry of a mapping shows its token. -/
theorem MapsToken.shows {m : MapRec} (h : KInv B s) (hm : MapsToken s m a r p k perms)
    (hj : j < m.pages) :
    ShowsToken s.ledger k
      (((s.ledger.table k).phys / frameSize + j) * frameSize ||| leafFlags perms) := by
  have hn : j < (s.ledger.table k).nFrames := hm.frames ▸ hj
  have hlt := h.frame_lt hm.held.slot_lt hm.held.live hn
  have haddr := entry_addr hlt (leafFlags_and_addrMask perms)
  constructor
  · rw [haddr, Nat.mul_div_cancel _ (by decide)]
    exact ⟨hm.held.slot_lt, hm.held.live, Nat.le_add_right _ _, Nat.add_lt_add_left hn _⟩
  · exact (h.tokens.token k hm.held.live).2.2
  · rw [entry_flag _ _ (by decide), leafFlags_write]
    exact fun hw => rights_of_rightsFor hm.rights (rightsFor_write hw) (by decide)
  · rw [entry_and_nx hlt, leafFlags_nx]
    exact fun hx => rights_of_rightsFor hm.rights (rightsFor_execute hx) (by decide)
  · rw [entry_flag _ _ (by decide), entry_and_nx hlt, leafFlags_write, leafFlags_nx]
    exact hm.wx

/-- An entry that is present is one of a mapping. -/
theorem KInv.exists_shows (h : KInv B s) (ha : (s.spaces a).live = true) (hva : UserAddr va)
    (he : leafEntry s (s.spaces a).pml4Phys va = some e) :
    ∃ k, ShowsToken s.ledger k e ∧ (s.ledger.table k).ownerId = (s.spaces a).ownerId := by
  obtain ⟨r, hroot, hisRoot, hread⟩ := h.exists_root ha
  rw [hread va hva] at he
  obtain ⟨i, hi, hcover⟩ := h.mapped.covered r _ e hisRoot (userAddr_iff.mp hva) he
  obtain ⟨b, r', p, k, perms, hm⟩ := h.mapped.record i hi
  obtain ⟨rfl, hle, hlt⟩ := hm.covers_iff.mp hcover
  obtain ⟨j, hj⟩ := Nat.exists_eq_add_of_le hle
  have hjn : j < (s.maps i).pages := by omega
  rw [hj, hm.pages j hjn] at he
  have hba : b = a := h.space_inj b a hm.space ha (hm.root.trans hroot.symm)
  refine ⟨k, Option.some.inj he ▸ hm.shows h hjn, ?_⟩
  rw [hm.tokenOwner, ← hm.owner, hba]

/-- A frame has one token. -/
theorem FramesOk.token_unique (h : FramesOk B s) (hk : TokenFrame s.ledger k f)
    (hk' : TokenFrame s.ledger k' f) : k = k' := by
  have heq := h.unique f (.token k) (.token k') hk hk'
  injection heq

end Leaf

/-- **Isolation of owners** in every state that a run reaches. -/
theorem KernelRun.isolated {s₀ s : Xeret} (h : KernelRun s₀ s) : Isolated s := by
  have hinv := h.kinv
  constructor
  · intro a va e ha hva he
    exact hinv.exists_shows ha hva he
  · intro k k' f hk hk'
    exact hinv.token_unique hk hk'
  · intro k f hk
    refine ⟨(hinv.used f (.token k) hk).2, fun r π ht => ?_, fun ht => ?_⟩
    · cases hinv.unique f (.token k) (.table r π) hk ht
    · cases hinv.unique f (.token k) .boot hk (h.boot_of_kernelTable ht)
  · intro a b va vb e e' ha hb hva hvb he he' heq
    obtain ⟨k, hk, ho⟩ := hinv.exists_shows ha hva he
    obtain ⟨k', hk', ho'⟩ := hinv.exists_shows hb hvb he'
    have hframe := hk'.frame
    rw [← heq] at hframe
    rw [← ho, ← ho', hinv.token_unique hk.frame hframe]

theorem KernelRun.isolated_tenants :
    ∃ s₀ s, KernelRun s₀ s ∧ Tenant s 0 7 ∧ Tenant s 1 8 ∧ Isolated s := by
  obtain ⟨s₀, s, hrun, h0, h1, -⟩ := exists_tenants
  exact ⟨s₀, s, hrun, h0, h1, KernelRun.isolated hrun⟩

end Xasmos.Kernel
