import Xasmos.Pci.Config
import Mathlib.Data.Finset.Card
import Mathlib.Data.Finset.Range

/-!
# The enumeration is complete

The scan is a depth-first search of the graph of buses, with the bridges as its edges, for any
content of the configuration space that the sizing of base registers leaves as it is. `Scanned` says
what a part of the scan has done: it is responsible for the functions it was called for and for all
functions of the buses it was the first to see.

## Main results

* `pciScan_complete` — the scan ends, with each function that can be reached from bus 0 in the table
  once, unless the table was too small.
-/
namespace Xasmos.Pci

open Function (update update_self update_of_ne)

variable {R : Prop} {b dev fn off : UInt8} {c : UInt32 → UInt32} {count i n : ℕ} {α σ : Type}

/-- The place of a function. -/
structure BusAddr where
  bus : UInt8
  dev : UInt8
  fn : UInt8
  deriving DecidableEq

variable {k : BusAddr}

/-- The address of a register of a function. -/
def BusAddr.reg (k : BusAddr) (off : UInt8) : UInt32 := cfgAddr k.bus k.dev k.fn off

def PciDev.addr (d : PciDev) : BusAddr := ⟨d.bus, d.dev, d.fn⟩

/-! ## The content of a configuration space -/

section Content

variable (c : UInt32 → UInt32)

/-- The function answers. -/
def Present (k : BusAddr) : Prop := c (k.reg 0x00) &&& 0xFFFF ≠ 0xFFFF

def headerType (k : BusAddr) : UInt8 := (c (k.reg 0x0C) >>> 16).toUInt8

/-- A function that the enumeration has to find: function 0 of a present device, or a present
function 1 to 7 when function 0 is multi-function. -/
structure IsFunction (k : BusAddr) : Prop where
  dev_lt : k.dev < 32
  fn_lt : k.fn < 8
  present : Present c k
  first : k.fn ≠ 0 → Present c ⟨k.bus, k.dev, 0⟩ ∧ headerType c ⟨k.bus, k.dev, 0⟩ &&& 0x80 ≠ 0

/-- A PCI-PCI bridge. -/
structure IsBridge (k : BusAddr) : Prop where
  header : headerType c k &&& 0x7F = 1
  classCode : (c (k.reg 0x08) >>> 24).toUInt8 = 0x06
  subclass : (c (k.reg 0x08) >>> 16).toUInt8 = 0x04

def secondary (k : BusAddr) : UInt8 := (c (k.reg 0x18) >>> 8).toUInt8

/-- The buses that can be reached from bus 0 through bridges. -/
inductive Reachable : UInt8 → Prop where
  | root : Reachable 0
  | bridge {k : BusAddr} (h : Reachable k.bus) (hk : IsFunction c k) (hb : IsBridge c k) :
    Reachable (secondary c k)

/-- The registers that identify a function. The bus numbers are there only in a bridge header. -/
def Ident (a : UInt32) : Prop :=
  ∃ k : BusAddr, a = k.reg 0x00 ∨ a = k.reg 0x08 ∨ a = k.reg 0x0C ∨ a = k.reg 0x18 ∧
    headerType c k &&& 0x7F = 1

/-- The registers that the sizing of a function writes. -/
def Sizing (k : BusAddr) (count : ℕ) (a : UInt32) : Prop :=
  a = k.reg pciCmd ∨ ∃ i < count, a = k.reg (pciBar0 + 4 * UInt8.ofNat i)

variable (C : CfgSpace σ)

/-- The space has the content `c` in the registers that identify a function. -/
def Reads (s : σ) : Prop := ∀ a, Ident c a → C.read a s = c a

/-- Content that does not change when command and base registers are written. -/
def StableCfg : Prop :=
  ∀ s k count a v, Reads c C s → headerType c k &&& 0x7F = 0 ∧ count = 6 ∨
    headerType c k &&& 0x7F = 1 ∧ count = 2 →
    Sizing k count a → Reads c C (C.write a v s)

end Content

section Machine

variable {C : CfgSpace σ} {m : Machine σ} {d : PciDev}

/-! ## What sizing writes -/

theorem barOff_succ (i : ℕ) :
    pciBar0 + 4 * UInt8.ofNat i + 4 = pciBar0 + 4 * UInt8.ofNat (i + 1) := by
  rw [UInt8.ofNat_add, UInt8.mul_add, UInt8.add_assoc]
  rfl

variable {P : σ → Prop}

theorem sizeRegister_keeps (hw : ∀ v s, P s → P (C.write (k.reg off) v s)) (hm : P m.cfg)
    (raw : UInt32) : P (sizeRegister C k.bus k.dev k.fn off raw m).2.cfg := hw _ _ (hw _ _ hm)

theorem sizeBar_keeps (hw : ∀ a v s, Sizing k count a → P s → P (C.write a v s)) (hm : P m.cfg)
    (hi : i < count) {is64 : Bool} (hi64 : is64 = true → i + 1 < count) (rawLo rawHi : UInt32) :
    P (sizeBar C k.bus k.dev k.fn (pciBar0 + 4 * UInt8.ofNat i) is64 rawLo rawHi m).2.cfg := by
  have hcmd : ∀ v s, P s → P (C.write (k.reg pciCmd) v s) := fun v s => hw _ v s (Or.inl rfl)
  have hlow : ∀ v s, P s → P (C.write (k.reg (pciBar0 + 4 * UInt8.ofNat i)) v s) :=
    fun v s => hw _ v s (Or.inr ⟨i, hi, rfl⟩)
  have h1 := sizeRegister_keeps (m := pciWrite32 C k.bus k.dev k.fn pciCmd
    (pciRead32 C k.bus k.dev k.fn pciCmd m &&& 0xFFFD) { m with interrupts := false }) hlow
      (hcmd _ _ hm) rawLo
  cases is64 with
  | false =>
    have h2 := hcmd (pciRead32 C k.bus k.dev k.fn pciCmd m &&& 0xFFFF) _ h1
    unfold sizeBar
    dsimp only
    split
    · exact h2
    · exact h2
  | true =>
    have hhigh : ∀ v s, P s → P (C.write (k.reg (pciBar0 + 4 * UInt8.ofNat i + 4)) v s) := by
      intro v s
      rw [barOff_succ]
      exact hw _ v s (Or.inr ⟨i + 1, hi64 rfl, rfl⟩)
    have h2 := hcmd (pciRead32 C k.bus k.dev k.fn pciCmd m &&& 0xFFFF) _
      (sizeRegister_keeps hhigh h1 rawHi)
    unfold sizeBar
    dsimp only
    split
    · exact h2
    · exact h2

theorem addr_recordBar (i : ℕ) (d : PciDev) (r : Option (Bool × UInt64 × UInt64)) :
    (recordBar i d r).2.addr = d.addr := by
  cases r <;> rfl

theorem barTurn_keeps (hw : ∀ a v s, Sizing d.addr count a → P s → P (C.write a v s)) (hm : P m.cfg)
    (hi : i < count) :
    P (barTurn C count i d m).2.2.cfg ∧ (barTurn C count i d m).2.1.addr = d.addr := by
  unfold barTurn
  dsimp only
  split
  · exact ⟨hm, rfl⟩
  split
  · exact ⟨hm, rfl⟩
  next hlast =>
    refine ⟨sizeBar_keeps hw hm hi ?_ _ _, addr_recordBar i d _⟩
    intro h64
    by_contra hge
    exact hlast ⟨h64, by omega⟩

theorem readBarsFrom_keeps (count turns i : ℕ) (d : PciDev) (m : Machine σ)
    (hw : ∀ a v s, Sizing d.addr count a → P s → P (C.write a v s)) (hm : P m.cfg) :
    P (readBarsFrom C count turns i d m).2.cfg ∧ (readBarsFrom C count turns i d m).1.addr =
      d.addr := by
  induction turns generalizing i d m with
  | zero => exact ⟨hm, rfl⟩
  | succ turns ih =>
    unfold readBarsFrom
    split
    next hi =>
      have hturn := barTurn_keeps hw hm hi
      have hrest := ih (barTurn C count i d m).1 (barTurn C count i d m).2.1
        (barTurn C count i d m).2.2
        (by rw [hturn.2]; exact hw) hturn.1
      exact ⟨hrest.1, hrest.2.trans hturn.2⟩
    next => exact ⟨hm, rfl⟩

end Machine

/-! ## What a part of the scan has done -/

section Scanned

variable (C : CfgSpace σ) (c : UInt32 → UInt32)

def PciTable.addrs (s : PciTable σ) : List BusAddr := s.devs.map PciDev.addr

/-- The functions a part of the scan answers for: those it was called for, and those of the buses
that it was the first to see. -/
def Charge (A : BusAddr → Prop) (s s' : PciTable σ) (k : BusAddr) : Prop :=
  A k ∨ s.seen k.bus = false ∧ s'.seen k.bus = true

/-- The scan went from `s` to `s'` and was called for the functions `A`, all of them on buses that
can be reached if `R` holds. -/
structure Scanned (R : Prop) (A : BusAddr → Prop) (s s' : PciTable σ) : Prop where
  reads : Reads c C s'.machine.cfg
  seen : ∀ b, s.seen b = true → s'.seen b = true
  overflow : s.overflow = true → s'.overflow = true
  found : ∃ new, s'.addrs = s.addrs ++ new ∧ new.Nodup ∧
    (∀ k ∈ new, Charge A s s' k ∧ IsFunction c k) ∧
    (s'.overflow = false → ∀ k, IsFunction c k → Charge A s s' k → k ∈ new)
  closed : s'.overflow = false → ∀ k, IsFunction c k → IsBridge c k → Charge A s s' k →
    s'.seen (secondary c k) = true
  reach : R → ∀ b, s.seen b = false → s'.seen b = true → Reachable c b

variable {C c} {A A' : BusAddr → Prop} {s s' s'' : PciTable σ}

/-- Nothing to find. -/
theorem Scanned.none (h : Reads c C s.machine.cfg) (hA : ∀ k, A k → ¬ IsFunction c k) :
    Scanned C c R A s s := by
  have hcharge : ∀ k, IsFunction c k → ¬ Charge A s s k := by
    intro k hk hc
    rcases hc with hc | ⟨hc, hc'⟩
    · exact hA k hc hk
    · rw [hc] at hc'
      cases hc'
  refine ⟨h, fun _ => id, id, ⟨[], by simp, List.nodup_nil, by simp, ?_⟩, ?_, ?_⟩
  · intro _ k hk hc
    exact absurd hc (hcharge k hk)
  · intro _ k hk _ hc
    exact absurd hc (hcharge k hk)
  · intro _ b hb hb'
    rw [hb] at hb'
    cases hb'

theorem Scanned.seen_false (h : Scanned C c R A s s') (hb : s'.seen b = false) :
    s.seen b = false := by
  cases hs : s.seen b with
  | false => rfl
  | true => rw [h.seen b hs] at hb; cases hb

/-- Two parts of the scan of one bus answer for what they answer for one by one. -/
theorem Scanned.charge_iff (h : Scanned C c R A s s') (h' : Scanned C c R A' s' s'') (k : BusAddr) :
    Charge (fun k => A k ∨ A' k) s s'' k ↔ Charge A s s' k ∨ Charge A' s' s'' k := by
  constructor
  · rintro ((hA | hA') | ⟨hs, hs''⟩)
    · exact Or.inl (Or.inl hA)
    · exact Or.inr (Or.inl hA')
    · cases hs' : s'.seen k.bus with
      | true => exact Or.inl (Or.inr ⟨hs, hs'⟩)
      | false => exact Or.inr (Or.inr ⟨hs', hs''⟩)
  · rintro ((hA | ⟨hs, hs'⟩) | (hA' | ⟨hs', hs''⟩))
    · exact Or.inl (Or.inl hA)
    · exact Or.inr ⟨hs, h'.seen _ hs'⟩
    · exact Or.inl (Or.inr hA')
    · exact Or.inr ⟨h.seen_false hs', hs''⟩

theorem Scanned.trans (h : Scanned C c R A s s') (h' : Scanned C c R A' s' s'')
    (hA : ∀ k, A k → s.seen k.bus = true) (hA' : ∀ k, A' k → s.seen k.bus = true)
    (hdisj : ∀ k, A k → ¬ A' k) : Scanned C c R (fun k => A k ∨ A' k) s s'' := by
  have hov : s''.overflow = false → s'.overflow = false := by
    intro hs''
    cases hs' : s'.overflow with
    | false => rfl
    | true => rw [h'.overflow hs'] at hs''; cases hs''
  refine ⟨h'.reads, fun b hb => h'.seen b (h.seen b hb), fun ho => h'.overflow (h.overflow ho), ?_,
    ?_, ?_⟩
  · obtain ⟨new, heq, hnodup, hsound, hcomplete⟩ := h.found
    obtain ⟨new', heq', hnodup', hsound', hcomplete'⟩ := h'.found
    refine ⟨new ++ new', by rw [heq', heq, List.append_assoc], ?_, ?_, ?_⟩
    · rw [List.nodup_append]
      refine ⟨hnodup, hnodup', ?_⟩
      rintro k hk _ hk' rfl
      -- no function is in the charge of both parts
      rcases (hsound k hk).1 with hc | ⟨hs, hs'⟩ <;> rcases (hsound' k hk').1 with hc' | ⟨ht, ht'⟩
      · exact hdisj k hc hc'
      · have := h.seen _ (hA k hc)
        rw [ht] at this
        cases this
      · rw [hA' k hc'] at hs
        cases hs
      · rw [hs'] at ht
        cases ht
    · intro k hk
      rcases List.mem_append.mp hk with hk | hk
      · exact ⟨(h.charge_iff h' k).mpr (Or.inl (hsound k hk).1), (hsound k hk).2⟩
      · exact ⟨(h.charge_iff h' k).mpr (Or.inr (hsound' k hk).1), (hsound' k hk).2⟩
    · intro hs'' k hk hc
      rcases (h.charge_iff h' k).mp hc with hc | hc
      · exact List.mem_append_left _ (hcomplete (hov hs'') k hk hc)
      · exact List.mem_append_right _ (hcomplete' hs'' k hk hc)
  · intro hs'' k hk hb hc
    rcases (h.charge_iff h' k).mp hc with hc | hc
    · exact h'.seen _ (h.closed (hov hs'') k hk hb hc)
    · exact h'.closed hs'' k hk hb hc
  · intro hR b hb hb''
    cases hs' : s'.seen b with
    | true => exact h.reach hR b hb hs'
    | false => exact h'.reach hR b hs' hb''

/-- The functions `A` may be widened by places where there is no function. -/
theorem Scanned.widen (h : Scanned C c R A s s') (hsub : ∀ k, A k → A' k)
    (hsup : ∀ k, A' k → IsFunction c k → A k) : Scanned C c R A' s s' := by
  have hdown : ∀ k, IsFunction c k → Charge A' s s' k → Charge A s s' k := by
    rintro k hk (hc | hc)
    · exact Or.inl (hsup k hc hk)
    · exact Or.inr hc
  obtain ⟨new, heq, hnodup, hsound, hcomplete⟩ := h.found
  refine ⟨h.reads, h.seen, h.overflow, ⟨new, heq, hnodup, ?_, ?_⟩, ?_, h.reach⟩
  · intro k hk
    refine ⟨?_, (hsound k hk).2⟩
    rcases (hsound k hk).1 with hc | hc
    · exact Or.inl (hsub k hc)
    · exact Or.inr hc
  · intro hs' k hk hc
    exact hcomplete hs' k hk (hdown k hk hc)
  · intro hs' k hk hb hc
    exact h.closed hs' k hk hb (hdown k hk hc)

/-- The base registers of an entry are no part of what was found. -/
theorem Scanned.congr (h : Scanned C c R A s s') (hreads : Reads c C s''.machine.cfg)
    (haddrs : s''.addrs = s'.addrs) (hseen : s''.seen = s'.seen)
    (hov : s''.overflow = s'.overflow) : Scanned C c R A s s'' := by
  have hcharge : ∀ k, Charge A s s'' k ↔ Charge A s s' k := by
    intro k
    unfold Charge
    rw [hseen]
  obtain ⟨new, heq, hnodup, hsound, hcomplete⟩ := h.found
  refine ⟨hreads, by rw [hseen]; exact h.seen, by rw [hov]; exact h.overflow,
    ⟨new, by rw [haddrs, heq], hnodup, ?_, ?_⟩, ?_, ?_⟩
  · intro k hk
    rw [hcharge]
    exact hsound k hk
  · intro hs'' k hk hc
    rw [hcharge] at hc
    rw [hov] at hs''
    exact hcomplete hs'' k hk hc
  · intro hs'' k hk hb hc
    rw [hcharge] at hc
    rw [hov] at hs''
    rw [hseen]
    exact h.closed hs'' k hk hb hc
  · rw [hseen]
    exact h.reach

/-- The table is full. -/
theorem Scanned.full (h : Reads c C s.machine.cfg) :
    Scanned C c R A s { s with overflow := true } := by
  refine ⟨h, fun _ => id, fun _ => rfl,
    ⟨[], by simp [PciTable.addrs], List.nodup_nil, by simp, by simp⟩, by simp, ?_⟩
  intro _ b hb hb'
  rw [hb] at hb'
  cases hb'

/-- A function that was entered in the table, with the scan of the bus behind it if it is a
bridge. -/
theorem Scanned.enter {t : PciTable σ} (hk : IsFunction c k) (hseen : s.seen k.bus = true)
    (haddrs : t.addrs = s.addrs ++ [k]) (hts : t.seen = s.seen) (hto : t.overflow = s.overflow)
    (h : Scanned C c R (fun _ => False) t s')
    (hbridge : IsBridge c k → s'.seen (secondary c k) = true) : Scanned C c R (· = k) s s' := by
  obtain ⟨new, heq, hnodup, hsound, hcomplete⟩ := h.found
  have hcharge : ∀ j, Charge (· = k) s s' j ↔ j = k ∨ Charge (fun _ => False) t s' j := by
    intro j
    unfold Charge
    rw [hts, false_or]
  refine ⟨h.reads, by rw [← hts]; exact h.seen, by rw [← hto]; exact h.overflow,
    ⟨k :: new, by rw [heq, haddrs, List.append_assoc]; rfl, ?_, ?_, ?_⟩,
    ?_, by rw [← hts]; exact h.reach⟩
  · rw [List.nodup_cons]
    refine ⟨?_, hnodup⟩
    intro hmem
    rcases (hsound k hmem).1 with hc | ⟨hc, _⟩
    · exact hc
    · rw [hts, hseen] at hc
      cases hc
  · intro j hj
    rw [hcharge]
    rcases List.mem_cons.mp hj with rfl | hj
    · exact ⟨Or.inl rfl, hk⟩
    · exact ⟨Or.inr (hsound j hj).1, (hsound j hj).2⟩
  · intro hs' j hj hc
    rcases (hcharge j).mp hc with rfl | hc
    · exact List.mem_cons_self
    · exact List.mem_cons_of_mem _ (hcomplete hs' j hj hc)
  · intro hs' j hj hb hc
    rcases (hcharge j).mp hc with rfl | hc
    · exact hbridge hb
    · exact h.closed hs' j hj hb hc

/-- An entry keeps its place in the table. -/
theorem Scanned.entry {t : PciTable σ} (h : Scanned C c R A t s')
    (haddrs : t.addrs = s.addrs ++ [k]) : s'.addrs[s.devs.length]? = some k := by
  obtain ⟨new, heq, -⟩ := h.found
  have hlen : s.devs.length = s.addrs.length := (List.length_map _).symm
  rw [heq, haddrs, hlen, List.append_assoc, List.getElem?_append_right (Nat.le_refl _),
    Nat.sub_self]
  rfl

/-- A bus that is seen for the first time, with all its functions. -/
theorem Scanned.bus (hb : s.seen b = false)
    (h : Scanned C c R A { s with seen := update s.seen b true } s') (hA : ∀ k, A k → k.bus = b)
    (hall : ∀ k, IsFunction c k → k.bus = b → A k) (hR : R → Reachable c b) :
    Scanned C c R (fun _ => False) s s' := by
  have hsb : s'.seen b = true := h.seen b (update_self b true s.seen)
  have hseen : ∀ b', b' ≠ b → (update s.seen b true) b' = s.seen b' :=
    fun b' hne => update_of_ne hne _ _
  obtain ⟨new, heq, hnodup, hsound, hcomplete⟩ := h.found
  have hup : ∀ k, IsFunction c k → Charge (fun _ => False) s s' k →
      Charge A { s with seen := update s.seen b true } s' k := by
    rintro k hk (hc | ⟨hc, hc'⟩)
    · exact absurd hc id
    · by_cases hkb : k.bus = b
      · exact Or.inl (hall k hk hkb)
      · exact Or.inr ⟨(hseen _ hkb).trans hc, hc'⟩
  have hdown : ∀ k, Charge A { s with seen := update s.seen b true } s' k →
      Charge (fun _ => False) s s' k := by
    rintro k (hc | ⟨hc, hc'⟩)
    · rw [← hA k hc] at hb hsb
      exact Or.inr ⟨hb, hsb⟩
    · by_cases hkb : k.bus = b
      · rw [← hkb] at hb hsb
        exact Or.inr ⟨hb, hsb⟩
      · exact Or.inr ⟨(hseen _ hkb).symm.trans hc, hc'⟩
  refine ⟨h.reads, ?_, h.overflow,
    ⟨new, heq, hnodup, fun k hk => ⟨hdown k (hsound k hk).1, (hsound k hk).2⟩, ?_⟩, ?_, ?_⟩
  · intro b' hb'
    by_cases hbb : b' = b
    · rw [hbb]
      exact hsb
    · exact h.seen b' ((hseen b' hbb).trans hb')
  · intro hs' k hk hc
    exact hcomplete hs' k hk (hup k hk hc)
  · intro hs' k hk hbr hc
    exact h.closed hs' k hk hbr (hup k hk hc)
  · intro hr b' hb' hb''
    by_cases hbb : b' = b
    · rw [hbb]
      exact hR hr
    · exact h.reach hr b' ((hseen b' hbb).trans hb') hb''

end Scanned

/-! ## The functions of the scan -/

section Specs

variable {C : CfgSpace σ} {s s' : PciTable σ}

/-- The number of buses not yet seen: what bounds the depth of the recursion. -/
def unseen (s : PciTable σ) : ℕ :=
  ((Finset.range 256).filter fun b => s.seen (UInt8.ofNat b) = false).card

theorem Scanned.unseen_le {A : BusAddr → Prop} (h : Scanned C c R A s s') :
    unseen s' ≤ unseen s := by
  apply Finset.card_le_card
  intro b hb
  rw [Finset.mem_filter] at hb ⊢
  exact ⟨hb.1, h.seen_false hb.2⟩

theorem unseen_mark (hb : s.seen b = false) :
    unseen { s with seen := update s.seen b true } < unseen s := by
  apply Finset.card_lt_card
  rw [Finset.ssubset_iff_of_subset]
  · refine ⟨b.toNat, ?_, ?_⟩
    · rw [Finset.mem_filter, Finset.mem_range, UInt8.ofNat_toNat]
      exact ⟨b.toNat_lt, hb⟩
    · rw [Finset.mem_filter, UInt8.ofNat_toNat]
      simp
  · intro i hi
    rw [Finset.mem_filter] at hi ⊢
    refine ⟨hi.1, ?_⟩
    by_cases hib : UInt8.ofNat i = b
    · rw [hib] at hi
      simp at hi
    · simpa [update_of_ne hib] using hi.2

/-- What a scan of a bus is to do, with fewer than `n` buses unseen. -/
def ScansBus (C : CfgSpace σ) (c : UInt32 → UInt32) (scan : UInt8 → PciTable σ →
    Option (PciTable σ)) (n : ℕ) : Prop :=
  ∀ bus s, Reads c C s.machine.cfg → unseen s < n →
    ∃ s', scan bus s = some s' ∧ s'.seen bus = true ∧
      Scanned C c (Reachable c bus) (fun _ => False) s s'

/-- A loop over places of one bus. -/
theorem Scanned.foldlM {A : α → BusAddr → Prop} (bus : UInt8)
    (step : PciTable σ → α → Option (PciTable σ)) (hA : ∀ x k, A x k → k.bus = bus) (l : List α)
    (hdisj : l.Pairwise fun x y => ∀ k, A x k → ¬ A y k)
    (hstep : ∀ x ∈ l, ∀ t, Reads c C t.machine.cfg → t.seen bus = true → unseen t < n →
      ∃ t', step t x = some t' ∧ Scanned C c R (A x) t t')
    (s : PciTable σ) (hreads : Reads c C s.machine.cfg) (hseen : s.seen bus = true)
    (hn : unseen s < n) :
    ∃ s', l.foldlM step s = some s' ∧ Scanned C c R (fun k => ∃ x ∈ l, A x k) s s' := by
  induction l generalizing s with
  | nil =>
    refine ⟨s, rfl, Scanned.none hreads ?_⟩
    simp
  | cons x l ih =>
    obtain ⟨t, ht, hst⟩ := hstep x List.mem_cons_self s hreads hseen hn
    rw [List.pairwise_cons] at hdisj
    obtain ⟨s', hs', hts⟩ :=
      ih hdisj.2 (fun y hy => hstep y (List.mem_cons_of_mem x hy)) t hst.reads (hst.seen bus hseen)
      (lt_of_le_of_lt hst.unseen_le hn)
    refine ⟨s', by rw [List.foldlM_cons, ht]; exact hs', ?_⟩
    refine (hst.trans hts ?_ ?_ ?_).widen ?_ ?_
    · intro k hk
      rw [hA x k hk]
      exact hseen
    · rintro k ⟨y, _, hk⟩
      rw [hA y k hk]
      exact hseen
    · rintro k hk ⟨y, hy, hk'⟩
      exact hdisj.1 y hy k hk hk'
    · rintro k (hk | ⟨y, hy, hk⟩)
      · exact ⟨x, List.mem_cons_self, hk⟩
      · exact ⟨y, List.mem_cons_of_mem x hy, hk⟩
    · rintro k ⟨y, hy, hk⟩ _
      rcases List.mem_cons.mp hy with rfl | hy
      · exact Or.inl hk
      · exact Or.inr ⟨y, hy, hk⟩

theorem Reads.idOf_eq (h : Reads c C s.machine.cfg) (k : BusAddr) :
    idOf C s k.bus k.dev k.fn = c (k.reg 0x00) :=
  h _ ⟨k, Or.inl rfl⟩

theorem Reads.classOf_eq (h : Reads c C s.machine.cfg) (k : BusAddr) :
    classOf C s k.bus k.dev k.fn = c (k.reg 0x08) :=
  h _ ⟨k, Or.inr (Or.inl rfl)⟩

theorem Reads.headerOf_eq (h : Reads c C s.machine.cfg) (k : BusAddr) :
    headerOf C s k.bus k.dev k.fn = headerType c k := by
  have hread : pciRead32 C k.bus k.dev k.fn 0x0C s.machine = c (k.reg 0x0C) :=
    h _ ⟨k, Or.inr (Or.inr (Or.inl rfl))⟩
  rw [headerOf, hread, headerType]

/-- Reading the base registers of an entry keeps the content and the place of the entry. -/
theorem readBarsAt_spec (hstable : StableCfg c C) (hreads : Reads c C s.machine.cfg)
    (hi : s.addrs[i]? = some k)
    (hcount : headerType c k &&& 0x7F = 0 ∧ count = 6 ∨ headerType c k &&& 0x7F = 1 ∧ count = 2) :
    Reads c C (readBarsAt C i count s).machine.cfg ∧ (readBarsAt C i count s).addrs = s.addrs ∧
      (readBarsAt C i count s).seen = s.seen ∧ (readBarsAt C i count s).overflow = s.overflow := by
  rw [PciTable.addrs, List.getElem?_map, Option.map_eq_some_iff] at hi
  obtain ⟨d, hd, rfl⟩ := hi
  have hkeeps := readBarsFrom_keeps (P := Reads c C) count count 0 d s.machine
    (fun a v t ha ht => hstable t d.addr count a v ht hcount ha) hreads
  simp only [readBarsAt, hd]
  refine ⟨hkeeps.1, ?_, trivial, trivial⟩
  apply List.ext_getElem?
  intro j
  rw [PciTable.addrs, PciTable.addrs, List.getElem?_map, List.getElem?_map, List.getElem?_set]
  split
  next hij =>
    subst hij
    rw [if_pos (List.getElem?_eq_some_iff.mp hd).1, hd]
    exact congrArg some hkeeps.2
  next => rfl

theorem scanFunction_spec {scan : UInt8 → PciTable σ → Option (PciTable σ)}
    (hstable : StableCfg c C) (hscan : ScansBus C c scan n) (hreads : Reads c C s.machine.cfg)
    (hseen : s.seen k.bus = true) (hn : unseen s < n) (hk : Present c k → IsFunction c k) :
    ∃ s', scanFunction C scan k.bus k.dev k.fn s = some s' ∧
      Scanned C c (Reachable c k.bus) (· = k) s s' := by
  unfold scanFunction
  rw [hreads.idOf_eq k]
  split
  next habsent =>
    refine ⟨s, rfl, Scanned.none hreads ?_⟩
    rintro j rfl hj
    exact hj.present habsent
  next hpresent =>
  split
  next hfull => exact ⟨_, rfl, Scanned.full hreads⟩
  next hroom =>
  have hfun := hk hpresent
  dsimp only
  have hheader : (newDev C s k.bus k.dev k.fn).headerType = headerType c k &&& 0x7F := by
    rw [← hreads.headerOf_eq k]
    rfl
  have hclass : (newDev C s k.bus k.dev k.fn).classCode = (c (k.reg 0x08) >>> 24).toUInt8 := by
    rw [← hreads.classOf_eq k]
    rfl
  have hsub : (newDev C s k.bus k.dev k.fn).subclass = (c (k.reg 0x08) >>> 16).toUInt8 := by
    rw [← hreads.classOf_eq k]
    rfl
  rw [hheader, hclass, hsub]
  have haddrs : PciTable.addrs { s with devs := s.devs ++ [newDev C s k.bus k.dev k.fn] } =
      s.addrs ++ [k] := by
    simp only [PciTable.addrs, List.map_append, List.map_cons, List.map_nil]
    rfl
  -- the table after the bus behind the function, if there is one
  have hentered : ∃ t, (if headerType c k &&& 0x7F = 1 ∧ (c (k.reg 0x08) >>> 24).toUInt8 = 0x06 ∧
      (c (k.reg 0x08) >>> 16).toUInt8 = 0x04 then
        scan (pciRead32 C k.bus k.dev k.fn 0x18 s.machine >>> 8).toUInt8
        { s with devs := s.devs ++ [newDev C s k.bus k.dev k.fn] }
      else some { s with devs := s.devs ++ [newDev C s k.bus k.dev k.fn] }) = some t ∧
      Scanned C c (Reachable c k.bus) (· = k) s t ∧ t.addrs[s.devs.length]? = some k := by
    split
    next hbridge =>
      have hb : IsBridge c k := ⟨hbridge.1, hbridge.2.1, hbridge.2.2⟩
      have hread : pciRead32 C k.bus k.dev k.fn 0x18 s.machine = c (k.reg 0x18) :=
        hreads _ ⟨k, Or.inr (Or.inr (Or.inr ⟨rfl, hbridge.1⟩))⟩
      rw [hread]
      obtain ⟨t, ht, hseen', hst⟩ :=
        hscan (secondary c k) { s with devs := s.devs ++ [newDev C s k.bus k.dev k.fn] } hreads hn
      have hst' := { hst with reach := fun hr => hst.reach (Reachable.bridge hr hfun hb) }
      exact ⟨t, ht, Scanned.enter hfun hseen haddrs rfl rfl hst' fun _ => hseen', hst.entry haddrs⟩
    next hbridge =>
      have hst := Scanned.none (R := Reachable c k.bus) (A := fun _ => False)
        (s := { s with devs := s.devs ++ [newDev C s k.bus k.dev k.fn] }) hreads fun _ h => h.elim
      refine ⟨_, rfl, Scanned.enter hfun hseen haddrs rfl rfl hst ?_, hst.entry haddrs⟩
      intro hb
      exact absurd ⟨hb.header, hb.classCode, hb.subclass⟩ hbridge
  obtain ⟨t, ht, hst, hentry⟩ := hentered
  rw [ht, Option.map_some]
  refine ⟨_, rfl, ?_⟩
  split_ifs with h0 h1
  · obtain ⟨hr, ha, hs, ho⟩ := readBarsAt_spec hstable hst.reads hentry (Or.inl ⟨h0, rfl⟩)
    exact hst.congr hr ha hs ho
  · obtain ⟨hr, ha, hs, ho⟩ := readBarsAt_spec hstable hst.reads hentry (Or.inr ⟨h1, rfl⟩)
    exact hst.congr hr ha hs ho
  · exact hst

theorem mem_otherFns : fn ∈ ([1, 2, 3, 4, 5, 6, 7] : List UInt8) ↔ fn ≠ 0 ∧ fn < 8 := by
  simp only [List.mem_cons, List.not_mem_nil, or_false, ← UInt8.toNat_inj, UInt8.lt_iff_toNat_lt,
    ne_eq, UInt8.reduceToNat]
  omega

theorem mem_devices : dev ∈ (List.range 32).map UInt8.ofNat ↔ dev < 32 := by
  rw [List.mem_map]
  constructor
  · rintro ⟨i, hi, rfl⟩
    rw [List.mem_range] at hi
    rw [UInt8.lt_iff_toNat_lt, UInt8.toNat_ofNat_of_lt' (Nat.lt_of_lt_of_le hi (by decide))]
    exact hi
  · intro h
    refine ⟨dev.toNat, ?_, UInt8.ofNat_toNat⟩
    rw [List.mem_range]
    exact UInt8.lt_iff_toNat_lt.mp h

theorem scanDevice_spec {scan : UInt8 → PciTable σ → Option (PciTable σ)} {bus : UInt8}
    (hstable : StableCfg c C) (hscan : ScansBus C c scan n) (hreads : Reads c C s.machine.cfg)
    (hseen : s.seen bus = true) (hn : unseen s < n) (hdev : dev < 32) :
    ∃ s', scanDevice C scan bus s dev = some s' ∧
      Scanned C c (Reachable c bus) (fun k => k.bus = bus ∧ k.dev = dev) s s' := by
  unfold scanDevice
  rw [hreads.idOf_eq ⟨bus, dev, 0⟩, hreads.headerOf_eq ⟨bus, dev, 0⟩]
  split
  next habsent =>
    refine ⟨s, rfl, Scanned.none hreads ?_⟩
    rintro ⟨b, d, f⟩ ⟨rfl, rfl⟩ hk
    -- without function 0 there is no function at all
    by_cases hf : f = 0
    · subst hf
      exact hk.present habsent
    · exact (hk.first hf).1 habsent
  next hpresent =>
  have hzero : IsFunction c ⟨bus, dev, 0⟩ :=
    ⟨hdev, (by decide : (0 : UInt8) < 8), hpresent, fun h => absurd rfl h⟩
  obtain ⟨t, ht, hst⟩ := scanFunction_spec (k := ⟨bus, dev, 0⟩) hstable hscan hreads hseen hn
    fun _ => hzero
  dsimp only at ht hst ⊢
  rw [ht, Option.bind_some]
  split
  next hmulti =>
    have hloop := Scanned.foldlM (C := C) (c := c) (R := Reachable c bus)
      (A := fun fn k => k = ⟨bus, dev, fn⟩)
      (n := n) bus (fun s fn => scanFunction C scan bus dev fn s) (by rintro x k rfl; rfl)
      ([1, 2, 3, 4, 5, 6, 7] : List UInt8) (by simp) ?_ t hst.reads (hst.seen bus hseen)
        (lt_of_le_of_lt hst.unseen_le hn)
    · obtain ⟨s', hs', hts⟩ := hloop
      refine ⟨s', hs', (hst.trans hts ?_ ?_ ?_).widen ?_ ?_⟩
      · rintro k rfl
        exact hseen
      · rintro k ⟨x, _, rfl⟩
        exact hseen
      · rintro k rfl ⟨x, hx, heq⟩
        rw [← (BusAddr.mk.inj heq).2.2] at hx
        simp at hx
      · rintro k (rfl | ⟨x, _, rfl⟩)
        · exact ⟨rfl, rfl⟩
        · exact ⟨rfl, rfl⟩
      · rintro ⟨b, d, f⟩ ⟨rfl, rfl⟩ hk
        by_cases hf : f = 0
        · exact Or.inl (by rw [hf])
        · exact Or.inr ⟨f, mem_otherFns.mpr ⟨hf, hk.fn_lt⟩, rfl⟩
    · intro fn hfn t' hr hs hu
      exact scanFunction_spec (k := ⟨bus, dev, fn⟩) hstable hscan hr hs hu fun hp =>
        ⟨hdev, (mem_otherFns.mp hfn).2, hp, fun _ => ⟨hpresent, hmulti⟩⟩
  next hmulti =>
    refine ⟨t, rfl, hst.widen ?_ ?_⟩
    · rintro k rfl
      exact ⟨rfl, rfl⟩
    · rintro ⟨b, d, f⟩ ⟨rfl, rfl⟩ hk
      by_contra hne
      have hf : f ≠ 0 := by
        rintro rfl
        exact hne rfl
      exact hmulti (hk.first hf).2

theorem scanBus_spec (hstable : StableCfg c C) (fuel : ℕ) : ScansBus C c (scanBus C fuel) fuel := by
  induction fuel with
  | zero =>
    intro bus s _ hn
    exact absurd hn (Nat.not_lt_zero _)
  | succ fuel ih =>
    intro bus s hreads hn
    unfold scanBus
    split
    next hseen => exact ⟨s, rfl, hseen, Scanned.none hreads fun _ h => h.elim⟩
    next hseen =>
      rw [Bool.not_eq_true] at hseen
      have hmark := unseen_mark hseen
      have hloop := Scanned.foldlM (C := C) (c := c) (R := Reachable c bus)
        (A := fun dev k => k.bus = bus ∧ k.dev = dev)
        (n := fuel) bus (scanDevice C (scanBus C fuel) bus) (fun x k h => h.1)
        ((List.range 32).map UInt8.ofNat) ?_ ?_ { s with seen := update s.seen bus true } hreads
        (update_self bus true s.seen) (by omega)
      · obtain ⟨s', hs', hst⟩ := hloop
        refine ⟨s', hs', hst.seen bus (update_self bus true s.seen), hst.bus hseen ?_ ?_ id⟩
        · rintro k ⟨x, _, hk⟩
          exact hk.1
        · intro k hk hbus
          exact ⟨k.dev, mem_devices.mpr hk.dev_lt, hbus, rfl⟩
      · have hnodup : ((List.range 32).map UInt8.ofNat).Nodup := by decide
        refine hnodup.imp ?_
        intro x y hne k hx hy
        exact hne (hx.2.symm.trans hy.2)
      · intro dev hdev t hr hs hu
        exact scanDevice_spec hstable ih hr hs hu (mem_devices.mp hdev)

/-- **The enumeration is complete and ends**, for every stable content of the configuration space:
no function is in the table twice, and unless the table was too small it holds exactly the functions
of the buses that can be reached from bus 0. -/
theorem pciScan_complete (C : CfgSpace σ) (c : UInt32 → UInt32) (hstable : StableCfg c C)
    (m : Machine σ) (hreads : Reads c C m.cfg) (fuel : ℕ) (hfuel : 256 < fuel) :
    ∃ result table, pciScan C fuel m = some (result, table) ∧ table.addrs.Nodup ∧
      (result ≠ -1 → result = table.devs.length ∧ ∀ k, k ∈ table.addrs ↔ Reachable c k.bus ∧
        IsFunction c k) := by
  have hunseen : unseen ⟨[], false, fun _ => false, m⟩ < fuel := by
    refine lt_of_le_of_lt (Finset.card_filter_le _ _) ?_
    rw [Finset.card_range]
    exact hfuel
  obtain ⟨s, hs, hseen, hst⟩ :=
    scanBus_spec hstable fuel 0 ⟨[], false, fun _ => false, m⟩ hreads hunseen
  obtain ⟨new, heq, hnodup, hsound, hcomplete⟩ := hst.found
  have haddrs : s.addrs = new := heq
  refine ⟨_, s, by rw [pciScan, hs, Option.map_some], by rw [haddrs]; exact hnodup, ?_⟩
  intro hres
  have hov : s.overflow = false := by
    cases ho : s.overflow with
    | false => rfl
    | true => simp [ho] at hres
  refine ⟨by simp [hov], ?_⟩
  have hreach : ∀ b, Reachable c b → s.seen b = true := by
    intro b hb
    induction hb with
    | root => exact hseen
    | bridge _ hk hbr ih => exact hst.closed hov _ hk hbr (Or.inr ⟨rfl, ih⟩)
  intro k
  rw [haddrs]
  constructor
  · intro hk
    obtain ⟨hc, hfun⟩ := hsound k hk
    rcases hc with hc | ⟨hc, hc'⟩
    · exact hc.elim
    · exact ⟨hst.reach Reachable.root k.bus hc hc', hfun⟩
  · rintro ⟨hr, hfun⟩
    exact hcomplete hov k hfun (Or.inr ⟨rfl, hreach _ hr⟩)

/-- A machine with one device, a bridge whose secondary bus is bus 0 itself. -/
def loopContent (a : UInt32) : UInt32 :=
  if a = BusAddr.reg ⟨0, 0, 0⟩ 0x00 then 0x12345678
  else if a = BusAddr.reg ⟨0, 0, 0⟩ 0x08 then 0x06040000
  else if a = BusAddr.reg ⟨0, 0, 0⟩ 0x0C then 0x00010000
  else if a = BusAddr.reg ⟨0, 0, 0⟩ 0x18 then 0
  else 0xFFFFFFFF

theorem pciScan_complete_loop :
    ∃ result table, pciScan ⟨fun a _ => loopContent a, fun _ _ s => s⟩ 257
      (⟨(), true, []⟩ : Machine Unit) = some (result, table) ∧
      table.addrs.Nodup ∧ (result ≠ -1 → result = table.devs.length ∧
        ∀ k, k ∈ table.addrs ↔ Reachable loopContent k.bus ∧ IsFunction loopContent k) :=
  pciScan_complete ⟨fun a _ => loopContent a, fun _ _ s => s⟩ loopContent (fun _ _ _ _ _ h _ _ => h)
    ⟨(), true, []⟩
    (fun _ _ => rfl) 257 (by decide)

end Specs

end Xasmos.Pci
