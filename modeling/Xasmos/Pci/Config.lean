import Mathlib.Logic.Function.Basic
import Mathlib.Tactic.Common

/-!
# PCI enumeration

The model of `pci.c`. A configuration space is any device that answers 32-bit reads and takes 32-bit
writes at the addresses of mechanism 1; it may change in any way on a write and does not change on a
read. The two functions `scan_bus` and `scan_function` call each other; `scanFunction` takes the
scan of a bus as an argument and `scanBus` ties the knot with a bound on the depth.

## Main definitions

* `readBars` — the sizing of the base registers of one function.
* `pciScan` — the enumeration from bus 0.
-/
namespace Xasmos.Pci

/-- A configuration space, with one register at each address that is written to port 0xCF8. -/
structure CfgSpace (σ : Type) where
  read : UInt32 → σ → UInt32
  write : UInt32 → UInt32 → σ → σ

/-- One write, with the configuration space and the interrupt flag as it left them. -/
structure Access (σ : Type) where
  addr : UInt32
  value : UInt32
  cfg : σ
  interrupts : Bool

/-- The configuration space, the interrupt flag and the writes so far, the last one first. -/
structure Machine (σ : Type) where
  cfg : σ
  interrupts : Bool
  trace : List (Access σ)

/-- `PciDev`. -/
structure PciDev where
  bus : UInt8
  dev : UInt8
  fn : UInt8
  classCode : UInt8
  subclass : UInt8
  progIf : UInt8
  headerType : UInt8
  vendor : UInt16
  device : UInt16
  bar : ℕ → UInt64
  barSize : ℕ → UInt64

/-- `PCI_MAX_DEVICES`. -/
def pciMaxDevices : ℕ := 64

def pciCmd : UInt8 := 0x04
def pciBar0 : UInt8 := 0x10

/-- `cfg_addr`. -/
def cfgAddr (bus dev fn off : UInt8) : UInt32 :=
  (0x80000000 : UInt32) ||| bus.toUInt32 <<< 16 ||| (dev &&& 0x1F).toUInt32 <<< 11 |||
    (fn &&& 0x07).toUInt32 <<< 8 ||| (off.toUInt32 &&& 0xFC)

section Access

variable {σ : Type} (C : CfgSpace σ)

/-- `pci_read32`. -/
def pciRead32 (bus dev fn off : UInt8) (m : Machine σ) : UInt32 :=
  C.read (cfgAddr bus dev fn off) m.cfg

/-- `pci_write32`. -/
def pciWrite32 (bus dev fn off : UInt8) (v : UInt32) (m : Machine σ) : Machine σ :=
  let cfg := C.write (cfgAddr bus dev fn off) v m.cfg
  ⟨cfg, m.interrupts, ⟨cfgAddr bus dev fn off, v, cfg, m.interrupts⟩ :: m.trace⟩

end Access

/-! ## Base registers -/

/-- `pci_decode_bar`: nothing for an I/O or unused register; otherwise whether the register is the
low half of a 64-bit one, its base and its size. -/
def pciDecodeBar (rawLo rawHi mLo mHi : UInt32) : Option (Bool × UInt64 × UInt64) :=
  if rawLo &&& 1 ≠ 0 then none
  else if (rawLo >>> 1) &&& 3 = 2 then
    let mask := mHi.toUInt64 <<< 32 ||| (mLo &&& ~~~0xF).toUInt64
    if mask = 0 then none
    else some (true, rawHi.toUInt64 <<< 32 ||| (rawLo &&& ~~~0xF).toUInt64, ~~~mask + 1)
  else
    let mask := mLo &&& ~~~0xF
    if mask = 0 then none else some (false, (rawLo &&& ~~~0xF).toUInt64, (~~~mask + 1).toUInt64)

/-- What `read_bars` does with a decoded register `i`: the next register and the device. -/
def recordBar (i : ℕ) (d : PciDev) : Option (Bool × UInt64 × UInt64) → ℕ × PciDev
  | none => (i + 1, d)
  | some (wide, base, size) =>
    -- the high half of a 64-bit register has used the next slot
    (if wide then i + 2 else i + 1,
      { d with bar := Function.update d.bar i base, barSize := Function.update d.barSize i size })

section Sizing

variable {σ : Type} (C : CfgSpace σ)

/-- A register written with all ones, read back and restored: the value read back. -/
def sizeRegister (bus dev fn off : UInt8) (raw : UInt32) (m : Machine σ) : UInt32 × Machine σ :=
  let m := pciWrite32 C bus dev fn off 0xFFFFFFFF m
  (pciRead32 C bus dev fn off m, pciWrite32 C bus dev fn off raw m)

/-- The accesses between `irq_save` and `irq_restore` for one base register: the values read
back. -/
def sizeBar (bus dev fn off : UInt8) (is64 : Bool) (rawLo rawHi : UInt32) (m : Machine σ) :
    (UInt32 × UInt32) × Machine σ :=
  let cmd := pciRead32 C bus dev fn pciCmd m
  let irq := m.interrupts
  let m := { m with interrupts := false }
  -- memory decode off
  let m := pciWrite32 C bus dev fn pciCmd (cmd &&& 0xFFFD) m
  let low := sizeRegister C bus dev fn off rawLo m
  let high := if is64 then sizeRegister C bus dev fn (off + 4) rawHi low.2 else (0, low.2)
  -- restore; the status half is written with zeros
  let m := pciWrite32 C bus dev fn pciCmd (cmd &&& 0xFFFF) high.2
  ((low.1, high.1), if irq then { m with interrupts := true } else m)

/-- One turn of the loop of `read_bars` at register `i`: the next register, the device and the
machine. -/
def barTurn (count i : ℕ) (d : PciDev) (m : Machine σ) : ℕ × PciDev × Machine σ :=
  let off := pciBar0 + 4 * UInt8.ofNat i
  let rawLo := pciRead32 C d.bus d.dev d.fn off m
  if rawLo &&& 1 ≠ 0 then (i + 1, d, m)
  else
    let is64 := decide ((rawLo >>> 1) &&& 3 = 2)
    -- no slot for the high half
    if is64 ∧ i + 1 = count then (i + 1, d, m)
    else
      let rawHi := if is64 then pciRead32 C d.bus d.dev d.fn (off + 4) m else 0
      let sized := sizeBar C d.bus d.dev d.fn off is64 rawLo rawHi m
      let recorded := recordBar i d (pciDecodeBar rawLo rawHi sized.1.1 sized.1.2)
      (recorded.1, recorded.2, sized.2)

/-- The loop of `read_bars` from register `i`, in at most `turns` turns. -/
def readBarsFrom (count : ℕ) : ℕ → ℕ → PciDev → Machine σ → PciDev × Machine σ
  | 0, _, d, m => (d, m)
  | turns + 1, i, d, m =>
    if i < count then
      let turn := barTurn C count i d m
      readBarsFrom count turns turn.1 turn.2.1 turn.2.2
    else (d, m)

/-- `read_bars`. Every turn moves on by a register at least. -/
def readBars (d : PciDev) (count : ℕ) (m : Machine σ) : PciDev × Machine σ :=
  readBarsFrom C count count 0 d m

end Sizing

/-! ## The scan -/

/-- The table of the devices found, and the buses already scanned. -/
structure PciTable (σ : Type) where
  devs : List PciDev
  overflow : Bool
  seen : UInt8 → Bool
  machine : Machine σ

section Scan

variable {σ : Type} (C : CfgSpace σ)

/-- The registers of a function that the scan reads. -/
def idOf (s : PciTable σ) (bus dev fn : UInt8) : UInt32 := pciRead32 C bus dev fn 0x00 s.machine
@[inherit_doc idOf]
def classOf (s : PciTable σ) (bus dev fn : UInt8) : UInt32 := pciRead32 C bus dev fn 0x08 s.machine
@[inherit_doc idOf]
def headerOf (s : PciTable σ) (bus dev fn : UInt8) : UInt8 :=
  (pciRead32 C bus dev fn 0x0C s.machine >>> 16).toUInt8

/-- The entry of a function, its base registers not yet read. -/
def newDev (s : PciTable σ) (bus dev fn : UInt8) : PciDev where
  bus := bus
  dev := dev
  fn := fn
  vendor := (idOf C s bus dev fn &&& 0xFFFF).toUInt16
  device := (idOf C s bus dev fn >>> 16).toUInt16
  classCode := (classOf C s bus dev fn >>> 24).toUInt8
  subclass := (classOf C s bus dev fn >>> 16).toUInt8
  progIf := (classOf C s bus dev fn >>> 8).toUInt8
  headerType := headerOf C s bus dev fn &&& 0x7F
  bar := fun _ => 0
  barSize := fun _ => 0

/-- `read_bars` on entry `i` of the table. -/
def readBarsAt (i count : ℕ) (s : PciTable σ) : PciTable σ :=
  match s.devs[i]? with
  | none => s
  | some d =>
    { s with
      devs := s.devs.set i (readBars C d count s.machine).1
      machine := (readBars C d count s.machine).2 }

/-- `scan_function`, with the scan of a bus as an argument. -/
def scanFunction (scan : UInt8 → PciTable σ → Option (PciTable σ)) (bus dev fn : UInt8)
    (s : PciTable σ) : Option (PciTable σ) :=
  if idOf C s bus dev fn &&& 0xFFFF = 0xFFFF then some s
  else if pciMaxDevices ≤ s.devs.length then some { s with overflow := true }
  else
    let d := newDev C s bus dev fn
    let i := s.devs.length
    let s := { s with devs := s.devs ++ [d] }
    let scanned :=
      if d.headerType = 1 ∧ d.classCode = 0x06 ∧ d.subclass = 0x04 then
        scan (pciRead32 C bus dev fn 0x18 s.machine >>> 8).toUInt8 s
      else some s
    scanned.map fun s =>
      if d.headerType = 0 then readBarsAt C i 6 s
      else if d.headerType = 1 then readBarsAt C i 2 s else s

/-- One device of the loop of `scan_bus`. -/
def scanDevice (scan : UInt8 → PciTable σ → Option (PciTable σ)) (bus : UInt8) (s : PciTable σ)
    (dev : UInt8) : Option (PciTable σ) :=
  if idOf C s bus dev 0 &&& 0xFFFF = 0xFFFF then some s
  else
    let multi := headerOf C s bus dev 0 &&& 0x80 ≠ 0
    (scanFunction C scan bus dev 0 s).bind fun s =>
      if multi then ([1, 2, 3, 4, 5, 6, 7] : List UInt8).foldlM
        (fun s fn => scanFunction C scan bus dev fn s) s else some s

/-- `scan_bus`, to a depth of `fuel` calls. -/
def scanBus : ℕ → UInt8 → PciTable σ → Option (PciTable σ)
  | 0, _, _ => none
  | fuel + 1, bus, s =>
    if s.seen bus then some s
    else ((List.range 32).map UInt8.ofNat).foldlM (scanDevice C (scanBus fuel) bus)
      { s with seen := Function.update s.seen bus true }

/-- `pci_scan`: the number of devices or -1, and the table. -/
def pciScan (fuel : ℕ) (m : Machine σ) : Option (Int × PciTable σ) :=
  (scanBus C fuel 0 ⟨[], false, fun _ => false, m⟩).map
    fun s => (if s.overflow then -1 else s.devs.length, s)

end Scan

end Xasmos.Pci
