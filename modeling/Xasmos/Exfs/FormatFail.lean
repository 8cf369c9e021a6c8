import Xasmos.Exfs.Run

/-!
# A format that fails

`exfs_format` may be called while a volume is mounted, on the same or on another device.
It overwrites the device, the geometry and the group map in memory before each of its
failure exits, and touches the two flags behind `exfs_is_mounted` only after the last
of those that do not go through a commit.  So which step fails decides what is left: a
device whose size is out of range, or a failing write of a fresh bitmap, leaves the flags
of the old volume over the geometry or the map of the new one.
-/

namespace Xasmos.Exfs

open Bytes Prog

variable {D D' : Disk} {E : ExfsError → St → Prop} {b d i k k' : ℕ} {left : Option Bytes} {m : GMap}
  {s s' : St} {t t₀ : GSt}

/-- The volume mounted before is the one mounted after: device, geometry, group map and
files are those before. -/
structure Intact (s s' : St) : Prop where
  dev : s'.v.dev = s.v.dev
  gmDev : s'.v.gmDev = s.v.gmDev
  spb : s'.v.spb = s.v.spb
  total : s'.v.total = s.v.total
  gm : s'.v.gm = s.v.gm
  used : ∀ b < s.v.total, used s'.gst b = used s.gst b
  files : s'.v.files = s.v.files
  exts : ∀ i, exts s'.v i = exts s.v i

/-- The record after `geometry` looked at device `d`. -/
def measured (s : St) (d : ℕ) : St :=
  { s with v := { s.v with
    dev := d, spb := blockBytes / (s.disks d).sectorSize, total := volTotal (s.disks d) } }

/-- The sector size of the device is one `geometry` refuses before it assigns anything. -/
def BadSectors (D : Disk) : Prop := D.sectorSize = 0 ∨ blockBytes % D.sectorSize ≠ 0

/-! ## The commit of a new volume -/

section Newborn

variable {e t : St}

theorem Newborn.makeDirs (names : List (List UInt8)) (h : Newborn e t) :
    (makeDirs names).wp (fun _ t' => Newborn e t') E t := by
  induction names generalizing t with
  | nil => exact h
  | cons name names ih =>
    simp only [Exfs.makeDirs, makeNode, wp_bind, wp_attempt, wp_get]
    cases (List.range inodes).find? fun i => !(t.v.files i).used with
    | none => exact ih h
    | some i =>
      have hnew := h.setFile (i := i) (f := newFile (t.v.files i) name typeDir) fun _ => rfl
      exact ih { hnew with dirty := rfl }

theorem wp_orBreak_any {α : Type} {err : ExfsError} (x : FsProg α) {Q : α → St → Prop}
    (hQ : ∀ a s', Q a s') : (orBreak err x).wp Q (fun _ s' => s'.v.broken = true) t :=
  wp_orBreak_iff.mpr (wp_any _ hQ fun _ _ => rfl)

theorem wp_writeItab_any (gen : ℕ) :
    (writeItab gen).wp (fun _ _ => True) (fun _ t' => t'.v.broken = true) t := by
  simp only [writeItab, wp_bind, wp_get]
  exact wp_iterate (fun _ _ _ => True) trivial fun b _ u _ _ => wp_orBreak_any _ fun _ _ => trivial

theorem wp_writeSb_any (gen : ℕ) :
    (writeSb gen).wp (fun _ _ => True) (fun _ t' => t'.v.broken = true) t := by
  simp only [writeSb, wp_bind, wp_get]
  cases sbEncode (commitFields t.v gen) with
  | error e => simp only [wp_bind, modV, wp_modify, wp_throw]
  | ok page => exact wp_orBreak_any _ fun _ _ => trivial

/-- **The commit of a new volume fails only by breaking it**, whatever the device does. -/
theorem Newborn.commit (h : Newborn e t) :
    exfsCommit.wp (fun _ _ => True) (fun _ t' => t'.v.broken = true) t := by
  refine h.wp_commit fun t' _ => ?_
  simp only [wp_bind]
  refine wp_mono (wp_writeItab_any _) (fun _ t₁ _ _ => ?_) fun _ _ _ he => he
  rw [wp_bind]
  exact wp_mono (wp_writeSb_any _) (fun _ _ _ _ => trivial) fun _ _ _ he => he

end Newborn

/-! ## The bitmaps of a new volume -/

/-- The bits of the old bitmaps that are overwritten before and by the write that fails are those
that are written. -/
structure SameBits (m : GMap) (D : Disk) (k : ℕ) : Prop where
  before : ∀ g < k, ∀ i < validBits m g,
    bitOf (D.block (slotBlock m g 0)) i = bitOf (freshBits m g).1 i
  torn : ∀ left, bitmapFault m D k = .fails (some left) → ∀ i < validBits m k,
    bitOf (D.block (slotBlock m k 0)) i = bitOf left i

theorem Halted.sameBits_iff (h : Halted t₀ k left t) :
    (∀ g i, i < validBits t₀.map g → bitOf (t.disk.block (slotBlock t₀.map g 0)) i =
      bitOf (t₀.disk.block (slotBlock t₀.map g 0)) i) ↔ SameBits t₀.map t₀.disk k := by
  constructor
  · intro hsame
    refine ⟨fun g hg i hi => ?_, fun left' hleft i hi => ?_⟩
    · rw [← hsame g i hi, h.fresh g hg]
    · obtain rfl : left = some left' := Outcome.fails.inj (h.fault.symm.trans hleft)
      rw [← hsame k i hi, h.torn, Option.getD_some]
  · intro hbits g i hi
    rcases Nat.lt_trichotomy g k with hlt | rfl | hlt
    · rw [h.fresh g hlt, hbits.before g hlt i hi]
    · rw [h.torn]
      cases left with
      | none => rfl
      | some page => exact (hbits.torn page h.fault i hi).symm
    · rw [h.old g hlt]

/-! ## The stages of a format -/

/-- Where a failing format stopped, and what it left. -/
inductive Stopped (s : St) (d : ℕ) (s' : St) : Prop where
  | sectors (h : BadSectors (s.disks d)) (hs : s' = s)
  | size (h : ¬ BadSectors (s.disks d)) (hd : ¬ DiskOk (s.disks d)) (hs : s' = measured s d)
  | map (hd : DiskOk (s.disks d)) (k : ℕ) (left : Option Bytes) (t : GSt)
    (h : Halted (attached s d).gst k left t)
      (hs : s' = (attached s d).setMap t)
  | commit (hd : DiskOk (s.disks d)) (h : ∀ g < (geoMap s.v.gm (s.disks d)).ngroups,
      bitmapFault (geoMap s.v.gm (s.disks d)) (s.disks d) g = .done) (hs : s'.v.broken = true)

section Format

theorem DiskOk.goodSectors (h : DiskOk D) : ¬ BadSectors D := by
  rintro (h0 | hne)
  · exact h.ss_pos h0
  · exact hne h.ss_dvd

/-- `geometry` and `gmap_init`, by the device. -/
theorem wp_attach_cases {Q : Unit → St → Prop} (hQ : DiskOk (s.disks d) → Q () (attached s d))
    (hbad : BadSectors (s.disks d) → E .enofs s)
    (hsize : ¬ BadSectors (s.disks d) → ¬ DiskOk (s.disks d) → E .enofs (measured s d)) :
    (attach d).wp Q E s := by
  by_cases hd : DiskOk (s.disks d)
  · exact wp_attach hQ fun hno => absurd hd hno
  · simp only [attach, wp_bind, wp_get, wp_failIf, modV, wp_modify]
    refine ⟨hbad, fun hss => ⟨fun _ => hsize hss hd, fun ht => ?_⟩⟩
    rw [not_or] at hss ht
    exact absurd ⟨hss.1, not_not.mp hss.2, not_lt.mp ht.1, not_lt.mp ht.2⟩ hd

/-- The geometry of a device does not depend on its faults. -/
theorem DiskOk.geo_faultless (h : DiskOk D) (m : GMap) :
    MapGeo ⟨geoMap m D, { D with fault := fun _ _ => .done }⟩ := by
  have hd : DiskOk { D with fault := fun _ _ => .done } :=
    ⟨h.ss_pos, h.ss_dvd, h.total_min, h.total_max⟩
  have hf : Disk.Faultless { D with fault := fun _ _ => .done } := fun _ _ => rfl
  exact hd.mapGeo hf

/-- **Every failure of a format** is one of the four. -/
theorem wp_exfsFormat_stopped :
    (exfsFormat d).wp (fun _ _ => True) (fun _ s' => Stopped s d s') s := by
  rw [exfsFormat, wp_bind]
  refine wp_attach_cases (fun hd => ?_) (fun h => .sectors h rfl) fun h hd => .size h hd rfl
  rw [wp_bind, wp_onMap]
  refine wp_mono (wp_gmapFormat_faults (hd.geo_faultless _) ⟨rfl, rfl⟩) (fun _ t _ h => ?_)
    fun e t _ h => ?_
  swap
  · obtain ⟨k, left, hk⟩ := h
    exact .map hd k left t hk rfl
  simp only [wp_bind, modV, wp_modify]
  generalize freshDirs = names
  obtain ⟨u, hu, ht⟩ := h
  have hcache : ∀ i, (t.map.cache i).valid = false := by
    rw [ht]
    exact fun _ => rfl
  have hnew : Newborn ((attached s d).setMap t)
      ⟨((attached s d).setMap t).disks, emptyVol ((attached s d).setMap t).v⟩ := by
    refine ⟨rfl, rfl, rfl, rfl, rfl, rfl, rfl, rfl, fun i hi hused => ?_, hcache⟩
    simp [emptyVol, hi] at hused
  refine wp_mono (hnew.makeDirs names) (fun _ t₁ _ h₁ => ?_) fun _ _ _ he => he
  exact wp_mono h₁.commit (fun _ _ _ _ => trivial) fun _ _ _ hb => .commit hd hu.served hb

/-- What `exfs_format` overwrites until the write of the bitmap of group `k` fails is what was
there: the device, its geometry, a map that was not used yet, and the bits on the device. -/
structure SameMap (s : St) (d k : ℕ) : Prop where
  dev : s.v.dev = d
  gmDev : s.v.gmDev = d
  spb : s.v.spb = blockBytes / (s.disks d).sectorSize
  total : s.v.total = volTotal (s.disks d)
  gm : s.v.gm = countedMap (geoMap s.v.gm (s.disks d)) (k + 1)
  bits : SameBits (geoMap s.v.gm (s.disks d)) (s.disks d) k

/-- What makes a failing format harmless: nothing was mounted before, the sector size is refused,
the device serves the writes of the bitmaps (only the commit can fail then, and it breaks the new
volume), or what is overwritten is what was there. -/
inductive FormatSafe (s : St) (d : ℕ) : Prop where
  | unmounted (h : exfsIsMounted s.v = false)
  | sectors (h : BadSectors (s.disks d))
  | written (hd : DiskOk (s.disks d)) (h : ∀ g < (geoMap s.v.gm (s.disks d)).ngroups,
      bitmapFault (geoMap s.v.gm (s.disks d)) (s.disks d) g = .done)
  | sameSize (hd : ¬ DiskOk (s.disks d)) (hdev : s.v.dev = d)
      (hspb : s.v.spb = blockBytes / (s.disks d).sectorSize)
      (htotal : s.v.total = volTotal (s.disks d))
  | sameMap (hd : DiskOk (s.disks d)) (k : ℕ)
    (hk : FirstFault (geoMap s.v.gm (s.disks d)) (s.disks d) k)
      (h : SameMap s d k)

theorem FirstFault.unique (h : FirstFault m D k) (h' : FirstFault m D k') : k = k' := by
  rcases Nat.lt_trichotomy k k' with hlt | heq | hlt
  · exact absurd (h'.before k hlt) h.fails
  · exact heq
  · exact absurd (h.before k' hlt) h'.fails

/-- A map that was counted and not used reads every bit from the first slot of its group. -/
theorem used_counted :
    used ⟨countedMap (geoMap m D) k, D'⟩ b =
      bitOf (D'.block (slotBlock (geoMap m D) (b / groupMax) 0)) (b % groupMax) := by
  have hhit : cacheHit (countedMap (geoMap m D) k) (b / groupMax) = none := dropCache_hit _ _
  have hgb : (countedMap (geoMap m D) k).gb = groupMax := rfl
  have hnew : newestSlot (countedMap (geoMap m D) k) (b / groupMax) = 0 := rfl
  simp only [used, hgb, curBits, hhit, hnew]
  rfl

/-- A format that stops at a bitmap. -/
theorem Halted.intact_iff (hd : DiskOk (s.disks d)) (h : Halted (attached s d).gst k left t) :
    Intact s ((attached s d).setMap t) ↔ SameMap s d k := by
  have hgeo := hd.geo_faultless s.v.gm
  have hbits := h.sameBits_iff
  have hmap : ((attached s d).setMap t).v.gm = countedMap (geoMap s.v.gm (s.disks d))
    (k + 1) := h.map
  have hgst : ((attached s d).setMap t).gst = ⟨countedMap (geoMap s.v.gm (s.disks d)) (k + 1),
      t.disk⟩ := by
    rw [St.setMap_gst, ← hmap]
    rfl
  constructor
  · intro hi
    have hgm := hi.gm.symm.trans hmap
    have hold : s.gst = ⟨countedMap (geoMap s.v.gm (s.disks d)) (k + 1), s.disks d⟩ := by
      rw [St.gst, ← hgm, ← hi.gmDev]
      rfl
    refine ⟨hi.dev.symm, hi.gmDev.symm, hi.spb.symm, hi.total.symm, hgm, hbits.mp fun g i hlt => ?_⟩
    obtain ⟨hdiv, hmod, hb⟩ := hgeo.block_of_bit hlt
    have hu := hi.used (g * groupMax + i) (hi.total ▸ hb)
    rw [hgst, hold, used_counted, used_counted] at hu
    rwa [show (g * groupMax + i) / groupMax = g from hdiv, show (g * groupMax + i) % groupMax =
      i from hmod] at hu
  · intro hs
    have hold : s.gst = ⟨countedMap (geoMap s.v.gm (s.disks d)) (k + 1), s.disks d⟩ := by
      rw [St.gst, ← hs.gm, hs.gmDev]
    refine ⟨hs.dev.symm, hs.gmDev.symm, hs.spb.symm, hs.total.symm, hmap.trans hs.gm.symm,
      fun b hb => ?_, rfl, fun _ => rfl⟩
    rw [hgst, hold, used_counted, used_counted]
    exact hbits.mpr hs.bits _ _ (hgeo.bit_of_block (lt_of_lt_of_eq hb hs.total))

/-- **When a failing format leaves no mixed volume**, on any state, device and failures. -/
theorem format_error_iff {e : ExfsError} (hrun : (exfsFormat d).run s = (.error e, s')) :
    (exfsIsMounted s'.v = false ∨ Intact s s') ↔ FormatSafe s d := by
  have hstop := wp_exfsFormat_stopped.error hrun
  cases hstop with
  | sectors hbad hs =>
    subst hs
    exact ⟨fun _ => .sectors hbad, fun _ => .inr ⟨rfl, rfl, rfl, rfl, rfl, fun _ _ => rfl, rfl,
      fun _ => rfl⟩⟩
  | size hgood hd hs =>
    subst hs
    constructor
    · rintro (hm | hi)
      · exact .unmounted hm
      · exact .sameSize hd hi.dev.symm hi.spb.symm hi.total.symm
    · intro hsafe
      cases hsafe with
      | unmounted h => exact .inl h
      | sectors h => exact absurd h hgood
      | written hd' => exact absurd hd' hd
      | sameSize _ hdev hspb htotal =>
        exact .inr ⟨hdev.symm, rfl, hspb.symm, htotal.symm, rfl, fun _ _ => rfl, rfl, fun _ => rfl⟩
      | sameMap hd' => exact absurd hd' hd
  | map hd k left t h hs =>
    subst hs
    constructor
    · rintro (hm | hi)
      · exact .unmounted hm
      · exact .sameMap hd k h.toFirstFault ((h.intact_iff hd).mp hi)
    · intro hsafe
      cases hsafe with
      | unmounted h => exact .inl h
      | sectors h => exact absurd h hd.goodSectors
      | written _ h' => exact absurd (h' k h.lt) h.fails
      | sameSize hd' => exact absurd hd hd'
      | sameMap _ k' hk hs =>
        obtain rfl := hk.unique h.toFirstFault
        exact .inr ((h.intact_iff hd).mpr hs)
  | commit hd h hs =>
    refine ⟨fun _ => .written hd h, fun _ => .inl ?_⟩
    rw [exfsIsMounted, hs, Bool.not_true, Bool.and_false]

end Format

/-- A device of one block. -/
def smallDisk : Disk := { blankDisk with sectorCount := 1 }

/-- A blank device, with the one of one block beside it. -/
def blankAndSmall : St := ⟨fun i => if i = 0 then blankDisk else smallDisk, bootVol⟩

/-- The first device is formatted, then a format of the second fails. -/
theorem exists_small_format :
    ∃ s, Start 0 s ∧ (exfsFormat 1).run s = (.error .enofs, measured s 1) ∧
    exfsIsMounted s.v = true ∧ s.v.dev = 0 := by
  have hf : (blankAndSmall.disks 0).Faultless := fun _ _ => rfl
  have hd : DiskOk (blankAndSmall.disks 0) := blank_diskOk
  obtain ⟨s, hrun⟩ := exists_format hf hd
  have hstart : Start 0 s := ⟨blankAndSmall, hf, fun b _ f => sbDecode_zero f, hrun⟩
  obtain ⟨hinv, S, hS, _⟩ := hstart.saved
  have hsmall : (s.disks 1).sectorSize = 4096 ∧ (s.disks 1).sectorCount = 1 := by
    have hle : blankAndSmall.disks 1 ≤ s.disks 1 := by
      have := (exfsFormat 0).le_run blankAndSmall
      rw [hrun] at this
      exact this 1
    exact ⟨hle.sectorSize, hle.sectorCount⟩
  have htotal : volTotal (s.disks 1) = 1 := by
    rw [volTotal, hsmall.1, hsmall.2]
    decide
  have hgood : ¬ BadSectors (s.disks 1) := by
    rw [BadSectors, hsmall.1]
    decide
  have hno : ¬ DiskOk (s.disks 1) := by
    intro h
    have := h.total_min
    rw [htotal] at this
    exact absurd this (by decide)
  refine ⟨s, hstart, ?_, ?_, hinv.dev⟩
  · have hwp : (exfsFormat 1).wp (fun _ _ => False)
        (fun e s' => e = .enofs ∧ s' = measured s 1) s := by
      rw [exfsFormat, wp_bind]
      exact wp_attach_cases (fun h => absurd h hno) (fun h => absurd h hgood) fun _ _ => ⟨rfl, rfl⟩
    obtain ⟨_, _, hrun', rfl, rfl⟩ := hwp.exists_error
    exact hrun'
  · rw [exfsIsMounted, hstart.fresh.2.1, hS.broken]
    rfl

theorem format_error_iff_small : ∃ s s', (exfsFormat 1).run s = (.error .enofs, s') ∧
    ((exfsIsMounted s'.v = false ∨ Intact s s') ↔ FormatSafe s 1) := by
  obtain ⟨s, _, hrun, _⟩ := exists_small_format
  exact ⟨s, _, hrun, format_error_iff hrun⟩

/-- A volume is mounted from one device; a format of a device of one block fails, and the
volume is still mounted, with that device and a size of one block. -/
theorem format_error_mixes : ∃ s s', Start 0 s ∧ exfsIsMounted s.v = true ∧ s.v.dev = 0 ∧
    (exfsFormat 1).run s = (.error .enofs, s') ∧ exfsIsMounted s'.v = true ∧ s'.v.dev = 1 ∧
      ¬ Intact s s' := by
  obtain ⟨s, hstart, hrun, hm, hdev⟩ := exists_small_format
  refine ⟨s, _, hstart, hm, hdev, hrun, hm, rfl, fun h => ?_⟩
  have : (1 : ℕ) = s.v.dev := h.dev
  omega

end Xasmos.Exfs
