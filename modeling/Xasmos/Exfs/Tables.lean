import Xasmos.Exfs.Lifecycle

/-!
# What requests leave alone

Requests to the device and calls of the group map do not touch the file table, the extent pool and
the deferred list.  Most steps of an operation are of that kind, so whatever depends on these tables
only (`TablesOnly`) is kept by them, on any device and with any failures.
-/

namespace Xasmos.Exfs

open Bytes Prog

variable {P : St → Prop} {α : Type}

/-- The tables of the record. -/
structure Tables where
  files : ℕ → ExfsFile
  pool : ℕ → ExfsExtent
  poolUsed : ℕ → Bool
  defer : List ExfsExtent

/-- The tables of a record. -/
def Vol.tables (v : Vol) : Tables := ⟨v.files, v.pool, v.poolUsed, v.defer⟩

/-- A property of the tables. -/
def TablesOnly (P : St → Prop) : Prop := ∀ s s' : St, s'.v.tables = s.v.tables → P s → P s'

section Steps

variable (hP : TablesOnly P)

include hP

theorem tables_onMap (x : GProg α) :
    Preserves (onMap x) P := Preserves.zoom fun s _ h => hP s _ rfl h

theorem tables_devIo (x : Prog BlkError Disk α) : Preserves (devIo x) P :=
  Preserves.zoom fun s _ h => hP s _ rfl h

theorem tables_modV {f : Vol → Vol} (h : ∀ v, (f v).tables = v.tables) : Preserves (modV f) P :=
  Preserves.modify fun s hs => hP s _ (h s.v) hs

theorem tables_blkPut (b : ℕ) (buf : Bytes) : Preserves (blkPut b buf) P :=
  Preserves.get fun s h => tables_devIo hP _ s h

theorem tables_blkGot (b : ℕ) : Preserves (blkGot b) P :=
  Preserves.get fun s h => tables_devIo hP _ s h

theorem tables_takeExtent (need : ℕ) : Preserves (takeExtent need) P := by
  refine Preserves.get fun s h => Preserves.bind (tables_onMap hP _) (fun r => ?_) s h
  cases r with
  | error e => exact Preserves.pure _
  | ok r => exact Preserves.bind (tables_modV hP fun _ => rfl) fun _ => Preserves.pure _

theorem tables_releaseFresh (es : List ExfsExtent) : Preserves (releaseFresh es) P := by
  induction es with
  | nil => exact Preserves.pure _
  | cons e es ih => exact Preserves.bind (tables_onMap hP _) fun _ => ih

theorem tables_takeFresh (need k got : ℕ) (fresh : List ExfsExtent) :
    Preserves (takeFresh need k got fresh) P := by
  induction k generalizing got fresh with
  | zero =>
    exact Preserves.ite (Preserves.bind (tables_releaseFresh hP _) fun _ => Preserves.throw _)
      (Preserves.pure _)
  | succ k ih =>
    refine Preserves.ite (Preserves.bind (tables_takeExtent hP _) fun e => ?_) (Preserves.pure _)
    exact Preserves.ite (Preserves.bind (tables_releaseFresh hP _) fun _ => Preserves.throw _)
      (ih _ _)

theorem tables_writeData (buf : Bytes) (bs : List ℕ) (o left : ℕ) :
    Preserves (writeData buf bs o left) P := by
  induction bs generalizing o left with
  | nil => exact Preserves.pure _
  | cons b bs ih => exact Preserves.bind (tables_blkPut hP _ _) fun _ => ih _ _

theorem tables_basePage (i l oldb off stop : ℕ) : Preserves (basePage i l oldb off stop) P := by
  refine Preserves.get fun s h => Preserves.ite ?_ (Preserves.pure _) s h
  cases oldPhys l (exts s.v i) 0 with
  | none => exact Preserves.throw _
  | some op => exact Preserves.bind (tables_blkGot hP _) fun _ => Preserves.pure _

theorem tables_writeRange (i : ℕ) (buf : Bytes) (off stop oldb w0 : ℕ) (fresh : List ℕ) (n : ℕ) :
    Preserves (writeRange i buf off stop oldb w0 fresh n) P :=
  Preserves.iterate fun _ _ => Preserves.bind (tables_basePage hP _ _ _ _ _)
    fun _ => tables_blkPut hP _ _

theorem tables_readLoop (i want t ei k inblk : ℕ) (done : List UInt8) :
    Preserves (readLoop i want t ei k inblk done) P := by
  induction t generalizing ei k inblk done with
  | zero => exact Preserves.ite (Preserves.throw _) (Preserves.pure _)
  | succ t ih =>
    refine Preserves.ite (Preserves.get fun s h => ?_) (Preserves.pure _)
    refine Preserves.ite (Preserves.throw _)
      (Preserves.bind (tables_blkGot hP _) fun page => ?_) s h
    exact Preserves.ite (ih _ _ _ _) (ih _ _ _ _)

theorem tables_orBreak {err : ExfsError} {x : FsProg α} (hx : Preserves x P) :
    Preserves (orBreak err x) P := by
  refine Preserves.bind (Preserves.attempt hx) fun r => ?_
  cases r with
  | ok a => exact Preserves.pure _
  | error e => exact Preserves.bind (tables_modV hP fun _ => rfl) fun _ => Preserves.throw _

theorem tables_writeItab (gen : ℕ) : Preserves (writeItab gen) P := by
  refine Preserves.get fun s h => ?_
  exact Preserves.iterate (fun _ _ => tables_orBreak hP (tables_blkPut hP _ _)) s h

theorem tables_writeSb (gen : ℕ) : Preserves (writeSb gen) P := by
  refine Preserves.get fun s h => ?_
  cases sbEncode (commitFields s.v gen) with
  | error e => exact hP s _ rfl h
  | ok page => exact tables_orBreak hP (tables_blkPut hP _ _) s h

theorem tables_releaseAll (es : List ExfsExtent) : Preserves (applyDeferred.releaseAll es) P := by
  induction es with
  | nil => exact Preserves.pure _
  | cons e es ih =>
    refine Preserves.bind (tables_onMap hP _) fun r => ?_
    cases r with
    | ok _ => exact ih
    | error _ => exact Preserves.throw _

end Steps

/-- `geometry` and `gmap_init` keep what depends on the tables and on whether a volume is
mounted. -/
theorem preserves_attach
    (hP : ∀ s v, v.tables = s.v.tables → v.mounted = s.v.mounted → P s → P ⟨s.disks, v⟩) (d : ℕ) :
    Preserves (attach d) P := by
  refine Preserves.get fun s h => ?_
  refine Preserves.bind (Preserves.failIf _ _) (fun _ => ?_) s h
  refine Preserves.bind (Preserves.modify fun t ht => hP t _ rfl rfl ht) fun _ => ?_
  refine Preserves.bind (Preserves.failIf _ _) fun _ => ?_
  cases gmapInit s.v.gm (s.disks d).sectorSize _ groupMax with
  | error _ => exact Preserves.throw _
  | ok m => exact Preserves.modify fun t ht => hP t _ rfl rfl ht

/-- A step whose outcome is not looked at keeps what it preserves. -/
theorem wp_attempt_of_preserves {x : FsProg α} {s : St} (hx : Preserves x P) (h : P s)
    {Q : Except ExfsError α → St → Prop} {E : ExfsError → St → Prop} (hQ : ∀ r t, P t → Q r t) :
    (Prog.attempt x).wp Q E s := by
  rw [wp_attempt]
  exact wp_mono (hx s h) (fun _ t _ ht => hQ _ t ht) fun _ t _ ht => hQ _ t ht

theorem preserves_requireLive : Preserves requireLive P :=
  Preserves.get fun s h => Preserves.bind (Preserves.failIf _ _) (fun _ => Preserves.failIf _ _) s h

theorem preserves_lookup (name : CStr) : Preserves (lookup name) P := by
  refine Preserves.get fun s h => ?_
  cases find s.v name.bytes with
  | none | some i => exact h

/-- The fresh runs are at most as many as the loop has turns. -/
theorem wp_takeFresh_length (need k got : ℕ) (fresh : List ExfsExtent) (s : St) :
    (takeFresh need k got fresh).wp (fun es _ => es.length ≤ fresh.length + k)
      (fun _ _ => True) s := by
  -- giving the runs back ends in a failure
  have hfail : ∀ (fresh : List ExfsExtent) (err : ExfsError) (t : St)
      (Q : List ExfsExtent → St → Prop),
      (do releaseFresh fresh; Prog.throw err : FsProg (List ExfsExtent)).wp Q
      (fun _ _ => True) t := by
    intro fresh err t Q
    rw [wp_bind]
    exact wp_any _ (fun _ _ => trivial) fun _ _ => trivial
  induction k generalizing got fresh s with
  | zero =>
    rw [takeFresh, wp_ite]
    exact ⟨fun _ => hfail _ _ _ _, fun _ => Nat.le_refl _⟩
  | succ k ih =>
    rw [takeFresh, wp_ite]
    refine ⟨fun _ => ?_, fun _ => Nat.le_add_right _ _⟩
    rw [wp_bind]
    refine wp_any _ (fun e t => ?_) fun _ _ => trivial
    rw [wp_ite]
    refine ⟨fun _ => hfail _ _ _ _, fun _ => ?_⟩
    refine wp_mono (ih (got + e.len) (fresh ++ [e]) t) (fun es _ _ hlen => ?_) fun _ _ _ _ =>
      trivial
    rw [List.length_append, List.length_singleton] at hlen
    omega

end Xasmos.Exfs
