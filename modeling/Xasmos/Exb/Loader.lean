import Xasmos.Exb.Image
import Xasmos.Kernel.Paging

/-!
# The loader

`xload_exb` validates an image and builds the program in an address space: a token for each
segment and one for the stack, filled and mapped.  Everything goes through a backend, so
the loader is modelled over any record of backend functions.  A failure undoes what was
done, in reverse order.

The image is memory that others may write while it is read: `mem t o` is byte `o` as the
`t`-th read sees it, and an image that nobody writes is `fun _ => img`.  The state keeps
the offsets that were read and the calls that were made, each with the state it was made in.

## Main definitions

* `Backend` — what an architecture provides.
* `xloadExb` — the loader.
-/

namespace Xasmos.Exb

open Kernel

/-! ## The backend -/

/-- The functions of `xload_backend.h`.  `poke` is a store through the pointer that `xlb_kernel_ptr`
gives. -/
structure Backend (σ : Type) where
  quotaOk : OwnerId → UInt64 → UInt32 → σ → Bool
  alloc : OwnerId → ℕ → UInt32 → σ → Option XToken × σ
  poke : XToken → ℕ → UInt8 → σ → σ
  release : XToken → σ → σ
  map : ℕ → ℕ → XToken → UInt32 → σ → Bool × σ
  unmap : ℕ → ℕ → σ → Bool × σ

/-- `XLB_USER_TOP` -/
def xlbUserTop : ℕ := 0x0000800000000000

/-! ## The loader -/

/-- The failures `XLOAD_E_*`. -/
inductive XLoadError where
  | arg
  | image
  | quota
  | nomem
  | map
  deriving DecidableEq

/-- `XLoadResult` -/
structure XLoadResult where
  entry : ℕ
  stackTop : ℕ
  stackBytes : ℕ
  tokensGranted : ℕ

/-- The calls that change the state of a backend. -/
inductive BackendCall where
  | alloc (owner : OwnerId) (n : ℕ) (rights : UInt32)
  | poke (tok : XToken) (off : ℕ) (v : UInt8)
  | release (tok : XToken)
  | map (a v : ℕ) (tok : XToken) (perms : UInt32)
  | unmap (a v : ℕ)

/-- The state of the backend, the calls so far with the states they were made in, and the offsets of
the image that were read so far. -/
structure LoadSt (σ : Type) where
  st : σ
  calls : List (BackendCall × σ)
  reads : List ℕ

/-- No call and no read is taken back. -/
instance {σ : Type} : Preorder (LoadSt σ) where
  le s s' := s.calls <+: s'.calls ∧ s.reads <+: s'.reads
  le_refl _ := ⟨List.prefix_rfl, List.prefix_rfl⟩
  le_trans _ _ _ h h' := ⟨h.1.trans h'.1, h.2.trans h'.2⟩

/-- A part of the loader. -/
abbrev LProg (σ : Type) := Prog XLoadError (LoadSt σ)

section Loader

variable {σ : Type} (be : Backend σ)

/-- A call of a backend function. -/
def call {α : Type} (c : BackendCall) (f : σ → α × σ) : LProg σ α where
  run s := (.ok (f s.st).1, ⟨(f s.st).2, s.calls ++ [(c, s.st)], s.reads⟩)
  le_run _ := ⟨List.prefix_append _ _, List.prefix_rfl⟩

/-- A read of one byte of the image. -/
def readImage (mem : ℕ → Bytes) (o : ℕ) : LProg σ UInt8 where
  run s := (.ok (mem s.reads.length o), { s with reads := s.reads ++ [o] })
  le_run _ := ⟨List.prefix_rfl, List.prefix_append _ _⟩

/-- `xlb_alloc` -/
def xlbAlloc (owner : OwnerId) (n : ℕ) (rights : UInt32) : LProg σ (Option XToken) :=
  call (.alloc owner n rights) (be.alloc owner n rights)

/-- A store of the copy loop. -/
def xlbPoke (tok : XToken) (off : ℕ) (v : UInt8) : LProg σ Unit :=
  call (.poke tok off v) fun s => ((), be.poke tok off v s)

/-- `xlb_release` -/
def xlbRelease (tok : XToken) : LProg σ Unit := call (.release tok) fun s => ((), be.release tok s)

/-- `xlb_map` -/
def xlbMap (a v : ℕ) (tok : XToken) (perms : UInt32) : LProg σ Bool :=
  call (.map a v tok perms) (be.map a v tok perms)

/-- `xlb_unmap` -/
def xlbUnmap (a v : ℕ) : LProg σ Bool := call (.unmap a v) (be.unmap a v)

/-- `Txn`: what has to be undone. -/
structure Txn where
  tok : List XToken
  va : List ℕ

/-- The first loop of `rollback`. -/
def unmapAll (as : ℕ) : List ℕ → LProg σ Unit
  | [] => pure ()
  | v :: vs => do
    let _ ← xlbUnmap be as v
    unmapAll as vs

/-- The second loop of `rollback`. -/
def releaseAll : List XToken → LProg σ Unit
  | [] => pure ()
  | tok :: toks => do
    xlbRelease be tok
    releaseAll toks

/-- `rollback`: unmap first, then release, each in reverse. -/
def rollback (as : ℕ) (t : Txn) : LProg σ Unit := do
  unmapAll be as t.va.reverse
  releaseAll be t.tok.reverse

/-- `seg_rights` -/
def segRights (flags : ℕ) : UInt32 :=
  let r := rightRead ||| rightMap ||| rightRelease
  let r := if flags &&& segW ≠ 0 then r ||| rightWrite else r
  if flags &&& segX ≠ 0 then r ||| rightExecute else r

/-- `seg_perms` -/
def segPerms (flags : ℕ) : UInt32 :=
  let p := permR
  let p := if flags &&& segW ≠ 0 then p ||| permW else p
  if flags &&& segX ≠ 0 then p ||| permX else p

/-- A part of a program: where it is mapped, with what size, rights and permissions, and the bytes
of the file it starts with. -/
structure Part where
  vaddr : ℕ
  pages : ℕ
  rights : UInt32
  perms : UInt32
  fileOff : ℕ
  fileSize : ℕ

/-- The part of a segment. -/
def segPart (s : ExbSeg) : Part :=
  ⟨s.vaddr, s.pages, segRights s.flags, segPerms s.flags, s.fileOff, s.fileSize⟩

/-- The stack, below the guard page at the top of user space. -/
def stackPart (stackBytes : ℕ) : Part :=
  ⟨xlbUserTop - page - stackBytes, stackBytes / page,
    rightRead ||| rightWrite ||| rightMap ||| rightRelease, permR ||| permW, 0, 0⟩

/-- One part is allocated, filled and mapped; a failure rolls everything back. -/
def loadPart (as : ℕ) (owner : OwnerId) (mem : ℕ → Bytes) (p : Part) (t : Txn) : LProg σ Txn := do
  match ← xlbAlloc be owner p.pages p.rights with
  | none => do
    rollback be as t
    Prog.throw .nomem
  | some tok => do
    let t := { t with tok := t.tok ++ [tok] }
    -- the frames are zeroed, so what follows the file bytes is zero
    Prog.iterate p.fileSize (fun b _ => do
      let v ← readImage mem (p.fileOff + b)
      xlbPoke be tok b v) ()
    if ← xlbMap be as p.vaddr tok p.perms then pure { t with va := t.va ++ [p.vaddr] }
    else do
      rollback be as t
      Prog.throw .map

/-- `xload_exb`; `info` is what the record on the stack held before. -/
def xloadExb (as : ℕ) (owner : OwnerId) (mem : ℕ → Bytes) (size : ℕ) (info : ExbInfo) :
    LProg σ XLoadResult := do
  Prog.failIf (size = 0) .arg
  Prog.failIf (owner = ownerKernel) .arg
  let parse ← exbParse (readImage mem) size info
  Prog.failIf (parse.1 ≠ .ok ()) .image
  let info := parse.2
  let frames := UInt64.ofNat (info.imagePages + info.stackBytes / page)
  let tokens := UInt32.ofNat (info.segCount + 1)
  let s ← Prog.get
  Prog.failIf (be.quotaOk owner frames tokens s.st = false) .quota
  let t ← Prog.iterate info.segCount (fun i t => loadPart be as owner mem (segPart (info.seg i)) t)
    ⟨[], []⟩
  let _ ← loadPart be as owner mem (stackPart info.stackBytes) t
  pure ⟨info.entry, xlbUserTop - page, info.stackBytes, info.extraTokens⟩

end Loader

end Xasmos.Exb
