import Xasmos.Kernel.Frames

/-!
# The state of the kernel

The frame bitmap, the token ledger, the mapping records and the content of memory, with
the address spaces the callers hold.  Everything the kernel keeps is in `Xeret`; the
functions of the ledger, of the page tables and of the system calls work on it.

Memory is a byte memory for each frame.  Token frames hold the bytes of programs, table
frames hold page tables: one memory, so that nothing but the frame allocator keeps them
apart.
-/

namespace Xasmos.Kernel

/-- An owner of tokens; `ownerKernel` is the kernel itself. -/
abbrev OwnerId := UInt32

/-- `XTOK_OWNER_KERNEL` -/
def ownerKernel : OwnerId := 0

/-- A hardware token, as programs see it. -/
abbrev XToken := UInt64

/-- `XTOKEN_INVALID` -/
def tokenInvalid : XToken := 0

/-- The resource a token stands for. -/
inductive TokenKind where
  | none
  | ram
  | mmio
  | irq
  deriving DecidableEq

/-! Rights of a token. -/

def rightRead : UInt32 := 1
def rightWrite : UInt32 := 2
def rightExecute : UInt32 := 4
def rightMap : UInt32 := 8
def rightRelease : UInt32 := 32

/-- A slot of the ledger. -/
structure XTokenEntry where
  generation : ℕ
  kind : TokenKind
  ownerId : OwnerId
  rights : UInt32
  phys : ℕ
  nFrames : ℕ
  live : Bool
  /-- Live mappings of the token. -/
  mapCount : ℕ
  deriving DecidableEq

/-- `XTOK_TABLE_SLOTS` -/
def tableSlots : ℕ := 4096

/-- The token ledger. -/
structure Ledger where
  table : ℕ → XTokenEntry
  live : ℕ
  /-- Where the search for a free slot starts. -/
  nextHint : ℕ

/-- A mapping record. -/
structure MapRec where
  /-- The address space. -/
  asPml4 : ℕ
  owner : OwnerId
  virt : ℕ
  tok : XToken
  pages : ℕ
  live : Bool
  deriving DecidableEq

/-- `XAS_MAX_MAPS` -/
def maxMaps : ℕ := 1024

/-- An address space, as its holder keeps it. -/
structure XAspace where
  pml4Phys : ℕ
  ownerId : OwnerId
  live : Bool
  deriving DecidableEq

/-- The limits of one owner. -/
structure Quota where
  frames : UInt64
  tokens : UInt32
  isSet : Bool
  deriving DecidableEq

/-- The state of the kernel. -/
structure Xeret where
  phys : PhysBitmap
  ledger : Ledger
  /-- The page table of the kernel, 0 before it exists. -/
  pml4Phys : ℕ
  maps : ℕ → MapRec
  /-- The content of each frame. -/
  mem : ℕ → Bytes
  quota : ℕ → Quota
  /-- The address spaces that callers hold, by a number for each. -/
  spaces : ℕ → XAspace
  /-- The next free address of the window for devices. -/
  mmioNext : ℕ

/-- `zero_frames` -/
def zeroFrames (addr n : ℕ) (s : Xeret) : Xeret :=
  { s with
    mem := fun f =>
      if addr / frameSize ≤ f ∧ f < addr / frameSize + n then fun _ => 0 else s.mem f }

end Xasmos.Kernel
