import Xasmos.Lib.LittleEndian

/-!
# The NVMe driver and its controller

The polled driver of `nvme.c` on its I/O queue pair, beside a controller as the NVMe specification
has it. The controller fetches submission entries in ring order, executes what it has fetched in any
order, and posts one completion for each command with the phase tag of its place in the ring. What
it does before each poll of the driver is given by a schedule `env`, indexed by the number of polls
made so far, so a delay is any number of polls.

Three fields are for statements only and decide nothing: the `serial` of a ring entry is the number
of the submission it belongs to, `next` is the number of submissions, and `trace` is the history. In
particular the driver never learns whose completion it reads: `queue_exec` looks at the phase tag
and at nothing else of the entry.

Queue entries and the bounce page are frames of the identity map, so `mem` is addressed physically.
The rings are kept apart from it. Sector numbers are naturals: `blk_read` and `blk_write` refuse
what would wrap.
-/
namespace Xasmos.Nvme

open Function (update)

/-- `QD`. -/
def queueDepth : ℕ := 64

/-- `BOUNCE_BYTES`. -/
def bounceBytes : ℕ := 4096

/-- `SPIN_LIMIT`. -/
@[irreducible] def spinLimit : ℕ := 50000000

theorem spinLimit_eq_succ : ∃ k, spinLimit = k + 1 := ⟨49999999, by rw [spinLimit]⟩

def opFlushCode : ℕ := 0x00
def opWriteCode : ℕ := 0x01
def opReadCode : ℕ := 0x02

/-- The failures of `blk.h`. -/
inductive BlkError where
  | arg | range | io | timeout
  deriving DecidableEq

/-! ## Decoding -/

def le32 (p : Bytes) (o : ℕ) : ℕ := p.getLE 4 o

/-- `nvme_nsze_from_identify`. -/
def nvmeNszeFromIdentify (id : Bytes) : ℕ := le32 id 0 ||| le32 id 4 <<< 32

/-- `nvme_lbads_from_identify`. -/
def nvmeLbadsFromIdentify (id : Bytes) : ℕ :=
  let flbas := (id 26).toNat &&& 0x0F
  let lbads := (id (128 + 4 * flbas + 2)).toNat
  if lbads < 9 ∨ lbads > 12 then 0 else lbads

/-- `nvme_cqe_is_new`. -/
def nvmeCqeIsNew (dw3 expectPhase : ℕ) : Bool := (dw3 >>> 16) &&& 1 == expectPhase &&& 1

/-- `nvme_cqe_status`. -/
def nvmeCqeStatus (dw3 : ℕ) : ℕ := (dw3 >>> 17) &&& 0x7FFF

/-- What the driver knows of the namespace, and the bounce page. -/
structure NvmeCtx where
  sectorCount : ℕ
  sectorSize : ℕ
  secPerXfer : ℕ
  dmaPhys : ℕ

/-- `identify_namespace`, from the page that the Identify command has left in the bounce page. -/
def identifyNamespace (id : Bytes) (dmaPhys : ℕ) : Except BlkError NvmeCtx :=
  let nsze := nvmeNszeFromIdentify id
  let lbads := nvmeLbadsFromIdentify id
  if nsze = 0 ∨ lbads = 0 then .error .io
  else .ok ⟨nsze, 1 <<< lbads, bounceBytes / (1 <<< lbads), dmaPhys⟩

/-! ## The state -/

/-- A submission entry. -/
structure Sqe where
  cmd : Bytes
  serial : ℕ

/-- The part of a completion entry that the driver reads. -/
structure Cqe where
  dw3 : ℕ
  serial : ℕ

/-- `Queue`, the driver's side of the ring indices. -/
structure Queue where
  tail : ℕ
  head : ℕ
  phase : ℕ
  nextCid : ℕ

/-- The controller's side: the two doorbells (`sqTail`, `cqHead`), its own indices and phase tag,
and the commands it has fetched and not executed, or executed and not answered. -/
structure Controller where
  sqTail : ℕ
  sqHead : ℕ
  cqHead : ℕ
  cqTail : ℕ
  phase : ℕ
  fetched : List Sqe
  executed : List (Sqe × ℕ)

/-- What commands move: memory, and the bytes of the namespace in sector order. -/
structure Store where
  mem : Bytes
  media : Bytes

/-- The history. `answer k (some j)`: call `k` of `queue_exec` returned with the completion of
submission `j`; `answer k none`: it returned `BLK_E_TIMEOUT`; `copy k`: `op_read` copied the bounce
page after call `k`. -/
inductive Event where
  | submit (e : Sqe)
  | done (e : Sqe) (status : ℕ)
  | answer (serial : ℕ) (got : Option ℕ)
  | copy (serial : ℕ)

/-- Driver, controller, rings and memory. -/
structure Machine where
  q : Queue
  ctl : Controller
  sq : ℕ → Sqe
  cq : ℕ → Cqe
  store : Store
  time : ℕ
  next : ℕ
  trace : List Event

/-- `for (i = 0; i < n; i++) dst[o + i] = src[o' + i]`, the loop of `copy_in` and `copy_out`. -/
def copyBytes (dst : Bytes) (o : ℕ) (src : Bytes) (o' : ℕ) : ℕ → Bytes
  | 0 => dst
  | n + 1 => update (copyBytes dst o src o' n) (o + n) (src (o' + n))

theorem copyBytes_apply (dst : Bytes) (o : ℕ) (src : Bytes) (o' n a : ℕ) :
    copyBytes dst o src o' n a = if o ≤ a ∧ a < o + n then src (o' + (a - o)) else dst a := by
  induction n with
  | zero =>
    rw [if_neg (by omega)]
    rfl
  | succ n ih =>
    rw [copyBytes, Function.update_apply, ih]
    by_cases ha : a = o + n
    · rw [if_pos ha, if_pos (by omega), ha, Nat.add_sub_cancel_left]
    · rw [if_neg ha]
      exact if_congr (by omega) rfl rfl

/-! ## The controller -/

namespace Cmd

def opcode (c : Bytes) : ℕ := (c 0).toNat
def cid (c : Bytes) : ℕ := c.getLE 2 2
def nsid (c : Bytes) : ℕ := c.getLE 4 4
def prp1 (c : Bytes) : ℕ := c.getLE 8 24
def slba (c : Bytes) : ℕ := c.getLE 8 40

/-- The number of sectors; the field holds one less. -/
def nlb (c : Bytes) : ℕ := c.getLE 2 48 + 1

/-- The sectors exist, and the data fits the page of the first PRP entry. (The driver leaves the
second one at zero.) -/
structure InBounds (x : NvmeCtx) (c : Bytes) : Prop where
  sectors : slba c + nlb c ≤ x.sectorCount
  page : prp1 c % 4096 + nlb c * x.sectorSize ≤ 4096

instance (x : NvmeCtx) (c : Bytes) : Decidable (InBounds x c) :=
  decidable_of_iff (slba c + nlb c ≤ x.sectorCount ∧ prp1 c % 4096 + nlb c * x.sectorSize ≤ 4096)
    ⟨fun h => ⟨h.1, h.2⟩, fun h => ⟨h.1, h.2⟩⟩

/-- A command of namespace 1 that the controller can execute. -/
def Valid (x : NvmeCtx) (c : Bytes) : Prop :=
  nsid c = 1 ∧ (opcode c = opFlushCode ∨ (opcode c = opWriteCode ∨ opcode c = opReadCode) ∧
    InBounds x c)

instance (x : NvmeCtx) (c : Bytes) : Decidable (Valid x c) := inferInstanceAs (Decidable (_ ∧ _))

end Cmd

/-- A write stores the bytes of `src` from `o'` on in its sectors, a read in its page, and nothing
else changes. -/
def deliver (x : NvmeCtx) (c : Bytes) (src : Bytes) (o' : ℕ) (d : Store) : Store :=
  let len := Cmd.nlb c * x.sectorSize
  if Cmd.opcode c = opWriteCode then { d with
    media := copyBytes d.media (Cmd.slba c * x.sectorSize) src o' len }
  else if Cmd.opcode c = opReadCode then { d with mem := copyBytes d.mem (Cmd.prp1 c) src o' len }
  else d

/-- What a successful command moves. -/
def deliverData (x : NvmeCtx) (c : Bytes) (d : Store) : Store :=
  if Cmd.opcode c = opWriteCode then deliver x c d.mem (Cmd.prp1 c) d
  else deliver x c d.media (Cmd.slba c * x.sectorSize) d

/-- The status a command ends with: the one the controller finds, or Invalid Field in Command. -/
def reported (x : NvmeCtx) (c : Bytes) (status : Fin (2 ^ 15)) : ℕ :=
  if Cmd.Valid x c then status else 2

/-- The effect of a command. One that fails may leave anything (`left`) where its data goes. -/
def effect (x : NvmeCtx) (c : Bytes) (status : Fin (2 ^ 15)) (left : Bytes) (d : Store) : Store :=
  if Cmd.Valid x c then
    if status = 0 then deliverData x c d else deliver x c left 0 d
  else d

/-- One move of the controller. -/
inductive CtlMove where
  | fetch
  | execute (i : ℕ) (status : Fin (2 ^ 15)) (left : Bytes)
  | post (i : ℕ)

/-- Dword 3 of a completion: command identifier, phase tag, status. -/
def cqeDw3 (c : Bytes) (phase status : ℕ) : ℕ := Cmd.cid c + phase * 2 ^ 16 + status * 2 ^ 17

/-- A move that is not possible is no move. A completion is posted only to a free entry. -/
def ctlMove (x : NvmeCtx) (s : Machine) : CtlMove → Machine
  | .fetch =>
    if s.ctl.sqHead = s.ctl.sqTail then s
    else { s with ctl := { s.ctl with
      sqHead := (s.ctl.sqHead + 1) % queueDepth, fetched := s.ctl.fetched ++ [s.sq s.ctl.sqHead] } }
  | .execute i status left =>
    match s.ctl.fetched[i]? with
    | none => s
    | some e =>
      { s with
        ctl := { s.ctl with
          fetched := s.ctl.fetched.eraseIdx i
          executed := s.ctl.executed ++ [(e, reported x e.cmd status)] }
        store := effect x e.cmd status left s.store
        trace := s.trace ++ [.done e (reported x e.cmd status)] }
  | .post i =>
    match s.ctl.executed[i]? with
    | none => s
    | some (e, status) =>
      if (s.ctl.cqTail + 1) % queueDepth = s.ctl.cqHead then s
      else
        { s with
          ctl := { s.ctl with
            executed := s.ctl.executed.eraseIdx i
            cqTail := (s.ctl.cqTail + 1) % queueDepth
            phase := if (s.ctl.cqTail + 1) % queueDepth =
              0 then s.ctl.phase ^^^ 1 else s.ctl.phase }
          cq := update s.cq s.ctl.cqTail ⟨cqeDw3 e.cmd s.ctl.phase status, e.serial⟩ }

/-! ## The driver -/

/-- What the controller does before each poll. -/
abbrev Schedule := ℕ → List CtlMove

/-- The controller's moves up to the next poll. -/
def elapse (x : NvmeCtx) (env : Schedule) (s : Machine) : Machine :=
  let s' := (env s.time).foldl (ctlMove x) s
  { s' with time := s'.time + 1 }

/-- The completion entry is taken: head and phase move on, and the doorbell is rung. -/
def consume (s : Machine) : Machine :=
  let head := (s.q.head + 1) % queueDepth
  { s with
    q := { s.q with head := head, phase := if head = 0 then s.q.phase ^^^ 1 else s.q.phase }
    ctl := { s.ctl with cqHead := head } }

/-- The waiting loop of `queue_exec`, `n` polls before it gives up. -/
def waitCqe (x : NvmeCtx) (env : Schedule) : ℕ → Machine → Except BlkError Cqe × Machine
  | 0, s => (.error .timeout, s)
  | n + 1, s =>
    let s := elapse x env s
    let cqe := s.cq s.q.head
    if nvmeCqeIsNew cqe.dw3 s.q.phase then (.ok cqe, consume s) else waitCqe x env n s

/-- The command is stored at the tail and the doorbell is rung. -/
def submit (cmd : Bytes) (s : Machine) : Machine :=
  let tail := (s.q.tail + 1) % queueDepth
  { s with
    sq := update s.sq s.q.tail ⟨cmd, s.next⟩
    q := { s.q with tail := tail }
    ctl := { s.ctl with sqTail := tail }
    next := s.next + 1
    trace := s.trace ++ [.submit ⟨cmd, s.next⟩] }

/-- The history of a call: whose completion it returned with. -/
def answered (serial : ℕ) (r : Except BlkError Cqe × Machine) : Except BlkError Cqe × Machine :=
  (r.1, { r.2 with trace := r.2.trace ++ [.answer serial (r.1.toOption.map Cqe.serial)] })

/-- `queue_exec`. -/
def queueExec (x : NvmeCtx) (env : Schedule) (cmd : Bytes) (s : Machine) :
    Except BlkError Cqe × Machine :=
  answered s.next (waitCqe x env spinLimit (submit cmd s))

/-- `io_exec`: the command gets the next identifier. -/
def ioExec (x : NvmeCtx) (env : Schedule) (cmd : Bytes) (s : Machine) :
    Except BlkError Cqe × Machine :=
  queueExec x env (cmd.putLE 2 2 s.q.nextCid)
    { s with q := { s.q with nextCid := (s.q.nextCid + 1) % 2 ^ 16 } }

/-- `put32`. -/
def put32 (c : Bytes) (dw v : ℕ) : Bytes := c.putLE 4 (dw * 4) v

/-- `put64`. -/
def put64 (c : Bytes) (dw v : ℕ) : Bytes := put32 (put32 c dw v) (dw + 1) (v >>> 32)

/-- The entry that `io_rw` builds; the identifier is still zero. -/
def rwCmd (x : NvmeCtx) (opcode lba nlb : ℕ) : Bytes :=
  let c : Bytes := update (fun _ => 0) 0 (UInt8.ofNat opcode)
  let c := put64 (put32 c 1 1) 6 x.dmaPhys
  put32 (put32 (put32 c 10 lba) 11 (lba >>> 32)) 12 ((nlb + 2 ^ 32 - 1) % 2 ^ 32)

/-- The outcome of a command by its completion, as the operations judge it. -/
def judge (r : Except BlkError Cqe × Machine) : Except BlkError Unit × Machine :=
  match r with
  | (.error _, s) => (.error .timeout, s)
  | (.ok cqe, s) => if nvmeCqeStatus cqe.dw3 = 0 then (.ok (), s) else (.error .io, s)

/-- `io_rw`. -/
def ioRw (x : NvmeCtx) (env : Schedule) (opcode lba nlb : ℕ) (s : Machine) :
    Except BlkError Unit × Machine :=
  judge (ioExec x env (rwCmd x opcode lba nlb) s)

/-- `copy_out` of the bounce page, noted in the history. -/
def copyOut (x : NvmeCtx) (buf : Bytes) (off n : ℕ) (s : Machine) : Bytes × Machine :=
  (copyBytes buf off s.store.mem x.dmaPhys n, { s with trace := s.trace ++ [.copy (s.next - 1)] })

/-- `copy_in` to the bounce page. -/
def copyIn (x : NvmeCtx) (buf : Bytes) (off n : ℕ) (s : Machine) : Machine :=
  { s with store := { s.store with mem := copyBytes s.store.mem x.dmaPhys buf off n } }

/-- The sectors of the next command. -/
def chunk (x : NvmeCtx) (count : ℕ) : ℕ := if count < x.secPerXfer then count else x.secPerXfer

/-- The loop of `op_read`, `off` bytes into the buffer; each turn moves a sector or more, so `count`
turns are enough. The buffer is returned with the outcome. -/
def opReadFrom (x : NvmeCtx) (env : Schedule) : ℕ → ℕ → ℕ → ℕ → Bytes → Machine →
    Except BlkError Unit × Bytes × Machine
  | 0, _, _, _, buf, s => (.ok (), buf, s)
  | turns + 1, lba, count, off, buf, s =>
    if count = 0 then (.ok (), buf, s)
    else
      let nlb := chunk x count
      match ioRw x env opReadCode lba nlb s with
      | (.error rc, s) => (.error rc, buf, s)
      | (.ok _, s) =>
        let (buf, s) := copyOut x buf off (nlb * x.sectorSize) s
        opReadFrom x env turns (lba + nlb) (count - nlb) (off + nlb * x.sectorSize) buf s

/-- `op_read`. -/
def opRead (x : NvmeCtx) (env : Schedule) (lba count : ℕ) (buf : Bytes) (s : Machine) :
    Except BlkError Unit × Bytes × Machine :=
  opReadFrom x env count lba count 0 buf s

/-- The loop of `op_write`. -/
def opWriteFrom (x : NvmeCtx) (env : Schedule) (buf : Bytes) : ℕ → ℕ → ℕ → ℕ → Machine →
    Except BlkError Unit × Machine
  | 0, _, _, _, s => (.ok (), s)
  | turns + 1, lba, count, off, s =>
    if count = 0 then (.ok (), s)
    else
      let nlb := chunk x count
      match ioRw x env opWriteCode lba nlb (copyIn x buf off (nlb * x.sectorSize) s) with
      | (.error rc, s) => (.error rc, s)
      | (.ok _, s) =>
        opWriteFrom x env buf turns (lba + nlb) (count - nlb) (off + nlb * x.sectorSize) s

/-- `op_write`. -/
def opWrite (x : NvmeCtx) (env : Schedule) (lba count : ℕ) (buf : Bytes) (s : Machine) :
    Except BlkError Unit × Machine :=
  opWriteFrom x env buf count lba count 0 s

/-- `op_flush`. -/
def opFlush (x : NvmeCtx) (env : Schedule) (s : Machine) : Except BlkError Unit × Machine :=
  judge (ioExec x env (put32 (update (fun _ => 0) 0 (UInt8.ofNat opFlushCode)) 1 1) s)

/-- `check` of `blk.c`. -/
def check (x : NvmeCtx) (lba count : ℕ) : Except BlkError Unit :=
  if count = 0 then .error .arg
  else if lba > x.sectorCount then .error .range
  else if count > x.sectorCount - lba then .error .range
  else .ok ()

/-- A request to the block device. -/
inductive Request where
  | read (lba count : ℕ) (buf : Bytes)
  | write (lba count : ℕ) (buf : Bytes)
  | flush

/-- `blk_read`, `blk_write` and `blk_flush` of this driver: the outcome and the state after. -/
def serve (x : NvmeCtx) (env : Schedule) (s : Machine) : Request → Except BlkError Unit × Machine
  | .read lba count buf =>
    match check x lba count with
    | .error rc => (.error rc, s)
    | .ok _ => ((opRead x env lba count buf s).1, (opRead x env lba count buf s).2.2)
  | .write lba count buf =>
    match check x lba count with
    | .error rc => (.error rc, s)
    | .ok _ => opWrite x env lba count buf s
  | .flush => opFlush x env s

/-- The queue pair as `queue_alloc` and `create_io_queues` leave it. -/
def freshMachine (d : Store) : Machine where
  q := ⟨0, 0, 1, 1⟩
  ctl := ⟨0, 0, 0, 0, 1, [], []⟩
  sq := fun _ => ⟨fun _ => 0, 0⟩
  cq := fun _ => ⟨0, 0⟩
  store := d
  time := 0
  next := 0
  trace := []

/-- The states between requests. -/
inductive Run (x : NvmeCtx) (env : Schedule) : Machine → Prop
  | start (d : Store) : Run x env (freshMachine d)
  | request (s : Machine) (r : Request) : Run x env s → Run x env (serve x env s r).2

end Xasmos.Nvme
