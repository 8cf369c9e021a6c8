import Xasmos.Nvme.Calls

/-!
# Transfers

A request is cut into commands of at most one bounce page. `ReqTrace` is the history of one request:
commands for consecutive ranges of sectors, each submitted after the one before it has succeeded, up
to the end of the request or to the first command that fails or is given up. What the commands move
is followed beside it, so a request that succeeds has the effect of one transfer of all its sectors.

## Main results

* `transfers_exact` — with a controller that answers in time, `op_write` and `op_read` transfer
  exactly the sectors of the request, and stop at the first error.
-/
namespace Xasmos.Nvme

variable {a b count dma k lba n off op status v : ℕ} {buf buf' c id left : Bytes} {e : Sqe}
  {ev : Event} {rc : Except BlkError Unit} {s t u : Machine}

variable {x : NvmeCtx} {env : Schedule}

/-! ## Geometry -/

/-- What the operations need of the geometry and the bounce page. -/
structure CtxOk (x : NvmeCtx) : Prop where
  xfer : x.secPerXfer * x.sectorSize = bounceBytes
  pos : 0 < x.secPerXfer
  small : x.secPerXfer ≤ 8
  sectors : x.sectorCount < 2 ^ 64
  page : x.dmaPhys % 4096 = 0
  phys : x.dmaPhys < 2 ^ 64

theorem nsze_lt (id : Bytes) : nvmeNszeFromIdentify id < 2 ^ 64 := by
  have hlo : le32 id 0 < 2 ^ 32 := Bytes.getLE_lt 4 id 0
  have hhi : le32 id 4 < 2 ^ 32 := Bytes.getLE_lt 4 id 4
  apply Nat.or_lt_two_pow
  · omega
  · rw [Nat.shiftLeft_eq]
    omega

/-- `identify_namespace` accepts sectors of 512 to 4096 bytes, and a bounce page holds a whole
number of them. -/
theorem ctxOk_of_identify (h : identifyNamespace id dma = .ok x) (hpage : dma % 4096 = 0)
    (hphys : dma < 2 ^ 64) : CtxOk x := by
  have hsz := nsze_lt id
  simp only [identifyNamespace] at h
  split at h
  · cases h
  next hacc =>
    have hlbads : 9 ≤ nvmeLbadsFromIdentify id ∧ nvmeLbadsFromIdentify id ≤ 12 := by
      revert hacc
      simp only [nvmeLbadsFromIdentify]
      split <;> omega
    cases h
    generalize nvmeLbadsFromIdentify id = k at hlbads
    obtain ⟨hlo, hhi⟩ := hlbads
    have hk : k = 9 ∨ k = 10 ∨ k = 11 ∨ k = 12 := by omega
    refine ⟨?_, ?_, ?_, hsz, hpage, hphys⟩
    all_goals
      dsimp only
      rcases hk with rfl | rfl | rfl | rfl <;> decide

theorem CtxOk.fits (h : CtxOk x) (hn : n ≤ x.secPerXfer) : n * x.sectorSize ≤ bounceBytes := by
  rw [← h.xfer]
  exact Nat.mul_le_mul_right _ hn

/-! ## Commands -/

/-- The command moves the `n` sectors from `lba` on through the bounce page. Its length field is
zero-based. -/
structure Moves (x : NvmeCtx) (op lba n : ℕ) (c : Bytes) : Prop where
  opcode : Cmd.opcode c = op
  nsid : Cmd.nsid c = 1
  prp1 : Cmd.prp1 c = x.dmaPhys
  slba : Cmd.slba c = lba
  nlb : Cmd.nlb c = n
  length : c.getLE 4 48 + 1 = n
  page : n * x.sectorSize ≤ bounceBytes

/-- A 64-bit field written by halves. -/
theorem getLE_eight (p : Bytes) (o : ℕ) (hv : v < 2 ^ 64) (hlo : p.getLE 4 o = v % 256 ^ 4)
    (hhi : p.getLE 4 (o + 4) = (v >>> 32) % 256 ^ 4) : p.getLE 8 o = v := by
  rw [Bytes.getLE_add 4 4, hlo, hhi, Nat.shiftRight_eq_div_pow]
  omega

/-- **Encoding**: `io_rw` asks for what it was given. -/
theorem moves_rwCmd (hx : CtxOk x) (s : Machine) (hop : op < 256) (hlba : lba < 2 ^ 64) (hn : 0 < n)
    (hle : n ≤ x.secPerXfer) : Moves x op lba n (stamped (rwCmd x op lba n) s) := by
  have hlen : (stamped (rwCmd x op lba n) s).getLE 4 48 + 1 = n := by
    have hsmall := hx.small
    simp only [stamped, rwCmd, put64, put32]
    rw [Bytes.getLE_putLE_disjoint (by omega), Bytes.getLE_putLE]
    omega
  refine ⟨?_, ?_, ?_, ?_, ?_, hlen, hx.fits hle⟩
  · simp only [Cmd.opcode, stamped, rwCmd, put64, put32]
    iterate 7 rw [Bytes.putLE_of_notMem (by omega)]
    rw [Function.update_self, UInt8.toNat_ofNat', Nat.mod_eq_of_lt (by omega)]
  · simp only [Cmd.nsid, stamped, rwCmd, put64, put32]
    iterate 6 rw [Bytes.getLE_putLE_disjoint (by omega)]
    rw [Bytes.getLE_putLE]
    rfl
  · apply getLE_eight _ _ hx.phys
    · simp only [stamped, rwCmd, put64, put32]
      iterate 5 rw [Bytes.getLE_putLE_disjoint (by omega)]
      rw [Bytes.getLE_putLE]
    · simp only [stamped, rwCmd, put64, put32]
      iterate 4 rw [Bytes.getLE_putLE_disjoint (by omega)]
      rw [Bytes.getLE_putLE]
  · apply getLE_eight _ _ hlba
    · simp only [stamped, rwCmd, put64, put32]
      iterate 3 rw [Bytes.getLE_putLE_disjoint (by omega)]
      rw [Bytes.getLE_putLE]
    · simp only [stamped, rwCmd, put64, put32]
      iterate 2 rw [Bytes.getLE_putLE_disjoint (by omega)]
      rw [Bytes.getLE_putLE]
  · have hsplit : (stamped (rwCmd x op lba n) s).getLE 4 48 = _ :=
      Bytes.getLE_add 2 2 (stamped (rwCmd x op lba n) s) 48
    have hlow := Bytes.getLE_lt 2 (stamped (rwCmd x op lba n) s) 48
    have hsmall := hx.small
    rw [Cmd.nlb]
    omega

theorem Moves.valid (h : Moves x op lba n c) (hx : CtxOk x)
    (hop : op = opWriteCode ∨ op = opReadCode) (hin : lba + n ≤ x.sectorCount) : Cmd.Valid x c := by
  refine ⟨h.nsid, Or.inr ⟨?_, ?_, ?_⟩⟩
  · rw [h.opcode]
    exact hop
  · rw [h.slba, h.nlb]
    exact hin
  · rw [h.prp1, h.nlb, hx.page, Nat.zero_add]
    exact h.page

/-! ## What a command moves -/

/-- A write, whatever its status, leaves memory and the other sectors alone. -/
theorem effect_write (h : Moves x opWriteCode lba n c) (status : Fin (2 ^ 15)) (left : Bytes)
    (d : Store) :
    (effect x c status left d).mem = d.mem ∧
      ∀ a, a < lba * x.sectorSize ∨ (lba + n) * x.sectorSize ≤ a →
        (effect x c status left d).media a = d.media a := by
  have hcopy : ∀ src o' a, a < lba * x.sectorSize ∨ (lba + n) * x.sectorSize ≤ a →
      copyBytes d.media (lba * x.sectorSize) src o' (n * x.sectorSize) a = d.media a := by
    intro src o' a ha
    rw [Nat.add_mul] at ha
    rw [copyBytes_apply, if_neg (by omega)]
  simp only [effect, deliverData, deliver, h.opcode, h.slba, h.nlb, if_true]
  split
  · split
    · exact ⟨rfl, hcopy _ _⟩
    · exact ⟨rfl, hcopy _ _⟩
  · exact ⟨rfl, fun _ _ => rfl⟩

/-- A write that succeeds stores the bounce page in its sectors. -/
theorem effect_write_ok (h : Moves x opWriteCode lba n c) (hv : Cmd.Valid x c) (left : Bytes)
    (d : Store) (i : ℕ) (hi : i < n * x.sectorSize) :
    (effect x c 0 left d).media (lba * x.sectorSize + i) = d.mem (x.dmaPhys + i) := by
  simp only [effect, if_pos hv, deliverData, deliver, h.opcode, h.slba, h.nlb, h.prp1, if_true]
  rw [copyBytes_apply, if_pos (by omega), Nat.add_sub_cancel_left]

/-- A read, whatever its status, leaves the sectors alone. -/
theorem effect_read (h : Moves x opReadCode lba n c) (status : Fin (2 ^ 15)) (left : Bytes)
    (d : Store) : (effect x c status left d).media = d.media := by
  have hne : ¬ opReadCode = opWriteCode := by decide
  simp only [effect, deliverData, deliver, h.opcode, if_neg hne, if_true]
  split
  · split <;> rfl
  · rfl

/-- A read that succeeds leaves its sectors in the bounce page. -/
theorem effect_read_ok (h : Moves x opReadCode lba n c) (hv : Cmd.Valid x c) (left : Bytes)
    (d : Store) (i : ℕ) (hi : i < n * x.sectorSize) :
    (effect x c 0 left d).mem (x.dmaPhys + i) = d.media (lba * x.sectorSize + i) := by
  have hne : ¬ opReadCode = opWriteCode := by decide
  simp only [effect, if_pos hv, deliverData, deliver, h.opcode, h.slba, h.nlb, h.prp1, if_neg hne,
    if_true]
  rw [copyBytes_apply, if_pos (by omega), Nat.add_sub_cancel_left]

/-! ## The history of a request -/

/-- The history of a request for the sectors from `a` to `b` that ends with the outcome. `copies`
are the events between two commands. -/
inductive ReqTrace (x : NvmeCtx) (env : Schedule) (op : ℕ) (copies : ℕ → List Event) :
    ℕ → ℕ → Except BlkError Unit → List Event → Prop
  | finish (a : ℕ) : ReqTrace x env op copies a a (.ok ()) []
  | chunk {a b n : ℕ} {rc : Except BlkError Unit} {tr : List Event} (e : Sqe)
    (hm : Moves x op a n e.cmd) (hle : a + n ≤ b)
      (htr : ReqTrace x env op copies (a + n) b rc tr) :
      ReqTrace x env op copies a b rc (ownEvents e 0 ++ copies e.serial ++ tr)
  | failed {a b n : ℕ} (e : Sqe) (status : Fin (2 ^ 15)) (hm : Moves x op a n e.cmd)
    (hle : a + n ≤ b) (hne : status ≠ 0)
      (hst : Gives env status) : ReqTrace x env op copies a b (.error .io) (ownEvents e status)
  | late {a b n : ℕ} {dones : List Event} (e : Sqe) (hm : Moves x op a n e.cmd) (hle : a + n ≤ b)
      (hdones : ∀ ev ∈ dones, ∃ status, ev = .done e status) (hlate : ¬ Prompt env) :
      ReqTrace x env op copies a b (.error .timeout) (.submit e :: dones ++ [.answer e.serial none])

/-- One `io_rw` of a request on an idle queue: it succeeds and the request goes on, or its history
ends here. -/
theorem ioRw_spec (hx : CtxOk x) (h : Idle s) (env : Schedule) (copies : ℕ → List Event)
    (hop : op = opWriteCode ∨ op = opReadCode) (hn : 0 < n) (hle : n ≤ x.secPerXfer)
    (hb : lba + n ≤ b) (hin : b ≤ x.sectorCount) :
    (∃ e status left, Moves x op lba n e.cmd ∧ e.serial = s.next ∧ Gives env status ∧
      Idle (ioRw x env op lba n s).2 ∧
        (ioRw x env op lba n s).2.store = effect x e.cmd status left s.store ∧
      (ioRw x env op lba n s).2.next = s.next + 1 ∧ (ioRw x env op lba n s).2.trace = s.trace ++
        ownEvents e status ∧
      (ioRw x env op lba n s).1 = (if status = 0 then .ok () else .error .io)) ∨
      (ioRw x env op lba n s).1 = .error .timeout ∧
        ∃ new, (ioRw x env op lba n s).2.trace = s.trace ++ new ∧
          ReqTrace x env op copies lba b (.error .timeout) new := by
  have hsz := hx.sectors
  have hopc : op < 256 := by
    rcases hop with rfl | rfl <;> decide
  have hm := moves_rwCmd hx s hopc (show lba < 2 ^ 64 by omega) hn hle
  have hv := hm.valid hx hop (by omega)
  have hrep : ∀ status, reported x (stamped (rwCmd x op lba n) s) status = status :=
    fun _ => if_pos hv
  rcases judge_ioExec_spec (x := x) h env (rwCmd x op lba n) with ⟨status, left, hrc, hcall⟩ | ⟨hrc,
    dones, htrace, hdones⟩
  · have htrace := hcall.trace
    rw [hrep] at hrc htrace
    refine Or.inl ⟨⟨_, s.next⟩, status, left, hm, rfl, hcall.gives, hcall.idle, hcall.store,
      hcall.next, htrace, hrc.trans ?_⟩
    exact if_congr Fin.val_eq_zero_iff rfl rfl
  · have hlate : ¬ Prompt env := fun hp => judge_ioExec_returns h hp (rwCmd x op lba n) hrc
    exact Or.inr ⟨hrc, _, htrace, .late ⟨_, s.next⟩ hm hb hdones hlate⟩

/-- The command ended with an error. -/
def Event.Failed : Event → Prop
  | .done _ status => status ≠ 0
  | _ => False

def Event.IsSubmit : Event → Prop
  | .submit _ => True
  | _ => False

/-- The sectors of the commands in a history, in order. -/
def ranges (tr : List Event) : List (ℕ × ℕ) :=
  tr.filterMap fun
    | .submit e => some (Cmd.slba e.cmd, Cmd.nlb e.cmd)
    | _ => none

/-- The ranges follow each other from `a` to `b`. -/
inductive Tiles : ℕ → ℕ → List (ℕ × ℕ) → Prop
  | nil (a : ℕ) : Tiles a a []
  | cons {a n b : ℕ} {l : List (ℕ × ℕ)} (h : Tiles (a + n) b l) : Tiles a b ((a, n) :: l)

/-- The commands of a request: each moves sectors of the request through the bounce page, they
follow each other, none is submitted after one that failed, and the outcome tells whether one
failed. -/
structure Commands (x : NvmeCtx) (op lba count : ℕ) (rc : Except BlkError Unit) (new : List Event) :
    Prop where
  inPage : ∀ e, .submit e ∈ new → ∃ a n, Moves x op a n e.cmd ∧ lba ≤ a ∧ a + n ≤ lba + count
  consecutive : ∃ stop ≤ lba + count, Tiles lba stop (ranges new) ∧
    (rc = .ok () → stop = lba + count)
  halts : new.Pairwise fun a b => a.Failed → ¬ b.IsSubmit
  outcome : rc = .ok () ∧ (∀ ev ∈ new, ¬ ev.Failed) ∨ rc = .error .io ∧ ∃ ev ∈ new, ev.Failed

section History

variable {copies : ℕ → List Event} {tr : List Event}

/-- Between two commands the driver at most copies the page. -/
def OnlyCopies (copies : ℕ → List Event) : Prop := ∀ k, ∀ ev ∈ copies k, ev = .copy k

theorem onlyCopies_none : OnlyCopies fun _ => [] := by
  intro k ev h
  cases h

theorem onlyCopies_copy : OnlyCopies fun k => [.copy k] := by
  intro k ev h
  exact List.mem_singleton.mp h

theorem OnlyCopies.notSubmit (h : OnlyCopies copies) : .submit e ∉ copies k := by
  intro hmem
  cases h k _ hmem

theorem OnlyCopies.notFailed (h : OnlyCopies copies) (hmem : ev ∈ copies k) : ¬ ev.Failed := by
  rw [h k ev hmem]
  exact id

theorem OnlyCopies.ranges_eq (h : OnlyCopies copies) (k : ℕ) : ranges (copies k) = [] := by
  apply List.filterMap_eq_nil_iff.mpr
  intro ev hmem
  rw [h k ev hmem]

theorem ReqTrace.ne_timeout (h : ReqTrace x env op copies a b rc tr) (hp : Prompt env) :
    rc ≠ .error .timeout := by
  induction h with
  | finish => simp
  | chunk e hm hle htr ih => exact ih
  | failed => simp
  | late e hm hle hdones hlate => exact absurd hp hlate

theorem ReqTrace.ne_io (h : ReqTrace x env op copies a b rc tr)
    (hgives : ∀ status, Gives env status → status = 0) : rc ≠ .error .io := by
  induction h with
  | finish => simp
  | chunk e hm hle htr ih => exact ih
  | failed e status hm hle hne hst => exact absurd (hgives status hst) hne
  | late => simp

theorem mem_ownEvents :
    ev ∈ ownEvents e status ↔ ev = .submit e ∨ ev = .done e status ∨
      ev = .answer e.serial (some e.serial) := by
  simp [ownEvents]

theorem ReqTrace.inPage (h : ReqTrace x env op copies a b rc tr) (hc : OnlyCopies copies)
    (he : .submit e ∈ tr) : ∃ a' n, Moves x op a' n e.cmd ∧ a ≤ a' ∧ a' + n ≤ b := by
  induction h with
  | finish => cases he
  | @chunk a b n rc tr e' hm hle htr ih =>
    simp only [List.mem_append, mem_ownEvents, Event.submit.injEq, reduceCtorEq, or_false,
      hc.notSubmit] at he
    rcases he with rfl | he
    · exact ⟨a, n, hm, Nat.le_refl a, hle⟩
    · obtain ⟨a', n', hm', hlo, hhi⟩ := ih he
      exact ⟨a', n', hm', by omega, hhi⟩
  | @failed a b n e' status hm hle hne hst =>
    simp only [mem_ownEvents, Event.submit.injEq, reduceCtorEq, or_false] at he
    subst he
    exact ⟨a, n, hm, Nat.le_refl a, hle⟩
  | @late a b n dones e' hm hle hdones hlate =>
    simp only [List.cons_append, List.mem_cons, List.mem_append, Event.submit.injEq, reduceCtorEq,
      List.not_mem_nil, or_false] at he
    rcases he with rfl | he
    · exact ⟨a, n, hm, Nat.le_refl a, hle⟩
    · obtain ⟨status, hev⟩ := hdones _ he
      cases hev

theorem ranges_ownEvents (hm : Moves x op a n c) (serial status : ℕ) :
    ranges (ownEvents ⟨c, serial⟩ status) = [(a, n)] := by
  simp [ranges, ownEvents, hm.slba, hm.nlb]

theorem ReqTrace.tiles (h : ReqTrace x env op copies a b rc tr) (hc : OnlyCopies copies)
    (hp : Prompt env) : ∃ stop ≤ b, Tiles a stop (ranges tr) ∧ (rc = .ok () → stop = b) := by
  induction h with
  | finish a => exact ⟨a, Nat.le_refl a, .nil a, fun _ => rfl⟩
  | chunk e hm hle htr ih =>
    obtain ⟨stop, hstop, htiles, hok⟩ := ih
    refine ⟨stop, hstop, ?_, hok⟩
    have hown := ranges_ownEvents hm e.serial 0
    have hcop := hc.ranges_eq e.serial
    rw [ranges] at hown hcop ⊢
    rw [List.filterMap_append, List.filterMap_append, hown, hcop]
    exact .cons htiles
  | failed e status hm hle hne hst =>
    refine ⟨_, hle, ?_, by simp⟩
    rw [ranges_ownEvents hm e.serial status]
    exact .cons (.nil _)
  | late e hm hle hdones hlate => exact absurd hp hlate

theorem ReqTrace.halts (h : ReqTrace x env op copies a b rc tr) (hc : OnlyCopies copies)
    (hp : Prompt env) : tr.Pairwise fun a b => a.Failed → ¬ b.IsSubmit := by
  induction h with
  | finish => exact List.Pairwise.nil
  | chunk e hm hle htr ih =>
    -- nothing before the rest of the request has failed
    have hfine : ∀ ev ∈ ownEvents e 0 ++ copies e.serial, ¬ ev.Failed := by
      intro ev hev
      rcases List.mem_append.mp hev with hev | hev
      · rcases mem_ownEvents.mp hev with rfl | rfl | rfl <;> simp [Event.Failed]
      · exact hc.notFailed hev
    rw [List.pairwise_append]
    refine ⟨?_, ih, fun ev hev _ _ hfail => absurd hfail (hfine ev hev)⟩
    apply List.pairwise_iff_forall_sublist.mpr
    intro ev ev' hsub hfail
    exact absurd hfail (hfine ev (hsub.subset List.mem_cons_self))
  | failed e status hm hle hne hst => simp [ownEvents, Event.Failed, Event.IsSubmit]
  | late e hm hle hdones hlate => exact absurd hp hlate

theorem ReqTrace.outcome (h : ReqTrace x env op copies a b rc tr) (hc : OnlyCopies copies)
    (hp : Prompt env) :
    rc = .ok () ∧ (∀ ev ∈ tr, ¬ ev.Failed) ∨ rc = .error .io ∧ ∃ ev ∈ tr, ev.Failed := by
  induction h with
  | finish => simp
  | chunk e hm hle htr ih =>
    rcases ih with ⟨hrc, hall⟩ | ⟨hrc, ev, hev, hfail⟩
    · refine Or.inl ⟨hrc, ?_⟩
      intro ev hev
      rcases List.mem_append.mp hev with hev | hev
      · rcases List.mem_append.mp hev with hev | hev
        · rcases mem_ownEvents.mp hev with rfl | rfl | rfl <;> simp [Event.Failed]
        · exact hc.notFailed hev
      · exact hall ev hev
    · exact Or.inr ⟨hrc, ev, List.mem_append_right _ hev, hfail⟩
  | failed e status hm hle hne hst =>
    refine Or.inr ⟨rfl, .done e status, mem_ownEvents.mpr (Or.inr (Or.inl rfl)), ?_⟩
    intro h0
    exact hne (Fin.ext h0)
  | late e hm hle hdones hlate => exact absurd hp hlate

/-- A request succeeds if the controller answers in time and reports no error of its own. -/
theorem ReqTrace.ok (h : ReqTrace x env op copies a b rc tr) (hc : OnlyCopies copies)
    (hp : Prompt env) (hgives : ∀ status, Gives env status → status = 0) : rc = .ok () := by
  rcases h.outcome hc hp with ⟨hrc, -⟩ | ⟨hrc, -⟩
  · exact hrc
  · exact absurd hrc (h.ne_io hgives)

theorem ReqTrace.commands (h : ReqTrace x env op copies lba (lba + count) rc tr)
    (hc : OnlyCopies copies) (hp : Prompt env) : Commands x op lba count rc tr :=
  ⟨fun _ he => h.inPage hc he, h.tiles hc hp, h.halts hc hp, h.outcome hc hp⟩

end History

/-! ## Requests -/

theorem chunk_pos (hx : CtxOk x) (h : count ≠ 0) :
    0 < chunk x count ∧ chunk x count ≤ count ∧ chunk x count ≤ x.secPerXfer := by
  have hpos := hx.pos
  unfold chunk
  split <;> omega

/-- What `op_write` has done: the history, and, unless it was given up, the sectors. -/
structure Wrote (x : NvmeCtx) (env : Schedule) (buf : Bytes) (lba count off : ℕ) (s : Machine)
    (rc : Except BlkError Unit) (t : Machine) :
    Prop where
  trace : ∃ new, t.trace = s.trace ++ new ∧
    ReqTrace x env opWriteCode (fun _ => []) lba (lba + count) rc new
  idle : rc ≠ .error .timeout → Idle t
  written : rc = .ok () → ∀ i < count * x.sectorSize, t.store.media (lba * x.sectorSize + i) =
    buf (off + i)
  others : rc ≠ .error .timeout →
    ∀ a, a < lba * x.sectorSize ∨ (lba + count) * x.sectorSize ≤ a →
      t.store.media a = s.store.media a

theorem Wrote.none (h : Idle s) (buf : Bytes) (lba off : ℕ) :
    Wrote x env buf lba 0 off s (.ok ()) s where
  trace := ⟨[], (List.append_nil _).symm, .finish lba⟩
  idle := fun _ => h
  written := by
    intro _ i hi
    rw [Nat.zero_mul] at hi
    omega
  others := fun _ _ _ => rfl

/-- A command that succeeded, and the rest of the request. -/
theorem Wrote.next (hx : CtxOk x) (hle : n ≤ count) (hin : lba + count ≤ x.sectorCount)
    (hm : Moves x opWriteCode lba n e.cmd)
    (hstore : t.store = effect x e.cmd 0 left (copyIn x buf off (n * x.sectorSize) s).store)
    (htrace : t.trace = s.trace ++ ownEvents e 0)
    (hrest : Wrote x env buf (lba + n) (count - n) (off + n * x.sectorSize) t rc u) :
    Wrote x env buf lba count off s rc u := by
  obtain ⟨-, hothers⟩ := effect_write hm 0 left (copyIn x buf off (n * x.sectorSize) s).store
  obtain ⟨new, htrace', hreq⟩ := hrest.trace
  have hend : lba + n + (count - n) = lba + count := by omega
  have hsize : count * x.sectorSize = n * x.sectorSize + (count - n) * x.sectorSize := by
    rw [← Nat.add_mul, Nat.add_sub_cancel' hle]
  have hmid : (lba + n) * x.sectorSize = lba * x.sectorSize + n * x.sectorSize := Nat.add_mul _ _ _
  have hall : (lba + count) * x.sectorSize = lba * x.sectorSize + count * x.sectorSize :=
    Nat.add_mul _ _ _
  rw [hend] at hreq
  refine ⟨⟨_, ?_, .chunk e hm (by omega) hreq⟩, hrest.idle, ?_, ?_⟩
  · rw [htrace', htrace, List.append_nil, List.append_assoc]
  · intro hok i hi
    by_cases hfirst : i < n * x.sectorSize
    · -- the sectors of this command, which the rest of the request leaves alone
      have hkeep := hrest.others (by rw [hok]; simp) (lba * x.sectorSize + i) (Or.inl (by omega))
      rw [hkeep, hstore, effect_write_ok hm (hm.valid hx (Or.inl rfl) (by omega)) left _ i hfirst]
      simp only [copyIn]
      rw [copyBytes_apply, if_pos (by omega), Nat.add_sub_cancel_left]
    · have hlater := hrest.written hok (i - n * x.sectorSize) (by omega)
      rw [show (lba + n) * x.sectorSize + (i - n * x.sectorSize) = lba * x.sectorSize + i by omega,
        show off + n * x.sectorSize + (i - n * x.sectorSize) = off + i by omega] at hlater
      exact hlater
  · intro hrc a ha
    have hkeep := hrest.others hrc a (by rw [hend]; omega)
    rw [hkeep, hstore]
    exact hothers a (by omega)

/-- **The loop of `op_write`.** -/
theorem opWriteFrom_spec (hx : CtxOk x) (env : Schedule) (buf : Bytes) (turns : ℕ) (h : Idle s)
    (hturns : count ≤ turns) (hin : lba + count ≤ x.sectorCount) :
    Wrote x env buf lba count off s (opWriteFrom x env buf turns lba count off s).1
      (opWriteFrom x env buf turns lba count off s).2 := by
  induction turns generalizing lba count off s with
  | zero =>
    obtain rfl : count = 0 := by omega
    exact .none h buf lba off
  | succ turns ih =>
    simp only [opWriteFrom]
    split
    next h0 =>
      subst h0
      exact .none h buf lba off
    next h0 =>
      obtain ⟨hpos, hle, hxfer⟩ := chunk_pos hx h0
      generalize chunk x count = n at hpos hle hxfer ⊢
      have hpage : Idle (copyIn x buf off (n * x.sectorSize) s) := h.withStore _
      have hcall := ioRw_spec hx hpage env (fun _ => []) (Or.inl rfl) hpos hxfer
        (show lba + n ≤ lba + count by omega) hin
      generalize ioRw x env opWriteCode lba n (copyIn x buf off (n * x.sectorSize) s) = r at hcall
      obtain ⟨rc, t⟩ := r
      rcases hcall with ⟨e, status, left, hm, -, hgives, hidle, hstore, -, htrace, hrc⟩ | ⟨hrc, new,
        htrace, hreq⟩
      · dsimp only at hidle hstore htrace hrc
        by_cases hst : status = 0
        · rw [if_pos hst] at hrc
          subst hrc hst
          exact .next hx hle hin hm hstore htrace (ih hidle (by omega) (by omega))
        · rw [if_neg hst] at hrc
          subst hrc
          refine ⟨⟨_, htrace, .failed e status hm (by omega) hst hgives⟩,
            fun _ => hidle, by simp, ?_⟩
          intro _ a ha
          have hend := Nat.mul_le_mul_right x.sectorSize (show lba + n ≤ lba + count by omega)
          dsimp only
          rw [hstore]
          exact (effect_write hm status left _).2 a (by omega)
      · dsimp only at hrc
        subst hrc
        exact ⟨⟨new, htrace, hreq⟩, by simp, by simp, by simp⟩

/-- What `op_read` has done: the history, and, unless it was given up, buffer and sectors. -/
structure ReadOut (x : NvmeCtx) (env : Schedule) (buf : Bytes) (lba count off : ℕ) (s : Machine)
    (rc : Except BlkError Unit) (buf' : Bytes)
    (t : Machine) : Prop where
  trace : ∃ new, t.trace = s.trace ++ new ∧
    ReqTrace x env opReadCode (fun k => [.copy k]) lba (lba + count) rc new
  idle : rc ≠ .error .timeout → Idle t
  filled : rc = .ok () → ∀ i < count * x.sectorSize,
    buf' (off + i) = s.store.media (lba * x.sectorSize + i)
  outside : ∀ j, j < off ∨ off + count * x.sectorSize ≤ j → buf' j = buf j
  media : rc ≠ .error .timeout → t.store.media = s.store.media

theorem ReadOut.none (h : Idle s) (buf : Bytes) (lba off : ℕ) :
    ReadOut x env buf lba 0 off s (.ok ()) buf s where
  trace := ⟨[], (List.append_nil _).symm, .finish lba⟩
  idle := fun _ => h
  filled := by
    intro _ i hi
    rw [Nat.zero_mul] at hi
    omega
  outside := fun _ _ => rfl
  media := fun _ => rfl

/-- A command that succeeded, the copy, and the rest of the request. -/
theorem ReadOut.next (hx : CtxOk x) (hle : n ≤ count) (hin : lba + count ≤ x.sectorCount)
    (hm : Moves x opReadCode lba n e.cmd) (hstore : t.store = effect x e.cmd 0 left s.store)
    (htrace : t.trace = s.trace ++ ownEvents e 0) (hser : t.next - 1 = e.serial)
    (hrest : ReadOut x env (copyOut x buf off (n * x.sectorSize) t).1 (lba + n) (count - n)
      (off + n * x.sectorSize)
      (copyOut x buf off (n * x.sectorSize) t).2 rc buf' u) :
    ReadOut x env buf lba count off s rc buf' u := by
  have hmedia : t.store.media = s.store.media := by
    rw [hstore]
    exact effect_read hm 0 left s.store
  obtain ⟨new, htrace', hreq⟩ := hrest.trace
  have hend : lba + n + (count - n) = lba + count := by omega
  have hsize : count * x.sectorSize = n * x.sectorSize + (count - n) * x.sectorSize := by
    rw [← Nat.add_mul, Nat.add_sub_cancel' hle]
  have hmid : (lba + n) * x.sectorSize = lba * x.sectorSize + n * x.sectorSize := Nat.add_mul _ _ _
  have hcopied : ∀ j, (copyOut x buf off (n * x.sectorSize) t).1 j = _ := copyBytes_apply _ _ _ _ _
  rw [hend] at hreq
  refine ⟨⟨_, ?_, .chunk e hm (by omega) hreq⟩, hrest.idle, ?_, ?_,
    fun hrc => (hrest.media hrc).trans hmedia⟩
  · rw [htrace']
    simp only [copyOut, htrace, hser, List.append_assoc]
  · intro hok i hi
    by_cases hfirst : i < n * x.sectorSize
    · -- the bytes of this command, which the rest of the request leaves alone
      rw [hrest.outside _ (Or.inl (by omega)), hcopied, if_pos (by omega), Nat.add_sub_cancel_left,
        hstore]
      exact effect_read_ok hm (hm.valid hx (Or.inr rfl) (by omega)) left s.store i hfirst
    · have hlater := hrest.filled hok (i - n * x.sectorSize) (by omega)
      rw [show (lba + n) * x.sectorSize + (i - n * x.sectorSize) = lba * x.sectorSize + i by omega,
        show off + n * x.sectorSize + (i - n * x.sectorSize) = off + i by omega] at hlater
      exact hlater.trans (congrFun hmedia _)
  · intro j hj
    rw [hrest.outside j (by omega), hcopied, if_neg (by omega)]

/-- **The loop of `op_read`.** -/
theorem opReadFrom_spec (hx : CtxOk x) (env : Schedule) (turns : ℕ) (h : Idle s)
    (hturns : count ≤ turns) (hin : lba + count ≤ x.sectorCount) :
    ReadOut x env buf lba count off s (opReadFrom x env turns lba count off buf s).1
      (opReadFrom x env turns lba count off buf s).2.1
        (opReadFrom x env turns lba count off buf s).2.2 := by
  induction turns generalizing lba count off buf s with
  | zero =>
    obtain rfl : count = 0 := by omega
    exact .none h buf lba off
  | succ turns ih =>
    simp only [opReadFrom]
    split
    next h0 =>
      subst h0
      exact .none h buf lba off
    next h0 =>
      obtain ⟨hpos, hle, hxfer⟩ := chunk_pos hx h0
      generalize chunk x count = n at hpos hle hxfer ⊢
      have hcall := ioRw_spec hx h env (fun k => [.copy k]) (Or.inr rfl) hpos hxfer
        (show lba + n ≤ lba + count by omega) hin
      generalize ioRw x env opReadCode lba n s = r at hcall
      obtain ⟨rc, t⟩ := r
      rcases hcall with ⟨e, status, left, hm, hser, hgives, hidle, hstore, hnext, htrace,
        hrc⟩ | ⟨hrc, new, htrace, hreq⟩
      · dsimp only at hidle hstore hnext htrace hrc
        by_cases hst : status = 0
        · rw [if_pos hst] at hrc
          subst hrc hst
          exact .next hx hle hin hm hstore htrace (by omega)
            (ih (hidle.withTrace _) (by omega) (by omega))
        · rw [if_neg hst] at hrc
          subst hrc
          refine ⟨⟨_, htrace, .failed e status hm (by omega) hst hgives⟩,
            fun _ => hidle, by simp, fun _ _ => rfl, fun _ => ?_⟩
          dsimp only
          rw [hstore]
          exact effect_read hm status left s.store
      · dsimp only at hrc
        subst hrc
        exact ⟨⟨new, htrace, hreq⟩, by simp, by simp, fun _ _ => rfl, by simp⟩

/-! ## Runs -/

theorem opFlush_idle (h : Idle s) (hp : Prompt env) : Idle (opFlush x env s).2 := by
  rcases judge_ioExec_spec (x := x) h env
    (put32 (Function.update (fun _ => 0) 0 (UInt8.ofNat opFlushCode)) 1 1) with
    ⟨status, left, -, hcall⟩ | ⟨herr, -⟩
  · exact hcall.idle
  · exact absurd herr (judge_ioExec_returns h hp _)

/-- `check` accepts the requests inside the namespace. -/
theorem in_range_of_check (h : check x lba count = .ok ()) : lba + count ≤ x.sectorCount := by
  unfold check at h
  split at h
  · cases h
  · split at h
    · cases h
    · split at h
      · cases h
      · omega

theorem opWrite_wrote (hx : CtxOk x) (env : Schedule) (h : Idle s) (buf : Bytes)
    (hin : lba + count ≤ x.sectorCount) :
    Wrote x env buf lba count 0 s (opWrite x env lba count buf s).1
      (opWrite x env lba count buf s).2 :=
  opWriteFrom_spec hx env buf count h (Nat.le_refl count) hin

theorem opRead_readOut (hx : CtxOk x) (env : Schedule) (h : Idle s) (buf : Bytes)
    (hin : lba + count ≤ x.sectorCount) :
    ReadOut x env buf lba count 0 s (opRead x env lba count buf s).1
      (opRead x env lba count buf s).2.1
      (opRead x env lba count buf s).2.2 :=
  opReadFrom_spec hx env count h (Nat.le_refl count) hin

/-- With a controller that answers in time the queue is idle between any two requests. -/
theorem Run.idle (hx : CtxOk x) (hp : Prompt env) (h : Run x env s) : Idle s := by
  induction h with
  | start d => exact idle_fresh d
  | request s r _ ih =>
    cases r with
    | read lba count buf =>
      simp only [serve]
      split
      next => exact ih
      next hok =>
        have hread := opRead_readOut hx env ih buf (in_range_of_check hok)
        obtain ⟨new, -, hreq⟩ := hread.trace
        exact hread.idle (hreq.ne_timeout hp)
    | write lba count buf =>
      simp only [serve]
      split
      next => exact ih
      next hok =>
        have hwrote := opWrite_wrote hx env ih buf (in_range_of_check hok)
        obtain ⟨new, -, hreq⟩ := hwrote.trace
        exact hwrote.idle (hreq.ne_timeout hp)
    | flush => exact opFlush_idle ih hp

/-- **Split transfers are whole transfers.** In every run with a controller that answers in time,
for every request inside the namespace: `op_write` and `op_read` return `BLK_OK` or, if one of their
commands failed, `BLK_E_IO`, and their commands are as `Commands` says. A write changes no other
sector and, if it succeeds, stores the buffer in its sectors; a read changes no sector and, if it
succeeds, fills the buffer with its sectors and leaves the rest of the buffer alone. If the
controller reports no error of its own, both succeed. -/
theorem transfers_exact {id : Bytes} {dma : ℕ} (hid : identifyNamespace id dma = .ok x)
    (hpage : dma % 4096 = 0) (hphys : dma < 2 ^ 64) (hp : Prompt env) (hs : Run x env s)
    (buf : Bytes) (hin : lba + count ≤ x.sectorCount) :
    (∃ rc t new, opWrite x env lba count buf s = (rc, t) ∧ t.trace = s.trace ++ new ∧
      Commands x opWriteCode lba count rc new ∧
      (∀ a, a < lba * x.sectorSize ∨ (lba + count) * x.sectorSize ≤ a →
        t.store.media a = s.store.media a) ∧
      (rc = .ok () → ∀ i < count * x.sectorSize, t.store.media (lba * x.sectorSize + i) = buf i) ∧
      ((∀ status, Gives env status → status = 0) → rc = .ok ())) ∧
    (∃ rc buf' t new, opRead x env lba count buf s = (rc, buf', t) ∧ t.trace = s.trace ++ new ∧
      Commands x opReadCode lba count rc new ∧ t.store.media = s.store.media ∧
      (∀ j, count * x.sectorSize ≤ j → buf' j = buf j) ∧
      (rc = .ok () → ∀ i < count * x.sectorSize, buf' i = s.store.media (lba * x.sectorSize + i)) ∧
      ((∀ status, Gives env status → status = 0) → rc = .ok ())) := by
  have hx := ctxOk_of_identify hid hpage hphys
  have hidle := hs.idle hx hp
  constructor
  · have hwrote := opWrite_wrote hx env hidle buf hin
    obtain ⟨new, htrace, hreq⟩ := hwrote.trace
    refine ⟨_, _, new, rfl, htrace, hreq.commands onlyCopies_none hp,
      hwrote.others (hreq.ne_timeout hp), ?_, hreq.ok onlyCopies_none hp⟩
    intro hok i hi
    exact (hwrote.written hok i hi).trans (congrArg buf (Nat.zero_add i))
  · have hread := opRead_readOut hx env hidle buf hin
    obtain ⟨new, htrace, hreq⟩ := hread.trace
    refine ⟨_, _, _, new, rfl, htrace, hreq.commands onlyCopies_copy hp,
      hread.media (hreq.ne_timeout hp), ?_, ?_, hreq.ok onlyCopies_copy hp⟩
    · intro j hj
      exact hread.outside j (Or.inr (by omega))
    · intro hok i hi
      have hfill := hread.filled hok i hi
      rwa [Nat.zero_add] at hfill

/-- A controller that answers every command before the next poll. -/
def promptly : Schedule := fun _ => script ⟨0, success_lt⟩ fun _ => 0

theorem prompt_promptly : Prompt promptly := by
  intro time
  refine ⟨0, fun _ => 0, ?_⟩
  obtain ⟨k, hk⟩ := spinLimit_eq_succ
  rw [hk, List.range_succ_eq_map, List.flatMap_cons]
  exact List.sublist_append_left _ _

theorem gives_promptly (status : Fin (2 ^ 15)) (h : Gives promptly status) : status = 0 := by
  obtain ⟨time, i, left, hmem⟩ := h
  simp only [promptly, script, List.mem_cons, CtlMove.execute.injEq, reduceCtorEq, List.not_mem_nil,
    or_false, false_or] at hmem
  exact hmem.2.1

/-- A namespace of sixteen sectors of 512 bytes. -/
def smallId : Bytes := fun i => if i = 0 then 16 else if i = 130 then 9 else 0

def smallCtx : NvmeCtx := ⟨16, 512, 8, 4096⟩

/-- Eleven sectors, in two commands. -/
theorem transfers_exact_small : ∃ t,
    opWrite smallCtx promptly 3 11 (fun i => UInt8.ofNat i)
      (freshMachine ⟨fun _ => 0, fun _ => 7⟩) = (.ok (), t) ∧
      (∀ i < 11 * 512, t.store.media (3 * 512 + i) = UInt8.ofNat i) ∧ t.store.media 0 = 7 := by
  have hid : identifyNamespace smallId 4096 = .ok smallCtx := rfl
  have hin : 3 + 11 ≤ smallCtx.sectorCount := by decide
  have h := transfers_exact hid (by decide) (by decide) prompt_promptly
    (.start ⟨fun _ => 0, fun _ => 7⟩) (fun i => UInt8.ofNat i) hin
  obtain ⟨⟨rc, t, new, hrun, -, -, hothers, hwritten, hok⟩, -⟩ := h
  have hrc := hok gives_promptly
  subst hrc
  exact ⟨t, hrun, hwritten rfl, hothers 0 (Or.inl (by decide))⟩

end Xasmos.Nvme
