import Xasmos.Nvme.Transfer

/-!
# Whose completion is it

`queue_exec` does not look at the command identifier of a completion. As long as no call on the
queue has timed out there is never more than one command on its way, and every call returns with its
own completion. After a timeout the completion of the abandoned command takes the place of the next
one, and the driver stays one completion behind.

## Main results

* `Run.acks_own` — in every run, up to the first timeout, every call returns with its own
  completion.
* `late_completion_acks_next_write` — after a timeout a write can be acknowledged that the
  controller has not even fetched.
-/
namespace Xasmos.Nvme

variable {a b count k lba off op time : ℕ} {buf left : Bytes} {copies : ℕ → List Event}
  {dones l new tr : List Event} {e : Sqe} {rc : Except BlkError Unit} {s t : Machine}

variable {x : NvmeCtx} {env : Schedule}

/-! ## Histories -/

/-- Some call has returned `BLK_E_TIMEOUT`. -/
def TimedOut (tr : List Event) : Prop := ∃ k, .answer k none ∈ tr

/-- What an event of the driver says about the history before it: a call that returns `BLK_OK` has
the completion of its own command, and the page is copied after a read that was executed. -/
def Own (pre : List Event) : Event → Prop
  | .answer k (some j) => j = k ∧ ∃ e status, e.serial = k ∧ .submit e ∈ pre ∧ .done e status ∈ pre
  | .copy k => ∃ e, e.serial = k ∧ Cmd.opcode e.cmd = opReadCode ∧ .submit e ∈ pre ∧ .done e 0 ∈ pre
  | _ => True

/-- Every event up to the first timeout is as `Own` says. -/
def Sound (tr : List Event) : Prop := ∀ pre ev post, tr = pre ++ ev :: post → ¬ TimedOut pre →
    Own pre ev

theorem TimedOut.append (h : TimedOut tr) (l : List Event) : TimedOut (tr ++ l) := by
  obtain ⟨k, hk⟩ := h
  exact ⟨k, List.mem_append_left l hk⟩

/-- A place in a longer history is a place in the shorter one, or it has all of it before. -/
theorem Sound.append (h : Sound tr)
    (hl : ∀ mid ev post, l = mid ++ ev :: post → ¬ TimedOut (tr ++ mid) → Own (tr ++ mid) ev) :
    Sound (tr ++ l) := by
  intro pre ev post heq hpre
  rcases List.append_eq_append_iff.mp heq with ⟨mid, rfl, hmid⟩ | ⟨mid, rfl, hmid⟩
  · exact hl mid ev post hmid hpre
  · cases mid with
    | nil =>
      have hnow := hl [] ev post hmid.symm
      simp only [List.append_nil] at hnow
      exact hnow hpre
    | cons ev' mid =>
      rw [List.cons_append, List.cons.injEq] at hmid
      exact h pre ev mid (by rw [hmid.1]) hpre

/-- After a timeout nothing is said. -/
theorem Sound.append_late (h : Sound tr) (hlate : TimedOut tr) (l : List Event) :
    Sound (tr ++ l) := by
  apply h.append
  intro mid ev post _ hno
  exact absurd (hlate.append mid) hno

theorem Sound.snoc (h : Sound tr) {ev : Event} (hev : Own tr ev) : Sound (tr ++ [ev]) := by
  apply h.append
  intro mid ev' post heq _
  cases mid with
  | nil =>
    cases heq
    rwa [List.append_nil]
  | cons a mid => simp at heq

theorem Sound.ownEvents (h : Sound tr) (e : Sqe) (status : ℕ) :
    Sound (tr ++ ownEvents e status) := by
  have h₁ : Sound (tr ++ [.submit e]) := h.snoc trivial
  have h₂ : Sound (tr ++ [.submit e] ++ [.done e status]) := h₁.snoc trivial
  have h₃ : Sound (tr ++ [.submit e] ++ [.done e status] ++ [.answer e.serial (some e.serial)]) :=
    h₂.snoc ⟨rfl, e, status, rfl, by simp, by simp⟩
  simpa [Nvme.ownEvents] using h₃

theorem Sound.given_up (h : Sound tr) (hdones : ∀ ev ∈ dones, ∃ status, ev = .done e status) :
    Sound (tr ++ (.submit e :: dones ++ [.answer k none])) := by
  apply h.append
  intro mid ev post heq _
  have hmem : ev ∈ .submit e :: dones ++ [.answer k none] := by
    rw [heq]
    simp
  simp only [List.cons_append, List.mem_cons, List.mem_append, List.not_mem_nil, or_false] at hmem
  rcases hmem with rfl | hmem | rfl
  · trivial
  · obtain ⟨status, rfl⟩ := hdones ev hmem
    trivial
  · trivial

/-- **The history of a request** on an idle queue is sound. -/
theorem ReqTrace.sound (h : ReqTrace x env op copies a b rc new) (hc : OnlyCopies copies)
    (hop : op = opReadCode ∨ ∀ k, copies k = []) (ht : Sound tr) : Sound (tr ++ new) := by
  induction h generalizing tr with
  | finish => rwa [List.append_nil]
  | @chunk a b n rc new e hm hle htr ih =>
    have hown := ht.ownEvents e 0
    rw [← List.append_assoc, ← List.append_assoc]
    apply ih
    apply hown.append
    intro mid ev post heq _
    have hmem : ev ∈ copies e.serial := by
      rw [heq]
      simp
    rcases hop with rfl | hnone
    · rw [hc _ _ hmem]
      refine ⟨e, rfl, hm.opcode, ?_, ?_⟩
      · exact List.mem_append_left _ (List.mem_append_right _ (mem_ownEvents.mpr (Or.inl rfl)))
      · exact List.mem_append_left _
          (List.mem_append_right _ (mem_ownEvents.mpr (Or.inr (Or.inl rfl))))
    · rw [hnone] at hmem
      cases hmem
  | failed e status hm hle hne hst => exact ht.ownEvents e status
  | late e hm hle hdones hlate => exact ht.given_up hdones

/-- A request that was given up leaves a timeout in its history. -/
theorem ReqTrace.timedOut (h : ReqTrace x env op copies a b rc new) (hrc : rc = .error .timeout) :
    TimedOut new := by
  induction h with
  | finish => cases hrc
  | chunk e hm hle htr ih =>
    obtain ⟨k, hk⟩ := ih hrc
    exact ⟨k, List.mem_append_right _ hk⟩
  | failed => cases hrc
  | late e hm hle hdones hlate => exact ⟨e.serial, by simp⟩

/-- The commands of a request that succeeded have all been executed. -/
theorem ReqTrace.executed (h : ReqTrace x env op copies a b rc new) (hc : OnlyCopies copies)
    (hrc : rc = .ok ()) : Tiles a b (ranges new) ∧ ∀ e, .submit e ∈ new → .done e 0 ∈ new := by
  induction h with
  | finish a => exact ⟨.nil a, by simp⟩
  | chunk e hm hle htr ih =>
    obtain ⟨htiles, hdone⟩ := ih hrc
    constructor
    · have hown := ranges_ownEvents hm e.serial 0
      have hcop := hc.ranges_eq e.serial
      rw [ranges] at hown hcop ⊢
      rw [List.filterMap_append, List.filterMap_append, hown, hcop]
      exact .cons htiles
    · intro e' he
      simp only [List.mem_append, mem_ownEvents, Event.submit.injEq, reduceCtorEq, or_false,
        hc.notSubmit] at he
      rcases he with rfl | he
      · exact List.mem_append_left _
          (List.mem_append_left _ (mem_ownEvents.mpr (Or.inr (Or.inl rfl))))
      · exact List.mem_append_right _ (hdone e' he)
  | failed | late => cases hrc

/-! ## The history only grows -/

theorem ctlMove_trace (x : NvmeCtx) (s : Machine) (m : CtlMove) :
    s.trace <+: (ctlMove x s m).trace := by
  cases m with
  | fetch =>
    rw [ctlMove]
    split <;> exact List.prefix_rfl
  | execute i status left =>
    rw [ctlMove]
    split
    · exact List.prefix_rfl
    · exact List.prefix_append _ _
  | post i =>
    rw [ctlMove]
    split
    · exact List.prefix_rfl
    · split <;> exact List.prefix_rfl

theorem foldl_ctlMove_trace (x : NvmeCtx) (ms : List CtlMove) (s : Machine) :
    s.trace <+: (ms.foldl (ctlMove x) s).trace := by
  induction ms generalizing s with
  | nil => exact List.prefix_rfl
  | cons m ms ih => exact (ctlMove_trace x s m).trans (ih _)

theorem waitCqe_trace (x : NvmeCtx) (env : Schedule) (n : ℕ) (s : Machine) :
    s.trace <+: (waitCqe x env n s).2.trace := by
  induction n generalizing s with
  | zero => exact List.prefix_rfl
  | succ n ih =>
    have hstep : s.trace <+: (elapse x env s).trace := foldl_ctlMove_trace x (env s.time) s
    simp only [waitCqe]
    split
    · exact hstep
    · exact hstep.trans (ih _)

theorem judge_ioExec_trace (x : NvmeCtx) (env : Schedule) (c : Bytes) (s : Machine) :
    s.trace <+: (judge (ioExec x env c s)).2.trace := by
  have hwait := waitCqe_trace x env spinLimit
    (submit (stamped c s) { s with q := { s.q with nextCid := (s.q.nextCid + 1) % 2 ^ 16 } })
  have hcall : s.trace <+: (ioExec x env c s).2.trace :=
    ((List.prefix_append _ _).trans hwait).trans (List.prefix_append _ _)
  generalize ioExec x env c s = r at hcall ⊢
  obtain ⟨rc, t⟩ := r
  cases rc with
  | error => exact hcall
  | ok cqe =>
    rw [judge]
    split <;> exact hcall

theorem ioRw_trace (x : NvmeCtx) (env : Schedule) (op lba n : ℕ) (s : Machine) :
    s.trace <+: (ioRw x env op lba n s).2.trace :=
  judge_ioExec_trace x env (rwCmd x op lba n) s

theorem opWriteFrom_trace (x : NvmeCtx) (env : Schedule) (buf : Bytes) (turns : ℕ) :
    s.trace <+: (opWriteFrom x env buf turns lba count off s).2.trace := by
  induction turns generalizing lba count off s with
  | zero => exact List.prefix_rfl
  | succ turns ih =>
    simp only [opWriteFrom]
    split
    · exact List.prefix_rfl
    · have hcall := ioRw_trace x env opWriteCode lba (chunk x count)
        (copyIn x buf off (chunk x count * x.sectorSize) s)
      split
      next heq =>
        rw [heq] at hcall
        exact hcall
      next heq =>
        rw [heq] at hcall
        exact hcall.trans ih

theorem opReadFrom_trace (x : NvmeCtx) (env : Schedule) (turns : ℕ) :
    s.trace <+: (opReadFrom x env turns lba count off buf s).2.2.trace := by
  induction turns generalizing lba count off buf s with
  | zero => exact List.prefix_rfl
  | succ turns ih =>
    simp only [opReadFrom]
    split
    · exact List.prefix_rfl
    · have hcall := ioRw_trace x env opReadCode lba (chunk x count) s
      split
      next heq =>
        rw [heq] at hcall
        exact hcall
      next heq =>
        rw [heq] at hcall
        refine hcall.trans (List.IsPrefix.trans ?_ ih)
        exact List.prefix_append _ _

theorem serve_trace (x : NvmeCtx) (env : Schedule) (s : Machine) (r : Request) :
    s.trace <+: (serve x env s r).2.trace := by
  cases r with
  | read lba count buf =>
    simp only [serve]
    split
    · exact List.prefix_rfl
    · exact opReadFrom_trace x env count
  | write lba count buf =>
    simp only [serve]
    split
    · exact List.prefix_rfl
    · exact opWriteFrom_trace x env buf count
  | flush => exact judge_ioExec_trace x env _ s

/-! ## Runs -/

/-- What holds between any two requests. -/
structure RunInv (s : Machine) : Prop where
  sound : Sound s.trace
  idle : ¬ TimedOut s.trace → Idle s

theorem runInv_fresh (d : Store) : RunInv (freshMachine d) where
  sound := by
    intro pre ev post heq
    simp [freshMachine] at heq
  idle := fun _ => idle_fresh d

/-- A request on an idle queue. -/
theorem RunInv.of_reqTrace (h : RunInv s) (hc : OnlyCopies copies)
    (hop : op = opReadCode ∨ ∀ k, copies k = []) (htrace : t.trace = s.trace ++ new)
    (hreq : ReqTrace x env op copies lba b rc new) (hidle : rc ≠ .error .timeout → Idle t) :
    RunInv t where
  sound := by
    rw [htrace]
    exact hreq.sound hc hop h.sound
  idle := by
    intro hno
    apply hidle
    intro hrc
    obtain ⟨k, hk⟩ := hreq.timedOut hrc
    exact hno ⟨k, by rw [htrace]; exact List.mem_append_right _ hk⟩

theorem RunInv.opFlush (h : RunInv s) (hidle : Idle s) : RunInv (opFlush x env s).2 := by
  rcases judge_ioExec_spec (x := x) hidle env
    (put32 (Function.update (fun _ => 0) 0 (UInt8.ofNat opFlushCode)) 1 1) with
    ⟨status, left, -, hcall⟩ | ⟨-, dones, htrace, hdones⟩
  · refine ⟨?_, fun _ => hcall.idle⟩
    rw [Nvme.opFlush, hcall.trace]
    exact h.sound.ownEvents _ _
  · constructor
    · rw [Nvme.opFlush, htrace]
      exact h.sound.given_up hdones
    · intro hno
      refine absurd ⟨s.next, ?_⟩ hno
      rw [Nvme.opFlush, htrace]
      simp

/-- **One request.** -/
theorem RunInv.serve (hx : CtxOk x) (h : RunInv s) (r : Request) : RunInv (serve x env s r).2 := by
  by_cases hlate : TimedOut s.trace
  · obtain ⟨l, hl⟩ := serve_trace x env s r
    constructor
    · rw [← hl]
      exact h.sound.append_late hlate l
    · intro hno
      rw [← hl] at hno
      exact absurd (hlate.append l) hno
  · have hidle := h.idle hlate
    cases r with
    | read lba count buf =>
      simp only [Nvme.serve]
      split
      next => exact h
      next hok =>
        have hread := opRead_readOut hx env hidle buf (in_range_of_check hok)
        obtain ⟨new, htrace, hreq⟩ := hread.trace
        exact h.of_reqTrace onlyCopies_copy (Or.inl rfl) htrace hreq hread.idle
    | write lba count buf =>
      simp only [Nvme.serve]
      split
      next => exact h
      next hok =>
        have hwrote := opWrite_wrote hx env hidle buf (in_range_of_check hok)
        obtain ⟨new, htrace, hreq⟩ := hwrote.trace
        exact h.of_reqTrace onlyCopies_none (Or.inr fun _ => rfl) htrace hreq hwrote.idle
    | flush => exact h.opFlush hidle

theorem Run.runInv (hx : CtxOk x) (h : Run x env s) : RunInv s := by
  induction h with
  | start d => exact runInv_fresh d
  | request s r _ ih => exact ih.serve hx r

/-- **Acknowledgements up to the first timeout.** In every run, with any delays: a call of
`queue_exec` before which none has timed out, and which returns `BLK_OK`, returns with the
completion of its own command, which the controller has executed; the bounce page is copied only
after the read was executed without error; and a write that returns `BLK_OK` has had every one of
its commands executed without error. -/
theorem Run.acks_own {id : Bytes} {dma : ℕ} (hid : identifyNamespace id dma = .ok x)
    (hpage : dma % 4096 = 0) (hphys : dma < 2 ^ 64) (h : Run x env s) :
    (∀ pre k j post, s.trace = pre ++ .answer k (some j) :: post → ¬ TimedOut pre →
      j = k ∧ ∃ e status, e.serial = k ∧ .submit e ∈ pre ∧ .done e status ∈ pre) ∧
    (∀ pre k post, s.trace = pre ++ .copy k :: post → ¬ TimedOut pre →
      ∃ e, e.serial = k ∧ Cmd.opcode e.cmd = opReadCode ∧ .submit e ∈ pre ∧ .done e 0 ∈ pre) ∧
    ∀ lba count buf t, ¬ TimedOut s.trace → lba + count ≤ x.sectorCount →
      opWrite x env lba count buf s = (.ok (), t) →
      ∃ new, t.trace = s.trace ++ new ∧ Tiles lba (lba + count) (ranges new) ∧
        ∀ e, .submit e ∈ new → .done e 0 ∈ new := by
  have hx := ctxOk_of_identify hid hpage hphys
  have hinv := h.runInv hx
  refine ⟨fun pre k j post heq => hinv.sound pre _ post heq,
    fun pre k post heq => hinv.sound pre _ post heq, ?_⟩
  intro lba count buf t hno hin hok
  have hwrote := opWrite_wrote hx env (hinv.idle hno) buf hin
  rw [hok] at hwrote
  obtain ⟨new, htrace, hreq⟩ := hwrote.trace
  exact ⟨new, htrace, hreq.executed onlyCopies_none rfl⟩

/-- A write of two commands to a prompt controller. -/
theorem Run.acks_own_small :
    ∃ t new, opWrite smallCtx promptly 3 11 (fun _ => 1) (freshMachine ⟨fun _ => 0, fun _ => 7⟩) =
      (.ok (), t) ∧
    t.trace = new ∧ Tiles 3 14 (ranges new) ∧ ∀ e, .submit e ∈ new → .done e 0 ∈ new := by
  have hid : identifyNamespace smallId 4096 = .ok smallCtx := rfl
  have hx := ctxOk_of_identify hid (by decide) (by decide)
  have hin : 3 + 11 ≤ smallCtx.sectorCount := by decide
  obtain ⟨-, -, hwrite⟩ := Run.acks_own hid (by decide) (by decide)
    (.start ⟨fun _ => 0, fun _ => 7⟩ : Run smallCtx promptly _)
  have hwrote := opWrite_wrote hx promptly (idle_fresh ⟨fun _ => 0, fun _ => 7⟩) (fun _ => 1) hin
  obtain ⟨tr, -, hreq⟩ := hwrote.trace
  have hok := hreq.ok onlyCopies_none prompt_promptly gives_promptly
  obtain ⟨new, htrace, hdone⟩ := hwrite 3 11 (fun _ => 1) _ (by rintro ⟨k, hk⟩; cases hk) hin
    (Prod.ext hok rfl)
  exact ⟨_, new, Prod.ext hok rfl, htrace, hdone⟩

/-! ## After a timeout -/

/-- A controller that is idle for as long as a waiting loop lasts, and then answers one command. -/
def tooLate : Schedule :=
  fun time => if time = spinLimit then script ⟨0, success_lt⟩ fun _ => 0 else []

theorem tooLate_of_lt (h : time < spinLimit) : tooLate time = [] := if_neg (Nat.ne_of_lt h)

/-- If nothing happens, the loop gives up. -/
theorem waitCqe_silent (n : ℕ) (henv : ∀ i < n, env (s.time + i) = [])
    (hold : nvmeCqeIsNew (s.cq s.q.head).dw3 s.q.phase = false) :
    waitCqe x env n s = (.error .timeout, { s with time := s.time + n }) := by
  induction n generalizing s with
  | zero => rfl
  | succ n ih =>
    have hstill : elapse x env s = { s with time := s.time + 1 } := by
      have h0 := henv 0 (Nat.succ_pos n)
      rw [Nat.add_zero] at h0
      simp only [elapse, h0, List.foldl_nil]
    rw [waitCqe, hstill]
    dsimp only
    rw [hold, if_neg (by decide)]
    have hrest := ih (s := { s with time := s.time + 1 }) ?_ hold
    · rw [hrest]
      dsimp only
      rw [Nat.add_assoc, Nat.add_comm 1 n]
    · intro i hi
      have hnext := henv (i + 1) (by omega)
      dsimp only
      rwa [show s.time + 1 + i = s.time + (i + 1) by omega]

/-- The state before the waiting loop of a call. -/
def issued (c : Bytes) (s : Machine) : Machine :=
  submit (stamped c s) { s with q := { s.q with nextCid := (s.q.nextCid + 1) % 2 ^ 16 } }

theorem ioExec_eq (x : NvmeCtx) (env : Schedule) (c : Bytes) (s : Machine) :
    ioExec x env c s = answered s.next (waitCqe x env spinLimit (issued c s)) := rfl

/-- One sector is one command. -/
theorem opWrite_one (hxfer : 1 < x.secPerXfer) (buf : Bytes) :
    opWrite x env lba 1 buf s = ioRw x env opWriteCode lba 1 (copyIn x buf 0 x.sectorSize s) := by
  have hchunk : chunk x 1 = 1 := if_pos hxfer
  simp only [opWrite, opWriteFrom, hchunk, Nat.one_mul]
  rw [if_neg (by decide)]
  split <;> simp_all

/-- Before the first write. -/
def lateStart : Machine := freshMachine ⟨fun _ => 0, fun _ => 7⟩

/-- The first write, of zeros to sector 0. -/
def lateCmd : Bytes := stamped (rwCmd smallCtx opWriteCode 0 1) lateStart

/-- After the first write: its command is submitted, and nobody has looked at it. -/
def afterLate : Machine :=
  { issued (rwCmd smallCtx opWriteCode 0 1) (copyIn smallCtx (fun _ => 0) 0 512 lateStart) with
    time := spinLimit
    trace := [.submit ⟨lateCmd, 0⟩, .answer 0 none] }

theorem opWrite_tooLate :
    opWrite smallCtx tooLate 0 1 (fun _ => 0) lateStart = (.error .timeout, afterLate) := by
  rw [opWrite_one (by decide), ioRw, ioExec_eq, waitCqe_silent]
  · rw [show (issued (rwCmd smallCtx opWriteCode 0 1)
      (copyIn smallCtx (fun _ => 0) 0 smallCtx.sectorSize lateStart)).time +
      spinLimit = spinLimit from Nat.zero_add spinLimit]
    rfl
  · intro i hi
    exact tooLate_of_lt (by simpa [issued, submit, copyIn, lateStart, freshMachine] using hi)
  · decide

theorem moves_lateCmd : Moves smallCtx opWriteCode 0 1 lateCmd := by
  have hid : identifyNamespace smallId 4096 = .ok smallCtx := rfl
  exact moves_rwCmd (ctxOk_of_identify hid (by decide) (by decide)) lateStart (by decide)
    (by decide) (by decide) (by decide)

/-- The second write, of ones to sector 5, at its first poll. -/
def secondIssued : Machine := issued (rwCmd smallCtx opWriteCode 5 1)
    (copyIn smallCtx (fun _ => 1) 0 512 afterLate)

/-- A queue whose controller has all its submitted commands still to fetch, the oldest being `e`,
and whose driver has read all completions. -/
structure Behind (e : Sqe) (s : Machine) : Prop where
  some : s.ctl.sqHead ≠ s.ctl.sqTail
  oldest : s.sq s.ctl.sqHead = e
  fetched : s.ctl.fetched = []
  executed : s.ctl.executed = []
  head : s.q.head = s.ctl.cqTail
  consumedAll : s.ctl.cqHead = s.ctl.cqTail
  phase : s.q.phase = s.ctl.phase
  phase_lt : s.ctl.phase < 2

/-- **Whoever waits gets the oldest completion**: the call that polls next returns with the
completion of `e`, whatever it has submitted itself. -/
theorem waitCqe_behind (h : Behind e s) (henv : env s.time = script 0 left) (n : ℕ) :
    ∃ t, waitCqe x env (n + 1) s = (.ok ⟨cqeDw3 e.cmd s.ctl.phase (reported x e.cmd 0), e.serial⟩,
      t) ∧
      t.store = effect x e.cmd 0 left s.store ∧
        t.trace = s.trace ++ [.done e (reported x e.cmd 0)] := by
  have hroom : (s.ctl.cqTail + 1) % queueDepth ≠ s.ctl.cqHead := by
    rw [h.consumedAll]
    exact succ_mod_ne s.ctl.cqTail
  have hnew : nvmeCqeIsNew (cqeDw3 e.cmd s.ctl.phase (reported x e.cmd 0)) s.ctl.phase = true := by
    rw [isNew_cqeDw3 _ _ _ _ h.phase_lt, Nat.mod_eq_of_lt h.phase_lt]
    simp
  simp only [waitCqe, elapse, henv, script, List.foldl_cons, List.foldl_nil, ctlMove, if_neg h.some,
    h.oldest, h.fetched, h.executed,
    List.nil_append, List.getElem?_cons_zero, List.eraseIdx_cons_zero, if_neg hroom, h.head,
    h.phase, Function.update_self, hnew, if_true]
  exact ⟨_, rfl, rfl, rfl⟩

theorem behind_second : Behind ⟨lateCmd, 0⟩ secondIssued :=
  ⟨by decide, rfl, rfl, rfl, rfl, rfl, rfl, Nat.one_lt_two⟩

/-- After a timeout, a write is acknowledged that the controller has not executed: the only command
executed is the abandoned one, and the sector keeps its old content. -/
theorem late_completion_acks_next_write :
    ∃ s t, Run smallCtx tooLate s ∧ opWrite smallCtx tooLate 5 1 (fun _ => 1) s = (.ok (), t) ∧
    .answer 1 (some 0) ∈ t.trace ∧ (∀ e status, .done e status ∈ t.trace → e.serial = 0) ∧
      t.store.media (5 * 512) = 7 := by
  have hrun : Run smallCtx tooLate afterLate := by
    have hstep := Run.request lateStart (.write 0 1 fun _ => 0)
      (.start ⟨fun _ => 0, fun _ => 7⟩ : Run smallCtx tooLate _)
    have hserve : serve smallCtx tooLate lateStart (.write 0 1 fun _ => 0) =
      opWrite smallCtx tooLate 0 1 (fun _ => 0) lateStart := rfl
    rwa [hserve, opWrite_tooLate] at hstep
  obtain ⟨k, hk⟩ := spinLimit_eq_succ
  have hnow : tooLate secondIssued.time = script 0 fun _ => 0 := if_pos rfl
  obtain ⟨t, hwait, hstore, htrace⟩ := waitCqe_behind (x := smallCtx) behind_second hnow k
  rw [← hk] at hwait
  have hid : identifyNamespace smallId 4096 = .ok smallCtx := rfl
  have hx := ctxOk_of_identify hid (by decide) (by decide)
  have hrep : reported smallCtx lateCmd 0 = 0 :=
    if_pos (moves_lateCmd.valid hx (Or.inl rfl) (by decide))
  have hstatus : nvmeCqeStatus (cqeDw3 lateCmd 1 0) = 0 :=
    status_cqeDw3 lateCmd Nat.one_lt_two (by decide)
  dsimp only at hwait htrace hstore
  rw [hrep] at hwait htrace
  have hcall : opWrite smallCtx tooLate 5 1 (fun _ => 1) afterLate =
      (.ok (), { t with trace := t.trace ++ [.answer 1 (some 0)] }) := by
    have hexec : ioExec smallCtx tooLate (rwCmd smallCtx opWriteCode 5 1)
      (copyIn smallCtx (fun _ => 1) 0 512 afterLate) =
        (.ok ⟨cqeDw3 lateCmd 1 0, 0⟩, { t with trace := t.trace ++ [.answer 1 (some 0)] }) :=
        congrArg (answered 1) hwait
    rw [opWrite_one (by decide), ioRw]
    rw [show smallCtx.sectorSize = 512 from rfl, hexec, judge, if_pos hstatus]
  refine ⟨afterLate, _, hrun, hcall, ?_, ?_, ?_⟩
  · simp
  · intro e status hmem
    dsimp only at hmem
    rw [htrace] at hmem
    simp only [secondIssued, issued, submit, copyIn, afterLate, List.mem_append, List.mem_cons,
      Event.done.injEq, reduceCtorEq, List.not_mem_nil, or_false, false_or] at hmem
    rw [hmem.1]
  · dsimp only
    rw [hstore]
    exact (effect_write moves_lateCmd 0 _ _).2 (5 * 512) (Or.inr (by decide))

end Xasmos.Nvme
