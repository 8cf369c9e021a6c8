import Xasmos.Nvme.Queue

/-!
# One call of `queue_exec`

Between two calls of a queue on which nothing has timed out, both sides are idle (`Idle`): the
indices agree, no command is on its way, and an entry of the completion ring has the expected phase
tag exactly if it was written on this lap. During a call one command is on its way, in one of four
stages (`InFlight`), and the controller can only move it on. So the entry the driver waits for gets
the tag exactly when its own command is answered.
-/
namespace Xasmos.Nvme

open Function (update update_self update_of_ne)

variable {c left : Bytes} {k p phase tail : ℕ} {s t : Machine}

variable {x : NvmeCtx} {env : Schedule} {e : Sqe}

/-! ## Words of a completion -/

theorem isNew_eq (dw3 phase : ℕ) :
    nvmeCqeIsNew dw3 phase = decide (dw3 / 2 ^ 16 % 2 = phase % 2) := by
  rw [nvmeCqeIsNew, Nat.shiftRight_eq_div_pow, Nat.and_one_is_mod, Nat.and_one_is_mod]
  rfl

theorem status_eq (dw3 : ℕ) : nvmeCqeStatus dw3 = dw3 / 2 ^ 17 % 2 ^ 15 := by
  rw [nvmeCqeStatus, Nat.shiftRight_eq_div_pow]
  exact Nat.and_two_pow_sub_one_eq_mod _ 15

theorem cid_lt (c : Bytes) : Cmd.cid c < 2 ^ 16 := Bytes.getLE_lt 2 c 2

theorem isNew_cqeDw3 (c : Bytes) (phase status expected : ℕ) (h : phase < 2) :
    nvmeCqeIsNew (cqeDw3 c phase status) expected = decide (phase = expected % 2) := by
  have hc := cid_lt c
  have hbit : cqeDw3 c phase status / 2 ^ 16 % 2 = phase := by
    unfold cqeDw3
    omega
  rw [isNew_eq, hbit]

theorem reported_lt (x : NvmeCtx) (c : Bytes) (st : Fin (2 ^ 15)) : reported x c st < 2 ^ 15 := by
  unfold reported
  split
  · exact st.isLt
  · decide

theorem status_cqeDw3 (c : Bytes) {status : ℕ} (h : phase < 2) (hst : status < 2 ^ 15) :
    nvmeCqeStatus (cqeDw3 c phase status) = status := by
  have hc := cid_lt c
  rw [status_eq, cqeDw3]
  omega

/-! ## Between calls -/

/-- No command is on its way. -/
structure Idle (s : Machine) : Prop where
  tail : s.q.tail = s.ctl.sqTail
  fetchedAll : s.ctl.sqHead = s.ctl.sqTail
  tail_lt : s.ctl.sqTail < queueDepth
  head : s.q.head = s.ctl.cqTail
  consumedAll : s.ctl.cqHead = s.ctl.cqTail
  head_lt : s.ctl.cqTail < queueDepth
  phase : s.q.phase = s.ctl.phase
  phase_lt : s.ctl.phase < 2
  fetched : s.ctl.fetched = []
  executed : s.ctl.executed = []
  /-- The tag is the expected one in the entries before the head. -/
  ring : ∀ i < queueDepth, nvmeCqeIsNew (s.cq i).dw3 s.ctl.phase = decide (i < s.ctl.cqTail)

theorem idle_fresh (d : Store) : Idle (freshMachine d) where
  tail := rfl
  fetchedAll := rfl
  tail_lt := Nat.zero_lt_succ _
  head := rfl
  consumedAll := rfl
  head_lt := Nat.zero_lt_succ _
  phase := rfl
  phase_lt := Nat.one_lt_two
  fetched := rfl
  executed := rfl
  ring := by
    intro i hi
    have hold : nvmeCqeIsNew 0 1 = false := by decide
    exact hold.trans (decide_eq_false (Nat.not_lt_zero i)).symm

/-- The position and tag after one more entry. -/
def nextPhase (tail phase : ℕ) : ℕ := if (tail + 1) % queueDepth = 0 then phase ^^^ 1 else phase

theorem xor_one_of_lt (h : p < 2) : p ^^^ 1 = 1 - p := by
  rcases Nat.lt_or_ge p 1 with h0 | h1
  · obtain rfl : p = 0 := by omega
    rfl
  · obtain rfl : p = 1 := by omega
    rfl

theorem nextPhase_lt (h : phase < 2) : nextPhase tail phase < 2 := by
  unfold nextPhase
  split
  · rw [xor_one_of_lt h]
    omega
  · exact h

/-- After an entry with the current tag was added at the tail, the tags say again what is behind the
tail, also when the ring wraps. -/
theorem ring_next {cq : ℕ → Cqe} {w : Cqe} (hlt : tail < queueDepth) (hphase : phase < 2)
    (hring : ∀ i < queueDepth, nvmeCqeIsNew (cq i).dw3 phase = decide (i < tail))
    (hw : nvmeCqeIsNew w.dw3 phase = true) (i : ℕ) (hi : i < queueDepth) :
    nvmeCqeIsNew (update cq tail w i).dw3 (nextPhase tail phase) =
      decide (i < (tail + 1) % queueDepth) := by
  have hnow : nvmeCqeIsNew (update cq tail w i).dw3 phase = decide (i < tail + 1) := by
    by_cases h : i = tail
    · rw [h, update_self, hw]
      simp
    · rw [update_of_ne h, hring i hi]
      exact decide_eq_decide.mpr (by omega)
  rw [isNew_eq] at hnow ⊢
  have hiff := decide_eq_decide.mp hnow
  apply decide_eq_decide.mpr
  unfold nextPhase
  split
  next hwrap =>
    rw [xor_one_of_lt hphase, hwrap]
    unfold queueDepth at hlt hi hwrap
    omega
  next hwrap =>
    have hsmall : (tail + 1) % queueDepth = tail + 1 := by
      unfold queueDepth at *
      omega
    rw [hsmall]
    exact hiff

/-! ## A command on its way -/

/-- The controller of this schedule reports the status. -/
def Gives (env : Schedule) (status : Fin (2 ^ 15)) : Prop :=
  ∃ time i left, CtlMove.execute i status left ∈ env time

/-- The stages of the only command, `e`, since the state `s` right after its submission. -/
inductive InFlight (x : NvmeCtx) (env : Schedule) (e : Sqe) (s : Machine) : ℕ → Machine → Prop
  | queued (time : ℕ) : InFlight x env e s 0 { s with time := time }
  | fetched (time : ℕ) :
      InFlight x env e s 1 { s with
        time := time, ctl := { s.ctl with sqHead := s.ctl.sqTail, fetched := [e], executed := [] } }
  | executed (time : ℕ) (status : Fin (2 ^ 15)) (left : Bytes) (h : Gives env status) :
      InFlight x env e s 2 { s with
        time := time
        ctl := { s.ctl with sqHead := s.ctl.sqTail, fetched := [], executed := [(e,
          reported x e.cmd status)] }
        store := effect x e.cmd status left s.store
        trace := s.trace ++ [.done e (reported x e.cmd status)] }
  | posted (time : ℕ) (status : Fin (2 ^ 15)) (left : Bytes) (h : Gives env status) :
      InFlight x env e s 3 { s with
        time := time
        ctl := { s.ctl with
          sqHead := s.ctl.sqTail
          cqTail := (s.ctl.cqTail + 1) % queueDepth
          phase := nextPhase s.ctl.cqTail s.ctl.phase
          fetched := []
          executed := [] }
        cq := update s.cq s.ctl.cqTail ⟨cqeDw3 e.cmd s.ctl.phase (reported x e.cmd status),
          e.serial⟩
        store := effect x e.cmd status left s.store
        trace := s.trace ++ [.done e (reported x e.cmd status)] }

/-- Right after the submission of `e` to an idle queue. -/
structure Submitted (e : Sqe) (s : Machine) : Prop where
  tail : s.q.tail = s.ctl.sqTail
  one : (s.ctl.sqHead + 1) % queueDepth = s.ctl.sqTail
  entry : s.sq s.ctl.sqHead = e
  head : s.q.head = s.ctl.cqTail
  consumedAll : s.ctl.cqHead = s.ctl.cqTail
  head_lt : s.ctl.cqTail < queueDepth
  phase : s.q.phase = s.ctl.phase
  phase_lt : s.ctl.phase < 2
  fetched : s.ctl.fetched = []
  executed : s.ctl.executed = []
  ring : ∀ i < queueDepth, nvmeCqeIsNew (s.cq i).dw3 s.ctl.phase = decide (i < s.ctl.cqTail)

theorem Idle.submit (h : Idle s) (c : Bytes) : Submitted ⟨c, s.next⟩ (submit c s) where
  tail := rfl
  one := by
    show (s.ctl.sqHead + 1) % queueDepth = (s.q.tail + 1) % queueDepth
    rw [h.fetchedAll, h.tail]
  entry := by
    show update s.sq s.q.tail ⟨c, s.next⟩ s.ctl.sqHead = ⟨c, s.next⟩
    rw [h.fetchedAll, h.tail, update_self]
  head := h.head
  consumedAll := h.consumedAll
  head_lt := h.head_lt
  phase := h.phase
  phase_lt := h.phase_lt
  fetched := h.fetched
  executed := h.executed
  ring := h.ring

theorem succ_mod_ne (n : ℕ) : (n + 1) % queueDepth ≠ n := by
  unfold queueDepth
  omega

/-- The move that takes the command out of a stage. -/
def Advances (stage : ℕ) (m : CtlMove) : Prop :=
  match stage, m with
  | 0, .fetch => True
  | 1, .execute i _ _ => i = 0
  | 2, .post i => i = 0
  | _, _ => False

/-- **One move of the controller**: it leaves the command where it is or takes it to the next
stage. -/
theorem InFlight.move (h : Submitted e s) (hf : InFlight x env e s k t) (m : CtlMove)
    (hm : ∃ time, m ∈ env time) :
    ∃ k', k ≤ k' ∧ (Advances k m → k < k') ∧ InFlight x env e s k' (ctlMove x t m) := by
  have hne : s.ctl.sqHead ≠ s.ctl.sqTail := by
    rw [← h.one]
    exact (succ_mod_ne s.ctl.sqHead).symm
  have hfree : (s.ctl.cqTail + 1) % queueDepth ≠ s.ctl.cqHead := by
    rw [h.consumedAll]
    exact succ_mod_ne s.ctl.cqTail
  cases hf with
  | queued time =>
    cases m with
    | fetch =>
      have hnow : InFlight x env e s 1 _ := .fetched time
      simp only [ctlMove, if_neg hne, h.one, h.entry, h.fetched, h.executed, List.nil_append]
      exact ⟨1, by omega, fun _ => by omega, hnow⟩
    | execute i status left =>
      simp only [ctlMove, h.fetched, List.getElem?_nil]
      exact ⟨0, Nat.le_refl 0, False.elim, .queued time⟩
    | post i =>
      simp only [ctlMove, h.executed, List.getElem?_nil]
      exact ⟨0, Nat.le_refl 0, False.elim, .queued time⟩
  | fetched time =>
    cases m with
    | fetch =>
      exact ⟨1, Nat.le_refl 1, False.elim, by simpa only [ctlMove, if_true] using .fetched time⟩
    | execute i status left =>
      cases i with
      | zero =>
        obtain ⟨at', hm⟩ := hm
        exact ⟨2, by omega, fun _ => by omega, .executed time status left ⟨at', 0, left, hm⟩⟩
      | succ i => exact ⟨1, Nat.le_refl 1, fun ha => absurd ha (Nat.succ_ne_zero i), .fetched time⟩
    | post i => exact ⟨1, Nat.le_refl 1, False.elim, .fetched time⟩
  | executed time status left hst =>
    cases m with
    | fetch =>
      exact ⟨2, Nat.le_refl 2, False.elim,
        by simpa only [ctlMove, if_true] using .executed time status left hst⟩
    | execute i status' left' =>
      exact ⟨2, Nat.le_refl 2, False.elim, .executed time status left hst⟩
    | post i =>
      cases i with
      | zero =>
        simp only [ctlMove, List.getElem?_cons_zero, List.eraseIdx_cons_zero, if_neg hfree]
        exact ⟨3, by omega, fun _ => by omega, .posted time status left hst⟩
      | succ i =>
        exact ⟨2, Nat.le_refl 2, fun ha => absurd ha (Nat.succ_ne_zero i),
          .executed time status left hst⟩
  | posted time status left hst =>
    cases m with
    | fetch =>
      exact ⟨3, Nat.le_refl 3, False.elim,
        by simpa only [ctlMove, if_true] using .posted time status left hst⟩
    | execute i status' left' | post i =>
      exact ⟨3, Nat.le_refl 3, False.elim, .posted time status left hst⟩

/-- The three moves that answer a command. -/
def script (status : Fin (2 ^ 15)) (left : Bytes) : List CtlMove :=
  [.fetch, .execute 0 status left, .post 0]

/-- The status of success is one of 15 bits. -/
theorem success_lt : 0 < 2 ^ 15 := by decide

/-- The moves of a script are those that advance the stages. -/
theorem advances_of_script {status : Fin (2 ^ 15)} {m : CtlMove} {rest : List CtlMove}
    (h : (script status left).drop k = m :: rest) :
    Advances k m ∧ rest = (script status left).drop (k + 1) := by
  match k with
  | 0 => cases h; exact ⟨trivial, rfl⟩
  | 1 | 2 => cases h; exact ⟨rfl, rfl⟩
  | k + 3 => simp [script] at h

/-- Any moves keep the command on its way; moves that contain the first part `l` of what is left of
a script leave at most the other part to be done. -/
theorem InFlight.moves (h : Submitted e s) (status : Fin (2 ^ 15)) (left : Bytes)
    (hf : InFlight x env e s k t) (ms : List CtlMove) (hms : ∀ m ∈ ms, ∃ time, m ∈ env time) :
    ∃ k', InFlight x env e s k' (ms.foldl (ctlMove x) t) ∧
      ∀ j l rest, j ≤ k → (script status left).drop j = l ++ rest → l.Sublist ms →
        ((script status left).drop k').Sublist rest := by
  induction ms generalizing k t with
  | nil =>
    refine ⟨k, hf, ?_⟩
    intro j l rest hj hdrop hsub
    rw [List.eq_nil_of_sublist_nil hsub, List.nil_append] at hdrop
    rw [← hdrop]
    exact List.drop_sublist_drop_left _ hj
  | cons m ms ih =>
    obtain ⟨k₁, hle, hadv, hf₁⟩ := hf.move h m (hms m List.mem_cons_self)
    obtain ⟨k₂, hf₂, hrest⟩ := ih hf₁ fun m' hm' => hms m' (List.mem_cons_of_mem m hm')
    refine ⟨k₂, hf₂, ?_⟩
    intro j l rest hj hdrop hsub
    cases hsub with
    | cons _ hsub => exact hrest j l rest (Nat.le_trans hj hle) hdrop hsub
    | @cons_cons l' _ _ hsub =>
      obtain ⟨hm, hl⟩ := advances_of_script hdrop
      refine hrest (j + 1) l' rest ?_ hl.symm hsub
      -- the move is the next of the script, unless the command is already further
      rcases Nat.lt_or_eq_of_le hj with hlt | rfl
      · exact Nat.le_trans hlt hle
      · exact hadv hm

theorem ctlMove_time (x : NvmeCtx) (s : Machine) (m : CtlMove) : (ctlMove x s m).time = s.time := by
  cases m with
  | fetch | execute i status left =>
    rw [ctlMove]
    split <;> rfl
  | post i =>
    rw [ctlMove]
    split
    · rfl
    · split <;> rfl

theorem foldl_ctlMove_time (x : NvmeCtx) (ms : List CtlMove) (s : Machine) :
    (ms.foldl (ctlMove x) s).time = s.time := by
  induction ms generalizing s with
  | nil => rfl
  | cons m ms ih => exact (ih _).trans (ctlMove_time x s m)

theorem elapse_time (x : NvmeCtx) (env : Schedule) (s : Machine) :
    (elapse x env s).time = s.time + 1 := by
  simp only [elapse, foldl_ctlMove_time]

theorem InFlight.tick (h : InFlight x env e s k t) (time : ℕ) :
    InFlight x env e s k { t with time := time } := by
  cases h with
  | queued => exact .queued time
  | fetched => exact .fetched time
  | executed _ status left hst => exact .executed time status left hst
  | posted _ status left hst => exact .posted time status left hst

theorem InFlight.le_three (h : InFlight x env e s k t) : k ≤ 3 := by
  cases h <;> omega

theorem InFlight.elapse (h : Submitted e s) (status : Fin (2 ^ 15)) (left : Bytes)
    (hf : InFlight x env e s k t) :
    ∃ k', InFlight x env e s k' (elapse x env t) ∧
      ∀ l rest, (script status left).drop k = l ++ rest → l.Sublist (env t.time) →
        ((script status left).drop k').Sublist rest := by
  obtain ⟨k', hf', hrest⟩ := hf.moves h status left (env t.time) fun m hm => ⟨t.time, hm⟩
  exact ⟨k', hf'.tick _, fun l rest => hrest k l rest (Nat.le_refl k)⟩

/-! ## The end of a call -/

/-- The entry at the head has the expected tag exactly if the command is answered. -/
theorem InFlight.isNew (h : Submitted e s) (hf : InFlight x env e s k t) :
    nvmeCqeIsNew (t.cq t.q.head).dw3 t.q.phase = decide (3 ≤ k) := by
  have hold : nvmeCqeIsNew (s.cq s.q.head).dw3 s.q.phase = false := by
    rw [h.head, h.phase, h.ring _ h.head_lt]
    exact decide_eq_false (Nat.lt_irrefl _)
  cases hf with
  | queued | fetched | executed => exact hold
  | posted time status left hst =>
    dsimp only
    rw [h.head, h.phase, update_self, isNew_cqeDw3 _ _ _ _ h.phase_lt, Nat.mod_eq_of_lt h.phase_lt]
    simp

/-- How a call on an idle queue returns `BLK_OK`: the completion is the one of its own command, and
the queue is idle again. -/
structure Completed (x : NvmeCtx) (env : Schedule) (e : Sqe) (status : Fin (2 ^ 15)) (left : Bytes)
    (s t : Machine) : Prop where
  gives : Gives env status
  idle : Idle t
  store : t.store = effect x e.cmd status left s.store
  trace : t.trace = s.trace ++ [.done e (reported x e.cmd status)]
  next : t.next = s.next

theorem Completed.of_posted (h : Submitted e s) (hf : InFlight x env e s 3 t) :
    ∃ status left, t.cq t.q.head = ⟨cqeDw3 e.cmd s.ctl.phase (reported x e.cmd status), e.serial⟩ ∧
      Completed x env e status left s (consume t) := by
  cases hf with
  | posted time status left hst =>
    have hnew := (isNew_cqeDw3 e.cmd s.ctl.phase
      (reported x e.cmd status) s.ctl.phase h.phase_lt).trans
      (decide_eq_true (Nat.mod_eq_of_lt h.phase_lt).symm)
    refine ⟨status, left, ?_, hst, ?_, rfl, rfl, rfl⟩
    · dsimp only
      rw [h.head, update_self]
    · exact {
        tail := h.tail
        fetchedAll := rfl
        tail_lt := by
          show s.ctl.sqTail < queueDepth
          rw [← h.one]
          exact Nat.mod_lt _ (Nat.zero_lt_succ _)
        head := by
          show (s.q.head + 1) % queueDepth = (s.ctl.cqTail + 1) % queueDepth
          rw [h.head]
        consumedAll := by
          show (s.q.head + 1) % queueDepth = (s.ctl.cqTail + 1) % queueDepth
          rw [h.head]
        head_lt := Nat.mod_lt _ (Nat.zero_lt_succ _)
        phase := by
          show (if (s.q.head + 1) % queueDepth = 0 then s.q.phase ^^^ 1 else s.q.phase) =
            nextPhase _ _
          rw [h.head, h.phase]
          rfl
        phase_lt := nextPhase_lt h.phase_lt
        fetched := rfl
        executed := rfl
        ring := ring_next h.head_lt h.phase_lt h.ring hnew }

/-- **The waiting loop**: it returns with the completion of the command on its way, or gives up. -/
theorem waitCqe_spec (h : Submitted e s) (n : ℕ) (hf : InFlight x env e s k t) :
    (∃ status left,
      (waitCqe x env n t).1 = .ok ⟨cqeDw3 e.cmd s.ctl.phase (reported x e.cmd status), e.serial⟩ ∧
        Completed x env e status left s (waitCqe x env n t).2) ∨
      (waitCqe x env n t).1 = .error .timeout ∧ ∃ k',
        InFlight x env e s k' (waitCqe x env n t).2 := by
  induction n generalizing k t with
  | zero => exact Or.inr ⟨rfl, k, hf⟩
  | succ n ih =>
    obtain ⟨k', hf', -⟩ := hf.elapse h 0 (fun _ => 0)
    have hnew := hf'.isNew h
    simp only [waitCqe]
    split
    next htag =>
      rw [htag] at hnew
      have h3 := of_decide_eq_true hnew.symm
      obtain rfl : k' = 3 := Nat.le_antisymm hf'.le_three h3
      obtain ⟨status, left, hcqe, hdone⟩ := Completed.of_posted h hf'
      exact Or.inl ⟨status, left, congrArg Except.ok hcqe, hdone⟩
    next => exact ih hf'

/-- The loop does not give up if its polls leave time for a script. -/
theorem waitCqe_returns (h : Submitted e s) (status : Fin (2 ^ 15)) (left : Bytes) (n : ℕ)
    (hf : InFlight x env e s k t) (hk : k < 3)
    (hsub : ((script status left).drop k).Sublist
      ((List.range n).flatMap fun i => env (t.time + i))) :
    (waitCqe x env n t).1 ≠ .error .timeout := by
  induction n generalizing k t with
  | zero =>
    have hdrop : 3 ≤ k := List.drop_eq_nil_iff.mp (List.eq_nil_of_sublist_nil hsub)
    omega
  | succ n ih =>
    obtain ⟨k', hf', hrest⟩ := hf.elapse h status left
    have hnew := hf'.isNew h
    simp only [waitCqe]
    split
    next => simp
    next htag =>
      rw [Bool.not_eq_true] at htag
      rw [htag] at hnew
      have h3 := of_decide_eq_false hnew.symm
      rw [List.range_succ_eq_map, List.flatMap_cons, List.flatMap_map,
        List.sublist_append_iff] at hsub
      obtain ⟨l, rest, hl, hsub₁, hsub₂⟩ := hsub
      apply ih hf' (by omega)
      refine (hrest l rest hl hsub₁).trans ?_
      rw [elapse_time]
      simpa only [Nat.add_assoc, Nat.add_comm 1] using hsub₂

/-! ## A whole call -/

/-- The events of a call that returns with its own completion. -/
def ownEvents (e : Sqe) (status : ℕ) : List Event :=
  [.submit e, .done e status, .answer e.serial (some e.serial)]

/-- A call of `io_exec` with `c` on an idle queue that returned `BLK_OK`. -/
structure CallOk (x : NvmeCtx) (env : Schedule) (c : Bytes) (status : Fin (2 ^ 15)) (left : Bytes)
    (s t : Machine) : Prop where
  gives : Gives env status
  idle : Idle t
  store : t.store = effect x c status left s.store
  trace : t.trace = s.trace ++ ownEvents ⟨c, s.next⟩ (reported x c status)
  next : t.next = s.next + 1

/-- A call that returned `BLK_E_TIMEOUT`; its command may have been executed all the same. -/
def CallLate (c : Bytes) (s t : Machine) : Prop :=
  ∃ dones, t.trace = s.trace ++ (.submit ⟨c, s.next⟩ :: dones ++ [.answer s.next none]) ∧
    ∀ ev ∈ dones, ∃ status, ev = .done ⟨c, s.next⟩ status

theorem InFlight.dones (h : InFlight x env e s k t) :
    ∃ dones, t.trace = s.trace ++ dones ∧ ∀ ev ∈ dones, ∃ status, ev = .done e status := by
  cases h with
  | queued | fetched => exact ⟨[], (List.append_nil _).symm, by simp⟩
  | executed | posted => exact ⟨[_], rfl, by simp⟩

/-- **`queue_exec` on an idle queue** returns with its own completion or times out. -/
theorem queueExec_spec (h : Idle s) (env : Schedule) (c : Bytes) :
    (∃ status left,
      (queueExec x env c s).1 = .ok ⟨cqeDw3 c s.ctl.phase (reported x c status), s.next⟩ ∧
        CallOk x env c status left s (queueExec x env c s).2) ∨
      (queueExec x env c s).1 = .error .timeout ∧ CallLate c s (queueExec x env c s).2 := by
  have hsub := h.submit c
  have hstart : InFlight x env ⟨c, s.next⟩ (submit c s) 0 (submit c s) := .queued (submit c s).time
  rcases waitCqe_spec hsub spinLimit hstart with
    ⟨status, left, hok, hdone⟩ | ⟨herr, k, hf⟩
  · refine Or.inl ⟨status, left, hok, hdone.gives, ?_, hdone.store, ?_, hdone.next⟩
    · exact ⟨hdone.idle.tail, hdone.idle.fetchedAll, hdone.idle.tail_lt, hdone.idle.head,
        hdone.idle.consumedAll,
        hdone.idle.head_lt, hdone.idle.phase, hdone.idle.phase_lt, hdone.idle.fetched,
        hdone.idle.executed, hdone.idle.ring⟩
    · show (waitCqe x env spinLimit (submit c s)).2.trace ++ [_] = _
      rw [hdone.trace, hok]
      simp [submit, ownEvents, Except.toOption]
  · refine Or.inr ⟨herr, ?_⟩
    obtain ⟨dones, htrace, hdones⟩ := hf.dones
    refine ⟨dones, ?_, hdones⟩
    show (waitCqe x env spinLimit (submit c s)).2.trace ++ [_] = _
    rw [htrace, herr]
    simp [submit, Except.toOption]

/-- The controller answers in time: whenever a waiting loop may start, its polls leave time for the
three moves that answer a command. -/
def Prompt (env : Schedule) : Prop :=
  ∀ time, ∃ status left, (script status left).Sublist
    ((List.range spinLimit).flatMap fun i => env (time + i))

/-- With a prompt controller `queue_exec` does not time out on an idle queue. -/
theorem queueExec_returns (h : Idle s) (hp : Prompt env) (c : Bytes) :
    (queueExec x env c s).1 ≠ .error .timeout := by
  obtain ⟨status, left, hscript⟩ := hp s.time
  exact waitCqe_returns (h.submit c) status left spinLimit (.queued (submit c s).time)
    (by decide) hscript

/-- The command as `io_exec` submits it. -/
def stamped (c : Bytes) (s : Machine) : Bytes := c.putLE 2 2 s.q.nextCid

theorem Idle.nextCid (h : Idle s) (n : ℕ) : Idle { s with q := { s.q with nextCid := n } } :=
  ⟨h.tail, h.fetchedAll, h.tail_lt, h.head, h.consumedAll, h.head_lt, h.phase, h.phase_lt,
    h.fetched, h.executed, h.ring⟩

theorem Idle.withStore (h : Idle s) (d : Store) : Idle { s with store := d } :=
  ⟨h.tail, h.fetchedAll, h.tail_lt, h.head, h.consumedAll, h.head_lt, h.phase, h.phase_lt,
    h.fetched, h.executed, h.ring⟩

theorem Idle.withTrace (h : Idle s) (tr : List Event) : Idle { s with trace := tr } :=
  ⟨h.tail, h.fetchedAll, h.tail_lt, h.head, h.consumedAll, h.head_lt, h.phase, h.phase_lt,
    h.fetched, h.executed, h.ring⟩

/-- **A command on an idle queue**, with the outcome as the operations judge it. -/
theorem judge_ioExec_spec (h : Idle s) (env : Schedule) (c : Bytes) :
    (∃ status left,
      (judge (ioExec x env c s)).1 =
        (if reported x (stamped c s) status = 0 then .ok () else .error .io) ∧
        CallOk x env (stamped c s) status left s (judge (ioExec x env c s)).2) ∨
      (judge (ioExec x env c s)).1 = .error .timeout ∧
        CallLate (stamped c s) s (judge (ioExec x env c s)).2 := by
  have hcid := h.nextCid ((s.q.nextCid + 1) % 2 ^ 16)
  rcases queueExec_spec (x := x) hcid env (stamped c s) with ⟨status, left, hok,
    hcall⟩ | ⟨herr, hlate⟩
  · refine Or.inl ⟨status, left, ?_⟩
    have hpair : ioExec x env c s = (.ok _, (ioExec x env c s).2) := Prod.ext hok rfl
    rw [hpair, judge]
    dsimp only
    rw [status_cqeDw3 _ h.phase_lt (reported_lt x _ status)]
    have hcall' : CallOk x env (stamped c s) status left s (ioExec x env c s).2 :=
      ⟨hcall.gives, hcall.idle, hcall.store, hcall.trace, hcall.next⟩
    split
    · exact ⟨rfl, hcall'⟩
    · exact ⟨rfl, hcall'⟩
  · refine Or.inr ?_
    have hpair : ioExec x env c s = (.error .timeout, (ioExec x env c s).2) := Prod.ext herr rfl
    rw [hpair, judge]
    exact ⟨rfl, hlate⟩

theorem judge_ioExec_returns (h : Idle s) (hp : Prompt env) (c : Bytes) :
    (judge (ioExec x env c s)).1 ≠ .error .timeout := by
  have hne := queueExec_returns (x := x) (h.nextCid ((s.q.nextCid + 1) % 2 ^ 16)) hp (stamped c s)
  rcases queueExec_spec (x := x) (h.nextCid ((s.q.nextCid + 1) % 2 ^ 16)) env
    (stamped c s) with ⟨status, left, hok, -⟩ | ⟨herr, -⟩
  · have hpair : ioExec x env c s = (.ok _, (ioExec x env c s).2) := Prod.ext hok rfl
    rw [hpair, judge]
    dsimp only
    split <;> simp
  · exact absurd herr hne

end Xasmos.Nvme
