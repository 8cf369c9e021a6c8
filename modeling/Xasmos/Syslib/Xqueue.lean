import Mathlib.Data.List.Basic
import Mathlib.Data.List.Induction
import Mathlib.Tactic.Common

/-!
# The XQUEUE ring

One producer runs `xqueue_submit_command` and one consumer runs `xqueue_poll_completion` on a
channel. Each move is one access to the shared memory: a load or store of an index, or of one field
of a command, so a list of moves is an interleaving of the two. The fields of a command are copied
in any order, and the two loads of the emptiness test are made in either order.

The indices wrap, so by themselves they do not tell an empty ring from a full one. The invariant
counts the commands that were submitted and polled; the indices are these counts modulo 256, and the
counts never differ by more than 255.

## Main results

* `xqueue_fifo` — in every interleaving the polled commands are a prefix of the submitted ones.
-/
namespace Xasmos.Syslib

variable {chanHead tail : UInt32} {j p q : ℕ}

/-- `XQUEUE_RING_SIZE`. -/
def xqueueRingSize : UInt32 := 256

/-- `XQueueCommand`. -/
structure XQueueCommand where
  operationType : UInt32
  sourceAddress : UInt64
  targetAddress : UInt64
  payloadLength : UInt64
  securityToken : UInt64
  deriving DecidableEq

variable {c cmd d : XQueueCommand} {pol sub : List XQueueCommand}

/-- The parts in which a command is copied. -/
inductive Field where
  | operationType
  | sourceAddress
  | targetAddress
  | payloadLength
  | securityToken
  deriving DecidableEq

variable {left : List Field}

def allFields : List Field :=
  [.operationType, .sourceAddress, .targetAddress, .payloadLength, .securityToken]

/-- One field of a command assignment `dst = src`. -/
def copyField (src : XQueueCommand) (f : Field) (dst : XQueueCommand) : XQueueCommand :=
  match f with
  | .operationType => { dst with operationType := src.operationType }
  | .sourceAddress => { dst with sourceAddress := src.sourceAddress }
  | .targetAddress => { dst with targetAddress := src.targetAddress }
  | .payloadLength => { dst with payloadLength := src.payloadLength }
  | .securityToken => { dst with securityToken := src.securityToken }

/-- `XQueueChannel`. -/
structure XQueueChannel where
  commands : ℕ → XQueueCommand
  head : UInt32
  tail : UInt32

/-- Where the producer is in `xqueue_submit_command`. -/
inductive SubmitPc where
  | idle
  | tailLoaded (cmd : XQueueCommand) (currentTail : UInt32)
  /-- The ring is not full, and the fields `left` of the command are still to be stored. -/
  | storing (cmd : XQueueCommand) (currentTail : UInt32) (left : List Field)

/-- Where the consumer is in `xqueue_poll_completion`; `out` is what `*out_cmd` holds. -/
inductive PollPc where
  | idle
  | headLoaded (head : UInt32) (out : XQueueCommand)
  | tailLoaded (tail : UInt32) (out : XQueueCommand)
  | nonEmpty (out : XQueueCommand)
  | loading (currentHead : UInt32) (out : XQueueCommand) (left : List Field)

/-- The channel and its two users. -/
structure Xqueue where
  chan : XQueueChannel
  producer : SubmitPc
  consumer : PollPc

/-- What a call came to: at its store to `tail`, at its refusal, at its store to `head`, or when it
found the ring empty. -/
inductive XqueueEvent where
  | submitted (cmd : XQueueCommand)
  | refused
  | polled (cmd : XQueueCommand)
  | empty

/-- The next index. -/
def nextIndex (i : UInt32) : UInt32 := (i + 1) &&& (xqueueRingSize - 1)

/-- The next access of a running `xqueue_submit_command`; `f` is the field it stores, if it stores
one. -/
def submitAccess (f : Field) (s : Xqueue) : Xqueue × List XqueueEvent :=
  match s.producer with
  | .idle => (s, [])
  | .tailLoaded cmd currentTail =>
    if nextIndex currentTail = s.chan.head then ({ s with producer := .idle }, [.refused])
    else ({ s with producer := .storing cmd currentTail allFields }, [])
  | .storing cmd currentTail left =>
    if left = [] then
      ({ s with chan := { s.chan with tail := nextIndex currentTail }, producer := .idle },
        [.submitted cmd])
    else if f ∈ left then
      let i := currentTail.toNat
      ({ s with
        chan := { s.chan with
          commands := Function.update s.chan.commands i (copyField cmd f (s.chan.commands i)) }
        producer := .storing cmd currentTail (left.erase f) }, [])
    else (s, [])

/-- The next access of a running `xqueue_poll_completion`; `f` is the field it loads, if it loads
one. -/
def pollAccess (f : Field) (s : Xqueue) : Xqueue × List XqueueEvent :=
  match s.consumer with
  | .idle => (s, [])
  | .headLoaded head out =>
    if head = s.chan.tail then ({ s with consumer := .idle }, [.empty]) else
      ({ s with consumer := .nonEmpty out }, [])
  | .tailLoaded tail out =>
    if s.chan.head = tail then ({ s with consumer := .idle }, [.empty]) else
      ({ s with consumer := .nonEmpty out }, [])
  | .nonEmpty out => ({ s with consumer := .loading s.chan.head out allFields }, [])
  | .loading currentHead out left =>
    if left = [] then
      ({ s with chan := { s.chan with head := nextIndex currentHead }, consumer := .idle },
        [.polled out])
    else if f ∈ left then
      ({ s with consumer := .loading currentHead (copyField
        (s.chan.commands currentHead.toNat) f out) (left.erase f) }, [])
    else (s, [])

/-- One move: a call with its first load, or the next access of the call that is running. -/
inductive XqueueMove where
  | submit (cmd : XQueueCommand)
  | producer (f : Field)
  | poll (out : XQueueCommand) (tailFirst : Bool)
  | consumer (f : Field)

/-- A move of the producer or the consumer. A move that is not possible does nothing. -/
def xqueueStep (s : Xqueue) : XqueueMove → Xqueue × List XqueueEvent
  | .submit cmd =>
    match s.producer with
    | .idle => ({ s with producer := .tailLoaded cmd s.chan.tail }, [])
    | _ => (s, [])
  | .producer f => submitAccess f s
  | .poll out tailFirst =>
    match s.consumer with
    | .idle =>
      ({ s with
        consumer :=
          if tailFirst then .tailLoaded s.chan.tail out else .headLoaded s.chan.head out }, [])
    | _ => (s, [])
  | .consumer f => pollAccess f s

/-- A run: the state after the moves, and the events of the calls in their order. -/
def xqueueRun (s : Xqueue) (moves : List XqueueMove) : Xqueue × List XqueueEvent :=
  moves.foldl (fun r m => ((xqueueStep r.1 m).1, r.2 ++ (xqueueStep r.1 m).2)) (s, [])

/-- The channel at the start, with anything in its slots. -/
def freshXqueue (commands : ℕ → XQueueCommand) : Xqueue := ⟨⟨commands, 0, 0⟩, .idle, .idle⟩

/-- The commands that were submitted. -/
def submitted (events : List XqueueEvent) : List XQueueCommand :=
  events.filterMap fun
    | .submitted cmd => some cmd
    | _ => none

/-- The commands that successful polls returned. -/
def polled (events : List XqueueEvent) : List XQueueCommand :=
  events.filterMap fun
    | .polled cmd => some cmd
    | _ => none

/-! ## Copying field by field -/

/-- The fields of `c` outside `left` have been copied to `d`. -/
def Copied (c : XQueueCommand) (left : List Field) (d : XQueueCommand) : Prop := ∀ f, f ∉ left →
    copyField c f d = d

theorem Copied.start (c d : XQueueCommand) : Copied c allFields d := by
  intro f hf
  cases f <;> exact absurd (by decide) hf

theorem Copied.copy (h : Copied c left d) (f : Field) :
    Copied c (left.erase f) (copyField c f d) := by
  intro g hg
  by_cases hgf : g = f
  · subst hgf
    cases g <;> rfl
  · have hd := h g (fun hmem => hg ((List.mem_erase_of_ne hgf).mpr hmem))
    -- fields that differ are copied independently
    have hcomm : copyField c g (copyField c f d) = copyField c f (copyField c g d) := by
      cases f <;> cases g <;> rfl
    rw [hcomm, hd]

theorem Copied.done (h : Copied c [] d) : d = c := by
  have h1 := congrArg XQueueCommand.operationType (h .operationType List.not_mem_nil)
  have h2 := congrArg XQueueCommand.sourceAddress (h .sourceAddress List.not_mem_nil)
  have h3 := congrArg XQueueCommand.targetAddress (h .targetAddress List.not_mem_nil)
  have h4 := congrArg XQueueCommand.payloadLength (h .payloadLength List.not_mem_nil)
  have h5 := congrArg XQueueCommand.securityToken (h .securityToken List.not_mem_nil)
  cases c
  cases d
  simp only [copyField] at h1 h2 h3 h4 h5
  rw [h1, h2, h3, h4, h5]

/-! ## The invariant -/

theorem toNat_nextIndex (i : UInt32) : (nextIndex i).toNat = (i.toNat + 1) % 256 := by
  have hmask : (xqueueRingSize - 1).toNat = 2 ^ 8 - 1 := by decide
  rw [nextIndex, UInt32.toNat_and, hmask, Nat.and_two_pow_sub_one_eq_mod, UInt32.toNat_add]
  have hone : (1 : UInt32).toNat = 1 := rfl
  omega

/-- What the producer knows, with `p` commands polled and `q` submitted. -/
def ProducerOk (chan : XQueueChannel) (p q : ℕ) : SubmitPc → Prop
  | .idle => True
  | .tailLoaded _ currentTail => currentTail = chan.tail
  | .storing cmd currentTail left =>
    currentTail = chan.tail ∧ q < p + 255 ∧ Copied cmd left (chan.commands currentTail.toNat)

/-- What the consumer knows, with the commands of `sub` submitted and `p` of them polled. -/
def ConsumerOk (chanHead : UInt32) (sub : List XQueueCommand) (p : ℕ) : PollPc → Prop
  | .idle => True
  | .headLoaded head _ => head = chanHead
  -- the tail may have moved on since
  | .tailLoaded tail _ => ∃ q, p ≤ q ∧ q ≤ sub.length ∧ tail.toNat = q % 256
  | .nonEmpty _ => p < sub.length
  | .loading currentHead out left =>
    currentHead = chanHead ∧ ∃ cmd, sub[p]? = some cmd ∧ Copied cmd left out

/-- The indices count the commands modulo 256, and each slot between them holds the command that was
submitted to it. -/
structure RingInv (sub pol : List XQueueCommand) (s : Xqueue) : Prop where
  pre : pol <+: sub
  room : sub.length ≤ pol.length + 255
  head : s.chan.head.toNat = pol.length % 256
  tail : s.chan.tail.toNat = sub.length % 256
  slot : ∀ j cmd, pol.length ≤ j → sub[j]? = some cmd → s.chan.commands (j % 256) = cmd
  producer : ProducerOk s.chan pol.length sub.length s.producer
  consumer : ConsumerOk s.chan.head sub pol.length s.consumer

variable {s : Xqueue}

theorem RingInv.fresh (commands : ℕ → XQueueCommand) : RingInv [] [] (freshXqueue commands) :=
  ⟨List.prefix_rfl, by simp, rfl, rfl, by simp, trivial, trivial⟩

/-- A full ring is the only reason to refuse. -/
theorem RingInv.full (h : RingInv sub pol s) (hfull : nextIndex s.chan.tail = s.chan.head) :
    sub.length = pol.length + 255 := by
  have hidx := congrArg UInt32.toNat hfull
  rw [toNat_nextIndex, h.tail, h.head] at hidx
  have hle := h.pre.length_le
  have hroom := h.room
  omega

theorem RingInv.not_full (h : RingInv sub pol s) (hfull : nextIndex s.chan.tail ≠ s.chan.head) :
    sub.length < pol.length + 255 := by
  have hroom := h.room
  by_contra hge
  have heq : sub.length = pol.length + 255 := by omega
  apply hfull
  apply UInt32.toNat_inj.mp
  rw [toNat_nextIndex, h.tail, h.head]
  omega

/-- The slot at the tail is not one that the consumer may read. -/
theorem RingInv.tail_slot (h : RingInv sub pol s) (hroom : sub.length < pol.length + 255)
    (hj : pol.length ≤ j) (hcmd : sub[j]? = some cmd) : j % 256 ≠ s.chan.tail.toNat := by
  have hlt : j < sub.length := (List.getElem?_eq_some_iff.mp hcmd).1
  rw [h.tail]
  omega

/-! ## What one move keeps -/

/-- A command more does not change what the consumer knows. -/
theorem ConsumerOk.append {pc : PollPc} (h : ConsumerOk chanHead sub p pc)
    (more : List XQueueCommand) : ConsumerOk chanHead (sub ++ more) p pc := by
  cases pc with
  | idle => trivial
  | headLoaded head out => exact h
  | tailLoaded tail out =>
    obtain ⟨q, hpq, hq, htail⟩ := h
    refine ⟨q, hpq, ?_, htail⟩
    rw [List.length_append]
    omega
  | nonEmpty out =>
    unfold ConsumerOk at h ⊢
    rw [List.length_append]
    omega
  | loading currentHead out left =>
    obtain ⟨hhead, cmd, hcmd, hcopied⟩ := h
    have hlt : p < sub.length := (List.getElem?_eq_some_iff.mp hcmd).1
    exact ⟨hhead, cmd, by rw [List.getElem?_append_left hlt, hcmd], hcopied⟩

/-- A command less does not change what the producer knows. -/
theorem ProducerOk.poll {chan : XQueueChannel} {pc : SubmitPc} (h : ProducerOk chan p q pc)
    (head : UInt32) : ProducerOk { chan with head := head } (p + 1) q pc := by
  cases pc with
  | idle => trivial
  | tailLoaded cmd currentTail => exact h
  | storing cmd currentTail left => exact ⟨h.1, by have := h.2.1; omega, h.2.2⟩

/-- The store to `tail`. -/
theorem RingInv.submit (h : RingInv sub pol s) (hroom : sub.length < pol.length + 255)
    (hslot : s.chan.commands s.chan.tail.toNat = cmd) :
    RingInv (sub ++ [cmd]) pol
      { s with chan := { s.chan with tail := nextIndex s.chan.tail }, producer := .idle } where
  pre := h.pre.trans (List.prefix_append sub [cmd])
  room := by
    rw [List.length_append, List.length_singleton]
    omega
  head := h.head
  tail := by
    rw [toNat_nextIndex, h.tail, List.length_append, List.length_singleton]
    omega
  slot := by
    intro j c hj hc
    rcases Nat.lt_or_ge j sub.length with hlt | hge
    · rw [List.getElem?_append_left hlt] at hc
      exact h.slot j c hj hc
    · have hlast : j = sub.length := by
        have := (List.getElem?_eq_some_iff.mp hc).1
        rw [List.length_append, List.length_singleton] at this
        omega
      subst hlast
      rw [List.getElem?_concat_length, Option.some.injEq] at hc
      rw [← h.tail, hslot, hc]
  producer := trivial
  consumer := h.consumer.append [cmd]

/-- The store of one field of the command. -/
theorem RingInv.store (h : RingInv sub pol s) (hroom : sub.length < pol.length + 255)
    (hcopied : Copied cmd left (s.chan.commands s.chan.tail.toNat)) (f : Field) :
    RingInv sub pol { s with
      chan := { s.chan with
        commands := Function.update s.chan.commands s.chan.tail.toNat
          (copyField cmd f (s.chan.commands s.chan.tail.toNat)) }
      producer := .storing cmd s.chan.tail (left.erase f) } where
  pre := h.pre
  room := h.room
  head := h.head
  tail := h.tail
  slot := by
    intro j c hj hc
    dsimp only
    rw [Function.update_of_ne (h.tail_slot hroom hj hc)]
    exact h.slot j c hj hc
  producer := by
    refine ⟨rfl, hroom, ?_⟩
    dsimp only
    rw [Function.update_self]
    exact hcopied.copy f
  consumer := h.consumer

/-- The store to `head`. -/
theorem RingInv.poll (h : RingInv sub pol s) (hcmd : sub[pol.length]? = some cmd) :
    RingInv sub (pol ++ [cmd])
      { s with chan := { s.chan with head := nextIndex s.chan.head }, consumer := .idle } where
  pre := by
    obtain ⟨rest, rfl⟩ := h.pre
    rw [List.getElem?_append_right (Nat.le_refl _), Nat.sub_self] at hcmd
    cases rest with
    | nil => simp at hcmd
    | cons c rest =>
      rw [List.getElem?_cons_zero, Option.some.injEq] at hcmd
      subst hcmd
      exact ⟨rest, by simp⟩
  room := by
    have := h.room
    rw [List.length_append, List.length_singleton]
    omega
  head := by
    rw [toNat_nextIndex, h.head, List.length_append, List.length_singleton]
    omega
  tail := h.tail
  slot := by
    intro j c hj hc
    rw [List.length_append, List.length_singleton] at hj
    exact h.slot j c (by omega) hc
  producer := by
    rw [List.length_append, List.length_singleton]
    exact h.producer.poll (nextIndex s.chan.head)
  consumer := trivial

/-- The indices differ when and because a command is outstanding. -/
theorem RingInv.outstanding (h : RingInv sub pol s) (hle : pol.length ≤ q) (hq : q ≤ sub.length)
    (htail : tail.toNat = q % 256) (hne : s.chan.head ≠ tail) : pol.length < sub.length := by
  by_contra hnot
  apply hne
  apply UInt32.toNat_inj.mp
  rw [h.head, htail]
  have hpq : pol.length = q := by omega
  rw [hpq]

theorem RingInv.submitAccess (h : RingInv sub pol s) (f : Field) :
    RingInv (sub ++ submitted (submitAccess f s).2) (pol ++ polled (submitAccess f s).2)
      (submitAccess f s).1 := by
  have hp := h.producer
  unfold Syslib.submitAccess
  cases hpc : s.producer with
  | idle => simpa [submitted, polled] using h
  | tailLoaded cmd currentTail =>
    rw [hpc] at hp
    subst hp
    dsimp only
    split
    next hfull => simpa [submitted, polled] using { h with producer := trivial }
    next hfull =>
      simpa [submitted, polled] using { h with
        producer := ⟨rfl, h.not_full hfull, Copied.start _ _⟩ }
  | storing cmd currentTail left =>
    rw [hpc] at hp
    obtain ⟨rfl, hroom, hcopied⟩ := hp
    dsimp only
    split_ifs with hleft hf
    · subst hleft
      simpa [submitted, polled] using h.submit hroom hcopied.done
    · simpa [submitted, polled] using h.store hroom hcopied f
    · simpa [submitted, polled] using h

theorem RingInv.pollAccess (h : RingInv sub pol s) (f : Field) :
    RingInv (sub ++ submitted (pollAccess f s).2) (pol ++ polled (pollAccess f s).2)
      (pollAccess f s).1 := by
  have hc := h.consumer
  unfold Syslib.pollAccess
  cases hpc : s.consumer with
  | idle => simpa [submitted, polled] using h
  | headLoaded head out =>
    rw [hpc] at hc
    subst hc
    dsimp only
    split
    next hempty => simpa [submitted, polled] using { h with consumer := trivial }
    next hempty =>
      have hlt := h.outstanding h.pre.length_le (Nat.le_refl _) h.tail hempty
      simpa [submitted, polled] using { h with consumer := hlt }
  | tailLoaded tail out =>
    rw [hpc] at hc
    obtain ⟨q, hpq, hq, htail⟩ := hc
    dsimp only
    split
    next hempty => simpa [submitted, polled] using { h with consumer := trivial }
    next hempty =>
      have hlt := h.outstanding hpq hq htail hempty
      simpa [submitted, polled] using { h with consumer := hlt }
  | nonEmpty out =>
    rw [hpc] at hc
    have hcmd : sub[pol.length]? = some sub[pol.length] := List.getElem?_eq_getElem hc
    simpa [submitted, polled] using { h with consumer := ⟨rfl, _, hcmd, Copied.start _ out⟩ }
  | loading currentHead out left =>
    rw [hpc] at hc
    obtain ⟨rfl, cmd, hcmd, hcopied⟩ := hc
    -- the slot at the head holds the command that is polled next
    have hslot : s.chan.commands s.chan.head.toNat = cmd := by
      rw [h.head]
      exact h.slot _ cmd (Nat.le_refl _) hcmd
    dsimp only
    split_ifs with hleft hf
    · subst hleft
      rw [hcopied.done]
      simpa [submitted, polled] using h.poll hcmd
    · rw [hslot]
      simpa [submitted, polled] using { h with consumer := ⟨rfl, cmd, hcmd, hcopied.copy f⟩ }
    · simpa [submitted, polled] using h

/-- Every move keeps the invariant. -/
theorem RingInv.step (h : RingInv sub pol s) (move : XqueueMove) :
    RingInv (sub ++ submitted (xqueueStep s move).2) (pol ++ polled (xqueueStep s move).2)
      (xqueueStep s move).1 := by
  cases move with
  | submit cmd =>
    unfold xqueueStep
    cases hpc : s.producer with
    | idle => simpa [submitted, polled] using { h with producer := rfl }
    | tailLoaded cmd currentTail | storing cmd currentTail left => simpa [submitted, polled] using h
  | producer f => exact h.submitAccess f
  | poll out tailFirst =>
    unfold xqueueStep
    cases hpc : s.consumer with
    | idle =>
      cases tailFirst with
      | false => simpa [submitted, polled] using { h with consumer := rfl }
      | true =>
        simpa [submitted, polled] using
          { h with consumer := ⟨sub.length, h.pre.length_le, Nat.le_refl _, h.tail⟩ }
    | headLoaded head out | tailLoaded tail out | nonEmpty out | loading currentHead out left =>
      simpa [submitted, polled] using h
  | consumer f => exact h.pollAccess f

/-! ## Runs -/

theorem RingInv.run (h : RingInv sub pol s) (moves : List XqueueMove) :
    RingInv (sub ++ submitted (xqueueRun s moves).2) (pol ++ polled (xqueueRun s moves).2)
      (xqueueRun s moves).1 := by
  induction moves using List.reverseRecOn with
  | nil => simpa [xqueueRun, submitted, polled] using h
  | append_singleton moves move ih =>
    have hrun : xqueueRun s (moves ++ [move]) = ((xqueueStep (xqueueRun s moves).1 move).1,
        (xqueueRun s moves).2 ++ (xqueueStep (xqueueRun s moves).1 move).2) := by
      simp [xqueueRun]
    have hstep := ih.step move
    rw [hrun]
    simpa [submitted, polled] using hstep

/-- A submit is refused at its load of `head`. -/
theorem tailLoaded_of_refused {move : XqueueMove}
    (h : XqueueEvent.refused ∈ (xqueueStep s move).2) :
    ∃ cmd t, s.producer = .tailLoaded cmd t ∧ nextIndex t = s.chan.head := by
  cases move with
  | submit cmd => cases hpc : s.producer <;> simp [xqueueStep, hpc] at h
  | producer f =>
    cases hpc : s.producer with
    | idle => simp [xqueueStep, submitAccess, hpc] at h
    | tailLoaded cmd t =>
      by_cases hfull : nextIndex t = s.chan.head
      · exact ⟨cmd, t, rfl, hfull⟩
      · simp [xqueueStep, submitAccess, hpc, hfull] at h
    | storing cmd t left =>
      simp only [xqueueStep, submitAccess, hpc] at h
      split_ifs at h <;> simp at h
  | poll out tailFirst => cases hpc : s.consumer <;> simp [xqueueStep, hpc] at h
  | consumer f =>
    cases hpc : s.consumer <;> simp only [xqueueStep, pollAccess, hpc] at h
    · simp at h
    · split_ifs at h <;> simp at h
    · split_ifs at h <;> simp at h
    · simp at h
    · split_ifs at h <;> simp at h

/-- **The ring is a queue.** In every interleaving of a producer and a consumer, over any number of
calls, the polled commands are a prefix of the submitted ones, complete and in their order; the
indices stay below 256; and a submit is refused only while 255 commands are outstanding. -/
theorem xqueue_fifo (commands : ℕ → XQueueCommand) (moves : List XqueueMove) :
    polled (xqueueRun (freshXqueue commands) moves).2 <+: submitted
      (xqueueRun (freshXqueue commands) moves).2 ∧
      (xqueueRun (freshXqueue commands) moves).1.chan.head < 256 ∧
        (xqueueRun (freshXqueue commands) moves).1.chan.tail < 256 ∧
      ∀ move, .refused ∈ (xqueueStep (xqueueRun (freshXqueue commands) moves).1 move).2 →
        (submitted (xqueueRun (freshXqueue commands) moves).2).length =
          (polled (xqueueRun (freshXqueue commands) moves).2).length + 255 := by
  have h := (RingInv.fresh commands).run moves
  rw [List.nil_append, List.nil_append] at h
  refine ⟨h.pre, ?_, ?_, ?_⟩
  · rw [UInt32.lt_iff_toNat_lt, h.head]
    exact Nat.mod_lt _ (by decide)
  · rw [UInt32.lt_iff_toNat_lt, h.tail]
    exact Nat.mod_lt _ (by decide)
  · intro move hrefused
    obtain ⟨cmd, t, hpc, hfull⟩ := tailLoaded_of_refused hrefused
    have hp := h.producer
    rw [hpc] at hp
    subst hp
    exact h.full hfull

-- one command through the ring
example : polled (xqueueRun (freshXqueue fun _ => ⟨0, 0, 0, 0, 0⟩)
    ([.submit ⟨1, 2, 3, 4, 5⟩, .producer .operationType] ++ allFields.map .producer ++
      [.producer .operationType, .poll ⟨0, 0, 0, 0, 0⟩ true, .consumer .operationType,
        .consumer .operationType] ++
      allFields.map .consumer ++ [.consumer .operationType])).2 = [⟨1, 2, 3, 4, 5⟩] := by decide

end Xasmos.Syslib
