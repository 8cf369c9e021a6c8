import Xasmos.Exb.Load

/-!
# Loading an image that changes while it is read

Each read of the image may see another byte, and the backend may do anything.  Still the
loader reads only inside the image, stores only inside the token that it allocated last, and asks
only for mappings of the parts of the record that the parser passed.  The record is the
loader's own copy: nothing that was checked is fetched again.

## Main results

* `xloadExb_race` — every run is safe, whatever the reads see.
-/

namespace Xasmos.Exb

open Kernel

variable {as n off size : ℕ} {c : BackendCall} {done parts rest : List Part} {info : ExbInfo}
  {p : Part} {tok : XToken} {v : UInt8} {α σ : Type}

section Race

variable {be : Backend σ}

/-- The token of the last allocation and its pages, if it got one. -/
def lastAlloc (be : Backend σ) (calls : List (BackendCall × σ)) : Option (XToken × ℕ) :=
  calls.foldl (fun last e => match e.1 with
    | .alloc owner n rights => (be.alloc owner n rights e.2).1.map fun tok => (tok, n)
    | _ => last) none

/-- The mappings that were asked for, in order. -/
def mapRequests (calls : List (BackendCall × σ)) : List (ℕ × ℕ × UInt32) :=
  calls.filterMap fun e => match e.1 with
    | .map a v _ perms => some (a, v, perms)
    | _ => none

theorem lastAlloc_append (calls : List (BackendCall × σ)) (c : BackendCall) (t : σ) :
    lastAlloc be (calls ++ [(c, t)]) = match c with
      | .alloc owner n rights => (be.alloc owner n rights t).1.map fun tok => (tok, n)
      | _ => lastAlloc be calls := by
  simp only [lastAlloc, List.foldl_append, List.foldl_cons, List.foldl_nil]

theorem mapRequests_append (calls : List (BackendCall × σ)) (c : BackendCall) (t : σ) :
    mapRequests (calls ++ [(c, t)]) = match c with
      | .map a v _ perms => mapRequests calls ++ [(a, v, perms)]
      | _ => mapRequests calls := by
  cases c <;> simp [mapRequests, List.filterMap_append]

/-- Stores go into the token that was allocated last, and a mapping is asked for that token, as one
of the parts, each part once and in order. -/
structure Bounded (be : Backend σ) (as : ℕ) (parts : List Part) (calls : List (BackendCall × σ)) :
    Prop where
  poke : ∀ pre tok off v t, pre ++ [(.poke tok off v, t)] <+: calls →
    ∃ n, lastAlloc be pre = some (tok, n) ∧ off < n * page
  map : ∀ pre a v tok perms t, pre ++ [(.map a v tok perms, t)] <+: calls →
    ∃ p ∈ parts, lastAlloc be pre = some (tok, p.pages) ∧ (a, v, perms) = (as, p.vaddr, p.perms)
  requests : mapRequests calls <+: parts.map fun p => (as, p.vaddr, p.perms)

/-- A part that may be mapped: whole pages of the user range below the guard page, not both writable
and executable. -/
structure PartSafe (p : Part) : Prop where
  aligned : page ∣ p.vaddr
  va_min : vaMin ≤ p.vaddr
  va_limit : p.vaddr + p.pages * page ≤ xlbUserTop - page
  not_wx : ¬ (p.perms &&& permW ≠ 0 ∧ p.perms &&& permX ≠ 0)

/-- What a run may have read and called. -/
structure RunSafe (be : Backend σ) (as size : ℕ) (parts : List Part) (s : LoadSt σ) : Prop where
  reads : ∀ o ∈ s.reads, o < size
  bounded : Bounded be as parts s.calls

variable {s : LoadSt σ}

/-- A call that neither stores nor maps. -/
def quietCall : BackendCall → Prop
  | .poke .. => False
  | .map .. => False
  | _ => True

/-- The last call of a longer list is the new one, or an old one. -/
theorem concat_prefix_concat {pre calls : List α} {a b : α} (h : pre ++ [a] <+: calls ++ [b]) :
    (pre = calls ∧ a = b) ∨ pre ++ [a] <+: calls := by
  rcases List.prefix_concat_iff.mp h with he | h
  · obtain ⟨h1, h2⟩ := List.append_inj' he rfl
    exact Or.inl ⟨h1, List.cons.inj h2 |>.1⟩
  · exact Or.inr h

theorem Bounded.quiet {calls : List (BackendCall × σ)} {t : σ} (h : Bounded be as parts calls)
    (hc : quietCall c) : Bounded be as parts (calls ++ [(c, t)]) where
  poke pre tok off v u hpre := by
    rcases concat_prefix_concat hpre with ⟨_, he⟩ | hpre
    · cases he
      exact hc.elim
    · exact h.poke pre tok off v u hpre
  map pre a v tok perms u hpre := by
    rcases concat_prefix_concat hpre with ⟨_, he⟩ | hpre
    · cases he
      exact hc.elim
    · exact h.map pre a v tok perms u hpre
  requests := by
    rw [mapRequests_append]
    cases c <;> first | exact h.requests | exact hc.elim

theorem Bounded.store {calls : List (BackendCall × σ)} {t : σ} (h : Bounded be as parts calls)
    (hlast : lastAlloc be calls = some (tok, n)) (hoff : off < n * page) :
    Bounded be as parts (calls ++ [(.poke tok off v, t)]) where
  poke pre tok' off' v' u hpre := by
    rcases concat_prefix_concat hpre with ⟨rfl, he⟩ | hpre
    · cases he
      exact ⟨n, hlast, hoff⟩
    · exact h.poke pre tok' off' v' u hpre
  map pre a v' tok' perms u hpre := by
    rcases concat_prefix_concat hpre with ⟨_, he⟩ | hpre
    · cases he
    · exact h.map pre a v' tok' perms u hpre
  requests := by
    rw [mapRequests_append]
    exact h.requests

theorem Bounded.request {calls : List (BackendCall × σ)} {t : σ}
    (h : Bounded be as (done ++ p :: rest) calls)
    (hreq : mapRequests calls = done.map fun p => (as, p.vaddr, p.perms))
    (hlast : lastAlloc be calls = some (tok, p.pages)) :
    Bounded be as (done ++ p :: rest) (calls ++ [(.map as p.vaddr tok p.perms, t)]) where
  poke pre tok' off v u hpre := by
    rcases concat_prefix_concat hpre with ⟨_, he⟩ | hpre
    · cases he
    · exact h.poke pre tok' off v u hpre
  map pre a v tok' perms u hpre := by
    rcases concat_prefix_concat hpre with ⟨rfl, he⟩ | hpre
    · cases he
      exact ⟨p, by simp, hlast, rfl⟩
    · exact h.map pre a v tok' perms u hpre
  requests := by
    rw [mapRequests_append, hreq]
    simp only [List.map_append, List.map_cons, List.prefix_append_right_inj]
    exact ⟨_, rfl⟩

/-! ## The loader, step by step -/

theorem RunSafe.after (h : RunSafe be as size parts s) (hc : quietCall c) (t : σ) :
    RunSafe be as size parts (s.after c t) := ⟨h.reads, h.bounded.quiet hc⟩

/-- The parts `done` have been asked for. -/
structure Asked (be : Backend σ) (as size : ℕ) (parts done : List Part) (s : LoadSt σ) : Prop where
  safe : RunSafe be as size parts s
  requests : mapRequests s.calls = done.map fun p => (as, p.vaddr, p.perms)

/-- One turn of the copy loop reads inside the image and stores inside the token. -/
theorem Asked.poke {t : σ} (h : Asked be as size parts done s)
    (hlast : lastAlloc be s.calls = some (tok, p.pages)) (hn : n < p.fileSize)
    (hfits : p.fileSize ≤ p.pages * page) (hdata : p.fileOff + p.fileSize ≤ size) :
    Asked be as size parts done (LoadSt.after { s with reads := s.reads ++ [p.fileOff + n] }
      (.poke tok n v) t) := by
  refine ⟨⟨?_, h.safe.bounded.store hlast (lt_of_lt_of_le hn hfits)⟩, ?_⟩
  · intro o ho
    rcases List.mem_append.mp ho with ho | ho
    · exact h.safe.reads o ho
    · rw [List.mem_singleton.mp ho]
      omega
  · rw [LoadSt.after, mapRequests_append]
    exact h.requests

/-- **Any backend follows these rules of a load.** -/
theorem loadRules_race {owner : OwnerId} {mem : ℕ → Bytes}
    (hfits : ∀ p ∈ parts, p.fileSize ≤ p.pages * page)
    (hdata : ∀ p ∈ parts, 0 < p.fileSize → p.fileOff + p.fileSize ≤ size) :
    LoadRules be as owner mem parts (fun D => Asked be as size parts (D.map Prod.snd))
      (fun D d _ s => Asked be as size parts (D.map Prod.snd) s ∧
        lastAlloc be s.calls = some (d.1, d.2.pages))
      (fun _ _ => RunSafe be as size parts) where
  alloc_none _ _ _ _ h _ := h.safe.after (by trivial) _
  alloc_some _ _ _ _ _ h hr := by
    refine ⟨⟨h.safe.after (by trivial) _, ?_⟩, ?_⟩
    · rw [LoadSt.after, mapRequests_append]
      exact h.requests
    · rw [LoadSt.after, lastAlloc_append]
      simp only [hr, Option.map_some]
  poke _ d n s v hp hn h _ := by
    refine ⟨h.1.poke h.2 hn (hfits _ hp.mem) (hdata _ hp.mem (by omega)), ?_⟩
    rw [LoadSt.after, lastAlloc_append]
    exact h.2
  map_false _ _ _ hp h _ := by
    obtain ⟨rest, rfl⟩ := hp
    exact ⟨h.1.safe.reads, h.1.safe.bounded.request h.1.requests h.2⟩
  map_true _ _ _ hp h _ := by
    obtain ⟨rest, rfl⟩ := hp
    refine ⟨⟨h.1.safe.reads, h.1.safe.bounded.request h.1.requests h.2⟩, ?_⟩
    rw [LoadSt.after, mapRequests_append, h.1.requests, List.map_append, List.map_append]
    rfl
  unmap _ _ _ _ h := h.after (by trivial) _
  release _ _ _ h := h.after (by trivial) _

end Race

/-! ## The whole run -/

theorem segPart_safe {s : ExbSeg} (h : SegSafe size s) : PartSafe (segPart s) where
  aligned := h.aligned
  va_min := h.va_min
  va_limit := by
    refine le_trans h.va_limit ?_
    simp only [vaLimit, xlbUserTop, page]
    omega
  not_wx := by
    have hwx := h.not_wx
    simp only [segPart, segPerms]
    by_cases hw : s.flags &&& segW ≠ 0
    · have hx : s.flags &&& segX = 0 := by_contra fun hx => hwx ⟨hw, hx⟩
      simp only [if_pos hw, hx, ne_eq, not_true_eq_false, if_false]
      decide
    · simp only [if_neg hw]
      split_ifs <;> decide

theorem stackPart_safe (h : StackOk n) : PartSafe (stackPart n) where
  aligned := by
    obtain ⟨hd, _, hmax⟩ := h
    simp only [stackPart]
    refine Nat.dvd_sub ?_ hd
    simp only [xlbUserTop, page]
    decide
  va_min := by
    obtain ⟨_, _, hmax⟩ := h
    simp only [stackPart, vaMin, xlbUserTop, page, maxStackPages] at hmax ⊢
    omega
  va_limit := (stackPart_end h).le
  not_wx := by
    simp only [stackPart]
    decide

theorem InfoSafe.parts_safe (h : InfoSafe size info) :
    ∀ p ∈ infoParts (infoSegs info) info.stackBytes, PartSafe p := by
  intro p hp
  rcases List.mem_append.mp hp with hp | hp
  · obtain ⟨s, hs, rfl⟩ := List.mem_map.mp hp
    obtain ⟨i, hi, rfl⟩ := List.mem_map.mp hs
    exact segPart_safe (h.segs.safe i (List.mem_range.mp hi))
  · rw [List.mem_singleton.mp hp]
    exact stackPart_safe h.stack

theorem InfoSafe.parts_disjoint (h : InfoSafe size info) :
    (infoParts (infoSegs info) info.stackBytes).Pairwise fun p q => Disjoint p.span q.span := by
  rw [infoParts, infoSegs, List.pairwise_append]
  refine ⟨?_, List.pairwise_singleton _ _, ?_⟩
  · rw [List.pairwise_map, List.pairwise_map]
    refine List.Pairwise.imp_of_mem ?_ List.pairwise_lt_range
    intro i j _ hj hij
    exact h.segs.disjoint i j hij (List.mem_range.mp hj)
  · simp only [List.map_map, List.mem_map, List.mem_range, List.mem_singleton, forall_exists_index,
      and_imp, forall_apply_eq_imp_iff₂, forall_eq]
    intro i hi
    exact disjoint_stackPart (h.segs.safe i hi).va_limit h.stack

/-- **A load is safe against an image that changes.**  Whatever each read sees and whatever the
backend does, the run reads inside the image, stores inside the tokens, and asks only for mappings
of a list of segments and a stack that are page-aligned, in the user range, not both writable and
executable, and disjoint. -/
theorem xloadExb_race {σ : Type} (be : Backend σ) (as : ℕ) (owner : OwnerId) (mem : ℕ → Bytes)
    (size : ℕ) (info : ExbInfo) (s : σ) :
    ∃ segs stackBytes,
      RunSafe be as size (infoParts segs stackBytes)
        ((xloadExb be as owner mem size info).run ⟨s, [], []⟩).2 ∧
      (∀ p ∈ infoParts segs stackBytes, PartSafe p) ∧
      (infoParts segs stackBytes).Pairwise fun p q => Disjoint p.span q.span := by
  let Safe : LoadSt σ → Prop := fun s' => ∃ segs stackBytes,
    RunSafe be as size (infoParts segs stackBytes) s' ∧
    (∀ p ∈ infoParts segs stackBytes, PartSafe p) ∧
    (infoParts segs stackBytes).Pairwise fun p q => Disjoint p.span q.span
  suffices h : (xloadExb be as owner mem size info).wp (fun _ => Safe) (fun _ => Safe)
    ⟨s, [], []⟩ from h.state
  have hinfo : ∀ info' s', InfoSafe size info' →
      RunSafe be as size (infoParts (infoSegs info') info'.stackBytes) s' → Safe s' :=
    fun info' s' hi hs => ⟨infoSegs info', info'.stackBytes, hs, hi.parts_safe, hi.parts_disjoint⟩
  -- before the first call every record will do
  have hquiet : ∀ s' : LoadSt σ, s'.calls = [] → (∀ o ∈ s'.reads, o < size) → ∀ parts,
      RunSafe be as size parts s' := by
    intro s' hcalls hreads parts
    refine ⟨hreads, ?_⟩
    rw [hcalls]
    refine ⟨?_, ?_, by simp [mapRequests]⟩
    · intro pre tok off v t h
      simp at h
    · intro pre a v tok perms t h
      simp at h
  have hnone : InfoSafe size { zeroOut with stackBytes := defaultStackPages * page } :=
    ⟨⟨fun i hi => absurd hi (Nat.not_lt_zero i), fun i j _ hj => absurd hj (Nat.not_lt_zero j)⟩,
      stackOk_default, ⟨rfl, Nat.zero_le _⟩, Nat.zero_le _⟩
  have hsafe : ∀ s' parts, OnlyRead (· < size) ⟨s, [], []⟩ s' → RunSafe be as size parts s' := by
    intro s' parts hread
    obtain ⟨os, hos, hlt⟩ := hread.reads
    refine hquiet s' hread.calls ?_ parts
    rw [hos]
    exact hlt
  refine wp_xloadExb_of_rules (fun s' hread _ => hinfo _ s' hnone (hsafe s' _ hread))
    fun info' s' hread hparsed _ _ => ?_
  have hfit := hparsed.safe.parts_fit
  refine ⟨_, _, _, loadRules_race (fun p hp => (hfit p hp).1) (fun p hp => (hfit p hp).2),
    ⟨hsafe s' _ hread, ?_⟩, fun s'' h => hinfo info' s'' hparsed.safe h,
    fun D s'' _ h => hinfo info' s'' hparsed.safe h.safe⟩
  rw [hread.calls]
  rfl

end Xasmos.Exb
