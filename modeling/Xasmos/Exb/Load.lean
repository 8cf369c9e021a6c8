import Xasmos.Exb.Transaction

/-!
# Loading is all or nothing

`Contract` says what the loader may rely on: `view` maps a state of the backend to its live
tokens, its mappings and the bytes of the tokens.  `Holds v₀ v T M` says that `v` is `v₀`
with the tokens `T` and the mappings `M` added, and each backend call moves the two lists;
the rollback takes them back to nothing.

## Main results

* `wp_rollback` — nothing of the load is left.
* `wp_loadPart` — one part is loaded, or nothing is held.
* `xloadExb_allOrNothing` — the whole program is there, or nothing is.
-/

namespace Xasmos.Exb

open Kernel
open Function (update update_self update_of_ne)

variable {D : List (XToken × Part)} {as i n size : ℕ} {d : XToken × Part} {img : Bytes}
  {owner : OwnerId} {p : Part} {σ : Type}

/-! ## The contract -/

/-- A token the loader holds. -/
structure LoadToken where
  tok : XToken
  owner : OwnerId
  frames : ℕ
  rights : UInt32

variable {T : List LoadToken} {x : LoadToken}

/-- A mapping of a token in an address space. -/
structure Mapping where
  space : ℕ
  vaddr : ℕ
  tok : XToken
  perms : UInt32

variable {M : List Mapping} {m : Mapping}

/-- What a backend keeps: live tokens, mappings, and the bytes of each token. -/
structure View where
  tokens : Set LoadToken
  maps : Set Mapping
  byte : XToken → ℕ → UInt8

variable {v v' v₀ : View}

/-- The bytes of tokens that are live before and after are the same. -/
def KeepsBytes (v v' : View) : Prop :=
  ∀ x ∈ v.tokens, x ∈ v'.tokens → ∀ b < x.frames * page, v'.byte x.tok b = v.byte x.tok b

/-- Nothing has changed. -/
structure SameAs (v v' : View) : Prop where
  tokens : v'.tokens = v.tokens
  maps : v'.maps = v.maps
  bytes : KeepsBytes v v'

/-- The token is mapped somewhere. -/
def View.Mapped (v : View) (tok : XToken) : Prop := ∃ m ∈ v.maps, m.tok = tok

/-- **The contract of `xload_backend.h`.**  `ok` are the states in which the backend works. -/
structure Contract {σ : Type} (be : Backend σ) (view : σ → View) (ok : σ → Prop) : Prop where
  /-- Only live tokens are mapped. -/
  mapped_live : ∀ s, ok s → ∀ m ∈ (view s).maps, ∃ x ∈ (view s).tokens, x.tok = m.tok
  alloc_ok : ∀ s owner n rights, ok s → ok (be.alloc owner n rights s).2
  alloc_none : ∀ s owner n rights, ok s → (be.alloc owner n rights s).1 = none →
    SameAs (view s) (view (be.alloc owner n rights s).2)
  /-- The token is new and its frames are zeroed. -/
  alloc_some : ∀ s owner n rights tok, ok s → (be.alloc owner n rights s).1 = some tok →
    (∀ x ∈ (view s).tokens, x.tok ≠ tok) ∧
    (view (be.alloc owner n rights s).2).tokens = insert ⟨tok, owner, n, rights⟩ (view s).tokens ∧
    (view (be.alloc owner n rights s).2).maps = (view s).maps ∧
      KeepsBytes (view s) (view (be.alloc owner n rights s).2) ∧
    ∀ b < n * page, (view (be.alloc owner n rights s).2).byte tok b = 0
  poke : ∀ s x off v, ok s → x ∈ (view s).tokens → off < x.frames * page →
    ok (be.poke x.tok off v s) ∧ (view (be.poke x.tok off v s)).tokens = (view s).tokens ∧
    (view (be.poke x.tok off v s)).maps = (view s).maps ∧
      (view (be.poke x.tok off v s)).byte x.tok off = v ∧
    ∀ y ∈ (view s).tokens, ∀ b < y.frames * page, ¬ (y.tok = x.tok ∧ b = off) →
      (view (be.poke x.tok off v s)).byte y.tok b = (view s).byte y.tok b
  /-- A token that is not mapped is freed. -/
  release : ∀ s x, ok s → x ∈ (view s).tokens → ¬ (view s).Mapped x.tok →
    ok (be.release x.tok s) ∧
      (view (be.release x.tok s)).tokens = { y ∈ (view s).tokens | y.tok ≠ x.tok } ∧
    (view (be.release x.tok s)).maps = (view s).maps ∧
      KeepsBytes (view s) (view (be.release x.tok s))
  map_ok : ∀ s a v x perms, ok s → x ∈ (view s).tokens → ok (be.map a v x.tok perms s).2
  /-- A mapping that fails maps nothing. -/
  map_false : ∀ s a v x perms, ok s → x ∈ (view s).tokens → (be.map a v x.tok perms s).1 = false →
    SameAs (view s) (view (be.map a v x.tok perms s).2)
  /-- An address holds one mapping: `xlb_unmap` names a mapping by its address alone, so a mapping
  is made only where there is none.  The header leaves this unsaid. -/
  map_true : ∀ s a v x perms, ok s → x ∈ (view s).tokens → perms &&& permR ≠ 0 →
    (be.map a v x.tok perms s).1 = true →
    (∀ m ∈ (view s).maps, ¬ (m.space = a ∧ m.vaddr = v)) ∧
    (view (be.map a v x.tok perms s).2).tokens = (view s).tokens ∧
    (view (be.map a v x.tok perms s).2).maps = insert ⟨a, v, x.tok, perms⟩ (view s).maps ∧
    KeepsBytes (view s) (view (be.map a v x.tok perms s).2)
  unmap : ∀ s m, ok s → m ∈ (view s).maps →
    ok (be.unmap m.space m.vaddr s).2 ∧ (view (be.unmap m.space m.vaddr s).2).tokens =
      (view s).tokens ∧
    (view (be.unmap m.space m.vaddr s).2).maps =
      { m' ∈ (view s).maps | ¬ (m'.space = m.space ∧ m'.vaddr = m.vaddr) } ∧
    KeepsBytes (view s) (view (be.unmap m.space m.vaddr s).2)

/-! ## What the loader holds -/

/-- No token was released while it was mapped. -/
def Clean {σ : Type} (view : σ → View) (calls : List (BackendCall × σ)) : Prop :=
  ∀ e ∈ calls, ∀ tok, e.1 = .release tok → ¬ (view e.2).Mapped tok

theorem clean_append {view : σ → View} {calls : List (BackendCall × σ)} {c : BackendCall} {st : σ}
    (h : Clean view calls) (hc : ∀ tok, c = .release tok → ¬ (view st).Mapped tok) :
    Clean view (calls ++ [(c, st)]) := by
  intro e he tok htok
  rcases List.mem_append.mp he with he | he
  · exact h e he tok htok
  · rw [List.mem_singleton] at he
    subst he
    exact hc tok htok

/-- `v` is `v₀` with the tokens `T` and the mappings `M` added, in that order. -/
structure Holds (v₀ v : View) (T : List LoadToken) (M : List Mapping) : Prop where
  tokens : v.tokens = v₀.tokens ∪ { x | x ∈ T }
  maps : v.maps = v₀.maps ∪ { m | m ∈ M }
  distinct : (T.map LoadToken.tok).Nodup
  fresh : ∀ x ∈ T, ∀ y ∈ v₀.tokens, y.tok ≠ x.tok
  places : (M.map fun m => (m.space, m.vaddr)).Nodup
  empty : ∀ m ∈ M, ∀ m' ∈ v₀.maps, ¬ (m'.space = m.space ∧ m'.vaddr = m.vaddr)
  bytes : ∀ x ∈ v₀.tokens, ∀ b < x.frames * page, v.byte x.tok b = v₀.byte x.tok b

namespace Holds

theorem refl (v : View) : Holds v v [] [] := by
  constructor <;> simp

theorem old_mem (h : Holds v₀ v T M) (hx : x ∈ v₀.tokens) : x ∈ v.tokens := by
  rw [h.tokens]
  exact Or.inl hx

theorem new_mem (h : Holds v₀ v T M) (hx : x ∈ T) : x ∈ v.tokens := by
  rw [h.tokens]
  exact Or.inr hx

/-- The bytes of the old tokens, after a step that keeps bytes and these tokens. -/
theorem bytes_step (h : Holds v₀ v T M) (hb : KeepsBytes v v') (hsub : v₀.tokens ⊆ v'.tokens) :
    ∀ x ∈ v₀.tokens, ∀ b < x.frames * page, v'.byte x.tok b = v₀.byte x.tok b := by
  intro x hx b hlt
  rw [hb x (h.old_mem hx) (hsub hx) b hlt, h.bytes x hx b hlt]

theorem same (h : Holds v₀ v T M) (hs : SameAs v v') : Holds v₀ v' T M where
  tokens := hs.tokens.trans h.tokens
  maps := hs.maps.trans h.maps
  distinct := h.distinct
  fresh := h.fresh
  places := h.places
  empty := h.empty
  bytes := h.bytes_step hs.bytes fun x hx => by rw [hs.tokens]; exact h.old_mem hx

theorem alloc (h : Holds v₀ v T M) (hnew : ∀ y ∈ v.tokens, y.tok ≠ x.tok)
    (ht : v'.tokens = insert x v.tokens) (hm : v'.maps = v.maps) (hb : KeepsBytes v v') :
    Holds v₀ v' (T ++ [x]) M where
  tokens := by
    rw [ht, h.tokens]
    ext y
    simp only [Set.mem_insert_iff, Set.mem_union, Set.mem_ofPred_eq, List.mem_append,
      List.mem_singleton]
    tauto
  maps := hm.trans h.maps
  distinct := by
    rw [List.map_append, List.map_singleton, List.nodup_append]
    refine ⟨h.distinct, List.nodup_singleton _, ?_⟩
    simp only [List.mem_map, List.mem_singleton, forall_exists_index, and_imp,
      forall_apply_eq_imp_iff₂, forall_eq]
    intro y hy
    exact hnew y (h.new_mem hy)
  fresh := by
    intro y hy z hz
    rcases List.mem_append.mp hy with hy | hy
    · exact h.fresh y hy z hz
    · rw [List.mem_singleton.mp hy]
      exact hnew z (h.old_mem hz)
  places := h.places
  empty := h.empty
  bytes := h.bytes_step hb fun x hx => by rw [ht]; exact Or.inr (h.old_mem hx)

theorem map (h : Holds v₀ v T M)
    (hfree : ∀ m' ∈ v.maps, ¬ (m'.space = m.space ∧ m'.vaddr = m.vaddr)) (ht : v'.tokens = v.tokens)
    (hm : v'.maps = insert m v.maps) (hb : KeepsBytes v v') : Holds v₀ v' T (M ++ [m]) where
  tokens := ht.trans h.tokens
  maps := by
    rw [hm, h.maps]
    ext y
    simp only [Set.mem_insert_iff, Set.mem_union, Set.mem_ofPred_eq, List.mem_append,
      List.mem_singleton]
    tauto
  distinct := h.distinct
  fresh := h.fresh
  places := by
    rw [List.map_append, List.map_singleton, List.nodup_append]
    refine ⟨h.places, List.nodup_singleton _, ?_⟩
    simp only [List.mem_map, List.mem_singleton, forall_exists_index, and_imp,
      forall_apply_eq_imp_iff₂, forall_eq]
    intro m' hm' he
    exact hfree m' (by rw [h.maps]; exact Or.inr hm') (Prod.mk.inj he)
  empty := by
    intro y hy z hz
    rcases List.mem_append.mp hy with hy | hy
    · exact h.empty y hy z hz
    · rw [List.mem_singleton.mp hy]
      exact hfree z (by rw [h.maps]; exact Or.inl hz)
  bytes := h.bytes_step hb fun x hx => by rw [ht]; exact h.old_mem hx

/-- Removing what is mapped at the last place removes the last mapping and nothing else. -/
theorem unmap (h : Holds v₀ v T (M ++ [m])) (ht : v'.tokens = v.tokens)
    (hm : v'.maps = { m' ∈ v.maps | ¬ (m'.space = m.space ∧ m'.vaddr = m.vaddr) })
    (hb : KeepsBytes v v') : Holds v₀ v' T M where
  tokens := ht.trans h.tokens
  maps := by
    have hp := h.places
    rw [List.map_append, List.map_singleton, List.nodup_append] at hp
    rw [hm, h.maps]
    ext y
    simp only [Set.mem_ofPred_eq, Set.mem_union, List.mem_append, List.mem_singleton]
    constructor
    · rintro ⟨hy | hy | rfl, hne⟩
      · exact Or.inl hy
      · exact Or.inr hy
      · exact absurd ⟨rfl, rfl⟩ hne
    · rintro (hy | hy)
      · exact ⟨Or.inl hy, h.empty m (by simp) y hy⟩
      · refine ⟨Or.inr (Or.inl hy), fun he => ?_⟩
        exact hp.2.2 _ (List.mem_map_of_mem hy) _ (List.mem_singleton_self _) (Prod.ext he.1 he.2)
  distinct := h.distinct
  fresh := h.fresh
  places := by
    have hp := h.places
    rw [List.map_append, List.nodup_append] at hp
    exact hp.1
  empty := fun m' hm' => h.empty m' (List.mem_append_left _ hm')
  bytes := h.bytes_step hb fun x hx => by rw [ht]; exact h.old_mem hx

/-- Releasing the last token removes it and nothing else. -/
theorem release (h : Holds v₀ v (T ++ [x]) M) (ht : v'.tokens = { y ∈ v.tokens | y.tok ≠ x.tok })
    (hm : v'.maps = v.maps) (hb : KeepsBytes v v') : Holds v₀ v' T M := by
  have hd := h.distinct
  rw [List.map_append, List.map_singleton, List.nodup_append] at hd
  have hset : v'.tokens = v₀.tokens ∪ { y | y ∈ T } := by
    rw [ht, h.tokens]
    ext y
    simp only [Set.mem_ofPred_eq, Set.mem_union, List.mem_append, List.mem_singleton]
    constructor
    · rintro ⟨hy | hy | rfl, hne⟩
      · exact Or.inl hy
      · exact Or.inr hy
      · exact absurd rfl hne
    · rintro (hy | hy)
      · exact ⟨Or.inl hy, h.fresh x (by simp) y hy⟩
      · exact ⟨Or.inr (Or.inl hy), hd.2.2 _ (List.mem_map_of_mem hy) _ (List.mem_singleton_self _)⟩
  exact ⟨hset, hm.trans h.maps, hd.1, fun y hy => h.fresh y (List.mem_append_left _ hy), h.places,
    h.empty, h.bytes_step hb fun y hy => by rw [hset]; exact Or.inl hy⟩

end Holds

section Undo

variable {be : Backend σ} {view : σ → View} {ok : σ → Prop}
  {s : LoadSt σ}

/-- A state of the loader that holds `T` and `M`. -/
structure At (view : σ → View) (ok : σ → Prop) (v₀ : View) (T : List LoadToken) (M : List Mapping)
    (s : LoadSt σ) :
    Prop where
  ok : ok s.st
  holds : Holds v₀ (view s.st) T M
  clean : Clean view s.calls

/-- The last mapping is undone. -/
theorem At.unmap (hc : Contract be view ok) (h : At view ok v₀ T (M ++ [m]) s) :
    At view ok v₀ T M (s.after (.unmap m.space m.vaddr) (be.unmap m.space m.vaddr s.st).2) := by
  have hm : m ∈ (view s.st).maps := by
    rw [h.holds.maps]
    exact Or.inr (by simp)
  obtain ⟨hok, ht, hmaps, hb⟩ := hc.unmap s.st m h.ok hm
  exact ⟨hok, h.holds.unmap ht hmaps hb, clean_append h.clean (by simp)⟩

/-- The last token is released; it is not mapped any more. -/
theorem At.release (hc : Contract be view ok)
    (hlive : ∀ m ∈ v₀.maps, ∃ x ∈ v₀.tokens, x.tok = m.tok) (h : At view ok v₀ (T ++ [x]) [] s) :
    At view ok v₀ T [] (s.after (.release x.tok) (be.release x.tok s.st)) := by
  -- only tokens of before are mapped now
  have hun : ¬ (view s.st).Mapped x.tok := by
    rintro ⟨m, hm, he⟩
    rw [h.holds.maps] at hm
    simp only [List.not_mem_nil, Set.ofPred_false, Set.union_empty] at hm
    obtain ⟨y, hy, hye⟩ := hlive m hm
    exact h.holds.fresh x (by simp) y hy (hye.trans he)
  obtain ⟨hok, ht, hmaps, hb⟩ := hc.release s.st x h.ok (h.holds.new_mem (by simp)) hun
  refine ⟨hok, h.holds.release ht hmaps hb, clean_append h.clean ?_⟩
  rintro tok ⟨⟩
  exact hun

end Undo

/-! ## One part -/

/-- What the memory of a part holds: the bytes of the file, then zeros. -/
def Part.content (img : Bytes) (p : Part) (b : ℕ) : UInt8 :=
  if b < p.fileSize then img (p.fileOff + b) else 0

/-- The token of a loaded part. -/
def partToken (owner : OwnerId) (d : XToken × Part) : LoadToken :=
  ⟨d.1, owner, d.2.pages, d.2.rights⟩

/-- The mapping of a loaded part. -/
def partMapping (as : ℕ) (d : XToken × Part) : Mapping := ⟨as, d.2.vaddr, d.1, d.2.perms⟩

/-- The memory of each part has its contents. -/
def Filled (img : Bytes) (v : View) (D : List (XToken × Part)) : Prop :=
  ∀ d ∈ D, ∀ b < d.2.pages * page, v.byte d.1 b = d.2.content img b

section Part

variable {be : Backend σ} {view : σ → View} {ok : σ → Prop}
  {s : LoadSt σ}

/-- The parts `D` are loaded, and nothing else is held. -/
structure Loaded (view : σ → View) (ok : σ → Prop) (v₀ : View) (as : ℕ) (owner : OwnerId)
    (img : Bytes)
    (D : List (XToken × Part)) (s : LoadSt σ) : Prop where
  at_ : At view ok v₀ (D.map (partToken owner)) (D.map (partMapping as)) s
  filled : Filled img (view s.st) D

theorem Filled.keep (h : Filled img v D) (hb : KeepsBytes v v')
    (hv : ∀ d ∈ D, partToken owner d ∈ v.tokens) (hv' : ∀ d ∈ D, partToken owner d ∈ v'.tokens) :
    Filled img v' D := by
  intro d hd b hlt
  rw [← h d hd b hlt]
  exact hb _ (hv d hd) (hv' d hd) b hlt

/-- The state in which a part is being filled: `n` of its bytes are there. -/
structure Filling (view : σ → View) (ok : σ → Prop) (v₀ : View) (as : ℕ) (owner : OwnerId)
    (img : Bytes)
    (D : List (XToken × Part)) (d : XToken × Part) (n : ℕ) (s : LoadSt σ) : Prop where
  at_ : At view ok v₀ (D.map (partToken owner) ++ [partToken owner d]) (D.map (partMapping as)) s
  filled : Filled img (view s.st) D
  bytes : ∀ b < d.2.pages * page,
    (view s.st).byte d.1 b = if b < n then img (d.2.fileOff + b) else 0

/-- One turn of the copy loop. -/
theorem Filling.poke (hc : Contract be view ok) (hn : n < d.2.pages * page)
    (h : Filling view ok v₀ as owner img D d n s) (reads : List ℕ) :
    Filling view ok v₀ as owner img D d (n + 1)
      (LoadSt.after { s with reads := reads } (.poke d.1 n (img (d.2.fileOff + n)))
      (be.poke d.1 n (img (d.2.fileOff + n)) s.st)) := by
  have hmem : partToken owner d ∈ (view s.st).tokens := h.at_.holds.new_mem (by simp)
  obtain ⟨hok, ht, hm, hset, hrest⟩ := hc.poke s.st _ n (img (d.2.fileOff + n)) h.at_.ok hmem hn
  have hne : ∀ y : LoadToken, y ∈ v₀.tokens ∨ y ∈ D.map (partToken owner) → y.tok ≠ d.1 := by
    rintro y (hy | hy)
    · exact h.at_.holds.fresh (partToken owner d) (by simp) y hy
    · have hd := h.at_.holds.distinct
      rw [List.map_append, List.map_singleton, List.nodup_append] at hd
      exact hd.2.2 _ (List.mem_map_of_mem hy) _ (List.mem_singleton_self _)
  have hold : ∀ y : LoadToken, y ∈ v₀.tokens ∨ y ∈ D.map (partToken owner) → ∀ b < y.frames * page,
      (view (be.poke d.1 n (img (d.2.fileOff + n)) s.st)).byte y.tok b =
        (view s.st).byte y.tok b := by
    intro y hy b hb
    refine hrest y ?_ b hb fun he => hne y hy he.1
    rcases hy with hy | hy
    · exact h.at_.holds.old_mem hy
    · exact h.at_.holds.new_mem (List.mem_append_left _ hy)
  have hh := h.at_.holds
  refine ⟨⟨hok, ⟨ht.trans hh.tokens, hm.trans hh.maps, hh.distinct, hh.fresh, hh.places,
    hh.empty, ?_⟩, clean_append h.at_.clean (by simp)⟩, ?_, ?_⟩
  · intro x hx b hb
    exact (hold x (Or.inl hx) b hb).trans (hh.bytes x hx b hb)
  · intro e he b hb
    exact (hold (partToken owner e) (Or.inr (List.mem_map_of_mem he)) b hb).trans
      (h.filled e he b hb)
  · intro b hb
    by_cases hbn : b = n
    · subst hbn
      rw [if_pos (Nat.lt_succ_self b)]
      exact hset
    · have hkeep := hrest (partToken owner d) hmem b hb fun he => hbn he.2
      have hiff : b < n + 1 ↔ b < n := by omega
      rw [if_congr hiff rfl rfl, ← h.bytes b hb]
      exact hkeep

/-- A part that got its token: its frames are zeroed. -/
theorem Loaded.alloc (hc : Contract be view ok) (h : Loaded view ok v₀ as owner img D s)
    {tok : XToken} (hr : (be.alloc owner p.pages p.rights s.st).1 = some tok) :
    Filling view ok v₀ as owner img D (tok, p) 0
      (s.after (.alloc owner p.pages p.rights) (be.alloc owner p.pages p.rights s.st).2) := by
  have hok := hc.alloc_ok s.st owner p.pages p.rights h.at_.ok
  obtain ⟨hnew, ht, hm, hb, hzero⟩ := hc.alloc_some s.st owner p.pages p.rights tok h.at_.ok hr
  refine ⟨⟨hok, h.at_.holds.alloc hnew ht hm hb, clean_append h.at_.clean (by simp)⟩, ?_, ?_⟩
  · have hin : ∀ d ∈ D, partToken owner d ∈ (view s.st).tokens := fun d hd =>
      h.at_.holds.new_mem (List.mem_map_of_mem hd)
    exact h.filled.keep hb hin fun d hd => (Set.ext_iff.mp ht _).mpr (Or.inr (hin d hd))
  · intro b hlt
    rw [if_neg (Nat.not_lt_zero b)]
    exact hzero b hlt

/-- A part that is filled and mapped is loaded. -/
theorem Filling.map (hc : Contract be view ok) (hperm : d.2.perms &&& permR ≠ 0)
    (h : Filling view ok v₀ as owner img D d d.2.fileSize s)
    (hmap : (be.map as d.2.vaddr d.1 d.2.perms s.st).1 = true) :
    Loaded view ok v₀ as owner img (D ++ [d])
      (s.after (.map as d.2.vaddr d.1 d.2.perms) (be.map as d.2.vaddr d.1 d.2.perms s.st).2) := by
  have hmem : partToken owner d ∈ (view s.st).tokens := h.at_.holds.new_mem (by simp)
  have hok := hc.map_ok s.st as d.2.vaddr _ d.2.perms h.at_.ok hmem
  obtain ⟨hfree, ht, hm, hb⟩ := hc.map_true s.st as d.2.vaddr _ d.2.perms h.at_.ok hmem hperm hmap
  refine ⟨⟨hok, ?_, clean_append h.at_.clean (by simp)⟩, ?_⟩
  · rw [List.map_append, List.map_append]
    exact h.at_.holds.map (m := partMapping as d) hfree ht hm hb
  · have hin : ∀ e ∈ D ++ [d], partToken owner e ∈ (view s.st).tokens := by
      intro e he
      rw [h.at_.holds.tokens]
      right
      simpa using (List.mem_map_of_mem he : partToken owner e ∈ (D ++ [d]).map (partToken owner))
    refine Filled.keep (v := view s.st) ?_ hb hin fun e he => (Set.ext_iff.mp ht _).mpr (hin e he)
    intro e he b hlt
    rcases List.mem_append.mp he with he | he
    · exact h.filled e he b hlt
    · rw [List.mem_singleton] at he
      subst he
      exact h.bytes b hlt

/-- **A backend that keeps its contract follows the rules of a load.** -/
theorem Contract.rules (hc : Contract be view ok)
    (hlive : ∀ m ∈ v₀.maps, ∃ x ∈ v₀.tokens, x.tok = m.tok) {parts : List Part}
    (hfile : ∀ p ∈ parts, p.fileSize ≤ p.pages * page)
    (hperm : ∀ p ∈ parts, p.perms &&& permR ≠ 0) :
    LoadRules be as owner (fun _ => img) parts (Loaded view ok v₀ as owner img)
      (Filling view ok v₀ as owner img)
      (fun T M => At view ok v₀ (T.map (partToken owner)) (M.map (partMapping as))) where
  alloc_none _ _ _ _ h hr :=
    ⟨hc.alloc_ok _ _ _ _ h.at_.ok, h.at_.holds.same (hc.alloc_none _ _ _ _ h.at_.ok hr),
    clean_append h.at_.clean (by simp)⟩
  alloc_some _ _ _ _ _ h hr := h.alloc hc hr
  poke _ d n s v hp hn h hv := by
    subst hv
    exact h.poke hc (lt_of_lt_of_le hn (hfile _ hp.mem)) _
  map_false D d s _ h hmap := by
    have hmem : partToken owner d ∈ (view s.st).tokens := h.at_.holds.new_mem (by simp)
    rw [List.map_append]
    exact ⟨hc.map_ok _ _ _ _ _ h.at_.ok hmem,
      h.at_.holds.same (hc.map_false _ _ _ _ _ h.at_.ok hmem hmap),
      clean_append h.at_.clean (by simp)⟩
  map_true _ _ _ hp h hmap := h.map hc (hperm _ hp.mem) hmap
  unmap _ _ _ _ h := by
    rw [List.map_append] at h
    exact h.unmap hc
  release _ _ _ h := by
    rw [List.map_append] at h
    exact h.release hc hlive

end Part

/-! ## The whole program -/

/-- The addresses of a part. -/
def Part.span (p : Part) : Set ℕ := Set.Ico p.vaddr (p.vaddr + p.pages * page)

/-- The parts of a program: its segments, then its stack. -/
def partsOf (img : Bytes) (stackBytes : ℕ) : List Part :=
  (List.range (segCnt img)).map (fun i => segPart (segAt img i)) ++ [stackPart stackBytes]

/-- The flags a segment can have. -/
theorem SegOk.flags_cases (h : SegOk img size i) :
    (segAt img i).flags = 1 ∨ (segAt img i).flags = 3 ∨ (segAt img i).flags = 5 := by
  have hk := h.flags_known
  have hr := h.readable
  have hw := h.not_wx
  generalize (segAt img i).flags = f at hk hr hw
  interval_cases f <;> simp_all +decide

/-- What holds of every part of a valid program. -/
structure PartOk (p : Part) : Prop where
  file : p.fileSize ≤ p.pages * page
  read : p.perms &&& permR ≠ 0
  not_wx : ¬ (p.perms &&& permW ≠ 0 ∧ p.perms &&& permX ≠ 0)
  rights : rightsFor p.perms &&& p.rights = rightsFor p.perms

theorem SegOk.partOk (h : SegOk img size i) : PartOk (segPart (segAt img i)) := by
  have hfile : (segAt img i).fileSize ≤ (segAt img i).pages * page := by
    have h1 := h.file_le_mem
    have hp : (segAt img i).pages = ((segAt img i).memSize + page - 1) / page := rfl
    rw [hp]
    simp only [page]
    omega
  rcases h.flags_cases with hf | hf | hf <;>
    exact ⟨hfile, by simp only [segPart, hf]; decide, by simp only [segPart, hf]; decide,
      by simp only [segPart, hf]; decide⟩

/-- The permissions of a segment are its flags. -/
theorem SegOk.perms_eq (h : SegOk img size i) :
    (segPart (segAt img i)).perms = UInt32.ofNat (segAt img i).flags := by
  rcases h.flags_cases with hf | hf | hf <;> simp only [segPart, hf] <;> decide

theorem stackPart_ok (n : ℕ) : PartOk (stackPart n) :=
  ⟨Nat.zero_le _, by simp only [stackPart]; decide, by simp only [stackPart]; decide,
    by simp only [stackPart]; decide⟩

/-- The stack ends one page below the end of user space. -/
theorem stackPart_end (h : StackOk n) :
    (stackPart n).vaddr + (stackPart n).pages * page = xlbUserTop - page := by
  obtain ⟨hd, _, hmax⟩ := h
  simp only [stackPart, Nat.div_mul_cancel hd]
  simp only [xlbUserTop, page, maxStackPages] at hmax ⊢
  omega

/-- Segments end far below the stack. -/
theorem disjoint_stackPart {s : ExbSeg} (hlim : s.vaddr + s.pages * page ≤ vaLimit)
    (hn : StackOk n) : Disjoint (segPart s).span (stackPart n).span := by
  obtain ⟨_, _, hmax⟩ := hn
  rw [Part.span, Part.span, disjoint_Ico_iff, overlap_eq_false_iff]
  right; right; right
  simp only [segPart, stackPart, vaLimit, xlbUserTop, page, maxStackPages] at hlim hmax ⊢
  omega

/-- The parts of a program do not meet. -/
theorem partsOf_disjoint (h : ExbFormat img size) (hn : StackOk n) :
    (partsOf img n).Pairwise fun p q => Disjoint p.span q.span := by
  rw [partsOf, List.pairwise_append]
  refine ⟨?_, List.pairwise_singleton _ _, ?_⟩
  · rw [List.pairwise_map]
    refine List.Pairwise.imp_of_mem ?_ (List.pairwise_lt_range (n := segCnt img))
    intro i j _ hj hij
    exact h.spans_disjoint i j hij (List.mem_range.mp hj)
  · simp only [List.mem_map, List.mem_range, List.mem_singleton, forall_exists_index, and_imp,
      forall_apply_eq_imp_iff₂, forall_eq]
    intro i hi
    exact disjoint_stackPart (h.segs i hi).va_limit hn

theorem partOk_of_mem (h : ExbFormat img size) (hp : p ∈ partsOf img n) : PartOk p := by
  rcases List.mem_append.mp hp with hp | hp
  · obtain ⟨i, hi, rfl⟩ := List.mem_map.mp hp
    exact (h.segs i (List.mem_range.mp hi)).partOk
  · rw [List.mem_singleton.mp hp]
    exact stackPart_ok n

/-! ## The contract can be kept -/

/-- A backend that keeps its tokens and mappings in lists. -/
structure Heap where
  tokens : List LoadToken
  maps : List Mapping
  byte : XToken → ℕ → UInt8

namespace Heap

def view (h : Heap) : View := ⟨{ x | x ∈ h.tokens }, { m | m ∈ h.maps }, h.byte⟩

/-- Only live tokens are mapped. -/
def Ok (h : Heap) : Prop := ∀ m ∈ h.maps, ∃ x ∈ h.tokens, x.tok = m.tok

def empty : Heap := ⟨[], [], fun _ _ => 0⟩

theorem ok_empty : empty.Ok := by
  intro m hm
  cases hm

/-- The token an allocation tries. -/
def nextTok (h : Heap) : XToken := UInt64.ofNat (h.tokens.length + 1)

def alloc (owner : OwnerId) (n : ℕ) (rights : UInt32) (h : Heap) : Option XToken × Heap :=
  if h.tokens.any (fun x => x.tok = h.nextTok) then (none, h)
  else (some h.nextTok, ⟨⟨h.nextTok, owner, n, rights⟩ :: h.tokens, h.maps, update h.byte h.nextTok
    fun _ => 0⟩)

def poke (tok : XToken) (off : ℕ) (v : UInt8) (h : Heap) : Heap :=
  { h with byte := update h.byte tok (update (h.byte tok) off v) }

def release (tok : XToken) (h : Heap) : Heap :=
  { h with tokens := h.tokens.filter fun x => x.tok ≠ tok }

def map (a v : ℕ) (tok : XToken) (perms : UInt32) (h : Heap) : Bool × Heap :=
  if h.maps.any (fun m => m.space = a ∧ m.vaddr = v) then (false, h)
  else (true, { h with maps := ⟨a, v, tok, perms⟩ :: h.maps })

def unmap (a v : ℕ) (h : Heap) : Bool × Heap :=
  (h.maps.any fun m => m.space = a ∧ m.vaddr = v,
    { h with maps := h.maps.filter fun m => ¬ (m.space = a ∧ m.vaddr = v) })

def backend : Backend Heap := ⟨fun _ _ _ _ => true, alloc, poke, release, map, unmap⟩

theorem sameAs_refl (v : View) : SameAs v v := ⟨rfl, rfl, fun _ _ _ _ _ => rfl⟩

theorem alloc_cases (h : Heap) (owner : OwnerId) (n : ℕ) (rights : UInt32) :
    alloc owner n rights h = (none, h) ∨
      ((∀ x ∈ h.tokens, x.tok ≠ h.nextTok) ∧ alloc owner n rights h =
      (some h.nextTok, ⟨⟨h.nextTok, owner, n, rights⟩ :: h.tokens, h.maps, update h.byte h.nextTok
        fun _ => 0⟩)) := by
  unfold alloc
  split_ifs with hany
  · exact Or.inl rfl
  · refine Or.inr ⟨fun x hx he => hany ?_, rfl⟩
    exact List.any_eq_true.mpr ⟨x, hx, by simpa using he⟩

theorem map_cases (h : Heap) (a v : ℕ) (tok : XToken) (perms : UInt32) :
    map a v tok perms h = (false, h) ∨ ((∀ m ∈ h.maps, ¬ (m.space = a ∧ m.vaddr = v)) ∧
      map a v tok perms h = (true, { h with maps := ⟨a, v, tok, perms⟩ :: h.maps })) := by
  unfold map
  split_ifs with hany
  · exact Or.inl rfl
  · refine Or.inr ⟨fun m hm he => hany ?_, rfl⟩
    exact List.any_eq_true.mpr ⟨m, hm, by simpa using he⟩

theorem contract : Contract backend view Ok where
  mapped_live _ h := h
  alloc_ok s owner n rights h := by
    change Ok (alloc owner n rights s).2
    rcases alloc_cases s owner n rights with he | ⟨_, he⟩ <;> rw [he]
    · exact h
    · intro m hm
      obtain ⟨x, hx, hxm⟩ := h m hm
      exact ⟨x, List.mem_cons_of_mem _ hx, hxm⟩
  alloc_none s owner n rights _ hr := by
    change (alloc owner n rights s).1 = none at hr
    change SameAs _ (view (alloc owner n rights s).2)
    rcases alloc_cases s owner n rights with he | ⟨_, he⟩ <;> rw [he] at hr ⊢
    · exact sameAs_refl _
    · cases hr
  alloc_some s owner n rights tok _ hr := by
    change (alloc owner n rights s).1 = some tok at hr
    simp only [backend]
    rcases alloc_cases s owner n rights with he | ⟨hnew, he⟩ <;> rw [he] at hr ⊢
    · cases hr
    · obtain rfl := Option.some.inj hr
      refine ⟨hnew, ?_, rfl, ?_, ?_⟩
      · ext x
        simp [view]
      · intro x hx _ b _
        simp only [view, update_of_ne (hnew x hx)]
      · intro b _
        simp [view]
  poke s x off v h _ _ := by
    refine ⟨h, rfl, rfl, by simp [view, backend, poke], ?_⟩
    intro y _ b _ hne
    by_cases hy : y.tok = x.tok
    · have hb : b ≠ off := fun hb => hne ⟨hy, hb⟩
      simp only [view, backend, poke, hy, update_self, update_of_ne hb]
    · simp only [view, backend, poke, update_of_ne hy]
  release s x h _ hun := by
    refine ⟨?_, ?_, rfl, fun _ _ _ _ _ => rfl⟩
    · intro m hm
      obtain ⟨y, hy, hym⟩ := h m hm
      refine ⟨y, List.mem_filter.mpr ⟨hy, ?_⟩, hym⟩
      simp only [ne_eq, decide_eq_true_eq]
      intro he
      exact hun ⟨m, hm, hym.symm.trans he⟩
    · ext y
      simp [view, backend, release]
  map_ok s a v x perms h hx := by
    change Ok (map a v x.tok perms s).2
    rcases map_cases s a v x.tok perms with he | ⟨_, he⟩ <;> rw [he]
    · exact h
    · intro m hm
      rcases List.mem_cons.mp hm with rfl | hm
      · exact ⟨x, hx, rfl⟩
      · exact h m hm
  map_false s a v x perms _ _ hr := by
    change (map a v x.tok perms s).1 = false at hr
    change SameAs _ (view (map a v x.tok perms s).2)
    rcases map_cases s a v x.tok perms with he | ⟨_, he⟩ <;> rw [he] at hr ⊢
    · exact sameAs_refl _
    · cases hr
  map_true s a v x perms _ _ _ hr := by
    change (map a v x.tok perms s).1 = true at hr
    simp only [backend]
    rcases map_cases s a v x.tok perms with he | ⟨hfree, he⟩ <;> rw [he] at hr ⊢
    · cases hr
    · refine ⟨hfree, rfl, ?_, fun _ _ _ _ _ => rfl⟩
      ext m
      simp [view]
  unmap s m h _ := by
    refine ⟨fun m' hm' => h m' (List.mem_of_mem_filter hm'), rfl, ?_, fun _ _ _ _ _ => rfl⟩
    ext m'
    simp only [view, backend, unmap, Set.mem_ofPred_eq, List.mem_filter, decide_eq_true_eq]

end Heap

/-- A program of one executable byte. -/
def tinyImage : Bytes := fun i => List.getD
  ([0x7F, 0x45, 0x58, 0x42, 1, 1, 64, 0, 0, 0, 0, 0, 1, 0, 0, 0, 0, 0, 0, 0, 0x80, 0, 0, 0, 97,
    0, 0, 0,
    99, 55, 13, 225, 64, 0, 0, 0, 1, 0, 0, 0, 0, 0, 0, 0, 0, 0, 0, 0] ++ List.replicate 16 0 ++
   [0, 0, 0, 0, 0x80, 0, 0, 0, 1, 0, 0, 0, 0, 0, 0, 0, 96, 0, 0, 0, 1, 0, 0, 0, 5, 0, 0, 0, 0, 0, 0,
     0, 0xC3]) i 0

/-! ## All or nothing -/

section Load

variable {be : Backend σ} {view : σ → View} {ok : σ → Prop}

/-- The loader loads every part, or holds nothing. -/
theorem wp_xloadExb (hc : Contract be view ok) (as : ℕ) (owner : OwnerId) (img : Bytes) (size : ℕ)
    (info : ExbInfo) {s : LoadSt σ} (hok : ok s.st) (hclean : Clean view s.calls) :
    (xloadExb be as owner (fun _ => img) size info).wp
      (fun r s' => ExbFormat img size ∧ StackOk r.stackBytes ∧ r.stackTop = xlbUserTop - page ∧
        ∃ D, D.map Prod.snd = partsOf img r.stackBytes ∧
          Loaded view ok (view s.st) as owner img D s')
      (fun _ => At view ok (view s.st) [] []) s := by
  have hlive := hc.mapped_live s.st hok
  have hearly : ∀ s', OnlyRead (· < size) s s' → At view ok (view s.st) [] [] s' := by
    intro s' hread
    refine ⟨?_, ?_, ?_⟩
    · rw [hread.st]
      exact hok
    · rw [hread.st]
      exact Holds.refl _
    · rw [hread.calls]
      exact hclean
  refine wp_xloadExb_of_rules (fun s' hread _ => hearly s' hread)
    fun info' s' hread hparsed _ _ => ?_
  obtain ⟨hf, hinfo⟩ := hparsed.fixed img rfl
  have hparts : infoParts (infoSegs info') info'.stackBytes = partsOf img info'.stackBytes := by
    rw [infoParts_eq, partsOf, hinfo, segCount_infoOf, List.append_left_inj]
    refine List.map_congr_left fun i hi => ?_
    rw [seg_infoOf img info (List.mem_range.mp hi)]
  have hok' : ∀ p ∈ infoParts (infoSegs info') info'.stackBytes, PartOk p :=
    fun p hp => partOk_of_mem hf (hparts ▸ hp)
  refine ⟨_, _, _, hc.rules hlive (fun p hp => (hok' p hp).file) (fun p hp => (hok' p hp).read),
    ⟨hearly s' hread, by simp [Filled]⟩,
    fun _ h' => h', fun D s'' hD h' => ?_⟩
  exact ⟨hf, hparsed.safe.stack, rfl, D, hD.trans hparts, h'⟩

/-- A program of an image is in an address space: the parts `D` are what `v'` has and `v` has
not. -/
structure ProgramAt (img : Bytes) (as : ℕ) (owner : OwnerId) (r : XLoadResult) (v v' : View)
    (D : List (XToken × Part)) :
    Prop where
  /-- One part for each segment, and the stack. -/
  parts : D.map Prod.snd = partsOf img r.stackBytes
  tokens : v'.tokens = v.tokens ∪ { x | x ∈ D.map (partToken owner) }
  maps : v'.maps = v.maps ∪ { m | m ∈ D.map (partMapping as) }
  newTokens : ∀ d ∈ D, ∀ y ∈ v.tokens, y.tok ≠ d.1
  distinct : (D.map Prod.fst).Nodup
  newMaps : ∀ d ∈ D, partMapping as d ∉ v.maps
  disjoint : D.Pairwise fun d e => Disjoint d.2.span e.2.span
  stack : (stackPart r.stackBytes).vaddr + (stackPart r.stackBytes).pages * page = xlbUserTop - page
  perms : ∀ i < segCnt img, (segPart (segAt img i)).perms = UInt32.ofNat (segAt img i).flags
  not_wx : ∀ d ∈ D, ¬ (d.2.perms &&& permW ≠ 0 ∧ d.2.perms &&& permX ≠ 0)
  /-- The file bytes, then zeros. -/
  filled : Filled img v' D
  rights : ∀ d ∈ D, rightsFor d.2.perms &&& d.2.rights = rightsFor d.2.perms

theorem Loaded.programAt {r : XLoadResult} {s : LoadSt σ} (hf : ExbFormat img size)
    (hr : StackOk r.stackBytes) (hD : D.map Prod.snd = partsOf img r.stackBytes)
    (h : Loaded view ok v₀ as owner img D s) : ProgramAt img as owner r v₀ (view s.st) D where
  parts := hD
  tokens := h.at_.holds.tokens
  maps := h.at_.holds.maps
  newTokens := fun d hd => h.at_.holds.fresh _ (List.mem_map_of_mem hd)
  distinct := by
    have hd := h.at_.holds.distinct
    rw [List.map_map] at hd
    exact hd
  newMaps := fun d hd hm => h.at_.holds.empty _ (List.mem_map_of_mem hd) _ hm ⟨rfl, rfl⟩
  disjoint := by
    have hp := partsOf_disjoint hf hr
    rw [← hD, List.pairwise_map] at hp
    exact hp
  stack := stackPart_end hr
  perms := fun i hi => (hf.segs i hi).perms_eq
  not_wx := fun d hd => (partOk_of_mem hf (hD ▸ List.mem_map_of_mem hd)).not_wx
  filled := h.filled
  rights := fun d hd => (partOk_of_mem hf (hD ▸ List.mem_map_of_mem hd)).rights

/-- **Loading is all or nothing**, over every backend that keeps the contract. -/
theorem xloadExb_allOrNothing (hc : Contract be view ok) (as : ℕ) (owner : OwnerId) (img : Bytes)
    (size : ℕ) (info : ExbInfo) (s : σ) (hok : ok s) :
    (∀ r s', (xloadExb be as owner (fun _ => img) size info).run ⟨s, [], []⟩ = (.ok r, s') →
      (∃ D, ProgramAt img as owner r (view s) (view s'.st) D) ∧ r.stackTop = xlbUserTop - page ∧
        Clean view s'.calls) ∧
    (∀ e s', (xloadExb be as owner (fun _ => img) size info).run ⟨s, [], []⟩ = (.error e, s') →
      (view s'.st).tokens = (view s).tokens ∧ (view s'.st).maps = (view s).maps ∧
        Clean view s'.calls) := by
  have hwp := wp_xloadExb hc as owner img size info (s := ⟨s, [], []⟩) hok (by simp [Clean])
  constructor
  · intro r s' hr
    obtain ⟨hf, hstack, htop, D, hD, hl⟩ := hwp.ok hr
    exact ⟨⟨D, hl.programAt hf hstack hD⟩, htop, hl.at_.clean⟩
  · intro e s' hr
    have h := hwp.error hr
    have ht := h.holds.tokens
    have hm := h.holds.maps
    simp only [List.not_mem_nil, Set.ofPred_false, Set.union_empty] at ht hm
    exact ⟨ht, hm, h.clean⟩

/-- In an empty heap the small program is loaded. -/
theorem xloadExb_allOrNothing_tiny :
    ∃ r s', (xloadExb Heap.backend 0 1 (fun _ => tinyImage) 97 zeroOut).run ⟨Heap.empty, [], []⟩ =
      (.ok r, s') ∧
    (∃ D, ProgramAt tinyImage 0 1 r Heap.empty.view s'.st.view D) ∧ r.stackTop = xlbUserTop - page ∧
      Clean Heap.view s'.calls := by
  have h := (xloadExb_allOrNothing Heap.contract 0 1 tinyImage 97 zeroOut Heap.empty
    Heap.ok_empty).1
  have hok : ((xloadExb Heap.backend 0 1 (fun _ => tinyImage) 97 zeroOut).run
    ⟨Heap.empty, [], []⟩).1.isOk = true := by decide +kernel
  generalize (xloadExb Heap.backend 0 1 (fun _ => tinyImage) 97 zeroOut).run ⟨Heap.empty, [], []⟩ =
    x at h hok
  obtain ⟨r | r, s'⟩ := x
  · cases hok
  · exact ⟨r, s', rfl, h r s' rfl⟩

end Load

end Xasmos.Exb
