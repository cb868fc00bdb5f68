import Mathlib.Logic.Function.Basic
import TrieCache.Backed
import TrieCache.Proofs.Outcome

/-!
# What a store was asked for

A store that serves every request is a flat memory of blocks.  A stretch of requests that
were served is described by the number of fetches and the list of blocks written back;
both decide what the store holds afterwards.
-/

namespace TrieCache

/-- The blocks of a flat memory, by tag. -/
abbrev Blocks := Nat → Array UInt8

namespace Blocks

def receive (blocks : Blocks) : List Writeback → Blocks
  | [] => blocks
  | block :: rest => receive (Function.update blocks block.tag block.bytes) rest

/-- A block that was taken over as it should be is there afterwards, and others stay. -/
theorem receive_eq {blocks flat : Blocks} {issued : List Writeback} {tag : Nat}
    (current : ∀ block ∈ issued, block.bytes = flat block.tag)
    (covered : blocks tag = flat tag ∨ ∃ block ∈ issued, block.tag = tag) :
    blocks.receive issued tag = flat tag := by
  induction issued generalizing blocks with
  | nil =>
    rcases covered with held | ⟨_, nothing, _⟩
    · exact held
    · cases nothing
  | cons first rest ih =>
    refine ih (fun block isRest => current block (List.mem_cons_of_mem _ isRest)) ?_
    by_cases here : tag = first.tag
    · subst here
      rw [Function.update_self]
      exact .inl (current first List.mem_cons_self)
    · rw [Function.update_of_ne here]
      rcases covered with held | ⟨block, isIssued, tagged⟩
      · exact .inl held
      · rcases List.mem_cons.mp isIssued with rfl | isRest
        · exact absurd tagged.symm here
        · exact .inr ⟨block, isRest, tagged⟩

theorem receive_congr {blocks blocks' : Blocks} {tag : Nat} (same : blocks tag = blocks' tag)
    (issued : List Writeback) : blocks.receive issued tag = blocks'.receive issued tag := by
  induction issued generalizing blocks blocks' with
  | nil => exact same
  | cons first rest ih =>
    refine ih ?_
    by_cases here : tag = first.tag
    · rw [here, Function.update_self, Function.update_self]
    · rw [Function.update_of_ne here, Function.update_of_ne here, same]

theorem receive_of_forall_ne (blocks : Blocks) {issued : List Writeback} {tag : Nat}
    (others : ∀ block ∈ issued, block.tag ≠ tag) : blocks.receive issued tag = blocks tag := by
  induction issued generalizing blocks with
  | nil => rfl
  | cons first rest ih =>
    refine (ih _ fun block isRest => others block (List.mem_cons_of_mem _ isRest)).trans ?_
    exact Function.update_of_ne (others first List.mem_cons_self).symm _ _

end Blocks

namespace BlockStore

variable {σ : Type} [BlockStore σ]

/-- In its good states a store is a flat memory: it refuses no request, and one that it
answers has the effect of the request on the memory. -/
structure Serves (good : σ → Prop) (contents : σ → Blocks) : Prop where
  fetch {store after : σ} {tag : Nat} {outcome : StoreReply (Array UInt8)} : good store →
    fetchBlock store tag = .ok (outcome, after) →
      outcome = .ok (contents store tag) ∧ good after ∧ blockSize after = blockSize store ∧
        contents after = contents store
  writeback {store after : σ} {tag : Nat} {bytes : Array UInt8} {outcome : StoreReply Unit} :
    good store → writebackBlock store tag bytes = .ok (outcome, after) →
      outcome = .ok () ∧ good after ∧ blockSize after = blockSize store ∧
        contents after = Function.update (contents store) tag bytes

/-- In its good states a store has the blocks that it took back, and hands out what it has or
nothing.  What a refused writeback does is left open. -/
structure Remembers (good : σ → Prop) (contents : σ → Blocks) : Prop where
  fetch {store after : σ} {tag : Nat} {outcome : StoreReply (Array UInt8)} : good store →
    fetchBlock store tag = .ok (outcome, after) →
      good after ∧ blockSize after = blockSize store ∧ contents after = contents store ∧
        ∀ bytes, outcome = .ok bytes → bytes = contents store tag
  writeback {store after : σ} {tag : Nat} {bytes : Array UInt8} : good store →
    writebackBlock store tag bytes = .ok (.ok (), after) →
      good after ∧ blockSize after = blockSize store ∧
        contents after = Function.update (contents store) tag bytes

/-- Requests were served: so many fetches, and these writebacks in turn. -/
inductive Supplied : (store : σ) → (fetched : Nat) → (issued : List Writeback) → (after : σ) → Prop
  | none {store : σ} : Supplied store 0 [] store
  | fetch {store middle after : σ} {fetched tag : Nat} {issued : List Writeback}
      {bytes : Array UInt8} (served : fetchBlock store tag = .ok (.ok bytes, middle))
      (rest : Supplied middle fetched issued after) : Supplied store (fetched + 1) issued after
  | writeback {store middle after : σ} {fetched : Nat} {block : Writeback}
      {issued : List Writeback}
      (served : writebackBlock store block.tag block.bytes = .ok (.ok (), middle))
      (rest : Supplied middle fetched issued after) :
      Supplied store fetched (block :: issued) after

/-- After requests that were served the store faults, within a number of fetches and one of
writebacks. -/
def Breaks (store : σ) (fetches writebacks : Nat) (fault : Fault) : Prop :=
  ∃ fetched issued middle, Supplied store fetched issued middle ∧
    ((∃ tag, fetchBlock middle tag = .error fault ∧ fetched < fetches ∧
        issued.length ≤ writebacks) ∨
      ∃ tag bytes, writebackBlock middle tag bytes = .error fault ∧
        bytes.size = blockSize middle ∧ fetched ≤ fetches ∧ issued.length < writebacks)

variable {store middle after : σ} {fetched fetched' : Nat} {issued issued' : List Writeback}
  {good : σ → Prop} {contents : σ → Blocks}

theorem Supplied.trans (first : Supplied store fetched issued middle)
    (second : Supplied middle fetched' issued' after) :
    Supplied store (fetched' + fetched) (issued ++ issued') after := by
  induction first with
  | none => exact second
  | fetch served rest ih => exact .fetch served (ih second)
  | writeback served rest ih => exact .writeback served (ih second)

theorem Serves.remembers (serves : Serves good contents) : Remembers good contents where
  fetch := by
    intro store after tag outcome isGood served
    obtain ⟨rfl, isGood', size, same⟩ := serves.fetch isGood served
    exact ⟨isGood', size, same, fun bytes isBytes => (Except.ok.inj isBytes).symm⟩
  writeback := fun isGood served => (serves.writeback isGood served).2

theorem Supplied.received (remembers : Remembers good contents) (isGood : good store)
    (supplied : Supplied store fetched issued after) :
    good after ∧ blockSize after = blockSize store ∧
      contents after = (contents store).receive issued := by
  induction supplied with
  | none => exact ⟨isGood, rfl, rfl⟩
  | fetch served rest ih =>
    obtain ⟨isGood', size, same, _⟩ := remembers.fetch isGood served
    obtain ⟨isGood'', size', received⟩ := ih isGood'
    exact ⟨isGood'', size'.trans size, received.trans (congrArg (Blocks.receive · _) same)⟩
  | writeback served rest ih =>
    obtain ⟨isGood', size, same⟩ := remembers.writeback isGood served
    obtain ⟨isGood'', size', received⟩ := ih isGood'
    exact ⟨isGood'', size'.trans size, received.trans (congrArg (Blocks.receive · _) same)⟩

theorem Supplied.spec (serves : Serves good contents) (isGood : good store)
    (supplied : Supplied store fetched issued after) :
    good after ∧ blockSize after = blockSize store ∧
      contents after = (contents store).receive issued :=
  supplied.received serves.remembers isGood

theorem Breaks.mono {fetches fetches' writebacks writebacks' : Nat} {fault : Fault}
    (breaks : Breaks store fetches writebacks fault) (fetches_le : fetches ≤ fetches')
    (writebacks_le : writebacks ≤ writebacks') : Breaks store fetches' writebacks' fault := by
  obtain ⟨fetched, issued, middle, supplied, ⟨tag, failed, few, fewer⟩ |
    ⟨tag, bytes, failed, size, few, fewer⟩⟩ := breaks
  · exact ⟨fetched, issued, middle, supplied, .inl ⟨tag, failed, by omega, by omega⟩⟩
  · exact ⟨fetched, issued, middle, supplied, .inr ⟨tag, bytes, failed, size, by omega, by omega⟩⟩

theorem Breaks.before {fetches writebacks : Nat} {fault : Fault}
    (supplied : Supplied store fetched issued middle)
    (breaks : Breaks middle fetches writebacks fault) :
    Breaks store (fetched + fetches) (issued.length + writebacks) fault := by
  obtain ⟨fetched', issued', last, supplied', ⟨tag, failed, few, fewer⟩ |
    ⟨tag, bytes, failed, size, few, fewer⟩⟩ := breaks
  · refine ⟨_, _, last, supplied.trans supplied', .inl ⟨tag, failed, by omega, ?_⟩⟩
    rw [List.length_append]
    omega
  · refine ⟨_, _, last, supplied.trans supplied', .inr ⟨tag, bytes, failed, size, by omega, ?_⟩⟩
    rw [List.length_append]
    omega

theorem size_of_fetchBlock {tag : Nat} {bytes : Array UInt8}
    (served : fetchBlock store tag = .ok (.ok bytes, after)) : bytes.size = blockSize after := by
  obtain ⟨⟨outcome, middle⟩, _, served⟩ := bind_eq_ok_iff.mp served
  cases outcome with
  | error error => cases served
  | ok found =>
    dsimp only at served
    split at served
    next whole =>
      cases served
      exact whole
    next => cases served

theorem fetchBlock_outcome (serves : Serves good contents) (isGood : good store) (tag : Nat) :
    Ends (fetchBlock store tag)
      (fun (outcome, after) => outcome = .ok (contents store tag) ∧ Supplied store 1 [] after ∧
        (contents store tag).size = blockSize store)
      (Breaks store 1 0) := by
  cases served : fetchBlock store tag with
  | error fault => exact ⟨0, [], store, .none, .inl ⟨tag, served, Nat.one_pos, Nat.le_refl _⟩⟩
  | ok result =>
    obtain ⟨outcome, after⟩ := result
    obtain ⟨rfl, _, size, _⟩ := serves.fetch isGood served
    exact ⟨rfl, .fetch served .none, (size_of_fetchBlock served).trans size⟩

end BlockStore

namespace BackedCache

open BlockStore

variable {σ : Type} [BlockStore σ] {good : σ → Prop} {contents : σ → Blocks}

theorem sendAll_outcome (serves : Serves good contents) {store : σ} (isGood : good store)
    {queue : List Writeback} (whole : ∀ block ∈ queue, block.bytes.size = blockSize store) :
    Ends (sendAll store queue)
      (fun (outcome, after) => outcome = .ok () ∧ Supplied store 0 queue after)
      (Breaks store 0 queue.length) := by
  induction queue generalizing store with
  | nil => exact ⟨rfl, .none⟩
  | cons block rest ih =>
    rw [sendAll]
    cases served : writebackBlock store block.tag block.bytes with
    | error fault =>
      exact ⟨0, [], store, .none, .inr ⟨_, _, served, whole block List.mem_cons_self,
        Nat.le_refl _, Nat.succ_pos _⟩⟩
    | ok result =>
      obtain ⟨outcome, middle⟩ := result
      obtain ⟨rfl, isGood', size, _⟩ := serves.writeback isGood served
      have whole' : ∀ other ∈ rest, other.bytes.size = blockSize middle :=
        fun other isRest => (whole other (List.mem_cons_of_mem _ isRest)).trans size.symm
      have first : Supplied store 0 [block] middle := .writeback served .none
      refine (ih isGood' whole').mono ?_ fun fault breaks => ?_
      · rintro ⟨outcome, after⟩ ⟨sent, supplied⟩
        exact ⟨sent, first.trans supplied⟩
      · refine (Breaks.before first breaks).mono (Nat.le_refl _) ?_
        simp only [List.length_cons, List.length_nil]
        omega

theorem drain_outcome (serves : Serves good contents) {backed : BackedCache σ}
    (isGood : good backed.store) (whole : ∀ block ∈ backed.cache.writebacks.toList,
      block.bytes.size = blockSize backed.store) :
    Ends backed.drain
      (fun (outcome, after) => outcome = .ok () ∧
        after.cache = { backed.cache with writebacks := #[] } ∧
        Supplied backed.store 0 backed.cache.writebacks.toList after.store)
      (Breaks backed.store 0 backed.cache.writebacks.toList.length) := by
  refine Ends.bind (sendAll_outcome serves isGood whole) ?_
  rintro ⟨outcome, store⟩ ⟨rfl, supplied⟩
  exact ⟨rfl, rfl, supplied⟩

theorem drain_of_idle {backed : BackedCache σ} (idle : backed.cache.writebacks = #[]) :
    backed.drain = .ok (.ok (), backed) := by
  have emptied : backed.cache.drainWritebacks = (#[], backed.cache) := by
    rw [Cache.drainWritebacks, idle]
    exact congrArg (fun writebacks => (#[], { backed.cache with writebacks })) idle.symm
  rw [drain, emptied]
  rfl

end BackedCache

end TrieCache
