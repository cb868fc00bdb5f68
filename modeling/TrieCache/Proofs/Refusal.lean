import TrieCache.Proofs.Backed
import TrieCache.Proofs.Memory
import TrieCache.Store.Flaky

/-!
# Stores that refuse writebacks

A store that hands out every block may still refuse to take one back.  The queue is then
dropped from the refused block on, and the store keeps what it had of those blocks.  All
other blocks end up in the store as if it had refused nothing.
-/

namespace TrieCache

namespace BlockStore

variable {σ : Type} [BlockStore σ]

/-- In its good states a store hands out every block as a flat memory does, and takes blocks
back as one does or refuses them.  What a refusal does to the refused block is left open. -/
structure HandsOut (good : σ → Prop) (contents : σ → Blocks) : Prop where
  fetch {store after : σ} {tag : Nat} {outcome : StoreReply (Array UInt8)} : good store →
    fetchBlock store tag = .ok (outcome, after) →
      outcome = .ok (contents store tag) ∧ good after ∧ blockSize after = blockSize store ∧
        contents after = contents store
  writeback {store after : σ} {tag : Nat} {bytes : Array UInt8} {outcome : StoreReply Unit} :
    good store → writebackBlock store tag bytes = .ok (outcome, after) →
      good after ∧ blockSize after = blockSize store ∧
        (∀ other, other ≠ tag → contents after other = contents store other) ∧
        (outcome = .ok () → contents after tag = bytes)

/-- The blocks of a queue that the store does not get: the first that it refuses, and all
behind it. -/
def unsent (store : σ) : List Writeback → List Writeback
  | [] => []
  | block :: rest =>
    match writebackBlock store block.tag block.bytes with
    | .ok (.ok (), after) => unsent after rest
    | _ => block :: rest

end BlockStore

namespace FlakyMemory

open BlockStore

/-- Nothing is wrong with the memory but that it refuses some writebacks. -/
structure Readable (flaky : FlakyMemory) : Prop where
  whole : flaky.memory.Whole
  unfetchable : flaky.unfetchable = []
  resized : flaky.resized = []

def contents (flaky : FlakyMemory) : Blocks :=
  flaky.memory.contents

/-- An empty memory that refuses to take some blocks back. -/
def refusing (blockSize : Nat) (unwritable : List Nat) : FlakyMemory where
  memory := { blockSize }
  unwritable := unwritable

theorem readable_refusing (blockSize : Nat) (unwritable : List Nat) :
    (refusing blockSize unwritable).Readable where
  whole := Memory.whole_of_empty blockSize
  unfetchable := rfl
  resized := rfl

theorem Readable.fetchBlock_eq {flaky after : FlakyMemory} (readable : flaky.Readable) {tag : Nat}
    {outcome : StoreReply (Array UInt8)} (served : fetchBlock flaky tag = .ok (outcome, after)) :
    outcome = .ok (flaky.contents tag) ∧
      after = { flaky with memory := { flaky.memory with fetches := flaky.memory.fetches + 1 } } := by
  obtain ⟨memory, unfetchable, unwritable, resized⟩ := flaky
  obtain ⟨whole, isFetchable, isSized⟩ := readable
  subst isFetchable isSized
  obtain ⟨⟨found, after'⟩, fetched, served⟩ := bind_eq_ok_iff.mp served
  obtain ⟨⟨bytes, memory'⟩, counted, fetched⟩ := bind_eq_ok_iff.mp fetched
  obtain ⟨rfl, rfl⟩ := (Memory.fetch_outcome memory tag).of_eq_ok counted
  cases fetched
  dsimp only at served
  split at served
  next size =>
    cases served
    exact ⟨rfl, rfl⟩
  next partly => exact absurd (whole.size_contents tag) partly

theorem handsOut : HandsOut Readable contents where
  fetch := by
    intro store after tag outcome isGood served
    obtain ⟨answer, rfl⟩ := isGood.fetchBlock_eq served
    exact ⟨answer, ⟨isGood.whole, isGood.unfetchable, isGood.resized⟩, rfl, rfl⟩
  writeback := by
    intro store after tag bytes outcome isGood served
    rw [writebackBlock] at served
    split at served
    next size =>
      change store.writeback tag bytes = _ at served
      rw [FlakyMemory.writeback] at served
      split at served
      next refused =>
        cases served
        refine ⟨isGood, rfl, fun _ _ => rfl, fun answer => ?_⟩
        cases answer
      next taken =>
        obtain ⟨memory, counted, served⟩ := bind_eq_ok_iff.mp served
        obtain rfl := (Memory.writeback_outcome store.memory tag bytes).of_eq_ok counted
        cases served
        refine ⟨⟨isGood.whole.insert size _ _, isGood.unfetchable, isGood.resized⟩, rfl,
          fun other distinct => ?_, fun _ => ?_⟩
        · exact (congrFun (Memory.contents_insert _ _ _ _) other).trans
            (Function.update_of_ne distinct _ _)
        · exact (congrFun (Memory.contents_insert _ _ _ _) tag).trans (Function.update_self _ _ _)
    next partly => cases served

end FlakyMemory

namespace BackedCache

open BlockStore

variable {σ : Type} [BlockStore σ] {good : σ → Prop} {contents : σ → Blocks}

/-- A block that is sent, or not in the queue, is in the store as if nothing were refused. -/
theorem sendAll_spec (handsOut : HandsOut good contents) {store after : σ}
    {queue : List Writeback} {outcome : StoreReply Unit} (isGood : good store)
    (ran : sendAll store queue = .ok (outcome, after)) :
    good after ∧ blockSize after = blockSize store ∧
      ∀ tag, (outcome = .ok () ∨ ∀ block ∈ unsent store queue, block.tag ≠ tag) →
        contents after tag = (contents store).receive queue tag := by
  induction queue generalizing store with
  | nil =>
    cases ran
    exact ⟨isGood, rfl, fun _ _ => rfl⟩
  | cons block rest ih =>
    obtain ⟨⟨taken, middle⟩, served, ran⟩ := bind_eq_ok_iff.mp ran
    obtain ⟨isGood', size, others, self⟩ := handsOut.writeback isGood served
    cases taken with
    | error error =>
      cases ran
      refine ⟨isGood', size, fun tag spared => ?_⟩
      have apart : ∀ other ∈ block :: rest, other.tag ≠ tag := by
        rcases spared with impossible | spared
        · cases impossible
        · simpa only [unsent, served] using spared
      rw [Blocks.receive_of_forall_ne _ apart]
      exact others tag (apart block List.mem_cons_self).symm
    | ok =>
      obtain ⟨isGood'', size', received⟩ := ih isGood' ran
      refine ⟨isGood'', size'.trans size, fun tag spared => ?_⟩
      have step : contents middle = Function.update (contents store) block.tag block.bytes := by
        refine Function.eq_update_iff.mpr ⟨self rfl, fun other distinct => others other distinct⟩
      rw [received tag (by simpa only [unsent, served] using spared), step]
      rfl

/-- The blocks that are lost when the queue is sent. -/
def shed (backed : BackedCache σ) : List Nat :=
  (unsent backed.store backed.cache.writebacks.toList).map Writeback.tag

variable {flat ghost : Blocks} {backed after : BackedCache σ}

/-- A cache stays before the `ghost` of a store that refuses nothing.  The store itself agrees
with its ghost on every block that is not shed. -/
theorem Faithful.drained (faithful : Faithful good (fun _ => ghost) flat backed)
    (handsOut : HandsOut good contents) {outcome : BackedReply Unit}
    (ran : backed.drain = .ok (outcome, after)) :
    Faithful good (fun _ => ghost.receive backed.cache.view.queue) flat after ∧
      after.cache.view = { backed.cache.view with queue := [] } ∧
      ∀ tag, (outcome = .ok () ∨ tag ∉ backed.shed) → contents backed.store tag = ghost tag →
        contents after.store tag = ghost.receive backed.cache.view.queue tag := by
  obtain ⟨⟨taken, store⟩, sent, ran⟩ := bind_eq_ok_iff.mp ran
  obtain ⟨isGood, size, received⟩ := sendAll_spec handsOut faithful.good sent
  cases ran
  refine ⟨faithful.sent isGood size rfl, rfl, fun tag spared stored => ?_⟩
  have spared' : taken = .ok () ∨
      ∀ block ∈ unsent backed.store backed.cache.writebacks.toList, block.tag ≠ tag := by
    refine spared.imp (fun answer => ?_) fun kept block isUnsent tagged => ?_
    · cases taken with
      | error error => cases answer
      | ok => rfl
    · exact kept (List.mem_map.mpr ⟨block, isUnsent, tagged⟩)
  exact (received tag spared').trans (Blocks.receive_congr stored _)

/-- A missing block may be another one in the memory when it is the same other one in the
store. -/
theorem Missing.replaced {address : Address}
    (missing : Missing good (fun _ => ghost) flat address backed) (bytes : Array UInt8) :
    Missing good (fun _ => Function.update ghost (backed.cache.layout.blockOf address) bytes)
      (Function.update flat (backed.cache.layout.blockOf address) bytes) address backed where
  faithful := { missing.faithful with
    coherent := missing.faithful.coherent.replaced missing.idle missing.unresolved missing.clean
      bytes }
  idle := missing.idle
  unresolved := missing.unresolved
  clean := missing.clean

end BackedCache

end TrieCache
