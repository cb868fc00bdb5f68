import TrieCache.Cache.Writeback
import TrieCache.Proofs.Shed

/-!
# What publishing does

Flushing and retiring go over the pool and clean some of the copies.  Whichever they
choose, the changed ones among them end up in the queue as they are, and no other copy is
touched.
-/

namespace TrieCache

namespace View

/-- Clean the copy in one place if it is chosen, and queue it if it changed. -/
def publishAt (chosen : Nat → Nat → Bool) (view : View) (index : Nat) : View :=
  { view with
    copies := Function.update view.copies index
      ((view.copies index).map fun copy => if chosen index copy.tag then copy.clean else copy)
    queue := view.queue ++
      ((view.copies index).filter fun copy => chosen index copy.tag && copy.dirty).toList.map
        Copy.writeback }

/-- The chosen copies below a place are clean, and those that had changed are queued. -/
structure PublishedBelow (before : View) (chosen : Nat → Nat → Bool) (count : Nat)
    (after : View) : Prop where
  same : after = { before with copies := after.copies, queue := after.queue }
  copies (index : Nat) : after.copies index =
    if index < count then
      (before.copies index).map fun copy => if chosen index copy.tag then copy.clean else copy
    else before.copies index
  queue : ∃ added, after.queue = before.queue ++ added ∧
    ∀ writeback, writeback ∈ added ↔ ∃ index copy, index < count ∧
      before.copies index = some copy ∧ chosen index copy.tag = true ∧ copy.dirty = true ∧
      writeback = copy.writeback
  pending : count ≤ before.frame.capacity → after.pending = before.pending

variable {view before after : View} {chosen : Nat → Nat → Bool}

theorem publishAt_eq_self {index : Nat}
    (clean : ∀ copy, view.copies index = some copy → chosen index copy.tag = true →
      copy.dirty = false) : view.publishAt chosen index = view := by
  have kept : ((view.copies index).map fun copy =>
      if chosen index copy.tag then copy.clean else copy) = view.copies index := by
    cases holds : view.copies index with
    | none => rfl
    | some copy =>
      cases isChosen : chosen index copy.tag with
      | false => simp [isChosen]
      | true =>
        have isClean := clean copy holds isChosen
        simp [isChosen, Copy.clean, ← isClean]
  have none : ((view.copies index).filter fun copy => chosen index copy.tag && copy.dirty) = none := by
    cases holds : view.copies index with
    | none => rfl
    | some copy =>
      cases isChosen : chosen index copy.tag with
      | false => simp [Option.filter, isChosen]
      | true => simp [Option.filter, clean copy holds isChosen]
  unfold publishAt
  rw [kept, none, Function.update_eq_self]
  simp

theorem publishAt_eq_clean {index : Nat} {copy : Copy} (holds : view.copies index = some copy)
    (isChosen : chosen index copy.tag = true) (dirty : copy.dirty = true) :
    view.publishAt chosen index = { view with
      copies := Function.update view.copies index (some copy.clean)
      queue := view.queue ++ [copy.writeback] } := by
  simp [publishAt, holds, isChosen, dirty, Option.filter]

theorem pending_publishAt {index : Nat} (index_lt : index < view.frame.capacity) :
    (view.publishAt chosen index).pending = view.pending := by
  have counted : (view.publishAt chosen index).changed +
      ((view.copies index).any Copy.dirty).toNat = view.changed + _ :=
    changed_of_update index_lt rfl rfl
  rw [View.pending, View.pending, publishAt, List.length_append]
  rw [publishAt] at counted
  cases holds : view.copies index with
  | none =>
    simp only [holds, Option.map_none, Option.any_none, Option.filter_none, Option.toList_none,
      List.map_nil, List.length_nil] at counted ⊢
    omega
  | some copy =>
    cases isChosen : chosen index copy.tag <;> cases dirty : copy.dirty <;>
      simp [holds, isChosen, dirty, Copy.clean, Option.filter] at counted ⊢ <;> omega

namespace PublishedBelow

theorem zero (view : View) (chosen : Nat → Nat → Bool) : view.PublishedBelow chosen 0 view where
  same := rfl
  copies := fun index => rfl
  queue := ⟨[], by simp, by simp⟩
  pending := fun _ => rfl

theorem succ {count : Nat} (below : before.PublishedBelow chosen count after) :
    before.PublishedBelow chosen (count + 1) (after.publishAt chosen count) := by
  have here : after.copies count = before.copies count := by
    rw [below.copies, if_neg (Nat.lt_irrefl _)]
  refine ⟨?_, ?_, ?_, ?_⟩
  · rw [below.same]
    rfl
  · intro index
    by_cases isHere : index = count
    · subst isHere
      rw [if_pos (Nat.lt_succ_self _)]
      simp [publishAt, here]
    · have elsewhere : (after.publishAt chosen count).copies index = after.copies index :=
        Function.update_of_ne isHere _ _
      rw [elsewhere, below.copies]
      have same : index < count ↔ index < count + 1 := by omega
      simp only [same]
  · obtain ⟨added, queue, added_iff⟩ := below.queue
    refine ⟨added ++ ((before.copies count).filter fun copy =>
      chosen count copy.tag && copy.dirty).toList.map Copy.writeback, ?_, fun writeback => ?_⟩
    · rw [publishAt, queue, here, List.append_assoc]
    · rw [List.mem_append, added_iff]
      constructor
      · rintro (⟨index, copy, index_lt, holds, rest⟩ | isNew)
        · exact ⟨index, copy, Nat.lt_succ_of_lt index_lt, holds, rest⟩
        · simp only [List.mem_map, Option.mem_toList, Option.filter_eq_some_iff,
            Bool.and_eq_true] at isNew
          obtain ⟨copy, ⟨holds, isChosen, dirty⟩, same⟩ := isNew
          exact ⟨count, copy, Nat.lt_succ_self _, holds, isChosen, dirty, same.symm⟩
      · rintro ⟨index, copy, index_lt, holds, isChosen, dirty, rfl⟩
        rcases Nat.lt_succ_iff_lt_or_eq.mp index_lt with earlier | rfl
        · exact .inl ⟨index, copy, earlier, holds, isChosen, dirty, rfl⟩
        · refine .inr (List.mem_map_of_mem ?_)
          rw [Option.mem_toList, Option.filter_eq_some_iff]
          exact ⟨holds, by simp [isChosen, dirty]⟩
  · intro count_le
    have pending := below.pending (Nat.le_of_succ_le count_le)
    have frame : after.frame = before.frame := by rw [below.same]
    have count_lt : count < after.frame.capacity := frame ▸ count_le
    exact (pending_publishAt count_lt).trans pending

end PublishedBelow

/-- The chosen copies are clean, and those that had changed are queued. -/
structure Published (before : View) (chosen : Nat → Nat → Bool) (after : View) : Prop where
  same : after = { before with copies := after.copies, queue := after.queue }
  copies (index : Nat) : after.copies index =
    (before.copies index).map fun copy => if chosen index copy.tag then copy.clean else copy
  queue : ∃ added, after.queue = before.queue ++ added ∧
    ∀ writeback, writeback ∈ added ↔ ∃ index copy, before.copies index = some copy ∧
      chosen index copy.tag = true ∧ copy.dirty = true ∧ writeback = copy.writeback
  pending : after.pending = before.pending

theorem PublishedBelow.published
    (below : before.PublishedBelow chosen before.frame.capacity after)
    (bounded : ∀ index copy, before.copies index = some copy → index < before.frame.capacity) :
    before.Published chosen after where
  same := below.same
  copies := by
    intro index
    rw [below.copies]
    split
    · rfl
    next outside =>
      cases holds : before.copies index with
      | none => rfl
      | some copy => exact absurd (bounded index copy holds) outside
  queue := by
    obtain ⟨added, queue, added_iff⟩ := below.queue
    refine ⟨added, queue, fun writeback => (added_iff writeback).trans ?_⟩
    refine exists_congr fun index => exists_congr fun copy => ?_
    exact ⟨fun ⟨_, rest⟩ => rest, fun rest => ⟨bounded index copy rest.1, rest⟩⟩
  pending := below.pending le_rfl

end View

namespace Cache

variable {cache : Cache} {index : Nat} {block : Block}

theorem copies_of_block (found : cache.pool.blocks[index]? = some block) :
    cache.view.copies index = block.copy? cache.layout.depth :=
  Pool.look_of_block found _

theorem isLeaf_iff : cache.isLeaf block = true ↔
    block.valid = true ∧ block.level = cache.layout.depth := by
  rw [isLeaf, Bool.and_eq_true, beq_iff_eq]

theorem clean_spec (tidy : cache.Tidy) (found : cache.pool.blocks[index]? = some block)
    (leaf : cache.isLeaf block = true) :
    ∃ copy, cache.view.copies index = some copy ∧ copy.tag = block.tag ∧
      copy.dirty = block.dirty ∧ (cache.clean index block).Tidy ∧
      (cache.clean index block).view = { cache.view with
        copies := Function.update cache.view.copies index (some copy.clean)
        queue := cache.view.queue ++ [copy.writeback] } := by
  obtain ⟨valid, level⟩ := isLeaf_iff.mp leaf
  obtain ⟨bytes, payload, size⟩ := tidy.data_of_leaf found valid level
  have isBytes : block.bytes? = some bytes := by rw [Block.bytes?, payload]
  have holds : cache.view.copies index =
      some { tag := block.tag, bytes, dirty := block.dirty } := by
    rw [copies_of_block found, Block.copy?, if_pos ⟨valid, level⟩, isBytes]
    rfl
  let queued := cache.queueWriteback block.tag bytes
  have tidy_queued : queued.Tidy := ⟨tidy.hand_lt, tidy.shaped, tidy.bounded, tidy.recorded⟩
  have cleaned : cache.clean index block = { queued with
      pool := queued.pool.modify index fun block => { block with dirty := false } } := by
    simp only [clean, isBytes]
    rfl
  refine ⟨_, holds, rfl, rfl, ?_, ?_⟩
  · rw [cleaned]
    refine tidy_queued.modify (fun block' found' _ => ?_) fun _ bound => bound
    cases found.symm.trans found'
    exact .leaf valid level bytes payload size
  · have changed : ({ block with dirty := false } : Block) =
        { block with payload := .data bytes, dirty := false } := by rw [payload]
    have found' : queued.pool.blocks[index]? = some block := found
    rw [cleaned, view_modify_leaf found' valid level payload changed, view_queueWriteback]
    rfl

theorem publishBlock_spec (tidy : cache.Tidy) (found : cache.pool.blocks[index]? = some block)
    (chosen : Nat → Nat → Bool) {after : Cache}
    (after_eq : after = if cache.isLeaf block && (chosen index block.tag && block.dirty) then
      cache.clean index block else cache) :
    after.Tidy ∧ after.view = cache.view.publishAt chosen index := by
  cases leaf : cache.isLeaf block with
  | false =>
    have none : cache.view.copies index = none := by
      rw [copies_of_block found, Block.copy?, if_neg]
      rw [← isLeaf_iff, leaf]
      simp
    rw [leaf, Bool.false_and, if_neg (by simp)] at after_eq
    subst after_eq
    refine ⟨tidy, (View.publishAt_eq_self fun copy holds => ?_).symm⟩
    rw [none] at holds
    cases holds
  | true =>
    obtain ⟨copy, holds, sameTag, sameDirty, tidy', view⟩ := clean_spec tidy found leaf
    rw [leaf, Bool.true_and, ← sameTag, ← sameDirty] at after_eq
    split at after_eq
    next cleans =>
      subst after_eq
      obtain ⟨isChosen, dirty⟩ := Bool.and_eq_true_iff.mp cleans
      exact ⟨tidy', view.trans (View.publishAt_eq_clean holds isChosen dirty).symm⟩
    next keeps =>
      subst after_eq
      refine ⟨tidy, (View.publishAt_eq_self fun copy' holds' isChosen => ?_).symm⟩
      cases holds.symm.trans holds'
      simpa [isChosen] using keeps

theorem publishBlock_of_none (none : cache.pool.blocks[index]? = none)
    (chosen : Nat → Nat → Bool) : cache.view = cache.view.publishAt chosen index := by
  refine (View.publishAt_eq_self fun copy holds => ?_).symm
  obtain ⟨block, found, _⟩ := Pool.look_eq_some_iff.mp holds
  rw [none] at found
  cases found

theorem flushBlock_spec (tidy : cache.Tidy) (flushed index : Nat) :
    (cache.flushBlock flushed index).2.Tidy ∧
      (cache.flushBlock flushed index).2.view = cache.view.publishAt (fun _ _ => true) index := by
  unfold flushBlock
  cases found : cache.pool.blocks[index]? with
  | none => exact ⟨tidy, publishBlock_of_none found _⟩
  | some block =>
    refine publishBlock_spec tidy found _ ?_
    dsimp only
    rw [Bool.true_and]
    split <;> rfl

/-- The copies of a block that are cleaned before it is fetched again. -/
def stale (tag : Nat) (live : Option Nat) (index other : Nat) : Bool :=
  live != some index && other == tag

theorem retireBlock_spec (tidy : cache.Tidy) (tag : Nat) (live : Option Nat)
    (retired index : Nat) :
    (cache.retireBlock tag live retired index).2.Tidy ∧
      (cache.retireBlock tag live retired index).2.view =
        cache.view.publishAt (stale tag live) index := by
  unfold retireBlock
  cases found : cache.pool.blocks[index]? with
  | none => exact ⟨tidy, publishBlock_of_none found _⟩
  | some block =>
    refine publishBlock_spec tidy found _ ?_
    dsimp only [stale]
    cases leaf : cache.isLeaf block <;> cases dirty : block.dirty <;>
      by_cases isLive : live = some index <;> by_cases isTag : block.tag = tag <;>
      simp [isLive, isTag]

theorem publish_spec (tidy : cache.Tidy) {chosen : Nat → Nat → Bool}
    (visit : Nat × Cache → Nat → Nat × Cache)
    (visits : ∀ state : Nat × Cache, ∀ index, state.2.Tidy →
      (visit state index).2.Tidy ∧ (visit state index).2.view = state.2.view.publishAt chosen index) :
    ((List.range cache.pool.capacity).foldl visit (0, cache)).2.Tidy ∧
      cache.view.Published chosen
        ((List.range cache.pool.capacity).foldl visit (0, cache)).2.view := by
  have below : ∀ count, ((List.range count).foldl visit (0, cache)).2.Tidy ∧
      cache.view.PublishedBelow chosen count
        ((List.range count).foldl visit (0, cache)).2.view := by
    intro count
    induction count with
    | zero => exact ⟨tidy, .zero _ _⟩
    | succ count ih =>
      rw [List.range_succ, List.foldl_append]
      obtain ⟨tidy', view⟩ := visits ((List.range count).foldl visit (0, cache)) count ih.1
      refine ⟨tidy', ?_⟩
      change cache.view.PublishedBelow chosen (count + 1) (visit _ count).2.view
      rw [view]
      exact ih.2.succ
  have whole := below cache.pool.capacity
  exact ⟨whole.1, View.PublishedBelow.published whole.2 fun _ _ holds => lt_capacity_of_copy holds⟩

theorem flushDirty_spec (tidy : cache.Tidy) :
    cache.flushDirty.2.Tidy ∧ cache.view.Published (fun _ _ => true) cache.flushDirty.2.view :=
  publish_spec tidy _ fun _ _ tidy => flushBlock_spec tidy _ _

/-- A retirement cleans the copies of a block that the fast path does not lead to. -/
theorem retireStale_spec (tidy : cache.Tidy) {address : Address}
    (isTag : cache.layout.tag address = .ok (cache.layout.blockOf address)) :
    ∃ result, cache.retireStale address = .ok result ∧ result.2.Tidy ∧
      cache.view.Published
        (stale (cache.layout.blockOf address)
          (cache.view.shortcut (cache.layout.blockOf address))) result.2.view := by
  have published := publish_spec tidy
    (fun progress index => progress.2.retireBlock (cache.layout.blockOf address)
      (cache.fastPath.lookup (cache.layout.blockOf address)) progress.1 index)
    fun _ _ tidy => retireBlock_spec tidy _ _ _ _
  refine ⟨_, ?_, published⟩
  rw [retireStale, isTag, ok_bind]
  rfl

theorem clean_of_stale {before after : View} {tag : Nat}
    (published : before.Published (stale tag none) after) {index : Nat} {copy : Copy}
    (holds : after.copies index = some copy) (tagged : copy.tag = tag) : copy.dirty = false := by
  rw [published.copies, Option.map_eq_some_iff] at holds
  obtain ⟨copy', _, rfl⟩ := holds
  by_cases isTag : copy'.tag = tag
  · simp [stale, isTag, Copy.clean]
  · simp [stale, isTag] at tagged

theorem setLocked_spec (tidy : cache.Tidy) (index : Nat) (locked : Bool) :
    Ends (cache.setLocked index locked)
      (fun after => after.Tidy ∧ index < cache.pool.capacity ∧ after.view = { cache.view with
        locked := Function.update cache.view.locked index (some locked) })
      (fun _ => cache.pool.capacity ≤ index) := by
  unfold setLocked updateBlock
  split
  next index_lt =>
    obtain ⟨block, found⟩ := Pool.exists_block index_lt
    refine ⟨tidy.modify (fun _ _ shaped => shaped.congr rfl rfl rfl rfl) fun _ bound => bound,
      index_lt, ?_⟩
    have node : ({ block with locked } : Block).node? = cache.trie.node index :=
      (node_of_block found).symm
    have copy : ({ block with locked } : Block).copy? cache.layout.depth =
        cache.view.copies index :=
      (copies_of_block found).symm
    rw [view_modify found, node, copy, Function.update_eq_self, Function.update_eq_self]
    rfl
  next outside => exact Nat.le_of_not_lt outside

end Cache

end TrieCache
