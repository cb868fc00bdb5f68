import Mathlib.Data.List.Perm.Subperm
import TrieCache.Cache.Insert
import TrieCache.Proofs.Building

/-!
# Building the way to a block

An insertion builds the missing levels top down.  It hangs each new block in the free
slot under the one before, and takes it from outside the way down, which is pinned.  So
the way only ever grows, until the last slot of it is free and a block is there to be the
leaf.
-/

namespace TrieCache

namespace View

def unlocked (view : View) : Nat :=
  ((List.range view.frame.capacity).filter fun index => view.locked index == some false).length

/-- The way to a block is there down to a level, and ends above a free slot. -/
structure Anchored (view : View) (tag level : Nat) (parent : Option Nat) (pinned : List Nat) :
    Prop where
  route : view.trie.Route (view.frame.layout.slots tag level) parent
  free : view.trie.link parent (view.frame.layout.slot tag (level + 1)) = none
  absent : view.shortcut tag = none
  /-- The blocks of the way are pinned. -/
  guarded {above : List Nat} {index : Nat} : above <:+ view.frame.layout.slots tag level →
    view.trie.Route above (some index) → index ∈ pinned
  few : pinned.length ≤ level

/-- The last slot of the way to a block is free, and so is a block to be its leaf. -/
structure Vacancy (view : View) (tag : Nat) (owner : Option Nat) (slot leaf : Nat) : Prop where
  sound : view.Sound
  fits (former : Nat) : view.trie.Fits owner slot leaf
    (Node.blank view.frame.layout.depth former (owner.getD slot))
  reached : ∃ above, view.trie.Route above owner ∧ slot :: above = view.path tag
  absent : view.shortcut tag = none
  unheld : view.copies leaf = none
  leaf_lt : leaf < view.frame.capacity

namespace Anchored

variable {view : View} {tag level victim : Nat} {parent : Option Nat} {pinned children : List Nat}
  (anchored : view.Anchored tag level parent pinned)
include anchored

theorem parent_ne (fresh : victim ∉ pinned) : parent ≠ some victim := by
  rintro rfl
  exact fresh (anchored.guarded List.suffix_rfl anchored.route)

theorem route_detach (fresh : victim ∉ pinned) :
    (view.trie.detach victim children).Route (view.frame.layout.slots tag level) parent :=
  anchored.route.detach fun _ suffix route => fresh (anchored.guarded suffix route)

theorem fits (sound : view.Sound) (fresh : victim ∉ pinned) (former : Nat) :
    (view.remove victim children).trie.Fits parent (view.frame.layout.slot tag (level + 1)) victim
      (Node.blank (level + 1) former (parent.getD (view.frame.layout.slot tag (level + 1)))) where
  vacant := by
    change (view.trie.detach victim children).node victim = none
    by_contra present
    obtain ⟨node, isNode⟩ := Option.ne_none_iff_exists'.mp present
    exact (Trie.node_detach_eq_some_iff.mp isNode).1 rfl
  free := by
    change (view.trie.detach victim children).link parent _ = none
    by_contra present
    obtain ⟨index, leads⟩ := Option.ne_none_iff_exists'.mp present
    have leads' := (Trie.link_detach_eq_some_iff.mp leads).2.2
    rw [anchored.free] at leads'
    cases leads'
  attached := rfl
  blank _ := rfl
  hangs := by
    have route := anchored.route
    have parent_ne := anchored.parent_ne fresh
    cases parent with
    | none =>
      have length := congrArg List.length route.eq_nil
      rw [Layout.length_slots] at length
      exact ⟨congrArg Nat.succ length, rfl⟩
    | some table =>
      obtain ⟨node, isNode, _, isLevel⟩ := sound.linked.node_of_route route
      rw [Layout.length_slots] at isLevel
      refine ⟨rfl, _, Trie.node_detach_eq_some_iff.mpr ⟨?_, node, isNode, rfl⟩, ?_⟩
      · rintro rfl
        exact parent_ne rfl
      · exact congrArg Nat.succ isLevel.symm

theorem vacancy (sound : view.Sound) (fresh : victim ∉ pinned)
    (areChildren : ∀ index, index ∈ children ↔
      ∃ slot, view.trie.link (some victim) slot = some index)
    (victim_lt : victim < view.frame.capacity) (isLast : level + 1 = view.frame.layout.depth) :
    (view.remove victim children).Vacancy tag parent (view.frame.layout.slot tag (level + 1))
      victim where
  sound := sound.remove areChildren
  fits := by
    intro former
    have fits : (view.remove victim children).trie.Fits _ _ _ _ :=
      anchored.fits sound fresh former
    rw [isLast] at fits ⊢
    exact fits
  reached := by
    refine ⟨_, anchored.route_detach fresh, ?_⟩
    change _ = view.frame.layout.slots tag view.frame.layout.depth
    rw [← isLast]
    rfl
  absent := by
    change (view.shortcut tag).filter _ = none
    rw [anchored.absent]
    rfl
  unheld := Function.update_self _ _ _
  leaf_lt := victim_lt

theorem descend (fresh : victim ∉ pinned) {former : Nat}
    (fits : (view.remove victim children).trie.Fits parent
      (view.frame.layout.slot tag (level + 1)) victim
      (Node.blank (level + 1) former (parent.getD (view.frame.layout.slot tag (level + 1)))))
    (copy : Option Copy) :
    ((view.remove victim children).place parent (view.frame.layout.slot tag (level + 1)) victim
      (Node.blank (level + 1) former (parent.getD (view.frame.layout.slot tag (level + 1)))) copy
      ).Anchored tag (level + 1) (some victim) (victim :: pinned) := by
  have route : ((view.remove victim children).trie.graft parent _ victim _).Route
      (view.frame.layout.slots tag (level + 1)) (some victim) :=
    .step ((anchored.route_detach fresh).graft fits)
      ((Trie.link_graft_eq_some_iff fits).mpr (.inl ⟨rfl, rfl, rfl⟩))
  refine ⟨route, ?_, ?_, ?_, ?_⟩
  · change ((view.remove victim children).trie.graft _ _ victim _).link (some victim) _ = none
    simp [Trie.link, Trie.node_graft_self, Node.blank]
  · change (view.shortcut tag).filter _ = none
    rw [anchored.absent]
    rfl
  · intro above index suffix route'
    rcases List.suffix_cons_iff.mp suffix with rfl | shorter
    · exact Option.some.inj (route'.functional route) ▸ List.mem_cons_self
    · rcases Trie.Route.of_graft fits route' with old | ⟨isNew, _⟩
      · exact List.mem_cons_of_mem _ (anchored.guarded shorter old.of_detach.1)
      · exact Option.some.inj isNew ▸ List.mem_cons_self
  · exact Nat.succ_le_succ anchored.few

end Anchored

/-- Where nothing is eligible, all that is not locked is pinned. -/
theorem unlocked_le_of_not_eligible {cache : Cache} {pinned : List Nat}
    (none : ∀ index, ¬ cache.pool.Eligible pinned index) :
    cache.view.unlocked ≤ pinned.length := by
  have distinct : ((List.range cache.view.frame.capacity).filter
      fun index => cache.view.locked index == some false).Nodup :=
    List.nodup_range.filter _
  refine (List.Nodup.subperm distinct fun index isUnlocked => ?_).length_le
  have unlocked : (cache.view.locked index == some false) = true := (List.mem_filter.mp isUnlocked).2
  by_contra notPinned
  exact none index ⟨beq_iff_eq.mp unlocked, notPinned⟩

end View

namespace Cache

variable {cache : Cache} {address : Address} {level : Nat} {parent : Option Nat}
  {pinned : List Nat}

/-- Every block is locked or holds the way to the new one. -/
def NoRoom (view : View) (fault : Fault) : Prop :=
  fault = .noVictim ∧ view.unlocked < view.frame.layout.depth

/-- One level of the way is built in a block from outside it. -/
theorem buildLevel_outcome (sound : cache.view.Sound) (tidy : cache.Tidy)
    (inRange : cache.layout.contains address = true) (level_lt : level < cache.layout.depth)
    (anchored : cache.view.Anchored (cache.layout.blockOf address) level parent pinned) {slot : Nat}
    (slot_eq : cache.layout.slot (cache.layout.blockOf address) (level + 1) = slot) :
    Ends (cache.buildLevel address (level + 1) parent pinned)
      (fun (built, after) => after.Tidy ∧ built ∉ pinned ∧ built < cache.pool.capacity ∧
        ∃ children former,
          (∀ index, index ∈ children ↔
            ∃ slot, cache.view.trie.link (some built) slot = some index) ∧
          after.view = (cache.view.remove built children).place parent slot built
            (Node.blank (level + 1) former (parent.getD slot))
            (cache.layout.blankCopy (level + 1) former))
      (NoRoom cache.view) := by
  have few := anchored.few
  refine (Pool.selectVictim_outcome tidy.hand_lt sound.founded.attempts_pos pinned).andThen
    (fun fault bad => ?_) ?_
  · refine ⟨bad.1, ?_⟩
    have unlocked := View.unlocked_le_of_not_eligible bad.2
    change _ < cache.layout.depth
    omega
  · rintro ⟨⟨victim, fallback⟩, pool⟩ ⟨swept, eligible⟩
    let chosen : Cache := { cache with pool, stats := cache.stats.recordVictim fallback }
    have view : chosen.view = cache.view := view_of_aged swept.aged _
    have tidy' : chosen.Tidy := tidy.of_swept swept _
    have sound' : chosen.view.Sound := view ▸ sound
    have victim_lt : victim < chosen.pool.capacity :=
      swept.aged.capacity ▸ eligible.lt_capacity
    obtain ⟨evicted, children, ran, tidy'', areChildren, erased⟩ :=
      evict_spec sound' tidy' victim_lt
    rw [view] at areChildren erased
    have frame : evicted.frame = cache.frame := congrArg View.frame erased
    have trie : evicted.trie.erase victim = (cache.view.remove victim children).trie :=
      congrArg View.trie erased
    have founded : evicted.frame.Founded := frame ▸ sound.founded
    have layout : evicted.layout = cache.layout := congrArg Frame.layout frame
    obtain ⟨block, found⟩ : ∃ block, evicted.pool.blocks[victim]? = some block := by
      refine Pool.exists_block ?_
      have capacity : evicted.pool.capacity = cache.pool.capacity := congrArg Frame.capacity frame
      rw [capacity]
      exact eligible.lt_capacity
    have fits : (evicted.trie.erase victim).Fits parent slot victim
        (Node.blank (level + 1) block.tag (parent.getD slot)) := by
      rw [trie, ← slot_eq]
      exact anchored.fits sound eligible.2 block.tag
    have positive : ∀ other node, other ≠ victim → evicted.trie.node other = some node →
        1 ≤ node.level := by
      intro other node distinct isNode
      have same : (evicted.trie.erase victim).node other = some node := by
        simp only [Trie.erase, if_neg distinct, isNode]
      rw [trie] at same
      exact (sound.remove areChildren).linked.level_pos same
    rw [← layout] at inRange level_lt slot_eq
    obtain ⟨after, built, tidy_after, _, view_after⟩ :=
      build_spec founded tidy'' found inRange level_lt slot_eq fits positive
    dsimp only
    rw [ran, ok_bind, built]
    refine ⟨tidy_after, eligible.2, eligible.lt_capacity, children, block.tag, areChildren, ?_⟩
    rw [view_after, ← View.place_erase, erased, layout]

/-- A level above the leaf leaves the cache sound, and brings the way one block further. -/
theorem buildTable_outcome (sound : cache.view.Sound) (tidy : cache.Tidy)
    (inRange : cache.layout.contains address = true) (level_lt : level + 1 < cache.layout.depth)
    (anchored : cache.view.Anchored (cache.layout.blockOf address) level parent pinned) :
    Ends (cache.buildLevel address (level + 1) parent pinned)
      (fun (built, after) => after.Tidy ∧ after.view.Sound ∧ cache.view.Shed after.view ∧
        after.view.Anchored (cache.layout.blockOf address) (level + 1) (some built)
          (built :: pinned))
      (NoRoom cache.view) := by
  have isTable : level + 1 ≠ cache.layout.depth := Nat.ne_of_lt level_lt
  refine (buildLevel_outcome sound tidy inRange (by omega) anchored rfl).mono ?_
    fun _ noRoom => noRoom
  rintro ⟨built, middle⟩ ⟨tidy', fresh, built_lt, children, former, areChildren, view⟩
  rw [Layout.blankCopy, if_neg isTable] at view
  have fits : (cache.view.remove built children).trie.Fits parent _ built _ :=
    anchored.fits sound fresh former
  have sound_remove := sound.remove areChildren
  refine ⟨tidy', ?_, ?_, ?_⟩
  · rw [view]
    exact sound_remove.placeTable fits isTable
  · rw [view]
    exact (View.shed_remove built_lt children).trans
      (View.shed_placeTable sound_remove fits isTable (Function.update_self _ _ _))
  · rw [view]
    exact anchored.descend fresh fits none

/-- The levels above the leaf take blocks out and put tables in; the leaf comes last. -/
theorem buildPath_outcome (sound : cache.view.Sound) (tidy : cache.Tidy)
    (inRange : cache.layout.contains address = true) {levels : Nat}
    (depth_eq : level + levels + 1 = cache.layout.depth)
    (anchored : cache.view.Anchored (cache.layout.blockOf address) level parent pinned) :
    Ends (cache.buildPath address (level + 1) parent pinned (levels + 1))
      (fun (built, after) => after.Tidy ∧ ∃ leaf middle owner slot former,
        built.getLast? = some leaf ∧ cache.view.Shed middle ∧
          middle.Vacancy (cache.layout.blockOf address) owner slot leaf ∧
          after.view = middle.place owner slot leaf
            (Node.blank cache.layout.depth former (owner.getD slot))
            (cache.layout.blankCopy cache.layout.depth former))
      (NoRoom cache.view) := by
  induction levels generalizing cache level parent pinned with
  | zero =>
    have isLast : level + 1 = cache.layout.depth := depth_eq
    refine Ends.bind (buildLevel_outcome sound tidy inRange (by omega) anchored rfl) ?_
    rintro ⟨built, after⟩ ⟨tidy', fresh, built_lt, children, former, areChildren, view⟩
    rw [isLast] at view
    refine ⟨tidy', built, cache.view.remove built children, parent, _, former, rfl,
      View.shed_remove built_lt children, ?_, view⟩
    have vacancy := anchored.vacancy sound fresh areChildren built_lt isLast
    change View.Vacancy _ _ _ (cache.layout.slot _ (level + 1)) _ at vacancy
    rwa [isLast] at vacancy
  | succ levels ih =>
    refine Ends.bind (buildTable_outcome sound tidy inRange (by omega) anchored) ?_
    rintro ⟨built, middle⟩ ⟨tidy', sound', shed, below⟩
    have layout : middle.layout = cache.layout := congrArg Frame.layout shed.frame
    rw [← layout] at below
    have depth_eq' : level + 1 + levels + 1 = middle.layout.depth := by
      rw [layout]
      omega
    refine (ih sound' tidy' (layout ▸ inRange) depth_eq' below).andThen
      (fun fault noRoom => ?_) ?_
    · rw [NoRoom, View.unlocked, shed.locked, shed.frame] at noRoom
      exact noRoom
    · rintro ⟨rest, after⟩ ⟨tidy_after, leaf, bare, owner, slot, former', isLast, shed', vacancy,
        view_after⟩
      rw [layout] at vacancy view_after
      refine ⟨tidy_after, leaf, bare, owner, slot, former', ?_, shed.trans shed', vacancy,
        view_after⟩
      rw [List.getLast?_cons, isLast]
      rfl

end Cache

end TrieCache
