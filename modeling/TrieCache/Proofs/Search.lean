import TrieCache.Proofs.Lookups
import TrieCache.Proofs.Sound

/-!
# Where a walk ends

A walk follows the route of its block as far as it goes.  In a sound cache a walk that
goes all the way has found the block: the leaf at the end of a route lies there because
of its tag.  Otherwise the walk ends above a free slot of the route.
-/

namespace TrieCache

namespace View

/-- What the end of a walk says about the block that was looked for. -/
def Walked (view : View) (tag : Nat) : Walk → Prop
  | .hit index => view.trie.Route (view.path tag) (some index)
  | .miss anchor => ∃ level < view.frame.layout.depth,
      view.trie.Route (view.frame.layout.slots tag level) anchor ∧
        view.trie.link anchor (view.frame.layout.slot tag (level + 1)) = none

/-- Where a link is missing, the walk ends for good. -/
theorem not_route_of_free {view : View} {tag level : Nat} {owner : Option Nat}
    (level_lt : level < view.frame.layout.depth)
    (route : view.trie.Route (view.frame.layout.slots tag level) owner)
    (free : view.trie.link owner (view.frame.layout.slot tag (level + 1)) = none) (index : Nat) :
    ¬ view.trie.Route (view.path tag) (some index) :=
  route.not_of_free free (view.frame.layout.slots_suffix tag level_lt)

end View

namespace Cache

variable {cache : Cache} {address : Address}

/-- What a step of a walk keeps. -/
structure Unmoved (before after : Cache) : Prop where
  tidy : after.Tidy
  view : after.view = before.view

namespace Unmoved

variable {before middle after : Cache}

theorem layout (unmoved : before.Unmoved after) : after.layout = before.layout :=
  congrArg (fun view : View => view.frame.layout) unmoved.view

theorem sound (unmoved : before.Unmoved after) (sound : before.view.Sound) : after.view.Sound :=
  unmoved.view ▸ sound

theorem trans (first : before.Unmoved middle) (second : middle.Unmoved after) :
    before.Unmoved after where
  tidy := second.tidy
  view := second.view.trans first.view

end Unmoved

theorem touch_spec (tidy : cache.Tidy) {index : Nat} (index_lt : index < cache.pool.capacity) :
    ∃ after, cache.updateBlock index (Block.touch cache.maxReference) = .ok after ∧
      cache.Unmoved after := by
  have touched : Block.touch cache.maxReference = fun block : Block => { block with
      reference := if block.reference < cache.maxReference then block.reference + 1
        else block.reference } :=
    funext (Block.touch_eq cache.maxReference)
  refine ⟨_, updateBlock_eq_ok index_lt _, ?_, ?_⟩
  · rw [touched]
    refine tidy.modify (fun _ _ shaped => shaped.congr rfl rfl rfl rfl) fun block bound => ?_
    dsimp only
    split
    next below => exact below
    next => exact bound
  · exact view_of_aged (cache.pool.aged_touch _ _) cache.stats

theorem arrive_eq (sound : cache.view.Sound) {tag index : Nat}
    (isTag : cache.layout.tag address = .ok tag)
    (route : cache.trie.Route (cache.view.path tag) (some index)) :
    cache.arrive address index = .ok (.hit index) := by
  obtain ⟨node, isNode, attached, level, tagged⟩ := sound.node_of_path route
  obtain ⟨block, found, valid, rfl⟩ := block_of_node isNode
  rw [arrive, Pool.get_eq_ok_iff.mpr found, ok_bind, if_pos ⟨level, valid, attached⟩, isTag,
    ok_bind, if_pos tagged]
  rfl

theorem descend_spec (sound : cache.view.Sound) (tidy : cache.Tidy) {index level steps : Nat}
    (depth_eq : level + steps = cache.layout.depth) (level_pos : 1 ≤ level)
    (route : cache.trie.Route (cache.layout.slots (cache.layout.blockOf address) level)
      (some index)) :
    ∃ walk after, cache.descend address index (level + 1) steps = .ok (walk, after) ∧
      cache.Unmoved after ∧ cache.view.Walked (cache.layout.blockOf address) walk := by
  have regular : cache.layout.Regular := sound.founded.regular
  induction steps generalizing cache index level with
  | zero =>
    rw [Nat.add_zero] at depth_eq
    rw [depth_eq] at route
    refine ⟨.hit index, cache, ?_, ⟨tidy, rfl⟩, route⟩
    rw [descend, arrive_eq sound (regular.tag_eq address) route]
    rfl
  | succ steps ih =>
    have linked : cache.trie.Linked := sound.linked
    have selector : cache.layout.selector address (level + 1) = _ :=
      regular.selector_eq address (by omega) (by omega)
    obtain ⟨node, isNode, _⟩ := linked.node_of_route route
    obtain ⟨block, found, valid, rfl⟩ := block_of_node isNode
    rw [descend, selector, ok_bind, Pool.get_eq_ok_iff.mpr found, ok_bind]
    cases leads : block.child? (cache.layout.slot (cache.layout.blockOf address) (level + 1)) with
    | none =>
      refine ⟨_, cache, rfl, ⟨tidy, rfl⟩, level, by change level < cache.layout.depth; omega, route, ?_⟩
      change (cache.trie.node index).bind _ = none
      rw [isNode, Option.bind_some]
      exact leads
    | some child =>
      have route' : cache.trie.Route
          (cache.layout.slots (cache.layout.blockOf address) (level + 1)) (some child) :=
        .step route (Trie.link_some_eq_some_iff.mpr ⟨_, isNode, leads⟩)
      obtain ⟨node, isChild, _⟩ := linked.node_of_route route'
      obtain ⟨_, found', _⟩ := block_of_node isChild
      obtain ⟨middle, touched, unmoved⟩ := touch_spec tidy (Pool.lt_capacity_of_block found')
      have layout : middle.layout = cache.layout := unmoved.layout
      have trie : middle.trie = cache.trie := congrArg View.trie unmoved.view
      rw [← trie, ← layout] at route'
      have deeper : level + 1 + steps = middle.layout.depth := by
        rw [layout]
        omega
      obtain ⟨walk, after, ran, unmoved', walked⟩ :=
        ih (unmoved.sound sound) unmoved.tidy deeper (Nat.le_add_left 1 level) route'
          (layout ▸ regular)
      refine ⟨walk, after, ?_, unmoved.trans unmoved', ?_⟩
      · dsimp only
        rw [touched, ok_bind, ran]
      · rwa [unmoved.view, layout] at walked

/-- A walk finds its block, or the free slot in the way of it. -/
theorem search_outcome (sound : cache.view.Sound) (tidy : cache.Tidy) (address : Address) :
    Ends (cache.search address)
      (fun (walk, after) => cache.Unmoved after ∧
        cache.view.Walked (cache.layout.blockOf address) walk)
      (fun _ => cache.layout.contains address = false) := by
  have regular : cache.layout.Regular := sound.founded.regular
  have covers := sound.founded.covers address
  rw [search, regular.topIndex_eq, ok_bind]
  cases isEntry : cache.top.entries[cache.layout.slot (cache.layout.blockOf address) 1]? with
  | none =>
    have missing : cache.top.get (cache.layout.slot (cache.layout.blockOf address) 1) =
        .error (cache.top.missing (cache.layout.slot (cache.layout.blockOf address) 1)) := by
      rw [TopIndex.get, isEntry]
    rw [missing, error_bind, Ends.error_iff]
    have outside := Array.getElem?_eq_none_iff.mp isEntry
    by_contra inside
    have contained : cache.layout.contains address = true := by simpa using inside
    exact absurd (covers.mp contained) (Nat.not_lt_of_le outside)
  | some entry =>
    rw [TopIndex.get_eq_ok_iff.mpr isEntry, ok_bind]
    cases valid : entry.valid with
    | false =>
      rw [if_neg (by simp)]
      refine ⟨⟨tidy, rfl⟩, 0, regular.depth_pos, .top, ?_⟩
      change cache.top.entries[cache.layout.slot (cache.layout.blockOf address) 1]?.bind _ = none
      rw [isEntry, Option.bind_some, Link.leads?, valid]
      rfl
    | true =>
      have leads : cache.trie.link none (cache.layout.slot (cache.layout.blockOf address) 1) =
          some entry.target := by
        change cache.top.entries[cache.layout.slot (cache.layout.blockOf address) 1]?.bind _ = _
        rw [isEntry, Option.bind_some, Link.leads?, valid]
        rfl
      have depth_eq : 1 + (cache.layout.depth - 1) = cache.layout.depth :=
        Nat.add_sub_of_le regular.depth_pos
      obtain ⟨walk, after, ran, unmoved, walked⟩ :=
        descend_spec sound tidy depth_eq le_rfl (.step .top leads)
      rw [if_pos rfl, ran]
      exact ⟨unmoved, walked⟩

end Cache

end TrieCache
