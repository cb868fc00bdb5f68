import TrieCache.Proofs.Clearing

/-!
# The blocks of a new path

The path to a new block is built in one slot of the pool after the other.  Each slot is
emptied before it is built anew, and none of them is locked, holds the way down to the path,
or was built for it before.  So all of them end up on one route, at consecutive levels, and
the rest of the cache has lost nothing but what was emptied.
-/

namespace TrieCache

namespace View

/-- Blocks are built one under the other on the way to a block, each in a slot that is
emptied first.  They are listed top down. -/
inductive Raised (tag : Nat) : (before : View) → (level : Nat) → (parent : Option Nat) →
    (pinned : List Nat) → (built : List Nat) → (after : View) → Prop
  | done {view : View} {level : Nat} {parent : Option Nat} {pinned : List Nat} :
    Raised tag view level parent pinned [] view
  | step {view after : View} {level victim former : Nat} {parent : Option Nat}
    {pinned children built : List Nat}
    (anchored : view.Anchored tag level parent pinned) (fresh : victim ∉ pinned)
    (unlocked : view.locked victim = some false)
    (fits : (view.remove victim children).trie.Fits parent
      (view.frame.layout.slot tag (level + 1)) victim
      (Node.blank (level + 1) former (parent.getD (view.frame.layout.slot tag (level + 1)))))
    (rest : Raised tag
      ((view.remove victim children).place parent (view.frame.layout.slot tag (level + 1)) victim
        (Node.blank (level + 1) former (parent.getD (view.frame.layout.slot tag (level + 1))))
        (view.frame.layout.blankCopy (level + 1) former))
      (level + 1) (some victim) (victim :: pinned) built after) :
    Raised tag view level parent pinned (victim :: built) after

namespace Raised

variable {before after : View} {tag level : Nat} {parent : Option Nat} {pinned built : List Nat}

theorem frame (raised : Raised tag before level parent pinned built after) :
    after.frame = before.frame := by
  induction raised with
  | done => rfl
  | step _ _ _ _ _ ih => exact ih

theorem not_mem_pinned (raised : Raised tag before level parent pinned built after) :
    ∀ index ∈ built, index ∉ pinned := by
  induction raised with
  | done => exact fun _ isBuilt => nomatch isBuilt
  | step _ fresh _ _ _ ih =>
    intro index isBuilt
    rcases List.mem_cons.mp isBuilt with rfl | isBelow
    · exact fresh
    · exact fun isPinned => ih index isBelow (List.mem_cons_of_mem _ isPinned)

theorem nodup (raised : Raised tag before level parent pinned built after) : built.Nodup := by
  induction raised with
  | done => exact .nil
  | step _ _ _ _ rest ih =>
    exact List.nodup_cons.mpr
      ⟨fun again => rest.not_mem_pinned _ again List.mem_cons_self, ih⟩

theorem unlocked (raised : Raised tag before level parent pinned built after) :
    ∀ index ∈ built, before.locked index = some false := by
  induction raised with
  | done => exact fun _ isBuilt => nomatch isBuilt
  | step _ _ unlocked _ _ ih =>
    intro index isBuilt
    rcases List.mem_cons.mp isBuilt with rfl | isBelow
    · exact unlocked
    · exact ih index isBelow

/-- A route stays as long as none of its blocks is taken. -/
theorem route_of_spared (raised : Raised tag before level parent pinned built after)
    {slots : List Nat} {owner : Option Nat} (route : before.trie.Route slots owner)
    (spared : ∀ {above : List Nat} {index : Nat}, above <:+ slots →
      before.trie.Route above (some index) → index ∉ built) : after.trie.Route slots owner := by
  induction raised with
  | done => exact route
  | @step view after level victim former parent pinned children built _ _ _ fits rest ih =>
    have clear : ∀ above, above <:+ slots → ¬ view.trie.Route above (some victim) :=
      fun above suffix reached => spared suffix reached List.mem_cons_self
    refine ih ((route.detach clear).graft fits) fun {above index} suffix reached => ?_
    rcases Trie.Route.of_graft fits reached with old | ⟨isNew, _⟩
    · exact fun isBuilt => spared suffix old.of_detach.1 (List.mem_cons_of_mem _ isBuilt)
    · cases isNew
      exact fun again => rest.not_mem_pinned _ again List.mem_cons_self

theorem route (raised : Raised tag before level parent pinned built after) {slots : List Nat}
    {owner : Option Nat} (route : before.trie.Route slots owner)
    (guarded : ∀ {above : List Nat} {index : Nat}, above <:+ slots →
      before.trie.Route above (some index) → index ∈ pinned) : after.trie.Route slots owner :=
  raised.route_of_spared route fun suffix reached isBuilt =>
    raised.not_mem_pinned _ isBuilt (guarded suffix reached)

/-- Every block that is built ends up at its place on the way. -/
theorem reaches (raised : Raised tag before level parent pinned built after) {place index : Nat}
    (isBuilt : built[place]? = some index) :
    after.trie.Route (before.frame.layout.slots tag (level + place + 1)) (some index) := by
  induction raised generalizing place with
  | done => cases isBuilt
  | @step view after level victim former parent pinned children built anchored fresh _ fits rest ih =>
    cases place with
    | zero =>
      cases isBuilt
      have below := anchored.descend fresh fits (view.frame.layout.blankCopy (level + 1) former)
      exact rest.route below.route below.guarded
    | succ place =>
      have deeper : level + (place + 1) + 1 = level + 1 + place + 1 := by omega
      rw [deeper]
      exact ih isBuilt

theorem shortcut_eq_some_iff (raised : Raised tag before level parent pinned built after)
    {other index : Nat} :
    after.shortcut other = some index ↔ before.shortcut other = some index ∧ index ∉ built := by
  induction raised with
  | done => simp
  | @step view after level victim former parent pinned children built _ _ _ _ _ ih =>
    have removed : (view.remove victim children).shortcut other = some index ↔ _ :=
      shortcut_remove_eq_some_iff
    rw [ih, List.mem_cons, not_or, ← and_assoc]
    exact and_congr_left fun _ => removed

/-- The other blocks stay built, at the level they were built for. -/
theorem level_eq (raised : Raised tag before level parent pinned built after) {index : Nat}
    (other : index ∉ built) :
    (after.trie.node index).map Node.level = (before.trie.node index).map Node.level := by
  induction raised with
  | done => rfl
  | @step view after level victim former parent pinned children built anchored fresh _ fits rest ih =>
    obtain ⟨distinct, isOther⟩ := not_or.mp (mt List.mem_cons.mpr other)
    refine (ih isOther).trans ?_
    change ((Trie.graft _ parent _ victim _).node index).map Node.level = _
    have detached : ((view.remove victim children).trie.node index).map Node.level =
        (view.trie.node index).map Node.level := by
      change ((view.trie.detach victim children).node index).map Node.level = _
      rw [Trie.node_detach_of_ne distinct, Option.map_map]
      rfl
    rw [Trie.node_graft_of_ne distinct, Option.map_map, ← detached]
    congr 1
    funext above
    dsimp only [Function.comp_apply]
    split <;> rfl

end Raised

end View

namespace Cache

variable {cache after : Cache} {address : Address} {level : Nat} {parent : Option Nat}
  {pinned built : List Nat}

theorem unlocked_of_buildLevel {victim : Nat}
    (ran : cache.buildLevel address level parent pinned = .ok (victim, after)) :
    cache.view.locked victim = some false := by
  obtain ⟨⟨chosen, pool⟩, selected, ran⟩ := bind_eq_ok_iff.mp ran
  obtain ⟨_, _, ran⟩ := bind_eq_ok_iff.mp ran
  obtain ⟨_, _, ran⟩ := bind_eq_ok_iff.mp ran
  cases ran
  exact (Pool.swept_of_selectVictim selected).2.1

theorem raised_of_buildPath (sound : cache.view.Sound) (tidy : cache.Tidy)
    (inRange : cache.layout.contains address = true) {levels : Nat}
    (depth_eq : level + levels = cache.layout.depth)
    (anchored : cache.view.Anchored (cache.layout.blockOf address) level parent pinned)
    (ran : cache.buildPath address (level + 1) parent pinned levels = .ok (built, after)) :
    View.Raised (cache.layout.blockOf address) cache.view level parent pinned built after.view ∧
      built.length = levels := by
  induction levels generalizing cache level parent pinned built with
  | zero =>
    cases ran
    exact ⟨.done, rfl⟩
  | succ levels ih =>
    obtain ⟨⟨victim, middle⟩, first, ran⟩ := bind_eq_ok_iff.mp ran
    obtain ⟨⟨rest, _⟩, others, same⟩ := bind_eq_ok_iff.mp ran
    cases same
    obtain ⟨tidy', fresh, victim_lt, children, former, areChildren, view⟩ :=
      (buildLevel_outcome sound tidy inRange (by omega) anchored rfl).of_eq_ok first
    have fits : (cache.view.remove victim children).trie.Fits _ _ _ _ :=
      anchored.fits sound fresh former
    suffices below : View.Raised (cache.layout.blockOf address) middle.view (level + 1)
        (some victim) (victim :: pinned) rest after.view ∧ rest.length = levels by
      rw [view] at below
      refine ⟨.step anchored fresh (unlocked_of_buildLevel first) fits below.1, ?_⟩
      rw [List.length_cons, below.2]
    cases levels with
    | zero =>
      cases others
      exact ⟨.done, rfl⟩
    | succ levels =>
      obtain ⟨_, sound', shed, anchored'⟩ :=
        (buildTable_outcome sound tidy inRange (by omega) anchored).of_eq_ok first
      have layout : middle.layout = cache.layout := congrArg Frame.layout shed.frame
      rw [← layout] at inRange anchored' depth_eq ⊢
      exact ih sound' tidy' inRange (by omega) anchored' others

end Cache

end TrieCache
