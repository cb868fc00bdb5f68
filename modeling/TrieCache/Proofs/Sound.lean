import TrieCache.Proofs.Views

/-!
# Sound views

A tag resolves to the leaf that an access to its block uses: the one that the fast path
leads to, or the one at the end of the walk.  In a sound view there is at most one, and
it carries the tag.

A view changes in three ways: a block is removed, a block is placed in a free slot, and
the fast path is pointed at a leaf that a walk reaches.  All three keep it sound, and the
first makes no new block resolve.
-/

namespace TrieCache

/-- What a valid configuration of a regular layout establishes for good. -/
structure Frame.Founded (frame : Frame) : Prop where
  regular : frame.layout.Regular
  covers (address : Address) : frame.layout.contains address = true ↔
    frame.layout.slot (frame.layout.blockOf address) 1 < frame.topSize
  topEntries : frame.config.topEntries = .ok frame.topSize
  attempts_pos : 0 < frame.config.maxAttempts.toNat
  maxReference_pos : 0 < frame.config.maxReference.toNat
  depth_lt : frame.layout.depth < frame.capacity
  fastPathCapacity_eq : frame.fastPathCapacity = frame.config.fastPathSize.toNat

namespace View

def path (view : View) (tag : Nat) : List Nat :=
  view.frame.layout.slots tag view.frame.layout.depth

/-- An access to a block uses this leaf. -/
def Resolves (view : View) (tag index : Nat) : Prop :=
  view.shortcut tag = some index ∨ view.trie.Route (view.path tag) (some index)

theorem shortcut_eq_none {view : View} {tag : Nat}
    (unresolved : ∀ index, ¬ view.Resolves tag index) : view.shortcut tag = none :=
  Option.eq_none_iff_forall_ne_some.mpr fun index leads => unresolved index (.inl leads)

/-- Trie and fast path agree with each other and with the tags of the leaves. -/
structure Sound (view : View) : Prop where
  founded : view.frame.Founded
  linked : view.trie.Linked
  placed : view.trie.Placed view.frame.layout
  /-- The fast path leads to leaves that carry the tag. -/
  tagged {tag index : Nat} : view.shortcut tag = some index →
    ∃ node, view.trie.node index = some node ∧ node.level = view.frame.layout.depth ∧ node.tag = tag
  /-- Where fast path and walk both end, they end at the same leaf. -/
  agree {tag index other : Nat} : view.shortcut tag = some index →
    view.trie.Route (view.path tag) (some other) → index = other

namespace Sound

variable {view : View} (sound : view.Sound)
include sound

theorem node_of_path {tag index : Nat} (route : view.trie.Route (view.path tag) (some index)) :
    ∃ node, view.trie.node index = some node ∧ node.attached = true ∧
      node.level = view.frame.layout.depth ∧ node.tag = tag := by
  obtain ⟨node, isNode, attached, level⟩ := sound.linked.node_of_route route
  rw [path, Layout.length_slots] at level
  have same := sound.placed _ _ _ route isNode level
  exact ⟨node, isNode, attached, level, (sound.founded.regular.slots_injective same).symm⟩

theorem node_of_resolves {tag index : Nat} (resolves : view.Resolves tag index) :
    ∃ node, view.trie.node index = some node ∧ node.level = view.frame.layout.depth ∧
      node.tag = tag := by
  rcases resolves with shortcut | route
  · exact sound.tagged shortcut
  · obtain ⟨node, isNode, _, level, tagged⟩ := sound.node_of_path route
    exact ⟨node, isNode, level, tagged⟩

theorem resolves_unique {tag first second : Nat} (one : view.Resolves tag first)
    (other : view.Resolves tag second) : first = second := by
  rcases one with shortcut | route
  · rcases other with shortcut' | route'
    · exact Option.some.inj (shortcut.symm.trans shortcut')
    · exact sound.agree shortcut route'
  · rcases other with shortcut' | route'
    · exact (sound.agree shortcut' route).symm
    · exact Option.some.inj (route.functional route')

theorem withShortcut {shortcut : Nat → Option Nat} {sequence : Nat}
    (resolving : ∀ {tag index}, shortcut tag = some index → view.Resolves tag index) :
    Sound { view with shortcut, sequence } where
  founded := sound.founded
  linked := sound.linked
  placed := sound.placed
  tagged := fun leads => sound.node_of_resolves (resolving leads)
  agree := fun leads route => sound.resolves_unique (resolving leads) (.inr route)

end Sound

section Removing

def erase (view : View) (victim : Nat) : View :=
  { view with
    trie := view.trie.erase victim
    copies := Function.update view.copies victim none }

/-- Take a block out, with its children detached and its changed data queued. -/
def remove (view : View) (victim : Nat) (children : List Nat) : View :=
  { view with
    trie := view.trie.detach victim children
    copies := Function.update view.copies victim none
    shortcut := fun tag => (view.shortcut tag).filter (· != victim)
    queue := view.queue ++ ((view.copies victim).filter Copy.dirty).toList.map Copy.writeback }

variable {view : View} {victim : Nat} {children : List Nat}

theorem copies_remove (view : View) (victim : Nat) (children : List Nat) :
    (view.remove victim children).copies = Function.update view.copies victim none :=
  rfl

theorem shortcut_remove_eq_some_iff {tag index : Nat} :
    (view.remove victim children).shortcut tag = some index ↔
      view.shortcut tag = some index ∧ index ≠ victim := by
  simp [remove, Option.filter_eq_some_iff]

theorem resolves_of_remove {tag index : Nat}
    (resolves : (view.remove victim children).Resolves tag index) : view.Resolves tag index := by
  rcases resolves with shortcut | route
  · exact .inl (shortcut_remove_eq_some_iff.mp shortcut).1
  · exact .inr route.of_detach.1

theorem Sound.remove (sound : view.Sound)
    (areChildren : ∀ index, index ∈ children ↔
      ∃ slot, view.trie.link (some victim) slot = some index) :
    (view.remove victim children).Sound where
  founded := sound.founded
  linked := sound.linked.detach areChildren
  placed := by
    intro slots index node route isNode level
    obtain ⟨_, before, isBefore, rfl⟩ := Trie.node_detach_eq_some_iff.mp isNode
    have same := sound.placed _ _ before route.of_detach.1 isBefore level
    exact same
  tagged := by
    intro tag index leads
    obtain ⟨leads, distinct⟩ := shortcut_remove_eq_some_iff.mp leads
    obtain ⟨before, isBefore, level, tagged⟩ := sound.tagged leads
    exact ⟨_, Trie.node_detach_eq_some_iff.mpr ⟨distinct, before, isBefore, rfl⟩, level, tagged⟩
  agree := by
    intro tag index other leads route
    exact sound.agree (shortcut_remove_eq_some_iff.mp leads).1 route.of_detach.1

end Removing

section Placing

/-- Put a block in place, with what it holds. -/
def place (view : View) (owner : Option Nat) (slot index : Nat) (node : Node)
    (copy : Option Copy) : View :=
  { view with
    trie := view.trie.graft owner slot index node
    copies := Function.update view.copies index copy }

variable {view : View} {owner : Option Nat} {slot index : Nat} {node : Node} {copy : Option Copy}

/-- It does not matter what was known about the place before. -/
theorem place_erase (view : View) (owner : Option Nat) (slot index : Nat) (node : Node)
    (copy : Option Copy) :
    (view.erase index).place owner slot index node copy = view.place owner slot index node copy := by
  ext1 <;> try rfl
  · ext1
    · rfl
    · funext other
      by_cases isNew : other = index <;> simp [place, erase, Trie.graft, Trie.erase, isNew]
  · exact Function.update_idem _ _ _

theorem tagged_place (sound : view.Sound) (fits : view.trie.Fits owner slot index node)
    {tag other : Nat} (leads : view.shortcut tag = some other) :
    ∃ after, (view.place owner slot index node copy).trie.node other = some after ∧
      after.level = view.frame.layout.depth ∧ after.tag = tag := by
  obtain ⟨before, isBefore, level, tagged⟩ := sound.tagged leads
  have distinct : other ≠ index := by
    rintro rfl
    rw [fits.vacant] at isBefore
    cases isBefore
  obtain ⟨after, isAfter, _, sameLevel, sameTag, _⟩ :=
    Trie.node_graft_of_node owner slot node distinct isBefore
  exact ⟨after, isAfter, sameLevel.trans level, sameTag.trans tagged⟩

/-- Whatever a route reached before has kept its level and its tag. -/
theorem placed_place (sound : view.Sound) (fits : view.trie.Fits owner slot index node)
    {slots : List Nat} {other : Nat} {after : Node} (route : view.trie.Route slots (some other))
    (isAfter : (view.place owner slot index node copy).trie.node other = some after)
    (level : after.level = view.frame.layout.depth) :
    slots = view.frame.layout.slots after.tag view.frame.layout.depth := by
  obtain ⟨before, isBefore, _⟩ := sound.linked.node_of_route route
  have distinct : other ≠ index := by
    rintro rfl
    rw [fits.vacant] at isBefore
    cases isBefore
  obtain ⟨_, isBefore, _, sameLevel, sameTag, _⟩ := Trie.node_of_node_graft distinct isAfter
  rw [sameTag]
  exact sound.placed _ _ _ route isBefore (sameLevel ▸ level)

section Tables

theorem path_of_placeTable (sound : view.Sound) (fits : view.trie.Fits owner slot index node)
    (isTable : node.level ≠ view.frame.layout.depth) {tag other : Nat}
    (route : (view.trie.graft owner slot index node).Route (view.path tag) (some other)) :
    view.trie.Route (view.path tag) (some other) := by
  rcases Trie.Route.of_graft fits route with route' | ⟨isNew, _⟩
  · exact route'
  · cases isNew
    obtain ⟨node', isNode', _, level⟩ := (sound.linked.graft fits).node_of_route route
    rw [Trie.node_graft_self, Option.some.injEq] at isNode'
    rw [← isNode', path, Layout.length_slots] at level
    exact absurd level isTable

theorem resolves_of_placeTable (sound : view.Sound)
    (fits : view.trie.Fits owner slot index node)
    (isTable : node.level ≠ view.frame.layout.depth) {tag other : Nat}
    (resolves : (view.place owner slot index node copy).Resolves tag other) :
    view.Resolves tag other := by
  rcases resolves with shortcut | route
  · exact .inl shortcut
  · exact .inr (path_of_placeTable sound fits isTable route)

theorem Sound.placeTable (sound : view.Sound) (fits : view.trie.Fits owner slot index node)
    (isTable : node.level ≠ view.frame.layout.depth) :
    (view.place owner slot index node copy).Sound where
  founded := sound.founded
  linked := sound.linked.graft fits
  placed := by
    intro slots other after route isAfter level
    rcases Trie.Route.of_graft fits route with route | ⟨isNew, _⟩
    · exact placed_place sound fits route isAfter level
    · cases isNew
      change (view.trie.graft owner slot index node).node index = some after at isAfter
      rw [Trie.node_graft_self, Option.some.injEq] at isAfter
      exact absurd (isAfter ▸ level) isTable
  tagged := fun leads => tagged_place sound fits leads
  agree := fun leads route => sound.agree leads (path_of_placeTable sound fits isTable route)

end Tables

section Leaves

variable {above : List Nat}

theorem path_placeLeaf (fits : view.trie.Fits owner slot index node)
    (reached : view.trie.Route above owner) (whole : slot :: above = view.path node.tag) :
    (view.trie.graft owner slot index node).Route (view.path node.tag) (some index) := by
  rw [← whole]
  exact .step (reached.graft fits) ((Trie.link_graft_eq_some_iff fits).mpr (.inl ⟨rfl, rfl, rfl⟩))

theorem path_of_placeLeaf (sound : view.Sound) (fits : view.trie.Fits owner slot index node)
    (reached : view.trie.Route above owner) (whole : slot :: above = view.path node.tag)
    {tag other : Nat}
    (route : (view.trie.graft owner slot index node).Route (view.path tag) (some other)) :
    (tag = node.tag ∧ other = index) ∨
      (tag ≠ node.tag ∧ view.trie.Route (view.path tag) (some other)) := by
  by_cases same : tag = node.tag
  · subst same
    exact .inl ⟨rfl, Option.some.inj (route.functional (path_placeLeaf fits reached whole))⟩
  · rcases Trie.Route.of_graft fits route with route' | ⟨isNew, above', slots_eq, reached'⟩
    · exact .inr ⟨same, route'⟩
    · have together : above' = above := sound.linked.route_injective reached' reached
      rw [together, whole] at slots_eq
      exact absurd (sound.founded.regular.slots_injective slots_eq) same

theorem Sound.placeLeaf (sound : view.Sound) (fits : view.trie.Fits owner slot index node)
    (reached : view.trie.Route above owner) (whole : slot :: above = view.path node.tag)
    (absent : view.shortcut node.tag = none) :
    (view.place owner slot index node copy).Sound where
  founded := sound.founded
  linked := sound.linked.graft fits
  placed := by
    intro slots other after route isAfter level
    rcases Trie.Route.of_graft fits route with route | ⟨isNew, above', slots_eq, reached'⟩
    · exact placed_place sound fits route isAfter level
    · cases isNew
      change (view.trie.graft owner slot index node).node index = some after at isAfter
      rw [Trie.node_graft_self, Option.some.injEq] at isAfter
      rw [slots_eq, sound.linked.route_injective reached' reached, whole, isAfter]
      rfl
  tagged := fun leads => tagged_place sound fits leads
  agree := by
    intro tag target other leads route
    rcases path_of_placeLeaf sound fits reached whole route with ⟨rfl, _⟩ | ⟨_, route⟩
    · change view.shortcut node.tag = some target at leads
      rw [absent] at leads
      cases leads
    · exact sound.agree leads route

end Leaves

end Placing

end View

end TrieCache
