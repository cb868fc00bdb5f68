import Mathlib.Logic.Function.Basic
import TrieCache.Proofs.Geometry

/-!
# The trie behind a cache

The links between the blocks of a cache, with everything else forgotten.  A link is kept
in a slot of its owner, which is the top index or a built block; the top index is written
`none`.  A structure is linked when every link leads to a block that names its owner, and
every block that claims to be attached has one.  Blocks are detached and grafted one at a
time, and both keep the structure linked.

A route is the list of slots that leads from the top index to a block, deepest slot
first.  Detaching takes routes away, and grafting adds those to the new block alone.
-/

namespace TrieCache

/-- What the structure knows about a built block. -/
@[ext]
structure Node where
  /-- The block claims that some link leads to it. -/
  attached : Bool
  level : Nat
  tag : Nat
  parent : Nat
  child : Nat → Option Nat

/-- The valid links of the top index, and the built blocks. -/
@[ext]
structure Trie where
  top : Nat → Option Nat
  node : Nat → Option Node

namespace Trie

def link (trie : Trie) : (owner : Option Nat) → (slot : Nat) → Option Nat
  | none, slot => trie.top slot
  | some index, slot => (trie.node index).bind fun node => node.child slot

/-- A block names an owner and a slot as the place that it hangs from; a table is named
without the slot. -/
def Hangs (trie : Trie) : (owner : Option Nat) → (slot : Nat) → Node → Prop
  | none, slot, node => node.level = 1 ∧ node.parent = slot
  | some index, _, node =>
    node.parent = index ∧ ∃ above, trie.node index = some above ∧ node.level = above.level + 1

/-- Links and blocks agree with each other. -/
structure Linked (trie : Trie) : Prop where
  level_pos {index : Nat} {node : Node} : trie.node index = some node → 1 ≤ node.level
  /-- A link leads to an attached block that names its owner. -/
  target {owner : Option Nat} {slot index : Nat} : trie.link owner slot = some index →
    ∃ node, trie.node index = some node ∧ node.attached = true ∧ trie.Hangs owner slot node
  /-- An owner leads to a block in one way only. -/
  single {owner : Option Nat} {first second index : Nat} : trie.link owner first = some index →
    trie.link owner second = some index → first = second
  owned {index : Nat} {node : Node} : trie.node index = some node → node.attached = true →
    ∃ owner slot, trie.link owner slot = some index

/-- The slots of a route lead from the top index to an owner, the deepest slot first. -/
inductive Route (trie : Trie) : List Nat → Option Nat → Prop
  | top : Route trie [] none
  | step {above : List Nat} {owner : Option Nat} {slot index : Nat} :
    Route trie above owner → trie.link owner slot = some index →
      Route trie (slot :: above) (some index)

/-- A data block that can be reached lies where its tag belongs. -/
def Placed (trie : Trie) (layout : Layout) : Prop :=
  ∀ slots index node, trie.Route slots (some index) → trie.node index = some node →
    node.level = layout.depth → slots = layout.slots node.tag layout.depth

section Links

variable {trie : Trie}

theorem link_some_eq_some_iff {owner slot index : Nat} :
    trie.link (some owner) slot = some index ↔
      ∃ node, trie.node owner = some node ∧ node.child slot = some index := by
  simp [link, Option.bind_eq_some_iff]

namespace Linked

variable (linked : trie.Linked)
include linked

theorem link_injective {first second : Option Nat} {firstSlot secondSlot index : Nat}
    (one : trie.link first firstSlot = some index)
    (other : trie.link second secondSlot = some index) :
    first = second ∧ firstSlot = secondSlot := by
  obtain ⟨node, isNode, _, hangs⟩ := linked.target one
  obtain ⟨node', isNode', _, hangs'⟩ := linked.target other
  rw [isNode, Option.some.injEq] at isNode'
  subst isNode'
  cases first with
  | none =>
    cases second with
    | none => exact ⟨rfl, hangs.2.symm.trans hangs'.2⟩
    | some table =>
      obtain ⟨_, above, isAbove, level⟩ := hangs'
      have positive := linked.level_pos isAbove
      have topLevel := hangs.1
      omega
  | some table =>
    cases second with
    | none =>
      obtain ⟨_, above, isAbove, level⟩ := hangs
      have positive := linked.level_pos isAbove
      have topLevel := hangs'.1
      omega
    | some table' =>
      have same : table = table' := hangs.1.symm.trans hangs'.1
      subst same
      exact ⟨rfl, linked.single one other⟩

theorem link_ne_of_node_eq_none {index : Nat} (vacant : trie.node index = none)
    (owner : Option Nat) (slot : Nat) : trie.link owner slot ≠ some index := by
  intro leads
  obtain ⟨node, isNode, _⟩ := linked.target leads
  rw [vacant] at isNode
  cases isNode

/-- A route ends at an attached block whose level counts its slots. -/
theorem node_of_route {slots : List Nat} {index : Nat} (route : trie.Route slots (some index)) :
    ∃ node, trie.node index = some node ∧ node.attached = true ∧ node.level = slots.length := by
  generalize reached : some index = owner at route
  induction route generalizing index with
  | top => cases reached
  | @step above owner slot index' path leads ih =>
    cases reached
    obtain ⟨node, isNode, attached, hangs⟩ := linked.target leads
    refine ⟨node, isNode, attached, ?_⟩
    cases owner with
    | none =>
      cases path
      exact hangs.1
    | some table =>
      obtain ⟨above, isAbove, _, length⟩ := ih rfl
      obtain ⟨_, above', isAbove', level⟩ := hangs
      rw [isAbove, Option.some.injEq] at isAbove'
      subst isAbove'
      rw [level, length, List.length_cons]

theorem route_injective {first second : List Nat} {owner : Option Nat}
    (one : trie.Route first owner) (other : trie.Route second owner) : first = second := by
  induction one generalizing second with
  | top =>
    cases other
    rfl
  | step path leads ih =>
    cases other with
    | step path' leads' =>
      obtain ⟨sameOwner, sameSlot⟩ := linked.link_injective leads leads'
      subst sameOwner sameSlot
      rw [ih path']

end Linked

theorem Route.functional {slots : List Nat} {first second : Option Nat}
    (one : trie.Route slots first) (other : trie.Route slots second) : first = second := by
  induction one generalizing second with
  | top =>
    cases other
    rfl
  | step path leads ih =>
    cases other with
    | step path' leads' =>
      have same := ih path'
      subst same
      rw [← leads, ← leads']

theorem Route.eq_nil {slots : List Nat} (route : trie.Route slots none) : slots = [] := by
  cases route
  rfl

/-- A route is known by its links. -/
theorem Route.congr {other : Trie}
    (same : ∀ owner slot, other.link owner slot = trie.link owner slot) {slots : List Nat}
    {owner : Option Nat} (route : trie.Route slots owner) : other.Route slots owner := by
  induction route with
  | top => exact .top
  | step _ leads ih => exact .step ih ((same _ _).trans leads)

/-- What the slots of a route lead to on the way. -/
theorem Route.above {slots : List Nat} {owner : Option Nat} (route : trie.Route slots owner) :
    ∀ {above : List Nat}, above <:+ slots → ∃ owner, trie.Route above owner := by
  induction route with
  | top =>
    intro above suffix
    rw [List.suffix_nil.mp suffix]
    exact ⟨_, .top⟩
  | step path leads ih =>
    intro above suffix
    rcases List.suffix_cons_iff.mp suffix with rfl | shorter
    · exact ⟨_, .step path leads⟩
    · exact ih shorter

theorem Route.not_of_free {above slots : List Nat} {owner reached : Option Nat} {slot : Nat}
    (route : trie.Route above owner) (free : trie.link owner slot = none)
    (further : slot :: above <:+ slots) : ¬ trie.Route slots reached := by
  intro whole
  obtain ⟨_, beyond⟩ := whole.above further
  cases beyond with
  | step path leads =>
    rw [path.functional route, free] at leads
    cases leads

end Links

section Detaching

def unhang (trie : Trie) (victim : Nat) : Trie where
  top slot := (trie.top slot).filter (· != victim)
  node index := (trie.node index).map fun node =>
    { node with child := fun slot => (node.child slot).filter (· != victim) }

def orphan (trie : Trie) (children : List Nat) : Trie where
  top := trie.top
  node index := (trie.node index).map fun node =>
    if index ∈ children then { node with attached := false } else node

def erase (trie : Trie) (victim : Nat) : Trie where
  top := trie.top
  node index := if index = victim then none else trie.node index

/-- Clear the links to a block, take the parent away from its children, and forget it. -/
def detach (trie : Trie) (victim : Nat) (children : List Nat) : Trie :=
  ((trie.unhang victim).orphan children).erase victim

variable {trie : Trie} {victim : Nat} {children : List Nat}

theorem filter_ne_eq_self {found : Option Nat} (distinct : found ≠ some victim) :
    found.filter (· != victim) = found := by
  cases found with
  | none => rfl
  | some index => simpa [Option.filter] using distinct

theorem node_detach_eq_some_iff {index : Nat} {node : Node} :
    (trie.detach victim children).node index = some node ↔
      index ≠ victim ∧ ∃ before, trie.node index = some before ∧
        node = { before with
          attached := before.attached && decide (index ∉ children)
          child := fun slot => (before.child slot).filter (· != victim) } := by
  by_cases isVictim : index = victim
  · simp [detach, erase, isVictim]
  · cases found : trie.node index with
    | none => simp [detach, erase, orphan, unhang, isVictim, found]
    | some before =>
      have afterwards : (trie.detach victim children).node index = some { before with
          attached := before.attached && decide (index ∉ children)
          child := fun slot => (before.child slot).filter (· != victim) } := by
        by_cases isChild : index ∈ children <;>
          simp [detach, erase, orphan, unhang, isVictim, found, isChild]
      rw [afterwards, Option.some.injEq]
      constructor
      · rintro rfl
        exact ⟨isVictim, before, rfl, rfl⟩
      · rintro ⟨_, _, same, rfl⟩
        cases same
        rfl

theorem node_detach_of_ne {index : Nat} (distinct : index ≠ victim) :
    (trie.detach victim children).node index = (trie.node index).map fun before =>
      { before with
        attached := before.attached && decide (index ∉ children)
        child := fun slot => (before.child slot).filter (· != victim) } := by
  refine Option.ext fun node => ?_
  rw [node_detach_eq_some_iff, Option.map_eq_some_iff]
  simp only [ne_eq, distinct, not_false_eq_true, true_and, eq_comm]

theorem link_detach_eq_some_iff {owner : Option Nat} {slot index : Nat} :
    (trie.detach victim children).link owner slot = some index ↔
      owner ≠ some victim ∧ index ≠ victim ∧ trie.link owner slot = some index := by
  cases owner with
  | none => simp [link, detach, erase, orphan, unhang, Option.filter_eq_some_iff, and_comm]
  | some table =>
    simp only [link_some_eq_some_iff, node_detach_eq_some_iff]
    constructor
    · rintro ⟨_, ⟨notVictim, before, isNode, rfl⟩, leads⟩
      simp only [Option.filter_eq_some_iff, bne_iff_ne] at leads
      exact ⟨by simpa using notVictim, leads.2, before, isNode, leads.1⟩
    · rintro ⟨notVictim, distinct, before, isNode, leads⟩
      refine ⟨_, ⟨by simpa using notVictim, before, isNode, rfl⟩, ?_⟩
      simp only [Option.filter_eq_some_iff, bne_iff_ne]
      exact ⟨leads, distinct⟩

theorem Linked.detach (linked : trie.Linked)
    (areChildren : ∀ index, index ∈ children ↔ ∃ slot, trie.link (some victim) slot = some index) :
    (trie.detach victim children).Linked where
  level_pos := by
    intro index node isNode
    obtain ⟨_, before, isBefore, rfl⟩ := node_detach_eq_some_iff.mp isNode
    have positive := linked.level_pos isBefore
    exact positive
  target := by
    intro owner slot index leads
    obtain ⟨notVictim, distinct, leads⟩ := link_detach_eq_some_iff.mp leads
    obtain ⟨before, isBefore, attached, hangs⟩ := linked.target leads
    refine ⟨_, node_detach_eq_some_iff.mpr ⟨distinct, before, isBefore, rfl⟩, ?_, ?_⟩
    · have notChild : index ∉ children := by
        intro isChild
        obtain ⟨slot', leads'⟩ := (areChildren index).mp isChild
        exact notVictim (linked.link_injective leads leads').1
      simp [attached, notChild]
    · cases owner with
      | none => exact hangs
      | some table =>
        obtain ⟨parent, above, isAbove, level⟩ := hangs
        exact ⟨parent, _, node_detach_eq_some_iff.mpr ⟨by simpa using notVictim, above, isAbove, rfl⟩,
          level⟩
  single := by
    intro owner first second index one other
    exact linked.single (link_detach_eq_some_iff.mp one).2.2 (link_detach_eq_some_iff.mp other).2.2
  owned := by
    intro index node isNode attached
    obtain ⟨distinct, before, isBefore, rfl⟩ := node_detach_eq_some_iff.mp isNode
    simp only [Bool.and_eq_true, decide_eq_true_eq] at attached
    obtain ⟨owner, slot, leads⟩ := linked.owned isBefore attached.1
    refine ⟨owner, slot, link_detach_eq_some_iff.mpr ⟨?_, distinct, leads⟩⟩
    rintro rfl
    exact attached.2 ((areChildren index).mpr ⟨slot, leads⟩)

theorem Route.of_detach {slots : List Nat} {owner : Option Nat}
    (route : (trie.detach victim children).Route slots owner) :
    trie.Route slots owner ∧ owner ≠ some victim := by
  induction route with
  | top => exact ⟨.top, nofun⟩
  | step path leads ih =>
    obtain ⟨_, distinct, leads⟩ := link_detach_eq_some_iff.mp leads
    exact ⟨.step ih.1 leads, by simpa using distinct⟩

/-- A route that keeps clear of the victim survives. -/
theorem Route.detach {slots : List Nat} {owner : Option Nat} (route : trie.Route slots owner)
    (clear : ∀ above, above <:+ slots → ¬ trie.Route above (some victim)) :
    (trie.detach victim children).Route slots owner := by
  induction route with
  | top => exact .top
  | @step above owner slot index path leads ih =>
    refine .step (ih fun above' suffix => clear above' (suffix.trans (List.suffix_cons _ _)))
      (link_detach_eq_some_iff.mpr ⟨?_, ?_, leads⟩)
    · rintro rfl
      exact clear above (List.suffix_cons _ _) path
    · rintro rfl
      exact clear _ List.suffix_rfl (.step path leads)

theorem unhang_eq_self (unlinked : ∀ owner slot, trie.link owner slot ≠ some victim) :
    trie.unhang victim = trie := by
  ext1
  · funext slot
    exact filter_ne_eq_self (unlinked none slot)
  · funext index
    cases found : trie.node index with
    | none => simp [unhang, found]
    | some node =>
      simp only [unhang, found, Option.map_some, Option.some.injEq]
      ext1 <;> try rfl
      funext slot
      refine filter_ne_eq_self fun leads => unlinked (some index) slot ?_
      exact link_some_eq_some_iff.mpr ⟨node, found, leads⟩

/-- Clearing the only link to a block, out of the top index. -/
theorem Linked.unhang_of_top (linked : trie.Linked) {slot : Nat}
    (leads : trie.link none slot = some victim) :
    trie.unhang victim = { trie with top := Function.update trie.top slot none } := by
  have top : (trie.unhang victim).top = Function.update trie.top slot none := by
    funext other
    by_cases same : other = slot
    · subst same
      change (trie.link none other).filter _ = _
      rw [leads, Function.update_self]
      simp [Option.filter]
    · rw [Function.update_of_ne same]
      refine filter_ne_eq_self fun leads' => same ?_
      have there : trie.link none other = some victim := leads'
      exact (linked.link_injective there leads).2
  have node : (trie.unhang victim).node = trie.node := by
    funext index
    cases found : trie.node index with
    | none => simp [unhang, found]
    | some node =>
      simp only [unhang, found, Option.map_some, Option.some.injEq]
      ext1 <;> try rfl
      funext other
      refine filter_ne_eq_self fun leads' => ?_
      have here := link_some_eq_some_iff.mpr ⟨node, found, leads'⟩
      exact absurd (linked.link_injective leads here).1 (by simp)
  exact Trie.ext top node

/-- Clearing the only link to a block, out of a table. -/
theorem Linked.unhang_of_table (linked : trie.Linked) {table slot : Nat} {above : Node}
    (isAbove : trie.node table = some above) (leads : trie.link (some table) slot = some victim) :
    trie.unhang victim = { trie with
      node := Function.update trie.node table
        (some { above with child := fun slot => (above.child slot).filter (· != victim) }) } := by
  have top : (trie.unhang victim).top = trie.top := by
    funext other
    refine filter_ne_eq_self fun leads' => ?_
    have here : trie.link none other = some victim := leads'
    exact absurd (linked.link_injective leads here).1 (by simp)
  have node : (trie.unhang victim).node = Function.update trie.node table
      (some { above with child := fun slot => (above.child slot).filter (· != victim) }) := by
    funext index
    by_cases same : index = table
    · subst same
      rw [Function.update_self]
      simp [unhang, isAbove]
    · rw [Function.update_of_ne same]
      cases found : trie.node index with
      | none => simp [unhang, found]
      | some node =>
        simp only [unhang, found, Option.map_some, Option.some.injEq]
        ext1 <;> try rfl
        funext other
        refine filter_ne_eq_self fun leads' => same ?_
        have here := link_some_eq_some_iff.mpr ⟨node, found, leads'⟩
        exact Option.some.inj (linked.link_injective here leads).1
  exact Trie.ext top node

theorem orphan_nil (trie : Trie) : trie.orphan [] = trie := by
  have node : (trie.orphan []).node = trie.node := by
    funext index
    simp [orphan]
  exact Trie.ext rfl node

theorem orphan_cons (trie : Trie) (index : Nat) (rest : List Nat) :
    trie.orphan (index :: rest) = (trie.orphan [index]).orphan rest := by
  have node : (trie.orphan (index :: rest)).node = ((trie.orphan [index]).orphan rest).node := by
    funext other
    simp only [orphan, Option.map_map]
    congr 1
    funext node
    by_cases here : other = index <;> by_cases later : other ∈ rest <;>
      simp [here, later, Function.comp]
  exact Trie.ext rfl node

theorem orphan_singleton {index : Nat} {node : Node} (isNode : trie.node index = some node) :
    trie.orphan [index] = { trie with
      node := Function.update trie.node index (some { node with attached := false }) } := by
  have nodes : (trie.orphan [index]).node =
      Function.update trie.node index (some { node with attached := false }) := by
    funext other
    by_cases here : other = index
    · subst here
      rw [Function.update_self]
      simp [orphan, isNode]
    · rw [Function.update_of_ne here]
      simp [orphan, here]
  exact Trie.ext rfl nodes

end Detaching

section Grafting

/-- Put a block in place and point a slot of its owner at it. -/
def graft (trie : Trie) (owner : Option Nat) (slot index : Nat) (node : Node) : Trie where
  top other := if owner = none ∧ other = slot then some index else trie.top other
  node other :=
    if other = index then some node
    else (trie.node other).map fun above =>
      if owner = some other then
        { above with child := Function.update above.child slot (some index) }
      else above

/-- A new block fits into a slot: the slot is free and the block has nothing below it. -/
structure Fits (trie : Trie) (owner : Option Nat) (slot index : Nat) (node : Node) : Prop where
  vacant : trie.node index = none
  free : trie.link owner slot = none
  attached : node.attached = true
  blank : ∀ slot, node.child slot = none
  hangs : trie.Hangs owner slot node

variable {trie : Trie} {owner : Option Nat} {slot index : Nat} {node : Node}

theorem Fits.owner_ne (fits : trie.Fits owner slot index node) : owner ≠ some index := by
  rintro rfl
  obtain ⟨_, above, isAbove, _⟩ := fits.hangs
  rw [fits.vacant] at isAbove
  cases isAbove

theorem node_graft_self : (trie.graft owner slot index node).node index = some node := by
  simp [graft]

theorem node_graft_of_ne {other : Nat} (distinct : other ≠ index) :
    (trie.graft owner slot index node).node other =
      (trie.node other).map fun above =>
        if owner = some other then
          { above with child := Function.update above.child slot (some index) }
        else above := by
  simp [graft, distinct]

/-- Grafting changes nothing about the other blocks but the links of the owner. -/
theorem node_graft_of_node (owner : Option Nat) (slot : Nat) (node : Node) {other : Nat}
    {before : Node} (distinct : other ≠ index) (isBefore : trie.node other = some before) :
    ∃ after, (trie.graft owner slot index node).node other = some after ∧
      after.attached = before.attached ∧ after.level = before.level ∧ after.tag = before.tag ∧
      after.parent = before.parent := by
  rw [node_graft_of_ne distinct, isBefore, Option.map_some]
  refine ⟨_, rfl, ?_⟩
  split <;> exact ⟨rfl, rfl, rfl, rfl⟩

theorem node_of_node_graft {other : Nat} {after : Node} (distinct : other ≠ index)
    (isAfter : (trie.graft owner slot index node).node other = some after) :
    ∃ before, trie.node other = some before ∧
      after.attached = before.attached ∧ after.level = before.level ∧ after.tag = before.tag ∧
      after.parent = before.parent := by
  rw [node_graft_of_ne distinct, Option.map_eq_some_iff] at isAfter
  obtain ⟨before, isBefore, rfl⟩ := isAfter
  refine ⟨before, isBefore, ?_⟩
  split <;> exact ⟨rfl, rfl, rfl, rfl⟩

theorem link_graft_eq_some_iff (fits : trie.Fits owner slot index node) {other : Option Nat}
    {slot' target : Nat} :
    (trie.graft owner slot index node).link other slot' = some target ↔
      (other = owner ∧ slot' = slot ∧ target = index) ∨ trie.link other slot' = some target := by
  have free := fits.free
  cases other with
  | none =>
    by_cases here : owner = none ∧ slot' = slot
    · obtain ⟨rfl, rfl⟩ := here
      simp only [link] at free
      simp [link, graft, free, eq_comm]
    · have elsewhere : ¬ (none = owner ∧ slot' = slot) := by simpa [eq_comm] using here
      simp only [link, graft, if_neg here]
      constructor
      · exact .inr
      · rintro (⟨isOwner, isSlot, _⟩ | leads)
        · exact absurd ⟨isOwner, isSlot⟩ elsewhere
        · exact leads
  | some table =>
    by_cases isNew : table = index
    · subst isNew
      have notOwner : some table ≠ owner := fits.owner_ne.symm
      simp [link, node_graft_self, fits.blank, fits.vacant, notOwner]
    · cases found : trie.node table with
      | none =>
        have notOwner : some table ≠ owner := by
          rintro rfl
          obtain ⟨_, above, isAbove, _⟩ := fits.hangs
          rw [found] at isAbove
          cases isAbove
        simp [link, node_graft_of_ne isNew, found, notOwner]
      | some above =>
        simp only [link, node_graft_of_ne isNew, found, Option.map_some, Option.bind_some]
        by_cases isOwner : owner = some table
        · subst isOwner
          simp only [link, found, Option.bind_some] at free
          by_cases isSlot : slot' = slot
          · subst isSlot
            simp [free, eq_comm]
          · simp [isSlot]
        · have notOwner : some table ≠ owner := fun same => isOwner same.symm
          simp [isOwner, notOwner]

theorem Hangs.graft (fits : trie.Fits owner slot index node) {other : Option Nat} {slot' : Nat}
    {hung : Node} (hangs : trie.Hangs other slot' hung) :
    (trie.graft owner slot index node).Hangs other slot' hung := by
  cases other with
  | none => exact hangs
  | some table =>
    obtain ⟨parent, above, isAbove, level⟩ := hangs
    have distinct : table ≠ index := by
      rintro rfl
      rw [fits.vacant] at isAbove
      cases isAbove
    obtain ⟨after, isAfter, _, sameLevel, _⟩ :=
      node_graft_of_node owner slot node distinct isAbove
    exact ⟨parent, after, isAfter, by rw [sameLevel, level]⟩

theorem Linked.graft (linked : trie.Linked) (fits : trie.Fits owner slot index node) :
    (trie.graft owner slot index node).Linked where
  level_pos := by
    intro other after isAfter
    by_cases isNew : other = index
    · subst isNew
      rw [node_graft_self, Option.some.injEq] at isAfter
      subst isAfter
      have hangs := fits.hangs
      cases owner with
      | none => exact hangs.1.ge
      | some table =>
        obtain ⟨_, above, _, level⟩ := hangs
        omega
    · obtain ⟨before, isBefore, _, level, _⟩ := node_of_node_graft isNew isAfter
      exact level ▸ linked.level_pos isBefore
  target := by
    intro other slot' target leads
    rcases (link_graft_eq_some_iff fits).mp leads with ⟨rfl, rfl, rfl⟩ | leads
    · exact ⟨node, node_graft_self, fits.attached, fits.hangs.graft fits⟩
    · obtain ⟨before, isBefore, attached, hangs⟩ := linked.target leads
      have distinct : target ≠ index := by
        rintro rfl
        rw [fits.vacant] at isBefore
        cases isBefore
      obtain ⟨after, isAfter, sameAttached, sameLevel, _, sameParent⟩ :=
        node_graft_of_node owner slot node distinct isBefore
      refine ⟨after, isAfter, sameAttached.trans attached, ?_⟩
      have hangs := hangs.graft fits
      cases other with
      | none => exact ⟨sameLevel.trans hangs.1, sameParent.trans hangs.2⟩
      | some table =>
        obtain ⟨parent, above, isAbove, level⟩ := hangs
        exact ⟨sameParent.trans parent, above, isAbove, sameLevel.trans level⟩
  single := by
    intro other first second target one another
    have unlinked := linked.link_ne_of_node_eq_none fits.vacant
    rcases (link_graft_eq_some_iff fits).mp one with ⟨_, isSlot, isNew⟩ | leads
    · rcases (link_graft_eq_some_iff fits).mp another with ⟨_, isSlot', _⟩ | leads'
      · exact isSlot.trans isSlot'.symm
      · exact absurd (isNew ▸ leads') (unlinked _ _)
    · rcases (link_graft_eq_some_iff fits).mp another with ⟨_, _, isNew⟩ | leads'
      · exact absurd (isNew ▸ leads) (unlinked _ _)
      · exact linked.single leads leads'
  owned := by
    intro other after isAfter attached
    by_cases isNew : other = index
    · subst isNew
      exact ⟨owner, slot, (link_graft_eq_some_iff fits).mpr (.inl ⟨rfl, rfl, rfl⟩)⟩
    · obtain ⟨before, isBefore, sameAttached, _⟩ := node_of_node_graft isNew isAfter
      obtain ⟨owner', slot', leads⟩ := linked.owned isBefore (sameAttached ▸ attached)
      exact ⟨owner', slot', (link_graft_eq_some_iff fits).mpr (.inr leads)⟩

theorem Route.graft (fits : trie.Fits owner slot index node) {slots : List Nat}
    {reached : Option Nat} (route : trie.Route slots reached) :
    (trie.graft owner slot index node).Route slots reached := by
  induction route with
  | top => exact .top
  | step path leads ih => exact .step ih ((link_graft_eq_some_iff fits).mpr (.inr leads))

/-- Grafting adds only the route to the new block. -/
theorem Route.of_graft (fits : trie.Fits owner slot index node) {slots : List Nat}
    {reached : Option Nat} (route : (trie.graft owner slot index node).Route slots reached) :
    trie.Route slots reached ∨
      reached = some index ∧ ∃ above, slots = slot :: above ∧ trie.Route above owner := by
  induction route with
  | top => exact .inl .top
  | @step above owner' slot' target path leads ih =>
    rcases (link_graft_eq_some_iff fits).mp leads with ⟨rfl, rfl, rfl⟩ | leads
    · rcases ih with path | ⟨isNew, _⟩
      · exact .inr ⟨rfl, above, rfl, path⟩
      · exact absurd isNew fits.owner_ne
    · rcases ih with path | ⟨rfl, _⟩
      · exact .inl (.step path leads)
      · rw [link, fits.vacant] at leads
        cases leads

theorem graft_top (trie : Trie) (slot index : Nat) (node : Node) :
    trie.graft none slot index node =
      { top := Function.update trie.top slot (some index)
        node := Function.update trie.node index (some node) } := by
  have top : (trie.graft none slot index node).top =
      Function.update trie.top slot (some index) := by
    funext other
    by_cases same : other = slot <;> simp [graft, same]
  have nodes : (trie.graft none slot index node).node =
      Function.update trie.node index (some node) := by
    funext other
    by_cases isNew : other = index
    · simp [graft, isNew]
    · rw [Function.update_of_ne isNew]
      simp [graft, isNew]
  exact Trie.ext top nodes

theorem graft_table {table : Nat} {above : Node} (isAbove : trie.node table = some above)
    (distinct : table ≠ index) :
    trie.graft (some table) slot index node =
      { top := trie.top
        node := Function.update
          (Function.update trie.node table
            (some { above with child := Function.update above.child slot (some index) }))
          index (some node) } := by
  have top : (trie.graft (some table) slot index node).top = trie.top := by
    funext other
    simp [graft]
  have nodes : (trie.graft (some table) slot index node).node = Function.update
      (Function.update trie.node table
        (some { above with child := Function.update above.child slot (some index) }))
      index (some node) := by
    funext other
    by_cases isNew : other = index
    · subst isNew
      rw [node_graft_self, Function.update_self]
    · rw [Function.update_of_ne isNew, node_graft_of_ne isNew]
      by_cases isTable : other = table
      · subst isTable
        rw [Function.update_self, isAbove, Option.map_some, if_pos rfl]
      · rw [Function.update_of_ne isTable]
        have others : ¬ table = other := fun same => isTable same.symm
        simp [others]
  exact Trie.ext top nodes

theorem update_graft (trie : Trie) (owner : Option Nat) (slot index : Nat) (node other : Node) :
    { trie.graft owner slot index node with
      node := Function.update (trie.graft owner slot index node).node index (some other) } =
      trie.graft owner slot index other := by
  have nodes : Function.update (trie.graft owner slot index node).node index (some other) =
      (trie.graft owner slot index other).node := by
    funext place
    by_cases isNew : place = index
    · subst isNew
      rw [Function.update_self, node_graft_self]
    · rw [Function.update_of_ne isNew, node_graft_of_ne isNew, node_graft_of_ne isNew]
  exact Trie.ext rfl nodes

end Grafting

end Trie

end TrieCache
