import TrieCache.Proofs.Detachment
import TrieCache.Proofs.Growth

/-!
# What becomes of the blocks that are left alone

A block whose slot is not taken keeps its place, its level, its tag and the kind of its payload,
whatever is evicted and built around it.  What shows of that in the block is little: it may
lose its parent, and in a table the link to an evicted child is cleared and the link to a new
child is set.
-/

namespace TrieCache

/-- How a link may change while blocks are evicted and built anew in some slots of the pool. -/
inductive Link.Tended (taken : List Nat) : Link → Link → Prop
  | kept (link : Link) : Tended taken link link
  /-- The child was evicted. -/
  | unlinked {child : Nat} : child ∈ taken →
    Tended taken { valid := true, target := child } { valid := false, target := child }
  /-- A new child was built where there was none, or where the child was evicted. -/
  | linked {link : Link} {child : Nat} : child ∈ taken → (link.valid = true → link.target ∈ taken) →
    Tended taken link { valid := true, target := child }

namespace Payload

/-- How a payload may change while blocks are evicted and built anew in other slots. -/
inductive Tended (taken : List Nat) : Payload → Payload → Prop
  | empty : Tended taken .empty .empty
  | table {links links' : Array Link} (size_eq : links'.size = links.size)
    (slots : ∀ {slot : Nat} {link link' : Link}, links[slot]? = some link →
      links'[slot]? = some link' → link.Tended taken link') :
    Tended taken (.table links) (.table links')
  | data (bytes : Array UInt8) : Tended taken (.data bytes) (.data bytes)

inductive SameKind : Payload → Payload → Prop
  | empty : SameKind .empty .empty
  | table {links links' : Array Link} : SameKind (.table links) (.table links')
  | data {bytes bytes' : Array UInt8} : SameKind (.data bytes) (.data bytes')

end Payload

/-- A block stays in its slot and of its kind, and is not attached again once it has lost its
parent.  What may happen to its payload is a parameter. -/
structure Block.Stays (payloads : Payload → Payload → Prop) (was is : Block) : Prop where
  valid : is.valid = was.valid
  locked : is.locked = was.locked
  level : is.level = was.level
  tag : is.tag = was.tag
  parent : is.parent = was.parent
  parentValid : is.parentValid = true → was.parentValid = true
  payload : payloads was.payload is.payload

namespace Cache

/-- What is in a slot stays there across a change of the cache. -/
def Stays (before : Cache) (payloads : Payload → Payload → Prop) (index : Nat) (after : Cache) :
    Prop :=
  ∀ ⦃was : Block⦄, before.pool.blocks[index]? = some was →
    ∃ is, after.pool.blocks[index]? = some is ∧ was.Stays payloads is

end Cache

section Tending

variable {taken rest : List Nat} {victim child : Nat}

namespace Link.Tended

variable {was middle is : Link}

/-- A link that is set stays set, for no slot is taken twice. -/
theorem trans (apart : taken.Disjoint rest) (first : was.Tended taken middle)
    (second : middle.Tended rest is) : was.Tended (taken ++ rest) is := by
  cases second with
  | kept =>
    cases first with
    | kept => exact .kept _
    | unlinked member => exact .unlinked (List.mem_append_left _ member)
    | linked member room =>
      exact .linked (List.mem_append_left _ member) fun valid => List.mem_append_left _ (room valid)
  | unlinked member =>
    cases first with
    | kept => exact .unlinked (List.mem_append_right _ member)
    | linked member' => exact (apart member' member).elim
  | linked member room =>
    refine .linked (List.mem_append_right _ member) fun valid => ?_
    cases first with
    | kept => exact List.mem_append_right _ (room valid)
    | unlinked member' => exact List.mem_append_left _ member'
    | linked _ room' => exact List.mem_append_left _ (room' valid)

theorem hang (tended : was.Tended taken is) (member : child ∈ taken) (free : is.valid = false) :
    was.Tended taken { valid := true, target := child } := by
  refine .linked member fun valid => ?_
  cases tended with
  | kept => exact absurd (free.symm.trans valid) Bool.false_ne_true
  | unlinked member' => exact member'
  | linked => cases free

end Link.Tended

theorem Link.tended_cut (victim : Nat) (link : Link) : link.Tended [victim] (link.cut victim) := by
  by_cases leads : link.leads? = some victim
  · rw [Link.cut_eq_cleared leads]
    obtain ⟨valid, rfl⟩ := Link.leads?_eq_some_iff.mp leads
    rcases link with ⟨_, child⟩
    cases valid
    exact .unlinked (List.mem_singleton_self child)
  · rw [Link.cut_eq_self leads]
    exact .kept link

namespace Payload

theorem Tended.refl (taken : List Nat) (payload : Payload) : payload.Tended taken payload := by
  cases payload with
  | empty => exact .empty
  | table links =>
    refine .table rfl fun found found' => ?_
    cases found.symm.trans found'
    exact .kept _
  | data bytes => exact .data bytes

theorem Tended.of_eq ⦃was is : Payload⦄ (same : was = is) : was.Tended taken is :=
  same ▸ .refl taken was

theorem tended_cut (victim : Nat) (payload : Payload) :
    payload.Tended [victim] (payload.cut victim) := by
  cases payload with
  | empty => exact .empty
  | table links =>
    refine .table Array.size_map fun {slot link link'} found found' => ?_
    rw [Array.getElem?_map, found, Option.map_some, Option.some.injEq] at found'
    exact found' ▸ link.tended_cut victim
  | data bytes => exact .data bytes

theorem Tended.trans {was middle is : Payload} (apart : taken.Disjoint rest)
    (first : was.Tended taken middle) (second : middle.Tended rest is) :
    was.Tended (taken ++ rest) is := by
  cases second with
  | empty =>
    cases first
    exact .empty
  | @table middle _ size_eq slots =>
    cases first with
    | table size_eq' slots' =>
      refine .table (size_eq.trans size_eq') fun {slot link link'} found found' => ?_
      have slot_lt : slot < middle.size :=
        size_eq ▸ (Array.getElem?_eq_some_iff.mp found').1
      have isMiddle := Array.getElem?_eq_getElem slot_lt
      exact (slots' found isMiddle).trans apart (slots isMiddle found')
  | data =>
    cases first
    exact .data _

theorem Tended.sameKind {was is : Payload} (tended : was.Tended taken is) : was.SameKind is := by
  cases tended with
  | empty => exact .empty
  | table => exact .table
  | data => exact .data

theorem SameKind.refl (payload : Payload) : payload.SameKind payload :=
  (Tended.refl [] payload).sameKind

theorem SameKind.trans ⦃was middle is : Payload⦄ (first : was.SameKind middle)
    (second : middle.SameKind is) : was.SameKind is := by
  cases first <;> cases second <;> constructor

end Payload

namespace Block.Stays

variable {payloads others : Payload → Payload → Prop} {was middle is : Block}

theorem trans {across : Payload → Payload → Prop}
    (compose : ∀ ⦃was middle is⦄, payloads was middle → others middle is → across was is)
    (first : was.Stays payloads middle) (second : middle.Stays others is) :
    was.Stays across is where
  valid := second.valid.trans first.valid
  locked := second.locked.trans first.locked
  level := second.level.trans first.level
  tag := second.tag.trans first.tag
  parent := second.parent.trans first.parent
  parentValid := fun attached => first.parentValid (second.parentValid attached)
  payload := compose first.payload second.payload

theorem mono (weaker : ∀ ⦃was is⦄, payloads was is → others was is) (stays : was.Stays payloads is) :
    was.Stays others is where
  valid := stays.valid
  locked := stays.locked
  level := stays.level
  tag := stays.tag
  parent := stays.parent
  parentValid := stays.parentValid
  payload := weaker stays.payload

theorem refl (block : Block) : block.Stays Eq block :=
  ⟨rfl, rfl, rfl, rfl, rfl, id, rfl⟩

theorem of_cut (block : Block) (victim : Nat) (attached : Bool) :
    block.Stays (Payload.Tended [victim])
      { block.cut victim with parentValid := block.parentValid && attached } :=
  ⟨rfl, rfl, rfl, rfl, rfl, fun both => (Bool.and_eq_true_iff.mp both).1,
    block.payload.tended_cut victim⟩

theorem setLink (stays : was.Stays (Payload.Tended taken) is) (member : child ∈ taken) {slot : Nat}
    (free : is.child? slot = none) :
    was.Stays (Payload.Tended taken) (is.setLink slot { valid := true, target := child }) := by
  have payload := stays.payload
  cases isPayload : is.payload with
  | empty | data =>
    have same : is.setLink slot { valid := true, target := child } = is := by
      simp [Block.setLink, isPayload]
    rwa [same]
  | table links' =>
    have set : is.setLink slot { valid := true, target := child } =
        { is with payload := .table (links'.setIfInBounds slot { valid := true, target := child }) } := by
      simp [Block.setLink, isPayload]
    rw [isPayload] at payload
    rw [set]
    refine ⟨stays.valid, stays.locked, stays.level, stays.tag, stays.parent, stays.parentValid, ?_⟩
    generalize was.payload = before at payload
    cases payload with
    | @table links _ size_eq slots =>
      refine .table (Array.size_setIfInBounds.trans size_eq) fun {place link link'} found found' => ?_
      have place_lt : place < links'.size := size_eq ▸ (Array.getElem?_eq_some_iff.mp found).1
      have isLink := Array.getElem?_eq_getElem place_lt
      rw [Array.getElem?_setIfInBounds] at found'
      split at found'
      next here =>
        subst here
        rw [if_pos place_lt, Option.some.injEq] at found'
        rw [Block.child?_eq_bind, Block.links, isPayload] at free
        have invalid := Cache.invalid_of_leads_eq_none isLink free
        exact found' ▸ (slots found isLink).hang member invalid
      next => exact slots found found'

end Block.Stays

end Tending

namespace Cache

variable {cache middle after : Cache} {address : Address} {index : Nat}

theorem Stays.trans {payloads others across : Payload → Payload → Prop}
    (compose : ∀ ⦃was middle is⦄, payloads was middle → others middle is → across was is)
    (first : cache.Stays payloads index middle) (second : middle.Stays others index after) :
    cache.Stays across index after := by
  intro was found
  obtain ⟨_, found', stays⟩ := first found
  obtain ⟨is, found'', stays'⟩ := second found'
  exact ⟨is, found'', stays.trans compose stays'⟩

theorem Stays.mono {payloads others : Payload → Payload → Prop}
    (weaker : ∀ ⦃was is⦄, payloads was is → others was is)
    (stays : cache.Stays payloads index after) : cache.Stays others index after := by
  intro was found
  obtain ⟨is, found', stays'⟩ := stays found
  exact ⟨is, found', stays'.mono weaker⟩

section Idling

theorem Stays.andThen {payloads : Payload → Payload → Prop} (first : cache.Stays Eq index middle)
    (second : middle.Stays payloads index after) : cache.Stays payloads index after :=
  first.trans (by rintro _ _ _ rfl other; exact other) second

theorem stays_of_block_eq (same : after.pool.blocks[index]? = cache.pool.blocks[index]?) :
    cache.Stays Eq index after :=
  fun was found => ⟨was, same.trans found, .refl was⟩

theorem stays_of_aged {pool : Pool} (aged : cache.pool.Aged pool) (stats : Stats) :
    cache.Stays Eq index { cache with pool, stats } := by
  intro was found
  obtain ⟨is, isBlock⟩ := Pool.exists_block (aged.capacity ▸ Pool.lt_capacity_of_block found)
  obtain ⟨reference, older⟩ := aged.block isBlock
  cases found.symm.trans older
  exact ⟨is, isBlock, rfl, rfl, rfl, rfl, rfl, id, rfl⟩

theorem block_of_updateBlock {change : Block → Block} {block : Block}
    (ran : cache.updateBlock index change = .ok after)
    (found : cache.pool.blocks[index]? = some block) :
    after.pool.blocks[index]? = some (change block) := by
  obtain ⟨_, rfl⟩ := updateBlock_eq_ok_iff.mp ran
  exact Pool.blocks_modify_self found change

theorem block_of_updateBlock_ne {place : Nat} {change : Block → Block} (other : index ≠ place)
    (ran : cache.updateBlock place change = .ok after) :
    after.pool.blocks[index]? = cache.pool.blocks[index]? := by
  obtain ⟨_, rfl⟩ := updateBlock_eq_ok_iff.mp ran
  exact Pool.blocks_modify_of_ne other change

theorem stays_modify (cache : Cache) (place : Nat) {change : Block → Block}
    (keeps : ∀ block : Block, block.Stays Eq (change block)) :
    cache.Stays Eq index { cache with pool := cache.pool.modify place change } := by
  intro was found
  by_cases here : index = place
  · subst here
    exact ⟨_, Pool.blocks_modify_self found change, keeps was⟩
  · exact stays_of_block_eq (Pool.blocks_modify_of_ne here change) found

theorem stays_of_search {walk : Walk} (ran : cache.search address = .ok (walk, after)) :
    cache.Stays Eq index after := by
  obtain ⟨pool, aged, _, rfl⟩ := aged_of_search ran
  exact stays_of_aged aged cache.stats

theorem stays_of_installFastPath {tag place : Nat}
    (ran : cache.installFastPath tag place = .ok after) : cache.Stays Eq index after := by
  obtain ⟨_, _, _, rfl⟩ := filed_of_installFastPath ran
  exact stays_of_block_eq rfl

theorem stays_of_resolve {found : Option Nat} (ran : cache.resolve address = .ok (found, after)) :
    cache.Stays Eq index after := by
  cases resolved_of_resolve ran with
  | direct searched => exact (stays_of_search searched).andThen (stays_of_block_eq rfl)
  | @walked walked _ _ _ searched _ _ filed =>
    have installs : (walked.record Stats.recordSlowPathHit).Stays Eq index after :=
      stays_of_installFastPath filed
    exact (stays_of_search searched).andThen installs
  | missed searched => exact (stays_of_search searched).andThen (stays_of_block_eq rfl)

theorem stays_of_clean (cache : Cache) (place : Nat) (block : Block) :
    cache.Stays Eq index (cache.clean place block) := by
  have cleaned : ∀ middle : Cache, middle.Stays Eq index { middle with
      pool := middle.pool.modify place fun block => { block with dirty := false } } :=
    fun middle => stays_modify middle place fun _ => ⟨rfl, rfl, rfl, rfl, rfl, id, rfl⟩
  unfold clean
  split
  next bytes _ =>
    have queued : cache.Stays Eq index (cache.queueWriteback block.tag bytes) :=
      stays_of_block_eq rfl
    exact queued.andThen (cleaned _)
  next => exact cleaned cache

theorem stays_of_cleaned (cleaned : cache.Cleaned after) : cache.Stays Eq index after := by
  induction cleaned with
  | refl => exact stays_of_block_eq rfl
  | @step middle place block _ _ _ _ ih => exact ih.andThen (stays_of_clean middle place block)

end Idling

section Inserting

variable {level victim : Nat} {parent : Option Nat} {pinned built : List Nat}

/-- An eviction clears the link to its block and may leave children without a parent. -/
theorem stays_of_evict (sound : cache.view.Sound) (tidy : cache.Tidy) (other : index ≠ victim)
    (ran : cache.evict victim = .ok after) :
    cache.Stays (Payload.Tended [victim]) index after := by
  intro was found
  obtain ⟨block, isBlock, _⟩ := bind_eq_ok_iff.mp ran
  have isVictim := Pool.get_eq_ok_iff.mp isBlock
  by_cases valid : block.valid = true
  · obtain ⟨_, ran', detaches⟩ := detaches_of_evict sound tidy isVictim valid
    cases ran.symm.trans ran'
    refine ⟨_, (detaches.others other).trans (congrArg (Option.map _) found), ?_⟩
    exact .of_cut was victim _
  · have same : after = cache := by
      refine eq_of_evict (fun stands => ?_) ran
      cases (Pool.statuses_of_block isVictim).symm.trans stands
      exact Bool.eq_false_iff.mpr valid
    exact ⟨was, same ▸ found, (Block.Stays.refl was).mono Payload.Tended.of_eq⟩

/-- Of the other blocks a build changes the table it hangs its block into, in a free slot. -/
theorem block_of_build {attachment : Attachment} (apart : attachment.parent ≠ some victim)
    (free : cache.SlotFree address attachment)
    (ran : cache.build victim attachment.level address attachment.parent = .ok after)
    (other : index ≠ victim) {block : Block} (found : cache.pool.blocks[index]? = some block) :
    after.pool.blocks[index]? = some block ∨ ∃ slot, block.child? slot = none ∧
      after.pool.blocks[index]? = some (block.setLink slot { valid := true, target := victim }) := by
  obtain ⟨payload, rebuilt, former, changed, hangs, _⟩ := hung_of_build apart free ran
  have found' := (block_of_updateBlock_ne other changed).trans found
  obtain ⟨level, parent⟩ := attachment
  cases parent with
  | none =>
    obtain ⟨slot, _, hangs⟩ := bind_eq_ok_iff.mp hangs
    obtain ⟨entry, _, hangs⟩ := bind_eq_ok_iff.mp hangs
    obtain ⟨named, changed', same⟩ := bind_eq_ok_iff.mp hangs
    cases same
    exact .inl ((block_of_updateBlock_ne other changed').trans found')
  | some parent =>
    obtain ⟨slot, isSlot, hangs⟩ := bind_eq_ok_iff.mp hangs
    obtain ⟨table, _, hangs⟩ := bind_eq_ok_iff.mp hangs
    split at hangs
    · cases hangs
    · obtain ⟨linked, linking, hangs⟩ := bind_eq_ok_iff.mp hangs
      obtain ⟨named, naming, same⟩ := bind_eq_ok_iff.mp hangs
      cases same
      have named := block_of_updateBlock_ne other naming
      by_cases here : index = parent
      · subst here
        refine .inr ⟨slot, ?_, named.trans (block_of_updateBlock linking found')⟩
        obtain ⟨_, rfl⟩ := updateBlock_eq_ok_iff.mp changed
        exact (Pool.look_of_block found _).symm.trans (free isSlot)
      · exact .inl (named.trans ((block_of_updateBlock_ne here linking).trans found'))

theorem stays_of_buildLevel (sound : cache.view.Sound) (tidy : cache.Tidy)
    (level_lt : level < cache.layout.depth)
    (anchored : cache.view.Anchored (cache.layout.blockOf address) level parent pinned)
    (ran : cache.buildLevel address (level + 1) parent pinned = .ok (victim, after))
    (other : index ≠ victim) : cache.Stays (Payload.Tended [victim]) index after := by
  obtain ⟨⟨chosen, pool⟩, selected, ran⟩ := bind_eq_ok_iff.mp ran
  obtain ⟨evicted, emptied, ran⟩ := bind_eq_ok_iff.mp ran
  obtain ⟨hung, ranBuild, same⟩ := bind_eq_ok_iff.mp ran
  cases same
  obtain ⟨swept, _⟩ := Pool.swept_of_selectVictim selected
  have sound' : (Cache.view { cache with
      pool, stats := cache.stats.recordVictim chosen.fallback }).Sound :=
    (view_of_aged swept.aged _).symm ▸ sound
  have free : cache.SlotFree address { level := level + 1, parent } :=
    slotFree_of_free sound level_lt anchored.route anchored.free
  have guarded : ∀ table ∈ parent, table ∈ pinned := by
    rintro table rfl
    exact anchored.guarded List.suffix_rfl anchored.route
  obtain ⟨apart, free'⟩ := slotFree_of_evict free guarded selected emptied
  have stays := (stays_of_aged swept.aged _).andThen
    (stays_of_evict sound' (tidy.of_swept swept _) other emptied)
  -- the new link joins what the eviction left of the table
  intro was found
  obtain ⟨middle, found', stays'⟩ := stays found
  rcases block_of_build apart free' ranBuild other found' with same | ⟨slot, isFree, set⟩
  · exact ⟨middle, same, stays'⟩
  · exact ⟨_, set, stays'.setLink (List.mem_singleton_self _) isFree⟩

theorem stays_of_buildPath (sound : cache.view.Sound) (tidy : cache.Tidy)
    (inRange : cache.layout.contains address = true) {levels : Nat}
    (depth_eq : level + levels = cache.layout.depth)
    (anchored : cache.view.Anchored (cache.layout.blockOf address) level parent pinned)
    (ran : cache.buildPath address (level + 1) parent pinned levels = .ok (built, after))
    (nodup : built.Nodup) (other : index ∉ built) :
    cache.Stays (Payload.Tended built) index after := by
  induction levels generalizing cache level parent pinned built with
  | zero =>
    cases ran
    exact (stays_of_block_eq rfl).mono Payload.Tended.of_eq
  | succ levels ih =>
    obtain ⟨⟨victim, middle⟩, first, ran⟩ := bind_eq_ok_iff.mp ran
    obtain ⟨⟨rest, _⟩, others, same⟩ := bind_eq_ok_iff.mp ran
    cases same
    obtain ⟨fresh, nodup'⟩ := List.nodup_cons.mp nodup
    obtain ⟨distinct, spared⟩ := not_or.mp (mt List.mem_cons.mpr other)
    have stays := stays_of_buildLevel sound tidy (by omega) anchored first distinct
    have apart : [victim].Disjoint rest := List.singleton_disjoint.mpr fresh
    have compose ⦃was middle is : Payload⦄ (first : was.Tended [victim] middle)
        (second : middle.Tended rest is) : was.Tended (victim :: rest) is :=
      first.trans apart second
    refine stays.trans compose ?_
    cases levels with
    | zero =>
      cases others
      exact (stays_of_block_eq rfl).mono Payload.Tended.of_eq
    | succ levels =>
      obtain ⟨tidy', sound', shed, anchored'⟩ :=
        (buildTable_outcome sound tidy inRange (by omega) anchored).of_eq_ok first
      have layout : middle.layout = cache.layout := congrArg Frame.layout shed.frame
      rw [← layout] at inRange anchored' depth_eq
      exact ih sound' tidy' inRange (by omega) anchored' others nodup' spared

theorem stays_of_installPath (sound : cache.view.Sound) (tidy : cache.Tidy)
    {content : Nat → Array UInt8 → Array UInt8}
    (ran : cache.installPath address content = .ok (built, after)) (other : index ∉ built) :
    cache.Stays (Payload.Tended built) index after := by
  cases staged_of_installPath sound tidy ran with
  | @mk anchor level levels leaf pinned built walked hung labelled indexed passed searched unmoved
      checked attached pins depth_eq anchored path isLast changed installed =>
    have inRange := require_eq_ok_iff.mp passed
    have layout : walked.layout = cache.layout := unmoved.layout
    have sound' := unmoved.sound sound
    rw [← layout] at inRange depth_eq anchored
    obtain ⟨raised, _⟩ := raised_of_buildPath sound' unmoved.tidy inRange (by omega) anchored path
    have stays : cache.Stays (Payload.Tended built) index hung :=
      (stays_of_search searched).andThen (stays_of_buildPath sound' unmoved.tidy inRange (by omega)
        anchored path raised.nodup other)
    have apart : index ≠ leaf := by
      rintro rfl
      exact other (List.mem_of_getLast? isLast)
    have labels : hung.Stays Eq index labelled :=
      stays_of_block_eq (block_of_updateBlock_ne apart changed)
    have files : hung.Stays Eq index indexed := labels.andThen (stays_of_installFastPath installed)
    exact stays.trans (by rintro _ _ _ tended rfl; exact tended) files

end Inserting

end Cache

end TrieCache
