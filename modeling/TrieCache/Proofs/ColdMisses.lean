import TrieCache.Proofs.Footprint
import TrieCache.Proofs.Packing
import TrieCache.Proofs.Replays

/-!
# Cold misses

What an access finds was put in after an access to the same block.  So the first read of a
block misses, whatever happened to its slot before.  As long as the ways to all the blocks
that are read fit the pool, these are the only misses: the ways go into blocks that were
never built, none of them is built twice, and nothing is taken out again.
-/

namespace TrieCache.Cache

variable {cache after : Cache} {address : Address} {block : Array UInt8} {hit : Bool}
  {seen : Finset Nat} {misses : Nat}

section Steps

/-- The blocks that were read so far, every one with a miss at least. -/
structure Warmed (cache : Cache) (seen : Finset Nat) (misses : Nat) : Prop where
  unwritten : cache.Unwritten
  mem_of_resolves {tag index : Nat} : cache.view.Resolves tag index → tag ∈ seen
  card_le : seen.card ≤ misses

/-- Nothing but the ways to the blocks that were read was built, and all of that is there. -/
structure Packed (cache : Cache) (seen : Finset Nat) (misses : Nat) : Prop where
  dense : cache.Dense (cache.layout.footprint seen)
  exists_mem {slots : List Nat} {index : Nat} : cache.trie.Route slots (some index) →
    ∃ tag ∈ seen, ∃ level, slots = cache.layout.slots tag level
  exists_leaf {tag : Nat} : tag ∈ seen →
    ∃ leaf, cache.trie.Route (cache.layout.slots tag cache.layout.depth) (some leaf)
  blocksBuilt : cache.stats.blocksBuilt = cache.layout.footprint seen
  harmless : cache.stats.Harmless
  misses_eq : misses = seen.card

theorem Warmed.mem_of_read (warmed : cache.Warmed seen misses) {byte : UInt8}
    (found : cache.read address = .ok (some byte, after)) :
    cache.layout.blockOf address ∈ seen := by
  obtain ⟨_, accessed⟩ := warmed.unwritten.of_read found
  obtain ⟨index, resolves⟩ := accessed.exists_resolves
  exact warmed.mem_of_resolves resolves

theorem Warmed.served (warmed : cache.Warmed seen misses)
    (whole : block.size = cache.layout.blockBytes)
    (served : cache.Served address block hit after) (unwritten : after.Unwritten) :
    after.Warmed (Insert.insert (cache.layout.blockOf address) seen)
      (if hit then misses else misses + 1) := by
  have card_le := warmed.card_le
  cases served with
  | hit found =>
    obtain ⟨_, accessed⟩ := warmed.unwritten.of_read found
    rw [Finset.insert_eq_of_mem (warmed.mem_of_read found)]
    exact ⟨unwritten,
      fun resolves => warmed.mem_of_resolves (accessed.resolves_before resolves), card_le⟩
  | @miss built leaf byte missed filled _ absent kept unwritten' installed _ _ again same _ =>
    have layout : missed.layout = cache.layout :=
      congrArg (fun view : View => view.frame.layout) kept
    rw [← layout] at whole ⊢
    obtain ⟨_, _, _, _, inserted⟩ :=
      (installPath_outcome unwritten'.sound unwritten'.tidy rfl whole).of_eq_ok installed
    refine ⟨unwritten, fun {tag index} resolves => ?_, ?_⟩
    · rw [same] at resolves
      rcases inserted.resolves resolves with ⟨rfl, _⟩ | ⟨_, older⟩
      · exact Finset.mem_insert_self _ _
      · rw [kept] at older
        exact Finset.mem_insert_of_mem (warmed.mem_of_resolves older)
    · have one_more := Finset.card_insert_le (missed.layout.blockOf address) seen
      rw [if_neg (by simp)]
      omega

theorem Packed.congr (packed : cache.Packed seen misses) (frame : after.frame = cache.frame)
    (trie : after.trie = cache.trie) (browsed : cache.Browsed after) :
    after.Packed seen misses := by
  have layout : after.layout = cache.layout := congrArg Frame.layout frame
  refine ⟨?_, fun {slots index} route => ?_, fun {tag} isSeen => ?_, ?_,
    packed.harmless.of_work_eq browsed.work, packed.misses_eq⟩
  · rw [layout]
    exact packed.dense.congr (congrArg Frame.capacity frame) (fun _ => by rw [trie]) browsed.cursor
  · rw [layout]
    exact packed.exists_mem (trie ▸ route)
  · rw [layout, trie]
    exact packed.exists_leaf isSeen
  · rw [browsed.blocksBuilt, layout, packed.blocksBuilt]

/-- The walk to a block ends where the ways that were built leave its own. -/
theorem Packed.footprint_insert (packed : cache.Packed seen misses) {tag level : Nat}
    {anchor : Option Nat} (route : cache.trie.Route (cache.layout.slots tag level) anchor)
    (free : cache.trie.link anchor (cache.layout.slot tag (level + 1)) = none) :
    cache.layout.footprint (Insert.insert tag seen) =
      cache.layout.footprint seen + (cache.layout.depth - level) := by
  refine Layout.footprint_insert (fun shared shared_pos shared_le => ?_)
    fun deeper level_lt deeper_le isOld => ?_
  · obtain ⟨owner, above⟩ := route.above (cache.layout.slots_suffix tag shared_le)
    cases owner with
    | none =>
      have length := congrArg List.length above.eq_nil
      rw [Layout.length_slots] at length
      exact absurd length (Nat.ne_of_gt shared_pos)
    | some index =>
      obtain ⟨other, isSeen, level', same⟩ := packed.exists_mem above
      have length := congrArg List.length same
      rw [Layout.length_slots, Layout.length_slots] at length
      rw [same, ← length]
      exact Finset.mem_image_of_mem _ isSeen
  · obtain ⟨other, isSeen, same⟩ := Finset.mem_image.mp isOld
    obtain ⟨leaf, whole⟩ := packed.exists_leaf isSeen
    obtain ⟨_, above⟩ := whole.above (cache.layout.slots_suffix other deeper_le)
    have same : cache.layout.slots other deeper = cache.layout.slots tag deeper := same
    rw [same] at above
    exact route.not_of_free free (cache.layout.slots_suffix tag level_lt) above

/-- A block that is filled in adds the missing part of its way. -/
theorem Packed.installPath (packed : cache.Packed seen misses) (unwritten : cache.Unwritten)
    (isNew : cache.layout.blockOf address ∉ seen)
    (whole : block.size = cache.layout.blockBytes)
    (fits : cache.layout.footprint (Insert.insert (cache.layout.blockOf address) seen) ≤
      cache.pool.capacity) (capacity_lt : cache.pool.capacity < 2 ^ 64) {built : List Nat}
    (ran : cache.installPath address (fun _ _ => block) = .ok (built, after)) :
    after.Packed (Insert.insert (cache.layout.blockOf address) seen) (misses + 1) := by
  have sound := unwritten.sound
  have staged := staged_of_installPath sound unwritten.tidy ran
  have putIn := putIn_of_installPath sound unwritten.tidy rfl whole ran
  have unwritten' := unwritten.of_installPath rfl whole ran
  obtain ⟨level, anchor, length, nonempty, route, free, grows⟩ :=
    staged.extended sound packed.dense fun _ inside => unwritten.unlocked inside
  have rest : cache.layout.depth - level = built.length := by omega
  have more := packed.footprint_insert route free
  rw [rest] at more
  obtain ⟨dense, extended⟩ := grows (by omega)
  have layout : after.layout = cache.layout := extended.layout
  refine ⟨?_, fun {slots index} reached => ?_, fun {tag} isSeen => ?_, ?_,
    extended.harmless packed.harmless, ?_⟩
  · rw [layout, more]
    exact dense
  · rw [layout]
    rcases extended.adds reached with older | ⟨level, isWay⟩
    · obtain ⟨tag, isSeen, level, isWay⟩ := packed.exists_mem older
      exact ⟨tag, Finset.mem_insert_of_mem isSeen, level, isWay⟩
    · exact ⟨_, Finset.mem_insert_self _ _, level, isWay⟩
  · rw [layout]
    rcases Finset.mem_insert.mp isSeen with rfl | isOld
    · obtain ⟨walked, hit⟩ := putIn.hit
      obtain ⟨_, reached⟩ :=
        (search_outcome unwritten'.sound unwritten'.tidy address).of_eq_ok hit
      rw [← layout]
      exact ⟨_, reached⟩
    · obtain ⟨leaf, reached⟩ := packed.exists_leaf isOld
      exact ⟨leaf, extended.keeps reached⟩
  · rw [staged.blocksBuilt, packed.blocksBuilt, layout, more, Word.saturatingAdd]
    refine Nat.min_eq_left ?_
    rw [Word.max64]
    omega
  · rw [packed.misses_eq, Finset.card_insert_of_notMem isNew]

theorem Packed.served (packed : cache.Packed seen misses) (warmed : cache.Warmed seen misses)
    (whole : block.size = cache.layout.blockBytes)
    (served : cache.Served address block hit after)
    (fits : cache.layout.footprint (Insert.insert (cache.layout.blockOf address) seen) ≤
      cache.pool.capacity) (capacity_lt : cache.pool.capacity < 2 ^ 64) :
    after.Packed (Insert.insert (cache.layout.blockOf address) seen)
      (if hit then misses else misses + 1) := by
  cases served with
  | hit found =>
    obtain ⟨_, accessed⟩ := warmed.unwritten.of_read found
    rw [Finset.insert_eq_of_mem (warmed.mem_of_read found), if_pos rfl]
    exact packed.congr accessed.frame accessed.trie (browsed_of_read found)
  | @miss built leaf byte missed filled _ absent kept unwritten installed _ _ again same _ =>
    obtain ⟨_, accessed⟩ := warmed.unwritten.of_read absent
    have isNew : cache.layout.blockOf address ∉ seen := by
      intro isSeen
      obtain ⟨leaf, route⟩ := packed.exists_leaf isSeen
      exact accessed.unresolved.1 leaf (.inr route)
    have missed_packed := packed.congr accessed.frame accessed.trie (browsed_of_read absent)
    have layout : missed.layout = cache.layout := congrArg Frame.layout accessed.frame
    have capacity : missed.pool.capacity = cache.pool.capacity :=
      congrArg Frame.capacity accessed.frame
    rw [← layout] at whole isNew fits ⊢
    rw [← capacity] at fits capacity_lt
    exact (missed_packed.installPath unwritten isNew whole fits capacity_lt installed).congr
      (congrArg View.frame same) (congrArg View.trie same) (browsed_of_read again)

end Steps

section Runs

/-- Reading addresses in turn keeps account of the blocks that were read. -/
theorem Warmed.visitAll (report : Report) (warmed : cache.Warmed seen report.misses)
    (value : UInt8) (verify : Bool) {addresses : List Address}
    (inRange : ∀ address ∈ addresses, cache.layout.contains address = true) {count : Nat}
    (sequence_le : cache.view.sequence ≤ count) (countable : count + addresses.length < 2 ^ 64) :
    ∃ final after,
      Replay.visitAll id (Replay.seededStep value) verify cache report addresses =
          .ok (.ok final, after) ∧
        final.total = report.total + addresses.length ∧
        after.Warmed (seen ∪ addresses.toFinset.image cache.layout.blockOf) final.misses ∧
        after.layout = cache.layout ∧
        (cache.Packed seen report.misses → cache.pool.capacity < 2 ^ 64 →
          cache.layout.footprint (seen ∪ addresses.toFinset.image cache.layout.blockOf) ≤
            cache.pool.capacity →
          after.Packed (seen ∪ addresses.toFinset.image cache.layout.blockOf) final.misses) := by
  induction addresses generalizing cache seen report count with
  | nil =>
    refine ⟨report, cache, rfl, rfl, ?_, rfl, fun packed _ _ => ?_⟩
    · simpa using warmed
    · simpa using packed
  | cons address rest ih =>
    rw [List.length_cons] at countable
    have here := inRange address List.mem_cons_self
    have whole : ((Array.replicate cache.layout.blockBytes 0).setIfInBounds
        (cache.layout.placeOf address) value).size = cache.layout.blockBytes := by simp
    obtain ⟨hit, middle, served, unwritten, frame, sequence_le'⟩ :=
      warmed.unwritten.served here whole (by omega)
    have layout : middle.layout = cache.layout := congrArg Frame.layout frame
    have capacity : middle.pool.capacity = cache.pool.capacity := congrArg Frame.capacity frame
    have warmed' := warmed.served whole served unwritten
    have counted : (report.count hit).misses = if hit then report.misses else report.misses + 1 := rfl
    rw [← counted] at warmed'
    have inRange' : ∀ address ∈ rest, middle.layout.contains address = true := by
      intro address isRest
      rw [layout]
      exact inRange address (List.mem_cons_of_mem _ isRest)
    obtain ⟨final, after, ran, total, warmed'', layout', packs⟩ :=
      ih (report.count hit) warmed' inRange'
        (sequence_le'.trans (Nat.succ_le_succ sequence_le)) (by omega)
    have union : Insert.insert (cache.layout.blockOf address) seen ∪
        rest.toFinset.image middle.layout.blockOf =
          seen ∪ (address :: rest).toFinset.image cache.layout.blockOf := by
      rw [List.toFinset_cons, Finset.image_insert, Finset.union_insert, Finset.insert_union, layout]
    rw [union] at warmed'' packs
    refine ⟨final, after, ?_, ?_, warmed'', layout'.trans layout, fun packed capacity_lt fits => ?_⟩
    · refine (Replay.visitAll_cons ?_ (Replay.seededStep_eq served.readSeeded) ?_).trans ran
      · exact here
      · exact unwritten.inspect_eq verify address
    · rw [total, List.length_cons]
      change report.total + 1 + rest.length = _
      omega
    · have further : Insert.insert (cache.layout.blockOf address) seen ⊆
          seen ∪ (address :: rest).toFinset.image cache.layout.blockOf :=
        union ▸ Finset.subset_union_left
      have fits' := (Layout.footprint_mono further).trans fits
      have packed' := packed.served warmed whole served fits' capacity_lt
      rw [← counted] at packed'
      refine packs packed' (capacity ▸ capacity_lt) ?_
      rw [layout, capacity]
      exact fits

theorem warmed_of_ofConfig {config : Config} (usable : config.Usable)
    (made : ofConfig config = .ok cache) : cache.Warmed ∅ 0 where
  unwritten := unwritten_of_ofConfig usable made
  mem_of_resolves := fun resolves =>
    absurd resolves ((blank_of_ofConfig made).not_resolves _ _)
  card_le := le_rfl

theorem packed_of_ofConfig {config : Config} (made : ofConfig config = .ok cache) :
    cache.Packed ∅ 0 := by
  have blank := blank_of_ofConfig made
  have stats : cache.stats = {} := stats_of_ofConfig made
  have cursor : cache.cursor = 0 := by
    obtain ⟨_, _, _, _, _, _, pool, _⟩ := ofConfig_spec made
    rw [Cache.cursor, pool]
  have nothing : cache.layout.footprint ∅ = 0 := by
    simp [Layout.footprint]
  refine ⟨⟨fun {index} => ?_, ?_⟩, fun route => absurd route (blank.not_route _ _),
    fun isSeen => absurd isSeen (Finset.notMem_empty _), ?_, ?_, rfl⟩
  · rw [nothing]
    exact ⟨fun _ => Nat.zero_le _, fun _ => blank.node index⟩
  · rw [nothing, cursor, Nat.zero_mod]
  · rw [nothing, stats]
  · rw [stats]
    exact ⟨rfl, rfl, rfl⟩

/-- A replay on a fresh cache of a usable configuration misses at least once for every block
that is read.  If the pool has room for the ways to all of them, it misses only then: every
block on these ways is built once, and nothing is taken from anyone to make room.  The
insertions into the fast path are counted in a word, so a list may have no more addresses
than a word can count. -/
theorem misses_of_replay {config : Config} (usable : config.Usable)
    (made : ofConfig config = .ok cache) (value : UInt8) (verify : Bool) {addresses : List Address}
    (inRange : ∀ address ∈ addresses, cache.layout.contains address = true)
    (countable : addresses.length < 2 ^ 64) :
    ∃ capacity report after, config.capacity = .ok capacity ∧
      cache.replay value verify addresses = .ok (.ok report, after) ∧
      report.total = addresses.length ∧
      (addresses.toFinset.image cache.layout.tag).card ≤ report.misses ∧
      (cache.layout.blocksNeeded addresses.toFinset ≤ capacity →
        report.misses = (addresses.toFinset.image cache.layout.tag).card ∧
        after.stats.blocksBuilt = cache.layout.blocksNeeded addresses.toFinset ∧
        after.stats.Harmless) := by
  obtain ⟨capacity, _, accepted, _, _, _, pool, isFastPath, _⟩ := ofConfig_spec made
  have regular : cache.layout.Regular :=
    (founded_of_ofConfig made usable.span usable.levels_lt).regular
  have capacity_eq : cache.pool.capacity = capacity := by
    rw [pool]
    exact Array.size_replicate
  have capacity_lt : capacity < 2 ^ 64 := by
    rw [accepted.capacity_eq_div]
    exact Nat.lt_of_le_of_lt (Nat.div_le_self _ _) config.size.toNat_lt
  have sequence : cache.view.sequence ≤ 0 := (FastPath.recorded_of_ofCapacity isFastPath).2.2.1.le
  have tags := regular.card_image_tag addresses.toFinset
  obtain ⟨report, after, ran, total, warmed, layout, packs⟩ :=
    Warmed.visitAll {} (warmed_of_ofConfig usable made) value verify inRange sequence (by omega)
  rw [Finset.empty_union] at warmed packs
  refine ⟨capacity, report, after, accepted.capacity_eq, ran, by simpa using total, ?_,
    fun fits => ?_⟩
  · rw [tags]
    exact warmed.card_le
  · rw [regular.blocksNeeded_eq, ← capacity_eq] at fits
    have packed := packs (packed_of_ofConfig made) (capacity_eq ▸ capacity_lt) fits
    rw [tags, regular.blocksNeeded_eq]
    refine ⟨packed.misses_eq, ?_, packed.harmless⟩
    rw [packed.blocksBuilt, layout]

/-- The ways to five blocks fill a pool of eight to the last block. -/
theorem misses_of_filling_replay : ∃ cache report after, ofConfig .tiny = .ok cache ∧
    cache.replay 42 true [0x01, 0x08, 0x04, 0x02, 0x0c, 0x10, 0x05] = .ok (.ok report, after) ∧
    report = { misses := 5, total := 7 } ∧ after.stats.blocksBuilt = 8 ∧ after.stats.Harmless := by
  have answers : (do
      let cache ← ofConfig .tiny
      return ([0x01, 0x08, 0x04, 0x02, 0x0c, 0x10, 0x05].all cache.layout.contains,
        ([0x01, 0x08, 0x04, 0x02, 0x0c, 0x10, 0x05].toFinset.image cache.layout.tag).card,
        cache.layout.blocksNeeded [0x01, 0x08, 0x04, 0x02, 0x0c, 0x10, 0x05].toFinset)) =
          .ok (true, 5, 8) := by decide +kernel
  obtain ⟨cache, made, answers⟩ := bind_eq_ok_iff.mp answers
  simp only [pure_eq_ok, Except.ok.injEq, Prod.mk.injEq] at answers
  obtain ⟨inRange, tags, needed⟩ := answers
  obtain ⟨capacity, report, after, isCapacity, ran, total, _, cold⟩ :=
    misses_of_replay BackedCache.usable_tiny made 42 true (List.all_eq_true.mp inRange) (by decide)
  have room : Config.tiny.capacity = .ok 8 := by decide +kernel
  cases room.symm.trans isCapacity
  obtain ⟨misses, built, harmless⟩ := cold (by rw [needed])
  rw [tags] at misses
  rw [needed] at built
  refine ⟨cache, report, after, made, ran, ?_, built, harmless⟩
  cases report
  cases misses
  cases total
  rfl

end Runs

end TrieCache.Cache
