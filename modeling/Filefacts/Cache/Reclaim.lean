import Filefacts.Cache.Sweep

set_option autoImplicit false

namespace Filefacts.Cache

structure Listed (root : Root) (path : FilePath) (file : File) : Prop where
  shard : ∃ shard ∈ root.shards, shard.isDir = true ∧ file ∈ shard.files ∧ path = (shard.name, file.name)

def CacheEntry (root : Root) (path : FilePath) : Prop := ∃ file, Listed root path file ∧ isEntry file.name = true

def OrphanedTemp (now : Int) (root : Root) (path : FilePath) : Prop :=
  ∃ file modified bytes, Listed root path file ∧ isTemp file.name = true ∧ file.metadata = some (modified, bytes) ∧
    orphanedTempAge < age now modified

def entryOf (shard : Name) (file : File) : Option Entry :=
  if isEntry file.name then file.metadata.map fun metadata => ⟨(shard, file.name), metadata.1, metadata.2⟩ else none

def shardEntries (shard : Shard) : List Entry := if shard.isDir then shard.files.filterMap (entryOf shard.name) else []

variable (outcomes : Outcomes) (now : Int) (shard : Name) (root : Root) (world : World) (budget : Budget)

theorem collect_file_entries (state : Collected) (file : File) :
    (collectFile outcomes now shard state file).entries = state.entries ++ (entryOf shard file).toList := by
  rw [collectFile, entryOf]
  by_cases entry : isEntry file.name = true
  · rw [if_pos (Or.inl entry), if_pos entry]
    cases file.metadata with
    | none => exact (List.append_nil _).symm
    | some metadata =>
        dsimp only
        rw [if_pos entry]
        rfl
  · rw [if_neg entry]
    split_ifs
    · cases file.metadata with
      | none => exact (List.append_nil _).symm
      | some metadata =>
          dsimp only
          split_ifs <;> exact (List.append_nil _).symm
    · exact (List.append_nil _).symm

theorem collect_files_entries (files : List File) (state : Collected) :
    (files.foldl (collectFile outcomes now shard) state).entries = state.entries ++ files.filterMap (entryOf shard) := by
  induction files generalizing state with
  | nil => exact (List.append_nil _).symm
  | cons file rest ih =>
      rw [List.foldl_cons, ih, collect_file_entries, List.filterMap_cons, List.append_assoc]
      cases entryOf shard file <;> rfl

theorem collect_shards_entries (shards : List Shard) (state : Collected) :
    (shards.foldl (collectShard outcomes now) state).entries = state.entries ++ shards.flatMap shardEntries := by
  induction shards generalizing state with
  | nil => exact (List.append_nil _).symm
  | cons shard rest ih =>
      rw [List.foldl_cons, ih, List.flatMap_cons, ← List.append_assoc, collectShard, shardEntries]
      split_ifs
      · rw [collect_files_entries]
      · rw [List.append_nil]

theorem collect_entries : (collect outcomes now root).entries = root.shards.flatMap shardEntries :=
  collect_shards_entries outcomes now root.shards ⟨[], [], 0⟩

variable {entry : Entry}

theorem entry_of_some {file : File} (made : entryOf shard file = some entry) :
    isEntry file.name = true ∧ entry.path = (shard, file.name) := by
  rw [entryOf] at made
  by_cases named : isEntry file.name = true
  · rw [if_pos named] at made
    obtain ⟨metadata, -, rfl⟩ := Option.map_eq_some_iff.mp made
    exact ⟨named, rfl⟩
  · rw [if_neg named] at made
    cases made

theorem mem_shard_entries {shard : Shard} (member : entry ∈ shardEntries shard) :
    shard.isDir = true ∧ ∃ file ∈ shard.files, isEntry file.name = true ∧ entry.path = (shard.name, file.name) := by
  rw [shardEntries] at member
  by_cases dir : shard.isDir = true
  · rw [if_pos dir] at member
    obtain ⟨file, listed, made⟩ := List.mem_filterMap.mp member
    exact ⟨dir, file, listed, entry_of_some shard.name made⟩
  · rw [if_neg dir] at member
    exact absurd member List.not_mem_nil

theorem collected_entry (entry : Entry)
    (member : entry ∈ (collect outcomes now root).entries) : CacheEntry root entry.path := by
  rw [collect_entries] at member
  obtain ⟨shard, listed, inside⟩ := List.mem_flatMap.mp member
  obtain ⟨dir, file, found, named, path⟩ := mem_shard_entries inside
  exact ⟨file, ⟨shard, listed, dir, found, path⟩, named⟩

theorem shard_paths_distinct (shard : Shard) : ((shardEntries shard).map Entry.path).Nodup := by
  rw [shardEntries]
  by_cases dir : shard.isDir = true
  · rw [if_pos dir]
    have below : ((shard.files.filterMap (entryOf shard.name)).map Entry.path).Sublist
        (shard.files.map fun file => (shard.name, file.name)) := by
      induction shard.files with
      | nil => exact List.Sublist.refl _
      | cons file rest ih =>
          rw [List.filterMap_cons, List.map_cons]
          cases made : entryOf shard.name file with
          | none => exact ih.cons _
          | some entry =>
              rw [List.map_cons, (entry_of_some shard.name made).2]
              exact ih.cons_cons _
    refine below.nodup ?_
    have named := List.Nodup.map (f := Prod.mk shard.name) (fun a b same => (Prod.mk.inj same).2) shard.distinct
    rwa [List.map_map] at named
  · rw [if_neg dir]
    exact List.nodup_nil

theorem shards_paths_distinct (shards : List Shard) (distinct : (shards.map Shard.name).Nodup) :
    ((shards.flatMap shardEntries).map Entry.path).Nodup := by
  induction shards with
  | nil => exact List.nodup_nil
  | cons shard rest ih =>
      rw [List.map_cons, List.nodup_cons] at distinct
      rw [List.flatMap_cons, List.map_append]
      refine List.Nodup.append (shard_paths_distinct shard) (ih distinct.2) fun path here there => distinct.1 ?_
      obtain ⟨entry, member, rfl⟩ := List.mem_map.mp here
      obtain ⟨other, later, same⟩ := List.mem_map.mp there
      obtain ⟨-, file, -, -, path⟩ := mem_shard_entries member
      obtain ⟨second, listed, inside⟩ := List.mem_flatMap.mp later
      obtain ⟨-, otherFile, -, -, otherPath⟩ := mem_shard_entries inside
      have names : second.name = shard.name := (Prod.mk.inj (otherPath.symm.trans (same.trans path))).1
      exact List.mem_map.mpr ⟨second, listed, names⟩

theorem collected_distinct : ((collect outcomes now root).entries.map Entry.path).Nodup := by
  rw [collect_entries]
  exact shards_paths_distinct root.shards root.distinct

theorem collect_file_log (shard : Shard) (state : Collected) (file : File)
    (known : shard ∈ root.shards) (dir : shard.isDir = true) (listed : file ∈ shard.files)
    (orphans : ∀ attempt ∈ state.log, OrphanedTemp now root attempt.path) :
    ∀ attempt ∈ (collectFile outcomes now shard.name state file).log, OrphanedTemp now root attempt.path := by
  rw [collectFile]
  by_cases managed : isEntry file.name = true ∨ isTemp file.name = true
  · rw [if_pos managed]
    cases read : file.metadata with
    | none => exact orphans
    | some metadata =>
        obtain ⟨modified, bytes⟩ := metadata
        dsimp only
        by_cases entry : isEntry file.name = true
        · rw [if_pos entry]
          exact orphans
        · rw [if_neg entry]
          by_cases old : orphanedTempAge < age now modified
          · rw [if_pos old]
            intro attempt tried
            rcases List.mem_append.mp tried with before | made
            · exact orphans attempt before
            · obtain rfl := List.mem_singleton.mp made
              exact ⟨file, modified, bytes, ⟨shard, known, dir, listed, rfl⟩, managed.resolve_left entry, read, old⟩
          · rw [if_neg old]
            exact orphans
  · rw [if_neg managed]
    exact orphans

theorem collect_log : ∀ attempt ∈ (collect outcomes now root).log, OrphanedTemp now root attempt.path := by
  have none_yet : ∀ attempt ∈ (Collected.mk [] [] 0).log, OrphanedTemp now root attempt.path :=
    fun attempt tried => absurd tried List.not_mem_nil
  refine List.foldlRecOn root.shards (collectShard outcomes now)
    (motive := fun state => ∀ attempt ∈ state.log, OrphanedTemp now root attempt.path) none_yet
    fun state orphans shard known => ?_
  rw [collectShard]
  by_cases dir : shard.isDir = true
  · rw [if_pos dir]
    exact List.foldlRecOn shard.files (collectFile outcomes now shard.name)
      (motive := fun state => ∀ attempt ∈ state.log, OrphanedTemp now root attempt.path) orphans
      fun state orphans file listed => collect_file_log outcomes now root shard state file known dir listed orphans
  · rw [if_neg dir]
    exact orphans

theorem collected_fresh (entry : Entry)
    (member : entry ∈ (collect outcomes now root).entries) : ¬ Gone (collect outcomes now root).log entry.path := by
  intro gone
  obtain ⟨file, -, -, ⟨shard, -, -, -, path⟩, temp, -⟩ := collect_log outcomes now root _ gone
  obtain ⟨other, ⟨second, -, -, -, otherPath⟩, named⟩ := collected_entry outcomes now root entry member
  have names : file.name = other.name := (Prod.mk.inj (path.symm.trans otherPath)).2
  rw [isTemp, names, named] at temp
  exact Bool.false_ne_true temp

def survivors (world : World) (budget : Budget) (root : Root) : List Entry := (afterAge world budget root).1

def ageLog (world : World) (budget : Budget) (root : Root) : List Attempt := (afterAge world budget root).2.log

def oldest (world : World) (budget : Budget) (root : Root) : List Entry := world.sorter.sort (survivors world budget root)

def afterTries (world : World) (budget : Budget) (root : Root) (k : Nat) : Totals :=
  Totals.tried world.outcomes ((oldest world budget root).take k)
    ⟨totalBytes (survivors world budget root), (survivors world budget root).length, (afterAge world budget root).2⟩

theorem total_bytes_mod (entries : List Entry) : (totalBytes entries).toNat = bytesOf entries % 2 ^ 64 := by
  induction entries with
  | nil => rfl
  | cons entry rest ih =>
      rw [totalBytes, List.map_cons, List.sum_cons, UInt64.toNat_add, bytes_of_cons]
      rw [totalBytes] at ih
      rw [ih, Nat.add_mod_mod]

theorem age_log_extends (root : Root) :
    ∃ attempts, ageLog world budget root = (afterCollect world root).log ++ attempts ∧
      (∀ attempt ∈ attempts, ∃ entry ∈ (afterCollect world root).entries, attempt.path = entry.path) ∧
      ∀ entry ∈ (afterCollect world root).entries, budget.maxAge < age world.now entry.modified →
        ∃ attempt ∈ attempts, attempt.path = entry.path := by
  obtain ⟨attempts, log, sound, complete⟩ := retain_log world.outcomes world.now budget.maxAge
    (afterCollect world root).entries ⟨(afterCollect world root).log, 0, 0⟩
  exact ⟨attempts, log, fun attempt listed => (sound attempt listed).imp fun entry facts => ⟨facts.1, facts.2.1⟩, complete⟩

theorem survivors_present (root : Root) :
    survivors world budget root = present (ageLog world budget root) (afterCollect world root).entries :=
  retain_present world.outcomes world.now budget.maxAge _ _ (collected_distinct world.outcomes world.now root)
    fun entry member => collected_fresh world.outcomes world.now root entry member

theorem survivors_collected (root : Root) : survivors world budget root ⊆ (afterCollect world root).entries := by
  rw [survivors_present]
  exact present_subset _ _

theorem survivors_distinct (root : Root) : ((survivors world budget root).map Entry.path).Nodup := by
  rw [survivors_present]
  exact (List.filter_sublist.map _).nodup (collected_distinct world.outcomes world.now root)

theorem survivor_fresh {root : Root}
    (member : entry ∈ survivors world budget root) : ¬ Gone (ageLog world budget root) entry.path := by
  rw [survivors_present] at member
  simpa using (List.mem_filter.mp member).2

theorem present_survivors (root : Root) :
    present (ageLog world budget root) (survivors world budget root) = survivors world budget root :=
  List.filter_eq_self.mpr fun entry member => by simpa using survivor_fresh world budget member

theorem oldest_distinct (root : Root) : ((oldest world budget root).map Entry.path).Nodup :=
  ((world.sorter.perm _).map Entry.path).nodup_iff.mpr (survivors_distinct world budget root)

theorem oldest_mem (root : Root) (entry : Entry) :
    entry ∈ oldest world budget root ↔ entry ∈ survivors world budget root := (world.sorter.perm _).mem_iff

theorem after_tries_accounts (root : Root) (k : Nat) (small : bytesOf (survivors world budget root) < 2 ^ 64) :
    Accounts (survivors world budget root) (afterTries world budget root k) := by
  have taken := List.take_sublist k (oldest world budget root)
  refine accounts_tried world.outcomes _ _ _ (survivors_distinct world budget root)
    (fun entry member => (oldest_mem world budget root entry).mp (taken.subset member))
    ((taken.map Entry.path).nodup (oldest_distinct world budget root))
    (fun entry member => survivor_fresh world budget ((oldest_mem world budget root entry).mp (taken.subset member))) ?_
  refine ⟨?_, ?_⟩
  · have exactly := present_survivors world budget root
    rw [ageLog] at exactly
    rw [total_bytes_mod, Nat.mod_eq_of_lt small, exactly]
  · have exactly := present_survivors world budget root
    rw [ageLog] at exactly
    rw [exactly]

-- What one sweep of a root does. The second pass stops at nine tenths of the
-- ceilings, each ceiling divided by ten before it is multiplied.
structure Reclaims (world : World) (budget : Budget) (root : Root) : Prop where
  managed : ∀ attempt ∈ (afterSize world budget root).tally.log,
    CacheEntry root attempt.path ∨ OrphanedTemp world.now root attempt.path
  remain : survivors world budget root = present (ageLog world budget root) (afterCollect world root).entries
  aged : ∀ entry ∈ survivors world budget root, budget.maxAge < age world.now entry.modified →
    ⟨entry.path, false⟩ ∈ (ageLog world budget root).drop (afterCollect world root).log.length
  quiet : bytesOf (survivors world budget root) ≤ budget.maxBytes.toNat →
    (survivors world budget root).length ≤ budget.maxEntries →
    (afterSize world budget root).tally.log = ageLog world budget root
  oldestFirst : (oldest world budget root).Perm (survivors world budget root) ∧
    (oldest world budget root).Pairwise fun a b => a.modified ≤ b.modified
  reclaimed : bytesOf (survivors world budget root) < 2 ^ 64 →
    (budget.maxBytes.toNat < bytesOf (survivors world budget root) ∨ budget.maxEntries < (survivors world budget root).length) →
    ∃ n ≤ (oldest world budget root).length,
      (afterSize world budget root).tally.log = (afterTries world budget root n).tally.log ∧
      (∀ k ≤ n, Accounts (survivors world budget root) (afterTries world budget root k) ∧
        ∃ attempts, (afterTries world budget root k).tally.log = ageLog world budget root ++ attempts ∧
          attempts.map Attempt.path = ((oldest world budget root).take k).map Entry.path) ∧
      (∀ k < n, ¬ (afterTries world budget root k).within budget) ∧
      ((afterTries world budget root n).within budget ∨
        ∀ entry ∈ present (afterSize world budget root).tally.log (survivors world budget root),
          ⟨entry.path, false⟩ ∈ (afterSize world budget root).tally.log.drop (ageLog world budget root).length)

theorem after_size_over (root : Root) (small : bytesOf (survivors world budget root) < 2 ^ 64)
    (over_ : budget.maxBytes.toNat < bytesOf (survivors world budget root) ∨
      budget.maxEntries < (survivors world budget root).length) :
    afterSize world budget root = evict world.outcomes budget (oldest world budget root)
      ⟨totalBytes (survivors world budget root), (survivors world budget root).length, (afterAge world budget root).2⟩ := by
  have total := total_bytes_mod (survivors world budget root)
  rw [Nat.mod_eq_of_lt small] at total
  rw [afterSize, sizePass]
  refine if_pos (over_.imp_left fun above => ?_)
  rw [UInt64.lt_iff_toNat_lt]
  exact total ▸ above

theorem after_size_quiet (root : Root) (bytes : bytesOf (survivors world budget root) ≤ budget.maxBytes.toNat)
    (count : (survivors world budget root).length ≤ budget.maxEntries) :
    (afterSize world budget root).tally.log = ageLog world budget root := by
  have total := total_bytes_mod (survivors world budget root)
  have ceiling := budget.maxBytes.toNat_lt
  rw [Nat.mod_eq_of_lt (by omega)] at total
  have quiet : ¬ (budget.maxBytes < totalBytes (survivors world budget root) ∨
      budget.maxEntries < (survivors world budget root).length) := by
    rw [UInt64.lt_iff_toNat_lt, total]
    omega
  exact congrArg (fun totals : Totals => totals.tally.log) (if_neg quiet)

theorem size_log_extends (root : Root) :
    ∃ attempts, (afterSize world budget root).tally.log = ageLog world budget root ++ attempts ∧
      ∀ attempt ∈ attempts, ∃ entry ∈ survivors world budget root, attempt.path = entry.path := by
  rw [afterSize, sizePass]
  split_ifs
  · obtain ⟨n, -, result, -⟩ := evict_tried world.outcomes budget (oldest world budget root)
      ⟨totalBytes (survivors world budget root), (survivors world budget root).length, (afterAge world budget root).2⟩
    obtain ⟨attempts, log, paths⟩ := tried_log world.outcomes ((oldest world budget root).take n)
      ⟨totalBytes (survivors world budget root), (survivors world budget root).length, (afterAge world budget root).2⟩
    refine ⟨attempts, (congrArg (fun totals => totals.tally.log) result).trans log, fun attempt listed => ?_⟩
    have named : attempt.path ∈ ((oldest world budget root).take n).map Entry.path :=
      paths ▸ List.mem_map.mpr ⟨attempt, listed, rfl⟩
    obtain ⟨entry, taken, same⟩ := List.mem_map.mp named
    exact ⟨entry, (oldest_mem world budget root entry).mp (List.mem_of_mem_take taken), same.symm⟩
  · exact ⟨[], (List.append_nil _).symm, fun attempt listed => absurd listed List.not_mem_nil⟩

theorem sweep_managed (root : Root) : ∀ attempt ∈ (afterSize world budget root).tally.log,
      CacheEntry root attempt.path ∨ OrphanedTemp world.now root attempt.path := by
  have collected : ∀ entry ∈ (afterCollect world root).entries, CacheEntry root entry.path :=
    collected_entry world.outcomes world.now root
  intro attempt listed
  obtain ⟨tries, log, survivor⟩ := size_log_extends world budget root
  obtain ⟨ages, aged, entries, -⟩ := age_log_extends world budget root
  rw [log, aged] at listed
  rcases List.mem_append.mp listed with earlier | late
  · rcases List.mem_append.mp earlier with walked | old
    · exact Or.inr (collect_log world.outcomes world.now root attempt walked)
    · obtain ⟨entry, member, same⟩ := entries attempt old
      exact Or.inl (same ▸ collected entry member)
  · obtain ⟨entry, member, same⟩ := survivor attempt late
    exact Or.inl (same ▸ collected entry (survivors_collected world budget root member))

theorem sweep_aged (root : Root) (entry : Entry) (member : entry ∈ survivors world budget root)
    (old : budget.maxAge < age world.now entry.modified) :
    ⟨entry.path, false⟩ ∈ (ageLog world budget root).drop (afterCollect world root).log.length := by
  obtain ⟨ages, aged, -, complete⟩ := age_log_extends world budget root
  obtain ⟨⟨path, removed⟩, listed, same⟩ := complete entry (survivors_collected world budget root member) old
  obtain rfl : path = entry.path := same
  have fresh := survivor_fresh world budget member
  rw [aged, List.drop_left]
  cases removed with
  | false => exact listed
  | true => exact absurd (aged ▸ List.mem_append_right _ listed) fresh

theorem sweep_reclaimed (root : Root) (small : bytesOf (survivors world budget root) < 2 ^ 64)
    (over_ : budget.maxBytes.toNat < bytesOf (survivors world budget root) ∨
      budget.maxEntries < (survivors world budget root).length) :
    ∃ n ≤ (oldest world budget root).length,
      (afterSize world budget root).tally.log = (afterTries world budget root n).tally.log ∧
      (∀ k ≤ n, Accounts (survivors world budget root) (afterTries world budget root k) ∧
        ∃ attempts, (afterTries world budget root k).tally.log = ageLog world budget root ++ attempts ∧
          attempts.map Attempt.path = ((oldest world budget root).take k).map Entry.path) ∧
      (∀ k < n, ¬ (afterTries world budget root k).within budget) ∧
      ((afterTries world budget root n).within budget ∨
        ∀ entry ∈ present (afterSize world budget root).tally.log (survivors world budget root),
          ⟨entry.path, false⟩ ∈ (afterSize world budget root).tally.log.drop (ageLog world budget root).length) := by
  have extends_ : ∀ k, ∃ attempts, (afterTries world budget root k).tally.log = ageLog world budget root ++ attempts ∧
      attempts.map Attempt.path = ((oldest world budget root).take k).map Entry.path :=
    fun k => tried_log world.outcomes _ _
  obtain ⟨n, short, result, tried, ended⟩ := evict_tried world.outcomes budget (oldest world budget root)
    ⟨totalBytes (survivors world budget root), (survivors world budget root).length, (afterAge world budget root).2⟩
  rw [← after_size_over world budget root small over_] at result
  have log : (afterSize world budget root).tally.log = (afterTries world budget root n).tally.log :=
    congrArg (fun totals => totals.tally.log) result
  refine ⟨n, short, log, fun k _ => ⟨after_tries_accounts world budget root k small, extends_ k⟩, tried, ?_⟩
  rcases ended with all_ | reached
  · -- Every survivor was tried, and what is still there failed.
    refine Or.inr fun entry member => ?_
    obtain ⟨attempts, extended, paths⟩ := extends_ n
    obtain ⟨survivor, kept⟩ := List.mem_filter.mp member
    rw [all_, List.take_length] at paths
    have named : entry.path ∈ attempts.map Attempt.path :=
      paths ▸ List.mem_map.mpr ⟨entry, (oldest_mem world budget root entry).mpr survivor, rfl⟩
    obtain ⟨⟨path, removed⟩, listed, same⟩ := List.mem_map.mp named
    obtain rfl : path = entry.path := same
    rw [log, extended] at kept ⊢
    rw [List.drop_left]
    cases removed with
    | false => exact listed
    | true => exact absurd (List.mem_append_right _ listed) (by simpa [Gone] using kept)
  · exact Or.inl reached

theorem reclaims (world : World) (budget : Budget) (root : Root) : Reclaims world budget root where
  managed := sweep_managed world budget root
  remain := survivors_present world budget root
  aged := fun entry member old => sweep_aged world budget root entry member old
  quiet := fun bytes count => after_size_quiet world budget root bytes count
  oldestFirst := ⟨world.sorter.perm _, world.sorter.sorted _⟩
  reclaimed := fun small over_ => sweep_reclaimed world budget root small over_

theorem run_reclaims (world : World) (budget : Budget) (gate : Gate) :
    (swept world gate = none → run world budget gate = []) ∧
      ∀ root, swept world gate = some root →
        run world budget gate = (afterSize world budget root).tally.log ∧ Reclaims world budget root := by
  refine ⟨fun skipped => ?_, fun root found => ⟨?_, reclaims world budget root⟩⟩
  · rw [run, skipped]
  · rw [run, found]

def byAge : SortUnstable where
  sort := fun entries => entries.insertionSort fun a b => a.modified ≤ b.modified
  perm := fun entries => List.perm_insertionSort _ entries
  sorted := fun entries => List.pairwise_insertionSort (fun a b : Entry => a.modified ≤ b.modified) entries

def threeEntries (a b c : UInt64) : Root where
  shards := [⟨[97], true, [⟨[99, 46, 98, 105, 110], some (30, c)⟩, ⟨[97, 46, 98, 105, 110], some (10, a)⟩,
    ⟨[98, 46, 98, 105, 110], some (20, b)⟩],
    show ([[99, 46, 98, 105, 110], [97, 46, 98, 105, 110], [98, 46, 98, 105, 110]] : List Name).Nodup by decide⟩]
  distinct := List.nodup_singleton _

def threeWorld (a b c : UInt64) : World where
  root := some (threeEntries a b c)
  due := true
  now := 40
  outcomes := fun _ _ => true
  sorter := byAge

def twoAllowed : Budget := ⟨100, 1000, 2⟩

def tenAllowed : Budget := ⟨100, 1000, 10⟩

theorem run_reclaims_three : swept (threeWorld 0 0 0) .now = some (threeEntries 0 0 0) ∧
    run (threeWorld 0 0 0) twoAllowed .now = (afterSize (threeWorld 0 0 0) twoAllowed (threeEntries 0 0 0)).tally.log ∧
      Reclaims (threeWorld 0 0 0) twoAllowed (threeEntries 0 0 0) :=
  ⟨rfl, (run_reclaims (threeWorld 0 0 0) twoAllowed .now).2 (threeEntries 0 0 0) rfl⟩

-- With two entries allowed, the last one is tried at a count of one: below
-- nine tenths of the ceiling, above nine times a tenth of it rounded down. And
-- sizes that add up to 2^64 add up to nothing for the byte ceiling.
theorem three_entries_swept :
    (10 * (afterTries (threeWorld 0 0 0) twoAllowed (threeEntries 0 0 0) 2).total.toNat ≤ 9 * twoAllowed.maxBytes.toNat ∧
      10 * (afterTries (threeWorld 0 0 0) twoAllowed (threeEntries 0 0 0) 2).count ≤ 9 * twoAllowed.maxEntries ∧
      (afterTries (threeWorld 0 0 0) twoAllowed (threeEntries 0 0 0) 2).tally.log ≠ run (threeWorld 0 0 0) twoAllowed .now ∧
      run (threeWorld 0 0 0) twoAllowed .now =
        [⟨([97], [97, 46, 98, 105, 110]), true⟩, ⟨([97], [98, 46, 98, 105, 110]), true⟩,
          ⟨([97], [99, 46, 98, 105, 110]), true⟩]) ∧
      tenAllowed.maxBytes.toNat < bytesOf (survivors (threeWorld (2 ^ 63 - 1) (2 ^ 63 - 1) 2) tenAllowed
        (threeEntries (2 ^ 63 - 1) (2 ^ 63 - 1) 2)) ∧
      run (threeWorld (2 ^ 63 - 1) (2 ^ 63 - 1) 2) tenAllowed .now = [] := by
  decide +kernel

end Filefacts.Cache
