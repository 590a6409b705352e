import Mathlib.Data.UInt

set_option autoImplicit false

namespace Filefacts.Cache

abbrev Name := List UInt8

abbrev FilePath := Name × Name

-- Times are nanoseconds from the epoch. No metadata is one that cannot be
-- read, or that holds no modification time.
structure File where
  name : Name
  metadata : Option (Int × UInt64)

-- What `read_dir` lists. A listing that cannot be read holds nothing, and no
-- directory holds two files of one name.
structure Shard where
  name : Name
  isDir : Bool
  files : List File
  distinct : (files.map File.name).Nodup

structure Root where
  shards : List Shard
  distinct : (shards.map Shard.name).Nodup

structure Budget where
  maxAge : Nat
  maxBytes : UInt64
  maxEntries : Nat

inductive Gate where
  | interval
  | now
deriving DecidableEq, Repr

structure Entry where
  path : FilePath
  modified : Int
  bytes : UInt64
deriving DecidableEq, Repr

structure Attempt where
  path : FilePath
  removed : Bool
deriving DecidableEq, Repr

-- Any pattern of failures: the outcome may depend on the file and on how many
-- calls were made before.
abbrev Outcomes := Nat → FilePath → Bool

-- `sort_unstable_by_key` promises an order by age, nothing about ties.
structure SortUnstable where
  sort : List Entry → List Entry
  perm : ∀ entries, (sort entries).Perm entries
  sorted : ∀ entries, (sort entries).Pairwise fun a b => a.modified ≤ b.modified

def orphanedTempAge : Nat := 15 * 60 * 10 ^ 9

def tempPrefix : Name := [46, 116, 109, 112]

-- Path::extension: after the last dot, unless that dot starts the name.
def extension (name : Name) : Option Name :=
  let after := name.reverse.takeWhile (· != 46)
  let before := name.reverse.drop (after.length + 1)
  if name = [46, 46] ∨ 46 ∉ name ∨ before = [] then none else some after.reverse

def isEntry (name : Name) : Bool := extension name = some [98, 105, 110]

def isTemp (name : Name) : Bool :=
  !isEntry name && (ByteArray.mk name.toArray).validateUTF8 && tempPrefix.isPrefixOf name

-- duration_since(..).unwrap_or_default(): a time ahead of the clock is no age.
def age (now modified : Int) : Nat := (now - modified).toNat

structure Collected where
  entries : List Entry
  log : List Attempt
  orphans : Nat

def collectFile (outcomes : Outcomes) (now : Int) (shard : Name) (state : Collected) (file : File) : Collected :=
  let path := (shard, file.name)
  if isEntry file.name ∨ isTemp file.name then
    match file.metadata with
    | none => state
    | some (modified, bytes) =>
        if isEntry file.name then { state with entries := state.entries ++ [⟨path, modified, bytes⟩] }
        else if orphanedTempAge < age now modified then
          let removed := outcomes state.log.length path
          { state with
            log := state.log ++ [⟨path, removed⟩]
            orphans := if removed then state.orphans + 1 else state.orphans }
        else state
  else state

def collectShard (outcomes : Outcomes) (now : Int) (state : Collected) (shard : Shard) : Collected :=
  if shard.isDir then shard.files.foldl (collectFile outcomes now shard.name) state else state

def collect (outcomes : Outcomes) (now : Int) (root : Root) : Collected :=
  root.shards.foldl (collectShard outcomes now) ⟨[], [], 0⟩

structure Tally where
  log : List Attempt
  freed : UInt64
  evicted : Nat

def Tally.removes (outcomes : Outcomes) (tally : Tally) (entry : Entry) : Bool := outcomes tally.log.length entry.path

def Tally.remove (outcomes : Outcomes) (tally : Tally) (entry : Entry) : Tally where
  log := tally.log ++ [⟨entry.path, tally.removes outcomes entry⟩]
  freed := if tally.removes outcomes entry then tally.freed + entry.bytes else tally.freed
  evicted := if tally.removes outcomes entry then tally.evicted + 1 else tally.evicted

def retainAged (outcomes : Outcomes) (now : Int) (maxAge : Nat) : List Entry → Tally → List Entry × Tally
  | [], tally => ([], tally)
  | entry :: rest, tally =>
      if maxAge < age now entry.modified then
        let after := retainAged outcomes now maxAge rest (tally.remove outcomes entry)
        if tally.removes outcomes entry then after else (entry :: after.1, after.2)
      else
        let after := retainAged outcomes now maxAge rest tally
        (entry :: after.1, after.2)

structure Totals where
  total : UInt64
  count : Nat
  tally : Tally

def saturatingSub (a b : UInt64) : UInt64 := if a < b then 0 else a - b

def Totals.remove (outcomes : Outcomes) (totals : Totals) (entry : Entry) : Totals :=
  let removed := totals.tally.removes outcomes entry
  { total := if removed then saturatingSub totals.total entry.bytes else totals.total
    count := if removed then totals.count - 1 else totals.count
    tally := totals.tally.remove outcomes entry }

def byteTarget (budget : Budget) : UInt64 := budget.maxBytes / 10 * 9

def countTarget (budget : Budget) : Nat := budget.maxEntries / 10 * 9

def Totals.within (budget : Budget) (totals : Totals) : Prop :=
  totals.total ≤ byteTarget budget ∧ totals.count ≤ countTarget budget

instance (budget : Budget) (totals : Totals) : Decidable (totals.within budget) :=
  inferInstanceAs (Decidable (_ ∧ _))

def evict (outcomes : Outcomes) (budget : Budget) : List Entry → Totals → Totals
  | [], totals => totals
  | entry :: rest, totals =>
      if totals.within budget then totals else evict outcomes budget rest (totals.remove outcomes entry)

-- The u64 sum of a release build wraps.
def totalBytes (entries : List Entry) : UInt64 := (entries.map Entry.bytes).sum

def sizePass (outcomes : Outcomes) (sorter : SortUnstable) (budget : Budget) (entries : List Entry) (tally : Tally) : Totals :=
  let totals : Totals := ⟨totalBytes entries, entries.length, tally⟩
  if budget.maxBytes < totals.total ∨ budget.maxEntries < totals.count then
    evict outcomes budget (sorter.sort entries) totals
  else totals

-- The root as `trusted_dir` lets it be read, if it does; what `due` answers;
-- and the clock when the walk starts.
structure World where
  root : Option Root
  due : Bool
  now : Int
  outcomes : Outcomes
  sorter : SortUnstable

def afterCollect (world : World) (root : Root) : Collected := collect world.outcomes world.now root

def afterAge (world : World) (budget : Budget) (root : Root) : List Entry × Tally :=
  let collected := afterCollect world root
  retainAged world.outcomes world.now budget.maxAge collected.entries ⟨collected.log, 0, 0⟩

def afterSize (world : World) (budget : Budget) (root : Root) : Totals :=
  let aged := afterAge world budget root
  sizePass world.outcomes world.sorter budget aged.1 aged.2

def swept (world : World) (gate : Gate) : Option Root :=
  if gate = .interval ∧ world.due = false then none else world.root

def run (world : World) (budget : Budget) (gate : Gate) : List Attempt :=
  match swept world gate with
  | none => []
  | some root => (afterSize world budget root).tally.log

def Gone (log : List Attempt) (path : FilePath) : Prop := ⟨path, true⟩ ∈ log

instance (log : List Attempt) (path : FilePath) : Decidable (Gone log path) := inferInstanceAs (Decidable (_ ∈ _))

def present (log : List Attempt) (entries : List Entry) : List Entry := entries.filter fun entry => ¬ Gone log entry.path

def bytesOf (entries : List Entry) : Nat := (entries.map fun entry => entry.bytes.toNat).sum

variable (log : List Attempt) (entry : Entry) (outcomes : Outcomes)

theorem gone_append (attempt : Attempt) (path : FilePath) :
    Gone (log ++ [attempt]) path ↔ Gone log path ∨ (attempt.path = path ∧ attempt.removed = true) := by
  obtain ⟨tried, removed⟩ := attempt
  simp only [Gone, List.mem_append, List.mem_singleton, Attempt.mk.injEq]
  exact or_congr_right ⟨fun same => ⟨same.1.symm, same.2.symm⟩, fun same => ⟨same.1.symm, same.2.symm⟩⟩

theorem present_kept (path : FilePath) (entries : List Entry) :
    present (log ++ [⟨path, false⟩]) entries = present log entries := by
  refine List.filter_congr fun entry member => ?_
  simp only [gone_append, Bool.false_eq_true, and_false, or_false]

theorem present_other {path : FilePath} {entries : List Entry}
    (absent : ∀ entry ∈ entries, entry.path ≠ path) : present (log ++ [⟨path, true⟩]) entries = present log entries := by
  refine List.filter_congr fun entry member => ?_
  have apart : ¬ path = entry.path := fun same => absent entry member same.symm
  simp only [gone_append, apart, false_and, or_false]

variable (a b entries : List Entry) (now : Int) (maxAge : Nat)

theorem present_append : present log (a ++ b) = present log a ++ present log b :=
  List.filter_append ..

theorem present_subset : present log entries ⊆ entries :=
  (List.filter_sublist ..).subset

theorem bytes_of_append : bytesOf (a ++ b) = bytesOf a + bytesOf b := by
  rw [bytesOf, List.map_append, List.sum_append]
  rfl

theorem bytes_of_cons : bytesOf (entry :: entries) = entry.bytes.toNat + bytesOf entries := by
  rw [bytesOf, List.map_cons, List.sum_cons]
  rfl

theorem present_single (fresh : ¬ Gone log entry.path) : present log [entry] = [entry] := by
  rw [present, List.filter_cons_of_pos (by simpa using fresh), List.filter_nil]

theorem present_single_gone : present (log ++ [⟨entry.path, true⟩]) [entry] = [] := by
  have gone : Gone (log ++ [⟨entry.path, true⟩]) entry.path := (gone_append _ _ _).mpr (Or.inr ⟨rfl, rfl⟩)
  rw [present, List.filter_cons_of_neg (by simpa using gone), List.filter_nil]

theorem present_removed (before after : List Entry)
    (distinct : ((before ++ entry :: after).map Entry.path).Nodup) (fresh : ¬ Gone log entry.path) :
    bytesOf (present log (before ++ entry :: after)) =
        bytesOf (present (log ++ [⟨entry.path, true⟩]) (before ++ entry :: after)) + entry.bytes.toNat ∧
      (present log (before ++ entry :: after)).length =
        (present (log ++ [⟨entry.path, true⟩]) (before ++ entry :: after)).length + 1 := by
  rw [List.map_append, List.map_cons, List.nodup_middle, List.nodup_cons, List.mem_append, not_or] at distinct
  have front : ∀ other ∈ before, other.path ≠ entry.path :=
    fun other member same => distinct.1.1 (List.mem_map.mpr ⟨other, member, same⟩)
  have back : ∀ other ∈ after, other.path ≠ entry.path :=
    fun other member same => distinct.1.2 (List.mem_map.mpr ⟨other, member, same⟩)
  rw [← List.singleton_append, present_append, present_append, present_append, present_append,
    present_other log front, present_other log back, present_single log entry fresh,
    present_single_gone]
  simp only [bytes_of_append, bytes_of_cons, List.nil_append, List.singleton_append, List.length_append, List.length_cons]
  omega

def Totals.tried (outcomes : Outcomes) (tried : List Entry) (start : Totals) : Totals :=
  tried.foldl (Totals.remove outcomes) start

theorem tried_log (tried : List Entry) (start : Totals) :
    ∃ attempts, (start.tried outcomes tried).tally.log = start.tally.log ++ attempts ∧
      attempts.map Attempt.path = tried.map Entry.path := by
  induction tried generalizing start with
  | nil => exact ⟨[], (List.append_nil _).symm, rfl⟩
  | cons entry rest ih =>
      obtain ⟨attempts, log, paths⟩ := ih (start.remove outcomes entry)
      refine ⟨⟨entry.path, start.tally.removes outcomes entry⟩ :: attempts, ?_, ?_⟩
      · exact log.trans (List.append_assoc _ _ _)
      · rw [List.map_cons, List.map_cons, paths]

def Accounts (entries : List Entry) (totals : Totals) : Prop :=
  totals.total.toNat = bytesOf (present totals.tally.log entries) ∧
    totals.count = (present totals.tally.log entries).length

theorem saturating_sub_of_le {a b : UInt64} (fits : b.toNat ≤ a.toNat) : (saturatingSub a b).toNat = a.toNat - b.toNat := by
  rw [saturatingSub, if_neg (by rw [UInt64.lt_iff_toNat_lt]; omega)]
  exact UInt64.toNat_sub_of_le a b (UInt64.le_iff_toNat_le.mpr fits)

theorem accounts_remove {entries : List Entry} {entry : Entry} {totals : Totals}
    (distinct : (entries.map Entry.path).Nodup) (member : entry ∈ entries) (fresh : ¬ Gone totals.tally.log entry.path)
    (accounts : Accounts entries totals) : Accounts entries (totals.remove outcomes entry) := by
  obtain ⟨bytes, count⟩ := accounts
  cases removed : totals.tally.removes outcomes entry with
  | false =>
      simp only [Accounts, Totals.remove, Tally.remove, removed, Bool.false_eq_true, if_false, present_kept]
      exact ⟨bytes, count⟩
  | true =>
      obtain ⟨before, after, rfl⟩ := List.append_of_mem member
      have taken := present_removed totals.tally.log entry before after distinct fresh
      simp only [Accounts, Totals.remove, Tally.remove, removed, if_true]
      rw [saturating_sub_of_le (by omega)]
      exact ⟨by omega, by omega⟩

theorem accounts_tried (tried : List Entry) (start : Totals)
    (distinct : (entries.map Entry.path).Nodup) (within : tried ⊆ entries) (once : (tried.map Entry.path).Nodup)
    (fresh : ∀ entry ∈ tried, ¬ Gone start.tally.log entry.path) (accounts : Accounts entries start) :
    Accounts entries (start.tried outcomes tried) := by
  induction tried generalizing start with
  | nil => exact accounts
  | cons entry rest ih =>
      rw [List.map_cons, List.nodup_cons] at once
      refine ih (start.remove outcomes entry) (fun other later => within (List.mem_cons_of_mem _ later)) once.2 ?_
        (accounts_remove outcomes distinct (within List.mem_cons_self) (fresh entry List.mem_cons_self) accounts)
      rintro other later gone
      rcases (gone_append _ _ _).mp gone with older | ⟨same, -⟩
      · exact fresh other (List.mem_cons_of_mem _ later) older
      · exact once.1 (List.mem_map.mpr ⟨other, later, same.symm⟩)

theorem evict_tried (budget : Budget) (entries : List Entry) (start : Totals) :
    ∃ n ≤ entries.length, evict outcomes budget entries start = start.tried outcomes (entries.take n) ∧
      (∀ k < n, ¬ (start.tried outcomes (entries.take k)).within budget) ∧
      (n = entries.length ∨ (start.tried outcomes (entries.take n)).within budget) := by
  induction entries generalizing start with
  | nil => exact ⟨0, le_refl _, rfl, fun k below => absurd below (Nat.not_lt_zero k), Or.inl rfl⟩
  | cons entry rest ih =>
      rw [evict]
      by_cases reached : start.within budget
      · rw [if_pos reached]
        exact ⟨0, Nat.zero_le _, rfl, fun k below => absurd below (Nat.not_lt_zero k), Or.inr reached⟩
      · rw [if_neg reached]
        obtain ⟨n, short, result, tried, ended⟩ := ih (start.remove outcomes entry)
        refine ⟨n + 1, Nat.succ_le_succ short, result, fun k below => ?_, ended.imp (congrArg (· + 1)) id⟩
        cases k with
        | zero => exact reached
        | succ k => exact tried k (Nat.lt_of_succ_lt_succ below)

theorem retain_log (entries : List Entry) (tally : Tally) :
    ∃ attempts, (retainAged outcomes now maxAge entries tally).2.log = tally.log ++ attempts ∧
      (∀ attempt ∈ attempts, ∃ entry ∈ entries, attempt.path = entry.path ∧ maxAge < age now entry.modified) ∧
      ∀ entry ∈ entries, maxAge < age now entry.modified → ∃ attempt ∈ attempts, attempt.path = entry.path := by
  induction entries generalizing tally with
  | nil => exact ⟨[], (List.append_nil _).symm, by simp, by simp⟩
  | cons entry rest ih =>
      rw [retainAged]
      by_cases old : maxAge < age now entry.modified
      · obtain ⟨attempts, log, sound, complete⟩ := ih (tally.remove outcomes entry)
        have extended : (retainAged outcomes now maxAge rest (tally.remove outcomes entry)).2.log =
            tally.log ++ (⟨entry.path, tally.removes outcomes entry⟩ :: attempts) :=
          log.trans (List.append_assoc _ _ _)
        refine ⟨⟨entry.path, tally.removes outcomes entry⟩ :: attempts, ?_, ?_, ?_⟩
        · rw [if_pos old]
          split_ifs <;> exact extended
        · rintro attempt listed
          rcases List.mem_cons.mp listed with rfl | later
          · exact ⟨entry, List.mem_cons_self, rfl, old⟩
          · obtain ⟨other, member, facts⟩ := sound attempt later
            exact ⟨other, List.mem_cons_of_mem _ member, facts⟩
        · rintro other member otherOld
          rcases List.mem_cons.mp member with rfl | later
          · exact ⟨_, List.mem_cons_self, rfl⟩
          · obtain ⟨attempt, listed, same⟩ := complete other later otherOld
            exact ⟨attempt, List.mem_cons_of_mem _ listed, same⟩
      · obtain ⟨attempts, log, sound, complete⟩ := ih tally
        rw [if_neg old]
        refine ⟨attempts, log, fun attempt listed => ?_, fun other member otherOld => ?_⟩
        · obtain ⟨other, member, facts⟩ := sound attempt listed
          exact ⟨other, List.mem_cons_of_mem _ member, facts⟩
        · rcases List.mem_cons.mp member with rfl | later
          · exact absurd otherOld old
          · exact complete other later otherOld

theorem retain_present (entries : List Entry) (tally : Tally)
    (distinct : (entries.map Entry.path).Nodup) (fresh : ∀ entry ∈ entries, ¬ Gone tally.log entry.path) :
    (retainAged outcomes now maxAge entries tally).1 =
      present (retainAged outcomes now maxAge entries tally).2.log entries := by
  induction entries generalizing tally with
  | nil => rfl
  | cons entry rest ih =>
      rw [List.map_cons, List.nodup_cons] at distinct
      have later : ∀ other ∈ rest, ¬ Gone tally.log other.path := fun other member => fresh other (List.mem_cons_of_mem _ member)
      have afterTry : ∀ other ∈ rest, ¬ Gone (tally.remove outcomes entry).log other.path := by
        rintro other member gone
        rcases (gone_append _ _ _).mp gone with older | ⟨same, -⟩
        · exact later other member older
        · exact distinct.1 (List.mem_map.mpr ⟨other, member, same.symm⟩)
      have settled : ∀ start : Tally, Gone (retainAged outcomes now maxAge rest start).2.log entry.path ↔
          Gone start.log entry.path := by
        intro start
        obtain ⟨attempts, log, sound, -⟩ := retain_log outcomes now maxAge rest start
        rw [log, Gone, Gone, List.mem_append]
        refine ⟨fun gone => gone.resolve_right fun listed => ?_, Or.inl⟩
        obtain ⟨other, member, same, -⟩ := sound _ listed
        exact distinct.1 (List.mem_map.mpr ⟨other, member, same.symm⟩)
      rw [retainAged]
      by_cases old : maxAge < age now entry.modified
      · rw [if_pos old]
        cases removed : tally.removes outcomes entry with
        | true =>
            have gone : Gone (retainAged outcomes now maxAge rest (tally.remove outcomes entry)).2.log entry.path :=
              (settled _).mpr ((gone_append _ _ _).mpr (Or.inr ⟨rfl, removed⟩))
            rw [if_pos rfl, present, List.filter_cons_of_neg (by simpa using gone)]
            exact ih _ distinct.2 afterTry
        | false =>
            have kept : ¬ Gone (retainAged outcomes now maxAge rest (tally.remove outcomes entry)).2.log entry.path := by
              rw [settled, Tally.remove, gone_append, removed]
              simpa using fresh entry List.mem_cons_self
            rw [if_neg Bool.false_ne_true, present, List.filter_cons_of_pos (by simpa using kept)]
            exact congrArg (entry :: ·) (ih _ distinct.2 afterTry)
      · rw [if_neg old]
        have kept : ¬ Gone (retainAged outcomes now maxAge rest tally).2.log entry.path := by
          rw [settled]
          exact fresh entry List.mem_cons_self
        rw [present, List.filter_cons_of_pos (by simpa using kept)]
        exact congrArg (entry :: ·) (ih _ distinct.2 later)

end Filefacts.Cache
