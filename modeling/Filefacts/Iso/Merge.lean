import Mathlib.Data.List.DropRight
import Filefacts.Iso.Regions
import Filefacts.Lib.Fibers

set_option autoImplicit false

namespace Filefacts.IsoTree

open Iso (sector)

-- Strings by their octets.
abbrev Text := List UInt8

inductive Namespace where
  | iso9660
  | joliet
  | supplementary
deriving DecidableEq

structure Entry where
  namespace_ : Namespace
  path : Text
  altName : Option Text
  lba : Nat
  size : Nat
  flags : UInt8
  recorded : Option Int
  depth : Nat
  contiguous : Bool
  extAttrSectors : Nat
  mode : Option Nat
  uid : Option Nat
  gid : Option Nat
  symlink : Option Text
deriving DecidableEq

def Entry.isDir (entry : Entry) : Bool := entry.flags &&& 0x02 != 0

def Entry.hidden (entry : Entry) : Bool := entry.flags &&& 0x01 != 0

def Entry.associated (entry : Entry) : Bool := entry.flags &&& 0x04 != 0

def Entry.dataOffset (entry : Entry) : Nat := (entry.lba + entry.extAttrSectors) * sector

structure File where
  path : Text
  names : List (Namespace × Text)
  lba : Nat
  size : Nat
  offset : Nat
  contiguous : Bool
  isDir : Bool
  hidden : Bool
  associated : Bool
  recorded : Option Int
  depth : Nat
  mode : Option Nat
  uid : Option Nat
  gid : Option Nat
  symlink : Option Text
  namespaces : List Namespace
deriving DecidableEq

def lastComponent (path : Text) : Text := path.rtakeWhile (· ≠ 0x2F)

def Entry.name (entry : Entry) : Text := lastComponent entry.path

def fresh (entry : Entry) : File :=
  { path := entry.path, names := [(entry.namespace_, entry.name)], lba := entry.lba, size := entry.size, offset := entry.dataOffset,
    contiguous := entry.contiguous, isDir := entry.isDir, hidden := entry.hidden, associated := entry.associated,
    recorded := entry.recorded, depth := entry.depth, mode := entry.mode, uid := entry.uid, gid := entry.gid,
    symlink := entry.symlink, namespaces := [entry.namespace_] }

def better (entry : Entry) : Bool :=
  match entry.namespace_ with
  | .iso9660 => entry.altName.isSome
  | .joliet => true
  | .supplementary => false

def absorb (file : File) (entry : Entry) : File :=
  { file with
    namespaces := if entry.namespace_ ∈ file.namespaces then file.namespaces else file.namespaces ++ [entry.namespace_]
    names := if entry.name ∈ file.names.map Prod.snd then file.names else file.names ++ [(entry.namespace_, entry.name)]
    path := if better entry then entry.path else file.path
    symlink := if file.symlink = none then entry.symlink else file.symlink
    mode := if file.mode = none then entry.mode else file.mode
    uid := if file.mode = none then entry.uid else file.uid
    gid := if file.mode = none then entry.gid else file.gid }

structure State where
  files : List File
  index : Nat × Nat × Nat → Option Nat
  links : Nat × Nat × Namespace → Nat
  empty : Text → Option Nat

def extentKey (state : State) (entry : Entry) : Nat × Nat × Nat :=
  (entry.lba, entry.size, state.links (entry.lba, entry.size, entry.namespace_))

def slot (state : State) (entry : Entry) : Option Nat :=
  (if entry.size = 0 then state.empty entry.path else state.index (extentKey state entry)).filter (· < state.files.length)

def put {Key Value : Type} [DecidableEq Key] (map : Key → Value) (key : Key) (value : Value) : Key → Value :=
  fun other => if other = key then value else map other

def mergeStep (state : State) (entry : Entry) : State :=
  let tree := (entry.lba, entry.size, entry.namespace_)
  let links := put state.links tree (state.links tree + 1)
  match slot state entry with
  | some i => { state with files := state.files.modify i (absorb · entry), links }
  | none =>
      { files := state.files ++ [fresh entry]
        links
        index := if entry.size = 0 then state.index else put state.index (extentKey state entry) (some state.files.length)
        empty := if entry.size = 0 then put state.empty entry.path (some state.files.length) else state.empty }

def start : State := ⟨[], fun _ => none, fun _ => 0, fun _ => none⟩

def present (files : List File) : List Namespace :=
  (files.filter (!·.isDir)).foldl (fun present file =>
    file.namespaces.foldl (fun present ns => if ns ∈ present then present else present ++ [ns]) present) []

def treeOnlyFile (files : List File) : Bool :=
  decide (1 < (present files).length) && files.any fun file => !file.isDir && decide (file.namespaces.length < (present files).length)

-- The files, and whether the anomaly `tree-only-file` is reported.
def mergeNamespaces (entries : List Entry) : List File × Bool :=
  let files := (entries.foldl mergeStep start).files
  (files, treeOnlyFile files)

def placedFrom (state : State) : List Entry → List (Entry × Nat)
  | [] => []
  | entry :: rest => (entry, (slot state entry).getD state.files.length) :: placedFrom (mergeStep state entry) rest

def placed (entries : List Entry) : List (Entry × Nat) := placedFrom start entries

-- What makes two entries one file: the path where they are empty, else the extent
-- and how many entries of its tree are on it already.
inductive Key where
  | path (path : Text)
  | extent (lba size link : Nat)
deriving DecidableEq

def linksOf (done : List Entry) (entry : Entry) : Nat :=
  done.countP fun earlier => decide (earlier.lba = entry.lba ∧ earlier.size = entry.size ∧ earlier.namespace_ = entry.namespace_)

def keyOf (done : List Entry) (entry : Entry) : Key :=
  if entry.size = 0 then .path entry.path else .extent entry.lba entry.size (linksOf done entry)

def keyedFrom (done : List Entry) : List Entry → List (Key × Entry)
  | [] => []
  | entry :: rest => (keyOf done entry, entry) :: keyedFrom (done ++ [entry]) rest

def keyed (entries : List Entry) : List (Key × Entry) := keyedFrom [] entries

def blankEntry : Entry := ⟨.iso9660, [], none, 0, 0, 0, none, 0, true, 0, none, none, none, none⟩

def built : List Entry → File
  | [] => fresh blankEntry
  | first :: rest => rest.foldl absorb (fresh first)

variable (group : List Entry) (pairs : List (Key × Entry)) (key : Key) (done entries rest : List Entry)

variable (entry : Entry) (other : Key) (state : State) (file : File)

theorem built_snoc (some_ : group ≠ []) : built (group ++ [entry]) = absorb (built group) entry := by
  cases group with
  | nil => exact absurd rfl some_
  | cons first rest => exact List.foldl_append

def classes (pairs : List (Key × Entry)) : List (Key × List Entry) := Fibers.pushAll (fun _ _ => false) pairs

def known (pairs : List (Key × Entry)) : List Key := Fibers.keys (classes pairs)

theorem classes_snoc : classes (pairs ++ [(key, entry)]) = Fibers.push (fun _ _ => false) key entry (classes pairs) :=
  Fibers.push_all_append _ pairs [(key, entry)]

theorem classes_grouped : Fibers.Grouped pairs (classes pairs) :=
  (Fibers.push_all_grouped (fun _ _ => false) (fun _ => rfl) (fun _ _ _ first _ => first) pairs).2

theorem mem_known : key ∈ known pairs ↔ ∃ pair ∈ pairs, pair.1 = key :=
  (classes_grouped pairs).present key

theorem known_seen (seen : key ∈ known pairs) : known (pairs ++ [(key, entry)]) = known pairs := by
  rw [known, classes_snoc, Fibers.push_keys_seen key entry _ seen, known]

theorem known_new (new : key ∉ known pairs) : known (pairs ++ [(key, entry)]) = known pairs ++ [key] := by
  rw [known, classes_snoc, Fibers.push_new key entry _ new, Fibers.keys, List.map_append]
  rfl

def filesOf (pairs : List (Key × Entry)) : List File := (classes pairs).map fun cls => built cls.2

theorem files_of_length : (filesOf pairs).length = (known pairs).length := by
  rw [filesOf, known, Fibers.keys, List.length_map, List.length_map]

theorem files_seen (seen : key ∈ known pairs) :
    filesOf (pairs ++ [(key, entry)]) = (filesOf pairs).modify ((known pairs).idxOf key) (absorb · entry) := by
  rw [filesOf, classes_snoc]
  apply Fibers.push_seen built absorb key entry _ seen
  intro cls member
  exact built_snoc cls.2 entry (Fibers.grouped_inhabited (classes_grouped pairs) member)

theorem files_new (new : key ∉ known pairs) : filesOf (pairs ++ [(key, entry)]) = filesOf pairs ++ [fresh entry] := by
  rw [filesOf, classes_snoc, Fibers.push_new key entry _ new, List.map_append]
  rfl

def placeOf (pairs : List (Key × Entry)) (key : Key) : Option Nat :=
  if key ∈ known pairs then some ((known pairs).idxOf key) else none

theorem place_seen (entry : Entry) (seen : key ∈ known pairs) :
    placeOf (pairs ++ [(key, entry)]) other = placeOf pairs other := by
  rw [placeOf, known_seen pairs key entry seen, placeOf]

theorem place_new (entry : Entry) (new : key ∉ known pairs) :
    placeOf (pairs ++ [(key, entry)]) other = if other = key then some (filesOf pairs).length else placeOf pairs other := by
  rw [placeOf, known_new pairs key entry new, files_of_length]
  by_cases same : other = key
  · rw [if_pos same, same, if_pos (List.mem_append_right _ List.mem_cons_self), List.idxOf_append_of_notMem new,
      List.idxOf_cons_self, Nat.add_zero]
  · rw [if_neg same, placeOf]
    by_cases seen : other ∈ known pairs
    · rw [if_pos seen, if_pos (List.mem_append_left _ seen), List.idxOf_append_of_mem seen]
    · rw [if_neg seen, if_neg]
      intro member
      rcases List.mem_append.mp member with earlier | last
      · exact seen earlier
      · exact same (List.mem_singleton.mp last)

-- The maps agree with the keys of the entries merged so far.
structure Keeps (done : List Entry) (state : State) : Prop where
  files : state.files = filesOf (keyed done)
  links : ∀ entry : Entry, state.links (entry.lba, entry.size, entry.namespace_) = linksOf done entry
  index : ∀ lba size link, state.index (lba, size, link) = placeOf (keyed done) (.extent lba size link)
  empty : ∀ path, state.empty path = placeOf (keyed done) (.path path)

theorem keyed_from_append (front back : List Entry) :
    keyedFrom done (front ++ back) = keyedFrom done front ++ keyedFrom (done ++ front) back := by
  induction front generalizing done with
  | nil => rw [List.append_nil, List.nil_append, keyedFrom, List.nil_append]
  | cons first rest ih => rw [List.cons_append, keyedFrom, ih, keyedFrom, List.append_assoc]; rfl

theorem keyed_snoc : keyed (entries ++ [entry]) = keyed entries ++ [(keyOf entries entry, entry)] :=
  keyed_from_append [] entries [entry]

theorem links_snoc (other : Entry) : linksOf (done ++ [entry]) other =
    if (other.lba, other.size, other.namespace_) = (entry.lba, entry.size, entry.namespace_) then linksOf done other + 1
    else linksOf done other := by
  rw [linksOf, List.countP_append, List.countP_singleton, linksOf]
  simp only [decide_eq_true_eq, Prod.mk.injEq, @eq_comm _ entry.lba, @eq_comm _ entry.size, @eq_comm _ entry.namespace_]
  split <;> rfl

theorem keeps_slot (keeps : Keeps done state) (entry : Entry) :
    slot state entry = placeOf (keyed done) (keyOf done entry) := by
  have inside : ∀ key, (placeOf (keyed done) key).filter (· < state.files.length) = placeOf (keyed done) key := by
    intro key
    rw [placeOf]
    by_cases seen : key ∈ known (keyed done)
    · rw [if_pos seen, Option.filter_some, if_pos]
      rw [keeps.files, files_of_length]
      exact decide_eq_true (List.idxOf_lt_length_of_mem seen)
    · rw [if_neg seen, Option.filter_none]
  rw [slot, keyOf]
  by_cases zero : entry.size = 0
  · rw [if_pos zero, if_pos zero, keeps.empty, inside]
  · rw [if_neg zero, if_neg zero, extentKey, keeps.index, keeps.links, inside]

theorem keeps_step (keeps : Keeps done state) (entry : Entry) : Keeps (done ++ [entry]) (mergeStep state entry) := by
  have links : ∀ other : Entry, put state.links (entry.lba, entry.size, entry.namespace_)
      (state.links (entry.lba, entry.size, entry.namespace_) + 1) (other.lba, other.size, other.namespace_) =
        linksOf (done ++ [entry]) other := by
    intro other
    rw [put, links_snoc]
    by_cases same : (other.lba, other.size, other.namespace_) = (entry.lba, entry.size, entry.namespace_)
    · rw [if_pos same, if_pos same, ← same, keeps.links]
    · rw [if_neg same, if_neg same, keeps.links]
  have found := keeps_slot done state keeps entry
  rw [placeOf] at found
  by_cases seen : keyOf done entry ∈ known (keyed done)
  · rw [if_pos seen] at found
    rw [mergeStep, found]
    refine ⟨?_, links, fun lba size link => ?_, fun path => ?_⟩
    · rw [keyed_snoc, files_seen _ _ _ seen, keeps.files]
    · rw [keyed_snoc, place_seen _ _ _ _ seen]
      exact keeps.index lba size link
    · rw [keyed_snoc, place_seen _ _ _ _ seen]
      exact keeps.empty path
  · rw [if_neg seen] at found
    rw [mergeStep, found]
    refine ⟨?_, links, fun lba size link => ?_, fun path => ?_⟩
    · rw [keyed_snoc, files_new _ _ _ seen, keeps.files]
    · rw [keyed_snoc, place_new _ _ _ _ seen, ← keeps.files, ← keeps.index]
      dsimp only
      by_cases zero : entry.size = 0
      · rw [if_pos zero, if_neg]
        rw [keyOf, if_pos zero]
        exact fun same => Key.noConfusion same
      · rw [if_neg zero, put, extentKey, keeps.links]
        rw [keyOf, if_neg zero]
        simp only [Prod.mk.injEq, Key.extent.injEq]
    · rw [keyed_snoc, place_new _ _ _ _ seen, ← keeps.files, ← keeps.empty]
      dsimp only
      by_cases zero : entry.size = 0
      · rw [if_pos zero, put, keyOf, if_pos zero]
        simp only [Key.path.injEq]
      · rw [if_neg zero, if_neg]
        rw [keyOf, if_neg zero]
        exact fun same => Key.noConfusion same

theorem keeps_start : Keeps [] start := ⟨rfl, fun _ => rfl, fun _ _ _ => rfl, fun _ => rfl⟩

theorem keeps_run : ∀ (done : List Entry) (state : State), Keeps done state →
    Keeps (done ++ rest) (rest.foldl mergeStep state) := by
  induction rest with
  | nil => intro done state keeps; rwa [List.append_nil]
  | cons entry rest ih =>
      intro done state keeps
      have later := ih _ _ (keeps_step done state keeps entry)
      rwa [List.append_assoc] at later

theorem merged_files : (mergeNamespaces entries).1 = filesOf (keyed entries) :=
  (keeps_run entries [] start keeps_start).files

theorem known_grows (more : List (Key × Entry)) : known pairs <+: known (pairs ++ more) := by
  induction more using List.reverseRecOn with
  | nil => exact (congrArg known (List.append_nil pairs)).symm ▸ List.prefix_rfl
  | append_singleton more pair ih =>
      rw [← List.append_assoc]
      by_cases seen : pair.1 ∈ known (pairs ++ more)
      · rwa [known_seen _ _ _ seen]
      · rw [known_new _ _ _ seen]
        exact ih.trans (List.prefix_append _ _)

theorem placed_from : ∀ (done : List Entry) (state : State), Keeps done state → placedFrom state rest =
    (keyedFrom done rest).map fun pair => (pair.2, (known (keyed (done ++ rest))).idxOf pair.1) := by
  induction rest with
  | nil => exact fun _ _ _ => rfl
  | cons entry rest ih =>
      intro done state keeps
      have place : (slot state entry).getD state.files.length = (known (keyed (done ++ [entry]))).idxOf (keyOf done entry) := by
        rw [keeps_slot done state keeps, placeOf, keyed_snoc]
        by_cases seen : keyOf done entry ∈ known (keyed done)
        · rw [if_pos seen, known_seen _ _ _ seen, Option.getD_some]
        · rw [if_neg seen, known_new _ _ _ seen, List.idxOf_append_of_notMem seen, List.idxOf_cons_self, Nat.add_zero,
            Option.getD_none, keeps.files, files_of_length]
      have member : keyOf done entry ∈ known (keyed (done ++ [entry])) :=
        (mem_known _ _).mpr ⟨(keyOf done entry, entry), keyed_snoc done entry ▸ List.mem_append_right _ List.mem_cons_self, rfl⟩
      obtain ⟨more, grown⟩ := known_grows (keyed (done ++ [entry])) (keyedFrom (done ++ [entry]) rest)
      have whole : keyed (done ++ entry :: rest) = keyed (done ++ [entry]) ++ keyedFrom (done ++ [entry]) rest := by
        rw [List.append_cons]
        exact keyed_from_append [] _ _
      rw [placedFrom, ih _ _ (keeps_step done state keeps entry), place, keyedFrom, List.map_cons, ← List.append_cons, whole, ← grown,
        List.idxOf_append_of_mem member]

theorem placed_keyed : placed entries = (keyed entries).map fun pair => (pair.2, (known (keyed entries)).idxOf pair.1) :=
  placed_from entries [] start keeps_start

theorem file_at (seen : key ∈ known pairs) :
    (filesOf pairs)[(known pairs).idxOf key]? = some (built (Fibers.fiber pairs key)) := by
  have there : (known pairs)[(known pairs).idxOf key]? = some key := List.getElem?_idxOf seen
  rw [known, Fibers.keys, List.getElem?_map] at there
  obtain ⟨cls, found, same⟩ := Option.map_eq_some_iff.mp there
  rw [filesOf, List.getElem?_map, known, Fibers.keys, found, Option.map_some,
    (classes_grouped pairs).exact cls (List.mem_of_getElem? found), same]

theorem mem_fiber : entry ∈ Fibers.fiber pairs key ↔ (key, entry) ∈ pairs := by
  rw [Fibers.fiber, List.mem_map]
  constructor
  · rintro ⟨pair, member, rfl⟩
    obtain ⟨member, same⟩ := List.mem_filter.mp member
    rwa [← of_decide_eq_true same]
  · exact fun member => ⟨_, List.mem_filter.mpr ⟨member, decide_eq_true rfl⟩, rfl⟩

def kept (file : File) : Nat × Nat × Bool × Nat × Bool := (file.lba, file.size, file.isDir, file.offset, file.contiguous)

theorem built_keeps (first : Entry) (rest : List Entry) : kept (built (first :: rest)) = kept (fresh first) := by
  rw [built]
  induction rest using List.reverseRecOn with
  | nil => rfl
  | append_singleton rest entry ih => rw [List.foldl_append, ← ih]; rfl

theorem absorb_lists (entry : Entry) :
    entry.namespace_ ∈ (absorb file entry).namespaces ∧ entry.name ∈ (absorb file entry).names.map Prod.snd := by
  constructor
  · dsimp only [absorb]
    split
    · assumption
    · exact List.mem_append_right _ List.mem_cons_self
  · dsimp only [absorb]
    split
    · assumption
    · rw [List.map_append]
      exact List.mem_append_right _ List.mem_cons_self

theorem absorb_grows (entry : Entry) :
    file.namespaces ⊆ (absorb file entry).namespaces ∧ file.names ⊆ (absorb file entry).names := by
  constructor
  · dsimp only [absorb]
    split
    · exact List.Subset.refl _
    · exact List.subset_append_left _ _
  · dsimp only [absorb]
    split
    · exact List.Subset.refl _
    · exact List.subset_append_left _ _

theorem built_lists (member : entry ∈ group) :
    entry.namespace_ ∈ (built group).namespaces ∧ entry.name ∈ (built group).names.map Prod.snd := by
  induction group using List.reverseRecOn with
  | nil => exact absurd member List.not_mem_nil
  | append_singleton group last ih =>
      by_cases first : group = []
      · rw [first, List.nil_append, List.mem_singleton] at member
        rw [first, member]
        exact ⟨List.mem_cons_self, List.mem_cons_self⟩
      · rw [built_snoc group last first]
        rcases List.mem_append.mp member with earlier | here
        · obtain ⟨trees, names⟩ := ih earlier
          obtain ⟨more, others⟩ := absorb_grows (built group) last
          exact ⟨more trees, List.map_subset _ others names⟩
        · rw [List.mem_singleton.mp here]
          exact absorb_lists (built group) last

theorem built_path (some_ : group ≠ []) : ∃ entry ∈ group, entry.path = (built group).path := by
  induction group using List.reverseRecOn with
  | nil => exact absurd rfl some_
  | append_singleton group last ih =>
      by_cases first : group = []
      · rw [first]
        exact ⟨last, List.mem_cons_self, rfl⟩
      · rw [built_snoc group last first]
        dsimp only [absorb]
        by_cases seen : better last = true
        · rw [if_pos seen]
          exact ⟨last, List.mem_append_right _ List.mem_cons_self, rfl⟩
        · rw [if_neg seen]
          obtain ⟨entry, member, same⟩ := ih first
          exact ⟨entry, List.mem_append_left _ member, same⟩

structure Faithful (entries : List Entry) (files : List File) (placed : List (Entry × Nat)) : Prop where
  all : placed.map Prod.fst = entries
  represented : ∀ pair ∈ placed, ∃ file, files[pair.2]? = some file ∧ (pair.1.size ≠ 0 → file.lba = pair.1.lba) ∧
    file.size = pair.1.size ∧ pair.1.namespace_ ∈ file.namespaces ∧ pair.1.name ∈ file.names.map Prod.snd
  first_path : ∀ pair ∈ placed, pair.1.size = 0 →
    ∃ first, placed.find? (fun other => decide (other.2 = pair.2)) = some first ∧ first.1.path = pair.1.path
  apart : placed.Pairwise fun one other => one.1.size ≠ 0 → one.1.namespace_ = other.1.namespace_ → one.1.lba = other.1.lba →
    one.1.size = other.1.size → one.2 ≠ other.2
  agrees : ∀ pair ∈ placed, ∀ file, files[pair.2]? = some file →
    file.isDir = pair.1.isDir ∧ file.offset = pair.1.dataOffset ∧ file.contiguous = pair.1.contiguous
  paths : ∀ i file, files[i]? = some file → ∃ pair ∈ placed, pair.2 = i ∧ pair.1.path = file.path

def Alike (one other : Entry) : Prop :=
  one.isDir = other.isDir ∧ one.dataOffset = other.dataOffset ∧ one.contiguous = other.contiguous

theorem keyed_key : ∀ done, ∀ pair ∈ keyedFrom done rest, (pair.2.size = 0 → pair.1 = .path pair.2.path) ∧
      (pair.2.size ≠ 0 → ∃ link, linksOf done pair.2 ≤ link ∧ pair.1 = .extent pair.2.lba pair.2.size link) := by
  induction rest with
  | nil => exact fun _ pair member => absurd member List.not_mem_nil
  | cons entry rest ih =>
      intro done pair member
      rcases List.mem_cons.mp member with rfl | later
      · exact ⟨fun zero => if_pos zero, fun filled => ⟨_, le_rfl, if_neg filled⟩⟩
      · obtain ⟨path, extent⟩ := ih (done ++ [entry]) pair later
        refine ⟨path, fun filled => ?_⟩
        obtain ⟨link, most, same⟩ := extent filled
        refine ⟨link, le_trans ?_ most, same⟩
        rw [links_snoc]
        split
        · exact Nat.le_succ _
        · exact le_rfl

theorem keyed_apart : ∀ done, (keyedFrom done rest).Pairwise fun one other =>
    one.2.size ≠ 0 → one.2.namespace_ = other.2.namespace_ → one.2.lba = other.2.lba → one.2.size = other.2.size →
      one.1 ≠ other.1 := by
  induction rest with
  | nil => exact fun _ => List.Pairwise.nil
  | cons entry rest ih =>
      intro done
      rw [keyedFrom, List.pairwise_cons]
      refine ⟨fun pair later filled tree lba size same => ?_, ih _⟩
      dsimp only at filled tree lba size same
      obtain ⟨link, most, key⟩ := (keyed_key rest (done ++ [entry]) pair later).2 (size ▸ filled)
      have counted : (pair.2.lba, pair.2.size, pair.2.namespace_) = (entry.lba, entry.size, entry.namespace_) := by
        rw [tree, lba, size]
      rw [links_snoc, if_pos counted, linksOf, ← lba, ← size, ← tree, ← linksOf] at most
      rw [key, keyOf, if_neg filled, Key.extent.injEq] at same
      omega

theorem keyed_entries : ∀ done, (keyedFrom done rest).map Prod.snd = rest := by
  induction rest with
  | nil => exact fun _ => rfl
  | cons entry rest ih => exact fun done => congrArg (entry :: ·) (ih _)

section Whole

variable (entries : List Entry)

variable (pair : Key × Entry)

theorem keyed_known (member : pair ∈ keyed entries) : pair.1 ∈ known (keyed entries) :=
  (mem_known _ _).mpr ⟨pair, member, rfl⟩

theorem same_key {one other : Key × Entry} (member : one ∈ keyed entries)
    (same : (known (keyed entries)).idxOf one.1 = (known (keyed entries)).idxOf other.1) : one.1 = other.1 :=
  (List.idxOf_inj (keyed_known entries one member)).mp same

theorem fiber_first (member : pair ∈ keyed entries) :
    ∃ first rest, Fibers.fiber (keyed entries) pair.1 = first :: rest ∧ (pair.1, first) ∈ keyed entries := by
  have inside := (mem_fiber (keyed entries) pair.1 pair.2).mpr member
  cases group : Fibers.fiber (keyed entries) pair.1 with
  | nil => rw [group] at inside; exact absurd inside List.not_mem_nil
  | cons first rest => exact ⟨first, rest, rfl, (mem_fiber _ _ _).mp (group ▸ List.mem_cons_self)⟩

theorem keyed_extent {one other : Key × Entry} (member : one ∈ keyed entries) (found : other ∈ keyed entries)
    (same : one.1 = other.1) : (other.2.size ≠ 0 → one.2.lba = other.2.lba) ∧ one.2.size = other.2.size ∧
      (other.2.size = 0 → one.2.path = other.2.path) := by
  obtain ⟨path, extent⟩ := keyed_key entries [] one member
  obtain ⟨otherPath, otherExtent⟩ := keyed_key entries [] other found
  by_cases zero : one.2.size = 0
  · by_cases otherZero : other.2.size = 0
    · rw [path zero, otherPath otherZero, Key.path.injEq] at same
      exact ⟨fun filled => absurd otherZero filled, zero.trans otherZero.symm, fun _ => same⟩
    · obtain ⟨link, -, key⟩ := otherExtent otherZero
      rw [path zero, key] at same
      cases same
  · obtain ⟨link, -, key⟩ := extent zero
    by_cases otherZero : other.2.size = 0
    · rw [key, otherPath otherZero] at same
      cases same
    · obtain ⟨otherLink, -, otherKey⟩ := otherExtent otherZero
      rw [key, otherKey, Key.extent.injEq] at same
      exact ⟨fun _ => same.1, same.2.1, fun empty => absurd empty otherZero⟩

theorem file_of (member : pair ∈ keyed entries) : ∃ first, (pair.1, first) ∈ keyed entries ∧
      ∃ file, (mergeNamespaces entries).1[(known (keyed entries)).idxOf pair.1]? = some file ∧ kept file = kept (fresh first) ∧
        pair.2.namespace_ ∈ file.namespaces ∧ pair.2.name ∈ file.names.map Prod.snd := by
  obtain ⟨first, rest, group, found⟩ := fiber_first entries pair member
  refine ⟨first, found, _, ?_, built_keeps first rest, ?_⟩
  · rw [merged_files, file_at _ _ (keyed_known entries pair member), group]
  · rw [← group]
    exact built_lists _ pair.2 ((mem_fiber _ _ _).mpr member)

theorem merge_faithful_iff :
    Faithful entries (mergeNamespaces entries).1 (placed entries) ↔
      ∀ one ∈ keyed entries, ∀ other ∈ keyed entries, one.1 = other.1 → Alike one.2 other.2 := by
  rw [placed_keyed]
  constructor
  · intro faithful one member other found same
    obtain ⟨first, _, file, there, _⟩ := file_of entries one member
    obtain ⟨kind, offset, contiguous⟩ := faithful.agrees _ (List.mem_map_of_mem member) file there
    obtain ⟨otherKind, otherOffset, otherContiguous⟩ := faithful.agrees _ (List.mem_map_of_mem found) file (same ▸ there)
    exact ⟨kind.symm.trans otherKind, offset.symm.trans otherOffset, contiguous.symm.trans otherContiguous⟩
  · intro alike
    refine ⟨?_, ?_, ?_, ?_, ?_, ?_⟩
    · rw [List.map_map]
      exact keyed_entries entries []
    · rw [List.forall_mem_map]
      intro pair member
      obtain ⟨first, found, file, there, same, listed⟩ := file_of entries pair member
      obtain ⟨lba, size, _⟩ := keyed_extent entries found member rfl
      simp only [kept, fresh, Prod.mk.injEq] at same
      exact ⟨file, there, fun filled => same.1.trans (lba filled), same.2.1.trans size, listed⟩
    · rw [List.forall_mem_map]
      intro pair member zero
      rw [List.find?_map]
      have some_ : ((keyed entries).find? fun other =>
          decide ((known (keyed entries)).idxOf other.1 = (known (keyed entries)).idxOf pair.1)).isSome = true :=
        List.find?_isSome.mpr ⟨pair, member, decide_eq_true rfl⟩
      obtain ⟨first, search⟩ := Option.isSome_iff_exists.mp some_
      refine ⟨_, congrArg _ search, ?_⟩
      have passed := List.find?_some search
      have same := same_key entries (List.mem_of_find?_eq_some search) (of_decide_eq_true passed)
      exact (keyed_extent entries (List.mem_of_find?_eq_some search) member same).2.2 zero
    · rw [List.pairwise_map]
      refine (keyed_apart entries []).imp_of_mem fun {one other} member found differ filled tree lba size same => ?_
      exact differ filled tree lba size (same_key entries member same)
    · rw [List.forall_mem_map]
      intro pair member file there
      obtain ⟨first, found, built_, here, same, _⟩ := file_of entries pair member
      obtain rfl := Option.some.inj (there.symm.trans here)
      obtain ⟨kind, offset, contiguous⟩ := alike (pair.1, first) found pair member rfl
      simp only [kept, fresh, Prod.mk.injEq] at same
      exact ⟨same.2.2.1.trans kind, same.2.2.2.1.trans offset, same.2.2.2.2.trans contiguous⟩
    · intro i file there
      rw [merged_files, filesOf, List.getElem?_map] at there
      obtain ⟨cls, found, rfl⟩ := Option.map_eq_some_iff.mp there
      have grouped := classes_grouped (keyed entries)
      have member := List.mem_of_getElem? found
      obtain ⟨entry, inside, same⟩ := built_path cls.2 (Fibers.grouped_inhabited grouped member)
      rw [grouped.exact cls member] at inside
      refine ⟨_, List.mem_map_of_mem ((mem_fiber _ _ _).mp inside), ?_, same⟩
      have key : (known (keyed entries))[i]? = some cls.1 := by
        rw [known, Fibers.keys, List.getElem?_map, found, Option.map_some]
      obtain ⟨inRange, here⟩ := List.getElem?_eq_some_iff.mp key
      rw [← here]
      exact grouped.distinct.idxOf_getElem i inRange

end Whole

def hiddenPayload : List Entry :=
  [{ blankEntry with path := [47, 100], lba := 100, size := 2048, flags := 2 },
    { blankEntry with namespace_ := .joliet, path := [47, 112], lba := 100, size := 2048 }]

theorem merge_hides_file : ¬ Faithful hiddenPayload (mergeNamespaces hiddenPayload).1 (placed hiddenPayload) := by
  intro faithful
  have one_file : (mergeNamespaces hiddenPayload).1.map (·.isDir) = [true] := by decide +kernel
  have places : placed hiddenPayload = hiddenPayload.zip [0, 0] := by decide +kernel
  obtain ⟨file, files⟩ := List.map_eq_singleton_iff.mp one_file
  have agrees := (faithful.agrees ({ blankEntry with namespace_ := .joliet, path := [47, 112], lba := 100, size := 2048 }, 0)
    (places ▸ List.mem_cons_of_mem _ List.mem_cons_self) file (by rw [files.1]; rfl)).1
  rw [files.2] at agrees
  cases agrees

end Filefacts.IsoTree
