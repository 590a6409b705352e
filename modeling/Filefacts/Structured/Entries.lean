import Filefacts.Structured.Bounded

set_option autoImplicit false

namespace Filefacts.Structured

open Filefacts.Output (Text Json)
open Filefacts.Keyed (put)

variable {F : Type} (std : Std F)

def Yaml.isScalar : Yaml F → Bool
  | .sequence _ => false
  | .mapping _ => false
  | .tagged _ _ => false
  | _ => true

-- The JSON tree of nodes: an object has a member of its own for each entry, with
-- the entry's value, in any order.
inductive ShowsAll : List (Yaml F) → List Json → Prop
  | nil : ShowsAll [] []
  | scalar (node : Yaml F) (rest : List (Yaml F)) (values : List Json) (plain : node.isScalar = true) (later : ShowsAll rest values) :
      ShowsAll (node :: rest) (yamlToJson std node :: values)
  | tagged (tag : Text) (node : Yaml F) (value : Json) (rest : List (Yaml F)) (values : List Json) (below : ShowsAll [node] [value])
      (later : ShowsAll rest values) : ShowsAll (.tagged tag node :: rest) (value :: values)
  | sequence (items : List (Yaml F)) (inner : List Json) (rest : List (Yaml F)) (values : List Json) (below : ShowsAll items inner)
      (later : ShowsAll rest values) : ShowsAll (.sequence items :: rest) (.array inner :: values)
  | mapping (entries : List (Yaml F × Yaml F)) (inner : List Json) (fields : List (Text × Json)) (rest : List (Yaml F))
      (values : List Json) (below : ShowsAll (entries.map Prod.snd) inner)
      (members : fields.Perm ((entries.map fun entry => keySpelling std entry.1).zip inner))
      (distinct : (fields.map Prod.fst).Nodup) (later : ShowsAll rest values) :
      ShowsAll (.mapping entries :: rest) (.object fields :: values)

def Shows (node : Yaml F) (value : Json) : Prop := ShowsAll std [node] [value]

inductive ApartAll : List (Yaml F) → Prop
  | nil : ApartAll []
  | scalar (node : Yaml F) (rest : List (Yaml F)) (plain : node.isScalar = true) (later : ApartAll rest) : ApartAll (node :: rest)
  | tagged (tag : Text) (node : Yaml F) (rest : List (Yaml F)) (below : ApartAll [node]) (later : ApartAll rest) :
      ApartAll (.tagged tag node :: rest)
  | sequence (items rest : List (Yaml F)) (below : ApartAll items) (later : ApartAll rest) : ApartAll (.sequence items :: rest)
  | mapping (entries : List (Yaml F × Yaml F)) (rest : List (Yaml F)) (below : ApartAll (entries.map Prod.snd))
      (apart : (entries.map fun entry => keySpelling std entry.1).Nodup) (later : ApartAll rest) : ApartAll (.mapping entries :: rest)

def Apart (node : Yaml F) : Prop := ApartAll std [node]

theorem items_map (items : List (Yaml F)) : itemsToJson std items = items.map (yamlToJson std) := by
  induction items with
  | nil => rfl
  | cons item rest hypothesis => rw [itemsToJson, hypothesis, List.map_cons]

theorem entries_map (entries : List (Yaml F × Yaml F)) :
    entriesToJson std entries = entries.map fun entry => (keySpelling std entry.1, yamlToJson std entry.2) := by
  induction entries with
  | nil => rfl
  | cons entry rest hypothesis =>
      obtain ⟨key, value⟩ := entry
      rw [entriesToJson, hypothesis, List.map_cons]
      rfl

section Puts

variable {Value : Type}

def putAll (fields : List (Text × Value)) (entries : List (Text × Value)) : List (Text × Value) :=
  entries.foldl (fun fields entry => put entry.1 entry.2 fields) fields

theorem put_perm (key : Text) (value : Value) (fields : List (Text × Value)) (fresh : key ∉ fields.map Prod.fst) :
    (put key value fields).Perm ((key, value) :: fields) := by
  induction fields with
  | nil => exact List.Perm.refl _
  | cons field rest hypothesis =>
      obtain ⟨other, old⟩ := field
      rw [List.map_cons, List.mem_cons, not_or] at fresh
      rw [put]
      split
      · exact List.Perm.refl _
      · rw [if_neg fresh.1]
        exact (List.Perm.cons _ (hypothesis fresh.2)).trans (List.Perm.swap _ _ _)

variable (entries fields : List (Text × Value))

theorem put_all_perm (distinct : (entries.map Prod.fst).Nodup)
    (apart : ∀ entry ∈ entries, entry.1 ∉ fields.map Prod.fst) : (putAll fields entries).Perm (fields ++ entries) := by
  induction entries generalizing fields with
  | nil =>
      rw [List.append_nil]
      exact List.Perm.refl _
  | cons entry rest hypothesis =>
      obtain ⟨key, value⟩ := entry
      obtain ⟨fresh, later⟩ := List.nodup_cons.mp distinct
      have placed := put_perm key value fields (apart (key, value) List.mem_cons_self)
      have further := hypothesis (put key value fields) later fun other member inside => by
        rcases List.mem_cons.mp ((placed.map Prod.fst).mem_iff.mp inside) with same | old
        · exact fresh (same ▸ List.mem_map_of_mem member)
        · exact apart other (List.mem_cons_of_mem _ member) old
      exact further.trans ((placed.append_right rest).trans List.perm_middle.symm)

theorem put_all_sorted (sorted : Keyed.Sorted fields) : Keyed.Sorted (putAll fields entries) := by
  induction entries generalizing fields with
  | nil => exact sorted
  | cons entry rest hypothesis => exact hypothesis _ (Keyed.put_sorted entry.1 entry.2 fields sorted)

theorem put_all_distinct : ((putAll [] entries).map Prod.fst).Nodup := by
  have sorted : ((putAll [] entries).map Prod.fst).Pairwise (· < ·) := put_all_sorted entries [] List.Pairwise.nil
  exact sorted.imp fun less => ne_of_lt less

end Puts

variable (nodes : List (Yaml F))

theorem shows_length (values : List Json) (shows_ : ShowsAll std nodes values) : values.length = nodes.length := by
  induction shows_ with
  | nil => rfl
  | scalar _ _ _ _ _ ih => rw [List.length_cons, List.length_cons, ih]
  | tagged _ _ _ _ _ _ _ _ ih => rw [List.length_cons, List.length_cons, ih]
  | sequence _ _ _ _ _ _ _ ih => rw [List.length_cons, List.length_cons, ih]
  | mapping _ _ _ _ _ _ _ _ _ _ ih => rw [List.length_cons, List.length_cons, ih]

theorem shows_apart {nodes : List (Yaml F)} {values : List Json} (shows_ : ShowsAll std nodes values) : ApartAll std nodes := by
  induction shows_ with
  | nil => exact .nil
  | scalar node rest values plain _ ihLater => exact .scalar node rest plain ihLater
  | tagged tag node value rest values _ _ ihBelow ihLater => exact .tagged tag node rest ihBelow ihLater
  | sequence items inner rest values _ _ ihBelow ihLater => exact .sequence items rest ihBelow ihLater
  | mapping entries inner fields rest values below members distinct _ ihBelow ihLater =>
      have length := shows_length std _ inner below
      rw [List.length_map] at length
      have keys : ((entries.map fun entry => keySpelling std entry.1).zip inner).map Prod.fst =
          entries.map fun entry => keySpelling std entry.1 := by
        rw [List.map_fst_zip]
        rw [List.length_map, length]
      exact .mapping entries rest ihBelow (keys ▸ (members.map Prod.fst).nodup_iff.mp distinct) ihLater

theorem apart_shows (apart : ApartAll std nodes) : ShowsAll std nodes (nodes.map (yamlToJson std)) := by
  induction apart with
  | nil => exact .nil
  | scalar node rest plain _ ihLater => exact .scalar node rest _ plain ihLater
  | tagged tag node rest _ _ ihBelow ihLater => exact .tagged tag node (yamlToJson std node) rest _ ihBelow ihLater
  | sequence items rest _ _ ihBelow ihLater =>
      rw [List.map_cons, yamlToJson, items_map]
      exact .sequence items _ rest _ ihBelow ihLater
  | mapping entries rest _ distinct _ ihBelow ihLater =>
      have keys : (entriesToJson std entries).map Prod.fst = entries.map fun entry => keySpelling std entry.1 := by
        rw [entries_map, List.map_map]
        rfl
      have spelled : (entries.map fun entry => keySpelling std entry.1).zip ((entries.map Prod.snd).map (yamlToJson std)) =
          entriesToJson std entries := by
        rw [entries_map, List.map_map, List.zip_map']
        rfl
      have members := put_all_perm (entriesToJson std entries) [] (keys ▸ distinct) fun _ _ => List.not_mem_nil
      rw [List.nil_append, ← spelled] at members
      rw [List.map_cons, yamlToJson]
      refine .mapping entries _ _ rest _ ihBelow ?_ (put_all_distinct _) ihLater
      rw [spelled] at members ⊢
      exact members

theorem shows_iff_apart (node : Yaml F) : Shows std node (yamlToJson std node) ↔ Apart std node :=
  ⟨shows_apart std, apart_shows std [node]⟩

-- Composing and converting a document: it ends within its budgets, and if it
-- does not fail the value is what the document stands for; every entry has a
-- member of its own exactly if no two keys of a mapping are spelled alike.
theorem compose_document (root : Doc) (distinct : root.Distinct) :
    (compose std root.events).Meets (Within root.events) fun value after composer =>
      Within root.events composer ∧ after = root.events.length ∧ Unrolls std root root value ∧
        (∀ other, Unrolls std root root other → other = value) ∧ (Shows std value (yamlToJson std value) ↔ Apart std value) := by
  have meets := compose_meets std root.events
  have reads := node_reads std root root.events allLevels 0 0 .empty root [] (node_self root) (List.append_nil _).symm
    fun _ _ found => (by cases found)
  cases ran : compose std root.events with
  | spent =>
      rw [ran] at meets
      exact meets
  | failed message pos composer =>
      rw [ran] at meets
      exact meets
  | done value after composer =>
      rw [ran] at meets
      obtain ⟨unrolls, whole, _⟩ := reads value after composer ran
      refine ⟨holds_within _ meets.holds, whole.trans (Nat.zero_add _), unrolls, fun other stands => ?_,
        shows_iff_apart std value⟩
      exact List.singleton_inj.mp (unrolls_unique std root distinct [root] [other] [value] stands unrolls)

def noFloats : Std Unit := ⟨fun _ => none, (), (), (), fun _ => true, fun _ => false, fun _ => true, fun _ => 0, fun _ => [], String.ofList⟩

def word (text : String) (style : ScalarStyle) (anchor line col : Nat) : Doc := .scalar text.toList style anchor none ⟨line, col⟩

def sharedWord : Doc := .sequence 0 none [word "a" .plain 1 1 1, .aliasOf 1 ⟨1, 7⟩] ⟨1, 0⟩ ⟨1, 9⟩

theorem compose_document_shared : ∃ value after composer, compose noFloats sharedWord.events = .done value after composer ∧
    Unrolls noFloats sharedWord sharedWord value ∧ composer.replayed = 1 ∧ after = 4 := by
  have meets := compose_document noFloats sharedWord (by unfold Doc.Distinct; decide)
  have ran : compose noFloats sharedWord.events = .done (.sequence [.string ['a'], .string ['a']]) 4 ⟨[(1, 1)], 0, 1, 1, 3, 1⟩ := by
    rfl
  rw [ran] at meets
  exact ⟨_, _, _, ran, meets.2.2.1, rfl, rfl⟩

def spelledAlike : Doc :=
  .mapping 0 none [(word "1" .plain 0 1 1, word "a" .plain 0 1 4), (word "1" .doubleQuoted 0 1 7, word "b" .plain 0 1 12)] ⟨1, 0⟩ ⟨1, 13⟩

theorem spelled_alike_lost : ∃ value after composer, compose noFloats spelledAlike.events = .done value after composer ∧
    yamlToJson noFloats value = .object [(['1'], .string ['b'])] ∧ ¬ Shows noFloats value (yamlToJson noFloats value) := by
  have ran : compose noFloats spelledAlike.events = .done
      (.mapping [(.int 1, .string ['a']), (.string ['1'], .string ['b'])]) 6 ⟨[], 0, 0, 0, 5, 0⟩ := by
    rfl
  have json : yamlToJson noFloats (.mapping [(.int 1, .string ['a']), (.string ['1'], .string ['b'])]) =
      .object [(['1'], .string ['b'])] := by
    rfl
  refine ⟨_, _, _, ran, json, fun shows_ => ?_⟩
  have apart := (shows_iff_apart noFloats _).mp shows_
  cases apart with
  | scalar _ _ plain _ => cases plain
  | mapping _ _ _ distinct _ =>
      revert distinct
      decide

end Filefacts.Structured
