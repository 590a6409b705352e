import Filefacts.Lib.Keyed
import Mathlib.Algebra.Order.Ring.Nat
import Mathlib.Data.Char
import Mathlib.Data.List.Lex

set_option autoImplicit false

namespace Filefacts.Output

open Keyed

abbrev Text := List Char

-- serde_json's Value. A Map is a BTreeMap: its entries in the order of their
-- keys, which for UTF-8 is the order of the characters. A number is kept as it prints.
inductive Json where
  | null
  | bool (value : Bool)
  | number (value : Text)
  | string (value : Text)
  | array (items : List Json)
  | object (fields : List (Text × Json))

inductive Json.Ordered : Json → Prop
  | null : Json.Ordered .null
  | bool (value : Bool) : Json.Ordered (.bool value)
  | number (value : Text) : Json.Ordered (.number value)
  | string (value : Text) : Json.Ordered (.string value)
  | array (items : List Json) (each : ∀ item ∈ items, Json.Ordered item) : Json.Ordered (.array items)
  | object (fields : List (Text × Json)) (sorted : Sorted fields) (each : ∀ entry ∈ fields, Json.Ordered entry.2) :
      Json.Ordered (.object fields)

def Json.asObject : Json → Option (List (Text × Json))
  | .object fields => some fields
  | _ => none

def Json.asArray : Json → Option (List Json)
  | .array items => some items
  | _ => none

def maxPathSegments : Nat := 16

def splitn (limit : Nat) (path : Text) : List Text :=
  let pieces := path.splitOn '.'
  if pieces.length ≤ limit then pieces
  else pieces.take (limit - 1) ++ [['.'].intercalate (pieces.drop (limit - 1))]

def Json.fields (json : Json) : List (Text × Json) := json.asObject.getD []

-- The loop over the segments: the last is the key that takes the value, every
-- other names an object that is found or made on the way.
def insertPath (root : List (Text × Json)) : List Text → Json → List (Text × Json)
  | [], _ => root
  | [last], value => put last value root
  | segment :: next :: rest, value =>
      put segment (.object (insertPath ((find segment root).getD (.object [])).fields (next :: rest) value)) root

def parseDigits (text : Text) : Option Nat :=
  if text = [] ∨ text.any (fun c => !c.isDigit) then none
  else
    let number := text.foldl (fun number c => number * 10 + (c.toNat - 48)) 0
    if number < 2 ^ 64 then some number else none

-- str::parse::<usize>: digits after at most one plus sign, without overflow.
def parseUsize (text : Text) : Option Nat :=
  if text.head? = some '+' then parseDigits text.tail else parseDigits text

def splitIndex (segment : Text) : Text × Option Nat :=
  if segment.getLast? = some ']' ∧ '[' ∈ segment.dropLast then
    let body := segment.dropLast
    let key := body.takeWhile (· != '[')
    match parseUsize (body.drop (key.length + 1)) with
    | some index => (key, some index)
    | none => (segment, none)
  else (segment, none)

def visitKey (current : Json) (key : Text) : Option Json :=
  if key = [] then some current else current.asObject.bind (find key)

def visitIndex (current : Json) (index : Option Nat) : Option Json :=
  match index with
  | none => some current
  | some place => current.asArray.bind fun items => items[place]?

def visitSegment (current : Json) (raw : Text) : Option Json :=
  (visitKey current (splitIndex raw).1).bind fun found => visitIndex found (splitIndex raw).2

def navigate (value : Json) (path : Text) : Option Json := (path.splitOn '.').foldlM visitSegment value

-- A JSON value with its maps in key order, as serde_json holds it.
structure JsonValue where
  json : Json
  ordered : json.Ordered

variable (json : Json) (segment : Text) (segments : List Text)

theorem fields_ordered (ordered : json.Ordered) : (Json.object json.fields).Ordered := by
  cases ordered with
  | object fields sorted each => exact .object fields sorted each
  | _ => exact .object [] List.Pairwise.nil (fun entry member => absurd member List.not_mem_nil)

variable (value : Json) (root : List (Text × Json))

theorem put_ordered (fields : List (Text × Json)) (ordered : value.Ordered)
    (held : (Json.object fields).Ordered) : (Json.object (put segment value fields)).Ordered := by
  cases held with
  | object _ sorted each =>
      refine .object _ (put_sorted segment value fields sorted) fun entry member => ?_
      rcases mem_put segment value fields entry member with rfl | older
      · exact ordered
      · exact each entry older

theorem found_ordered (fields : List (Text × Json)) (held : (Json.object fields).Ordered) :
    ((find segment fields).getD (.object [])).Ordered := by
  cases held with
  | object _ sorted each =>
      cases found : find segment fields with
      | none => exact .object [] List.Pairwise.nil (fun entry member => absurd member List.not_mem_nil)
      | some value => exact each (segment, value) (find_mem segment value fields found)

theorem insert_path_ordered (ordered : value.Ordered)
    (held : (Json.object root).Ordered) : (Json.object (insertPath root segments value)).Ordered := by
  induction segments generalizing root with
  | nil => exact held
  | cons segment rest ih =>
      cases rest with
      | nil => exact put_ordered segment value root ordered held
      | cons next rest =>
          have inner := fields_ordered _ (found_ordered segment root held)
          exact put_ordered segment _ root (ih _ inner) held

structure Values where
  root : JsonValue

-- A root that is no object is replaced by an empty one first.
def Values.insert (values : Values) (path : Text) (value : JsonValue) : Values where
  root :=
    { json := .object (insertPath values.root.json.fields (splitn maxPathSegments path) value.json)
      ordered := insert_path_ordered _ _ _ value.ordered (fields_ordered _ values.root.ordered) }

def Values.get (values : Values) (path : Text) : Option Json := navigate values.root.json path

open Keyed

-- A path as insertion and lookup both read it: plain keys, few enough.
structure Path where
  segments : List Text
  nonempty : segments ≠ []
  short : segments.length ≤ maxPathSegments
  plain : ∀ segment ∈ segments, segment ≠ [] ∧ '.' ∉ segment ∧ '[' ∉ segment ∧ ']' ∉ segment

def Path.text (path : Path) : Text := ['.'].intercalate path.segments

def Path.Apart (p q : Path) : Prop := ¬ p.segments <+: q.segments ∧ ¬ q.segments <+: p.segments

-- Following keys only, through objects only.
def readField (current : Json) (key : Text) : Option Json := current.asObject.bind (find key)

def read (json : Json) (segments : List Text) : Option Json := segments.foldlM readField json

theorem read_cons (rest : List Text) :
    read json (segment :: rest) = (readField json segment).bind fun found => read found rest := rfl

variable (path : Path) (current : Json)

theorem split_on_text : path.text.splitOn '.' = path.segments :=
  List.splitOn_intercalate '.' (fun segment member => (path.plain segment member).2.1) path.nonempty

theorem splitn_text : splitn maxPathSegments path.text = path.segments := by
  rw [splitn, split_on_text, if_pos path.short]

theorem split_index_plain (plain : '[' ∉ segment) : splitIndex segment = (segment, none) := by
  rw [splitIndex, if_neg fun bracketed => plain ((List.dropLast_sublist segment).subset bracketed.2)]

theorem visit_plain (segment : Text) (nonempty : segment ≠ []) (plain : '[' ∉ segment) :
    visitSegment current segment = readField current segment := by
  rw [visitSegment, split_index_plain segment plain, visitKey, if_neg nonempty, readField]
  exact Option.bind_fun_some _

theorem visits_plain (plain : ∀ segment ∈ segments, segment ≠ [] ∧ '.' ∉ segment ∧ '[' ∉ segment ∧ ']' ∉ segment) :
    segments.foldlM visitSegment current = read current segments := by
  induction segments generalizing current with
  | nil => rfl
  | cons segment rest ih =>
      have head := plain segment List.mem_cons_self
      rw [List.foldlM_cons, read_cons, visit_plain current segment head.1 head.2.2.1]
      exact congrArg _ (funext fun found => ih found fun other member => plain other (List.mem_cons_of_mem _ member))

theorem navigate_text : navigate value path.text = read value path.segments := by
  rw [navigate, split_on_text]
  exact visits_plain path.segments value path.plain

theorem read_field_object (fields : List (Text × Json)) (key : Text) : readField (.object fields) key = find key fields := rfl

theorem read_field_fields (key : Text) : readField (.object json.fields) key = readField json key := by
  cases json <;> rfl

theorem read_fields (nonempty : segments ≠ []) : read (.object json.fields) segments = read json segments := by
  cases segments with
  | nil => exact absurd rfl nonempty
  | cons segment rest => rw [read_cons, read_cons, read_field_fields]

theorem read_found (fields : List (Text × Json)) (segment : Text) (rest : List Text) (nonempty : rest ≠ []) :
    read ((find segment fields).getD (.object [])) rest = (find segment fields).bind fun found => read found rest := by
  cases found : find segment fields with
  | some value => rfl
  | none =>
      cases rest with
      | nil => exact absurd rfl nonempty
      | cons next rest => rfl

def child (held : Option Json) (rest : List Text) (value : Json) : Json :=
  if rest = [] then value else .object (insertPath (held.getD (.object [])).fields rest value)

theorem insert_path_cons (segment : Text) (rest : List Text) (value : Json) :
    insertPath root (segment :: rest) value = put segment (child (find segment root) rest value) root := by
  cases rest with
  | nil => rfl
  | cons next rest => rfl

theorem child_deep (held : Option Json) {rest : List Text} (value : Json) (nonempty : rest ≠ []) :
    child held rest value = .object (insertPath (held.getD (.object [])).fields rest value) := if_neg nonempty

theorem read_insert_same (nonempty : segments ≠ []) :
    read (.object (insertPath root segments value)) segments = some value := by
  induction segments generalizing root with
  | nil => exact absurd rfl nonempty
  | cons segment rest ih =>
      rw [insert_path_cons, read_cons, read_field_object, find_put_same, Option.bind_some]
      by_cases ended : rest = []
      · rw [ended]
        rfl
      · rw [child_deep _ value ended, ih _ ended]

variable (p q : List Text)

theorem prefix_cons_same (apart : ¬ segment :: p <+: segment :: q) : ¬ p <+: q :=
  fun below => apart ((List.prefix_cons_inj segment).mpr below)

theorem nonempty_of_apart (q : List Text) (under : ¬ p <+: q) : p ≠ [] := fun ended => under (ended ▸ List.nil_prefix)

theorem read_insert_apart (value : Json) (root : List (Text × Json)) (under : ¬ p <+: q)
    (above : ¬ q <+: p) : read (.object (insertPath root p value)) q = read (.object root) q := by
  induction p generalizing q root with
  | nil => exact absurd List.nil_prefix under
  | cons segment p ih =>
      cases q with
      | nil => exact absurd List.nil_prefix above
      | cons other q =>
          rw [insert_path_cons, read_cons, read_cons, read_field_object, read_field_object]
          by_cases same : other = segment
          · subst same
            have shallow := prefix_cons_same other p q under
            have deep := prefix_cons_same other q p above
            have goes := nonempty_of_apart q p deep
            rw [find_put_same, Option.bind_some, child_deep _ value (nonempty_of_apart p q shallow), ih q _ shallow deep,
              read_fields _ q goes, read_found root other q goes]
          · rw [find_put_other segment _ root same]

theorem insert_insert_apart (v w : Json) (root : List (Text × Json)) (under : ¬ p <+: q)
    (above : ¬ q <+: p) : insertPath (insertPath root p v) q w = insertPath (insertPath root q w) p v := by
  induction p generalizing q root with
  | nil => exact absurd List.nil_prefix under
  | cons segment p ih =>
      cases q with
      | nil => exact absurd List.nil_prefix above
      | cons other q =>
          rw [insert_path_cons, insert_path_cons, insert_path_cons, insert_path_cons]
          by_cases same : other = segment
          · subst same
            have shallow := prefix_cons_same other p q under
            have deep := prefix_cons_same other q p above
            rw [find_put_same, find_put_same, put_put, put_put, child_deep _ w (nonempty_of_apart q p deep),
              child_deep _ v (nonempty_of_apart p q shallow), child_deep _ w (nonempty_of_apart q p deep),
              child_deep _ v (nonempty_of_apart p q shallow)]
            exact congrArg (fun fields => put other (.object fields) root) (ih q _ shallow deep)
          · rw [find_put_other segment _ root same, find_put_other other _ root (Ne.symm same),
              put_comm other segment _ _ root same]

open Keyed

-- How many objects stand within one another, at most; an array counts for
-- `arrays`, so that either reading of the depth is a case of this one.
mutual

def Json.nesting (arrays : Nat) : Json → Nat
  | .null => 0
  | .bool _ => 0
  | .number _ => 0
  | .string _ => 0
  | .array items => arrays + itemsNesting arrays items
  | .object fields => 1 + fieldsNesting arrays fields

def itemsNesting (arrays : Nat) : List Json → Nat
  | [] => 0
  | item :: rest => max (item.nesting arrays) (itemsNesting arrays rest)

def fieldsNesting (arrays : Nat) : List (Text × Json) → Nat
  | [] => 0
  | entry :: rest => max (entryNesting arrays entry) (fieldsNesting arrays rest)

def entryNesting (arrays : Nat) : Text × Json → Nat
  | (_, value) => value.nesting arrays

end

-- The same, with what stands at the path left out.
def nestingOutside (arrays : Nat) : List Text → Json → Nat
  | [], _ => 0
  | segment :: rest, json =>
      match json.asObject with
      | none => json.nesting arrays
      | some fields =>
          1 + fields.foldr (fun entry depth =>
            max (if entry.1 = segment then nestingOutside arrays rest entry.2 else entry.2.nesting arrays) depth) 0

def entryOutside (arrays : Nat) (segment : Text) (rest : List Text) (entry : Text × Json) : Nat :=
  if entry.1 = segment then nestingOutside arrays rest entry.2 else entry.2.nesting arrays

variable (arrays : Nat) (values : Values)

theorem nesting_object (fields : List (Text × Json)) :
    (Json.object fields).nesting arrays = 1 + fieldsNesting arrays fields := by
  rw [Json.nesting]

theorem fields_nesting_mem {fields : List (Text × Json)} {entry : Text × Json} (member : entry ∈ fields) :
    entry.2.nesting arrays ≤ fieldsNesting arrays fields := by
  induction fields with
  | nil => exact absurd member List.not_mem_nil
  | cons head rest ih =>
      rw [fieldsNesting, entryNesting]
      rcases List.mem_cons.mp member with rfl | later
      · exact le_max_left _ _
      · exact le_trans (ih later) (le_max_right _ _)

theorem outside_object_le (segment : Text) (rest : List Text) (fields : List (Text × Json)) (bound : Nat)
    (each : ∀ entry ∈ fields, entryOutside arrays segment rest entry ≤ bound) :
    nestingOutside arrays (segment :: rest) (.object fields) ≤ 1 + bound := by
  have folded : fields.foldr (fun entry depth => max (entryOutside arrays segment rest entry) depth) 0 ≤ bound := by
    induction fields with
    | nil => exact Nat.zero_le _
    | cons head tail ih =>
        rw [List.foldr_cons]
        exact max_le (each head List.mem_cons_self) (ih fun entry later => each entry (List.mem_cons_of_mem _ later))
  exact Nat.add_le_add_left folded 1

theorem outside_le_nesting (segments : List Text) (json : Json) :
    nestingOutside arrays segments json ≤ json.nesting arrays := by
  induction segments generalizing json with
  | nil => exact Nat.zero_le _
  | cons segment rest ih =>
      cases json with
      | object fields =>
          rw [nesting_object]
          refine outside_object_le arrays segment rest fields _ fun entry member => ?_
          have within := fields_nesting_mem arrays member
          rw [entryOutside]
          split_ifs
          · exact le_trans (ih entry.2) within
          · exact within
      | _ => exact le_refl _

theorem fields_within (json : Json) : (Json.object json.fields).nesting arrays ≤ max (json.nesting arrays) 1 := by
  cases json with
  | object fields => exact le_max_left _ _
  | _ => exact le_trans (le_of_eq (nesting_object arrays [])) (le_max_right _ _)

theorem found_within (segment : Text) (fields : List (Text × Json)) :
    (Json.object ((find segment fields).getD (.object [])).fields).nesting arrays ≤ max (fieldsNesting arrays fields) 1 := by
  cases found : find segment fields with
  | none => exact le_trans (le_of_eq (nesting_object arrays [])) (le_max_right _ _)
  | some value =>
      have inner := fields_within arrays value
      have within := fields_nesting_mem arrays (find_mem segment value fields found)
      exact le_trans inner (max_le_max_right 1 within)

theorem insert_path_nesting (segments : List Text) (value : Json) (root : List (Text × Json)) :
    nestingOutside arrays segments (.object (insertPath root segments value)) ≤
      max ((Json.object root).nesting arrays) segments.length := by
  induction segments generalizing root with
  | nil => exact Nat.zero_le _
  | cons segment rest ih =>
      rw [insert_path_cons, nesting_object, List.length_cons]
      refine le_trans (outside_object_le arrays segment rest _ (max (fieldsNesting arrays root) rest.length)
        fun entry member => ?_) (by omega)
      rw [entryOutside]
      rcases mem_put segment _ root entry member with rfl | kept
      · rw [if_pos rfl]
        by_cases ended : rest = []
        · rw [ended]
          exact Nat.zero_le _
        · rw [child_deep _ value ended]
          have inner := found_within arrays segment root
          have deeper := ih ((find segment root).getD (.object [])).fields
          have some_left := List.length_pos_iff.mpr ended
          dsimp only
          omega
      · have within := fields_nesting_mem arrays kept
        have outside := outside_le_nesting arrays rest entry.2
        split_ifs <;> omega

theorem splitn_length (path : Text) : 1 ≤ (splitn maxPathSegments path).length ∧ (splitn maxPathSegments path).length ≤ maxPathSegments := by
  have pieces := List.length_pos_iff.mpr (List.splitOn_ne_nil '.' path)
  unfold splitn
  dsimp only
  split_ifs with few
  · exact ⟨pieces, few⟩
  · simp only [List.length_append, List.length_take, List.length_singleton, maxPathSegments] at few ⊢
    omega

theorem insert_nesting (path : Text) (value : JsonValue) :
    nestingOutside arrays (splitn maxPathSegments path) (values.insert path value).root.json ≤
      max (values.root.json.nesting arrays) maxPathSegments := by
  have written := insert_path_nesting arrays (splitn maxPathSegments path) value.json values.root.json.fields
  have inner := fields_within arrays values.root.json
  have count := splitn_length path
  dsimp only [Values.insert]
  omega

theorem values_ext (a b : Values) (same : a.root.json = b.root.json) : a = b := by
  obtain ⟨⟨json, ordered⟩⟩ := a
  obtain ⟨⟨other, _⟩⟩ := b
  obtain rfl : json = other := same
  rfl

theorem insert_text (path : Path) (value : JsonValue) :
    (values.insert path.text value).root.json = .object (insertPath values.root.json.fields path.segments value.json) := by
  rw [← splitn_text]
  rfl

theorem get_text (path : Path) : values.get path.text = read values.root.json path.segments :=
  navigate_text values.root.json path

theorem get_insert_same (path : Path) (value : JsonValue) :
    (values.insert path.text value).get path.text = some value.json := by
  rw [get_text, insert_text]
  exact read_insert_same path.segments value.json _ path.nonempty

theorem get_insert_apart (p q : Path) (value : JsonValue) (apart : p.Apart q) :
    (values.insert p.text value).get q.text = values.get q.text := by
  rw [get_text, get_text, insert_text, read_insert_apart p.segments q.segments value.json _ apart.1 apart.2]
  exact read_fields values.root.json q.segments q.nonempty

theorem insert_insert_comm (p q : Path) (v w : JsonValue) (apart : p.Apart q) :
    (values.insert p.text v).insert q.text w = (values.insert q.text w).insert p.text v := by
  apply values_ext
  rw [insert_text, insert_text, insert_text, insert_text]
  exact congrArg Json.object (insert_insert_apart p.segments q.segments v.json w.json _ apart.1 apart.2)

theorem insert_laws (values : Values) (p q : Path) (v w : JsonValue) (apart : p.Apart q) :
    (values.insert p.text v).get p.text = some v.json ∧
      (values.insert p.text v).get q.text = values.get q.text ∧
      (values.insert p.text v).insert q.text w = (values.insert q.text w).insert p.text v ∧
      ∀ (path : Text) (arrays : Nat),
        read (values.insert path v).root.json (splitn maxPathSegments path) = some v.json ∧
          (splitn maxPathSegments path).length ≤ maxPathSegments ∧
          nestingOutside arrays (splitn maxPathSegments path) (values.insert path v).root.json ≤
            max (values.root.json.nesting arrays) maxPathSegments := by
  refine ⟨get_insert_same values p v, get_insert_apart values p q v apart, insert_insert_comm values p q v w apart,
    fun path arrays => ⟨?_, (splitn_length path).2, insert_nesting arrays values path v⟩⟩
  exact read_insert_same _ v.json _ (List.length_pos_iff.mp (splitn_length path).1)

def Path.pair (first second : Char) (plain : first ∉ ['.', '[', ']'] ∧ second ∉ ['.', '[', ']']) : Path where
  segments := [[first], [second]]
  nonempty := by simp
  short := show 2 ≤ 16 by decide
  plain := by
    simp only [List.mem_cons, List.not_mem_nil, or_false, not_or] at plain
    simp only [List.mem_cons, List.not_mem_nil, or_false, forall_eq_or_imp, forall_eq, ne_eq, List.cons_ne_nil, not_false_iff,
      true_and]
    exact ⟨⟨Ne.symm plain.1.1, Ne.symm plain.1.2.1, Ne.symm plain.1.2.2⟩, Ne.symm plain.2.1, Ne.symm plain.2.2.1, Ne.symm plain.2.2.2⟩

def scalarValues : Values where
  root :=
    { json := .object [(['a'], .null)]
      ordered := .object _ (List.pairwise_singleton _ _) fun entry member => List.mem_singleton.mp member ▸ .null }

theorem insert_laws_pair :
    (Path.pair 'a' 'b' (by decide)).Apart (Path.pair 'a' 'c' (by decide)) ∧
      (scalarValues.insert (Path.pair 'a' 'b' (by decide)).text ⟨.bool true, .bool true⟩).get
        (Path.pair 'a' 'c' (by decide)).text = scalarValues.get (Path.pair 'a' 'c' (by decide)).text :=
  have apart : (Path.pair 'a' 'b' (by decide)).Apart (Path.pair 'a' 'c' (by decide)) := by
    unfold Path.Apart Path.pair
    decide
  ⟨apart, (insert_laws scalarValues (Path.pair 'a' 'b' (by decide)) (Path.pair 'a' 'c' (by decide)) ⟨.bool true, .bool true⟩
    ⟨.null, .null⟩ apart).2.1⟩

def Values.inserts (values : Values) (writes : List (Path × JsonValue)) : Values :=
  writes.foldl (fun values write => values.insert write.1.text write.2) values

theorem inserts_apart (values : Values) (writes : List (Path × JsonValue)) (q : Path) (apart : ∀ write ∈ writes, write.1.Apart q) :
    (values.inserts writes).get q.text = values.get q.text := by
  induction writes generalizing values with
  | nil => rfl
  | cons write writes ih =>
      exact (ih _ fun other member => apart other (List.mem_cons_of_mem write member)).trans
        (get_insert_apart values write.1 q write.2 (apart write List.mem_cons_self))

theorem inserts_perm {writes reordered : List (Path × JsonValue)} (same : writes.Perm reordered) : ∀ values : Values,
    writes.Pairwise (fun one other => one.1.Apart other.1) → values.inserts reordered = values.inserts writes := by
  induction same with
  | nil => exact fun _ _ => rfl
  | cons write _ ih => exact fun values apart => ih _ (List.pairwise_cons.mp apart).2
  | swap one other rest =>
      intro values apart
      have pair := (List.pairwise_cons.mp apart).1 one List.mem_cons_self
      exact congrArg (fun values : Values => values.inserts rest) (insert_insert_comm values one.1 other.1 one.2 other.2 pair.symm)
  | trans first _ ih ih' => exact fun values apart => (ih' values (apart.perm first fun pair => pair.symm)).trans (ih values apart)

end Filefacts.Output