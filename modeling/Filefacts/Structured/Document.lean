import Filefacts.Structured.Scalar

set_option autoImplicit false

namespace Filefacts.Structured

open Filefacts.Output (Text Json)

def yamlMaxDepth : Nat := 128

def yamlMaxReplayedEvents : Nat := 100000

def yamlMaxReplayedBytes : Nat := 16 * 2 ^ 20

structure Span where
  line : Nat
  col : Nat
  deriving DecidableEq, Repr

-- An anchor is an id other than 0.
inductive Event where
  | aliasOf (id : Nat)
  | scalar (value : Text) (style : ScalarStyle) (anchor : Nat) (tag : Option Tag)
  | sequenceStart (anchor : Nat) (tag : Option Tag)
  | sequenceEnd
  | mappingStart (anchor : Nat) (tag : Option Tag)
  | mappingEnd
  | nothing
  deriving DecidableEq, Repr

-- `made` and `copied` are not the source's: how many nodes are built, and how
-- many bytes of scalars in replays.
structure Composer where
  anchors : List (Nat × Nat)
  replaying : Nat
  replayed : Nat
  replayedBytes : Nat
  made : Nat
  copied : Nat
  deriving DecidableEq, Repr

-- A run that fails leaves the position and the composer as they were then; one
-- that is cut short leaves nothing.
inductive Outcome (Value : Type) where
  | spent
  | failed (message : String) (pos : Nat) (composer : Composer)
  | done (value : Value) (pos : Nat) (composer : Composer)

def Outcome.bind {Value Next : Type} (outcome : Outcome Value) (next : Value → Nat → Composer → Outcome Next) : Outcome Next :=
  match outcome with
  | .spent => .spent
  | .failed message pos composer => .failed message pos composer
  | .done value pos composer => next value pos composer

def location (span : Span) : String := s!" at line {span.line} column {span.col + 1}"

def byteLen (text : Text) : Nat := (text.map Char.utf8Size).sum

def Event.bytes : Event → Nat
  | .scalar value _ _ _ => byteLen value
  | _ => 0

def Event.isScalar : Event → Bool
  | .scalar _ _ _ _ => true
  | _ => false

variable {F : Type} (std : Std F) (events : List (Event × Span))

-- Consume the event at a position, charging it to the replay budget when an
-- alias is being replayed.
def take (pos : Nat) (composer : Composer) : Outcome (Event × Span) :=
  match events[pos]? with
  | none => .failed "unexpected end of YAML document" pos composer
  | some entry =>
      if composer.replaying = 0 then .done entry (pos + 1) composer
      else
        let composer := { composer with replayed := composer.replayed + 1 }
        if yamlMaxReplayedEvents < composer.replayed then
          .failed s!"YAML aliases expand past {yamlMaxReplayedEvents} events{location entry.2}" (pos + 1) composer
        else if entry.1.isScalar then
          let composer := { composer with replayedBytes := min (composer.replayedBytes + entry.1.bytes) (2 ^ 64 - 1) }
          if yamlMaxReplayedBytes < composer.replayedBytes then
            .failed s!"YAML aliases expand past {yamlMaxReplayedBytes} scalar bytes{location entry.2}" (pos + 1) composer
          else .done entry (pos + 1) composer
        else .done entry (pos + 1) composer

def isEnd (pos : Nat) : Bool := events[pos]?.any fun entry => entry.1 = .sequenceEnd || entry.1 = .mappingEnd

-- Replays must not move an anchor a later one redefined.
def Composer.anchor (composer : Composer) (id start : Nat) : Composer :=
  if id ≠ 0 ∧ composer.replaying = 0 then
    { composer with anchors := (id, start) :: composer.anchors.filter fun held => decide (held.1 ≠ id) }
  else composer

def Composer.anchored (composer : Composer) (id : Nat) : Option Nat := (composer.anchors.find? fun held => decide (held.1 = id)).map Prod.snd

def Composer.builds (composer : Composer) (bytes : Nat) : Composer :=
  { composer with
    made := composer.made + 1
    copied := if composer.replaying = 0 then composer.copied else composer.copied + bytes }

def under (tag : Option Text) (node : Yaml F) : Yaml F := tag.elim node fun tag => .tagged tag node

def items (node : Nat → Composer → Outcome (Yaml F)) : Nat → List (Yaml F) → Nat → Composer → Outcome (List (Yaml F))
  | 0, _, _, _ => .spent
  | turns + 1, held, pos, composer =>
      if isEnd events pos then .done held pos composer
      else (node pos composer).bind fun item => items node turns (held ++ [item])

local instance lawfulText : LawfulBEq Text := inferInstance

def entries (node : Nat → Composer → Outcome (Yaml F)) :
    Nat → List (Yaml F × Yaml F) → List Text → Nat → Composer → Outcome (List (Yaml F × Yaml F))
  | 0, _, _, _, _ => .spent
  | turns + 1, held, seen, pos, composer =>
      if isEnd events pos then .done held pos composer
      else
        (node pos composer).bind fun key after composer =>
          if keyIdentity std key ∈ seen then
            let spelled := String.ofList (keySpelling std key)
            let place := events[pos]?.elim "" fun entry => location entry.2
            .failed s!"duplicate YAML mapping key {spelled}{place}" after composer
          else (node after composer).bind fun value => entries node turns (held ++ [(key, value)]) (keyIdentity std key :: seen)

-- The depth is that of the collections around; `levels` bounds the calls within
-- one another.
def node : Nat → Nat → Nat → Composer → Outcome (Yaml F)
  | 0, _, _, _ => .spent
  | levels + 1, depth, start, composer =>
      (take events start composer).bind fun entry pos composer =>
        match entry.1 with
        | .aliasOf id =>
            match composer.anchored id with
            | none => .failed s!"unknown YAML anchor{location entry.2}" pos composer
            | some replay =>
                match node levels depth replay { composer with replaying := composer.replaying + 1 } with
                | .spent => .spent
                | .failed message _ after => .failed message pos { after with replaying := after.replaying - 1 }
                | .done value _ after => .done value pos { after with replaying := after.replaying - 1 }
        | .scalar value style anchor tag =>
            let composer := composer.anchor anchor start
            let core := if (localTag tag).isSome then none else tag
            match resolveScalar std value style core (localTag tag).isSome with
            | .error e => .failed s!"{e}{location entry.2}" pos composer
            | .ok scalar => .done (under (localTag tag) scalar) pos (composer.builds (byteLen value))
        | .sequenceStart anchor tag =>
            let composer := composer.anchor anchor start
            if yamlMaxDepth ≤ depth then .failed s!"YAML recursion limit exceeded{location entry.2}" pos composer
            else
              (items events (node levels (depth + 1)) (events.length + 1) [] pos composer).bind fun held pos composer =>
                (take events pos composer).bind fun _ pos composer =>
                  .done (under (localTag tag) (.sequence held)) pos (composer.builds 0)
        | .mappingStart anchor tag =>
            let composer := composer.anchor anchor start
            if yamlMaxDepth ≤ depth then .failed s!"YAML recursion limit exceeded{location entry.2}" pos composer
            else
              (entries std events (node levels (depth + 1)) (events.length + 1) [] [] pos composer).bind fun held pos composer =>
                (take events pos composer).bind fun _ pos composer =>
                  .done (under (localTag tag) (.mapping held)) pos (composer.builds 0)
        | .sequenceEnd => .failed s!"unexpected YAML event{location entry.2}" pos composer
        | .mappingEnd => .failed s!"unexpected YAML event{location entry.2}" pos composer
        | .nothing => .failed s!"unexpected YAML event{location entry.2}" pos composer

def Composer.empty : Composer := ⟨[], 0, 0, 0, 0, 0⟩

-- Every level but an alias is a collection deeper, and an alias leads to no other.
def allLevels : Nat := 2 * (yamlMaxDepth + 1)

def compose : Outcome (Yaml F) := node std events allLevels 0 0 .empty

end Filefacts.Structured

-- A well-formed document, its events, and what its aliases stand for.
namespace Filefacts.Structured

open Filefacts.Output (Text)

inductive Doc where
  | aliasOf (id : Nat) (span : Span)
  | scalar (value : Text) (style : ScalarStyle) (anchor : Nat) (tag : Option Tag) (span : Span)
  | sequence (anchor : Nat) (tag : Option Tag) (items : List Doc) (start stop : Span)
  | mapping (anchor : Nat) (tag : Option Tag) (entries : List (Doc × Doc)) (start stop : Span)

mutual

def Doc.events : Doc → List (Event × Span)
  | .aliasOf id span => [(.aliasOf id, span)]
  | .scalar value style anchor tag span => [(.scalar value style anchor tag, span)]
  | .sequence anchor tag items start stop => (.sequenceStart anchor tag, start) :: itemsEvents items ++ [(.sequenceEnd, stop)]
  | .mapping anchor tag entries start stop => (.mappingStart anchor tag, start) :: entriesEvents entries ++ [(.mappingEnd, stop)]

def itemsEvents : List Doc → List (Event × Span)
  | [] => []
  | item :: rest => item.events ++ itemsEvents rest

def entriesEvents : List (Doc × Doc) → List (Event × Span)
  | [] => []
  | entry :: rest => entryEvents entry ++ entriesEvents rest

def entryEvents : Doc × Doc → List (Event × Span)
  | (key, value) => key.events ++ value.events

end

mutual

def Doc.nodes : Doc → List Doc
  | .aliasOf id span => [.aliasOf id span]
  | .scalar value style anchor tag span => [.scalar value style anchor tag span]
  | .sequence anchor tag items start stop => .sequence anchor tag items start stop :: itemsNodes items
  | .mapping anchor tag entries start stop => .mapping anchor tag entries start stop :: entriesNodes entries

def itemsNodes : List Doc → List Doc
  | [] => []
  | item :: rest => item.nodes ++ itemsNodes rest

def entriesNodes : List (Doc × Doc) → List Doc
  | [] => []
  | entry :: rest => entryNodes entry ++ entriesNodes rest

def entryNodes : Doc × Doc → List Doc
  | (key, value) => key.nodes ++ value.nodes

end

def Doc.anchor : Doc → Nat
  | .aliasOf _ _ => 0
  | .scalar _ _ anchor _ _ => anchor
  | .sequence anchor _ _ _ _ => anchor
  | .mapping anchor _ _ _ _ => anchor

def Doc.Distinct (root : Doc) : Prop := ((root.nodes.map Doc.anchor).filter (· ≠ 0)).Nodup

structure Named (root : Doc) (id : Nat) (doc : Doc) : Prop where
  node : doc ∈ root.nodes
  anchor : doc.anchor = id
  given : id ≠ 0

def flat {Value : Type} (pairs : List (Value × Value)) : List Value := pairs.flatMap fun pair => [pair.1, pair.2]

variable {F : Type} (std : Std F)

def resolved (value : Text) (style : ScalarStyle) (tag : Option Tag) : Except String (Yaml F) :=
  resolveScalar std value style (if (localTag tag).isSome then none else tag) (localTag tag).isSome

-- What nodes stand for, with a copy of the anchored node in an alias's place.
-- None stands for an alias that leads back to itself.
inductive UnrollsAll (root : Doc) : List Doc → List (Yaml F) → Prop
  | nil : UnrollsAll root [] []
  | aliasOf (id : Nat) (span : Span) (doc : Doc) (value : Yaml F) (rest : List Doc) (values : List (Yaml F))
      (named : Named root id doc) (copy : UnrollsAll root [doc] [value]) (later : UnrollsAll root rest values) :
      UnrollsAll root (.aliasOf id span :: rest) (value :: values)
  | scalar (value : Text) (style : ScalarStyle) (anchor : Nat) (tag : Option Tag) (span : Span) (node : Yaml F)
      (rest : List Doc) (values : List (Yaml F)) (resolves : resolved std value style tag = .ok node)
      (later : UnrollsAll root rest values) :
      UnrollsAll root (.scalar value style anchor tag span :: rest) (under (localTag tag) node :: values)
  | sequence (anchor : Nat) (tag : Option Tag) (items : List Doc) (start stop : Span) (inner : List (Yaml F))
      (rest : List Doc) (values : List (Yaml F)) (below : UnrollsAll root items inner) (later : UnrollsAll root rest values) :
      UnrollsAll root (.sequence anchor tag items start stop :: rest) (under (localTag tag) (.sequence inner) :: values)
  | mapping (anchor : Nat) (tag : Option Tag) (entries : List (Doc × Doc)) (start stop : Span)
      (inner : List (Yaml F × Yaml F)) (rest : List Doc) (values : List (Yaml F))
      (below : UnrollsAll root (flat entries) (flat inner)) (later : UnrollsAll root rest values) :
      UnrollsAll root (.mapping anchor tag entries start stop :: rest) (under (localTag tag) (.mapping inner) :: values)

def Unrolls (root doc : Doc) (value : Yaml F) : Prop := UnrollsAll std root [doc] [value]

theorem nodup_filter_unique {Node : Type} (label : Node → Nat) (nodes : List Node)
    (distinct : ((nodes.map label).filter (· ≠ 0)).Nodup) (first second : Node) (here : first ∈ nodes) (there : second ∈ nodes)
    (same : label first = label second) (given : label first ≠ 0) : first = second := by
  induction nodes with
  | nil => cases here
  | cons node rest hypothesis =>
      have later : ((rest.map label).filter (· ≠ 0)).Nodup := by
        rw [List.map_cons, List.filter_cons] at distinct
        split at distinct
        · exact (List.nodup_cons.mp distinct).2
        · exact distinct
      have apart : ∀ other ∈ rest, label other = label node → label node = 0 := by
        intro other member equal
        by_contra nonzero
        rw [List.map_cons, List.filter_cons, if_pos (decide_eq_true nonzero)] at distinct
        refine (List.nodup_cons.mp distinct).1 (List.mem_filter.mpr ⟨?_, decide_eq_true nonzero⟩)
        exact List.mem_map.mpr ⟨other, member, equal⟩
      rcases List.mem_cons.mp here with isFirst | firstLater
      · rcases List.mem_cons.mp there with isSecond | secondLater
        · exact isFirst.trans isSecond.symm
        · rw [isFirst] at same given
          exact absurd (apart second secondLater same.symm) given
      · rcases List.mem_cons.mp there with isSecond | secondLater
        · rw [isSecond] at same
          exact absurd (same.trans (apart first firstLater same)) given
        · exact hypothesis later firstLater secondLater

theorem named_unique (root : Doc) (distinct : root.Distinct) (id : Nat) (first second : Doc) (one : Named root id first)
    (other : Named root id second) : first = second :=
  nodup_filter_unique Doc.anchor root.nodes distinct first second one.node other.node (one.anchor.trans other.anchor.symm)
    (one.anchor ▸ one.given)

theorem flat_cons {Value : Type} (pair : Value × Value) (rest : List (Value × Value)) :
    flat (pair :: rest) = pair.1 :: pair.2 :: flat rest := rfl

theorem flat_injective {Value : Type} (first second : List (Value × Value)) (same : flat first = flat second) : first = second := by
  induction first generalizing second with
  | nil =>
      cases second with
      | nil => rfl
      | cons pair rest => cases same
  | cons pair rest hypothesis =>
      cases second with
      | nil => cases same
      | cons other later =>
          obtain ⟨a, b⟩ := pair
          obtain ⟨c, d⟩ := other
          rw [flat_cons, flat_cons] at same
          obtain ⟨key, same⟩ := List.cons.inj same
          obtain ⟨value, same⟩ := List.cons.inj same
          rw [show a = c from key, show b = d from value, hypothesis later same]

theorem unrolls_unique (root : Doc) (distinct : root.Distinct) (docs : List Doc) (first second : List (Yaml F))
    (one : UnrollsAll std root docs first) (other : UnrollsAll std root docs second) : first = second := by
  induction one generalizing second with
  | nil =>
      cases other
      rfl
  | aliasOf id span doc value rest values named _ _ ihCopy ihLater =>
      cases other with
      | aliasOf _ _ doc' value' _ values' named' copy' later' =>
          have same := named_unique root distinct id doc' doc named' named
          subst same
          rw [List.singleton_inj.mp (ihCopy [value'] copy'), ihLater values' later']
  | scalar value style anchor tag span node rest values resolves _ ihLater =>
      cases other with
      | scalar _ _ _ _ _ node' _ values' resolves' later' =>
          rw [resolves] at resolves'
          rw [Except.ok.inj resolves', ihLater values' later']
  | sequence anchor tag items start stop inner rest values _ _ ihBelow ihLater =>
      cases other with
      | sequence _ _ _ _ _ inner' _ values' below' later' => rw [ihBelow inner' below', ihLater values' later']
  | mapping anchor tag entries start stop inner rest values _ _ ihBelow ihLater =>
      cases other with
      | mapping _ _ _ _ _ inner' _ values' below' later' =>
          rw [flat_injective inner inner' (ihBelow (flat inner') below'), ihLater values' later']

end Filefacts.Structured
