import Filefacts.Iso.Regions
import Filefacts.Lossy

set_option autoImplicit false

namespace Filefacts.Iso

open Rar (Text fromUtf8Lossy utf8Len)

def maxCeHops : Nat := 8

def maxSuspBytesPerEntry : Nat := 64 * 1024

def maxAltNameLen : Nat := 4096

def maxSymlinkLen : Nat := 4096

-- The part of a directory entry that the system-use area speaks of.
structure Entry where
  path : Text
  altName : Option Text
  mode : Option Nat
  uid : Option Nat
  gid : Option Nat
  symlink : Option Text
deriving DecidableEq, Repr

structure Walk where
  rockRidge : Bool
  apple : Bool
  truncated : Bool
  suspAreasParsed : Nat
  suspBudget : Nat
deriving DecidableEq, Repr

def fitting : Nat → Text → Text
  | _, [] => []
  | room, point :: part => if utf8Len [point] ≤ room then point :: fitting (room - utf8Len [point]) part else []

def pushCapped (out part : Text) (cap : Nat) : Text := out ++ fitting (cap - utf8Len out) part

def separated (out : Text) : Text := if out ≠ [] ∧ out.getLast? ≠ some 0x2F then out ++ [0x2F] else out

def pushComponent (flags : UInt8) (component : List UInt8) (out : Text) : Text :=
  if flags &&& 0x08 ≠ 0 then [0x2F]
  else if flags &&& 0x02 ≠ 0 then separated out ++ [0x2E]
  else if flags &&& 0x04 ≠ 0 then separated out ++ [0x2E, 0x2E]
  else separated out ++ fromUtf8Lossy component

-- A component that does not lie inside the data is read as an empty one.
def decodeComponents : Nat → List UInt8 → Text → Text
  | fuel + 1, flags :: len :: rest, out =>
      if utf8Len out < maxSymlinkLen then
        let component := if len.toNat ≤ rest.length then rest.take len.toNat else []
        decodeComponents fuel (rest.drop len.toNat) (pushComponent flags component out)
      else out
  | _, _, out => out

def decodeSymlink (data : List UInt8) (out : Text) : Text := decodeComponents data.length (data.drop 1) out

structure AreaState where
  walk : Walk
  entry : Entry
  continuation : Option (Nat × Nat)
deriving DecidableEq, Repr

def continuationRange (data : List UInt8) : Option (Nat × Nat) := do
  let block ← Bytes.u32le data 0
  let offset ← Bytes.u32le data 8
  let length ← Bytes.u32le data 16
  let start := Bytes.saturatingAdd (Bytes.saturatingMul block sector) offset
  some (start, Bytes.saturatingAdd start (min length (sector * 4)))

def rockRidged (state : AreaState) (entry : Entry) : AreaState :=
  { state with walk := { state.walk with rockRidge := true }, entry }

def readUse (signature data : List UInt8) (state : AreaState) : AreaState :=
  if signature = Bytes.ascii "SP" ∨ signature = Bytes.ascii "RR" ∨ signature = Bytes.ascii "ER" then rockRidged state state.entry
  else if signature = Bytes.ascii "PX" then
    rockRidged state
      { state.entry with mode := Bytes.u32le data 0, uid := Bytes.u32le data 16, gid := Bytes.u32le data 24 }
  else if signature = Bytes.ascii "NM" then
    rockRidged state
      { state.entry with
        altName := some (pushCapped (state.entry.altName.getD []) (fromUtf8Lossy (data.drop 1)) maxAltNameLen) }
  else if signature = Bytes.ascii "SL" then
    rockRidged state { state.entry with symlink := some (decodeSymlink data (state.entry.symlink.getD [])) }
  else if signature = Bytes.ascii "AA" ∨ signature = Bytes.ascii "AB" ∨ signature = Bytes.ascii "AS" then
    { state with walk := { state.walk with apple := true } }
  else if signature = Bytes.ascii "CE" ∧ state.continuation = none then { state with continuation := continuationRange data }
  else state

-- Each turn takes four octets or more.
def parseSuspArea : Nat → List UInt8 → AreaState → AreaState
  | fuel + 1, sig0 :: sig1 :: len :: version :: rest, state =>
      if len.toNat < 4 ∨ rest.length + 4 < len.toNat then state
      else if [sig0, sig1] = Bytes.ascii "ST" then state
      else parseSuspArea fuel (rest.drop (len.toNat - 4)) (readUse [sig0, sig1] (rest.take (len.toNat - 4)) state)
  | _, _, state => state

-- The loop of `parse_susp`: it goes on only after another hop, so a turn more
-- than hops are enough.
def followAreas (bytes : List UInt8) : Nat → Walk → Entry → List UInt8 → List (Nat × Nat) → Nat → Walk × Entry
  | 0, walk, entry, _, _, _ => (walk, entry)
  | fuel + 1, walk, entry, area, followed, entryBudget =>
      let state := parseSuspArea area.length area ⟨{ walk with suspAreasParsed := walk.suspAreasParsed + 1 }, entry, none⟩
      match state.continuation with
      | none => (state.walk, state.entry)
      | some range =>
          if followed.length ≥ maxCeHops ∨ range ∈ followed then (state.walk, state.entry)
          else
            let take := min (min (range.2 - range.1) entryBudget) state.walk.suspBudget
            match Bytes.get bytes range.1 (Bytes.saturatingAdd range.1 take) with
            | none => (state.walk, state.entry)
            | some next =>
                let walk := { state.walk with truncated := state.walk.truncated || decide (take < range.2 - range.1) }
                if next = [] then (walk, state.entry)
                else
                  followAreas bytes fuel { walk with suspBudget := walk.suspBudget - next.length } state.entry next
                    (followed ++ [range]) (entryBudget - next.length)

def parseSusp (bytes su : List UInt8) (walk : Walk) (entry : Entry) (path : Text) : Walk × Entry :=
  let done := followAreas bytes (maxCeHops + 1) walk entry su [] maxSuspBytesPerEntry
  match done.2.altName with
  | none => done
  | some alt => if alt = [] then done else (done.1, { done.2 with path := path ++ 0x2F :: alt })

open Rar (Text utf8Len)
open Lossy (utf8 points)

structure Record where
  flags : UInt8
  octets : List UInt8
deriving DecidableEq, Repr

def Record.bytes (record : Record) : List UInt8 := record.flags :: UInt8.ofNat record.octets.length :: record.octets

structure NamePieces where
  text : List Char
  pieces : List (List UInt8)
  recorded : pieces.flatten = utf8 text
  nonempty : text ≠ []
  plain : '/' ∉ text

inductive Component where
  | current
  | parent
  | name (named : NamePieces)

def Component.text : Component → Text
  | .current => [0x2E]
  | .parent => [0x2E, 0x2E]
  | .name named => points named.text

-- All pieces but the last carry the CONTINUE flag.
def pieceRecords : List (List UInt8) → List Record
  | [] => []
  | [piece] => [⟨0x00, piece⟩]
  | piece :: pieces => ⟨0x01, piece⟩ :: pieceRecords pieces

def Component.records : Component → List Record
  | .current => [⟨0x02, []⟩]
  | .parent => [⟨0x04, []⟩]
  | .name named => pieceRecords named.pieces

structure Target where
  root : Bool
  components : List Component
  nonempty : root = true ∨ components ≠ []

def joined : List Text → Text
  | [] => []
  | first :: rest => first ++ rest.flatMap fun text => 0x2F :: text

def Target.text (target : Target) : Text := (if target.root then [0x2F] else []) ++ joined (target.components.map Component.text)

def Target.records (target : Target) : List Record :=
  (if target.root then [⟨0x08, []⟩] else []) ++ target.components.flatMap Component.records

-- The entries of a system-use area, but for `CE` and `ST`.
inductive Use where
  | name (continues : Bool) (part : List UInt8)
  | link (continues : Bool) (records : List Record)
  | other (signature : List UInt8) (version : UInt8) (data : List UInt8)

def continueFlag (continues : Bool) : UInt8 := if continues then 0x01 else 0x00

def Use.signature : Use → List UInt8
  | .name _ _ => Bytes.ascii "NM"
  | .link _ _ => Bytes.ascii "SL"
  | .other signature _ _ => signature

def Use.version : Use → UInt8
  | .name _ _ => 1
  | .link _ _ => 1
  | .other _ version _ => version

def Use.data : Use → List UInt8
  | .name continues part => continueFlag continues :: part
  | .link continues records => continueFlag continues :: records.flatMap Record.bytes
  | .other _ _ data => data

def useBytes (signature : List UInt8) (version : UInt8) (data : List UInt8) : List UInt8 :=
  signature ++ UInt8.ofNat (data.length + 4) :: version :: data

def Use.bytes (use : Use) : List UInt8 := useBytes use.signature use.version use.data

def Use.Fits (use : Use) : Prop := use.data.length + 4 < 256

def Use.Plain : Use → Prop
  | .other signature _ _ => signature.length = 2 ∧
      ∀ word ∈ ["NM", "SL", "CE", "ST"], signature ≠ Bytes.ascii word
  | _ => True

instance (use : Use) : Decidable use.Fits := inferInstanceAs (Decidable (_ < _))

instance (use : Use) : Decidable use.Plain :=
  match use with
  | .name _ _ => isTrue trivial
  | .link _ _ => isTrue trivial
  | .other _ _ _ => inferInstanceAs (Decidable (_ ∧ _))

def Use.part : Use → Option (List UInt8)
  | .name _ part => some part
  | _ => none

def Use.records : Use → Option (List Record)
  | .link _ records => some records
  | _ => none

def Use.nameContinues : Use → Option Bool
  | .name continues _ => some continues
  | _ => none

def Use.linkContinues : Use → Option Bool
  | .link continues _ => some continues
  | _ => none

-- What stands behind the last entry: less than an entry, or a terminator.
def Ends (tail : List UInt8) : Prop := tail.length < 4 ∨ ∃ version rest, tail = useBytes (Bytes.ascii "ST") version [] ++ rest

structure Area where
  front : List Use
  back : List Use
  tail : List UInt8
  fits : ∀ use ∈ front ++ back, use.Fits
  plain : ∀ use ∈ front ++ back, use.Plain
  ends : Ends tail

def Area.uses (area : Area) : List Use := area.front ++ area.back

structure Place where
  block : Nat
  offset : Nat
  blockFits : block < 2 ^ 32
  offsetFits : offset < 2 ^ 32

def Place.start (place : Place) : Nat := place.block * sector + place.offset

def little (number : Nat) : List UInt8 := (BigEndian.octetsOf 4 number).reverse

def bothEndian (number : Nat) : List UInt8 := little number ++ BigEndian.octetsOf 4 number

def continuationBytes (place : Place) (length : Nat) : List UInt8 :=
  useBytes (Bytes.ascii "CE") 1 (bothEndian place.block ++ bothEndian place.offset ++ bothEndian length)

def Area.bytes (area : Area) (next : Option (Place × Nat)) : List UInt8 :=
  area.front.flatMap Use.bytes ++ (next.elim [] fun place => continuationBytes place.1 place.2) ++ area.back.flatMap Use.bytes ++
    area.tail

def chainBytes (area : Area) : List (Place × Area) → List UInt8
  | [] => area.bytes none
  | (place, next) :: rest => area.bytes (some (place, (chainBytes next rest).length))

def Placed (image : List UInt8) : List (Place × Area) → Prop
  | [] => True
  | (place, area) :: rest =>
      Bytes.get image place.start (place.start + (chainBytes area rest).length) = some (chainBytes area rest) ∧
        (chainBytes area rest).length ≤ sector * 4 ∧ Placed image rest

def chainLength : List (Place × Area) → Nat
  | [] => 0
  | (_, area) :: rest => (chainBytes area rest).length + chainLength rest

def Flagged (flags : List Bool) : Prop := flags = [] ∨ ∃ count, flags = List.replicate count true ++ [false]

def usesOf (first : Area) (continued : List (Place × Area)) : List Use := first.uses ++ continued.flatMap fun link => link.2.uses

-- A name and a target, either of which may be absent, as the standard records
-- them in a directory record's area and in the areas that continue it.
structure Recording (name : Option (List Char)) (target : Option Target) where
  first : Area
  continued : List (Place × Area)
  few : continued.length ≤ maxCeHops
  nameFlags : Flagged ((usesOf first continued).filterMap Use.nameContinues)
  linkFlags : Flagged ((usesOf first continued).filterMap Use.linkContinues)
  noName : name = none → (usesOf first continued).filterMap Use.part = []
  parts : ∀ text, name = some text →
    (usesOf first continued).filterMap Use.part ≠ [] ∧ ((usesOf first continued).filterMap Use.part).flatten = utf8 text
  noLink : target = none → (usesOf first continued).filterMap Use.records = []
  records : ∀ path, target = some path → ((usesOf first continued).filterMap Use.records).flatten = path.records

end Filefacts.Iso
