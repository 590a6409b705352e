import Filefacts.Output.Values

set_option autoImplicit false

namespace Filefacts.Structured

open Filefacts.Output (Text)

inductive ScalarStyle where
  | plain
  | singleQuoted
  | doubleQuoted
  | literal
  | folded
  deriving DecidableEq, Repr

structure Tag where
  handle : Text
  suffix : Text
  deriving DecidableEq, Repr

-- The standard library's f64 and serde_json's text of one, and how a text is
-- quoted in a message.
structure Std (F : Type) where
  parse : Text → Option F
  infinity : F
  negInfinity : F
  nan : F
  isFinite : F → Bool
  isNan : F → Bool
  isPositive : F → Bool
  bits : F → Nat
  number : F → Text
  debug : Text → String

inductive Yaml (F : Type) where
  | null
  | bool (value : Bool)
  | int (value : Int)
  | float (value : F)
  | string (value : Text)
  | sequence (items : List (Yaml F))
  | mapping (entries : List (Yaml F × Yaml F))
  | tagged (tag : Text) (node : Yaml F)

variable {F : Type} (std : Std F)

def stripped (front text : Text) : Option Text := if front.isPrefixOf text then some (text.drop front.length) else none

def unsigned (text : Text) : Text := if text.head?.any (fun c => c = '-' || c = '+') then text.tail else text

def startsSigned (text : Text) : Bool := text.head?.any fun c => c = '+' || c = '-'

def isDigit (c : Char) : Bool := '0' ≤ c && c ≤ '9'

def digitsButNotNumber (value : Text) : Bool :=
  (stripped ['0'] (unsigned value)).any fun rest => !rest.isEmpty && rest.all isDigit

def isNull (value : Text) : Bool := value ∈ ["null", "Null", "NULL", "~"].map String.toList

def parseBool (value : Text) : Option Bool :=
  if value ∈ ["true", "True", "TRUE"].map String.toList then some true
  else if value ∈ ["false", "False", "FALSE"].map String.toList then some false
  else none

def toDigit (radix : Nat) (c : Char) : Option Nat :=
  let digit :=
    if isDigit c then some (c.toNat - 48)
    else if 'a' ≤ c && c ≤ 'z' then some (c.toNat - 87)
    else if 'A' ≤ c && c ≤ 'Z' then some (c.toNat - 55)
    else none
  digit.filter fun digit => decide (digit < radix)

def digitsValue (radix : Nat) (digits : Text) : Option Nat :=
  if digits.isEmpty then none else digits.foldlM (fun n c => (toDigit radix c).map fun digit => n * radix + digit) 0

-- The integer types `from_str_radix` is used at, by whether they have a sign and
-- what they hold.
structure IntType where
  signed : Bool
  least : Int
  greatest : Int

def u64 : IntType := ⟨false, 0, 2 ^ 64 - 1⟩

def i64 : IntType := ⟨true, -2 ^ 63, 2 ^ 63 - 1⟩

def u128 : IntType := ⟨false, 0, 2 ^ 128 - 1⟩

def i128 : IntType := ⟨true, -2 ^ 127, 2 ^ 127 - 1⟩

def IntType.fromStrRadix (type : IntType) (src : Text) (radix : Nat) : Option Int :=
  let value :=
    match src with
    | '+' :: digits => (digitsValue radix digits).map Int.ofNat
    | '-' :: digits => if type.signed then (digitsValue radix digits).map fun n => -(n : Int) else none
    | digits => (digitsValue radix digits).map Int.ofNat
  value.filter fun value => decide (type.least ≤ value ∧ value ≤ type.greatest)

def based (front text : Text) : Option (Text × Nat) :=
  ((stripped (front ++ ['0', 'x']) text).map fun rest => (rest, 16)).or
    (((stripped (front ++ ['0', 'o']) text).map fun rest => (rest, 8)).or
      ((stripped (front ++ ['0', 'b']) text).map fun rest => (rest, 2)))

def parseUnsignedInt (type : IntType) (value : Text) : Option Int :=
  let unpositive := (stripped ['+'] value).getD value
  let decimal := if startsSigned unpositive || digitsButNotNumber value then none else type.fromStrRadix unpositive 10
  (based [] unpositive).elim decimal fun found =>
    if startsSigned found.1 then none else (type.fromStrRadix found.1 found.2).or decimal

def parseNegativeInt (type : IntType) (value : Text) : Option Int :=
  let decimal := if digitsButNotNumber value then none else type.fromStrRadix value 10
  (based ['-'] value).elim decimal fun found => (type.fromStrRadix ('-' :: found.1) found.2).or decimal

-- An integer scalar. One wider than 64 bits stays its text.
def resolveInt (value : Text) : Option (Yaml F) :=
  match parseUnsignedInt u64 value with
  | some int => some (.int int)
  | none =>
      match parseNegativeInt i64 value with
      | some int => some (.int int)
      | none =>
          let digits := unsigned value
          let decimal := !digits.isEmpty && digits.all isDigit && !digitsButNotNumber value
          if (parseUnsignedInt u128 value).isSome || (parseNegativeInt i128 value).isSome || decimal then some (.string value) else none

def parseF64 (value : Text) : Option F :=
  let unpositive := (stripped ['+'] value).getD value
  if (stripped ['+'] value).any startsSigned then none
  else if unpositive ∈ [".inf", ".Inf", ".INF"].map String.toList then some std.infinity
  else if value ∈ ["-.inf", "-.Inf", "-.INF"].map String.toList then some std.negInfinity
  else if value ∈ [".nan", ".NaN", ".NAN"].map String.toList then some std.nan
  else (std.parse unpositive).filter std.isFinite

def resolvePlain (value : Text) : Yaml F :=
  if value.isEmpty || isNull value then .null
  else
    match parseBool value with
    | some b => .bool b
    | none =>
        match resolveInt value with
        | some int => int
        | none => ((if digitsButNotNumber value then none else parseF64 std value).map Yaml.float).getD (.string value)

-- `tag:yaml.org,2002:int` for `!!int`, `!foo` for a local tag.
def fullTag (tag : Tag) : Text := tag.handle ++ tag.suffix

def localTag (tag : Option Tag) : Option Text :=
  tag.bind fun tag => (stripped ['!'] (fullTag tag)).map fun rest => if rest.isEmpty then fullTag tag else rest

def invalid (value : Text) (expected : String) : String := s!"invalid value {std.debug value}, expected {expected}"

-- `tagged` marks a scalar under a local tag, which resolves as untagged.
def resolveScalar (value : Text) (style : ScalarStyle) (tag : Option Tag) (tagged : Bool) : Except String (Yaml F) :=
  match tag.filter fun _ => !tagged with
  | some tag =>
      if fullTag tag = "tag:yaml.org,2002:bool".toList then
        ((parseBool value).map Yaml.bool).elim (.error (invalid std value "a boolean")) .ok
      else if fullTag tag = "tag:yaml.org,2002:int".toList then
        (resolveInt value).elim (.error (invalid std value "an integer")) .ok
      else if fullTag tag = "tag:yaml.org,2002:float".toList then
        ((parseF64 std value).map Yaml.float).elim (.error (invalid std value "a float")) .ok
      else if fullTag tag = "tag:yaml.org,2002:null".toList then
        if isNull value then .ok .null else .error (invalid std value "null")
      else .ok (.string value)
  | none => if style = .plain then .ok (resolvePlain std value) else .ok (.string value)

end Filefacts.Structured

namespace Filefacts.Structured

open Filefacts.Output (Text Json)
open Filefacts.Keyed (put)

variable {F : Type} (std : Std F)

def decimal (n : Nat) : Text := Nat.toDigits 10 n

def decimalInt (i : Int) : Text := if i < 0 then '-' :: decimal i.natAbs else decimal i.natAbs

-- serde_json escapes the quote, the backslash and the control characters.
def escaped (c : Char) : Text :=
  if c = '"' then ['\\', '"']
  else if c = '\\' then ['\\', '\\']
  else if c = '\n' then ['\\', 'n']
  else if c = '\r' then ['\\', 'r']
  else if c = '\t' then ['\\', 't']
  else if c.toNat = 8 then ['\\', 'b']
  else if c.toNat = 12 then ['\\', 'f']
  else if c.toNat < 32 then ['\\', 'u', '0', '0', Nat.digitChar (c.toNat / 16), Nat.digitChar (c.toNat % 16)]
  else [c]

def quoted (text : Text) : Text := ['"'] ++ text.flatMap escaped ++ ['"']

def commas : List Text → Text := [','].intercalate

mutual

def compact : Json → Text
  | .null => "null".toList
  | .bool value => if value then "true".toList else "false".toList
  | .number value => value
  | .string value => quoted value
  | .array items => ['['] ++ commas (compactItems items) ++ [']']
  | .object fields => [Char.ofNat 123] ++ commas (compactFields fields) ++ [Char.ofNat 125]

def compactItems : List Json → List Text
  | [] => []
  | item :: rest => compact item :: compactItems rest

def compactFields : List (Text × Json) → List Text
  | [] => []
  | entry :: rest => compactField entry :: compactFields rest

def compactField : Text × Json → Text
  | (key, value) => quoted key ++ [':'] ++ compact value

end

-- A mapping key that needs no further rendering: its own text, or that of an
-- infinity or a NaN.
def plainSpelling (key : Yaml F) (json : Json) : Text :=
  match key with
  | .string s => s
  | .float f =>
      if std.isNan f then ".nan".toList
      else if !std.isFinite f then if std.isPositive f then ".inf".toList else "-.inf".toList
      else compact json
  | _ => compact json

def Yaml.untagged : Yaml F → Yaml F
  | .tagged _ node => node.untagged
  | node => node

mutual

def yamlToJson : Yaml F → Json
  | .null => .null
  | .bool b => .bool b
  | .int i => if -2 ^ 63 ≤ i ∧ i < 2 ^ 64 then .number (decimalInt i) else .null
  | .float f => if std.isFinite f then .number (std.number f) else .null
  | .string s => .string s
  | .sequence items => .array (itemsToJson items)
  | .mapping entries => .object ((entriesToJson entries).foldl (fun fields entry => put entry.1 entry.2 fields) [])
  | .tagged _ node => yamlToJson node

def itemsToJson : List (Yaml F) → List Json
  | [] => []
  | item :: rest => yamlToJson item :: itemsToJson rest

def entriesToJson : List (Yaml F × Yaml F) → List (Text × Json)
  | [] => []
  | entry :: rest => entryToJson entry :: entriesToJson rest

def entryToJson : Yaml F × Yaml F → Text × Json
  | (key, value) => (plainSpelling std key.untagged (yamlToJson key), yamlToJson value)

end

-- A tag is dropped from a key, as from a value.
def keySpelling (key : Yaml F) : Text := plainSpelling std key.untagged (yamlToJson std key)

def nulJoined : List Text → Text := [Char.ofNat 0].intercalate

mutual

def keyIdentity : Yaml F → Text
  | .null => ['~']
  | .bool b => 'b' :: if b then "true".toList else "false".toList
  | .int i => 'i' :: decimalInt i
  | .float f => if std.isNan f then "fnan".toList else 'f' :: decimal (std.bits f)
  | .string s => 's' :: s
  | .sequence items => ['['] ++ nulJoined (itemIdentities items) ++ [']']
  | .mapping entries => [Char.ofNat 123] ++ nulJoined (entryIdentities entries) ++ [Char.ofNat 125]
  | .tagged tag node => ['!'] ++ tag ++ [Char.ofNat 0] ++ keyIdentity node

def itemIdentities : List (Yaml F) → List Text
  | [] => []
  | item :: rest => keyIdentity item :: itemIdentities rest

def entryIdentities : List (Yaml F × Yaml F) → List Text
  | [] => []
  | entry :: rest => entryIdentity entry :: entryIdentities rest

def entryIdentity : Yaml F × Yaml F → Text
  | (key, value) => keyIdentity key ++ [Char.ofNat 0] ++ keyIdentity value

end

end Filefacts.Structured
