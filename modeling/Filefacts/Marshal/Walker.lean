import Filefacts.Bytes

set_option autoImplicit false

-- CPython's r_object (3.8 to 3.14), as the statement of what a marshal stream says.
namespace Filefacts.Marshal.Loader

-- The codes of one layout stand together; `small` codes have a one-octet size.
inductive TypeCode where
  | null
  | singleton
  | int
  | int64
  | long
  | float
  | binaryFloat
  | complex
  | binaryComplex
  | string
  | unicode (small : Bool)
  | tuple (small : Bool)
  | list
  | dict
  | set (frozen : Bool)
  | slice
  | code
  | ref
deriving DecidableEq

def typeCodes : List (Char × TypeCode) :=
  [('0', .null), ('N', .singleton), ('S', .singleton), ('.', .singleton), ('F', .singleton), ('T', .singleton),
    ('i', .int), ('I', .int64), ('l', .long), ('f', .float), ('g', .binaryFloat), ('x', .complex),
    ('y', .binaryComplex), ('s', .string), ('A', .unicode false), ('a', .unicode false), ('Z', .unicode true),
    ('z', .unicode true), ('t', .unicode false), ('u', .unicode false), (')', .tuple true), ('(', .tuple false),
    ('[', .list), ('{', .dict), ('<', .set false), ('>', .set true), ('c', .code), ('r', .ref)]

-- Slices came with 3.14.
def typeCode (minor kind : Nat) : Option TypeCode :=
  if kind = 58 then (if 14 ≤ minor then some .slice else none)
  else (typeCodes.find? fun entry => entry.1.toNat = kind).map Prod.snd

-- `locals` are varnames, freevars and cellvars, or from 3.11 on localsplusnames and localspluskinds; the qualified
-- name and the exception table are those of 3.11 on.
structure CodeFields where
  words : List Nat
  code : Nat
  constants : Nat
  names : Nat
  locals : List Nat
  filename : Nat
  name : Nat
  qualified : List Nat
  lineTable : Nat
  exceptions : List Nat
deriving DecidableEq

def CodeFields.flags (fields : CodeFields) : Nat := fields.words.getLast?.getD 0

-- An object as it is made. Objects go by the offset of their type code, and a payload is its range of the stream.
inductive Made where
  | plain (type : TypeCode) (start stop : Nat)
  | tuple (items : List Nat)
  | list (items : List Nat)
  | dict (entries : List (Nat × Nat))
  | set (frozen : Bool) (items : List Nat)
  | slice (parts : List Nat)
  | code (fields : CodeFields)
deriving DecidableEq

-- What the constructors behind r_object accept (a float's text, UTF-8, a long's digits, hashable keys, the fields of
-- a code object), given the objects already made. A code object's bytecode must be bytes and its constants a
-- tuple, one that is filled: its items are read when the code object is made.
structure Constructors where
  accepts : List UInt8 → (Nat → Option Made) → Made → Bool
  code_parts : ∀ data heap fields, accepts data heap (.code fields) = true →
    (∃ start stop, heap fields.code = some (.plain .string start stop)) ∧
      ∃ items, heap fields.constants = some (.tuple items)

-- `refs` is the reference table, an object in each slot and whether it has been put there (a reserved slot holds
-- None until then). The rest is written down for the statements: how many objects and references were read and how
-- deep, every back-reference (its offset, its index, its object), the singletons whose type code had the flag,
-- the number of NULLs read other than the plain code where a dict's key would be, and every code object in the
-- order they were made.
structure State where
  pos : Nat
  refs : List (Nat × Bool)
  objects : List (Nat × Made)
  steps : Nat
  deepest : Nat
  references : List (Nat × Nat × Nat)
  singletons : List Nat
  strays : Nat
  codes : List CodeFields
deriving DecidableEq

def State.heap (st : State) (object : Nat) : Option Made := st.objects.lookup object

def start : State := ⟨0, [], [], 0, 0, [], [], 0, []⟩

-- R_REF and r_ref_reserve; r_ref_insert.
def State.refer (st : State) (flag : Bool) (object : Nat) (there : Bool) : State :=
  if flag then { st with refs := st.refs ++ [(object, there)] } else st

def State.insert (st : State) (object : Nat) : State :=
  { st with refs := st.refs.map fun slot => if slot.1 = object then (object, true) else slot }

-- A result: none is an exception, and an object of none is the NULL that r_object returns without one.
abbrev Result (α : Type) := Option (Option α × State)

def Result.andThen {α β : Type} (result : Result α) (next : α → State → Result β) : Result β :=
  match result with
  | none => none
  | some (none, st) => some (none, st)
  | some (some value, st) => next value st

def Result.strict {α : Type} (result : Result α) : Result α :=
  match result with
  | some (some value, st) => some (some value, st)
  | _ => none

def Result.ending {α : Type} (result : Result (List α)) : Result (List α) :=
  match result with
  | some (none, st) => some (some [], st)
  | other => other

def word (data : List UInt8) (pos : Nat) : Option Int :=
  (Bytes.u32le data pos).map fun (number : Nat) => if number < 2 ^ 31 then (number : Int) else (number : Int) - 2 ^ 32

def within (data : List UInt8) (stop : Nat) : Option Nat := if stop ≤ data.length then some stop else none

def size (data : List UInt8) (pos : Nat) (small : Bool) : Option (Nat × Nat) :=
  if small then (Bytes.u8 data pos).map fun count => (count, pos + 1)
  else (word data pos).bind fun number => if number < 0 then none else some (number.toNat, pos + 4)

def floatText (data : List UInt8) (pos : Nat) : Option Nat :=
  (size data pos true).bind fun found => within data (found.2 + found.1)

def payload (data : List UInt8) (pos : Nat) (type : TypeCode) : Option (Nat × Nat) :=
  match type with
  | .singleton => some (pos, pos)
  | .int => (within data (pos + 4)).map (pos, ·)
  | .int64 => (within data (pos + 8)).map (pos, ·)
  | .binaryFloat => (within data (pos + 8)).map (pos, ·)
  | .binaryComplex => (within data (pos + 16)).map (pos, ·)
  | .long => (word data pos).bind fun digits =>
      if digits = -2 ^ 31 then none else (within data (pos + 4 + 2 * digits.natAbs)).map (pos, ·)
  | .float => (floatText data pos).map (pos, ·)
  | .complex => ((floatText data pos).bind (floatText data)).map (pos, ·)
  | .string => (size data pos false).bind fun found => (within data (found.2 + found.1)).map (found.2, ·)
  | .unicode small => (size data pos small).bind fun found => (within data (found.2 + found.1)).map (found.2, ·)
  | _ => none

section
variable (constructors : Constructors) (data : List UInt8)

def make (object : Nat) (made : Made) (st : State) : Result Nat :=
  if constructors.accepts data st.heap made then
    some (some object, { st with objects := (object, made) :: st.objects })
  else none

def objects (child : State → Result Nat) : Nat → State → Result (List Nat)
  | 0, st => some (some [], st)
  | count + 1, st =>
      Result.andThen (child st) fun object st =>
        Result.andThen (objects child count st) fun rest st => some (some (object :: rest), st)

-- A dict ends at a NULL, for its key or for its value. The budget is that of the octets left.
def pairs (child : State → Result Nat) : Nat → State → Result (List (Nat × Nat))
  | 0, _ => none
  | budget + 1, st =>
      if Bytes.u8 data st.pos = some 48 then some (some [], { st with pos := st.pos + 1 })
      else
        Result.ending <|
          Result.andThen (child st) fun key st =>
            Result.andThen (child st) fun value st =>
              Result.andThen (pairs child budget st) fun rest st => some (some ((key, value) :: rest), st)

def words : Nat → Nat → Option (List Nat)
  | 0, _ => some []
  | count + 1, pos =>
      (Bytes.u32le data pos).bind fun number => (words count (pos + 4)).map (number :: ·)

def CodeFields.record (fields : CodeFields) (st : State) : Result CodeFields :=
  some (some fields, { st with codes := st.codes ++ [fields] })

-- The fields behind the constants. The first line stands before the line table.
def codeTail (minor : Nat) (child : State → Result Nat) (header : List Nat) (code constants : Nat) (st : State) :
    Result CodeFields :=
  Result.andThen (child st) fun names st =>
  Result.andThen (objects child (if minor ≤ 10 then 3 else 2) st) fun locals st =>
  Result.andThen (child st) fun filename st =>
  Result.andThen (child st) fun name st =>
  Result.andThen (objects child (if minor ≤ 10 then 0 else 1) st) fun qualified st =>
  (within data (st.pos + 4)).bind fun stop =>
  Result.andThen (child { st with pos := stop }) fun lineTable st =>
  Result.andThen (objects child (if minor ≤ 10 then 0 else 1) st) fun exceptions st =>
    (CodeFields.mk header code constants names locals filename name qualified lineTable exceptions).record st

def codeFields (minor : Nat) (child : State → Result Nat) (st : State) : Result CodeFields :=
  match words data (if minor ≤ 10 then 6 else 5) st.pos with
  | none => none
  | some header =>
      Result.andThen (child { st with pos := st.pos + 4 * header.length }) fun code st =>
        Result.andThen (child st) fun constants st => codeTail data minor child header code constants st

def sized (small : Bool) (child : State → Result Nat) (st : State) : Result (List Nat) :=
  match size data st.pos small with
  | none => none
  | some (count, pos) => Result.strict (objects child count { st with pos := pos })

-- The switch of r_object, behind a type code at `object` that is not NULL. Tuples, lists, dicts and sets take their
-- slot before their items; frozensets, slices and code objects reserve it.
def build (minor : Nat) (child : State → Result Nat) (type : TypeCode) (flag : Bool) (object : Nat) (st : State) :
    Result Nat :=
  match type with
  | .null => none
  | .ref =>
      (size data st.pos false).bind fun found =>
        match st.refs[found.1]? with
        | some (target, true) =>
            some (some target, { st with pos := found.2, references := st.references ++ [(object, found.1, target)] })
        | _ => none
  | .singleton =>
      make constructors data object (.plain type st.pos st.pos)
        (if flag then { st with singletons := st.singletons ++ [object] } else st)
  | .tuple small =>
      Result.andThen (sized data small child (st.refer flag object true)) fun items st =>
        make constructors data object (.tuple items) st
  | .list =>
      Result.andThen (sized data false child (st.refer flag object true)) fun items st =>
        make constructors data object (.list items) st
  | .dict =>
      Result.andThen (pairs data child (data.length - st.pos + 1) (st.refer flag object true)) fun entries st =>
        make constructors data object (.dict entries) st
  | .set frozen =>
      Result.andThen (sized data false child (st.refer flag object (!frozen))) fun items st =>
        make constructors data object (.set frozen items) (st.insert object)
  | .slice =>
      Result.andThen (objects child 3 (st.refer flag object false)) fun parts st =>
        make constructors data object (.slice parts) (st.insert object)
  | .code =>
      Result.andThen (codeFields data minor child (st.refer flag object false)) fun fields st =>
        make constructors data object (.code fields) (st.insert object)
  | _ =>
      (payload data st.pos type).bind fun range =>
        make constructors data object (.plain type range.1 range.2) { st.refer flag object true with pos := range.2 }

-- The levels are those the recursion limit leaves.
def rObject (minor : Nat) : Nat → Nat → State → Result Nat
  | 0, _, _ => none
  | levels + 1, depth, st =>
      (Bytes.u8 data st.pos).bind fun octet =>
        (typeCode minor (octet % 128)).bind fun type =>
          if type = .null then some (none, { st with pos := st.pos + 1, strays := st.strays + 1 })
          else
            build constructors data minor (rObject minor levels (depth + 1)) type (128 ≤ octet) st.pos
              { st with pos := st.pos + 1, steps := st.steps + 1, deepest := max st.deepest depth }

def recursionLimit : Nat := 2000

-- The stream is read as one code object, to its end.
def Loads (minor : Nat) (st : State) : Prop :=
  rObject constructors data minor recursionLimit 0 start = some (some 0, st) ∧ st.pos = data.length ∧
    ∃ fields, st.heap 0 = some (.code fields)

end

end Filefacts.Marshal.Loader

namespace Filefacts.Marshal

def maxBytes : Nat := 8 * 2 ^ 20

def maxObjects : Nat := 100000

def maxDepth : Nat := 64

inductive Value where
  | other
  | bytes (start stop : Nat)
  | text (start stop : Nat)
  | sequence (items : List Nat)
  | code

structure CodeObject where
  flagsAt : Nat
  flags : Nat
  code : Nat
  constants : Nat
  names : Nat
deriving DecidableEq

-- The last two fields are not the source's. They write down, for the statements about runs, at which offset the
-- type code of each arena slot was read, and what slot each back-reference (by its offset) gave.
structure Walker where
  data : List UInt8
  pos : Nat
  minor : Nat
  values : List Value
  refs : List Nat
  steps : Nat
  origins : List Nat
  followed : List (Nat × Nat)

namespace Walker

def remaining (w : Walker) : Nat := w.data.length - w.pos

def take (w : Walker) (size : Nat) : Except String (List UInt8 × Walker) :=
  match Bytes.get w.data w.pos (w.pos + size) with
  | some octets => .ok (octets, { w with pos := w.pos + size })
  | none => .error "truncated marshal value"

def byte (w : Walker) : Except String (Nat × Walker) :=
  match Bytes.u8 w.data w.pos with
  | some octet => .ok (octet, { w with pos := w.pos + 1 })
  | none => .error "truncated marshal value"

def signed (word : Nat) : Int := if word < 2 ^ 31 then word else (word : Int) - 2 ^ 32

def integer (w : Walker) : Except String (Int × Walker) :=
  match Bytes.u32le w.data w.pos with
  | some word => .ok (signed word, { w with pos := w.pos + 4 })
  | none => .error "truncated marshal value"

def length (w : Walker) : Except String (Nat × Walker) := do
  let (number, w) ← w.integer
  if number < 0 then .error "negative marshal length" else .ok (number.toNat, w)

-- The size of an item whose kind has a one-octet size, or not.
def size (w : Walker) (short : Bool) : Except String (Nat × Walker) := if short then w.byte else w.length

end Walker

-- The arms of the match on the kind of a type code, each with the values the arm itself chooses by the kind.
inductive Arm where
  | singleton
  | fixed (size : Nat)
  | long
  | floats (count : Nat)
  | bytes
  | text (short : Bool)
  | tuple (short : Bool)
  | container
  | dict
  | slice
  | code
  | unsupported
deriving DecidableEq

def arm (minor kind : Nat) : Arm :=
  match Char.ofNat kind with
  | 'N' | 'T' | 'F' | 'S' | '.' => .singleton
  | 'i' => .fixed 4
  | 'I' | 'g' => .fixed 8
  | 'y' => .fixed 16
  | 'l' => .long
  | 'f' => .floats 1
  | 'x' => .floats 2
  | 's' => .bytes
  | 'u' | 'a' | 'A' | 't' => .text false
  | 'z' | 'Z' => .text true
  | '(' => .tuple false
  | '[' | '<' | '>' => .container
  | ')' => .tuple true
  | '{' => .dict
  | ':' => if 14 ≤ minor then .slice else .unsupported
  | 'c' => .code
  | _ => .unsupported

section
variable {σ : Type}

def items (child : σ → Walker → Except String (Nat × σ × Walker)) :
    Nat → σ → Walker → Except String (List Nat × σ × Walker)
  | 0, seen, w => .ok ([], seen, w)
  | count + 1, seen, w => do
      let (node, seen, w) ← child seen w
      let (rest, seen, w) ← items child count seen w
      .ok (node :: rest, seen, w)

def sequence (child : σ → Walker → Except String (Nat × σ × Walker)) (count : Nat) (seen : σ) (w : Walker) :
    Except String (Value × σ × Walker) :=
  if count > maxObjects ∨ count > w.remaining then .error "marshal container budget exceeded"
  else do
    let (children, seen, w) ← items child count seen w
    .ok (.sequence children, seen, w)

-- The loop over a dict's entries. Each of them takes octets, so a budget of the octets left is never used up.
def entries (child : σ → Walker → Except String (Nat × σ × Walker)) : Nat → σ → Walker → Except String (Unit × σ × Walker)
  | 0, _, _ => .error "truncated marshal value"
  | budget + 1, seen, w =>
      if Bytes.u8 w.data w.pos = some 48 then .ok ((), seen, w)
      else do
        let (_, seen, w) ← child seen w
        let (_, seen, w) ← child seen w
        entries child budget seen w

def floats : Nat → Walker → Except String Walker
  | 0, w => .ok w
  | count + 1, w => do
      let (size, w) ← w.byte
      let (_, w) ← w.take size
      floats count w

def isBytes (value : Option Value) : Bool :=
  match value with
  | some (.bytes _ _) => true
  | _ => false

def isSequence (value : Option Value) : Bool :=
  match value with
  | some (.sequence _) => true
  | _ => false

def codeRest (onCode : σ → Walker → CodeObject → Except String (σ × Walker))
    (child : σ → Walker → Except String (Nat × σ × Walker)) (flagsAt flags code constants : Nat) (seen : σ) (w : Walker) :
    Except String (Value × σ × Walker) := do
  let (names, seen, w) ← child seen w
  -- co_varnames, co_freevars, co_cellvars; or, from 3.11, co_localsplusnames and co_localspluskinds.
  let (_, seen, w) ← items child (if w.minor ≤ 10 then 3 else 2) seen w
  let (_, seen, w) ← child seen w
  let (_, seen, w) ← child seen w
  let (_, seen, w) ← items child (if 11 ≤ w.minor then 1 else 0) seen w
  let (_, w) ← w.take 4
  let (_, seen, w) ← child seen w
  let (_, seen, w) ← items child (if 11 ≤ w.minor then 1 else 0) seen w
  let (seen, w) ← onCode seen w ⟨flagsAt, flags, code, constants, names⟩
  .ok (.code, seen, w)

def code (onCode : σ → Walker → CodeObject → Except String (σ × Walker))
    (child : σ → Walker → Except String (Nat × σ × Walker)) (seen : σ) (w : Walker) :
    Except String (Value × σ × Walker) := do
  -- 3.8-3.10 carry nlocals; 3.11+ moves it into localsplus.
  let size := if w.minor ≤ 10 then 24 else 20
  let (header, w) ← w.take size
  let flagsAt := w.pos - 4
  match Bytes.u32le header (size - 4) with
  | none => .error "missing code flags"
  | some flags =>
      let (code, seen, w) ← child seen w
      let (constants, seen, w) ← child seen w
      if !isBytes w.values[code]? || !isSequence w.values[constants]? then
        .error "invalid code-object bytecode or constants"
      else codeRest onCode child flagsAt flags code constants seen w

def body (onCode : σ → Walker → CodeObject → Except String (σ × Walker))
    (child : σ → Walker → Except String (Nat × σ × Walker)) (shape : Arm) (seen : σ) (w : Walker) :
    Except String (Value × σ × Walker) :=
  match shape with
  | .singleton => .ok (.other, seen, w)
  | .fixed size => do
      let (_, w) ← w.take size
      .ok (.other, seen, w)
  | .long => do
      let (digits, w) ← w.integer
      let (_, w) ← w.take (digits.natAbs * 2)
      .ok (.other, seen, w)
  | .floats count => do
      let w ← floats count w
      .ok (.other, seen, w)
  | .bytes => do
      let (length, w) ← w.length
      let start := w.pos
      let (_, w) ← w.take length
      .ok (.bytes start w.pos, seen, w)
  | .text short => do
      let (length, w) ← w.size short
      let start := w.pos
      let (_, w) ← w.take length
      .ok (.text start w.pos, seen, w)
  | .tuple short => do
      let (count, w) ← w.size short
      sequence child count seen w
  | .container => do
      let (count, w) ← w.length
      let (_, seen, w) ← sequence child count seen w
      .ok (.other, seen, w)
  | .dict => do
      let (_, seen, w) ← entries child (w.remaining + 1) seen w
      let (_, w) ← w.byte
      .ok (.other, seen, w)
  | .slice => do
      let (_, seen, w) ← items child 3 seen w
      .ok (.other, seen, w)
  | .code => code onCode child seen w
  | .unsupported => .error "unsupported marshal type"

-- The slot a type code opens: the value is put there once it is read, the reference table has it at once.
def opened (w : Walker) (tag : Nat) : Walker :=
  { w with
    pos := w.pos + 1
    values := w.values ++ [.other]
    refs := if 128 ≤ tag then w.refs ++ [w.values.length] else w.refs
    origins := w.origins ++ [w.pos] }

-- The levels are those left: the depth is maxDepth + 1 less the levels, and above maxDepth nothing is read.
def read (onCode : σ → Walker → CodeObject → Except String (σ × Walker)) :
    Nat → σ → Walker → Except String (Nat × σ × Walker)
  | 0, _, _ => .error "marshal nesting or object budget exceeded"
  | levels + 1, seen, w => do
      let w := { w with steps := w.steps + 1 }
      if w.steps > maxObjects then .error "marshal nesting or object budget exceeded"
      else do
        let (tag, next) ← w.byte
        if tag % 128 = 114 then do
          let (index, next) ← next.length
          match next.refs[index]? with
          | none => .error "invalid marshal reference"
          | some slot => .ok (slot, seen, { next with followed := next.followed ++ [(w.pos, slot)] })
        else do
          let node := w.values.length
          let (value, seen, w) ← body onCode (read onCode levels) (arm w.minor (tag % 128)) seen (opened w tag)
          if node < w.values.length then .ok (node, seen, { w with values := w.values.set node value })
          else .error "invalid marshal node"

def walk (onCode : σ → Walker → CodeObject → Except String (σ × Walker)) (seen : σ) (data : List UInt8) (minor : Nat) :
    Except String (σ × Walker) :=
  if data.length > maxBytes then .error "marshal byte budget exceeded"
  else if (Bytes.u8 data 0).map (· % 128) ≠ some 99 then .error "marshal root is not a code object"
  else do
    let (_, seen, w) ← read onCode (maxDepth + 1) seen ⟨data, 0, minor, [], [], 0, [], []⟩
    if w.remaining ≠ 0 then .error "trailing data after marshal code object" else .ok (seen, w)

end

def collect (seen : List CodeObject) (w : Walker) (code : CodeObject) : Except String (List CodeObject × Walker) :=
  .ok (seen ++ [code], w)

end Filefacts.Marshal
