import Filefacts.Bytes

set_option autoImplicit false

namespace Filefacts.Scpt

-- Text is kept as its UTF-8 octets.
abbrev Text := List UInt8

inductive Value where
  | vector (tag : Option UInt8) (items : List Nat)
  | bytes (tag : Option UInt8) (data : List UInt8)
  | int (number : Int)
  | bool (value : Bool)
  | name (text : Text)
  | event (text : Text)
  | constant (code : Nat)
  | unknown
  deriving DecidableEq, Repr

structure Node where
  offset : Nat
  value : Value
  deriving DecidableEq, Repr

-- An arena; the items of a vector are indices into it.
structure Parsed where
  nodes : List Node
  root : Nat
  version : Text
  truncated : Option String
  deriving DecidableEq, Repr

open Filefacts.Bytes (ascii encodePoint fromUtf8 hexByte)

def maxInput : Nat := 64 * 1024 * 1024
def maxData : Nat := 32 * 1024 * 1024
def maxObjects : Nat := 262144
def maxEdges : Nat := 1048576
def maxDepth : Nat := 65536

structure Pending where
  node : Nat
  refs : Nat
  count : Nat
  next : Nat
  deriving DecidableEq, Repr

-- The reference table has the registered slots, the latest first; the top of the pending vectors is the head of the list.
structure Parser where
  bytes : List UInt8
  pos : Nat
  nodes : List Node
  refs : List (Nat × Nat)
  pending : List Pending
  data : Nat
  edges : Nat
  deriving DecidableEq, Repr

inductive ParseError where
  | budget (offset : Nat) (limit : String)
  | malformed (offset : Nat) (reason : String)
  deriving DecidableEq, Repr

def hex (number : Nat) : String := "0x" ++ String.ofList (Nat.toDigits 16 number)

def ParseError.text : ParseError → String
  | .budget offset limit => s!"FAS at {hex offset}: {limit} limit exceeded"
  | .malformed offset reason => s!"FAS at {hex offset}: {reason}"

-- A failed read leaves what was built.
structure Stopped where
  error : ParseError
  parser : Parser
  deriving DecidableEq, Repr

def Parser.error (p : Parser) (reason : String) : Stopped := ⟨.malformed p.pos reason, p⟩

def Parser.pastLimit (p : Parser) (limit : String) : Stopped := ⟨.budget p.pos limit, p⟩

def Parser.past (p : Parser) (size : Nat) : Parser := { p with pos := p.pos + size }

def Parser.take (p : Parser) (size : Nat) : Except Stopped (List UInt8 × Parser) :=
  if (Bytes.checkedAdd p.pos size).isNone then .error (p.error "size overflow")
  else
    match Bytes.arrayAt p.bytes size p.pos with
    | some octets => .ok (octets, p.past size)
    | none => .error (p.error "truncated input")

def Parser.array (p : Parser) (size : Nat) : Except Stopped (List UInt8 × Parser) :=
  match Bytes.arrayAt p.bytes size p.pos with
  | some octets => .ok (octets, p.past size)
  | none => .error (p.error "truncated input")

def Parser.number (p : Parser) (width : Nat) : Except Stopped (Nat × Parser) := do
  let (octets, p) ← p.array width
  return (BigEndian.value octets, p)

def Parser.u8 (p : Parser) : Except Stopped (Nat × Parser) := p.number 1
def Parser.u16 (p : Parser) : Except Stopped (Nat × Parser) := p.number 2
def Parser.u32 (p : Parser) : Except Stopped (Nat × Parser) := p.number 4
def Parser.u64 (p : Parser) : Except Stopped (Nat × Parser) := p.number 8

def signed (bits number : Nat) : Int := if number < 2 ^ (bits - 1) then number else (number : Int) - 2 ^ bits

def isDigit (b : UInt8) : Bool := 48 ≤ b && b ≤ 57

def isVersion (word : List UInt8) : Bool :=
  match word with
  | [major, dot, minor, patch] => isDigit major && dot = 46 && isDigit minor && isDigit patch
  | _ => false

def Parser.versionWord (p : Parser) : Except Stopped (List UInt8 × Parser) := do
  let (word, p) ← p.array 4
  if isVersion word then return (word, p) else .error (p.error "malformed version word")

-- Words of one length compare as the numbers they are.
def atLeast (word other : List UInt8) : Bool := BigEndian.value other ≤ BigEndian.value word

def magic : List UInt8 := [0x46, 0x61, 0x73, 0x64, 0x55, 0x41, 0x53, 0x20]
def version097 : List UInt8 := [48, 46, 57, 55]
def version110 : List UInt8 := [49, 46, 49, 48]
def version111 : List UInt8 := [49, 46, 49, 49]

def Parser.shebang (p : Parser) : Except Stopped (Unit × Parser) :=
  if p.bytes.take 2 = [0x23, 0x21] then
    match p.bytes.findIdx? (· == 10) with
    | some newline => .ok ((), { p with pos := newline + 1 })
    | none => .error (p.error "unterminated shebang")
  else .ok ((), p)

def Parser.header (p : Parser) : Except Stopped (Text × Parser) := do
  let ((), p) ← p.shebang
  let (found, p) ← p.array 8
  if found ≠ magic then .error (p.error "expected FasdUAS magic")
  else do
    let (outer, p) ← p.versionWord
    let (effective, p) ← if atLeast outer version110 then p.versionWord else .ok (outer, p)
    if atLeast version097 effective || atLeast effective version111 then .error (p.error "unsupported effective version")
    else return (effective, p)

def Parser.add (p : Parser) (offset : Nat) (value : Value) : Except Stopped (Nat × Parser) :=
  if maxObjects ≤ p.nodes.length then .error (p.pastLimit "object")
  else .ok (p.nodes.length, { p with nodes := p.nodes ++ [⟨offset, value⟩] })

def Parser.chargeData (p : Parser) (size : Nat) : Except Stopped (Unit × Parser) :=
  if maxData - p.data < size then .error (p.pastLimit "owned data") else .ok ((), { p with data := p.data + size })

def Parser.payload (p : Parser) (tag : Option UInt8) (size : Nat) : Except Stopped (Node × Parser) := do
  let offset := p.pos
  let (octets, p) ← p.take size
  let ((), p) ← p.chargeData size
  return (⟨offset, .bytes tag octets⟩, p)

def Parser.assign (p : Parser) (node : Nat) (value : Value) : Parser :=
  { p with nodes := p.nodes.modify node fun entry => { entry with value := value } }

def Parser.replace (p : Parser) (node : Nat) (entry : Node) : Parser := { p with nodes := p.nodes.set node entry }

def Parser.addAll (p : Parser) (offset : Nat) : List Value → Except Stopped (List Nat × Parser)
  | [] => .ok ([], p)
  | value :: rest => do
      let (id, p) ← p.add offset value
      let (ids, p) ← p.addAll offset rest
      return (id :: ids, p)

def Parser.vector (p : Parser) (node : Nat) (tag : Option UInt8) (count : Nat) (metadata : List Nat) : Except Stopped (Unit × Parser) :=
  match Bytes.checkedAdd count metadata.length with
  | none => .error (p.error "edge overflow")
  | some total =>
      if maxEdges - p.edges < total then .error (p.pastLimit "edge")
      else if count ≠ 0 ∧ maxDepth ≤ p.pending.length then .error (p.pastLimit "nesting")
      else
        match Bytes.checkedMul count 2 with
        | none => .error (p.error "reference size overflow")
        | some size => do
            let refs := p.pos
            let (_, p) ← p.take size
            let p := { p with edges := p.edges + total }
            match p.nodes[node]? with
            | none => .error (p.error "vector node out of range")
            | some entry => do
                let (items, p) ← p.addAll entry.offset (metadata.map fun (value : Nat) => Value.int value)
                let p := p.assign node (.vector tag items)
                return ((), if count = 0 then p else { p with pending := ⟨node, refs, count, 0⟩ :: p.pending })

-- UTF-8 stays as it is; otherwise each octet is taken for a character.
def nameText (spelling : List UInt8) : Text :=
  (fromUtf8 spelling).getD (spelling.flatMap fun b => encodePoint b.toNat)

def nameCapacity (spelling : List UInt8) : Nat :=
  if (fromUtf8 spelling).isSome then spelling.length else spelling.length * 2

def Parser.name (p : Parser) : Except Stopped (Text × Parser) := do
  let (tag, p) ← p.u8
  if tag ≠ 48 then .error (p.error "user identifier tag must be 48")
  else do
    let (length, p) ← p.u16
    if 256 ≤ length then .error (p.error "user identifier length exceeds 255")
    else do
      let (first, p) ← p.take length
      let (length, p) ← p.u16
      if 256 ≤ length then .error (p.error "user identifier length exceeds 255")
      else do
        let (second, p) ← p.take length
        let spelling := if second = [] then first else second
        let ((), p) ← p.chargeData (nameCapacity spelling)
        return (nameText spelling, p)

def eventOctet (b : UInt8) : Text :=
  if 32 ≤ b ∧ b ≤ 126 ∧ b ≠ 46 ∧ b ≠ 92 then [b] else ascii "\\x" ++ ascii (hexByte b.toNat)

def eventText (octets : List UInt8) : Text :=
  (octets.take 4).flatMap eventOctet ++ [46] ++ ((octets.drop 4).take 4).flatMap eventOctet

def eventCapacity : Nat := 8 * 4 + 1

def Parser.codeId (p : Parser) (size : Nat) : Except Stopped (Value × Parser) := do
  let (tag, p) ← p.u8
  if tag = 11 ∧ size = 8 then do
    let (code, p) ← p.u64
    return (.constant code, p)
  else if (tag = 10 ∨ tag = 47) ∧ size = 4 then do
    let (code, p) ← p.u32
    return (.constant code, p)
  else if tag = 46 ∧ size = 24 then do
    let (octets, p) ← p.array 24
    let ((), p) ← p.chargeData eventCapacity
    return (.event (eventText octets), p)
  else if tag = 10 ∨ tag = 11 ∨ tag = 46 ∨ tag = 47 then .error (p.error "invalid code identifier size")
  else .error (p.error "unsupported code identifier tag")

def Parser.register (p : Parser) (reference : Int) (node : Nat) : Parser :=
  if 0 ≤ reference then { p with refs := (reference.toNat, node) :: p.refs } else p

-- A record whose value is known at once.
def Parser.scalar (p : Parser) (node : Nat) (value : Value) : Except Stopped (Nat × Parser) := .ok (node, p.assign node value)

def Parser.collection (p : Parser) (node : Nat) (tag : Option UInt8) (count : Nat) (metadata : List Nat) :
    Except Stopped (Nat × Parser) := do
  let ((), p) ← p.vector node tag count metadata
  return (node, p)

def Parser.string (p : Parser) (node : Nat) : Except Stopped (Nat × Parser) := do
  let ((), p) ← p.vector node (some 0xB1) 0 [0, 0]
  let (length, p) ← p.u16
  let (text, p) ← p.payload (some 0xB1) length
  let (length, p) ← p.u16
  let (style, p) ← p.payload none length
  match p.nodes[node]?.map Node.value with
  | some (.vector _ [a, b]) => return (node, (p.replace a text).replace b style)
  | _ => return (node, p)

def Parser.dataRecord (p : Parser) (node kind size : Nat) : Except Stopped (Nat × Parser) := do
  let (tag, p) ← if kind = 15 ∨ kind = 18 then (do
      let (tag, p) ← p.u8
      return (some (UInt8.ofNat tag), p)) else .ok (none, p)
  let (size, p) ← if kind = 18 ∨ kind = 19 then p.u32 else .ok (size, p)
  if kind = 15 ∧ tag = some 8 ∧ size < 94 then .error (p.error "application descriptor shorter than 94 bytes")
  else do
    let (entry, p) ← p.payload tag size
    return (node, p.replace node entry)

def Parser.body (p : Parser) (offset node kind size : Nat) : Except Stopped (Nat × Parser) :=
  match kind with
  | 1 =>
      if size = 0 then p.scalar node .unknown
      else do
        let (code, p) ← p.u64
        p.scalar node (.constant code)
  | 2 =>
      if size = 0 then p.collection node none 0 []
      else if size = 2 then p.collection node none size []
      else .error (p.error "invalid list or binding size")
  | 3 => p.scalar node (.int (signed 16 size))
  | 4 => do
      let (tag, p) ← p.u8
      p.collection node (some (UInt8.ofNat tag)) size []
  | 6 =>
      if size = 0 ∨ size = 1 then p.collection node none 0 []
      else if size = 3 then p.collection node none size []
      else .error (p.error "invalid list or binding size")
  | 7 =>
      if size = 4 then do
        let (number, p) ← p.u32
        p.scalar node (.int (signed 32 number))
      else .error (p.error "invalid integer or float size")
  | 8 =>
      if size = 8 then do
        let (entry, p) ← p.payload none size
        return (node, p.replace node entry)
      else .error (p.error "invalid integer or float size")
  | 9 => p.scalar node (.bool (size != 0))
  | 10 => do
      let (value, p) ← p.codeId size
      p.scalar node value
  | 11 => do
      let (text, p) ← p.name
      p.scalar node (.name text)
  | 12 => p.string node
  | 13 => do
      let (tag, p) ← p.u8
      let (info, p) ← p.u16
      let (start, p) ← p.u16
      let (stop, p) ← p.u16
      p.collection node (some (UInt8.ofNat tag)) size [info, start, stop]
  | 14 => do
      let (tag, p) ← p.u8
      p.collection node (some (UInt8.ofNat tag)) size []
  | 15 => p.dataRecord node kind size
  | 16 => p.collection node none size []
  | 17 => p.dataRecord node kind size
  | 18 => p.dataRecord node kind size
  | 19 => p.dataRecord node kind size
  | _ => .error ⟨.malformed offset s!"unknown record kind {kind}", p⟩

def Parser.object (p : Parser) (expected : Int) : Except Stopped (Nat × Parser) := do
  let offset := p.pos
  let (kind, p) ← p.u8
  let (reference, p) ← p.u16
  let (size, p) ← p.u16
  let reference := signed 16 reference
  if reference ≠ expected then
    .error ⟨.malformed offset s!"reference mismatch: expected {expected}, found {reference}", p⟩
  else do
    let (node, p) ← p.add offset .unknown
    (p.register reference node).body offset node kind size

def Value.push (value : Value) (child : Nat) : Value :=
  match value with
  | .vector tag items => .vector tag (items ++ [child])
  | other => other

def Parser.attach (p : Parser) (parent child : Nat) : Parser :=
  { p with nodes := p.nodes.modify parent fun entry => { entry with value := entry.value.push child } }

-- The references of the pending vectors, the topmost first. A round ends a vector or takes one reference of it.
def Parser.walk : Nat → Parser → Except ParseError (Parser × Option String)
  | 0, p => .error (.budget p.pos "round")
  | fuel + 1, p =>
      match p.pending with
      | [] => .ok (p, none)
      | frame :: below =>
          if frame.next = frame.count then Parser.walk fuel { p with pending := below }
          else
            let p := { p with pending := { frame with next := frame.next + 1 } :: below }
            match Bytes.arrayAt p.bytes 2 (frame.refs + frame.next * 2) with
            | none => .error (p.error "truncated reference").error
            | some word =>
                let id := signed 16 (BigEndian.value word)
                match if 0 ≤ id then p.refs.lookup id.toNat else none with
                | some child => Parser.walk fuel (p.attach frame.node child)
                | none =>
                    match p.object id with
                    | .ok (child, p) => Parser.walk fuel (p.attach frame.node child)
                    | .error ⟨.budget offset limit, p⟩ => .ok (p, some (ParseError.budget offset limit).text)
                    | .error ⟨error, _⟩ => .error error

def Stopped.raise {α : Type} (read : Except Stopped α) : Except ParseError α := read.mapError Stopped.error

-- Every reference is taken once and every vector ended once.
def rounds : Nat := 2 * maxEdges + 1

def parse (bytes : List UInt8) : Except ParseError Parsed :=
  if maxInput < bytes.length then .error (.budget 0 "input")
  else do
    let (version, p) ← Stopped.raise (Parser.header ⟨bytes, 0, [], [], [], 0, 0⟩)
    let (root, p) ← Stopped.raise (p.object 0)
    let (p, truncated) ← p.walk rounds
    return ⟨p.nodes, root, version, truncated⟩

end Filefacts.Scpt
