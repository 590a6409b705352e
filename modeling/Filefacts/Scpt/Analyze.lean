import Mathlib.Data.List.Sort
import Filefacts.Scpt.Parser

set_option autoImplicit false

namespace Filefacts.Scpt

open Filefacts.Bytes (ascii encodePoint fromUtf8)

def maxFunctions : Nat := 1024
def maxNodes : Nat := 262144
def maxInstructions : Nat := 262144
def maxArray : Nat := 4096
def maxText : Nat := 16384
def maxStack : Nat := 4096
def maxLocals : Nat := 1024
def maxWork : Nat := 8000000

inductive Argument where
  | string (text : Text)
  | number (number : Int)
  | bool (value : Bool)
  | unknown
  deriving DecidableEq, Repr

-- The flag of a string marks constructed text.
inductive Known where
  | string (text : Text) (constructed : Bool)
  | number (number : Int)
  | bool (value : Bool)
  | constant (code : Nat)
  | array (numbers : List Int)
  | receiver
  | unknown
  deriving DecidableEq, Repr

def Known.argument : Known → Argument
  | .string text _ => .string text
  | .number n => .number n
  | .bool value => .bool value
  | _ => .unknown

def Known.cost : Known → Nat
  | .string text _ => 1 + text.length
  | .array numbers => 1 + numbers.length * 8
  | _ => 1

def vector (parsed : Parsed) (id : Nat) : Option (List Nat) :=
  parsed.nodes[id]?.bind fun node =>
    match node.value with
    | .vector _ items => some items
    | _ => none

def target (parsed : Parsed) (id : Nat) : Option Text :=
  parsed.nodes[id]?.bind fun node =>
    match node.value with
    | .name text => if text.length ≤ maxText then some text else none
    | .event text => if text.length ≤ maxText then some text else none
    | _ => none

-- Big-endian UTF-16 units as code points; none when a surrogate has no partner.
def utf16Points : List UInt8 → Option (List Nat)
  | high :: low :: rest =>
      let unit := high.toNat * 256 + low.toNat
      if unit < 0xD800 ∨ 0xE000 ≤ unit then (utf16Points rest).map fun points => unit :: points
      else
        match rest with
        | high2 :: low2 :: rest =>
            let partner := high2.toNat * 256 + low2.toNat
            if unit < 0xDC00 ∧ 0xDC00 ≤ partner ∧ partner < 0xE000 then
              (utf16Points rest).map fun points => (0x10000 + (unit - 0xD800) * 1024 + (partner - 0xDC00)) :: points
            else none
        | _ => none
  | _ => some []

def unicode (data : List UInt8) : Known :=
  if data.length ≤ maxText ∧ data.length % 2 = 0 then
    match (utf16Points data).map fun points => points.flatMap encodePoint with
    | some text => if text.length ≤ maxText then .string text false else .unknown
    | none => .unknown
  else .unknown

def literal (parsed : Parsed) (id : Nat) : Known :=
  match parsed.nodes[id]? with
  | none => .unknown
  | some node =>
      match node.value with
      | .int number => .number number
      | .bool value => .bool value
      | .constant code => .constant code
      | .bytes (some 0) data =>
          if data.length ≤ maxText ∧ data.all (fun b => b < 128) then
            match fromUtf8 data with
            | some text => .string text false
            | none => .unknown
          else .unknown
      | .vector (some 177) items =>
          if items.length = 1 ∨ items.length = 2 then
            match items.head?.bind fun item => parsed.nodes[item]?.map Node.value with
            | some (.bytes none data) => unicode data
            | _ => .unknown
          else .unknown
      | _ => .unknown

structure Handler where
  name : Text
  offset : Nat
  codeOffset : Nat
  code : List UInt8
  literals : List Nat
  arity : Option Int
  deriving DecidableEq, Repr

-- A handler is a vector tagged 16 of seven items.
def handlerAt (parsed : Parsed) (node : Node) : Option Handler :=
  match node.value with
  | .vector (some 16) [name, _, arity, _, _, literals, code] =>
      (target parsed name).bind fun name =>
        (vector parsed literals).bind fun literals =>
          parsed.nodes[code]?.bind fun codeNode =>
            match codeNode.value with
            | .bytes _ data =>
                let arity := ((vector parsed arity).bind List.head?).bind fun id =>
                  match parsed.nodes[id]?.map Node.value with
                  | some (.int number) => some number
                  | _ => none
                some ⟨name, node.offset, codeNode.offset, data, literals, arity⟩
            | _ => none
  | _ => none

-- The walk of the graph, the top of its stack first. A node is expanded once, so one round for the root and one for each item
-- of a vector are enough.
def handlersFrom (parsed : Parsed) : Nat → List Nat → List Nat → List Handler → List Handler × Bool
  | 0, _, _, found => (found, false)
  | fuel + 1, seen, pending, found =>
      match pending with
      | [] => (found, false)
      | id :: pending =>
          if seen.contains id then handlersFrom parsed fuel seen pending found
          else if maxNodes ≤ seen.length then (found, true)
          else
            let seen := id :: seen
            match parsed.nodes[id]? with
            | none => handlersFrom parsed fuel seen pending found
            | some node =>
                match node.value with
                | .vector _ items =>
                    if maxNodes < pending.length + items.length then (found, true)
                    else
                      let pending := items ++ pending
                      match handlerAt parsed node with
                      | none => handlersFrom parsed fuel seen pending found
                      | some handler =>
                          if maxFunctions ≤ found.length then (found, true)
                          else handlersFrom parsed fuel seen pending (found ++ [handler])
                | _ => handlersFrom parsed fuel seen pending found

def edgeCount (parsed : Parsed) : Nat :=
  (parsed.nodes.map fun node =>
    match node.value with
    | .vector _ items => items.length
    | _ => 0).sum

def handlers (parsed : Parsed) : List Handler × Bool :=
  let (found, limited) := handlersFrom parsed (edgeCount parsed + 2) [] [parsed.root] []
  (found.mergeSort fun a b => a.offset ≤ b.offset, limited)

structure Instruction where
  pc : Nat
  op : Nat
  operand : Nat
  deriving DecidableEq, Repr

def within (op low high : Nat) : Bool := low ≤ op && op ≤ high

def width (op : Nat) : Option Nat :=
  if [9, 10, 12, 18, 20, 23, 27, 28, 29, 43, 75, 87, 89].contains op || within op 93 97 then some 3
  else if [88, 98, 99].contains op then some 5
  else if within op 0 8 || op = 11 || within op 13 15 || op = 22 || op = 25 || within op 30 42 || within op 44 71 ||
      within op 79 86 || within op 90 92 || within op 101 109 || op = 118 || within op 160 239 then some 1
  else none

def isBranch (op : Nat) : Bool := [9, 10, 20, 23, 29, 87, 89].contains op

-- A displacement counts from the first operand byte.
def branchTarget (i : Instruction) : Option Nat :=
  if isBranch i.op then
    let displacement : Int := if i.operand < 0x8000 then i.operand else i.operand - 0x10000
    let target := (i.pc + 1 : Int) + displacement
    if 0 ≤ target then some target.toNat else none
  else none

def addLimit (limitations : List String) (text : String) : List String :=
  if limitations.length < 32 ∧ ¬ limitations.contains text then limitations ++ [text] else limitations

def operandAt (code : List UInt8) (pc size : Nat) : Nat :=
  match Bytes.get code (pc + 1) (pc + 3) with
  | some [high, low] => if 3 ≤ size then high.toNat * 256 + low.toNat else 0
  | _ => 0

structure Sweep where
  decoded : List Instruction
  stop : Nat
  remaining : Nat
  limitation : Option String
  deriving DecidableEq, Repr

-- Instructions in a line, as many as the budget has left.
def sweep (code : List UInt8) (base : Nat) : Nat → Nat → Sweep
  | remaining, pc =>
      match code[pc]? with
      | none => ⟨[], pc, remaining, none⟩
      | some op =>
          match remaining with
          | 0 => ⟨[], pc, 0, some "instruction budget exhausted; handler decoding stopped"⟩
          | remaining + 1 =>
              match width op.toNat with
              | none =>
                  ⟨[], pc, remaining + 1,
                    some s!"unknown/unverified opcode 0x{Bytes.hexByte op.toNat} at byte {Bytes.saturatingAdd base pc}; handler decoding stopped"⟩
              | some size =>
                  if code.length - pc < size then
                    ⟨[], pc, remaining + 1,
                      some s!"truncated opcode 0x{Bytes.hexByte op.toNat} at byte {Bytes.saturatingAdd base pc}; handler decoding stopped"⟩
                  else
                    let rest := sweep code base remaining (pc + size)
                    { rest with decoded := ⟨pc, op.toNat, operandAt code pc size⟩ :: rest.decoded }
termination_by structural remaining => remaining

-- Where a branch goes: to a boundary, past the end of what was decoded, or nowhere good.
inductive Landing where
  | join (pc : Nat)
  | beyond
  | invalid
  deriving DecidableEq, Repr

def landing (code : List UInt8) (boundaries : List Nat) (stop : Nat) (i : Instruction) : Landing :=
  match branchTarget i with
  | none => .invalid
  | some t =>
      if t ≤ code.length ∧ boundaries.contains t then .join t
      else if stop < code.length ∧ stop < t ∧ t ≤ code.length then .beyond
      else .invalid

structure Joins where
  instructions : List Instruction
  joins : List Nat
  limitation : Option String
  deriving DecidableEq, Repr

def collectJoins (code : List UInt8) (base stop : Nat) (boundaries : List Nat) : List Instruction → Joins
  | [] => ⟨[], [], none⟩
  | i :: rest =>
      let after := collectJoins code base stop boundaries rest
      if isBranch i.op then
        match landing code boundaries stop i with
        | .join t => { after with instructions := i :: after.instructions, joins := t :: after.joins }
        | .beyond => { after with instructions := i :: after.instructions }
        | .invalid =>
            ⟨[], [], some s!"invalid branch target at byte {Bytes.saturatingAdd base i.pc}; handler analysis stopped"⟩
      else { after with instructions := i :: after.instructions }

structure Decoded where
  instructions : List Instruction
  joins : List Nat
  remaining : Nat
  limitations : List String
  deriving DecidableEq, Repr

def decode (code : List UInt8) (base remaining : Nat) (limitations : List String) : Decoded :=
  let swept := sweep code base remaining 0
  let boundaries := swept.decoded.map Instruction.pc ++ [swept.stop]
  let joined := collectJoins code base swept.stop boundaries swept.decoded
  let limitations := swept.limitation.elim limitations (addLimit limitations)
  ⟨joined.instructions, joined.joins, swept.remaining, joined.limitation.elim limitations (addLimit limitations)⟩

open Filefacts.Bytes (ascii)

inductive Decoder where
  | subtractArrays
  | addArrays
  | subtractArraysAndScalar
  | subtractScalar
  deriving DecidableEq, Repr

structure DecoderBody where
  body : String
  decoder : Decoder
  arity : Int
  constants : List Nat

def decoderBodies : List DecoderBody :=
  [
    ⟨"e045b24f6a45b34f1700366ba06a0c00016b681c0004a3a0e2a42f1ee32345b34fa22ae4a0e2a42fa1e2a42f1fe5302545b24fa36d20e32345b35b4f59ffd64fa20f0f",
      .subtractArrays, 2, [0x636f626a, 9999, 0x63686120, 0x6b66726d49442020]⟩,
    ⟨"e045b24f6b45b34f1700346ba06a0c00016b681c0004a3a1e2a42f1ee32345b34fa22ae4a0e2a42fa1e2a42f1ee5302545b24fa36b1e45b35b4f59ffd84fa20f0f",
      .addArrays, 2, [0x636f626a, 9999, 0x63686120, 0x6b66726d49442020]⟩,
    ⟨"e045b34f6a45b44f1700356ba06a0c00016b681c0005a0e2a52fa21f45b64fa6a1e2a52f1f45b64fa32ae3a6e4302545b34fa4a61ee52345b45b4f59ffd74fa30f0f",
      .subtractArraysAndScalar, 3, [0x636f626a, 0x63686120, 0x6b66726d49442020, 9999]⟩,
    ⟨"e045b24f1700206ba06a0c00016b681c0003a22ae2a0e3a32fa11fe4302545b25b4f59ffec4fa20f0f",
      .subtractScalar, 2, [0x63686120, 0x636f626a, 0x6b66726d49442020]⟩,
    ⟨"e045b24f1700276ba06a0c00016b681c0003a0e2a32fa1e2a32f1e45b44fa22ae4a4e4302545b25b4f59ffe54fa20f0f",
      .addArrays, 2, [0x63686120, 0x636f626a, 0x6b66726d49442020]⟩
  ]

def hexValue (c : Char) : Nat := if c ≤ '9' then c.toNat - '0'.toNat else c.toNat - 'a'.toNat + 10

def hexNumbers : List Char → List Nat
  | high :: low :: rest => (hexValue high * 16 + hexValue low) :: hexNumbers rest
  | _ => []

def matchesHex (code : List UInt8) (hex : String) : Bool := code.map UInt8.toNat = hexNumbers hex.toList

def recognizeAs (parsed : Parsed) (h : Handler) (body : DecoderBody) : Bool :=
  h.arity = some body.arity && matchesHex h.code body.body && h.literals.length = body.constants.length + 2 &&
    match h.literals with
    | empty :: event :: constantLiterals =>
        literal parsed empty = .string [] false && parsed.nodes[event]?.map Node.value = some (.event (ascii "core.cnte")) &&
          (body.constants.zip constantLiterals).all fun pair =>
            literal parsed pair.2 = if pair.1 = 9999 then .number 9999 else .constant pair.1
    | _ => false

def recognize (parsed : Parsed) (h : Handler) : Option Decoder :=
  (decoderBodies.find? fun body => recognizeAs parsed h body).map DecoderBody.decoder

def checked (number : Int) : Option Int := if -2 ^ 63 ≤ number ∧ number < 2 ^ 63 then some number else none

def decodeNumber (decoder : Decoder) (scalar x y : Int) : Option Int :=
  match decoder with
  | .addArrays => checked (x + y)
  | .subtractArrays => checked (x - y)
  | .subtractArraysAndScalar => (checked (x - scalar)).bind fun n => checked (n - y)
  | .subtractScalar => checked (x - scalar)

def recoverFrom (decoder : Decoder) (scalar : Int) (second : Option (List Int)) : Nat → List Int → Option Text
  | _, [] => some []
  | i, x :: rest =>
      let y := (second.bind fun numbers => numbers[i]?).getD 0
      if 1000000 < x.natAbs ∨ 1000000 < y.natAbs then none
      else
        (decodeNumber decoder scalar x y).bind fun n =>
          if 0 ≤ n ∧ n < 128 then (recoverFrom decoder scalar second (i + 1) rest).map fun text => UInt8.ofNat n.toNat :: text
          else none

def recover (decoder : Decoder) (args : List Known) : Option Text :=
  match args with
  | .array numbers :: _ =>
      if maxArray < numbers.length then none
      else
        let operands : Option (Option (List Int) × Int) :=
          match decoder, args with
          | .subtractScalar, [_, .number n] => some (none, n)
          | .subtractScalar, _ => none
          | .subtractArraysAndScalar, [_, .array second, .number n] => some (some second, n)
          | .subtractArraysAndScalar, _ => none
          | _, [_, .array second] => some (some second, 0)
          | _, _ => none
        operands.bind fun (second, scalar) =>
          if 1000000 < scalar.natAbs ∨ second.any (fun second => second.length ≠ numbers.length) then none
          else recoverFrom decoder scalar second 0 numbers
  | _ => none

-- The top of the stack is the head of the list.
structure State where
  stack : List Known
  locals : List (Nat × Known)
  deriving DecidableEq, Repr

def State.empty : State := ⟨[], []⟩

def State.pop (state : State) : Known × State :=
  match state.stack with
  | [] => (.unknown, state)
  | value :: rest => (value, { state with stack := rest })

def State.count (state : State) (maximum : Nat) : Option Nat × State :=
  let (value, state) := state.pop
  match value with
  | .number n => (if 0 ≤ n ∧ n.toNat ≤ maximum then some n.toNat else none, state)
  | _ => (none, state)

def State.take (state : State) (count : Nat) : Option (List Known) × State :=
  if state.stack.length < count then (none, state)
  else (some (state.stack.take count).reverse, { state with stack := state.stack.drop count })

def State.insert (state : State) (index : Nat) (value : Known) : State :=
  { state with locals := (index, value) :: state.locals.filter fun entry => entry.1 ≠ index }

def arithmetic (op : Nat) (a b : Int) : Option Int :=
  if op = 30 then checked (a + b)
  else if op = 31 then checked (a - b)
  else if op = 32 then checked (a * b)
  else if op = 34 then if b = 0 then none else checked (a.tdiv b)
  else if op = 35 then if b = 0 ∨ (checked (a.tdiv b)).isNone then none else some (a.tmod b)
  else none

def calculate (op : Nat) (left right : Known) : Known :=
  match left, right with
  | .string a _, .string b _ => if op = 37 ∧ a.length + b.length ≤ maxText then .string (a ++ b) true else .unknown
  | .number a, .number b => (arithmetic op a b).elim .unknown .number
  | _, _ => .unknown

def negate (op : Nat) (value : Known) : Known :=
  match value with
  | .bool b => if op = 11 then .bool !b else .unknown
  | .number n => if op = 39 then (checked (-n)).elim .unknown .number else .unknown
  | _ => .unknown

inductive Kind where
  | literal
  | load
  | store
  | global
  | setGlobal
  | bool (value : Bool)
  | undefined
  | small
  | me
  | it
  | dereference
  | discard
  | duplicate
  | storeResult
  | pushResult
  | makeVector
  | binary
  | unary
  | call
  | tell
  | endTell
  | control
  | unmodelled
  deriving DecidableEq, Repr

def kindOf (op : Nat) : Kind :=
  if within op 224 239 || op = 97 then .literal
  else if within op 160 175 || op = 93 then .load
  else if within op 176 191 || op = 94 then .store
  else if within op 192 207 || op = 95 || op = 98 then .global
  else if within op 208 223 || op = 96 || op = 99 then .setGlobal
  else if op = 101 then .bool true
  else if op = 102 then .bool false
  else if op = 103 || op = 104 then .undefined
  else if within op 105 109 then .small
  else if op = 41 then .me
  else if op = 42 then .it
  else if op = 40 || op = 69 then .dereference
  else if op = 90 then .discard
  else if op = 91 then .duplicate
  else if op = 79 then .storeResult
  else if op = 80 then .pushResult
  else if op = 118 then .makeVector
  else if within op 0 8 || within op 30 38 then .binary
  else if op = 11 || op = 39 then .unary
  else if op = 12 || op = 43 then .call
  else if op = 18 then .tell
  else if op = 85 then .endTell
  else if [9, 10, 15, 20, 22, 23, 25, 27, 28, 29, 87, 88, 89].contains op then .control
  else .unmodelled

-- The index of a literal or a local: in the operand of the wide form, else in the opcode.
def indexOf (i : Instruction) : Nat := if within i.op 93 97 then i.operand else i.op % 16

structure Call where
  target : Text
  offset : Nat
  args : List Argument
  deriving DecidableEq, Repr

structure Recovered where
  text : Text
  offset : Nat
  deriving DecidableEq, Repr

structure Walk where
  state : State
  tellDepth : Nat
  work : Nat
  calls : List Call
  decoded : List Recovered
  limitations : List String
  deriving DecidableEq, Repr

def Walk.limit (walk : Walk) (text : String) : Walk := { walk with limitations := addLimit walk.limitations text }

def Walk.clear (walk : Walk) : Walk := { walk with state := .empty }

def Walk.recovered (walk : Walk) (text : Text) (offset : Nat) : Walk :=
  { walk with work := walk.work - text.length, decoded := walk.decoded ++ [⟨text, offset⟩] }

inductive Outcome where
  | push (value : Known) (walk : Walk)
  | plain (walk : Walk)
  | stop (walk : Walk)

-- The handler under analysis, with the decoders found by their names.
structure Context where
  parsed : Parsed
  handler : Handler
  decoders : List (Text × Decoder)

def Context.literalAt (ctx : Context) (index : Nat) : Known :=
  ((ctx.handler.literals[index]?).map fun id => literal ctx.parsed id).getD .unknown

def Context.nameAt (ctx : Context) (index : Nat) : Option Text :=
  ctx.handler.literals[index]?.bind fun id => target ctx.parsed id

def workExhausted : String := "constant recovery work budget exhausted"

def Known.asNumber : Known → Option Int
  | .number n => some n
  | _ => none

def makeVector (walk : Walk) : Outcome :=
  let (count, state) := walk.state.count maxArray
  let cleared : Outcome := .push .unknown walk.clear
  match count with
  | none => cleared
  | some count =>
      match state.take count with
      | (none, _) => cleared
      | (some values, state) =>
          match values.mapM Known.asNumber with
          | some numbers => .push (.array numbers) { walk with state := state }
          | none => cleared

def binary (walk : Walk) (op offset : Nat) : Outcome :=
  let (right, state) := walk.state.pop
  let (left, state) := state.pop
  let walk := { walk with state := state }
  let value := calculate op left right
  match value with
  | .string text true =>
      if op = 37 then
        if walk.work < text.length then .stop (walk.limit workExhausted) else .push value (walk.recovered text offset)
      else .push value walk
  | _ => .push value walk

def oddItems {α : Type} : List α → List α
  | _ :: value :: rest => value :: oddItems rest
  | _ => []

def evenItems {α : Type} : List α → List α
  | keyword :: _ :: rest => keyword :: evenItems rest
  | _ => []

def Known.isConstant : Known → Bool
  | .constant _ => true
  | _ => false

def callArguments (op : Nat) (state : State) : Option (List Known) × Known × State :=
  if op = 43 then
    let (count, state) := state.count 64
    match count with
    | none => (none, .unknown, state)
    | some count =>
        let (arguments, state) := state.take count
        let (receiving, state) := state.pop
        (arguments, receiving, state)
  else
    let (count, state) := state.count 128
    match count with
    | none => (none, .unknown, state)
    | some count =>
        if count % 2 ≠ 0 then (none, .unknown, state)
        else
          match state.take count with
          | (none, state) => (none, .unknown, state)
          | (some named, state) =>
              let (direct, state) := state.pop
              if (evenItems named).all Known.isConstant then (some (direct :: oddItems named), .unknown, state)
              else (none, .unknown, state)

def recoverArguments (offset : Nat) : List Known → Walk → Walk
  | [], walk => walk
  | value :: rest, walk =>
      match value with
      | .string text true =>
          recoverArguments offset rest
            (if text.length ≤ walk.work then walk.recovered text offset else walk.limit workExhausted)
      | _ => recoverArguments offset rest walk

def recordCall (ctx : Context) (i : Instruction) (offset : Nat) (arguments : Option (List Known)) (walk : Walk) : Walk :=
  let name := ctx.nameAt i.operand
  let walk := arguments.elim walk fun arguments => recoverArguments offset arguments walk
  let made : Call :=
    ⟨name.getD (ascii s!"<literal:{i.operand}>"), offset, arguments.elim [.unknown] fun values => values.map Known.argument⟩
  let walk := { walk with calls := walk.calls ++ [made] }
  if name.isNone then walk.limit "call literal is missing or is not a name/event" else walk

def call (ctx : Context) (i : Instruction) (offset : Nat) (walk : Walk) : Outcome :=
  let (arguments, receiving, state) := callArguments i.op walk.state
  let walk := recordCall ctx i offset arguments { walk with state := state }
  let decoder :=
    if i.op = 43 ∧ receiving = .receiver then (ctx.nameAt i.operand).bind fun name => ctx.decoders.lookup name else none
  match decoder.bind fun decoder => arguments.bind fun arguments => recover decoder arguments with
  | some text =>
      if walk.work < text.length then .stop (walk.limit workExhausted)
      else .push (.string text true) (walk.recovered text offset)
  | none =>
      let walk := if decoder.isSome then walk.limit "verified decoder arguments unknown, out of bounds, or non-ASCII" else walk
      .push .unknown (walk.clear.limit "unmodeled calls clear propagated constants; return values unknown")

def effect (ctx : Context) (i : Instruction) (offset : Nat) (walk : Walk) : Outcome :=
  match kindOf i.op with
  | .literal => .push (ctx.literalAt (indexOf i)) walk
  | .load => .push ((walk.state.locals.lookup (indexOf i)).getD .unknown) walk
  | .store =>
      let (value, state) := walk.state.pop
      if indexOf i < maxLocals then .plain { walk with state := state.insert (indexOf i) value }
      else .plain ({ walk with state := state }.limit "local-variable index exceeds recovery limit")
  | .global | .undefined | .pushResult => .push .unknown walk
  | .setGlobal => .plain (walk.clear.limit "global/parent assignment clears propagated constants")
  | .bool value => .push (.bool value) walk
  | .small => .push (.number ((i.op : Int) - 106)) walk
  | .me => .push .receiver walk
  | .it => .push (if walk.tellDepth = 0 then .receiver else .unknown) walk
  | .dereference => .plain walk
  | .discard | .storeResult => .plain { walk with state := walk.state.pop.2 }
  | .duplicate => .push (walk.state.stack.head?.getD .unknown) walk
  | .makeVector => makeVector walk
  | .binary => binary walk i.op offset
  | .unary =>
      let (value, state) := walk.state.pop
      .push (negate i.op value) { walk with state := state }
  | .call => call ctx i offset walk
  | .tell => .plain ({ walk.clear with tellDepth := walk.tellDepth + 1 }.limit "tell context clears propagated constants")
  | .endTell => .plain { walk.clear with tellDepth := walk.tellDepth - 1 }
  | .control =>
      .plain (walk.clear.limit "control-flow boundaries clear propagated constants; paths are not executed")
  | .unmodelled => .plain (walk.clear.limit "unmodeled instruction semantics clear propagated constants")

def pushed (value : Known) (walk : Walk) : Walk × Bool :=
  if maxStack ≤ walk.state.stack.length ∨ walk.work < value.cost then
    (walk.limit "stack or constant recovery work budget exhausted", false)
  else
    ({ walk with work := walk.work - value.cost, state := { walk.state with stack := value :: walk.state.stack } }, true)

structure Visit where
  instruction : Instruction
  state : State
  tellDepth : Nat
  deriving DecidableEq, Repr

def enter (joins : List Nat) (i : Instruction) (walk : Walk) : Walk :=
  let walk := { walk with work := walk.work - 1 }
  if joins.contains i.pc then walk.clear else walk

def analyzeInstruction (ctx : Context) (i : Instruction) (walk : Walk) : Walk × Bool :=
  match effect ctx i (ctx.handler.codeOffset + i.pc) walk with
  | .push value walk => pushed value walk
  | .plain walk => (walk, true)
  | .stop walk => (walk, false)

def analyzeFrom (ctx : Context) (joins : List Nat) : List Instruction → Walk → List Visit × Walk
  | [], walk => ([], walk)
  | i :: rest, walk =>
      if walk.work = 0 then ([], walk.limit workExhausted)
      else
        let entered := enter joins i walk
        let visit := ⟨i, entered.state, entered.tellDepth⟩
        match analyzeInstruction ctx i entered with
        | (walk, true) =>
            let (visits, walk) := analyzeFrom ctx joins rest walk
            (visit :: visits, walk)
        | (walk, false) => ([visit], walk)

structure Function where
  name : Text
  offset : Nat
  calls : List Call
  decoded : List Recovered
  limitations : List String
  deriving DecidableEq, Repr

-- The analysis of one handler under the budgets left, with the instructions it analysed and the budgets it leaves.
structure Analyzed where
  function : Function
  visits : List Visit
  remaining : Nat
  work : Nat
  deriving DecidableEq, Repr

def analyzeHandler (ctx : Context) (graphLimited : Bool) (remaining work : Nat) : Analyzed :=
  let h := ctx.handler
  let limitations := if graphLimited then ["handler graph limit reached; decoder resolution disabled"] else []
  if 2 ^ 64 ≤ h.codeOffset + h.code.length then
    ⟨⟨h.name, h.offset, [], [], addLimit limitations "bytecode source offset overflow"⟩, [], remaining, work⟩
  else
    let decoded := decode h.code h.codeOffset remaining limitations
    let (visits, walk) := analyzeFrom ctx decoded.joins decoded.instructions ⟨.empty, 0, work, [], [], decoded.limitations⟩
    ⟨⟨h.name, h.offset, walk.calls, walk.decoded, walk.limitations⟩, visits, decoded.remaining, walk.work⟩

def decodersOf (parsed : Parsed) (found : List Handler) : List (Text × Decoder) :=
  found.filterMap fun h =>
    if (found.filter fun other => other.name = h.name).length = 1 then (recognize parsed h).map fun decoder => (h.name, decoder)
    else none

def analyzeAll (parsed : Parsed) (decoders : List (Text × Decoder)) (graphLimited : Bool) :
    List Handler → Nat → Nat → List Analyzed
  | [], _, _ => []
  | h :: rest, remaining, work =>
      let analyzed := analyzeHandler ⟨parsed, h, decoders⟩ graphLimited remaining work
      analyzed :: analyzeAll parsed decoders graphLimited rest analyzed.remaining analyzed.work

def analyzed (parsed : Parsed) : List Analyzed :=
  let (found, graphLimited) := handlers parsed
  let decoders := if graphLimited then [] else decodersOf parsed found
  analyzeAll parsed decoders graphLimited found maxInstructions maxWork

def analyze (parsed : Parsed) : List Function := (analyzed parsed).map Analyzed.function

end Filefacts.Scpt
