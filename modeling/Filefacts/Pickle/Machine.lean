import Filefacts.Pickle.Opcode

set_option autoImplicit false

namespace Filefacts.Pickle

open Filefacts.Bytes (ascii fromUtf8 isAsciiAlphabetic)

def maxBytesScanned : Nat := 8 * 1024 * 1024

inductive StackValue where
  | text (pushed : Nat) (text : List UInt8)
  | globalRef (module_ attr : List UInt8)
  | other
  | mark
  deriving DecidableEq, Repr

-- A dictionary in insertion order; a key put again keeps its place.
def memoPut {α : Type} (memo : List (Nat × α)) (index : Nat) (value : α) : List (Nat × α) :=
  match memo with
  | [] => [(index, value)]
  | entry :: rest => if entry.1 = index then (index, value) :: rest else entry :: memoPut rest index value

structure PickleStack where
  values : List StackValue
  memo : List (Nat × StackValue)
  resolved : List (Nat × Nat)
  resolvedBytes : Nat
  deriving DecidableEq, Repr

def PickleStack.empty : PickleStack := ⟨[], [], [], 0⟩

def popThroughMark : List StackValue → List StackValue
  | [] => []
  | .mark :: rest => rest
  | _ :: rest => popThroughMark rest

def PickleStack.push (stack : PickleStack) (value : StackValue) : PickleStack := { stack with values := value :: stack.values }

def PickleStack.popN (stack : PickleStack) (count : Nat) : PickleStack := { stack with values := stack.values.drop count }

def PickleStack.popThroughMark (stack : PickleStack) : PickleStack := { stack with values := Pickle.popThroughMark stack.values }

def PickleStack.memoPut (stack : PickleStack) (index : Nat) : PickleStack :=
  match stack.values.head? with
  | none => stack
  | some value => { stack with memo := Pickle.memoPut stack.memo index value }

-- Whether the operands of a STACK_GLOBAL are to be recorded: a pair once, and no more octets than the scan has.
def PickleStack.admitGlobal (stack : PickleStack) (pair : Nat × Nat) (size : Nat) : Bool × PickleStack :=
  if stack.resolved.contains pair then (false, stack)
  else
    let resolvedBytes := Bytes.saturatingAdd stack.resolvedBytes size
    (resolvedBytes ≤ maxBytesScanned, { stack with resolved := pair :: stack.resolved, resolvedBytes := resolvedBytes })

def isPickleIdent (s : List UInt8) : Bool :=
  !s.isEmpty && s.all (fun b => b < 128) &&
    s.all (fun b => isAsciiAlphabetic b || (48 ≤ b && b ≤ 57) || b = 95 || b = 46) &&
    s.head?.any fun b => isAsciiAlphabetic b || b = 95

def unicodeOperand (op : Op) : Option (List UInt8) :=
  match op.code, op.arg with
  | .shortBinunicode, .bytes bytes => fromUtf8 bytes
  | .binunicode, .bytes bytes => fromUtf8 bytes
  | .binunicode8, .bytes bytes => fromUtf8 bytes
  | .unicode, .line bytes => fromUtf8 bytes
  | _, _ => none

def inlineGlobal (op : Op) : Option (List UInt8 × List UInt8) :=
  match op.arg with
  | .lines module_ attr => (fromUtf8 module_).bind fun module_ => (fromUtf8 attr).map fun attr => (module_, attr)
  | _ => none

def parseUsize (text : List UInt8) : Option Nat :=
  let digits := match text with
    | 43 :: rest => rest
    | _ => text
  if digits = [] ∨ ¬ digits.all (fun b => 48 ≤ b && b ≤ 57) then none
  else
    let number := digits.foldl (fun number b => number * 10 + (b.toNat - 48)) 0
    if number < 2 ^ 64 then some number else none

def btreeInsert (text : List UInt8) : List (List UInt8) → List (List UInt8)
  | [] => [text]
  | first :: rest => if text = first then first :: rest else if text < first then text :: first :: rest else first :: btreeInsert text rest

structure Scan where
  protocol : Option Nat
  modules : List (List UInt8)
  globals : List (List UInt8)
  opcodes : List (List UInt8)
  stack : PickleStack
  deriving DecidableEq, Repr

def Scan.start : Scan := ⟨none, [], [], [], .empty⟩

def recordGlobal (module_ attr : List UInt8) (scan : Scan) : Scan :=
  let (module_, attr) := findClass scan.protocol module_ attr
  { scan with
    modules := if module_.isEmpty then scan.modules else btreeInsert module_ scan.modules
    globals :=
      if isPickleIdent module_ && isPickleIdent attr then btreeInsert (module_ ++ ascii "." ++ attr) scan.globals
      else scan.globals }

def Scan.push (scan : Scan) (value : StackValue) : Scan := { scan with stack := scan.stack.push value }

def operandIndex (arg : Arg) : Option Nat :=
  match arg with
  | .int number => some number
  | .line text => parseUsize text
  | _ => none

def stackGlobal (scan : Scan) : Scan :=
  let attr := scan.stack.values.head?.getD .other
  let module_ := (scan.stack.values.drop 1).head?.getD .other
  let scan := { scan with stack := scan.stack.popN 2 }
  match module_, attr with
  | .text moduleAt module_, .text attrAt attr =>
      let (admitted, stack) := scan.stack.admitGlobal (moduleAt, attrAt) (module_.length + attr.length)
      let scan := { scan with stack := stack }
      (if admitted then recordGlobal module_ attr scan else scan).push (.globalRef module_ attr)
  | _, _ => scan.push .other

def applySideEffects (op : Op) (i : Nat) (scan : Scan) : Scan :=
  let stack := scan.stack
  match op.code with
  | .proto =>
      match op.arg with
      | .int number => { scan with protocol := if number < 256 then some number else none }
      | _ => scan
  | .globalRef =>
      match inlineGlobal op with
      | some (module_, attr) => (recordGlobal module_ attr scan).push (.globalRef module_ attr)
      | none => scan.push .other
  | .shortBinunicode | .binunicode | .binunicode8 | .unicode =>
      scan.push ((unicodeOperand op).elim .other fun text => .text i text)
  | .mark => scan.push .mark
  | .pop => { scan with stack := stack.popN 1 }
  | .popMark => { scan with stack := stack.popThroughMark }
  | .dup =>
      match stack.values.head? with
      | some value => scan.push value
      | none => scan
  | .binput | .longBinput | .put =>
      match operandIndex op.arg with
      | some index => { scan with stack := stack.memoPut index }
      | none => scan
  | .memoize => { scan with stack := stack.memoPut stack.memo.length }
  | .binget | .longBinget | .get =>
      scan.push (((operandIndex op.arg).bind fun index => stack.memo.lookup index).getD .other)
  | .stackGlobal => stackGlobal scan
  | .float | .int | .binint | .binint1 | .long | .binint2 | .pushNone | .string | .binstring | .shortBinstring | .binfloat
  | .binbytes | .shortBinbytes | .ext1 | .ext2 | .ext4 | .newtrue | .newfalse | .long1 | .long4 | .binbytes8 | .bytearray8
  | .nextBuffer | .persid => scan.push .other
  | .emptyTuple | .emptyList | .emptyDict | .emptySet => scan.push .other
  | .dict | .list | .tuple | .frozenset => { scan with stack := stack.popThroughMark.push .other }
  | .appends | .setitems | .additems => { scan with stack := stack.popThroughMark }
  | .append => { scan with stack := stack.popN 1 }
  | .setitem => { scan with stack := stack.popN 2 }
  | .tuple1 => { scan with stack := (stack.popN 1).push .other }
  | .tuple2 => { scan with stack := (stack.popN 2).push .other }
  | .tuple3 => { scan with stack := (stack.popN 3).push .other }
  | .reduce | .newobj => { scan with stack := (stack.popN 2).push .other }
  | .newobjEx => { scan with stack := (stack.popN 3).push .other }
  | .build => { scan with stack := stack.popN 1 }
  | .inst =>
      match inlineGlobal op with
      | some (module_, attr) =>
          let scan := recordGlobal module_ attr scan
          { scan with stack := stack.popThroughMark.push .other }
      | none => { scan with stack := stack.popThroughMark.push .other }
  | .obj => { scan with stack := stack.popThroughMark.push .other }
  | .binpersid => { scan with stack := (stack.popN 1).push .other }
  | .stop | .frame | .readonlyBuffer => scan

def isDangerous (name : String) : Bool :=
  ["REDUCE", "BUILD", "INST", "OBJ", "NEWOBJ", "NEWOBJ_EX", "GLOBAL", "STACK_GLOBAL", "PERSID", "BINPERSID", "EXT1", "EXT2",
    "EXT4"].contains name

def legacyMagic : List UInt8 := [0x80, 0x02, 0x8a, 0x0a, 0x6c, 0xfc, 0x9c, 0x46, 0xf9, 0x20, 0x6a, 0xa8, 0x50, 0x19]

def legacyHeader (data : List UInt8) : Bool :=
  match data.dropPrefix? legacyMagic with
  | none => false
  | some rest => [0x2e, 0x80, 0x02, 0x4d, 0xe9, 0x03, 0x2e].isPrefixOf rest

def readOp (op : Op) (i : Nat) (scan : Scan) : Scan :=
  applySideEffects op i { scan with opcodes := btreeInsert (ascii op.code.name) scan.opcodes }

def unsupportedProto (op : Op) : Bool :=
  match op.arg with
  | .int number => op.code = .proto && 5 < number
  | _ => false

def scanFrom (bytes : List UInt8) : Nat → Nat → Nat → Scan → Scan
  | 0, _, _, scan => scan
  | fuel + 1, i, streamsLeft, scan =>
      match decode bytes i with
      | none => scan
      | some (op, after) =>
          if unsupportedProto op then scan
          else
            let scan := readOp op i scan
            if op.code = .stop then
              if streamsLeft - 1 = 0 then scan
              else
                let scan := { scan with stack := .empty }
                if Bytes.get bytes after (after + 2) ≠ some [0x80, 2] then scan else scanFrom bytes fuel after (streamsLeft - 1) scan
            else scanFrom bytes fuel after streamsLeft scan

structure Extracted where
  protocol : Option Nat
  modules : List (List UInt8)
  globals : List (List UInt8)
  opcodes : List (List UInt8)
  dangerousOpcodes : List (List UInt8)
  deriving DecidableEq, Repr

def extract (bytes : List UInt8) : Extracted :=
  if bytes = [] then ⟨none, [], [], [], []⟩
  else
    let bytes := bytes.take maxBytesScanned
    let streamsLeft := if legacyHeader bytes then 5 else 1
    let scan := scanFrom bytes (bytes.length + 1) 0 streamsLeft .start
    let dangerous := (Opcode.all.filter fun op => isDangerous op.name).map fun op => ascii op.name
    ⟨scan.protocol, scan.modules, scan.globals, scan.opcodes,
      (scan.opcodes.filter fun name => dangerous.contains name).map Bytes.toAsciiLowercase⟩

theorem mem_btree_insert (text other : List UInt8) (set : List (List UInt8)) :
    other ∈ btreeInsert text set ↔ other = text ∨ other ∈ set := by
  induction set with
  | nil => simp only [btreeInsert, List.mem_singleton, List.not_mem_nil, or_false]
  | cons first rest ih =>
      simp only [btreeInsert]
      by_cases same : text = first
      · rw [if_pos same, same, List.mem_cons]
        exact ⟨Or.inr, fun either => either.elim Or.inl id⟩
      · rw [if_neg same]
        by_cases less : text < first
        · rw [if_pos less, List.mem_cons]
        · rw [if_neg less, List.mem_cons, ih, List.mem_cons, or_left_comm]

open Filefacts.Bytes (encodePoint fromUtf8)

def continues (b : UInt8) : Bool := 0x80 ≤ b && b ≤ 0xBF

-- Octets that are UTF-8 when surrogates are let through.
def surrogatePass : List UInt8 → Bool
  | [] => true
  | a :: rest =>
      if a < 0x80 then surrogatePass rest
      else
        match rest with
        | [] => false
        | b :: rest =>
            if 0xC2 ≤ a && a ≤ 0xDF && continues b then surrogatePass rest
            else
              match rest with
              | [] => false
              | c :: rest =>
                  if (a = 0xE0 && 0xA0 ≤ b && b ≤ 0xBF || 0xE1 ≤ a && a ≤ 0xEF && continues b) && continues c then
                    surrogatePass rest
                  else
                    match rest with
                    | [] => false
                    | d :: rest =>
                        (a = 0xF0 && 0x90 ≤ b && b ≤ 0xBF || 0xF1 ≤ a && a ≤ 0xF3 && continues b ||
                            a = 0xF4 && 0x80 ≤ b && b ≤ 0x8F) && continues c && continues d && surrogatePass rest

def isAscii (bytes : List UInt8) : Bool := bytes.all fun b => b < 128

def hexDigit (b : UInt8) : Option Nat :=
  if 48 ≤ b && b ≤ 57 then some (b.toNat - 48)
  else if 97 ≤ b && b ≤ 102 then some (b.toNat - 87)
  else if 65 ≤ b && b ≤ 70 then some (b.toNat - 55)
  else none

def hexNumber (digits : List UInt8) : Option Nat :=
  digits.foldlM (fun number b => (hexDigit b).map fun digit => number * 16 + digit) 0

-- The raw-unicode-escape codec: \\uXXXX and \\UXXXXXXXX, every other byte a code point.
def rawUnicodeEscape : List UInt8 → Option (List Nat)
  | [] => some []
  | 92 :: 117 :: a :: b :: c :: d :: rest =>
      (hexNumber [a, b, c, d]).bind fun point => (rawUnicodeEscape rest).map fun points => point :: points
  | 92 :: 85 :: a :: b :: c :: d :: e :: f :: g :: h :: rest =>
      (hexNumber [a, b, c, d, e, f, g, h]).bind fun point =>
        if point < 0x110000 then (rawUnicodeEscape rest).map fun points => point :: points else none
  | 92 :: 117 :: _ => none
  | 92 :: 85 :: _ => none
  | 92 :: b :: rest => (rawUnicodeEscape rest).map fun points => 92 :: b.toNat :: points
  | b :: rest => (rawUnicodeEscape rest).map fun points => b.toNat :: points

def octal (b : UInt8) : Bool := 48 ≤ b && b ≤ 55

def octalByte (digits : List UInt8) : UInt8 := UInt8.ofNat (digits.foldl (fun number b => number * 8 + (b.toNat - 48)) 0)

def simpleEscape (b : UInt8) : Option (List UInt8) :=
  if b = 10 then some []
  else if b = 92 || b = 39 || b = 34 then some [b]
  else if b = 98 then some [8]
  else if b = 102 then some [12]
  else if b = 116 then some [9]
  else if b = 110 then some [10]
  else if b = 114 then some [13]
  else if b = 118 then some [11]
  else if b = 97 then some [7]
  else none

-- The string-escape codec, by rounds; each reads at least one byte.
def escapeDecode : Nat → List UInt8 → Option (List UInt8)
  | 0, _ => none
  | fuel + 1, text =>
      match text with
      | [] => some []
      | 92 :: rest =>
          match rest with
          | [] => none
          | b :: rest =>
              match simpleEscape b with
              | some bytes => (escapeDecode fuel rest).map fun more => bytes ++ more
              | none =>
                  if octal b then
                    let digits := b :: (rest.take 2).takeWhile octal
                    (escapeDecode fuel (rest.drop (digits.length - 1))).map fun more => octalByte digits :: more
                  else if b = 120 then
                    match rest with
                    | high :: low :: rest =>
                        (hexNumber [high, low]).bind fun number =>
                          (escapeDecode fuel rest).map fun more => UInt8.ofNat number :: more
                    | _ => none
                  else (escapeDecode fuel rest).map fun more => 92 :: b :: more
      | b :: rest => (escapeDecode fuel rest).map fun more => b :: more

def unquote (line : List UInt8) : Option (List UInt8) :=
  match line with
  | quote :: rest =>
      if (quote = 39 || quote = 34) && rest.getLast? = some quote then some rest.dropLast else none
  | [] => none

-- The string an opcode pushes, kept as the UTF-8 octets of its code points with a lone surrogate in three octets like any
-- other (one to one); none when its operand does not decode and the unpickler fails.
def decodeString (code : Opcode) (operand : List UInt8) : Option (List UInt8) :=
  match code with
  | .string => ((unquote operand).bind fun text => escapeDecode (text.length + 1) text).filter isAscii
  | .binstring | .shortBinstring => if isAscii operand then some operand else none
  | .unicode => (rawUnicodeEscape operand).map fun points => points.flatMap encodePoint
  | .binunicode | .shortBinunicode | .binunicode8 => if surrogatePass operand then some operand else none
  | _ => none

-- A decimal integer as Python reads it: blanks around it, a sign, digits with single underscores between them.
def isBlank (b : UInt8) : Bool := (9 ≤ b && b ≤ 13) || b = 32

def isDigit (b : UInt8) : Bool := 48 ≤ b && b ≤ 57

def decimalFrom (number : Nat) (afterDigit : Bool) : List UInt8 → Option Nat
  | [] => if afterDigit then some number else none
  | b :: rest =>
      if isDigit b then decimalFrom (number * 10 + (b.toNat - 48)) true rest
      else if b = 95 && afterDigit then decimalFrom number false rest
      else none

-- The memo index on a line; none when it is no integer or a negative one.
def memoIndex (line : List UInt8) : Option Nat :=
  let text := ((line.dropWhile isBlank).reverse.dropWhile isBlank).reverse
  match text with
  | 43 :: digits => decimalFrom 0 false digits
  | 45 :: digits => (decimalFrom 0 false digits).filter (· = 0)
  | digits => decimalFrom 0 false digits

-- The operands as the unpickler reads them: those of the scan, and the line of a PERSID.
def Opcode.layout : Opcode → Layout
  | .persid => .line
  | code => code.operand

-- What an opcode does to the stack. The counts are of values taken before one is pushed, or before a container or an
-- instance that stays.
inductive Effect where
  | proto
  | globalRef
  | inst
  | stackGlobal
  | unicode
  | string
  | push
  | mark
  | pop
  | popMark
  | dup
  | put
  | memoize
  | get
  | collect
  | batch
  | keep (count : Nat)
  | build (count : Nat)
  | readonly
  | nothing
  | stop
  deriving DecidableEq, Repr

def Opcode.effect : Opcode → Effect
  | .proto => .proto
  | .globalRef => .globalRef
  | .inst => .inst
  | .stackGlobal => .stackGlobal
  | .unicode | .binunicode | .shortBinunicode | .binunicode8 => .unicode
  | .string | .binstring | .shortBinstring => .string
  | .float | .int | .binint | .binint1 | .long | .binint2 | .pushNone | .binfloat | .binbytes | .shortBinbytes | .ext1 | .ext2
  | .ext4 | .newtrue | .newfalse | .long1 | .long4 | .binbytes8 | .bytearray8 | .nextBuffer | .persid | .emptyTuple
  | .emptyList | .emptyDict | .emptySet => .push
  | .mark => .mark
  | .pop => .pop
  | .popMark => .popMark
  | .dup => .dup
  | .put | .binput | .longBinput => .put
  | .memoize => .memoize
  | .get | .binget | .longBinget => .get
  | .dict | .list | .tuple | .frozenset | .obj => .collect
  | .appends | .setitems | .additems => .batch
  | .append | .build => .keep 1
  | .setitem => .keep 2
  | .tuple1 | .binpersid => .build 1
  | .tuple2 | .reduce | .newobj => .build 2
  | .tuple3 | .newobjEx => .build 3
  | .readonlyBuffer => .readonly
  | .frame => .nothing
  | .stop => .stop

-- A string remembers the offset, the opcode and the operand of its push; every other object is opaque.
inductive Value where
  | text (pushed : Nat) (code : Opcode) (operand string : List UInt8)
  | other
  deriving DecidableEq, Repr

-- A global resolved, under the names that are imported; for a STACK_GLOBAL also which pushes named it and their size.
structure Import where
  operands : Option (Nat × Nat)
  size : Nat
  module_ : List UInt8
  name : List UInt8
  deriving DecidableEq, Repr

-- The unpickler: the stack above the last mark, the stacks below the marks, the memo, the protocol and the globals resolved
-- so far, the last one first.
structure Machine where
  stack : List Value
  metastack : List (List Value)
  memo : List (Nat × Value)
  proto : Nat
  imports : List Import
  deriving DecidableEq, Repr

def Machine.start : Machine := ⟨[], [], [], 0, []⟩

def Machine.push (machine : Machine) (value : Value) : Machine := { machine with stack := value :: machine.stack }

def Machine.pushOther (machine : Machine) : Machine := machine.push .other

def Machine.popMark (machine : Machine) : Option Machine :=
  match machine.metastack with
  | [] => none
  | below :: rest => some { machine with stack := below, metastack := rest }

-- The module of no name cannot be imported.
def Machine.resolve (machine : Machine) (operands : Option (Nat × Nat)) (module_ name : List UInt8) : Option Machine :=
  let found := findClass (some machine.proto) module_ name
  if found.1 = [] then none
  else some { machine with imports := ⟨operands, module_.length + name.length, found.1, found.2⟩ :: machine.imports }

def argIndex (arg : Arg) : Option Nat :=
  match arg with
  | .int number => some number
  | .line line => memoIndex line
  | _ => none

def argBytes (arg : Arg) : Option (List UInt8) :=
  match arg with
  | .bytes bytes => some bytes
  | .line line => some line
  | _ => none

def Machine.resolveInline (machine : Machine) (arg : Arg) (decode : List UInt8 → Option (List UInt8)) : Option Machine :=
  match arg with
  | .lines module_ name =>
      (decode module_).bind fun module_ => (decode name).bind fun name => machine.resolve none module_ name
  | _ => none

-- One opcode at an offset; none when the unpickler fails. Whether an object can be called, or built on, is left open.
def Machine.step (machine : Machine) (start : Nat) (op : Op) : Option Machine :=
  match op.code.effect with
  | .proto =>
      match op.arg with
      | .int number => if number ≤ 5 then some { machine with proto := number } else none
      | _ => none
  | .globalRef => (machine.resolveInline op.arg fromUtf8).map Machine.pushOther
  | .inst =>
      (machine.resolveInline op.arg fun text => if isAscii text then some text else none).bind fun machine =>
        machine.popMark.map Machine.pushOther
  | .stackGlobal =>
      match machine.stack with
      | .text nameAt _ _ name :: .text moduleAt _ _ module_ :: below =>
          ({ machine with stack := below }.resolve (some (moduleAt, nameAt)) module_ name).map Machine.pushOther
      | _ => none
  | .unicode | .string =>
      (argBytes op.arg).bind fun operand =>
        (decodeString op.code operand).map fun string => machine.push (.text start op.code operand string)
  | .push => some (machine.push .other)
  | .mark => some { machine with stack := [], metastack := machine.stack :: machine.metastack }
  | .pop =>
      match machine.stack with
      | [] => machine.popMark
      | _ :: below => some { machine with stack := below }
  | .popMark => machine.popMark
  | .dup => machine.stack.head?.map fun top => machine.push top
  | .put =>
      (argIndex op.arg).bind fun index =>
        machine.stack.head?.map fun top => { machine with memo := memoPut machine.memo index top }
  | .memoize => machine.stack.head?.map fun top => { machine with memo := memoPut machine.memo machine.memo.length top }
  | .get => (argIndex op.arg).bind fun index => (machine.memo.lookup index).map fun value => machine.push value
  | .collect => machine.popMark.map Machine.pushOther
  | .batch => machine.popMark.bind fun machine => machine.stack.head?.map fun _ => machine
  | .keep count => if count < machine.stack.length then some { machine with stack := machine.stack.drop count } else none
  | .build count =>
      if count ≤ machine.stack.length then some ({ machine with stack := machine.stack.drop count }.push .other) else none
  | .readonly =>
      match machine.stack with
      | .other :: _ => some machine
      | _ => none
  | .nothing => some machine
  | .stop => none

-- Runs over a stream whose steps all meet a condition, from a machine at an offset to another. A run ends before the STOP.
inductive Runs (condition : Machine → Nat → Op → Prop) (bytes : List UInt8) : Machine → Nat → Machine → Nat → Prop
  | refl (machine : Machine) (pos : Nat) : Runs condition bytes machine pos machine pos
  | step {machine next last : Machine} {pos after stop : Nat} (op : Op)
      (read : decodeWith Opcode.layout bytes pos = some (op, after)) (meets : condition machine pos op)
      (moves : machine.step pos op = some next) (rest : Runs condition bytes next after last stop) :
      Runs condition bytes machine pos last stop

def operandBytes : List Import → Nat
  | [] => 0
  | found :: earlier =>
      operandBytes earlier +
        if found.operands.isNone ∨ earlier.any fun other => other.operands = found.operands then 0 else found.size

end Filefacts.Pickle
