import Filefacts.Bytes

set_option autoImplicit false

namespace Filefacts.Pickle

open Filefacts.Bytes (ascii)

inductive Opcode where
  | mark
  | stop
  | pop
  | popMark
  | dup
  | float
  | int
  | binint
  | binint1
  | long
  | binint2
  | pushNone
  | persid
  | binpersid
  | reduce
  | string
  | binstring
  | binbytes
  | shortBinbytes
  | shortBinstring
  | unicode
  | binunicode
  | append
  | build
  | globalRef
  | dict
  | emptyDict
  | appends
  | get
  | binget
  | inst
  | longBinget
  | list
  | emptyList
  | obj
  | put
  | binput
  | longBinput
  | setitem
  | tuple
  | emptyTuple
  | setitems
  | binfloat
  | proto
  | newobj
  | ext1
  | ext2
  | ext4
  | tuple1
  | tuple2
  | tuple3
  | newtrue
  | newfalse
  | long1
  | long4
  | shortBinunicode
  | binunicode8
  | binbytes8
  | emptySet
  | additems
  | frozenset
  | newobjEx
  | stackGlobal
  | memoize
  | frame
  | bytearray8
  | nextBuffer
  | readonlyBuffer
  deriving DecidableEq, Repr

def Opcode.byte : Opcode → UInt8
  | .mark => 40
  | .stop => 46
  | .pop => 48
  | .popMark => 49
  | .dup => 50
  | .float => 70
  | .int => 73
  | .binint => 74
  | .binint1 => 75
  | .long => 76
  | .binint2 => 77
  | .pushNone => 78
  | .persid => 80
  | .binpersid => 81
  | .reduce => 82
  | .string => 83
  | .binstring => 84
  | .binbytes => 66
  | .shortBinbytes => 67
  | .shortBinstring => 85
  | .unicode => 86
  | .binunicode => 88
  | .append => 97
  | .build => 98
  | .globalRef => 99
  | .dict => 100
  | .emptyDict => 125
  | .appends => 101
  | .get => 103
  | .binget => 104
  | .inst => 105
  | .longBinget => 106
  | .list => 108
  | .emptyList => 93
  | .obj => 111
  | .put => 112
  | .binput => 113
  | .longBinput => 114
  | .setitem => 115
  | .tuple => 116
  | .emptyTuple => 41
  | .setitems => 117
  | .binfloat => 71
  | .proto => 128
  | .newobj => 129
  | .ext1 => 130
  | .ext2 => 131
  | .ext4 => 132
  | .tuple1 => 133
  | .tuple2 => 134
  | .tuple3 => 135
  | .newtrue => 136
  | .newfalse => 137
  | .long1 => 138
  | .long4 => 139
  | .shortBinunicode => 140
  | .binunicode8 => 141
  | .binbytes8 => 142
  | .emptySet => 143
  | .additems => 144
  | .frozenset => 145
  | .newobjEx => 146
  | .stackGlobal => 147
  | .memoize => 148
  | .frame => 149
  | .bytearray8 => 150
  | .nextBuffer => 151
  | .readonlyBuffer => 152

def Opcode.name : Opcode → String
  | .mark => "MARK"
  | .stop => "STOP"
  | .pop => "POP"
  | .popMark => "POP_MARK"
  | .dup => "DUP"
  | .float => "FLOAT"
  | .int => "INT"
  | .binint => "BININT"
  | .binint1 => "BININT1"
  | .long => "LONG"
  | .binint2 => "BININT2"
  | .pushNone => "NONE"
  | .persid => "PERSID"
  | .binpersid => "BINPERSID"
  | .reduce => "REDUCE"
  | .string => "STRING"
  | .binstring => "BINSTRING"
  | .binbytes => "BINBYTES"
  | .shortBinbytes => "SHORT_BINBYTES"
  | .shortBinstring => "SHORT_BINSTRING"
  | .unicode => "UNICODE"
  | .binunicode => "BINUNICODE"
  | .append => "APPEND"
  | .build => "BUILD"
  | .globalRef => "GLOBAL"
  | .dict => "DICT"
  | .emptyDict => "EMPTY_DICT"
  | .appends => "APPENDS"
  | .get => "GET"
  | .binget => "BINGET"
  | .inst => "INST"
  | .longBinget => "LONG_BINGET"
  | .list => "LIST"
  | .emptyList => "EMPTY_LIST"
  | .obj => "OBJ"
  | .put => "PUT"
  | .binput => "BINPUT"
  | .longBinput => "LONG_BINPUT"
  | .setitem => "SETITEM"
  | .tuple => "TUPLE"
  | .emptyTuple => "EMPTY_TUPLE"
  | .setitems => "SETITEMS"
  | .binfloat => "BINFLOAT"
  | .proto => "PROTO"
  | .newobj => "NEWOBJ"
  | .ext1 => "EXT1"
  | .ext2 => "EXT2"
  | .ext4 => "EXT4"
  | .tuple1 => "TUPLE1"
  | .tuple2 => "TUPLE2"
  | .tuple3 => "TUPLE3"
  | .newtrue => "NEWTRUE"
  | .newfalse => "NEWFALSE"
  | .long1 => "LONG1"
  | .long4 => "LONG4"
  | .shortBinunicode => "SHORT_BINUNICODE"
  | .binunicode8 => "BINUNICODE8"
  | .binbytes8 => "BINBYTES8"
  | .emptySet => "EMPTY_SET"
  | .additems => "ADDITEMS"
  | .frozenset => "FROZENSET"
  | .newobjEx => "NEWOBJ_EX"
  | .stackGlobal => "STACK_GLOBAL"
  | .memoize => "MEMOIZE"
  | .frame => "FRAME"
  | .bytearray8 => "BYTEARRAY8"
  | .nextBuffer => "NEXT_BUFFER"
  | .readonlyBuffer => "READONLY_BUFFER"

def Opcode.all : List Opcode :=
  [.mark, .stop, .pop, .popMark, .dup, .float, .int, .binint, .binint1, .long, .binint2, .pushNone, .persid, .binpersid,
    .reduce, .string, .binstring, .binbytes, .shortBinbytes, .shortBinstring, .unicode, .binunicode, .append, .build,
    .globalRef, .dict, .emptyDict, .appends, .get, .binget, .inst, .longBinget, .list, .emptyList, .obj, .put, .binput,
    .longBinput, .setitem, .tuple, .emptyTuple, .setitems, .binfloat, .proto, .newobj, .ext1, .ext2, .ext4, .tuple1,
    .tuple2, .tuple3, .newtrue, .newfalse, .long1, .long4, .shortBinunicode, .binunicode8, .binbytes8, .emptySet, .additems,
    .frozenset, .newobjEx, .stackGlobal, .memoize, .frame, .bytearray8, .nextBuffer, .readonlyBuffer]

def Opcode.ofByte (b : UInt8) : Option Opcode := Opcode.all.find? fun op => op.byte = b

inductive Arg where
  | none
  | int (number : Nat)
  | bytes (bytes : List UInt8)
  | line (text : List UInt8)
  | lines (module_ attr : List UInt8)
  deriving DecidableEq, Repr

structure Op where
  code : Opcode
  arg : Arg
  deriving DecidableEq, Repr

-- How an operand is laid out: a little-endian integer of some bytes, that many bytes, lines, or bytes behind their length.
inductive Layout where
  | none
  | int (width : Nat)
  | fixed (count : Nat)
  | line
  | lines
  | counted (width : Nat)
  deriving DecidableEq, Repr

def readBytes (bytes : List UInt8) (count pos : Nat) : Option (List UInt8 × Nat) :=
  (Bytes.get bytes pos (pos + count)).map fun taken => (taken, pos + count)

def readInt (bytes : List UInt8) (width pos : Nat) : Option (Nat × Nat) :=
  (readBytes bytes width pos).map fun read => (BigEndian.value read.1.reverse, read.2)

-- The bytes up to the next newline, and the offset past it.
def readLine (bytes : List UInt8) (pos : Nat) : Option (List UInt8 × Nat) :=
  ((bytes.drop pos).findIdx? fun b => b = 10).map fun len => ((bytes.drop pos).take len, pos + len + 1)

def readOperand (bytes : List UInt8) (layout : Layout) (pos : Nat) : Option (Arg × Nat) :=
  match layout with
  | .none => some (.none, pos)
  | .int width => (readInt bytes width pos).map fun read => (.int read.1, read.2)
  | .fixed count => (readBytes bytes count pos).map fun read => (.bytes read.1, read.2)
  | .line => (readLine bytes pos).map fun read => (.line read.1, read.2)
  | .lines =>
      (readLine bytes pos).bind fun first => (readLine bytes first.2).map fun second => (.lines first.1 second.1, second.2)
  | .counted width =>
      (readInt bytes width pos).bind fun len => (readBytes bytes len.1 len.2).map fun read => (.bytes read.1, read.2)

def Opcode.operand : Opcode → Layout
  | .proto | .binint1 | .ext1 | .binget | .binput => .int 1
  | .ext2 | .binint2 => .int 2
  | .ext4 | .binint | .longBinget | .longBinput => .int 4
  | .frame => .int 8
  | .binfloat => .fixed 8
  | .int | .long | .float | .unicode | .string | .get | .put => .line
  | .globalRef | .inst => .lines
  | .long1 | .shortBinunicode | .shortBinstring | .shortBinbytes => .counted 1
  | .long4 | .binunicode | .binstring | .binbytes => .counted 4
  | .binunicode8 | .binbytes8 | .bytearray8 => .counted 8
  | _ => .none

def decodeWith (operand : Opcode → Layout) (bytes : List UInt8) (start : Nat) : Option (Op × Nat) :=
  match bytes[start]?.bind Opcode.ofByte with
  | none => none
  | some code => (readOperand bytes (operand code) (start + 1)).map fun read => (⟨code, read.1⟩, read.2)

def decode (bytes : List UInt8) (start : Nat) : Option (Op × Nat) := decodeWith Opcode.operand bytes start

variable {bytes taken : List UInt8} {start stop pos after : Nat} {op : Op}

theorem get_bounds (read : Bytes.get bytes start stop = some taken) : start ≤ stop ∧ stop ≤ bytes.length := by
  unfold Bytes.get at read
  split at read
  · next inside => exact inside
  · cases read

theorem get_take (bytes : List UInt8) (start : Nat) {limit : Nat} (within : stop ≤ limit) :
    Bytes.get (bytes.take limit) start stop = Bytes.get bytes start stop := by
  unfold Bytes.get
  rw [List.length_take]
  by_cases inside : start ≤ stop ∧ stop ≤ bytes.length
  · rw [if_pos inside, if_pos ⟨inside.1, by omega⟩, List.drop_take, List.take_take, Nat.min_eq_left (by omega)]
  · rw [if_neg inside, if_neg fun both => inside ⟨both.1, by omega⟩]

theorem read_bytes_spec {count : Nat} (limit : Nat) (read : readBytes bytes count pos = some (taken, after)) :
    pos ≤ after ∧ after ≤ bytes.length ∧ (after ≤ limit → readBytes (bytes.take limit) count pos = some (taken, after)) := by
  obtain ⟨found, got, same⟩ := Option.map_eq_some_iff.mp read
  obtain ⟨rfl, rfl⟩ := Prod.mk.inj same
  have bounds := get_bounds got
  refine ⟨bounds.1, bounds.2, fun within => ?_⟩
  rw [readBytes, get_take bytes pos within, got, Option.map_some]

theorem read_int_spec {width number : Nat} (limit : Nat) (read : readInt bytes width pos = some (number, after)) :
    pos ≤ after ∧ after ≤ bytes.length ∧ (after ≤ limit → readInt (bytes.take limit) width pos = some (number, after)) := by
  obtain ⟨⟨taken, stop⟩, got, same⟩ := Option.map_eq_some_iff.mp read
  obtain ⟨rfl, rfl⟩ := Prod.mk.inj same
  obtain ⟨forward, inside, stable⟩ := read_bytes_spec limit got
  refine ⟨forward, inside, fun within => ?_⟩
  rw [readInt, stable within, Option.map_some]

theorem read_line_spec {text : List UInt8} (limit : Nat) (read : readLine bytes pos = some (text, after)) :
    pos ≤ after ∧ after ≤ bytes.length ∧ (after ≤ limit → readLine (bytes.take limit) pos = some (text, after)) := by
  obtain ⟨len, found, same⟩ := Option.map_eq_some_iff.mp read
  obtain ⟨rfl, rfl⟩ := Prod.mk.inj same
  obtain ⟨inside, newline, before⟩ := List.findIdx?_eq_some_iff_getElem.mp found
  rw [List.length_drop] at inside
  refine ⟨by omega, by omega, fun within => ?_⟩
  have cut : (bytes.take limit).drop pos = (bytes.drop pos).take (limit - pos) := List.drop_take
  have again : ((bytes.drop pos).take (limit - pos)).findIdx? (fun b => decide (b = 10)) = some len := by
    refine List.findIdx?_eq_some_iff_getElem.mpr ⟨?_, ?_, fun index earlier => ?_⟩
    · rw [List.length_take, List.length_drop]
      omega
    · rw [List.getElem_take]
      exact newline
    · rw [List.getElem_take]
      exact before index earlier
  rw [readLine, cut, again, Option.map_some, List.take_take, Nat.min_eq_left (by omega)]

-- Reading an operand moves forward inside the bytes and does not depend on what follows.
theorem read_operand_spec {layout : Layout} (limit : Nat) {arg : Arg} (start : pos ≤ bytes.length)
    (read : readOperand bytes layout pos = some (arg, after)) :
    pos ≤ after ∧ after ≤ bytes.length ∧
      (after ≤ limit → readOperand (bytes.take limit) layout pos = some (arg, after)) := by
  cases layout with
  | none =>
      obtain ⟨rfl, rfl⟩ := Prod.mk.inj (Option.some.inj read)
      exact ⟨Nat.le_refl _, start, fun _ => rfl⟩
  | int width =>
      obtain ⟨⟨number, stop⟩, got, same⟩ := Option.map_eq_some_iff.mp read
      obtain ⟨rfl, rfl⟩ := Prod.mk.inj same
      obtain ⟨forward, inside, stable⟩ := read_int_spec limit got
      exact ⟨forward, inside, fun within => by rw [readOperand, stable within, Option.map_some]⟩
  | fixed count =>
      obtain ⟨⟨taken, stop⟩, got, same⟩ := Option.map_eq_some_iff.mp read
      obtain ⟨rfl, rfl⟩ := Prod.mk.inj same
      obtain ⟨forward, inside, stable⟩ := read_bytes_spec limit got
      exact ⟨forward, inside, fun within => by rw [readOperand, stable within, Option.map_some]⟩
  | line =>
      obtain ⟨⟨text, stop⟩, got, same⟩ := Option.map_eq_some_iff.mp read
      obtain ⟨rfl, rfl⟩ := Prod.mk.inj same
      obtain ⟨forward, inside, stable⟩ := read_line_spec limit got
      exact ⟨forward, inside, fun within => by rw [readOperand, stable within, Option.map_some]⟩
  | lines =>
      obtain ⟨⟨first, middle⟩, gotFirst, rest⟩ := Option.bind_eq_some_iff.mp read
      obtain ⟨⟨second, stop⟩, gotSecond, same⟩ := Option.map_eq_some_iff.mp rest
      obtain ⟨rfl, rfl⟩ := Prod.mk.inj same
      obtain ⟨forward, _, stable⟩ := read_line_spec limit gotFirst
      obtain ⟨onward, inside, stableSecond⟩ := read_line_spec limit gotSecond
      refine ⟨Nat.le_trans forward onward, inside, fun within => ?_⟩
      have within' : stop ≤ limit := within
      rw [readOperand, stable (Nat.le_trans onward within'), Option.bind_some, stableSecond within', Option.map_some]
  | counted width =>
      obtain ⟨⟨len, middle⟩, gotLen, rest⟩ := Option.bind_eq_some_iff.mp read
      obtain ⟨⟨taken, stop⟩, got, same⟩ := Option.map_eq_some_iff.mp rest
      obtain ⟨rfl, rfl⟩ := Prod.mk.inj same
      obtain ⟨forward, _, stable⟩ := read_int_spec limit gotLen
      obtain ⟨onward, inside, stableBytes⟩ := read_bytes_spec limit got
      refine ⟨Nat.le_trans forward onward, inside, fun within => ?_⟩
      have within' : stop ≤ limit := within
      rw [readOperand, stable (Nat.le_trans onward within'), Option.bind_some, stableBytes within', Option.map_some]

theorem decode_spec {operand : Opcode → Layout} (limit : Nat)
    (read : decodeWith operand bytes start = some (op, after)) :
    start < after ∧ after ≤ bytes.length ∧ (after ≤ limit → decodeWith operand (bytes.take limit) start = some (op, after)) := by
  unfold decodeWith at read
  cases found : bytes[start]?.bind Opcode.ofByte with
  | none => rw [found] at read; cases read
  | some code =>
      rw [found] at read
      obtain ⟨⟨arg, stop⟩, got, same⟩ := Option.map_eq_some_iff.mp read
      obtain ⟨rfl, rfl⟩ := Prod.mk.inj same
      obtain ⟨b, there, _⟩ := Option.bind_eq_some_iff.mp found
      have inside := (List.getElem?_eq_some_iff.mp there).1
      obtain ⟨forward, within, stable⟩ := read_operand_spec limit inside got
      refine ⟨forward, within, fun below => ?_⟩
      have below' : stop ≤ limit := below
      have byte : (bytes.take limit)[start]? = bytes[start]? := List.getElem?_take_of_lt (by omega)
      rw [decodeWith, byte, found]
      simp only [stable below', Option.map_some]

theorem decode_code {operand : Opcode → Layout} (other : Opcode → Layout)
    (read : decodeWith operand bytes start = some (op, after)) (same : operand op.code = other op.code) :
    decodeWith other bytes start = some (op, after) := by
  unfold decodeWith at read ⊢
  cases found : bytes[start]?.bind Opcode.ofByte with
  | none => rw [found] at read; cases read
  | some code =>
      rw [found] at read
      obtain ⟨⟨arg, stop⟩, got, equal⟩ := Option.map_eq_some_iff.mp read
      obtain ⟨rfl, rfl⟩ := Prod.mk.inj equal
      simp only at same
      simp only [← same, got, Option.map_some]

open Filefacts.Bytes (ascii)

def nameMappings : List ((String × String) × (String × String)) :=
  [
    (("UserDict", "IterableUserDict"), ("collections", "UserDict")),
    (("UserDict", "UserDict"), ("collections", "UserDict")),
    (("UserList", "UserList"), ("collections", "UserList")),
    (("UserString", "UserString"), ("collections", "UserString")),
    (("__builtin__", "basestring"), ("builtins", "str")),
    (("__builtin__", "intern"), ("sys", "intern")),
    (("__builtin__", "long"), ("builtins", "int")),
    (("__builtin__", "reduce"), ("functools", "reduce")),
    (("__builtin__", "unichr"), ("builtins", "chr")),
    (("__builtin__", "unicode"), ("builtins", "str")),
    (("__builtin__", "xrange"), ("builtins", "range")),
    (("_multiprocessing", "Connection"), ("multiprocessing.connection", "Connection")),
    (("_socket", "fromfd"), ("socket", "fromfd")),
    (("exceptions", "ArithmeticError"), ("builtins", "ArithmeticError")),
    (("exceptions", "AssertionError"), ("builtins", "AssertionError")),
    (("exceptions", "AttributeError"), ("builtins", "AttributeError")),
    (("exceptions", "BaseException"), ("builtins", "BaseException")),
    (("exceptions", "BufferError"), ("builtins", "BufferError")),
    (("exceptions", "BytesWarning"), ("builtins", "BytesWarning")),
    (("exceptions", "DeprecationWarning"), ("builtins", "DeprecationWarning")),
    (("exceptions", "EOFError"), ("builtins", "EOFError")),
    (("exceptions", "EnvironmentError"), ("builtins", "EnvironmentError")),
    (("exceptions", "Exception"), ("builtins", "Exception")),
    (("exceptions", "FloatingPointError"), ("builtins", "FloatingPointError")),
    (("exceptions", "FutureWarning"), ("builtins", "FutureWarning")),
    (("exceptions", "GeneratorExit"), ("builtins", "GeneratorExit")),
    (("exceptions", "IOError"), ("builtins", "IOError")),
    (("exceptions", "ImportError"), ("builtins", "ImportError")),
    (("exceptions", "ImportWarning"), ("builtins", "ImportWarning")),
    (("exceptions", "IndentationError"), ("builtins", "IndentationError")),
    (("exceptions", "IndexError"), ("builtins", "IndexError")),
    (("exceptions", "KeyError"), ("builtins", "KeyError")),
    (("exceptions", "KeyboardInterrupt"), ("builtins", "KeyboardInterrupt")),
    (("exceptions", "LookupError"), ("builtins", "LookupError")),
    (("exceptions", "MemoryError"), ("builtins", "MemoryError")),
    (("exceptions", "NameError"), ("builtins", "NameError")),
    (("exceptions", "NotImplementedError"), ("builtins", "NotImplementedError")),
    (("exceptions", "OSError"), ("builtins", "OSError")),
    (("exceptions", "OverflowError"), ("builtins", "OverflowError")),
    (("exceptions", "PendingDeprecationWarning"), ("builtins", "PendingDeprecationWarning")),
    (("exceptions", "ReferenceError"), ("builtins", "ReferenceError")),
    (("exceptions", "RuntimeError"), ("builtins", "RuntimeError")),
    (("exceptions", "RuntimeWarning"), ("builtins", "RuntimeWarning")),
    (("exceptions", "StandardError"), ("builtins", "Exception")),
    (("exceptions", "StopIteration"), ("builtins", "StopIteration")),
    (("exceptions", "SyntaxError"), ("builtins", "SyntaxError")),
    (("exceptions", "SyntaxWarning"), ("builtins", "SyntaxWarning")),
    (("exceptions", "SystemError"), ("builtins", "SystemError")),
    (("exceptions", "SystemExit"), ("builtins", "SystemExit")),
    (("exceptions", "TabError"), ("builtins", "TabError")),
    (("exceptions", "TypeError"), ("builtins", "TypeError")),
    (("exceptions", "UnboundLocalError"), ("builtins", "UnboundLocalError")),
    (("exceptions", "UnicodeDecodeError"), ("builtins", "UnicodeDecodeError")),
    (("exceptions", "UnicodeEncodeError"), ("builtins", "UnicodeEncodeError")),
    (("exceptions", "UnicodeError"), ("builtins", "UnicodeError")),
    (("exceptions", "UnicodeTranslateError"), ("builtins", "UnicodeTranslateError")),
    (("exceptions", "UnicodeWarning"), ("builtins", "UnicodeWarning")),
    (("exceptions", "UserWarning"), ("builtins", "UserWarning")),
    (("exceptions", "ValueError"), ("builtins", "ValueError")),
    (("exceptions", "Warning"), ("builtins", "Warning")),
    (("exceptions", "WindowsError"), ("builtins", "WindowsError")),
    (("exceptions", "ZeroDivisionError"), ("builtins", "ZeroDivisionError")),
    (("itertools", "ifilter"), ("builtins", "filter")),
    (("itertools", "ifilterfalse"), ("itertools", "filterfalse")),
    (("itertools", "imap"), ("builtins", "map")),
    (("itertools", "izip"), ("builtins", "zip")),
    (("itertools", "izip_longest"), ("itertools", "zip_longest")),
    (("multiprocessing", "AuthenticationError"), ("multiprocessing.context", "AuthenticationError")),
    (("multiprocessing", "BufferTooShort"), ("multiprocessing.context", "BufferTooShort")),
    (("multiprocessing", "ProcessError"), ("multiprocessing.context", "ProcessError")),
    (("multiprocessing", "TimeoutError"), ("multiprocessing.context", "TimeoutError")),
    (("multiprocessing.forking", "Popen"), ("multiprocessing.popen_fork", "Popen")),
    (("multiprocessing.process", "Process"), ("multiprocessing.context", "Process")),
    (("socket", "_socketobject"), ("socket", "SocketType")),
    (("urllib", "ContentTooShortError"), ("urllib.error", "ContentTooShortError")),
    (("urllib", "getproxies"), ("urllib.request", "getproxies")),
    (("urllib", "pathname2url"), ("urllib.request", "pathname2url")),
    (("urllib", "quote"), ("urllib.parse", "quote")),
    (("urllib", "quote_plus"), ("urllib.parse", "quote_plus")),
    (("urllib", "unquote"), ("urllib.parse", "unquote")),
    (("urllib", "unquote_plus"), ("urllib.parse", "unquote_plus")),
    (("urllib", "url2pathname"), ("urllib.request", "url2pathname")),
    (("urllib", "urlcleanup"), ("urllib.request", "urlcleanup")),
    (("urllib", "urlencode"), ("urllib.parse", "urlencode")),
    (("urllib", "urlopen"), ("urllib.request", "urlopen")),
    (("urllib", "urlretrieve"), ("urllib.request", "urlretrieve")),
    (("urllib2", "HTTPError"), ("urllib.error", "HTTPError")),
    (("urllib2", "URLError"), ("urllib.error", "URLError")),
    (("whichdb", "whichdb"), ("dbm", "whichdb"))
  ]

def importMappings : List (String × String) :=
  [
    ("BaseHTTPServer", "http.server"),
    ("CGIHTTPServer", "http.server"),
    ("ConfigParser", "configparser"),
    ("Cookie", "http.cookies"),
    ("Dialog", "tkinter.dialog"),
    ("DocXMLRPCServer", "xmlrpc.server"),
    ("FileDialog", "tkinter.filedialog"),
    ("HTMLParser", "html.parser"),
    ("Queue", "queue"),
    ("ScrolledText", "tkinter.scrolledtext"),
    ("SimpleDialog", "tkinter.simpledialog"),
    ("SimpleHTTPServer", "http.server"),
    ("SimpleXMLRPCServer", "xmlrpc.server"),
    ("SocketServer", "socketserver"),
    ("StringIO", "io"),
    ("Tix", "tkinter.tix"),
    ("Tkconstants", "tkinter.constants"),
    ("Tkdnd", "tkinter.dnd"),
    ("Tkinter", "tkinter"),
    ("UserDict", "collections"),
    ("UserList", "collections"),
    ("UserString", "collections"),
    ("__builtin__", "builtins"),
    ("_abcoll", "collections.abc"),
    ("_elementtree", "xml.etree.ElementTree"),
    ("_winreg", "winreg"),
    ("anydbm", "dbm"),
    ("cPickle", "pickle"),
    ("cStringIO", "io"),
    ("commands", "subprocess"),
    ("cookielib", "http.cookiejar"),
    ("copy_reg", "copyreg"),
    ("dbhash", "dbm.bsd"),
    ("dbm", "dbm.ndbm"),
    ("dumbdbm", "dbm.dumb"),
    ("dummy_thread", "_dummy_thread"),
    ("gdbm", "dbm.gnu"),
    ("htmlentitydefs", "html.entities"),
    ("httplib", "http.client"),
    ("markupbase", "_markupbase"),
    ("repr", "reprlib"),
    ("robotparser", "urllib.robotparser"),
    ("test.test_support", "test.support"),
    ("thread", "_thread"),
    ("tkColorChooser", "tkinter.colorchooser"),
    ("tkCommonDialog", "tkinter.commondialog"),
    ("tkFileDialog", "tkinter.filedialog"),
    ("tkFont", "tkinter.font"),
    ("tkMessageBox", "tkinter.messagebox"),
    ("tkSimpleDialog", "tkinter.simpledialog"),
    ("ttk", "tkinter.ttk"),
    ("urllib2", "urllib.request"),
    ("urlparse", "urllib.parse"),
    ("whichdb", "dbm"),
    ("xmlrpclib", "xmlrpc.client")
  ]

def nameMapping (module_ name : List UInt8) : Option (List UInt8 × List UInt8) :=
  (nameMappings.find? fun row => ascii row.1.1 = module_ ∧ ascii row.1.2 = name).map fun row =>
    (ascii row.2.1, ascii row.2.2)

def importMapping (module_ : List UInt8) : Option (List UInt8) :=
  (importMappings.find? fun row => ascii row.1 = module_).map fun row => ascii row.2

-- The names Python imports for a global; a stream without a PROTO opcode is protocol 0.
def findClass (protocol : Option Nat) (module_ name : List UInt8) : List UInt8 × List UInt8 :=
  if protocol.any (3 ≤ ·) then (module_, name)
  else
    match nameMapping module_ name with
    | some renamed => renamed
    | none => ((importMapping module_).getD module_, name)

theorem find_class_default (protocol : Option Nat) (module_ name : List UInt8) :
    findClass protocol module_ name = findClass (some (protocol.getD 0)) module_ name := by
  cases protocol with
  | none => rfl
  | some number => rfl

end Filefacts.Pickle
