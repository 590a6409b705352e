import Filefacts.Lib.Traversal
import Filefacts.Scpt.Parser

set_option autoImplicit false

namespace Filefacts.Scpt

-- What an object of a FAS stream is, by the kinds of record it can be written as.
inductive Content (V : Type) where
  | nil
  | constant (size code : Nat)
  | emptyList
  | list (first tail : V)
  | emptyBinding (size : Nat)
  | binding (key value next : V)
  | small (number : Int)
  | vector (kind : Nat) (tag : UInt8) (items : List V)
  | int (number : Int)
  | float (octets : List UInt8)
  | bool (size : Nat)
  | wideCode (code : Nat)
  | narrowCode (tag : UInt8) (code : Nat)
  | event (octets : List UInt8)
  | name (size : Nat) (first second : List UInt8)
  | string (size : Nat) (text style : List UInt8)
  | command (tag : UInt8) (info start stop : Nat) (items : List V)
  | untagged (items : List V)
  | data (kind : Nat) (tag : UInt8) (octets : List UInt8)

namespace Content

variable {V : Type}

def WellFormed : Content V → Prop
  | nil => True
  | constant size code => 0 < size ∧ size < 2 ^ 16 ∧ code < 2 ^ 64
  | emptyList => True
  | list _ _ => True
  | emptyBinding size => size ≤ 1
  | binding _ _ _ => True
  | small number => -2 ^ 15 ≤ number ∧ number < 2 ^ 15
  | vector kind _ items => (kind = 4 ∨ kind = 14) ∧ items.length < 2 ^ 16
  | int number => -2 ^ 31 ≤ number ∧ number < 2 ^ 31
  | float octets => octets.length = 8
  | bool size => size < 2 ^ 16
  | wideCode code => code < 2 ^ 64
  | narrowCode tag code => (tag = 10 ∨ tag = 47) ∧ code < 2 ^ 32
  | event octets => octets.length = 24
  | name size first second => size < 2 ^ 16 ∧ first.length < 256 ∧ second.length < 256
  | string size text style => size < 2 ^ 16 ∧ text.length < 2 ^ 16 ∧ style.length < 2 ^ 16
  | command _ info start stop items => info < 2 ^ 16 ∧ start < 2 ^ 16 ∧ stop < 2 ^ 16 ∧ items.length < 2 ^ 16
  | untagged items => items.length < 2 ^ 16
  | data kind tag octets =>
      (kind = 15 ∧ octets.length < 2 ^ 16 ∧ (tag = 8 → 94 ≤ octets.length)) ∨ (kind = 17 ∧ octets.length < 2 ^ 16) ∨
        ((kind = 18 ∨ kind = 19) ∧ octets.length < 2 ^ 32)

def children : Content V → List V
  | list first tail => [first, tail]
  | binding key value next => [key, value, next]
  | vector _ _ items => items
  | command _ _ _ _ items => items
  | untagged items => items
  | _ => []

def pieces : Content V → List Value
  | string _ text style => [.bytes (some 0xB1) text, .bytes none style]
  | command _ info start stop _ => [.int info, .int start, .int stop]
  | _ => []

def value (items : List Nat) : Content V → Value
  | nil => .unknown
  | constant _ code => .constant code
  | emptyList => .vector none items
  | list _ _ => .vector none items
  | emptyBinding _ => .vector none items
  | binding _ _ _ => .vector none items
  | small number => .int number
  | vector _ tag _ => .vector (some tag) items
  | int number => .int number
  | float octets => .bytes none octets
  | bool size => .bool (size != 0)
  | wideCode code => .constant code
  | narrowCode _ code => .constant code
  | event octets => .event (eventText octets)
  | name _ first second => .name (nameText (if second = [] then first else second))
  | string _ _ _ => .vector (some 0xB1) items
  | command tag _ _ _ _ => .vector (some tag) items
  | untagged _ => .vector none items
  | data kind tag octets => .bytes (if kind = 15 ∨ kind = 18 then some tag else none) octets

def owned : Content V → Nat
  | float octets => octets.length
  | event _ => eventCapacity
  | name _ first second => nameCapacity (if second = [] then first else second)
  | string _ text style => text.length + style.length
  | data _ _ octets => octets.length
  | _ => 0

def kind : Content V → Nat
  | nil => 1
  | constant _ _ => 1
  | emptyList => 2
  | list _ _ => 2
  | emptyBinding _ => 6
  | binding _ _ _ => 6
  | small _ => 3
  | vector kind _ _ => kind
  | int _ => 7
  | float _ => 8
  | bool _ => 9
  | wideCode _ => 10
  | narrowCode _ _ => 10
  | event _ => 10
  | name _ _ _ => 11
  | string _ _ _ => 12
  | command _ _ _ _ _ => 13
  | untagged _ => 16
  | data kind _ _ => kind

end Content

def word (number : Nat) : List UInt8 := BigEndian.octetsOf 2 number

def unsigned (bits : Nat) (number : Int) : Nat := if 0 ≤ number then number.toNat else (number + 2 ^ bits).toNat

namespace Content

variable {V : Type}

def size : Content V → Nat
  | nil => 0
  | constant size _ => size
  | emptyList => 0
  | list _ _ => 2
  | emptyBinding size => size
  | binding _ _ _ => 3
  | small number => unsigned 16 number
  | vector _ _ items => items.length
  | int _ => 4
  | float _ => 8
  | bool size => size
  | wideCode _ => 8
  | narrowCode _ _ => 4
  | event _ => 24
  | name size _ _ => size
  | string size _ _ => size
  | command _ _ _ _ items => items.length
  | untagged items => items.length
  | data kind _ octets => if kind = 15 ∨ kind = 17 then octets.length else 0

def head : Content V → List UInt8
  | vector _ tag _ => [tag]
  | command tag info start stop _ => tag :: (word info ++ word start ++ word stop)
  | _ => []

def tail : Content V → List UInt8
  | constant _ code => BigEndian.octetsOf 8 code
  | int number => BigEndian.octetsOf 4 (unsigned 32 number)
  | float octets => octets
  | wideCode code => 11 :: BigEndian.octetsOf 8 code
  | narrowCode tag code => tag :: BigEndian.octetsOf 4 code
  | event octets => 46 :: octets
  | name _ first second => 48 :: (word first.length ++ first ++ word second.length ++ second)
  | string _ text style => word text.length ++ text ++ word style.length ++ style
  | data kind tag octets =>
      (if kind = 15 ∨ kind = 18 then [tag] else []) ++
        (if kind = 18 ∨ kind = 19 then BigEndian.octetsOf 4 octets.length else []) ++ octets
  | _ => []

end Content

-- A rooted graph of objects with their reference words. Words that are not negative name objects; an object with a negative
-- word has one reference.
structure Graph (V : Type) [Fintype V] [DecidableEq V] where
  root : V
  content : V → Content V
  ident : V → Int
  formed : ∀ v, (content v).WellFormed
  fits : ∀ v, -2 ^ 15 ≤ ident v ∧ ident v < 2 ^ 15
  rooted : ident root = 0
  distinct : ∀ u v, 0 ≤ ident u → ident u = ident v → u = v
  single : ∀ v, ident v < 0 → ∑ u, (content u).children.count v ≤ 1

namespace Graph

variable {V : Type} [Fintype V] [DecidableEq V] (g : Graph V)

def children (v : V) : List V := (g.content v).children

def references (vs : List V) : List UInt8 := vs.flatMap fun v => word (unsigned 16 (g.ident v))

def record (v : V) : List UInt8 :=
  UInt8.ofNat (g.content v).kind :: (word (unsigned 16 (g.ident v)) ++ word (g.content v).size ++ (g.content v).head ++
    g.references (g.children v) ++ (g.content v).tail)

-- Objects with a name are written at their first reference, the others at each.
def traversal : List (V × Nat) := Traversal.traversal g.children (fun v => 0 ≤ g.ident v) g.root

def octets : List UInt8 := g.traversal.flatMap fun entry => g.record entry.1

structure Within (length : Nat) : Prop where
  input : length ≤ maxInput
  objects : (g.traversal.map fun entry => 1 + (g.content entry.1).pieces.length).sum ≤ maxObjects
  data : (g.traversal.map fun entry => (g.content entry.1).owned).sum ≤ maxData
  edges : (g.traversal.map fun entry => (g.content entry.1).pieces.length + (g.children entry.1).length).sum ≤ maxEdges
  depth : ∀ entry ∈ g.traversal, g.children entry.1 ≠ [] → entry.2 < maxDepth

end Graph

inductive Part (V : Type) where
  | object (v : V)
  | piece (v : V) (index : Nat)
  deriving DecidableEq

namespace Graph

variable {V : Type} [Fintype V] [DecidableEq V] (g : Graph V)

def parts : Part V → List (Part V)
  | .object v => (List.range (g.content v).pieces.length).map (.piece v) ++ (g.children v).map .object
  | .piece _ _ => []

def value (place : Part V → Nat) : Part V → Option Value
  | .object v => some ((g.content v).value ((g.parts (.object v)).map place))
  | .piece v index => (g.content v).pieces[index]?

def Reaches : Part V → Prop := Relation.ReflTransGen (fun source target => target ∈ g.parts source) (.object g.root)

end Graph

def Value.items : Value → List Nat
  | .vector _ items => items
  | _ => []

def Parsed.Refers (parsed : Parsed) (source target : Nat) : Prop :=
  ∃ node, parsed.nodes[source]? = some node ∧ target ∈ node.value.items

-- Every part reachable from the root has a node of its own with its value, and no other node is reachable.
def Isomorphic {V : Type} [Fintype V] [DecidableEq V] (g : Graph V) (parsed : Parsed) : Prop :=
  ∃ place : Part V → Nat,
    place (.object g.root) = parsed.root ∧
    (∀ x y, g.Reaches x → g.Reaches y → place x = place y → x = y) ∧
    (∀ x, g.Reaches x → ∃ value, g.value place x = some value ∧ parsed.nodes[place x]?.map Node.value = some value) ∧
    ∀ node, Relation.ReflTransGen parsed.Refers parsed.root node → ∃ x, g.Reaches x ∧ place x = node

-- What a stream begins with: perhaps a line for the shell, the magic, and one or two version words.
structure Header where
  shebang : Option (List UInt8)
  outer : List UInt8
  effective : List UInt8
  line : ∀ text ∈ shebang, 10 ∉ text
  words : isVersion outer ∧ isVersion effective
  single : ¬ atLeast outer version110 → effective = outer
  supported : ¬ atLeast version097 effective ∧ ¬ atLeast effective version111

def Header.octets (h : Header) : List UInt8 :=
  (h.shebang.elim [] fun text => 0x23 :: 0x21 :: (text ++ [10])) ++ magic ++ h.outer ++
    if atLeast h.outer version110 then h.effective else []

end Filefacts.Scpt
