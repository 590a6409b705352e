import Filefacts.Constraint.Grammar
import Mathlib.Data.List.DropRight

set_option autoImplicit false

namespace Filefacts.Constraint

def isWhitespace (c : Char) : Bool :=
  (0x9 ≤ c.toNat && c.toNat ≤ 0xd) || c.toNat == 0x20 || c.toNat == 0x85 || c.toNat == 0xa0 || c.toNat == 0x1680 ||
    (0x2000 ≤ c.toNat && c.toNat ≤ 0x200a) || c.toNat == 0x2028 || c.toNat == 0x2029 || c.toNat == 0x202f ||
    c.toNat == 0x205f || c.toNat == 0x3000

def trim (text : List Char) : List Char := (text.dropWhile isWhitespace).rdropWhile isWhitespace

inductive ConstraintError where
  | multipleGoBuild
  | syntaxError (message : String)
deriving DecidableEq, Repr

def afterClose : List Char → Option (List Char)
  | [] => none
  | '*' :: '/' :: rest => some rest
  | _ :: rest => afterClose rest

-- The inner loop of `file_header`: whether a block comment is open after the
-- line, or none where other text than a comment ends the header. Each turn
-- takes two characters, so as many turns as characters are enough.
def scanLine : Nat → Bool → List Char → Option Bool
  | 0, inBlockComment, _ => some inBlockComment
  | fuel + 1, inBlockComment, line =>
      if line = [] then some inBlockComment
      else if inBlockComment then
        match afterClose line with
        | none => some true
        | some rest => scanLine fuel false (trim rest)
      else if "//".toList.isPrefixOf line then some false
      else
        match line.dropPrefix? "/*".toList with
        | some after => scanLine fuel true (trim after)
        | none => none

def endsWord (rest : List Char) : Bool := rest.head?.all isWhitespace

def isGoBuild (line : List Char) : Bool := (line.dropPrefix? "//go:build".toList).any endsWord

structure Header where
  end_ : Nat
  ended : Bool
  inBlockComment : Bool
  goBuild : Option (List Char)
deriving DecidableEq, Repr

def headerLines (size : Nat) : Nat → Header → List Char → Except ConstraintError Header
  | 0, header, _ => .ok header
  | fuel + 1, header, rest =>
      if rest = [] then .ok header
      else
        let line := trim (rest.takeWhile (· != '\n'))
        let next := (rest.dropWhile (· != '\n')).tail
        if line = [] && !header.ended then headerLines size fuel { header with end_ := size - next.length } next
        else
          let ended := header.ended || !"//".toList.isPrefixOf line
          let goBuildHere := !header.inBlockComment && isGoBuild line
          if goBuildHere && header.goBuild.isSome then .error .multipleGoBuild
          else
            let goBuild := if goBuildHere then some line else header.goBuild
            match scanLine line.length header.inBlockComment line with
            | none => .ok { header with ended, goBuild }
            | some inBlockComment => headerLines size fuel { header with ended, inBlockComment, goBuild } next

def fileHeader (content : List Char) : Except ConstraintError (List Char × Option (List Char)) := do
  let header ← headerLines content.length content.length ⟨0, false, false, none⟩ content
  .ok (content.take header.end_, header.goBuild)

def maxPlusBuildOperators : Nat := 100

def isValidTag (unicode : Unicode) (name : List Char) : Bool := name != [] && name.all unicode.inTag

def plusBuildTag (unicode : Unicode) (name : List Char) : Expr :=
  .tag (if isValidTag unicode name then String.ofList name else "ignore")

def plusBuildTerm (unicode : Unicode) (literal : List Char) : Expr :=
  if "!!".toList.isPrefixOf literal || literal = ['!'] then .tag "ignore"
  else
    match literal.dropPrefix? ['!'] with
    | some name => .not (plusBuildTag unicode name)
    | none => plusBuildTag unicode literal

def joinOperand (combine : Expr → Expr → Expr) : Nat × Option Expr → Expr → Option (Nat × Option Expr)
  | (operators, none), operand => some (operators, some operand)
  | (operators, some previous), operand =>
      if operators + 1 > maxPlusBuildOperators then none else some (operators + 1, some (combine previous operand))

def plusBuildClause (unicode : Unicode) (state : Nat × Option Expr) (clause : List Char) : Option (Nat × Option Expr) := do
  let (operators, conjunction) ← ((clause.splitOn ',').map (plusBuildTerm unicode)).foldlM (joinOperand .and) (state.1, none)
  match conjunction with
  | none => some (operators, state.2)
  | some conjunction => joinOperand .or (operators, state.2) conjunction

def parsePlusBuild (unicode : Unicode) (text : List Char) : Option Expr := do
  let clauses := (text.splitOnP isWhitespace).filter (· != [])
  let (_, alternatives) ← clauses.foldlM (plusBuildClause unicode) (0, none)
  some (alternatives.getD (.tag "ignore"))

def plusBuildLine (unicode : Unicode) (line : List Char) : Option Expr := do
  let comment ← line.dropPrefix? "//".toList
  let rest ← (trim comment).dropPrefix? "+build".toList
  if endsWord rest then parsePlusBuild unicode (trim rest) else none

-- `str::lines`, but for the `\r` it drops, which `trim` drops here.
def textLines (text : List Char) : List (List Char) :=
  let pieces := text.splitOn '\n'
  if pieces.getLast? = some [] then pieces.dropLast else pieces

def fileConstraint (unicode : Unicode) (content : List Char) : Except ConstraintError (Option Expr) := do
  let (header, goBuild) ← fileHeader content
  match goBuild with
  | some line =>
      match line.dropPrefix? "//go:build".toList with
      | none => .error (.syntaxError "missing //go:build prefix")
      | some expr => ((parseExpr unicode (String.ofList (trim expr))).map some).mapError .syntaxError
  | none =>
      match ((textLines header).map trim).filterMap (plusBuildLine unicode) with
      | [] => .ok none
      | [line] => .ok (some line)
      | lines => .ok (some (.all lines))

structure Platform where
  goos : String
  goarch : String
  cgo : Bool
deriving DecidableEq, Repr

def platforms : List Platform :=
  [⟨"aix", "ppc64", true⟩, ⟨"android", "386", true⟩, ⟨"android", "amd64", true⟩, ⟨"android", "arm", true⟩,
   ⟨"android", "arm64", true⟩, ⟨"darwin", "amd64", true⟩, ⟨"darwin", "arm64", true⟩, ⟨"dragonfly", "amd64", true⟩,
   ⟨"freebsd", "386", true⟩, ⟨"freebsd", "amd64", true⟩, ⟨"freebsd", "arm", true⟩, ⟨"freebsd", "arm64", true⟩,
   ⟨"freebsd", "riscv64", true⟩, ⟨"illumos", "amd64", true⟩, ⟨"ios", "amd64", true⟩, ⟨"ios", "arm64", true⟩,
   ⟨"js", "wasm", false⟩, ⟨"linux", "386", true⟩, ⟨"linux", "amd64", true⟩, ⟨"linux", "arm", true⟩,
   ⟨"linux", "arm64", true⟩, ⟨"linux", "loong64", true⟩, ⟨"linux", "mips", true⟩, ⟨"linux", "mips64", true⟩,
   ⟨"linux", "mips64le", true⟩, ⟨"linux", "mipsle", true⟩, ⟨"linux", "ppc64", false⟩, ⟨"linux", "ppc64le", true⟩,
   ⟨"linux", "riscv64", true⟩, ⟨"linux", "s390x", true⟩, ⟨"netbsd", "386", true⟩, ⟨"netbsd", "amd64", true⟩,
   ⟨"netbsd", "arm", true⟩, ⟨"netbsd", "arm64", true⟩, ⟨"openbsd", "386", true⟩, ⟨"openbsd", "amd64", true⟩,
   ⟨"openbsd", "arm", true⟩, ⟨"openbsd", "arm64", true⟩, ⟨"openbsd", "ppc64", false⟩, ⟨"openbsd", "riscv64", true⟩,
   ⟨"plan9", "386", false⟩, ⟨"plan9", "amd64", false⟩, ⟨"plan9", "arm", false⟩, ⟨"solaris", "amd64", true⟩,
   ⟨"wasip1", "wasm", false⟩, ⟨"windows", "386", true⟩, ⟨"windows", "amd64", true⟩, ⟨"windows", "arm", false⟩,
   ⟨"windows", "arm64", true⟩]

def knownOs : List String :=
  ["aix", "android", "darwin", "dragonfly", "freebsd", "hurd", "illumos", "ios", "js", "linux", "nacl", "netbsd",
   "openbsd", "plan9", "solaris", "wasip1", "windows", "zos"]

def unixOs : List String :=
  ["aix", "android", "darwin", "dragonfly", "freebsd", "hurd", "illumos", "ios", "linux", "netbsd", "openbsd",
   "solaris"]

def knownArch : List String :=
  ["386", "amd64", "amd64p32", "arm", "armbe", "arm64", "arm64be", "loong64", "mips", "mipsle", "mips64", "mips64le",
   "mips64p32", "mips64p32le", "ppc", "ppc64", "ppc64le", "riscv", "riscv64", "s390", "s390x", "sparc", "sparc64",
   "wasm"]

def isReleaseTag (name : String) : Bool :=
  (name.toList.dropPrefix? "go1.".toList).any fun minor => minor != [] && minor.all Char.isDigit

def Platform.hasTag (platform : Platform) (name : String) : Bool :=
  name == platform.goos || name == platform.goarch || name == "gc" || (name == "cgo" && platform.cgo) ||
    (name == "linux" && platform.goos == "android") || (name == "solaris" && platform.goos == "illumos") ||
    (name == "darwin" && platform.goos == "ios") || (name == "unix" && unixOs.contains platform.goos) || isReleaseTag name

def Platform.port (platform : Platform) : String := platform.goos ++ "/" ++ platform.goarch

def suffixMatches (tag : String → Bool) : List String → Bool
  | [] => true
  | [last] => if knownOs.contains last || knownArch.contains last then tag last else true
  | last :: os :: _ =>
      if knownOs.contains os && knownArch.contains last then tag last && tag os
      else if knownOs.contains last || knownArch.contains last then tag last
      else true

def fileNameMatches (name : List Char) (tag : String → Bool) : Bool :=
  let stem := name.takeWhile (· != '.')
  if stem.contains '_' then
    let parts := ((stem.dropWhile (· != '_')).splitOn '_').map String.ofList
    suffixMatches tag (if parts.getLast? = some "test" then parts.dropLast else parts).reverse
  else true

end Filefacts.Constraint
