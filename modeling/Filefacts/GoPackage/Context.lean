import Filefacts.Constraint.Header
import Filefacts.Lib.Fibers
import Filefacts.PackageContext.Paths

set_option autoImplicit false

namespace Filefacts.GoPackage

open Constraint PackageContext

-- `go_syntax::package_clause`. Each turn but the last takes two characters or
-- more, so more turns than characters are enough.
def packageClauseLoop (unicode : Unicode) (isNumeric : Char → Bool) : Nat → Bool → List Char → List Char
  | 0, _, _ => []
  | fuel + 1, keyword, rest =>
      let rest := rest.dropWhile fun c => c == ' ' || c == '\t' || c == '\r' || c == '\n'
      let inName := fun c => unicode.isAlphanumeric c || c == '_'
      match rest.dropPrefix? "//".toList with
      | some comment => packageClauseLoop unicode isNumeric fuel keyword (comment.dropWhile (· != '\n'))
      | none =>
          match rest.dropPrefix? "/*".toList with
          | some comment =>
              match afterClose comment with
              | none => []
              | some rest => packageClauseLoop unicode isNumeric fuel keyword rest
          | none =>
              if keyword then
                let name := rest.takeWhile inName
                if name.head?.any isNumeric then [] else name
              else
                match rest.dropPrefix? "package".toList with
                | some after => if after.head?.any inName then [] else packageClauseLoop unicode isNumeric fuel true after
                | none => []

def packageClause (unicode : Unicode) (isNumeric : Char → Bool) (source : List Char) : List Char :=
  let rest := (source.dropPrefix? ['\uFEFF']).getD source
  packageClauseLoop unicode isNumeric (rest.length + 1) false rest

def extension (name : List Char) : Option (List Char) :=
  let throughDot := name.rdropWhile (· != '.')
  if throughDot.length ≤ 1 || name = "..".toList then none else some (name.drop throughDot.length)

def isGoFile (name : List Char) : Bool :=
  extension name == some "go".toList && !name.head?.any fun c => c == '_' || c == '.'

-- `position` says which of the sources the member is.
structure Member where
  position : Nat
  path : String
  source : String
  builds : List Bool
  test : Bool
deriving DecidableEq, Repr

section Outside

variable {Tree Budget Facts : Type}

structure GoFileFlow (Facts : Type) where
  path : String
  facts : Facts

structure GoPackageFlow (Facts : Type) where
  files : List (GoFileFlow Facts)
  truncated : Bool

structure GoPackage (Facts : Type) where
  directory : String
  package : String
  phase : Phase
  platforms : List String
  members : List String
  files : List (GoFileFlow Facts)
  truncated : Bool

structure GoSourceContext (Facts : Type) where
  packages : List (GoPackage Facts)
  unselected : List String
  truncated : Bool

-- What other modules do here. Each source is parsed at most once, and a parse
-- may fail because it was cancelled, so its outcome is the position's.
structure Analysis (Tree Budget Facts : Type) where
  unicode : Unicode
  isNumeric : Char → Bool
  parse : Nat → Option Tree
  newBudget : Nat → Budget
  packageFlow : List (String × Tree) → ContextLimits → Budget → GoPackageFlow Facts × Budget
  cancelled : Bool

variable (analysis : Analysis Tree Budget Facts) (limits : ContextLimits)

def buildsOn (name : List Char) (constraint : Option Expr) (platform : Platform) : Bool :=
  fileNameMatches name platform.hasTag && constraint.all fun expr => expr.eval platform.hasTag

def groupKey (file : SourceFile) : String × String :=
  let directory := memberDirectory file.path.toList
  (String.ofList (if directory.getLast? = some '/' then directory.dropLast else directory),
    String.ofList (packageClause analysis.unicode analysis.isNumeric file.source.toList))

def keyBefore (first second : String × String) : Bool :=
  decide (first.1 < second.1) || (first.1 == second.1 && decide (first.2 < second.2))

def isTestName (name : List Char) : Bool := "_test.go".toList.isSuffixOf name

structure Intake where
  groups : List ((String × String) × List Member)
  unselected : List String
  truncated : Bool
deriving DecidableEq, Repr

def takeIn (intake : Intake) (entry : SourceFile × Nat) : Intake :=
  let file := entry.1
  let name := memberName file.path.toList
  if !isGoFile name then intake
  else if file.source.utf8ByteSize > limits.maxGoMemberBytes then { intake with truncated := true }
  else
    match fileConstraint analysis.unicode file.source.toList with
    | .error _ => { intake with unselected := intake.unselected ++ [file.path] }
    | .ok constraint =>
        let builds := platforms.map (buildsOn name constraint)
        if !builds.contains true then { intake with unselected := intake.unselected ++ [file.path] }
        else
          let member := ⟨entry.2, file.path, file.source, builds, isTestName name⟩
          { intake with groups := Fibers.push keyBefore (groupKey analysis file) member intake.groups }

def takeInAll (sources : List SourceFile) (coverage : Coverage) : Intake :=
  sources.zipIdx.foldl (takeIn analysis limits) ⟨[], [], coverage == .incomplete⟩

def parsedMembers (members : List Member) : List (Option (String × Tree)) :=
  members.map fun member => (analysis.parse member.position).map fun tree => (member.path, tree)

def selectedOn (members : List Member) (parsed : List (Option (String × Tree))) (test : Bool) (index : Nat) : List Nat :=
  (members.zipIdx.filter fun entry =>
    (!entry.1.test || test) && entry.1.builds[index]? == some true && (parsed[entry.2]?).join.isSome).map Prod.snd

def addPlatform (members : List Member) (parsed : List (Option (String × Tree))) (test : Bool)
    (variants : List (List Nat × List String)) (entry : Platform × Nat) : List (List Nat × List String) :=
  let selected := selectedOn members parsed test entry.2
  let hasTest := selected.any fun i => (members[i]?).any (·.test)
  if selected.isEmpty || test && !hasTest then variants
  else Fibers.push (fun _ _ => false) selected entry.1.port variants

def variantsFor (members : List Member) (parsed : List (Option (String × Tree))) (test : Bool) : List (List Nat × List String) :=
  platforms.zipIdx.foldl (addPlatform members parsed test) []

def everywhere : List (List Nat × List String) → Bool
  | [(_, ports)] => ports.length == platforms.length
  | _ => false

structure Report (Budget Facts : Type) where
  packages : List (GoPackage Facts)
  truncated : Bool
  budget : Budget

abbrev Reporting (Budget Facts : Type) := Except (Report Budget Facts)

def reportVariant (key : String × String) (members : List Member) (parsed : List (Option (String × Tree))) (phase : Phase)
    (all : Bool) (report : Report Budget Facts) (variant : List Nat × List String) : Reporting Budget Facts (Report Budget Facts) :=
  if report.packages.length ≥ limits.maxGoPackages then .error { report with truncated := true }
  else
    let inputs := variant.1.filterMap fun i => (parsed[i]?).join
    let flow := analysis.packageFlow inputs limits report.budget
    .ok {
      packages := report.packages ++ [{
        directory := key.1, package := key.2, phase, platforms := if all then [] else variant.2,
        members := (variant.1.filterMap fun i => members[i]?).map (·.path), files := flow.1.files, truncated := flow.1.truncated }]
      truncated := report.truncated || flow.1.truncated
      budget := flow.2 }

def reportPhase (key : String × String) (members : List Member) (parsed : List (Option (String × Tree)))
    (report : Report Budget Facts) (phase : Phase) : Reporting Budget Facts (Report Budget Facts) :=
  let test := phase == .test
  if test && !members.any (·.test) then .ok report
  else
    let variants := variantsFor members parsed test
    variants.foldlM (reportVariant analysis limits key members parsed phase (everywhere variants)) report

def reportGroup (report : Report Budget Facts) (group : (String × String) × List Member) : Reporting Budget Facts (Report Budget Facts) :=
  let parsed := parsedMembers analysis group.2
  let report := { report with truncated := report.truncated || parsed.any Option.isNone }
  [Phase.runtime, Phase.test].foldlM (reportPhase analysis limits group.1 group.2 parsed) report

def finished : Reporting Budget Facts (Report Budget Facts) → Report Budget Facts
  | .ok report => report
  | .error report => report

def goSourceContext (sources : List SourceFile) (coverage : Coverage) : GoSourceContext Facts :=
  let totalBytes := (sources.map (·.source.utf8ByteSize)).sum
  if sources.length > limits.maxGoMembers || totalBytes > limits.maxGoBytes then ⟨[], [], true⟩
  else
    let intake := takeInAll analysis limits sources coverage
    let report := finished (intake.groups.foldlM (reportGroup analysis limits)
      ⟨[], intake.truncated, analysis.newBudget limits.maxFlowSteps⟩)
    ⟨report.packages, intake.unselected, report.truncated || analysis.cancelled⟩

end Outside

open Constraint PackageContext

variable {Tree Budget Facts : Type} (analysis : Analysis Tree Budget Facts) (limits : ContextLimits)

-- A source that `go/build` would read, within the size budget.
def eligible (file : SourceFile) : Bool :=
  isGoFile (memberName file.path.toList) && decide (file.source.utf8ByteSize ≤ limits.maxGoMemberBytes)

def constraintHolds (platform : Platform) : Except ConstraintError (Option Expr) → Bool
  | .ok constraint => constraint.all fun expr => expr.eval platform.hasTag
  | .error _ => false

def platformBuilds (file : SourceFile) (platform : Platform) : Bool :=
  fileNameMatches (memberName file.path.toList) platform.hasTag &&
    constraintHolds platform (fileConstraint analysis.unicode file.source.toList)

def isBuilt (file : SourceFile) : Bool := platforms.any (platformBuilds analysis file)

def isTest (file : SourceFile) : Bool := isTestName (memberName file.path.toList)

def joins (key : String × String) (phase : Phase) (platform : Platform) (entry : SourceFile × Nat) : Bool :=
  eligible limits entry.1 && decide (groupKey analysis entry.1 = key) && (!isTest entry.1 || phase == .test) &&
    platformBuilds analysis entry.1 platform && (analysis.parse entry.2).isSome

def selection (sources : List SourceFile) (key : String × String) (phase : Phase) (platform : Platform) : List (SourceFile × Nat) :=
  sources.zipIdx.filter (joins analysis limits key phase platform)

def reached (sources : List SourceFile) (key : String × String) (phase : Phase) (platform : Platform) : Bool :=
  let selected := selection analysis limits sources key phase platform
  selected != [] && (phase != .test || selected.any fun entry => isTest entry.1)

def toMember (entry : SourceFile × Nat) : Member :=
  ⟨entry.2, entry.1.path, entry.1.source, platforms.map (platformBuilds analysis entry.1), isTest entry.1⟩

def grouped (entry : SourceFile × Nat) : Option ((String × String) × Member) :=
  if eligible limits entry.1 && isBuilt analysis entry.1 then some (groupKey analysis entry.1, toMember analysis entry) else none

def pushGrouped (groups : List ((String × String) × List Member)) (pair : (String × String) × Member) :
    List ((String × String) × List Member) :=
  Fibers.push keyBefore pair.1 pair.2 groups

def oversized (file : SourceFile) : Bool :=
  isGoFile (memberName file.path.toList) && decide (limits.maxGoMemberBytes < file.source.utf8ByteSize)

variable (file : SourceFile)

theorem builds_built (constraint : Option Expr) (accepted : fileConstraint analysis.unicode file.source.toList = .ok constraint) :
    platforms.map (buildsOn (memberName file.path.toList) constraint) = platforms.map (platformBuilds analysis file) := by
  apply List.map_congr_left
  intro platform _
  rw [platformBuilds, accepted]
  rfl

theorem contains_built : (platforms.map (platformBuilds analysis file)).contains true = isBuilt analysis file := by
  rw [isBuilt, Bool.eq_iff_iff, List.contains_iff_mem, List.mem_map, List.any_eq_true]

theorem rejected_unbuilt (error : ConstraintError)
    (rejected : fileConstraint analysis.unicode file.source.toList = .error error) : isBuilt analysis file = false := by
  rw [isBuilt, List.any_eq_false]
  intro platform _
  rw [platformBuilds, rejected]
  simp [constraintHolds]

theorem take_in_cases (intake : Intake) (entry : SourceFile × Nat) :
    takeIn analysis limits intake entry =
      ⟨(grouped analysis limits entry).toList.foldl pushGrouped intake.groups,
        intake.unselected ++ (if eligible limits entry.1 && !isBuilt analysis entry.1 then [entry.1.path] else []),
        intake.truncated || oversized limits entry.1⟩ := by
  unfold takeIn
  cases named : isGoFile (memberName entry.1.path.toList) with
  | false => simp [grouped, eligible, oversized, named]
  | true =>
      by_cases large : entry.1.source.utf8ByteSize > limits.maxGoMemberBytes
      · have small : ¬ entry.1.source.utf8ByteSize ≤ limits.maxGoMemberBytes := by omega
        simp [grouped, eligible, oversized, named, large, small]
      · have small : entry.1.source.utf8ByteSize ≤ limits.maxGoMemberBytes := by omega
        have fits : eligible limits entry.1 = true := by simp [eligible, named, small]
        have notOver : oversized limits entry.1 = false := by simp [oversized, small]
        simp only [if_neg large]
        cases read : fileConstraint analysis.unicode entry.1.source.toList with
        | error error =>
            have unbuilt := rejected_unbuilt analysis entry.1 error read
            simp [grouped, named, fits, unbuilt, notOver]
        | ok constraint =>
            simp only [builds_built analysis entry.1 constraint read, contains_built]
            cases built : isBuilt analysis entry.1 with
            | false => simp [grouped, named, fits, built, notOver]
            | true => simp [grouped, named, fits, built, notOver, pushGrouped, toMember, isTest]

theorem take_in_all (entries : List (SourceFile × Nat)) (truncated : Bool) :
    entries.foldl (takeIn analysis limits) ⟨[], [], truncated⟩ =
      ⟨Fibers.pushAll keyBefore (entries.filterMap (grouped analysis limits)),
        (entries.filter fun entry => eligible limits entry.1 && !isBuilt analysis entry.1).map (·.1.path),
        truncated || entries.any fun entry => oversized limits entry.1⟩ := by
  induction entries using List.reverseRecOn with
  | nil => simp [Fibers.pushAll]
  | append_singleton entries entry ih =>
      rw [List.foldl_append, List.foldl_cons, List.foldl_nil, ih, take_in_cases]
      congr 1
      · rw [List.filterMap_append, Fibers.push_all_append]
        cases kept : grouped analysis limits entry with
        | none => simp [kept]
        | some pair => simp [kept, pushGrouped]
      · rw [List.filter_append, List.map_append]
        cases kept : (eligible limits entry.1 && !isBuilt analysis entry.1) <;> simp [kept]
      · rw [List.any_append, Bool.or_assoc]
        simp

end Filefacts.GoPackage
