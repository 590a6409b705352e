import Mathlib.Data.List.Forall2
import Filefacts.Pickle.Machine

set_option autoImplicit false

namespace Filefacts.Pickle

open Filefacts.Bytes (ascii fromUtf8)

-- The scan sees a string when a Unicode opcode pushed it and its operand, read as UTF-8, is the string.
def Shown (code : Opcode) (operand string : List UInt8) : Prop := code.effect = .unicode ∧ fromUtf8 operand = some string

def Shows (value : Value) (shown : StackValue) : Prop :=
  shown ≠ .mark ∧
    match value with
    | .text pushed code operand string => Shown code operand string → shown = .text pushed string
    | .other => True

theorem shows_other (shown : StackValue) (plain : shown ≠ .mark) : Shows .other shown := ⟨plain, trivial⟩

inductive StackShows : List StackValue → List Value → List (List Value) → Prop
  | base (shown : List StackValue) (stack : List Value) (each : List.Forall₂ Shows stack shown) : StackShows shown stack []
  | mark (shown rest : List StackValue) (stack below : List Value) (metastack : List (List Value))
      (each : List.Forall₂ Shows stack shown) (lower : StackShows rest below metastack) :
      StackShows (shown ++ .mark :: rest) stack (below :: metastack)

variable (values : List StackValue) (stack : List Value) (memo : List (Nat × Value))

variable (metastack : List (List Value)) (below : List Value)

theorem stack_shows_push (value : Value)
    (shown : StackValue) (all : StackShows values stack metastack) (top : Shows value shown) :
    StackShows (shown :: values) (value :: stack) metastack := by
  cases all with
  | base _ _ each => exact .base _ _ (.cons top each)
  | mark upper rest _ below metastack each lower => exact .mark (shown :: upper) rest _ below metastack (.cons top each) lower

theorem stack_shows_mark
    (all : StackShows values stack metastack) : StackShows (.mark :: values) [] (stack :: metastack) :=
  .mark [] values [] stack metastack .nil all

theorem stack_shows_top (value : Value) (stack : List Value) (metastack : List (List Value))
    (all : StackShows values (value :: stack) metastack) :
    ∃ shown rest, values = shown :: rest ∧ Shows value shown ∧ StackShows rest stack metastack := by
  cases all with
  | base _ _ each =>
      cases each with
      | cons top others => exact ⟨_, _, rfl, top, .base _ _ others⟩
  | mark upper rest _ below metastack each lower =>
      cases each with
      | cons top others => exact ⟨_, _, rfl, top, .mark _ rest _ below metastack others lower⟩

theorem stack_shows_drop (count : Nat) (values : List StackValue) (stack : List Value) (metastack : List (List Value))
    (enough : count ≤ stack.length) (all : StackShows values stack metastack) :
    StackShows (values.drop count) (stack.drop count) metastack := by
  induction count generalizing values stack with
  | zero => exact all
  | succ count ih =>
      cases stack with
      | nil => exact absurd enough (Nat.not_succ_le_zero _)
      | cons value stack =>
          obtain ⟨shown, rest, rfl, _, others⟩ := stack_shows_top values value stack metastack all
          exact ih rest stack (Nat.le_of_succ_le_succ enough) others

theorem pop_through_shown (shown rest : List StackValue) (each : List.Forall₂ Shows stack shown) :
    popThroughMark (shown ++ .mark :: rest) = rest := by
  induction each with
  | nil => rfl
  | cons top others ih =>
      rename_i value first _ _
      cases first with
      | mark => exact absurd rfl top.1
      | text pushed text => exact ih
      | globalRef module_ attr => exact ih
      | other => exact ih

theorem stack_shows_pop_mark (metastack : List (List Value))
    (all : StackShows values stack (below :: metastack)) : StackShows (popThroughMark values) below metastack := by
  cases all with
  | mark shown rest _ _ _ each lower =>
      rw [pop_through_shown stack shown rest each]
      exact lower

theorem stack_shows_pop_empty (metastack : List (List Value))
    (all : StackShows values [] (below :: metastack)) : StackShows (values.drop 1) below metastack := by
  cases all with
  | mark shown rest _ _ _ each lower =>
      cases each
      exact lower

def MemoShows (memo : List (Nat × Value)) (shown : List (Nat × StackValue)) : Prop :=
  List.Forall₂ (fun entry seen => entry.1 = seen.1 ∧ Shows entry.2 seen.2) memo shown

variable {value : Value} {module_ : List UInt8} {found : Import}

theorem memo_shows_put {shown : List (Nat × StackValue)} (index : Nat)
    {seen : StackValue} (all : MemoShows memo shown) (top : Shows value seen) :
    MemoShows (memoPut memo index value) (memoPut shown index seen) := by
  induction all with
  | nil => exact .cons ⟨rfl, top⟩ .nil
  | cons first others ih =>
      rename_i entry other _ _
      simp only [memoPut]
      by_cases same : entry.1 = index
      · rw [if_pos same, if_pos (first.1 ▸ same)]
        exact .cons ⟨rfl, top⟩ others
      · rw [if_neg same, if_neg (first.1 ▸ same)]
        exact .cons first ih

theorem memo_shows_lookup (shown : List (Nat × StackValue)) (index : Nat) (value : Value)
    (all : MemoShows memo shown) (found : memo.lookup index = some value) :
    ∃ seen, shown.lookup index = some seen ∧ Shows value seen := by
  induction all with
  | nil => cases found
  | cons first others ih =>
      rename_i entry other _ _
      obtain ⟨key, held⟩ := entry
      obtain ⟨otherKey, seen⟩ := other
      obtain ⟨same, top⟩ := first
      simp only at same
      subst same
      rw [List.lookup_cons] at found ⊢
      by_cases hit : (index == key) = true
      · rw [hit] at found ⊢
        obtain rfl := Option.some.inj found
        exact ⟨seen, rfl, top⟩
      · rw [Bool.eq_false_iff.mpr hit] at found ⊢
        exact ih found

def Recorded (modules globals : List (List UInt8)) (module_ name : List UInt8) : Prop :=
  module_ ∈ modules ∧ (isPickleIdent module_ = true → isPickleIdent name = true → module_ ++ ascii "." ++ name ∈ globals)

def Scan.Records (scan : Scan) (found : Import) : Prop := Recorded scan.modules scan.globals found.module_ found.name

theorem record_global_records {attr : List UInt8} {scan : Scan} {renamed : List UInt8 × List UInt8}
    (class_ : findClass scan.protocol module_ attr = renamed) (named : renamed.1 ≠ []) :
    Recorded (recordGlobal module_ attr scan).modules (recordGlobal module_ attr scan).globals renamed.1 renamed.2 := by
  unfold recordGlobal
  rw [class_]
  constructor
  · simp only [List.isEmpty_iff, if_neg named]
    exact (mem_btree_insert _ _ _).mpr (Or.inl rfl)
  · intro identModule identName
    simp only [identModule, identName, Bool.and_self, if_true]
    exact (mem_btree_insert _ _ _).mpr (Or.inl rfl)

theorem record_global_keeps (module_ attr : List UInt8) {scan : Scan} (before : scan.Records found) :
    (recordGlobal module_ attr scan).Records found := by
  unfold recordGlobal
  obtain ⟨inModules, inGlobals⟩ := before
  constructor
  · simp only
    split
    · exact inModules
    · exact (mem_btree_insert _ _ _).mpr (Or.inr inModules)
  · intro identModule identName
    simp only
    split
    · exact (mem_btree_insert _ _ _).mpr (Or.inr (inGlobals identModule identName))
    · exact inGlobals identModule identName

-- What holds between the unpickler and the scan at one offset of the stream.
structure Sim (machine : Machine) (scan : Scan) : Prop where
  stack : StackShows scan.stack.values machine.stack machine.metastack
  memo : MemoShows machine.memo scan.stack.memo
  proto : scan.protocol.getD 0 = machine.proto
  records : ∀ found ∈ machine.imports, scan.Records found
  resolved : ∀ pair, pair ∈ scan.stack.resolved ↔ ∃ found ∈ machine.imports, found.operands = some pair
  bytes : scan.stack.resolvedBytes = operandBytes machine.imports

theorem sim_start : Sim .start .start := by
  refine ⟨.base [] [] .nil, .nil, rfl, fun found member => (by cases member), fun pair => ?_, rfl⟩
  exact ⟨fun member => (by cases member), fun ⟨found, member, _⟩ => (by cases member)⟩

variable (machine next : Machine) (scan : Scan) (op : Op)

theorem sim_stack {values : List StackValue} {memo : List (Nat × StackValue)}
    (sim : Sim machine scan) (imports : next.imports = machine.imports) (proto : next.proto = machine.proto)
    (stack : StackShows values next.stack next.metastack) (memos : MemoShows next.memo memo) :
    Sim next { scan with stack := { scan.stack with values := values, memo := memo } } := by
  refine ⟨stack, memos, sim.proto.trans proto.symm, ?_, ?_, ?_⟩
  · rw [imports]
    exact sim.records
  · rw [imports]
    exact sim.resolved
  · rw [imports]
    exact sim.bytes

def Layout.Fits : Layout → Arg → Prop
  | .none, .none => True
  | .int _, .int _ => True
  | .fixed _, .bytes _ => True
  | .line, .line _ => True
  | .lines, .lines _ _ => True
  | .counted _, .bytes _ => True
  | _, _ => False

variable {bytes : List UInt8} {after start : Nat} {name : List UInt8} {earlier : List Import} {pair : Nat × Nat}

theorem read_operand_fits {layout : Layout} {pos : Nat} {arg : Arg}
    (read : readOperand bytes layout pos = some (arg, after)) : layout.Fits arg := by
  cases layout with
  | none =>
      obtain ⟨rfl, _⟩ := Prod.mk.inj (Option.some.inj read)
      trivial
  | int width =>
      obtain ⟨_, _, same⟩ := Option.map_eq_some_iff.mp read
      obtain ⟨rfl, _⟩ := Prod.mk.inj same
      trivial
  | fixed count =>
      obtain ⟨_, _, same⟩ := Option.map_eq_some_iff.mp read
      obtain ⟨rfl, _⟩ := Prod.mk.inj same
      trivial
  | line =>
      obtain ⟨_, _, same⟩ := Option.map_eq_some_iff.mp read
      obtain ⟨rfl, _⟩ := Prod.mk.inj same
      trivial
  | lines =>
      obtain ⟨_, _, rest⟩ := Option.bind_eq_some_iff.mp read
      obtain ⟨_, _, same⟩ := Option.map_eq_some_iff.mp rest
      obtain ⟨rfl, _⟩ := Prod.mk.inj same
      trivial
  | counted width =>
      obtain ⟨_, _, rest⟩ := Option.bind_eq_some_iff.mp read
      obtain ⟨_, _, same⟩ := Option.map_eq_some_iff.mp rest
      obtain ⟨rfl, _⟩ := Prod.mk.inj same
      trivial

theorem decode_fits {operand : Opcode → Layout} {op : Op}
    (read : decodeWith operand bytes start = some (op, after)) : (operand op.code).Fits op.arg := by
  unfold decodeWith at read
  cases found : bytes[start]?.bind Opcode.ofByte with
  | none => rw [found] at read; cases read
  | some code =>
      rw [found] at read
      obtain ⟨⟨arg, stop⟩, got, same⟩ := Option.map_eq_some_iff.mp read
      obtain ⟨rfl, _⟩ := Prod.mk.inj same
      exact read_operand_fits got

def scanEffect (effect : Effect) (op : Op) (i : Nat) (scan : Scan) : Scan :=
  let stack := scan.stack
  match effect with
  | .proto =>
      match op.arg with
      | .int number => { scan with protocol := if number < 256 then some number else none }
      | _ => scan
  | .globalRef =>
      match inlineGlobal op with
      | some (module_, attr) => (recordGlobal module_ attr scan).push (.globalRef module_ attr)
      | none => scan.push .other
  | .inst =>
      match inlineGlobal op with
      | some (module_, attr) =>
          let scan := recordGlobal module_ attr scan
          { scan with stack := stack.popThroughMark.push .other }
      | none => { scan with stack := stack.popThroughMark.push .other }
  | .stackGlobal => stackGlobal scan
  | .unicode => scan.push ((unicodeOperand op).elim .other fun text => .text i text)
  | .string | .push => scan.push .other
  | .mark => scan.push .mark
  | .pop => { scan with stack := stack.popN 1 }
  | .popMark | .batch => { scan with stack := stack.popThroughMark }
  | .dup =>
      match stack.values.head? with
      | some value => scan.push value
      | none => scan
  | .put =>
      match operandIndex op.arg with
      | some index => { scan with stack := stack.memoPut index }
      | none => scan
  | .memoize => { scan with stack := stack.memoPut stack.memo.length }
  | .get => scan.push (((operandIndex op.arg).bind fun index => stack.memo.lookup index).getD .other)
  | .collect => { scan with stack := stack.popThroughMark.push .other }
  | .keep count => { scan with stack := stack.popN count }
  | .build count => { scan with stack := (stack.popN count).push .other }
  | .readonly | .nothing | .stop => scan

variable (i index : Nat) (top : Value)

theorem apply_side_effects (scan : Scan) : applySideEffects op i scan = scanEffect op.code.effect op i scan := by
  obtain ⟨code, arg⟩ := op
  cases code <;> rfl

theorem unicode_shows (operand string : List UInt8) (effect : op.code.effect = .unicode)
    (fits : (op.code.layout).Fits op.arg) (arg : argBytes op.arg = some operand) :
    Shows (.text i op.code operand string) ((unicodeOperand op).elim .other fun text => .text i text) := by
  have read : unicodeOperand op = fromUtf8 operand := by
    obtain ⟨code, given⟩ := op
    cases code <;> cases effect
    all_goals
      cases given with
      | bytes bytes =>
          first
            | exact absurd fits id
            | (obtain rfl := Option.some.inj arg; rfl)
      | line line =>
          first
            | exact absurd fits id
            | (obtain rfl := Option.some.inj arg; rfl)
      | _ => cases arg
  rw [read]
  refine ⟨?_, fun shown => ?_⟩
  · cases fromUtf8 operand with
    | none => exact StackValue.noConfusion
    | some text => exact StackValue.noConfusion
  · rw [shown.2]
    rfl

-- The steps the scan follows: no PERSID; memo lines in plain digits; and for a STACK_GLOBAL both operands seen as the
-- strings they are, and not resolved before under a protocol that renames them otherwise.
structure Seen (machine : Machine) (start : Nat) (op : Op) : Prop where
  layout : op.code ≠ .persid
  index : op.code = .put ∨ op.code = .get → ∀ line index, op.arg = .line line → memoIndex line = some index →
    parseUsize line = some index
  operands : op.code = .stackGlobal → ∀ nameAt nameCode nameOperand name moduleAt moduleCode moduleOperand module_ below,
    machine.stack = .text nameAt nameCode nameOperand name :: .text moduleAt moduleCode moduleOperand module_ :: below →
      Shown nameCode nameOperand name ∧ Shown moduleCode moduleOperand module_ ∧
        ∀ earlier ∈ machine.imports, earlier.operands = some (moduleAt, nameAt) →
          (earlier.module_, earlier.name) = findClass (some machine.proto) module_ name

theorem index_agrees {index : Nat} {op : Op} (seen : Seen machine start op)
    (effect : op.code.effect = .put ∨ op.code.effect = .get) (fits : (op.code.layout).Fits op.arg)
    (read : argIndex op.arg = some index) : operandIndex op.arg = some index := by
  cases given : op.arg with
  | int number =>
      rw [given] at read
      exact read
  | line line =>
      rw [given] at read fits
      refine seen.index ?_ line index given read
      obtain ⟨code, arg⟩ := op
      cases code <;> first | exact Or.inl rfl | exact Or.inr rfl | exact absurd fits id | (rcases effect with no | no <;> cases no)
  | none => rw [given] at read; cases read
  | bytes bytes => rw [given] at read; cases read
  | lines module_ attr => rw [given] at read; cases read

theorem resolve_some {operands : Option (Nat × Nat)} (found : machine.resolve operands module_ name = some next) :
    (findClass (some machine.proto) module_ name).1 ≠ [] ∧
      next = { machine with imports := ⟨operands, module_.length + name.length, (findClass (some machine.proto) module_ name).1,
        (findClass (some machine.proto) module_ name).2⟩ :: machine.imports } := by
  simp only [Machine.resolve] at found
  split at found
  · cases found
  · next named => exact ⟨named, (Option.some.inj found).symm⟩

theorem sim_inline (sim : Sim machine scan)
    (found : machine.resolve none module_ name = some next) : Sim next (recordGlobal module_ name scan) := by
  obtain ⟨named, rfl⟩ := resolve_some machine next found
  have class_ : findClass scan.protocol module_ name = findClass (some machine.proto) module_ name := by
    rw [find_class_default, sim.proto]
  refine ⟨sim.stack, sim.memo, sim.proto, fun other member => ?_, fun pair => ?_, ?_⟩
  · rcases List.mem_cons.mp member with rfl | before
    · exact record_global_records class_ named
    · exact record_global_keeps module_ name (sim.records other before)
  · rw [show (recordGlobal module_ name scan).stack = scan.stack from rfl, sim.resolved]
    constructor
    · intro ⟨other, member, pairs⟩
      exact ⟨other, List.mem_cons_of_mem _ member, pairs⟩
    · intro ⟨other, member, pairs⟩
      rcases List.mem_cons.mp member with rfl | before
      · cases pairs
      · exact ⟨other, before, pairs⟩
  · rw [show (recordGlobal module_ name scan).stack = scan.stack from rfl, sim.bytes]
    simp only [operandBytes, Option.isNone_none, true_or, if_true, Nat.add_zero]

theorem sim_push {shown : StackValue} (sim : Sim machine scan)
    (top : Shows value shown) : Sim (machine.push value) (scan.push shown) :=
  sim_stack machine _ scan sim rfl rfl (stack_shows_push _ _ _ value shown sim.stack top) sim.memo

theorem inline_global_reads {machine next : Machine}
    {decode : List UInt8 → Option (List UInt8)} (utf8 : ∀ text decoded, decode text = some decoded → fromUtf8 text = some decoded)
    (found : machine.resolveInline op.arg decode = some next) :
    ∃ module_ name, inlineGlobal op = some (module_, name) ∧ machine.resolve none module_ name = some next := by
  unfold Machine.resolveInline at found
  split at found
  · next moduleLine nameLine given =>
      obtain ⟨module_, readModule, rest⟩ := Option.bind_eq_some_iff.mp found
      obtain ⟨name, readName, resolved⟩ := Option.bind_eq_some_iff.mp rest
      refine ⟨module_, name, ?_, resolved⟩
      rw [inlineGlobal, given]
      simp only [utf8 _ _ readModule, utf8 _ _ readName, Option.bind_some, Option.map_some]
  · cases found

theorem admit_global_cases (stack : PickleStack) (pair : Nat × Nat) (size : Nat)
    (budget : pair ∉ stack.resolved → stack.resolvedBytes + size ≤ maxBytesScanned) :
    (pair ∈ stack.resolved ∧ stack.admitGlobal pair size = (false, stack)) ∨
      (pair ∉ stack.resolved ∧ stack.admitGlobal pair size =
        (true, { stack with resolved := pair :: stack.resolved, resolvedBytes := stack.resolvedBytes + size })) := by
  unfold PickleStack.admitGlobal
  by_cases known : pair ∈ stack.resolved
  · exact Or.inl ⟨known, by rw [if_pos (List.contains_iff_mem.mpr known)]⟩
  · have within := budget known
    have exact_ : Bytes.saturatingAdd stack.resolvedBytes size = stack.resolvedBytes + size :=
      Nat.min_eq_left (Nat.le_trans within (by decide))
    refine Or.inr ⟨known, ?_⟩
    rw [if_neg fun contained => known (List.contains_iff_mem.mp contained), exact_]
    simp only [within, decide_true]

theorem operand_bytes_known (operands : found.operands = some pair)
    (known : ∃ other ∈ earlier, other.operands = some pair) : operandBytes (found :: earlier) = operandBytes earlier := by
  obtain ⟨other, member, same⟩ := known
  have seen : (earlier.any fun other => decide (other.operands = found.operands)) = true :=
    List.any_eq_true.mpr ⟨other, member, decide_eq_true (same.trans operands.symm)⟩
  rw [operandBytes, if_pos (Or.inr seen), Nat.add_zero]

theorem operand_bytes_fresh (operands : found.operands = some pair)
    (fresh : ¬ ∃ other ∈ earlier, other.operands = some pair) :
    operandBytes (found :: earlier) = operandBytes earlier + found.size := by
  rw [operandBytes, if_neg]
  intro either
  rcases either with missing | seen
  · rw [operands] at missing
    cases missing
  · obtain ⟨other, member, same⟩ := List.any_eq_true.mp seen
    exact fresh ⟨other, member, (of_decide_eq_true same).trans operands⟩

theorem sim_stack_global {nameAt moduleAt : Nat} {nameCode moduleCode : Opcode}
    {nameOperand moduleOperand : List UInt8} {below : List Value} (sim : Sim machine scan)
    (top : machine.stack = .text nameAt nameCode nameOperand name :: .text moduleAt moduleCode moduleOperand module_ :: below)
    (nameShown : Shown nameCode nameOperand name) (moduleShown : Shown moduleCode moduleOperand module_)
    (same : ∀ earlier ∈ machine.imports, earlier.operands = some (moduleAt, nameAt) →
      (earlier.module_, earlier.name) = findClass (some machine.proto) module_ name)
    (found : { machine with stack := below }.resolve (some (moduleAt, nameAt)) module_ name = some next)
    (budget : operandBytes next.imports ≤ maxBytesScanned) : Sim next.pushOther (stackGlobal scan) := by
  obtain ⟨named, rfl⟩ := resolve_some _ next found
  simp only at named budget ⊢
  have shows := sim.stack
  rw [top] at shows
  obtain ⟨nameSeen, rest, valuesName, nameTop, restShows⟩ := stack_shows_top _ _ _ _ shows
  obtain ⟨moduleSeen, lower, valuesModule, moduleTop, lowerShows⟩ := stack_shows_top _ _ _ _ restShows
  obtain rfl := nameTop.2 nameShown
  obtain rfl := moduleTop.2 moduleShown
  have values : scan.stack.values = .text nameAt name :: .text moduleAt module_ :: lower := by rw [valuesName, valuesModule]
  have class_ : findClass scan.protocol module_ name = findClass (some machine.proto) module_ name := by
    rw [find_class_default, sim.proto]
  have admitted := admit_global_cases { scan.stack with values := lower } (moduleAt, nameAt) (module_.length + name.length) (by
    intro unknown
    have fresh : ¬ ∃ other ∈ machine.imports, other.operands = some (moduleAt, nameAt) := fun known =>
      unknown ((sim.resolved _).mpr known)
    rw [operand_bytes_fresh rfl fresh, ← sim.bytes] at budget
    exact budget)
  simp only [stackGlobal, values, List.head?_cons, List.drop_succ_cons, List.drop_zero, Option.getD_some, PickleStack.popN]
  rcases admitted with ⟨known, refused⟩ | ⟨unknown, taken⟩
  · rw [refused]
    simp only [Bool.false_eq_true, if_false]
    have before := (sim.resolved _).mp known
    refine sim_push _ _ ⟨lowerShows, sim.memo, sim.proto, fun found member => ?_, fun pair => ?_, ?_⟩
      (shows_other _ StackValue.noConfusion)
    · rcases List.mem_cons.mp member with rfl | earlier
      · obtain ⟨other, there, operands⟩ := before
        obtain ⟨sameModule, sameName⟩ := Prod.mk.inj (same other there operands)
        have recorded := sim.records other there
        unfold Scan.Records at recorded ⊢
        rw [sameModule, sameName] at recorded
        exact recorded
      · exact sim.records found earlier
    · rw [sim.resolved pair]
      constructor
      · intro ⟨found, there, operands⟩
        exact ⟨found, List.mem_cons_of_mem _ there, operands⟩
      · intro ⟨found, there, operands⟩
        rcases List.mem_cons.mp there with rfl | earlier
        · obtain rfl := Option.some.inj operands
          exact before
        · exact ⟨found, earlier, operands⟩
    · rw [operand_bytes_known rfl before]
      exact sim.bytes
  · rw [taken]
    simp only [if_true]
    have before : ¬ ∃ other ∈ machine.imports, other.operands = some (moduleAt, nameAt) := fun known =>
      unknown ((sim.resolved _).mpr known)
    refine sim_push _ _ ⟨lowerShows, sim.memo, sim.proto, fun found member => ?_, fun pair => ?_, ?_⟩
      (shows_other _ StackValue.noConfusion)
    · rcases List.mem_cons.mp member with rfl | earlier
      · exact record_global_records class_ named
      · exact record_global_keeps module_ name (sim.records found earlier)
    · change pair ∈ (moduleAt, nameAt) :: scan.stack.resolved ↔ _
      rw [List.mem_cons, sim.resolved pair]
      constructor
      · intro either
        rcases either with rfl | ⟨found, there, operands⟩
        · exact ⟨_, List.mem_cons_self, rfl⟩
        · exact ⟨found, List.mem_cons_of_mem _ there, operands⟩
      · intro ⟨found, there, operands⟩
        rcases List.mem_cons.mp there with rfl | earlier
        · exact Or.inl (Option.some.inj operands).symm
        · exact Or.inr ⟨found, earlier, operands⟩
    · rw [operand_bytes_fresh rfl before]
      change scan.stack.resolvedBytes + _ = _
      rw [sim.bytes]

theorem pop_mark_some (popped : machine.popMark = some next) :
    ∃ below rest, machine.metastack = below :: rest ∧ next = { machine with stack := below, metastack := rest } := by
  unfold Machine.popMark at popped
  split at popped
  · cases popped
  · next below rest marks => exact ⟨below, rest, marks, (Option.some.inj popped).symm⟩

theorem sim_pop_mark (sim : Sim machine scan) (popped : machine.popMark = some next) :
    Sim next { scan with stack := scan.stack.popThroughMark } := by
  obtain ⟨below, rest, marks, rfl⟩ := pop_mark_some machine next popped
  have shows := sim.stack
  rw [marks] at shows
  exact sim_stack machine _ scan sim rfl rfl (stack_shows_pop_mark _ _ below rest shows) sim.memo

theorem sim_collect {popped : Machine} {scan : Scan} (sim : Sim machine scan) (marks : machine.popMark = some popped) :
    Sim popped.pushOther { scan with stack := scan.stack.popThroughMark.push .other } :=
  sim_push popped _ (sim_pop_mark machine popped scan sim marks) (shows_other _ StackValue.noConfusion)

theorem sim_drop (count : Nat) (sim : Sim machine scan) (enough : count ≤ machine.stack.length) :
    Sim { machine with stack := machine.stack.drop count } { scan with stack := scan.stack.popN count } :=
  sim_stack machine _ scan sim rfl rfl (stack_shows_drop count _ _ _ enough sim.stack) sim.memo

theorem sim_put (sim : Sim machine scan) (there : machine.stack.head? = some top) :
    Sim { machine with memo := memoPut machine.memo index top } { scan with stack := scan.stack.memoPut index } := by
  obtain ⟨below, stack⟩ := List.head?_eq_some_iff.mp there
  have shows := sim.stack
  rw [stack] at shows
  obtain ⟨shown, rest, values, topShown, _⟩ := stack_shows_top _ _ _ _ shows
  have head : scan.stack.values.head? = some shown := by rw [values, List.head?_cons]
  have placed : scan.stack.memoPut index = { scan.stack with memo := memoPut scan.stack.memo index shown } := by
    unfold PickleStack.memoPut
    rw [head]
  rw [placed]
  exact sim_stack machine _ scan sim rfl rfl sim.stack
    (memo_shows_put machine.memo index sim.memo topShown)

theorem sim_get (value : Value) (sim : Sim machine scan) (there : machine.memo.lookup index = some value) :
    Sim (machine.push value) (scan.push ((scan.stack.memo.lookup index).getD .other)) := by
  obtain ⟨shown, found, shows⟩ := memo_shows_lookup _ _ index value sim.memo there
  rw [found]
  exact sim_push machine scan sim shows

theorem sim_dup (sim : Sim machine scan) (there : machine.stack.head? = some top) :
    ∃ shown, scan.stack.values.head? = some shown ∧ Sim (machine.push top) (scan.push shown) := by
  obtain ⟨below, stack⟩ := List.head?_eq_some_iff.mp there
  have shows := sim.stack
  rw [stack] at shows
  obtain ⟨shown, rest, values, topShown, _⟩ := stack_shows_top _ _ _ _ shows
  exact ⟨shown, by rw [values, List.head?_cons], sim_push machine scan sim topShown⟩

theorem memo_shows_length (shown : List (Nat × StackValue)) (all : MemoShows memo shown) : memo.length = shown.length := List.Forall₂.length_eq all

theorem step_simulates (start : Nat) (op : Op) (sim : Sim machine scan)
    (fits : (op.code.layout).Fits op.arg) (seen : Seen machine start op) (moves : machine.step start op = some next)
    (budget : operandBytes next.imports ≤ maxBytesScanned) : Sim next (applySideEffects op start scan) := by
  rw [apply_side_effects]
  cases effect : op.code.effect with
  | proto =>
      simp only [Machine.step, effect] at moves
      cases arg : op.arg with
      | int number =>
          simp only [arg] at moves
          split at moves
          · next small =>
              obtain rfl := Option.some.inj moves
              simp only [scanEffect, arg, if_pos (show number < 256 by omega)]
              exact ⟨sim.stack, sim.memo, rfl, sim.records, sim.resolved, sim.bytes⟩
          · cases moves
      | _ => simp only [arg] at moves; cases moves
  | globalRef =>
      simp only [Machine.step, effect] at moves
      obtain ⟨resolved, found, rfl⟩ := Option.map_eq_some_iff.mp moves
      obtain ⟨module_, name, named, resolves⟩ := inline_global_reads op
        (fun text decoded read => by
          obtain ⟨_, _, rfl⟩ := Option.map_eq_some_iff.mp read
          exact read) found
      simp only [scanEffect, named]
      exact sim_push resolved _ (sim_inline machine resolved scan sim resolves)
        (shows_other _ StackValue.noConfusion)
  | inst =>
      simp only [Machine.step, effect] at moves
      obtain ⟨resolved, found, rest⟩ := Option.bind_eq_some_iff.mp moves
      obtain ⟨popped, marks, rfl⟩ := Option.map_eq_some_iff.mp rest
      obtain ⟨module_, name, named, resolves⟩ := inline_global_reads op (fun text decoded read => by
        split at read
        · next plain =>
            obtain rfl := Option.some.inj read
            exact Bytes.from_utf8_ascii text fun b member => of_decide_eq_true (List.all_eq_true.mp plain b member)
        · cases read) found
      simp only [scanEffect, named]
      exact sim_collect resolved (sim_inline machine resolved scan sim resolves) marks
  | stackGlobal =>
      have code : op.code = .stackGlobal := by
        generalize op.code = code at effect
        cases code <;> first | rfl | cases effect
      simp only [Machine.step, effect] at moves
      split at moves
      · next nameAt nameCode nameOperand name moduleAt moduleCode moduleOperand module_ below top =>
          obtain ⟨resolved, found, rfl⟩ := Option.map_eq_some_iff.mp moves
          obtain ⟨nameShown, moduleShown, same⟩ := seen.operands code _ _ _ _ _ _ _ _ _ top
          exact sim_stack_global machine resolved scan sim top nameShown moduleShown same found budget
      · cases moves
  | unicode =>
      simp only [Machine.step, effect] at moves
      obtain ⟨operand, arg, rest⟩ := Option.bind_eq_some_iff.mp moves
      obtain ⟨string, _, rfl⟩ := Option.map_eq_some_iff.mp rest
      exact sim_push machine scan sim (unicode_shows op start operand string effect fits arg)
  | string =>
      simp only [Machine.step, effect] at moves
      obtain ⟨operand, arg, rest⟩ := Option.bind_eq_some_iff.mp moves
      obtain ⟨string, _, rfl⟩ := Option.map_eq_some_iff.mp rest
      refine sim_push machine scan sim ⟨StackValue.noConfusion, fun shown => ?_⟩
      rw [shown.1] at effect
      cases effect
  | push =>
      simp only [Machine.step, effect] at moves
      obtain rfl := Option.some.inj moves
      exact sim_push machine scan sim (shows_other _ StackValue.noConfusion)
  | mark =>
      simp only [Machine.step, effect] at moves
      obtain rfl := Option.some.inj moves
      exact sim_stack machine _ scan sim rfl rfl (stack_shows_mark _ _ _ sim.stack) sim.memo
  | pop =>
      simp only [Machine.step, effect] at moves
      split at moves
      · next empty =>
          obtain ⟨below, rest, marks, rfl⟩ := pop_mark_some machine next moves
          have shows := sim.stack
          rw [empty, marks] at shows
          exact sim_stack machine _ scan sim rfl rfl (stack_shows_pop_empty _ below rest shows) sim.memo
      · next top below stack =>
          obtain rfl := Option.some.inj moves
          have dropped := sim_drop machine scan 1 sim (by rw [stack]; exact Nat.succ_le_succ (Nat.zero_le _))
          rw [stack] at dropped
          exact dropped
  | popMark =>
      simp only [Machine.step, effect] at moves
      exact sim_pop_mark machine next scan sim moves
  | dup =>
      simp only [Machine.step, effect] at moves
      obtain ⟨top, there, rfl⟩ := Option.map_eq_some_iff.mp moves
      obtain ⟨shown, head, pushed⟩ := sim_dup machine scan top sim there
      simp only [scanEffect, head]
      exact pushed
  | put =>
      simp only [Machine.step, effect] at moves
      obtain ⟨index, read, rest⟩ := Option.bind_eq_some_iff.mp moves
      obtain ⟨top, there, rfl⟩ := Option.map_eq_some_iff.mp rest
      simp only [scanEffect, index_agrees machine seen (Or.inl effect) fits read]
      exact sim_put machine scan index top sim there
  | memoize =>
      simp only [Machine.step, effect] at moves
      obtain ⟨top, there, rfl⟩ := Option.map_eq_some_iff.mp moves
      rw [memo_shows_length _ _ sim.memo]
      exact sim_put machine scan scan.stack.memo.length top sim there
  | get =>
      simp only [Machine.step, effect] at moves
      obtain ⟨index, read, rest⟩ := Option.bind_eq_some_iff.mp moves
      obtain ⟨value, there, rfl⟩ := Option.map_eq_some_iff.mp rest
      simp only [scanEffect, index_agrees machine seen (Or.inr effect) fits read, Option.bind_some]
      exact sim_get machine scan index value sim there
  | collect =>
      simp only [Machine.step, effect] at moves
      obtain ⟨popped, marks, rfl⟩ := Option.map_eq_some_iff.mp moves
      exact sim_collect machine sim marks
  | batch =>
      simp only [Machine.step, effect] at moves
      obtain ⟨popped, marks, rest⟩ := Option.bind_eq_some_iff.mp moves
      obtain ⟨_, _, rfl⟩ := Option.map_eq_some_iff.mp rest
      exact sim_pop_mark machine popped scan sim marks
  | keep count =>
      simp only [Machine.step, effect] at moves
      split at moves
      · next enough =>
          obtain rfl := Option.some.inj moves
          exact sim_drop machine scan count sim (Nat.le_of_lt enough)
      · cases moves
  | build count =>
      simp only [Machine.step, effect] at moves
      split at moves
      · next enough =>
          obtain rfl := Option.some.inj moves
          exact sim_push _ _ (sim_drop machine scan count sim enough) (shows_other _ StackValue.noConfusion)
      · cases moves
  | readonly =>
      simp only [Machine.step, effect] at moves
      split at moves
      · obtain rfl := Option.some.inj moves
        exact sim
      · cases moves
  | nothing =>
      simp only [Machine.step, effect] at moves
      obtain rfl := Option.some.inj moves
      exact sim
  | stop =>
      simp only [Machine.step, effect] at moves
      cases moves

end Filefacts.Pickle
