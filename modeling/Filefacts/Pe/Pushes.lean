import Filefacts.Bytes
import Filefacts.Lib.Known
import Mathlib.Data.List.Forall2

set_option autoImplicit false

namespace Filefacts.Pushes

-- Instructions as the decoder yields them, with what is read of each. The
-- general registers are numbered EAX, ECX, EDX, EBX, ESP, EBP, ESI, EDI.
inductive Register where
  | none
  | gpr8 (slot : Fin 8) (high : Bool)
  | gpr16 (slot : Fin 8)
  | gpr32 (slot : Fin 8)
  | other (number : Nat)
deriving DecidableEq, Repr

inductive Segment where
  | es
  | cs
  | ss
  | ds
  | fs
  | gs
deriving DecidableEq, Repr

inductive Mnemonic where
  | push
  | mov
  | xor
  | add
  | sub
  | or
  | and
  | other
deriving DecidableEq, Repr

inductive FlowControl where
  | next
  | other
deriving DecidableEq, Repr

inductive OpAccess where
  | none
  | read
  | condRead
  | write
  | condWrite
  | readWrite
  | readCondWrite
  | noMemAccess
deriving DecidableEq, Repr

structure MemoryOperand where
  segment : Segment
  base : Register
  index : Register
  displacement32 : UInt32
  size : Nat
deriving DecidableEq, Repr

inductive Operand where
  | immediate8to32 (value : UInt64)
  | immediate32 (value : UInt64)
  | register (register : Register)
  | memory (memory : MemoryOperand)
  | other
deriving DecidableEq, Repr

structure Instruction where
  invalid : Bool := false
  flowControl : FlowControl := .next
  mnemonic : Mnemonic
  operands : List Operand
  usedRegisters : List (Register × OpAccess) := []
deriving DecidableEq, Repr

def Instruction.operand (ins : Instruction) (n : Nat) : Operand := ins.operands.getD n .other

inductive HashSource where
  | immediate
  | constantFolded
deriving DecidableEq, Repr

abbrev Value := Option (UInt32 × HashSource)

abbrev Registers := Fin 8 → Value

def esp : Fin 8 := 4

def fullRegister32 : Register → Register
  | .gpr8 slot _ => .gpr32 slot
  | .gpr16 slot => .gpr32 slot
  | register => register

def gpr32 (register : Register) : Option (Fin 8) :=
  match fullRegister32 register with
  | .gpr32 slot => some slot
  | _ => none

def read (regs : Registers) (register : Register) : Value := (gpr32 register).bind regs

def initialData (vaToFileOffset : Nat → Option Nat) (bytes : List UInt8) (va : UInt32) : Option UInt32 := do
  let offset ← vaToFileOffset va.toNat
  let value ← Bytes.u32le bytes offset
  some (UInt32.ofNat value)

def MemoryOperand.absolute (memory : MemoryOperand) : Bool := memory.base = .none ∧ memory.index = .none ∧ memory.size = 4

section Loop

variable (dataAt : UInt32 → Option UInt32)

-- A constant operand: an immediate, a register holding one or initialized data.
def constant (regs : Registers) : Operand → Value
  | .immediate8to32 value => some (value.toUInt32, .immediate)
  | .immediate32 value => some (value.toUInt32, .immediate)
  | .register register => read regs register
  | .memory memory => if memory.absolute then (dataAt memory.displacement32).map fun value => (value, .constantFolded) else none
  | .other => none

def destination (ins : Instruction) : Option (Fin 8) :=
  match ins.operands.head? with
  | some (.register (.gpr32 slot)) => some slot
  | _ => none

def arithmetic (mnemonic : Mnemonic) (a b : UInt32) : UInt32 :=
  match mnemonic with
  | .xor => a ^^^ b
  | .add => a + b
  | .sub => a - b
  | .or => a ||| b
  | _ => a &&& b

def isArithmetic (mnemonic : Mnemonic) : Bool := mnemonic ∈ [.xor, .add, .sub, .or, .and]

def foldedValue (regs : Registers) (ins : Instruction) (slot : Fin 8) : Value :=
  if ins.mnemonic = .mov then (constant dataAt regs (ins.operand 1)).map fun value => (value.1, .constantFolded)
  else if (ins.mnemonic = .xor ∨ ins.mnemonic = .sub) ∧ ins.operand 1 = .register (.gpr32 slot) then some (0, .constantFolded)
  else
    match regs slot, constant dataAt regs (ins.operand 1) with
    | some (a, _), some (b, _) => some (arithmetic ins.mnemonic a b, .constantFolded)
    | _, _ => none

def folds (ins : Instruction) : Option (Fin 8) :=
  if ins.mnemonic = .mov ∨ isArithmetic ins.mnemonic then destination ins else none

def forgets (ins : Instruction) (slot : Fin 8) : Bool :=
  ins.usedRegisters.any fun used => used.2 ∈ [.write, .condWrite, .readWrite] ∧ gpr32 used.1 = some slot

def advance (regs : Registers) (ins : Instruction) : Registers :=
  match folds ins with
  | some slot => Function.update regs slot (foldedValue dataAt regs ins slot)
  | none => fun slot => if forgets ins slot then none else regs slot

def pushesFrom : List Instruction → Registers → List Value → Option (List Value)
  | [], _, pushes => some pushes
  | ins :: rest, regs, pushes =>
      if ins.invalid ∨ ins.flowControl ≠ .next then none
      else if ins.mnemonic = .push then pushesFrom rest regs (pushes ++ [constant dataAt regs (ins.operand 0)])
      else pushesFrom rest (advance dataAt regs ins) pushes

-- The decoder yields what it decodes from an address to the end of the code,
-- and its position then.
def straightLinePushes (decode : List UInt8 → Nat → List Instruction × Nat) (code : List UInt8) (ip : Nat) : Option (List Value) :=
  match pushesFrom dataAt (decode code ip).1 (fun _ => none) [] with
  | none => none
  | some pushes => if (decode code ip).2 = code.length then some pushes else none

end Loop

structure Machine where
  regs : Fin 8 → UInt32
  memory : UInt32 → UInt8

def Machine.dword (machine : Machine) (address : UInt32) : UInt32 :=
  (machine.memory address).toUInt32 + (machine.memory (address + 1)).toUInt32 * 0x100 +
    (machine.memory (address + 2)).toUInt32 * 0x10000 + (machine.memory (address + 3)).toUInt32 * 0x1000000

structure Pushed where
  width : Nat
  value : UInt32
deriving DecidableEq, Repr

def Machine.push (machine : Machine) (pushed : Pushed) : Machine :=
  let top := machine.regs esp - UInt32.ofNat pushed.width
  { regs := Function.update machine.regs esp top
    memory := fun address =>
      if (address - top).toNat < pushed.width then (pushed.value >>> ((address - top) * 8)).toUInt8 else machine.memory address }

section Execution

variable (bases : Segment → UInt32)

-- What an operand holds; of an operand not spelled out here it may be anything.
def Holds (machine : Machine) (value : UInt32) : Operand → Prop
  | .immediate8to32 number => value = number.toUInt32
  | .immediate32 number => value = number.toUInt32
  | .register (.gpr32 slot) => value = machine.regs slot
  | .register (.gpr16 slot) => value = machine.regs slot &&& 0xFFFF
  | .memory memory => memory.absolute = true → value = machine.dword (bases memory.segment + memory.displacement32)
  | _ => True

def Wide (width : Nat) : Operand → Prop
  | .immediate8to32 _ => width = 4
  | .immediate32 _ => width = 4
  | .register (.gpr32 _) => width = 4
  | .register (.gpr16 _) => width = 2
  | .memory memory => width = memory.size
  | _ => width = 2 ∨ width = 4

def writes (access : OpAccess) : Bool := access ∈ [.write, .condWrite, .readWrite, .readCondWrite]

-- A folded instruction sets its destination. Any other changes no register
-- but those its table says it writes, and memory in any way.
structure PushStep (ins : Instruction) (machine next : Machine) (pushed : Pushed) : Prop where
  holds : Holds bases machine pushed.value (ins.operand 0)
  wide : Wide pushed.width (ins.operand 0)
  next : next = machine.push pushed

structure FoldStep (ins : Instruction) (slot : Fin 8) (machine next : Machine) (value : UInt32) : Prop where
  holds : Holds bases machine value (ins.operand 1)
  next : next = { machine with
    regs := Function.update machine.regs slot
      (if ins.mnemonic = .mov then value else arithmetic ins.mnemonic (machine.regs slot) value) }

def TableStep (ins : Instruction) (machine next : Machine) : Prop :=
  ∀ slot, (∀ used ∈ ins.usedRegisters, writes used.2 = true → gpr32 used.1 ≠ some slot) → next.regs slot = machine.regs slot

def Step (ins : Instruction) (machine next : Machine) : Prop :=
  match folds ins with
  | some slot => ∃ value, FoldStep bases ins slot machine next value
  | none => TableStep ins machine next

variable (dataAt : UInt32 → Option UInt32) (good : Registers → Instruction → Machine → Prop)

-- A run of the instructions beside the loop's registers, each of its steps
-- taken in a good state, and what it pushes.
inductive Run : Registers → List Instruction → Machine → List Pushed → Prop where
  | done (regs : Registers) (machine : Machine) : Run regs [] machine []
  | push (regs : Registers) (ins : Instruction) (rest : List Instruction) (machine next : Machine) (pushed : Pushed) (out : List Pushed)
      (isPush : ins.mnemonic = .push) (state : good regs ins machine) (step : PushStep bases ins machine next pushed)
      (after : Run regs rest next out) : Run regs (ins :: rest) machine (pushed :: out)
  | step (regs : Registers) (ins : Instruction) (rest : List Instruction) (machine next : Machine) (out : List Pushed)
      (other : ins.mnemonic ≠ .push) (state : good regs ins machine) (step : Step bases ins machine next)
      (after : Run (advance dataAt regs ins) rest next out) : Run regs (ins :: rest) machine out

end Execution

def Knows (regs : Registers) (machine : Machine) : Prop := Known.Agrees Prod.fst regs machine.regs

def taken (ins : Instruction) : Option Operand :=
  if ins.mnemonic = .push then some (ins.operand 0) else (folds ins).map fun _ => ins.operand 1

-- A state in which the loop keeps nothing stale: a push while it holds no
-- constant for ESP, a register taken whole, a dword that is still the file's
-- and nothing held for a register that is written after a read, if at all.
structure Faithful (bases : Segment → UInt32) (dataAt : UInt32 → Option UInt32) (regs : Registers) (ins : Instruction)
    (machine : Machine) : Prop where
  stack : ins.mnemonic = .push → regs esp = none
  whole : ∀ register, taken ins = some (.register register) → (∃ slot, register = .gpr32 slot) ∨ read regs register = none
  data : ∀ memory value, taken ins = some (.memory memory) → memory.absolute = true → dataAt memory.displacement32 = some value →
    machine.dword (bases memory.segment + memory.displacement32) = value
  conditional : ins.mnemonic ≠ .push → folds ins = none → ∀ used ∈ ins.usedRegisters, used.2 = .readCondWrite →
    ∀ slot, gpr32 used.1 = some slot → regs slot = none ∨ forgets ins slot = true

section Soundness

variable (bases : Segment → UInt32) (dataAt : UInt32 → Option UInt32)

variable (regs : Registers) (ins : Instruction) (machine : Machine)

theorem constant_holds (knows : Knows regs machine)
    (faithful : Faithful bases dataAt regs ins machine) {operand : Operand} (takes : taken ins = some operand) {value : UInt32 × HashSource}
    (found : constant dataAt regs operand = some value) :
    (∀ content, Holds bases machine content operand → content = value.1) ∧ ∀ width, Wide width operand → width = 4 := by
  cases operand with
  | immediate8to32 number =>
      cases found
      exact ⟨fun content holds => holds, fun width wide => wide⟩
  | immediate32 number =>
      cases found
      exact ⟨fun content holds => holds, fun width wide => wide⟩
  | register register =>
      rcases faithful.whole register takes with ⟨slot, rfl⟩ | nothing
      · have held := knows slot value found
        exact ⟨fun content holds => holds.trans held.symm, fun width wide => wide⟩
      · rw [constant, nothing] at found
        cases found
  | memory memory =>
      rw [constant] at found
      by_cases absolute : memory.absolute = true
      · rw [if_pos absolute] at found
        obtain ⟨content, here, rfl⟩ := Option.map_eq_some_iff.mp found
        refine ⟨fun other holds => ?_, fun width wide => ?_⟩
        · rw [holds absolute]
          exact faithful.data memory content takes absolute here
        · have size := of_decide_eq_true absolute
          exact wide.trans size.2.2
      · rw [if_neg absolute] at found
        cases found
  | other => cases found

theorem arithmetic_self (mnemonic : Mnemonic) (clears : mnemonic = .xor ∨ mnemonic = .sub) (a : UInt32) : arithmetic mnemonic a a = 0 := by
  rcases clears with rfl | rfl
  · exact UInt32.xor_self
  · exact UInt32.sub_self a

theorem folded_value_holds (slot : Fin 8) (machine : Machine) (knows : Knows regs machine)
    (faithful : Faithful bases dataAt regs ins machine) (other : ins.mnemonic ≠ .push) (dest : folds ins = some slot) (content : UInt32)
    (holds : Holds bases machine content (ins.operand 1)) (value : UInt32 × HashSource)
    (found : foldedValue dataAt regs ins slot = some value) :
    value.1 = if ins.mnemonic = .mov then content else arithmetic ins.mnemonic (machine.regs slot) content := by
  have takes : taken ins = some (ins.operand 1) := by rw [taken, if_neg other, dest, Option.map_some]
  rw [foldedValue] at found
  by_cases move : ins.mnemonic = .mov
  · rw [if_pos move] at found ⊢
    obtain ⟨held, here, rfl⟩ := Option.map_eq_some_iff.mp found
    exact ((constant_holds bases dataAt regs ins machine knows faithful takes here).1 content holds).symm
  · rw [if_neg move] at found ⊢
    by_cases clears : (ins.mnemonic = .xor ∨ ins.mnemonic = .sub) ∧ ins.operand 1 = .register (.gpr32 slot)
    · rw [if_pos clears] at found
      cases found
      rw [clears.2] at holds
      rw [holds, arithmetic_self _ clears.1]
    · rw [if_neg clears] at found
      cases first : regs slot with
      | none =>
          rw [first] at found
          cases found
      | some left =>
          cases second : constant dataAt regs (ins.operand 1) with
          | none =>
              rw [first, second] at found
              cases found
          | some right =>
              rw [first, second] at found
              cases found
              rw [← knows slot left first, (constant_holds bases dataAt regs ins machine knows faithful takes second).1 content holds]

theorem push_knows (pushed : Pushed) (knows : Knows regs machine) (stack : regs esp = none) :
    Knows regs (machine.push pushed) := by
  refine Known.agrees_forget Prod.fst regs _ knows fun slot held here => ⟨here, ?_⟩
  have apart : slot ≠ esp := fun same => by
    rw [same, stack] at here
    cases here
  exact Function.update_of_ne apart _ _

theorem writes_forgotten (access : OpAccess) (written : writes access = true) (sure : access ≠ .readCondWrite) :
    access ∈ [OpAccess.write, .condWrite, .readWrite] := by
  rcases List.mem_append.mp (show access ∈ [OpAccess.write, .condWrite, .readWrite] ++ [.readCondWrite] from of_decide_eq_true written)
    with forgotten | last
  · exact forgotten
  · exact absurd (List.mem_singleton.mp last) sure

theorem step_knows (next : Machine) (knows : Knows regs machine)
    (faithful : Faithful bases dataAt regs ins machine) (other : ins.mnemonic ≠ .push) (step : Step bases ins machine next) :
    Knows (advance dataAt regs ins) next := by
  rw [Step] at step
  rw [advance]
  cases dest : folds ins with
  | some slot =>
      rw [dest] at step
      obtain ⟨content, holds, rfl⟩ := step
      exact Known.agrees_learn Prod.fst regs machine.regs knows slot _ _
        (folded_value_holds bases dataAt regs ins slot machine knows faithful other dest content holds)
  | none =>
      rw [dest] at step
      refine Known.agrees_forget Prod.fst _ _ knows fun slot held here => ?_
      dsimp only at here
      by_cases forgotten : forgets ins slot = true
      · rw [if_pos forgotten] at here
        cases here
      · rw [if_neg forgotten] at here
        refine ⟨here, step slot fun used member written named => ?_⟩
        by_cases conditional : used.2 = .readCondWrite
        · rcases faithful.conditional other dest used member conditional slot named with nothing | forgets
          · rw [nothing] at here
            cases here
          · exact forgotten forgets
        · refine forgotten (List.any_eq_true.mpr ⟨used, member, ?_⟩)
          exact decide_eq_true ⟨writes_forgotten used.2 written conditional, named⟩

def Right (reported : Value) (pushed : Pushed) : Prop := ∀ value, reported = some value → pushed = { width := 4, value := value.1 }

theorem run_right (code : List Instruction) (machine : Machine) (out : List Pushed)
    (run : Run bases dataAt (Faithful bases dataAt) regs code machine out) (knows : Knows regs machine) :
    ∀ before reported, pushesFrom dataAt code regs before = some reported →
      ∃ found, reported = before ++ found ∧ List.Forall₂ Right found out := by
  induction run with
  | done regs machine =>
      intro before reported ends
      cases ends
      exact ⟨[], (List.append_nil _).symm, List.Forall₂.nil⟩
  | push regs ins rest machine next pushed out isPush state step after ih =>
      intro before reported continues
      rw [pushesFrom] at continues
      by_cases stops : ins.invalid = true ∨ ins.flowControl ≠ .next
      · rw [if_pos stops] at continues
        cases continues
      · rw [if_neg stops, if_pos isPush] at continues
        obtain ⟨holds, wide, rfl⟩ := step
        obtain ⟨found, split, right⟩ := ih (push_knows regs machine pushed knows (state.stack isPush)) _ _ continues
        have takes : taken ins = some (ins.operand 0) := if_pos isPush
        refine ⟨constant dataAt regs (ins.operand 0) :: found, ?_, List.Forall₂.cons (fun value here => ?_) right⟩
        · rw [split, List.append_assoc, List.singleton_append]
        · have exact_ := constant_holds bases dataAt regs ins machine knows state takes here
          rw [← exact_.1 pushed.value holds, ← exact_.2 pushed.width wide]
  | step regs ins rest machine next out other state step after ih =>
      intro before reported continues
      rw [pushesFrom] at continues
      by_cases stops : ins.invalid = true ∨ ins.flowControl ≠ .next
      · rw [if_pos stops] at continues
        cases continues
      · rw [if_neg stops, if_neg other] at continues
        exact ih (step_knows bases dataAt regs ins machine next knows state other step) before reported continues

-- In a run from any registers and memory whose steps are all faithful, a push
-- reported with a constant pushes it as a dword.
theorem straight_line_pushes_right (decode : List UInt8 → Nat → List Instruction × Nat) (code : List UInt8) (ip : Nat)
    (machine : Machine) (out : List Pushed) (reported : List Value)
    (reports : straightLinePushes dataAt decode code ip = some reported)
    (run : Run bases dataAt (Faithful bases dataAt) (fun _ => none) (decode code ip).1 machine out) :
    reported.length = out.length ∧
      ∀ (k : Nat) (value : UInt32) (source : HashSource), reported[k]? = some (some (value, source)) →
        out[k]? = some { width := 4, value } := by
  rw [straightLinePushes] at reports
  cases found : pushesFrom dataAt (decode code ip).1 (fun _ => none) [] with
  | none =>
      rw [found] at reports
      cases reports
  | some pushes =>
      rw [found] at reports
      obtain ⟨-, same⟩ := Option.ite_none_right_eq_some.mp reports
      obtain rfl := Option.some.inj same
      obtain ⟨all, split, right⟩ := run_right bases dataAt _ _ machine out run (Known.agrees_nothing Prod.fst machine.regs) [] _ found
      rw [List.nil_append] at split
      rw [split]
      refine ⟨right.length_eq, fun k value source here => ?_⟩
      obtain ⟨inside, holds⟩ := List.getElem?_eq_some_iff.mp here
      have pushed : k < out.length := right.length_eq ▸ inside
      have exact_ := right.get inside pushed (value, source) holds
      exact List.getElem?_eq_some_iff.mpr ⟨pushed, exact_⟩

end Soundness

def movEcx : Instruction := { mnemonic := .mov, operands := [.register (.gpr32 1), .immediate32 5] }

def pushEcx : Instruction := { mnemonic := .push, operands := [.register (.gpr32 1)] }

def movPush : List UInt8 := [0xb9, 5, 0, 0, 0, 0x51]

def decodeMovPush (code : List UInt8) (_ip : Nat) : List Instruction × Nat := ([movEcx, pushEcx], code.length)

def blank : Machine := { regs := fun _ => 0, memory := fun _ => 0 }

theorem straight_line_pushes_right_mov :
    ∃ out, Run (fun _ => 0) (fun _ => none) (Faithful (fun _ => 0) fun _ => none) (fun _ => none) (decodeMovPush movPush 0).1 blank out ∧
      out[0]? = some { width := 4, value := 5 } := by
  have moves : Faithful (fun _ => 0) (fun _ => none) (fun _ => none) movEcx blank :=
    { stack := fun isPush => by cases isPush
      whole := fun register takes => by cases takes
      data := fun memory value takes => by cases takes
      conditional := fun _ free => by cases free }
  have pushes : Faithful (fun _ => 0) (fun _ => none) (advance (fun _ => none) (fun _ => none) movEcx) pushEcx
      { blank with regs := Function.update blank.regs 1 5 } :=
    { stack := fun _ => rfl
      whole := fun register takes => by
        cases takes
        exact Or.inl ⟨1, rfl⟩
      data := fun memory value takes => by cases takes
      conditional := fun other => absurd rfl other }
  have run : Run (fun _ => 0) (fun _ => none) (Faithful (fun _ => 0) fun _ => none) (fun _ => none) (decodeMovPush movPush 0).1 blank
      [{ width := 4, value := 5 }] :=
    Run.step _ _ _ _ _ _ (by decide) moves ⟨5, rfl, rfl⟩ (Run.push _ _ _ _ _ _ _ rfl pushes ⟨rfl, rfl, rfl⟩ (Run.done _ _))
  exact ⟨_, run, (straight_line_pushes_right (fun _ => 0) (fun _ => none) decodeMovPush movPush 0 blank _
    [some (5, .constantFolded)] rfl run).2 0 5 .constantFolded rfl⟩

def Loaded (dataAt : UInt32 → Option UInt32) (machine : Machine) : Prop :=
  ∀ address value, dataAt address = some value → machine.dword address = value

def movEsp : Instruction := { mnemonic := .mov, operands := [.register (.gpr32 4), .immediate32 0x1000] }

def pushOne : Instruction := { mnemonic := .push, operands := [.immediate8to32 1] }

def pushEsp : Instruction := { mnemonic := .push, operands := [.register (.gpr32 4)] }

def stackCode : List UInt8 := [0xbc, 0, 0x10, 0, 0, 0x6a, 1, 0x54]

def decodeStackCode (code : List UInt8) (_ip : Nat) : List Instruction × Nat := ([movEsp, pushOne, pushEsp], code.length)

theorem push_keeps_esp :
    ¬ ∀ (dataAt : UInt32 → Option UInt32) (decode : List UInt8 → Nat → List Instruction × Nat) (code : List UInt8) (ip : Nat)
      (machine : Machine) (out : List Pushed) (reported : List Value), Loaded dataAt machine →
        straightLinePushes dataAt decode code ip = some reported →
        Run (fun _ => 0) dataAt (fun _ _ _ => True) (fun _ => none) (decode code ip).1 machine out →
        ∀ (k : Nat) (value : UInt32) (source : HashSource), reported[k]? = some (some (value, source)) →
          out[k]? = some { width := 4, value } := by
  intro claimed
  have run : Run (fun _ => 0) (fun _ => none) (fun _ _ _ => True) (fun _ => none) (decodeStackCode stackCode 0).1 blank
      [{ width := 4, value := 1 }, { width := 4, value := 0xFFC }] :=
    Run.step _ _ _ _ _ _ (by decide) trivial ⟨0x1000, rfl, rfl⟩
      (Run.push _ _ _ _ _ _ _ rfl trivial ⟨rfl, rfl, rfl⟩ (Run.push _ _ _ _ _ _ _ rfl trivial ⟨rfl, rfl, rfl⟩ (Run.done _ _)))
  have pushed := claimed (fun _ => none) decodeStackCode stackCode 0 blank _
    [some (1, .immediate), some (0x1000, .constantFolded)] (fun address value held => by cases held) rfl run 1 0x1000 .constantFolded rfl
  revert pushed
  decide

end Filefacts.Pushes
