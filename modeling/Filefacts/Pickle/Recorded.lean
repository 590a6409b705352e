import Filefacts.Pickle.Simulation

set_option autoImplicit false

namespace Filefacts.Pickle

open Filefacts.Bytes (ascii)

variable (scan : Scan) (found : Import)

theorem stack_global_keeps (before : scan.Records found) : (stackGlobal scan).Records found := by
  unfold stackGlobal
  simp only
  split
  · next moduleAt module_ attrAt attr _ _ =>
      split
      · exact record_global_keeps module_ attr before
      · exact before
  · exact before

theorem apply_side_effects_keeps (op : Op) (i : Nat) (scan : Scan) (found : Import) (before : scan.Records found) :
    (applySideEffects op i scan).Records found := by
  rw [apply_side_effects]
  cases op.code.effect with
  | proto =>
      simp only [scanEffect]
      cases op.arg <;> exact before
  | globalRef =>
      simp only [scanEffect]
      cases inlineGlobal op with
      | none => exact before
      | some names => exact record_global_keeps names.1 names.2 before
  | inst =>
      simp only [scanEffect]
      cases inlineGlobal op with
      | none => exact before
      | some names => exact record_global_keeps names.1 names.2 before
  | stackGlobal => exact stack_global_keeps scan found before
  | dup =>
      simp only [scanEffect]
      cases scan.stack.values.head? <;> exact before
  | put =>
      simp only [scanEffect]
      cases operandIndex op.arg <;> exact before
  | _ => exact before

variable (bytes : List UInt8) (machine next : Machine)

theorem scan_from_keeps (fuel i streamsLeft : Nat) (scan : Scan) (found : Import)
    (before : scan.Records found) : (scanFrom bytes fuel i streamsLeft scan).Records found := by
  induction fuel generalizing i streamsLeft scan with
  | zero => exact before
  | succ fuel ih =>
      unfold scanFrom
      cases decode bytes i with
      | none => exact before
      | some read =>
          obtain ⟨op, after⟩ := read
          simp only
          have kept : (readOp op i scan).Records found := apply_side_effects_keeps op i _ found before
          split
          · exact before
          · split
            · split
              · exact kept
              · split
                · exact kept
                · exact ih after _ _ kept
            · exact ih after streamsLeft _ kept

theorem operand_bytes_grow (earlier : List Import) : operandBytes earlier ≤ operandBytes (found :: earlier) := by
  rw [operandBytes]
  exact Nat.le_add_right _ _

theorem pop_mark_imports (popped : machine.popMark = some next) : next.imports = machine.imports := by
  obtain ⟨below, rest, _, rfl⟩ := pop_mark_some machine next popped
  rfl

theorem resolve_grows {operands : Option (Nat × Nat)} {module_ name : List UInt8}
    (found : machine.resolve operands module_ name = some next) : operandBytes machine.imports ≤ operandBytes next.imports := by
  obtain ⟨_, rfl⟩ := resolve_some machine next found
  exact operand_bytes_grow _ _

theorem resolve_inline_grows (arg : Arg) (read : List UInt8 → Option (List UInt8))
    (found : machine.resolveInline arg read = some next) : operandBytes machine.imports ≤ operandBytes next.imports := by
  unfold Machine.resolveInline at found
  split at found
  · obtain ⟨module_, _, rest⟩ := Option.bind_eq_some_iff.mp found
    obtain ⟨name, _, resolved⟩ := Option.bind_eq_some_iff.mp rest
    exact resolve_grows machine next resolved
  · cases found

theorem step_imports (start : Nat) (op : Op) (moves : machine.step start op = some next)
    (plain : op.code.effect ≠ .globalRef ∧ op.code.effect ≠ .inst ∧ op.code.effect ≠ .stackGlobal) :
    next.imports = machine.imports := by
  unfold Machine.step at moves
  cases effect : op.code.effect with
  | globalRef => exact absurd effect plain.1
  | inst => exact absurd effect plain.2.1
  | stackGlobal => exact absurd effect plain.2.2
  | proto =>
      simp only [effect] at moves
      split at moves
      · split at moves
        · obtain rfl := Option.some.inj moves
          rfl
        · cases moves
      · cases moves
  | unicode =>
      simp only [effect] at moves
      obtain ⟨_, _, rest⟩ := Option.bind_eq_some_iff.mp moves
      obtain ⟨_, _, rfl⟩ := Option.map_eq_some_iff.mp rest
      rfl
  | string =>
      simp only [effect] at moves
      obtain ⟨_, _, rest⟩ := Option.bind_eq_some_iff.mp moves
      obtain ⟨_, _, rfl⟩ := Option.map_eq_some_iff.mp rest
      rfl
  | pop =>
      simp only [effect] at moves
      split at moves
      · exact pop_mark_imports machine next moves
      · obtain rfl := Option.some.inj moves
        rfl
  | popMark =>
      simp only [effect] at moves
      exact pop_mark_imports machine next moves
  | dup =>
      simp only [effect] at moves
      obtain ⟨_, _, rfl⟩ := Option.map_eq_some_iff.mp moves
      rfl
  | put =>
      simp only [effect] at moves
      obtain ⟨_, _, rest⟩ := Option.bind_eq_some_iff.mp moves
      obtain ⟨_, _, rfl⟩ := Option.map_eq_some_iff.mp rest
      rfl
  | memoize =>
      simp only [effect] at moves
      obtain ⟨_, _, rfl⟩ := Option.map_eq_some_iff.mp moves
      rfl
  | get =>
      simp only [effect] at moves
      obtain ⟨_, _, rest⟩ := Option.bind_eq_some_iff.mp moves
      obtain ⟨_, _, rfl⟩ := Option.map_eq_some_iff.mp rest
      rfl
  | collect =>
      simp only [effect] at moves
      obtain ⟨popped, marks, rfl⟩ := Option.map_eq_some_iff.mp moves
      exact pop_mark_imports machine popped marks
  | batch =>
      simp only [effect] at moves
      obtain ⟨popped, marks, rest⟩ := Option.bind_eq_some_iff.mp moves
      obtain ⟨_, _, rfl⟩ := Option.map_eq_some_iff.mp rest
      exact pop_mark_imports machine popped marks
  | readonly =>
      simp only [effect] at moves
      split at moves
      · obtain rfl := Option.some.inj moves
        rfl
      · cases moves
  | keep count =>
      simp only [effect] at moves
      split at moves
      · obtain rfl := Option.some.inj moves
        rfl
      · cases moves
  | build count =>
      simp only [effect] at moves
      split at moves
      · obtain rfl := Option.some.inj moves
        rfl
      · cases moves
  | stop =>
      simp only [effect] at moves
      cases moves
  | _ =>
      simp only [effect] at moves
      obtain rfl := Option.some.inj moves
      rfl

theorem step_grows (start : Nat) (op : Op) (moves : machine.step start op = some next) :
    operandBytes machine.imports ≤ operandBytes next.imports := by
  by_cases plain : op.code.effect ≠ .globalRef ∧ op.code.effect ≠ .inst ∧ op.code.effect ≠ .stackGlobal
  · rw [step_imports machine next start op moves plain]
  · unfold Machine.step at moves
    cases effect : op.code.effect with
    | globalRef =>
        simp only [effect] at moves
        obtain ⟨resolved, found, rfl⟩ := Option.map_eq_some_iff.mp moves
        exact resolve_inline_grows machine resolved _ _ found
    | inst =>
        simp only [effect] at moves
        obtain ⟨resolved, found, rest⟩ := Option.bind_eq_some_iff.mp moves
        obtain ⟨popped, marks, rfl⟩ := Option.map_eq_some_iff.mp rest
        have grown := resolve_inline_grows machine resolved _ _ found
        rw [← pop_mark_imports resolved popped marks] at grown
        exact grown
    | stackGlobal =>
        simp only [effect] at moves
        split at moves
        · next _ _ _ _ _ _ _ _ below _ =>
            obtain ⟨resolved, found, rfl⟩ := Option.map_eq_some_iff.mp moves
            exact resolve_grows { machine with stack := below } resolved found
        · cases moves
    | _ => exact absurd (by rw [effect]; exact ⟨Effect.noConfusion, Effect.noConfusion, Effect.noConfusion⟩) plain

theorem runs_grow {condition : Machine → Nat → Op → Prop} {bytes : List UInt8} {machine last : Machine} {pos stop : Nat}
    (run : Runs condition bytes machine pos last stop) :
    operandBytes machine.imports ≤ operandBytes last.imports ∧ pos ≤ stop := by
  induction run with
  | refl machine pos => exact ⟨Nat.le_refl _, Nat.le_refl _⟩
  | step op read _ moves _ ih =>
      have forward := (decode_spec 0 read).1
      exact ⟨Nat.le_trans (step_grows _ _ _ op moves) ih.1, by omega⟩

theorem layout_operand (code : Opcode) (plain : code ≠ .persid) : code.layout = code.operand := by
  cases code <;> first | rfl | exact absurd rfl plain

theorem step_supported (start : Nat) (op : Op) (moves : machine.step start op = some next) :
    unsupportedProto op = false ∧ op.code ≠ .stop := by
  unfold unsupportedProto
  constructor
  · split
    · next number arg =>
        by_cases proto : op.code = .proto
        · unfold Machine.step at moves
          rw [proto, arg] at moves
          simp only [Opcode.effect] at moves
          split at moves
          · next small => simp only [proto, decide_true, Bool.true_and, decide_eq_false_iff_not]; omega
          · cases moves
        · simp only [proto, decide_false, Bool.false_and]
    · rfl
  · intro stop
    unfold Machine.step at moves
    rw [stop] at moves
    cases moves

theorem scan_follows (limit : Nat) (machine last : Machine) (pos stop : Nat)
    (run : Runs Seen bytes machine pos last stop) (within : stop ≤ limit)
    (budget : operandBytes last.imports ≤ maxBytesScanned) (fuel streamsLeft : Nat) (scan : Scan) (sim : Sim machine scan)
    (enough : (bytes.take limit).length < pos + fuel) :
    ∃ fuel' scan', Sim last scan' ∧
      scanFrom (bytes.take limit) fuel pos streamsLeft scan = scanFrom (bytes.take limit) fuel' stop streamsLeft scan' := by
  induction run generalizing fuel scan with
  | refl machine pos => exact ⟨fuel, scan, sim, rfl⟩
  | step op read meets moves rest ih =>
      rename_i machine next last pos after stop
      have below := (runs_grow rest).2
      have grown := (runs_grow rest).1
      obtain ⟨supported, going⟩ := step_supported machine next pos op moves
      have decoded : decode (bytes.take limit) pos = some (op, after) := by
        have same := decode_code Opcode.operand read (layout_operand op.code meets.layout)
        exact (decode_spec limit same).2.2 (by omega)
      obtain ⟨forward, inside, _⟩ := decode_spec limit decoded
      have fits := decode_fits read
      have named : Sim machine { scan with opcodes := btreeInsert (ascii op.code.name) scan.opcodes } :=
        ⟨sim.stack, sim.memo, sim.proto, sim.records, sim.resolved, sim.bytes⟩
      have moved := step_simulates machine next _ pos op named fits meets moves (Nat.le_trans grown budget)
      obtain ⟨fuel', scan', simulated, same⟩ := ih within budget (fuel - 1) (readOp op pos scan) moved (by omega)
      refine ⟨fuel', scan', simulated, ?_⟩
      obtain ⟨less, rfl⟩ : ∃ less, fuel = less + 1 := ⟨fuel - 1, by omega⟩
      rw [scanFrom, decoded]
      simp only [supported, Bool.false_eq_true, if_false, if_neg going]
      exact same

theorem seen_imports_recorded (bytes : List UInt8) (last : Machine) (stop : Nat) (run : Runs Seen bytes .start 0 last stop)
    (within : stop ≤ maxBytesScanned) (budget : operandBytes last.imports ≤ maxBytesScanned) (found : Import)
    (member : found ∈ last.imports) : Recorded (extract bytes).modules (extract bytes).globals found.module_ found.name := by
  have nonempty : bytes ≠ [] := by
    rintro rfl
    cases run with
    | refl => cases member
    | step op read _ _ _ => cases read
  unfold extract
  rw [if_neg nonempty]
  simp only
  obtain ⟨fuel', scan', sim, same⟩ := scan_follows bytes maxBytesScanned .start last 0 stop run within budget
    ((bytes.take maxBytesScanned).length + 1) (if legacyHeader (bytes.take maxBytesScanned) = true then 5 else 1) .start
    sim_start (by omega)
  rw [same]
  exact scan_from_keeps _ fuel' stop _ scan' found (sim.records found member)

theorem seen_plain (start : Nat) (op : Op)
    (plain : op.code ≠ .persid ∧ op.code ≠ .put ∧ op.code ≠ .get ∧ op.code ≠ .stackGlobal) : Seen machine start op :=
  ⟨plain.1, fun either => (by rcases either with put | get; exacts [absurd put plain.2.1, absurd get plain.2.2.1]),
    fun stackGlobal => absurd stackGlobal plain.2.2.2⟩

def osSystem : List UInt8 := [0x80, 4, 0x8C, 2, 111, 115, 0x8C, 6, 115, 121, 115, 116, 101, 109, 0x93, 0x2E]

theorem seen_imports_recorded_os_system :
    Recorded (extract osSystem).modules (extract osSystem).globals (ascii "os") (ascii "system") := by
  refine seen_imports_recorded osSystem ⟨[.other], [], [], 4, [⟨some (2, 6), 8, [111, 115], [115, 121, 115, 116, 101, 109]⟩]⟩ 15 ?_
    (by decide +kernel) (by decide +kernel) ⟨some (2, 6), 8, [111, 115], [115, 121, 115, 116, 101, 109]⟩ (List.mem_singleton_self _)
  refine .step ⟨.proto, .int 4⟩ rfl (seen_plain _ _ _ (by decide)) rfl ?_
  refine .step ⟨.shortBinunicode, .bytes [111, 115]⟩ rfl (seen_plain _ _ _ (by decide)) rfl ?_
  refine .step ⟨.shortBinunicode, .bytes [115, 121, 115, 116, 101, 109]⟩ rfl (seen_plain _ _ _ (by decide)) rfl ?_
  refine .step ⟨.stackGlobal, .none⟩ rfl ⟨by decide, fun either => ?_, fun _ => ?_⟩ (by decide +kernel) (.refl _ _)
  · rcases either with no | no <;> cases no
  · intro nameAt nameCode nameOperand name moduleAt moduleCode moduleOperand module_ below top
    cases top
    exact ⟨⟨rfl, by decide +kernel⟩, ⟨rfl, by decide +kernel⟩, fun earlier member => by cases member⟩

-- The same global named by two SHORT_BINSTRINGs, which push the strings as well.
def osSystemShortBinstring : List UInt8 := [0x80, 4, 0x55, 2, 111, 115, 0x55, 6, 115, 121, 115, 116, 101, 109, 0x93, 0x2E]

theorem short_binstring_import_escapes :
    ∃ last stop after, Runs (fun _ _ _ => True) osSystemShortBinstring .start 0 last stop ∧
      decodeWith Opcode.layout osSystemShortBinstring stop = some (⟨.stop, .none⟩, after) ∧ last.stack ≠ [] ∧
      after ≤ maxBytesScanned ∧ operandBytes last.imports ≤ maxBytesScanned ∧
      ∃ found ∈ last.imports, found.module_ = ascii "os" ∧ found.name = ascii "system" ∧
        ¬ Recorded (extract osSystemShortBinstring).modules (extract osSystemShortBinstring).globals found.module_ found.name := by
  refine ⟨⟨[.other], [], [], 4, [⟨some (2, 6), 8, [111, 115], [115, 121, 115, 116, 101, 109]⟩]⟩, 15, 16, ?_, by decide +kernel,
    List.cons_ne_nil _ _, by decide +kernel, by decide +kernel, ⟨some (2, 6), 8, [111, 115], [115, 121, 115, 116, 101, 109]⟩,
    List.mem_singleton_self _, by decide +kernel, by decide +kernel, fun recorded => ?_⟩
  · refine .step ⟨.proto, .int 4⟩ rfl trivial rfl ?_
    refine .step ⟨.shortBinstring, .bytes [111, 115]⟩ rfl trivial rfl ?_
    refine .step ⟨.shortBinstring, .bytes [115, 121, 115, 116, 101, 109]⟩ rfl trivial rfl ?_
    exact .step ⟨.stackGlobal, .none⟩ rfl trivial (by decide +kernel) (.refl _ _)
  · have nothing : (extract osSystemShortBinstring).modules = [] := by decide +kernel
    rw [nothing] at recorded
    cases recorded.1

open Filefacts.Bytes (ascii fromUtf8)

inductive Held where
  | string (text : List UInt8)
  | imported (module_ name : List UInt8)
  | other
deriving DecidableEq, Repr

inductive Slot where
  | mark
  | value (held : Held)
deriving DecidableEq, Repr

structure Reference where
  stack : List Held
  metastack : List (List Held)
  memo : List (Nat × Held)
deriving DecidableEq, Repr

def Reference.start : Reference := ⟨[], [], []⟩

def Reference.combined (reference : Reference) : List Slot :=
  reference.stack.map Slot.value ++ reference.metastack.flatMap fun below => .mark :: below.map Slot.value

def Reference.push (reference : Reference) (held : Held) : Reference := { reference with stack := held :: reference.stack }

def Reference.popMark (reference : Reference) : Option Reference :=
  match reference.metastack with
  | [] => none
  | below :: rest => some { reference with stack := below, metastack := rest }

def inlineNames (arg : Arg) (decode : List UInt8 → Option (List UInt8)) : Option (List UInt8 × List UInt8) :=
  match arg with
  | .lines module_ name => (decode module_).bind fun module_ => (decode name).map fun name => (module_, name)
  | _ => none

def asciiText (text : List UInt8) : Option (List UInt8) := if isAscii text then some text else none

def namedGlobal (module_ name : Held) : Held :=
  match module_, name with
  | .string module_, .string name => .imported module_ name
  | _, _ => .other

-- One opcode; none on a stack, mark or memo error, an operand that does not
-- decode, or a protocol not supported. Every import and call goes through.
def Reference.step (reference : Reference) (op : Op) : Option Reference :=
  match op.code.effect with
  | .proto =>
      match op.arg with
      | .int number => if number ≤ 5 then some reference else none
      | _ => none
  | .globalRef => (inlineNames op.arg fromUtf8).map fun names => reference.push (.imported names.1 names.2)
  | .inst => (inlineNames op.arg asciiText).bind fun _ => reference.popMark.map fun popped => popped.push .other
  | .stackGlobal =>
      match reference.stack with
      | name :: module_ :: below => some ({ reference with stack := below }.push (namedGlobal module_ name))
      | _ => none
  | .unicode | .string =>
      (argBytes op.arg).bind fun operand => (decodeString op.code operand).map fun text => reference.push (.string text)
  | .push => some (reference.push .other)
  | .mark => some { reference with stack := [], metastack := reference.stack :: reference.metastack }
  | .pop =>
      match reference.stack with
      | [] => reference.popMark
      | _ :: below => some { reference with stack := below }
  | .popMark => reference.popMark
  | .dup => reference.stack.head?.map fun top => reference.push top
  | .put =>
      (argIndex op.arg).bind fun index =>
        reference.stack.head?.map fun top => { reference with memo := memoPut reference.memo index top }
  | .memoize =>
      reference.stack.head?.map fun top => { reference with memo := memoPut reference.memo reference.memo.length top }
  | .get => (argIndex op.arg).bind fun index => (reference.memo.lookup index).map fun held => reference.push held
  | .collect => reference.popMark.map fun popped => popped.push .other
  | .batch => reference.popMark.bind fun popped => popped.stack.head?.map fun _ => popped
  | .keep count =>
      if count < reference.stack.length then some { reference with stack := reference.stack.drop count } else none
  | .build count =>
      if count ≤ reference.stack.length then some ({ reference with stack := reference.stack.drop count }.push .other) else none
  | .readonly => reference.stack.head?.map fun _ => reference
  | .nothing => some reference
  | .stop => none

-- Runs of the reference over a stream, read as the unpickler reads it, whose
-- opcodes all meet a condition. A run ends before the STOP.
inductive ReferenceRuns (condition : Op → Prop) (bytes : List UInt8) : Reference → Nat → Reference → Nat → Prop
  | refl (reference : Reference) (pos : Nat) : ReferenceRuns condition bytes reference pos reference pos
  | step {reference next last : Reference} {pos after stop : Nat} (op : Op)
      (read : decodeWith Opcode.layout bytes pos = some (op, after)) (meets : condition op)
      (moves : reference.step op = some next) (rest : ReferenceRuns condition bytes next after last stop) :
      ReferenceRuns condition bytes reference pos last stop

inductive Scans (bytes : List UInt8) : Scan → Nat → Scan → Nat → Prop
  | refl (scan : Scan) (pos : Nat) : Scans bytes scan pos scan pos
  | step {scan last : Scan} {pos after stop : Nat} (op : Op) (read : decode bytes pos = some (op, after))
      (supported : unsupportedProto op = false) (going : op.code ≠ .stop)
      (rest : Scans bytes (readOp op pos scan) after last stop) : Scans bytes scan pos last stop

theorem scans_from (last : Scan) (pos stop : Nat) (scans : Scans bytes scan pos last stop)
    (fuel streamsLeft : Nat) (enough : bytes.length < pos + fuel) :
    ∃ left, bytes.length < stop + left ∧ scanFrom bytes fuel pos streamsLeft scan = scanFrom bytes left stop streamsLeft last := by
  induction scans generalizing fuel with
  | refl scan pos => exact ⟨fuel, enough, rfl⟩
  | step op read supported going rest ih =>
      rename_i scan last pos after stop
      obtain ⟨forward, inside, -⟩ := decode_spec 0 read
      obtain ⟨less, rfl⟩ : ∃ less, fuel = less + 1 := ⟨fuel - 1, by omega⟩
      obtain ⟨left, bound, same⟩ := ih less (by omega)
      refine ⟨left, bound, ?_⟩
      rw [scanFrom, read]
      simp only [supported, Bool.false_eq_true, if_false, if_neg going]
      exact same

def Matches (slot : Slot) (shown : StackValue) : Prop :=
  (shown = .mark ↔ slot = .mark) ∧ (∀ pushed text, shown = .text pushed text → slot = .value (.string text)) ∧
    ∀ module_ attr, shown = .globalRef module_ attr → slot = .value (.imported module_ attr)

def MemoMatches (memo : List (Nat × Held)) (shown : List (Nat × StackValue)) : Prop :=
  List.Forall₂ (fun entry seen => entry.1 = seen.1 ∧ Matches (.value entry.2) seen.2) memo shown

-- Same height, marks at the same places, no text or global that the
-- reference does not hold there, and a memo defined at the same indices.
structure Models (reference : Reference) (shown : PickleStack) : Prop where
  stack : List.Forall₂ Matches reference.combined shown.values
  memo : MemoMatches reference.memo shown.memo

variable (held : Held) (shown : StackValue) (memo : List (Nat × Held))

theorem matches_other : Matches (.value held) .other :=
  ⟨⟨StackValue.noConfusion, Slot.noConfusion⟩, fun _ _ => StackValue.noConfusion, fun _ _ => StackValue.noConfusion⟩

theorem matches_text (pushed : Nat) (text : List UInt8) : Matches (.value (.string text)) (.text pushed text) := by
  refine ⟨⟨StackValue.noConfusion, Slot.noConfusion⟩, fun _ other same => ?_, fun _ _ => StackValue.noConfusion⟩
  rw [(StackValue.text.inj same).2]

theorem matches_global (module_ attr : List UInt8) : Matches (.value (.imported module_ attr)) (.globalRef module_ attr) := by
  refine ⟨⟨StackValue.noConfusion, Slot.noConfusion⟩, fun _ _ => StackValue.noConfusion, fun _ _ same => ?_⟩
  rw [(StackValue.globalRef.inj same).1, (StackValue.globalRef.inj same).2]

theorem matches_mark : Matches .mark .mark :=
  ⟨⟨fun _ => rfl, fun _ => rfl⟩, fun _ _ => StackValue.noConfusion, fun _ _ => StackValue.noConfusion⟩

theorem matches_not_mark (same : Matches (.value held) shown) : shown ≠ .mark :=
  fun mark => Slot.noConfusion (same.1.mp mark)

theorem matches_is_mark (same : Matches .mark shown) : shown = .mark := same.1.mpr rfl

theorem pop_through_held (held : List Held) (rest : List Slot) (values : List StackValue)
    (all : List.Forall₂ Matches (held.map Slot.value ++ .mark :: rest) values) :
    List.Forall₂ Matches rest (popThroughMark values) := by
  induction held generalizing values with
  | nil =>
      cases all with
      | cons mark others =>
          obtain rfl := matches_is_mark _ mark
          exact others
  | cons top below ih =>
      cases all with
      | cons first others =>
          rename_i shown values
          have plain := matches_not_mark top shown first
          rw [show popThroughMark (shown :: values) = popThroughMark values by cases shown <;> first | rfl | exact absurd rfl plain]
          exact ih values others

theorem combined_drop (reference : Reference) (count : Nat) (enough : count ≤ reference.stack.length) :
    { reference with stack := reference.stack.drop count }.combined = reference.combined.drop count := by
  simp only [Reference.combined]
  rw [List.drop_append_of_le_length (by rw [List.length_map]; exact enough), List.map_drop]

theorem combined_pop_mark {reference popped : Reference} (pops : reference.popMark = some popped) :
    reference.combined = reference.stack.map Slot.value ++ .mark :: popped.combined ∧ popped.memo = reference.memo := by
  unfold Reference.popMark at pops
  cases marks : reference.metastack with
  | nil => simp [marks] at pops
  | cons below rest =>
      rw [marks] at pops
      obtain rfl := Option.some.inj pops
      refine ⟨?_, rfl⟩
      rw [Reference.combined, marks]
      rfl

theorem memo_matches_put (shown : List (Nat × StackValue)) (index : Nat) (held : Held)
    (seen : StackValue) (all : MemoMatches memo shown) (top : Matches (.value held) seen) :
    MemoMatches (memoPut memo index held) (memoPut shown index seen) := by
  induction all with
  | nil => exact .cons ⟨rfl, top⟩ .nil
  | cons first others ih =>
      rename_i entry other _ _
      simp only [memoPut]
      by_cases same : entry.1 = index
      · rw [if_pos same, if_pos (first.1 ▸ same)]
        exact .cons ⟨rfl, top⟩ others
      · rw [if_neg same, if_neg (first.1 ▸ same)]
        exact .cons first ih

theorem memo_matches_lookup (shown : List (Nat × StackValue)) (index : Nat) (held : Held)
    (all : MemoMatches memo shown) (found : memo.lookup index = some held) :
    ∃ seen, shown.lookup index = some seen ∧ Matches (.value held) seen := by
  induction all with
  | nil => cases found
  | cons first others ih =>
      rename_i entry other _ _
      obtain ⟨key, value⟩ := entry
      obtain ⟨otherKey, seen⟩ := other
      obtain ⟨same, top⟩ := first
      simp only at same
      subst same
      rw [List.lookup_cons] at found ⊢
      by_cases hit : (index == key) = true
      · rw [hit] at found ⊢
        obtain rfl := Option.some.inj found
        exact ⟨seen, rfl, top⟩
      · rw [Bool.eq_false_iff.mpr hit] at found ⊢
        exact ih found

end Filefacts.Pickle
