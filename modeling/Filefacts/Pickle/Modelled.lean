import Filefacts.Pickle.Recorded

set_option autoImplicit false

namespace Filefacts.Pickle

open Filefacts.Bytes (ascii fromUtf8)

variable (line : List UInt8) (op : Op) (reference : Reference) (scan : Scan) (stack : PickleStack)

theorem trim_plain (plain : ∀ b ∈ line, isBlank b = false) :
    ((line.dropWhile isBlank).reverse.dropWhile isBlank).reverse = line := by
  have kept : ∀ text : List UInt8, (∀ b ∈ text, isBlank b = false) → text.dropWhile isBlank = text := by
    intro text solid
    cases text with
    | nil => rfl
    | cons b rest => rw [List.dropWhile_cons_of_neg (by rw [solid b List.mem_cons_self]; exact Bool.false_ne_true)]
  rw [kept line plain, kept line.reverse fun b member => plain b (List.mem_reverse.mp member), List.reverse_reverse]

theorem digit_not_blank (b : UInt8) (digit : (decide (48 ≤ b) && decide (b ≤ 57)) = true) : isBlank b = false := by
  simp only [Bool.and_eq_true, decide_eq_true_iff, UInt8.le_iff_toNat_le, UInt8.reduceToNat] at digit
  have apart : b ≠ 32 := by
    rintro rfl
    simp only [UInt8.reduceToNat] at digit
    omega
  simp only [isBlank, Bool.or_eq_false_iff, Bool.and_eq_false_iff, decide_eq_false_iff_not, UInt8.le_iff_toNat_le, UInt8.reduceToNat]
  exact ⟨Or.inr (by omega), apart⟩

theorem decimal_from_digits (digits : List UInt8) (number : Nat) (afterDigit : Bool)
    (all_ : digits.all (fun b => decide (48 ≤ b) && decide (b ≤ 57)) = true) (some_ : afterDigit = true ∨ digits ≠ []) :
    decimalFrom number afterDigit digits = some (digits.foldl (fun number b => number * 10 + (b.toNat - 48)) number) := by
  induction digits generalizing number afterDigit with
  | nil =>
      rw [decimalFrom, if_pos (some_.resolve_right fun no => no rfl)]
      rfl
  | cons b rest ih =>
      rw [List.all_cons, Bool.and_eq_true] at all_
      have digit : isDigit b = true := all_.1
      rw [decimalFrom, if_pos digit, ih _ true all_.2 (Or.inl rfl)]
      rfl

def plainDigits (digits : List UInt8) : Prop :=
  digits ≠ [] ∧ digits.all (fun b => decide (48 ≤ b) && decide (b ≤ 57)) = true

variable (index : Nat) (held : Held) (next : Reference)

theorem parse_usize_digits (read : parseUsize line = some index) :
    ∃ digits, (line = 43 :: digits ∨ line = digits) ∧ plainDigits digits ∧
      digits.foldl (fun number b => number * 10 + (b.toNat - 48)) 0 = index := by
  have shape : ∃ digits, (line = 43 :: digits ∨ line = digits) ∧ (if digits = [] ∨
      ¬ digits.all (fun b => decide (48 ≤ b) && decide (b ≤ 57)) = true then none
      else if digits.foldl (fun number b => number * 10 + (b.toNat - 48)) 0 < 2 ^ 64 then
        some (digits.foldl (fun number b => number * 10 + (b.toNat - 48)) 0) else none) = some index := by
    unfold parseUsize at read
    split at read
    · next rest => exact ⟨rest, Or.inl rfl, read⟩
    · exact ⟨line, Or.inr rfl, read⟩
  obtain ⟨digits, line_, value⟩ := shape
  refine ⟨digits, line_, ?_⟩
  by_cases bad : digits = [] ∨ ¬ digits.all (fun b => decide (48 ≤ b) && decide (b ≤ 57)) = true
  · rw [if_pos bad] at value
    cases value
  · rw [if_neg bad] at value
    rw [not_or, not_not] at bad
    split at value
    · exact ⟨bad, Option.some.inj value⟩
    · cases value

theorem parse_usize_memo_index (read : parseUsize line = some index) : memoIndex line = some index := by
  obtain ⟨digits, shape, ⟨some_, all_⟩, rfl⟩ := parse_usize_digits line index read
  have solid : ∀ b ∈ digits, isBlank b = false := fun b member => digit_not_blank b (List.all_eq_true.mp all_ b member)
  have value := decimal_from_digits digits 0 false all_ (Or.inr some_)
  rcases shape with rfl | rfl
  · have trimmed := trim_plain (43 :: digits) fun b member => by
      rcases List.mem_cons.mp member with rfl | later
      · decide
      · exact solid b later
    rw [memoIndex, trimmed]
    exact value
  · rw [memoIndex, trim_plain line solid]
    split
    · exact absurd (List.all_eq_true.mp all_ 43 List.mem_cons_self) (by decide)
    · exact absurd (List.all_eq_true.mp all_ 45 List.mem_cons_self) (by decide)
    · exact value

-- The opcodes the model follows: no PERSID, whose line the scan leaves in the
-- stream; a UNICODE line that as UTF-8 is the string it stands for, if it is
-- UTF-8 at all; and a PUT line that Rust reads as an index when Python does.
structure Faithful (op : Op) : Prop where
  layout : op.code ≠ .persid
  line : op.code = .unicode → ∀ line text string, op.arg = .line line → fromUtf8 line = some text →
    decodeString .unicode line = some string → text = string
  index : op.code = .put → ∀ line index, op.arg = .line line → memoIndex line = some index → parseUsize line ≠ none

theorem utf8_same (operand text : List UInt8) (read : fromUtf8 operand = some text) : text = operand := by
  obtain ⟨_, _, same⟩ := Option.map_eq_some_iff.mp read
  exact same.symm

theorem unicode_matches (i : Nat) (operand string : List UInt8) (effect : op.code.effect = .unicode)
    (faithful : Faithful op) (fits : (op.code.layout).Fits op.arg) (arg : argBytes op.arg = some operand)
    (decoded : decodeString op.code operand = some string) :
    Matches (.value (.string string)) ((unicodeOperand op).elim .other fun text => .text i text) := by
  have read : ∀ text, unicodeOperand op = some text → text = string := by
    intro text shown
    obtain ⟨code, given⟩ := op
    cases code <;> cases effect
    case unicode =>
      cases given with
      | line line =>
          obtain rfl := Option.some.inj arg
          exact faithful.line rfl line text string rfl shown decoded
      | _ => exact absurd fits id
    all_goals
      cases given with
      | bytes bytes =>
          obtain rfl := Option.some.inj arg
          simp only [decodeString] at decoded
          split at decoded
          · exact (utf8_same bytes text shown).trans (Option.some.inj decoded)
          · cases decoded
      | _ => exact absurd fits id
  cases shown : unicodeOperand op with
  | none => exact matches_other _
  | some text =>
      rw [read text shown]
      exact matches_text i string

theorem models_push {held : Held} {seen : StackValue} (models : Models reference scan.stack)
    (top : Matches (.value held) seen) : Models (reference.push held) (scan.push seen).stack :=
  ⟨.cons top models.stack, models.memo⟩

theorem forall_drop (slots : List Slot) (values : List StackValue) (count : Nat) (all_ : List.Forall₂ Matches slots values) :
    List.Forall₂ Matches (slots.drop count) (values.drop count) := List.forall₂_drop count all_

theorem models_drop (count : Nat) (models : Models reference stack) (enough : count ≤ reference.stack.length) :
    Models { reference with stack := reference.stack.drop count } (stack.popN count) := by
  refine ⟨?_, models.memo⟩
  rw [combined_drop reference count enough]
  exact forall_drop _ _ count models.stack

theorem models_pop_mark {popped : Reference} {stack : PickleStack} (models : Models reference stack)
    (pops : reference.popMark = some popped) : Models popped stack.popThroughMark := by
  obtain ⟨combined, memo⟩ := combined_pop_mark pops
  have all_ := models.stack
  rw [combined] at all_
  exact ⟨pop_through_held _ _ _ all_, memo ▸ models.memo⟩

theorem models_top (models : Models reference stack)
    (there : reference.stack.head? = some held) : ∃ seen, stack.values.head? = some seen ∧ Matches (.value held) seen := by
  obtain ⟨below, top⟩ := List.head?_eq_some_iff.mp there
  have all_ := models.stack
  rw [Reference.combined, top] at all_
  cases values : stack.values with
  | nil =>
      rw [values] at all_
      cases all_
  | cons seen rest =>
      rw [values] at all_
      cases all_ with
      | cons first others => exact ⟨seen, rfl, first⟩

theorem models_put (models : Models reference stack) (there : reference.stack.head? = some held) :
    Models { reference with memo := memoPut reference.memo index held } (stack.memoPut index) := by
  obtain ⟨seen, head, top⟩ := models_top reference stack held models there
  have placed : stack.memoPut index = { stack with memo := memoPut stack.memo index seen } := by
    unfold PickleStack.memoPut
    rw [head]
  rw [placed]
  exact ⟨models.stack, memo_matches_put _ _ index held seen models.memo top⟩

theorem models_get (models : Models reference scan.stack) (there : reference.memo.lookup index = some held) :
    Models (reference.push held) (scan.push ((scan.stack.memo.lookup index).getD .other)).stack := by
  obtain ⟨seen, found, top⟩ := memo_matches_lookup _ _ index held models.memo there
  rw [found]
  exact models_push reference scan models top

theorem admit_global_keeps (pair : Nat × Nat) (size : Nat) :
    (stack.admitGlobal pair size).2.values = stack.values ∧ (stack.admitGlobal pair size).2.memo = stack.memo := by
  unfold PickleStack.admitGlobal
  split <;> exact ⟨rfl, rfl⟩

theorem models_stack_global (name module_ : Held) (below : List Held)
    (models : Models reference scan.stack) (top : reference.stack = name :: module_ :: below) :
    Models ({ reference with stack := below }.push (namedGlobal module_ name)) (stackGlobal scan).stack := by
  have all_ := models.stack
  rw [Reference.combined, top] at all_
  obtain ⟨nameSeen, moduleSeen, rest, values, nameTop, moduleTop, others⟩ : ∃ nameSeen moduleSeen rest,
      scan.stack.values = nameSeen :: moduleSeen :: rest ∧ Matches (.value name) nameSeen ∧ Matches (.value module_) moduleSeen ∧
        List.Forall₂ Matches (Reference.combined { reference with stack := below }) rest := by
    cases values : scan.stack.values with
    | nil =>
        rw [values] at all_
        cases all_
    | cons nameSeen rest =>
        rw [values] at all_
        cases all_ with
        | cons nameTop others =>
            cases others with
            | cons moduleTop others => exact ⟨_, _, _, rfl, nameTop, moduleTop, others⟩
  simp only [stackGlobal, values, List.head?_cons, List.drop_succ_cons, List.drop_zero, Option.getD_some, PickleStack.popN]
  cases nameSeen with
  | text nameAt nameText =>
      cases moduleSeen with
      | text moduleAt moduleText =>
          obtain rfl := Slot.value.inj (nameTop.2.1 nameAt nameText rfl)
          obtain rfl := Slot.value.inj (moduleTop.2.1 moduleAt moduleText rfl)
          obtain ⟨kept, memo⟩ := admit_global_keeps { scan.stack with values := rest } (moduleAt, nameAt)
            (moduleText.length + nameText.length)
          have both : Models (Reference.mk below reference.metastack reference.memo)
              (PickleStack.admitGlobal { scan.stack with values := rest } (moduleAt, nameAt)
                (moduleText.length + nameText.length)).2 := by
            refine ⟨?_, ?_⟩
            · rw [kept]
              exact others
            · rw [memo]
              exact models.memo
          dsimp only
          split
          · exact ⟨.cons (matches_global moduleText nameText) both.stack, both.memo⟩
          · exact ⟨.cons (matches_global moduleText nameText) both.stack, both.memo⟩
      | _ => exact ⟨.cons (matches_other _) others, models.memo⟩
  | _ => cases moduleSeen <;> exact ⟨.cons (matches_other _) others, models.memo⟩

theorem put_index (faithful : Faithful op) (effect : op.code.effect = .put)
    (fits : (op.code.layout).Fits op.arg) (read : argIndex op.arg = some index) : operandIndex op.arg = some index := by
  obtain ⟨code, given⟩ := op
  cases given with
  | int number => exact read
  | line line =>
      have code_ : code = .put := by
        cases code <;> first | rfl | exact absurd fits id | cases effect
      cases parsed : parseUsize line with
      | none => exact absurd parsed (faithful.index code_ line index rfl read)
      | some other =>
          have same := (parse_usize_memo_index line other parsed).symm.trans read
          exact parsed.trans same
  | _ => cases read

theorem get_index (read : argIndex op.arg = some index) : operandIndex op.arg = some index ∨ operandIndex op.arg = none := by
  cases given : op.arg with
  | int number =>
      rw [given] at read
      exact Or.inl read
  | line line =>
      rw [given] at read
      rw [operandIndex]
      cases parsed : parseUsize line with
      | none => exact Or.inr rfl
      | some other => exact Or.inl ((parse_usize_memo_index line other parsed).symm.trans read)
  | none => rw [given] at read; cases read
  | bytes bytes => rw [given] at read; cases read
  | lines module_ attr => rw [given] at read; cases read

theorem inline_names_read (names : List UInt8 × List UInt8) (found : inlineNames op.arg fromUtf8 = some names) :
    inlineGlobal op = some names := by
  unfold inlineNames at found
  split at found
  · next module_ name given =>
      rw [inlineGlobal, given]
      exact found
  · cases found

theorem step_models (scan : Scan) (start : Nat) (op : Op) (models : Models reference scan.stack)
    (fits : (op.code.layout).Fits op.arg) (faithful : Faithful op) (moves : reference.step op = some next) :
    Models next (applySideEffects op start scan).stack := by
  rw [apply_side_effects]
  cases effect : op.code.effect with
  | proto =>
      simp only [Reference.step, effect] at moves
      cases arg : op.arg with
      | int number =>
          simp only [arg] at moves
          split at moves
          · obtain rfl := Option.some.inj moves
            simp only [scanEffect, arg]
            exact models
          · cases moves
      | _ => simp only [arg] at moves; cases moves
  | globalRef =>
      simp only [Reference.step, effect] at moves
      obtain ⟨names, found, rfl⟩ := Option.map_eq_some_iff.mp moves
      simp only [scanEffect, inline_names_read op names found]
      exact models_push reference scan models (matches_global names.1 names.2)
  | inst =>
      simp only [Reference.step, effect] at moves
      obtain ⟨_, _, rest⟩ := Option.bind_eq_some_iff.mp moves
      obtain ⟨popped, pops, rfl⟩ := Option.map_eq_some_iff.mp rest
      have below := models_pop_mark reference models pops
      simp only [scanEffect]
      split
      · exact ⟨.cons (matches_other _) below.stack, below.memo⟩
      · exact ⟨.cons (matches_other _) below.stack, below.memo⟩
  | stackGlobal =>
      simp only [Reference.step, effect] at moves
      split at moves
      · next name module_ below top =>
          obtain rfl := Option.some.inj moves
          exact models_stack_global reference scan name module_ below models top
      · cases moves
  | unicode =>
      simp only [Reference.step, effect] at moves
      obtain ⟨operand, arg, rest⟩ := Option.bind_eq_some_iff.mp moves
      obtain ⟨string, decoded, rfl⟩ := Option.map_eq_some_iff.mp rest
      exact models_push reference scan models (unicode_matches op start operand string effect faithful fits arg decoded)
  | string =>
      simp only [Reference.step, effect] at moves
      obtain ⟨operand, arg, rest⟩ := Option.bind_eq_some_iff.mp moves
      obtain ⟨string, decoded, rfl⟩ := Option.map_eq_some_iff.mp rest
      exact models_push reference scan models (matches_other _)
  | push =>
      simp only [Reference.step, effect] at moves
      obtain rfl := Option.some.inj moves
      exact models_push reference scan models (matches_other _)
  | mark =>
      simp only [Reference.step, effect] at moves
      obtain rfl := Option.some.inj moves
      exact ⟨.cons matches_mark models.stack, models.memo⟩
  | pop =>
      simp only [Reference.step, effect] at moves
      split at moves
      · next empty =>
          obtain ⟨combined, memo⟩ := combined_pop_mark moves
          have all_ := models.stack
          rw [combined, empty] at all_
          refine ⟨?_, memo ▸ models.memo⟩
          exact forall_drop _ _ 1 all_
      · next top below stack =>
          obtain rfl := Option.some.inj moves
          have dropped := models_drop reference scan.stack 1 models (by rw [stack]; exact Nat.succ_le_succ (Nat.zero_le _))
          rw [stack] at dropped
          exact dropped
  | popMark =>
      simp only [Reference.step, effect] at moves
      exact models_pop_mark reference models moves
  | dup =>
      simp only [Reference.step, effect] at moves
      obtain ⟨top, there, rfl⟩ := Option.map_eq_some_iff.mp moves
      obtain ⟨seen, head, same⟩ := models_top reference scan.stack top models there
      simp only [scanEffect, head]
      exact models_push reference scan models same
  | put =>
      simp only [Reference.step, effect] at moves
      obtain ⟨index, read, rest⟩ := Option.bind_eq_some_iff.mp moves
      obtain ⟨top, there, rfl⟩ := Option.map_eq_some_iff.mp rest
      simp only [scanEffect, put_index op index faithful effect fits read]
      exact models_put reference scan.stack index top models there
  | memoize =>
      simp only [Reference.step, effect] at moves
      obtain ⟨top, there, rfl⟩ := Option.map_eq_some_iff.mp moves
      have size : reference.memo.length = scan.stack.memo.length := List.Forall₂.length_eq models.memo
      rw [size]
      exact models_put reference scan.stack scan.stack.memo.length top models there
  | get =>
      simp only [Reference.step, effect] at moves
      obtain ⟨index, read, rest⟩ := Option.bind_eq_some_iff.mp moves
      obtain ⟨held, there, rfl⟩ := Option.map_eq_some_iff.mp rest
      simp only [scanEffect]
      rcases get_index op index read with same | missed
      · rw [same, Option.bind_some]
        exact models_get reference scan index held models there
      · rw [missed, Option.bind_none, Option.getD_none]
        exact models_push reference scan models (matches_other _)
  | collect =>
      simp only [Reference.step, effect] at moves
      obtain ⟨popped, pops, rfl⟩ := Option.map_eq_some_iff.mp moves
      have below := models_pop_mark reference models pops
      exact ⟨.cons (matches_other _) below.stack, below.memo⟩
  | batch =>
      simp only [Reference.step, effect] at moves
      obtain ⟨popped, pops, rest⟩ := Option.bind_eq_some_iff.mp moves
      obtain ⟨_, _, rfl⟩ := Option.map_eq_some_iff.mp rest
      exact models_pop_mark reference models pops
  | keep count =>
      simp only [Reference.step, effect] at moves
      split at moves
      · next enough =>
          obtain rfl := Option.some.inj moves
          exact models_drop reference scan.stack count models (Nat.le_of_lt enough)
      · cases moves
  | build count =>
      simp only [Reference.step, effect] at moves
      split at moves
      · next enough =>
          obtain rfl := Option.some.inj moves
          have below := models_drop reference scan.stack count models enough
          exact ⟨.cons (matches_other _) below.stack, below.memo⟩
      · cases moves
  | readonly =>
      simp only [Reference.step, effect] at moves
      obtain ⟨_, _, rfl⟩ := Option.map_eq_some_iff.mp moves
      exact models
  | nothing =>
      simp only [Reference.step, effect] at moves
      obtain rfl := Option.some.inj moves
      exact models
  | stop =>
      simp only [Reference.step, effect] at moves
      cases moves

theorem forall_at {R : Slot → StackValue → Prop} (slots : List Slot) (values : List StackValue)
    (all_ : List.Forall₂ R slots values) (i : Nat) :
    (slots[i]? = none ∧ values[i]? = none) ∨ ∃ slot seen, slots[i]? = some slot ∧ values[i]? = some seen ∧ R slot seen := by
  induction all_ generalizing i with
  | nil => exact Or.inl ⟨rfl, rfl⟩
  | cons first others ih =>
      cases i with
      | zero => exact Or.inr ⟨_, _, rfl, rfl, first⟩
      | succ i => exact ih i

-- What the two stacks and the two memos have in common after an opcode;
-- places are counted from the top.
structure Agrees (reference : Reference) (shown : PickleStack) : Prop where
  height : shown.values.length = reference.combined.length
  marks : ∀ i : Nat, shown.values[i]? = some StackValue.mark ↔ reference.combined[i]? = some Slot.mark
  texts : ∀ (i pushed : Nat) (text : List UInt8), shown.values[i]? = some (StackValue.text pushed text) →
    reference.combined[i]? = some (Slot.value (.string text))
  globals : ∀ (i : Nat) (module_ attr : List UInt8), shown.values[i]? = some (StackValue.globalRef module_ attr) →
    reference.combined[i]? = some (Slot.value (.imported module_ attr))
  memo : ∀ index : Nat, (shown.memo.lookup index).isSome = (reference.memo.lookup index).isSome

theorem memo_matches_keys (memo : List (Nat × Held)) (shown : List (Nat × StackValue)) (index : Nat)
    (all_ : MemoMatches memo shown) : (shown.lookup index).isSome = (memo.lookup index).isSome := by
  induction all_ with
  | nil => rfl
  | cons first others ih =>
      rename_i entry other _ _
      obtain ⟨key, value⟩ := entry
      obtain ⟨otherKey, seen⟩ := other
      obtain ⟨same, top⟩ := first
      simp only at same
      subst same
      rw [List.lookup_cons, List.lookup_cons]
      cases index == key
      · exact ih
      · rfl

theorem models_agrees (shown : PickleStack) (models : Models reference shown) : Agrees reference shown := by
  refine ⟨(List.Forall₂.length_eq models.stack).symm, fun i => ?_, fun i pushed text there => ?_, fun i module_ attr there => ?_,
    fun index => memo_matches_keys _ _ index models.memo⟩
  · rcases forall_at _ _ models.stack i with ⟨absent, missing⟩ | ⟨slot, seen, slotAt, seenAt, same⟩
    · rw [absent, missing]
      exact iff_of_false (Option.some_ne_none _).symm (Option.some_ne_none _).symm
    · rw [slotAt, seenAt, Option.some.injEq, Option.some.injEq]
      exact same.1
  · rcases forall_at _ _ models.stack i with ⟨-, missing⟩ | ⟨slot, seen, slotAt, seenAt, same⟩
    · cases missing.symm.trans there
    · rw [slotAt, same.2.1 pushed text (Option.some.inj (seenAt.symm.trans there))]
  · rcases forall_at _ _ models.stack i with ⟨-, missing⟩ | ⟨slot, seen, slotAt, seenAt, same⟩
    · cases missing.symm.trans there
    · rw [slotAt, same.2.2 module_ attr (Option.some.inj (seenAt.symm.trans there))]

theorem reference_step_supported (op : Op) (moves : reference.step op = some next) :
    unsupportedProto op = false ∧ op.code ≠ .stop := by
  constructor
  · unfold unsupportedProto
    split
    · next number arg =>
        by_cases proto : op.code = .proto
        · unfold Reference.step at moves
          rw [proto, arg] at moves
          simp only [Opcode.effect] at moves
          split at moves
          · next small => simp only [proto, decide_true, Bool.true_and, decide_eq_false_iff_not]; omega
          · cases moves
        · simp only [proto, decide_false, Bool.false_and]
    · rfl
  · intro stop
    unfold Reference.step at moves
    rw [stop] at moves
    cases moves

theorem runs_forward (condition : Op → Prop) (bytes : List UInt8) (reference last : Reference) (pos stop : Nat)
    (run : ReferenceRuns condition bytes reference pos last stop) : pos ≤ stop := by
  induction run with
  | refl => exact Nat.le_refl _
  | step op read _ _ _ ih =>
      have forward := (decode_spec 0 read).1
      omega

theorem scans_model (bytes : List UInt8) (limit : Nat) (reference last : Reference) (pos stop : Nat)
    (run : ReferenceRuns Faithful bytes reference pos last stop) (within : stop ≤ limit) (scan : Scan)
    (models : Models reference scan.stack) :
    ∃ scan', Scans (bytes.take limit) scan pos scan' stop ∧ Models last scan'.stack := by
  induction run generalizing scan with
  | refl reference pos => exact ⟨scan, .refl scan pos, models⟩
  | step op read faithful moves rest ih =>
      rename_i reference next last pos after stop
      have onward := runs_forward _ _ _ _ _ _ rest
      obtain ⟨supported, going⟩ := reference_step_supported reference next op moves
      have decoded : decode (bytes.take limit) pos = some (op, after) := by
        have same := decode_code Opcode.operand read (layout_operand op.code faithful.layout)
        exact (decode_spec limit same).2.2 (by omega)
      have fits := decode_fits read
      have stepped := step_models reference next { scan with opcodes := btreeInsert (ascii op.code.name) scan.opcodes } pos op
        models fits faithful moves
      obtain ⟨scan', scans, final⟩ := ih within (readOp op pos scan) stepped
      exact ⟨scan', .step op decoded supported going scans, final⟩

theorem modelled_stack_agrees (bytes : List UInt8) (limit : Nat) (last : Reference) (stop : Nat)
    (run : ReferenceRuns Faithful bytes .start 0 last stop) (within : stop ≤ limit) :
    ∃ scan, Scans (bytes.take limit) .start 0 scan stop ∧ Agrees last scan.stack ∧
      ∀ fuel streamsLeft, (bytes.take limit).length < fuel →
        ∃ left, scanFrom (bytes.take limit) fuel 0 streamsLeft .start = scanFrom (bytes.take limit) left stop streamsLeft scan := by
  obtain ⟨scan, scans, models⟩ := scans_model bytes limit .start last 0 stop run within .start ⟨.nil, .nil⟩
  refine ⟨scan, scans, models_agrees last scan.stack models, fun fuel streamsLeft enough => ?_⟩
  obtain ⟨left, -, same⟩ := scans_from _ _ _ _ _ scans fuel streamsLeft (by omega)
  exact ⟨left, same⟩

theorem faithful_plain (plain : op.code ≠ .persid ∧ op.code ≠ .unicode ∧ op.code ≠ .put) : Faithful op :=
  ⟨plain.1, fun unicode => absurd unicode plain.2.1, fun put => absurd put plain.2.2⟩

theorem modelled_stack_agrees_os_system :
    ∃ scan, Scans (osSystem.take 16) .start 0 scan 15 ∧ Agrees ⟨[.imported (ascii "os") (ascii "system")], [], []⟩ scan.stack ∧
      ∀ fuel streamsLeft, (osSystem.take 16).length < fuel →
        ∃ left, scanFrom (osSystem.take 16) fuel 0 streamsLeft .start = scanFrom (osSystem.take 16) left 15 streamsLeft scan := by
  refine modelled_stack_agrees osSystem 16 _ 15 ?_ (by decide)
  refine .step ⟨.proto, .int 4⟩ rfl (faithful_plain _ (by decide)) rfl ?_
  refine .step ⟨.shortBinunicode, .bytes [111, 115]⟩ rfl (faithful_plain _ (by decide)) rfl ?_
  refine .step ⟨.shortBinunicode, .bytes [115, 121, 115, 116, 101, 109]⟩ rfl (faithful_plain _ (by decide)) rfl ?_
  exact .step ⟨.stackGlobal, .none⟩ rfl (faithful_plain _ (by decide)) (by decide +kernel) (.refl _ _)

-- A UNICODE line with an escape: the string of one letter, taken as it is written.
def escapedLetter : List UInt8 := [0x56, 92, 117, 48, 48, 52, 49, 10, 0x2E]

theorem escaped_letter_modelled :
    ∃ last scan, ReferenceRuns (fun _ => True) escapedLetter .start 0 last 8 ∧ Scans escapedLetter .start 0 scan 8 ∧
      last.combined = [.value (.string [65])] ∧ scan.stack.values = [.text 0 [92, 117, 48, 48, 52, 49]] ∧
      ¬ Agrees last scan.stack := by
  refine ⟨⟨[.string [65]], [], []⟩, readOp ⟨.unicode, .line [92, 117, 48, 48, 52, 49]⟩ 0 .start, ?_, ?_, rfl,
    by decide +kernel, fun agrees => ?_⟩
  · exact .step ⟨.unicode, .line [92, 117, 48, 48, 52, 49]⟩ rfl trivial (by decide +kernel) (.refl _ _)
  · exact .step ⟨.unicode, .line [92, 117, 48, 48, 52, 49]⟩ rfl rfl (by decide) (.refl _ _)
  · have held := agrees.texts 0 0 [92, 117, 48, 48, 52, 49] (by decide +kernel)
    revert held
    decide

end Filefacts.Pickle
