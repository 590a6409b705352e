import Filefacts.Scpt.Analyze

set_option autoImplicit false

namespace Filefacts.Scpt

-- A value at run time; what the analysis does not tell apart is only numbered.
inductive Datum where
  | text (text : Text)
  | number (n : Int)
  | bool (value : Bool)
  | constant (code : Nat)
  | array (numbers : List Int)
  | receiver
  | other (id : Nat)
  deriving DecidableEq, Repr

def Datum.known : Datum → Known
  | .text s => .string s true
  | .number n => .number n
  | .bool b => .bool b
  | .constant code => .constant code
  | .array numbers => .array numbers
  | .receiver => .receiver
  | .other _ => .unknown

def Known.Shows : Known → Datum → Prop
  | .string s _, datum => datum = .text s
  | .number n, datum => datum = .number n
  | .bool b, datum => datum = .bool b
  | .constant code, datum => datum = .constant code
  | .array numbers, datum => datum = .array numbers
  | .receiver, datum => datum = .receiver
  | .unknown, _ => True

def Argument.Shows : Argument → Datum → Prop
  | .string s, datum => datum = .text s
  | .number n, datum => datum = .number n
  | .bool b, datum => datum = .bool b
  | .unknown, _ => True

-- The operand stack, the locals and how many tell blocks are open.
structure Machine where
  stack : List Datum
  locals : Nat → Datum
  tells : Nat

def Machine.push (m : Machine) (datum : Datum) : Machine := { m with stack := datum :: m.stack }

def Pops (m : Machine) (datum : Datum) (rest : Machine) : Prop :=
  m.stack = datum :: rest.stack ∧ rest.locals = m.locals ∧ rest.tells = m.tells ∨ m.stack = [] ∧ rest = m

def Machine.store (m : Machine) (index : Nat) (datum : Datum) : Machine :=
  { m with locals := fun other => if other = index then datum else m.locals other }

-- Numbers and texts as the operators work on them; outside its domain an operator gives anything.
def result (op : Nat) (left right : Datum) : Option Datum :=
  match left, right with
  | .text a, .text b => if op = 37 then some (.text (a ++ b)) else none
  | .number a, .number b => (arithmetic op a b).map .number
  | _, _ => none

def negation (op : Nat) (datum : Datum) : Option Datum :=
  match datum with
  | .bool b => if op = 11 then some (.bool !b) else none
  | .number n => if op = 39 then (checked (-n)).map .number else none
  | _ => none

def counted (stack : List Datum) (maximum : Nat) : Option (List Datum × List Datum) :=
  match stack with
  | .number n :: rest =>
      if 0 ≤ n ∧ n.toNat ≤ maximum ∧ n.toNat ≤ rest.length then some ((rest.take n.toNat).reverse, rest.drop n.toNat) else none
  | _ => none

def Datum.isConstant : Datum → Bool
  | .constant _ => true
  | _ => false

def popped : Nat → List Datum → List Datum
  | 0, _ => []
  | count + 1, [] => .other 0 :: popped count []
  | count + 1, datum :: rest => datum :: popped count rest

def Machine.arguments (m : Machine) (op : Nat) : Option (List Datum) :=
  match m.stack with
  | .number n :: rest =>
      if op = 43 then if 0 ≤ n ∧ n.toNat ≤ 64 then some (popped n.toNat rest).reverse else none
      else if 0 ≤ n ∧ n.toNat ≤ 128 ∧ n.toNat % 2 = 0 then
        let named := (popped n.toNat rest).reverse
        if (evenItems named).all Datum.isConstant then some (popped 1 (rest.drop n.toNat) ++ oddItems named) else none
      else none
  | _ => none

def Machine.decoderCall (m : Machine) (ctx : Context) (i : Instruction) : Option (Text × List Datum) :=
  if i.op = 43 then
    (counted m.stack 64).bind fun (arguments, rest) =>
      match rest with
      | .receiver :: below =>
          ((ctx.nameAt i.operand).bind fun name => ctx.decoders.lookup name).bind fun decoder =>
            (recover decoder (arguments.map Datum.known)).map fun text => (text, below)
      | _ => none
  else none

-- What an instruction does. An opcode without a modelled effect does anything to the stack and the locals.
def Effect (ctx : Context) (i : Instruction) (m after : Machine) : Prop :=
  match kindOf i.op with
  | .literal => ∃ datum, (ctx.literalAt (indexOf i)).Shows datum ∧ after = m.push datum
  | .load => after = m.push (m.locals (indexOf i))
  | .store => ∃ datum rest, Pops m datum rest ∧ after = rest.store (indexOf i) datum
  | .global | .undefined | .pushResult => ∃ datum, after = m.push datum
  | .bool value => after = m.push (.bool value)
  | .small => after = m.push (.number ((i.op : Int) - 106))
  | .me => after = m.push .receiver
  | .it => ∃ datum, (m.tells = 0 → datum = .receiver) ∧ after = m.push datum
  | .dereference => after = m ∨ ∃ id datum rest, m.stack = .other id :: rest ∧ after = { m with stack := datum :: rest }
  | .discard | .storeResult => ∃ datum, Pops m datum after
  | .duplicate => ∃ datum, (∀ top rest, m.stack = top :: rest → datum = top) ∧ after = m.push datum
  | .makeVector =>
      match counted m.stack maxArray with
      | some (items, rest) =>
          ∃ datum, (∀ numbers, items = List.map Datum.number numbers → datum = .array numbers) ∧
            after = { m with stack := datum :: rest }
      | none => after.tells = m.tells
  | .binary =>
      ∃ right middle left rest datum, Pops m right middle ∧ Pops middle left rest ∧
        (∀ found, result i.op left right = some found → datum = found) ∧ after = rest.push datum
  | .unary =>
      ∃ operand rest datum, Pops m operand rest ∧ (∀ found, negation i.op operand = some found → datum = found) ∧
        after = rest.push datum
  | .call =>
      match m.decoderCall ctx i with
      | some (text, below) => after = { m with stack := .text text :: below }
      | none => after.tells = m.tells
  | .tell => after.tells = m.tells + 1
  | .endTell => after.tells = m.tells - 1
  | .setGlobal | .control | .unmodelled => after.tells = m.tells

def fetch (code : List UInt8) (pc : Nat) : Option (Instruction × Nat) :=
  code[pc]?.bind fun op =>
    (width op.toNat).bind fun size =>
      if code.length - pc < size then none else some (⟨pc, op.toNat, operandAt code pc size⟩, size)

-- Control falls through, and a branch may be taken.
def Edge (i : Instruction) (size next : Nat) : Prop := next = i.pc + size ∨ branchTarget i = some next

-- The paths from a handler's entry whose steps all meet a condition.
inductive Path (ctx : Context) (condition : Instruction → Nat → Nat → Machine → Prop) : Nat → Machine → Prop
  | entry (m : Machine) (outside : m.tells = 0) : Path ctx condition 0 m
  | step {pc size next : Nat} {m after : Machine} (i : Instruction) (path : Path ctx condition pc m)
      (fetched : fetch ctx.handler.code pc = some (i, size)) (effect : Effect ctx i m after) (edge : Edge i size next)
      (meets : condition i size next m) : Path ctx condition next after

def Datum.textOf : Datum → Option Text
  | .text s => some s
  | _ => none

-- The texts an instruction makes or consumes: a concatenation, and the text arguments and the result of a call.
def Machine.texts (m : Machine) (ctx : Context) (i : Instruction) : List Text :=
  let concatenated :=
    match m.stack with
    | .text right :: .text left :: _ => if i.op = 37 then [left ++ right] else []
    | _ => []
  let consumed := ((m.arguments i.op).getD []).filterMap Datum.textOf
  let decoded := ((m.decoderCall ctx i).map Prod.fst).toList
  concatenated ++ if kindOf i.op = .call then consumed ++ decoded else []

-- The stack of the analysis against the top of the machine's; below the machine's it knows nothing.
def Covers : List Known → List Datum → Prop
  | [], _ => True
  | value :: rest, [] => value = .unknown ∧ Covers rest []
  | value :: rest, datum :: below => value.Shows datum ∧ Covers rest below

structure State.Shows (state : State) (m : Machine) : Prop where
  stack : Covers state.stack m.stack
  locals : ∀ index value, state.locals.lookup index = some value → value.Shows (m.locals index)

def tellsAfter (i : Instruction) (depth : Nat) : Nat :=
  match kindOf i.op with
  | .tell => depth + 1
  | .endTell => depth - 1
  | _ => depth

def tellsAt (pc : Nat) : List Instruction → Nat → Nat
  | [], depth => depth
  | i :: rest, depth => if i.pc = pc then depth else tellsAt pc rest (tellsAfter i depth)

-- A step the analysis provides for: it comes to an instruction by the fall-through or the branch of an instruction that
-- decoding kept, and `it` outside every tell block of the code runs outside every tell.
structure Foreseen (kept : List Instruction) (i : Instruction) (size next : Nat) (m : Machine) : Prop where
  arrives : ∀ reached ∈ kept, reached.pc = next →
    next = 0 ∨ (i ∈ kept ∧ next = i.pc + size) ∨ ∃ branch ∈ kept, branchTarget branch = some next
  outside : i ∈ kept → kindOf i.op = .it → tellsAt i.pc kept 0 = 0 → m.tells = 0

theorem covers_nil (stack : List Datum) : Covers [] stack := by
  cases stack <;> trivial

variable (count : Nat) (known : List Known) (state : State) (op : Nat)

theorem covers_drop (stack : List Datum) (covers : Covers known stack) : Covers (known.drop count) (stack.drop count) := by
  induction count generalizing known stack with
  | zero => exact covers
  | succ count ih =>
      cases known with
      | nil => exact covers_nil _
      | cons value rest =>
          cases stack with
          | nil => simpa using ih rest [] covers.2
          | cons datum below => exact ih rest below covers.2

theorem covers_take (stack : List Datum) (covers : Covers known stack)
    (enough : count ≤ known.length) : List.Forall₂ Known.Shows (known.take count) (popped count stack) := by
  induction count generalizing known stack with
  | zero => exact .nil
  | succ count ih =>
      cases known with
      | nil => simp at enough
      | cons value rest =>
          have enough : count ≤ rest.length := by simpa using enough
          cases stack with
          | nil =>
              obtain ⟨unknown, covers⟩ := covers
              rw [unknown]
              exact .cons trivial (ih rest [] covers enough)
          | cons datum below => exact .cons covers.1 (ih rest below covers.2 enough)

theorem covers_reaches (stack : List Datum) (covers : Covers known stack)
    (enough : count ≤ known.length) (knows : ∀ value ∈ known.take count, value ≠ .unknown) : count ≤ stack.length := by
  induction count generalizing known stack with
  | zero => exact Nat.zero_le _
  | succ count ih =>
      cases known with
      | nil => simp at enough
      | cons value rest =>
          cases stack with
          | nil => exact absurd covers.1 (knows value (by simp))
          | cons datum below =>
              have reaches := ih rest below covers.2 (by simpa using enough) fun value found => knows value (by simp [found])
              simpa using reaches

theorem popped_take (stack : List Datum) (enough : count ≤ stack.length) : popped count stack = stack.take count := by
  induction count generalizing stack with
  | zero => rfl
  | succ count ih =>
      cases stack with
      | nil => simp at enough
      | cons datum rest => rw [popped, List.take_succ_cons, ih rest (by simpa using enough)]

theorem empty_shows (m : Machine) : State.empty.Shows m :=
  ⟨covers_nil _, by intro index value found; simp [State.empty] at found⟩

variable {m : Machine} {datum : Datum}

theorem push_shows {value : Known} (shows : state.Shows m)
    (top : value.Shows datum) : State.Shows { state with stack := value :: state.stack } (m.push datum) :=
  ⟨⟨top, shows.stack⟩, shows.locals⟩

theorem pop_shows {rest : Machine} (shows : state.Shows m) (pops : Pops m datum rest) :
    state.pop.1.Shows datum ∧ state.pop.2.Shows rest := by
  have covers := shows.stack
  cases stack : state.stack with
  | nil =>
      have popped : state.pop = (.unknown, state) := by simp only [State.pop, stack]
      rw [popped]
      refine ⟨trivial, by rw [stack]; exact covers_nil _, ?_⟩
      rcases pops with ⟨-, locals, -⟩ | ⟨-, same⟩
      · rw [locals]
        exact shows.locals
      · rw [same]
        exact shows.locals
  | cons value known =>
      have popped : state.pop = (value, { state with stack := known }) := by simp only [State.pop, stack]
      rw [popped]
      rw [stack] at covers
      rcases pops with ⟨top, locals, -⟩ | ⟨top, same⟩
      · rw [top] at covers
        refine ⟨covers.1, covers.2, ?_⟩
        rw [locals]
        exact shows.locals
      · rw [top] at covers
        rw [same, covers.1]
        exact ⟨trivial, by rw [top]; exact covers.2, shows.locals⟩

def State.Inside (state : State) : Prop := ∀ index value, state.locals.lookup index = some value → index < maxLocals

variable (index other : Nat) (value : Known)

theorem lookup_filter (entries : List (Nat × Known)) (differ : other ≠ index) :
    (entries.filter fun entry => entry.1 ≠ index).lookup other = entries.lookup other := by
  induction entries with
  | nil => rfl
  | cons entry rest ih =>
      obtain ⟨name, value⟩ := entry
      by_cases same : name = index
      · have other_name : (other == name) = false := by simpa [same] using differ
        simp only [List.filter_cons, same, ne_eq, not_true_eq_false, decide_false, List.lookup_cons]
        rw [← same, other_name]
        simpa [same] using ih
      · simp only [List.filter_cons, ne_eq, same, not_false_eq_true, decide_true, if_true, List.lookup_cons]
        cases other == name with
        | true => rfl
        | false => simpa using ih

theorem insert_lookup :
    (state.insert index value).locals.lookup other = if other = index then some value else state.locals.lookup other := by
  by_cases same : other = index
  · simp [State.insert, same]
  · rw [if_neg same]
    have differ : (other == index) = false := by simpa using same
    simp only [State.insert, List.lookup_cons, differ]
    exact lookup_filter index other state.locals same

theorem insert_shows (m : Machine) (index : Nat) (value : Known) (datum : Datum) (shows : state.Shows m)
    (stored : value.Shows datum) : (state.insert index value).Shows (m.store index datum) := by
  refine ⟨shows.stack, ?_⟩
  intro other found lookup
  rw [insert_lookup] at lookup
  by_cases same : other = index
  · rw [if_pos same] at lookup
    cases lookup
    simpa [Machine.store, same] using stored
  · rw [if_neg same] at lookup
    simpa [Machine.store, same] using shows.locals other found lookup

theorem dropped_shows (m : Machine) (index : Nat) (datum : Datum) (shows : state.Shows m)
    (inside : state.Inside) (outside : ¬ index < maxLocals) : state.Shows (m.store index datum) := by
  refine ⟨shows.stack, ?_⟩
  intro other found lookup
  have differ : other ≠ index := fun same => outside (same ▸ inside other found lookup)
  simpa [Machine.store, differ] using shows.locals other found lookup

theorem pop_locals : state.pop.2.locals = state.locals := by
  cases stack : state.stack <;> simp only [State.pop, stack]

theorem calculate_shows (left right : Known) (leftDatum rightDatum datum : Datum) (showsLeft : left.Shows leftDatum)
    (showsRight : right.Shows rightDatum) (agrees : ∀ found, result op leftDatum rightDatum = some found → datum = found) :
    (calculate op left right).Shows datum := by
  cases left with
  | string a constructed =>
      cases right with
      | string b constructed' =>
          have leftText : leftDatum = .text a := showsLeft
          have rightText : rightDatum = .text b := showsRight
          simp only [calculate]
          by_cases concatenates : op = 37 ∧ a.length + b.length ≤ maxText
          · rw [if_pos concatenates]
            apply agrees
            rw [leftText, rightText, result, if_pos concatenates.1]
          · rw [if_neg concatenates]
            trivial
      | _ => trivial
  | number a =>
      cases right with
      | number b =>
          have leftNumber : leftDatum = .number a := showsLeft
          have rightNumber : rightDatum = .number b := showsRight
          rw [leftNumber, rightNumber] at agrees
          simp only [calculate]
          simp only [result] at agrees
          cases computed : arithmetic op a b with
          | none => trivial
          | some n => exact agrees (.number n) (by rw [computed, Option.map_some])
      | _ => trivial
  | _ => trivial

theorem negate_shows (operand datum : Datum) (shows : value.Shows operand)
    (agrees : ∀ found, negation op operand = some found → datum = found) : (negate op value).Shows datum := by
  cases value with
  | bool b =>
      have same : operand = .bool b := shows
      rw [same] at agrees
      by_cases negates : op = 11
      · simp only [negate, if_pos negates]
        exact agrees (.bool !b) (by simp only [negation, if_pos negates])
      · simp only [negate, if_neg negates]
        trivial
  | number n =>
      have same : operand = .number n := shows
      rw [same] at agrees
      by_cases negates : op = 39
      · simp only [negate, if_pos negates]
        cases negated : checked (-n) with
        | none => trivial
        | some opposite => exact agrees (.number opposite) (by simp only [negation, if_pos negates, negated, Option.map_some])
      · simp only [negate, if_neg negates]
        trivial
  | _ => trivial

variable (after : State) (values : List Known)

theorem count_number (maximum count : Nat) (counts : state.count maximum = (some count, after)) :
    ∃ n rest, state.stack = .number n :: rest ∧ 0 ≤ n ∧ n.toNat = count ∧ count ≤ maximum ∧ after = { state with stack := rest } := by
  cases stack : state.stack with
  | nil => simp [State.count, State.pop, stack] at counts
  | cons value rest =>
      cases value with
      | number n =>
          simp only [State.count, State.pop, stack, Prod.mk.injEq] at counts
          obtain ⟨bounded, same⟩ := counts
          by_cases inside : 0 ≤ n ∧ n.toNat ≤ maximum
          · rw [if_pos inside] at bounded
            cases bounded
            exact ⟨n, rest, rfl, inside.1, rfl, inside.2, same.symm⟩
          · rw [if_neg inside] at bounded
            cases bounded
      | _ => simp [State.count, State.pop, stack] at counts

variable {n : Int} {rest : List Known} {α β : Type}

theorem number_top (shows : state.Shows m)
    (stack : state.stack = .number n :: rest) : ∃ below, m.stack = .number n :: below ∧ Covers rest below := by
  have covers := shows.stack
  rw [stack] at covers
  cases machine : m.stack with
  | nil =>
      rw [machine] at covers
      cases covers.1
  | cons datum below =>
      rw [machine] at covers
      have number : datum = .number n := covers.1
      exact ⟨below, by rw [number], covers.2⟩

theorem take_values (taken : state.take count = (some values, after)) :
    count ≤ state.stack.length ∧ values = (state.stack.take count).reverse ∧
      after = { state with stack := state.stack.drop count } := by
  by_cases short : state.stack.length < count
  · simp only [State.take, if_pos short, Prod.mk.injEq] at taken
    cases taken.1
  · simp only [State.take, if_neg short, Prod.mk.injEq, Option.some.injEq] at taken
    exact ⟨by omega, taken.1.symm, taken.2.symm⟩

variable (numbers : List Int) (data : List Datum) (related : α → β → Prop) (first : List α) (second : List β)
  (receiving : Known)

theorem numbers_read (read : values.mapM Known.asNumber = some numbers) : values = numbers.map Known.number := by
  induction values generalizing numbers with
  | nil =>
      simp at read
      rw [read]
      rfl
  | cons value rest ih =>
      simp only [List.mapM_cons, Option.bind_eq_bind, Option.bind_eq_some_iff] at read
      obtain ⟨n, number, others, reads, same⟩ := read
      cases same
      cases value with
      | number k =>
          cases number
          rw [List.map_cons, ← ih others reads]
      | _ => cases number

theorem numbers_shown
    (shown : List.Forall₂ Known.Shows (numbers.map Known.number) data) : data = numbers.map Datum.number := by
  induction numbers generalizing data with
  | nil =>
      cases shown
      rfl
  | cons n rest ih =>
      cases shown with
      | cons first others =>
          have number : _ = Datum.number n := first
          rw [List.map_cons, number, ih _ others]

def Outcome.Shows : Outcome → Machine → Prop
  | .push value walk, m => State.Shows { walk.state with stack := value :: walk.state.stack } m
  | .plain walk, m => walk.state.Shows m
  | .stop _, _ => True

theorem unknown_shows {walk : Walk} (m : Machine) (cleared : walk.state = .empty) : (Outcome.push .unknown walk).Shows m := by
  simp only [Outcome.Shows, cleared]
  refine ⟨?_, (empty_shows m).locals⟩
  show Covers [.unknown] m.stack
  cases m.stack with
  | nil => exact ⟨rfl, trivial⟩
  | cons datum below => exact ⟨trivial, covers_nil below⟩

theorem counted_shows {below : List Datum} {maximum : Nat}
    (top : m.stack = .number n :: below) (covers : Covers rest below) (nonnegative : 0 ≤ n) (bounded : n.toNat ≤ maximum)
    (enough : n.toNat ≤ rest.length) (knows : ∀ value ∈ rest.take n.toNat, value ≠ .unknown) :
    counted m.stack maximum = some ((below.take n.toNat).reverse, below.drop n.toNat) ∧
      List.Forall₂ Known.Shows (rest.take n.toNat).reverse (below.take n.toNat).reverse := by
  have reaches := covers_reaches n.toNat rest below covers enough knows
  have shown := covers_take n.toNat rest below covers enough
  rw [popped_take n.toNat below reaches] at shown
  refine ⟨?_, List.rel_reverse shown⟩
  rw [top]
  exact if_pos ⟨nonnegative, bounded, reaches⟩

theorem vector_shows (ctx : Context) (i : Instruction) (walk : Walk) (m after : Machine) (shows : walk.state.Shows m)
    (kind : kindOf i.op = .makeVector) (changes : Effect ctx i m after) : (makeVector walk).Shows after := by
  simp only [Effect, kind] at changes
  rcases counts : walk.state.count maxArray with ⟨_ | count, state⟩
  · simp only [makeVector, counts]
    exact unknown_shows after rfl
  · obtain ⟨n, rest, stack, nonnegative, same, bounded, left⟩ := count_number _ _ _ _ counts
    obtain ⟨below, top, covers⟩ := number_top _ shows stack
    rcases taken : state.take count with ⟨_ | values, state'⟩
    · simp only [makeVector, counts, taken]
      exact unknown_shows after rfl
    · obtain ⟨enough, taken_values, left'⟩ := take_values _ _ _ _ taken
      cases read : values.mapM Known.asNumber with
      | none =>
          simp only [makeVector, counts, taken, read]
          exact unknown_shows after rfl
      | some numbers =>
          simp only [makeVector, counts, taken, read]
          have known := numbers_read values numbers read
          rw [left, ← same] at enough taken_values
          rw [← same] at bounded
          rw [left, ← same] at left'
          simp only at enough taken_values left'
          have knows : ∀ value ∈ rest.take n.toNat, value ≠ .unknown := by
            intro value found
            have listed : value ∈ values := by rw [taken_values]; exact List.mem_reverse.mpr found
            rw [known] at listed
            obtain ⟨number, -, number_value⟩ := List.mem_map.mp listed
            rw [← number_value]
            exact fun impossible => nomatch impossible
          obtain ⟨machine_counted, shown⟩ := counted_shows top covers nonnegative bounded enough knows
          rw [← taken_values, known] at shown
          rw [machine_counted] at changes
          obtain ⟨datum, packs, same_after⟩ := changes
          rw [same_after]
          refine ⟨⟨packs numbers (numbers_shown numbers _ shown), ?_⟩, ?_⟩
          · rw [left']
            exact covers_drop n.toNat rest below covers
          · rw [left']
            exact shows.locals

theorem odd_related
    (pairs : List.Forall₂ related first second) : List.Forall₂ related (oddItems first) (oddItems second) := by
  fun_induction oddItems first generalizing second with
  | case1 keyword value rest ih =>
      obtain _ | ⟨-, _ | ⟨value_related, others⟩⟩ := pairs
      exact .cons value_related (ih _ others)
  | case2 items short =>
      obtain _ | ⟨first_related, _ | ⟨second_related, others⟩⟩ := pairs
      · exact .nil
      · exact .nil
      · exact absurd rfl (short _ _ _)

theorem even_related
    (pairs : List.Forall₂ related first second) : List.Forall₂ related (evenItems first) (evenItems second) := by
  fun_induction evenItems first generalizing second with
  | case1 keyword value rest ih =>
      obtain _ | ⟨keyword_related, _ | ⟨-, others⟩⟩ := pairs
      exact .cons keyword_related (ih _ others)
  | case2 items short =>
      obtain _ | ⟨first_related, _ | ⟨second_related, others⟩⟩ := pairs
      · exact .nil
      · exact .nil
      · exact absurd rfl (short _ _ _)

theorem constants_shown (shown : List.Forall₂ Known.Shows values data)
    (constants : values.all Known.isConstant = true) : data.all Datum.isConstant = true := by
  induction shown with
  | nil => rfl
  | @cons value datum values data first others ih =>
      simp only [List.all_cons, Bool.and_eq_true] at constants ⊢
      refine ⟨?_, ih constants.2⟩
      cases value with
      | constant code =>
          have constant : datum = .constant code := first
          rw [constant]
          rfl
      | _ => cases constants.1

theorem positional_arguments (called : callArguments 43 state = (some values, receiving, after)) :
    ∃ n rest, state.stack = .number n :: rest ∧ 0 ≤ n ∧ n.toNat ≤ 64 ∧ n.toNat ≤ rest.length ∧
      values = (rest.take n.toNat).reverse ∧ State.pop { state with stack := rest.drop n.toNat } = (receiving, after) := by
  rcases counts : state.count 64 with ⟨_ | count, counted_state⟩
  · simp [callArguments, counts] at called
  · obtain ⟨n, rest, stack, nonnegative, same, bounded, left⟩ := count_number _ _ _ _ counts
    rcases taken : counted_state.take count with ⟨_ | found, taken_state⟩
    · simp [callArguments, counts, taken] at called
    · obtain ⟨enough, found_values, left'⟩ := take_values _ _ _ _ taken
      simp only [callArguments, if_true, counts, taken, Prod.mk.injEq, Option.some.injEq] at called
      rw [left] at enough found_values left'
      rw [← same] at bounded enough found_values left'
      simp only at enough found_values left'
      refine ⟨n, rest, stack, nonnegative, bounded, enough, by rw [← called.1, found_values], ?_⟩
      rw [← left', ← called.2.1, ← called.2.2]

theorem named_arguments (named : op ≠ 43) (called : callArguments op state = (some values, receiving, after)) :
    ∃ n rest, state.stack = .number n :: rest ∧ 0 ≤ n ∧ n.toNat ≤ 128 ∧ n.toNat % 2 = 0 ∧ n.toNat ≤ rest.length ∧
      (evenItems (rest.take n.toNat).reverse).all Known.isConstant = true ∧
      values = (State.pop { state with stack := rest.drop n.toNat }).1 :: oddItems (rest.take n.toNat).reverse := by
  rcases counts : state.count 128 with ⟨_ | count, counted_state⟩
  · simp [callArguments, named, counts] at called
  · obtain ⟨n, rest, stack, nonnegative, same, bounded, left⟩ := count_number _ _ _ _ counts
    by_cases odd : count % 2 ≠ 0
    · simp only [callArguments, if_neg named, counts, if_pos odd, Prod.mk.injEq] at called
      cases called.1
    · rcases taken : counted_state.take count with ⟨_ | found, taken_state⟩
      · simp only [callArguments, if_neg named, counts, if_neg odd, taken, Prod.mk.injEq] at called
        cases called.1
      · obtain ⟨enough, found_values, left'⟩ := take_values _ _ _ _ taken
        simp only [callArguments, if_neg named, counts, if_neg odd, taken] at called
        rw [left] at enough found_values left'
        rw [← same] at bounded enough found_values left' odd
        simp only at enough found_values left'
        by_cases constants : (evenItems found).all Known.isConstant = true
        · rw [if_pos constants] at called
          simp only [Prod.mk.injEq, Option.some.injEq] at called
          refine ⟨n, rest, stack, nonnegative, bounded, by omega, enough, by rw [← found_values]; exact constants, ?_⟩
          rw [← called.1, ← found_values, left']
        · rw [if_neg constants] at called
          cases congrArg Prod.fst called

theorem arguments_shown {state after : State} {values : List Known} {receiving : Known}
    (shows : state.Shows m) (called : callArguments op state = (some values, receiving, after)) :
    ∃ data, m.arguments op = some data ∧ List.Forall₂ Known.Shows values data := by
  by_cases positional : op = 43
  · rw [positional] at called ⊢
    obtain ⟨n, rest, stack, nonnegative, bounded, enough, same, -⟩ := positional_arguments _ _ _ _ called
    obtain ⟨below, top, covers⟩ := number_top _ shows stack
    refine ⟨(popped n.toNat below).reverse, ?_, ?_⟩
    · simp only [Machine.arguments, top, if_true, if_pos (And.intro nonnegative bounded)]
    · rw [same]
      exact List.rel_reverse (covers_take _ _ _ covers enough)
  · obtain ⟨n, rest, stack, nonnegative, bounded, even, enough, constants, same⟩ := named_arguments _ _ _ _ _ positional called
    obtain ⟨below, top, covers⟩ := number_top _ shows stack
    have named := List.rel_reverse (covers_take _ _ _ covers enough)
    have keywords := constants_shown _ _ (even_related _ _ _ named) constants
    refine ⟨popped 1 (below.drop n.toNat) ++ oddItems (popped n.toNat below).reverse, ?_, ?_⟩
    · simp only [Machine.arguments, top, if_neg positional, if_pos (And.intro nonnegative (And.intro bounded even)),
        if_pos keywords]
    · rw [same]
      have direct := covers_drop n.toNat rest below covers
      have others := odd_related _ _ _ named
      revert direct
      cases rest.drop n.toNat with
      | nil =>
          intro direct
          cases below.drop n.toNat <;> exact .cons trivial others
      | cons value deeper =>
          intro direct
          cases machine : below.drop n.toNat with
          | nil =>
              rw [machine] at direct
              obtain ⟨unknown, -⟩ := direct
              rw [unknown]
              exact .cons trivial others
          | cons datum deeper_data =>
              rw [machine] at direct
              exact .cons direct.1 others

def Known.isOperand : Known → Bool
  | .array _ => true
  | .number _ => true
  | _ => false

theorem recover_operands {decoder : Decoder} {args : List Known} {text : Text} (recovered : recover decoder args = some text) :
    args.all Known.isOperand = true := by
  simp only [recover] at recovered
  split at recovered
  · rename_i numbers others
    by_cases long : maxArray < numbers.length
    · rw [if_pos long] at recovered
      cases recovered
    · rw [if_neg long] at recovered
      obtain ⟨⟨second, scalar⟩, operands, -⟩ := Option.bind_eq_some_iff.mp recovered
      split at operands
      · rename_i listed
        cases listed
        rfl
      · cases operands
      · rename_i listed
        cases listed
        rfl
      · cases operands
      · rename_i listed
        cases listed
        rfl
      · cases operands
  · cases recovered

theorem operands_exact (shown : List.Forall₂ Known.Shows values data)
    (operands : values.all Known.isOperand = true) : data.map Datum.known = values := by
  induction shown with
  | nil => rfl
  | @cons value datum values data first others ih =>
      simp only [List.all_cons, Bool.and_eq_true] at operands
      rw [List.map_cons, ih operands.2]
      cases value with
      | number n =>
          have number : datum = .number n := first
          rw [number]
          rfl
      | array numbers =>
          have array : datum = .array numbers := first
          rw [array]
          rfl
      | _ => cases operands.1

end Filefacts.Scpt
