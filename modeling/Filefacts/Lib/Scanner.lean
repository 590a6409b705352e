import Mathlib.Algebra.Order.Ring.Nat

set_option autoImplicit false

namespace Filefacts.Scanner

-- A machine that reads symbols one by one: it goes to a state past the symbol, goes to a state to read the same symbol again,
-- or leaves with an outcome.
inductive Move (State Outcome : Type) where
  | switch (state : State)
  | reconsume (state : State)
  | leave (outcome : Outcome)
  deriving DecidableEq, Repr

variable {State Symbol Outcome : Type}

inductive Leaves (next : Nat → State → Symbol → Move State Outcome) (input : List Symbol) : State → Nat → Outcome → Prop
  | leave {state : State} {pos : Nat} {outcome : Outcome} (symbol : Symbol) (read : input[pos]? = some symbol)
      (move : next pos state symbol = .leave outcome) : Leaves next input state pos outcome
  | switch {state : State} {pos : Nat} {outcome : Outcome} (symbol : Symbol) (after : State) (read : input[pos]? = some symbol)
      (move : next pos state symbol = .switch after) (rest : Leaves next input after (pos + 1) outcome) :
      Leaves next input state pos outcome
  | reconsume {state : State} {pos : Nat} {outcome : Outcome} (symbol : Symbol) (after : State)
      (read : input[pos]? = some symbol) (move : next pos state symbol = .reconsume after)
      (rest : Leaves next input after pos outcome) : Leaves next input state pos outcome

variable (next : Nat → State → Symbol → Move State Outcome) (input : List Symbol)

variable (state : State) (pos : Nat) (after : State)

theorem leaves_past (outcome : Outcome) (past : input[pos]? = none) : ¬ Leaves next input state pos outcome := by
  intro leaves
  cases leaves with
  | leave symbol read move => rw [past] at read; cases read
  | switch symbol after read move rest => rw [past] at read; cases read
  | reconsume symbol after read move rest => rw [past] at read; cases read

variable {symbol : Symbol} {run rest : List Symbol}

theorem leaves_leave {given : Outcome} (outcome : Outcome) (read : input[pos]? = some symbol)
    (move : next pos state symbol = .leave given) : Leaves next input state pos outcome ↔ outcome = given := by
  constructor
  · intro leaves
    cases leaves with
    | leave other there same =>
        obtain rfl := Option.some.inj (there.symm.trans read)
        exact Move.leave.inj (same.symm.trans move)
    | switch other after there same rest =>
        obtain rfl := Option.some.inj (there.symm.trans read)
        rw [move] at same
        cases same
    | reconsume other after there same rest =>
        obtain rfl := Option.some.inj (there.symm.trans read)
        rw [move] at same
        cases same
  · intro same
    subst same
    exact .leave symbol read move

theorem leaves_switch {pos : Nat} (outcome : Outcome) (read : input[pos]? = some symbol)
    (move : next pos state symbol = .switch after) :
    Leaves next input state pos outcome ↔ Leaves next input after (pos + 1) outcome := by
  constructor
  · intro leaves
    cases leaves with
    | leave other there same =>
        obtain rfl := Option.some.inj (there.symm.trans read)
        rw [move] at same
        cases same
    | switch other target there same rest =>
        obtain rfl := Option.some.inj (there.symm.trans read)
        obtain rfl := Move.switch.inj (same.symm.trans move)
        exact rest
    | reconsume other target there same rest =>
        obtain rfl := Option.some.inj (there.symm.trans read)
        rw [move] at same
        cases same
  · exact fun rest => .switch symbol after read move rest

theorem leaves_reconsume (pos : Nat) (symbol : Symbol) (outcome : Outcome)
    (read : input[pos]? = some symbol) (move : next pos state symbol = .reconsume after) :
    Leaves next input state pos outcome ↔ Leaves next input after pos outcome := by
  constructor
  · intro leaves
    cases leaves with
    | leave other there same =>
        obtain rfl := Option.some.inj (there.symm.trans read)
        rw [move] at same
        cases same
    | switch other target there same rest =>
        obtain rfl := Option.some.inj (there.symm.trans read)
        rw [move] at same
        cases same
    | reconsume other target there same rest =>
        obtain rfl := Option.some.inj (there.symm.trans read)
        obtain rfl := Move.reconsume.inj (same.symm.trans move)
        exact rest
  · exact fun rest => .reconsume symbol after read move rest

inductive Reaches (next : Nat → State → Symbol → Move State Outcome) (input : List Symbol) : State → Nat → State → Nat → Prop
  | here (state : State) (pos : Nat) : Reaches next input state pos state pos
  | switch {state target : State} {pos later : Nat} (symbol : Symbol) (after : State) (read : input[pos]? = some symbol)
      (move : next pos state symbol = .switch after) (rest : Reaches next input after (pos + 1) target later) :
      Reaches next input state pos target later
  | reconsume {state target : State} {pos later : Nat} (symbol : Symbol) (after : State) (read : input[pos]? = some symbol)
      (move : next pos state symbol = .reconsume after) (rest : Reaches next input after pos target later) :
      Reaches next input state pos target later

theorem reaches_trans {first second third : State} {one two three : Nat} (front : Reaches next input first one second two)
    (back : Reaches next input second two third three) : Reaches next input first one third three := by
  induction front with
  | here _ _ => exact back
  | switch symbol after read move _ hypothesis => exact .switch symbol after read move (hypothesis back)
  | reconsume symbol after read move _ hypothesis => exact .reconsume symbol after read move (hypothesis back)

theorem reaches_next (pos : Nat) (symbol : Symbol) (read : input[pos]? = some symbol)
    (move : next pos state symbol = .switch after) : Reaches next input state pos after (pos + 1) :=
  .switch symbol after read move (.here after (pos + 1))

theorem reaches_again {pos : Nat} (read : input[pos]? = some symbol)
    (move : next pos state symbol = .reconsume after) : Reaches next input state pos after pos :=
  .reconsume symbol after read move (.here after pos)

theorem reaches_leaves {target : State} {pos later : Nat} (outcome : Outcome)
    (way : Reaches next input state pos target later) :
    Leaves next input state pos outcome ↔ Leaves next input target later outcome := by
  induction way with
  | here _ _ => exact Iff.rfl
  | switch symbol after read move _ hypothesis => rw [leaves_switch next input _ after outcome read move, hypothesis]
  | reconsume symbol after read move _ hypothesis =>
      rw [leaves_reconsume next input _ after _ symbol outcome read move, hypothesis]

variable (states : List Symbol → State)

theorem reaches_run (run rest held : List Symbol) (pos : Nat) (there : input.drop pos = run ++ rest)
    (moves : ∀ pos held symbol, symbol ∈ run → next pos (states held) symbol = .switch (states (held ++ [symbol]))) :
    Reaches next input (states held) pos (states (held ++ run)) (pos + run.length) := by
  induction run generalizing held pos with
  | nil =>
      rw [List.append_nil, List.length_nil, Nat.add_zero]
      exact .here _ _
  | cons symbol run ih =>
      have read : input[pos]? = some symbol := by rw [← List.head?_drop, there, List.cons_append, List.head?_cons]
      have after : input.drop (pos + 1) = run ++ rest := by
        rw [← List.drop_drop, there, List.cons_append, List.drop_one, List.tail_cons]
      have later := ih (held ++ [symbol]) (pos + 1) after fun pos held other member =>
        moves pos held other (List.mem_cons_of_mem _ member)
      rw [List.append_assoc, List.singleton_append, Nat.add_right_comm, Nat.add_assoc] at later
      rw [List.length_cons]
      exact .switch symbol _ read (moves pos held symbol List.mem_cons_self) later

theorem leaves_run (held : List Symbol) {pos : Nat} (outcome : Outcome) (there : input.drop pos = run ++ rest)
    (moves : ∀ pos held symbol, symbol ∈ run → next pos (states held) symbol = .switch (states (held ++ [symbol]))) :
    Leaves next input (states held) pos outcome ↔ Leaves next input (states (held ++ run)) (pos + run.length) outcome :=
  reaches_leaves next input _ outcome (reaches_run next input states run rest held pos there moves)

theorem leaves_skip {pos : Nat} (outcome : Outcome) (there : input.drop pos = run ++ rest)
    (moves : ∀ pos symbol, symbol ∈ run → next pos state symbol = .switch state) :
    Leaves next input state pos outcome ↔ Leaves next input state (pos + run.length) outcome :=
  leaves_run next input (fun _ => state) [] outcome there fun pos _ symbol member => moves pos symbol member

theorem leaves_unique (one other : Outcome) (leaves : Leaves next input state pos one)
    (again : Leaves next input state pos other) : one = other := by
  induction leaves with
  | leave symbol read move => exact ((leaves_leave next input _ _ other read move).mp again).symm
  | switch symbol after read move _ hypothesis =>
      exact hypothesis ((leaves_switch next input _ after other read move).mp again)
  | reconsume symbol after read move _ hypothesis =>
      exact hypothesis ((leaves_reconsume next input _ after _ symbol other read move).mp again)

theorem reaches_bounds (target : State) (pos later : Nat) (way : Reaches next input state pos target later) :
    pos ≤ later ∧ (pos ≤ input.length → later ≤ input.length) := by
  induction way with
  | here _ _ => exact ⟨Nat.le_refl _, id⟩
  | switch symbol after read _ _ hypothesis =>
      have inside := (List.getElem?_eq_some_iff.mp read).choose
      exact ⟨Nat.le_of_succ_le hypothesis.1, fun _ => hypothesis.2 inside⟩
  | reconsume symbol after _ _ _ hypothesis => exact hypothesis

theorem reaches_stretch (start length : Nat)
    (moves : ∀ pos, start ≤ pos → pos < start + length → ∃ symbol, input[pos]? = some symbol ∧ next pos state symbol = .switch state) :
    Reaches next input state start state (start + length) := by
  induction length with
  | zero => exact .here state start
  | succ length hypothesis =>
      obtain ⟨symbol, read, move⟩ := moves (start + length) (Nat.le_add_right _ _) (by omega)
      have before := hypothesis fun pos above below => moves pos above (by omega)
      exact reaches_trans next input before (reaches_next next input state state (start + length) symbol read move)

-- A machine whose moves, where they are held, are those of another in other words.
section Mirror

variable {Other Result : Type} (mirror : Nat → Other → Symbol → Move Other Result) (view : State → Other)
  (out : Outcome → Result) (Held : State → Nat → Prop)

def Move.map : Move State Outcome → Move Other Result
  | .switch state => .switch (view state)
  | .reconsume state => .reconsume (view state)
  | .leave outcome => .leave (out outcome)

structure Mirrors : Prop where
  moves : ∀ state pos symbol, Held state pos → input[pos]? = some symbol →
    mirror pos (view state) symbol = (next pos state symbol).map view out
  switched : ∀ state pos symbol after, Held state pos → input[pos]? = some symbol →
    next pos state symbol = .switch after → Held after (pos + 1)
  again : ∀ state pos symbol after, Held state pos → input[pos]? = some symbol →
    next pos state symbol = .reconsume after → Held after pos

variable (mirrors : Mirrors next input mirror view out Held) (held : Held state pos)

include mirrors held

theorem reaches_mirrored (later : Nat) (way : Reaches next input state pos after later) :
    Reaches mirror input (view state) pos (view after) later := by
  induction way with
  | here _ _ => exact .here _ _
  | switch symbol after read move _ hypothesis =>
      have same := mirrors.moves _ _ symbol held read
      rw [move] at same
      exact .switch symbol _ read same (hypothesis (mirrors.switched _ _ symbol _ held read move))
  | reconsume symbol after read move _ hypothesis =>
      have same := mirrors.moves _ _ symbol held read
      rw [move] at same
      exact .reconsume symbol _ read same (hypothesis (mirrors.again _ _ symbol _ held read move))

theorem leaves_mirrored (outcome : Outcome) (leaves : Leaves next input state pos outcome) :
    Leaves mirror input (view state) pos (out outcome) := by
  induction leaves with
  | leave symbol read move =>
      have same := mirrors.moves _ _ symbol held read
      rw [move] at same
      exact .leave symbol read same
  | switch symbol after read move _ hypothesis =>
      have same := mirrors.moves _ _ symbol held read
      rw [move] at same
      exact .switch symbol _ read same (hypothesis (mirrors.switched _ _ symbol _ held read move))
  | reconsume symbol after read move _ hypothesis =>
      have same := mirrors.moves _ _ symbol held read
      rw [move] at same
      exact .reconsume symbol _ read same (hypothesis (mirrors.again _ _ symbol _ held read move))

omit held in
theorem mirrored_leaves (seen : Other) (result : Result) (leaves : Leaves mirror input seen pos result) :
    ∀ state, view state = seen → Held state pos → ∃ outcome, Leaves next input state pos outcome := by
  induction leaves with
  | leave symbol read move =>
      rintro state rfl held
      rw [mirrors.moves state _ symbol held read] at move
      cases own : next _ state symbol with
      | leave outcome => exact ⟨outcome, .leave symbol read own⟩
      | switch after => rw [own] at move; cases move
      | reconsume after => rw [own] at move; cases move
  | switch symbol after read move _ hypothesis =>
      rintro state rfl held
      rw [mirrors.moves state _ symbol held read] at move
      cases own : next _ state symbol with
      | leave outcome => rw [own] at move; cases move
      | switch own_ =>
          rw [own] at move
          obtain ⟨outcome, rest⟩ := hypothesis own_ (Move.switch.inj move) (mirrors.switched state _ symbol own_ held read own)
          exact ⟨outcome, .switch symbol own_ read own rest⟩
      | reconsume after => rw [own] at move; cases move
  | reconsume symbol after read move _ hypothesis =>
      rintro state rfl held
      rw [mirrors.moves state _ symbol held read] at move
      cases own : next _ state symbol with
      | leave outcome => rw [own] at move; cases move
      | switch after => rw [own] at move; cases move
      | reconsume own_ =>
          rw [own] at move
          obtain ⟨outcome, rest⟩ := hypothesis own_ (Move.reconsume.inj move) (mirrors.again state _ symbol own_ held read own)
          exact ⟨outcome, .reconsume symbol own_ read own rest⟩

end Mirror

-- The run with a bound on its steps: none when the bound is too small, else
-- the outcome, if the machine leaves before the input is over.
def scan (next : Nat → State → Symbol → Move State Outcome) (input : List Symbol) : Nat → State → Nat → Option (Option Outcome)
  | 0, _, _ => none
  | fuel + 1, state, pos =>
      match input[pos]? with
      | none => some none
      | some symbol =>
          match next pos state symbol with
          | .leave outcome => some (some outcome)
          | .switch after => scan next input fuel after (pos + 1)
          | .reconsume after => scan next input fuel after pos

theorem scan_leaves (fuel : Nat) (state : State) (pos : Nat) (result : Option Outcome) (outcome : Outcome)
    (ran : scan next input fuel state pos = some result) : Leaves next input state pos outcome ↔ result = some outcome := by
  induction fuel generalizing state pos with
  | zero => cases ran
  | succ fuel hypothesis =>
      rw [scan] at ran
      cases read : input[pos]? with
      | none =>
          simp only [read, Option.some.injEq] at ran
          subst ran
          exact iff_of_false (leaves_past next input state pos outcome read) nofun
      | some symbol =>
          simp only [read] at ran
          cases move : next pos state symbol with
          | leave given =>
              simp only [move, Option.some.injEq] at ran
              subst ran
              rw [leaves_leave next input state pos outcome read move, Option.some.injEq, eq_comm]
          | switch after =>
              simp only [move] at ran
              rw [leaves_switch next input state after outcome read move]
              exact hypothesis after (pos + 1) ran
          | reconsume after =>
              simp only [move] at ran
              rw [leaves_reconsume next input state after pos symbol outcome read move]
              exact hypothesis after pos ran

def trace (next : Nat → State → Symbol → Move State Outcome) (input : List Symbol) : Nat → State → Nat → List (State × Nat)
  | 0, _, _ => []
  | fuel + 1, state, pos =>
      match input[pos]? with
      | none => [(state, pos)]
      | some symbol =>
          match next pos state symbol with
          | .leave _ => [(state, pos)]
          | .switch after => (state, pos) :: trace next input fuel after (pos + 1)
          | .reconsume after => (state, pos) :: trace next input fuel after pos

theorem reaches_trace (fuel : Nat) (state target : State) (pos later : Nat) (result : Option Outcome)
    (ran : scan next input fuel state pos = some result) (way : Reaches next input state pos target later) :
    (target, later) ∈ trace next input fuel state pos := by
  induction way generalizing fuel with
  | here state pos =>
      cases fuel with
      | zero => cases ran
      | succ fuel =>
          rw [trace]
          split
          · exact List.mem_cons_self
          · split <;> exact List.mem_cons_self
  | switch symbol after read move rest hypothesis =>
      cases fuel with
      | zero => cases ran
      | succ fuel =>
          simp only [scan, read, move] at ran
          simp only [trace, read, move]
          exact List.mem_cons_of_mem _ (hypothesis fuel ran)
  | reconsume symbol after read move rest hypothesis =>
      cases fuel with
      | zero => cases ran
      | succ fuel =>
          simp only [scan, read, move] at ran
          simp only [trace, read, move]
          exact List.mem_cons_of_mem _ (hypothesis fuel ran)

end Filefacts.Scanner
