import Filefacts.Scpt.Transfer

set_option autoImplicit false

namespace Filefacts.Scpt

open Filefacts.Bytes (ascii)

variable (code : List UInt8) (pc base remaining : Nat)

variable {i : Instruction}

theorem fetch_pc {size : Nat} (fetched : fetch code pc = some (i, size)) : i.pc = pc ∧ pc < code.length := by
  obtain ⟨op, present, fetched⟩ := Option.bind_eq_some_iff.mp fetched
  obtain ⟨width, -, fetched⟩ := Option.bind_eq_some_iff.mp fetched
  split at fetched
  · cases fetched
  · cases fetched
    exact ⟨rfl, (List.getElem?_eq_some_iff.mp present).1⟩

theorem width_positive (op size : Nat) (known : width op = some size) : 0 < size := by
  simp only [width] at known
  split at known
  · cases known
    omega
  · split at known
    · cases known
      omega
    · split at known <;> cases known
      omega

theorem fetch_size (size : Nat) (i : Instruction) (fetched : fetch code pc = some (i, size)) : 0 < size := by
  obtain ⟨op, -, fetched⟩ := Option.bind_eq_some_iff.mp fetched
  obtain ⟨found, known, fetched⟩ := Option.bind_eq_some_iff.mp fetched
  split at fetched
  · cases fetched
  · cases fetched
    exact width_positive op.toNat size known

def Line (code : List UInt8) : Nat → List Instruction → Prop
  | _, [] => True
  | pc, i :: rest => ∃ size, fetch code pc = some (i, size) ∧ Line code (pc + size) rest

theorem sweep_line (pc : Nat) : Line code pc (sweep code base remaining pc).decoded := by
  fun_induction sweep code base remaining pc with
  | case5 pc op present remaining size known fits rest ih =>
      refine ⟨size, ?_, ih⟩
      simp only [fetch, present, Option.bind_some, known, if_neg fits]
  | _ => trivial

theorem line_prefix (kept all : List Instruction) (line : Line code pc all) (first : kept <+: all) : Line code pc kept := by
  induction all generalizing kept pc with
  | nil => rw [List.prefix_nil.mp first]; trivial
  | cons i rest ih =>
      obtain ⟨size, fetched, line⟩ := line
      rcases List.prefix_cons_iff.mp first with none_kept | ⟨others, some_kept, first⟩
      · rw [none_kept]
        trivial
      · rw [some_kept]
        exact ⟨size, fetched, ih _ others line first⟩

theorem line_fetch (kept : List Instruction) (line : Line code pc kept) (i : Instruction)
    (found : i ∈ kept) : pc ≤ i.pc ∧ ∃ size, fetch code i.pc = some (i, size) := by
  induction kept generalizing pc with
  | nil => cases found
  | cons first rest ih =>
      obtain ⟨size, fetched, line⟩ := line
      have at_pc := (fetch_pc code pc fetched).1
      rcases List.mem_cons.mp found with same | found
      · rw [same, at_pc]
        exact ⟨Nat.le_refl _, size, fetched⟩
      · obtain ⟨after, fetched⟩ := ih _ line found
        exact ⟨by omega, fetched⟩

theorem line_split (done rest : List Instruction) (line : Line code pc (done ++ rest)) :
    ∃ middle, pc ≤ middle ∧ Line code middle rest ∧ (done ≠ [] → 0 < middle) ∧
      ∀ i ∈ done, ∀ size, fetch code i.pc = some (i, size) → i.pc + size ≤ middle := by
  induction done generalizing pc with
  | nil => exact ⟨pc, Nat.le_refl _, line, fun impossible => absurd rfl impossible, by intro i found; cases found⟩
  | cons first others ih =>
      obtain ⟨size, fetched, line⟩ := line
      have at_pc := (fetch_pc code pc fetched).1
      have positive := fetch_size code pc size first fetched
      obtain ⟨middle, after, line, -, ends⟩ := ih _ line
      refine ⟨middle, by omega, line, fun _ => by omega, ?_⟩
      intro i found size' fetched'
      rcases List.mem_cons.mp found with same | found
      · rw [same, at_pc, fetched] at fetched'
        cases fetched'
        rw [same, at_pc]
        exact after
      · exact ends i found size' fetched'

theorem collect_keeps (stop : Nat) (boundaries : List Nat) (swept : List Instruction) :
    (collectJoins code base stop boundaries swept).instructions <+: swept := by
  fun_induction collectJoins code base stop boundaries swept with
  | case1 => exact List.prefix_refl _
  | case4 i rest after branch landed => exact List.nil_prefix
  | _ => rename_i ih; exact (List.prefix_cons_inj _).mpr ih

theorem collect_joined {stop : Nat} {boundaries : List Nat} {swept : List Instruction}
    {branch : Instruction} {next : Nat} (kept : branch ∈ (collectJoins code base stop boundaries swept).instructions)
    (goes : branchTarget branch = some next) (inside : next ≤ code.length) (boundary : next ∈ boundaries) :
    next ∈ (collectJoins code base stop boundaries swept).joins := by
  have branches : isBranch branch.op = true := by
    cases branches : isBranch branch.op with
    | true => rfl
    | false => simp [branchTarget, branches] at goes
  have lands : landing code boundaries stop branch = .join next := by
    have listed : boundaries.contains next = true := by simpa using boundary
    simp only [landing, goes, if_pos (And.intro inside listed)]
  induction swept with
  | nil => cases kept
  | cons i rest ih =>
      by_cases own : isBranch i.op = true
      · cases landed : landing code boundaries stop i with
        | join t =>
            simp only [collectJoins, if_pos own, landed] at kept ⊢
            rcases List.mem_cons.mp kept with same | later
            · rw [← same, lands] at landed
              cases landed
              exact List.mem_cons_self
            · exact List.mem_cons_of_mem _ (ih later)
        | beyond =>
            simp only [collectJoins, if_pos own, landed] at kept ⊢
            rcases List.mem_cons.mp kept with same | later
            · rw [← same, lands] at landed
              cases landed
            · exact ih later
        | invalid =>
            simp only [collectJoins, if_pos own, landed] at kept
            cases kept
      · simp only [collectJoins, if_neg own] at kept ⊢
        rcases List.mem_cons.mp kept with same | later
        · rw [same] at branches
          exact absurd branches own
        · exact ih later

theorem decode_line (limitations : List String) : Line code 0 (decode code base remaining limitations).instructions :=
  line_prefix code 0 _ _ (sweep_line code base remaining 0) (collect_keeps code base _ _ _)

theorem decode_joined (limitations : List String) (branch reached : Instruction)
    (kept : branch ∈ (decode code base remaining limitations).instructions)
    (goes : branchTarget branch = some reached.pc) (lands : reached ∈ (decode code base remaining limitations).instructions) :
    reached.pc ∈ (decode code base remaining limitations).joins := by
  obtain ⟨-, size, fetched⟩ := line_fetch code 0 _ (decode_line code base remaining limitations) reached lands
  have inside := (fetch_pc code reached.pc fetched).2
  have swept : reached ∈ (sweep code base remaining 0).decoded := (collect_keeps code base _ _ _).subset lands
  apply collect_joined code base kept goes (Nat.le_of_lt inside)
  exact List.mem_append_left _ (List.mem_map.mpr ⟨reached, swept, rfl⟩)

theorem pushed_walk (value : Known) (walk : Walk) :
    (pushed value walk).1.tellDepth = walk.tellDepth ∧ (pushed value walk).1.state.locals = walk.state.locals ∧
      (pushed value walk).1.decoded = walk.decoded ∧ (pushed value walk).1.calls = walk.calls := by
  simp only [pushed]
  split <;> exact ⟨rfl, rfl, rfl, rfl⟩

theorem analyze_walk (ctx : Context) (i : Instruction) (walk : Walk) :
    let left := (effect ctx i (ctx.handler.codeOffset + i.pc) walk).walk
    (analyzeInstruction ctx i walk).1.tellDepth = left.tellDepth ∧
      (analyzeInstruction ctx i walk).1.state.locals = left.state.locals ∧
      (analyzeInstruction ctx i walk).1.decoded = left.decoded ∧ (analyzeInstruction ctx i walk).1.calls = left.calls := by
  cases outcome : effect ctx i (ctx.handler.codeOffset + i.pc) walk with
  | push value left =>
      simp only [analyzeInstruction, outcome]
      exact pushed_walk value left
  | plain left =>
      simp only [analyzeInstruction, outcome]
      exact ⟨rfl, rfl, rfl, rfl⟩
  | stop left =>
      simp only [analyzeInstruction, outcome]
      exact ⟨rfl, rfl, rfl, rfl⟩

theorem analyze_shows {ctx : Context} {walk left : Walk} {after : Machine}
    (goes_on : analyzeInstruction ctx i walk = (left, true))
    (shows : (effect ctx i (ctx.handler.codeOffset + i.pc) walk).Shows after) : left.state.Shows after := by
  cases outcome : effect ctx i (ctx.handler.codeOffset + i.pc) walk with
  | push value walk =>
      rw [outcome] at shows
      simp only [analyzeInstruction, outcome, pushed] at goes_on
      split at goes_on
      · cases goes_on
      · cases goes_on
        exact shows
  | plain walk =>
      rw [outcome] at shows
      simp only [analyzeInstruction, outcome] at goes_on
      cases goes_on
      exact shows
  | stop walk =>
      simp only [analyzeInstruction, outcome] at goes_on
      cases goes_on

def tellsAfterAll (done : List Instruction) (depth : Nat) : Nat := done.foldl (fun depth i => tellsAfter i depth) depth

theorem tells_skip (target depth : Nat) (done rest : List Instruction) (apart : ∀ i ∈ done, i.pc ≠ target) :
    tellsAt target (done ++ rest) depth = tellsAt target rest (tellsAfterAll done depth) := by
  induction done generalizing depth with
  | nil => rfl
  | cons i others ih =>
      rw [List.cons_append, tellsAt, if_neg (apart i List.mem_cons_self)]
      exact ih _ fun j found => apart j (List.mem_cons_of_mem _ found)

section Run

variable (ctx : Context) (kept : List Instruction) (joins : List Nat)

variable {done rest : List Instruction} {i j : Instruction}

theorem line_unique (lined : Line ctx.handler.code 0 kept) {found : Instruction} {size size' : Nat}
    (split : kept = done ++ i :: j :: rest) (fetched : fetch ctx.handler.code i.pc = some (i, size)) (listed : found ∈ kept)
    (fetched' : fetch ctx.handler.code found.pc = some (found, size')) (meets : j.pc = found.pc + size') : found = i := by
  rw [split] at lined listed
  obtain ⟨middle, -, line, -, ends⟩ := line_split _ _ _ _ lined
  obtain ⟨own, own_fetched, line⟩ := line
  have at_middle := (fetch_pc _ _ own_fetched).1
  rw [← at_middle, fetched] at own_fetched
  cases own_fetched
  have positive' := fetch_size _ _ _ _ fetched'
  have positive := fetch_size _ _ _ _ fetched
  have at_next := (fetch_pc _ _ line.choose_spec.1).1
  rcases List.mem_append.mp listed with before | after
  · have ended := ends found before size' fetched'
    omega
  · rcases List.mem_cons.mp after with same | later
    · exact same
    · have starts := (line_fetch _ _ _ line found later).1
      omega

theorem arrives_next (lined : Line ctx.handler.code 0 kept)
    (joined : ∀ branch ∈ kept, ∀ reached ∈ kept, branchTarget branch = some reached.pc → reached.pc ∈ joins) {entered left : Walk} (split : kept = done ++ i :: j :: rest)
    (depth : entered.tellDepth = tellsAfterAll done 0) (inside : entered.state.Inside)
    (shows : ∀ m, Path ctx (Foreseen kept) i.pc m → entered.state.Shows m)
    (goes_on : analyzeInstruction ctx i entered = (left, true)) :
    j.pc ∈ joins ∨ ∀ m, Path ctx (Foreseen kept) j.pc m → left.state.Shows m := by
  by_cases join : j.pc ∈ joins
  · exact .inl join
  · right
    have listed : i ∈ kept := by simp [split]
    have reached : j ∈ kept := by simp [split]
    have line := lined
    rw [split] at line
    obtain ⟨middle, -, line, -, ends⟩ := line_split _ _ _ _ line
    obtain ⟨size, fetched, line⟩ := line
    have at_middle := (fetch_pc _ _ fetched).1
    rw [← at_middle] at fetched line
    have positive := fetch_size _ _ _ _ fetched
    have after := (line_fetch _ _ _ line j List.mem_cons_self).1
    intro m path
    generalize at_next : j.pc = next at path
    cases path with
    | entry m outside => omega
    | @step pc size' _ earlier _ i' path fetched' changes edge meets =>
        have at_pc := (fetch_pc _ _ fetched').1
        rw [← at_pc] at fetched' path
        rcases meets.arrives j reached at_next with zero | ⟨listed', falls⟩ | ⟨branch, kept_branch, goes⟩
        · omega
        · have same := line_unique ctx kept lined split fetched listed' fetched' (by omega)
          rw [same] at path changes meets
          apply analyze_shows goes_on
          apply effect_shows ctx i _ entered earlier m (shows earlier path) inside _ changes
          intro kind level
          apply meets.outside listed kind
          rw [split, tells_skip]
          · rw [tellsAt, if_pos rfl, ← depth, level]
          · intro before found same_pc
            obtain ⟨size'', fetched''⟩ := (line_fetch _ _ _ lined before (by simp [split, found])).2
            have positive'' := fetch_size _ _ _ _ fetched''
            have ended := ends before found size'' fetched''
            omega
        · rw [← at_next] at goes
          exact absurd (joined branch kept_branch j reached goes) join

theorem enter_walk (i : Instruction) (walk : Walk) :
    (enter joins i walk).tellDepth = walk.tellDepth ∧ (enter joins i walk).decoded = walk.decoded ∧
      (enter joins i walk).calls = walk.calls ∧ (walk.state.Inside → (enter joins i walk).state.Inside) := by
  have outside : State.empty.Inside := by intro index value found; simp [State.empty] at found
  simp only [enter]
  split
  · exact ⟨rfl, rfl, rfl, fun _ => outside⟩
  · exact ⟨rfl, rfl, rfl, id⟩

theorem enter_shows (i : Instruction) (walk : Walk) (m : Machine) (arrives : i.pc ∈ joins ∨ walk.state.Shows m) :
    (enter joins i walk).state.Shows m := by
  by_cases join : joins.contains i.pc = true
  · simp only [enter, if_pos join]
    exact empty_shows m
  · simp only [enter, if_neg join]
    rcases arrives with listed | shows
    · exact absurd (by simpa using listed) join
    · exact shows

theorem visits_show (lined : Line ctx.handler.code 0 kept)
    (joined : ∀ branch ∈ kept, ∀ reached ∈ kept, branchTarget branch = some reached.pc → reached.pc ∈ joins)
    (done instructions : List Instruction) (walk : Walk) (split : kept = done ++ instructions)
    (depth : walk.tellDepth = tellsAfterAll done 0) (inside : walk.state.Inside)
    (arrives : ∀ i ∈ instructions.head?, i.pc ∈ joins ∨ ∀ m, Path ctx (Foreseen kept) i.pc m → walk.state.Shows m)
    (visit : Visit) (visited : visit ∈ (analyzeFrom ctx joins instructions walk).1) (m : Machine)
    (path : Path ctx (Foreseen kept) visit.instruction.pc m) : visit.state.Shows m := by
  induction instructions generalizing done walk with
  | nil => cases visited
  | cons i rest ih =>
      by_cases exhausted : walk.work = 0
      · simp only [analyzeFrom, if_pos exhausted] at visited
        cases visited
      · obtain ⟨entered_depth, -, -, entered_inside⟩ := enter_walk joins i walk
        have entered_shows : ∀ m, Path ctx (Foreseen kept) i.pc m → (enter joins i walk).state.Shows m := by
          intro m path
          apply enter_shows
          rcases arrives i rfl with join | shows
          · exact .inl join
          · exact .inr (shows m path)
        simp only [analyzeFrom, if_neg exhausted] at visited
        rcases goes_on : analyzeInstruction ctx i (enter joins i walk) with ⟨left, _ | _⟩
        · rw [goes_on] at visited
          rw [List.mem_singleton.mp visited] at path ⊢
          exact entered_shows m path
        · rw [goes_on] at visited
          rcases List.mem_cons.mp visited with same | later
          · rw [same] at path ⊢
            exact entered_shows m path
          · have after := analyze_walk ctx i (enter joins i walk)
            rw [goes_on] at after
            obtain ⟨tells, locals, -, -⟩ := after
            apply ih (done ++ [i]) left (by rw [split, List.append_assoc, List.singleton_append])
            · rw [tells, effect_tells, entered_depth, depth]
              simp only [tellsAfterAll, List.foldl_append, List.foldl_cons, List.foldl_nil]
            · intro index value found
              rw [locals] at found
              exact effect_inside ctx i _ _ (entered_inside inside) index value found
            · intro j first
              cases rest with
              | nil => cases first
              | cons k others =>
                  cases first
                  exact arrives_next ctx kept joins lined joined split (entered_depth.trans depth)
                    (entered_inside inside) entered_shows goes_on
            · exact later

theorem found_visited (instructions : List Instruction) (walk : Walk) :
    (∀ r ∈ (analyzeFrom ctx joins instructions walk).2.decoded, r ∈ walk.decoded ∨
      ∃ visit ∈ (analyzeFrom ctx joins instructions walk).1,
        Recovers ctx visit.instruction (ctx.handler.codeOffset + visit.instruction.pc) visit.state r) ∧
    ∀ c ∈ (analyzeFrom ctx joins instructions walk).2.calls, c ∈ walk.calls ∨
      ∃ visit ∈ (analyzeFrom ctx joins instructions walk).1,
        Consumes visit.instruction (ctx.handler.codeOffset + visit.instruction.pc) visit.state c := by
  induction instructions generalizing walk with
  | nil => exact ⟨fun r found => .inl found, fun c found => .inl found⟩
  | cons i rest ih =>
      by_cases exhausted : walk.work = 0
      · simp only [analyzeFrom, if_pos exhausted]
        exact ⟨fun r found => .inl found, fun c found => .inl found⟩
      · obtain ⟨-, entered_decoded, entered_calls, -⟩ := enter_walk joins i walk
        obtain ⟨-, -, left_decoded, left_calls⟩ := analyze_walk ctx i (enter joins i walk)
        have recovers := effect_recovers ctx i (ctx.handler.codeOffset + i.pc) (enter joins i walk)
        have consumes := effect_consumes ctx i (ctx.handler.codeOffset + i.pc) (enter joins i walk)
        rw [entered_decoded, ← left_decoded] at recovers
        rw [entered_calls, ← left_calls] at consumes
        simp only [analyzeFrom, if_neg exhausted]
        rcases goes_on : analyzeInstruction ctx i (enter joins i walk) with ⟨left, _ | _⟩
        · rw [goes_on] at recovers consumes
          constructor
          · intro r found
            rcases recovers r found with before | here
            · exact .inl before
            · exact .inr ⟨_, List.mem_cons_self, here⟩
          · intro c found
            rcases consumes c found with before | here
            · exact .inl before
            · exact .inr ⟨_, List.mem_cons_self, here⟩
        · rw [goes_on] at recovers consumes
          obtain ⟨later_texts, later_calls⟩ := ih left
          constructor
          · intro r found
            rcases later_texts r found with found | ⟨visit, visited, there⟩
            · rcases recovers r found with before | here
              · exact .inl before
              · exact .inr ⟨_, List.mem_cons_self, here⟩
            · exact .inr ⟨visit, List.mem_cons_of_mem _ visited, there⟩
          · intro c found
            rcases later_calls c found with found | ⟨visit, visited, there⟩
            · rcases consumes c found with before | here
              · exact .inl before
              · exact .inr ⟨_, List.mem_cons_self, here⟩
            · exact .inr ⟨visit, List.mem_cons_of_mem _ visited, there⟩

end Run

-- On every path under a condition the machine has what the analysis knows: at each instruction analysed, in each text
-- found and in each argument of a call.
structure Sound (ctx : Context) (condition : Instruction → Nat → Nat → Machine → Prop) (a : Analyzed) : Prop where
  states : ∀ visit ∈ a.visits, ∀ m, Path ctx condition visit.instruction.pc m → visit.state.Shows m
  texts : ∀ r ∈ a.function.decoded, ∃ visit ∈ a.visits, r.offset = ctx.handler.codeOffset + visit.instruction.pc ∧
    ∀ m, Path ctx condition visit.instruction.pc m → r.text ∈ m.texts ctx visit.instruction
  arguments : ∀ c ∈ a.function.calls, ∃ visit ∈ a.visits, c.offset = ctx.handler.codeOffset + visit.instruction.pc ∧
    ∀ m, Path ctx condition visit.instruction.pc m → c.args = [.unknown] ∨
      ∃ data, m.arguments visit.instruction.op = some data ∧ List.Forall₂ Argument.Shows c.args data

def Context.kept (ctx : Context) (remaining : Nat) : List Instruction :=
  (decode ctx.handler.code ctx.handler.codeOffset remaining []).instructions

theorem handler_sound (ctx : Context) (graphLimited : Bool) (remaining work : Nat) :
    Sound ctx (Foreseen (ctx.kept remaining)) (analyzeHandler ctx graphLimited remaining work) := by
  by_cases overflow : 2 ^ 64 ≤ ctx.handler.codeOffset + ctx.handler.code.length
  · simp only [analyzeHandler, if_pos overflow]
    exact ⟨fun _ visited => (nomatch visited), fun _ found => (nomatch found), fun _ called => (nomatch called)⟩
  · simp only [analyzeHandler, if_neg overflow]
    generalize (if graphLimited then ["handler graph limit reached; decoder resolution disabled"] else []) = limitations
    have joined := fun branch kept reached lands goes =>
      decode_joined ctx.handler.code ctx.handler.codeOffset remaining limitations branch reached kept goes lands
    have lined := decode_line ctx.handler.code ctx.handler.codeOffset remaining limitations
    have states := visits_show ctx (ctx.kept remaining) _ lined joined [] (ctx.kept remaining)
      ⟨.empty, 0, work, [], [], (decode ctx.handler.code ctx.handler.codeOffset remaining limitations).limitations⟩ rfl rfl
      (by intro index value found; simp [State.empty] at found) fun i _ => .inr fun m _ => empty_shows m
    obtain ⟨texts, calls⟩ := found_visited ctx
      (decode ctx.handler.code ctx.handler.codeOffset remaining limitations).joins (ctx.kept remaining)
      ⟨.empty, 0, work, [], [], (decode ctx.handler.code ctx.handler.codeOffset remaining limitations).limitations⟩
    refine ⟨states, ?_, ?_⟩
    · intro r found
      rcases texts r found with impossible | ⟨visit, visited, same, made⟩
      · cases impossible
      · exact ⟨visit, visited, same, fun m path => made m (states visit visited m path)⟩
    · intro c found
      rcases calls c found with impossible | ⟨visit, visited, same, passed⟩
      · cases impossible
      · exact ⟨visit, visited, same, fun m path => passed m (states visit visited m path)⟩

def contextOf (parsed : Parsed) (h : Handler) : Context :=
  ⟨parsed, h, if (handlers parsed).2 then [] else decodersOf parsed (handlers parsed).1⟩

theorem analyze_all_member (parsed : Parsed) (decoders : List (Text × Decoder)) (graphLimited : Bool) (found : List Handler)
    (remaining work : Nat) (a : Analyzed) (listed : a ∈ analyzeAll parsed decoders graphLimited found remaining work) :
    ∃ h ∈ found, ∃ remaining work, a = analyzeHandler ⟨parsed, h, decoders⟩ graphLimited remaining work := by
  induction found generalizing remaining work with
  | nil => cases listed
  | cons h rest ih =>
      rcases List.mem_cons.mp listed with same | later
      · exact ⟨h, List.mem_cons_self, remaining, work, same⟩
      · obtain ⟨other, found, remaining, work, same⟩ := ih _ _ later
        exact ⟨other, List.mem_cons_of_mem _ found, remaining, work, same⟩

theorem analyze_foreseen (parsed : Parsed) (a : Analyzed) (listed : a ∈ analyzed parsed) :
    ∃ h ∈ (handlers parsed).1, ∃ remaining work, a = analyzeHandler (contextOf parsed h) (handlers parsed).2 remaining work ∧
      Sound (contextOf parsed h) (Foreseen ((contextOf parsed h).kept remaining)) a := by
  obtain ⟨h, found, remaining, work, same⟩ := analyze_all_member parsed _ _ _ _ _ a listed
  refine ⟨h, found, remaining, work, same, ?_⟩
  rw [same]
  exact handler_sound (contextOf parsed h) (handlers parsed).2 remaining work

-- A handler with one call that a loop, closed behind an opcode the sweep stops at, runs twice.
def loopingCode : List UInt8 := [107, 176, 160, 107, 43, 0, 0, 29, 0, 3, 72, 108, 176, 89, 0xFF, 0xF4]

def looping : Parsed :=
  ⟨[⟨0, .vector (some 16) [1, 2, 2, 2, 2, 3, 4]⟩, ⟨10, .name (ascii "f")⟩, ⟨20, .unknown⟩, ⟨30, .vector none [1]⟩,
    ⟨40, .bytes none loopingCode⟩], 0, [], none⟩

def loopingHandler : Handler := ⟨ascii "f", 0, 40, loopingCode, [1], none⟩

theorem looping_decodes : decodersOf looping [loopingHandler] = [] := rfl

theorem looping_handlers : handlers looping = ([loopingHandler], false) := by
  have found : handlersFrom looping (edgeCount looping + 2) [] [looping.root] [] = ([loopingHandler], false) := rfl
  simp only [handlers, found, List.mergeSort_singleton]

theorem looping_context : contextOf looping loopingHandler = ⟨looping, loopingHandler, []⟩ := by
  simp only [contextOf, looping_handlers, looping_decodes, ite_self]

theorem looping_analyzed :
    analyzed looping = [analyzeHandler (contextOf looping loopingHandler) false maxInstructions maxWork] := by
  rw [looping_context]
  simp only [analyzed, looping_handlers, looping_decodes, ite_self, analyzeAll]

theorem looping_call :
    (analyzeHandler ⟨looping, loopingHandler, []⟩ false maxInstructions maxWork).function.calls =
      [⟨ascii "f", 44, [.number 1]⟩] := rfl

def loopingContext : Context := ⟨looping, loopingHandler, []⟩

def anyStep (_ : Instruction) (_ _ : Nat) (_ : Machine) : Prop := True

def loopingMachine (stack : List Datum) (first : Int) : Machine :=
  ⟨stack, fun index => if index = 0 then .number first else .other 0, 0⟩

theorem looping_store (stored first : Int) :
    loopingMachine [] stored = (loopingMachine [] first).store 0 (.number stored) := by
  have locals : (loopingMachine [] stored).locals = ((loopingMachine [] first).store 0 (.number stored)).locals := by
    funext index
    by_cases zero : index = 0 <;> simp [loopingMachine, Machine.store, zero]
  simpa [loopingMachine, Machine.store] using locals

theorem looping_iteration (n : Int) (path : Path loopingContext anyStep 2 (loopingMachine [] n)) :
    Path loopingContext anyStep 4 (loopingMachine [.number 1, .number n] n) := by
  have loaded : Path loopingContext anyStep 3 (loopingMachine [.number n] n) :=
    .step ⟨2, 160, 0⟩ path rfl rfl (.inl rfl) trivial
  exact .step ⟨3, 107, 0⟩ loaded rfl rfl (.inl rfl) trivial

theorem looping_path : Path loopingContext anyStep 4 (loopingMachine [.number 1, .number 2] 2) := by
  have entered : Path loopingContext anyStep 0 (loopingMachine [] 0) := .entry _ rfl
  have counted : Path loopingContext anyStep 1 (loopingMachine [.number 1] 0) :=
    .step ⟨0, 107, 0⟩ entered rfl rfl (.inl rfl) trivial
  have stored : Path loopingContext anyStep 2 (loopingMachine [] 1) :=
    .step ⟨1, 176, 0⟩ counted rfl ⟨.number 1, loopingMachine [] 0, .inl ⟨rfl, rfl, rfl⟩, looping_store 1 0⟩ (.inl rfl) trivial
  have called : Path loopingContext anyStep 7 (loopingMachine [] 1) :=
    .step ⟨4, 43, 0⟩ (looping_iteration 1 stored) rfl rfl (.inl rfl) trivial
  have branched : Path loopingContext anyStep 11 (loopingMachine [] 1) :=
    .step ⟨7, 29, 3⟩ called rfl rfl (.inr rfl) trivial
  have counted' : Path loopingContext anyStep 12 (loopingMachine [.number 2] 1) :=
    .step ⟨11, 108, 0⟩ branched rfl rfl (.inl rfl) trivial
  have stored' : Path loopingContext anyStep 13 (loopingMachine [] 2) :=
    .step ⟨12, 176, 0⟩ counted' rfl ⟨.number 2, loopingMachine [] 1, .inl ⟨rfl, rfl, rfl⟩, looping_store 2 1⟩ (.inl rfl) trivial
  have repeated : Path loopingContext anyStep 2 (loopingMachine [] 2) :=
    .step ⟨13, 89, 0xFFF4⟩ stored' rfl rfl (.inr rfl) trivial
  exact looping_iteration 2 repeated

theorem looping_visit :
    ∀ visit ∈ (analyzeHandler loopingContext false maxInstructions maxWork).visits, visit.instruction.pc = 4 →
      visit.instruction.op = 43 := by
  decide +kernel

theorem looping_unsound : ¬ Sound loopingContext anyStep (analyzeHandler loopingContext false maxInstructions maxWork) := by
  intro sound
  obtain ⟨visit, visited, same, passes⟩ := sound.arguments ⟨ascii "f", 44, [.number 1]⟩ (by
    rw [show loopingContext = ⟨looping, loopingHandler, []⟩ from rfl, looping_call]
    exact List.mem_singleton_self _)
  have at_call : visit.instruction.pc = 4 := by
    simp only [loopingContext, loopingHandler] at same
    omega
  rw [at_call, looping_visit visit visited at_call] at passes
  rcases passes _ looping_path with unknown | ⟨data, passed, shown⟩
  · cases unknown
  · have two : (loopingMachine [.number 1, .number 2] 2).arguments 43 = some [.number 2] := rfl
    rw [two] at passed
    cases passed
    cases shown with
    | cons first others => cases first

theorem analyze_stale_argument :
    analyzed looping = [analyzeHandler loopingContext false maxInstructions maxWork] ∧
      ¬ Sound loopingContext anyStep (analyzeHandler loopingContext false maxInstructions maxWork) := by
  have analysis := looping_analyzed
  rw [looping_context] at analysis
  exact ⟨analysis, looping_unsound⟩

theorem analyze_foreseen_looping :
    ∃ h ∈ (handlers looping).1, ∃ remaining work,
      analyzeHandler loopingContext false maxInstructions maxWork =
          analyzeHandler (contextOf looping h) (handlers looping).2 remaining work ∧
        Sound (contextOf looping h) (Foreseen ((contextOf looping h).kept remaining))
          (analyzeHandler loopingContext false maxInstructions maxWork) := by
  apply analyze_foreseen looping
  rw [looping_analyzed, looping_context]
  exact List.mem_singleton_self _

end Filefacts.Scpt
