import Filefacts.Scpt.ArenaRecords

set_option autoImplicit false

namespace Filefacts.Scpt

open Threaded (bind_done)

def Returns (node : Nat) (read : Except Stopped (Nat × Parser)) : Prop := ∀ id q, read = .ok (id, q) → id = node

theorem returns_ok (node : Nat) (q : Parser) : Returns node (.ok (node, q)) := by
  rintro _ _ ⟨⟩
  rfl

theorem returns_failed (node : Nat) (stopped : Stopped) : Returns node (.error stopped) := by
  rintro _ _ ⟨⟩

variable {α : Type}

theorem returns_bind (node : Nat) (read : Except Stopped (α × Parser)) (next : α × Parser → Except Stopped (Nat × Parser))
    (rest : ∀ result, Returns node (next result)) : Returns node (read >>= next) := by
  intro id q ran
  obtain ⟨first, -, ran⟩ := (bind_done _ _ _).mp ran
  exact rest first id q ran

variable (p : Parser) (frame : Pending) (below : List Pending) (value : Value) (child : Nat)

theorem collection_returns (node : Nat) (tag : Option UInt8) (count : Nat) (metadata : List Nat) :
    Returns node (p.collection node tag count metadata) :=
  returns_bind node _ _ fun pair => returns_ok node pair.2

theorem string_returns (node : Nat) : Returns node (p.string node) := by
  refine returns_bind node _ _ fun _ => returns_bind node _ _ fun _ => returns_bind node _ _ fun _ => ?_
  refine returns_bind node _ _ fun _ => returns_bind node _ _ fun _ => ?_
  dsimp only
  split
  · exact returns_ok node _
  · exact returns_ok node _

theorem data_returns (node kind size : Nat) : Returns node (p.dataRecord node kind size) := by
  have read : ∀ (tag : Option UInt8) (size : Nat) (q : Parser), Returns node
      (if kind = 15 ∧ tag = some 8 ∧ size < 94 then .error (q.error "application descriptor shorter than 94 bytes")
      else q.payload tag size >>= fun pair => .ok (node, pair.2.replace node pair.1)) := by
    intro tag size q
    split
    · exact returns_failed node _
    · exact returns_bind node _ _ fun pair => returns_ok node _
  rw [Parser.dataRecord]
  split
  · refine returns_bind node _ _ fun tag => ?_
    split
    · exact returns_bind node _ _ fun size => read tag.1 size.1 size.2
    · exact read tag.1 size tag.2
  · change Returns node (if kind = 18 ∨ kind = 19 then _ else _)
    split
    · exact returns_bind node _ _ fun size => read none size.1 size.2
    · exact read none size p

theorem body_returns (offset node kind size : Nat) : Returns node (p.body offset node kind size) := by
  rw [Parser.body.eq_def]
  split
  · split
    · exact returns_ok node _
    · exact returns_bind node _ _ fun code => returns_ok node _
  · split
    · exact collection_returns p node none 0 []
    · split
      · exact collection_returns p node none size []
      · exact returns_failed node _
  · exact returns_ok node _
  · exact returns_bind node _ _ fun tag => collection_returns tag.2 node _ size []
  · split
    · exact collection_returns p node none 0 []
    · split
      · exact collection_returns p node none size []
      · exact returns_failed node _
  · split
    · exact returns_bind node _ _ fun number => returns_ok node _
    · exact returns_failed node _
  · split
    · exact returns_bind node _ _ fun entry => returns_ok node _
    · exact returns_failed node _
  · exact returns_ok node _
  · exact returns_bind node _ _ fun value => returns_ok node _
  · exact returns_bind node _ _ fun text => returns_ok node _
  · exact string_returns p node
  · refine returns_bind node _ _ fun tag => returns_bind node _ _ fun info => returns_bind node _ _ fun start => ?_
    exact returns_bind node _ _ fun stop => collection_returns stop.2 node _ size _
  · exact returns_bind node _ _ fun tag => collection_returns tag.2 node _ size []
  · exact data_returns p node _ size
  · exact collection_returns p node none size []
  · exact data_returns p node _ size
  · exact data_returns p node _ size
  · exact data_returns p node _ size
  · exact returns_failed node _

variable {q : Parser}

theorem object_done {lent : Option Nat} {p : Parser} {expected : Int} {id : Nat} (inv : Inv lent p)
    (read : p.object expected = .ok (id, q)) : p.pos < q.pos ∧ id < q.nodes.length := by
  rw [Parser.object] at read
  obtain ⟨⟨kind, q₁⟩, first, read⟩ := (bind_done _ _ _).mp read
  obtain ⟨⟨reference, q₂⟩, second, read⟩ := (bind_done _ _ _).mp read
  obtain ⟨⟨size, q₃⟩, third, read⟩ := (bind_done _ _ _).mp read
  have kept := header_inv lent p kind first second third inv
  obtain ⟨declared, rfl⟩ := header_declares p kind first second third
  dsimp only at read
  split at read
  · cases read
  · have steps := record_steps lent (p.past 5) p.pos kind size (signed 16 reference) kept declared
    refine ⟨Nat.lt_of_lt_of_le (Nat.lt_add_of_pos_right (by decide : 0 < 5)) (steps.done id q read).forward, ?_⟩
    obtain ⟨⟨node, r⟩, added, read⟩ := (bind_done _ _ _).mp read
    obtain rfl := body_returns _ _ node kind size id q read
    obtain ⟨rfl, rfl⟩ := add_done _ r p.pos added
    have body := registered_steps lent (p.past 5) p.pos kind size (signed 16 reference) kept declared
    refine Nat.lt_of_lt_of_le ?_ (body.done _ q read).objects
    rw [List.length_append]
    exact Nat.lt_succ_self _

theorem pop_inv (inv : Inv none p) (top : p.pending = frame :: below)
    (ended : frame.next = frame.count) : Inv none { p with pending := below } := by
  have nothing : frame.left = 0 := by rw [Pending.left, ended, Nat.sub_self]
  have depth := inv.depth
  have frames := inv.frames
  have total := inv.total
  have declared := inv.declared
  rw [top] at depth frames total declared
  refine ⟨inv.inside, inv.objects, inv.data, Nat.le_of_succ_le depth, inv.edges, inv.items, inv.table,
    fun other found => frames other (List.mem_cons_of_mem _ found), inv.loan, ?_, ?_⟩
  · simpa only [List.map_cons, List.sum_cons, nothing, Nat.zero_add] using total
  · intro i node found vector
    have items := declared i node found vector
    simpa only [owed, List.map_cons, List.sum_cons, nothing, ite_self, Nat.zero_add] using items

def Parser.bump (p : Parser) (frame : Pending) (below : List Pending) : Parser :=
  { p with pending := { frame with next := frame.next + 1 } :: below }

theorem bump_inv (inv : Inv none p) (top : p.pending = frame :: below)
    (unended : frame.next ≠ frame.count) : Inv (some frame.node) (p.bump frame below) := by
  have depth := inv.depth
  have frames := inv.frames
  have total := inv.total
  have declared := inv.declared
  rw [top] at depth frames total declared
  have here := frames frame List.mem_cons_self
  have less : frame.left = Pending.left { frame with next := frame.next + 1 } + 1 := by
    simp only [Pending.left]
    omega
  refine ⟨inv.inside, inv.objects, inv.data, depth, inv.edges, inv.items, inv.table, ?_, ?_, ?_, ?_⟩
  · intro other found
    rcases List.mem_cons.mp found with rfl | found
    · exact ⟨here.1, by simp only; omega⟩
    · exact frames other (List.mem_cons_of_mem _ found)
  · rintro _ ⟨⟩
    exact here.1
  · simp only [List.map_cons, List.sum_cons, less, Option.toList_none, Option.toList_some, List.length_nil, List.length_singleton,
      Parser.bump] at total ⊢
    omega
  · intro i node found vector
    have items := declared i node found vector
    refine Eq.trans items (congrArg some ?_)
    simp only [owed, List.map_cons, List.sum_cons, less, Parser.bump, Option.some.injEq, reduceCtorEq, if_false]
    by_cases same : frame.node = i
    · simp only [if_pos same]
      omega
    · simp only [if_neg same]

theorem push_items (item : Nat) (listed : item ∈ (value.push child).items) : item = child ∨ item ∈ value.items := by
  cases value with
  | vector tag items =>
      rcases List.mem_append.mp listed with listed | listed
      · exact Or.inr listed
      · exact Or.inl (List.mem_singleton.mp listed)
  | _ => exact Or.inr listed

theorem push_vector (vector : (value.push child).isVector) : value.isVector := by
  cases value with
  | vector tag items => rfl
  | _ => exact vector

theorem pushed_length (vector : value.isVector) : (value.push child).items.length = value.items.length + 1 := by
  cases value with
  | vector tag items => exact List.length_append
  | _ => cases vector

theorem push_length : (value.push child).items.length ≤ value.items.length + 1 := by
  cases value with
  | vector tag items => exact Nat.le_of_eq List.length_append
  | _ => exact Nat.le_succ _

theorem attach_inv {parent child : Nat} (inv : Inv (some parent) p) (inside : child < p.nodes.length) :
    Inv none (p.attach parent child) := by
  have same : (p.attach parent child).nodes.length = p.nodes.length := List.length_modify _ _ _
  refine ⟨inv.inside, by rw [same]; exact inv.objects, inv.data, inv.depth, inv.edges, ?_, by rw [same]; exact inv.table,
    by rw [same]; exact inv.frames, by rintro _ ⟨⟩, ?_, ?_⟩
  · intro node found item listed
    rw [same]
    obtain ⟨j, present⟩ := List.mem_iff_getElem?.mp found
    rcases modify_cases present with ⟨-, old, before, rfl⟩ | ⟨-, before⟩
    · rcases push_items old.value child item listed with rfl | listed
      · exact inside
      · exact inv.items old (List.mem_of_getElem? before) item listed
    · exact inv.items node (List.mem_of_getElem? before) item listed
  · have total := inv.total
    have grown := item_count_modify p.nodes parent (fun entry => { entry with value := entry.value.push child }) 1
      fun node _ => push_length node.value child
    simp only [Option.toList_some, Option.toList_none, List.length_singleton, List.length_nil, Parser.attach] at total grown ⊢
    omega
  · intro j node found vector
    rcases modify_cases found with ⟨rfl, old, before, rfl⟩ | ⟨other, before⟩
    · have items := inv.declared parent old before (push_vector old.value child vector)
      rw [if_pos rfl] at items
      refine items.trans (congrArg some ?_)
      rw [pushed_length old.value child (push_vector old.value child vector), if_neg (by simp)]
      simp only [Parser.attach]
      omega
    · have items := inv.declared j node before vector
      rw [if_neg (fun lent => other (Option.some.inj lent))] at items
      exact items

def Parser.shared (p : Parser) (id : Int) : Option Nat := if 0 ≤ id then p.refs.lookup id.toNat else none

inductive Round (p : Parser) : Option (Nat × Nat) → Parser → Prop
  | ended (frame : Pending) (below : List Pending) (top : p.pending = frame :: below) (ended : frame.next = frame.count) :
      Round p none { p with pending := below }
  | shared (frame : Pending) (below : List Pending) (word : List UInt8) (child : Nat) (top : p.pending = frame :: below)
      (unended : frame.next ≠ frame.count) (taken : Bytes.arrayAt p.bytes 2 (frame.refs + frame.next * 2) = some word)
      (known : p.shared (signed 16 (BigEndian.value word)) = some child) : Round p none ((p.bump frame below).attach frame.node child)
  | read (frame : Pending) (below : List Pending) (word : List UInt8) (child : Nat) (q : Parser) (top : p.pending = frame :: below)
      (unended : frame.next ≠ frame.count) (taken : Bytes.arrayAt p.bytes 2 (frame.refs + frame.next * 2) = some word)
      (unknown : p.shared (signed 16 (BigEndian.value word)) = none)
      (object : (p.bump frame below).object (signed 16 (BigEndian.value word)) = .ok (child, q)) :
      Round p (some (p.pos, q.pos)) (q.attach frame.node child)

theorem bump_credit (inv : Inv none p) (top : p.pending = frame :: below)
    (unended : frame.next ≠ frame.count) : (p.bump frame below).credit < p.credit := by
  have here := (inv.frames frame (top ▸ List.mem_cons_self)).2
  simp only [Parser.credit, Parser.bump, top, List.map_cons, List.sum_cons, Pending.left]
  omega

theorem attach_objects (parent child : Nat) : p.nodes.length ≤ (p.attach parent child).nodes.length :=
  Nat.le_of_eq (List.length_modify _ _ _).symm

structure Rounded (p q : Parser) (reading : Option (Nat × Nat)) : Prop where
  inv : Inv none q
  bytes : q.bytes = p.bytes
  forward : p.pos ≤ q.pos
  objects : p.nodes.length ≤ q.nodes.length
  credit : q.credit < p.credit
  extent : ∀ extent ∈ reading, extent = (p.pos, q.pos) ∧ p.pos < q.pos

theorem round_kept {reading : Option (Nat × Nat)} (inv : Inv none p) (round : Round p reading q) : Rounded p q reading := by
  cases round with
  | ended frame below top ended =>
      refine ⟨pop_inv p frame below inv top ended, rfl, Nat.le_refl _, Nat.le_refl _, ?_, by rintro _ ⟨⟩⟩
      simp only [Parser.credit, top, List.map_cons, List.sum_cons]
      omega
  | shared frame below word child top unended taken known =>
      have bumped := bump_inv p frame below inv top unended
      have inside : child < p.nodes.length := by
        rw [Parser.shared] at known
        split at known
        · obtain ⟨later, earlier, table, -⟩ := List.lookup_eq_some_iff.mp known
          exact inv.table (_, child) (table ▸ List.mem_append_right later List.mem_cons_self)
        · cases known
      exact ⟨attach_inv _ bumped inside, rfl, Nat.le_refl _, attach_objects _ frame.node child,
        bump_credit p frame below inv top unended, by rintro _ ⟨⟩⟩
  | read frame below word child q top unended taken unknown object =>
      have bumped := bump_inv p frame below inv top unended
      have reads := (object_steps _ _ _ bumped).done child q object
      obtain ⟨forward, inside⟩ := object_done bumped object
      refine ⟨attach_inv q (reads.inv bumped) inside, reads.bytes, reads.forward, ?_, ?_, ?_⟩
      · exact reads.objects.trans (attach_objects q frame.node child)
      · exact Nat.lt_of_le_of_lt reads.credit (bump_credit p frame below inv top unended)
      · rintro _ ⟨⟩
        exact ⟨rfl, forward⟩

open Threaded (bind_done)

def initial (bytes : List UInt8) : Parser := ⟨bytes, 0, [], [], [], 0, 0⟩

theorem initial_inv (bytes : List UInt8) : Inv none (initial bytes) where
  inside := Nat.zero_le _
  objects := Nat.zero_le _
  data := Nat.zero_le _
  depth := Nat.zero_le _
  edges := Nat.zero_le _
  items := fun _ found => absurd found List.not_mem_nil
  table := fun _ found => absurd found List.not_mem_nil
  frames := fun _ found => absurd found List.not_mem_nil
  loan := by rintro _ ⟨⟩
  total := Nat.le_refl _
  declared := by rintro _ _ ⟨⟩

theorem shebang_steps (start : p.pos = 0) : ReadMoves none p p.shebang := by
  rw [Parser.shebang]
  split
  · cases found : p.bytes.findIdx? (· == 10) with
    | none => exact steps_failed none p _
    | some newline =>
        have inside := (List.findIdx?_eq_some_iff_getElem.mp found).1
        refine steps_done none p _ () ⟨fun inv => ?_, rfl, ?_, Nat.le_refl _, Nat.le_refl _, Nat.le_refl _, Nat.le_refl _⟩
        · exact ⟨inside, inv.objects, inv.data, inv.depth, inv.edges, inv.items, inv.table, inv.frames, inv.loan, inv.total, inv.declared⟩
        · rw [start]
          exact Nat.zero_le _
  · exact steps_done none p p () (reads_refl none p)

theorem version_steps : ReadMoves none p p.versionWord := by
  rw [Parser.versionWord]
  refine steps_bind none p _ (array_steps none p 4) fun word q _ => ?_
  dsimp only
  split
  · exact steps_done none q q word (reads_refl none q)
  · exact steps_failed none q _

theorem header_steps (start : p.pos = 0) : ReadMoves none p p.header := by
  have effective : ∀ (word : List UInt8) (q : Parser), ReadMoves none q
      (if atLeast version097 word || atLeast word version111 then .error (q.error "unsupported effective version")
      else .ok (word, q)) := by
    intro word q
    split
    · exact steps_failed none q _
    · exact steps_done none q q word (reads_refl none q)
  rw [Parser.header]
  refine steps_bind none p _ (shebang_steps p start) fun _ q _ => ?_
  refine steps_bind none q _ (array_steps none q 8) fun found q _ => ?_
  dsimp only
  split
  · exact steps_failed none q _
  · refine steps_bind none q _ (version_steps q) fun outer q _ => ?_
    split
    · exact steps_bind none q _ (version_steps q) fun word q _ => effective word q
    · exact effective outer q

inductive Run (bytes : List UInt8) : List (Nat × Nat) → Parser → Prop
  | root (version : Text) (p : Parser) (node : Nat) (q : Parser) (header : (initial bytes).header = .ok (version, p))
      (object : p.object 0 = .ok (node, q)) : Run bytes [(p.pos, q.pos)] q
  | round (history : List (Nat × Nat)) (p : Parser) (reading : Option (Nat × Nat)) (q : Parser) (run : Run bytes history p)
      (round : Round p reading q) : Run bytes (history ++ reading.toList) q

-- The states of a parse: the loop, and what a record that could not be read to its end left.
inductive Reached (bytes : List UInt8) : List (Nat × Nat) → Parser → Prop
  | header (version : Text) (p : Parser) (header : (initial bytes).header = .ok (version, p)) : Reached bytes [] p
  | running (history : List (Nat × Nat)) (p : Parser) (run : Run bytes history p) : Reached bytes history p
  | stopped (history : List (Nat × Nat)) (p : Parser) (frame : Pending) (below : List Pending) (id : Int) (error : ParseError)
      (q : Parser) (run : Run bytes history p) (top : p.pending = frame :: below) (unended : frame.next ≠ frame.count)
      (object : (p.bump frame below).object id = .error ⟨error, q⟩) : Reached bytes history q

structure Forward (history : List (Nat × Nat)) (pos : Nat) : Prop where
  apart : history.Pairwise fun earlier later => earlier.2 ≤ later.1
  proper : ∀ extent ∈ history, extent.1 < extent.2
  past : ∀ extent ∈ history, extent.2 ≤ pos

structure Parser.Within (p : Parser) : Prop where
  inside : p.pos ≤ p.bytes.length
  objects : p.nodes.length ≤ maxObjects
  data : p.data ≤ maxData
  depth : p.pending.length ≤ maxDepth
  edges : p.edges ≤ maxEdges

theorem inv_within (lent : Option Nat) (p : Parser) (inv : Inv lent p) : p.Within :=
  ⟨inv.inside, inv.objects, inv.data, inv.depth, inv.edges⟩

variable (bytes : List UInt8) (history : List (Nat × Nat))

variable {version : Text} {pos later : Nat}

theorem header_kept {p : Parser} (header : (initial bytes).header = .ok (version, p)) : Inv none p ∧ p.bytes = bytes := by
  have reads := (header_steps (initial bytes) rfl).done version p header
  exact ⟨reads.inv (initial_inv bytes), reads.bytes⟩

theorem forward_later (forward : Forward history pos) (after : pos ≤ later) : Forward history later :=
  ⟨forward.apart, forward.proper, fun extent found => (forward.past extent found).trans after⟩

theorem forward_read (forward : Forward history pos) (after : pos < later) : Forward (history ++ [(pos, later)]) later := by
  refine ⟨List.pairwise_append.mpr ⟨forward.apart, List.pairwise_singleton _ _, ?_⟩, ?_, ?_⟩
  · intro earlier found last same
    rw [List.mem_singleton.mp same]
    exact forward.past earlier found
  · intro extent found
    rcases List.mem_append.mp found with found | found
    · exact forward.proper extent found
    · rw [List.mem_singleton.mp found]
      exact after
  · intro extent found
    rcases List.mem_append.mp found with found | found
    · exact (forward.past extent found).trans (Nat.le_of_lt after)
    · rw [List.mem_singleton.mp found]

theorem run_kept (p : Parser) (run : Run bytes history p) : Inv none p ∧ p.bytes = bytes ∧ Forward history p.pos := by
  induction run with
  | root version p node q header object =>
      obtain ⟨inv, same⟩ := header_kept bytes header
      have reads := (object_steps none p 0 inv).done node q object
      have forward := (object_done inv object).1
      refine ⟨reads.inv inv, reads.bytes.trans same, forward_read [] ⟨List.Pairwise.nil, ?_, ?_⟩ forward⟩
      · exact fun _ found => absurd found List.not_mem_nil
      · exact fun _ found => absurd found List.not_mem_nil
  | round history p reading q run round ih =>
      obtain ⟨inv, same, forward⟩ := ih
      have kept := round_kept p inv round
      refine ⟨kept.inv, kept.bytes.trans same, ?_⟩
      cases reading with
      | none =>
          rw [Option.toList_none, List.append_nil]
          exact forward_later history forward kept.forward
      | some extent =>
          obtain ⟨rfl, after⟩ := kept.extent extent rfl
          exact forward_read history forward after

theorem reached_kept (p : Parser) (reached : Reached bytes history p) :
    (∃ lent, Inv lent p) ∧ p.bytes = bytes ∧ Forward history p.pos := by
  cases reached with
  | header version p header =>
      obtain ⟨inv, same⟩ := header_kept bytes header
      refine ⟨⟨none, inv⟩, same, List.Pairwise.nil, ?_, ?_⟩
      · exact fun _ found => absurd found List.not_mem_nil
      · exact fun _ found => absurd found List.not_mem_nil
  | running history p run =>
      obtain ⟨inv, same, forward⟩ := run_kept bytes history p run
      exact ⟨⟨none, inv⟩, same, forward⟩
  | stopped history before frame below id error q run top unended object =>
      obtain ⟨inv, same, forward⟩ := run_kept bytes history before run
      have bumped := bump_inv before frame below inv top unended
      have reads := (object_steps _ _ id bumped).failed ⟨error, p⟩ object
      exact ⟨⟨some frame.node, reads.inv bumped⟩, reads.bytes.trans same,
        forward_later history forward reads.forward⟩

structure Walked (bytes : List UInt8) (p : Parser) (result : Except ParseError (Parser × Option String)) : Prop where
  done : ∀ q truncated, result = .ok (q, truncated) → p.nodes.length ≤ q.nodes.length ∧
    ∃ history, Reached bytes history q ∧ (truncated = none → q.pending = [] ∧ Inv none q)
  failed : ∀ error, result = .error error → ∃ offset reason, error = .malformed offset reason

theorem walk_walked (fuel : Nat) (history : List (Nat × Nat)) (p : Parser) (run : Run bytes history p)
    (enough : p.credit < fuel) : Walked bytes p (p.walk fuel) := by
  induction fuel generalizing history p with
  | zero => exact absurd enough (Nat.not_lt_zero _)
  | succ fuel ih =>
      have inv := (run_kept bytes history p run).1
      have again : ∀ reading q, Round p reading q → Walked bytes p (q.walk fuel) := by
        intro reading q round
        have kept := round_kept p inv round
        have spent := kept.credit
        have later := ih _ q (.round history p reading q run round) (by omega)
        refine ⟨fun r truncated walked => ?_, later.failed⟩
        obtain ⟨grown, rest⟩ := later.done r truncated walked
        exact ⟨kept.objects.trans grown, rest⟩
      rw [Parser.walk]
      cases top : p.pending with
      | nil =>
          refine ⟨?_, by rintro _ ⟨⟩⟩
          rintro _ _ ⟨⟩
          exact ⟨Nat.le_refl _, history, .running history p run, fun _ => ⟨top, inv⟩⟩
      | cons frame below =>
          by_cases ended : frame.next = frame.count
          · simp only [if_pos ended]
            exact again none _ (.ended frame below top ended)
          · simp only [if_neg ended]
            cases taken : Bytes.arrayAt p.bytes 2 (frame.refs + frame.next * 2) with
            | none =>
                refine ⟨by rintro _ _ ⟨⟩, ?_⟩
                rintro _ ⟨⟩
                exact ⟨_, _, rfl⟩
            | some word =>
                cases known : p.shared (signed 16 (BigEndian.value word)) with
                | some child =>
                    have round := again none _ (.shared frame below word child top ended taken known)
                    rw [Parser.shared] at known
                    simp only [known]
                    exact round
                | none =>
                    have unknown := known
                    rw [Parser.shared] at known
                    simp only [known]
                    cases object : (p.bump frame below).object (signed 16 (BigEndian.value word)) with
                    | ok pair =>
                        have round := again _ _ (.read frame below word pair.1 pair.2 top ended taken unknown object)
                        rw [Parser.bump] at object
                        simp only [object]
                        exact round
                    | error stopped =>
                        have reached := Reached.stopped history p frame below _ stopped.error stopped.parser run top ended object
                        have grown := ((object_steps _ _ _ (bump_inv p frame below inv top ended)).failed stopped object).objects
                        rw [Parser.bump] at object
                        simp only [object]
                        rcases stopped with ⟨_ | _, q⟩
                        · refine ⟨?_, by rintro _ ⟨⟩⟩
                          rintro _ _ ⟨⟩
                          exact ⟨grown, history, reached, by rintro ⟨⟩⟩
                        · refine ⟨by rintro _ _ ⟨⟩, ?_⟩
                          rintro _ ⟨⟩
                          exact ⟨_, _, rfl⟩

-- An arena without dangling references, as large as the limits allow and, where nothing cut it short, as large as declared.
structure Parsed.Arena (parsed : Parsed) (bytes : List UInt8) : Prop where
  root : parsed.root < parsed.nodes.length
  items : ∀ node ∈ parsed.nodes, ∀ item ∈ node.value.items, item < parsed.nodes.length
  edges : itemCount parsed.nodes ≤ maxEdges
  whole : parsed.truncated = none → ∀ node ∈ parsed.nodes, node.value.isVector →
    declaredAt bytes node.offset = some node.value.items.length

theorem raise_done (read : Except Stopped α) (result : α) (raised : Stopped.raise read = .ok result) : read = .ok result := by
  cases read with
  | ok first => exact congrArg Except.ok (Except.ok.inj raised)
  | error failure => cases raised

theorem root_credit {p : Parser} {node : Nat}
    (header : (initial bytes).header = .ok (version, p)) (object : p.object 0 = .ok (node, q)) : q.credit < rounds := by
  have headed := ((header_steps (initial bytes) rfl).done version p header).credit
  have reads := ((object_steps none p 0 (header_kept bytes header).1).done node q object).credit
  have most : (initial bytes).credit < rounds := by
    simp only [Parser.credit, initial, rounds, List.map_nil, List.sum_nil]
    omega
  exact Nat.lt_of_le_of_lt (reads.trans headed) most

theorem parse_parts (parsed : Parsed) (ran : parse bytes = .ok parsed) :
    ∃ p q r, (initial bytes).header = .ok (parsed.version, p) ∧ p.object 0 = .ok (parsed.root, q) ∧
      q.walk rounds = .ok (r, parsed.truncated) ∧ parsed.nodes = r.nodes := by
  rw [parse] at ran
  split at ran
  · cases ran
  · obtain ⟨⟨version, p⟩, header, ran⟩ := (bind_done _ _ _).mp ran
    obtain ⟨⟨root, q⟩, object, ran⟩ := (bind_done _ _ _).mp ran
    obtain ⟨⟨r, truncated⟩, walked, ran⟩ := (bind_done _ _ _).mp ran
    obtain rfl := Except.ok.inj ran
    exact ⟨p, q, r, raise_done _ _ header, raise_done _ _ object, walked, rfl⟩

theorem parsed_arena (parsed : Parsed) (ran : parse bytes = .ok parsed) :
    parsed.Arena bytes ∧ ∃ history p, Reached bytes history p ∧ parsed.nodes = p.nodes := by
  obtain ⟨p, q, r, header, object, walked, nodes⟩ := parse_parts bytes parsed ran
  have run := Run.root parsed.version p parsed.root q header object
  have credit := root_credit bytes header object
  obtain ⟨grown, history, reached, whole⟩ := (walk_walked bytes rounds _ q run credit).done r parsed.truncated walked
  obtain ⟨⟨lent, inv⟩, same, -⟩ := reached_kept bytes history r reached
  have root := (object_done (header_kept bytes header).1 object).2
  refine ⟨⟨?_, ?_, ?_, fun untruncated => ?_⟩, history, r, reached, nodes⟩
  · rw [nodes]
    exact Nat.lt_of_lt_of_le root grown
  · rw [nodes]
    exact inv.items
  · rw [nodes]
    have total := inv.total
    have edges := inv.edges
    omega
  · obtain ⟨none, inv⟩ := whole untruncated
    rw [nodes]
    intro node found vector
    obtain ⟨i, present⟩ := List.mem_iff_getElem?.mp found
    have items := inv.declared i node present vector
    rw [none, same] at items
    exact items

theorem run_credit (p : Parser) (run : Run bytes history p) : p.credit < rounds := by
  induction run with
  | root version p node q header object => exact root_credit bytes header object
  | round history p reading q run round ih =>
      exact (round_kept p (run_kept bytes history p run).1 round).credit.trans ih

theorem rounds_end (states : Nat → Parser) (history : List (Nat × Nat)) (run : Run bytes history (states 0))
    (rounds : ∀ n, ∃ reading, Round (states n) reading (states (n + 1))) : False := by
  have runs : ∀ n, ∃ history, Run bytes history (states n) := by
    intro n
    induction n with
    | zero => exact ⟨history, run⟩
    | succ n ih =>
        obtain ⟨history, run⟩ := ih
        obtain ⟨reading, round⟩ := rounds n
        exact ⟨_, .round history (states n) reading _ run round⟩
  have spent : ∀ n, (states n).credit + n ≤ (states 0).credit := by
    intro n
    induction n with
    | zero => exact Nat.le_refl _
    | succ n ih =>
        obtain ⟨history, run⟩ := runs n
        obtain ⟨reading, round⟩ := rounds n
        have less := (round_kept _ (run_kept bytes history _ run).1 round).credit
        omega
  have last := spent ((states 0).credit + 1)
  omega

theorem parse_arena (bytes : List UInt8) :
    (∀ parsed, parse bytes = .ok parsed → parsed.Arena bytes ∧ ∃ history p, Reached bytes history p ∧ parsed.nodes = p.nodes) ∧
      (∀ history p, Reached bytes history p → p.Within ∧ Forward history p.pos) ∧
      (¬ ∃ states : Nat → Parser, (∃ history, Run bytes history (states 0)) ∧
        ∀ n, ∃ reading, Round (states n) reading (states (n + 1))) ∧
      ∀ history p error, Run bytes history p → p.walk rounds = .error error → ∃ offset reason, error = .malformed offset reason := by
  refine ⟨parsed_arena bytes, ?_, ?_, ?_⟩
  · intro history p reached
    obtain ⟨⟨lent, inv⟩, -, forward⟩ := reached_kept bytes history p reached
    exact ⟨inv_within lent p inv, forward⟩
  · rintro ⟨states, ⟨history, run⟩, rounds⟩
    exact rounds_end bytes states history run rounds
  · intro history p error run
    exact (walk_walked bytes rounds history p run (run_credit bytes history p run)).failed error

def selfReference : List UInt8 := magic ++ version110 ++ version110 ++ [16, 0, 0, 0, 1, 0, 0]

theorem parse_arena_cycle : Parsed.Arena ⟨[⟨16, .vector none [0]⟩], 0, version110, none⟩ selfReference := 
  ((parse_arena selfReference).1 _ (by decide +kernel)).1

end Filefacts.Scpt
