import Filefacts.Scpt.Records

set_option autoImplicit false

namespace Filefacts.Scpt

theorem kind_fits {V : Type} (c : Content V) (formed : c.WellFormed) : c.kind < 256 := by
  cases c with
  | vector kind tag items =>
      have kinds := formed.1
      simp only [Content.kind]
      omega
  | data kind tag octets =>
      rcases formed with ⟨same, -⟩ | ⟨same, -⟩ | ⟨same | same, -⟩ <;> simp [Content.kind, same]
  | _ => simp [Content.kind]

theorem size_fits {V : Type} (c : Content V) (formed : c.WellFormed) : c.size < 2 ^ 16 := by
  cases c with
  | constant size code => exact formed.2.1
  | emptyBinding size =>
      have small : size ≤ 1 := formed
      simp only [Content.size]
      omega
  | small number => exact (signed_unsigned 16 number (by omega) formed.1 formed.2).2
  | vector kind tag items => exact formed.2
  | bool size => exact formed
  | name size first second => exact formed.1
  | string size text style => exact formed.1
  | command tag info start stop items => exact formed.2.2.2
  | untagged items => exact formed
  | data kind tag octets =>
      rcases formed with ⟨same, size, -⟩ | ⟨same, size⟩ | ⟨same | same, -⟩ <;> simp [Content.size, same]
      · exact size
      · exact size
  | _ => simp [Content.size]

theorem value_push {V : Type} (c : Content V) (items : List Nat) (child : Nat) (collects : c.children ≠ []) :
    (c.value items).push child = c.value (items ++ [child]) := by
  cases c with
  | list _ _ => rfl
  | binding _ _ _ => rfl
  | vector _ _ _ => rfl
  | command _ _ _ _ _ => rfl
  | untagged _ => rfl
  | _ => exact absurd rfl collects

section RoundTrip

variable {V : Type} [Fintype V] [DecidableEq V] (g : Graph V)

variable (vs : List V)

theorem references_length : (g.references vs).length = vs.length * 2 := by
  induction vs with
  | nil => rfl
  | cons v rest ih =>
      have one : (word (unsigned 16 (g.ident v))).length = 2 := BigEndian.octets_of_length 2 _
      simp only [Graph.references, List.flatMap_cons, List.length_append, List.length_cons] at ih ⊢
      omega

structure Taken (v : V) (p after : Parser) (rest : List UInt8) : Prop where
  input : after.At rest
  bytes : after.bytes = p.bytes
  table : after.refs = if 0 ≤ g.ident v then ((g.ident v).toNat, p.nodes.length) :: p.refs else p.refs
  values : after.nodes.map Node.value = p.nodes.map Node.value ++
    (g.content v).value (List.range' (p.nodes.length + 1) (g.content v).pieces.length) :: (g.content v).pieces
  data : after.data = p.data + (g.content v).owned
  edges : after.edges = p.edges + ((g.children v).length + (g.content v).pieces.length)
  pending : g.children v = [] ∧ after.pending = p.pending ∨
    g.children v ≠ [] ∧ ∃ start back, after.pending = ⟨p.nodes.length, start, (g.children v).length, 0⟩ :: p.pending ∧
      start ≤ p.bytes.length ∧ p.bytes.drop start = g.references (g.children v) ++ back

theorem object_reads (v : V) (p : Parser) (rest : List UInt8) (left : p.At (g.record v ++ rest))
    (data : p.data + (g.content v).owned ≤ maxData)
    (edges : p.edges + ((g.children v).length + (g.content v).pieces.length) ≤ maxEdges)
    (objects : p.nodes.length + 1 + (g.content v).pieces.length ≤ maxObjects)
    (depth : g.children v ≠ [] → p.pending.length < maxDepth) :
    ∃ after, p.object (g.ident v) = .ok (p.nodes.length, after) ∧ Taken g v p after rest := by
  obtain ⟨same, word_fits⟩ := signed_unsigned 16 (g.ident v) (by omega) (g.fits v).1 (g.fits v).2
  simp only [Graph.record, List.cons_append, List.append_assoc] at left
  have read_kind := octet_reads p left
  have left := octet_past p left
  have read_word := word_reads _ word_fits left
  have left := word_past _ _ _ left
  have read_size := word_reads _ (size_fits _ (g.formed v)) left
  have left := word_past _ _ _ left
  have kind : (UInt8.ofNat (g.content v).kind).toNat = (g.content v).kind := by
    rw [UInt8.toNat_ofNat']
    exact Nat.mod_eq_of_lt (kind_fits _ (g.formed v))
  have room : ¬ maxObjects ≤ p.nodes.length := by omega
  -- The record's node waits at the end of the arena while its body is read.
  let started : Parser :=
    ({ ((p.past 1).past 2).past 2 with nodes := p.nodes ++ [⟨p.pos, .unknown⟩] } : Parser).register (g.ident v) p.nodes.length
  have fields : started.nodes = p.nodes ++ [⟨p.pos, .unknown⟩] ∧ started.bytes = p.bytes ∧ started.pending = p.pending ∧
      started.data = p.data ∧ started.edges = p.edges ∧ started.pos = (((p.past 1).past 2).past 2).pos := by
    by_cases named : 0 ≤ g.ident v <;> simp [started, Parser.register, named, Parser.past]
  obtain ⟨nodes, bytes, pending, data', edges', pos⟩ := fields
  have start : started.At ((g.content v).head ++ (g.references (g.children v) ++ ((g.content v).tail ++ rest))) := by
    refine ⟨?_, ?_, ?_⟩
    · rw [pos, bytes]
      exact left.inside
    · rw [bytes]
      exact left.short
    · rw [pos, bytes]
      exact left.left
  obtain ⟨after, read, made⟩ := body_reads (g.content v) p.nodes ⟨p.pos, .unknown⟩ started rest (g.references (g.children v)) p.pos
    (g.formed v) (references_length g _) nodes start (by rw [data']; exact data) (by rw [edges']; exact edges) objects (by
      rw [pending]
      exact depth)
  refine ⟨after, ?_, ?_⟩
  · simp only [Parser.object, read_kind, read_word, read_size, bind, Except.bind, same, ne_eq, not_true_eq_false, if_false,
      Parser.add]
    rw [if_neg (by simpa [Parser.past] using room)]
    simp only [kind]
    exact read
  · refine ⟨made.input, made.bytes.trans bytes, ?_, made.values, by rw [made.data, data'], by rw [made.edges, edges']; rfl, ?_⟩
    · rw [made.table]
      by_cases named : 0 ≤ g.ident v <;> simp [started, Parser.register, named, Parser.past]
    · have left_pending := made.pending
      rw [pending, bytes] at left_pending
      exact left_pending

-- The nodes of the objects taken so far: each with its pieces behind it, and with as many items as are done.
structure Placed (place : V → Nat) (taken : List V) (done : V → Nat) (arena : List Value) : Prop where
  values : ∀ v ∈ taken, arena[place v]? = some ((g.content v).value
    (List.range' (place v + 1) (g.content v).pieces.length ++ ((g.children v).take (done v)).map place))
  pieces : ∀ v ∈ taken, ∀ index < (g.content v).pieces.length, arena[place v + 1 + index]? = (g.content v).pieces[index]?
  apart : ∀ u ∈ taken, ∀ v ∈ taken, u ≠ v → place u + 1 + (g.content u).pieces.length ≤ place v ∨
    place v + 1 + (g.content v).pieces.length ≤ place u
  inside : ∀ v ∈ taken, place v + 1 + (g.content v).pieces.length ≤ arena.length
  closed : ∀ v ∈ taken, ∀ child ∈ (g.children v).take (done v), child ∈ taken

variable (place : V → Nat) (taken : List V) (done : V → Nat) (fuel : Nat) (trailing : List UInt8)

variable (values : List Value) (table : List (Nat × Nat))

theorem placed_attach (u v : V)
    (placed : Placed g place taken done values) (owner : u ∈ taken) (next : (g.children u)[done u]? = some v) (found : v ∈ taken) :
    Placed g place taken (Function.update done u (done u + 1)) (values.modify (place u) fun value => value.push (place v)) := by
  have collects : g.children u ≠ [] := by
    intro none_left
    rw [none_left] at next
    cases next
  have longer : (g.children u).take (done u + 1) = (g.children u).take (done u) ++ [v] := by
    rw [List.take_add_one, next]
    rfl
  refine ⟨?_, ?_, placed.apart, ?_, ?_⟩
  · intro w listed
    by_cases same : w = u
    · subst same
      rw [List.getElem?_modify_eq, placed.values w listed, Function.update_self, longer, List.map_append, ← List.append_assoc]
      exact congrArg some (value_push (g.content w) _ _ collects)
    · have differ : place u ≠ place w := by
        rcases placed.apart u owner w listed (Ne.symm same) with before | after <;> omega
      rw [List.getElem?_modify_ne _ _ differ, Function.update_of_ne same]
      exact placed.values w listed
  · intro w listed index inside
    have differ : place u ≠ place w + 1 + index := by
      by_cases same : w = u
      · subst same
        omega
      · rcases placed.apart u owner w listed (Ne.symm same) with before | after <;> omega
    rw [List.getElem?_modify_ne _ _ differ]
    exact placed.pieces w listed index inside
  · intro w listed
    rw [List.length_modify]
    exact placed.inside w listed
  · intro w listed child taken_child
    by_cases same : w = u
    · subst same
      rw [Function.update_self, longer] at taken_child
      rcases List.mem_append.mp taken_child with before | last
      · exact placed.closed w listed child before
      · rw [List.mem_singleton.mp last]
        exact found
    · rw [Function.update_of_ne same] at taken_child
      exact placed.closed w listed child taken_child

theorem placed_take (v : V) (placed : Placed g place taken done values) (fresh : v ∉ taken) :
    Placed g (Function.update place v values.length) (v :: taken) (Function.update done v 0)
      (values ++ (g.content v).value (List.range' (values.length + 1) (g.content v).pieces.length) :: (g.content v).pieces) := by
  have others : ∀ w ∈ taken, w ≠ v := fun w listed same => fresh (same ▸ listed)
  have kept : ∀ w ∈ taken, Function.update place v values.length w = place w := fun w listed =>
    Function.update_of_ne (others w listed) _ _
  refine ⟨?_, ?_, ?_, ?_, ?_⟩
  · intro w listed
    rcases List.mem_cons.mp listed with same | listed
    · subst same
      simp only [Function.update_self, List.take_zero, List.map_nil, List.append_nil]
      rw [List.getElem?_append_right (Nat.le_refl _), Nat.sub_self]
      rfl
    · have items : ((g.children w).take (done w)).map (Function.update place v values.length) =
          ((g.children w).take (done w)).map place :=
        List.map_congr_left fun child found => kept child (placed.closed w listed child found)
      have inside := placed.inside w listed
      rw [kept w listed, Function.update_of_ne (others w listed), items, List.getElem?_append_left (by omega)]
      exact placed.values w listed
  · intro w listed index short
    rcases List.mem_cons.mp listed with same | listed
    · subst same
      rw [Function.update_self, List.getElem?_append_right (by omega)]
      have step : values.length + 1 + index - values.length = index + 1 := by omega
      rw [step, List.getElem?_cons_succ]
    · have inside := placed.inside w listed
      rw [kept w listed, List.getElem?_append_left (by omega)]
      exact placed.pieces w listed index short
  · intro u listed_u w listed_w differ
    rcases List.mem_cons.mp listed_u with same_u | listed_u
    · rcases List.mem_cons.mp listed_w with same_w | listed_w
      · exact absurd (same_u.trans same_w.symm) differ
      · right
        rw [same_u, Function.update_self, kept w listed_w]
        exact placed.inside w listed_w
    · rcases List.mem_cons.mp listed_w with same_w | listed_w
      · left
        rw [same_w, Function.update_self, kept u listed_u]
        exact placed.inside u listed_u
      · rw [kept u listed_u, kept w listed_w]
        exact placed.apart u listed_u w listed_w differ
  · intro w listed
    simp only [List.length_append, List.length_cons]
    rcases List.mem_cons.mp listed with same | listed
    · rw [same, Function.update_self]
      omega
    · have inside := placed.inside w listed
      rw [kept w listed]
      omega
  · intro w listed child found
    rcases List.mem_cons.mp listed with same | listed
    · rw [same, Function.update_self, List.take_zero] at found
      cases found
    · rw [Function.update_of_ne (others w listed)] at found
      exact List.mem_cons_of_mem _ (placed.closed w listed child found)

structure Named (place : V → Nat) (taken : List V) (table : List (Nat × Nat)) : Prop where
  registered : ∀ v ∈ taken, 0 ≤ g.ident v → table.lookup (g.ident v).toNat = some (place v)
  only : ∀ id node, table.lookup id = some node → ∃ v ∈ taken, g.ident v = id

theorem named_fresh (v : V) (named : Named g place taken table)
    (fresh : v ∉ taken) (word : 0 ≤ g.ident v) : table.lookup (g.ident v).toNat = none := by
  cases found : table.lookup (g.ident v).toNat with
  | none => rfl
  | some node =>
      obtain ⟨u, listed, same⟩ := named.only _ node found
      have equal := g.distinct u v (by omega) (by omega)
      exact absurd (equal ▸ listed) fresh

theorem named_take (v : V) (node : Nat) (named : Named g place taken table) (fresh : v ∉ taken) :
    Named g (Function.update place v node) (v :: taken)
      (if 0 ≤ g.ident v then ((g.ident v).toNat, node) :: table else table) := by
  by_cases word : 0 ≤ g.ident v
  · rw [if_pos word]
    constructor
    · intro w listed nonnegative
      rcases List.mem_cons.mp listed with same | listed
      · rw [same, Function.update_self, List.lookup_cons_self]
      · have differ : w ≠ v := fun same => fresh (same ▸ listed)
        have words : ((g.ident w).toNat == (g.ident v).toNat) = false := by
          rw [beq_eq_false_iff_ne]
          intro same
          exact differ (g.distinct w v nonnegative (by omega))
        rw [List.lookup_cons, words, Function.update_of_ne differ]
        exact named.registered w listed nonnegative
    · intro id found lookup
      rw [List.lookup_cons] at lookup
      cases same : id == (g.ident v).toNat with
      | true =>
          have equal : id = (g.ident v).toNat := by simpa using same
          exact ⟨v, List.mem_cons_self, by omega⟩
      | false =>
          rw [same] at lookup
          obtain ⟨u, listed, equal⟩ := named.only id found lookup
          exact ⟨u, List.mem_cons_of_mem _ listed, equal⟩
  · rw [if_neg word]
    constructor
    · intro w listed nonnegative
      rcases List.mem_cons.mp listed with same | listed
      · rw [same] at nonnegative
        exact absurd nonnegative word
      · have differ : w ≠ v := fun same => fresh (same ▸ listed)
        rw [Function.update_of_ne differ]
        exact named.registered w listed nonnegative
    · intro id found lookup
      obtain ⟨u, listed, equal⟩ := named.only id found lookup
      exact ⟨u, List.mem_cons_of_mem _ listed, equal⟩

def Opened (place : V → Nat) (done : V → Nat) (bytes : List UInt8) (v : V) (frame : Pending) : Prop :=
  frame.node = place v ∧ frame.next = done v ∧ frame.count = (g.children v).length ∧
    ∃ back, bytes.length ≤ maxInput ∧ frame.refs ≤ bytes.length ∧ bytes.drop frame.refs = g.references (g.children v) ++ back

theorem references_drop (count : Nat) : (g.references vs).drop (count * 2) = g.references (vs.drop count) := by
  induction count generalizing vs with
  | zero => simp
  | succ count ih =>
      cases vs with
      | nil => simp [Graph.references]
      | cons v rest =>
          have one : (word (unsigned 16 (g.ident v))).length = 2 := BigEndian.octets_of_length 2 _
          have step : (count + 1) * 2 = (word (unsigned 16 (g.ident v))).length + count * 2 := by omega
          rw [List.drop_succ_cons, ← ih rest, step]
          exact List.drop_length_add_append (count * 2)

variable {bytes : List UInt8} {v : V} {owners : List V} {u : V} {frames : List (List V)} {p : Parser} {frame : Pending}
  {below : List Pending} {siblings : List V}

theorem reference_reads {back : List UInt8} {start index : Nat} {vs : List V}
    (there : bytes.drop start = g.references vs ++ back) (listed : vs[index]? = some v) :
    Bytes.arrayAt bytes 2 (start + index * 2) = some (word (unsigned 16 (g.ident v))) := by
  obtain ⟨short, same⟩ := List.getElem?_eq_some_iff.mp listed
  have split : vs.drop index = v :: vs.drop (index + 1) := by rw [← same]; exact List.drop_eq_getElem_cons short
  have one : (word (unsigned 16 (g.ident v))).length = 2 := BigEndian.octets_of_length 2 _
  have size := references_length g vs
  have front : bytes.drop (start + index * 2) = word (unsigned 16 (g.ident v)) ++ (g.references (vs.drop (index + 1)) ++ back) := by
    rw [← List.drop_drop, there, List.drop_append_of_le_length (by omega), references_drop, split]
    simp [Graph.references]
  have length := congrArg List.length front
  simp only [List.length_drop, List.length_append] at length
  rw [Bytes.arrayAt, if_pos (by omega), front, ← one, List.take_left]

def shared (v : V) : Bool := 0 ≤ g.ident v

structure Follows (trailing : List UInt8) (place : V → Nat) (taken owners : List V) (done : V → Nat) (fuel : Nat)
    (frames : List (List V)) (p : Parser) : Prop where
  split : frames = owners.map fun v => (g.children v).drop (done v)
  input : p.At ((Traversal.order g.children (shared g) fuel taken frames).flatMap (fun entry => g.record entry.1) ++ trailing)
  nodup : owners.Nodup
  owned : ∀ v ∈ owners, v ∈ taken
  bounded : ∀ v ∈ taken, done v ≤ (g.children v).length
  finished : ∀ v ∈ taken, v ∉ owners → done v = (g.children v).length
  pending : List.Forall₂ (Opened g place done p.bytes) owners p.pending
  placed : Placed g place taken done (p.nodes.map Node.value)
  named : Named g place taken p.refs
  objects : p.nodes.length + ((Traversal.order g.children (shared g) fuel taken frames).map fun entry =>
    1 + (g.content entry.1).pieces.length).sum ≤ maxObjects
  data : p.data + ((Traversal.order g.children (shared g) fuel taken frames).map fun entry =>
    (g.content entry.1).owned).sum ≤ maxData
  edges : p.edges + ((Traversal.order g.children (shared g) fuel taken frames).map fun entry =>
    (g.content entry.1).pieces.length + (g.children entry.1).length).sum ≤ maxEdges
  depth : ∀ entry ∈ Traversal.order g.children (shared g) fuel taken frames, g.children entry.1 ≠ [] → entry.2 < maxDepth
  enough : Traversal.Enough g.children fuel taken frames
  once : Traversal.Once g.children (shared g) taken frames

theorem opened_keep (place' : V → Nat) {done : V → Nat} (done' : V → Nat) {pending : List Pending}
    (frames : List.Forall₂ (Opened g place done bytes) owners pending) (same : ∀ v ∈ owners, place' v = place v ∧ done' v = done v) :
    List.Forall₂ (Opened g place' done' bytes) owners pending := by
  induction frames with
  | nil => exact .nil
  | @cons v frame owners pending first others ih =>
      obtain ⟨node, next⟩ := same v List.mem_cons_self
      refine .cons ?_ (ih fun w listed => same w (List.mem_cons_of_mem _ listed))
      simpa only [Opened, node, next] using first

theorem attach_values (p : Parser) (node child : Nat) :
    (p.attach node child).nodes.map Node.value = (p.nodes.map Node.value).modify node fun value => value.push child := by
  apply List.ext_getElem?
  intro index
  by_cases same : node = index
  · subst same
    simp only [Parser.attach, List.getElem?_map, List.getElem?_modify_eq]
    cases p.nodes[node]? <;> rfl
  · simp only [Parser.attach, List.getElem?_map, List.getElem?_modify_ne _ _ same]

theorem order_close (frames : List (List V)) : Traversal.order g.children (shared g) (fuel + 1) taken ([] :: frames) =
      Traversal.order g.children (shared g) fuel taken frames := by
  rw [Traversal.order]

theorem order_skip (taken siblings : List V) (v : V) (frames : List (List V)) (known : shared g v ∧ v ∈ taken) :
    Traversal.order g.children (shared g) (fuel + 1) taken ((v :: siblings) :: frames) =
      Traversal.order g.children (shared g) fuel taken (siblings :: frames) := by
  rw [Traversal.order, if_pos known]

theorem order_take (taken siblings : List V) (v : V) (frames : List (List V)) (fresh : ¬ (shared g v ∧ v ∈ taken)) :
    Traversal.order g.children (shared g) (fuel + 1) taken ((v :: siblings) :: frames) =
      (v, frames.length + 1) :: Traversal.order g.children (shared g) fuel (v :: taken)
        (Traversal.opened g.children v (siblings :: frames)) := by
  rw [Traversal.order, if_neg fresh]

theorem follows_close {place : V → Nat} {taken : List V} {done : V → Nat} {fuel : Nat} (pending : p.pending = frame :: below)
    (follows : Follows g trailing place taken (u :: owners) done (fuel + 1) ([] :: frames) p) :
    frame.next = frame.count ∧ Follows g trailing place taken owners done fuel frames { p with pending := below } := by
  obtain ⟨split, input, nodup, owned, bounded, finished, open_frames, placed, named, objects, data, edges, depth, enough, once⟩ :=
    follows
  rw [order_close] at input objects data edges depth
  rw [pending] at open_frames
  obtain _ | ⟨⟨node, next, count, -⟩, others⟩ := open_frames
  obtain ⟨ends, split⟩ := List.cons.inj split
  have all_done : (g.children u).length ≤ done u := List.drop_eq_nil_iff.mp ends.symm
  have within := bounded u (owned u List.mem_cons_self)
  refine ⟨by omega, split, ⟨input.inside, input.short, input.left⟩, (List.nodup_cons.mp nodup).2,
    fun v listed => owned v (List.mem_cons_of_mem _ listed), bounded, ?_, others, placed, named, objects, data, edges, depth,
    Traversal.enough_close g.children fuel taken frames enough, Traversal.once_close g.children (shared g) taken frames once⟩
  intro v listed unopened
  by_cases same : v = u
  · rw [same]
    omega
  · exact finished v listed fun impossible => (List.mem_cons.mp impossible).elim same unopened

def Pending.bump (frame : Pending) : Pending := { frame with next := frame.next + 1 }

theorem opened_bump (frames : List.Forall₂ (Opened g place done bytes) (u :: owners) (frame :: below))
    (nodup : (u :: owners).Nodup) :
    List.Forall₂ (Opened g place (Function.update done u (done u + 1)) bytes) (u :: owners) (frame.bump :: below) := by
  obtain _ | ⟨⟨node, next, count, refs⟩, others⟩ := frames
  have apart := (List.nodup_cons.mp nodup).1
  refine .cons ⟨node, ?_, count, refs⟩ (opened_keep g place place _ others ?_)
  · rw [Function.update_self, ← next]
    rfl
  · intro w listed
    have differ : w ≠ u := fun same => apart (same ▸ listed)
    exact ⟨rfl, Function.update_of_ne differ _ _⟩

theorem bump_split (nodup : (u :: owners).Nodup)
    (split : (v :: siblings) :: frames = (u :: owners).map fun w => (g.children w).drop (done w)) :
    (g.children u)[done u]? = some v ∧
      siblings :: frames = (u :: owners).map fun w => (g.children w).drop (Function.update done u (done u + 1) w) := by
  obtain ⟨first, others⟩ := List.cons.inj split
  have apart := (List.nodup_cons.mp nodup).1
  constructor
  · have head := congrArg List.head? first
    simpa using head.symm
  · have tail := congrArg List.tail first
    rw [List.map_cons, Function.update_self]
    congr 1
    · simpa using tail
    · rw [others]
      apply List.map_congr_left
      intro w listed
      have differ : w ≠ u := fun same => apart (same ▸ listed)
      rw [Function.update_of_ne differ]

theorem follows_skip {place : V → Nat} {taken : List V} {done : V → Nat} {fuel : Nat} (pending : p.pending = frame :: below)
    (follows : Follows g trailing place taken (u :: owners) done (fuel + 1) ((v :: siblings) :: frames) p)
    (known : shared g v ∧ v ∈ taken) :
    Follows g trailing place taken (u :: owners) (Function.update done u (done u + 1)) fuel (siblings :: frames)
      (({ p with pending := frame.bump :: below } : Parser).attach frame.node (place v)) := by
  obtain ⟨split, input, nodup, owned, bounded, finished, open_frames, placed, named, objects, data, edges, depth, enough, once⟩ :=
    follows
  rw [order_skip g fuel taken siblings v frames known] at input objects data edges depth
  rw [pending] at open_frames
  obtain ⟨next, split'⟩ := bump_split g done nodup split
  have open_frames' := opened_bump g place done open_frames nodup
  obtain _ | ⟨⟨node, -⟩, -⟩ := open_frames
  have owner := owned u List.mem_cons_self
  have more := (List.getElem?_eq_some_iff.mp next).1
  refine ⟨split', ⟨input.inside, input.short, input.left⟩, nodup, owned, ?_, ?_, open_frames', ?_, named, ?_, data, edges, depth,
    Traversal.enough_skip g.children fuel taken siblings v frames enough,
    Traversal.once_skip g.children (shared g) taken siblings v frames once⟩
  · intro w listed
    by_cases same : w = u
    · rw [same, Function.update_self]
      exact more
    · rw [Function.update_of_ne same]
      exact bounded w listed
  · intro w listed unopened
    have differ : w ≠ u := fun same => unopened (same ▸ List.mem_cons_self)
    rw [Function.update_of_ne differ]
    exact finished w listed unopened
  · rw [attach_values, node]
    exact placed_attach g place taken done _ u v placed owner next known.2
  · simpa [Parser.attach] using objects

theorem follows_take (place : V → Nat) (taken owners siblings : List V) (u v : V) (done : V → Nat) (fuel : Nat)
    (frames : List (List V)) (p after : Parser) (frame : Pending) (below : List Pending) (pending : p.pending = frame :: below)
    (follows : Follows g trailing place taken (u :: owners) done (fuel + 1) ((v :: siblings) :: frames) p)
    (unlisted : ¬ (shared g v ∧ v ∈ taken))
    (read : Taken g v ({ p with pending := frame.bump :: below } : Parser) after
      ((Traversal.order g.children (shared g) fuel (v :: taken) (Traversal.opened g.children v (siblings :: frames))).flatMap
        (fun entry => g.record entry.1) ++ trailing)) :
    ∃ owners', Follows g trailing (Function.update place v p.nodes.length) (v :: taken) owners'
      (Function.update (Function.update done v 0) u (done u + 1)) fuel (Traversal.opened g.children v (siblings :: frames))
      (after.attach frame.node p.nodes.length) := by
  obtain ⟨split, input, nodup, owned, bounded, finished, open_frames, placed, named, objects, data, edges, depth, enough, once⟩ :=
    follows
  have fresh := Traversal.once_fresh g.children (shared g) taken siblings v frames once unlisted
  rw [order_take g fuel taken siblings v frames unlisted] at objects data edges depth
  rw [pending] at open_frames
  obtain ⟨next, split'⟩ := bump_split g done nodup split
  have open_frames' := opened_bump g place done open_frames nodup
  obtain _ | ⟨⟨node, -⟩, -⟩ := open_frames
  have owner := owned u List.mem_cons_self
  have more := (List.getElem?_eq_some_iff.mp next).1
  have apart : u ≠ v := fun same => fresh (same ▸ owner)
  have others : ∀ w ∈ u :: owners, w ≠ v := fun w listed same => fresh (same ▸ owned w listed)
  -- The two changes of what is done are to different objects.
  have changes : ∀ w, w ≠ v → Function.update (Function.update done v 0) u (done u + 1) w =
      Function.update done u (done u + 1) w := by
    intro w differ
    by_cases same : w = u
    · rw [same, Function.update_self, Function.update_self]
    · rw [Function.update_of_ne same, Function.update_of_ne same, Function.update_of_ne differ]
  have started : Function.update (Function.update done v 0) u (done u + 1) v = 0 := by
    rw [Function.update_of_ne (Ne.symm apart), Function.update_self]
  have same_done : (Function.update done v 0) u = done u := Function.update_of_ne apart _ _
  have split'' : siblings :: frames = (u :: owners).map fun w =>
      (g.children w).drop (Function.update (Function.update done v 0) u (done u + 1) w) := by
    rw [split']
    exact List.map_congr_left fun w listed => by rw [changes w (others w listed)]
  have kept_frames : List.Forall₂ (Opened g (Function.update place v p.nodes.length)
      (Function.update (Function.update done v 0) u (done u + 1)) p.bytes) (u :: owners) (frame.bump :: below) :=
    opened_keep g place _ _ open_frames' fun w listed =>
      ⟨Function.update_of_ne (others w listed) _ _, changes w (others w listed)⟩
  have taken_values := placed_take g place taken done _ v placed fresh
  rw [List.length_map, ← read.values] at taken_values
  have attached := placed_attach g _ (v :: taken) _ _ u v taken_values (List.mem_cons_of_mem _ owner)
    (by rw [same_done]; exact next) List.mem_cons_self
  rw [same_done, Function.update_of_ne apart, Function.update_self, ← node, ← attach_values] at attached
  have table := named_take g place taken p.refs v p.nodes.length named fresh
  rw [← read.table] at table
  have node_count := congrArg List.length read.values
  simp only [List.length_map, List.length_append, List.length_cons] at node_count
  have bounded' : ∀ w ∈ v :: taken, Function.update (Function.update done v 0) u (done u + 1) w ≤ (g.children w).length := by
    intro w listed
    rcases List.mem_cons.mp listed with same | listed
    · rw [same, started]
      exact Nat.zero_le _
    · have differ : w ≠ v := fun same => fresh (same ▸ listed)
      rw [changes w differ]
      by_cases same : w = u
      · rw [same, Function.update_self]
        exact more
      · rw [Function.update_of_ne same]
        exact bounded w listed
  have finished' : ∀ w ∈ taken, w ∉ u :: owners →
      Function.update (Function.update done v 0) u (done u + 1) w = (g.children w).length := by
    intro w listed unopened
    have differ : w ≠ v := fun same => fresh (same ▸ listed)
    have differ' : w ≠ u := fun same => unopened (same ▸ List.mem_cons_self)
    rw [changes w differ, Function.update_of_ne differ']
    exact finished w listed unopened
  have sums : (after.attach frame.node p.nodes.length).nodes.length = p.nodes.length + (1 + (g.content v).pieces.length) := by
    simp only [Parser.attach, List.length_modify]
    omega
  have read_data := read.data
  have read_edges := read.edges
  simp only [List.map_cons, List.sum_cons] at objects data edges
  have enough' := Traversal.enough_take g.children fuel taken siblings v frames fresh enough
  have once' := Traversal.once_take g.children (shared g) taken siblings v frames fresh once
  have input' : (after.attach frame.node p.nodes.length).At _ := ⟨read.input.inside, read.input.short, read.input.left⟩
  have bytes : (after.attach frame.node p.nodes.length).bytes = p.bytes := read.bytes
  rcases read.pending with ⟨childless, frames_after⟩ | ⟨children, start, back, frames_after, inside, refs⟩
  · refine ⟨u :: owners, ?_, input', nodup, fun w listed => List.mem_cons_of_mem _ (owned w listed), bounded', ?_, ?_, attached, table,
      ?_, ?_, ?_, fun entry listed => depth entry (List.mem_cons_of_mem _ listed), enough', once'⟩
    · rw [Traversal.opened, if_pos childless]
      exact split''
    · intro w listed unopened
      rcases List.mem_cons.mp listed with same | listed
      · rw [same, started, childless]
        rfl
      · exact finished' w listed unopened
    · rw [bytes]
      show List.Forall₂ _ _ after.pending
      rw [frames_after]
      exact kept_frames
    · rw [sums]
      omega
    · show after.data + _ ≤ maxData
      rw [read_data]
      show p.data + _ + _ ≤ maxData
      omega
    · show after.edges + _ ≤ maxEdges
      rw [read_edges]
      show p.edges + _ + _ ≤ maxEdges
      omega
  · refine ⟨v :: u :: owners, ?_, input', List.nodup_cons.mpr ⟨fun listed => others v listed rfl, nodup⟩, ?_, bounded', ?_, ?_, attached,
      table, ?_, ?_, ?_, fun entry listed => depth entry (List.mem_cons_of_mem _ listed), enough', once'⟩
    · rw [Traversal.opened, if_neg children, List.map_cons, started, List.drop_zero, ← split'']
    · intro w listed
      rcases List.mem_cons.mp listed with same | listed
      · rw [same]
        exact List.mem_cons_self
      · exact List.mem_cons_of_mem _ (owned w listed)
    · intro w listed unopened
      rcases List.mem_cons.mp listed with same | listed
      · exact absurd (same ▸ List.mem_cons_self) unopened
      · exact finished' w listed fun impossible => unopened (List.mem_cons_of_mem _ impossible)
    · rw [bytes]
      show List.Forall₂ _ _ after.pending
      rw [frames_after]
      refine .cons ⟨?_, ?_, rfl, back, input.short, inside, refs⟩ kept_frames
      · rw [Function.update_self]
      · rw [started]
    · rw [sums]
      omega
    · show after.data + _ ≤ maxData
      rw [read_data]
      show p.data + _ + _ ≤ maxData
      omega
    · show after.edges + _ ≤ maxEdges
      rw [read_edges]
      show p.edges + _ + _ ≤ maxEdges
      omega

structure Finished (place : V → Nat) (taken : List V) (p : Parser) : Prop where
  placed : ∃ done, Placed g place taken done (p.nodes.map Node.value) ∧ ∀ v ∈ taken, done v = (g.children v).length

theorem word_value (v : V) : signed 16 (BigEndian.value (word (unsigned 16 (g.ident v)))) = g.ident v := by
  obtain ⟨same, fits⟩ := signed_unsigned 16 (g.ident v) (by omega) (g.fits v).1 (g.fits v).2
  rw [word, BigEndian.value_octets_of 2 _ fits, same]

theorem take_reads_object {place : V → Nat} {taken : List V} {done : V → Nat}
    {fuel : Nat} (pending : p.pending = frame :: below)
    (follows : Follows g trailing place taken owners done (fuel + 1) ((v :: siblings) :: frames) p)
    (unlisted : ¬ (shared g v ∧ v ∈ taken)) :
    ∃ after, ({ p with pending := frame.bump :: below } : Parser).object (g.ident v) = .ok (p.nodes.length, after) ∧
      Taken g v ({ p with pending := frame.bump :: below } : Parser) after
        ((Traversal.order g.children (shared g) fuel (v :: taken) (Traversal.opened g.children v (siblings :: frames))).flatMap
          (fun entry => g.record entry.1) ++ trailing) := by
  have input := follows.input
  have objects := follows.objects
  have data := follows.data
  have edges := follows.edges
  have depth := follows.depth
  rw [order_take g fuel taken siblings v frames unlisted] at input objects data edges depth
  simp only [List.flatMap_cons, List.append_assoc, List.map_cons, List.sum_cons] at input objects data edges
  have frame_count := follows.pending.length_eq
  have owner_count := congrArg List.length follows.split
  rw [pending] at frame_count
  simp only [List.length_cons, List.length_map] at frame_count owner_count
  have room : p.data + (g.content v).owned ≤ maxData := by omega
  have edge_room : p.edges + ((g.children v).length + (g.content v).pieces.length) ≤ maxEdges := by omega
  have object_room : p.nodes.length + 1 + (g.content v).pieces.length ≤ maxObjects := by omega
  apply object_reads g v { p with pending := frame.bump :: below } _ ⟨input.inside, input.short, input.left⟩ room edge_room object_room
  intro some_children
  have shallow := depth _ List.mem_cons_self some_children
  show below.length + 1 < maxDepth
  simp only at shallow
  omega

theorem walk_follows (fuel rounds : Nat) (place : V → Nat) (taken owners : List V) (done : V → Nat)
    (frames : List (List V)) (p : Parser) (follows : Follows g trailing place taken owners done fuel frames p)
    (budget : ((Traversal.order g.children (shared g) fuel taken frames).map fun entry =>
      Traversal.weight g.children entry.1).sum + Traversal.load frames < rounds) :
    ∃ final place' taken', p.walk rounds = .ok (final, none) ∧ Finished g place' taken' final ∧
      ∀ v ∈ taken, v ∈ taken' ∧ place' v = place v := by
  induction fuel generalizing rounds place taken owners done frames p with
  | zero => exact absurd follows.enough (Nat.not_lt_zero _)
  | succ fuel ih =>
      obtain ⟨rounds, rfl⟩ : ∃ less, rounds = less + 1 := ⟨rounds - 1, by omega⟩
      have split := follows.split
      have open_frames := follows.pending
      cases frames with
      | nil =>
          have closed : owners = [] := List.map_eq_nil_iff.mp split.symm
          rw [closed] at open_frames
          cases pending : p.pending with
          | cons frame below =>
              rw [pending] at open_frames
              cases open_frames
          | nil =>
              refine ⟨p, place, taken, by simp only [Parser.walk, pending], ⟨done, follows.placed, ?_⟩, fun v listed => ⟨listed, rfl⟩⟩
              intro v listed
              exact follows.finished v listed (by rw [closed]; exact List.not_mem_nil)
      | cons first frames =>
          cases owners with
          | nil => cases split
          | cons u owners =>
              cases pending : p.pending with
              | nil =>
                  rw [pending] at open_frames
                  cases open_frames
              | cons frame below =>
                  cases first with
                  | nil =>
                      obtain ⟨ended, follows'⟩ := follows_close g trailing pending follows
                      rw [order_close] at budget
                      simp only [Traversal.load, List.flatten_cons, List.nil_append, List.length_cons] at budget
                      obtain ⟨final, place', taken', walked, finished, kept⟩ :=
                        ih rounds place taken owners done frames _ follows' (by simp only [Traversal.load]; omega)
                      refine ⟨final, place', taken', ?_, finished, kept⟩
                      simp only [Parser.walk, pending, if_pos ended]
                      exact walked
                  | cons v siblings =>
                      obtain ⟨next, -⟩ := bump_split g done follows.nodup split
                      rw [pending] at open_frames
                      obtain _ | ⟨⟨node, at_next, count, back, short, inside, refs⟩, -⟩ := open_frames
                      have more := (List.getElem?_eq_some_iff.mp next).1
                      have unended : ¬ frame.next = frame.count := by omega
                      have read := reference_reads g refs next
                      rw [← at_next] at read
                      by_cases known : shared g v ∧ v ∈ taken
                      · have nonnegative : 0 ≤ g.ident v := by simpa [shared] using known.1
                        have follows' := follows_skip g trailing pending
                          follows known
                        rw [order_skip g fuel taken siblings v frames known] at budget
                        simp only [Traversal.load, List.flatten_cons, List.length_append, List.length_cons] at budget
                        obtain ⟨final, place', taken', walked, finished, kept⟩ := ih rounds place taken _ _ _ _ follows' (by
                          simp only [Traversal.load, List.flatten_cons, List.length_append, List.length_cons]
                          omega)
                        refine ⟨final, place', taken', ?_, finished, kept⟩
                        simp only [Parser.walk, pending, if_neg unended, read, word_value, if_pos nonnegative,
                          follows.named.registered v known.2 nonnegative]
                        exact walked
                      · have fresh := Traversal.once_fresh g.children (shared g) taken siblings v frames follows.once known
                        have unnamed : (if 0 ≤ g.ident v then p.refs.lookup (g.ident v).toNat else none) = none := by
                          by_cases nonnegative : 0 ≤ g.ident v
                          · rw [if_pos nonnegative]
                            exact named_fresh g place taken p.refs v follows.named fresh nonnegative
                          · rw [if_neg nonnegative]
                        obtain ⟨after, object, taken_after⟩ := take_reads_object g trailing pending follows known
                        obtain ⟨owners', follows'⟩ := follows_take g trailing place taken owners siblings u v done fuel frames p after frame
                          below pending follows known taken_after
                        rw [order_take g fuel taken siblings v frames known] at budget
                        simp only [List.map_cons, List.sum_cons] at budget
                        obtain ⟨final, place', taken', walked, finished, kept⟩ := ih rounds _ _ _ _ _ _ follows' (by
                          rw [Traversal.opened_load]
                          simp only [Traversal.load, List.flatten_cons, List.length_append, List.length_cons] at budget ⊢
                          omega)
                        refine ⟨final, place', taken', ?_, finished, ?_⟩
                        · simp only [Parser.walk, pending, if_neg unended, read, word_value, unnamed]
                          rw [show ({ frame with next := frame.next + 1 } : Pending) = frame.bump from rfl, object]
                          exact walked
                        · intro w listed
                          obtain ⟨later, same⟩ := kept w (List.mem_cons_of_mem _ listed)
                          have differ : w ≠ v := fun same => fresh (same ▸ listed)
                          exact ⟨later, by rw [same, Function.update_of_ne differ]⟩

end RoundTrip

end Filefacts.Scpt
