import Filefacts.Scpt.Arena

set_option autoImplicit false

namespace Filefacts.Scpt

open Threaded (Moves moves_ok moves_error moves_from moves_bind bind_done)

abbrev ReadMoves {α : Type} (lent : Option Nat) (p : Parser) (read : Except Stopped (α × Parser)) : Prop :=
  Moves Stopped.parser (Reads lent) p read

section Steps

variable (lent : Option Nat) {α β : Type}

variable (p q : Parser) (size offset node kind : Nat)

theorem steps_bind {read : Except Stopped (α × Parser)} (next : α × Parser → Except Stopped (β × Parser))
    (moves : ReadMoves lent p read) (rest : ∀ result q, read = .ok (result, q) → ReadMoves lent q (next (result, q))) :
    ReadMoves lent p (read >>= next) :=
  moves_bind Stopped.parser (Reads lent) p read next (reads_trans lent) moves rest

theorem steps_done (result : α) (reads : Reads lent p q) : ReadMoves lent p (.ok (result, q)) :=
  moves_ok Stopped.parser (Reads lent) p q result reads

theorem steps_failed (error : ParseError) : ReadMoves (α := α) lent p (.error ⟨error, p⟩) :=
  moves_error Stopped.parser (Reads lent) p ⟨error, p⟩ (reads_refl lent p)

theorem steps_from (read : Except Stopped (α × Parser)) (reads : Reads lent p q) (moves : ReadMoves lent q read) :
    ReadMoves lent p read :=
  moves_from Stopped.parser (Reads lent) p q read (reads_trans lent) reads moves

theorem array_steps : ReadMoves lent p (p.array size) := by
  rw [Parser.array]
  cases read : Bytes.arrayAt p.bytes size p.pos with
  | none => exact steps_failed lent p _
  | some field => exact steps_done lent p _ field (reads_past lent p size field read)

theorem take_steps : ReadMoves lent p (p.take size) := by
  rw [Parser.take]
  by_cases overflow : (Bytes.checkedAdd p.pos size).isNone
  · rw [if_pos overflow]
    exact steps_failed lent p _
  · rw [if_neg overflow]
    exact array_steps lent p size

theorem number_steps (width : Nat) : ReadMoves lent p (p.number width) := by
  rw [Parser.number]
  exact steps_bind lent p _ (array_steps lent p width) fun octets q _ => steps_done lent q q _ (reads_refl lent q)

theorem charge_steps : ReadMoves lent p (p.chargeData size) := by
  rw [Parser.chargeData]
  by_cases past : maxData - p.data < size
  · rw [if_pos past]
    exact steps_failed lent p _
  · rw [if_neg past]
    exact steps_done lent p _ () (reads_charge lent p size (Nat.le_of_not_lt past))

theorem payload_steps (tag : Option UInt8) (size : Nat) : ReadMoves lent p (p.payload tag size) := by
  rw [Parser.payload]
  refine steps_bind lent p _ (take_steps lent p size) fun octets q _ => ?_
  refine steps_bind lent q _ (charge_steps lent q size) fun _ r _ => ?_
  exact steps_done lent r r _ (reads_refl lent r)

theorem add_steps (value : Value) (plain : value.isVector = false) : ReadMoves lent p (p.add offset value) := by
  rw [Parser.add]
  by_cases full : maxObjects ≤ p.nodes.length
  · rw [if_pos full]
    exact steps_failed lent p _
  · rw [if_neg full]
    exact steps_done lent p _ _ (reads_add lent p offset value plain (Nat.lt_of_not_le full))

theorem add_all_steps (values : List Value) (plain : ∀ value ∈ values, value.isVector = false) :
    ReadMoves lent p (p.addAll offset values) := by
  induction values generalizing p with
  | nil => exact steps_done lent p p [] (reads_refl lent p)
  | cons value rest ih =>
      rw [Parser.addAll]
      refine steps_bind lent p _ (add_steps lent p offset value (plain value List.mem_cons_self)) fun id q _ => ?_
      refine steps_bind lent q _ (ih q fun value found => plain value (List.mem_cons_of_mem _ found)) fun ids r _ => ?_
      exact steps_done lent r r _ (reads_refl lent r)

theorem add_all_done (values : List Value) (ids : List Nat) (read : p.addAll offset values = .ok (ids, q)) :
    ids = List.range' p.nodes.length values.length ∧
      q = { p with nodes := p.nodes ++ values.map fun value => ⟨offset, value⟩ } := by
  induction values generalizing p ids with
  | nil =>
      obtain ⟨rfl, rfl⟩ := Prod.mk.inj (Except.ok.inj read)
      exact ⟨rfl, by simp⟩
  | cons value rest ih =>
      rw [Parser.addAll, Parser.add] at read
      by_cases full : maxObjects ≤ p.nodes.length
      · rw [if_pos full] at read
        cases read
      · rw [if_neg full] at read
        cases later : Parser.addAll { p with nodes := p.nodes ++ [⟨offset, value⟩] } offset rest with
        | error failure =>
            simp only [bind, Except.bind, later] at read
            cases read
        | ok pair =>
            simp only [bind, Except.bind, later] at read
            obtain ⟨rfl, rfl⟩ := Prod.mk.inj (Except.ok.inj read)
            obtain ⟨same, nodes⟩ := ih _ pair.1 later
            constructor
            · rw [same, List.length_append, List.length_singleton, List.length_cons, List.range'_succ]
            · rw [nodes, List.append_assoc]
              rfl

theorem take_done (octets : List UInt8) (read : p.take size = .ok (octets, q)) : q = p.past size := by
  rw [Parser.take] at read
  by_cases overflow : (Bytes.checkedAdd p.pos size).isNone
  · rw [if_pos overflow] at read
    cases read
  · rw [if_neg overflow] at read
    cases field : Bytes.arrayAt p.bytes size p.pos with
    | none =>
        rw [field] at read
        cases read
    | some found =>
        rw [field] at read
        exact (Prod.mk.inj (Except.ok.inj read)).2.symm

theorem number_done {width number : Nat} (read : p.number width = .ok (number, q)) :
    q = p.past width ∧ ∃ field, Bytes.arrayAt p.bytes width p.pos = some field ∧ BigEndian.value field = number := by
  rw [Parser.number, Parser.array] at read
  cases field : Bytes.arrayAt p.bytes width p.pos with
  | none =>
      rw [field] at read
      cases read
  | some found =>
      rw [field] at read
      obtain ⟨number, state⟩ := Prod.mk.inj (Except.ok.inj read)
      exact ⟨state.symm, found, rfl, number⟩

theorem item_count_plain (nodes more : List Node) (plain : ∀ node ∈ more, node.value.isVector = false) :
    itemCount (nodes ++ more) = itemCount nodes := by
  have none : itemCount more = 0 := by
    rw [itemCount, List.sum_eq_zero_iff]
    intro count found
    obtain ⟨node, inside, rfl⟩ := List.mem_map.mp found
    rw [plain_items node.value (plain node inside), List.length_nil]
  rw [itemCount, List.map_append, List.sum_append]
  exact congrArg (itemCount nodes + ·) none

theorem metadata_plain (metadata : List Nat) :
    ∀ value ∈ metadata.map fun (value : Nat) => Value.int value, value.isVector = false := by
  intro value found
  obtain ⟨number, -, rfl⟩ := List.mem_map.mp found
  rfl

variable {r : Parser} {count : Nat} {metadata : List Nat} {value : Value} {entry : Node} {reference : Nat} {t : Parser}

theorem vector_done {node offset : Nat} (refs : Nat) (tag : Option UInt8) {ids : List Nat}
    (fresh : Fresh lent q node offset) (declared : declaredAt q.bytes offset = some (metadata.length + count))
    (fits : count + metadata.length ≤ maxEdges - q.edges) (deep : count ≠ 0 → q.pending.length < maxDepth)
    (read : Parser.addAll { q with edges := q.edges + (count + metadata.length) } offset
      (metadata.map fun (value : Nat) => Value.int value) = .ok (ids, r)) :
    Reads lent q { r.assign node (.vector tag ids) with pending := r.queue node refs count } := by
  have plain := metadata_plain metadata
  have counted := reads_count lent q fits
  have added := (add_all_steps lent _ offset _ plain).done ids r read
  have reads := reads_trans lent q _ r counted added
  obtain ⟨rfl, rfl⟩ := add_all_done _ r offset _ ids read
  have inside : node < q.nodes.length := (List.getElem?_eq_some_iff.mp fresh.present).1
  refine ⟨fun inv => ?_, reads.bytes, reads.forward, ?_, reads.data, ?_, ?_⟩
  · refine vector_inv lent _ node offset refs count tag _ (reads.inv inv) ⟨?_, fresh.apart, fresh.unlent⟩ ?_ ?_ ?_ deep
    · exact (List.getElem?_append_left inside).trans fresh.present
    · intro item found
      have range := List.mem_range'_1.mp found
      simp only [List.length_append, List.length_map] at range ⊢
      exact range.2
    · rw [List.length_range', List.length_map]
      exact declared
    · have total := inv.total
      have level := item_count_plain q.nodes ((metadata.map fun (value : Nat) => Value.int value).map fun value => ⟨offset, value⟩)
        (by simpa using plain)
      simp only [List.length_range', List.length_map, level]
      omega
  · exact reads.objects.trans (Nat.le_of_eq (List.length_modify _ _ _).symm)
  · exact queue_longer q node refs count
  · have queued := credit_queue q node refs count
    show 2 * (maxEdges - (q.edges + (count + metadata.length))) + ((q.queue node refs count).map fun frame => frame.left + 1).sum ≤
      q.credit
    rw [Parser.credit]
    omega

theorem vector_steps {offset : Nat} (tag : Option UInt8)
    (fresh : Fresh lent p node offset) (declared : declaredAt p.bytes offset = some (metadata.length + count)) :
    ReadMoves lent p (p.vector node tag count metadata) := by
  rw [Parser.vector]
  cases added : Bytes.checkedAdd count metadata.length with
  | none => exact steps_failed lent p _
  | some total =>
      obtain ⟨rfl, -⟩ := (Bytes.checked_add_some _ _ total).mp added
      by_cases limit : maxEdges - p.edges < count + metadata.length
      · simp only [if_pos limit]
        exact steps_failed lent p _
      · simp only [if_neg limit]
        by_cases deep : count ≠ 0 ∧ maxDepth ≤ p.pending.length
        · rw [if_pos deep]
          exact steps_failed lent p _
        · rw [if_neg deep]
          have room : count ≠ 0 → p.pending.length < maxDepth := fun some => Nat.lt_of_not_le fun full => deep ⟨some, full⟩
          cases Bytes.checkedMul count 2 with
          | none => exact steps_failed lent p _
          | some size =>
              refine steps_bind lent p _ (take_steps lent p size) fun octets q taken => ?_
              obtain rfl := take_done p q size octets taken
              have present : (p.past size).nodes[node]? = some ⟨offset, .unknown⟩ := fresh.present
              simp only [present]
              have counted := reads_count lent (p.past size) (Nat.le_of_not_lt limit)
              have added := steps_from lent _ _ _ counted (add_all_steps lent _ offset _ (metadata_plain metadata))
              cases read : Parser.addAll { p.past size with edges := (p.past size).edges + (count + metadata.length) } offset
                (metadata.map fun (value : Nat) => Value.int value) with
              | error failure => exact moves_error Stopped.parser (Reads lent) _ failure (added.failed failure read)
              | ok pair =>
                  have done := vector_done lent (p.past size) p.pos tag
                    ⟨fresh.present, fresh.apart, fresh.unlent⟩ declared (Nat.le_of_not_lt limit) room read
                  have queued := steps_done lent _ _ () done
                  rw [Parser.queue] at queued
                  by_cases none : count = 0
                  · rw [if_pos none] at queued
                    simp only [bind, Except.bind, if_pos none]
                    exact queued
                  · rw [if_neg none] at queued
                    simp only [bind, Except.bind, if_neg none]
                    exact queued

theorem collection_steps {offset : Nat} (tag : Option UInt8)
    (fresh : Fresh lent p node offset) (declared : declaredAt p.bytes offset = some (metadata.length + count)) :
    ReadMoves lent p (p.collection node tag count metadata) := by
  rw [Parser.collection]
  refine steps_bind lent p _ (vector_steps lent p node tag fresh declared) fun _ q _ => ?_
  exact steps_done lent q q node (reads_refl lent q)

theorem scalar_steps (plain : value.isVector = false) : ReadMoves lent p (p.scalar node value) :=
  steps_done lent p _ node (reads_plain lent p node _ fun _ => plain)

theorem reads_replace (plain : entry.value.isVector = false) : Reads lent p (p.replace node entry) := by
  have reads := reads_plain lent p node (fun _ => entry) fun _ => plain
  rw [Parser.replace, List.set_eq_modify]
  exact reads

theorem name_steps : ReadMoves lent p p.name := by
  rw [Parser.name]
  refine steps_bind lent p _ (number_steps lent p 1) fun tag q _ => ?_
  dsimp only
  by_cases other : tag ≠ 48
  · rw [if_pos other]
    exact steps_failed lent q _
  · rw [if_neg other]
    refine steps_bind lent q _ (number_steps lent q 2) fun length q _ => ?_
    by_cases long : 256 ≤ length
    · rw [if_pos long]
      exact steps_failed lent q _
    · rw [if_neg long]
      refine steps_bind lent q _ (take_steps lent q length) fun first q _ => ?_
      refine steps_bind lent q _ (number_steps lent q 2) fun length q _ => ?_
      by_cases long : 256 ≤ length
      · rw [if_pos long]
        exact steps_failed lent q _
      · rw [if_neg long]
        refine steps_bind lent q _ (take_steps lent q length) fun second q _ => ?_
        refine steps_bind lent q _ (charge_steps lent q _) fun _ q _ => ?_
        exact steps_done lent q q _ (reads_refl lent q)

theorem code_steps : ReadMoves lent p (p.codeId size) := by
  rw [Parser.codeId]
  refine steps_bind lent p _ (number_steps lent p 1) fun tag q _ => ?_
  dsimp only
  split
  · refine steps_bind lent q _ (number_steps lent q 8) fun code q _ => ?_
    exact steps_done lent q q _ (reads_refl lent q)
  · split
    · refine steps_bind lent q _ (number_steps lent q 4) fun code q _ => ?_
      exact steps_done lent q q _ (reads_refl lent q)
    · split
      · refine steps_bind lent q _ (array_steps lent q 24) fun octets q _ => ?_
        refine steps_bind lent q _ (charge_steps lent q eventCapacity) fun _ q _ => ?_
        exact steps_done lent q q _ (reads_refl lent q)
      · split
        · exact steps_failed lent q _
        · exact steps_failed lent q _

theorem payload_done {tag : Option UInt8} {size : Nat} (read : p.payload tag size = .ok (entry, q)) :
    entry.value.isVector = false := by
  rw [Parser.payload] at read
  cases taken : p.take size with
  | error failure =>
      simp only [bind, Except.bind, taken] at read
      cases read
  | ok pair =>
      simp only [bind, Except.bind, taken] at read
      cases charged : pair.2.chargeData size with
      | error failure =>
          simp only [charged] at read
          cases read
      | ok rest =>
          simp only [charged] at read
          rw [← (Prod.mk.inj (Except.ok.inj read)).1]
          rfl

theorem string_steps (offset : Nat) (fresh : Fresh lent p node offset)
    (declared : declaredAt p.bytes offset = some 2) : ReadMoves lent p (p.string node) := by
  rw [Parser.string]
  refine steps_bind lent p _ (vector_steps lent p node (some 0xB1) fresh declared) fun _ q _ => ?_
  refine steps_bind lent q _ (number_steps lent q 2) fun length q _ => ?_
  refine steps_bind lent q _ (payload_steps lent q (some 0xB1) length) fun text r wrote => ?_
  refine steps_bind lent r _ (number_steps lent r 2) fun length r _ => ?_
  refine steps_bind lent r _ (payload_steps lent r none length) fun style t styled => ?_
  have first := payload_done q _ wrote
  have second := payload_done r t styled
  dsimp only
  split
  · rename_i a b _
    refine steps_done lent t _ node (reads_trans lent t _ _ (reads_replace lent t a first) ?_)
    exact reads_replace lent _ b second
  · exact steps_done lent t t node (reads_refl lent t)

theorem data_steps (size : Nat) : ReadMoves lent p (p.dataRecord node kind size) := by
  have read : ∀ (tag : Option UInt8) (size : Nat) (q : Parser), ReadMoves lent q
      (if kind = 15 ∧ tag = some 8 ∧ size < 94 then .error (q.error "application descriptor shorter than 94 bytes")
      else q.payload tag size >>= fun pair => .ok (node, pair.2.replace node pair.1)) := by
    intro tag size q
    split
    · exact steps_failed lent q _
    · refine steps_bind lent q _ (payload_steps lent q tag size) fun entry r read => ?_
      exact steps_done lent r _ node (reads_replace lent r node (payload_done q r read))
  rw [Parser.dataRecord]
  split
  · refine steps_bind lent p _ ?_ fun tag q _ => ?_
    · refine steps_bind lent p _ (number_steps lent p 1) fun tag q _ => ?_
      exact steps_done lent q q (some (UInt8.ofNat tag)) (reads_refl lent q)
    · dsimp only
      split
      · exact steps_bind lent q _ (number_steps lent q 4) fun size q _ => read tag size q
      · exact read tag size q
  · change ReadMoves lent p (if kind = 18 ∨ kind = 19 then _ else _)
    split
    · exact steps_bind lent p _ (number_steps lent p 4) fun size q _ => read none size q
    · exact read none size p

theorem code_plain (value : Value) (read : p.codeId size = .ok (value, q)) : value.isVector = false := by
  rw [Parser.codeId] at read
  obtain ⟨⟨tag, p⟩, -, read⟩ := (bind_done _ _ _).mp read
  dsimp only at read
  split at read
  · obtain ⟨⟨code, p⟩, -, read⟩ := (bind_done _ _ _).mp read
    rw [← (Prod.mk.inj (Except.ok.inj read)).1]
    rfl
  · split at read
    · obtain ⟨⟨code, p⟩, -, read⟩ := (bind_done _ _ _).mp read
      rw [← (Prod.mk.inj (Except.ok.inj read)).1]
      rfl
    · split at read
      · obtain ⟨⟨octets, p⟩, -, read⟩ := (bind_done _ _ _).mp read
        obtain ⟨⟨_, p⟩, -, read⟩ := (bind_done _ _ _).mp read
        rw [← (Prod.mk.inj (Except.ok.inj read)).1]
        rfl
      · split at read <;> cases read

theorem fresh_past (offset size : Nat) (fresh : Fresh lent p node offset) : Fresh lent (p.past size) node offset :=
  ⟨fresh.present, fresh.apart, fresh.unlent⟩

theorem tagged_steps {offset : Nat} (fresh : Fresh lent p node offset)
    (declared : declaredAt p.bytes offset = some count) :
    ReadMoves lent p (p.u8 >>= fun pair => pair.2.collection node (some (UInt8.ofNat pair.1)) count []) := by
  refine steps_bind lent p _ (number_steps lent p 1) fun tag q read => ?_
  obtain rfl := (number_done p q read).1
  refine collection_steps lent (p.past 1) node _ (fresh_past lent p node offset 1 fresh) ?_
  rwa [List.length_nil, Nat.zero_add]

theorem command_steps (offset size : Nat) (fresh : Fresh lent p node offset)
    (declared : declaredAt p.bytes offset = some (size + 3)) : ReadMoves lent p (p.body offset node 13 size) := by
  refine steps_bind lent p _ (number_steps lent p 1) fun tag q read => ?_
  obtain rfl := (number_done p q read).1
  refine steps_bind lent _ _ (number_steps lent _ 2) fun info q read => ?_
  obtain rfl := (number_done _ q read).1
  refine steps_bind lent _ _ (number_steps lent _ 2) fun start q read => ?_
  obtain rfl := (number_done _ q read).1
  refine steps_bind lent _ _ (number_steps lent _ 2) fun stop q read => ?_
  obtain rfl := (number_done _ q read).1
  refine collection_steps lent _ node _ ⟨fresh.present, fresh.apart, fresh.unlent⟩ ?_
  exact declared.trans (congrArg some (Nat.add_comm size 3))

theorem body_steps (size : Nat) (fresh : Fresh lent p node offset)
    (declared : declaredAt p.bytes offset = declaredItems kind size) : ReadMoves lent p (p.body offset node kind size) := by
  have vector : ∀ count, declaredItems kind size = some count → ReadMoves lent p (p.collection node none count []) := by
    intro count known
    refine collection_steps lent p node none fresh ?_
    rw [declared, known, List.length_nil, Nat.zero_add]
  rw [Parser.body.eq_def]
  split
  · split
    · exact scalar_steps lent p node rfl
    · exact steps_bind lent p _ (number_steps lent p 8) fun code q _ => scalar_steps lent q node rfl
  · split
    · rename_i none
      exact vector 0 (by rw [none]; rfl)
    · split
      · exact vector size rfl
      · exact steps_failed lent p _
  · exact scalar_steps lent p node rfl
  · exact tagged_steps lent p node fresh declared
  · split
    · rename_i few
      exact vector 0 (congrArg some (if_pos (by omega)))
    · split
      · rename_i three
        exact vector size (congrArg some (if_neg (by omega)))
      · exact steps_failed lent p _
  · split
    · exact steps_bind lent p _ (number_steps lent p 4) fun number q _ => scalar_steps lent q node rfl
    · exact steps_failed lent p _
  · split
    · refine steps_bind lent p _ (payload_steps lent p none size) fun entry q read => ?_
      exact steps_done lent q _ node (reads_replace lent q node (payload_done p q read))
    · exact steps_failed lent p _
  · exact scalar_steps lent p node rfl
  · exact steps_bind lent p _ (code_steps lent p size) fun value q read => scalar_steps lent q node (code_plain p q size value read)
  · exact steps_bind lent p _ (name_steps lent p) fun text q _ => scalar_steps lent q node rfl
  · exact string_steps lent p node offset fresh declared
  · exact command_steps lent p node offset size fresh declared
  · exact tagged_steps lent p node fresh declared
  · exact data_steps lent p node _ size
  · exact vector size rfl
  · exact data_steps lent p node _ size
  · exact data_steps lent p node _ size
  · exact data_steps lent p node _ size
  · exact steps_failed lent p _

theorem header_declares {size : Nat} {q : Parser} (first : p.u8 = .ok (kind, q))
    (second : q.u16 = .ok (reference, r)) (third : r.u16 = .ok (size, t)) :
    declaredAt p.bytes p.pos = declaredItems kind size ∧ t = (p.past 5) := by
  obtain ⟨rfl, kindField, kindRead, rfl⟩ := number_done p q first
  obtain ⟨rfl, -⟩ := number_done _ r second
  obtain ⟨rfl, sizeField, sizeRead, rfl⟩ := number_done _ t third
  refine ⟨?_, rfl⟩
  have later : Bytes.arrayAt p.bytes 2 (p.pos + 3) = some sizeField := sizeRead
  rw [declaredAt, kindRead, later]
  rfl

theorem header_inv {size : Nat} {q : Parser} (first : p.u8 = .ok (kind, q))
    (second : q.u16 = .ok (reference, r)) (third : r.u16 = .ok (size, t)) (inv : Inv lent p) : Inv lent t := by
  have one := ((number_steps lent p 1).done kind q first).inv inv
  have two := ((number_steps lent q 2).done reference r second).inv one
  exact ((number_steps lent r 2).done size t third).inv two

theorem add_done {id : Nat} (read : p.add offset value = .ok (id, q)) :
    id = p.nodes.length ∧ q = { p with nodes := p.nodes ++ [⟨offset, value⟩] } := by
  rw [Parser.add] at read
  by_cases full : maxObjects ≤ p.nodes.length
  · rw [if_pos full] at read
    cases read
  · rw [if_neg full] at read
    obtain ⟨same, state⟩ := Prod.mk.inj (Except.ok.inj read)
    exact ⟨same.symm, state.symm⟩

theorem registered_fresh (reference : Int) (inv : Inv lent p) :
    Fresh lent (Parser.register { p with nodes := p.nodes ++ [⟨offset, .unknown⟩] } reference p.nodes.length) p.nodes.length offset := by
  have apart : ∀ frame ∈ p.pending, frame.node ≠ p.nodes.length := fun frame found => Nat.ne_of_lt (inv.frames frame found).1
  have unlent : lent ≠ some p.nodes.length := fun same => Nat.lt_irrefl _ (inv.loan _ same)
  rw [Parser.register]
  by_cases shared : 0 ≤ reference
  · rw [if_pos shared]
    exact ⟨List.getElem?_concat_length, apart, unlent⟩
  · rw [if_neg shared]
    exact ⟨List.getElem?_concat_length, apart, unlent⟩

theorem register_bytes (reference : Int) (node : Nat) : (p.register reference node).bytes = p.bytes := by
  rw [Parser.register]
  by_cases shared : 0 ≤ reference
  · rw [if_pos shared]
  · rw [if_neg shared]

theorem registered_steps (size : Nat) (reference : Int) (inv : Inv lent p)
    (declared : declaredAt p.bytes offset = declaredItems kind size) :
    ReadMoves lent { p with nodes := p.nodes ++ [⟨offset, .unknown⟩] }
      ((Parser.register { p with nodes := p.nodes ++ [⟨offset, .unknown⟩] } reference p.nodes.length).body offset p.nodes.length kind
        size) := by
  have inside : p.nodes.length < (p.nodes ++ [(⟨offset, .unknown⟩ : Node)]).length := by
    rw [List.length_append]
    exact Nat.lt_succ_self _
  refine steps_from lent _ _ _ (reads_register lent _ reference _ inside) ?_
  refine body_steps lent _ offset _ kind size (registered_fresh lent p offset reference inv) ?_
  rw [register_bytes]
  exact declared

theorem record_steps (size : Nat) (reference : Int) (inv : Inv lent p)
    (declared : declaredAt p.bytes offset = declaredItems kind size) :
    ReadMoves lent p (p.add offset .unknown >>= fun pair => (pair.2.register reference pair.1).body offset pair.1 kind size) := by
  refine steps_bind lent _ _ (add_steps lent _ offset .unknown rfl) fun node q added => ?_
  obtain ⟨rfl, rfl⟩ := add_done _ q offset added
  exact registered_steps lent p offset kind size reference inv declared

theorem object_steps (expected : Int) (inv : Inv lent p) : ReadMoves lent p (p.object expected) := by
  rw [Parser.object]
  refine steps_bind lent p _ (number_steps lent p 1) fun kind q first => ?_
  refine steps_bind lent q _ (number_steps lent q 2) fun reference r second => ?_
  refine steps_bind lent r _ (number_steps lent r 2) fun size t third => ?_
  have kept := header_inv lent p kind first second third inv
  obtain ⟨declared, rfl⟩ := header_declares p kind first second third
  dsimp only
  split
  · exact steps_failed lent _ _
  · exact record_steps lent (p.past 5) p.pos kind size _ kept declared

end Steps

end Filefacts.Scpt
