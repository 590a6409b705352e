import Filefacts.Scpt.Graph

set_option autoImplicit false

namespace Filefacts.Scpt

structure Parser.At (p : Parser) (input : List UInt8) : Prop where
  inside : p.pos ≤ p.bytes.length
  short : p.bytes.length ≤ maxInput
  left : p.bytes.drop p.pos = input

variable (p : Parser) (chunk : List UInt8)

theorem at_length (rest : List UInt8) (left : p.At (chunk ++ rest)) : p.pos + chunk.length ≤ p.bytes.length := by
  have size := congrArg List.length left.left
  have inside := left.inside
  simp only [List.length_drop, List.length_append] at size
  omega

theorem at_past {rest : List UInt8} (left : p.At (chunk ++ rest)) : (p.past chunk.length).At rest := by
  refine ⟨at_length p chunk rest left, left.short, ?_⟩
  show p.bytes.drop (p.pos + chunk.length) = rest
  rw [← List.drop_drop, left.left, List.drop_left]

theorem array_at_reads (rest : List UInt8) (left : p.At (chunk ++ rest)) :
    Bytes.arrayAt p.bytes chunk.length p.pos = some chunk := by
  rw [Bytes.arrayAt, if_pos (at_length p chunk rest left), left.left, List.take_left]

theorem array_reads (rest : List UInt8) (left : p.At (chunk ++ rest)) :
    p.array chunk.length = .ok (chunk, p.past chunk.length) := by
  rw [Parser.array, array_at_reads p chunk rest left]

theorem take_reads (rest : List UInt8) (left : p.At (chunk ++ rest)) :
    p.take chunk.length = .ok (chunk, p.past chunk.length) := by
  have fits := at_length p chunk rest left
  have short := left.short
  have added : Bytes.checkedAdd p.pos chunk.length = some (p.pos + chunk.length) := by
    rw [Bytes.checkedAdd, if_pos]
    simp only [maxInput] at short
    omega
  rw [Parser.take, added, array_at_reads p chunk rest left]
  rfl

variable {width number : Nat} {octet : UInt8}

theorem number_reads {rest : List UInt8} (fits : number < 256 ^ width)
    (left : p.At (BigEndian.octetsOf width number ++ rest)) : p.number width = .ok (number, p.past width) := by
  have read := array_reads p _ rest left
  rw [BigEndian.octets_of_length] at read
  simp only [Parser.number, read, bind, Except.bind, BigEndian.value_octets_of width number fits]
  rfl

theorem number_past {rest : List UInt8} (left : p.At (BigEndian.octetsOf width number ++ rest)) : (p.past width).At rest := by
  have past := at_past p _ left
  rwa [BigEndian.octets_of_length] at past

theorem octet_reads {rest : List UInt8} (left : p.At (octet :: rest)) : p.u8 = .ok (octet.toNat, p.past 1) := by
  have same : octet :: rest = BigEndian.octetsOf 1 octet.toNat ++ rest := by
    simp [BigEndian.octetsOf]
  rw [same] at left
  exact number_reads p octet.toNat_lt left

theorem octet_past {rest : List UInt8} (left : p.At (octet :: rest)) : (p.past 1).At rest :=
  at_past p [octet] left

theorem word_reads {rest : List UInt8} (fits : number < 2 ^ 16) (left : p.At (word number ++ rest)) :
    p.u16 = .ok (number, p.past 2) :=
  number_reads p fits left

theorem word_past (number : Nat) (rest : List UInt8) (left : p.At (word number ++ rest)) : (p.past 2).At rest :=
  number_past p left

theorem signed_unsigned (bits : Nat) (number : Int) (positive : 0 < bits) (low : -2 ^ (bits - 1) ≤ number)
    (high : number < 2 ^ (bits - 1)) : signed bits (unsigned bits number) = number ∧ unsigned bits number < 2 ^ bits := by
  obtain ⟨half, same⟩ : ∃ half, bits = half + 1 := ⟨bits - 1, by omega⟩
  subst same
  simp only [Nat.add_sub_cancel] at low high
  have power : (2 : Int) ^ (half + 1) = 2 * 2 ^ half := by rw [pow_succ]; omega
  have power' : (2 : Nat) ^ (half + 1) = 2 * 2 ^ half := by rw [pow_succ]; omega
  have cast : ((2 ^ half : Nat) : Int) = 2 ^ half := by push_cast; rfl
  simp only [signed, unsigned, Nat.add_sub_cancel, power, power']
  by_cases negative : 0 ≤ number
  · rw [if_pos negative, if_pos (by omega)]
    omega
  · rw [if_neg negative, if_neg (by omega)]
    omega

def Parser.owning (p : Parser) (size : Nat) : Parser := { p with data := p.data + size }

theorem at_owning (size : Nat) (rest : List UInt8) (left : p.At rest) : (p.owning size).At rest :=
  ⟨left.inside, left.short, left.left⟩

theorem charge_reads (size : Nat) (fits : p.data + size ≤ maxData) : p.chargeData size = .ok ((), p.owning size) := by
  rw [Parser.chargeData, if_neg (by omega)]
  rfl

theorem payload_reads (tag : Option UInt8) (octets rest : List UInt8) (left : p.At (octets ++ rest))
    (fits : p.data + octets.length ≤ maxData) :
    p.payload tag octets.length = .ok (⟨p.pos, .bytes tag octets⟩, (p.past octets.length).owning octets.length) := by
  have charged := charge_reads (p.past octets.length) octets.length fits
  simp only [Parser.payload, take_reads p octets rest left, bind, Except.bind, charged]
  rfl

theorem add_all_reads (offset : Nat) (values : List Value) (fits : p.nodes.length + values.length ≤ maxObjects) :
    p.addAll offset values =
      .ok (List.range' p.nodes.length values.length, { p with nodes := p.nodes ++ values.map fun value => ⟨offset, value⟩ }) := by
  induction values generalizing p with
  | nil => simp [Parser.addAll]
  | cons value rest ih =>
      rw [List.length_cons] at fits
      have room : ¬ maxObjects ≤ p.nodes.length := by omega
      have fits' : (p.nodes ++ [(⟨offset, value⟩ : Node)]).length + rest.length ≤ maxObjects := by
        rw [List.length_append, List.length_singleton]
        omega
      have later := ih { p with nodes := p.nodes ++ [⟨offset, value⟩] } fits'
      simp only [Parser.addAll, Parser.add, if_neg room, bind, Except.bind, later]
      simp [List.range'_succ, pure, Except.pure]

theorem modify_last {α : Type} (before after : List α) (item : α) (change : α → α) :
    (before ++ item :: after).modify before.length change = before ++ change item :: after := by
  induction before with
  | nil => rfl
  | cons first rest ih => simpa using ih

def Parser.opens (p : Parser) (before : List Node) (entry : Node) (tag : Option UInt8) (count : Nat) (metadata : List Nat) : Parser :=
  { p with
    pos := p.pos + count * 2
    nodes := before ++ { entry with value := .vector tag (List.range' (before.length + 1) metadata.length) } ::
      metadata.map fun (value : Nat) => ⟨entry.offset, .int value⟩
    pending := if count = 0 then p.pending else ⟨before.length, p.pos, count, 0⟩ :: p.pending
    edges := p.edges + (count + metadata.length) }

theorem vector_reads (before : List Node) (entry : Node) (tag : Option UInt8) (count : Nat) (metadata : List Nat)
    (refs rest : List UInt8) (nodes : p.nodes = before ++ [entry]) (left : p.At (refs ++ rest)) (length : refs.length = count * 2)
    (edges : p.edges + (count + metadata.length) ≤ maxEdges) (objects : p.nodes.length + metadata.length ≤ maxObjects)
    (depth : count ≠ 0 → p.pending.length < maxDepth) :
    p.vector before.length tag count metadata = .ok ((), p.opens before entry tag count metadata) := by
  have total : Bytes.checkedAdd count metadata.length = some (count + metadata.length) := by
    rw [Bytes.checkedAdd, if_pos]
    simp only [maxEdges] at edges
    omega
  have size : Bytes.checkedMul count 2 = some (count * 2) := by
    rw [Bytes.checkedMul, if_pos]
    simp only [maxEdges] at edges
    omega
  have room : ¬ maxEdges - p.edges < count + metadata.length := by omega
  have shallow : ¬ (count ≠ 0 ∧ maxDepth ≤ p.pending.length) := by
    intro deep
    omega
  have taken := take_reads p refs rest left
  rw [length] at taken
  have present : p.nodes[before.length]? = some entry := by rw [nodes]; simp
  have added := add_all_reads { p.past (count * 2) with edges := p.edges + (count + metadata.length) } entry.offset
    (metadata.map fun (value : Nat) => Value.int value) (by simpa [Parser.past] using objects)
  simp only [Parser.vector, total, if_neg room, if_neg shallow, size, taken, bind, Except.bind]
  simp only [Parser.past] at added ⊢
  rw [present]
  simp only [added]
  simp only [nodes, List.length_map, List.length_append, List.length_singleton, Parser.assign, List.append_assoc,
    List.singleton_append, modify_last, List.map_map, Parser.opens, pure, Except.pure]
  by_cases zero : count = 0
  · rw [if_pos zero, if_pos zero]
    rfl
  · rw [if_neg zero, if_neg zero]
    rfl

structure Made {V : Type} (c : Content V) (refs : List UInt8) (before : List Node) (p after : Parser) (rest : List UInt8) : Prop where
  input : after.At rest
  bytes : after.bytes = p.bytes
  table : after.refs = p.refs
  values : after.nodes.map Node.value =
    before.map Node.value ++ c.value (List.range' (before.length + 1) c.pieces.length) :: c.pieces
  data : after.data = p.data + c.owned
  edges : after.edges = p.edges + (c.children.length + c.pieces.length)
  pending : c.children = [] ∧ after.pending = p.pending ∨
    c.children ≠ [] ∧ ∃ start back, after.pending = ⟨before.length, start, c.children.length, 0⟩ :: p.pending ∧
      start ≤ p.bytes.length ∧ p.bytes.drop start = refs ++ back

section Body

variable {V : Type} (c : Content V) (before : List Node) (entry : Node) (p : Parser) (rest : List UInt8)

theorem scalar_made (refs : List UInt8) (q after : Parser) (value : Value) (plain : c.children = []) (whole : c.pieces = [])
    (same : c.value [] = value) (nodes : after.nodes.map Node.value = before.map Node.value ++ [value])
    (others : after = { q with nodes := after.nodes }) (left : q.At rest) (bytes : q.bytes = p.bytes) (table : q.refs = p.refs)
    (pending : q.pending = p.pending) (edges : q.edges = p.edges) (data : q.data = p.data + c.owned) :
    Made c refs before p after rest := by
  rw [others]
  refine ⟨⟨left.inside, left.short, left.left⟩, bytes, table, ?_, data, ?_, .inl ⟨plain, pending⟩⟩
  · simpa [whole, same] using nodes
  · simpa [whole, plain] using edges

variable (q : Parser)

theorem assigned_values (value : Value) (nodes : q.nodes = before ++ [entry]) :
    (q.assign before.length value).nodes.map Node.value = before.map Node.value ++ [value] := by
  simp [Parser.assign, nodes, modify_last]

theorem replaced_values (other : Node) (nodes : q.nodes = before ++ [entry]) :
    (q.replace before.length other).nodes.map Node.value = before.map Node.value ++ [other.value] := by
  simp [Parser.replace, nodes]

theorem collection_made (refs : List UInt8) (tag : Option UInt8) (metadata : List Nat)
    (pieces : c.pieces = metadata.map fun (value : Nat) => Value.int value)
    (same : ∀ items, c.value items = .vector tag items) (unowned : c.owned = 0) (nodes : q.nodes = before ++ [entry])
    (left : q.At (refs ++ rest)) (length : refs.length = c.children.length * 2) (bytes : q.bytes = p.bytes)
    (table : q.refs = p.refs) (pending : q.pending = p.pending) (edges : q.edges = p.edges) (data : q.data = p.data)
    (edge_room : p.edges + (c.children.length + c.pieces.length) ≤ maxEdges)
    (object_room : before.length + 1 + c.pieces.length ≤ maxObjects)
    (depth : c.children ≠ [] → p.pending.length < maxDepth) :
    ∃ after, q.collection before.length tag c.children.length metadata = .ok (before.length, after) ∧
      Made c refs before p after rest := by
  have size : c.pieces.length = metadata.length := by rw [pieces, List.length_map]
  have node_count : q.nodes.length = before.length + 1 := by rw [nodes]; simp
  have read := vector_reads q before entry tag c.children.length metadata refs rest nodes left length
    (by rw [edges, ← size]; exact edge_room) (by rw [node_count, ← size]; exact object_room) (by
      intro some_children
      rw [pending]
      exact depth fun none_left => some_children (by rw [none_left]; rfl))
  refine ⟨q.opens before entry tag c.children.length metadata, ?_, ?_⟩
  · simp only [Parser.collection, read, bind, Except.bind]
    rfl
  · have past := at_past q refs left
    refine ⟨?_, bytes, table, ?_, ?_, ?_, ?_⟩
    · rw [length] at past
      exact ⟨past.inside, past.short, past.left⟩
    · simp [Parser.opens, pieces, same, Function.comp_def]
    · rw [unowned]
      exact data
    · show q.edges + (c.children.length + metadata.length) = _
      rw [edges, size]
    · by_cases childless : c.children = []
      · left
        refine ⟨childless, ?_⟩
        simp [Parser.opens, childless, pending]
      · right
        have some_children : ¬ c.children.length = 0 := fun zero => childless (List.eq_nil_of_length_eq_zero zero)
        refine ⟨childless, q.pos, rest, ?_, ?_, ?_⟩
        · simp only [Parser.opens, if_neg some_children, pending]
        · rw [← bytes]
          exact left.inside
        · rw [← bytes]
          exact left.left

theorem number_scalar (width number : Nat) (value : Value) (refs : List UInt8) (fits : number < 256 ^ width)
    (plain : c.children = []) (whole : c.pieces = []) (unowned : c.owned = 0) (same : c.value [] = value)
    (nodes : p.nodes = before ++ [entry]) (left : p.At (BigEndian.octetsOf width number ++ rest)) :
    p.number width = .ok (number, p.past width) ∧ Made c refs before p ((p.past width).assign before.length value) rest := by
  refine ⟨number_reads p fits left, ?_⟩
  exact scalar_made c before p rest refs (p.past width) _ value plain whole same
    (assigned_values before entry _ value nodes) rfl (number_past p left) rfl rfl rfl rfl
    (by rw [unowned]; rfl)

theorem name_reads (size : Nat) (first second : List UInt8) (formed : (Content.name (V := V) size first second).WellFormed)
    (left : p.At (48 :: (word first.length ++ first ++ word second.length ++ second) ++ rest))
    (room : p.data + nameCapacity (if second = [] then first else second) ≤ maxData) :
    ∃ q : Parser, p.name = .ok (nameText (if second = [] then first else second), q) ∧ q.At rest ∧
      q = { p with pos := q.pos, data := p.data + nameCapacity (if second = [] then first else second) } := by
  obtain ⟨-, short, short'⟩ := formed
  simp only [List.cons_append, List.append_assoc] at left
  have tag := octet_reads p left
  have left := octet_past p left
  have length := word_reads _ (by omega) left
  have left := word_past _ _ _ left
  have text := take_reads _ first _ left
  have left := at_past _ first left
  have length' := word_reads _ (by omega) left
  have left := word_past _ _ _ left
  have text' := take_reads _ second _ left
  have left := at_past _ second left
  have charged := charge_reads ((((((p.past 1).past 2).past first.length).past 2).past second.length)) _ room
  refine ⟨_, ?_, at_owning _ (nameCapacity (if second = [] then first else second)) _ left, rfl⟩
  have marked : (48 : UInt8).toNat = 48 := rfl
  simp only [Parser.name, tag, bind, Except.bind, marked, ne_eq, not_true_eq_false, if_false, length, text, length', text',
    if_neg (Nat.not_le_of_lt short), if_neg (Nat.not_le_of_lt short'), charged]
  rfl

theorem string_reads (size : Nat) (text style : List UInt8) (formed : (Content.string (V := V) size text style).WellFormed)
    (nodes : p.nodes = before ++ [entry]) (left : p.At (word text.length ++ text ++ word style.length ++ style ++ rest))
    (data : p.data + (text.length + style.length) ≤ maxData) (edges : p.edges + 2 ≤ maxEdges)
    (objects : before.length + 1 + 2 ≤ maxObjects) :
    ∃ after, p.string before.length = .ok (before.length, after) ∧
      Made (Content.string (V := V) size text style) [] before p after rest := by
  obtain ⟨-, short, short'⟩ := formed
  simp only [List.append_assoc] at left
  have node_count : p.nodes.length = before.length + 1 := by rw [nodes]; simp
  have opened := vector_reads p before entry (some 0xB1) 0 [0, 0] [] _ nodes left rfl (by simpa using edges)
    (by rw [node_count]; exact objects) (by simp)
  have kept : (p.opens before entry (some 0xB1) 0 [0, 0]).At (word text.length ++ (text ++ (word style.length ++ (style ++ rest)))) :=
    ⟨left.inside, left.short, left.left⟩
  have length := word_reads _ short kept
  have left := word_past _ _ _ kept
  have read := payload_reads _ (some 0xB1) text _ left (by
    have room : p.data + text.length ≤ maxData := by omega
    exact room)
  have left := at_owning _ text.length _ (at_past _ text left)
  have length' := word_reads _ short' left
  have left := word_past _ _ _ left
  have read' := payload_reads _ none style _ left (by
    have room : p.data + text.length + style.length ≤ maxData := by omega
    exact room)
  have left := at_owning _ style.length _ (at_past _ style left)
  generalize finish : (((((((p.opens before entry (some 0xB1) 0 [0, 0]).past 2).past text.length).owning text.length).past 2).past
    style.length).owning style.length) = q at read' left
  have last : q.nodes = before ++ { entry with value := .vector (some 0xB1) [before.length + 1, before.length + 2] } ::
      [⟨entry.offset, .int 0⟩, ⟨entry.offset, .int 0⟩] := by rw [← finish]; rfl
  have present : q.nodes[before.length]?.map Node.value = some (.vector (some 0xB1) [before.length + 1, before.length + 2]) := by
    rw [last]; simp
  refine ⟨(q.replace (before.length + 1) ⟨p.pos + 0 * 2 + 2, .bytes (some 0xB1) text⟩).replace (before.length + 2)
    ⟨p.pos + 0 * 2 + 2 + text.length + 2, .bytes none style⟩, ?_, ?_⟩
  · simp only [Parser.string, opened, bind, Except.bind, length, read, length', read', present]
    rfl
  · refine ⟨⟨left.inside, left.short, left.left⟩, ?_, ?_, ?_, ?_, ?_, .inl ⟨rfl, ?_⟩⟩
    · rw [← finish]; rfl
    · rw [← finish]; rfl
    · simp [Parser.replace, last, Content.value, Content.pieces, List.range'_succ]
    · rw [← finish]
      show p.data + text.length + style.length = _
      simp only [Content.owned]
      omega
    · rw [← finish]; rfl
    · rw [← finish]; rfl

theorem data_reads (kind : Nat) (tag : UInt8) (octets refs : List UInt8)
    (formed : (Content.data (V := V) kind tag octets).WellFormed) (nodes : p.nodes = before ++ [entry])
    (left : p.At ((Content.data (V := V) kind tag octets).tail ++ rest)) (data : p.data + octets.length ≤ maxData) :
    ∃ after, p.dataRecord before.length kind (Content.data (V := V) kind tag octets).size = .ok (before.length, after) ∧
      Made (Content.data (V := V) kind tag octets) refs before p after rest := by
  -- Whatever comes before the octets, they are read and owned last.
  have last : ∀ (q : Parser) (given : Option UInt8), q.At (octets ++ rest) → q = { p with pos := q.pos } →
      given = (if kind = 15 ∨ kind = 18 then some tag else none) →
      ∃ after, (q.payload given octets.length >>= fun read =>
        (pure (before.length, read.2.replace before.length read.1) : Except Stopped (Nat × Parser))) = .ok (before.length, after) ∧
      Made (Content.data (V := V) kind tag octets) refs before p after rest := by
    intro q given left kept tagged
    have read := payload_reads q given octets rest left (by rw [kept]; exact data)
    refine ⟨((q.past octets.length).owning octets.length).replace before.length ⟨q.pos, .bytes given octets⟩, ?_, ?_⟩
    · simp only [read, bind, Except.bind]
      rfl
    · apply scalar_made _ before p rest refs ((q.past octets.length).owning octets.length) _ (.bytes given octets) rfl rfl
        (by rw [tagged]; rfl) (replaced_values before entry _ _ (by rw [kept]; exact nodes)) rfl
        (at_owning _ _ _ (at_past q octets left)) <;> rw [kept] <;> rfl
  rcases formed with ⟨same, short, descriptor⟩ | ⟨same, short⟩ | ⟨same | same, short⟩
  · subst same
    simp only [Content.tail, List.append_assoc] at left
    have tagged := octet_reads p left
    have left := octet_past p left
    have long : ¬ (tag = 8 ∧ octets.length < 94) := by
      intro few
      have enough := descriptor few.1
      omega
    obtain ⟨after, read, made⟩ := last (p.past 1) (some (UInt8.ofNat tag.toNat)) left rfl (by simp)
    refine ⟨after, ?_, made⟩
    simpa [Parser.dataRecord, tagged, bind, Except.bind, pure, Except.pure, Content.size, long] using read
  · subst same
    obtain ⟨after, read, made⟩ := last p none (by simpa [Content.tail] using left) rfl rfl
    refine ⟨after, ?_, made⟩
    simpa [Parser.dataRecord, bind, Except.bind, Content.size] using read
  · subst same
    simp only [Content.tail, List.append_assoc] at left
    have tagged := octet_reads p left
    have left := octet_past p left
    have length := number_reads _ short left
    have left := number_past _ left
    obtain ⟨after, read, made⟩ := last ((p.past 1).past 4) (some (UInt8.ofNat tag.toNat)) left rfl (by simp)
    refine ⟨after, ?_, made⟩
    simpa [Parser.dataRecord, tagged, Parser.u32, length, bind, Except.bind, pure, Except.pure] using read
  · subst same
    simp only [Content.tail, List.append_assoc] at left
    have length := number_reads p short left
    have left := number_past p left
    obtain ⟨after, read, made⟩ := last (p.past 4) none left rfl rfl
    refine ⟨after, ?_, made⟩
    simpa [Parser.dataRecord, Parser.u32, length, bind, Except.bind] using read

theorem body_reads (refs : List UInt8) (offset : Nat) (formed : c.WellFormed) (length : refs.length = c.children.length * 2)
    (nodes : p.nodes = before ++ [entry]) (left : p.At (c.head ++ (refs ++ (c.tail ++ rest))))
    (data : p.data + c.owned ≤ maxData) (edges : p.edges + (c.children.length + c.pieces.length) ≤ maxEdges)
    (objects : before.length + 1 + c.pieces.length ≤ maxObjects) (depth : c.children ≠ [] → p.pending.length < maxDepth) :
    ∃ after, p.body offset before.length c.kind c.size = .ok (before.length, after) ∧ Made c refs before p after rest := by
  have childless : c.children = [] → refs = [] := by
    intro none_left
    rw [none_left] at length
    exact List.eq_nil_of_length_eq_zero length
  cases c with
  | nil =>
      rw [childless rfl] at left ⊢
      exact ⟨_, rfl, scalar_made .nil before p rest [] p _ .unknown rfl rfl rfl (assigned_values before entry p _ nodes) rfl left
        rfl rfl rfl rfl rfl⟩
  | constant size code =>
      obtain ⟨nonzero, -, fits⟩ := formed
      rw [childless rfl] at left ⊢
      obtain ⟨read, made⟩ :=
        number_scalar (.constant size code) before entry p rest 8 code (.constant code) [] fits rfl rfl rfl rfl nodes left
      refine ⟨_, ?_, made⟩
      simp only [Parser.body, Content.kind, Content.size, if_neg (Nat.ne_of_gt nonzero), Parser.u64, read, bind, Except.bind]
      rfl
  | emptyList =>
      exact collection_made .emptyList before entry p rest p refs none [] rfl (fun _ => rfl) rfl nodes left length rfl rfl rfl rfl rfl
        edges objects depth
  | list first tail =>
      exact collection_made (.list first tail) before entry p rest p refs none [] rfl (fun _ => rfl) rfl nodes left length rfl rfl
        rfl rfl rfl edges objects depth
  | emptyBinding size =>
      have small : size = 0 ∨ size = 1 := by
        have bound : size ≤ 1 := formed
        omega
      obtain ⟨after, read, made⟩ := collection_made (.emptyBinding size) before entry p rest p refs none [] rfl (fun _ => rfl) rfl
        nodes left length rfl rfl rfl rfl rfl edges objects depth
      refine ⟨after, ?_, made⟩
      rcases small with same | same <;> subst same <;> exact read
  | binding key value next =>
      exact collection_made (.binding key value next) before entry p rest p refs none [] rfl (fun _ => rfl) rfl nodes left length
        rfl rfl rfl rfl rfl edges objects depth
  | small number =>
      obtain ⟨same, -⟩ := signed_unsigned 16 number (by omega) formed.1 formed.2
      rw [childless rfl] at left ⊢
      refine ⟨_, rfl, scalar_made (.small number) before p rest [] p _ _ rfl rfl ?_ (assigned_values before entry p _ nodes) rfl left
        rfl rfl rfl rfl rfl⟩
      rw [Content.value, Content.size, same]
  | vector kind tag items =>
      have tagged := octet_reads p left
      have left := octet_past p left
      obtain ⟨after, read, made⟩ := collection_made (.vector kind tag items) before entry p rest (p.past 1) refs (some tag) [] rfl
        (fun _ => rfl) rfl nodes left length rfl rfl rfl rfl rfl edges objects depth
      refine ⟨after, ?_, made⟩
      rcases formed.1 with same | same <;> subst same
      · simpa [Parser.body, Content.kind, Content.size, tagged, bind, Except.bind, Content.children] using read
      · simpa [Parser.body, Content.kind, Content.size, tagged, bind, Except.bind, Content.children] using read
  | int number =>
      obtain ⟨same, fits⟩ := signed_unsigned 32 number (by omega) formed.1 formed.2
      rw [childless rfl] at left ⊢
      obtain ⟨read, made⟩ := number_scalar (.int number) before entry p rest 4 (unsigned 32 number) (.int number) [] fits rfl rfl rfl
        rfl nodes left
      refine ⟨_, ?_, made⟩
      simp only [Parser.body, Content.kind, Content.size, if_true, Parser.u32, read, bind, Except.bind, same]
      rfl
  | float octets =>
      rw [childless rfl] at left ⊢
      have size : octets.length = 8 := formed
      have read := payload_reads p none octets rest left data
      rw [size] at read
      refine ⟨_, ?_, scalar_made (.float octets) before p rest [] ((p.past 8).owning 8) _ (.bytes none octets) rfl rfl rfl
        (replaced_values before entry ((p.past 8).owning 8) ⟨p.pos, .bytes none octets⟩ nodes) rfl ?_ rfl rfl rfl rfl ?_⟩
      · simp only [Parser.body, Content.kind, Content.size, if_true, read, bind, Except.bind]
        rfl
      · rw [← size]
        exact at_owning _ _ _ (at_past p octets left)
      · rw [Content.owned, size]
        rfl
  | bool size =>
      rw [childless rfl] at left ⊢
      exact ⟨_, rfl, scalar_made (.bool size) before p rest [] p _ _ rfl rfl rfl (assigned_values before entry p _ nodes) rfl left
        rfl rfl rfl rfl rfl⟩
  | wideCode code =>
      rw [childless rfl] at left ⊢
      have tagged := octet_reads p left
      have left := octet_past p left
      have read := number_reads (p.past 1) formed left
      have left := number_past (p.past 1) left
      refine ⟨_, ?_, scalar_made (.wideCode code) before p rest [] ((p.past 1).past 8) _ (.constant code) rfl rfl rfl
        (assigned_values before entry ((p.past 1).past 8) _ nodes) rfl left rfl rfl rfl rfl rfl⟩
      simp [Parser.body, Content.kind, Content.size, Parser.codeId, tagged, Parser.u64, read, bind, Except.bind, pure, Except.pure,
        Parser.scalar]
  | narrowCode tag code =>
      obtain ⟨kinds, fits⟩ := formed
      rw [childless rfl] at left ⊢
      have tagged := octet_reads p left
      have left := octet_past p left
      have read := number_reads (p.past 1) fits left
      have left := number_past (p.past 1) left
      refine ⟨_, ?_, scalar_made (.narrowCode tag code) before p rest [] ((p.past 1).past 4) _ (.constant code) rfl rfl rfl
        (assigned_values before entry ((p.past 1).past 4) _ nodes) rfl left rfl rfl rfl rfl rfl⟩
      rcases kinds with same | same <;> subst same
      · simp [Parser.body, Content.kind, Content.size, Parser.codeId, tagged, Parser.u32, read, bind, Except.bind, pure,
          Except.pure, Parser.scalar]
      · simp [Parser.body, Content.kind, Content.size, Parser.codeId, tagged, Parser.u32, read, bind, Except.bind, pure,
          Except.pure, Parser.scalar]
  | event octets =>
      rw [childless rfl] at left ⊢
      have size : octets.length = 24 := formed
      have tagged := octet_reads p left
      have left := octet_past p left
      have read := array_reads (p.past 1) octets rest left
      have left := at_past (p.past 1) octets left
      rw [size] at read left
      have charged := charge_reads ((p.past 1).past 24) eventCapacity data
      refine ⟨_, ?_, scalar_made (.event octets) before p rest [] (((p.past 1).past 24).owning eventCapacity) _
        (.event (eventText octets)) rfl rfl rfl
        (assigned_values before entry (((p.past 1).past 24).owning eventCapacity) _ nodes) rfl (at_owning _ _ _ left) rfl rfl rfl rfl
        rfl⟩
      simp [Parser.body, Content.kind, Content.size, Parser.codeId, tagged, read, charged, bind, Except.bind, pure, Except.pure,
        Parser.scalar]
  | name size first second =>
      rw [childless rfl] at left ⊢
      obtain ⟨q, read, left, kept⟩ := name_reads p rest size first second formed left data
      refine ⟨_, ?_, scalar_made (.name size first second) before p rest [] q _ _ rfl rfl rfl
        (assigned_values before entry q _ (by rw [kept]; exact nodes)) rfl left ?_ ?_ ?_ ?_ ?_⟩
      · simp only [Parser.body, Content.kind, read, bind, Except.bind]
        rfl
      all_goals rw [kept]
      rfl
  | string size text style =>
      rw [childless rfl] at left ⊢
      exact string_reads before entry p rest size text style formed nodes (by simpa [Content.head, Content.tail] using left) data
        edges objects
  | command tag info start stop items =>
      obtain ⟨info_fits, start_fits, stop_fits, -⟩ := formed
      simp only [Content.head, List.cons_append, List.append_assoc] at left
      have tagged := octet_reads p left
      have left := octet_past p left
      have read_info := word_reads _ info_fits left
      have left := word_past _ info _ left
      have read_start := word_reads _ start_fits left
      have left := word_past _ start _ left
      have read_stop := word_reads _ stop_fits left
      have left := word_past _ stop _ left
      obtain ⟨after, read, made⟩ := collection_made (.command tag info start stop items) before entry p rest
        ((((p.past 1).past 2).past 2).past 2) refs (some tag) [info, start, stop] rfl (fun _ => rfl) rfl nodes left length rfl rfl rfl
        rfl rfl edges objects depth
      refine ⟨after, ?_, made⟩
      simpa [Parser.body, Content.kind, Content.size, Content.children, tagged, read_info, read_start, read_stop, bind, Except.bind]
        using read
  | untagged items =>
      exact collection_made (.untagged items) before entry p rest p refs none [] rfl (fun _ => rfl) rfl nodes left length rfl rfl rfl
        rfl rfl edges objects depth
  | data kind tag octets =>
      rw [childless rfl] at left ⊢
      obtain ⟨after, read, made⟩ := data_reads before entry p rest kind tag octets [] formed nodes left data
      refine ⟨after, ?_, made⟩
      rcases formed with ⟨same, -⟩ | ⟨same, -⟩ | ⟨same | same, -⟩ <;> subst same <;> exact read

end Body

end Filefacts.Scpt
