import Filefacts.Lib.Threaded
import Filefacts.Scpt.Graph

set_option autoImplicit false

namespace Filefacts.Scpt

def Pending.left (frame : Pending) : Nat := frame.count - frame.next

def owed (pending : List Pending) (node : Nat) : Nat :=
  (pending.map fun frame => if frame.node = node then frame.left else 0).sum

def itemCount (nodes : List Node) : Nat := (nodes.map fun node => node.value.items.length).sum

def Value.isVector : Value → Bool
  | .vector _ _ => true
  | _ => false

def declaredItems (kind size : Nat) : Option Nat :=
  match kind with
  | 2 => some size
  | 4 => some size
  | 6 => some (if size ≤ 1 then 0 else size)
  | 12 => some 2
  | 13 => some (size + 3)
  | 14 => some size
  | 16 => some size
  | _ => none

def declaredAt (bytes : List UInt8) (offset : Nat) : Option Nat := do
  let kind ← Bytes.arrayAt bytes 1 offset
  let size ← Bytes.arrayAt bytes 2 (offset + 3)
  declaredItems (BigEndian.value kind) (BigEndian.value size)

-- The arena while it is built. A node may be lent one reference, which is taken and has no item yet.
structure Inv (lent : Option Nat) (p : Parser) : Prop where
  inside : p.pos ≤ p.bytes.length
  objects : p.nodes.length ≤ maxObjects
  data : p.data ≤ maxData
  depth : p.pending.length ≤ maxDepth
  edges : p.edges ≤ maxEdges
  items : ∀ node ∈ p.nodes, ∀ item ∈ node.value.items, item < p.nodes.length
  table : ∀ entry ∈ p.refs, entry.2 < p.nodes.length
  frames : ∀ frame ∈ p.pending, frame.node < p.nodes.length ∧ frame.next ≤ frame.count
  loan : ∀ node ∈ lent, node < p.nodes.length
  total : itemCount p.nodes + (p.pending.map Pending.left).sum + lent.toList.length ≤ p.edges
  declared : ∀ i node, p.nodes[i]? = some node → node.value.isVector →
    declaredAt p.bytes node.offset = some (node.value.items.length + owed p.pending i + if lent = some i then 1 else 0)

-- What is left to do: twice the edges that may still be read, and the pending references and vectors.
def Parser.credit (p : Parser) : Nat := 2 * (maxEdges - p.edges) + (p.pending.map fun frame => frame.left + 1).sum

structure Reads (lent : Option Nat) (p q : Parser) : Prop where
  inv : Inv lent p → Inv lent q
  bytes : q.bytes = p.bytes
  forward : p.pos ≤ q.pos
  objects : p.nodes.length ≤ q.nodes.length
  data : p.data ≤ q.data
  depth : p.pending.length ≤ q.pending.length
  credit : q.credit ≤ p.credit

variable (lent : Option Nat) (p : Parser) (node refs count : Nat)

theorem reads_refl : Reads lent p p :=
  ⟨id, rfl, Nat.le_refl _, Nat.le_refl _, Nat.le_refl _, Nat.le_refl _, Nat.le_refl _⟩

theorem reads_trans (q r : Parser) (first : Reads lent p q) (second : Reads lent q r) : Reads lent p r :=
  ⟨fun inv => second.inv (first.inv inv), second.bytes.trans first.bytes, first.forward.trans second.forward,
    first.objects.trans second.objects, first.data.trans second.data, first.depth.trans second.depth,
    second.credit.trans first.credit⟩

theorem array_at_inside {bytes : List UInt8} {count offset : Nat} {field : List UInt8}
    (read : Bytes.arrayAt bytes count offset = some field) : offset + count ≤ bytes.length := by
  rw [Bytes.arrayAt] at read
  by_cases fits : offset + count ≤ bytes.length
  · exact fits
  · rw [if_neg fits] at read
    cases read

theorem reads_past (size : Nat) (field : List UInt8)
    (read : Bytes.arrayAt p.bytes size p.pos = some field) : Reads lent p (p.past size) where
  inv inv := ⟨array_at_inside read, inv.objects, inv.data, inv.depth, inv.edges, inv.items, inv.table,
    inv.frames, inv.loan, inv.total, inv.declared⟩
  bytes := rfl
  forward := Nat.le_add_right _ _
  objects := Nat.le_refl _
  data := Nat.le_refl _
  depth := Nat.le_refl _
  credit := Nat.le_refl _

theorem reads_charge (size : Nat) (fits : size ≤ maxData - p.data) : Reads lent p { p with data := p.data + size } where
  inv inv := ⟨inv.inside, inv.objects, Nat.add_le_of_le_sub' inv.data fits, inv.depth, inv.edges, inv.items, inv.table, inv.frames, inv.loan, inv.total,
    inv.declared⟩
  bytes := rfl
  forward := Nat.le_refl _
  objects := Nat.le_refl _
  data := Nat.le_add_right _ _
  depth := Nat.le_refl _
  credit := Nat.le_refl _

theorem reads_count {total : Nat} (fits : total ≤ maxEdges - p.edges) :
    Reads lent p { p with edges := p.edges + total } where
  inv inv := ⟨inv.inside, inv.objects, inv.data, inv.depth, Nat.add_le_of_le_sub' inv.edges fits, inv.items, inv.table, inv.frames, inv.loan,
    inv.total.trans (Nat.le_add_right _ _), inv.declared⟩
  bytes := rfl
  forward := Nat.le_refl _
  objects := Nat.le_refl _
  data := Nat.le_refl _
  depth := Nat.le_refl _
  credit := by
    simp only [Parser.credit]
    omega

theorem reads_register (reference : Int) (node : Nat) (inside : node < p.nodes.length) :
    Reads lent p (p.register reference node) := by
  rw [Parser.register]
  by_cases shared : 0 ≤ reference
  · rw [if_pos shared]
    refine ⟨fun inv => ?_, rfl, Nat.le_refl _, Nat.le_refl _, Nat.le_refl _, Nat.le_refl _, Nat.le_refl _⟩
    refine ⟨inv.inside, inv.objects, inv.data, inv.depth, inv.edges, inv.items, ?_, inv.frames, inv.loan, inv.total, inv.declared⟩
    intro entry found
    rcases List.mem_cons.mp found with rfl | found
    · exact inside
    · exact inv.table entry found
  · rw [if_neg shared]
    exact reads_refl lent p

theorem plain_items (value : Value) (plain : value.isVector = false) : value.items = [] := by
  cases value with
  | vector tag items => cases plain
  | _ => rfl

theorem reads_add (offset : Nat) (value : Value) (plain : value.isVector = false)
    (room : p.nodes.length < maxObjects) : Reads lent p { p with nodes := p.nodes ++ [⟨offset, value⟩] } where
  inv inv := by
    have more : (p.nodes ++ [(⟨offset, value⟩ : Node)]).length = p.nodes.length + 1 := by
      rw [List.length_append, List.length_singleton]
    refine ⟨inv.inside, by rw [more]; exact room, inv.data, inv.depth, inv.edges, ?_, ?_, ?_, ?_, ?_, ?_⟩
    · intro node found item inside
      rw [more]
      rcases List.mem_append.mp found with found | found
      · exact Nat.lt_succ_of_lt (inv.items node found item inside)
      · rw [List.mem_singleton.mp found, plain_items value plain] at inside
        cases inside
    · intro entry found
      rw [more]
      exact Nat.lt_succ_of_lt (inv.table entry found)
    · intro frame found
      rw [more]
      exact ⟨Nat.lt_succ_of_lt (inv.frames frame found).1, (inv.frames frame found).2⟩
    · intro node found
      rw [more]
      exact Nat.lt_succ_of_lt (inv.loan node found)
    · have total := inv.total
      simpa only [itemCount, List.map_append, List.sum_append, List.map_cons, List.map_nil, plain_items value plain, List.length_nil,
        List.sum_cons, List.sum_nil, Nat.add_zero] using total
    · intro i node found vector
      rcases Nat.lt_or_ge i p.nodes.length with before | after
      · rw [List.getElem?_append_left before] at found
        exact inv.declared i node found vector
      · rw [List.getElem?_append_right after] at found
        obtain rfl := List.mem_singleton.mp (List.mem_of_getElem? found)
        rw [plain] at vector
        cases vector
  bytes := rfl
  forward := Nat.le_refl _
  objects := by
    rw [List.length_append]
    exact Nat.le_add_right _ _
  data := Nat.le_refl _
  depth := Nat.le_refl _
  credit := Nat.le_refl _

theorem modify_cases {nodes : List Node} {i j : Nat} {change : Node → Node} {node : Node}
    (found : (nodes.modify i change)[j]? = some node) :
    (i = j ∧ ∃ old, nodes[j]? = some old ∧ node = change old) ∨ (i ≠ j ∧ nodes[j]? = some node) := by
  rw [List.getElem?_modify] at found
  obtain ⟨old, present, same⟩ := Option.map_eq_some_iff.mp found
  by_cases here : i = j
  · rw [if_pos here] at same
    exact Or.inl ⟨here, old, present, same.symm⟩
  · rw [if_neg here] at same
    exact Or.inr ⟨here, by rw [present, ← same]⟩

theorem item_count_modify (nodes : List Node) (i : Nat) (change : Node → Node) (more : Nat)
    (grows : ∀ node, nodes[i]? = some node → (change node).value.items.length ≤ node.value.items.length + more) :
    itemCount (nodes.modify i change) ≤ itemCount nodes + more := by
  induction nodes generalizing i with
  | nil =>
      rw [List.modify_nil]
      exact Nat.le_add_right _ _
  | cons first nodes ih =>
      cases i with
      | zero =>
          have grown := grows first rfl
          simp only [List.modify_zero_cons, itemCount, List.map_cons, List.sum_cons]
          omega
      | succ i =>
          have rest := ih i grows
          simp only [itemCount] at rest
          simp only [List.modify_succ_cons, itemCount, List.map_cons, List.sum_cons]
          omega

theorem reads_plain (i : Nat) (change : Node → Node)
    (plain : ∀ node, (change node).value.isVector = false) : Reads lent p { p with nodes := p.nodes.modify i change } where
  inv inv := by
    have same : (p.nodes.modify i change).length = p.nodes.length := List.length_modify _ _ _
    refine ⟨inv.inside, by rw [same]; exact inv.objects, inv.data, inv.depth, inv.edges, ?_, by rw [same]; exact inv.table,
      by rw [same]; exact inv.frames, by rw [same]; exact inv.loan, ?_, ?_⟩
    · intro node found item inside
      rw [same]
      obtain ⟨j, present⟩ := List.mem_iff_getElem?.mp found
      rcases modify_cases present with ⟨-, old, -, rfl⟩ | ⟨-, old⟩
      · rw [plain_items _ (plain old)] at inside
        cases inside
      · exact inv.items node (List.mem_of_getElem? old) item inside
    · have total := inv.total
      have fewer := item_count_modify p.nodes i change 0 fun node found => by
        rw [plain_items _ (plain node)]
        exact Nat.zero_le _
      simp only at total ⊢
      omega
    · intro j node found vector
      rcases modify_cases found with ⟨-, old, -, rfl⟩ | ⟨-, old⟩
      · rw [plain old] at vector
        cases vector
      · exact inv.declared j node old vector
  bytes := rfl
  forward := Nat.le_refl _
  objects := Nat.le_of_eq (List.length_modify _ _ _).symm
  data := Nat.le_refl _
  depth := Nat.le_refl _
  credit := Nat.le_refl _

structure Fresh (lent : Option Nat) (p : Parser) (node offset : Nat) : Prop where
  present : p.nodes[node]? = some ⟨offset, .unknown⟩
  apart : ∀ frame ∈ p.pending, frame.node ≠ node
  unlent : lent ≠ some node

theorem owed_apart (pending : List Pending) (node : Nat) (apart : ∀ frame ∈ pending, frame.node ≠ node) : owed pending node = 0 := by
  induction pending with
  | nil => rfl
  | cons frame pending ih =>
      have rest := ih fun frame found => apart frame (List.mem_cons_of_mem _ found)
      have other := apart frame List.mem_cons_self
      simp only [owed] at rest
      simp only [owed, List.map_cons, List.sum_cons, if_neg other, rest]

def Parser.queue (p : Parser) (node refs count : Nat) : List Pending :=
  if count = 0 then p.pending else ⟨node, refs, count, 0⟩ :: p.pending

theorem owed_queue (j : Nat) : owed (p.queue node refs count) j = owed p.pending j + if node = j then count else 0 := by
  rw [Parser.queue]
  by_cases none : count = 0
  · rw [if_pos none, none, ite_self, Nat.add_zero]
  · rw [if_neg none, Nat.add_comm]
    rfl

theorem left_queue : ((p.queue node refs count).map Pending.left).sum = (p.pending.map Pending.left).sum + count := by
  rw [Parser.queue]
  by_cases none : count = 0
  · rw [if_pos none, none, Nat.add_zero]
  · rw [if_neg none, Nat.add_comm]
    rfl

theorem credit_queue :
    ((p.queue node refs count).map fun frame => frame.left + 1).sum ≤ (p.pending.map fun frame => frame.left + 1).sum + 2 * count := by
  rw [Parser.queue]
  by_cases none : count = 0
  · rw [if_pos none]
    exact Nat.le_add_right _ _
  · rw [if_neg none]
    simp only [List.map_cons, List.sum_cons, Pending.left]
    omega

theorem queue_cases (frame : Pending) (found : frame ∈ p.queue node refs count) :
    frame = ⟨node, refs, count, 0⟩ ∨ frame ∈ p.pending := by
  rw [Parser.queue] at found
  by_cases none : count = 0
  · rw [if_pos none] at found
    exact Or.inr found
  · rw [if_neg none] at found
    exact List.mem_cons.mp found

theorem queue_longer : p.pending.length ≤ (p.queue node refs count).length := by
  rw [Parser.queue]
  by_cases none : count = 0
  · rw [if_pos none]
  · rw [if_neg none]
    exact Nat.le_succ _

theorem queue_depth (most : Nat) (now : p.pending.length ≤ most)
    (deep : count ≠ 0 → p.pending.length < most) : (p.queue node refs count).length ≤ most := by
  rw [Parser.queue]
  by_cases none : count = 0
  · rw [if_pos none]
    exact now
  · rw [if_neg none]
    exact deep none

theorem vector_inv (offset refs count : Nat) (tag : Option UInt8) (items : List Nat)
    (inv : Inv lent p) (fresh : Fresh lent p node offset) (known : ∀ item ∈ items, item < p.nodes.length)
    (declared : declaredAt p.bytes offset = some (items.length + count))
    (funded : itemCount p.nodes + (p.pending.map Pending.left).sum + lent.toList.length + (items.length + count) ≤ p.edges)
    (deep : count ≠ 0 → p.pending.length < maxDepth) :
    Inv lent { p.assign node (.vector tag items) with pending := p.queue node refs count } := by
  have same : (p.assign node (.vector tag items)).nodes.length = p.nodes.length := List.length_modify _ _ _
  refine ⟨inv.inside, by rw [same]; exact inv.objects, inv.data, queue_depth p node refs count maxDepth inv.depth deep, inv.edges, ?_,
    by rw [same]; exact inv.table, ?_, by rw [same]; exact inv.loan, ?_, ?_⟩
  · intro entry found item inside
    rw [same]
    obtain ⟨j, present⟩ := List.mem_iff_getElem?.mp found
    rcases modify_cases present with ⟨-, old, -, rfl⟩ | ⟨-, old⟩
    · exact known item inside
    · exact inv.items entry (List.mem_of_getElem? old) item inside
  · intro frame found
    rw [same]
    rcases queue_cases p node refs count frame found with rfl | found
    · exact ⟨(List.getElem?_eq_some_iff.mp fresh.present).1, Nat.zero_le _⟩
    · exact inv.frames frame found
  · have grown := item_count_modify p.nodes node (fun entry => { entry with value := .vector tag items }) items.length
      fun entry _ => Nat.le_add_left _ _
    have queued := left_queue p node refs count
    simp only [Parser.assign] at grown ⊢
    omega
  · intro j entry found vector
    have queued := owed_queue p node refs count j
    simp only [queued]
    rcases modify_cases found with ⟨rfl, old, present, rfl⟩ | ⟨other, old⟩
    · obtain rfl := Option.some.inj (present.symm.trans fresh.present)
      rw [owed_apart p.pending node fresh.apart, if_pos rfl, if_neg fresh.unlent, Nat.zero_add, Nat.add_zero]
      exact declared
    · rw [if_neg other]
      exact inv.declared j entry old vector

end Filefacts.Scpt
