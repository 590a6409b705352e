import Filefacts.Scpt.RoundTrip

set_option autoImplicit false

namespace Filefacts.Scpt

theorem newline_found {front : List UInt8} (rest : List UInt8) (clean : 10 ∉ front) :
    (front ++ 10 :: rest).findIdx? (· == 10) = some front.length := by
  induction front with
  | nil => simp [List.findIdx?_cons]
  | cons b front ih =>
      have differ : (b == 10) = false := by
        rw [beq_eq_false_iff_ne]
        exact fun same => clean (same ▸ List.mem_cons_self)
      rw [List.cons_append, List.findIdx?_cons, differ, ih fun listed => clean (List.mem_cons_of_mem _ listed)]
      rfl

def fresh (bytes : List UInt8) : Parser := ⟨bytes, 0, [], [], [], 0, 0⟩

theorem shebang_reads (h : Header) (rest : List UInt8)
    (short : (h.octets ++ rest).length ≤ maxInput) :
    ∃ p : Parser, (fresh (h.octets ++ rest)).shebang = .ok ((), p) ∧
      p = { fresh (h.octets ++ rest) with pos := p.pos } ∧
      p.At (magic ++ (h.outer ++ ((if atLeast h.outer version110 then h.effective else []) ++ rest))) := by
  cases line : h.shebang with
  | none =>
      have octets : h.octets ++ rest =
          magic ++ (h.outer ++ ((if atLeast h.outer version110 then h.effective else []) ++ rest)) := by
        simp [Header.octets, line]
      refine ⟨fresh (h.octets ++ rest), ?_, rfl, ⟨Nat.zero_le _, short, ?_⟩⟩
      · have plain : (h.octets ++ rest).take 2 ≠ [0x23, 0x21] := by
          rw [octets]
          intro same
          cases congrArg List.head? same
        rw [Parser.shebang]
        exact if_neg plain
      · exact octets
  | some text =>
      have clean : 10 ∉ (0x23 : UInt8) :: 0x21 :: text := by
        have no_newline := h.line text (by rw [line]; rfl)
        simpa using no_newline
      have octets : h.octets ++ rest = (0x23 :: 0x21 :: text) ++
          10 :: (magic ++ (h.outer ++ ((if atLeast h.outer version110 then h.effective else []) ++ rest))) := by
        simp [Header.octets, line]
      have found := newline_found
        (magic ++ (h.outer ++ ((if atLeast h.outer version110 then h.effective else []) ++ rest))) clean
      rw [← octets] at found
      have starts : (h.octets ++ rest).take 2 = [0x23, 0x21] := by
        rw [octets]
        rfl
      refine ⟨{ fresh (h.octets ++ rest) with pos := (0x23 :: 0x21 :: text).length + 1 }, ?_, rfl, ⟨?_, short, ?_⟩⟩
      · rw [Parser.shebang]
        simp only [fresh, if_pos starts, found]
      · show _ ≤ (h.octets ++ rest).length
        rw [octets]
        simp only [List.length_append, List.length_cons]
        omega
      · show (h.octets ++ rest).drop _ = _
        rw [octets, ← List.drop_drop, List.drop_left]
        rfl

theorem version_reads {p : Parser} {version rest : List UInt8} (formed : isVersion version) (left : p.At (version ++ rest)) :
    p.versionWord = .ok (version, p.past 4) ∧ (p.past 4).At rest := by
  have length : version.length = 4 := by
    unfold isVersion at formed
    split at formed
    · rfl
    · cases formed
  have read := array_reads p version rest left
  have left := at_past p version left
  rw [length] at read left
  refine ⟨?_, left⟩
  simp only [Parser.versionWord, read, bind, Except.bind, if_pos formed]
  rfl

theorem header_reads {h : Header} {rest : List UInt8} (short : (h.octets ++ rest).length ≤ maxInput) :
    ∃ p : Parser, (fresh (h.octets ++ rest)).header = .ok (h.effective, p) ∧
      p = { fresh (h.octets ++ rest) with pos := p.pos } ∧ p.At rest := by
  obtain ⟨p, shebang, kept, left⟩ := shebang_reads h rest short
  have read := array_reads p magic _ left
  have left := at_past p magic left
  obtain ⟨outer, left⟩ := version_reads h.words.1 left
  have unsupported : ¬ (atLeast version097 h.effective || atLeast h.effective version111) = true := by
    simp only [Bool.or_eq_true, not_or]
    exact h.supported
  have magic_length : magic.length = 8 := rfl
  rw [magic_length] at read left outer
  by_cases second : atLeast h.outer version110 = true
  · rw [if_pos second] at left
    obtain ⟨effective, left⟩ := version_reads h.words.2 left
    refine ⟨((p.past 8).past 4).past 4, ?_, ?_, left⟩
    · simp only [Parser.header, shebang, read, bind, Except.bind, ne_eq, not_true_eq_false, if_false, outer, if_pos second, effective,
        if_neg unsupported]
      rfl
    · rw [kept]
      rfl
  · rw [if_neg second, List.nil_append] at left
    have same := h.single second
    refine ⟨(p.past 8).past 4, ?_, ?_, left⟩
    · rw [same] at unsupported ⊢
      simp only [Parser.header, shebang, read, bind, Except.bind, ne_eq, not_true_eq_false, if_false, outer, if_neg second,
        if_neg unsupported]
      rfl
    · rw [kept]
      rfl

theorem value_items {V : Type} (c : Content V) (items : List Nat) : (c.value items).items ⊆ items := by
  cases c <;> first | exact List.Subset.refl _ | exact List.nil_subset _

theorem piece_items {V : Type} (c : Content V) (value : Value) (listed : value ∈ c.pieces) : value.items = [] := by
  cases c with
  | string size text style =>
      rcases List.mem_cons.mp listed with same | listed
      · rw [same]
        rfl
      · rw [List.mem_singleton.mp listed]
        rfl
  | command tag info start stop items =>
      simp only [Content.pieces, List.mem_cons, List.not_mem_nil, or_false] at listed
      rcases listed with same | same | same <;> rw [same] <;> rfl
  | _ => cases listed

section Isomorphism

variable {V : Type} [Fintype V] [DecidableEq V] (g : Graph V)

def placeOf (place : V → Nat) : Part V → Nat
  | .object v => place v
  | .piece v index => place v + 1 + index

def Part.Known (taken : List V) : Part V → Prop
  | .object v => v ∈ taken
  | .piece v index => v ∈ taken ∧ index < (g.content v).pieces.length

variable (place : V → Nat)

theorem parts_place (v : V) : (g.parts (.object v)).map (placeOf place) =
    List.range' (place v + 1) (g.content v).pieces.length ++ (g.children v).map place := by
  rw [Graph.parts, List.map_append, List.map_map, List.map_map, List.range'_eq_map_range]
  rfl

variable (taken : List V)

theorem parts_known (p : Parser) (finished : Finished g place taken p) (x y : Part V)
    (known : x.Known g taken) (part : y ∈ g.parts x) : y.Known g taken := by
  obtain ⟨done, placed, complete⟩ := finished.placed
  cases x with
  | piece v index => cases part
  | object v =>
      rcases List.mem_append.mp part with piece | child
      · obtain ⟨index, listed, same⟩ := List.mem_map.mp piece
        rw [← same]
        exact ⟨known, List.mem_range.mp listed⟩
      · obtain ⟨w, listed, same⟩ := List.mem_map.mp child
        rw [← same]
        apply placed.closed v known
        rw [complete v known, List.take_length]
        exact listed

theorem reaches_known (p : Parser) (finished : Finished g place taken p) (rooted : g.root ∈ taken)
    (x : Part V) (reaches : g.Reaches x) : x.Known g taken := by
  induction reaches with
  | refl => exact rooted
  | tail _ part ih => exact parts_known g place taken p finished _ _ ih part

theorem known_apart (p : Parser) (finished : Finished g place taken p) (x y : Part V)
    (known : x.Known g taken) (known' : y.Known g taken) (same : placeOf place x = placeOf place y) : x = y := by
  obtain ⟨done, placed, -⟩ := finished.placed
  have apart : ∀ u ∈ taken, ∀ v ∈ taken, ∀ i j, i ≤ (g.content u).pieces.length → j ≤ (g.content v).pieces.length →
      place u + i = place v + j → u = v ∧ i = j := by
    intro u listed v listed' i j short short' equal
    by_cases differ : u = v
    · subst differ
      exact ⟨rfl, by omega⟩
    · rcases placed.apart u listed v listed' differ with before | after <;> omega
  cases x with
  | object u =>
      cases y with
      | object v =>
          obtain ⟨equal, -⟩ := apart u known v known' 0 0 (Nat.zero_le _) (Nat.zero_le _) same
          rw [equal]
      | piece v j =>
          simp only [placeOf] at same
          obtain ⟨-, impossible⟩ := apart u known v known'.1 0 (1 + j) (Nat.zero_le _) (by have := known'.2; omega) (by omega)
          omega
  | piece u i =>
      cases y with
      | object v =>
          simp only [placeOf] at same
          obtain ⟨-, impossible⟩ := apart u known.1 v known' (1 + i) 0 (by have := known.2; omega) (Nat.zero_le _) (by omega)
          omega
      | piece v j =>
          simp only [placeOf] at same
          obtain ⟨equal, index⟩ := apart u known.1 v known'.1 (1 + i) (1 + j) (by have := known.2; omega)
            (by have := known'.2; omega) (by omega)
          rw [equal, Nat.add_left_cancel index]

theorem known_value (taken : List V) (p : Parser) (finished : Finished g place taken p) (x : Part V)
    (known : x.Known g taken) :
    ∃ value, g.value (placeOf place) x = some value ∧ p.nodes[placeOf place x]?.map Node.value = some value ∧
      value.items ⊆ (g.parts x).map (placeOf place) := by
  obtain ⟨done, placed, complete⟩ := finished.placed
  cases x with
  | object v =>
      have shown := placed.values v known
      rw [complete v known, List.take_length, List.getElem?_map, ← parts_place] at shown
      exact ⟨_, rfl, shown, value_items _ _⟩
  | piece v index =>
      obtain ⟨listed, inside⟩ := known
      have shown := placed.pieces v listed index inside
      rw [List.getElem?_map, List.getElem?_eq_getElem inside] at shown
      refine ⟨_, List.getElem?_eq_getElem inside, shown, ?_⟩
      rw [piece_items (g.content v) _ (List.getElem_mem inside)]
      exact List.nil_subset _

theorem finished_isomorphic (taken : List V) (p : Parser) (finished : Finished g place taken p)
    (rooted : g.root ∈ taken) (version : Text) (truncated : Option String) :
    Isomorphic g ⟨p.nodes, place g.root, version, truncated⟩ := by
  have known := reaches_known g place taken p finished rooted
  refine ⟨placeOf place, rfl, fun x y reaches reaches' => known_apart g place taken p finished x y (known x reaches) (known y reaches'),
    ?_, ?_⟩
  · intro x reaches
    obtain ⟨value, same, shown, -⟩ := known_value g place taken p finished x (known x reaches)
    exact ⟨value, same, shown⟩
  · intro node reaches
    induction reaches with
    | refl => exact ⟨.object g.root, .refl, rfl⟩
    | @tail source target _ refers ih =>
        obtain ⟨x, reaches_x, same⟩ := ih
        obtain ⟨entry, present, item⟩ := refers
        obtain ⟨value, -, shown, items⟩ := known_value g place taken p finished x (known x reaches_x)
        rw [same, show p.nodes[source]? = some entry from present, Option.map_some, Option.some.injEq] at shown
        rw [shown] at item
        obtain ⟨y, part, placed⟩ := List.mem_map.mp (items item)
        exact ⟨y, .tail reaches_x part, placed⟩

theorem follows_start (trailing : List UInt8) (p after : Parser) (within : g.Within p.bytes.length)
    (empty : p = { fresh p.bytes with pos := p.pos })
    (read : Taken g g.root p after ((Traversal.order g.children (shared g) (Traversal.allReferences g.children + 1) [g.root]
      (Traversal.opened g.children g.root [])).flatMap (fun entry => g.record entry.1) ++ trailing)) :
    ∃ owners done, Follows g trailing (fun _ => 0) [g.root] owners done (Traversal.allReferences g.children + 1)
      (Traversal.opened g.children g.root []) after := by
  have no_nodes : p.nodes = [] := by rw [empty]; rfl
  have no_table : p.refs = [] := by rw [empty]; rfl
  have no_data : p.data = 0 := by rw [empty]; rfl
  have no_edges : p.edges = 0 := by rw [empty]; rfl
  have no_pending : p.pending = [] := by rw [empty]; rfl
  obtain ⟨-, objects, data, edges, depth⟩ := within
  have naming : (fun v => decide (0 ≤ g.ident v)) = shared g := rfl
  simp only [Graph.traversal, Traversal.traversal, naming, List.map_cons, List.sum_cons] at objects data edges depth
  have nothing : Placed g (fun _ => 0) [] (fun _ => 0) ([] : List Value) :=
    ⟨fun _ listed => (nomatch listed), fun _ listed => (nomatch listed), fun _ listed => (nomatch listed), fun _ listed => (nomatch listed),
      fun _ listed => (nomatch listed)⟩
  have unnamed : Named g (fun _ => 0) [] [] := ⟨fun _ listed => (nomatch listed), fun _ _ found => (nomatch found)⟩
  have zero : Function.update (fun _ : V => 0) g.root 0 = fun _ => 0 := Function.update_eq_self g.root _
  have values := read.values
  have placed := placed_take g _ [] _ [] g.root nothing List.not_mem_nil
  have table := named_take g _ [] [] g.root 0 unnamed List.not_mem_nil
  rw [no_nodes] at values
  simp only [List.map_nil, List.length_nil, List.nil_append, zero] at values placed table
  rw [← values] at placed
  have table_after := read.table
  rw [no_nodes, no_table, List.length_nil] at table_after
  rw [← table_after] at table
  have node_count := congrArg List.length values
  simp only [List.length_map, List.length_cons] at node_count
  have data_after := read.data
  have edges_after := read.edges
  have enough := Traversal.enough_start g.children g.root
  have once := Traversal.once_start g.children (shared g) g.root (by simp [shared, g.rooted]) fun v unshared =>
    g.single v (by simpa [shared] using unshared)
  have depth' : ∀ entry ∈ Traversal.order g.children (shared g) (Traversal.allReferences g.children + 1) [g.root]
      (Traversal.opened g.children g.root []), g.children entry.1 ≠ [] → entry.2 < maxDepth :=
    fun entry listed => depth entry (List.mem_cons_of_mem _ listed)
  have short := read.input.short
  rcases read.pending with ⟨childless, frames⟩ | ⟨children, start, back, frames, inside, refs⟩
  · refine ⟨[], fun _ => 0, ?_, read.input, List.nodup_nil, fun _ listed => (nomatch listed), fun _ _ => Nat.zero_le _, ?_, ?_, placed,
      table, ?_, ?_, ?_, depth', enough, once⟩
    · rw [Traversal.opened, if_pos childless]
      rfl
    · intro v listed _
      rw [List.mem_singleton.mp listed, childless]
      rfl
    · rw [frames, no_pending]
      exact .nil
    · omega
    · omega
    · omega
  · refine ⟨[g.root], fun _ => 0, ?_, read.input, List.nodup_singleton _, fun _ listed => listed, fun _ _ => Nat.zero_le _, ?_, ?_,
      placed, table, ?_, ?_, ?_, depth', enough, once⟩
    · rw [Traversal.opened, if_neg children]
      rfl
    · intro v listed unopened
      exact absurd listed unopened
    · rw [frames, no_pending, no_nodes]
      refine .cons ⟨rfl, rfl, rfl, back, ?_, ?_, ?_⟩ .nil
      · exact short
      · rw [read.bytes]
        exact inside
      · rw [read.bytes]
        exact refs
    · omega
    · omega
    · omega

theorem rounds_enough (length : Nat) (within : g.Within length) :
    ((Traversal.order g.children (shared g) (Traversal.allReferences g.children + 1) [g.root]
      (Traversal.opened g.children g.root [])).map fun entry => Traversal.weight g.children entry.1).sum +
      Traversal.load (Traversal.opened g.children g.root []) < rounds := by
  have naming : (fun v => decide (0 ≤ g.ident v)) = shared g := rfl
  have edges := within.edges
  simp only [Graph.traversal, Traversal.traversal, naming, List.map_cons, List.sum_cons] at edges
  generalize Traversal.order g.children (shared g) (Traversal.allReferences g.children + 1) [g.root]
    (Traversal.opened g.children g.root []) = entries at edges ⊢
  have bound : (entries.map fun entry => Traversal.weight g.children entry.1).sum ≤
      2 * (entries.map fun entry => (g.content entry.1).pieces.length + (g.children entry.1).length).sum := by
    clear edges
    induction entries with
    | nil => simp
    | cons entry rest ih =>
        have one := Traversal.weight_le g.children entry.1
        simp only [List.map_cons, List.sum_cons]
        omega
  have root := Traversal.weight_le g.children g.root
  rw [Traversal.opened_load]
  simp only [Traversal.load, List.flatten_nil, List.length_nil, rounds]
  omega

theorem parse_serialised (h : Header) (trailing : List UInt8) (within : g.Within (h.octets ++ g.octets ++ trailing).length) :
    ∃ parsed, parse (h.octets ++ g.octets ++ trailing) = .ok parsed ∧ parsed.truncated = none ∧ Isomorphic g parsed := by
  have short : ¬ maxInput < (h.octets ++ g.octets ++ trailing).length := Nat.not_lt_of_le within.input
  rw [List.append_assoc] at within short ⊢
  obtain ⟨p, header, kept, left⟩ := header_reads (Nat.le_of_not_lt short)
  have bytes : p.bytes = h.octets ++ (g.octets ++ trailing) := by rw [kept]; rfl
  have empty : p = { fresh p.bytes with pos := p.pos } := by rw [bytes]; exact kept
  have data : p.data = 0 := by rw [kept]; rfl
  have edges : p.edges = 0 := by rw [kept]; rfl
  have nodes : p.nodes = [] := by rw [kept]; rfl
  have pending : p.pending = [] := by rw [kept]; rfl
  simp only [Graph.octets, Graph.traversal, Traversal.traversal, List.flatMap_cons, List.append_assoc] at left
  have root_data := within.data
  have root_edges := within.edges
  have root_objects := within.objects
  simp only [Graph.traversal, Traversal.traversal, List.map_cons, List.sum_cons] at root_data root_edges root_objects
  obtain ⟨after, object, read⟩ := object_reads g g.root p _ left (by omega) (by omega) (by rw [nodes, List.length_nil]; omega) (by
    intro _
    rw [pending]
    decide)
  rw [g.rooted, nodes, List.length_nil] at object
  obtain ⟨owners, done, follows⟩ := follows_start g trailing p after (by rw [bytes]; exact within) empty read
  obtain ⟨final, place, taken, walked, finished, roots⟩ :=
    walk_follows g trailing _ rounds _ _ owners done _ after follows (rounds_enough g _ within)
  obtain ⟨rooted, root_place⟩ := roots g.root List.mem_cons_self
  refine ⟨⟨final.nodes, 0, h.effective, none⟩, ?_, rfl, ?_⟩
  · rw [parse, if_neg short]
    have header' : Parser.header ⟨h.octets ++ (g.octets ++ trailing), 0, [], [], [], 0, 0⟩ = .ok (h.effective, p) := header
    simp only [header', object, walked, Stopped.raise, Except.mapError, bind, Except.bind]
    rfl
  · have isomorphic := finished_isomorphic g place taken final finished rooted h.effective none
    rw [root_place] at isomorphic
    exact isomorphic

end Isomorphism

def sharing : Graph (Fin 5) where
  root := 0
  content
    | 0 => .vector 14 7 [1, 2, 0, 3, 1]
    | 1 => .string 0 [65, 66] [1]
    | 2 => .list 3 4
    | 3 => .small (-5)
    | 4 => .command 3 1 2 3 [2, 1]
  ident
    | 0 => 0
    | 1 => 7
    | 2 => 3
    | 3 => 4
    | 4 => -2
  formed
    | 0 => by simp [Content.WellFormed]
    | 1 => by simp [Content.WellFormed]
    | 2 => trivial
    | 3 => by simp [Content.WellFormed]
    | 4 => by simp [Content.WellFormed]
  fits := by decide
  rooted := rfl
  distinct := by decide
  single := by decide

def plainHeader : Header where
  shebang := none
  outer := version110
  effective := version110
  line := by simp
  words := by decide
  single := by decide
  supported := by decide

theorem parse_serialised_sharing :
    ∃ parsed, parse (plainHeader.octets ++ sharing.octets ++ [1, 2, 3]) = .ok parsed ∧ parsed.truncated = none ∧
      Isomorphic sharing parsed := by
  apply parse_serialised
  exact ⟨by decide +kernel, by decide +kernel, by decide +kernel, by decide +kernel, by decide +kernel⟩

end Filefacts.Scpt
