import Filefacts.Lib.Worklist

set_option autoImplicit false

namespace Filefacts.Unfolding

universe u

variable {Node : Type u} (refs : Node → Option (List Node))

def Refers (source target : Node) : Prop := ∃ children, refs source = some children ∧ target ∈ children

-- The trees that nodes unfold to when every reference gets a copy, in order:
-- `size` counts the copies. There are none below a node that cannot be read,
-- and none of finite size below one that leads back to itself.
inductive UnfoldsAll : List Node → Nat → Prop where
  | nil : UnfoldsAll [] 0
  | cons (node : Node) (children rest : List Node) (inner later : Nat) (read : refs node = some children)
      (below : UnfoldsAll children inner) (after : UnfoldsAll rest later) : UnfoldsAll (node :: rest) (1 + inner + later)

def Unfolds (node : Node) (size : Nat) : Prop := UnfoldsAll refs [node] size

theorem unfolds_all_unique (nodes : List Node) (size size' : Nat) (first : UnfoldsAll refs nodes size)
    (second : UnfoldsAll refs nodes size') : size = size' := by
  induction first generalizing size' with
  | nil =>
      cases second
      rfl
  | cons node children rest inner later read _ _ ihBelow ihAfter =>
      cases second with
      | cons _ children' _ inner' later' read' below' after' =>
          obtain rfl := Option.some.inj (read.symm.trans read')
          rw [ihBelow inner' below', ihAfter later' after']

theorem unfolds_all_append (front back : List Node) (size : Nat) :
    UnfoldsAll refs (front ++ back) size ↔
      ∃ first second, UnfoldsAll refs front first ∧ UnfoldsAll refs back second ∧ size = first + second := by
  constructor
  · intro unfolds
    induction front generalizing size with
    | nil => exact ⟨0, size, .nil, unfolds, (Nat.zero_add size).symm⟩
    | cons node front ih =>
        cases unfolds with
        | cons _ children _ inner later read below after =>
            obtain ⟨first, second, fronts, backs, rfl⟩ := ih later after
            exact ⟨1 + inner + first, second, .cons node children front inner first read below fronts, backs, by omega⟩
  · rintro ⟨first, second, fronts, backs, rfl⟩
    induction fronts with
    | nil => simpa using backs
    | cons node children rest inner later read below _ _ ihAfter =>
        have whole := UnfoldsAll.cons node children (rest ++ back) inner (later + second) read below ihAfter
        rwa [show 1 + inner + (later + second) = 1 + inner + later + second by omega] at whole

variable {node : Node} {size : Nat}

theorem unfolds_replicate (copies : Nat) (unfolds : Unfolds refs node size) :
    UnfoldsAll refs (List.replicate copies node) (copies * size) := by
  induction copies with
  | zero => simpa using UnfoldsAll.nil
  | succ copies ih =>
      rw [List.replicate_succ, Nat.succ_mul, Nat.add_comm]
      exact (unfolds_all_append refs [node] (List.replicate copies node) _).mpr ⟨size, _, unfolds, ih, rfl⟩

theorem unfolds_member {nodes : List Node} (unfolds : UnfoldsAll refs nodes size)
    (member : node ∈ nodes) : ∃ own, Unfolds refs node own ∧ own ≤ size := by
  induction unfolds with
  | nil => simp at member
  | cons head children rest inner later read below after _ ihAfter =>
      rcases List.mem_cons.mp member with rfl | deeper
      · exact ⟨1 + inner + 0, .cons node children [] inner 0 read below .nil, by omega⟩
      · obtain ⟨own, unfoldsOwn, bound⟩ := ihAfter deeper
        exact ⟨own, unfoldsOwn, by omega⟩

theorem unfolds_child {source target : Node} (unfolds : Unfolds refs source size) (edge : Refers refs source target) :
    ∃ own, Unfolds refs target own ∧ own < size := by
  obtain ⟨children, read, member⟩ := edge
  cases unfolds with
  | cons _ children' _ inner later read' below after =>
      obtain rfl := Option.some.inj (read.symm.trans read')
      obtain ⟨own, unfoldsOwn, bound⟩ := unfolds_member refs below member
      exact ⟨own, unfoldsOwn, by omega⟩

theorem unfolds_reach (source target : Node) (size : Nat) (unfolds : Unfolds refs source size)
    (reach : Relation.TransGen (Refers refs) source target) : ∃ own, Unfolds refs target own ∧ own < size := by
  induction reach with
  | single edge => exact unfolds_child refs unfolds edge
  | tail _ edge ih =>
      obtain ⟨middle, unfoldsMiddle, bound⟩ := ih
      obtain ⟨own, unfoldsOwn, smaller⟩ := unfolds_child refs unfoldsMiddle edge
      exact ⟨own, unfoldsOwn, by omega⟩

theorem unfolds_no_cycle (node : Node) (size : Nat) (unfolds : Unfolds refs node size) :
    ¬ Relation.TransGen (Refers refs) node node := by
  intro cycle
  obtain ⟨own, again, smaller⟩ := unfolds_reach refs node node size unfolds cycle
  have same := unfolds_all_unique refs [node] size own unfolds again
  omega

section Reader

-- A reader of a list of references, given what it does with one: a count of
-- the copies made, and whether to go on.
def expandAll (one : Node → Nat × Bool) : List Node → Nat × Bool
  | [] => (0, true)
  | node :: rest =>
      match one node with
      | (count, false) => (count, false)
      | (count, true) => (count + (expandAll one rest).1, (expandAll one rest).2)

-- The path of references to the first node that stops a reader, with all that
-- is unfolded to the left of it.
inductive StopsAfter : List Node → Node → Nat → Prop where
  | cycle (path : List Node) (node : Node) (inside : node ∈ path) : StopsAfter path node 0
  | unreadable (path : List Node) (node : Node) (fresh : node ∉ path) (unread : refs node = none) : StopsAfter path node 0
  | deeper (path : List Node) (node child : Node) (left right : List Node) (size count : Nat) (fresh : node ∉ path)
      (read : refs node = some (left ++ child :: right)) (whole : UnfoldsAll refs left size)
      (stops : StopsAfter (node :: path) child count) : StopsAfter path node (1 + size + count)

-- Enough levels for a path that grows by distinct nodes, all of one domain.
structure Adequate (domain : List Node) (levels : Nat) (path : List Node) : Prop where
  distinct : path.Nodup
  inside : ∀ node ∈ path, node ∈ domain
  enough : domain.length < path.length + levels

variable {path : List Node} {levels : Nat}

theorem adequate_levels {domain : List Node} (adequate : Adequate domain levels path) : levels ≠ 0 := by
  have bound := Worklist.distinct_length_bound path domain adequate.distinct adequate.inside
  have enough := adequate.enough
  omega

theorem adequate_below {domain : List Node} {node : Node} (adequate : Adequate domain (levels + 1) path)
    (fresh : node ∉ path) (known : node ∈ domain) : Adequate domain levels (node :: path) := by
  refine ⟨List.nodup_cons.mpr ⟨fresh, adequate.distinct⟩, ?_, ?_⟩
  · intro other member
    rcases List.mem_cons.mp member with rfl | earlier
    · exact known
    · exact adequate.inside other earlier
  · have enough := adequate.enough
    simp only [List.length_cons]
    omega

theorem expand_all_split (one : Node → Nat × Bool) (left right : List Node) (child : Node) (size count : Nat)
    (whole : expandAll one left = (size, true)) (stopped : one child = (count, false)) :
    expandAll one (left ++ child :: right) = (size + count, false) := by
  induction left generalizing size with
  | nil =>
      obtain rfl : 0 = size := (Prod.mk.inj whole).1
      simp [expandAll, stopped]
  | cons node left ih =>
      rcases first : one node with ⟨own, ok⟩
      cases ok with
      | false => simp [expandAll, first] at whole
      | true =>
          rcases later : expandAll one left with ⟨rest, done⟩
          simp only [expandAll, first, later, Prod.mk.injEq] at whole
          obtain ⟨rfl, rfl⟩ := whole
          simp only [List.cons_append, expandAll, first, ih rest later]
          rw [Nat.add_assoc]

theorem expand_all_outcome (one : Node → Nat × Bool) (nodes : List Node)
    (outcome : ∀ node ∈ nodes, (one node).2 = true → Unfolds refs node (one node).1) :
    ((expandAll one nodes).2 = true → UnfoldsAll refs nodes (expandAll one nodes).1) ∧
      ((expandAll one nodes).2 = false → ∃ left child right size, nodes = left ++ child :: right ∧
        UnfoldsAll refs left size ∧ (one child).2 = false ∧ (expandAll one nodes).1 = size + (one child).1) := by
  induction nodes with
  | nil => exact ⟨fun _ => .nil, (nomatch ·)⟩
  | cons node rest ih =>
      have later := ih fun other member => outcome other (List.mem_cons_of_mem _ member)
      rcases first : one node with ⟨own, ok⟩
      cases ok with
      | false =>
          simp only [expandAll, first]
          refine ⟨(nomatch ·), fun _ => ⟨[], node, rest, 0, rfl, .nil, by rw [first], by rw [first]; simp⟩⟩
      | true =>
          have head := outcome node List.mem_cons_self (by rw [first])
          rw [first] at head
          simp only [expandAll, first]
          constructor
          · intro done
            exact (unfolds_all_append refs [node] rest _).mpr ⟨own, _, head, later.1 done, rfl⟩
          · intro stopped
            obtain ⟨left, child, right, size, rfl, lefts, stops, count⟩ := later.2 stopped
            refine ⟨node :: left, child, right, own + size, rfl, (unfolds_all_append refs [node] left _).mpr
              ⟨own, size, head, lefts, rfl⟩, stops, ?_⟩
            rw [count]
            omega

variable [DecidableEq Node]

-- Depth first and left to right, a copy for every reference. The reader stops
-- for good at the first node that it cannot read or that it is still inside.
def expand : Nat → List Node → Node → Nat × Bool
  | 0, _, _ => (0, false)
  | levels + 1, path, node =>
      if node ∈ path then (0, false)
      else
        match refs node with
        | none => (0, false)
        | some children => (1 + (expandAll (expand levels (node :: path)) children).1,
            (expandAll (expand levels (node :: path)) children).2)

variable (domain : List Node) (covered : ∀ node children, refs node = some children → node ∈ domain)

include covered

theorem expand_all_unfolds (nodes : List Node) (size : Nat) (unfolds : UnfoldsAll refs nodes size) (levels : Nat)
    (path : List Node) (adequate : Adequate domain levels path)
    (leads : ∀ ancestor ∈ path, ∀ node ∈ nodes, Relation.TransGen (Refers refs) ancestor node) :
    expandAll (expand refs levels path) nodes = (size, true) := by
  induction unfolds generalizing levels path with
  | nil => rfl
  | cons node children rest inner later read below after ihBelow ihAfter =>
      cases levels with
      | zero => exact absurd rfl (adequate_levels adequate)
      | succ levels =>
          have fresh : node ∉ path := fun member =>
            unfolds_no_cycle refs node _ (.cons node children [] inner 0 read below .nil)
              (leads node member node List.mem_cons_self)
          have inside := ihBelow levels (node :: path) (adequate_below adequate fresh (covered _ _ read)) (by
            intro ancestor member child childMember
            have edge : Refers refs node child := ⟨children, read, childMember⟩
            rcases List.mem_cons.mp member with rfl | earlier
            · exact .single edge
            · exact (leads ancestor earlier node List.mem_cons_self).tail edge)
          have beside := ihAfter (levels + 1) path adequate fun ancestor member other otherMember =>
            leads ancestor member other (List.mem_cons_of_mem _ otherMember)
          have one : expand refs (levels + 1) path node = (1 + inner, true) := by
            simp only [expand, if_neg fresh, read, inside]
          simp only [expandAll, one, beside]

theorem expand_unfolds (node : Node) (size : Nat) (unfolds : Unfolds refs node size) (levels : Nat)
    (adequate : Adequate domain levels []) : expand refs levels [] node = (size, true) := by
  have whole := expand_all_unfolds refs domain covered [node] size unfolds levels [] adequate (by simp)
  rcases one : expand refs levels [] node with ⟨count, ok⟩
  cases ok with
  | false => simp [expandAll, one] at whole
  | true => simpa [expandAll, one] using whole

theorem expand_stops (path : List Node) (node : Node) (count : Nat) (stops : StopsAfter refs path node count) (levels : Nat)
    (adequate : Adequate domain levels path)
    (leads : ∀ ancestor ∈ path, Relation.TransGen (Refers refs) ancestor node) :
    expand refs levels path node = (count, false) := by
  induction stops generalizing levels with
  | cycle path node inside =>
      cases levels with
      | zero => rfl
      | succ levels => simp [expand, inside]
  | unreadable path node fresh unread =>
      cases levels with
      | zero => rfl
      | succ levels => simp [expand, fresh, unread]
  | deeper path node child left right size count fresh read whole _ ih =>
      cases levels with
      | zero => exact absurd rfl (adequate_levels adequate)
      | succ levels =>
          have larger := adequate_below adequate fresh (covered _ _ read)
          have reaches : ∀ ancestor ∈ node :: path, ∀ other ∈ left ++ child :: right,
              Relation.TransGen (Refers refs) ancestor other := by
            intro ancestor member other otherMember
            have edge : Refers refs node other := ⟨_, read, otherMember⟩
            rcases List.mem_cons.mp member with rfl | earlier
            · exact .single edge
            · exact (leads ancestor earlier).tail edge
          have lefts := expand_all_unfolds refs domain covered left size whole levels (node :: path) larger
            fun ancestor member other otherMember => reaches ancestor member other (List.mem_append_left _ otherMember)
          have stopped := ih levels larger fun ancestor member => reaches ancestor member child (by simp)
          have both := expand_all_split _ left right child size count lefts stopped
          simp only [expand, if_neg fresh, read, both, Nat.add_assoc]

theorem expand_outcome (levels : Nat) (path : List Node) (node : Node) (adequate : Adequate domain levels path) :
    ((expand refs levels path node).2 = true → Unfolds refs node (expand refs levels path node).1) ∧
      ((expand refs levels path node).2 = false → StopsAfter refs path node (expand refs levels path node).1) := by
  induction levels generalizing path node with
  | zero => exact absurd rfl (adequate_levels adequate)
  | succ levels ih =>
      by_cases inside : node ∈ path
      · simpa [expand, inside] using StopsAfter.cycle path node inside
      · cases read : refs node with
        | none => simpa [expand, inside, read] using StopsAfter.unreadable path node inside read
        | some children =>
            have larger := adequate_below adequate inside (covered _ _ read)
            have outcome := expand_all_outcome refs (expand refs levels (node :: path)) children
              fun child _ => (ih (node :: path) child larger).1
            simp only [expand, if_neg inside, read]
            constructor
            · intro done
              exact .cons node children [] _ 0 read (outcome.1 done) .nil
            · intro stopped
              obtain ⟨left, child, right, size, rfl, lefts, stops, count⟩ := outcome.2 stopped
              rw [count, ← Nat.add_assoc]
              exact .deeper path node child left right size _ inside read lefts ((ih (node :: path) child larger).2 stops)

end Reader

end Filefacts.Unfolding
