import Filefacts.Lib.Unfolding
import Mathlib.Data.List.Dedup
import Mathlib.Data.List.Perm.Subperm
import Mathlib.Algebra.Order.Ring.Nat

set_option autoImplicit false

-- What the trees that nodes unfold to weigh, every copy of a node by the references it has.
namespace Filefacts.Weighing

open Unfolding (Refers)

variable {Node : Type} (refs : Node → Option (List Node)) (weight : List Node → Nat)

inductive WeighsAll : List Node → Nat → Prop where
  | nil : WeighsAll [] 0
  | cons (node : Node) (children rest : List Node) (inner later : Nat) (read : refs node = some children)
      (below : WeighsAll children inner) (after : WeighsAll rest later) :
      WeighsAll (node :: rest) (weight children + inner + later)

def Weighs (node : Node) (total : Nat) : Prop :=
  ∃ children inner, refs node = some children ∧ WeighsAll refs weight children inner ∧ total = weight children + inner

theorem weighs_all_cons (node : Node) (rest : List Node) (total : Nat) :
    WeighsAll refs weight (node :: rest) total ↔
      ∃ own later, Weighs refs weight node own ∧ WeighsAll refs weight rest later ∧ total = own + later := by
  constructor
  · intro weighs
    cases weighs with
    | cons _ children _ inner later read below after => exact ⟨_, later, ⟨children, inner, read, below, rfl⟩, after, rfl⟩
  · rintro ⟨_, later, ⟨children, inner, read, below, rfl⟩, after, rfl⟩
    exact .cons node children rest inner later read below after

variable (nodes : List Node) (total : Nat)

theorem weighs_all_unique (total' : Nat) (first : WeighsAll refs weight nodes total)
    (second : WeighsAll refs weight nodes total') : total = total' := by
  induction first generalizing total' with
  | nil =>
      cases second
      rfl
  | cons node children rest inner later read _ _ ihBelow ihAfter =>
      cases second with
      | cons _ children' _ inner' later' read' below' after' =>
          obtain rfl := Option.some.inj (read.symm.trans read')
          rw [ihBelow inner' below', ihAfter later' after']

theorem weighs_unique {node : Node} {total total' : Nat} (first : Weighs refs weight node total)
    (second : Weighs refs weight node total') : total = total' := by
  have alone : ∀ own, Weighs refs weight node own → WeighsAll refs weight [node] own :=
    fun own weighs => (weighs_all_cons refs weight node [] own).mpr ⟨own, 0, weighs, .nil, rfl⟩
  exact weighs_all_unique refs weight [node] total total' (alone total first) (alone total' second)

theorem weighs_all_sum (own : Node → Nat) (weighs : WeighsAll refs weight nodes total)
    (each : ∀ node ∈ nodes, Weighs refs weight node (own node)) : total = (nodes.map own).sum := by
  induction nodes generalizing total with
  | nil =>
      cases weighs
      rfl
  | cons node rest ih =>
      obtain ⟨first, later, single, others, rfl⟩ := (weighs_all_cons refs weight node rest total).mp weighs
      rw [List.map_cons, List.sum_cons, ih later others fun other member => each other (List.mem_cons_of_mem _ member),
        weighs_unique refs weight single (each node List.mem_cons_self)]

theorem weighs_all_exists (each : ∀ node ∈ nodes, ∃ own, Weighs refs weight node own) :
    ∃ total, WeighsAll refs weight nodes total := by
  induction nodes with
  | nil => exact ⟨0, .nil⟩
  | cons node rest ih =>
      obtain ⟨own, single⟩ := each node List.mem_cons_self
      obtain ⟨later, others⟩ := ih fun other member => each other (List.mem_cons_of_mem _ member)
      exact ⟨own + later, (weighs_all_cons refs weight node rest _).mpr ⟨own, later, single, others, rfl⟩⟩

theorem weighs_member (weighs : WeighsAll refs weight nodes total) (node : Node)
    (member : node ∈ nodes) : ∃ own, Weighs refs weight node own ∧ own ≤ total := by
  induction nodes generalizing total with
  | nil => exact absurd member List.not_mem_nil
  | cons head rest ih =>
      obtain ⟨first, later, single, others, rfl⟩ := (weighs_all_cons refs weight head rest total).mp weighs
      rcases List.mem_cons.mp member with rfl | among
      · exact ⟨first, single, Nat.le_add_right _ _⟩
      · obtain ⟨own, found, bound⟩ := ih later others among
        exact ⟨own, found, Nat.le_trans bound (Nat.le_add_left _ _)⟩

section Positive

variable (positive : ∀ children, 0 < weight children)

include positive

theorem weighs_child {source target : Node} {total : Nat} (weighs : Weighs refs weight source total)
    (edge : Refers refs source target) : ∃ own, Weighs refs weight target own ∧ own < total := by
  obtain ⟨children, read, member⟩ := edge
  obtain ⟨children', inner, read', below, rfl⟩ := weighs
  obtain rfl := Option.some.inj (read.symm.trans read')
  obtain ⟨own, found, bound⟩ := weighs_member refs weight children inner below target member
  have more := positive children
  exact ⟨own, found, by omega⟩

theorem weighs_reach {source target : Node} {total : Nat} (weighs : Weighs refs weight source total)
    (reach : Relation.TransGen (Refers refs) source target) : ∃ own, Weighs refs weight target own ∧ own < total := by
  induction reach with
  | single edge => exact weighs_child refs weight positive weighs edge
  | tail _ edge ih =>
      obtain ⟨middle, between, bound⟩ := ih
      obtain ⟨own, found, smaller⟩ := weighs_child refs weight positive between edge
      exact ⟨own, found, Nat.lt_trans smaller bound⟩

theorem weighs_no_cycle (node : Node) (total : Nat) (weighs : Weighs refs weight node total) :
    ¬ Relation.TransGen (Refers refs) node node := by
  intro cycle
  obtain ⟨own, again, smaller⟩ := weighs_reach refs weight positive weighs cycle
  have same := weighs_unique refs weight weighs again
  omega

def degree (node : Node) : Nat := ((refs node).getD []).length

-- Every node that is reached is copied at least once, and with it each of its references.
theorem distinct_degrees [DecidableEq Node] (nodes : List Node) (total : Nat) (weighs : WeighsAll refs weight nodes total)
    (seen : List Node) (distinct : seen.Nodup)
    (reached : ∀ object ∈ seen, ∃ node ∈ nodes, Relation.ReflTransGen (Refers refs) node object) :
    (seen.map (degree refs)).sum + nodes.length ≤ total := by
  classical
  induction weighs generalizing seen with
  | nil =>
      have none_ : seen = [] := List.eq_nil_iff_forall_not_mem.mpr fun object member => by
        obtain ⟨node, impossible, _⟩ := reached object member
        exact absurd impossible List.not_mem_nil
      rw [none_]
      exact Nat.le_refl 0
  | cons node children rest inner later read below after ihBelow ihAfter =>
      let near := seen.filter fun object => Relation.ReflTransGen (Refers refs) node object
      let far := seen.filter fun object => !decide (Relation.ReflTransGen (Refers refs) node object)
      have both : (seen.map (degree refs)).sum = (near.map (degree refs)).sum + (far.map (degree refs)).sum := by
        have whole := (List.filter_append_perm (fun object => decide (Relation.ReflTransGen (Refers refs) node object)) seen).map
          (degree refs)
        rw [← whole.sum_nat, List.map_append, List.sum_append]
      have others : (far.map (degree refs)).sum + rest.length ≤ later := by
        refine ihAfter far (distinct.filter _) fun object member => ?_
        obtain ⟨among, apart⟩ := List.mem_filter.mp member
        obtain ⟨start, from_, reach⟩ := reached object among
        rcases List.mem_cons.mp from_ with rfl | behind
        · rw [Bool.not_eq_true', decide_eq_false_iff_not] at apart
          exact absurd reach apart
        · exact ⟨start, behind, reach⟩
      have below_ : ((near.erase node).map (degree refs)).sum + children.length ≤ inner := by
        have single : near.Nodup := distinct.filter _
        refine ihBelow (near.erase node) (single.erase node) fun object member => ?_
        obtain ⟨different, among⟩ := single.mem_erase_iff.mp member
        have reach := of_decide_eq_true (List.mem_filter.mp among).2
        rcases Relation.ReflTransGen.cases_head reach with same | ⟨child, ⟨children', read', inside⟩, further⟩
        · exact absurd same.symm different
        · obtain rfl := Option.some.inj (read.symm.trans read')
          exact ⟨child, inside, further⟩
      have own : (near.map (degree refs)).sum ≤ inner := by
        have degreeOf : degree refs node = children.length := by rw [degree, read, Option.getD_some]
        by_cases member : node ∈ near
        · have whole := ((List.perm_cons_erase member).map (degree refs)).sum_nat
          rw [List.map_cons, List.sum_cons, degreeOf] at whole
          omega
        · rw [List.erase_of_not_mem member] at below_
          omega
      have more := positive children
      rw [List.length_cons]
      omega

end Positive

theorem weighs_exists [DecidableEq Node] (domain : List Node) (top : Node)
    (readable : ∀ node, Relation.ReflTransGen (Refers refs) top node → ∃ children, refs node = some children)
    (acyclic : ∀ node, Relation.ReflTransGen (Refers refs) top node → ¬ Relation.TransGen (Refers refs) node node)
    (inside : ∀ node, Relation.ReflTransGen (Refers refs) top node → node ∈ domain) (left : Nat) :
    ∀ (path : List Node) (node : Node), Relation.ReflTransGen (Refers refs) top node → path.Nodup →
      (∀ earlier ∈ path, earlier ∈ domain ∧ Relation.TransGen (Refers refs) earlier node) →
      domain.length ≤ path.length + left → ∃ total, Weighs refs weight node total := by
  induction left with
  | zero =>
      intro path node reach distinct before full
      have fresh : node ∉ path := fun member => acyclic node reach (before node member).2
      have longer : (node :: path).length ≤ domain.length := by
        refine (List.subperm_of_subset (List.nodup_cons.mpr ⟨fresh, distinct⟩) fun other member => ?_).length_le
        rcases List.mem_cons.mp member with rfl | earlier
        · exact inside other reach
        · exact (before other earlier).1
      rw [List.length_cons] at longer
      omega
  | succ left ih =>
      intro path node reach distinct before full
      have fresh : node ∉ path := fun member => acyclic node reach (before node member).2
      obtain ⟨children, read⟩ := readable node reach
      obtain ⟨inner, below⟩ := weighs_all_exists refs weight children fun child member => by
        have edge : Refers refs node child := ⟨children, read, member⟩
        refine ih (node :: path) child (reach.tail edge) (List.nodup_cons.mpr ⟨fresh, distinct⟩) ?_ ?_
        · intro earlier among
          rcases List.mem_cons.mp among with rfl | further
          · exact ⟨inside earlier reach, .single edge⟩
          · exact ⟨(before earlier further).1, (before earlier further).2.tail edge⟩
        · rw [List.length_cons]
          omega
      exact ⟨_, children, inner, read, below, rfl⟩

end Filefacts.Weighing
