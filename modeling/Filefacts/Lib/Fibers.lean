import Mathlib.Data.List.Dedup
import Mathlib.Data.List.Induction
import Mathlib.Data.List.Perm.Subperm
import Mathlib.Algebra.Order.Ring.Nat

set_option autoImplicit false

namespace Filefacts.Fibers

universe u v

variable {Key : Type u} {Item : Type v} [DecidableEq Key] (before : Key → Key → Bool)

-- One more item under its key. A key not yet there goes in front of the first
-- key it comes before, so at the end where none comes before another.
def push (key : Key) (item : Item) : List (Key × List Item) → List (Key × List Item)
  | [] => [(key, [item])]
  | (other, items) :: classes =>
      if other = key then (other, items ++ [item]) :: classes
      else if before key other then (key, [item]) :: (other, items) :: classes
      else (other, items) :: push key item classes

def pushAll (pairs : List (Key × Item)) : List (Key × List Item) :=
  pairs.foldl (fun classes pair => push before pair.1 pair.2 classes) []

variable (pairs : List (Key × Item)) (key : Key) (item : Item) (classes : List (Key × List Item))

theorem push_all_append (more : List (Key × Item)) :
    pushAll before (pairs ++ more) = more.foldl (fun classes pair => push before pair.1 pair.2 classes) (pushAll before pairs) :=
  List.foldl_append

def fiber (pairs : List (Key × Item)) (key : Key) : List Item := (pairs.filter (·.1 = key)).map Prod.snd

theorem fiber_snoc (other : Key) (item : Item) :
    fiber (pairs ++ [(key, item)]) other = if other = key then fiber pairs other ++ [item] else fiber pairs other := by
  unfold fiber
  rw [List.filter_append, List.map_append]
  by_cases same : other = key
  · rw [if_pos same, List.filter_cons_of_pos (by simp [same])]
    rfl
  · rw [if_neg same, List.filter_cons_of_neg (by simpa using Ne.symm same)]
    exact List.append_nil _

def keys (classes : List (Key × List Item)) : List Key := classes.map Prod.fst

omit [DecidableEq Key] in
theorem keys_cons (head : Key) (items : List Item) (classes : List (Key × List Item)) :
    keys ((head, items) :: classes) = head :: keys classes := rfl

-- No key comes before one that stands to its left.
def Settled (classes : List (Key × List Item)) : Prop := (keys classes).Pairwise fun left right => before right left = false

theorem push_keys (other : Key) : other ∈ keys (push before key item classes) ↔ other = key ∨ other ∈ keys classes := by
  unfold keys
  induction classes with
  | nil => simp [push]
  | cons first classes ih =>
      obtain ⟨head, items⟩ := first
      by_cases same : head = key
      · simp [push, same]
      · by_cases earlier : before key head = true
        · simp [push, same, earlier]
        · rw [push, if_neg same, if_neg earlier, List.map_cons, List.mem_cons, ih, List.map_cons, List.mem_cons]
          exact or_left_comm

omit [DecidableEq Key] in
theorem earlier_absent {head : Key} {items : List Item} {classes : List (Key × List Item)}
    (settled : Settled before ((head, items) :: classes)) (different : head ≠ key) (earlier : before key head = true) :
    key ∉ keys ((head, items) :: classes) := by
  intro member
  rcases List.mem_cons.mp member with here | member
  · exact different here.symm
  · rw [(List.pairwise_cons.mp settled).1 key member] at earlier
    cases earlier

theorem push_distinct (settled : Settled before classes)
    (distinct : (keys classes).Nodup) : (keys (push before key item classes)).Nodup := by
  induction classes with
  | nil => simp [push, keys]
  | cons first classes ih =>
      obtain ⟨head, items⟩ := first
      obtain ⟨headFirst, rest⟩ := List.pairwise_cons.mp settled
      obtain ⟨fresh, others⟩ := List.nodup_cons.mp distinct
      by_cases same : head = key
      · rw [push, if_pos same]
        exact distinct
      · by_cases earlier : before key head = true
        · rw [push, if_neg same, if_pos earlier]
          exact List.nodup_cons.mpr ⟨earlier_absent before key settled same earlier, distinct⟩
        · rw [push, if_neg same, if_neg earlier]
          apply List.nodup_cons.mpr
          refine ⟨fun member => ?_, ih rest others⟩
          rcases (push_keys before key item classes head).mp member with here | member
          · exact same here
          · exact fresh member

section Ordered

variable (irreflexive : ∀ key, before key key = false)
  (transitive : ∀ first second third, before first second = true → before second third = true → before first third = true)

include irreflexive transitive

theorem push_settled (key : Key) (item : Item) (classes : List (Key × List Item)) (settled : Settled before classes) :
    Settled before (push before key item classes) := by
  induction classes with
  | nil => simp [push, Settled, keys]
  | cons first classes ih =>
      obtain ⟨head, items⟩ := first
      obtain ⟨headFirst, rest⟩ := List.pairwise_cons.mp settled
      by_cases same : head = key
      · rw [push, if_pos same]
        exact settled
      · by_cases earlier : before key head = true
        · rw [push, if_neg same, if_pos earlier]
          apply List.pairwise_cons.mpr
          refine ⟨fun later member => Bool.eq_false_iff.mpr fun goes => ?_, settled⟩
          rcases List.mem_cons.mp member with rfl | member
          · have cycle := transitive key later key earlier goes
            rw [irreflexive key] at cycle
            cases cycle
          · have skips := transitive later key head goes earlier
            rw [headFirst later member] at skips
            cases skips
        · rw [push, if_neg same, if_neg earlier]
          apply List.pairwise_cons.mpr
          refine ⟨fun later member => ?_, ih rest⟩
          rcases (push_keys before key item classes later).mp member with rfl | member
          · exact Bool.eq_false_iff.mpr earlier
          · exact headFirst later member

end Ordered

structure Grouped (pairs : List (Key × Item)) (classes : List (Key × List Item)) : Prop where
  distinct : (keys classes).Nodup
  present : ∀ key, key ∈ keys classes ↔ ∃ pair ∈ pairs, pair.1 = key
  exact : ∀ cls ∈ classes, cls.2 = fiber pairs cls.1

theorem push_exact
    (settled : Settled before classes) (distinct : (keys classes).Nodup) (exact : ∀ cls ∈ classes, cls.2 = fiber pairs cls.1)
    (fresh : key ∉ keys classes → fiber pairs key = []) :
    ∀ cls ∈ push before key item classes, cls.2 = fiber (pairs ++ [(key, item)]) cls.1 := by
  induction classes with
  | nil =>
      intro cls member
      obtain rfl : cls = (key, [item]) := by simpa [push] using member
      rw [fiber_snoc, if_pos rfl, fresh (by simp [keys])]
      rfl
  | cons first classes ih =>
      obtain ⟨head, items⟩ := first
      obtain ⟨headFirst, rest⟩ := List.pairwise_cons.mp settled
      obtain ⟨headFresh, others⟩ := List.nodup_cons.mp distinct
      have kept : ∀ cls ∈ (head, items) :: classes, cls.1 ≠ key → cls.2 = fiber (pairs ++ [(key, item)]) cls.1 :=
        fun cls member different => by rw [fiber_snoc, if_neg different, exact cls member]
      by_cases same : head = key
      · rw [push, if_pos same]
        intro cls member
        rcases List.mem_cons.mp member with rfl | member
        · rw [fiber_snoc, if_pos same, ← exact (head, items) List.mem_cons_self]
        · apply kept cls (List.mem_cons_of_mem _ member)
          intro equal
          exact headFresh (List.mem_map.mpr ⟨cls, member, equal.trans same.symm⟩)
      · by_cases earlier : before key head = true
        · rw [push, if_neg same, if_pos earlier]
          have absent := earlier_absent before key settled same earlier
          intro cls member
          rcases List.mem_cons.mp member with rfl | member
          · rw [fiber_snoc, if_pos rfl, fresh absent]
            rfl
          · apply kept cls member
            intro equal
            exact absent (List.mem_map.mpr ⟨cls, member, equal⟩)
        · rw [push, if_neg same, if_neg earlier]
          intro cls member
          rcases List.mem_cons.mp member with rfl | member
          · exact kept (head, items) List.mem_cons_self same
          · refine ih rest others (fun cls member => exact cls (List.mem_cons_of_mem _ member)) (fun absent => ?_) cls member
            apply fresh
            intro member
            rcases List.mem_cons.mp member with here | member
            · exact same here.symm
            · exact absent member

theorem push_grouped (settled : Settled before classes) (grouped : Grouped pairs classes) :
    Grouped (pairs ++ [(key, item)]) (push before key item classes) := by
  refine ⟨push_distinct before key item classes settled grouped.distinct, fun other => ?_,
    push_exact before pairs key item classes settled grouped.distinct grouped.exact fun absent => ?_⟩
  · rw [push_keys, grouped.present other]
    simp only [List.mem_append, List.mem_singleton, or_and_right, exists_or, exists_eq_left]
    rw [or_comm, eq_comm]
  · have none : pairs.filter (·.1 = key) = [] :=
      List.filter_eq_nil_iff.mpr fun pair member => by
        simpa using fun same => absent ((grouped.present key).mpr ⟨pair, member, same⟩)
    rw [fiber, none, List.map_nil]

section Ordered

variable (irreflexive : ∀ key, before key key = false)
  (transitive : ∀ first second third, before first second = true → before second third = true → before first third = true)

include irreflexive transitive

theorem push_all_grouped (pairs : List (Key × Item)) : Settled before (pushAll before pairs) ∧ Grouped pairs (pushAll before pairs) := by
  induction pairs using List.reverseRecOn with
  | nil => exact ⟨List.Pairwise.nil, by simp [pushAll, keys], by simp [pushAll, keys], by simp [pushAll]⟩
  | append_singleton pairs pair ih =>
      rw [push_all_append, List.foldl_cons, List.foldl_nil]
      exact ⟨push_settled before irreflexive transitive pair.1 pair.2 _ ih.1,
        push_grouped before pairs pair.1 pair.2 _ ih.1 ih.2⟩

end Ordered

theorem grouped_class (grouped : Grouped pairs classes) (key : Key)
    (found : ∃ pair ∈ pairs, pair.1 = key) : (key, fiber pairs key) ∈ classes := by
  obtain ⟨cls, member, rfl⟩ := List.mem_map.mp ((grouped.present key).mpr found)
  rwa [← grouped.exact cls member]

theorem grouped_inhabited {pairs : List (Key × Item)} {classes : List (Key × List Item)} (grouped : Grouped pairs classes)
    {cls : Key × List Item} (member : cls ∈ classes) : cls.2 ≠ [] := by
  obtain ⟨pair, found, same⟩ := (grouped.present cls.1).mp (List.mem_map_of_mem member)
  rw [grouped.exact cls member]
  apply List.ne_nil_of_mem
  exact List.mem_map_of_mem (f := Prod.snd) (List.mem_filter.mpr ⟨found, by simpa using same⟩)

theorem grouped_keys_perm (grouped : Grouped pairs classes) : (keys classes).Perm (pairs.map Prod.fst).dedup := by
  apply (List.perm_ext_iff_of_nodup grouped.distinct (List.nodup_dedup _)).mpr
  intro key
  rw [grouped.present key, List.mem_dedup, List.mem_map]

section Arrival

variable {Value : Type v} (value : List Item → Value) (absorb : Value → Item → Value)

variable (key : Key) (item : Item) (classes : List (Key × List Item))

theorem push_seen (seen : key ∈ keys classes)
    (grows : ∀ cls ∈ classes, value (cls.2 ++ [item]) = absorb (value cls.2) item) :
    (push (fun _ _ => false) key item classes).map (fun cls => value cls.2) =
      (classes.map fun cls => value cls.2).modify ((keys classes).idxOf key) (absorb · item) := by
  induction classes with
  | nil => exact absurd seen List.not_mem_nil
  | cons first classes ih =>
      obtain ⟨head, items⟩ := first
      obtain ⟨here, others⟩ := List.forall_mem_cons.mp grows
      by_cases same : head = key
      · rw [push, if_pos same, keys_cons, List.map_cons, List.map_cons, here, same, List.idxOf_cons_self]
        rfl
      · have later : key ∈ keys classes := (List.mem_cons.mp seen).resolve_left (Ne.symm same)
        rw [push, if_neg same, if_neg Bool.false_ne_true, List.map_cons, ih later others, keys_cons, List.idxOf_cons_ne _ same]
        rfl

theorem push_keys_seen (seen : key ∈ keys classes) : keys (push (fun _ _ => false) key item classes) = keys classes := by
  induction classes with
  | nil => exact absurd seen List.not_mem_nil
  | cons first classes ih =>
      obtain ⟨head, items⟩ := first
      by_cases same : head = key
      · rw [push, if_pos same]
        rfl
      · rw [push, if_neg same, if_neg Bool.false_ne_true, keys_cons, ih ((List.mem_cons.mp seen).resolve_left (Ne.symm same)),
          keys_cons]

theorem push_new (new : key ∉ keys classes) : push (fun _ _ => false) key item classes = classes ++ [(key, [item])] := by
  induction classes with
  | nil => rfl
  | cons first classes ih =>
      obtain ⟨head, items⟩ := first
      rw [keys_cons, List.mem_cons, not_or] at new
      rw [push, if_neg (Ne.symm new.1), if_neg Bool.false_ne_true, ih new.2, List.cons_append]

end Arrival

section Renamed

variable {Other : Type u} [DecidableEq Other] (rename : Key → Other)

theorem push_renamed (key : Key) (item : Item) (classes : List (Key × List Item))
    (faithful : ∀ other ∈ keys classes, rename other = rename key → other = key) :
    push (fun _ _ => false) (rename key) item (classes.map (Prod.map rename id)) =
      (push (fun _ _ => false) key item classes).map (Prod.map rename id) := by
  induction classes with
  | nil => rfl
  | cons first classes ih =>
      obtain ⟨head, items⟩ := first
      have others := ih fun other member => faithful other (List.mem_cons_of_mem _ member)
      by_cases same : head = key
      · simp [push, same]
      · have different : rename head ≠ rename key := fun equal => same (faithful head List.mem_cons_self equal)
        simpa [push, same, different] using others

theorem push_all_renamed (pairs : List (Key × Item))
    (faithful : ∀ first ∈ pairs, ∀ second ∈ pairs, rename first.1 = rename second.1 → first.1 = second.1) :
    pushAll (fun _ _ => false) (pairs.map (Prod.map rename id)) = (pushAll (fun _ _ => false) pairs).map (Prod.map rename id) := by
  induction pairs using List.reverseRecOn with
  | nil => rfl
  | append_singleton pairs pair ih =>
      have before := ih fun first member second found =>
        faithful first (List.mem_append_left _ member) second (List.mem_append_left _ found)
      rw [List.map_append, push_all_append, before, push_all_append]
      apply push_renamed rename
      intro other member equal
      have classes := (push_all_grouped (fun _ _ => false) (fun _ => rfl) (fun _ _ _ first _ => first) pairs).2
      obtain ⟨earlier, found, rfl⟩ := (classes.present other).mp member
      exact faithful earlier (List.mem_append_left _ found) pair (by simp) equal

end Renamed

end Filefacts.Fibers
