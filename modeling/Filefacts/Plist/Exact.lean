import Filefacts.Lib.Weighing
import Filefacts.Plist.Expansion

set_option autoImplicit false

namespace Filefacts.Plist

open Bytes (saturatingAdd maxU64)

open Unfolding (Refers)

open Weighing (Weighs WeighsAll degree)

-- A scalar or an empty collection counts one at each reference, another collection its start and its end.
def ownValues (kids : List Nat) : Nat := if kids = [] then 1 else 2

theorem own_values_positive (kids : List Nat) : 0 < ownValues kids := by
  rw [ownValues]
  split <;> decide

def Expands (kidsOf : Nat → Option (List Nat)) (object size : Nat) : Prop := Weighs kidsOf ownValues object size

section Walk

variable (kidsOf : Nat → Option (List Nat)) (cap top objects size : Nat)

-- What the memo says of an object: not seen, still open, or exactly what it expands to.
def Memo (opens : List Nat) (object known : Nat) : Prop :=
  known = 0 ∨ (known = opened ∧ object ∈ opens) ∨ (known ≤ max cap 1 ∧ Expands kidsOf object known)

-- A collection the walk is inside: its references are those of an object below the top one, and the first ones are done.
structure Followed (memo : List Nat) (frame : Frame) : Prop where
  kids : kidsOf frame.object = some frame.kids
  filled : frame.kids ≠ []
  reach : Relation.ReflTransGen (Refers kidsOf) top frame.object
  done : ∀ kid ∈ frame.kids.take frame.next, memo[kid]? ≠ some 0

-- The stack is a path of references from the top object, and every reference read belongs to an object met once.
structure Exact (state : State) : Prop where
  length : state.size.length = objects
  memo : ∀ object known, state.size[object]? = some known → Memo kidsOf cap (state.stack.map Frame.object) object known
  frames : ∀ frame ∈ state.stack, Followed kidsOf top state.size frame
  chain : (state.stack.map Frame.object).Pairwise fun upper lower => Relation.TransGen (Refers kidsOf) lower upper
  root : state.size[top]? ≠ some 0
  read : ∃ seen : List Nat, seen.Nodup ∧ (∀ object ∈ seen, state.size[object]? ≠ some 0 ∧
    Relation.ReflTransGen (Refers kidsOf) top object) ∧ state.refsRead ≤ (seen.map (degree kidsOf)).sum

variable (expands : Expands kidsOf top size) (fits : cap < maxU64 ∨ size ≤ maxU64) (word : cap ≤ maxU64)
  (inTable : ∀ object, Relation.ReflTransGen (Refers kidsOf) top object → object < objects)

theorem memo_set (memoOf opens opens' : List Nat) (target value : Nat)
    (memo : ∀ object known, memoOf[object]? = some known → Memo kidsOf cap opens object known)
    (justified : Memo kidsOf cap opens' target value) (kept : ∀ object ∈ opens, object ≠ target → object ∈ opens') :
    ∀ object known, (memoOf.set target value)[object]? = some known → Memo kidsOf cap opens' object known := by
  intro object known sized
  by_cases same : target = object
  · subst same
    rw [List.getElem?_set_self'] at sized
    obtain ⟨_, _, rfl⟩ := Option.map_eq_some_iff.mp sized
    exact justified
  · rw [List.getElem?_set_ne same] at sized
    rcases memo object known sized with unseen | ⟨isOpen, member⟩ | finished
    · exact .inl unseen
    · exact .inr (.inl ⟨isOpen, kept object member (Ne.symm same)⟩)
    · exact .inr (.inr finished)

include expands

theorem below_top {object : Nat} (reach : Relation.TransGen (Refers kidsOf) top object) :
    ∃ own, Expands kidsOf object own ∧ own < size :=
  Weighing.weighs_reach kidsOf ownValues own_values_positive expands reach

variable (state : State) (memo : List Nat)

theorem read_below (exact_ : Exact kidsOf cap top objects state) : state.refsRead < size := by
  obtain ⟨seen, distinct, reached, bound⟩ := exact_.read
  have single : WeighsAll kidsOf ownValues [top] size :=
    (Weighing.weighs_all_cons kidsOf ownValues top [] size).mpr ⟨size, 0, expands, .nil, rfl⟩
  have degrees := Weighing.distinct_degrees kidsOf ownValues own_values_positive [top] size single seen distinct
    fun object member => ⟨top, List.mem_singleton_self top, (reached object member).2⟩
  rw [List.length_singleton] at degrees
  omega

variable {frame : Frame} {rest : List Frame} {kid : Nat}

theorem kid_not_open (exact_ : Exact kidsOf cap top objects state)
    (stack : state.stack = frame :: rest) (member : kid ∈ frame.kids) :
    Relation.TransGen (Refers kidsOf) top kid ∧ kid ∉ state.stack.map Frame.object := by
  obtain ⟨kids, _, reach, _⟩ := exact_.frames frame (by rw [stack]; exact List.mem_cons_self)
  have edge : Refers kidsOf frame.object kid := ⟨frame.kids, kids, member⟩
  have below : Relation.TransGen (Refers kidsOf) top kid := Relation.TransGen.tail' reach edge
  refine ⟨below, fun isOpen => ?_⟩
  obtain ⟨own, found, _⟩ := below_top kidsOf top size expands below
  refine Weighing.weighs_no_cycle kidsOf ownValues own_values_positive kid own found ?_
  have chain := exact_.chain
  rw [stack, List.map_cons] at isOpen chain
  rcases List.mem_cons.mp isOpen with same | earlier
  · rw [same] at edge ⊢
    exact .single edge
  · exact ((List.pairwise_cons.mp chain).1 kid earlier).tail edge

theorem kid_exact (exact_ : Exact kidsOf cap top objects state) (frame : Frame) (rest : List Frame)
    (stack : state.stack = frame :: rest) (finished : frame.kids.length ≤ frame.next) (kid known : Nat) (member : kid ∈ frame.kids)
    (sized : state.size[kid]? = some known) : Expands kidsOf kid known := by
  obtain ⟨_, _, _, followed⟩ := exact_.frames frame (by rw [stack]; exact List.mem_cons_self)
  rw [List.take_of_length_le finished] at followed
  obtain ⟨_, closed⟩ := kid_not_open kidsOf cap top objects size expands state exact_ stack member
  rcases exact_.memo kid known sized with unseen | ⟨_, isOpen⟩ | ⟨_, found⟩
  · exact absurd (by rw [sized, unseen]) (followed kid member)
  · exact absurd isOpen closed
  · exact found

theorem total_exact (exact_ : Exact kidsOf cap top objects state)
    (stack : state.stack = frame :: rest) (finished : frame.kids.length ≤ frame.next) {sum : Nat}
    (summed : total state.size frame.kids = some sum) :
    ∃ own, Expands kidsOf frame.object own ∧ own ≤ size ∧ sum = min own maxU64 := by
  obtain ⟨kids, some_, reach, _⟩ := exact_.frames frame (by rw [stack]; exact List.mem_cons_self)
  rw [total_eq] at summed
  split at summed
  · next inside =>
      obtain rfl := Option.some.inj summed
      have each : ∀ kid ∈ frame.kids, Expands kidsOf kid (state.size[kid]?.getD 0) := by
        intro kid member
        have sized := List.getElem?_eq_getElem (inside kid member)
        rw [sized, Option.getD_some]
        exact kid_exact kidsOf cap top objects size expands state exact_ frame rest stack finished kid _ member sized
      obtain ⟨inner, below⟩ := Weighing.weighs_all_exists kidsOf ownValues frame.kids fun kid member => ⟨_, each kid member⟩
      have whole := Weighing.weighs_all_sum kidsOf ownValues frame.kids inner _ below each
      have own : Expands kidsOf frame.object (2 + (frame.kids.map fun kid => state.size[kid]?.getD 0).sum) :=
        ⟨frame.kids, inner, kids, below, by rw [ownValues, if_neg some_, whole]⟩
      refine ⟨_, own, ?_, rfl⟩
      rcases Relation.reflTransGen_iff_eq_or_transGen.mp reach with same | below
      · rw [same] at own
        exact Nat.le_of_eq (Weighing.weighs_unique kidsOf ownValues own expands)
      · obtain ⟨other, found, smaller⟩ := below_top kidsOf top size expands below
        rw [Weighing.weighs_unique kidsOf ownValues own found]
        exact Nat.le_of_lt smaller
  · cases summed

omit expands in
theorem set_followed (frame : Frame) (target value : Nat) (positive : value ≠ 0)
    (followed : Followed kidsOf top memo frame) : Followed kidsOf top (memo.set target value) frame :=
  ⟨followed.kids, followed.filled, followed.reach,
    fun kid member => set_nonzero memo target positive (followed.done kid member)⟩

omit expands in
theorem advance_followed (kidAt : frame.kids[frame.next]? = some kid)
    (sized : memo[kid]? ≠ some 0) (followed : Followed kidsOf top memo frame) :
    Followed kidsOf top memo { frame with next := frame.next + 1 } := by
  refine ⟨followed.kids, followed.filled, followed.reach, fun earlier member => ?_⟩
  simp only [List.take_add_one, kidAt] at member
  rcases List.mem_append.mp member with before | last
  · exact followed.done earlier before
  · obtain rfl : earlier = kid := by simpa using last
    exact sized

omit expands in
theorem read_more {refsRead : Nat} {grandkids : List Nat} {value : Nat} (positive : value ≠ 0)
    (unseen : memo[kid]? = some 0) (reach : Relation.ReflTransGen (Refers kidsOf) top kid) (read : kidsOf kid = some grandkids)
    (seen : ∃ seen : List Nat, seen.Nodup ∧ (∀ object ∈ seen, memo[object]? ≠ some 0 ∧
      Relation.ReflTransGen (Refers kidsOf) top object) ∧ refsRead ≤ (seen.map (degree kidsOf)).sum) :
    ∃ seen : List Nat, seen.Nodup ∧ (∀ object ∈ seen, (memo.set kid value)[object]? ≠ some 0 ∧
      Relation.ReflTransGen (Refers kidsOf) top object) ∧
        saturatingAdd refsRead grandkids.length ≤ (seen.map (degree kidsOf)).sum := by
  obtain ⟨seen, distinct, met, bound⟩ := seen
  have inside := (List.getElem?_eq_some_iff.mp unseen).1
  refine ⟨kid :: seen, List.nodup_cons.mpr ⟨fun member => (met kid member).1 unseen, distinct⟩, ?_, ?_⟩
  · intro object member
    rcases List.mem_cons.mp member with rfl | earlier
    · exact ⟨by rw [List.getElem?_set_self inside]; exact fun zero => positive (Option.some.inj zero), reach⟩
    · exact ⟨set_nonzero memo kid positive (met object earlier).1, (met object earlier).2⟩
  · have own : degree kidsOf kid = grandkids.length := by rw [degree, read, Option.getD_some]
    rw [List.map_cons, List.sum_cons, own, saturatingAdd]
    omega

section Fits

variable (fits : cap < maxU64 ∨ size ≤ maxU64) (word : cap ≤ maxU64)

include fits word

omit expands in
theorem small_exact (own sum : Nat) (bound : own ≤ size) (same : sum = min own maxU64) (small : min sum (saturatingAdd cap 1) ≤ cap) :
    min sum (saturatingAdd cap 1) = own := by
  rw [saturatingAdd] at small ⊢
  omega

omit expands fits word in
theorem large_exact (own sum : Nat) (same : sum = min own maxU64) (large : cap < min sum (saturatingAdd cap 1)) : cap < own := by
  omega

variable (state : State)

theorem goes_exact (after : State) (exact_ : Exact kidsOf cap top objects state) (goes : Goes kidsOf cap state after) : Exact kidsOf cap top objects after := by
  have whole := exact_
  obtain ⟨length, memo, frames, chain, root, seen⟩ := exact_
  cases goes with
  | skip memoOf refsRead frame rest kid known kidAt sized closed known_ =>
      obtain ⟨frameOk, restOk⟩ := List.forall_mem_cons.mp frames
      have advanced := advance_followed kidsOf top memoOf kidAt (by rw [sized]; simpa using known_) frameOk
      exact ⟨length, memo, List.forall_mem_cons.mpr ⟨advanced, restOk⟩, chain, root, seen⟩
  | scalar memoOf refsRead frame rest kid kidAt unseen empty =>
      obtain ⟨frameOk, restOk⟩ := List.forall_mem_cons.mp frames
      obtain ⟨below, _⟩ := kid_not_open kidsOf cap top objects size expands _ whole rfl (List.mem_of_getElem? kidAt)
      have single : Expands kidsOf kid 1 := ⟨[], 0, empty, .nil, rfl⟩
      have inside := (List.getElem?_eq_some_iff.mp unseen).1
      have advanced := advance_followed kidsOf top _ kidAt (by simp [List.getElem?_set_self inside])
        (set_followed kidsOf top memoOf frame kid 1 (by decide) frameOk)
      exact ⟨by simpa using length,
        memo_set kidsOf cap memoOf _ _ kid 1 memo (.inr (.inr ⟨Nat.le_max_right cap 1, single⟩)) fun _ member _ => member,
        List.forall_mem_cons.mpr ⟨advanced, fun other member => set_followed kidsOf top memoOf other kid 1 (by decide) (restOk other member)⟩,
        chain, set_nonzero memoOf kid (by decide) root,
        read_more kidsOf top memoOf (by decide) unseen below.to_reflTransGen empty seen⟩
  | descend memoOf refsRead frame rest kid grandkids kidAt unseen read nonempty =>
      obtain ⟨frameOk, restOk⟩ := List.forall_mem_cons.mp frames
      obtain ⟨below, _⟩ := kid_not_open kidsOf cap top objects size expands _ whole rfl (List.mem_of_getElem? kidAt)
      have edge : Refers kidsOf frame.object kid := ⟨frame.kids, frameOk.kids, List.mem_of_getElem? kidAt⟩
      have inside := (List.getElem?_eq_some_iff.mp unseen).1
      have positive : opened ≠ 0 := by decide
      have advanced := advance_followed kidsOf top _ kidAt (by simpa [List.getElem?_set_self inside] using positive)
        (set_followed kidsOf top memoOf frame kid opened positive frameOk)
      refine ⟨by simpa using length, ?_, ?_, ?_, set_nonzero memoOf kid positive root,
        read_more kidsOf top memoOf positive unseen below.to_reflTransGen read seen⟩
      · exact memo_set kidsOf cap memoOf _ _ kid opened memo (.inr (.inl ⟨rfl, List.mem_cons_self⟩)) fun other member _ =>
          List.mem_cons_of_mem _ member
      · exact List.forall_mem_cons.mpr ⟨⟨read, nonempty, below.to_reflTransGen, by simp⟩, List.forall_mem_cons.mpr
          ⟨advanced, fun other member => set_followed kidsOf top memoOf other kid opened positive (restOk other member)⟩⟩
      · refine List.pairwise_cons.mpr ⟨?_, chain⟩
        intro lower member
        rcases List.mem_cons.mp member with rfl | under
        · exact .single edge
        · exact ((List.pairwise_cons.mp chain).1 lower under).tail edge
  | close memoOf refsRead frame rest sum finished summed small =>
      obtain ⟨frameOk, restOk⟩ := List.forall_mem_cons.mp frames
      obtain ⟨own, found, bound, same⟩ := total_exact kidsOf cap top objects size expands _ whole rfl finished summed
      have exactly := small_exact cap size fits word own sum bound same small
      rw [exactly] at small ⊢
      have positive : own ≠ 0 := by
        obtain ⟨kids, inner, _, _, rfl⟩ := found
        have more := own_values_positive kids
        omega
      refine ⟨by simpa using length, ?_, ?_, (List.pairwise_cons.mp chain).2, set_nonzero memoOf _ positive root, ?_⟩
      · refine memo_set kidsOf cap memoOf _ _ frame.object own memo (.inr (.inr ⟨Nat.le_trans small (Nat.le_max_left cap 1), found⟩)) ?_
        intro other member different
        rcases List.mem_cons.mp member with equal | under
        · exact absurd equal different
        · exact under
      · exact fun other member => set_followed kidsOf top memoOf other frame.object own positive (restOk other member)
      · obtain ⟨seen, distinct, met, bound⟩ := seen
        exact ⟨seen, distinct, fun object member => ⟨set_nonzero memoOf _ positive (met object member).1, (met object member).2⟩,
          bound⟩

structure Answers (expanded : Option Nat) : Prop where
  answer : ∃ len, expanded = some len ∧ (cap < len ↔ cap < size) ∧ (size ≤ cap → len = size)

omit expands fits word in
theorem answers_past (len : Nat) (large : cap < len) (past : cap < size) : Answers cap size (some len) :=
  ⟨len, rfl, ⟨fun _ => past, fun _ => large⟩, fun within => absurd past (Nat.not_lt.mpr within)⟩

omit fits word in
theorem past_exact (exact_ : Exact kidsOf cap top objects state) (len : Nat) (large : cap < len)
    (turn : step kidsOf cap top state = .done (some len)) : cap < size ∨ state.stack = [] := by
  rcases state with ⟨memoOf, refsRead, _ | ⟨frame, rest⟩⟩
  · exact .inr rfl
  left
  have read := read_below kidsOf cap top objects size expands _ exact_
  by_cases many : refsRead > cap
  · exact Nat.lt_trans many read
  · simp only [step, if_neg many] at turn
    cases kidAt : frame.kids[frame.next]? with
    | some kid =>
        simp only [kidAt] at turn
        cases sized : memoOf[kid]? with
        | none =>
            rw [sized] at turn
            cases turn
        | some known =>
            simp only [sized] at turn
            by_cases within : known = opened
            · rw [if_pos within] at turn
              cases turn
            · rw [if_neg within] at turn
              by_cases unseen : known = 0
              · rw [if_pos unseen, visit] at turn
                cases read : kidsOf kid with
                | none =>
                    rw [read] at turn
                    cases turn
                | some grandkids =>
                    simp only [read] at turn
                    split at turn <;> cases turn
              · rw [if_neg unseen] at turn
                cases turn
    | none =>
        simp only [kidAt, close] at turn
        cases summed : total memoOf frame.kids with
        | none =>
            rw [summed] at turn
            cases turn
        | some sum =>
            simp only [summed] at turn
            obtain ⟨own, found, bound, same⟩ := total_exact kidsOf cap top objects size expands _ exact_ rfl
              (List.getElem?_eq_none_iff.mp kidAt) summed
            by_cases past : min sum (saturatingAdd cap 1) > cap
            · exact Nat.lt_of_lt_of_le (large_exact cap own sum same past) bound
            · rw [if_neg past] at turn
              cases turn

variable (inTable : ∀ object, Relation.ReflTransGen (Refers kidsOf) top object → object < objects)

include inTable

omit word in
theorem ends_exact (exact_ : Exact kidsOf cap top objects state) (expanded : Option Nat)
    (turn : step kidsOf cap top state = .done expanded) : Answers cap size expanded := by
  have whole := exact_
  obtain ⟨length, memo, frames, chain, root, seen⟩ := exact_
  have sized : ∀ object, Relation.ReflTransGen (Refers kidsOf) top object → ∃ known, state.size[object]? = some known :=
    fun object reach => ⟨_, List.getElem?_eq_getElem (by rw [length]; exact inTable object reach)⟩
  have finished : state.stack = [] → expanded = state.size[top]? → Answers cap size expanded := by
    rintro none_ rfl
    obtain ⟨known, found⟩ := sized top .refl
    rcases memo top known found with unseen | ⟨_, isOpen⟩ | ⟨_, exactly⟩
    · exact absurd (by rw [found, unseen]) root
    · rw [none_] at isOpen
      exact absurd isOpen List.not_mem_nil
    · have same := Weighing.weighs_unique kidsOf ownValues exactly expands
      rw [found, same]
      exact ⟨size, rfl, Iff.rfl, fun _ => rfl⟩
  cases step_done kidsOf cap top state expanded turn with
  | finished memoOf refsRead => exact finished rfl rfl
  | past _ len large =>
      rcases past_exact kidsOf cap top objects size expands state whole len large turn with past | none_
      · exact answers_past cap size len large past
      · refine finished none_ ?_
        rw [step, none_] at turn
        exact (Turn.done.inj turn).symm
  | outside memoOf refsRead frame rest kid kidAt absent =>
      obtain ⟨below, _⟩ := kid_not_open kidsOf cap top objects size expands _ whole rfl (List.mem_of_getElem? kidAt)
      obtain ⟨known, found⟩ := sized kid below.to_reflTransGen
      cases found.symm.trans absent
  | cycle memoOf refsRead frame rest kid kidAt within =>
      obtain ⟨below, closed⟩ := kid_not_open kidsOf cap top objects size expands _ whole rfl (List.mem_of_getElem? kidAt)
      obtain ⟨own, found, smaller⟩ := below_top kidsOf top size expands below
      rcases memo kid opened within with unseen | ⟨_, isOpen⟩ | ⟨limit, exactly⟩
      · exact absurd unseen (by decide)
      · exact absurd isOpen closed
      · have same := Weighing.weighs_unique kidsOf ownValues found exactly
        rw [opened] at same limit
        have big : 1 < maxU64 := by decide
        omega
  | unreadable memoOf refsRead frame rest kid kidAt unread =>
      obtain ⟨below, _⟩ := kid_not_open kidsOf cap top objects size expands _ whole rfl (List.mem_of_getElem? kidAt)
      obtain ⟨_, ⟨kids, _, read, _⟩, _⟩ := below_top kidsOf top size expands below
      cases read.symm.trans unread
  | unsized memoOf refsRead frame rest unsummed =>
      rw [total_eq] at unsummed
      split at unsummed
      · cases unsummed
      · next outside =>
          refine absurd (fun kid member => ?_) outside
          obtain ⟨below, _⟩ := kid_not_open kidsOf cap top objects size expands _ whole rfl member
          obtain ⟨known, found⟩ := sized kid below.to_reflTransGen
          exact (List.getElem?_eq_some_iff.mp found).1

theorem walk_exact (exact_ : Exact kidsOf cap top objects state) : Answers cap size (walk kidsOf cap top state) := by
  induction state using walk.induct kidsOf cap top with
  | case1 state expanded turn =>
      rw [walk, turn]
      exact ends_exact kidsOf cap top objects size expands fits inTable state exact_ expanded turn
  | case2 state after turn ih =>
      rw [walk, turn]
      exact ih (goes_exact kidsOf cap top objects size expands fits word state after exact_ (step_next kidsOf cap top state turn))

end Fits

end Walk

open Bytes (saturatingAdd maxU64)

open Unfolding (Refers)

variable (bytes : List UInt8) (table : Trailer) (kidsOf : Nat → Option (List Nat)) (cap : Nat)

variable {kids : List Nat}

theorem children_inside {object : Nat}
    (read : children bytes table object = some kids) : ∀ kid ∈ kids, kid < table.objects := by
  rw [children, references_accepts] at read
  obtain ⟨found, _, accepted⟩ := Option.bind_eq_some_iff.mp read
  split at accepted
  · next inside =>
      obtain rfl := Option.some.inj accepted
      exact fun kid member => of_decide_eq_true (List.all_eq_true.mp inside kid member)
  · cases accepted

-- A plist whose object table can be read from the top object on and leads nowhere back, the top object a collection.
structure Sound (bytes : List UInt8) (table : Trailer) : Prop where
  opened : trailer bytes = some table
  inside : table.top < table.objects
  filled : children bytes table table.top ≠ some []
  readable : ∀ object, Relation.ReflTransGen (Refers (children bytes table)) table.top object →
    ∃ kids, children bytes table object = some kids
  acyclic : ∀ object, Relation.ReflTransGen (Refers (children bytes table)) table.top object →
    ¬ Relation.TransGen (Refers (children bytes table)) object object

theorem reached_inside (inside : table.top < table.objects) (object : Nat)
    (reach : Relation.ReflTransGen (Refers (children bytes table)) table.top object) : object < table.objects := by
  induction reach with
  | refl => exact inside
  | tail _ edge _ =>
      obtain ⟨kids, read, member⟩ := edge
      exact children_inside bytes table read _ member

theorem sound_expands (sound : Sound bytes table) : ∃ size, Expands (children bytes table) table.top size :=
  Weighing.weighs_exists (children bytes table) ownValues (List.range table.objects) table.top sound.readable sound.acyclic
    (fun object reach => List.mem_range.mpr (reached_inside bytes table sound.inside object reach)) table.objects [] table.top .refl
    List.nodup_nil (fun earlier member => absurd member List.not_mem_nil) (by rw [List.length_range]; exact Nat.le_add_left _ _)

def opening (table : Trailer) (kids : List Nat) : State :=
  ⟨(List.replicate table.objects 0).set table.top opened, kids.length, [⟨table.top, kids, 0⟩]⟩

theorem opening_exact (table : Trailer) (kids : List Nat)
    (read : kidsOf table.top = some kids) (filled : kids ≠ []) (inside : table.top < table.objects) :
    Exact kidsOf cap table.top table.objects (opening table kids) := by
  have root : ((List.replicate table.objects 0).set table.top opened)[table.top]? ≠ some 0 := by
    rw [List.getElem?_set_self (by simpa using inside)]
    decide
  refine ⟨by simp [opening], ?_, ?_, List.pairwise_singleton _ _, root, [table.top], List.nodup_singleton _, ?_, ?_⟩
  · refine memo_set kidsOf cap (List.replicate table.objects 0) [] [table.top] table.top opened ?_
      (.inr (.inl ⟨rfl, List.mem_singleton_self table.top⟩)) (by simp)
    intro object known sized
    rw [List.getElem?_replicate] at sized
    split at sized
    · exact .inl (Option.some.inj sized).symm
    · cases sized
  · intro frame member
    obtain rfl := List.mem_singleton.mp member
    exact ⟨read, filled, .refl, by simp⟩
  · intro object member
    obtain rfl := List.mem_singleton.mp member
    exact ⟨root, .refl⟩
  · simp [Weighing.degree, read, opening]

def Passes (kidsOf : Nat → Option (List Nat)) (cap top : Nat) (start state : State) : Prop :=
  Relation.ReflTransGen (fun before after => step kidsOf cap top before = .next after) start state

theorem next_within (top : Nat) (state after : State)
    (turn : step kidsOf cap top state = .next after) : state.refsRead ≤ cap := by
  rcases state with ⟨memoOf, refsRead, _ | ⟨frame, rest⟩⟩
  · cases turn
  · by_contra many
    rw [step] at turn
    simp only [if_pos (Nat.lt_of_not_le many)] at turn
    cases turn

theorem passes_reads {top : Nat} {start state : State} (object : Nat)
    (read : kidsOf object = some kids) (first : start.refsRead = kids.length) (passes : Passes kidsOf cap top start state) :
    ∃ object kids, kidsOf object = some kids ∧ state.refsRead ≤ cap + kids.length := by
  cases passes with
  | refl => exact ⟨object, kids, read, by omega⟩
  | tail _ turn =>
      have within := next_within kidsOf cap top _ state turn
      cases step_next kidsOf cap top _ turn with
      | skip memoOf refsRead frame rest kid known kidAt sized closed seen => exact ⟨object, kids, read, Nat.le_add_right_of_le within⟩
      | scalar memoOf refsRead frame rest kid kidAt unseen empty =>
          exact ⟨kid, [], empty, Nat.le_trans (Nat.min_le_left _ _) (Nat.add_le_add_right within _)⟩
      | descend memoOf refsRead frame rest kid grandkids kidAt unseen more nonempty =>
          exact ⟨kid, grandkids, more, Nat.le_trans (Nat.min_le_left _ _) (Nat.add_le_add_right within _)⟩
      | close memoOf refsRead frame rest sum finished summed small => exact ⟨object, kids, read, Nat.le_add_right_of_le within⟩

-- The guard's measure is the size of the expansion up to the cap, and past the cap exactly where the expansion is.
theorem bplist_expanded_len_exact (bytes : List UInt8) (table : Trailer) (sound : Sound bytes table) (cap : Nat)
    (word : cap ≤ maxU64) :
    ∃ size kids, Expands (children bytes table) table.top size ∧ children bytes table table.top = some kids ∧
      (cap < maxU64 ∨ size ≤ maxU64 → Answers cap size (expandedLen bytes cap)) ∧
      ∀ state, Passes (children bytes table) cap table.top (opening table kids) state →
        ∃ object kids, children bytes table object = some kids ∧ state.refsRead ≤ cap + kids.length := by
  obtain ⟨size, expands⟩ := sound_expands bytes table sound
  obtain ⟨kids, read⟩ := sound.readable table.top .refl
  have filled : kids ≠ [] := by
    rintro rfl
    exact sound.filled read
  refine ⟨size, kids, expands, read, fun fits => ?_, fun state passes => ?_⟩
  · have answers := walk_exact (children bytes table) cap table.top table.objects size expands fits word
      (reached_inside bytes table sound.inside) (opening table kids)
      (opening_exact (children bytes table) cap table kids read filled sound.inside)
    have same : expandedLen bytes cap = walk (children bytes table) cap table.top (opening table kids) := by
      simp only [expandedLen, sound.opened, Option.bind_eq_bind, Option.bind_some, read, if_pos sound.inside]
      rfl
    rw [same]
    exact answers
  · exact passes_reads (children bytes table) cap table.top read rfl passes

theorem sound_of_forward (opened : trailer bytes = some table)
    (inside : table.top < table.objects) (filled : children bytes table table.top ≠ some [])
    (forward : ∀ object < table.objects, ∃ kids, children bytes table object = some kids ∧ ∀ kid ∈ kids, object < kid) :
    Sound bytes table := by
  refine ⟨opened, inside, filled, ?_, ?_⟩
  · intro object reach
    obtain ⟨kids, read, _⟩ := forward object (reached_inside bytes table inside object reach)
    exact ⟨kids, read⟩
  · intro object reach cycle
    have later : ∀ next, Relation.TransGen (Refers (children bytes table)) object next → object < next ∧ next < table.objects := by
      intro next way
      induction way with
      | single edge =>
          obtain ⟨kids, read, member⟩ := edge
          obtain ⟨kids', read', ahead⟩ := forward object (reached_inside bytes table inside object reach)
          obtain rfl := Option.some.inj (read.symm.trans read')
          exact ⟨ahead _ member, children_inside bytes table read _ member⟩
      | tail _ edge ih =>
          obtain ⟨kids, read, member⟩ := edge
          obtain ⟨kids', read', ahead⟩ := forward _ ih.2
          obtain rfl := Option.some.inj (read.symm.trans read')
          exact ⟨Nat.lt_trans ih.1 (ahead _ member), children_inside bytes table read _ member⟩
    exact absurd (later object cycle).1 (Nat.lt_irrefl object)

theorem bplist_expanded_len_exact_shared : ∃ size kids, Expands (children sharedPair ⟨1, 1, 2, 0, 13⟩) 0 size ∧
    children sharedPair ⟨1, 1, 2, 0, 13⟩ 0 = some kids ∧ Answers 100 size (expandedLen sharedPair 100) := by
  have sound : Sound sharedPair ⟨1, 1, 2, 0, 13⟩ := by
    refine sound_of_forward _ _ (by decide +kernel) (by decide) (by decide +kernel) fun object below => ?_
    have cases_ : object = 0 ∨ object = 1 := by
      change object < 2 at below
      omega
    rcases cases_ with rfl | rfl
    · exact ⟨[1, 1], by decide +kernel, by decide⟩
    · exact ⟨[], by decide +kernel, by decide⟩
  obtain ⟨size, kids, expands, read, answers, _⟩ := bplist_expanded_len_exact sharedPair ⟨1, 1, 2, 0, 13⟩ sound 100 (by decide)
  exact ⟨size, kids, expands, read, answers (.inl (by decide))⟩

-- Sixty-four arrays, each of two references to the next one.
def doubling : List UInt8 := plistOf ((List.range 64).map (fun level => [0xA2, UInt8.ofNat (level + 1), UInt8.ofNat (level + 1)]) ++ [[0x10, 0]])

def doublingTable : Trailer := ⟨1, 1, 65, 0, 202⟩

theorem doubling_children : trailer doubling = some doublingTable ∧ ∀ object < 65,
    children doubling doublingTable object = some (if object < 64 then [object + 1, object + 1] else []) := by
  decide +kernel

-- With the greatest of all caps the expansion of a sound plist is taken for a cycle.
theorem greatest_cap_unanswered : Sound doubling doublingTable ∧ expandedLen doubling maxU64 = none := by
  obtain ⟨opened, read⟩ := doubling_children
  refine ⟨?_, ?_⟩
  · refine sound_of_forward _ _ opened (by decide) (by rw [show doublingTable.top = 0 from rfl, read 0 (by decide)]; decide) fun object below => ?_
    refine ⟨_, read object below, fun kid member => ?_⟩
    split at member
    · simp only [List.mem_cons, List.not_mem_nil, or_false, or_self] at member
      omega
    · exact absurd member List.not_mem_nil
  · exact expanded_len_run doubling maxU64 400 doublingTable [1, 1] none opened (read 0 (by decide)) (by decide) (by decide +kernel)

end Filefacts.Plist
