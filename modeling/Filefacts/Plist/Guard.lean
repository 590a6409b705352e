import Mathlib.Data.List.Basic
import Filefacts.Bytes
import Mathlib.Algebra.Order.BigOperators.Group.List
import Mathlib.Algebra.Order.Group.Nat
import Filefacts.Lib.Unfolding

set_option autoImplicit false

namespace Filefacts.Plist

open Bytes (checkedAdd checkedMul saturatingAdd saturatingMul maxU64)

def extraValues : Nat := 4096

def beUint (bytes : List UInt8) (start width : Nat) : Option Nat := do
  let stop ← checkedAdd start width
  let field ← Bytes.get bytes start stop
  if width ≤ 8 then some (BigEndian.value field) else none

structure Trailer where
  offsetWidth : Nat
  refWidth : Nat
  objects : Nat
  top : Nat
  table : Nat
deriving DecidableEq, Repr

def trailer (bytes : List UInt8) : Option Trailer := do
  let start ← Bytes.checkedSub bytes.length 32
  let offsetWidth ← Bytes.u8 bytes (start + 6)
  let refWidth ← Bytes.u8 bytes (start + 7)
  let objects ← Bytes.u64be bytes (start + 8)
  let top ← Bytes.u64be bytes (start + 16)
  let table ← Bytes.u64be bytes (start + 24)
  if ¬(1 ≤ offsetWidth ∧ offsetWidth ≤ 8) ∨ ¬(1 ≤ refWidth ∧ refWidth ≤ 8) ∨ objects > bytes.length then none
  else some { offsetWidth, refWidth, objects, top, table }

def refsPerEntry (marker : UInt8) : Option Nat :=
  let kind := (marker >>> 4).toNat
  if 0xA ≤ kind ∧ kind ≤ 0xC then some 1
  else if kind = 0xD then some 2
  else none

-- The count in a collection's marker, or in the int object after it, and where
-- the references start.
def entryCount (bytes : List UInt8) (start : Nat) (marker : UInt8) : Option (Nat × Nat) :=
  let low := (marker &&& 0x0F).toNat
  if low = 0x0F then do
    let intMarker ← bytes[start + 1]?
    if (intMarker >>> 4).toNat ≠ 0x1 then none
    else
      let width := 1 <<< (intMarker &&& 0x0F).toNat
      let count ← beUint bytes (start + 2) width
      some (count, start + 2 + width)
  else some (low, start + 1)

def collection (bytes : List UInt8) (trailer : Trailer) (object : Nat) : Option (Nat × Nat) := do
  let offset ← checkedMul object trailer.offsetWidth
  let entry ← checkedAdd trailer.table offset
  let start ← beUint bytes entry trailer.offsetWidth
  let marker ← bytes[start]?
  match refsPerEntry marker with
  | none => some (0, start)
  | some perEntry =>
      let (count, refsAt) ← entryCount bytes start marker
      let refs ← checkedMul count perEntry
      let span ← checkedMul refs trailer.refWidth
      if span > bytes.length then none else some (refs, refsAt)

def reference (bytes : List UInt8) (trailer : Trailer) (refsAt index : Nat) : Option Nat :=
  (checkedAdd refsAt (index * trailer.refWidth)).bind fun position => beUint bytes position trailer.refWidth

def references (accepts : Nat → Bool) (bytes : List UInt8) (trailer : Trailer) (object : Nat) : Option (List Nat) :=
  (collection bytes trailer object).bind fun (refs, refsAt) =>
    (List.range refs).mapM fun index =>
      (reference bytes trailer refsAt index).bind fun child => if accepts child then some child else none

def children (bytes : List UInt8) (trailer : Trailer) : Nat → Option (List Nat) :=
  references (fun child => decide (child < trailer.objects)) bytes trailer

-- A collection the walk is inside: its references, and how many were followed.
structure Frame where
  object : Nat
  kids : List Nat
  next : Nat
deriving DecidableEq, Repr

structure State where
  size : List Nat
  refsRead : Nat
  stack : List Frame
deriving DecidableEq, Repr

-- A size no finished object has: the walk is still inside this one.
def opened : Nat := maxU64

inductive Turn where
  | done (expanded : Option Nat)
  | next (state : State)
deriving DecidableEq, Repr

def visit (kidsOf : Nat → Option (List Nat)) (state : State) (kid : Nat) : Turn :=
  match kidsOf kid with
  | none => .done none
  | some grandkids =>
      let refsRead := saturatingAdd state.refsRead grandkids.length
      if grandkids.isEmpty then .next { state with size := state.size.set kid 1, refsRead }
      else .next { size := state.size.set kid opened, refsRead, stack := ⟨kid, grandkids, 0⟩ :: state.stack }

def total (size : List Nat) (kids : List Nat) : Option Nat :=
  kids.foldlM (fun total kid => size[kid]?.map (saturatingAdd total)) 2

def close (cap : Nat) (state : State) (frame : Frame) (rest : List Frame) : Turn :=
  match total state.size frame.kids with
  | none => .done none
  | some total =>
      let capped := min total (saturatingAdd cap 1)
      if capped > cap then .done (some capped)
      else .next { state with size := state.size.set frame.object capped, stack := rest }

-- One turn of the walk's loop, over any way of reading an object's references.
def step (kidsOf : Nat → Option (List Nat)) (cap top : Nat) (state : State) : Turn :=
  match state.stack with
  | [] => .done state.size[top]?
  | frame :: rest =>
      if state.refsRead > cap then .done (some state.refsRead)
      else
        match frame.kids[frame.next]? with
        | some kid =>
            let state := { state with stack := { frame with next := frame.next + 1 } :: rest }
            match state.size[kid]? with
            | none => .done none
            | some size =>
                if size = opened then .done none
                else if size = 0 then visit kidsOf state kid
                else .next state
        | none => close cap state frame rest

inductive Goes (kidsOf : Nat → Option (List Nat)) (cap : Nat) : State → State → Prop where
  | skip (size : List Nat) (refsRead : Nat) (frame : Frame) (rest : List Frame) (kid known : Nat)
      (kidAt : frame.kids[frame.next]? = some kid) (sized : size[kid]? = some known) (closed : known ≠ opened) (seen : known ≠ 0) :
      Goes kidsOf cap ⟨size, refsRead, frame :: rest⟩ ⟨size, refsRead, { frame with next := frame.next + 1 } :: rest⟩
  | scalar (size : List Nat) (refsRead : Nat) (frame : Frame) (rest : List Frame) (kid : Nat)
      (kidAt : frame.kids[frame.next]? = some kid) (unseen : size[kid]? = some 0) (empty : kidsOf kid = some []) :
      Goes kidsOf cap ⟨size, refsRead, frame :: rest⟩
        ⟨size.set kid 1, saturatingAdd refsRead 0, { frame with next := frame.next + 1 } :: rest⟩
  | descend (size : List Nat) (refsRead : Nat) (frame : Frame) (rest : List Frame) (kid : Nat) (grandkids : List Nat)
      (kidAt : frame.kids[frame.next]? = some kid) (unseen : size[kid]? = some 0) (read : kidsOf kid = some grandkids)
      (nonempty : grandkids ≠ []) :
      Goes kidsOf cap ⟨size, refsRead, frame :: rest⟩ ⟨size.set kid opened, saturatingAdd refsRead grandkids.length,
        ⟨kid, grandkids, 0⟩ :: { frame with next := frame.next + 1 } :: rest⟩
  | close (size : List Nat) (refsRead : Nat) (frame : Frame) (rest : List Frame) (sum : Nat)
      (finished : frame.kids.length ≤ frame.next) (summed : total size frame.kids = some sum)
      (small : min sum (saturatingAdd cap 1) ≤ cap) :
      Goes kidsOf cap ⟨size, refsRead, frame :: rest⟩
        ⟨size.set frame.object (min sum (saturatingAdd cap 1)), refsRead, rest⟩

inductive Ends (kidsOf : Nat → Option (List Nat)) (cap top : Nat) : State → Option Nat → Prop where
  | finished (size : List Nat) (refsRead : Nat) : Ends kidsOf cap top ⟨size, refsRead, []⟩ size[top]?
  | past (state : State) (expanded : Nat) (large : cap < expanded) : Ends kidsOf cap top state (some expanded)
  | outside (size : List Nat) (refsRead : Nat) (frame : Frame) (rest : List Frame) (kid : Nat)
      (kidAt : frame.kids[frame.next]? = some kid) (absent : size[kid]? = none) :
      Ends kidsOf cap top ⟨size, refsRead, frame :: rest⟩ none
  | cycle (size : List Nat) (refsRead : Nat) (frame : Frame) (rest : List Frame) (kid : Nat)
      (kidAt : frame.kids[frame.next]? = some kid) (within : size[kid]? = some opened) :
      Ends kidsOf cap top ⟨size, refsRead, frame :: rest⟩ none
  | unreadable (size : List Nat) (refsRead : Nat) (frame : Frame) (rest : List Frame) (kid : Nat)
      (kidAt : frame.kids[frame.next]? = some kid) (unread : kidsOf kid = none) :
      Ends kidsOf cap top ⟨size, refsRead, frame :: rest⟩ none
  | unsized (size : List Nat) (refsRead : Nat) (frame : Frame) (rest : List Frame)
      (unsummed : total size frame.kids = none) : Ends kidsOf cap top ⟨size, refsRead, frame :: rest⟩ none

variable (kidsOf : Nat → Option (List Nat)) (cap top : Nat) (state : State) (size kids : List Nat)

theorem step_cases : (∃ after, step kidsOf cap top state = .next after ∧ Goes kidsOf cap state after) ∨
      ∃ expanded, step kidsOf cap top state = .done expanded ∧ Ends kidsOf cap top state expanded := by
  rcases state with ⟨size, refsRead, _ | ⟨frame, rest⟩⟩
  · exact .inr ⟨_, rfl, .finished size refsRead⟩
  · by_cases many : refsRead > cap
    · exact .inr ⟨_, by simp only [step, if_pos many], .past _ refsRead many⟩
    · cases kidAt : frame.kids[frame.next]? with
      | none =>
          cases summed : total size frame.kids with
          | none => exact .inr ⟨_, by simp only [step, if_neg many, kidAt, close, summed], .unsized size refsRead frame rest summed⟩
          | some sum =>
              by_cases large : min sum (saturatingAdd cap 1) > cap
              · exact .inr ⟨_, by simp only [step, if_neg many, kidAt, close, summed, if_pos large], .past _ _ large⟩
              · exact .inl ⟨_, by simp only [step, if_neg many, kidAt, close, summed, if_neg large],
                  .close size refsRead frame rest sum (List.getElem?_eq_none_iff.mp kidAt) summed (by omega)⟩
      | some kid =>
          cases sized : size[kid]? with
          | none => exact .inr ⟨_, by simp only [step, if_neg many, kidAt, sized], .outside size refsRead frame rest kid kidAt sized⟩
          | some known =>
              by_cases within : known = opened
              · subst within
                exact .inr ⟨_, by simp only [step, if_neg many, kidAt, sized, if_pos], .cycle size refsRead frame rest kid kidAt sized⟩
              · by_cases unseen : known = 0
                · subst unseen
                  cases read : kidsOf kid with
                  | none => exact .inr ⟨_, by simp only [step, if_neg many, kidAt, sized, if_neg within, if_pos, visit, read],
                      .unreadable size refsRead frame rest kid kidAt read⟩
                  | some grandkids =>
                      cases grandkids with
                      | nil => exact .inl ⟨_, by simp only [step, if_neg many, kidAt, sized, if_neg within, if_pos, visit, read,
                          List.isEmpty_nil, List.length_nil], .scalar size refsRead frame rest kid kidAt sized read⟩
                      | cons first others => exact .inl ⟨_, by simp only [step, if_neg many, kidAt, sized, if_neg within, if_pos, visit,
                          read, List.isEmpty_cons, Bool.false_eq_true, if_false],
                          .descend size refsRead frame rest kid (first :: others) kidAt sized read (by simp)⟩
                · exact .inl ⟨_, by simp only [step, if_neg many, kidAt, sized, if_neg within, if_neg unseen],
                    .skip size refsRead frame rest kid known kidAt sized within unseen⟩

theorem sum_sizes (start : Nat) : kids.foldlM (fun sum kid => size[kid]?.map (saturatingAdd sum)) start =
      if ∀ kid ∈ kids, kid < size.length then some (kids.foldl (fun sum kid => saturatingAdd sum (size[kid]?.getD 0)) start) else none := by
  induction kids generalizing start with
  | nil => simp
  | cons kid kids ih =>
      by_cases inside : kid < size.length
      · simp [List.foldlM_cons, ih, inside]
      · simp [List.foldlM_cons, inside]

theorem saturating_sum (sizeOf : Nat → Nat) (start : Nat) (bounded : start ≤ maxU64) :
    kids.foldl (fun sum kid => saturatingAdd sum (sizeOf kid)) start = min (start + (kids.map sizeOf).sum) maxU64 := by
  induction kids generalizing start with
  | nil => simp [Nat.min_eq_left bounded]
  | cons kid kids ih =>
      rw [List.foldl_cons, ih _ (by unfold saturatingAdd; omega)]
      simp only [saturatingAdd, List.map_cons, List.sum_cons]
      omega

theorem total_eq : total size kids = if ∀ kid ∈ kids, kid < size.length then
      some (min (2 + (kids.map fun kid => size[kid]?.getD 0).sum) maxU64) else none := by
  rw [total, sum_sizes, saturating_sum _ (fun kid => size[kid]?.getD 0) 2 (by decide)]

def weight (stack : List Frame) : Nat := (stack.map fun frame => frame.kids.length - frame.next + 1).sum

theorem goes_decreases (after : State) (goes : Goes kidsOf cap state after) :
    Prod.Lex (· < ·) (· < ·) (after.size.count 0, weight after.stack) (state.size.count 0, weight state.stack) := by
  have fewer : ∀ (size : List Nat) (kid value : Nat), size[kid]? = some 0 → value ≠ 0 →
      (size.set kid value).count 0 < size.count 0 := by
    intro size kid value unseen positive
    obtain ⟨inside, zero⟩ := List.getElem?_eq_some_iff.mp unseen
    have present : 0 < size.count 0 := List.count_pos_iff.mpr (List.mem_of_getElem? unseen)
    rw [List.count_set inside]
    simp only [zero, beq_self_eq_true, if_true, beq_eq_false_iff_ne.mpr positive, Bool.false_eq_true, if_false]
    omega
  cases goes with
  | skip size refsRead frame rest kid known kidAt sized closed seen =>
      have more := (List.getElem?_eq_some_iff.mp kidAt).1
      refine .right _ ?_
      simp only [weight, List.map_cons, List.sum_cons]
      omega
  | scalar size refsRead frame rest kid kidAt unseen empty => exact .left _ _ (fewer size kid 1 unseen (by decide))
  | descend size refsRead frame rest kid grandkids kidAt unseen read nonempty =>
      exact .left _ _ (fewer size kid opened unseen (by decide))
  | close size refsRead frame rest sum finished summed small =>
      have positive : min sum (saturatingAdd cap 1) ≠ 0 := by
        rw [total_eq] at summed
        split at summed
        · obtain rfl := Option.some.inj summed
          simp only [saturatingAdd, maxU64]
          omega
        · cases summed
      have kept : (size.set frame.object (min sum (saturatingAdd cap 1))).count 0 ≤ size.count 0 := by
        by_cases inside : frame.object < size.length
        · rw [List.count_set inside]
          simp only [beq_eq_false_iff_ne.mpr positive, Bool.false_eq_true, if_false]
          omega
        · rw [List.set_eq_of_length_le (Nat.le_of_not_lt inside)]
      rcases Nat.lt_or_eq_of_le kept with less | same
      · exact .left _ _ less
      · simp only [same]
        refine .right _ ?_
        simp only [weight, List.map_cons, List.sum_cons]
        omega

theorem step_next {after : State} (turn : step kidsOf cap top state = .next after) : Goes kidsOf cap state after := by
  rcases step_cases kidsOf cap top state with ⟨other, turned, goes⟩ | ⟨expanded, turned, _⟩
  · obtain rfl := Turn.next.inj (turned.symm.trans turn)
    exact goes
  · cases turned.symm.trans turn

theorem step_done (expanded : Option Nat)
    (turn : step kidsOf cap top state = .done expanded) : Ends kidsOf cap top state expanded := by
  rcases step_cases kidsOf cap top state with ⟨after, turned, _⟩ | ⟨other, turned, ends⟩
  · cases turned.symm.trans turn
  · obtain rfl := Turn.done.inj (turned.symm.trans turn)
    exact ends

def walk (kidsOf : Nat → Option (List Nat)) (cap top : Nat) (state : State) : Option Nat :=
  match _turn : step kidsOf cap top state with
  | .done expanded => expanded
  | .next after => walk kidsOf cap top after
termination_by (state.size.count 0, weight state.stack)
decreasing_by exact goes_decreases kidsOf cap state after (step_next kidsOf cap top state _turn)

def run (kidsOf : Nat → Option (List Nat)) (cap top : Nat) : Nat → State → Turn
  | 0, state => .next state
  | turns + 1, state =>
      match step kidsOf cap top state with
      | .done expanded => .done expanded
      | .next after => run kidsOf cap top turns after

theorem walk_run (turns : Nat) (state : State) (expanded : Option Nat)
    (ran : run kidsOf cap top turns state = .done expanded) : walk kidsOf cap top state = expanded := by
  induction turns generalizing state with
  | zero => cases ran
  | succ turns ih =>
      rw [walk]
      cases turn : step kidsOf cap top state with
      | done result =>
          simp only [run, turn, Turn.done.injEq] at ran ⊢
          exact ran
      | next after =>
          simp only [run, turn] at ran ⊢
          exact ih after ran

def expandedLen (bytes : List UInt8) (cap : Nat) : Option Nat := do
  let trailer ← trailer bytes
  let kidsOf := children bytes trailer
  let topKids ← kidsOf trailer.top
  if trailer.top < trailer.objects then
    walk kidsOf cap trailer.top
      ⟨(List.replicate trailer.objects 0).set trailer.top opened, topKids.length, [⟨trailer.top, topKids, 0⟩]⟩
  else none

def magic : List UInt8 := [0x62, 0x70, 0x6C, 0x69, 0x73, 0x74, 0x30, 0x30]

def expansionCap (bytes : List UInt8) : Nat := saturatingAdd (saturatingMul bytes.length 2) extraValues

def handed (bytes : List UInt8) : Bool :=
  if magic.isPrefixOf bytes then !(expandedLen bytes (expansionCap bytes)).any fun len => decide (len > expansionCap bytes)
  else true

open Bytes (saturatingAdd saturatingMul maxU64)

open Unfolding (Refers Unfolds UnfoldsAll)

theorem set_nonzero (target : Nat) {value object : Nat} (positive : value ≠ 0) (nonzero : size[object]? ≠ some 0) :
    (size.set target value)[object]? ≠ some 0 := by
  rw [List.getElem?_set]
  split
  · split
    · simpa using positive
    · simp
  · exact nonzero

theorem unfolds_all_sum {refs : Nat → Option (List Nat)} (sizeOf : Nat → Nat) {kids : List Nat} {size : Nat}
    (unfolds : UnfoldsAll refs kids size) (sized : ∀ kid ∈ kids, ∃ own, Unfolds refs kid own ∧ own ≤ sizeOf kid) :
    size ≤ (kids.map sizeOf).sum := by
  induction unfolds with
  | nil => simp
  | cons kid children rest inner later read below _ _ ihAfter =>
      have others := ihAfter fun other member => sized other (List.mem_cons_of_mem _ member)
      obtain ⟨own, unfoldsOwn, bound⟩ := sized kid List.mem_cons_self
      have same := Unfolding.unfolds_all_unique refs [kid] own (1 + inner + 0) unfoldsOwn
        (.cons kid children [] inner 0 read below .nil)
      simp only [List.map_cons, List.sum_cons]
      omega

section Bound

-- The guard reads references its own way, and only where the object graph
-- unfolds is it known to read what a reader does.
variable (refs kidsOf : Nat → Option (List Nat)) (cap top objects : Nat)
  (agrees : ∀ object own, Unfolds refs object own → kidsOf object = refs object)
  (inTable : ∀ object own, Unfolds refs object own → object < objects)
  (room : 1 ≤ cap ∧ cap < maxU64)

def Known (opens : List Nat) (object known : Nat) : Prop :=
  known = 0 ∨ (known = opened ∧ object ∈ opens) ∨ (known ≤ cap ∧ ∃ own, Unfolds refs object own ∧ own ≤ known)

structure FrameOk (size : List Nat) (frame : Frame) : Prop where
  read : refs frame.object = some frame.kids
  unfolds : ∃ own, Unfolds refs frame.object own
  followed : ∀ kid ∈ frame.kids.take frame.next, size[kid]? ≠ some 0

-- The stack is a path of references through objects that all unfold.
structure Bounded (state : State) : Prop where
  length : state.size.length = objects
  memo : ∀ object known, state.size[object]? = some known → Known refs cap (state.stack.map Frame.object) object known
  frames : ∀ frame ∈ state.stack, FrameOk refs state.size frame
  chain : (state.stack.map Frame.object).Pairwise fun upper lower => Relation.TransGen (Refers refs) lower upper
  root : state.size[top]? ≠ some 0

variable (size : List Nat) (state : State)

theorem frame_kid {frame : Frame} (ok : FrameOk refs size frame) {kid : Nat} (member : kid ∈ frame.kids) :
    Refers refs frame.object kid ∧ ∃ own, Unfolds refs kid own := by
  obtain ⟨own, unfolds⟩ := ok.unfolds
  have edge : Refers refs frame.object kid := ⟨frame.kids, ok.read, member⟩
  obtain ⟨inner, unfoldsKid, _⟩ := Unfolding.unfolds_child refs unfolds edge
  exact ⟨edge, inner, unfoldsKid⟩

theorem frame_set (frame : Frame) (ok : FrameOk refs size frame) (target value : Nat) (positive : value ≠ 0) :
    FrameOk refs (size.set target value) frame :=
  ⟨ok.read, ok.unfolds, fun kid member => set_nonzero size target positive (ok.followed kid member)⟩

theorem frame_advance {frame : Frame} (ok : FrameOk refs size frame) {kid : Nat}
    (kidAt : frame.kids[frame.next]? = some kid) (sized : size[kid]? ≠ some 0) :
    FrameOk refs size { frame with next := frame.next + 1 } := by
  refine ⟨ok.read, ok.unfolds, ?_⟩
  intro earlier member
  simp only [List.take_add_one, kidAt] at member
  rcases List.mem_append.mp member with before | last
  · exact ok.followed earlier before
  · obtain rfl : earlier = kid := by simpa using last
    exact sized

theorem known_set (opens opens' : List Nat) (target value : Nat)
    (memo : ∀ object known, size[object]? = some known → Known refs cap opens object known)
    (justified : Known refs cap opens' target value) (kept : ∀ object ∈ opens, object ≠ target → object ∈ opens') :
    ∀ object known, (size.set target value)[object]? = some known → Known refs cap opens' object known := by
  intro object known sized
  by_cases same : target = object
  · subst same
    rw [List.getElem?_set_self'] at sized
    obtain ⟨_, _, rfl⟩ := Option.map_eq_some_iff.mp sized
    exact justified
  · rw [List.getElem?_set_ne same] at sized
    rcases memo object known sized with unseen | ⟨isOpen, member⟩ | finished
    · exact .inl unseen
    · exact .inr (.inl ⟨isOpen, kept object member (Ne.symm same)⟩)
    · exact .inr (.inr finished)

theorem total_bounds (opens : List Nat) (memo : ∀ object known, size[object]? = some known → Known refs cap opens object known)
    (frame : Frame) (ok : FrameOk refs size frame) (finished : frame.kids.length ≤ frame.next) (sum : Nat)
    (summed : total size frame.kids = some sum) (small : sum < maxU64) :
    ∃ own, Unfolds refs frame.object own ∧ own ≤ sum := by
  rw [total_eq] at summed
  split at summed
  · next inside =>
      obtain rfl := Option.some.inj summed
      obtain ⟨own, unfolds⟩ := ok.unfolds
      refine ⟨own, unfolds, ?_⟩
      cases unfolds with
      | cons _ children _ inner later read below after =>
          obtain rfl := Option.some.inj (ok.read.symm.trans read)
          cases after
          have kids := unfolds_all_sum (fun kid => size[kid]?.getD 0) below (by
            intro kid member
            have sized := List.getElem?_eq_getElem (inside kid member)
            have large : size[kid]?.getD 0 ≤ (frame.kids.map fun kid => size[kid]?.getD 0).sum :=
              List.le_sum_of_mem (List.mem_map.mpr ⟨kid, member, rfl⟩)
            rw [sized] at large ⊢
            simp only [Option.getD_some] at large ⊢
            rcases memo kid _ sized with unseen | ⟨isOpen, _⟩ | ⟨_, bound⟩
            · have followed := ok.followed kid (by rwa [List.take_of_length_le finished])
              rw [sized, unseen] at followed
              exact absurd rfl followed
            · rw [isOpen, opened] at large
              omega
            · exact bound)
          omega
  · cases summed

include agrees room

theorem goes_bounded (after : State) (bounded : Bounded refs cap top objects state) (goes : Goes kidsOf cap state after) :
    Bounded refs cap top objects after := by
  obtain ⟨length, memo, frames, chain, root⟩ := bounded
  cases goes with
  | skip size refsRead frame rest kid known kidAt sized closed seen =>
      obtain ⟨frameOk, restOk⟩ := List.forall_mem_cons.mp frames
      have advanced := frame_advance refs size frameOk kidAt (by simpa [sized] using seen)
      exact ⟨length, memo, List.forall_mem_cons.mpr ⟨advanced, restOk⟩, chain, root⟩
  | scalar size refsRead frame rest kid kidAt unseen empty =>
      obtain ⟨frameOk, restOk⟩ := List.forall_mem_cons.mp frames
      obtain ⟨_, own, unfolds⟩ := frame_kid refs size frameOk (List.mem_of_getElem? kidAt)
      have single : Unfolds refs kid 1 := .cons kid [] [] 0 0 ((agrees kid own unfolds).symm.trans empty) .nil .nil
      have inside := (List.getElem?_eq_some_iff.mp unseen).1
      have advanced := frame_advance refs _ (frame_set refs size frame frameOk kid 1 (by decide)) kidAt
        (by simp [List.getElem?_set_self inside])
      exact ⟨by simpa using length,
        known_set refs cap size _ _ kid 1 memo (.inr (.inr ⟨room.1, 1, single, le_rfl⟩)) fun _ member _ => member,
        List.forall_mem_cons.mpr ⟨advanced, fun other member => frame_set refs size other (restOk other member) kid 1 (by decide)⟩,
        chain, set_nonzero size kid (by decide) root⟩
  | descend size refsRead frame rest kid grandkids kidAt unseen read nonempty =>
      obtain ⟨frameOk, restOk⟩ := List.forall_mem_cons.mp frames
      obtain ⟨edge, own, unfolds⟩ := frame_kid refs size frameOk (List.mem_of_getElem? kidAt)
      have inside := (List.getElem?_eq_some_iff.mp unseen).1
      have positive : opened ≠ 0 := by decide
      have advanced := frame_advance refs _ (frame_set refs size frame frameOk kid opened positive) kidAt
        (by simpa [List.getElem?_set_self inside] using positive)
      refine ⟨by simpa using length, ?_, ?_, ?_, set_nonzero size kid positive root⟩
      · exact known_set refs cap size _ _ kid opened memo (.inr (.inl ⟨rfl, List.mem_cons_self⟩)) fun other member _ =>
          List.mem_cons_of_mem _ member
      · refine List.forall_mem_cons.mpr ⟨⟨(agrees kid own unfolds).symm.trans read, ⟨own, unfolds⟩, by simp⟩,
          List.forall_mem_cons.mpr ⟨advanced, ?_⟩⟩
        exact fun other member => frame_set refs size other (restOk other member) kid opened positive
      · refine List.pairwise_cons.mpr ⟨?_, chain⟩
        intro lower member
        rcases List.mem_cons.mp member with rfl | below
        · exact .single edge
        · exact ((List.pairwise_cons.mp chain).1 lower below).tail edge
  | close size refsRead frame rest sum finished summed small =>
      obtain ⟨frameOk, restOk⟩ := List.forall_mem_cons.mp frames
      have next : saturatingAdd cap 1 = cap + 1 := by
        unfold saturatingAdd
        omega
      rw [next] at small ⊢
      have exact : min sum (cap + 1) = sum := by omega
      rw [exact] at small ⊢
      have own := total_bounds refs cap size _ memo frame frameOk finished sum summed (by omega)
      have positive : sum ≠ 0 := by
        obtain ⟨own, unfolds, bound⟩ := own
        cases unfolds
        omega
      refine ⟨by simpa using length, ?_, ?_, (List.pairwise_cons.mp chain).2, set_nonzero size _ positive root⟩
      · refine known_set refs cap size _ _ frame.object sum memo (.inr (.inr ⟨small, own⟩)) ?_
        intro other member different
        rcases List.mem_cons.mp member with same | below
        · exact absurd same different
        · exact below
      · exact fun other member => frame_set refs size other (restOk other member) frame.object sum positive

include inTable

theorem ends_bounded (expanded : Option Nat) (bounded : Bounded refs cap top objects state)
    (own : Nat) (unfoldsTop : Unfolds refs top own) (ends : Ends kidsOf cap top state expanded) :
    ∃ len, expanded = some len ∧ (len ≤ cap → own ≤ len) := by
  obtain ⟨length, memo, frames, chain, root⟩ := bounded
  have sizedKid : ∀ (frame : Frame) (kid : Nat), FrameOk refs state.size frame → kid ∈ frame.kids →
      ∃ known, state.size[kid]? = some known := by
    intro frame kid ok member
    obtain ⟨_, inner, unfolds⟩ := frame_kid refs state.size ok member
    exact ⟨_, List.getElem?_eq_getElem (length ▸ inTable kid inner unfolds)⟩
  cases ends with
  | finished size refsRead =>
      have sized := List.getElem?_eq_getElem (l := size) (length ▸ inTable top own unfoldsTop)
      refine ⟨_, sized, fun _ => ?_⟩
      rcases memo top _ sized with unseen | ⟨_, member⟩ | ⟨_, other, unfolds, bound⟩
      · rw [sized, unseen] at root
        exact absurd rfl root
      · simp at member
      · exact (Unfolding.unfolds_all_unique refs [top] own other unfoldsTop unfolds).trans_le bound
  | past _ expanded large => exact ⟨expanded, rfl, fun small => by omega⟩
  | outside size refsRead frame rest kid kidAt absent =>
      obtain ⟨known, sized⟩ := sizedKid frame kid (List.forall_mem_cons.mp frames).1 (List.mem_of_getElem? kidAt)
      cases sized.symm.trans absent
  | cycle size refsRead frame rest kid kidAt within =>
      have frameOk := (List.forall_mem_cons.mp frames).1
      obtain ⟨edge, inner, unfolds⟩ := frame_kid refs size frameOk (List.mem_of_getElem? kidAt)
      have noCycle := Unfolding.unfolds_no_cycle refs kid inner unfolds
      rcases memo kid _ within with unseen | ⟨_, member⟩ | ⟨finite, _⟩
      · exact absurd unseen (by decide)
      · rcases List.mem_cons.mp member with same | below
        · rw [same] at edge noCycle
          exact absurd (.single edge) noCycle
        · exact absurd (((List.pairwise_cons.mp chain).1 kid below).tail edge) noCycle
      · rw [opened] at finite
        omega
  | unreadable size refsRead frame rest kid kidAt unread =>
      obtain ⟨_, inner, unfolds⟩ := frame_kid refs size (List.forall_mem_cons.mp frames).1 (List.mem_of_getElem? kidAt)
      cases unfolds with
      | cons _ children _ _ _ read below after =>
          cases ((agrees kid _ (.cons kid children [] _ _ read below after)).trans read).symm.trans unread
  | unsized size refsRead frame rest unsummed =>
      rw [total_eq] at unsummed
      split at unsummed
      · cases unsummed
      · next outside =>
          refine absurd (fun kid member => ?_) outside
          obtain ⟨known, sized⟩ := sizedKid frame kid (List.forall_mem_cons.mp frames).1 member
          exact (List.getElem?_eq_some_iff.mp sized).1

theorem walk_bounded (bounded : Bounded refs cap top objects state) (own : Nat) (unfoldsTop : Unfolds refs top own) :
    ∃ len, walk kidsOf cap top state = some len ∧ (len ≤ cap → own ≤ len) := by
  induction state using walk.induct kidsOf cap top with
  | case1 state expanded turn =>
      rw [walk, turn]
      exact ends_bounded refs kidsOf cap top objects agrees inTable room state expanded bounded own unfoldsTop
        (step_done kidsOf cap top state expanded turn)
  | case2 state after turn ih =>
      rw [walk, turn]
      exact ih (goes_bounded refs kidsOf cap top objects agrees room state after bounded
        (step_next kidsOf cap top state turn))

end Bound

end Filefacts.Plist
