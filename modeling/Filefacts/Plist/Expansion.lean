import Filefacts.Plist.Guard

set_option autoImplicit false

namespace Filefacts.Plist

open Bytes (saturatingAdd saturatingMul maxU64)

open Unfolding (Unfolds UnfoldsAll StopsAfter expand)

-- What a reader of the object graph sees: a reference is only looked at when
-- the reader gets to it.
def readerRefs (bytes : List UInt8) (trailer : Trailer) (object : Nat) : Option (List Nat) :=
  if object < trailer.objects then references (fun _ => true) bytes trailer object else none

def readerValues (bytes : List UInt8) : Nat :=
  match trailer bytes with
  | none => 0
  | some trailer => (expand (readerRefs bytes trailer) (trailer.objects + 1) [] trailer.top).1

theorem mapm_accepts (items : List Nat) (read : Nat → Option Nat) (accepts : Nat → Bool) :
    (items.mapM fun item => (read item).bind fun child => if accepts child then some child else none) =
      (items.mapM fun item => (read item).bind some).bind fun kids => if kids.all accepts then some kids else none := by
  induction items with
  | nil => rfl
  | cons item items ih =>
      cases first : read item with
      | none => simp [List.mapM_cons, first]
      | some child =>
          simp only [List.mapM_cons, first, Option.bind_some, Option.bind_eq_bind, ih]
          cases items.mapM fun item => (read item).bind some with
          | none => cases ok : accepts child <;> simp
          | some kids =>
              cases ok : accepts child <;> cases rest : kids.all accepts <;>
                simp only [List.all_cons, ok, rest, Option.bind_some, Option.bind_none, if_true, if_false, Bool.and_true,
                  Bool.and_false, Bool.false_eq_true, Option.pure_def]

theorem references_accepts (accepts : Nat → Bool) (bytes : List UInt8) (trailer : Trailer) (object : Nat) :
    references accepts bytes trailer object =
      (references (fun _ => true) bytes trailer object).bind fun kids => if kids.all accepts then some kids else none := by
  unfold references
  cases collection bytes trailer object with
  | none => rfl
  | some span => simp only [Option.bind_some, mapm_accepts, if_true]

theorem reader_refs_inside {bytes : List UInt8} {trailer : Trailer} {object : Nat} {kids : List Nat}
    (read : readerRefs bytes trailer object = some kids) :
    object < trailer.objects ∧ references (fun _ => true) bytes trailer object = some kids := by
  unfold readerRefs at read
  split at read
  · next inside => exact ⟨inside, read⟩
  · cases read

theorem unfolds_inside (bytes : List UInt8) (trailer : Trailer) (object own : Nat)
    (unfolds : Unfolds (readerRefs bytes trailer) object own) : object < trailer.objects := by
  cases unfolds with
  | cons _ children _ _ _ read _ _ => exact (reader_refs_inside read).1

theorem children_agree (bytes : List UInt8) (trailer : Trailer) (object own : Nat)
    (unfolds : Unfolds (readerRefs bytes trailer) object own) :
    children bytes trailer object = readerRefs bytes trailer object := by
  have whole := unfolds
  cases unfolds with
  | cons _ kids _ _ _ read _ _ =>
      have inRange : kids.all (fun child => decide (child < trailer.objects)) = true := by
        rw [List.all_eq_true]
        intro kid member
        obtain ⟨inner, unfoldsKid, _⟩ := Unfolding.unfolds_child _ whole ⟨kids, read, member⟩
        exact decide_eq_true (unfolds_inside bytes trailer kid inner unfoldsKid)
      rw [children, references_accepts, (reader_refs_inside read).2, Option.bind_some, inRange, read]
      rfl

theorem opening_bounded {refs : Nat → Option (List Nat)} (cap : Nat) {top objects own : Nat} {kids : List Nat}
    (read : refs top = some kids) (unfolds : Unfolds refs top own) (inside : top < objects) :
    Bounded refs cap top objects ⟨(List.replicate objects 0).set top opened, kids.length, [⟨top, kids, 0⟩]⟩ := by
  refine ⟨by simp, ?_, ?_, List.pairwise_singleton _ _, ?_⟩
  · refine known_set refs cap (List.replicate objects 0) [] [top] top opened ?_ (.inr (.inl ⟨rfl, List.mem_singleton_self top⟩)) (by simp)
    intro object known sized
    rw [List.getElem?_replicate] at sized
    split at sized
    · exact .inl (Option.some.inj sized).symm
    · cases sized
  · have frame : FrameOk refs ((List.replicate objects 0).set top opened) ⟨top, kids, 0⟩ := ⟨read, ⟨own, unfolds⟩, by simp⟩
    simpa using frame
  · rw [List.getElem?_set_self (by simpa using inside)]
    decide

theorem expanded_len_unfolds (bytes : List UInt8) (cap : Nat) (room : 1 ≤ cap ∧ cap < maxU64) (table : Trailer)
    (opened : trailer bytes = some table) (own : Nat) (unfolds : Unfolds (readerRefs bytes table) table.top own) :
    ∃ len, expandedLen bytes cap = some len ∧ (len ≤ cap → own ≤ len) := by
  have inside := unfolds_inside bytes table table.top own unfolds
  have agree := children_agree bytes table table.top own unfolds
  obtain ⟨kids, read⟩ : ∃ kids, readerRefs bytes table table.top = some kids := by
    cases unfolds with
    | cons _ kids _ _ _ read _ _ => exact ⟨kids, read⟩
  have result := walk_bounded (readerRefs bytes table) (children bytes table) cap table.top table.objects
    (children_agree bytes table) (unfolds_inside bytes table) room _
    (opening_bounded cap read unfolds inside) own unfolds
  simpa [expandedLen, opened, agree, read, inside] using result

theorem handed_len (bytes : List UInt8) (starts : magic.isPrefixOf bytes = true) (passed : handed bytes = true) (len : Nat)
    (expanded : expandedLen bytes (expansionCap bytes) = some len) : len ≤ expansionCap bytes := by
  simpa [handed, starts, expanded] using passed

theorem adequate_start (trailer : Trailer) : Unfolding.Adequate (List.range trailer.objects) (trailer.objects + 1) [] :=
  ⟨List.nodup_nil, by simp, by simp⟩

theorem reader_refs_covered (bytes : List UInt8) (trailer : Trailer) (object : Nat) (kids : List Nat)
    (read : readerRefs bytes trailer object = some kids) : object ∈ List.range trailer.objects :=
  List.mem_range.mpr (reader_refs_inside read).1

theorem reader_values_stop (bytes : List UInt8) (table : Trailer) (count : Nat) (opened : trailer bytes = some table)
    (stops : StopsAfter (readerRefs bytes table) [] table.top count) : readerValues bytes = count := by
  simp only [readerValues, opened, Unfolding.expand_stops _ _ (reader_refs_covered bytes table) [] table.top count stops _
    (adequate_start table) (by simp)]

theorem reader_values_unfolds (bytes : List UInt8) (table : Trailer) (size : Nat) (opened : trailer bytes = some table)
    (unfolds : Unfolds (readerRefs bytes table) table.top size) : readerValues bytes = size := by
  simp only [readerValues, opened, Unfolding.expand_unfolds _ _ (reader_refs_covered bytes table) table.top size unfolds _
    (adequate_start table)]

theorem reader_values_outcome (bytes : List UInt8) (table : Trailer) (opened : trailer bytes = some table) :
    Unfolds (readerRefs bytes table) table.top (readerValues bytes) ∨
      StopsAfter (readerRefs bytes table) [] table.top (readerValues bytes) := by
  obtain ⟨whole, stopped⟩ := Unfolding.expand_outcome (readerRefs bytes table) _ (reader_refs_covered bytes table)
    (table.objects + 1) [] table.top (adequate_start table)
  simp only [readerValues, opened]
  cases done : (expand (readerRefs bytes table) (table.objects + 1) [] table.top).2 with
  | true => exact .inl (whole done)
  | false => exact .inr (stopped done)

-- The bound the guard is there for holds on what it hands over exactly when the
-- whole graph unfolds, or little enough of it lies before the first object that
-- is unreadable or leads back into the path.
theorem handed_expansion_iff (bytes : List UInt8) (starts : magic.isPrefixOf bytes = true) (passed : handed bytes = true) :
    readerValues bytes ≤ 2 * bytes.length + extraValues ↔
      ∀ table, trailer bytes = some table →
        (∃ size, Unfolds (readerRefs bytes table) table.top size ∧
          (2 * bytes.length + extraValues < maxU64 ∨ size ≤ 2 * bytes.length + extraValues)) ∨
        ∃ count, StopsAfter (readerRefs bytes table) [] table.top count ∧ count ≤ 2 * bytes.length + extraValues := by
  cases opened : trailer bytes with
  | none => simp [readerValues, opened]
  | some table =>
      simp only [Option.some.injEq, forall_eq']
      constructor
      · intro bounded
        rcases reader_values_outcome bytes table opened with whole | stopped
        · exact .inl ⟨_, whole, .inr bounded⟩
        · exact .inr ⟨_, stopped, bounded⟩
      · rintro (⟨size, unfolds, small⟩ | ⟨count, stops, small⟩)
        · rw [reader_values_unfolds bytes table size opened unfolds]
          rcases small with fits | small
          · have cap : expansionCap bytes = 2 * bytes.length + extraValues := by
              unfold expansionCap saturatingAdd saturatingMul
              omega
            have room : 1 ≤ expansionCap bytes ∧ expansionCap bytes < maxU64 := by
              rw [cap]
              exact ⟨by simp [extraValues], fits⟩
            obtain ⟨len, expanded, bound⟩ := expanded_len_unfolds bytes _ room table opened size unfolds
            have under := handed_len bytes starts passed len expanded
            omega
          · exact small
        · rwa [reader_values_stop bytes table count opened stops]

theorem expanded_len_run (bytes : List UInt8) (cap turns : Nat) (table : Trailer) (kids : List Nat) (expanded : Option Nat)
    (opened : trailer bytes = some table) (read : children bytes table table.top = some kids) (inside : table.top < table.objects)
    (ran : run (children bytes table) cap table.top turns ⟨(List.replicate table.objects 0).set table.top Plist.opened,
      kids.length, [⟨table.top, kids, 0⟩]⟩ = .done expanded) : expandedLen bytes cap = expanded := by
  simp only [expandedLen, opened, Option.bind_eq_bind, Option.bind_some, read, if_pos inside]
  exact walk_run (children bytes table) cap table.top turns _ expanded ran

def plistOf (objects : List (List UInt8)) : List UInt8 :=
  let body := magic ++ objects.flatten
  let offsets := (List.range objects.length).map fun object => UInt8.ofNat (magic.length + ((objects.take object).map List.length).sum)
  body ++ offsets ++ List.replicate 6 0 ++ [1, 1] ++ BigEndian.octetsOf 8 objects.length ++ BigEndian.octetsOf 8 0 ++
    BigEndian.octetsOf 8 body.length

def sharedPair : List UInt8 := plistOf [[0xA2, 1, 1], [0x10, 0x2A]]

theorem shared_pair_handed : handed sharedPair = true := by
  have expanded : expandedLen sharedPair (expansionCap sharedPair) = some 4 :=
    expanded_len_run sharedPair _ 8 ⟨1, 1, 2, 0, 13⟩ [1, 1] (some 4) rfl rfl (by decide) rfl
  have starts : magic.isPrefixOf sharedPair = true := rfl
  have cap : expansionCap sharedPair = 4190 := rfl
  rw [cap] at expanded
  simp [handed, starts, expanded, cap]

theorem handed_expansion_iff_shared : readerValues sharedPair ≤ 2 * sharedPair.length + extraValues := by
  refine (handed_expansion_iff sharedPair (by decide +kernel) shared_pair_handed).mpr fun table opened => .inl ?_
  obtain rfl : table = ⟨1, 1, 2, 0, 13⟩ := Option.some.inj (opened.symm.trans (by decide +kernel))
  have leaf : Unfolds (readerRefs sharedPair ⟨1, 1, 2, 0, 13⟩) 1 1 := .cons 1 [] [] 0 0 (by decide +kernel) .nil .nil
  have both := Unfolding.unfolds_replicate _ 2 leaf
  exact ⟨3, .cons 0 [1, 1] [] 2 0 (by decide +kernel) both .nil, .inl (by decide +kernel)⟩

-- Fourteen references to each next array, and at the very end of the top one a
-- reference back to it.
def cyclicDag : List UInt8 :=
  plistOf [0xAE :: (List.replicate 13 1 ++ [0]), 0xAE :: List.replicate 14 2, 0xAE :: List.replicate 14 3,
    0xAE :: List.replicate 14 4, [0x10, 0x00]]

def cyclicTrailer : Trailer := ⟨1, 1, 5, 0, 70⟩

theorem cyclic_dag_trailer : trailer cyclicDag = some cyclicTrailer := rfl

theorem cyclic_dag_refs : readerRefs cyclicDag cyclicTrailer 0 = some (List.replicate 13 1 ++ [0]) ∧
    (∀ object ∈ [1, 2, 3], readerRefs cyclicDag cyclicTrailer object = some (List.replicate 14 (object + 1))) ∧
      readerRefs cyclicDag cyclicTrailer 4 = some [] := by
  decide +kernel

theorem cyclic_dag_handed : handed cyclicDag = true := by
  have expanded : expandedLen cyclicDag 4310 = none :=
    expanded_len_run cyclicDag 4310 65 cyclicTrailer (List.replicate 13 1 ++ [0]) none cyclic_dag_trailer rfl
      (by decide) rfl
  have cap : expansionCap cyclicDag = 4310 := rfl
  simp [handed, cap, expanded]

theorem cyclic_dag_stops : StopsAfter (readerRefs cyclicDag cyclicTrailer) [] 0 38416 := by
  obtain ⟨top, arrays, leaf⟩ := cyclic_dag_refs
  have four : Unfolds (readerRefs cyclicDag cyclicTrailer) 4 1 := .cons 4 [] [] 0 0 leaf .nil .nil
  have array : ∀ object ∈ [1, 2, 3], ∀ size, Unfolds (readerRefs cyclicDag cyclicTrailer) (object + 1) size →
      Unfolds (readerRefs cyclicDag cyclicTrailer) object (1 + 14 * size + 0) := fun object member size unfolds =>
    .cons object _ [] _ 0 (arrays object member) (Unfolding.unfolds_replicate _ 14 unfolds) .nil
  have three := array 3 (by decide) 1 four
  have two := array 2 (by decide) 15 three
  have one := array 1 (by decide) 211 two
  have stops := StopsAfter.deeper [] 0 0 (List.replicate 13 1) [] (13 * 2955) 0 (by simp) top
    (Unfolding.unfolds_replicate _ 13 one) (.cycle [0] 0 (by simp))
  rwa [show 1 + 13 * 2955 + 0 = 38416 by omega] at stops

-- A reader makes 38416 values of 107 bytes before it comes to the cycle.
theorem cyclic_dag_unbounded : magic.isPrefixOf cyclicDag = true ∧ handed cyclicDag = true ∧
    ¬ readerValues cyclicDag ≤ 2 * cyclicDag.length + extraValues := by
  refine ⟨by decide +kernel, cyclic_dag_handed, ?_⟩
  have values := reader_values_stop cyclicDag cyclicTrailer 38416 cyclic_dag_trailer cyclic_dag_stops
  have length : cyclicDag.length = 107 := by decide +kernel
  rw [values, length]
  simp [extraValues]

end Filefacts.Plist
