import Filefacts.Cms.Ber

set_option autoImplicit false

namespace Filefacts.Cms

def readRules : Rules :=
  ⟨fun octets length => BerLength octets length ∧ octets.length ≤ 5, True, fun _ _ form => form.1⟩

theorem read_within_ber : readRules.Within berRules := ⟨fun _ _ form => form.1, fun allowed => allowed⟩

variable (octets input : List UInt8) (ending : Ending)

theorem shift_fold_value : octets.foldl (fun acc b => (acc <<< 8) ||| b.toNat) 0 = BigEndian.value octets := by
  unfold BigEndian.value
  congr 1
  funext total octet
  rw [Nat.shiftLeft_eq, Nat.mul_comm, ← Nat.two_pow_add_eq_or_of_lt octet.toNat_lt, Nat.mul_comm]

theorem split_at_checked_some (front back : List UInt8) (count : Nat) :
    splitAtChecked octets count = some (front, back) ↔ octets = front ++ back ∧ front.length = count := by
  unfold splitAtChecked
  constructor
  · intro split
    by_cases enough : count ≤ octets.length
    · simp only [if_pos enough, Option.some.injEq, Prod.mk.injEq] at split
      obtain ⟨rfl, rfl⟩ := split
      exact ⟨(List.take_append_drop count octets).symm, List.length_take_of_le enough⟩
    · simp [enough] at split
  · rintro ⟨rfl, rfl⟩
    simp

variable (first : UInt8) (rest tail : List UInt8) (len : Nat) (content : List UInt8) (tag : UInt8)

theorem low_bits : (first &&& 0x7F).toNat = first.toNat % 128 := by
  rw [UInt8.toNat_and]
  exact Nat.and_two_pow_sub_one_eq_mod first.toNat 7

theorem definite_length_reads (definite : first ≠ 0x80) : definiteLength first rest = some (len, tail) ↔
      ∃ more, rest = more ++ tail ∧ readRules.lengths (first :: more) len := by
  have bounded := first.toNat_lt
  have different : first.toNat ≠ 128 := fun equal => definite (UInt8.toNat_inj.mp equal)
  by_cases short : first < 0x80
  · have below : first.toNat < 128 := short
    simp only [definiteLength, if_pos short, Option.some.injEq, Prod.mk.injEq]
    constructor
    · rintro ⟨rfl, rfl⟩
      exact ⟨[], rfl, ⟨first, [], rfl, Or.inl ⟨short, rfl, rfl⟩⟩, by simp⟩
    · rintro ⟨more, rfl, ⟨head, more', view, form⟩, _⟩
      obtain ⟨rfl, rfl⟩ := List.cons.inj view
      rcases form with ⟨_, rfl, rfl⟩ | ⟨long, _⟩
      · exact ⟨rfl, rfl⟩
      · have above : 128 < first.toNat := long
        omega
  · have above : ¬ first.toNat < 128 := short
    have count : (first &&& 0x7F).toNat = first.toNat - 128 := by
      rw [low_bits]
      omega
    simp only [definiteLength, if_neg short, count]
    constructor
    · intro split
      by_cases refused : first.toNat - 128 = 0 ∨ first.toNat - 128 > 4
      · simp [refused] at split
      · rw [if_neg refused, Option.map_eq_some_iff] at split
        obtain ⟨⟨more, tail'⟩, parts, result⟩ := split
        obtain ⟨layout, size⟩ := (split_at_checked_some _ _ _ _).mp parts
        obtain ⟨rfl, rfl⟩ := Prod.mk.inj result
        refine ⟨more, layout, ⟨first, more, rfl, Or.inr ⟨?_, ?_, by omega, shift_fold_value more⟩⟩, ?_⟩
        · change 128 < first.toNat
          omega
        · change first.toNat < 255
          omega
        · simp only [List.length_cons]
          omega
    · rintro ⟨more, rfl, ⟨head, more', view, form⟩, small⟩
      obtain ⟨rfl, rfl⟩ := List.cons.inj view
      simp only [List.length_cons] at small
      rcases form with ⟨below, _⟩ | ⟨_, _, counted, rfl⟩
      · exact absurd below short
      · have accepted : ¬ (first.toNat - 128 = 0 ∨ first.toNat - 128 > 4) := by omega
        have parts := (split_at_checked_some (more ++ tail) more tail (first.toNat - 128)).mpr ⟨rfl, by omega⟩
        rw [if_neg accepted, parts, Option.map_some, shift_fold_value]

theorem read_length_cons (form : readRules.lengths octets len) : ∃ first more, octets = first :: more ∧ first ≠ 0x80 := by
  obtain ⟨⟨first, more, rfl, short | long⟩, _⟩ := form
  · refine ⟨first, more, rfl, ?_⟩
    rintro rfl
    exact absurd short.1 (by decide)
  · refine ⟨first, more, rfl, ?_⟩
    rintro rfl
    exact absurd long.1 (by decide)

theorem header_definite (tail : List UInt8) (tag : UInt8) : header input = some (tag, .definite content tail) ↔
      ∃ octets, input = tag :: (octets ++ (content ++ tail)) ∧ tag &&& 0x1F ≠ 0x1F ∧
        readRules.lengths octets content.length := by
  constructor
  · intro read
    unfold header at read
    split at read
    · simp at read
    · rename_i head rest
      split at read
      · simp at read
      · rename_i low
        split at read
        · simp at read
        · rename_i first rest
          split at read
          · split at read <;> simp at read
          · rename_i definite
            split at read
            · simp at read
            · rename_i len behind lengthRead
              obtain ⟨⟨content', tail'⟩, parts, result⟩ := Option.map_eq_some_iff.mp read
              obtain ⟨rfl, rfl, rfl⟩ : head = tag ∧ content' = content ∧ tail' = tail := by simpa using result
              obtain ⟨rfl, rfl⟩ := (split_at_checked_some _ _ _ _).mp parts
              obtain ⟨more, rfl, form⟩ := (definite_length_reads first rest _ _ definite).mp lengthRead
              exact ⟨first :: more, by simp, low, form⟩
  · rintro ⟨octets, rfl, low, form⟩
    obtain ⟨first, more, rfl, definite⟩ := read_length_cons octets _ form
    have lengthRead : definiteLength first (more ++ (content ++ tail)) = some (content.length, content ++ tail) :=
      (definite_length_reads first _ _ _ definite).mpr ⟨more, rfl, form⟩
    have parts := (split_at_checked_some (content ++ tail) content tail content.length).mpr ⟨rfl, rfl⟩
    simp [header, low, definite, lengthRead, parts]

theorem header_indefinite : header input = some (tag, .indefinite rest) ↔
      input = tag :: 0x80 :: rest ∧ tag &&& 0x1F ≠ 0x1F ∧ isConstructed tag = true := by
  constructor
  · intro read
    unfold header at read
    split at read
    · simp at read
    · split at read
      · simp at read
      · rename_i low
        split at read
        · simp at read
        · split at read
          · rename_i marked
            split at read
            · rename_i constructed
              obtain ⟨rfl, rfl⟩ : _ = tag ∧ _ = rest := by simpa using read
              exact ⟨by rw [marked], low, constructed⟩
            · simp at read
          · split at read
            · simp at read
            · obtain ⟨_, _, result⟩ := Option.map_eq_some_iff.mp read
              simp at result
  · rintro ⟨rfl, low, constructed⟩
    simp [header, low, constructed]

theorem is_constructed_iff : isConstructed tag = true ↔ tag &&& 0x20 ≠ 0 := by
  simp [isConstructed]

theorem is_primitive_iff : isConstructed tag = false ↔ tag &&& 0x20 = 0 := by
  simp [isConstructed]

def ReadsExtent (extent : Extent) (elements : List Element) (rest : List UInt8) : Prop :=
  match extent with
  | .definite content tail => tail = rest ∧ Reads readRules .whole content elements []
  | .indefinite body => Reads readRules .marker body elements rest

theorem header_primitive_reads (tail : List UInt8) (tag : UInt8) :
    Reads readRules (.count 1) input [.primitive tag content] tail ↔
      header input = some (tag, .definite content tail) ∧ isConstructed tag = false := by
  rw [header_definite, is_primitive_iff]
  constructor
  · intro reads
    cases reads with
    | primitive _ _ _ octets _ _ later _ _ layout one low form length done =>
        cases one
        cases done
        exact ⟨⟨octets, layout, low, length⟩, form⟩
  · rintro ⟨⟨octets, layout, low, length⟩, form⟩
    exact .primitive _ _ tag octets content input tail tail [] layout (.count 0 input) low form length (.counted tail)

theorem header_constructed_reads (elements : List Element) :
    Reads readRules (.count 1) input [.constructed tag elements] rest ↔
      ∃ extent, header input = some (tag, extent) ∧ isConstructed tag = true ∧ ReadsExtent extent elements rest := by
  constructor
  · intro reads
    cases reads with
    | definite _ _ _ octets content _ later _ _ _ layout one low form length inside done =>
        cases one
        cases done
        exact ⟨.definite content rest, (header_definite _ _ _ _).mpr ⟨octets, layout, low, length⟩,
          (is_constructed_iff tag).mpr form, rfl, inside⟩
    | indefinite _ _ _ body _ later _ _ _ layout one low form allowed inside done =>
        cases one
        cases done
        have constructed := (is_constructed_iff tag).mpr form
        exact ⟨.indefinite body, (header_indefinite _ _ _).mpr ⟨layout, low, constructed⟩, constructed, inside⟩
  · rintro ⟨extent, read, constructed, inside⟩
    have form := (is_constructed_iff tag).mp constructed
    cases extent with
    | definite content tail =>
        obtain ⟨rfl, inside⟩ := inside
        obtain ⟨octets, layout, low, length⟩ := (header_definite _ _ _ _).mp read
        exact .definite _ _ tag octets content input tail tail elements [] layout (.count 0 input) low form length inside
          (.counted tail)
    | indefinite body =>
        obtain ⟨layout, low, _⟩ := (header_indefinite _ _ _).mp read
        exact .indefinite _ _ tag body input rest rest elements [] layout (.count 0 input) low form trivial inside
          (.counted rest)

inductive StopsFor : Ending → (List UInt8 → Option (List UInt8)) → Prop where
  | whole : StopsFor .whole contentEnd
  | marker : StopsFor .marker markerEnd

theorem marker_end_some : markerEnd input = some tail ↔ input = 0 :: 0 :: tail := by
  constructor
  · intro found
    unfold markerEnd at found
    split at found
    · rw [Option.some.inj found]
    · simp at found
  · rintro rfl
    rfl

theorem stop_reads {stop : List UInt8 → Option (List UInt8)} (stops : StopsFor ending stop)
    (input tail : List UInt8) : stop input = some tail ↔ Reads readRules ending input [] tail := by
  cases stops with
  | whole =>
      constructor
      · intro found
        cases input with
        | nil =>
            obtain rfl : [] = tail := by simpa [contentEnd] using found
            exact .whole
        | cons _ _ => simp [contentEnd] at found
      · rintro ⟨⟩
        rfl
  | marker =>
      rw [marker_end_some]
      constructor
      · rintro rfl
        exact .marker tail
      · rintro ⟨⟩
        rfl

theorem stop_continues (stop : List UInt8 → Option (List UInt8)) (stops : StopsFor ending stop)
    (input : List UInt8) (goesOn : stop input = none) : Continues ending input ending := by
  cases stops with
  | whole => exact .whole input
  | marker =>
      refine .marker input ?_
      rintro ⟨tail, rfl⟩
      simp [markerEnd] at goesOn

theorem continues_same (next : Ending) (stop : List UInt8 → Option (List UInt8)) (stops : StopsFor ending stop)
    (input : List UInt8) (goesOn : Continues ending input next) : next = ending := by
  cases stops <;> cases goesOn <;> rfl

section Loop

variable {State : Type} (child : List UInt8 → State → Option (List UInt8 × State)) (Holds : List Element → State → Prop)

theorem children_loop_sound
    (turn : ∀ input middle elements state next, Holds elements state → child input state = some (middle, next) →
      ∃ element, Reads readRules (.count 1) input [element] middle ∧ Holds (elements ++ [element]) next)
    (ending : Ending) (stop : List UInt8 → Option (List UInt8)) (stops : StopsFor ending stop) (turns : Nat)
    (input rest : List UInt8) (before : List Element) (state final : State) (holds : Holds before state)
    (returned : childrenLoop stop child turns input state = some (rest, final)) :
    ∃ elements, Reads readRules ending input elements rest ∧ Holds (before ++ elements) final := by
  induction turns generalizing input before state with
  | zero =>
      cases stopped : stop input with
      | none => simp [childrenLoop, stopped] at returned
      | some tail =>
          obtain ⟨rfl, rfl⟩ : tail = rest ∧ state = final := by simpa [childrenLoop, stopped] using returned
          exact ⟨[], (stop_reads ending stops input tail).mp stopped, by simpa using holds⟩
  | succ turns ih =>
      cases stopped : stop input with
      | some tail =>
          obtain ⟨rfl, rfl⟩ : tail = rest ∧ state = final := by simpa [childrenLoop, stopped] using returned
          exact ⟨[], (stop_reads ending stops input tail).mp stopped, by simpa using holds⟩
      | none =>
          cases taken : child input state with
          | none => simp [childrenLoop, stopped, taken] at returned
          | some result =>
              obtain ⟨middle, next⟩ := result
              obtain ⟨element, first, later⟩ := turn input middle before state next holds taken
              have again : childrenLoop stop child turns middle next = some (rest, final) := by
                simpa [childrenLoop, stopped, taken] using returned
              obtain ⟨elements, reads, end_⟩ := ih middle (before ++ [element]) next later again
              exact ⟨element :: elements,
                reads_cons _ (stop_continues ending stop stops input stopped) first reads, by simpa using end_⟩

theorem children_loop_complete (limit : Nat)
    (turn : ∀ input middle element elements state, input.length ≤ limit →
      Reads readRules (.count 1) input [element] middle → Holds (element :: elements) state →
      ∃ next, child input state = some (middle, next) ∧ Holds elements next)
    (ending : Ending) (stop : List UInt8 → Option (List UInt8)) (stops : StopsFor ending stop) (turns : Nat)
    (input rest : List UInt8) (elements : List Element) (state : State) (short : input.length ≤ limit)
    (enough : elements.length ≤ turns) (reads : Reads readRules ending input elements rest) (holds : Holds elements state) :
    ∃ final, childrenLoop stop child turns input state = some (rest, final) ∧ Holds [] final := by
  induction elements generalizing turns input state with
  | nil =>
      have stopped := (stop_reads ending stops input rest).mpr reads
      exact ⟨state, by cases turns <;> simp [childrenLoop, stopped], holds⟩
  | cons element elements ih =>
      obtain ⟨next, middle, goesOn, first, after⟩ := reads_first _ _ _ _ _ _ reads
      obtain rfl := continues_same ending next stop stops input goesOn
      cases turns with
      | zero => simp at enough
      | succ turns =>
          obtain ⟨state', taken, later⟩ := turn input middle element elements state short first holds
          have shorter := reads_length _ _ _ _ _ first
          simp only [List.length_cons, List.length_nil] at shorter enough
          obtain ⟨final, again, done⟩ := ih turns middle state' (by omega) (by omega) after later
          have running : stop input = none := by
            cases stopped : stop input with
            | none => rfl
            | some tail =>
                have ended := reads_end_unique _ _ _ _ _ _ ((stop_reads next stops input tail).mp stopped) reads
                exact absurd ended.1 (List.cons_ne_nil _ _)
          exact ⟨final, by simpa [childrenLoop, running, taken] using again, done⟩

theorem children_sound
    (turn : ∀ input middle elements state next, Holds elements state → child input state = some (middle, next) →
      ∃ element, Reads readRules (.count 1) input [element] middle ∧ Holds (elements ++ [element]) next)
    (extent : Extent) (rest : List UInt8) (state final : State) (holds : Holds [] state)
    (returned : children extent child state = some (rest, final)) :
    ∃ elements, ReadsExtent extent elements rest ∧ Holds elements final := by
  cases extent with
  | definite content tail =>
      obtain ⟨⟨behind, final'⟩, looped, result⟩ := Option.map_eq_some_iff.mp returned
      obtain ⟨rfl, rfl⟩ := Prod.mk.inj result
      obtain ⟨elements, reads, done⟩ := children_loop_sound child Holds turn .whole contentEnd .whole _ _ _ [] _ _ holds looped
      have exhausted := reads_whole_rest _ _ _ _ _ reads rfl
      exact ⟨elements, ⟨rfl, exhausted ▸ reads⟩, done⟩
  | indefinite body => exact children_loop_sound child Holds turn .marker markerEnd .marker _ _ _ [] _ _ holds returned

theorem children_complete {input : List UInt8} {tag : UInt8}
    (turn : ∀ input' middle element elements state, input'.length < input.length →
      Reads readRules (.count 1) input' [element] middle → Holds (element :: elements) state →
      ∃ next, child input' state = some (middle, next) ∧ Holds elements next)
    {extent : Extent} (read : header input = some (tag, extent)) {rest : List UInt8} {elements : List Element} (state : State)
    (reads : ReadsExtent extent elements rest) (holds : Holds elements state) :
    ∃ final, children extent child state = some (rest, final) ∧ Holds [] final := by
  cases extent with
  | definite content tail =>
      obtain ⟨rfl, inside⟩ := reads
      obtain ⟨octets, layout, _, _⟩ := (header_definite _ _ _ _).mp read
      have size : content.length < input.length := by
        simp only [layout, List.length_cons, List.length_append]
        omega
      have few := reads_length _ _ _ _ _ inside
      obtain ⟨final, looped, done⟩ := children_loop_complete child Holds content.length
        (fun input' middle element elements state short => turn input' middle element elements state (by omega))
        .whole contentEnd .whole content.length content [] elements state le_rfl (by omega) inside holds
      exact ⟨final, by simp [children, looped], done⟩
  | indefinite body =>
      obtain ⟨layout, _, _⟩ := (header_indefinite _ _ _).mp read
      have size : body.length < input.length := by
        simp only [layout, List.length_cons]
        omega
      have few := reads_length _ _ _ _ _ reads
      exact children_loop_complete child Holds body.length
        (fun input' middle element elements state short => turn input' middle element elements state (by omega))
        .marker markerEnd .marker body.length body rest elements state le_rfl (by omega) reads holds

end Loop

end Filefacts.Cms
