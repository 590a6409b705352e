import Filefacts.Marshal.Lockstep

set_option autoImplicit false

namespace Filefacts.Marshal

open Loader (State Made Result Constructors TypeCode CodeFields Grows Growing Advances)

theorem byte_there (w : Walker) (octet : Nat) (there : Bytes.u8 w.data w.pos = some octet) :
    w.byte = .ok (octet, { w with pos := w.pos + 1 }) := by
  rw [Walker.byte, there]

theorem take_there (w : Walker) (size : Nat) (fits : w.pos + size ≤ w.data.length) :
    w.take size = .ok ((w.data.drop w.pos).take size, { w with pos := w.pos + size }) := by
  rw [Walker.take, Bytes.get, if_pos ⟨Nat.le_add_right _ _, fits⟩, Nat.add_sub_cancel_left]

theorem integer_there (w : Walker) (number : Int) (there : Loader.word w.data w.pos = some number) :
    w.integer = .ok (number, { w with pos := w.pos + 4 }) := by
  obtain ⟨raw, read, rfl⟩ := Option.map_eq_some_iff.mp there
  rw [Walker.integer, read]
  rfl

theorem size_there (w : Walker) (small : Bool) (count stop : Nat) (there : Loader.size w.data w.pos small = some (count, stop)) :
    w.size small = .ok (count, { w with pos := stop }) := by
  cases small with
  | true =>
      obtain ⟨octet, read, found⟩ := Option.map_eq_some_iff.mp there
      obtain ⟨rfl, rfl⟩ := Prod.mk.inj found
      exact byte_there w octet read
  | false =>
      obtain ⟨number, read, found⟩ := Option.bind_eq_some_iff.mp there
      have known := integer_there w number read
      split at found
      · cases found
      · next positive =>
          obtain ⟨rfl, rfl⟩ := Prod.mk.inj (Option.some.inj found)
          rw [Walker.size, if_neg Bool.false_ne_true, Walker.length, known]
          exact if_neg positive

theorem float_there {w : Walker} {stop : Nat} (there : Loader.floatText w.data w.pos = some stop) (count : Nat) :
    floats (count + 1) w = floats count { w with pos := stop } := by
  obtain ⟨⟨size, start⟩, sized, found⟩ := Option.bind_eq_some_iff.mp there
  obtain ⟨rfl, inside⟩ := Loader.within_some w.data _ stop found
  have first := size_there w true size start sized
  rw [Walker.size, if_pos rfl] at first
  rw [floats, first]
  have second := take_there { w with pos := start } size inside
  simp only [bind, Except.bind, second]

-- The arm that a type code other than NULL and a reference has in the walker's match.
def armOf (type : TypeCode) : Arm :=
  match type with
  | .null | .ref => .unsupported
  | .singleton => .singleton
  | .int => .fixed 4
  | .int64 | .binaryFloat => .fixed 8
  | .binaryComplex => .fixed 16
  | .long => .long
  | .float => .floats 1
  | .complex => .floats 2
  | .string => .bytes
  | .unicode small => .text small
  | .tuple small => .tuple small
  | .list | .set _ => .container
  | .dict => .dict
  | .slice => .slice
  | .code => .code

def agrees (minor kind : Nat) : Bool :=
  match Loader.typeCode minor kind with
  | none => true
  | some type => arm minor kind = armOf type && (kind == 114) == (type == .ref)

theorem all_agree : (∀ kind < 128, agrees 13 kind = true) ∧ ∀ kind < 128, agrees 14 kind = true := by decide +kernel

theorem arm_type {minor kind : Nat} {type : TypeCode} (inside : kind < 128) (known : Loader.typeCode minor kind = some type) :
    arm minor kind = armOf type ∧ (kind = 114 ↔ type = .ref) := by
  have agree : agrees minor kind = true := by
    by_cases late : 14 ≤ minor
    · have same : agrees minor kind = agrees 14 kind := by
        simp only [agrees, arm, Loader.typeCode, if_pos late, if_pos (Nat.le_refl 14)]
      rw [same]
      exact all_agree.2 kind inside
    · have before : ¬ 14 ≤ 13 := by omega
      have same : agrees minor kind = agrees 13 kind := by
        simp only [agrees, arm, Loader.typeCode, if_neg late, if_neg before]
      rw [same]
      exact all_agree.1 kind inside
  simp only [agrees, known, Bool.and_eq_true, decide_eq_true_eq, beq_iff_eq] at agree
  refine ⟨agree.1, ?_⟩
  rw [← beq_iff_eq, agree.2, beq_iff_eq]

example : arm 13 58 = .unsupported ∧ arm 14 58 = .slice := by decide +kernel

theorem and_then_assoc {α β γ : Type} (result : Result α) (first : α → State → Result β) (second : β → State → Result γ) :
    Result.andThen (Result.andThen result first) second =
      Result.andThen result fun value st => Result.andThen (first value st) second := by
  match result with
  | none => rfl
  | some (none, _) => rfl
  | some (some _, _) => rfl

theorem words_last (data : List UInt8) (count : Nat) : ∀ pos list, Loader.words data (count + 1) pos = some list →
    Bytes.u32le data (pos + 4 * count) = some (list.getLast?.getD 0) := by
  induction count with
  | zero =>
      intro pos list found
      obtain ⟨number, read, more⟩ := Option.bind_eq_some_iff.mp found
      obtain ⟨rest, ends, rfl⟩ := Option.map_eq_some_iff.mp more
      obtain rfl := Option.some.inj ends
      exact read
  | succ count ih =>
      intro pos list found
      obtain ⟨number, _, more⟩ := Option.bind_eq_some_iff.mp found
      obtain ⟨rest, behind, rfl⟩ := Option.map_eq_some_iff.mp more
      have last := ih (pos + 4) rest behind
      have filled : rest ≠ [] := by
        rintro rfl
        cases Loader.words_length data (count + 1) (pos + 4) [] behind
      have onward : pos + 4 * (count + 1) = pos + 4 + 4 * count := by omega
      rw [onward, last, List.getLast?_cons, List.getLast?_eq_some_getLast filled]
      rfl

theorem u32_of_slice {data : List UInt8} {pos size offset number : Nat} (inside : offset + 4 ≤ size)
    (fits : pos + size ≤ data.length) (there : Bytes.u32le data (pos + offset) = some number) :
    Bytes.u32le ((data.drop pos).take size) offset = some number := by
  have room : pos + offset + 4 ≤ data.length := by omega
  have short : offset + 4 ≤ ((data.drop pos).take size).length := by
    rw [List.length_take, List.length_drop]
    omega
  have same : (((data.drop pos).take size).drop offset).take 4 = (data.drop (pos + offset)).take 4 := by
    rw [List.drop_take, List.take_take, List.drop_drop, Nat.min_eq_left (by omega)]
  rw [Bytes.u32le, Bytes.arrayAt, if_pos room] at there
  rw [Bytes.u32le, Bytes.arrayAt, if_pos short, same]
  exact there

section
variable (data : List UInt8) (minor : Nat) (child : State → Result Nat)
variable (walk : List CodeObject → Walker → Except String (Nat × List CodeObject × Walker))

theorem payload_body (w : Walker) (seen : List CodeObject) (type : TypeCode) (range : Nat × Nat)
    (read : Loader.payload w.data w.pos type = some range) : ∃ value, Kept (.plain type range.1 range.2) (some value) ∧
      body collect walk (armOf type) seen w = .ok (value, seen, { w with pos := range.2 }) := by
  have fixed : ∀ size, (Loader.within w.data (w.pos + size)).map (w.pos, ·) = some range →
      body collect walk (.fixed size) seen w = .ok (.other, seen, { w with pos := range.2 }) := by
    intro size found
    obtain ⟨stop, fits, rfl⟩ := Option.map_eq_some_iff.mp found
    obtain ⟨rfl, inside⟩ := Loader.within_some w.data _ stop fits
    simp only [body, take_there w size inside, bind, Except.bind]
  have text : ∀ small, ((Loader.size w.data w.pos small).bind fun found =>
      (Loader.within w.data (found.2 + found.1)).map (found.2, ·)) = some range →
      body collect walk (.text small) seen w = .ok (.text range.1 range.2, seen, { w with pos := range.2 }) := by
    intro small found
    obtain ⟨⟨count, start⟩, sized, found⟩ := Option.bind_eq_some_iff.mp found
    obtain ⟨stop, fits, rfl⟩ := Option.map_eq_some_iff.mp found
    obtain ⟨rfl, inside⟩ := Loader.within_some w.data _ stop fits
    simp only [body, size_there w small count start sized, take_there { w with pos := start } count inside, bind, Except.bind]
  cases type with
  | singleton =>
      obtain rfl := Option.some.inj read
      exact ⟨.other, trivial, rfl⟩
  | int => exact ⟨.other, trivial, fixed 4 read⟩
  | int64 => exact ⟨.other, trivial, fixed 8 read⟩
  | binaryFloat => exact ⟨.other, trivial, fixed 8 read⟩
  | binaryComplex => exact ⟨.other, trivial, fixed 16 read⟩
  | long =>
      obtain ⟨digits, first, found⟩ := Option.bind_eq_some_iff.mp read
      split at found
      · cases found
      · obtain ⟨stop, fits, rfl⟩ := Option.map_eq_some_iff.mp found
        obtain ⟨rfl, inside⟩ := Loader.within_some w.data _ stop fits
        rw [Nat.mul_comm 2] at inside
        refine ⟨.other, trivial, ?_⟩
        simp only [armOf, body, integer_there w digits first, take_there { w with pos := w.pos + 4 } _ inside, bind, Except.bind,
          Nat.mul_comm 2]
  | float =>
      obtain ⟨stop, found, rfl⟩ := Option.map_eq_some_iff.mp read
      refine ⟨.other, trivial, ?_⟩
      have one : floats 1 w = .ok { w with pos := stop } := float_there found 0
      simp only [armOf, body, one, bind, Except.bind]
  | complex =>
      obtain ⟨stop, both, rfl⟩ := Option.map_eq_some_iff.mp read
      obtain ⟨middle, real, imaginary⟩ := Option.bind_eq_some_iff.mp both
      refine ⟨.other, trivial, ?_⟩
      have both : floats 2 w = .ok { w with pos := stop } :=
        (float_there real 1).trans (float_there imaginary 0)
      simp only [armOf, body, both, bind, Except.bind]
  | string =>
      obtain ⟨⟨count, start⟩, sized, found⟩ := Option.bind_eq_some_iff.mp read
      obtain ⟨stop, fits, rfl⟩ := Option.map_eq_some_iff.mp found
      obtain ⟨rfl, inside⟩ := Loader.within_some w.data _ stop fits
      have first := size_there w false count start sized
      rw [Walker.size, if_neg Bool.false_ne_true] at first
      refine ⟨.bytes start (start + count), rfl, ?_⟩
      simp only [armOf, body, first, take_there { w with pos := start } count inside, bind, Except.bind]
  | unicode small => exact ⟨.text range.1 range.2, trivial, text small read⟩
  | null => cases read
  | tuple small => cases read
  | list => cases read
  | dict => cases read
  | set frozen => cases read
  | slice => cases read
  | code => cases read
  | ref => cases read

variable (advances : Advances data child) (lockstep : Lockstep data minor child walk)

include advances lockstep

-- A container's items. They take an octet each, and count as a step each, so the guard on the count lets them pass.
theorem sequence_follows (count : Nat) (st : State) (w : Walker) (seen : List CodeObject) (taken : List Nat)
    (related : Related data minor st w seen taken) :
    Follows data minor st w (Result.strict (Loader.objects child count st)) (sequence walk count seen w)
      fun _ value _ _ => isSequence (some value) = true := by
  intro value next done steps deepest
  match read : Loader.objects child count st, done with
  | some (some list, middle), done =>
      obtain ⟨rfl, rfl⟩ := Prod.mk.inj (Option.some.inj done)
      have advanced := Loader.objects_advance data child advances count st list middle read
      have inside := (Loader.objects_grow data 0 child advances count st (Nat.zero_le _) _ middle read).fits related.inside
      have guard : ¬ (count > maxObjects ∨ count > w.remaining) := by
        rw [Walker.remaining, related.stream, related.pos]
        omega
      rw [sequence, if_neg guard]
      obtain ⟨_, nodes, seen, after, taken, some_, ended, rest⟩ | ⟨⟨message, failed⟩, why⟩ :=
        items_follow data minor child walk advances lockstep count st w seen taken related (some list) middle read steps deepest
      · obtain rfl := Option.some.inj some_
        simp only [ended, bind, Except.bind]
        exact Or.inl ⟨list, _, seen, after, taken, rfl, rfl, rest.1, rest.2.1, rfl⟩
      · simp only [failed, bind, Except.bind]
        exact Or.inr ⟨⟨message, rfl⟩, why⟩

theorem sized_follows (small : Bool) {st : State} {w : Walker} {seen : List CodeObject} {taken : List Nat}
    (related : Related data minor st w seen taken) :
    Follows data minor st w (Loader.sized data small child st)
      (do
        let (count, w) ← w.size small
        sequence walk count seen w)
      fun _ value _ _ => isSequence (some value) = true := by
  unfold Loader.sized
  split
  · intro value next done
    cases done
  · next count pos found =>
      have onward := Loader.size_inside data st.pos found
      have first := size_there w small count pos (by rw [related.stream, related.pos]; exact found)
      simp only [first, bind, Except.bind]
      apply follows_moved data minor st w pos
      exact sequence_follows data minor child walk advances lockstep count _ _ seen taken
        (related_moved data minor related onward.1 onward.2)

theorem entries_follow (budget : Nat) : ∀ (st : State) (w : Walker) (seen : List CodeObject) (taken : List Nat),
    Related data minor st w seen taken →
    Follows data minor st w (Loader.pairs data child budget st)
      (do
        let (_, seen, w) ← entries walk budget seen w
        let (_, w) ← w.byte
        .ok (Value.other, seen, w)) Anything := by
  induction budget with
  | zero =>
      intro st w seen taken _ value next done
      cases done
  | succ budget ih =>
      intro st w seen taken related
      rw [Loader.pairs, entries]
      by_cases ends : Bytes.u8 data st.pos = some 48
      · have here : Bytes.u8 w.data w.pos = some 48 := by
          rw [related.stream, related.pos]
          exact ends
        rw [if_pos ends, if_pos here]
        simp only [bind, Except.bind, byte_there w 48 here]
        have inside := Loader.u8_inside data st.pos ends
        intro value next done _ _
        obtain ⟨rfl, rfl⟩ := Prod.mk.inj (Option.some.inj done)
        refine Or.inl ⟨[], .other, seen, _, taken, rfl, rfl, ?_, ⟨List.prefix_rfl, rfl, id⟩, trivial⟩
        rw [related.pos]
        exact related_moved data minor related (Nat.le_succ _) inside
      · have here : ¬ Bytes.u8 w.data w.pos = some 48 := by
          rw [related.stream, related.pos]
          exact ends
        rw [if_neg ends, if_neg here]
        simp only [bind_assoc]
        have behind := fun st => Loader.pairs_grow data 0 child advances budget st (Nat.zero_le _)
        have done : ∀ entry (rest : List (Nat × Nat)) (next : State), Growing data 0 next (some (some (entry :: rest), next)) := by
          intro entry rest next value final done
          obtain ⟨-, rfl⟩ := Prod.mk.inj (Option.some.inj done)
          exact Loader.grows_refl data 0 next
        have entry : ∀ (key value : Nat) next, Growing data 0 next
            (Result.andThen (Loader.pairs data child budget next) fun rest st => some (some ((key, value) :: rest), st)) := by
          intro key value next
          apply Loader.growing_and_then data 0 next _ _ (behind next)
          intro rest last _ grown
          exact Loader.growing_after data 0 next last _ grown (done (key, value) rest last)
        apply follows_ending
        apply follows_and_then data 0 minor st w _ _ Same _ _ _ (lockstep st w seen taken related)
        · intro key middle _
          apply Loader.growing_and_then data 0 middle _ _ (advances.grows 0 middle (Nat.zero_le _))
          intro value last _ grown
          exact Loader.growing_after data 0 middle last _ grown (entry key value last)
        · intro key slot middle seen after taken _ related _ _
          apply follows_and_then data 0 minor middle after _ _ Same _ _ _ (lockstep middle after seen taken related)
          · intro value last _
            exact entry key value last
          · intro value slot last seen final taken _ related _ _
            exact follows_map data minor last final _ _ _ (ih last final seen taken related)

theorem code_rest_follows {header : List Nat} {code constants : Nat} (flagsAt : Nat) {flags first second : Nat}
    (flagged : flags = header.getLast?.getD 0) {st : State} {w : Walker} {seen : List CodeObject} {taken : List Nat}
    (related : Related data minor st w seen taken) (one : Same code first st w) (two : Same constants second st w) :
    Follows data minor st w (Loader.codeTail data minor child header code constants st)
      (codeRest collect walk flagsAt flags first second seen w) fun fields value _ _ => Kept (.code fields) (some value) := by
  have list := items_follow data minor child walk advances lockstep
  unfold Loader.codeTail codeRest
  apply follows_and_then data 0 minor st w _ _ Same _ _ _ (lockstep st w seen taken related)
  · intro names middle _
    exact (Loader.locals_steady data 0 minor child advances _ middle (Nat.zero_le _)).grows
  intro names third st₁ seen w₁ taken _ related onward three
  have later : ∀ st next w after, Onward st next w after →
      Same code first st w ∧ Same constants second st w ∧ Same names third st w →
      Same code first next after ∧ Same constants second next after ∧ Same names third next after := by
    intro st next w after onward parts
    exact ⟨same_later onward parts.1, same_later onward parts.2.1,
      same_later onward parts.2.2⟩
  have parts : Same code first st₁ w₁ ∧ Same constants second st₁ w₁ ∧ Same names third st₁ w₁ :=
    ⟨same_later onward one, same_later onward two, three⟩
  have versions : (if 11 ≤ minor then 1 else 0) = if minor ≤ 10 then 0 else 1 := by
    split <;> split <;> omega
  simp only [related.version]
  apply follows_and_then data 0 minor st₁ w₁ _ _ Anything _ _ _ (list _ st₁ w₁ seen taken related)
  · intro locals middle _
    exact (Loader.filename_steady data 0 minor child advances _ middle (Nat.zero_le _)).grows
  intro locals nodes st₂ seen w₂ taken _ related onward _
  have parts := later st₁ st₂ w₁ w₂ onward parts
  apply follows_and_then data 0 minor st₂ w₂ _ _ Same _ _ _ (lockstep st₂ w₂ seen taken related)
  · intro filename middle _
    exact (Loader.name_steady data 0 minor child advances _ middle (Nat.zero_le _)).grows
  intro filename node st₃ seen w₃ taken _ related onward _
  have parts := later st₂ st₃ w₂ w₃ onward parts
  apply follows_and_then data 0 minor st₃ w₃ _ _ Same _ _ _ (lockstep st₃ w₃ seen taken related)
  · intro name middle _
    exact (Loader.qualified_steady data 0 minor child advances _ middle (Nat.zero_le _)).grows
  intro name node st₄ seen w₄ taken _ related onward _
  have parts := later st₃ st₄ w₃ w₄ onward parts
  simp only [related.version, versions]
  apply follows_and_then data 0 minor st₄ w₄ _ _ Anything _ _ _ (list _ st₄ w₄ seen taken related)
  · intro qualified middle _
    exact (Loader.first_line_steady data 0 minor child advances _ middle (Nat.zero_le _)).grows
  intro qualified nodes st₅ seen w₅ taken _ related onward _
  have parts := later st₄ st₅ w₄ w₅ onward parts
  cases fits : Loader.within data (st₅.pos + 4) with
  | none =>
      intro value next done
      cases done
  | some stop =>
      obtain ⟨rfl, room⟩ := Loader.within_some data _ stop fits
      have taken_ := take_there w₅ 4 (by rw [related.stream, related.pos]; exact room)
      rw [related.pos] at taken_
      simp only [taken_, Option.bind_some, bind, Except.bind]
      have related := related_moved data minor related (Nat.le_add_right _ 4) room
      apply follows_moved data minor st₅ w₅ (st₅.pos + 4)
      have moved : Onward st₅ { st₅ with pos := st₅.pos + 4 } w₅ { w₅ with pos := st₅.pos + 4 } := ⟨List.prefix_rfl, rfl, id⟩
      have parts := later st₅ _ w₅ _ moved parts
      apply follows_and_then data 0 minor _ _ _ _ Same _ _ _ (lockstep _ _ seen taken related)
      · intro lineTable middle _
        exact (Loader.exceptions_steady data 0 minor child advances _ middle (Nat.zero_le _)).grows
      intro lineTable node st₆ seen w₆ taken _ related onward _
      have parts := later _ st₆ _ w₆ onward parts
      simp only [related.version, versions]
      apply follows_and_then data 0 minor st₆ w₆ _ _ Anything _ _ _ (list _ st₆ w₆ seen taken related)
      · intro exceptions middle _
        exact (Loader.record_steady data 0 _ middle).grows
      intro exceptions nodes st₇ seen w₇ taken _ related onward _
      obtain ⟨one, two, three⟩ := later st₆ st₇ w₆ w₇ onward parts
      intro value next done _ _
      obtain ⟨rfl, rfl⟩ := Prod.mk.inj (Option.some.inj done)
      refine Or.inl ⟨_, .code, _, w₇, taken, rfl, rfl, ?_, ⟨List.prefix_rfl, rfl, id⟩, trivial⟩
      refine { related with codes := ?_ }
      rcases related.codes with misled | reports
      · exact Or.inl misled
      rcases one with misled | one
      · exact Or.inl misled
      rcases two with misled | two
      · exact Or.inl misled
      rcases three with misled | three
      · exact Or.inl misled
      · exact Or.inr (List.rel_append reports (List.Forall₂.cons ⟨flagged, one, two, three⟩ List.Forall₂.nil))

-- A code object that is made has been made of bytes and of a filled tuple, and they stand in their slots unless a
-- reference was misled.
theorem code_checked {constructors : Constructors} {object : Nat} {header : List Nat} {code constants first second : Nat}
    {st : State} {w : Walker} {seen : List CodeObject} {taken : List Nat} (related : Related data minor st w seen taken)
    (one : Same code first st w) (two : Same constants second st w) {value : Option Nat} {next : State}
    (done : Result.andThen (Loader.codeTail data minor child header code constants st) (fun fields st =>
      Loader.make constructors data object (.code fields) (st.insert object)) = some (value, next)) :
    (isBytes w.values[first]? = true ∧ isSequence w.values[second]? = true) ∨ st.strays < next.strays ∨ Misled next := by
  have steady := Loader.code_tail_steady data st.pos minor child advances header code constants st (Nat.le_refl _)
  match read : Loader.codeTail data minor child header code constants st, done with
  | some (none, middle), done =>
      obtain ⟨rfl, rfl⟩ := Prod.mk.inj (Option.some.inj done)
      exact Or.inr (Or.inl (steady.counted middle read))
  | some (some fields, middle), done =>
      have grown := steady.grows (some fields) middle read
      have made := Loader.make_grows constructors (.code fields)
        (Loader.grows_insert data 0 middle object) (Nat.zero_le _) value next done
      have spread : Misled st → Misled next := fun misled =>
        misled_grows data 0 middle next made (misled_grows data st.pos st middle grown misled)
      rcases one with misled | one
      · exact Or.inr (Or.inr (spread misled))
      rcases two with misled | two
      · exact Or.inr (Or.inr (spread misled))
      obtain ⟨sameCode, sameConstants, _⟩ := Loader.code_tail_parts data minor read
      change Loader.make constructors data object (.code fields) (middle.insert object) = some (value, next) at done
      unfold Loader.make at done
      split at done
      · next accepted =>
          obtain ⟨⟨start, stop, bytes⟩, list, tuple⟩ := constructors.code_parts data _ fields accepted
          rw [sameCode] at bytes
          rw [sameConstants] at tuple
          have earlyCode := related.begun code (List.mem_of_getElem? one)
          have earlyConstants := related.begun constants (List.mem_of_getElem? two)
          obtain ⟨slot, placed, kept⟩ := related.heap code _ ((grown.heap code earlyCode).symm.trans bytes)
          obtain rfl := related_slot data minor related placed one
          obtain ⟨slot, placed, filled⟩ := related.heap constants _ ((grown.heap constants earlyConstants).symm.trans tuple)
          obtain rfl := related_slot data minor related placed two
          exact Or.inl ⟨kept, filled⟩
      · cases done

theorem code_follows (constructors : Constructors) {object node : Nat} {st : State} {w : Walker} {seen : List CodeObject}
    {taken : List Nat} (related : Related data minor st w seen taken) (placed : w.origins[node]? = some object) :
    Follows data minor st w
      (Result.andThen (Loader.codeFields data minor child st) fun fields st =>
        Loader.make constructors data object (.code fields) (st.insert object))
      (code collect walk seen w >>= closing node) Same := by
  unfold Loader.codeFields code
  cases words : Loader.words data (if minor ≤ 10 then 6 else 5) st.pos with
  | none =>
      intro value next done
      cases done
  | some header =>
      have count := Loader.words_length data _ st.pos header words
      have fits := Loader.words_inside data _ st.pos header related.inside words
      rw [← count] at fits
      have width : (if minor ≤ 10 then 24 else 20) = 4 * header.length := by
        rw [count]
        split <;> rfl
      obtain ⟨last, some_⟩ : ∃ last, header.length = last + 1 := by
        rw [count]
        split
        · exact ⟨5, rfl⟩
        · exact ⟨4, rfl⟩
      rw [← count, some_] at words
      have word := words_last data last st.pos header words
      rw [show 4 * last = 4 * header.length - 4 by omega] at word
      have flags := u32_of_slice (by omega) fits word
      have header_ := take_there w (4 * header.length) (by rw [related.stream, related.pos]; exact fits)
      rw [related.pos] at header_
      rw [← related.stream] at flags
      rw [← related.version] at width
      have onward : ∀ {α β : Type} (value : α) (next : α → Except String β), (Except.ok value >>= next) = next value :=
        fun _ _ => rfl
      simp only [width, header_, onward, flags, and_then_assoc, bind_assoc]
      have related := related_moved data minor related (Nat.le_add_right _ (4 * header.length)) fits
      apply follows_moved data minor st w (st.pos + 4 * header.length)
      have rest : ∀ code constants st, Growing data 0 st
          (Result.andThen (Loader.codeTail data minor child header code constants st) fun fields st =>
            Loader.make constructors data object (.code fields) (st.insert object)) := by
        intro code constants st
        have tail := (Loader.code_tail_steady data 0 minor child advances header code constants st (Nat.zero_le _)).grows
        apply Loader.growing_and_then data 0 st _ _ tail
        intro fields next _ grown
        exact Loader.make_grows constructors _
          (Loader.grows_trans data 0 st next _ grown (Loader.grows_insert data 0 next object)) (Nat.zero_le _)
      apply follows_and_then data 0 minor _ _ _ _ Same _ _ _ (lockstep _ _ seen taken related)
      · intro code middle _
        apply Loader.growing_and_then data 0 middle _ _ (advances.grows 0 middle (Nat.zero_le _))
        intro constants last _ grown
        exact Loader.growing_after data 0 middle last _ grown (rest code constants last)
      intro code first st₁ seen w₁ taken _ related before one
      have placed := prefix_get _ _ before.origins placed
      apply follows_and_then data 0 minor st₁ w₁ _ _ Same _ _ _ (lockstep st₁ w₁ seen taken related)
      · intro constants last _
        exact rest code constants last
      intro constants second st₂ seen w₂ taken _ related before two
      have placed := prefix_get _ _ before.origins placed
      have one := same_later before one
      by_cases checked : (!isBytes w₂.values[first]? || !isSequence w₂.values[second]?) = true
      · intro value next done _ _
        obtain ⟨bytes, sequence⟩ | wrong := code_checked data minor child walk advances lockstep related one two done
        · rw [bytes, sequence] at checked
          cases checked
        · simp only [if_pos checked]
          exact Or.inr ⟨⟨_, rfl⟩, wrong⟩
      · simp only [if_neg checked]
        apply close_follows constructors data minor st₂ w₂ _ _ Made.code (fun st => st.insert object) object node placed
        · exact code_rest_follows data minor child walk advances lockstep _ rfl related one two
        · intro next
          exact Loader.grows_insert data 0 next object
        · intro next
          rfl
        · intro next after seen taken related
          exact related_insert data minor next after seen taken related object

end

end Filefacts.Marshal
