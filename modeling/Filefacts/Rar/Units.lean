import Filefacts.Rar.Name

set_option autoImplicit false

namespace Filefacts.Rar

-- What the flags of an encoded name call for: a unit of its own, or octets of the field, as they are or corrected.
inductive Operation where
  | literal (unit : Nat)
  | run (length : Nat) (correction : Option UInt8)
deriving DecidableEq

-- The encoded part read for its operations, round by round as the name is decoded.
def operations (high : Nat) : Nat → List UInt8 → Nat → Nat → List Operation
  | 0, _, _, _ => []
  | fuel + 1, enc, flags, flagBits =>
      match enc with
      | [] => []
      | first :: afterFirst =>
          let (flags, flagBits, enc) := if flagBits = 0 then (first.toNat, 8, afterFirst) else (flags, flagBits, enc)
          let again := fun enc => operations high fuel enc (flags * 4 % 256) (flagBits - 2)
          match flags / 64 with
          | 0 =>
              match enc with
              | [] => again []
              | b :: rest => .literal b.toNat :: again rest
          | 1 =>
              match enc with
              | [] => again []
              | b :: rest => .literal (b.toNat + high) :: again rest
          | 2 =>
              match enc with
              | low :: upper :: rest => .literal (low.toNat + upper.toNat * 256) :: again rest
              | few => again few
          | _ =>
              match enc with
              | [] => again []
              | run :: rest =>
                  if run < 128 then .run (run.toNat % 128 + 2) none :: again rest
                  else
                    match rest with
                    | [] => again []
                    | correction :: rest => .run (run.toNat % 128 + 2) (some correction) :: again rest

-- The units one operation announces; a run copies fewer where the field ends.
def Operation.announced : Operation → Nat
  | .literal _ => 1
  | .run length _ => length

def Operation.reaches (limit filled : Nat) : Operation → Nat
  | .literal _ => filled + 1
  | .run length _ => min (filled + length) limit

def Operation.apply (raw : List UInt8) (high : Nat) (out : List Nat) : Operation → List Nat
  | .literal unit => out ++ [unit]
  | .run length none => out ++ ((raw.drop out.length).take length).map UInt8.toNat
  | .run length (some correction) => out ++ ((raw.drop out.length).take length).map fun b => (b + correction).toNat + high

section Rounds

variable (raw : List UInt8) (high : Nat)

theorem unicode_units_fold (fuel : Nat) (enc : List UInt8) (flags flagBits : Nat) (out : List Nat) :
    unicodeUnits raw high fuel enc flags flagBits out =
      (operations high fuel enc flags flagBits).foldl (Operation.apply raw high) out := by
  induction fuel generalizing enc flags flagBits out with
  | zero => rfl
  | succ fuel ih =>
      cases enc with
      | nil => rfl
      | cons first afterFirst =>
          rw [unicodeUnits, operations]
          generalize (if flagBits = 0 then (first.toNat, 8, afterFirst) else (flags, flagBits, first :: afterFirst)) = turn
          obtain ⟨flags, flagBits, enc⟩ := turn
          simp only
          generalize flags / 64 = kind
          rcases kind with _ | _ | _ | kind
          · cases enc with
            | nil => exact ih _ _ _ _
            | cons b rest => exact ih _ _ _ _
          · cases enc with
            | nil => exact ih _ _ _ _
            | cons b rest => exact ih _ _ _ _
          · rcases enc with _ | ⟨low, _ | ⟨upper, rest⟩⟩
            · exact ih _ _ _ _
            · exact ih _ _ _ _
            · exact ih _ _ _ _
          · cases enc with
            | nil => exact ih _ _ _ _
            | cons run rest =>
                by_cases plain : run < 128
                · simp only [if_pos plain]
                  exact ih _ _ _ _
                · simp only [if_neg plain]
                  cases rest with
                  | nil => exact ih _ _ _ _
                  | cons correction rest => exact ih _ _ _ _

variable (out : List Nat) (operation : Operation) (list : List Operation)

theorem apply_length (inside : out.length ≤ raw.length) :
    (operation.apply raw high out).length = operation.reaches raw.length out.length := by
  cases operation with
  | literal unit => exact List.length_append
  | run length correction =>
      cases correction with
      | none =>
          simp only [Operation.apply, List.length_append, List.length_map, List.length_take, List.length_drop,
            Operation.reaches]
          omega
      | some correction =>
          simp only [Operation.apply, List.length_append, List.length_map, List.length_take, List.length_drop,
            Operation.reaches]
          omega

theorem apply_grows : out.length ≤ (operation.apply raw high out).length := by
  rcases operation with unit | ⟨length, _ | correction⟩
  · exact List.length_append ▸ Nat.le_add_right _ _
  · exact List.length_append ▸ Nat.le_add_right _ _
  · exact List.length_append ▸ Nat.le_add_right _ _

theorem fold_grows (out : List Nat) : out.length ≤ (list.foldl (Operation.apply raw high) out).length := by
  induction list generalizing out with
  | nil => exact Nat.le_refl _
  | cons operation list ih => exact Nat.le_trans (apply_grows raw high out operation) (ih _)

def Leaves (limit : Nat) (list : List Operation) : Prop :=
  ∀ front unit back, list = front ++ .literal unit :: back → (front.map Operation.announced).sum < limit

def LeavesFrom (limit total : Nat) (list : List Operation) : Prop :=
  ∀ front unit back, list = front ++ .literal unit :: back → total + (front.map Operation.announced).sum < limit

theorem leaves_from_cons (limit total : Nat) (operation : Operation) (list : List Operation) :
    LeavesFrom limit total (operation :: list) ↔
      (∀ unit, operation = .literal unit → total < limit) ∧ LeavesFrom limit (total + operation.announced) list := by
  constructor
  · intro leaves
    constructor
    · rintro unit rfl
      exact leaves [] unit list rfl
    · rintro front unit back rfl
      have room := leaves (operation :: front) unit back rfl
      rwa [List.map_cons, List.sum_cons, ← Nat.add_assoc] at room
  · rintro ⟨first, others⟩ front unit back same
    cases front with
    | nil =>
        obtain ⟨literal, _⟩ := List.cons.inj same
        exact first unit literal
    | cons other front =>
        obtain ⟨rfl, behind⟩ := List.cons.inj same
        have room := others front unit back behind
        rwa [List.map_cons, List.sum_cons, ← Nat.add_assoc]

theorem fold_fits_iff (total : Nat) (out : List Nat) (cut : out.length = min total raw.length) :
    (list.foldl (Operation.apply raw high) out).length ≤ raw.length ↔ LeavesFrom raw.length total list := by
  induction list generalizing total out with
  | nil =>
      refine ⟨fun _ front unit back same => ?_, fun _ => ?_⟩
      · cases front <;> cases same
      · rw [List.foldl_nil, cut]
        exact Nat.min_le_right _ _
  | cons operation list ih =>
      have applied := apply_length raw high out operation (by omega)
      rw [List.foldl_cons, leaves_from_cons]
      cases operation with
      | literal unit =>
          rw [Operation.reaches] at applied
          by_cases room : total < raw.length
          · rw [ih (total + 1) _ (by omega)]
            exact ⟨fun leaves => ⟨fun _ _ => room, leaves⟩, fun leaves => leaves.2⟩
          · have grows := fold_grows raw high list (Operation.apply raw high out (.literal unit))
            exact ⟨fun fits => by omega, fun leaves => absurd (leaves.1 unit rfl) room⟩
      | run length correction =>
          rw [Operation.reaches] at applied
          rw [ih (total + length) _ (by omega)]
          exact ⟨fun leaves => ⟨fun unit impossible => (by cases impossible), leaves⟩, fun leaves => leaves.2⟩

end Rounds

def highByte (enc : List UInt8) : Nat := (enc.head?.getD 0).toNat * 256

def encodedPart (raw : List UInt8) : List UInt8 := raw.drop ((raw.takeWhile fun b => b ≠ 0).length + 1)

def nameUnits (raw enc : List UInt8) : List Nat := unicodeUnits raw (highByte enc) (5 * enc.length + 1) (enc.drop 1) 0 0 []

def nameOperations (enc : List UInt8) : List Operation := operations (highByte enc) (5 * enc.length + 1) (enc.drop 1) 0 0

theorem name_within_field_iff (raw : List UInt8) :
    (nameUnits raw (encodedPart raw)).length ≤ raw.length ↔ Leaves raw.length (nameOperations (encodedPart raw)) := by
  have fits := fold_fits_iff raw (highByte (encodedPart raw)) (nameOperations (encodedPart raw)) 0 [] (Nat.zero_min _).symm
  rw [nameUnits, unicode_units_fold]
  refine fits.trans ⟨fun leaves front unit back same => ?_, fun leaves front unit back same => ?_⟩
  · have room := leaves front unit back same
    rwa [Nat.zero_add] at room
  · rw [Nat.zero_add]
    exact leaves front unit back same

def outgrowing : List UInt8 := [97, 98, 0, 0, 0xC0, 0x7F, 1, 2, 3]

theorem outgrowing_name_outgrows : outgrowing.length = 9 ∧ (nameUnits outgrowing (encodedPart outgrowing)).length = 12 := by
  decide +kernel

end Filefacts.Rar
