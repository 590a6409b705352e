import Mathlib.Data.List.Basic

set_option autoImplicit false

namespace Filefacts.Delimited

universe u v

variable {Value : Type u} {Symbol : Type v}

-- A rendering that shows where it ends: it can be split off the front of
-- whatever follows it.
def SelfDelimiting (render : Value → List Symbol) : Prop :=
  ∀ a b after after', render a ++ after = render b ++ after' → a = b ∧ after = after'

variable (separator : Symbol) (front front' back back' : List Symbol) (render : Value → List Symbol)

theorem first_separator (clean : separator ∉ front)
    (clean' : separator ∉ front') (same : front ++ separator :: back = front' ++ separator :: back') :
    front = front' ∧ back = back' := by
  induction front generalizing front' with
  | nil =>
      cases front' with
      | nil => exact ⟨rfl, (List.cons.inj same).2⟩
      | cons symbol front' =>
          obtain ⟨rfl, _⟩ := List.cons.inj same
          exact absurd List.mem_cons_self clean'
  | cons symbol front ih =>
      cases front' with
      | nil =>
          obtain ⟨rfl, _⟩ := List.cons.inj same
          exact absurd List.mem_cons_self clean
      | cons symbol' front' =>
          obtain ⟨rfl, rest⟩ := List.cons.inj same
          obtain ⟨rfl, rfl⟩ := ih front' (fun member => clean (List.mem_cons_of_mem _ member))
            (fun member => clean' (List.mem_cons_of_mem _ member)) rest
          exact ⟨rfl, rfl⟩

theorem last_separator (clean : separator ∉ back)
    (clean' : separator ∉ back') (same : front ++ separator :: back = front' ++ separator :: back') :
    front = front' ∧ back = back' := by
  have mirrored := congrArg List.reverse same
  simp only [List.reverse_append, List.reverse_cons, List.append_assoc, List.singleton_append] at mirrored
  obtain ⟨ends, fronts⟩ := first_separator separator _ _ _ _ (by simpa using clean) (by simpa using clean') mirrored
  exact ⟨List.reverse_injective fronts, List.reverse_injective ends⟩

theorem self_delimiting_stopped (delimiting : SelfDelimiting render) (stop : Symbol)
    (starts : ∀ value, ∃ symbol rest, render value = symbol :: rest ∧ symbol ≠ stop) :
    SelfDelimiting fun values : List Value => values.flatMap render ++ [stop] := by
  intro values others after after' same
  simp only [List.append_assoc, List.singleton_append] at same
  induction values generalizing others with
  | nil =>
      cases others with
      | nil => exact ⟨rfl, (List.cons.inj same).2⟩
      | cons other others =>
          obtain ⟨symbol, rest, view, different⟩ := starts other
          rw [List.flatMap_cons, view] at same
          exact absurd (List.cons.inj same).1.symm different
  | cons value values ih =>
      cases others with
      | nil =>
          obtain ⟨symbol, rest, view, different⟩ := starts value
          rw [List.flatMap_cons, view] at same
          exact absurd (List.cons.inj same).1 different
      | cons other others =>
          rw [List.flatMap_cons, List.flatMap_cons, List.append_assoc, List.append_assoc] at same
          obtain ⟨rfl, rest⟩ := delimiting value other _ _ same
          obtain ⟨rfl, rfl⟩ := ih others rest
          exact ⟨rfl, rfl⟩

theorem self_delimiting_option (delimiting : SelfDelimiting render) (absent : List Symbol)
    (apart : ∀ value after after', absent ++ after ≠ render value ++ after') :
    SelfDelimiting fun value : Option Value => (value.map render).getD absent := by
  intro a b after after' same
  cases a with
  | none =>
      cases b with
      | none => exact ⟨rfl, List.append_cancel_left same⟩
      | some b => exact absurd same (apart b after after')
  | some a =>
      cases b with
      | none => exact absurd same.symm (apart a after' after)
      | some b =>
          obtain ⟨rfl, rest⟩ := delimiting a b after after' same
          exact ⟨rfl, rest⟩

theorem self_delimiting_framed (delimiting : SelfDelimiting render) (front back : List Symbol) :
    SelfDelimiting fun value => front ++ (render value ++ back) := by
  intro a b after after' same
  simp only [List.append_assoc] at same
  obtain ⟨rfl, rest⟩ := delimiting a b _ _ (List.append_cancel_left same)
  exact ⟨rfl, List.append_cancel_left rest⟩

end Filefacts.Delimited
