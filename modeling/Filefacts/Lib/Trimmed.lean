import Mathlib.Data.List.DropRight

set_option autoImplicit false

namespace Filefacts.Trimmed

universe u

variable {α : Type u} (blank : α → Bool)

def Blank (text : List α) : Prop := ∀ c ∈ text, blank c = true

def trimStart (text : List α) : List α := text.dropWhile blank

def trimEnd (text : List α) : List α := text.rdropWhile blank

def trim (text : List α) : List α := trimEnd blank (trimStart blank text)

variable {blank}

theorem blank_append (front back : List α) : Blank blank (front ++ back) ↔ Blank blank front ∧ Blank blank back :=
  List.forall_mem_append

theorem trim_start_append (white text : List α) (all : Blank blank white) :
    trimStart blank (white ++ text) = trimStart blank text := List.dropWhile_append_of_pos all

variable (text : List α)

theorem trim_end_append (white : List α) (all : Blank blank white) : trimEnd blank (text ++ white) = trimEnd blank text := by
  have reversed : ∀ c ∈ white.reverse, blank c = true := fun c member => all c (List.mem_reverse.mp member)
  rw [trimEnd, trimEnd, List.rdropWhile, List.reverse_append, List.dropWhile_append_of_pos reversed]
  rfl

theorem trim_start_blank (all : Blank blank text) : trimStart blank text = [] :=
  List.dropWhile_eq_nil_iff.mpr all

theorem trim_end_blank (all : Blank blank text) : trimEnd blank text = [] :=
  List.rdropWhile_eq_nil_iff.mpr all

theorem trim_blank (all : Blank blank text) : trim blank text = [] := by
  rw [trim, trim_start_blank text all]
  rfl

theorem trim_start_solid (c : α) (rest : List α) (solid : blank c = false) : trimStart blank (c :: rest) = c :: rest :=
  List.dropWhile_cons_of_neg (ne_true_of_eq_false solid)

theorem trim_start_split : ∃ white, Blank blank white ∧ text = white ++ trimStart blank text :=
  ⟨text.takeWhile blank, fun _ member => List.mem_takeWhile_imp member, List.takeWhile_append_dropWhile.symm⟩

theorem trim_end_split : ∃ white, Blank blank white ∧ text = trimEnd blank text ++ white :=
  ⟨text.rtakeWhile blank, fun _ member => List.mem_rtakeWhile_imp member, List.rdropWhile_append_rtakeWhile.symm⟩

theorem trim_start_head : trimStart blank text = [] ∨ ∃ c rest, trimStart blank text = c :: rest ∧ blank c = false := by
  cases found : trimStart blank text with
  | nil => exact Or.inl rfl
  | cons c rest =>
      refine Or.inr ⟨c, rest, rfl, ?_⟩
      have head := List.head?_dropWhile_not blank text
      rw [trimStart] at found
      rw [found] at head
      simpa using head

theorem trim_append_white (white : List α) (all : Blank blank white) : trim blank (text ++ white) = trim blank text := by
  obtain ⟨lead, leading, split⟩ := @trim_start_split α blank text
  rw [trim, trim]
  rcases @trim_start_head α blank text with empty | ⟨c, rest, solid, plain⟩
  · rw [empty, List.append_nil] at split
    rw [trim_start_blank (text ++ white) ((blank_append text white).mpr ⟨split ▸ leading, all⟩), empty]
  · rw [solid] at split ⊢
    rw [split, List.append_assoc, trim_start_append lead _ leading, List.cons_append, trim_start_solid c _ plain,
      ← List.cons_append, trim_end_append (c :: rest) white all]

theorem trim_white_append (white text : List α) (all : Blank blank white) : trim blank (white ++ text) = trim blank text := by
  rw [trim, trim, trim_start_append white text all]

theorem trim_trim_end : trim blank (trimEnd blank text) = trim blank text := by
  obtain ⟨tail, trailing, split⟩ := @trim_end_split α blank text
  conv => rhs; rw [split]
  exact (trim_append_white _ tail trailing).symm

theorem trim_nil_iff : trim blank text = [] ↔ Blank blank text := by
  refine ⟨fun empty => ?_, trim_blank text⟩
  obtain ⟨lead, leading, split⟩ := @trim_start_split α blank text
  rw [split]
  exact (blank_append lead _).mpr ⟨leading, List.rdropWhile_eq_nil_iff.mp empty⟩

theorem trim_end_lead : ∃ lead, Blank blank lead ∧ trimEnd blank text = lead ++ trim blank text := by
  obtain ⟨lead, leading, split⟩ := @trim_start_split α blank (trimEnd blank text)
  refine ⟨lead, leading, ?_⟩
  rw [← trim_trim_end]
  conv => lhs; rw [split]
  rw [trim]
  congr 1
  rcases @trim_start_head α blank (trimEnd blank text) with empty | ⟨c, rest, solid, plain⟩
  · rw [empty]
    rfl
  · refine (List.rdropWhile_eq_self_iff.mpr fun left => ?_).symm
    have last : (trimStart blank (trimEnd blank text)).getLast left =
        (trimEnd blank text).getLast (fun empty => left (by rw [empty]; rfl)) := by
      have suffix : trimStart blank (trimEnd blank text) <:+ trimEnd blank text := List.dropWhile_suffix _
      exact suffix.getLast left
    rw [last]
    exact List.rdropWhile_last_not _ _ _

theorem trim_split : ∃ lead tail, Blank blank lead ∧ Blank blank tail ∧ text = lead ++ trim blank text ++ tail := by
  obtain ⟨tail, trailing, split⟩ := @trim_end_split α blank text
  obtain ⟨lead, leading, front⟩ := @trim_end_lead α blank text
  exact ⟨lead, tail, leading, trailing, split.trans (congrArg (· ++ tail) front)⟩

theorem blank_trim : Blank blank (trim blank text) ↔ Blank blank text := by
  refine ⟨fun inner => ?_, fun all => by rw [trim_blank text all]; exact List.forall_mem_nil _⟩
  obtain ⟨lead, tail, leading, trailing, split⟩ := @trim_split α blank text
  rw [split]
  exact (blank_append _ tail).mpr ⟨(blank_append lead _).mpr ⟨leading, inner⟩, trailing⟩

theorem count_blank [BEq α] [LawfulBEq α] (c : α) (solid : blank c = false) (text : List α) (all : Blank blank text) :
    text.count c = 0 :=
  List.count_eq_zero_of_not_mem fun member => Bool.false_ne_true (solid.symm.trans (all c member))

theorem count_trim [BEq α] [LawfulBEq α] (c : α) (solid : blank c = false) (text : List α) :
    (trim blank text).count c = text.count c := by
  obtain ⟨lead, tail, leading, trailing, split⟩ := @trim_split α blank text
  conv => rhs; rw [split]
  rw [List.count_append, List.count_append, count_blank c solid lead leading, count_blank c solid tail trailing,
    Nat.zero_add, Nat.add_zero]

theorem count_trim_end [BEq α] [LawfulBEq α] (c : α) (solid : blank c = false) (text : List α) :
    (trimEnd blank text).count c = text.count c := by
  obtain ⟨tail, trailing, split⟩ := @trim_end_split α blank text
  conv => rhs; rw [split]
  rw [List.count_append, count_blank c solid tail trailing, Nat.add_zero]

end Filefacts.Trimmed
