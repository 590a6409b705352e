import Filefacts.Bytes

set_option autoImplicit false

-- The parts of the file the sections name, each octet in one of them only.
namespace Filefacts.ApiHash

open Filefacts.Bytes (checkedAdd)

variable {SectionTable : Type}

def clipped (fileLen : Nat) : Nat → List (Nat × Nat × SectionTable) → List ((Nat × Nat) × SectionTable)
  | _, [] => []
  | covered, (start, size, owner) :: rest =>
      match checkedAdd start size with
      | none => clipped fileLen covered rest
      | some stop =>
          let stop := min stop fileLen
          if stop ≤ start ∨ stop ≤ covered then clipped fileLen covered rest
          else ((max start covered, stop), owner) :: clipped fileLen stop rest

-- The sort is unstable: ranges of one start and one size may be left in any order.
structure Sorted (ranges arranged : List (Nat × Nat × SectionTable)) : Prop where
  perm : arranged.Perm ranges
  ordered : arranged.Pairwise fun one other => one.1 < other.1 ∨ (one.1 = other.1 ∧ one.2.1 ≤ other.2.1)

def disjointFileRanges (arranged : List (Nat × Nat × SectionTable)) (fileLen : Nat) : List ((Nat × Nat) × SectionTable) :=
  clipped fileLen 0 arranged

def Names (ranges : List (Nat × Nat × SectionTable)) (position : Nat) : Prop :=
  ∃ range ∈ ranges, range.1 + range.2.1 < 2 ^ 64 ∧ range.1 ≤ position ∧ position < range.1 + range.2.1

def Within (ranges : List (Nat × Nat × SectionTable)) (piece : (Nat × Nat) × SectionTable) : Prop :=
  ∃ range ∈ ranges, range.1 + range.2.1 < 2 ^ 64 ∧ range.2.2 = piece.2 ∧ range.1 ≤ piece.1.1 ∧ piece.1.2 ≤ range.1 + range.2.1

variable (fileLen covered : Nat) (range : Nat × Nat × SectionTable) (rest arranged : List (Nat × Nat × SectionTable))

theorem clipped_cons :
    (clipped fileLen covered (range :: rest) = clipped fileLen covered rest ∧
      ¬ (range.1 + range.2.1 < 2 ^ 64 ∧ max range.1 covered < min (range.1 + range.2.1) fileLen)) ∨
    (clipped fileLen covered (range :: rest) =
        ((max range.1 covered, min (range.1 + range.2.1) fileLen), range.2.2) ::
          clipped fileLen (min (range.1 + range.2.1) fileLen) rest ∧
      range.1 + range.2.1 < 2 ^ 64 ∧ max range.1 covered < min (range.1 + range.2.1) fileLen) := by
  obtain ⟨start, size, owner⟩ := range
  rw [clipped, checkedAdd]
  by_cases fits : start + size < 2 ^ 64
  · rw [if_pos fits]
    dsimp only
    by_cases nothing : min (start + size) fileLen ≤ start ∨ min (start + size) fileLen ≤ covered
    · rw [if_pos nothing]
      exact .inl ⟨rfl, by omega⟩
    · rw [if_neg nothing]
      exact .inr ⟨rfl, fits, by omega⟩
  · rw [if_neg fits]
    exact .inl ⟨rfl, fun both => fits both.1⟩

theorem clipped_pieces : ∀ covered, ∀ piece ∈ clipped fileLen covered arranged,
    covered ≤ piece.1.1 ∧ piece.1.1 < piece.1.2 ∧ piece.1.2 ≤ fileLen ∧ Within arranged piece := by
  induction arranged with
  | nil => exact fun _ _ listed => nomatch listed
  | cons range rest ih =>
      intro covered piece listed
      have later : ∀ piece, Within rest piece → Within (range :: rest) piece := by
        rintro piece ⟨other, member, holds⟩
        exact ⟨other, List.mem_cons_of_mem _ member, holds⟩
      rcases clipped_cons fileLen covered range rest with ⟨same, _⟩ | ⟨same, fits, filled⟩
      · rw [same] at listed
        obtain ⟨above, solid, inside, within⟩ := ih covered piece listed
        exact ⟨above, solid, inside, later piece within⟩
      · rw [same] at listed
        rcases List.mem_cons.mp listed with rfl | listed
        · exact ⟨Nat.le_max_right _ _, filled, Nat.min_le_right _ _, range, List.mem_cons_self, fits, rfl,
            Nat.le_max_left _ _, Nat.min_le_left _ _⟩
        · obtain ⟨above, solid, inside, within⟩ := ih _ piece listed
          exact ⟨by omega, solid, inside, later piece within⟩

theorem clipped_apart : ∀ covered,
    (clipped fileLen covered arranged).Pairwise fun earlier later => earlier.1.2 ≤ later.1.1 := by
  induction arranged with
  | nil => exact fun _ => .nil
  | cons range rest ih =>
      intro covered
      rcases clipped_cons fileLen covered range rest with ⟨same, _⟩ | ⟨same, _⟩
      · rw [same]
        exact ih covered
      · rw [same]
        exact .cons (fun piece listed => (clipped_pieces fileLen rest _ piece listed).1) (ih _)

theorem clipped_covers (position : Nat) (ordered : arranged.Pairwise fun one other => one.1 ≤ other.1) : ∀ covered,
    (∃ piece ∈ clipped fileLen covered arranged, piece.1.1 ≤ position ∧ position < piece.1.2) ↔
      covered ≤ position ∧ position < fileLen ∧ Names arranged position := by
  induction arranged with
  | nil =>
      intro covered
      constructor
      · rintro ⟨_, listed, _⟩
        cases listed
      · rintro ⟨_, _, _, listed, _⟩
        cases listed
  | cons range rest ih =>
      intro covered
      obtain ⟨first, ordered⟩ := List.pairwise_cons.mp ordered
      have split : Names (range :: rest) position ↔
          (range.1 + range.2.1 < 2 ^ 64 ∧ range.1 ≤ position ∧ position < range.1 + range.2.1) ∨ Names rest position := by
        simp only [Names, List.mem_cons, exists_eq_or_imp]
      have above : Names rest position → range.1 ≤ position := by
        rintro ⟨other, member, _, start, _⟩
        exact (first other member).trans start
      rw [split]
      rcases clipped_cons fileLen covered range rest with ⟨same, empty⟩ | ⟨same, fits, filled⟩
      · rw [same, ih ordered]
        by_cases named : Names rest position
        · simp only [named, or_true]
        · simp only [named, or_false, and_false, false_iff]
          omega
      · simp only [same, List.mem_cons, exists_eq_or_imp, ih ordered]
        by_cases named : Names rest position
        · have start := above named
          simp only [named, or_true, and_true]
          omega
        · simp only [named, or_false, and_false]
          omega

theorem disjoint_file_ranges_cover (ranges arranged : List (Nat × Nat × SectionTable)) (fileLen : Nat)
    (sorted : Sorted ranges arranged) :
    (disjointFileRanges arranged fileLen).Pairwise (fun earlier later => earlier.1.1 < later.1.1 ∧ earlier.1.2 ≤ later.1.1) ∧
      (∀ piece ∈ disjointFileRanges arranged fileLen,
        piece.1.1 < piece.1.2 ∧ piece.1.2 ≤ fileLen ∧ Within ranges piece) ∧
      ∀ position, (∃ piece ∈ disjointFileRanges arranged fileLen, piece.1.1 ≤ position ∧ position < piece.1.2) ↔
        position < fileLen ∧ Names ranges position := by
  have pieces := clipped_pieces fileLen arranged 0
  refine ⟨?_, ?_, ?_⟩
  · refine (clipped_apart fileLen arranged 0).imp_of_mem fun first _ apart => ⟨?_, apart⟩
    exact Nat.lt_of_lt_of_le (pieces _ first).2.1 apart
  · intro piece listed
    obtain ⟨_, solid, inside, range, member, holds⟩ := pieces piece listed
    exact ⟨solid, inside, range, sorted.perm.mem_iff.mp member, holds⟩
  · intro position
    have starts : arranged.Pairwise fun one other => one.1 ≤ other.1 := sorted.ordered.imp fun before => by omega
    have named : Names arranged position ↔ Names ranges position := by
      simp only [Names, sorted.perm.mem_iff]
    rw [disjointFileRanges, clipped_covers fileLen arranged position starts 0, named]
    exact and_iff_right (Nat.zero_le _)

theorem disjoint_file_ranges_cover_shared :
    (∃ piece ∈ disjointFileRanges [(2, 4, 'a'), (2, 4, 'b'), (5, 9, 'c')] 8, piece.1.1 ≤ 7 ∧ 7 < piece.1.2) ↔
      7 < 8 ∧ Names [(5, 9, 'c'), (2, 4, 'b'), (2, 4, 'a')] 7 :=
  (disjoint_file_ranges_cover [(5, 9, 'c'), (2, 4, 'b'), (2, 4, 'a')] _ 8 ⟨by decide, by decide⟩).2.2 7

example : disjointFileRanges [(2, 4, 'a'), (2, 4, 'b'), (5, 9, 'c')] 8 = [((2, 6), 'a'), ((6, 8), 'c')] := by decide

end Filefacts.ApiHash
