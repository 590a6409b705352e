import Filefacts.Constraint.HeaderLines

set_option autoImplicit false

namespace Filefacts.Constraint

def lineOf (text : List Char) : List Char := text.takeWhile (· != '\n')

def afterLine (text : List Char) : List Char := (text.dropWhile (· != '\n')).tail

variable (text line : List Char) (open_ : Bool)

theorem line_no_break : ∀ c ∈ lineOf text, (c == '\n') = false := by
  intro c member
  have other : (c != '\n') = true := List.mem_takeWhile_imp (p := (· != '\n')) member
  simpa using other

theorem line_cases : text = lineOf text ++ '\n' :: afterLine text ∨ (lineOf text = text ∧ afterLine text = []) := by
  have split := List.takeWhile_append_dropWhile (p := (· != '\n')) (l := text)
  cases tail : text.dropWhile (· != '\n') with
  | nil =>
      rw [tail, List.append_nil] at split
      exact .inr ⟨split, by rw [afterLine, tail, List.tail_nil]⟩
  | cons c rest =>
      have stops := List.head?_dropWhile_not (· != '\n') text
      rw [tail] at stops
      have break_ : c = '\n' := by simpa using stops
      rw [tail, break_] at split
      exact .inl (by rw [afterLine, tail, List.tail_cons]; exact split.symm)

theorem text_lines_break (text : List Char) : textLines (line ++ '\n' :: text) = line.splitOn '\n' ++ textLines text := by
  have pieces : (line ++ '\n' :: text).splitOn '\n' = line.splitOn '\n' ++ text.splitOn '\n' :=
    List.splitOnP_append_cons line text (beq_self_eq_true '\n')
  have some_ := List.splitOn_ne_nil '\n' text
  simp only [textLines, pieces]
  rw [List.getLast?_append_of_ne_nil _ some_, List.dropLast_append_of_ne_nil some_]
  by_cases last : (text.splitOn '\n').getLast? = some []
  · rw [if_pos last, if_pos last]
  · rw [if_neg last, if_neg last]

theorem text_lines_unbroken (unbroken : ∀ c ∈ line, (c == '\n') = false) (nonempty : line ≠ []) :
    textLines line = [line] := by
  have pieces : line.splitOn '\n' = [line] := List.splitOnP_eq_singleton unbroken
  simp only [textLines, pieces]
  rw [if_neg]
  simpa using nonempty

theorem source_lines_cons (nonempty : text ≠ []) : sourceLines text = trim (lineOf text) :: sourceLines (afterLine text) := by
  have unbroken := line_no_break text
  rcases line_cases text with broken | ⟨whole, last⟩
  · have pieces : (lineOf text).splitOn '\n' = [lineOf text] := List.splitOnP_eq_singleton unbroken
    conv => lhs; rw [broken]
    rw [sourceLines, text_lines_break, pieces]
    rfl
  · rw [whole] at unbroken
    rw [sourceLines, text_lines_unbroken text unbroken nonempty, whole, last]
    rfl

def Boundary (done rest : List Char) : Prop :=
  rest = [] ∨ ∀ text, sourceLines (done ++ text) = sourceLines done ++ sourceLines text

theorem boundary_start (rest : List Char) : Boundary [] rest := .inr fun _ => rfl

theorem boundary_next (done rest : List Char) (boundary : Boundary done rest) (more : rest ≠ []) :
    ∃ line, rest = line ++ afterLine rest ∧ line ≠ [] ∧ Boundary (done ++ line) (afterLine rest) ∧
      sourceLines (done ++ line) = sourceLines done ++ [trim (lineOf rest)] := by
  have adds := boundary.resolve_left more
  rcases line_cases rest with broken | ⟨whole, last⟩
  · have pieces : (lineOf rest).splitOn '\n' = [lineOf rest] := List.splitOnP_eq_singleton (line_no_break rest)
    have one : ∀ text, sourceLines (lineOf rest ++ '\n' :: text) = trim (lineOf rest) :: sourceLines text := by
      intro text
      rw [sourceLines, text_lines_break, pieces]
      rfl
    have after : ∀ text, sourceLines (done ++ (lineOf rest ++ ['\n']) ++ text) =
        sourceLines done ++ trim (lineOf rest) :: sourceLines text := by
      intro text
      rw [List.append_assoc, adds, List.append_assoc]
      exact congrArg _ (one text)
    have alone : sourceLines (done ++ (lineOf rest ++ ['\n'])) = sourceLines done ++ [trim (lineOf rest)] := by
      have empty := after []
      rwa [List.append_nil] at empty
    refine ⟨lineOf rest ++ ['\n'], ?_, by simp, .inr fun text => ?_, alone⟩
    · rw [List.append_assoc]
      exact broken
    · rw [after, alone, List.append_assoc]
      rfl
  · refine ⟨rest, by rw [last, List.append_nil], more, .inl last, ?_⟩
    rw [adds, source_lines_cons rest more, last]
    rfl

theorem trim_solid (head : ∀ c, text.head? = some c → isWhitespace c = false)
    (last : ∀ c, text.getLast? = some c → isWhitespace c = false) : trim text = text := by
  have front : text.dropWhile isWhitespace = text := by
    cases text with
    | nil => rfl
    | cons c rest => rw [List.dropWhile_cons, head c rfl, if_neg Bool.false_ne_true]
  rw [trim, front, List.rdropWhile_eq_self_iff]
  intro nonempty blank
  rw [last _ (List.getLast?_eq_some_getLast nonempty)] at blank
  exact Bool.false_ne_true blank

theorem trim_blank_head (c : Char) (rest : List Char) (blank : isWhitespace c = true) :
    (trim (c :: rest)).length < (c :: rest).length := by
  have same : trim (c :: rest) = trim rest := by
    rw [trim, trim, List.dropWhile_cons, if_pos blank]
  have bound := trim_length rest
  rw [same, List.length_cons]
  omega

theorem ends_word_eq (word rest : List Char) (dropped : (trim text).dropPrefix? word = some rest) :
    endsWord rest = (rest == [] || decide ((trim rest).length < rest.length)) := by
  cases rest with
  | nil => rfl
  | cons c tail =>
      rw [endsWord, List.head?_cons, Option.all_some, beq_eq_false_iff_ne.mpr (List.cons_ne_nil c tail), Bool.false_or]
      by_cases blank : isWhitespace c = true
      · rw [blank, decide_eq_true (trim_blank_head c tail blank)]
      · obtain ⟨front, split, _⟩ := List.dropPrefix?_eq_some_iff.mp dropped
        have solid : trim (c :: tail) = c :: tail := by
          apply trim_solid
          · intro d head
            cases head
            exact Bool.eq_false_iff.mpr blank
          · intro d last
            apply trim_last text d
            rw [split, List.getLast?_append_of_ne_nil _ (List.cons_ne_nil c tail), last]
        rw [solid, Bool.eq_false_iff.mpr blank, decide_eq_false (Nat.lt_irrefl _)]

theorem is_go_build_eq : isGoBuild (trim text) = isGoBuildComment (trim text) := by
  rw [isGoBuild, isGoBuildComment]
  cases dropped : (trim text).dropPrefix? "//go:build".toList with
  | none => rfl
  | some rest => exact ends_word_eq text _ rest dropped

def goBuildFrom (open_ : Bool) (lines : List (List Char)) : List (List Char) :=
  ((commentLines open_ lines).filter fun entry => !entry.2 && isGoBuildComment entry.1).map Prod.fst

def goBuildHere (open_ : Bool) (line : List Char) : Bool := !open_ && isGoBuildComment line

theorem go_build_from_cons (line : List Char) (rest : List (List Char)) : goBuildFrom open_ (line :: rest) =
      (if goBuildHere open_ line then [line] else []) ++ (commentAfter open_ line).elim [] (goBuildFrom · rest) := by
  have same : (!(line, open_).2 && isGoBuildComment (line, open_).1) = goBuildHere open_ line := rfl
  rw [goBuildFrom, commentLines, List.filter_cons, same]
  by_cases here : goBuildHere open_ line = true
  · rw [if_pos here, if_pos here]
    cases commentAfter open_ line <;> rfl
  · rw [if_neg here, if_neg here]
    cases commentAfter open_ line <;> rfl

theorem scan_trimmed (text : List Char) : scanLine (trim text).length open_ (trim text) = commentAfter open_ (trim text) :=
  scan_line_eq _ open_ (trim text) (Nat.le_refl _) fun _ c rest trimmed => trim_head text c rest trimmed

section Turn

variable (size fuel : Nat) (header : Header) (rest : List Char) (more : rest ≠ [])

include more

theorem header_blank (blank : trim (lineOf rest) = []) (going : header.ended = false) :
    headerLines size (fuel + 1) header rest =
      headerLines size fuel { header with end_ := size - (afterLine rest).length } (afterLine rest) := by
  rw [headerLines, if_neg more]
  simp only
  rw [if_pos]
  · rfl
  · have empty : trim (rest.takeWhile (· != '\n')) = [] := blank
    rw [going, decide_eq_true empty]
    rfl

def Header.see (header : Header) (line : List Char) : Header :=
  { header with
    ended := header.ended || !isLineComment line
    goBuild := if goBuildHere header.inBlockComment line then some line else header.goBuild }

theorem header_line (seen : trim (lineOf rest) ≠ [] ∨ header.ended = true) :
    headerLines size (fuel + 1) header rest =
      if goBuildHere header.inBlockComment (trim (lineOf rest)) && header.goBuild.isSome then .error .multipleGoBuild
      else
        (commentAfter header.inBlockComment (trim (lineOf rest))).elim (.ok (header.see (trim (lineOf rest))))
          fun open_ => headerLines size fuel { header.see (trim (lineOf rest)) with inBlockComment := open_ } (afterLine rest) := by
  have notBlank : ¬ (decide (trim (rest.takeWhile (· != '\n')) = []) && !header.ended) = true := by
    rcases seen with line | ended
    · have filled : trim (rest.takeWhile (· != '\n')) ≠ [] := line
      rw [decide_eq_false filled]
      exact Bool.false_ne_true
    · rw [ended, Bool.not_true, Bool.and_false]
      exact Bool.false_ne_true
  have build : (!header.inBlockComment && isGoBuild (trim (lineOf rest))) = goBuildHere header.inBlockComment (trim (lineOf rest)) := by
    rw [is_go_build_eq]
    rfl
  rw [headerLines, if_neg more]
  refine (if_neg notBlank).trans ?_
  simp only [lineOf] at build ⊢
  rw [build, scan_trimmed]
  by_cases several : (goBuildHere header.inBlockComment (trim (rest.takeWhile (· != '\n'))) && header.goBuild.isSome) = true
  · rw [if_pos several]
    exact (if_pos several).symm
  · rw [if_neg several]
    refine Eq.trans ?_ (if_neg several).symm
    cases commentAfter header.inBlockComment (trim (rest.takeWhile (· != '\n'))) <;> rfl

end Turn

theorem ended_keeps_end {size fuel : Nat} : ∀ (header : Header) (rest : List Char) (result : Header),
    header.ended = true → headerLines size fuel header rest = .ok result → result.end_ = header.end_ := by
  induction fuel with
  | zero =>
      intro header rest result _ ran
      cases ran
      rfl
  | succ fuel hypothesis =>
      intro header rest result ended ran
      by_cases more : rest = []
      · rw [headerLines, if_pos more] at ran
        cases ran
        rfl
      · rw [header_line size fuel header rest more (.inr ended)] at ran
        split at ran
        · cases ran
        · cases after : commentAfter header.inBlockComment (trim (lineOf rest)) with
          | none =>
              rw [after] at ran
              cases ran
              rfl
          | some open_ =>
              rw [after] at ran
              have stillEnded : (header.see (trim (lineOf rest))).ended = true := by
                rw [Header.see, ended, Bool.true_or]
              exact hypothesis { header.see (trim (lineOf rest)) with inBlockComment := open_ } _ result stillEnded ran

def isLeading (line : List Char) : Bool := line == [] || isLineComment line

theorem rdrop_blank (lines : List (List Char)) : (lines ++ [[]]).rdropWhile (· != []) = lines ++ [[]] :=
  List.rdropWhile_concat_neg _ _ _ (by simp)

theorem rdrop_filled (lines : List (List Char)) (line : List Char) (filled : line ≠ []) :
    (lines ++ [line]).rdropWhile (· != []) = lines.rdropWhile (· != []) :=
  List.rdropWhile_concat_pos _ _ _ (by simpa using filled)

theorem comment_after_comment (comment : isLineComment line = true) : commentAfter false line = some false := by
  obtain ⟨text, rfl⟩ := List.isPrefixOf_iff_prefix.mp comment
  exact run_line text

variable (content : List Char)

theorem header_region (fuel : Nat) : ∀ (header : Header) (done rest : List Char) (result : Header),
    content = done ++ rest → Boundary done rest → rest.length ≤ fuel → header.ended = false → header.inBlockComment = false →
    sourceLines (content.take header.end_) = (sourceLines done).rdropWhile (· != []) →
    headerLines content.length fuel header rest = .ok result →
    sourceLines (content.take result.end_) =
      (sourceLines done ++ (sourceLines rest).takeWhile isLeading).rdropWhile (· != []) := by
  induction fuel with
  | zero =>
      intro header done rest result _ _ enough _ _ region ran
      rw [List.eq_nil_of_length_eq_zero (Nat.le_zero.mp enough)]
      cases ran
      rw [region]
      exact congrArg _ (List.append_nil _).symm
  | succ fuel hypothesis =>
      intro header done rest result whole boundary enough going outside region ran
      by_cases more : rest = []
      · rw [headerLines, if_pos more] at ran
        cases ran
        rw [more, region]
        exact congrArg _ (List.append_nil _).symm
      · obtain ⟨raw, split, filled, nextBoundary, adds⟩ := boundary_next done rest boundary more
        have lengths : rest.length = raw.length + (afterLine rest).length := by
          rw [← List.length_append, ← split]
        have positive := List.length_pos_of_ne_nil filled
        have nextWhole : content = (done ++ raw) ++ afterLine rest := by
          rw [List.append_assoc, ← split, whole]
        rw [source_lines_cons rest more]
        by_cases blank : trim (lineOf rest) = []
        · rw [header_blank content.length fuel header rest more blank going] at ran
          rw [blank] at adds ⊢
          have front : content.take (content.length - (afterLine rest).length) = done ++ raw := by
            have size : content.length - (afterLine rest).length = (done ++ raw).length := by
              rw [nextWhole, List.length_append, Nat.add_sub_cancel]
            rw [size, nextWhole, List.take_left]
          have after := hypothesis { header with end_ := content.length - (afterLine rest).length }
            (done ++ raw) (afterLine rest) result nextWhole nextBoundary (by omega) going outside
            (by rw [front, adds, rdrop_blank]) ran
          rw [after, adds, List.append_assoc]
          rfl
        · rw [header_line content.length fuel header rest more (.inl blank)] at ran
          rw [outside] at ran
          split at ran
          · cases ran
          · by_cases comment : isLineComment (trim (lineOf rest)) = true
            · rw [comment_after_comment _ comment] at ran
              have stillGoing : (header.see (trim (lineOf rest))).ended = false := by
                rw [Header.see, going, comment]
                rfl
              have after := hypothesis { header.see (trim (lineOf rest)) with inBlockComment := false } (done ++ raw)
                (afterLine rest) result nextWhole nextBoundary (by omega) stillGoing rfl
                (by rw [adds, rdrop_filled _ _ blank]; exact region) ran
              have leading : isLeading (trim (lineOf rest)) = true := by rw [isLeading, comment, Bool.or_true]
              rw [after, adds, List.takeWhile_cons, if_pos leading, List.append_assoc]
              rfl
            · have stops : isLeading (trim (lineOf rest)) = false := by
                rw [isLeading, Bool.eq_false_iff.mpr comment, Bool.or_false]
                exact beq_eq_false_iff_ne.mpr blank
              have ended : (header.see (trim (lineOf rest))).ended = true := by
                rw [Header.see, Bool.eq_false_iff.mpr comment, Bool.not_false, Bool.or_true]
              rw [List.takeWhile_cons, stops, if_neg Bool.false_ne_true, List.append_nil, ← region]
              cases after : commentAfter false (trim (lineOf rest)) with
              | none =>
                  rw [after] at ran
                  cases ran
                  rfl
              | some open_ =>
                  rw [after] at ran
                  have kept := ended_keeps_end
                    { header.see (trim (lineOf rest)) with inBlockComment := open_ } _ result ended ran
                  rw [kept]
                  rfl

def Header.found (header : Header) (rest : List Char) : List (List Char) :=
  header.goBuild.toList ++ goBuildFrom header.inBlockComment (sourceLines rest)

theorem go_build_none : goBuildFrom open_ (sourceLines []) = [] := rfl

theorem blank_no_build : goBuildHere open_ [] = false := by cases open_ <;> rfl

theorem header_go_build (size : Nat) {fuel : Nat} : ∀ (header : Header) (rest : List Char), rest.length ≤ fuel →
    (header.ended = false → header.inBlockComment = false) →
    (2 ≤ (header.found rest).length → headerLines size fuel header rest = .error .multipleGoBuild) ∧
    ((header.found rest).length ≤ 1 → ∃ result, headerLines size fuel header rest = .ok result ∧
      result.goBuild.toList = header.found rest) := by
  have stop : ∀ header : Header, (2 ≤ (header.found []).length → False) ∧ header.goBuild.toList = header.found [] := by
    intro header
    rw [Header.found, go_build_none, List.append_nil]
    refine ⟨?_, rfl⟩
    cases header.goBuild <;> simp
  induction fuel with
  | zero =>
      intro header rest enough _
      rw [List.eq_nil_of_length_eq_zero (Nat.le_zero.mp enough)]
      exact ⟨fun many => ((stop header).1 many).elim, fun _ => ⟨header, rfl, (stop header).2⟩⟩
  | succ fuel hypothesis =>
      intro header rest enough outside
      by_cases more : rest = []
      · subst more
        exact ⟨fun many => ((stop header).1 many).elim, fun _ => ⟨header, by rw [headerLines, if_pos rfl], (stop header).2⟩⟩
      · have shorter : (afterLine rest).length ≤ fuel := by
          obtain ⟨raw, split, filled, _⟩ := boundary_next [] rest (boundary_start rest) more
          have lengths := congrArg List.length split
          have positive := List.length_pos_of_ne_nil filled
          rw [List.length_append] at lengths
          omega
        have found : header.found rest = header.goBuild.toList ++
            ((if goBuildHere header.inBlockComment (trim (lineOf rest)) then [trim (lineOf rest)] else []) ++
              (commentAfter header.inBlockComment (trim (lineOf rest))).elim [] (goBuildFrom · (sourceLines (afterLine rest)))) := by
          rw [Header.found, source_lines_cons rest more, go_build_from_cons]
        by_cases skipped : trim (lineOf rest) = [] ∧ header.ended = false
        · rw [header_blank size fuel header rest more skipped.1 skipped.2]
          have same : header.found rest = Header.found { header with end_ := size - (afterLine rest).length } (afterLine rest) := by
            rw [found, skipped.1, blank_no_build, outside skipped.2]
            rfl
          rw [same]
          exact hypothesis _ (afterLine rest) shorter outside
        · have seen : trim (lineOf rest) ≠ [] ∨ header.ended = true := by
            by_cases blank : trim (lineOf rest) = []
            · exact .inr (Bool.of_not_eq_false fun going => skipped ⟨blank, going⟩)
            · exact .inl blank
          rw [header_line size fuel header rest more seen, found]
          by_cases several : (goBuildHere header.inBlockComment (trim (lineOf rest)) && header.goBuild.isSome) = true
          · have both := Bool.and_eq_true_iff.mp several
            obtain ⟨first, had⟩ := Option.isSome_iff_exists.mp both.2
            rw [if_pos several, both.1, if_pos rfl, had]
            refine ⟨fun _ => rfl, fun one => ?_⟩
            simp only [Option.toList_some, List.length_append, List.length_singleton] at one
            omega
          · have kept : ∀ tail, (header.see (trim (lineOf rest))).goBuild.toList ++ tail = header.goBuild.toList ++
                ((if goBuildHere header.inBlockComment (trim (lineOf rest)) then [trim (lineOf rest)] else []) ++ tail) := by
              intro tail
              rw [Header.see]
              by_cases here : goBuildHere header.inBlockComment (trim (lineOf rest)) = true
              · have none_ : header.goBuild = none := by
                  cases had : header.goBuild with
                  | none => rfl
                  | some first => exact absurd (by rw [here, had]; rfl) several
                rw [if_pos here, if_pos here, none_]
                rfl
              · rw [if_neg here, if_neg here]
                rfl
            rw [if_neg several, ← kept]
            cases after : commentAfter header.inBlockComment (trim (lineOf rest)) with
            | none =>
                have last := stop (header.see (trim (lineOf rest)))
                rw [Header.found, go_build_none] at last
                exact ⟨fun many => (last.1 many).elim, fun _ => ⟨_, rfl, last.2⟩⟩
            | some open_ =>
                refine hypothesis { header.see (trim (lineOf rest)) with inBlockComment := open_ } (afterLine rest) shorter ?_
                intro going
                have both := Bool.or_eq_false_iff.mp going
                have comment : isLineComment (trim (lineOf rest)) = true := by simpa using both.2
                rw [outside both.1, comment_after_comment _ comment] at after
                exact (Option.some.inj after).symm

theorem file_header_several (several : 2 ≤ (goBuildLines content).length) : fileHeader content = .error .multipleGoBuild := by
  have failed := (header_go_build content.length ⟨0, false, false, none⟩ content (Nat.le_refl _) fun _ => rfl).1 several
  rw [fileHeader, failed]
  rfl

theorem file_header_one (one : (goBuildLines content).length ≤ 1) :
    ∃ header, fileHeader content = .ok (header, (goBuildLines content).head?) ∧ sourceLines header = plusBuildRegion content := by
  obtain ⟨result, ran, found⟩ :=
    (header_go_build content.length ⟨0, false, false, none⟩ content (Nat.le_refl _) fun _ => rfl).2 one
  have region := header_region content content.length ⟨0, false, false, none⟩ [] content result rfl (boundary_start content)
    (Nat.le_refl _) rfl rfl rfl ran
  have head : result.goBuild = (goBuildLines content).head? := by
    have same : result.goBuild.toList = goBuildLines content := found
    rw [← same]
    cases result.goBuild <;> rfl
  refine ⟨content.take result.end_, ?_, region⟩
  rw [fileHeader, ran, ← head]
  rfl

end Filefacts.Constraint
