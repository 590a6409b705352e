import Filefacts.Html.Tokenizer

set_option autoImplicit false

namespace Filefacts.Html

open Filefacts.Bytes (ascii isAsciiAlphabetic toAsciiLower eqIgnoreAsciiCase)
open Filefacts.Scanner (Leaves)

def tail (page : List UInt8) (start : Nat) : List UInt8 := page.drop start

def span (page : List UInt8) (start stop : Nat) : List UInt8 := (Bytes.get page start stop).getD []

def memchr (needle : UInt8) (haystack : List UInt8) : Option Nat := haystack.findIdx? fun b => b = needle

def isEndTag (page : List UInt8) (start : Nat) (name : List UInt8) : Bool :=
  let nameEnd := start + 2 + name.length
  (ascii "</").isPrefixOf (tail page start) &&
    (Bytes.get page (start + 2) nameEnd).any (fun candidate => eqIgnoreAsciiCase candidate name) && page[nameEnd]?.all endsName

def namesScript (page : List UInt8) (start : Nat) : Option Nat :=
  let len := ((tail page start).takeWhile isAsciiAlphabetic).length
  if eqIgnoreAsciiCase (span page start (start + len)) script && page[start + len]?.any endsName then some (start + len + 1)
  else none

inductive ScriptData where
  | plain
  | escaped
  | escapedDash
  | escapedDashDash
  | doubleEscaped
  | doubleEscapedDash
  | doubleEscapedDashDash
  deriving DecidableEq, Repr

inductive Step where
  | ended (offset : Nat)
  | goesOn (state : ScriptData) (offset : Nat)
  deriving DecidableEq, Repr

def plainStep (page : List UInt8) (i : Nat) : Step :=
  if isEndTag page i script then .ended i
  else if (ascii "<!--").isPrefixOf (tail page i) then .goesOn .escapedDashDash (i + 4)
  else .goesOn .plain (i + 1)

def escapedLess (page : List UInt8) (i : Nat) : Step :=
  if isEndTag page i script then .ended i
  else
    match namesScript page (i + 1) with
    | some after => .goesOn .doubleEscaped after
    | none => .goesOn .escaped (i + 1)

def doubleEscapedLess (page : List UInt8) (i : Nat) : Step :=
  match if page[i + 1]? = some 47 then namesScript page (i + 2) else none with
  | some after => .goesOn .escaped after
  | none => .goesOn .doubleEscaped (i + 1)

def step (page : List UInt8) (state : ScriptData) (i : Nat) (b : UInt8) : Step :=
  match state with
  | .plain => plainStep page i
  | .escaped =>
      if b = 60 then escapedLess page i else if b = 45 then .goesOn .escapedDash (i + 1) else .goesOn .escaped (i + 1)
  | .escapedDash =>
      if b = 60 then escapedLess page i else if b = 45 then .goesOn .escapedDashDash (i + 1) else .goesOn .escaped (i + 1)
  | .escapedDashDash =>
      if b = 60 then escapedLess page i
      else if b = 45 then .goesOn .escapedDashDash (i + 1)
      else if b = 62 then .goesOn .plain (i + 1)
      else .goesOn .escaped (i + 1)
  | .doubleEscaped =>
      if b = 60 then doubleEscapedLess page i
      else if b = 45 then .goesOn .doubleEscapedDash (i + 1)
      else .goesOn .doubleEscaped (i + 1)
  | .doubleEscapedDash =>
      if b = 60 then doubleEscapedLess page i
      else if b = 45 then .goesOn .doubleEscapedDashDash (i + 1)
      else .goesOn .doubleEscaped (i + 1)
  | .doubleEscapedDashDash =>
      if b = 60 then doubleEscapedLess page i
      else if b = 45 then .goesOn .doubleEscapedDashDash (i + 1)
      else if b = 62 then .goesOn .plain (i + 1)
      else .goesOn .doubleEscaped (i + 1)

-- The loop; every round moves on by at least one octet.
def scriptEndFrom (page : List UInt8) : Nat → ScriptData → Nat → Option Nat
  | 0, _, _ => none
  | fuel + 1, state, i =>
      match if state = .plain then (memchr 60 (tail page i)).map (i + ·) else some i with
      | none => none
      | some i =>
          match page[i]? with
          | none => none
          | some b =>
              match step page state i b with
              | .ended offset => some offset
              | .goesOn state after => scriptEndFrom page fuel state after

def htmlScriptEnd (page : List UInt8) (start : Nat) : Option Nat := scriptEndFrom page (page.length + 1) .plain start

def ScriptData.tokenizer : ScriptData → TokenizerState
  | .plain => .scriptData
  | .escaped => .escaped
  | .escapedDash => .escapedDash
  | .escapedDashDash => .escapedDashDash
  | .doubleEscaped => .doubleEscaped
  | .doubleEscapedDash => .doubleEscapedDash
  | .doubleEscapedDashDash => .doubleEscapedDashDash

def Unfinished (page : List UInt8) (start : Nat) : Prop :=
  ∃ name, page.drop start = 60 :: 47 :: name ∧ name.map toAsciiLower = script

variable (b : UInt8) (page : List UInt8) (pos : Nat) (name : List UInt8) (state : ScriptData)

theorem letter_not_delimiter (letter : isAsciiAlphabetic b = true) :
    b ≠ 33 ∧ b ≠ 45 ∧ b ≠ 47 ∧ b ≠ 60 ∧ b ≠ 62 ∧ endsName b = false := by
  have no : ∀ other : UInt8, isAsciiAlphabetic other = false → b ≠ other := fun other not_ same => by
    rw [same, not_] at letter
    cases letter
  refine ⟨no 33 rfl, no 45 rfl, no 47 rfl, no 60 rfl, no 62 rfl, ?_⟩
  simp only [endsName, isTagSpace, Bool.or_eq_false_iff, decide_eq_false_iff_not]
  exact ⟨⟨⟨⟨⟨⟨no 9 rfl, no 10 rfl⟩, no 12 rfl⟩, no 13 rfl⟩, no 32 rfl⟩, no 47 rfl⟩, no 62 rfl⟩

theorem delimiter_plain (ends : endsName b = true) : b ≠ 45 ∧ b ≠ 60 ∧ isAsciiAlphabetic b = false := by
  have no : ∀ other : UInt8, endsName other = false → b ≠ other := fun other not_ same => by
    rw [same, not_] at ends
    cases ends
  refine ⟨no 45 rfl, no 60 rfl, ?_⟩
  by_cases letter : isAsciiAlphabetic b = true
  · rw [(letter_not_delimiter b letter).2.2.2.2.2] at ends
    cases ends
  · exact Bool.eq_false_iff.mpr letter

theorem end_tag_names (start : Nat) : NameStates (.endTagName start) .scriptData := by
  refine ⟨fun pos held b letter => ?_, fun pos b letter => ?_, fun pos held b other refused => Or.inl ?_⟩
  · have plain := letter_not_delimiter b letter
    simp only [next, plain, letter, Bool.false_eq_true, false_and, if_false, if_true]
  · simp only [next, if_neg (letter_not_delimiter b letter).2.2.2.1]
  · simp only [next, if_neg refused, other, Bool.false_eq_true, if_false]

theorem escaped_end_tag_names (start : Nat) : NameStates (.escapedEndTagName start) .escaped := by
  refine ⟨fun pos held b letter => ?_, fun pos b letter => ?_, fun pos held b other refused => Or.inl ?_⟩
  · have plain := letter_not_delimiter b letter
    simp only [next, plain, letter, Bool.false_eq_true, false_and, if_false, if_true]
  · have plain := letter_not_delimiter b letter
    simp only [next, if_neg plain.2.1, if_neg plain.2.2.2.1]
  · simp only [next, if_neg refused, other, Bool.false_eq_true, if_false]

theorem double_escape_names :
    NameStates .doubleEscapeStart .escaped ∧ NameStates .doubleEscapeEnd .doubleEscaped := by
  constructor
  all_goals
    refine ⟨fun pos held b letter => ?_, fun pos b letter => ?_, fun pos held b other refused => ?_⟩
    · have plain := letter_not_delimiter b letter
      simp only [next, plain, letter, Bool.false_eq_true, if_false, if_true]
    · have plain := letter_not_delimiter b letter
      simp only [next, if_neg plain.2.1, if_neg plain.2.2.2.1]
    · by_cases ends : endsName b = true
      · have plain := delimiter_plain b ends
        have name : ¬ held = script := fun same => refused ⟨ends, same⟩
        exact Or.inr ⟨by simp only [next, if_pos ends, if_neg name], by simp only [next, if_neg plain.1, if_neg plain.2.1]⟩
      · exact Or.inl (by simp only [next, if_neg ends, other, Bool.false_eq_true, if_false])

theorem name_at_window : (page.drop pos).take (nameAt page pos).length = nameAt page pos := by
  rw [name_drop, List.take_left]

theorem name_at_eq (pos : Nat) (window : (page.drop pos).take name.length = name)
    (letters : ∀ b ∈ name, isAsciiAlphabetic b = true)
    (ends : ∀ b, page[pos + name.length]? = some b → isAsciiAlphabetic b = false) : nameAt page pos = name := by
  have split : page.drop pos = name ++ page.drop (pos + name.length) := by
    rw [← List.drop_drop]
    nth_rewrite 1 [← List.take_append_drop name.length (page.drop pos)]
    rw [window]
  unfold nameAt
  rw [split, List.takeWhile_append_of_pos letters]
  cases rest : page.drop (pos + name.length) with
  | nil => rw [List.takeWhile_nil, List.append_nil]
  | cons b others =>
      have read : page[pos + name.length]? = some b := by rw [← List.head?_drop, rest, List.head?_cons]
      rw [List.takeWhile_cons_of_neg (by rw [ends b read]; exact Bool.false_ne_true), List.append_nil]

theorem get_window (start count : Nat) (bytes : List UInt8) :
    Bytes.get page start (start + count) = some bytes ↔ (page.drop start).take count = bytes ∧ start + count ≤ page.length := by
  unfold Bytes.get
  by_cases fits : start ≤ start + count ∧ start + count ≤ page.length
  · rw [if_pos fits, Nat.add_sub_cancel_left, Option.some.injEq]
    exact ⟨fun same => ⟨same, fits.2⟩, fun both => both.1⟩
  · rw [if_neg fits]
    exact ⟨fun none => (by cases none), fun both => absurd ⟨Nat.le_add_right _ _, both.2⟩ fits⟩

theorem script_name_length (same : name.map toAsciiLower = script) : name.length = 6 := by
  have lengths := congrArg List.length same
  rwa [List.length_map] at lengths

theorem starts_cons (pattern page : List UInt8) (start : Nat) : (b :: pattern).isPrefixOf (page.drop start) = true ↔
      page[start]? = some b ∧ pattern.isPrefixOf (page.drop (start + 1)) = true := by
  rw [← List.head?_drop, ← List.drop_drop]
  cases page.drop start with
  | nil => exact ⟨fun none => (by cases none), fun none => (by cases none.1)⟩
  | cons first rest =>
      rw [List.isPrefixOf_cons_cons, Bool.and_eq_true, beq_iff_eq, List.head?_cons, Option.some.injEq, List.drop_one, List.tail_cons]
      exact and_congr_left fun _ => eq_comm

theorem starts_end_tag (start : Nat) :
    (ascii "</").isPrefixOf (page.drop start) = true ↔ page[start]? = some 60 ∧ page[start + 1]? = some 47 := by
  rw [show ascii "</" = [60, 47] from rfl, starts_cons, starts_cons]
  exact and_congr_right fun _ => and_iff_left rfl

theorem starts_comment (start : Nat) : (ascii "<!--").isPrefixOf (page.drop start) = true ↔
      page[start]? = some 60 ∧ page[start + 1]? = some 33 ∧ page[start + 2]? = some 45 ∧ page[start + 3]? = some 45 := by
  rw [show ascii "<!--" = [60, 33, 45, 45] from rfl, starts_cons, starts_cons, starts_cons, starts_cons]
  exact and_congr_right fun _ => and_congr_right fun _ => and_congr_right fun _ => and_iff_left rfl

theorem letter_lower : isAsciiAlphabetic (toAsciiLower b) = isAsciiAlphabetic b := by
  have table : ∀ b : Fin 256, isAsciiAlphabetic (toAsciiLower (UInt8.ofNat b)) = isAsciiAlphabetic (UInt8.ofNat b) := by decide +kernel
  have here := table ⟨b.toNat, UInt8.toNat_lt b⟩
  rwa [UInt8.ofNat_toNat] at here

theorem named_end_tag_iff (start : Nat) (letters : ∀ b ∈ name, isAsciiAlphabetic b = true) :
    isEndTag page start name = true ↔ page[start]? = some 60 ∧ page[start + 1]? = some 47 ∧
      (nameAt page (start + 2)).map toAsciiLower = name.map toAsciiLower ∧ page[start + 2 + name.length]?.all endsName = true := by
  unfold isEndTag tail
  rw [Bool.and_eq_true, Bool.and_eq_true, starts_end_tag, Option.any_eq_true]
  have lettersOf : ∀ other : List UInt8, other.map toAsciiLower = name.map toAsciiLower → ∀ b ∈ other, isAsciiAlphabetic b = true := by
    intro other same b member
    have lowered : toAsciiLower b ∈ name.map toAsciiLower := same ▸ List.mem_map_of_mem member
    obtain ⟨c, inside, is⟩ := List.mem_map.mp lowered
    rw [← letter_lower, ← is, letter_lower]
    exact letters c inside
  have lengthOf : ∀ other : List UInt8, other.map toAsciiLower = name.map toAsciiLower → other.length = name.length := by
    intro other same
    have lengths := congrArg List.length same
    rwa [List.length_map, List.length_map] at lengths
  constructor
  · intro ⟨⟨opened, candidate, window, same⟩, ends⟩
    obtain ⟨taken, _⟩ := (get_window page (start + 2) name.length candidate).mp window
    have lower : candidate.map toAsciiLower = name.map toAsciiLower := of_decide_eq_true same
    have length := lengthOf candidate lower
    have found : nameAt page (start + 2) = candidate := by
      apply name_at_eq page candidate (start + 2) (by rw [length]; exact taken)
      · exact lettersOf candidate lower
      · intro b read
        rw [length] at read
        rw [read, Option.all_some] at ends
        exact (delimiter_plain b ends).2.2
    exact ⟨opened.1, opened.2, found ▸ lower, ends⟩
  · intro ⟨first, second, lower, ends⟩
    have length := lengthOf _ lower
    have window := name_at_window page (start + 2)
    rw [length] at window
    have secondInside := (List.getElem?_eq_some_iff.mp second).choose
    have inside := congrArg List.length window
    rw [length, List.length_take, List.length_drop] at inside
    refine ⟨⟨⟨first, second⟩, nameAt page (start + 2), (get_window page _ name.length _).mpr ⟨window, by omega⟩, ?_⟩, ends⟩
    exact decide_eq_true lower

theorem is_end_tag_iff (start : Nat) :
    isEndTag page start script = true ↔ page[start]? = some 60 ∧ page[start + 1]? = some 47 ∧
      (nameAt page (start + 2)).map toAsciiLower = script ∧ page[start + 2 + 6]?.all endsName = true :=
  named_end_tag_iff page script start (by decide +kernel)

theorem names_script_iff (start after : Nat) :
    namesScript page start = some after ↔ ScriptName page start ∧ after = start + (nameAt page start).length + 1 := by
  have read : span page start (start + (nameAt page start).length) = nameAt page start := by
    have window := name_at_window page start
    have inside := congrArg List.length window
    rw [List.length_take, List.length_drop] at inside
    unfold span
    by_cases empty : (nameAt page start).length = 0
    · have none := List.eq_nil_of_length_eq_zero empty
      rw [none, List.length_nil, Nat.add_zero]
      unfold Bytes.get
      split
      · rw [Option.getD_some, Nat.sub_self, List.take_zero]
      · rfl
    · rw [(get_window page start _ _).mpr ⟨window, by omega⟩, Option.getD_some]
  change (if (eqIgnoreAsciiCase (span page start (start + (nameAt page start).length)) script &&
      page[start + (nameAt page start).length]?.any endsName) = true then some (start + (nameAt page start).length + 1)
    else none) = some after ↔ _
  rw [read, Option.ite_none_right_eq_some, Option.some.injEq, Bool.and_eq_true, Option.any_eq_true]
  refine and_congr (and_congr ?_ ?_) eq_comm
  · rw [eqIgnoreAsciiCase, decide_eq_true_iff]
    exact Iff.rfl
  · exact Iff.rfl

-- What a round of the loop has to do with the machine: where it goes on the machine is as well off, and where it ends the
-- machine leaves there or the page is over first.
def Simulates (page : List UInt8) (state : ScriptData) (i : Nat) : Step → Prop
  | .goesOn state' j => i < j ∧ ∀ tag, Leaves next page state.tokenizer i tag ↔ Leaves next page state'.tokenizer j tag
  | .ended offset => offset = i ∧
      ((∀ tag, Leaves next page state.tokenizer i tag ↔ tag = i) ∨
        (Unfinished page i ∧ ∀ tag, ¬ Leaves next page state.tokenizer i tag))

variable {start : Nat} {states : List UInt8 → TokenizerState} {base : TokenizerState}

theorem script_end_tag (names : NameStates states base) (found : isEndTag page start script = true)
    (leave : ∀ pos b, endsName b = true → next pos (states script) b = .leave start) :
    (∀ tag, Leaves next page (states []) (start + 2) tag ↔ tag = start) ∨
      (Unfinished page start ∧ ∀ tag, ¬ Leaves next page (states []) (start + 2) tag) := by
  obtain ⟨first, second, lower, ends⟩ := (is_end_tag_iff page start).mp found
  have length := script_name_length _ lower
  have run := fun tag => name_states_run page states base (start + 2) tag names
  simp only [lower, length] at run
  cases read : page[start + 2 + 6]? with
  | some b =>
      rw [read, Option.all_some] at ends
      refine Or.inl fun tag => ?_
      rw [run tag, Scanner.leaves_leave next page _ _ tag read (leave _ b ends)]
  | none =>
      refine Or.inr ⟨⟨nameAt page (start + 2), ?_, lower⟩, fun tag => ?_⟩
      · have past : page.drop (start + 2 + 6) = [] := List.drop_eq_nil_iff.mpr (List.getElem?_eq_none_iff.mp read)
        have rest : page.drop (start + 2) = nameAt page (start + 2) := by
          have window := name_at_window page (start + 2)
          rw [length] at window
          rw [← List.take_append_drop 6 (page.drop (start + 2)), List.drop_drop, past, List.append_nil, window]
        obtain ⟨firstInside, firstIs⟩ := List.getElem?_eq_some_iff.mp first
        obtain ⟨secondInside, secondIs⟩ := List.getElem?_eq_some_iff.mp second
        rw [List.drop_eq_getElem_cons firstInside, List.drop_eq_getElem_cons secondInside, firstIs, secondIs, rest]
      · rw [run tag]
        exact Scanner.leaves_past next page _ _ tag read

theorem no_end_tag (tag : Nat)
    (names : NameStates states base) (opened : page[start]? = some 60 ∧ page[start + 1]? = some 47)
    (found : ¬ isEndTag page start script = true) :
    Leaves next page (states []) (start + 2) tag ↔ Leaves next page base (start + 2) tag := by
  apply name_states_other page states base tag names
  intro name
  obtain ⟨lower, b, read, ends⟩ := name
  rw [script_name_length _ lower] at read
  exact found ((is_end_tag_iff page start).mpr ⟨opened.1, opened.2, lower, by rw [read]; exact ends⟩)

theorem plain_skip (b : UInt8) (tag : Nat) (read : page[pos]? = some b) (plain : b ≠ 60) :
    Leaves next page .scriptData pos tag ↔ Leaves next page .scriptData (pos + 1) tag :=
  Scanner.leaves_switch next page _ _ tag read (if_neg plain)

theorem escaped_skip (b : UInt8) (tag : Nat) (read : page[pos]? = some b) (dash : b ≠ 45)
    (less : b ≠ 60) : Leaves next page .escaped pos tag ↔ Leaves next page .escaped (pos + 1) tag :=
  Scanner.leaves_switch next page _ _ tag read (by simp only [next, if_neg dash, if_neg less])

theorem double_escaped_skip (b : UInt8) (tag : Nat) (read : page[pos]? = some b) (dash : b ≠ 45)
    (less : b ≠ 60) : Leaves next page .doubleEscaped pos tag ↔ Leaves next page .doubleEscaped (pos + 1) tag :=
  Scanner.leaves_switch next page _ _ tag read (by simp only [next, if_neg dash, if_neg less])

theorem both_past (state other : TokenizerState) (pos tag : Nat) (past : page[pos]? = none) :
    Leaves next page state pos tag ↔ Leaves next page other pos tag :=
  iff_of_false (Scanner.leaves_past next page state pos tag past) (Scanner.leaves_past next page other pos tag past)

theorem tag_open {opening : TokenizerState} (states : List UInt8 → TokenizerState) (pos tag : Nat)
    (letters : ∀ pos b, isAsciiAlphabetic b = true → next pos opening b = .reconsume (states []))
    (others : ∀ pos b, isAsciiAlphabetic b = false → next pos opening b = .reconsume base)
    (empty : ∀ pos b, isAsciiAlphabetic b = false → next pos (states []) b = .reconsume base) :
    Leaves next page opening pos tag ↔ Leaves next page (states []) pos tag := by
  cases read : page[pos]? with
  | none => exact both_past page _ _ pos tag read
  | some b =>
      by_cases letter : isAsciiAlphabetic b = true
      · exact Scanner.leaves_reconsume next page _ _ pos b tag read (letters pos b letter)
      · have other := Bool.eq_false_iff.mpr letter
        rw [Scanner.leaves_reconsume next page opening base pos b tag read (others pos b other),
          Scanner.leaves_reconsume next page (states []) base pos b tag read (empty pos b other)]

theorem empty_not_script : ¬ (endsName b = true ∧ ([] : List UInt8) = script) := fun both => (by cases both.2)

theorem end_tag_open (start tag : Nat) :
    Leaves next page (.endTagOpen start) pos tag ↔ Leaves next page (.endTagName start []) pos tag := by
  apply tag_open page (.endTagName start) pos tag
  · exact fun pos b letter => if_pos letter
  · exact fun pos b other => if_neg (Bool.eq_false_iff.mp other)
  · intro pos b other
    simp only [next, if_neg (empty_not_script b), other, Bool.false_eq_true, if_false]

theorem escaped_end_tag_open (start tag : Nat) :
    Leaves next page (.escapedEndTagOpen start) pos tag ↔ Leaves next page (.escapedEndTagName start []) pos tag := by
  apply tag_open page (.escapedEndTagName start) pos tag
  · exact fun pos b letter => if_pos letter
  · exact fun pos b other => if_neg (Bool.eq_false_iff.mp other)
  · intro pos b other
    simp only [next, if_neg (empty_not_script b), other, Bool.false_eq_true, if_false]

theorem no_comment (i tag : Nat) (read : page[i]? = some 60) (bang : page[i + 1]? = some 33)
    (comment : ¬ (ascii "<!--").isPrefixOf (tail page i) = true) :
    Leaves next page .escapeStart (i + 2) tag ↔ Leaves next page .scriptData (i + 1) tag := by
  rw [plain_skip page (i + 1) 33 tag bang (by decide)]
  cases dash : page[i + 2]? with
  | none => exact both_past page _ _ _ tag dash
  | some b =>
      by_cases isDash : b = 45
      · subst isDash
        rw [Scanner.leaves_switch next page .escapeStart .escapeStartDash tag dash rfl,
          plain_skip page (i + 2) 45 tag dash (by decide)]
        cases dashDash : page[i + 3]? with
        | none => exact both_past page _ _ _ tag dashDash
        | some c =>
            have different : c ≠ 45 := fun same => by
              subst same
              exact comment ((starts_comment page i).mpr ⟨read, bang, dash, dashDash⟩)
            exact Scanner.leaves_reconsume next page .escapeStartDash .scriptData (i + 3) c tag dashDash (if_neg different)
      · exact Scanner.leaves_reconsume next page .escapeStart .scriptData (i + 2) b tag dash (if_neg isDash)

theorem plain_simulates (i : Nat) (read : page[i]? = some 60) : Simulates page .plain i (plainStep page i) := by
  have opened := fun tag => Scanner.leaves_switch next page .scriptData (.lessThanSign i) tag read rfl
  have slash := fun second : page[i + 1]? = some 47 => fun tag =>
    (Scanner.leaves_switch next page (.lessThanSign i) (.endTagOpen i) tag second rfl).trans
      (end_tag_open page (i + 2) i tag)
  unfold plainStep
  by_cases found : isEndTag page i script = true
  · rw [if_pos found]
    have second := ((is_end_tag_iff page i).mp found).2.1
    refine ⟨rfl, ?_⟩
    simp only [ScriptData.tokenizer, opened, slash second]
    exact script_end_tag page (end_tag_names i) found fun pos b ends => if_pos ⟨ends, rfl⟩
  · rw [if_neg found]
    by_cases comment : (ascii "<!--").isPrefixOf (tail page i) = true
    · rw [if_pos comment]
      obtain ⟨_, bang, dash, dashDash⟩ := (starts_comment page i).mp comment
      refine ⟨by omega, fun tag => ?_⟩
      rw [ScriptData.tokenizer, opened, Scanner.leaves_switch next page (.lessThanSign i) .escapeStart tag bang rfl,
        Scanner.leaves_switch next page .escapeStart .escapeStartDash tag dash rfl,
        Scanner.leaves_switch next page .escapeStartDash .escapedDashDash tag dashDash rfl]
      exact Iff.rfl
    · rw [if_neg comment]
      refine ⟨Nat.lt_succ_self i, fun tag => ?_⟩
      simp only [ScriptData.tokenizer]
      rw [opened]
      cases second : page[i + 1]? with
      | none => exact both_past page _ _ _ tag second
      | some b =>
          by_cases isSlash : b = 47
          · subst isSlash
            rw [slash second, no_end_tag page tag (end_tag_names i) ⟨read, second⟩ found]
            exact (plain_skip page (i + 1) 47 tag second (by decide)).symm
          · by_cases isBang : b = 33
            · subst isBang
              rw [Scanner.leaves_switch next page (.lessThanSign i) .escapeStart tag second rfl]
              exact no_comment page i tag read second comment
            · exact Scanner.leaves_reconsume next page _ _ (i + 1) b tag second (by simp only [next, if_neg isSlash, if_neg isBang])

theorem escaped_less_simulates (i : Nat)
    (opened : ∀ tag, Leaves next page state.tokenizer i tag ↔ Leaves next page (.escapedLessThanSign i) (i + 1) tag)
    (read : page[i]? = some 60) : Simulates page state i (escapedLess page i) := by
  have slash := fun second : page[i + 1]? = some 47 => fun tag =>
    (Scanner.leaves_switch next page (.escapedLessThanSign i) (.escapedEndTagOpen i) tag second rfl).trans
      (escaped_end_tag_open page (i + 2) i tag)
  have letter := fun b (second : page[i + 1]? = some b) (isLetter : isAsciiAlphabetic b = true) tag =>
    Scanner.leaves_reconsume next page (.escapedLessThanSign i) (.doubleEscapeStart []) (i + 1) b tag second
      (by simp only [next, if_neg (letter_not_delimiter b isLetter).2.2.1, if_pos isLetter])
  unfold escapedLess
  by_cases found : isEndTag page i script = true
  · rw [if_pos found]
    have second := ((is_end_tag_iff page i).mp found).2.1
    refine ⟨rfl, ?_⟩
    simp only [opened, slash second]
    exact script_end_tag page (escaped_end_tag_names i) found fun pos b ends => if_pos ⟨ends, rfl⟩
  · rw [if_neg found]
    cases nested : namesScript page (i + 1) with
    | some after =>
        obtain ⟨⟨lower, b, ends, delimiter⟩, rfl⟩ := (names_script_iff page (i + 1) after).mp nested
        have six := script_name_length _ lower
        refine ⟨by omega, fun tag => ?_⟩
        obtain ⟨first, there⟩ : ∃ first, page[i + 1]? = some first ∧ isAsciiAlphabetic first = true := by
          have whole := name_drop page (i + 1)
          cases letters : nameAt page (i + 1) with
          | nil => rw [letters] at six; cases six
          | cons first rest =>
              refine ⟨first, ?_, name_letters page (i + 1) first (by rw [letters]; exact List.mem_cons_self)⟩
              rw [← List.head?_drop, whole, letters, List.cons_append, List.head?_cons]
        rw [opened, letter first there.1 there.2, name_states_run page _ .escaped (i + 1) tag double_escape_names.1, lower]
        exact Scanner.leaves_switch next page _ .doubleEscaped tag ends (by simp only [next, if_pos delimiter, if_true])
    | none =>
        refine ⟨Nat.lt_succ_self i, fun tag => ?_⟩
        have other : ¬ ScriptName page (i + 1) := fun name => by
          rw [(names_script_iff page (i + 1) _).mpr ⟨name, rfl⟩] at nested
          cases nested
        rw [opened]
        simp only [ScriptData.tokenizer]
        cases second : page[i + 1]? with
        | none => exact both_past page _ _ _ tag second
        | some b =>
            by_cases isSlash : b = 47
            · subst isSlash
              rw [slash second, no_end_tag page tag (escaped_end_tag_names i) ⟨read, second⟩ found]
              exact (escaped_skip page (i + 1) 47 tag second (by decide) (by decide)).symm
            · by_cases isLetter : isAsciiAlphabetic b = true
              · rw [letter b second isLetter]
                exact name_states_other page _ .escaped tag double_escape_names.1 other
              · exact Scanner.leaves_reconsume next page _ .escaped (i + 1) b tag second
                  (by simp only [next, if_neg isSlash, if_neg isLetter])

theorem double_escaped_less_simulates (i : Nat)
    (opened : ∀ tag, Leaves next page state.tokenizer i tag ↔ Leaves next page .doubleEscapedLessThanSign (i + 1) tag) :
    Simulates page state i (doubleEscapedLess page i) := by
  have slash := fun (second : page[i + 1]? = some 47) tag =>
    Scanner.leaves_switch next page .doubleEscapedLessThanSign (.doubleEscapeEnd []) tag second rfl
  unfold doubleEscapedLess
  by_cases second : page[i + 1]? = some 47
  · rw [if_pos second]
    cases nested : namesScript page (i + 2) with
    | some after =>
        obtain ⟨⟨lower, b, ends, delimiter⟩, rfl⟩ := (names_script_iff page (i + 2) after).mp nested
        refine ⟨by omega, fun tag => ?_⟩
        rw [opened, slash second, name_states_run page _ .doubleEscaped (i + 2) tag double_escape_names.2, lower]
        exact Scanner.leaves_switch next page _ .escaped tag ends (by simp only [next, if_pos delimiter, if_true])
    | none =>
        refine ⟨Nat.lt_succ_self i, fun tag => ?_⟩
        have other : ¬ ScriptName page (i + 2) := fun name => by
          rw [(names_script_iff page (i + 2) _).mpr ⟨name, rfl⟩] at nested
          cases nested
        rw [opened, slash second, name_states_other page _ .doubleEscaped tag double_escape_names.2 other]
        exact (double_escaped_skip page (i + 1) 47 tag second (by decide) (by decide)).symm
  · rw [if_neg second]
    refine ⟨Nat.lt_succ_self i, fun tag => ?_⟩
    rw [opened]
    cases read : page[i + 1]? with
    | none => exact both_past page _ _ _ tag read
    | some b =>
        have different : b ≠ 47 := fun same => second (same ▸ read)
        exact Scanner.leaves_reconsume next page _ .doubleEscaped (i + 1) b tag read (if_neg different)

theorem moves_on {after : ScriptData} {i : Nat} {b : UInt8} (read : page[i]? = some b)
    (move : next i state.tokenizer b = .switch after.tokenizer) : Simulates page state i (.goesOn after (i + 1)) :=
  ⟨Nat.lt_succ_self i, fun tag => Scanner.leaves_switch next page _ _ tag read move⟩

theorem step_simulates (i : Nat) (b : UInt8) (read : page[i]? = some b)
    (found : state = .plain → b = 60) : Simulates page state i (step page state i b) := by
  by_cases less : b = 60
  · subst less
    have opened := fun (from_ : TokenizerState) after (move : next i from_ 60 = .switch after) tag =>
      Scanner.leaves_switch next page from_ after tag read move
    cases state with
    | plain => exact plain_simulates page i read
    | escaped => exact escaped_less_simulates page .escaped i (opened _ _ rfl) read
    | escapedDash => exact escaped_less_simulates page .escapedDash i (opened _ _ rfl) read
    | escapedDashDash => exact escaped_less_simulates page .escapedDashDash i (opened _ _ rfl) read
    | doubleEscaped => exact double_escaped_less_simulates page .doubleEscaped i (opened _ _ rfl)
    | doubleEscapedDash => exact double_escaped_less_simulates page .doubleEscapedDash i (opened _ _ rfl)
    | doubleEscapedDashDash => exact double_escaped_less_simulates page .doubleEscapedDashDash i (opened _ _ rfl)
  · by_cases dash : b = 45
    · subst dash
      cases state with
      | plain => exact absurd (found rfl) less
      | escaped => exact moves_on page _ read rfl
      | escapedDash => exact moves_on page _ read rfl
      | escapedDashDash => exact moves_on page _ read rfl
      | doubleEscaped => exact moves_on page _ read rfl
      | doubleEscapedDash => exact moves_on page _ read rfl
      | doubleEscapedDashDash => exact moves_on page _ read rfl
    · by_cases greater : b = 62
      · subst greater
        cases state with
        | plain => exact absurd (found rfl) less
        | escaped => exact moves_on page _ read rfl
        | escapedDash => exact moves_on page _ read rfl
        | escapedDashDash => exact moves_on page _ read rfl
        | doubleEscaped => exact moves_on page _ read rfl
        | doubleEscapedDash => exact moves_on page _ read rfl
        | doubleEscapedDashDash => exact moves_on page _ read rfl
      · cases state with
        | plain => exact absurd (found rfl) less
        | escaped =>
            simp only [step, if_neg less, if_neg dash]
            exact moves_on page _ read (by simp only [ScriptData.tokenizer, next, if_neg less, if_neg dash])
        | escapedDash =>
            simp only [step, if_neg less, if_neg dash]
            exact moves_on page _ read (by simp only [ScriptData.tokenizer, next, if_neg less, if_neg dash])
        | escapedDashDash =>
            simp only [step, if_neg less, if_neg dash, if_neg greater]
            exact moves_on page _ read
              (by simp only [ScriptData.tokenizer, next, if_neg less, if_neg dash, if_neg greater])
        | doubleEscaped =>
            simp only [step, if_neg less, if_neg dash]
            exact moves_on page _ read (by simp only [ScriptData.tokenizer, next, if_neg less, if_neg dash])
        | doubleEscapedDash =>
            simp only [step, if_neg less, if_neg dash]
            exact moves_on page _ read (by simp only [ScriptData.tokenizer, next, if_neg less, if_neg dash])
        | doubleEscapedDashDash =>
            simp only [step, if_neg less, if_neg dash, if_neg greater]
            exact moves_on page _ read
              (by simp only [ScriptData.tokenizer, next, if_neg less, if_neg dash, if_neg greater])

def EndsWhere (page : List UInt8) (state : TokenizerState) (start : Nat) : Option Nat → Prop
  | some offset =>
      (∀ tag, Leaves next page state start tag ↔ tag = offset) ∨
        (Unfinished page offset ∧ ∀ tag, ¬ Leaves next page state start tag)
  | none => ∀ tag, ¬ Leaves next page state start tag

theorem ends_where_congr {state other : TokenizerState} {later : Nat} {result : Option Nat}
    (same : ∀ tag, Leaves next page state start tag ↔ Leaves next page other later tag)
    (ends : EndsWhere page other later result) : EndsWhere page state start result := by
  cases result with
  | none => exact fun tag leaves => ends tag ((same tag).mp leaves)
  | some offset =>
      rcases ends with exactly | ⟨cut, never⟩
      · exact Or.inl fun tag => (same tag).trans (exactly tag)
      · exact Or.inr ⟨cut, fun tag leaves => never tag ((same tag).mp leaves)⟩

theorem memchr_spec (needle : UInt8) (page : List UInt8) (start : Nat) :
    match memchr needle (page.drop start) with
    | some skipped => page[start + skipped]? = some needle ∧
        ∃ before, before.length = skipped ∧ needle ∉ before ∧ page.drop start = before ++ page.drop (start + skipped)
    | none => needle ∉ page.drop start := by
  cases found : memchr needle (page.drop start) with
  | none =>
      intro member
      have all := List.findIdx?_eq_none_iff.mp found needle member
      exact absurd (decide_eq_true rfl) (by rw [all]; exact Bool.false_ne_true)
  | some skipped =>
      obtain ⟨inside, hit, first⟩ := List.findIdx?_eq_some_iff_getElem.mp found
      refine ⟨?_, (page.drop start).take skipped, List.length_take_of_le (Nat.le_of_lt inside), fun member => ?_, ?_⟩
      · rw [← List.getElem?_drop, List.getElem?_eq_getElem inside, of_decide_eq_true hit]
      · obtain ⟨index, bound, same⟩ := List.getElem_of_mem member
        rw [List.length_take] at bound
        rw [List.getElem_take] at same
        exact first index (by omega) (decide_eq_true same)
      · rw [← List.drop_drop, List.take_append_drop]

theorem script_end_from_spec (fuel : Nat) (state : ScriptData) (i : Nat) (enough : page.length < fuel + i) :
    EndsWhere page state.tokenizer i (scriptEndFrom page fuel state i) := by
  induction fuel generalizing state i with
  | zero =>
      have past : page[i]? = none := List.getElem?_eq_none_iff.mpr (by omega)
      exact fun tag => Scanner.leaves_past next page _ i tag past
  | succ fuel ih =>
      have round : ∀ at_, i ≤ at_ → (state = .plain → page[at_]? = some 60) →
          EndsWhere page state.tokenizer at_
            (match page[at_]? with
            | none => none
            | some b =>
                match step page state at_ b with
                | .ended offset => some offset
                | .goesOn state after => scriptEndFrom page fuel state after) := by
        intro at_ forward less
        cases read : page[at_]? with
        | none => exact fun tag => Scanner.leaves_past next page _ at_ tag read
        | some b =>
            have simulated := step_simulates page state at_ b read fun plain => Option.some.inj (read.symm.trans (less plain))
            cases stepped : step page state at_ b with
            | ended offset =>
                rw [stepped] at simulated
                simp only [stepped]
                obtain ⟨rfl, ends⟩ := simulated
                exact ends
            | goesOn other after =>
                rw [stepped] at simulated
                simp only [stepped]
                exact ends_where_congr page simulated.2 (ih other after (by have := simulated.1; omega))
      simp only [scriptEndFrom]
      by_cases plain : state = .plain
      · subst plain
        rw [if_pos rfl]
        have spec := memchr_spec 60 page i
        simp only [tail]
        cases found : memchr 60 (page.drop i) with
        | none =>
            rw [found] at spec
            intro tag leaves
            have skip := Scanner.leaves_skip next page .scriptData tag (List.append_nil _).symm
              fun pos b member => if_neg fun same : b = 60 => spec (same ▸ member)
            refine Scanner.leaves_past next page .scriptData _ tag ?_ (skip.mp leaves)
            rw [List.getElem?_eq_none_iff, List.length_drop]
            omega
        | some skipped =>
            rw [found] at spec
            obtain ⟨less, before, length, none, split⟩ := spec
            have skip := fun tag => Scanner.leaves_skip next page .scriptData tag split
              fun pos b member => if_neg fun same : b = 60 => none (same ▸ member)
            rw [length] at skip
            exact ends_where_congr page skip (round (i + skipped) (Nat.le_add_right _ _) fun _ => less)
      · rw [if_neg plain]
        exact round i (Nat.le_refl i) fun same => absurd same plain

theorem html_script_end_tokenizer (page : List UInt8) (start : Nat) :
    EndsWhere page .scriptData start (htmlScriptEnd page start) :=
  script_end_from_spec page (page.length + 1) .plain start (by omega)

example : htmlScriptEnd (ascii "a<!--<script>b</script>c</script >") 0 = some 24 := by decide +kernel

end Filefacts.Html
