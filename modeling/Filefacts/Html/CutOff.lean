import Filefacts.Html.EndTags

set_option autoImplicit false

namespace Filefacts.Html

open Filefacts.Bytes (ascii isAsciiAlphabetic toAsciiLower)
open Filefacts.Scanner (Leaves)

section Closed

variable (page : List UInt8)

def closed : List UInt8 := page ++ [62]

variable (i : Nat) (b : UInt8) (state : ScriptData)

theorem closed_inside (inside : i < page.length) : (closed page)[i]? = page[i]? :=
  List.getElem?_append_left inside

theorem closed_other (read : (closed page)[i]? = some b) (other : b ≠ 62) : page[i]? = some b := by
  by_cases inside : i < page.length
  · rwa [closed_inside page i inside] at read
  · rw [closed, List.getElem?_append_right (Nat.le_of_not_lt inside), List.getElem?_singleton] at read
    split at read
    · cases read
      exact absurd rfl other
    · cases read

theorem closed_read (read : page[i]? = some b) : (closed page)[i]? = some b := by
  rw [closed_inside page i (List.getElem?_eq_some_iff.mp read).choose, read]

theorem closed_past (read : (closed page)[i]? = some b) (past : page[i]? = none) : b = 62 := by
  by_contra other
  rw [closed_other page i b read other] at past
  cases past

theorem closed_name {pos : Nat} (inside : pos ≤ page.length) : nameAt (closed page) pos = nameAt page pos := by
  have window := name_at_window page pos
  have short := congrArg List.length window
  rw [List.length_take, List.length_drop] at short
  apply name_at_eq (closed page) (nameAt page pos) pos
  · rw [closed, List.drop_append_of_le_length inside, List.take_append_of_le_length (by rw [List.length_drop]; omega), window]
  · exact fun b member => name_letters page pos b member
  · intro b read
    cases there : page[pos + (nameAt page pos).length]? with
    | none =>
        rw [closed_past page _ b read there]
        rfl
    | some c =>
        rw [closed_read page _ c there] at read
        cases read
        exact name_ends page pos b there

theorem closed_end_tag : isEndTag (closed page) i script = isEndTag page i script := by
  rw [Bool.eq_iff_iff, is_end_tag_iff, is_end_tag_iff]
  constructor
  · rintro ⟨first, second, lower, ends⟩
    have secondRead := closed_other page (i + 1) 47 second (by decide)
    have secondInside := (List.getElem?_eq_some_iff.mp secondRead).choose
    rw [closed_name page secondInside] at lower
    refine ⟨closed_other page i 60 first (by decide), secondRead, lower, ?_⟩
    cases there : page[i + 2 + 6]? with
    | none => rfl
    | some b =>
        rw [closed_read page _ b there] at ends
        exact ends
  · rintro ⟨first, second, lower, ends⟩
    have secondInside := (List.getElem?_eq_some_iff.mp second).choose
    refine ⟨closed_read page i 60 first, closed_read page (i + 1) 47 second, ?_, ?_⟩
    · rw [closed_name page secondInside]
      exact lower
    · cases there : (closed page)[i + 2 + 6]? with
      | none => rfl
      | some b =>
          cases before : page[i + 2 + 6]? with
          | none =>
              rw [closed_past page _ b there before]
              rfl
          | some c =>
              rw [closed_read page _ c before] at there
              cases there
              rw [before] at ends
              exact ends

theorem closed_comment : (ascii "<!--").isPrefixOf (tail (closed page) i) = (ascii "<!--").isPrefixOf (tail page i) := by
  rw [tail, tail, Bool.eq_iff_iff, starts_comment, starts_comment]
  constructor
  · rintro ⟨first, second, third, fourth⟩
    exact ⟨closed_other page _ _ first (by decide), closed_other page _ _ second (by decide), closed_other page _ _ third (by decide),
      closed_other page _ _ fourth (by decide)⟩
  · rintro ⟨first, second, third, fourth⟩
    exact ⟨closed_read page _ _ first, closed_read page _ _ second, closed_read page _ _ third, closed_read page _ _ fourth⟩

def Flat (start : Nat) : Prop := ∀ pos, start ≤ pos → page[pos]? ≠ some 60

theorem flat_later (start later : Nat) (onward : start ≤ later) (flat : Flat page start) : Flat page later :=
  fun pos above => flat pos (Nat.le_trans onward above)

theorem names_script_closed (pos : Nat) (inside : pos ≤ page.length) :
    namesScript (closed page) pos = namesScript page pos ∨ (namesScript page pos = none ∧ Flat page pos) := by
  cases read : page[pos + (nameAt page pos).length]? with
  | none =>
      refine .inr ⟨?_, fun at_ above less => ?_⟩
      · by_contra some_
        obtain ⟨after, found⟩ := Option.ne_none_iff_exists'.mp some_
        obtain ⟨⟨_, b, there, _⟩, _⟩ := (names_script_iff page pos after).mp found
        rw [read] at there
        cases there
      · have outside := List.getElem?_eq_none_iff.mp read
        have before := (List.getElem?_eq_some_iff.mp less).choose
        obtain ⟨b, there, letter⟩ := stretch_inside page isAsciiAlphabetic pos at_ above (Nat.lt_of_lt_of_le before outside)
        rw [less] at there
        cases there
        cases letter
  | some b =>
      refine .inl (Option.ext fun after => ?_)
      rw [names_script_iff, names_script_iff, ScriptName, ScriptName, closed_name page inside, closed_read page _ b read, read]

theorem closed_step (i : Nat) (b : UInt8) (read : page[i]? = some b) :
    step (closed page) state i b = step page state i b ∨
      ∃ after later, step page state i b = .goesOn after later ∧ Flat page later := by
  have inside := (List.getElem?_eq_some_iff.mp read).choose
  have escaped : escapedLess (closed page) i = escapedLess page i ∨
      ∃ after later, escapedLess page i = .goesOn after later ∧ Flat page later := by
    rw [escapedLess, escapedLess, closed_end_tag]
    by_cases ends : isEndTag page i script = true
    · exact .inl (by rw [if_pos ends, if_pos ends])
    · rw [if_neg ends, if_neg ends]
      rcases names_script_closed page (i + 1) inside with same | ⟨none_, flat⟩
      · exact .inl (by rw [same])
      · exact .inr ⟨.escaped, i + 1, by rw [none_], flat⟩
  have doubleEscaped : doubleEscapedLess (closed page) i = doubleEscapedLess page i ∨
      ∃ after later, doubleEscapedLess page i = .goesOn after later ∧ Flat page later := by
    rw [doubleEscapedLess, doubleEscapedLess]
    by_cases slash : page[i + 1]? = some 47
    · have before := (List.getElem?_eq_some_iff.mp slash).choose
      rw [if_pos slash, if_pos (closed_read page _ _ slash)]
      rcases names_script_closed page (i + 2) before with same | ⟨none_, flat⟩
      · exact .inl (by rw [same])
      · refine .inr ⟨.doubleEscaped, i + 1, by rw [none_], fun pos above less => ?_⟩
        by_cases next : pos = i + 1
        · rw [next, slash] at less
          cases less
        · exact flat pos (by omega) less
    · have other : ¬ (closed page)[i + 1]? = some 47 := fun there => slash (closed_other page _ _ there (by decide))
      exact .inl (by rw [if_neg slash, if_neg other])
  cases state with
  | plain =>
      refine .inl ?_
      simp only [step, plainStep]
      rw [closed_end_tag, closed_comment]
  | escaped =>
      simp only [step]
      by_cases less : b = 60
      · rw [if_pos less, if_pos less]
        exact escaped
      · exact .inl (by rw [if_neg less, if_neg less])
  | escapedDash =>
      simp only [step]
      by_cases less : b = 60
      · rw [if_pos less, if_pos less]
        exact escaped
      · exact .inl (by rw [if_neg less, if_neg less])
  | escapedDashDash =>
      simp only [step]
      by_cases less : b = 60
      · rw [if_pos less, if_pos less]
        exact escaped
      · exact .inl (by rw [if_neg less, if_neg less])
  | doubleEscaped =>
      simp only [step]
      by_cases less : b = 60
      · rw [if_pos less, if_pos less]
        exact doubleEscaped
      · exact .inl (by rw [if_neg less, if_neg less])
  | doubleEscapedDash =>
      simp only [step]
      by_cases less : b = 60
      · rw [if_pos less, if_pos less]
        exact doubleEscaped
      · exact .inl (by rw [if_neg less, if_neg less])
  | doubleEscapedDashDash =>
      simp only [step]
      by_cases less : b = 60
      · rw [if_pos less, if_pos less]
        exact doubleEscaped
      · exact .inl (by rw [if_neg less, if_neg less])

theorem flat_step (i : Nat) (b : UInt8) (plain : b ≠ 60) (notPlain : state ≠ .plain) :
    ∃ after, step page state i b = .goesOn after (i + 1) := by
  cases state with
  | plain => exact absurd rfl notPlain
  | escaped =>
      rw [step, if_neg plain]
      split <;> exact ⟨_, rfl⟩
  | escapedDash =>
      rw [step, if_neg plain]
      split <;> exact ⟨_, rfl⟩
  | escapedDashDash =>
      rw [step, if_neg plain]
      split
      · exact ⟨_, rfl⟩
      · split <;> exact ⟨_, rfl⟩
  | doubleEscaped =>
      rw [step, if_neg plain]
      split <;> exact ⟨_, rfl⟩
  | doubleEscapedDash =>
      rw [step, if_neg plain]
      split <;> exact ⟨_, rfl⟩
  | doubleEscapedDashDash =>
      rw [step, if_neg plain]
      split
      · exact ⟨_, rfl⟩
      · split <;> exact ⟨_, rfl⟩

theorem flat_never_ends (fuel : Nat) : ∀ (state : ScriptData) (i : Nat), Flat page i → scriptEndFrom page fuel state i = none := by
  induction fuel with
  | zero => exact fun _ _ _ => rfl
  | succ fuel hypothesis =>
      intro state i flat
      rw [scriptEndFrom]
      by_cases plain : state = .plain
      · rw [if_pos plain]
        cases found : memchr 60 (tail page i) with
        | none => rfl
        | some k => exact absurd (memchr_stretch found).2 (flat (i + k) (Nat.le_add_right i k))
      · rw [if_neg plain]
        simp only
        cases read : page[i]? with
        | none => rfl
        | some b =>
            have other : b ≠ 60 := fun same => flat i (Nat.le_refl i) (by rw [read, same])
            obtain ⟨after, moved⟩ := flat_step page state i b other plain
            simp only [moved]
            exact hypothesis after (i + 1) (flat_later page i (i + 1) (Nat.le_succ i) flat)

theorem memchr_closed (k : Nat) (found : memchr 60 (tail page i) = some k) : memchr 60 (tail (closed page) i) = some k := by
  have inside : i ≤ page.length := by
    have before := (List.getElem?_eq_some_iff.mp (memchr_stretch found).2).choose
    omega
  rw [memchr, tail] at found ⊢
  rw [closed, List.drop_append_of_le_length inside, List.findIdx?_append, found]
  rfl

def lookAt (page : List UInt8) (state : ScriptData) (i : Nat) : Option Nat :=
  if state = .plain then (memchr 60 (tail page i)).map (i + ·) else some i

theorem script_end_turn (text : List UInt8) (fuel : Nat) (state : ScriptData) (i close : Nat) :
    scriptEndFrom text (fuel + 1) state i = some close ↔ ∃ place b, lookAt text state i = some place ∧ text[place]? = some b ∧
      (step text state place b = .ended close ∨
        ∃ after later, step text state place b = .goesOn after later ∧ scriptEndFrom text fuel after later = some close) := by
  rw [scriptEndFrom, lookAt]
  cases (if state = .plain then (memchr 60 (tail text i)).map (i + ·) else some i : Option Nat) with
  | none => simp
  | some place =>
      cases read : text[place]? with
      | none => simp [read]
      | some b =>
          cases moved : step text state place b with
          | ended offset => simp [read, moved]
          | goesOn after later => simp [read, moved]

theorem look_at_closed (i place : Nat) (looked : lookAt page state i = some place) :
    lookAt (closed page) state i = some place := by
  rw [lookAt] at looked ⊢
  by_cases plain : state = .plain
  · rw [if_pos plain] at looked ⊢
    obtain ⟨k, found, same⟩ := Option.map_eq_some_iff.mp looked
    rw [memchr_closed page i k found, Option.map_some, same]
  · rwa [if_neg plain] at looked ⊢

theorem script_end_closed (fuel : Nat) : ∀ (more : Nat) (state : ScriptData) (i close : Nat),
    scriptEndFrom page fuel state i = some close → scriptEndFrom (closed page) (fuel + more) state i = some close := by
  induction fuel with
  | zero =>
      intro more state i close ran
      cases ran
  | succ fuel hypothesis =>
      intro more state i close ran
      obtain ⟨place, b, looked, read, turned⟩ := (script_end_turn page fuel state i close).mp ran
      rw [Nat.add_right_comm, script_end_turn]
      refine ⟨place, b, look_at_closed page state i place looked, closed_read page place b read, ?_⟩
      rcases closed_step page state place b read with same | ⟨after, later, moved, flat⟩
      · rw [same]
        rcases turned with ended | ⟨after, later, moved, goes_on⟩
        · exact .inl ended
        · exact .inr ⟨after, later, moved, hypothesis more after later close goes_on⟩
      · rcases turned with ended | ⟨_, _, same, goes_on⟩
        · rw [moved] at ended
          cases ended
        · obtain ⟨rfl, rfl⟩ := Step.goesOn.inj (moved.symm.trans same)
          rw [flat_never_ends page fuel after later flat] at goes_on
          cases goes_on

theorem cut_off_closes (start close : Nat) (found : htmlScriptEnd page start = some close) : ScriptEnds (closed page) start close := by
  have again : htmlScriptEnd (closed page) start = some close := by
    have length : (closed page).length = page.length + 1 := by rw [closed, List.length_append, List.length_singleton]
    rw [htmlScriptEnd, length]
    exact script_end_closed page (page.length + 1) 1 .plain start close found
  have ends := html_script_end_tokenizer (closed page) start
  rw [again] at ends
  rcases ends with exactly | ⟨⟨name, rest, lower⟩, _⟩
  · exact (exactly close).mpr rfl
  · have shorter : close ≤ page.length := by
      by_contra outside
      have empty : (closed page).drop close = [] := by
        rw [List.drop_eq_nil_iff, closed, List.length_append, List.length_singleton]
        omega
      rw [rest] at empty
      cases empty
    have last : (62 : UInt8) ∈ 60 :: 47 :: name := by
      rw [← rest, closed, List.drop_append_of_le_length shorter]
      exact List.mem_append_right _ (List.mem_singleton_self 62)
    have inside : (62 : UInt8) ∈ name := by simpa using last
    have lowered : toAsciiLower 62 ∈ script := lower ▸ List.mem_map_of_mem inside
    exact absurd lowered (by decide +kernel)

end Closed

end Filefacts.Html
