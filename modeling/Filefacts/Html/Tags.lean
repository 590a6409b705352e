import Filefacts.Html.Comments

set_option autoImplicit false

namespace Filefacts.Html

open Filefacts.Bytes (ascii isAsciiAlphabetic toAsciiLower)
open Filefacts.Scanner (Leaves Reaches)

section Stretch

variable (page : List UInt8) (test : UInt8 → Bool) (start : Nat)

def stretchEnd : Nat := start + ((tail page start).takeWhile test).length

theorem stretch_inside (pos : Nat) (above : start ≤ pos) (below : pos < stretchEnd page test start) :
    ∃ b, page[pos]? = some b ∧ test b = true := by
  have split : page.drop start = (page.drop start).takeWhile test ++ (page.drop start).dropWhile test :=
    List.takeWhile_append_dropWhile.symm
  have inside : pos - start < ((page.drop start).takeWhile test).length := by
    rw [stretchEnd, tail] at below
    omega
  have read : page[pos]? = some ((page.drop start).takeWhile test)[pos - start] := by
    have there : page[pos]? = (page.drop start)[pos - start]? := by rw [List.getElem?_drop, Nat.add_sub_cancel' above]
    have front := (congrArg (fun bytes : List UInt8 => bytes[pos - start]?) split).trans (List.getElem?_append_left inside)
    exact there.trans (front.trans (List.getElem?_eq_getElem inside))
  exact ⟨_, read, List.mem_takeWhile_imp (List.getElem_mem inside)⟩

theorem stretch_stops : page[stretchEnd page test start]?.all (fun b => !test b) = true := by
  have there : page[stretchEnd page test start]? = ((page.drop start).dropWhile test).head? := by
    have split : page.drop start = (page.drop start).takeWhile test ++ (page.drop start).dropWhile test :=
      List.takeWhile_append_dropWhile.symm
    have rest := (congrArg (List.drop ((page.drop start).takeWhile test).length) split).trans List.drop_left
    rw [stretchEnd, tail, ← List.head?_drop, ← List.drop_drop, rest]
  have stops := List.head?_dropWhile_not test (page.drop start)
  rw [there]
  cases head : ((page.drop start).dropWhile test).head? with
  | none => rfl
  | some b =>
      rw [head] at stops
      simpa using stops

theorem stretch_above : start ≤ stretchEnd page test start := Nat.le_add_right _ _

theorem stretch_empty (stops : page[start]?.all (fun b => !test b) = true) : stretchEnd page test start = start := by
  rw [stretchEnd, tail]
  rw [← List.head?_drop] at stops
  cases rest : page.drop start with
  | nil => rfl
  | cons b rest =>
      rw [rest, List.head?_cons, Option.all_some, Bool.not_eq_true'] at stops
      rw [List.takeWhile_cons, stops]
      rfl

theorem stretch_more (b : UInt8) (read : page[start]? = some b) (passes : test b = true) :
    stretchEnd page test start = stretchEnd page test (start + 1) := by
  obtain ⟨inside, is⟩ := List.getElem?_eq_some_iff.mp read
  rw [stretchEnd, stretchEnd, tail, tail, List.drop_eq_getElem_cons inside, is, List.takeWhile_cons, passes]
  simp only [if_true, List.length_cons]
  omega

end Stretch

variable (page : List UInt8) (test : UInt8 → Bool) (start : Nat)

theorem stretch_reaches (state : MarkupState)
    (moves : ∀ pos b, test b = true → markupNext pos state b = .switch state) :
    Reaches markupNext page state start state (stretchEnd page test start) := by
  refine Scanner.reaches_stretch markupNext page state start _ fun pos above below => ?_
  obtain ⟨b, read, passes⟩ := stretch_inside page test start pos above below
  exact ⟨b, read, moves pos b passes⟩

theorem stretch_bound (inside : start ≤ page.length) : stretchEnd page test start ≤ page.length := by
  have short : ((page.drop start).takeWhile test).length ≤ (page.drop start).length := (List.takeWhile_sublist test).length_le
  rw [List.length_drop] at short
  rw [stretchEnd, tail]
  omega

def differs (needle b : UInt8) : Bool := b ≠ needle

theorem memchr_stretch {needle : UInt8} {page : List UInt8} {start found : Nat} (here : memchr needle (tail page start) = some found) :
    stretchEnd page (differs needle) start = start + found ∧ page[start + found]? = some needle := by
  have spec := memchr_spec needle page start
  rw [tail] at here
  simp only [here] at spec
  obtain ⟨read, before, length, absent, split⟩ := spec
  refine ⟨?_, read⟩
  obtain ⟨inside, is⟩ := List.getElem?_eq_some_iff.mp read
  rw [List.drop_eq_getElem_cons inside, is] at split
  have passes : ∀ b ∈ before, differs needle b = true := fun b member =>
    decide_eq_true fun same => absent (by rw [← same]; exact member)
  have stops : ¬ differs needle needle = true := by
    rw [differs, decide_eq_false fun other => other rfl]
    exact Bool.false_ne_true
  rw [stretchEnd, tail, split, List.takeWhile_append_of_pos passes, List.takeWhile_cons_of_neg stops, List.append_nil, length]

theorem memchr_absent {needle : UInt8} {page : List UInt8} {start : Nat} (none_ : memchr needle (tail page start) = none) :
    page[stretchEnd page (differs needle) start]? = none := by
  have spec := memchr_spec needle page start
  rw [tail] at none_
  simp only [none_] at spec
  have stops := stretch_stops page (differs needle) start
  have above := stretch_above page (differs needle) start
  cases read : page[stretchEnd page (differs needle) start]? with
  | none => rfl
  | some b =>
      rw [read, Option.all_some, Bool.not_eq_true'] at stops
      have same : b = needle := by simpa [differs] using stops
      have member : needle ∈ page.drop start := by
        have there : (page.drop start)[stretchEnd page (differs needle) start - start]? = some b := by
          rw [List.getElem?_drop, Nat.add_sub_cancel' above, read]
        rw [← same]
        exact List.mem_of_getElem? there
      exact absurd member spec

variable (name : List UInt8) (tag : Tag)

variable (i : Nat) (attr value : List UInt8)

theorem skip_above : i ≤ skipSpace page i := stretch_above page isTagSpace i

theorem skip_stops : page[skipSpace page i]?.all (fun b => !isTagSpace b) = true :=
  stretch_stops page isTagSpace i

theorem attribute_stop : (tag.attribute attr value).stop = tag.stop := by
  rw [Tag.attribute]
  split
  · rfl
  · split <;> rfl

theorem attribute_name : (tag.attribute attr value).name = tag.name := by
  rw [Tag.attribute]
  split
  · rfl
  · split <;> rfl

theorem attributes_name (fuel : Nat) : ∀ (tag : Tag) (begun : Nat), (attributes page fuel tag begun).name = tag.name := by
  induction fuel with
  | zero => exact fun _ _ => rfl
  | succ fuel hypothesis =>
      intro tag begun
      rw [attributes]
      simp only
      split
      · rfl
      · split
        · rfl
        · split
          · exact hypothesis tag _
          · split
            · split
              · split
                · rfl
                · rw [hypothesis, attribute_name]
              · rw [hypothesis, attribute_name]
            · exact hypothesis tag _

def inName (b : UInt8) : Bool := !endsName b

theorem find_index_take (bytes : List UInt8) :
    (bytes.findIdx? test).getD bytes.length = (bytes.takeWhile fun b => !test b).length := by
  induction bytes with
  | nil => rfl
  | cons b rest hypothesis =>
      rw [List.findIdx?_cons, List.takeWhile_cons]
      cases passes : test b with
      | true => rfl
      | false =>
          rw [if_neg Bool.false_ne_true, Bool.not_false, if_pos rfl, List.length_cons, List.length_cons, ← hypothesis]
          cases rest.findIdx? test <;> rfl

theorem name_end_stretch {nameStart : Nat} (inside : nameStart ≤ page.length) :
    nameEnd page nameStart = stretchEnd page inName nameStart := by
  have index := find_index_take endsName (tail page nameStart)
  have length : (tail page nameStart).length = page.length - nameStart := by rw [tail, List.length_drop]
  have fold : (tail page nameStart).takeWhile inName = (tail page nameStart).takeWhile fun b => !endsName b := rfl
  rw [nameEnd, stretchEnd, fold, ← index]
  cases (tail page nameStart).findIdx? endsName with
  | none =>
      rw [Option.elim_none, Option.getD_none, length]
      omega
  | some k => rfl

theorem span_stretch (inside : start ≤ page.length) :
    span page start (stretchEnd page test start) = (page.drop start).takeWhile test := by
  have bound := stretch_bound page test start inside
  rw [stretchEnd, tail] at bound ⊢
  have window : (page.drop start).take ((page.drop start).takeWhile test).length = (page.drop start).takeWhile test :=
    (List.prefix_iff_eq_take.mp (List.takeWhile_prefix test)).symm
  rw [span, (get_window page start _ _).mpr ⟨window, bound⟩, Option.getD_some]

theorem start_tag_none (none_ : startTag page start = none) : page[start + 1]?.any isAsciiAlphabetic = false := by
  rw [startTag] at none_
  split at none_
  · cases none_
  · exact Bool.eq_false_iff.mpr ‹_›

end Filefacts.Html
