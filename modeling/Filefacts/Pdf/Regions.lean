import Filefacts.Pdf.Objects

set_option autoImplicit false

namespace Filefacts.Pdf

open Bytes (ascii)

variable (bytes : List UInt8) (start objPos room dictEnd : Nat)

theorem next_header_spec (next : nextHeader bytes start = some objPos) :
    start ≤ objPos ∧ isObject bytes objPos = true ∧ objPos + 3 ≤ bytes.length := by
  have isFirst := (Search.first_eq_some _ _ _ _).mp next
  have passes := isFirst.passes
  rw [isObject, Bool.and_eq_true] at passes
  exact ⟨isFirst.from_, isFirst.passes, occurs_inside bytes _ objPos (by decide) passes.1⟩

theorem next_header_past (past : bytes.length ≤ start) : nextHeader bytes start = none := by
  cases next : nextHeader bytes start with
  | none => rfl
  | some objPos =>
      have spec := next_header_spec bytes start objPos next
      omega

theorem obj_apart (offset : Nat) (occurs : occursAt bytes (ascii "obj") objPos = true)
    (near : offset = 1 ∨ offset = 2) : occursAt bytes (ascii "obj") (objPos + offset) = false := by
  by_contra other
  have again := occurs_byte bytes _ (objPos + offset) 0 111 (Bool.of_not_eq_false other) (by decide)
  rcases near with rfl | rfl
  · have there := occurs_byte bytes _ objPos 1 98 occurs (by decide)
    rw [Nat.add_zero, there] at again
    cases again
  · have there := occurs_byte bytes _ objPos 2 106 occurs (by decide)
    rw [Nat.add_zero, there] at again
    cases again

theorem header_of_find_none (none_ : memmemFind bytes (ascii "obj") start = none) : nextHeader bytes start = none := by
  rw [nextHeader, Search.first_eq_none]
  intro other above below
  rw [isObject, (Search.first_eq_none _ _ _).mp none_ other above below]
  rfl

theorem header_of_find_some (found : memmemFind bytes (ascii "obj") start = some objPos)
    (header : isHeader bytes objPos = true) : nextHeader bytes start = some objPos := by
  have isFirst := (Search.first_eq_some _ _ _ _).mp found
  refine (Search.first_eq_some _ _ _ _).mpr ⟨isFirst.from_, isFirst.before, ?_, fun other above below => ?_⟩
  · rw [isObject, isFirst.passes, header]
    rfl
  · rw [isObject, isFirst.least other above below]
    rfl

theorem header_of_find_other (found : memmemFind bytes (ascii "obj") start = some objPos)
    (other : isHeader bytes objPos = false) : nextHeader bytes start = nextHeader bytes (objPos + 3) := by
  have isFirst := (Search.first_eq_some _ _ _ _).mp found
  have above := isFirst.from_
  apply Search.first_skip _ _ _ _ _ (by omega)
  intro position atLeast under
  rw [isObject]
  by_cases early : position < objPos
  · rw [isFirst.least position atLeast early]
    rfl
  · by_cases same : position = objPos
    · rw [same, other, Bool.and_false]
    · have apart := obj_apart bytes objPos (position - objPos) isFirst.passes (by omega)
      rw [Nat.add_sub_cancel' (by omega)] at apart
      rw [apart]
      rfl

theorem regions_from_same (start other : Nat) (same : nextHeader bytes start = nextHeader bytes other) :
    regionsFrom bytes room start = regionsFrom bytes room other := by
  cases room with
  | zero => rfl
  | succ room => rw [regionsFrom, regionsFrom, same]

theorem regions_from_none (start : Nat) (none_ : nextHeader bytes start = none) : regionsFrom bytes room start = [] := by
  cases room with
  | zero => rfl
  | succ room => rw [regionsFrom, none_]

theorem stream_body_fresh (token : NextToken)
    (needle : token.needle = ascii "endstream") (holds : token.Holds bytes (objPos + 3))
    (closed : dictEndOf bytes objPos = some dictEnd) :
    (streamBody bytes (objPos + 3) (streamOf bytes objPos) (endobjOf bytes objPos) token).1 = bodyOf bytes objPos ∧
      (streamBody bytes (objPos + 3) (streamOf bytes objPos) (endobjOf bytes objPos) token).2.needle = ascii "endstream" ∧
      (streamBody bytes (objPos + 3) (streamOf bytes objPos) (endobjOf bytes objPos) token).2.Holds bytes
        (resumeOf bytes objPos dictEnd) := by
  have bounds := dict_end_bounds bytes objPos closed
  have kept : token.Holds bytes (resumeOf bytes objPos dictEnd) :=
    Search.holds_later _ _ holds (Nat.le_trans bounds.1 bounds.2.1)
  cases ended : endobjOf bytes objPos with
  | none =>
      rw [bodyOf, ended]
      cases opened : streamOf bytes objPos with
      | none => exact ⟨rfl, needle, kept⟩
      | some stream => exact ⟨rfl, needle, kept⟩
  | some endobj =>
      cases opened : streamOf bytes objPos with
      | none =>
          rw [bodyOf, opened]
          exact ⟨rfl, needle, kept⟩
      | some stream =>
          have before := body_start_before bytes objPos ended opened
          have resume : resumeOf bytes objPos dictEnd = endobj := by
            rw [resumeOf, opened, ended, resumeAt, if_pos (by omega)]
          have body : bodyOf bytes objPos = some (pastEol bytes (stream + 6), bodyEndOf bytes objPos stream endobj) := by
            rw [bodyOf, opened, ended]
          rw [body, streamBody, if_pos (by omega), bodyEndOf.eq_def]
          dsimp only
          cases declaredEnd bytes (pastEol bytes (stream + 6)) ((bytes.drop (objPos + 3)).take (stream - (objPos + 3))) with
          | some bodyEnd => exact ⟨rfl, needle, kept⟩
          | none =>
              have fresh := find_fresh token bytes (objPos + 3) (pastEol bytes (stream + 6)) holds (by omega)
              rw [fresh.1, needle]
              refine ⟨rfl, fresh.2.1.trans needle, ?_⟩
              rw [resume]
              exact Search.holds_later _ _ fresh.2.2 before.2.2

structure Ready (bytes : List UInt8) (walk : Walk) : Prop where
  endobjNeedle : walk.nextEndobj.needle = ascii "endobj"
  endstreamNeedle : walk.nextEndstream.needle = ascii "endstream"
  endobj : walk.nextEndobj.Holds bytes walk.pos
  endstream : walk.nextEndstream.Holds bytes walk.pos

inductive Turned (bytes : List UInt8) (walk : Walk) : Walk × Bool → Prop
  | stopped (next : Walk) (kept : next.regions = walk.regions) (none_ : ∀ room, regionsFrom bytes room walk.pos = []) :
      Turned bytes walk (next, false)
  | skipped (next : Walk) (kept : next.regions = walk.regions) (ready : Ready bytes next) (onward : walk.pos < next.pos)
      (same : nextHeader bytes walk.pos = nextHeader bytes next.pos) : Turned bytes walk (next, true)
  | took (next : Walk) (objPos dictEnd : Nat) (header : nextHeader bytes walk.pos = some objPos)
      (closed : dictEndOf bytes objPos = some dictEnd) (pushed : next.regions = walk.regions ++ [regionOf bytes objPos dictEnd])
      (resume : next.pos = resumeOf bytes objPos dictEnd) (onward : walk.pos < next.pos) (ready : Ready bytes next) :
      Turned bytes walk (next, true)

theorem turn_turned (walk : Walk) (ready : Ready bytes walk) : Turned bytes walk (turn bytes walk) := by
  rw [turn]
  cases search : memmemFind bytes (ascii "obj") walk.pos with
  | none => exact .stopped _ rfl fun room => regions_from_none bytes room _ (header_of_find_none bytes walk.pos search)
  | some objPos =>
      have above := ((Search.first_eq_some _ _ _ _).mp search).from_
      cases header : isHeader bytes objPos with
      | false =>
          simp only [header, Bool.not_false, if_true]
          refine .skipped _ rfl ⟨ready.endobjNeedle, ready.endstreamNeedle, ?_, ?_⟩ (Nat.lt_of_le_of_lt above (by simp))
            (header_of_find_other bytes walk.pos objPos search header)
          · exact Search.holds_later _ _ ready.endobj (Nat.le_trans above (Nat.le_add_right _ _))
          · exact Search.holds_later _ _ ready.endstream (Nat.le_trans above (Nat.le_add_right _ _))
      | true =>
          have next := header_of_find_some bytes walk.pos objPos search header
          have fresh := find_fresh walk.nextEndobj bytes walk.pos (objPos + 3) ready.endobj (Nat.le_trans above (Nat.le_add_right _ _))
          have ended : (walk.nextEndobj.find bytes (objPos + 3)).1 = endobjOf bytes objPos := by
            rw [fresh.1, ready.endobjNeedle]
            rfl
          have opened : findTokenBetween bytes (objPos + 3) ((endobjOf bytes objPos).getD bytes.length) (ascii "stream") =
              streamOf bytes objPos := rfl
          simp only [header, Bool.not_true, Bool.false_eq_true, if_false, ended, opened]
          cases closed : dictEnd (streamOf bytes objPos) (endobjOf bytes objPos) with
          | none =>
              refine .stopped _ rfl fun room => ?_
              cases room with
              | zero => rfl
              | succ room =>
                  rw [regionsFrom, next]
                  dsimp only
                  rw [dictEndOf, closed]
          | some dictEnd =>
              have bounds := dict_end_bounds bytes objPos closed
              have body := stream_body_fresh bytes objPos dictEnd walk.nextEndstream ready.endstreamNeedle
                (Search.holds_later _ _ ready.endstream (Nat.le_trans above (Nat.le_add_right _ _))) closed
              refine .took _ objPos dictEnd next closed ?_ rfl ?_ ⟨fresh.2.1.trans ready.endobjNeedle, body.2.1, ?_, body.2.2⟩
              · dsimp only
                rw [body.1]
                rfl
              · show walk.pos < resumeOf bytes objPos dictEnd
                omega
              · exact Search.holds_later _ _ fresh.2.2 (Nat.le_trans bounds.1 bounds.2.1)

theorem walk_on_regions (fuel : Nat) : ∀ walk : Walk, Ready bytes walk → bytes.length - walk.pos ≤ fuel →
    (walkOn bytes fuel walk).regions =
      walk.regions ++ regionsFrom bytes (maxDictRegions - walk.regions.length) walk.pos := by
  induction fuel with
  | zero =>
      intro walk _ enough
      rw [regions_from_none bytes _ _ (next_header_past bytes walk.pos (by omega)), List.append_nil, walkOn]
  | succ fuel hypothesis =>
      intro walk ready enough
      rw [walkOn]
      by_cases going : walk.pos < bytes.length ∧ walk.regions.length < maxDictRegions
      · rw [if_pos going]
        generalize moved : turn bytes walk = after
        have turned := turn_turned bytes walk ready
        rw [moved] at turned
        cases turned with
        | stopped next kept none_ => rw [none_, List.append_nil, ← kept]; rfl
        | skipped next kept ready onward same =>
            rw [if_pos rfl, hypothesis next ready (by omega), kept, regions_from_same bytes _ _ _ same]
        | took next objPos dictEnd header closed pushed resume onward ready =>
            obtain ⟨room, more⟩ : ∃ room, maxDictRegions - walk.regions.length = room + 1 :=
              ⟨maxDictRegions - walk.regions.length - 1, by omega⟩
            have left : maxDictRegions - (walk.regions ++ [regionOf bytes objPos dictEnd]).length = room := by
              rw [List.length_append, List.length_singleton]
              omega
            rw [if_pos rfl, hypothesis next ready (by omega), pushed, left, resume, more, regionsFrom, header]
            dsimp only
            rw [closed, List.append_assoc, List.singleton_append]
      · rw [if_neg going]
        by_cases past : bytes.length ≤ walk.pos
        · rw [regions_from_none bytes _ _ (next_header_past bytes walk.pos past), List.append_nil]
        · have full : maxDictRegions - walk.regions.length = 0 := by omega
          rw [full, regionsFrom, List.append_nil]

theorem collect_dict_regions_fresh : (collectDictRegions bytes).regions = regionsFrom bytes maxDictRegions 0 := by
  have ready : Ready bytes ⟨0, NextToken.new (ascii "endobj"), NextToken.new (ascii "endstream"), 0, []⟩ :=
    ⟨rfl, rfl, new_holds _ bytes 0, new_holds _ bytes 0⟩
  exact walk_on_regions bytes bytes.length _ ready (Nat.sub_le _ _)

open Bytes (ascii)

structure Formed (bytes : List UInt8) (region : DictRegion) : Prop where
  dict : region.start ≤ region.end_ ∧ region.end_ ≤ bytes.length
  stream : ∀ body, region.streamRange = some body → region.end_ ≤ body.1 ∧ body.1 ≤ body.2 ∧ body.2 ≤ bytes.length

structure Apart (first second : DictRegion) : Prop where
  dict : first.end_ ≤ second.start
  stream : ∀ body, first.streamRange = some body → body.2 ≤ second.start

structure Ordered (bytes : List UInt8) (regions : List DictRegion) : Prop where
  formed : ∀ region ∈ regions, Formed bytes region
  apart : regions.Pairwise Apart

theorem body_of_some (body : Nat × Nat) (stands : bodyOf bytes objPos = some body) :
    ∃ stream endobj, streamOf bytes objPos = some stream ∧ endobjOf bytes objPos = some endobj ∧
      body = (pastEol bytes (stream + 6), bodyEndOf bytes objPos stream endobj) := by
  rw [bodyOf] at stands
  cases opened : streamOf bytes objPos with
  | none =>
      rw [opened] at stands
      cases stands
  | some stream =>
      cases ended : endobjOf bytes objPos with
      | none =>
          rw [opened, ended] at stands
          cases stands
      | some endobj =>
          rw [opened, ended] at stands
          exact ⟨stream, endobj, rfl, rfl, (Option.some.inj stands).symm⟩

theorem fallback_bounds {bodyStart endstream : Nat} (after : bodyStart ≤ endstream) :
    bodyStart ≤ fallbackStreamEnd bytes bodyStart endstream ∧ fallbackStreamEnd bytes bodyStart endstream ≤ endstream := by
  rw [fallbackStreamEnd]
  split <;> split <;> omega

theorem declared_bounds (bodyStart bodyEnd : Nat) (dict : List UInt8)
    (declared : declaredEnd bytes bodyStart dict = some bodyEnd) : bodyStart ≤ bodyEnd ∧ bodyEnd ≤ bytes.length := by
  rw [declaredEnd] at declared
  split at declared
  · rw [declaredStreamEnd] at declared
    split at declared
    · cases declared
    · split at declared
      · cases declared
        omega
      · cases declared
  · cases declared

theorem body_bounds (stream endobj : Nat) (opened : streamOf bytes objPos = some stream)
    (ended : endobjOf bytes objPos = some endobj) :
    pastEol bytes (stream + 6) ≤ bodyEndOf bytes objPos stream endobj ∧ bodyEndOf bytes objPos stream endobj ≤ bytes.length := by
  have before := body_start_before bytes objPos ended opened
  have inside := token_bounds bytes _ ended
  rw [bodyEndOf.eq_def]
  dsimp only
  cases declared : declaredEnd bytes (pastEol bytes (stream + 6)) ((bytes.drop (objPos + 3)).take (stream - (objPos + 3))) with
  | some bodyEnd => exact declared_bounds bytes _ bodyEnd _ declared
  | none =>
      rw [Option.getD_none]
      cases found : endstreamFrom bytes (pastEol bytes (stream + 6)) with
      | none =>
          rw [Option.getD_none]
          have bounds := fallback_bounds bytes before.2.2
          omega
      | some endstream =>
          rw [Option.getD_some]
          have there := token_bounds bytes _ found
          have bounds := fallback_bounds bytes there.1
          omega

theorem region_of_formed (closed : dictEndOf bytes objPos = some dictEnd) : Formed bytes (regionOf bytes objPos dictEnd) := by
  have bounds := dict_end_bounds bytes objPos closed
  refine ⟨⟨bounds.1, Nat.le_trans bounds.2.1 bounds.2.2⟩, fun body stands => ?_⟩
  obtain ⟨stream, endobj, opened, ended, rfl⟩ := body_of_some bytes objPos body stands
  have before := body_start_before bytes objPos ended opened
  have range := body_bounds bytes objPos stream endobj opened ended
  refine ⟨?_, range.1, range.2⟩
  rw [dictEndOf, opened, ended] at closed
  cases closed
  show min stream endobj ≤ pastEol bytes (stream + 6)
  omega

theorem region_from_object : ∀ pos region, region ∈ regionsFrom bytes room pos →
    ∃ objPos dictEnd, pos ≤ objPos ∧ isObject bytes objPos = true ∧ dictEndOf bytes objPos = some dictEnd ∧
      region = regionOf bytes objPos dictEnd := by
  induction room with
  | zero => exact fun pos region member => absurd member List.not_mem_nil
  | succ room hypothesis =>
      intro pos region member
      rw [regionsFrom] at member
      cases next : nextHeader bytes pos with
      | none =>
          rw [next] at member
          cases member
      | some objPos =>
          have spec := next_header_spec bytes pos objPos next
          rw [next] at member
          dsimp only at member
          cases closed : dictEndOf bytes objPos with
          | none =>
              rw [closed] at member
              cases member
          | some dictEnd =>
              have bounds := dict_end_bounds bytes objPos closed
              rw [closed] at member
              rcases List.mem_cons.mp member with rfl | later
              · exact ⟨objPos, dictEnd, spec.1, spec.2.1, closed, rfl⟩
              · obtain ⟨other, end_, above, object, ends, same⟩ := hypothesis _ region later
                exact ⟨other, end_, by omega, object, ends, same⟩

theorem closed_earlier (first second dictEnd : Nat) (before : first ≤ second)
    (closed : dictEndOf bytes second = some dictEnd) : (dictEndOf bytes first).isSome = true := by
  rw [dictEndOf] at closed ⊢
  have carried : ∀ needle found, findTokenBetween bytes (second + 3) bytes.length needle = some found →
      (findTokenBetween bytes (first + 3) bytes.length needle).isSome = true := by
    intro needle found search
    rw [find_token_eq] at search ⊢
    have isFirst := (Search.first_eq_some _ _ _ _).mp search
    have above := isFirst.from_
    obtain ⟨earlier, there, _⟩ := Search.first_exists _ _ (first + 3) found (by omega) isFirst.before isFirst.passes
    rw [there]
    rfl
  cases ended : endobjOf bytes first with
  | some endobj =>
      cases streamOf bytes first with
      | none => rfl
      | some stream => rfl
  | none =>
      cases last : endobjOf bytes second with
      | some endobj =>
          have some_ := carried _ endobj last
          rw [← endobjOf, ended] at some_
          cases some_
      | none =>
          cases opened : streamOf bytes second with
          | none =>
              rw [last, opened] at closed
              cases closed
          | some stream =>
              rw [streamOf, last] at opened
              have some_ := carried _ stream opened
              rw [streamOf, ended, Option.getD_none]
              cases found : findTokenBetween bytes (first + 3) bytes.length (ascii "stream") with
              | none =>
                  rw [found] at some_
                  cases some_
              | some stream => rfl

-- An `obj` header with a closing token stands between the first `endobj` after
-- an object's dictionary and the end of the object's body.
structure OverrunAt (bytes : List UInt8) (objPos endobj bodyEnd header : Nat) : Prop where
  closes : endobjOf bytes objPos = some endobj
  body : (bodyOf bytes objPos).map Prod.snd = some bodyEnd
  object : isObject bytes header = true
  closed : (dictEndOf bytes header).isSome = true
  after : endobj ≤ header
  before : header + 3 < bodyEnd

def Overruns (bytes : List UInt8) (objPos : Nat) : Prop := ∃ endobj bodyEnd header, OverrunAt bytes objPos endobj bodyEnd header

def takenFrom (bytes : List UInt8) : Nat → Nat → Option Nat
  | 0, pos => (nextHeader bytes pos).filter fun objPos => (dictEndOf bytes objPos).isSome
  | count + 1, pos =>
      (nextHeader bytes pos).bind fun objPos =>
        (dictEndOf bytes objPos).bind fun dictEnd => takenFrom bytes count (resumeOf bytes objPos dictEnd)

theorem resume_endobj (body : Nat × Nat) (stands : bodyOf bytes objPos = some body) :
    endobjOf bytes objPos = some (resumeOf bytes objPos dictEnd) := by
  obtain ⟨stream, endobj, opened, ended, _⟩ := body_of_some bytes objPos body stands
  have before := body_start_before bytes objPos ended opened
  rw [ended, resumeOf, opened, ended, resumeAt, if_pos (by omega)]

theorem apart_iff (objPos dictEnd : Nat) (closed : dictEndOf bytes objPos = some dictEnd) :
    (∀ other ∈ regionsFrom bytes room (resumeOf bytes objPos dictEnd), Apart (regionOf bytes objPos dictEnd) other) ↔
      (0 < room → ¬ Overruns bytes objPos) := by
  have bounds := dict_end_bounds bytes objPos closed
  constructor
  · rintro all more ⟨endobj, bodyEnd, header, overrun⟩
    obtain ⟨body, stands, rfl⟩ := Option.map_eq_some_iff.mp overrun.body
    have resume := resume_endobj bytes objPos dictEnd body stands
    have after := overrun.after
    obtain rfl := Option.some.inj (overrun.closes.symm.trans resume)
    have inside := occurs_inside bytes (ascii "obj") header (by decide) ((Bool.and_eq_true _ _).mp overrun.object).1
    obtain ⟨next, found, early⟩ := Search.first_exists (isObject bytes) (bytes.length + 1) _ header after (by omega) overrun.object
    obtain ⟨last, ends⟩ := Option.isSome_iff_exists.mp overrun.closed
    obtain ⟨end_, nextEnds⟩ := Option.isSome_iff_exists.mp (closed_earlier bytes next header last early ends)
    obtain ⟨rest, split⟩ : ∃ rest, regionsFrom bytes room (resumeOf bytes objPos dictEnd) = regionOf bytes next end_ :: rest := by
      obtain ⟨less, rfl⟩ := Nat.exists_eq_add_of_lt more
      rw [Nat.zero_add, regionsFrom, nextHeader, found]
      dsimp only
      rw [nextEnds]
      exact ⟨_, rfl⟩
    have reaches := (all (regionOf bytes next end_) (split ▸ List.mem_cons_self)).stream body stands
    have before := overrun.before
    change body.2 ≤ next + 3 at reaches
    omega
  · intro clear other member
    obtain ⟨header, end_, above, object, ends, rfl⟩ := region_from_object bytes room _ other member
    refine ⟨by show dictEnd ≤ header + 3; omega, fun body stands => ?_⟩
    by_contra past
    have more : 0 < room := by
      cases room with
      | zero => cases member
      | succ room => exact Nat.succ_pos room
    refine clear more ⟨resumeOf bytes objPos dictEnd, body.2, header, resume_endobj bytes objPos dictEnd body stands, ?_, object,
      by rw [ends]; rfl, above, Nat.lt_of_not_le past⟩
    have stands : bodyOf bytes objPos = some body := stands
    rw [stands]
    rfl

theorem regions_from_apart_iff : ∀ pos, (regionsFrom bytes room pos).Pairwise Apart ↔
      ∀ count objPos, count + 1 < room → takenFrom bytes count pos = some objPos → ¬ Overruns bytes objPos := by
  induction room with
  | zero =>
      intro pos
      exact iff_of_true List.Pairwise.nil fun count objPos less => absurd less (Nat.not_lt_zero _)
  | succ room hypothesis =>
      intro pos
      cases next : nextHeader bytes pos with
      | none =>
          rw [regions_from_none bytes _ pos next]
          refine iff_of_true List.Pairwise.nil fun count objPos _ taken => ?_
          cases count with
          | zero =>
              rw [takenFrom, next] at taken
              cases taken
          | succ count =>
              rw [takenFrom, next] at taken
              cases taken
      | some first =>
          rw [regionsFrom, next]
          dsimp only
          cases closed : dictEndOf bytes first with
          | none =>
              refine iff_of_true List.Pairwise.nil fun count objPos _ taken => ?_
              cases count with
              | zero =>
                  rw [takenFrom, next, Option.filter_some, closed] at taken
                  cases taken
              | succ count =>
                  rw [takenFrom, next, Option.bind_some, closed] at taken
                  cases taken
          | some dictEnd =>
              rw [List.pairwise_cons, apart_iff bytes room first dictEnd closed, hypothesis]
              constructor
              · rintro ⟨clear, later⟩ count objPos less taken
                cases count with
                | zero =>
                    rw [takenFrom, next, Option.filter_some, closed, Option.isSome_some, if_pos rfl] at taken
                    cases taken
                    exact clear (by omega)
                | succ count =>
                    rw [takenFrom, next, Option.bind_some, closed, Option.bind_some] at taken
                    exact later count objPos (by omega) taken
              · intro all
                refine ⟨fun more => all 0 first (by omega) ?_, fun count objPos less taken => all (count + 1) objPos (by omega) ?_⟩
                · rw [takenFrom, next, Option.filter_some, closed, Option.isSome_some, if_pos rfl]
                · rw [takenFrom, next, Option.bind_some, closed, Option.bind_some]
                  exact taken

theorem collect_dict_regions_ordered_iff (bytes : List UInt8) :
    Ordered bytes (collectDictRegions bytes).regions ↔
      ∀ count objPos, count + 1 < maxDictRegions → takenFrom bytes count 0 = some objPos → ¬ Overruns bytes objPos := by
  rw [collect_dict_regions_fresh, ← regions_from_apart_iff]
  constructor
  · exact fun ordered => ordered.apart
  · refine fun apart => ⟨fun region member => ?_, apart⟩
    obtain ⟨objPos, dictEnd, _, _, closed, rfl⟩ := region_from_object bytes _ 0 region member
    exact region_of_formed bytes objPos dictEnd closed

def embedded : List UInt8 := ascii "1 0 obj <<>> stream\n2 0 obj <<>> endobj 3 0 obj <<>> endobj endstream endobj"

def unfinished : List UInt8 := ascii "1 0 obj <<>> stream\nx endobj 2 0 obj <<>> stream\ny endstream endobj"

theorem overrun_not_ordered (first second : DictRegion) (body : Nat × Nat)
    (two : (collectDictRegions bytes).regions = [first, second]) (stands : first.streamRange = some body)
    (inside : second.start < body.2) : ¬ Ordered bytes (collectDictRegions bytes).regions := by
  intro ordered
  have apart := ordered.apart
  rw [two] at apart
  have reaches := ((List.pairwise_cons.mp apart).1 second List.mem_cons_self).stream body stands
  omega

theorem bodies_hold_objects :
    ¬ Ordered embedded (collectDictRegions embedded).regions ∧ ¬ Ordered unfinished (collectDictRegions unfinished).regions :=
  ⟨overrun_not_ordered embedded ⟨7, 13, some 1, some (20, 60)⟩ ⟨47, 53, some 3, none⟩ (20, 60) (by decide +kernel) rfl (by decide),
    overrun_not_ordered unfinished ⟨7, 13, some 1, some (20, 51)⟩ ⟨36, 42, some 2, some (49, 51)⟩ (20, 51) (by decide +kernel) rfl
      (by decide)⟩

end Filefacts.Pdf
