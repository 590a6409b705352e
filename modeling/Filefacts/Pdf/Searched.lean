import Filefacts.Pdf.Regions

set_option autoImplicit false

namespace Filefacts.Pdf

open Bytes (ascii)

variable (bytes needle : List UInt8)

theorem tokens_apart {stop first second : Nat} (named : ∀ b ∈ needle, isNameChar b = true)
    (one : tokenTest bytes needle stop first = true) (two : tokenTest bytes needle stop second = true) (after : first < second) :
    first + needle.length ≤ second := by
  by_contra inside
  rw [tokenTest, Bool.and_eq_true, Bool.and_eq_true] at one two
  have offset : second - 1 - first < needle.length := by omega
  have there := occurs_byte bytes needle first (second - 1 - first) _ one.1.2 (List.getElem?_eq_getElem offset)
  rw [show first + (second - 1 - first) = second - 1 by omega] at there
  have before : byteBefore bytes second = needle[second - 1 - first] := by
    rw [byteBefore, if_neg (Nat.ne_zero_of_lt after), byteAt, there]
    rfl
  have blank := two.2
  rw [isToken, before, named _ (List.getElem_mem offset)] at blank
  exact Bool.false_ne_true blank

-- What a token's searches have cost so far, charged to the last place found or to the whole file.
structure NextToken.Charged (token : NextToken) (bytes : List UInt8) : Prop where
  named : ∀ b ∈ token.needle, isNameChar b = true
  cost : match token.last with
    | .notStarted => token.searched = 0
    | .found position => token.searched ≤ 2 * position + token.needle.length ∧
        tokenTest bytes token.needle bytes.length position = true
    | .exhausted => token.searched ≤ 2 * bytes.length

theorem token_test_fits {stop position : Nat} (passes : tokenTest bytes needle stop position = true) :
    position + needle.length ≤ stop := by
  rw [tokenTest, Bool.and_eq_true, Bool.and_eq_true, decide_eq_true_iff] at passes
  exact passes.1.1

variable (token : NextToken)

theorem charged_total (bytes : List UInt8) (charged : token.Charged bytes) : token.searched ≤ 2 * bytes.length := by
  have cost := charged.cost
  cases last : token.last with
  | notStarted =>
      rw [last] at cost
      exact cost.le.trans (Nat.zero_le _)
  | found position =>
      rw [last] at cost
      have fits := token_test_fits bytes token.needle cost.2
      omega
  | exhausted =>
      rw [last] at cost
      exact cost

theorem search_charged {bytes : List UInt8} {start : Nat} (named : ∀ b ∈ token.needle, isNameChar b = true)
    (reached : ∀ position, tokenTest bytes token.needle bytes.length position = true → start ≤ position →
      token.searched ≤ position + start)
    (whole : token.searched ≤ bytes.length + start) (total : token.searched ≤ 2 * bytes.length) :
    (token.search bytes start).2.Charged bytes := by
  refine ⟨named, ?_⟩
  rw [NextToken.search]
  cases search : findTokenBetween bytes start bytes.length token.needle with
  | none =>
      rw [Option.map_none, Option.getD_none]
      show token.searched + (bytes.length - start) ≤ 2 * bytes.length
      omega
  | some position =>
      have bounds := token_bounds bytes start search
      rw [find_token_eq] at search
      have passes := ((Search.first_eq_some _ _ _ _).mp search).passes
      have charge := reached position passes bounds.1
      rw [Option.map_some, Option.getD_some]
      refine ⟨?_, passes⟩
      show token.searched + (position + token.needle.length - start) ≤ 2 * position + token.needle.length
      omega

-- A search runs again only behind the place it found, so each place pays for one search.
theorem find_charged (bytes : List UInt8) (start : Nat) (charged : token.Charged bytes) :
    (token.find bytes start).2.Charged bytes := by
  have cost := charged.cost
  have total := charged_total token bytes charged
  rw [NextToken.find]
  cases last : token.last with
  | notStarted =>
      rw [last] at cost
      have free : token.searched = 0 := cost
      exact search_charged token charged.named (fun _ _ _ => free.le.trans (Nat.zero_le _))
        (free.le.trans (Nat.zero_le _)) total
  | exhausted => exact charged
  | found position =>
      rw [last] at cost
      dsimp only
      by_cases ahead : start ≤ position
      · rw [if_pos ahead]
        exact charged
      · rw [if_neg ahead]
        have fits := token_test_fits bytes token.needle cost.2
        refine search_charged token charged.named (fun later passes above => ?_) ?_ total
        · have apart := tokens_apart bytes token.needle charged.named cost.2 passes (by omega)
          omega
        · omega

theorem stream_body_charged (dictStart : Nat) (stream endobj : Option Nat) (token : NextToken)
    (charged : token.Charged bytes) : (streamBody bytes dictStart stream endobj token).2.Charged bytes := by
  rw [streamBody.eq_def]
  split
  · split_ifs
    · dsimp only
      split
      · exact charged
      · exact find_charged token bytes _ charged
    · exact charged
  · exact charged

structure Spent (bytes : List UInt8) (walk : Walk) : Prop where
  inside : walk.pos ≤ bytes.length
  searched : walk.searched ≤ 3 * walk.pos
  endobj : walk.nextEndobj.Charged bytes
  endstream : walk.nextEndstream.Charged bytes

structure Linear (bytes : List UInt8) (walk : Walk) : Prop where
  searched : walk.searched ≤ 3 * bytes.length
  endobj : walk.nextEndobj.Charged bytes
  endstream : walk.nextEndstream.Charged bytes

theorem spent_linear (walk : Walk) (spent : Spent bytes walk) : Linear bytes walk :=
  ⟨spent.searched.trans (Nat.mul_le_mul_left 3 spent.inside), spent.endobj, spent.endstream⟩

theorem dict_paid (objPos dictEnd : Nat) (closed : dictEndOf bytes objPos = some dictEnd) :
    objPos + 3 + (((streamOf bytes objPos).map (· + 6)).getD ((endobjOf bytes objPos).getD bytes.length) - (objPos + 3)) ≤
      resumeOf bytes objPos dictEnd + 6 := by
  rw [dictEndOf] at closed
  rw [resumeOf]
  cases opened : streamOf bytes objPos with
  | none =>
      rw [opened] at closed
      cases ended : endobjOf bytes objPos with
      | none =>
          rw [ended] at closed
          cases closed
      | some endobj =>
          rw [ended] at closed
          cases closed
          have bounds := token_bounds bytes _ ended
          show objPos + 3 + (dictEnd - (objPos + 3)) ≤ dictEnd + 6
          omega
  | some stream =>
      rw [opened] at closed
      cases ended : endobjOf bytes objPos with
      | none =>
          rw [ended] at closed
          cases closed
          have bounds := token_bounds bytes _ opened
          show objPos + 3 + (dictEnd + 6 - (objPos + 3)) ≤ dictEnd + 6
          omega
      | some endobj =>
          have before := body_start_before bytes objPos ended opened
          rw [resumeAt, if_pos (by omega)]
          show objPos + 3 + (stream + 6 - (objPos + 3)) ≤ endobj + 6
          omega

theorem turn_spent (walk : Walk) (ready : Ready bytes walk) (spent : Spent bytes walk) :
    if (turn bytes walk).2 = true then Spent bytes (turn bytes walk).1 else Linear bytes (turn bytes walk).1 := by
  have paid := spent.searched
  have inside := spent.inside
  rw [turn]
  cases search : memmemFind bytes (ascii "obj") walk.pos with
  | none =>
      refine ⟨?_, spent.endobj, spent.endstream⟩
      show walk.searched + (bytes.length - walk.pos) ≤ 3 * bytes.length
      omega
  | some objPos =>
      have isFirst := (Search.first_eq_some _ _ _ _).mp search
      have above := isFirst.from_
      have fits : objPos + 3 ≤ bytes.length := occurs_inside bytes _ objPos (by decide) isFirst.passes
      cases header : isHeader bytes objPos with
      | false =>
          simp only [header, Bool.not_false, if_true]
          refine ⟨fits, ?_, spent.endobj, spent.endstream⟩
          show walk.searched + (objPos - walk.pos + 3) ≤ 3 * (objPos + 3)
          omega
      | true =>
          have fresh := find_fresh walk.nextEndobj bytes walk.pos (objPos + 3) ready.endobj (Nat.le_trans above (Nat.le_add_right _ _))
          have ended : (walk.nextEndobj.find bytes (objPos + 3)).1 = endobjOf bytes objPos := by
            rw [fresh.1, ready.endobjNeedle]
            rfl
          have opened : findTokenBetween bytes (objPos + 3) ((endobjOf bytes objPos).getD bytes.length) (ascii "stream") =
              streamOf bytes objPos := rfl
          have endobj := find_charged walk.nextEndobj bytes (objPos + 3) spent.endobj
          simp only [header, Bool.not_true, Bool.false_eq_true, if_false, ended, opened]
          cases closed : dictEnd (streamOf bytes objPos) (endobjOf bytes objPos) with
          | none =>
              refine ⟨?_, endobj, spent.endstream⟩
              have bare : streamOf bytes objPos = none ∧ endobjOf bytes objPos = none := by
                cases one : streamOf bytes objPos <;> cases two : endobjOf bytes objPos <;> rw [one, two] at closed <;> cases closed
                exact ⟨rfl, rfl⟩
              rw [bare.1, bare.2]
              show walk.searched + (objPos - walk.pos + 3) + (bytes.length - (objPos + 3)) ≤ 3 * bytes.length
              omega
          | some dictEnd =>
              have bounds := dict_end_bounds bytes objPos closed
              have cost := dict_paid bytes objPos dictEnd closed
              refine ⟨bounds.2.2, ?_, endobj, stream_body_charged bytes _ _ _ _ spent.endstream⟩
              show walk.searched + (objPos - walk.pos + 3) + _ ≤ 3 * resumeOf bytes objPos dictEnd
              omega

theorem walk_on_linear (fuel : Nat) : ∀ walk : Walk, Ready bytes walk → Spent bytes walk →
    Linear bytes (walkOn bytes fuel walk) := by
  induction fuel with
  | zero => exact fun walk _ spent => spent_linear bytes walk spent
  | succ fuel ih =>
      intro walk ready spent
      rw [walkOn]
      by_cases going : walk.pos < bytes.length ∧ walk.regions.length < maxDictRegions
      · rw [if_pos going]
        have turned := turn_turned bytes walk ready
        have paid := turn_spent bytes walk ready spent
        generalize turn bytes walk = after at turned paid
        cases turned with
        | stopped next kept ended => exact paid
        | skipped next kept ready onward same => exact ih next ready paid
        | took next objPos dictEnd header closed pushed resume onward ready => exact ih next ready paid
      · rw [if_neg going]
        exact spent_linear bytes walk spent

theorem new_charged (bytes : List UInt8) (named : ∀ b ∈ needle, isNameChar b = true) : (NextToken.new needle).Charged bytes :=
  ⟨named, rfl⟩

theorem endobj_named : ∀ b ∈ ascii "endobj", isNameChar b = true := List.all_eq_true.mp rfl

theorem endstream_named : ∀ b ∈ ascii "endstream", isNameChar b = true := List.all_eq_true.mp rfl

theorem collect_dict_regions_linear (bytes : List UInt8) :
    (collectDictRegions bytes).regions = regionsFrom bytes maxDictRegions 0 ∧
      (collectDictRegions bytes).searched ≤ 16 * bytes.length := by
  refine ⟨collect_dict_regions_fresh bytes, ?_⟩
  have ready : Ready bytes ⟨0, NextToken.new (ascii "endobj"), NextToken.new (ascii "endstream"), 0, []⟩ :=
    ⟨rfl, rfl, new_holds _ bytes 0, new_holds _ bytes 0⟩
  have linear := walk_on_linear bytes bytes.length _ ready
    ⟨Nat.zero_le _, Nat.zero_le _, new_charged _ bytes endobj_named, new_charged _ bytes endstream_named⟩
  have endobj := charged_total _ bytes linear.endobj
  have endstream := charged_total _ bytes linear.endstream
  have walked := linear.searched
  rw [collectDictRegions]
  dsimp only
  omega

end Filefacts.Pdf
