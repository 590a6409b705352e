import Filefacts.Pdf.Lex

set_option autoImplicit false

namespace Filefacts.Pdf

open Bytes (ascii)

def maxDictRegions : Nat := 50000

structure DictRegion where
  start : Nat
  end_ : Nat
  objId : Option Nat
  streamRange : Option (Nat × Nat)
deriving DecidableEq, Repr

def splitTrailing (bytes : List UInt8) (passes : UInt8 → Bool) : List UInt8 × List UInt8 :=
  (bytes.rdropWhile passes, bytes.rtakeWhile passes)

def parseObjIdBefore (bytes : List UInt8) (objPos : Nat) : Option Nat :=
  let head := (splitTrailing (bytes.take objPos) isAsciiWhitespace).1
  let (head, generation) := splitTrailing head isAsciiDigit
  if generation = [] then none
  else
    let head := (splitTrailing head isAsciiWhitespace).1
    let id := (splitTrailing head isAsciiDigit).2
    parseUnsigned (2 ^ 32) (id.map fun b => Char.ofNat b.toNat)

inductive LengthValue where
  | missing
  | invalid
  | indirect
  | direct (length : Nat)
deriving DecidableEq, Repr

def lengthValue (value : List Char) : LengthValue :=
  if value = [] then .missing
  else
    match parseUnsigned (2 ^ 64) value with
    | some number => .direct number
    | none =>
        match (value.splitOnP Constraint.isWhitespace).filter (· != []) with
        | [id, generation, ['R']] =>
            if (parseUnsigned (2 ^ 32) id).isSome ∧ (parseUnsigned (2 ^ 32) generation).isSome then .indirect else .invalid
        | _ => .invalid

-- Each turn moves past a `/Length`, so no more turns than bytes are needed.
def classifyFrom (dict : List UInt8) : Nat → Nat → LengthValue
  | 0, _ => .missing
  | fuel + 1, cursor =>
      match memmemFind dict (ascii "/Length") cursor with
      | none => .missing
      | some found =>
          let after := found + 7
          match dict[after]? with
          | none => .missing
          | some b =>
              if isNameChar b then classifyFrom dict fuel after
              else
                let end_ := skipWhile dict after fun b => !(b == 47 || b == 60 || b == 62 || b == 91 || b == 93)
                lengthValue (Constraint.trim ((decodeUtf8 ((dict.drop after).take (end_ - after))).getD []))

def classifyStreamLength (dict : List UInt8) : LengthValue := classifyFrom dict (dict.length + 1) 0

def pastEol (bytes : List UInt8) (position : Nat) : Nat :=
  let position := if bytes[position]? = some 13 then position + 1 else position
  if bytes[position]? = some 10 then position + 1 else position

def declaredStreamEnd (bytes : List UInt8) (bodyStart declared : Nat) : Option Nat :=
  let bodyEnd := bodyStart + declared
  if bodyEnd > bytes.length then none
  else if occursAt bytes (ascii "endstream") (pastEol bytes bodyEnd) then some bodyEnd
  else none

def fallbackStreamEnd (bytes : List UInt8) (bodyStart endstream : Nat) : Nat :=
  let bodyEnd := if endstream > bodyStart ∧ byteBefore bytes endstream = 10 then endstream - 1 else endstream
  if bodyEnd > bodyStart ∧ byteBefore bytes bodyEnd = 13 then bodyEnd - 1 else bodyEnd

structure NextToken where
  needle : List UInt8
  last : Search.Memory
  searched : Nat
deriving DecidableEq, Repr

def NextToken.new (needle : List UInt8) : NextToken := ⟨needle, .notStarted, 0⟩

def NextToken.search (token : NextToken) (bytes : List UInt8) (start : Nat) : Option Nat × NextToken :=
  let found := findTokenBetween bytes start bytes.length token.needle
  (found, { token with
    last := Search.Memory.ofAnswer found
    searched := token.searched + ((found.map (· + token.needle.length)).getD bytes.length - start) })

def NextToken.find (token : NextToken) (bytes : List UInt8) (start : Nat) : Option Nat × NextToken :=
  match token.last with
  | .found position => if start ≤ position then (some position, token) else token.search bytes start
  | .exhausted => (none, token)
  | .notStarted => token.search bytes start

structure Walk where
  pos : Nat
  nextEndobj : NextToken
  nextEndstream : NextToken
  searched : Nat
  regions : List DictRegion
deriving DecidableEq, Repr

def declaredEnd (bytes : List UInt8) (bodyStart : Nat) (dict : List UInt8) : Option Nat :=
  match classifyStreamLength dict with
  | .direct length => declaredStreamEnd bytes bodyStart length
  | _ => none

def streamBody (bytes : List UInt8) (dictStart : Nat) (stream endobj : Option Nat) (nextEndstream : NextToken) :
    Option (Nat × Nat) × NextToken :=
  match stream, endobj with
  | some stream, some endobj =>
      if stream < endobj then
        let bodyStart := pastEol bytes (stream + 6)
        match declaredEnd bytes bodyStart ((bytes.drop dictStart).take (stream - dictStart)) with
        | some bodyEnd => (some (bodyStart, bodyEnd), nextEndstream)
        | none =>
            let (endstream, nextEndstream) := nextEndstream.find bytes bodyStart
            (some (bodyStart, fallbackStreamEnd bytes bodyStart (endstream.getD endobj)), nextEndstream)
      else (none, nextEndstream)
  | _, _ => (none, nextEndstream)

def dictEnd (stream endobj : Option Nat) : Option Nat :=
  match stream, endobj with
  | some stream, some endobj => some (min stream endobj)
  | some stream, none => some stream
  | none, endobj => endobj

def resumeAt (stream endobj : Option Nat) (dictEnd : Nat) : Nat :=
  match stream, endobj with
  | some stream, some endobj => if stream < endobj then endobj else dictEnd
  | _, _ => dictEnd

def isHeader (bytes : List UInt8) (objPos : Nat) : Bool :=
  isAsciiWhitespace (byteBefore bytes objPos) && !isNameChar (byteAt bytes (objPos + 3))

def turn (bytes : List UInt8) (walk : Walk) : Walk × Bool :=
  match memmemFind bytes (ascii "obj") walk.pos with
  | none => ({ walk with searched := walk.searched + (bytes.length - walk.pos) }, false)
  | some objPos =>
      let searched := walk.searched + (objPos - walk.pos + 3)
      if !isHeader bytes objPos then ({ walk with searched := searched, pos := objPos + 3 }, true)
      else
        let dictStart := objPos + 3
        let (endobj, nextEndobj) := walk.nextEndobj.find bytes dictStart
        let bound := endobj.getD bytes.length
        let stream := findTokenBetween bytes dictStart bound (ascii "stream")
        let searched := searched + ((stream.map (· + 6)).getD bound - dictStart)
        match dictEnd stream endobj with
        | none => ({ walk with searched := searched, nextEndobj := nextEndobj }, false)
        | some dictEnd =>
            let (streamRange, nextEndstream) := streamBody bytes dictStart stream endobj walk.nextEndstream
            ({ pos := resumeAt stream endobj dictEnd
               nextEndobj := nextEndobj
               nextEndstream := nextEndstream
               searched := searched
               regions := walk.regions ++ [⟨dictStart, dictEnd, parseObjIdBefore bytes objPos, streamRange⟩] }, true)

-- Each turn moves forward, so no more turns than bytes are needed.
def walkOn (bytes : List UInt8) : Nat → Walk → Walk
  | 0, walk => walk
  | fuel + 1, walk =>
      if walk.pos < bytes.length ∧ walk.regions.length < maxDictRegions then
        let next := turn bytes walk
        if next.2 then walkOn bytes fuel next.1 else next.1
      else walk

structure RegionWalk where
  regions : List DictRegion
  searched : Nat
deriving DecidableEq, Repr

def collectDictRegions (bytes : List UInt8) : RegionWalk :=
  let walk := walkOn bytes bytes.length ⟨0, NextToken.new (ascii "endobj"), NextToken.new (ascii "endstream"), 0, []⟩
  ⟨walk.regions, walk.searched + walk.nextEndobj.searched + walk.nextEndstream.searched⟩

open Bytes (ascii)

def tokenTest (bytes needle : List UInt8) (stop position : Nat) : Bool :=
  decide (position + needle.length ≤ stop) && occursAt bytes needle position && isToken bytes needle position

variable (bytes : List UInt8) (start : Nat) (needle : List UInt8) (position objPos : Nat)

theorem find_token_eq : findTokenBetween bytes start bytes.length needle =
      Search.first (tokenTest bytes needle bytes.length) bytes.length start := by
  rw [findTokenBetween, Nat.min_self]
  rfl

theorem token_bounds {stop : Nat} {needle : List UInt8} {found : Nat}
    (search : findTokenBetween bytes start stop needle = some found) :
    start ≤ found ∧ found + needle.length ≤ stop ∧ found + needle.length ≤ bytes.length := by
  have isFirst := (Search.first_eq_some _ _ _ _).mp search
  have passes := isFirst.passes
  rw [Bool.and_eq_true, Bool.and_eq_true, decide_eq_true_eq] at passes
  refine ⟨isFirst.from_, ?_, ?_⟩ <;> omega

theorem token_after (stop : Nat) (needle : List UInt8) (found : Nat)
    (search : findTokenBetween bytes start stop needle = some found) :
    occursAt bytes needle found = true ∧ isNameChar (byteAt bytes (found + needle.length)) = false := by
  have passes := ((Search.first_eq_some _ _ _ _).mp search).passes
  rw [Bool.and_eq_true, Bool.and_eq_true, isToken, Bool.and_eq_true, Bool.not_eq_true'] at passes
  exact ⟨passes.1.2, by simpa using passes.2.2⟩

def NextToken.Holds (token : NextToken) (bytes : List UInt8) (floor : Nat) : Prop :=
  token.last.Holds (tokenTest bytes token.needle bytes.length) bytes.length floor

theorem new_holds (bytes : List UInt8) (floor : Nat) : (NextToken.new needle).Holds bytes floor := trivial

theorem find_fresh (token : NextToken) (bytes : List UInt8) (floor start : Nat) (holds : token.Holds bytes floor)
    (above : floor ≤ start) :
    (token.find bytes start).1 = findTokenBetween bytes start bytes.length token.needle ∧
      (token.find bytes start).2.needle = token.needle ∧ (token.find bytes start).2.Holds bytes start := by
  have searched : (token.search bytes start).1 = findTokenBetween bytes start bytes.length token.needle ∧
      (token.search bytes start).2.needle = token.needle ∧ (token.search bytes start).2.Holds bytes start := by
    refine ⟨rfl, rfl, ?_⟩
    have answer := Search.of_answer_holds (tokenTest bytes token.needle bytes.length) bytes.length start
    rw [← find_token_eq] at answer
    exact answer
  have later := Search.holds_later _ _ holds above
  rw [NextToken.find]
  cases memory : token.last with
  | notStarted => exact searched
  | exhausted =>
      rw [memory] at later
      refine ⟨?_, rfl, ?_⟩
      · rw [find_token_eq]
        exact (later start (Nat.le_refl _)).symm
      · rw [NextToken.Holds, memory]
        exact later
  | found position =>
      dsimp only
      by_cases ahead : start ≤ position
      · rw [if_pos ahead]
        rw [memory] at later
        refine ⟨?_, rfl, ?_⟩
        · rw [find_token_eq]
          exact (later start (Nat.le_refl _) ahead).symm
        · rw [NextToken.Holds, memory]
          exact later
      · rw [if_neg ahead]
        exact searched

def endobjOf (bytes : List UInt8) (objPos : Nat) : Option Nat :=
  findTokenBetween bytes (objPos + 3) bytes.length (ascii "endobj")

def streamOf (bytes : List UInt8) (objPos : Nat) : Option Nat :=
  findTokenBetween bytes (objPos + 3) ((endobjOf bytes objPos).getD bytes.length) (ascii "stream")

def endstreamFrom (bytes : List UInt8) (bodyStart : Nat) : Option Nat :=
  findTokenBetween bytes bodyStart bytes.length (ascii "endstream")

def bodyEndOf (bytes : List UInt8) (objPos stream endobj : Nat) : Nat :=
  let bodyStart := pastEol bytes (stream + 6)
  (declaredEnd bytes bodyStart ((bytes.drop (objPos + 3)).take (stream - (objPos + 3)))).getD
    (fallbackStreamEnd bytes bodyStart ((endstreamFrom bytes bodyStart).getD endobj))

def bodyOf (bytes : List UInt8) (objPos : Nat) : Option (Nat × Nat) :=
  match streamOf bytes objPos, endobjOf bytes objPos with
  | some stream, some endobj => some (pastEol bytes (stream + 6), bodyEndOf bytes objPos stream endobj)
  | _, _ => none

def dictEndOf (bytes : List UInt8) (objPos : Nat) : Option Nat := dictEnd (streamOf bytes objPos) (endobjOf bytes objPos)

def isObject (bytes : List UInt8) (objPos : Nat) : Bool := occursAt bytes (ascii "obj") objPos && isHeader bytes objPos

def nextHeader (bytes : List UInt8) (start : Nat) : Option Nat := Search.first (isObject bytes) (bytes.length + 1) start

def regionOf (bytes : List UInt8) (objPos dictEnd : Nat) : DictRegion :=
  ⟨objPos + 3, dictEnd, parseObjIdBefore bytes objPos, bodyOf bytes objPos⟩

def resumeOf (bytes : List UInt8) (objPos dictEnd : Nat) : Nat :=
  resumeAt (streamOf bytes objPos) (endobjOf bytes objPos) dictEnd

def regionsFrom (bytes : List UInt8) : Nat → Nat → List DictRegion
  | 0, _ => []
  | room + 1, pos =>
      match nextHeader bytes pos with
      | none => []
      | some objPos =>
          match dictEndOf bytes objPos with
          | none => []
          | some dictEnd => regionOf bytes objPos dictEnd :: regionsFrom bytes room (resumeOf bytes objPos dictEnd)

theorem occurs_byte (offset : Nat) (b : UInt8) (occurs : occursAt bytes needle position = true)
    (there : needle[offset]? = some b) : bytes[position + offset]? = some b := by
  obtain ⟨rest, split⟩ := List.isPrefixOf_iff_prefix.mp occurs
  have inside := (List.getElem?_eq_some_iff.mp there).1
  rw [← List.getElem?_drop, ← split, List.getElem?_append_left inside]
  exact there

theorem occurs_inside (some_ : needle ≠ []) (occurs : occursAt bytes needle position = true) :
    position + needle.length ≤ bytes.length := by
  have fits := (List.isPrefixOf_iff_prefix.mp occurs).length_le
  have positive := List.length_pos_iff.mpr some_
  rw [List.length_drop] at fits
  omega

theorem past_eol_from : position ≤ pastEol bytes position := by
  rw [pastEol]
  split <;> split <;> omega

theorem past_eol_before (stop : Nat) (b : UInt8) (there : bytes[stop]? = some b) (line : b ≠ 10)
    (feed : b ≠ 13) (below : position ≤ stop) : pastEol bytes position ≤ stop := by
  have step : ∀ at_ c, at_ ≤ stop → b ≠ c → (if bytes[at_]? = some c then at_ + 1 else at_) ≤ stop := by
    intro at_ c under apart
    by_cases same : bytes[at_]? = some c
    · rw [if_pos same]
      by_contra past
      obtain rfl : at_ = stop := by omega
      exact apart (Option.some.inj (there.symm.trans same))
    · rw [if_neg same]
      exact under
  rw [pastEol]
  exact step _ 10 (step position 13 below feed) line

theorem endobj_byte (endobj : Nat) (found : endobjOf bytes objPos = some endobj) : bytes[endobj]? = some 101 := by
  have occurs := (token_after bytes _ _ _ _ found).1
  exact occurs_byte bytes _ endobj 0 101 occurs (by decide)

theorem body_start_before {stream endobj : Nat} (closed : endobjOf bytes objPos = some endobj)
    (opened : streamOf bytes objPos = some stream) :
    objPos + 3 ≤ stream ∧ stream + 6 ≤ pastEol bytes (stream + 6) ∧ pastEol bytes (stream + 6) ≤ endobj := by
  rw [streamOf, closed, Option.getD_some] at opened
  have bounds := token_bounds bytes _ opened
  refine ⟨bounds.1, past_eol_from bytes _, ?_⟩
  exact past_eol_before bytes _ endobj 101 (endobj_byte bytes objPos endobj closed) (by decide) (by decide) bounds.2.1

theorem dict_end_bounds {dictEnd : Nat} (closed : dictEndOf bytes objPos = some dictEnd) :
    objPos + 3 ≤ dictEnd ∧ dictEnd ≤ resumeOf bytes objPos dictEnd ∧ resumeOf bytes objPos dictEnd ≤ bytes.length := by
  rw [dictEndOf] at closed
  rw [resumeOf]
  cases opened : streamOf bytes objPos with
  | none =>
      rw [opened] at closed
      cases ended : endobjOf bytes objPos with
      | none =>
          rw [ended] at closed
          cases closed
      | some endobj =>
          rw [ended] at closed
          cases closed
          have bounds := token_bounds bytes _ ended
          exact ⟨bounds.1, Nat.le_refl _, Nat.le_trans (Nat.le_add_right _ _) bounds.2.2⟩
  | some stream =>
      rw [opened] at closed
      cases ended : endobjOf bytes objPos with
      | none =>
          rw [ended] at closed
          cases closed
          have bounds := token_bounds bytes _ opened
          exact ⟨bounds.1, Nat.le_refl _, Nat.le_trans (Nat.le_add_right _ _) bounds.2.2⟩
      | some endobj =>
          rw [ended] at closed
          cases closed
          have before := body_start_before bytes objPos ended opened
          have bounds := token_bounds bytes _ ended
          rw [Nat.min_eq_left (by omega), resumeAt, if_pos (by omega)]
          exact ⟨before.1, by omega, by omega⟩

end Filefacts.Pdf
