import Filefacts.Bytes

set_option autoImplicit false

namespace Filefacts.Cfml

open Bytes (ascii eqIgnoreAsciiCase isAsciiAlphabetic saturatingAdd saturatingMul)

def maxTags : Nat := 20000

-- The end of an opaque string in an interpolation; its quote is doubled to stand for itself.
def opaqueString (bytes : List UInt8) (quote : UInt8) (pos : Nat) : Option Nat :=
  if inside : pos < bytes.length then
    if bytes[pos] = quote then
      if bytes[pos + 1]? = some quote then opaqueString bytes quote (pos + 2) else some (pos + 1)
    else opaqueString bytes quote (pos + 1)
  else none
  termination_by bytes.length - pos

variable (bytes : List UInt8) (pos stop : Nat)

theorem opaque_string_past (quote : UInt8) (pos next : Nat) (found : opaqueString bytes quote pos = some next) :
    pos < next := by
  induction pos using opaqueString.induct bytes quote with
  | case1 pos inside closing doubled ih =>
      rw [opaqueString, dif_pos inside, if_pos closing, if_pos doubled] at found
      have past := ih found
      omega
  | case2 pos inside closing single =>
      rw [opaqueString, dif_pos inside, if_pos closing, if_neg single] at found
      exact Nat.lt_of_lt_of_eq (Nat.lt_succ_self pos) (Option.some.inj found)
  | case3 pos inside other ih =>
      rw [opaqueString, dif_pos inside, if_neg other] at found
      exact Nat.lt_of_succ_lt (ih found)
  | case4 pos outside =>
      rw [opaqueString, dif_neg outside] at found
      cases found

def interpolation (bytes : List UInt8) (pos : Nat) : Option Nat :=
  if inside : pos < bytes.length then
    if bytes[pos] = 35 then some (pos + 1)
    else if bytes[pos] = 39 ∨ bytes[pos] = 34 then
      match found : opaqueString bytes bytes[pos] (pos + 1) with
      | none => none
      | some next => interpolation bytes next
    else interpolation bytes (pos + 1)
  else none
  termination_by bytes.length - pos
  decreasing_by
    · have past := opaque_string_past bytes bytes[pos] (pos + 1) next found
      omega
    · omega

theorem interpolation_past (next : Nat) (found : interpolation bytes pos = some next) : pos < next := by
  induction pos using interpolation.induct bytes with
  | case1 pos inside hash =>
      rw [interpolation, dif_pos inside, if_pos hash] at found
      exact Nat.lt_of_lt_of_eq (Nat.lt_succ_self pos) (Option.some.inj found)
  | case2 pos inside other quote unended =>
      rw [interpolation, dif_pos inside, if_neg other, if_pos quote] at found
      split at found
      · cases found
      · rename_i ended
        rw [unended] at ended
        cases ended
  | case3 pos inside other quote after ended ih =>
      rw [interpolation, dif_pos inside, if_neg other, if_pos quote] at found
      split at found
      · cases found
      · rename_i later ended'
        obtain rfl := Option.some.inj (ended.symm.trans ended')
        have past := opaque_string_past bytes _ _ after ended
        exact Nat.lt_trans (Nat.lt_of_succ_lt past) (ih found)
  | case4 pos inside other plain ih =>
      rw [interpolation, dif_pos inside, if_neg other, if_neg plain] at found
      exact Nat.lt_of_succ_lt (ih found)
  | case5 pos outside =>
      rw [interpolation, dif_neg outside] at found
      cases found

def quotedFrom (bytes : List UInt8) (quote : UInt8) (pos : Nat) : Option Nat :=
  if inside : pos < bytes.length then
    if bytes[pos] = 35 then
      if bytes[pos + 1]? = some 35 then quotedFrom bytes quote (pos + 2)
      else
        match found : interpolation bytes (pos + 1) with
        | none => none
        | some next => quotedFrom bytes quote next
    else if bytes[pos] = quote then
      if bytes[pos + 1]? = some quote then quotedFrom bytes quote (pos + 2) else some (pos + 1)
    else quotedFrom bytes quote (pos + 1)
  else none
  termination_by bytes.length - pos
  decreasing_by
    · omega
    · have past := interpolation_past bytes (pos + 1) next found
      omega
    · omega
    · omega

theorem quoted_from_past {quote : UInt8} {pos next : Nat} (found : quotedFrom bytes quote pos = some next) : pos < next := by
  induction pos using quotedFrom.induct bytes quote with
  | case1 pos inside hash doubled ih =>
      rw [quotedFrom, dif_pos inside, if_pos hash, if_pos doubled] at found
      have past := ih found
      omega
  | case2 pos inside hash single unended =>
      rw [quotedFrom, dif_pos inside, if_pos hash, if_neg single] at found
      split at found
      · cases found
      · rename_i ended
        rw [unended] at ended
        cases ended
  | case3 pos inside hash single after ended ih =>
      rw [quotedFrom, dif_pos inside, if_pos hash, if_neg single] at found
      split at found
      · cases found
      · rename_i later ended'
        obtain rfl := Option.some.inj (ended.symm.trans ended')
        have past := interpolation_past bytes _ after ended
        exact Nat.lt_trans (Nat.lt_of_succ_lt past) (ih found)
  | case4 pos inside other closing doubled ih =>
      rw [quotedFrom, dif_pos inside, if_neg other, if_pos closing, if_pos doubled] at found
      have past := ih found
      omega
  | case5 pos inside other closing single =>
      rw [quotedFrom, dif_pos inside, if_neg other, if_pos closing, if_neg single] at found
      exact Nat.lt_of_lt_of_eq (Nat.lt_succ_self pos) (Option.some.inj found)
  | case6 pos inside other plain ih =>
      rw [quotedFrom, dif_pos inside, if_neg other, if_neg plain] at found
      exact Nat.lt_of_succ_lt (ih found)
  | case7 pos outside =>
      rw [quotedFrom, dif_neg outside] at found
      cases found

def quoted (bytes : List UInt8) (pos : Nat) : Option Nat :=
  match bytes[pos]? with
  | none => none
  | some quote => quotedFrom bytes quote (pos + 1)

theorem quoted_past (next : Nat) (found : quoted bytes pos = some next) : pos < next := by
  rw [quoted] at found
  cases first : bytes[pos]? with
  | none =>
      rw [first] at found
      cases found
  | some quote =>
      rw [first] at found
      exact Nat.lt_of_succ_lt (quoted_from_past bytes found)

def isAsciiWhitespace (b : UInt8) : Bool := b = 32 || b = 9 || b = 10 || b = 12 || b = 13

def isNameStart (b : UInt8) : Bool := isAsciiAlphabetic b || b = 95

def isNameOctet (b : UInt8) : Bool := isNameStart b || (48 ≤ b && b ≤ 57)

def whitespace (bytes : List UInt8) (pos stop : Nat) : Nat :=
  if pos < stop ∧ bytes[pos]?.any isAsciiWhitespace then whitespace bytes (pos + 1) stop else pos
  termination_by stop - pos

def nameRest (bytes : List UInt8) (pos stop : Nat) : Nat :=
  if pos < stop ∧ bytes[pos]?.any isNameOctet then nameRest bytes (pos + 1) stop else pos
  termination_by stop - pos

-- Only the end itself stops a name before it begins; a position past the end reads one octet.
def identifier (bytes : List UInt8) (pos stop : Nat) : Nat :=
  if pos = stop ∨ ¬ bytes[pos]?.any isNameStart then pos else nameRest bytes (pos + 1) stop

def maxNesting : Nat := 32

def parenthesesFrom (text : List UInt8) (depth pos : Nat) : Option Nat :=
  if inside : pos < text.length then
    if text[pos] = 39 ∨ text[pos] = 34 then
      match found : quoted text pos with
      | none => none
      | some next => parenthesesFrom text depth next
    else if text[pos] = 40 then if maxNesting < depth + 1 then none else parenthesesFrom text (depth + 1) (pos + 1)
    else if text[pos] = 41 then
      if depth = 0 then none else if depth = 1 then some (pos + 1) else parenthesesFrom text (depth - 1) (pos + 1)
    else parenthesesFrom text depth (pos + 1)
  else none
  termination_by text.length - pos
  decreasing_by
    · have past := quoted_past text pos next found
      omega
    all_goals omega

def parentheses (bytes : List UInt8) (pos stop : Nat) : Option Nat := parenthesesFrom (bytes.take stop) 0 pos

theorem whitespace_past : pos ≤ whitespace bytes pos stop := by
  induction pos using whitespace.induct bytes stop with
  | case1 pos blank ih =>
      rw [whitespace, if_pos blank]
      exact Nat.le_of_succ_le ih
  | case2 pos other => rw [whitespace, if_neg other]

theorem name_rest_past : pos ≤ nameRest bytes pos stop := by
  induction pos using nameRest.induct bytes stop with
  | case1 pos more ih =>
      rw [nameRest, if_pos more]
      exact Nat.le_of_succ_le ih
  | case2 pos other => rw [nameRest, if_neg other]

theorem identifier_past : pos ≤ identifier bytes pos stop := by
  rw [identifier]
  split
  · exact Nat.le_refl pos
  · exact Nat.le_of_succ_le (name_rest_past bytes (pos + 1) stop)

theorem parentheses_from_past {text : List UInt8} {depth pos next : Nat} (found : parenthesesFrom text depth pos = some next) :
    pos < next ∧ pos < text.length := by
  induction depth, pos using parenthesesFrom.induct text with
  | case1 depth pos inside quote unended =>
      rw [parenthesesFrom, dif_pos inside, if_pos quote] at found
      split at found
      · cases found
      · rename_i ended
        rw [unended] at ended
        cases ended
  | case2 depth pos inside quote after ended ih =>
      rw [parenthesesFrom, dif_pos inside, if_pos quote] at found
      split at found
      · cases found
      · rename_i later ended'
        obtain rfl := Option.some.inj (ended.symm.trans ended')
        exact ⟨Nat.lt_trans (quoted_past text pos after ended) (ih found).1, inside⟩
  | case3 depth pos inside plain opening deep =>
      rw [parenthesesFrom, dif_pos inside, if_neg plain, if_pos opening, if_pos deep] at found
      cases found
  | case4 depth pos inside plain opening shallow ih =>
      rw [parenthesesFrom, dif_pos inside, if_neg plain, if_pos opening, if_neg shallow] at found
      exact ⟨Nat.lt_of_succ_lt (ih found).1, inside⟩
  | case5 pos inside plain other closing =>
      rw [parenthesesFrom, dif_pos inside, if_neg plain, if_neg other, if_pos closing, if_pos rfl] at found
      cases found
  | case6 pos inside plain other closing one =>
      rw [parenthesesFrom, dif_pos inside, if_neg plain, if_neg other, if_pos closing, if_neg one, if_pos rfl] at found
      exact ⟨Nat.lt_of_lt_of_eq (Nat.lt_succ_self pos) (Option.some.inj found), inside⟩
  | case7 depth pos inside plain other closing zero one ih =>
      rw [parenthesesFrom, dif_pos inside, if_neg plain, if_neg other, if_pos closing, if_neg zero, if_neg one] at found
      exact ⟨Nat.lt_of_succ_lt (ih found).1, inside⟩
  | case8 depth pos inside plain other neither ih =>
      rw [parenthesesFrom, dif_pos inside, if_neg plain, if_neg other, if_neg neither] at found
      exact ⟨Nat.lt_of_succ_lt (ih found).1, inside⟩
  | case9 depth pos outside =>
      rw [parenthesesFrom, dif_neg outside] at found
      cases found

theorem parentheses_past (next : Nat) (found : parentheses bytes pos stop = some next) :
    pos < next ∧ pos < (bytes.take stop).length :=
  parentheses_from_past found

def dotted (bytes : List UInt8) (stop pos : Nat) : Nat :=
  if bytes[pos]? = some 46 then
    let next := whitespace bytes (pos + 1) stop
    let nameEnd := identifier bytes next stop
    if nameEnd = next then pos else dotted bytes stop (whitespace bytes nameEnd stop)
  else pos
  termination_by bytes.length - pos
  decreasing_by
    rename_i dot named
    have inside := (List.getElem?_eq_some_iff.mp dot).1
    have first := whitespace_past bytes (pos + 1) stop
    have second := identifier_past bytes (whitespace bytes (pos + 1) stop) stop
    have third := whitespace_past bytes (identifier bytes (whitespace bytes (pos + 1) stop) stop) stop
    omega

def chainEnd (bytes : List UInt8) (stop pos : Nat) : Nat := dotted bytes stop (whitespace bytes pos stop)

def members (bytes : List UInt8) (stop pos : Nat) : Option Nat :=
  let dot := whitespace bytes pos stop
  let name := whitespace bytes (dot + 1) stop
  let nameEnd := identifier bytes name stop
  let opening := whitespace bytes nameEnd stop
  if bytes[dot]? ≠ some 46 then some pos
  else if nameEnd = name ∨ bytes[opening]? ≠ some 40 then some pos
  else
    match found : parentheses bytes opening stop with
    | none => none
    | some next => members bytes stop next
  termination_by (bytes.take stop).length - pos
  decreasing_by
    obtain ⟨past, inside⟩ := parentheses_past bytes opening stop next found
    have first := whitespace_past bytes pos stop
    have second := whitespace_past bytes (dot + 1) stop
    have third := identifier_past bytes name stop
    have fourth := whitespace_past bytes nameEnd stop
    omega

open Bytes (ascii eqIgnoreAsciiCase saturatingAdd saturatingMul)

def keywords : List (List UInt8) := ["if", "for", "while", "switch", "catch"].map ascii

inductive Exit where
  | finished
  | quote
  | budget
  | parentheses
  | tags
  deriving DecidableEq, Repr

-- What stands at a position: what is passed over, with the declaration flag behind it, or a name that may be called.
inductive Lexeme where
  | stop (exit : Exit)
  | skip (next : Nat) (declaration : Bool)
  | name (next : Nat)
  deriving DecidableEq, Repr

def lex (bytes : List UInt8) (stop pos : Nat) (byte : UInt8) (declaration : Bool) : Lexeme :=
  if byte = 39 ∨ byte = 34 then
    match quoted (bytes.take stop) pos with
    | none => .stop .quote
    | some next => .skip next declaration
  else
    let nameEnd := identifier bytes pos stop
    if nameEnd = pos then .skip (pos + 1) declaration
    else
      let name := (bytes.drop pos).take (nameEnd - pos)
      if eqIgnoreAsciiCase name (ascii "function") then .skip nameEnd true
      else if keywords.any fun keyword => eqIgnoreAsciiCase name keyword then .skip nameEnd declaration
      else .name nameEnd

inductive Called where
  | stop (exit : Exit)
  | skip (next : Nat)
  | call (next : Nat)
  deriving DecidableEq, Repr

def called (bytes : List UInt8) (stop nameEnd chained : Nat) (declaration : Bool) (found : Nat) : Called :=
  if bytes[chained]? ≠ some 40 then .skip nameEnd
  else
    match parentheses bytes chained stop with
    | none => .stop .parentheses
    | some close =>
        if declaration then .skip close
        else
          match members bytes stop close with
          | none => .stop .parentheses
          | some close => if found = maxTags then .stop .tags else .call close

structure Scanned (Memo : Type) where
  out : List (Nat × Nat)
  exit : Exit
  memo : Memo

-- How the end of the chain behind a name is found, from what earlier names left; none when the budget is spent.
def Chaining (Memo : Type) : Type := Memo → (pos : Nat) → Option { chained : Nat // pos ≤ chained } × Memo

theorem lex_past (pos : Nat) (byte : UInt8) (declaration : Bool) :
    (∀ next flag, lex bytes stop pos byte declaration = .skip next flag → pos < next) ∧
      ∀ next, lex bytes stop pos byte declaration = .name next → pos < next ∧ next = identifier bytes pos stop := by
  rw [lex]
  by_cases quote : byte = 39 ∨ byte = 34
  · rw [if_pos quote]
    cases ended : quoted (bytes.take stop) pos with
    | none => exact ⟨by rintro _ _ ⟨⟩, by rintro _ ⟨⟩⟩
    | some next =>
        have past := quoted_past (bytes.take stop) pos next ended
        exact ⟨by rintro _ _ ⟨⟩; exact past, by rintro _ ⟨⟩⟩
  · rw [if_neg quote]
    by_cases none : identifier bytes pos stop = pos
    · simp only [if_pos none]
      exact ⟨by rintro _ _ ⟨⟩; exact Nat.lt_succ_self pos, by rintro _ ⟨⟩⟩
    · have past : pos < identifier bytes pos stop := Nat.lt_of_le_of_ne (identifier_past bytes pos stop) (Ne.symm none)
      simp only [if_neg none]
      split
      · exact ⟨by rintro _ _ ⟨⟩; exact past, by rintro _ ⟨⟩⟩
      · split
        · exact ⟨by rintro _ _ ⟨⟩; exact past, by rintro _ ⟨⟩⟩
        · exact ⟨by rintro _ _ ⟨⟩, by rintro _ ⟨⟩; exact ⟨past, rfl⟩⟩

theorem members_past (pos next : Nat) (found : members bytes stop pos = some next) : pos ≤ next := by
  induction pos using members.induct bytes stop with
  | case1 pos dot none =>
      rw [members, if_pos none] at found
      exact Nat.le_of_eq (Option.some.inj found)
  | case2 pos dot name nameEnd opening dotted none =>
      rw [members, if_neg dotted, if_pos none] at found
      exact Nat.le_of_eq (Option.some.inj found)
  | case3 pos dot name nameEnd opening dotted some unclosed =>
      rw [members, if_neg dotted, if_neg some] at found
      split at found
      · cases found
      · rename_i closed
        exact absurd (unclosed.symm.trans closed) (by rintro ⟨⟩)
  | case4 pos dot name nameEnd opening dotted some close closed ih =>
      rw [members, if_neg dotted, if_neg some] at found
      split at found
      · cases found
      · rename_i after closed'
        obtain rfl := Option.some.inj (closed.symm.trans closed')
        have past := (parentheses_past bytes _ stop close closed).1
        have first := whitespace_past bytes pos stop
        have second := whitespace_past bytes (dot + 1) stop
        have third := identifier_past bytes name stop
        have fourth := whitespace_past bytes nameEnd stop
        have rest := ih found
        omega

theorem called_past (nameEnd chained : Nat) (declaration : Bool) (found : Nat) :
    (∀ next, called bytes stop nameEnd chained declaration found = .skip next → next = nameEnd ∨ chained < next) ∧
      ∀ next, called bytes stop nameEnd chained declaration found = .call next → chained < next := by
  rw [called]
  by_cases opening : bytes[chained]? ≠ some 40
  · rw [if_pos opening]
    exact ⟨by rintro _ ⟨⟩; exact Or.inl rfl, by rintro _ ⟨⟩⟩
  · rw [if_neg opening]
    cases closed : parentheses bytes chained stop with
    | none => exact ⟨by rintro _ ⟨⟩, by rintro _ ⟨⟩⟩
    | some close =>
        have past := (parentheses_past bytes chained stop close closed).1
        cases declaration with
        | true => exact ⟨by rintro _ ⟨⟩; exact Or.inr past, by rintro _ ⟨⟩⟩
        | false =>
            cases method : members bytes stop close with
            | none => simp [method]
            | some last =>
                have further := members_past bytes stop close last method
                simp only [method, Bool.false_eq_true, if_false]
                split
                · exact ⟨by rintro _ ⟨⟩, by rintro _ ⟨⟩⟩
                · exact ⟨by rintro _ ⟨⟩, by rintro _ ⟨⟩; exact Nat.lt_of_lt_of_le past further⟩

def callsLoop {Memo : Type} (chaining : Chaining Memo) (bytes : List UInt8) (stop pos : Nat) (memo : Memo) (declaration : Bool)
    (out : List (Nat × Nat)) : Scanned Memo :=
  if inside : pos < (bytes.take stop).length then
    match lexed : lex bytes stop pos (bytes.take stop)[pos] declaration with
    | .stop exit => ⟨out, exit, memo⟩
    | .skip next flag => callsLoop chaining bytes stop next memo flag out
    | .name nameEnd =>
        match chaining memo nameEnd with
        | (none, memo) => ⟨out, .budget, memo⟩
        | (some chained, memo) =>
            match passed : called bytes stop nameEnd chained.val declaration out.length with
            | .stop exit => ⟨out, exit, memo⟩
            | .skip next => callsLoop chaining bytes stop next memo false out
            | .call next => callsLoop chaining bytes stop next memo false (out ++ [(pos, next)])
  else ⟨out, .finished, memo⟩
  termination_by (bytes.take stop).length - pos
  decreasing_by
    · have past := (lex_past bytes stop pos _ declaration).1 next flag lexed
      omega
    · have past := ((lex_past bytes stop pos _ declaration).2 nameEnd lexed).1
      have chain := chained.property
      have later := (called_past bytes stop nameEnd _ declaration out.length).1 next passed
      omega
    · have past := ((lex_past bytes stop pos _ declaration).2 nameEnd lexed).1
      have chain := chained.property
      have later := (called_past bytes stop nameEnd _ declaration out.length).2 next passed
      omega

theorem dotted_past (pos : Nat) : pos ≤ dotted bytes stop pos := by
  induction pos using dotted.induct bytes stop with
  | case1 pos dot next nameEnd none =>
      rw [dotted, if_pos dot, if_pos none]
  | case2 pos dot next nameEnd named ih =>
      rw [dotted, if_pos dot, if_neg named]
      have first := whitespace_past bytes (pos + 1) stop
      have second := identifier_past bytes next stop
      have third := whitespace_past bytes nameEnd stop
      exact (Nat.le_succ pos).trans (first.trans (second.trans (third.trans ih)))
  | case3 pos other => rw [dotted, if_neg other]

theorem chain_end_past (pos : Nat) : pos ≤ chainEnd bytes stop pos :=
  (whitespace_past bytes pos stop).trans (dotted_past bytes stop _)

-- The last chain and the octets that chain scans have walked; the extents of these scans are kept beside them.
structure Chain where
  last : Nat
  work : Nat
  scans : List (Nat × Nat)
  deriving DecidableEq, Repr

def chainBudget (start stop : Nat) : Nat := saturatingAdd (saturatingMul (stop - start) 2) 1024

def reused (bytes : List UInt8) (start stop : Nat) : Chaining Chain := fun memo pos =>
  if inside : pos < memo.last then (some ⟨memo.last, Nat.le_of_lt inside⟩, memo)
  else
    let chained := chainEnd bytes stop pos
    let work := memo.work + (chained - pos)
    (if chainBudget start stop < work then none else some ⟨chained, chain_end_past bytes stop pos⟩,
      ⟨chained, work, memo.scans ++ [(pos, chained)]⟩)

def rescanned (bytes : List UInt8) (stop : Nat) : Chaining (List (Nat × Nat)) := fun scans pos =>
  (some ⟨chainEnd bytes stop pos, chain_end_past bytes stop pos⟩, scans ++ [(pos, chainEnd bytes stop pos)])

def scanReused (bytes : List UInt8) (start stop : Nat) : Scanned Chain :=
  callsLoop (reused bytes start stop) bytes stop start ⟨start, 0, []⟩ false []

def scanRescanned (bytes : List UInt8) (start stop : Nat) : Scanned (List (Nat × Nat)) :=
  callsLoop (rescanned bytes stop) bytes stop start [] false []

def calls (bytes : List UInt8) (start stop : Nat) : List (Nat × Nat) × Bool :=
  ((scanReused bytes start stop).out, (scanReused bytes start stop).exit ≠ .finished)

def callsRescanned (bytes : List UInt8) (start stop : Nat) : List (Nat × Nat) × Bool :=
  ((scanRescanned bytes start stop).out, (scanRescanned bytes start stop).exit ≠ .finished)

end Filefacts.Cfml
