import Filefacts.Bytes

set_option autoImplicit false

namespace Filefacts.Cms

-- What a BER encoding stands for: tags, and the contents of the primitives.
inductive Element where
  | primitive (tag : UInt8) (content : List UInt8)
  | constructed (tag : UInt8) (children : List Element)

def Element.tag : Element → UInt8
  | .primitive tag _ => tag
  | .constructed tag _ => tag

-- An OCTET STRING is one primitive, or constructed from chunks that are OCTET
-- STRINGs in turn. Its value is the chunks' contents in order.
def Element.IsOctetString : Element → Prop
  | .primitive tag _ => tag = 0x04
  | .constructed tag _ => tag = 0x24

mutual

def Element.chunks : Element → List UInt8
  | .primitive _ content => content
  | .constructed _ children => chunksAll children

def chunksAll : List Element → List UInt8
  | [] => []
  | child :: rest => child.chunks ++ chunksAll rest

end

mutual

def Element.Chunked : Element → Prop
  | .primitive _ _ => True
  | .constructed tag children => (tag = 0x24 → ∀ child ∈ children, child.IsOctetString) ∧ ChunkedAll children

def ChunkedAll : List Element → Prop
  | [] => True
  | child :: rest => child.Chunked ∧ ChunkedAll rest

end

mutual

def Element.Plain : Element → Prop
  | .primitive _ _ => True
  | .constructed tag children => tag ≠ 0x24 ∧ PlainAll children

def PlainAll : List Element → Prop
  | [] => True
  | child :: rest => child.Plain ∧ PlainAll rest

end

mutual

def Element.folded : Element → Element
  | .primitive tag content => .primitive tag content
  | .constructed tag children =>
      if tag = 0x24 then .primitive 0x04 (chunksAll children) else .constructed tag (foldedAll children)

def foldedAll : List Element → List Element
  | [] => []
  | child :: rest => child.folded :: foldedAll rest

end

mutual

def Element.height : Element → Nat
  | .primitive _ _ => 1
  | .constructed _ children => 1 + heightAll children

def heightAll : List Element → Nat
  | [] => 0
  | child :: rest => max child.height (heightAll rest)

end

-- The octets of a definite length: one below 0x80, or a count and that many
-- big-endian octets, leading zeros included.
def BerLength (octets : List UInt8) (length : Nat) : Prop :=
  ∃ first more, octets = first :: more ∧
    ((first < 0x80 ∧ more = [] ∧ length = first.toNat) ∨
      (0x80 < first ∧ first < 0xFF ∧ first.toNat = 0x80 + more.length ∧ length = BigEndian.value more))

def DerLength (octets : List UInt8) (length : Nat) : Prop :=
  BerLength octets length ∧ ∀ others, BerLength others length → octets.length ≤ others.length

-- An encoding rule set is BER with some of its freedoms taken away.
structure Rules where
  lengths : List UInt8 → Nat → Prop
  indefinite : Prop
  ber : ∀ octets length, lengths octets length → BerLength octets length

def berRules : Rules := ⟨BerLength, True, fun _ _ form => form⟩

def derRules : Rules := ⟨DerLength, False, fun _ _ form => form.1⟩

def Rules.Within (inner outer : Rules) : Prop :=
  (∀ octets length, inner.lengths octets length → outer.lengths octets length) ∧
    (inner.indefinite → outer.indefinite)

inductive Ending where
  | whole
  | marker
  | count (left : Nat)
deriving DecidableEq, Repr

inductive Continues : Ending → List UInt8 → Ending → Prop where
  | whole (input : List UInt8) : Continues .whole input .whole
  | marker (input : List UInt8) (inside : ¬ [0, 0] <+: input) : Continues .marker input .marker
  | count (left : Nat) (input : List UInt8) : Continues (.count (left + 1)) input (.count left)

-- The run of elements at the front of `input`, and the octets after it. Tags
-- are one octet; bit 0x20 tells the constructed from the primitive.
inductive Reads (rules : Rules) : Ending → List UInt8 → List Element → List UInt8 → Prop where
  | whole : Reads rules .whole [] [] []
  | marker (rest : List UInt8) : Reads rules .marker (0 :: 0 :: rest) [] rest
  | counted (rest : List UInt8) : Reads rules (.count 0) rest [] rest
  | primitive (ending next : Ending) (tag : UInt8) (octets content input later rest : List UInt8) (elements : List Element)
      (layout : input = tag :: (octets ++ (content ++ later))) (goesOn : Continues ending input next)
      (low : tag &&& 0x1F ≠ 0x1F) (form : tag &&& 0x20 = 0) (length : rules.lengths octets content.length)
      (after : Reads rules next later elements rest) :
      Reads rules ending input (.primitive tag content :: elements) rest
  | definite (ending next : Ending) (tag : UInt8) (octets content input later rest : List UInt8)
      (children elements : List Element)
      (layout : input = tag :: (octets ++ (content ++ later))) (goesOn : Continues ending input next)
      (low : tag &&& 0x1F ≠ 0x1F) (form : tag &&& 0x20 ≠ 0) (length : rules.lengths octets content.length)
      (inside : Reads rules .whole content children []) (after : Reads rules next later elements rest) :
      Reads rules ending input (.constructed tag children :: elements) rest
  | indefinite (ending next : Ending) (tag : UInt8) (body input later rest : List UInt8) (children elements : List Element)
      (layout : input = tag :: 0x80 :: body) (goesOn : Continues ending input next)
      (low : tag &&& 0x1F ≠ 0x1F) (form : tag &&& 0x20 ≠ 0) (allowed : rules.indefinite)
      (inside : Reads rules .marker body children later) (after : Reads rules next later elements rest) :
      Reads rules ending input (.constructed tag children :: elements) rest

theorem reads_within (inner outer : Rules) (within : inner.Within outer) (ending : Ending) (input rest : List UInt8)
    (elements : List Element) (reads : Reads inner ending input elements rest) :
    Reads outer ending input elements rest := by
  induction reads with
  | whole => exact .whole
  | marker rest => exact .marker rest
  | counted rest => exact .counted rest
  | primitive ending next tag octets content input later rest elements layout goesOn low form length _ after =>
      exact .primitive ending next tag octets content input later rest elements layout goesOn low form
        (within.1 _ _ length) after
  | definite ending next tag octets content input later rest children elements layout goesOn low form length _ _ inside after =>
      exact .definite ending next tag octets content input later rest children elements layout goesOn low form
        (within.1 _ _ length) inside after
  | indefinite ending next tag body input later rest children elements layout goesOn low form allowed _ _ inside after =>
      exact .indefinite ending next tag body input later rest children elements layout goesOn low form
        (within.2 allowed) inside after

variable {ending next : Ending} {input octets octets' : List UInt8} {length : Nat}

theorem continues_unique {next' : Ending} (first : Continues ending input next)
    (second : Continues ending input next') : next' = next := by
  cases first <;> cases second <;> rfl

theorem ber_length_unique {after after' : List UInt8} {length' : Nat}
    (first : BerLength octets length) (second : BerLength octets' length')
    (same : octets ++ after = octets' ++ after') : octets = octets' ∧ length = length' := by
  obtain ⟨head, more, rfl, short | long⟩ := first <;> obtain ⟨head', more', rfl, short' | long'⟩ := second <;>
    simp only [List.cons_append, List.cons.injEq] at same <;> obtain ⟨rfl, same⟩ := same
  · obtain ⟨_, rfl, rfl⟩ := short
    obtain ⟨_, rfl, rfl⟩ := short'
    exact ⟨rfl, rfl⟩
  · exact absurd (UInt8.lt_trans short.1 long'.1) (UInt8.lt_irrefl _)
  · exact absurd (UInt8.lt_trans short'.1 long.1) (UInt8.lt_irrefl _)
  · obtain ⟨_, _, count, rfl⟩ := long
    obtain ⟨_, _, count', rfl⟩ := long'
    obtain ⟨rfl, _⟩ := List.append_inj same (by omega)
    exact ⟨rfl, rfl⟩

variable (rules : Rules)

variable {tag' : UInt8} {content later rest : List UInt8} {element : Element} {elements : List Element}

theorem definite_layout_unique {tag : UInt8} {content' later' : List UInt8}
    (length : rules.lengths octets content.length) (length' : rules.lengths octets' content'.length)
    (same : tag :: (octets ++ (content ++ later)) = tag' :: (octets' ++ (content' ++ later'))) :
    tag = tag' ∧ content = content' ∧ later = later' := by
  simp only [List.cons.injEq] at same
  obtain ⟨tagSame, same⟩ := same
  obtain ⟨rfl, sizes⟩ := ber_length_unique (rules.ber _ _ length) (rules.ber _ _ length') same
  exact ⟨tagSame, List.append_inj (List.append_cancel_left same) sizes⟩

theorem indefinite_layout_excluded {tag : UInt8} {body : List UInt8}
    (form : rules.lengths octets length) (same : tag :: (octets ++ (content ++ later)) = tag' :: 0x80 :: body) : False := by
  obtain ⟨first, more, rfl, short | long⟩ := rules.ber _ _ form <;>
    simp only [List.cons_append, List.cons.injEq] at same <;> obtain ⟨_, rfl, _⟩ := same
  · exact absurd short.1 (by decide)
  · exact absurd long.1 (by decide)

theorem reads_nonempty
    (reads : Reads rules ending input (element :: elements) rest) : ∃ next, Continues ending input next ∧ input ≠ [] := by
  cases reads with
  | primitive _ next _ _ _ _ _ _ _ layout goesOn => exact ⟨next, goesOn, by simp [layout]⟩
  | definite _ next _ _ _ _ _ _ _ _ layout goesOn => exact ⟨next, goesOn, by simp [layout]⟩
  | indefinite _ next _ _ _ _ _ _ _ layout goesOn => exact ⟨next, goesOn, by simp [layout]⟩

theorem reads_end_unique (ending : Ending) (input rest rest' : List UInt8) (elements : List Element)
    (done : Reads rules ending input [] rest) (reads : Reads rules ending input elements rest') :
    elements = [] ∧ rest' = rest := by
  cases elements with
  | nil =>
      cases done <;> cases reads <;> exact ⟨rfl, rfl⟩
  | cons element elements =>
      obtain ⟨next, goesOn, nonempty⟩ := reads_nonempty rules reads
      cases done with
      | whole => exact absurd rfl nonempty
      | marker rest =>
          cases goesOn with
          | marker _ inside => exact absurd ⟨rest, rfl⟩ inside
      | counted rest => cases goesOn

theorem reads_more {rest' : List UInt8}
    {others : List Element} (reads : Reads rules ending input (element :: elements) rest)
    (other : Reads rules ending input others rest') : ∃ other' others', others = other' :: others' := by
  cases others with
  | nil => exact absurd (reads_end_unique rules _ _ _ _ _ other reads).1 (List.cons_ne_nil _ _)
  | cons other' others' => exact ⟨other', others', rfl⟩

-- Octets stand for at most one run of elements, so `Reads` is a decoding.
theorem reads_unique (ending : Ending) (input rest : List UInt8) (elements : List Element)
    (reads : Reads rules ending input elements rest) :
    ∀ others rest', Reads rules ending input others rest' → others = elements ∧ rest' = rest := by
  induction reads with
  | whole => exact fun others rest' other => reads_end_unique rules _ _ _ _ _ .whole other
  | marker rest => exact fun others rest' other => reads_end_unique rules _ _ _ _ _ (.marker rest) other
  | counted rest => exact fun others rest' other => reads_end_unique rules _ _ _ _ _ (.counted rest) other
  | primitive ending next tag octets content input later rest elements layout goesOn low form length after ihAfter =>
      intro others rest' other
      obtain ⟨other', others', rfl⟩ := reads_more rules (.primitive _ _ _ _ _ _ _ _ _ layout goesOn low form length after) other
      cases other with
      | primitive _ next' tag' octets' content' _ later' _ elements' layout' goesOn' _ _ length' after' =>
          obtain rfl := continues_unique goesOn goesOn'
          obtain ⟨rfl, rfl, rfl⟩ := definite_layout_unique rules length length' (layout ▸ layout')
          obtain ⟨rfl, rfl⟩ := ihAfter _ _ after'
          exact ⟨rfl, rfl⟩
      | definite _ _ tag' _ _ _ _ _ _ _ layout' _ _ form' length' =>
          obtain ⟨rfl, _, _⟩ := definite_layout_unique rules length length' (layout ▸ layout')
          exact absurd form form'
      | indefinite _ _ _ _ _ _ _ _ _ layout' =>
          exact (indefinite_layout_excluded rules length (layout ▸ layout')).elim
  | definite ending next tag octets content input later rest children elements layout goesOn low form length inside after
      ihInside ihAfter =>
      intro others rest' other
      obtain ⟨other', others', rfl⟩ := reads_more rules (.definite _ _ _ _ _ _ _ _ _ _ layout goesOn low form length inside after) other
      cases other with
      | primitive _ _ _ _ _ _ _ _ _ layout' _ _ form' length' =>
          obtain ⟨rfl, _, _⟩ := definite_layout_unique rules length length' (layout ▸ layout')
          exact absurd form' form
      | definite _ next' tag' octets' content' _ later' _ children' elements' layout' goesOn' _ _ length' inside' after' =>
          obtain rfl := continues_unique goesOn goesOn'
          obtain ⟨rfl, rfl, rfl⟩ := definite_layout_unique rules length length' (layout ▸ layout')
          obtain ⟨rfl, _⟩ := ihInside _ _ inside'
          obtain ⟨rfl, rfl⟩ := ihAfter _ _ after'
          exact ⟨rfl, rfl⟩
      | indefinite _ _ _ _ _ _ _ _ _ layout' =>
          exact (indefinite_layout_excluded rules length (layout ▸ layout')).elim
  | indefinite ending next tag body input later rest children elements layout goesOn low form allowed inside after
      ihInside ihAfter =>
      intro others rest' other
      obtain ⟨other', others', rfl⟩ := reads_more rules (.indefinite _ _ _ _ _ _ _ _ _ layout goesOn low form allowed inside after) other
      cases other with
      | primitive _ _ _ _ _ _ _ _ _ layout' _ _ _ length' =>
          exact (indefinite_layout_excluded rules length' (layout'.symm.trans layout)).elim
      | definite _ _ _ _ _ _ _ _ _ _ layout' _ _ _ length' =>
          exact (indefinite_layout_excluded rules length' (layout'.symm.trans layout)).elim
      | indefinite _ next' tag' body' _ later' _ children' elements' layout' goesOn' _ _ _ inside' after' =>
          obtain rfl := continues_unique goesOn goesOn'
          obtain ⟨rfl, _, rfl⟩ : tag = tag' ∧ (0x80 : UInt8) = 0x80 ∧ body = body' := by
            simpa using layout.symm.trans layout'
          obtain ⟨rfl, rfl⟩ := ihInside _ _ inside'
          obtain ⟨rfl, rfl⟩ := ihAfter _ _ after'
          exact ⟨rfl, rfl⟩

theorem reads_cons {middle : List UInt8} (goesOn : Continues ending input next) (first : Reads rules (.count 1) input [element] middle)
    (after : Reads rules next middle elements rest) : Reads rules ending input (element :: elements) rest := by
  cases first with
  | primitive _ _ tag octets content _ later _ _ layout one low form length done =>
      cases one
      cases done
      exact .primitive ending next tag octets content input middle rest elements layout goesOn low form length after
  | definite _ _ tag octets content _ later _ children _ layout one low form length inside done =>
      cases one
      cases done
      exact .definite ending next tag octets content input middle rest children elements layout goesOn low form length inside
        after
  | indefinite _ _ tag body _ later _ children _ layout one low form allowed inside done =>
      cases one
      cases done
      exact .indefinite ending next tag body input middle rest children elements layout goesOn low form allowed inside after

theorem reads_first (ending : Ending) (input rest : List UInt8) (element : Element) (elements : List Element)
    (reads : Reads rules ending input (element :: elements) rest) :
    ∃ next middle, Continues ending input next ∧ Reads rules (.count 1) input [element] middle ∧
      Reads rules next middle elements rest := by
  cases reads with
  | primitive _ next tag octets content _ later _ _ layout goesOn low form length after =>
      exact ⟨next, later, goesOn, .primitive _ _ tag octets content input later later [] layout (.count 0 input) low form
        length (.counted later), after⟩
  | definite _ next tag octets content _ later _ children _ layout goesOn low form length inside after =>
      exact ⟨next, later, goesOn, .definite _ _ tag octets content input later later children [] layout (.count 0 input) low
        form length inside (.counted later), after⟩
  | indefinite _ next tag body _ later _ children _ layout goesOn low form allowed inside after =>
      exact ⟨next, later, goesOn, .indefinite _ _ tag body input later later children [] layout (.count 0 input) low form
        allowed inside (.counted later), after⟩

theorem reads_whole_rest (ending : Ending) (input rest : List UInt8) (elements : List Element)
    (reads : Reads rules ending input elements rest) (whole : ending = .whole) : rest = [] := by
  induction reads with
  | whole => rfl
  | marker => simp at whole
  | counted => simp at whole
  | primitive _ _ _ _ _ _ _ _ _ _ goesOn _ _ _ _ ih =>
      subst whole
      cases goesOn
      exact ih rfl
  | definite _ _ _ _ _ _ _ _ _ _ _ goesOn _ _ _ _ _ _ ih =>
      subst whole
      cases goesOn
      exact ih rfl
  | indefinite _ _ _ _ _ _ _ _ _ _ goesOn _ _ _ _ _ _ ih =>
      subst whole
      cases goesOn
      exact ih rfl

theorem reads_length (ending : Ending) (input rest : List UInt8) (elements : List Element)
    (reads : Reads rules ending input elements rest) : elements.length + rest.length ≤ input.length := by
  induction reads with
  | whole => simp
  | marker rest =>
      simp only [List.length_nil, List.length_cons]
      omega
  | counted rest => simp
  | primitive _ _ _ _ _ _ _ _ _ layout _ _ _ _ _ after =>
      simp only [layout, List.length_cons, List.length_append]
      omega
  | definite _ _ _ _ _ _ _ _ _ _ layout _ _ _ _ _ _ _ after =>
      simp only [layout, List.length_cons, List.length_append]
      omega
  | indefinite _ _ _ _ _ _ _ _ _ layout _ _ _ _ _ _ inside after =>
      simp only [layout, List.length_cons]
      omega

open Bytes (checkedAdd)

abbrev maxDepth : Nat := 64

abbrev octetString : UInt8 := 0x04

abbrev octetStringConstructed : UInt8 := 0x24

def splitAtChecked (octets : List UInt8) (count : Nat) : Option (List UInt8 × List UInt8) :=
  if count ≤ octets.length then some (octets.take count, octets.drop count) else none

inductive Extent where
  | definite (content tail : List UInt8)
  | indefinite (rest : List UInt8)
deriving DecidableEq, Repr

def isConstructed (tag : UInt8) : Bool := tag &&& 0x20 != 0

def definiteLength (first : UInt8) (rest : List UInt8) : Option (Nat × List UInt8) :=
  if first < 0x80 then some (first.toNat, rest)
  else
    let count := (first &&& 0x7F).toNat
    if count = 0 ∨ count > 4 then none
    else (splitAtChecked rest count).map fun (octets, rest) => (octets.foldl (fun acc b => (acc <<< 8) ||| b.toNat) 0, rest)

def header (input : List UInt8) : Option (UInt8 × Extent) :=
  match input with
  | [] => none
  | tag :: rest =>
      if tag &&& 0x1F = 0x1F then none
      else
        match rest with
        | [] => none
        | first :: rest =>
            if first = 0x80 then
              if isConstructed tag then some (tag, .indefinite rest) else none
            else
              match definiteLength first rest with
              | none => none
              | some (len, rest) => (splitAtChecked rest len).map fun (content, tail) => (tag, .definite content tail)

-- Where the loop over the children stops: when the contents are used up, or
-- at an end-of-contents marker, which it drops.
def contentEnd : List UInt8 → Option (List UInt8)
  | [] => some []
  | _ :: _ => none

def markerEnd : List UInt8 → Option (List UInt8)
  | 0 :: 0 :: tail => some tail
  | _ => none

def childrenLoop {State : Type} (stop : List UInt8 → Option (List UInt8))
    (child : List UInt8 → State → Option (List UInt8 × State)) : Nat → List UInt8 → State → Option (List UInt8 × State)
  | turns, rest, state =>
      match stop rest with
      | some tail => some (tail, state)
      | none =>
          match turns with
          | 0 => none
          | turns + 1 =>
              match child rest state with
              | none => none
              | some (rest, state) => childrenLoop stop child turns rest state

def children {State : Type} (extent : Extent) (child : List UInt8 → State → Option (List UInt8 × State))
    (state : State) : Option (List UInt8 × State) :=
  match extent with
  | .definite content tail => (childrenLoop contentEnd child content.length content state).map fun (_, state) => (tail, state)
  | .indefinite rest => childrenLoop markerEnd child rest.length rest state

def derTag (tag : UInt8) : UInt8 := if tag = octetStringConstructed then octetString else tag

def bitWidth (len : Nat) : Nat := if len = 0 then 0 else Nat.log2 len + 1

def encodedLen (len : Nat) : Option Nat :=
  let octets := if len < 0x80 then 1 else 1 + (bitWidth len + 7) / 8
  checkedAdd len (1 + octets)

def pushLength (len : Nat) (out : List UInt8) : List UInt8 :=
  if len < 0x80 then out ++ [UInt8.ofNat len]
  else
    let significant := BigEndian.significant (BigEndian.octetsOf 8 len)
    out ++ [0x80 ||| UInt8.ofNat significant.length] ++ significant

structure Measured where
  rest : List UInt8
  tag : UInt8
  len : Nat
  lengths : List Nat
deriving DecidableEq, Repr

-- The closure of `measure` on one child: its DER length joins the parent's. A
-- folded OCTET STRING keeps only the contents of its chunks.
def measureChild (measure : List UInt8 → List Nat → Option Measured) (fold : Bool) (child : List UInt8)
    (state : List Nat × Nat) : Option (List UInt8 × List Nat × Nat) :=
  match measure child state.1 with
  | none => none
  | some measured =>
      match (if fold then if measured.tag = octetString then some measured.len else none else encodedLen measured.len) with
      | none => none
      | some encoded => (checkedAdd state.2 encoded).map fun len => (measured.rest, measured.lengths, len)

-- `levels` counts down what `depth` counts up: the levels still allowed.
def measure : Nat → List UInt8 → List Nat → Option Measured
  | 0, _, _ => none
  | levels + 1, input, lengths =>
      match header input with
      | none => none
      | some (tag, extent) =>
          if !isConstructed tag then
            match extent with
            | .definite content tail => some ⟨tail, tag, content.length, lengths⟩
            | .indefinite _ => none
          else
            let slot := lengths.length
            match children extent (measureChild (measure levels) (tag == octetStringConstructed)) (lengths ++ [0], 0) with
            | none => none
            | some (rest, lengths, len) =>
                if slot < lengths.length then some ⟨rest, derTag tag, len, lengths.set slot len⟩ else none

def write : Nat → List UInt8 → List UInt8 × List Nat → Bool → Option (List UInt8 × List UInt8 × List Nat)
  | 0, _, _, _ => none
  | deep + 1, input, (out, lengths), withHeader =>
      match header input with
      | none => none
      | some (tag, extent) =>
          if !isConstructed tag then
            match extent with
            | .definite content tail =>
                let out := if withHeader then pushLength content.length (out ++ [tag]) else out
                some (tail, out ++ content, lengths)
            | .indefinite _ => none
          else
            match lengths with
            | [] => none
            | len :: lengths =>
                let out := if withHeader then pushLength len (out ++ [derTag tag]) else out
                let fold := tag == octetStringConstructed
                children extent (fun child state => write deep child state !fold) (out, lengths)

def normalize (ber : List UInt8) : Option (List UInt8 × List UInt8) :=
  match measure (maxDepth + 1) ber [] with
  | none => none
  | some measured =>
      match encodedLen measured.len with
      | none => none
      | some _ =>
          (write ber.length ber ([], measured.lengths) true).map fun (_, out, _) => (out, measured.rest)

def toDer (ber : List UInt8) : Option (List UInt8) := (normalize ber).map Prod.fst

-- A constructed OCTET STRING of indefinite length, one of its two chunks with
-- a padded length, and zero padding behind it.
example : normalize [0x24, 0x80, 0x04, 0x01, 0xAA, 0x04, 0x81, 0x01, 0xBB, 0x00, 0x00, 0x00] =
    some ([0x04, 0x02, 0xAA, 0xBB], [0x00]) := by decide +kernel

end Filefacts.Cms
