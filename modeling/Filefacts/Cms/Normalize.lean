import Filefacts.Cms.BerReads

set_option autoImplicit false

namespace Filefacts.Cms

open Bytes (checkedAdd checked_add_some)

variable (len : Nat)

theorem push_length_append (out : List UInt8) : pushLength len out = out ++ pushLength len [] := by
  unfold pushLength
  split <;> simp

theorem significant_eight (fits : len < 2 ^ 64) (positive : 0 < len) :
    (BigEndian.significant (BigEndian.octetsOf 8 len)).length = Nat.log 256 len + 1 := by
  have value := BigEndian.value_octets_of 8 len (by omega)
  rw [BigEndian.significant_length _ (by omega), value]

theorem significant_eight_le : (BigEndian.significant (BigEndian.octetsOf 8 len)).length ≤ 8 := by
  have bound := BigEndian.significant_length_le (BigEndian.octetsOf 8 len)
  rwa [BigEndian.octets_of_length] at bound

theorem bit_width_octets (positive : 0 < len) : (bitWidth len + 7) / 8 = Nat.log 256 len + 1 := by
  have nonzero : len ≠ 0 := by omega
  have bytes : Nat.log 256 len = Nat.log2 len / 8 := by
    rw [Nat.log_eq_iff (Or.inr ⟨by omega, nonzero⟩)]
    have lower : 2 ^ (8 * (Nat.log2 len / 8)) ≤ len :=
      (Nat.le_log2 nonzero).mp (by omega)
    have upper : len < 2 ^ (8 * (Nat.log2 len / 8 + 1)) :=
      (Nat.log2_lt nonzero).mp (by omega)
    rw [Nat.pow_mul] at lower upper
    exact ⟨lower, upper⟩
  rw [bytes, bitWidth, if_neg nonzero]
  omega

theorem encoded_len_eq (fits : len < 2 ^ 64) : encodedLen len = checkedAdd len (1 + (pushLength len []).length) := by
  unfold encodedLen pushLength
  by_cases short : len < 0x80
  · simp [short]
  · have same := bit_width_octets len (by omega)
    rw [← significant_eight len fits (by omega)] at same
    simp only [if_neg short, same, List.length_append, List.length_singleton, List.nil_append]

theorem count_octet : ∀ size ≤ 8, (0x80 ||| UInt8.ofNat size).toNat = 0x80 + size := by
  decide

theorem push_length_der (fits : len < 2 ^ 64) : DerLength (pushLength len []) len := by
  by_cases short : len < 0x80
  · have octet : (UInt8.ofNat len).toNat = len := by
      rw [UInt8.toNat_ofNat']
      omega
    refine ⟨⟨UInt8.ofNat len, [], by simp [pushLength, short], Or.inl ⟨?_, rfl, octet.symm⟩⟩, ?_⟩
    · change (UInt8.ofNat len).toNat < 128
      omega
    · rintro others ⟨first, more, rfl, _⟩
      simp [pushLength, short]
  · have value := BigEndian.value_octets_of 8 len (by omega)
    have count := significant_eight len fits (by omega)
    have few := significant_eight_le len
    have marked := count_octet _ few
    refine ⟨⟨_, BigEndian.significant (BigEndian.octetsOf 8 len), by simp [pushLength, short],
      Or.inr ⟨?_, ?_, marked, ?_⟩⟩, ?_⟩
    · change 128 < UInt8.toNat _
      omega
    · change UInt8.toNat _ < 255
      omega
    · rw [BigEndian.value_significant, value]
    · rintro others ⟨first, more, rfl, ⟨below, _, rfl⟩ | ⟨_, _, _, same⟩⟩
      · exact absurd below short
      · have shortest := BigEndian.significant_shortest (BigEndian.octetsOf 8 len) more (by rw [value, same])
        simp only [pushLength, if_neg short, List.length_append, List.length_nil, List.length_cons]
        omega

theorem push_length_read (fits : len < 2 ^ 32) : readRules.lengths (pushLength len []) len := by
  refine ⟨(push_length_der len (by omega)).1, ?_⟩
  by_cases short : len < 0x80
  · simp [pushLength, short]
  · have count := significant_eight len (by omega) (by omega)
    have small : Nat.log 256 len < 4 := Nat.log_lt_of_lt_pow (by omega) (by omega)
    simp only [pushLength, if_neg short, List.length_append, List.length_singleton, List.length_nil]
    omega

mutual

def Element.der : Element → List UInt8
  | .primitive tag content => tag :: (pushLength content.length [] ++ content)
  | .constructed tag children => tag :: (pushLength (derAll children).length [] ++ derAll children)

def derAll : List Element → List UInt8
  | [] => []
  | child :: rest => child.der ++ derAll rest

end

def Element.content : Element → List UInt8
  | .primitive _ content => content
  | .constructed _ children => derAll children

variable (element : Element) (fold : Bool)

theorem der_eq : element.der = element.tag :: (pushLength element.content.length [] ++ element.content) := by
  cases element <;> simp [Element.der, Element.tag, Element.content]

mutual

-- What `measure` records: the content length of each constructed element of
-- the input once it is folded, in pre-order.
def Element.lengths : Element → List Nat
  | .primitive _ _ => []
  | .constructed tag children => (Element.constructed tag children).folded.content.length :: lengthsAll children

def lengthsAll : List Element → List Nat
  | [] => []
  | child :: rest => child.lengths ++ lengthsAll rest

end

def pieces (fold : Bool) (elements : List Element) : List UInt8 :=
  if fold then chunksAll elements else derAll (foldedAll elements)

def piece (fold : Bool) (element : Element) : List UInt8 := if fold then element.chunks else element.folded.der

@[simp] theorem pieces_nil : pieces fold [] = [] := by
  cases fold <;> simp [pieces, chunksAll, foldedAll, derAll]

variable (elements : List Element)

@[simp] theorem pieces_cons : pieces fold (element :: elements) = piece fold element ++ pieces fold elements := by
  cases fold <;> simp [pieces, piece, chunksAll, foldedAll, derAll]

variable (front back : List Element) (levels : Nat)

theorem pieces_append : pieces fold (front ++ back) = pieces fold front ++ pieces fold back := by
  induction front with
  | nil => simp
  | cons element front ih => simp [ih]

theorem lengths_all_append : lengthsAll (front ++ back) = lengthsAll front ++ lengthsAll back := by
  induction front with
  | nil => simp [lengthsAll]
  | cons element front ih => simp [lengthsAll, ih]

theorem chunked_all_append : ChunkedAll (front ++ back) ↔ ChunkedAll front ∧ ChunkedAll back := by
  induction front with
  | nil => simp [ChunkedAll]
  | cons element front ih => simp [ChunkedAll, ih, and_assoc]

theorem height_all_append : heightAll (front ++ back) = max (heightAll front) (heightAll back) := by
  induction front with
  | nil => simp [heightAll]
  | cons element front ih => simp [heightAll, ih, Nat.max_assoc]

variable (tag : UInt8) (children : List Element)

theorem folded_content :
    (Element.constructed tag children).folded.content = pieces (tag == octetStringConstructed) children := by
  by_cases fold : tag = 0x24 <;> simp [Element.folded, Element.content, pieces, fold]

theorem folded_tag : (Element.constructed tag children).folded.tag = derTag tag := by
  by_cases fold : tag = 0x24 <;> simp [Element.folded, Element.tag, derTag, fold]

theorem chunks_folded (chunk : element.IsOctetString) : element.chunks = element.folded.content := by
  cases element with
  | primitive tag content => rfl
  | constructed tag children =>
      have fold : tag = 0x24 := chunk
      simp [Element.chunks, Element.folded, Element.content, fold]

-- An element the first pass accepts: chunks where there must be, no deeper
-- than allowed, and of a length that a usize holds.
def Fits (levels : Nat) (element : Element) : Prop :=
  element.Chunked ∧ element.height ≤ levels ∧ element.folded.content.length < 2 ^ 64

def Element.measured (element : Element) (rest : List UInt8) (lengths : List Nat) : Measured :=
  ⟨rest, element.folded.tag, element.folded.content.length, lengths ++ element.lengths⟩

variable {input middle : List UInt8}

theorem read_octet_string {rest : List UInt8} {element : Element} (reads : Reads readRules (.count 1) input [element] rest) :
    element.folded.tag = octetString ↔ element.IsOctetString := by
  cases element with
  | primitive tag content => rfl
  | constructed tag children =>
      obtain ⟨_, _, constructed, _⟩ := (header_constructed_reads _ _ _ _).mp reads
      rw [folded_tag]
      by_cases fold : tag = 0x24
      · simp [derTag, fold, Element.IsOctetString]
      · have other : tag ≠ 0x04 := by
          rintro rfl
          exact absurd constructed (by decide)
        simp [derTag, fold, other, Element.IsOctetString]

theorem der_length (fits : element.content.length < 2 ^ 64) (total : Nat) :
    encodedLen element.content.length = some total ↔ element.der.length = total ∧ total < 2 ^ 64 := by
  rw [encoded_len_eq _ fits, checked_add_some, der_eq]
  simp only [List.length_cons, List.length_append]
  omega

theorem measure_child_iff (fold : Bool) {lengths : List Nat} (lengths' : List Nat) (len len' : Nat)
    {element : Element} (reads : Reads readRules (.count 1) input [element] middle)
    (small : element.folded.content.length < 2 ^ 64)
    (measured : measure levels input lengths = some (element.measured middle lengths)) :
    measureChild (measure levels) fold input (lengths, len) = some (middle, lengths', len') ↔
      (fold = true → element.IsOctetString) ∧ lengths' = lengths ++ element.lengths ∧
        len' = len + (piece fold element).length ∧ len' < 2 ^ 64 := by
  have chunk := read_octet_string reads
  unfold measureChild
  rw [measured]
  simp only [Element.measured]
  cases fold with
  | true =>
      by_cases octets : element.IsOctetString
      · have sized := chunks_folded element octets
        simp only [chunk.mpr octets, if_true, Option.map_eq_some_iff, checked_add_some, piece, sized, octets]
        constructor
        · rintro ⟨total, ⟨rfl, bound⟩, result⟩
          obtain ⟨_, rfl, rfl⟩ : middle = middle ∧ lengths ++ element.lengths = lengths' ∧ _ = len' := by simpa using result
          exact ⟨fun _ => trivial, rfl, rfl, bound⟩
        · rintro ⟨_, rfl, rfl, bound⟩
          exact ⟨_, ⟨rfl, bound⟩, rfl⟩
      · have wrong : element.folded.tag ≠ octetString := fun same => octets (chunk.mp same)
        simp [wrong, octets]
  | false =>
      simp only [Bool.false_eq_true, if_false, false_implies, true_and, piece]
      constructor
      · intro added
        split at added
        · simp at added
        · rename_i encoded sized
          obtain ⟨rfl, _⟩ := (der_length element.folded small encoded).mp sized
          obtain ⟨total, sum, result⟩ := Option.map_eq_some_iff.mp added
          obtain ⟨rfl, bound⟩ := (checked_add_some _ _ _).mp sum
          obtain ⟨_, rfl, rfl⟩ : middle = middle ∧ lengths ++ element.lengths = lengths' ∧ _ = len' := by simpa using result
          exact ⟨rfl, rfl, bound⟩
      · rintro ⟨rfl, rfl, bound⟩
        have sized := (der_length element.folded small element.folded.der.length).mpr ⟨rfl, by omega⟩
        have sum := (checked_add_some len element.folded.der.length _).mpr ⟨rfl, bound⟩
        simp [sized, sum]

theorem read_length_small (octets : List UInt8) (len : Nat) (form : readRules.lengths octets len) : len < 2 ^ 32 := by
  obtain ⟨⟨first, more, rfl, ⟨below, _, rfl⟩ | ⟨_, _, _, rfl⟩⟩, few⟩ := form
  · have bounded := first.toNat_lt
    omega
  · have bound := BigEndian.value_lt more
    have power : 256 ^ more.length ≤ 256 ^ 4 := by
      refine Nat.pow_le_pow_right (by omega) ?_
      rw [List.length_cons] at few
      omega
    omega

theorem set_slot (lengths inner : List Nat) (len : Nat) :
    (lengths ++ 0 :: inner).set lengths.length len = lengths ++ len :: inner := by
  rw [List.set_append_right _ _ le_rfl, Nat.sub_self, List.set_cons_zero]

-- The state of the children's loop once `elements` have gone through it: the
-- parent's slot still holds zero.
structure Gathered (levels : Nat) (fold : Bool) (lengths : List Nat) (elements : List Element) (state : List Nat × Nat) :
    Prop where
  chunked : ChunkedAll elements
  low : heightAll elements ≤ levels
  octets : fold = true → ∀ child ∈ elements, child.IsOctetString
  recorded : state.1 = lengths ++ 0 :: lengthsAll elements
  total : state.2 = (pieces fold elements).length
  small : state.2 < 2 ^ 64

theorem gathered_nil (fold : Bool) (lengths : List Nat) : Gathered levels fold lengths [] (lengths ++ [0], 0) :=
  ⟨by simp [ChunkedAll], by simp [heightAll], by simp, by simp [lengthsAll], by simp, by simp⟩

-- What a pass does on one element, in the form the induction on the levels
-- hands it to the loop.
def MeasureSound (levels : Nat) : Prop :=
  ∀ input lengths result, measure levels input lengths = some result →
    ∃ element, Reads readRules (.count 1) input [element] result.rest ∧ Fits levels element ∧
      result = element.measured result.rest lengths

theorem measure_child_rest {fold : Bool} {state next : List Nat × Nat}
    {result : Measured} (first : measure levels input state.1 = some result)
    (taken : measureChild (measure levels) fold input state = some (middle, next)) : middle = result.rest := by
  unfold measureChild at taken
  rw [first] at taken
  simp only at taken
  split at taken
  · simp at taken
  · obtain ⟨_, _, view⟩ := Option.map_eq_some_iff.mp taken
    exact (Prod.mk.inj view).1.symm

theorem gathered_turn (sound : MeasureSound levels) (fold : Bool) (lengths : List Nat)
    (input middle : List UInt8) (elements : List Element) (state next : List Nat × Nat)
    (gathered : Gathered levels fold lengths elements state)
    (taken : measureChild (measure levels) fold input state = some (middle, next)) :
    ∃ element, Reads readRules (.count 1) input [element] middle ∧
      Gathered levels fold lengths (elements ++ [element]) next := by
  cases first : measure levels input state.1 with
  | none => simp [measureChild, first] at taken
  | some result =>
      obtain ⟨element, reads, ⟨chunked, low, small⟩, same⟩ := sound _ _ _ first
      obtain rfl := measure_child_rest levels first taken
      obtain ⟨chunk, recorded, total, bound⟩ :=
        (measure_child_iff levels fold next.1 state.2 next.2 reads small (same ▸ first)).mp taken
      refine ⟨element, reads, ?_, ?_, ?_, ?_, ?_, bound⟩
      · simp [chunked_all_append, gathered.chunked, chunked, ChunkedAll]
      · simp [height_all_append, heightAll, gathered.low, low]
      · intro folds child member
        rcases List.mem_append.mp member with earlier | last
        · exact gathered.octets folds child earlier
        · exact List.mem_singleton.mp last ▸ chunk folds
      · rw [recorded, gathered.recorded]
        simp [lengths_all_append, lengthsAll]
      · rw [total, gathered.total]
        simp [pieces_append]

theorem measure_sound : MeasureSound levels := by
  induction levels with
  | zero =>
      intro input lengths result success
      simp [measure] at success
  | succ levels ih =>
      intro input lengths result success
      unfold measure at success
      cases read : header input with
      | none => simp [read] at success
      | some found =>
          obtain ⟨tag, extent⟩ := found
          cases form : isConstructed tag with
          | false =>
              cases extent with
              | indefinite body => simp [read, form] at success
              | definite content tail =>
                  obtain rfl : (⟨tail, tag, content.length, lengths⟩ : Measured) = result := by simpa [read, form] using success
                  obtain ⟨octets, _, _, size⟩ := (header_definite _ _ _ _).mp read
                  have small := read_length_small _ _ size
                  have fits : Fits (levels + 1) (.primitive tag content) := by
                    refine ⟨by simp [Element.Chunked], by simp [Element.height], ?_⟩
                    simp only [Element.folded, Element.content]
                    omega
                  refine ⟨.primitive tag content, (header_primitive_reads _ _ _ _).mpr ⟨read, form⟩, fits, ?_⟩
                  simp [Element.measured, Element.folded, Element.tag, Element.content, Element.lengths]
          | true =>
              simp only [read, form, Bool.not_true, Bool.false_eq_true, if_false] at success
              split at success
              · simp at success
              · rename_i rest recorded len looped
                obtain ⟨elements, inside, gathered⟩ := children_sound _ _ (gathered_turn levels ih _ lengths) extent rest _ _
                  (gathered_nil levels _ lengths) looped
                obtain ⟨chunked, low, octets, rfl, rfl, small⟩ := gathered
                simp only [List.length_append, List.length_cons, Nat.lt_add_right_iff_pos, Nat.succ_pos, if_true,
                  Option.some.injEq, set_slot] at success
                subst success
                refine ⟨.constructed tag elements, (header_constructed_reads _ _ _ _).mpr ⟨extent, read, form, inside⟩,
                  ⟨⟨?_, chunked⟩, ?_, ?_⟩, ?_⟩
                · intro folds
                  exact octets (by simp [folds])
                · simp only [Element.height]
                  omega
                · rw [folded_content]
                  exact small
                · simp [Element.measured, Element.lengths, folded_content, folded_tag]

theorem chunked_all_mem : ChunkedAll elements ↔ ∀ element ∈ elements, element.Chunked := by
  induction elements with
  | nil => simp [ChunkedAll]
  | cons element elements ih => simp [ChunkedAll, ih]

theorem height_all_mem (levels : Nat) : heightAll elements ≤ levels ↔ ∀ element ∈ elements, element.height ≤ levels := by
  induction elements with
  | nil => simp [heightAll]
  | cons element elements ih => simp [heightAll, ih]

theorem height_pos : 0 < element.height := by
  cases element <;> simp only [Element.height] <;> omega

theorem piece_content (element : Element) (octets : fold = true → element.IsOctetString) :
    element.folded.content.length ≤ (piece fold element).length := by
  cases fold with
  | true => simp [piece, chunks_folded element (octets rfl)]
  | false =>
      simp only [piece, Bool.false_eq_true, if_false, der_eq, List.length_cons, List.length_append]
      omega

structure Admitted (levels : Nat) (fold : Bool) (elements : List Element) : Prop where
  chunked : ∀ element ∈ elements, element.Chunked
  low : ∀ element ∈ elements, element.height ≤ levels
  octets : fold = true → ∀ element ∈ elements, element.IsOctetString
  small : (pieces fold elements).length < 2 ^ 64

theorem fits_admitted (elements : List Element) (fits : Fits (levels + 1) (.constructed tag elements)) :
    Admitted levels (tag == octetStringConstructed) elements := by
  obtain ⟨⟨octets, chunked⟩, low, small⟩ := fits
  rw [folded_content] at small
  simp only [Element.height] at low
  refine ⟨(chunked_all_mem _).mp chunked, (height_all_mem _ _).mp (by omega), ?_, small⟩
  intro folds
  exact octets (by simpa using folds)

theorem admitted_child {fold : Bool} {done remaining : List Element} {element : Element}
    (admitted : Admitted levels fold (done ++ element :: remaining)) :
    Fits levels element ∧ (fold = true → element.IsOctetString) ∧
      (pieces fold done).length + (piece fold element).length < 2 ^ 64 := by
  have member : element ∈ done ++ element :: remaining := by simp
  have small := admitted.small
  simp only [pieces_append, pieces_cons, List.length_append] at small
  have octets : fold = true → element.IsOctetString := fun folds => admitted.octets folds element member
  have content := piece_content fold element octets
  exact ⟨⟨admitted.chunked element member, admitted.low element member, by omega⟩, octets, by omega⟩

theorem measure_complete (input rest : List UInt8) (lengths : List Nat) (element : Element)
    (reads : Reads readRules (.count 1) input [element] rest) (fits : Fits levels element) :
    measure levels input lengths = some (element.measured rest lengths) := by
  induction levels generalizing input rest lengths element with
  | zero =>
      have impossible := fits.2.1
      have positive := height_pos element
      omega
  | succ levels ih =>
      cases element with
      | primitive tag content =>
          obtain ⟨read, form⟩ := (header_primitive_reads _ _ _ _).mp reads
          simp [measure, read, form, Element.measured, Element.folded, Element.tag, Element.content, Element.lengths]
      | constructed tag elements =>
          obtain ⟨extent, read, form, inside⟩ := (header_constructed_reads _ _ _ _).mp reads
          have admitted := fits_admitted levels tag elements fits
          generalize folding : (tag == octetStringConstructed) = fold at admitted
          obtain ⟨⟨recorded, len⟩, looped, done, whole, sameLengths, sameLen⟩ := children_complete
            (measureChild (measure levels) fold)
            (fun remaining state => ∃ done, done ++ remaining = elements ∧ state.1 = lengths ++ 0 :: lengthsAll done ∧
              state.2 = (pieces fold done).length)
            (by
              rintro input' middle child remaining ⟨_, _⟩ _ first ⟨done, rfl, rfl, rfl⟩
              obtain ⟨fitsChild, octets, bound⟩ := admitted_child levels admitted
              refine ⟨_, (measure_child_iff levels fold _ _ _ first fitsChild.2.2
                (ih _ _ _ child first fitsChild)).mpr ⟨octets, rfl, rfl, bound⟩, done ++ [child], ?_, ?_, ?_⟩
              · simp
              · simp [lengths_all_append, lengthsAll]
              · simp [pieces_append]) read (lengths ++ [0], 0) inside ⟨[], rfl, by simp [lengthsAll], by simp⟩
          obtain rfl : done = elements := by simpa using whole
          simp only at sameLengths sameLen
          subst sameLengths sameLen
          simp [measure, read, form, folding, looped, Element.measured, Element.lengths, folded_content, folded_tag]

theorem write_header (withHeader : Bool) (tag : UInt8) (content out : List UInt8) :
    (if withHeader then pushLength content.length (out ++ [tag]) else out) ++ content =
      out ++ if withHeader then tag :: (pushLength content.length [] ++ content) else content := by
  cases withHeader with
  | true => simp [push_length_append content.length (out ++ [tag])]
  | false => simp

theorem write_complete (deep : Nat) (input rest out : List UInt8) (more : List Nat) (withHeader : Bool) (element : Element)
    (reads : Reads readRules (.count 1) input [element] rest) (chunked : element.Chunked) (enough : input.length ≤ deep) :
    write deep input (out, element.lengths ++ more) withHeader =
      some (rest, out ++ (if withHeader then element.folded.der else element.folded.content), more) := by
  induction deep generalizing input rest out more withHeader element with
  | zero =>
      have taken := reads_length _ _ _ _ _ reads
      simp only [List.length_cons] at taken
      omega
  | succ deep ih =>
      cases element with
      | primitive tag content =>
          obtain ⟨read, form⟩ := (header_primitive_reads _ _ _ _).mp reads
          simp [write, read, form, write_header, Element.lengths, Element.folded, Element.der, Element.content]
      | constructed tag elements =>
          obtain ⟨extent, read, form, inside⟩ := (header_constructed_reads _ _ _ _).mp reads
          obtain ⟨octets, chunkedAll⟩ := chunked
          let fold := tag == octetStringConstructed
          let start := if withHeader then pushLength (pieces fold elements).length (out ++ [derTag tag]) else out
          obtain ⟨⟨written, left⟩, looped, done, whole, sameOut, sameLeft⟩ := children_complete
            (fun child state => write deep child state !fold)
            (fun remaining state => ∃ done, done ++ remaining = elements ∧ state.1 = start ++ pieces fold done ∧
              state.2 = lengthsAll remaining ++ more)
            (by
              rintro input' middle child remaining ⟨_, _⟩ shorter first ⟨done, whole, rfl, rfl⟩
              have member : child ∈ elements := by simp [← whole]
              have written := ih input' middle (start ++ pieces fold done) (lengthsAll remaining ++ more) (!fold) child first
                ((chunked_all_mem _).mp chunkedAll child member) (by omega)
              have same : (if !fold then child.folded.der else child.folded.content) = piece fold child := by
                by_cases folds : tag = 0x24
                · simp [fold, piece, folds, chunks_folded child (octets folds child member)]
                · simp [fold, piece, folds]
              refine ⟨(start ++ pieces fold (done ++ [child]), lengthsAll remaining ++ more), ?_, done ++ [child],
                by simpa using whole, rfl, rfl⟩
              rw [same] at written
              simpa [lengthsAll, pieces_append] using written) read (start, lengthsAll elements ++ more) inside ⟨[], rfl, by simp, rfl⟩
          obtain rfl : done = elements := by simpa using whole
          simp only [lengthsAll, List.nil_append] at sameOut sameLeft
          subst sameOut sameLeft
          have header := write_header withHeader (derTag tag) (pieces fold done) out
          rw [der_eq, folded_tag, folded_content]
          simp only [write, read, form, Bool.not_true, Bool.false_eq_true, if_false, Element.lengths, folded_content,
            List.cons_append]
          rw [← header]
          exact looped

theorem normalize_iff (ber der rest : List UInt8) :
    normalize ber = some (der, rest) ↔
      ∃ element, Reads readRules (.count 1) ber [element] rest ∧ Fits (maxDepth + 1) element ∧
        element.folded.der.length < 2 ^ 64 ∧ der = element.folded.der := by
  constructor
  · intro success
    unfold normalize at success
    split at success
    · simp at success
    · rename_i result measured
      obtain ⟨element, reads, fits, same⟩ := measure_sound _ _ _ _ measured
      split at success
      · simp at success
      · rename_i total sized
        rw [same] at sized
        obtain ⟨rfl, small⟩ := (der_length element.folded fits.2.2 total).mp sized
        have written := write_complete ber.length ber result.rest [] [] true element reads fits.1 le_rfl
        have recorded : result.lengths = element.lengths ++ [] := by rw [same, Element.measured, List.nil_append, List.append_nil]
        rw [recorded, written] at success
        obtain ⟨rfl, rfl⟩ : element.folded.der = der ∧ result.rest = rest := by simpa using success
        exact ⟨element, reads, fits, small, rfl⟩
  · rintro ⟨element, reads, fits, small, rfl⟩
    have measured := measure_complete (maxDepth + 1) ber rest [] element reads fits
    have sized := (der_length element.folded fits.2.2 element.folded.der.length).mpr ⟨rfl, small⟩
    have written := write_complete ber.length ber rest [] [] true element reads fits.1 le_rfl
    simp only [List.append_nil] at written
    simp [normalize, measured, Element.measured, sized, written]

end Filefacts.Cms
