import Filefacts.Cms.Normalize

set_option autoImplicit false

namespace Filefacts.Cms

-- The second pass with a record beside it: for each constructed element, in the order they begin, how many octets are
-- emitted between its header and its end.
def writeRecorded : Nat → List UInt8 → List UInt8 × List Nat × List Nat → Bool →
    Option (List UInt8 × List UInt8 × List Nat × List Nat)
  | 0, _, _, _ => none
  | deep + 1, input, (out, lengths, emitted), withHeader =>
      match header input with
      | none => none
      | some (tag, extent) =>
          if !isConstructed tag then
            match extent with
            | .definite content tail =>
                let out := if withHeader then pushLength content.length (out ++ [tag]) else out
                some (tail, out ++ content, lengths, emitted)
            | .indefinite _ => none
          else
            match lengths with
            | [] => none
            | len :: lengths =>
                let start := if withHeader then pushLength len (out ++ [derTag tag]) else out
                let fold := tag == octetStringConstructed
                (children extent (fun child state => writeRecorded deep child state !fold) (start, lengths, emitted ++ [0])).map
                  fun after => (after.1, after.2.1, after.2.2.1, after.2.2.2.set emitted.length (after.2.1.length - start.length))

theorem write_recorded_complete (deep : Nat) (input rest out : List UInt8) (more emitted : List Nat) (withHeader : Bool)
    (element : Element) (reads : Reads readRules (.count 1) input [element] rest) (chunked : element.Chunked)
    (enough : input.length ≤ deep) :
    writeRecorded deep input (out, element.lengths ++ more, emitted) withHeader =
      some (rest, out ++ (if withHeader then element.folded.der else element.folded.content), more, emitted ++ element.lengths) := by
  induction deep generalizing input rest out more emitted withHeader element with
  | zero =>
      have taken := reads_length _ _ _ _ _ reads
      simp only [List.length_cons] at taken
      omega
  | succ deep ih =>
      cases element with
      | primitive tag content =>
          obtain ⟨read, form⟩ := (header_primitive_reads _ _ _ _).mp reads
          simp [writeRecorded, read, form, write_header, Element.lengths, Element.folded, Element.der, Element.content]
      | constructed tag elements =>
          obtain ⟨extent, read, form, inside⟩ := (header_constructed_reads _ _ _ _).mp reads
          obtain ⟨octets, chunkedAll⟩ := chunked
          let fold := tag == octetStringConstructed
          let start := if withHeader then pushLength (pieces fold elements).length (out ++ [derTag tag]) else out
          obtain ⟨⟨written, left, inner⟩, looped, done, whole, sameOut, sameLeft, sameInner⟩ := children_complete
            (fun child state => writeRecorded deep child state !fold)
            (fun remaining state => ∃ done, done ++ remaining = elements ∧ state.1 = start ++ pieces fold done ∧
              state.2.1 = lengthsAll remaining ++ more ∧ state.2.2 = emitted ++ 0 :: lengthsAll done)
            (by
              rintro input' middle child remaining ⟨_, _, _⟩ shorter first ⟨done, whole, rfl, rfl, rfl⟩
              have member : child ∈ elements := by simp [← whole]
              have written := ih input' middle (start ++ pieces fold done) (lengthsAll remaining ++ more)
                (emitted ++ 0 :: lengthsAll done) (!fold) child first ((chunked_all_mem _).mp chunkedAll child member) (by omega)
              have same : (if !fold then child.folded.der else child.folded.content) = piece fold child := by
                by_cases folds : tag = 0x24
                · simp [fold, piece, folds, chunks_folded child (octets folds child member)]
                · simp [fold, piece, folds]
              refine ⟨(start ++ pieces fold (done ++ [child]), lengthsAll remaining ++ more,
                emitted ++ 0 :: lengthsAll (done ++ [child])), ?_, done ++ [child], by simpa using whole, rfl, rfl, rfl⟩
              rw [same] at written
              simpa [lengthsAll, pieces_append, lengths_all_append] using written) read (start, lengthsAll elements ++ more, emitted ++ [0]) inside
            ⟨[], rfl, by simp, rfl, rfl⟩
          obtain rfl : done = elements := by simpa using whole
          simp only [lengthsAll, List.nil_append] at sameOut sameLeft sameInner
          subst sameOut sameLeft sameInner
          have header := write_header withHeader (derTag tag) (pieces fold done) out
          have added : (start ++ pieces fold done).length - start.length = (pieces fold done).length := by
            rw [List.length_append, Nat.add_sub_cancel_left]
          rw [der_eq, folded_tag, folded_content]
          simp only [writeRecorded, read, form, Bool.not_true, Bool.false_eq_true, if_false, Element.lengths, folded_content,
            List.cons_append]
          rw [← header]
          refine (congrArg (Option.map _) looped).trans ?_
          rw [Option.map_some]
          rw [added, set_slot]

theorem passes_agree (ber : List UInt8) (result : Measured) (measured : measure (maxDepth + 1) ber [] = some result) :
    ∃ out, write ber.length ber ([], result.lengths) true = some (result.rest, out, []) ∧
      (∀ total, encodedLen result.len = some total → out.length = total) ∧
      writeRecorded ber.length ber ([], result.lengths, []) true = some (result.rest, out, [], result.lengths) := by
  obtain ⟨element, reads, fits, same⟩ := measure_sound _ _ _ _ measured
  have recorded : result.lengths = element.lengths ++ [] := by rw [same, Element.measured, List.nil_append, List.append_nil]
  have written := write_complete ber.length ber result.rest [] [] true element reads fits.1 le_rfl
  have emitted := write_recorded_complete ber.length ber result.rest [] [] [] true element reads fits.1 le_rfl
  rw [← recorded] at written emitted
  refine ⟨element.folded.der, written, ?_, ?_⟩
  · intro total sized
    rw [same] at sized
    exact ((der_length element.folded fits.2.2 total).mp sized).1
  · rw [emitted, recorded]
    simp

theorem passes_agree_chunks :
    ∃ result, measure (maxDepth + 1) [0x24, 0x80, 0x04, 0x01, 0xAA, 0x04, 0x81, 0x01, 0xBB, 0x00, 0x00, 0x00] [] = some result ∧
      ∃ out, write 12 [0x24, 0x80, 0x04, 0x01, 0xAA, 0x04, 0x81, 0x01, 0xBB, 0x00, 0x00, 0x00] ([], result.lengths) true =
        some (result.rest, out, []) := by
  obtain ⟨out, written, _⟩ := passes_agree [0x24, 0x80, 0x04, 0x01, 0xAA, 0x04, 0x81, 0x01, 0xBB, 0x00, 0x00, 0x00]
    ⟨[0x00], 0x04, 2, [2]⟩ (by decide +kernel)
  exact ⟨_, by decide +kernel, out, written⟩

mutual

theorem folded_plain : ∀ element : Element, element.folded.Plain
  | .primitive tag content => by simp [Element.folded, Element.Plain]
  | .constructed tag children => by
      have inner := folded_all_plain children
      by_cases fold : tag = 0x24
      · simp [Element.folded, fold, Element.Plain]
      · simp [Element.folded, fold, Element.Plain, inner]

theorem folded_all_plain : ∀ elements : List Element, PlainAll (foldedAll elements)
  | [] => by simp [foldedAll, PlainAll]
  | element :: elements => by
      simp only [foldedAll, PlainAll]
      exact ⟨folded_plain element, folded_all_plain elements⟩

end

mutual

theorem plain_folded : ∀ element : Element, element.Plain → element.folded = element
  | .primitive tag content, _ => by simp [Element.folded]
  | .constructed tag children, plain => by
      simp only [Element.Plain] at plain
      simp [Element.folded, plain.1, plain_all_folded children plain.2]

theorem plain_all_folded : ∀ elements : List Element, PlainAll elements → foldedAll elements = elements
  | [], _ => by simp [foldedAll]
  | element :: elements, plain => by
      simp only [PlainAll] at plain
      simp [foldedAll, plain_folded element plain.1, plain_all_folded elements plain.2]

end

mutual

theorem plain_chunked : ∀ element : Element, element.Plain → element.Chunked
  | .primitive tag content, _ => by simp [Element.Chunked]
  | .constructed tag children, plain => by
      simp only [Element.Plain] at plain
      exact ⟨fun fold => absurd fold plain.1, plain_all_chunked children plain.2⟩

theorem plain_all_chunked : ∀ elements : List Element, PlainAll elements → ChunkedAll elements
  | [], _ => by simp [ChunkedAll]
  | element :: elements, plain => by
      simp only [PlainAll] at plain
      exact ⟨plain_chunked element plain.1, plain_all_chunked elements plain.2⟩

end

mutual

theorem folded_height : ∀ element : Element, element.folded.height ≤ element.height
  | .primitive tag content => by simp [Element.folded]
  | .constructed tag children => by
      have inner := folded_all_height children
      by_cases fold : tag = 0x24
      · simp [Element.folded, fold, Element.height]
      · simp only [Element.folded, fold, if_false, Element.height]
        omega

theorem folded_all_height : ∀ elements : List Element, heightAll (foldedAll elements) ≤ heightAll elements
  | [] => by simp [foldedAll]
  | element :: elements => by
      have first := folded_height element
      have rest := folded_all_height elements
      simp only [foldedAll, heightAll]
      omega

end

theorem der_content_le (element : Element) : element.content.length ≤ element.der.length := by
  rw [der_eq]
  simp only [List.length_cons, List.length_append]
  omega

variable (elements : List Element) (rules : Rules)

theorem der_all_mem (element : Element) (member : element ∈ elements) : element.der.length ≤ (derAll elements).length := by
  induction elements with
  | nil => simp at member
  | cons first elements ih =>
      simp only [derAll, List.length_append]
      rcases List.mem_cons.mp member with rfl | later
      · omega
      · have bound := ih later
        omega

theorem folded_all_map : foldedAll elements = elements.map Element.folded := by
  induction elements with
  | nil => simp [foldedAll]
  | cons element elements ih => simp [foldedAll, ih]

theorem der_all_reads (elements : List Element)
    (each : ∀ element ∈ elements, ∀ after, Reads rules (.count 1) (element.der ++ after) [element] after) :
    Reads rules .whole (derAll elements) elements [] := by
  induction elements with
  | nil =>
      simp only [derAll]
      exact .whole
  | cons element elements ih =>
      simp only [derAll]
      exact reads_cons _ (.whole _) (each element List.mem_cons_self (derAll elements))
        (ih fun child member => each child (List.mem_cons_of_mem _ member))

theorem der_reads (bound : Nat) (lengths : ∀ len < bound, rules.lengths (pushLength len []) len)
    (ending : Ending) (input rest : List UInt8) (elements : List Element)
    (reads : Reads readRules ending input elements rest) :
    ∀ element ∈ elements, element.folded.content.length < bound → ∀ after,
      Reads rules (.count 1) (element.folded.der ++ after) [element.folded] after := by
  have constructed : ∀ (tag : UInt8) (children : List Element), tag &&& 0x1F ≠ 0x1F → tag &&& 0x20 ≠ 0 →
      (∀ child ∈ children, child.folded.content.length < bound → ∀ after,
        Reads rules (.count 1) (child.folded.der ++ after) [child.folded] after) →
      (Element.constructed tag children).folded.content.length < bound → ∀ after,
        Reads rules (.count 1) ((Element.constructed tag children).folded.der ++ after)
          [(Element.constructed tag children).folded] after := by
    intro tag children low form inner small after
    by_cases fold : tag = 0x24
    · simp only [Element.folded, fold, if_true, Element.content, Element.der] at small ⊢
      exact .primitive _ _ 0x04 _ _ _ after after [] (by simp) (.count 0 _) (by decide) (by decide) (lengths _ small)
        (.counted after)
    · simp only [Element.folded, fold, if_false, Element.content, Element.der] at small ⊢
      refine .definite _ _ tag _ (derAll (foldedAll children)) _ after after _ [] (by simp) (.count 0 _) low form
        (lengths _ small) (der_all_reads rules _ ?_) (.counted after)
      intro element member
      obtain ⟨child, origin, rfl⟩ := List.mem_map.mp (folded_all_map children ▸ member)
      have size := der_all_mem _ _ member
      have content := der_content_le child.folded
      exact inner child origin (by omega)
  induction reads with
  | whole => simp
  | marker => simp
  | counted => simp
  | primitive _ _ tag octets content _ _ _ _ _ _ low form _ _ ih =>
      intro element member small after
      rcases List.mem_cons.mp member with rfl | later
      · simp only [Element.folded, Element.content, Element.der] at small ⊢
        exact .primitive _ _ tag _ content _ after after [] (by simp) (.count 0 _) low form (lengths _ small) (.counted after)
      · exact ih element later small after
  | definite _ _ tag _ _ _ _ _ children _ _ _ low form _ _ _ inner ih =>
      intro element member small after
      rcases List.mem_cons.mp member with rfl | later
      · exact constructed tag children low form inner small after
      · exact ih element later small after
  | indefinite _ _ tag _ _ _ _ children _ _ _ low form _ _ _ inner ih =>
      intro element member small after
      rcases List.mem_cons.mp member with rfl | later
      · exact constructed tag children low form inner small after
      · exact ih element later small after

theorem normalize_canonical (ber der rest : List UInt8) (success : normalize ber = some (der, rest)) :
    ∃ tree : Element, Reads berRules (.count 1) ber [tree] rest ∧
      (∀ others tail, Reads berRules (.count 1) ber others tail → others = [tree] ∧ tail = rest) ∧
      tree.Chunked ∧ Reads derRules (.count 1) der [tree.folded] [] ∧ tree.folded.Plain ∧
      (der.length < 2 ^ 32 → ∀ tail, normalize (der ++ tail) = some (der, tail)) := by
  obtain ⟨tree, reads, fits, small, rfl⟩ := (normalize_iff ber der rest).mp success
  have asBer := reads_within _ _ read_within_ber _ _ _ _ reads
  have content := der_content_le tree.folded
  have asDer := der_reads derRules (2 ^ 64) push_length_der _ _ _ _ reads tree List.mem_cons_self (by omega) []
  rw [List.append_nil] at asDer
  refine ⟨tree, asBer, reads_unique _ _ _ _ _ asBer, fits.1, asDer, folded_plain tree, ?_⟩
  intro short tail
  have again := plain_folded _ (folded_plain tree)
  have height := folded_height tree
  have readBack := der_reads readRules (2 ^ 32) push_length_read _ _ _ _ reads tree List.mem_cons_self (by omega) tail
  refine (normalize_iff _ _ _).mpr ⟨tree.folded, readBack, ⟨plain_chunked _ (folded_plain tree), ?_, ?_⟩, ?_, ?_⟩
  · exact height.trans fits.2.1
  · rw [again]
    exact fits.2.2
  · rw [again]
    exact small
  · rw [again]

theorem normalize_canonical_chunks :
    ∃ tree : Element,
      Reads berRules (.count 1) [0x24, 0x80, 0x04, 0x01, 0xAA, 0x04, 0x81, 0x01, 0xBB, 0x00, 0x00, 0x00] [tree] [0x00] ∧
      (∀ others tail,
        Reads berRules (.count 1) [0x24, 0x80, 0x04, 0x01, 0xAA, 0x04, 0x81, 0x01, 0xBB, 0x00, 0x00, 0x00] others tail →
          others = [tree] ∧ tail = [0x00]) ∧
      tree.Chunked ∧ Reads derRules (.count 1) [0x04, 0x02, 0xAA, 0xBB] [tree.folded] [] ∧ tree.folded.Plain ∧
      (([0x04, 0x02, 0xAA, 0xBB] : List UInt8).length < 2 ^ 32 →
        ∀ tail, normalize ([0x04, 0x02, 0xAA, 0xBB] ++ tail) = some ([0x04, 0x02, 0xAA, 0xBB], tail)) :=
  normalize_canonical _ _ _ (by decide +kernel)

theorem normalize_tree (ber der rest : List UInt8) (success : normalize ber = some (der, rest)) :
    ∃ tree, Reads berRules (.count 1) ber [tree] rest ∧ der = tree.folded.der ∧ Reads derRules (.count 1) der [tree.folded] [] := by
  obtain ⟨tree, reads, -, small, rfl⟩ := (normalize_iff ber der rest).mp success
  have content := der_content_le tree.folded
  have asDer := der_reads derRules (2 ^ 64) push_length_der _ _ _ _ reads tree List.mem_cons_self (by omega) []
  rw [List.append_nil] at asDer
  exact ⟨tree, reads_within _ _ read_within_ber _ _ _ _ reads, rfl, asDer⟩

-- Two encodings get one normal form exactly when they carry one tree, chunked strings joined.
theorem normalize_same_iff (ber other der der' rest rest' : List UInt8) (success : normalize ber = some (der, rest))
    (success' : normalize other = some (der', rest')) :
    ∃ tree tree', Reads berRules (.count 1) ber [tree] rest ∧ Reads berRules (.count 1) other [tree'] rest' ∧
      (der = der' ↔ tree.folded = tree'.folded) := by
  obtain ⟨tree, reads, same, asDer⟩ := normalize_tree ber der rest success
  obtain ⟨tree', reads', same', asDer'⟩ := normalize_tree other der' rest' success'
  refine ⟨tree, tree', reads, reads', fun equal => ?_, fun equal => by rw [same, same', equal]⟩
  rw [equal] at asDer
  exact (List.cons.inj (reads_unique _ _ _ _ _ asDer' _ _ asDer).1).1

theorem normalize_same_iff_chunks :
    ∃ tree tree', Reads berRules (.count 1) [0x24, 0x80, 0x04, 0x01, 0xAA, 0x00, 0x00] [tree] [] ∧
      Reads berRules (.count 1) [0x04, 0x81, 0x01, 0xAA] [tree'] [] ∧
      (([0x04, 0x01, 0xAA] : List UInt8) = [0x04, 0x01, 0xAA] ↔ tree.folded = tree'.folded) :=
  normalize_same_iff _ _ _ _ _ _ (by decide +kernel) (by decide +kernel)

end Filefacts.Cms
