import Filefacts.Cpio.Turns

set_option autoImplicit false

namespace Filefacts.Cpio

open Bytes (ascii checkedAdd)
open Extents (Holds)

theorem head_alignment (head : Head) : head.header.alignment = 1 ∨ head.header.alignment = 4 := by
  cases head with
  | odc h => exact .inl rfl
  | newc h => exact .inr rfl

theorem head_mode (head : Head) : head.header.mode < 2 ^ 32 := by
  cases head with
  | odc h => exact Nat.lt_of_lt_of_le (numeral_lt h.mode (Or.inl rfl)) (by decide)
  | newc h => exact Nat.lt_of_lt_of_le (numeral_lt h.mode (Or.inr rfl)) (by decide)

theorem head_mtime (head : Head) : head.header.mtime < 2 ^ 63 := by
  cases head with
  | odc h => exact Nat.lt_of_lt_of_le (numeral_lt h.mtime (Or.inl rfl)) (by decide)
  | newc h => exact Nat.lt_of_lt_of_le (numeral_lt h.mtime (Or.inr rfl)) (by decide)

theorem padding_length (alignment offset : Nat) : (padding alignment offset).length = (alignment - offset % alignment) % alignment :=
  List.length_replicate

theorem aligned_padding (alignment offset : Nat) (known : alignment = 1 ∨ alignment = 4) (small : offset + 3 < 2 ^ 64) :
    aligned offset alignment = .ok (offset + (padding alignment offset).length) := by
  rw [padding_length]
  rcases known with rfl | rfl
  · rw [aligned, checkedAdd, if_pos (by omega)]
    exact congrArg Except.ok (by omega)
  · rw [aligned, checkedAdd, if_pos (by omega)]
    exact congrArg Except.ok (by omega)

section Entry

variable (entry : Entry) (offset : Nat)

theorem stop_ge : offset + entry.head.header.size + (entry.name.length + 1) ≤ entry.dataOffset offset ∧
    entry.dataOffset offset + entry.body.length = entry.bodyEnd offset ∧ entry.bodyEnd offset ≤ entry.stop offset :=
  ⟨Nat.le_add_right _ _, rfl, Nat.le_add_right _ _⟩

theorem entry_length : offset + (entry.octets offset).length = entry.stop offset := by
  simp only [Entry.octets, List.length_append, List.length_singleton, head_length, Entry.stop, Entry.bodyEnd, Entry.dataOffset,
    Entry.nameEnd]
  omega

structure Entry.Stands (bytes : List UInt8) : Prop where
  head : Holds bytes offset entry.head.octets
  name : Holds bytes (offset + entry.head.header.size) (entry.name ++ [0])
  body : Holds bytes (entry.dataOffset offset) entry.body

theorem entry_stands {bytes : List UInt8} (holds : Holds bytes offset (entry.octets offset)) : entry.Stands offset bytes := by
  rw [Entry.octets] at holds
  have body := Extents.holds_append_left _ _ _ _ holds
  have filler := Extents.holds_append_left _ _ _ _ body
  have name := Extents.holds_append_left _ _ _ _ filler
  have named := Extents.holds_append_right _ _ _ _ name
  have stored := Extents.holds_append_right _ _ _ _ body
  rw [head_length] at named
  refine ⟨Extents.holds_append_left _ _ _ _ name, named, ?_⟩
  simp only [List.length_append, List.length_singleton, head_length] at stored
  rwa [← Nat.add_assoc, ← Nat.add_assoc] at stored

theorem stands_agree {bytes other : List UInt8} {count : Nat} (agree : other.take count = bytes.take count)
    (before : entry.bodyEnd offset ≤ count) (stands : entry.Stands offset bytes) : entry.Stands offset other := by
  obtain ⟨named, stored, _⟩ := stop_ge entry offset
  refine ⟨Extents.holds_agree bytes offset other agree stands.head ?_,
    Extents.holds_agree bytes _ other agree stands.name ?_, Extents.holds_agree bytes _ other agree stands.body ?_⟩
  · rw [head_length]
    omega
  · rw [List.length_append, List.length_singleton]
    omega
  · omega

section Read

variable (bytes : List UInt8) (maxMetadata metadata : Nat) (small : entry.stop offset + 128 < 2 ^ 64)
  (short : entry.name.length < maxNameBytes)
  (rich : metadata + (entry.head.header.size + (entry.name.length + 1)) ≤ maxMetadata) (word : maxMetadata < 2 ^ 64)

def Entry.record : Record where
  name := entry.name
  dataOffset := entry.dataOffset offset
  payload := entry.body
  next := entry.stop offset
  metadata := metadata + (entry.head.header.size + (entry.name.length + 1))

include small

theorem entry_starts :
    aligned (offset + entry.head.header.size + (entry.name.length + 1)) entry.head.header.alignment = .ok (entry.dataOffset offset) := by
  have bounds := stop_ge entry offset
  exact aligned_padding _ _ (head_alignment entry.head) (by omega)

theorem entry_follows :
    aligned (entry.dataOffset offset + entry.body.length) entry.head.header.alignment = .ok (entry.stop offset) := by
  have bounds := stop_ge entry offset
  exact aligned_padding _ _ (head_alignment entry.head) (by omega)

include short rich word

theorem read_record (stands : entry.Stands offset bytes) :
    readRecord bytes maxMetadata offset metadata entry.head.header = .ok (entry.record offset metadata) := by
  have bounds := stop_ge entry offset
  have named : ¬ (entry.name.length + 1 = 0 ∨ maxNameBytes < entry.name.length + 1) := by omega
  have spent : checkedAdd metadata (entry.head.header.size + (entry.name.length + 1)) =
      some (metadata + (entry.head.header.size + (entry.name.length + 1))) := if_pos (by omega)
  have begins : checkedAdd offset entry.head.header.size = some (offset + entry.head.header.size) := if_pos (by omega)
  have name := extent_holds bytes _ (entry.name.length + 1) _ stands.name
    (by rw [List.length_append, List.length_singleton]) (by omega)
  have body := extent_holds bytes _ entry.body.length _ stands.body rfl (by omega)
  have closed : ¬ ((entry.name ++ [0]).getLast? ≠ some 0 ∨ 0 ∈ (entry.name ++ [0]).dropLast) := by
    rw [List.getLast?_concat, List.dropLast_concat]
    rintro (wrong | early)
    · exact wrong rfl
    · exact entry.clean early
  rw [readRecord, entry.nameSize, entry.fileSize, if_neg named, spent, needed, Option.elim_some, ok_bind,
    if_neg (by omega), begins, needed, Option.elim_some, ok_bind, name, ok_bind, if_neg closed,
    entry_starts entry offset small, ok_bind, body, ok_bind, entry_follows entry offset small, ok_bind, List.dropLast_concat]
  rfl

end Read

theorem small_link : smallLink entry.head.header = entry.linked := by
  rw [smallLink, Entry.linked, entry.fileSize]

theorem member_entry (metadata : Nat) : member offset entry.head.header (entry.record offset metadata) = entry.member offset := by
  simp only [member, Entry.member, small_link, entry.fileSize, Entry.record, if_pos (head_mode entry.head),
    if_pos (head_mtime entry.head)]

end Entry

open Extents (Holds Closes)

def Walk.past (walk : Walk) (entry : Entry) : Walk where
  offset := entry.stop walk.offset
  metadata := walk.metadata + entry.cost
  members := walk.members ++ [entry.member walk.offset]
  variant := (named walk entry.head.header).variant

section Entry

variable (bytes : List UInt8) (maxEntries maxMetadata : Nat) (walk : Walk) (entry : Entry)
  (small : entry.stop walk.offset + 128 < 2 ^ 64) (short : entry.name.length < maxNameBytes)
  (rich : walk.metadata + entry.cost ≤ maxMetadata) (word : maxMetadata < 2 ^ 64)

include small short rich word

theorem turn_stands (stands : entry.Stands walk.offset bytes) :
    turn bytes maxEntries maxMetadata walk =
      if entry.name = trailer then close bytes (named walk entry.head.header) entry.head.header (entry.record walk.offset walk.metadata)
      else push bytes maxEntries maxMetadata (named walk entry.head.header) entry.head.header
        (entry.record walk.offset walk.metadata) := by
  have bounds := stop_ge entry walk.offset
  rw [Entry.cost] at rich
  have head := read_header bytes stands.head (by omega)
  have body := read_record entry walk.offset bytes maxMetadata walk.metadata small short (by omega) word stands
  rw [turn, head]
  simp only [body]
  rfl

section Member

variable (plain : entry.name ≠ trailer) (room : walk.members.length < maxEntries) (stands : entry.Stands walk.offset bytes)

include plain room stands

theorem turn_push (padded : Except String (List UInt8)) (read : extent bytes (entry.bodyEnd walk.offset)
    (entry.stop walk.offset - entry.dataOffset walk.offset - entry.body.length) = padded) :
    (∀ filler, padded = .ok filler → turn bytes maxEntries maxMetadata walk = .followed (walk.past entry)) ∧
    (∀ message, padded = .error message →
      turn bytes maxEntries maxMetadata walk = .failed { walk.past entry with offset := walk.offset } message) := by
  have turned := turn_stands bytes maxEntries maxMetadata walk entry small short rich word stands
  have member := member_entry entry walk.offset walk.metadata
  have full : ¬ maxEntries ≤ (named walk entry.head.header).members.length := by
    rw [named_members]
    omega
  have spent : (if smallLink entry.head.header then (entry.record walk.offset walk.metadata).metadata + entry.head.header.fileSize
      else (entry.record walk.offset walk.metadata).metadata) = walk.metadata + entry.cost := by
    rw [small_link, entry.fileSize, Entry.cost]
    by_cases linked : entry.linked = true
    · rw [if_pos linked, if_pos linked, ← Nat.add_assoc]
      rfl
    · rw [if_neg linked, if_neg linked]
      rfl
  have afford : ¬ (smallLink entry.head.header ∧ maxMetadata < walk.metadata + entry.cost) := by omega
  rw [if_neg plain, push, if_neg full, spent] at turned
  simp only [if_neg afford, named_members, named_offset, member, entry.fileSize] at turned
  change extent bytes ((entry.record walk.offset walk.metadata).dataOffset + entry.body.length) _ = padded at read
  constructor
  · rintro filler rfl
    rw [turned]
    change extent bytes _ ((entry.record walk.offset walk.metadata).next - (entry.record walk.offset walk.metadata).dataOffset - _) = _ at read
    rw [read]
    rfl
  · rintro message rfl
    rw [turned]
    change extent bytes _ ((entry.record walk.offset walk.metadata).next - (entry.record walk.offset walk.metadata).dataOffset - _) = _ at read
    rw [read]
    rfl

theorem turn_whole (whole : entry.stop walk.offset ≤ bytes.length) :
    turn bytes maxEntries maxMetadata walk = .followed (walk.past entry) := by
  have bounds := stop_ge entry walk.offset
  obtain ⟨filler, read⟩ := extent_inside bytes (entry.bodyEnd walk.offset)
    (entry.stop walk.offset - entry.dataOffset walk.offset - entry.body.length) (by omega) (by omega)
  exact (turn_push bytes maxEntries maxMetadata walk entry small short rich word plain room stands _ read).1 filler rfl

theorem turn_unpadded (cut : bytes.length < entry.stop walk.offset) : ∃ message,
    turn bytes maxEntries maxMetadata walk = .failed { walk.past entry with offset := walk.offset } message := by
  have bounds := stop_ge entry walk.offset
  obtain ⟨message, read⟩ := extent_outside bytes (entry.bodyEnd walk.offset)
    (entry.stop walk.offset - entry.dataOffset walk.offset - entry.body.length) (by omega)
  exact ⟨message, (turn_push bytes maxEntries maxMetadata walk entry small short rich word plain room stands _ read).2 message rfl⟩

end Member

theorem turn_last (last : entry.name = trailer) (empty : entry.body = []) (stands : entry.Stands walk.offset bytes)
    (zeros : ∀ b ∈ bytes.drop (entry.stop walk.offset), b = 0) :
    turn bytes maxEntries maxMetadata walk = .ended (named walk entry.head.header) := by
  have turned := turn_stands bytes maxEntries maxMetadata walk entry small short rich word stands
  have size : ¬ entry.head.header.fileSize ≠ 0 := by
    rw [entry.fileSize, empty]
    exact fun wrong => wrong rfl
  have clear : ¬ ((bytes.drop (entry.record walk.offset walk.metadata).next).any fun b => decide (b ≠ 0)) = true := by
    intro some_
    obtain ⟨b, among, nonzero⟩ := List.any_eq_true.mp some_
    exact of_decide_eq_true nonzero (zeros b among)
  rw [turned, if_pos last, close, if_neg size, if_neg clear]

section Cut

variable (stream : List UInt8) (holds : Holds stream walk.offset (entry.octets walk.offset))
  (agree : bytes.take bytes.length = stream.take bytes.length)

omit short rich word

include holds agree

theorem header_genuine (header : Header) (head : readHeader bytes walk.offset = .ok header) : header = entry.head.header := by
  have bounds := stop_ge entry walk.offset
  have stands := (entry_stands entry walk.offset holds).head
  have headed := read_header_headed bytes head
  have genuine := read_header stream stands (by omega)
  have sizes := (read_header_headed stream genuine).size
  have inside := headed.inside
  have magic : 6 ≤ header.size := by
    rw [headed.size, headSize]
    split <;> omega
  have begins : slice bytes walk.offset (walk.offset + 6) = slice stream walk.offset (walk.offset + 6) := by
    rw [List.take_length] at agree
    rw [slice, slice, Nat.add_sub_cancel_left, agree, List.drop_take, List.take_take]
    congr 1
    omega
  have size : header.size = entry.head.header.size := by rw [headed.size, headSize, begins, sizes, headSize]
  have again := read_header bytes
    (Extents.holds_agree stream _ bytes agree stands (by rw [head_length]; omega)) (by omega)
  exact Except.ok.inj (head.symm.trans again)

theorem turn_cut (cut : bytes.length < entry.bodyEnd walk.offset) :
    ∃ after message, turn bytes maxEntries maxMetadata walk = .failed after message ∧ after.members = walk.members := by
  rw [turn]
  cases head : readHeader bytes walk.offset with
  | error message => exact ⟨walk, message, rfl, rfl⟩
  | ok header =>
      obtain rfl := header_genuine bytes walk entry small stream holds agree header head
      cases body : readRecord bytes maxMetadata walk.offset walk.metadata entry.head.header with
      | error message =>
          simp only [body]
          exact ⟨_, message, rfl, named_members walk _⟩
      | ok record =>
          have recorded := read_record_recorded bytes body
          have starts := recorded.starts
          have reaches := recorded.inside
          rw [entry.nameSize, entry_starts entry walk.offset small] at starts
          rw [← Except.ok.inj starts, entry.fileSize] at reaches
          exact absurd reaches (Nat.not_le.mpr cut)

end Cut

end Entry

end Filefacts.Cpio
