import Filefacts.Cpio.Stream

set_option autoImplicit false

namespace Filefacts.Cpio

open Bytes (ascii)
open Extents (Holds Closes)

def before (count : Nat) (members : List ArchiveMember) : List ArchiveMember :=
  members.filter fun member => member.dataEnd ≤ count

theorem placed_ends (offset : Nat) (entries : List Entry) : ∀ member ∈ placed offset entries, offset ≤ member.dataEnd := by
  induction entries generalizing offset with
  | nil => exact fun member impossible => absurd impossible List.not_mem_nil
  | cons entry entries ih =>
      have bounds := stop_ge entry offset
      intro member among
      rcases List.mem_cons.mp among with rfl | among
      · change offset ≤ entry.bodyEnd offset
        omega
      · exact Nat.le_trans (by omega) (ih (entry.stop offset) member among)

theorem before_cons (count offset : Nat) (entry : Entry) (entries : List Entry) :
    before count (placed offset (entry :: entries)) =
      if entry.bodyEnd offset ≤ count then entry.member offset :: before count (placed (entry.stop offset) entries) else [] := by
  have ends : (entry.member offset).dataEnd = entry.bodyEnd offset := rfl
  have bounds := stop_ge entry offset
  by_cases fits : entry.bodyEnd offset ≤ count
  · rw [if_pos fits, before, placed, List.filter_cons_of_pos (by rw [ends]; exact decide_eq_true fits), before]
  · rw [if_neg fits, before, List.filter_eq_nil_iff]
    intro member among
    rcases List.mem_cons.mp among with rfl | among
    · rw [ends]
      rwa [decide_eq_true_iff]
    · have later := placed_ends (entry.stop offset) entries member among
      rw [decide_eq_true_iff]
      omega

theorem before_none (count offset : Nat) (entries : List Entry) (short : count < offset) : before count (placed offset entries) = [] := by
  rw [before, List.filter_eq_nil_iff]
  intro member among
  have later := placed_ends offset entries member among
  rw [decide_eq_true_iff]
  omega

section Run

variable (stream bytes : List UInt8) (maxEntries maxMetadata : Nat) (last : Entry) (zeros : Nat)

structure Room (walk : Walk) (entries : List Entry) : Prop where
  closes : Closes stream walk.offset (encode last zeros walk.offset entries)
  plain : ∀ entry ∈ entries, entry.name ≠ trailer
  count : walk.members.length + entries.length ≤ maxEntries
  names : ∀ entry ∈ entries, entry.name.length < maxNameBytes
  metadata : walk.metadata + (entries.map Entry.cost).sum + last.cost ≤ maxMetadata
  octets : stream.length < 2 ^ 63
  word : maxMetadata < 2 ^ 64

variable {stream maxEntries maxMetadata last zeros}

variable {walk : Walk} {entry : Entry} {entries : List Entry}

theorem room_holds (room : Room stream maxEntries maxMetadata last zeros walk (entry :: entries)) :
    Holds stream walk.offset (entry.octets walk.offset) ∧ entry.stop walk.offset ≤ stream.length ∧
      walk.metadata + entry.cost ≤ maxMetadata ∧ walk.members.length < maxEntries := by
  have holds := Extents.closes_holds stream walk.offset _ _ room.closes
  have inside := Extents.holds_inside stream walk.offset _ holds
  have metadata := room.metadata
  have count := room.count
  rw [entry_length] at inside
  rw [List.map_cons, List.sum_cons] at metadata
  rw [List.length_cons] at count
  exact ⟨holds, inside, by omega, by omega⟩

theorem room_past (room : Room stream maxEntries maxMetadata last zeros walk (entry :: entries)) :
    Room stream maxEntries maxMetadata last zeros (walk.past entry) entries := by
  have metadata := room.metadata
  have count := room.count
  rw [List.map_cons, List.sum_cons] at metadata
  rw [List.length_cons] at count
  constructor
  · have closes := Extents.closes_append_right stream walk.offset _ _ room.closes
    rwa [entry_length] at closes
  · exact fun other among => room.plain other (List.mem_cons_of_mem _ among)
  · rw [Walk.past, List.length_append, List.length_singleton]
    omega
  · exact fun other among => room.names other (List.mem_cons_of_mem _ among)
  · change walk.metadata + entry.cost + (entries.map Entry.cost).sum + last.cost ≤ maxMetadata
    omega
  · exact room.octets
  · exact room.word

theorem loop_lists {count : Nat} (agree : bytes.take count = stream.take count) :
    ∀ (fuel : Nat) (walk : Walk) (outcome : Outcome), Room stream maxEntries maxMetadata last zeros walk entries →
      loop bytes maxEntries maxMetadata fuel walk = some outcome →
      walk.members ++ before count (placed walk.offset entries) <+: outcome.members := by
  induction entries with
  | nil =>
      intro fuel walk outcome room ran
      obtain ⟨listed, same, _⟩ := loop_located bytes maxEntries maxMetadata fuel walk ran
      exact ⟨listed, by rw [same, placed, before, List.filter_nil, List.append_nil]⟩
  | cons entry entries ih =>
      intro fuel walk outcome room ran
      obtain ⟨holds, inside, rich, few⟩ := room_holds room
      have octets := room.octets
      rw [before_cons]
      by_cases fits : entry.bodyEnd walk.offset ≤ count
      · rw [if_pos fits]
        cases fuel with
        | zero => cases ran
        | succ fuel =>
            have stands := stands_agree entry walk.offset agree fits (entry_stands entry walk.offset holds)
            have short := room.names entry List.mem_cons_self
            have plain := room.plain entry List.mem_cons_self
            by_cases whole : entry.stop walk.offset ≤ bytes.length
            · have turned := turn_whole bytes maxEntries maxMetadata walk entry (by omega) short rich room.word plain few stands whole
              rw [loop, turned] at ran
              have listed := ih fuel (walk.past entry) outcome (room_past room) ran
              rwa [Walk.past, List.append_assoc] at listed
            · obtain ⟨message, turned⟩ :=
                turn_unpadded bytes maxEntries maxMetadata walk entry (by omega) short rich room.word plain few stands (by omega)
              rw [loop, turned] at ran
              obtain rfl := Option.some.inj ran
              have lengths := congrArg List.length agree
              rw [List.length_take, List.length_take] at lengths
              rw [before_none count _ entries (by omega)]
              exact List.prefix_rfl
      · rw [if_neg fits, List.append_nil]
        obtain ⟨listed, same, _⟩ := loop_located bytes maxEntries maxMetadata fuel walk ran
        exact ⟨listed, same.symm⟩

def lastEnd (last : Entry) : Nat → List Entry → Nat
  | offset, [] => last.bodyEnd offset
  | offset, entry :: entries => lastEnd last (entry.stop offset) entries

theorem last_end_ge (offset : Nat) (entries : List Entry) : offset ≤ lastEnd last offset entries := by
  induction entries generalizing offset with
  | nil =>
      have bounds := stop_ge last offset
      rw [lastEnd]
      omega
  | cons entry entries ih =>
      have bounds := stop_ge entry offset
      exact Nat.le_trans (by omega) (ih (entry.stop offset))

theorem loop_cut (closing : last.name = trailer) (empty : last.body = []) (agree : bytes = stream.take bytes.length)
    (entries : List Entry) :
    ∀ (fuel : Nat) (walk : Walk) (outcome : Outcome), Room stream maxEntries maxMetadata last zeros walk entries →
      loop bytes maxEntries maxMetadata fuel walk = some outcome →
      outcome.members = walk.members ++ before bytes.length (placed walk.offset entries) ∧
        (outcome.result = .ok () ↔ lastEnd last walk.offset entries ≤ bytes.length) := by
  have same : bytes.take bytes.length = stream.take bytes.length := by rwa [List.take_length]
  induction entries with
  | nil =>
      intro fuel walk outcome room ran
      have octets := room.octets
      have metadata := room.metadata
      have bounds := stop_ge last walk.offset
      have holds := Extents.closes_holds stream walk.offset _ _ room.closes
      have inside := Extents.holds_inside stream walk.offset _ holds
      have short : last.name.length < maxNameBytes := by
        rw [closing]
        decide
      rw [entry_length] at inside
      rw [List.map_nil, List.sum_nil] at metadata
      rw [placed, before, List.filter_nil, List.append_nil, lastEnd]
      cases fuel with
      | zero => cases ran
      | succ fuel =>
          by_cases fits : last.bodyEnd walk.offset ≤ bytes.length
          · have stands := stands_agree last walk.offset same fits (entry_stands last walk.offset holds)
            have behind := Extents.closes_drop _ _ _ (Extents.closes_append_right stream walk.offset _ _ room.closes)
            rw [entry_length] at behind
            have clear : ∀ b ∈ bytes.drop (last.stop walk.offset), b = 0 := by
              intro b among
              rw [agree, List.drop_take, behind] at among
              exact List.eq_of_mem_replicate (List.mem_of_mem_take among)
            have turned := turn_last bytes maxEntries maxMetadata walk last (by omega) short (by omega) room.word closing empty stands clear
            rw [loop, turned] at ran
            obtain rfl := Option.some.inj ran
            exact ⟨named_members walk _, fun _ => fits, fun _ => rfl⟩
          · obtain ⟨after, message, turned, members⟩ :=
              turn_cut bytes maxEntries maxMetadata walk last (by omega) stream holds same (by omega)
            rw [loop, turned] at ran
            obtain rfl := Option.some.inj ran
            exact ⟨members, fun impossible => (by cases impossible), fun within => absurd within fits⟩
  | cons entry entries ih =>
      intro fuel walk outcome room ran
      obtain ⟨holds, inside, rich, few⟩ := room_holds room
      have octets := room.octets
      have bounds := stop_ge entry walk.offset
      have ends : entry.stop walk.offset ≤ lastEnd last (entry.stop walk.offset) entries := last_end_ge _ entries
      rw [before_cons, lastEnd]
      cases fuel with
      | zero => cases ran
      | succ fuel =>
          by_cases fits : entry.bodyEnd walk.offset ≤ bytes.length
          · rw [if_pos fits]
            have stands := stands_agree entry walk.offset same fits (entry_stands entry walk.offset holds)
            have short := room.names entry List.mem_cons_self
            have plain := room.plain entry List.mem_cons_self
            by_cases whole : entry.stop walk.offset ≤ bytes.length
            · have turned := turn_whole bytes maxEntries maxMetadata walk entry (by omega) short rich room.word plain few stands whole
              rw [loop, turned] at ran
              obtain ⟨members, complete⟩ := ih fuel (walk.past entry) outcome (room_past room) ran
              rw [Walk.past, List.append_assoc] at members
              exact ⟨members, complete⟩
            · obtain ⟨message, turned⟩ :=
                turn_unpadded bytes maxEntries maxMetadata walk entry (by omega) short rich room.word plain few stands (by omega)
              rw [loop, turned] at ran
              obtain rfl := Option.some.inj ran
              rw [before_none _ _ entries (by omega)]
              exact ⟨rfl, fun impossible => (by cases impossible), fun within => absurd (Nat.le_trans ends within) whole⟩
          · rw [if_neg fits, List.append_nil]
            obtain ⟨after, message, turned, members⟩ :=
              turn_cut bytes maxEntries maxMetadata walk entry (by omega) stream holds same (by omega)
            rw [loop, turned] at ran
            obtain rfl := Option.some.inj ran
            exact ⟨members, fun impossible => (by cases impossible), fun within => absurd (by omega) fits⟩

end Run

theorem last_end_whole (last : Entry) (zeros offset : Nat) (entries : List Entry) :
    lastEnd last offset entries ≤ offset + (encode last zeros offset entries).length := by
  induction entries generalizing offset with
  | nil =>
      have bounds := stop_ge last offset
      have ends := entry_length last offset
      rw [lastEnd, encode, List.length_append]
      omega
  | cons entry entries ih =>
      have ends := entry_length entry offset
      have later := ih (entry.stop offset)
      rw [lastEnd, encode, List.length_append]
      omega

theorem before_whole (last : Entry) (zeros offset : Nat) (entries : List Entry) :
    before (offset + (encode last zeros offset entries).length) (placed offset entries) = placed offset entries := by
  induction entries generalizing offset with
  | nil => rfl
  | cons entry entries ih =>
      have bounds := stop_ge entry offset
      have ends := entry_length entry offset
      have whole := ih (entry.stop offset)
      have same : offset + (encode last zeros offset (entry :: entries)).length =
          entry.stop offset + (encode last zeros (entry.stop offset) entries).length := by
        rw [encode, List.length_append]
        omega
      rw [same, before_cons, if_pos (by omega), whole, placed]

theorem start_room {archive : Archive} {members : List ArchiveMember} {maxEntries maxMetadata : Nat}
    (within : archive.Within members.length maxEntries maxMetadata) :
    Room archive.octets maxEntries maxMetadata archive.last archive.zeros { offset := 0, metadata := 0, members, variant := none }
      archive.entries where
  closes := Extents.closes_self archive.octets
  plain := archive.plain
  count := within.count
  names := within.names
  metadata := by
    have metadata := within.metadata
    change 0 + _ + _ ≤ maxMetadata
    omega
  octets := within.octets
  word := within.word

-- What a file leaves behind: the members of the stream that end before its first changed octet, and ranges inside it.
structure Leaves (archive : Archive) (members : List ArchiveMember) (bytes : List UInt8) (outcome : Outcome) : Prop where
  kept : ∀ count, bytes.take count = archive.octets.take count →
    members ++ before count archive.members <+: outcome.members
  inside : ∀ member ∈ outcome.members.drop members.length, member.Inside bytes
  apart : (outcome.members.drop members.length).Pairwise fun one other => one.dataEnd ≤ other.headerStart

theorem index_lists (archive : Archive) (members : List ArchiveMember) (maxEntries maxMetadata : Nat)
    (within : archive.Within members.length maxEntries maxMetadata) :
    (∃ variant, index archive.octets members maxEntries maxMetadata =
        some { result := .ok (), members := members ++ archive.members, variant }) ∧
      (∀ count outcome, count ≤ archive.octets.length →
        index (archive.octets.take count) members maxEntries maxMetadata = some outcome →
          outcome.members = members ++ before count archive.members ∧
            (outcome.result = .ok () ↔ lastEnd archive.last 0 archive.entries ≤ count)) ∧
      ∀ bytes, ∃ outcome, index bytes members maxEntries maxMetadata = some outcome ∧ Leaves archive members bytes outcome := by
  have room := start_room within
  have cut : ∀ count outcome, count ≤ archive.octets.length →
      index (archive.octets.take count) members maxEntries maxMetadata = some outcome →
        outcome.members = members ++ before count archive.members ∧
          (outcome.result = .ok () ↔ lastEnd archive.last 0 archive.entries ≤ count) := by
    intro count outcome inside ran
    have wide : (archive.octets.take count).length = count := List.length_take_of_le inside
    have listed := loop_cut (archive.octets.take count) archive.closing archive.empty (by rw [wide]) archive.entries _ _ outcome room ran
    rwa [wide] at listed
  refine ⟨?_, cut, ?_⟩
  · obtain ⟨⟨result, listed, variant⟩, ran⟩ := index_ends archive.octets members maxEntries maxMetadata
    have whole := cut archive.octets.length _ (Nat.le_refl _) (by rw [List.take_length]; exact ran)
    have ends := last_end_whole archive.last archive.zeros 0 archive.entries
    have all_ := before_whole archive.last archive.zeros 0 archive.entries
    rw [Nat.zero_add] at ends all_
    have complete : result = .ok () := whole.2.mpr ends
    have same : listed = members ++ archive.members := by
      rw [Archive.members, ← all_]
      exact whole.1
    exact ⟨variant, by rw [ran, complete, same]⟩
  · intro bytes
    obtain ⟨outcome, ran⟩ := index_ends bytes members maxEntries maxMetadata
    obtain ⟨listed, same, located⟩ := loop_located bytes maxEntries maxMetadata _ _ ran
    have added : outcome.members.drop members.length = listed := by rw [same, List.drop_left]
    refine ⟨outcome, ran, fun count agree => loop_lists bytes agree _ _ outcome room ran, ?_, ?_⟩
    · rw [added]
      exact fun member among => (located_from bytes 0 listed located member among).1
    · rw [added]
      exact located_apart bytes 0 listed located

def octal (width number : Nat) : Numeral 8 width where
  octets := (List.range width).reverse.map fun place => UInt8.ofNat (48 + number / 8 ^ place % 8)
  wide := by rw [List.length_map, List.length_reverse, List.length_range]
  digits := by
    intro b member
    obtain ⟨place, _, rfl⟩ := List.mem_map.mp member
    have below := Nat.mod_lt (number / 8 ^ place) (by decide : 8 > 0)
    have small : (UInt8.ofNat (48 + number / 8 ^ place % 8)).toNat = 48 + number / 8 ^ place % 8 :=
      UInt8.toNat_ofNat_of_lt' (Nat.lt_of_lt_of_le (Nat.add_lt_add_left below 48) (by decide))
    simp only [isDigit, if_pos, Bool.and_eq_true, decide_eq_true_iff, UInt8.le_iff_toNat_le, small, UInt8.reduceToNat]
    omega

def plainHead (mode nameSize fileSize : Nat) : Head :=
  .odc
    { dev := octal 6 0, ino := octal 6 1, mode := octal 6 mode, uid := octal 6 0, gid := octal 6 0, nlink := octal 6 1,
      rdev := octal 6 0, mtime := octal 11 0, nameSize := octal 6 nameSize, fileSize := octal 11 fileSize }

def single : Archive where
  entries := [{ head := plainHead 0o100644 2 1, name := ascii "a", body := ascii "x", clean := by decide +kernel,
                nameSize := by decide +kernel, fileSize := by decide +kernel }]
  last := { head := plainHead 0 11 0, name := trailer, body := [], clean := by decide +kernel, nameSize := by decide +kernel,
            fileSize := by decide +kernel }
  zeros := 2
  plain := by
    intro entry member
    obtain rfl := List.mem_singleton.mp member
    decide +kernel
  closing := rfl
  empty := rfl

theorem index_lists_single : (single.Within 0 8 1024) ∧ ∃ variant, index single.octets [] 8 1024 =
    some { result := .ok (), members := single.members, variant } := by
  have within : single.Within 0 8 1024 := by
    refine ⟨by decide +kernel, ?_, by decide +kernel, by decide +kernel, by decide⟩
    intro entry member
    obtain rfl := List.mem_singleton.mp member
    decide +kernel
  exact ⟨within, (index_lists single [] 8 1024 within).1⟩

-- An archive past a limit is an error, and another digit of the mode makes another member.
theorem changed_digit_lists_another :
    ((index single.octets [] 0 1024).any fun outcome => outcome.result.toOption = none) = true ∧
      single.octets[23]? = some 52 ∧
      ((index (single.octets.set 23 55) [] 8 1024).any fun outcome =>
        outcome.members ≠ [] && !(outcome.members <+: single.members : Bool)) = true := by
  decide +kernel

end Filefacts.Cpio
