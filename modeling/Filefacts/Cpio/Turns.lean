import Filefacts.Cpio.Heads

set_option autoImplicit false

namespace Filefacts.Cpio

open Bytes (ascii checkedAdd)

variable {offset : Nat}

theorem aligned_ok {alignment rounded : Nat} (positive : 0 < alignment) (read : aligned offset alignment = .ok rounded) :
    offset ≤ rounded := by
  rw [aligned] at read
  cases sum : checkedAdd offset (alignment - 1) with
  | none =>
      rw [sum] at read
      cases read
  | some total =>
      obtain ⟨rfl, _⟩ := (Bytes.checked_add_some _ _ total).mp sum
      simp only [sum] at read
      have same := Except.ok.inj read
      have below := Nat.mod_lt (offset + (alignment - 1)) positive
      omega

theorem needed_ok {α : Type} (found : Option α) (message : String) (item : α) (read : needed found message = .ok item) :
    found = some item := by
  cases found with
  | none => cases read
  | some other => rw [Except.ok.inj read]

def headSize (bytes : List UInt8) (offset : Nat) : Nat := if slice bytes offset (offset + 6) = ascii "070707" then 76 else 110

theorem odc_header_sizes (h : List UInt8) (header : Header) (read : odcHeader h = .ok header) :
    header.size = 76 ∧ header.alignment = 1 := by
  simp only [odcHeader, bind_ok] at read
  obtain ⟨_, _, _, _, _, _, _, _, _, _, _, _, _, _, same⟩ := read
  obtain rfl := Except.ok.inj same
  exact ⟨rfl, rfl⟩

theorem newc_header_sizes (h : List UInt8) (variant : String) (header : Header) (read : newcHeader h variant = .ok header) :
    header.size = 110 ∧ header.alignment = 4 := by
  simp only [newcHeader, bind_ok] at read
  obtain ⟨_, _, same⟩ := read
  obtain rfl := Except.ok.inj same
  exact ⟨rfl, rfl⟩

structure Headed (bytes : List UInt8) (offset : Nat) (header : Header) : Prop where
  size : header.size = headSize bytes offset
  inside : offset + header.size ≤ bytes.length
  aligned : 0 < header.alignment

variable (bytes : List UInt8)

variable {header : Header} {record : Record}

theorem read_header_headed (read : readHeader bytes offset = .ok header) : Headed bytes offset header := by
  rw [readHeader, bind_ok] at read
  obtain ⟨magic, start, read⟩ := read
  obtain ⟨_, same⟩ := extent_ok bytes offset 6 magic start
  have sized : headSize bytes offset = if magic = ascii "070707" then 76 else 110 := by
    rw [headSize, slice, Nat.add_sub_cancel_left, ← same]
  by_cases odc : magic = ascii "070707"
  · rw [if_pos odc, bind_ok] at read
    obtain ⟨h, whole, read⟩ := read
    obtain ⟨size, alignment⟩ := odc_header_sizes h header read
    rw [if_pos odc] at sized
    exact ⟨size.trans sized.symm, size ▸ (extent_ok bytes offset 76 h whole).1, alignment ▸ Nat.one_pos⟩
  · rw [if_neg odc] at read sized
    by_cases newc : magic = ascii "070701" ∨ magic = ascii "070702"
    · rw [if_pos newc, bind_ok] at read
      obtain ⟨h, whole, read⟩ := read
      obtain ⟨size, alignment⟩ := newc_header_sizes h _ header read
      exact ⟨size.trans sized.symm, size ▸ (extent_ok bytes offset 110 h whole).1, by omega⟩
    · rw [if_neg newc] at read
      cases read

structure Recorded (bytes : List UInt8) (offset : Nat) (header : Header) (record : Record) : Prop where
  named : 0 < header.nameSize
  starts : aligned (offset + header.size + header.nameSize) header.alignment = .ok record.dataOffset
  inside : record.dataOffset + header.fileSize ≤ bytes.length
  follows : aligned (record.dataOffset + header.fileSize) header.alignment = .ok record.next

theorem read_record_recorded {maxMetadata metadata : Nat}
    (read : readRecord bytes maxMetadata offset metadata header = .ok record) : Recorded bytes offset header record := by
  rw [readRecord] at read
  by_cases long : header.nameSize = 0 ∨ maxNameBytes < header.nameSize
  · rw [if_pos long] at read
    cases read
  rw [if_neg long, bind_ok] at read
  obtain ⟨spent, _, read⟩ := read
  by_cases poor : maxMetadata < spent
  · rw [if_pos poor] at read
    cases read
  rw [if_neg poor, bind_ok] at read
  obtain ⟨nameOffset, start, read⟩ := read
  rw [bind_ok] at read
  obtain ⟨name, _, read⟩ := read
  by_cases open_ : name.getLast? ≠ some 0 ∨ 0 ∈ name.dropLast
  · rw [if_pos open_] at read
    cases read
  rw [if_neg open_, bind_ok] at read
  obtain ⟨dataOffset, starts, read⟩ := read
  rw [bind_ok] at read
  obtain ⟨payload, body, read⟩ := read
  rw [bind_ok] at read
  obtain ⟨next, follows, same⟩ := read
  obtain rfl := Except.ok.inj same
  obtain ⟨rfl, _⟩ := (Bytes.checked_add_some _ _ nameOffset).mp (needed_ok _ _ nameOffset start)
  exact ⟨by omega, starts, (extent_ok bytes dataOffset _ payload body).1, follows⟩

def Turn.walk : Turn → Walk
  | .failed walk _ => walk
  | .ended walk => walk
  | .followed walk => walk

def Turn.goesOn : Turn → Bool
  | .followed _ => true
  | _ => false

theorem named_members (walk : Walk) (header : Header) : (named walk header).members = walk.members := by
  rw [named]
  split <;> rfl

theorem named_offset (walk : Walk) (header : Header) : (named walk header).offset = walk.offset := by
  rw [named]
  split <;> rfl

section Turn

variable (bytes : List UInt8) (maxEntries maxMetadata : Nat)

structure Pushes (walk : Walk) (header : Header) (record : Record) (turned : Turn) : Prop where
  listed : turned.walk.members = walk.members ++ [member walk.offset header record]
  follows : turned.goesOn = true → turned.walk.offset = record.next ∧ record.next ≤ bytes.length

variable (walk : Walk)

theorem push_cases (header : Header) (record : Record) (rounds : record.dataOffset + header.fileSize ≤ record.next) :
    ((push bytes maxEntries maxMetadata walk header record).walk = walk ∧
      (push bytes maxEntries maxMetadata walk header record).goesOn = false) ∨
    Pushes bytes walk header record (push bytes maxEntries maxMetadata walk header record) := by
  rw [push]
  by_cases full : maxEntries ≤ walk.members.length
  · rw [if_pos full]
    exact .inl ⟨rfl, rfl⟩
  rw [if_neg full]
  by_cases poor : smallLink header ∧
      maxMetadata < if smallLink header then record.metadata + header.fileSize else record.metadata
  · simp only [if_pos poor]
    exact .inl ⟨rfl, rfl⟩
  simp only [if_neg poor]
  right
  cases padded : extent bytes (record.dataOffset + header.fileSize) (record.next - record.dataOffset - header.fileSize) with
  | error message => exact ⟨rfl, fun impossible => by cases impossible⟩
  | ok filler =>
      have inside := (extent_ok bytes _ _ filler padded).1
      exact ⟨rfl, fun _ => ⟨rfl, by omega⟩⟩

theorem close_stays (header : Header) (record : Record) :
    (close bytes walk header record).walk = walk ∧ (close bytes walk header record).goesOn = false := by
  rw [close]
  split
  · exact ⟨rfl, rfl⟩
  · split <;> exact ⟨rfl, rfl⟩

structure Stays (walk : Walk) (turned : Turn) : Prop where
  members : turned.walk.members = walk.members
  stops : turned.goesOn = false

theorem turn_cases : Stays walk (turn bytes maxEntries maxMetadata walk) ∨
    ∃ header record, Headed bytes walk.offset header ∧ Recorded bytes walk.offset header record ∧
      readHeader bytes walk.offset = .ok header ∧ Pushes bytes walk header record (turn bytes maxEntries maxMetadata walk) := by
  rw [turn]
  cases head : readHeader bytes walk.offset with
  | error message => exact .inl ⟨rfl, rfl⟩
  | ok header =>
      have headed := read_header_headed bytes head
      cases body : readRecord bytes maxMetadata walk.offset walk.metadata header with
      | error message =>
          simp only [body]
          exact .inl ⟨named_members walk header, rfl⟩
      | ok record =>
          have recorded := read_record_recorded bytes body
          simp only [body]
          by_cases last : record.name = trailer
          · rw [if_pos last]
            obtain ⟨same, stops⟩ := close_stays bytes (named walk header) header record
            exact .inl ⟨by rw [same, named_members], stops⟩
          · rw [if_neg last]
            have rounds := aligned_ok headed.aligned recorded.follows
            rcases push_cases bytes maxEntries maxMetadata (named walk header) header record rounds with ⟨same, stops⟩ | pushes
            · exact .inl ⟨by rw [same, named_members], stops⟩
            · refine .inr ⟨header, record, headed, recorded, rfl, ?_, pushes.follows⟩
              rw [pushes.listed, named_members, named_offset]

end Turn

def ArchiveMember.headerStart (member : ArchiveMember) : Nat := member.offsets.header.getD 0

def ArchiveMember.dataStart (member : ArchiveMember) : Nat := member.offsets.data.getD 0

def ArchiveMember.dataEnd (member : ArchiveMember) : Nat := member.dataStart + member.sizeBytes

structure ArchiveMember.Inside (bytes : List UInt8) (member : ArchiveMember) : Prop where
  header : ∃ offset, member.offsets.header = some offset
  data : ∃ offset, member.offsets.data = some offset
  after : member.headerStart + headSize bytes member.headerStart < member.dataStart
  ends : member.dataEnd ≤ bytes.length

def Located (bytes : List UInt8) : Nat → List ArchiveMember → Prop
  | _, [] => True
  | start, member :: members => member.Inside bytes ∧ start ≤ member.headerStart ∧ Located bytes member.dataEnd members

variable (start : Nat) (members : List ArchiveMember)

theorem located_from (located : Located bytes start members) :
    ∀ member ∈ members, member.Inside bytes ∧ start ≤ member.headerStart := by
  induction members generalizing start with
  | nil => exact fun member impossible => absurd impossible List.not_mem_nil
  | cons first members ih =>
      obtain ⟨inside, later, others⟩ := located
      intro member among
      rcases List.mem_cons.mp among with rfl | among
      · exact ⟨inside, later⟩
      · obtain ⟨fits, behind⟩ := ih first.dataEnd others member among
        have after := inside.after
        rw [ArchiveMember.dataEnd] at behind
        exact ⟨fits, by omega⟩

theorem located_apart (located : Located bytes start members) :
    members.Pairwise fun one other => one.dataEnd ≤ other.headerStart := by
  induction members generalizing start with
  | nil => exact List.Pairwise.nil
  | cons first members ih =>
      obtain ⟨_, _, others⟩ := located
      exact List.Pairwise.cons (fun other among => (located_from bytes first.dataEnd members others other among).2)
        (ih first.dataEnd others)

theorem located_weaken (later : Nat) (members : List ArchiveMember) (before : start ≤ later)
    (located : Located bytes later members) : Located bytes start members := by
  cases members with
  | nil => trivial
  | cons first members => exact ⟨located.1, Nat.le_trans before located.2.1, located.2.2⟩

theorem member_inside (headed : Headed bytes offset header) (recorded : Recorded bytes offset header record) :
    (member offset header record).Inside bytes := by
  have starts := aligned_ok headed.aligned recorded.starts
  have positive := recorded.named
  have size := headed.size
  refine ⟨⟨offset, rfl⟩, ⟨record.dataOffset, rfl⟩, ?_, recorded.inside⟩
  change offset + headSize bytes offset < record.dataOffset
  omega

section Loop

variable (bytes : List UInt8) (maxEntries maxMetadata : Nat)

variable (fuel : Nat) (walk : Walk)

theorem loop_turn : ((turn bytes maxEntries maxMetadata walk).goesOn = true ∧
      loop bytes maxEntries maxMetadata (fuel + 1) walk =
        loop bytes maxEntries maxMetadata fuel (turn bytes maxEntries maxMetadata walk).walk) ∨
    ((turn bytes maxEntries maxMetadata walk).goesOn = false ∧ ∃ result variant,
      loop bytes maxEntries maxMetadata (fuel + 1) walk =
        some { result, members := (turn bytes maxEntries maxMetadata walk).walk.members, variant }) := by
  rw [loop]
  cases turn bytes maxEntries maxMetadata walk with
  | failed walk message => exact .inr ⟨rfl, _, _, rfl⟩
  | ended walk => exact .inr ⟨rfl, _, _, rfl⟩
  | followed walk => exact .inl ⟨rfl, rfl⟩

theorem turn_forward (onward : (turn bytes maxEntries maxMetadata walk).goesOn = true) :
    walk.offset < (turn bytes maxEntries maxMetadata walk).walk.offset ∧
      (turn bytes maxEntries maxMetadata walk).walk.offset ≤ bytes.length := by
  rcases turn_cases bytes maxEntries maxMetadata walk with stays | ⟨header, record, headed, recorded, _, pushes⟩
  · rw [stays.stops] at onward
    cases onward
  · obtain ⟨same, inside⟩ := pushes.follows onward
    have starts := aligned_ok headed.aligned recorded.starts
    have rounds := aligned_ok headed.aligned recorded.follows
    have positive := recorded.named
    exact ⟨by omega, by omega⟩

theorem loop_ends (enough : bytes.length < fuel + walk.offset) (inside : walk.offset ≤ bytes.length) :
    ∃ outcome, loop bytes maxEntries maxMetadata fuel walk = some outcome := by
  induction fuel generalizing walk with
  | zero => omega
  | succ fuel ih =>
      rcases loop_turn bytes maxEntries maxMetadata fuel walk with ⟨onward, same⟩ | ⟨_, result, variant, same⟩
      · obtain ⟨forward, fits⟩ := turn_forward bytes maxEntries maxMetadata walk onward
        rw [same]
        exact ih _ (by omega) fits
      · exact ⟨_, same⟩

theorem loop_located {outcome : Outcome} (ran : loop bytes maxEntries maxMetadata fuel walk = some outcome) :
    ∃ listed, outcome.members = walk.members ++ listed ∧ Located bytes walk.offset listed := by
  induction fuel generalizing walk with
  | zero => cases ran
  | succ fuel ih =>
      have turned := turn_cases bytes maxEntries maxMetadata walk
      rcases loop_turn bytes maxEntries maxMetadata fuel walk with ⟨onward, same⟩ | ⟨_, result, variant, same⟩
      · rcases turned with stays | ⟨header, record, headed, recorded, _, pushes⟩
        · rw [stays.stops] at onward
          cases onward
        · rw [same] at ran
          obtain ⟨listed, members, located⟩ := ih _ ran
          rw [pushes.listed, List.append_assoc] at members
          refine ⟨_, members, member_inside bytes headed recorded, Nat.le_refl _, ?_⟩
          have rounds := aligned_ok headed.aligned recorded.follows
          apply located_weaken bytes _ _ listed _ located
          rw [(pushes.follows onward).1]
          exact rounds
      · rw [same] at ran
        obtain rfl := Option.some.inj ran
        rcases turned with stays | ⟨header, record, headed, recorded, _, pushes⟩
        · exact ⟨[], by rw [List.append_nil]; exact stays.members, trivial⟩
        · exact ⟨_, pushes.listed, member_inside bytes headed recorded, Nat.le_refl _, trivial⟩

end Loop

theorem index_ends (maxEntries maxMetadata : Nat) : ∃ outcome, index bytes members maxEntries maxMetadata = some outcome :=
  loop_ends bytes maxEntries maxMetadata _ _ (Nat.lt_succ_self _) (Nat.zero_le _)

end Filefacts.Cpio
