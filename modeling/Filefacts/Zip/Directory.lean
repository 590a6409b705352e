import Filefacts.Zip.Repair
import Filefacts.Lib.Search

set_option autoImplicit false

namespace Filefacts.Zip

open Bytes
open Rar (fromUtf8Lossy)

def endSignature : List UInt8 := [80, 75, 5, 6]

def le16 (number : UInt16) : List UInt8 := (BigEndian.octetsOf 2 number.toNat).reverse

def le32 (number : UInt32) : List UInt8 := (BigEndian.octetsOf 4 number.toNat).reverse

structure Central where
  madeBy : UInt8
  host : UInt8
  versionNeeded : UInt16
  flags : UInt16
  method : UInt16
  modTime : UInt16
  modDate : UInt16
  crc32 : UInt32
  compressedSize : UInt32
  uncompressedSize : UInt32
  diskStart : UInt16
  internalAttributes : UInt16
  externalAttributes : UInt32
  headerOffset : UInt32
  name : List UInt8
  extra : List UInt8
  comment : List UInt8
  name_fits : name.length < 2 ^ 16
  extra_fits : extra.length < 2 ^ 16
  comment_fits : comment.length < 2 ^ 16

def Central.header (record : Central) : List UInt8 :=
  [80, 75, 1, 2, record.madeBy, record.host] ++ (le16 record.versionNeeded ++ (le16 record.flags ++ (le16 record.method ++
    (le16 record.modTime ++ (le16 record.modDate ++ (le32 record.crc32 ++ (le32 record.compressedSize ++
    (le32 record.uncompressedSize ++ (le16 (UInt16.ofNat record.name.length) ++ (le16 (UInt16.ofNat record.extra.length) ++
    (le16 (UInt16.ofNat record.comment.length) ++ (le16 record.diskStart ++ (le16 record.internalAttributes ++
    (le32 record.externalAttributes ++ le32 record.headerOffset))))))))))))))

def Central.octets (record : Central) : List UInt8 := record.header ++ (record.name ++ (record.extra ++ record.comment))

def Central.entry (record : Central) (position : Nat) : RawCdhEntry where
  name := fromUtf8Lossy record.name
  crc32 := record.crc32.toNat
  uncompressedSize := record.uncompressedSize.toNat
  compressedSize := record.compressedSize.toNat
  parsedMtime := Time.dosDatetimeToUnix record.modDate.toNat record.modTime.toNat
  method := record.method.toNat
  flags := record.flags.toNat
  host := record.host.toNat
  externalAttributes := record.externalAttributes.toNat
  headerOffset := record.headerOffset.toNat
  centralHeaderOffset := position
  extra := (position + cdhFixedLen + record.name.length, position + cdhFixedLen + record.name.length + record.extra.length)
  commentLen := record.comment.length

def entriesFrom : Nat → List Central → List RawCdhEntry
  | _, [] => []
  | position, record :: rest => record.entry position :: entriesFrom (position + record.octets.length) rest

structure Archive where
  body : List UInt8
  records : List Central
  disk : UInt16
  directoryDisk : UInt16
  diskRecords : UInt16
  totalRecords : UInt16
  comment : List UInt8
  body_fits : body.length < 2 ^ 32 - 1
  directory_fits : (records.flatMap Central.octets).length < 2 ^ 32 - 1
  comment_fits : comment.length < 2 ^ 16

def Archive.directory (archive : Archive) : List UInt8 := archive.records.flatMap Central.octets

def Archive.endRecord (archive : Archive) : List UInt8 :=
  endSignature ++ (le16 archive.disk ++ (le16 archive.directoryDisk ++ (le16 archive.diskRecords ++ (le16 archive.totalRecords ++
    (le32 (UInt32.ofNat archive.directory.length) ++ (le32 (UInt32.ofNat archive.body.length) ++
    le16 (UInt16.ofNat archive.comment.length)))))))

def Archive.octets (archive : Archive) : List UInt8 :=
  archive.body ++ (archive.directory ++ (archive.endRecord ++ archive.comment))

def Archive.file (archive : Archive) (stub trailing : List UInt8) : List UInt8 := stub ++ (archive.octets ++ trailing)

def Archive.endAt (archive : Archive) (stub : List UInt8) : Nat := stub.length + archive.body.length + archive.directory.length

def Archive.read (archive : Archive) (stub : List UInt8) : RawDirectory where
  entries := entriesFrom (stub.length + archive.body.length) archive.records
  start := stub.length + archive.body.length
  archiveOffset := stub.length
  eocd := archive.endAt stub

variable (number : UInt16)

theorem le16_length : (le16 number).length = 2 := rfl

theorem le32_length (number : UInt32) : (le32 number).length = 4 := rfl

theorem le16_value : BigEndian.value (le16 number).reverse = number.toNat := by
  rw [le16, List.reverse_reverse]
  exact BigEndian.value_octets_of 2 _ number.toNat_lt

theorem le32_value (number : UInt32) : BigEndian.value (le32 number).reverse = number.toNat := by
  rw [le32, List.reverse_reverse]
  exact BigEndian.value_octets_of 4 _ number.toNat_lt

variable (front bytes : List UInt8) (record : Central) (records : List Central)

variable (back later : List UInt8)

theorem u16le_there (number : UInt16) : u16le (front ++ (le16 number ++ back)) front.length = some number.toNat := by
  have field := array_at_there front (le16 number) back
  rw [le16_length] at field
  rw [u16le, field, Option.map_some, le16_value]

theorem u32le_there (number : UInt32) : u32le (front ++ (le32 number ++ back)) front.length = some number.toNat := by
  have field := array_at_there front (le32 number) back
  rw [le32_length] at field
  rw [u32le, field, Option.map_some, le32_value]

theorem starts_at_there (signature back : List UInt8) : startsAt (front ++ (signature ++ back)) signature front.length = true := by
  rw [startsAt, List.drop_left]
  exact List.isPrefixOf_iff_prefix.mpr (List.prefix_append signature back)

theorem absent_unsigned (start position : Nat) (absent : (80 : UInt8) ∉ bytes.drop start) :
    startsAt bytes endSignature (start + position) = false := by
  rw [startsAt, ← List.drop_drop]
  cases found : (bytes.drop start).drop position with
  | nil => rfl
  | cons first rest =>
      have other : (80 : UInt8) ≠ first := by
        rintro rfl
        refine absent (List.mem_of_mem_drop (i := position) ?_)
        rw [found]
        exact List.mem_cons_self
      rw [endSignature, List.isPrefixOf_cons_cons, beq_false_of_ne other, Bool.false_and]

theorem u16_of_length (list : List UInt8) (fits : list.length < 2 ^ 16) : (UInt16.ofNat list.length).toNat = list.length :=
  UInt16.toNat_ofNat_of_lt' fits

theorem u32_of_length (list : List UInt8) (fits : list.length < 2 ^ 32 - 1) : (UInt32.ofNat list.length).toNat = list.length :=
  UInt32.toNat_ofNat_of_lt' (Nat.lt_of_lt_of_le fits (by decide))

theorem header_length : record.header.length = cdhFixedLen := rfl

theorem octets_length :
    record.octets.length = cdhFixedLen + record.name.length + record.extra.length + record.comment.length := by
  rw [Central.octets, List.length_append, List.length_append, List.length_append, header_length]
  omega

theorem field16_there (front back : List UInt8) (number : UInt16)
    (split : record.header = front ++ (le16 number ++ back)) : (u16le record.header front.length).getD 0 = number.toNat := by
  rw [split, u16le_there, Option.getD_some]

theorem field32_there (front back : List UInt8) (number : UInt32)
    (split : record.header = front ++ (le32 number ++ back)) : (u32le record.header front.length).getD 0 = number.toNat := by
  rw [split, u32le_there, Option.getD_some]

theorem name_length_read : (u16le record.header 28).getD 0 = record.name.length :=
  (field16_there record (record.header.take 28) (record.header.drop 30) _ rfl).trans (u16_of_length _ record.name_fits)

theorem read_cdh_entry_eq (position : Nat) : readCdhEntry record.header record.name position = record.entry position := by
  have flags := field16_there record (record.header.take 8) (record.header.drop 10) record.flags rfl
  have method := field16_there record (record.header.take 10) (record.header.drop 12) record.method rfl
  have time := field16_there record (record.header.take 12) (record.header.drop 14) record.modTime rfl
  have date := field16_there record (record.header.take 14) (record.header.drop 16) record.modDate rfl
  have crc := field32_there record (record.header.take 16) (record.header.drop 20) record.crc32 rfl
  have compressed := field32_there record (record.header.take 20) (record.header.drop 24) record.compressedSize rfl
  have uncompressed := field32_there record (record.header.take 24) (record.header.drop 28) record.uncompressedSize rfl
  have nameLen := name_length_read record
  have extraLen := field16_there record (record.header.take 30) (record.header.drop 32) _ rfl
  have commentLen := field16_there record (record.header.take 32) (record.header.drop 34) _ rfl
  have attributes := field32_there record (record.header.take 38) (record.header.drop 42) record.externalAttributes rfl
  have offset := field32_there record (record.header.take 42) [] record.headerOffset rfl
  have host : (record.header[5]?.map UInt8.toNat).getD 0 = record.host.toNat := rfl
  rw [u16_of_length _ record.extra_fits] at extraLen
  rw [u16_of_length _ record.comment_fits] at commentLen
  change (u16le record.header 8).getD 0 = _ at flags
  change (u16le record.header 10).getD 0 = _ at method
  change (u16le record.header 12).getD 0 = _ at time
  change (u16le record.header 14).getD 0 = _ at date
  change (u32le record.header 16).getD 0 = _ at crc
  change (u32le record.header 20).getD 0 = _ at compressed
  change (u32le record.header 24).getD 0 = _ at uncompressed
  change (u16le record.header 30).getD 0 = _ at extraLen
  change (u16le record.header 32).getD 0 = _ at commentLen
  change (u32le record.header 38).getD 0 = _ at attributes
  change (u32le record.header 42).getD 0 = _ at offset
  simp only [readCdhEntry, Central.entry, flags, method, time, date, crc, compressed, uncompressed, nameLen, extraLen, commentLen,
    attributes, offset, host]

theorem scan_record (record : Central) (fuel : Nat) :
    scanRecords (front ++ (record.octets ++ later)) (fuel + 1) front.length =
      record.entry front.length :: scanRecords (front ++ (record.octets ++ later)) fuel (front.length + record.octets.length) := by
  have split : front ++ (record.octets ++ later) =
      front ++ (record.header ++ (record.name ++ (record.extra ++ (record.comment ++ later)))) := by
    simp only [Central.octets, List.append_assoc]
  have again : front ++ (record.octets ++ later) =
      (front ++ record.header) ++ (record.name ++ (record.extra ++ (record.comment ++ later))) := by
    rw [split, List.append_assoc]
  have header := get_there front record.header (record.name ++ (record.extra ++ (record.comment ++ later)))
  have name := get_there (front ++ record.header) record.name (record.extra ++ (record.comment ++ later))
  have signed : startsAt record.header [80, 75, 1, 2] 0 = true := rfl
  rw [header_length, ← split] at header
  rw [List.length_append, header_length, ← again, ← name_length_read] at name
  have stop : (record.entry front.length).extra.2 + (record.entry front.length).commentLen = front.length + record.octets.length := by
    rw [octets_length]
    show front.length + cdhFixedLen + record.name.length + record.extra.length + record.comment.length = _
    omega
  rw [scanRecords, header]
  dsimp only
  rw [signed, Bool.not_true, if_neg Bool.false_ne_true, name]
  dsimp only
  rw [read_cdh_entry_eq, stop]

theorem scan_stops (fuel position : Nat) (unsigned : startsAt bytes [80, 75, 1, 2] position = false) :
    scanRecords bytes fuel position = [] := by
  cases fuel with
  | zero => rfl
  | succ fuel =>
      rw [scanRecords]
      cases found : Bytes.get bytes position (position + cdhFixedLen) with
      | none => rfl
      | some header =>
          have other : startsAt header [80, 75, 1, 2] 0 = false := by
            rw [Bytes.get, Option.ite_none_right_eq_some] at found
            have field := Option.some.inj found.2
            rw [Nat.add_sub_cancel_left] at field
            cases signed : startsAt header [80, 75, 1, 2] 0 with
            | false => rfl
            | true =>
                rw [startsAt, List.drop_zero, List.isPrefixOf_iff_prefix, ← field] at signed
                have stands := signed.trans (List.take_prefix _ _)
                rw [startsAt, List.isPrefixOf_iff_prefix.mpr stands] at unsigned
                cases unsigned
          dsimp only
          rw [other, Bool.not_false, if_pos rfl]

theorem scan_records_eq (unsigned : startsAt later [80, 75, 1, 2] 0 = false) :
    ∀ (front : List UInt8) (fuel : Nat), records.length ≤ fuel →
      scanRecords (front ++ (records.flatMap Central.octets ++ later)) fuel front.length = entriesFrom front.length records := by
  induction records with
  | nil =>
      intro front fuel _
      refine scan_stops _ fuel front.length ?_
      rw [List.flatMap_nil, List.nil_append, startsAt, List.drop_left]
      exact unsigned
  | cons record rest ih =>
      intro front fuel enough
      cases fuel with
      | zero => exact absurd enough (Nat.not_succ_le_zero _)
      | succ fuel =>
          have next := ih (front ++ record.octets) fuel (Nat.le_of_succ_le_succ enough)
          rw [List.append_assoc, List.length_append] at next
          rw [List.flatMap_cons, List.append_assoc, scan_record, next, entriesFrom]

theorem records_length_le : records.length ≤ (records.flatMap Central.octets).length := by
  induction records with
  | nil => exact Nat.le_refl 0
  | cons record rest ih =>
      rw [List.flatMap_cons, List.length_append, List.length_cons, octets_length, cdhFixedLen]
      omega

theorem end_record_length (archive : Archive) : archive.endRecord.length = eocdLen := rfl

section File

variable (archive : Archive) (stub trailing : List UInt8)

theorem file_directory : archive.file stub trailing =
    (stub ++ archive.body) ++ (archive.directory ++ (archive.endRecord ++ (archive.comment ++ trailing))) := by
  simp only [Archive.file, Archive.octets, List.append_assoc]

theorem file_end_record : archive.file stub trailing =
    (stub ++ (archive.body ++ archive.directory)) ++ (archive.endRecord ++ (archive.comment ++ trailing)) := by
  simp only [Archive.file, Archive.octets, List.append_assoc]

theorem end_at_length : (stub ++ (archive.body ++ archive.directory)).length = archive.endAt stub := by
  rw [List.length_append, List.length_append, Archive.endAt, Nat.add_assoc]

theorem file_length : (archive.file stub trailing).length =
    archive.endAt stub + eocdLen + archive.comment.length + trailing.length := by
  rw [file_end_record, List.length_append, end_at_length, List.length_append, List.length_append, end_record_length]
  omega

theorem find_eocd_eq (window : archive.comment.length + trailing.length ≤ maxCommentLen)
    (last : ∀ position, archive.endAt stub < position → startsAt (archive.file stub trailing) endSignature position = false) :
    findEocd (archive.file stub trailing) = some (archive.endAt stub) := by
  have length := file_length archive stub trailing
  have stands := starts_at_there (stub ++ (archive.body ++ archive.directory)) endSignature
    (archive.endRecord.drop 4 ++ (archive.comment ++ trailing))
  have split : endSignature ++ (archive.endRecord.drop 4 ++ (archive.comment ++ trailing)) =
      archive.endRecord ++ (archive.comment ++ trailing) := rfl
  rw [split, ← file_end_record, end_at_length] at stands
  rw [eocdLen] at length
  rw [maxCommentLen] at window
  rw [findEocd, if_neg (by rw [eocdLen]; omega), maxCommentLen, eocdLen]
  exact Search.find_last _ _ _ _ (by omega) (by omega) stands last

theorem size_read : u32le (archive.file stub trailing) (archive.endAt stub + 12) = some archive.directory.length := by
  have fits : archive.directory.length < 2 ^ 32 - 1 := archive.directory_fits
  have read := u32le_there (stub ++ (archive.body ++ archive.directory) ++ archive.endRecord.take 12)
    (archive.endRecord.drop 16 ++ (archive.comment ++ trailing)) (UInt32.ofNat archive.directory.length)
  have split : archive.endRecord.take 12 ++ (le32 (UInt32.ofNat archive.directory.length) ++
      (archive.endRecord.drop 16 ++ (archive.comment ++ trailing))) = archive.endRecord ++ (archive.comment ++ trailing) := rfl
  rw [List.append_assoc, split, ← file_end_record, List.length_append, end_at_length,
    u32_of_length _ fits] at read
  exact read

theorem offset_read : u32le (archive.file stub trailing) (archive.endAt stub + 16) = some archive.body.length := by
  have read := u32le_there (stub ++ (archive.body ++ archive.directory) ++ archive.endRecord.take 16)
    (archive.endRecord.drop 20 ++ (archive.comment ++ trailing)) (UInt32.ofNat archive.body.length)
  have split : archive.endRecord.take 16 ++ (le32 (UInt32.ofNat archive.body.length) ++
      (archive.endRecord.drop 20 ++ (archive.comment ++ trailing))) = archive.endRecord ++ (archive.comment ++ trailing) := rfl
  rw [List.append_assoc, split, ← file_end_record, List.length_append, end_at_length,
    u32_of_length _ archive.body_fits] at read
  exact read

theorem scan_file_eq : scanCentralDirectory (archive.file stub trailing) (stub.length + archive.body.length) =
    entriesFrom (stub.length + archive.body.length) archive.records := by
  have enough : archive.records.length ≤ (archive.file stub trailing).length := by
    have few := records_length_le archive.records
    rw [← Archive.directory] at few
    rw [file_length, Archive.endAt]
    omega
  have unsigned : startsAt (archive.endRecord ++ (archive.comment ++ trailing)) [80, 75, 1, 2] 0 = false := rfl
  have scanned := scan_records_eq archive.records _ unsigned (stub ++ archive.body) _ enough
  rw [← Archive.directory, ← file_directory, List.length_append] at scanned
  exact scanned

-- The bases agree: the directory ends at the end record, and its recorded start lies behind the stub.
theorem read_raw_directory_eq (listed : archive.records ≠ []) (found : findEocd (archive.file stub trailing) = some (archive.endAt stub)) :
    readRawDirectory (archive.file stub trailing) = some (archive.read stub) := by
  have size := archive.directory_fits
  have offset := archive.body_fits
  rw [← Archive.directory] at size
  have entries : entriesFrom (stub.length + archive.body.length) archive.records ≠ [] := by
    cases records : archive.records with
    | nil => exact absurd records listed
    | cons record rest => exact List.cons_ne_nil _ _
  have start : checkedSub (archive.endAt stub) archive.directory.length = some (stub.length + archive.body.length) := by
    rw [checkedSub, Archive.endAt, if_pos (Nat.le_add_left _ _), Nat.add_sub_cancel]
  have base : checkedSub (stub.length + archive.body.length) archive.body.length = some stub.length := by
    rw [checkedSub, if_pos (Nat.le_add_left _ _), Nat.add_sub_cancel]
  have plain : ¬ (archive.directory.length = 2 ^ 32 - 1 ∨ archive.body.length = 2 ^ 32 - 1) := by
    rintro (sentinel | sentinel)
    · exact absurd sentinel (Nat.ne_of_lt size)
    · exact absurd sentinel (Nat.ne_of_lt offset)
  simp only [readRawDirectory, found, size_read, offset_read, start, base, Option.bind_eq_bind, Option.bind_some, if_neg plain,
    scan_file_eq, if_neg entries]
  rfl

end File

theorem entries_from_record :
    ∀ (position : Nat), ∀ entry ∈ entriesFrom position records, ∃ record ∈ records, entry.headerOffset = record.headerOffset.toNat := by
  induction records with
  | nil => exact fun position entry member => absurd member List.not_mem_nil
  | cons record rest ih =>
      intro position entry member
      rcases List.mem_cons.mp member with rfl | later
      · exact ⟨record, List.mem_cons_self, rfl⟩
      · obtain ⟨other, inside, points⟩ := ih _ entry later
        exact ⟨other, List.mem_cons_of_mem _ inside, points⟩

-- A slice has less than 2^63 bytes. What stands at a recorded offset of the archive stands at the local header of the file.
theorem read_raw_directory_exact (archive : Archive) (stub trailing : List UInt8) (listed : archive.records ≠ [])
    (window : archive.comment.length + trailing.length ≤ maxCommentLen)
    (last : ∀ position, archive.endAt stub < position → startsAt (archive.file stub trailing) endSignature position = false)
    (slice : (archive.file stub trailing).length < 2 ^ 63) :
    readRawDirectory (archive.file stub trailing) = some (archive.read stub) ∧
      ∀ entry ∈ (archive.read stub).entries,
        (archive.read stub).localHeader entry = some (stub.length + entry.headerOffset) ∧
        (archive.file stub trailing).drop (stub.length + entry.headerOffset) =
          (archive.octets ++ trailing).drop entry.headerOffset := by
  refine ⟨read_raw_directory_eq archive stub trailing listed (find_eocd_eq archive stub trailing window last), ?_⟩
  intro entry member
  obtain ⟨record, _, points⟩ := entries_from_record archive.records _ entry member
  have offset := record.headerOffset.toNat_lt
  have before : stub.length ≤ (archive.file stub trailing).length := by
    rw [file_length, Archive.endAt]
    omega
  constructor
  · rw [RawDirectory.localHeader, points]
    refine (checked_add_some _ _ _).mpr ⟨Nat.add_comm _ _, ?_⟩
    change record.headerOffset.toNat + stub.length < 2 ^ 64
    omega
  · rw [Archive.file, List.drop_append, List.drop_eq_nil_of_le (Nat.le_add_right _ _), Nat.add_sub_cancel_left, List.nil_append]

def plainRecord : Central where
  madeBy := 20
  host := 0
  versionNeeded := 20
  flags := 0
  method := 0
  modTime := 0
  modDate := 33
  crc32 := 0
  compressedSize := 0
  uncompressedSize := 0
  diskStart := 0
  internalAttributes := 0
  externalAttributes := 0
  headerOffset := 0
  name := [97]
  extra := []
  comment := []
  name_fits := by decide
  extra_fits := by decide
  comment_fits := by decide

def plainArchive : Archive where
  body := []
  records := [plainRecord]
  disk := 0
  directoryDisk := 0
  diskRecords := 1
  totalRecords := 1
  comment := []
  body_fits := by decide
  directory_fits := by decide
  comment_fits := by decide

theorem read_raw_directory_exact_stub :
    readRawDirectory (plainArchive.file [77, 90] [0]) = some (plainArchive.read [77, 90]) ∧
      ∀ entry ∈ (plainArchive.read [77, 90]).entries,
        (plainArchive.read [77, 90]).localHeader entry = some ([77, 90].length + entry.headerOffset) ∧
        (plainArchive.file [77, 90] [0]).drop ([77, 90].length + entry.headerOffset) =
          (plainArchive.octets ++ [0]).drop entry.headerOffset := by
  refine read_raw_directory_exact plainArchive [77, 90] [0] (List.cons_ne_nil _ _) (by decide) ?_ (by decide)
  intro position later
  have behind : position = 50 + (position - 50) := by
    change 49 < position at later
    omega
  have absent : (80 : UInt8) ∉ (plainArchive.file [77, 90] [0]).drop 50 := by decide
  rw [behind]
  exact absent_unsigned _ _ _ absent

-- The length of the comment ends the record as a signature begins, and the comment goes on with it.
def fillCount : Nat := 19266

def fill : List UInt8 := List.replicate fillCount 255

def straddling : List UInt8 := [5, 6, 255, 255, 255, 255, 255, 255, 255, 255, 255, 255, 255, 255] ++ fill

theorem fill_absent : (80 : UInt8) ∉ fill := by
  intro member
  exact absurd (List.eq_of_mem_replicate member) (by decide)

theorem straddling_length : straddling.length = 19280 := by
  rw [straddling, fill, List.length_append, List.length_replicate, fillCount]
  rfl

def straddled : Archive where
  body := []
  records := [plainRecord]
  disk := 0
  directoryDisk := 0
  diskRecords := 1
  totalRecords := 1
  comment := straddling
  body_fits := by decide
  directory_fits := by decide
  comment_fits := by
    rw [straddling_length]
    decide

def straddledLead : List UInt8 :=
  plainRecord.octets ++ (endSignature ++ [0, 0, 0, 0, 1, 0, 1, 0, 47, 0, 0, 0, 0, 0, 0, 0, 80, 75] ++
    [5, 6, 255, 255, 255, 255, 255, 255, 255, 255, 255, 255, 255, 255])

theorem straddled_file : straddled.file [] [] = straddledLead ++ fill := by
  have count : le16 (UInt16.ofNat straddled.comment.length) = [80, 75] := by
    change le16 (UInt16.ofNat straddling.length) = _
    rw [straddling_length]
    rfl
  rw [Archive.file, Archive.octets, Archive.endRecord, count, List.append_nil, List.nil_append]
  rfl

theorem straddled_eocd : findEocd (straddledLead ++ fill) = some 67 := by
  have length : (straddledLead ++ fill).length = 19349 := by
    rw [List.length_append, fill, List.length_replicate, fillCount]
    rfl
  have stands : startsAt (straddledLead ++ fill) endSignature 67 = true := rfl
  rw [findEocd, length, if_neg (by decide)]
  refine Search.find_last _ _ _ _ (Nat.zero_le _) (by decide) stands fun other later => ?_
  have behind : other = 68 + (other - 68) := by omega
  have absent : (80 : UInt8) ∉ (straddledLead ++ fill).drop 68 := by
    change (80 : UInt8) ∉ straddledLead.drop 68 ++ fill
    rw [List.mem_append, not_or]
    exact ⟨by decide, fill_absent⟩
  rw [behind]
  exact absent_unsigned _ _ _ absent

theorem sentinel_hides (eocd : Nat) (found : findEocd bytes = some eocd)
    (size : u32le bytes (eocd + 12) = some (2 ^ 32 - 1)) : readRawDirectory bytes = none := by
  simp only [readRawDirectory, found, size, Option.bind_eq_bind, Option.bind_some]
  cases u32le bytes (eocd + 16) with
  | none => rfl
  | some offset => rw [Option.bind_some, if_pos (Or.inl trivial), Option.bind_none]

theorem straddling_signature_hides_directory :
    ¬ ∀ (archive : Archive) (stub trailing : List UInt8), archive.records ≠ [] →
      archive.comment.length + trailing.length ≤ maxCommentLen →
      (∀ position, startsAt (archive.comment ++ trailing) endSignature position = false) →
      (archive.file stub trailing).length < 2 ^ 63 →
      readRawDirectory (archive.file stub trailing) = some (archive.read stub) := by
  intro all
  have absent : (80 : UInt8) ∉ straddling := by
    rw [straddling, List.mem_append, not_or]
    exact ⟨by decide, fill_absent⟩
  have count : straddled.comment.length = 19280 := straddling_length
  have window : straddled.comment.length + ([] : List UInt8).length ≤ maxCommentLen := by
    rw [count]
    decide
  have clear : ∀ position, startsAt (straddled.comment ++ []) endSignature position = false := by
    intro position
    rw [← Nat.zero_add position, List.append_nil]
    exact absent_unsigned _ 0 position absent
  have slice : (straddled.file [] []).length < 2 ^ 63 := by
    rw [file_length, count]
    decide
  have read := all straddled [] [] (List.cons_ne_nil _ _) window clear slice
  have lead : straddledLead = straddledLead.take 79 ++ le32 (UInt32.ofNat (2 ^ 32 - 1)) := by decide
  have size : u32le (straddledLead ++ fill) (67 + 12) = some (2 ^ 32 - 1) := by
    rw [lead, List.append_assoc]
    exact u32le_there (straddledLead.take 79) fill (UInt32.ofNat (2 ^ 32 - 1))
  have found := straddled_eocd
  rw [← straddled_file] at found size
  rw [sentinel_hides _ 67 found size] at read
  cases read

end Filefacts.Zip
