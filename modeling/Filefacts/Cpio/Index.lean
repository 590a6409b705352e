import Filefacts.Rar.Name
import Mathlib.Data.Nat.Digits.Defs

set_option autoImplicit false

namespace Filefacts.Cpio

open Rar (Text fromUtf8Lossy)
open Bytes (ascii checkedAdd)

def maxNameBytes : Nat := 1024 * 1024

def maxMetadataBytes : Nat := 16 * 1024 * 1024

inductive EntryType where
  | regular
  | directory
  | symlink
  | charDevice
  | blockDevice
  | fifo
  | socket
  | other
deriving DecidableEq

structure ArchiveOwnership where
  modeOctal : Option Nat
  uid : Option Nat
  gid : Option Nat
  uname : Option Text
  gname : Option Text
deriving DecidableEq

structure ArchiveOffsets where
  header : Option Nat
  data : Option Nat
  centralHeader : Option Nat
deriving DecidableEq

structure ArchiveMember where
  path : Text
  sizeBytes : Nat
  entryType : EntryType
  mtimeUnix : Option Int
  linkname : Option Text
  ownership : ArchiveOwnership
  offsets : ArchiveOffsets
deriving DecidableEq

def isDigit (radix : Nat) (b : UInt8) : Bool :=
  if radix = 8 then 48 ≤ b && b ≤ 55 else (48 ≤ b && b ≤ 57) || (65 ≤ b && b ≤ 70) || (97 ≤ b && b ≤ 102)

def digit (b : UInt8) : Nat :=
  if b ≤ 57 then b.toNat - 48 else if b ≤ 70 then b.toNat - 55 else b.toNat - 87

def value (radix : Nat) (field : List UInt8) : Nat := field.foldl (fun total b => total * radix + digit b) 0

def number (field : List UInt8) (radix : Nat) : Except String Nat :=
  if field.all (isDigit radix) then
    if field ≠ [] ∧ value radix field < 2 ^ 64 then .ok (value radix field) else .error "numeric field overflow"
  else .error "invalid numeric field"

def extent (bytes : List UInt8) (start len : Nat) : Except String (List UInt8) :=
  match checkedAdd start len with
  | none => .error "extent overflow"
  | some stop =>
      match Bytes.get bytes start stop with
      | none => .error "truncated entry"
      | some slice => .ok slice

-- The alignment is a power of two.
def aligned (offset alignment : Nat) : Except String Nat :=
  match checkedAdd offset (alignment - 1) with
  | none => .error "alignment overflow"
  | some sum => .ok (sum - sum % alignment)

structure Header where
  size : Nat
  alignment : Nat
  mode : Nat
  uid : Nat
  gid : Nat
  mtime : Nat
  nameSize : Nat
  fileSize : Nat
  variant : String
deriving DecidableEq

def slice (octets : List UInt8) (start stop : Nat) : List UInt8 := (octets.drop start).take (stop - start)

def chunks (width : Nat) : Nat → List UInt8 → List (List UInt8)
  | 0, _ => []
  | count + 1, octets => octets.take width :: chunks width count (octets.drop width)

def numbers (radix : Nat) : List (List UInt8) → Except String (List Nat)
  | [] => .ok []
  | field :: fields => do
      let first ← number field radix
      let others ← numbers radix fields
      return first :: others

def odcHeader (h : List UInt8) : Except String Header := do
  -- The fields that no member shows are checked too.
  let _ ← numbers 8 (chunks 6 7 (slice h 6 48))
  let mode ← number (slice h 18 24) 8
  let uid ← number (slice h 24 30) 8
  let gid ← number (slice h 30 36) 8
  let mtime ← number (slice h 48 59) 8
  let nameSize ← number (slice h 59 65) 8
  let fileSize ← number (slice h 65 76) 8
  return { size := 76, alignment := 1, mode, uid, gid, mtime, nameSize, fileSize, variant := "odc" }

def newcHeader (h : List UInt8) (variant : String) : Except String Header := do
  let fields ← numbers 16 (chunks 8 13 (h.drop 6))
  return { size := 110, alignment := 4, mode := fields.getD 1 0, uid := fields.getD 2 0, gid := fields.getD 3 0,
           mtime := fields.getD 5 0, nameSize := fields.getD 11 0, fileSize := fields.getD 6 0, variant }

def readHeader (bytes : List UInt8) (offset : Nat) : Except String Header := do
  let magic ← extent bytes offset 6
  if magic = ascii "070707" then
    let h ← extent bytes offset 76
    odcHeader h
  else if magic = ascii "070701" ∨ magic = ascii "070702" then
    let h ← extent bytes offset 110
    newcHeader h (if magic = ascii "070702" then "crc" else "newc")
  else .error "unsupported or invalid CPIO header"

structure Record where
  name : List UInt8
  dataOffset : Nat
  payload : List UInt8
  next : Nat
  metadata : Nat

def needed {α : Type} (found : Option α) (message : String) : Except String α := found.elim (.error message) .ok

def readRecord (bytes : List UInt8) (maxMetadata offset metadata : Nat) (header : Header) : Except String Record :=
  if header.nameSize = 0 ∨ maxNameBytes < header.nameSize then .error "name size exceeds limit"
  else do
    let metadata ← needed (checkedAdd metadata (header.size + header.nameSize)) "metadata size overflow"
    if maxMetadata < metadata then .error "metadata budget exceeded"
    else
      let nameOffset ← needed (checkedAdd offset header.size) "header overflow"
      let name ← extent bytes nameOffset header.nameSize
      if name.getLast? ≠ some 0 ∨ 0 ∈ name.dropLast then .error "invalid NUL-terminated pathname"
      else
        let dataOffset ← aligned (nameOffset + header.nameSize) header.alignment
        let payload ← extent bytes dataOffset header.fileSize
        let next ← aligned (dataOffset + header.fileSize) header.alignment
        return { name := name.dropLast, dataOffset, payload, next, metadata }

def entryType (mode : Nat) : EntryType :=
  let kind := mode &&& 0o170000
  if kind = 0o100000 then .regular
  else if kind = 0o040000 then .directory
  else if kind = 0o120000 then .symlink
  else if kind = 0o020000 then .charDevice
  else if kind = 0o060000 then .blockDevice
  else if kind = 0o010000 then .fifo
  else if kind = 0o140000 then .socket
  else .other

def smallLink (header : Header) : Bool := entryType header.mode = .symlink && header.fileSize ≤ 4096

def member (offset : Nat) (header : Header) (record : Record) : ArchiveMember where
  path := fromUtf8Lossy record.name
  sizeBytes := header.fileSize
  entryType := entryType header.mode
  mtimeUnix := if header.mtime < 2 ^ 63 then some header.mtime else none
  linkname := if smallLink header then some (fromUtf8Lossy record.payload) else none
  ownership :=
    { modeOctal := if header.mode < 2 ^ 32 then some header.mode else none
      uid := some header.uid
      gid := some header.gid
      uname := none
      gname := none }
  offsets := { header := some offset, data := some record.dataOffset, centralHeader := none }

def trailer : List UInt8 := ascii "TRAILER!!!"

-- The variant is the value under "cpio.variant".
structure Walk where
  offset : Nat
  metadata : Nat
  members : List ArchiveMember
  variant : Option String

inductive Turn where
  | failed (walk : Walk) (message : String)
  | ended (walk : Walk)
  | followed (walk : Walk)

-- A member goes into the list before the octets that align its end are looked for.
def push (bytes : List UInt8) (maxEntries maxMetadata : Nat) (walk : Walk) (header : Header) (record : Record) : Turn :=
  if maxEntries ≤ walk.members.length then .failed walk "member count exceeds limit"
  else
    let metadata := if smallLink header then record.metadata + header.fileSize else record.metadata
    if smallLink header ∧ maxMetadata < metadata then .failed walk "metadata budget exceeded by link targets"
    else
      let listed := { walk with metadata, members := walk.members ++ [member walk.offset header record] }
      match extent bytes (record.dataOffset + header.fileSize) (record.next - record.dataOffset - header.fileSize) with
      | .error message => .failed listed message
      | .ok _ => .followed { listed with offset := record.next }

def close (bytes : List UInt8) (walk : Walk) (header : Header) (record : Record) : Turn :=
  if header.fileSize ≠ 0 then .failed walk "trailer claims file data"
  else if (bytes.drop record.next).any fun b => b ≠ 0 then .failed walk "non-padding bytes follow CPIO trailer"
  else .ended walk

def named (walk : Walk) (header : Header) : Walk :=
  if walk.offset = 0 then { walk with variant := some header.variant } else walk

def turn (bytes : List UInt8) (maxEntries maxMetadata : Nat) (walk : Walk) : Turn :=
  match readHeader bytes walk.offset with
  | .error message => .failed walk message
  | .ok header =>
      match readRecord bytes maxMetadata walk.offset walk.metadata header with
      | .error message => .failed (named walk header) message
      | .ok record =>
          if record.name = trailer then close bytes (named walk header) header record
          else push bytes maxEntries maxMetadata (named walk header) header record

structure Outcome where
  result : Except String Unit
  members : List ArchiveMember
  variant : Option String

def loop (bytes : List UInt8) (maxEntries maxMetadata : Nat) : Nat → Walk → Option Outcome
  | 0, _ => none
  | fuel + 1, walk =>
      match turn bytes maxEntries maxMetadata walk with
      | .failed walk message => some { result := .error message, members := walk.members, variant := walk.variant }
      | .ended walk => some { result := .ok (), members := walk.members, variant := walk.variant }
      | .followed walk => loop bytes maxEntries maxMetadata fuel walk

-- Every turn that is followed by another goes forward, so one turn an octet is enough.
def index (bytes : List UInt8) (members : List ArchiveMember) (maxEntries maxMetadata : Nat) : Option Outcome :=
  loop bytes maxEntries maxMetadata (bytes.length + 1) { offset := 0, metadata := 0, members, variant := none }

open Rar (Text fromUtf8Lossy)
open Bytes (ascii)

structure Numeral (radix width : Nat) where
  octets : List UInt8
  wide : octets.length = width
  digits : ∀ b ∈ octets, isDigit radix b = true

def Numeral.number {radix width : Nat} (numeral : Numeral radix width) : Nat :=
  Nat.ofDigits radix (numeral.octets.reverse.map digit)

structure Odc where
  dev : Numeral 8 6
  ino : Numeral 8 6
  mode : Numeral 8 6
  uid : Numeral 8 6
  gid : Numeral 8 6
  nlink : Numeral 8 6
  rdev : Numeral 8 6
  mtime : Numeral 8 11
  nameSize : Numeral 8 6
  fileSize : Numeral 8 11

structure Newc where
  checked : Bool
  ino : Numeral 16 8
  mode : Numeral 16 8
  uid : Numeral 16 8
  gid : Numeral 16 8
  nlink : Numeral 16 8
  mtime : Numeral 16 8
  fileSize : Numeral 16 8
  devMajor : Numeral 16 8
  devMinor : Numeral 16 8
  rdevMajor : Numeral 16 8
  rdevMinor : Numeral 16 8
  nameSize : Numeral 16 8
  check : Numeral 16 8

inductive Head where
  | odc (fields : Odc)
  | newc (fields : Newc)

def Odc.octets (h : Odc) : List UInt8 :=
  ascii "070707" ++ h.dev.octets ++ h.ino.octets ++ h.mode.octets ++ h.uid.octets ++ h.gid.octets ++ h.nlink.octets ++
    h.rdev.octets ++ h.mtime.octets ++ h.nameSize.octets ++ h.fileSize.octets

def Newc.octets (h : Newc) : List UInt8 :=
  ascii (if h.checked then "070702" else "070701") ++ h.ino.octets ++ h.mode.octets ++ h.uid.octets ++ h.gid.octets ++
    h.nlink.octets ++ h.mtime.octets ++ h.fileSize.octets ++ h.devMajor.octets ++ h.devMinor.octets ++
    h.rdevMajor.octets ++ h.rdevMinor.octets ++ h.nameSize.octets ++ h.check.octets

def Head.octets : Head → List UInt8
  | .odc fields => fields.octets
  | .newc fields => fields.octets

def Head.header : Head → Header
  | .odc h =>
      { size := 76, alignment := 1, mode := h.mode.number, uid := h.uid.number, gid := h.gid.number, mtime := h.mtime.number,
        nameSize := h.nameSize.number, fileSize := h.fileSize.number, variant := "odc" }
  | .newc h =>
      { size := 110, alignment := 4, mode := h.mode.number, uid := h.uid.number, gid := h.gid.number, mtime := h.mtime.number,
        nameSize := h.nameSize.number, fileSize := h.fileSize.number, variant := if h.checked then "crc" else "newc" }

-- A name is written with a NUL behind it, which its size counts.
structure Entry where
  head : Head
  name : List UInt8
  body : List UInt8
  clean : 0 ∉ name
  nameSize : head.header.nameSize = name.length + 1
  fileSize : head.header.fileSize = body.length

def padding (alignment offset : Nat) : List UInt8 := List.replicate ((alignment - offset % alignment) % alignment) 0

namespace Entry

variable (entry : Entry) (offset : Nat)

def nameEnd : Nat := offset + entry.head.header.size + (entry.name.length + 1)

def dataOffset : Nat := entry.nameEnd offset + (padding entry.head.header.alignment (entry.nameEnd offset)).length

def bodyEnd : Nat := entry.dataOffset offset + entry.body.length

def stop : Nat := entry.bodyEnd offset + (padding entry.head.header.alignment (entry.bodyEnd offset)).length

def octets : List UInt8 :=
  entry.head.octets ++ (entry.name ++ [0]) ++ padding entry.head.header.alignment (entry.nameEnd offset) ++ entry.body ++
    padding entry.head.header.alignment (entry.bodyEnd offset)

def linked : Bool := entryType entry.head.header.mode = .symlink && entry.body.length ≤ 4096

def member : ArchiveMember where
  path := fromUtf8Lossy entry.name
  sizeBytes := entry.body.length
  entryType := entryType entry.head.header.mode
  mtimeUnix := some entry.head.header.mtime
  linkname := if entry.linked then some (fromUtf8Lossy entry.body) else none
  ownership :=
    { modeOctal := some entry.head.header.mode
      uid := some entry.head.header.uid
      gid := some entry.head.header.gid
      uname := none
      gname := none }
  offsets := { header := some offset, data := some (entry.dataOffset offset), centralHeader := none }

def cost : Nat := entry.head.header.size + (entry.name.length + 1) + if entry.linked then entry.body.length else 0

end Entry

structure Archive where
  entries : List Entry
  last : Entry
  zeros : Nat
  plain : ∀ entry ∈ entries, entry.name ≠ trailer
  closing : last.name = trailer
  empty : last.body = []

def encode (last : Entry) (zeros : Nat) : Nat → List Entry → List UInt8
  | offset, [] => last.octets offset ++ List.replicate zeros 0
  | offset, entry :: entries => entry.octets offset ++ encode last zeros (entry.stop offset) entries

def Archive.octets (archive : Archive) : List UInt8 := encode archive.last archive.zeros 0 archive.entries

def placed : Nat → List Entry → List ArchiveMember
  | _, [] => []
  | offset, entry :: entries => entry.member offset :: placed (entry.stop offset) entries

def Archive.members (archive : Archive) : List ArchiveMember := placed 0 archive.entries

structure Archive.Within (archive : Archive) (listed maxEntries maxMetadata : Nat) : Prop where
  count : listed + archive.entries.length ≤ maxEntries
  names : ∀ entry ∈ archive.entries, entry.name.length < maxNameBytes
  metadata : (archive.entries.map Entry.cost).sum + archive.last.cost ≤ maxMetadata
  octets : archive.octets.length < 2 ^ 63
  word : maxMetadata < 2 ^ 64

end Filefacts.Cpio
