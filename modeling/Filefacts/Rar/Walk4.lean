import Filefacts.Rar.Name

set_option autoImplicit false

namespace Filefacts.Rar

def maxBlocks : Nat := 200000
def maxName : Nat := 65536
def maxArchiveMembers : Nat := 65536
def maxPathBytes : Nat := 64 * 2 ^ 20

def r4LongBlock : Nat := 0x8000
def r4SkipUnknown : Nat := 0x4000
def r4Main : Nat := 0x73
def r4File : Nat := 0x74
def r4Newsub : Nat := 0x7A
def r4End : Nat := 0x7B
def r4MhdVolume : Nat := 0x0001
def r4MhdComment : Nat := 0x0002
def r4MhdLock : Nat := 0x0004
def r4MhdSolid : Nat := 0x0008
def r4MhdNewnumbering : Nat := 0x0010
def r4MhdAv : Nat := 0x0020
def r4MhdProtect : Nat := 0x0040
def r4MhdPassword : Nat := 0x0080
def r4MhdFirstvolume : Nat := 0x0100
def r4MhdEncryptver : Nat := 0x0200
def r4LhdSplitBefore : Nat := 0x0001
def r4LhdSplitAfter : Nat := 0x0002
def r4LhdPassword : Nat := 0x0004
def r4LhdSolid : Nat := 0x0010
def r4LhdWindowdir : Nat := 0x00E0
def r4LhdLarge : Nat := 0x0100
def r4LhdUnicode : Nat := 0x0200
def r4LhdVersion : Nat := 0x0800
def attrDir : Nat := 0x10

def has (flags mask : Nat) : Bool := flags &&& mask ≠ 0

inductive EntryType where
  | regular
  | directory
  | ntfsStream
  deriving DecidableEq, Repr

structure Member where
  path : Text
  sizeBytes : Nat
  packed : Nat
  entryType : EntryType
  encrypted : Bool
  method : Nat
  host : Nat
  crc32 : Option Nat
  splitBefore : Bool
  splitAfter : Bool
  solid : Bool
  fileVersion : Option Nat
  headerOff : Nat
  dataOff : Nat
  attrs : Nat
  unpackVersion : Nat
  deriving DecidableEq, Repr

structure Stream where
  host : Text
  stream : Text
  sizeBytes : Nat
  encrypted : Bool
  deriving DecidableEq, Repr

structure Archive where
  volume : Bool
  solid : Bool
  recovery : Bool
  locked : Bool
  firstVolume : Bool
  newNumbering : Bool
  authenticity : Bool
  headersEncrypted : Bool
  comment : Option Text
  commentPacked : Bool
  members : List Member
  services : List Text
  streams : List Stream
  limits : List (String × String)
  membersCapped : Bool
  endPresent : Bool
  notLastVolume : Bool
  headerCrcMismatch : Nat
  unknownHeader : Nat
  acl : Nat
  split : Nat
  mappedUnix : Nat
  unpackRange : Option (Nat × Nat)
  quickOpen : Bool
  quickOpenSize : Nat
  recoverySize : Nat
  endOffset : Nat
  lastFile : Option Text
  streamPathBytes : Nat
  streamsCapped : Bool
  r4EncryptVer : Option Nat
  deriving DecidableEq, Repr

def Archive.empty (endOffset : Nat) : Archive :=
  ⟨false, false, false, false, false, false, false, false, none, false, [], [], [], [], false, false, false, 0, 0, 0, 0, 0, none,
    false, 0, 0, endOffset, none, 0, false, none⟩

def Archive.limit (ar : Archive) (stage reason : String) : Archive := { ar with limits := ar.limits ++ [(stage, reason)] }

def noteUnpackVersion (ar : Archive) (v : Nat) : Archive :=
  { ar with
    unpackRange := some (match ar.unpackRange with
      | none => (v, v)
      | some (lo, hi) => (min lo v, max hi v)) }

def pushMember (ar : Archive) (member : Member) : Archive :=
  if maxArchiveMembers ≤ ar.members.length then
    if ar.membersCapped then ar
    else { ar with membersCapped := true }.limit "member-cap" s!"stopped at {maxArchiveMembers} members"
  else
    { ar with
      split := if member.splitBefore || member.splitAfter then ar.split + 1 else ar.split
      members := ar.members ++ [member] }

-- A RAR4 header has no extra records, so a stream keeps the name of the unnamed one.
def pushStream (ar : Archive) (member : Member) : Archive :=
  let stream := textOf "$DATA"
  let host := ar.lastFile.getD []
  let cost := 2 * (utf8Len host + utf8Len stream) + 1
  if ar.streamsCapped || maxPathBytes - ar.streamPathBytes < cost then
    if ar.streamsCapped then ar
    else { ar with streamsCapped := true }.limit "stream-path-budget" s!"NTFS stream paths exceeded {maxPathBytes} bytes"
  else
    let path := if host = [] then textOf ":" ++ stream else host ++ textOf ":" ++ stream
    let ar := { ar with
      streamPathBytes := ar.streamPathBytes + cost
      streams := ar.streams ++ [⟨host, stream, member.sizeBytes, member.encrypted⟩] }
    pushMember ar { member with path := path, entryType := .ntfsStream }

def finishFile (ar : Archive) (member : Member) (service : Bool) : Archive :=
  if service then
    let ar := { ar with services := ar.services ++ [member.path] }
    if member.path = textOf "CMT" then { ar with commentPacked := member.method ≠ 0 }
    else if member.path = textOf "QO" then { ar with quickOpen := true, quickOpenSize := member.packed }
    else if member.path = textOf "RR" then { ar with recovery := true, recoverySize := member.packed }
    else if member.path = textOf "ACL" then { ar with acl := ar.acl + 1 }
    else if member.path = textOf "STM" then pushStream ar member
    else ar
  else
    let ar := if member.path.any (· = 0xFFFE) then { ar with mappedUnix := ar.mappedUnix + 1 } else ar
    pushMember { ar with lastFile := some member.path } member

-- A read that fails leaves the position where it was.
def readLe (bytes : List UInt8) (width pos : Nat) : Option Nat × Nat :=
  match Bytes.arrayAt bytes width pos with
  | none => (none, pos)
  | some field => (some (BigEndian.value field.reverse), pos + width)

def remaining (bytes : List UInt8) (pos : Nat) : Nat := bytes.length - pos

def skipData (bytes : List UInt8) (pos : Nat) (ar : Archive) (size : Nat) : Nat × Archive :=
  let left := remaining bytes pos
  (pos + min size left,
    if left < size then ar.limit "data" s!"packed data runs {size - left} bytes past end of file" else ar)

structure FileHead where
  unpacked : Nat
  packed : Nat
  host : Nat
  crc : Option Nat
  unpVer : Nat
  method : Nat
  nameSize : Nat
  attrs : Nat
  nameAt : Nat
  deriving DecidableEq, Repr

def fileHead (bytes : List UInt8) (hflags pos : Nat) : Option FileHead :=
  let (packLo, pos) := readLe bytes 4 pos
  packLo.bind fun packLo =>
    let (unpLo, pos) := readLe bytes 4 pos
    unpLo.map fun unpLo =>
      let (host, pos) := readLe bytes 1 pos
      let (crc, pos) := readLe bytes 4 pos
      let (_, pos) := readLe bytes 4 pos
      let (unpVer, pos) := readLe bytes 1 pos
      let (method, pos) := readLe bytes 1 pos
      let (nameSize, pos) := readLe bytes 2 pos
      let (attrs, pos) := readLe bytes 4 pos
      let (packHi, pos) := if has hflags r4LhdLarge then readLe bytes 4 pos else (some 0, pos)
      let (unpHi, pos) := if has hflags r4LhdLarge then readLe bytes 4 pos else (some 0, pos)
      ⟨unpHi.getD 0 * 2 ^ 32 + unpLo, packHi.getD 0 * 2 ^ 32 + packLo, host.getD 0, crc, unpVer.getD 0, method.getD 0x30,
        nameSize.getD 0, attrs.getD 0, pos⟩

inductive Walked where
  | next (pos : Nat) (ar : Archive)
  | done (ar : Archive)
  deriving DecidableEq, Repr

def mainBlock (bytes : List UInt8) (blockStart hflags headerEnd : Nat) (ar : Archive) : Walked :=
  let (_, pos) := readLe bytes 2 (blockStart + 7)
  let (_, pos) := readLe bytes 4 pos
  let ar := { ar with
    volume := has hflags r4MhdVolume
    locked := has hflags r4MhdLock
    solid := has hflags r4MhdSolid
    newNumbering := has hflags r4MhdNewnumbering
    authenticity := has hflags r4MhdAv
    recovery := has hflags r4MhdProtect
    headersEncrypted := has hflags r4MhdPassword
    firstVolume := has hflags r4MhdFirstvolume
    r4EncryptVer := if has hflags r4MhdEncryptver then (readLe bytes 1 pos).1 else ar.r4EncryptVer
    commentPacked := ar.commentPacked || has hflags r4MhdComment }
  if ar.headersEncrypted then
    .done { ar.limit "headers-encrypted" "RAR4 header password" with endOffset := headerEnd }
  else .next headerEnd { ar with endOffset := headerEnd }

def fileBlock (bytes : List UInt8) (blockStart hflags headerEnd : Nat) (service : Bool) (ar : Archive) : Walked :=
  match fileHead bytes hflags (blockStart + 7) with
  | none => .done ar
  | some head =>
      if maxName < head.nameSize then
        let (pos, ar) := skipData bytes headerEnd (ar.limit "name" "RAR4 name longer than cap") head.packed
        .next pos ar
      else
        let nameEnd := min (head.nameAt + head.nameSize) headerEnd
        let rawName := (Bytes.get bytes head.nameAt nameEnd).getD []
        let name := rar4Name rawName (has hflags r4LhdUnicode)
        let ar := noteUnpackVersion ar head.unpVer
        let unix := head.host = 3
        let member : Member :=
          { path := name
            sizeBytes := head.unpacked
            packed := head.packed
            entryType :=
              if hflags &&& r4LhdWindowdir = r4LhdWindowdir ∨ (¬ unix ∧ has head.attrs attrDir) then .directory else .regular
            encrypted := has hflags r4LhdPassword
            method := head.method - 0x30
            host := head.host
            crc32 := head.crc
            splitBefore := has hflags r4LhdSplitBefore
            splitAfter := has hflags r4LhdSplitAfter
            solid := has hflags r4LhdSolid
            fileVersion := if has hflags r4LhdVersion then some 0 else none
            headerOff := blockStart
            dataOff := headerEnd
            attrs := head.attrs
            unpackVersion := head.unpVer }
        if service ∧ member.path = textOf "CMT" ∧ head.method = 0x30 then
          let taken := min head.packed (remaining bytes headerEnd)
          match Bytes.get bytes headerEnd (headerEnd + taken) with
          | some body => .next (headerEnd + taken) (finishFile { ar with comment := some (utf8Name body) } member service)
          | none => .next headerEnd (finishFile ar member service)
        else
          let (pos, ar) := skipData bytes headerEnd ar head.packed
          .next pos (finishFile ar member service)

-- A type the walk does not know; whether it goes on depends on two flags.
def otherBlock (htype hflags headerEnd : Nat) (ar : Archive) : Walked :=
  let ar := { ar with unknownHeader := ar.unknownHeader + 1 }
  if ¬ has hflags r4SkipUnknown ∧ ¬ has hflags r4LongBlock then
    .done { ar.limit "unknown-header" s!"RAR4 type 0x{Bytes.hexByte htype}" with endOffset := headerEnd }
  else .next headerEnd { ar with endOffset := headerEnd }

def typedBlock (bytes : List UInt8) (blockStart htype hflags headerEnd : Nat) (ar : Archive) : Walked :=
  if htype = r4Main then mainBlock bytes blockStart hflags headerEnd ar
  else if htype = r4File ∨ htype = r4Newsub then fileBlock bytes blockStart hflags headerEnd (htype = r4Newsub) ar
  else if htype = r4End then
    .done { ar with endPresent := true, notLastVolume := has hflags 0x0001, endOffset := headerEnd }
  else otherBlock htype hflags headerEnd ar

-- The checksum is the crc32fast crate's.
variable (crc32 : List UInt8 → Nat)

def walkBlock (bytes : List UInt8) (blockStart : Nat) (ar : Archive) : Walked :=
  let (storedCrc, pos) := readLe bytes 2 blockStart
  let (htype, pos) := readLe bytes 1 pos
  let (hflags, pos) := readLe bytes 2 pos
  let (headSize, _) := readLe bytes 2 pos
  match storedCrc, htype, hflags, headSize with
  | some storedCrc, some htype, some hflags, some headSize =>
      if headSize < 7 then .done (ar.limit "header" "RAR4 header smaller than 7")
      else
        let headerEnd := blockStart + headSize
        match Bytes.get bytes (blockStart + 2) headerEnd with
        | none => .done (ar.limit "header" "RAR4 header overruns file")
        | some crcOf =>
            let ar := if crc32 crcOf % 65536 ≠ storedCrc then { ar with headerCrcMismatch := ar.headerCrcMismatch + 1 } else ar
            typedBlock bytes blockStart htype hflags headerEnd ar
  | _, _, _, _ => .done ar

-- The loop, with the offsets at which it started to read a header.
def walkFrom (bytes : List UInt8) : Nat → Nat → Archive → List Nat × Archive
  | 0, _, ar => ([], ar)
  | blocks + 1, pos, ar =>
      if remaining bytes pos < 7 then ([], ar)
      else
        match walkBlock crc32 bytes pos ar with
        | .done ar => ([pos], ar)
        | .next after ar =>
            let (starts, ar) := walkFrom bytes blocks after ar
            (pos :: starts, ar)

def walkRar4 (bytes : List UInt8) (start : Nat) (ar : Archive) : Archive := (walkFrom crc32 bytes maxBlocks start ar).2

def headerStarts (bytes : List UInt8) (start : Nat) (ar : Archive) : List Nat := (walkFrom crc32 bytes maxBlocks start ar).1

end Filefacts.Rar

namespace Filefacts.Rar

def littleEndian (width number : Nat) : List UInt8 := (BigEndian.octetsOf width number).reverse

def field (body : List UInt8) (width offset : Nat) : Nat := BigEndian.value ((body.drop offset).take width).reverse

-- What a file or service header says of its packed data: PACK_SIZE, and HIGH_PACK_SIZE when the archive is large.
def packSize (flags : Nat) (body : List UInt8) : Nat :=
  (if has flags r4LhdLarge then field body 4 25 * 2 ^ 32 else 0) + field body 4 0

def isOther (htype : Nat) : Bool := htype ≠ r4Main && htype ≠ r4File && htype ≠ r4Newsub && htype ≠ r4End

-- The data behind a header is as long as the header says: packed data behind files and services, ADD_SIZE bytes behind any
-- other long block, nothing behind the rest.
def Sized (htype flags : Nat) (body data : List UInt8) : Prop :=
  if htype = r4Main then data = [] ∧ has flags r4MhdPassword = false
  else if htype = r4File ∨ htype = r4Newsub then
    (if has flags r4LhdLarge then 33 else 25) ≤ body.length ∧ packSize flags body = data.length
  else if htype = r4End then data = []
  else if has flags r4LongBlock then 4 ≤ body.length ∧ field body 4 0 = data.length
  else data = []

-- A RAR4 block: HEAD_CRC, HEAD_TYPE, HEAD_FLAGS and HEAD_SIZE, the rest of the header, and the data behind it.
structure Block where
  crc : Nat
  htype : Nat
  flags : Nat
  body : List UInt8
  data : List UInt8
  crcFits : crc < 256 ^ 2
  typeFits : htype < 256 ^ 1
  flagsFit : flags < 256 ^ 2
  bodyFits : 7 + body.length < 256 ^ 2
  sized : Sized htype flags body data

def Block.header (block : Block) : List UInt8 :=
  littleEndian 2 block.crc ++ littleEndian 1 block.htype ++ littleEndian 2 block.flags ++
    littleEndian 2 (7 + block.body.length) ++ block.body

def Block.encode (block : Block) : List UInt8 := block.header ++ block.data

def Block.ends (block : Block) : Bool := block.htype = r4End

def Block.stops (block : Block) : Bool :=
  isOther block.htype && !has block.flags r4SkipUnknown && !has block.flags r4LongBlock

def Block.adds (block : Block) : Bool := isOther block.htype && block.data ≠ []

def Block.last (block : Block) : Bool := block.ends || block.stops || block.adds

def layout (blocks : List Block) : List UInt8 := blocks.flatMap Block.encode

-- The blocks up to the first that a reader goes no further than.
def reached : List Block → List Block
  | [] => []
  | block :: rest => if block.last then [block] else block :: reached rest

def startsOf (offset : Nat) : List Block → List Nat
  | [] => []
  | block :: rest => offset :: startsOf (offset + block.encode.length) rest

theorem little_endian_length (width number : Nat) : (littleEndian width number).length = width := by
  rw [littleEndian, List.length_reverse, BigEndian.octets_of_length]

theorem header_length (block : Block) : block.header.length = 7 + block.body.length := by
  simp only [Block.header, List.length_append, little_endian_length]

theorem read_le_at {bytes rest : List UInt8} {width pos number : Nat} (fits : number < 256 ^ width)
    (there : bytes.drop pos = littleEndian width number ++ rest) (inside : pos ≤ bytes.length) :
    readLe bytes width pos = (some number, pos + width) := by
  have size := congrArg List.length there
  rw [List.length_drop, List.length_append, little_endian_length] at size
  rw [readLe, Bytes.arrayAt, if_pos (by omega), there, List.take_left' (little_endian_length width number)]
  simp only
  rw [littleEndian, List.reverse_reverse, BigEndian.value_octets_of width number fits]

theorem read_le_field (bytes body rest : List UInt8) (width base offset : Nat) (there : bytes.drop base = body ++ rest)
    (within : base ≤ bytes.length) (inside : offset + width ≤ body.length) :
    readLe bytes width (base + offset) = (some (field body width offset), base + offset + width) := by
  have size := congrArg List.length there
  rw [List.length_drop, List.length_append] at size
  have cut : (bytes.drop (base + offset)).take width = (body.drop offset).take width := by
    rw [← List.drop_drop, there, List.drop_append_of_le_length (by omega), List.take_append_of_le_length (by
      rw [List.length_drop]
      omega)]
  rw [readLe, Bytes.arrayAt, if_pos (by omega), cut]
  rfl

theorem field_lt (body : List UInt8) (width offset : Nat) : field body width offset < 256 ^ width := by
  have bound := BigEndian.value_lt ((body.drop offset).take width).reverse
  rw [List.length_reverse, List.length_take] at bound
  exact Nat.lt_of_lt_of_le bound (Nat.pow_le_pow_right (by omega) (Nat.min_le_left _ _))

end Filefacts.Rar
