import Filefacts.Rar.Walk4
import Filefacts.Time
import Mathlib.Data.List.Dedup

set_option autoImplicit false

namespace Filefacts.Rar5

open Filefacts.Rar (Text has maxName readLe remaining utf8Name)

-- Seven bits an octet, the low ones first; the bits past the 64th are shifted out.
def readVintFrom (bytes : List UInt8) : Nat → Nat → Nat → Nat → Option Nat × Nat
  | 0, _, _, pos => (none, pos)
  | turns + 1, n, shift, pos =>
      match bytes[pos]? with
      | none => (none, pos)
      | some b =>
          let n := min (n + b.toNat % 128 * 2 ^ shift % 2 ^ 64) (2 ^ 64 - 1)
          if b.toNat < 128 then (some n, pos + 1) else readVintFrom bytes turns n (shift + 7) (pos + 1)

def readVint (bytes : List UInt8) (pos : Nat) : Option Nat × Nat := readVintFrom bytes 10 0 0 pos

def readBytes (bytes : List UInt8) (count pos : Nat) : Option (List UInt8) × Nat :=
  match Bytes.arrayAt bytes count pos with
  | none => (none, pos)
  | some field => (some field, pos + count)

inductive Redirect where
  | unixSymlink
  | windowsSymlink
  | windowsJunction
  | hardLink
  | fileCopy
  | unknown
  deriving DecidableEq, Repr

def Redirect.ofType (n : Nat) : Redirect :=
  if n = 1 then .unixSymlink
  else if n = 2 then .windowsSymlink
  else if n = 3 then .windowsJunction
  else if n = 4 then .hardLink
  else if n = 5 then .fileCopy
  else .unknown

def Redirect.isLink (redirect : Redirect) : Bool := redirect = .unixSymlink || redirect = .windowsSymlink || redirect = .hardLink

structure Extra where
  encrypted : Bool
  kdfCount : Option Nat
  tweakedChecksums : Bool
  blake2 : Option String
  mtime : Option Int
  ctime : Option Int
  atime : Option Int
  fileVersion : Option Nat
  redirType : Option Redirect
  linkIsDir : Bool
  linkname : Option Text
  uname : Option Text
  gname : Option Text
  uid : Option Nat
  gid : Option Nat
  serviceData : Option (List UInt8)
  types : List Nat
  unknown : Nat
  bytes : Nat
  deriving DecidableEq, Repr

def Extra.empty : Extra :=
  ⟨false, none, false, none, none, none, none, none, none, false, none, none, none, none, none, none, [], 0, 0⟩

def hexEncode (bytes : List UInt8) : String := String.join (bytes.map fun b => Bytes.hexByte b.toNat)

def unixTime (flags : Nat) (data : List UInt8) (pos : Nat) : Option Int × Nat :=
  if has flags 0x0001 then
    let (seconds, pos) := readLe data 4 pos
    (seconds.map Int.ofNat, pos)
  else
    let (ticks, pos) := readLe data 8 pos
    (ticks.map Time.filetimeToUnix, pos)

def readCountedStr (data : List UInt8) (pos : Nat) : Option Text × Nat :=
  let (count, pos) := readVint data pos
  match count with
  | none => (none, pos)
  | some n =>
      if maxName < n then (none, pos)
      else
        let (name, pos) := readBytes data n pos
        (name.map utf8Name, pos)

def Extra.crypt (extra : Extra) (data : List UInt8) : Extra :=
  let (_, pos) := readVint data 0
  let (flags, pos) := readVint data pos
  { extra with encrypted := true, kdfCount := (readLe data 1 pos).1, tweakedChecksums := has (flags.getD 0) 0x0002 }

def Extra.hash (extra : Extra) (data : List UInt8) : Extra :=
  let (kind, pos) := readVint data 0
  if kind = some 0 then
    match (readBytes data 32 pos).1 with
    | some h => { extra with blake2 := some (hexEncode h) }
    | none => extra
  else extra

def Extra.times (extra : Extra) (data : List UInt8) : Extra :=
  let (flags, pos) := readVint data 0
  let flags := flags.getD 0
  let (mtime, pos) := if has flags 0x0002 then unixTime flags data pos else (extra.mtime, pos)
  let (ctime, pos) := if has flags 0x0004 then unixTime flags data pos else (extra.ctime, pos)
  let (atime, _) := if has flags 0x0008 then unixTime flags data pos else (extra.atime, pos)
  { extra with mtime := mtime, ctime := ctime, atime := atime }

def Extra.version (extra : Extra) (data : List UInt8) : Extra :=
  let (_, pos) := readVint data 0
  { extra with fileVersion := (readVint data pos).1 }

def Extra.redirection (extra : Extra) (data : List UInt8) : Extra :=
  let (kind, pos) := readVint data 0
  let (flags, pos) := readVint data pos
  let (nlen, pos) := readVint data pos
  let name := nlen.bind fun nlen => (readBytes data (min nlen maxName) pos).1
  { extra with
    redirType := some (Redirect.ofType (kind.getD 0))
    linkIsDir := has (flags.getD 0) 0x0001
    linkname := (name.map utf8Name).or extra.linkname }

def Extra.owner (extra : Extra) (data : List UInt8) : Extra :=
  let (flags, pos) := readVint data 0
  let flags := flags.getD 0
  let (uname, pos) := if has flags 0x0001 then readCountedStr data pos else (extra.uname, pos)
  let (gname, pos) := if has flags 0x0002 then readCountedStr data pos else (extra.gname, pos)
  let (uid, pos) := if has flags 0x0004 then readVint data pos else (extra.uid, pos)
  let (gid, _) := if has flags 0x0008 then readVint data pos else (extra.gid, pos)
  { extra with uname := uname, gname := gname, uid := uid, gid := gid }

def Extra.record (extra : Extra) (typ : Nat) (data : List UInt8) : Extra :=
  if typ = 0x01 then extra.crypt data
  else if typ = 0x02 then extra.hash data
  else if typ = 0x03 then extra.times data
  else if typ = 0x04 then extra.version data
  else if typ = 0x05 then extra.redirection data
  else if typ = 0x06 then extra.owner data
  else if typ = 0x07 then { extra with serviceData := some data }
  else { extra with unknown := extra.unknown + 1 }

-- The loop of `parse_extra`; every turn moves on by at least one octet.
def parseExtraFrom (bytes : List UInt8) : Nat → Nat → Extra → Extra
  | 0, _, extra => extra
  | fuel + 1, pos, extra =>
      if remaining bytes pos = 0 then extra
      else
        let (size, start) := readVint bytes pos
        match size with
        | none => extra
        | some size =>
            if 2 ^ 64 ≤ start + size then extra
            else if bytes.length < start + size then { extra with unknown := extra.unknown + 1 }
            else
              let (typ, pos) := readVint bytes start
              match typ with
              | none => extra
              | some typ =>
                  let extra := { extra with types := extra.types ++ [typ] }
                  match Bytes.get bytes pos (start + size) with
                  | none => { extra with unknown := extra.unknown + 1 }
                  | some data => parseExtraFrom bytes fuel (start + size) (extra.record typ data)

def parseExtra (bytes : List UInt8) (extra : Extra) : Extra :=
  parseExtraFrom bytes (bytes.length + 1) 0 { extra with bytes := min (extra.bytes + bytes.length) (2 ^ 64 - 1) }

open Filefacts.Rar (Text has maxBlocks maxName maxArchiveMembers maxPathBytes attrDir readLe remaining utf8Name utf8Len textOf)

def maxHeader : Nat := 2 * 1024 * 1024

def hflExtra : Nat := 0x0001
def hflData : Nat := 0x0002
def hflSkipUnknown : Nat := 0x0004
def hflSplitBefore : Nat := 0x0008
def hflSplitAfter : Nat := 0x0010
def hflChild : Nat := 0x0020
def mhdVolume : Nat := 0x0001
def mhdVolnum : Nat := 0x0002
def mhdSolid : Nat := 0x0004
def mhdRecovery : Nat := 0x0008
def mhdLocked : Nat := 0x0010
def lhflDirectory : Nat := 0x0001
def lhflUtime : Nat := 0x0002
def lhflCrc32 : Nat := 0x0004
def lhflUnpunknown : Nat := 0x0008
def head5Main : Nat := 1
def head5File : Nat := 2
def head5Service : Nat := 3
def head5Crypt : Nat := 4
def head5End : Nat := 5
def attrReadonly : Nat := 0x1
def attrHidden : Nat := 0x2
def attrSystem : Nat := 0x4

inductive EntryType where
  | regular
  | directory
  | symlink
  | ntfsStream
  deriving DecidableEq, Repr

structure Member where
  path : Text
  sizeBytes : Nat
  packed : Option Nat
  entryType : EntryType
  mtime : Option Int
  ctime : Option Int
  atime : Option Int
  encrypted : Bool
  method : Nat
  dictSize : Nat
  host : Nat
  crc32 : Option Nat
  blake2 : Option String
  splitBefore : Bool
  splitAfter : Bool
  solid : Bool
  hidden : Bool
  system : Bool
  readOnly : Bool
  linkname : Option Text
  redirType : Option Redirect
  fileVersion : Option Nat
  extraTypes : List Nat
  headerOff : Nat
  dataOff : Option Nat
  modeOctal : Option Nat
  uid : Option Nat
  gid : Option Nat
  uname : Option Text
  gname : Option Text
  windowsAttrs : Option Nat
  kdfCount : Option Nat
  tweakedChecksums : Bool
  unpackVersion : Nat
  sizeUnknown : Bool
  deriving DecidableEq, Repr

structure Archive where
  volume : Bool
  volumeNumber : Option Nat
  solid : Bool
  recovery : Bool
  locked : Bool
  headersEncrypted : Bool
  kdfCount : Option Nat
  cryptVersion : Option Nat
  originalName : Option Text
  createdUnix : Option Int
  comment : Option Text
  commentPacked : Bool
  locatorQo : Option Nat
  locatorRr : Option Nat
  members : List Member
  services : List Text
  streams : List Rar.Stream
  extraTypes : List Nat
  limits : List (String × String)
  membersCapped : Bool
  endPresent : Bool
  notLastVolume : Bool
  headerCrcMismatch : Nat
  unknownHeader : Nat
  unknownExtra : Nat
  blake2 : Nat
  acl : Nat
  fileVersion : Nat
  split : Nat
  child : Nat
  mappedUnix : Nat
  v1Comp : Nat
  unpackRange : Option (Nat × Nat)
  quickOpen : Bool
  quickOpenSize : Nat
  recoverySize : Nat
  extraFieldSize : Nat
  endOffset : Nat
  lastFile : Option Text
  streamPathBytes : Nat
  streamsCapped : Bool
  deriving DecidableEq, Repr

def Archive.empty (endOffset : Nat) : Archive :=
  ⟨false, none, false, false, false, false, none, none, none, none, none, false, none, none, [], [], [], [], [], false, false, false,
    0, 0, 0, 0, 0, 0, 0, 0, 0, 0, none, false, 0, 0, 0, endOffset, none, 0, false⟩

def Archive.limit (ar : Archive) (stage reason : String) : Archive := { ar with limits := ar.limits ++ [(stage, reason)] }

def Archive.main (ar : Archive) (typ : Nat) (data : List UInt8) : Archive :=
  if typ = 0x01 then
    let (flags, pos) := readVint data 0
    let flags := flags.getD 0
    let (qo, pos) := if has flags 0x0001 then readVint data pos else (ar.locatorQo, pos)
    let (rr, _) := if has flags 0x0002 then readVint data pos else (ar.locatorRr, pos)
    { ar with locatorQo := qo, locatorRr := rr }
  else if typ = 0x02 then
    let (flags, pos) := readVint data 0
    let flags := flags.getD 0
    let (nlen, pos) := if has flags 0x0001 then readVint data pos else (none, pos)
    let (name, pos) := nlen.elim (none, pos) fun nlen => readBytes data (min nlen maxName) pos
    let named := (name.filter fun name => decide (name.head? ≠ some 0)).map utf8Name
    let created :=
      if has flags 0x0002 then
        if has flags 0x0004 then (readLe data 4 pos).1.map Int.ofNat else (readLe data 8 pos).1.map Time.filetimeToUnix
      else ar.createdUnix
    { ar with originalName := named.or ar.originalName, createdUnix := created }
  else { ar with unknownExtra := ar.unknownExtra + 1 }

-- The loop of `parse_main_extra`; every turn moves on by at least one octet.
def parseMainExtraFrom (bytes : List UInt8) : Nat → Nat → Archive → Archive
  | 0, _, ar => ar
  | fuel + 1, pos, ar =>
      if remaining bytes pos = 0 then ar
      else
        let (size, start) := readVint bytes pos
        match size with
        | none => ar
        | some size =>
            if bytes.length < start + size then ar
            else
              let (typ, pos) := readVint bytes start
              match typ with
              | none => ar
              | some typ =>
                  let data := (Bytes.get bytes (min pos (start + size)) (start + size)).getD []
                  let ar := { ar with
                    extraFieldSize := min (ar.extraFieldSize + size) (2 ^ 64 - 1)
                    extraTypes := ar.extraTypes.insert typ }
                  parseMainExtraFrom bytes fuel (start + size) (ar.main typ data)

def parseMainExtra (bytes : List UInt8) (ar : Archive) : Archive := parseMainExtraFrom bytes (bytes.length + 1) 0 ar

def noteUnpackVersion (ar : Archive) (v : Nat) : Archive :=
  { ar with unpackRange := some (ar.unpackRange.elim (v, v) fun range => (min range.1 v, max range.2 v)) }

def skipData (bytes : List UInt8) (pos : Nat) (ar : Archive) (size : Nat) : Nat × Archive :=
  let left := remaining bytes pos
  (pos + min size left,
    if left < size then ar.limit "data" s!"packed data runs {size - left} bytes past end of file" else ar)

-- The shift of a `u64` that drops the high bits never meets one here.
def dictSize (comp : Nat) : Nat :=
  let size := 128 * 1024 * 2 ^ (comp / 2 ^ 10 % 32)
  if 1 ≤ comp % 64 then size + size / 32 * (comp / 2 ^ 15 % 32) else size

def applyAttrs (member : Member) (attrs : Nat) (unix : Bool) : Member :=
  if unix then { member with modeOctal := some attrs }
  else
    { member with
      windowsAttrs := some attrs
      readOnly := has attrs attrReadonly
      hidden := has attrs attrHidden
      system := has attrs attrSystem
      entryType := if has attrs attrDir then .directory else member.entryType }

def pushMember (ar : Archive) (member : Member) : Archive :=
  if maxArchiveMembers ≤ ar.members.length then
    if ar.membersCapped then ar
    else { ar with membersCapped := true }.limit "member-cap" s!"stopped at {maxArchiveMembers} members"
  else
    { ar with
      split := if member.splitBefore || member.splitAfter then ar.split + 1 else ar.split
      members := ar.members ++ [member] }

def pushStream (ar : Archive) (member : Member) (serviceData : Option (List UInt8)) : Archive :=
  let stream := (((serviceData.map utf8Name).filter fun name => decide (name ≠ [])).getD (textOf "$DATA")).dropWhile (· = 58)
  let host := ar.lastFile.getD []
  let cost := 2 * (utf8Len host + utf8Len stream) + 1
  if ar.streamsCapped || maxPathBytes - ar.streamPathBytes < cost then
    if ar.streamsCapped then ar
    else { ar with streamsCapped := true }.limit "stream-path-budget" s!"NTFS stream paths exceeded {maxPathBytes} bytes"
  else
    let path := if host = [] then textOf ":" ++ stream else host ++ textOf ":" ++ stream
    let ar := { ar with
      streamPathBytes := ar.streamPathBytes + cost
      streams := ar.streams ++ [⟨host, stream, member.sizeBytes, member.encrypted⟩] }
    pushMember ar { member with path := path, entryType := .ntfsStream }

def Member.extended (member : Member) (extra : Extra) : Member :=
  let linked := extra.linkname.isSome && extra.redirType.any Redirect.isLink
  { member with
    encrypted := member.encrypted || extra.encrypted
    kdfCount := if extra.encrypted then extra.kdfCount else member.kdfCount
    tweakedChecksums := if extra.encrypted then extra.tweakedChecksums else member.tweakedChecksums
    mtime := extra.mtime.or member.mtime
    ctime := extra.ctime
    atime := extra.atime
    blake2 := extra.blake2
    fileVersion := extra.fileVersion.or member.fileVersion
    linkname := extra.linkname.or member.linkname
    redirType := if extra.linkname.isSome then extra.redirType else member.redirType
    entryType := if linked then if extra.linkIsDir then .directory else .symlink else member.entryType
    uname := extra.uname
    gname := extra.gname
    uid := extra.uid
    gid := extra.gid
    extraTypes := extra.types }

def finishFile (ar : Archive) (member : Member) (extra : Extra) (service : Bool) : Archive :=
  let member := member.extended extra
  let ar := { ar with
    unknownExtra := min (ar.unknownExtra + extra.unknown) (2 ^ 64 - 1)
    extraFieldSize := min (ar.extraFieldSize + extra.bytes) (2 ^ 64 - 1)
    extraTypes := extra.types.foldl (fun types typ => types.insert typ) ar.extraTypes
    blake2 := if extra.blake2.isSome then ar.blake2 + 1 else ar.blake2
    fileVersion := if extra.fileVersion.isSome then ar.fileVersion + 1 else ar.fileVersion }
  if service then
    let ar := { ar with services := ar.services ++ [member.path] }
    if member.path = textOf "CMT" then { ar with commentPacked := member.method ≠ 0 }
    else if member.path = textOf "QO" then
      { ar with quickOpen := true, quickOpenSize := member.packed.getD member.sizeBytes }
    else if member.path = textOf "RR" then { ar with recovery := true, recoverySize := member.packed.getD member.sizeBytes }
    else if member.path = textOf "ACL" then { ar with acl := ar.acl + 1 }
    else if member.path = textOf "STM" then pushStream ar member extra.serviceData
    else ar
  else
    let ar := if member.path.any (· = 0xFFFE) then { ar with mappedUnix := ar.mappedUnix + 1 } else ar
    pushMember { ar with lastFile := some member.path } member

structure Frame where
  storedCrc : Nat
  sizeAt : Nat
  typeAt : Nat
  restEnd : Nat
  deriving DecidableEq, Repr

def frame (bytes : List UInt8) (start : Nat) : Except String Frame :=
  let (storedCrc, sizeAt) := readLe bytes 4 start
  match storedCrc with
  | none => .error "truncated CRC"
  | some storedCrc =>
      let (headerSize, typeAt) := readVint bytes sizeAt
      match headerSize with
      | none => .error "truncated header size"
      | some headerSize =>
          if headerSize = 0 ∨ maxHeader < headerSize then .error "header size out of range"
          else if 2 ^ 64 ≤ typeAt + headerSize then .error "header size overflow"
          else if bytes.length < typeAt + headerSize then .error "header overruns file"
          else .ok ⟨storedCrc, sizeAt, typeAt, typeAt + headerSize⟩

structure Head where
  htype : Nat
  hflags : Nat
  extraSize : Nat
  dataSize : Option Nat
  bodyAt : Nat
  deriving DecidableEq, Repr

def head (bytes : List UInt8) (typeAt : Nat) : Option Head :=
  let (htype, pos) := readVint bytes typeAt
  htype.bind fun htype =>
    let (hflags, pos) := readVint bytes pos
    hflags.map fun hflags =>
      let (extraSize, pos) := if has hflags hflExtra then readVint bytes pos else (some 0, pos)
      let (dataSize, pos) := if has hflags hflData then readVint bytes pos else (none, pos)
      ⟨htype, hflags, extraSize.getD 0, dataSize, pos⟩

inductive Walked where
  | next (pos : Nat) (ar : Archive)
  | done (ar : Archive)
  deriving DecidableEq, Repr

def cryptBlock (bytes : List UInt8) (head : Head) (restEnd : Nat) (ar : Archive) : Walked :=
  let (version, pos) := readVint bytes head.bodyAt
  let (_, pos) := readVint bytes pos
  let ar := { ar with headersEncrypted := true, cryptVersion := version, kdfCount := (readLe bytes 1 pos).1 }
  .done { ar.limit "headers-encrypted" "remaining headers are AES-256" with endOffset := restEnd }

def stepOver (bytes : List UInt8) (head : Head) (restEnd : Nat) (ar : Archive) : Walked :=
  let (pos, ar) := head.dataSize.elim (restEnd, ar) (skipData bytes restEnd ar)
  .next pos { ar with endOffset := pos }

def mainBlock (bytes : List UInt8) (head : Head) (restEnd : Nat) (ar : Archive) : Walked :=
  let (aflags, pos) := readVint bytes head.bodyAt
  let aflags := aflags.getD 0
  let (volumeNumber, pos) := if has aflags mhdVolnum then readVint bytes pos else (ar.volumeNumber, pos)
  let ar := { ar with
    volume := has aflags mhdVolume
    solid := has aflags mhdSolid
    recovery := has aflags mhdRecovery
    locked := has aflags mhdLocked
    volumeNumber := volumeNumber }
  let extraAt := restEnd - head.extraSize
  let ar :=
    if 0 < head.extraSize ∧ pos ≤ extraAt then
      (Bytes.get bytes extraAt restEnd).elim ar fun extra => parseMainExtra extra ar
    else ar
  stepOver bytes head restEnd ar

structure FileHead where
  fileFlags : Nat
  unpacked : Nat
  attrs : Nat
  mtime : Option Nat
  crc : Option Nat
  comp : Nat
  host : Nat
  nlen : Nat
  nameAt : Nat
  deriving DecidableEq, Repr

def fileHead (bytes : List UInt8) (pos : Nat) : FileHead :=
  let (fileFlags, pos) := readVint bytes pos
  let fileFlags := fileFlags.getD 0
  let (unpacked, pos) := readVint bytes pos
  let (attrs, pos) := readVint bytes pos
  let (mtime, pos) := if has fileFlags lhflUtime then readLe bytes 4 pos else (none, pos)
  let (crc, pos) := if has fileFlags lhflCrc32 then readLe bytes 4 pos else (none, pos)
  let (comp, pos) := readVint bytes pos
  let (host, pos) := readVint bytes pos
  let (nlen, pos) := readVint bytes pos
  ⟨fileFlags, unpacked.getD 0, attrs.getD 0 % 2 ^ 32, mtime, crc, comp.getD 0, host.getD 0, nlen.getD 0, pos⟩

def fileMember (start restEnd : Nat) (head : Head) (file : FileHead) (name : Text) : Member :=
  let sizeUnknown := has file.fileFlags lhflUnpunknown
  { path := name
    sizeBytes := if sizeUnknown then 0 else file.unpacked
    packed := head.dataSize
    entryType := if has file.fileFlags lhflDirectory then .directory else .regular
    mtime := file.mtime.map Int.ofNat
    ctime := none
    atime := none
    encrypted := false
    method := file.comp / 2 ^ 7 % 8
    dictSize := dictSize file.comp
    host := file.host
    crc32 := file.crc
    blake2 := none
    splitBefore := has head.hflags hflSplitBefore
    splitAfter := has head.hflags hflSplitAfter
    solid := has file.comp 0x40
    hidden := false
    system := false
    readOnly := false
    linkname := none
    redirType := none
    fileVersion := none
    extraTypes := []
    headerOff := start
    dataOff := head.dataSize.map fun _ => restEnd
    modeOctal := none
    uid := none
    gid := none
    uname := none
    gname := none
    windowsAttrs := none
    kdfCount := none
    tweakedChecksums := false
    unpackVersion := file.comp % 64
    sizeUnknown := sizeUnknown }

def fileBlock (bytes : List UInt8) (start : Nat) (head : Head) (restEnd : Nat) (service : Bool) (ar : Archive) : Walked :=
  let file := fileHead bytes head.bodyAt
  if maxName < file.nlen then
    let (pos, ar) := head.dataSize.elim (restEnd, ar.limit "name" "name longer than cap")
      (skipData bytes restEnd (ar.limit "name" "name longer than cap"))
    .next pos ar
  else
    let name := utf8Name ((readBytes bytes file.nlen file.nameAt).1.getD [])
    let extraAt := restEnd - head.extraSize
    let extra :=
      if 0 < head.extraSize ∧ extraAt < restEnd then
        (Bytes.get bytes extraAt restEnd).elim Extra.empty fun record => parseExtra record Extra.empty
      else Extra.empty
    let ar := if 1 ≤ file.comp % 64 then { ar with v1Comp := ar.v1Comp + 1 } else ar
    let ar := noteUnpackVersion ar (file.comp % 64)
    let member := applyAttrs (fileMember start restEnd head file name) file.attrs (decide (file.host = 1))
    match head.dataSize with
    | none => .next restEnd (finishFile ar member extra service)
    | some size =>
        let body := if member.path = textOf "CMT" ∧ member.method = 0 then Bytes.get bytes restEnd (restEnd + size) else none
        match body with
        | some body => .next (restEnd + size) (finishFile { ar with comment := some (utf8Name body) } member extra service)
        | none =>
            let (pos, ar) := skipData bytes restEnd ar size
            .next pos (finishFile ar member extra service)

def endBlock (bytes : List UInt8) (head : Head) (restEnd : Nat) (ar : Archive) : Walked :=
  let (eflags, _) := readVint bytes head.bodyAt
  let skipped := head.dataSize.bind fun size => (Bytes.get bytes restEnd (restEnd + size)).map fun _ => restEnd + size
  .done { ar with
    endPresent := true
    notLastVolume := has (eflags.getD 0) 0x0001
    endOffset := skipped.getD restEnd }

def otherBlock (bytes : List UInt8) (head : Head) (restEnd : Nat) (ar : Archive) : Walked :=
  let ar := { ar with unknownHeader := ar.unknownHeader + 1 }
  if ¬ has head.hflags hflSkipUnknown ∧ head.extraSize = 0 ∧ head.dataSize = none then
    .done { ar.limit "unknown-header" s!"type {head.htype}" with endOffset := restEnd }
  else stepOver bytes head restEnd ar

def typedBlock (bytes : List UInt8) (start : Nat) (head : Head) (restEnd : Nat) (ar : Archive) : Walked :=
  if head.htype = head5Crypt then cryptBlock bytes head restEnd ar
  else if head.htype = head5Main then mainBlock bytes head restEnd ar
  else if head.htype = head5File ∨ head.htype = head5Service then
    fileBlock bytes start head restEnd (head.htype = head5Service) ar
  else if head.htype = head5End then endBlock bytes head restEnd ar
  else otherBlock bytes head restEnd ar

-- The checksum is the crc32fast crate's.
variable (crc32 : List UInt8 → Nat)

def walkBlock (bytes : List UInt8) (start : Nat) (ar : Archive) : Walked :=
  match frame bytes start with
  | .error reason => .done (ar.limit "header" reason)
  | .ok frame =>
      let crcOf := (Bytes.get bytes frame.sizeAt frame.restEnd).getD []
      let ar := if crc32 crcOf ≠ frame.storedCrc then { ar with headerCrcMismatch := ar.headerCrcMismatch + 1 } else ar
      match head bytes frame.typeAt with
      | none => .done ar
      | some head =>
          let ar := if has head.hflags hflChild then { ar with child := ar.child + 1 } else ar
          typedBlock bytes start head frame.restEnd ar

-- The loop, with the offsets at which it started to read a header.
def walkFrom (bytes : List UInt8) : Nat → Nat → Archive → List Nat × Archive
  | 0, _, ar => ([], ar)
  | blocks + 1, pos, ar =>
      if remaining bytes pos = 0 then ([], ar)
      else
        match walkBlock crc32 bytes pos ar with
        | .done ar => ([pos], ar)
        | .next after ar =>
            let (starts, ar) := walkFrom bytes blocks after ar
            (pos :: starts, ar)

def walkRar5 (bytes : List UInt8) (start : Nat) (ar : Archive) : Archive := (walkFrom crc32 bytes maxBlocks start ar).2

def headerStarts (bytes : List UInt8) (start : Nat) (ar : Archive) : List Nat := (walkFrom crc32 bytes maxBlocks start ar).1

end Filefacts.Rar5
