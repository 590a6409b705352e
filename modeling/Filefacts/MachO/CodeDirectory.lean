import Filefacts.Bytes

set_option autoImplicit false

namespace Filefacts.Macho

open Bytes (u32be saturatingAdd)

def csmagicEmbeddedSignature : Nat := 0xfade0cc0

def csmagicDetachedSignature : Nat := 0xfade0cc1

def csmagicCodedirectory : Nat := 0xfade0c02

def csmagicRequirements : Nat := 0xfade0c01

def csmagicEmbeddedEntitlements : Nat := 0xfade7171

def csmagicDerEntitlements : Nat := 0xfade7172

def csmagicBlobwrapper : Nat := 0xfade0b01

def csslotCodedirectory : Nat := 0

def csslotRequirements : Nat := 2

def csslotEntitlements : Nat := 5

def csslotDerEntitlements : Nat := 7

def csslotSignatureslot : Nat := 0x10000

def csslotAlternateCodedirectories : Nat := 0x1000

def csslotAlternateCodedirectoryMax : Nat := 5

def maxBlobIndex : Nat := 64

def honouredCodeDirectorySlot (slot : Nat) : Bool :=
  slot == csslotCodedirectory ||
    (csslotAlternateCodedirectories ≤ slot && slot < csslotAlternateCodedirectories + csslotAlternateCodedirectoryMax)

structure BlobEntry where
  slot : Nat
  offset : Nat
  magic : Nat
  blob : List UInt8
deriving DecidableEq, Repr

def blobAt (sig : List UInt8) (totalLen offset : Nat) : Option (Nat × List UInt8) :=
  if saturatingAdd offset 8 > totalLen then none
  else do
    let magic ← u32be sig offset
    let blobLen ← u32be sig (offset + 4)
    if blobLen < 8 ∨ saturatingAdd offset blobLen > totalLen then none
    else
      let blob ← Bytes.get sig offset (offset + blobLen)
      some (magic, blob)

def readEntry (sig : List UInt8) (totalLen : Nat) (entries : List BlobEntry) (i : Nat) : List BlobEntry :=
  match u32be sig (12 + i * 8), u32be sig (12 + i * 8 + 4) with
  | some slot, some offset =>
      if entries.any fun entry => entry.slot == slot || entry.offset == offset then entries
      else
        match blobAt sig totalLen offset with
        | none => entries
        | some (magic, blob) => entries ++ [{ slot, offset, magic, blob }]
  | _, _ => entries

-- Only the first entry of a slot type or of an offset counts, and at most
-- `maxBlobIndex` entries are read.
def superBlobEntries (sig : List UInt8) (totalLen : Nat) : Option (List BlobEntry) := do
  let count ← u32be sig 8
  let table ← Bytes.checkedMul count 8
  let indexEnd ← Bytes.checkedAdd table 12
  if indexEnd > totalLen then none
  else some ((List.range (min count maxBlobIndex)).foldl (readEntry sig totalLen) [])

open Bytes (u8 u32be u64be checkedAdd checkedSub checkedMul saturatingMul divCeil)

structure Hashes where
  sha1 : List UInt8 → List UInt8
  sha256 : List UInt8 → List UInt8
  sha384 : List UInt8 → List UInt8

def csHashtypeSha1 : Nat := 1

def csHashtypeSha256 : Nat := 2

def csHashtypeSha256Truncated : Nat := 3

def csHashtypeSha384 : Nat := 4

-- The digest of the data under a hash type, and the slot length it goes with.
def slotDigest (hashes : Hashes) (hashType : Nat) (data : List UInt8) : Option (List UInt8 × Nat) :=
  if hashType = csHashtypeSha1 then some (hashes.sha1 data, 20)
  else if hashType = csHashtypeSha256 then some (hashes.sha256 data, 32)
  else if hashType = csHashtypeSha256Truncated then some (hashes.sha256 data, 20)
  else if hashType = csHashtypeSha384 then some (hashes.sha384 data, 48)
  else none

structure CdIdentity where
  identifier : Option String
  team : Option String
  flags : Nat
  platform : Nat
  execSegment : Option (List UInt8)
deriving DecidableEq, Repr

structure CdSlots where
  blob : List UInt8
  hashOffset : Nat
  nSpecialSlots : Nat
  nCodeSlots : Nat
  codeLimit : Nat
  hashSize : Nat
  hashType : Nat
  pageSizeLog2 : Nat
deriving DecidableEq, Repr

def readCstr (bytes : List UInt8) (offset : Nat) : Option String :=
  if offset ≥ bytes.length then none
  else String.fromUTF8? ⟨((bytes.drop offset).takeWhile (· ≠ 0)).toArray⟩

-- Scatter vectors split the image into ranges that no page walk follows.
def scatters (blob : List UInt8) (version : Nat) : Bool :=
  decide (version ≥ 0x20100) && (u32be blob 0x2c).any fun scatter => scatter != 0

-- The 64-bit limit replaces the 32-bit one when it is set.
def codeLimitOf (blob : List UInt8) (version limit32 : Nat) : Nat :=
  if version ≥ 0x20300 then
    match u64be blob 0x38 with
    | some limit64 => if limit64 ≠ 0 then limit64 else limit32
    | none => limit32
  else limit32

def CdSlots.read (blob : List UInt8) : Option CdSlots := do
  let version ← u32be blob 0x08
  if scatters blob version then none
  else
    let limit32 ← u32be blob 0x20
    let hashSize ← u8 blob 0x24
    let hashType ← u8 blob 0x25
    let _platform ← u8 blob 0x26
    let pageSizeLog2 ← u8 blob 0x27
    let hashOffset ← u32be blob 0x10
    let nSpecialSlots ← u32be blob 0x18
    let nCodeSlots ← u32be blob 0x1c
    some { blob, hashOffset, nSpecialSlots, nCodeSlots, codeLimit := codeLimitOf blob version limit32, hashSize, hashType, pageSizeLog2 }

-- The stored hash in a slot: code slots count from 0 up, special slots from
-- -1 down.
def CdSlots.slot (cd : CdSlots) (index : Int) : Option (List UInt8) := do
  let distance ← checkedMul index.natAbs cd.hashSize
  let start ← if index ≥ 0 then checkedAdd cd.hashOffset distance else checkedSub cd.hashOffset distance
  let stop ← checkedAdd start cd.hashSize
  Bytes.get cd.blob start stop

def CdSlots.identity (cd : CdSlots) : Option CdIdentity := do
  let version ← u32be cd.blob 0x08
  let team := ((if version ≥ 0x20200 then u32be cd.blob 0x30 else none).filter (· ≠ 0)).bind (readCstr cd.blob)
  let identOffset ← u32be cd.blob 0x14
  let flags ← u32be cd.blob 0x0c
  let platform ← u8 cd.blob 0x26
  let execSegment := if version ≥ 0x20400 then Bytes.get cd.blob 0x40 0x58 else none
  some { identifier := readCstr cd.blob identOffset, team, flags, platform, execSegment }

structure CdCheck where
  pagesOk : Bool
  mismatchedPages : Nat
  firstMismatch : Option Nat
  specialOk : Option Bool
deriving DecidableEq, Repr

abbrev PageDigests := List ((Nat × Nat × Nat) × List (List UInt8))

-- No page size means one page for all of the code.
def pageSizeOf (log2 : Nat) : Option (Option Nat) :=
  if log2 = 0 then some none else if log2 < 32 then some (some (1 <<< log2)) else none

def expectedSlots (pageSize : Option Nat) (codeLimit : Nat) : Nat :=
  match pageSize with
  | none => if codeLimit > 0 then 1 else 0
  | some page => divCeil codeLimit page

def chunks (page : Nat) (code : List UInt8) : List (List UInt8) :=
  (List.range (divCeil code.length page)).map fun i => (code.drop (i * page)).take page

def pagesOf (pageSize : Option Nat) (code : List UInt8) : List (List UInt8) :=
  chunks (max (pageSize.getD code.length) 1) code

def computeDigests (hashes : Hashes) (image : List UInt8) (hashType codeLimit : Nat) (pageSize : Option Nat) : Option (List (List UInt8)) :=
  (Bytes.get image 0 codeLimit).bind fun code =>
    (pagesOf pageSize code).mapM fun page => (slotDigest hashes hashType page).map Prod.fst

def pageDigests (hashes : Hashes) (cd : CdSlots) (pageSize : Option Nat) (image : List UInt8) (memo : PageDigests) :
    Option (List (List UInt8)) × PageDigests :=
  let key := (cd.hashType, cd.pageSizeLog2, cd.codeLimit)
  match memo.find? fun known => known.1 == key with
  | some known => (some known.2, memo)
  | none =>
      match computeDigests hashes image cd.hashType cd.codeLimit pageSize with
      | none => (none, memo)
      | some pages => (some pages, memo ++ [(key, pages)])

def CdCheck.mismatch (check : CdCheck) (offset : Nat) : CdCheck :=
  { check with
    pagesOk := false
    mismatchedPages := check.mismatchedPages + 1
    firstMismatch := check.firstMismatch.or (some offset) }

def comparePages (cd : CdSlots) (page : Nat) : Nat → List (List UInt8) → CdCheck → Option CdCheck
  | _, [], check => some check
  | i, digest :: rest, check =>
      match cd.slot i with
      | none => none
      | some stored =>
          if Bytes.get digest 0 cd.hashSize = some stored then comparePages cd page (i + 1) rest check
          else comparePages cd page (i + 1) rest (check.mismatch (saturatingMul i page))

def bindsBlob (hashes : Hashes) (cd : CdSlots) (entry : BlobEntry) : Option Bool :=
  if entry.slot > cd.nSpecialSlots then some false
  else
    (slotDigest hashes cd.hashType entry.blob).map fun (digest, _) =>
      (cd.slot (-(entry.slot : Int))).any fun stored => decide (Bytes.get digest 0 cd.hashSize = some stored)

def isSpecial (entry : BlobEntry) : Bool :=
  !(entry.slot == csslotCodedirectory || decide (entry.slot ≥ csslotAlternateCodedirectories))

def checkSpecial (hashes : Hashes) (cd : CdSlots) : List BlobEntry → CdCheck → Option CdCheck
  | [], check => some check
  | entry :: rest, check =>
      if isSpecial entry then
        match bindsBlob hashes cd entry with
        | none => none
        | some bound => checkSpecial hashes cd rest { check with specialOk := some (check.specialOk.getD true && bound) }
      else checkSpecial hashes cd rest check

-- The hash slots all lie inside the blob, and the code slots cover exactly the
-- code limit.
def covers (cd : CdSlots) (pageSize : Option Nat) (image : List UInt8) : Bool :=
  decide (cd.codeLimit ≤ image.length) && cd.nCodeSlots == expectedSlots pageSize cd.codeLimit &&
    (checkedMul cd.nSpecialSlots cd.hashSize).any (fun below => decide (below ≤ cd.hashOffset)) &&
    ((checkedMul cd.nCodeSlots cd.hashSize).bind (checkedAdd · cd.hashOffset)).any fun stop => decide (stop ≤ cd.blob.length)

def checkCodeDirectory (hashes : Hashes) (cd : CdSlots) (image : List UInt8) (entries : List BlobEntry) (memo : PageDigests) :
    Option CdCheck × PageDigests :=
  match slotDigest hashes cd.hashType [] with
  | none => (none, memo)
  | some (_, digestLen) =>
      if cd.hashSize ≠ digestLen then (none, memo)
      else
        match pageSizeOf cd.pageSizeLog2 with
        | none => (none, memo)
        | some pageSize =>
            let covered := covers cd pageSize image
            let check : CdCheck := { pagesOk := covered, mismatchedPages := 0, firstMismatch := none, specialOk := none }
            if covered then
              match pageDigests hashes cd pageSize image memo with
              | (none, memo) => (none, memo)
              | (some digests, memo) =>
                  ((comparePages cd (pageSize.getD cd.codeLimit) 0 digests check).bind (checkSpecial hashes cd entries), memo)
            else (checkSpecial hashes cd entries check, memo)

structure Verdicts where
  codePagesVerified : Option Bool
  codePageMismatches : Option Nat
  codePageFirstMismatchOffset : Option Nat
  specialSlotsVerified : Option Bool
  codeDirectoriesConsistent : Option Bool
deriving DecidableEq, Repr

def noVerdicts : Verdicts :=
  { codePagesVerified := none, codePageMismatches := none, codePageFirstMismatchOffset := none, specialSlotsVerified := none,
    codeDirectoriesConsistent := none }

structure Folded where
  memo : PageDigests
  pagesOk : Bool
  special : Option Bool
  mismatch : Option (Nat × Option Nat)
deriving DecidableEq, Repr

def Folded.remember (folded : Folded) (memo : PageDigests) : Folded := { folded with memo }

def Folded.take (folded : Folded) (check : Option CdCheck) : Folded :=
  match check with
  | none => { folded with pagesOk := false }
  | some check =>
      { folded with
        pagesOk := folded.pagesOk && check.pagesOk
        mismatch := if check.mismatchedPages > 0 ∧ folded.mismatch = none then some (check.mismatchedPages, check.firstMismatch)
          else folded.mismatch
        special := match check.specialOk with
          | some ok => some (folded.special.getD true && ok)
          | none => folded.special }

def foldDirectory (hashes : Hashes) (image : List UInt8) (entries : List BlobEntry) (folded : Folded) (blob : List UInt8) : Folded :=
  match CdSlots.read blob with
  | none => folded.take none
  | some cd =>
      let (check, memo) := checkCodeDirectory hashes cd image entries folded.memo
      (folded.remember memo).take check

def codeDirectories (entries : List BlobEntry) : List BlobEntry := entries.filter fun entry => entry.magic == csmagicCodedirectory

def honouredDirectories (entries : List BlobEntry) : List BlobEntry :=
  (codeDirectories entries).filter fun entry => honouredCodeDirectorySlot entry.slot

def directoryIdentity (blob : List UInt8) : Option CdIdentity := (CdSlots.read blob).bind CdSlots.identity

def consistent (directories : List BlobEntry) (primary : Option (List UInt8)) : Bool :=
  let primary := primary.bind directoryIdentity
  primary.isSome && directories.all fun entry => directoryIdentity entry.blob == primary

def checkCodeDirectories (hashes : Hashes) (image : List UInt8) (entries : List BlobEntry) (primary : Option (List UInt8)) : Verdicts :=
  let directories := codeDirectories entries
  if directories.isEmpty then noVerdicts
  else
    let start : Folded :=
      { memo := [], pagesOk := directories.any fun entry => honouredCodeDirectorySlot entry.slot, special := none, mismatch := none }
    let folded := ((honouredDirectories entries).map BlobEntry.blob).foldl (foldDirectory hashes image entries) start
    { codePagesVerified := some folded.pagesOk
      codePageMismatches := folded.mismatch.map Prod.fst
      codePageFirstMismatchOffset := folded.mismatch.bind Prod.snd
      specialSlotsVerified := folded.special
      codeDirectoriesConsistent := if directories.length > 1 then some (consistent directories primary) else none }

end Filefacts.Macho
