import Filefacts.FileId.Identify

set_option autoImplicit false

namespace Filefacts.Cache

open Filefacts.Fileid

-- How a caller came by a `FileId`: the type has no other constructors.
inductive Origin (Path : Type) where
  | detected (path : Path) (data : List UInt8)
  | forced (fileType : FileType)

inductive Identification (Path : Type) where
  | detect
  | forced (fileType : FileType)
  | precomputed (origin : Origin Path)

structure OpenOptions (Path : Type) where
  path : Option Path
  identification : Identification Path
  cacheNamespace : Option String

structure ExtractionArgs where
  bytes : List UInt8
  fileType : FileType
  extensionMismatch : Bool
  mismatchTransition : Option (String × String)
  xorPeKey : Option RepeatingXorKey
  identifyFailed : Bool
  basename : Option String
deriving DecidableEq, Repr

def hexEncode (bytes : List UInt8) : String :=
  String.ofList (bytes.flatMap fun b => [Nat.digitChar (b.toNat / 16), Nat.digitChar (b.toNat % 16)])

def cacheKey (sha256 : List UInt8 → List UInt8) (buildFingerprint : String) (bytes : List UInt8) (variant : String) : String :=
  hexEncode (sha256 (cachePreimage buildFingerprint bytes variant))

section Opens

variable {Path : Type} (rules : Rules Path)

def Origin.fileId : Origin Path → FileId
  | .detected path data => FileId.fromPathAndBytes rules path data
  | .forced fileType => FileId.forced fileType

def OpenOptions.fileId (options : OpenOptions Path) (bytes : List UInt8) : FileId :=
  match options.identification, options.path with
  | .detect, none => FileId.fromBytes rules bytes
  | .detect, some path => FileId.fromPathAndBytes rules path bytes
  | .forced fileType, _ => FileId.forced fileType
  | .precomputed origin, _ => origin.fileId rules

def OpenOptions.basename (options : OpenOptions Path) : Option String := options.path.bind rules.fileName

def OpenOptions.variantInput (options : OpenOptions Path) (bytes : List UInt8) : VariantInput :=
  let id := options.fileId rules bytes
  ⟨options.cacheNamespace, id.fileType.label, id.extensionMismatch, id.extensionMismatchTransition, options.basename rules⟩

def OpenOptions.extractionArgs (options : OpenOptions Path) (bytes : List UInt8) : ExtractionArgs :=
  let id := options.fileId rules bytes
  ⟨bytes, id.fileType, id.extensionMismatch, id.extensionMismatchTransition, id.xorPeKey, id.source == .failed,
    options.basename rules⟩

def OpenOptions.origin (options : OpenOptions Path) (bytes : List UInt8) : Origin Path :=
  match options.identification, options.path with
  | .detect, none => .detected rules.emptyPath bytes
  | .detect, some path => .detected path bytes
  | .forced fileType, _ => .forced fileType
  | .precomputed origin, _ => origin

-- The two inputs of extraction that the variant leaves out: a key is there
-- only for detected content, and so is a failure.
def Origin.payloadKey : Origin Path → Option RepeatingXorKey
  | .detected _ data => rules.recoverRepeatingXorPe data
  | .forced _ => none

def Origin.panicked : Origin Path → Bool
  | .detected path data => rules.panics path data
  | .forced _ => false

variable (options : OpenOptions Path) (bytes : List UInt8)

theorem file_id_origin : options.fileId rules bytes = (options.origin rules bytes).fileId rules := by
  unfold OpenOptions.fileId OpenOptions.origin
  split <;> rfl

theorem origin_key (origin : Origin Path) : (origin.fileId rules).xorPeKey =
    if (origin.fileId rules).fileType = .data ∨ (origin.fileId rules).fileType = .gif then origin.payloadKey rules else none := by
  cases origin with
  | detected path data => exact from_path_and_bytes_key rules path data
  | forced fileType =>
      simp only [Origin.fileId, Origin.payloadKey, FileId.forced]
      exact (ite_self none).symm

theorem origin_failed (origin : Origin Path) : ((origin.fileId rules).source == .failed) = origin.panicked rules := by
  rw [Bool.eq_iff_iff, beq_iff_eq]
  cases origin with
  | detected path data => exact from_path_and_bytes_failed rules path data
  | forced fileType => simp [Origin.fileId, Origin.panicked, FileId.forced]

theorem origin_panicked (origin : Origin Path) (panicked : origin.panicked rules = true) :
    (origin.fileId rules).fileType = .unknown := by
  cases origin with
  | detected path data => exact from_path_and_bytes_panicked rules path data panicked
  | forced fileType => simp [Origin.panicked] at panicked

theorem variant_input_clean : (options.variantInput rules bytes).Clean := by
  refine ⟨label_clean _, ?_⟩
  intro content ext pair
  simp only [OpenOptions.variantInput, FileId.extensionMismatchTransition] at pair
  split at pair
  · obtain ⟨rfl, rfl⟩ := Prod.mk.inj (Option.some.inj pair)
    refine ⟨group_label_clean _, ?_⟩
    cases (options.fileId rules bytes).mismatchExtType with
    | none => exact ⟨by decide, by decide⟩
    | some fileType => exact group_label_clean _
  · simp at pair

theorem hex_encode_injective (others : List UInt8) (same : hexEncode bytes = hexEncode others) : bytes = others := by
  have pairs : Delimited.SelfDelimiting fun b : UInt8 => [Nat.digitChar (b.toNat / 16), Nat.digitChar (b.toNat % 16)] := by
    intro a b after after' same
    have boundA := a.toNat_lt
    have boundB := b.toNat_lt
    simp only [List.cons_append, List.nil_append, List.cons.injEq] at same
    obtain ⟨high, low, rest⟩ := same
    have quotient := digit_char_unique _ (by omega) _ (by omega) high
    have remainder := digit_char_unique _ (by omega) _ (by omega) low
    exact ⟨UInt8.toNat_inj.mp (by omega), rest⟩
  have stopped := Delimited.self_delimiting_stopped _ pairs '\x7d' fun b =>
    ⟨_, _, rfl, (digit_char_brace _ (by have bound := b.toNat_lt; omega)).1⟩
  have shown := congrArg String.toList same
  simp only [hexEncode, String.toList_ofList] at shown
  exact (stopped bytes others [] [] (by simp only [shown])).1

theorem same_key_agrees {escaped : Char → Bool} {buildFingerprint : String} {bytes : List UInt8}
    {first second : OpenOptions Path}
    (same : cachePreimage buildFingerprint bytes (extractionCacheVariant escaped (first.variantInput rules bytes)) =
      cachePreimage buildFingerprint bytes (extractionCacheVariant escaped (second.variantInput rules bytes))) :
    (first.fileId rules bytes).fileType = (second.fileId rules bytes).fileType ∧
      (first.fileId rules bytes).extensionMismatch = (second.fileId rules bytes).extensionMismatch ∧
      (first.fileId rules bytes).extensionMismatchTransition = (second.fileId rules bytes).extensionMismatchTransition ∧
      first.basename rules = second.basename rules := by
  have split := Delimited.last_separator (0 : UInt8) (bytes ++ 0 :: asBytes buildFingerprint)
    (bytes ++ 0 :: asBytes buildFingerprint) _ _
    (as_bytes_nul _ (variant_nul escaped _ (variant_input_clean rules first bytes)))
    (as_bytes_nul _ (variant_nul escaped _ (variant_input_clean rules second bytes))) (by simpa [cachePreimage] using same)
  obtain ⟨_, label, transition, basename⟩ := variant_injective escaped _ _ (variant_input_clean rules first bytes)
    (variant_input_clean rules second bytes) (as_bytes_injective _ _ split.2)
  have sameType := label_injective _ _ label
  obtain ⟨mismatch, pair⟩ := transition_unique sameType
    rfl rfl rfl rfl transition
  exact ⟨sameType, mismatch, pair, basename⟩

-- Sharing an entry, two opens extract from equal arguments exactly when they
-- also agree on what the key leaves out: the XOR key of opaque content, which
-- a forced type hides, and a failure of identification.
theorem extraction_args_equal_iff (escaped : Char → Bool) (sha256 : List UInt8 → List UInt8) (buildFingerprint : String)
    (bytes : List UInt8) (first second : OpenOptions Path)
    (collisionFree :
      sha256 (cachePreimage buildFingerprint bytes (extractionCacheVariant escaped (first.variantInput rules bytes))) =
        sha256 (cachePreimage buildFingerprint bytes (extractionCacheVariant escaped (second.variantInput rules bytes))) →
      cachePreimage buildFingerprint bytes (extractionCacheVariant escaped (first.variantInput rules bytes)) =
        cachePreimage buildFingerprint bytes (extractionCacheVariant escaped (second.variantInput rules bytes)))
    (sameKey : cacheKey sha256 buildFingerprint bytes (extractionCacheVariant escaped (first.variantInput rules bytes)) =
      cacheKey sha256 buildFingerprint bytes (extractionCacheVariant escaped (second.variantInput rules bytes))) :
    first.extractionArgs rules bytes = second.extractionArgs rules bytes ↔
      ((first.fileId rules bytes).fileType = .data ∨ (first.fileId rules bytes).fileType = .gif →
        (first.origin rules bytes).payloadKey rules = (second.origin rules bytes).payloadKey rules) ∧
      ((first.fileId rules bytes).fileType = .unknown →
        (first.origin rules bytes).panicked rules = (second.origin rules bytes).panicked rules) := by
  obtain ⟨sameType, mismatch, transition, basename⟩ :=
    same_key_agrees rules (collisionFree (hex_encode_injective _ _ sameKey))
  have firstKey := origin_key rules (first.origin rules bytes)
  have secondKey := origin_key rules (second.origin rules bytes)
  have firstFailed := origin_failed rules (first.origin rules bytes)
  have secondFailed := origin_failed rules (second.origin rules bytes)
  rw [← file_id_origin] at firstKey secondKey firstFailed secondFailed
  simp only [OpenOptions.extractionArgs, ExtractionArgs.mk.injEq, sameType, mismatch, transition, basename, true_and, and_true,
    firstKey, secondKey, firstFailed, secondFailed]
  constructor
  · rintro ⟨keys, failed⟩
    refine ⟨?_, fun _ => failed⟩
    intro carrier
    simpa [carrier] using keys
  · rintro ⟨keys, failed⟩
    constructor
    · split
      · rename_i carrier
        exact keys carrier
      · rfl
    · by_cases unknown : (second.fileId rules bytes).fileType = .unknown
      · exact failed unknown
      · have firstRan : (first.origin rules bytes).panicked rules = false := by
          rw [Bool.eq_false_iff]
          intro panicked
          exact unknown (sameType ▸ file_id_origin rules first bytes ▸ origin_panicked rules _ panicked)
        have secondRan : (second.origin rules bytes).panicked rules = false := by
          rw [Bool.eq_false_iff]
          intro panicked
          exact unknown (file_id_origin rules second bytes ▸ origin_panicked rules _ panicked)
        rw [firstRan, secondRan]

end Opens

def encodedPe : List UInt8 :=
  ([0x4D, 0x5A] ++ List.replicate 58 0 ++ [0x40, 0, 0, 0, 0x50, 0x45, 0, 0, 0x4C, 0x01] ++ List.replicate 16 0 ++
    [0x02, 0x01] : List UInt8).map (· ^^^ 0x23)

def sampleRules : Rules String where
  emptyPath := ""
  fileName path := some path
  panics _ _ := false
  detectKnown path _ := if path = "payload.bin" then some (Detection.named .data .extension) else none
  recoverRepeatingXorPe data :=
    let plain := data.map (· ^^^ 0x23)
    if plain.take 2 = [0x4D, 0x5A] ∧ (plain.drop 0x40).take 4 = [0x50, 0x45, 0, 0] then some ⟨[0x23], 0⟩ else none
  headerlessProgram _ _ := none
  extensionMatchOf _ _ _ := .consistent
  conventionHolds _ _ _ _ := false
  detectKnownSource path data detection known := by
    by_cases named : path = "payload.bin"
    · rw [if_pos named] at known
      rw [← Option.some.inj known]
      decide
    · simp [named] at known

def sampleSha256 (_ : List UInt8) : List UInt8 :=
  [0xdd, 0xc6, 0x95, 0xa9, 0xe6, 0x46, 0xe4, 0xa2, 0x51, 0x4c, 0xe6, 0xe7, 0xd3, 0xf9, 0xfe, 0xea,
  0xdc, 0x9b, 0x97, 0xc5, 0xe1, 0x1a, 0xcb, 0xc5, 0x2f, 0x70, 0xb0, 0x03, 0x3a, 0x19, 0x12, 0x8a]

def detectedOpen : OpenOptions String := ⟨some "payload.bin", .detect, none⟩

def precomputedOpen : OpenOptions String := ⟨some "payload.bin", .precomputed (.detected "payload.bin" encodedPe), none⟩

def forcedOpen : OpenOptions String := ⟨some "payload.bin", .forced .data, none⟩

theorem extraction_args_equal_iff_precomputed :
    detectedOpen.extractionArgs sampleRules encodedPe = precomputedOpen.extractionArgs sampleRules encodedPe ↔
      ((detectedOpen.fileId sampleRules encodedPe).fileType = .data ∨ (detectedOpen.fileId sampleRules encodedPe).fileType = .gif →
        (detectedOpen.origin sampleRules encodedPe).payloadKey sampleRules =
          (precomputedOpen.origin sampleRules encodedPe).payloadKey sampleRules) ∧
      ((detectedOpen.fileId sampleRules encodedPe).fileType = .unknown →
        (detectedOpen.origin sampleRules encodedPe).panicked sampleRules =
          (precomputedOpen.origin sampleRules encodedPe).panicked sampleRules) :=
  extraction_args_equal_iff sampleRules (fun c => c == '\x7f') sampleSha256 "3.0.0-beta.1+0011223344556677" encodedPe
    detectedOpen precomputedOpen (fun _ => rfl) rfl

-- Detected, the content comes with its key; forced to the type it was detected
-- as, it has none, and the two opens share one entry.
theorem forced_open_loses_key :
    (∀ sha256 : List UInt8 → List UInt8,
      cacheKey sha256 "3.0.0-beta.1+0011223344556677" encodedPe
          (extractionCacheVariant (fun c => c == '\x7f') (detectedOpen.variantInput sampleRules encodedPe)) =
        cacheKey sha256 "3.0.0-beta.1+0011223344556677" encodedPe
          (extractionCacheVariant (fun c => c == '\x7f') (forcedOpen.variantInput sampleRules encodedPe))) ∧
      detectedOpen.extractionArgs sampleRules encodedPe ≠ forcedOpen.extractionArgs sampleRules encodedPe := by
  have sameInput : detectedOpen.variantInput sampleRules encodedPe = forcedOpen.variantInput sampleRules encodedPe := by
    decide +kernel
  refine ⟨fun sha256 => by rw [sameInput], ?_⟩
  intro same
  exact absurd (congrArg ExtractionArgs.xorPeKey same) (by decide +kernel)

end Filefacts.Cache
