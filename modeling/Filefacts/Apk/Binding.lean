import Filefacts.Apk.Digests

set_option autoImplicit false

namespace Filefacts.Apk

open Filefacts.Bytes (ascii toAsciiLowercase)

def manifestName : List UInt8 := ascii "META-INF/MANIFEST.MF"

def maxManifestBytes : Nat := 32 * 1024 * 1024

def maxHashedBytes : Nat := 256 * 1024 * 1024

def maxVerifiedPlaintext : Nat := 16 * 2 ^ 20

def chunkBytes : Nat := 64 * 1024

inductive Failure where
  | jarManifestMismatch
  | jarMemberMismatch
  deriving DecidableEq, Repr

inductive Binding where
  | bound
  | broken (why : Failure)
  | unverifiable (reason : String)
  deriving DecidableEq, Repr

inductive MemberError where
  | tooLarge (max : Nat)
  | zip
  deriving DecidableEq, Repr

-- What reading a member returns: pieces of at most a buffer, then its end or, when it is not complete, an error.
structure Stream where
  pieces : List (List UInt8)
  complete : Bool
  sized : ∀ piece ∈ pieces, 0 < piece.length ∧ piece.length ≤ chunkBytes
  deriving DecidableEq

def Stream.content (stream : Stream) : List UInt8 := stream.pieces.flatten

-- A member as the archive reader offers it: a name that decodes or not, the sizes its entry declares, what it inflates to
-- without decryption (absent for a method other than stored and deflated) and what opening it by name yields.
structure Member where
  name : Option (List UInt8)
  opensRaw : Bool
  encrypted : Bool
  size : Nat
  crc32 : Nat
  plaintext : Option Stream
  entry : Option Stream
  deriving DecidableEq

-- The members in the order of the central directory. Which of two members of one name a lookup finds is never asked.
abbrev Zip := List Member

def fileNames (zip : Zip) : List (Option (List UInt8)) := zip.map Member.name

def hasDuplicateNames (zip : Zip) : Bool := ¬ (zip.filterMap Member.name).Nodup

def byName (zip : Zip) (name : List UInt8) : Option Member := zip.find? fun member => member.name = some name

structure MemberPrefix where
  bytes : List UInt8
  truncated : Bool
  deriving DecidableEq, Repr

def inflateCapped (stream : Stream) (cap : Nat) : Option MemberPrefix :=
  let limit := Bytes.saturatingAdd cap 1
  if stream.content.length < limit ∧ !stream.complete then none
  else
    let bytes := stream.content.take limit
    some ⟨bytes.take cap, cap < bytes.length⟩

def readMemberPrefix (prims : Primitives) (zip : Zip) (name : List UInt8) (max : Nat) : Except MemberError (Option MemberPrefix) :=
  match byName zip name with
  | none => .ok none
  | some member =>
      if !member.opensRaw then .error .zip
      else if member.encrypted then
        if maxVerifiedPlaintext < member.size then .error (.tooLarge maxVerifiedPlaintext)
        else
          match member.plaintext.bind fun stream => inflateCapped stream member.size with
          | none => .error .zip
          | some whole =>
              if whole.truncated ∨ whole.bytes.length ≠ member.size ∨ prims.crc32 whole.bytes ≠ member.crc32 then .error .zip
              else .ok (some ⟨whole.bytes.take max, max < whole.bytes.length⟩)
      else
        match member.entry.bind fun stream => inflateCapped stream max with
        | none => .error .zip
        | some read => .ok (some read)

def readMember (prims : Primitives) (zip : Zip) (name : List UInt8) (max : Nat) : Except MemberError (Option (List UInt8)) :=
  match readMemberPrefix prims zip name max with
  | .error why => .error why
  | .ok none => .ok none
  | .ok (some read) => if read.truncated then .error (.tooLarge max) else .ok (some read.bytes)

-- Everything but directories and the signing files directly under META-INF/ must be digested in the manifest.
def needsDigest (name : List UInt8) : Bool :=
  if (ascii "/").isSuffixOf name then false
  else
    match name.dropPrefix? (ascii "META-INF/") with
    | none => true
    | some file =>
        if file.contains 47 then true
        else
          let file := toAsciiLowercase file
          !(file = ascii "manifest.mf" || (ascii "sig-").isPrefixOf file ||
            [ascii ".sf", ascii ".rsa", ascii ".dsa", ascii ".ec"].any fun ext => ext.isSuffixOf file)

def Directory (name : List UInt8) : Prop := ∃ path, name = path ++ ascii "/"

-- A signing file directly under META-INF/: the manifest, a SIG- file, a signature file or a signature block.
def SigningFile (name : List UInt8) : Prop :=
  ∃ file, name = ascii "META-INF/" ++ file ∧ 47 ∉ file ∧
    (toAsciiLowercase file = ascii "manifest.mf" ∨ ascii "sig-" <+: toAsciiLowercase file ∨
      ∃ ext ∈ [ascii ".sf", ascii ".rsa", ascii ".dsa", ascii ".ec"], ext <:+ toAsciiLowercase file)

theorem needs_digest (name : List UInt8) (file : ¬ Directory name) (unsigned : ¬ SigningFile name) : needsDigest name = true := by
  have open_ : ¬ (ascii "/").isSuffixOf name = true := fun ends => by
    obtain ⟨path, same⟩ := List.isSuffixOf_iff_suffix.mp ends
    exact file ⟨path, same.symm⟩
  unfold needsDigest
  rw [if_neg open_]
  cases under : name.dropPrefix? (ascii "META-INF/") with
  | none => rfl
  | some rest =>
      obtain ⟨front, whole, same⟩ := List.dropPrefix?_eq_some_iff.mp under
      obtain rfl := eq_of_beq same
      by_cases nested : rest.contains 47 = true
      · simp only [if_pos nested]
      · simp only [if_neg nested, Bool.not_eq_true', Bool.or_eq_false_iff, decide_eq_false_iff_not, List.any_eq_false]
        have direct : 47 ∉ rest := fun inside => nested (List.contains_iff_mem.mpr inside)
        have other := fun signing => unsigned ⟨rest, whole, direct, signing⟩
        refine ⟨⟨fun manifest => other (Or.inl manifest), ?_⟩, fun ext member ends => ?_⟩
        · exact Bool.eq_false_iff.mpr fun starts => other (Or.inr (Or.inl (List.isPrefixOf_iff_prefix.mp starts)))
        · exact other (Or.inr (Or.inr ⟨ext, member, List.isSuffixOf_iff_suffix.mp ends⟩))

theorem by_name_unique {zip : Zip} {member : Member} {name : List UInt8} (distinct : (zip.filterMap Member.name).Nodup)
    (there : member ∈ zip) (named : member.name = some name) : byName zip name = some member := by
  induction zip with
  | nil => cases there
  | cons first rest ih =>
      unfold byName
      rw [List.find?_cons]
      cases firstName : first.name with
      | none =>
          rw [List.filterMap_cons_none firstName] at distinct
          rcases List.mem_cons.mp there with rfl | inside
          · rw [named] at firstName
            cases firstName
          · exact ih distinct inside
      | some other =>
          rw [List.filterMap_cons_some firstName, List.nodup_cons] at distinct
          by_cases same : other = name
          · subst same
            rcases List.mem_cons.mp there with rfl | inside
            · simp only [decide_true]
            · exact absurd (List.mem_filterMap.mpr ⟨member, inside, named⟩) distinct.1
          · rcases List.mem_cons.mp there with rfl | inside
            · exact absurd (Option.some.inj (firstName.symm.trans named)) same
            · rw [decide_eq_false (fun both => same (Option.some.inj both))]
              exact ih distinct.2 inside

open Filefacts.Bytes (ascii)

def digestSuffix : List UInt8 := ascii "-Digest"

def digestManifestSuffix : List UInt8 := ascii "-Digest-Manifest"

-- Index by member name; a section without one name, or a name given twice, has no index.
def indexNames : List Section → Nat → List (List UInt8 × Nat) → Option (List (List UInt8 × Nat))
  | [], _, table => some table
  | part :: rest, index, table =>
      match part.name with
      | none => none
      | some name => if (table.lookup name).isSome then none else indexNames rest (index + 1) (table ++ [(name, index)])

structure Archive where
  manifest : List UInt8
  sections : List Section
  byName : List (List UInt8 × Nat)
  needed : List (List UInt8)
  members : Binding
  deriving DecidableEq

def Archive.section (archive : Archive) (name : List UInt8) : Option Section :=
  (archive.byName.lookup name).bind fun index => archive.sections[index]?

def hashPieces : List (List UInt8) → Bool → Digests → Nat → Except String Digests × Nat
  | [], complete, digests, budget => if complete then (.ok digests, budget) else (.error "member unreadable", budget)
  | piece :: rest, complete, digests, budget =>
      match digests.update piece budget with
      | none => (.error "hash budget spent", budget)
      | some (hashed, left) => hashPieces rest complete hashed left

def hashMember (zip : Zip) (name : List UInt8) (digests : Digests) (budget : Nat) : Except String Digests × Nat :=
  match (byName zip name).bind Member.entry with
  | none => (.error "member unreadable", budget)
  | some stream => hashPieces stream.pieces stream.complete digests budget

def Archive.checkMembers (prims : Primitives) (archive : Archive) (zip : Zip) : List (List UInt8) → Nat → Binding × Nat
  | [], budget => (.bound, budget)
  | name :: rest, budget =>
      match archive.section name with
      | none => (.broken .jarMemberMismatch, budget)
      | some part =>
          match hashMember zip name (Digests.of part digestSuffix) budget with
          | (.error reason, left) => (.unverifiable reason, left)
          | (.ok digests, left) =>
              if digests.matches prims then archive.checkMembers prims zip rest left else (.broken .jarMemberMismatch, left)

def Archive.undigested (archive : Archive) (name : List UInt8) : Bool :=
  match archive.section name with
  | none => true
  | some part => (Digests.of part digestSuffix).isEmpty

def Archive.membersBound (prims : Primitives) (archive : Archive) (zip : Zip) (budget : Nat) : Binding × Nat :=
  if archive.needed.any archive.undigested then (.broken .jarMemberMismatch, budget)
  else archive.checkMembers prims zip archive.needed budget

def Archive.read (prims : Primitives) (zip : Zip) (budget : Nat) : Except Binding Archive × Nat :=
  if hasDuplicateNames zip then (.error (.broken .jarMemberMismatch), budget)
  else
    match readMember prims zip manifestName maxManifestBytes with
    | .ok none => (.error (.broken .jarManifestMismatch), budget)
    | .error (.tooLarge _) => (.error (.unverifiable "manifest over the read cap"), budget)
    | .error .zip => (.error (.unverifiable "manifest unreadable"), budget)
    | .ok (some manifest) =>
        match Apk.sections manifest with
        | none => (.error (.broken .jarManifestMismatch), budget)
        | some all =>
            let parts := all.drop 1
            match indexNames parts 0 [] with
            | none => (.error (.broken .jarManifestMismatch), budget)
            | some table =>
                let needed := ((fileNames zip).filterMap id).filter needsDigest
                let archive : Archive := ⟨manifest, parts, table, needed, .bound⟩
                let checked := archive.membersBound prims zip budget
                (.ok { archive with members := checked.1 }, checked.2)

def Archive.checkEntries (prims : Primitives) (archive : Archive) : List Section → Nat → Binding × Nat
  | [], budget => (.bound, budget)
  | entry :: rest, budget =>
      match (entry.name.bind archive.section).bind fun part => part.raw archive.manifest with
      | none => (.broken .jarManifestMismatch, budget)
      | some raw =>
          match check prims entry digestSuffix raw budget with
          | (.matching, left) => archive.checkEntries prims rest left
          | (.overBudget, left) => (.unverifiable "hash budget spent", left)
          | (_, left) => (.broken .jarManifestMismatch, left)

def listNames : List Section → List (List UInt8) → Option (List (List UInt8))
  | [], listed => some listed
  | entry :: rest, listed =>
      match entry.name with
      | none => none
      | some name => if listed.contains name then none else listNames rest (listed ++ [name])

def Archive.bindsManifest (prims : Primitives) (archive : Archive) (main : Option Section) (entries : List Section)
    (budget : Nat) : Binding × Nat :=
  let whole :=
    match main with
    | none => (Check.absent, budget)
    | some main => check prims main digestManifestSuffix archive.manifest budget
  match whole with
  | (.matching, left) => (.bound, left)
  | (.overBudget, left) => (.unverifiable "hash budget spent", left)
  | (_, left) => archive.checkEntries prims entries left

def Archive.binds (prims : Primitives) (archive : Archive) (signatureFile : List UInt8) (budget : Nat) : Binding × Nat :=
  match Apk.sections signatureFile with
  | none => (.broken .jarManifestMismatch, budget)
  | some all =>
      let entries := all.drop 1
      match listNames entries [] with
      | none => (.broken .jarManifestMismatch, budget)
      | some listed =>
          match archive.bindsManifest prims all.head? entries budget with
          | (.bound, left) =>
              if archive.needed.any fun name => !listed.contains name then (.broken .jarMemberMismatch, left) else (.bound, left)
          | (other, left) => (other, left)

structure Verifier where
  budget : Nat
  archive : Option (Except Binding Archive)
  deriving DecidableEq

def Verifier.new (budget : Nat) : Verifier := ⟨budget, none⟩

def Verifier.bind (prims : Primitives) (verifier : Verifier) (zip : Zip) (signatureFile : List UInt8) : Binding × Verifier :=
  let (archive, budget) :=
    match verifier.archive with
    | some archive => (archive, verifier.budget)
    | none => Archive.read prims zip verifier.budget
  match archive with
  | .error binding => (binding, ⟨budget, some archive⟩)
  | .ok read =>
      match read.binds prims signatureFile budget with
      | (.bound, left) => (read.members, ⟨left, some archive⟩)
      | (other, left) => (other, ⟨left, some archive⟩)

end Filefacts.Apk
