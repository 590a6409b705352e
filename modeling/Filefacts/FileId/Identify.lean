import Filefacts.Cache.Variant
import Mathlib.Data.List.Nodup

set_option autoImplicit false

namespace Filefacts.Fileid

inductive Group where
  | native | bytecode | machineCode | scripts | source | build | config | archives | compressed | documents | text
  | images | audio | video | fonts | signatures | serialized | data | unknown
deriving DecidableEq, Repr

def Group.label : Group → String
  | .native => "native"
  | .bytecode => "bytecode"
  | .machineCode => "machine_code"
  | .scripts => "scripts"
  | .source => "source"
  | .build => "build"
  | .config => "config"
  | .archives => "archives"
  | .compressed => "compressed"
  | .documents => "documents"
  | .text => "text"
  | .images => "images"
  | .audio => "audio"
  | .video => "video"
  | .fonts => "fonts"
  | .signatures => "signatures"
  | .serialized => "serialized"
  | .data => "data"
  | .unknown => "unknown"

inductive FileType where
  | machO | elf | pe | ne | shell | batch | jcl | vbs | python | javaScript | typeScript | go | rust | java
  | javaClass | pythonBytecode | rpyc | beam | wasm | dex | jar | ruby | php | perl | lua | cSharp | powerShell
  | swift | objectiveC | groovy | scala | kotlin | zig | elixir | clojure | c | packageJson | packageLockJson
  | vsixManifest | chromeManifest | cargoToml | cargoLock | requirementsTxt | poetryLock | pipfileLock | gemfileLock
  | composerLock | yarnLock | pnpmLock | pyProjectToml | composerJson | json | gyp | githubActions | systemdService
  | desktopEntry | xml | yaml | pkgInfo | srcInfo | registry | reg | goMod | goSum | zip | goModule | tar | cpio
  | tarGz | tarBz2 | tarXz | tarZst | gz | bz2 | xz | lzma | zst | sevenZ | rar | rpa | deb | staticLib | rpm
  | pkgMacos | dmg | vhd | iso | squashFs | cab | chm | crx | xpi | whl | gem | apkAndroid | apkAlpine | npm | crate
  | composer | hex | pub | cran | cpan | hackage | conda | egg | nupkg | ipa | vsix | pkgFreebsd | pkgArch
  | pythonSdist | ociImage | xbps | snap | flatpak | gentooBinpkg | asar | phar | appleScript | plist | nib | pbxproj
  | cmake | rtf | oleDoc | msi | ooxml | lnk | jpeg | png | tiff | avif | wav | aiff | mp3 | mp4 | ico | ani | gif
  | bmp | webp | font | svg | pickle | nrbf | image4TrustCache | pdf | html | jsp | asp | cfml | tex | yara
  | postScript | dosCom | shellcode | fatBootSector | mirc | ircII | markdown | makefile | dockerfile | odf
  | pgpSignature | certificateSignature | text | data | unknown
deriving DecidableEq, Repr

def FileType.row : FileType → String × Group
  | .machO => ("macho", .native)
  | .elf => ("elf", .native)
  | .pe => ("pe", .native)
  | .ne => ("ne", .native)
  | .shell => ("shell", .scripts)
  | .batch => ("batch", .scripts)
  | .jcl => ("jcl", .scripts)
  | .vbs => ("vbs", .scripts)
  | .python => ("python", .scripts)
  | .javaScript => ("javascript", .scripts)
  | .typeScript => ("typescript", .scripts)
  | .go => ("go", .source)
  | .rust => ("rust", .source)
  | .java => ("java", .source)
  | .javaClass => ("java_class", .bytecode)
  | .pythonBytecode => ("python_bytecode", .bytecode)
  | .rpyc => ("rpyc", .bytecode)
  | .beam => ("beam", .bytecode)
  | .wasm => ("wasm", .bytecode)
  | .dex => ("dex", .bytecode)
  | .jar => ("jar", .archives)
  | .ruby => ("ruby", .scripts)
  | .php => ("php", .scripts)
  | .perl => ("perl", .scripts)
  | .lua => ("lua", .scripts)
  | .cSharp => ("csharp", .source)
  | .powerShell => ("powershell", .scripts)
  | .swift => ("swift", .source)
  | .objectiveC => ("objective_c", .source)
  | .groovy => ("groovy", .source)
  | .scala => ("scala", .source)
  | .kotlin => ("kotlin", .source)
  | .zig => ("zig", .source)
  | .elixir => ("elixir", .source)
  | .clojure => ("clojure", .source)
  | .c => ("c", .source)
  | .packageJson => ("package.json", .config)
  | .packageLockJson => ("package-lock.json", .config)
  | .vsixManifest => ("vsix_manifest", .config)
  | .chromeManifest => ("chrome_manifest", .config)
  | .cargoToml => ("cargo.toml", .config)
  | .cargoLock => ("cargo.lock", .config)
  | .requirementsTxt => ("requirements.txt", .config)
  | .poetryLock => ("poetry.lock", .config)
  | .pipfileLock => ("pipfile.lock", .config)
  | .gemfileLock => ("gemfile.lock", .config)
  | .composerLock => ("composer.lock", .config)
  | .yarnLock => ("yarn.lock", .config)
  | .pnpmLock => ("pnpm-lock.yaml", .config)
  | .pyProjectToml => ("pyproject.toml", .config)
  | .composerJson => ("composer.json", .config)
  | .json => ("json", .config)
  | .gyp => ("gyp", .config)
  | .githubActions => ("github_actions", .config)
  | .systemdService => ("systemd_service", .config)
  | .desktopEntry => ("desktop_entry", .config)
  | .xml => ("xml", .config)
  | .yaml => ("yaml", .config)
  | .pkgInfo => ("pkg_info", .config)
  | .srcInfo => ("src_info", .config)
  | .registry => ("registry", .config)
  | .reg => ("reg", .config)
  | .goMod => ("go.mod", .config)
  | .goSum => ("go.sum", .config)
  | .zip => ("zip", .archives)
  | .goModule => ("go_module", .archives)
  | .tar => ("tar", .archives)
  | .cpio => ("cpio", .archives)
  | .tarGz => ("tar.gz", .archives)
  | .tarBz2 => ("tar.bz2", .archives)
  | .tarXz => ("tar.xz", .archives)
  | .tarZst => ("tar.zst", .archives)
  | .gz => ("gz", .compressed)
  | .bz2 => ("bz2", .compressed)
  | .xz => ("xz", .compressed)
  | .lzma => ("lzma", .compressed)
  | .zst => ("zst", .compressed)
  | .sevenZ => ("7z", .archives)
  | .rar => ("rar", .archives)
  | .rpa => ("rpa", .archives)
  | .deb => ("deb", .archives)
  | .staticLib => ("static_lib", .native)
  | .rpm => ("rpm", .archives)
  | .pkgMacos => ("pkg_macos", .archives)
  | .dmg => ("dmg", .archives)
  | .vhd => ("vhd", .archives)
  | .iso => ("iso", .archives)
  | .squashFs => ("squashfs", .archives)
  | .cab => ("cab", .archives)
  | .chm => ("chm", .archives)
  | .crx => ("crx", .archives)
  | .xpi => ("xpi", .archives)
  | .whl => ("whl", .archives)
  | .gem => ("gem", .archives)
  | .apkAndroid => ("apk_android", .archives)
  | .apkAlpine => ("apk_alpine", .archives)
  | .npm => ("npm", .archives)
  | .crate => ("crate", .archives)
  | .composer => ("composer", .archives)
  | .hex => ("hex", .archives)
  | .pub => ("pub", .archives)
  | .cran => ("cran", .archives)
  | .cpan => ("cpan", .archives)
  | .hackage => ("hackage", .archives)
  | .conda => ("conda", .archives)
  | .egg => ("egg", .archives)
  | .nupkg => ("nupkg", .archives)
  | .ipa => ("ipa", .archives)
  | .vsix => ("vsix", .archives)
  | .pkgFreebsd => ("pkg_freebsd", .archives)
  | .pkgArch => ("pkg_arch", .archives)
  | .pythonSdist => ("python_sdist", .archives)
  | .ociImage => ("oci_image", .archives)
  | .xbps => ("xbps", .archives)
  | .snap => ("snap", .archives)
  | .flatpak => ("flatpak", .archives)
  | .gentooBinpkg => ("gentoo_binpkg", .archives)
  | .asar => ("asar", .archives)
  | .phar => ("phar", .archives)
  | .appleScript => ("applescript", .scripts)
  | .plist => ("plist", .config)
  | .nib => ("nib", .config)
  | .pbxproj => ("pbxproj", .build)
  | .cmake => ("cmake", .build)
  | .rtf => ("rtf", .documents)
  | .oleDoc => ("ole_doc", .documents)
  | .msi => ("msi", .archives)
  | .ooxml => ("ooxml", .documents)
  | .lnk => ("lnk", .config)
  | .jpeg => ("jpeg", .images)
  | .png => ("png", .images)
  | .tiff => ("tiff", .images)
  | .avif => ("avif", .images)
  | .wav => ("wav", .audio)
  | .aiff => ("aiff", .audio)
  | .mp3 => ("mp3", .audio)
  | .mp4 => ("mp4", .video)
  | .ico => ("ico", .images)
  | .ani => ("ani", .images)
  | .gif => ("gif", .images)
  | .bmp => ("bmp", .images)
  | .webp => ("webp", .images)
  | .font => ("font", .fonts)
  | .svg => ("svg", .images)
  | .pickle => ("pickle", .serialized)
  | .nrbf => ("nrbf", .serialized)
  | .image4TrustCache => ("image4_trustcache", .signatures)
  | .pdf => ("pdf", .documents)
  | .html => ("html", .documents)
  | .jsp => ("jsp", .scripts)
  | .asp => ("asp", .scripts)
  | .cfml => ("cfml", .scripts)
  | .tex => ("tex", .documents)
  | .yara => ("yara", .config)
  | .postScript => ("postscript", .documents)
  | .dosCom => ("dos_com", .machineCode)
  | .shellcode => ("shellcode", .machineCode)
  | .fatBootSector => ("fat_boot_sector", .machineCode)
  | .mirc => ("mirc", .scripts)
  | .ircII => ("ircii", .scripts)
  | .markdown => ("markdown", .documents)
  | .makefile => ("makefile", .build)
  | .dockerfile => ("dockerfile", .build)
  | .odf => ("odf", .documents)
  | .pgpSignature => ("pgp_signature", .signatures)
  | .certificateSignature => ("certificate_signature", .signatures)
  | .text => ("text", .text)
  | .data => ("data", .data)
  | .unknown => ("unknown", .unknown)

def FileType.label (fileType : FileType) : String := fileType.row.1

def FileType.group (fileType : FileType) : Group := fileType.row.2

def FileType.all : List FileType :=
  [.machO, .elf, .pe, .ne, .shell, .batch, .jcl, .vbs, .python, .javaScript, .typeScript, .go, .rust, .java,
   .javaClass, .pythonBytecode, .rpyc, .beam, .wasm, .dex, .jar, .ruby, .php, .perl, .lua, .cSharp, .powerShell,
   .swift, .objectiveC, .groovy, .scala, .kotlin, .zig, .elixir, .clojure, .c, .packageJson, .packageLockJson,
   .vsixManifest, .chromeManifest, .cargoToml, .cargoLock, .requirementsTxt, .poetryLock, .pipfileLock, .gemfileLock,
   .composerLock, .yarnLock, .pnpmLock, .pyProjectToml, .composerJson, .json, .gyp, .githubActions, .systemdService,
   .desktopEntry, .xml, .yaml, .pkgInfo, .srcInfo, .registry, .reg, .goMod, .goSum, .zip, .goModule, .tar, .cpio,
   .tarGz, .tarBz2, .tarXz, .tarZst, .gz, .bz2, .xz, .lzma, .zst, .sevenZ, .rar, .rpa, .deb, .staticLib, .rpm,
   .pkgMacos, .dmg, .vhd, .iso, .squashFs, .cab, .chm, .crx, .xpi, .whl, .gem, .apkAndroid, .apkAlpine, .npm, .crate,
   .composer, .hex, .pub, .cran, .cpan, .hackage, .conda, .egg, .nupkg, .ipa, .vsix, .pkgFreebsd, .pkgArch,
   .pythonSdist, .ociImage, .xbps, .snap, .flatpak, .gentooBinpkg, .asar, .phar, .appleScript, .plist, .nib, .pbxproj,
   .cmake, .rtf, .oleDoc, .msi, .ooxml, .lnk, .jpeg, .png, .tiff, .avif, .wav, .aiff, .mp3, .mp4, .ico, .ani, .gif,
   .bmp, .webp, .font, .svg, .pickle, .nrbf, .image4TrustCache, .pdf, .html, .jsp, .asp, .cfml, .tex, .yara,
   .postScript, .dosCom, .shellcode, .fatBootSector, .mirc, .ircII, .markdown, .makefile, .dockerfile, .odf,
   .pgpSignature, .certificateSignature, .text, .data, .unknown]

theorem mem_all (fileType : FileType) : fileType ∈ FileType.all := by
  have found : FileType.all[fileType.ctorIdx]? = some fileType := by cases fileType <;> rfl
  exact List.mem_of_getElem? found

def labelCode (text : String) : Nat :=
  text.toByteArray.data.toList.foldl (fun code octet => code * 256 + octet.toNat) 1

theorem label_codes_distinct : (FileType.all.map fun fileType => labelCode fileType.label).Nodup := by
  decide +kernel

theorem label_injective (a b : FileType) (same : a.label = b.label) : a = b :=
  List.inj_on_of_nodup_map label_codes_distinct (mem_all a) (mem_all b) (congrArg labelCode same)

theorem labels_clean : ∀ fileType ∈ FileType.all, ';' ∉ fileType.label.toList ∧ '\x00' ∉ fileType.label.toList := by
  decide +kernel

theorem label_clean (fileType : FileType) : Cache.Clean fileType.label := labels_clean fileType (mem_all fileType)

theorem group_label_clean (group : Group) : Cache.Clean group.label := by
  cases group <;> exact ⟨by decide, by decide⟩

inductive DetectionSource where
  | magic
  | shebang
  | filename
  | extension
  | heuristic
  | extensionOverridesShebang
  | forced
  | unidentified
  | failed
deriving DecidableEq, Repr

inductive ExtensionMatch where
  | consistent
  | different (fileType : FileType)
  | unknown
  | shebangClaimed (fileType : FileType)
  | conventional (fileType : Option FileType)
deriving DecidableEq, Repr

def ExtensionMatch.isMismatch (extMatch : ExtensionMatch) (source : DetectionSource) : Bool :=
  (match source with
    | .magic | .shebang | .heuristic | .extensionOverridesShebang => true
    | .filename | .extension | .forced | .unidentified | .failed => false) &&
  match extMatch with
    | .different _ | .unknown | .shebangClaimed _ => true
    | .consistent | .conventional _ => false

def ExtensionMatch.extensionType (extMatch : ExtensionMatch) (detected : FileType) : Option FileType :=
  match extMatch with
  | .different fileType => some fileType
  | .conventional fileType => fileType
  | .shebangClaimed _ => some detected
  | .consistent | .unknown => none

structure Detection where
  fileType : FileType
  source : DetectionSource
  extMatch : ExtensionMatch
deriving DecidableEq, Repr

def Detection.named (fileType : FileType) (source : DetectionSource) : Detection := ⟨fileType, source, .consistent⟩

structure RepeatingXorKey where
  bytes : List UInt8
  peOffset : Nat
deriving DecidableEq, Repr

structure FileId where
  fileType : FileType
  source : DetectionSource
  extMatch : ExtensionMatch
  xorPeKey : Option RepeatingXorKey
deriving DecidableEq, Repr

def FileId.extensionMismatch (id : FileId) : Bool := id.extMatch.isMismatch id.source

def FileId.mismatchExtType (id : FileId) : Option FileType :=
  if id.extensionMismatch then id.extMatch.extensionType id.fileType else none

def FileId.extensionMismatchTransition (id : FileId) : Option (String × String) :=
  if id.extensionMismatch then
    some (id.fileType.group.label, (id.mismatchExtType.map fun fileType => fileType.group.label).getD "unknown")
  else none

def FileId.forced (fileType : FileType) : FileId := ⟨fileType, .forced, .consistent, none⟩

-- What identification asks of the rules, of the key recovery and of paths.
-- Any rules will do; none of them reports a failure.
structure Rules (Path : Type) where
  emptyPath : Path
  fileName : Path → Option String
  panics : Path → List UInt8 → Bool
  detectKnown : Path → List UInt8 → Option Detection
  recoverRepeatingXorPe : List UInt8 → Option RepeatingXorKey
  headerlessProgram : Path → List UInt8 → Option FileType
  extensionMatchOf : Path → List UInt8 → FileType → ExtensionMatch
  conventionHolds : Path → List UInt8 → Option FileType → FileType → Bool
  detectKnownSource : ∀ path data detection, detectKnown path data = some detection → detection.source ≠ .failed

section Identify

variable {Path : Type} (rules : Rules Path)

def Detection.heuristic (path : Path) (data : List UInt8) (fileType : FileType) : Detection :=
  ⟨fileType, .heuristic, rules.extensionMatchOf path data fileType⟩

def Detection.excuseConvention (path : Path) (data : List UInt8) (detection : Detection) : Detection :=
  if detection.extMatch.isMismatch detection.source then
    let ext := detection.extMatch.extensionType detection.fileType
    if rules.conventionHolds path data ext detection.fileType then { detection with extMatch := .conventional ext } else detection
  else detection

def identify (path : Path) (data : List UInt8) : Option Detection × Option RepeatingXorKey :=
  let found : Option Detection × Option RepeatingXorKey :=
    match rules.detectKnown path data with
    | some detection =>
        if detection.fileType = .data ∨ detection.fileType = .gif then (some detection, rules.recoverRepeatingXorPe data)
        else (some detection, none)
    | none =>
        match rules.recoverRepeatingXorPe data with
        | some key => (some (Detection.named .data .heuristic), some key)
        | none => ((rules.headerlessProgram path data).map (Detection.heuristic rules path data), none)
  (found.1.map (Detection.excuseConvention rules path data), found.2)

def FileId.fromPathAndBytes (path : Path) (data : List UInt8) : FileId :=
  if rules.panics path data then { FileId.forced .unknown with source := .failed }
  else
    match identify rules path data with
    | (some detection, xorPeKey) => ⟨detection.fileType, detection.source, detection.extMatch, xorPeKey⟩
    | (none, _) => ⟨.unknown, .unidentified, .consistent, none⟩

def FileId.fromBytes (data : List UInt8) : FileId := FileId.fromPathAndBytes rules rules.emptyPath data

variable (path : Path) (data : List UInt8) (detection : Detection)

@[simp] theorem excuse_convention_file_type : (detection.excuseConvention rules path data).fileType = detection.fileType := by
  unfold Detection.excuseConvention
  split
  · simp only
    split <;> rfl
  · rfl

@[simp] theorem excuse_convention_source : (detection.excuseConvention rules path data).source = detection.source := by
  unfold Detection.excuseConvention
  split
  · simp only
    split <;> rfl
  · rfl

theorem identify_key (key : Option RepeatingXorKey) (identified : identify rules path data = (some detection, key)) :
    key = (if detection.fileType = .data ∨ detection.fileType = .gif then rules.recoverRepeatingXorPe data else none) ∧
      detection.source ≠ .failed := by
  unfold identify at identified
  cases known : rules.detectKnown path data with
  | some found =>
      have source := rules.detectKnownSource path data found known
      rw [known] at identified
      by_cases carrier : found.fileType = .data ∨ found.fileType = .gif
      · simp only [if_pos carrier, Option.map_some, Prod.mk.injEq, Option.some.injEq] at identified
        obtain ⟨rfl, rfl⟩ := identified
        simp [carrier, source]
      · simp only [if_neg carrier, Option.map_some, Prod.mk.injEq, Option.some.injEq] at identified
        obtain ⟨rfl, rfl⟩ := identified
        simp [carrier, source]
  | none =>
      rw [known] at identified
      cases recovered : rules.recoverRepeatingXorPe data with
      | some found =>
          simp only [recovered, Option.map_some, Prod.mk.injEq, Option.some.injEq] at identified
          obtain ⟨rfl, rfl⟩ := identified
          simp [Detection.named]
      | none =>
          simp only [recovered, Option.map_map, Prod.mk.injEq, Option.map_eq_some_iff, Function.comp_apply] at identified
          obtain ⟨⟨fileType, _, rfl⟩, rfl⟩ := identified
          simp [Detection.heuristic]

theorem from_path_and_bytes_key : (FileId.fromPathAndBytes rules path data).xorPeKey =
      if (FileId.fromPathAndBytes rules path data).fileType = .data ∨ (FileId.fromPathAndBytes rules path data).fileType = .gif
      then rules.recoverRepeatingXorPe data else none := by
  unfold FileId.fromPathAndBytes
  by_cases panicked : rules.panics path data = true
  · simp [panicked, FileId.forced]
  · rcases identified : identify rules path data with ⟨_ | detection, key⟩
    · simp [panicked]
    · simpa [panicked] using (identify_key rules path data detection key identified).1

theorem from_path_and_bytes_failed :
    (FileId.fromPathAndBytes rules path data).source = .failed ↔ rules.panics path data = true := by
  unfold FileId.fromPathAndBytes
  by_cases panicked : rules.panics path data = true
  · simp [panicked]
  · rcases identified : identify rules path data with ⟨_ | detection, key⟩
    · simp [panicked]
    · simpa [panicked] using (identify_key rules path data detection key identified).2

theorem from_path_and_bytes_panicked (panicked : rules.panics path data = true) :
    (FileId.fromPathAndBytes rules path data).fileType = .unknown := by
  simp [FileId.fromPathAndBytes, panicked, FileId.forced]

end Identify

theorem transition_unique {first second : FileId} (sameType : first.fileType = second.fileType)
    {input other : Cache.VariantInput} (mismatch : input.extensionMismatch = first.extensionMismatch)
    (mismatch' : other.extensionMismatch = second.extensionMismatch)
    (transition : input.mismatchTransition = first.extensionMismatchTransition)
    (transition' : other.mismatchTransition = second.extensionMismatchTransition) (same : input.transition = other.transition) :
    first.extensionMismatch = second.extensionMismatch ∧
      first.extensionMismatchTransition = second.extensionMismatchTransition := by
  have joined : ∀ content ext : String, content ++ "_as_" ++ ext ≠ "-" := by
    intro content ext impossible
    have length := congrArg String.length impossible
    have dash : "-".length = 1 := by decide
    have marker : "_as_".length = 4 := by decide
    simp only [String.length_append, dash, marker] at length
    omega
  cases flag : first.extensionMismatch with
  | false =>
      cases flag' : second.extensionMismatch with
      | false => simp [FileId.extensionMismatchTransition, flag, flag']
      | true =>
          rw [flag] at mismatch
          rw [flag'] at mismatch'
          simp only [Cache.VariantInput.transition, mismatch, mismatch', transition', FileId.extensionMismatchTransition, flag',
            if_true] at same
          exact absurd same.symm (joined _ _)
  | true =>
      cases flag' : second.extensionMismatch with
      | false =>
          rw [flag] at mismatch
          rw [flag'] at mismatch'
          simp only [Cache.VariantInput.transition, mismatch, mismatch', transition, FileId.extensionMismatchTransition, flag,
            if_true] at same
          exact absurd same (joined _ _)
      | true =>
          rw [flag] at mismatch
          rw [flag'] at mismatch'
          simp only [Cache.VariantInput.transition, mismatch, mismatch', transition, transition',
            FileId.extensionMismatchTransition, flag, flag', if_true, sameType] at same
          have ext := String.append_right_inj _ |>.mp same
          simp only [FileId.extensionMismatchTransition, flag, flag', if_true, sameType, ext, and_self]

end Filefacts.Fileid
