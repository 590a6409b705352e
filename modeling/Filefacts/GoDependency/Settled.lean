import Filefacts.GoDependency.Context

set_option autoImplicit false

namespace Filefacts.GoDependency

open Choice Output PackageContext

-- What a dependency's resolution stands for, in terms of the manifests of the
-- context: each with whether it is the workspace's.
section Meaning

variable (context : List (ReferenceMember × Bool)) (members : List ReferenceMember) (sums : List Reference)

def Complete : Prop := ∀ entry ∈ context, ∀ reference ∈ entry.1.references, reference.source ≠ Source.incomplete

def Admits (locator : RefLocator) : Prop :=
  ∀ entry ∈ context, ∀ reference ∈ entry.1.references, reference.source = Source.modExclude → reference.locator ≠ locator

def IsReplace (directive : Reference) : Prop := directive.source = Source.modReplace ∨ directive.source = Source.workReplace

def Parsed : Prop := ∀ entry ∈ context, ∀ reference ∈ entry.1.references, IsReplace reference → reference.replaces ≠ none

-- A directive that replaces the module, at the version or at any.
def Applies (module_ version : List Char) (entry : Match) : Prop :=
  ∃ owner replaced, (owner, entry.workspace) ∈ context ∧ entry.directive ∈ owner.references ∧ entry.owner = owner.path ∧
    IsReplace entry.directive ∧ entry.directive.replaces = some replaced ∧ replaced.module_ = module_ ∧
    (replaced.version = none ∨ replaced.version = some version) ∧ entry.exact = replaced.version.isSome

-- The workspace's before a module's, then one for the version before one for
-- any.
def Outranks (one other : Match) : Prop :=
  (one.workspace = true ∧ other.workspace = false) ∨ (one.workspace = other.workspace ∧ one.exact = true ∧ other.exact = false)

def Foremost (module_ version : List Char) (entry : Match) : Prop :=
  Applies context module_ version entry ∧ ∀ other, Applies context module_ version other → ¬ Outranks other entry

def Unanimous (module_ version : List Char) : Prop :=
  ∀ one other, Foremost context module_ version one → Foremost context module_ version other →
    one.directive.locator = other.directive.locator ∧ ∀ path, one.directive.locator = .path path → one.owner = other.owner

def Listed (locator : RefLocator) (sum : Reference) : Prop := sum ∈ sums ∧ sum.source = Source.sum ∧ sum.locator = locator

def SumsAgree (locator : RefLocator) : Prop :=
  ∀ one other, Listed sums locator one → Listed sums locator other → one.pinnedHash = other.pinnedHash

def Reached (entry : Match) : Prop :=
  match entry.directive.locator with
  | .path path => ∃ module_, localModule entry.owner path = some module_ ∧ ∃ m ∈ members, isModuleManifest m.path module_ = true
  | locator => SumsAgree sums locator

structure Clear (locator : RefLocator) : Prop where
  complete : Complete context
  admits : Admits context locator
  parsed : Parsed context

structure ReplacedBy (locator : RefLocator) (module_ version : List Char) (entry : Match) : Prop where
  clear : Clear context locator
  foremost : Foremost context module_ version entry
  unanimous : Unanimous context module_ version
  reached : Reached members sums entry

structure Stands (locator : RefLocator) (module_ version : List Char) : Prop where
  clear : Clear context locator
  unreplaced : ∀ entry, ¬ Applies context module_ version entry
  agree : SumsAgree sums locator

end Meaning

theorem outranks_iff (one other : Match) : Outranks one other ↔ other.priority < one.priority := by
  obtain ⟨workspace, exact_, owner, directive⟩ := one
  obtain ⟨workspace', exact', owner', directive'⟩ := other
  cases workspace <;> cases workspace' <;> cases exact_ <;> cases exact' <;> simp [Outranks, Match.priority]

variable (context : List (ReferenceMember × Bool)) (sums : List Reference) (members : List ReferenceMember)

theorem mem_directives (entry : ReferenceMember × Bool × Reference) : entry ∈ replaceDirectives context ↔
      (entry.1, entry.2.1) ∈ context ∧ entry.2.2 ∈ entry.1.references ∧ IsReplace entry.2.2 := by
  obtain ⟨owner, workspace, reference⟩ := entry
  simp only [replaceDirectives, List.mem_flatMap, List.mem_map, List.mem_filter, Bool.or_eq_true, beq_iff_eq, Prod.mk.injEq, IsReplace]
  constructor
  · rintro ⟨⟨owner, workspace⟩, inside, reference, listed, rfl, rfl, rfl⟩
    exact ⟨inside, listed⟩
  · intro ⟨inside, listed⟩
    exact ⟨(owner, workspace), inside, reference, listed, rfl, rfl, rfl⟩

theorem names_version (wanted : Option (List Char)) (version : List Char) :
    ¬ wanted.any (· != version) ↔ wanted = none ∨ wanted = some version := by
  cases wanted with
  | none => simp
  | some named => simp

theorem applies_iff (module_ version : List Char) (entry : Match) :
    entry ∈ (replaceDirectives context).filterMap (applies module_ version) ↔ Applies context module_ version entry := by
  rw [List.mem_filterMap]
  constructor
  · rintro ⟨⟨owner, workspace, reference⟩, inside, made⟩
    obtain ⟨around, listed, replace⟩ := (mem_directives context _).mp inside
    obtain ⟨replaced, parsed, made⟩ := Option.bind_eq_some_iff.mp made
    rw [Option.ite_none_left_eq_some, not_or, names_version] at made
    obtain ⟨⟨named, versioned⟩, made⟩ := made
    cases made
    exact ⟨owner, replaced, around, listed, rfl, replace, parsed, not_not.mp named, versioned, rfl⟩
  · rintro ⟨owner, replaced, around, listed, same, replace, parsed, named, versioned, exact_⟩
    refine ⟨(owner, entry.workspace, entry.directive), (mem_directives context _).mpr ⟨around, listed, replace⟩, ?_⟩
    have applied : ¬(replaced.module_ ≠ module_ ∨ replaced.version.any (· != version)) :=
      not_or.mpr ⟨not_not.mpr named, (names_version _ _).mpr versioned⟩
    rw [applies, parsed, Option.bind_some, if_neg applied, ← same, ← exact_]

theorem parsed_iff : ((replaceDirectives context).any fun entry => entry.2.2.replaces.isNone) = false ↔ Parsed context := by
  rw [List.any_eq_false]
  constructor
  · intro all entry around reference listed replace none
    exact all (entry.1, entry.2, reference) ((mem_directives context _).mpr ⟨around, listed, replace⟩) (by rw [none]; rfl)
  · intro parsed entry inside none
    obtain ⟨around, listed, replace⟩ := (mem_directives context entry).mp inside
    exact parsed _ around _ listed replace (Option.isNone_iff_eq_none.mp none)

theorem complete_iff :
    (context.any fun entry => entry.1.references.any fun r => r.source == Source.incomplete) = false ↔ Complete context := by
  simp only [List.any_eq_false, List.any_eq_true, beq_iff_eq, not_exists, not_and, Complete, ne_eq]

theorem admits_iff (locator : RefLocator) :
    (context.any fun entry => entry.1.references.any fun r => r.source == Source.modExclude && r.locator == locator) = false ↔
      Admits context locator := by
  simp only [List.any_eq_false, List.any_eq_true, Bool.and_eq_true, beq_iff_eq, not_exists, not_and, Admits, ne_eq]

def pinned (sums : List Reference) (result : Reference) : Reference :=
  match sums.find? fun sum => sum.source == Source.sum && sum.locator == result.locator with
  | none => result
  | some first => { result with pinnedHash := first.pinnedHash }

theorem pin_cases (reference result : Reference) :
    (SumsAgree sums result.locator ∧ pin sums reference result = pinned sums result) ∨
      (¬ SumsAgree sums result.locator ∧ pin sums reference result = unresolved reference .checksumConflict) := by
  have listed : ∀ sum, sum ∈ (sums.filter fun sum => sum.source == Source.sum && sum.locator == result.locator) ↔
      Listed sums result.locator sum := by
    intro sum
    rw [List.mem_filter, Bool.and_eq_true, beq_iff_eq, beq_iff_eq, Listed]
  rw [pin, pinned, ← List.head?_filter]
  cases found : sums.filter fun sum => sum.source == Source.sum && sum.locator == result.locator with
  | nil =>
      rw [found] at listed
      exact Or.inl ⟨fun one other left right => absurd ((listed one).mpr left) List.not_mem_nil, rfl⟩
  | cons first rest =>
      rw [found] at listed
      dsimp only [List.head?_cons]
      cases conflict : (first :: rest).any fun sum => sum.pinnedHash != first.pinnedHash with
      | false =>
          have agree := agree_of_any Reference.pinnedHash (first :: rest) first
          refine Or.inl ⟨fun one other left right => ?_, if_neg Bool.false_ne_true⟩
          rw [agree one conflict ((listed one).mpr left), agree other conflict ((listed other).mpr right)]
      | true =>
          obtain ⟨sum, member, differs⟩ := List.any_eq_true.mp conflict
          refine Or.inr ⟨fun all => ?_, if_pos rfl⟩
          exact bne_iff_ne.mp differs (all sum first ((listed sum).mp member) ((listed first).mp List.mem_cons_self))

def moved (reference : Reference) (entry : Match) : Reference :=
  { reference with
    resolution := some .replaced
    locator := entry.directive.locator
    pinnedHash := none
    contentSha256 := none
    source := entry.directive.source
    evidence := reference.evidence ++ "; ".toList ++ entry.owner ++ ": ".toList ++ entry.directive.evidence }

def taken (sums : List Reference) (reference : Reference) (entry : Match) : Reference :=
  match entry.directive.locator with
  | .path _ => { moved reference entry with kind := .local_ }
  | _ => pinned sums (moved reference entry)

theorem replace_with_cases (sums : List Reference) (reference : Reference) (entry : Match) :
    (Reached members sums entry ∧ replaceWith members sums reference entry = taken sums reference entry) ∨
      (¬ Reached members sums entry ∧ ∃ reason, replaceWith members sums reference entry = unresolved reference reason) := by
  have pins := pin_cases sums reference (moved reference entry)
  rw [replaceWith, Reached, taken]
  rw [moved] at pins ⊢
  cases target : entry.directive.locator with
  | purl purl =>
      rw [target] at pins
      rcases pins with ⟨agree, same⟩ | ⟨apart, same⟩
      · exact Or.inl ⟨agree, same⟩
      · exact Or.inr ⟨apart, .checksumConflict, same⟩
  | url url =>
      rw [target] at pins
      rcases pins with ⟨agree, same⟩ | ⟨apart, same⟩
      · exact Or.inl ⟨agree, same⟩
      · exact Or.inr ⟨apart, .checksumConflict, same⟩
  | path path =>
      dsimp only
      cases place : localModule entry.owner path with
      | none =>
          refine Or.inr ⟨fun reached => ?_, .localBoundary, rfl⟩
          obtain ⟨_, here, _⟩ := reached
          cases here
      | some module_ =>
          dsimp only
          cases present : members.any fun m => isModuleManifest m.path module_ with
          | true =>
              obtain ⟨m, member, manifest⟩ := List.any_eq_true.mp present
              exact Or.inl ⟨⟨module_, rfl, m, member, manifest⟩, rfl⟩
          | false =>
              refine Or.inr ⟨fun reached => ?_, .localMissing, rfl⟩
              obtain ⟨other, here, m, member, manifest⟩ := reached
              cases here
              exact List.any_eq_false.mp present m member manifest

theorem target_same (one other : Match) (locator : one.directive.locator = other.directive.locator)
    (owner : ∀ path, one.directive.locator = .path path → one.owner = other.owner) : target one = target other := by
  rw [target, target, ← locator]
  cases place : one.directive.locator with
  | purl purl => rfl
  | url url => rfl
  | path path =>
      rw [owner path place]

theorem foremost_iff (module_ version : List Char) (found : List Match)
    (applied : ∀ entry, entry ∈ found ↔ Applies context module_ version entry) (last : Match) (top : Tops Match.priority found last)
    (entry : Match) : Foremost context module_ version entry ↔ entry ∈ found ∧ entry.priority = last.priority := by
  constructor
  · intro ⟨applies, above⟩
    have member := (applied entry).mpr applies
    have below := mt (outranks_iff last entry).mpr (above last ((applied last).mp top.mem))
    exact ⟨member, Nat.le_antisymm (top.above entry member) (Nat.le_of_not_lt below)⟩
  · intro ⟨member, same⟩
    refine ⟨(applied entry).mp member, fun other applies outranks => ?_⟩
    have less := (outranks_iff other entry).mp outranks
    rw [same] at less
    exact absurd (top.above other ((applied other).mpr applies)) (Nat.not_le_of_lt less)

theorem reached_same (sums : List Reference) (one other : Match)
    (locator : one.directive.locator = other.directive.locator)
    (owner : ∀ path, one.directive.locator = .path path → one.owner = other.owner) (reached : Reached members sums one) :
    Reached members sums other := by
  rw [Reached] at reached ⊢
  rw [← locator]
  cases place : one.directive.locator with
  | purl purl =>
      rw [place] at reached
      exact reached
  | url url =>
      rw [place] at reached
      exact reached
  | path path =>
      rw [place, owner path place] at reached
      exact reached

theorem settle_cases (sums : List Reference) (reference : Reference) (module_ version : List Char) (found : List Match)
    (applied : ∀ entry, entry ∈ found ↔ Applies context module_ version entry) :
    ((∀ entry, ¬ Applies context module_ version entry) ∧
        settle members sums reference found = pin sums reference { reference with resolution := some .declaredMinimum }) ∨
      (∃ entry, Foremost context module_ version entry ∧ Unanimous context module_ version ∧
        settle members sums reference found = replaceWith members sums reference entry) ∨
      ((∃ entry, Applies context module_ version entry) ∧ ¬ Unanimous context module_ version ∧
        settle members sums reference found = unresolved reference .replacementConflict) := by
  have sorted := sort_by_key_perm Match.priority found
  rw [settle]
  cases ends : (sortByKey Match.priority found).getLast? with
  | none =>
      rw [List.getLast?_eq_none_iff] at ends
      rw [ends] at sorted
      refine Or.inl ⟨fun entry holds => ?_, rfl⟩
      exact absurd (sorted.mem_iff.mpr ((applied entry).mpr holds)) List.not_mem_nil
  | some last =>
      have top := sort_by_key_last _ ends
      have foremost := foremost_iff context module_ version found applied last top
      have peer : ∀ entry, entry ∈ ((sortByKey Match.priority found).filter fun entry => entry.priority == last.priority) ↔
          Foremost context module_ version entry := by
        intro entry
        rw [foremost, List.mem_filter, beq_iff_eq, sorted.mem_iff]
      dsimp only
      cases conflict : ((sortByKey Match.priority found).filter fun entry => entry.priority == last.priority).any (disagrees last) with
      | false =>
          have agree : ∀ entry, Foremost context module_ version entry → target entry = target last := by
            intro entry holds
            have same := List.any_eq_false.mp conflict entry ((peer entry).mpr holds)
            rwa [disagrees_target, bne_iff_ne, not_not] at same
          refine Or.inr (Or.inl ⟨last, (foremost last).mpr ⟨top.mem, rfl⟩, fun one other left right => ?_, if_neg Bool.false_ne_true⟩)
          have same := (agree one left).trans (agree other right).symm
          refine ⟨target_locator same, fun path place => target_owner one other path same ?_⟩
          rw [← target_locator same, place]
      | true =>
          obtain ⟨entry, member, differs⟩ := List.any_eq_true.mp conflict
          refine Or.inr (Or.inr ⟨⟨last, (applied last).mp top.mem⟩, fun unanimous => ?_, if_pos rfl⟩)
          have same := unanimous entry last ((peer entry).mp member) ((foremost last).mpr ⟨top.mem, rfl⟩)
          rw [disagrees_target, bne_iff_ne] at differs
          exact differs (target_same entry last same.1 same.2)

section Settled

variable (context : List (ReferenceMember × Bool)) (members : List ReferenceMember) (sums : List Reference) (reference : Reference)
variable (module_ version : List Char)

theorem reconcile_cases (required : reference.source = Source.mod) (dependency : reference.kind = .dependency)
    (named : coordinate reference = some (module_, version)) :
    (Stands context sums reference.locator module_ version ∧
        reconcile reference context sums members = pinned sums { reference with resolution := some .declaredMinimum }) ∨
      (∃ entry, ReplacedBy context members sums reference.locator module_ version entry ∧
        reconcile reference context sums members = taken sums reference entry) ∨
      (¬ Stands context sums reference.locator module_ version ∧
        (∀ entry, ¬ ReplacedBy context members sums reference.locator module_ version entry) ∧
        ∃ reason, reconcile reference context sums members = unresolved reference reason) := by
  have skipped : ¬(reference.source ≠ Source.mod ∨ reference.kind ≠ .dependency) :=
    not_or.mpr ⟨not_not.mpr required, not_not.mpr dependency⟩
  have unclear : ¬ Clear context reference.locator → ¬ Stands context sums reference.locator module_ version ∧
      ∀ entry, ¬ ReplacedBy context members sums reference.locator module_ version entry :=
    fun unclear => ⟨fun stands => unclear stands.clear, fun entry replaced => unclear replaced.clear⟩
  rw [reconcile, if_neg skipped, named]
  dsimp only
  cases incomplete : context.any fun entry => entry.1.references.any fun r => r.source == Source.incomplete with
  | true =>
      have stops := unclear fun clear => by
        rw [(complete_iff context).mpr clear.complete] at incomplete
        cases incomplete
      exact Or.inr (Or.inr ⟨stops.1, stops.2, .manifest, if_pos rfl⟩)
  | false =>
      rw [if_neg Bool.false_ne_true]
      cases excluded : context.any fun entry => entry.1.references.any fun r =>
          r.source == Source.modExclude && r.locator == reference.locator with
      | true =>
          have stops := unclear fun clear => by
            rw [(admits_iff context reference.locator).mpr clear.admits] at excluded
            cases excluded
          exact Or.inr (Or.inr ⟨stops.1, stops.2, .excludedMinimum, if_pos rfl⟩)
      | false =>
          rw [if_neg Bool.false_ne_true, collect_matches_eq]
          cases unparsed : (replaceDirectives context).any fun entry => entry.2.2.replaces.isNone with
          | true =>
              have stops := unclear fun clear => by
                rw [(parsed_iff context).mpr clear.parsed] at unparsed
                cases unparsed
              exact Or.inr (Or.inr ⟨stops.1, stops.2, .replacement, rfl⟩)
          | false =>
              have clear : Clear context reference.locator :=
                ⟨(complete_iff context).mp incomplete, (admits_iff context _).mp excluded, (parsed_iff context).mp unparsed⟩
              have settles := settle_cases context members sums reference module_ version _ (applies_iff context module_ version)
              rw [if_neg Bool.false_ne_true]
              rcases settles with ⟨unreplaced, same⟩ | ⟨entry, foremost, unanimous, same⟩ | ⟨⟨entry, applies⟩, conflict, same⟩
              · have replaces : ∀ entry, ¬ ReplacedBy context members sums reference.locator module_ version entry :=
                  fun entry replaced => unreplaced entry replaced.foremost.1
                rcases pin_cases sums reference { reference with resolution := some .declaredMinimum } with ⟨agree, pins⟩ | ⟨apart, pins⟩
                · exact Or.inl ⟨⟨clear, unreplaced, agree⟩, same.trans pins⟩
                · exact Or.inr (Or.inr ⟨fun stands => apart stands.agree, replaces, .checksumConflict, same.trans pins⟩)
              · have standing : ¬ Stands context sums reference.locator module_ version :=
                  fun stands => stands.unreplaced entry foremost.1
                rcases replace_with_cases members sums reference entry with ⟨reached, takes⟩ | ⟨lost, reason, stops⟩
                · exact Or.inr (Or.inl ⟨entry, ⟨clear, foremost, unanimous, reached⟩, same.trans takes⟩)
                · refine Or.inr (Or.inr ⟨standing, fun other replaced => lost ?_, reason, same.trans stops⟩)
                  have agree := unanimous other entry replaced.foremost foremost
                  exact reached_same members sums other entry agree.1 agree.2 replaced.reached
              · exact Or.inr (Or.inr ⟨fun stands => stands.unreplaced entry applies, fun other replaced => conflict replaced.unanimous,
                  .replacementConflict, same⟩)

end Settled

variable (result : Reference)

theorem pinned_locator : (pinned sums result).locator = result.locator := by
  rw [pinned]
  cases sums.find? fun sum => sum.source == Source.sum && sum.locator == result.locator with
  | none => rfl
  | some first => rfl

theorem pinned_resolution : (pinned sums result).resolution = result.resolution := by
  rw [pinned]
  cases sums.find? fun sum => sum.source == Source.sum && sum.locator == result.locator with
  | none => rfl
  | some first => rfl

theorem pinned_hash (hash : PinnedHash) (held : (pinned sums result).pinnedHash = some hash) :
    (∃ sum, Listed sums result.locator sum ∧ sum.pinnedHash = some hash) ∨ (pinned sums result).pinnedHash = result.pinnedHash := by
  rw [pinned] at held ⊢
  cases found : sums.find? fun sum => sum.source == Source.sum && sum.locator == result.locator with
  | none => exact Or.inr rfl
  | some first =>
      rw [found] at held
      have matched := List.find?_some found
      rw [Bool.and_eq_true, beq_iff_eq, beq_iff_eq] at matched
      exact Or.inl ⟨first, ⟨List.mem_of_find?_eq_some found, matched⟩, held⟩

structure Settles (context : List (ReferenceMember × Bool)) (members : List ReferenceMember) (sums : List Reference)
    (reference : Reference) (module_ version : List Char) (result : Reference) : Prop where
  replaced : result.resolution = some .replaced ↔ ∃ entry, ReplacedBy context members sums reference.locator module_ version entry
  stands : result.resolution = some .declaredMinimum ↔ Stands context sums reference.locator module_ version
  target : ∀ entry, ReplacedBy context members sums reference.locator module_ version entry →
    result.locator = entry.directive.locator
  kept : Stands context sums reference.locator module_ version → result.locator = reference.locator
  pin : ∀ hash, result.pinnedHash = some hash → result.resolution = some .replaced ∨ result.pinnedHash ≠ reference.pinnedHash →
    SumsAgree sums result.locator ∧ ∃ sum, Listed sums result.locator sum ∧ sum.pinnedHash = some hash
  other : result.resolution ≠ some .replaced → result.resolution ≠ some .declaredMinimum →
    ∃ reason, result = unresolved reference reason

theorem taken_resolution (reference : Reference) (entry : Match) :
    (taken sums reference entry).resolution = some .replaced ∧ (taken sums reference entry).locator = entry.directive.locator := by
  rw [taken]
  cases place : entry.directive.locator with
  | purl purl => exact ⟨pinned_resolution _ _, (pinned_locator _ _).trans place⟩
  | url url => exact ⟨pinned_resolution _ _, (pinned_locator _ _).trans place⟩
  | path path => exact ⟨rfl, place⟩

theorem taken_pin {sums : List Reference} {reference : Reference} {entry : Match}
    (reached : Reached members sums entry) {hash : PinnedHash} (held : (taken sums reference entry).pinnedHash = some hash) :
    SumsAgree sums entry.directive.locator ∧ ∃ sum, Listed sums entry.directive.locator sum ∧ sum.pinnedHash = some hash := by
  have fresh : ∀ agree : SumsAgree sums entry.directive.locator, (pinned sums (moved reference entry)).pinnedHash = some hash →
      SumsAgree sums entry.directive.locator ∧ ∃ sum, Listed sums entry.directive.locator sum ∧ sum.pinnedHash = some hash := by
    intro agree held
    rcases pinned_hash sums (moved reference entry) hash held with listed | kept
    · exact ⟨agree, listed⟩
    · rw [kept] at held
      cases held
  rw [taken] at held
  rw [Reached] at reached
  cases place : entry.directive.locator with
  | purl purl =>
      rw [place] at reached held fresh
      exact fresh reached held
  | url url =>
      rw [place] at reached held fresh
      exact fresh reached held
  | path path =>
      rw [place] at held
      cases held

theorem reconcile_settles (sums : List Reference)
    {reference : Reference} {module_ version : List Char} (required : reference.source = Source.mod)
    (dependency : reference.kind = .dependency) (named : coordinate reference = some (module_, version)) :
    Settles context members sums reference module_ version (reconcile reference context sums members) := by
  rcases reconcile_cases context members sums reference module_ version required dependency named with
    ⟨stands, same⟩ | ⟨entry, replaced, same⟩ | ⟨unstanding, unreplaced, reason, same⟩
  · have resolution : (reconcile reference context sums members).resolution = some .declaredMinimum := by
      rw [same, pinned_resolution]
    have unreplaced : ∀ entry, ¬ ReplacedBy context members sums reference.locator module_ version entry :=
      fun entry replaced => stands.unreplaced entry replaced.foremost.1
    have locator : (reconcile reference context sums members).locator = reference.locator := by
      rw [same, pinned_locator]
    constructor
    · rw [resolution]
      exact ⟨fun clash => (by cases clash), fun ⟨entry, replaced⟩ => absurd replaced (unreplaced entry)⟩
    · exact ⟨fun _ => stands, fun _ => resolution⟩
    · exact fun entry replaced => absurd replaced (unreplaced entry)
    · exact fun _ => locator
    · intro hash held new
      rw [resolution] at new
      have attached := new.resolve_left (fun clash => by cases clash)
      rw [locator]
      rw [same] at held attached
      exact ⟨stands.agree, (pinned_hash sums _ hash held).resolve_right attached⟩
    · exact fun _ other => absurd resolution other
  · obtain ⟨resolution, locator⟩ := taken_resolution sums reference entry
    rw [← same] at resolution locator
    constructor
    · exact ⟨fun _ => ⟨entry, replaced⟩, fun _ => resolution⟩
    · rw [resolution]
      exact ⟨fun clash => (by cases clash), fun stands => absurd replaced.foremost.1 (stands.unreplaced entry)⟩
    · intro other alike
      rw [locator]
      exact (replaced.unanimous entry other replaced.foremost alike.foremost).1
    · exact fun stands => absurd replaced.foremost.1 (stands.unreplaced entry)
    · intro hash held _
      rw [locator]
      rw [same] at held
      exact taken_pin members replaced.reached held
    · exact fun other => absurd resolution other
  · constructor
    · rw [same]
      exact ⟨fun clash => (by cases clash), fun ⟨entry, replaced⟩ => absurd replaced (unreplaced entry)⟩
    · rw [same]
      exact ⟨fun clash => (by cases clash), fun stands => absurd stands unstanding⟩
    · exact fun entry replaced => absurd replaced (unreplaced entry)
    · exact fun stands => absurd stands unstanding
    · intro hash held new
      rw [same] at new
      rcases new with clash | changed
      · cases clash
      · exact absurd rfl changed
    · exact fun _ _ => ⟨reason, same⟩

theorem resolved_settles (members : List ReferenceMember) (main : ReferenceMember) (context : List (ReferenceMember × Bool))
    (uncovered : vendorOf members main = none) (index : Nat) (reference : Reference) (listed : main.references[index]? = some reference)
    (required : reference.source = Source.mod) (dependency : reference.kind = .dependency) (module_ version : List Char)
    (named : coordinate reference = some (module_, version)) :
    ∃ result, (resolved members main context)[index]? = some result ∧
      Settles context members (sumsOf members context) reference module_ version result := by
  refine ⟨reconcile reference context (sumsOf members context) members, ?_,
    reconcile_settles context members _ required dependency named⟩
  rw [resolved, List.getElem?_map, listed, Option.map_some, uncovered, supply]
  split
  · rfl
  · rfl

def wanted : Reference := { locator := .purl "pkg:golang/a@1".toList, kind := .dependency, source := Source.mod, evidence := [] }

def directed : Reference :=
  { locator := .purl "pkg:golang/b@2".toList
    kind := .undefined
    source := Source.modReplace
    evidence := []
    replaces := some { module_ := "a".toList, version := none } }

def manifestOf (references : List Reference) : ReferenceMember := { path := "go.mod".toList, references }

theorem resolved_settles_directed :
    ∃ result, (resolved [manifestOf [wanted, directed]] (manifestOf [wanted, directed]) [(manifestOf [wanted, directed], false)])[0]? =
        some result ∧
      Settles [(manifestOf [wanted, directed], false)] [manifestOf [wanted, directed]] [] wanted "a".toList "1".toList result :=
  resolved_settles [manifestOf [wanted, directed]] (manifestOf [wanted, directed]) [(manifestOf [wanted, directed], false)]
    (by decide +kernel) 0 wanted rfl rfl rfl "a".toList "1".toList (by decide +kernel)

def unparsed : Reference := { directed with replaces := none }

def around : List (ReferenceMember × Bool) := [(manifestOf [wanted, directed, unparsed], false)]

def localTo : Reference := { directed with locator := .path "./b".toList }

def aroundLocal : List (ReferenceMember × Bool) := [(manifestOf [wanted, localTo], false)]

def pathSum (value : List Char) : Reference :=
  { locator := .path "./b".toList, kind := .undefined, source := Source.sum, evidence := [], pinnedHash := some { algo := .goModH1, value } }

def unnamed : Reference := { wanted with locator := .url "https://a".toList }

-- A directive that did not parse stops a replacement that everything else
-- speaks for, sums do not stop a local one, and a dependency that names no
-- module and version is left as it is.
theorem directive_unparsed_stops :
    (Complete around ∧ Admits around wanted.locator ∧
      (∃ entry, Foremost around "a".toList "1".toList entry ∧ Reached [] [] entry) ∧ Unanimous around "a".toList "1".toList ∧
      (reconcile wanted around [] []).resolution = some (.unresolved .replacement)) ∧
      (¬ SumsAgree [pathSum ['1'], pathSum ['2']] (.path "./b".toList) ∧
        (reconcile wanted aroundLocal [pathSum ['1'], pathSum ['2']] [{ path := "b/go.mod".toList, references := [] }]).resolution =
          some .replaced) ∧
      (reconcile unnamed around [] []).resolution = none := by
  have found : (replaceDirectives around).filterMap (applies "a".toList "1".toList) = [⟨false, false, "go.mod".toList, directed⟩] := by
    decide +kernel
  have applied := applies_iff around "a".toList "1".toList
  rw [found] at applied
  have foremost := foremost_iff around "a".toList "1".toList _ applied ⟨false, false, "go.mod".toList, directed⟩
    ⟨List.mem_singleton_self _, fun other member => by rw [List.mem_singleton.mp member]⟩
  refine ⟨⟨(complete_iff around).mp (by decide +kernel), (admits_iff around _).mp (by decide +kernel),
    ⟨_, (foremost _).mpr ⟨List.mem_singleton_self _, rfl⟩, ?_⟩, ?_, by decide +kernel⟩, ⟨?_, by decide +kernel⟩, by decide +kernel⟩
  · exact fun one other left _ => absurd left.1 List.not_mem_nil
  · intro one other left right
    rw [foremost, List.mem_singleton] at left right
    rw [left.1, right.1]
    exact ⟨rfl, fun path place => rfl⟩
  · intro agree
    have same := agree (pathSum ['1']) (pathSum ['2']) ⟨List.mem_cons_self, rfl, rfl⟩
      ⟨List.mem_cons_of_mem _ (List.mem_singleton_self _), rfl, rfl⟩
    revert same
    decide +kernel

end Filefacts.GoDependency
