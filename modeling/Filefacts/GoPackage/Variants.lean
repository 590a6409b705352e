import Filefacts.GoPackage.Context

set_option autoImplicit false

namespace Filefacts.GoPackage

open Constraint PackageContext

theorem indexed_members {Item : Type} (items : List Item) (chosen : Item → Bool) :
    ((items.zipIdx.filter fun entry => chosen entry.1).map Prod.snd).filterMap (fun i => items[i]?) = items.filter chosen := by
  have found : ∀ entry ∈ items.zipIdx.filter fun entry => chosen entry.1, (items[entry.2]?) = some entry.1 :=
    fun entry member => List.mk_mem_zipIdx_iff_getElem?.mp (List.mem_filter.mp member).1
  calc ((items.zipIdx.filter fun entry => chosen entry.1).map Prod.snd).filterMap (fun i => items[i]?)
      = (items.zipIdx.filter fun entry => chosen entry.1).filterMap (fun entry => some entry.1) :=
        List.filterMap_map.trans (List.filterMap_congr found)
    _ = (items.zipIdx.filter (chosen ∘ Prod.fst)).map Prod.fst := congrFun List.filterMap_eq_map _
    _ = (items.zipIdx.map Prod.fst).filter chosen := (List.filter_map).symm
    _ = items.filter chosen := by rw [List.zipIdx_map_fst]

theorem any_found {Index Item : Type} (indices : List Index) (look : Index → Option Item) (test : Item → Bool) :
    (indices.any fun i => (look i).any test) = (indices.filterMap look).any test := by
  induction indices with
  | nil => rfl
  | cons i indices ih => cases found : look i <;> simp [found, ih]

section Group

variable {Tree Budget Facts : Type} (analysis : Analysis Tree Budget Facts) (limits : ContextLimits)
  (sources : List SourceFile) (key : String × String)

def membersOf : List Member := Fibers.fiber (sources.zipIdx.filterMap (grouped analysis limits)) key

def wanted (test : Bool) (index : Nat) (member : Member) : Bool :=
  (!member.test || test) && member.builds[index]? == some true && (analysis.parse member.position).isSome

theorem to_member_injective : Function.Injective (toMember analysis) := by
  intro first second same
  obtain ⟨position, path, source, _⟩ := Member.mk.inj same
  obtain ⟨⟨_, _⟩, _⟩ := first
  obtain ⟨⟨_, _⟩, _⟩ := second
  simp_all

theorem members_of_eq : membersOf analysis limits sources key =
    (sources.zipIdx.filter fun entry => eligible limits entry.1 && isBuilt analysis entry.1 && decide (groupKey analysis entry.1 = key)).map
      (toMember analysis) := by
  unfold membersOf Fibers.fiber
  induction sources.zipIdx with
  | nil => rfl
  | cons entry entries ih =>
      cases joined : eligible limits entry.1 && isBuilt analysis entry.1 with
      | false =>
          have absent : grouped analysis limits entry = none := by simp [grouped, joined]
          rw [List.filterMap_cons_none absent, ih, List.filter_cons_of_neg (by simp [joined])]
      | true =>
          have present : grouped analysis limits entry = some (groupKey analysis entry.1, toMember analysis entry) := by
            simp [grouped, joined]
          rw [List.filterMap_cons_some present]
          by_cases same : groupKey analysis entry.1 = key
          · rw [List.filter_cons_of_pos (by simpa using same), List.filter_cons_of_pos (by simp [joined, same]), List.map_cons, List.map_cons, ih]
          · rw [List.filter_cons_of_neg (by simpa using same), List.filter_cons_of_neg (by simp [same]), ih]

variable (phase : Phase) (index : Nat) (platform : Platform)

theorem wanted_joins (here : platforms[index]? = some platform) (entry : SourceFile × Nat) :
    (eligible limits entry.1 && isBuilt analysis entry.1 && decide (groupKey analysis entry.1 = key) &&
      wanted analysis (phase == .test) index (toMember analysis entry)) = joins analysis limits key phase platform entry := by
  have builds : ((toMember analysis entry).builds[index]? == some true) = platformBuilds analysis entry.1 platform := by
    simp only [toMember]
    rw [List.getElem?_map, here, Option.map_some]
    cases platformBuilds analysis entry.1 platform <;> rfl
  have built : platformBuilds analysis entry.1 platform = true → isBuilt analysis entry.1 = true :=
    fun building => List.any_eq_true.mpr ⟨platform, List.mem_of_getElem? here, building⟩
  rw [wanted, builds, joins]
  cases building : platformBuilds analysis entry.1 platform with
  | false => simp
  | true =>
      rw [built building]
      simp only [toMember, isTest, Bool.and_true, Bool.and_assoc]

theorem wanted_members (here : platforms[index]? = some platform) :
    (membersOf analysis limits sources key).filter (wanted analysis (phase == .test) index) =
      (selection analysis limits sources key phase platform).map (toMember analysis) := by
  rw [members_of_eq, List.filter_map, List.filter_filter, selection]
  apply congrArg (List.map (toMember analysis))
  apply List.filter_congr
  intro entry _
  rw [← wanted_joins analysis limits key phase index platform here entry, Bool.and_comm]
  rfl

def indicesOf (chosen : List (SourceFile × Nat)) : List Nat :=
  ((membersOf analysis limits sources key).zipIdx.filter fun entry => decide (entry.1 ∈ chosen.map (toMember analysis))).map Prod.snd

theorem selected_on_eq (here : platforms[index]? = some platform) :
    selectedOn (membersOf analysis limits sources key) (parsedMembers analysis (membersOf analysis limits sources key))
      (phase == .test) index = indicesOf analysis limits sources key (selection analysis limits sources key phase platform) := by
  unfold selectedOn indicesOf
  apply congrArg (List.map Prod.snd)
  apply List.filter_congr
  intro entry member
  have at_ : (membersOf analysis limits sources key)[entry.2]? = some entry.1 := List.mk_mem_zipIdx_iff_getElem?.mp member
  have parsed : ((parsedMembers analysis (membersOf analysis limits sources key))[entry.2]?).join.isSome =
      (analysis.parse entry.1.position).isSome := by
    rw [parsedMembers, List.getElem?_map, at_]
    simp
  rw [parsed, ← wanted_members analysis limits sources key phase index platform here]
  have inside := List.mem_of_getElem? at_
  rw [Bool.eq_iff_iff, decide_eq_true_iff, List.mem_filter, and_iff_right inside]
  rfl

theorem indices_of_members (modelled : platform ∈ platforms) :
    (indicesOf analysis limits sources key (selection analysis limits sources key phase platform)).filterMap
      (fun i => (membersOf analysis limits sources key)[i]?) =
      (selection analysis limits sources key phase platform).map (toMember analysis) := by
  obtain ⟨index, here⟩ := List.mem_iff_getElem?.mp modelled
  rw [indicesOf, indexed_members (membersOf analysis limits sources key) fun member =>
    decide (member ∈ (selection analysis limits sources key phase platform).map (toMember analysis)), ← wanted_members analysis limits sources key phase index platform here]
  apply List.filter_congr
  intro member inside
  rw [Bool.eq_iff_iff, decide_eq_true_iff, List.mem_filter, and_iff_right inside]

theorem indices_of_faithful (first second : Platform) (modelled : first ∈ platforms) (modelled' : second ∈ platforms)
    (same : indicesOf analysis limits sources key (selection analysis limits sources key phase first) =
      indicesOf analysis limits sources key (selection analysis limits sources key phase second)) :
    selection analysis limits sources key phase first = selection analysis limits sources key phase second := by
  have members := indices_of_members analysis limits sources key phase first modelled
  rw [same, indices_of_members analysis limits sources key phase second modelled'] at members
  exact (List.map_injective_iff.mpr (to_member_injective analysis) members).symm

theorem indices_of_nil (modelled : platform ∈ platforms) :
    indicesOf analysis limits sources key (selection analysis limits sources key phase platform) = [] ↔
      selection analysis limits sources key phase platform = [] := by
  constructor
  · intro empty
    have members := indices_of_members analysis limits sources key phase platform modelled
    rw [empty, List.filterMap_nil] at members
    exact List.map_eq_nil_iff.mp members.symm
  · intro empty
    rw [empty, indicesOf]
    simp

theorem indices_of_test (modelled : platform ∈ platforms) :
    ((indicesOf analysis limits sources key (selection analysis limits sources key phase platform)).any fun i =>
      ((membersOf analysis limits sources key)[i]?).any (·.test)) =
      (selection analysis limits sources key phase platform).any fun entry => isTest entry.1 := by
  have members := indices_of_members analysis limits sources key phase platform modelled
  rw [any_found, members, List.any_map]
  rfl

def shares (phase : Phase) : List (List (SourceFile × Nat) × List String) :=
  Fibers.pushAll (fun _ _ => false) ((platforms.filter (reached analysis limits sources key phase)).map fun platform =>
    (selection analysis limits sources key phase platform, platform.port))

theorem add_platform_eq (variants : List (List Nat × List String)) (entry : Platform × Nat)
    (member : entry ∈ platforms.zipIdx) :
    addPlatform (membersOf analysis limits sources key) (parsedMembers analysis (membersOf analysis limits sources key))
      (phase == .test) variants entry =
      if reached analysis limits sources key phase entry.1 then
        Fibers.push (fun _ _ => false) (indicesOf analysis limits sources key (selection analysis limits sources key phase entry.1))
          entry.1.port variants
      else variants := by
  have here : platforms[entry.2]? = some entry.1 := List.mk_mem_zipIdx_iff_getElem?.mp member
  have modelled := List.mem_of_getElem? here
  unfold addPlatform
  rw [selected_on_eq analysis limits sources key phase entry.2 entry.1 here]
  simp only [indices_of_test analysis limits sources key phase entry.1 modelled]
  have empty : (indicesOf analysis limits sources key (selection analysis limits sources key phase entry.1)).isEmpty =
      (selection analysis limits sources key phase entry.1).isEmpty := by
    rw [Bool.eq_iff_iff, List.isEmpty_iff, List.isEmpty_iff]
    exact indices_of_nil analysis limits sources key phase entry.1 modelled
  rw [empty, reached]
  cases selection analysis limits sources key phase entry.1 with
  | nil => rfl
  | cons first rest => cases phase <;> cases ((first :: rest).any fun entry => isTest entry.1) <;> rfl

theorem variants_for_eq :
    variantsFor (membersOf analysis limits sources key) (parsedMembers analysis (membersOf analysis limits sources key)) (phase == .test) =
      (shares analysis limits sources key phase).map (Prod.map (indicesOf analysis limits sources key) id) := by
  rw [shares, ← Fibers.push_all_renamed, variantsFor, Fibers.pushAll, List.foldl_map, List.foldl_map, List.foldl_filter]
  · rw [List.foldl_ext _ _ _ fun variants entry member => add_platform_eq analysis limits sources key phase variants entry member]
    conv => rhs; rw [← List.zipIdx_map_fst 0 platforms, List.foldl_map]
    rfl
  · simp only [List.mem_map, List.mem_filter]
    rintro _ ⟨first, ⟨modelled, _⟩, rfl⟩ _ ⟨second, ⟨modelled', _⟩, rfl⟩ same
    exact indices_of_faithful analysis limits sources key phase first second modelled modelled' same

end Group

open Constraint PackageContext

structure Outline where
  directory : String
  package : String
  phase : Phase
  platforms : List String
  members : List String
deriving DecidableEq, Repr

section Reports

variable {Tree Budget Facts : Type} (analysis : Analysis Tree Budget Facts) (limits : ContextLimits)

def outline (package : GoPackage Facts) : Outline :=
  ⟨package.directory, package.package, package.phase, package.platforms, package.members⟩

structure Reports (report : Report Budget Facts) (plan : List Outline) (outcome : Reporting Budget Facts (Report Budget Facts)) :
    Prop where
  outlines : (finished outcome).packages.map outline =
    (report.packages.map outline ++ plan).take limits.maxGoPackages
  stopped : ∀ last, outcome = .error last → limits.maxGoPackages < report.packages.length + plan.length ∧ last.truncated = true
  passed : ∀ next, outcome = .ok next → report.packages.length + plan.length ≤ limits.maxGoPackages
  kept : report.truncated = true → (finished outcome).truncated = true

theorem reports_nil (report : Report Budget Facts) (room : report.packages.length ≤ limits.maxGoPackages) :
    Reports limits report [] (.ok report) := by
  refine ⟨?_, fun _ stopped => (nomatch stopped), fun _ _ => by simpa using room, id⟩
  rw [List.append_nil, List.take_of_length_le (by simpa using room)]
  rfl

theorem reports_bind {report : Report Budget Facts} {plan later : List Outline}
    {outcome : Reporting Budget Facts (Report Budget Facts)}
    (rest : Report Budget Facts → Reporting Budget Facts (Report Budget Facts)) (first : Reports limits report plan outcome)
    (second : ∀ next, next.packages.length ≤ limits.maxGoPackages → Reports limits next later (rest next)) :
    Reports limits report (plan ++ later) (outcome >>= rest) := by
  cases outcome with
  | error last =>
      obtain ⟨cut, marked⟩ := first.stopped last rfl
      refine ⟨?_, fun other same => ?_, fun _ passed => (nomatch passed), first.kept⟩
      · rw [← List.append_assoc, List.take_append_of_le_length]
        · exact first.outlines
        · rw [List.length_append, List.length_map]
          omega
      · obtain rfl : last = other := Except.error.inj same
        rw [List.length_append]
        exact ⟨by omega, marked⟩
  | ok next =>
      have fits := first.passed next rfl
      have outlines : next.packages.map outline = report.packages.map outline ++ plan := by
        rw [← List.take_of_length_le (i := limits.maxGoPackages) (l := report.packages.map outline ++ plan)
          (by simpa using fits)]
        exact first.outlines
      have length : next.packages.length = report.packages.length + plan.length := by
        simpa using congrArg List.length outlines
      have rest := second next (length.trans_le fits)
      refine ⟨?_, fun last same => ?_, fun last same => ?_, fun marked => rest.kept (first.kept marked)⟩
      · rw [← List.append_assoc, ← outlines]
        exact rest.outlines
      · have stopped := rest.stopped last same
        rw [length, Nat.add_assoc, ← List.length_append] at stopped
        exact stopped
      · have passed := rest.passed last same
        rw [length, Nat.add_assoc, ← List.length_append] at passed
        exact passed

theorem reports_fold {Item : Type} (items : List Item)
    (step : Report Budget Facts → Item → Reporting Budget Facts (Report Budget Facts)) (planOf : Item → List Outline)
    (each : ∀ item ∈ items, ∀ report : Report Budget Facts, report.packages.length ≤ limits.maxGoPackages →
      Reports limits report (planOf item) (step report item))
    (report : Report Budget Facts) (room : report.packages.length ≤ limits.maxGoPackages) :
    Reports limits report (items.flatMap planOf) (items.foldlM step report) := by
  induction items generalizing report with
  | nil => exact reports_nil limits report room
  | cons item items ih =>
      rw [List.flatMap_cons, List.foldlM_cons]
      apply reports_bind limits _
        (each item List.mem_cons_self report room)
      exact ih fun other member => each other (List.mem_cons_of_mem _ member)

def outlineOf (key : String × String) (members : List Member) (phase : Phase) (all : Bool) (variant : List Nat × List String) : Outline :=
  ⟨key.1, key.2, phase, if all then [] else variant.2, (variant.1.filterMap fun i => members[i]?).map (·.path)⟩

def phasePlan (key : String × String) (members : List Member) (phase : Phase) : List Outline :=
  let variants := variantsFor members (parsedMembers analysis members) (phase == .test)
  variants.map (outlineOf key members phase (everywhere variants))

def groupPlan (group : (String × String) × List Member) : List Outline :=
  [Phase.runtime, Phase.test].flatMap (phasePlan analysis group.1 group.2)

variable (key : String × String) (members : List Member) (parsed : List (Option (String × Tree))) (phase : Phase)

theorem report_variant_reports (all : Bool) (variant : List Nat × List String) (report : Report Budget Facts)
    (room : report.packages.length ≤ limits.maxGoPackages) :
    Reports limits report [outlineOf key members phase all variant]
      (reportVariant analysis limits key members parsed phase all report variant) := by
  unfold reportVariant
  by_cases full : report.packages.length ≥ limits.maxGoPackages
  · rw [if_pos full]
    refine ⟨?_, fun last same => ?_, fun _ passed => (nomatch passed), fun _ => rfl⟩
    · rw [List.take_append_of_le_length (by simpa using full), List.take_of_length_le (by simpa using room)]
      rfl
    · obtain rfl := Except.error.inj same
      exact ⟨Nat.lt_succ_of_le full, rfl⟩
  · rw [if_neg full]
    have fits : (report.packages.map outline ++ [outlineOf key members phase all variant]).length ≤ limits.maxGoPackages := by
      rw [List.length_append, List.length_map]
      exact Nat.lt_of_not_le full
    refine ⟨?_, fun _ stopped => (nomatch stopped), fun next same => ?_, fun marked => ?_⟩
    · rw [List.take_of_length_le fits]
      exact List.map_append
    · exact Nat.lt_of_not_le full
    · exact Bool.or_eq_true_iff.mpr (.inl marked)

theorem variants_for_testless (none : members.any (·.test) = false) : variantsFor members parsed true = [] := by
  have skipped : ∀ entry, addPlatform members parsed true [] entry = [] := by
    intro entry
    have testless : ((selectedOn members parsed true entry.2).any fun i => (members[i]?).any (·.test)) = false := by
      rw [List.any_eq_false]
      intro i _
      cases found : members[i]? with
      | none => simp
      | some member => simpa using List.any_eq_false.mp none member (List.mem_of_getElem? found)
    simp [addPlatform, testless]
  unfold variantsFor
  induction platforms.zipIdx with
  | nil => rfl
  | cons entry entries ih => rw [List.foldl_cons, skipped, ih]

theorem report_phase_reports (report : Report Budget Facts) (room : report.packages.length ≤ limits.maxGoPackages) :
    Reports limits report (phasePlan analysis key members phase)
      (reportPhase analysis limits key members (parsedMembers analysis members) report phase) := by
  unfold reportPhase
  dsimp only
  cases skip : (phase == Phase.test && !members.any (·.test)) with
  | true =>
      obtain ⟨isTest, none⟩ := (Bool.and_eq_true _ _).mp skip
      have empty : phasePlan analysis key members phase = [] := by
        rw [phasePlan, isTest, variants_for_testless members _ (by simpa using none)]
        rfl
      rw [empty, if_pos rfl]
      exact reports_nil limits report room
  | false =>
      rw [phasePlan, List.map_eq_flatMap, if_neg Bool.false_ne_true]
      apply reports_fold limits
      · exact fun variant _ report room => report_variant_reports analysis limits key members _ phase _ variant report room
      · exact room

theorem report_group_reports (group : (String × String) × List Member) (report : Report Budget Facts)
    (room : report.packages.length ≤ limits.maxGoPackages) :
    Reports limits report (groupPlan analysis group) (reportGroup analysis limits report group) := by
  have marked := reports_fold limits [Phase.runtime, Phase.test]
    (reportPhase analysis limits group.1 group.2 (parsedMembers analysis group.2)) (phasePlan analysis group.1 group.2)
    (fun phase _ report room => report_phase_reports analysis limits group.1 group.2 phase report room)
    { report with truncated := report.truncated || (parsedMembers analysis group.2).any Option.isNone } room
  exact ⟨marked.outlines, marked.stopped, marked.passed, fun set => marked.kept (Bool.or_eq_true_iff.mpr (.inl set))⟩

end Reports

end Filefacts.GoPackage
