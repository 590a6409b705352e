import Filefacts.GoPackage.Partition

set_option autoImplicit false

namespace Filefacts.GoPackage

open Constraint PackageContext

section Accounts

variable {Tree Budget Facts : Type} (analysis : Analysis Tree Budget Facts) (limits : ContextLimits) (sources : List SourceFile)

structure Accounts (context : GoSourceContext Facts) : Prop where
  phases : ∀ package ∈ context.packages, package.phase = .runtime ∨ package.phase = .test
  partition : ∀ key phase, phase = .runtime ∨ phase = .test →
    Partition analysis limits sources key phase (variantsOf context key phase)
  whole : variantCount analysis limits sources ≤ limits.maxGoPackages → ∀ key phase, phase = .runtime ∨ phase = .test →
    ∀ platform ∈ platforms, (variantsOf context key phase).countP (Outline.covers platform) =
      if reached analysis limits sources key phase platform then 1 else 0
  cut : limits.maxGoPackages < variantCount analysis limits sources → context.truncated = true
  unselected : ∀ file ∈ sources, eligible limits file = true →
    (∀ platform ∈ platforms, platformBuilds analysis file platform = false) → file.path ∈ context.unselected
  appears : ∀ entry ∈ sources.zipIdx, eligible limits entry.1 = true →
    (∃ platform ∈ platforms, platformBuilds analysis entry.1 platform = true) → (analysis.parse entry.2).isSome = true →
      context.truncated = false → ∃ phase, ∃ variant ∈ variantsOf context (groupKey analysis entry.1) phase,
        ∃ platform ∈ platforms, variant.covers platform = true ∧
          entry ∈ selection analysis limits sources (groupKey analysis entry.1) phase platform ∧ entry.1.path ∈ variant.members

variable (key : String × String) (phase : Phase) (coverage : Coverage)

theorem key_before_irreflexive : keyBefore key key = false := by
  simp [keyBefore]

theorem key_before_transitive (first second third : String × String) (before : keyBefore first second = true)
    (after : keyBefore second third = true) : keyBefore first third = true := by
  simp only [keyBefore, Bool.or_eq_true, Bool.and_eq_true, decide_eq_true_iff, beq_iff_eq] at before after ⊢
  rcases before with less | ⟨same, less⟩
  · rcases after with less' | ⟨same', _⟩
    · exact .inl (String.lt_trans less less')
    · exact .inl (same' ▸ less)
  · rcases after with less' | ⟨same', less'⟩
    · exact .inl (same ▸ less')
    · exact .inr ⟨same.trans same', String.lt_trans less less'⟩

def groupPairs : List ((String × String) × Member) := sources.zipIdx.filterMap (grouped analysis limits)

theorem groups_grouped :
    Fibers.Grouped (groupPairs analysis limits sources) (Fibers.pushAll keyBefore (groupPairs analysis limits sources)) :=
  (Fibers.push_all_grouped keyBefore key_before_irreflexive key_before_transitive _).2

def keyOutlines (key : String × String) : List Outline :=
  [Phase.runtime, Phase.test].flatMap (phaseOutlines analysis limits sources key)

def plan : List Outline :=
  (Fibers.keys (Fibers.pushAll keyBefore (groupPairs analysis limits sources))).flatMap (keyOutlines analysis limits sources)

theorem group_plans :
    (Fibers.pushAll keyBefore (groupPairs analysis limits sources)).flatMap (groupPlan analysis) = plan analysis limits sources := by
  rw [plan, Fibers.keys, List.flatMap_map]
  apply List.flatMap_congr
  intro group member
  have members : group.2 = membersOf analysis limits sources group.1 := (groups_grouped analysis limits sources).exact group member
  rw [groupPlan, members, keyOutlines]
  apply List.flatMap_congr
  intro phase _
  exact phase_plan_eq analysis limits sources group.1 phase

theorem joins_grouped (platform : Platform) (modelled : platform ∈ platforms)
    (entry : SourceFile × Nat) (joined : joins analysis limits key phase platform entry = true) :
    grouped analysis limits entry = some (key, toMember analysis entry) := by
  simp only [joins, Bool.and_eq_true, decide_eq_true_iff] at joined
  obtain ⟨⟨⟨⟨fits, same⟩, _⟩, builds⟩, _⟩ := joined
  have built : isBuilt analysis entry.1 = true := List.any_eq_true.mpr ⟨platform, modelled, builds⟩
  rw [grouped, fits, built, same]
  rfl

theorem absent_outlines (absent : key ∉ Fibers.keys (Fibers.pushAll keyBefore (groupPairs analysis limits sources))) :
    phaseOutlines analysis limits sources key phase = [] := by
  rw [phaseOutlines, List.map_eq_nil_iff, List.eq_nil_iff_forall_not_mem]
  intro share member
  obtain ⟨platform, modelled, goes, _⟩ := share_shared analysis limits sources key phase share member
  have some : selection analysis limits sources key phase platform ≠ [] := by
    have both := (Bool.and_eq_true _ _).mp goes
    simpa using both.1
  obtain ⟨entry, selected⟩ := List.exists_mem_of_ne_nil _ some
  obtain ⟨inside, joined⟩ := List.mem_filter.mp selected
  have pair := joins_grouped analysis limits key phase platform modelled entry joined
  exact absent (((groups_grouped analysis limits sources).present key).mpr ⟨_, List.mem_filterMap.mpr ⟨entry, inside, pair⟩, rfl⟩)

theorem phase_outlines_of (other : String × String) (phase phase' : Phase) :
    (phaseOutlines analysis limits sources other phase').filter (ofPhase key phase) =
      if other = key ∧ phase' = phase then phaseOutlines analysis limits sources other phase' else [] := by
  have fields : ∀ variant ∈ phaseOutlines analysis limits sources other phase',
      ofPhase key phase variant = decide (other = key ∧ phase' = phase) := by
    intro variant member
    obtain ⟨share, _, rfl⟩ := List.mem_map.mp member
    rw [ofPhase, Bool.decide_and]
    rfl
  by_cases same : other = key ∧ phase' = phase
  · rw [if_pos same]
    exact List.filter_eq_self.mpr fun variant member => by rw [fields variant member, decide_eq_true same]
  · rw [if_neg same]
    exact List.filter_eq_nil_iff.mpr fun variant member => by rw [fields variant member, decide_eq_false same]; exact Bool.false_ne_true

theorem key_outlines_of (other : String × String) (phase : Phase) (reported : phase = .runtime ∨ phase = .test) :
    (keyOutlines analysis limits sources other).filter (ofPhase key phase) =
      if other = key then phaseOutlines analysis limits sources key phase else [] := by
  rw [keyOutlines, List.flatMap_cons, List.flatMap_cons, List.flatMap_nil, List.append_nil, List.filter_append, phase_outlines_of,
    phase_outlines_of]
  by_cases same : other = key
  · subst same
    rcases reported with rfl | rfl <;> simp
  · simp [same]

theorem plan_of (reported : phase = .runtime ∨ phase = .test) :
    (plan analysis limits sources).filter (ofPhase key phase) = phaseOutlines analysis limits sources key phase := by
  have absent := absent_outlines analysis limits sources key phase
  have distinct := (groups_grouped analysis limits sources).distinct
  unfold plan
  rw [List.filter_flatMap]
  simp only [key_outlines_of analysis limits sources key _ phase reported]
  generalize Fibers.keys (Fibers.pushAll keyBefore (groupPairs analysis limits sources)) = keys at absent distinct
  induction keys with
  | nil => exact (absent List.not_mem_nil).symm
  | cons first keys ih =>
      obtain ⟨fresh, others⟩ := List.nodup_cons.mp distinct
      rw [List.flatMap_cons]
      by_cases same : first = key
      · subst same
        have rest : (keys.flatMap fun other => if other = first then phaseOutlines analysis limits sources first phase else []) = [] :=
          List.flatMap_eq_nil_iff.mpr fun other member => if_neg fun (equal : other = first) => fresh (equal ▸ member)
        rw [if_pos rfl, rest, List.append_nil]
      · rw [if_neg same, List.nil_append]
        apply ih _ others
        intro missing
        apply absent
        intro member
        rcases List.mem_cons.mp member with here | member
        · exact same here.symm
        · exact missing member

theorem plan_length : (plan analysis limits sources).length = variantCount analysis limits sources := by
  have keys := Fibers.grouped_keys_perm _ _ (groups_grouped analysis limits sources)
  rw [plan, List.length_flatMap, (keys.map _).sum_nat, variantCount, groupKeys]
  apply congrArg List.sum
  apply List.map_congr_left
  intro key _
  rw [keyOutlines, List.length_flatMap]
  simp only [phase_outlines_length]

def Within : Prop := sources.length ≤ limits.maxGoMembers ∧ (sources.map (·.source.utf8ByteSize)).sum ≤ limits.maxGoBytes

def reporting (coverage : Coverage) : Reporting Budget Facts (Report Budget Facts) :=
  (takeInAll analysis limits sources coverage).groups.foldlM (reportGroup analysis limits)
    ⟨[], (takeInAll analysis limits sources coverage).truncated, analysis.newBudget limits.maxFlowSteps⟩

theorem go_source_context_within (within : Within limits sources) : goSourceContext analysis limits sources coverage =
      ⟨(finished (reporting analysis limits sources coverage)).packages, (takeInAll analysis limits sources coverage).unselected,
        (finished (reporting analysis limits sources coverage)).truncated || analysis.cancelled⟩ := by
  have few : ¬ sources.length > limits.maxGoMembers := Nat.not_lt_of_le within.1
  have small : ¬ (sources.map (·.source.utf8ByteSize)).sum > limits.maxGoBytes := Nat.not_lt_of_le within.2
  unfold goSourceContext
  rw [if_neg (by simp [few, small])]
  rfl

theorem reporting_reports :
    Reports limits ⟨[], (takeInAll analysis limits sources coverage).truncated, analysis.newBudget limits.maxFlowSteps⟩
      (plan analysis limits sources) (reporting analysis limits sources coverage) := by
  have groups : (takeInAll analysis limits sources coverage).groups = Fibers.pushAll keyBefore (groupPairs analysis limits sources) := by
    rw [takeInAll, take_in_all]
    rfl
  rw [reporting, groups, ← group_plans]
  apply reports_fold limits
  · exact fun group _ report room => report_group_reports analysis limits group report room
  · exact Nat.zero_le _

theorem unbuilt_unselected (file : SourceFile) (member : file ∈ sources) (fits : eligible limits file = true)
    (unbuilt : isBuilt analysis file = false) : file.path ∈ (takeInAll analysis limits sources coverage).unselected := by
  rw [takeInAll, take_in_all]
  obtain ⟨i, here⟩ := List.mem_iff_getElem?.mp member
  have entry : (file, i) ∈ sources.zipIdx := List.mk_mem_zipIdx_iff_getElem?.mpr here
  exact List.mem_map.mpr ⟨(file, i), List.mem_filter.mpr ⟨entry, by rw [fits, unbuilt]; rfl⟩, rfl⟩

theorem plan_phases (variant : Outline) (member : variant ∈ plan analysis limits sources) :
    variant.phase = .runtime ∨ variant.phase = .test := by
  obtain ⟨key, _, inKey⟩ := List.mem_flatMap.mp member
  obtain ⟨phase, listed, inPhase⟩ := List.mem_flatMap.mp inKey
  obtain ⟨share, _, rfl⟩ := List.mem_map.mp inPhase
  have either : phase = .runtime ∨ phase = .test := by simpa using listed
  exact either

theorem partition_initial (variants more : List Outline) (initial : variants <+: more)
    (whole : Partition analysis limits sources key phase more) : Partition analysis limits sources key phase variants :=
  ⟨fun variant member => whole.members variant (initial.subset member),
    fun variant member => whole.inhabited variant (initial.subset member),
    whole.apart.sublist initial.sublist,
    fun unique => (whole.distinct unique).sublist (initial.sublist.map _),
    fun variant member => whole.everywhere variant (initial.subset member)⟩

theorem built_selected (entry : SourceFile × Nat) (inside : entry ∈ sources.zipIdx) (fits : eligible limits entry.1 = true)
    (platform : Platform) (builds : platformBuilds analysis entry.1 platform = true) (parsed : (analysis.parse entry.2).isSome = true) :
    ∃ phase, (phase = Phase.runtime ∨ phase = Phase.test) ∧
      entry ∈ selection analysis limits sources (groupKey analysis entry.1) phase platform ∧
        reached analysis limits sources (groupKey analysis entry.1) phase platform = true := by
  have joined : ∀ phase, (!isTest entry.1 || phase == .test) = true →
      entry ∈ selection analysis limits sources (groupKey analysis entry.1) phase platform := by
    intro phase own
    apply List.mem_filter.mpr
    refine ⟨inside, ?_⟩
    rw [joins, fits, own, builds, parsed, decide_eq_true rfl]
    rfl
  cases test : isTest entry.1 with
  | false =>
      have selected := joined .runtime (by rw [test]; rfl)
      refine ⟨.runtime, .inl rfl, selected, ?_⟩
      have some := List.ne_nil_of_mem selected
      simp [reached, some]
  | true =>
      have selected := joined .test (by rw [test]; rfl)
      refine ⟨.test, .inr rfl, selected, ?_⟩
      have some := List.ne_nil_of_mem selected
      have tested : ((selection analysis limits sources (groupKey analysis entry.1) .test platform).any fun entry => isTest entry.1) = true :=
        List.any_eq_true.mpr ⟨entry, selected, test⟩
      rw [reached, tested]
      simp [some]

theorem go_source_context_accounts (coverage : Coverage) (within : Within limits sources) :
    Accounts analysis limits sources (goSourceContext analysis limits sources coverage) := by
  have reports := reporting_reports analysis limits sources coverage
  have outlines : (goSourceContext analysis limits sources coverage).packages.map outline =
      (plan analysis limits sources).take limits.maxGoPackages := by
    rw [go_source_context_within analysis limits sources coverage within, reports.outlines]
    rfl
  have marked : (finished (reporting analysis limits sources coverage)).truncated = true →
      (goSourceContext analysis limits sources coverage).truncated = true := by
    intro marked
    rw [go_source_context_within analysis limits sources coverage within, marked]
    rfl
  have variants : ∀ key phase, phase = .runtime ∨ phase = .test →
      variantsOf (goSourceContext analysis limits sources coverage) key phase <+: phaseOutlines analysis limits sources key phase := by
    intro key phase reported
    rw [variantsOf, outlines, ← plan_of analysis limits sources key phase reported]
    exact (List.take_prefix _ _).filter _
  have whole : variantCount analysis limits sources ≤ limits.maxGoPackages → ∀ key phase, phase = .runtime ∨ phase = .test →
      variantsOf (goSourceContext analysis limits sources coverage) key phase = phaseOutlines analysis limits sources key phase := by
    intro room key phase reported
    rw [← plan_length] at room
    rw [variantsOf, outlines, List.take_of_length_le room, plan_of analysis limits sources key phase reported]
  have cut : limits.maxGoPackages < variantCount analysis limits sources →
      (goSourceContext analysis limits sources coverage).truncated = true := by
    intro crowded
    rw [← plan_length] at crowded
    cases outcome : reporting analysis limits sources coverage with
    | ok next =>
        have passed := reports.passed next outcome
        rw [List.length_nil] at passed
        omega
    | error last =>
        apply marked
        rw [outcome]
        exact (reports.stopped last outcome).2
  refine ⟨fun package member => ?_, fun key phase reported => ?_, fun room key phase reported platform modelled => ?_, cut,
    fun file member fits unbuilt => ?_, fun entry inside fits built parsed clean => ?_⟩
  · have listed := List.mem_map_of_mem (f := outline) member
    rw [outlines] at listed
    exact plan_phases analysis limits sources (outline package) (List.take_subset _ _ listed)
  · exact partition_initial analysis limits sources key phase _ _ (variants key phase reported)
      (phase_outlines_partition analysis limits sources key phase)
  · rw [whole room key phase reported]
    exact phase_outlines_count analysis limits sources key phase platform modelled
  · rw [go_source_context_within analysis limits sources coverage within]
    apply unbuilt_unselected analysis limits sources coverage file member fits
    exact List.any_eq_false.mpr fun platform modelled => by rw [unbuilt platform modelled]; exact Bool.false_ne_true
  · obtain ⟨platform, modelled, builds⟩ := built
    obtain ⟨phase, reported, selected, goes⟩ := built_selected analysis limits sources entry inside fits platform builds parsed
    have room : variantCount analysis limits sources ≤ limits.maxGoPackages := by
      by_contra crowded
      rw [cut (Nat.lt_of_not_le crowded)] at clean
      cases clean
    have count := phase_outlines_count analysis limits sources (groupKey analysis entry.1) phase platform modelled
    rw [if_pos goes] at count
    obtain ⟨variant, member, covers⟩ := List.countP_pos_iff.mp (by rw [count]; exact Nat.one_pos)
    rw [← whole room _ phase reported] at member
    refine ⟨phase, variant, member, platform, modelled, covers, selected, ?_⟩
    have members := ((phase_outlines_partition analysis limits sources (groupKey analysis entry.1) phase).members variant
      ((variants _ phase reported).subset member) platform modelled covers).2
    rw [members]
    exact List.mem_map_of_mem (f := (·.1.path)) selected

end Accounts

def emptyAnalysis : Analysis Unit Unit Unit :=
  ⟨⟨Char.isAlphanum, Constraint.alphanum_excludes⟩, Char.isDigit, fun _ => some (), fun _ => (),
    fun inputs _ _ => ({ files := inputs.map fun input => { path := input.1, facts := () }, truncated := false }, ()), false⟩

def twoPorts : List SourceFile := [⟨"a_linux.go", "package p"⟩, ⟨"a_windows.go", "package p"⟩]

theorem go_source_context_accounts_two_ports :
    Accounts emptyAnalysis {} twoPorts (goSourceContext emptyAnalysis {} twoPorts .complete) :=
  go_source_context_accounts emptyAnalysis {} twoPorts .complete ⟨by decide +kernel, by decide +kernel⟩

def twoCopies : List SourceFile := [⟨"a.go", "//go:build js\n\npackage p"⟩, ⟨"a.go", "//go:build !js\n\npackage p"⟩]

theorem cut_port_uncovered_and_copies_alike :
    (Within { maxGoPackages := 1 } twoPorts ∧
      ¬ ∀ platform ∈ platforms,
        (variantsOf (goSourceContext emptyAnalysis { maxGoPackages := 1 } twoPorts .complete) ("", "p") .runtime).countP
            (Outline.covers platform) =
          if reached emptyAnalysis { maxGoPackages := 1 } twoPorts ("", "p") .runtime platform then 1 else 0) ∧
    (Within {} twoCopies ∧
      ¬ ((variantsOf (goSourceContext emptyAnalysis {} twoCopies .complete) ("", "p") .runtime).map (·.members)).Nodup) := by
  refine ⟨⟨⟨by decide +kernel, by decide +kernel⟩, fun all => ?_⟩, ⟨by decide +kernel, by decide +kernel⟩, by decide +kernel⟩
  have windows := all ⟨"windows", "386", true⟩ (by decide +kernel)
  revert windows
  decide +kernel

end Filefacts.GoPackage
