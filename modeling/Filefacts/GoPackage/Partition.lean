import Filefacts.GoPackage.Variants

set_option autoImplicit false

namespace Filefacts.GoPackage

open Constraint PackageContext

section Spec

variable {Tree Budget Facts : Type} (analysis : Analysis Tree Budget Facts) (limits : ContextLimits) (sources : List SourceFile)

def ofPhase (key : String × String) (phase : Phase) (variant : Outline) : Bool :=
  decide ((variant.directory, variant.package) = key) && decide (variant.phase = phase)

def variantsOf (context : GoSourceContext Facts) (key : String × String) (phase : Phase) : List Outline :=
  (context.packages.map outline).filter (ofPhase key phase)

def Outline.covers (platform : Platform) (variant : Outline) : Bool :=
  variant.platforms.isEmpty || variant.platforms.contains platform.port

-- The variants of one group and phase, as the platforms they cover split it.
structure Partition (key : String × String) (phase : Phase) (variants : List Outline) : Prop where
  members : ∀ variant ∈ variants, ∀ platform ∈ platforms, variant.covers platform = true →
    reached analysis limits sources key phase platform = true ∧
      variant.members = (selection analysis limits sources key phase platform).map (·.1.path)
  inhabited : ∀ variant ∈ variants, ∃ platform ∈ platforms, variant.covers platform = true
  apart : variants.Pairwise fun first second => ∀ platform ∈ platforms, ∀ other ∈ platforms,
    first.covers platform = true → second.covers other = true →
      selection analysis limits sources key phase platform ≠ selection analysis limits sources key phase other
  distinct : (sources.map (·.path)).Nodup → (variants.map (·.members)).Nodup
  everywhere : ∀ variant ∈ variants, variant.platforms = [] ↔ ∃ chosen, ∀ platform ∈ platforms,
    reached analysis limits sources key phase platform = true ∧ selection analysis limits sources key phase platform = chosen

def groupKeys : List (String × String) := ((sources.zipIdx.filterMap (grouped analysis limits)).map Prod.fst).dedup

def variantCount : Nat :=
  ((groupKeys analysis limits sources).map fun key =>
    ([Phase.runtime, Phase.test].map fun phase =>
      ((platforms.filter (reached analysis limits sources key phase)).map (selection analysis limits sources key phase)).dedup.length).sum).sum

end Spec

theorem some_platform : ∃ platform, platform ∈ platforms := ⟨⟨"aix", "ppc64", true⟩, List.mem_cons_self⟩

theorem ports_distinct : (platforms.map Platform.port).Nodup := by decide +kernel

section Group

variable {Tree Budget Facts : Type} (analysis : Analysis Tree Budget Facts) (limits : ContextLimits) (sources : List SourceFile)
  (key : String × String) (phase : Phase)

theorem shares_grouped :
    Fibers.Grouped ((platforms.filter (reached analysis limits sources key phase)).map fun platform =>
      (selection analysis limits sources key phase platform, platform.port)) (shares analysis limits sources key phase) :=
  (Fibers.push_all_grouped (fun _ _ => false) (fun _ => rfl) (fun _ _ _ first _ => first) _).2

variable (share : List (SourceFile × Nat) × List String)

theorem share_shared (member : share ∈ shares analysis limits sources key phase) :
    ∃ platform ∈ platforms, reached analysis limits sources key phase platform = true ∧
      selection analysis limits sources key phase platform = share.1 := by
  have known := ((shares_grouped analysis limits sources key phase).present share.1).mp (List.mem_map_of_mem member)
  simp only [List.mem_map, List.mem_filter] at known
  obtain ⟨_, ⟨platform, ⟨modelled, goes⟩, rfl⟩, same⟩ := known
  exact ⟨platform, modelled, goes, same⟩

theorem share_ports (member : share ∈ shares analysis limits sources key phase) :
    share.2 = (platforms.filter fun platform => decide (selection analysis limits sources key phase platform = share.1) &&
      reached analysis limits sources key phase platform).map Platform.port := by
  rw [(shares_grouped analysis limits sources key phase).exact share member, Fibers.fiber, List.filter_map, List.map_map,
    List.filter_filter]
  rfl

theorem share_port (member : share ∈ shares analysis limits sources key phase)
    (platform : Platform) (modelled : platform ∈ platforms) :
    platform.port ∈ share.2 ↔ reached analysis limits sources key phase platform = true ∧
      selection analysis limits sources key phase platform = share.1 := by
  rw [share_ports analysis limits sources key phase share member, List.mem_map]
  simp only [List.mem_filter, Bool.and_eq_true, decide_eq_true_iff]
  constructor
  · rintro ⟨other, ⟨modelled', same, goes⟩, port⟩
    obtain rfl := List.inj_on_of_nodup_map ports_distinct modelled' modelled port
    exact ⟨goes, same⟩
  · rintro ⟨goes, same⟩
    exact ⟨platform, ⟨modelled, same, goes⟩, rfl⟩

def SharedByAll : Prop :=
  ∃ chosen, ∀ platform ∈ platforms,
    reached analysis limits sources key phase platform = true ∧ selection analysis limits sources key phase platform = chosen

theorem everywhere_iff (variants : List (List Nat × List String)) :
    everywhere variants = true ↔ ∃ variant, variants = [variant] ∧ variant.2.length = platforms.length := by
  unfold everywhere
  split
  · next selected ports => simp
  · next other =>
      refine iff_of_false Bool.false_ne_true ?_
      rintro ⟨⟨selected, ports⟩, rfl, _⟩
      exact other selected ports rfl

theorem everywhere_shares :
    everywhere ((shares analysis limits sources key phase).map (Prod.map (indicesOf analysis limits sources key) id)) = true ↔
      SharedByAll analysis limits sources key phase := by
  rw [everywhere_iff]
  constructor
  · rintro ⟨variant, single, all⟩
    obtain ⟨share, only, rfl⟩ := List.map_eq_singleton_iff.mp single
    have member : share ∈ shares analysis limits sources key phase := only ▸ List.mem_singleton_self share
    refine ⟨share.1, fun platform modelled => ?_⟩
    have ports := share_ports analysis limits sources key phase share member
    have full := all
    rw [Prod.map_snd, id_eq, ports, List.length_map, List.length_filter_eq_length_iff] at full
    obtain ⟨same, goes⟩ := (Bool.and_eq_true _ _).mp (full platform modelled)
    exact ⟨goes, of_decide_eq_true same⟩
  · rintro ⟨chosen, all⟩
    obtain ⟨first, modelled⟩ := some_platform
    have known := Fibers.grouped_class _ _ (shares_grouped analysis limits sources key phase) chosen
      ⟨_, List.mem_map_of_mem (List.mem_filter.mpr ⟨modelled, (all first modelled).1⟩), (all first modelled).2⟩
    have single : ∀ share ∈ shares analysis limits sources key phase, share.1 = chosen := by
      intro share member
      obtain ⟨platform, modelled, _, same⟩ := share_shared analysis limits sources key phase share member
      rw [← same, (all platform modelled).2]
    have keys : Fibers.keys (shares analysis limits sources key phase) = [chosen] := by
      apply List.perm_singleton.mp
      apply (List.perm_ext_iff_of_nodup (shares_grouped analysis limits sources key phase).distinct (List.nodup_singleton chosen)).mpr
      intro other
      rw [List.mem_singleton, Fibers.keys, List.mem_map]
      constructor
      · rintro ⟨share, member, rfl⟩
        exact single share member
      · exact fun same => ⟨_, known, same.symm⟩
    obtain ⟨share, only, rfl⟩ := List.map_eq_singleton_iff.mp keys
    refine ⟨_, by rw [only]; rfl, ?_⟩
    have member : share ∈ shares analysis limits sources key phase := only ▸ List.mem_singleton_self share
    rw [Prod.map_snd, id_eq, share_ports analysis limits sources key phase share member, List.length_map,
      List.length_filter_eq_length_iff]
    intro platform modelled
    obtain ⟨goes, same⟩ := all platform modelled
    exact (Bool.and_eq_true _ _).mpr ⟨decide_eq_true same, goes⟩

def shareOutline (all : Bool) (share : List (SourceFile × Nat) × List String) : Outline :=
  ⟨key.1, key.2, phase, if all then [] else share.2, share.1.map (·.1.path)⟩

def phaseOutlines : List Outline :=
  (shares analysis limits sources key phase).map (shareOutline key phase
    (everywhere ((shares analysis limits sources key phase).map (Prod.map (indicesOf analysis limits sources key) id))))

theorem phase_plan_eq :
    phasePlan analysis key (membersOf analysis limits sources key) phase = phaseOutlines analysis limits sources key phase := by
  unfold phasePlan phaseOutlines
  rw [variants_for_eq, List.map_map]
  apply List.map_congr_left
  intro share member
  obtain ⟨platform, modelled, _, same⟩ := share_shared analysis limits sources key phase share member
  have members := indices_of_members analysis limits sources key phase platform modelled
  rw [same] at members
  rw [Function.comp_apply, outlineOf, Prod.map_fst, members, List.map_map]
  rfl

theorem outline_covers (member : share ∈ shares analysis limits sources key phase)
    {platform : Platform} (modelled : platform ∈ platforms) :
    (shareOutline key phase
      (everywhere ((shares analysis limits sources key phase).map (Prod.map (indicesOf analysis limits sources key) id))) share).covers
        platform = true ↔
      reached analysis limits sources key phase platform = true ∧ selection analysis limits sources key phase platform = share.1 := by
  unfold shareOutline Outline.covers
  cases all : everywhere ((shares analysis limits sources key phase).map (Prod.map (indicesOf analysis limits sources key) id)) with
  | true =>
      obtain ⟨chosen, shared⟩ := (everywhere_shares analysis limits sources key phase).mp all
      obtain ⟨goes, same⟩ := shared platform modelled
      obtain ⟨other, modelled', _, same'⟩ := share_shared analysis limits sources key phase share member
      refine iff_of_true rfl ⟨goes, ?_⟩
      rw [same, ← same', (shared other modelled').2]
  | false =>
      have some := Fibers.grouped_inhabited (shares_grouped analysis limits sources key phase) member
      rw [if_neg Bool.false_ne_true, Bool.or_eq_true_iff, List.isEmpty_iff, or_iff_right some, List.contains_iff_mem]
      exact share_port analysis limits sources key phase share member platform modelled

theorem selection_paths (first second : Platform) (unique : (sources.map (·.path)).Nodup)
    (same : (selection analysis limits sources key phase first).map (·.1.path) =
      (selection analysis limits sources key phase second).map (·.1.path)) :
    selection analysis limits sources key phase first = selection analysis limits sources key phase second := by
  have apart : (sources.zipIdx.map (·.1.path)).Nodup := by
    have paths : sources.zipIdx.map (·.1.path) = sources.map (·.path) := by
      conv => rhs; rw [← List.zipIdx_map_fst 0 sources, List.map_map]
      rfl
    rwa [paths]
  have carried : ∀ platform other, (selection analysis limits sources key phase platform).map (·.1.path) =
      (selection analysis limits sources key phase other).map (·.1.path) → ∀ entry ∈ sources.zipIdx,
        joins analysis limits key phase platform entry = true → joins analysis limits key phase other entry = true := by
    intro platform other equal entry member joined
    have path := List.mem_map_of_mem (f := (·.1.path)) (List.mem_filter.mpr ⟨member, joined⟩)
    obtain ⟨entry', member', samePath⟩ := List.mem_map.mp (equal ▸ path)
    obtain ⟨inside, joined'⟩ := List.mem_filter.mp member'
    exact List.inj_on_of_nodup_map apart inside member samePath ▸ joined'
  apply List.filter_congr
  intro entry member
  exact Bool.eq_iff_iff.mpr ⟨carried first second same entry member, carried second first same.symm entry member⟩

theorem phase_outlines_partition :
    Partition analysis limits sources key phase (phaseOutlines analysis limits sources key phase) := by
  have distinct := (shares_grouped analysis limits sources key phase).distinct
  have apart : (shares analysis limits sources key phase).Pairwise fun first second => first.1 ≠ second.1 := List.pairwise_map.mp distinct
  refine ⟨?_, ?_, ?_, ?_, ?_⟩
  · intro variant member platform modelled covers
    obtain ⟨share, shared, rfl⟩ := List.mem_map.mp member
    obtain ⟨goes, same⟩ := (outline_covers analysis limits sources key phase share shared modelled).mp covers
    exact ⟨goes, by rw [same]; rfl⟩
  · intro variant member
    obtain ⟨share, shared, rfl⟩ := List.mem_map.mp member
    obtain ⟨platform, modelled, both⟩ := share_shared analysis limits sources key phase share shared
    exact ⟨platform, modelled, (outline_covers analysis limits sources key phase share shared modelled).mpr both⟩
  · apply List.pairwise_map.mpr
    apply apart.imp_of_mem
    intro first second member member' different platform modelled other modelled' covers covers' equal
    apply different
    rw [← ((outline_covers analysis limits sources key phase first member modelled).mp covers).2, equal,
      ((outline_covers analysis limits sources key phase second member' modelled').mp covers').2]
  · intro unique
    rw [phaseOutlines, List.map_map]
    apply List.pairwise_map.mpr
    apply apart.imp_of_mem
    intro first second member member' different equal
    obtain ⟨platform, _, _, same⟩ := share_shared analysis limits sources key phase first member
    obtain ⟨other, _, _, same'⟩ := share_shared analysis limits sources key phase second member'
    apply different
    rw [← same, ← same']
    apply selection_paths analysis limits sources key phase platform other unique
    rw [same, same']
    exact equal
  · intro variant member
    obtain ⟨share, shared, rfl⟩ := List.mem_map.mp member
    have some := Fibers.grouped_inhabited (shares_grouped analysis limits sources key phase) shared
    refine Iff.trans ?_ (everywhere_shares analysis limits sources key phase)
    unfold shareOutline
    cases everywhere ((shares analysis limits sources key phase).map (Prod.map (indicesOf analysis limits sources key) id)) with
    | true => exact iff_of_true rfl rfl
    | false => exact iff_of_false some Bool.false_ne_true

theorem phase_outlines_count (platform : Platform) (modelled : platform ∈ platforms) :
    (phaseOutlines analysis limits sources key phase).countP (Outline.covers platform) =
      if reached analysis limits sources key phase platform then 1 else 0 := by
  have grouped := shares_grouped analysis limits sources key phase
  have covers : ∀ share ∈ shares analysis limits sources key phase,
      (Outline.covers platform ∘ shareOutline key phase
        (everywhere ((shares analysis limits sources key phase).map (Prod.map (indicesOf analysis limits sources key) id)))) share = true ↔
      (reached analysis limits sources key phase platform &&
        share.1 == selection analysis limits sources key phase platform) = true := by
    intro share member
    rw [Bool.and_eq_true, beq_iff_eq, eq_comm (a := share.1)]
    exact outline_covers analysis limits sources key phase share member modelled
  rw [phaseOutlines, List.countP_map, List.countP_congr covers]
  cases goes : reached analysis limits sources key phase platform with
  | false => simp
  | true =>
      have present := (grouped.present (selection analysis limits sources key phase platform)).mpr
        ⟨_, List.mem_map_of_mem (List.mem_filter.mpr ⟨modelled, goes⟩), rfl⟩
      have once := List.count_eq_one_of_mem grouped.distinct present
      rw [List.count_eq_countP, Fibers.keys, List.countP_map] at once
      simp only [Bool.true_and, if_true]
      exact once

theorem phase_outlines_length :
    (phaseOutlines analysis limits sources key phase).length =
      ((platforms.filter (reached analysis limits sources key phase)).map (selection analysis limits sources key phase)).dedup.length := by
  have keys := (Fibers.grouped_keys_perm _ _ (shares_grouped analysis limits sources key phase)).length_eq
  rw [Fibers.keys, List.length_map, List.map_map] at keys
  rw [phaseOutlines, List.length_map, keys]
  rfl

end Group

end Filefacts.GoPackage
