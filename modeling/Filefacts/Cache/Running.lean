import Mathlib.Data.List.Perm.Basic

set_option autoImplicit false

namespace Filefacts.RunningSweeps

variable {Root : Type}

-- Vec::swap_remove: the last takes the place of the one removed.
def swapRemove (roots : List Root) (i : Nat) : List Root :=
  match roots.getLast? with
  | none => roots
  | some last => (roots.set i last).dropLast

theorem swap_remove_perm (roots : List Root) (i : Nat) (inside : i < roots.length) : (swapRemove roots i).Perm (roots.eraseIdx i) := by
  rcases List.eq_nil_or_concat roots with rfl | ⟨front, last, rfl⟩
  · cases inside
  · rw [List.concat_eq_append, List.length_append, List.length_singleton] at inside
    rw [List.concat_eq_append, swapRemove, List.getLast?_concat]
    dsimp only
    by_cases before : i < front.length
    · rw [List.set_append_left _ _ before, List.dropLast_concat, List.eraseIdx_append_of_lt_length before]
      exact (List.set_perm_cons_eraseIdx before last).trans (List.perm_append_singleton last _).symm
    · obtain rfl : i = front.length := by omega
      rw [List.set_append_right _ _ (Nat.le_refl _), List.eraseIdx_append_of_length_le (Nat.le_refl _), Nat.sub_self]
      simp

variable [DecidableEq Root]

-- RUNNING, and the roots of the sweeps that are not dropped yet. The lock makes a claim and a drop one step each.
structure Sweeps (Root : Type) where
  running : List Root
  held : List Root

def Sweeps.claim (sweeps : Sweeps Root) (root : Root) : Option (Sweeps Root) :=
  if root ∈ sweeps.running then none else some ⟨sweeps.running ++ [root], root :: sweeps.held⟩

def Sweeps.drop (sweeps : Sweeps Root) (root : Root) : Sweeps Root where
  running :=
    match sweeps.running.idxOf? root with
    | some i => swapRemove sweeps.running i
    | none => sweeps.running
  held := sweeps.held.erase root

inductive Reached : Sweeps Root → Prop
  | start : Reached ⟨[], []⟩
  | claimed (sweeps next : Sweeps Root) (root : Root) (reached : Reached sweeps) (granted : sweeps.claim root = some next) :
      Reached next
  | dropped (sweeps : Sweeps Root) (root : Root) (reached : Reached sweeps) (live : root ∈ sweeps.held) : Reached (sweeps.drop root)

theorem drop_running (sweeps : Sweeps Root) (root : Root) : (sweeps.drop root).running.Perm (sweeps.running.erase root) := by
  rw [List.erase_eq_eraseIdx, Sweeps.drop]
  cases found : sweeps.running.idxOf? root with
  | none => exact .refl _
  | some i =>
      obtain ⟨inside, -⟩ := List.idxOf?_eq_some_iff.mp found
      exact swap_remove_perm sweeps.running i inside

theorem reached_held (sweeps : Sweeps Root) (reached : Reached sweeps) : sweeps.running.Perm sweeps.held ∧ sweeps.held.Nodup := by
  induction reached with
  | start => exact ⟨.nil, List.nodup_nil⟩
  | claimed sweeps next root _ granted ih =>
      rw [Sweeps.claim, Option.ite_none_left_eq_some, ih.1.mem_iff] at granted
      obtain ⟨free, same⟩ := granted
      cases same
      exact ⟨(List.perm_append_singleton root _).trans (ih.1.cons root), List.nodup_cons.mpr ⟨free, ih.2⟩⟩
  | dropped sweeps root _ _ ih => exact ⟨(drop_running sweeps root).trans (ih.1.erase root), ih.2.erase root⟩

theorem one_sweep_each (sweeps : Sweeps Root) (reached : Reached sweeps) :
    sweeps.held.Nodup ∧ (sweeps.held = [] → sweeps.running = []) ∧
      ∀ root, (sweeps.claim root = none ↔ root ∈ sweeps.held) ∧
        (root ∈ sweeps.held → ((sweeps.drop root).claim root).isSome = true) := by
  obtain ⟨same, distinct⟩ := reached_held sweeps reached
  refine ⟨distinct, fun none => (none ▸ same).eq_nil, fun root => ⟨?_, fun live => ?_⟩⟩
  · rw [← same.mem_iff, Sweeps.claim]
    by_cases live : root ∈ sweeps.running <;> simp [live]
  · have after := reached_held _ (.dropped sweeps root reached live)
    have gone : root ∉ (sweeps.drop root).running := after.1.mem_iff.not.mpr distinct.not_mem_erase
    rw [Sweeps.claim, if_neg gone]
    rfl

theorem one_sweep_each_claimed : (Sweeps.mk [7] [7]).claim 7 = none :=
  ((one_sweep_each ⟨[7], [7]⟩ (.claimed _ _ 7 .start rfl)).2.2 7).1.mpr (List.mem_singleton_self 7)

end Filefacts.RunningSweeps
