import Filefacts.Lib.Keyed

set_option autoImplicit false

namespace Filefacts.Source

open Keyed (Map)

universe u v

variable {Name : Type u} {Value : Type v} [LinearOrder Name]

-- A layer is opened over a flat map, over nothing, or under another layer, never over two of them.
variable (Name Value) in
inductive Scope where
  | flat (base : Option (Map Name Value)) (bindings : Map Name (Option Value))
  | under (parent : Scope) (bindings : Map Name (Option Value))

namespace Scope

def openOver (base : Option (Map Name Value)) : Scope Name Value := .flat base Map.empty

def openUnder (parent : Scope Name Value) : Scope Name Value := .under parent Map.empty

def bindings : Scope Name Value → Map Name (Option Value)
  | .flat _ bindings => bindings
  | .under _ bindings => bindings

def withBindings (changed : Map Name (Option Value)) : Scope Name Value → Scope Name Value
  | .flat base _ => .flat base changed
  | .under parent _ => .under parent changed

def get : Scope Name Value → Name → Option Value
  | .flat base bindings, name =>
      match bindings.get name with
      | some value => value
      | none => base.bind fun base => base.get name
  | .under parent bindings, name =>
      match bindings.get name with
      | some value => value
      | none => parent.get name

def inherited : Scope Name Value → Name → Option Value
  | .flat base _, name => base.bind fun base => base.get name
  | .under parent _, name => parent.get name

def insert (scope : Scope Name Value) (name : Name) (value : Value) : Scope Name Value :=
  scope.withBindings (scope.bindings.insert name (some value))

def remove (scope : Scope Name Value) (name : Name) : Scope Name Value :=
  if (scope.inherited name).isSome then scope.withBindings (scope.bindings.insert name none)
  else scope.withBindings (scope.bindings.remove name)

def names (scope : Scope Name Value) : List Name := scope.bindings.keys

def save (scope : Scope Name Value) (listed : List Name) : List (Name × Option Value) :=
  listed.map fun name => (name, scope.get name)

def rebind (scope : Scope Name Value) : Name × Option Value → Scope Name Value
  | (name, some value) => scope.insert name value
  | (name, none) => scope.remove name

def restore (scope : Scope Name Value) (saved : List (Name × Option Value)) : Scope Name Value := saved.foldl rebind scope

def flattened (map : Map Name Value) : Name × Option Value → Map Name Value
  | (name, some value) => map.insert name value
  | (name, none) => map.remove name

def intoMap (scope : Scope Name Value) : Map Name Value :=
  let base := match scope with
    | .flat base _ => base.getD Map.empty
    | .under _ _ => Map.empty
  scope.bindings.entries.foldl flattened base

def base : Scope Name Value → Option (Map Name Value) ⊕ Scope Name Value
  | .flat base _ => .inl base
  | .under parent _ => .inr parent

variable (scope : Scope Name Value) (changed : Map Name (Option Value)) (name : Name) (value : Value)

@[simp] theorem bindings_with : (scope.withBindings changed).bindings = changed := by
  cases scope <;> rfl

@[simp] theorem inherited_with : (scope.withBindings changed).inherited name = scope.inherited name := by
  cases scope <;> rfl

@[simp] theorem base_with : (scope.withBindings changed).base = scope.base := by
  cases scope <;> rfl

theorem get_bound {value : Option Value} (bound : scope.bindings.get name = some value) : scope.get name = value := by
  cases scope with
  | flat base bindings =>
      rw [get]
      rw [Scope.bindings] at bound
      rw [bound]
  | under parent bindings =>
      rw [get]
      rw [Scope.bindings] at bound
      rw [bound]

theorem get_unbound (unbound : scope.bindings.get name = none) : scope.get name = scope.inherited name := by
  cases scope with
  | flat base bindings =>
      rw [get, inherited]
      rw [Scope.bindings] at unbound
      rw [unbound]
  | under parent bindings =>
      rw [get, inherited]
      rw [Scope.bindings] at unbound
      rw [unbound]

theorem get_alike {first second : Scope Name Value} {name : Name}
    (bound : first.bindings.get name = second.bindings.get name)
    (below : first.inherited name = second.inherited name) : first.get name = second.get name := by
  cases found : second.bindings.get name with
  | some value => rw [get_bound first name (bound.trans found), get_bound second name found]
  | none => rw [get_unbound first name (bound.trans found), get_unbound second name found, below]

theorem get_insert_same : (scope.insert name value).get name = some value := by
  refine get_bound _ name ?_
  rw [insert, bindings_with, Map.get_insert_same]

variable (query : Name) (binding : Name × Option Value) (saved : List (Name × Option Value))

theorem get_insert_other (value : Value) (apart : query ≠ name) : (scope.insert name value).get query = scope.get query := by
  refine get_alike ?_ ?_
  · rw [insert, bindings_with, Map.get_insert_other _ name query _ apart]
  · rw [insert, inherited_with]

theorem get_remove_same : (scope.remove name).get name = none := by
  by_cases bound : (scope.inherited name).isSome
  · refine get_bound _ name ?_
    rw [remove, if_pos bound, bindings_with, Map.get_insert_same]
  · rw [remove, if_neg bound, get_unbound _ name (by rw [bindings_with, Map.get_remove_same]), inherited_with]
    exact Option.not_isSome_iff_eq_none.mp bound

theorem get_remove_other (apart : query ≠ name) : (scope.remove name).get query = scope.get query := by
  by_cases bound : (scope.inherited name).isSome
  · rw [remove, if_pos bound]
    refine get_alike ?_ (inherited_with scope _ query)
    rw [bindings_with, Map.get_insert_other _ name query _ apart]
  · rw [remove, if_neg bound]
    refine get_alike ?_ (inherited_with scope _ query)
    rw [bindings_with, Map.get_remove_other _ name query apart]

theorem get_insert : (scope.insert name value).get = Function.update scope.get name (some value) := by
  funext query
  by_cases same : query = name
  · rw [same, get_insert_same, Function.update_self]
  · rw [get_insert_other scope name query value same, Function.update_of_ne same]

theorem get_remove : (scope.remove name).get = Function.update scope.get name none := by
  funext query
  by_cases same : query = name
  · rw [same, get_remove_same, Function.update_self]
  · rw [get_remove_other scope name query same, Function.update_of_ne same]

theorem get_rebind : (scope.rebind binding).get = Function.update scope.get binding.1 binding.2 := by
  obtain ⟨name, value⟩ := binding
  cases value with
  | some value => exact get_insert scope name value
  | none => exact get_remove scope name

@[simp] theorem base_insert : (scope.insert name value).base = scope.base := base_with scope _

@[simp] theorem base_remove : (scope.remove name).base = scope.base := by
  rw [remove]
  split_ifs <;> exact base_with scope _

theorem base_rebind : (scope.rebind binding).base = scope.base := by
  obtain ⟨name, value⟩ := binding
  cases value with
  | some value => exact base_insert scope name value
  | none => exact base_remove scope name

def restored (map : Name → Option Value) (saved : List (Name × Option Value)) : Name → Option Value :=
  saved.foldl (fun map binding => Function.update map binding.1 binding.2) map

theorem get_restore : (scope.restore saved).get = restored scope.get saved := by
  induction saved generalizing scope with
  | nil => rfl
  | cons binding rest ih =>
      rw [restore, restored, List.foldl_cons, List.foldl_cons, ← get_rebind]
      exact ih (scope.rebind binding)

theorem base_restore : (scope.restore saved).base = scope.base := by
  induction saved generalizing scope with
  | nil => rfl
  | cons binding rest ih =>
      rw [restore, List.foldl_cons]
      exact (ih (scope.rebind binding)).trans (base_rebind scope binding)

theorem restored_other (map : Name → Option Value) (saved : List (Name × Option Value)) (query : Name)
    (unsaved : query ∉ saved.map Prod.fst) : restored map saved query = map query := by
  induction saved generalizing map with
  | nil => rfl
  | cons binding rest ih =>
      have parts := List.ne_and_not_mem_of_not_mem_cons unsaved
      rw [restored, List.foldl_cons]
      refine (ih _ parts.2).trans ?_
      rw [Function.update_of_ne parts.1]

theorem restored_saved (answers map : Name → Option Value) (listed : List Name) (name : Name) (member : name ∈ listed) :
    restored map (listed.map fun name => (name, answers name)) name = answers name := by
  induction listed generalizing map with
  | nil => exact absurd member List.not_mem_nil
  | cons head rest ih =>
      rw [List.map_cons, restored, List.foldl_cons]
      by_cases later : name ∈ rest
      · exact ih _ later
      · have same : name = head := (List.mem_cons.mp member).resolve_right later
        refine (restored_other _ _ name ?_).trans ?_
        · rw [List.map_map]
          exact fun listed => later (by simpa using listed)
        · rw [same, Function.update_self]

theorem differing_named (differs : scope.get name ≠ scope.inherited name) : name ∈ scope.names := by
  cases found : scope.bindings.get name with
  | none => exact absurd (get_unbound scope name found) differs
  | some value => exact Map.get_listed scope.bindings name value found

theorem get_flattened (map : Map Name Value) (name query : Name) (value : Option Value) :
    (flattened map (name, value)).get query = if query = name then value else map.get query := by
  by_cases same : query = name
  · rw [if_pos same, same]
    cases value with
    | some value => exact Map.get_insert_same map name value
    | none => exact Map.get_remove_same map name
  · rw [if_neg same]
    cases value with
    | some value => exact Map.get_insert_other map name query value same
    | none => exact Map.get_remove_other map name query same

theorem get_overlaid (entries : List (Name × Option Value)) (sorted : Keyed.Sorted entries) (map : Map Name Value) (query : Name) :
    (entries.foldl flattened map).get query = (Keyed.find query entries).getD (map.get query) := by
  induction entries generalizing map with
  | nil => rfl
  | cons entry rest ih =>
      obtain ⟨name, value⟩ := entry
      have parts := List.pairwise_cons.mp sorted
      rw [List.foldl_cons, ih parts.2, get_flattened]
      by_cases same : query = name
      · rw [if_pos same, same, Keyed.find_head]
        cases found : Keyed.find name rest with
        | none => rfl
        | some later => exact absurd (parts.1 name (Keyed.find_listed name later rest found)) (lt_irrefl name)
      · rw [if_neg same, Keyed.find_tail query name value rest same]

theorem get_into_map (base : Option (Map Name Value)) (bindings : Map Name (Option Value)) (query : Name) :
    (intoMap (.flat base bindings)).get query = (Scope.flat base bindings).get query := by
  rw [intoMap]
  refine (get_overlaid bindings.entries bindings.sorted _ query).trans ?_
  have below : (base.getD Map.empty).get query = base.bind fun base => base.get query := by
    cases base <;> rfl
  rw [get, ← below]
  change (bindings.get query).getD _ = _
  cases bindings.get query <;> rfl

end Scope

structure Slot (Name : Type u) (Value : Type v) [LinearOrder Name] where
  scope : Scope Name Value
  parent : Option Nat

-- The layers in the order they were opened; a dropped or consumed one leaves its place empty.
structure World (Name : Type u) (Value : Type v) [LinearOrder Name] where
  slots : List (Option (Slot Name Value))
  saves : List (List (Name × Option Value))
  maps : List (Map Name Value)

inductive Op (Name : Type u) (Value : Type v) [LinearOrder Name] where
  | flat (base : Option (Map Name Value))
  | under (parent : Nat)
  | insert (layer : Nat) (name : Name) (value : Value)
  | remove (layer : Nat) (name : Name)
  | save (layer : Nat) (listed : List Name)
  | restore (layer : Nat) (save : Nat)
  | intoMap (layer : Nat)
  | drop (layer : Nat)

namespace World

def start : World Name Value := ⟨[], [], []⟩

def live (world : World Name Value) (layer : Nat) : Option (Slot Name Value) := (world.slots[layer]?).join

def opened (world : World Name Value) (slot : Slot Name Value) : World Name Value :=
  { world with slots := world.slots ++ [some slot] }

-- A layer some other layer reads through is borrowed, and nobody may change or consume it.
def Borrowed (world : World Name Value) (layer : Nat) : Prop :=
  ∃ slot ∈ world.slots, ∃ child, slot = some child ∧ child.parent = some layer

def borrowed (world : World Name Value) (layer : Nat) : Bool :=
  world.slots.any fun slot => slot.any fun child => child.parent == some layer

theorem borrowed_iff (world : World Name Value) (layer : Nat) : world.borrowed layer = true ↔ world.Borrowed layer := by
  simp only [borrowed, Borrowed, List.any_eq_true, Option.any_eq_true, beq_iff_eq]

def owned (world : World Name Value) (layer : Nat) : Option (Slot Name Value) :=
  if world.borrowed layer then none else world.live layer

def placed (world : World Name Value) (layer : Nat) (slot : Option (Slot Name Value)) : World Name Value :=
  { world with slots := world.slots.set layer slot }

def collected (world : World Name Value) (layer : Nat) (map : Map Name Value) : World Name Value :=
  { world with slots := world.slots.set layer none, maps := world.maps ++ [map] }

def step (world : World Name Value) : Op Name Value → Option (World Name Value)
  | .flat base => some (world.opened ⟨Scope.openOver base, none⟩)
  | .under parent => do
      let slot ← world.live parent
      some (world.opened ⟨slot.scope.openUnder, some parent⟩)
  | .insert layer name value => do
      let slot ← world.owned layer
      some (world.placed layer (some { slot with scope := slot.scope.insert name value }))
  | .remove layer name => do
      let slot ← world.owned layer
      some (world.placed layer (some { slot with scope := slot.scope.remove name }))
  | .save layer listed => do
      let slot ← world.live layer
      some { world with saves := world.saves ++ [slot.scope.save listed] }
  | .restore layer save => do
      let slot ← world.owned layer
      let saved ← world.saves[save]?
      some (world.placed layer (some { slot with scope := slot.scope.restore saved }))
  | .intoMap layer => do
      let slot ← world.owned layer
      match slot.parent with
      | some _ => none
      | none => some (world.collected layer slot.scope.intoMap)
  | .drop layer => do
      let _ ← world.owned layer
      some (world.placed layer none)

def run (ops : List (Op Name Value)) (world : World Name Value) : Option (World Name Value) := ops.foldlM step world

end World

-- The same operations on maps that are copied whole when a layer is opened.
structure Copies (Name : Type u) (Value : Type v) where
  layers : List (Option (Name → Option Value))
  saves : List (List (Name × Option Value))
  maps : List (Name → Option Value)

namespace Copies

def start : Copies Name Value := ⟨[], [], []⟩

def live (copies : Copies Name Value) (layer : Nat) : Option (Name → Option Value) := (copies.layers[layer]?).join

def opened (copies : Copies Name Value) (map : Name → Option Value) : Copies Name Value :=
  { copies with layers := copies.layers ++ [some map] }

def placed (copies : Copies Name Value) (layer : Nat) (map : Option (Name → Option Value)) : Copies Name Value :=
  { copies with layers := copies.layers.set layer map }

def collected (copies : Copies Name Value) (layer : Nat) (map : Name → Option Value) : Copies Name Value :=
  { copies with layers := copies.layers.set layer none, maps := copies.maps ++ [map] }

def step (copies : Copies Name Value) : Op Name Value → Option (Copies Name Value)
  | .flat base => some (copies.opened fun name => base.bind fun base => base.get name)
  | .under parent => do
      let map ← copies.live parent
      some (copies.opened map)
  | .insert layer name value => do
      let map ← copies.live layer
      some (copies.placed layer (some (Function.update map name (some value))))
  | .remove layer name => do
      let map ← copies.live layer
      some (copies.placed layer (some (Function.update map name none)))
  | .save layer listed => do
      let map ← copies.live layer
      some { copies with saves := copies.saves ++ [listed.map fun name => (name, map name)] }
  | .restore layer save => do
      let map ← copies.live layer
      let saved ← copies.saves[save]?
      some (copies.placed layer (some (Scope.restored map saved)))
  | .intoMap layer => do
      let map ← copies.live layer
      some (copies.collected layer map)
  | .drop layer => do
      let _ ← copies.live layer
      some (copies.placed layer none)

def run (ops : List (Op Name Value)) (copies : Copies Name Value) : Option (Copies Name Value) := ops.foldlM step copies

end Copies

namespace World

def copied (world : World Name Value) : Copies Name Value :=
  ⟨world.slots.map (Option.map fun slot => slot.scope.get), world.saves, world.maps.map fun map => map.get⟩

-- What a step does to the places of the layers, and the layer it may change.
inductive Moves (world : World Name Value) : Option Nat → List (Option (Slot Name Value)) → Prop where
  | flat (base : Option (Map Name Value)) : Moves world none (world.slots ++ [some ⟨Scope.openOver base, none⟩])
  | under (parent : Nat) (held : Slot Name Value) (live : world.live parent = some held) :
      Moves world none (world.slots ++ [some ⟨held.scope.openUnder, some parent⟩])
  | rebound (layer : Nat) (slot : Slot Name Value) (scope : Scope Name Value) (owned : world.owned layer = some slot)
      (kept : scope.base = slot.scope.base) : Moves world (some layer) (world.slots.set layer (some { slot with scope := scope }))
  | closed (layer : Nat) (slot : Slot Name Value) (owned : world.owned layer = some slot) :
      Moves world (some layer) (world.slots.set layer none)
  | still : Moves world none world.slots

end World

def Op.target : Op Name Value → Option Nat
  | .flat _ | .under _ | .save _ _ => none
  | .insert layer _ _ | .remove layer _ | .restore layer _ | .intoMap layer | .drop layer => some layer

namespace World

variable (world after : World Name Value) (layer : Nat) (slot : Slot Name Value)

variable (op : Op Name Value) (ops : List (Op Name Value))

theorem step_moves (stepped : world.step op = some after) : Moves world op.target after.slots := by
  cases op with
  | flat base =>
      obtain rfl := Option.some.inj stepped
      exact .flat base
  | under parent =>
      obtain ⟨held, live, built⟩ := Option.bind_eq_some_iff.mp stepped
      obtain rfl := Option.some.inj built
      exact .under parent held live
  | insert layer name value =>
      obtain ⟨slot, owned, built⟩ := Option.bind_eq_some_iff.mp stepped
      obtain rfl := Option.some.inj built
      exact .rebound layer slot _ owned (Scope.base_insert slot.scope name value)
  | remove layer name =>
      obtain ⟨slot, owned, built⟩ := Option.bind_eq_some_iff.mp stepped
      obtain rfl := Option.some.inj built
      exact .rebound layer slot _ owned (Scope.base_remove slot.scope name)
  | save layer listed =>
      obtain ⟨slot, live, built⟩ := Option.bind_eq_some_iff.mp stepped
      obtain rfl := Option.some.inj built
      exact .still
  | restore layer save =>
      obtain ⟨slot, owned, built⟩ := Option.bind_eq_some_iff.mp stepped
      obtain ⟨saved, recorded, built⟩ := Option.bind_eq_some_iff.mp built
      obtain rfl := Option.some.inj built
      exact .rebound layer slot _ owned (Scope.base_restore slot.scope saved)
  | intoMap layer =>
      obtain ⟨slot, owned, built⟩ := Option.bind_eq_some_iff.mp stepped
      split at built
      · cases built
      · obtain rfl := Option.some.inj built
        exact .closed layer slot owned
  | drop layer =>
      obtain ⟨slot, owned, built⟩ := Option.bind_eq_some_iff.mp stepped
      obtain rfl := Option.some.inj built
      exact .closed layer slot owned

theorem owned_live (owned : world.owned layer = some slot) : world.live layer = some slot ∧ ¬world.Borrowed layer := by
  rw [World.owned] at owned
  by_cases borrowed : world.borrowed layer = true
  · rw [if_pos borrowed] at owned
    cases owned
  · rw [if_neg borrowed] at owned
    exact ⟨owned, fun held => borrowed ((borrowed_iff world layer).mpr held)⟩

theorem moves_unborrowed (slots : List (Option (Slot Name Value)))
    (moves : Moves world (some layer) slots) : ¬world.Borrowed layer := by
  cases moves with
  | rebound _ slot scope owned kept => exact (owned_live world layer slot owned).2
  | closed _ slot owned => exact (owned_live world layer slot owned).2

theorem live_place (live : world.live layer = some slot) : world.slots[layer]? = some (some slot) := Option.join_eq_some_iff.mp live

theorem live_inside (live : world.live layer = some slot) : layer < world.slots.length := by
  obtain ⟨inside, -⟩ := List.getElem?_eq_some_iff.mp (live_place world layer slot live)
  exact inside

theorem parent_borrowed {parent : Nat} {slot : Slot Name Value}
    (live : world.live layer = some slot) (under : slot.parent = some parent) : world.Borrowed parent :=
  ⟨some slot, List.mem_of_getElem? (live_place world layer slot live), slot, rfl, under⟩

theorem live_pushed_old {fresh : Option (Slot Name Value)} {layer : Nat} {slot : Slot Name Value}
    (pushed : after.slots = world.slots ++ [fresh]) (live : world.live layer = some slot) : after.live layer = some slot := by
  rw [World.live, pushed, List.getElem?_append_left (live_inside world layer slot live)]
  exact live

theorem live_pushed {fresh slot : Slot Name Value} {layer : Nat}
    (pushed : after.slots = world.slots ++ [some fresh]) (live : after.live layer = some slot) :
    world.live layer = some slot ∨ slot = fresh := by
  have inside := live_inside after layer slot live
  rw [pushed, List.length_append, List.length_singleton] at inside
  rw [World.live, pushed] at live
  rcases Nat.lt_succ_iff_lt_or_eq.mp inside with older | rfl
  · rw [List.getElem?_append_left older] at live
    exact Or.inl live
  · rw [List.getElem?_concat_length] at live
    exact Or.inr (Option.some.inj live).symm

theorem live_set_other (other : Nat) (slot : Option (Slot Name Value))
    (placed : after.slots = world.slots.set layer slot) (apart : other ≠ layer) : after.live other = world.live other := by
  rw [World.live, placed, List.getElem?_set_ne (Ne.symm apart)]
  rfl

theorem live_set_same {slot : Option (Slot Name Value)} {older : Slot Name Value}
    (placed : after.slots = world.slots.set layer slot) (live : world.live layer = some older) : after.live layer = slot := by
  rw [World.live, placed, List.getElem?_set_self (live_inside world layer older live)]
  rfl

-- A layer with a parent reads through the layer its parent is now.
def Held (world : World Name Value) : Prop :=
  ∀ layer slot, world.live layer = some slot →
    match slot.parent with
    | none => ∃ base, slot.scope.base = .inl base
    | some parent => ∃ held, world.live parent = some held ∧ slot.scope.base = .inr held.scope

def Undisturbed (world after : World Name Value) (target : Option Nat) : Prop :=
  ∀ layer slot, world.live layer = some slot →
    (target ≠ some layer → after.live layer = some slot) ∧
    (∀ changed, after.live layer = some changed → changed.scope.base = slot.scope.base ∧ changed.parent = slot.parent) ∧
    (target = some layer → ∀ parent, slot.parent = some parent → after.live parent = world.live parent)

theorem moves_undisturbed (target : Option Nat) (moves : Moves world target after.slots) :
    Undisturbed world after target := by
  intro layer slot live
  generalize same : after.slots = slots at moves
  cases moves with
  | flat base =>
      have kept := live_pushed_old world after same live
      refine ⟨fun _ => kept, fun changed now => ?_, fun picked => nomatch picked⟩
      obtain rfl := Option.some.inj (kept.symm.trans now)
      exact ⟨rfl, rfl⟩
  | under parent held below =>
      have kept := live_pushed_old world after same live
      refine ⟨fun _ => kept, fun changed now => ?_, fun picked => nomatch picked⟩
      obtain rfl := Option.some.inj (kept.symm.trans now)
      exact ⟨rfl, rfl⟩
  | rebound picked older scope owned kept =>
      obtain ⟨alive, free⟩ := owned_live world picked older owned
      have away := fun other apart => live_set_other world after picked other _ same apart
      refine ⟨fun apart => ?_, fun changed now => ?_, fun target parent under => ?_⟩
      · exact (away layer fun equal => apart (congrArg some equal.symm)).trans live
      · by_cases equal : layer = picked
        · subst equal
          rw [live_set_same world after layer same alive] at now
          obtain rfl := Option.some.inj now
          obtain rfl := Option.some.inj (alive.symm.trans live)
          exact ⟨kept, rfl⟩
        · rw [away layer equal, live] at now
          obtain rfl := Option.some.inj now
          exact ⟨rfl, rfl⟩
      · exact away parent fun equal => free (equal ▸ parent_borrowed world layer live under)
  | closed picked older owned =>
      obtain ⟨alive, free⟩ := owned_live world picked older owned
      have away := fun other apart => live_set_other world after picked other _ same apart
      refine ⟨fun apart => ?_, fun changed now => ?_, fun target parent under => ?_⟩
      · exact (away layer fun equal => apart (congrArg some equal.symm)).trans live
      · by_cases equal : layer = picked
        · subst equal
          rw [live_set_same world after layer same alive] at now
          cases now
        · rw [away layer equal, live] at now
          obtain rfl := Option.some.inj now
          exact ⟨rfl, rfl⟩
      · exact away parent fun equal => free (equal ▸ parent_borrowed world layer live under)
  | still =>
      have kept : after.live layer = some slot := by
        rw [World.live, same]
        exact live
      refine ⟨fun _ => kept, fun changed now => ?_, fun picked => nomatch picked⟩
      obtain rfl := Option.some.inj (kept.symm.trans now)
      exact ⟨rfl, rfl⟩

theorem moves_held (target : Option Nat) (held : Held world) (moves : Moves world target after.slots) : Held after := by
  have undisturbed := moves_undisturbed world after target moves
  have kept : ∀ layer slot changed, world.live layer = some slot → after.live layer = some changed →
      match changed.parent with
      | none => ∃ base, changed.scope.base = .inl base
      | some parent => ∃ held, after.live parent = some held ∧ changed.scope.base = .inr held.scope := by
    intro layer slot changed live now
    obtain ⟨away, same, beside⟩ := undisturbed layer slot live
    obtain ⟨base, parent⟩ := same changed now
    have before := held layer slot live
    rw [base, parent]
    cases under : slot.parent with
    | none =>
        rw [under] at before
        exact before
    | some parent =>
        rw [under] at before
        obtain ⟨reader, alive, reads⟩ := before
        refine ⟨reader, ?_, reads⟩
        by_cases picked : target = some parent
        · by_cases itself : target = some layer
          · exact (beside itself parent under).trans alive
          · exfalso
            rw [picked] at moves
            exact moves_unborrowed world parent _ moves (parent_borrowed world layer live under)
        · exact (undisturbed parent reader alive).1 picked
  intro layer changed now
  generalize placed : after.slots = slots at moves
  cases moves with
  | flat base =>
      rcases live_pushed world after placed now with older | rfl
      · exact kept layer changed changed older now
      · exact ⟨base, rfl⟩
  | under parent reader alive =>
      rcases live_pushed world after placed now with older | rfl
      · exact kept layer changed changed older now
      · exact ⟨reader, live_pushed_old world after placed alive, rfl⟩
  | rebound picked slot scope owned same =>
      by_cases equal : layer = picked
      · exact kept layer slot changed (equal ▸ (owned_live world picked slot owned).1) now
      · exact kept layer changed changed ((live_set_other world after picked layer _ placed equal).symm.trans now) now
  | closed picked slot owned =>
      by_cases equal : layer = picked
      · exact kept layer slot changed (equal ▸ (owned_live world picked slot owned).1) now
      · exact kept layer changed changed ((live_set_other world after picked layer _ placed equal).symm.trans now) now
  | still =>
      have older : world.live layer = some changed := by
        rw [World.live, placed] at now
        exact now
      exact kept layer changed changed older now

theorem step_held (op : Op Name Value) (held : Held world) (stepped : world.step op = some after) : Held after :=
  moves_held world after op.target held (step_moves world after op stepped)

theorem live_copied : world.copied.live layer = (world.live layer).map fun slot => slot.scope.get := by
  rw [Copies.live, copied, World.live, List.getElem?_map]
  cases world.slots[layer]? with
  | none => rfl
  | some slot => rfl

theorem owned_copied (owned : world.owned layer = some slot) : world.copied.live layer = some slot.scope.get := by
  rw [live_copied, (owned_live world layer slot owned).1]
  rfl

theorem copied_opened : (world.opened slot).copied = world.copied.opened slot.scope.get := by
  rw [copied, World.opened, List.map_append]
  rfl

theorem copied_placed (slot : Option (Slot Name Value)) :
    (world.placed layer slot).copied = world.copied.placed layer (slot.map fun slot => slot.scope.get) := by
  rw [copied, World.placed, List.map_set]
  rfl

theorem held_into_map (held : Held world) {layer : Nat} {slot : Slot Name Value}
    (live : world.live layer = some slot) (parentless : slot.parent = none) : slot.scope.intoMap.get = slot.scope.get := by
  have opened := held layer slot live
  rw [parentless] at opened
  obtain ⟨base, flat⟩ := opened
  cases scope : slot.scope with
  | flat base bindings =>
      funext name
      exact Scope.get_into_map base bindings name
  | under parent bindings =>
      rw [scope] at flat
      cases flat

theorem copied_collected (map : Map Name Value) :
    (world.collected layer map).copied = world.copied.collected layer map.get := by
  rw [copied, World.collected, List.map_set, List.map_append]
  rfl

theorem step_copied (held : Held world)
    (stepped : world.step op = some after) : world.copied.step op = some after.copied := by
  cases op with
  | flat base =>
      obtain rfl := Option.some.inj stepped
      rw [copied_opened]
      rfl
  | under parent =>
      obtain ⟨slot, live, built⟩ := Option.bind_eq_some_iff.mp stepped
      obtain rfl := Option.some.inj built
      refine Option.bind_eq_some_iff.mpr ⟨slot.scope.get, ?_, ?_⟩
      · rw [live_copied, live]
        rfl
      · rw [copied_opened]
        rfl
  | insert layer name value =>
      obtain ⟨slot, owned, built⟩ := Option.bind_eq_some_iff.mp stepped
      obtain rfl := Option.some.inj built
      refine Option.bind_eq_some_iff.mpr ⟨slot.scope.get, owned_copied world layer slot owned, ?_⟩
      rw [copied_placed, ← Scope.get_insert]
      rfl
  | remove layer name =>
      obtain ⟨slot, owned, built⟩ := Option.bind_eq_some_iff.mp stepped
      obtain rfl := Option.some.inj built
      refine Option.bind_eq_some_iff.mpr ⟨slot.scope.get, owned_copied world layer slot owned, ?_⟩
      rw [copied_placed, ← Scope.get_remove]
      rfl
  | save layer listed =>
      obtain ⟨slot, live, built⟩ := Option.bind_eq_some_iff.mp stepped
      obtain rfl := Option.some.inj built
      refine Option.bind_eq_some_iff.mpr ⟨slot.scope.get, ?_, rfl⟩
      rw [live_copied, live]
      rfl
  | restore layer save =>
      obtain ⟨slot, owned, built⟩ := Option.bind_eq_some_iff.mp stepped
      obtain ⟨saved, recorded, built⟩ := Option.bind_eq_some_iff.mp built
      obtain rfl := Option.some.inj built
      refine Option.bind_eq_some_iff.mpr ⟨slot.scope.get, owned_copied world layer slot owned, ?_⟩
      refine Option.bind_eq_some_iff.mpr ⟨saved, recorded, ?_⟩
      rw [copied_placed, ← Scope.get_restore]
      rfl
  | intoMap layer =>
      obtain ⟨slot, owned, built⟩ := Option.bind_eq_some_iff.mp stepped
      refine Option.bind_eq_some_iff.mpr ⟨slot.scope.get, owned_copied world layer slot owned, ?_⟩
      cases under : slot.parent with
      | some parent =>
          rw [under] at built
          cases built
      | none =>
          rw [under] at built
          obtain rfl := Option.some.inj built
          rw [copied_collected, held_into_map world held (owned_live world layer slot owned).1 under]
  | drop layer =>
      obtain ⟨slot, owned, built⟩ := Option.bind_eq_some_iff.mp stepped
      obtain rfl := Option.some.inj built
      refine Option.bind_eq_some_iff.mpr ⟨slot.scope.get, owned_copied world layer slot owned, ?_⟩
      rw [copied_placed]
      rfl

theorem run_copied (world after : World Name Value) (held : Held world)
    (ran : run ops world = some after) : Copies.run ops world.copied = some after.copied ∧ Held after := by
  induction ops generalizing world with
  | nil =>
      obtain rfl := Option.some.inj ran
      exact ⟨rfl, held⟩
  | cons op rest ih =>
      rw [run, List.foldlM_cons] at ran
      obtain ⟨next, stepped, later⟩ := Option.bind_eq_some_iff.mp ran
      obtain ⟨simulated, kept⟩ := ih next (step_held world next op held stepped) later
      refine ⟨?_, kept⟩
      rw [Copies.run, List.foldlM_cons, step_copied world next op held stepped]
      exact simulated

theorem held_start : Held (start : World Name Value) := fun _ _ live => nomatch live

theorem step_saves (op : Op Name Value) (stepped : world.step op = some after) : world.saves <+: after.saves := by
  cases op with
  | flat base =>
      obtain rfl := Option.some.inj stepped
      exact List.prefix_rfl
  | save layer listed =>
      obtain ⟨slot, live, built⟩ := Option.bind_eq_some_iff.mp stepped
      obtain rfl := Option.some.inj built
      exact List.prefix_append _ _
  | restore layer save =>
      obtain ⟨slot, owned, built⟩ := Option.bind_eq_some_iff.mp stepped
      obtain ⟨saved, recorded, built⟩ := Option.bind_eq_some_iff.mp built
      obtain rfl := Option.some.inj built
      exact List.prefix_rfl
  | intoMap layer =>
      obtain ⟨slot, owned, built⟩ := Option.bind_eq_some_iff.mp stepped
      split at built
      · cases built
      · obtain rfl := Option.some.inj built
        exact List.prefix_rfl
  | under layer | insert layer name value | remove layer name | drop layer =>
      obtain ⟨slot, owned, built⟩ := Option.bind_eq_some_iff.mp stepped
      obtain rfl := Option.some.inj built
      exact List.prefix_rfl

theorem run_saves (world after : World Name Value) (ran : run ops world = some after) : world.saves <+: after.saves := by
  induction ops generalizing world with
  | nil =>
      obtain rfl := Option.some.inj ran
      exact List.prefix_rfl
  | cons op rest ih =>
      rw [run, List.foldlM_cons] at ran
      obtain ⟨next, stepped, later⟩ := Option.bind_eq_some_iff.mp ran
      exact (step_saves world next op stepped).trans (ih next later)

theorem save_recorded {earlier later : List (Op Name Value)} {before world : World Name Value} {layer : Nat} {listed : List Name}
    {slot : Slot Name Value} (ran : run earlier start = some before) (live : before.live layer = some slot)
    (whole : run (earlier ++ .save layer listed :: later) start = some world) :
    world.saves[before.saves.length]? = some (slot.scope.save listed) := by
  rw [run, List.foldlM_append] at whole
  obtain ⟨reached, first, rest⟩ := Option.bind_eq_some_iff.mp whole
  obtain rfl := Option.some.inj (ran.symm.trans first)
  rw [List.foldlM_cons] at rest
  obtain ⟨next, stepped, after⟩ := Option.bind_eq_some_iff.mp rest
  have recorded : next.saves = before.saves ++ [slot.scope.save listed] := by
    rw [step, live] at stepped
    obtain rfl := Option.some.inj stepped
    rfl
  obtain ⟨more, grown⟩ := run_saves later next world after
  rw [← grown, recorded, List.append_assoc, List.getElem?_append_right (Nat.le_refl _), Nat.sub_self]
  rfl

-- Restoring a save makes every saved name answer as it did then, and no other name otherwise.
def Restores (world : World Name Value) (save : Nat) (listed : List Name) (answers : Name → Option Value) : Prop :=
  ∀ target after, world.step (.restore target save) = some after →
    ∃ held changed, world.live target = some held ∧ after.live target = some changed ∧
      (∀ name ∈ listed, changed.scope.get name = answers name) ∧
      ∀ name, name ∉ listed → changed.scope.get name = held.scope.get name

theorem save_restores (save : Nat) (listed : List Name) (answers : Name → Option Value)
    (recorded : world.saves[save]? = some (listed.map fun name => (name, answers name))) :
    Restores world save listed answers := by
  intro target after stepped
  obtain ⟨held, owned, built⟩ := Option.bind_eq_some_iff.mp stepped
  obtain ⟨saved, found, built⟩ := Option.bind_eq_some_iff.mp built
  obtain rfl := Option.some.inj (recorded.symm.trans found)
  obtain rfl := Option.some.inj built
  have live := (owned_live world target held owned).1
  refine ⟨held, _, live, live_set_same world _ target rfl live, fun name member => ?_, fun name unsaved => ?_⟩
  · rw [Scope.get_restore]
    exact Scope.restored_saved answers held.scope.get listed name member
  · rw [Scope.get_restore]
    refine Scope.restored_other held.scope.get _ name ?_
    rw [List.map_map]
    exact fun member => unsaved (by simpa using member)

theorem scope_simulates_copies (ops : List (Op Name Value)) (world : World Name Value) (ran : run ops start = some world) :
    (∃ copies, Copies.run ops Copies.start = some copies ∧
      (∀ layer, copies.live layer = (world.live layer).map fun slot => slot.scope.get) ∧
      copies.saves = world.saves ∧ copies.maps = world.maps.map fun map => map.get) ∧
    (∀ layer slot, world.live layer = some slot → ∀ name, slot.scope.get name ≠ slot.scope.inherited name →
      name ∈ slot.scope.names) ∧
    Held world ∧
    (∀ layer slot, world.live layer = some slot → slot.parent = none → slot.scope.intoMap.get = slot.scope.get) ∧
    (∀ op after, world.step op = some after → Undisturbed world after op.target) ∧
    ∀ earlier later layer listed before slot, ops = earlier ++ .save layer listed :: later →
      run earlier start = some before → before.live layer = some slot →
      Restores world before.saves.length listed slot.scope.get := by
  obtain ⟨simulated, held⟩ := run_copied ops start world held_start ran
  refine ⟨⟨world.copied, simulated, live_copied world, rfl, rfl⟩, ?_, held, ?_, ?_, ?_⟩
  · exact fun layer slot live name differs => Scope.differing_named slot.scope name differs
  · exact fun layer slot live parentless => held_into_map world held live parentless
  · exact fun op after stepped => moves_undisturbed world after op.target (step_moves world after op stepped)
  · intro earlier later layer listed before slot whole first live
    subst whole
    exact save_restores world _ listed slot.scope.get (save_recorded first live ran)

def shadowing : List (Op Nat Nat) :=
  [.flat (some (Map.empty.insert 1 10)), .under 0, .insert 1 2 20, .remove 1 1, .save 1 [1, 2, 1], .insert 1 1 11, .restore 1 0,
    .drop 1, .intoMap 0]

def shadowed : World Nat Nat := (run shadowing start).getD start

theorem scope_simulates_copies_shadowing : ∃ copies, Copies.run shadowing Copies.start = some copies ∧
    copies.maps = shadowed.maps.map fun map => map.get := by
  obtain ⟨⟨copies, ran, -, -, maps⟩, -⟩ := scope_simulates_copies shadowing shadowed rfl
  exact ⟨copies, ran, maps⟩

end World

end Filefacts.Source
