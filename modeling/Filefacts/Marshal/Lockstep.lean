import Filefacts.Marshal.Growth
import Mathlib.Data.List.Forall2

set_option autoImplicit false

namespace Filefacts.Marshal

open Loader (State Made Result Constructors TypeCode CodeFields Grows Growing Advances)

variable (list : List Nat)

theorem struck_index_le (ordered : list.Pairwise (· < ·)) (kept : Nat → Bool) :
    ∀ n m entry : Nat, (list.filter kept)[n]? = some entry → list[m]? = some entry → n ≤ m := by
  induction list with
  | nil =>
      intro n m entry _ there
      cases there
  | cons first rest ih =>
      intro n m entry left there
      have after : ∀ k : Nat, (rest.filter kept)[k]? = some entry → first < entry := by
        intro k found
        exact (List.pairwise_cons.mp ordered).1 entry (List.mem_filter.mp (List.mem_of_getElem? found)).1
      cases m with
      | zero =>
          cases n with
          | zero => exact Nat.le_refl 0
          | succ n =>
              obtain rfl := Option.some.inj there
              have later : first < first := by
                by_cases keep : kept first = true
                · rw [List.filter_cons_of_pos keep] at left
                  exact after n left
                · rw [List.filter_cons_of_neg keep] at left
                  exact after (n + 1) left
              exact absurd later (Nat.lt_irrefl first)
      | succ m =>
          have behind := ih (List.pairwise_cons.mp ordered).2
          by_cases keep : kept first = true
          · rw [List.filter_cons_of_pos keep] at left
            cases n with
            | zero => exact Nat.zero_le _
            | succ n => exact Nat.succ_le_succ (behind n m entry left there)
          · rw [List.filter_cons_of_neg keep] at left
            exact Nat.le_succ_of_le (behind n m entry left there)

theorem struck_index (ordered : list.Pairwise (· < ·)) (kept : Nat → Bool) :
    ∀ n entry : Nat, (list.filter kept)[n]? = some entry →
      (list[n]? = some entry ↔ ∀ other ∈ list, kept other = false → entry < other) := by
  induction list with
  | nil =>
      intro n entry left
      cases left
  | cons first rest ih =>
      intro n entry left
      obtain ⟨before, behind⟩ := List.pairwise_cons.mp ordered
      by_cases keep : kept first = true
      · rw [List.filter_cons_of_pos keep] at left
        have others : (∀ other ∈ first :: rest, kept other = false → entry < other) ↔
            ∀ other ∈ rest, kept other = false → entry < other := by
          refine ⟨fun all other member => all other (List.mem_cons_of_mem first member), fun all other member struck => ?_⟩
          rcases List.mem_cons.mp member with rfl | member
          · rw [keep] at struck
            cases struck
          · exact all other member struck
        cases n with
        | zero =>
            obtain rfl := Option.some.inj left
            exact ⟨fun _ => others.mpr fun other member _ => before other member, fun _ => rfl⟩
        | succ n => exact (ih behind n entry left).trans others.symm
      · rw [List.filter_cons_of_neg keep] at left
        have later : first < entry := before entry (List.mem_filter.mp (List.mem_of_getElem? left)).1
        constructor
        · intro there
          exfalso
          cases n with
          | zero =>
              obtain rfl := Option.some.inj there
              exact Nat.lt_irrefl first later
          | succ n => exact absurd (struck_index_le rest behind kept (n + 1) n entry left there) (Nat.not_succ_le_self n)
        · intro all
          have sooner := all first List.mem_cons_self (eq_false_of_ne_true keep)
          exact absurd later (Nat.lt_asymm sooner)

variable (origins longer : List Nat) (data : List UInt8) (minor : Nat)

variable {slot object : Nat} {w after : Walker} {α β γ : Type} {st next : State} {seen : List CodeObject}
  {taken : List Nat} {tag : Nat}

theorem prefix_get (more : origins <+: longer) (there : origins[slot]? = some object) : longer[slot]? = some object := by
  obtain ⟨rest, rfl⟩ := more
  rw [List.getElem?_append_left (List.getElem?_eq_some_iff.mp there).1]
  exact there

-- A back-reference is misled when a singleton with the flag was read before the object it stands for: the walker has
-- given that singleton a slot of the reference table.
def Misled (st : State) : Prop := ∃ reference ∈ st.references, ∃ singleton ∈ st.singletons, singleton < reference.2.2

theorem misled_grows (bound : Nat) (st next : State) (grown : Grows data bound st next)
    (misled : Misled st) : Misled next := by
  obtain ⟨reference, met, singleton, flagged, before⟩ := misled
  exact ⟨reference, grown.references.subset met, singleton, grown.singletons.subset flagged, before⟩

-- What the walker needs to know of an object: bytes and tuples are told from the others.
def Kept (made : Made) (value : Option Value) : Prop :=
  match made with
  | .plain .string _ _ => isBytes value = true
  | .tuple _ => isSequence value = true
  | _ => True

structure Reports (origins : List Nat) (found : CodeObject) (fields : CodeFields) : Prop where
  flags : found.flags = fields.flags
  code : origins[found.code]? = some fields.code
  constants : origins[found.constants]? = some fields.constants
  names : origins[found.names]? = some fields.names

-- The walker's state beside that of r_object. `taken` are the objects in the walker's reference table: those of
-- CPython's and the singletons with the flag.
structure Related (data : List UInt8) (minor : Nat) (st : State) (w : Walker) (seen : List CodeObject)
    (taken : List Nat) : Prop where
  stream : w.data = data
  version : w.minor = minor
  pos : w.pos = st.pos
  inside : st.pos ≤ data.length
  steps : w.steps = st.steps
  arena : w.values.length = w.origins.length
  sorted : w.origins.Pairwise (· < ·)
  begun : ∀ object ∈ w.origins, object < st.pos
  table : w.refs.map (fun slot => w.origins[slot]?) = taken.map some
  ordered : taken.Pairwise (· < ·)
  early : ∀ object ∈ taken, object < st.pos
  struck : taken.filter (fun object => !st.singletons.contains object) = st.refs.map Prod.fst
  singles : ∀ object ∈ st.singletons, object ∈ taken
  heap : ∀ object made, st.heap object = some made →
    ∃ slot : Nat, w.origins[slot]? = some object ∧ Kept made w.values[slot]?
  indices : ∀ reference ∈ st.references, (st.refs.map Prod.fst)[reference.2.1]? = some reference.2.2
  followed : List.Forall₂ (fun found reference => found.1 = reference.1 ∧
    ∃ object, taken[reference.2.1]? = some object ∧ w.origins[found.2]? = some object) w.followed st.references
  codes : Misled st ∨ List.Forall₂ (Reports w.origins) seen st.codes

structure Onward (st next : State) (w after : Walker) : Prop where
  origins : w.origins <+: after.origins
  strays : next.strays = st.strays
  misled : Misled st → Misled next

theorem onward_refl (st : State) (w : Walker) : Onward st st w w := ⟨List.prefix_rfl, rfl, id⟩

theorem onward_trans {first middle last : State} {between : Walker} (before : Onward first middle w between)
    (behind : Onward middle last between after) : Onward first last w after :=
  ⟨before.origins.trans behind.origins, behind.strays.trans before.strays, behind.misled ∘ before.misled⟩

-- A read of the walker beside one of r_object: both come to an end, side by side, or the walker fails, for a NULL it
-- does not know or a reference that is misled.
def Follows {α β : Type} (data : List UInt8) (minor : Nat) (st : State) (w : Walker) (result : Result α)
    (outcome : Except String (β × List CodeObject × Walker)) (same : α → β → State → Walker → Prop) : Prop :=
  ∀ value next, result = some (value, next) → next.steps ≤ maxObjects → next.deepest ≤ maxDepth →
    (∃ object found seen after taken, value = some object ∧ outcome = .ok (found, seen, after) ∧
      Related data minor next after seen taken ∧ Onward st next w after ∧ same object found next after) ∨
    ((∃ message, outcome = .error message) ∧ (st.strays < next.strays ∨ Misled next))

def Same (object slot : Nat) (st : State) (w : Walker) : Prop := Misled st ∨ w.origins[slot]? = some object

def Lockstep (data : List UInt8) (minor : Nat) (child : State → Result Nat)
    (walk : List CodeObject → Walker → Except String (Nat × List CodeObject × Walker)) : Prop :=
  ∀ st w seen taken, Related data minor st w seen taken → Follows data minor st w (child st) (walk seen w) Same

theorem follows_and_then {δ : Type} (data : List UInt8) (bound minor : Nat) (st : State) (w : Walker)
    (result : Result α) (outcome : Except String (γ × List CodeObject × Walker)) (same : α → γ → State → Walker → Prop)
    (continue_ : α → State → Result β) (onward : γ × List CodeObject × Walker → Except String (δ × List CodeObject × Walker))
    (last : β → δ → State → Walker → Prop) (first : Follows data minor st w result outcome same)
    (grown : ∀ object middle, result = some (some object, middle) → Growing data bound middle (continue_ object middle))
    (rest : ∀ object found middle seen after taken, result = some (some object, middle) →
      Related data minor middle after seen taken → Onward st middle w after → same object found middle after →
      Follows data minor middle after (continue_ object middle) (onward (found, seen, after)) last) :
    Follows data minor st w (Result.andThen result continue_) (outcome >>= onward) last := by
  intro value next done steps deepest
  match read : result, done with
  | some (none, middle), done =>
      obtain ⟨rfl, rfl⟩ := Prod.mk.inj (Option.some.inj done)
      obtain ⟨object, _, _, _, _, some_, _⟩ | ⟨⟨message, rfl⟩, why⟩ := first none middle rfl steps deepest
      · cases some_
      · exact Or.inr ⟨⟨message, rfl⟩, why⟩
  | some (some object, middle), done =>
      have more := grown object middle rfl value next done
      obtain ⟨_, found, seen, after, taken, some_, rfl, related, before, agree⟩ | ⟨⟨message, rfl⟩, why⟩ :=
        first (some object) middle rfl (Nat.le_trans more.steps steps) (Nat.le_trans more.deepest deepest)
      · obtain rfl := Option.some.inj some_
        obtain ⟨object, found, seen, final, taken, some_, ended, related, behind, agree⟩ | ⟨failed, why⟩ :=
          rest object found middle seen after taken rfl related before agree value next done steps deepest
        · exact Or.inl ⟨object, found, seen, final, taken, some_, ended, related,
            onward_trans before behind, agree⟩
        · rw [before.strays] at why
          exact Or.inr ⟨failed, why⟩
      · refine Or.inr ⟨⟨message, rfl⟩, ?_⟩
        rcases why with stray | misled
        · exact Or.inl (Nat.lt_of_lt_of_le stray more.strays)
        · exact Or.inr (misled_grows data bound middle next more misled)

theorem follows_done (st : State) (w : Walker) (object : α) (found : β)
    (seen : List CodeObject) (taken : List Nat) (same : α → β → State → Walker → Prop)
    (related : Related data minor st w seen taken) (agree : same object found st w) :
    Follows data minor st w (some (some object, st)) (.ok (found, seen, w)) same := by
  intro value next done _ _
  obtain ⟨rfl, rfl⟩ := Prod.mk.inj (Option.some.inj done)
  exact Or.inl ⟨object, found, seen, w, taken, rfl, rfl, related, onward_refl st w, agree⟩

def Anything {α β : Type} (_ : α) (_ : β) (_ : State) (_ : Walker) : Prop := True

theorem follows_after (st middle : State) (w between : Walker)
    (result : Result α) (outcome : Except String (β × List CodeObject × Walker)) (same : α → β → State → Walker → Prop)
    (before : Onward st middle w between) (behind : Follows data minor middle between result outcome same) :
    Follows data minor st w result outcome same := by
  intro value next done steps deepest
  obtain ⟨object, found, seen, after, taken, some_, ended, related, onward, agree⟩ | failed :=
    behind value next done steps deepest
  · exact Or.inl ⟨object, found, seen, after, taken, some_, ended, related,
      onward_trans before onward, agree⟩
  · rw [before.strays] at failed
    exact Or.inr failed

theorem follows_dropped (st : State) (w : Walker) (result : Result α)
    (outcome : Except String (β × List CodeObject × Walker)) (same : α → β → State → Walker → Prop)
    (first : Follows data minor st w result outcome same) :
    Follows data minor st w result (outcome >>= fun ended => .ok (Value.other, ended.2)) Anything := by
  intro value next done steps deepest
  obtain ⟨object, found, seen, after, taken, some_, rfl, related, onward, _⟩ | ⟨⟨message, rfl⟩, why⟩ :=
    first value next done steps deepest
  · exact Or.inl ⟨object, .other, seen, after, taken, some_, rfl, related, onward, trivial⟩
  · exact Or.inr ⟨⟨message, rfl⟩, why⟩

theorem follows_moved (st : State) (w : Walker) (pos : Nat)
    (result : Result α) (outcome : Except String (β × List CodeObject × Walker)) (same : α → β → State → Walker → Prop)
    (moved : Follows data minor { st with pos := pos } { w with pos := pos } result outcome same) :
    Follows data minor st w result outcome same :=
  follows_after data minor st { st with pos := pos } w { w with pos := pos } result outcome same ⟨List.prefix_rfl, rfl, id⟩ moved

theorem follows_ending (st : State) (w : Walker) (result : Result (List α))
    (outcome : Except String (β × List CodeObject × Walker)) (same : List α → β → State → Walker → Prop)
    (first : Follows data minor st w result outcome same) : Follows data minor st w (Result.ending result) outcome same := by
  intro value next done steps deepest
  match result, first, done with
  | some (none, middle), first, done =>
      obtain ⟨rfl, rfl⟩ := Prod.mk.inj (Option.some.inj done)
      obtain ⟨object, _, _, _, _, some_, _⟩ | failed := first none middle rfl steps deepest
      · cases some_
      · exact Or.inr failed
  | some (some list, middle), first, done =>
      obtain ⟨rfl, rfl⟩ := Prod.mk.inj (Option.some.inj done)
      exact first (some list) middle rfl steps deepest

theorem same_later (onward : Onward st next w after) (same : Same object slot st w) : Same object slot next after := by
  rcases same with misled | placed
  · exact Or.inl (onward.misled misled)
  · exact Or.inr (prefix_get _ _ onward.origins placed)

theorem follows_map (st : State) (w : Walker) (result : Result α)
    (outcome : Except String (β × List CodeObject × Walker)) (image : α → γ)
    (first : Follows data minor st w result outcome Anything) :
    Follows data minor st w (Result.andThen result fun value st => some (some (image value), st)) outcome Anything := by
  intro value next done steps deepest
  match result, first, done with
  | some (none, middle), first, done =>
      obtain ⟨rfl, rfl⟩ := Prod.mk.inj (Option.some.inj done)
      obtain ⟨object, _, _, _, _, some_, _⟩ | failed := first none middle rfl steps deepest
      · cases some_
      · exact Or.inr failed
  | some (some object, middle), first, done =>
      obtain ⟨rfl, rfl⟩ := Prod.mk.inj (Option.some.inj done)
      obtain ⟨_, found, seen, after, taken, _, ended, rest⟩ | failed := first (some object) middle rfl steps deepest
      · exact Or.inl ⟨image object, found, seen, after, taken, rfl, ended, rest⟩
      · exact Or.inr failed

theorem items_follow (child : State → Result Nat)
    (walk : List CodeObject → Walker → Except String (Nat × List CodeObject × Walker)) (advances : Advances data child)
    (lockstep : Lockstep data minor child walk) (count : Nat) :
    ∀ st w seen taken, Related data minor st w seen taken →
      Follows data minor st w (Loader.objects child count st) (items walk count seen w) Anything := by
  induction count with
  | zero =>
      intro st w seen taken related
      exact follows_done data minor st w _ _ seen taken Anything related trivial
  | succ count ih =>
      intro st w seen taken related
      have list := fun st => Loader.objects_grow data 0 child advances count st (Nat.zero_le _)
      have ends : ∀ object (rest : List Nat) (next : State), Growing data 0 next (some (some (object :: rest), next)) := by
        intro object rest next value final done
        obtain ⟨-, rfl⟩ := Prod.mk.inj (Option.some.inj done)
        exact Loader.grows_refl data 0 next
      apply follows_and_then data 0 minor st w _ _ Same _ _ _ (lockstep st w seen taken related)
      · intro object middle _
        apply Loader.growing_and_then data 0 middle _ _ (list middle)
        intro rest next _ grown
        exact Loader.growing_after data 0 middle next _ grown (ends object rest next)
      · intro object found middle seen after taken _ related _ _
        apply follows_and_then data 0 minor middle after _ _ Anything _ _ _ (ih middle after seen taken related)
        · intro rest next _
          exact ends object rest next
        · intro rest nodes next seen final taken _ related _ _
          exact follows_done data minor next final _ _ seen taken Anything related trivial

theorem reports_longer (more : origins <+: longer) (found : CodeObject) (fields : CodeFields)
    (reports : Reports origins found fields) : Reports longer found fields :=
  ⟨reports.flags, prefix_get origins longer more reports.code, prefix_get origins longer more reports.constants,
    prefix_get origins longer more reports.names⟩

theorem table_longer (refs taken : List Nat) (more : origins <+: longer)
    (table : refs.map (fun slot => origins[slot]?) = taken.map some) :
    refs.map (fun slot => longer[slot]?) = taken.map some := by
  induction refs generalizing taken with
  | nil => exact table
  | cons slot refs ih =>
      cases taken with
      | nil => cases table
      | cons object taken =>
          obtain ⟨first, rest⟩ := List.cons.inj table
          rw [List.map_cons, List.map_cons, ih taken rest, prefix_get origins longer more first]

theorem related_slot
    (related : Related data minor st w seen taken) {first second : Nat} (one : w.origins[first]? = some object)
    (other : w.origins[second]? = some object) : first = second := by
  have distinct : w.origins.Nodup := related.sorted.imp Nat.ne_of_lt
  have inside := (List.getElem?_eq_some_iff.mp one).1
  exact (List.getElem?_inj inside distinct).mp (one.trans other.symm)

theorem related_moved (related : Related data minor st w seen taken) {pos : Nat} (onward : st.pos ≤ pos)
    (inside : pos ≤ data.length) : Related data minor { st with pos := pos } { w with pos := pos } seen taken := by
  refine { related with pos := rfl, inside := inside, begun := ?_, early := ?_ }
  · intro object member
    exact Nat.lt_of_lt_of_le (related.begun object member) onward
  · intro object member
    exact Nat.lt_of_lt_of_le (related.early object member) onward

theorem related_insert (st : State) (w : Walker) (seen : List CodeObject)
    (taken : List Nat) (related : Related data minor st w seen taken) (object : Nat) :
    Related data minor (st.insert object) w seen taken := by
  have same : (st.insert object).refs.map Prod.fst = st.refs.map Prod.fst := by
    rw [State.insert, List.map_map]
    apply List.map_congr_left
    intro slot _
    dsimp only [Function.comp_apply]
    split
    · next named => exact named.symm
    · rfl
  refine { related with struck := related.struck.trans same.symm, indices := ?_ }
  intro reference member
  rw [same]
  exact related.indices reference member

def takenWith (taken : List Nat) (pos tag : Nat) : List Nat := if 128 ≤ tag then taken ++ [pos] else taken

theorem related_opened (related : Related data minor st w seen taken) (inside : st.pos + 1 ≤ data.length) (moved : next.pos = st.pos + 1) (counted : next.steps = st.steps + 1) (grown : Grows data 0 st next)
    (objects : next.objects = st.objects) (references : next.references = st.references) (codes : next.codes = st.codes)
    (refs : st.refs.map Prod.fst <+: next.refs.map Prod.fst)
    (struck : (takenWith taken st.pos tag).filter (fun object => !next.singletons.contains object) = next.refs.map Prod.fst)
    (singles : ∀ object ∈ next.singletons, object ∈ takenWith taken st.pos tag) :
    Related data minor next (opened { w with steps := w.steps + 1 } tag) seen (takenWith taken st.pos tag) := by
  have longer : w.origins <+: w.origins ++ [w.pos] := List.prefix_append _ _
  have more : taken <+: takenWith taken st.pos tag := by
    unfold takenWith
    split
    · exact List.prefix_append _ _
    · exact List.prefix_rfl
  have bounded : ∀ list : List Nat, (∀ object ∈ list, object < st.pos) → (∀ object ∈ list ++ [st.pos], object < st.pos + 1) := by
    intro list before object member
    rcases List.mem_append.mp member with old | new
    · exact Nat.lt_succ_of_lt (before object old)
    · rw [List.mem_singleton.mp new]
      exact Nat.lt_succ_self _
  have increasing : ∀ list : List Nat, list.Pairwise (· < ·) → (∀ object ∈ list, object < st.pos) →
      (list ++ [st.pos]).Pairwise (· < ·) := by
    intro list sorted before
    apply List.pairwise_append.mpr
    refine ⟨sorted, List.pairwise_singleton _ _, fun object old other new => ?_⟩
    rw [List.mem_singleton.mp new]
    exact before object old
  have table := table_longer w.origins _ w.refs taken longer related.table
  rw [related.pos] at table
  constructor
  case stream => exact related.stream
  case version => exact related.version
  case pos => exact (congrArg (· + 1) related.pos).trans moved.symm
  case inside => rw [moved]; exact inside
  case steps => exact (congrArg (· + 1) related.steps).trans counted.symm
  case arena => simp only [opened, List.length_append, List.length_singleton, related.arena]
  case sorted =>
    simp only [opened, related.pos]
    exact increasing w.origins related.sorted related.begun
  case begun =>
    simp only [opened, related.pos, moved]
    exact bounded w.origins related.begun
  case table =>
    unfold takenWith opened
    by_cases flag : 128 ≤ tag
    · simp only [if_pos flag, List.map_append, List.map_cons, List.map_nil, table, related.arena, related.pos,
        List.getElem?_concat_length]
    · simp only [if_neg flag, related.pos, table]
  case ordered =>
    unfold takenWith
    split
    · exact increasing taken related.ordered related.early
    · exact related.ordered
  case early =>
    rw [moved]
    unfold takenWith
    split
    · exact bounded taken related.early
    · intro object member
      exact Nat.lt_succ_of_lt (related.early object member)
  case struck => exact struck
  case singles => exact singles
  case heap =>
    intro object made present
    have present : st.heap object = some made := by
      rw [State.heap, ← objects]
      exact present
    obtain ⟨slot, placed, kept⟩ := related.heap object made present
    have inner : slot < w.values.length := by
      rw [related.arena]
      exact (List.getElem?_eq_some_iff.mp placed).1
    refine ⟨slot, prefix_get _ _ longer placed, ?_⟩
    simp only [opened]
    rw [List.getElem?_append_left inner]
    exact kept
  case indices =>
    rw [references]
    intro reference member
    exact prefix_get _ _ refs (related.indices reference member)
  case followed =>
    rw [references]
    apply related.followed.imp
    intro found reference both
    obtain ⟨same, object, there, placed⟩ := both
    exact ⟨same, object, prefix_get _ _ more there, prefix_get _ _ longer placed⟩
  case codes =>
    rw [codes]
    rcases related.codes with misled | reports
    · exact Or.inl (misled_grows data 0 st next grown misled)
    · exact Or.inr (reports.imp (reports_longer w.origins _ longer))

theorem related_referred (st : State) (w : Walker) (seen : List CodeObject)
    (taken : List Nat) (related : Related data minor st w seen taken) (tag depth : Nat) (there : Bool)
    (inside : st.pos + 1 ≤ data.length) :
    Related data minor ((st.met depth).refer (128 ≤ tag) st.pos there) (opened { w with steps := w.steps + 1 } tag) seen
      (takenWith taken st.pos tag) := by
  have grown := Loader.grows_trans data 0 st _ _ (Loader.met_grows data 0 st depth inside)
    (Loader.grows_refer data 0 (st.met depth) (128 ≤ tag) st.pos there)
  have fresh : st.pos ∉ st.singletons := fun member =>
    Nat.lt_irrefl _ (related.early st.pos (related.singles st.pos member))
  by_cases flag : 128 ≤ tag
  · have referred : (st.met depth).refer (128 ≤ tag) st.pos there =
        { st.met depth with refs := st.refs ++ [(st.pos, there)] } := by
      rw [State.refer, if_pos (decide_eq_true flag)]
      rfl
    rw [referred] at grown ⊢
    apply related_opened data minor related inside rfl rfl grown rfl rfl rfl
    · rw [List.map_append]
      exact List.prefix_append _ _
    · have left : [st.pos].filter (fun object => !st.singletons.contains object) = [st.pos] := by
        rw [List.filter_cons_of_pos (by simpa using fresh), List.filter_nil]
      rw [takenWith, if_pos flag]
      change (taken ++ [st.pos]).filter (fun object => !st.singletons.contains object) = _
      rw [List.filter_append, related.struck, left, List.map_append, List.map_cons, List.map_nil]
    · intro object member
      rw [takenWith, if_pos flag]
      exact List.mem_append_left _ (related.singles object member)
  · have referred : (st.met depth).refer (128 ≤ tag) st.pos there = st.met depth := by
      rw [State.refer, decide_eq_false flag]
      rfl
    rw [referred] at grown ⊢
    apply related_opened data minor related inside rfl rfl grown rfl rfl rfl
    · exact List.prefix_rfl
    · rw [takenWith, if_neg flag]
      exact related.struck
    · intro object member
      rw [takenWith, if_neg flag]
      exact related.singles object member

theorem related_single (related : Related data minor st w seen taken) (depth : Nat)
    (inside : st.pos + 1 ≤ data.length) (flag : 128 ≤ tag) :
    Related data minor { st.met depth with singletons := st.singletons ++ [st.pos] }
      (opened { w with steps := w.steps + 1 } tag) seen (takenWith taken st.pos tag) := by
  have met := Loader.met_grows data 0 st depth inside
  have grown : Grows data 0 st { st.met depth with singletons := st.singletons ++ [st.pos] } :=
    ⟨met.pos, met.fits, met.steps, met.deepest, met.references, List.prefix_append _ _, met.strays, met.heap⟩
  have struck_ : [st.pos].filter (fun object => !(st.singletons ++ [st.pos]).contains object) = [] := by
    rw [List.filter_cons_of_neg (by simp), List.filter_nil]
  have others : taken.filter (fun object => !(st.singletons ++ [st.pos]).contains object) =
      taken.filter (fun object => !st.singletons.contains object) := by
    apply List.filter_congr
    intro object member
    have differ : object ≠ st.pos := Nat.ne_of_lt (related.early object member)
    simp only [List.contains_append, List.contains_cons, List.contains_nil, Bool.or_false, beq_false_of_ne differ]
  apply related_opened data minor related inside rfl rfl grown rfl rfl rfl List.prefix_rfl
  · rw [takenWith, if_pos flag]
    rw [List.filter_append, struck_, others, related.struck, List.append_nil]
    rfl
  · intro object member
    rw [takenWith, if_pos flag]
    rcases List.mem_append.mp member with old | new
    · exact List.mem_append_left _ (related.singles object old)
    · exact List.mem_append_right _ new

theorem related_closed (related : Related data minor st w seen taken) {node : Nat} {made : Made} {value : Value}
    (placed : w.origins[node]? = some object) (kept : Kept made (some value)) :
    Related data minor { st with objects := (object, made) :: st.objects }
      { w with values := w.values.set node value } seen taken := by
  have inside : node < w.values.length := by
    rw [related.arena]
    exact (List.getElem?_eq_some_iff.mp placed).1
  refine { related with arena := ?_, heap := ?_ }
  · rw [List.length_set]
    exact related.arena
  · intro other found present
    by_cases same : other = object
    · subst same
      have found_ : made = found := by
        have looked : ((other, made) :: st.objects).lookup other = some found := present
        rw [List.lookup_cons_self] at looked
        exact Option.some.inj looked
      subst found_
      refine ⟨node, placed, ?_⟩
      rw [List.getElem?_set_self inside]
      exact kept
    · have present : st.heap other = some found := by
        have looked : ((object, made) :: st.objects).lookup other = some found := present
        rw [List.lookup_cons, beq_false_of_ne same] at looked
        exact looked
      obtain ⟨slot, there, kept⟩ := related.heap other found present
      have differ : node ≠ slot := by
        rintro rfl
        exact same (Option.some.inj (there.symm.trans placed))
      refine ⟨slot, there, ?_⟩
      rw [List.getElem?_set_ne differ]
      exact kept

def closing (node : Nat) (result : Value × List CodeObject × Walker) : Except String (Nat × List CodeObject × Walker) :=
  if node < result.2.2.values.length then
    .ok (node, result.2.1, { result.2.2 with values := result.2.2.values.set node result.1 })
  else .error "invalid marshal node"

theorem close_follows (constructors : Constructors) (data : List UInt8) (minor : Nat) (st : State) (w : Walker)
    (parts : Result α) (body : Except String (Value × List CodeObject × Walker)) (made : α → Made) (post : State → State)
    (object node : Nat) (placed : w.origins[node]? = some object)
    (first : Follows data minor st w parts body fun part value _ _ => Kept (made part) (some value))
    (grown : ∀ next, Grows data 0 next (post next))
    (strays : ∀ next, (post next).strays = next.strays)
    (kept : ∀ next after seen taken, Related data minor next after seen taken → Related data minor (post next) after seen taken) :
    Follows data minor st w (Result.andThen parts fun part st => Loader.make constructors data object (made part) (post st))
      (body >>= closing node) Same := by
  apply follows_and_then data 0 minor st w parts body _ _ _ Same first
  · intro part middle _
    exact Loader.make_grows constructors _ (grown middle) (Nat.zero_le _)
  · intro part value middle seen after taken _ related onward agree result next done _ _
    unfold Loader.make at done
    split at done
    · obtain ⟨rfl, rfl⟩ := Prod.mk.inj (Option.some.inj done)
      have placed := prefix_get _ _ onward.origins placed
      have inside : node < after.values.length := by
        rw [related.arena]
        exact (List.getElem?_eq_some_iff.mp placed).1
      have posted := grown middle
      have misled : Misled middle → Misled (post middle) := misled_grows data 0 middle (post middle) posted
      refine Or.inl ⟨object, node, seen, { after with values := after.values.set node value }, taken, rfl, ?_, ?_,
        ⟨List.prefix_rfl, strays middle, misled⟩, Or.inr placed⟩
      · exact if_pos inside
      · exact related_closed data minor (kept middle after seen taken related) placed agree
    · cases done

end Filefacts.Marshal
