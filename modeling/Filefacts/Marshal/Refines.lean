import Filefacts.Marshal.Arms

set_option autoImplicit false

namespace Filefacts.Marshal

open Loader (State Made Result Constructors TypeCode CodeFields Grows Growing Advances)

theorem container_body (walk : List CodeObject → Walker → Except String (Nat × List CodeObject × Walker))
    (seen : List CodeObject) (w : Walker) : body collect walk .container seen w =
      ((do
        let (count, w) ← w.size false
        sequence walk count seen w) >>= fun ended => .ok (.other, ended.2)) := by
  rw [bind_assoc]
  rfl

section
variable (constructors : Constructors) (data : List UInt8) (minor : Nat) (child : State → Result Nat)
variable (walk : List CodeObject → Walker → Except String (Nat × List CodeObject × Walker))
variable (advances : Advances data child) (lockstep : Lockstep data minor child walk)

include advances lockstep

theorem build_follows {type : TypeCode} (other : type ≠ .null) (object : type ≠ .ref) {st : State} {w : Walker}
    {seen : List CodeObject} {taken : List Nat} (related : Related data minor st w seen taken) (tag depth : Nat)
    (inside : st.pos + 1 ≤ data.length) :
    Follows data minor st w
      (Loader.build constructors data minor child type (128 ≤ tag) st.pos (st.met depth))
      (body collect walk (armOf type) seen (opened { w with steps := w.steps + 1 } tag) >>= closing w.values.length) Same := by
  have longer : w.origins <+: (opened { w with steps := w.steps + 1 } tag).origins := List.prefix_append _ _
  have placed : (opened { w with steps := w.steps + 1 } tag).origins[w.values.length]? = some st.pos := by
    change (w.origins ++ [w.pos])[w.values.length]? = some st.pos
    rw [related.arena, List.getElem?_concat_length, related.pos]
  have referred := fun there => related_referred data minor st w seen taken related tag depth there inside
  have strays : ∀ there, ((st.met depth).refer (128 ≤ tag) st.pos there).strays = st.strays := by
    intro there
    unfold State.refer
    split <;> rfl
  have before : ∀ there, Onward st ((st.met depth).refer (128 ≤ tag) st.pos there) w (opened { w with steps := w.steps + 1 } tag) := by
    intro there
    have grown := Loader.grows_trans data 0 st _ _ (Loader.met_grows data 0 st depth inside)
      (Loader.grows_refer data 0 (st.met depth) (128 ≤ tag) st.pos there)
    exact ⟨longer, strays there, misled_grows data 0 st _ grown⟩
  have same := fun next => Loader.grows_refl data 0 next
  have inserted := fun next => Loader.grows_insert data 0 next st.pos
  have kept := fun next after seen taken related => related_insert data minor next after seen taken related st.pos
  have close := fun {α : Type} (there : Bool) (parts : Result α) (shape : Arm) (made : α → Made) (post : State → State)
      (first : Follows data minor ((st.met depth).refer (128 ≤ tag) st.pos there)
        (opened { w with steps := w.steps + 1 } tag) parts
        (body collect walk shape seen (opened { w with steps := w.steps + 1 } tag)) fun part value _ _ => Kept (made part) (some value))
      (grown : ∀ next, Grows data 0 next (post next)) (strays : ∀ next, (post next).strays = next.strays)
      (kept : ∀ next after seen taken, Related data minor next after seen taken → Related data minor (post next) after seen taken) =>
    follows_after data minor st _ w _ _ _ Same (before there)
      (close_follows constructors data minor _ _ parts _ made post st.pos w.values.length placed first grown strays kept)
  have list := fun there => sized_follows data minor child walk advances lockstep false (referred there)
  have dropped : ∀ there, Follows data minor ((st.met depth).refer (128 ≤ tag) st.pos there)
      (opened { w with steps := w.steps + 1 } tag)
      (Loader.sized data false child ((st.met depth).refer (128 ≤ tag) st.pos there))
      (body collect walk .container seen (opened { w with steps := w.steps + 1 } tag)) Anything := by
    intro there
    rw [container_body]
    exact follows_dropped data minor _ _ _ _ _ (list there)
  have plain : ∀ plain : TypeCode, Loader.build constructors data minor child plain (128 ≤ tag) st.pos (st.met depth) =
      ((Loader.payload data (st.pos + 1) plain).bind fun range =>
        Loader.make constructors data st.pos (.plain plain range.1 range.2)
          { (st.met depth).refer (128 ≤ tag) st.pos true with pos := range.2 }) →
      Follows data minor st w
        (Loader.build constructors data minor child plain (128 ≤ tag) st.pos (st.met depth))
        (body collect walk (armOf plain) seen (opened { w with steps := w.steps + 1 } tag) >>= closing w.values.length) Same := by
    intro plain built
    rw [built]
    cases read : Loader.payload data (st.pos + 1) plain with
    | none =>
        intro value next done
        cases done
    | some range =>
        have onward := Loader.payload_inside data (st.pos + 1) inside read
        have here : (opened { w with steps := w.steps + 1 } tag).pos = st.pos + 1 := congrArg (· + 1) related.pos
        have stream : (opened { w with steps := w.steps + 1 } tag).data = data := related.stream
        rw [← here, ← stream] at read
        obtain ⟨value, holds, ended⟩ := payload_body walk _ seen plain range read
        have position : ((st.met depth).refer (128 ≤ tag) st.pos true).pos = st.pos + 1 := by
          unfold State.refer
          split <;> rfl
        have moved := related_moved data minor (referred true) (by rw [position]; exact onward.1) onward.2
        have first := follows_done data minor _ _ range value seen _ (fun range value _ _ =>
          Kept (.plain plain range.1 range.2) (some value)) moved holds
        have closed := close_follows constructors data minor { (st.met depth).refer (128 ≤ tag) st.pos true with pos := range.2 }
          { opened { w with steps := w.steps + 1 } tag with pos := range.2 } _ _
          (fun range : Nat × Nat => .plain plain range.1 range.2) id st.pos w.values.length placed first same (fun _ => rfl) fun _ _ _ _ related => related
        rw [ended]
        apply follows_after data minor st { (st.met depth).refer (128 ≤ tag) st.pos true with pos := range.2 } w
          { opened { w with steps := w.steps + 1 } tag with pos := range.2 } _ _ Same
        · exact ⟨longer, strays true, (before true).misled⟩
        · exact closed
  cases type with
  | null => exact absurd rfl other
  | ref => exact absurd rfl object
  | singleton =>
      by_cases flag : 128 ≤ tag
      · have single := related_single data minor related depth inside flag
        have grown : Grows data 0 st { st.met depth with singletons := st.singletons ++ [st.pos] } :=
          have met := Loader.met_grows data 0 st depth inside
          ⟨met.pos, met.fits, met.steps, met.deepest, met.references, List.prefix_append _ _, met.strays, met.heap⟩
        have first := follows_done data minor _ _ () Value.other seen _ (fun _ _ _ _ => True) single trivial
        rw [Loader.build, if_pos (decide_eq_true flag)]
        have before : Onward st { st.met depth with singletons := st.singletons ++ [st.pos] } w
            (opened { w with steps := w.steps + 1 } tag) := ⟨longer, rfl, misled_grows data 0 st _ grown⟩
        exact follows_after data minor st _ w _ _ _ Same before
          (close_follows constructors data minor _ _ _ _ (fun _ => .plain .singleton (st.pos + 1) (st.pos + 1)) id st.pos
            w.values.length placed first same (fun _ => rfl) fun _ _ _ _ related => related)
      · have unflagged : (st.met depth).refer (128 ≤ tag) st.pos true = st.met depth := by
          rw [State.refer, decide_eq_false flag]
          rfl
        have first := follows_done data minor _ _ () Value.other seen _ (fun _ _ _ _ => True) (referred true) trivial
        have before := before true
        rw [unflagged] at first before
        rw [Loader.build, decide_eq_false flag]
        exact follows_after data minor st _ w _ _ _ Same before
          (close_follows constructors data minor _ _ _ _ (fun _ => .plain .singleton (st.pos + 1) (st.pos + 1)) id st.pos
            w.values.length placed first same (fun _ => rfl) fun _ _ _ _ related => related)
  | tuple small =>
      exact close true _ (.tuple small) .tuple id
        (sized_follows data minor child walk advances lockstep small (referred true)) same (fun _ => rfl)
        fun _ _ _ _ related => related
  | list =>
      exact close true _ .container .list id (dropped true) same (fun _ => rfl) fun _ _ _ _ related => related
  | dict =>
      have left : (opened { w with steps := w.steps + 1 } tag).remaining + 1 = data.length - (st.met depth).pos + 1 := by
        change w.data.length - (w.pos + 1) + 1 = data.length - (st.pos + 1) + 1
        rw [related.stream, related.pos]
      have entries := entries_follow data minor child walk advances lockstep (data.length - (st.met depth).pos + 1) _ _ seen _
        (referred true)
      rw [← left] at entries
      rw [Loader.build, ← left]
      exact close true _ .dict .dict id entries same (fun _ => rfl) fun _ _ _ _ related => related
  | set frozen =>
      exact close (!frozen) _ .container (.set frozen) _ (dropped (!frozen)) inserted (fun _ => rfl) kept
  | slice =>
      have parts := items_follow data minor child walk advances lockstep 3 _ _ seen _ (referred false)
      exact close false _ .slice .slice _ (follows_dropped data minor _ _ _ _ _ parts) inserted (fun _ => rfl) kept
  | code =>
      exact follows_after data minor st _ w _ _ _ Same (before false)
        (code_follows data minor child walk advances lockstep constructors (referred false) placed)
  | int => exact plain .int rfl
  | int64 => exact plain .int64 rfl
  | long => exact plain .long rfl
  | float => exact plain .float rfl
  | binaryFloat => exact plain .binaryFloat rfl
  | complex => exact plain .complex rfl
  | binaryComplex => exact plain .binaryComplex rfl
  | string => exact plain .string rfl
  | unicode small => exact plain (.unicode small) rfl

end

variable (data : List UInt8) (minor : Nat) (constructors : Constructors)

variable {st : State} {w : Walker} {seen : List CodeObject} {taken : List Nat} {index : Nat} {flag : Bool}
  {value : Option Nat} {next : State}

-- Where CPython's table has the object at an index, the walker's has it too unless a singleton took a slot before it.
theorem table_entry (related : Related data minor st w seen taken) {target : Nat}
    (there : (st.refs.map Prod.fst)[index]? = some target) :
    taken[index]? = some target ↔ ∀ singleton ∈ st.singletons, target < singleton := by
  rw [← related.struck] at there
  apply (struck_index taken related.ordered _ index target there).trans
  constructor
  · intro all singleton flagged
    exact all singleton (related.singles singleton flagged) (by simpa using flagged)
  · intro all other _ struck
    exact all other (by simpa using struck)

theorem table_slot (related : Related data minor st w seen taken) (inside : index < st.refs.length) :
    ∃ slot object : Nat, w.refs[index]? = some slot ∧ taken[index]? = some object ∧ w.origins[slot]? = some object := by
  have fewer : st.refs.length ≤ taken.length := by
    rw [← List.length_map (f := Prod.fst), ← related.struck]
    exact List.length_filter_le _ _
  have same : w.refs.length = taken.length := by
    have lengths := congrArg List.length related.table
    rwa [List.length_map, List.length_map] at lengths
  have room : index < taken.length := Nat.lt_of_lt_of_le inside fewer
  have held : index < w.refs.length := by omega
  have entry := congrArg (fun list => list[index]?) related.table
  simp only [List.getElem?_map, List.getElem?_eq_getElem room, List.getElem?_eq_getElem held, Option.map_some,
    Option.some.injEq] at entry
  exact ⟨_, _, List.getElem?_eq_getElem held, List.getElem?_eq_getElem room, entry⟩

theorem reference_follows {data : List UInt8} {minor : Nat} {child : State → Result Nat} (related : Related data minor st w seen taken)
    {depth : Nat} (inside : st.pos + 1 ≤ data.length)
    (done : Loader.build constructors data minor child .ref flag st.pos (st.met depth) = some (value, next)) :
    ∃ index slot target, ({ w with steps := w.steps + 1, pos := w.pos + 1 } : Walker).length =
        .ok (index, { w with steps := w.steps + 1, pos := next.pos }) ∧ w.refs[index]? = some slot ∧ value = some target ∧
      Related data minor next
        { w with steps := w.steps + 1, pos := next.pos, followed := w.followed ++ [(w.pos, slot)] } seen taken ∧
      Onward st next w { w with steps := w.steps + 1, pos := next.pos, followed := w.followed ++ [(w.pos, slot)] } ∧
      Same target slot next w := by
  obtain ⟨⟨index, pos⟩, sized, done⟩ := Option.bind_eq_some_iff.mp done
  have onward := Loader.size_inside data (st.pos + 1) sized
  split at done
  · next target held =>
      obtain ⟨rfl, rfl⟩ := Prod.mk.inj (Option.some.inj done)
      have length := size_there { w with steps := w.steps + 1, pos := w.pos + 1 } false index pos
        (by rw [related.stream, related.pos]; exact sized)
      have there : (st.refs.map Prod.fst)[index]? = some target := by
        have held : st.refs[index]? = some (target, true) := held
        rw [List.getElem?_map, held]
        rfl
      obtain ⟨slot, object, found, entry, placed⟩ := table_slot data minor related
        (List.getElem?_eq_some_iff.mp held).1
      have spread : Misled st →
          Misled { st.met depth with pos := pos, references := st.references ++ [(st.pos, index, target)] } := by
        rintro ⟨reference, met, singleton, flagged, before⟩
        exact ⟨reference, List.mem_append_left _ met, singleton, flagged, before⟩
      refine ⟨index, slot, target, length, found, rfl, ?_, ⟨List.prefix_rfl, rfl, spread⟩, ?_⟩
      · refine { related with pos := rfl, inside := onward.2, steps := congrArg (· + 1) related.steps, begun := ?_, early := ?_,
                              indices := ?_, followed := ?_, codes := ?_ }
        · intro other member
          exact Nat.lt_of_lt_of_le (related.begun other member) (Nat.le_of_succ_le onward.1)
        · intro other member
          exact Nat.lt_of_lt_of_le (related.early other member) (Nat.le_of_succ_le onward.1)
        · intro reference member
          rcases List.mem_append.mp member with old | new
          · exact related.indices reference old
          · rw [List.mem_singleton.mp new]
            exact there
        · exact List.rel_append related.followed (List.Forall₂.cons ⟨related.pos, object, entry, placed⟩ List.Forall₂.nil)
        · exact related.codes.imp spread id
      · by_cases behind : ∀ singleton ∈ st.singletons, target < singleton
        · have same := (table_entry data minor related there).mpr behind
          obtain rfl := Option.some.inj (entry.symm.trans same)
          exact Or.inr placed
        · obtain ⟨singleton, unplaced⟩ := Classical.not_forall.mp behind
          obtain ⟨flagged, sooner⟩ := Classical.not_imp.mp unplaced
          have left : target ∈ taken.filter fun object => !st.singletons.contains object := by
            rw [related.struck]
            exact List.mem_of_getElem? there
          have apart : singleton ≠ target := by
            rintro rfl
            simp [flagged] at left
          exact Or.inl ⟨_, List.mem_append_right _ (List.mem_singleton_self _), singleton, flagged,
            Nat.lt_of_le_of_ne (Nat.not_lt.mp sooner) apart⟩
  · cases done

def referred (w : Walker) (seen : List CodeObject) (found : Nat × Walker) : Except String (Nat × List CodeObject × Walker) :=
  match found.2.refs[found.1]? with
  | none => .error "invalid marshal reference"
  | some slot => .ok (slot, seen, { found.2 with followed := found.2.followed ++ [(w.pos, slot)] })

theorem read_follows (data : List UInt8) (minor : Nat) (left : Nat) : ∀ depth levels, depth + left = maxDepth + 1 →
      Lockstep data minor (Loader.rObject constructors data minor levels depth) (read collect left) := by
  induction left with
  | zero =>
      intro depth levels deep st w seen taken related value next done steps deepest
      refine Or.inr ⟨⟨_, rfl⟩, ?_⟩
      cases levels with
      | zero => cases done
      | succ levels =>
          obtain ⟨octet, type, there, _, null | built⟩ := Loader.r_object_cases constructors done
          · obtain ⟨-, -, rfl⟩ := null
            exact Or.inl (Nat.lt_succ_self _)
          · have inside : (st.met depth).pos ≤ data.length := Loader.u8_inside data st.pos there
            have advances := Loader.r_object_advances constructors data minor levels (depth + 1)
            have grown := Loader.build_grows constructors minor advances type _ (Nat.zero_le _)
              (Nat.zero_le _) inside value next built.2
            have reached : depth ≤ next.deepest := Nat.le_trans (Nat.le_max_right _ _) grown.deepest
            omega
  | succ left ih =>
      intro depth levels deep st w seen taken related value next done steps deepest
      cases levels with
      | zero => cases done
      | succ levels =>
          obtain ⟨octet, type, there, known, met⟩ := Loader.r_object_cases constructors done
          have inside := Loader.u8_inside data st.pos there
          have advances := Loader.r_object_advances constructors data minor levels (depth + 1)
          have lockstep := ih (depth + 1) levels (by omega)
          obtain ⟨arm_, referring⟩ := arm_type (Nat.mod_lt _ (by omega)) known
          have byte := byte_there { w with steps := w.steps + 1 } octet (by rw [related.stream, related.pos]; exact there)
          by_cases guard : w.steps + 1 > maxObjects
          · have failed : read collect (left + 1) seen w = .error "marshal nesting or object budget exceeded" := if_pos guard
            refine Or.inr ⟨⟨_, failed⟩, ?_⟩
            rcases met with ⟨_, _, rfl⟩ | ⟨_, built⟩
            · exact Or.inl (Nat.lt_succ_self _)
            · have grown := Loader.build_grows constructors minor advances type _ (Nat.zero_le _)
                (Nat.zero_le _) inside value next built
              have counted : st.steps + 1 ≤ next.steps := grown.steps
              rw [related.steps] at guard
              omega
          have run : read collect (left + 1) seen w =
              if octet % 128 = 114 then
                ({ w with steps := w.steps + 1, pos := w.pos + 1 } : Walker).length >>= fun found => referred w seen found
              else body collect (read collect left) (arm w.minor (octet % 128)) seen (opened { w with steps := w.steps + 1 } octet) >>=
                closing w.values.length := by
            rw [read]
            simp only [if_neg guard, byte]
            rfl
          have shape : arm w.minor (octet % 128) = armOf type := by
            rw [related.version]
            exact arm_
          rw [shape] at run
          rcases met with ⟨rfl, _, rfl⟩ | ⟨other, built⟩
          · -- NULL is not a kind the walker knows.
            have plain : ¬ octet % 128 = 114 := fun reference => nomatch referring.mp reference
            rw [if_neg plain] at run
            exact Or.inr ⟨⟨_, run⟩, Or.inl (Nat.lt_succ_self _)⟩
          by_cases reference : type = .ref
          · subst reference
            rw [if_pos (referring.mpr rfl)] at run
            obtain ⟨index, slot, target, length, found, rfl, related, onward, same⟩ :=
              reference_follows constructors related inside built
            refine Or.inl ⟨target, slot, seen, _, taken, rfl, ?_, related, onward, same⟩
            rw [run, length]
            simp only [bind, Except.bind, referred, found]
          · rw [if_neg fun kind => reference (referring.mp kind)] at run
            rw [run]
            exact build_follows constructors data minor _ _ advances lockstep other reference related octet
              depth inside value next built steps deepest

open Loader (State Made Result Constructors TypeCode CodeFields Grows Growing Advances)

-- What the walk is to report of a stream that r_object has read: it ends where r_object ends, each back-reference led
-- to the slot of the object that CPython's table held, and each code object is shown with the slots of its parts.
def WalksAs (data : List UInt8) (minor : Nat) (st : State) : Prop :=
  ∃ seen w, walk collect [] data minor = .ok (seen, w) ∧ w.pos = st.pos ∧ w.origins.Nodup ∧
    List.Forall₂ (fun found reference => found.1 = reference.1 ∧ w.origins[found.2]? = some reference.2.2)
      w.followed st.references ∧
    List.Forall₂ (Reports w.origins) seen st.codes

variable {α β : Type} {object : Nat}

theorem forall₂_member (first second : α → β → Prop) (left : List α) (right : List β)
    (one : List.Forall₂ first left right) (other : List.Forall₂ second left right) :
    ∀ entry ∈ right, ∃ found, first found entry ∧ second found entry := by
  induction one with
  | nil =>
      intro entry member
      cases member
  | cons related _ ih =>
      intro entry member
      obtain ⟨also, behind⟩ := List.forall₂_cons.mp other
      rcases List.mem_cons.mp member with rfl | member
      · exact ⟨_, related, also⟩
      · exact ih behind entry member

theorem forall₂_with (related : α → β → Prop) (holds : β → Prop) (left : List α) (right : List β)
    (one : List.Forall₂ related left right) (all : ∀ entry ∈ right, holds entry) :
    List.Forall₂ (fun found entry => related found entry ∧ holds entry) left right := by
  induction one with
  | nil => exact List.Forall₂.nil
  | cons first _ ih =>
      exact List.Forall₂.cons ⟨first, all _ List.mem_cons_self⟩ (ih fun entry member => all entry (List.mem_cons_of_mem _ member))

theorem make_heap {data : List UInt8} {made : Made} (done : Loader.make constructors data object made st = some (value, next)) :
    next.heap object = some made := by
  unfold Loader.make at done
  split at done
  · obtain ⟨-, rfl⟩ := Prod.mk.inj (Option.some.inj done)
    exact List.lookup_cons_self
  · cases done

theorem built_code {data : List UInt8} {minor : Nat} {child : State → Result Nat}
    {type : TypeCode} (fresh : st.refs = []) {found : Nat}
    {fields : CodeFields} (done : Loader.build constructors data minor child type flag object st = some (some found, next))
    (holds : next.heap object = some (.code fields)) : type = .code := by
  have unlike : ∀ made middle, (∀ fields, made ≠ Made.code fields) →
      Loader.make constructors data object made middle ≠ some (some found, next) := by
    intro made middle differ made_
    have there := make_heap constructors made_
    exact differ fields (Option.some.inj (there.symm.trans holds))
  have plain : ∀ kind (post : Nat × Nat → State), ((Loader.payload data st.pos kind).bind fun range =>
      Loader.make constructors data object (.plain kind range.1 range.2) (post range)) ≠ some (some found, next) := by
    intro kind post done
    obtain ⟨range, _, done⟩ := Option.bind_eq_some_iff.mp done
    exact unlike (.plain kind range.1 range.2) _ (fun _ => nofun) done
  have compound : ∀ {α : Type} (parts : Result α) (made : α → Made) (post : State → State),
      (∀ part fields, made part ≠ Made.code fields) →
      Result.andThen parts (fun part st => Loader.make constructors data object (made part) (post st)) ≠ some (some found, next) := by
    intro α parts made post differ done
    obtain ⟨part, middle, _, done⟩ := Loader.and_then_some parts _ found next done
    exact unlike _ _ (differ part) done
  cases type with
  | code => rfl
  | null => cases done
  | ref =>
      obtain ⟨⟨index, pos⟩, _, done⟩ := Option.bind_eq_some_iff.mp done
      rw [fresh] at done
      cases done
  | singleton => exact absurd done (unlike _ _ fun _ => nofun)
  | tuple small => exact absurd done (compound _ Made.tuple id fun _ _ => nofun)
  | list => exact absurd done (compound _ Made.list id fun _ _ => nofun)
  | dict => exact absurd done (compound _ Made.dict id fun _ _ => nofun)
  | set frozen => exact absurd done (compound _ (Made.set frozen) _ fun _ _ => nofun)
  | slice => exact absurd done (compound _ Made.slice _ fun _ _ => nofun)
  | int => exact absurd done (plain _ _)
  | int64 => exact absurd done (plain _ _)
  | long => exact absurd done (plain _ _)
  | float => exact absurd done (plain _ _)
  | binaryFloat => exact absurd done (plain _ _)
  | complex => exact absurd done (plain _ _)
  | binaryComplex => exact absurd done (plain _ _)
  | string => exact absurd done (plain _ _)
  | unicode small => exact absurd done (plain _ _)

theorem code_kind (kind : Nat) (known : Loader.typeCode minor kind = some .code) : kind = 99 := by
  rw [Loader.typeCode] at known
  by_cases slice : kind = 58
  · rw [if_pos slice] at known
    split at known <;> cases known
  · rw [if_neg slice] at known
    obtain ⟨entry, found, code⟩ := Option.map_eq_some_iff.mp known
    have only : ∀ entry ∈ Loader.typeCodes, entry.2 = .code → entry.1.toNat = 99 := by decide
    have named : entry.1.toNat = kind := by simpa using List.find?_some found
    rw [← named]
    exact only entry (List.mem_of_find?_eq_some found) code

theorem loads_root (data : List UInt8) (minor : Nat) (st : State)
    (loads : Loader.Loads constructors data minor st) : (Bytes.u8 data 0).map (· % 128) = some 99 := by
  obtain ⟨done, _, fields, holds⟩ := loads
  obtain ⟨octet, type, there, known, null | ⟨_, built⟩⟩ := Loader.r_object_cases constructors done
  · cases null.2.1
  · obtain rfl := built_code constructors rfl built holds
    have kind := code_kind minor (octet % 128) known
    rw [show Bytes.u8 data 0 = some octet from there, Option.map_some, kind]

theorem start_related : Related data minor Loader.start ⟨data, 0, minor, [], [], 0, [], []⟩ [] [] :=
  { stream := rfl, version := rfl, pos := rfl, inside := Nat.zero_le _, steps := rfl, arena := rfl,
    sorted := List.Pairwise.nil, begun := (fun _ member => nomatch member), table := rfl, ordered := List.Pairwise.nil,
    early := (fun _ member => nomatch member), struck := rfl, singles := (fun _ member => nomatch member),
    heap := (fun _ _ present => nomatch present), indices := (fun _ member => nomatch member),
    followed := List.Forall₂.nil, codes := Or.inr List.Forall₂.nil }

theorem references_agree (related : Related data minor st w seen taken) :
    List.Forall₂ (fun found reference => found.1 = reference.1 ∧ w.origins[found.2]? = some reference.2.2)
        w.followed st.references ↔
      ∀ reference ∈ st.references, ∀ singleton ∈ st.singletons, reference.2.2 < singleton := by
  constructor
  · intro right reference member
    obtain ⟨found, ⟨_, there⟩, _, object, entry, placed⟩ := forall₂_member _ _ _ _ right related.followed reference member
    obtain rfl := Option.some.inj (placed.symm.trans there)
    exact (table_entry data minor related (related.indices reference member)).mp entry
  · intro behind
    have both := forall₂_with _ (fun reference : Nat × Nat × Nat => taken[reference.2.1]? = some reference.2.2) _ _
      related.followed (by
        intro reference member
        exact (table_entry data minor related (related.indices reference member)).mpr (behind reference member))
    apply both.imp
    rintro found reference ⟨⟨same, object, entry, placed⟩, there⟩
    obtain rfl := Option.some.inj (entry.symm.trans there)
    exact ⟨same, placed⟩

theorem walk_refines_iff (constructors : Constructors) (data : List UInt8) (minor : Nat) (st : State)
    (loads : Loader.Loads constructors data minor st) (bytes : data.length ≤ maxBytes) (objects : st.steps ≤ maxObjects)
    (depth : st.deepest ≤ maxDepth) :
    WalksAs data minor st ↔
      st.strays = 0 ∧ ∀ reference ∈ st.references, ∀ singleton ∈ st.singletons, reference.2.2 < singleton := by
  have root := loads_root constructors data minor st loads
  obtain ⟨done, ends, _⟩ := loads
  have opened : walk collect [] data minor = (read collect (maxDepth + 1) [] ⟨data, 0, minor, [], [], 0, [], []⟩ >>= fun found =>
      if found.2.2.remaining ≠ 0 then .error "trailing data after marshal code object" else .ok found.2) := by
    rw [walk, if_neg (Nat.not_lt.mpr bytes), if_neg (not_not.mpr root)]
  have follows := read_follows constructors data minor (maxDepth + 1) 0 Loader.recursionLimit (by rfl) _ _ _ _
    (start_related data minor) (some 0) st done objects depth
  rcases follows with ⟨object, slot, seen, w, taken, _, ended, related, onward, _⟩ | ⟨⟨message, failed⟩, wrong⟩
  · have settled : w.remaining = 0 := by
      rw [Walker.remaining, related.stream, related.pos, ends, Nat.sub_self]
    have run : walk collect [] data minor = .ok (seen, w) := by
      rw [opened, ended]
      exact if_neg (not_not.mpr settled)
    constructor
    · rintro ⟨seen', w', run', _, _, followed, _⟩
      obtain ⟨rfl, rfl⟩ := Prod.mk.inj (Except.ok.inj (run'.symm.trans run))
      exact ⟨onward.strays, (references_agree data minor related).mp followed⟩
    · rintro ⟨_, behind⟩
      refine ⟨seen, w, run, related.pos, related.sorted.imp Nat.ne_of_lt,
        (references_agree data minor related).mpr behind, ?_⟩
      rcases related.codes with ⟨reference, met, singleton, flagged, sooner⟩ | reports
      · exact absurd (behind reference met singleton flagged) (Nat.lt_asymm sooner)
      · exact reports
  · constructor
    · rintro ⟨seen, w, run, _⟩
      rw [opened, failed] at run
      cases run
    · rintro ⟨none_, behind⟩
      rcases wrong with stray | ⟨reference, met, singleton, flagged, sooner⟩
      · rw [none_] at stray
        cases stray
      · exact absurd (behind reference met singleton flagged) (Nat.lt_asymm sooner)

def bytesMade (made : Made) : Bool :=
  match made with
  | .plain .string _ _ => true
  | _ => false

def textMade (made : Made) : Bool :=
  match made with
  | .plain (.unicode _) _ _ => true
  | _ => false

def tupleMade (made : Made) : Bool :=
  match made with
  | .tuple _ => true
  | _ => false

-- What PyCode_NewWithPosOnlyArgs asks of its arguments, as 3.8 to 3.10 have it, with no names in the tuples.
def codeMade (heap : Nat → Option Made) (made : Made) : Bool :=
  match made with
  | .code fields =>
      (heap fields.code).any bytesMade && (heap fields.constants).any tupleMade && fields.words.all (· < 2 ^ 31) &&
        (fields.names :: fields.locals).all (fun object => heap object = some (.tuple [])) &&
        (heap fields.filename).any textMade && (heap fields.name).any textMade && (heap fields.lineTable).any bytesMade
  | _ => true

theorem any_some (found : Option Made) (test : Made → Bool) (passes : found.any test = true) :
    ∃ made, found = some made ∧ test made = true := by
  cases found with
  | none => cases passes
  | some made => exact ⟨made, rfl, passes⟩

def plainConstructors : Constructors where
  accepts _ heap made := codeMade heap made
  code_parts := by
    intro data heap fields accepted
    simp only [codeMade, Bool.and_eq_true] at accepted
    obtain ⟨⟨⟨⟨⟨⟨bytes, tuple⟩, _⟩, _⟩, _⟩, _⟩, _⟩ := accepted
    obtain ⟨made, present, bytes⟩ := any_some _ _ bytes
    obtain ⟨other, there, tuple⟩ := any_some _ _ tuple
    unfold bytesMade at bytes
    unfold tupleMade at tuple
    split at bytes
    · split at tuple
      · exact ⟨⟨_, _, present⟩, _, there⟩
      · cases tuple
    · cases bytes

-- A code object of 3.8 with one constant, of a type code given. Its file name has the flag, and its name is a
-- reference to it.
def sharedName (constant : UInt8) : List UInt8 :=
  [0x63, 0, 0, 0, 0, 0, 0, 0, 0, 0, 0, 0, 0, 0, 0, 0, 0, 1, 0, 0, 0, 0x40, 0, 0, 0, 0x73, 4, 0, 0, 0, 0x64, 0, 0x53, 0,
    0x29, 1, constant, 0x29, 0, 0x29, 0, 0x29, 0, 0x29, 0, 0xFA, 1, 0x61, 0x72, 0, 0, 0, 0, 1, 0, 0, 0, 0x73, 0, 0, 0, 0]

def sharedNameLoaded (constant : UInt8) : State :=
  ((Loader.rObject plainConstructors (sharedName constant) 8 Loader.recursionLimit 0 Loader.start).getD (none, Loader.start)).2

theorem shared_name_loads : ∀ constant ∈ [(0x4E : UInt8), 0xCE],
    Loader.Loads plainConstructors (sharedName constant) 8 (sharedNameLoaded constant) ∧
      (sharedName constant).length ≤ maxBytes ∧ (sharedNameLoaded constant).steps ≤ maxObjects ∧
      (sharedNameLoaded constant).deepest ≤ maxDepth := by
  have loads : ∀ constant ∈ [(0x4E : UInt8), 0xCE],
      Loader.rObject plainConstructors (sharedName constant) 8 Loader.recursionLimit 0 Loader.start =
        some (some 0, sharedNameLoaded constant) ∧ (sharedNameLoaded constant).pos = (sharedName constant).length ∧
      (sharedNameLoaded constant).heap 0 =
        some (.code ⟨[0, 0, 0, 0, 1, 64], 25, 34, 37, [39, 41, 43], 45, 45, [], 57, []⟩) ∧
      (sharedName constant).length ≤ maxBytes ∧ (sharedNameLoaded constant).steps ≤ maxObjects ∧
      (sharedNameLoaded constant).deepest ≤ maxDepth := by decide +kernel
  intro constant member
  obtain ⟨run, ends, made, budgets⟩ := loads constant member
  exact ⟨⟨run, ends, _, made⟩, budgets⟩

theorem walk_refines_iff_shared_name : WalksAs (sharedName 0x4E) 8 (sharedNameLoaded 0x4E) := by
  obtain ⟨loads, bytes, objects, depth⟩ := shared_name_loads 0x4E (by decide)
  exact (walk_refines_iff plainConstructors (sharedName 0x4E) 8 (sharedNameLoaded 0x4E) loads bytes objects depth).mpr
    (by decide +kernel)

theorem flagged_none_misleads :
    Loader.Loads plainConstructors (sharedName 0xCE) 8 (sharedNameLoaded 0xCE) ∧ (sharedName 0xCE).length ≤ maxBytes ∧
      (sharedNameLoaded 0xCE).steps ≤ maxObjects ∧ (sharedNameLoaded 0xCE).deepest ≤ maxDepth ∧
      ¬ WalksAs (sharedName 0xCE) 8 (sharedNameLoaded 0xCE) := by
  obtain ⟨loads, bytes, objects, depth⟩ := shared_name_loads 0xCE (by decide)
  refine ⟨loads, bytes, objects, depth, ?_⟩
  rintro ⟨seen, w, run, _, _, followed, _⟩
  -- The walker gives the reference at 48 the slot of the None at 36.
  have led : (walk collect [] (sharedName 0xCE) 8).toOption.map (fun ended => (ended.2.followed, ended.2.origins[3]?)) =
      some ([(48, 3)], some 36) := by decide +kernel
  have target : (sharedNameLoaded 0xCE).references = [(48, 0, 45)] := by decide +kernel
  rw [run] at led
  obtain ⟨one, placed⟩ := Prod.mk.inj (Option.some.inj led)
  rw [one, target] at followed
  obtain ⟨⟨_, there⟩, _⟩ := List.forall₂_cons.mp followed
  cases placed.symm.trans there

end Filefacts.Marshal
