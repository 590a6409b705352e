import Filefacts.Cache.Sweep
import Mathlib.Logic.Function.Basic
import Mathlib.Logic.Relation

set_option autoImplicit false

namespace Filefacts.SharedCache

open Cache (FilePath tempPrefix)

abbrev Bytes := List UInt8

def maxEntryBytes : Nat := 2 ^ 30

def entryLocation (key : Bytes) : Option FilePath :=
  if key.length < 2 then none else some (key.take 2, key ++ [46, 98, 105, 110])

-- serde_json and zstd. A decoder stopped at a number of bytes has read that many of what was encoded.
structure Codec (Value : Type) where
  toVec : Value → Option Bytes
  fromSlice : Bytes → Option Value
  encodeAll : Bytes → Option Bytes
  decoder : Bytes → Nat → Option Bytes
  decodes : ∀ bytes packed, encodeAll bytes = some packed → ∀ most, decoder packed most = some (bytes.take most)

-- One open: what it computes on a miss, and the random part of the name of its temp file.
structure Open (Value : Type) where
  key : Bytes
  computed : Value
  cacheable : Bool
  random : Bytes
  plain : 46 ∉ random

variable {Value : Type} (codec : Codec Value)

def Open.temp (opened : Open Value) : FilePath := (opened.key.take 2, tempPrefix ++ opened.random)

def Open.packed (opened : Open Value) : Option Bytes :=
  if opened.cacheable then
    (codec.toVec opened.computed).bind fun serialized => if maxEntryBytes < serialized.length then none else codec.encodeAll serialized
  else none

def loadCapped (bytes : Bytes) : Option Value :=
  (codec.decoder bytes (maxEntryBytes + 1)).bind fun decoded =>
    if maxEntryBytes < decoded.length then none else codec.fromSlice decoded

-- A finished open has returned what it computed, or its process has died.
inductive Phase (Value : Type) where
  | opening
  | loading (file : Nat) (got : Bytes)
  | loaded (value : Value)
  | computing
  | storing
  | finished

-- A file has the number of the open that creates it, one at most, and holds what that has written so far.
structure World (Value : Type) where
  disk : FilePath → Option Nat
  written : Nat → Nat
  phase : Nat → Phase Value

variable (opens : Nat → Open Value) (world : World Value)

def World.empty : World Value := ⟨fun _ => none, fun _ => 0, fun _ => .opening⟩

def content (file : Nat) : Bytes := (((opens file).packed codec).getD []).take (world.written file)

def World.move (p : Nat) (phase : Phase Value) : World Value := { world with phase := Function.update world.phase p phase }

def World.link (path : FilePath) (file : Option Nat) : World Value := { world with disk := Function.update world.disk path file }

-- Opens of any threads and processes, in any order; a file is read, and written, in pieces. `miss` is a load that fails,
-- `finish` a transient result, a store that fails, or a death; `remove` a sweep's, or a failed store's of its temp file.
inductive Step : World Value → World Value → Prop
  | found (world p path file) (opening : world.phase p = .opening) (located : entryLocation (opens p).key = some path)
      (there : world.disk path = some file) : Step world (world.move p (.loading file []))
  | read (world p file got most) (loading : world.phase p = .loading file got) :
      Step world (world.move p (.loading file (got ++ ((content codec opens world file).drop got.length).take most)))
  | hit (world p file got value) (loading : world.phase p = .loading file got)
      (ended : (content codec opens world file).length ≤ got.length) (decoded : loadCapped codec got = some value) :
      Step world (world.move p (.loaded value))
  | miss (world p) (missing : world.phase p = .opening ∨ ∃ file got, world.phase p = .loading file got) :
      Step world (world.move p .computing)
  -- A random name is not that of a store still at work.
  | create (world p packed) (computing : world.phase p = .computing) (payload : (opens p).packed codec = some packed)
      (unused : ∀ q, world.phase q = .storing → (opens p).temp ≠ (opens q).temp) :
      Step world ((world.link (opens p).temp (some p)).move p .storing)
  | write (world p most) (storing : world.phase p = .storing) :
      Step world { world with written := Function.update world.written p (world.written p + most) }
  | persist (world p packed path file) (storing : world.phase p = .storing) (payload : (opens p).packed codec = some packed)
      (all : packed.length ≤ world.written p) (located : entryLocation (opens p).key = some path)
      (there : world.disk (opens p).temp = some file) :
      Step world (((world.link path (some file)).link (opens p).temp none).move p .finished)
  | finish (world p) (unanswered : ∀ value, world.phase p ≠ .loaded value) : Step world (world.move p .finished)
  | remove (world path) : Step world (world.link path none)

-- The file holds a whole entry of the key.
def Whole (key : Bytes) (file : Nat) : Prop :=
  (opens file).key = key ∧ ∃ packed, (opens file).packed codec = some packed ∧ packed.length ≤ world.written file

def Fine (p : Nat) : Phase Value → Prop
  | .loading file got => Whole codec opens world (opens p).key file ∧ got <+: content codec opens world file
  | .loaded value => ∃ q, (opens q).key = (opens p).key ∧ (opens q).cacheable = true ∧
      (codec.toVec (opens q).computed).bind codec.fromSlice = some value
  | .storing => ∀ file, world.disk (opens p).temp = some file → file = p
  | _ => True

structure Sound : Prop where
  entries : ∀ key path file, entryLocation key = some path → world.disk path = some file → Whole codec opens world key file
  fine : ∀ p, Fine codec opens world p (world.phase p)

theorem packed_cacheable (opened : Open Value) (packed : Bytes) (payload : opened.packed codec = some packed) :
    opened.cacheable = true ∧ ∀ loaded, loadCapped codec packed = some loaded →
      (codec.toVec opened.computed).bind codec.fromSlice = some loaded := by
  rw [Open.packed, Option.ite_none_right_eq_some] at payload
  refine ⟨payload.1, fun loaded load => ?_⟩
  obtain ⟨serialized, written, fits⟩ := Option.bind_eq_some_iff.mp payload.2
  rw [Option.ite_none_left_eq_some, not_lt] at fits
  rw [loadCapped, codec.decodes serialized packed fits.2, Option.bind_some,
    List.take_of_length_le (Nat.le_succ_of_le fits.1), if_neg (not_lt.mpr fits.1)] at load
  rw [written, Option.bind_some, load]

theorem location_key (key other : Bytes) (path : FilePath) (one : entryLocation key = some path)
    (two : entryLocation other = some path) : key = other := by
  rw [entryLocation, Option.ite_none_left_eq_some, Option.some.injEq] at one two
  exact List.append_cancel_right (congrArg Prod.snd (one.2.trans two.2.symm))

theorem temp_no_entry (opened : Open Value) (key : Bytes) : entryLocation key ≠ some opened.temp := by
  intro located
  rw [entryLocation, Option.ite_none_left_eq_some, Option.some.injEq] at located
  have name : key ++ [46, 98, 105, 110] = [46, 116, 109, 112] ++ opened.random := congrArg Prod.snd located.2
  cases key with
  | nil => simp at name
  | cons first key =>
      have inside : (46 : UInt8) ∈ key ++ [46, 98, 105, 110] := List.mem_append_right key List.mem_cons_self
      have behind : key ++ [46, 98, 105, 110] = [116, 109, 112] ++ opened.random := (List.cons.inj name).2
      rw [behind] at inside
      simp [opened.plain] at inside

variable {codec} {opens} {world} {next : World Value} {key : Bytes} {file : Nat}

theorem whole_content (whole : Whole codec opens world key file) :
    (opens file).packed codec = some (content codec opens world file) := by
  obtain ⟨-, packed, payload, all⟩ := whole
  rw [content, payload, Option.getD_some, List.take_of_length_le all]

theorem whole_grown (grown : world.written ≤ next.written) (whole : Whole codec opens world key file) :
    Whole codec opens next key file ∧ content codec opens next file = content codec opens world file := by
  have after : Whole codec opens next key file :=
    ⟨whole.1, whole.2.imp fun _ held => ⟨held.1, held.2.trans (grown file)⟩⟩
  exact ⟨after, Option.some.inj ((whole_content after).symm.trans (whole_content whole))⟩

-- A step whose links are old ones, whole entries, or a temp file of its own.
theorem sound_next (sound : Sound codec opens world) (grown : world.written ≤ next.written)
    (links : ∀ key path file, entryLocation key = some path → next.disk path = some file →
      world.disk path = some file ∨ Whole codec opens next key file)
    (fine : ∀ p, (next.phase p = world.phase p ∧
        (world.phase p = .storing → ∀ file, next.disk (opens p).temp = some file → world.disk (opens p).temp = some file)) ∨
      Fine codec opens next p (next.phase p)) : Sound codec opens next := by
  refine ⟨fun key path file located there => ?_, fun p => ?_⟩
  · rcases links key path file located there with before | whole
    · exact (whole_grown grown (sound.entries key path file located before)).1
    · exact whole
  · rcases fine p with ⟨same, temps⟩ | holds
    · have before := sound.fine p
      rw [same]
      cases standing : world.phase p with
      | loading file got =>
          rw [standing] at before
          obtain ⟨whole, equal⟩ := whole_grown grown before.1
          exact ⟨whole, equal.symm ▸ before.2⟩
      | loaded value =>
          rw [standing] at before
          exact before
      | storing =>
          rw [standing] at before
          exact fun file there => before file (temps standing file there)
      | _ => trivial
    · exact holds

theorem sound_move (sound : Sound codec opens world) (p : Nat) (phase : Phase Value) (fine : Fine codec opens world p phase) :
    Sound codec opens (world.move p phase) := by
  refine sound_next sound le_rfl (fun _ _ _ _ => Or.inl) fun q => ?_
  by_cases same : q = p
  · subst same
    right
    rw [show (world.move q phase).phase q = phase from Function.update_self ..]
    cases phase <;> exact fine
  · exact Or.inl ⟨Function.update_of_ne same _ _, fun _ _ => id⟩

theorem link_cases {path place : FilePath} {link : Option Nat} (there : (world.link path link).disk place = some file) :
    place = path ∧ link = some file ∨ world.disk place = some file := by
  by_cases same : place = path
  · exact Or.inl ⟨same, by simpa [World.link, same] using there⟩
  · exact Or.inr (by simpa [World.link, same] using there)

theorem sound_link (sound : Sound codec opens world) (path : FilePath) (link : Option Nat)
    (held : ∀ file, link = some file → (∀ key, entryLocation key = some path → Whole codec opens world key file) ∧
      ∀ p, world.phase p = .storing → (opens p).temp ≠ path) : Sound codec opens (world.link path link) := by
  refine sound_next sound le_rfl (fun key place file located there => ?_) fun p => Or.inl ⟨rfl, fun storing file there => ?_⟩
  · rcases link_cases there with ⟨rfl, same⟩ | before
    · exact Or.inr ((held file same).1 key located)
    · exact Or.inl before
  · rcases link_cases there with ⟨same, put⟩ | before
    · exact absurd same ((held file put).2 p storing)
    · exact before

theorem step_sound (sound : Sound codec opens world) (step : Step codec opens world next) : Sound codec opens next := by
  cases step with
  | found p path file opening located there =>
      exact sound_move sound p _ ⟨sound.entries _ path file located there, List.nil_prefix⟩
  | read p file got most loading =>
      have fine := sound.fine p
      rw [loading] at fine
      obtain ⟨whole, rest, same⟩ := fine
      refine sound_move sound p _ ⟨whole, ?_⟩
      rw [← same, List.drop_left]
      exact (List.prefix_append_right_inj got).mpr (List.take_prefix most rest)
  | hit p file got value loading ended decoded =>
      have fine := sound.fine p
      rw [loading] at fine
      rw [fine.2.eq_of_length_le ended] at decoded
      obtain ⟨cacheable, reads⟩ := packed_cacheable codec _ _ (whole_content fine.1)
      exact sound_move sound p _ ⟨file, fine.1.1, cacheable, reads value decoded⟩
  | miss p missing => exact sound_move sound p _ trivial
  | create p packed computing payload unused =>
      have linked := sound_link sound (opens p).temp (some p) fun _ _ =>
        ⟨fun key located => absurd located (temp_no_entry (opens p) key), fun q storing => (unused q storing).symm⟩
      refine sound_move linked p _ fun file there => ?_
      simpa [World.link, eq_comm] using there
  | write p most storing =>
      have grown : world.written ≤ Function.update world.written p (world.written p + most) :=
        le_update_iff.mpr ⟨Nat.le_add_right _ most, fun _ _ => le_rfl⟩
      exact sound_next sound grown (fun _ _ _ _ => Or.inl) fun q => Or.inl ⟨rfl, fun _ _ => id⟩
  | persist p packed path file storing payload all located there =>
      have own := sound.fine p
      rw [storing] at own
      obtain rfl : file = p := own file there
      have renamed := sound_link sound path (some file) fun number same =>
        ⟨fun key placed => Option.some.inj same ▸ ⟨location_key _ _ path located placed, packed, payload, all⟩,
          fun q _ same => temp_no_entry (opens q) _ (same ▸ located)⟩
      exact sound_move (sound_link renamed _ none (fun _ => nofun)) file _ trivial
  | finish p unanswered => exact sound_move sound p _ trivial
  | remove path => exact sound_link sound path none fun _ => nofun

theorem shared_opens_sound (run : Relation.ReflTransGen (Step codec opens) World.empty world) :
    (∀ key path file, entryLocation key = some path → world.disk path = some file →
      (opens file).key = key ∧ (opens file).packed codec = some (content codec opens world file)) ∧
    ∀ p value, world.phase p = .loaded value →
      ∃ q, (opens q).key = (opens p).key ∧ (opens q).cacheable = true ∧
        (codec.toVec (opens q).computed).bind codec.fromSlice = some value := by
  have sound : Sound codec opens world := by
    induction run with
    | refl => exact ⟨fun _ _ _ _ => nofun, fun _ => trivial⟩
    | tail _ step ih => exact step_sound ih step
  refine ⟨fun key path file located there => ?_, fun p value loaded => ?_⟩
  · have whole := sound.entries key path file located there
    exact ⟨whole.1, whole_content whole⟩
  · have fine := sound.fine p
    rw [loaded] at fine
    exact fine

def plainCodec : Codec Bytes where
  toVec := some
  fromSlice := some
  encodeAll := some
  decoder := fun bytes most => some (bytes.take most)
  decodes := fun bytes packed same most => by rw [Option.some.inj same]

def sameOpens : Nat → Open Bytes := fun _ => ⟨[97, 98], [7], true, [], List.not_mem_nil⟩

-- The first open stores its result, the second loads it.
theorem shared_opens_sound_two : ∃ q, (sameOpens q).key = [97, 98] ∧ (sameOpens q).cacheable = true ∧
    (plainCodec.toVec (sameOpens q).computed).bind plainCodec.fromSlice = some [7] := by
  have empty : Relation.ReflTransGen (Step plainCodec sameOpens) World.empty World.empty := .refl
  have missed := empty.tail (.miss _ 0 (Or.inl rfl))
  have created := missed.tail (.create _ 0 [7] rfl rfl fun q storing => by
    rcases q with _ | q <;> simp [World.move, World.empty] at storing)
  have wrote := created.tail (.write _ 0 1 rfl)
  have persisted := wrote.tail (.persist _ 0 [7] _ 0 rfl rfl (by decide) rfl rfl)
  have found := persisted.tail (.found _ 1 _ 0 rfl rfl rfl)
  have read := found.tail (.read _ 1 0 [] 1 rfl)
  have hit := read.tail (.hit _ 1 0 [7] [7] rfl (by decide) rfl)
  exact (shared_opens_sound hit).2 1 [7] rfl

end Filefacts.SharedCache
