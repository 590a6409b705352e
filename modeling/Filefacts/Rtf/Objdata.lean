import Filefacts.Rtf.HexRun

set_option autoImplicit false

namespace Filefacts.Rtf

open Bytes (ascii)

def maxDecoded : Nat := 256 * 1024

def maxHex : Nat := 2 * 1024 * 1024

def maxBlobs : Nat := 32

def objdata : List UInt8 := ascii "\\objdata"

def findFrom (bytes : List UInt8) (pos : Nat) (needle : List UInt8) : Option Nat :=
  Search.first (fun i => needle.isPrefixOf (bytes.drop i)) bytes.length pos

def blob (bytes : List UInt8) (start : Nat) : List UInt8 := decodeHexRun (bytes.drop start) maxHex maxDecoded

-- The entries of the OLE header reader, the blobs whose strings are kept, the two numbers of the metrics, and beside them
-- where decodes were started.
structure Objects (Entry : Type) where
  out : List Entry
  blobs : List (List UInt8)
  count : Nat
  decodedTotal : Nat
  started : List Nat

section Walk

variable {Entry : Type} (ole1Header : List UInt8 → Option Entry) (bytes : List UInt8)

def decoded (objects : Objects Entry) (start : Nat) : Objects Entry :=
  let data := blob bytes start
  let objects := { objects with started := objects.started ++ [start] }
  -- An empty blob goes on before the count.
  if data = [] then objects
  else
    { objects with
      count := objects.count + 1
      decodedTotal := objects.decodedTotal + data.length
      blobs := objects.blobs ++ [data]
      out := objects.out ++ (ole1Header data).toList }

def objdataFrom : Nat → Nat → Objects Entry → Objects Entry
  | 0, _, objects => objects
  | fuel + 1, pos, objects =>
      match findFrom bytes pos objdata with
      | none => objects
      | some at_ =>
          if maxBlobs ≤ objects.count then objects
          else objdataFrom fuel (at_ + 8) (decoded ole1Header bytes objects (at_ + 8))

def objdataObjects : Objects Entry := objdataFrom ole1Header bytes (bytes.length + 1) 0 ⟨[], [], 0, 0, []⟩

def wordsFrom : Nat → Nat → List Nat
  | 0, _ => []
  | fuel + 1, pos =>
      match findFrom bytes pos objdata with
      | none => []
      | some at_ => (at_ + 8) :: wordsFrom fuel (at_ + 8)

def objdataWords : List Nat := wordsFrom bytes (bytes.length + 1) 0

theorem words_from_fuel (fuel : Nat) : ∀ pos, bytes.length < fuel + pos → wordsFrom bytes (fuel + 1) pos = wordsFrom bytes fuel pos := by
  induction fuel with
  | zero =>
      intro pos past
      have none_ : findFrom bytes pos objdata = none :=
        (Search.first_eq_none _ _ _).mpr fun other above below => absurd past (by omega)
      simp only [wordsFrom, none_]
  | succ fuel ih =>
      intro pos past
      rw [wordsFrom, wordsFrom]
      cases found : findFrom bytes pos objdata with
      | none => rfl
      | some at_ =>
          have above := ((Search.first_eq_some _ _ _ _).mp found).from_
          exact congrArg _ (ih (at_ + 8) (by omega))

def walked (words : List Nat) (objects : Objects Entry) : Objects Entry :=
  match words with
  | [] => objects
  | start :: words => if maxBlobs ≤ objects.count then objects else walked words (decoded ole1Header bytes objects start)

theorem objdata_from_walked (fuel : Nat) : ∀ pos objects,
    objdataFrom ole1Header bytes fuel pos objects = walked ole1Header bytes (wordsFrom bytes fuel pos) objects := by
  induction fuel with
  | zero => exact fun _ _ => rfl
  | succ fuel ih =>
      intro pos objects
      rw [objdataFrom, wordsFrom]
      cases findFrom bytes pos objdata with
      | none => rfl
      | some at_ =>
          dsimp only
          rw [walked, ih]

variable (objects : Objects Entry) (start : Nat)

theorem decoded_started : (decoded ole1Header bytes objects start).started = objects.started ++ [start] := by
  rw [decoded]
  split <;> rfl

theorem decoded_count : (decoded ole1Header bytes objects start).count =
    if blob bytes start = [] then objects.count else objects.count + 1 := by
  rw [decoded]
  split <;> rfl

-- What was started and not counted does not become less, and stays the same where every word up to the cap decodes.
theorem walked_counted (words : List Nat) : ∀ objects : Objects Entry,
    let after := walked ole1Header bytes words objects
    after.count ≤ max maxBlobs objects.count ∧ after.count + objects.started.length ≤ objects.count + after.started.length ∧
      (after.count + objects.started.length = objects.count + after.started.length ↔
        ∀ start ∈ words.take (maxBlobs - objects.count), blob bytes start ≠ []) := by
  induction words with
  | nil => exact fun objects => ⟨Nat.le_max_right _ _, Nat.le_refl _, iff_of_true rfl fun _ listed => by cases List.take_nil ▸ listed⟩
  | cons start words ih =>
      intro objects
      rw [walked]
      by_cases full : maxBlobs ≤ objects.count
      · rw [if_pos full, Nat.sub_eq_zero_of_le full, List.take_zero]
        exact ⟨Nat.le_max_right _ _, Nat.le_refl _, iff_of_true rfl fun _ listed => nomatch listed⟩
      · rw [if_neg full]
        obtain ⟨bound, fewer, same⟩ := ih (decoded ole1Header bytes objects start)
        have room : maxBlobs - objects.count = (maxBlobs - (objects.count + 1)) + 1 := by omega
        rw [room, List.take_succ_cons, List.forall_mem_cons]
        rw [decoded_started, List.length_append, List.length_singleton, decoded_count] at fewer same
        rw [decoded_count] at bound
        by_cases empty : blob bytes start = []
        · rw [if_pos empty] at bound fewer
          exact ⟨bound, by omega, iff_of_false (by omega) fun both => both.1 empty⟩
        · rw [if_neg empty] at bound fewer same
          refine ⟨by omega, by omega, ?_⟩
          rw [← same, and_iff_right empty]
          omega

end Walk

def scanned (bytes : List UInt8) (started : List Nat) : Nat :=
  bytes.length + (started.map fun start => ((bytes.drop start).take maxHex).length).sum

structure Capped {Entry : Type} (bytes : List UInt8) (objects : Objects Entry) : Prop where
  starts : objects.started.length ≤ maxBlobs + 1
  scans : scanned bytes objects.started ≤ (maxBlobs + 1) * maxHex + bytes.length
  counted : objects.count = objects.started.length

theorem scanned_le (bytes : List UInt8) (started : List Nat) : scanned bytes started ≤ started.length * maxHex + bytes.length := by
  rw [scanned, Nat.add_comm]
  refine Nat.add_le_add_right ?_ _
  induction started with
  | nil => exact Nat.zero_le _
  | cons start started ih =>
      rw [List.map_cons, List.sum_cons, List.length_cons, Nat.succ_mul, Nat.add_comm]
      exact Nat.add_le_add ih (List.length_take_le _ _)

theorem objdata_objects_capped_iff {Entry : Type} (ole1Header : List UInt8 → Option Entry) (bytes : List UInt8) :
    Capped bytes (objdataObjects ole1Header bytes) ↔ ∀ start ∈ (objdataWords bytes).take maxBlobs, blob bytes start ≠ [] := by
  have ran : objdataObjects ole1Header bytes = walked ole1Header bytes (objdataWords bytes) ⟨[], [], 0, 0, []⟩ :=
    objdata_from_walked ole1Header bytes _ 0 _
  obtain ⟨bound, _, same⟩ := walked_counted ole1Header bytes (objdataWords bytes) ⟨[], [], 0, 0, []⟩
  rw [← ran] at bound same
  simp only [List.length_nil, Nat.add_zero, Nat.zero_add, Nat.sub_zero] at same
  rw [← same]
  constructor
  · exact Capped.counted
  · intro counted
    have starts : (objdataObjects ole1Header bytes).started.length ≤ maxBlobs + 1 := by
      rw [← counted]
      exact bound.trans (Nat.le_succ _)
    have scans := scanned_le bytes (objdataObjects ole1Header bytes).started
    exact ⟨starts, scans.trans (Nat.add_le_add_right (Nat.mul_le_mul_right _ starts) _), counted⟩

theorem blob_closed (bytes : List UInt8) (start : Nat) (closed : (bytes.drop start).head? = some 125) : blob bytes start = [] := by
  obtain ⟨rest, shape⟩ := List.head?_eq_some_iff.mp closed
  rw [blob, decodeHexRun, shape, maxHex, List.take_succ_cons, decode_end]

theorem walked_empty {Entry : Type} (ole1Header : List UInt8 → Option Entry) (bytes : List UInt8) (words : List Nat)
    (empty : ∀ start ∈ words, blob bytes start = []) : ∀ objects : Objects Entry, objects.count < maxBlobs →
      (walked ole1Header bytes words objects).started = objects.started ++ words := by
  induction words with
  | nil => exact fun objects _ => (List.append_nil _).symm
  | cons start words ih =>
      intro objects room
      have nothing := empty start List.mem_cons_self
      have count := decoded_count ole1Header bytes objects start
      rw [if_pos nothing] at count
      rw [walked, if_neg (Nat.not_le.mpr room), ih (fun other listed => empty other (List.mem_cons_of_mem _ listed)) _ (count ▸ room),
        decoded_started, List.append_assoc, List.singleton_append]

def emptyWords : List UInt8 := (List.replicate 34 (ascii "\\objdata\x7d")).flatten

theorem empty_words_all_decoded : ¬ Capped emptyWords (objdataObjects (fun _ => none (α := Unit)) emptyWords) := by
  intro capped
  have closed : ∀ start ∈ objdataWords emptyWords, (emptyWords.drop start).head? = some 125 := by decide +kernel
  have words : (objdataWords emptyWords).length = 34 := by decide +kernel
  have starts := capped.starts
  rw [objdataObjects, objdata_from_walked, ← objdataWords,
    walked_empty _ _ _ (fun start listed => blob_closed _ start (closed start listed)) _ (by decide), List.nil_append, words] at starts
  exact absurd starts (by decide)

end Filefacts.Rtf
