import Filefacts.Lib.Delimited

set_option autoImplicit false

namespace Filefacts.Cache

-- `Debug` of a str: the characters with an escape of their own, then those
-- Unicode gives no glyph (`escaped`), by their number, then the rest as is.
def escapes : List (Char × Char) :=
  [('\x00', '0'), ('\t', 't'), ('\r', 'r'), ('\n', 'n'), ('"', '"'), ('\\', '\\')]

def escapeDebug (escaped : Char → Bool) (c : Char) : List Char :=
  match escapes.lookup c with
  | some letter => ['\\', letter]
  | none => if escaped c then '\\' :: 'u' :: '\x7b' :: (Nat.toDigits 16 c.toNat ++ ['\x7d']) else [c]

def debugStr (escaped : Char → Bool) (text : String) : List Char :=
  '"' :: (text.toList.flatMap (escapeDebug escaped) ++ ['"'])

def debugOption (escaped : Char → Bool) (text : Option String) : String :=
  match text with
  | none => "None"
  | some text => "Some(" ++ String.ofList (debugStr escaped text) ++ ")"

structure VariantInput where
  cacheNamespace : Option String
  label : String
  extensionMismatch : Bool
  mismatchTransition : Option (String × String)
  basename : Option String
deriving DecidableEq, Repr

def VariantInput.transition (input : VariantInput) : String :=
  match input.extensionMismatch, input.mismatchTransition with
  | false, _ => "-"
  | true, none => "?"
  | true, some (content, ext) => content ++ "_as_" ++ ext

def policy : String := "binform=v10"

def extractionCacheVariant (escaped : Char → Bool) (input : VariantInput) : String :=
  policy ++ ";namespace=" ++ debugOption escaped input.cacheNamespace ++ ";file_type=" ++ input.label ++
    ";mismatch=" ++ input.transition ++ ";basename=" ++ debugOption escaped input.basename

def asBytes (text : String) : List UInt8 := text.toList.flatMap String.utf8EncodeChar

def cachePreimage (buildFingerprint : String) (bytes : List UInt8) (variant : String) : List UInt8 :=
  bytes ++ [0] ++ asBytes buildFingerprint ++ [0] ++ asBytes variant

def Clean (text : String) : Prop := ';' ∉ text.toList ∧ '\x00' ∉ text.toList

structure VariantInput.Clean (input : VariantInput) : Prop where
  label : Cache.Clean input.label
  groups : ∀ content ext, input.mismatchTransition = some (content, ext) → Cache.Clean content ∧ Cache.Clean ext

theorem digit_char_unique : ∀ a < 16, ∀ b < 16, Nat.digitChar a = Nat.digitChar b → a = b := by
  decide

theorem digit_char_brace : ∀ a < 16, Nat.digitChar a ≠ '\x7d' ∧ Nat.digitChar a ≠ '\x00' := by
  decide

variable (number : Nat) (c : Char)

theorem hex_member (member : c ∈ Nat.toDigits 16 number) : ∃ digit < 16, c = Nat.digitChar digit := by
  induction number using Nat.strongRecOn with
  | ind number ih =>
      rw [Nat.toDigits_eq_if (by decide)] at member
      split at member
      · rename_i small
        exact ⟨number, small, List.mem_singleton.mp member⟩
      · rcases List.mem_append.mp member with front | last
        · exact ih (number / 16) (by omega) front
        · exact ⟨number % 16, by omega, List.mem_singleton.mp last⟩

theorem hex_unique (a b : Nat) (same : Nat.toDigits 16 a = Nat.toDigits 16 b) : a = b := by
  induction a using Nat.strongRecOn generalizing b with
  | ind a ih =>
      rw [Nat.toDigits_eq_if (b := 16) (n := a) (by decide), Nat.toDigits_eq_if (b := 16) (n := b) (by decide)] at same
      by_cases smallA : a < 16 <;> by_cases smallB : b < 16
      · simp only [smallA, smallB, if_true, List.cons.injEq, and_true] at same
        exact digit_char_unique a smallA b smallB same
      · simp only [smallA, smallB, if_true, if_false] at same
        have front : Nat.toDigits 16 (b / 16) = [] := by
          cases view : Nat.toDigits 16 (b / 16) with
          | nil => rfl
          | cons digit digits => simp [view] at same
        exact absurd front Nat.toDigits_ne_nil
      · simp only [smallA, smallB, if_true, if_false] at same
        have front : Nat.toDigits 16 (a / 16) = [] := by
          cases view : Nat.toDigits 16 (a / 16) with
          | nil => rfl
          | cons digit digits => simp [view] at same
        exact absurd front Nat.toDigits_ne_nil
      · simp only [smallA, smallB, if_false] at same
        obtain ⟨front, last⟩ := List.append_inj' same rfl
        have quotient := ih (a / 16) (by omega) (b / 16) front
        have remainder := digit_char_unique (a % 16) (by omega) (b % 16) (by omega) (List.cons.inj last).1
        omega

theorem lookup_member {Key Value : Type} [BEq Key] [LawfulBEq Key] (table : List (Key × Value)) (key : Key) (value : Value)
    (found : table.lookup key = some value) : (key, value) ∈ table := by
  induction table with
  | nil => simp at found
  | cons entry table ih =>
      obtain ⟨key', value'⟩ := entry
      rw [List.lookup_cons] at found
      cases same : key == key' with
      | true =>
          obtain rfl : value' = value := by simpa [same] using found
          exact eq_of_beq same ▸ List.mem_cons_self
      | false => exact List.mem_cons_of_mem _ (ih (by simpa [same] using found))

theorem escapes_unique : ∀ entry ∈ escapes, ∀ other ∈ escapes, entry.2 = other.2 → entry.1 = other.1 := by
  decide

theorem escapes_letters : ∀ entry ∈ escapes, entry.2 ≠ 'u' ∧ entry.2 ≠ '\x00' := by
  decide

theorem lookup_none (plain : escapes.lookup c = none) : c ≠ '\\' ∧ c ≠ '"' ∧ c ≠ '\x00' := by
  refine ⟨?_, ?_, ?_⟩ <;> rintro rfl <;> simp [escapes] at plain

inductive Escaped (escaped : Char → Bool) (c : Char) : List Char → Prop where
  | letter (letter : Char) (entry : (c, letter) ∈ escapes) : Escaped escaped c ['\\', letter]
  | number (plain : escapes.lookup c = none) :
      Escaped escaped c ('\\' :: 'u' :: '\x7b' :: (Nat.toDigits 16 c.toNat ++ ['\x7d']))
  | itself (plain : escapes.lookup c = none) : Escaped escaped c [c]

variable (escaped : Char → Bool) (input : VariantInput)

theorem escape_debug_forms (c : Char) : Escaped escaped c (escapeDebug escaped c) := by
  unfold escapeDebug
  cases entry : escapes.lookup c with
  | some letter => exact .letter letter (lookup_member escapes c letter entry)
  | none =>
      cases escaped c with
      | true => exact .number entry
      | false => exact .itself entry

theorem escape_debug_delimiting : Delimited.SelfDelimiting (escapeDebug escaped) := by
  intro a b after after' same
  have formA := escape_debug_forms escaped a
  have formB := escape_debug_forms escaped b
  generalize escapeDebug escaped a = shownA at same formA
  generalize escapeDebug escaped b = shownB at same formB
  cases formA with
  | letter letterA entryA =>
      cases formB with
      | letter letterB entryB =>
          obtain ⟨rfl, rest⟩ : letterA = letterB ∧ after = after' := by simpa using same
          exact ⟨escapes_unique _ entryA _ entryB rfl, rest⟩
      | number plainB =>
          have letter : letterA = 'u' := by
            simp only [List.cons_append, List.cons.injEq] at same
            exact same.2.1
          exact absurd letter (escapes_letters _ entryA).1
      | itself plainB =>
          simp only [List.cons_append, List.cons.injEq] at same
          exact absurd same.1.symm (lookup_none b plainB).1
  | number plainA =>
      cases formB with
      | letter letterB entryB =>
          have letter : letterB = 'u' := by
            simp only [List.cons_append, List.cons.injEq] at same
            exact same.2.1.symm
          exact absurd letter (escapes_letters _ entryB).1
      | number plainB =>
          simp only [List.cons_append, List.append_assoc, List.cons.injEq, true_and, List.nil_append] at same
          have brace : ∀ number, '\x7d' ∉ Nat.toDigits 16 number := by
            intro number member
            obtain ⟨digit, small, view⟩ := hex_member number _ member
            exact (digit_char_brace digit small).1 view.symm
          obtain ⟨digits, rest⟩ := Delimited.first_separator _ _ _ _ _ (brace _) (brace _) same
          exact ⟨Char.toNat_inj.mp (hex_unique _ _ digits), rest⟩
      | itself plainB =>
          simp only [List.cons_append, List.cons.injEq] at same
          exact absurd same.1.symm (lookup_none b plainB).1
  | itself plainA =>
      cases formB with
      | letter letterB entryB =>
          simp only [List.cons_append, List.cons.injEq] at same
          exact absurd same.1 (lookup_none a plainA).1
      | number plainB =>
          simp only [List.cons_append, List.cons.injEq] at same
          exact absurd same.1 (lookup_none a plainA).1
      | itself plainB =>
          obtain ⟨rfl, rest⟩ : a = b ∧ after = after' := by simpa using same
          exact ⟨rfl, rest⟩

theorem escape_debug_starts (c : Char) : ∃ symbol rest, escapeDebug escaped c = symbol :: rest ∧ symbol ≠ '"' := by
  have form := escape_debug_forms escaped c
  generalize escapeDebug escaped c = shown at form
  cases form with
  | letter letter entry => exact ⟨_, _, rfl, by decide⟩
  | number plain => exact ⟨_, _, rfl, by decide⟩
  | itself plain => exact ⟨_, _, rfl, (lookup_none c plain).2.1⟩

theorem escape_debug_nul (c : Char) : '\x00' ∉ escapeDebug escaped c := by
  have form := escape_debug_forms escaped c
  generalize escapeDebug escaped c = shown at form
  cases form with
  | letter letter entry =>
      have letterShown := (escapes_letters _ entry).2
      simp only [List.mem_cons, List.not_mem_nil, or_false, not_or]
      exact ⟨by decide, letterShown.symm⟩
  | number plain =>
      simp only [List.mem_cons, List.mem_append, List.not_mem_nil, or_false, not_or]
      refine ⟨by decide, by decide, by decide, ?_, by decide⟩
      intro member
      obtain ⟨digit, small, view⟩ := hex_member _ _ member
      exact (digit_char_brace digit small).2 view.symm
  | itself plain => simpa using (lookup_none c plain).2.2.symm

theorem debug_str_delimiting : Delimited.SelfDelimiting (debugStr escaped) := by
  intro a b after after' same
  have stopped := Delimited.self_delimiting_stopped (escapeDebug escaped) (escape_debug_delimiting escaped) '"'
    (escape_debug_starts escaped)
  obtain ⟨characters, rest⟩ := stopped a.toList b.toList after after' (List.cons.inj same).2
  exact ⟨String.toList_inj.mp characters, rest⟩

theorem debug_option_shown (text : Option String) : (debugOption escaped text).toList =
    (text.map fun text => "Some(".toList ++ (debugStr escaped text ++ ")".toList)).getD "None".toList := by
  cases text <;> simp [debugOption]

theorem debug_option_delimiting : Delimited.SelfDelimiting fun text => (debugOption escaped text).toList := by
  have framed := Delimited.self_delimiting_framed (debugStr escaped) (debug_str_delimiting escaped) "Some(".toList ")".toList
  have optional := Delimited.self_delimiting_option _ framed "None".toList (by
    intro value after after' same
    have first := congrArg List.head? same
    simp at first)
  simpa only [debug_option_shown] using optional

theorem debug_option_nul (text : Option String) : '\x00' ∉ (debugOption escaped text).toList := by
  cases text with
  | none =>
      change '\x00' ∉ "None".toList
      decide
  | some text =>
      have inner : '\x00' ∉ text.toList.flatMap (escapeDebug escaped) := by
        intro member
        obtain ⟨c, _, shown⟩ := List.mem_flatMap.mp member
        exact escape_debug_nul escaped c shown
      simp [debugOption, debugStr, inner]

theorem transition_clean (clean : input.Clean) : Clean input.transition := by
  unfold VariantInput.transition
  split
  · exact ⟨by decide, by decide⟩
  · exact ⟨by decide, by decide⟩
  · rename_i content ext _ pair
    obtain ⟨contentClean, extClean⟩ := clean.groups content ext pair
    constructor
    · simp [contentClean.1, extClean.1]
    · simp [contentClean.2, extClean.2]

theorem variant_nul (clean : input.Clean) : '\x00' ∉ (extractionCacheVariant escaped input).toList := by
  have transition := (transition_clean input clean).2
  simp [extractionCacheVariant, policy, debug_option_nul, clean.label.2, transition]

theorem variant_injective (other : VariantInput) (clean : input.Clean) (otherClean : other.Clean)
    (same : extractionCacheVariant escaped input = extractionCacheVariant escaped other) :
    input.cacheNamespace = other.cacheNamespace ∧ input.label = other.label ∧ input.transition = other.transition ∧
      input.basename = other.basename := by
  have shown := congrArg String.toList same
  have split : ∀ input : VariantInput, (extractionCacheVariant escaped input).toList =
      (policy ++ ";namespace=").toList ++ ((debugOption escaped input.cacheNamespace).toList ++ (";file_type=".toList ++
        (input.label.toList ++ ';' :: ("mismatch=".toList ++ (input.transition.toList ++ ';' :: ("basename=".toList ++
          ((debugOption escaped input.basename).toList ++ []))))))) := by
    intro input
    have mismatch : ";mismatch=".toList = ';' :: "mismatch=".toList := by decide
    have basename : ";basename=".toList = ';' :: "basename=".toList := by decide
    simp only [extractionCacheVariant, String.toList_append, List.append_assoc, mismatch, basename, List.cons_append,
      List.append_nil]
  rw [split, split] at shown
  obtain ⟨namespaces, rest⟩ := debug_option_delimiting escaped _ _ _ _ (List.append_cancel_left shown)
  obtain ⟨labels, rest⟩ := Delimited.first_separator _ _ _ _ _ clean.label.1 otherClean.label.1 (List.append_cancel_left rest)
  obtain ⟨transitions, rest⟩ := Delimited.first_separator _ _ _ _ _ (transition_clean input clean).1
    (transition_clean other otherClean).1 (List.append_cancel_left rest)
  obtain ⟨basenames, _⟩ := debug_option_delimiting escaped _ _ _ _ (List.append_cancel_left rest)
  exact ⟨namespaces, String.toList_inj.mp labels, String.toList_inj.mp transitions, basenames⟩

variable (text : String)

theorem as_bytes_injective (other : String) (same : asBytes text = asBytes other) : text = other := by
  rw [← String.toByteArray_inj, ← String.utf8Encode_toList, ← String.utf8Encode_toList]
  exact congrArg List.toByteArray same

theorem octet_zero (fits : number < 256) (zero : 0 = UInt8.ofNat number) : number = 0 := by
  have value := congrArg UInt8.toNat zero
  rw [UInt8.toNat_ofNat', Nat.mod_eq_of_lt fits] at value
  exact value.symm

theorem encode_char_nul (zero : 0 ∈ String.utf8EncodeChar c) : c = '\x00' := by
  simp only [String.utf8EncodeChar] at zero
  split at zero
  · rename_i small
    have value := octet_zero _ (by omega) (List.mem_singleton.mp zero)
    exact Char.toNat_inj.mp value
  · exfalso
    split at zero
    · simp only [List.mem_cons, List.not_mem_nil, or_false] at zero
      rcases zero with octet | octet <;> have value := octet_zero _ (by omega) octet <;> omega
    · split at zero <;> simp only [List.mem_cons, List.not_mem_nil, or_false] at zero
      · rcases zero with octet | octet | octet <;> have value := octet_zero _ (by omega) octet <;> omega
      · rcases zero with octet | octet | octet | octet <;> have value := octet_zero _ (by omega) octet <;> omega

theorem as_bytes_nul (clean : '\x00' ∉ text.toList) : 0 ∉ asBytes text := by
  intro zero
  obtain ⟨c, member, inside⟩ := List.mem_flatMap.mp zero
  exact clean (encode_char_nul c inside ▸ member)

-- What the hasher is fed tells content, namespace, file type, transition and
-- basename apart, whatever bytes and characters the free ones hold: the last
-- zero byte stands before the variant, and the build before it is fixed.
theorem cache_preimage_injective (escaped : Char → Bool) (buildFingerprint : String) (bytes bytes' : List UInt8)
    (input other : VariantInput) (clean : input.Clean) (otherClean : other.Clean)
    (same : cachePreimage buildFingerprint bytes (extractionCacheVariant escaped input) =
      cachePreimage buildFingerprint bytes' (extractionCacheVariant escaped other)) :
    bytes = bytes' ∧ input.cacheNamespace = other.cacheNamespace ∧ input.label = other.label ∧
      input.transition = other.transition ∧ input.basename = other.basename := by
  have nul := as_bytes_nul _ (variant_nul escaped input clean)
  have otherNul := as_bytes_nul _ (variant_nul escaped other otherClean)
  have split : ∀ (bytes : List UInt8) (variant : String), cachePreimage buildFingerprint bytes variant =
      (bytes ++ 0 :: asBytes buildFingerprint) ++ 0 :: asBytes variant := by
    intro bytes variant
    simp [cachePreimage]
  rw [split, split] at same
  obtain ⟨fronts, variants⟩ := Delimited.last_separator 0 _ _ _ _ nul otherNul same
  exact ⟨List.append_cancel_right fronts, variant_injective escaped input other clean otherClean (as_bytes_injective _ _ variants)⟩

def quotedInput : VariantInput := ⟨some "\";file_type=elf", "data", true, some ("data", "images"), some "a\\;\x00b"⟩

theorem quoted_input_clean : quotedInput.Clean :=
  ⟨⟨by decide, by decide⟩, by
    intro content ext pair
    obtain ⟨rfl, rfl⟩ : "data" = content ∧ "images" = ext := by simpa [quotedInput] using pair
    exact ⟨⟨by decide, by decide⟩, ⟨by decide, by decide⟩⟩⟩

theorem cache_preimage_injective_quoted :
    ([0, 0x3B, 0] : List UInt8) = [0, 0x3B, 0] ∧ quotedInput.cacheNamespace = quotedInput.cacheNamespace ∧
      quotedInput.label = quotedInput.label ∧ quotedInput.transition = quotedInput.transition ∧
      quotedInput.basename = quotedInput.basename :=
  cache_preimage_injective (fun c => c == '\x7f') "0.1.0+0011223344556677" _ _ quotedInput quotedInput quoted_input_clean
    quoted_input_clean rfl

end Filefacts.Cache
