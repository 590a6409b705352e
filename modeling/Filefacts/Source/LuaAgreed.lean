import Filefacts.Source.LuaValue
import Filefacts.Lib.Summands

set_option autoImplicit false

namespace Filefacts.Source

open Filefacts.Bytes (encodePoint)
open Filefacts.Lossy (utf8)
open Filefacts.Output (Text)
open Filefacts.Structured (digitsValue isDigit stripped toDigit)

theorem utf8_cons (c : Char) (text : Text) : utf8 (c :: text) = encodePoint c.toNat ++ utf8 text := List.flatMap_cons

variable (pieces : List LuaPiece) (n : Nat)

theorem utf8_flatMap : utf8 (pieces.flatMap LuaPiece.pushed) = pieces.flatMap fun piece => utf8 piece.pushed :=
  List.flatMap_assoc

theorem point_count (c : Char) (b : UInt8) (small : b.toNat < 0x80) :
    (encodePoint c.toNat).count b = if c.toNat = b.toNat then 1 else 0 := by
  by_cases same : c.toNat = b.toNat
  · rw [if_pos same, same, encodePoint, if_pos small, UInt8.ofNat_toNat]
    exact List.count_singleton_self
  · rw [if_neg same]
    exact List.count_eq_zero.mpr fun inside => same (Lossy.ascii_octet c b inside small).symm

theorem utf8_count (text : Text) {b : UInt8} (small : b.toNat < 0x80) :
    (utf8 text).count b = text.countP fun c => decide (c.toNat = b.toNat) := by
  induction text with
  | nil => rfl
  | cons c text ih =>
      rw [utf8_cons, List.count_append, ih, point_count c b small, List.countP_cons, Nat.add_comm]
      simp only [decide_eq_true_eq]

theorem escape_high (large : 0x80 ≤ n) (fits : n ≤ 0x7FFFFFFF) (b : UInt8) (inside : b ∈ utf8Escape n) : 0x80 ≤ b.toNat := by
  have high : ∀ number, 0x80 ≤ number → number < 256 → b = UInt8.ofNat number → 0x80 ≤ b.toNat := by
    intro number low below same
    rw [same, Lossy.octet_of number below]
    exact low
  unfold utf8Escape encodePoint at inside
  rw [if_neg (by omega : ¬ n < 0x80)] at inside
  split at inside
  · split at inside
    · simp only [List.mem_cons, List.not_mem_nil, or_false] at inside
      rcases inside with same | same <;> exact high _ (by omega) (by omega) same
    · split at inside
      · simp only [List.mem_cons, List.not_mem_nil, or_false] at inside
        rcases inside with same | same | same <;> exact high _ (by omega) (by omega) same
      · simp only [List.mem_cons, List.not_mem_nil, or_false] at inside
        rcases inside with same | same | same | same <;> exact high _ (by omega) (by omega) same
  · split at inside
    · simp only [List.mem_cons, List.not_mem_nil, or_false] at inside
      rcases inside with same | same | same | same | same <;> exact high _ (by omega) (by omega) same
    · simp only [List.mem_cons, List.not_mem_nil, or_false] at inside
      rcases inside with same | same | same | same | same | same <;> exact high _ (by omega) (by omega) same

theorem escape_count (fits : n ≤ 0x7FFFFFFF) (b : UInt8) (small : b.toNat < 0x80) :
    (utf8Escape n).count b = if n = b.toNat then 1 else 0 := by
  by_cases large : 0x80 ≤ n
  · rw [if_neg (by omega)]
    exact List.count_eq_zero.mpr fun inside => by
      have := escape_high n large fits b inside
      omega
  · have one : utf8Escape n = [UInt8.ofNat n] := by
      rw [utf8Escape, if_pos (by omega), encodePoint, if_pos (by omega)]
    rw [one]
    by_cases same : n = b.toNat
    · rw [if_pos same, same, UInt8.ofNat_toNat]
      exact List.count_singleton_self
    · rw [if_neg same]
      refine List.count_eq_zero.mpr fun inside => same ?_
      rw [List.mem_singleton.mp inside, Lossy.octet_of n (by omega)]

-- A `\u` escape that the shared decoder leaves as it is.
def LuaPiece.Foreign : LuaPiece → Prop
  | .unicode digits n => ¬ (digits.length ≤ 6 ∧ (n < 0xD800 ∨ (0xDFFF < n ∧ n < 0x110000)))
  | _ => False

theorem octet_count (fits : n < 256) (b : UInt8) (small : b.toNat < 0x80) :
    (utf8 [Char.ofNat n]).count b = [UInt8.ofNat n].count b := by
  have same := octet_char n fits
  rw [utf8_count _ small, List.countP_singleton, same]
  by_cases equal : n = b.toNat
  · rw [if_pos (by simpa using equal), equal, UInt8.ofNat_toNat]
    exact List.count_singleton_self.symm
  · rw [if_neg (by simpa using equal)]
    refine (List.count_eq_zero.mpr fun inside => equal ?_).symm
    rw [List.mem_singleton.mp inside, Lossy.octet_of n fits]

variable (piece : LuaPiece)

theorem counts_level (valid : piece.Valid) (b : UInt8) (small : b.toNat < 0x80) :
    (utf8 piece.pushed).count b = piece.bytes.count b ∨ piece.Foreign ∨ (∃ spelled, piece = .newline spelled) ∨
      ∃ blanks, piece = .skip blanks := by
  obtain ⟨quote, rest, stands⟩ := valid
  cases piece with
  | plain c => exact .inl rfl
  | letter esc c => exact .inl rfl
  | hex digits n => exact .inl (octet_count n (two_digits_small digits n stands.1 stands.2) b small)
  | decimal digits n => exact .inl (octet_count n (by have := stands.2.2.1; omega) b small)
  | unicode digits n =>
      by_cases shared : digits.length ≤ 6 ∧ (n < 0xD800 ∨ (0xDFFF < n ∧ n < 0x110000))
      · have same : (Char.ofNat n).toNat = n := (char_from_u32_iff n _).mp (by rw [charFromU32, if_pos shared.2])
        refine .inl ?_
        rw [LuaPiece.pushed, if_pos shared, LuaPiece.bytes, escape_count n stands.2 b small, utf8_count _ small,
          List.countP_singleton, same]
        simp only [decide_eq_true_eq]
      · exact .inr (.inl shared)
  | newline spelled => exact .inr (.inr (.inl ⟨spelled, rfl⟩))
  | skip blanks => exact .inr (.inr (.inr ⟨blanks, rfl⟩))

theorem foreign_pushed (foreign : piece.Foreign) :
    ∃ digits n, piece = .unicode digits n ∧ piece.pushed = '\\' :: 'u' :: '{' :: digits ++ ['}'] := by
  cases piece with
  | unicode digits n => exact ⟨digits, n, rfl, if_neg foreign⟩
  | _ => exact absurd foreign id

theorem newline_pushed (spelled : Text) (valid : (LuaPiece.newline spelled).Valid) :
    (∃ more, (LuaPiece.newline spelled).pushed = '\\' :: more) ∨ (LuaPiece.newline spelled).pushed = [] ∨
      (LuaPiece.newline spelled).pushed = ['\r'] := by
  obtain ⟨quote, rest, some_break, read⟩ := valid
  rcases break_shapes some_break read with rfl | rfl | ⟨more, rfl, plain⟩
  · exact .inr (.inl rfl)
  · exact .inr (.inr rfl)
  · exact .inl ⟨_, rfl⟩

theorem skip_pushed (blanks : Text) (valid : (LuaPiece.skip blanks).Valid) :
    ((LuaPiece.skip blanks).pushed = [] ∧ '\x0b' ∉ blanks) ∨ '\x0b' ∈ (LuaPiece.skip blanks).pushed := by
  obtain ⟨quote, rest, all, -⟩ := valid
  by_cases tab : '\x0b' ∈ blanks
  · refine .inr ?_
    have whole : blanks.takeWhile isAsciiWhitespace ++ blanks.dropWhile isAsciiWhitespace = blanks := List.takeWhile_append_dropWhile
    have halves : '\x0b' ∈ blanks.takeWhile isAsciiWhitespace ++ blanks.dropWhile isAsciiWhitespace := whole.symm ▸ tab
    rcases List.mem_append.mp halves with taken | left
    · exact absurd (List.mem_takeWhile_imp taken) (by decide)
    · exact left
  · refine .inl ⟨?_, tab⟩
    rw [LuaPiece.pushed, List.dropWhile_eq_nil_iff]
    intro c inside
    have space := List.all_eq_true.mp all c inside
    have other : c ≠ '\x0b' := fun same => tab (same ▸ inside)
    simp only [isLuaSpace, isAsciiWhitespace, Bool.or_eq_true, decide_eq_true_eq] at space ⊢
    tauto

-- The counts of one octet are level in the whole, so where no piece has fewer than Lua's every piece has as many.
theorem octets_level (same : utf8 (pieces.flatMap LuaPiece.pushed) = pieces.flatMap LuaPiece.bytes)
    (b : UInt8) (least : ∀ piece ∈ pieces, piece.bytes.count b ≤ (utf8 piece.pushed).count b) :
    ∀ piece ∈ pieces, (utf8 piece.pushed).count b = piece.bytes.count b :=
  Summands.counts_level b (fun piece => utf8 piece.pushed) LuaPiece.bytes pieces least ((utf8_flatMap pieces).symm.trans same)

theorem octets_level_least (same : utf8 (pieces.flatMap LuaPiece.pushed) = pieces.flatMap LuaPiece.bytes)
    (b : UInt8) (most : ∀ piece ∈ pieces, (utf8 piece.pushed).count b ≤ piece.bytes.count b) :
    ∀ piece ∈ pieces, piece.bytes.count b = (utf8 piece.pushed).count b :=
  Summands.counts_level b LuaPiece.bytes (fun piece => utf8 piece.pushed) pieces most (same.symm.trans (utf8_flatMap pieces))

theorem point_length (fits : n < 256) : (utf8 [Char.ofNat n]).length = if n < 0x80 then 1 else 2 := by
  have one : utf8 [Char.ofNat n] = encodePoint n := by
    rw [utf8_cons, octet_char n fits]
    exact List.append_nil _
  rw [one, encodePoint]
  by_cases small : n < 0x80
  · rw [if_pos small, if_pos small]
    rfl
  · rw [if_neg small, if_neg small, if_pos (by omega)]
    rfl

section Level

variable (pieces : List LuaPiece) (valid : ∀ piece ∈ pieces, piece.Valid)
  (same : utf8 (pieces.flatMap LuaPiece.pushed) = pieces.flatMap LuaPiece.bytes)

include valid same

theorem backslashes_level : ∀ piece ∈ pieces, (utf8 piece.pushed).count 0x5C = piece.bytes.count 0x5C := by
  refine octets_level pieces same 0x5C fun piece inside => ?_
  rcases counts_level piece (valid piece inside) 0x5C (by decide) with level | foreign | ⟨spelled, rfl⟩ | ⟨blanks, rfl⟩
  · exact Nat.le_of_eq level.symm
  · obtain ⟨digits, n, rfl, pushed⟩ := foreign_pushed piece foreign
    obtain ⟨quote, rest, stands⟩ := valid _ inside
    rw [pushed, LuaPiece.bytes, escape_count n stands.2 0x5C (by decide), utf8_count _ (by decide)]
    rw [List.cons_append, List.countP_cons_of_pos (by decide)]
    split <;> omega
  · exact Nat.zero_le _
  · exact Nat.zero_le _

theorem newlines_dropped (spelled : Text) (inside : LuaPiece.newline spelled ∈ pieces) :
    (LuaPiece.newline spelled).pushed = [] ∨ (LuaPiece.newline spelled).pushed = ['\r'] := by
  have level := backslashes_level pieces valid same _ inside
  rcases newline_pushed spelled (valid _ inside) with ⟨more, pushed⟩ | pushed
  · rw [pushed, utf8_count _ (by decide), List.countP_cons_of_pos (by decide)] at level
    exact absurd level (Nat.succ_ne_zero _)
  · exact pushed

theorem none_foreign : ∀ piece ∈ pieces, ¬ piece.Foreign := by
  have single : ∀ piece ∈ pieces, piece.Foreign → ∃ digits, piece = .unicode digits 0x5C ∧
      piece.pushed = '\\' :: 'u' :: '{' :: digits ++ ['}'] := by
    intro piece inside foreign
    have level := backslashes_level pieces valid same piece inside
    obtain ⟨digits, n, rfl, pushed⟩ := foreign_pushed piece foreign
    obtain ⟨quote, rest, stands⟩ := valid _ inside
    rw [pushed, LuaPiece.bytes, escape_count n stands.2 0x5C (by decide), utf8_count _ (by decide), List.cons_append,
      List.countP_cons_of_pos (by decide)] at level
    by_cases backslash : n = (0x5C : UInt8).toNat
    · exact ⟨digits, by rw [backslash]; rfl, pushed⟩
    · rw [if_neg backslash] at level
      exact absurd level (Nat.succ_ne_zero _)
  have braces := octets_level pieces same 0x7B fun piece inside => by
    rcases counts_level piece (valid piece inside) 0x7B (by decide) with level | foreign | ⟨spelled, rfl⟩ | ⟨blanks, rfl⟩
    · exact Nat.le_of_eq level.symm
    · obtain ⟨digits, rfl, -⟩ := single piece inside foreign
      exact Nat.zero_le _
    · exact Nat.zero_le _
    · exact Nat.zero_le _
  intro piece inside foreign
  have level := braces piece inside
  obtain ⟨digits, rfl, pushed⟩ := single piece inside foreign
  have none_there : (LuaPiece.unicode digits 0x5C).bytes.count 0x7B = 0 := by
    rw [LuaPiece.bytes]
    decide +kernel
  rw [pushed, none_there, utf8_count _ (by decide), List.cons_append, List.countP_cons_of_neg (by decide), List.cons_append,
    List.countP_cons_of_neg (by decide), List.cons_append, List.countP_cons_of_pos (by decide)] at level
  exact absurd level (Nat.succ_ne_zero _)

theorem skips_whole (blanks : Text) (inside : LuaPiece.skip blanks ∈ pieces) :
    (LuaPiece.skip blanks).pushed = [] ∧ '\x0b' ∉ blanks := by
  have tabs := octets_level pieces same 0x0B fun piece inside => by
    rcases counts_level piece (valid piece inside) 0x0B (by decide) with level | foreign | ⟨spelled, rfl⟩ | ⟨blanks, rfl⟩
    · exact Nat.le_of_eq level.symm
    · exact absurd foreign (none_foreign pieces valid same piece inside)
    · exact Nat.zero_le _
    · exact Nat.zero_le _
  rcases skip_pushed blanks (valid _ inside) with whole | tab
  · exact whole
  · have level := tabs _ inside
    rw [utf8_count _ (by decide)] at level
    have some_tab : 0 < (LuaPiece.skip blanks).pushed.countP fun c => decide (c.toNat = (0x0B : UInt8).toNat) :=
      List.countP_pos_iff.mpr ⟨'\x0b', tab, by decide⟩
    rw [level] at some_tab
    exact absurd some_tab (Nat.lt_irrefl 0)

theorem no_newlines (spelled : Text) : LuaPiece.newline spelled ∉ pieces := by
  have feeds := octets_level_least pieces same 0x0A fun piece inside => by
    rcases counts_level piece (valid piece inside) 0x0A (by decide) with level | foreign | ⟨spelled, rfl⟩ | ⟨blanks, rfl⟩
    · exact Nat.le_of_eq level
    · exact absurd foreign (none_foreign pieces valid same piece inside)
    · rcases newlines_dropped pieces valid same spelled inside with pushed | pushed
      · rw [pushed]
        exact Nat.zero_le _
      · rw [pushed]
        exact Nat.zero_le _
    · rw [(skips_whole pieces valid same blanks inside).1]
      exact Nat.le_refl _
  intro inside
  have level := feeds _ inside
  rcases newlines_dropped pieces valid same spelled inside with pushed | pushed
  · rw [pushed] at level
    cases level
  · rw [pushed] at level
    cases level

-- Lengths: an octet from 80 on takes two as a character.
theorem pieces_shared : ∀ piece ∈ pieces, piece.Shared := by
  have octet : ∀ n, n < 256 → [UInt8.ofNat n].length ≤ (utf8 [Char.ofNat n]).length := by
    intro n fits
    rw [point_length n fits]
    split
    · exact Nat.le_refl _
    · exact Nat.le_succ _
  have unicode : ∀ digits n, LuaPiece.unicode digits n ∈ pieces → (digits.length ≤ 6 ∧ (n < 0xD800 ∨ (0xDFFF < n ∧ n < 0x110000))) ∧
      (LuaPiece.unicode digits n).bytes = utf8 (LuaPiece.unicode digits n).pushed := by
    intro digits n inside
    have shared := Decidable.not_not.mp (none_foreign pieces valid same _ inside)
    have scalar : (Char.ofNat n).toNat = n := (char_from_u32_iff n _).mp (by rw [charFromU32, if_pos shared.2])
    refine ⟨shared, ?_⟩
    rw [LuaPiece.pushed, if_pos shared, LuaPiece.bytes, utf8_cons, scalar, utf8Escape, if_pos (by omega)]
    exact (List.append_nil _).symm
  have level := Summands.lengths_level
    (fun piece inside => by
      obtain ⟨quote, rest, stands⟩ := valid piece inside
      cases piece with
      | plain c => exact Nat.le_refl _
      | letter esc c => exact Nat.le_refl _
      | hex digits n => exact octet n (two_digits_small digits n stands.1 stands.2)
      | decimal digits n => exact octet n (by have := stands.2.2.1; omega)
      | unicode digits n => rw [(unicode digits n inside).2]
      | newline spelled => exact absurd inside (no_newlines pieces valid same spelled)
      | skip blanks => exact Nat.zero_le _) ((utf8_flatMap pieces).symm.trans same)
  intro piece inside
  have one := level piece inside
  obtain ⟨quote, rest, stands⟩ := valid piece inside
  cases piece with
  | plain c => trivial
  | letter esc c => trivial
  | hex digits n =>
      have length := point_length n (two_digits_small digits n stands.1 stands.2)
      by_cases small : n < 0x80
      · exact small
      · rw [if_neg small] at length
        exact absurd (length.symm.trans one) (by simp [LuaPiece.bytes])
  | decimal digits n =>
      have length := point_length n (by have := stands.2.2.1; omega)
      by_cases small : n < 0x80
      · exact small
      · rw [if_neg small] at length
        exact absurd (length.symm.trans one) (by simp [LuaPiece.bytes])
  | unicode digits n => exact (unicode digits n inside).1
  | newline spelled => exact absurd inside (no_newlines pieces valid same spelled)
  | skip blanks => exact (skips_whole pieces valid same blanks inside).2

end Level

theorem shared_pushed (valid : piece.Valid) (shared : piece.Shared) : utf8 piece.pushed = piece.bytes := by
  have ascii : ∀ n, n < 0x80 → utf8 [Char.ofNat n] = [UInt8.ofNat n] := by
    intro n small
    rw [utf8_cons, octet_char n (by omega), encodePoint, if_pos small]
    rfl
  cases piece with
  | plain c => rfl
  | letter esc c => rfl
  | hex digits n => exact ascii n shared
  | decimal digits n => exact ascii n shared
  | unicode digits n =>
      have bounds : digits.length ≤ 6 ∧ (n < 0xD800 ∨ (0xDFFF < n ∧ n < 0x110000)) := shared
      have scalar : (Char.ofNat n).toNat = n := (char_from_u32_iff n _).mp (by rw [charFromU32, if_pos bounds.2])
      rw [LuaPiece.pushed, if_pos bounds, LuaPiece.bytes, utf8_cons, scalar, utf8Escape, if_pos (by omega)]
      exact List.append_nil _
  | newline spelled => exact absurd shared id
  | skip blanks =>
      rcases skip_pushed blanks valid with ⟨pushed, -⟩ | tab
      · rw [pushed]
        rfl
      · exact absurd ((List.dropWhile_suffix _).subset tab) shared

theorem utf8_injective (left right : Text) (same : utf8 left = utf8 right) : left = right := by
  have points := congrArg Rar.fromUtf8Lossy same
  rw [Lossy.lossy_whole, Lossy.lossy_whole] at points
  exact List.map_injective_iff.mpr (fun c d equal => Char.toNat_inj.mp equal) points

theorem stripped_front (front rest : Text) : stripped front (front ++ rest) = some rest := by
  rw [stripped, if_pos (List.isPrefixOf_iff_prefix.mpr ⟨rest, rfl⟩), List.drop_left]

theorem stripped_other (front text : Text) (other : ¬ front <+: text) : stripped front text = none := by
  rw [stripped, if_neg (by rwa [List.isPrefixOf_iff_prefix])]

theorem first_break_dropped (body : Text) :
    ((stripped ['\r', '\n'] body).or ((stripped ['\n', '\r'] body).or ((stripped ['\n'] body).or (stripped ['\r'] body)))).getD
      body = body.drop (breakLength body) := by
  unfold breakLength
  by_cases crlf : ['\r', '\n'] <+: body
  · obtain ⟨rest, rfl⟩ := crlf
    rw [stripped_front, if_pos (by rw [Bool.or_eq_true, List.isPrefixOf_iff_prefix]; exact .inl ⟨rest, rfl⟩)]
    rfl
  · rw [stripped_other _ _ crlf, Option.none_or]
    by_cases lfcr : ['\n', '\r'] <+: body
    · obtain ⟨rest, rfl⟩ := lfcr
      rw [stripped_front, if_pos (by rw [Bool.or_eq_true, List.isPrefixOf_iff_prefix, List.isPrefixOf_iff_prefix]; exact .inr ⟨rest, rfl⟩)]
      rfl
    · have apart : ¬ (['\r', '\n'].isPrefixOf body || ['\n', '\r'].isPrefixOf body) = true := by
        rw [Bool.or_eq_true, List.isPrefixOf_iff_prefix, List.isPrefixOf_iff_prefix]
        rintro (pair | pair)
        · exact crlf pair
        · exact lfcr pair
      rw [stripped_other _ _ lfcr, Option.none_or, if_neg apart]
      cases body with
      | nil => rfl
      | cons c body =>
          by_cases lf : c = '\n'
          · rw [lf, if_pos (.inr rfl)]
            rfl
          · by_cases cr : c = '\r'
            · rw [cr, if_pos (.inl rfl)]
              rfl
            · have single : ∀ d : Char, c ≠ d → stripped [d] (c :: body) = none := fun d other =>
                stripped_other _ _ fun ⟨rest, same⟩ => other (List.cons.inj same).1.symm
              rw [single '\n' lf, single '\r' cr, if_neg (by simp [lf, cr])]
              rfl

theorem lua_long (level : Nat) (body : Text) :
    lua ('[' :: List.replicate level '=' ++ '[' :: body ++ closeBracket level) = some (replaced (body.drop (breakLength body))) := by
  have opening : '[' :: List.replicate level '=' ++ '[' :: body ++ closeBracket level =
      ['['] ++ (List.replicate level '=' ++ '[' :: (body ++ closeBracket level)) := by simp
  have signs : (List.replicate level '=' ++ '[' :: (body ++ closeBracket level)).takeWhile (· == '=') = List.replicate level '=' := by
    rw [List.takeWhile_append_of_pos (by simp)]
    simp
  have behind : (List.replicate level '=' ++ '[' :: (body ++ closeBracket level)).drop level =
      ['['] ++ (body ++ closeBracket level) := by
    rw [List.drop_left' List.length_replicate]
    rfl
  have closes : strippedSuffix (']' :: List.replicate level '=' ++ [']']) (body ++ closeBracket level) = some body := by
    change strippedSuffix (closeBracket level) (body ++ closeBracket level) = some body
    rw [strippedSuffix, if_pos (List.isSuffixOf_iff_suffix.mpr ⟨body, rfl⟩), List.length_append, Nat.add_sub_cancel, List.take_left]
  rw [lua, opening, stripped_front]
  simp only [signs, List.length_replicate, behind, stripped_front, closes, first_break_dropped]
  rfl

theorem lua_quoted (quote : Char) (body : Text) (isQuote : quote = '"' ∨ quote = '\'') :
    lua (quote :: body ++ [quote]) = some (decodeLua body) := by
  have other : ¬ ['['] <+: quote :: body ++ [quote] := by
    rintro ⟨rest, same⟩
    have first := (List.cons.inj same).1
    rcases isQuote with rfl | rfl
    · exact absurd first (by decide)
    · exact absurd first (by decide)
  have listed : ['"', '\''].contains quote = true := by
    rcases isQuote with rfl | rfl
    · rfl
    · rfl
  have head : (quote :: body ++ [quote]).head?.filter (fun c => ['"', '\''].contains c) = some quote := by
    rw [List.cons_append, List.head?_cons, Option.filter_some, if_pos listed]
  have long : ¬ (body ++ [quote]).length < 1 + 0 := by
    rw [List.length_append, List.length_singleton]
    omega
  have size : (body ++ [quote]).length - (1 + 0) = body.length := by
    rw [List.length_append, List.length_singleton]
    omega
  have read : unquote (quote :: body ++ [quote]) ['"', '\''] .single 0 = some (body, 1) := by
    rw [unquote, head]
    simp only [Run.length, List.cons_append, List.drop_succ_cons, List.drop_zero, long, if_false, size, List.drop_left, List.take_left]
    simp
  rw [lua, stripped_other _ _ other, read]
  rfl

-- A string literal that the lexer accepts and whose value is text is read as Lua means it, just when its line breaks and
-- escapes are of the kinds the code shares with Lua.
theorem lua_value_iff (literal : LuaString) (text : Text) (value : utf8 text = literal.value) :
    lua literal.raw = some text ↔ literal.Shared := by
  cases literal with
  | long level body closed =>
      have same := utf8_injective _ _ value
      rw [LuaString.raw, lua_long, Option.some.injEq, same,
        replaced_iff _ (Nat.le_refl _)]
      rfl
  | quoted quote body pieces isQuote reads =>
      have valid := pieces_valid quote body pieces reads
      rw [LuaString.raw, lua_quoted quote body isQuote, pieces_pushed quote body pieces reads, Option.some.injEq]
      constructor
      · intro same
        rw [← same] at value
        exact pieces_shared pieces valid value
      · intro shared
        refine utf8_injective _ _ ?_
        rw [value, utf8_flatMap]
        exact List.flatMap_congr fun piece inside => shared_pushed piece (valid piece inside) (shared piece inside)

theorem lua_value_iff_skip : lua ['"', '\\', 'x', '4', '1', '\\', 'z', ' ', '\n', 'b', '"'] = some ['A', 'b'] := by
  have reads : LuaReads '"' ['\\', 'x', '4', '1', '\\', 'z', ' ', '\n', 'b'] [.hex ['4', '1'] 65, .skip [' ', '\n'], .plain 'b'] :=
    .piece (.hex ['4', '1'] 65) _ _ ⟨rfl, by decide +kernel⟩
      (.piece (.skip [' ', '\n']) _ _ ⟨by decide +kernel, by decide +kernel⟩
        (.piece (.plain 'b') [] [] ⟨by decide, by decide⟩ .done))
  have value : utf8 ['A', 'b'] = [LuaPiece.hex ['4', '1'] 65, .skip [' ', '\n'], .plain 'b'].flatMap LuaPiece.bytes := by decide +kernel
  refine (lua_value_iff (.quoted '"' _ _ (.inl rfl) reads) ['A', 'b'] value).mpr fun piece inside => ?_
  simp only [List.mem_cons, List.not_mem_nil, or_false] at inside
  rcases inside with rfl | rfl | rfl
  · exact (by decide : 65 < 0x80)
  · exact (by decide : '\x0b' ∉ [' ', '\n'])
  · trivial

-- A line break behind a backslash is a line feed in Lua; the shared decoder drops it.
theorem continued_line_lost : ∃ literal : LuaString, literal.raw = ['"', 'a', '\\', '\n', 'b', '"'] ∧
    literal.value = utf8 ['a', '\n', 'b'] ∧ lua literal.raw = some ['a', 'b'] ∧ lua literal.raw ≠ some ['a', '\n', 'b'] := by
  have reads : LuaReads '"' ['a', '\\', '\n', 'b'] [.plain 'a', .newline ['\n'], .plain 'b'] :=
    .piece (.plain 'a') _ _ ⟨by decide, by decide⟩
      (.piece (.newline ['\n']) _ _ ⟨by decide, by decide +kernel⟩
        (.piece (.plain 'b') [] [] ⟨by decide, by decide⟩ .done))
  have value : [LuaPiece.plain 'a', .newline ['\n'], .plain 'b'].flatMap LuaPiece.bytes = utf8 ['a', '\n', 'b'] := by decide +kernel
  have read : lua ['"', 'a', '\\', '\n', 'b', '"'] = some ['a', 'b'] := by decide +kernel
  have other : lua ['"', 'a', '\\', '\n', 'b', '"'] ≠ some ['a', '\n', 'b'] := by decide +kernel
  exact ⟨.quoted '"' _ _ (.inl rfl) reads, rfl, value, read, other⟩

end Filefacts.Source
