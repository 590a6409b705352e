import Filefacts.Source.Hashed
import Mathlib.Data.List.Induction

set_option autoImplicit false

namespace Filefacts.Source

open Filefacts.Output (Text)

theorem decode_chars_backslashes (rest : Text) : decodeChars false ('\\' :: '\\' :: rest) = '\\' :: decodeChars false rest := by
  have pushed : escaped false '\\' rest = (['\\'], rest) := by
    have letter : letterEscapes.lookup '\\' = some '\\' := rfl
    unfold escaped
    rw [if_neg (fun lua => Bool.false_ne_true lua.2), if_neg (fun lua => Bool.false_ne_true lua.2), letter]
  rw [decode_chars_escaped, pushed]
  rfl

theorem decode_chars_lone : decodeChars false ['\\'] = ['\\'] := by
  rw [decodeChars, if_neg (not_not_intro rfl)]

variable (count hashes : Nat) (c : Char) (text body : Text)

theorem no_backslash_hashes : '\\' ∉ List.replicate count '#' := by
  intro inside
  exact absurd (List.eq_of_mem_replicate inside) (by decide)

theorem decode_chars_hashes (rest : Text) :
    decodeChars false (List.replicate count '#' ++ rest) = List.replicate count '#' ++ decodeChars false rest :=
  decode_chars_plain false rest (no_backslash_hashes count)

theorem surplus_rotates (front left right : Text) (c : Char) (some_surplus : front ≠ []) (same : c :: left = front ++ c :: right) :
    ∃ surplus, front = c :: surplus ∧ left = (surplus ++ [c]) ++ right := by
  cases front with
  | nil => exact absurd rfl some_surplus
  | cons first surplus =>
      rw [List.cons_append, List.cons.injEq] at same
      exact ⟨surplus, by rw [same.1], by rw [same.2, List.append_assoc]; rfl⟩

-- Hashes in front of a surplus that ends in a backslash are part of it, and it goes past them.
theorem surplus_past_hashes {surplus left right : Text}
    (same : List.replicate count '#' ++ left = (surplus ++ ['\\']) ++ right) : ∃ more, left = (more ++ ['\\']) ++ right := by
  rcases List.append_eq_append_iff.mp same with ⟨between, whole, rest⟩ | ⟨between, whole, -⟩
  · cases between using List.reverseRecOn with
    | nil =>
        rw [List.append_nil] at whole
        exact absurd (whole ▸ List.mem_append_right surplus List.mem_cons_self) (no_backslash_hashes count)
    | append_singleton more last =>
        rw [← List.append_assoc] at whole
        obtain ⟨-, final⟩ := List.append_inj' whole rfl
        exact ⟨more, by rw [rest, ← final]⟩
  · have inside : '\\' ∈ List.replicate count '#' := by
      rw [whole, List.append_assoc]
      exact List.mem_append_right _ List.mem_cons_self
    exact absurd inside (no_backslash_hashes count)

-- The two decodings once they are apart. What the code pushes too much (`ahead`) or too little (`behind`) so far is never
-- made up for; in the pending forms the code is one backslash late.
structure Apart (hashes : Nat) (body : Text) : Prop where
  ahead : ∀ surplus, surplus ≠ [] →
    decodeChars false (ordinary hashes body) ≠ surplus ++ decodeChars false (rewritten hashes body)
  aheadPending : ∀ surplus,
    decodeChars false (ordinary hashes body) ≠ (surplus ++ ['\\']) ++ decodeChars false ('\\' :: rewritten hashes body)
  behind : ∀ missing, missing ≠ [] → '\\' ∉ missing →
    decodeChars false (rewritten hashes body) ≠ missing ++ decodeChars false (ordinary hashes body)
  behindPending : ∀ missing, '\\' ∉ missing →
    decodeChars false ('\\' :: rewritten hashes body) ≠ '#' :: missing ++ decodeChars false (ordinary hashes body)

theorem ordinary_nil : ordinary hashes [] = [] := by
  rw [ordinary, pieces_nil]
  rfl

theorem apart_nil (hashes : Nat) : Apart hashes [] where
  ahead := by
    intro surplus more same
    rw [ordinary_nil, rewritten_nil, decode_chars_nil, List.append_nil] at same
    exact more same.symm
  aheadPending := by
    intro surplus same
    rw [ordinary_nil, decode_chars_nil] at same
    simp at same
  behind := by
    intro missing more plain same
    rw [ordinary_nil, rewritten_nil, decode_chars_nil, List.append_nil] at same
    exact more same.symm
  behindPending := by
    intro missing plain same
    rw [ordinary_nil, rewritten_nil, decode_chars_lone, List.cons_append, List.cons.injEq] at same
    exact absurd same.1 (by decide)

theorem decode_plain (rest : Text) (plain : c ≠ '\\') :
    decodeChars false (rewritten hashes (c :: rest)) = c :: decodeChars false (rewritten hashes rest) ∧
      decodeChars false (ordinary hashes (c :: rest)) = c :: decodeChars false (ordinary hashes rest) := by
  rw [rewritten_plain hashes c rest plain, ordinary_plain hashes c rest plain, decode_chars_literal false c _ plain,
    decode_chars_literal false c _ plain]
  exact ⟨rfl, rfl⟩

theorem escape_text_backslash {front back : Text} {decoded : Char} (one : Escape ('\\' :: c :: text) decoded)
    (plain : c ≠ '\\') (same : c :: text = (front ++ ['\\']) ++ back) : 0x10000 ≤ decoded.toNat ∧ back.head? = some 'u' := by
  rcases escape_body_cases c one with unmarked | ⟨first, second, rfl, plainFirst, plainSecond, -, great, -⟩
  · have inside : '\\' ∈ c :: text := by
      rw [same]
      exact List.mem_append_left _ (List.mem_append_right _ List.mem_cons_self)
    rcases List.mem_cons.mp inside with rfl | inside
    · exact absurd rfl plain
    · exact absurd inside unmarked
  · refine ⟨great, ?_⟩
    have whole : (c :: first) ++ '\\' :: ('u' :: second) = front ++ '\\' :: back := by
      rw [List.cons_append, same, List.append_assoc]
      rfl
    have before : '\\' ∉ c :: first := by
      rw [List.mem_cons, not_or]
      exact ⟨Ne.symm plain, plainFirst⟩
    rcases List.append_eq_append_iff.mp whole with ⟨between, longer, rest⟩ | ⟨between, longer, rest⟩
    · cases between with
      | nil =>
          rw [List.nil_append, List.cons.injEq] at rest
          rw [← rest.2, List.head?_cons]
      | cons d between =>
          rw [List.cons_append, List.cons.injEq] at rest
          have inside : '\\' ∈ 'u' :: second := by
            rw [rest.2]
            exact List.mem_append_right _ List.mem_cons_self
          rw [List.mem_cons] at inside
          rcases inside with letter | inside
          · exact absurd letter (by decide)
          · exact absurd inside plainSecond
    · cases between with
      | nil =>
          rw [List.nil_append, List.cons.injEq] at rest
          rw [rest.2, List.head?_cons]
      | cons d between =>
          rw [List.cons_append, List.cons.injEq] at rest
          have inside : '\\' ∈ c :: first := by
            rw [longer, ← rest.1]
            exact List.mem_append_right _ List.mem_cons_self
          exact absurd inside before

theorem apart_plain (rest : Text) (plain : c ≠ '\\') (inline : c ≠ '\n')
    (below : ∀ shorter, shorter <:+ rest → Apart hashes shorter) : Apart hashes (c :: rest) := by
  obtain ⟨fromRewritten, fromOrdinary⟩ := decode_plain hashes c rest plain
  have next := below rest List.suffix_rfl
  refine ⟨?_, ?_, ?_, ?_⟩
  · intro surplus more same
    rw [fromRewritten, fromOrdinary] at same
    obtain ⟨left, -, same⟩ := surplus_rotates surplus _ _ c more same
    exact next.ahead (left ++ [c]) (by simp) same
  · intro surplus same
    rw [fromOrdinary, rewritten_plain hashes c rest plain, decode_chars_escaped] at same
    rcases lockstep hashes c rest inline with ⟨kept, -⟩ | ⟨decoded, text, shorter, one, consumed, read, -⟩
    · rw [kept] at same
      obtain ⟨left, -, same⟩ := surplus_rotates (surplus ++ ['\\', '\\']) _ (decodeChars false (rewritten hashes rest)) c (by simp)
        (by rw [same]; simp)
      exact next.ahead (left ++ [c]) (by simp) same
    · rw [read, consumed.fromOrdinary, escape_body_inert c text one, ← List.cons_append] at same
      rcases List.append_eq_append_iff.mp same with ⟨between, whole, left⟩ | ⟨between, whole, left⟩
      · exact (below shorter consumed.within).ahead (between ++ [decoded]) (by simp) (by rw [left, List.append_assoc])
      · obtain ⟨great, letter⟩ := escape_text_backslash c text one plain whole
        obtain ⟨others, rfl⟩ := List.head?_eq_some_iff.mp letter
        simp only [List.cons_append, List.nil_append, List.cons.injEq] at left
        rw [left.1] at great
        exact absurd great (by decide)
  · intro missing more unmarked same
    rw [fromRewritten, fromOrdinary] at same
    obtain ⟨left, rfl, moved⟩ := surplus_rotates missing _ _ c more same
    refine next.behind (left ++ [c]) (by simp) ?_ moved
    rw [List.mem_append, not_or, List.mem_singleton]
    exact ⟨fun inside => unmarked (List.mem_cons_of_mem _ inside), Ne.symm plain⟩
  · intro missing unmarked same
    rw [fromOrdinary, rewritten_plain hashes c rest plain, decode_chars_escaped] at same
    rcases lockstep hashes c rest inline with ⟨kept, -⟩ | ⟨decoded, text, shorter, one, consumed, read, -⟩
    · rw [kept] at same
      simp only [List.cons_append, List.cons.injEq, Char.reduceEq, false_and] at same
    · rw [read, consumed.fromOrdinary, escape_body_inert c text one] at same
      simp only [List.cons_append, List.nil_append, List.cons.injEq] at same
      rcases escape_body_cases c one with unmarkedText | ⟨-, -, -, -, -, -, great, -⟩
      · refine (below shorter consumed.within).behind (missing ++ c :: text) (by simp) ?_ (by rw [same.2]; simp)
        rw [List.mem_append, List.mem_cons, not_or, not_or]
        exact ⟨unmarked, Ne.symm plain, unmarkedText⟩
      · rw [same.1] at great
        exact absurd great (by decide)

theorem apart_of_backslash (left right pending : Text)
    (fromRewritten : decodeChars false (rewritten hashes body) = '\\' :: right)
    (fromPending : decodeChars false ('\\' :: rewritten hashes body) = '\\' :: pending)
    (fromOrdinary : decodeChars false (ordinary hashes body) = '\\' :: left)
    (ahead : ∀ surplus, left ≠ (surplus ++ ['\\']) ++ right)
    (aheadPending : ∀ surplus, left ≠ (surplus ++ ['\\']) ++ pending) : Apart hashes body := by
  refine ⟨?_, ?_, ?_, ?_⟩
  · intro surplus more same
    rw [fromRewritten, fromOrdinary] at same
    obtain ⟨front, -, same⟩ := surplus_rotates surplus _ _ '\\' more same
    exact ahead front same
  · intro surplus same
    rw [fromPending, fromOrdinary] at same
    obtain ⟨front, -, same⟩ := surplus_rotates (surplus ++ ['\\']) _ _ '\\' (by simp) same
    exact aheadPending front same
  · intro missing more unmarked same
    rw [fromRewritten, fromOrdinary] at same
    obtain ⟨front, rfl, -⟩ := surplus_rotates missing _ _ '\\' more same
    exact unmarked List.mem_cons_self
  · intro missing unmarked same
    rw [fromPending, fromOrdinary, List.cons_append, List.cons.injEq] at same
    exact absurd same.1 (by decide)

theorem apart_bare (rest : Text) (unmarked : ¬ List.replicate hashes '#' <+: rest)
    (next : Apart hashes rest) : Apart hashes ('\\' :: rest) := by
  have code := rewritten_bare hashes rest unmarked
  have spec := ordinary_bare hashes rest unmarked
  refine apart_of_backslash hashes _ (decodeChars false (ordinary hashes rest)) (decodeChars false (rewritten hashes rest))
    (decodeChars false ('\\' :: rewritten hashes rest)) ?_ ?_ ?_ ?_ next.aheadPending
  · rw [code, decode_chars_backslashes]
  · rw [code, decode_chars_backslashes]
  · rw [spec, decode_chars_backslashes]
  · intro surplus
    exact next.ahead (surplus ++ ['\\']) (by simp)

theorem apart_escape (esc : Char) (rest : Text) (other : esc ≠ '\\') (inline : esc ≠ '\n')
    (below : ∀ shorter, shorter <:+ rest → Apart hashes shorter) :
    Apart hashes ('\\' :: (List.replicate hashes '#' ++ esc :: rest)) := by
  have next := below rest List.suffix_rfl
  have code : rewritten hashes ('\\' :: (List.replicate hashes '#' ++ esc :: rest)) = '\\' :: esc :: rewritten hashes rest := by
    rw [rewritten_marker, rewritten_plain hashes esc rest other]
  have spec := ordinary_escape hashes esc rest
  have pending : decodeChars false ('\\' :: '\\' :: esc :: rewritten hashes rest) =
      '\\' :: esc :: decodeChars false (rewritten hashes rest) := by
    rw [decode_chars_backslashes, decode_chars_literal false esc _ other]
  rcases lockstep hashes esc rest inline with ⟨keptCode, keptSpec, -⟩ | ⟨decoded, text, shorter, one, consumed, readCode, readSpec⟩
  · have fromCode : decodeChars false ('\\' :: esc :: rewritten hashes rest) =
        '\\' :: esc :: decodeChars false (rewritten hashes rest) := by
      rw [decode_chars_escaped, keptCode]
      rfl
    have fromSpec : decodeChars false ('\\' :: esc :: ordinary hashes rest) =
        '\\' :: esc :: decodeChars false (ordinary hashes rest) := by
      rw [decode_chars_escaped, keptSpec]
      rfl
    have level : ∀ surplus : Text, esc :: decodeChars false (ordinary hashes rest) ≠
        (surplus ++ ['\\']) ++ esc :: decodeChars false (rewritten hashes rest) := by
      intro surplus same
      obtain ⟨front, -, same⟩ := surplus_rotates (surplus ++ ['\\']) _ _ esc (by simp) same
      exact next.ahead (front ++ [esc]) (by simp) same
    refine apart_of_backslash hashes _ _ _ _ (by rw [code, fromCode]) (by rw [code, pending]) (by rw [spec, fromSpec]) level level
  · have below := below shorter consumed.within
    have inert := escape_body_inert esc text one (rewritten hashes shorter)
    have fromCode : decodeChars false ('\\' :: esc :: rewritten hashes rest) = decoded :: decodeChars false (rewritten hashes shorter) := by
      rw [decode_chars_escaped, readCode]
      rfl
    have fromSpec : decodeChars false ('\\' :: esc :: ordinary hashes rest) = decoded :: decodeChars false (ordinary hashes shorter) := by
      rw [decode_chars_escaped, readSpec]
      rfl
    refine ⟨?_, ?_, ?_, ?_⟩
    · intro surplus more same
      rw [code, spec, fromCode, fromSpec] at same
      obtain ⟨front, -, same⟩ := surplus_rotates surplus _ _ decoded more same
      exact below.ahead (front ++ [decoded]) (by simp) same
    · intro surplus same
      rw [code, spec, pending, fromSpec, consumed.fromRewritten, inert] at same
      cases surplus with
      | nil =>
          rw [List.nil_append, List.cons_append, List.cons.injEq] at same
          exact below.ahead ('\\' :: esc :: text) (by simp) same.2
      | cons first surplus =>
          rw [List.cons_append, List.cons_append, List.cons.injEq] at same
          exact below.ahead ((surplus ++ ['\\']) ++ '\\' :: esc :: text) (by simp) (by rw [same.2]; simp)
    · intro missing more unmarked same
      rw [code, spec, fromCode, fromSpec] at same
      obtain ⟨front, rfl, moved⟩ := surplus_rotates missing _ _ decoded more same
      refine below.behind (front ++ [decoded]) (by simp) ?_ moved
      rw [List.mem_cons, not_or] at unmarked
      rw [List.mem_append, not_or, List.mem_singleton]
      exact ⟨unmarked.2, unmarked.1⟩
    · intro missing unmarked same
      rw [code, pending, List.cons_append, List.cons.injEq] at same
      exact absurd same.1 (by decide)

theorem apart_swallowed (rest : Text) (next : Apart hashes rest) :
    Apart hashes ('\\' :: (List.replicate hashes '#' ++ '\\' :: (List.replicate hashes '#' ++ rest))) := by
  have code := rewritten_swallowed hashes rest
  have spec := ordinary_swallowed hashes rest
  refine apart_of_backslash hashes _ (List.replicate hashes '#' ++ decodeChars false (ordinary hashes rest))
    (decodeChars false (rewritten hashes rest)) (decodeChars false ('\\' :: rewritten hashes rest)) ?_ ?_ ?_ ?_ ?_
  · rw [code, decode_chars_backslashes]
  · rw [code, decode_chars_backslashes]
  · rw [spec, decode_chars_backslashes, decode_chars_hashes]
  · intro surplus same
    obtain ⟨more, same⟩ := surplus_past_hashes hashes same
    exact next.ahead (more ++ ['\\']) (by simp) same
  · intro surplus same
    obtain ⟨more, same⟩ := surplus_past_hashes hashes same
    exact next.aheadPending more same

theorem apart_paired (rest : Text) (unmarked : ¬ List.replicate hashes '#' <+: rest) (next : Apart hashes rest) :
    Apart hashes ('\\' :: (List.replicate hashes '#' ++ '\\' :: rest)) := by
  have code := rewritten_paired hashes rest unmarked
  have spec := ordinary_escape hashes '\\' rest
  refine apart_of_backslash hashes _ (decodeChars false (ordinary hashes rest)) (decodeChars false ('\\' :: rewritten hashes rest))
    ('\\' :: decodeChars false (rewritten hashes rest)) ?_ ?_ ?_ next.aheadPending ?_
  · rw [code, decode_chars_backslashes]
  · rw [code, decode_chars_backslashes, decode_chars_backslashes]
  · rw [spec, decode_chars_backslashes]
  · intro surplus same
    exact next.ahead ((surplus ++ ['\\']) ++ ['\\']) (by simp) (by rw [same]; simp)

theorem apart_opened : Apart hashes ('\\' :: List.replicate hashes '#') := by
  have code := rewritten_opened hashes
  have spec := ordinary_opened hashes
  have plain := decode_chars_hashes hashes []
  rw [List.append_nil, decode_chars_nil, List.append_nil] at plain
  have level : ∀ surplus : Text, List.replicate hashes '#' ≠ (surplus ++ ['\\']) ++ [] := by
    intro surplus same
    refine no_backslash_hashes hashes ?_
    rw [same, List.append_nil]
    exact List.mem_append_right _ List.mem_cons_self
  refine apart_of_backslash hashes _ (List.replicate hashes '#') [] [] ?_ ?_ ?_ level level
  · rw [code, decode_chars_lone]
  · rw [code, decode_chars_backslashes, decode_chars_nil]
  · rw [spec, decode_chars_backslashes, plain]

theorem apart_within (size : Nat) : ∀ body : Text, body.length ≤ size → '\n' ∉ body → Apart hashes body := by
  induction size with
  | zero =>
      intro body small inline
      rw [List.length_eq_zero_iff.mp (Nat.le_zero.mp small)]
      exact apart_nil hashes
  | succ size ih =>
      intro body small inline
      have inner : ∀ rest, rest <:+ body → rest.length < body.length → Apart hashes rest := fun rest within shorter =>
        ih rest (by omega) fun inside => inline (within.subset inside)
      cases shape hashes body with
      | nil => exact apart_nil hashes
      | plain c rest plain =>
          rw [List.mem_cons, not_or] at inline
          exact apart_plain hashes c rest plain (Ne.symm inline.1) fun shorter within =>
            inner shorter (within.trans (List.suffix_cons c rest)) (Nat.lt_succ_of_le within.length_le)
      | bare rest unmarked => exact apart_bare hashes rest unmarked (inner rest (List.suffix_cons _ rest) (Nat.lt_succ_self _))
      | escape esc rest other =>
          have ends : rest <:+ '\\' :: (List.replicate hashes '#' ++ esc :: rest) :=
            (List.suffix_cons esc rest).trans ((List.suffix_append _ _).trans (List.suffix_cons _ _))
          refine apart_escape hashes esc rest other (fun same => inline (by simp [same])) fun shorter within =>
            inner shorter (within.trans ends) ?_
          have bounded := within.length_le
          simp only [List.length_cons, List.length_append]
          omega
      | swallowed rest =>
          have ends : rest <:+ '\\' :: (List.replicate hashes '#' ++ '\\' :: (List.replicate hashes '#' ++ rest)) :=
            (List.suffix_append _ rest).trans ((List.suffix_cons _ _).trans ((List.suffix_append _ _).trans (List.suffix_cons _ _)))
          refine apart_swallowed hashes rest (inner rest ends ?_)
          simp only [List.length_cons, List.length_append]
          omega
      | paired rest unmarked =>
          have ends : rest <:+ '\\' :: (List.replicate hashes '#' ++ '\\' :: rest) :=
            (List.suffix_cons _ rest).trans ((List.suffix_append _ _).trans (List.suffix_cons _ _))
          refine apart_paired hashes rest unmarked (inner rest ends ?_)
          simp only [List.length_cons, List.length_append]
          omega
      | opened => exact apart_opened hashes

theorem apart (inline : '\n' ∉ body) : Apart hashes body :=
  apart_within hashes body.length body (Nat.le_refl _) inline

open Filefacts.Output (Text)

-- The two decodings agree just when every escaped backslash is followed by something that brings the code into step.
structure Agreed (hashes : Nat) (body : Text) : Prop where
  level : decodeChars false (rewritten hashes body) = decodeChars false (ordinary hashes body) ↔ Fair hashes (pieces hashes body)
  pending : decodeChars false ('\\' :: rewritten hashes body) = decodeChars false (ordinary hashes body) ↔
    Resumes hashes (pieces hashes body) ∧ Fair hashes (pieces hashes body)

theorem agreed_nil : Agreed hashes [] := by
  constructor
  · rw [rewritten_nil, ordinary_nil, pieces_nil]
    exact ⟨fun _ => fair_nil hashes, fun _ => rfl⟩
  · rw [rewritten_nil, ordinary_nil, pieces_nil, decode_chars_lone, decode_chars_nil]
    constructor
    · intro same
      cases same
    · rintro ⟨resumes, -⟩
      cases resumes

theorem self_escape_listed (listed : c ∈ selfEscapes) : Escape ['\\', c] c ∧ c ≠ '\\' := by
  have every : selfEscapes.all (fun c => decide ((c, c) ∈ letterEscapes ∧ c ≠ '\\')) = true := rfl
  have one := of_decide_eq_true (List.all_eq_true.mp every c listed)
  exact ⟨.letter c c one.1, one.2⟩

theorem self_escape_only (one : Escape ('\\' :: c :: text) c) (short : text = []) (plain : c ≠ '\\') : c ∈ selfEscapes := by
  have every : ∀ entry ∈ letterEscapes, entry.1 = entry.2 → entry.1 ≠ '\\' → entry.1 ∈ selfEscapes := by decide +kernel
  generalize shape : '\\' :: c :: text = spelling at one
  cases one with
  | letter esc _ listed =>
      simp only [List.cons.injEq, true_and] at shape
      exact every (c, c) (shape.1 ▸ listed) rfl plain
  | hex digits _ two value =>
      simp only [List.cons.injEq, true_and] at shape
      rw [← shape.2, short] at two
      cases two
  | unicode digits _ four value =>
      simp only [List.cons.injEq, true_and] at shape
      rw [← shape.2, short] at four
      cases four
  | pair first second high low _ fourFirst fourSecond highValue lowValue isHigh isLow value =>
      simp only [List.cons_append, List.cons.injEq, true_and] at shape
      rw [short] at shape
      have long := congrArg List.length shape.2
      simp at long
  | braced digits _ some_digits value =>
      simp only [List.cons_append, List.cons.injEq, true_and] at shape
      rw [short] at shape
      cases shape.2

theorem resumes_plain (rest : List Piece) : Resumes hashes (.plain c :: rest) ↔ c ∈ selfEscapes := by
  constructor
  · intro resumes
    cases resumes with
    | itself _ _ listed => exact listed
  · exact Resumes.itself c rest

theorem resumes_bare (rest : List Piece) : Resumes hashes (.bare :: rest) ↔ Resumes hashes rest := by
  constructor
  · intro resumes
    cases resumes with
    | bare _ more => exact more
  · exact Resumes.bare rest

theorem agreed_plain (rest : Text) (plain : c ≠ '\\') (inline : '\n' ∉ c :: rest)
    (below : ∀ shorter, shorter <:+ rest → Agreed hashes shorter) : Agreed hashes (c :: rest) := by
  obtain ⟨fromRewritten, fromOrdinary⟩ := decode_plain hashes c rest plain
  have fairness := (consumes_plain hashes c rest plain).fairness
  rw [List.mem_cons, not_or] at inline
  constructor
  · rw [fromRewritten, fromOrdinary, List.cons.injEq, fairness, ← (below rest List.suffix_rfl).level]
    simp
  · rw [fromOrdinary, rewritten_plain hashes c rest plain, decode_chars_escaped, fairness, pieces_plain hashes c rest plain,
      resumes_plain]
    rcases lockstep hashes c rest (Ne.symm inline.1) with ⟨kept, -, noEscape⟩ | ⟨decoded, text, shorter, one, consumed, read, -⟩
    · rw [kept]
      constructor
      · intro same
        simp only [List.cons_append, List.cons.injEq, Ne.symm plain, false_and] at same
      · rintro ⟨listed, -⟩
        exact absurd ⟨_, rfl⟩ (noEscape ['\\', c] c (self_escape_listed c listed).1)
    · rw [read, consumed.fromOrdinary, escape_body_inert c text one, consumed.fairness]
      simp only [List.cons_append, List.nil_append, List.cons.injEq]
      have shorterInline : '\n' ∉ shorter := fun inside => inline.2 (consumed.within.subset inside)
      by_cases listed : c ∈ selfEscapes
      · have same : decoded = c ∧ text = [] := by
          have first := escaped_complete c text [] decoded one
          have second := escaped_complete c [] (text ++ []) c (self_escape_listed c listed).1
          rw [List.nil_append, first, Prod.mk.injEq, List.cons.injEq, List.append_nil] at second
          exact ⟨second.1.1, second.2.symm⟩
        rw [same.1, same.2, ← (below shorter consumed.within).level]
        simp [listed]
      · constructor
        · rintro ⟨rfl, same⟩
          cases text with
          | nil => exact absurd (self_escape_only decoded [] one rfl plain) listed
          | cons d text =>
              rcases escape_body_cases decoded one with unmarked | ⟨-, -, -, -, -, letter, great, -⟩
              · exact absurd same ((apart hashes shorter shorterInline).behind (d :: text) (by simp) unmarked)
              · rw [letter] at great
                exact absurd great (by decide)
        · rintro ⟨inside, -⟩
          exact absurd inside listed

theorem agreed_bare (rest : Text) (unmarked : ¬ List.replicate hashes '#' <+: rest)
    (next : Agreed hashes rest) : Agreed hashes ('\\' :: rest) := by
  have fairness : Fair hashes (pieces hashes ('\\' :: rest)) ↔ Fair hashes (pieces hashes rest) := by
    rw [pieces_bare hashes rest unmarked, fair_cons hashes _ _ (by simp) (by simp)]
  constructor
  · rw [rewritten_bare hashes rest unmarked, ordinary_bare hashes rest unmarked, decode_chars_backslashes,
      decode_chars_backslashes, List.cons.injEq, fairness, ← next.level]
    simp
  · rw [fairness, rewritten_bare hashes rest unmarked, ordinary_bare hashes rest unmarked, decode_chars_backslashes,
      decode_chars_backslashes, List.cons.injEq, pieces_bare hashes rest unmarked, resumes_bare, ← next.pending]
    simp

theorem agreed_escape (esc : Char) (rest : Text) (other : esc ≠ '\\') (apartEscape : esc ≠ '\n')
    (inline : '\n' ∉ rest) (below : ∀ shorter, shorter <:+ rest → Agreed hashes shorter) :
    Agreed hashes ('\\' :: (List.replicate hashes '#' ++ esc :: rest)) := by
  have fairness := (consumes_escape hashes esc rest other).fairness
  have code := (consumes_escape hashes esc rest other).fromRewritten
  have spec := (consumes_escape hashes esc rest other).fromOrdinary
  have shown : (Piece.escape esc :: pieces hashes rest).flatMap (Piece.ordinary hashes) = '\\' :: esc :: ordinary hashes rest := by
    rw [List.flatMap_cons]
    rfl
  rw [List.cons_append, List.cons_append, List.nil_append] at code spec
  have pending : decodeChars false ('\\' :: '\\' :: esc :: rewritten hashes rest) =
      '\\' :: esc :: decodeChars false (rewritten hashes rest) := by
    rw [decode_chars_backslashes, decode_chars_literal false esc _ other]
  rcases lockstep hashes esc rest apartEscape with
    ⟨keptCode, keptSpec, noEscape⟩ | ⟨decoded, text, shorter, one, consumed, readCode, readSpec⟩
  · constructor
    · rw [code, spec, decode_chars_escaped, decode_chars_escaped, keptCode, keptSpec, fairness,
        ← (below rest List.suffix_rfl).level]
      simp
    · have resumes : Resumes hashes (.escape esc :: pieces hashes rest) :=
        .kept esc _ other fun spelling c one => by
          rw [shown]
          exact noEscape spelling c one
      rw [fairness, code, spec, pending, decode_chars_escaped, keptSpec, pieces_escape, ← (below rest List.suffix_rfl).level]
      simp [resumes]
  · constructor
    · rw [code, spec, decode_chars_escaped, decode_chars_escaped, readCode, readSpec, fairness, consumed.fairness,
        ← (below shorter consumed.within).level]
      simp
    · have inert := escape_body_inert esc text one (rewritten hashes shorter)
      have shorterInline : '\n' ∉ shorter := fun inside => inline (consumed.within.subset inside)
      rw [code, spec, pending, decode_chars_escaped, readSpec, pieces_escape, consumed.fromRewritten, inert]
      constructor
      · intro same
        simp only [List.cons_append, List.nil_append, List.cons.injEq] at same
        exact absurd same.2.symm ((apart hashes shorter shorterInline).ahead (esc :: text) (by simp))
      · rintro ⟨resumes, -⟩
        cases resumes with
        | kept _ _ _ noEscape =>
            refine absurd ?_ (noEscape _ decoded one)
            rw [shown, consumed.fromOrdinary]
            exact ⟨ordinary hashes shorter, rfl⟩

theorem agreed_swallowed (some_hash : 0 < hashes) (rest : Text) (inline : '\n' ∉ rest) :
    Agreed hashes ('\\' :: (List.replicate hashes '#' ++ '\\' :: (List.replicate hashes '#' ++ rest))) := by
  obtain ⟨count, rfl⟩ : ∃ count, hashes = count + 1 := ⟨hashes - 1, by omega⟩
  have apartRest := apart (count + 1) rest inline
  have stuck : ¬ Resumes (count + 1) (pieces (count + 1) (List.replicate (count + 1) '#' ++ rest)) := by
    rw [pieces_hashes, List.replicate_succ, List.cons_append, resumes_plain]
    decide
  constructor
  · rw [rewritten_swallowed, ordinary_swallowed, decode_chars_backslashes, decode_chars_backslashes, decode_chars_hashes,
      pieces_escape, fair_paired]
    constructor
    · intro same
      exact absurd (List.cons.inj same).2 (apartRest.behind (List.replicate (count + 1) '#') (by simp) (no_backslash_hashes _))
    · rintro ⟨resumes, -⟩
      exact absurd resumes stuck
  · rw [rewritten_swallowed, ordinary_swallowed, decode_chars_backslashes, decode_chars_backslashes, decode_chars_hashes,
      pieces_escape]
    constructor
    · intro same
      exact absurd (List.cons.inj same).2 (apartRest.behindPending (List.replicate count '#') (no_backslash_hashes _))
    · rintro ⟨resumes, -⟩
      cases resumes with
      | kept _ _ other => exact absurd rfl other

theorem agreed_paired (rest : Text) (unmarked : ¬ List.replicate hashes '#' <+: rest) (inline : '\n' ∉ rest)
    (next : Agreed hashes rest) : Agreed hashes ('\\' :: (List.replicate hashes '#' ++ '\\' :: rest)) := by
  constructor
  · rw [rewritten_paired hashes rest unmarked, ordinary_escape, decode_chars_backslashes, decode_chars_backslashes, pieces_escape,
      fair_paired, ← next.pending, List.cons.injEq]
    simp
  · rw [rewritten_paired hashes rest unmarked, ordinary_escape, decode_chars_backslashes, decode_chars_backslashes,
      decode_chars_backslashes, pieces_escape]
    constructor
    · intro same
      exact absurd (List.cons.inj same).2.symm ((apart hashes rest inline).ahead ['\\'] (by simp))
    · rintro ⟨resumes, -⟩
      cases resumes with
      | kept _ _ other => exact absurd rfl other

theorem agreed_opened (some_hash : 0 < hashes) : Agreed hashes ('\\' :: List.replicate hashes '#') := by
  have shown := decode_chars_hashes hashes []
  rw [List.append_nil, decode_chars_nil, List.append_nil] at shown
  have differs : ¬ ['\\'] = '\\' :: List.replicate hashes '#' := by
    intro same
    have long := congrArg List.length same
    simp only [List.length_cons, List.length_nil, List.length_replicate] at long
    omega
  constructor
  · rw [rewritten_opened, ordinary_opened, decode_chars_lone, decode_chars_backslashes, shown, pieces_opened]
    exact ⟨fun same => absurd same differs, fun fair => absurd List.mem_cons_self fair.1⟩
  · rw [rewritten_opened, ordinary_opened, decode_chars_backslashes, decode_chars_backslashes, shown, pieces_opened,
      decode_chars_nil]
    exact ⟨fun same => absurd same differs, fun fair => absurd List.mem_cons_self fair.2.1⟩

theorem agreed_within (some_hash : 0 < hashes) (size : Nat) :
    ∀ body : Text, body.length ≤ size → '\n' ∉ body → Agreed hashes body := by
  induction size with
  | zero =>
      intro body small inline
      rw [List.length_eq_zero_iff.mp (Nat.le_zero.mp small)]
      exact agreed_nil hashes
  | succ size ih =>
      intro body small inline
      have lines : ∀ rest, rest <:+ body → '\n' ∉ rest := fun rest within inside => inline (within.subset inside)
      have inner : ∀ rest, rest <:+ body → rest.length < body.length → Agreed hashes rest := fun rest within shorter =>
        ih rest (by omega) (lines rest within)
      cases shape hashes body with
      | nil => exact agreed_nil hashes
      | plain c rest plain =>
          exact agreed_plain hashes c rest plain inline fun shorter within =>
            inner shorter (within.trans (List.suffix_cons c rest)) (Nat.lt_succ_of_le within.length_le)
      | bare rest unmarked => exact agreed_bare hashes rest unmarked (inner rest (List.suffix_cons _ rest) (Nat.lt_succ_self _))
      | escape esc rest other =>
          have ends : rest <:+ '\\' :: (List.replicate hashes '#' ++ esc :: rest) :=
            (List.suffix_cons esc rest).trans ((List.suffix_append _ _).trans (List.suffix_cons _ _))
          refine agreed_escape hashes esc rest other (fun same => inline (by simp [same])) (lines rest ends) fun shorter within =>
            inner shorter (within.trans ends) ?_
          have bounded := within.length_le
          simp only [List.length_cons, List.length_append]
          omega
      | swallowed rest =>
          have ends : rest <:+ '\\' :: (List.replicate hashes '#' ++ '\\' :: (List.replicate hashes '#' ++ rest)) :=
            (List.suffix_append _ rest).trans ((List.suffix_cons _ _).trans ((List.suffix_append _ _).trans (List.suffix_cons _ _)))
          exact agreed_swallowed hashes some_hash rest (lines rest ends)
      | paired rest unmarked =>
          have ends : rest <:+ '\\' :: (List.replicate hashes '#' ++ '\\' :: rest) :=
            (List.suffix_cons _ rest).trans ((List.suffix_append _ _).trans (List.suffix_cons _ _))
          refine agreed_paired hashes rest unmarked (lines rest ends) (inner rest ends ?_)
          simp only [List.length_cons, List.length_append]
          omega
      | opened => exact agreed_opened hashes some_hash

def rawLiteral (hashes : Nat) (body : Text) : Text :=
  List.replicate hashes '#' ++ '"' :: (body ++ '"' :: List.replicate hashes '#')

theorem raw_literal_trimmed :
    (rawLiteral hashes body).dropWhile (· == '#') = '"' :: (body ++ '"' :: List.replicate hashes '#') := by
  unfold rawLiteral
  induction hashes with
  | zero => rfl
  | succ hashes ih => simp [List.replicate_succ]

theorem raw_literal_hashes :
    (rawLiteral hashes body).length - ('"' :: (body ++ '"' :: List.replicate hashes '#')).length = hashes := by
  unfold rawLiteral
  rw [List.length_append, List.length_replicate]
  omega

theorem opening_run :
    3 ≤ (('"' :: (body ++ '"' :: List.replicate hashes '#')).takeWhile (· == '"')).length ↔ ['"', '"'] <+: body ++ ['"'] := by
  have ends : (List.replicate hashes '#').takeWhile (· == '"') = [] := by
    cases hashes with
    | zero => rfl
    | succ hashes => simp [List.replicate_succ]
  cases body with
  | nil => simp [ends]
  | cons c rest =>
      by_cases quote : c = '"'
      · cases rest with
        | nil => simp [quote]
        | cons d rest =>
            by_cases again : d = '"'
            · simp [quote, again]
            · simp [quote, again, Ne.symm again]
      · simp [quote, Ne.symm quote]

theorem unquote_quoted : unquote ('"' :: text) ['"'] .upToThree hashes = let len := Run.upToThree.length (('"' :: text).takeWhile (· == '"')).length
    let body := ('"' :: text).drop len
    if body.length < len + hashes then none
    else
      let close := body.drop (body.length - (len + hashes))
      if (close.take len).all (· == '"') ∧ (close.drop len).all (· == '#') then
        some (body.take (body.length - (len + hashes)), len)
      else none := rfl

theorem raw_literal_unquoted (single : ¬ ['"', '"'] <+: body ++ ['"']) :
    unquote ('"' :: (body ++ '"' :: List.replicate hashes '#')) ['"'] .upToThree hashes = some (body, 1) := by
  have run : Run.upToThree.length (('"' :: (body ++ '"' :: List.replicate hashes '#')).takeWhile (· == '"')).length = 1 :=
    if_neg fun long => single ((opening_run hashes body).mp long)
  have size : (body ++ '"' :: List.replicate hashes '#').length - (1 + hashes) = body.length := by
    simp only [List.length_append, List.length_cons, List.length_replicate]
    omega
  have long : ¬ (body ++ '"' :: List.replicate hashes '#').length < 1 + hashes := by
    simp only [List.length_append, List.length_cons, List.length_replicate]
    omega
  rw [unquote_quoted, run]
  dsimp only
  rw [List.drop_succ_cons, List.drop_zero, if_neg long, size, List.drop_left, List.take_left, if_pos]
  simp

theorem raw_literal_tripled (inline : '\n' ∉ body) (triple : ['"', '"'] <+: body ++ ['"']) (inner : Text) (run : Nat)
    (found : unquote ('"' :: (body ++ '"' :: List.replicate hashes '#')) ['"'] .upToThree hashes = some (inner, run)) :
    run = 3 ∧ '\n' ∉ inner := by
  have opened : Run.upToThree.length (('"' :: (body ++ '"' :: List.replicate hashes '#')).takeWhile (· == '"')).length = 3 :=
    if_pos ((opening_run hashes body).mpr triple)
  rw [unquote_quoted, opened] at found
  obtain ⟨-, found⟩ := Option.ite_none_left_eq_some.mp found
  obtain ⟨-, found⟩ := Option.ite_none_right_eq_some.mp found
  obtain ⟨rfl, rfl⟩ := Prod.mk.inj (Option.some.inj found)
  refine ⟨rfl, fun inside => ?_⟩
  have whole := List.mem_of_mem_drop (List.mem_of_mem_take inside)
  simp only [List.mem_cons, List.mem_append, Char.reduceEq, false_or] at whole
  rcases whole with inside | inside
  · exact inline inside
  · exact absurd (List.eq_of_mem_replicate inside) (by decide)

theorem hashed_single (some_hash : 0 < hashes) (body : Text) (single : ¬ ['"', '"'] <+: body ++ ['"']) :
    hashed (rawLiteral hashes body) = some (decode (rewritten hashes body)) := by
  have several : ¬ hashes = 0 := Nat.pos_iff_ne_zero.mp some_hash
  unfold hashed
  simp only [raw_literal_trimmed, raw_literal_hashes, raw_literal_unquoted hashes body single]
  simp [several]

theorem hashed_tripled (inline : '\n' ∉ body) (triple : ['"', '"'] <+: body ++ ['"']) :
    hashed (rawLiteral hashes body) = none := by
  unfold hashed
  simp only [raw_literal_trimmed, raw_literal_hashes]
  cases found : unquote ('"' :: (body ++ '"' :: List.replicate hashes '#')) ['"'] .upToThree hashes with
  | none => rfl
  | some parts =>
      obtain ⟨run, lines⟩ := raw_literal_tripled hashes body inline triple parts.1 parts.2 found
      have flat : dedent parts.1 = none := by
        rw [dedent, splitOnce, if_neg lines]
      simp only [run, if_true, flat]

-- A raw literal of one line has the value of the ordinary literal it stands for just when its body does not look like an
-- opening of three quotes, does not end in an introducer, and every escaped backslash is followed by something that
-- brings the decoder into step.
theorem hashed_value_iff (hashes : Nat) (some_hash : 0 < hashes) (body : Text) (inline : '\n' ∉ body) :
    hashed (rawLiteral hashes body) = some (decode (ordinary hashes body)) ↔
      ¬ ['"', '"'] <+: body ++ ['"'] ∧ .opened ∉ pieces hashes body ∧
        ∀ front back, pieces hashes body = front ++ .escape '\\' :: back → Resumes hashes back := by
  by_cases triple : ['"', '"'] <+: body ++ ['"']
  · rw [hashed_tripled hashes body inline triple]
    exact ⟨fun same => absurd same (by simp), fun conditions => absurd triple conditions.1⟩
  · rw [hashed_single hashes some_hash body triple, Option.some.injEq, decode, decode, decode_language_eq, decode_language_eq,
      (agreed_within hashes some_hash body.length body (Nat.le_refl _) inline).level]
    exact ⟨fun fair => ⟨triple, fair⟩, fun conditions => conditions.2⟩

theorem hashed_value_iff_self_escape :
    hashed (rawLiteral 1 ['a', '\\', '#', '\\', '/', 'b']) = some (decode (ordinary 1 ['a', '\\', '#', '\\', '/', 'b'])) := by
  have cut : pieces 1 ['a', '\\', '#', '\\', '/', 'b'] = [.plain 'a', .escape '\\', .plain '/', .plain 'b'] := by decide +kernel
  have fair : Fair 1 (pieces 1 ['a', '\\', '#', '\\', '/', 'b']) := by
    rw [cut, fair_cons 1 _ _ (by decide) (by decide), fair_paired, fair_cons 1 _ _ (by decide) (by decide),
      fair_cons 1 _ _ (by decide) (by decide)]
    exact ⟨.itself '/' _ (by decide), fair_nil 1⟩
  exact (hashed_value_iff 1 (by decide) ['a', '\\', '#', '\\', '/', 'b'] (by decide)).mpr ⟨by decide, fair⟩

theorem escaped_backslash_reread :
    hashed (rawLiteral 1 ['\\', '#', '\\', 'n']) = some ['\\', '\n'] ∧
      decode (ordinary 1 ['\\', '#', '\\', 'n']) = ['\\', 'n'] ∧
      hashed (rawLiteral 1 ['\\', '#', '\\', 'n']) ≠ some (decode (ordinary 1 ['\\', '#', '\\', 'n'])) := by
  decide +kernel

end Filefacts.Source
