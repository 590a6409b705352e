import Filefacts.Cfml.Script
import Filefacts.Lib.Covered

set_option autoImplicit false

namespace Filefacts.Cfml

-- A position of a chain behind one of its names, or behind one of its dots and before a name.
def InChain (bytes : List UInt8) (stop pos last : Nat) : Prop :=
  chainEnd bytes stop pos = last ∨
    (identifier bytes (whitespace bytes pos stop) stop ≠ whitespace bytes pos stop ∧
      chainEnd bytes stop (identifier bytes (whitespace bytes pos stop) stop) = last)

variable (bytes : List UInt8) (pos stop : Nat) (b : UInt8)

theorem whitespace_blank (read : bytes[pos]? = some b) (inside : pos < stop)
    (blank : isAsciiWhitespace b) : whitespace bytes pos stop = whitespace bytes (pos + 1) stop := by
  rw [whitespace, if_pos ⟨inside, by rw [read]; exact blank⟩]

theorem whitespace_other (read : bytes[pos]? = some b) (other : ¬ isAsciiWhitespace b) : whitespace bytes pos stop = pos := by
  rw [whitespace, if_neg fun both => other (by simpa [read] using both.2)]

theorem in_chain_octet (pos last : Nat) (b : UInt8) (inside : pos < stop) (read : bytes[pos]? = some b)
    (chain : InChain bytes stop pos last) (more : pos < last) :
    ((isAsciiWhitespace b ∨ b = 46) ∧ InChain bytes stop (pos + 1) last) ∨
      (isNameStart b ∧ chainEnd bytes stop (identifier bytes pos stop) = last) := by
  by_cases blank : isAsciiWhitespace b
  · refine Or.inl ⟨Or.inl blank, ?_⟩
    rw [InChain, chainEnd, whitespace_blank bytes pos stop b read inside blank] at chain
    exact chain
  · have here := whitespace_other bytes pos stop b read blank
    rw [InChain, chainEnd, here] at chain
    rcases chain with behind | ⟨named, behind⟩
    · rw [dotted] at behind
      split at behind
      · rename_i dot
        obtain rfl := Option.some.inj (read.symm.trans dot)
        dsimp only at behind
        split at behind
        · omega
        · rename_i named
          exact Or.inl ⟨Or.inr rfl, Or.inr ⟨named, behind⟩⟩
      · omega
    · refine Or.inr ⟨?_, behind⟩
      by_contra other
      refine named ?_
      rw [identifier, if_pos (Or.inr (by simpa [read] using other))]

theorem blank_or_dot (blank : isAsciiWhitespace b ∨ b = 46) : ¬ isNameStart b ∧ ¬ (b = 39 ∨ b = 34) := by
  rw [isAsciiWhitespace] at blank
  simp only [Bool.or_eq_true, decide_eq_true_eq] at blank
  rcases blank with ((((rfl | rfl) | rfl) | rfl) | rfl) | rfl <;> exact ⟨by decide, by decide⟩

theorem name_start_unquoted (named : isNameStart b) : ¬ (b = 39 ∨ b = 34) := by
  rintro (rfl | rfl) <;> exact absurd named (by decide)

theorem taken_read (pos : Nat) (inside : pos < (bytes.take stop).length) :
    pos < stop ∧ bytes[pos]? = some (bytes.take stop)[pos] := by
  rw [List.length_take] at inside
  rw [List.getElem_take]
  exact ⟨by omega, List.getElem?_eq_getElem (by omega)⟩

theorem lex_in_chain (pos last : Nat) (declaration : Bool) (inside : pos < (bytes.take stop).length)
    (more : pos < last) (chain : InChain bytes stop pos last) :
    (∀ next flag, lex bytes stop pos (bytes.take stop)[pos] declaration = .skip next flag → InChain bytes stop next last) ∧
      ∀ next, lex bytes stop pos (bytes.take stop)[pos] declaration = .name next → chainEnd bytes stop next = last := by
  obtain ⟨under, read⟩ := taken_read bytes stop pos inside
  rcases in_chain_octet bytes stop pos last _ under read chain more with ⟨blank, rest⟩ | ⟨named, behind⟩
  · obtain ⟨unnamed, unquoted⟩ := blank_or_dot _ blank
    have none : identifier bytes pos stop = pos := by
      rw [identifier, if_pos (Or.inr (by simpa [read] using unnamed))]
    rw [lex, if_neg unquoted]
    simp only [if_pos none]
    exact ⟨by rintro _ _ ⟨⟩; exact rest, by rintro _ ⟨⟩⟩
  · rw [lex, if_neg (name_start_unquoted _ named)]
    have some : identifier bytes pos stop ≠ pos := by
      rw [identifier, if_neg]
      · have past := name_rest_past bytes (pos + 1) stop
        omega
      · rintro (same | other)
        · omega
        · exact other (by simpa [read] using named)
    simp only [if_neg some]
    split
    · exact ⟨by rintro _ _ ⟨⟩; exact Or.inl behind, by rintro _ ⟨⟩⟩
    · split
      · exact ⟨by rintro _ _ ⟨⟩; exact Or.inl behind, by rintro _ ⟨⟩⟩
      · exact ⟨by rintro _ _ ⟨⟩, by rintro _ ⟨⟩; exact behind⟩

section Loop

variable {Memo : Type} (chaining : Chaining Memo) (bytes : List UInt8) (stop pos : Nat) (memo left : Memo) (declaration : Bool)
  (out : List (Nat × Nat))

theorem loop_finished (outside : ¬ pos < (bytes.take stop).length) :
    callsLoop chaining bytes stop pos memo declaration out = ⟨out, .finished, memo⟩ := by
  rw [callsLoop, dif_neg outside]

theorem loop_stopped (inside : pos < (bytes.take stop).length) (exit : Exit)
    (lexed : lex bytes stop pos (bytes.take stop)[pos] declaration = .stop exit) :
    callsLoop chaining bytes stop pos memo declaration out = ⟨out, exit, memo⟩ := by
  rw [callsLoop, dif_pos inside]
  split <;> rename_i other <;> cases lexed.symm.trans other
  rfl

theorem loop_skipped (inside : pos < (bytes.take stop).length) {next : Nat} {flag : Bool}
    (lexed : lex bytes stop pos (bytes.take stop)[pos] declaration = .skip next flag) :
    callsLoop chaining bytes stop pos memo declaration out = callsLoop chaining bytes stop next memo flag out := by
  rw [callsLoop, dif_pos inside]
  split <;> rename_i other <;> cases lexed.symm.trans other
  rfl

section Name

variable (inside : pos < (bytes.take stop).length) (nameEnd : Nat)
  (lexed : lex bytes stop pos (bytes.take stop)[pos] declaration = .name nameEnd)

include lexed

theorem loop_spent (spent : chaining memo nameEnd = (none, left)) :
    callsLoop chaining bytes stop pos memo declaration out = ⟨out, .budget, left⟩ := by
  rw [callsLoop, dif_pos inside]
  split <;> rename_i other <;> cases lexed.symm.trans other
  rw [spent]

variable (chained : { chained : Nat // nameEnd ≤ chained }) (found : chaining memo nameEnd = (some chained, left))

include found

theorem loop_unclosed {exit : Exit} (passed : called bytes stop nameEnd chained.val declaration out.length = .stop exit) :
    callsLoop chaining bytes stop pos memo declaration out = ⟨out, exit, left⟩ := by
  rw [callsLoop, dif_pos inside]
  split <;> rename_i other <;> cases lexed.symm.trans other
  rw [found]
  dsimp only
  split <;> rename_i again <;> cases passed.symm.trans again
  rfl

theorem loop_uncalled (next : Nat) (passed : called bytes stop nameEnd chained.val declaration out.length = .skip next) :
    callsLoop chaining bytes stop pos memo declaration out = callsLoop chaining bytes stop next left false out := by
  rw [callsLoop, dif_pos inside]
  split <;> rename_i other <;> cases lexed.symm.trans other
  rw [found]
  dsimp only
  split <;> rename_i again <;> cases passed.symm.trans again
  rfl

theorem loop_called {next : Nat} (passed : called bytes stop nameEnd chained.val declaration out.length = .call next) :
    callsLoop chaining bytes stop pos memo declaration out = callsLoop chaining bytes stop next left false (out ++ [(pos, next)]) := by
  rw [callsLoop, dif_pos inside]
  split <;> rename_i other <;> cases lexed.symm.trans other
  rw [found]
  dsimp only
  split <;> rename_i again <;> cases passed.symm.trans again
  rfl

end Name

end Loop

open Covered (covered total mem_covered covered_snoc total_snoc card_covered)

-- What the reused chain is worth at a position: a name from here on that lies inside it has its end.
structure Related (bytes : List UInt8) (start stop pos : Nat) (memo : Chain) (log : List (Nat × Nat)) : Prop where
  chain : pos < memo.last → InChain bytes stop pos memo.last
  inner : ∀ i, pos ≤ i → i < memo.last → i ∈ covered memo.scans
  same : covered memo.scans = covered log
  work : memo.work = total memo.scans
  ordered : memo.scans.Pairwise fun earlier later => earlier.2 ≤ later.1
  past : ∀ scan ∈ memo.scans, scan.2 ≤ memo.last
  room : memo.work ≤ chainBudget start stop

structure Agrees (start stop : Nat) (fast : Scanned Chain) (slow : Scanned (List (Nat × Nat))) : Prop where
  ordered : fast.memo.scans.Pairwise fun earlier later => earlier.2 ≤ later.1
  work : fast.memo.work = total fast.memo.scans
  kept : covered fast.memo.scans ⊆ covered slow.memo
  spent : fast.exit = .budget → chainBudget start stop < fast.memo.work
  level : fast.exit ≠ .budget → fast.memo.work ≤ chainBudget start stop ∧ fast.out = slow.out ∧ fast.exit = slow.exit ∧
    covered fast.memo.scans = covered slow.memo

variable (start count : Nat)

variable {log : List (Nat × Nat)} {exit : Exit}

theorem related_later {stop pos next : Nat} {memo : Chain}
    (related : Related bytes start stop pos memo log) (later : pos ≤ next) (chain : next < memo.last → InChain bytes stop next memo.last) :
    Related bytes start stop next memo log :=
  ⟨chain, fun i after => related.inner i (later.trans after), related.same, related.work, related.ordered, related.past, related.room⟩

theorem related_agrees {stop pos : Nat} {memo : Chain}
    (related : Related bytes start stop pos memo log) (out : List (Nat × Nat)) (other : exit ≠ .budget) :
    Agrees start stop ⟨out, exit, memo⟩ ⟨out, exit, log⟩ :=
  ⟨related.ordered, related.work, fun _ inside => related.same ▸ inside, fun spent => absurd spent other,
    fun _ => ⟨related.room, rfl, rfl, related.same⟩⟩

theorem lex_unspent {pos : Nat} {byte : UInt8} {declaration : Bool}
    (stopped : lex bytes stop pos byte declaration = .stop exit) : exit ≠ .budget := by
  rw [lex] at stopped
  split at stopped
  · split at stopped
    · cases stopped
      decide
    · cases stopped
  · dsimp only at stopped
    split at stopped
    · cases stopped
    · split at stopped
      · cases stopped
      · split at stopped <;> cases stopped

theorem called_unspent {nameEnd chained : Nat} {declaration : Bool} {found : Nat}
    (stopped : called bytes stop nameEnd chained declaration found = .stop exit) : exit ≠ .budget := by
  rw [called] at stopped
  split at stopped
  · cases stopped
  · split at stopped
    · cases stopped
      decide
    · split at stopped
      · cases stopped
      · split at stopped
        · cases stopped
          decide
        · split at stopped <;> cases stopped
          decide

theorem related_name {stop pos nameEnd : Nat} {memo : Chain}
    (related : Related bytes start stop pos memo log) (later : pos ≤ nameEnd)
    (behind : nameEnd < memo.last → chainEnd bytes stop nameEnd = memo.last) :
    (∃ left, reused bytes start stop memo nameEnd = (none, left) ∧ chainBudget start stop < left.work ∧
      left.work = total left.scans ∧ (left.scans.Pairwise fun earlier later => earlier.2 ≤ later.1) ∧
      covered left.scans = covered (log ++ [(nameEnd, chainEnd bytes stop nameEnd)])) ∨
    ∃ left, reused bytes start stop memo nameEnd =
        (some ⟨chainEnd bytes stop nameEnd, chain_end_past bytes stop nameEnd⟩, left) ∧
      left.last = chainEnd bytes stop nameEnd ∧
      Related bytes start stop nameEnd left (log ++ [(nameEnd, chainEnd bytes stop nameEnd)]) := by
  by_cases inside : nameEnd < memo.last
  · have same := behind inside
    refine Or.inr ⟨memo, ?_, same.symm, ?_⟩
    · rw [reused, dif_pos inside]
      exact congrArg (fun chained => (some chained, memo)) (Subtype.ext same.symm)
    · refine ⟨fun _ => Or.inl same, fun i after => related.inner i (later.trans after), ?_, related.work, related.ordered,
        related.past, related.room⟩
      rw [covered_snoc, ← related.same, same]
      refine (Finset.union_eq_left.mpr fun i within => ?_).symm
      obtain ⟨low, high⟩ := Finset.mem_Ico.mp within
      exact related.inner i (later.trans low) high
  · have scanned : reused bytes start stop memo nameEnd =
        (if chainBudget start stop < memo.work + (chainEnd bytes stop nameEnd - nameEnd) then none
          else some ⟨chainEnd bytes stop nameEnd, chain_end_past bytes stop nameEnd⟩,
        ⟨chainEnd bytes stop nameEnd, memo.work + (chainEnd bytes stop nameEnd - nameEnd),
          memo.scans ++ [(nameEnd, chainEnd bytes stop nameEnd)]⟩) := by
      rw [reused, dif_neg inside]
    have work : memo.work + (chainEnd bytes stop nameEnd - nameEnd) = total (memo.scans ++ [(nameEnd, chainEnd bytes stop nameEnd)]) := by
      rw [total_snoc, related.work]
    have ordered : (memo.scans ++ [(nameEnd, chainEnd bytes stop nameEnd)]).Pairwise fun earlier later => earlier.2 ≤ later.1 := by
      refine List.pairwise_append.mpr ⟨related.ordered, List.pairwise_singleton _ _, fun earlier found last listed => ?_⟩
      rw [List.mem_singleton.mp listed]
      exact (related.past earlier found).trans (Nat.le_of_not_lt inside)
    have same : covered (memo.scans ++ [(nameEnd, chainEnd bytes stop nameEnd)]) =
        covered (log ++ [(nameEnd, chainEnd bytes stop nameEnd)]) := by
      rw [covered_snoc, covered_snoc, related.same]
    by_cases spent : chainBudget start stop < memo.work + (chainEnd bytes stop nameEnd - nameEnd)
    · rw [if_pos spent] at scanned
      exact Or.inl ⟨_, scanned, spent, work, ordered, same⟩
    · rw [if_neg spent] at scanned
      refine Or.inr ⟨_, scanned, rfl, fun _ => Or.inl rfl, ?_, same, work, ordered, ?_, Nat.le_of_not_lt spent⟩
      · intro i low high
        rw [covered_snoc]
        exact Finset.mem_union_right _ (Finset.mem_Ico.mpr ⟨low, high⟩)
      · intro scan found
        rcases List.mem_append.mp found with found | found
        · have before := related.past scan found
          have after := chain_end_past bytes stop nameEnd
          show scan.2 ≤ chainEnd bytes stop nameEnd
          omega
        · rw [List.mem_singleton.mp found]

theorem name_rest_within (inside : pos ≤ stop) : nameRest bytes pos stop ≤ stop := by
  induction pos using nameRest.induct bytes stop with
  | case1 pos more ih =>
      rw [nameRest, if_pos more]
      exact ih more.1
  | case2 pos other =>
      rw [nameRest, if_neg other]
      exact inside

theorem identifier_within (inside : pos ≤ stop) : identifier bytes pos stop ≤ stop := by
  rw [identifier]
  split
  · exact inside
  · rename_i other
    exact name_rest_within bytes (pos + 1) stop (Nat.lt_of_le_of_ne inside fun same => other (Or.inl same))

theorem whitespace_within (inside : pos ≤ stop) : whitespace bytes pos stop ≤ stop := by
  induction pos using whitespace.induct bytes stop with
  | case1 pos blank ih =>
      rw [whitespace, if_pos blank]
      exact ih blank.1
  | case2 pos other =>
      rw [whitespace, if_neg other]
      exact inside

theorem rescanned_keeps (stop : Nat) (kept : List (Nat × Nat) → Prop)
    (step : ∀ nameEnd log, start ≤ nameEnd → nameEnd ≤ stop → kept log → kept (log ++ [(nameEnd, chainEnd bytes stop nameEnd)]))
    (pos : Nat) (log : List (Nat × Nat)) (declaration : Bool) (out : List (Nat × Nat)) (after : start ≤ pos) (first : kept log) :
    kept (callsLoop (rescanned bytes stop) bytes stop pos log declaration out).memo := by
  induction size : (bytes.take stop).length - pos using Nat.strong_induction_on generalizing pos log declaration out with
  | _ size ih =>
      by_cases inside : pos < (bytes.take stop).length
      · cases lexed : lex bytes stop pos (bytes.take stop)[pos] declaration with
        | stop exit =>
            rw [loop_stopped _ bytes stop pos log declaration out inside exit lexed]
            exact first
        | skip next flag =>
            have past := (lex_past bytes stop pos _ declaration).1 next flag lexed
            rw [loop_skipped _ bytes stop pos log declaration out inside lexed]
            exact ih _ (by omega) next log flag out (by omega) first rfl
        | name nameEnd =>
            obtain ⟨past, named⟩ := (lex_past bytes stop pos _ declaration).2 nameEnd lexed
            have under := (taken_read bytes stop pos inside).1
            have within : nameEnd ≤ stop := by
              rw [named]
              exact identifier_within bytes pos stop (Nat.le_of_lt under)
            have more := step nameEnd log (by omega) within first
            have far := chain_end_past bytes stop nameEnd
            cases passed : called bytes stop nameEnd (chainEnd bytes stop nameEnd) declaration out.length with
            | stop exit =>
                rw [loop_unclosed _ bytes stop pos log _ declaration out inside nameEnd lexed _ rfl passed]
                exact more
            | skip next =>
                have later := (called_past bytes stop nameEnd _ declaration out.length).1 next passed
                rw [loop_uncalled _ bytes stop pos log _ declaration out inside nameEnd lexed _ rfl next passed]
                exact ih _ (by omega) next _ false out (by omega) more rfl
            | call next =>
                have later := (called_past bytes stop nameEnd _ declaration out.length).2 next passed
                rw [loop_called _ bytes stop pos log _ declaration out inside nameEnd lexed _ rfl passed]
                exact ih _ (by omega) next _ false _ (by omega) more rfl
      · rw [loop_finished _ bytes stop pos log declaration out inside]
        exact first

theorem rescanned_grows (pos : Nat) (log before : List (Nat × Nat)) (declaration : Bool)
    (out : List (Nat × Nat)) (first : covered before ⊆ covered log) :
    covered before ⊆ covered (callsLoop (rescanned bytes stop) bytes stop pos log declaration out).memo := by
  refine rescanned_keeps bytes 0 stop (fun log => covered before ⊆ covered log) ?_ pos log declaration out (Nat.zero_le pos) first
  intro nameEnd log _ _ grown
  rw [covered_snoc]
  exact grown.trans Finset.subset_union_left

theorem rescanned_named {pos : Nat} (log : List (Nat × Nat)) {declaration : Bool} (out : List (Nat × Nat))
    (inside : pos < (bytes.take stop).length) {nameEnd : Nat}
    (lexed : lex bytes stop pos (bytes.take stop)[pos] declaration = .name nameEnd) :
    covered (log ++ [(nameEnd, chainEnd bytes stop nameEnd)]) ⊆
      covered (callsLoop (rescanned bytes stop) bytes stop pos log declaration out).memo := by
  cases passed : called bytes stop nameEnd (chainEnd bytes stop nameEnd) declaration out.length with
  | stop exit =>
      rw [loop_unclosed _ bytes stop pos log _ declaration out inside nameEnd lexed _ rfl passed]
  | skip next =>
      rw [loop_uncalled _ bytes stop pos log _ declaration out inside nameEnd lexed _ rfl next passed]
      exact rescanned_grows bytes stop next _ _ false out (Finset.Subset.refl _)
  | call next =>
      rw [loop_called _ bytes stop pos log _ declaration out inside nameEnd lexed _ rfl passed]
      exact rescanned_grows bytes stop next _ _ false _ (Finset.Subset.refl _)

theorem loop_agrees (stop pos : Nat) (memo : Chain) (log : List (Nat × Nat)) (declaration : Bool)
    (out : List (Nat × Nat)) (related : Related bytes start stop pos memo log) :
    Agrees start stop (callsLoop (reused bytes start stop) bytes stop pos memo declaration out)
      (callsLoop (rescanned bytes stop) bytes stop pos log declaration out) := by
  induction size : (bytes.take stop).length - pos using Nat.strong_induction_on generalizing pos memo log declaration out with
  | _ size ih =>
      by_cases inside : pos < (bytes.take stop).length
      · have chain := fun more => lex_in_chain bytes stop pos memo.last declaration inside more (related.chain more)
        cases lexed : lex bytes stop pos (bytes.take stop)[pos] declaration with
        | stop exit =>
            rw [loop_stopped _ bytes stop pos memo declaration out inside exit lexed,
              loop_stopped _ bytes stop pos log declaration out inside exit lexed]
            exact related_agrees bytes start related out (lex_unspent bytes stop lexed)
        | skip next flag =>
            have past := (lex_past bytes stop pos _ declaration).1 next flag lexed
            rw [loop_skipped _ bytes stop pos memo declaration out inside lexed,
              loop_skipped _ bytes stop pos log declaration out inside lexed]
            refine ih _ (by omega) next memo log flag out ?_ rfl
            exact related_later bytes start related (Nat.le_of_lt past)
              fun more => (chain (past.trans more)).1 next flag lexed
        | name nameEnd =>
            have past := ((lex_past bytes stop pos _ declaration).2 nameEnd lexed).1
            have behind : nameEnd < memo.last → chainEnd bytes stop nameEnd = memo.last :=
              fun more => (chain (past.trans more)).2 nameEnd lexed
            have far := chain_end_past bytes stop nameEnd
            rcases related_name bytes start related (Nat.le_of_lt past) behind with
              ⟨left, found, spent, work, ordered, same⟩ | ⟨left, found, last, named⟩
            · rw [loop_spent _ bytes stop pos memo left declaration out inside nameEnd lexed found]
              refine ⟨ordered, work, ?_, fun _ => spent, fun other => absurd rfl other⟩
              rw [same]
              exact rescanned_named bytes stop log out inside lexed
            · have arrived : ∀ next, next = nameEnd ∨ chainEnd bytes stop nameEnd < next →
                  Related bytes start stop next left (log ++ [(nameEnd, chainEnd bytes stop nameEnd)]) := by
                rintro next (rfl | beyond)
                · exact named
                · exact related_later bytes start named (by omega) fun more => by omega
              cases passed : called bytes stop nameEnd (chainEnd bytes stop nameEnd) declaration out.length with
              | stop exit =>
                  rw [loop_unclosed _ bytes stop pos memo left declaration out inside nameEnd lexed _ found passed,
                    loop_unclosed _ bytes stop pos log _ declaration out inside nameEnd lexed _ rfl passed]
                  exact related_agrees bytes start named out
                    (called_unspent bytes stop passed)
              | skip next =>
                  have later := (called_past bytes stop nameEnd _ declaration out.length).1 next passed
                  rw [loop_uncalled _ bytes stop pos memo left declaration out inside nameEnd lexed _ found next passed,
                    loop_uncalled _ bytes stop pos log _ declaration out inside nameEnd lexed _ rfl next passed]
                  exact ih _ (by omega) next left _ false out (arrived next later) rfl
              | call next =>
                  have later := (called_past bytes stop nameEnd _ declaration out.length).2 next passed
                  rw [loop_called _ bytes stop pos memo left declaration out inside nameEnd lexed _ found passed,
                    loop_called _ bytes stop pos log _ declaration out inside nameEnd lexed _ rfl passed]
                  exact ih _ (by omega) next left _ false _ (arrived next (Or.inr later)) rfl
      · rw [loop_finished _ bytes stop pos memo declaration out inside, loop_finished _ bytes stop pos log declaration out inside]
        exact related_agrees bytes start related out (by decide)

theorem dotted_within (pos : Nat) (inside : pos ≤ stop) : dotted bytes stop pos ≤ max stop (dotted bytes stop stop) := by
  induction pos using dotted.induct bytes stop with
  | case1 pos dot next nameEnd none =>
      rw [dotted, if_pos dot, if_pos none]
      exact inside.trans (Nat.le_max_left _ _)
  | case2 pos dot next nameEnd named ih =>
      by_cases last : pos = stop
      · subst last
        exact Nat.le_max_right _ _
      · have blanks := whitespace_within bytes (pos + 1) stop (Nat.lt_of_le_of_ne inside last)
        have name := identifier_within bytes next stop blanks
        rw [dotted, if_pos dot, if_neg named]
        exact ih (whitespace_within bytes nameEnd stop name)
  | case3 pos other =>
      rw [dotted, if_neg other]
      exact inside.trans (Nat.le_max_left _ _)

theorem chain_end_within (pos : Nat) (inside : pos ≤ stop) :
    chainEnd bytes stop pos ≤ max stop (chainEnd bytes stop stop) := by
  have last : whitespace bytes stop stop = stop := by
    rw [whitespace, if_neg fun both => Nat.lt_irrefl stop both.1]
  rw [chainEnd, chainEnd, last]
  exact dotted_within bytes stop _ (whitespace_within bytes pos stop inside)

theorem rescanned_within (stop : Nat) :
    covered (scanRescanned bytes start stop).memo ⊆ Finset.Ico start (max stop (chainEnd bytes stop stop)) := by
  refine rescanned_keeps bytes start stop (fun log => covered log ⊆ Finset.Ico start (max stop (chainEnd bytes stop stop))) ?_
    start [] false [] (Nat.le_refl start) (Finset.empty_subset _)
  intro nameEnd log low high kept
  rw [covered_snoc]
  exact Finset.union_subset kept (Finset.Ico_subset_Ico low (chain_end_within bytes stop nameEnd high))

theorem budget_enough (stop : Nat) (fits : 2 * (stop - start) + 1024 ≤ Bytes.maxU64)
    (run : chainEnd bytes stop stop - stop ≤ stop - start + 1024) :
    (covered (scanRescanned bytes start stop).memo).card ≤ chainBudget start stop := by
  by_cases empty : stop < start
  · have outside : ¬ start < (bytes.take stop).length := by
      rw [List.length_take]
      omega
    rw [scanRescanned, loop_finished _ bytes stop start [] false [] outside]
    exact Nat.zero_le _
  have size := Finset.card_le_card (rescanned_within bytes start stop)
  have budget : chainBudget start stop = (stop - start) * 2 + 1024 := by
    rw [chainBudget, Bytes.saturatingMul, Nat.min_eq_left (by omega), Bytes.saturatingAdd, Nat.min_eq_left (by omega)]
  rw [Nat.card_Ico] at size
  rw [budget]
  omega

theorem scans_agree (stop : Nat) : Agrees start stop (scanReused bytes start stop) (scanRescanned bytes start stop) := by
  refine loop_agrees bytes start stop start ⟨start, 0, []⟩ [] false [] ⟨?_, ?_, rfl, rfl, List.Pairwise.nil, ?_, Nat.zero_le _⟩
  · exact fun less => absurd less (Nat.lt_irrefl start)
  · exact fun i low high => absurd high (Nat.not_lt_of_le low)
  · exact fun _ found => absurd found List.not_mem_nil

def dottedRun (count : Nat) : List UInt8 := (List.replicate count [46, 98]).flatten

theorem dotted_run_octets (i : Nat) (more : i < count) :
    (dottedRun count)[2 * i]? = some 46 ∧ (dottedRun count)[2 * i + 1]? = some 98 := by
  induction count generalizing i with
  | zero => cases more
  | succ count ih =>
      cases i with
      | zero => exact ⟨rfl, rfl⟩
      | succ i => exact ih i (Nat.lt_of_succ_lt_succ more)

theorem dotted_run_end : (dottedRun count)[2 * count]? = none := by
  rw [List.getElem?_eq_none_iff, dottedRun, List.length_flatten, List.map_replicate, List.sum_replicate_nat]
  exact Nat.le_of_eq (Nat.mul_comm _ _)

theorem dotted_run (left i : Nat) (whole : i + left = count) :
    dotted (97 :: dottedRun count) 1 (2 * i + 1) = 2 * count + 1 := by
  induction left generalizing i with
  | zero =>
      obtain rfl : i = count := whole
      rw [dotted, List.getElem?_cons_succ, dotted_run_end, if_neg (by rintro ⟨⟩)]
  | succ left ih =>
      obtain ⟨dot, name⟩ := dotted_run_octets count i (by omega)
      have blank : ∀ pos, 1 ≤ pos → whitespace (97 :: dottedRun count) pos 1 = pos := by
        intro pos past
        rw [whitespace, if_neg (by omega)]
      have rest : nameRest (97 :: dottedRun count) (2 * i + 3) 1 = 2 * i + 3 := by
        rw [nameRest, if_neg (by omega)]
      have named : identifier (97 :: dottedRun count) (2 * i + 1 + 1) 1 = 2 * i + 3 := by
        rw [identifier, if_neg, rest]
        rw [List.getElem?_cons_succ, name]
        rintro (same | other)
        · omega
        · exact other (by decide)
      rw [dotted, List.getElem?_cons_succ, dot, if_pos rfl, blank _ (by omega)]
      simp only [named]
      rw [if_neg (by omega), blank _ (by omega)]
      exact ih (i + 1) (by omega)

theorem reused_spent (chained : chainEnd bytes 1 1 = 1029) :
    reused bytes 0 1 ⟨0, 0, []⟩ 1 = (none, ⟨1029, 1028, [(1, 1029)]⟩) := by
  have spent : chainBudget 0 1 < 0 + (1029 - 1) := by decide
  rw [reused, dif_neg (Nat.not_lt_zero 1)]
  simp only [chained, if_pos spent]
  rfl

end Filefacts.Cfml
