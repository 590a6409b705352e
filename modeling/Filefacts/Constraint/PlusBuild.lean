import Filefacts.Constraint.FileHeader

set_option autoImplicit false

namespace Filefacts.Constraint

-- A tag set such as a port's: neither `ignore` nor a name Go has no tag for is set.
structure PortTags (tables : Tables) (tag : String → Bool) : Prop where
  ignoreUnset : tag "ignore" = false
  oddUnset : ∀ name : List Char, (∃ c ∈ name, tables.isOdd c = true) → tag (String.ofList name) = false

variable (tables : Tables)

theorem in_tag_subset (c : Char) (inside : tables.golang.inTag c = true) : tables.rust.inTag c = true := by
  simp only [Unicode.inTag, Bool.or_eq_true] at inside ⊢
  rcases inside with (letter | low) | dot
  · exact .inl (.inl (tables.subset c letter))
  · exact .inl (.inr low)
  · exact .inr dot

theorem valid_tag_odd (name : List Char) (valid : isValidTag tables.rust name = true)
    (invalid : isValidTag tables.golang name = false) : ∃ c ∈ name, tables.isOdd c = true := by
  rw [isValidTag, Bool.and_eq_true] at valid
  rw [isValidTag, valid.1, Bool.true_and] at invalid
  obtain ⟨c, member, outside⟩ := List.all_eq_false.mp invalid
  refine ⟨c, member, ?_⟩
  rw [Tables.isOdd, List.all_eq_true.mp valid.2 c member, Bool.eq_false_iff.mpr outside]
  rfl

theorem valid_tag_subset (name : List Char) (valid : isValidTag tables.golang name = true) :
    isValidTag tables.rust name = true := by
  rw [isValidTag, Bool.and_eq_true] at valid ⊢
  exact ⟨valid.1, List.all_eq_true.mpr fun c member => in_tag_subset tables c (List.all_eq_true.mp valid.2 c member)⟩

section Literals

variable (tables : Tables) (tag : String → Bool) (port : PortTags tables tag)

include port

theorem plus_build_tag_eval (name : List Char) : (plusBuildTag tables.rust name).eval tag = tagHolds tables.golang tag name := by
  rw [plusBuildTag, tagHolds, Expr.eval]
  by_cases known : isValidTag tables.golang name = true
  · rw [if_pos known, if_pos (valid_tag_subset tables name known)]
  · rw [if_neg known]
    by_cases valid : isValidTag tables.rust name = true
    · rw [if_pos valid, port.ignoreUnset]
      exact port.oddUnset name (valid_tag_odd tables name valid (Bool.eq_false_iff.mpr known))
    · rw [if_neg valid]

theorem plus_build_term_eval (literal : List Char) :
    (plusBuildTerm tables.rust literal).eval tag = literalHolds tables.golang tag literal := by
  cases literal with
  | nil => exact plus_build_tag_eval tables tag port []
  | cons c name =>
      by_cases negated : c = '!'
      · subst negated
        rw [plusBuildTerm, literalHolds]
        by_cases ignored : name = [] ∨ name.head? = some '!'
        · have double : ("!!".toList.isPrefixOf ('!' :: name) || decide ('!' :: name = ['!'])) = true := by
            rcases ignored with rfl | head
            · rfl
            · cases name with
              | nil => cases head
              | cons d rest =>
                  cases head
                  rfl
          rw [if_pos ignored]
          refine congrArg (Expr.eval tag) (if_pos double) |>.trans ?_
          rw [Expr.eval]
        · have single : ¬ ("!!".toList.isPrefixOf ('!' :: name) || decide ('!' :: name = ['!'])) = true := by
            cases name with
            | nil => exact absurd (.inl rfl) ignored
            | cons d rest =>
                have other : d ≠ '!' := fun same => ignored (.inr (by rw [same]; rfl))
                simp [List.isPrefixOf, Ne.symm other]
          rw [if_neg ignored]
          refine congrArg (Expr.eval tag) (if_neg single) |>.trans ?_
          have dropped : ('!' :: name).dropPrefix? ['!'] = some name := by simp [List.dropPrefix?]
          rw [dropped]
          simp only [Expr.eval, plus_build_tag_eval tables tag port name]
      · have other : ¬ ("!!".toList.isPrefixOf (c :: name) || decide (c :: name = ['!'])) = true := by
          simp [List.isPrefixOf, negated, Ne.symm negated]
        have dropped : (c :: name).dropPrefix? ['!'] = none := by simp [List.dropPrefix?, negated]
        rw [plusBuildTerm, literalHolds.eq_2 _ _ _ (fun rest same => negated (List.cons.inj same).1)]
        refine congrArg (Expr.eval tag) (if_neg other) |>.trans ?_
        rw [dropped]
        exact plus_build_tag_eval tables tag port (c :: name)

end Literals

theorem fold_join (combine : Expr → Expr → Expr) (operands : List Expr) : ∀ (operators : Nat) (first : Expr),
    operators ≤ maxPlusBuildOperators →
    operands.foldlM (joinOperand combine) (operators, some first) =
      if operators + operands.length > maxPlusBuildOperators then none
      else some (operators + operands.length, some (operands.foldl combine first)) := by
  induction operands with
  | nil =>
      intro operators first small
      rw [if_neg (by rw [List.length_nil]; omega)]
      rfl
  | cons operand rest hypothesis =>
      intro operators first small
      rw [List.foldlM_cons, joinOperand, List.length_cons, List.foldl_cons]
      by_cases large : operators + 1 > maxPlusBuildOperators
      · rw [if_pos large, if_pos (by omega)]
        rfl
      · rw [if_neg large]
        have after := hypothesis (operators + 1) (combine first operand) (by omega)
        rw [Nat.add_assoc, Nat.add_comm 1] at after
        exact after

theorem fold_and_eval (tag : String → Bool) (operands : List Expr) : ∀ first : Expr,
    (operands.foldl Expr.and first).eval tag = (first.eval tag && operands.all (Expr.eval tag)) := by
  induction operands with
  | nil => exact fun first => (Bool.and_true _).symm
  | cons operand rest hypothesis =>
      intro first
      rw [List.foldl_cons, hypothesis, List.all_cons, Expr.eval, Bool.and_assoc]

def clauseTerms (unicode : Unicode) (clause : List Char) : List Expr := (clause.splitOn ',').map (plusBuildTerm unicode)

def termsOf (unicode : Unicode) (clauses : List (List Char)) : List Expr := (clauses.map (clauseTerms unicode)).flatten

variable (unicode : Unicode) (clause : List Char)

theorem clause_terms_cons : ∃ first rest, clauseTerms unicode clause = first :: rest :=
  List.exists_cons_of_ne_nil (by rw [clauseTerms, ne_eq, List.map_eq_nil_iff]; exact List.splitOn_ne_nil ',' clause)

theorem terms_of_cons (rest : List (List Char)) :
    termsOf unicode (clause :: rest) = clauseTerms unicode clause ++ termsOf unicode rest := rfl

variable {operators : Nat} {first : Expr} {rest : List Expr}

theorem clause_first (small : operators ≤ maxPlusBuildOperators) (terms : clauseTerms unicode clause = first :: rest) :
    (clauseTerms unicode clause).foldlM (joinOperand .and) (operators, none) =
      if operators + rest.length > maxPlusBuildOperators then none
      else some (operators + rest.length, some (rest.foldl .and first)) := by
  rw [terms, List.foldlM_cons, joinOperand]
  exact fold_join .and rest operators first small

theorem clause_next (previous : Expr) (small : operators ≤ maxPlusBuildOperators)
    (terms : clauseTerms unicode clause = first :: rest) :
    plusBuildClause unicode (operators, some previous) clause =
      if operators + (clauseTerms unicode clause).length > maxPlusBuildOperators then none
      else some (operators + (clauseTerms unicode clause).length, some (.or previous (rest.foldl .and first))) := by
  have folded := clause_first unicode clause small terms
  rw [clauseTerms] at folded
  rw [plusBuildClause, folded, terms, List.length_cons]
  by_cases large : operators + rest.length > maxPlusBuildOperators
  · rw [if_pos large, if_pos (by omega)]
    rfl
  · rw [if_neg large]
    simp only [Option.bind_eq_bind, Option.bind_some, joinOperand]
    rw [Nat.add_assoc]

theorem clauses_fold (clauses : List (List Char)) : ∀ (operators : Nat) (previous : Expr),
    operators ≤ maxPlusBuildOperators →
    (operators + (termsOf unicode clauses).length > maxPlusBuildOperators →
      clauses.foldlM (plusBuildClause unicode) (operators, some previous) = none) ∧
    (operators + (termsOf unicode clauses).length ≤ maxPlusBuildOperators →
      ∃ expr, clauses.foldlM (plusBuildClause unicode) (operators, some previous) =
          some (operators + (termsOf unicode clauses).length, some expr) ∧
        ∀ tag, expr.eval tag =
          (previous.eval tag || clauses.any fun clause => (clauseTerms unicode clause).all (Expr.eval tag))) := by
  induction clauses with
  | nil =>
      intro operators previous small
      refine ⟨fun large => absurd large (Nat.not_lt.mpr small), fun _ => ⟨previous, rfl, fun tag => ?_⟩⟩
      rw [List.any_nil, Bool.or_false]
  | cons clause clauses hypothesis =>
      intro operators previous small
      obtain ⟨first, rest, terms⟩ := clause_terms_cons unicode clause
      rw [List.foldlM_cons, clause_next unicode clause previous small terms, terms_of_cons, List.length_append]
      by_cases large : operators + (clauseTerms unicode clause).length > maxPlusBuildOperators
      · rw [if_pos large]
        exact ⟨fun _ => rfl, fun few => absurd few (by omega)⟩
      · rw [if_neg large, ← Nat.add_assoc]
        obtain ⟨many, few⟩ := hypothesis (operators + (clauseTerms unicode clause).length)
          (.or previous (rest.foldl .and first)) (by omega)
        refine ⟨many, fun fits => ?_⟩
        obtain ⟨expr, ran, value⟩ := few fits
        refine ⟨expr, ran, fun tag => ?_⟩
        rw [value, Expr.eval, fold_and_eval, List.any_cons, Bool.or_assoc, terms, List.all_cons]

section Line

variable (tables : Tables) (tag : String → Bool) (port : PortTags tables tag)

include port

theorem clause_terms_all (clause : List Char) : (clauseTerms tables.rust clause).all (Expr.eval tag) =
    (clause.splitOn ',').all (literalHolds tables.golang tag) := by
  rw [clauseTerms, List.all_map]
  exact congrArg (List.all (clause.splitOn ',')) (funext fun literal => plus_build_term_eval tables tag port literal)

omit port in
theorem terms_of_length (clauses : List (List Char)) : (termsOf tables.rust clauses).length =
    ((clauses.map fun clause => clause.splitOn ',').flatten).length := by
  induction clauses with
  | nil => rfl
  | cons clause clauses hypothesis =>
      rw [terms_of_cons, List.length_append, hypothesis, clauseTerms, List.length_map, List.map_cons, List.flatten_cons,
        List.length_append]

theorem parse_plus_build_holds (text : List Char) :
    (parsePlusBuild tables.rust text).elim true (Expr.eval tag) = plusBuildHolds tables.golang tag text := by
  have counted : operatorsOf text = (termsOf tables.rust (fields text)).length - 1 := by
    rw [operatorsOf, literalsOf, terms_of_length]
  have holds : ((literalsOf text).any fun clause => clause.all (literalHolds tables.golang tag)) =
      (fields text).any fun clause => (clauseTerms tables.rust clause).all (Expr.eval tag) := by
    rw [literalsOf, List.any_map]
    exact congrArg (List.any (fields text)) (funext fun clause => (clause_terms_all tables tag port clause).symm)
  rw [plusBuildHolds, counted, holds, parsePlusBuild]
  change Option.elim (((fields text).foldlM (plusBuildClause tables.rust) (0, none)).bind fun state =>
    some (state.2.getD (.tag "ignore"))) true (Expr.eval tag) = _
  cases fields text with
  | nil =>
      refine Eq.trans ?_ (Bool.or_false _).symm
      exact port.ignoreUnset
  | cons clause clauses =>
      obtain ⟨first, rest, terms⟩ := clause_terms_cons tables.rust clause
      have folded := clause_first tables.rust clause (Nat.zero_le _) terms
      rw [clauseTerms] at folded
      rw [List.foldlM_cons, plusBuildClause, folded, terms_of_cons, List.length_append, terms, List.length_cons, List.any_cons]
      by_cases large : 0 + rest.length > maxPlusBuildOperators
      · rw [if_pos large, decide_eq_true (by omega), Bool.true_or]
        rfl
      · rw [if_neg large]
        obtain ⟨many, few⟩ := clauses_fold tables.rust clauses (0 + rest.length) (rest.foldl .and first) (by omega)
        simp only [Option.bind_eq_bind, Option.bind_some, joinOperand]
        by_cases all_ : 0 + rest.length + (termsOf tables.rust clauses).length > maxPlusBuildOperators
        · rw [many all_, decide_eq_true (by omega), Bool.true_or]
          rfl
        · obtain ⟨expr, ran, value⟩ := few (by omega)
          rw [ran, decide_eq_false (by omega), Bool.false_or]
          simp only [Option.bind_some, Option.getD_some, Option.elim_some]
          rw [value, fold_and_eval, terms, List.all_cons]

omit port in
theorem plus_build_line_eq (line : List Char) :
    plusBuildLine tables.rust line = (splitPlusBuild line).bind (parsePlusBuild tables.rust) := by
  rw [plusBuildLine, splitPlusBuild]
  cases line.dropPrefix? "//".toList with
  | none => rfl
  | some comment =>
      simp only [Option.bind_eq_bind, Option.bind_some]
      cases dropped : (trim comment).dropPrefix? "+build".toList with
      | none => rfl
      | some rest =>
          simp only [Option.bind_some]
          rw [ends_word_eq comment _ rest dropped]
          by_cases empty : rest = []
          · subst empty
            rfl
          · have bound := trim_length rest
            rw [beq_eq_false_iff_ne.mpr empty, Bool.false_or, if_neg empty]
            by_cases same : (trim rest).length = rest.length
            · rw [if_pos same, decide_eq_false (by omega)]
              rfl
            · rw [if_neg same, decide_eq_true (by omega)]
              rfl

theorem plus_build_lines_hold (lines : List (List Char)) :
    (lines.filterMap (plusBuildLine tables.rust)).all (Expr.eval tag) =
      (lines.filterMap splitPlusBuild).all (plusBuildHolds tables.golang tag) := by
  induction lines with
  | nil => rfl
  | cons line lines hypothesis =>
      rw [List.filterMap_cons, List.filterMap_cons, plus_build_line_eq]
      cases splitPlusBuild line with
      | none => exact hypothesis
      | some text =>
          have line_ := parse_plus_build_holds tables tag port text
          rw [Option.bind_some]
          simp only [List.all_cons, ← line_]
          cases parsePlusBuild tables.rust text with
          | none => simpa using hypothesis
          | some expr => simp only [List.all_cons, Option.elim_some, hypothesis]

end Line

end Filefacts.Constraint
