import Filefacts.Source.CommentRuns

set_option autoImplicit false

namespace Filefacts.PythonComments

open Output (Text)

def byteLen (text : Text) : Nat := (text.map Char.utf8Size).sum

-- A syntax tree, its nodes by the characters they span.
mutual
inductive Node where
  | node (comment : Bool) (first stop : Nat) (children : Nodes)
inductive Nodes where
  | nil
  | cons (node : Node) (rest : Nodes)
end

-- The offset and the text of each line, its indentation left out.
def reportLines (offset : Nat) : List Text → List (Nat × Text)
  | [] => []
  | line :: rest =>
      (offset + byteLen line - byteLen (trimIndent line), trimIndent line) :: reportLines (offset + byteLen line + 1) rest

def reportNode (source : Text) (node : Nat × Nat) : List (Nat × Text) :=
  let text := (source.drop node.1).take (node.2 - node.1)
  let start := byteLen (source.take node.1)
  if text.head? = some '#' ∧ '\n' ∈ text then reportLines start (text.splitOn '\n') else [(start, text)]

structure Comments where
  found : List (Nat × Text)
  inside : Option Nat
deriving DecidableEq, Repr

def Comments.enter (source : Text) (depth : Nat) (comment : Bool) (first stop : Nat) (comments : Comments) : Comments :=
  if comments.inside.isNone ∧ comment then
    { found := comments.found ++ reportNode source (first, stop), inside := some depth }
  else comments

def Comments.exit (depth : Nat) (comments : Comments) : Comments :=
  if comments.inside = some depth then { comments with inside := none } else comments

mutual
def Node.visit (source : Text) (depth : Nat) : Node → Comments → Comments
  | .node comment first stop children, comments =>
      (children.visit source (depth + 1) (comments.enter source depth comment first stop)).exit depth
def Nodes.visit (source : Text) (depth : Nat) : Nodes → Comments → Comments
  | .nil, comments => comments
  | .cons node rest, comments => rest.visit source depth (node.visit source depth comments)
end

def commentsOf (source : Text) (tree : Node) : List (Nat × Text) := (tree.visit source 0 { found := [], inside := none }).found

-- The comment nodes that lie in no other.
mutual
def Node.outermost : Node → List (Nat × Nat)
  | .node comment first stop children => if comment then [(first, stop)] else children.outermost
def Nodes.outermost : Nodes → List (Nat × Nat)
  | .nil => []
  | .cons node rest => node.outermost ++ rest.outermost
end

def lineNodes (start : Nat) : List Text → List (Nat × Nat)
  | [] => []
  | line :: rest =>
      (if '#' ∈ line then [(start + line.idxOf '#', start + line.length)] else []) ++ lineNodes (start + line.length + 1) rest

def commentNodes (text : Text) : List (Nat × Nat) := lineNodes 0 (text.splitOn '\n')

mutual
theorem node_visit_inside (source : Text) (depth outer : Nat) (node : Node) (found : List (Nat × Text)) (deeper : outer < depth) :
    node.visit source depth { found, inside := some outer } = { found, inside := some outer } := by
  cases node with
  | node comment first stop children =>
      have entered : Comments.enter source depth comment first stop { found, inside := some outer } = { found, inside := some outer } :=
        if_neg fun both => by cases both.1
      have apart : (some outer : Option Nat) ≠ some depth := fun same => by
        rw [Option.some.inj same] at deeper
        exact Nat.lt_irrefl depth deeper
      rw [Node.visit, entered, nodes_visit_inside source (depth + 1) outer children found (Nat.lt_succ_of_lt deeper)]
      exact if_neg apart
theorem nodes_visit_inside (source : Text) (depth outer : Nat) (nodes : Nodes) (found : List (Nat × Text)) (deeper : outer < depth) :
    nodes.visit source depth { found, inside := some outer } = { found, inside := some outer } := by
  cases nodes with
  | nil => rfl
  | cons node rest =>
      rw [Nodes.visit, node_visit_inside source depth outer node found deeper, nodes_visit_inside source depth outer rest found deeper]
end

mutual
theorem node_visit (source : Text) (depth : Nat) (node : Node) (found : List (Nat × Text)) :
    node.visit source depth { found, inside := none } =
      { found := found ++ node.outermost.flatMap (reportNode source), inside := none } := by
  cases node with
  | node comment first stop children =>
      rw [Node.visit, Node.outermost]
      cases comment with
      | true =>
          have entered : Comments.enter source depth true first stop { found, inside := none } =
              { found := found ++ reportNode source (first, stop), inside := some depth } := if_pos ⟨rfl, rfl⟩
          rw [entered, nodes_visit_inside source (depth + 1) depth children _ (Nat.lt_succ_self depth), if_pos rfl,
            List.flatMap_singleton]
          exact if_pos rfl
      | false =>
          have entered : Comments.enter source depth false first stop { found, inside := none } = { found, inside := none } :=
            if_neg fun both => Bool.false_ne_true both.2
          rw [entered, nodes_visit, if_neg Bool.false_ne_true]
          exact if_neg fun same => by cases same
theorem nodes_visit (source : Text) (depth : Nat) (nodes : Nodes) (found : List (Nat × Text)) :
    nodes.visit source depth { found, inside := none } =
      { found := found ++ nodes.outermost.flatMap (reportNode source), inside := none } := by
  cases nodes with
  | nil => rw [Nodes.visit, Nodes.outermost, List.flatMap_nil, List.append_nil]
  | cons node rest =>
      rw [Nodes.visit, node_visit, nodes_visit, Nodes.outermost, List.flatMap_append,
        List.append_assoc]
end

theorem comments_of_outermost (source : Text) (tree : Node) : commentsOf source tree = tree.outermost.flatMap (reportNode source) := by
  rw [commentsOf, node_visit, List.nil_append]

variable (front back : Text) (lines : List Text) (text : Text)

theorem byte_len_append : byteLen (front ++ back) = byteLen front + byteLen back := by
  rw [byteLen, byteLen, byteLen, List.map_append, List.sum_append]

theorem line_nodes_append (start : Nat) (front back : List Text) :
    lineNodes start (front ++ back) = lineNodes start front ++ lineNodes (start + (terminated front).length) back := by
  induction front generalizing start with
  | nil => rfl
  | cons line front ih =>
      rw [List.cons_append, lineNodes, lineNodes, ih, List.append_assoc, terminated_cons, List.length_append, List.length_cons]
      congr 3
      omega

theorem full_comment_node {indent : Text} (body : Text) (blank : ∀ c ∈ indent, isIndent c = true) :
    '#' ∈ indent ++ '#' :: body ∧ (indent ++ '#' :: body).idxOf '#' = indent.length ∧
      trimIndent (indent ++ '#' :: body) = '#' :: body := by
  have apart : '#' ∉ indent := fun member => absurd (blank '#' member) (by decide)
  refine ⟨List.mem_append_right _ List.mem_cons_self, ?_, ?_⟩
  · rw [List.idxOf_append_of_notMem apart, List.idxOf_cons_self, Nat.add_zero]
  · have stops : ('#' :: body).dropWhile isIndent = '#' :: body := rfl
    rw [trimIndent, List.dropWhile_append_of_pos blank, stops]

theorem report_line (indent body back : Text) (whole : '\n' ∉ indent ++ '#' :: body) :
    reportNode (front ++ ((indent ++ '#' :: body) ++ back)) (front.length + indent.length, front.length + (indent ++ '#' :: body).length) =
      [(byteLen front + byteLen indent, '#' :: body)] := by
  have cut : ((front ++ ((indent ++ '#' :: body) ++ back)).drop (front.length + indent.length)).take
      (front.length + (indent ++ '#' :: body).length - (front.length + indent.length)) = '#' :: body := by
    rw [← List.drop_drop, List.drop_left, List.append_assoc, List.drop_left, List.length_append, Nat.add_sub_add_left,
      Nat.add_sub_cancel_left, List.take_left]
  have before : (front ++ ((indent ++ '#' :: body) ++ back)).take (front.length + indent.length) = front ++ indent := by
    rw [List.append_assoc, ← List.append_assoc front, ← List.length_append, List.take_left]
  have single : ¬(('#' :: body).head? = some '#' ∧ '\n' ∈ '#' :: body) := fun both => whole (List.mem_append_right _ both.2)
  rw [reportNode]
  simp only [cut, before]
  rw [if_neg single, byte_len_append]

theorem report_lines (whole : ∀ line ∈ lines, '\n' ∉ line) (comments : ∀ line ∈ lines, FullComment line) :
    (lineNodes front.length lines).flatMap (reportNode (front ++ (terminated lines ++ back))) = reportLines (byteLen front) lines := by
  induction lines generalizing front with
  | nil => rfl
  | cons line lines ih =>
      obtain ⟨indent, body, rfl, blank⟩ := comments line List.mem_cons_self
      obtain ⟨member, index, trimmed⟩ := full_comment_node body blank
      have behind := ih (front ++ ((indent ++ '#' :: body) ++ ['\n'])) (fun other inside => whole other (List.mem_cons_of_mem _ inside))
        (fun other inside => comments other (List.mem_cons_of_mem _ inside))
      have split : front ++ (terminated ((indent ++ '#' :: body) :: lines) ++ back) =
          front ++ ((indent ++ '#' :: body) ++ ['\n']) ++ (terminated lines ++ back) := by
        rw [terminated_cons]
        simp only [List.append_assoc, List.cons_append, List.nil_append]
      have head := report_line front indent body ('\n' :: (terminated lines ++ back)) (whole _ List.mem_cons_self)
      have measured : byteLen (front ++ ((indent ++ '#' :: body) ++ ['\n'])) = byteLen front + byteLen (indent ++ '#' :: body) + 1 := by
        rw [byte_len_append, byte_len_append, Nat.add_assoc]
        rfl
      have extended : (front ++ ((indent ++ '#' :: body) ++ ['\n'])).length = front.length + (indent ++ '#' :: body).length + 1 := by
        rw [List.length_append, List.length_append, List.length_singleton, Nat.add_assoc]
      have first : reportNode (front ++ (terminated ((indent ++ '#' :: body) :: lines) ++ back))
          (front.length + indent.length, front.length + (indent ++ '#' :: body).length) =
          [(byteLen front + byteLen indent, '#' :: body)] := by
        rw [terminated_cons, List.append_assoc (indent ++ '#' :: body), List.cons_append]
        exact head
      have second : (lineNodes (front.length + (indent ++ '#' :: body).length + 1) lines).flatMap
          (reportNode (front ++ (terminated ((indent ++ '#' :: body) :: lines) ++ back))) =
          reportLines (byteLen front + byteLen (indent ++ '#' :: body) + 1) lines := by
        rw [split, ← measured, ← behind, extended]
      rw [lineNodes, if_pos member, index, List.flatMap_append, List.flatMap_singleton, reportLines, trimmed, first, second,
        byte_len_append, ← Nat.add_assoc, Nat.add_sub_cancel]
      rfl

theorem intercalate_blank_whole (whole : ∀ line ∈ lines, '\n' ∉ line) : '\n' ∉ [' '].intercalate lines := by
  rw [← blank_intercalate lines whole]
  intro member
  obtain ⟨c, -, same⟩ := List.mem_map.mp member
  unfold blank at same
  split at same
  · cases same
  · next apart => exact apart same

theorem report_lines_indent (offset : Nat) (indent body : Text) (rest : List Text) (blank : ∀ c ∈ indent, isIndent c = true) :
    reportLines (offset + byteLen indent) (('#' :: body) :: rest) = reportLines offset ((indent ++ '#' :: body) :: rest) := by
  have bare := (full_comment_node body (List.forall_mem_nil _)).2.2
  rw [List.nil_append] at bare
  rw [reportLines, reportLines, bare, (full_comment_node body blank).2.2, byte_len_append, Nat.add_assoc offset]

theorem two_lines (run : CommentRun lines) : ∃ line next others, lines = line :: next :: others := by
  have long : 2 ≤ lines.length := Nat.le_trans (by decide) run.long
  cases lines with
  | nil => cases long
  | cons line rest =>
      cases rest with
      | nil => exact absurd long (Nat.not_succ_le_self 1)
      | cons next others => exact ⟨line, next, others, rfl⟩

theorem report_joined (run : CommentRun lines) :
    (lineNodes front.length [[' '].intercalate lines]).flatMap (reportNode (front ++ (terminated lines ++ back))) =
      reportLines (byteLen front) lines := by
  have whole := run.whole
  have measured := congrArg List.length (blank_intercalate lines whole)
  obtain ⟨line, next, others, rfl⟩ := two_lines lines run
  obtain ⟨indent, body, rfl, blank⟩ := run.comments _ List.mem_cons_self
  have spelled : [' '].intercalate ((indent ++ '#' :: body) :: next :: others) =
      indent ++ '#' :: (body ++ ' ' :: [' '].intercalate (next :: others)) := by
    rw [List.intercalate_cons_cons]
    simp only [List.append_assoc, List.cons_append, List.nil_append]
  have held : ['\n'].intercalate ((indent ++ '#' :: body) :: next :: others) =
      indent ++ ['\n'].intercalate (('#' :: body) :: next :: others) := by
    rw [List.intercalate_cons_cons, List.intercalate_cons_cons, List.append_assoc, List.append_assoc, List.append_assoc]
  have source : front ++ (terminated ((indent ++ '#' :: body) :: next :: others) ++ back) =
      (front ++ indent) ++ (['\n'].intercalate (('#' :: body) :: next :: others) ++ '\n' :: back) := by
    rw [terminated_intercalate _ (List.cons_ne_nil _ _), held]
    simp only [List.append_assoc, List.cons_append, List.nil_append]
  obtain ⟨member, index, -⟩ := full_comment_node (body ++ ' ' :: [' '].intercalate (next :: others)) blank
  rw [← spelled] at member index
  rw [List.length_map, held, List.length_append] at measured
  have lines : ∀ line ∈ ('#' :: body) :: next :: others, '\n' ∉ line := by
    refine List.forall_mem_cons.mpr ⟨fun inside => ?_, fun line inside => whole line (List.mem_cons_of_mem _ inside)⟩
    exact whole _ List.mem_cons_self (List.mem_append_right indent inside)
  have hash : (['\n'].intercalate (('#' :: body) :: next :: others)).head? = some '#' := by
    rw [List.intercalate_cons_cons]
    rfl
  have feed : '\n' ∈ ['\n'].intercalate (('#' :: body) :: next :: others) := by
    rw [List.intercalate_cons_cons]
    exact List.mem_append_left _ (List.mem_append_right _ (List.mem_singleton_self _))
  have lengths : front.length + indent.length = (front ++ indent).length := List.length_append.symm
  have cut : (((front ++ indent) ++ (['\n'].intercalate (('#' :: body) :: next :: others) ++ '\n' :: back)).drop
      (front.length + indent.length)).take
        (front.length + (indent.length + (['\n'].intercalate (('#' :: body) :: next :: others)).length) -
          (front.length + indent.length)) = ['\n'].intercalate (('#' :: body) :: next :: others) := by
    rw [← Nat.add_assoc, Nat.add_sub_cancel_left, lengths, List.drop_left, List.take_left]
  have before : ((front ++ indent) ++ (['\n'].intercalate (('#' :: body) :: next :: others) ++ '\n' :: back)).take
      (front.length + indent.length) = front ++ indent := by
    rw [lengths, List.take_left]
  have reported : reportNode ((front ++ indent) ++ (['\n'].intercalate (('#' :: body) :: next :: others) ++ '\n' :: back))
      (front.length + indent.length,
        front.length + (indent.length + (['\n'].intercalate (('#' :: body) :: next :: others)).length)) =
      reportLines (byteLen front) ((indent ++ '#' :: body) :: next :: others) := by
    rw [reportNode]
    simp only [cut, before]
    rw [if_pos ⟨hash, feed⟩, List.splitOn_intercalate '\n' lines (List.cons_ne_nil _ _), byte_len_append,
      report_lines_indent _ _ _ _ blank]
  rw [lineNodes, if_pos member, index, List.flatMap_append, List.flatMap_singleton, source, ← measured, reported]
  exact List.append_nil _

theorem split_terminated (rest : Text) (whole : ∀ line ∈ lines, '\n' ∉ line) :
    (terminated lines ++ rest).splitOn '\n' = lines ++ rest.splitOn '\n' := by
  induction lines with
  | nil => rfl
  | cons line lines ih =>
      rw [terminated_cons, List.append_assoc, List.cons_append, List.splitOn_append_cons_self_of_not_mem (whole line List.mem_cons_self),
        ih fun other member => whole other (List.mem_cons_of_mem line member), List.cons_append]

theorem coalesced_comments (text' : Text) (coalesced : Coalesced text text') (front : Text) :
    (lineNodes front.length (text'.splitOn '\n')).flatMap (reportNode (front ++ text)) =
      (lineNodes front.length (text.splitOn '\n')).flatMap (reportNode (front ++ text)) := by
  induction coalesced generalizing front with
  | tail text whole => rfl
  | line line rest rest' whole after ih =>
      have extended : (front ++ (line ++ ['\n'])).length = front.length + line.length + 1 := by
        rw [List.length_append, List.length_append, List.length_singleton, Nat.add_assoc]
      have behind := ih (front ++ (line ++ ['\n']))
      have split : front ++ (line ++ ['\n']) ++ rest = front ++ (line ++ '\n' :: rest) := by
        simp only [List.append_assoc, List.cons_append, List.nil_append]
      rw [extended, split] at behind
      rw [List.splitOn_append_cons_self_of_not_mem whole, List.splitOn_append_cons_self_of_not_mem whole, lineNodes, lineNodes,
        List.flatMap_append, List.flatMap_append, behind]
  | run lines rest rest' run after ih =>
      have behind := ih (front ++ terminated lines)
      have size : (terminated [[' '].intercalate lines]).length = (terminated lines).length := by
        rw [← joined_length lines run, terminated_singleton, joined]
      have together : (joined lines ++ rest').splitOn '\n' = [[' '].intercalate lines] ++ rest'.splitOn '\n' := by
        rw [joined, List.append_assoc]
        exact List.splitOn_append_cons_self_of_not_mem (intercalate_blank_whole lines run.whole) rest'
      rw [List.length_append, List.append_assoc] at behind
      rw [together, split_terminated lines rest run.whole, line_nodes_append, line_nodes_append, size, List.flatMap_append,
        List.flatMap_append, behind, report_joined front rest lines run, report_lines front rest lines run.whole run.comments]

-- A position of a text where a line ends that has a line of its own run behind.
def BetweenComments (text : Text) (i : Nat) : Prop :=
  ∃ front before after back, text = front ++ (terminated (before ++ after) ++ back) ∧ (front = [] ∨ front.getLast? = some '\n') ∧
    CommentRun (before ++ after) ∧ before ≠ [] ∧ after ≠ [] ∧ i + 1 = front.length + (terminated before).length

-- A character kept, or a line feed between two comments of one run made blank.
def KeptOrBlanked (text text' : Text) (i : Nat) : Prop :=
  text'[i]? = text[i]? ∨ (text[i]? = some '\n' ∧ text'[i]? = some ' ' ∧ BetweenComments text i)

theorem joined_cons (line next : Text) (others : List Text) :
    joined (line :: next :: others) = line ++ ' ' :: joined (next :: others) := by
  rw [joined, joined, List.intercalate_cons_cons]
  simp only [List.append_assoc, List.cons_append, List.nil_append]

theorem after_front (one other : Text) (a b : Char) (i : Nat) :
    (i < front.length ∧ (front ++ a :: one)[i]? = (front ++ b :: other)[i]?) ∨
      (i = front.length ∧ (front ++ a :: one)[i]? = some a ∧ (front ++ b :: other)[i]? = some b) ∨
      ∃ j, i = front.length + 1 + j ∧ (front ++ a :: one)[i]? = one[j]? ∧ (front ++ b :: other)[i]? = other[j]? := by
  rcases Nat.lt_trichotomy i front.length with before | same | after
  · exact Or.inl ⟨before, by rw [List.getElem?_append_left before, List.getElem?_append_left before]⟩
  · refine Or.inr (Or.inl ⟨same, ?_, ?_⟩)
    · rw [same, List.getElem?_append_right (Nat.le_refl _), Nat.sub_self, List.getElem?_cons_zero]
    · rw [same, List.getElem?_append_right (Nat.le_refl _), Nat.sub_self, List.getElem?_cons_zero]
  · obtain ⟨j, reached⟩ := Nat.exists_eq_add_of_le (Nat.succ_le_of_lt after)
    have beyond : i - front.length = j + 1 := by omega
    refine Or.inr (Or.inr ⟨j, reached, ?_, ?_⟩)
    · rw [List.getElem?_append_right (Nat.le_of_lt after), beyond, List.getElem?_cons_succ]
    · rw [List.getElem?_append_right (Nat.le_of_lt after), beyond, List.getElem?_cons_succ]

theorem joined_at (some_ : lines ≠ []) (i : Nat) : (joined lines)[i]? = (terminated lines)[i]? ∨
      ((terminated lines)[i]? = some '\n' ∧ (joined lines)[i]? = some ' ' ∧
        ∃ before after, lines = before ++ after ∧ before ≠ [] ∧ after ≠ [] ∧ i + 1 = (terminated before).length) := by
  induction lines generalizing i with
  | nil => exact absurd rfl some_
  | cons line lines ih =>
      cases lines with
      | nil => exact Or.inl (by rw [joined, List.intercalate_singleton, terminated_singleton])
      | cons next others =>
          rw [joined_cons, terminated_cons]
          rcases after_front line (joined (next :: others)) (terminated (next :: others)) ' ' '\n' i with
            ⟨-, same⟩ | ⟨here, left, right⟩ | ⟨j, beyond, left, right⟩
          · exact Or.inl same
          · refine Or.inr ⟨right, left, [line], next :: others, rfl, List.cons_ne_nil _ _, List.cons_ne_nil _ _, ?_⟩
            rw [terminated_singleton, List.length_append, List.length_singleton, here]
          · rw [left, right]
            rcases ih (List.cons_ne_nil _ _) j with same | ⟨feed, blank, before, after, split, some_, behind, size⟩
            · exact Or.inl same
            · refine Or.inr ⟨feed, blank, line :: before, after, by rw [split, List.cons_append], List.cons_ne_nil _ _, behind, ?_⟩
              rw [terminated_cons, List.length_append, List.length_cons]
              omega

theorem between_comments_behind (ends : front.getLast? = some '\n') (j : Nat) (between : BetweenComments text j) :
    BetweenComments (front ++ text) (front.length + j) := by
  obtain ⟨front', before, after, back, rfl, starts, run, some_, behind, size⟩ := between
  refine ⟨front ++ front', before, after, back, (List.append_assoc _ _ _).symm, Or.inr ?_, run, some_, behind, ?_⟩
  · rcases starts with rfl | ended
    · rw [List.append_nil, ends]
    · rw [List.getLast?_append, ended, Option.some_or]
  · rw [List.length_append]
    omega

theorem kept_or_blanked_behind {front' text text' : Text} (length : front'.length = front.length)
    (ends : front.getLast? = some '\n') (here : ∀ i < front.length, KeptOrBlanked (front ++ text) (front' ++ text') i)
    (behind : ∀ i, KeptOrBlanked text text' i) : ∀ i, KeptOrBlanked (front ++ text) (front' ++ text') i := by
  intro i
  by_cases before : i < front.length
  · exact here i before
  · obtain ⟨j, rfl⟩ := Nat.exists_eq_add_of_le (Nat.le_of_not_lt before)
    have left : (front ++ text)[front.length + j]? = text[j]? := by
      rw [List.getElem?_append_right (Nat.le_add_right _ _), Nat.add_sub_cancel_left]
    have right : (front' ++ text')[front.length + j]? = text'[j]? := by
      rw [← length, List.getElem?_append_right (Nat.le_add_right _ _), Nat.add_sub_cancel_left]
    rw [KeptOrBlanked, left, right]
    rcases behind j with kept | ⟨feed, blank, between⟩
    · exact Or.inl kept
    · exact Or.inr ⟨feed, blank, between_comments_behind front text ends j between⟩

theorem byte_len_joined (some_ : lines ≠ []) : byteLen (joined lines) = byteLen (terminated lines) := by
  induction lines with
  | nil => exact absurd rfl some_
  | cons line lines ih =>
      cases lines with
      | nil => rw [joined, List.intercalate_singleton, terminated_singleton]
      | cons next others =>
          have behind := ih (List.cons_ne_nil _ _)
          rw [joined_cons, terminated_cons, byte_len_append, byte_len_append]
          rw [byteLen, byteLen] at behind
          rw [byteLen, byteLen, byteLen, List.map_cons, List.map_cons, List.sum_cons, List.sum_cons, behind]
          rfl

theorem coalesced_at (text' : Text) (coalesced : Coalesced text text') :
    text'.length = text.length ∧ byteLen text' = byteLen text ∧ ∀ i, KeptOrBlanked text text' i := by
  induction coalesced with
  | tail text whole => exact ⟨rfl, rfl, fun i => Or.inl rfl⟩
  | line line rest rest' whole after ih =>
      obtain ⟨length, bytes, behind⟩ := ih
      have split : ∀ tail : Text, line ++ '\n' :: tail = (line ++ ['\n']) ++ tail := fun tail => by
        rw [List.append_assoc, List.singleton_append]
      rw [split rest, split rest']
      refine ⟨?_, ?_, ?_⟩
      · simp only [List.length_append, length]
      · rw [byte_len_append, byte_len_append (line ++ ['\n']) rest, bytes]
      · refine kept_or_blanked_behind (line ++ ['\n']) rfl List.getLast?_concat (fun i inside => Or.inl ?_) behind
        rw [List.getElem?_append_left inside, List.getElem?_append_left inside]
  | run lines rest rest' run after ih =>
      obtain ⟨length, bytes, behind⟩ := ih
      obtain ⟨line, next, others, split⟩ := two_lines lines run
      have some_ : lines ≠ [] := by
        rw [split]
        exact List.cons_ne_nil _ _
      have size := joined_length lines run
      have ends : (terminated lines).getLast? = some '\n' := by
        rw [terminated_intercalate lines some_, List.getLast?_concat]
      refine ⟨?_, ?_, ?_⟩
      · rw [List.length_append, List.length_append, size, length]
      · rw [byte_len_append, byte_len_append, byte_len_joined lines some_, bytes]
      · refine kept_or_blanked_behind (terminated lines) size ends (fun i inside => ?_) behind
        have inside' : i < (joined lines).length := size ▸ inside
        rw [KeptOrBlanked, List.getElem?_append_left inside, List.getElem?_append_left inside']
        rcases joined_at lines some_ i with kept | ⟨feed, blank, before, after, rfl, first, second, place⟩
        · exact Or.inl kept
        · exact Or.inr ⟨feed, blank, [], before, after, rest, rfl, Or.inl rfl, run, first, second, by rw [place, List.length_nil, Nat.zero_add]⟩

-- Long runs of comments are put in one line each, which changes nothing but
-- line feeds between comments of one run, and the comments reported of what is
-- parsed are those of the source's own lines.
theorem python_comments_reported (parse : Text → Node) (source : Text)
    (grammar : (parse (parserSource source)).outermost = commentNodes (parserSource source)) :
    (∀ text, normalizePythonCommentRuns source = some text →
        text.length = source.length ∧ byteLen text = byteLen source ∧ ∀ i, KeptOrBlanked source text i) ∧
      commentsOf source (parse (parserSource source)) = (commentNodes source).flatMap (reportNode source) := by
  have coalesced := parser_source_coalesced source
  refine ⟨fun text normal => ?_, ?_⟩
  · rw [parserSource, normal, Option.getD_some] at coalesced
    exact coalesced_at source text coalesced
  · rw [comments_of_outermost, grammar]
    exact coalesced_comments source _ coalesced []

def commentLines : Text := terminated (List.replicate 32 ['#'])

def oneComment (text : Text) : Node := .node false 0 text.length (.cons (.node true 0 (text.length - 1) .nil) .nil)

theorem python_comments_reported_run :
    commentsOf commentLines (oneComment (parserSource commentLines)) = (commentNodes commentLines).flatMap (reportNode commentLines) :=
  (python_comments_reported oneComment commentLines (by decide +kernel)).2

end Filefacts.PythonComments
