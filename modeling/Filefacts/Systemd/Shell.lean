import Filefacts.Systemd.Items

set_option autoImplicit false

namespace Filefacts.Systemd

open Trimmed (Blank trimStart trimEnd trim)
open Constraint (isWhitespace)

def text (s : String) : Text := s.toList

def splitAnd : Text → List Text
  | '&' :: '&' :: rest => [] :: splitAnd rest
  | [] => [[]]
  | c :: rest =>
      match splitAnd rest with
      | [] => [[c]]
      | piece :: pieces => (c :: piece) :: pieces

def words (piece : Text) : List Text := (piece.splitOnP isWhitespace).filter (· ≠ [])

def byteLen (s : Text) : Nat := (s.map Char.utf8Size).sum

def unsupported : Text := ['$', '`', '(', ')', '|', ';', '\'', '"', '\\', '\n', '\r']

def isAsciiAlphanumeric (c : Char) : Bool := c.isAlphanum

def pathOk (s : Text) : Bool :=
  s.head? == some '/' && s.all (fun c => isAsciiAlphanumeric c || (text "/._-").contains c) &&
    !(s.splitOn '/').any fun part => part == text ".." || part == text "."

def isOneOf (names : List String) (word : Text) : Bool := names.any fun name => text name == word

def executable (stage : List Text) (path : Text) : Bool :=
  stage.head? == some path && stage.tail.all (isOneOf ["&", ">/dev/null", "2>/dev/null", "2>&1"])

def isOutputFlag (word : Text) : Bool := isOneOf ["-o", "--output"] word

def isUrl (word : Text) : Bool := (text "http://").isPrefixOf word || (text "https://").isPrefixOf word

def outputOf : List Text → Option Text
  | flag :: path :: rest => if isOutputFlag flag then some path else outputOf (path :: rest)
  | _ => none

def isCurlOption (arg : Text) : Bool :=
  isUrl arg || isOneOf ["--silent", "--insecure", "--location", "--fail", "--show-error", "2>/dev/null"] arg ||
    (arg.head? == some '-' && decide (1 < arg.length) && arg.tail.all (text "skLfS").contains)

-- The arguments behind the command's name; a flag for the output takes the next one.
def curlOk : List Text → Bool
  | [] => true
  | arg :: rest =>
      if isOutputFlag arg then
        match rest with
        | [] => true
        | _ :: rest => curlOk rest
      else isCurlOption arg && curlOk rest

inductive Flow where
  | download (kind : String) (path url : Text) (hiddenTemporary : Bool) (curlOptions : List Text) (stderrTarget : Option String)
  | copy (source path : Text)
deriving DecidableEq

def isPlainWord (word : Text) : Bool :=
  word == text "2>/dev/null" || (!word.contains '&' && !word.contains '>' && !word.contains '<')

def downloadFlow (first middle last : List Text) : Option Flow := do
  let path ← outputOf first
  let url ← first.find? isUrl
  if first.head?.any (isOneOf ["curl", "/usr/bin/curl"]) && curlOk first.tail && first.countP isOutputFlag == 1 &&
      first.countP isUrl == 1 && pathOk path &&
      (middle.head?.any (isOneOf ["chmod", "/bin/chmod", "/usr/bin/chmod"]) && middle.tail == [text "+x", path]) &&
      executable last path && first.all isPlainWord then
    let hiddenTemporary := ["/tmp/.", "/var/tmp/.", "/dev/shm/."].any fun dir => (text dir).isPrefixOf path
    let kind :=
      if hiddenTemporary && last.getLast? == some (text "&") then "hidden-temporary-download-chmod-background-exec"
      else "download-chmod-exec"
    some (.download kind path url hiddenTemporary (first.filter fun word => word.head? == some '-')
      (if first.contains (text "2>/dev/null") then some "/dev/null" else none))
  else none

def isOperand (word : Text) : Bool := !(word.head? == some '-') && !(text "2>").isPrefixOf word

def isFileArgument (word : Text) : Bool := pathOk word || isOneOf ["-f", "-r", "-fr", "-rf", "--", "2>/dev/null"] word

def copyFlow (first middle last : List Text) : Option Flow :=
  match first.tail.filter isOperand with
  | [source, path] =>
      if first.head?.any (isOneOf ["cp", "/bin/cp", "/usr/bin/cp"]) && first.tail.all isFileArgument && pathOk source && pathOk path &&
          executable middle path && last.head?.any (isOneOf ["rm", "/bin/rm", "/usr/bin/rm"]) && last.tail.all isFileArgument &&
          last.tail.filter isOperand == [path] then
        some (.copy source path)
      else none
  | _ => none

def stageFlows : List (List Text) → List Flow
  | first :: middle :: last :: rest =>
      (downloadFlow first middle last).toList ++ (copyFlow first middle last).toList ++ stageFlows (middle :: last :: rest)
  | _ => []

def literalShellBodyFlows (body : Text) : List Flow :=
  if 64 * 1024 < byteLen body then []
  else if body.any unsupported.contains then []
  else
    let stages := (splitAnd body).map words
    if 64 < stages.length then [] else stageFlows stages

def shells : List String := ["sh", "bash", "/bin/sh", "/bin/bash", "/usr/bin/sh", "/usr/bin/bash"]

def rawBody (command shell : Text) : Option Text := do
  let rest ← (trim isWhitespace command).dropPrefix? shell
  let body ← (trimStart isWhitespace rest).dropPrefix? (text "-c")
  some (trim isWhitespace body)

def literalShellFlows (command : Text) : List Flow :=
  match splitSystemdItems command with
  | [shell, flag, body] =>
      if !isOneOf shells shell || flag != text "-c" then []
      else if rawBody command shell ≠ some ('\'' :: (body ++ ['\''])) ∧ rawBody command shell ≠ some ('"' :: (body ++ ['"'])) then []
      else literalShellBodyFlows body
  | _ => []

-- A command as it is written: the shell, its flag, and the body between a pair of quotes, with white space around them.
def Verbatim (command shell body : Text) : Prop :=
  ∃ quote lead gap inner tail, IsQuote quote ∧ Blank isWhitespace lead ∧ Blank isWhitespace gap ∧ Blank isWhitespace inner ∧
    Blank isWhitespace tail ∧
    command = lead ++ (shell ++ (gap ++ (text "-c" ++ (inner ++ (quote :: (body ++ [quote]) ++ tail)))))

theorem drop_prefix_split (whole front rest : Text) (dropped : whole.dropPrefix? front = some rest) : whole = front ++ rest := by
  obtain ⟨same, split, equal⟩ := List.dropPrefix?_eq_some_iff.mp dropped
  rw [split, eq_of_beq equal]

theorem raw_body_verbatim (command shell body : Text) (quote : Char) (isQuote : IsQuote quote)
    (raw : rawBody command shell = some (quote :: (body ++ [quote]))) : Verbatim command shell body := by
  obtain ⟨rest, behindShell, raw⟩ := Option.bind_eq_some_iff.mp raw
  obtain ⟨behind, behindFlag, raw⟩ := Option.bind_eq_some_iff.mp raw
  have trimmed : trim isWhitespace behind = quote :: (body ++ [quote]) := Option.some.inj raw
  have shellSplit := drop_prefix_split _ _ _ behindShell
  have flagSplit := drop_prefix_split _ _ _ behindFlag
  obtain ⟨lead, last, leading, lasting, commandSplit⟩ := @Trimmed.trim_split _ isWhitespace command
  obtain ⟨gap, gapping, restSplit⟩ := @Trimmed.trim_start_split _ isWhitespace rest
  obtain ⟨inner, tail, innermost, tailing, behindSplit⟩ := @Trimmed.trim_split _ isWhitespace behind
  refine ⟨quote, lead, gap, inner, tail ++ last, isQuote, leading, gapping, innermost,
    (Trimmed.blank_append tail last).mpr ⟨tailing, lasting⟩, ?_⟩
  rw [trimmed] at behindSplit
  rw [commandSplit, shellSplit, restSplit, flagSplit, behindSplit]
  simp only [List.append_assoc]

theorem literal_shell_flows_verbatim (command : Text) : literalShellFlows command = [] ∨
    ∃ shell body, isOneOf shells shell = true ∧ splitSystemdItems command = [shell, text "-c", body] ∧
      Verbatim command shell body ∧ literalShellFlows command = literalShellBodyFlows body := by
  rw [literalShellFlows]
  split
  · next shell flag body items =>
      by_cases named : (!isOneOf shells shell || flag != text "-c") = true
      · rw [if_pos named]
        exact Or.inl rfl
      · rw [if_neg named]
        rw [Bool.or_eq_true, not_or, Bool.not_eq_true', Bool.not_eq_false, bne_iff_ne, not_not] at named
        obtain ⟨isShell, rfl⟩ := named
        split_ifs with unquoted
        · exact Or.inl rfl
        · refine Or.inr ⟨shell, body, isShell, items, ?_, rfl⟩
          rcases not_and_or.mp unquoted with single | double
          · exact raw_body_verbatim command shell body '\'' (Or.inr rfl) (not_not.mp single)
          · exact raw_body_verbatim command shell body '"' (Or.inl rfl) (not_not.mp double)
  · exact Or.inl rfl

theorem systemd_items_exact (values : List Text) (line : Text) (spelled : Spelled values line) (command : Text) :
    splitSystemdItems line = values ∧
      (literalShellFlows command = [] ∨
        ∃ shell body, isOneOf shells shell = true ∧ splitSystemdItems command = [shell, text "-c", body] ∧
          Verbatim command shell body ∧ literalShellFlows command = literalShellBodyFlows body) :=
  ⟨split_systemd_items_spelled values line spelled, literal_shell_flows_verbatim command⟩

theorem letter_and_empty : Spelled [['a'], []] ['a', ' ', '"', '"'] :=
  .item [] ['a'] ['a'] [' ', '"', '"'] [[]] (List.forall_mem_nil _)
    (.bare ['a'] 'a' [] (by decide) (.literal 'a' [] [] ⟨by decide, by decide⟩ .nothing))
    (fun c head => Or.inl (Option.some.inj head).symm)
    (.item [' '] [] ['"', '"'] [] [] (List.forall_mem_singleton.mpr (Or.inl rfl)) (.quoted '"' [] [] (Or.inl rfl) .nothing)
      (fun c head => nomatch head) (.nothing [] (List.forall_mem_nil _)))

theorem systemd_items_exact_empty : splitSystemdItems ['a', ' ', '"', '"'] = [['a'], []] :=
  (systemd_items_exact [['a'], []] ['a', ' ', '"', '"'] letter_and_empty []).1

end Filefacts.Systemd
