import Filefacts.Pdf.Filters
import Mathlib.Algebra.Order.BigOperators.Group.List
import Mathlib.Data.List.Forall2

set_option autoImplicit false

namespace Filefacts.Pdf

variable (zlibDecoder : List UInt8 → Reader)

-- Inflating a text that is cut off keeps what was inflated before the cut.
def Streams : Prop := ∀ front more, (zlibDecoder front).bytes <+: (zlibDecoder (front ++ more)).bytes

def Unlimited (raw : List UInt8) (filters : List String) (whole : List UInt8) : Prop :=
  ∃ enough, ∀ cap stages, enough ≤ cap → enough ≤ stages.left → (decodeStream zlibDecoder raw filters cap stages).1 = .ok whole

-- What a stage decodes its text to with no cap, as a viewer does.
def stageDecoded (filter : String) (data : List UInt8) : List UInt8 :=
  if isFlate filter then (zlibDecoder data).bytes
  else if isAsciiHex filter then hexDecoded data none
  else if isAscii85 filter then decoded (afterOpener data) []
  else []

def viewed : List String → List UInt8 → List (List UInt8)
  | [], _ => []
  | filter :: rest, data => stageDecoded zlibDecoder filter data :: viewed rest (stageDecoded zlibDecoder filter data)

def outputs (cap : Nat) : List String → List UInt8 → Nat → List (List UInt8)
  | [], _, _ => []
  | filter :: rest, data, left =>
      match decodeStage zlibDecoder filter data (stageCap cap rest left) with
      | .error _ => []
      | .ok next => next :: outputs cap rest next (left - next.length)

def groupsKept (cap : Nat) : List String → List UInt8 → List UInt8 → Nat → Bool
  | [], _, _, _ => true
  | filter :: rest, data, whole, left =>
      (!isAscii85 filter || cutKept (stageCap cap rest left) data whole) &&
        match decodeStage zlibDecoder filter data (stageCap cap rest left) with
        | .error _ => true
        | .ok next => groupsKept cap rest next (stageDecoded zlibDecoder filter whole) (left - next.length)

def spent (texts : List (List UInt8)) : Nat := (texts.map List.length).sum

variable (filter : String) (cap : Nat) (filters : List String)

variable {data next : List UInt8} {room : Nat}

theorem decode_stage_take
    (decodes : decodeStage zlibDecoder filter data room = .ok next) : next = (stageDecoded zlibDecoder filter data).take room := by
  unfold decodeStage at decodes
  unfold stageDecoded
  split at decodes
  · next flate =>
      rw [if_pos flate]
      split at decodes
      · next kept read =>
          obtain rfl := Except.ok.inj decodes
          exact inflate_capped_take _ room _ kept read
      · cases decodes
  · next notFlate =>
      rw [if_neg notFlate]
      split at decodes
      · next hex =>
          obtain rfl := Except.ok.inj decodes
          rw [if_pos hex, decode_hex_take]
      · next notHex =>
          rw [if_neg notHex]
          split at decodes
          · next base =>
              obtain rfl := Except.ok.inj decodes
              rw [if_pos base, ascii85_decode_take]
          · cases decodes

theorem ascii85_stage (base : isAscii85 filter = true) : isFlate filter = false ∧ isAsciiHex filter = false := by
  simp only [isAscii85, Bool.or_eq_true, decide_eq_true_eq] at base
  rcases base with rfl | rfl
  · exact ⟨by decide, by decide⟩
  · exact ⟨by decide, by decide⟩

theorem stage_begins (streams : Streams zlibDecoder) {filter : String} (more : List UInt8)
    (decodes : decodeStage zlibDecoder filter data room = .ok next) :
    next <+: stageDecoded zlibDecoder filter (data ++ more) ↔ (!isAscii85 filter || cutKept room data (data ++ more)) = true := by
  have taken := decode_stage_take zlibDecoder filter decodes
  cases base : isAscii85 filter with
  | true =>
      obtain ⟨notFlate, notHex⟩ := ascii85_stage filter base
      have whole : ∀ text, stageDecoded zlibDecoder filter text = decoded (afterOpener text) [] := by
        intro text
        rw [stageDecoded, notFlate, notHex, base, if_neg Bool.false_ne_true, if_neg Bool.false_ne_true, if_pos rfl]
      rw [Bool.not_true, Bool.false_or, taken, whole, whole, ← ascii85_decode_take]
      exact cut_kept_iff room data more
  | false =>
      refine iff_of_true ?_ rfl
      have longer : stageDecoded zlibDecoder filter data <+: stageDecoded zlibDecoder filter (data ++ more) := by
        unfold stageDecoded
        split
        · exact streams data more
        · split
          · exact hex_decoded_append data more none
          · have stopped : ¬ isAscii85 filter = true := Bool.eq_false_iff.mp base
            exact (if_neg stopped).trans (if_neg stopped).symm ▸ List.prefix_rfl
      rw [taken]
      exact (List.take_prefix room _).trans longer

theorem decode_stages_cons (filter : String) (rest : List String) (data result : List UInt8) (stages after : StageBudget)
    (decodes : decodeStages zlibDecoder cap (filter :: rest) data stages = (.ok result, after)) :
    ∃ next, decodeStage zlibDecoder filter data (stageCap cap rest stages.left) = .ok next ∧
      decodeStages zlibDecoder cap rest next (if rest = [] then stages else { stages with left := stages.left - next.length }) =
        (.ok result, after) := by
  rw [decodeStages] at decodes
  split at decodes
  · cases decodes
  · cases stage : decodeStage zlibDecoder filter data (stageCap cap rest stages.left) with
    | error failure =>
        rw [stage] at decodes
        cases decodes
    | ok next =>
        rw [stage] at decodes
        exact ⟨next, rfl, decodes⟩

theorem outputs_prefix_iff (streams : Streams zlibDecoder) (cap : Nat) (filters : List String) (data more result : List UInt8)
    (stages after : StageBudget) (decodes : decodeStages zlibDecoder cap filters data stages = (.ok result, after)) :
    List.Forall₂ (· <+: ·) (outputs zlibDecoder cap filters data stages.left) (viewed zlibDecoder filters (data ++ more)) ↔
      groupsKept zlibDecoder cap filters data (data ++ more) stages.left = true := by
  induction filters generalizing data more stages with
  | nil => exact iff_of_true List.Forall₂.nil rfl
  | cons filter rest ih =>
      obtain ⟨next, stage, later⟩ := decode_stages_cons zlibDecoder cap filter rest data result stages after decodes
      rw [outputs, viewed, groupsKept, stage, List.forall₂_cons, Bool.and_eq_true,
        stage_begins zlibDecoder streams more stage]
      refine and_congr_right fun kept => ?_
      obtain ⟨behind, whole⟩ := (stage_begins zlibDecoder streams more stage).mpr kept
      rw [← whole]
      cases rest with
      | nil => exact iff_of_true List.Forall₂.nil rfl
      | cons other rest =>
          rw [if_neg (List.cons_ne_nil other rest)] at later
          exact ih next behind _ later

theorem stage_length (data next : List UInt8) (room : Nat)
    (decodes : decodeStage zlibDecoder filter data room = .ok next) : next.length ≤ room := by
  rw [decode_stage_take zlibDecoder filter decodes]
  exact List.length_take_le room _

theorem outputs_last (data result : List UInt8) (stages after : StageBudget)
    (some_filter : filters ≠ []) (decodes : decodeStages zlibDecoder cap filters data stages = (.ok result, after)) :
    (outputs zlibDecoder cap filters data stages.left).getLast? = some result := by
  induction filters generalizing data stages with
  | nil => exact absurd rfl some_filter
  | cons filter rest ih =>
      obtain ⟨next, stage, later⟩ := decode_stages_cons zlibDecoder cap filter rest data result stages after decodes
      rw [outputs, stage]
      cases rest with
      | nil =>
          obtain rfl : next = result := by simpa [decodeStages] using congrArg Prod.fst later
          rfl
      | cons other rest =>
          rw [if_neg (List.cons_ne_nil other rest)] at later
          have last := ih next _ (List.cons_ne_nil other rest) later
          rw [List.getLast?_cons, last, Option.getD_some]

theorem budget_spent (data result : List UInt8) (stages after : StageBudget)
    (some_filter : filters ≠ []) (decodes : decodeStages zlibDecoder cap filters data stages = (.ok result, after)) :
    result.length ≤ cap ∧ after.refused = stages.refused ∧
      after.left + spent (outputs zlibDecoder cap filters data stages.left).dropLast = stages.left ∧
      ∀ text ∈ (outputs zlibDecoder cap filters data stages.left).dropLast, text.length ≤ max cap maxInflated := by
  induction filters generalizing data stages with
  | nil => exact absurd rfl some_filter
  | cons filter rest ih =>
      obtain ⟨next, stage, later⟩ := decode_stages_cons zlibDecoder cap filter rest data result stages after decodes
      have size := stage_length zlibDecoder filter data next _ stage
      rw [outputs, stage]
      cases rest with
      | nil =>
          obtain ⟨same, rfl⟩ := Prod.mk.inj later
          obtain rfl := Except.ok.inj same
          exact ⟨size, rfl, rfl, fun text member => absurd member List.not_mem_nil⟩
      | cons other rest =>
          have several : other :: rest ≠ [] := List.cons_ne_nil other rest
          rw [if_neg several] at later
          rw [stageCap, if_neg several] at size
          have last := outputs_last zlibDecoder cap _ next result _ after several later
          obtain ⟨bound, refused, left, capped⟩ := ih next _ several later
          have more : outputs zlibDecoder cap (other :: rest) next (stages.left - next.length) ≠ [] := by
            intro empty
            rw [empty] at last
            cases last
          dsimp only at left refused capped ⊢
          rw [List.dropLast_cons_of_ne_nil more]
          refine ⟨bound, refused, ?_, ?_⟩
          · rw [spent] at left
            rw [spent, List.map_cons, List.sum_cons]
            omega
          · intro text member
            rcases List.mem_cons.mp member with rfl | inside
            · omega
            · exact capped text inside

def decodeWhole : List String → List UInt8 → Except DecodeError (List UInt8)
  | [], data => .ok data
  | filter :: rest, data =>
      match decodeStage zlibDecoder filter data (stageDecoded zlibDecoder filter data).length with
      | .error failure => .error failure
      | .ok next => decodeWhole rest next

theorem inflate_capped_room (reader : Reader) (cap : Nat) (onError : OnError) (wide : reader.bytes.length ≤ cap) :
    inflateCapped reader cap onError =
      if reader.failed ∧ (onError = .discard ∨ reader.bytes = []) then none
      else some { bytes := reader.bytes, truncated := false } := by
  have all : reader.bytes.take (cap + 1) = reader.bytes := List.take_of_length_le (by omega)
  have ended : reader.bytes.length < cap + 1 := by omega
  have within : ¬ reader.bytes.length > cap := by omega
  simp only [inflateCapped, all, decide_eq_true ended, Bool.and_true, List.take_of_length_le wide, decide_eq_false within]

theorem decode_stage_room (data : List UInt8) (room : Nat)
    (wide : (stageDecoded zlibDecoder filter data).length ≤ room) :
    decodeStage zlibDecoder filter data room = decodeStage zlibDecoder filter data (stageDecoded zlibDecoder filter data).length := by
  unfold stageDecoded at wide ⊢
  unfold decodeStage
  split
  · next flate =>
      rw [if_pos flate] at wide
      rw [inflate_capped_room _ room _ wide, inflate_capped_room _ _ _ le_rfl]
  · next notFlate =>
      rw [if_neg notFlate] at wide
      split
      · next hex =>
          rw [if_pos hex] at wide
          rw [decode_hex_take, decode_hex_take, List.take_length, List.take_of_length_le wide]
      · next notHex =>
          rw [if_neg notHex] at wide
          split
          · next base =>
              rw [if_pos base] at wide
              rw [ascii85_decode_take, ascii85_decode_take, List.take_length, List.take_of_length_le wide]
          · rfl

theorem decode_stages_enough (data : List UInt8) (stages : StageBudget)
    (wide : ∀ text ∈ viewed zlibDecoder filters data, text.length ≤ cap) (rich : spent (viewed zlibDecoder filters data) < stages.left) :
    (decodeStages zlibDecoder cap filters data stages).1 = decodeWhole zlibDecoder filters data := by
  induction filters generalizing data stages with
  | nil => rfl
  | cons filter rest ih =>
      rw [viewed] at wide rich
      rw [spent, List.map_cons, List.sum_cons, ← spent] at rich
      have here := wide _ List.mem_cons_self
      have room : (stageDecoded zlibDecoder filter data).length ≤ stageCap cap rest stages.left := by
        unfold stageCap
        split
        · exact here
        · omega
      have funded : ¬ (rest ≠ [] ∧ stages.left = 0) := by
        rintro ⟨-, broke⟩
        omega
      rw [decodeStages, decodeWhole, if_neg funded, decode_stage_room zlibDecoder filter data _ room]
      cases stage : decodeStage zlibDecoder filter data (stageDecoded zlibDecoder filter data).length with
      | error failure => rfl
      | ok next =>
          have all := decode_stage_take zlibDecoder filter stage
          rw [List.take_length] at all
          subst all
          refine ih _ _ (fun text member => wide text (List.mem_cons_of_mem _ member)) ?_
          split
          · omega
          · dsimp only
            omega

theorem length_le_spent (texts : List (List UInt8)) (text : List UInt8) (member : text ∈ texts) : text.length ≤ spent texts :=
  List.le_sum_of_mem (List.mem_map_of_mem member)

theorem unlimited_iff (raw : List UInt8) (filters : List String) (whole : List UInt8) :
    Unlimited zlibDecoder raw filters whole ↔ decodeWhole zlibDecoder filters raw = .ok whole := by
  have reached : ∃ enough, ∀ cap stages, enough ≤ cap → enough ≤ stages.left →
      (decodeStream zlibDecoder raw filters cap stages).1 = decodeWhole zlibDecoder filters raw := by
    refine ⟨raw.length + spent (viewed zlibDecoder filters raw) + 1, fun cap stages wide rich => ?_⟩
    unfold decodeStream
    split
    · next empty =>
        rw [empty, List.take_of_length_le (by omega)]
        rfl
    · exact decode_stages_enough zlibDecoder cap filters raw stages
        (fun text member => (length_le_spent _ text member).trans (by omega)) (by omega)
  obtain ⟨enough, same⟩ := reached
  constructor
  · rintro ⟨other, gives⟩
    rw [← same (max enough other) ⟨max enough other, 0⟩ (le_max_left _ _) (le_max_left _ _)]
    exact gives _ _ (le_max_right _ _) (le_max_right _ _)
  · intro gives
    exact ⟨enough, fun cap stages wide rich => (same cap stages wide rich).trans gives⟩

theorem decode_whole_viewed (raw whole : List UInt8) (gives : decodeWhole zlibDecoder filters raw = .ok whole) :
    (raw :: viewed zlibDecoder filters raw).getLast? = some whole := by
  induction filters generalizing raw with
  | nil =>
      obtain rfl := Except.ok.inj gives
      rfl
  | cons filter rest ih =>
      rw [decodeWhole] at gives
      cases stage : decodeStage zlibDecoder filter raw (stageDecoded zlibDecoder filter raw).length with
      | error failure =>
          rw [stage] at gives
          cases gives
      | ok next =>
          rw [stage] at gives
          have all := decode_stage_take zlibDecoder filter stage
          rw [List.take_length] at all
          subst all
          rw [viewed, List.getLast?_cons_cons]
          exact ih _ gives

theorem forall₂_last {texts wholes : List (List UInt8)} (agree : List.Forall₂ (· <+: ·) texts wholes) (result whole : List UInt8)
    (last : texts.getLast? = some result) (wholeLast : wholes.getLast? = some whole) : result <+: whole := by
  induction agree with
  | nil => cases last
  | @cons text other texts wholes head tail ih =>
      cases tail with
      | nil =>
          obtain rfl := Option.some.inj last
          obtain rfl := Option.some.inj wholeLast
          exact head
      | cons next rest => exact ih (by rwa [List.getLast?_cons_cons] at last) (by rwa [List.getLast?_cons_cons] at wholeLast)

-- Every stage hands on a prefix of what a viewer sees there exactly when no
-- group cut open by a cap is padded into bytes of its own; then so is the result.
theorem decode_stream_iff (streams : Streams zlibDecoder) (raw : List UInt8) (filters : List String) (cap : Nat)
    (stages after : StageBudget) (result : List UInt8)
    (decodes : decodeStream zlibDecoder raw filters cap stages = (.ok result, after)) :
    result.length ≤ cap ∧
    after.left + spent (outputs zlibDecoder cap filters raw stages.left).dropLast = stages.left ∧
    (∀ text ∈ (outputs zlibDecoder cap filters raw stages.left).dropLast, text.length ≤ max cap maxInflated) ∧
    (List.Forall₂ (· <+: ·) (outputs zlibDecoder cap filters raw stages.left) (viewed zlibDecoder filters raw) ↔
      groupsKept zlibDecoder cap filters raw raw stages.left = true) ∧
    (groupsKept zlibDecoder cap filters raw raw stages.left = true →
      ∀ whole, Unlimited zlibDecoder raw filters whole → result <+: whole) := by
  unfold decodeStream at decodes
  split at decodes
  · next empty =>
      obtain ⟨same, rfl⟩ := Prod.mk.inj decodes
      obtain rfl := Except.ok.inj same
      subst empty
      refine ⟨List.length_take_le cap raw, rfl, fun text member => absurd member List.not_mem_nil, iff_of_true .nil rfl, fun kept whole unlimited => ?_⟩
      obtain rfl := Except.ok.inj ((unlimited_iff zlibDecoder raw [] whole).mp unlimited)
      exact List.take_prefix cap raw
  · next several =>
      obtain ⟨bound, -, left, capped⟩ := budget_spent zlibDecoder cap filters raw result stages after several decodes
      have agree := outputs_prefix_iff zlibDecoder streams cap filters raw [] result stages after decodes
      rw [List.append_nil] at agree
      refine ⟨bound, left, capped, agree, fun kept whole unlimited => ?_⟩
      have last := decode_whole_viewed zlibDecoder filters raw whole ((unlimited_iff zlibDecoder raw filters whole).mp unlimited)
      have some_text : viewed zlibDecoder filters raw ≠ [] := by
        cases filters with
        | nil => exact absurd rfl several
        | cons filter rest => exact List.cons_ne_nil _ _
      obtain ⟨text, texts, shape⟩ := List.exists_cons_of_ne_nil some_text
      rw [shape, List.getLast?_cons_cons, ← shape] at last
      exact forall₂_last (agree.mpr kept) result whole (outputs_last zlibDecoder cap filters raw result stages after several decodes) last

def storedReader (text : List UInt8) : Reader :=
  let size := (text[3]?.getD 0).toNat + 256 * (text[4]?.getD 0).toNat
  if 7 ≤ text.length ∧ text.take 3 = [0x78, 0x01, 0x01] then
    { bytes := (text.drop 7).take size, failed := text.length < 7 + size + 4 }
  else { bytes := [], failed := true }

theorem stored_reader_streams : Streams storedReader := by
  intro front more
  by_cases headed : 7 ≤ front.length ∧ front.take 3 = [0x78, 0x01, 0x01]
  · have still : 7 ≤ (front ++ more).length ∧ (front ++ more).take 3 = [0x78, 0x01, 0x01] := by
      rw [List.length_append, List.take_append_of_le_length (by omega)]
      exact ⟨by omega, headed.2⟩
    simp only [storedReader, if_pos headed, if_pos still]
    rw [List.getElem?_append_left (by omega), List.getElem?_append_left (by omega), List.drop_append_of_le_length headed.1,
      List.take_append]
    exact List.prefix_append _ _
  · simp only [storedReader, if_neg headed]
    exact List.nil_prefix

-- "!!!$!" in a stored block. It spells 00 00 00 FF.
def stored : List UInt8 := [120, 1, 1, 5, 0, 250, 255, 33, 33, 33, 36, 33, 1, 250, 0, 169]

theorem decode_stream_iff_stored :
    5 + spent (outputs storedReader 2 ["Fl", "A85"] stored 10).dropLast = 10 ∧
      ∀ whole, Unlimited storedReader stored ["Fl", "A85"] whole → [0, 0] <+: whole := by
  have parts := decode_stream_iff storedReader stored_reader_streams stored ["Fl", "A85"] 2 ⟨10, 0⟩ ⟨5, 0⟩ [0, 0] (by decide +kernel)
  exact ⟨parts.2.1, parts.2.2.2.2 (by decide +kernel)⟩

-- With four bytes of budget the second stage reads "!!!$", which ends in 01.
theorem decode_stream_invents :
    ¬ ∀ (zlibDecoder : List UInt8 → Reader) (raw : List UInt8) (filters : List String) (cap : Nat) (stages after : StageBudget)
      (result whole : List UInt8), Streams zlibDecoder →
      decodeStream zlibDecoder raw filters cap stages = (.ok result, after) →
      Unlimited zlibDecoder raw filters whole → result <+: whole := by
  intro claimed
  have cut := claimed storedReader stored ["Fl", "A85"] 100 ⟨4, 0⟩ ⟨0, 0⟩ [0, 0, 1] [0, 0, 0, 255] stored_reader_streams
    (by decide +kernel) ((unlimited_iff _ _ _ _).mpr (by decide +kernel))
  exact absurd cut (by decide)

end Filefacts.Pdf
