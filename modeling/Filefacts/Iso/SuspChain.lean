import Filefacts.Iso.Rrip

set_option autoImplicit false

namespace Filefacts.Iso

open Rar (Text fromUtf8Lossy utf8Len)

def decodeRecords : List Record → Text → Text
  | [], out => out
  | record :: records, out =>
      if utf8Len out < maxSymlinkLen then decodeRecords records (pushComponent record.flags record.octets out) else out

variable (records : List Record)

theorem decode_components_records (fits : ∀ record ∈ records, record.octets.length < 256) (fuel : Nat)
    (enough : records.length ≤ fuel) (out : Text) :
    decodeComponents fuel (records.flatMap Record.bytes) out = decodeRecords records out := by
  induction records generalizing fuel out with
  | nil => cases fuel <;> rfl
  | cons record records ih =>
      cases fuel with
      | zero => cases enough
      | succ fuel =>
          have length : (UInt8.ofNat record.octets.length).toNat = record.octets.length :=
            UInt8.toNat_ofNat_of_lt' (fits record List.mem_cons_self)
          have rest := ih (fun other member => fits other (List.mem_cons_of_mem _ member)) fuel (Nat.le_of_succ_le_succ enough)
          rw [List.flatMap_cons, Record.bytes, List.cons_append, List.cons_append, decodeComponents, decodeRecords]
          by_cases room : utf8Len out < maxSymlinkLen
          · rw [if_pos room, if_pos room, length, if_pos (by rw [List.length_append]; omega), List.take_left, List.drop_left]
            exact rest _
          · rw [if_neg room, if_neg room]

theorem records_length : 2 * records.length ≤ (records.flatMap Record.bytes).length := by
  induction records with
  | nil => exact Nat.le_refl 0
  | cons record records ih =>
      rw [List.flatMap_cons, List.length_append, List.length_cons, Record.bytes, List.length_cons, List.length_cons]
      omega

theorem record_fits (record : Record) (member : record ∈ records) :
    record.octets.length + 2 ≤ (records.flatMap Record.bytes).length := by
  obtain ⟨front, back, rfl⟩ := List.append_of_mem member
  rw [List.flatMap_append, List.flatMap_cons, List.length_append, List.length_append, Record.bytes, List.length_cons, List.length_cons]
  omega

theorem decode_symlink_records (flag : UInt8) (records : List Record) (out : Text)
    (fits : (records.flatMap Record.bytes).length < 256) :
    decodeSymlink (flag :: records.flatMap Record.bytes) out = decodeRecords records out := by
  have few := records_length records
  apply decode_components_records
  · intro record member
    have inside := record_fits records record member
    omega
  · rw [List.length_cons]
    omega

def applyUse (state : AreaState) (use : Use) : AreaState := readUse use.signature use.data state

theorem parse_use {signature : List UInt8} (two : signature.length = 2) (version : UInt8) {data : List UInt8} (rest : List UInt8)
    (fits : data.length + 4 < 256) (fuel : Nat) (state : AreaState) :
    parseSuspArea (fuel + 1) (useBytes signature version data ++ rest) state =
      if signature = Bytes.ascii "ST" then state else parseSuspArea fuel rest (readUse signature data state) := by
  obtain ⟨sig0, sig1, rfl⟩ := List.length_eq_two.mp two
  have length : (UInt8.ofNat (data.length + 4)).toNat = data.length + 4 := UInt8.toNat_ofNat_of_lt' fits
  have inside : ¬ ((UInt8.ofNat (data.length + 4)).toNat < 4 ∨
      (data ++ rest).length + 4 < (UInt8.ofNat (data.length + 4)).toNat) := by
    rw [length, List.length_append]
    omega
  unfold useBytes
  simp only [List.cons_append, List.nil_append]
  rw [parseSuspArea, if_neg inside, length, Nat.add_sub_cancel, List.take_left, List.drop_left]

theorem parse_tail {tail : List UInt8} (ends : Ends tail) (fuel : Nat) (state : AreaState) :
    parseSuspArea fuel tail state = state := by
  cases fuel with
  | zero => rw [parseSuspArea]; simp
  | succ fuel =>
      rcases ends with short | ⟨version, rest, rfl⟩
      · rcases tail with _ | ⟨a, _ | ⟨b, _ | ⟨c, _ | ⟨d, tail⟩⟩⟩⟩
        · rfl
        · rfl
        · rfl
        · rfl
        · simp only [List.length_cons] at short
          omega
      · rw [parse_use rfl version rest (by decide), if_pos rfl]

theorem plain_signature (use : Use) (plain : use.Plain) :
    use.signature.length = 2 ∧ use.signature ≠ Bytes.ascii "ST" ∧ use.signature ≠ Bytes.ascii "CE" := by
  have names : Bytes.ascii "NM" ≠ Bytes.ascii "ST" ∧ Bytes.ascii "NM" ≠ Bytes.ascii "CE" := by decide
  have links : Bytes.ascii "SL" ≠ Bytes.ascii "ST" ∧ Bytes.ascii "SL" ≠ Bytes.ascii "CE" := by decide
  cases use with
  | name continues part => exact ⟨rfl, names⟩
  | link continues records => exact ⟨rfl, links⟩
  | other signature version data => exact ⟨plain.1, plain.2 "ST" (by simp), plain.2 "CE" (by simp)⟩

theorem parse_uses {uses : List Use} (fits : ∀ use ∈ uses, use.Fits) (plain : ∀ use ∈ uses, use.Plain) (rest : List UInt8)
    (fuel : Nat) (state : AreaState) :
    parseSuspArea (fuel + uses.length) (uses.flatMap Use.bytes ++ rest) state = parseSuspArea fuel rest (uses.foldl applyUse state) := by
  induction uses generalizing state with
  | nil => rfl
  | cons use uses ih =>
      obtain ⟨two, notEnd, _⟩ := plain_signature use (plain use List.mem_cons_self)
      have more := ih (fun other member => fits other (List.mem_cons_of_mem _ member))
        (fun other member => plain other (List.mem_cons_of_mem _ member)) (applyUse state use)
      rw [List.flatMap_cons, List.append_assoc, List.length_cons, ← Nat.add_assoc, Use.bytes,
        parse_use two use.version _ (fits use List.mem_cons_self), if_neg notEnd]
      exact more

def appendName (name : Option Text) (part : List UInt8) : Option Text :=
  some (pushCapped (name.getD []) (fromUtf8Lossy part) maxAltNameLen)

def appendLink (link : Option Text) (records : List Record) : Option Text := some (decodeRecords records (link.getD []))

theorem apply_use_names (state : AreaState) (use : Use) (fits : use.Fits) (plain : use.Plain) :
    (applyUse state use).entry.altName = use.part.toList.foldl appendName state.entry.altName ∧
      (applyUse state use).entry.symlink = use.records.toList.foldl appendLink state.entry.symlink ∧
        (applyUse state use).continuation = state.continuation ∧
          (applyUse state use).walk.suspBudget = state.walk.suspBudget := by
  cases use with
  | name continues part => exact ⟨rfl, rfl, rfl, rfl⟩
  | link continues records =>
      refine ⟨rfl, ?_, rfl, rfl⟩
      change some (decodeSymlink (continueFlag continues :: records.flatMap Record.bytes) (state.entry.symlink.getD [])) = _
      have small : (records.flatMap Record.bytes).length < 256 := by
        have whole : (records.flatMap Record.bytes).length + 1 + 4 < 256 := fits
        omega
      rw [decode_symlink_records _ records _ small]
      rfl
  | other signature version data =>
      obtain ⟨_, distinct⟩ := plain
      have notName := distinct "NM" (by simp)
      have notLink := distinct "SL" (by simp)
      have notContinued := distinct "CE" (by simp)
      unfold applyUse readUse
      simp only [Use.signature, Use.data, if_neg notName, if_neg notLink, notContinued, false_and, if_false]
      split
      · exact ⟨rfl, rfl, rfl, rfl⟩
      · split
        · exact ⟨rfl, rfl, rfl, rfl⟩
        · split <;> exact ⟨rfl, rfl, rfl, rfl⟩

theorem apply_uses_names {uses : List Use} (fits : ∀ use ∈ uses, use.Fits) (plain : ∀ use ∈ uses, use.Plain) (state : AreaState) :
    (uses.foldl applyUse state).entry.altName = (uses.filterMap Use.part).foldl appendName state.entry.altName ∧
      (uses.foldl applyUse state).entry.symlink = (uses.filterMap Use.records).foldl appendLink state.entry.symlink ∧
        (uses.foldl applyUse state).continuation = state.continuation ∧
          (uses.foldl applyUse state).walk.suspBudget = state.walk.suspBudget := by
  induction uses generalizing state with
  | nil => exact ⟨rfl, rfl, rfl, rfl⟩
  | cons use uses ih =>
      obtain ⟨name, link, led, budget⟩ := apply_use_names state use (fits use List.mem_cons_self) (plain use List.mem_cons_self)
      obtain ⟨names, links, leads, budgets⟩ := ih (fun other member => fits other (List.mem_cons_of_mem _ member))
        (fun other member => plain other (List.mem_cons_of_mem _ member)) (applyUse state use)
      refine ⟨?_, ?_, leads.trans led, budgets.trans budget⟩
      · rw [List.foldl_cons, names, name]
        cases found : use.part <;> simp [found]
      · rw [List.foldl_cons, links, link]
        cases found : use.records <;> simp [found]

theorem little_read (front rest : List UInt8) {number : Nat} (fits : number < 2 ^ 32) :
    Bytes.u32le (front ++ (little number ++ rest)) front.length = some number := by
  have width : (little number).length = 4 := by rw [little, List.length_reverse, BigEndian.octets_of_length]
  have inside : front.length + 4 ≤ (front ++ (little number ++ rest)).length := by
    rw [List.length_append, List.length_append, width]
    omega
  rw [Bytes.u32le, Bytes.arrayAt, if_pos inside, List.drop_left, List.take_left' width, Option.map_some, little, List.reverse_reverse,
    BigEndian.value_octets_of 4 number fits]

def reach (place : Place) (length : Nat) : Nat × Nat := (place.start, place.start + min length (sector * 4))

variable (place : Place) (length : Nat) (area : Area)

theorem continuation_range_eq (fits : length < 2 ^ 32) :
    continuationRange (bothEndian place.block ++ bothEndian place.offset ++ bothEndian length) = some (reach place length) := by
  have width : ∀ number, (bothEndian number).length = 8 := by
    intro number
    rw [bothEndian, List.length_append, little, List.length_reverse, BigEndian.octets_of_length]
  have block : Bytes.u32le (bothEndian place.block ++ bothEndian place.offset ++ bothEndian length) 0 = some place.block := by
    have read := little_read [] (BigEndian.octetsOf 4 place.block ++ (bothEndian place.offset ++ bothEndian length))
      place.blockFits
    simpa only [bothEndian, List.append_assoc, List.nil_append, List.length_nil] using read
  have offset : Bytes.u32le (bothEndian place.block ++ bothEndian place.offset ++ bothEndian length) 8 = some place.offset := by
    have read := little_read (bothEndian place.block) (BigEndian.octetsOf 4 place.offset ++ bothEndian length)
      place.offsetFits
    rw [width] at read
    simpa only [bothEndian, List.append_assoc] using read
  have size : Bytes.u32le (bothEndian place.block ++ bothEndian place.offset ++ bothEndian length) 16 = some length := by
    have read := little_read (bothEndian place.block ++ bothEndian place.offset) (BigEndian.octetsOf 4 length) fits
    rw [List.length_append, width, width] at read
    simpa only [bothEndian, List.append_assoc] using read
  have blockFits := place.blockFits
  have offsetFits := place.offsetFits
  rw [continuationRange, block, offset, size]
  simp only [Option.bind_eq_bind, Option.bind_some, reach, Place.start, Bytes.saturatingAdd, Bytes.saturatingMul, Bytes.maxU64, sector]
  congr 2 <;> omega

theorem parse_area (next : Option (Place × Nat)) (small : ∀ place ∈ next, place.2 < 2 ^ 32) (walk : Walk) (entry : Entry) :
    ∃ state, parseSuspArea (area.bytes next).length (area.bytes next) ⟨walk, entry, none⟩ = state ∧
      state.entry.altName = (area.uses.filterMap Use.part).foldl appendName entry.altName ∧
        state.entry.symlink = (area.uses.filterMap Use.records).foldl appendLink entry.symlink ∧
          state.continuation = next.map (fun place => reach place.1 place.2) ∧ state.walk.suspBudget = walk.suspBudget := by
  have frontFits := fun use member => area.fits use (List.mem_append_left area.back member)
  have frontPlain := fun use member => area.plain use (List.mem_append_left area.back member)
  have backFits := fun use member => area.fits use (List.mem_append_right area.front member)
  have backPlain := fun use member => area.plain use (List.mem_append_right area.front member)
  obtain ⟨frontName, frontLink, frontLed, frontBudget⟩ := apply_uses_names frontFits frontPlain ⟨walk, entry, none⟩
  have parts : ∀ start : Option Text, (area.uses.filterMap Use.part).foldl appendName start =
      (area.back.filterMap Use.part).foldl appendName ((area.front.filterMap Use.part).foldl appendName start) := by
    intro start
    rw [Area.uses, List.filterMap_append, List.foldl_append]
  have links : ∀ start : Option Text, (area.uses.filterMap Use.records).foldl appendLink start =
      (area.back.filterMap Use.records).foldl appendLink ((area.front.filterMap Use.records).foldl appendLink start) := by
    intro start
    rw [Area.uses, List.filterMap_append, List.foldl_append]
  have longer : ∀ uses : List Use, uses.length ≤ (uses.flatMap Use.bytes).length := by
    intro uses
    induction uses with
    | nil => exact Nat.le_refl 0
    | cons use uses ih =>
        rw [List.flatMap_cons, List.length_append, List.length_cons, Use.bytes, useBytes, List.length_append, List.length_cons]
        omega
  have frontLonger := longer area.front
  have backLonger := longer area.back
  rw [parts, links]
  cases next with
  | none =>
      obtain ⟨backName, backLink, backLed, backBudget⟩ :=
        apply_uses_names backFits backPlain (area.front.foldl applyUse ⟨walk, entry, none⟩)
      refine ⟨area.back.foldl applyUse (area.front.foldl applyUse ⟨walk, entry, none⟩), ?_, ?_, ?_, ?_, ?_⟩
      · have split : area.bytes none = area.front.flatMap Use.bytes ++ (area.back.flatMap Use.bytes ++ area.tail) := by
          simp [Area.bytes]
        rw [split]
        obtain ⟨fuel, enough⟩ : ∃ fuel, (area.front.flatMap Use.bytes ++ (area.back.flatMap Use.bytes ++ area.tail)).length =
            fuel + area.back.length + area.front.length := by
          refine ⟨(area.front.flatMap Use.bytes ++ (area.back.flatMap Use.bytes ++ area.tail)).length - area.back.length -
            area.front.length, ?_⟩
          rw [List.length_append, List.length_append]
          omega
        rw [enough, parse_uses frontFits frontPlain, parse_uses backFits backPlain, parse_tail area.ends]
      · rw [backName, frontName]
      · rw [backLink, frontLink]
      · exact backLed.trans frontLed
      · exact backBudget.trans frontBudget
  | some place =>
      have range := continuation_range_eq place.1 place.2 (small place rfl)
      let data := bothEndian place.1.block ++ bothEndian place.1.offset ++ bothEndian place.2
      let led := readUse (Bytes.ascii "CE") data (area.front.foldl applyUse ⟨walk, entry, none⟩)
      have hop : led = { area.front.foldl applyUse ⟨walk, entry, none⟩ with continuation := some (reach place.1 place.2) } := by
        have words : ∀ word ∈ ["SP", "RR", "ER", "PX", "NM", "SL", "AA", "AB", "AS"], Bytes.ascii "CE" ≠ Bytes.ascii word := by decide
        change readUse (Bytes.ascii "CE") data _ = _
        unfold readUse
        rw [if_neg (by simp [words]), if_neg (words "PX" (by simp)), if_neg (words "NM" (by simp)), if_neg (words "SL" (by simp)),
          if_neg (by simp [words]), if_pos ⟨rfl, frontLed⟩, range]
      obtain ⟨backName, backLink, backLed, backBudget⟩ := apply_uses_names backFits backPlain led
      refine ⟨area.back.foldl applyUse led, ?_, ?_, ?_, ?_, ?_⟩
      · have split : area.bytes (some place) = area.front.flatMap Use.bytes ++ (useBytes (Bytes.ascii "CE") 1 data ++
            (area.back.flatMap Use.bytes ++ area.tail)) := by
          simp [Area.bytes, continuationBytes, data]
        have size : data.length + 4 < 256 := by
          simp [data, bothEndian, little, BigEndian.octets_of_length]
        have entryLength : 1 ≤ (useBytes (Bytes.ascii "CE") 1 data).length := by
          rw [useBytes, List.length_append, List.length_cons]
          omega
        rw [split]
        obtain ⟨fuel, enough⟩ : ∃ fuel, (area.front.flatMap Use.bytes ++ (useBytes (Bytes.ascii "CE") 1 data ++
            (area.back.flatMap Use.bytes ++ area.tail))).length = fuel + area.back.length + 1 + area.front.length := by
          refine ⟨(area.front.flatMap Use.bytes ++ (useBytes (Bytes.ascii "CE") 1 data ++
            (area.back.flatMap Use.bytes ++ area.tail))).length - area.back.length - 1 - area.front.length, ?_⟩
          rw [List.length_append, List.length_append, List.length_append]
          omega
        rw [enough, parse_uses frontFits frontPlain, parse_use rfl 1 _ size, if_neg (by decide),
          parse_uses backFits backPlain, parse_tail area.ends]
      · rw [backName, hop, frontName]
      · rw [backLink, hop, frontLink]
      · rw [backLed, hop]
        rfl
      · rw [backBudget, hop]
        exact frontBudget

open Rar (Text fromUtf8Lossy utf8Len)

variable (image : List UInt8)

def nextPlace : List (Place × Area) → Option (Place × Nat)
  | [] => none
  | (place, next) :: rest => some (place, (chainBytes next rest).length)

theorem chain_bytes_eq (rest : List (Place × Area)) : chainBytes area rest = area.bytes (nextPlace rest) := by
  rcases rest with _ | ⟨⟨place, next⟩, rest⟩ <;> rfl

variable (rest : List (Place × Area))

theorem placed_small (placed : Placed image rest) : ∀ place ∈ nextPlace rest, place.2 ≤ sector * 4 := by
  intro place led
  rcases rest with _ | ⟨⟨first, next⟩, rest⟩
  · cases led
  · obtain rfl := Option.some.inj led
    exact placed.2.1

theorem parse_chain_area (area : Area) (rest : List (Place × Area)) (placed : Placed image rest) (walk : Walk) (entry : Entry) :
    ∃ state, parseSuspArea (chainBytes area rest).length (chainBytes area rest) ⟨walk, entry, none⟩ = state ∧
      state.entry.altName = (area.uses.filterMap Use.part).foldl appendName entry.altName ∧
        state.entry.symlink = (area.uses.filterMap Use.records).foldl appendLink entry.symlink ∧
          state.continuation = (nextPlace rest).map (fun place => reach place.1 place.2) ∧ state.walk.suspBudget = walk.suspBudget := by
  have small := placed_small image rest placed
  rw [chain_bytes_eq]
  exact parse_area area (nextPlace rest) (fun place led => Nat.lt_of_le_of_lt (small place led) (by decide)) walk entry

def ranges : List (Place × Area) → List (Nat × Nat)
  | [] => []
  | (place, area) :: rest => reach place (chainBytes area rest).length :: ranges rest

theorem reach_small (small : length ≤ sector * 4) : reach place length = (place.start, place.start + length) := by
  rw [reach, Nat.min_eq_left small]

theorem chain_same_length (area other : Area) (rest rest' : List (Place × Area)) (placed : Placed image rest)
    (placed' : Placed image rest') (same : chainBytes area rest = chainBytes other rest') : rest.length = rest'.length := by
  induction rest generalizing area other rest' with
  | nil =>
      obtain ⟨state, read, _, _, led, _⟩ := parse_chain_area image area [] placed ⟨false, false, false, 0, 0⟩ ⟨[], none, none, none, none, none⟩
      obtain ⟨state', read', _, _, led', _⟩ :=
        parse_chain_area image other rest' placed' ⟨false, false, false, 0, 0⟩ ⟨[], none, none, none, none, none⟩
      rw [← same, read] at read'
      rw [← read', led] at led'
      rcases rest' with _ | ⟨⟨place, next⟩, rest'⟩
      · rfl
      · cases led'
  | cons link rest ih =>
      obtain ⟨place, next⟩ := link
      obtain ⟨state, read, _, _, led, _⟩ :=
        parse_chain_area image area ((place, next) :: rest) placed ⟨false, false, false, 0, 0⟩ ⟨[], none, none, none, none, none⟩
      obtain ⟨state', read', _, _, led', _⟩ :=
        parse_chain_area image other rest' placed' ⟨false, false, false, 0, 0⟩ ⟨[], none, none, none, none, none⟩
      rw [← same, read] at read'
      rw [← read', led] at led'
      rcases rest' with _ | ⟨⟨place', next'⟩, rest'⟩
      · cases led'
      · obtain ⟨here, small, placed⟩ := placed
        obtain ⟨here', small', placed'⟩ := placed'
        have range : reach place (chainBytes next rest).length = reach place' (chainBytes next' rest').length := Option.some.inj led'
        rw [reach_small place _ small, reach_small place' _ small'] at range
        obtain ⟨start, stop⟩ := Prod.mk.inj range
        rw [stop, start, here'] at here
        have further := ih next next' rest' placed placed' (Option.some.inj here).symm
        rw [List.length_cons, List.length_cons, further]

theorem ranges_later {place : Place} {area : Area} {rest : List (Place × Area)} (placed : Placed image ((place, area) :: rest))
    {later : List (Place × Area)} (suffix : later <:+ rest) : reach place (chainBytes area rest).length ∉ ranges later := by
  induction later with
  | nil => exact List.not_mem_nil
  | cons link later ih =>
      obtain ⟨place', next⟩ := link
      have placedLater : ∀ all : List (Place × Area), Placed image all → ((place', next) :: later) <:+ all →
          Placed image ((place', next) :: later) := by
        intro all placed inside
        induction all with
        | nil => cases List.suffix_nil.mp inside
        | cons link all ih =>
            rcases List.suffix_cons_iff.mp inside with here | further
            · exact here ▸ placed
            · exact ih placed.2.2 further
      obtain ⟨here, small, placedRest⟩ := placed
      obtain ⟨here', small', placed'⟩ := placedLater rest placedRest suffix
      intro member
      rcases List.mem_cons.mp member with range | member
      · rw [reach_small place _ small, reach_small place' _ small'] at range
        obtain ⟨start, stop⟩ := Prod.mk.inj range
        rw [stop, start, here'] at here
        have equal := chain_same_length image area next rest later placedRest placed' (Option.some.inj here).symm
        have shorter := suffix.length_le
        rw [List.length_cons] at shorter
        omega
      · exact ih ((List.suffix_cons _ _).trans suffix) member

theorem chain_length_le (placed : Placed image rest) : chainLength rest ≤ rest.length * (sector * 4) := by
  induction rest with
  | nil => exact Nat.le_refl 0
  | cons link rest ih =>
      have further := ih placed.2.2
      have small := placed.2.1
      rw [chainLength, List.length_cons, Nat.add_mul]
      omega

theorem follow_chain {rest : List (Place × Area)} (placed : Placed image rest) (area : Area) {walk : Walk} (entry : Entry)
    {followed : List (Nat × Nat)} {entryBudget fuel : Nat} (turns : rest.length < fuel)
    (hops : followed.length + rest.length ≤ maxCeHops) (new : ∀ range ∈ ranges rest, range ∉ followed)
    (affords : chainLength rest ≤ entryBudget) (affordsAll : chainLength rest ≤ walk.suspBudget) :
    (followAreas image fuel walk entry (chainBytes area rest) followed entryBudget).2.altName =
        ((usesOf area rest).filterMap Use.part).foldl appendName entry.altName ∧
      (followAreas image fuel walk entry (chainBytes area rest) followed entryBudget).2.symlink =
        ((usesOf area rest).filterMap Use.records).foldl appendLink entry.symlink := by
  induction rest generalizing area walk entry followed entryBudget fuel with
  | nil =>
      cases fuel with
      | zero => cases turns
      | succ fuel =>
          obtain ⟨state, read, name, link, led, _⟩ :=
            parse_chain_area image area [] placed { walk with suspAreasParsed := walk.suspAreasParsed + 1 } entry
          have last : state.continuation = none := led
          rw [followAreas, read, last, usesOf, List.flatMap_nil, List.append_nil]
          exact ⟨name, link⟩
  | cons hop rest ih =>
      obtain ⟨place, next⟩ := hop
      obtain ⟨here, small, placedRest⟩ := placed
      cases fuel with
      | zero => cases turns
      | succ fuel =>
          obtain ⟨state, read, name, link, led, budget⟩ := parse_chain_area image area ((place, next) :: rest)
            ⟨here, small, placedRest⟩ { walk with suspAreasParsed := walk.suspAreasParsed + 1 } entry
          have budget : state.walk.suspBudget = walk.suspBudget := budget
          have range : state.continuation = some (place.start, place.start + (chainBytes next rest).length) := by
            rw [led]
            exact congrArg some (reach_small place _ small)
          have fresh : (place.start, place.start + (chainBytes next rest).length) ∉ followed := by
            rw [← reach_small place _ small]
            exact new _ List.mem_cons_self
          rw [chainLength] at affords affordsAll
          rw [List.length_cons] at turns hops
          have affordsHere : min (min (place.start + (chainBytes next rest).length - place.start) entryBudget) state.walk.suspBudget =
              (chainBytes next rest).length := by
            rw [budget]
            omega
          have fits : Bytes.saturatingAdd place.start (chainBytes next rest).length = place.start + (chainBytes next rest).length := by
            have blockFits := place.blockFits
            have offsetFits := place.offsetFits
            unfold Bytes.saturatingAdd Bytes.maxU64 Place.start
            rw [sector] at *
            omega
          have uses : usesOf area ((place, next) :: rest) = area.uses ++ usesOf next rest := by
            rw [usesOf, usesOf, List.flatMap_cons]
          rw [followAreas, read, range, uses, List.filterMap_append, List.filterMap_append, List.foldl_append, List.foldl_append, ← name,
            ← link]
          simp only [affordsHere, fits, here]
          rw [if_neg (by simp only [not_or]; exact ⟨by omega, fresh⟩)]
          by_cases empty : chainBytes next rest = []
          · rw [if_pos empty]
            have none : rest = [] ∧ next.uses = [] := by
              rw [chain_bytes_eq, Area.bytes] at empty
              simp only [List.append_eq_nil_iff, List.flatMap_eq_nil_iff, Use.bytes, useBytes] at empty
              obtain ⟨⟨⟨front, led⟩, back⟩, _⟩ := empty
              refine ⟨?_, ?_⟩
              · rcases rest with _ | ⟨⟨place', next'⟩, rest⟩
                · rfl
                · simp [nextPlace, continuationBytes, useBytes] at led
              · rw [Area.uses, List.append_eq_nil_iff, List.eq_nil_iff_forall_not_mem, List.eq_nil_iff_forall_not_mem]
                exact ⟨fun use member => by simpa using front use member, fun use member => by simpa using back use member⟩
            rw [none.1, usesOf, none.2]
            exact ⟨rfl, rfl⟩
          · rw [if_neg empty]
            apply ih placedRest next
            · omega
            · rw [List.length_append, List.length_singleton]
              omega
            · intro other member inside
              rcases List.mem_append.mp inside with earlier | now
              · exact new other (List.mem_cons_of_mem _ member) earlier
              · obtain rfl := List.mem_singleton.mp now
                rw [← reach_small place _ small] at member
                exact ranges_later image ⟨here, small, placedRest⟩ List.suffix_rfl member
            · omega
            · change chainLength rest ≤ state.walk.suspBudget - (chainBytes next rest).length
              omega

theorem parse_susp_names (placed : Placed image rest) (area : Area) (walk : Walk) (entry : Entry)
    (path : Text) (hops : rest.length ≤ maxCeHops) (affordsAll : chainLength rest ≤ walk.suspBudget) :
    (parseSusp image (chainBytes area rest) walk entry path).2.altName =
        ((usesOf area rest).filterMap Use.part).foldl appendName entry.altName ∧
      (parseSusp image (chainBytes area rest) walk entry path).2.symlink =
        ((usesOf area rest).filterMap Use.records).foldl appendLink entry.symlink := by
  have bound := chain_length_le image rest placed
  have enough : chainLength rest ≤ maxSuspBytesPerEntry := by
    have most : rest.length * (sector * 4) ≤ maxCeHops * (sector * 4) := Nat.mul_le_mul_right _ hops
    have cap : maxCeHops * (sector * 4) = maxSuspBytesPerEntry := by decide
    omega
  have names := follow_chain image placed area entry (Nat.lt_succ_of_le hops)
    (by simpa using hops) (fun _ _ => List.not_mem_nil) enough affordsAll
  unfold parseSusp
  dsimp only
  split
  · exact names
  · split
    · exact names
    · exact names

end Filefacts.Iso
