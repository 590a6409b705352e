import Filefacts.Rar.Walk4

set_option autoImplicit false

namespace Filefacts.Rar

variable (crc32 : List UInt8 → Nat)

variable (bytes rest : List UInt8) (block : Block)

theorem file_head_packed {body rest : List UInt8} {flags base : Nat} (there : bytes.drop base = body ++ rest)
    (within : base ≤ bytes.length) (long : (if has flags r4LhdLarge then 33 else 25) ≤ body.length) :
    ∃ head, fileHead bytes flags base = some head ∧ head.packed = packSize flags body ∧ head.nameSize ≤ maxName := by
  have least : 25 ≤ body.length := by
    split at long <;> omega
  have read := fun width offset inside => read_le_field bytes body rest width base offset there within inside
  have packLo := read 4 0 (by omega)
  have unpLo := read 4 4 (by omega)
  have host := read 1 8 (by omega)
  have crc := read 4 9 (by omega)
  have ftime := read 4 13 (by omega)
  have unpVer := read 1 17 (by omega)
  have method := read 1 18 (by omega)
  have nameSize := read 2 19 (by omega)
  have attrs := read 4 21 (by omega)
  simp only [Nat.add_zero, Nat.add_assoc, Nat.reduceAdd] at packLo unpLo host crc ftime unpVer method nameSize attrs
  unfold fileHead
  simp only [packLo, unpLo, host, crc, ftime, unpVer, method, nameSize, attrs, Option.bind_some, Option.map_some]
  refine ⟨_, rfl, ?_, Nat.le_of_lt (field_lt body 2 19)⟩
  unfold packSize
  by_cases large : has flags r4LhdLarge = true
  · rw [if_pos large] at long
    have packHi := read 4 25 (by omega)
    simp only [if_pos large, packHi, Option.getD_some]
  · simp only [if_neg large, Option.getD_some, Nat.zero_mul, Nat.zero_add]

theorem file_block_next (pos flags headerEnd : Nat) (service : Bool) (ar : Archive) (head : FileHead)
    (read : fileHead bytes flags (pos + 7) = some head) (within : headerEnd ≤ bytes.length) :
    ∃ after, fileBlock bytes pos flags headerEnd service ar =
      .next (headerEnd + min head.packed (remaining bytes headerEnd)) after := by
  unfold fileBlock
  rw [read]
  simp only [skipData]
  split
  · exact ⟨_, rfl⟩
  · split
    · have taken : headerEnd + min head.packed (remaining bytes headerEnd) ≤ bytes.length := by
        unfold remaining
        omega
      rw [Bytes.get, if_pos ⟨by omega, taken⟩]
      exact ⟨_, rfl⟩
    · exact ⟨_, rfl⟩

structure Reads (bytes rest : List UInt8) (block : Block) (pos : Nat) : Prop where
  crc : readLe bytes 2 pos = (some block.crc, pos + 2)
  htype : readLe bytes 1 (pos + 2) = (some block.htype, pos + 3)
  flags : readLe bytes 2 (pos + 3) = (some block.flags, pos + 5)
  size : readLe bytes 2 (pos + 5) = (some (7 + block.body.length), pos + 7)
  body : bytes.drop (pos + 7) = block.body ++ (block.data ++ rest)
  data : bytes.drop (pos + (7 + block.body.length)) = block.data ++ rest
  inside : pos + (7 + block.body.length) + block.data.length ≤ bytes.length

theorem drop_little_endian {width pos number : Nat}
    (there : bytes.drop pos = littleEndian width number ++ rest) : bytes.drop (pos + width) = rest := by
  rw [← List.drop_drop, there, List.drop_left' (little_endian_length width number)]

theorem block_reads (pos : Nat) (there : bytes.drop pos = block.encode ++ rest)
    (within : pos ≤ bytes.length) : Reads bytes rest block pos := by
  have size := congrArg List.length there
  rw [List.length_drop, List.length_append, Block.encode, List.length_append, header_length] at size
  simp only [Block.encode, Block.header, List.append_assoc] at there
  have afterCrc := drop_little_endian bytes _ there
  have afterType := drop_little_endian bytes _ afterCrc
  have afterFlags := drop_little_endian bytes _ afterType
  have afterSize := drop_little_endian bytes _ afterFlags
  have afterBody : bytes.drop (pos + (7 + block.body.length)) = block.data ++ rest := by
    rw [← Nat.add_assoc, ← List.drop_drop, afterSize, List.drop_left]
  exact {
    crc := read_le_at block.crcFits there within
    htype := read_le_at block.typeFits afterCrc (by omega)
    flags := read_le_at block.flagsFit afterType (by omega)
    size := read_le_at block.bodyFits afterFlags (by omega)
    body := afterSize
    data := afterBody
    inside := by omega }

theorem walk_block_dispatch (pos : Nat) (ar : Archive) (reads : Reads bytes rest block pos) :
    ∃ checked, checked.members = ar.members ∧ walkBlock crc32 bytes pos ar =
      typedBlock bytes pos block.htype block.flags (pos + (7 + block.body.length)) checked := by
  have inside := reads.inside
  unfold walkBlock
  simp only [reads.crc, reads.htype, reads.flags, reads.size]
  rw [if_neg (show ¬ 7 + block.body.length < 7 by omega), Bytes.get, if_pos ⟨by omega, by omega⟩]
  refine ⟨_, ?_, rfl⟩
  split <;> rfl

theorem main_block_next (pos flags headerEnd : Nat) (ar : Archive)
    (plain : has flags r4MhdPassword = false) : ∃ after, mainBlock bytes pos flags headerEnd ar = .next headerEnd after := by
  simp only [mainBlock, plain, Bool.false_eq_true, if_false]
  exact ⟨_, rfl⟩

theorem walk_block_next (pos : Nat) (ar : Archive)
    (there : bytes.drop pos = block.encode ++ rest) (within : pos ≤ bytes.length) (on : block.last = false) :
    ∃ after, walkBlock crc32 bytes pos ar = .next (pos + block.encode.length) after := by
  have reads := block_reads bytes rest block pos there within
  have inside := reads.inside
  have length : block.encode.length = 7 + block.body.length + block.data.length := by
    rw [Block.encode, List.length_append, header_length]
  obtain ⟨checked, _, dispatched⟩ := walk_block_dispatch crc32 bytes rest block pos ar reads
  have sized := block.sized
  unfold Sized at sized
  rw [dispatched, length, typedBlock]
  simp only [Block.last, Bool.or_eq_false_iff] at on
  obtain ⟨⟨ends, stops⟩, adds⟩ := on
  by_cases main : block.htype = r4Main
  · rw [if_pos main] at sized ⊢
    rw [sized.1, List.length_nil]
    exact main_block_next bytes pos block.flags _ checked sized.2
  · rw [if_neg main] at sized ⊢
    by_cases file : block.htype = r4File ∨ block.htype = r4Newsub
    · rw [if_pos file] at sized ⊢
      obtain ⟨head, read, packed, _⟩ := file_head_packed bytes reads.body (by omega) sized.1
      obtain ⟨after, stepped⟩ := file_block_next bytes pos block.flags (pos + (7 + block.body.length))
        (block.htype = r4Newsub) checked head read (by omega)
      refine ⟨after, ?_⟩
      rw [stepped, packed, sized.2, Nat.min_eq_left (by unfold remaining; omega), Nat.add_assoc]
    · rw [if_neg file] at sized ⊢
      by_cases end_ : block.htype = r4End
      · simp only [Block.ends, end_, decide_true] at ends
        cases ends
      · rw [if_neg end_]
        have other : isOther block.htype = true := by
          simp only [isOther, Bool.and_eq_true, decide_eq_true_eq]
          exact ⟨⟨⟨main, fun is => file (Or.inl is)⟩, fun is => file (Or.inr is)⟩, end_⟩
        simp only [Block.adds, other, Bool.true_and, decide_eq_false_iff_not, not_not] at adds
        simp only [Block.stops, other, Bool.true_and, Bool.and_eq_false_iff, Bool.not_eq_false'] at stops
        unfold otherBlock
        rw [adds, List.length_nil, if_neg fun both => (by
          rcases stops with skip | long
          · exact both.1 skip
          · exact both.2 long)]
        exact ⟨_, rfl⟩

theorem walk_block_done (pos : Nat) (ar : Archive)
    (there : bytes.drop pos = block.encode ++ rest) (within : pos ≤ bytes.length)
    (past : block.ends = true ∨ block.stops = true) :
    ∃ after, walkBlock crc32 bytes pos ar = .done after ∧
      (block.stops = true → ∃ reason, ("unknown-header", reason) ∈ after.limits) := by
  have reads := block_reads bytes rest block pos there within
  obtain ⟨checked, _, dispatched⟩ := walk_block_dispatch crc32 bytes rest block pos ar reads
  rw [dispatched, typedBlock]
  rcases past with ends | stops
  · have end_ : block.htype = r4End := of_decide_eq_true ends
    rw [if_neg (by rw [end_]; decide), if_neg (by rw [end_]; decide), if_pos end_]
    refine ⟨_, rfl, fun stops => ?_⟩
    simp only [Block.stops, isOther, end_, ne_eq, not_true, decide_false, Bool.and_false, Bool.false_and] at stops
    cases stops
  · simp only [Block.stops, isOther, Bool.and_eq_true, decide_eq_true_eq, Bool.not_eq_true'] at stops
    obtain ⟨⟨⟨⟨⟨main, file⟩, newsub⟩, end_⟩, skip⟩, long⟩ := stops
    rw [if_neg main, if_neg (fun either => either.elim file newsub), if_neg end_]
    unfold otherBlock
    rw [if_pos ⟨by rw [skip]; decide, by rw [long]; decide⟩]
    exact ⟨_, rfl, fun _ => ⟨_, List.mem_append_right _ (List.mem_singleton_self _)⟩⟩

theorem encode_least : 7 ≤ block.encode.length := by
  rw [Block.encode, List.length_append, header_length]
  omega

theorem walk_from_first (count pos : Nat) (ar : Archive) (enough : ¬ remaining bytes pos < 7) :
    [pos] <+: (walkFrom crc32 bytes (count + 1) pos ar).1 := by
  rw [walkFrom, if_neg enough]
  cases walkBlock crc32 bytes pos ar with
  | done after => exact List.prefix_refl _
  | next on after => exact List.prefix_append [pos] _

theorem walk_from_reached (trailing : List UInt8) (blocks : List Block) (count pos : Nat) (ar : Archive)
    (there : bytes.drop pos = layout blocks ++ trailing) (within : pos ≤ bytes.length) (cap : blocks.length ≤ count)
    (whole : (∃ block ∈ blocks, block.ends = true) ∨ trailing.length < 7) :
    startsOf pos (reached blocks) <+: (walkFrom crc32 bytes count pos ar).1 ∧
      ((∀ block ∈ blocks, block.adds = false) →
        (walkFrom crc32 bytes count pos ar).1 = startsOf pos (reached blocks) ∧
          ∀ block ∈ reached blocks, block.stops = true →
            ∃ reason, ("unknown-header", reason) ∈ (walkFrom crc32 bytes count pos ar).2.limits) := by
  induction blocks generalizing count pos ar with
  | nil =>
      have few : remaining bytes pos < 7 := by
        rcases whole with ⟨_, no, _⟩ | short
        · cases no
        · have size := congrArg List.length there
          rw [List.length_drop] at size
          unfold remaining
          rw [size]
          exact short
      refine ⟨List.nil_prefix, fun _ => ⟨?_, fun block member => by cases member⟩⟩
      cases count with
      | zero => rfl
      | succ count => rw [walkFrom, if_pos few]; rfl
  | cons block rest ih =>
      obtain ⟨count, rfl⟩ : ∃ less, count = less + 1 := ⟨count - 1, by rw [List.length_cons] at cap; omega⟩
      rw [layout, List.flatMap_cons, List.append_assoc] at there
      have size := congrArg List.length there
      rw [List.length_drop, List.length_append] at size
      have least := encode_least block
      have enough : ¬ remaining bytes pos < 7 := by
        unfold remaining
        omega
      have first := walk_from_first crc32 bytes count pos ar enough
      rw [walkFrom, if_neg enough] at first ⊢
      by_cases last : block.last = true
      · rw [reached, if_pos last, startsOf, startsOf]
        refine ⟨first, fun none_ => ?_⟩
        have past : block.ends = true ∨ block.stops = true := by
          simp only [Block.last, none_ block List.mem_cons_self, Bool.or_false, Bool.or_eq_true] at last
          exact last
        obtain ⟨after, done, limit⟩ := walk_block_done crc32 bytes _ block pos ar there within past
        rw [done]
        refine ⟨rfl, fun other member stops => ?_⟩
        obtain rfl := List.mem_singleton.mp member
        exact limit stops
      · have on := Bool.eq_false_iff.mpr last
        obtain ⟨after, stepped⟩ := walk_block_next crc32 bytes _ block pos ar there within on
        have further : bytes.drop (pos + block.encode.length) = layout rest ++ trailing := by
          rw [← List.drop_drop, there, List.drop_left]
          rfl
        have left : (∃ block ∈ rest, block.ends = true) ∨ trailing.length < 7 := by
          rcases whole with ⟨ending, member, ends⟩ | short
          · rcases List.mem_cons.mp member with rfl | later
            · rw [Block.last, ends] at on
              cases on
            · exact Or.inl ⟨ending, later, ends⟩
          · exact Or.inr short
        have again := ih count (pos + block.encode.length) after further (by omega) (Nat.le_of_succ_le_succ cap) left
        rw [stepped, reached, if_neg last, startsOf]
        refine ⟨List.cons_prefix_cons.mpr ⟨rfl, again.1⟩, fun none_ => ?_⟩
        obtain ⟨same, limits⟩ := again.2 fun other member => none_ other (List.mem_cons_of_mem _ member)
        refine ⟨congrArg (List.cons pos) same, fun other member stops => ?_⟩
        rcases List.mem_cons.mp member with rfl | later
        · simp only [Block.last, stops, Bool.or_true, Bool.true_or] at on
          cases on
        · exact limits other later stops

end Filefacts.Rar

namespace Filefacts.Rar

variable (crc32 : List UInt8 → Nat)

def Adds (before after : Archive) : Prop := ∃ more : List Member, more.length ≤ 1 ∧ after.members = before.members ++ more

theorem adds_none {before after : Archive} (same : after.members = before.members) : Adds before after :=
  ⟨[], Nat.zero_le 1, by rw [same, List.append_nil]⟩

def Walked.archive : Walked → Archive
  | .next _ ar => ar
  | .done ar => ar

variable (ar : Archive) (member : Member) (bytes : List UInt8) (pos : Nat)

theorem push_member_members :
    (pushMember ar member).members = if maxArchiveMembers ≤ ar.members.length then ar.members else ar.members ++ [member] := by
  unfold pushMember
  by_cases full : maxArchiveMembers ≤ ar.members.length
  · rw [if_pos full, if_pos full]
    split <;> rfl
  · rw [if_neg full, if_neg full]

theorem push_member_adds : Adds ar (pushMember ar member) := by
  have members := push_member_members ar member
  by_cases full : maxArchiveMembers ≤ ar.members.length
  · rw [if_pos full] at members
    exact adds_none members
  · rw [if_neg full] at members
    exact ⟨[member], Nat.le_refl 1, members⟩

theorem push_stream_adds : Adds ar (pushStream ar member) := by
  simp only [pushStream]
  split
  · split
    · exact adds_none rfl
    · exact adds_none rfl
  · obtain ⟨more, few, members⟩ := push_member_adds _ _
    exact ⟨more, few, members⟩

theorem finish_file_adds (service : Bool) : Adds ar (finishFile ar member service) := by
  unfold finishFile
  cases service with
  | false =>
      simp only [Bool.false_eq_true, if_false]
      obtain ⟨more, few, members⟩ := push_member_adds
        { (if member.path.any (· = 0xFFFE) then { ar with mappedUnix := ar.mappedUnix + 1 } else ar) with
          lastFile := some member.path } member
      refine ⟨more, few, members.trans ?_⟩
      split <;> rfl
  | true =>
      simp only [if_true]
      split
      · exact adds_none rfl
      · split
        · exact adds_none rfl
        · split
          · exact adds_none rfl
          · split
            · exact adds_none rfl
            · split
              · obtain ⟨more, few, members⟩ := push_stream_adds { ar with services := ar.services ++ [member.path] } member
                exact ⟨more, few, members⟩
              · exact adds_none rfl

theorem skip_data_members (size : Nat) (ar : Archive) : (skipData bytes pos ar size).2.members = ar.members := by
  simp only [skipData]
  split <;> rfl

theorem file_block_adds (flags headerEnd : Nat) (service : Bool) (ar : Archive) :
    Adds ar (fileBlock bytes pos flags headerEnd service ar).archive := by
  unfold fileBlock
  split
  · exact adds_none rfl
  · simp only
    split
    · exact adds_none (skip_data_members bytes headerEnd _ _)
    · split
      · split
        · obtain ⟨more, few, members⟩ := finish_file_adds _ _ service
          exact ⟨more, few, members⟩
        · obtain ⟨more, few, members⟩ := finish_file_adds _ _ service
          exact ⟨more, few, members⟩
      · obtain ⟨more, few, members⟩ := finish_file_adds _ _ service
        refine ⟨more, few, members.trans ?_⟩
        rw [skip_data_members]
        rfl

theorem typed_block_adds (htype hflags headerEnd : Nat) (ar : Archive) :
    Adds ar (typedBlock bytes pos htype hflags headerEnd ar).archive := by
  unfold typedBlock
  split
  · refine adds_none ?_
    simp only [mainBlock]
    split <;> rfl
  · split
    · exact file_block_adds bytes pos hflags headerEnd (htype = r4Newsub) ar
    · split
      · exact adds_none rfl
      · refine adds_none ?_
        simp only [otherBlock]
        split <;> rfl

theorem walk_block_adds (ar : Archive) : Adds ar (walkBlock crc32 bytes pos ar).archive := by
  unfold walkBlock
  simp only
  split
  · split
    · exact adds_none rfl
    · split
      · exact adds_none rfl
      · next storedCrc htype hflags headSize _ _ _ _ _ _ crcOf _ =>
          obtain ⟨more, few, members⟩ := typed_block_adds bytes pos htype hflags (pos + headSize)
            (if crc32 crcOf % 65536 ≠ storedCrc then { ar with headerCrcMismatch := ar.headerCrcMismatch + 1 } else ar)
          refine ⟨more, few, members.trans ?_⟩
          split <;> rfl
  · exact adds_none rfl

theorem walk_from_keeps (count pos : Nat) (ar : Archive) (member : Member) (before : member ∈ ar.members) :
    member ∈ (walkFrom crc32 bytes count pos ar).2.members := by
  induction count generalizing pos ar with
  | zero => exact before
  | succ count ih =>
      rw [walkFrom]
      split
      · exact before
      · obtain ⟨more, _, members⟩ := walk_block_adds crc32 bytes pos ar
        cases walked : walkBlock crc32 bytes pos ar with
        | done after =>
            rw [walked] at members
            exact members ▸ List.mem_append_left more before
        | next on after =>
            rw [walked] at members
            exact ih on after (members ▸ List.mem_append_left more before)

structure Records (block : Block) (start : Nat) (member : Member) : Prop where
  header : member.headerOff = start
  data : member.dataOff = start + block.header.length
  packed : member.packed = block.data.length

theorem file_block_records (rest : List UInt8) (block : Block) (pos : Nat) (ar : Archive)
    (there : bytes.drop pos = block.encode ++ rest) (within : pos ≤ bytes.length) (file : block.htype = r4File)
    (room : ar.members.length < maxArchiveMembers) :
    ∃ member ∈ (walkBlock crc32 bytes pos ar).archive.members, Records block pos member := by
  have reads := block_reads bytes rest block pos there within
  have inside := reads.inside
  obtain ⟨checked, same, dispatched⟩ := walk_block_dispatch crc32 bytes rest block pos ar reads
  have sized := block.sized
  unfold Sized at sized
  rw [if_neg (by rw [file]; decide), if_pos (Or.inl file)] at sized
  obtain ⟨head, read, packed, named⟩ := file_head_packed bytes reads.body (by omega) sized.1
  rw [dispatched, typedBlock, if_neg (by rw [file]; decide), if_pos (Or.inl file), file]
  simp only [fileBlock, read]
  rw [if_neg (show ¬ maxName < head.nameSize by omega)]
  simp only [show decide (r4File = r4Newsub) = false by decide, Bool.false_eq_true, false_and, if_false, Walked.archive, finishFile]
  rw [push_member_members, if_neg]
  · exact ⟨_, List.mem_append_right _ (List.mem_singleton_self _), rfl, by rw [header_length], packed.trans sized.2⟩
  · intro full
    split at full
    · simp only [skip_data_members, noteUnpackVersion, same] at full
      omega
    · simp only [skip_data_members, noteUnpackVersion, same] at full
      omega

theorem walk_from_records (trailing : List UInt8) (blocks : List Block) (count pos : Nat) (ar : Archive)
    (there : bytes.drop pos = layout blocks ++ trailing) (within : pos ≤ bytes.length) (cap : blocks.length ≤ count)
    (room : ar.members.length + blocks.length ≤ maxArchiveMembers) (start : Nat) (block : Block)
    (among : (start, block) ∈ (startsOf pos (reached blocks)).zip (reached blocks)) (file : block.htype = r4File) :
    ∃ member ∈ (walkFrom crc32 bytes count pos ar).2.members, Records block start member := by
  induction blocks generalizing count pos ar with
  | nil => cases among
  | cons first rest ih =>
      obtain ⟨count, rfl⟩ : ∃ less, count = less + 1 := ⟨count - 1, by rw [List.length_cons] at cap; omega⟩
      rw [layout, List.flatMap_cons, List.append_assoc] at there
      have size := congrArg List.length there
      rw [List.length_drop, List.length_append] at size
      have least := encode_least first
      have enough : ¬ remaining bytes pos < 7 := by
        unfold remaining
        omega
      rw [List.length_cons] at room
      rw [walkFrom, if_neg enough]
      have here : first.htype = r4File → ∃ member ∈ (walkBlock crc32 bytes pos ar).archive.members, Records first pos member :=
        fun file => file_block_records crc32 bytes _ first pos ar there within file (by omega)
      by_cases last : first.last = true
      · rw [reached, if_pos last, startsOf, startsOf, List.zip_cons_cons, List.zip_nil_left] at among
        obtain ⟨rfl, rfl⟩ := Prod.mk.inj (List.mem_singleton.mp among)
        obtain ⟨member, there, records⟩ := here file
        cases walked : walkBlock crc32 bytes start ar with
        | done after =>
            rw [walked] at there
            exact ⟨member, there, records⟩
        | next on after =>
            rw [walked] at there
            exact ⟨member, walk_from_keeps crc32 bytes count on after member there, records⟩
      · obtain ⟨after, stepped⟩ := walk_block_next crc32 bytes _ first pos ar there within (Bool.eq_false_iff.mpr last)
        have further : bytes.drop (pos + first.encode.length) = layout rest ++ trailing := by
          rw [← List.drop_drop, there, List.drop_left]
          rfl
        obtain ⟨more, few, members⟩ := walk_block_adds crc32 bytes pos ar
        rw [stepped] at members here ⊢
        have count_ := congrArg List.length members
        simp only [Walked.archive, List.length_append] at count_
        rw [reached, if_neg last, startsOf, List.zip_cons_cons] at among
        rcases List.mem_cons.mp among with same | later
        · obtain ⟨rfl, rfl⟩ := Prod.mk.inj same
          obtain ⟨member, there, records⟩ := here file
          exact ⟨member, walk_from_keeps crc32 bytes count _ after member there, records⟩
        · exact ih count (pos + first.encode.length) after further (by omega) (Nat.le_of_succ_le_succ cap) (by omega) later

theorem walk_rar4_headers (front trailing : List UInt8) (blocks : List Block) (ar : Archive) (cap : blocks.length ≤ maxBlocks)
    (whole : (∃ block ∈ blocks, block.ends = true) ∨ trailing.length < 7) :
    startsOf front.length (reached blocks) <+: headerStarts crc32 (front ++ layout blocks ++ trailing) front.length ar ∧
      ((∀ block ∈ blocks, block.adds = false) →
        headerStarts crc32 (front ++ layout blocks ++ trailing) front.length ar = startsOf front.length (reached blocks) ∧
          ∀ block ∈ reached blocks, block.stops = true →
            ∃ reason, ("unknown-header", reason) ∈
              (walkRar4 crc32 (front ++ layout blocks ++ trailing) front.length ar).limits) ∧
      (ar.members.length + blocks.length ≤ maxArchiveMembers →
        ∀ start block, (start, block) ∈ (startsOf front.length (reached blocks)).zip (reached blocks) → block.htype = r4File →
          ∃ member ∈ (walkRar4 crc32 (front ++ layout blocks ++ trailing) front.length ar).members, Records block start member) := by
  have there : (front ++ layout blocks ++ trailing).drop front.length = layout blocks ++ trailing := by
    rw [List.append_assoc, List.drop_left]
  have within : front.length ≤ (front ++ layout blocks ++ trailing).length := by
    rw [List.append_assoc, List.length_append]
    omega
  obtain ⟨first, exactly⟩ :=
    walk_from_reached crc32 _ trailing blocks maxBlocks front.length ar there within cap whole
  exact ⟨first, exactly, fun room start block among file =>
    walk_from_records crc32 _ trailing blocks maxBlocks front.length ar there within cap room start block among file⟩

def endBlock : Block :=
  ⟨0x3DC4, 0x7B, 0x4000, [], [], by decide, by decide, by decide, by decide, by unfold Sized; decide⟩

def authenticityBlock : Block :=
  ⟨0x74B5, 0x76, 0, [], [], by decide, by decide, by decide, by decide, by unfold Sized; decide⟩

def recoveryBlock : Block :=
  ⟨0x47BD, 0x78, 0x8000, [8, 0, 0, 0], [0, 0, 0, 0, 0, 0, 0, 0], by decide, by decide, by decide, by decide, by unfold Sized; decide⟩

theorem walk_rar4_headers_authenticity :
    headerStarts (fun _ => 0xFFF174B5) (layout [authenticityBlock, endBlock]) 0 (.empty 0) = [0] :=
  ((walk_rar4_headers (fun _ => 0xFFF174B5) [] [] [authenticityBlock, endBlock] (.empty 0) (by decide +kernel)
    (Or.inr (by decide))).2.1 (by decide)).1

theorem walk_rar4_headers_missed :
    headerStarts (fun _ => 0xFFF174B5) (layout [authenticityBlock, endBlock]) 0 (.empty 0) ≠ startsOf 0 [authenticityBlock, endBlock] ∧
      headerStarts (fun _ => 0x8A1747BD) (layout [recoveryBlock, endBlock]) 0 (.empty 0) ≠ startsOf 0 [recoveryBlock, endBlock] := by
  decide +kernel

end Filefacts.Rar
