import Filefacts.Structured.Document

set_option autoImplicit false

namespace Filefacts.Structured

open Filefacts.Output (Text)

def Outcome.Returns {Value : Type} (outcome : Outcome Value) (done : Value → Nat → Composer → Prop) : Prop :=
  ∀ value pos composer, outcome = .done value pos composer → done value pos composer

variable {Value : Type}

theorem returns_done (value : Value) (pos : Nat) (composer : Composer) (done : Value → Nat → Composer → Prop)
    (holds : done value pos composer) : (Outcome.done value pos composer).Returns done := by
  intro value' pos' composer' same
  cases same
  exact holds

theorem returns_bind {Next : Type} (outcome : Outcome Value) (next : Value → Nat → Composer → Outcome Next)
    (middle : Value → Nat → Composer → Prop) (done : Next → Nat → Composer → Prop) (first : outcome.Returns middle)
    (later : ∀ value pos composer, middle value pos composer → (next value pos composer).Returns done) :
    (outcome.bind next).Returns done := by
  cases outcome with
  | spent => exact nofun
  | failed message pos composer => exact nofun
  | done value pos composer => exact later value pos composer (first value pos composer rfl)

mutual

theorem nodes_within {doc child : Doc} (inner : child ∈ doc.nodes) : ∀ root : Doc, doc ∈ root.nodes → child ∈ root.nodes
  | .aliasOf _ _, member => List.mem_singleton.mp member ▸ inner
  | .scalar _ _ _ _ _, member => List.mem_singleton.mp member ▸ inner
  | .sequence _ _ items _ _, member => by
      rcases List.mem_cons.mp member with same | below
      · exact same ▸ inner
      · exact List.mem_cons_of_mem _ (items_within inner items below)
  | .mapping _ _ entries _ _, member => by
      rcases List.mem_cons.mp member with same | below
      · exact same ▸ inner
      · exact List.mem_cons_of_mem _ (entries_within inner entries below)

theorem items_within {doc child : Doc} (inner : child ∈ doc.nodes) : ∀ items : List Doc, doc ∈ itemsNodes items → child ∈ itemsNodes items
  | [], member => nomatch member
  | item :: rest, member => by
      rw [itemsNodes] at member ⊢
      rcases List.mem_append.mp member with here | later
      · exact List.mem_append_left _ (nodes_within inner item here)
      · exact List.mem_append_right _ (items_within inner rest later)

theorem entries_within {doc child : Doc} (inner : child ∈ doc.nodes) :
    ∀ entries : List (Doc × Doc), doc ∈ entriesNodes entries → child ∈ entriesNodes entries
  | [], member => nomatch member
  | entry :: rest, member => by
      rw [entriesNodes] at member ⊢
      rcases List.mem_append.mp member with here | later
      · exact List.mem_append_left _ (entry_within doc child inner entry here)
      · exact List.mem_append_right _ (entries_within inner rest later)

theorem entry_within (doc child : Doc) (inner : child ∈ doc.nodes) : ∀ entry : Doc × Doc, doc ∈ entryNodes entry → child ∈ entryNodes entry
  | (key, value), member => by
      rw [entryNodes] at member ⊢
      rcases List.mem_append.mp member with here | later
      · exact List.mem_append_left _ (nodes_within inner key here)
      · exact List.mem_append_right _ (nodes_within inner value later)

end

theorem node_self (doc : Doc) : doc ∈ doc.nodes := by
  cases doc with
  | aliasOf id span => exact List.mem_singleton_self _
  | scalar value style anchor tag span => exact List.mem_singleton_self _
  | sequence anchor tag items start stop => exact List.mem_cons_self
  | mapping anchor tag entries start stop => exact List.mem_cons_self

theorem item_nodes (items : List Doc) (item : Doc) (member : item ∈ items) : item ∈ itemsNodes items := by
  induction items with
  | nil => cases member
  | cons first rest hypothesis =>
      rw [itemsNodes]
      rcases List.mem_cons.mp member with same | later
      · exact List.mem_append_left _ (same ▸ node_self item)
      · exact List.mem_append_right _ (hypothesis later)

theorem entry_nodes (entries : List (Doc × Doc)) (entry : Doc × Doc) (member : entry ∈ entries) :
    entry.1 ∈ entriesNodes entries ∧ entry.2 ∈ entriesNodes entries := by
  induction entries with
  | nil => cases member
  | cons first rest hypothesis =>
      rw [entriesNodes]
      rcases List.mem_cons.mp member with same | later
      · subst same
        obtain ⟨key, value⟩ := entry
        exact ⟨List.mem_append_left _ (List.mem_append_left _ (node_self key)),
          List.mem_append_left _ (List.mem_append_right _ (node_self value))⟩
      · exact ⟨List.mem_append_right _ (hypothesis later).1, List.mem_append_right _ (hypothesis later).2⟩

def Event.ends (event : Event) : Bool := event = .sequenceEnd || event = .mappingEnd

theorem doc_events (doc : Doc) : ∃ entry rest, doc.events = entry :: rest ∧ entry.1.ends = false := by
  cases doc with
  | aliasOf id span => exact ⟨_, _, rfl, rfl⟩
  | scalar value style anchor tag span => exact ⟨_, _, rfl, rfl⟩
  | sequence anchor tag items start stop => exact ⟨_, _, rfl, rfl⟩
  | mapping anchor tag entries start stop => exact ⟨_, _, rfl, rfl⟩

variable {F : Type} (std : Std F) (root : Doc) (events : List (Event × Span))

variable {doc : Doc} {rest : List (Event × Span)} {pos : Nat}

theorem unrolls_cons {value : Yaml F} {rest : List Doc} {values : List (Yaml F)} (first : Unrolls std root doc value)
    (later : UnrollsAll std root rest values) : UnrollsAll std root (doc :: rest) (value :: values) := by
  cases first with
  | aliasOf id span doc' _ _ _ named copy _ => exact .aliasOf id span doc' value rest values named copy later
  | scalar text style anchor tag span node _ _ resolves _ => exact .scalar text style anchor tag span node rest values resolves later
  | sequence anchor tag items start stop inner _ _ below _ => exact .sequence anchor tag items start stop inner rest values below later
  | mapping anchor tag entries start stop inner _ _ below _ => exact .mapping anchor tag entries start stop inner rest values below later

def Placed (composer : Composer) : Prop :=
  ∀ id start, composer.anchored id = some start → ∃ doc rest, Named root id doc ∧ events.drop start = doc.events ++ rest

theorem placed_same {before after : Composer} (same : after.anchors = before.anchors) (placed : Placed root events before) :
    Placed root events after := by
  intro id start found
  rw [Composer.anchored, same] at found
  exact placed id start found

theorem anchored_insert (anchors : List (Nat × Nat)) (id start other : Nat) :
    ((id, start) :: anchors.filter fun held => decide (held.1 ≠ id)).find? (fun held => decide (held.1 = other)) =
      if id = other then some (id, start) else anchors.find? fun held => decide (held.1 = other) := by
  rw [List.find?_cons]
  by_cases same : id = other
  · rw [decide_eq_true same, if_pos same]
  · rw [decide_eq_false same, if_neg same, List.find?_filter]
    refine congrArg (fun test => List.find? test anchors) (funext fun held => ?_)
    by_cases named : held.1 = other
    · have apart : ¬ other = id := fun equal => same equal.symm
      simp [named, apart]
    · simp only [named, decide_false, Bool.false_eq_true, and_false]

theorem placed_anchor {composer : Composer} {id start : Nat} (node : doc ∈ root.nodes)
    (anchor : doc.anchor = id) (there : events.drop start = doc.events ++ rest) (placed : Placed root events composer) :
    Placed root events (composer.anchor id start) := by
  unfold Composer.anchor
  split
  · next held =>
      intro other found here
      simp only [Composer.anchored, anchored_insert] at here
      by_cases same : id = other
      · rw [if_pos same] at here
        subst same
        have equal : start = found := Option.some.inj here
        exact ⟨doc, rest, ⟨node, anchor, held.1⟩, equal ▸ there⟩
      · rw [if_neg same] at here
        exact placed other found here
  · exact placed

theorem take_returns (pos : Nat) (composer : Composer) :
    (take events pos composer).Returns fun entry after composer' =>
      events[pos]? = some entry ∧ after = pos + 1 ∧ composer'.anchors = composer.anchors := by
  unfold take
  cases read : events[pos]? with
  | none => exact nofun
  | some entry =>
      simp only
      split
      · exact returns_done _ _ _ _ ⟨rfl, rfl, rfl⟩
      · split
        · exact nofun
        · split
          · split
            · exact nofun
            · exact returns_done _ _ _ _ ⟨rfl, rfl, rfl⟩
          · exact returns_done _ _ _ _ ⟨rfl, rfl, rfl⟩

theorem is_end_drop {entry : Event × Span} (there : events.drop pos = entry :: rest) : isEnd events pos = entry.1.ends := by
  have read : events[pos]? = some entry := by rw [← List.head?_drop, there, List.head?_cons]
  rw [isEnd, read]
  rfl

theorem drop_step {front back : List (Event × Span)} (there : events.drop pos = front ++ back) :
    events.drop (pos + front.length) = back := by
  rw [← List.drop_drop, there, List.drop_left]

def Reads (node : Nat → Composer → Outcome (Yaml F)) : Prop :=
  ∀ pos composer doc rest, doc ∈ root.nodes → events.drop pos = doc.events ++ rest → Placed root events composer →
    (node pos composer).Returns fun value after composer' =>
      Unrolls std root doc value ∧ after = pos + doc.events.length ∧ Placed root events composer'

theorem items_returns (node : Nat → Composer → Outcome (Yaml F)) (reads : Reads std root events node) (turns : Nat) :
    ∀ (docs : List Doc) (held : List (Yaml F)) (pos : Nat) (composer : Composer) (stop : Event × Span) (rest : List (Event × Span)),
      (∀ doc ∈ docs, doc ∈ root.nodes) → stop.1.ends = true → events.drop pos = itemsEvents docs ++ stop :: rest →
      Placed root events composer →
      (items events node turns held pos composer).Returns fun all after composer' =>
        ∃ values, all = held ++ values ∧ UnrollsAll std root docs values ∧ after = pos + (itemsEvents docs).length ∧
          Placed root events composer' := by
  induction turns with
  | zero => exact fun _ _ _ _ _ _ _ _ _ _ => nofun
  | succ turns hypothesis =>
      intro docs held pos composer stop rest within ends there placed
      rw [items]
      cases docs with
      | nil =>
          rw [is_end_drop events there, if_pos ends]
          exact returns_done _ _ _ _ ⟨[], (List.append_nil held).symm, .nil, rfl, placed⟩
      | cons doc docs =>
          rw [itemsEvents, List.append_assoc] at there
          obtain ⟨entry, more, begins, notEnd⟩ := doc_events doc
          have stands : events.drop pos = entry :: (more ++ (itemsEvents docs ++ stop :: rest)) := by
            rw [there, begins, List.cons_append]
          rw [is_end_drop events stands, if_neg (Bool.eq_false_iff.mp notEnd)]
          refine returns_bind _ _ _ _ (reads pos composer doc _ (within doc List.mem_cons_self) there placed) ?_
          rintro value after composer' ⟨unrolls, rfl, placed'⟩
          have further := hypothesis docs (held ++ [value]) (pos + doc.events.length) composer' stop rest
            (fun other member => within other (List.mem_cons_of_mem _ member)) ends (drop_step events there) placed'
          intro all last composer'' ran
          obtain ⟨values, rfl, later, rfl, placed''⟩ := further all last composer'' ran
          refine ⟨value :: values, List.append_assoc _ _ _, unrolls_cons std root unrolls later, ?_, placed''⟩
          rw [itemsEvents, List.length_append, Nat.add_assoc]

theorem entries_returns (node : Nat → Composer → Outcome (Yaml F)) (reads : Reads std root events node) (turns : Nat) :
    ∀ (docs : List (Doc × Doc)) (held : List (Yaml F × Yaml F)) (seen : List Text) (pos : Nat) (composer : Composer)
      (stop : Event × Span) (rest : List (Event × Span)),
      (∀ doc ∈ docs, doc.1 ∈ root.nodes ∧ doc.2 ∈ root.nodes) → stop.1.ends = true →
      events.drop pos = entriesEvents docs ++ stop :: rest → Placed root events composer →
      (entries std events node turns held seen pos composer).Returns fun all after composer' =>
        ∃ values, all = held ++ values ∧ UnrollsAll std root (flat docs) (flat values) ∧
          after = pos + (entriesEvents docs).length ∧ Placed root events composer' := by
  induction turns with
  | zero => exact fun _ _ _ _ _ _ _ _ _ _ _ => nofun
  | succ turns hypothesis =>
      intro docs held seen pos composer stop rest within ends there placed
      rw [entries]
      cases docs with
      | nil =>
          rw [is_end_drop events there, if_pos ends]
          exact returns_done _ _ _ _ ⟨[], (List.append_nil held).symm, .nil, rfl, placed⟩
      | cons doc docs =>
          obtain ⟨key, value⟩ := doc
          rw [entriesEvents, entryEvents, List.append_assoc, List.append_assoc] at there
          obtain ⟨entry, more, begins, notEnd⟩ := doc_events key
          have stands : events.drop pos = entry :: (more ++ (value.events ++ (entriesEvents docs ++ stop :: rest))) := by
            rw [there, begins, List.cons_append]
          rw [is_end_drop events stands, if_neg (Bool.eq_false_iff.mp notEnd)]
          obtain ⟨keyNode, valueNode⟩ := within (key, value) List.mem_cons_self
          refine returns_bind _ _ _ _ (reads pos composer key _ keyNode there placed) ?_
          rintro keyValue after composer' ⟨keyUnrolls, rfl, placed'⟩
          split
          · exact nofun
          · have past := drop_step events there
            refine returns_bind _ _ _ _ (reads _ composer' value _ valueNode past placed') ?_
            rintro itsValue after' composer'' ⟨valueUnrolls, rfl, placed''⟩
            have further := hypothesis docs (held ++ [(keyValue, itsValue)]) (keyIdentity std keyValue :: seen) _ composer'' stop rest
              (fun other member => within other (List.mem_cons_of_mem _ member)) ends (drop_step events past) placed''
            intro all last composer3 ran
            obtain ⟨values, rfl, later, rfl, placed3⟩ := further all last composer3 ran
            refine ⟨(keyValue, itsValue) :: values, List.append_assoc _ _ _, ?_, ?_, placed3⟩
            · exact unrolls_cons std root keyUnrolls (unrolls_cons std root valueUnrolls later)
            · rw [entriesEvents, entryEvents, List.length_append, List.length_append]
              omega

theorem node_reads (levels : Nat) : ∀ depth, Reads std root events (node std events levels depth) := by
  induction levels with
  | zero => exact fun _ _ _ _ _ _ _ _ => nofun
  | succ levels hypothesis =>
      intro depth pos composer doc rest member there placed
      rw [node]
      refine returns_bind _ _ _ _ (take_returns events pos composer) ?_
      rintro entry after composer' ⟨read, rfl, anchors⟩
      have placed' := placed_same root events anchors placed
      rw [← List.head?_drop, there] at read
      cases doc with
      | aliasOf id span =>
          cases read
          simp only
          cases found : composer'.anchored id with
          | none => exact nofun
          | some start =>
              simp only
              obtain ⟨copied, more, named, stands⟩ := placed' id start found
              have reads := hypothesis depth start { composer' with replaying := composer'.replaying + 1 } copied more named.node
                stands (placed_same root events rfl placed')
              cases ran : node std events levels depth start { composer' with replaying := composer'.replaying + 1 } with
              | spent => exact nofun
              | failed message _ last => exact nofun
              | done value last composer'' =>
                  obtain ⟨copy, _, kept⟩ := reads value last composer'' ran
                  refine returns_done _ _ _ _ ⟨?_, rfl, placed_same root events rfl kept⟩
                  exact .aliasOf id span copied value [] [] named copy .nil
      | scalar value style anchor tag span =>
          cases read
          simp only
          split
          · exact nofun
          · next scalar resolves =>
              refine returns_done _ _ _ _ ⟨.scalar value style anchor tag span scalar [] [] resolves .nil, rfl, ?_⟩
              exact placed_same root events rfl
                (placed_anchor root events member rfl there placed')
      | sequence anchor tag docs start stop =>
          cases read
          simp only
          split
          · exact nofun
          · have inner : events.drop (pos + 1) = itemsEvents docs ++ (.sequenceEnd, stop) :: rest := by
              rw [← List.drop_drop, there, Doc.events]
              simp
            have within : ∀ doc ∈ docs, doc ∈ root.nodes := fun doc listed =>
              nodes_within (List.mem_cons_of_mem _ (item_nodes docs doc listed)) root member
            refine returns_bind _ _ _ _ (items_returns std root events _ (hypothesis (depth + 1)) _ docs [] (pos + 1) _ _ rest within
              rfl inner (placed_anchor root events member rfl there placed')) ?_
            rintro all last composer'' ⟨values, same, unrolls, rfl, kept⟩
            rw [List.nil_append] at same
            subst same
            refine returns_bind _ _ _ _ (take_returns events _ composer'') ?_
            rintro _ final composer3 ⟨_, rfl, same⟩
            refine returns_done _ _ _ _ ⟨.sequence anchor tag docs start stop all [] [] unrolls .nil, ?_, ?_⟩
            · rw [Doc.events, List.length_append, List.length_cons, List.length_singleton]
              omega
            · exact placed_same root events rfl (placed_same root events same kept)
      | mapping anchor tag docs start stop =>
          cases read
          simp only
          split
          · exact nofun
          · have inner : events.drop (pos + 1) = entriesEvents docs ++ (.mappingEnd, stop) :: rest := by
              rw [← List.drop_drop, there, Doc.events]
              simp
            have within : ∀ doc ∈ docs, doc.1 ∈ root.nodes ∧ doc.2 ∈ root.nodes := fun doc listed =>
              ⟨nodes_within (List.mem_cons_of_mem _ (entry_nodes docs doc listed).1) root member,
                nodes_within (List.mem_cons_of_mem _ (entry_nodes docs doc listed).2) root
                  member⟩
            refine returns_bind _ _ _ _ (entries_returns std root events _ (hypothesis (depth + 1)) _ docs [] [] (pos + 1) _ _ rest
              within rfl inner (placed_anchor root events member rfl there placed')) ?_
            rintro all last composer'' ⟨values, same, unrolls, rfl, kept⟩
            rw [List.nil_append] at same
            subst same
            refine returns_bind _ _ _ _ (take_returns events _ composer'') ?_
            rintro _ final composer3 ⟨_, rfl, same⟩
            refine returns_done _ _ _ _ ⟨.mapping anchor tag docs start stop all [] [] unrolls .nil, ?_, ?_⟩
            · rw [Doc.events, List.length_append, List.length_cons, List.length_singleton]
              omega
            · exact placed_same root events rfl (placed_same root events same kept)

end Filefacts.Structured
