import Mathlib.Data.List.Induction

set_option autoImplicit false

namespace Filefacts.FirstCome

universe u

variable {Item : Type u} (clash : Item → Item → Bool)

-- First come, first served among the first `cap` items: an item that is ready
-- is served unless it clashes with one served before it.
def serve (ready : Item → Bool) (served : List Item) (item : Item) : List Item :=
  if ready item && !served.any (clash item) then served ++ [item] else served

def serveAll (cap : Nat) (ready : Item → Bool) (items : List Item) : List Item :=
  (items.take cap).foldl (serve clash ready) []

variable (cap : Nat) (ready : Item → Bool) (front : List Item)

theorem serve_all_snoc (item : Item) : serveAll clash cap ready (front ++ [item]) =
      if front.length < cap then serve clash ready (serveAll clash cap ready front) item else serveAll clash cap ready front := by
  unfold serveAll
  by_cases room : front.length < cap
  · have whole : (front ++ [item]).take cap = front ++ [item] := List.take_of_length_le (by simp; omega)
    rw [if_pos room, whole, List.foldl_append, List.foldl_cons, List.foldl_nil, List.take_of_length_le (Nat.le_of_lt room)]
  · rw [if_neg room, List.take_append_of_le_length (Nat.le_of_not_lt room)]

theorem serve_extends (served : List Item) (item : Item) : served <+: serve clash ready served item := by
  unfold serve
  split
  · exact List.prefix_append served [item]
  · exact List.prefix_rfl

variable (back : List Item)

theorem serve_all_extends : serveAll clash cap ready front <+: serveAll clash cap ready (front ++ back) := by
  induction back using List.reverseRecOn with
  | nil => simp
  | append_singleton back item ih =>
      rw [← List.append_assoc, serve_all_snoc]
      split
      · exact ih.trans (serve_extends clash ready _ item)
      · exact ih

theorem serve_all_member {items : List Item} {item : Item}
    (member : item ∈ serveAll clash cap ready items) : item ∈ items := by
  induction items using List.reverseRecOn with
  | nil => simp [serveAll] at member
  | append_singleton items last ih =>
      rw [serve_all_snoc] at member
      have either : item ∈ serveAll clash cap ready items ∨ item = last := by
        unfold serve at member
        split at member
        · split at member
          · simpa using member
          · exact .inl member
        · exact .inl member
      rcases either with earlier | rfl
      · exact List.mem_append_left _ (ih earlier)
      · simp

theorem serve_all_refused (item : Item)
    (refused : cap ≤ front.length ∨ ∃ other ∈ serveAll clash cap ready front, clash item other = true)
    (absent : item ∉ serveAll clash cap ready front) : item ∉ serveAll clash cap ready (front ++ back) := by
  induction back using List.reverseRecOn with
  | nil => simpa using absent
  | append_singleton back last ih =>
      rw [← List.append_assoc, serve_all_snoc]
      split
      · next room =>
          unfold serve
          split
          · next served =>
              intro member
              rcases List.mem_append.mp member with earlier | now
              · exact ih earlier
              · obtain rfl : item = last := by simpa using now
                rcases refused with late | ⟨other, otherServed, clashes⟩
                · rw [List.length_append] at room
                  omega
                · have still := (serve_all_extends clash cap ready front back).subset otherServed
                  simp only [Bool.and_eq_true, Bool.not_eq_true', List.any_eq_false] at served
                  exact served.2 other still clashes
          · exact ih
      · exact ih

section Runs

-- Two queues with the same privileged items, in the same order, and whatever
-- others between them.
variable (privileged : Item → Bool) (cap : Nat) (ready ready' : Item → Bool)

def Contends (front : List Item) (item : Item) : Prop :=
  ready item = true ∧ ∀ rival ∈ serveAll clash cap ready front, privileged rival = true → clash item rival = false

def Shadowed (front : List Item) (item : Item) : Prop :=
  cap ≤ front.length ∨ ∃ other ∈ serveAll clash cap ready front, privileged other = false ∧ clash item other = true

def Steady (front front' rest rest' : List Item) : Prop :=
  ∀ mid item back mid' back', rest = mid ++ item :: back → rest' = mid' ++ item :: back' →
    mid.filter privileged = mid'.filter privileged → privileged item = true →
      Contends clash privileged cap ready (front ++ mid) item →
        (Shadowed clash privileged cap ready (front ++ mid) item ↔ Shadowed clash privileged cap ready' (front' ++ mid') item)

abbrev privilegedServed (items : List Item) : List Item := (serveAll clash cap ready items).filter privileged

variable (front front' : List Item)

theorem served_others {others : List Item} (plain : ∀ item ∈ others, privileged item = false) :
    privilegedServed clash privileged cap ready (front ++ others) = privilegedServed clash privileged cap ready front := by
  induction others using List.reverseRecOn with
  | nil => simp
  | append_singleton others last ih =>
      have before := ih fun item member => plain item (List.mem_append_left _ member)
      have lastPlain := plain last (by simp)
      rw [← List.append_assoc, privilegedServed, serve_all_snoc]
      split
      · unfold serve
        split
        · rw [List.filter_append, List.filter_cons_of_neg (by simp [lastPlain])]
          simpa using before
        · exact before
      · exact before

variable (item : Item) (others rest rest' : List Item) (head : Item)

theorem served_next (isPrivileged : privileged item = true) :
    (Contends clash privileged cap ready front item ∧ ¬ Shadowed clash privileged cap ready front item ∧
      privilegedServed clash privileged cap ready (front ++ [item]) = privilegedServed clash privileged cap ready front ++ [item]) ∨
    (¬ (Contends clash privileged cap ready front item ∧ ¬ Shadowed clash privileged cap ready front item) ∧
      privilegedServed clash privileged cap ready (front ++ [item]) = privilegedServed clash privileged cap ready front) := by
  have free : (ready item && !(serveAll clash cap ready front).any (clash item)) = true ∧ front.length < cap ↔
      Contends clash privileged cap ready front item ∧ ¬ Shadowed clash privileged cap ready front item := by
    simp only [Contends, Shadowed, Bool.and_eq_true, Bool.not_eq_true', List.any_eq_false, not_or, not_exists, not_and, Nat.not_le]
    constructor
    · rintro ⟨⟨isReady, none⟩, room⟩
      exact ⟨⟨isReady, fun rival member _ => by simpa using none rival member⟩, room, fun other member _ => none other member⟩
    · rintro ⟨⟨isReady, rivals⟩, room, others⟩
      refine ⟨⟨isReady, fun other member => ?_⟩, room⟩
      cases kind : privileged other with
      | false => exact others other member kind
      | true => simp [rivals other member kind]
  rw [privilegedServed, serve_all_snoc, ← free]
  by_cases room : front.length < cap
  · by_cases served : (ready item && !(serveAll clash cap ready front).any (clash item)) = true
    · have both := free.mp ⟨served, room⟩
      refine .inl ⟨both.1, both.2, ?_⟩
      rw [if_pos room, serve, if_pos served, List.filter_append, List.filter_cons_of_pos isPrivileged, List.filter_nil]
    · refine .inr ⟨fun both => served both.1, ?_⟩
      rw [if_pos room, serve, if_neg served]
  · exact .inr ⟨fun both => room both.2, by rw [if_neg room]⟩

theorem served_member (back : List Item) (item : Item) (isPrivileged : privileged item = true)
    (contends : Contends clash privileged cap ready front item) (clear : ¬ Shadowed clash privileged cap ready front item) :
    item ∈ serveAll clash cap ready (front ++ [item] ++ back) := by
  rcases served_next clash privileged cap ready front item isPrivileged with ⟨_, _, served⟩ | ⟨refused, _⟩
  · have now : item ∈ privilegedServed clash privileged cap ready (front ++ [item]) := by
      rw [served]
      simp
    exact (serve_all_extends clash cap ready (front ++ [item]) back).subset (List.mem_filter.mp now).1
  · exact absurd ⟨contends, clear⟩ refused

theorem contends_same (agree : ready' item = ready item)
    (same : privilegedServed clash privileged cap ready front = privilegedServed clash privileged cap ready' front') :
    Contends clash privileged cap ready front item ↔ Contends clash privileged cap ready' front' item := by
  have rivals : ∀ rival, (rival ∈ serveAll clash cap ready front ∧ privileged rival = true) ↔
      (rival ∈ serveAll clash cap ready' front' ∧ privileged rival = true) := by
    intro rival
    rw [← List.mem_filter, ← List.mem_filter]
    exact Iff.of_eq (congrArg (rival ∈ ·) same)
  unfold Contends
  rw [agree]
  exact and_congr_right fun _ => ⟨fun all rival member kind => all rival ((rivals rival).mpr ⟨member, kind⟩).1 kind,
    fun all rival member kind => all rival ((rivals rival).mp ⟨member, kind⟩).1 kind⟩

theorem plain_prefix_unique (others' back back' : List Item) (item item' : Item)
    (plain : ∀ other ∈ others, privileged other = false) (plain' : ∀ other ∈ others', privileged other = false)
    (isPrivileged : privileged item = true) (isPrivileged' : privileged item' = true)
    (same : others ++ item :: back = others' ++ item' :: back') : others = others' ∧ item = item' ∧ back = back' := by
  induction others generalizing others' with
  | nil =>
      cases others' with
      | nil => simpa using same
      | cons other others' =>
          obtain ⟨rfl, _⟩ := List.cons.inj same
          cases isPrivileged.symm.trans (plain' item List.mem_cons_self)
  | cons other others ih =>
      cases others' with
      | nil =>
          obtain ⟨rfl, _⟩ := List.cons.inj same
          cases isPrivileged'.symm.trans (plain other List.mem_cons_self)
      | cons other' others' =>
          obtain ⟨rfl, rest⟩ := List.cons.inj same
          obtain ⟨rfl, both⟩ := ih others' (fun item member => plain item (List.mem_cons_of_mem _ member))
            (fun item member => plain' item (List.mem_cons_of_mem _ member)) rest
          exact ⟨rfl, both⟩

theorem steady_plain (plain : privileged head = false) :
    Steady clash privileged cap ready ready' front front' (head :: rest) rest' ↔
      Steady clash privileged cap ready ready' (front ++ [head]) front' rest rest' := by
  have shift : ∀ mid, front ++ head :: mid = front ++ [head] ++ mid := fun mid => by simp
  constructor
  · intro steady mid item back mid' back' split split' aligned isPrivileged
    have here := steady (head :: mid) item back mid' back' (by rw [split, List.cons_append]) split'
      (by rw [List.filter_cons_of_neg (by simp [plain]), aligned]) isPrivileged
    rwa [shift mid] at here
  · intro steady mid item back mid' back' split split' aligned isPrivileged
    cases mid with
    | nil =>
        obtain ⟨rfl, _⟩ := List.cons.inj split
        cases isPrivileged.symm.trans plain
    | cons first mid =>
        obtain ⟨rfl, later⟩ := List.cons.inj split
        rw [List.filter_cons_of_neg (by simp [plain])] at aligned
        rw [shift mid]
        exact steady mid item back mid' back' later split' aligned isPrivileged

theorem steady_privileged (isPrivileged : privileged head = true) (plain : ∀ other ∈ others, privileged other = false) :
    Steady clash privileged cap ready ready' front front' (head :: rest) (others ++ head :: rest') ↔
      (Contends clash privileged cap ready front head →
        (Shadowed clash privileged cap ready front head ↔ Shadowed clash privileged cap ready' (front' ++ others) head)) ∧
      Steady clash privileged cap ready ready' (front ++ [head]) (front' ++ others ++ [head]) rest rest' := by
  have none : others.filter privileged = [] := List.filter_eq_nil_iff.mpr fun other member => by simp [plain other member]
  constructor
  · intro steady
    constructor
    · intro contends
      simpa using steady [] head rest others rest' rfl rfl (by rw [none]; rfl) isPrivileged (by simpa using contends)
    · intro mid item back mid' back' split split' aligned itemPrivileged
      have here := steady (head :: mid) item back (others ++ head :: mid') back' (by rw [split, List.cons_append])
        (by rw [split']; simp) (by simp [none, isPrivileged, aligned]) itemPrivileged
      simpa using here
  · rintro ⟨now, later⟩ mid item back mid' back' split split' aligned itemPrivileged
    cases mid with
    | nil =>
        obtain ⟨rfl, _⟩ := List.cons.inj split
        have plain' : ∀ other ∈ mid', privileged other = false := fun other member =>
          Bool.eq_false_iff.mpr (List.filter_eq_nil_iff.mp aligned.symm other member)
        obtain ⟨rfl, _⟩ := plain_prefix_unique privileged others mid' rest' back' head head plain plain' isPrivileged isPrivileged split'
        simpa using now
    | cons first mid =>
        obtain ⟨rfl, rest⟩ := List.cons.inj split
        rw [List.filter_cons_of_pos isPrivileged] at aligned
        obtain ⟨others', tail, rfl, plain', _, tailAligned⟩ := List.filter_eq_cons_iff.mp aligned.symm
        obtain ⟨rfl, _, rfl⟩ := plain_prefix_unique privileged others others' rest' (tail ++ item :: back') head head plain
          (fun other member => by simpa using plain' other member) isPrivileged isPrivileged (by simpa using split')
        simpa using later mid item back tail back' rest rfl tailAligned.symm itemPrivileged

variable (reflexive : ∀ item, clash item item = true)

include reflexive

theorem shadowed_lost {front : List Item} (back : List Item) {item : Item} (contends : Contends clash privileged cap ready front item)
    (isPrivileged : privileged item = true) (shadowed : Shadowed clash privileged cap ready front item) :
    item ∉ serveAll clash cap ready (front ++ back) := by
  have absent : item ∉ serveAll clash cap ready front := by
    intro member
    have := contends.2 item member isPrivileged
    rw [reflexive item] at this
    cases this
  refine serve_all_refused clash cap ready front back item ?_ absent
  rcases shadowed with late | ⟨other, served, _, clashes⟩
  · exact .inl late
  · exact .inr ⟨other, served, clashes⟩

theorem served_same_from (front front' rest rest' : List Item) (agree : ∀ item ∈ rest, privileged item = true → ready' item = ready item)
    (aligned : rest.filter privileged = rest'.filter privileged)
    (same : privilegedServed clash privileged cap ready front = privilegedServed clash privileged cap ready' front') :
    privilegedServed clash privileged cap ready (front ++ rest) = privilegedServed clash privileged cap ready' (front' ++ rest') ↔
      Steady clash privileged cap ready ready' front front' rest rest' := by
  induction rest generalizing front front' rest' with
  | nil =>
      have plain : ∀ item ∈ rest', privileged item = false := fun item member =>
        Bool.eq_false_iff.mpr (List.filter_eq_nil_iff.mp aligned.symm item member)
      rw [served_others clash privileged cap ready' front' plain, List.append_nil]
      refine ⟨fun _ mid item back mid' back' split => absurd split (by simp), fun _ => same⟩
  | cons head rest ih =>
      have shift : front ++ head :: rest = front ++ [head] ++ rest := by simp
      have agreeRest := fun item member => agree item (List.mem_cons_of_mem head member)
      cases kind : privileged head with
      | false =>
          rw [shift, steady_plain clash privileged cap ready ready' front front' rest rest' head kind]
          refine ih (front ++ [head]) front' rest' agreeRest ?_ ?_
          · rwa [List.filter_cons_of_neg (by simp [kind])] at aligned
          · rwa [served_others clash privileged cap ready front (by simpa using kind)]
      | true =>
          rw [List.filter_cons_of_pos kind] at aligned
          obtain ⟨others, tail, rfl, plain, _, tailAligned⟩ := List.filter_eq_cons_iff.mp aligned.symm
          have plainOthers : ∀ other ∈ others, privileged other = false := fun other member => by simpa using plain other member
          have before : privilegedServed clash privileged cap ready front =
              privilegedServed clash privileged cap ready' (front' ++ others) := by
            rw [served_others clash privileged cap ready' front' plainOthers, same]
          have contends := contends_same clash privileged cap ready ready' front (front' ++ others) head
            (agree head List.mem_cons_self kind) before
          have shift' : front' ++ (others ++ head :: tail) = front' ++ others ++ [head] ++ tail := by simp
          rw [shift, shift', steady_privileged clash privileged cap ready ready' front front' others rest tail head kind plainOthers]
          have step := served_next clash privileged cap ready front head kind
          have step' := served_next clash privileged cap ready' (front' ++ others) head kind
          by_cases stands : Contends clash privileged cap ready front head
          · have stands' := contends.mp stands
            by_cases steady : Shadowed clash privileged cap ready front head ↔
                Shadowed clash privileged cap ready' (front' ++ others) head
            · rw [and_iff_right fun _ => steady]
              refine ih (front ++ [head]) (front' ++ others ++ [head]) tail agreeRest tailAligned.symm ?_
              rcases step with ⟨_, shown, served⟩ | ⟨refused, kept⟩
              · rcases step' with ⟨_, _, served'⟩ | ⟨refused', _⟩
                · rw [served, served', before]
                · exact absurd ⟨stands', fun hidden => shown (steady.mpr hidden)⟩ refused'
              · rcases step' with ⟨_, shown', _⟩ | ⟨_, kept'⟩
                · exact absurd ⟨stands, fun hidden => shown' (steady.mp hidden)⟩ refused
                · rw [kept, kept', before]
            · -- One queue serves the item now, and the other never will.
              refine iff_of_false (fun equal => ?_) fun both => steady (both.1 stands)
              have members : head ∈ serveAll clash cap ready (front ++ [head] ++ rest) ↔
                  head ∈ serveAll clash cap ready' (front' ++ others ++ [head] ++ tail) := by
                have inBoth := congrArg (head ∈ ·) equal
                simpa only [List.mem_filter, kind, and_true, eq_iff_iff] using inBoth
              by_cases hidden : Shadowed clash privileged cap ready front head
              · have shown' : ¬ Shadowed clash privileged cap ready' (front' ++ others) head := fun hidden' =>
                  steady (iff_of_true hidden hidden')
                refine shadowed_lost clash privileged cap ready reflexive ([head] ++ rest) stands kind hidden ?_
                rw [← List.append_assoc, members]
                exact served_member clash privileged cap ready' (front' ++ others) tail head kind stands' shown'
              · have hidden' : Shadowed clash privileged cap ready' (front' ++ others) head := by
                  by_contra shown'
                  exact steady (iff_of_false hidden shown')
                refine shadowed_lost clash privileged cap ready' reflexive ([head] ++ tail) stands' kind hidden' ?_
                rw [← List.append_assoc, ← members]
                exact served_member clash privileged cap ready front rest head kind stands hidden
          · have stands' : ¬ Contends clash privileged cap ready' (front' ++ others) head := fun other => stands (contends.mpr other)
            rw [and_iff_right fun contending => absurd contending stands]
            refine ih (front ++ [head]) (front' ++ others ++ [head]) tail agreeRest tailAligned.symm ?_
            rcases step with ⟨contending, _⟩ | ⟨_, kept⟩
            · exact absurd contending stands
            · rcases step' with ⟨contending, _⟩ | ⟨_, kept'⟩
              · exact absurd contending stands'
              · rw [kept, kept', before]

theorem served_same_iff (items items' : List Item) (agree : ∀ item ∈ items, privileged item = true → ready' item = ready item)
    (aligned : items.filter privileged = items'.filter privileged) :
    privilegedServed clash privileged cap ready items = privilegedServed clash privileged cap ready' items' ↔
      Steady clash privileged cap ready ready' [] [] items items' := by
  simpa using served_same_from clash privileged cap ready ready' reflexive [] [] items items' agree aligned
    (by simp [privilegedServed, serveAll])

end Runs

end Filefacts.FirstCome
