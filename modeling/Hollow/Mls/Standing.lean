import Hollow.Crdt.Allowed
import Hollow.Lib.Bottleneck
import Hollow.Lib.Rekey

/-! Standing: where each current membership sits in the signed fold, by who admitted whom. The
search settles members in increasing order and finds the greatest solution of the members'
equations, which cycles of admissions leave several solutions to (`positions_greatest`). -/

namespace Hollow.Mls

open Bottleneck StableSort Rekey
open Crdt hiding Map

/-- Where a current membership sits in the fold; `⊤` sorts after every clock. -/
abbrev Pos : Type := WithTop HlcTimestamp

section Definitions

variable (s : Snapshot)

def openSpan (member : String) : Option MemberSpan :=
  (s.memberRecord[member]?.bind List.getLast?).filter (·.isOpen)

/-- The clock that opened a member's current span; its physical time alone where that is all the
span holds, the latest possible without a span. -/
def openedAt (member : String) : HlcTimestamp :=
  match openSpan s member with
  | some span => span.fromHlc.getD ⟨span.fromMs, 0, ""⟩
  | none => ⟨u64Max, u32Max, ""⟩

def recorded (member : String) : List (String × HlcTimestamp) :=
  match openSpan s member with
  | some span => span.admitted
  | none => []

/-- The position a member starts at: its opening clock where nobody is recorded admitting it. -/
def seedOf (member : String) : Pos :=
  if member ∈ s.members then
    match openSpan s member with
    | some span => if span.admitted = [] then ↑(openedAt s member) else ⊤
    | none => ⊤
  else ⊤

/-- Whom a current member admitted, with the clocks, the members gone through in `order`. -/
def byAuthor (order : List String) (author : String) : List (HlcTimestamp × String) :=
  if author ∈ s.members then
    order.flatMap fun member =>
      ((recorded s member).filter (·.1 = author)).map fun e => (e.2, member)
  else []

/-- Every current member's position, the members gone through in `order`, which a hash map leaves
open; an id without an entry reads as last. Each entry of the heap is a seed or an admission, which
bounds the rounds. -/
def positions (order : List String) : String → Pos :=
  let out := byAuthor s order
  let rounds := order.length + (order.map fun a => (out a).length).sum
  (search out rounds (start (seedOf s) order)).pos

/-- A member's position in terms of its admitters': the least, over those that are current members,
of the later of the admission and their own position. -/
def standingOf (pos : String → Pos) (member : String) : Pos :=
  match openSpan s member with
  | none => ⊤
  | some span =>
    if span.admitted = [] then ↑(openedAt s member)
    else (span.admitted.filter (·.1 ∈ s.members)).toFinset.inf fun e => max ↑e.2 (pos e.1)

def noteAdmission (member author : String) (stamp : HlcTimestamp) : Snapshot :=
  { s with memberRecord := s.memberRecord.modify member (modifyLast fun span =>
      if span.isOpen then noteAdmitter span author stamp else span) }

end Definitions

variable {s : Snapshot} {order order' : List String} {member author a b : String}
  {stamp w : HlcTimestamp}

theorem mem_byAuthor : (w, b) ∈ byAuthor s order a ↔
    a ∈ s.members ∧ b ∈ order ∧ (a, w) ∈ recorded s b := by
  unfold byAuthor
  split_ifs with ha
  · simp only [List.mem_flatMap, List.mem_map, List.mem_filter, decide_eq_true_eq, Prod.mk.injEq]
    constructor
    · rintro ⟨member, hmember, ⟨x, u⟩, ⟨hrecorded, rfl⟩, rfl, rfl⟩
      exact ⟨ha, hmember, hrecorded⟩
    · rintro ⟨-, hb, hrecorded⟩
      exact ⟨b, hb, (a, w), ⟨hrecorded, rfl⟩, rfl, rfl⟩
  · simp [ha]

section Ordered

variable (horder : Enumerates order s.members)
include horder

theorem distances_positions : Distances (seedOf s) (byAuthor s order) (positions s order) := by
  refine distances_search horder.nodup (fun a ha => ?_) (fun a ha => ?_) le_rfl
  · by_contra hnot
    refine ha ?_
    rw [seedOf, if_neg fun hmem => hnot ((horder.mem a).2 hmem)]
  · rw [byAuthor, if_neg fun hmem => ha ((horder.mem a).2 hmem)]

theorem positions_congr (horder' : Enumerates order' s.members) :
    positions s order' = positions s order := by
  have hedge : ∀ {o o' : List String}, Enumerates o s.members → Enumerates o' s.members →
      ∀ a w b, (w, b) ∈ byAuthor s o a → ∃ w' ≤ w, (w', b) ∈ byAuthor s o' a := by
    intro o o' ho ho' a w b he
    obtain ⟨ha, hb, hrecorded⟩ := mem_byAuthor.1 he
    exact ⟨w, le_rfl, mem_byAuthor.2 ⟨ha, (ho'.mem b).2 ((ho.mem b).1 hb), hrecorded⟩⟩
  funext member
  refine le_antisymm ?_ ?_
  · exact (distances_positions horder).mono (distances_positions horder') (hedge horder horder') _
  · exact (distances_positions horder').mono (distances_positions horder) (hedge horder' horder) _

omit horder in
theorem seedOf_of_not_recorded {pos : String → Pos} (hmember : member ∈ s.members)
    (h : recorded s member = []) : seedOf s member = standingOf s pos member := by
  unfold seedOf standingOf
  rw [if_pos hmember]
  unfold recorded at h
  cases hspan : openSpan s member with
  | none => rfl
  | some span =>
    rw [hspan] at h
    simp only at h
    simp [h]

omit horder in
theorem seedOf_of_recorded (h : recorded s member ≠ []) : seedOf s member = ⊤ := by
  unfold seedOf
  unfold recorded at h
  split_ifs
  · cases hspan : openSpan s member with
    | none => rfl
    | some span =>
      rw [hspan] at h
      exact if_neg h
  · rfl

omit horder in
theorem standingOf_of_recorded {pos : String → Pos} (h : recorded s member ≠ []) :
    standingOf s pos member =
      ((recorded s member).filter (·.1 ∈ s.members)).toFinset.inf fun e => max ↑e.2 (pos e.1) := by
  unfold standingOf
  unfold recorded at h ⊢
  cases hspan : openSpan s member with
  | none => rw [hspan] at h; exact absurd rfl h
  | some span =>
    rw [hspan] at h
    exact if_neg h

/-- Every member's position satisfies its own equation. -/
theorem positions_eq_standingOf (hmember : member ∈ s.members) :
    positions s order member = standingOf s (positions s order) member := by
  have hdist := distances_positions horder
  by_cases hrecorded : recorded s member = []
  · rw [← seedOf_of_not_recorded hmember hrecorded]
    by_cases htop : positions s order member = ⊤
    · have hle := hdist.le_seed member
      rw [htop] at hle ⊢
      exact (top_le_iff.1 hle).symm
    · rcases hdist.eq_seed_or_edge htop with hseed | ⟨a, w, he, -⟩
      · exact hseed
      · have := (mem_byAuthor.1 he).2.2
        rw [hrecorded] at this
        cases this
  · rw [standingOf_of_recorded hrecorded]
    refine le_antisymm (Finset.le_inf fun e he => ?_) ?_
    · obtain ⟨hin, hauthor⟩ := List.mem_filter.1 (List.mem_toFinset.1 he)
      refine hdist.le_edge (mem_byAuthor.2 ⟨by simpa using hauthor, ?_, hin⟩)
      exact (horder.mem member).2 hmember
    · by_cases htop : positions s order member = ⊤
      · rw [htop]
        exact le_top
      · rcases hdist.eq_seed_or_edge htop with hseed | ⟨a, w, he, heq⟩
        · rw [seedOf_of_recorded hrecorded] at hseed
          exact absurd hseed htop
        · obtain ⟨ha, -, hin⟩ := mem_byAuthor.1 he
          rw [heq]
          exact Finset.inf_le (f := fun e : String × HlcTimestamp =>
            max (↑e.2 : Pos) (positions s order e.1))
            (List.mem_toFinset.2 (List.mem_filter.2 ⟨hin, by simpa using ha⟩))

/-- No other solution of the equations puts a member later. -/
theorem le_positions {p : String → Pos} (hp : ∀ m ∈ s.members, p m = standingOf s p m)
    (hmember : member ∈ s.members) : p member ≤ positions s order member := by
  have hle := (distances_positions horder).greatest (p := fun m => if m ∈ s.members then p m else ⊤)
    (fun m => ?_) (fun a w m he => ?_) member
  · simpa [hmember] using hle
  · split_ifs with hm
    · by_cases hrecorded : recorded s m = []
      · rw [seedOf_of_not_recorded hm hrecorded, hp m hm]
      · rw [seedOf_of_recorded hrecorded]
        exact le_top
    · rw [seedOf, if_neg hm]
  · obtain ⟨ha, hm, hin⟩ := mem_byAuthor.1 he
    have hm := (horder.mem m).1 hm
    have hrecorded : recorded s m ≠ [] := List.ne_nil_of_mem hin
    simp only [if_pos hm, if_pos ha]
    rw [hp m hm, standingOf_of_recorded hrecorded]
    exact Finset.inf_le (f := fun e : String × HlcTimestamp => max (↑e.2 : Pos) (p e.1))
      (List.mem_toFinset.2 (List.mem_filter.2 ⟨hin, by simpa using ha⟩))

theorem exists_admitter_le (hrecorded : recorded s member ≠ []) :
    ∃ e ∈ recorded s member, positions s order e.1 ≤ positions s order member := by
  by_cases htop : positions s order member = ⊤
  · obtain ⟨e, he⟩ := List.exists_mem_of_ne_nil _ hrecorded
    exact ⟨e, he, htop ▸ le_top⟩
  · rcases (distances_positions horder).eq_seed_or_edge htop with hseed | ⟨a, w, he, heq⟩
    · rw [seedOf_of_recorded hrecorded] at hseed
      exact absurd hseed htop
    · exact ⟨(a, w), (mem_byAuthor.1 he).2.2, heq ▸ le_max_right _ _⟩

end Ordered

theorem getLast?_modifyLast {α : Type} (f : α → α) (l : List α) :
    (modifyLast f l).getLast? = l.getLast?.map f := by
  induction l with
  | nil => rfl
  | cons a l ih =>
    cases l with
    | nil => rfl
    | cons b l =>
      rw [modifyLast, List.getLast?_cons_cons, ← ih]
      cases hl : modifyLast f (b :: l) with
      | nil => cases l <;> simp [modifyLast] at hl
      | cons c rest => rw [List.getLast?_cons_cons]

theorem openSpan_noteAdmission : openSpan (noteAdmission s member author stamp) a =
    if member = a then (openSpan s a).map (noteAdmitter · author stamp) else openSpan s a := by
  unfold openSpan noteAdmission
  dsimp only
  rw [Map.getElem?_modify]
  split_ifs with hmember
  · subst hmember
    cases s.memberRecord[member]? with
    | none => rfl
    | some spans =>
      rw [Option.map_some, Option.bind_some, Option.bind_some, getLast?_modifyLast]
      cases spans.getLast? with
      | none => rfl
      | some span =>
        by_cases hopen : span.isOpen = true
        · have hnoted : (noteAdmitter span author stamp).isOpen = true := hopen
          simp [Option.filter_some, hopen, hnoted]
        · simp [Option.filter_some, hopen]
  · rfl

theorem openedAt_noteAdmission :
    openedAt (noteAdmission s member author stamp) a = openedAt s a := by
  unfold openedAt
  rw [openSpan_noteAdmission]
  split_ifs
  · cases openSpan s a <;> rfl
  · rfl

theorem exists_mem_noteEarliest {l : List (String × HlcTimestamp)} (h : (a, w) ∈ l) :
    ∃ w' ≤ w, (a, w') ∈ noteEarliest author stamp l := by
  induction l with
  | nil => cases h
  | cons e l ih =>
    rw [noteEarliest]
    split_ifs with hauthor hlt
    · rcases List.mem_cons.1 h with rfl | h
      · subst hauthor
        exact ⟨stamp, hlt.le, List.mem_cons_self⟩
      · exact ⟨w, le_rfl, List.mem_cons_of_mem _ h⟩
    · exact ⟨w, le_rfl, h⟩
    · rcases List.mem_cons.1 h with rfl | h
      · exact ⟨w, le_rfl, List.mem_cons_self⟩
      · obtain ⟨w', hle, hmem⟩ := ih h
        exact ⟨w', hle, List.mem_cons_of_mem _ hmem⟩

theorem noteEarliest_ne_nil (l : List (String × HlcTimestamp)) :
    noteEarliest author stamp l ≠ [] := by
  cases l with
  | nil => simp [noteEarliest]
  | cons e l =>
    rw [noteEarliest]
    split_ifs <;> simp

/-- A further admitter never moves anyone back. -/
theorem positions_noteAdmission_le (horder : Enumerates order s.members)
    (hspan : ∀ span, openSpan s member = some span → span.admitted ≠ []) :
    positions (noteAdmission s member author stamp) order a ≤ positions s order a := by
  have hmembers : (noteAdmission s member author stamp).members = s.members := rfl
  have hseed : seedOf (noteAdmission s member author stamp) = seedOf s := by
    funext b
    unfold seedOf
    rw [hmembers, openSpan_noteAdmission, openedAt_noteAdmission]
    by_cases hb : member = b
    · subst hb
      rw [if_pos rfl]
      cases hopen : openSpan s member with
      | none => rfl
      | some span =>
        have hnoted : (noteAdmitter span author stamp).admitted ≠ [] := noteEarliest_ne_nil _
        simp [hspan span hopen, hnoted]
    · rw [if_neg hb]
  have hdist := distances_positions (s := noteAdmission s member author stamp) horder
  rw [hseed] at hdist
  refine (distances_positions horder).mono hdist (fun x w b he => ?_) a
  obtain ⟨hx, hb, hin⟩ := mem_byAuthor.1 he
  have hearlier : ∃ w' ≤ w, (x, w') ∈ recorded (noteAdmission s member author stamp) b := by
    unfold recorded at hin ⊢
    rw [openSpan_noteAdmission]
    split_ifs with hmember
    · cases hopen : openSpan s b with
      | none => rw [hopen] at hin; cases hin
      | some span =>
        rw [hopen] at hin
        exact exists_mem_noteEarliest hin
    · exact ⟨w, le_rfl, hin⟩
  obtain ⟨w', hle, hin'⟩ := hearlier
  exact ⟨w', hle, mem_byAuthor.2 ⟨hx, hb, hin'⟩⟩

/-- The positions are the greatest solution of the members' equations, whatever order the members
are gone through in; no member stands before all of its admitters; and an admission noted for a
member that has one makes no position later. -/
theorem positions_greatest (s : Snapshot) (order : List String)
    (horder : Enumerates order s.members) :
    (∀ m ∈ s.members, positions s order m = standingOf s (positions s order) m) ∧
      (∀ p : String → Pos, (∀ m ∈ s.members, p m = standingOf s p m) →
        ∀ m ∈ s.members, p m ≤ positions s order m) ∧
      (∀ order', Enumerates order' s.members → positions s order' = positions s order) ∧
      (∀ m ∈ s.members, recorded s m ≠ [] →
        ∃ e ∈ recorded s m, positions s order e.1 ≤ positions s order m) ∧
      (∀ member author stamp, (∀ span, openSpan s member = some span → span.admitted ≠ []) →
        ∀ m, positions (noteAdmission s member author stamp) order m ≤ positions s order m) :=
  ⟨fun _ hm => positions_eq_standingOf horder hm, fun _ hp _ hm => le_positions horder hp hm,
    fun _ horder' => positions_congr horder horder', fun _ _ hm => exists_admitter_le horder hm,
    fun _ _ _ hspan _ => positions_noteAdmission_le horder hspan⟩

def sampleStamp (ms : Nat) : HlcTimestamp := ⟨ms, 0, ""⟩

def sampleSpans (ms : Nat) (admitted : List (String × HlcTimestamp)) : List MemberSpan :=
  [{ fromMs := ms, untilMs := u64Max, fromHlc := some (sampleStamp ms), admitted }]

/-- A founder, a member that nobody is recorded admitting, and two that admitted each other, one of
them also admitted by the founder. -/
def sampleServer : Snapshot :=
  { Snapshot.skeleton "srv" with
    members := Std.ExtTreeMap.ofList
      (["ann", "bob", "cat", "dan"].map fun m => (m, MemberInfo.mk m m))
    memberRecord := Std.ExtTreeMap.ofList
      [("ann", sampleSpans 0 []),
        ("bob", sampleSpans 10 [("ann", sampleStamp 10), ("cat", sampleStamp 1)]),
        ("cat", sampleSpans 1 [("bob", sampleStamp 1)]),
        ("dan", sampleSpans 5 [])] }

theorem positions_greatest_cycle :
    positions sampleServer sampleServer.members.keys "bob" = ↑(sampleStamp 10) ∧
      ∀ p : String → Pos, (∀ m ∈ sampleServer.members, p m = standingOf sampleServer p m) →
        ∀ m ∈ sampleServer.members, p m ≤ positions sampleServer sampleServer.members.keys m :=
  ⟨by decide +kernel,
    (positions_greatest sampleServer sampleServer.members.keys (enumerates_keys _)).2.1⟩

/-- Where members admitted each other a solution is earlier than the positions; and a member that
nobody was recorded admitting stands later once someone is. -/
theorem not_positions_least :
    (∃ p : String → Pos, (∀ m ∈ sampleServer.members, p m = standingOf sampleServer p m) ∧
        p "bob" < positions sampleServer sampleServer.members.keys "bob") ∧
      positions sampleServer sampleServer.members.keys "dan" <
        positions (noteAdmission sampleServer "dan" "ann" (sampleStamp 9))
          sampleServer.members.keys "dan" := by
  refine ⟨⟨fun m => if m = "ann" then ↑(sampleStamp 0) else if m = "dan" then ↑(sampleStamp 5)
    else ↑(sampleStamp 1), fun m hm => ?_, by decide +kernel⟩, by decide +kernel⟩
  have hall : ∀ m ∈ sampleServer.members.keys,
      (if m = "ann" then ↑(sampleStamp 0) else if m = "dan" then ↑(sampleStamp 5)
        else ↑(sampleStamp 1) : Pos) = standingOf sampleServer (fun m => if m = "ann" then
          ↑(sampleStamp 0) else if m = "dan" then ↑(sampleStamp 5) else ↑(sampleStamp 1)) m := by
    decide +kernel
  exact hall m (Std.ExtTreeMap.mem_keys.2 hm)

end Hollow.Mls
