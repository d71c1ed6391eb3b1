import Hollow.Crdt.Owner

/-! The membership record. In a run that follows the fold's order, deletes nothing and whose
checkpoints restate the state they meet, everyone's spans are closed but the last, which is open
just while they are a member, and a removal ends them all. The first checkpoint of a legacy server
seeds the record: it puts an open span in front of a member's that has one already, which no removal
ends, and it makes a removed author a member again up to the moment it is written. -/

namespace Hollow.Crdt

theorem modifyLast_concat {α : Type} (f : α → α) (l : List α) (a : α) :
    modifyLast f (l ++ [a]) = l ++ [f a] := by
  induction l with
  | nil => rfl
  | cons b l ih =>
    cases l with
    | nil => rfl
    | cons c l => simpa [modifyLast] using ih

def seedFront (untilMs : Nat) (spans : List MemberSpan) : List MemberSpan :=
  if spans.head?.all (fun s => s.fromMs > 0) then { fromMs := 0, untilMs } :: spans else spans

def seedSpan (record : Map (List MemberSpan)) (seed : String × Nat) : Map (List MemberSpan) :=
  record.insert seed.1 (seedFront seed.2 (record.getD seed.1 []))

/-- The body of the owner's checkpoint. A co-owner an older client made is an admin here. The first
checkpoint of a legacy server also seeds the membership record. -/
def Snapshot.checkpointBody (s : Snapshot) (me : String) (pastAuthors : List String) (nowMs : Nat) :
    Snapshot :=
  let roles := s.roles.map fun id r =>
    if id ≠ me ∧ r.value = .owner then { r with value := .admin } else r
  let seeds := s.members.toList.map (fun e => (e.1, u64Max)) ++ pastAuthors.map (·, nowMs)
  let memberRecord := if s.anchor = .legacy then seeds.foldl seedSpan s.memberRecord
    else s.memberRecord
  { s with ownerPin := none, checkpointHlc := none, roles, memberRecord }

/-- The spans of a member or of someone who is none: ended by `bound`, but for a member's last. -/
inductive Spans (bound : Nat) : Bool → List MemberSpan → Prop
  | away {past : List MemberSpan} (hpast : ∀ span ∈ past, span.untilMs ≤ bound) :
      Spans bound false past
  | here {past : List MemberSpan} {last : MemberSpan} (hpast : ∀ span ∈ past, span.untilMs ≤ bound)
      (hopen : last.untilMs = u64Max) (hfrom : last.fromMs ≤ bound) :
      Spans bound true (past ++ [last])

namespace Spans

variable {bound atMs : Nat} {seated : Bool} {spans : List MemberSpan}

theorem mono (h : Spans bound seated spans) (hle : bound ≤ atMs) : Spans atMs seated spans := by
  cases h with
  | away hpast => exact .away fun span hspan => (hpast span hspan).trans hle
  | here hpast hopen hfrom =>
    exact .here (fun span hspan => (hpast span hspan).trans hle) hopen (hfrom.trans hle)

theorem modifyLast (h : Spans bound true spans) {f : MemberSpan → MemberSpan}
    (huntil : ∀ span, (f span).untilMs = span.untilMs)
    (hfrom : ∀ span, (f span).fromMs = span.fromMs) : Spans bound true (modifyLast f spans) := by
  cases h with
  | here hpast hopen hle =>
    rw [modifyLast_concat]
    exact .here hpast (by rw [huntil, hopen]) (by rw [hfrom]; exact hle)

theorem until_le (h : Spans bound false spans) : ∀ span ∈ spans, span.untilMs ≤ bound := by
  cases h with
  | away hpast => exact hpast

theorem last_closed (h : Spans bound false spans) (hbound : bound < u64Max) :
    spans.getLast?.all (fun s => !s.isOpen) := by
  rw [Option.all_eq_true]
  intro last hlast
  have := h.until_le last (List.mem_of_getLast? hlast)
  simp only [MemberSpan.isOpen, Bool.not_eq_true', beq_eq_false_iff_ne]
  omega

theorem last_open (h : Spans bound true spans) :
    spans.getLast?.all (fun s => !s.isOpen) = false := by
  cases h with
  | here hpast hopen hfrom => simp [MemberSpan.isOpen, hopen]

theorem opened (h : Spans bound seated spans) (hbound : bound < u64Max) (new : MemberSpan)
    (hopen : new.untilMs = u64Max) (hfrom : new.fromMs ≤ bound) :
    Spans bound true
      (if spans.getLast?.all (fun s => !s.isOpen) then spans ++ [new] else spans) := by
  cases seated with
  | false =>
    rw [if_pos (h.last_closed hbound)]
    exact .here h.until_le hopen hfrom
  | true =>
    rw [if_neg (by simp [h.last_open])]
    exact h

/-- What `closeSpan` does to the last span. -/
def ended (atMs : Nat) (s : MemberSpan) : MemberSpan :=
  if s.isOpen then { s with untilMs := max atMs s.fromMs } else s

theorem ended_away (h : Spans bound false spans) (hbound : bound < u64Max) :
    Crdt.modifyLast (ended atMs) spans = spans := by
  have hlast := h.last_closed hbound
  rcases List.eq_nil_or_concat' spans with rfl | ⟨past, last, rfl⟩
  · rfl
  · rw [modifyLast_concat, ended, if_neg (by simpa using hlast)]

theorem ended_here (h : Spans bound true spans) (hle : bound ≤ atMs) :
    Spans atMs false (Crdt.modifyLast (ended atMs) spans) := by
  cases h with
  | here hpast hopen hfrom =>
    rw [modifyLast_concat, ended, if_pos (by simp [MemberSpan.isOpen, hopen])]
    refine .away fun span hspan => ?_
    rcases List.mem_append.1 hspan with hspan | hspan
    · exact (hpast span hspan).trans hle
    · rw [List.mem_singleton.1 hspan]
      exact max_le le_rfl (hfrom.trans hle)

theorem closed_dropLast (h : Spans bound seated spans) (hbound : bound < u64Max) :
    ∀ span ∈ spans.dropLast, span.isOpen = false := by
  intro span hspan
  have hle : span.untilMs ≤ bound := by
    cases h with
    | away hpast => exact hpast span (List.dropLast_subset _ hspan)
    | here hpast => exact hpast span (by simpa using hspan)
  simp only [MemberSpan.isOpen, beq_eq_false_iff_ne]
  omega

theorem any_open (h : Spans bound seated spans) (hbound : bound < u64Max) :
    spans.getLast?.any MemberSpan.isOpen = seated := by
  cases seated with
  | false =>
    have := h.last_closed hbound
    cases hlast : spans.getLast? <;> simp_all
  | true =>
    have := h.last_open
    cases hlast : spans.getLast? <;> simp_all

end Spans

namespace Materialized

def spansOf (m : Materialized) (p : String) : List MemberSpan := m.memberRecord.getD p []

variable {m m' : Materialized} {p q : String} {bound : Nat} {stamp : HlcTimestamp}

theorem spansOf_congr (h : m'.memberRecord = m.memberRecord) : m'.spansOf p = m.spansOf p := by
  rw [spansOf, spansOf, h]

theorem spansOf_modify {f : MemberSpan → MemberSpan}
    (h : m'.memberRecord = m.memberRecord.modify q (modifyLast f)) :
    m'.spansOf p = if q = p then modifyLast f (m.spansOf p) else m.spansOf p := by
  simp only [spansOf, h, Std.ExtTreeMap.getD_eq_getD_getElem?, Map.getElem?_modify]
  split_ifs with hq
  · subst hq
    cases m.memberRecord[q]? <;> rfl
  · rfl

theorem spansOf_openSpan {askedAt : Int} {admitter : Option String} (hne : q ≠ p) :
    (m.openSpan q stamp askedAt admitter).spansOf p = m.spansOf p := by
  simp only [spansOf, openSpan, Std.ExtTreeMap.getD_eq_getD_getElem?, Map.getElem?_insert, hne,
    if_false]

theorem spans_openSpan {seated : Bool} (h : Spans bound seated (m.spansOf p))
    (hbound : bound < u64Max) (hstamp : stamp.physicalMs ≤ bound) {askedAt : Int}
    {admitter : Option String} :
    Spans bound true ((m.openSpan p stamp askedAt admitter).spansOf p) := by
  have hspans := h.opened hbound
    ⟨stamp.physicalMs, u64Max, askedAt, some stamp, []⟩ rfl hstamp
  simp only [spansOf, openSpan, Std.ExtTreeMap.getD_eq_getD_getElem?, Map.getElem?_insert,
    if_true, Option.getD_some]
  rw [spansOf, Std.ExtTreeMap.getD_eq_getD_getElem?] at hspans
  cases admitter with
  | none => exact hspans
  | some author => exact hspans.modifyLast (fun _ => rfl) fun _ => rfl

end Materialized

namespace CrdtOp

def time (op : CrdtOp) : Nat := (ofLex op.foldKey).1.physicalMs

theorem time_of_not_checkpoint {op : CrdtOp} (h : op.isCheckpoint = false) :
    op.time = op.hlc.physicalMs := by
  unfold isCheckpoint at h
  unfold time foldKey
  split <;> simp_all

/-- The op makes `p` a member, where it is taken. -/
def Admits (op : CrdtOp) (p : String) : Prop :=
  (∃ name nonce, op.payload = .serverCreated name p nonce) ∨
    ∃ displayName follow ask, op.payload = .memberAdded p displayName follow ask

def Removes (op : CrdtOp) (p : String) : Prop :=
  op.payload = .memberRemoved p ∨ op.payload = .memberBanned p

theorem Removes.isCheckpoint {op : CrdtOp} {p : String} (h : op.Removes p) :
    op.isCheckpoint = false := by
  rcases h with h | h <;> simp [CrdtOp.isCheckpoint, h]

end CrdtOp

namespace Snapshot

open Materialized

variable {w : World} {s : Snapshot} {op : CrdtOp} {p : String} {bound : Nat} {l : List CrdtOp}

theorem seedFront_seedFront {a b : Nat} {spans : List MemberSpan} :
    seedFront a (seedFront b spans) = seedFront b spans := by
  by_cases h : spans.head?.all (fun s => s.fromMs > 0) <;> simp [seedFront, h]

theorem foldl_seedFront {spans : List MemberSpan} (seeds : List (String × Nat)) (e : String × Nat) :
    (e :: seeds).foldl (fun spans e => seedFront e.2 spans) spans = seedFront e.2 spans := by
  induction seeds with
  | nil => rfl
  | cons e' seeds ih =>
    rw [List.foldl_cons] at ih
    rw [List.foldl_cons, List.foldl_cons, seedFront_seedFront, ih]

theorem getD_foldl_seedSpan (seeds : List (String × Nat)) (record : Map (List MemberSpan)) :
    (seeds.foldl seedSpan record).getD p [] =
      (seeds.filter (·.1 = p)).foldl (fun spans e => seedFront e.2 spans) (record.getD p []) := by
  induction seeds generalizing record with
  | nil => rfl
  | cons e seeds ih =>
    rw [List.foldl_cons, ih]
    by_cases he : e.1 = p
    · rw [List.filter_cons_of_pos (by simpa using he), List.foldl_cons, seedSpan, he]
      simp
    · rw [List.filter_cons_of_neg (by simpa using he), seedSpan]
      simp [Std.ExtTreeMap.getD_insert, he]

theorem spansOf_checkpointBody {me : String} {past : List String} {now : Nat}
    (hlegacy : s.anchor = .legacy) : (s.checkpointBody me past now).spansOf p =
      if s.members.contains p then seedFront u64Max (s.spansOf p)
      else if p ∈ past then seedFront now (s.spansOf p) else s.spansOf p := by
  have hmembers : ∀ e ∈ (s.members.toList.map (fun e => (e.1, u64Max))).filter (·.1 = p),
      e.2 = u64Max ∧ s.members.contains p := by
    simp only [List.mem_filter, List.mem_map, decide_eq_true_eq]
    rintro e ⟨⟨a, ha, rfl⟩, rfl⟩
    refine ⟨rfl, (Map.contains_iff _ _).2 ⟨a.2, ?_⟩⟩
    exact Std.ExtTreeMap.mem_toList_iff_getElem?_eq_some.1 ha
  have hpast : ∀ e ∈ (past.map (·, now)).filter (·.1 = p), e.2 = now ∧ p ∈ past := by
    simp only [List.mem_filter, List.mem_map, decide_eq_true_eq]
    rintro e ⟨⟨a, ha, rfl⟩, rfl⟩
    exact ⟨rfl, ha⟩
  simp only [checkpointBody, spansOf, hlegacy, if_true, getD_foldl_seedSpan, List.filter_append]
  split_ifs with hp hp'
  · obtain ⟨info, hinfo⟩ := (Map.contains_iff _ _).1 hp
    have hmem : (p, u64Max) ∈ (s.members.toList.map (fun e => (e.1, u64Max))).filter (·.1 = p) := by
      simp only [List.mem_filter, List.mem_map, decide_eq_true_eq, and_true]
      exact ⟨(p, info), Std.ExtTreeMap.mem_toList_iff_getElem?_eq_some.2 hinfo, rfl⟩
    obtain ⟨e, rest, hsplit⟩ := List.exists_cons_of_ne_nil (List.ne_nil_of_mem hmem)
    rw [hsplit] at hmembers ⊢
    rw [List.cons_append, foldl_seedFront, (hmembers e List.mem_cons_self).1]
  all_goals
    rw [List.eq_nil_iff_forall_not_mem.2 fun e he => hp (hmembers e he).2, List.nil_append]
  · obtain ⟨e, rest, hsplit⟩ := List.exists_cons_of_ne_nil (List.ne_nil_of_mem
      (show (p, now) ∈ (past.map (·, now)).filter (·.1 = p) by simpa using hp'))
    rw [hsplit] at hpast ⊢
    rw [foldl_seedFront, (hpast e List.mem_cons_self).1]
  · rw [List.eq_nil_iff_forall_not_mem.2 fun e he => hp' (hpast e he).2, List.foldl_nil]

/-- A checkpoint has the members of the state it meets and the record `checkpointBody` makes of it.
The first one of a legacy server is due before any current member has a record that begins later
than at 0, and its past authors are none of those gone, but for one whose record begins at 0. -/
def Restates (w : World) (gone : String → Prop) (next : Nat) (s : Snapshot) (op : CrdtOp) : Prop :=
  ∀ state covers base, op.payload = .serverCheckpoint state covers →
    w.parseState state = some base →
      ∃ me past now, base.members = s.members ∧
        base.memberRecord = (s.checkpointBody me past now).memberRecord ∧
        (s.anchor = .legacy → now ≤ next ∧
          (∀ p, s.members.contains p →
            s.spansOf p = [] ∨ (s.spansOf p).head?.any (·.fromMs = 0)) ∧
          ∀ p ∈ past, gone p → (s.spansOf p).head?.any (·.fromMs = 0))

variable {gone : String → Prop} {next : Nat}

theorem restates_of_not_checkpoint (h : op.isCheckpoint = false) : s.Restates w gone next op := by
  intro state covers base hp
  simp [CrdtOp.isCheckpoint, hp] at h

/-- Those an admitted op has taken out and none has named for admission since. -/
def goneAfter (w : World) (s : Snapshot) (op : CrdtOp) (gone : String → Prop) (p : String) : Prop :=
  (s.opAllowed w op ∧ op.Removes p) ∨ gone p ∧ ¬ op.Admits p

/-- A run in the order of the fold, from a time on, that deletes nothing and whose checkpoints
restate the state they meet. What follows an op is stamped no earlier than `next`: its own time, or
the wall clock of a first checkpoint. -/
inductive Orderly (w : World) : Nat → (String → Prop) → Snapshot → List CrdtOp → Prop
  | nil {bound : Nat} {gone : String → Prop} {s : Snapshot} : Orderly w bound gone s []
  | cons {bound next : Nat} {gone : String → Prop} {s : Snapshot} {op : CrdtOp} {l : List CrdtOp}
      (hle : bound ≤ op.time) (hnext : op.time ≤ next) (hlt : next < u64Max)
      (hkeeps : ∀ at_, op.payload ≠ .serverDeleted at_) (hrestates : s.Restates w gone next op)
      (h : Orderly w next (s.goneAfter w op gone) ((rules w).step s op) l) :
      Orderly w bound gone s (op :: l)

/-- What an op may do to the membership and the spans of `p`. -/
inductive Respans (gone : String → Prop) (next : Nat) (op : CrdtOp) (p : String) (s t : Snapshot) :
    Prop
  | same (hmember : t.members.contains p = s.members.contains p)
      (hspans : t.spansOf p = s.spansOf p)
      (hrecorded : s.anchor = .legacy → s.spansOf p = [] →
        t.anchor = .legacy ∨ s.members.contains p = false)
  | noted (hseated : s.members.contains p = true) (hmember : t.members.contains p = true)
      (f : MemberSpan → MemberSpan) (huntil : ∀ span, (f span).untilMs = span.untilMs)
      (hfrom : ∀ span, (f span).fromMs = span.fromMs)
      (hspans : t.spansOf p = modifyLast f (s.spansOf p)) (hanchor : t.anchor = s.anchor)
  | opened (hadmits : op.Admits p) (htime : op.time = op.hlc.physicalMs)
      (hmember : t.members.contains p = true) (askedAt : Int) (admitter : Option String)
      (hspans : t.spansOf p = (s.openSpan p op.hlc askedAt admitter).spansOf p)
  | ended (hmember : t.members.contains p = false)
      (hspans : t.spansOf p = modifyLast (Spans.ended op.time) (s.spansOf p))
  | seeded {untilMs : Nat} (hmember : t.members.contains p = s.members.contains p)
      (hspans : t.spansOf p = { fromMs := 0, untilMs } :: s.spansOf p)
      (hends : s.members.contains p = true ∧ untilMs = u64Max ∧ s.spansOf p = [] ∨
        s.members.contains p = false ∧ untilMs ≤ next ∧ ¬ gone p)

theorem seedFront_cases {untilMs : Nat} {spans : List MemberSpan} :
    spans.head?.any (·.fromMs = 0) = true ∧ seedFront untilMs spans = spans ∨
      spans.head?.any (·.fromMs = 0) = false ∧
        seedFront untilMs spans = { fromMs := 0, untilMs } :: spans := by
  rw [seedFront]
  cases spans with
  | nil => simp
  | cons first rest => by_cases h : first.fromMs = 0 <;> simp [h, Nat.pos_iff_ne_zero]

theorem respans_rebaseOn {base : Snapshot} {owner : String} {covers : HlcTimestamp} (p : String)
    {me : String} {past : List String} {now : Nat} (hmembers : base.members = s.members)
    (hrecord : base.memberRecord = (s.checkpointBody me past now).memberRecord)
    (hfirst : s.anchor = .legacy → now ≤ next ∧
      (∀ p, s.members.contains p → s.spansOf p = [] ∨ (s.spansOf p).head?.any (·.fromMs = 0)) ∧
      ∀ p ∈ past, gone p → (s.spansOf p).head?.any (·.fromMs = 0)) :
    Respans gone next op p s (s.rebaseOn base owner covers) := by
  have hmember : (s.rebaseOn base owner covers).members.contains p = s.members.contains p := by
    rw [rebaseOn_members, hmembers]
  have hspans : (s.rebaseOn base owner covers).spansOf p =
      (s.checkpointBody me past now).spansOf p :=
    spansOf_congr (rebaseOn_memberRecord.trans hrecord)
  by_cases hlegacy : s.anchor = .legacy
  swap
  · have hcopied : (s.checkpointBody me past now).spansOf p = s.spansOf p :=
      spansOf_congr (if_neg hlegacy)
    exact .same hmember (hspans.trans hcopied) fun h => absurd h hlegacy
  obtain ⟨hnow, hbegun, hauthors⟩ := hfirst hlegacy
  rw [spansOf_checkpointBody hlegacy] at hspans
  split_ifs at hspans with hp hpast
  · rcases @seedFront_cases u64Max (s.spansOf p) with ⟨hzero, heq⟩ | ⟨hlater, heq⟩
    · refine .same hmember (hspans.trans heq) fun _ hnil => ?_
      simp [hnil] at hzero
    · have hnil := (hbegun p hp).resolve_right (by simp [hlater])
      exact .seeded hmember (hspans.trans heq) (.inl ⟨hp, rfl, hnil⟩)
  · rw [Bool.not_eq_true] at hp
    rcases @seedFront_cases now (s.spansOf p) with ⟨-, heq⟩ | ⟨hlater, heq⟩
    · exact .same hmember (hspans.trans heq) fun _ _ => .inr hp
    · refine .seeded hmember (hspans.trans heq) (.inr ⟨hp, hnow, fun hgone => ?_⟩)
      simp [hauthors p hpast hgone] at hlater
  · rw [Bool.not_eq_true] at hp
    exact .same hmember hspans fun _ _ => .inr hp

/-- Everyone's spans are those of a member or of someone who is none, up to `bound`. On a legacy
server those who joined before the record was kept may lack them. -/
def RecordBy (s : Snapshot) (bound : Nat) : Prop :=
  ∀ p, s.anchor = .legacy ∧ s.spansOf p = [] ∨ Spans bound (s.members.contains p) (s.spansOf p)

theorem RecordBy.mono {bound' : Nat} (h : s.RecordBy bound) (hle : bound ≤ bound') :
    s.RecordBy bound' := fun p => (h p).imp_right (·.mono hle)

/-- Gone by `bound`: not a member, with no span that ends later. -/
def Gone (s : Snapshot) (p : String) (bound : Nat) : Prop :=
  s.members.contains p = false ∧ Spans bound false (s.spansOf p)

section Step

variable (hkeeps : ∀ at_, op.payload ≠ .serverDeleted at_) (hrestates : s.Restates w gone next op)
include hkeeps hrestates

theorem respans_applyPayload (p : String) : Respans gone next op p s (s.applyPayload w op) := by
  rcases applyPayload_cases w s op with hs | ⟨name, owner, nonce, hp, -, hs⟩ |
    ⟨state, covers, base, hp, hparse, hs⟩ | ⟨hc, -, hs⟩ <;> rw [hs]
  · exact .same rfl rfl fun h _ => .inl h
  · have hmember : (s.seedFounder name owner op.hlc).members.contains p =
        (decide (owner = p) || s.members.contains p) := Map.contains_insert ..
    have hspans : (s.seedFounder name owner op.hlc).spansOf p =
        (s.openSpan owner op.hlc 0 none).spansOf p := rfl
    by_cases howner : owner = p
    · subst howner
      exact .opened (.inl ⟨name, nonce, hp⟩)
        (CrdtOp.time_of_not_checkpoint (by simp [CrdtOp.isCheckpoint, hp])) (by simp [hmember]) 0
        none hspans
    · exact .same (by simp [hmember, howner]) (hspans.trans (spansOf_openSpan howner))
        fun h _ => .inl h
  · obtain ⟨me, past, now, hmembers, hrecord, hfirst⟩ := hrestates state covers base hp hparse
    exact respans_rebaseOn p hmembers hrecord hfirst
  have htime := CrdtOp.time_of_not_checkpoint hc
  have hstep : s.Reseats op (s.applyTo w op) := reseats_applyTo
  cases hstep with
  | quiet hmembers _ hrecord =>
    exact .same (by rw [hmembers]) (spansOf_congr hrecord) fun h _ => .inl h
  | delete at_ hp => exact absurd hp (hkeeps at_)
  | rank _ _ _ _ hmembers _ hrecord =>
    exact .same (by rw [hmembers]) (spansOf_congr hrecord) fun h _ => .inl h
  | seat q displayName follow ask hp hmembers _ hrecord =>
    have hmember : (s.applyTo w op).members.contains p = (decide (q = p) || s.members.contains p) :=
      hmembers ▸ Map.contains_insertIfNew ..
    by_cases hq : q = p
    · subst hq
      split at hrecord
      · exact .opened (.inr ⟨displayName, follow, ask, hp⟩) htime (by simp [hmember]) _ _
          (spansOf_congr hrecord)
      · rename_i hseated
        refine .noted (by simpa using hseated) (by simp [hmember]) _ ?_ ?_
          ((spansOf_modify hrecord).trans (if_pos rfl)) rfl <;> intro span <;> split <;> rfl
    · refine .same (by simp [hmember, hq]) ?_ fun h _ => .inl h
      split at hrecord
      · exact (spansOf_congr hrecord).trans (spansOf_openSpan hq)
      · rw [spansOf_modify hrecord, if_neg hq]
  | unseat q _ hmembers _ hrecord =>
    have hmember : (s.applyTo w op).members.contains p = (decide (q ≠ p) && s.members.contains p) :=
      hmembers ▸ Map.contains_erase ..
    have hspans : (s.applyTo w op).spansOf p = if q = p then
        modifyLast (Spans.ended op.time) (s.spansOf p) else s.spansOf p :=
      htime ▸ spansOf_modify hrecord
    by_cases hq : q = p
    · exact .ended (by simp [hmember, hq]) (by rw [hspans, if_pos hq])
    · exact .same (by simp [hmember, hq]) (by rw [hspans, if_neg hq]) fun h _ => .inl h

theorem Gone.step (h : s.Gone p bound) (hbound : bound < u64Max) (hgone : gone p)
    (hadmits : ¬ op.Admits p) : ((rules w).step s op).Gone p bound := by
  obtain ⟨hout, hspans⟩ := h
  rw [JudgedFold.step]
  split_ifs
  swap
  · exact ⟨hout, hspans⟩
  cases respans_applyPayload hkeeps hrestates p with
  | same hmember hsame => exact ⟨hmember.trans hout, hsame ▸ hspans⟩
  | noted hseated => exact absurd hseated (by simp [hout])
  | opened hadmits' => exact absurd hadmits' hadmits
  | ended hmember hended => exact ⟨hmember, (hended.trans (hspans.ended_away hbound)) ▸ hspans⟩
  | seeded _ _ hends =>
    rcases hends with ⟨hp, -⟩ | ⟨-, -, hnot⟩
    · exact absurd hp (by simp [hout])
    · exact absurd hgone hnot

variable (h : s.RecordBy bound) (hle : bound ≤ op.time) (hnext : op.time ≤ next)
  (hlt : next < u64Max)
include h hle hnext hlt

theorem RecordBy.applyPayload : (s.applyPayload w op).RecordBy next := by
  intro p
  have hnil : Spans next false [] := .away (by simp)
  cases respans_applyPayload hkeeps hrestates p with
  | same hmember hspans hrecorded =>
    rw [hmember, hspans]
    rcases h p with ⟨hlegacy, hempty⟩ | hp
    · rcases hrecorded hlegacy hempty with hstill | hout
      · exact .inl ⟨hstill, hempty⟩
      · rw [hempty, hout]
        exact .inr hnil
    · exact .inr (hp.mono (hle.trans hnext))
  | noted hseated hmember f huntil hfrom hspans hanchor =>
    rw [hmember, hspans, hanchor]
    rcases h p with ⟨hlegacy, hempty⟩ | hp
    · rw [hempty]
      exact .inl ⟨hlegacy, rfl⟩
    · exact .inr ((hseated ▸ hp.mono (hle.trans hnext)).modifyLast huntil hfrom)
  | opened _ htime hmember askedAt admitter hspans =>
    rw [hmember, hspans]
    rcases h p with ⟨-, hempty⟩ | hp
    · exact .inr (spans_openSpan (hempty ▸ hnil) hlt (htime ▸ hnext))
    · exact .inr (spans_openSpan (hp.mono (hle.trans hnext)) hlt (htime ▸ hnext))
  | ended hmember hspans =>
    rw [hmember, hspans]
    rcases h p with ⟨-, hempty⟩ | hp
    · rw [hempty]
      exact .inr hnil
    · cases hseated : s.members.contains p <;> rw [hseated] at hp
      · rw [hp.ended_away (hle.trans_lt (hnext.trans_lt hlt))]
        exact .inr (hp.mono (hle.trans hnext))
      · exact .inr ((hp.ended_here hle).mono hnext)
  | seeded hmember hspans hends =>
    rw [hmember, hspans]
    rcases hends with ⟨hp, rfl, hempty⟩ | ⟨hp, huntil, -⟩
    · rw [hp, hempty]
      exact .inr (@Spans.here _ [] _ (by simp) rfl (Nat.zero_le _))
    · rw [hp]
      refine .inr (.away (List.forall_mem_cons.2 ⟨huntil, ?_⟩))
      rcases h p with ⟨-, hempty⟩ | hspans
      · simp [hempty]
      · exact ((hp ▸ hspans).mono (hle.trans hnext)).until_le

theorem RecordBy.step : ((rules w).step s op).RecordBy next := by
  rw [JudgedFold.step]
  split_ifs
  · exact h.applyPayload hkeeps hrestates hle hnext hlt
  · exact h.mono (hle.trans hnext)

end Step

/-- An orderly run leaves everyone's spans in order, up to a time that is not for ever. -/
theorem Orderly.run (h : Orderly w bound gone s l) (hbound : bound < u64Max)
    (hs : s.RecordBy bound) : ∃ last < u64Max, ((rules w).run s l).RecordBy last := by
  induction h with
  | nil => exact ⟨_, hbound, hs⟩
  | cons hle hnext hlt hkeeps hrestates _ ih =>
    exact ih hlt (hs.step hkeeps hrestates hle hnext hlt)

theorem Orderly.split {before after : List CrdtOp}
    (h : Orderly w bound gone s (before ++ op :: after)) (hs : s.RecordBy bound) :
    ∃ reached gone', ((rules w).run s before).RecordBy reached ∧
      Orderly w reached gone' ((rules w).run s before) (op :: after) := by
  induction before generalizing bound gone s with
  | nil => exact ⟨bound, gone, hs, h⟩
  | cons o before ih =>
    cases h with
    | cons hle hnext hlt hkeeps hrestates h =>
      exact ih h (hs.step hkeeps hrestates hle hnext hlt)

/-- Who is gone stays gone, until an op names them for admission. -/
theorem Gone.run {from_ : Nat} (h : s.Gone p bound) (hbound : bound < u64Max) (hgone : gone p)
    (hl : Orderly w from_ gone s l) (hadmits : ∀ op ∈ l, ¬ op.Admits p) :
    ((rules w).run s l).Gone p bound := by
  induction hl with
  | nil => exact h
  | cons _ _ _ hkeeps hrestates _ ih =>
    obtain ⟨hop, hrest⟩ := List.forall_mem_cons.1 hadmits
    exact ih (h.step hkeeps hrestates hbound hgone hop) (.inr ⟨hgone, hop⟩) hrest

theorem Gone.wasMemberAt (h : s.Gone p bound) {x : Nat} (hx : bound + memberSpanSlackMs ≤ x) :
    s.wasMemberAt p x = false := by
  rw [Snapshot.wasMemberAt, List.any_eq_false]
  intro span hspan
  have hle := h.2.until_le span hspan
  rw [Bool.and_eq_true, decide_eq_true_eq, decide_eq_true_eq, saturatingAdd]
  omega

theorem gone_of_removal (hp : op.Removes p) (hallowed : s.opAllowed w op)
    (h : ((rules w).step s op).RecordBy bound) : ((rules w).step s op).Gone p bound := by
  have hgone : ((rules w).step s op).members.contains p = false := by
    rw [JudgedFold.step_of_allowed (m := rules w) hallowed, rules_apply]
    rcases hp with hp | hp
    all_goals
      rw [applyPayload_of_not_anchor (by simp [CrdtOp.isCheckpoint, hp])
        (by simp [CrdtOp.isFounding, hp])]
      simp [Snapshot.applyTo, hp, removeMember_members]
  refine ⟨hgone, ?_⟩
  rcases h p with ⟨-, hempty⟩ | hspans
  · rw [hempty]
    exact .away (by simp)
  · exact hgone ▸ hspans

/-- Every span of `p` but the last is closed, and the last is open just while `p` is a member. -/
structure RecordSound (s : Snapshot) (p : String) : Prop where
  closed : ∀ span ∈ (s.spansOf p).dropLast, span.isOpen = false
  current : (s.spansOf p).getLast?.any MemberSpan.isOpen = s.members.contains p

/-- Where a server begins: empty, or a legacy state, whose members may lack the spans of the time
before the record was kept. -/
def Begins (s : Snapshot) (bound : Nat) : Prop :=
  s.IsReset ∨ s.anchor = .legacy ∧
    ∀ p, s.spansOf p = [] ∨ Spans bound (s.members.contains p) (s.spansOf p)

theorem Begins.recordBy (h : s.Begins bound) : s.RecordBy bound := by
  rcases h with hreset | ⟨hlegacy, hrecord⟩
  · intro p
    have haway : Spans bound false [] := .away (by simp)
    rw [spansOf, hreset.1]
    exact .inr (by simpa using haway)
  · exact fun p => (hrecord p).imp_left (⟨hlegacy, ·⟩)

/-- The record over every orderly run, from an empty state or a legacy one. Once the server is
anchored it is sound for everybody, and after an admitted removal or ban at `t` nobody counts as a
member from `t` and the slack on, until an op names them for admission. -/
theorem record_holds {w : World} {bound : Nat} {s : Snapshot} {l : List CrdtOp}
    (hbound : bound < u64Max) (hs : s.Begins bound) (hl : Orderly w bound (fun _ => False) s l) :
    (((rules w).run s l).anchor ≠ .legacy → ∀ p, ((rules w).run s l).RecordSound p) ∧
    ∀ before op after p x, l = before ++ op :: after → op.Removes p →
      ((rules w).run s before).opAllowed w op → (∀ o ∈ after, ¬ o.Admits p) →
      op.hlc.physicalMs + memberSpanSlackMs ≤ x →
      ((rules w).run s l).wasMemberAt p x = false := by
  refine ⟨fun hanchored p => ?_, ?_⟩
  · obtain ⟨last, hlast, hrecord⟩ := hl.run hbound hs.recordBy
    have hspans := (hrecord p).resolve_left fun h => hanchored h.1
    exact ⟨hspans.closed_dropLast hlast, hspans.any_open hlast⟩
  · rintro before op after p x rfl hp hallowed hadmits hx
    obtain ⟨reached, gone, hbefore, hrest⟩ := hl.split hs.recordBy
    cases hrest with
    | cons hle hnext hlt hkeeps _ hafter =>
      -- nothing is seeded by the removal itself, so the spans end at its own time
      have hgone := gone_of_removal hp hallowed (hbefore.step hkeeps
        (@restates_of_not_checkpoint _ _ _ gone _ hp.isCheckpoint) hle le_rfl (hnext.trans_lt hlt))
      have htime : op.time = op.hlc.physicalMs := CrdtOp.time_of_not_checkpoint hp.isCheckpoint
      rw [JudgedFold.run, List.foldl_append]
      exact (hgone.run (hnext.trans_lt hlt) (.inl ⟨hallowed, hp⟩) hafter hadmits).wasMemberAt
        (htime ▸ hx)

end Snapshot

def legacySample : Snapshot :=
  { serverId := "legacy", members := (∅ : Map MemberInfo).insert "o" ⟨"o", "o"⟩,
    roles := (∅ : Map (AdminLwwReg MemberRole)).insert "o"
      ⟨.owner, MemberRole.owner.priority, .zero "o"⟩,
    ownerPin := some "o" }

/-- The legacy server after some ops, as its owner's first checkpoint has it. -/
def legacyBody (before : List CrdtOp) (pastAuthors : List String) (nowMs : Nat) : Snapshot :=
  ((rules (sampleWorld fun _ => none)).run legacySample before).checkpointBody "o" pastAuthors nowMs

def removedBefore : List CrdtOp := [sampleAdd 2 5, sampleOp "o" 3 (.memberRemoved "p")]

/-- A world in which every checkpoint reads as that body. -/
def legacyWorld (before : List CrdtOp) (pastAuthors : List String) (nowMs : Nat) : World :=
  sampleWorld fun _ => some (legacyBody before pastAuthors nowMs)

def legacyCheckpoint : CrdtOp := sampleOp "o" 5 (.serverCheckpoint "" ⟨4, 0, "o"⟩)

/-- "p" is admitted and removed before the first checkpoint, which vouches for the author "q". -/
theorem record_holds_removed :
    let w := legacyWorld removedBefore ["q"] 5
    let s := (rules w).run legacySample (removedBefore ++ [legacyCheckpoint])
    s.anchor = .checkpoint ∧ s.RecordSound "p" ∧
      s.wasMemberAt "p" (3 + memberSpanSlackMs) = false := by
  intro w s
  have hmembers : ((rules w).run legacySample removedBefore).members = legacySample.members := by
    decide +kernel
  have hcheckpoint : ∀ gone : String → Prop, ¬ gone "q" →
      ((rules w).run legacySample removedBefore).Restates w gone 5 legacyCheckpoint := by
    rintro gone hq state covers base - hparse
    cases hparse
    refine ⟨"o", ["q"], 5, by decide +kernel, by decide +kernel,
      fun _ => ⟨le_rfl, fun p hp => ?_, ?_⟩⟩
    · rw [hmembers, legacySample] at hp
      obtain rfl : "o" = p := by simpa using hp
      exact .inl (by decide +kernel)
    · simpa using fun h => absurd h hq
  have hrun := @Snapshot.record_holds w 0 legacySample (removedBefore ++ [legacyCheckpoint])
    (by decide)
    (.inr ⟨by decide +kernel, fun p => .inl (by simp [legacySample, Materialized.spansOf])⟩) <|
    .cons (by decide) le_rfl (by decide) nofun (Snapshot.restates_of_not_checkpoint rfl) <|
    .cons (by decide) le_rfl (by decide) nofun (Snapshot.restates_of_not_checkpoint rfl) <|
    .cons (by decide) (by decide) (by decide) nofun
      (hcheckpoint _ (by simp [Snapshot.goneAfter, CrdtOp.Removes, sampleAdd, sampleOp])) .nil
  have hanchor : s.anchor = .checkpoint := by decide +kernel
  refine ⟨hanchor, hrun.1 (by rw [hanchor]; decide) "p", ?_⟩
  refine hrun.2 [sampleAdd 2 5] (sampleOp "o" 3 (.memberRemoved "p")) [legacyCheckpoint] "p" _ rfl
    (.inl rfl) (by decide +kernel) ?_ le_rfl
  simp [CrdtOp.Admits, legacyCheckpoint, sampleOp]

/-- The owner admits "p", brings the legacy server onto the fold, and removes "p": its open span
from the start stays, so "p" counts as a member for ever. And where "p" was removed before the first
checkpoint, which finds a post of theirs, "p" is a member again up to the checkpoint's time. -/
theorem not_record_holds :
    let w := legacyWorld [sampleAdd 2 5] [] 5
    let removal := sampleOp "o" 6 (.memberRemoved "p")
    let before := [sampleAdd 2 5, legacyCheckpoint]
    let late := legacyWorld removedBefore ["p"] (5 + memberSpanSlackMs)
    (((rules w).run legacySample before).opAllowed w removal = true ∧
      ((rules w).run legacySample (before ++ [removal])).members.contains "p" = false ∧
      ((rules w).run legacySample (before ++ [removal])).wasMemberAt "p" (u64Max - 1) = true ∧
      ¬ ((rules w).run legacySample (before ++ [removal])).RecordSound "p") ∧
    ((rules late).run legacySample removedBefore).wasMemberAt "p" (3 + memberSpanSlackMs) = false ∧
      ((rules late).run legacySample (removedBefore ++ [legacyCheckpoint])).wasMemberAt "p"
        (3 + memberSpanSlackMs) = true := by
  refine ⟨⟨by decide +kernel, by decide +kernel, by decide +kernel, fun h => ?_⟩, by decide +kernel,
    by decide +kernel⟩
  have hclosed := h.closed { fromMs := 0, untilMs := u64Max } (by decide +kernel)
  cases hclosed

end Hollow.Crdt
