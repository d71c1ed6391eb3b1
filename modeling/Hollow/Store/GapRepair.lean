import Hollow.Store.Messages

/-! Repair of gaps behind a sync's starting point. The asker sends a digest of what it holds for
each day of a window, the answerer serves the oldest rows of the days that differ. There is no
cursor, so a row that is never among the oldest of its day is never served: `gapRepair_iff`. -/

namespace Hollow.Store

open StableSort

def dayMs : Int := 24 * 60 * 60 * 1000

def syncGapWindowMs : Int := 30 * dayMs

def syncGapMaxSpanMs : Int := syncGapWindowMs + dayMs

structure GapDay where
  d : Int
  n : UInt32
  h : UInt64
deriving DecidableEq

structure GapDigest where
  fromMs : Int
  untilMs : Int
  days : List GapDay
deriving DecidableEq

def gapWindow (since : Int) : Option (Int × Int) :=
  if 0 < since then some (max (since - syncGapWindowMs) 0, since) else none

def gapSpanOk (g : GapDigest) : Bool :=
  g.fromMs < g.untilMs && g.untilMs - g.fromMs ≤ syncGapMaxSpanMs

/-- What a digest says of a day. Of two entries for one day the later one counts. -/
def GapDigest.known (g : GapDigest) (d : Int) : Option (UInt32 × UInt64) :=
  (g.days.reverse.find? (·.d = d)).map fun g => (g.n, g.h)

def differingDays (ours theirs : GapDigest) : Option (List Int) :=
  let days := (ours.days.filter fun o => theirs.known o.d ≠ some (o.n, o.h)).map (·.d)
  if days.isEmpty then none else some days

/-- The 64-bit FNV-1a hash. -/
def midHash (mid : String) : UInt64 :=
  mid.toUTF8.data.toList.foldl (fun h b => (h ^^^ b.toUInt64) * 0x100000001b3) 0xcbf29ce484222325

/-- What a digest is made of: a row's id and its time. -/
abbrev Mark : Type := String × Int

def Mark.day (p : Mark) : Int := p.2 / dayMs

def dayDigest (marks : List Mark) : UInt32 × UInt64 :=
  (UInt32.ofNat marks.length, marks.foldl (fun h p => h ^^^ midHash p.1) 0)

def gapDigest (marks : List Mark) (fromMs untilMs : Int) : GapDigest where
  fromMs
  untilMs
  days := (sortBy id (marks.map Mark.day).dedup).map fun d =>
    let day := dayDigest (marks.filter (·.day = d))
    ⟨d, day.1, day.2⟩

def StoredRow.mark {κ : Type} (m : StoredRow κ) : Mark := (m.messageId.getD "", m.timestamp)

/-- What the gap queries of the two tables differ in: which rows are of the conversation, which of
them are served, and in which order. -/
structure GapForm (κ ι : Type) [LinearOrder ι] where
  ofPlace : StoredRow κ → Bool
  serves : StoredRow κ → Bool
  key : StoredRow κ → ι
  key_lt : ∀ a b, a.timestamp < b.timestamp → key a < key b

def dmForm (peerId : String) (mineOnly : Bool) :
    GapForm String (Lex (Int × Lex (Int × WithBot String))) where
  ofPlace m := m.place = peerId
  serves m := !mineOnly || m.isMine
  key := StoredRow.historyKey
  key_lt _ _ h := Prod.Lex.toLex_lt_toLex.2 (.inl h)

/-- `ORDER BY timestamp`: rows of one millisecond come in the order of the table. -/
def channelForm (serverId channelId : String) : GapForm ChannelPlace Int where
  ofPlace m := m.place.serverId = serverId && m.place.channelId = channelId
  serves _ := true
  key m := m.timestamp
  key_lt _ _ h := h

section Form

variable {κ ι : Type} [LinearOrder ι] (f : GapForm κ ι)

def GapForm.window (rows : List (StoredRow κ)) (fromMs untilMs : Int) : List (StoredRow κ) :=
  rows.filter fun m =>
    f.ofPlace m && fromMs ≤ m.timestamp && m.timestamp < untilMs && m.messageId.isSome

def GapForm.marks (rows : List (StoredRow κ)) (fromMs untilMs : Int) : List Mark :=
  (f.window rows fromMs untilMs).map StoredRow.mark

/-- `get_dm_gap_messages` and `get_channel_gap_messages`. SQL divides toward zero. -/
def GapForm.messages (rows : List (StoredRow κ)) (theirs : GapDigest) (limit : Nat) :
    List (StoredRow κ) :=
  if gapSpanOk theirs then
    let ours := gapDigest (f.marks rows theirs.fromMs theirs.untilMs) theirs.fromMs theirs.untilMs
    match differingDays ours theirs with
    | none => []
    | some days =>
      (sortBy f.key ((f.window rows theirs.fromMs theirs.untilMs).filter fun m =>
        f.serves m && days.contains (m.timestamp.tdiv dayMs))).take limit
  else []

end Form

def getChannelGapMessages (rows : List StoredChannelMessage) (serverId channelId : String)
    (theirs : GapDigest) (limit : Nat) : List StoredChannelMessage :=
  (channelForm serverId channelId).messages rows theirs limit

section Days

variable {marks held : List Mark} {d : Int}

theorem known_gapDigest (marks : List Mark) (fromMs untilMs d : Int) :
    (gapDigest marks fromMs untilMs).known d =
      if d ∈ marks.map Mark.day then some (dayDigest (marks.filter (·.day = d))) else none := by
  set days := (sortBy id (marks.map Mark.day).dedup).reverse with hdays
  have hmem : d ∈ days ↔ d ∈ marks.map Mark.day := by
    simp only [hdays, List.mem_reverse, mem_sortBy, List.mem_dedup]
  rw [GapDigest.known, gapDigest, ← List.map_reverse, ← hdays, List.find?_map, Option.map_map]
  have hfind : days.find? ((fun g : GapDay => decide (g.d = d)) ∘ fun d =>
      let day := dayDigest (marks.filter (·.day = d)); ⟨d, day.1, day.2⟩) =
        days.find? (fun d' => d' = d) := rfl
  rw [hfind]
  split_ifs with h
  · have hsome : days.find? (fun d' => decide (d' = d)) = some d := by
      obtain ⟨d', hd'⟩ := Option.isSome_iff_exists.1
        (List.find?_isSome.2 ⟨d, hmem.2 h, by simp⟩ : (days.find? (fun d' => d' = d)).isSome)
      have heq : d' = d := by simpa using List.find?_some hd'
      rw [hd', heq]
    rw [hsome]
    rfl
  · rw [List.find?_eq_none.2]
    · rfl
    · intro d' hd' heq
      have heq : d' = d := by simpa using heq
      exact h (hmem.1 (heq ▸ hd'))

theorem dayDigest_perm {l l' : List Mark} (h : l.Perm l') : dayDigest l = dayDigest l' := by
  have hcomm : RightCommutative fun (h : UInt64) (p : Mark) => h ^^^ midHash p.1 :=
    ⟨fun a b c => by rw [UInt64.xor_assoc, UInt64.xor_assoc, UInt64.xor_comm (midHash b.1)]⟩
  rw [dayDigest, dayDigest, h.length_eq, h.foldl_eq]

/-- Two days with the same digest hold the same marks. -/
def DigestsDiffer (marks : List Mark) : Prop :=
  ∀ d, ∀ held : List Mark, held.Nodup → held ⊆ marks.filter (·.day = d) →
    dayDigest held = dayDigest (marks.filter (·.day = d)) → marks.filter (·.day = d) ⊆ held

theorem digestsDiffer_of_length_lt (hmarks : marks.length < 2 ^ 32) : DigestsDiffer marks := by
  intro d held hheld hsub hdigest
  have hle := List.length_filter_le (·.day = d) marks
  have hsubperm := List.subperm_of_subset hheld hsub
  have hlength : held.length = (marks.filter (·.day = d)).length := by
    have hcount := congrArg UInt32.toNat (congrArg Prod.fst hdigest)
    simp only [dayDigest, UInt32.toNat_ofNat'] at hcount
    rwa [Nat.mod_eq_of_lt (hsubperm.length_le.trans_lt (hle.trans_lt hmarks)),
      Nat.mod_eq_of_lt (hle.trans_lt hmarks)] at hcount
  exact (hsubperm.perm_of_length_le hlength.ge).symm.subset

theorem mem_differingDays {ours theirs : GapDigest} :
    d ∈ (differingDays ours theirs).getD [] ↔
      ∃ o ∈ ours.days, theirs.known o.d ≠ some (o.n, o.h) ∧ o.d = d := by
  rw [differingDays]
  split_ifs with h
  · have hnone := List.map_eq_nil_iff.1 (List.isEmpty_iff.1 h)
    rw [List.filter_eq_nil_iff] at hnone
    simp only [Option.getD_none, List.not_mem_nil, false_iff, not_exists, not_and]
    intro o ho hne
    exact absurd (by simpa using hne) (hnone o ho)
  · simp [and_assoc]

theorem mem_days_gapDigest {fromMs untilMs : Int} {o : GapDay} :
    o ∈ (gapDigest marks fromMs untilMs).days ↔
      o.d ∈ marks.map Mark.day ∧ (o.n, o.h) = dayDigest (marks.filter (·.day = o.d)) := by
  simp only [gapDigest, List.mem_map (l := sortBy _ _), mem_sortBy,
    List.mem_dedup]
  constructor
  · rintro ⟨d, hd, rfl⟩
    exact ⟨hd, rfl⟩
  · rintro ⟨hd, hdigest⟩
    refine ⟨o.d, hd, ?_⟩
    rw [← hdigest]

/-- The days whose digests differ are those with a row the asker lacks. -/
theorem mem_differingDays_gapDigest {fromMs untilMs : Int} (hmarks : marks.Nodup)
    (hheld : held.Nodup) (hsub : held ⊆ marks) (hdiffer : DigestsDiffer marks) :
    d ∈ (differingDays (gapDigest marks fromMs untilMs)
        (gapDigest held fromMs untilMs)).getD [] ↔
      ∃ p ∈ marks, p.day = d ∧ p ∉ held := by
  have hsubDay : held.filter (·.day = d) ⊆ marks.filter (·.day = d) := by
    intro p hp
    have hp := List.mem_filter.1 hp
    exact List.mem_filter.2 ⟨hsub hp.1, hp.2⟩
  rw [mem_differingDays]
  constructor
  · rintro ⟨o, ho, hne, rfl⟩
    obtain ⟨hd, hdigest⟩ := mem_days_gapDigest.1 ho
    by_contra hall
    push Not at hall
    obtain ⟨p, hp, hpd⟩ := List.mem_map.1 hd
    have hday : o.d ∈ held.map Mark.day := List.mem_map.2 ⟨p, hall p hp hpd, hpd⟩
    have hperm : (held.filter (·.day = o.d)).Perm (marks.filter (·.day = o.d)) := by
      refine (List.perm_ext_iff_of_nodup (hheld.filter _) (hmarks.filter _)).2 fun q =>
        ⟨fun hq => hsubDay hq, fun hq => ?_⟩
      obtain ⟨hq, hqd⟩ := List.mem_filter.1 hq
      exact List.mem_filter.2 ⟨hall q hq (by simpa using hqd), hqd⟩
    refine hne ?_
    rw [known_gapDigest, if_pos hday, dayDigest_perm hperm, ← hdigest]
  · rintro ⟨p, hp, rfl, hpheld⟩
    have hday : p.day ∈ marks.map Mark.day := List.mem_map_of_mem hp
    let day := dayDigest (marks.filter (·.day = p.day))
    refine ⟨⟨p.day, day.1, day.2⟩, mem_days_gapDigest.2 ⟨hday, rfl⟩, fun hknown => ?_, rfl⟩
    rw [known_gapDigest] at hknown
    split_ifs at hknown
    have hpday : p ∈ marks.filter (·.day = p.day) := List.mem_filter.2 ⟨hp, by simp⟩
    have hback := hdiffer p.day _ (hheld.filter _) hsubDay (Option.some_inj.1 hknown) hpday
    exact hpheld (List.mem_filter.1 hback).1

end Days

namespace GapForm

section Exchange

variable {κ ι : Type} [LinearOrder ι] (f : GapForm κ ι) (rows : List (StoredRow κ))
  (fromMs untilMs : Int)

/-- The rows one exchange serves to an asker that holds `held`. -/
def served (held : List Mark) : List (StoredRow κ) :=
  f.messages rows (gapDigest held fromMs untilMs) 200

/-- What the asker holds afterwards; a row it had is not stored again. -/
def exchange (held : List Mark) : List Mark :=
  (f.served rows fromMs untilMs held).map StoredRow.mark ∪ held

def dayRows (d : Int) : List (StoredRow κ) :=
  sortBy f.key ((f.window rows fromMs untilMs).filter (·.mark.day = d))

/-- The rows of the days on which the asker misses something. -/
def behind (held : List Mark) : List (StoredRow κ) :=
  (f.window rows fromMs untilMs).filter fun m =>
    (f.marks rows fromMs untilMs).any fun p => p.day = m.mark.day && p ∉ held

/-- A setting in which the digests tell what is missing. -/
structure Sound : Prop where
  serves : ∀ m, f.serves m = true
  nonneg : 0 ≤ fromMs
  span : fromMs < untilMs ∧ untilMs - fromMs ≤ syncGapMaxSpanMs
  nodup : (f.marks rows fromMs untilMs).Nodup
  differ : DigestsDiffer (f.marks rows fromMs untilMs)

structure Asker (held : List Mark) : Prop where
  nodup : held.Nodup
  subset : held ⊆ f.marks rows fromMs untilMs

/-- Every row the asker misses is among the oldest 200 of its day. -/
def Reachable (held : List Mark) : Prop :=
  ∀ m ∈ f.window rows fromMs untilMs, m.mark ∉ held →
    m ∈ (f.dayRows rows fromMs untilMs m.mark.day).take 200

/-- The marks of the window the asker does not hold. -/
def missing (held : List Mark) : Finset Mark :=
  (f.marks rows fromMs untilMs).toFinset.filter (· ∉ held)

end Exchange

section Run

variable {κ ι : Type} [LinearOrder ι] {f : GapForm κ ι} {rows : List (StoredRow κ)}
  {fromMs untilMs : Int} {held : List Mark} {m : StoredRow κ}

theorem mem_behind : m ∈ f.behind rows fromMs untilMs held ↔
    m ∈ f.window rows fromMs untilMs ∧
      ∃ p ∈ f.marks rows fromMs untilMs, p.day = m.mark.day ∧ p ∉ held := by
  simp [behind]

theorem mem_exchange {p : Mark} : p ∈ f.exchange rows fromMs untilMs held ↔
    (∃ m ∈ f.served rows fromMs untilMs held, m.mark = p) ∨ p ∈ held := by
  simp [exchange]

theorem mem_missing {p : Mark} : p ∈ f.missing rows fromMs untilMs held ↔
    p ∈ f.marks rows fromMs untilMs ∧ p ∉ held := by
  simp [missing]

theorem Reachable.exchange (hr : f.Reachable rows fromMs untilMs held) :
    f.Reachable rows fromMs untilMs (f.exchange rows fromMs untilMs held) :=
  fun m hm hmiss => hr m hm fun hheld => hmiss (mem_exchange.2 (.inr hheld))

variable (h : f.Sound rows fromMs untilMs) (ha : f.Asker rows fromMs untilMs held)
include h ha

/-- An exchange serves the oldest rows of the days on which the asker misses something. -/
theorem served_eq : f.served rows fromMs untilMs held =
      (sortBy f.key (f.behind rows fromMs untilMs held)).take 200 := by
  set ours := gapDigest (f.marks rows fromMs untilMs) fromMs untilMs
  set theirs := gapDigest held fromMs untilMs
  have hdays : ∀ m ∈ f.window rows fromMs untilMs,
      (f.serves m && ((differingDays ours theirs).getD []).contains (m.timestamp.tdiv dayMs)) =
        (f.marks rows fromMs untilMs).any fun p => p.day = m.mark.day && p ∉ held := by
    intro m hm
    have hnonneg : 0 ≤ m.timestamp := by
      simp only [window, List.mem_filter, Bool.and_eq_true, decide_eq_true_eq] at hm
      exact h.nonneg.trans hm.2.1.1.2
    have hday : m.timestamp.tdiv dayMs = m.mark.day :=
      Int.tdiv_eq_ediv_of_nonneg hnonneg
    rw [h.serves, Bool.true_and, hday, Bool.eq_iff_iff, List.contains_iff_mem,
      mem_differingDays_gapDigest h.nodup ha.nodup ha.subset h.differ]
    simp
  have hspan : gapSpanOk theirs = true := by
    simpa [gapSpanOk, theirs, gapDigest] using h.span
  rw [served, messages, if_pos hspan, behind, ← List.filter_congr hdays]
  change (match differingDays ours theirs with | none => [] | some days => _) = _
  cases differingDays ours theirs with
  | none => simp [sortBy]
  | some days => rfl

omit h ha in
theorem filter_sortBy_behind {p : Mark} (hp : p ∈ f.marks rows fromMs untilMs)
    (hmiss : p ∉ held) :
    (sortBy f.key (f.behind rows fromMs untilMs held)).filter (·.mark.day = p.day) =
      f.dayRows rows fromMs untilMs p.day := by
  rw [filter_sortBy, dayRows, behind, List.filter_filter]
  refine congrArg _ (List.filter_congr fun m _ => ?_)
  by_cases hday : m.mark.day = p.day
  · have hany : ((f.marks rows fromMs untilMs).any fun q => q.day = m.mark.day && q ∉ held) =
        true :=
      List.any_eq_true.2 ⟨p, hp, by simp [hday, hmiss]⟩
    rw [hany, Bool.and_true]
  · simp [hday]

theorem mem_dayRows_of_served (hm : m ∈ f.served rows fromMs untilMs held) :
    m ∈ (f.dayRows rows fromMs untilMs m.mark.day).take 200 := by
  rw [served_eq h ha] at hm
  obtain ⟨-, p, hp, hday, hmiss⟩ :=
    mem_behind.1 (mem_sortBy.1 (List.mem_of_mem_take hm))
  rw [← hday, ← filter_sortBy_behind hp hmiss]
  exact mem_take_filter hm (by simpa using hday.symm)

omit h ha in
theorem day_lt_imp_timestamp_lt {a b : StoredRow κ} (h : a.mark.day < b.mark.day) :
    a.timestamp < b.timestamp := by
  by_contra hle
  have hmono : b.timestamp / dayMs ≤ a.timestamp / dayMs :=
    Int.ediv_le_ediv (by decide) (not_lt.1 hle)
  exact absurd h (not_lt.2 hmono)

theorem mem_served {p : Mark}
    (hp : p ∈ f.marks rows fromMs untilMs) (hmiss : p ∉ held)
    (hfirst : ∀ q ∈ f.marks rows fromMs untilMs, q ∉ held → p.day ≤ q.day)
    (hm : m ∈ (f.dayRows rows fromMs untilMs p.day).take 200) :
    m ∈ f.served rows fromMs untilMs held := by
  rw [served_eq h ha]
  rw [← filter_sortBy_behind hp hmiss] at hm
  refine mem_take_of_filter sorted_sortBy ?_ hm
  intro a _ b hb hap hbp
  obtain ⟨-, q, hq, hqday, hqmiss⟩ := mem_behind.1 (mem_sortBy.1 hb)
  have hle := hfirst q hq hqmiss
  simp only [decide_eq_true_eq] at hap hbp
  refine f.key_lt a b (day_lt_imp_timestamp_lt ?_)
  omega

theorem mem_window_of_served (hm : m ∈ f.served rows fromMs untilMs held) :
    m ∈ f.window rows fromMs untilMs := by
  rw [served_eq h ha] at hm
  exact (mem_behind.1 (mem_sortBy.1 (List.mem_of_mem_take hm))).1

theorem Asker.exchange :
    f.Asker rows fromMs untilMs (f.exchange rows fromMs untilMs held) where
  nodup := ha.nodup.union _
  subset p hp := by
    rcases mem_exchange.1 hp with ⟨m, hm, rfl⟩ | hp
    · exact List.mem_map_of_mem (mem_window_of_served h ha hm)
    · exact ha.subset hp

theorem Reachable.progress (hr : f.Reachable rows fromMs untilMs held)
    (hmiss : (f.missing rows fromMs untilMs held).Nonempty) :
    ∃ m ∈ f.served rows fromMs untilMs held, m.mark ∉ held := by
  obtain ⟨p, hp, hfirst⟩ := Finset.exists_min_image _ Mark.day hmiss
  obtain ⟨hp, hpmiss⟩ := mem_missing.1 hp
  obtain ⟨m, hm, rfl⟩ := List.mem_map.1 hp
  refine ⟨m, mem_served h ha hp hpmiss (fun q hq hqmiss => ?_) (hr m hm hpmiss), hpmiss⟩
  exact hfirst q (mem_missing.2 ⟨hq, hqmiss⟩)

omit h ha in
theorem missing_exchange_ssubset
    (hm : m ∈ f.served rows fromMs untilMs held) (hwindow : m.mark ∈ f.marks rows fromMs untilMs)
    (hmiss : m.mark ∉ held) :
    f.missing rows fromMs untilMs (f.exchange rows fromMs untilMs held) ⊂
      f.missing rows fromMs untilMs held := by
  refine Finset.ssubset_iff_subset_ne.2 ⟨fun p hp => ?_, fun heq => ?_⟩
  · obtain ⟨hp, hpmiss⟩ := mem_missing.1 hp
    exact mem_missing.2 ⟨hp, fun hheld => hpmiss (mem_exchange.2 (.inr hheld))⟩
  · have hback := heq ▸ mem_missing.2 ⟨hwindow, hmiss⟩
    exact (mem_missing.1 hback).2 (mem_exchange.2 (.inl ⟨m, hm, rfl⟩))

/-- Where every row can be reached, repeated exchanges end with nothing missing. -/
theorem Reachable.completes (hr : f.Reachable rows fromMs untilMs held) :
    ∃ n, f.missing rows fromMs untilMs ((f.exchange rows fromMs untilMs)^[n] held) = ∅ := by
  induction hmissing : f.missing rows fromMs untilMs held using Finset.strongInduction
    generalizing held with
  | _ missing ih =>
    subst hmissing
    rcases Finset.eq_empty_or_nonempty (f.missing rows fromMs untilMs held) with hdone | hsome
    · exact ⟨0, hdone⟩
    · obtain ⟨m, hm, hmiss⟩ := hr.progress h ha hsome
      have hwindow : m.mark ∈ f.marks rows fromMs untilMs :=
        List.mem_map_of_mem (mem_window_of_served h ha hm)
      obtain ⟨n, hn⟩ := ih _ (missing_exchange_ssubset hm hwindow hmiss) (ha.exchange h)
        hr.exchange rfl
      exact ⟨n + 1, hn⟩

theorem Asker.iterate (n : Nat) :
    f.Asker rows fromMs untilMs ((f.exchange rows fromMs untilMs)^[n] held) := by
  induction n with
  | zero => exact ha
  | succ n ih =>
    rw [Function.iterate_succ_apply']
    exact ih.exchange h

omit h ha in
theorem Reachable.iterate (hr : f.Reachable rows fromMs untilMs held) (n : Nat) :
    f.Reachable rows fromMs untilMs ((f.exchange rows fromMs untilMs)^[n] held) := by
  induction n with
  | zero => exact hr
  | succ n ih =>
    rw [Function.iterate_succ_apply']
    exact ih.exchange

/-- A row past the oldest 200 of its day is never served. -/
theorem not_mem_iterate (hm : m ∈ f.window rows fromMs untilMs) (hmiss : m.mark ∉ held)
    (hfar : m ∉ (f.dayRows rows fromMs untilMs m.mark.day).take 200) (n : Nat) :
    m.mark ∉ (f.exchange rows fromMs untilMs)^[n] held := by
  induction n with
  | zero => exact hmiss
  | succ n ih =>
    rw [Function.iterate_succ_apply', mem_exchange, not_or]
    refine ⟨?_, ih⟩
    rintro ⟨m', hm', heq⟩
    have ha' := ha.iterate h n
    have hsame : m' = m :=
      List.inj_on_of_nodup_map h.nodup (mem_window_of_served h ha' hm') hm heq
    exact hfar (hsame ▸ mem_dayRows_of_served h ha' hm')

omit h ha in
theorem nodup_marks
    (hids : ((f.window rows fromMs untilMs).map (·.messageId)).Nodup) :
    (f.marks rows fromMs untilMs).Nodup := by
  refine (List.nodup_map_iff_inj_on hids.of_map).2 fun a ha b hb heq => ?_
  refine List.inj_on_of_nodup_map hids ha hb ?_
  have hsome : ∀ m ∈ f.window rows fromMs untilMs, m.messageId = some m.mark.1 := by
    intro m hm
    simp only [window, List.mem_filter, Bool.and_eq_true] at hm
    obtain ⟨id, hid⟩ := Option.isSome_iff_exists.1 hm.2.2
    rw [StoredRow.mark, hid, Option.getD_some]
  rw [hsome a ha, hsome b hb, heq]

end Run

end GapForm

/-- Each of the repeated exchanges makes progress while anything is missing, and they end with
nothing missing, exactly when every row the asker misses is among the oldest 200 of its day. -/
theorem gapRepair_iff {κ ι : Type} [LinearOrder ι] (f : GapForm κ ι)
    (hboth : ∀ m, f.serves m = true) {rows : List (StoredRow κ)} {since fromMs untilMs : Int}
    (hwindow : gapWindow since = some (fromMs, untilMs))
    (hids : ((f.window rows fromMs untilMs).map (·.messageId)).Nodup)
    (hdiffer : DigestsDiffer (f.marks rows fromMs untilMs)) {held : List Mark}
    (hheld : held.Nodup) (hsub : held ⊆ f.marks rows fromMs untilMs) :
    ((∀ n, (∃ p ∈ f.marks rows fromMs untilMs, p ∉ (f.exchange rows fromMs untilMs)^[n] held) →
        ∃ m ∈ f.served rows fromMs untilMs ((f.exchange rows fromMs untilMs)^[n] held),
          m.mark ∉ (f.exchange rows fromMs untilMs)^[n] held) ∧
      ∃ n, ∀ p ∈ f.marks rows fromMs untilMs, p ∈ (f.exchange rows fromMs untilMs)^[n] held) ↔
    ∀ m ∈ f.window rows fromMs untilMs, m.mark ∉ held →
      m ∈ (f.dayRows rows fromMs untilMs m.mark.day).take 200 := by
  have h : f.Sound rows fromMs untilMs := by
    rw [gapWindow] at hwindow
    split_ifs at hwindow with hpos
    obtain ⟨rfl, rfl⟩ := Prod.mk.inj (Option.some_inj.1 hwindow)
    refine ⟨hboth, le_max_right _ _, ?_, GapForm.nodup_marks hids, hdiffer⟩
    simp only [syncGapMaxSpanMs, syncGapWindowMs, dayMs]
    omega
  have ha : f.Asker rows fromMs untilMs held := ⟨hheld, hsub⟩
  constructor
  · rintro ⟨-, n, hn⟩ m hm hmiss
    by_contra hfar
    exact GapForm.not_mem_iterate h ha hm hmiss hfar n (hn _ (List.mem_map_of_mem hm))
  · intro hr
    have hr : f.Reachable rows fromMs untilMs held := hr
    constructor
    · rintro n ⟨p, hp, hmiss⟩
      exact (hr.iterate n).progress h (ha.iterate h n) ⟨p, GapForm.mem_missing.2 ⟨hp, hmiss⟩⟩
    · obtain ⟨n, hn⟩ := hr.completes h ha
      refine ⟨n, fun p hp => ?_⟩
      by_contra hmiss
      exact absurd (GapForm.mem_missing.2 ⟨hp, hmiss⟩) (by simp [hn])

/-- The row of the conversation with `p` sent in millisecond `t`. -/
def rowAt (t : Nat) : StoredMessage :=
  { place := "p", text := "", timestamp := t, messageId := some t.repr }

/-- `n` rows, one a millisecond, on the first day of all. -/
def dayOf (n : Nat) : List StoredMessage := (List.range n).map rowAt

theorem window_dayOf {n : Nat} (hn : n ≤ 1000) :
    (dmForm "p" false).window (dayOf n) 0 dayMs = dayOf n := by
  refine List.filter_eq_self.2 fun m hm => ?_
  obtain ⟨t, ht, rfl⟩ := List.mem_map.1 hm
  have hlt : (t : Int) < dayMs := by
    simp only [List.mem_range, dayMs] at ht ⊢
    omega
  simp [dmForm, rowAt, hlt]

theorem marks_dayOf {n : Nat} (hn : n ≤ 1000) :
    (dmForm "p" false).marks (dayOf n) 0 dayMs = (dayOf n).map StoredRow.mark := by
  rw [GapForm.marks, window_dayOf hn]

theorem nodup_dayOf (n : Nat) : ((dayOf n).map (·.messageId)).Nodup := by
  rw [dayOf, List.map_map]
  refine List.nodup_range.map_on fun a _ b _ heq => ?_
  exact Nat.repr_inj.1 (Option.some_inj.1 heq)

theorem dayRows_dayOf {n : Nat} (hn : n ≤ 1000) :
    (dmForm "p" false).dayRows (dayOf n) 0 dayMs 0 = dayOf n := by
  have hsame : (dayOf n).filter (·.mark.day = 0) = dayOf n := by
    refine List.filter_eq_self.2 fun m hm => ?_
    obtain ⟨t, ht, rfl⟩ := List.mem_map.1 hm
    have ht := List.mem_range.1 ht
    have hday : (t : Int) / dayMs = 0 := by
      rw [dayMs]
      omega
    exact decide_eq_true hday
  rw [GapForm.dayRows, window_dayOf hn, hsame]
  refine sortBy_eq_self ?_
  rw [dayOf, List.pairwise_map]
  refine List.pairwise_lt_range.imp fun hlt => le_of_lt ?_
  exact (dmForm "p" false).key_lt _ _ (by simpa [rowAt] using hlt)

theorem gapRepair_dayOf_two :
    let f := dmForm "p" false
    (∀ n, (∃ p ∈ f.marks (dayOf 2) 0 dayMs, p ∉ (f.exchange (dayOf 2) 0 dayMs)^[n] []) →
        ∃ m ∈ f.served (dayOf 2) 0 dayMs ((f.exchange (dayOf 2) 0 dayMs)^[n] []),
          m.mark ∉ (f.exchange (dayOf 2) 0 dayMs)^[n] []) ∧
      ∃ n, ∀ p ∈ f.marks (dayOf 2) 0 dayMs, p ∈ (f.exchange (dayOf 2) 0 dayMs)^[n] [] :=
  (gapRepair_iff (dmForm "p" false) (fun _ => rfl) (show gapWindow dayMs = some (0, dayMs) from rfl)
    (by decide +kernel) (digestsDiffer_of_length_lt (by decide +kernel)) (by simp) (by simp)).2
    (by decide +kernel)

/-- On a day of 201 rows the asker misses the newest. Everything it is served it holds, so it asks
for the same rows again for ever. -/
theorem not_gapRepair_crowdedDay :
    let f := dmForm "p" false
    let held := f.marks (dayOf 200) 0 dayMs
    ((f.window (dayOf 201) 0 dayMs).map (·.messageId)).Nodup ∧
      DigestsDiffer (f.marks (dayOf 201) 0 dayMs) ∧ held.Nodup ∧
      held ⊆ f.marks (dayOf 201) 0 dayMs ∧ (∃ p ∈ f.marks (dayOf 201) 0 dayMs, p ∉ held) ∧
      ∀ m ∈ f.served (dayOf 201) 0 dayMs held, m.mark ∈ held := by
  intro f held
  have hids : ((f.window (dayOf 201) 0 dayMs).map (·.messageId)).Nodup := by
    rw [window_dayOf (by decide)]
    exact nodup_dayOf 201
  have hdiffer : DigestsDiffer (f.marks (dayOf 201) 0 dayMs) := by
    refine digestsDiffer_of_length_lt ?_
    rw [marks_dayOf (by decide), List.length_map, dayOf, List.length_map, List.length_range]
    decide
  have heq : held = (dayOf 200).map StoredRow.mark := marks_dayOf (by decide)
  have hheld : held.Nodup := by
    refine GapForm.nodup_marks ?_
    rw [window_dayOf (by decide)]
    exact nodup_dayOf 200
  have hsub : held ⊆ f.marks (dayOf 201) 0 dayMs := by
    rw [marks_dayOf (by decide), heq]
    exact List.map_subset _ (List.map_subset _ (List.range_subset.2 (by decide)))
  refine ⟨hids, hdiffer, hheld, hsub, ⟨(rowAt 200).mark, ?_, ?_⟩, fun m hm => ?_⟩
  · rw [marks_dayOf (by decide)]
    exact List.mem_map_of_mem (List.mem_map_of_mem (by simp))
  · rw [heq, dayOf, List.map_map, List.mem_map]
    rintro ⟨t, ht, hmark⟩
    have ht := List.mem_range.1 ht
    have htime : (t : Int) = 200 := congrArg Prod.snd hmark
    omega
  · have hsound : f.Sound (dayOf 201) 0 dayMs :=
      ⟨fun _ => rfl, le_rfl, by decide, GapForm.nodup_marks hids, hdiffer⟩
    have hold := GapForm.mem_dayRows_of_served hsound ⟨hheld, hsub⟩ hm
    have hday : m.mark.day = 0 := by
      have hwindow := GapForm.mem_window_of_served hsound ⟨hheld, hsub⟩ hm
      rw [window_dayOf (by decide), ← dayRows_dayOf (by decide), GapForm.dayRows,
        mem_sortBy, List.mem_filter] at hwindow
      simpa using hwindow.2
    rw [hday, dayRows_dayOf (by decide), dayOf, ← List.map_take] at hold
    obtain ⟨t, ht, rfl⟩ := List.mem_map.1 hold
    rw [heq]
    refine List.mem_map_of_mem (List.mem_map_of_mem ?_)
    simpa [List.take_range] using ht

end Hollow.Store
