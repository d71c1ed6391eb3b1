import Hollow.Store.Messages

/-! The query behind a channel sync: from each sender the asker named, the rows from a watermark
on, from every other sender all rows, oldest first. Senders whose rows all end before the rest
begins are read one by one, the rest in one scan. -/

namespace Hollow.Store

open StableSort

def maxEarlySenders : Nat := 64

def syncLookbackMs : Int := 30 * 60 * 1000

structure SenderSpan where
  sender : String
  first : Int
  last : Int
deriving DecidableEq

abbrev Watermarks : Type := List (String × Int)

variable (rows : List StoredChannelMessage) (serverId channelId : String)

def ofChannel (m : StoredChannelMessage) : Bool :=
  m.place.serverId = serverId && m.place.channelId = channelId

def ofSender (sender : String) (m : StoredChannelMessage) : Bool :=
  ofChannel serverId channelId m && m.place.senderId = sender

def channelSenders : List String :=
  sortBy id ((rows.filter (ofChannel serverId channelId)).map (·.place.senderId)).dedup

def senderTimes (sender : String) (since : Option Int) : List Int :=
  (rows.filter fun m => ofSender serverId channelId sender m && since.all (· ≤ m.timestamp)).map
    (·.timestamp)

def senderSpan (sender : String) : SenderSpan :=
  let times := senderTimes rows serverId channelId sender none
  ⟨sender, times.min?.getD 0, times.max?.getD 0⟩

def channelSenderSpans : List SenderSpan :=
  (channelSenders rows serverId channelId).map (senderSpan rows serverId channelId)

def getPerSenderTimestamps : Watermarks :=
  (channelSenderSpans rows serverId channelId).map fun span =>
    (span.sender, max (span.last - syncLookbackMs) 0)

def qualifyingSpans (senders : List SenderSpan) (senderTimestamps : Watermarks) :
    List SenderSpan :=
  senders.filterMap fun span =>
    match senderTimestamps.lookup span.sender with
    | none => some span
    | some since =>
      (senderTimes rows serverId channelId span.sender (some since)).min?.map fun first =>
        { span with first }

def earlySplitFrom : List SenderSpan → Nat → Nat → Int → Nat
  | [], _, split, _ => split
  | span :: rest, i, split, newest =>
    earlySplitFrom rest (i + 1) (if 0 < i ∧ newest < span.first then i else split)
      (max newest span.last)

def earlySenderSplit (spans : List SenderSpan) : Nat :=
  earlySplitFrom (spans.take (maxEarlySenders + 1)) 0 0 (-2 ^ 63)

/-- `ORDER BY timestamp`: rows of one millisecond come in the order of the table. -/
def getChannelMessagesSince (sinceTimestamp : Int) (limit : Nat) : List StoredChannelMessage :=
  (sortBy (fun m : StoredChannelMessage => m.timestamp) (rows.filter fun m =>
    ofChannel serverId channelId m &&
      (sinceTimestamp < m.timestamp || after m.updatedAt sinceTimestamp))).take limit

def countChannelMessagesSince (sinceTimestamp : Int) : Nat :=
  (rows.filter fun m => ofChannel serverId channelId m && sinceTimestamp < m.timestamp).length

def earlyRows (span : SenderSpan) (limit : Nat) : List StoredChannelMessage :=
  history rows
    (fun m => ofSender serverId channelId span.sender m && span.first ≤ m.timestamp) limit

/-- The scan leaves out a sender's rows behind a watermark that is past its start. -/
def scanRows (senders : List SenderSpan) (senderTimestamps : Watermarks) (scanFrom : Int)
    (limit : Nat) : List StoredChannelMessage :=
  let behind := senders.filterMap fun span =>
    (senderTimestamps.lookup span.sender).bind fun since =>
      if scanFrom < since then some (span.sender, since) else none
  history rows (fun m => ofChannel serverId channelId m && scanFrom ≤ m.timestamp &&
    !behind.any fun p => m.place.senderId = p.1 && m.timestamp < p.2) limit

def getChannelMessagesSincePerSender (senderTimestamps : Watermarks) (limit : Nat) :
    List StoredChannelMessage :=
  if senderTimestamps.isEmpty then getChannelMessagesSince rows serverId channelId 0 limit
  else
    let senders := channelSenderSpans rows serverId channelId
    let spans := sortBy SenderSpan.first
      (qualifyingSpans rows serverId channelId senders senderTimestamps)
    let split := earlySenderSplit spans
    -- No span stands at the split only when there is none at all.
    match spans[split]? with
    | none => []
    | some start =>
      (sortBy StoredRow.rowKey
        ((spans.take split).flatMap (earlyRows rows serverId channelId · limit) ++
          scanRows rows serverId channelId senders senderTimestamps start.first limit)).take limit

def countChannelMessagesSincePerSender (senderTimestamps : Watermarks) : Nat :=
  if senderTimestamps.isEmpty then countChannelMessagesSince rows serverId channelId 0
  else
    ((qualifyingSpans rows serverId channelId (channelSenderSpans rows serverId channelId)
      senderTimestamps).map fun span =>
        (senderTimes rows serverId channelId span.sender (some span.first)).length).sum

def Watermarks.serves (senderTimestamps : Watermarks) (m : StoredChannelMessage) : Bool :=
  ofChannel serverId channelId m &&
    (senderTimestamps.lookup m.place.senderId).all (· ≤ m.timestamp)

section Spans

variable {rows serverId channelId} {w : Watermarks} {span : SenderSpan} {m : StoredChannelMessage}
  {sender : String}

theorem mem_channelSenders :
    sender ∈ channelSenders rows serverId channelId ↔
      ∃ m ∈ rows, ofSender serverId channelId sender m := by
  simp only [channelSenders, mem_sortBy, List.mem_dedup, List.mem_map, List.mem_filter,
    ofSender, Bool.and_eq_true, decide_eq_true_eq, and_assoc]

theorem nodup_channelSenders : (channelSenders rows serverId channelId).Nodup :=
  sortBy_perm.nodup_iff.2 (List.nodup_dedup _)

theorem mem_senderTimes {since : Option Int} {t : Int} :
    t ∈ senderTimes rows serverId channelId sender since ↔
      ∃ m ∈ rows, ofSender serverId channelId sender m ∧ since.all (· ≤ m.timestamp) ∧
        m.timestamp = t := by
  simp only [senderTimes, List.mem_map, List.mem_filter, Bool.and_eq_true, and_assoc]

theorem timestamp_mem_senderTimes (hm : m ∈ rows) (hof : ofSender serverId channelId sender m) :
    m.timestamp ∈ senderTimes rows serverId channelId sender none :=
  mem_senderTimes.2 ⟨m, hm, hof, rfl, rfl⟩

theorem first_le_iff {since : Option Int} {first : Int}
    (hfirst : (senderTimes rows serverId channelId sender since).min? = some first)
    (hm : m ∈ rows) (hof : ofSender serverId channelId sender m) :
    first ≤ m.timestamp ↔ since.all (· ≤ m.timestamp) := by
  obtain ⟨hmem, hle⟩ := List.min?_eq_some_iff.1 hfirst
  obtain ⟨m', -, -, hsince, rfl⟩ := mem_senderTimes.1 hmem
  refine ⟨fun hfrom => ?_, fun hsince => hle _ (mem_senderTimes.2 ⟨m, hm, hof, hsince, rfl⟩)⟩
  cases since with
  | none => rfl
  | some since =>
    simp only [Option.all_some, decide_eq_true_eq] at hsince ⊢
    exact hsince.trans hfrom

theorem serves_eq_of_ofSender (hof : ofSender serverId channelId sender m) :
    w.serves serverId channelId m = (w.lookup sender).all (· ≤ m.timestamp) := by
  simp only [ofSender, Bool.and_eq_true, decide_eq_true_eq] at hof
  rw [Watermarks.serves, hof.1, hof.2, Bool.true_and]

theorem ofSender_of_serves (h : w.serves serverId channelId m)
    (hsender : sender = m.place.senderId) : ofSender serverId channelId sender m := by
  simp only [Watermarks.serves, Bool.and_eq_true] at h
  simp [ofSender, h.1, hsender]

/-- A span of the query: its sender's rows that are served start at `first`, and all its rows end
by `last`. -/
structure Spans (rows : List StoredChannelMessage) (serverId channelId : String) (w : Watermarks)
    (span : SenderSpan) : Prop where
  serves_iff : ∀ m ∈ rows, ofSender serverId channelId span.sender m →
    (w.serves serverId channelId m ↔ span.first ≤ m.timestamp)
  le_last : ∀ m ∈ rows, ofSender serverId channelId span.sender m → m.timestamp ≤ span.last

theorem spans_of_mem (h : span ∈ qualifyingSpans rows serverId channelId
      (channelSenderSpans rows serverId channelId) w) :
    Spans rows serverId channelId w span := by
  obtain ⟨whole, hwhole, hspan⟩ := List.mem_filterMap.1 h
  obtain ⟨sender, hsender, rfl⟩ := List.mem_map.1 hwhole
  have hlast {m} (hm : m ∈ rows) (hof : ofSender serverId channelId sender m) :
      m.timestamp ≤ (senderTimes rows serverId channelId sender none).max?.getD 0 := by
    have hmem := timestamp_mem_senderTimes hm hof
    cases hmax : (senderTimes rows serverId channelId sender none).max? with
    | none => simp [List.max?_eq_none_iff.1 hmax] at hmem
    | some last => exact (List.max?_eq_some_iff.1 hmax).2 _ hmem
  cases hw : w.lookup sender with
  | none =>
    simp only [senderSpan, hw, Option.some.injEq] at hspan
    subst hspan
    refine ⟨fun m hm hof => ?_, fun m hm hof => hlast hm hof⟩
    obtain ⟨first, hfirst⟩ : ∃ first,
        (senderTimes rows serverId channelId sender none).min? = some first := by
      refine Option.ne_none_iff_exists'.1 fun hnone => ?_
      have hmem := timestamp_mem_senderTimes hm hof
      simp [List.min?_eq_none_iff.1 hnone] at hmem
    rw [serves_eq_of_ofSender hof, hw, hfirst]
    exact (first_le_iff hfirst hm hof).symm
  | some since =>
    simp only [senderSpan, hw] at hspan
    obtain ⟨first, hfirst, rfl⟩ := Option.map_eq_some_iff.1 hspan
    refine ⟨fun m hm hof => ?_, fun m hm hof => hlast hm hof⟩
    rw [serves_eq_of_ofSender hof, hw]
    exact (first_le_iff hfirst hm hof).symm

theorem senders_qualifyingSpans :
    ((qualifyingSpans rows serverId channelId (channelSenderSpans rows serverId channelId) w).map
      SenderSpan.sender).Nodup := by
  have hsub : ∀ spans : List SenderSpan, List.Sublist
      ((qualifyingSpans rows serverId channelId spans w).map SenderSpan.sender)
      (spans.map SenderSpan.sender) := by
    intro spans
    induction spans with
    | nil => exact List.nil_sublist _
    | cons span spans ih =>
      rw [qualifyingSpans, List.filterMap_cons]
      split
      · exact ih.cons _
      · rename_i span' hspan'
        have hsender : span'.sender = span.sender := by
          split at hspan'
          · rw [Option.some.inj hspan']
          · obtain ⟨first, -, rfl⟩ := Option.map_eq_some_iff.1 hspan'
            rfl
        rw [List.map_cons, List.map_cons, hsender]
        exact ih.cons_cons _
  refine (hsub _).nodup ?_
  have hsenders : (channelSenderSpans rows serverId channelId).map SenderSpan.sender =
      channelSenders rows serverId channelId := by
    simp [channelSenderSpans, senderSpan, Function.comp_def]
  rw [hsenders]
  exact nodup_channelSenders

/-- Every owed row has a sender whose span qualifies. -/
theorem exists_span (hm : m ∈ rows) (hserves : w.serves serverId channelId m) :
    ∃ span ∈ qualifyingSpans rows serverId channelId
      (channelSenderSpans rows serverId channelId) w, span.sender = m.place.senderId := by
  have hof := ofSender_of_serves hserves rfl
  have hwhole : senderSpan rows serverId channelId m.place.senderId ∈
      channelSenderSpans rows serverId channelId :=
    List.mem_map_of_mem (mem_channelSenders.2 ⟨m, hm, hof⟩)
  rw [serves_eq_of_ofSender hof] at hserves
  cases hw : w.lookup m.place.senderId with
  | none =>
    refine ⟨senderSpan rows serverId channelId m.place.senderId,
      List.mem_filterMap.2 ⟨_, hwhole, ?_⟩, rfl⟩
    simp only [senderSpan, hw]
  | some since =>
    rw [hw] at hserves
    cases hfirst : (senderTimes rows serverId channelId m.place.senderId (some since)).min? with
    | none =>
      have hmem := mem_senderTimes.2 ⟨m, hm, hof, hserves, rfl⟩
      simp [List.min?_eq_none_iff.1 hfirst] at hmem
    | some first =>
      refine ⟨{ senderSpan rows serverId channelId m.place.senderId with first },
        List.mem_filterMap.2 ⟨_, hwhole, ?_⟩, rfl⟩
      simp only [senderSpan, hw, hfirst, Option.map_some]

end Spans

def SplitsAt (spans : List SenderSpan) (split : Nat) : Prop :=
  ∀ start, spans[split]? = some start → ∀ span ∈ spans.take split, span.last < start.first

theorem splitsAt_earlySplitFrom {spans : List SenderSpan} (done rest tail : List SenderSpan)
    (hspans : spans = done ++ (rest ++ tail)) {split : Nat} {newest : Int}
    (hsplit : SplitsAt spans split) (hnewest : ∀ span ∈ done, span.last ≤ newest) :
    SplitsAt spans (earlySplitFrom rest done.length split newest) := by
  induction rest generalizing done split newest with
  | nil => exact hsplit
  | cons span rest ih =>
    rw [earlySplitFrom]
    have hdone : (done ++ [span]).length = done.length + 1 := by simp
    rw [← hdone]
    refine ih (done ++ [span]) (by simp [hspans]) ?_ ?_
    · split_ifs with hnew
      · intro start hstart early hearly
        have hat : start = span := by simpa [hspans] using hstart.symm
        have hearly : early ∈ done := by simpa [hspans] using hearly
        rw [hat]
        exact (hnewest early hearly).trans_lt hnew.2
      · exact hsplit
    · intro early hearly
      rcases List.mem_append.1 hearly with hearly | hearly
      · exact (hnewest early hearly).trans (le_max_left _ _)
      · rw [List.mem_singleton.1 hearly]
        exact le_max_right _ _

theorem splitsAt_earlySenderSplit (spans : List SenderSpan) :
    SplitsAt spans (earlySenderSplit spans) :=
  splitsAt_earlySplitFrom [] _ (spans.drop (maxEarlySenders + 1))
    (by rw [List.nil_append, List.take_append_drop])
    (fun _ _ _ h => by simp at h) (by simp)

theorem earlySplitFrom_lt {rest : List SenderSpan} {i split : Nat} {newest : Int}
    (h : split < i + rest.length) : earlySplitFrom rest i split newest < i + rest.length := by
  induction rest generalizing i split newest with
  | nil => exact h
  | cons span rest ih =>
    rw [earlySplitFrom, List.length_cons]
    rw [List.length_cons] at h
    refine (ih ?_).trans_eq (by omega)
    split_ifs <;> omega

theorem earlySenderSplit_lt {spans : List SenderSpan} (h : spans ≠ []) :
    earlySenderSplit spans < spans.length := by
  have hpos := List.length_pos_iff.2 h
  have hlength : (spans.take (maxEarlySenders + 1)).length ≤ spans.length :=
    List.length_take_le' _ _
  rw [earlySenderSplit]
  refine (earlySplitFrom_lt ?_).trans_le (by omega)
  rw [List.length_take, maxEarlySenders]
  omega

theorem first_le_of_mem_drop {spans : List SenderSpan} {split : Nat} {start span : SenderSpan}
    (hsorted : spans.Pairwise (keyLe SenderSpan.first))
    (hstart : spans[split]? = some start) (hmem : span ∈ spans.drop split) :
    start.first ≤ span.first := by
  obtain ⟨hlt, hget⟩ := List.getElem?_eq_some_iff.1 hstart
  rw [List.drop_eq_getElem_cons hlt, hget] at hmem
  have hsorted := hsorted.drop (i := split)
  rw [List.drop_eq_getElem_cons hlt, hget] at hsorted
  rcases List.mem_cons.1 hmem with rfl | hmem
  · exact le_rfl
  · exact List.rel_of_pairwise_cons hsorted hmem

section Query

variable {rows serverId channelId} {w : Watermarks} {limit : Nat} {span : SenderSpan}
  {m : StoredChannelMessage} {early : List SenderSpan} {scanFrom : Int}

/-- The rows the watermarks qualify, in the order they are served in. -/
abbrev servedRows (rows : List StoredChannelMessage) (serverId channelId : String)
    (w : Watermarks) : List StoredChannelMessage :=
  sortBy StoredRow.rowKey (rows.filter (w.serves serverId channelId))

theorem mem_filter_take {p : StoredChannelMessage → Bool}
    (h : m ∈ ((servedRows rows serverId channelId w).filter p).take limit) :
    m ∈ rows.filter (w.serves serverId channelId) ∧ p m := by
  obtain ⟨hm, hp⟩ := List.mem_filter.1 (List.mem_of_mem_take h)
  exact ⟨mem_sortBy.1 hm, hp⟩

def collected (rows : List StoredChannelMessage) (serverId channelId : String) (w : Watermarks)
    (limit : Nat) (early : List SenderSpan) (scanFrom : Int) : List StoredChannelMessage :=
  early.flatMap (earlyRows rows serverId channelId · limit) ++
    scanRows rows serverId channelId (channelSenderSpans rows serverId channelId) w scanFrom limit

variable (hrows : rows.Pairwise (·.id < ·.id))

include hrows

theorem history_eq_take_filter {qualifies wider part : StoredChannelMessage → Bool}
    (h : ∀ m ∈ rows, qualifies m ↔ wider m ∧ part m) :
    history rows qualifies limit =
      ((sortBy StoredRow.rowKey (rows.filter wider)).filter part).take limit := by
  have hfilter : rows.filter qualifies = (rows.filter wider).filter part := by
    rw [List.filter_filter]
    exact List.filter_congr fun m hm => by
      rw [Bool.eq_iff_iff, h m hm, Bool.and_eq_true, and_comm]
  rw [history, sortBy_historyKey_eq (hrows.filter _), hfilter, filter_sortBy]

theorem earlyRows_eq (hspan : Spans rows serverId channelId w span) :
    earlyRows rows serverId channelId span limit =
      ((servedRows rows serverId channelId w).filter
        (·.place.senderId = span.sender)).take limit := by
  refine history_eq_take_filter hrows fun m hm => ?_
  rw [Bool.and_eq_true, decide_eq_true_eq, decide_eq_true_eq]
  constructor
  · rintro ⟨hof, hfirst⟩
    refine ⟨(hspan.serves_iff m hm hof).2 hfirst, ?_⟩
    simp only [ofSender, Bool.and_eq_true, decide_eq_true_eq] at hof
    exact hof.2
  · rintro ⟨hserves, hsender⟩
    have hof := ofSender_of_serves hserves hsender.symm
    exact ⟨hof, (hspan.serves_iff m hm hof).1 hserves⟩

/-- The scan serves the owed rows from its start on. -/
theorem scanRows_eq (scanFrom : Int) :
    scanRows rows serverId channelId (channelSenderSpans rows serverId channelId) w scanFrom limit =
      ((servedRows rows serverId channelId w).filter (scanFrom ≤ ·.timestamp)).take limit := by
  refine history_eq_take_filter hrows fun m hm => ?_
  simp only [Watermarks.serves, Bool.and_eq_true, decide_eq_true_eq, Bool.not_eq_true',
    List.any_eq_false, not_and, not_lt, and_assoc, and_congr_right_iff]
  intro hchannel
  have hmem : senderSpan rows serverId channelId m.place.senderId ∈
      channelSenderSpans rows serverId channelId :=
    List.mem_map_of_mem (mem_channelSenders.2 ⟨m, hm, by simp [ofSender, hchannel]⟩)
  constructor
  · rintro ⟨hfrom, hnot⟩
    refine ⟨?_, hfrom⟩
    cases hw : w.lookup m.place.senderId with
    | none => rfl
    | some since =>
      simp only [Option.all_some, decide_eq_true_eq]
      by_contra hlt
      refine hlt (hnot (m.place.senderId, since) (List.mem_filterMap.2 ⟨_, hmem, ?_⟩) rfl)
      simp only [senderSpan, hw, Option.bind_some]
      exact if_pos (hfrom.trans_lt (not_le.1 hlt))
  · rintro ⟨hserves, hfrom⟩
    refine ⟨hfrom, fun p hp hsender => ?_⟩
    obtain ⟨span, -, hspan⟩ := List.mem_filterMap.1 hp
    obtain ⟨since, hw, hif⟩ := Option.bind_eq_some_iff.1 hspan
    split_ifs at hif
    cases hif
    rw [hsender, hw] at hserves
    simpa using hserves

section Collected

variable (hspan : ∀ span ∈ early, Spans rows serverId channelId w span)

include hspan

theorem collected_subset :
    collected rows serverId channelId w limit early scanFrom ⊆
      rows.filter (w.serves serverId channelId) := by
  intro m hm
  rcases List.mem_append.1 hm with hm | hm
  · obtain ⟨span, hearly, hm⟩ := List.mem_flatMap.1 hm
    rw [earlyRows_eq hrows (hspan span hearly)] at hm
    exact (mem_filter_take hm).1
  · rw [scanRows_eq hrows] at hm
    exact (mem_filter_take hm).1

theorem nodup_collected (hsenders : (early.map SenderSpan.sender).Nodup)
    (hscan : ∀ span ∈ early, span.last < scanFrom) :
    (collected rows serverId channelId w limit early scanFrom).Nodup := by
  have hnodup {p : StoredChannelMessage → Bool} :
      (((servedRows rows serverId channelId w).filter p).take limit).Nodup :=
    (List.take_sublist _ _).nodup ((sortBy_perm.nodup_iff.2
      (nodup_of_ordered (hrows.filter _))).filter _)
  refine List.Nodup.append (List.nodup_flatMap.2 ⟨fun span hearly => ?_, ?_⟩) ?_ ?_
  · rw [earlyRows_eq hrows (hspan span hearly)]
    exact hnodup
  · -- Rows of two spans have two senders.
    refine (List.pairwise_map.1 hsenders).imp_of_mem fun {a b} ha hb hne m hma hmb => hne ?_
    dsimp only at hma hmb
    rw [earlyRows_eq hrows (hspan a ha)] at hma
    rw [earlyRows_eq hrows (hspan b hb)] at hmb
    have hma := of_decide_eq_true (mem_filter_take hma).2
    have hmb := of_decide_eq_true (mem_filter_take hmb).2
    exact hma.symm.trans hmb
  · rw [scanRows_eq hrows]
    exact hnodup
  · -- A span's rows end before the scan begins.
    intro m hearly hscanned
    obtain ⟨span, hmem, hearly⟩ := List.mem_flatMap.1 hearly
    rw [earlyRows] at hearly
    obtain ⟨hm, hof⟩ := mem_of_mem_history hearly
    rw [Bool.and_eq_true] at hof
    rw [scanRows_eq hrows] at hscanned
    have hfrom := of_decide_eq_true (mem_filter_take hscanned).2
    have hlast := (hspan span hmem).le_last m hm hof.1
    have hlt := hscan span hmem
    omega

theorem mem_collected (hm : m ∈ (servedRows rows serverId channelId w).take limit)
    (hpart : (∃ span ∈ early, span.sender = m.place.senderId) ∨ scanFrom ≤ m.timestamp) :
    m ∈ collected rows serverId channelId w limit early scanFrom := by
  rcases hpart with ⟨span, hearly, hsender⟩ | hfrom
  · refine List.mem_append_left _ (List.mem_flatMap.2 ⟨span, hearly, ?_⟩)
    rw [earlyRows_eq hrows (hspan span hearly)]
    exact mem_take_filter hm (by simp [hsender])
  · refine List.mem_append_right _ ?_
    rw [scanRows_eq hrows]
    exact mem_take_filter hm (by simpa using hfrom)

end Collected

/-- The spans and the scan together give the first rows that are served, as one query would. -/
theorem getChannelMessagesSincePerSender_eq (hw : w ≠ []) :
    getChannelMessagesSincePerSender rows serverId channelId w limit =
      history rows (w.serves serverId channelId) limit := by
  set senders := channelSenderSpans rows serverId channelId with hsenders
  set spans := sortBy SenderSpan.first
    (qualifyingSpans rows serverId channelId senders w) with hspans
  set served := rows.filter (w.serves serverId channelId) with hserved
  have hordered : served.Pairwise (·.id < ·.id) := hrows.filter _
  have hspan {span} (h : span ∈ spans) : Spans rows serverId channelId w span :=
    spans_of_mem (mem_sortBy.1 h)
  rw [getChannelMessagesSincePerSender, if_neg (by simpa using hw), history,
    sortBy_historyKey_eq hordered]
  dsimp only
  rw [← hsenders, ← hspans]
  split
  · rename_i hnone
    have hempty : spans = [] := by
      by_contra hne
      exact absurd (List.getElem?_eq_none_iff.1 hnone) (not_le.2 (earlySenderSplit_lt hne))
    have hserved : served = [] := List.filter_eq_nil_iff.2 fun m hm hserves => by
      obtain ⟨span, hmem, -⟩ := exists_span hm hserves
      have hmem : span ∈ spans := mem_sortBy.2 hmem
      simp [hempty] at hmem
    rw [hserved]
    exact (List.take_nil).symm
  · rename_i start hstart
    have hsplit := splitsAt_earlySenderSplit spans start hstart
    have hsenders : (spans.map SenderSpan.sender).Nodup :=
      (sortBy_perm.map _).nodup_iff.2 senders_qualifyingSpans
    refine take_sortBy_of_first
      (fun a ha b hb => rowKey_injOn hordered ha hb) (nodup_of_ordered hordered)
      (nodup_collected hrows (fun _ h => hspan (List.mem_of_mem_take h))
        ((List.take_sublist _ _).map _ |>.nodup hsenders) hsplit)
      (collected_subset hrows fun _ h => hspan (List.mem_of_mem_take h)) fun m hm => ?_
    obtain ⟨hrow, hserves⟩ := List.mem_filter.1 (mem_sortBy.1 (List.mem_of_mem_take hm))
    obtain ⟨span, hmem, hsender⟩ := exists_span hrow hserves
    have hmem : span ∈ spans := mem_sortBy.2 hmem
    refine mem_collected hrows (fun _ h => hspan (List.mem_of_mem_take h)) hm ?_
    rw [← List.take_append_drop (earlySenderSplit spans) spans] at hmem
    rcases List.mem_append.1 hmem with hearly | hrest
    · exact .inl ⟨span, hearly, hsender⟩
    · -- The spans from the split on begin no earlier than the one at the split.
      have hfirst : start.first ≤ span.first :=
        first_le_of_mem_drop sorted_sortBy hstart hrest
      have hof := ofSender_of_serves hserves hsender
      exact .inr (hfirst.trans (((hspan (List.mem_of_mem_drop hrest)).serves_iff m hrow hof).1
        hserves))

end Query

end Hollow.Store
