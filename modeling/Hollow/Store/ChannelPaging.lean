import Hollow.Store.GapRepair
import Hollow.Store.SenderQuery
import Hollow.Store.SyncPage

/-! Paging through the history of a channel. Each page is asked for by a time and the senders that
are known; a sender the ask does not name is served from its start, and a page that ends no further
than the one before it is not followed. `channelPaging_complete` says when everything has been
served by the end of the chain, `not_channelPaging_complete_refused` shows a chain that stops
early. -/

namespace Hollow.Store

open StableSort

structure ChannelAsk where
  sinceTimestamp : Int
  senderTimestamps : Watermarks
  gap : Option GapDigest

def getLatestChannelTimestamp (store : List StoredChannelMessage) (serverId channelId : String) :
    Option Int :=
  ((store.filter (ofChannel serverId channelId)).map (·.timestamp)).max?

def channelGapAnchor (store : List StoredChannelMessage) (serverId channelId : String) :
    Option GapDigest :=
  match getLatestChannelTimestamp store serverId channelId with
  | none => none
  | some latest =>
    (gapWindow (max (latest - syncLookbackMs) 0)).map fun (fromMs, untilMs) =>
      gapDigest ((channelForm serverId channelId).marks store fromMs untilMs) fromMs untilMs

def channelSyncRequest (store : List StoredChannelMessage) (serverId channelId : String)
    (withGap : Bool) : ChannelAsk where
  sinceTimestamp := (getLatestChannelTimestamp store serverId channelId).getD 0
  senderTimestamps := getPerSenderTimestamps store serverId channelId
  gap := if withGap then channelGapAnchor store serverId channelId else none

structure ChannelPageEnd where
  last : Int
  senders : List String
deriving DecidableEq

def ChannelPageEnd.of (items : List SyncMessageItem) : Option ChannelPageEnd :=
  match (items.map (·.ts)).max? with
  | none => none
  | some last =>
    if items.any (·.ts < last) then some ⟨last, (items.map (·.who)).dedup⟩ else none

/-- The watermarks of the store name its senders; their times are not used. -/
def channelNextPageRequest (store : List StoredChannelMessage) (serverId channelId : String)
    (pageEnd : ChannelPageEnd) : ChannelAsk where
  sinceTimestamp := pageEnd.last
  senderTimestamps :=
    ((getPerSenderTimestamps store serverId channelId).map (·.1) ++ pageEnd.senders).dedup.map
      (·, pageEnd.last)
  gap := none

structure ChannelSyncBatch where
  messages : List SyncMessageItem
  total : Nat
  hasMore : Bool

section Answer

variable (rows : List StoredChannelMessage) (serverId channelId : String)

/-- The rows from the watermarks on, and whether one more was there. -/
def tailRows (ask : ChannelAsk) : List StoredChannelMessage × Bool :=
  if ask.senderTimestamps.isEmpty then
    (getChannelMessagesSince rows serverId channelId ask.sinceTimestamp pageLimit, false)
  else
    let found := getChannelMessagesSincePerSender rows serverId channelId ask.senderTimestamps
      (pageLimit + 1)
    (found.take pageLimit, pageLimit < found.length)

/-- The rows of the answer before link previews are charged. A page cut by its limit takes no gap
row past its end. -/
def answerRows (ask : ChannelAsk) : List StoredChannelMessage :=
  let tail := (tailRows rows serverId channelId ask).1
  match ask.gap with
  | none => tail
  | some gap =>
    let paged := tail.filterMap (·.messageId)
    let tailEnd := if pageLimit ≤ tail.length then tail.getLast?.map (·.timestamp) else none
    let missed := getChannelGapMessages rows serverId channelId gap pageLimit
    sortBy (fun m : StoredChannelMessage => m.timestamp)
      (tail ++ missed.filter fun m =>
        m.messageId.any (!paged.contains ·) && tailEnd.all (m.timestamp ≤ ·))

/-- `total` drives the asker's progress line; the ask for a next page counts just its page. -/
def tailTotal (ask : ChannelAsk) : Nat :=
  if ask.senderTimestamps.isEmpty then
    countChannelMessagesSince rows serverId channelId ask.sinceTimestamp
  else if ask.gap.isNone && ask.senderTimestamps.all (·.2 = ask.sinceTimestamp) then
    (tailRows rows serverId channelId ask).1.length
  else countChannelMessagesSincePerSender rows serverId channelId ask.senderTimestamps

def moreRows (ask : ChannelAsk) : Bool :=
  let tail := tailRows rows serverId channelId ask
  if ask.senderTimestamps.isEmpty then
    pageLimit ≤ tail.1.length && pageLimit < tailTotal rows serverId channelId ask
  else tail.2

def buildChannelSyncBatch (proofs : DeletionProofs) (ask : ChannelAsk) : ChannelSyncBatch :=
  let messages := answerRows rows serverId channelId ask
  let page := channelSyncItems proofs messages
  let gapLen := messages.length - (tailRows rows serverId channelId ask).1.length
  { messages := page.items
    total := tailTotal rows serverId channelId ask + gapLen
    hasMore := page.truncated || moreRows rows serverId channelId ask }

end Answer

inductive Page where
  | last
  | next (pageEnd : Int)
  /-- More follows, but from where this page ends it would come again. -/
  | stuck
deriving DecidableEq

def Page.of (hasMore : Bool) (pageEnd : Option ChannelPageEnd) : Page :=
  match hasMore, pageEnd with
  | false, _ => .last
  | true, some e => .next e.last
  | true, none => .stuck

structure Heard where
  follow : Bool := false
  continued : Bool := false
deriving DecidableEq

/-- Times are milliseconds of a monotonic clock. -/
structure PageChain where
  began : Nat
  heardAt : Nat
  lastEnd : Option Int
  pages : Nat
deriving DecidableEq

structure OpenAsk where
  heardAt : Nat
  stalled : Bool
deriving DecidableEq

structure AskSlot where
  chain : Option PageChain
  ours : Option OpenAsk
  syncedAt : Option Nat
deriving DecidableEq

def nextPageTtl : Nat := 300 * 1000

def maxTenure : Nat := 600 * 1000

def AskSlot.opened (now : Nat) : AskSlot where
  chain := some ⟨now, now, none, 0⟩
  ours := some ⟨now, false⟩
  syncedAt := none

def AskSlot.stall (s : AskSlot) : AskSlot :=
  { s with ours := s.ours.map fun ask => { ask with stalled := true } }

def AskSlot.heard (s : AskSlot) (page : Page) (now : Nat) : AskSlot × Heard :=
  match s.chain with
  | none => (s, {})
  | some chain =>
    if nextPageTtl ≤ now - chain.heardAt then ({ s with chain := none }, {})
    else
      let continued : Bool := 0 < chain.pages
      if maxTenure ≤ now - chain.began then
        ({ s.stall with chain := none }, { continued })
      else
        match page with
        | .next pageEnd =>
          if chain.lastEnd.all (· < pageEnd) then
            ({ s with
                chain := some { chain with
                  lastEnd := some pageEnd, pages := chain.pages + 1, heardAt := now }
                ours := s.ours.map fun ask => { ask with heardAt := now } },
              { follow := true, continued })
          else (s, { continued })
        | .stuck => (s.stall, { continued })
        | .last =>
          (if s.ours.isSome then { s with ours := none, syncedAt := some now } else s,
            { continued })

/-- The chain is within its tenure and its last page is not too long ago. -/
def AskSlot.InTime (s : AskSlot) (now : Nat) : Prop :=
  ∃ chain, s.chain = some chain ∧ now - chain.heardAt < nextPageTtl ∧
    now - chain.began < maxTenure

theorem AskSlot.heard_of_inTime {s : AskSlot} {page : Page} {now : Nat} (h : s.InTime now) :
    (s.heard page now).2.follow = true ↔ ∃ pageEnd chain, page = .next pageEnd ∧
      s.chain = some chain ∧ chain.lastEnd.all (· < pageEnd) ∧
      (s.heard page now).1.chain = some { chain with
        lastEnd := some pageEnd, pages := chain.pages + 1, heardAt := now } := by
  obtain ⟨chain, hchain, hheard, htenure⟩ := h
  rw [heard, hchain]
  dsimp only
  rw [if_neg (not_le.2 hheard), if_neg (not_le.2 htenure)]
  cases page with
  | last => simp
  | stuck => simp
  | next pageEnd =>
    dsimp only
    split_ifs with hlast
    · simp [hlast]
    · simp [hlast]

/-- The asking device between two pages: its slot for the chain and the ask that is out. -/
structure Asker where
  slot : AskSlot
  ask : ChannelAsk

/-- The answering device: its rows, the deletions it can prove, and the channel that is asked
for. -/
structure ChannelAnswerer where
  table : MessageTable ChannelPlace
  proofs : DeletionProofs
  serverId : String
  channelId : String

namespace ChannelAnswerer

variable (d : ChannelAnswerer)

def rows : List StoredChannelMessage := d.table.rows.filter (ofChannel d.serverId d.channelId)

def batch (ask : ChannelAsk) : ChannelSyncBatch :=
  buildChannelSyncBatch d.table.rows d.serverId d.channelId d.proofs ask

def item (m : StoredChannelMessage) : SyncMessageItem := syncItem d.proofs (·.place.senderId) m

def pageEnd (ask : ChannelAsk) : Option ChannelPageEnd :=
  if (d.batch ask).hasMore then ChannelPageEnd.of (d.batch ask).messages else none

def hear (a : Asker) (now : Nat) : AskSlot × Heard :=
  a.slot.heard (Page.of (d.batch a.ask).hasMore (d.pageEnd a.ask)) now

def first (store : List StoredChannelMessage) (withGap : Bool) (now : Nat) : Asker where
  slot := .opened now
  ask := channelSyncRequest store d.serverId d.channelId withGap

/-- The page is followed. By then the asker holds `store`: what it held before, any posts that came
in, and what it kept of the page, so nothing is said about it here. -/
structure Follows (store : List StoredChannelMessage) (e : ChannelPageEnd) (a a' : Asker) :
    Prop where
  heard : ∃ now, a.slot.InTime now ∧ (d.hear a now).2.follow = true ∧
    a'.slot = (d.hear a now).1
  pageEnd : d.pageEnd a.ask = some e
  ask : a'.ask = channelNextPageRequest store d.serverId d.channelId e

/-- A chain of followed pages whose steps all meet `ok`, with the askers before the last one. -/
inductive Run (ok : List StoredChannelMessage → ChannelPageEnd → Prop) :
    Asker → List Asker → Asker → Prop where
  | start (a : Asker) : Run ok a [] a
  | follow {a b c : Asker} {passed : List Asker} {store : List StoredChannelMessage}
      {e : ChannelPageEnd} : Run ok a passed b → ok store e → d.Follows store e b c →
      Run ok a (passed ++ [b]) c

/-- Every chain from `a` comes to an end, on a page without more to come, and by then every row the
watermarks of `a` qualify was in some page. -/
def PagesAll (ok : List StoredChannelMessage → ChannelPageEnd → Prop) (a : Asker) : Prop :=
  (∃ bound, ∀ passed b, d.Run ok a passed b → passed.length ≤ bound) ∧
  ∀ passed b now, d.Run ok a passed b → b.slot.InTime now → (d.hear b now).2.follow = false →
    (d.batch b.ask).hasMore = false ∧
    ∀ m ∈ d.rows, a.ask.senderTimestamps.serves d.serverId d.channelId m →
      ∃ c ∈ passed ++ [b], d.item m ∈ (d.batch c.ask).messages

/-- Every sender with a row before the end of the page is named in the next ask: the asker holds a
row of theirs, or the page does. -/
def NamesSenders (store : List StoredChannelMessage) (e : ChannelPageEnd) : Prop :=
  ∀ m ∈ d.rows, m.timestamp < e.last →
    m.place.senderId ∈ channelSenders store d.serverId d.channelId ∨ m.place.senderId ∈ e.senders

/-- Fewer than 50 rows share a millisecond. -/
def Spread : Prop := ∀ t, (d.rows.filter (·.timestamp = t)).length < minItemsBeforeTruncation

abbrev tail (ask : ChannelAsk) := tailRows d.table.rows d.serverId d.channelId ask

abbrev more (ask : ChannelAsk) := moreRows d.table.rows d.serverId d.channelId ask

abbrev answer (ask : ChannelAsk) := answerRows d.table.rows d.serverId d.channelId ask

def served (ask : ChannelAsk) : List StoredChannelMessage :=
  (packRows syncPreviewBudgetBytes 0 (answerRows d.table.rows d.serverId d.channelId ask)).1

def qualifies (ask : ChannelAsk) (m : StoredChannelMessage) : Bool :=
  ask.senderTimestamps.serves d.serverId d.channelId m

/-- An ask that names no sender asks from the start, where all rows are. -/
def Whole (ask : ChannelAsk) : Prop :=
  ask.senderTimestamps = [] → ask.sinceTimestamp = 0 ∧ ∀ m ∈ d.rows, 0 < m.timestamp

variable {d} {ask : ChannelAsk} {m : StoredChannelMessage}

theorem mem_rows : m ∈ d.rows ↔ m ∈ d.table.rows ∧ ofChannel d.serverId d.channelId m :=
  List.mem_filter

theorem mem_rows_of_qualifies (hm : m ∈ d.table.rows) (h : d.qualifies ask m) : m ∈ d.rows := by
  rw [qualifies, Watermarks.serves, Bool.and_eq_true] at h
  exact mem_rows.2 ⟨hm, h.1⟩

theorem messages_batch : (d.batch ask).messages = (d.served ask).map d.item := rfl

theorem hasMore_batch : (d.batch ask).hasMore =
    ((packRows syncPreviewBudgetBytes 0 (d.answer ask)).2 || d.more ask) := rfl

theorem filter_rows {p : StoredChannelMessage → Bool} (h : ∀ m ∈ d.rows, p m = true) :
    (d.table.rows.filter fun m => ofChannel d.serverId d.channelId m && p m) = d.rows := by
  refine List.filter_congr fun m hm => ?_
  by_cases hchannel : ofChannel d.serverId d.channelId m
  · rw [h m (mem_rows.2 ⟨hm, hchannel⟩), Bool.and_true]
  · rw [Bool.eq_false_iff.2 hchannel, Bool.false_and]

/-- The tail of an answer is the first page of the qualified rows by time. -/
theorem tail_spec (h : d.Whole ask) :
    ∃ all : List StoredChannelMessage, all.Perm (d.table.rows.filter (d.qualifies ask)) ∧
      all.Pairwise (·.timestamp ≤ ·.timestamp) ∧ (d.tail ask).1 = all.take pageLimit ∧
      (d.more ask = true ↔ pageLimit < all.length) := by
  by_cases hempty : ask.senderTimestamps = []
  · obtain ⟨hsince, hpositive⟩ := h hempty
    have hisEmpty : ask.senderTimestamps.isEmpty = true := List.isEmpty_iff.2 hempty
    have hqualifies : d.qualifies ask = ofChannel d.serverId d.channelId := by
      funext m
      simp [qualifies, Watermarks.serves, hempty]
    have htail : (d.tail ask).1 = (sortBy (·.timestamp) d.rows).take pageLimit := by
      rw [tail, tailRows, if_pos hisEmpty, getChannelMessagesSince,
        filter_rows fun m hm => by simp [hsince, hpositive m hm]]
    refine ⟨sortBy (·.timestamp) d.rows, ?_, sorted_sortBy, htail, ?_⟩
    · rw [hqualifies]
      exact sortBy_perm
    · rw [more, moreRows, if_pos hisEmpty, htail, tailTotal, if_pos hisEmpty,
        countChannelMessagesSince, filter_rows fun m hm => by simp [hsince, hpositive m hm],
        List.length_take, sortBy_perm.length_eq, Bool.and_eq_true, decide_eq_true_eq,
        decide_eq_true_eq]
      omega
  · have hnotEmpty : ¬ ask.senderTimestamps.isEmpty = true := mt List.isEmpty_iff.1 hempty
    have hquery : getChannelMessagesSincePerSender d.table.rows d.serverId d.channelId
        ask.senderTimestamps (pageLimit + 1) =
          history d.table.rows (d.qualifies ask) (pageLimit + 1) :=
      getChannelMessagesSincePerSender_eq d.table.ordered hempty
    refine ⟨sortBy StoredRow.historyKey (d.table.rows.filter (d.qualifies ask)),
      sortBy_perm, ?_, ?_, ?_⟩
    · have hsorted : (sortBy StoredRow.historyKey
          (d.table.rows.filter (d.qualifies ask))).Pairwise
            (keyLe StoredRow.historyKey) := sorted_sortBy
      exact hsorted.imp fun h => StoredRow.timestamp_le h
    · rw [tail, tailRows, if_neg hnotEmpty, hquery]
      dsimp only
      rw [history, List.take_take, Nat.min_eq_left (Nat.le_succ _)]
    · rw [more, moreRows, if_neg hnotEmpty, tailRows, if_neg hnotEmpty, hquery]
      dsimp only
      rw [history, List.length_take, decide_eq_true_eq]
      omega

theorem getChannelGapMessages_spec (rows : List StoredChannelMessage)
    (serverId channelId : String) (gap : GapDigest) (limit : Nat) (hrows : rows.Nodup) :
    (getChannelGapMessages rows serverId channelId gap limit).Nodup ∧
      getChannelGapMessages rows serverId channelId gap limit ⊆
        rows.filter (ofChannel serverId channelId) := by
  rw [getChannelGapMessages, GapForm.messages]
  split
  · dsimp only
    split
    · exact ⟨List.nodup_nil, List.nil_subset _⟩
    · refine ⟨(List.take_sublist _ _).nodup (sortBy_perm.nodup_iff.2
        ((hrows.filter _).filter _)), fun m hm => ?_⟩
      have hwindow := (List.mem_filter.1 (mem_sortBy.1 (List.mem_of_mem_take hm))).1
      obtain ⟨hm, hof⟩ := List.mem_filter.1 hwindow
      simp only [Bool.and_eq_true] at hof
      exact List.mem_filter.2 ⟨hm, hof.1.1.1⟩
  · exact ⟨List.nodup_nil, List.nil_subset _⟩

structure Answers (d : ChannelAnswerer) (ask : ChannelAsk) (messages : List StoredChannelMessage) :
    Prop where
  nodup : messages.Nodup
  subset : messages ⊆ d.rows
  sorted : messages.Pairwise (·.timestamp ≤ ·.timestamp)
  /-- Qualified rows that are not in the answer are at or after its end, and more follows. -/
  later : ∀ m ∈ d.table.rows, d.qualifies ask m → m ∉ messages →
    (∀ m' ∈ messages, m'.timestamp ≤ m.timestamp) ∧ d.more ask = true
  full : d.more ask = true → pageLimit ≤ messages.length
  qualified : ask.gap = none → ∀ m ∈ messages, d.qualifies ask m

theorem timestamp_le_of_prefix {all taken : List StoredChannelMessage} {m' : StoredChannelMessage}
    (hsorted : all.Pairwise (·.timestamp ≤ ·.timestamp)) (htaken : taken <+: all) (hm : m ∈ all)
    (hout : m ∉ taken) (hm' : m' ∈ taken) : m'.timestamp ≤ m.timestamp :=
  have hsorted : all.Pairwise (keyLe fun m => m.timestamp) := hsorted
  key_le_of_prefix hsorted htaken hm hout hm'

theorem answers_tailRows (h : d.Whole ask) : d.Answers ask (d.tail ask).1 := by
  obtain ⟨all, hperm, hsorted, htail, hmore⟩ := tail_spec h
  rw [htail]
  have hmem {m} (hm : m ∈ all.take pageLimit) : m ∈ d.table.rows ∧ d.qualifies ask m :=
    List.mem_filter.1 (hperm.mem_iff.1 (List.mem_of_mem_take hm))
  refine ⟨?_, fun m hm => ?_, hsorted.sublist (List.take_sublist _ _), fun m hm hq hout => ?_,
    fun hmore' => ?_, fun _ m hm => (hmem hm).2⟩
  · exact (List.take_sublist _ _).nodup
      (hperm.nodup_iff.2 ((nodup_of_ordered d.table.ordered).filter _))
  · exact mem_rows_of_qualifies (hmem hm).1 (hmem hm).2
  · have hall : m ∈ all := hperm.mem_iff.2 (List.mem_filter.2 ⟨hm, hq⟩)
    refine ⟨fun m' hm' => timestamp_le_of_prefix hsorted (List.take_prefix _ _) hall hout hm',
      hmore.2 (not_le.1 fun hle => hout ?_)⟩
    rwa [List.take_of_length_le hle]
  · rw [List.length_take_of_le (hmore.1 hmore').le]

/-- What an answer leaves out lies at or after its end, and it says that more follows. -/
theorem answers_answerRows (h : d.Whole ask) : d.Answers ask (d.answer ask) := by
  have htail := answers_tailRows h
  cases hgap : ask.gap with
  | none =>
    rw [answer, answerRows, hgap]
    exact htail
  | some gap =>
    rw [answer, answerRows, hgap]
    dsimp only
    set tail := (d.tail ask).1 with hset
    set missed := getChannelGapMessages d.table.rows d.serverId d.channelId gap pageLimit
    obtain ⟨hnodup, hsubset⟩ := getChannelGapMessages_spec d.table.rows d.serverId d.channelId gap
      pageLimit (nodup_of_ordered d.table.ordered)
    refine ⟨?_, fun m hm => ?_, sorted_sortBy, fun m hm hq hout => ?_,
      fun hmore => ?_, fun hnone => by cases hgap.symm.trans hnone⟩
    · refine sortBy_perm.nodup_iff.2 (htail.nodup.append (hnodup.filter _) ?_)
      intro m hm hmissed
      have hkeep := (List.mem_filter.1 hmissed).2
      simp only [Bool.and_eq_true, Option.any_eq_true, Bool.not_eq_true'] at hkeep
      obtain ⟨⟨mid, hmid, hnew⟩, -⟩ := hkeep
      have hpaged : mid ∈ tail.filterMap (·.messageId) := List.mem_filterMap.2 ⟨m, hm, hmid⟩
      simp [hpaged] at hnew
    · rcases List.mem_append.1 (mem_sortBy.1 hm) with hm | hm
      · exact htail.subset hm
      · exact hsubset (List.mem_filter.1 hm).1
    · rw [mem_sortBy, List.mem_append, not_or] at hout
      obtain ⟨hle, hmore⟩ := htail.later m hm hq hout.1
      refine ⟨fun m' hm' => ?_, hmore⟩
      rcases List.mem_append.1 (mem_sortBy.1 hm') with hm' | hm'
      · exact hle m' hm'
      · -- The page is full, so a gap row in it is not after its last tail row.
        have hfull := htail.full hmore
        have hne : tail ≠ [] := List.ne_nil_of_length_pos (lt_of_lt_of_le (by decide) hfull)
        have hkeep := (List.mem_filter.1 hm').2
        rw [Bool.and_eq_true, if_pos hfull, List.getLast?_eq_some_getLast hne] at hkeep
        simp only [Option.map_some, Option.all_some, decide_eq_true_eq] at hkeep
        exact hkeep.2.trans (hle _ (List.getLast_mem hne))
    · rw [sortBy_perm.length_eq, List.length_append]
      exact (htail.full hmore).trans (Nat.le_add_right _ _)

/-! What the page, cut by the preview budget, holds of the answer. -/

theorem served_prefix : d.served ask <+: d.answer ask := packRows_prefix _ _ _

theorem served_eq_answer (h : (packRows syncPreviewBudgetBytes 0 (d.answer ask)).2 = false) :
    d.served ask = d.answer ask :=
  packRows_of_not_truncated h

theorem mem_served_of_not_hasMore (h : d.Whole ask) (hmore : (d.batch ask).hasMore = false)
    (hm : m ∈ d.table.rows) (hq : d.qualifies ask m) : m ∈ d.served ask := by
  rw [hasMore_batch, Bool.or_eq_false_iff] at hmore
  rw [served_eq_answer hmore.1]
  by_contra hout
  have hmore' := ((answers_answerRows h).later m hm hq hout).2
  rw [hmore'] at hmore
  cases hmore.2

theorem timestamp_le_of_not_mem_served (h : d.Whole ask) (hm : m ∈ d.table.rows)
    (hq : d.qualifies ask m) (hout : m ∉ d.served ask) {m' : StoredChannelMessage}
    (hm' : m' ∈ d.served ask) : m'.timestamp ≤ m.timestamp := by
  have hanswers := answers_answerRows h
  by_cases hmem : m ∈ d.answer ask
  · exact timestamp_le_of_prefix hanswers.sorted served_prefix hmem hout hm'
  · exact (hanswers.later m hm hq hmem).1 m' <| served_prefix.subset hm'

theorem le_length_served (h : d.Whole ask) (hmore : (d.batch ask).hasMore = true) :
    minItemsBeforeTruncation ≤ (d.served ask).length := by
  by_cases htruncated : (packRows syncPreviewBudgetBytes 0 (d.answer ask)).2 = true
  · simpa [served] using le_length_packRows htruncated
  · rw [hasMore_batch, Bool.or_eq_true] at hmore
    have hmore := hmore.resolve_left htruncated
    rw [served_eq_answer (Bool.eq_false_iff.2 htruncated)]
    exact le_trans (by decide) ((answers_answerRows h).full hmore)

variable {e : ChannelPageEnd}

theorem of_items (messages : List StoredChannelMessage) :
    ChannelPageEnd.of (messages.map d.item) =
      match (messages.map (·.timestamp)).max? with
      | none => none
      | some last =>
        if messages.any (·.timestamp < last) then
          some ⟨last, (messages.map (·.place.senderId)).dedup⟩
        else none := by
  simp only [ChannelPageEnd.of, List.map_map, List.any_map, Function.comp_def]
  rfl

theorem pageEnd_spec (h : d.pageEnd ask = some e) :
    (d.batch ask).hasMore = true ∧ (∃ m ∈ d.served ask, m.timestamp = e.last) ∧
      (∀ m ∈ d.served ask, m.timestamp ≤ e.last) ∧ (∃ m ∈ d.served ask, m.timestamp < e.last) ∧
      e.senders ≠ [] := by
  rw [pageEnd, messages_batch, of_items] at h
  split at h
  · rename_i hmore
    split at h
    · cases h
    · rename_i last hlast
      obtain ⟨hmem, hle⟩ := List.max?_eq_some_iff.1 hlast
      obtain ⟨newest, hnewest, htime⟩ := List.mem_map.1 hmem
      split at h
      · rename_i hbefore
        cases h
        refine ⟨hmore, ⟨newest, hnewest, htime⟩,
          fun m hm => hle _ (List.mem_map_of_mem hm), by simpa using hbefore, ?_⟩
        exact List.ne_nil_of_mem (List.mem_dedup.2 (List.mem_map_of_mem hnewest))
      · cases h
  · cases h

theorem exists_pageEnd (hwhole : d.Whole ask) (hspread : d.Spread)
    (hmore : (d.batch ask).hasMore = true) : ∃ e, d.pageEnd ask = some e := by
  have hfifty := le_length_served hwhole hmore
  have hanswers := answers_answerRows hwhole
  rw [pageEnd, if_pos hmore, messages_batch, of_items]
  cases hlast : ((d.served ask).map (·.timestamp)).max? with
  | none =>
    have hnil := List.map_eq_nil_iff.1 (List.max?_eq_none_iff.1 hlast)
    rw [hnil] at hfifty
    cases hfifty
  | some last =>
    have hbefore : (d.served ask).any (·.timestamp < last) = true := by
      by_contra hnone
      have hshare : ∀ m ∈ d.served ask, m.timestamp = last := fun m hm => by
        have hle := (List.max?_eq_some_iff.1 hlast).2 _ (List.mem_map_of_mem hm)
        have hge : ¬ m.timestamp < last := fun hlt =>
          hnone (List.any_eq_true.2 ⟨m, hm, by simpa using hlt⟩)
        omega
      have hsub : (d.served ask).Subperm (d.rows.filter (·.timestamp = last)) :=
        List.subperm_of_subset (List.Nodup.sublist served_prefix.sublist hanswers.nodup) fun m hm =>
          List.mem_filter.2 ⟨hanswers.subset <| served_prefix.subset hm, by simpa using hshare m hm⟩
      exact absurd (hfifty.trans hsub.length_le) (not_le.2 (hspread last))
    exact ⟨_, if_pos hbefore⟩

/-- What the chain knows at an asker: from the first followed page on, its ask qualifies exactly
the rows from the end of the last page. -/
structure Cursor (d : ChannelAnswerer) (a : Asker) (lastEnd : Option Int) : Prop where
  whole : d.Whole a.ask
  chain : ∃ chain, a.slot.chain = some chain ∧ chain.lastEnd = lastEnd
  from_end : ∀ last, lastEnd = some last →
    a.ask.gap = none ∧ ∀ m ∈ d.rows, d.qualifies a.ask m ↔ last ≤ m.timestamp

variable {a a' : Asker} {lastEnd : Option Int} {store : List StoredChannelMessage}

theorem Cursor.lt_pageEnd (h : d.Cursor a lastEnd) (hend : d.pageEnd a.ask = some e) :
    lastEnd.all (· < e.last) := by
  cases lastEnd with
  | none => rfl
  | some last =>
    obtain ⟨hgap, hfrom⟩ := h.from_end last rfl
    obtain ⟨-, -, -, ⟨m, hm, hlt⟩, -⟩ := pageEnd_spec hend
    have hanswers := answers_answerRows h.whole
    have hmem := served_prefix.subset hm
    have hle := (hfrom m (hanswers.subset hmem)).1 (hanswers.qualified hgap m hmem)
    simpa using hle.trans_lt hlt

theorem Cursor.follow (h : d.Cursor a lastEnd) (hspread : d.Spread) {now : Nat}
    (htime : a.slot.InTime now) (hmore : (d.batch a.ask).hasMore = true) :
    (d.hear a now).2.follow = true := by
  obtain ⟨e, hend⟩ := exists_pageEnd h.whole hspread hmore
  obtain ⟨chain, hchain, hlast⟩ := h.chain
  have hlt := h.lt_pageEnd hend
  rw [← hlast] at hlt
  obtain ⟨chain', hchain', hheard, htenure⟩ := htime
  cases hchain.symm.trans hchain'
  rw [hear, hmore, hend, AskSlot.heard, hchain]
  simp only [Page.of, if_neg (not_le.2 hheard), if_neg (not_le.2 htenure), if_pos hlt]

theorem lookup_map_pair (names : List String) (last : Int) (sender : String) :
    (names.map (·, last)).lookup sender = if sender ∈ names then some last else none := by
  induction names with
  | nil => rfl
  | cons name names ih =>
    rw [List.map_cons, List.lookup_cons]
    by_cases hname : sender = name
    · simp [hname]
    · rw [beq_eq_false_iff_ne.2 hname, ih]
      simp [hname]

theorem lookup_next (store : List StoredChannelMessage) (serverId channelId : String)
    (e : ChannelPageEnd) (sender : String) :
    (channelNextPageRequest store serverId channelId e).senderTimestamps.lookup sender =
      if sender ∈ channelSenders store serverId channelId ∨ sender ∈ e.senders then
        some e.last
      else none := by
  rw [channelNextPageRequest, lookup_map_pair]
  simp [getPerSenderTimestamps, channelSenderSpans, senderSpan]

theorem qualifies_next (hnames : d.NamesSenders store e) (hm : m ∈ d.rows) :
    d.qualifies (channelNextPageRequest store d.serverId d.channelId e) m ↔
      e.last ≤ m.timestamp := by
  rw [qualifies, Watermarks.serves, (mem_rows.1 hm).2, Bool.true_and, lookup_next]
  split_ifs with hnamed
  · simp
  · simp only [Option.all_none, true_iff]
    by_contra hlt
    exact hnamed (hnames m hm (not_le.1 hlt))

theorem cursor_of_follows (hfollows : d.Follows store e a a')
    (hnames : d.NamesSenders store e) : d.Cursor a' (some e.last) := by
  obtain ⟨now, htime, hfollow, hslot⟩ := hfollows.heard
  obtain ⟨hmore, -, -, -, hsenders⟩ := pageEnd_spec hfollows.pageEnd
  refine ⟨fun hempty => ?_, ?_, fun last hlast => ?_⟩
  · -- The ask names the senders of the page, so it is no ask for everything.
    rw [hfollows.ask] at hempty
    obtain ⟨sender, hsender⟩ := List.exists_mem_of_ne_nil _ hsenders
    have hlookup := lookup_next store d.serverId d.channelId e sender
    rw [hempty, if_pos (.inr hsender)] at hlookup
    cases hlookup
  · obtain ⟨pageEnd, chain, hpage, -, -, hchain⟩ := (AskSlot.heard_of_inTime htime).1 hfollow
    rw [hfollows.pageEnd, hmore] at hpage
    cases hpage
    exact ⟨_, hslot ▸ hchain, rfl⟩
  · cases hlast
    rw [hfollows.ask]
    exact ⟨rfl, fun m hm => qualifies_next hnames hm⟩

/-- What a run has come to: everything its first ask qualified was served or is still asked for, and
each page used up a time. -/
structure Reached (d : ChannelAnswerer) (a : Asker) (passed : List Asker) (b : Asker)
    (lastEnd : Option Int) : Prop where
  cursor : d.Cursor b lastEnd
  covered : ∀ m ∈ d.rows, d.qualifies a.ask m →
    (∃ c ∈ passed, m ∈ d.served c.ask) ∨ d.qualifies b.ask m
  bound : passed.length ≤ (d.rows.filter fun m => lastEnd.any (m.timestamp ≤ ·)).length

theorem Reached.step {passed : List Asker} {b c : Asker} (h : d.Reached a passed b lastEnd)
    (hfollows : d.Follows store e b c) (hnames : d.NamesSenders store e) :
    d.Reached a (passed ++ [b]) c (some e.last) := by
  obtain ⟨-, ⟨newest, hnewest, htime⟩, hle, -, -⟩ := pageEnd_spec hfollows.pageEnd
  refine ⟨cursor_of_follows hfollows hnames, fun m hm hq => ?_, ?_⟩
  · rcases h.covered m hm hq with ⟨c, hc, hserved⟩ | hq
    · exact .inl ⟨c, List.mem_append_left _ hc, hserved⟩
    · by_cases hserved : m ∈ d.served b.ask
      · exact .inl ⟨b, by simp, hserved⟩
      · -- A row the page left out is not before its end, so the next ask qualifies it.
        refine .inr ?_
        rw [hfollows.ask, qualifies_next hnames hm, ← htime]
        exact timestamp_le_of_not_mem_served h.cursor.whole (mem_rows.1 hm).1 hq hserved hnewest
  · -- The page ends at a row that is past the end of the page before.
    have hlt := h.cursor.lt_pageEnd hfollows.pageEnd
    have hrow : newest ∈ d.rows :=
      (answers_answerRows h.cursor.whole).subset <| served_prefix.subset hnewest
    have hfilter : (d.rows.filter fun m => lastEnd.any (m.timestamp ≤ ·)) =
        (d.rows.filter fun m => (some e.last).any (m.timestamp ≤ ·)).filter
          fun m => lastEnd.any (m.timestamp ≤ ·) := by
      rw [List.filter_filter]
      refine List.filter_congr fun m _ => ?_
      cases lastEnd with
      | none => rfl
      | some last =>
        simp only [Option.all_some, decide_eq_true_eq] at hlt
        rw [Option.any_some, Option.any_some, ← Bool.decide_and, decide_eq_decide]
        omega
    have hcount : (d.rows.filter fun m => lastEnd.any (m.timestamp ≤ ·)).length <
        (d.rows.filter fun m => (some e.last).any (m.timestamp ≤ ·)).length := by
      rw [hfilter]
      refine List.length_filter_lt_length_iff_exists.2 ⟨newest, ?_, ?_⟩
      · exact List.mem_filter.2 ⟨hrow, by simp [htime]⟩
      · cases lastEnd with
        | none => simp
        | some last => simpa [htime] using hlt
    have hbound := h.bound
    rw [List.length_append, List.length_singleton]
    omega

theorem Run.reached {passed : List Asker} {b : Asker} (h : d.Run d.NamesSenders a passed b)
    (hstart : d.Cursor a none) : ∃ lastEnd, d.Reached a passed b lastEnd := by
  induction h with
  | start => exact ⟨none, hstart, fun m _ hq => .inr hq, Nat.zero_le _⟩
  | follow _ hnames hfollows ih =>
    obtain ⟨lastEnd, hreached⟩ := ih
    exact ⟨_, hreached.step hfollows hnames⟩

/-- Paging on from a sound cursor reaches every row that is owed. -/
theorem pagesAll_of_cursor (hspread : d.Spread) (hstart : d.Cursor a none) :
    d.PagesAll d.NamesSenders a := by
  refine ⟨⟨d.rows.length, fun passed b hrun => ?_⟩, fun passed b now hrun htime hfollow => ?_⟩
  · obtain ⟨lastEnd, hreached⟩ := hrun.reached hstart
    exact hreached.bound.trans (List.length_filter_le _ _)
  · obtain ⟨lastEnd, hreached⟩ := hrun.reached hstart
    have hmore : (d.batch b.ask).hasMore = false := by
      by_contra hmore
      have hyes := hreached.cursor.follow hspread htime (by simpa using hmore)
      rw [hfollow] at hyes
      cases hyes
    refine ⟨hmore, fun m hm hq => ?_⟩
    have hserved : ∃ c ∈ passed ++ [b], m ∈ d.served c.ask := by
      rcases hreached.covered m hm hq with ⟨c, hc, hserved⟩ | hq
      · exact ⟨c, List.mem_append_left _ hc, hserved⟩
      · exact ⟨b, by simp, mem_served_of_not_hasMore hreached.cursor.whole hmore
          (mem_rows.1 hm).1 hq⟩
    obtain ⟨c, hc, hserved⟩ := hserved
    exact ⟨c, hc, by rw [messages_batch]; exact List.mem_map_of_mem hserved⟩

theorem cursor_first (store : List StoredChannelMessage) (withGap : Bool) (now : Nat)
    (hpositive : channelSenders store d.serverId d.channelId = [] →
      ∀ m ∈ d.rows, 0 < m.timestamp) : d.Cursor (d.first store withGap now) none := by
  refine ⟨fun hempty => ?_, ⟨_, rfl, rfl⟩, fun _ h => by cases h⟩
  have hsenders : channelSenders store d.serverId d.channelId = [] := by
    simpa [first, channelSyncRequest, getPerSenderTimestamps, channelSenderSpans] using hempty
  refine ⟨?_, hpositive hsenders⟩
  have hnone : store.filter (ofChannel d.serverId d.channelId) = [] := by
    refine List.filter_eq_nil_iff.2 fun m hm hchannel => ?_
    have hmem : m.place.senderId ∈ channelSenders store d.serverId d.channelId :=
      mem_channelSenders.2 ⟨m, hm, by simp [ofSender, hchannel]⟩
    simp [hsenders] at hmem
  simp [first, channelSyncRequest, getLatestChannelTimestamp, hnone]

/-- Paging a channel is complete as long as every next ask names the senders that have rows before
the end of the page, and, for an asker without a row of the channel, no row's time is zero or
less. -/
theorem channelPaging_complete (d : ChannelAnswerer) (hspread : d.Spread)
    (store : List StoredChannelMessage) (withGap : Bool) (now : Nat)
    (hpositive : channelSenders store d.serverId d.channelId = [] →
      ∀ m ∈ d.rows, 0 < m.timestamp) :
    d.PagesAll d.NamesSenders (d.first store withGap now) :=
  pagesAll_of_cursor hspread (cursor_first store withGap now hpositive)

def postAt (t : Nat) : StoredChannelMessage :=
  { id := t, place := ⟨"s", "c", if t < 200 then "x" else "y"⟩, text := "", timestamp := t }

/-- `x` posted in each of the first 199 milliseconds, `y` in each of the next 201. -/
def busyChannel : ChannelAnswerer where
  table :=
    { rows := (List.range' 1 400).map postAt
      ordered := List.pairwise_map.2 List.pairwise_lt_range' }
  proofs _ := none
  serverId := "s"
  channelId := "c"

/-- The asker refuses the rows of `x`. -/
def KeepsOnlyY (store : List StoredChannelMessage) (e : ChannelPageEnd) : Prop :=
  store = busyChannel.rows.filter fun m => m.place.senderId = "y" && m.timestamp ≤ e.last

theorem spread_busyChannel : busyChannel.Spread := by
  intro t
  have hnodup : (busyChannel.rows.map (·.timestamp)).Nodup := by
    refine ((List.filter_sublist).map _).nodup ?_
    simp only [busyChannel, List.map_map]
    exact List.Nodup.map (fun a b h => Int.ofNat_inj.1 h) List.nodup_range'
  have hcount := List.nodup_iff_count_le_one.1 hnodup t
  rw [List.count, List.countP_map, List.countP_eq_length_filter] at hcount
  refine lt_of_le_of_lt (le_of_eq_of_le ?_ hcount) (by decide)
  rfl

theorem positive_busyChannel : ∀ m ∈ busyChannel.rows, 0 < m.timestamp := by
  intro m hm
  obtain ⟨t, ht, rfl⟩ := List.mem_map.1 (mem_rows.1 hm).1
  have hle := (List.mem_range'_1.1 ht).1
  simp only [postAt]
  omega

theorem channelPaging_complete_busyChannel :
    busyChannel.PagesAll busyChannel.NamesSenders (busyChannel.first [] true 0) :=
  channelPaging_complete busyChannel spread_busyChannel [] true 0 fun _ => positive_busyChannel

def busyAsker (pages : Nat) (e : ChannelPageEnd) : Asker where
  slot := { chain := some ⟨0, 0, some e.last, pages⟩, ours := some ⟨0, false⟩, syncedAt := none }
  ask := channelNextPageRequest
    (busyChannel.rows.filter fun m => m.place.senderId = "y" && m.timestamp ≤ e.last) "s" "c" e

theorem hear_of_pageEnd {e : ChannelPageEnd} (h : d.pageEnd a.ask = some e) (now : Nat) :
    d.hear a now = a.slot.heard (.next e.last) now := by
  rw [hear, (pageEnd_spec h).1, h]
  rfl

theorem follows_busyAsker {a : Asker} {pages : Nat} {e : ChannelPageEnd}
    (hend : busyChannel.pageEnd a.ask = some e) (hheard : a.slot.heard (.next e.last) 0 =
      ((busyAsker pages e).slot, { follow := true, continued := decide (1 < pages) }))
    (htime : a.slot.InTime 0) :
    busyChannel.Follows (busyChannel.rows.filter fun m =>
      m.place.senderId = "y" && m.timestamp ≤ e.last) e a (busyAsker pages e) := by
  have hhear := hear_of_pageEnd hend 0
  rw [hheard] at hhear
  exact ⟨⟨0, htime, by rw [hhear], by rw [hhear]⟩, hend, rfl⟩

/-- The third ask names only `y`, so the first rows of `x` come again and the page ends where the
second one did. -/
theorem not_channelPaging_complete_refused :
    busyChannel.Spread ∧ (∀ m ∈ busyChannel.rows, 0 < m.timestamp) ∧
      ¬ busyChannel.PagesAll KeepsOnlyY (busyChannel.first [] true 0) := by
  refine ⟨spread_busyChannel, positive_busyChannel, fun hall => ?_⟩
  have hfirst : busyChannel.pageEnd (busyChannel.first [] true 0).ask = some ⟨200, ["x", "y"]⟩ := by
    decide +kernel
  have hsecond : busyChannel.pageEnd (busyAsker 1 ⟨200, ["x", "y"]⟩).ask = some ⟨399, ["y"]⟩ := by
    decide +kernel
  have hthird : busyChannel.pageEnd (busyAsker 2 ⟨399, ["y"]⟩).ask = some ⟨399, ["x", "y"]⟩ := by
    decide +kernel
  have hrun : busyChannel.Run KeepsOnlyY (busyChannel.first [] true 0)
      ([busyChannel.first [] true 0] ++ [busyAsker 1 ⟨200, ["x", "y"]⟩])
      (busyAsker 2 ⟨399, ["y"]⟩) :=
    .follow (.follow (.start _) rfl (follows_busyAsker hfirst rfl ⟨_, rfl, by decide, by decide⟩))
      rfl (follows_busyAsker hsecond rfl ⟨_, rfl, by decide, by decide⟩)
  have hstop : (busyChannel.hear (busyAsker 2 ⟨399, ["y"]⟩) 0).2.follow = false := by
    rw [hear_of_pageEnd hthird]
    rfl
  have hmore := (hall.2 _ _ 0 hrun ⟨_, rfl, by decide, by decide⟩ hstop).1
  rw [(pageEnd_spec hthird).1] at hmore
  cases hmore

end ChannelAnswerer

end Hollow.Store
