import Hollow.Store.SenderQuery

/-! A page of the per-sender query against its plain meaning: the first rows in history order of all
those the watermarks serve. Without watermarks the store answers with an older query, which leaves
out times up to zero and orders by time alone. -/

namespace Hollow.Store

open StableSort

variable {rows : List StoredChannelMessage} {serverId channelId : String} {w : Watermarks}
  {limit : Nat} {m m' : StoredChannelMessage}

/-- The first `limit` rows the watermarks serve, none twice and none left out. -/
structure PlainPage (rows : List StoredChannelMessage) (serverId channelId : String)
    (w : Watermarks) (limit : Nat) (page : List StoredChannelMessage) : Prop where
  eq : page = history rows (w.serves serverId channelId) limit
  nodup : page.Nodup
  complete : ∀ m ∈ rows, w.serves serverId channelId m → m ∉ page →
    page.length = limit ∧ ∀ m' ∈ page, m'.historyKey ≤ m.historyKey

theorem plainPage_history (hrows : rows.Pairwise (·.id < ·.id)) :
    PlainPage rows serverId channelId w limit
      (history rows (w.serves serverId channelId) limit) := by
  refine ⟨rfl, ?_, fun m hm hserves hout => ⟨?_, fun m' hm' => ?_⟩⟩
  · exact (List.take_sublist _ _).nodup
      (sortBy_perm.nodup_iff.2 (nodup_of_ordered (hrows.filter _)))
  · by_contra hlength
    have hle : (history rows (w.serves serverId channelId) limit).length ≤ limit :=
      List.length_take_le _ _
    exact hout (mem_history_of_length_lt (by omega) hm hserves)
  · exact key_le_of_prefix sorted_sortBy history_prefix
      (mem_sortBy.2 (List.mem_filter.2 ⟨hm, hserves⟩)) hout hm'

def sinceStart (serverId channelId : String) (m : StoredChannelMessage) : Bool :=
  ofChannel serverId channelId m && (0 < m.timestamp || after m.updatedAt 0)

/-- How many rows of the channel history reads before a row. -/
def historyRank (rows : List StoredChannelMessage) (serverId channelId : String)
    (m : StoredChannelMessage) : Nat :=
  ((rows.filter (ofChannel serverId channelId)).filter (·.rowKey < m.rowKey)).length

/-- The first rows of the channel have times above zero or were changed since, and the table lists
the rows of their milliseconds as history reads them. -/
def StartsInOrder (rows : List StoredChannelMessage) (serverId channelId : String)
    (limit : Nat) : Prop :=
  ∀ m ∈ rows, ofChannel serverId channelId m → historyRank rows serverId channelId m < limit →
    sinceStart serverId channelId m ∧
      ∀ m' ∈ rows, sinceStart serverId channelId m' → m'.timestamp = m.timestamp →
        m.rowKey < m'.rowKey → m.id < m'.id

def tableKey (m : StoredChannelMessage) : Lex (Int × Nat) := toLex (m.timestamp, m.id)

theorem sortBy_timestamp_eq (h : rows.Pairwise (·.id < ·.id)) :
    sortBy (fun m : StoredChannelMessage => m.timestamp) rows =
      sortBy tableKey rows :=
  sortBy_eq_sortBy_toLex h

theorem tableKey_injOn (h : rows.Pairwise (·.id < ·.id)) {a b : StoredChannelMessage}
    (ha : a ∈ rows) (hb : b ∈ rows) (hkey : tableKey a = tableKey b) : a = b :=
  eq_of_id_eq h ha hb (congrArg (fun k => (ofLex k).2) hkey)

theorem tableKey_lt_iff (h : m.rowKey < m'.rowKey) :
    tableKey m < tableKey m' ↔ (m'.timestamp = m.timestamp → m.id < m'.id) := by
  have hle : m.timestamp ≤ m'.timestamp :=
    StoredRow.timestamp_le (Prod.Lex.monotone_fst _ _ h.le)
  rw [tableKey, tableKey, Prod.Lex.toLex_lt_toLex]
  constructor
  · rintro (hlt | ⟨-, hid⟩) heq
    · exact absurd heq hlt.ne'
    · exact hid
  · intro hid
    rcases hle.lt_or_eq with hlt | heq
    · exact .inl hlt
    · exact .inr ⟨heq, hid heq.symm⟩

theorem serves_nil :
    Watermarks.serves serverId channelId [] m = ofChannel serverId channelId m := by
  rw [Watermarks.serves]
  exact Bool.and_true _

theorem mem_first_iff (hrows : rows.Pairwise (·.id < ·.id)) :
    m ∈ (sortBy StoredRow.rowKey
        (rows.filter (ofChannel serverId channelId))).take limit ↔
      m ∈ rows ∧ ofChannel serverId channelId m ∧
        historyRank rows serverId channelId m < limit := by
  have hordered := hrows.filter (ofChannel serverId channelId)
  have hsorted : (sortBy StoredRow.rowKey
      (rows.filter (ofChannel serverId channelId))).Pairwise (·.rowKey < ·.rowKey) := by
    have hne : (sortBy StoredRow.rowKey
        (rows.filter (ofChannel serverId channelId))).Pairwise (· ≠ ·) :=
      sortBy_perm.nodup_iff.2 (nodup_of_ordered hordered)
    refine (sorted_sortBy.and hne).imp_of_mem fun {a b} ha hb hab => ?_
    exact lt_of_le_of_ne hab.1 fun hkey => hab.2 (rowKey_injOn hordered
      (mem_sortBy.1 ha) (mem_sortBy.1 hb) hkey)
  rw [mem_take_iff_length hsorted, mem_sortBy, List.mem_filter, historyRank,
    filter_sortBy, sortBy_perm.length_eq, and_assoc]

theorem getChannelMessagesSince_eq_iff (hrows : rows.Pairwise (·.id < ·.id)) :
    getChannelMessagesSince rows serverId channelId 0 limit =
        history rows (Watermarks.serves serverId channelId []) limit ↔
      StartsInOrder rows serverId channelId limit := by
  set all := rows.filter (ofChannel serverId channelId) with hall
  set since := rows.filter (sinceStart serverId channelId) with hsince
  have hordered : all.Pairwise (·.id < ·.id) := hrows.filter _
  have hordered' : since.Pairwise (·.id < ·.id) := hrows.filter _
  have hsub : since ⊆ all := by
    intro m hm
    obtain ⟨hrow, hpass⟩ := List.mem_filter.1 hm
    exact List.mem_filter.2 ⟨hrow, (Bool.and_eq_true _ _ ▸ hpass).1⟩
  have hplain : history rows (Watermarks.serves serverId channelId []) limit =
      (sortBy StoredRow.rowKey all).take limit := by
    rw [history, List.filter_congr fun m _ => serves_nil, sortBy_historyKey_eq hordered]
  have hpage : getChannelMessagesSince rows serverId channelId 0 limit =
      (sortBy tableKey since).take limit := by
    rw [getChannelMessagesSince, ← sortBy_timestamp_eq hordered']
    rfl
  have hfirst : (∀ m ∈ (sortBy StoredRow.rowKey all).take limit, m ∈ since) →
      (sortBy StoredRow.rowKey since).take limit =
        (sortBy StoredRow.rowKey all).take limit :=
    take_sortBy_of_first (fun a ha b hb => rowKey_injOn hordered ha hb)
      (nodup_of_ordered hordered) (nodup_of_ordered hordered') hsub
  have horders := take_sortBy_eq_iff (n := limit) (nodup_of_ordered hordered')
    (fun a ha b hb => rowKey_injOn hordered' ha hb)
    (fun a ha b hb => tableKey_injOn hordered' ha hb)
  rw [hplain, hpage]
  constructor
  · intro heq m hm hof hrank
    have hin := (mem_first_iff hrows).2 ⟨hm, hof, hrank⟩
    have hpass : ∀ m ∈ (sortBy StoredRow.rowKey all).take limit, m ∈ since :=
      fun m hm => mem_sortBy.1 (List.mem_of_mem_take (heq ▸ hm))
    refine ⟨(List.mem_filter.1 (hpass m hin)).2, fun m' hm' hpass' htime hlt => ?_⟩
    have hbelow := horders.1 (heq.trans (hfirst hpass).symm) m (hfirst hpass ▸ hin) m'
      (List.mem_filter.2 ⟨hm', hpass'⟩) hlt
    exact (tableKey_lt_iff hlt).1 hbelow htime
  · intro hstart
    have hpass : ∀ m ∈ (sortBy StoredRow.rowKey all).take limit, m ∈ since := by
      intro m hm
      obtain ⟨hrow, hof, hrank⟩ := (mem_first_iff hrows).1 hm
      exact List.mem_filter.2 ⟨hrow, (hstart m hrow hof hrank).1⟩
    rw [← hfirst hpass]
    refine horders.2 fun m hm m' hm' hlt => (tableKey_lt_iff hlt).2 fun htime => ?_
    rw [hfirst hpass] at hm
    obtain ⟨hrow, hof, hrank⟩ := (mem_first_iff hrows).1 hm
    obtain ⟨hrow', hpass'⟩ := List.mem_filter.1 hm'
    exact (hstart m hrow hof hrank).2 m' hrow' hpass' htime hlt

/-- The page is the plain one unless no sender is named and the first rows are out of order. -/
theorem perSenderPage_plain_iff (table : MessageTable ChannelPlace) (serverId channelId : String)
    (w : Watermarks) (limit : Nat) :
    PlainPage table.rows serverId channelId w limit
        (getChannelMessagesSincePerSender table.rows serverId channelId w limit) ↔
      w ≠ [] ∨ StartsInOrder table.rows serverId channelId limit := by
  have heq_iff : PlainPage table.rows serverId channelId w limit
      (getChannelMessagesSincePerSender table.rows serverId channelId w limit) ↔
      getChannelMessagesSincePerSender table.rows serverId channelId w limit =
        history table.rows (w.serves serverId channelId) limit :=
    ⟨PlainPage.eq, fun h => h ▸ plainPage_history table.ordered⟩
  rw [heq_iff]
  cases w with
  | nil =>
    rw [or_iff_right (fun h => h rfl), ← getChannelMessagesSince_eq_iff table.ordered]
    rfl
  | cons mark w =>
    have hne : mark :: w ≠ [] := List.cons_ne_nil _ _
    exact iff_of_true (getChannelMessagesSincePerSender_eq table.ordered hne) (.inl hne)

def postedAtZero : MessageTable ChannelPlace where
  rows := [{ place := ⟨"s", "c", "x"⟩, text := "", timestamp := 0, messageId := some "m" }]
  ordered := List.pairwise_singleton _ _

/-- Without watermarks a row of time 0 is never served. -/
theorem not_plainPage_postedAtZero :
    ¬ PlainPage postedAtZero.rows "s" "c" [] 200
      (getChannelMessagesSincePerSender postedAtZero.rows "s" "c" [] 200) := by
  intro h
  exact absurd h.eq (by decide +kernel)

end Hollow.Store
