import Hollow.Lib.StableSort

/-! The message tables of a device's store. Times are signed milliseconds, `i64` in the source. A
table is the list of its rows in the order of their ids; a query filters it, sorts it and cuts it.
-/

namespace Hollow.Store

open StableSort

structure LinkPreviewRef where
  url : String := ""
  title : String := ""
  description : String := ""
  domain : String := ""
  siteName : String := ""
  thumbWebpB64 : Option String := none
deriving DecidableEq

/-- A row of `messages` or of `channel_messages`, which differ in the column that says where the
message was posted. -/
structure StoredRow (κ : Type) where
  id : Nat := 0
  place : κ
  text : String
  isMine : Bool := false
  timestamp : Int
  signature : Option String := none
  publicKey : Option String := none
  messageId : Option String := none
  editedAt : Option Int := none
  hiddenAt : Option Int := none
  linkPreview : Option LinkPreviewRef := none
  orderUs : Option Int := none
  /-- The time of the last edit or deletion, by which an old row syncs again. -/
  updatedAt : Option Int := none
deriving DecidableEq

structure ChannelPlace where
  serverId : String
  channelId : String
  senderId : String
deriving DecidableEq

/-- A direct message is kept under the peer it was exchanged with. -/
abbrev StoredMessage : Type := StoredRow String

abbrev StoredChannelMessage : Type := StoredRow ChannelPlace

/-- `COALESCE(order_us, timestamp * 1000)`. -/
def StoredRow.order {κ : Type} (m : StoredRow κ) : Int := m.orderUs.getD (m.timestamp * 1000)

/-- The order history is read in: `ORDER BY timestamp, COALESCE(order_us, ..), message_id`. A
missing id sorts first, as NULL does. -/
def StoredRow.historyKey {κ : Type} (m : StoredRow κ) :
    Lex (Int × Lex (Int × WithBot String)) :=
  toLex (m.timestamp, toLex (m.order, (m.messageId : WithBot String)))

/-- History order with the row id as the last tie-break. -/
def StoredRow.rowKey {κ : Type} (m : StoredRow κ) :
    Lex (Lex (Int × Lex (Int × WithBot String)) × Nat) :=
  toLex (m.historyKey, m.id)

/-- A table lists its rows by their ids. -/
structure MessageTable (κ : Type) where
  rows : List (StoredRow κ)
  ordered : rows.Pairwise (·.id < ·.id)

/-- `x >= t` in SQL, where NULL is no match. -/
def atOrAfter (x : Option Int) (t : Int) : Bool := x.any (t ≤ ·)

/-- `x > t` in SQL, where NULL is no match. -/
def after (x : Option Int) (t : Int) : Bool := x.any (t < ·)

def history {κ : Type} (rows : List (StoredRow κ)) (qualifies : StoredRow κ → Bool)
    (limit : Nat) : List (StoredRow κ) :=
  (sortBy StoredRow.historyKey (rows.filter qualifies)).take limit

variable {κ : Type} {rows : List (StoredRow κ)} {qualifies : StoredRow κ → Bool} {limit : Nat}

theorem StoredRow.timestamp_le {m m' : StoredRow κ} (h : m.historyKey ≤ m'.historyKey) :
    m.timestamp ≤ m'.timestamp :=
  Prod.Lex.monotone_fst _ _ h

section Ordered

variable (h : rows.Pairwise (·.id < ·.id))
include h

theorem sortBy_historyKey_eq :
    sortBy StoredRow.historyKey rows = sortBy StoredRow.rowKey rows :=
  sortBy_eq_sortBy_toLex h

theorem eq_of_id_eq {a b : StoredRow κ} (ha : a ∈ rows) (hb : b ∈ rows) (hid : a.id = b.id) :
    a = b :=
  List.inj_on_of_nodup_map (List.pairwise_map.2 (h.imp fun hlt => hlt.ne)) ha hb hid

theorem rowKey_injOn {a b : StoredRow κ} (ha : a ∈ rows) (hb : b ∈ rows)
    (hkey : a.rowKey = b.rowKey) : a = b :=
  eq_of_id_eq h ha hb (congrArg (fun k => (ofLex k).2) hkey)

theorem nodup_of_ordered : rows.Nodup :=
  h.imp fun hlt heq => hlt.ne (congrArg _ heq)

end Ordered

theorem history_prefix :
    history rows qualifies limit <+:
      sortBy StoredRow.historyKey (rows.filter qualifies) :=
  List.take_prefix _ _

/-- A history shorter than its limit left nothing out. -/
theorem mem_history_of_length_lt (h : (history rows qualifies limit).length < limit)
    {m : StoredRow κ} (hm : m ∈ rows) (hq : qualifies m) : m ∈ history rows qualifies limit := by
  rw [history, List.length_take] at h
  rw [history, List.take_of_length_le (by omega), mem_sortBy]
  exact List.mem_filter.2 ⟨hm, hq⟩

theorem mem_of_mem_history {m : StoredRow κ} (h : m ∈ history rows qualifies limit) :
    m ∈ rows ∧ qualifies m :=
  List.mem_filter.1 (mem_sortBy.1 (List.mem_of_mem_take h))

end Hollow.Store
