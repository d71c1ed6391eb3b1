import Hollow.Store.Messages

/-! Packing stored rows into a page of a sync answer. Link previews are charged to a byte budget; a
card that does not fit ends the page, but never before the page holds 50 messages. -/

namespace Hollow.Store

variable {κ : Type}

def syncPreviewBudgetBytes : Nat := 2 * 1024 * 1024

def minItemsBeforeTruncation : Nat := 50

def pageLimit : Nat := 200

def previewWireCost (lp : LinkPreviewRef) : Nat :=
  (lp.thumbWebpB64.map String.utf8ByteSize).getD 0 + lp.url.utf8ByteSize +
    lp.title.utf8ByteSize + lp.description.utf8ByteSize + lp.domain.utf8ByteSize +
    lp.siteName.utf8ByteSize

/-- `PreviewBudget::fits`: what is left of the budget, or nothing when the card does not fit. -/
def fits (remaining : Nat) (lp : LinkPreviewRef) (packed : Nat) : Option Nat :=
  let cost := previewWireCost lp
  if packed < minItemsBeforeTruncation then some (remaining - cost)
  else if cost ≤ remaining then some (remaining - cost)
  else none

/-- The rows of a page, and whether the budget ended it early. -/
def packRows : Nat → Nat → List (StoredRow κ) → List (StoredRow κ) × Bool
  | _, _, [] => ([], false)
  | remaining, packed, m :: rows =>
    match m.linkPreview.elim (some remaining) (fits remaining · packed) with
    | none => ([], true)
    | some left =>
      let rest := packRows left (packed + 1) rows
      (m :: rest.1, rest.2)

theorem packRows_prefix (remaining packed : Nat) (rows : List (StoredRow κ)) :
    (packRows remaining packed rows).1 <+: rows := by
  induction rows generalizing remaining packed with
  | nil => exact List.prefix_rfl
  | cons m rows ih =>
    rw [packRows]
    split
    · exact List.nil_prefix
    · exact (List.prefix_cons_inj m).2 (ih _ _)

/-- A page that was not truncated carries every row. -/
theorem packRows_of_not_truncated {remaining packed : Nat} {rows : List (StoredRow κ)}
    (h : (packRows remaining packed rows).2 = false) :
    (packRows remaining packed rows).1 = rows := by
  induction rows generalizing remaining packed with
  | nil => rfl
  | cons m rows ih =>
    rw [packRows] at h ⊢
    split at h
    · cases h
    · exact congrArg (m :: ·) (ih h)

theorem fits_eq_none {remaining packed : Nat} {lp : LinkPreviewRef}
    (h : fits remaining lp packed = none) : minItemsBeforeTruncation ≤ packed := by
  rw [fits] at h
  split_ifs at h with hfew
  exact not_lt.1 hfew

theorem le_length_packRows {remaining packed : Nat} {rows : List (StoredRow κ)}
    (h : (packRows remaining packed rows).2 = true) :
    minItemsBeforeTruncation ≤ packed + (packRows remaining packed rows).1.length := by
  induction rows generalizing remaining packed with
  | nil => cases h
  | cons m rows ih =>
    rw [packRows] at h ⊢
    split at h
    · rename_i hspent
      cases hlp : m.linkPreview with
      | none => simp [hlp] at hspent
      | some lp =>
        rw [hlp] at hspent
        exact (fits_eq_none hspent).trans (Nat.le_add_right _ _)
    · have hle := ih h
      rw [List.length_cons]
      omega

/-- A row on the wire. `who` says who posted it: `mine` of a DM, the sender of a channel post. -/
structure SyncItem (σ : Type) where
  who : σ
  t : String
  ts : Int
  sig : Option String
  pk : Option String
  mid : Option String
  editedAt : Option Int
  hiddenAt : Option Int
  hiddenSig : Option String
  hiddenPk : Option String
  orderUs : Option Int
  lp : Option LinkPreviewRef
deriving DecidableEq

abbrev DmSyncItem : Type := SyncItem Bool

abbrev SyncMessageItem : Type := SyncItem String

/-- The time, signature and key of the latest signed deletion of a message. -/
abbrev DeletionProofs : Type := String → Option (Int × String × String)

/-- The proof's own time is served, not a drifted one of the row. -/
def deletionProofFields (proofs : DeletionProofs) (hiddenAt : Option Int) (mid : Option String) :
    Option Int × Option String × Option String :=
  match hiddenAt, mid with
  | some hidden, some mid =>
    match proofs mid with
    | some (ts, sig, pk) => (some ts, some sig, some pk)
    | none => (some hidden, none, none)
  | hiddenAt, _ => (hiddenAt, none, none)

def syncItem {σ : Type} (proofs : DeletionProofs) (who : StoredRow κ → σ) (m : StoredRow κ) :
    SyncItem σ :=
  let hidden := deletionProofFields proofs m.hiddenAt m.messageId
  { who := who m, t := m.text, ts := m.timestamp, sig := m.signature, pk := m.publicKey
    mid := m.messageId, editedAt := m.editedAt, hiddenAt := hidden.1, hiddenSig := hidden.2.1
    hiddenPk := hidden.2.2, orderUs := m.orderUs, lp := m.linkPreview }

structure SyncPage (σ : Type) where
  items : List (SyncItem σ)
  truncated : Bool
deriving DecidableEq

/-- The page made of these rows, in the order of the query. -/
def buildSyncItems {σ : Type} (proofs : DeletionProofs) (who : StoredRow κ → σ)
    (messages : List (StoredRow κ)) : SyncPage σ :=
  let packed := packRows syncPreviewBudgetBytes 0 messages
  { items := packed.1.map (syncItem proofs who), truncated := packed.2 }

def buildDmSyncItems (proofs : DeletionProofs) (messages : List StoredMessage) : SyncPage Bool :=
  buildSyncItems proofs (·.isMine) messages

def channelSyncItems (proofs : DeletionProofs) (messages : List StoredChannelMessage) :
    SyncPage String :=
  buildSyncItems proofs (·.place.senderId) messages

end Hollow.Store
