import Mathlib.Data.Finset.Basic
import Hollow.Store.Messages

/-! Edits of a stored message (`edit_message_in`) and what a row shows after any delivery of a set
of edits. An edit that does not change the text returns before its time is recorded, so which edits
arrive first can matter; `edits_settle_iff` says for which sets it does not. -/

namespace Hollow.Store

variable {κ : Type}

/-- What `edit_message_in` is given besides the table and the message id. -/
structure Edit where
  newText : String
  editedAt : Int
  signature : Option String := none
  publicKey : Option String := none
deriving DecidableEq

/-- A row of `message_edits`: the text an edit replaced, with its provenance. -/
structure EditRecord where
  messageId : String
  oldText : String
  newText : String
  editedAt : Int
  signature : Option String
  publicKey : Option String
  prevSignature : Option String
  prevPublicKey : Option String
  prevTimestamp : Int
deriving DecidableEq

/-- A message table. `channel_messages` was created with
`UNIQUE(server_id, channel_id, sender_id, timestamp, text)`; the content index of `messages` covers
only rows without a message id, which no edit touches. -/
structure Table (κ : Type) where
  name : String
  contentUnique : Bool
  constraint : String := ""

def messagesTable : Table String := { name := "messages", contentUnique := false }

structure MessageStore (κ : Type) where
  rows : List (StoredRow κ)
  edits : List EditRecord := []
deriving DecidableEq

/-- The columns the uniqueness of `channel_messages` is about. -/
def StoredRow.content (m : StoredRow κ) : κ × Int × String := (m.place, m.timestamp, m.text)

/-- `COALESCE(edited_at, timestamp)`. -/
def StoredRow.lastChange (m : StoredRow κ) : Int := m.editedAt.getD m.timestamp

def StoredRow.withEdit (m : StoredRow κ) (e : Edit) : StoredRow κ :=
  { m with
    text := e.newText, editedAt := some e.editedAt, signature := e.signature
    publicKey := e.publicKey, updatedAt := some e.editedAt }

/-- `UPDATE .. WHERE message_id = ?`, which sets every row of that id. -/
def updateRows (rows : List (StoredRow κ)) (messageId : String) (e : Edit) :
    List (StoredRow κ) :=
  rows.map fun m => if m.messageId = some messageId then m.withEdit e else m

def contentsWith (rows : List (StoredRow κ)) (messageId text : String) : List (κ × Int × String) :=
  rows.map fun m => (m.place, m.timestamp, if m.messageId = some messageId then text else m.text)

theorem map_content_updateRows (rows : List (StoredRow κ)) (messageId : String) (e : Edit) :
    (updateRows rows messageId e).map StoredRow.content =
      contentsWith rows messageId e.newText := by
  rw [updateRows, contentsWith, List.map_map]
  refine List.map_congr_left fun m _ => ?_
  by_cases h : m.messageId = some messageId <;> simp [h, StoredRow.withEdit, StoredRow.content]

theorem contentsWith_updateRows (rows : List (StoredRow κ)) (messageId text : String) (e : Edit) :
    contentsWith (updateRows rows messageId e) messageId text =
      contentsWith rows messageId text := by
  rw [updateRows, contentsWith, contentsWith, List.map_map]
  refine List.map_congr_left fun m _ => ?_
  by_cases h : m.messageId = some messageId <;> simp [h, StoredRow.withEdit]

theorem find?_updateRows (rows : List (StoredRow κ)) (messageId : String) (e : Edit) :
    (updateRows rows messageId e).find? (fun m => m.messageId = some messageId) =
      (rows.find? fun m => m.messageId = some messageId).map (·.withEdit e) := by
  induction rows with
  | nil => rfl
  | cons m rows ih =>
    by_cases h : m.messageId = some messageId
    · simp [updateRows, h, StoredRow.withEdit]
    · simpa [updateRows, h] using ih

variable {m : StoredRow κ}

theorem StoredRow.any_editedAt_eq_false {t : Int} (h : m.lastChange < t) :
    m.editedAt.any (t ≤ ·) = false := by
  rw [StoredRow.lastChange] at h
  cases hedited : m.editedAt with
  | none => rfl
  | some p => simpa [hedited] using h

variable [DecidableEq κ]

def Table.refuses (table : Table κ) (contents : List (κ × Int × String)) : Bool :=
  table.contentUnique && !decide contents.Nodup

def MessageStore.find (s : MessageStore κ) (messageId : String) : Option (StoredRow κ) :=
  s.rows.find? fun m => m.messageId = some messageId

def editMessageIn (table : Table κ) (s : MessageStore κ) (messageId : String) (e : Edit) :
    Except String Bool × MessageStore κ :=
  match s.find messageId with
  | none => (.ok false, s)
  | some old =>
    if old.text = e.newText then (.ok false, s)
    else if old.editedAt.any (e.editedAt ≤ ·) then (.ok false, s)
    else
      let record : EditRecord :=
        { messageId, oldText := old.text, newText := e.newText, editedAt := e.editedAt
          signature := e.signature, publicKey := e.publicKey, prevSignature := old.signature
          prevPublicKey := old.publicKey, prevTimestamp := old.lastChange }
      let rows := updateRows s.rows messageId e
      -- A failed update rolls the savepoint back, the history row included.
      if table.refuses (rows.map StoredRow.content) then
        (.error ("Failed to update " ++ table.name ++ " row: " ++ table.constraint), s)
      else (.ok true, { s with rows, edits := s.edits ++ [record] })

/-- A delivery of edits of one message, one after the other. -/
def editAll (table : Table κ) (s : MessageStore κ) (messageId : String) (es : List Edit) :
    MessageStore κ :=
  es.foldl (fun s e => (editMessageIn table s messageId e).2) s

structure Shown where
  text : String
  editedAt : Option Int
deriving DecidableEq

/-- One edit as the row sees it. `lands` says which texts the table's constraint lets in. -/
def Shown.edit (lands : String → Bool) (c : Shown) (e : Edit) : Shown :=
  if c.text = e.newText ∨ c.editedAt.any (e.editedAt ≤ ·) ∨ lands e.newText = false then c
  else ⟨e.newText, some e.editedAt⟩

def StoredRow.shown (m : StoredRow κ) : Shown := ⟨m.text, m.editedAt⟩

def MessageStore.lands (table : Table κ) (s : MessageStore κ) (messageId text : String) : Bool :=
  !table.refuses (contentsWith s.rows messageId text)

theorem editMessageIn_shown (table : Table κ) {s : MessageStore κ} {messageId : String}
    (hm : s.find messageId = some m) (e : Edit) :
    ((editMessageIn table s messageId e).2.find messageId).map StoredRow.shown =
        some (m.shown.edit (s.lands table messageId) e) ∧
      (editMessageIn table s messageId e).2.lands table messageId =
        s.lands table messageId := by
  simp only [editMessageIn, hm, map_content_updateRows]
  split_ifs with htext htime hrefused
  · simp [hm, Shown.edit, StoredRow.shown, htext]
  · simp [hm, Shown.edit, StoredRow.shown, htime]
  · simp [hm, Shown.edit, StoredRow.shown, MessageStore.lands, hrefused]
  · refine ⟨?_, ?_⟩
    · rw [MessageStore.find] at hm ⊢
      rw [find?_updateRows, hm]
      simp [Shown.edit, StoredRow.shown, StoredRow.withEdit, MessageStore.lands, htext, htime,
        hrefused]
    · funext text
      rw [MessageStore.lands, MessageStore.lands, contentsWith_updateRows]

theorem editAll_shown (table : Table κ) {messageId : String} (es : List Edit) {s : MessageStore κ}
    (hm : s.find messageId = some m) :
    ((editAll table s messageId es).find messageId).map StoredRow.shown =
      some (es.foldl (Shown.edit (s.lands table messageId)) m.shown) := by
  induction es generalizing s m with
  | nil => simp [editAll, hm]
  | cons e es ih =>
    obtain ⟨hshown, hlands⟩ := editMessageIn_shown table hm e
    obtain ⟨m', hm', hm's⟩ := Option.map_eq_some_iff.1 hshown
    have hrest := ih hm'
    rw [hlands, hm's] at hrest
    exact hrest

/-- The edits that could replace the newest text are all older than every edit that sets it, and
none of them can when the row already has it. -/
def Settles (lands : String → Bool) (c : Shown) (edits : Finset Edit) (newest : Edit) : Prop :=
  (c.text ≠ newest.newText → lands newest.newText = true) ∧
    ∀ e ∈ edits, e.newText ≠ newest.newText → lands e.newText = true →
      c.text ≠ newest.newText ∧
        ∀ e' ∈ edits, e'.newText = newest.newText → e.editedAt < e'.editedAt

instance (lands : String → Bool) (c : Shown) (edits : Finset Edit) (newest : Edit) :
    Decidable (Settles lands c edits newest) :=
  inferInstanceAs (Decidable (_ ∧ _))

section Run

variable {lands : String → Bool} {text : String} {es : List Edit} {edits : Finset Edit}
  {c : Shown} {e newest : Edit}

theorem Shown.edit_of_text_eq (h : c.text = e.newText) : c.edit lands e = c := by
  simp [Shown.edit, h]

theorem foldl_edit_of_text_eq (h : ∀ e ∈ es, e.newText = c.text) :
    es.foldl (Shown.edit lands) c = c := by
  induction es with
  | nil => rfl
  | cons e es ih =>
    rw [List.foldl_cons, Shown.edit_of_text_eq (h e (by simp)).symm]
    exact ih fun e' he' => h e' (by simp [he'])

theorem foldl_edit_text_ne (h : ∀ e ∈ es, e.newText = text → lands text = false)
    (hc : c.text ≠ text) : (es.foldl (Shown.edit lands) c).text ≠ text := by
  induction es generalizing c with
  | nil => exact hc
  | cons e es ih =>
    refine ih (fun e' he' => h e' (by simp [he'])) ?_
    rw [Shown.edit]
    split_ifs with hstay
    · exact hc
    · intro (htext : e.newText = text)
      exact hstay (.inr (.inr (htext ▸ h e (by simp) htext)))

/-- An edit that would land ends the text the row has, where no edit sets that text. -/
theorem foldl_edit_replaces (h : ∀ e ∈ es, e.newText ≠ c.text) (he : e ∈ es)
    (hlands : lands e.newText = true) (hlater : c.editedAt.any (e.editedAt ≤ ·) = false) :
    (es.foldl (Shown.edit lands) c).text ≠ c.text := by
  induction es with
  | nil => simp at he
  | cons a es ih =>
    have hes : ∀ e ∈ es, e.newText ≠ c.text := fun e' he' => h e' (by simp [he'])
    rw [List.foldl_cons, Shown.edit]
    split_ifs with hstay
    · -- The first edit changed nothing, so it is not `e`, which would have landed.
      rcases List.mem_cons.1 he with rfl | he
      · rcases hstay with htext | htime | hrefused
        · exact absurd htext.symm (h e (by simp))
        · rw [hlater] at htime
          cases htime
        · rw [hlands] at hrefused
          cases hrefused
      · exact ih hes he
    · exact foldl_edit_text_ne (fun e' he' htext => absurd htext (hes e' he')) (h a (by simp))

/-- The text is still to come, and every edit that brings it will land. -/
structure Awaits (lands : String → Bool) (edits : Finset Edit) (text : String) (c : Shown) :
    Prop where
  other : c.text ≠ text
  lands : lands text = true
  later : ∀ e ∈ edits, e.newText = text → c.editedAt.any (e.editedAt ≤ ·) = false

/-- The text is shown, and no edit to another one can land any more. -/
structure Keeps (lands : String → Bool) (edits : Finset Edit) (text : String) (c : Shown) :
    Prop where
  shown : c.text = text
  blocked : ∀ e ∈ edits, e.newText ≠ text → lands e.newText = true →
    c.editedAt.any (e.editedAt ≤ ·) = true

theorem Keeps.edit (hc : Keeps lands edits text c) (he : e ∈ edits) :
    Keeps lands edits text (c.edit lands e) := by
  rw [Shown.edit]
  split_ifs with h
  · exact hc
  · push Not at h
    have hother : e.newText ≠ text := hc.shown ▸ h.1.symm
    exact absurd (hc.blocked e he hother (by simpa using h.2.2)) h.2.1

theorem Keeps.foldl (hes : ∀ e ∈ es, e ∈ edits) (hc : Keeps lands edits text c) :
    (es.foldl (Shown.edit lands) c).text = text := by
  induction es generalizing c with
  | nil => exact hc.shown
  | cons e es ih => exact ih (fun e' he' => hes e' (by simp [he'])) (hc.edit (hes e (by simp)))

section Awaits

variable (holder : ∀ e ∈ edits, e.newText ≠ text → lands e.newText = true →
  ∀ e' ∈ edits, e'.newText = text → e.editedAt < e'.editedAt) (hc : Awaits lands edits text c)
include holder hc

theorem Awaits.edit (he : e ∈ edits) :
    (e.newText = text ∧ Keeps lands edits text (c.edit lands e)) ∨
      (e.newText ≠ text ∧ Awaits lands edits text (c.edit lands e)) := by
  by_cases htext : e.newText = text
  · refine .inl ⟨htext, ?_⟩
    have hlater := hc.later e he htext
    rw [Shown.edit, if_neg (by simp [htext, hc.other, hlater, hc.lands])]
    refine ⟨htext, fun e' he' hother hlands => ?_⟩
    simpa using (holder e' he' hother hlands e he htext).le
  · refine .inr ⟨htext, ?_⟩
    rw [Shown.edit]
    split_ifs with h
    · exact hc
    · push Not at h
      refine ⟨htext, hc.lands, fun e' he' htext' => ?_⟩
      simpa using holder e he htext (by simpa using h.2.2) e' he' htext'

theorem Awaits.foldl (hes : ∀ e ∈ es, e ∈ edits) (hnewest : newest ∈ es)
    (htext : newest.newText = text) : (es.foldl (Shown.edit lands) c).text = text := by
  induction es generalizing c with
  | nil => simp at hnewest
  | cons e es ih =>
    have hrest : ∀ e' ∈ es, e' ∈ edits := fun e' he' => hes e' (by simp [he'])
    rcases hc.edit holder (hes e (by simp)) with ⟨-, hkeeps⟩ | ⟨hother, hawaits⟩
    · have hkept := hkeeps.foldl hrest
      exact hkept
    · rcases List.mem_cons.1 hnewest with rfl | hnewest
      · exact absurd htext hother
      · exact ih hawaits hrest hnewest

end Awaits

/-- A set that settles leaves the newest text, in whatever order it arrives. -/
theorem Settles.foldl (h : Settles lands c edits newest)
    (hlater : ∀ e ∈ edits, c.editedAt.any (e.editedAt ≤ ·) = false)
    (hes : ∀ e ∈ es, e ∈ edits) (hnewest : newest ∈ es) :
    (es.foldl (Shown.edit lands) c).text = newest.newText := by
  by_cases htext : c.text = newest.newText
  · have hkeeps : Keeps lands edits newest.newText c :=
      ⟨htext, fun e he hother hlands => absurd htext (h.2 e he hother hlands).1⟩
    exact hkeeps.foldl hes
  · have hawaits : Awaits lands edits newest.newText c :=
      ⟨htext, h.1 htext, fun e he _ => hlater e he⟩
    exact hawaits.foldl (fun e he hother hlands => (h.2 e he hother hlands).2) hes hnewest rfl

noncomputable def textFirst (edits : Finset Edit) (text : String) : List Edit :=
  edits.toList.filter (·.newText = text) ++ edits.toList.filter (·.newText ≠ text)

theorem mem_textFirst (e : Edit) : e ∈ textFirst edits text ↔ e ∈ edits := by
  by_cases htext : e.newText = text <;> simp [textFirst, htext]

theorem foldl_textFirst_ne (hc : c.text = text) (he : e ∈ edits) (hother : e.newText ≠ text)
    (hlands : lands e.newText = true) (hlater : c.editedAt.any (e.editedAt ≤ ·) = false) :
    ((textFirst edits text).foldl (Shown.edit lands) c).text ≠ text := by
  subst hc
  have hsame : (edits.toList.filter (·.newText = c.text)).foldl (Shown.edit lands) c = c :=
    foldl_edit_of_text_eq fun e' he' => by simpa using (List.mem_filter.1 he').2
  rw [textFirst, List.foldl_append, hsame]
  refine foldl_edit_replaces (fun e' he' => ?_) (e := e) ?_ hlands hlater
  · simpa using (List.mem_filter.1 he').2
  · simp [he, hother]

/-- If every order of the edits ends at the newest text, no other edit could have replaced it. -/
theorem settles_of_foldl (hdistinct : ∀ e ∈ edits, ∀ e' ∈ edits, e.editedAt = e'.editedAt → e = e')
    (hlater : ∀ e ∈ edits, c.editedAt.any (e.editedAt ≤ ·) = false)
    (h : ∀ es : List Edit, (∀ e, e ∈ es ↔ e ∈ edits) →
      (es.foldl (Shown.edit lands) c).text = newest.newText) : Settles lands c edits newest := by
  have hlandsNewest : c.text ≠ newest.newText → lands newest.newText = true := by
    intro hne
    by_contra hrefused
    refine foldl_edit_text_ne (fun _ _ _ => by simpa using hrefused) hne
      (h (textFirst edits newest.newText) mem_textFirst)
  refine ⟨hlandsNewest, fun e he hother hlands => ?_⟩
  have hne : c.text ≠ newest.newText := by
    intro htext
    exact foldl_textFirst_ne htext he hother hlands (hlater e he) (h _ mem_textFirst)
  refine ⟨hne, fun e' he' htext' => ?_⟩
  by_contra hafter
  -- `e'` lands first; `e`, which is not older, then replaces its text.
  have hlands' : c.edit lands e' = ⟨newest.newText, some e'.editedAt⟩ := by
    rw [Shown.edit, if_neg (by simp [htext', hne, hlater e' he', hlandsNewest hne]), htext']
  have htimes : e.editedAt ≠ e'.editedAt := by
    intro heq
    rw [hdistinct e he e' he' heq] at hother
    exact hother htext'
  have hrun := h (e' :: textFirst edits newest.newText) fun a => by
    rw [List.mem_cons, mem_textFirst, or_iff_right_of_imp (by rintro rfl; exact he')]
  rw [List.foldl_cons, hlands'] at hrun
  refine foldl_textFirst_ne rfl he hother hlands ?_ hrun
  simp only [Option.any_some, decide_eq_false_iff_not]
  omega

end Run

/-- Every delivery of a set of edits later than the row leaves the newest text exactly when the
set settles. -/
theorem edits_settle_iff (table : Table κ) {s : MessageStore κ} {messageId : String}
    {row : StoredRow κ} (hrow : s.find messageId = some row) {edits : Finset Edit}
    (hdistinct : ∀ e ∈ edits, ∀ e' ∈ edits, e.editedAt = e'.editedAt → e = e')
    (hlater : ∀ e ∈ edits, row.lastChange < e.editedAt) (newest : Edit)
    (hnewest : newest ∈ edits ∧ ∀ e ∈ edits, e.editedAt ≤ newest.editedAt) :
    (∀ es : List Edit, (∀ e, e ∈ es ↔ e ∈ edits) →
        ((editAll table s messageId es).find messageId).map (·.text) = some newest.newText) ↔
      Settles (s.lands table messageId) row.shown edits newest := by
  have hopen : ∀ e ∈ edits, row.shown.editedAt.any (e.editedAt ≤ ·) = false :=
    fun e he => row.any_editedAt_eq_false (hlater e he)
  have htext : ∀ es : List Edit,
      ((editAll table s messageId es).find messageId).map (·.text) =
        some (es.foldl (Shown.edit (s.lands table messageId)) row.shown).text := by
    intro es
    have hshown := congrArg (Option.map Shown.text) (editAll_shown table es hrow)
    rwa [Option.map_map, Option.map_some] at hshown
  constructor
  · intro h
    refine settles_of_foldl hdistinct hopen fun es hes => ?_
    have hrun := h es hes
    rwa [htext, Option.some_inj] at hrun
  · intro h es hes
    rw [htext, h.foldl hopen (fun e he => (hes e).1 he) ((hes newest).2 hnewest.1)]

def greeting : MessageStore String where
  rows := [{ place := "peer", text := "A", timestamp := 1, messageId := some "m" }]

/-- Two edits to texts the row never had settle. -/
theorem edits_settle_greeting :
    (greeting.find "m").map (·.text) = some "A" ∧
      ∀ es : List Edit, (∀ e, e ∈ es ↔ e ∈ ({⟨"B", 2, none, none⟩, ⟨"C", 3, none, none⟩} :
          Finset Edit)) →
        ((editAll messagesTable greeting "m" es).find "m").map (·.text) = some "C" :=
  ⟨rfl, (edits_settle_iff messagesTable (s := greeting) rfl (by decide) (by decide)
    ⟨"C", 3, none, none⟩ (by decide)).2 (by decide)⟩

/-- The author replaces "A" by "B" and then puts "A" back. A device that gets the second edit
first takes it for no change, keeps no trace of its time, and ends with "B". -/
theorem not_edits_settle_putBack :
    ¬ ∀ es : List Edit, (∀ e, e ∈ es ↔ e ∈ ({⟨"B", 2, none, none⟩, ⟨"A", 3, none, none⟩} :
        Finset Edit)) →
      ((editAll messagesTable greeting "m" es).find "m").map (·.text) = some "A" := by
  intro h
  have hrun := h [⟨"A", 3, none, none⟩, ⟨"B", 2, none, none⟩]
    (by simp [or_comm])
  exact absurd hrun (by decide)

end Hollow.Store
