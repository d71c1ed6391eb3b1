import Mathlib

/-! File streams over the relay: a holder cuts a staged file into frames from an offset on, and the
receiver assembles the frames of one stream id into a temp file until it has the size declared. -/

namespace Hollow.Files

abbrev Bytes := List UInt8

inductive StreamKind where
  | file
  | shard (shardIndex : Nat)
  | shareChunk (chunkIndex : Nat)
  | linkSnapshot
  deriving DecidableEq

def wsChunkSize : Nat := 256 * 1024
def maxRecvStreamsPerSender : Nat := 16
def maxRecvStreams : Nat := 128
def streamTakeoverIdle : Nat := 10000

inductive Frame where
  | first (kind : StreamKind) (id : String) (totalSize : Nat) (data : Bytes)
  | continuation (id : String) (data : Bytes)
  deriving DecidableEq

def Frame.data : Frame → Bytes
  | .first _ _ _ data => data
  | .continuation _ data => data

def StreamKind.headerSize (kind : StreamKind) (first : Bool) : Nat :=
  if first then
    match kind with
    | .file | .linkSnapshot => 73
    | .shard _ => 75
    | .shareChunk _ => 77
  else 65

def StreamKind.frame (kind : StreamKind) (id : String) (totalSize : Nat) (first : Bool)
    (data : Bytes) : Frame :=
  if first then .first kind id totalSize data else .continuation id data

/-- How a file system answers: a read at an offset into a buffer gives some of what is left, and
nothing only at the end. -/
structure Disk where
  read : Nat → Nat → Nat
  read_le : ∀ sent cap, read sent cap ≤ cap
  read_pos : ∀ sent cap, 0 < cap → 0 < read sent cap

structure Source extends Disk where
  bytes : Bytes

def Source.next (src : Source) (header totalSize sent : Nat) : Bytes :=
  (src.bytes.drop sent).take (src.read sent (min (wsChunkSize - header) (totalSize - sent)))

/-- The frames from `sent` on: one first frame, then more until the size is sent. -/
def sendRelayChunks (src : Source) (kind : StreamKind) (id : String) (totalSize : Nat) :
    Nat → Bool → Nat → List Frame
  | 0, _, _ => []
  | fuel + 1, first, sent =>
    let data := src.next (kind.headerSize first) totalSize sent
    if !first && (totalSize ≤ sent || data.isEmpty) then []
    else
      kind.frame id totalSize first data ::
        sendRelayChunks src kind id totalSize fuel false (sent + data.length)

/-- A stream from an offset; each frame but the first carries a byte at least. -/
def wsStreamSend (src : Source) (kind : StreamKind) (id : String) (totalSize startOffset : Nat) :
    List Frame :=
  sendRelayChunks src kind id totalSize (totalSize - startOffset + 1) true startOffset

structure WsTransferState where
  kind : StreamKind
  id : String
  totalSize : Nat
  bytes : Bytes
  sender : String
  lastFrameAt : Nat
  deriving DecidableEq

structure StreamRequest where
  kind : StreamKind
  id : String
  size : Nat
  bytes : Bytes
  deriving DecidableEq

def isStreamId (id : String) : Bool :=
  id.length = 64 && id.toList.all fun c => c.isDigit || ('a' ≤ c && c ≤ 'f')

def idAllowed (id : String) : Bool :=
  id ≠ "" && id.toList.all fun c => c.isAlphanum || c = ':' || c = '_' || c = '-'

abbrev Pending := List WsTransferState

namespace Pending

def get (pending : Pending) (id : String) : Option WsTransferState := pending.find? (·.id = id)

def remove (pending : Pending) (id : String) : Pending := pending.filter (·.id ≠ id)

def insert (pending : Pending) (s : WsTransferState) : Pending := s :: pending.remove s.id

end Pending

def completeTransfer (pending : Pending) (s : WsTransferState) : Pending × Option StreamRequest :=
  (pending.remove s.id, some ⟨s.kind, s.id, s.totalSize, s.bytes⟩)

def WsTransferState.extend (s : WsTransferState) (payload : Bytes) (now : Nat) : WsTransferState :=
  { s with bytes := s.bytes ++ payload, lastFrameAt := now }

/-- A sender that writes past the size declared loses the stream. -/
def appendFrame (pending : Pending) (s : WsTransferState) (payload : Bytes) (now : Nat) :
    Pending × Option StreamRequest :=
  let received := s.bytes.length + payload.length
  if s.totalSize < received then (pending.remove s.id, none)
  else if s.totalSize ≤ received then
    completeTransfer (pending.insert (s.extend payload now)) (s.extend payload now)
  else (pending.insert (s.extend payload now), none)

/-- A new stream, within what its sender and all together may hold and what is expected of it. -/
def openStream (ceiling : StreamKind → String → Nat) (pending : Pending) (sender : String)
    (kind : StreamKind) (id : String) (totalSize : Nat) (payload : Bytes) (now : Nat) :
    Pending × Option StreamRequest :=
  if maxRecvStreamsPerSender ≤ pending.countP (·.sender = sender) || maxRecvStreams ≤ pending.length
      || totalSize < payload.length || ceiling kind id < totalSize then (pending, none)
  else
    let s : WsTransferState := ⟨kind, id, totalSize, payload, sender, now⟩
    if totalSize ≤ payload.length then completeTransfer (pending.insert s) s
    else (pending.insert s, none)

def StreamKind.needsStreamId : StreamKind → Bool
  | .file | .shard _ => true
  | _ => false

/-- A frame from `sender`: it extends the stream it opened, or opens one. -/
def wsStreamReceive (ceiling : StreamKind → String → Nat) (pending : Pending) (sender : String) :
    Frame → Nat → Pending × Option StreamRequest
  | .continuation id payload, now =>
    if !idAllowed id then (pending, none)
    else
      match pending.get id with
      | none => (pending, none)
      | some s => if s.sender ≠ sender then (pending, none) else appendFrame pending s payload now
  | .first kind id totalSize payload, now =>
    if !idAllowed id || (kind.needsStreamId && !isStreamId id) then (pending, none)
    else
      match pending.get id with
      | some s =>
        if s.sender = sender then appendFrame pending s payload now
        else if now - s.lastFrameAt < streamTakeoverIdle then (pending, none)
        else openStream ceiling (pending.remove id) sender kind id totalSize payload now
      | none => openStream ceiling pending sender kind id totalSize payload now

/-- Frames as they arrive, each at its time, with the streams they complete. -/
def receiveAll (ceiling : StreamKind → String → Nat) (sender : String) :
    Pending → List (Frame × Nat) → Pending × List StreamRequest
  | pending, [] => (pending, [])
  | pending, (f, now) :: rest =>
    let (pending, done) := wsStreamReceive ceiling pending sender f now
    let (pending, more) := receiveAll ceiling sender pending rest
    (pending, done.toList ++ more)

def payloads (frames : List Frame) : Bytes := frames.flatMap Frame.data

section Send

variable {src : Source} {kind : StreamKind} {id : String} {totalSize fuel sent : Nat} {first : Bool}

theorem data_frame (data : Bytes) : (kind.frame id totalSize first data).data = data := by
  cases first <;> rfl

theorem Source.next_length_le (src : Source) (header totalSize sent : Nat) :
    (src.next header totalSize sent).length ≤ totalSize - sent :=
  (List.length_take_le _ _).trans ((src.read_le _ _).trans (Nat.min_le_right _ _))

theorem Source.next_prefix (src : Source) (header totalSize sent : Nat) :
    src.next header totalSize sent <+: src.bytes.drop sent :=
  List.take_prefix _ _

theorem Source.next_pos (kind : StreamKind) (first : Bool) (htotal : totalSize = src.bytes.length)
    (hlt : sent < totalSize) :
    0 < (src.next (kind.headerSize first) totalSize sent).length := by
  have hheader : kind.headerSize first < wsChunkSize := by
    cases first <;> cases kind <;> simp [StreamKind.headerSize, wsChunkSize]
  have hpos := src.read_pos sent (min (wsChunkSize - kind.headerSize first) (totalSize - sent))
    (by omega)
  rw [Source.next, List.length_take, List.length_drop]
  omega

theorem cons_prefix_sendRelayChunks {f : Frame} {rest : List Frame}
    (h : f :: rest <+: sendRelayChunks src kind id totalSize fuel first sent) :
    f = kind.frame id totalSize first (src.next (kind.headerSize first) totalSize sent) ∧
      ∃ fuel', rest <+: sendRelayChunks src kind id totalSize fuel' false
        (sent + (src.next (kind.headerSize first) totalSize sent).length) := by
  cases fuel with
  | zero => cases List.prefix_nil.1 h
  | succ fuel =>
    simp only [sendRelayChunks] at h
    split_ifs at h
    · cases List.prefix_nil.1 h
    · obtain ⟨rfl, hrest⟩ := List.cons_prefix_cons.1 h
      exact ⟨rfl, fuel, hrest⟩

theorem sendRelayChunks_done (h : totalSize ≤ sent) :
    sendRelayChunks src kind id totalSize fuel false sent = [] := by
  cases fuel with
  | zero => rfl
  | succ fuel => simp [sendRelayChunks, h]

/-- The chunks sent from an offset carry exactly the bytes that are left. -/
theorem payloads_sendRelayChunks (htotal : totalSize = src.bytes.length)
    (hfuel : totalSize - sent < fuel) :
    payloads (sendRelayChunks src kind id totalSize fuel first sent) = src.bytes.drop sent := by
  induction fuel generalizing sent first with
  | zero => omega
  | succ fuel ih =>
    rcases Nat.lt_or_ge sent totalSize with hlt | hge
    · have hpos := Source.next_pos kind first htotal hlt
      have hle := src.next_length_le (kind.headerSize first) totalSize sent
      obtain ⟨tail, htail⟩ := src.next_prefix (kind.headerSize first) totalSize sent
      have hne : (src.next (kind.headerSize first) totalSize sent).isEmpty = false := by
        simpa using List.ne_nil_of_length_pos hpos
      have hrest : payloads (sendRelayChunks src kind id totalSize fuel false
          (sent + (src.next (kind.headerSize first) totalSize sent).length)) = _ := ih (by omega)
      simp only [sendRelayChunks, hne, Nat.not_le.2 hlt, decide_false, Bool.or_false,
        Bool.and_false, Bool.false_eq_true, if_false]
      rw [payloads, List.flatMap_cons, ← payloads, hrest, data_frame, ← List.drop_drop, ← htail,
        List.drop_left]
    · have hdrop : src.bytes.drop sent = [] := List.drop_eq_nil_of_le (by omega)
      have hnil : src.next (kind.headerSize first) totalSize sent = [] := by
        simp [Source.next, hdrop]
      cases first with
      | false =>
        rw [sendRelayChunks_done hge, hdrop]
        rfl
      | true =>
        simp only [sendRelayChunks, hnil, Bool.not_true, Bool.false_and, Bool.false_eq_true,
          if_false, List.length_nil, Nat.add_zero]
        rw [sendRelayChunks_done hge, hdrop]
        rfl

theorem payloads_wsStreamSend (htotal : totalSize = src.bytes.length) (offset : Nat) :
    payloads (wsStreamSend src kind id totalSize offset) = src.bytes.drop offset :=
  payloads_sendRelayChunks htotal (by omega)

end Send

theorem idAllowed_of_isStreamId {id : String} (h : isStreamId id) : idAllowed id := by
  simp only [isStreamId, idAllowed, Bool.and_eq_true, List.all_eq_true, decide_eq_true_eq] at h ⊢
  refine ⟨fun hempty => by simp [hempty] at h, fun c hc => ?_⟩
  have := h.2 c hc
  simp only [Bool.or_eq_true, Bool.and_eq_true, decide_eq_true_eq] at this
  have halpha : c.isAlphanum = true := by
    rcases this with hdigit | ⟨hlo, hhi⟩
    · simp [Char.isAlphanum, hdigit]
    · have : c.isLower = true := by
        simp only [Char.isLower, Bool.and_eq_true, decide_eq_true_eq]
        exact ⟨hlo, hhi.trans (by decide)⟩
      simp [Char.isAlphanum, Char.isAlpha, this]
  simp [halpha]

namespace Pending

variable {pending : Pending} {id : String}

theorem get_remove : (pending.remove id).get id = none := by
  simp [get, remove]

theorem get_insert (s : WsTransferState) : (pending.insert s).get s.id = some s := by
  simp [get, insert]

theorem id_of_get {s : WsTransferState} (h : pending.get id = some s) : s.id = id := by
  simpa using List.find?_some h

end Pending

def Holds (pending : Pending) (id sender : String) (totalSize : Nat) (bytes : Bytes) : Prop :=
  ∃ s, pending.get id = some s ∧ s.sender = sender ∧ s.totalSize = totalSize ∧ s.bytes = bytes

def Completes (out : Pending × List StreamRequest) (id : String) (bytes : Bytes) : Prop :=
  out.1.get id = none ∧ ∃ r, out.2 = [r] ∧ r.id = id ∧ r.bytes = bytes

/-- The bytes of a stream so far, held or handed on as they are of its size. -/
def Assembled (out : Pending × List StreamRequest) (id sender : String) (totalSize : Nat)
    (bytes : Bytes) : Prop :=
  (out.2 = [] ∧ Holds out.1 id sender totalSize bytes ∧ bytes.length < totalSize) ∨
    Completes out id bytes ∧ bytes.length = totalSize

section Receive

variable (ceiling : StreamKind → String → Nat) {pending : Pending} {sender id : String}
  (kind : StreamKind) {totalSize : Nat} (first : Bool) {bytes data : Bytes} (now : Nat)

theorem wsStreamReceive_of_get {s : WsTransferState} (hid : isStreamId id)
    (hget : pending.get id = some s) (hsender : s.sender = sender) :
    wsStreamReceive ceiling pending sender (kind.frame id totalSize first data) now =
      appendFrame pending s data now := by
  have hallowed := idAllowed_of_isStreamId hid
  cases first <;>
    simp [StreamKind.frame, wsStreamReceive, hallowed, hid, hget, hsender]

theorem wsStreamReceive_open (hid : isStreamId id) (h : Holds pending id sender totalSize bytes)
    (hlt : bytes.length + data.length < totalSize) :
    (wsStreamReceive ceiling pending sender (kind.frame id totalSize first data) now).2 = none ∧
      Holds (wsStreamReceive ceiling pending sender (kind.frame id totalSize first data) now).1
        id sender totalSize (bytes ++ data) := by
  obtain ⟨s, hget, hsender, rfl, rfl⟩ := h
  have hsid := Pending.id_of_get hget
  rw [wsStreamReceive_of_get ceiling kind first now hid hget hsender, appendFrame,
    if_neg (by omega), if_neg (by omega)]
  refine ⟨rfl, s.extend data now, ?_, hsender, rfl, rfl⟩
  subst hsid
  exact Pending.get_insert (s.extend data now)

theorem wsStreamReceive_last (hid : isStreamId id) (h : Holds pending id sender totalSize bytes)
    (heq : bytes.length + data.length = totalSize) :
    (wsStreamReceive ceiling pending sender (kind.frame id totalSize first data) now).1.get id =
        none ∧
      ∃ r, (wsStreamReceive ceiling pending sender (kind.frame id totalSize first data) now).2 =
        some r ∧ r.id = id ∧ r.bytes = bytes ++ data := by
  obtain ⟨s, hget, hsender, rfl, rfl⟩ := h
  have hsid := Pending.id_of_get hget
  rw [wsStreamReceive_of_get ceiling kind first now hid hget hsender, appendFrame,
    if_neg (by omega), if_pos (by omega)]
  subst hsid
  exact ⟨Pending.get_remove, _, rfl, rfl, rfl⟩

end Receive

section Assemble

variable (ceiling : StreamKind → String → Nat) {sender id : String} {src : Source}
  {kind : StreamKind} {totalSize : Nat}

variable {frames : List (Frame × Nat)} {pending : Pending}

/-- Frames that go on from where a held stream ends add their payloads to it, up to its size. -/
theorem receiveAll_holds (hid : isStreamId id) {fuel sent : Nat} {first : Bool} {bytes : Bytes}
    (h : Holds pending id sender totalSize bytes) (hsent : bytes.length = sent)
    (hlt : sent < totalSize)
    (hframes : frames.map Prod.fst <+: sendRelayChunks src kind id totalSize fuel first sent) :
    Assembled (receiveAll ceiling sender pending frames) id sender totalSize
      (bytes ++ payloads (frames.map Prod.fst)) := by
  induction frames generalizing fuel sent first pending bytes with
  | nil =>
    refine .inl ⟨rfl, by simpa [payloads, receiveAll] using h, ?_⟩
    simpa [payloads, hsent] using hlt
  | cons fn frames ih =>
    obtain ⟨f, now⟩ := fn
    obtain ⟨rfl, fuel', hrest⟩ := cons_prefix_sendRelayChunks hframes
    set data := src.next (kind.headerSize first) totalSize sent
    have hle : data.length ≤ totalSize - sent := src.next_length_le _ _ _
    have hpay : payloads (((kind.frame id totalSize first data, now) :: frames).map Prod.fst) =
        data ++ payloads (frames.map Prod.fst) := by
      simp [payloads, data_frame]
    rw [hpay, ← List.append_assoc]
    simp only [receiveAll]
    rcases Nat.lt_or_ge (bytes.length + data.length) totalSize with hmore | hend
    · -- the stream stays open, and the rest goes on from its end
      obtain ⟨hnone, hholds⟩ := wsStreamReceive_open ceiling kind first now hid h hmore
      have hrec := ih hholds (by rw [List.length_append, hsent]) (by omega) hrest
      rw [hnone]
      simpa [Assembled, Completes] using hrec
    · -- its last byte: nothing follows
      have hfull : bytes.length + data.length = totalSize := by omega
      obtain ⟨hget, r, hr, hrid, hrbytes⟩ :=
        wsStreamReceive_last ceiling kind first now hid h hfull
      obtain rfl : frames = [] := by
        rw [sendRelayChunks_done (by omega)] at hrest
        simpa using hrest
      exact .inr ⟨⟨hget, r, by rw [hr]; rfl, hrid, by simp [payloads, hrbytes]⟩,
        by simpa [payloads] using hfull⟩

theorem receiveAll_unopened {fuel sent : Nat} (hget : pending.get id = none)
    (hframes : frames.map Prod.fst <+: sendRelayChunks src kind id totalSize fuel false sent) :
    receiveAll ceiling sender pending frames = (pending, []) := by
  induction frames generalizing fuel sent with
  | nil => rfl
  | cons fn frames ih =>
    obtain ⟨f, now⟩ := fn
    obtain ⟨rfl, fuel', hrest⟩ := cons_prefix_sendRelayChunks hframes
    have hdrop : wsStreamReceive ceiling pending sender (kind.frame id totalSize false
        (src.next (kind.headerSize false) totalSize sent)) now = (pending, none) := by
      simp [StreamKind.frame, wsStreamReceive, hget]
    simp only [receiveAll, hdrop]
    rw [ih hrest]
    rfl

theorem openStream_cases (pending : Pending) (data : Bytes) (now : Nat) :
    openStream ceiling pending sender kind id totalSize data now = (pending, none) ∨
      (data.length < totalSize ∧
        (openStream ceiling pending sender kind id totalSize data now).2 = none ∧
        Holds (openStream ceiling pending sender kind id totalSize data now).1 id sender totalSize
          data) ∨
      (totalSize ≤ data.length ∧
        (openStream ceiling pending sender kind id totalSize data now).1.get id = none ∧
        ∃ r, (openStream ceiling pending sender kind id totalSize data now).2 = some r ∧ r.id = id ∧
          r.bytes = data) := by
  unfold openStream
  split_ifs with hrefused hfull
  · exact .inl rfl
  · exact .inr (.inr ⟨hfull, Pending.get_remove, _, rfl, rfl, rfl⟩)
  · exact .inr (.inl ⟨by omega, rfl, _, Pending.get_insert _, rfl, rfl, rfl⟩)

/-- The frames of a stream from its start are turned away or assembled. -/
theorem receiveAll_fresh {fuel : Nat} (hkind : kind.needsStreamId) (hget : pending.get id = none)
    (hframes : frames.map Prod.fst <+: sendRelayChunks src kind id totalSize fuel true 0) :
    receiveAll ceiling sender pending frames = (pending, []) ∨
      isStreamId id ∧ Assembled (receiveAll ceiling sender pending frames) id sender totalSize
        (payloads (frames.map Prod.fst)) := by
  cases frames with
  | nil => exact .inl rfl
  | cons fn frames =>
    obtain ⟨f, now⟩ := fn
    obtain ⟨rfl, fuel', hrest⟩ := cons_prefix_sendRelayChunks hframes
    set data := src.next (kind.headerSize true) totalSize 0
    have hle : data.length ≤ totalSize - 0 := src.next_length_le _ _ _
    rw [Nat.zero_add] at hrest
    have hturned : wsStreamReceive ceiling pending sender (.first kind id totalSize data) now =
        (pending, none) →
        receiveAll ceiling sender pending ((.first kind id totalSize data, now) :: frames) =
          (pending, []) := by
      intro hnone
      simp only [receiveAll, hnone]
      rw [receiveAll_unopened ceiling hget hrest]
      rfl
    by_cases hid : isStreamId id
    · have hreceive : wsStreamReceive ceiling pending sender (.first kind id totalSize data) now =
          openStream ceiling pending sender kind id totalSize data now := by
        simp [wsStreamReceive, idAllowed_of_isStreamId hid, hid, hget]
      rcases openStream_cases ceiling pending data now with
        hrefused | ⟨hlt, hnone, hholds⟩ | ⟨hfull, hgone, r, hr, hrid, hrbytes⟩
      · exact .inl (hturned (hreceive.trans hrefused))
      · have hassembled := receiveAll_holds ceiling hid hholds rfl hlt hrest
        refine .inr ⟨hid, ?_⟩
        simp only [StreamKind.frame, if_true, receiveAll, hreceive, hnone]
        simpa [Assembled, Completes, payloads, Frame.data] using hassembled
      · -- the first frame carries it all: nothing follows
        obtain rfl : frames = [] := by
          rw [sendRelayChunks_done hfull] at hrest
          simpa using hrest
        simp only [StreamKind.frame, if_true, receiveAll, hreceive, hr]
        exact .inr ⟨hid, .inr ⟨⟨hgone, r, rfl, hrid, by simp [payloads, hrbytes, Frame.data]⟩,
          by simpa [payloads, Frame.data] using (by omega)⟩⟩
    · refine .inl (hturned ?_)
      simp [wsStreamReceive, hid, hkind]

end Assemble

end Hollow.Files
