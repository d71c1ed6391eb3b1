import Hollow.Files.Stream

/-! One receiver and any senders. Whatever frames arrive from whomever, the open streams stay within
the receiver's limits, and the bytes of each, open or completed, are those of frames that one sender
sent under its id. -/

namespace Hollow.Files

def Frame.id : Frame → String
  | .first _ id _ _ => id
  | .continuation id _ => id

/-- A frame as it arrives, with what a new stream may declare at that moment. -/
structure Arrival where
  sender : String
  frame : Frame
  now : Nat
  ceiling : StreamKind → String → Nat

/-- The streams open and those completed so far, after one more frame. -/
def receive (state : Pending × List StreamRequest) (a : Arrival) : Pending × List StreamRequest :=
  let (pending, done) := wsStreamReceive a.ceiling state.1 a.sender a.frame a.now
  (pending, state.2 ++ done.toList)

def receiveMany (arrivals : List Arrival) : Pending × List StreamRequest :=
  arrivals.foldl receive ([], [])

/-- The bytes are those of some of the frames that `sender` sent under `id`, in their order. -/
def Traced (arrivals : List Arrival) (sender id : String) (bytes : Bytes) : Prop :=
  ∃ own : List Arrival, own.Sublist (arrivals.filter fun a => a.sender = sender ∧ a.frame.id = id) ∧
    payloads (own.map (·.frame)) = bytes

structure Bounded (arrivals : List Arrival) (pending : Pending) : Prop where
  ids : (pending.map (·.id)).Nodup
  total : pending.length ≤ maxRecvStreams
  perSender : ∀ sender, pending.countP (·.sender = sender) ≤ maxRecvStreamsPerSender
  each : ∀ s ∈ pending, s.bytes.length < s.totalSize ∧ Traced arrivals s.sender s.id s.bytes

/-- A completed stream has the size declared, from one sender. -/
def Whole (arrivals : List Arrival) (r : StreamRequest) : Prop :=
  r.bytes.length = r.size ∧ ∃ sender, Traced arrivals sender r.id r.bytes

variable {arrivals : List Arrival} {pending : Pending} {a : Arrival} {s old : WsTransferState}
  {sender id : String} {bytes : Bytes}

theorem Traced.mono (h : Traced arrivals sender id bytes) :
    Traced (arrivals ++ [a]) sender id bytes := by
  obtain ⟨own, hown, hbytes⟩ := h
  exact ⟨own, hown.trans ((List.sublist_append_left _ _).filter _), hbytes⟩

theorem Traced.append (h : Traced arrivals a.sender a.frame.id bytes) :
    Traced (arrivals ++ [a]) a.sender a.frame.id (bytes ++ a.frame.data) := by
  obtain ⟨own, hown, rfl⟩ := h
  refine ⟨own ++ [a], ?_, by simp [payloads]⟩
  simpa [List.filter_append] using hown

/-- A stream that a frame leaves: its sender's own, longer by the frame, or a new one where there is
room. -/
structure Grew (pending : Pending) (a : Arrival) (s : WsTransferState) : Prop where
  sender : s.sender = a.sender
  id : s.id = a.frame.id
  source : (∃ old ∈ pending, old.id = s.id ∧ old.sender = s.sender ∧
      s.bytes = old.bytes ++ a.frame.data) ∨
    s.bytes = a.frame.data ∧ (pending.remove s.id).length < maxRecvStreams ∧
      (pending.remove s.id).countP (·.sender = s.sender) < maxRecvStreamsPerSender

inductive Took (pending : Pending) (a : Arrival) : Pending × Option StreamRequest → Prop
  | same : Took pending a (pending, none)
  | gone (id : String) : Took pending a (pending.remove id, none)
  | done (s : WsTransferState) (hgrew : Grew pending a s) (hsize : s.bytes.length = s.totalSize) :
      Took pending a (pending.remove s.id, some ⟨s.kind, s.id, s.totalSize, s.bytes⟩)
  | kept (s : WsTransferState) (hgrew : Grew pending a s) (hlt : s.bytes.length < s.totalSize) :
      Took pending a (pending.insert s, none)

theorem Pending.remove_insert : (pending.insert s).remove s.id = pending.remove s.id := by
  simp [Pending.remove, Pending.insert]

theorem Pending.remove_remove : (pending.remove id).remove id = pending.remove id := by
  simp [Pending.remove]

theorem took_appendFrame (hget : pending.get a.frame.id = some old)
    (hsender : old.sender = a.sender) :
    Took pending a (appendFrame pending old a.frame.data a.now) := by
  have hgrew : Grew pending a (old.extend a.frame.data a.now) :=
    ⟨hsender, (Pending.id_of_get hget : old.id = _),
      .inl ⟨old, List.mem_of_find?_eq_some hget, rfl, rfl, rfl⟩⟩
  have hlength : (old.extend a.frame.data a.now).bytes.length =
      old.bytes.length + a.frame.data.length := List.length_append
  unfold appendFrame
  dsimp only
  split_ifs with hover hfull
  · exact .gone old.id
  · rw [completeTransfer, Pending.remove_insert]
    exact .done _ hgrew (hlength.trans (le_antisymm (not_lt.1 hover) hfull))
  · exact .kept _ hgrew (hlength ▸ not_le.1 hfull)

theorem took_openStream {base : Pending} {kind : StreamKind} {totalSize : Nat}
    (hbase : base = pending ∨ base = pending.remove a.frame.id) :
    Took pending a
      (openStream a.ceiling base a.sender kind a.frame.id totalSize a.frame.data a.now) := by
  have hsub : (pending.remove a.frame.id).Sublist base := by
    rcases hbase with rfl | rfl
    · exact List.filter_sublist
    · exact List.Sublist.refl _
  have hremove : base.remove a.frame.id = pending.remove a.frame.id := by
    rcases hbase with rfl | rfl
    · rfl
    · exact Pending.remove_remove
  unfold openStream
  split
  · rcases hbase with rfl | rfl
    · exact .same
    · exact .gone _
  rename_i hfull
  simp only [Bool.or_eq_true, decide_eq_true_eq, not_or, not_le, not_lt] at hfull
  obtain ⟨⟨⟨hroom, hall⟩, hfits⟩, -⟩ := hfull
  have hgrew : Grew pending a ⟨kind, a.frame.id, totalSize, a.frame.data, a.sender, a.now⟩ :=
    ⟨rfl, rfl, .inr ⟨rfl, hsub.length_le.trans_lt hall, (hsub.countP_le).trans_lt hroom⟩⟩
  dsimp only
  split_ifs with hone
  · rw [completeTransfer, Pending.remove_insert, hremove]
    exact .done _ hgrew (le_antisymm hfits hone)
  · have hkept := Took.kept _ hgrew (not_le.1 hone)
    rwa [Pending.insert, ← hremove] at hkept

/-- A frame leaves the streams as they were, drops one, or extends its sender's own. -/
theorem took_wsStreamReceive (pending : Pending) (a : Arrival) :
    Took pending a (wsStreamReceive a.ceiling pending a.sender a.frame a.now) := by
  obtain ⟨sender, frame, now, ceiling⟩ := a
  cases frame with
  | continuation id payload =>
    simp only [wsStreamReceive]
    split_ifs
    · exact .same
    · split
      · exact .same
      · rename_i old hget
        split_ifs with hsender
        · exact .same
        · exact took_appendFrame (a := ⟨sender, .continuation id payload, now, ceiling⟩) hget
            (not_not.1 hsender)
  | first kind id totalSize payload =>
    simp only [wsStreamReceive]
    split_ifs
    · exact .same
    · split
      · rename_i old hget
        split_ifs with hsender hidle
        · exact took_appendFrame (a := ⟨sender, .first kind id totalSize payload, now, ceiling⟩)
            hget hsender
        · exact .same
        · exact took_openStream (a := ⟨sender, .first kind id totalSize payload, now, ceiling⟩)
            (.inr rfl)
      · exact took_openStream (a := ⟨sender, .first kind id totalSize payload, now, ceiling⟩)
          (.inl rfl)

theorem Bounded.traced (h : Bounded arrivals pending) (hgrew : Grew pending a s) :
    Traced (arrivals ++ [a]) s.sender s.id s.bytes := by
  rcases hgrew.source with ⟨old, hold, hid, hsender, hbytes⟩ | ⟨hbytes, -⟩
  all_goals rw [hbytes, hgrew.sender, hgrew.id]
  · refine Traced.append ?_
    rw [← hgrew.sender, ← hgrew.id, ← hid, ← hsender]
    exact (h.each old hold).2
  · have hnone : Traced arrivals a.sender a.frame.id [] := ⟨[], List.nil_sublist _, rfl⟩
    exact hnone.append

theorem Bounded.remove (h : Bounded arrivals pending) (id : String) :
    Bounded (arrivals ++ [a]) (pending.remove id) where
  ids := h.ids.sublist (List.filter_sublist.map _)
  total := (List.length_filter_le _ _).trans h.total
  perSender sender := (List.filter_sublist.countP_le).trans (h.perSender sender)
  each s hs := (h.each s (List.mem_of_mem_filter hs)).imp_right Traced.mono

/-- A stream in the place of one of its sender counts no further stream. -/
theorem countP_insert_le {p : WsTransferState → Bool} (hold : old ∈ pending) (hid : old.id = s.id)
    (hp : p s → p old) : (pending.insert s).countP p ≤ pending.countP p := by
  have hsplit := List.countP_eq_countP_filter_add pending p (·.id ≠ s.id)
  rw [Pending.insert, List.countP_cons, hsplit, Pending.remove]
  refine Nat.add_le_add_left ?_ _
  split_ifs with hs
  · refine List.countP_pos_iff.2 ⟨old, List.mem_filter.2 ⟨hold, by simp [hid]⟩, hp hs⟩
  · exact Nat.zero_le _

theorem Bounded.insert (h : Bounded arrivals pending) (hgrew : Grew pending a s)
    (hlt : s.bytes.length < s.totalSize) : Bounded (arrivals ++ [a]) (pending.insert s) := by
  have hrest := h.remove (a := a) s.id
  refine ⟨List.nodup_cons.2 ⟨by simp [Pending.remove], hrest.ids⟩, ?_, fun sender => ?_, ?_⟩
  · rcases hgrew.source with ⟨old, hold, hid, -⟩ | ⟨-, hroom, -⟩
    · simpa using (countP_insert_le (p := fun _ => true) hold hid id).trans (by simpa using h.total)
    · exact hroom
  · rcases hgrew.source with ⟨old, hold, hid, hsender, -⟩ | ⟨-, -, hroom⟩
    · exact (countP_insert_le hold hid (by simp [hsender])).trans (h.perSender sender)
    · rw [Pending.insert, List.countP_cons]
      split_ifs with hs
      · rw [← of_decide_eq_true hs]
        exact hroom
      · exact hrest.perSender sender
  · intro s' hs'
    rcases List.mem_cons.1 hs' with rfl | hs'
    · exact ⟨hlt, h.traced hgrew⟩
    · exact hrest.each s' hs'

/-- Over any arrivals the open streams stay bounded and every completed one is whole. -/
theorem receiveMany_bounded (arrivals : List Arrival) :
    Bounded arrivals (receiveMany arrivals).1 ∧
      ∀ r ∈ (receiveMany arrivals).2, Whole arrivals r := by
  induction arrivals using List.reverseRecOn with
  | nil => exact ⟨⟨List.nodup_nil, Nat.zero_le _, fun _ => Nat.zero_le _, nofun⟩, nofun⟩
  | append_singleton arrivals a ih =>
    obtain ⟨hbounded, hwhole⟩ := ih
    have hmono : ∀ r ∈ (receiveMany arrivals).2, Whole (arrivals ++ [a]) r := fun r hr =>
      ⟨(hwhole r hr).1, (hwhole r hr).2.imp fun _ => Traced.mono⟩
    have htook := took_wsStreamReceive (receiveMany arrivals).1 a
    rw [receiveMany, List.foldl_concat, ← receiveMany, receive]
    generalize wsStreamReceive a.ceiling (receiveMany arrivals).1 a.sender a.frame a.now = out
      at htook
    cases htook with
    | same =>
      refine ⟨{ hbounded with each := fun s hs => ?_ }, by simpa using hmono⟩
      exact (hbounded.each s hs).imp_right Traced.mono
    | gone id => exact ⟨hbounded.remove id, by simpa using hmono⟩
    | done s hgrew hsize =>
      refine ⟨hbounded.remove s.id, fun r hr => ?_⟩
      rcases List.mem_append.1 hr with hr | hr
      · exact hmono r hr
      · rw [List.mem_singleton.1 hr]
        exact ⟨hsize, s.sender, hbounded.traced hgrew⟩
    | kept s hgrew hlt => exact ⟨hbounded.insert hgrew hlt, by simpa using hmono⟩

end Hollow.Files
