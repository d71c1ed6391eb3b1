import Hollow.Session.Ring

/-! A resumable session between one device and the relay. Each side counts the stream frames it
took, keeps those the other has not acked and writes them again after a resume. A socket is a pair
of queues; either end may leave it at any time with both queues half read, and a sign-in may still
be on its way after the device gave its socket up. -/

namespace Hollow.Session

/-- The device's count of what it received. -/
structure Inbound where
  h : Nat
  acked : Nat

def ackEvery : Nat := 16

/-- Counts `n` stream frames; whether an ack is due at once. -/
def Inbound.received (i : Inbound) (n : Nat) : Inbound × Bool :=
  if n = 0 then (i, false) else ({ i with h := i.h + n }, ackEvery ≤ i.h + n - i.acked)

def Inbound.sayAcked (i : Inbound) : Inbound × Nat := ({ i with acked := i.h }, i.h)

structure Written (γ : Type) where
  seq : Nat
  frame : γ

/-- The frames the device wrote and the relay has not acked. -/
structure Outbound (γ : Type) where
  inflight : List (Written γ)
  written : Nat
  acked : Nat

variable {β γ : Type}

namespace Outbound

def record (out : Outbound γ) (frame : γ) : Outbound γ :=
  { out with
    inflight := out.inflight ++ [⟨out.written + 1, frame⟩]
    written := out.written + 1 }

/-- A count above what was written or below the last ack changes nothing. -/
def ack (out : Outbound γ) (h : Nat) : Outbound γ × Bool :=
  if h < out.acked || out.written < h then (out, false)
  else ({ out with inflight := out.inflight.dropWhile (·.seq ≤ h), acked := h }, true)

/-- The relay resumed at `h`: what to write again. -/
def resume (out : Outbound γ) (h : Nat) : Option (Outbound γ × List γ) :=
  match out.ack h with
  | (out, true) => some (out, out.inflight.map (·.frame))
  | (_, false) => none

end Outbound

def number (start : Nat) : List γ → List (Written γ)
  | [] => []
  | f :: fs => ⟨start + 1, f⟩ :: number (start + 1) fs

section Number

variable {start : Nat} {fs gs : List γ} {f : γ}

theorem number_append :
    number start (fs ++ gs) = number start fs ++ number (start + fs.length) gs := by
  induction fs generalizing start with
  | nil => rfl
  | cons f fs ih =>
    simp only [List.cons_append, number, ih, List.length_cons]
    rw [Nat.add_right_comm, ← Nat.add_assoc]

theorem number_map_frame : (number start fs).map (·.frame) = fs := by
  induction fs generalizing start with
  | nil => rfl
  | cons f fs ih => simp [number, ih]

/-- Dropping what is held already leaves the numbering of the rest. -/
theorem number_dropWhile {h : Nat} (hle : start ≤ h) :
    (number start fs).dropWhile (·.seq ≤ h) = number h (fs.drop (h - start)) := by
  induction fs generalizing start with
  | nil => simp [number]
  | cons f fs ih =>
    rcases Nat.eq_or_lt_of_le hle with rfl | hlt
    · simp [number]
    · rw [number, List.dropWhile_cons_of_pos (by simpa using hlt), ih hlt,
        show h - start = (h - (start + 1)) + 1 by omega, List.drop_succ_cons]

end Number

/-- What a device writes on a socket. -/
inductive Up (γ : Type) where
  | frame (f : γ)
  | ack (h : Nat)
  | hb (h : Nat)
  | signIn (inH : Nat)

/-- The count a control frame of the device carries. -/
def Up.carries : Up γ → Option Nat
  | .frame _ => none
  | .ack h | .hb h | .signIn h => some h

/-- The stream frames among what a device wrote. -/
def frames (written : List (Up γ)) : List γ :=
  written.filterMap fun
    | .frame f => some f
    | _ => none

@[simp] theorem frames_nil : frames ([] : List (Up γ)) = [] := rfl

@[simp] theorem frames_append (xs ys : List (Up γ)) :
    frames (xs ++ ys) = frames xs ++ frames ys := by
  simp [frames]

/-- How many stream frames a frame of the relay stands for. -/
def Down.counts : Down β → Nat
  | .data _ => 1
  | .gap n => n
  | _ => 0

/-- The count of what the relay took that a frame of it carries. -/
def Down.carries : Down β → Option Nat
  | .ack h | .hbAck h | .resumed h => some h
  | _ => none

/-- Both ends, the sockets between them, and what happened so far. -/
structure World (β γ : Type) where
  /-- The relay's session. -/
  ring : Ring β
  inH : Nat
  relayOn : Option Nat
  /-- The device. -/
  inbound : Inbound
  out : Outbound γ
  resend : List γ
  clientOn : Option Nat
  /-- The socket the device signs in on. -/
  attempt : Option Nat
  /-- The sockets, and the first number never used for one. -/
  down : Nat → List (Down β)
  up : Nat → List (Up γ)
  next : Nat
  /-- Every frame pushed, and what the ring last held under each number. -/
  pushed : List β
  kept : List (Option β)
  /-- What the device counted, number by number. -/
  seen : List (Option β)
  recorded : List γ
  handled : List γ
  /-- The relay refused a sign-in and ended the session. -/
  ended : Bool

/-- Appends to the queue of a socket, if there is one. -/
def writeOn {α : Type} (q : Nat → List α) (on : Option Nat) (xs : List α) : Nat → List α :=
  match on with
  | some j => Function.update q j (q j ++ xs)
  | none => q

theorem writeOn_apply {α : Type} (q : Nat → List α) (on : Option Nat) (xs : List α) (k : Nat) :
    writeOn q on xs k = if on = some k then q k ++ xs else q k := by
  cases on with
  | none => rfl
  | some j =>
    by_cases h : k = j
    · subst h
      simp [writeOn]
    · simp [writeOn, h, Ne.symm h]

theorem mem_writeOn {α : Type} {q : Nat → List α} {on : Option Nat} {xs : List α} {k : Nat}
    {x : α} : x ∈ writeOn q on xs k ↔ x ∈ q k ∨ on = some k ∧ x ∈ xs := by
  rw [writeOn_apply]
  split_ifs with h <;> simp [h]

theorem mem_of_mem_update {α : Type} {q : Nat → List α} {j k : Nat} {x y : α} {rest : List α}
    (hj : q j = y :: rest) (h : x ∈ Function.update q j rest k) : x ∈ q k := by
  rw [Function.update_apply] at h
  split_ifs at h with hk
  · exact hk ▸ hj ▸ List.mem_cons_of_mem _ h
  · exact h

namespace World

/-- A session just minted on socket `0`. -/
def fresh : World β γ where
  ring := .empty
  inH := 0
  relayOn := some 0
  inbound := ⟨0, 0⟩
  out := ⟨[], 0, 0⟩
  resend := []
  clientOn := some 0
  attempt := none
  down := fun _ => []
  up := fun _ => []
  next := 1
  pushed := []
  kept := []
  seen := []
  recorded := []
  handled := []
  ended := false

/-- The ring after an operation, with what it now holds under the numbers after its last ack. -/
def withRing (w : World β γ) (ring : Ring β) : World β γ :=
  { w with ring := ring, kept := w.kept.take ring.acked ++ contents ring.entries }

@[simp] theorem withRing_inbound (w : World β γ) (ring : Ring β) :
    (w.withRing ring).inbound = w.inbound := rfl

/-- A stream frame for the device: counted into the ring, then written if a socket is attached. -/
def sendStream (size : β → Nat) (w : World β γ) (bytes : β) (share : Nat) : World β γ :=
  { w.withRing (w.ring.ringPush size bytes share) with
    pushed := w.pushed ++ [bytes]
    down := writeOn w.down w.relayOn [.data bytes] }

/-- The shared pool picks a frame of this ring. -/
def bury (w : World β γ) (i : Nat) : World β γ := w.withRing (w.ring.bury i)

def sendAck (w : World β γ) : World β γ :=
  { w with down := writeOn w.down w.relayOn [.ack w.inH] }

def relayTakes (w : World β γ) : Up γ → World β γ
  | .frame f => { w with inH := w.inH + 1, handled := w.handled ++ [f] }
  | .ack h => w.withRing (w.ring.ack h).1
  | .hb h => { w.withRing (w.ring.ack h).1 with down := writeOn w.down w.relayOn [.hbAck w.inH] }
  | .signIn _ => w

/-- The session moves to socket `j`: the device's count acks the ring, and the rest is replayed. -/
def resumeSession (w : World β γ) (j inH : Nat) : World β γ :=
  let ring := (w.ring.ack inH).1
  { w.withRing ring with
    relayOn := some j
    down := writeOn w.down (some j) (.resumed w.inH :: ring.replayAfter inH) }

/-- The device's count is not one the ring can go on from: the relay answers `bad_h`, ends the
session and hands its ring off. -/
def refuseSignIn (w : World β γ) : World β γ := { w with ended := true }

/-- The device reads a frame off its socket; one that answers ends a sign-in beside it. -/
def clientTakes (w : World β γ) (m : Down β) : World β γ :=
  let w := { w with
    attempt := none
    inbound := (w.inbound.received m.counts).1
    seen := w.seen ++ stream [m] }
  match m with
  | .ack h => { w with out := (w.out.ack h).1 }
  | .hbAck h => { w with out := (w.out.ack h).1 }
  | _ => w

def clientSaysAck (w : World β γ) (m : Nat → Up γ) : World β γ :=
  { w with
    inbound := w.inbound.sayAcked.1
    up := writeOn w.up w.clientOn [m w.inbound.sayAcked.2] }

def clientRecords (w : World β γ) (f : γ) : World β γ :=
  { w with
    out := w.out.record f
    recorded := w.recorded ++ [f]
    up := writeOn w.up w.clientOn [.frame f] }

def clientResends (w : World β γ) (f : γ) (rest : List γ) : World β γ :=
  { w with resend := rest, up := writeOn w.up w.clientOn [.frame f] }

def startAttempt (w : World β γ) : World β γ :=
  { w with
    attempt := some w.next
    up := writeOn w.up (some w.next) [.signIn w.inbound.h]
    next := w.next + 1 }

/-- The relay's answer arrived: the device moves to the socket and queues what it must write again.
-/
def establishOn (w : World β γ) (j : Nat) (out : Outbound γ) (resend : List γ) : World β γ :=
  { w with out := out, resend := resend, clientOn := some j, attempt := none }

def popUp (w : World β γ) (j : Nat) (rest : List (Up γ)) : World β γ :=
  { w with up := Function.update w.up j rest }

def popDown (w : World β γ) (j : Nat) (rest : List (Down β)) : World β γ :=
  { w with down := Function.update w.down j rest }

end World

/-- What can happen next. The relay reads a sign-in whenever it arrives, also one the device has
given up meanwhile. -/
inductive Step (size : β → Nat) : World β γ → World β γ → Prop where
  | sendStream {w} (bytes : β) (share : Nat) : Step size w (w.sendStream size bytes share)
  | bury {w} {i : Nat} {f : Frame β} : w.ring.entries[i]? = some f → f.tombstone = false →
      Step size w (w.bury i)
  | sendAck {w} : Step size w w.sendAck
  | relayTakes {w} {j : Nat} {m : Up γ} {rest : List (Up γ)} : w.relayOn = some j →
      w.up j = m :: rest → Step size w ((w.popUp j rest).relayTakes m)
  | resumeSession {w} {j inH : Nat} {rest : List (Up γ)} : w.up j = .signIn inH :: rest →
      w.ring.canResumeFrom inH → Step size w ((w.popUp j rest).resumeSession j inH)
  | refuseSignIn {w} {j inH : Nat} {rest : List (Up γ)} : w.up j = .signIn inH :: rest →
      w.ring.canResumeFrom inH = false → Step size w (w.popUp j rest).refuseSignIn
  | relayDrops {w} : Step size w { w with relayOn := none }
  | clientTakes {w} {j : Nat} {m : Down β} {rest : List (Down β)} : w.clientOn = some j →
      w.down j = m :: rest → Step size w ((w.popDown j rest).clientTakes m)
  | clientAcks {w} {j : Nat} : w.clientOn = some j → Step size w (w.clientSaysAck .ack)
  | clientBeats {w} {j : Nat} : w.clientOn = some j → Step size w (w.clientSaysAck .hb)
  | clientRecords {w} {j : Nat} (f : γ) : w.clientOn = some j → w.attempt = none →
      w.resend = [] → Step size w (w.clientRecords f)
  | clientResends {w} {j : Nat} {f : γ} {rest : List γ} : w.clientOn = some j →
      w.attempt = none → w.resend = f :: rest → Step size w (w.clientResends f rest)
  | clientDrops {w} : Step size w { w with clientOn := none }
  | startAttempt {w} : w.attempt = none → Step size w w.startAttempt
  | abandons {w} : Step size w { w with attempt := none }
  | establishOn {w} {j h : Nat} {rest : List (Down β)} {out : Outbound γ} {resend : List γ} :
      w.attempt = some j → w.down j = .resumed h :: rest → w.out.resume h = some (out, resend) →
      Step size w ((w.popDown j rest).establishOn j out resend)

/-- The worlds a session goes through until it ends. -/
inductive Run (size : β → Nat) : World β γ → Prop where
  | fresh : Run size .fresh
  | step {w w' : World β γ} : Run size w → w.ended = false → Step size w w' → Run size w'

/-- Number `i + 1` reads as `o`: the bytes pushed under it, or gone where the ring lost it. -/
def Genuine (pushed : List β) (kept : List (Option β)) (i : Nat) : Option β → Prop
  | some bytes => pushed[i]? = some bytes
  | none => kept[i]? = some none

/-- A stream read from number `start + 1` on. -/
def Reads (pushed : List β) (kept : List (Option β)) (start : Nat) (o : List (Option β)) : Prop :=
  ∀ (k : Nat) x, o[k]? = some x → Genuine pushed kept (start + k) x

theorem Masks.getElem?_eq {l m : List (Option β)} (h : Masks l m) (i : Nat) :
    m[i]? = l[i]? ∨ m[i]? = some none := by
  induction h generalizing i with
  | nil => exact .inl rfl
  | cons hab _ ih =>
    cases i with
    | zero => simpa using hab
    | succ i => exact ih i

theorem Masks.none_of_none {l m : List (Option β)} (h : Masks l m) {i : Nat}
    (hi : l[i]? = some none) : m[i]? = some none :=
  (Masks.getElem?_eq h i).elim (·.trans hi) id

theorem Masks.some_of_some {l m : List (Option β)} (h : Masks l m) {i : Nat} {b : β}
    (hi : m[i]? = some (some b)) : l[i]? = some (some b) := by
  rcases Masks.getElem?_eq h i with heq | hnone
  · exact heq.symm.trans hi
  · rw [hnone] at hi
    cases hi

section Reads

variable {pushed pushed' : List β} {kept kept' : List (Option β)} {start : Nat}
  {o o' : List (Option β)}

theorem reads_nil : Reads pushed kept start [] := by
  intro k x hk
  simp at hk

theorem Reads.mono (h : Reads pushed kept start o) (hpushed : pushed <+: pushed')
    (hkept : ∀ i : Nat, kept[i]? = some none → kept'[i]? = some none) :
    Reads pushed' kept' start o := by
  intro k x hk
  have hx := h k x hk
  cases x with
  | some b =>
    obtain ⟨rest, rfl⟩ := hpushed
    exact (List.getElem?_append_left (List.getElem?_eq_some_iff.1 hx).1).trans hx
  | none => exact hkept _ hx

/-- Reading on from where a prefix ended. -/
theorem reads_append : Reads pushed kept start (o ++ o') ↔
    Reads pushed kept start o ∧ Reads pushed kept (start + o.length) o' := by
  constructor
  · refine fun h => ⟨fun k x hk => h k x ?_, fun k x hk => ?_⟩
    · rw [List.getElem?_append_left (List.getElem?_eq_some_iff.1 hk).1]
      exact hk
    · rw [Nat.add_assoc]
      exact h _ x (by rw [List.getElem?_append_right (by omega), Nat.add_sub_cancel_left]; exact hk)
  · rintro ⟨h, h'⟩ k x hk
    rcases Nat.lt_or_ge k o.length with hlt | hge
    · exact h k x (by rwa [List.getElem?_append_left hlt] at hk)
    · rw [List.getElem?_append_right hge] at hk
      have := h' _ x hk
      rwa [Nat.add_assoc, Nat.add_sub_cancel' hge] at this

theorem reads_drop (h : ∀ (i : Nat) b, kept[i]? = some (some b) → pushed[i]? = some b)
    (start : Nat) : Reads pushed kept start (kept.drop start) := by
  intro k x hk
  rw [List.getElem?_drop] at hk
  cases x with
  | some b => exact h _ b hk
  | none => exact hk

theorem Reads.length_le (h : Reads pushed kept start o) (hkept : kept.length = pushed.length)
    (hstart : start ≤ pushed.length) : start + o.length ≤ pushed.length := by
  rcases Nat.eq_zero_or_pos o.length with hzero | hpos
  · rw [hzero]
    exact hstart
  · have hlast := h (o.length - 1) _ (List.getElem?_eq_getElem (by omega))
    have hlt : start + (o.length - 1) < pushed.length := by
      cases hx : o[o.length - 1] with
      | some b =>
        rw [hx] at hlast
        exact (List.getElem?_eq_some_iff.1 hlast).1
      | none =>
        rw [hx] at hlast
        exact hkept ▸ (List.getElem?_eq_some_iff.1 hlast).1
    omega

end Reads

theorem Ring.carries_replayAfter (r : Ring β) (h : Nat) {m : Down β} (hm : m ∈ r.replayAfter h) :
    m.carries = none := by
  suffices hfrom : ∀ entries run, m ∈ replayFrom h run entries → m.carries = none from hfrom _ _ hm
  have hgap : ∀ run, m ∈ gapFrames run → m.carries = none := by
    intro run hrun
    unfold gapFrames at hrun
    split_ifs at hrun
    · cases hrun
    · rw [List.mem_singleton.1 hrun]
      rfl
  intro entries
  induction entries with
  | nil => exact fun run hrun => hgap run hrun
  | cons f entries ih =>
    intro run hrun
    rw [replayFrom] at hrun
    split_ifs at hrun
    · exact ih _ hrun
    · exact ih _ hrun
    · simp only [List.mem_append, List.mem_map] at hrun
      rcases hrun with (hrun | ⟨b, -, rfl⟩) | hrun
      · exact hgap run hrun
      · rfl
      · exact ih _ hrun

theorem Inbound.received_h (i : Inbound) (n : Nat) : (i.received n).1.h = i.h + n := by
  unfold received
  split_ifs with h
  · simp [h]
  · rfl

theorem Down.length_stream (m : Down β) : (stream [m]).length = m.counts := by
  cases m <;> simp [stream, counts]

end Hollow.Session
