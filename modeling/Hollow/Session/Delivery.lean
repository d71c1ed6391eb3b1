import Hollow.Session.Protocol

/-! Every frame of a session is counted once and in order, in both directions, over every
interleaving of pushes, evictions, deliveries, acks, lost sockets, resumes and refused sign-ins. The
invariant has three parts: how the sockets are used, what the device may still read, and what the
relay may still take. -/

namespace Hollow.Session

variable {β γ : Type} {size : β → Nat} {w w' : World β γ}

/-- A socket carries its sign-in, then one answer, then everything else. -/
structure Wired (w : World β γ) : Prop where
  unused : ∀ j, w.next ≤ j → w.up j = [] ∧ w.down j = []
  relayOn_lt : ∀ j, w.relayOn = some j → j < w.next
  clientOn_lt : ∀ j, w.clientOn = some j → j < w.next
  attempt_lt : ∀ j, w.attempt = some j → j < w.next
  apart : ∀ j, w.attempt = some j → w.clientOn ≠ some j
  signIn : ∀ j n, .signIn n ∈ w.up j →
    w.up j = [.signIn n] ∧ w.down j = [] ∧ w.relayOn ≠ some j ∧ w.clientOn ≠ some j
  attempt : ∀ j, w.attempt = some j → w.up j = [.signIn w.inbound.h] ∨ w.up j = []

theorem wired_fresh : Wired (.fresh : World β γ) := by
  constructor <;> simp [World.fresh]

/-- Every step keeps the wires in order. -/
theorem Wired.step (hw : Wired w) (hs : Step size w w') : Wired w' := by
  obtain ⟨hunused, hrelay, hclient, hattempt, hapart, hsign, hup⟩ := hw
  cases hs with
  | sendStream bytes share =>
    constructor <;> simp only [World.sendStream, World.withRing, writeOn_apply] <;> grind
  | bury => exact ⟨hunused, hrelay, hclient, hattempt, hapart, hsign, hup⟩
  | sendAck =>
    constructor <;> simp only [World.sendAck, writeOn_apply] <;> grind
  | @relayTakes j m rest hon hm =>
    cases m <;> constructor <;>
      simp only [World.relayTakes, World.popUp, World.withRing, writeOn_apply,
        Function.update_apply] <;> grind
  | @resumeSession j n rest hm hin =>
    constructor <;> simp only [World.resumeSession, World.popUp, World.withRing, writeOn_apply,
        Function.update_apply] <;> grind
  | @refuseSignIn j n rest hm =>
    constructor <;> simp only [World.refuseSignIn, World.popUp, Function.update_apply] <;> grind
  | relayDrops => constructor <;> grind
  | @clientTakes j m rest hon hm =>
    cases m <;> constructor <;>
      simp only [World.clientTakes, World.popDown, Function.update_apply] <;> grind
  | clientAcks =>
    constructor <;> simp only [World.clientSaysAck, writeOn_apply, Inbound.sayAcked] <;> grind
  | clientBeats =>
    constructor <;> simp only [World.clientSaysAck, writeOn_apply, Inbound.sayAcked] <;> grind
  | clientRecords f =>
    constructor <;> simp only [World.clientRecords, writeOn_apply] <;> grind
  | clientResends =>
    constructor <;> simp only [World.clientResends, writeOn_apply] <;> grind
  | clientDrops => constructor <;> grind
  | startAttempt =>
    constructor <;> simp only [World.startAttempt, writeOn_apply] <;> grind
  | abandons => constructor <;> grind
  | establishOn =>
    constructor <;> simp only [World.establishOn, World.popDown, Function.update_apply] <;> grind

/-- The ring holds what the device may still need, and every socket it reads follows its count. -/
structure Numbered (w : World β γ) : Prop where
  sound : w.ring.Sound
  sent : w.ring.sent = w.pushed.length
  kept_length : w.kept.length = w.pushed.length
  kept : w.kept.drop w.ring.acked = contents w.ring.entries
  pushed : ∀ (i : Nat) b, w.kept[i]? = some (some b) → w.pushed[i]? = some b
  counted : w.inbound.h = w.seen.length
  seen : Reads w.pushed w.kept 0 w.seen
  acked_le : w.ring.acked ≤ w.inbound.h
  h_le : w.inbound.h ≤ w.pushed.length
  reads : ∀ j, w.clientOn = some j ∨ w.attempt = some j →
    Reads w.pushed w.kept w.inbound.h (stream (w.down j)) ∧
      (w.relayOn = some j → w.inbound.h + (stream (w.down j)).length = w.pushed.length)
  carries : ∀ j m n, m ∈ w.up j → m.carries = some n → n ≤ w.inbound.h

namespace Numbered

theorem fresh : Numbered (.fresh : World β γ) := by
  refine ⟨Ring.sound_empty, rfl, rfl, rfl, ?_, rfl, reads_nil, le_rfl, le_rfl, ?_, ?_⟩
  · simp [World.fresh]
  · exact fun j _ => ⟨reads_nil, fun _ => rfl⟩
  · simp [World.fresh]

variable (hn : Numbered w)

include hn

theorem take_append_contents :
    w.kept.take w.ring.acked ++ contents w.ring.entries = w.kept := by
  rw [← hn.kept, List.take_append_drop]

theorem withRing_ack (h : Nat) :
    w.withRing (w.ring.ack h).1 = { w with ring := (w.ring.ack h).1 } := by
  have hkept : w.kept.take (w.ring.ack h).1.acked ++ contents (w.ring.ack h).1.entries =
      w.kept := by
    rcases Ring.ack_cases hn.sound h with hsame | ⟨hlo, -, hacked, hcont⟩
    · rw [hsame, hn.take_append_contents]
    · rw [hacked, hcont, ← hn.kept, List.drop_drop, Nat.add_sub_cancel' hlo, List.take_append_drop]
  rw [World.withRing, hkept]

theorem ack {h : Nat} (hle : h ≤ w.inbound.h) :
    Numbered { w with ring := (w.ring.ack h).1 } := by
  rcases Ring.ack_cases hn.sound h with hsame | ⟨hlo, -, hacked, hcont⟩
  · rwa [hsame]
  · refine { hn with
      sound := hn.sound.ack h
      sent := (Ring.ack_sent h).trans hn.sent
      kept := ?_
      acked_le := hacked.trans_le hle }
    simp only
    rw [hacked, hcont, ← hn.kept, List.drop_drop, Nat.add_sub_cancel' hlo]

theorem withRing {ring : Ring β} {more : List β}
    (hacked : ring.acked = w.ring.acked)
    (hmasks : Masks (contents w.ring.entries ++ more.map some) (contents ring.entries)) :
    Masks (w.kept ++ more.map some) (w.withRing ring).kept ∧
      (w.withRing ring).kept.drop ring.acked = contents ring.entries := by
  have hle : w.ring.acked ≤ w.kept.length := by
    have := hn.sound.length
    have := hn.sent
    have := hn.kept_length
    omega
  constructor
  · nth_rewrite 1 [← hn.take_append_contents]
    rw [List.append_assoc, World.withRing, hacked]
    exact List.rel_append (Masks.refl _) hmasks
  · rw [World.withRing, hacked, List.drop_append_of_le_length (by simp [hle])]
    simp

theorem of_masks {ring : Ring β} (more : List β) (hsound : ring.Sound)
    (hsent : ring.sent = w.ring.sent + more.length) (hacked : ring.acked = w.ring.acked)
    (hmasks : Masks (contents w.ring.entries ++ more.map some) (contents ring.entries))
    (down : Nat → List (Down β)) (hdown : ∀ j, stream (down j) =
      stream (w.down j) ++ if w.relayOn = some j then more.map some else []) :
    Numbered { w.withRing ring with pushed := w.pushed ++ more, down := down } := by
  obtain ⟨hkept, hdrop⟩ := hn.withRing hacked hmasks
  have hlength := hkept.length_eq
  have hnone : ∀ i : Nat, w.kept[i]? = some none → (w.withRing ring).kept[i]? = some none := by
    intro i hi
    refine Masks.none_of_none hkept ?_
    rwa [List.getElem?_append_left (List.getElem?_eq_some_iff.1 hi).1]
  have hmono : ∀ {start o}, Reads w.pushed w.kept start o →
      Reads (w.pushed ++ more) (w.withRing ring).kept start o :=
    fun h => h.mono (List.prefix_append _ _) hnone
  have hpushed : ∀ (i : Nat) b, (w.kept ++ more.map some)[i]? = some (some b) →
      (w.pushed ++ more)[i]? = some b := by
    intro i b hi
    rcases Nat.lt_or_ge i w.kept.length with hlt | hge
    · rw [List.getElem?_append_left hlt] at hi
      rw [List.getElem?_append_left (hn.kept_length ▸ hlt)]
      exact hn.pushed i b hi
    · rw [List.getElem?_append_right hge, List.getElem?_map] at hi
      rw [List.getElem?_append_right (hn.kept_length ▸ hge), ← hn.kept_length]
      simpa using hi
  refine ⟨hsound, ?_, ?_, hdrop, ?_, hn.counted, hmono hn.seen, hacked.trans_le hn.acked_le, ?_, ?_,
    hn.carries⟩
  · show ring.sent = (w.pushed ++ more).length
    rw [hsent, hn.sent, List.length_append]
  · show (w.withRing ring).kept.length = (w.pushed ++ more).length
    rw [← hlength, List.length_append, List.length_map, hn.kept_length, List.length_append]
  · exact fun i b hi => hpushed i b (Masks.some_of_some hkept hi)
  · exact hn.h_le.trans (by simp)
  · intro j hj
    obtain ⟨hreads, hend⟩ := hn.reads j hj
    simp only [hdown, World.withRing_inbound]
    split_ifs with hon
    · refine ⟨reads_append.2 ⟨hmono hreads, ?_⟩, fun _ => ?_⟩
      · -- the frames just pushed are read under the numbers after all others
        rw [hend hon]
        intro k x hk
        rw [List.getElem?_map, Option.map_eq_some_iff] at hk
        obtain ⟨b, hb, rfl⟩ := hk
        rw [Genuine, List.getElem?_append_right (Nat.le_add_right _ _), Nat.add_sub_cancel_left]
        exact hb
      · have := hend hon
        simp only [List.length_append, List.length_map]
        omega
    · rw [List.append_nil]
      exact ⟨hmono hreads, fun h => absurd h hon⟩

theorem sendStream (bytes : β) (share : Nat) :
    Numbered (w.sendStream size bytes share) := by
  obtain ⟨hsent, hacked, hsound, hmasks⟩ := Ring.ringPush_spec size hn.sound bytes share
  refine hn.of_masks [bytes] hsound hsent hacked hmasks _ fun j => ?_
  rw [writeOn_apply]
  split_ifs
  · simp
  · simp

theorem bury {i : Nat} {f : Frame β} (hi : w.ring.entries[i]? = some f)
    (hf : f.tombstone = false) : Numbered (w.bury i) := by
  have h := Ring.evicts_bury hn.sound hi hf
  have hn' := hn.of_masks [] h.sound h.sent h.acked (by simpa using h.masks) w.down (by simp)
  simpa [World.bury, World.withRing] using hn'

theorem writeOn {on : Option Nat} {m : Down β} (hm : stream [m] = []) :
    Numbered { w with down := writeOn w.down on [m] } := by
  refine { hn with reads := fun j hj => ?_ }
  have hstream : stream (Session.writeOn w.down on [m] j) = stream (w.down j) := by
    rw [writeOn_apply]
    split_ifs
    · rw [stream_append, hm, List.append_nil]
    · rfl
  simp only [hstream]
  exact hn.reads j hj

variable {j : Nat} {rest : List (Up γ)}

theorem popUp {m : Up γ} (hm : w.up j = m :: rest) :
    Numbered (w.popUp j rest) := by
  exact { hn with carries := fun k m' n hmem => hn.carries k m' n (mem_of_mem_update hm hmem) }

theorem carries_head {n : Nat} {m : Up γ} (hm : w.up j = m :: rest)
    (hcarries : m.carries = some n) : n ≤ w.inbound.h :=
  hn.carries j m n (hm ▸ List.mem_cons_self) hcarries

theorem relayTakes {m : Up γ} (hm : w.up j = m :: rest) :
    Numbered ((w.popUp j rest).relayTakes m) := by
  have hpop := hn.popUp hm
  cases m with
  | frame f => exact { hpop with }
  | ack h =>
    rw [World.relayTakes, hpop.withRing_ack]
    exact hpop.ack (hn.carries_head hm rfl)
  | hb h =>
    rw [World.relayTakes, hpop.withRing_ack]
    exact (hpop.ack (hn.carries_head hm rfl)).writeOn rfl
  | signIn h => exact hpop

theorem resumeSession (hw : Wired w) {n : Nat} (hm : w.up j = .signIn n :: rest)
    (hin : w.ring.canResumeFrom n) : Numbered ((w.popUp j rest).resumeSession j n) := by
  have hpop := hn.popUp hm
  have hack := hpop.ack (hn.carries_head hm rfl)
  obtain ⟨hup, hdown, -, hclient⟩ := hw.signIn j n (hm ▸ List.mem_cons_self)
  have hacked : (w.ring.ack n).1.acked = n := by
    rw [Ring.ack, if_pos hin]
  rw [World.resumeSession, hpop.withRing_ack]
  refine { hack with reads := fun k hk => ?_ }
  by_cases hjk : k = j
  · subst hjk
    have hattempt : w.attempt = some k := hk.resolve_left hclient
    have hnh : n = w.inbound.h := by
      rcases hw.attempt k hattempt with h | h
      · simpa [hm] using (hup.symm.trans h)
      · simp [hm] at h
    have hreplay : stream ((w.ring.ack n).1.replayAfter n) = w.kept.drop n := by
      have hstream := Ring.stream_replayAfter hack.sound
      have hkept := hack.kept
      simp only [World.popUp] at hstream hkept
      rw [hacked] at hstream hkept
      rw [hstream, ← hkept]
    have hdown' : stream (Session.writeOn w.down (some k)
        (.resumed w.inH :: (w.ring.ack n).1.replayAfter n) k) = w.kept.drop n := by
      rw [writeOn_apply, if_pos rfl, hdown, List.nil_append, ← hreplay]
      rfl
    refine ⟨?_, fun _ => ?_⟩
    · simp only [World.popUp, hdown']
      rw [hnh]
      exact reads_drop hn.pushed _
    · simp only [World.popUp, hdown']
      have := hn.h_le
      rw [List.length_drop, hn.kept_length, hnh]
      omega
  · have hdown' : Session.writeOn w.down (some j)
        (.resumed w.inH :: (w.ring.ack n).1.replayAfter n) k = w.down k := by
      rw [writeOn_apply, if_neg (by simpa using Ne.symm hjk)]
    simp only [World.popUp, hdown']
    exact ⟨(hn.reads k hk).1, fun h => absurd (Option.some.inj h).symm hjk⟩

theorem clientTakes {m : Down β} {rest : List (Down β)}
    (hon : w.clientOn = some j) (hm : w.down j = m :: rest) :
    Numbered ((w.popDown j rest).clientTakes m) := by
  obtain ⟨hreads, hend⟩ := hn.reads j (.inl hon)
  have hsplit : stream (w.down j) = stream [m] ++ stream rest := by
    rw [hm, ← stream_append, List.singleton_append]
  have hlen := m.length_stream
  rw [hsplit, reads_append, hlen] at hreads
  rw [hsplit, List.length_append, hlen] at hend
  have hh := w.inbound.received_h m.counts
  have hcore : Numbered { w.popDown j rest with
      attempt := none
      inbound := (w.inbound.received m.counts).1
      seen := w.seen ++ stream [m] } := by
    refine { hn with
      counted := ?_, seen := ?_, acked_le := ?_, h_le := ?_, reads := ?_, carries := ?_ }
    · simp only [hh, List.length_append, hlen, hn.counted]
    · refine reads_append.2 ⟨hn.seen, ?_⟩
      rw [Nat.zero_add, ← hn.counted]
      exact hreads.1
    · simp only [hh]
      exact hn.acked_le.trans (Nat.le_add_right _ _)
    · simp only [hh]
      have := hreads.1.length_le hn.kept_length hn.h_le
      rwa [hlen] at this
    · intro k hk
      obtain rfl : j = k := by simpa [World.popDown, hon] using hk
      simp only [World.popDown, Function.update_self, hh]
      exact ⟨hreads.2, fun h => by have := hend h; omega⟩
    · intro k m' n hmem hcarries
      simp only [hh]
      exact (hn.carries k m' n hmem hcarries).trans (Nat.le_add_right _ _)
  cases m with
  | data b => exact hcore
  | gap n => exact hcore
  | ack h => exact { hcore with }
  | hbAck h => exact { hcore with }
  | resumed h => exact hcore

theorem clientSaysAck {m : Nat → Up γ} (hm : ∀ n, (m n).carries = some n) :
    Numbered (w.clientSaysAck m) := by
  refine { hn with carries := fun k m' n hmem hcarries => ?_ }
  rcases mem_writeOn.1 hmem with hmem | ⟨-, hmem⟩
  · exact hn.carries k m' n hmem hcarries
  · obtain rfl := List.mem_singleton.1 hmem
    exact (Option.some.inj (hcarries.symm.trans (hm _))).le

theorem writeFrame {on : Option Nat} (f : γ) :
    ∀ j m n, m ∈ Session.writeOn w.up on [.frame f] j → m.carries = some n → n ≤ w.inbound.h := by
  intro j m n hmem hcarries
  rcases mem_writeOn.1 hmem with hmem | ⟨-, hmem⟩
  · exact hn.carries j m n hmem hcarries
  · obtain rfl := List.mem_singleton.1 hmem
    cases hcarries

theorem startAttempt (hw : Wired w) : Numbered w.startAttempt := by
  have hdown := (hw.unused w.next le_rfl).2
  refine { hn with reads := fun j hj => ?_, carries := fun j m n hmem hcarries => ?_ }
  · rcases hj with hj | hj
    · exact hn.reads j (.inl hj)
    · obtain rfl : w.next = j := Option.some.inj hj
      simp only [World.startAttempt, hdown, stream_nil]
      exact ⟨reads_nil, fun hon => absurd (hw.relayOn_lt _ hon) (lt_irrefl _)⟩
  · simp only [World.startAttempt] at hmem
    rcases mem_writeOn.1 hmem with hmem | ⟨-, hmem⟩
    · exact hn.carries j m n hmem hcarries
    · obtain rfl := List.mem_singleton.1 hmem
      exact (Option.some.inj hcarries).ge

theorem establishOn {h : Nat} {rest : List (Down β)} {out : Outbound γ}
    {resend : List γ} (hj : w.attempt = some j) (hdown : w.down j = .resumed h :: rest) :
    Numbered ((w.popDown j rest).establishOn j out resend) := by
  refine { hn with reads := fun k hk => ?_ }
  obtain rfl : j = k := by simpa [World.establishOn] using hk
  have hreads := hn.reads j (.inr hj)
  have hstream : stream (w.down j) = stream rest := by
    rw [hdown]
    rfl
  simpa [World.establishOn, World.popDown, hstream] using hreads

theorem step (hw : Wired w) (hs : Step size w w') : Numbered w' := by
  cases hs with
  | sendStream bytes share => exact hn.sendStream bytes share
  | bury hi hf => exact hn.bury hi hf
  | sendAck => exact hn.writeOn rfl
  | relayTakes _ hm => exact hn.relayTakes hm
  | resumeSession hm hin => exact hn.resumeSession hw hm hin
  | refuseSignIn hm => exact { hn.popUp hm with }
  | relayDrops => exact { hn with reads := fun j hj => ⟨(hn.reads j hj).1, by simp⟩ }
  | clientTakes hon hm => exact hn.clientTakes hon hm
  | clientAcks => exact hn.clientSaysAck fun _ => rfl
  | clientBeats => exact hn.clientSaysAck fun _ => rfl
  | clientRecords f => exact { hn with carries := hn.writeFrame f }
  | clientResends => exact { hn with carries := hn.writeFrame _ }
  | clientDrops => exact { hn with reads := fun j hj => hn.reads j (.inr (by simpa using hj)) }
  | startAttempt => exact hn.startAttempt hw
  | abandons => exact { hn with reads := fun j hj => hn.reads j (.inl (by simpa using hj)) }
  | establishOn hj hdown => exact hn.establishOn hj hdown

end Numbered

/-- The relay took a prefix of what the device recorded; the device keeps the rest. -/
structure Outgoing (w : World β γ) : Prop where
  inH_le : w.inH ≤ w.recorded.length
  handled : w.handled = w.recorded.take w.inH
  written : w.out.written = w.recorded.length
  acked_le : w.out.acked ≤ w.inH
  inflight : w.out.inflight = number w.out.acked (w.recorded.drop w.out.acked)
  carries : ∀ j m n, m ∈ w.down j → m.carries = some n → n ≤ w.inH
  onward : ∀ j, w.relayOn = some j → frames (w.up j) <+: w.recorded.drop w.inH
  attached : ∀ j, w.relayOn = some j → w.clientOn = some j →
    w.recorded.drop w.inH = frames (w.up j) ++ w.resend
  answered : ∀ j n, w.attempt = some j → .resumed n ∈ w.down j →
    w.out.acked ≤ n ∧ (w.relayOn = some j → n = w.inH)

namespace Outgoing

theorem fresh : Outgoing (.fresh : World β γ) := by
  constructor <;> simp [World.fresh, number, frames]

variable (ho : Outgoing w)

include ho

theorem ack {h : Nat} (hle : h ≤ w.inH) :
    (w.out.ack h).1.written = w.recorded.length ∧ (w.out.ack h).1.acked ≤ w.inH ∧
      (w.out.ack h).1.inflight =
        number (w.out.ack h).1.acked (w.recorded.drop (w.out.ack h).1.acked) := by
  unfold Outbound.ack
  split_ifs with hout
  · exact ⟨ho.written, ho.acked_le, ho.inflight⟩
  · simp only [Bool.or_eq_true, decide_eq_true_eq, not_or, not_lt] at hout
    refine ⟨ho.written, hle, ?_⟩
    rw [ho.inflight, number_dropWhile hout.1, List.drop_drop, Nat.add_sub_cancel' hout.1]

theorem resume {h : Nat} (hlo : w.out.acked ≤ h) (hhi : h ≤ w.inH) :
    w.out.resume h =
      some (⟨number h (w.recorded.drop h), w.recorded.length, h⟩, w.recorded.drop h) := by
  have hin : (decide (h < w.out.acked) || decide (w.out.written < h)) = false := by
    have := ho.written
    have := ho.inH_le
    simp
    omega
  have hdrop : w.out.inflight.dropWhile (·.seq ≤ h) = number h (w.recorded.drop h) := by
    rw [ho.inflight, number_dropWhile hlo, List.drop_drop, Nat.add_sub_cancel' hlo]
  rw [Outbound.resume, Outbound.ack, if_neg (by simp [hin]), hdrop, ho.written]
  simp [number_map_frame]

theorem writeDown {on : Option Nat} {m : Down β}
    (hle : ∀ n, m.carries = some n → n ≤ w.inH) (hm : ∀ n, m ≠ .resumed n) :
    Outgoing { w with down := writeOn w.down on [m] } := by
  refine { ho with carries := fun j m' n hmem hc => ?_, answered := fun j n hj hmem => ?_ }
  · rcases mem_writeOn.1 hmem with hmem | ⟨-, hmem⟩
    · exact ho.carries j m' n hmem hc
    · exact hle n (List.mem_singleton.1 hmem ▸ hc)
  · rcases mem_writeOn.1 hmem with hmem | ⟨-, hmem⟩
    · exact ho.answered j n hj hmem
    · exact absurd (List.mem_singleton.1 hmem).symm (hm n)

theorem of_up {up : Nat → List (Up γ)}
    (hup : ∀ j, w.relayOn = some j → frames (up j) = frames (w.up j)) :
    Outgoing { w with up := up } := by
  refine { ho with onward := fun j hj => ?_, attached := fun j hj hj' => ?_ }
  · exact (hup j hj).symm ▸ ho.onward j hj
  · exact (hup j hj).symm ▸ ho.attached j hj hj'

variable {j : Nat} {rest : List (Up γ)}

theorem popUp {m : Up γ} (hm : w.up j = m :: rest) (hframe : frames [m] = []) :
    Outgoing (w.popUp j rest) := by
  refine ho.of_up fun k _ => ?_
  rw [Function.update_apply]
  split_ifs with hk
  · rw [hk, hm, ← List.singleton_append, frames_append, hframe, List.nil_append]
  · rfl

theorem writeUp (on : Option Nat) {m : Up γ} (hframe : frames [m] = []) :
    Outgoing { w with up := writeOn w.up on [m] } := by
  refine ho.of_up fun k _ => ?_
  rw [writeOn_apply]
  split_ifs
  · rw [frames_append, hframe, List.append_nil]
  · rfl

theorem relayTakes_frame (hw : Wired w) {f : γ} (hon : w.relayOn = some j)
    (hm : w.up j = .frame f :: rest) : Outgoing ((w.popUp j rest).relayTakes (.frame f)) := by
  have hframes : frames (w.up j) = f :: frames rest := by
    rw [hm]
    rfl
  obtain ⟨tail, htail⟩ := ho.onward j hon
  rw [hframes, List.cons_append] at htail
  have hdrop : w.recorded.drop (w.inH + 1) = frames rest ++ tail := by
    rw [← List.drop_drop, ← htail, List.drop_succ_cons, List.drop_zero]
  have hlt : w.inH < w.recorded.length := by
    by_contra hge
    rw [List.drop_eq_nil_of_le (by omega)] at htail
    cases htail
  have hget : w.recorded[w.inH] = f := by
    have := List.drop_eq_getElem_cons hlt
    rw [← htail] at this
    exact (List.cons.inj this).1.symm
  refine { ho with
    inH_le := hlt
    handled := ?_
    acked_le := ho.acked_le.trans (Nat.le_succ _)
    carries := fun k m n hmem hc => (ho.carries k m n hmem hc).trans (Nat.le_succ _)
    onward := fun k hk => ?_
    attached := fun k hk hk' => ?_
    answered := fun k n hk hmem => ⟨(ho.answered k n hk hmem).1, fun hk' => ?_⟩ }
  · show w.handled ++ [f] = w.recorded.take (w.inH + 1)
    rw [ho.handled, List.take_succ_eq_append_getElem hlt, hget]
  · obtain rfl : j = k := Option.some.inj (hon.symm.trans hk)
    simp only [World.relayTakes, World.popUp, Function.update_self]
    exact ⟨tail, hdrop.symm⟩
  · obtain rfl : j = k := Option.some.inj (hon.symm.trans hk)
    have := ho.attached j hon hk'
    rw [← htail, hframes, List.cons_append] at this
    simp only [World.relayTakes, World.popUp, Function.update_self]
    rw [hdrop, (List.cons.inj this).2]
  · -- a socket the device still signs in on carries nothing of it
    obtain rfl : j = k := Option.some.inj (hon.symm.trans hk')
    rcases hw.attempt j hk with h | h <;> rw [hm] at h <;> cases h

theorem withRing (ring : Ring β) : Outgoing (w.withRing ring) := { ho with }

theorem relayTakes (hw : Wired w) {m : Up γ} (hon : w.relayOn = some j)
    (hm : w.up j = m :: rest) : Outgoing ((w.popUp j rest).relayTakes m) := by
  cases m with
  | frame f => exact ho.relayTakes_frame hw hon hm
  | ack h => exact (ho.popUp hm rfl).withRing _
  | hb h =>
    refine ((ho.popUp hm rfl).withRing _).writeDown (fun n hn => ?_) fun n => by simp
    exact (Option.some.inj hn).ge
  | signIn h => exact ho.popUp hm rfl

theorem resumeSession (hw : Wired w) {n : Nat} (hm : w.up j = .signIn n :: rest) :
    Outgoing ((w.popUp j rest).resumeSession j n) := by
  obtain ⟨hup, hdown, -, hclient⟩ := hw.signIn j n (hm ▸ List.mem_cons_self)
  have hrest : rest = [] := (List.cons.inj (hm.symm.trans hup)).2
  have hwritten : ∀ k m, m ∈ writeOn w.down (some j)
      (.resumed w.inH :: (w.ring.ack n).1.replayAfter n) k →
      m ∈ w.down k ∨ (k = j ∧ (m = .resumed w.inH ∨ m.carries = none)) := by
    intro k m hmem
    refine (mem_writeOn.1 hmem).imp_right fun ⟨hk, hmem⟩ => ⟨(Option.some.inj hk).symm, ?_⟩
    exact (List.mem_cons.1 hmem).imp_right (Ring.carries_replayAfter _ _)
  refine { ho with
    carries := fun k m x hmem hc => ?_
    onward := fun k hk => ?_
    attached := fun k hk hk' => ?_
    answered := fun k x hk hmem => ?_ }
  · rcases hwritten k m hmem with hmem | ⟨-, rfl | hnone⟩
    · exact ho.carries k m x hmem hc
    · exact (Option.some.inj hc).ge
    · rw [hnone] at hc
      cases hc
  · obtain rfl : j = k := Option.some.inj hk
    simp only [World.resumeSession, World.withRing, World.popUp, Function.update_self, hrest,
      frames_nil]
    exact List.nil_prefix
  · obtain rfl : j = k := Option.some.inj hk
    exact absurd hk' hclient
  · rcases hwritten k _ hmem with hmem | ⟨rfl, heq | hnone⟩
    · refine ⟨(ho.answered k x hk hmem).1, fun hk' => ?_⟩
      obtain rfl : j = k := Option.some.inj hk'
      rw [hdown] at hmem
      cases hmem
    · obtain rfl : x = w.inH := by simpa using heq
      exact ⟨ho.acked_le, fun _ => rfl⟩
    · cases hnone

theorem clientTakes {m : Down β} {rest : List (Down β)}
    (hm : w.down j = m :: rest) : Outgoing ((w.popDown j rest).clientTakes m) := by
  have hle : ∀ n, m.carries = some n → n ≤ w.inH :=
    fun n => ho.carries j m n (hm ▸ List.mem_cons_self)
  have hcarries : ∀ k m' n, m' ∈ Function.update w.down j rest k → m'.carries = some n →
      n ≤ w.inH := fun k m' n hmem => ho.carries k m' n (mem_of_mem_update hm hmem)
  cases m with
  | data | gap | resumed =>
    exact { ho with carries := hcarries, answered := by simp [World.clientTakes] }
  | ack n | hbAck n =>
    obtain ⟨hwritten, hacked, hinflight⟩ := ho.ack (hle n rfl)
    exact { ho with
      written := hwritten, acked_le := hacked, inflight := hinflight, carries := hcarries
      answered := by simp [World.clientTakes] }

theorem clientRecords {f : γ} (hattempt : w.attempt = none)
    (hresend : w.resend = []) : Outgoing (w.clientRecords f) := by
  have hle := ho.inH_le
  have hacked := ho.acked_le
  have hdrop : (w.recorded ++ [f]).drop w.inH = w.recorded.drop w.inH ++ [f] :=
    List.drop_append_of_le_length hle
  refine { ho with
    inH_le := ?_, handled := ?_, written := ?_, inflight := ?_, onward := fun j hj => ?_
    attached := fun j hj hj' => ?_, answered := by simp [World.clientRecords, hattempt] }
  · simp only [World.clientRecords, List.length_append]
    omega
  · simp only [World.clientRecords, ho.handled]
    rw [List.take_append_of_le_length hle]
  · simp [World.clientRecords, Outbound.record, ho.written]
  · simp only [World.clientRecords, Outbound.record, ho.inflight, ho.written]
    rw [List.drop_append_of_le_length (by omega), number_append, List.length_drop]
    simp only [number]
    congr 3
    omega
  · simp only [World.clientRecords, writeOn_apply]
    rw [hdrop]
    split_ifs with hj'
    · rw [ho.attached j hj hj', hresend, List.append_nil, frames_append]
      exact List.prefix_rfl
    · exact (ho.onward j hj).trans (List.prefix_append _ _)
  · simp only [World.clientRecords, writeOn_apply] at hj' ⊢
    rw [hdrop, if_pos hj', ho.attached j hj hj', hresend]
    simp [frames]

theorem clientResends {f : γ} {rest : List γ} (hresend : w.resend = f :: rest) :
    Outgoing (w.clientResends f rest) := by
  have hframe : ∀ xs : List (Up γ), frames (xs ++ [.frame f]) = frames xs ++ [f] := by
    simp [frames]
  refine { ho with onward := fun j hj => ?_, attached := fun j hj hj' => ?_ }
  · simp only [World.clientResends, writeOn_apply]
    split_ifs with hj'
    · rw [ho.attached j hj hj', hresend, hframe]
      exact ⟨rest, by simp⟩
    · exact ho.onward j hj
  · simp only [World.clientResends, writeOn_apply] at hj' ⊢
    rw [if_pos hj', ho.attached j hj hj', hresend, hframe]
    simp

theorem startAttempt (hw : Wired w) : Outgoing w.startAttempt := by
  have hup := ho.writeUp (some w.next) (m := .signIn w.inbound.h) rfl
  refine { hup with answered := fun j n hj hmem => ?_ }
  obtain rfl : w.next = j := Option.some.inj hj
  simp only [World.startAttempt, (hw.unused w.next le_rfl).2] at hmem
  cases hmem

theorem establishOn (hw : Wired w) {h : Nat} {rest : List (Down β)}
    {out : Outbound γ} {resend : List γ} (hj : w.attempt = some j)
    (hdown : w.down j = .resumed h :: rest) (hout : w.out.resume h = some (out, resend)) :
    Outgoing ((w.popDown j rest).establishOn j out resend) := by
  have hmem : .resumed h ∈ w.down j := hdown ▸ List.mem_cons_self
  have hle : h ≤ w.inH := ho.carries j _ h hmem rfl
  obtain ⟨hacked, hsame⟩ := ho.answered j h hj hmem
  rw [ho.resume hacked hle] at hout
  obtain ⟨rfl, rfl⟩ : _ = out ∧ _ = resend := by simpa using hout
  refine { ho with
    written := rfl, acked_le := hle, inflight := rfl
    carries := fun k m n hmem => ho.carries k m n (mem_of_mem_update hdown hmem)
    attached := fun k hk hk' => ?_, answered := by simp [World.establishOn] }
  obtain rfl : j = k := Option.some.inj hk'
  have hup : w.up j = [] := by
    refine (hw.attempt j hj).resolve_left fun hsign => ?_
    have := (hw.signIn j _ (hsign ▸ List.mem_singleton_self _)).2.1
    rw [hdown] at this
    cases this
  simp only [World.establishOn, World.popDown, hup, frames_nil, List.nil_append]
  rw [hsame hk]

theorem step (hw : Wired w) (hs : Step size w w') : Outgoing w' := by
  cases hs with
  | sendStream bytes share =>
    exact { (ho.withRing _).writeDown (m := .data bytes) (by simp [Down.carries]) (by simp) with }
  | bury => exact ho.withRing _
  | sendAck => exact ho.writeDown (fun n hn => (Option.some.inj hn).ge) (by simp)
  | relayTakes hon hm => exact ho.relayTakes hw hon hm
  | resumeSession hm => exact ho.resumeSession hw hm
  | refuseSignIn hm => exact { ho.popUp hm rfl with }
  | relayDrops =>
    exact { ho with
      onward := by simp, attached := by simp
      answered := fun j n hj hmem => ⟨(ho.answered j n hj hmem).1, by simp⟩ }
  | clientTakes _ hm => exact ho.clientTakes hm
  | clientAcks => exact { ho.writeUp _ rfl with }
  | clientBeats => exact { ho.writeUp _ rfl with }
  | clientRecords f _ hattempt hresend => exact ho.clientRecords hattempt hresend
  | clientResends _ _ hresend => exact ho.clientResends hresend
  | clientDrops => exact { ho with attached := by simp }
  | startAttempt => exact ho.startAttempt hw
  | abandons => exact { ho with answered := by simp }
  | establishOn hj hdown hout => exact ho.establishOn hw hj hdown hout

end Outgoing

/-- The three parts of the invariant hold in every world a run reaches. -/
theorem run_invariant (h : Run size w) : Wired w ∧ Numbered w ∧ Outgoing w := by
  induction h with
  | fresh => exact ⟨wired_fresh, .fresh, .fresh⟩
  | step _ _ hs ih =>
    obtain ⟨hw, hn, ho⟩ := ih
    exact ⟨hw.step hs, hn.step hw hs, ho.step hw hs⟩

/-- Each side counts what the other numbered, once and in order, and can resume from its count. -/
structure ExactlyOnce (w : World β γ) : Prop where
  sent : w.ring.sent = w.pushed.length
  counted : w.inbound.h = w.seen.length
  inOrder : ∀ (i : Nat) x, w.seen[i]? = some x → Genuine w.pushed w.kept i x
  /-- The sign-in the device waits on presents its count. -/
  presents : ∀ j n, w.attempt = some j → .signIn n ∈ w.up j → n = w.inbound.h
  resumes : w.ring.canResumeFrom w.inbound.h
  /-- The relay refuses only a sign-in the device gave up and has acked past since. -/
  refused : ∀ j n, .signIn n ∈ w.up j → w.ring.canResumeFrom n = false →
    w.attempt ≠ some j ∧ n < w.ring.acked
  taken : w.inH ≤ w.recorded.length
  handled : w.handled = w.recorded.take w.inH
  recovers : ∀ j n rest, w.attempt = some j → w.down j = .resumed n :: rest →
    (w.out.resume n).isSome

theorem exactlyOnce_of_run (h : Run size w) : ExactlyOnce w := by
  obtain ⟨hw, hn, ho⟩ := run_invariant h
  have hpresents : ∀ j n, w.attempt = some j → .signIn n ∈ w.up j → n = w.inbound.h := by
    intro j n hj hmem
    rcases hw.attempt j hj with hup | hup <;> rw [hup] at hmem
    · simpa using hmem
    · cases hmem
  have hresumes : w.ring.canResumeFrom w.inbound.h :=
    Ring.canResumeFrom_iff.2 ⟨hn.acked_le, hn.h_le.trans hn.sent.ge⟩
  refine ⟨hn.sent, hn.counted, fun i x hi => ?_, hpresents, hresumes, fun j n hmem hno => ⟨?_, ?_⟩,
    ho.inH_le, ho.handled, fun j n rest hj hdown => ?_⟩
  · simpa using hn.seen i x hi
  · intro hj
    rw [hpresents j n hj hmem, hresumes] at hno
    cases hno
  · -- a count on its way is one the device had, so it is never above what was sent
    have hle := hn.carries j _ n hmem rfl
    have hout : ¬ (w.ring.acked ≤ n ∧ n ≤ w.ring.sent) := by
      rw [← Ring.canResumeFrom_iff, hno]
      exact Bool.false_ne_true
    have hsent := hn.sent
    have hh := hn.h_le
    omega
  · have hmem : .resumed n ∈ w.down j := hdown ▸ List.mem_cons_self
    rw [ho.resume (ho.answered j n hj hmem).1 (ho.carries j _ n hmem rfl)]
    rfl

theorem ended_step (hs : Step size w w') (hlive : w.ended = false) (hended : w'.ended = true) :
    ∃ j n rest, w.up j = .signIn n :: rest ∧ w.ring.canResumeFrom n = false := by
  cases hs with
  | @refuseSignIn j n rest hm hno => exact ⟨j, n, rest, hm, hno⟩
  | @relayTakes j m | @clientTakes j m =>
    cases m <;> exact absurd (hended.symm.trans hlive) Bool.true_eq_false.mp
  | _ => exact absurd (hended.symm.trans hlive) Bool.true_eq_false.mp

/-- In every world a session reaches, each side has counted what the other numbered, once and in
order, and the sign-in the device waits on would resume it; the session ends only by one the device
gave up, whose count it has acked past since. -/
theorem session_exactly_once (size : β → Nat) {w : World β γ} (h : Run size w) :
    ExactlyOnce w ∧ ∀ w', Step size w w' → w.ended = false → w'.ended = true →
      ∃ j n, .signIn n ∈ w.up j ∧ w.attempt ≠ some j ∧ n < w.ring.acked := by
  have honce := exactlyOnce_of_run h
  refine ⟨honce, fun w' hs hlive hended => ?_⟩
  obtain ⟨j, n, rest, hup, hno⟩ := ended_step hs hlive hended
  have hmem : .signIn n ∈ w.up j := hup ▸ List.mem_cons_self
  exact ⟨j, n, hmem, honce.refused j n hmem hno⟩

/-- Two frames pushed, the first read and acked, and the session moved to another socket. -/
theorem session_exactly_once_resumed : ∃ w : World Nat Nat,
    (w.attempt = some 1 ∧ w.down 1 = [.resumed 1, .data 8] ∧ w.inbound.h = 1) ∧ ExactlyOnce w := by
  have hread : Run (fun _ => 1) _ := Run.step (.step .fresh rfl (.sendStream 7 0)) rfl
    (@Step.clientTakes Nat Nat _ _ 0 (.data 7) [] rfl rfl)
  have hacked := (hread.step rfl (@Step.clientAcks _ _ _ _ 0 rfl)).step rfl
    (@Step.relayTakes _ _ _ _ 0 (.ack 1) [] rfl rfl)
  have htaken := (hacked.step rfl (@Step.clientRecords _ _ _ _ 0 5 rfl rfl rfl)).step rfl
    (@Step.relayTakes _ _ _ _ 0 (.frame 5) [] rfl rfl)
  have hsigned := (htaken.step rfl (.sendStream 8 0)).step rfl (.startAttempt rfl)
  have hresumed := hsigned.step rfl (@Step.resumeSession _ _ _ _ 1 1 [] rfl rfl)
  exact ⟨_, ⟨rfl, rfl, rfl⟩, (session_exactly_once (fun _ => 1) hresumed).1⟩

/-- The device signs in beside its socket, gives that up when the socket answers, and acks the
answer. The sign-in then reaches a relay that serves the session on the old socket: its count is
refused, and the session has ended. -/
theorem not_session_exactly_once : ∃ w w' : World Nat Nat, Run (fun _ => 1) w ∧
    w.relayOn = some 0 ∧ w.clientOn = some 0 ∧ w.up 1 = [.signIn 0] ∧
    w.ring.canResumeFrom 0 = false ∧ Step (fun _ => 1) w w' ∧ w'.ended = true := by
  have hsigned : Run (fun _ => 1) (World.fresh : World Nat Nat).startAttempt :=
    Run.fresh.step rfl (.startAttempt rfl)
  have hread := (hsigned.step rfl (.sendStream 7 0)).step rfl
    (@Step.clientTakes Nat Nat _ _ 0 (.data 7) [] rfl rfl)
  have hacked := (hread.step rfl (@Step.clientAcks _ _ _ _ 0 rfl)).step rfl
    (@Step.relayTakes _ _ _ _ 0 (.ack 1) [] rfl rfl)
  exact ⟨_, _, hacked, rfl, rfl, rfl, rfl, @Step.refuseSignIn _ _ _ _ 1 0 [] rfl rfl, rfl⟩

theorem overCaps_step (hs : Step size w w') (h : w.ring.overCaps size = false) :
    w'.ring.overCaps size = false := by
  have hack : ∀ n, (w.ring.ack n).1.overCaps size = false := fun n =>
    Ring.overCaps_of_sublist size (Ring.realFrames_ack n) h
  cases hs with
  | sendStream bytes share => exact Ring.overCaps_ringPush size h bytes share
  | bury hi hf =>
    obtain ⟨before, after, hreal, hburied⟩ := Ring.realFrames_bury hi hf
    refine Ring.overCaps_of_sublist size ?_ h
    rw [hreal]
    exact hburied ▸ (List.sublist_cons_self _ after).append_left before
  | @relayTakes j m => cases m <;> first | exact h | exact hack _
  | resumeSession => exact hack _
  | @clientTakes j m => cases m <;> exact h
  | _ => exact h

/-- However a session goes, its ring holds no more bytes and frames than its caps. -/
theorem ring_within_caps (size : β → Nat) {w : World β γ} (h : Run size w) :
    w.ring.bytes size ≤ ringMaxBytes ∧ w.ring.realFrames.length ≤ ringMaxFrames := by
  have hcaps : w.ring.overCaps size = false := by
    induction h with
    | fresh => rfl
    | step _ _ hs ih => exact overCaps_step hs ih
  simpa [Ring.overCaps] using hcaps

theorem ring_within_caps_two : ∃ w : World Nat Nat, w.ring.realFrames.length = 2 ∧
    w.ring.bytes id ≤ ringMaxBytes ∧ w.ring.realFrames.length ≤ ringMaxFrames :=
  ⟨_, rfl, ring_within_caps id ((Run.fresh.step rfl (.sendStream 7 0)).step rfl (.sendStream 8 0))⟩

end Hollow.Session
