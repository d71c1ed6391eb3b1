import Hollow.Crdt.Seats

/-! Asks to join. The record of a member keeps the time of the ask that opened each span, through
removals, bans and new admissions, so an ask that once opened a span never opens another. An ask
that a second admission of a present member carries is not kept. -/

namespace Hollow.Crdt

open Materialized

theorem map_modifyLast {α β : Type} {f : α → α} {g : α → β} (h : ∀ a, g (f a) = g a) (l : List α) :
    (modifyLast f l).map g = l.map g := by
  induction l with
  | nil => rfl
  | cons a l ih =>
    cases l with
    | nil => simp [modifyLast, h]
    | cons b l => simp only [modifyLast, List.map_cons, ih]

namespace Materialized

variable {m : Materialized} {p : String}

def askTimes (m : Materialized) (p : String) : List Int :=
  (m.memberRecord.getD p []).map (·.askedAt)

/-- An ask made at `at_` is spent: one made then or later opened a span. -/
def Spent (m : Materialized) (p : String) (at_ : Int) : Prop := ∃ asked ∈ m.askTimes p, at_ ≤ asked

theorem Spent.mono {m' : Materialized} {at_ : Int} (h : m.Spent p at_)
    (hsub : m.askTimes p <+: m'.askTimes p) : m'.Spent p at_ := by
  obtain ⟨asked, hmem, hle⟩ := h
  exact ⟨asked, hsub.subset hmem, hle⟩

theorem askTimes_modify {m' : Materialized} {q : String} {f : MemberSpan → MemberSpan}
    (h : m'.memberRecord = m.memberRecord.modify q (modifyLast f))
    (hf : ∀ span, (f span).askedAt = span.askedAt) : m'.askTimes p = m.askTimes p := by
  simp only [askTimes, h, Std.ExtTreeMap.getD_eq_getD_getElem?, Map.getElem?_modify]
  split
  · rename_i hq
    subst hq
    cases m.memberRecord[q]? with
    | none => rfl
    | some spans => exact map_modifyLast hf spans
  · rfl

theorem askTimes_openSpan {q : String} {stamp : HlcTimestamp} {askedAt : Int}
    {admitter : Option String} :
    m.askTimes p <+: (m.openSpan q stamp askedAt admitter).askTimes p := by
  have hnote : ∀ (author : String) (spans : List MemberSpan),
      (modifyLast (noteAdmitter · author stamp) spans).map (·.askedAt) = spans.map (·.askedAt) :=
    fun author => map_modifyLast fun span => rfl
  simp only [askTimes, openSpan, Std.ExtTreeMap.getD_eq_getD_getElem?, Map.getElem?_insert]
  split
  · rename_i hq
    subst hq
    cases admitter <;> simp only [Option.getD_some, hnote] <;> split <;> simp
  · exact List.prefix_refl _

theorem askTimes_closeSpan {q : String} {atMs : Nat} :
    (m.closeSpan q atMs).askTimes p = m.askTimes p := by
  refine askTimes_modify rfl fun span => ?_
  split <;> rfl

theorem clampFutureHlcs_memberRecord {nowMs : Nat} :
    (m.clampFutureHlcs nowMs).memberRecord = m.memberRecord := by
  rw [clampFutureHlcs]

theorem retainWellFormedChannels_memberRecord :
    m.retainWellFormedChannels.memberRecord = m.memberRecord := by
  rw [retainWellFormedChannels]

theorem clampFutureHlcs_members {nowMs : Nat} : (m.clampFutureHlcs nowMs).members = m.members := by
  rw [clampFutureHlcs]

theorem retainWellFormedChannels_members : m.retainWellFormedChannels.members = m.members := by
  rw [retainWellFormedChannels]

end Materialized

namespace Snapshot

variable {w : World} {s : Snapshot} {op : CrdtOp} {p : String}

-- Compared by `rfl`, the two sides are unfolded field by field.
theorem rebaseOn_memberRecord {base : Snapshot} {owner : String} {covers : HlcTimestamp} :
    (s.rebaseOn base owner covers).memberRecord = base.memberRecord := by
  rw [rebaseOn, clampFutureHlcs_memberRecord,
    retainWellFormedChannels_memberRecord]

theorem askTimes_applyTo : s.askTimes p <+: (s.applyTo w op).askTimes p := by
  have hsame : ∀ {m : Materialized}, m.memberRecord = s.memberRecord →
      s.askTimes p <+: m.askTimes p := fun h => by
    rw [askTimes, askTimes, h]
  have hstep : s.Reseats op (s.applyTo w op) := reseats_applyTo
  cases hstep with
  | quiet _ _ hrecord => exact hsame hrecord
  | delete _ _ _ _ hrecord => exact hsame hrecord
  | rank _ _ _ _ _ _ hrecord => exact hsame hrecord
  | seat peerId _ _ ask _ _ _ hrecord =>
    split at hrecord
    · rw [askTimes, askTimes, hrecord]
      exact askTimes_openSpan
    · rw [askTimes_modify hrecord fun span => by split <;> rfl]
  | unseat peerId _ _ _ hrecord =>
    have hclose : (s.closeSpan peerId op.hlc.physicalMs).askTimes p = s.askTimes p :=
      askTimes_closeSpan
    have hunseat : (s.applyTo w op).askTimes p =
        (s.closeSpan peerId op.hlc.physicalMs).askTimes p := by
      rw [askTimes, askTimes, hrecord]
    rw [hunseat, hclose]

def KeepsSpent (w : World) (p : String) (at_ : Int) (op : CrdtOp) : Prop :=
  ∀ state covers base, op.payload = .serverCheckpoint state covers →
    w.parseState state = some base → base.Spent p at_

theorem spent_applyPayload {at_ : Int} (h : s.Spent p at_) (hkeeps : KeepsSpent w p at_ op) :
    (s.applyPayload w op).Spent p at_ := by
  rcases applyPayload_cases w s op with hs | ⟨name, owner, nonce, -, -, hs⟩ |
    ⟨state, covers, base, hp, hparse, hs⟩ | ⟨-, -, hs⟩ <;> rw [hs]
  · exact h
  · have hseed : (s.seedFounder name owner op.hlc).askTimes p =
        (s.openSpan owner op.hlc 0 none).askTimes p := rfl
    refine h.mono ?_
    rw [hseed]
    exact askTimes_openSpan
  · obtain ⟨asked, hmem, hle⟩ := hkeeps state covers base hp hparse
    rw [askTimes, ← rebaseOn_memberRecord] at hmem
    exact ⟨asked, hmem, hle⟩
  · exact h.mono askTimes_applyTo

theorem spent_run {at_ : Int} {l : List CrdtOp} (h : s.Spent p at_)
    (hkeeps : ∀ op ∈ l, KeepsSpent w p at_ op) : ((rules w).run s l).Spent p at_ :=
  JudgedFold.run_induction (P := fun t : Snapshot => t.Spent p at_) h
    fun _ op hop ht _ => spent_applyPayload ht (hkeeps op hop)

section Admission

variable {displayName : String} {follow : Option String} {ask : JoinAsk}
  (hp : op.payload = .memberAdded p displayName follow (some ask))
include hp

/-- Admitting `p` on an ask spends that ask and every older one. -/
theorem spent_of_admission (hnew : s.members.contains p = false)
    (hclosed : (s.memberRecord.getD p []).getLast?.all (fun span => !span.isOpen)) :
    (s.applyPayload w op).Spent p ask.requestedAt := by
  have hnote : ∀ spans : List MemberSpan,
      (modifyLast (noteAdmitter · op.author op.hlc) spans).map (·.askedAt) =
        spans.map (·.askedAt) := map_modifyLast fun span => rfl
  rw [Std.ExtTreeMap.getD_eq_getD_getElem?] at hclosed
  rw [applyPayload_of_not_anchor (by simp [CrdtOp.isCheckpoint, hp])
    (by simp [CrdtOp.isFounding, hp])]
  refine ⟨ask.requestedAt, ?_, le_rfl⟩
  simp only [askTimes, applyTo, hp, admitMember, hnew, Bool.not_false, if_true,
    openSpan, hclosed, Option.map_some, Option.getD_some,
    Std.ExtTreeMap.getD_eq_getD_getElem?, Map.getElem?_insert, hnote]
  simp

/-- A spent ask admits nobody once the member is gone. -/
theorem refused_of_spent {at_ : Int} (hspent : s.Spent p at_) (hle : ask.requestedAt ≤ at_)
    (hgone : s.isMember w p = false) : s.opAllowed w op = false := by
  obtain ⟨asked, hmem, hasked⟩ := hspent
  obtain ⟨span, hspan, rfl⟩ := List.mem_map.1 hmem
  have hrecord : ((s.memberRecord.getD p []).any
      fun span => decide (ask.requestedAt ≤ span.askedAt)) = true :=
    List.any_eq_true.2 ⟨span, hspan, by simpa using hle.trans hasked⟩
  rw [opAllowed_of_not_anchor (by simp [CrdtOp.isCheckpoint, hp])
    (by simp [CrdtOp.isFounding, hp])]
  cases s.authorRole op.author with
  | none => rfl
  | some role =>
    simp only [Option.any_some, allowedAs, hp, admissionAllowed, Option.filter_some]
    by_cases hverifies : ask.verifies w.toCrypto s.serverId p
    · simp [hverifies, hgone, hrecord]
    · simp [hverifies]

end Admission

/-- An ask that made `p` a member, from no open span, admits `p` once: from then on, as long as the
checkpoints keep it in the record, no ask as old admits `p` while `p` is not a member. -/
theorem ask_admits_once {add add' : CrdtOp} {displayName displayName' : String}
    {follow follow' : Option String} {ask ask' : JoinAsk} {mid : List CrdtOp}
    (hadd : add.payload = .memberAdded p displayName follow (some ask))
    (hallowed : s.opAllowed w add) (hnew : s.members.contains p = false)
    (hclosed : (s.memberRecord.getD p []).getLast?.all (fun span => !span.isOpen))
    (hkeeps : ∀ op ∈ mid, KeepsSpent w p ask.requestedAt op)
    (hadd' : add'.payload = .memberAdded p displayName' follow' (some ask'))
    (hle : ask'.requestedAt ≤ ask.requestedAt)
    (hgone : ((rules w).run s (add :: mid)).isMember w p = false) :
    ((rules w).run s (add :: mid)).opAllowed w add' = false := by
  refine refused_of_spent hadd' ?_ hle hgone
  rw [JudgedFold.run_cons, JudgedFold.step_of_allowed (m := rules w) hallowed]
  exact spent_run (spent_of_admission hadd hnew hclosed) hkeeps

end Snapshot

def sampleAdd (ms : Nat) (at_ : Int) : CrdtOp :=
  sampleOp "o" ms (.memberAdded "p" "p" none (some ⟨at_, "", "p"⟩))

def foundedSample : Snapshot :=
  (rules (sampleWorld fun _ => none)).run (Snapshot.skeleton sampleId)
    [sampleOp "o" 1 (.serverCreated "n" "o" "n")]

/-- A removed member does not come back on the ask that admitted them. -/
theorem ask_admits_once_kicked :
    ((rules (sampleWorld fun _ => none)).run foundedSample
      [sampleAdd 2 5, sampleOp "o" 3 (.memberRemoved "p")]).opAllowed (sampleWorld fun _ => none)
        (sampleAdd 4 5) = false :=
  Snapshot.ask_admits_once (p := "p") rfl (by decide +kernel) (by decide +kernel)
    (by decide +kernel) (fun op hop _ _ _ _ hparse => by cases hparse) rfl le_rfl
    (by decide +kernel)

/-- Two asks of "p" admit it, the second while it is a member; after a removal the second does
again. -/
theorem not_ask_admits_once_second : ¬ ∀ (w : World) (r : Snapshot) (l₁ l₂ l₃ : List CrdtOp)
    (add rm add' : CrdtOp) (p d d' : String) (f f' : Option String) (ask ask' : JoinAsk),
    r.IsReset → isGenesisId r.serverId →
    add.payload = .memberAdded p d f (some ask) → ((rules w).run r l₁).opAllowed w add →
    rm.payload = .memberRemoved p → ((rules w).run r (l₁ ++ add :: l₂)).opAllowed w rm →
    add'.payload = .memberAdded p d' f' (some ask') → ask'.requestedAt ≤ ask.requestedAt →
    ((rules w).run r (l₁ ++ add :: l₂ ++ rm :: l₃)).opAllowed w add' = false := by
  intro h
  have hrefused := h (sampleWorld fun _ => none) (.skeleton sampleId)
    [sampleOp "o" 1 (.serverCreated "n" "o" "n"), sampleAdd 2 5] [] [] (sampleAdd 3 10)
    (sampleOp "o" 4 (.memberRemoved "p")) (sampleAdd 5 10) "p" "p" "p" none none ⟨10, "", "p"⟩
    ⟨10, "", "p"⟩ Snapshot.isReset_skeleton (by decide +kernel) rfl (by decide +kernel) rfl
    (by decide +kernel) rfl le_rfl
  revert hrefused
  decide +kernel

end Hollow.Crdt
