import Mathlib
import Hollow.Relay.SendExact

/-! A fan-out the budget admits stays under it: the delivery walks the recipients the prediction
walked, and what the counted ones have not been written yet stays reserved for them. -/

namespace Hollow.Relay.SendBudget

variable {κ π : Type} [LinearOrder κ] {reaches : π → Option (String × Nat)}

structure SameCounts (r r' : Recipients) : Prop where
  blockMax : r.blockMax = r'.blockMax
  shareMax : r.shareMax = r'.shareMax
  blocks : r.blocks = r'.blocks
  shares : r.shares = r'.shares

theorem SameCounts.take {r r' : Recipients} (h : SameCounts r r') (block : String)
    (share bytes bytes' : Nat) :
    (r.take block share bytes).1 = (r'.take block share bytes').1 ∧
      SameCounts (r.take block share bytes).2 (r'.take block share bytes').2 := by
  rw [Recipients.take, Recipients.take, h.blockMax, h.shareMax, h.blocks, h.shares]
  split_ifs
  · exact ⟨rfl, h⟩
  · exact ⟨rfl, rfl, rfl, rfl, rfl⟩

theorem reserved_take {r : Recipients} {block : String} {share bytes : Nat} :
    (r.take block share bytes).2.reserved =
      if (r.take block share bytes).1 then r.reserved - min r.reserved bytes else r.reserved := by
  rw [Recipients.take]
  split_ifs <;> first | rfl | contradiction

def copiesOf (reaches : π → Option (String × Nat)) : Recipients → List π → Nat
  | _, [] => 0
  | r, p :: peers =>
    match reaches p with
    | none => copiesOf reaches r peers
    | some (block, share) =>
      (if (r.take block share 0).1 then 1 else 0) +
        copiesOf reaches (r.take block share 0).2 peers

theorem foldl_countPeer (peers : List π) (r : Recipients) (n : Nat) :
    (peers.foldl (countPeer reaches) (r, n)).2 = n + copiesOf reaches r peers := by
  induction peers generalizing r n with
  | nil => rfl
  | cons p peers ih =>
    rw [List.foldl_cons, copiesOf]
    cases hp : reaches p with
    | none =>
      simp only [countPeer, hp]
      exact ih r n
    | some to_ =>
      simp only [countPeer, hp]
      rw [ih]
      split_ifs <;> omega

theorem predict_eq (peers : List π) (perCopy : Nat) (l : Limits) :
    predict peers perCopy l reaches =
      copiesOf reaches (Recipients.start l 0) peers * (perCopy + frameHeaderBytes) := by
  rw [predict, foldl_countPeer, Nat.zero_add, heldBytes]

theorem SameCounts.copiesOf_eq {r r' : Recipients} (h : SameCounts r r') (peers : List π) :
    copiesOf reaches r peers = copiesOf reaches r' peers := by
  induction peers generalizing r r' with
  | nil => rfl
  | cons p peers ih =>
    rw [copiesOf, copiesOf]
    cases reaches p with
    | none => exact ih h
    | some to_ =>
      obtain ⟨hcounted, hrest⟩ := h.take to_.1 to_.2 0 0
      simp only [hcounted, ih hrest]

namespace Ledger

variable {l : Ledger κ}

theorem doomLoop_keeps (k : κ) (bytes : Nat) (ranks : List (Rank κ)) (live : Nat) :
    (doomLoop k bytes ranks live l).2.limits = l.limits ∧
      (doomLoop k bytes ranks live l).2.total = l.total := by
  induction ranks generalizing live l with
  | nil => exact ⟨rfl, rfl⟩
  | cons r ranks ih =>
    rw [doomLoop]
    split_ifs
    · exact ⟨rfl, rfl⟩
    · exact ih live
    · exact ⟨rfl, rfl⟩
    · exact ih _

theorem writeFits_keeps (k : κ) (buffered bytes share : Nat) (strict : Bool) (reserved : Nat) :
    let result := l.writeFits k buffered bytes share strict reserved
    result.2.limits = l.limits ∧ result.2.total = l.total ∧
      (result.1 → l.pastCeiling bytes strict reserved = false) := by
  rw [writeFits]
  split_ifs with hsocket hceiling
  · exact ⟨rfl, rfl, nofun⟩
  · exact ⟨rfl, rfl, nofun⟩
  · exact ⟨rfl, rfl, fun _ => Bool.eq_false_iff.mpr hceiling⟩
  · exact ⟨rfl, rfl, nofun⟩
  · obtain ⟨hlimits, htotal⟩ := doomLoop_keeps (l := l) k bytes _ (l.live share)
    exact ⟨hlimits, htotal, fun _ => Bool.eq_false_iff.mpr hceiling⟩

theorem doomLoop_fits (k : κ) {bytes live : Nat} (ranks : List (Rank κ))
    (h : live + bytes ≤ l.limits.shareCap) : (doomLoop k bytes ranks live l).1 = true := by
  cases ranks with
  | nil => exact decide_eq_true h
  | cons r ranks => rw [doomLoop, if_pos h]

/-- A write held back for the socket it goes to: for the socket's cap or, under pressure, because it
is doomed or its share is past its cap. -/
def HeldBack (l : Ledger κ) (k : κ) (buffered bytes share : Nat) : Prop :=
  0 < buffered ∧ (l.limits.socketCap < buffered + bytes ∨
    l.pressed bytes ∧ (k ∈ l.doomed ∨ l.limits.shareCap < l.live share + bytes))

theorem heldBack_of_writeFits {k : κ} {buffered bytes share reserved : Nat} {strict : Bool}
    (h : (l.writeFits k buffered bytes share strict reserved).1 = false)
    (hceiling : l.pastCeiling bytes strict reserved = false) :
    l.HeldBack k buffered bytes share := by
  rw [writeFits, hceiling, if_neg Bool.false_ne_true] at h
  split_ifs at h with hsocket hfree hdoomed
  · exact ⟨hsocket.1, .inl hsocket.2⟩
  · obtain ⟨hbuffered, hpressed⟩ := not_or.1 hfree
    exact ⟨Nat.pos_of_ne_zero hbuffered, .inr ⟨not_not.1 hpressed, .inl hdoomed⟩⟩
  · obtain ⟨hbuffered, hpressed⟩ := not_or.1 hfree
    refine ⟨Nat.pos_of_ne_zero hbuffered, .inr ⟨not_not.1 hpressed, .inr ?_⟩⟩
    by_contra hfits
    rw [doomLoop_fits k _ (not_lt.1 hfits)] at h
    cases h

/-- A frame is let pass only where it fits under the limit. -/
theorem admitLoop_pass {bytes : Nat} {sender : κ} {ownShare fuel : Nat}
    (h : (admitLoop bytes sender ownShare fuel l).1 = .pass) :
    (admitLoop bytes sender ownShare fuel l).2.2.total + bytes ≤ l.limits.limit ∧
      (admitLoop bytes sender ownShare fuel l).2.2.limits = l.limits := by
  induction fuel generalizing l with
  | zero => cases h
  | succ fuel ih =>
    rw [admitLoop] at h ⊢
    by_cases hfits : l.total + bytes ≤ l.limits.limit
    · simp only [if_pos hfits]
      exact ⟨hfits, trivial⟩
    · simp only [if_neg hfits] at h ⊢
      cases hheaviest : l.heaviest with
      | none =>
        rw [hheaviest] at h
        cases h
      | some share =>
        simp only [hheaviest] at h ⊢
        cases hfirst : l.first share with
        | none =>
          rw [hfirst] at h
          cases h
        | some v =>
          simp only [hfirst] at h ⊢
          split_ifs at h ⊢
          obtain ⟨htotal, hlimits⟩ := ih h
          rw [forget_limits] at htotal hlimits
          exact ⟨htotal, hlimits⟩

theorem admitFanout_pass {bytes : Nat} {sender : κ} {ownShare : Nat}
    (h : (l.admitFanout bytes sender ownShare).1 = .pass) :
    (l.admitFanout bytes sender ownShare).2.2.total + bytes ≤ l.limits.limit ∧
      (l.admitFanout bytes sender ownShare).2.2.limits = l.limits := by
  rw [admitFanout] at h ⊢
  split_ifs at h ⊢
  exact admitLoop_pass h

end Ledger

structure Delivery (κ : Type) [LinearOrder κ] where
  ledger : Ledger κ
  fanout : Recipients

def Delivery.Quiet (d d' : Delivery κ) : Prop :=
  d'.fanout = d.fanout ∧ d'.ledger.limits = d.ledger.limits ∧ d'.ledger.total ≤ d.ledger.total

/-- The write to a recipient, whose copy grows the total by at most its bytes. -/
def Delivery.Writes (d : Delivery κ) (bytes : Nat) (k : κ) (buffered : Nat) (block : String)
    (share : Nat) (d' : Delivery κ) : Prop :=
  let result := d.ledger.writeOk k buffered bytes share (some d.fanout) block
  result.2.1 = some d'.fanout ∧ d'.ledger.limits = result.2.2.limits ∧
    d'.ledger.total ≤ result.2.2.total + if result.1 then bytes else 0

/-- A delivery over some peers of a room; those the frame does not reach are passed over. -/
inductive Walk (bytes : Nat) (key : π → κ) (reaches : π → Option (String × Nat)) :
    Delivery κ → List π → Delivery κ → Prop
  | nil (d : Delivery κ) : Walk bytes key reaches d [] d
  | quiet {d d' d'' : Delivery κ} {peers : List π} (h : d.Quiet d')
    (rest : Walk bytes key reaches d' peers d'') : Walk bytes key reaches d peers d''
  | skip {d d' : Delivery κ} {p : π} {peers : List π} (h : reaches p = none)
    (rest : Walk bytes key reaches d peers d') : Walk bytes key reaches d (p :: peers) d'
  | write {d d' d'' : Delivery κ} {p : π} {peers : List π} {block : String} {share buffered : Nat}
    (h : reaches p = some (block, share)) (hwrite : d.Writes bytes (key p) buffered block share d')
    (rest : Walk bytes key reaches d' peers d'') : Walk bytes key reaches d (p :: peers) d''

/-- What the counted peers not yet written need is reserved, under the limit. -/
structure Reserves (reaches : π → Option (String × Nat)) (bytes : Nat) (d : Delivery κ)
    (peers : List π) : Prop where
  reserved : d.fanout.reserved = copiesOf reaches d.fanout peers * bytes
  fits : d.ledger.total + d.fanout.reserved ≤ d.ledger.limits.limit

variable {bytes : Nat} {key : π → κ} {d d' : Delivery κ} {p : π} {peers : List π} {block : String}
  {share buffered : Nat}

theorem Reserves.quiet (h : Reserves reaches bytes d peers) (hq : d.Quiet d') :
    Reserves reaches bytes d' peers := by
  obtain ⟨hfanout, hlimits, htotal⟩ := hq
  refine ⟨by rw [hfanout, h.reserved], ?_⟩
  have := h.fits
  rw [hfanout, hlimits]
  omega

theorem Reserves.skip (h : Reserves reaches bytes d (p :: peers)) (hp : reaches p = none) :
    Reserves reaches bytes d peers := by
  refine ⟨?_, h.fits⟩
  rw [h.reserved, copiesOf, hp]

theorem copiesOf_cons (bytes : Nat) {r : Recipients} (hp : reaches p = some (block, share)) :
    copiesOf reaches r (p :: peers) = (if (r.take block share bytes).1 then 1 else 0) +
      copiesOf reaches (r.take block share bytes).2 peers := by
  obtain ⟨hcounted, hrest⟩ := SameCounts.take (r := r) ⟨rfl, rfl, rfl, rfl⟩ block share bytes 0
  rw [copiesOf, hp, hcounted, hrest.copiesOf_eq]

theorem Reserves.not_pastCeiling (h : Reserves reaches bytes d (p :: peers))
    (hp : reaches p = some (block, share)) (hcounted : (d.fanout.take block share bytes).1) :
    d.ledger.pastCeiling bytes (!(d.fanout.take block share bytes).1)
      (d.fanout.take block share bytes).2.reserved = false := by
  have hreserved := h.reserved
  rw [copiesOf_cons bytes hp, if_pos hcounted, Nat.add_mul, Nat.one_mul] at hreserved
  have hfits := h.fits
  have hheadroom := d.ledger.limits.headroom
  simp only [Ledger.pastCeiling, hcounted, Bool.not_true, Bool.false_eq_true, if_false,
    decide_eq_false_iff_not, not_lt]
  omega

theorem Delivery.Writes.verdict {k : κ} (hw : d.Writes bytes k buffered block share d') :
    (d.fanout.take block share bytes).2 = d'.fanout ∧ d'.ledger.limits = d.ledger.limits ∧
      ∃ ok : Bool, d'.ledger.total ≤ d.ledger.total + (if ok then bytes else 0) ∧
        (ok → d.ledger.pastCeiling bytes (!(d.fanout.take block share bytes).1)
          (d.fanout.take block share bytes).2.reserved = false) := by
  obtain ⟨hlimits, htotal, hceiling⟩ := Ledger.writeFits_keeps (l := d.ledger) k buffered bytes
    share (!(d.fanout.take block share bytes).1) (d.fanout.take block share bytes).2.reserved
  obtain ⟨hfanout, hlimits', hgrows⟩ := hw
  refine ⟨Option.some_inj.mp hfanout, hlimits'.trans hlimits, _, ?_, hceiling⟩
  rw [← htotal]
  exact hgrows

/-- A write to the next peer leaves the room reserved for the rest. -/
theorem Reserves.write (h : Reserves reaches bytes d (p :: peers))
    (hp : reaches p = some (block, share)) {k : κ} (hw : d.Writes bytes k buffered block share d') :
    Reserves reaches bytes d' peers ∧ d'.ledger.limits = d.ledger.limits := by
  obtain ⟨hfanout, hlimits, ok, hgrows, hceiling⟩ := hw.verdict
  have hreserved := h.reserved
  have hfits := h.fits
  have htake := @reserved_take d.fanout block share bytes
  rw [copiesOf_cons bytes hp] at hreserved
  refine ⟨⟨?_, ?_⟩, hlimits⟩
  · rw [← hfanout, htake]
    split_ifs at hreserved ⊢ with hcounted
    · rw [hreserved, Nat.add_mul, Nat.one_mul]
      omega
    · rw [hreserved, Nat.zero_add]
  · rw [← hfanout, hlimits, htake]
    by_cases hcounted : (d.fanout.take block share bytes).1
    · rw [if_pos hcounted]
      rw [if_pos hcounted, Nat.add_mul, Nat.one_mul] at hreserved
      split_ifs at hgrows <;> omega
    · rw [if_neg hcounted]
      split_ifs at hgrows with hok
      · have hstrict := hceiling hok
        simp only [Ledger.pastCeiling, hcounted, Bool.not_false, if_true, htake, if_false,
          Bool.false_eq_true, decide_eq_false_iff_not, not_lt] at hstrict
        omega
      · omega

theorem Reserves.walk {before : List π} (hw : Walk bytes key reaches d before d') {rest : List π}
    (h : Reserves reaches bytes d (before ++ rest)) :
    Reserves reaches bytes d' rest ∧ d'.ledger.limits = d.ledger.limits := by
  induction hw with
  | nil d => exact ⟨h, rfl⟩
  | quiet hq _ ih =>
    obtain ⟨hrest, hlimits⟩ := ih (h.quiet hq)
    exact ⟨hrest, hlimits.trans hq.2.1⟩
  | skip hp _ ih => exact ih (h.skip hp)
  | write hp hwrite _ ih =>
    obtain ⟨hrest, hlimits⟩ := h.write hp hwrite
    obtain ⟨hrest', hlimits'⟩ := ih hrest
    exact ⟨hrest', hlimits'.trans hlimits⟩

theorem sameCounts_walk {before : List π} (hw : Walk bytes key reaches d before d')
    {s : Recipients × Nat} (h : SameCounts d.fanout s.1) :
    SameCounts d'.fanout (before.foldl (countPeer reaches) s).1 := by
  induction hw generalizing s with
  | nil d => exact h
  | quiet hq _ ih => exact ih (hq.1 ▸ h)
  | skip hp _ ih =>
    rw [List.foldl_cons, countPeer, hp]
    exact ih h
  | write hp hwrite _ ih =>
    rw [List.foldl_cons, countPeer, hp]
    exact ih (hwrite.verdict.1 ▸ (h.take _ _ _ _).2)

/-- A fan-out the budget admits never takes the total past the limit on its way, and no recipient
that the prediction counted is refused for the ceiling: one that is refused is held back for its
socket's or its share's cap. -/
theorem admitted_fanout_fits (l : Ledger κ) (room : List π) (perCopy : Nat)
    (reaches : π → Option (String × Nat)) (key : π → κ) (sender : κ) (ownShare : Nat)
    (hpass : (l.admitFanout (predict room perCopy l.limits reaches) sender ownShare).1 = .pass) :
    let bytes := perCopy + frameHeaderBytes
    let predicted := predict room perCopy l.limits reaches
    let start : Delivery κ :=
      ⟨(l.admitFanout predicted sender ownShare).2.2, Recipients.start l.limits predicted⟩
    ∀ before rest d, room = before ++ rest → Walk bytes key reaches start before d →
      d.ledger.total ≤ l.limits.limit ∧
      ∀ p after block share, rest = p :: after → reaches p = some (block, share) →
        ((before.foldl (countPeer reaches) (.start l.limits 0, 0)).1.take block share 0).1 →
          d.ledger.pastCeiling bytes (!(d.fanout.take block share bytes).1)
            (d.fanout.take block share bytes).2.reserved = false ∧
          ∀ buffered,
            (d.ledger.writeOk (key p) buffered bytes share (some d.fanout) block).1 = false →
              d.ledger.HeldBack (key p) buffered bytes share := by
  intro bytes predicted start before rest d hroom hwalk
  obtain ⟨htotal, hlimits⟩ := Ledger.admitFanout_pass hpass
  have hcounts : SameCounts start.fanout (Recipients.start l.limits 0) := ⟨rfl, rfl, rfl, rfl⟩
  have hstart : Reserves reaches bytes start (before ++ rest) := by
    refine ⟨?_, ?_⟩
    · rw [hcounts.copiesOf_eq, ← hroom]
      exact predict_eq room perCopy l.limits
    · rw [hlimits]
      exact htotal
  obtain ⟨hrest, hlimits'⟩ := hstart.walk hwalk
  have hfits := hrest.fits
  rw [hlimits', hlimits] at hfits
  refine ⟨by omega, ?_⟩
  rintro p after block share rfl hp hcounted
  have hsame := sameCounts_walk hwalk (s := (Recipients.start l.limits 0, 0)) hcounts
  have hceiling := hrest.not_pastCeiling hp ((hsame.take block share bytes 0).1.trans hcounted)
  exact ⟨hceiling, fun buffered hrefused => Ledger.heldBack_of_writeFits hrefused hceiling⟩

/-- Three sockets of one block, of which two are counted, and one of another. -/
def sampleRoom : List (Nat × String × Nat) := [(1, "s", 4), (2, "s", 4), (3, "s", 4), (4, "a", 5)]

def sampleLedger : Ledger Nat :=
    ({ limits := limitsFor 1000 true } : Ledger Nat).run [.out 9 500 0 3]

def samplePredicted : Nat := predict sampleRoom 100 sampleLedger.limits fun p => some p.2

def sampleStart : Delivery Nat :=
  ⟨(sampleLedger.admitFanout samplePredicted 9 3).2.2, .start sampleLedger.limits samplePredicted⟩

/-- The first socket is counted, and refused for what it has buffered. -/
theorem admitted_fanout_fits_room : samplePredicted = 342 ∧
    (∀ before rest d, sampleRoom = before ++ rest →
      Walk (100 + frameHeaderBytes) Prod.fst (fun p => some p.2) sampleStart before d →
        d.ledger.total ≤ 1000) ∧
    sampleStart.ledger.HeldBack 1 400 (100 + frameHeaderBytes) 4 := by
  have hfits := admitted_fanout_fits sampleLedger sampleRoom 100 (fun p => some p.2) Prod.fst 9 3
    (by decide +kernel)
  refine ⟨by decide +kernel, fun before rest d hroom hwalk => (hfits before rest d hroom hwalk).1,
    ?_⟩
  refine ((hfits [] sampleRoom sampleStart rfl (.nil _)).2 (1, "s", 4) _ "s" 4 rfl rfl ?_).2 400 ?_
  · decide +kernel
  · decide +kernel

end Hollow.Relay.SendBudget
