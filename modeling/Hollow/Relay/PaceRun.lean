import Hollow.Relay.Pace

/-! Runs of a paced session: the client lets frames go by its mirror, they arrive in order up to
eight seconds later, and the relay judges each by its own buckets. The mirror stays within eight
seconds of refill of the relay's level, unless a refund lifts it above what the charges alone would
have left. -/

namespace Hollow.Relay

open TokenBucket

variable {σ : Type}

/-- The relay's reading, in milliseconds, at a moment of the client's clock. -/
def reading (offset moment : Int) : Int := (moment + offset) / nsPerMs

def mostDelayMs : Int := 8000

/-- A frame that goes: its price, its plan and charge at the relay, and how long it is under way. -/
structure Sent where
  cost : Cost
  target : Option String
  priority : Bool
  plan : Plan
  charge : Int
  now : Int
  delay : Int

/-- What happens on a session: the client asks whether a frame may go, sends one, or takes back part
of the price of a frame. -/
inductive Event where
  | look (cost : Cost) (target : Option String) (priority : Bool) (now : Int)
  | send (s : Sent)
  | refund (frame : Nat) (w : Int)

/-- A session's two ends. -/
structure Line (σ : Type) where
  pacer : Pacer
  account : Account
  strangers : σ
  clock : Int
  arrived : Int
  /-- What the price of each frame is above its charge and not given back. -/
  owed : List Int
  /-- The mirror of a client that spends the charges instead of the prices. -/
  truth : Mirror

namespace Line

/-- The relay began the account, the client heard its credit later. -/
def fresh (offset credit begun now : Int) (strangers : σ) : Line σ where
  pacer := Pacer.fresh credit true now
  account := Account.begin credit (reading offset begun) Limits.default
  strangers := strangers
  clock := now
  arrived := begun
  owed := []
  truth := (Pacer.fresh credit true now).w

variable (book : StrangerBook σ) (offset : Int)

def judged (l : Line σ) (s : Sent) : Account × Verdict :=
  judge book l.account s.plan (reading offset (s.now + s.delay)) Limits.default l.strangers

def step (l : Line σ) : Event → Line σ
  | .look cost target priority now =>
    { l with
      pacer := (l.pacer.wait cost target now priority).1
      truth := l.truth.refill now
      clock := now }
  | .send s =>
    let (account, strangers) := charge book (l.judged book offset s).1 s.charge s.plan
      (reading offset (s.now + s.delay)) Limits.default l.strangers
    { pacer := ((l.pacer.wait s.cost s.target s.now s.priority).1).spend s.cost s.target s.now
      account
      strangers
      clock := s.now
      arrived := s.now + s.delay
      owed := l.owed ++ [s.cost.w - s.charge]
      truth := (l.truth.refill s.now).spend s.charge }
  | .refund frame w =>
    { l with
      pacer := l.pacer.refund w
      owed := l.owed.modify frame (· - max w 0) }

def verdicts (l : Line σ) : Event → List Verdict
  | .send s => [(l.judged book offset s).2]
  | _ => []

/-- A frame goes when the pacer lets it, at a price that covers what it is judged at and charged and
that a full bucket holds; frames arrive in order. A refund is no more than a price was too high. -/
def Allowed (l : Line σ) : Event → Prop
  | .look _ _ _ now => l.clock ≤ now
  | .send s => l.clock ≤ s.now ∧ (l.pacer.wait s.cost s.target s.now s.priority).2 = none ∧
      judgedW s.plan.w Limits.default ≤ s.cost.w ∧ s.charge ≤ s.cost.w ∧
      (if s.plan.join then 1 else 0) ≤ s.cost.joins ∧
      s.cost.w ≤ wCap - Pacer.reserveFor s.priority ∧
      0 ≤ s.delay ∧ s.delay ≤ mostDelayMs * nsPerMs ∧ l.arrived ≤ s.now + s.delay
  | .refund frame w => ∃ owed, l.owed[frame]? = some owed ∧ w ≤ owed

/-- A refund that leaves the mirror where the charges alone would have it, or below, and a stranger
the relay's count has room for. -/
def Sound (l : Line σ) : Event → Prop
  | .look _ _ _ _ => True
  | .send s => ¬ s.plan.stranger.any fun key =>
      book.wouldReach l.strangers key (reading offset (s.now + s.delay)) Limits.default.distinct
  | .refund _ w => (l.pacer.refund w).w.u ≤ l.truth.u

/-- The runs of a session whose events all meet a condition, and the verdicts on its frames. -/
inductive Run (condition : Line σ → Event → Prop) : List Verdict → Line σ → Prop
  | fresh {credit begun now : Int} {strangers : σ} (hcredit : 0 ≤ credit) (hnow : begun ≤ now) :
    Run condition [] (Line.fresh offset credit begun now strangers)
  | step {verdicts : List Verdict} {l : Line σ} {e : Event} (h : Run condition verdicts l)
    (hallowed : l.Allowed e) (hcondition : condition l e) :
    Run condition (verdicts ++ l.verdicts book offset e) (l.step book offset e)

end Line

theorem reading_mono (offset : Int) {x y : Int} (h : x ≤ y) : reading offset x ≤ reading offset y :=
  Int.ediv_le_ediv (by decide) (by linarith)

theorem reading_add_ms (offset x ms : Int) :
    reading offset (x + ms * nsPerMs) = reading offset x + ms := by
  rw [reading, reading, add_right_comm, Int.add_mul_ediv_right _ _ (by decide)]

theorem reading_add_elapsed (offset : Int) {x y : Int} (h : x ≤ y) :
    reading offset x + max (y - x) 0 / nsPerMs ≤ reading offset y := by
  rw [← reading_add_ms]
  refine reading_mono offset ?_
  rw [max_eq_left (by linarith)]
  have := Int.ediv_mul_le (y - x) (show nsPerMs ≠ 0 by decide)
  linarith

/-- A mirror never above the relay's bucket by more than the refill of the longest delay, counted
from the relay's last reading. -/
structure Lags (offset : Int) (r : Rates) (m : Mirror) (b : Bucket) : Prop where
  cap : m.cap = r.cap
  refillM : m.refillM = r.refillM
  rate : 0 ≤ r.refillM
  near : b.lastMs ≤ reading offset m.at_ + mostDelayMs
  level : m.u ≤ b.u + (reading offset m.at_ + mostDelayMs - b.lastMs) * r.refillM
  floor : m.floor * micro ≤ b.u
  below_cap : m.floor * micro ≤ r.cap * micro
  fills : r.cap * micro ≤ m.floor * micro + mostElapsedMs * r.refillM

namespace Lags

variable {offset now delay units units' : Int} {r : Rates} {m : Mirror} {b : Bucket}

variable (h : Lags offset r m b)
include h

theorem look (hnow : m.at_ ≤ now) : Lags offset r (m.refill now) b := by
  have hat : (m.refill now).at_ = now := max_eq_right hnow
  have hreading := reading_add_elapsed offset hnow
  refine ⟨h.cap, h.refillM, h.rate, ?_, ?_, h.floor, h.below_cap, h.fills⟩
  · rw [hat]
    exact h.near.trans (by linarith [reading_mono offset hnow])
  · rw [hat]
    have helapsed : m.elapsedMs now ≤ reading offset now - reading offset m.at_ :=
      (min_le_left _ _).trans (by linarith)
    calc (m.refill now).u ≤ m.u + m.elapsedMs now * m.refillM := min_le_left _ _
      _ ≤ m.u + (reading offset now - reading offset m.at_) * r.refillM := by
        rw [h.refillM]
        have := mul_le_mul_of_nonneg_right helapsed h.rate
        linarith
      _ ≤ b.u + (reading offset now + mostDelayMs - b.lastMs) * r.refillM := by
        have := h.level
        linarith

/-- A frame on its way arrives at a bucket the mirror is ahead of by the longest delay at most. -/
theorem arrive (hcap : m.u ≤ r.cap * micro) (hdelay : 0 ≤ delay)
    (hmost : delay ≤ mostDelayMs * nsPerMs) (hlast : b.lastMs ≤ reading offset (m.at_ + delay)) :
    Lags offset r m (b.refill (reading offset (m.at_ + delay)) r) ∧
      m.u ≤ (b.refill (reading offset (m.at_ + delay)) r).u + mostDelayMs * r.refillM := by
  set arrival := reading offset (m.at_ + delay)
  have hsoon : reading offset m.at_ ≤ arrival := reading_mono offset (by linarith)
  have hlate : arrival ≤ reading offset m.at_ + mostDelayMs := by
    rw [← reading_add_ms]
    exact reading_mono offset (by linarith)
  have hlag : (reading offset m.at_ + mostDelayMs - arrival) * r.refillM ≤
      mostDelayMs * r.refillM := mul_le_mul_of_nonneg_right (by linarith) h.rate
  rcases hlast.eq_or_lt with heq | hlt
  · rw [Bucket.refill, if_pos heq.ge]
    refine ⟨h, ?_⟩
    have := h.level
    rw [heq] at this
    linarith
  · have hfull : r.cap * micro ≤ b.u + mostElapsedMs * r.refillM := by
      have := h.fills
      have := h.floor
      linarith
    rw [Bucket.refill, if_neg (not_le.2 hlt)]
    dsimp only
    rw [fill_min h.rate hfull]
    have hlevel : m.u ≤ fill r.refillM (r.cap * micro) b.u (arrival - b.lastMs) +
        (reading offset m.at_ + mostDelayMs - arrival) * r.refillM := by
      have hstill : fill r.refillM (r.cap * micro) m.u 0 = m.u := by
        rw [fill, zero_mul, add_zero, min_eq_left hcap]
      rw [← hstill]
      exact fill_le_fill h.rate h.level (by linarith) (by linarith)
    refine ⟨⟨h.cap, h.refillM, h.rate, hlate, hlevel, ?_, h.below_cap, h.fills⟩, by linarith⟩
    refine le_min ?_ h.below_cap
    have := mul_nonneg (sub_nonneg.2 hlt.le) h.rate
    have := h.floor
    linarith

theorem spend (hunits : units' ≤ units) :
    Lags offset r (m.spend units) (b.spend units' m.floor) := by
  refine ⟨h.cap, h.refillM, h.rate, h.near, ?_, floor_le_pay, h.below_cap, h.fills⟩
  refine pay_le_pay h.level ?_ ?_
  · exact mul_nonneg (sub_nonneg.2 h.near) h.rate
  · exact mul_le_mul_of_nonneg_right hunits (by decide)

end Lags

theorem Bucket.le_level_iff {b : Bucket} {k : Int} : k ≤ b.level ↔ k * micro ≤ b.u := by
  have hmicro : (0 : Int) < micro := by decide
  have hlevel : b.level = b.u / micro := by
    rw [Bucket.level]
    split
    · rfl
    · simp only [micro]
      omega
  rw [hlevel, Int.le_ediv_iff_mul_le hmicro]

theorem Mirror.refill_le {m : Mirror} {now : Int} : (m.refill now).u ≤ m.cap * micro :=
  fill_le_cap

namespace Pacer

variable {p : Pacer} {now : Int}

theorem later_eq_none {found : Option Int} {t : Int} (h : later now found t = none) :
    found = none ∧ t ≤ now := by
  unfold later at h
  split_ifs at h with hlt
  exact ⟨h, not_lt.1 hlt⟩

theorem wait_buckets (henforced : p.enforced) (cost : Cost) (target : Option String) (now : Int)
    (priority : Bool) :
    (p.wait cost target now priority).1.w = p.w.refill now ∧
      (p.wait cost target now priority).1.joins = p.joins.refill now ∧
      (p.wait cost target now priority).1.enforced = true := by
  rw [wait, if_neg (by simp [henforced])]
  cases target with
  | none => exact ⟨rfl, rfl, henforced⟩
  | some target => exact ⟨rfl, rfl, henforced⟩

end Pacer

theorem Mirror.covers_of_reaches {m : Mirror} {now target : Int} (hat : m.at_ = now)
    (hrate : 0 < m.refillM) (h : m.reaches target ≤ now) : target * micro ≤ m.u := by
  rw [Mirror.reaches] at h
  by_contra hneed
  rw [if_neg (by linarith)] at h
  have hms : 1 ≤ (target * micro - m.u + m.refillM - 1) / m.refillM := by
    rw [Int.le_ediv_iff_mul_le hrate]
    linarith
  have : 1 * nsPerMs ≤ (target * micro - m.u + m.refillM - 1) / m.refillM * nsPerMs :=
    mul_le_mul_of_nonneg_right hms (by decide)
  have : (0 : Int) < nsPerMs := by decide
  linarith

theorem Pacer.covered_of_wait {p : Pacer} {cost : Cost} {target : Option String} {now : Int}
    {priority : Bool} (henforced : p.enforced) (hw : p.w.at_ ≤ now) (hj : p.joins.at_ ≤ now)
    (hrate : 0 < p.w.refillM) (hjrate : 0 < p.joins.refillM)
    (h : (p.wait cost target now priority).2 = none) :
    (min cost.w (wCap - reserveFor priority) + reserveFor priority) * micro ≤ (p.w.refill now).u ∧
      (0 < cost.joins → (cost.joins + joinsReserve) * micro ≤ (p.joins.refill now).u) := by
  have hfound : (if 0 < cost.joins then
      later now (later now none ((p.w.refill now).reaches
        (min cost.w (wCap - reserveFor priority) + reserveFor priority)))
        ((p.joins.refill now).reaches (cost.joins + joinsReserve))
      else later now none ((p.w.refill now).reaches
        (min cost.w (wCap - reserveFor priority) + reserveFor priority))) = none := by
    rw [wait, if_neg (by simp [henforced])] at h
    cases target with
    | none => exact h
    | some target =>
      dsimp only at h
      cases hready : (p.targets.ready target now).2 with
      | none =>
        simp only [refill, hready] at h
        exact h
      | some t =>
        simp only [refill, hready] at h
        exact (later_eq_none h).1
  have hatw : (p.w.refill now).at_ = now := max_eq_right hw
  have hatj : (p.joins.refill now).at_ = now := max_eq_right hj
  by_cases hjoins : 0 < cost.joins
  · rw [if_pos hjoins] at hfound
    obtain ⟨hfound, hreach⟩ := later_eq_none hfound
    exact ⟨Mirror.covers_of_reaches hatw hrate (later_eq_none hfound).2,
      fun _ => Mirror.covers_of_reaches hatj hjrate hreach⟩
  · rw [if_neg hjoins] at hfound
    exact ⟨Mirror.covers_of_reaches hatw hrate (later_eq_none hfound).2,
      fun hpos => absurd hpos hjoins⟩

theorem Mirror.refill_refill {m : Mirror} {now : Int} (h : m.at_ ≤ now) :
    (m.refill now).refill now = m.refill now := by
  have hat : (m.refill now).at_ = now := max_eq_right h
  have helapsed : (m.refill now).elapsedMs now = 0 := by
    rw [Mirror.elapsedMs, hat, sub_self]
    decide
  ext
  · change fill m.refillM (m.cap * micro) (m.refill now).u
      ((m.refill now).elapsedMs now) = (m.refill now).u
    rw [helapsed, fill, zero_mul, add_zero, min_eq_left Mirror.refill_le]
  · change max (m.refill now).at_ now = (m.refill now).at_
    rw [hat, max_self]
  · rfl
  · rfl
  · rfl

theorem Bucket.spend_zero {b : Bucket} {floor : Int} (h : floor * micro ≤ b.u) :
    b.spend 0 floor = b := by
  rw [Bucket.spend, pay, zero_mul, sub_zero, max_eq_left h]

theorem Bucket.refill_lastMs_le {b : Bucket} {nowMs : Int} {r : Rates} (h : b.lastMs ≤ nowMs) :
    (b.refill nowMs r).lastMs ≤ nowMs := by
  rw [Bucket.refill]
  split
  · exact h
  · exact le_rfl

theorem judge_fst {book : StrangerBook σ} {a : Account} {p : Plan} {nowMs : Int} {limits : Limits}
    {strangers : σ} :
    (judge book a p nowMs limits strangers).1 = a.refill nowMs limits := by
  unfold judge
  simp only
  split_ifs <;> rfl

/-- A mirror that lags behind its bucket, with the client's clock and the relay's last arrival. -/
structure Follows (offset clock arrived floor : Int) (r : Rates) (m : Mirror) (b : Bucket) :
    Prop where
  lags : Lags offset r m b
  at_ : m.at_ = clock
  floor : m.floor = floor
  last : b.lastMs ≤ reading offset arrived

namespace Follows

variable {offset clock arrived floor now delay : Int} {r : Rates} {m : Mirror} {b : Bucket}
  (h : Follows offset clock arrived floor r m b) (hnow : clock ≤ now)
include h hnow

theorem look : Follows offset now arrived floor r (m.refill now) b :=
  ⟨h.lags.look (h.at_.trans_le hnow), max_eq_right (h.at_.trans_le hnow), h.floor, h.last⟩

variable (hdelay : 0 ≤ delay) (hmost : delay ≤ mostDelayMs * nsPerMs)
  (horder : arrived ≤ now + delay)
include hdelay hmost horder

theorem arrive : Lags offset r (m.refill now) (b.refill (reading offset (now + delay)) r) ∧
    (m.refill now).u ≤
      (b.refill (reading offset (now + delay)) r).u + mostDelayMs * r.refillM := by
  have hlook := h.look hnow
  have harrive := hlook.lags.arrive (h.lags.cap ▸ Mirror.refill_le) hdelay hmost
    (by rw [hlook.at_]; exact h.last.trans (reading_mono offset horder))
  rwa [hlook.at_] at harrive

theorem spend {units units' : Int} (hunits : units' ≤ units) :
    Follows offset now (now + delay) floor r ((m.refill now).spend units)
      ((b.refill (reading offset (now + delay)) r).spend units' floor) := by
  have hlook := h.look hnow
  have hspend := (h.arrive hnow hdelay hmost horder).1.spend hunits
  rw [hlook.floor] at hspend
  exact ⟨hspend, hlook.at_, hlook.floor,
    Bucket.refill_lastMs_le (h.last.trans (reading_mono offset horder))⟩

end Follows

/-- The pacer's mirror of the work is the one of the charges or below it. -/
structure Paced (offset : Int) (l : Line σ) : Prop where
  enforced : l.pacer.enforced
  shape : l.pacer.w = { l.truth with u := l.pacer.w.u }
  below : l.pacer.w.u ≤ l.truth.u
  w : Follows offset l.clock l.arrived Limits.default.debtFloor Limits.default.wFull l.truth
    l.account.w
  joins : Follows offset l.clock l.arrived 0 Limits.default.joinsFull l.pacer.joins l.account.joins

namespace Paced

variable {offset : Int} {book : StrangerBook σ} {l : Line σ}

/-- A new line starts with the pacer's mirror at or below the account. -/
theorem fresh {credit begun now : Int} {strangers : σ} (hcredit : 0 ≤ credit)
    (hnow : begun ≤ now) : Paced offset (Line.fresh offset credit begun now strangers) := by
  have hreading := reading_mono offset hnow
  have hstart (level : Int) (r : Rates) (hr : 0 ≤ r.refillM) (u : Int) (hu : u ≤ level * micro) :
      u ≤ level * micro + (reading offset now + mostDelayMs - reading offset begun) *
        r.refillM := by
    have : (0 : Int) ≤ mostDelayMs := by decide
    have := mul_nonneg (by linarith : 0 ≤ reading offset now + mostDelayMs - reading offset begun)
      hr
    linarith
  have hnear : reading offset begun ≤ reading offset now + mostDelayMs := by
    have : (0 : Int) ≤ mostDelayMs := by decide
    linarith
  have hmicro : (0 : Int) ≤ micro := by decide
  have hclamp : max 0 (min credit wCap) * micro ≤ credit * micro :=
    mul_le_mul_of_nonneg_right (max_le hcredit (min_le_left _ _)) hmicro
  have hw : Limits.default.wFull.cap * micro ≤
      clientDebtFloor * micro + mostElapsedMs * Limits.default.wFull.refillM := by decide
  have hj : Limits.default.joinsFull.cap * micro ≤
      0 * micro + mostElapsedMs * Limits.default.joinsFull.refillM := by decide
  have hdebt : clientDebtFloor * micro ≤ credit * micro :=
    mul_le_mul_of_nonneg_right (le_trans (by decide) hcredit) hmicro
  have hwcap : clientDebtFloor * micro ≤ Limits.default.wFull.cap * micro := by decide
  have hjcap : 0 * micro ≤ Limits.default.joinsFull.cap * micro := by decide
  have hjstart : 0 * micro ≤ Limits.default.joinsFull.start * micro := by decide
  exact ⟨rfl, rfl, le_rfl,
    ⟨⟨rfl, rfl, by decide, hnear, hstart credit _ (by decide) _ hclamp, hdebt, hwcap, hw⟩, rfl, rfl,
      le_rfl⟩,
    ⟨⟨rfl, rfl, by decide, hnear, hstart _ _ (by decide) _ le_rfl, hjstart, hjcap, hj⟩, rfl, rfl,
      le_rfl⟩⟩

variable (h : Paced offset l)
include h

theorem refill_shape (now : Int) :
    l.pacer.w.refill now = { l.truth.refill now with u := (l.pacer.w.refill now).u } ∧
      (l.pacer.w.refill now).u ≤ (l.truth.refill now).u := by
  have hmirror : l.pacer.w.refill now = { l.truth.refill now with
      u := fill l.truth.refillM (l.truth.cap * micro) l.pacer.w.u
        (l.truth.elapsedMs now) } := by
    rw [h.shape]
    rfl
  refine ⟨by rw [hmirror], ?_⟩
  rw [hmirror]
  exact fill_mono h.below

theorem look {cost : Cost} {target : Option String} {priority : Bool} {now : Int}
    (hnow : l.clock ≤ now) :
    Paced offset (l.step book offset (.look cost target priority now)) := by
  obtain ⟨hw, hj, henforced⟩ := Pacer.wait_buckets h.enforced cost target now priority
  obtain ⟨hshape, hbelow⟩ := h.refill_shape now
  refine ⟨henforced, ?_, ?_, h.w.look hnow, ?_⟩
  · change (l.pacer.wait cost target now priority).1.w = { l.truth.refill now with
      u := (l.pacer.wait cost target now priority).1.w.u }
    rw [hw]
    exact hshape
  · change (l.pacer.wait cost target now priority).1.w.u ≤ (l.truth.refill now).u
    rw [hw]
    exact hbelow
  · change Follows offset now l.arrived 0 Limits.default.joinsFull
      (l.pacer.wait cost target now priority).1.joins l.account.joins
    rw [hj]
    exact h.joins.look hnow

theorem at_le {now : Int} (hclock : l.clock ≤ now) : l.pacer.w.at_ ≤ now := by
  rw [h.shape]
  exact h.w.at_.trans_le hclock

/-- A frame the pacer lets go finds at the relay what it costs. -/
theorem judged_pass {s : Sent} (hallowed : l.Allowed (.send s))
    (hsound : l.Sound book offset (.send s)) : (l.judged book offset s).2 = .pass := by
  obtain ⟨hclock, hwait, hplan, -, hjoin, hfits, hdelay, hmost, horder⟩ := hallowed
  have hw := (h.w.arrive hclock hdelay hmost horder).2
  have hj := (h.joins.arrive hclock hdelay hmost horder).2
  have hrate : l.pacer.w.refillM = Limits.default.wFull.refillM := by
    rw [h.shape]
    exact h.w.lags.refillM
  obtain ⟨hcover, hcoverJoins⟩ := Pacer.covered_of_wait h.enforced (h.at_le hclock)
    (h.joins.at_.trans_le hclock) (by rw [hrate]; decide) (by rw [h.joins.lags.refillM]; decide)
    hwait
  set a := l.account.refill (reading offset (s.now + s.delay)) Limits.default
  change _ ≤ a.w.u + _ at hw
  change _ ≤ a.joins.u + _ at hj
  have hreserve : mostDelayMs * Limits.default.wFull.refillM ≤
      Pacer.reserveFor s.priority * micro := by
    cases s.priority <;> decide
  have hprice : s.cost.w * micro ≤ a.w.u := by
    have hmirror := (h.refill_shape s.now).2
    rw [min_eq_left hfits, add_mul] at hcover
    linarith
  have hwork : judgedW s.plan.w Limits.default ≤ a.w.level := by
    rw [Bucket.le_level_iff]
    exact le_trans (mul_le_mul_of_nonneg_right hplan (by decide)) hprice
  have hjoins : s.plan.join = true → 1 ≤ a.joins.level := by
    intro hp
    rw [if_pos hp] at hjoin
    rw [Bucket.le_level_iff]
    have hcovered := hcoverJoins (by linarith)
    have hbound : mostDelayMs * Limits.default.joinsFull.refillM = joinsReserve * micro := by decide
    have : 1 * micro ≤ s.cost.joins * micro := mul_le_mul_of_nonneg_right hjoin (by decide)
    rw [add_mul] at hcovered
    linarith
  rw [Line.judged, judge]
  by_cases hcontrol : s.plan.control
  · rw [if_pos hcontrol]
  · rw [if_neg hcontrol, if_neg, if_neg hsound, if_neg (by linarith)]
    rw [Bool.and_eq_true, decide_eq_true_eq, not_and, not_lt]
    exact hjoins

/-- A frame sent when the pacer allows it keeps the pacer's mirror at or below the account. -/
theorem send {s : Sent} (hallowed : l.Allowed (.send s)) :
    Paced offset (l.step book offset (.send s)) := by
  obtain ⟨hclock, -, -, hcharge, hjoin, -, hdelay, hmost, horder⟩ := hallowed
  obtain ⟨hwaitW, hwaitJoins, henforced⟩ :=
    Pacer.wait_buckets h.enforced s.cost s.target s.now s.priority
  obtain ⟨hshape, hbelow⟩ := h.refill_shape s.now
  set a := l.account.refill (reading offset (s.now + s.delay)) Limits.default with ha
  set next := l.step book offset (.send s) with hnext
  have hnextW : next.pacer.w = (l.pacer.w.refill s.now).spend s.cost.w := by
    change ((l.pacer.wait s.cost s.target s.now s.priority).1.w.refill s.now).spend s.cost.w = _
    rw [hwaitW, Mirror.refill_refill (h.at_le hclock)]
  have hnextJoins : next.pacer.joins = (l.pacer.joins.refill s.now).spend s.cost.joins := by
    change ((l.pacer.wait s.cost s.target s.now s.priority).1.joins.refill s.now).spend
      s.cost.joins = _
    rw [hwaitJoins, Mirror.refill_refill (h.joins.at_.trans_le hclock)]
  have haccountW : next.account.w = a.w.spend s.charge Limits.default.debtFloor := by
    rw [ha, ← judge_fst (p := s.plan)]
    rfl
  have haccountJoins : next.account.joins = a.joins.spend (if s.plan.join then 1 else 0) 0 := by
    have hcharged : next.account.joins =
        if s.plan.join then a.joins.spend 1 0 else a.joins := by
      rw [ha, ← judge_fst (p := s.plan)]
      rfl
    rw [hcharged]
    split
    · rfl
    · have hfloor := (h.joins.arrive hclock hdelay hmost horder).1.floor
      exact (Bucket.spend_zero ((h.joins.look hclock).floor ▸ hfloor)).symm
  refine ⟨henforced, ?_, ?_, ?_, ?_⟩
  · rw [hnextW, hshape]
    rfl
  · have hfloor : (l.pacer.w.refill s.now).floor = (l.truth.refill s.now).floor := by rw [hshape]
    rw [hnextW]
    change pay ((l.pacer.w.refill s.now).floor * micro) _ _ ≤
      pay ((l.truth.refill s.now).floor * micro) _ _
    rw [hfloor, ← add_zero (pay _ (l.truth.refill s.now).u _)]
    exact pay_le_pay (hbelow.trans_eq (add_zero _).symm) le_rfl
      (mul_le_mul_of_nonneg_right hcharge (by decide))
  · rw [haccountW]
    exact h.w.spend hclock hdelay hmost horder le_rfl
  · rw [haccountJoins, hnextJoins]
    exact h.joins.spend hclock hdelay hmost horder hjoin

theorem refund {frame : Nat} {w : Int}
    (hsound : l.Sound book offset (.refund frame w)) :
    Paced offset (l.step book offset (.refund frame w)) := by
  refine ⟨h.enforced, ?_, hsound, h.w, h.joins⟩
  change l.pacer.w.giveBack (max w 0) = { l.truth with u := (l.pacer.w.giveBack (max w 0)).u }
  rw [h.shape]
  rfl

omit h in
theorem run {verdicts : List Verdict}
    (h : Line.Run book offset (Line.Sound book offset) verdicts l) :
    Paced offset l := by
  induction h with
  | fresh hcredit hnow => exact Paced.fresh hcredit hnow
  | @step verdicts l e h hallowed hsound ih =>
    cases e with
    | look cost target priority now => exact ih.look hallowed
    | send s => exact ih.send hallowed
    | refund frame w => exact ih.refund hsound

end Paced

/-- A session in which no refund lifts the mirror above what the charges leave, and no stranger is
one too many, never trips. -/
theorem paced_never_trips {book : StrangerBook σ} {offset : Int} {verdicts : List Verdict}
    {l : Line σ} (h : Line.Run book offset (Line.Sound book offset) verdicts l) :
    ∀ verdict ∈ verdicts, verdict = .pass := by
  induction h with
  | fresh hcredit hnow => simp
  | @step verdicts l e h hallowed hsound ih =>
    refine List.forall_mem_append.2 ⟨ih, ?_⟩
    cases e with
    | look cost target priority now => simp [Line.verdicts]
    | send s => simp [Line.verdicts, (Paced.run h).judged_pass hallowed hsound]
    | refund frame w => simp [Line.verdicts]

def quietBook : StrangerBook Unit := ⟨fun _ _ _ _ => false, fun _ _ _ => ()⟩

def sampleSent (price charge seconds : Int) : Sent where
  cost := ⟨price, 0⟩
  target := none
  priority := false
  plan := ⟨charge, false, false, none⟩
  charge := charge
  now := seconds * 1000 * nsPerMs
  delay := 0

def sampleLine : Line Unit := Line.fresh 0 400000 0 0 ()

def sampleLine1 : Line Unit := sampleLine.step quietBook 0 (.send (sampleSent 20000 10 400))

/-- The ends after a frame worth a full bucket, when both were full again. -/
def sampleLine2 : Line Unit := sampleLine1.step quietBook 0 (.send (sampleSent 784000 784000 420))

def sampleLine3 : Line Unit := sampleLine2.step quietBook 0 (.refund 0 19990)

theorem sampleRun {condition : Line Unit → Event → Prop}
    (h : condition sampleLine (.send (sampleSent 20000 10 400)))
    (h1 : condition sampleLine1 (.send (sampleSent 784000 784000 420))) :
    Line.Run quietBook 0 condition [.pass, .pass] sampleLine2 := by
  have hallowed : sampleLine.Allowed (.send (sampleSent 20000 10 400)) := by
    refine ⟨?_, ?_, ?_, ?_, ?_, ?_, ?_, ?_, ?_⟩ <;> decide +kernel
  have hallowed1 : sampleLine1.Allowed (.send (sampleSent 784000 784000 420)) := by
    refine ⟨?_, ?_, ?_, ?_, ?_, ?_, ?_, ?_, ?_⟩ <;> decide +kernel
  have hrun := Line.Run.step (Line.Run.step
    (Line.Run.fresh (by decide : (0 : Int) ≤ 400000) (le_refl (0 : Int))) hallowed h) hallowed1 h1
  have hverdicts : ([] ++ sampleLine.verdicts quietBook 0 (.send (sampleSent 20000 10 400))) ++
      sampleLine1.verdicts quietBook 0 (.send (sampleSent 784000 784000 420)) =
        [.pass, .pass] := by decide +kernel
  exact hverdicts ▸ hrun

/-- The refund of the first frame comes when its price has long been refilled: the mirror stands
above the relay, and the next frame trips. -/
theorem not_paced_late_refund : ∃ l,
    Line.Run quietBook 0 (fun _ _ => True) [.pass, .pass, .work] l := by
  have hrefund : sampleLine2.Allowed (.refund 0 19990) := ⟨19990, by decide +kernel, le_rfl⟩
  have hallowed : sampleLine3.Allowed (.send (sampleSent 19000 19000 420)) := by
    refine ⟨?_, ?_, ?_, ?_, ?_, ?_, ?_, ?_, ?_⟩ <;> decide +kernel
  have hfirst : Line.Run quietBook 0 (fun _ _ => True) [.pass, .pass] sampleLine2 :=
    sampleRun trivial trivial
  have hrun := (hfirst.step hrefund trivial).step hallowed trivial
  have hverdicts : ([.pass, .pass] ++ sampleLine2.verdicts quietBook 0 (.refund 0 19990)) ++
      sampleLine3.verdicts quietBook 0 (.send (sampleSent 19000 19000 420)) =
        [.pass, .pass, .work] := by decide +kernel
  exact ⟨_, hverdicts ▸ hrun⟩

theorem paced_never_trips_two_frames :
    Line.Run quietBook 0 (Line.Sound quietBook 0) [.pass, .pass] sampleLine2 ∧
      ∀ verdict ∈ [Verdict.pass, Verdict.pass], verdict = .pass := by
  have hquiet (price charge seconds : Int) (l : Line Unit) :
      l.Sound quietBook 0 (.send (sampleSent price charge seconds)) := Bool.false_ne_true
  have hrun := sampleRun (hquiet 20000 10 400 sampleLine) (hquiet 784000 784000 420 sampleLine1)
  exact ⟨hrun, paced_never_trips hrun⟩

end Hollow.Relay
