import Hollow.Lib.Dict
import Hollow.Lib.SlotWindow
import Hollow.Relay.FairShare
import Hollow.Relay.Pace

/-! The breaker's cooldown ladder. A full payer that trips is only paused; its device moves up the
ladder when what it spent over the ladder window is more than a bucket that pays as it goes can
spend in it, `ladderBudget`. -/

namespace Hollow.Relay

def ladderSlots : Nat := 10

def tableMax : Nat := 65536

instance : NeZero ladderSlots := ⟨by decide⟩

structure PayerLimits extends Limits where
  wFetch : Rates
  wGuest : Rates
  joinsFetch : Rates
  joinsGuest : Rates
  ladderMs : Vector Int 5
  ladderForgetMs : Int
  ladderWindowMs : Int
  socketPauseMs : Int
  pauseSlackMs : Int

def PayerLimits.default : PayerLimits where
  toLimits := Limits.default
  wFetch := ⟨20000, 20000, 200000⟩
  wGuest := ⟨5000, 5000, 50000⟩
  joinsFetch := ⟨2500, 2500, 2000⟩
  joinsGuest := ⟨10, 10, 100⟩
  ladderMs := #v[60000, 300000, 1800000, 7200000, 86400000]
  ladderForgetMs := 6 * 3600000
  ladderWindowMs := 600000
  socketPauseMs := 30000
  pauseSlackMs := 2000

/-- A full bucket's cap plus its refill over the ladder window. -/
def ladderBudget (l : PayerLimits) : Int :=
  l.wFull.cap + (l.wFull.refillM * l.ladderWindowMs).tdiv 1000000

/-- Milliseconds until the level reaches `target` at the refill of `r`. -/
def Bucket.msUntil (b : Bucket) (target : Int) (r : Rates) : Int :=
  let need := target * micro - b.u
  if need ≤ 0 ∨ r.refillM ≤ 0 then 0 else (need + r.refillM - 1) / r.refillM

inductive Kind where
  | full
  | fetch
  | guest
deriving DecidableEq

def slotMs (l : PayerLimits) : Nat := (max (l.ladderWindowMs.tdiv ladderSlots) 1).toNat

abbrev RecentSpend := Fin ladderSlots → SlotWindow.Slot

namespace RecentSpend

def add (s : RecentSpend) (w : Int) (nowMs : Nat) (l : PayerLimits) : RecentSpend :=
  SlotWindow.add s (nowMs / slotMs l) w

def sum (s : RecentSpend) (nowMs : Nat) (l : PayerLimits) : Int :=
  SlotWindow.sum s (nowMs / slotMs l)

end RecentSpend

/-- One payer's account: a device's session, or a socket without one. -/
structure Payer extends Account where
  kind : Kind
  startCredit : Int
  /-- Everything charged since the start. -/
  spent : Int
  recent : RecentSpend

namespace Payer

def wRates (a : Payer) (l : PayerLimits) : Rates :=
  match a.kind with
  | .full => l.wFull
  | .fetch => l.wFetch
  | .guest => l.wGuest

def joinRates (kind : Kind) (l : PayerLimits) : Rates :=
  match kind with
  | .full => l.joinsFull
  | .fetch => l.joinsFetch
  | .guest => l.joinsGuest

def begin (kind : Kind) (credit : Int) (nowMs : Nat) (l : PayerLimits) : Payer where
  w := Bucket.start credit nowMs
  joins := Bucket.start (joinRates kind l).start nowMs
  kind
  startCredit := credit
  spent := 0
  recent := SlotWindow.empty

def refill (a : Payer) (nowMs : Nat) (l : PayerLimits) : Payer :=
  { a with
    w := a.w.refill nowMs (a.wRates l)
    joins := a.joins.refill nowMs (joinRates a.kind l) }

/-- Every W charge goes through here, so the ladder window sees it. -/
def spendW (a : Payer) (units : Int) (nowMs : Nat) (l : PayerLimits) : Payer :=
  { a with
    w := a.w.spend units l.debtFloor
    spent := a.spent + units
    recent := a.recent.add units nowMs l }

end Payer

structure Cooldown where
  level : Nat := 0
  lastTripMs : Int := 0
  untilMs : Int := 0

def Cooldown.levelNow (e : Cooldown) (nowMs : Int) (l : PayerLimits) : Nat :=
  let quiet := max 0 (nowMs - e.lastTripMs)
  let forgotten := if 0 < l.ladderForgetMs then quiet / l.ladderForgetMs else 0
  (max 0 (e.level - forgotten)).toNat

/-- The devices' cooldowns. A full table evicts from the share whose trips hold the most. -/
structure CooldownBook where
  entries : Dict UInt64 Cooldown
  table : FairShare UInt64

namespace CooldownBook

def level (book : CooldownBook) (device : UInt64) (nowMs : Int) (l : PayerLimits) : Nat :=
  match book.entries.lookup device with
  | none => 0
  | some e => e.levelNow nowMs l

/-- Evicts down to `tableMax`, in at most `fuel` turns, never the device that just tripped. -/
def trim (device : UInt64) : Nat → CooldownBook → CooldownBook
  | 0, book => book
  | fuel + 1, book =>
    if book.table.entries.length ≤ tableMax then book
    else
      match book.table.victimExcept device with
      | none => book
      | some victim => trim device fuel ⟨book.entries.erase victim, book.table.remove victim⟩

def step (book : CooldownBook) (device : UInt64) (share : Nat) (nowMs : Int) (l : PayerLimits) :
    Int × CooldownBook :=
  let level := min (book.level device nowMs l + 1) 5
  let cooldown := l.ladderMs.toList.getD (level - 1) 0
  let table := book.table.put device share 1
  let e : Cooldown := { level, lastTripMs := nowMs, untilMs := nowMs + cooldown }
  (cooldown, trim device table.entries.length ⟨book.entries.insert device e, table⟩)

end CooldownBook

/-- How long a tripped payer waits, and whether its device's ladder stepped. -/
structure Pause where
  waitMs : Int := 0
  ladder : Bool := false

/-- How long the bucket that a frame found empty needs for it. -/
def refillMs (a : Payer) (p : Plan) (v : Verdict) (l : PayerLimits) : Int :=
  match v with
  | .joins => a.joins.msUntil 1 (Payer.joinRates a.kind l)
  | .distinct => 60000
  | .pass | .work => a.w.msUntil (judgedW p.w l.toLimits) (a.wRates l)

def pauseFor (a : Payer) (p : Plan) (v : Verdict) (book : CooldownBook) (device : UInt64)
    (share : Nat) (nowMs : Nat) (l : PayerLimits) : Pause × CooldownBook :=
  if a.kind ≠ .full then ({ waitMs := l.socketPauseMs }, book)
  else
    let waitMs := refillMs a p v l + l.pauseSlackMs
    if ladderBudget l < a.recent.sum nowMs l then
      let stepped := book.step device share nowMs l
      ({ waitMs := max waitMs stepped.1, ladder := true }, stepped.2)
    else ({ waitMs }, book)

structure Charge where
  units : Int
  nowMs : Nat

def Payer.pay (l : PayerLimits) (a : Payer) (c : Charge) : Payer :=
  (a.refill c.nowMs l).spendW c.units c.nowMs l

def Payer.run (l : PayerLimits) (a : Payer) (charges : List Charge) : Payer :=
  charges.foldl (Payer.pay l) a

/-- Charges in the order of time from `since` on, each at most the level after refill. -/
def Honest (l : PayerLimits) : Payer → Nat → List Charge → Prop
  | _, _, [] => True
  | a, since, c :: charges =>
    since ≤ c.nowMs ∧ 0 ≤ c.units ∧ c.units ≤ (a.refill c.nowMs l).w.level ∧
      Honest l (a.pay l c) c.nowMs charges

instance Honest.decide (l : PayerLimits) : (a : Payer) → (since : Nat) → (charges : List Charge) →
    Decidable (Honest l a since charges)
  | _, _, [] => .isTrue trivial
  | a, since, c :: charges =>
    have := Honest.decide l (a.pay l c) c.nowMs charges
    inferInstanceAs (Decidable (since ≤ c.nowMs ∧ 0 ≤ c.units ∧
      c.units ≤ (a.refill c.nowMs l).w.level ∧ Honest l (a.pay l c) c.nowMs charges))

def spentSince (from_ : Int) (charges : List Charge) : Int :=
  ((charges.filter (from_ ≤ ·.nowMs)).map (·.units)).sum

/-- Limits whose amounts are not negative and whose debt floor is no credit. -/
structure PayerLimits.Sound (l : PayerLimits) : Prop where
  cap : 0 ≤ l.wFull.cap
  refill : 0 ≤ l.wFull.refillM
  debt : l.debtFloor ≤ 0

/-- An account after honest charges, the last of them at `since`. -/
structure Paid (l : PayerLimits) (a : Payer) (since : Nat) (charges : List Charge) : Prop where
  kind : a.kind = .full
  last : a.w.lastMs = since
  recent : a.recent =
    SlotWindow.run ladderSlots (charges.map fun c => (c.nowMs / slotMs l, c.units))
  ordered : charges.Pairwise (·.nowMs ≤ ·.nowMs)
  before : ∀ c ∈ charges, c.nowMs ≤ since
  /-- From any moment on, what was charged and what is left came from a full bucket and the refill
  since. -/
  covered : ∀ from_ : Int, spentSince from_ charges * micro + a.w.u ≤
    l.wFull.cap * micro + l.wFull.refillM * max 0 (since - from_)
  solvent : charges = [] ∨ 0 ≤ a.w.u

section Honest

variable {l : PayerLimits} {a : Payer} {since now : Nat} {charges : List Charge} {c : Charge}

theorem spentSince_concat {from_ : Int} : spentSince from_ (charges ++ [c]) =
    spentSince from_ charges + if from_ ≤ c.nowMs then c.units else 0 := by
  by_cases h : from_ ≤ c.nowMs <;> simp [spentSince, List.filter_append, h]

theorem spentSince_eq_zero {from_ : Int} (hbefore : ∀ c ∈ charges, c.nowMs ≤ since)
    (h : since < from_) : spentSince from_ charges = 0 := by
  have hnone : charges.filter (from_ ≤ ·.nowMs) = [] := by
    rw [List.filter_eq_nil_iff]
    intro c hc
    have := hbefore c hc
    simp only [decide_eq_true_eq]
    omega
  rw [spentSince, hnone]
  rfl

theorem Bucket.refill_le {b : Bucket} {r : Rates} {nowMs : Int} (hrate : 0 ≤ r.refillM)
    (hlast : b.lastMs ≤ nowMs) :
    (b.refill nowMs r).u ≤ b.u + (nowMs - b.lastMs) * r.refillM := by
  rw [Bucket.refill]
  split_ifs with hle
  · have : 0 ≤ (nowMs - b.lastMs) * r.refillM := mul_nonneg (by omega) hrate
    omega
  · calc TokenBucket.fill r.refillM (r.cap * micro) b.u (min (nowMs - b.lastMs) mostElapsedMs)
        ≤ b.u + min (nowMs - b.lastMs) mostElapsedMs * r.refillM := min_le_left _ _
      _ ≤ b.u + (nowMs - b.lastMs) * r.refillM := by
        gcongr
        exact min_le_left _ _

theorem Bucket.refill_le_cap {b : Bucket} {r : Rates} (nowMs : Int) (h : b.u ≤ r.cap * micro) :
    (b.refill nowMs r).u ≤ r.cap * micro := by
  rw [Bucket.refill]
  split_ifs
  · exact h
  · exact TokenBucket.fill_le_cap

theorem Bucket.refill_lastMs {b : Bucket} {r : Rates} {nowMs : Int} (h : b.lastMs ≤ nowMs) :
    (b.refill nowMs r).lastMs = nowMs := by
  rw [Bucket.refill]
  split_ifs
  · omega
  · rfl

theorem Bucket.spend_of_le_level {b : Bucket} {units floor : Int}
    (hlevel : units ≤ b.level) (hfloor : floor ≤ 0) :
    (b.spend units floor).u = b.u - units * micro ∧ 0 ≤ b.u - units * micro := by
  have hmicro : micro = 1000000 := rfl
  have hpays : units * micro ≤ b.u := by
    rw [Bucket.level, hmicro] at hlevel
    rw [hmicro]
    split_ifs at hlevel with hu <;> omega
  have hleft : floor * micro ≤ b.u - units * micro := by
    rw [hmicro] at hpays ⊢
    omega
  exact ⟨max_eq_left hleft, by omega⟩

theorem paid_begin {credit : Int} (hl : l.Sound) (hcredit : credit ≤ l.wFull.cap) :
    Paid l (Payer.begin .full credit now l) now [] where
  kind := rfl
  last := rfl
  recent := rfl
  ordered := List.Pairwise.nil
  before := fun _ h => absurd h List.not_mem_nil
  covered := fun from_ => by
    have hrefill : 0 ≤ l.wFull.refillM * max 0 (now - from_) :=
      mul_nonneg hl.refill (le_max_left _ _)
    have hstart : credit * micro ≤ l.wFull.cap * micro :=
      mul_le_mul_of_nonneg_right hcredit (by decide)
    have hu : (Payer.begin .full credit now l).w.u = credit * micro := rfl
    have hspent : spentSince from_ [] = 0 := rfl
    rw [hu, hspent]
    omega
  solvent := .inl rfl

theorem Paid.covered_refill (hl : l.Sound) (h : Paid l a since charges) (hsince : since ≤ now)
    (from_ : Int) : spentSince from_ charges * micro + (a.w.refill now l.wFull).u ≤
      l.wFull.cap * micro + l.wFull.refillM * max 0 (now - from_) := by
  by_cases hfrom : from_ ≤ since
  · have hrefill : (a.w.refill now l.wFull).u ≤ a.w.u + (now - a.w.lastMs) * l.wFull.refillM :=
      Bucket.refill_le hl.refill (by rw [h.last]; exact_mod_cast hsince)
    have hcovered := h.covered from_
    rw [h.last] at hrefill
    rw [max_eq_right (by omega)] at hcovered ⊢
    linarith
  · -- nothing was charged since, and the bucket holds its cap at most
    rw [spentSince_eq_zero h.before (by omega)]
    have hcap : a.w.u ≤ l.wFull.cap * micro := by
      have hcovered := h.covered from_
      rw [spentSince_eq_zero h.before (by omega), max_eq_left (by omega)] at hcovered
      linarith
    have hrefill : 0 ≤ l.wFull.refillM * max 0 (now - from_) :=
      mul_nonneg hl.refill (le_max_left _ _)
    have := Bucket.refill_le_cap now hcap
    linarith

/-- A charge the bucket can pay keeps the account. -/
theorem Paid.pay (hl : l.Sound) (h : Paid l a since charges) (hsince : since ≤ c.nowMs)
    (hunits : 0 ≤ c.units) (hlevel : c.units ≤ (a.refill c.nowMs l).w.level) :
    Paid l (a.pay l c) c.nowMs (charges ++ [c]) := by
  have hrates : a.wRates l = l.wFull := by rw [Payer.wRates, h.kind]
  have hlast : a.w.lastMs ≤ c.nowMs := by rw [h.last]; exact_mod_cast hsince
  have hw : (a.refill c.nowMs l).w = a.w.refill c.nowMs l.wFull := by rw [Payer.refill, hrates]
  rw [hw] at hlevel
  obtain ⟨hu, hsolvent⟩ := Bucket.spend_of_le_level hlevel hl.debt
  have hpaid : (a.pay l c).w = (a.w.refill c.nowMs l.wFull).spend c.units l.debtFloor := by
    rw [← hw]
    rfl
  refine ⟨h.kind, ?_, ?_, ?_, ?_, fun from_ => ?_, .inr ?_⟩
  · rw [hpaid]
    exact Bucket.refill_lastMs hlast
  · rw [List.map_append, List.map_singleton, SlotWindow.run_concat, ← h.recent]
    rfl
  · refine List.pairwise_append.mpr ⟨h.ordered, List.pairwise_singleton _ _, fun b hb d hd => ?_⟩
    rw [List.mem_singleton.mp hd]
    exact (h.before b hb).trans hsince
  · intro b hb
    rcases List.mem_append.mp hb with hb | hb
    · exact (h.before b hb).trans hsince
    · rw [List.mem_singleton.mp hb]
  · have hcovered := h.covered_refill hl hsince from_
    rw [hpaid, hu, spentSince_concat]
    split_ifs
    · linarith
    · have : 0 ≤ c.units * micro := mul_nonneg hunits (by decide)
      linarith
  · rw [hpaid, hu]
    exact hsolvent

theorem paid_run (hl : l.Sound) {later : List Charge} (h : Paid l a since charges)
    (hhonest : Honest l a since later) :
    ∃ since', Paid l (a.run l later) since' (charges ++ later) ∧
      (since' = since ∨ ∃ c ∈ later, c.nowMs = since') := by
  induction later generalizing a since charges with
  | nil => exact ⟨since, by simpa [Payer.run] using h, .inl rfl⟩
  | cons c later ih =>
    obtain ⟨hsince, hunits, hlevel, hlater⟩ := hhonest
    obtain ⟨since', hpaid, hlast⟩ := ih (h.pay hl hsince hunits hlevel) hlater
    refine ⟨since', by simpa [Payer.run] using hpaid, .inr ?_⟩
    rcases hlast with rfl | ⟨d, hd, hnow⟩
    · exact ⟨c, List.mem_cons_self, rfl⟩
    · exact ⟨d, List.mem_cons_of_mem c hd, hnow⟩

theorem Paid.sum_eq (h : Paid l a since charges) (hnow : since ≤ now) (hslot : 0 < slotMs l) :
    a.recent.sum now l = spentSince
      ((now / slotMs l : Nat) * slotMs l - (ladderSlots - 1 : Nat) * slotMs l) charges := by
  have hordered : (charges.map fun c => (c.nowMs / slotMs l, c.units)).Pairwise (·.1 ≤ ·.1) :=
    List.pairwise_map.mpr (h.ordered.imp fun hle => Nat.div_le_div_right hle)
  have hbefore : ∀ b ∈ charges.map fun c => (c.nowMs / slotMs l, c.units),
      b.1 ≤ now / slotMs l := by
    simp only [List.mem_map]
    rintro b ⟨c, hc, rfl⟩
    exact Nat.div_le_div_right ((h.before c hc).trans hnow)
  rw [RecentSpend.sum, h.recent, SlotWindow.sum_run hordered hbefore, spentSince, List.filter_map,
    List.map_map]
  congr 2
  refine List.filter_congr fun c _ => ?_
  have hslot' : (0 : Int) < slotMs l := by exact_mod_cast hslot
  have hdiv := Int.le_ediv_iff_mul_le (a := (now / slotMs l : Nat) - (ladderSlots - 1 : Nat))
    (b := (c.nowMs : Int)) hslot'
  rw [sub_mul] at hdiv
  simp only [Function.comp_apply, decide_eq_decide, ← hdiv]
  push_cast [ladderSlots]
  omega

theorem window_start (now : Nat) (hwindow : l.ladderWindowMs = ladderSlots * slotMs l)
    (hslot : 0 < slotMs l) :
    (now : Int) - ((now / slotMs l : Nat) * slotMs l - (ladderSlots - 1 : Nat) * slotMs l) ≤
      l.ladderWindowMs := by
  have hmod := Nat.div_add_mod' now (slotMs l)
  have hlt := Nat.mod_lt now hslot
  have hnow : (now : Int) ≤ (now / slotMs l : Nat) * slotMs l + slotMs l := by
    exact_mod_cast (by omega)
  have hslots : (ladderSlots : Int) = (ladderSlots - 1 : Nat) + 1 := by decide
  rw [hwindow, hslots]
  linarith

theorem slotMs_pos : 0 < slotMs l := by
  rw [slotMs]
  omega

/-- What the window counts never passes the budget of the ladder. -/
theorem Paid.sum_le (hl : l.Sound) (hwindow : l.ladderWindowMs = ladderSlots * slotMs l)
    (h : Paid l a since charges) (hnow : since ≤ now) : a.recent.sum now l ≤ ladderBudget l := by
  rw [h.sum_eq hnow slotMs_pos]
  set from_ : Int := (now / slotMs l : Nat) * slotMs l - (ladderSlots - 1 : Nat) * slotMs l
  have hcovered := h.covered from_
  have hpositive : 0 ≤ l.ladderWindowMs := by
    rw [hwindow]
    positivity
  have hspan : max 0 ((since : Int) - from_) ≤ l.ladderWindowMs := by
    have hstart := window_start now hwindow slotMs_pos
    have hle : (since : Int) ≤ now := by exact_mod_cast hnow
    exact max_le hpositive (by linarith)
  have hrefill : l.wFull.refillM * max 0 (since - from_) ≤ l.wFull.refillM * l.ladderWindowMs :=
    mul_le_mul_of_nonneg_left hspan hl.refill
  have hbudget : 0 ≤ l.wFull.refillM * l.ladderWindowMs := mul_nonneg hl.refill hpositive
  rw [ladderBudget, Int.tdiv_eq_ediv_of_nonneg hbudget]
  have hdiv : 0 ≤ l.wFull.refillM * l.ladderWindowMs / 1000000 :=
    Int.ediv_nonneg hbudget (by decide)
  rcases h.solvent with rfl | hsolvent
  · have hnone : spentSince from_ [] = 0 := rfl
    have := hl.cap
    omega
  · have hspent : (spentSince from_ charges - l.wFull.cap) * 1000000 ≤
        l.wFull.refillM * l.ladderWindowMs := by
      rw [show micro = 1000000 from rfl] at hcovered
      linarith
    have := (Int.le_ediv_iff_mul_le (by decide)).mpr hspent
    linarith

theorem pauseFor_of_sum_le {p : Plan} {v : Verdict} {book : CooldownBook} {device : UInt64}
    {share : Nat} (h : a.recent.sum now l ≤ ladderBudget l) :
    (pauseFor a p v book device share now l).1.ladder = false ∧
      (pauseFor a p v book device share now l).2 = book := by
  rw [pauseFor]
  split_ifs with hkind hover
  · exact ⟨rfl, rfl⟩
  · exact absurd h (not_le.mpr hover)
  · exact ⟨rfl, rfl⟩

/-- Charges that the level could pay never come to more than the ladder's budget, so that no trip
steps the ladder for them. -/
theorem honest_never_climbs (hl : l.Sound) (hwindow : l.ladderWindowMs = ladderSlots * slotMs l)
    {credit : Int} {start : Nat} (hcredit : credit ≤ l.wFull.cap)
    (hhonest : Honest l (Payer.begin .full credit start l) start charges) (hstart : start ≤ now)
    (hnow : ∀ c ∈ charges, c.nowMs ≤ now) :
    let a := (Payer.begin .full credit start l).run l charges
    a.recent.sum now l ≤ ladderBudget l ∧
      ∀ p v book device share,
        (pauseFor (a.refill now l) p v book device share now l).1.ladder = false ∧
        (pauseFor (a.refill now l) p v book device share now l).2 = book := by
  intro a
  obtain ⟨since, hpaid, hlast⟩ := paid_run hl (paid_begin hl hcredit) hhonest
  have hsince : since ≤ now := by
    rcases hlast with rfl | ⟨c, hc, rfl⟩
    · exact hstart
    · exact hnow c hc
  have hsum : a.recent.sum now l ≤ ladderBudget l := hpaid.sum_le hl hwindow hsince
  exact ⟨hsum, fun p v book device share => pauseFor_of_sum_le hsum⟩

/-- A device that spends its start at once and later what came in since. -/
theorem honest_never_climbs_spender :
    let l := PayerLimits.default
    let a := (Payer.begin .full 400000 0 l).run l [⟨400000, 0⟩, ⟨600000, 600000⟩]
    l.Sound ∧ a.recent.sum 600000 l ≤ ladderBudget l ∧
      ∀ p v book device share,
        (pauseFor (a.refill 600000 l) p v book device share 600000 l).1.ladder = false ∧
        (pauseFor (a.refill 600000 l) p v book device share 600000 l).2 = book :=
  have hsound : PayerLimits.default.Sound := ⟨by decide, by decide, by decide⟩
  ⟨hsound, honest_never_climbs hsound (by decide) (by decide) (by decide +kernel) (by decide)
    (by decide)⟩

def oddLimits (cap refillM debtFloor : Int) : PayerLimits :=
  { PayerLimits.default with wFull := ⟨cap, cap, refillM⟩, debtFloor, ladderWindowMs := 10 }

/-- Honest charges of one moment that come to more than the ladder's budget. -/
def Overspends (l : PayerLimits) (charges : List Charge) : Prop :=
  let a := Payer.begin .full l.wFull.cap 0 l
  l.ladderWindowMs = ladderSlots * slotMs l ∧ Honest l a 0 charges ∧
    ladderBudget l < (a.run l charges).recent.sum 0 l

/-- A debt floor that is a credit, a refill that takes and a cap below nothing. -/
theorem odd_limits_climb :
    Overspends (oddLimits 10 0 5) [⟨10, 0⟩, ⟨5, 0⟩] ∧
    Overspends (oddLimits 10 (-1000000) 0) [⟨10, 0⟩] ∧
    Overspends (oddLimits (-1) 0 0) [] := by
  refine ⟨⟨?_, ?_, ?_⟩, ⟨?_, ?_, ?_⟩, ⟨?_, ?_, ?_⟩⟩ <;> decide +kernel

end Honest

end Hollow.Relay
