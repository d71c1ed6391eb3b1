import Hollow.Lib.TokenBucket

/-! The relay's circuit breaker and the client's mirror of it. The relay charges every frame from
buckets on the sender's session and trips a frame its bucket cannot pay for; the client keeps a copy
of the buckets on its own clock and lets a frame go only while the copy can pay with a reserve. -/

namespace Hollow.Relay

structure Rates where
  start : Int
  cap : Int
  /-- Thousandths of a unit per second. -/
  refillM : Int

structure Limits where
  wFull : Rates
  joinsFull : Rates
  debtFloor : Int
  distinct : Int
  paceReserve : Int

def Limits.default : Limits where
  wFull := ⟨400000, 800000, 1000000⟩
  joinsFull := ⟨2500, 5000, 2000⟩
  debtFloor := -100000
  distinct := 50000
  paceReserve := 16000

def micro : Int := 1000000

def mostElapsedMs : Int := 864000000

structure Bucket where
  u : Int
  lastMs : Int

namespace Bucket

def start (level nowMs : Int) : Bucket := ⟨level * micro, nowMs⟩

def refill (b : Bucket) (nowMs : Int) (r : Rates) : Bucket :=
  if nowMs ≤ b.lastMs then b
  else
    let elapsed := min (nowMs - b.lastMs) mostElapsedMs
    { u := TokenBucket.fill r.refillM (r.cap * micro) b.u elapsed, lastMs := nowMs }

def level (b : Bucket) : Int :=
  if 0 ≤ b.u then b.u / micro else -((-b.u + micro - 1) / micro)

def spend (b : Bucket) (units floor : Int) : Bucket :=
  { b with u := TokenBucket.pay (floor * micro) b.u (units * micro) }

end Bucket

/-- The buckets of a full session. -/
structure Account where
  w : Bucket
  joins : Bucket

def Account.begin (credit nowMs : Int) (l : Limits) : Account :=
  ⟨Bucket.start credit nowMs, Bucket.start l.joinsFull.start nowMs⟩

def Account.refill (a : Account) (nowMs : Int) (l : Limits) : Account :=
  ⟨a.w.refill nowMs l.wFull, a.joins.refill nowMs l.joinsFull⟩

/-- What the relay predicts a frame costs. -/
structure Plan where
  w : Int
  join : Bool
  /-- Charged, never tripped. -/
  control : Bool
  /-- A deposit to a stranger, by the target's hash. -/
  stranger : Option UInt64

inductive Verdict where
  | pass
  | work
  | joins
  | distinct
deriving DecidableEq

/-- The counter of the strangers a payer deposited to, a sketch. -/
structure StrangerBook (σ : Type) where
  wouldReach : σ → UInt64 → Int → Int → Bool
  add : σ → UInt64 → Int → σ

def judgedW (w : Int) (l : Limits) : Int :=
  let cap := l.wFull.cap
  max 0 (min w (cap - min l.paceReserve (cap / 2)))

variable {σ : Type}

/-- A frame is judged before it is counted. -/
def judge (book : StrangerBook σ) (a : Account) (p : Plan) (nowMs : Int) (l : Limits)
    (strangers : σ) : Account × Verdict :=
  let a := a.refill nowMs l
  if p.control then (a, .pass)
  else if p.join && a.joins.level < 1 then (a, .joins)
  else if p.stranger.any (book.wouldReach strangers · nowMs l.distinct) then (a, .distinct)
  else if a.w.level - judgedW p.w l < 0 then (a, .work)
  else (a, .pass)

def charge (book : StrangerBook σ) (a : Account) (w : Int) (p : Plan) (nowMs : Int) (l : Limits)
    (strangers : σ) : Account × σ :=
  ({ w := a.w.spend w l.debtFloor, joins := if p.join then a.joins.spend 1 0 else a.joins },
    match p.stranger with
    | some key => book.add strangers key nowMs
    | none => strangers)

def wCap : Int := 800000
def wRefillPerS : Int := 1000
def joinsStart : Int := 2500
def joinsCap : Int := 5000
def joinsRefillMilliPerS : Int := 2000
def clientDebtFloor : Int := -100000
def distinctStop : Nat := 40000
def reserve : Int := 16000
def priorityReserve : Int := reserve / 2
def joinsReserve : Int := 16

def nsPerMs : Int := 1000000
def windowNs : Int := 600000 * nsPerMs

structure Cost where
  w : Int
  joins : Int

/-- One bucket's mirror. -/
@[ext]
structure Mirror where
  u : Int
  at_ : Int
  cap : Int
  refillM : Int
  floor : Int

namespace Mirror

def new (level cap refillM floor now : Int) : Mirror :=
  { u := level * micro, at_ := now, cap, refillM, floor }

/-- Whole milliseconds since the last refill: what a refill leaves over is lost. -/
def elapsedMs (m : Mirror) (now : Int) : Int := min (max (now - m.at_) 0 / nsPerMs) mostElapsedMs

def refill (m : Mirror) (now : Int) : Mirror :=
  { m with
    u := TokenBucket.fill m.refillM (m.cap * micro) m.u (m.elapsedMs now)
    at_ := max m.at_ now }

def spend (m : Mirror) (units : Int) : Mirror :=
  { m with u := TokenBucket.pay (m.floor * micro) m.u (units * micro) }

def giveBack (m : Mirror) (units : Int) : Mirror :=
  { m with u := min (m.u + units * micro) (m.cap * micro) }

/-- When the level reaches a target at the refill. -/
def reaches (m : Mirror) (target : Int) : Int :=
  let need := target * micro - m.u
  if need ≤ 0 then m.at_ else m.at_ + (need + m.refillM - 1) / m.refillM * nsPerMs

end Mirror

/-- Deposit targets seen in the last ten minutes. -/
structure Targets where
  last : Std.ExtTreeMap String Int
  order : List (Int × String)

namespace Targets

def empty : Targets := ⟨∅, []⟩

def pruneFrom (now : Int) (last : Std.ExtTreeMap String Int) : List (Int × String) → Targets
  | [] => ⟨last, []⟩
  | (at_, target) :: order =>
    if max (now - at_) 0 < windowNs then ⟨last, (at_, target) :: order⟩
    else pruneFrom now (if last[target]? = some at_ then last.erase target else last) order

def prune (t : Targets) (now : Int) : Targets := pruneFrom now t.last t.order

/-- When a target may be written: at once if it was seen lately or there is room for one more. -/
def ready (t : Targets) (target : String) (now : Int) : Targets × Option Int :=
  let t := t.prune now
  if t.last.contains target || t.last.size < distinctStop then (t, none)
  else (t, t.order.head?.map fun (at_, _) => at_ + windowNs)

def note (t : Targets) (target : String) (now : Int) : Targets :=
  ⟨t.last.insert target now, t.order ++ [(now, target)]⟩

end Targets

/-- The mirror of a session's buckets. -/
structure Pacer where
  w : Mirror
  joins : Mirror
  targets : Targets
  /-- A relay that only counts makes nothing wait. -/
  enforced : Bool

namespace Pacer

def fresh (credit : Int) (enforced : Bool) (now : Int) : Pacer where
  w := Mirror.new (max 0 (min credit wCap)) wCap (wRefillPerS * 1000) clientDebtFloor now
  joins := Mirror.new joinsStart joinsCap joinsRefillMilliPerS 0 now
  targets := Targets.empty
  enforced := enforced

def refill (p : Pacer) (now : Int) : Pacer :=
  { p with w := p.w.refill now, joins := p.joins.refill now }

def reserveFor (priority : Bool) : Int := if priority then priorityReserve else reserve

/-- The later of two moments a frame waits for, if the second is not over. -/
def later (now : Int) (found : Option Int) (t : Int) : Option Int :=
  if now < t then some (match found with | some a => max a t | none => t) else found

/-- When a frame may go, `none` for now. A price above what a full bucket holds past the reserve
waits for a full bucket. -/
def wait (p : Pacer) (cost : Cost) (target : Option String) (now : Int) (priority : Bool) :
    Pacer × Option Int :=
  if !p.enforced then (p, none)
  else
    let p := p.refill now
    let w := min cost.w (wCap - reserveFor priority)
    let found := later now none (p.w.reaches (w + reserveFor priority))
    let found :=
      if 0 < cost.joins then later now found (p.joins.reaches (cost.joins + joinsReserve))
      else found
    match target with
    | none => (p, found)
    | some target =>
      let (targets, ready) := p.targets.ready target now
      ({ p with targets }, match ready with | some t => later now found t | none => found)

/-- The frame went. -/
def spend (p : Pacer) (cost : Cost) (target : Option String) (now : Int) : Pacer :=
  let p := p.refill now
  { p with
    w := p.w.spend cost.w
    joins := p.joins.spend cost.joins
    targets := match target with | some target => p.targets.note target now | none => p.targets }

/-- Part of a price turned out above what the relay charged. -/
def refund (p : Pacer) (w : Int) : Pacer := { p with w := p.w.giveBack (max w 0) }

end Pacer

end Hollow.Relay
