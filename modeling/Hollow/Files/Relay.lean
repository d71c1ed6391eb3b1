import Mathlib.Data.List.MinMax
import Mathlib.Data.Prod.Lex
import Hollow.Files.Resume

/-! Relay streams of one device: how many run, how many bytes they stage, and what gives way when a
newcomer needs room. -/

namespace Hollow.Files

/-- Who a relay stream goes to, which decides what gives way when a device's streams are full. -/
inductive RelayRank where
  | guest
  | member
  | own
  deriving DecidableEq

def RelayRank.level : RelayRank → Nat
  | guest => 0
  | member => 1
  | own => 2

instance : LinearOrder RelayRank :=
  LinearOrder.lift' RelayRank.level (by intro a b h; cases a <;> cases b <;> first | rfl | cases h)

structure RelayEntry where
  seq : Nat
  id : String
  /-- The device it goes to, and that device's identity. -/
  target : String
  asker : String
  rank : RelayRank
  bytes : Nat
  /-- Its device left every room we share. -/
  stale : Bool
  deriving DecidableEq

structure RelayAsk where
  id : String
  asker : String
  rank : RelayRank
  bytes : Nat

def maxRelayStreams : Nat := 64

def maxRelayStreamsPerAsker : Nat := 16

def relayStagedBytes : Nat := 8 * (34 * 1024 * 1024)

structure RelayKept where
  seq : Nat
  asker : String
  rank : RelayRank
  bytes : Nat

def newcomer : Nat := 2 ^ 64 - 1

def RelayEntry.kept (s : RelayEntry) : RelayKept := ⟨s.seq, s.asker, s.rank, s.bytes⟩

def RelayAsk.kept (a : RelayAsk) : RelayKept := ⟨newcomer, a.asker, a.rank, a.bytes⟩

/-- What an asker holds of some streams, in streams or in bytes, with the newest of them. -/
def share (byCount : Bool) (l : List RelayKept) (asker : String) : Nat × Nat :=
  (l.filter (·.asker = asker)).foldl
    (fun s k => ((s.1 + if byCount then 1 else k.bytes) % 2 ^ 64, max s.2 k.seq)) (0, 0)

/-- The newest stream of the asker that holds the most within the lowest rank. -/
def heaviest (byCount : Bool) (rank : RelayRank) (kept : List RelayKept) : Nat :=
  let low := ((kept.map (·.rank)).min?).getD rank
  let lowest := kept.filter (·.rank = low)
  let shares := (lowest.map (·.asker)).dedup.map (share byCount lowest)
  ((shares.argmax toLex).map (·.2)).getD newcomer

def overCount (kept : List RelayKept) : Bool := maxRelayStreams < kept.length

def staged (kept : List RelayKept) : Nat := (kept.map (·.bytes)).sum % 2 ^ 64

/-- The streams still to displace from `kept`, or why the newcomer may not start. -/
def relayLoop (rank : RelayRank) :
    Nat → List RelayKept → List Nat → Except RelayAdmit (List Nat)
  | 0, _, _ => .error .busy
  | fuel + 1, kept, displaced =>
    let byCount := overCount kept
    if !byCount && (kept.length < 2 || staged kept ≤ relayStagedBytes) then .ok displaced
    else
      let newest := heaviest byCount rank kept
      if newest = newcomer then .error .busy
      else relayLoop rank fuel (kept.filter (·.seq ≠ newest)) (displaced ++ [newest])

def capped (streams : List RelayEntry) : List RelayEntry := streams.filter (·.rank ≠ .own)

/-- An older stream of the same id that its device no longer takes, if one runs. -/
def relayOlder (streams : List RelayEntry) (id : String) : Except RelayAdmit (List Nat) :=
  match streams.find? (·.id = id) with
  | some running => if running.stale then .ok [running.seq] else .error .running
  | none => .ok []

/-- The streams a new one displaces, or why it may not start. -/
def relayPlan (streams : List RelayEntry) (a : RelayAsk) : Except RelayAdmit (List Nat) :=
  match relayOlder streams a.id with
  | .error why => .error why
  | .ok displaced =>
    if a.rank = .own then .ok displaced
    else
      let running := (capped streams).filter (·.seq ∉ displaced)
      if maxRelayStreamsPerAsker ≤ (running.filter (·.asker = a.asker)).length then .error .busy
      else
        let kept := running.map RelayEntry.kept ++ [a.kept]
        relayLoop a.rank kept.length kept displaced

/-- The stream that starts, under number `seq`. -/
def RelayAsk.entry (a : RelayAsk) (target : String) (seq : Nat) : RelayEntry :=
  ⟨seq, a.id, target, a.asker, a.rank, a.bytes, false⟩

def RelayEntry.ask (s : RelayEntry) : RelayAsk := ⟨s.id, s.asker, s.rank, s.bytes⟩

end Hollow.Files
