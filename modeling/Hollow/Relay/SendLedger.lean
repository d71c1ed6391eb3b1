import Mathlib
import Hollow.Lib.Dict
import Hollow.Relay.FairShare

/-! The bytes a relay's sockets hold at once (`send_budget.h`): unsent buffers and inbound partial
frames, each socket charged to its own address share. Past the budget the share that holds the most
gives way, with the socket that last really made progress the longest ago. -/

namespace Hollow.Relay.SendBudget

def miB : Nat := 1024 * 1024
def minLimit : Nat := 512 * miB
def stallMs : Int := 120000
def progressBytes : Nat := 64 * 1024
def socketCap : Nat := 64 * miB
def shareDivisor : Nat := 8
def blockRecipients : Nat := 8
def shareRecipients : Nat := 64
def frameHeaderBytes : Nat := 14

structure Limits where
  /-- Fan-outs are admitted against this. -/
  limit : Nat := minLimit
  /-- No single write goes past this. -/
  hard : Nat := minLimit + minLimit / 4
  socketCap : Nat := SendBudget.socketCap
  shareCap : Nat := minLimit / shareDivisor
  blockRecipients : Nat := SendBudget.blockRecipients
  shareRecipients : Nat := SendBudget.shareRecipients
  /-- The headroom past the budget, as `limitsFor` gives it. -/
  headroom : limit ≤ hard := by decide

def limitsFor (limit : Nat) (test : Bool) : Limits :=
  let limit := max limit 1
  { limit
    hard := limit + limit / 4
    socketCap := if test then max (limit / 2) 1 else socketCap
    shareCap := if test then max (limit / 2) 1 else max (limit / shareDivisor) socketCap
    blockRecipients := if test then 2 else blockRecipients
    headroom := Nat.le_add_right _ _ }

structure Use where
  share : Nat
  out : Nat := 0
  /-- Drained since `drainFrom`. -/
  drained : Nat := 0
  drainFrom : Int
  /-- The last real drain, or when buffering began. -/
  outAt : Int
  in_ : Nat := 0
  /-- Inbound size at the last progress. -/
  inMark : Nat := 0
  /-- Messages finished as of the last sweep. -/
  inMsgs : Nat := 0
  inAt : Int
  ranked : Bool := false
  rankAt : Int := 0
  rankWeight : Nat := 0

namespace Use

def weight (u : Use) : Nat := u.out + u.in_

/-- A socket with an unsent buffer and an inbound frame is as stale as the staler of the two. -/
def progressAt (u : Use) : Int :=
  if 0 < u.out ∧ 0 < u.in_ then min u.outAt u.inAt else if 0 < u.out then u.outAt else u.inAt

/-- The unsent buffer is now `amount` bytes: drains add up only within half a window. -/
def drain (u : Use) (amount : Nat) (now : Int) : Use :=
  if amount < u.out then
    let u :=
      if stallMs / 2 ≤ now - u.drainFrom then { u with drainFrom := now, drained := 0 } else u
    let u := { u with drained := u.drained + (u.out - amount) }
    if min progressBytes (max (u.out / 2) 1) ≤ u.drained then
      { u with outAt := now, drainFrom := now, drained := 0, out := amount }
    else { u with out := amount }
  else if u.out = 0 then { u with outAt := now, drainFrom := now, drained := 0, out := amount }
  else { u with out := amount }

/-- The inbound frame's buffer now holds `held` bytes, `filled` of the frame have arrived, and the
socket has finished `messages` in all. -/
def fill (u : Use) (held filled messages : Nat) (now : Int) : Use :=
  let u :=
    if u.in_ = 0 ∨ messages ≠ u.inMsgs ∨ u.inMark + progressBytes ≤ filled then
      { u with inAt := now, inMark := filled }
    else if filled < u.inMark then { u with inMark := filled }
    else u
  { u with in_ := held, inMsgs := messages, inMark := if held = 0 then 0 else u.inMark }

end Use

/-- A socket's place in its share's victim order. -/
@[ext] structure Rank (κ : Type) where
  at_ : Int
  weight : Nat
  key : κ
deriving DecidableEq

variable {κ : Type} [LinearOrder κ]

def Rank.place (r : Rank κ) : Int ×ₗ ℕᵒᵈ ×ₗ κ :=
  toLex (r.at_, toLex (OrderDual.toDual r.weight, r.key))

instance : LinearOrder (Rank κ) :=
  LinearOrder.lift' Rank.place fun a b h => by
    have h' := congrArg (fun p => (ofLex p).2) h
    exact Rank.ext (congrArg (fun p => (ofLex p).1) h) (congrArg (fun p => (ofLex p).1) h')
      (congrArg (fun p => (ofLex p).2) h')

theorem Rank.at_le {a b : Rank κ} (h : a ≤ b) : a.at_ ≤ b.at_ :=
  Prod.Lex.monotone_fst _ _ (show a.place ≤ b.place from h)

structure Ledger (κ : Type) [LinearOrder κ] where
  limits : Limits := {}
  table : FairShare κ := {}
  uses : Dict κ Use := ∅
  /-- The victims of each share, in order. -/
  order : Nat → Finset (Rank κ) := fun _ => ∅
  doomed : List κ := []

namespace Ledger

def total (l : Ledger κ) : Nat := l.table.total

def pressed (l : Ledger κ) (extra : Nat) : Prop := l.limits.limit / 2 < l.total + extra

instance (l : Ledger κ) (extra : Nat) : Decidable (l.pressed extra) :=
  inferInstanceAs (Decidable (_ < _))

def heaviest (l : Ledger κ) : Option Nat := do l.table.shareOf (← l.table.victim)

def first (l : Ledger κ) (share : Nat) : Option κ :=
  ((l.order share).sort (· ≤ ·)).head?.map (·.key)

def unrank (l : Ledger κ) (k : κ) (u : Use) : Ledger κ :=
  let rest := (l.order u.share).erase ⟨u.rankAt, u.rankWeight, k⟩
  if u.ranked then { l with order := Function.update l.order u.share rest } else l

def rank (l : Ledger κ) (k : κ) (u : Use) : Ledger κ :=
  let l := l.unrank k u
  let u := { u with ranked := true, rankAt := u.progressAt, rankWeight := u.weight }
  let ranks := insert ⟨u.rankAt, u.rankWeight, k⟩ (l.order u.share)
  { l with order := Function.update l.order u.share ranks, uses := l.uses.insert k u }

/-- The entry for `k`, made when it begins to hold bytes. -/
def use (l : Ledger κ) (k : κ) (amount share : Nat) (now : Int) : Option Use :=
  match l.uses.lookup k with
  | some u => some u
  | none => if amount = 0 then none else some { share, drainFrom := now, outAt := now, inAt := now }

def settle (l : Ledger κ) (k : κ) (u : Use) : Ledger κ :=
  if u.weight = 0 then
    { l.unrank k u with table := l.table.remove k, uses := l.uses.erase k }
  else
    let table :=
      if l.table.contains k then l.table.reweigh k u.weight else l.table.put k u.share u.weight
    { l with table }.rank k u

def out (l : Ledger κ) (k : κ) (amount : Nat) (now : Int) (share : Nat) : Ledger κ :=
  match l.use k amount share now with
  | none => l
  | some u => l.settle k (u.drain amount now)

def in_ (l : Ledger κ) (k : κ) (held filled messages : Nat) (now : Int) (share : Nat) : Ledger κ :=
  match l.use k held share now with
  | none => l
  | some u => l.settle k (u.fill held filled messages now)

/-- The socket is gone, its buffers freed with it. -/
def forget (l : Ledger κ) (k : κ) : Ledger κ :=
  let l := match l.uses.lookup k with
    | some u => { l.unrank k u with uses := l.uses.erase k }
    | none => l
  { l with table := l.table.remove k, doomed := l.doomed.erase k }

inductive Admit
  | pass
  | trip
  | refuse
deriving DecidableEq

/-- Closes the heaviest share's least progressed sockets until `bytes` more fit, in at most `fuel`
turns; never the sender, which trips instead. -/
def admitLoop (bytes : Nat) (sender : κ) (ownShare : Nat) :
    Nat → Ledger κ → Admit × List κ × Ledger κ
  | 0, l => (.trip, [], l)
  | fuel + 1, l =>
    if l.total + bytes ≤ l.limits.limit then (.pass, [], l)
    else
      match l.heaviest with
      | none => (.trip, [], l)
      | some h =>
        match l.first h with
        | none => (.trip, [], l)
        | some v =>
          if !l.table.contains v || (h = ownShare ∧ v = sender) then (.trip, [], l)
          else
            let (verdict, closed, l) := admitLoop bytes sender ownShare fuel (l.forget v)
            (verdict, v :: closed, l)

/-- How a fan-out of `bytes` from `sender` in `ownShare` is judged, the sockets it closes, and the
ledger after it. -/
def admitFanout (l : Ledger κ) (bytes : Nat) (sender : κ) (ownShare : Nat) :
    Admit × List κ × Ledger κ :=
  if l.limits.limit < bytes then (.refuse, [], l)
  else admitLoop bytes sender ownShare (l.table.size + 1) l

/-- The budget and, under pressure, the heaviest share are under their lines. -/
def Settled (l : Ledger κ) (h : Nat) : Prop :=
  l.total ≤ l.limits.limit ∧ (¬ l.pressed 0 ∨ l.table.held h ≤ l.limits.shareCap)

instance (l : Ledger κ) (h : Nat) : Decidable (l.Settled h) :=
  inferInstanceAs (Decidable (_ ∧ _))

def overBudgetLoop : Nat → Ledger κ → List κ × Ledger κ
  | 0, l => ([], l)
  | fuel + 1, l =>
    match l.heaviest with
    | none => ([], l)
    | some h =>
      if l.Settled h then ([], l)
      else
        match l.first h with
        | none => ([], l)
        | some v =>
          if !l.table.contains v then ([], l)
          else
            let (closed, l) := overBudgetLoop fuel (l.forget v)
            (v :: closed, l)

/-- What the sweep closes to bring the budget and, under pressure, every share back under its
line. -/
def overBudget (l : Ledger κ) : List κ × Ledger κ := overBudgetLoop (l.table.size + 1) l

end Ledger

/-- Counts a fan-out's recipients per connection block and per share, and keeps what the counted
ones not yet written still need of the budget. -/
structure Recipients where
  blockMax : Nat
  shareMax : Nat
  reserved : Nat
  blocks : String → Nat := fun _ => 0
  shares : Nat → Nat := fun _ => 0

def Recipients.start (l : Limits) (reserved : Nat) : Recipients :=
  { blockMax := l.blockRecipients, shareMax := l.shareRecipients, reserved }

/-- Whether the recipient is within its block's and its share's count. -/
def Recipients.take (r : Recipients) (block : String) (share bytes : Nat) : Bool × Recipients :=
  if r.blockMax ≤ r.blocks block ∨ r.shareMax ≤ r.shares share then (false, r)
  else
    (true, { r with
      blocks := Function.update r.blocks block (r.blocks block + 1)
      shares := Function.update r.shares share (r.shares share + 1)
      reserved := r.reserved - min r.reserved bytes })

def heldBytes (copies perCopy : Nat) : Nat := copies * (perCopy + frameHeaderBytes)

def countPeer {π : Type} (reaches : π → Option (String × Nat)) (s : Recipients × Nat) (p : π) :
    Recipients × Nat :=
  match reaches p with
  | none => s
  | some (block, share) =>
    let (counted, r) := s.1.take block share 0
    (r, if counted then s.2 + 1 else s.2)

/-- The bytes a fan-out holds at once: a copy for each peer `reaches` picks, at most so many per
block and per share. -/
def predict {π : Type} (peers : List π) (perCopy : Nat) (l : Limits)
    (reaches : π → Option (String × Nat)) : Nat :=
  heldBytes (peers.foldl (countPeer reaches) (Recipients.start l 0, 0)).2 perCopy

namespace Ledger

/-- The write goes past the ceiling: for a recipient past its fan-out's count (`strict`) the budget
less what is reserved, else the hard line. -/
def pastCeiling (l : Ledger κ) (bytes : Nat) (strict : Bool) (reserved : Nat) : Bool :=
  if strict then l.limits.limit < l.total + bytes + reserved else l.limits.hard < l.total + bytes

/-- Dooms the share's least progressed sockets until the write fits its cap. -/
def doomLoop (k : κ) (bytes : Nat) : List (Rank κ) → Nat → Ledger κ → Bool × Ledger κ
  | [], live, l => (live + bytes ≤ l.limits.shareCap, l)
  | r :: ranks, live, l =>
    if live + bytes ≤ l.limits.shareCap then (true, l)
    else if r.key ∈ l.doomed then doomLoop k bytes ranks live l
    else if r.key = k then (false, l)
    else doomLoop k bytes ranks (live - min live r.weight) { l with doomed := r.key :: l.doomed }

/-- What a share holds besides its doomed sockets. -/
def live (l : Ledger κ) (share : Nat) : Nat :=
  l.doomed.foldl (fun live d =>
    match l.uses.lookup d with
    | none => live
    | some u => if u.share = share then live - min live u.weight else live) (l.table.held share)

def writeFits (l : Ledger κ) (k : κ) (buffered bytes share : Nat) (strict : Bool) (reserved : Nat) :
    Bool × Ledger κ :=
  if 0 < buffered ∧ l.limits.socketCap < buffered + bytes then (false, l)
  else if l.pastCeiling bytes strict reserved then (false, l)
  else if buffered = 0 ∨ ¬ l.pressed bytes then (true, l)
  else if k ∈ l.doomed then (false, l)
  else doomLoop k bytes ((l.order share).sort (· ≤ ·)) (l.live share) l

/-- Whether a write to recipient `k` goes out; `fanout` counts it. -/
def writeOk (l : Ledger κ) (k : κ) (buffered bytes share : Nat) (fanout : Option Recipients)
    (block : String) : Bool × Option Recipients × Ledger κ :=
  match fanout with
  | none =>
    let (fits, l) := l.writeFits k buffered bytes share false 0
    (fits, none, l)
  | some r =>
    let (counted, r) := r.take block share bytes
    let (fits, l) := l.writeFits k buffered bytes share (!counted) r.reserved
    (fits, some r, l)

end Ledger
end Hollow.Relay.SendBudget
