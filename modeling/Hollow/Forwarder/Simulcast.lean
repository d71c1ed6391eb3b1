import Mathlib

/-! One egress leg of the forwarder: which of a source's layers it forwards, and the numbers its
packets go out with. The leg keeps one offset, fixed when a layer is taken up from the packet it
forwarded last, so the numbers of successive layers overlap when that packet was a late one, or when
one from before the switch arrives after it. -/

namespace Hollow.Forwarder

/-- What the leg reads of a VP8 payload descriptor, and the rewrite of one it asks for. -/
structure Vp8 (Payload Desc Patch : Type) where
  parse : Payload → Option Desc
  startsKeyframe : Desc → Payload → Bool
  pictureId : Desc → Option (BitVec 16)
  tl0PicIdx : Desc → Option (BitVec 8)
  keyIdx : Desc → Option (BitVec 8)
  build : Desc → Option (BitVec 16) → Option (BitVec 8) → Option (BitVec 8) → Option Patch

def tsStep : BitVec 32 := 3000

-- Packets carry extended sequence numbers; the wire has their low 16 bits. The casts between `u64`
-- and `i64` are inverse to each other, so both are read as one integer.
inductive Verdict (Patch : Type) where
  | forward (seq : Int) (ts : BitVec 32) (patch : Option Patch)
  | drop
deriving DecidableEq

inductive Mode (Rid : Type) where
  | idle
  | passthrough
  | layered (current : Rid)
deriving DecidableEq

structure Packet (Rid Payload : Type) where
  rid : Option Rid
  seq : Int
  ts : BitVec 32
  payload : Payload
  isVp8 : Bool

structure LayerSelect (Rid : Type) where
  desired : Option Rid
  mode : Mode Rid := .idle
  seqOff : Int := 0
  tsOff : BitVec 32 := 0
  pidOff : BitVec 16 := 0
  tl0Off : BitVec 8 := 0
  keyOff : BitVec 8 := 0
  lastOutSeq : Option Int := none
  lastOutTs : BitVec 32 := 0
  lastOutPid : Option (BitVec 16) := none
  lastOutTl0 : Option (BitVec 8) := none
  lastOutKey : Option (BitVec 8) := none
  switched : Bool := false

variable {Rid Payload Desc Patch : Type} [DecidableEq Rid]

namespace LayerSelect

variable (v : Vp8 Payload Desc Patch) (s : LayerSelect Rid)

def setDesired (desired : Option Rid) : LayerSelect Rid := { s with desired }

def current : Option Rid :=
  match s.mode with
  | .layered current => some current
  | _ => none

omit [DecidableEq Rid] in
def forward (p : Packet Rid Payload) : LayerSelect Rid × Verdict Patch :=
  let outSeq := p.seq + s.seqOff
  let outTs := p.ts + s.tsOff
  let s := { s with lastOutSeq := some outSeq, lastOutTs := outTs }
  if p.isVp8 && s.current.isSome then
    match v.parse p.payload with
    | some desc =>
      let pid := (v.pictureId desc).map fun pid => (pid + s.pidOff) &&& 0x7FFF
      let tl0 := (v.tl0PicIdx desc).map (· + s.tl0Off)
      let key := (v.keyIdx desc).map fun key => (key + s.keyOff) &&& 0x1F
      let s := { s with
        lastOutPid := pid.or s.lastOutPid
        lastOutTl0 := tl0.or s.lastOutTl0
        lastOutKey := key.or s.lastOutKey }
      let patch := if s.switched then v.build desc s.lastOutPid s.lastOutTl0 s.lastOutKey else none
      (s, .forward outSeq outTs patch)
    | none => (s, .forward outSeq outTs none)
  else (s, .forward outSeq outTs none)

/-- The offsets that carry on from the last packet forwarded. -/
def switchTo (r : Rid) (desc : Desc) (p : Packet Rid Payload) : LayerSelect Rid :=
  { s with
    seqOff := (s.lastOutSeq.map fun last => last + 1 - p.seq).getD 0
    tsOff := (s.lastOutSeq.map fun _ => s.lastOutTs + tsStep - p.ts).getD 0
    pidOff := match v.pictureId desc, s.lastOutPid with
      | some pid, some last => (last + 1 - pid) &&& 0x7FFF
      | _, _ => s.pidOff
    tl0Off := match v.tl0PicIdx desc, s.lastOutTl0 with
      | some tl0, some last => last + 1 - tl0
      | _, _ => s.tl0Off
    keyOff := match v.keyIdx desc, s.lastOutKey with
      | some key, some last => (last + 1 - key) &&& 0x1F
      | _, _ => s.keyOff
    switched := true
    mode := .layered r }

def onPacket (p : Packet Rid Payload) : LayerSelect Rid × Verdict Patch :=
  match s.mode, p.rid with
  | .idle, none => { s with mode := .passthrough }.forward v p
  | .passthrough, none => s.forward v p
  | .idle, some r =>
    -- any other waits for the layer we want
    if s.desired.all (· = r) then { s with mode := .layered r }.forward v p else (s, .drop)
  | .passthrough, some r => { s with mode := .layered r }.forward v p
  | .layered _, none => (s, .drop)
  | .layered current, some r =>
    if r = current then s.forward v p
    else if s.desired = some r ∧ p.isVp8 then
      match v.parse p.payload with
      | none => (s, .drop)
      | some desc =>
        if v.startsKeyframe desc p.payload then (s.switchTo v r desc p).forward v p
        else (s, .drop)
    else (s, .drop)

end LayerSelect

/-- What a leg makes of a packet: nothing, one more of the stream it forwards, the first of a stream
taken up as it is, or the first of a layer switched to. -/
inductive Action where
  | drops
  | continues
  | adopts
  | switches
deriving DecidableEq

/-- The mode in which packets with that layer id, or with none, are forwarded. -/
def Mode.of : Option Rid → Mode Rid
  | none => .passthrough
  | some r => .layered r

def Mode.stream : Mode Rid → Option (Option Rid)
  | .idle => none
  | .passthrough => some none
  | .layered r => some (some r)

omit [DecidableEq Rid] in
@[simp] theorem Mode.stream_of (rid : Option Rid) : (Mode.of rid).stream = some rid := by
  cases rid <;> rfl

namespace LayerSelect

variable (v : Vp8 Payload Desc Patch) (s : LayerSelect Rid) (p : Packet Rid Payload)

def StartsDesired (desc : Desc) : Prop :=
  p.rid = s.desired ∧ p.isVp8 ∧ v.parse p.payload = some desc ∧ v.startsKeyframe desc p.payload

def action : Action :=
  match s.mode, p.rid with
  | .idle, none => .adopts
  | .passthrough, none => .continues
  | .idle, some r => if s.desired.all (· = r) then .adopts else .drops
  | .passthrough, some _ => .adopts
  | .layered _, none => .drops
  | .layered current, some r =>
    if r = current then .continues
    else if s.desired = some r ∧ p.isVp8 then
      match v.parse p.payload with
      | none => .drops
      | some desc => if v.startsKeyframe desc p.payload then .switches else .drops
    else .drops

inductive Takes (t : LayerSelect Rid × Verdict Patch) : Prop
  | drops (haction : s.action v p = .drops) (hstream : s.mode.stream ≠ some p.rid)
      (hstep : t = (s, .drop))
  | continues (haction : s.action v p = .continues) (hstream : s.mode.stream = some p.rid)
      (hstep : t = s.forward v p)
  | adopts (haction : s.action v p = .adopts) (hcurrent : s.current = none)
      (hstep : t = { s with mode := .of p.rid }.forward v p)
  | switches (r : Rid) (desc : Desc) (haction : s.action v p = .switches)
      (hcurrent : s.current.isSome) (hrid : p.rid = some r) (hkey : s.StartsDesired v p desc)
      (hstep : t = (s.switchTo v r desc p).forward v p)

variable {v s p}

theorem takes_onPacket : s.Takes v p (s.onPacket v p) := by
  obtain ⟨rid, seq, ts, payload, isVp8⟩ := p
  cases hmode : s.mode with
  | idle =>
    cases rid with
    | none =>
      exact .adopts (by simp [action, hmode]) (by simp [current, hmode])
        (by simp [onPacket, hmode, Mode.of])
    | some r =>
      by_cases hwanted : s.desired.all (· = r)
      · exact .adopts (by simp [action, hmode, hwanted]) (by simp [current, hmode])
          (by simp [onPacket, hmode, hwanted, Mode.of])
      · exact .drops (by simp [action, hmode, hwanted]) (by simp [Mode.stream, hmode])
          (by simp [onPacket, hmode, hwanted])
  | passthrough =>
    cases rid with
    | none =>
      exact .continues (by simp [action, hmode]) (by simp [Mode.stream, hmode])
        (by simp [onPacket, hmode])
    | some r =>
      exact .adopts (by simp [action, hmode]) (by simp [current, hmode])
        (by simp [onPacket, hmode, Mode.of])
  | layered c =>
    cases rid with
    | none =>
      exact .drops (by simp [action, hmode]) (by simp [Mode.stream, hmode])
        (by simp [onPacket, hmode])
    | some r =>
      by_cases hsame : r = c
      · exact .continues (by simp [action, hmode, hsame]) (by simp [Mode.stream, hmode, hsame])
          (by simp [onPacket, hmode, hsame])
      · have hstream : s.mode.stream ≠ some (some r) := by
          simpa [Mode.stream, hmode] using fun heq => hsame heq.symm
        by_cases hwanted : s.desired = some r ∧ isVp8
        · cases hparse : v.parse payload with
          | none =>
            exact .drops (by simp [action, hmode, hsame, hwanted, hparse]) hstream
              (by simp [onPacket, hmode, hsame, hwanted, hparse])
          | some desc =>
            by_cases hkey : v.startsKeyframe desc payload
            · exact .switches r desc (by simp [action, hmode, hsame, hwanted, hparse, hkey])
                (by simp [current, hmode]) rfl ⟨hwanted.1.symm, hwanted.2, hparse, hkey⟩
                (by simp [onPacket, hmode, hsame, hwanted, hparse, hkey])
            · exact .drops (by simp [action, hmode, hsame, hwanted, hparse, hkey]) hstream
                (by simp [onPacket, hmode, hsame, hwanted, hparse, hkey])
        · exact .drops (by simp only [action, hmode, hsame, hwanted, if_false]) hstream
            (by simp only [onPacket, hmode, hsame, hwanted, if_false])

omit [DecidableEq Rid] in
theorem forward_fields : (s.forward v p).1.mode = s.mode ∧ (s.forward v p).1.desired = s.desired ∧
    (s.forward v p).1.seqOff = s.seqOff ∧ (s.forward v p).1.tsOff = s.tsOff ∧
    (s.forward v p).1.lastOutSeq = some (p.seq + s.seqOff) ∧
    ∃ patch, (s.forward v p).2 = .forward (p.seq + s.seqOff) (p.ts + s.tsOff) patch := by
  unfold forward
  dsimp only
  split
  · split <;> exact ⟨rfl, rfl, rfl, rfl, rfl, _, rfl⟩
  · exact ⟨rfl, rfl, rfl, rfl, rfl, _, rfl⟩

end LayerSelect

open LayerSelect

inductive Event (Rid Payload : Type) where
  | packet (p : Packet Rid Payload)
  | setDesired (desired : Option Rid)

def keys : List (Event Rid Payload) → List (Option Rid × Int)
  | [] => []
  | .packet p :: events => (p.rid, p.seq) :: keys events
  | .setDesired _ :: events => keys events

/-- A leg and what its run so far has come to. -/
structure Leg (Rid : Type) where
  select : LayerSelect Rid
  /-- The numbers packets went out with, the newest first. -/
  sent : List Int := []
  /-- Those of them sent before the stream forwarded now was taken up. -/
  before : List Int := []

namespace Leg

variable (v : Vp8 Payload Desc Patch) (leg : Leg Rid)

def step : Event Rid Payload → Leg Rid
  | .setDesired desired => { leg with select := leg.select.setDesired desired }
  | .packet p =>
    { select := (leg.select.onPacket v p).1
      sent := match (leg.select.onPacket v p).2 with
        | .forward seq _ _ => seq :: leg.sent
        | .drop => leg.sent
      before := match leg.select.action v p with
        | .adopts | .switches => leg.sent
        | .drops | .continues => leg.before }

def run (events : List (Event Rid Payload)) : Leg Rid := events.foldl (step v) leg

/-- No packet of the stream falls back into the numbers sent before it was taken up, a layer is
switched to only when the packet sent last has the highest number, and a stream taken up as it is
numbers on. -/
def Orderly : Event Rid Payload → Prop
  | .setDesired _ => True
  | .packet p => match leg.select.action v p with
    | .drops => True
    | .continues => ∀ n ∈ leg.before, n < p.seq + leg.select.seqOff
    | .adopts => ∀ n ∈ leg.sent, n < p.seq
    | .switches => ∀ n ∈ leg.sent, ∀ last, leg.select.lastOutSeq = some last → n ≤ last

def AllOrderly (leg : Leg Rid) : List (Event Rid Payload) → Prop
  | [] => True
  | event :: events => leg.Orderly v event ∧ AllOrderly (leg.step v event) events

/-- The packet goes out, as one of the stream the leg forwards then. -/
structure Sends (p : Packet Rid Payload) (leg' : Leg Rid) : Prop where
  stream : leg'.select.mode.stream = some p.rid
  last : leg'.select.lastOutSeq = some (p.seq + leg'.select.seqOff)
  sent : leg'.sent = (p.seq + leg'.select.seqOff) :: leg.sent

inductive Steps (p : Packet Rid Payload) (leg' : Leg Rid) : Prop
  | drops (haction : leg.select.action v p = .drops) (hstream : leg.select.mode.stream ≠ some p.rid)
      (hstep : leg' = leg)
  | continues (haction : leg.select.action v p = .continues)
      (hmode : leg'.select.mode = leg.select.mode) (hoff : leg'.select.seqOff = leg.select.seqOff)
      (hbefore : leg'.before = leg.before) (hsends : leg.Sends p leg')
  | adopts (haction : leg.select.action v p = .adopts) (hcurrent : leg.select.current = none)
      (hoff : leg'.select.seqOff = leg.select.seqOff) (hbefore : leg'.before = leg.sent)
      (hsends : leg.Sends p leg')
  | switches (haction : leg.select.action v p = .switches) (hcurrent : leg.select.current.isSome)
      (hcurrent' : leg'.select.current ≠ none) (hoff : leg'.select.seqOff =
        (leg.select.lastOutSeq.map fun last => last + 1 - p.seq).getD 0)
      (hbefore : leg'.before = leg.sent) (hsends : leg.Sends p leg')

variable {v leg}

theorem sends_of_forward {s : LayerSelect Rid} {p : Packet Rid Payload}
    (hstep : leg.select.onPacket v p = s.forward v p) (hstream : s.mode.stream = some p.rid) :
    (leg.step v (.packet p)).select.mode = s.mode ∧
      (leg.step v (.packet p)).select.seqOff = s.seqOff ∧ leg.Sends p (leg.step v (.packet p)) := by
  obtain ⟨hmode, -, hoff, -, hlast, patch, hverdict⟩ :=
    forward_fields (v := v) (s := s) (p := p)
  have hselect : (leg.step v (.packet p)).select = (s.forward v p).1 := congrArg Prod.fst hstep
  rw [hselect, hmode, hoff]
  refine ⟨rfl, rfl, by rw [hselect, hmode, hstream], by rw [hselect, hlast, hoff], ?_⟩
  rw [hselect, hoff]
  simp [step, hstep, hverdict]

theorem steps_packet (p : Packet Rid Payload) : leg.Steps v p (leg.step v (.packet p)) := by
  have htakes : leg.select.Takes v p (leg.select.onPacket v p) := takes_onPacket
  cases htakes with
  | drops haction hstream hstep => exact .drops haction hstream (by simp [step, haction, hstep])
  | continues haction hstream hstep =>
    obtain ⟨hmode, hoff, hsends⟩ := sends_of_forward hstep hstream
    exact .continues haction hmode hoff (by simp [step, haction]) hsends
  | adopts haction hcurrent hstep =>
    obtain ⟨-, hoff, hsends⟩ := sends_of_forward hstep (Mode.stream_of p.rid)
    exact .adopts haction hcurrent hoff (by simp [step, haction]) hsends
  | switches r desc haction hcurrent hrid hkey hstep =>
    obtain ⟨hmode, hoff, hsends⟩ := sends_of_forward hstep (hrid ▸ rfl)
    refine .switches haction hcurrent (fun hnone => ?_) hoff (by simp [step, haction]) hsends
    rw [current, hmode] at hnone
    cases hnone

/-- Every number sent is from before the stream was taken up, or is that of one of its packets. -/
structure Numbered (leg : Leg Rid) (seen : List (Option Rid × Int)) : Prop where
  nodup : leg.sent.Nodup
  source : ∀ n ∈ leg.sent, n ∈ leg.before ∨
    ∃ rid s, leg.select.mode.stream = some rid ∧ (rid, s) ∈ seen ∧ n = s + leg.select.seqOff
  unshifted : leg.select.current = none → leg.select.seqOff = 0
  last : ∀ n, leg.select.lastOutSeq = some n → n ∈ leg.sent
  started : leg.select.current.isSome → leg.select.lastOutSeq.isSome

omit [DecidableEq Rid] in
theorem numbered_new (desired : Option Rid) : ({ select := { desired } } : Leg Rid).Numbered [] :=
  ⟨List.nodup_nil, by simp, fun _ => rfl, by simp, by simp [current]⟩

section Packet

variable {seen : List (Option Rid × Int)} {leg' : Leg Rid} {p : Packet Rid Payload}
  (h : leg.Numbered seen)
include h

omit [DecidableEq Rid] in
theorem Numbered.sends (hsends : leg.Sends p leg')
    (hfree : p.seq + leg'.select.seqOff ∉ leg.sent)
    (hsource : ∀ n ∈ leg.sent, n ∈ leg'.before ∨ ∃ rid s,
      leg'.select.mode.stream = some rid ∧ (rid, s) ∈ seen ∧ n = s + leg'.select.seqOff)
    (hunshifted : leg'.select.current = none → leg'.select.seqOff = 0) :
    leg'.Numbered ((p.rid, p.seq) :: seen) := by
  refine ⟨?_, fun n hn => ?_, hunshifted, fun n hn => ?_, fun _ => by simp [hsends.last]⟩
  · rw [hsends.sent]
    exact List.nodup_cons.2 ⟨hfree, h.nodup⟩
  · rw [hsends.sent, List.mem_cons] at hn
    rcases hn with rfl | hn
    · exact .inr ⟨p.rid, p.seq, hsends.stream, List.mem_cons_self, rfl⟩
    · refine (hsource n hn).imp id ?_
      rintro ⟨rid, s, hrid, hseen, heq⟩
      exact ⟨rid, s, hrid, List.mem_cons_of_mem _ hseen, heq⟩
  · rw [hsends.last] at hn
    rw [hsends.sent, Option.some.inj hn]
    exact List.mem_cons_self

end Packet

theorem Numbered.step {seen : List (Option Rid × Int)} (h : leg.Numbered seen)
    {p : Packet Rid Payload} (horderly : leg.Orderly v (.packet p))
    (hfresh : (p.rid, p.seq) ∉ seen) :
    (leg.step v (.packet p)).Numbered ((p.rid, p.seq) :: seen) := by
  have hsteps : leg.Steps v p (leg.step v (.packet p)) := steps_packet p
  rw [Orderly] at horderly
  cases hsteps with
  | drops haction hstream hstep =>
    rw [hstep]
    refine ⟨h.nodup, fun n hn => (h.source n hn).imp id ?_, h.unshifted, h.last, h.started⟩
    rintro ⟨rid, s, hrid, hseen, heq⟩
    exact ⟨rid, s, hrid, List.mem_cons_of_mem _ hseen, heq⟩
  | continues haction hmode hoff hbefore hsends =>
    rw [haction] at horderly
    refine h.sends hsends (fun hmem => ?_) ?_ fun hnone => ?_
    · rw [hoff] at hmem
      rcases h.source _ hmem with hold | ⟨rid, s, hrid, hseen, heq⟩
      · exact (horderly _ hold).false
      · rw [← hmode, hsends.stream] at hrid
        obtain rfl : p.rid = rid := Option.some.inj hrid
        obtain rfl : s = p.seq := by omega
        exact hfresh hseen
    · rw [hbefore, hoff, hmode]
      exact h.source
    · rw [hoff]
      exact h.unshifted (by rwa [current, hmode] at hnone)
  | adopts haction hcurrent hoff hbefore hsends =>
    rw [haction] at horderly
    have hzero := hoff.trans (h.unshifted hcurrent)
    refine h.sends hsends (fun hmem => ?_) (fun n hn => .inl (hbefore ▸ hn)) fun _ => hzero
    have := horderly _ hmem
    omega
  | switches haction hcurrent hcurrent' hoff hbefore hsends =>
    rw [haction] at horderly
    obtain ⟨last, hlast⟩ := Option.isSome_iff_exists.1 (h.started hcurrent)
    rw [hlast, Option.map_some, Option.getD_some] at hoff
    refine h.sends hsends (fun hmem => ?_) (fun n hn => .inl (hbefore ▸ hn))
      fun hnone => absurd hnone hcurrent'
    have := horderly _ hmem last hlast
    omega

theorem Numbered.run {seen : List (Option Rid × Int)} {events : List (Event Rid Payload)}
    (h : leg.Numbered seen) (horderly : leg.AllOrderly v events) (hnodup : (keys events).Nodup)
    (hnew : ∀ key ∈ keys events, key ∉ seen) : ∃ seen', (leg.run v events).Numbered seen' := by
  induction events generalizing leg seen with
  | nil => exact ⟨seen, h⟩
  | cons event events ih =>
    obtain ⟨hfirst, hrest⟩ := horderly
    cases event with
    | setDesired desired =>
      exact ih ⟨h.nodup, h.source, h.unshifted, h.last, h.started⟩ hrest hnodup hnew
    | packet p =>
      obtain ⟨hp, hnodup⟩ := List.nodup_cons.1 hnodup
      refine ih (h.step hfirst (hnew _ List.mem_cons_self)) hrest hnodup fun key hkey => ?_
      rw [List.mem_cons, not_or]
      refine ⟨fun heq => hp (heq ▸ hkey), hnew key (List.mem_cons_of_mem _ hkey)⟩

/-- Half of the 16 bits a number has on the wire. -/
def halfSpace : Int := 32768

/-- Newer as numbers of 16 bits are compared: by less than half the space. -/
def Newer (n m : Int) : Prop := m < n ∧ n < m + halfSpace

/-- Each layer's packets arrive in order, by the newest number of each so far. -/
def InOrder (newest : Option Rid → Option Int) : List (Event Rid Payload) → Prop
  | [] => True
  | .setDesired _ :: events => InOrder newest events
  | .packet p :: events =>
    (∀ m, newest p.rid = some m → Newer p.seq m) ∧
      InOrder (Function.update newest p.rid (some p.seq)) events

/-- A stream taken up as it is numbers on from what was sent. -/
def NumbersOn (v : Vp8 Payload Desc Patch) (leg : Leg Rid) : Event Rid Payload → Prop
  | .setDesired _ => True
  | .packet p => leg.select.action v p = .adopts →
    ∀ n, leg.select.lastOutSeq = some n → Newer p.seq n

def AllNumberOn (v : Vp8 Payload Desc Patch) (leg : Leg Rid) : List (Event Rid Payload) → Prop
  | [] => True
  | event :: events => leg.NumbersOn v event ∧ AllNumberOn v (leg.step v event) events

/-- The numbers sent rise, and the last is that of the newest packet of the stream. -/
structure Rising (leg : Leg Rid) (newest : Option Rid → Option Int) : Prop where
  chain : leg.sent.IsChain Newer
  last : leg.select.lastOutSeq = leg.sent.head?
  newest : ∀ rid n, leg.select.mode.stream = some rid → leg.select.lastOutSeq = some n →
    newest rid = some (n - leg.select.seqOff)
  unshifted : leg.select.current = none → leg.select.seqOff = 0
  started : leg.select.current.isSome → leg.select.lastOutSeq.isSome

omit [DecidableEq Rid] in
theorem rising_new (desired : Option Rid) :
    ({ select := { desired } } : Leg Rid).Rising fun _ => none :=
  ⟨.nil, rfl, by simp, fun _ => rfl, by simp [current]⟩

section Packet

variable {newest : Option Rid → Option Int} {leg' : Leg Rid} {p : Packet Rid Payload}
  (h : leg.Rising newest)
include h

theorem Rising.sends (hsends : leg.Sends p leg')
    (hnewer : ∀ n, leg.select.lastOutSeq = some n → Newer (p.seq + leg'.select.seqOff) n)
    (hunshifted : leg'.select.current = none → leg'.select.seqOff = 0) :
    leg'.Rising (Function.update newest p.rid (some p.seq)) := by
  refine ⟨?_, by rw [hsends.last, hsends.sent, List.head?_cons], fun rid n hrid hn => ?_,
    hunshifted, fun _ => by simp [hsends.last]⟩
  · rw [hsends.sent]
    cases hold : leg.sent with
    | nil => exact .singleton _
    | cons m rest =>
      have hm : leg.select.lastOutSeq = some m := by rw [h.last, hold, List.head?_cons]
      exact .cons_cons (hnewer m hm) (hold ▸ h.chain)
  · obtain rfl : rid = p.rid := Option.some.inj (hrid.symm.trans hsends.stream)
    rw [hsends.last, Option.some.injEq] at hn
    rw [Function.update_self, ← hn, add_sub_cancel_right]

theorem Rising.step (hinorder : ∀ m, newest p.rid = some m → Newer p.seq m)
    (hon : leg.NumbersOn v (.packet p)) :
    (leg.step v (.packet p)).Rising (Function.update newest p.rid (some p.seq)) := by
  have hsteps : leg.Steps v p (leg.step v (.packet p)) := steps_packet p
  cases hsteps with
  | drops haction hstream hstep =>
    rw [hstep]
    refine ⟨h.chain, h.last, fun rid n hrid hn => ?_, h.unshifted, h.started⟩
    have hne : rid ≠ p.rid := fun heq => hstream (heq ▸ hrid)
    rw [Function.update_of_ne hne]
    exact h.newest rid n hrid hn
  | continues haction hmode hoff hbefore hsends =>
    refine h.sends hsends (fun n hn => ?_) fun hnone => ?_
    · have hnewer := hinorder _ (h.newest p.rid n (hmode ▸ hsends.stream) hn)
      rw [Newer] at hnewer ⊢
      omega
    · rw [hoff]
      exact h.unshifted (by rwa [current, hmode] at hnone)
  | adopts haction hcurrent hoff hbefore hsends =>
    have hzero := hoff.trans (h.unshifted hcurrent)
    refine h.sends hsends (fun n hn => ?_) fun _ => hzero
    have hnewer := hon haction n hn
    rw [Newer] at hnewer ⊢
    omega
  | switches haction hcurrent hcurrent' hoff hbefore hsends =>
    obtain ⟨last, hlast⟩ := Option.isSome_iff_exists.1 (h.started hcurrent)
    rw [hlast, Option.map_some, Option.getD_some] at hoff
    refine h.sends hsends (fun n hn => ?_) fun hnone => absurd hnone hcurrent'
    rw [hlast, Option.some.injEq] at hn
    rw [Newer, halfSpace]
    omega

end Packet

theorem Rising.run {newest : Option Rid → Option Int} {events : List (Event Rid Payload)}
    (h : leg.Rising newest) (hinorder : InOrder newest events) (hon : leg.AllNumberOn v events) :
    ∃ newest', (leg.run v events).Rising newest' := by
  induction events generalizing leg newest with
  | nil => exact ⟨newest, h⟩
  | cons event events ih =>
    obtain ⟨hfirst, hrest⟩ := hon
    cases event with
    | setDesired desired =>
      have hnext : (leg.step v (.setDesired desired)).Rising newest :=
        ⟨h.chain, h.last, h.newest, h.unshifted, h.started⟩
      exact ih hnext hinorder hrest
    | packet p => exact ih (h.step hinorder.1 hfirst) hinorder.2 hrest

omit [DecidableEq Rid] in
theorem Rising.sorted {newest : Option Rid → Option Int} (h : leg.Rising newest) :
    leg.sent.Pairwise (· > ·) :=
  (h.chain.imp fun _ _ hnewer => hnewer.1).pairwise

end Leg

def verdicts (v : Vp8 Payload Desc Patch) (s : LayerSelect Rid) :
    List (Event Rid Payload) → List (Verdict Patch)
  | [] => []
  | .setDesired desired :: events => verdicts v (s.setDesired desired) events
  | .packet p :: events => (s.onPacket v p).2 :: verdicts v (s.onPacket v p).1 events

def unchanged : List (Event Rid Payload) → List (Verdict Patch)
  | [] => []
  | .setDesired _ :: events => unchanged events
  | .packet p :: events => .forward p.seq p.ts none :: unchanged events

theorem verdicts_without_layers {v : Vp8 Payload Desc Patch} {s : LayerSelect Rid}
    {events : List (Event Rid Payload)} (hcurrent : s.current = none) (hseq : s.seqOff = 0)
    (hts : s.tsOff = 0) (hrids : ∀ p, .packet p ∈ events → p.rid = none) :
    verdicts v s events = unchanged events := by
  induction events generalizing s with
  | nil => rfl
  | cons event events ih =>
    have hrest : ∀ p, .packet p ∈ events → p.rid = none := fun p hp =>
      hrids p (List.mem_cons_of_mem _ hp)
    cases event with
    | setDesired desired => exact ih (s := s.setDesired desired) hcurrent hseq hts hrest
    | packet p =>
      have hrid := hrids p List.mem_cons_self
      have hstep : s.onPacket v p = ({ s with
          mode := .passthrough, lastOutSeq := some p.seq, lastOutTs := p.ts },
          .forward p.seq p.ts none) := by
        cases hmode : s.mode <;>
          simp_all [onPacket, LayerSelect.forward, current]
      rw [verdicts, unchanged, hstep]
      congr 1
      exact ih rfl hseq hts hrest

theorem startsDesired_of_current_ne {v : Vp8 Payload Desc Patch} {s : LayerSelect Rid}
    {p : Packet Rid Payload} {c r : Rid} (hc : s.current = some c)
    (hr : (s.onPacket v p).1.current = some r) (hne : r ≠ c) :
    p.rid = some r ∧ ∃ desc, s.StartsDesired v p desc := by
  have htakes : s.Takes v p (s.onPacket v p) := takes_onPacket
  cases htakes with
  | drops _ _ hstep =>
    rw [hstep] at hr
    exact absurd (Option.some.inj (hr.symm.trans hc)) hne
  | continues _ _ hstep =>
    have hmode := (forward_fields (v := v) (s := s) (p := p)).1
    rw [hstep, current, hmode] at hr
    exact absurd (Option.some.inj (hr.symm.trans hc)) hne
  | adopts _ hcurrent => cases hcurrent.symm.trans hc
  | switches r' desc _ _ hrid hkey hstep =>
    have hmode := (forward_fields (v := v) (s := s.switchTo v r' desc p) (p := p)).1
    rw [hstep, current, hmode] at hr
    obtain rfl : r' = r := Option.some.inj hr
    exact ⟨hrid, desc, hkey⟩

theorem Leg.Newer.wire {n m : Int} (h : Leg.Newer n m) :
    0 < (n - m) % 65536 ∧ (n - m) % 65536 < 32768 := by
  rw [Leg.Newer, Leg.halfSpace] at h
  omega

/-- What a run of a leg from its start keeps, under the conditions that its numbering asks for. -/
theorem one_clean_stream (v : Vp8 Payload Desc Patch) (desired : Option Rid)
    (events : List (Event Rid Payload)) :
    ((keys events).Nodup → Leg.AllOrderly v { select := { desired } } events →
      (Leg.run v { select := { desired } } events).sent.Nodup) ∧
    (Leg.InOrder (fun _ => none) events → Leg.AllNumberOn v { select := { desired } } events →
      (Leg.run v { select := { desired } } events).sent.Pairwise (· > ·) ∧
      (Leg.run v { select := { desired } } events).sent.IsChain fun n m =>
        0 < (n - m) % 65536 ∧ (n - m) % 65536 < 32768) ∧
    (∀ (s : LayerSelect Rid) (p : Packet Rid Payload) (c r : Rid), s.current = some c →
      (s.onPacket v p).1.current = some r → r ≠ c → p.rid = some r ∧
        ∃ desc, s.StartsDesired v p desc) ∧
    ((∀ p, .packet p ∈ events → p.rid = none) →
      verdicts v { desired } events = unchanged events) := by
  refine ⟨fun hnodup horderly => ?_, fun hinorder hon => ?_, fun s p c r hc hr hne => ?_,
    fun hrids => ?_⟩
  · obtain ⟨seen, h⟩ := (Leg.numbered_new desired).run horderly hnodup (by simp)
    exact h.nodup
  · obtain ⟨newest, h⟩ := (Leg.rising_new desired).run hinorder hon
    exact ⟨h.sorted, h.chain.imp fun _ _ hnewer => hnewer.wire⟩
  · exact startsDesired_of_current_ne hc hr hne
  · exact verdicts_without_layers rfl rfl rfl hrids

def keyframes : Vp8 Unit Unit Unit where
  parse := some
  startsKeyframe _ _ := true
  pictureId _ := none
  tl0PicIdx _ := none
  keyIdx _ := none
  build _ _ _ _ := none

def samplePacket (rid : Option Bool) (seq : Int) : Event Bool Unit :=
  .packet { rid, seq, ts := 0, payload := (), isVp8 := true }

/-- A late packet of the first layer, a switch in order, the packet it is made at, and a source
without layers. -/
theorem one_clean_stream_switch :
    (Leg.run keyframes { select := { desired := some true } }
      [samplePacket (some true) 10, samplePacket (some true) 9, samplePacket (some true) 11,
        .setDesired (some false), samplePacket (some false) 900,
        samplePacket (some false) 902]).sent.Nodup ∧
    (Leg.run keyframes { select := { desired := some true } }
      [samplePacket (some true) 10, .setDesired (some false), samplePacket (some false) 900,
        samplePacket (some false) 902]).sent.Pairwise (· > ·) ∧
    (∃ desc, StartsDesired keyframes { desired := some false, mode := .layered true }
      ⟨some false, 900, 0, (), true⟩ desc) ∧
    verdicts keyframes { desired := some true } [samplePacket none 5, samplePacket none 4] =
      [.forward 5 0 none, .forward 4 0 none] := by
  refine ⟨(one_clean_stream keyframes (some true) _).1 (by decide) ?_,
    ((one_clean_stream keyframes (some true) _).2.1 ?_ ?_).1,
    ((one_clean_stream keyframes (some true) []).2.2.1 _ _ true false rfl rfl (by decide)).2,
    (one_clean_stream keyframes (some true) _).2.2.2 ?_⟩
  · refine ⟨List.forall_mem_nil _, List.forall_mem_nil _, List.forall_mem_nil _, trivial, ?_, ?_,
      trivial⟩
    · show ∀ n ∈ [11, 9, 10], ∀ last, some 11 = some last → n ≤ last
      simp
    · show ∀ n ∈ [11, 9, 10], n < (902 : Int) + (11 + 1 - 900)
      decide
  · simp [Leg.InOrder, samplePacket, Leg.Newer, Leg.halfSpace]
  · exact ⟨fun _ _ => nofun, trivial, nofun, nofun, trivial⟩
  · simp [samplePacket]

/-- A late packet is the last one sent before a switch. -/
theorem not_one_clean_stream : ¬ ∀ (Rid Payload Desc Patch : Type) [DecidableEq Rid]
    (v : Vp8 Payload Desc Patch) (desired : Option Rid) (events : List (Event Rid Payload)),
    (keys events).Nodup → (Leg.run v { select := { desired } } events).sent.Nodup := by
  intro h
  have hnodup := h Bool Unit Unit Unit keyframes (some true)
    [samplePacket (some true) 10, samplePacket (some true) 12, samplePacket (some true) 11,
      .setDesired (some false), samplePacket (some false) 900] (by decide)
  revert hnodup
  decide

end Hollow.Forwarder
