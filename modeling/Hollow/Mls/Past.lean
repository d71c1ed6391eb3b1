import Hollow.Lib.Dict
import Hollow.Lib.StableSort
import Hollow.Words

/-! The past epochs of MLS groups, kept so that a late frame still opens: in memory, what a save
writes of them, and how a restart takes them back. A past scope is the group and the epoch its text
names. -/

namespace Hollow.Mls.Past

open Dict StableSort

def maxPastEpochs : Nat := 3

/-- Milliseconds an unpacked past epoch stays in memory after its last late frame. -/
def openIdle : Nat := 600_000

def packedKey : Bytes := 0 :: ascii "packed"

abbrev Rows := Dict Bytes Bytes

/-- A group's rows before a merge, packed, and its message secrets apart from them. -/
structure Capture where
  epoch : Nat
  packed : Bytes
  secrets : List (Bytes × Bytes)

/-- A past epoch's unpacked store, and the rows written since the last save. -/
structure OpenPast where
  values : Rows
  dirty : List Bytes
  used : Nat

structure PastEpoch where
  epoch : Nat
  packed : Bytes
  /-- The packed row is not on disk yet. -/
  packedUnsaved : Bool
  /-- Rows changed since the packing, laid over it; an empty value is a deleted row. -/
  overrides : Rows
  opened : Option OpenPast

abbrev Scope := String × Nat

structure PastEpochs where
  /-- Per group, oldest first. -/
  held : Dict String (List PastEpoch) := ∅
  /-- Stored past epochs of groups that are not loaded. -/
  dormant : Dict String (List Nat) := ∅
  /-- Scopes the next save empties. -/
  cleared : List Scope := []

structure MlsSave where
  /-- In a whole save, the scopes that stay. -/
  retainOnly : Option (List Scope)
  cleared : List Scope
  rows : List (Scope × Bytes × Bytes)

/-- Rows laid over a store: an empty value deletes the row. -/
def layOver (values : Rows) (rows : List (Bytes × Bytes)) : Rows :=
  rows.foldl (fun values r => if r.2 = [] then values.erase r.1 else values.insert r.1 r.2) values

namespace OpenPast

def write (o : OpenPast) (row : Bytes × Option Bytes) : OpenPast where
  values := match row.2 with
    | some v => o.values.insert row.1 v
    | none => o.values.erase row.1
  dirty := o.dirty.insert row.1
  used := o.used

def takeChanges (o : OpenPast) : List (Bytes × Bytes) :=
  o.dirty.map fun k => (k, (o.values.lookup k).getD [])

end OpenPast

namespace PastEpoch

variable (unpack : Bytes → Option (List (Bytes × Bytes)))

def stored (p : PastEpoch) : Rows :=
  layOver (extend ∅ ((unpack p.packed).getD [])) p.overrides.pairs

def slot (p : PastEpoch) (now : Nat) : OpenPast :=
  { p.opened.getD ⟨p.stored unpack, [], now⟩ with used := now }

def open_ (p : PastEpoch) (now : Nat) (writes : List (Bytes × Option Bytes)) : PastEpoch :=
  { p with opened := some (writes.foldl OpenPast.write (p.slot unpack now)) }

def rows (p : PastEpoch) : Bytes → Option Bytes := fun k =>
  match p.opened with
  | some o => o.values.lookup k
  | none => (p.stored unpack).lookup k

def changed (p : PastEpoch) : List (Bytes × Bytes) :=
  match p.opened with
  | some o => o.takeChanges
  | none => []

/-- A past epoch after a save took its changes; an idle store is let go. -/
def taken (p : PastEpoch) (now : Nat) : PastEpoch where
  epoch := p.epoch
  packed := p.packed
  packedUnsaved := false
  overrides := p.overrides.extend p.changed
  opened := match p.opened with
    | some o => if openIdle ≤ now - o.used then none else some { o with dirty := [] }
    | none => none

def savedRows (p : PastEpoch) (whole : Bool) : List (Bytes × Bytes) :=
  if whole || p.packedUnsaved then
    (packedKey, p.packed) :: (p.overrides.extend p.changed).pairs
  else p.changed

end PastEpoch

namespace PastEpochs

def ring (past : PastEpochs) (group : String) : List PastEpoch := (past.held.lookup group).getD []

def epochs (past : PastEpochs) (group : String) : List Nat := (past.ring group).map (·.epoch)

/-- Keeps a capture as a past epoch of a group that is now at `current`. -/
def keep (past : PastEpochs) (group : String) (capture : Option Capture) (current : Nat) :
    PastEpochs :=
  match capture.filter (·.epoch < current) with
  | none => past
  | some c =>
    let ring := past.ring group
    let gone := (ring.find? (·.epoch = c.epoch)).toList.map (·.epoch)
    let new : PastEpoch := ⟨c.epoch, c.packed, true, extend ∅ c.secrets, none⟩
    let ring := sortBy (·.epoch) (ring.eraseP (·.epoch = c.epoch) ++ [new])
    let excess := ring.length - maxPastEpochs
    { past with
      held := past.held.insert group (ring.drop excess)
      cleared := past.cleared ++
        (gone ++ (ring.take excess).map (·.epoch)).map fun epoch => (group, epoch) }

def dropGroup (past : PastEpochs) (group : String) : PastEpochs where
  held := past.held.erase group
  dormant := past.dormant.erase group
  cleared := past.cleared ++
    (past.epochs group ++ (past.dormant.lookup group).getD []).map fun epoch => (group, epoch)

def scopes (past : PastEpochs) : List Scope :=
  (past.held.pairs.flatMap fun g => g.2.map fun p => (g.1, p.epoch)) ++
    past.dormant.pairs.flatMap fun g => g.2.map fun epoch => (g.1, epoch)

/-- A late frame, which writes rows of the epoch it opens in. -/
def open_ (unpack : Bytes → Option (List (Bytes × Bytes))) (past : PastEpochs) (group : String)
    (epoch now : Nat) (writes : List (Bytes × Option Bytes)) : PastEpochs :=
  if epoch ∈ past.epochs group then
    { past with
      held := past.held.insert group ((past.ring group).map fun p =>
        if p.epoch = epoch then p.open_ unpack now writes else p) }
  else past

def save (past : PastEpochs) (whole : Bool) : MlsSave where
  retainOnly := if whole then some past.scopes else none
  cleared := past.cleared ++
    if whole then past.held.pairs.flatMap fun g => g.2.map fun p => (g.1, p.epoch) else []
  rows := past.held.pairs.flatMap fun g => g.2.flatMap fun p =>
    (p.savedRows whole).map fun r => ((g.1, p.epoch), r)

/-- The past epochs after a save took their changes. -/
def taken (past : PastEpochs) (now : Nat) : PastEpochs :=
  { past with
    held := extend ∅ (past.held.pairs.map fun g => (g.1, g.2.map (·.taken now)))
    cleared := [] }

end PastEpochs

abbrev Disk := Dict Scope Rows

namespace Disk

def rowsOf (disk : Disk) (scope : Scope) : Rows := (disk.lookup scope).getD ∅

def put (disk : Disk) (row : Scope × Bytes × Bytes) : Disk :=
  disk.insert row.1 ((disk.rowsOf row.1).insert row.2.1 row.2.2)

def clear (disk : Disk) (scopes : List Scope) : Disk :=
  scopes.foldl (fun disk scope => disk.erase scope) disk

/-- The scopes a save empties: those a whole save does not name, and the cleared ones. -/
def emptied (disk : Disk) (save : MlsSave) : List Scope :=
  (match save.retainOnly with
    | some keep => disk.keys.filter (· ∉ keep)
    | none => []) ++ save.cleared

def write (disk : Disk) (save : MlsSave) : Disk :=
  save.rows.foldl put (disk.clear (disk.emptied save))

end Disk

namespace PastEpochs

/-- One stored past epoch of a loaded group, from the newest on: held, or cleared by the next
save. -/
def restoreEpoch (group : String) (current : Nat) (acc : List PastEpoch × List Scope)
    (stored : Nat × Rows) : List PastEpoch × List Scope :=
  match stored.2.lookup packedKey with
  | some packed =>
    if stored.1 < current ∧ acc.1.length < maxPastEpochs then
      (⟨stored.1, packed, false, stored.2.erase packedKey, none⟩ :: acc.1, acc.2)
    else (acc.1, acc.2 ++ [(group, stored.1)])
  | none => (acc.1, acc.2 ++ [(group, stored.1)])

def restoreGroup (loaded : String → Option Nat) (scopes : List (Scope × Rows)) (past : PastEpochs)
    (group : String) : PastEpochs :=
  let epochs := (scopes.filter (·.1.1 = group)).map fun s => (s.1.2, s.2)
  match loaded group with
  | none => { past with dormant := past.dormant.insert group (epochs.map (·.1)) }
  | some current =>
    let r := (sortBy (OrderDual.toDual ·.1) epochs).foldl (restoreEpoch group current)
      ([], past.cleared)
    { past with
      held := if r.1 = [] then past.held else past.held.insert group r.1
      cleared := r.2 }

def restore (past : PastEpochs) (scopes : List (Scope × Rows)) (loaded : String → Option Nat) :
    PastEpochs :=
  (scopes.map (·.1.1)).dedup.foldl (restoreGroup loaded scopes) past

end PastEpochs

inductive Event where
  | keep (group : String) (capture : Option Capture) (current : Nat)
  | open_ (group : String) (epoch now : Nat) (writes : List (Bytes × Option Bytes))
  | dropGroup (group : String)
  | save (whole : Bool) (now : Nat)

/-- The past epochs in memory and on disk. The rest is history: the largest epoch each group was at
and the epochs kept of it, since it was dropped, and how all this stood at the last save. -/
structure Machine where
  memory : PastEpochs := {}
  disk : Disk := ∅
  current : String → Nat := fun _ => 0
  kept : String → List Nat := fun _ => []
  savedMemory : PastEpochs := {}
  savedCurrent : String → Nat := fun _ => 0
  savedKept : String → List Nat := fun _ => []

namespace Machine

variable (unpack : Bytes → Option (List (Bytes × Bytes)))

def step (m : Machine) : Event → Machine
  | .keep group capture current =>
    { m with
      memory := m.memory.keep group capture current
      current := Function.update m.current group (max (m.current group) current)
      kept := Function.update m.kept group
        (m.kept group ++ (capture.filter (·.epoch < current)).toList.map (·.epoch)) }
  | .open_ group epoch now writes =>
    { m with memory := m.memory.open_ unpack group epoch now writes }
  | .dropGroup group =>
    { m with
      memory := m.memory.dropGroup group
      current := Function.update m.current group 0
      kept := Function.update m.kept group [] }
  | .save whole now =>
    { m with
      memory := m.memory.taken now
      disk := m.disk.write (m.memory.save whole)
      savedMemory := m.memory.taken now
      savedCurrent := m.current
      savedKept := m.kept }

def run (m : Machine) (events : List Event) : Machine := events.foldl (step unpack) m

end Machine

end Hollow.Mls.Past
