import Hollow.Crdt.Hlc
import Hollow.Lib.StableSort

/-! The tally a leaf of an MLS tree carries: the epochs of its master's last counted commits, and
for each master whose device the leaf's own commits repaired, that master's history as charged
then. Epochs are `u64` in the source. -/

namespace Hollow.Mls

open Crdt (saturatingAdd u64Max)

def tallyDepth : Nat := 3

def tallyVersion : UInt8 := 2

def maxCarried : Nat := 1024

def maxMasterLen : Nat := 64

/-- Epochs are newest first. -/
structure Tally where
  refreshedDay : Nat
  epochs : List Nat
  carried : List (String × List Nat)
deriving DecidableEq

/-- `n` as `width` bytes, the high one first. -/
def toBeBytes : Nat → Nat → List UInt8
  | 0, _ => []
  | width + 1, n => toBeBytes width (n / 256) ++ [UInt8.ofNat n]

def fromBeBytes (bytes : List UInt8) : Nat := bytes.foldl (fun n b => n * 256 + b.toNat) 0

/-- The first `n` bytes and the rest, when there are that many. -/
def splitBytes (n : Nat) (bytes : List UInt8) : Option (List UInt8 × List UInt8) :=
  if n ≤ bytes.length then some (bytes.splitAt n) else none

def putEpochs (epochs : List Nat) : List UInt8 :=
  UInt8.ofNat epochs.length :: epochs.flatMap (toBeBytes 8)

def readEpochs : Nat → List UInt8 → Option (List Nat × List UInt8)
  | 0, bytes => some ([], bytes)
  | n + 1, bytes => do
    let (epoch, rest) ← splitBytes 8 bytes
    let (epochs, rest) ← readEpochs n rest
    some (fromBeBytes epoch :: epochs, rest)

def takeEpochs : List UInt8 → Option (List Nat × List UInt8)
  | [] => none
  | n :: rest => if tallyDepth < n.toNat then none else readEpochs n.toNat rest

namespace Tally

def encode (t : Tally) : List UInt8 :=
  [tallyVersion] ++ toBeBytes 4 t.refreshedDay ++ putEpochs t.epochs ++
    toBeBytes 2 t.carried.length ++
    t.carried.flatMap fun (master, epochs) =>
      [UInt8.ofNat master.utf8ByteSize] ++ master.toUTF8.data.toList ++ putEpochs epochs

/-- The carried masters, none of them `named` before. -/
def decodeCarried : Nat → List String → List UInt8 → Option (List (String × List Nat) × List UInt8)
  | 0, _, bytes => some ([], bytes)
  | _ + 1, _, [] => none
  | n + 1, named, len :: rest =>
    if len = 0 ∨ maxMasterLen < len.toNat then none
    else do
      let (name, rest) ← splitBytes len.toNat rest
      let master ← String.fromUTF8? ⟨name.toArray⟩
      if master ∈ named then none
      else
        let (list, rest) ← takeEpochs rest
        let (carried, rest) ← decodeCarried n (master :: named) rest
        some ((master, list) :: carried, rest)

def decode : List UInt8 → Option Tally
  | [] => none
  | version :: rest =>
    if version = tallyVersion then do
      let (day, rest) ← splitBytes 4 rest
      let (epochs, rest) ← takeEpochs rest
      let (count, rest) ← splitBytes 2 rest
      let m := fromBeBytes count
      if maxCarried < m then none
      else
        let (carried, rest) ← decodeCarried m [] rest
        if rest.isEmpty then some ⟨fromBeBytes day, epochs, carried⟩ else none
    else none

/-- The tally, when its bytes decode back to it. -/
def checked (t : Tally) : Option Tally := if decode t.encode = some t then some t else none

theorem checked_eq_some {t t' : Tally} (h : t.checked = some t') : t = t' := by
  rw [checked] at h
  split_ifs at h
  exact Option.some.inj h

def afterCounted (prior : List Nat) (epoch : Nat) : List Nat := (epoch :: prior).take tallyDepth

end Tally

/-- Strictly decreasing epochs, all before `epoch`. -/
def wellOrdered (epochs : List Nat) (epoch : Nat) : Bool :=
  decide (epochs.IsChain (· > ·)) && epochs.head?.all (· < epoch)

structure LeafIdentity where
  device : String
  master : String
deriving DecidableEq

/-- A leaf node: who it is, where a certificate binds it, whether it declares the tally capability,
and the bytes of its tally extension. -/
structure LeafNode where
  identity : Option LeafIdentity
  declares : Bool
  extension : Option (List UInt8)
deriving DecidableEq

def leafTally (leaf : LeafNode) : Option Tally :=
  if leaf.declares then leaf.extension.bind Tally.decode else none

/-- A leaf at its place in the tree. A leaf not written by a commit's update path is one from a
KeyPackage. -/
structure LeafRecord where
  index : Nat
  node : LeafNode
  commitWritten : Bool
deriving DecidableEq

namespace LeafRecord

variable (l : LeafRecord)

def identity : Option LeafIdentity := l.node.identity

def declares : Bool := l.node.declares

def tally : Option Tally := leafTally l.node

def capable : Bool := l.tally.isSome

def master : Option String := l.identity.map (·.master)

end LeafRecord

def capCommits : Nat := tallyDepth

def capEpochs : Nat := 12

inductive MasterTally where
  | list (epochs : List Nat)
  /-- Judged as at its cap. -/
  | unreadable
deriving DecidableEq

def capped (tally : MasterTally) (epoch : Nat) : Bool :=
  match tally with
  | .unreadable => true
  | .list epochs => epochs[capCommits - 1]?.any fun oldest => epoch < saturatingAdd oldest capEpochs

/-- A history of a master that a leaf states: its own, or one carried for another. -/
structure Statement where
  index : Nat
  carried : Bool
  epochs : List Nat
deriving DecidableEq

/-- What a leaf says of a master. Only leaves written by a commit count. -/
def LeafRecord.statements (l : LeafRecord) (master : String) : List Statement :=
  if l.commitWritten && l.declares then
    match l.tally with
    | none => []
    | some tally =>
      (if l.master = some master then [⟨l.index, false, tally.epochs⟩] else []) ++
        (tally.carried.filter (·.1 = master)).map fun p => ⟨l.index, true, p.2⟩
  else []

def statements (leaves : List LeafRecord) (master : String) : List Statement :=
  leaves.flatMap (·.statements master)

/-- A carried list that is not well ordered is ignored. -/
def candidates (leaves : List LeafRecord) (master : String) (epoch : Nat) : List Statement :=
  (statements leaves master).filter fun s => !s.carried || wellOrdered s.epochs epoch

def Statement.head (s : Statement) : WithBot Nat := s.epochs.head?

/-- The greatest head wins, then the lowest leaf, then an own list. -/
def Statement.rank (s : Statement) : Lex (WithBot Nat × Lex (Natᵒᵈ × Bool)) :=
  toLex (s.head, toLex (OrderDual.toDual s.index, !s.carried))

/-- The last of the greatest, as `max_by_key` has it. -/
def newest : List Statement → Option Statement
  | [] => none
  | s :: rest =>
    match newest rest with
    | none => some s
    | some best => if s.rank ≤ best.rank then some best else some s

/-- A leaf of the master's own whose tally does not parse. -/
def unreadableOwn (leaves : List LeafRecord) (master : String) : Bool :=
  leaves.any fun l =>
    l.commitWritten && l.declares && l.master = some master && l.tally.isNone

def masterTally (leaves : List LeafRecord) (master : String) (epoch : Nat) : MasterTally :=
  if unreadableOwn leaves master then .unreadable
  else
    match newest (candidates leaves master epoch) with
    | none => .list []
    | some s => if !s.carried && !wellOrdered s.epochs epoch then .unreadable else .list s.epochs

section History

variable {leaves : List LeafRecord} {master : String} {epoch : Nat} {epochs : List Nat}
  {l : List Statement} {s : Statement} {leaf : LeafRecord}

theorem mem_of_newest (h : newest l = some s) : s ∈ l := by
  induction l generalizing s with
  | nil => cases h
  | cons a rest ih =>
    rw [newest] at h
    cases hrest : newest rest with
    | none =>
      simp only [hrest, Option.some.injEq] at h
      exact h ▸ List.mem_cons_self
    | some best =>
      simp only [hrest] at h
      split_ifs at h <;> cases h
      · exact List.mem_cons_of_mem _ (ih hrest)
      · exact List.mem_cons_self

theorem exists_newest (hs : s ∈ l) : ∃ best, newest l = some best ∧ s.rank ≤ best.rank := by
  induction l with
  | nil => cases hs
  | cons a rest ih =>
    rw [newest]
    cases hrest : newest rest with
    | none =>
      rcases List.mem_cons.1 hs with rfl | hs
      · exact ⟨_, rfl, le_rfl⟩
      · obtain ⟨best, hbest, -⟩ := ih hs
        cases hrest.symm.trans hbest
    | some best =>
      dsimp only
      split_ifs with hle
      · refine ⟨best, rfl, ?_⟩
        rcases List.mem_cons.1 hs with rfl | hs
        · exact hle
        · obtain ⟨best', hbest', hle'⟩ := ih hs
          cases hrest.symm.trans hbest'
          exact hle'
      · refine ⟨a, rfl, ?_⟩
        rcases List.mem_cons.1 hs with rfl | hs
        · exact le_rfl
        · obtain ⟨best', hbest', hle'⟩ := ih hs
          cases hrest.symm.trans hbest'
          exact hle'.trans (not_le.1 hle).le

theorem Statement.head_le {s s' : Statement} (h : s.rank ≤ s'.rank) {e : Nat}
    (he : s.epochs.head? = some e) : ∃ e', s'.epochs.head? = some e' ∧ e ≤ e' := by
  have hle : s.head ≤ s'.head := Prod.Lex.monotone_fst _ _ h
  have hs : s.head = (e : WithBot Nat) := he
  cases hhead : s'.epochs.head? with
  | none =>
    have hs' : s'.head = ⊥ := hhead
    rw [hs, hs', le_bot_iff] at hle
    exact absurd hle WithBot.coe_ne_bot
  | some e' =>
    have hs' : s'.head = (e' : WithBot Nat) := hhead
    rw [hs, hs'] at hle
    exact ⟨e', rfl, WithBot.coe_le_coe.1 hle⟩

theorem mem_candidates : s ∈ candidates leaves master epoch ↔
    s ∈ statements leaves master ∧ (s.carried = true → wellOrdered s.epochs epoch = true) := by
  rw [candidates, List.mem_filter]
  cases s.carried <;> simp

/-- A readable tally is the newest candidate's, or empty when there is none. -/
theorem masterTally_eq_list (h : masterTally leaves master epoch = .list epochs) :
    (candidates leaves master epoch = [] ∧ epochs = []) ∨
      (∃ s, newest (candidates leaves master epoch) = some s ∧ epochs = s.epochs ∧
        wellOrdered epochs epoch = true) := by
  rw [masterTally] at h
  split_ifs at h
  split at h
  · rename_i hnone
    refine .inl ⟨?_, (MasterTally.list.inj h).symm⟩
    rw [List.eq_nil_iff_forall_not_mem]
    intro s hs
    obtain ⟨best, hbest, -⟩ := exists_newest hs
    cases hnone.symm.trans hbest
  · rename_i s hs
    split_ifs at h with hbad
    have hepochs := MasterTally.list.inj h
    refine .inr ⟨s, hs, hepochs.symm, ?_⟩
    rw [← hepochs]
    have hcarried := (mem_candidates.1 (mem_of_newest hs)).2
    cases hown : s.carried with
    | false => simpa [hown] using hbad
    | true => exact hcarried hown

theorem declares_of_tally {tally : Tally} (h : leaf.tally = some tally) : leaf.declares = true := by
  rw [LeafRecord.tally, leafTally] at h
  split_ifs at h with hdeclares
  exact hdeclares

theorem LeafRecord.mem_statements :
    s ∈ leaf.statements master ↔ leaf.commitWritten = true ∧ ∃ tally, leaf.tally = some tally ∧
      ((leaf.master = some master ∧ s = ⟨leaf.index, false, tally.epochs⟩) ∨
        ∃ list, (master, list) ∈ tally.carried ∧ s = ⟨leaf.index, true, list⟩) := by
  rw [LeafRecord.statements]
  cases htally : leaf.tally with
  | none => simp
  | some tally =>
    rw [declares_of_tally htally, Bool.and_true]
    by_cases hwritten : leaf.commitWritten = true
    · simp only [hwritten, if_true, List.mem_append, List.mem_map, List.mem_filter,
        decide_eq_true_eq, Option.some.injEq, exists_eq_left', true_and]
      refine or_congr ?_ ?_
      · by_cases hmaster : leaf.master = some master <;> simp [hmaster]
      · constructor
        · rintro ⟨⟨name, list⟩, ⟨hmem, rfl⟩, rfl⟩
          exact ⟨list, hmem, rfl⟩
        · rintro ⟨list, hmem, rfl⟩
          exact ⟨(master, list), ⟨hmem, rfl⟩, rfl⟩
    · simp [hwritten]

theorem wellOrdered_mono {epoch' : Nat} (h : wellOrdered epochs epoch = true)
    (hle : epoch ≤ epoch') : wellOrdered epochs epoch' = true := by
  rw [wellOrdered, Bool.and_eq_true] at h ⊢
  refine ⟨h.1, ?_⟩
  cases hhead : epochs.head? with
  | none => rfl
  | some e =>
    rw [hhead] at h
    simp only [Option.all_some, decide_eq_true_eq] at h ⊢
    omega

theorem wellOrdered_afterCounted (h : wellOrdered epochs epoch = true) :
    wellOrdered (Tally.afterCounted epochs epoch) (epoch + 1) = true := by
  have hchain : (epoch :: epochs).IsChain (· > ·) := by
    rw [wellOrdered, Bool.and_eq_true, decide_eq_true_eq] at h
    cases epochs with
    | nil => exact List.isChain_singleton _
    | cons e rest =>
      refine List.isChain_cons_cons.2 ⟨?_, h.1⟩
      simpa using h.2
  rw [wellOrdered, Bool.and_eq_true, decide_eq_true_eq]
  exact ⟨hchain.take _, by simp [Tally.afterCounted, tallyDepth]⟩

end History

end Hollow.Mls
