import Hollow.Mls.Tally

/-! The epoch-rate rule on MLS commits and the standing ratchet, and what they bound over a whole
chain of commits. The count of a master's commits is not kept by those who judge them: each
committer states it in its own leaf, and it is judged against what the tree before the commit
states. -/

namespace Hollow.Mls

open StableSort

open Crdt (saturatingAdd u64Max)

structure RateInput where
  epoch : Nat
  leaves : List LeafRecord
  committer : LeafIdentity
  adds : List LeafIdentity
  /-- The bound leaves that are removed. -/
  removes : List LeafIdentity
  noProposals : Bool

structure Charges where
  committer : Bool
  repaired : List String
deriving DecidableEq

def Charges.any (c : Charges) : Bool := c.committer || !c.repaired.isEmpty

def charges (input : RateInput) : Charges :=
  let m := input.committer.master
  let seated (device : String) : Bool :=
    input.leaves.any fun l => l.identity.any (·.device = device)
  { committer := input.noProposals || input.adds.any (·.master = m) ||
      input.removes.any (·.master = m)
    repaired := (sortBy id (((input.adds.filter fun a =>
      a.master ≠ m && seated a.device).filter fun a =>
        input.removes.any (·.device = a.device)).map (·.master))).dedup }

def othersAllCapable (leaves : List LeafRecord) (master : String) : Bool :=
  leaves.all fun l =>
    match l.identity with
    | none => false
    | some i => i.master = master || l.capable

inductive RateRefusal where
  /-- A commit that counts against a master must carry a leaf with its tally. -/
  | missingTally
  | unreadableHistory (master : String)
  | doesNotEncode (carried : Nat)
  | wrongTally (stated expected : Tally)
  | committerAtCap (master : String)
  | repairAtCap (master : String)
deriving DecidableEq

/-- What the committer's leaf carries for others and its next leaf keeps. -/
def priorCarried (input : RateInput) : List (String × List Nat) :=
  let leaf := input.leaves.find? fun l =>
    l.commitWritten && l.identity = some input.committer
  let carried := ((leaf.bind (·.tally)).map (·.carried)).getD []
  carried.filter fun p =>
    p.1 ≠ input.committer.master && wellOrdered p.2 input.epoch &&
      p.2.head?.any fun h => input.epoch < saturatingAdd h capEpochs

def readHistory (input : RateInput) (master : String) : Except RateRefusal (List Nat) :=
  match masterTally input.leaves master input.epoch with
  | .list epochs => .ok epochs
  | .unreadable => .error (.unreadableHistory master)

def sortCarried (carried : List (String × List Nat)) : List (String × List Nat) :=
  sortBy (fun p => toLex (p.1, p.2)) carried

def repairedHistories (input : RateInput) :
    List String → Except RateRefusal (List (String × List Nat))
  | [] => .ok []
  | n :: rest =>
    match readHistory input n with
    | .error why => .error why
    | .ok history =>
      match repairedHistories input rest with
      | .error why => .error why
      | .ok carried => .ok ((n, Tally.afterCounted history input.epoch) :: carried)

def expectedTally (input : RateInput) (charges : Charges) (refreshedDay : Nat) :
    Except RateRefusal Tally :=
  match readHistory input input.committer.master with
  | .error why => .error why
  | .ok own =>
    let epochs := if charges.committer then Tally.afterCounted own input.epoch else own
    match repairedHistories input charges.repaired with
    | .error why => .error why
    | .ok fresh =>
      let kept := (priorCarried input).filter fun p => !charges.repaired.contains p.1
      let tally : Tally := ⟨refreshedDay, epochs, sortCarried (fresh ++ kept)⟩
      match tally.checked with
      | some tally => .ok tally
      | none => .error (.doesNotEncode tally.carried.length)

def overCap (input : RateInput) (charges : Charges) : Option RateRefusal :=
  let atCap (master : String) : Bool :=
    capped (masterTally input.leaves master input.epoch) input.epoch
  if charges.committer && atCap input.committer.master then
    some (.committerAtCap input.committer.master)
  else (charges.repaired.find? atCap).map .repairAtCap

/-- The rule judges no commit of the owner, and none while another master keeps a leaf without a
tally. -/
def judges (isOwner : String → Bool) (input : RateInput) : Bool :=
  !isOwner input.committer.master && othersAllCapable input.leaves input.committer.master

/-- `path` is the committer's new leaf: `none` without an update path, `some none` for a leaf that
carries no tally. -/
def rateRefusal (isOwner : String → Bool) (input : RateInput) (path : Option (Option Tally)) :
    Option RateRefusal :=
  if judges isOwner input then
    let charged := charges input
    match path with
    | some (some stated) =>
      match expectedTally input charged stated.refreshedDay with
      | .error why => some why
      | .ok expected =>
        if stated.epochs ≠ expected.epochs ∨ sortCarried stated.carried ≠ expected.carried then
          some (.wrongTally stated expected)
        else overCap input charged
    | _ => if charged.any then some .missingTally else none
  else none

def treeDeclares (records : List LeafRecord) : Bool :=
  !records.isEmpty && records.all fun r => r.identity.isSome && r.declares

/-- A group at an epoch. No two leaves have one place or one identity, as a device's key is its
leaf's signature key. -/
structure Group where
  epoch : Nat
  leaves : List LeafRecord
  indices : (leaves.map (·.index)).Nodup
  identities : (leaves.filterMap (·.identity)).Nodup

/-- A commit: its committer's place, the leaves it removes, the leaves it adds and the places they
take, and the leaf of its update path. -/
structure Commit where
  committer : Nat
  adds : List (Nat × LeafNode)
  removes : List Nat
  path : Option LeafNode
deriving DecidableEq

def Group.input (g : Group) (c : Commit) (who : LeafIdentity) : RateInput where
  epoch := g.epoch
  leaves := g.leaves
  committer := who
  adds := c.adds.filterMap (·.2.identity)
  removes := (g.leaves.filter (·.index ∈ c.removes)).filterMap (·.identity)
  noProposals := c.adds.isEmpty && c.removes.isEmpty

/-- The leaves a commit writes that do not declare the tally capability. -/
def Commit.undeclared (c : Commit) : List LeafNode :=
  (c.adds.map (·.2) ++ c.path.toList).filter (!·.declares)

/-- A commit the protocol allows, that reaches the rate rule and the ratchet and passes both. -/
structure Accepted (isOwner : String → Bool) (g : Group) (c : Commit) (who : LeafIdentity) :
    Prop where
  committer : ∃ leaf ∈ g.leaves, leaf.index = c.committer ∧ leaf.identity = some who
  rate : rateRefusal isOwner (g.input c who) (c.path.map leafTally) = none
  ratchet : treeDeclares g.leaves → ∀ node ∈ c.undeclared, node.identity.any (isOwner ·.master)
  adds_bound : ∀ p ∈ c.adds, p.2.identity.isSome
  path_same : ∀ node, c.path = some node → node.identity = some who
  not_removed : c.committer ∉ c.removes
  /-- A commit that removes a leaf, or has no proposal, has an update path. -/
  path_of_removes : c.adds = [] ∨ c.removes ≠ [] → c.path.isSome
  /-- The next epoch is a `u64`. -/
  epoch_lt : g.epoch < u64Max

/-- A leaf that is not removed, with the path's node if it is the committer's. -/
def Commit.rewrite (c : Commit) (l : LeafRecord) : LeafRecord :=
  if l.index = c.committer then
    match c.path with
    | none => l
    | some node => { l with node, commitWritten := true }
  else l

def Commit.leavesAfter (c : Commit) (leaves : List LeafRecord) : List LeafRecord :=
  (leaves.filter (·.index ∉ c.removes)).map c.rewrite ++
    c.adds.map fun p => ⟨p.1, p.2, false⟩

structure Merged (g : Group) (c : Commit) (g' : Group) : Prop where
  epoch : g'.epoch = g.epoch + 1
  leaves : g'.leaves = c.leavesAfter g.leaves

def chargesMaster (input : RateInput) (master : String) : Bool :=
  ((charges input).committer && input.committer.master = master) ||
    (charges input).repaired.contains master

/-- The chains of accepted commits that all meet `ok`, with the epochs at which they charged the
master, newest first. -/
inductive Chain (isOwner : String → Bool) (master : String)
    (ok : Group → Commit → LeafIdentity → Prop) : Group → List Nat → Group → Prop where
  | start (g : Group) : Chain isOwner master ok g [] g
  | commit {g g' g'' : Group} {charged : List Nat} {c : Commit} {who : LeafIdentity} :
      Chain isOwner master ok g charged g' → Accepted isOwner g' c who → ok g' c who →
      Merged g' c g'' →
      Chain isOwner master ok g
        (if chargesMaster (g'.input c who) master then g'.epoch :: charged else charged) g''

/-- At most `CAP_COMMITS` charges within any `CAP_EPOCHS` consecutive epochs. -/
def WithinCap (charged : List Nat) : Prop :=
  ∀ first, (charged.filter fun e => first ≤ e && e < first + capEpochs).length ≤ capCommits

/-- No commit by another master removes the leaf that states the master's newest tally. -/
def KeepsNewest (master : String) (g : Group) (c : Commit) (who : LeafIdentity) : Prop :=
  who.master ≠ master → ∀ s, newest (candidates g.leaves master g.epoch) = some s →
    s.index ∉ c.removes

section Stated

variable {isOwner : String → Bool} {input : RateInput} {master : String}

theorem mem_repairedHistories {names : List String} {fresh : List (String × List Nat)}
    (h : repairedHistories input names = .ok fresh) {p : String × List Nat} :
    p ∈ fresh ↔ p.1 ∈ names ∧ ∃ history, readHistory input p.1 = .ok history ∧
      p.2 = Tally.afterCounted history input.epoch := by
  induction names generalizing fresh with
  | nil =>
    cases h
    simp
  | cons n rest ih =>
    rw [repairedHistories] at h
    split at h
    · cases h
    · rename_i history hhistory
      split at h
      · cases h
      · rename_i carried hcarried
        cases h
        rw [List.mem_cons, List.mem_cons, ih hcarried]
        constructor
        · rintro (rfl | ⟨hmem, hread⟩)
          · exact ⟨.inl rfl, history, hhistory, rfl⟩
          · exact ⟨.inr hmem, hread⟩
        · rintro ⟨heq | hmem, history', hread, hp⟩
          · rw [heq, hhistory] at hread
            cases hread
            exact .inl (Prod.ext heq hp)
          · exact .inr ⟨hmem, history', hread, hp⟩

/-- What a judged leaf with a tally says, and of whom it could be read. -/
structure States (input : RateInput) (stated : Tally) : Prop where
  own : ∃ history, readHistory input input.committer.master = .ok history ∧
    stated.epochs =
      if (charges input).committer then Tally.afterCounted history input.epoch else history
  repaired : ∀ n ∈ (charges input).repaired, ∃ history, readHistory input n = .ok history ∧
    ∀ list, (n, list) ∈ stated.carried ↔ list = Tally.afterCounted history input.epoch
  kept : ∀ n ∉ (charges input).repaired, ∀ list,
    (n, list) ∈ stated.carried ↔ (n, list) ∈ priorCarried input
  within : overCap input (charges input) = none

theorem readHistory_of_repairedHistories {names : List String} {fresh : List (String × List Nat)}
    (h : repairedHistories input names = .ok fresh) {n : String} (hn : n ∈ names) :
    ∃ history, readHistory input n = .ok history := by
  induction names generalizing fresh with
  | nil => cases hn
  | cons a rest ih =>
    rw [repairedHistories] at h
    split at h
    · cases h
    · rename_i history hhistory
      split at h
      · cases h
      · rename_i carried hcarried
        rcases List.mem_cons.1 hn with rfl | hn
        · exact ⟨history, hhistory⟩
        · exact ih hcarried hn

/-- A commit that is judged and not refused states the tally it was expected to. -/
theorem states_of_rateRefusal {stated : Tally} (hjudges : judges isOwner input = true)
    (h : rateRefusal isOwner input (some (some stated)) = none) : States input stated := by
  rw [rateRefusal, if_pos hjudges] at h
  dsimp only at h
  split at h
  · cases h
  · rename_i expected hexpected
    split_ifs at h with hwrong
    push Not at hwrong
    obtain ⟨hepochs, hcarried⟩ := hwrong
    rw [expectedTally] at hexpected
    split at hexpected
    · cases hexpected
    · rename_i own hown
      dsimp only at hexpected
      split at hexpected
      · cases hexpected
      · rename_i fresh hfresh
        split at hexpected
        · rename_i tally htally
          cases hexpected
          have htally := Tally.checked_eq_some htally
          rw [← htally] at hepochs hcarried
          have hmem (p : String × List Nat) : p ∈ stated.carried ↔
              p ∈ fresh ∨ (p ∈ priorCarried input ∧ p.1 ∉ (charges input).repaired) := by
            have hsort : p ∈ sortCarried stated.carried ↔ p ∈ stated.carried :=
              mem_sortBy
            rw [← hsort, hcarried, sortCarried, mem_sortBy, List.mem_append,
              List.mem_filter]
            simp
          refine ⟨⟨own, hown, hepochs⟩, fun n hn => ?_, fun n hn list => ?_, h⟩
          · obtain ⟨history, hread⟩ := readHistory_of_repairedHistories hfresh hn
            refine ⟨history, hread, fun list => ?_⟩
            rw [hmem, mem_repairedHistories hfresh]
            simp [hn, hread]
          · rw [hmem, mem_repairedHistories hfresh]
            simp [hn]
        · cases hexpected

theorem exists_stated_of_charges {path : Option (Option Tally)}
    (hjudges : judges isOwner input = true) (hcharges : (charges input).any = true)
    (h : rateRefusal isOwner input path = none) : ∃ stated, path = some (some stated) := by
  rw [rateRefusal, if_pos hjudges] at h
  dsimp only at h
  split at h
  · exact ⟨_, rfl⟩
  · rw [if_pos hcharges] at h
    cases h

theorem any_of_chargesMaster (h : chargesMaster input master = true) :
    (charges input).any = true := by
  rw [chargesMaster, Bool.or_eq_true, Bool.and_eq_true] at h
  rw [Charges.any, Bool.or_eq_true]
  rcases h with ⟨hcommitter, -⟩ | hrepaired
  · exact .inl hcommitter
  · refine .inr ?_
    have hmem : master ∈ (charges input).repaired := by simpa using hrepaired
    simp [List.ne_nil_of_mem hmem]

theorem not_mem_repaired_self : input.committer.master ∉ (charges input).repaired := by
  intro h
  simp only [charges, List.mem_dedup, mem_sortBy, List.mem_map, List.mem_filter,
    Bool.and_eq_true, decide_eq_true_eq] at h
  obtain ⟨a, ⟨⟨-, hne, -⟩, -⟩, heq⟩ := h
  exact hne heq

theorem not_capped_of_charges (hwithin : overCap input (charges input) = none)
    (h : chargesMaster input master = true) :
    capped (masterTally input.leaves master input.epoch) input.epoch = false := by
  rw [overCap] at hwithin
  dsimp only at hwithin
  rw [chargesMaster, Bool.or_eq_true, Bool.and_eq_true, decide_eq_true_eq] at h
  split_ifs at hwithin with hcommitter
  rcases h with ⟨hcharged, rfl⟩ | hrepaired
  · simpa [hcharged] using hcommitter
  · have hnone := Option.map_eq_none_iff.1 hwithin
    have hmem : master ∈ (charges input).repaired := by simpa using hrepaired
    simpa using List.find?_eq_none.1 hnone master hmem

theorem readHistory_eq_ok {history : List Nat} (h : readHistory input master = .ok history) :
    masterTally input.leaves master input.epoch = .list history := by
  rw [readHistory] at h
  split at h
  · rename_i epochs hepochs
    cases h
    exact hepochs
  · cases h

end Stated

section Tree

variable {isOwner : String → Bool} {g g' : Group} {c : Commit} {who : LeafIdentity}
  {master : String} {s : Statement}

def Commit.written (c : Commit) (node : LeafNode) : LeafRecord := ⟨c.committer, node, true⟩

def LeafRecord.Tells (l : LeafRecord) (master : String) : Prop := l.statements master ≠ []

theorem mem_statements_leavesAfter {leaves : List LeafRecord} :
    s ∈ statements (c.leavesAfter leaves) master ↔
      ∃ l ∈ leaves, l.index ∉ c.removes ∧ s ∈ (c.rewrite l).statements master := by
  simp only [statements, Commit.leavesAfter, List.flatMap_append, List.mem_append,
    List.mem_flatMap, List.mem_map, List.mem_filter, decide_eq_true_eq]
  constructor
  · rintro (⟨-, ⟨l, ⟨hl, hremoves⟩, rfl⟩, hs⟩ | ⟨-, ⟨p, -, rfl⟩, hs⟩)
    · exact ⟨l, hl, hremoves, hs⟩
    · simp [LeafRecord.statements] at hs
  · rintro ⟨l, hl, hremoves, hs⟩
    exact .inl ⟨_, ⟨l, ⟨hl, hremoves⟩, rfl⟩, hs⟩

theorem mem_statements_merged (hmerged : Merged g c g') (hs : s ∈ statements g'.leaves master) :
    s ∈ statements g.leaves master ∨
      ∃ node, c.path = some node ∧ s ∈ (c.written node).statements master := by
  rw [hmerged.leaves, mem_statements_leavesAfter] at hs
  obtain ⟨l, hl, -, hs⟩ := hs
  rw [Commit.rewrite] at hs
  split_ifs at hs with hindex
  · cases hpath : c.path with
    | none =>
      simp only [hpath] at hs
      exact .inl (List.mem_flatMap.2 ⟨l, hl, hs⟩)
    | some node =>
      simp only [hpath] at hs
      refine .inr ⟨node, rfl, ?_⟩
      rw [Commit.written, ← hindex]
      exact hs
  · exact .inl (List.mem_flatMap.2 ⟨l, hl, hs⟩)

theorem mem_statements_of_kept (hmerged : Merged g c g') (hs : s ∈ statements g.leaves master)
    (hremoves : s.index ∉ c.removes) (hpath : s.index = c.committer → c.path = none) :
    s ∈ statements g'.leaves master := by
  obtain ⟨l, hl, hs⟩ := List.mem_flatMap.1 hs
  have hindex : s.index = l.index := by
    obtain ⟨-, tally, -, ⟨-, rfl⟩ | ⟨list, -, rfl⟩⟩ := LeafRecord.mem_statements.1 hs <;> rfl
  rw [hmerged.leaves, mem_statements_leavesAfter]
  refine ⟨l, hl, hindex ▸ hremoves, ?_⟩
  rw [Commit.rewrite]
  split_ifs with hcommitter
  · rw [hpath (hindex.trans hcommitter)]
    exact hs
  · exact hs

theorem mem_statements_of_written (haccepted : Accepted isOwner g c who) (hmerged : Merged g c g')
    {node : LeafNode} (hpath : c.path = some node)
    (hs : s ∈ (c.written node).statements master) : s ∈ statements g'.leaves master := by
  obtain ⟨l, hl, hindex, -⟩ := haccepted.committer
  rw [hmerged.leaves, mem_statements_leavesAfter]
  refine ⟨l, hl, hindex ▸ haccepted.not_removed, ?_⟩
  rw [Commit.rewrite, if_pos hindex, hpath]
  rw [Commit.written, ← hindex] at hs
  exact hs

theorem priorCarried_spec {list : List Nat} (h : (master, list) ∈ priorCarried (g.input c who)) :
    master ≠ who.master ∧ wellOrdered list g.epoch = true ∧
      ∃ s ∈ statements g.leaves master, s.epochs = list := by
  obtain ⟨hmem, hkeep⟩ := List.mem_filter.1 h
  simp only [Bool.and_eq_true, decide_eq_true_eq] at hkeep
  refine ⟨hkeep.1.1, hkeep.1.2, ?_⟩
  cases hfind : (g.input c who).leaves.find? fun l =>
      l.commitWritten && l.identity = some (g.input c who).committer with
  | none =>
    rw [hfind] at hmem
    cases hmem
  | some l =>
    rw [hfind] at hmem
    cases htally : l.tally with
    | none =>
      simp [htally] at hmem
    | some tally =>
      have hwritten := List.find?_some hfind
      rw [Bool.and_eq_true] at hwritten
      have hmem : (master, list) ∈ tally.carried := by simpa [htally] using hmem
      refine ⟨⟨l.index, true, list⟩, List.mem_flatMap.2 ⟨l, List.mem_of_find?_eq_some hfind, ?_⟩,
        rfl⟩
      exact LeafRecord.mem_statements.2 ⟨hwritten.1, tally, htally, .inr ⟨list, hmem, rfl⟩⟩

theorem Group.eq_of_identity (g : Group) {l l' : LeafRecord} (hl : l ∈ g.leaves)
    (hl' : l' ∈ g.leaves) (h : l.identity = some who) (h' : l'.identity = some who) : l = l' := by
  by_contra hne
  have hpairwise := List.pairwise_filterMap.1 g.identities
  have : Std.Symm fun a b : LeafRecord =>
      ∀ x, a.identity = some x → ∀ y, b.identity = some y → x ≠ y :=
    ⟨fun a b hab x hx y hy heq => hab y hy x hx heq.symm⟩
  exact hpairwise.forall hl hl' hne who h who h' rfl

theorem mem_priorCarried {l : LeafRecord} {tally : Tally} {list : List Nat} {head : Nat}
    (hl : l ∈ g.leaves) (hwho : l.identity = some who) (hwritten : l.commitWritten = true)
    (htally : l.tally = some tally) (hmem : (master, list) ∈ tally.carried)
    (hmaster : master ≠ who.master) (hordered : wellOrdered list g.epoch = true)
    (hhead : list.head? = some head) (hrecent : g.epoch < saturatingAdd head capEpochs) :
    (master, list) ∈ priorCarried (g.input c who) := by
  have hfind : ((g.input c who).leaves.find? fun l =>
      l.commitWritten && l.identity = some (g.input c who).committer) = some l := by
    obtain ⟨l', hl'⟩ := Option.isSome_iff_exists.1 (List.find?_isSome.2
      ⟨l, hl, by simp [hwritten, hwho]⟩ :
        (g.leaves.find? fun l => l.commitWritten && l.identity = some who).isSome)
    have hsome := List.find?_some hl'
    rw [Bool.and_eq_true, decide_eq_true_eq] at hsome
    rw [g.eq_of_identity hl (List.mem_of_find?_eq_some hl') hwho hsome.2]
    exact hl'
  rw [priorCarried, hfind]
  refine List.mem_filter.2 ⟨by simpa [htally] using hmem, ?_⟩
  simp only [Bool.and_eq_true, decide_eq_true_eq, hhead, Option.any_some]
  exact ⟨⟨hmaster, hordered⟩, hrecent⟩

end Tree

end Hollow.Mls
