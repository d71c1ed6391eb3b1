import Hollow.Crdt.Register
import Hollow.Mls.Codec

/-! Every master's own history in one pass over the tree, as a committer reads it, and that it is
what the observers' rule reads once the histories carried for others are left out. -/

namespace Hollow.Mls

open LeafRecord

open Crdt (Map)

/-- What a master's slot starts from: no epoch, at the last place a leaf can have. -/
def noStatement : Statement := ⟨2 ^ 32 - 1, false, []⟩

/-- A master's slot after one more of its leaves; `none` once a leaf of it is unreadable. -/
def LeafRecord.noteIn (leaf : LeafRecord) (slot : Option Statement) : Option Statement :=
  if leaf.commitWritten && leaf.declares then
    match leaf.tally, slot with
    | some tally, some current =>
      let candidate : Statement := ⟨leaf.index, false, tally.epochs⟩
      if current.rank < candidate.rank then some candidate else some current
    | _, _ => none
  else slot

def noteLeaf (best : Map (Option Statement)) (leaf : LeafRecord) : Map (Option Statement) :=
  match leaf.master with
  | none => best
  | some master => best.insert master (leaf.noteIn (best.getD master (some noStatement)))

def slotTally (epoch : Nat) : Option Statement → MasterTally
  | some s => if wellOrdered s.epochs epoch then .list s.epochs else .unreadable
  | none => .unreadable

def ownTallies (leaves : List LeafRecord) (epoch : Nat) : Map MasterTally :=
  (leaves.foldl noteLeaf ∅).map fun _ slot => slotTally epoch slot

def LeafRecord.withoutCarried (leaf : LeafRecord) : LeafRecord :=
  match leaf.tally with
  | none => leaf
  | some tally =>
    { leaf with node := { leaf.node with extension := some { tally with carried := [] }.encode } }

variable {leaves : List LeafRecord} {leaf : LeafRecord} {master : String} {epoch : Nat}
  {slot : Option Statement} {s : Statement}

theorem LeafRecord.withoutCarried_frame (leaf : LeafRecord) :
    leaf.withoutCarried.index = leaf.index ∧ leaf.withoutCarried.master = leaf.master ∧
      leaf.withoutCarried.declares = leaf.declares ∧
        leaf.withoutCarried.commitWritten = leaf.commitWritten := by
  rw [withoutCarried]
  split <;> exact ⟨rfl, rfl, rfl, rfl⟩

theorem LeafRecord.decode_of_tally {tally : Tally} (h : leaf.tally = some tally) :
    ∃ bytes, Tally.decode bytes = some tally := by
  rw [LeafRecord.tally, leafTally] at h
  split_ifs at h
  obtain ⟨bytes, -, hbytes⟩ := Option.bind_eq_some_iff.1 h
  exact ⟨bytes, hbytes⟩

theorem LeafRecord.tally_withoutCarried (leaf : LeafRecord) :
    leaf.withoutCarried.tally = leaf.tally.map fun t => { t with carried := [] } := by
  cases htally : leaf.tally with
  | none => simp [withoutCarried, htally]
  | some tally =>
    obtain ⟨bytes, hbytes⟩ := decode_of_tally htally
    obtain ⟨htyped, hfits, -⟩ := Tally.decode_eq_some.1 hbytes
    have hdecode : Tally.decode { tally with carried := [] }.encode =
        some { tally with carried := [] } :=
      Tally.decode_eq_some.2 ⟨⟨htyped.day, htyped.epochs, by simp⟩,
        ⟨hfits.epochs, by simp, List.nodup_nil, by simp⟩, rfl⟩
    have hdeclares : leaf.node.declares = true := declares_of_tally htally
    have hleaf : leaf.withoutCarried = { leaf with
        node := { leaf.node with extension := some { tally with carried := [] }.encode } } := by
      rw [withoutCarried, htally]
    rw [hleaf, LeafRecord.tally, leafTally, if_pos hdeclares]
    exact hdecode

def LeafRecord.ownStatement (leaf : LeafRecord) : Option Statement :=
  if leaf.commitWritten && leaf.declares then
    leaf.tally.map fun tally => ⟨leaf.index, false, tally.epochs⟩
  else none

def ownStatements (leaves : List LeafRecord) (master : String) : List Statement :=
  (leaves.filter (·.master = some master)).filterMap (·.ownStatement)

theorem mem_ownStatements : s ∈ ownStatements leaves master ↔
    ∃ leaf ∈ leaves, leaf.master = some master ∧ leaf.ownStatement = some s := by
  simp [ownStatements, and_assoc]

theorem LeafRecord.ownStatement_eq_some (h : leaf.ownStatement = some s) :
    s.index = leaf.index ∧ s.carried = false := by
  rw [ownStatement] at h
  split_ifs at h
  obtain ⟨tally, -, rfl⟩ := Option.map_eq_some_iff.1 h
  exact ⟨rfl, rfl⟩

theorem LeafRecord.statements_withoutCarried (leaf : LeafRecord) (master : String) :
    leaf.withoutCarried.statements master =
      if leaf.master = some master then leaf.ownStatement.toList else [] := by
  obtain ⟨hindex, hmaster, hdeclares, hwritten⟩ := leaf.withoutCarried_frame
  rw [LeafRecord.statements, hdeclares, hwritten, hmaster, hindex, tally_withoutCarried,
    ownStatement]
  cases leaf.commitWritten && leaf.declares with
  | false => simp
  | true =>
    cases leaf.tally with
    | none => simp
    | some tally => by_cases hm : leaf.master = some master <;> simp [hm]

theorem candidates_withoutCarried :
    candidates (leaves.map (·.withoutCarried)) master epoch = ownStatements leaves master := by
  have hstatements : statements (leaves.map (·.withoutCarried)) master =
      ownStatements leaves master := by
    rw [statements, ownStatements, List.flatMap_map]
    induction leaves with
    | nil => rfl
    | cons leaf leaves ih =>
      rw [List.flatMap_cons, ih, statements_withoutCarried]
      by_cases hm : leaf.master = some master
      · cases hown : leaf.ownStatement <;> simp [hm, hown]
      · simp [hm]
  rw [candidates, hstatements, List.filter_eq_self]
  intro s hs
  obtain ⟨leaf, -, -, hown⟩ := mem_ownStatements.1 hs
  simp [(ownStatement_eq_some hown).2]

theorem unreadableOwn_withoutCarried :
    unreadableOwn (leaves.map (·.withoutCarried)) master = unreadableOwn leaves master := by
  rw [unreadableOwn, unreadableOwn, List.any_map]
  refine congrArg leaves.any (funext fun leaf => ?_)
  obtain ⟨-, hmaster, hdeclares, hwritten⟩ := leaf.withoutCarried_frame
  simp [hmaster, hdeclares, hwritten, tally_withoutCarried]

theorem foldl_noteLeaf (master : String) (leaves : List LeafRecord)
    (best : Map (Option Statement)) :
    (leaves.foldl noteLeaf best).getD master (some noStatement) =
        (leaves.filter (·.master = some master)).foldl (fun slot leaf => leaf.noteIn slot)
          (best.getD master (some noStatement)) ∧
      (master ∈ leaves.foldl noteLeaf best ↔
        master ∈ best ∨ ∃ leaf ∈ leaves, leaf.master = some master) := by
  induction leaves generalizing best with
  | nil => simp
  | cons leaf leaves ih =>
    rw [List.foldl_cons, (ih _).1, (ih _).2, noteLeaf]
    cases hmaster : leaf.master with
    | none => simp [hmaster]
    | some m =>
      by_cases hm : m = master
      · subst hm
        simp [hmaster]
      · have hcmp : compare m master ≠ .eq := by simpa using hm
        simp [hmaster, hm, Std.ExtTreeMap.getD_insert, Std.ExtTreeMap.mem_insert]

section Slot

variable (start : Statement)

theorem noteIn_of_not_counts (h : (leaf.commitWritten && leaf.declares) = false) :
    leaf.noteIn slot = slot := by
  simp [noteIn, h]

theorem noteIn_of_unreadable (h : (leaf.commitWritten && leaf.declares) = true)
    (htally : leaf.tally = none) : leaf.noteIn slot = none := by
  simp [noteIn, h, htally]

theorem noteIn_of_ownStatement (h : leaf.ownStatement = some s) :
    leaf.noteIn (some start) = if start.rank < s.rank then some s else some start := by
  rw [ownStatement] at h
  split_ifs at h with hcounts
  obtain ⟨tally, htally, rfl⟩ := Option.map_eq_some_iff.1 h
  simp [noteIn, hcounts, htally]

theorem noteIn_none (leaf : LeafRecord) : leaf.noteIn none = none := by
  unfold noteIn
  cases leaf.tally <;> simp

theorem foldl_noteIn_none (leaves : List LeafRecord) :
    leaves.foldl (fun slot leaf => leaf.noteIn slot) none = none := by
  induction leaves with
  | nil => rfl
  | cons leaf leaves ih => rw [List.foldl_cons, noteIn_none, ih]

theorem foldl_noteIn (leaves : List LeafRecord) (start : Statement) :
    (leaves.any (fun l => l.commitWritten && l.declares && l.tally.isNone) = true ∧
        leaves.foldl (fun slot leaf => leaf.noteIn slot) (some start) = none) ∨
      (leaves.any (fun l => l.commitWritten && l.declares && l.tally.isNone) = false ∧
        ∃ s, leaves.foldl (fun slot leaf => leaf.noteIn slot) (some start) = some s ∧
          (s = start ∨ s ∈ leaves.filterMap (·.ownStatement)) ∧ start.rank ≤ s.rank ∧
            ∀ s' ∈ leaves.filterMap (·.ownStatement), s'.rank ≤ s.rank) := by
  induction leaves generalizing start with
  | nil => exact .inr ⟨rfl, start, rfl, .inl rfl, le_rfl, by simp⟩
  | cons leaf leaves ih =>
    rw [List.foldl_cons, List.any_cons]
    cases hcounts : leaf.commitWritten && leaf.declares with
    | false =>
      have hown : leaf.ownStatement = none := by simp [ownStatement, hcounts]
      rw [noteIn_of_not_counts hcounts, List.filterMap_cons_none hown]
      simpa using ih start
    | true =>
      cases htally : leaf.tally with
      | none =>
        rw [noteIn_of_unreadable hcounts htally, foldl_noteIn_none]
        exact .inl ⟨by simp, rfl⟩
      | some tally =>
        have hown : leaf.ownStatement = some ⟨leaf.index, false, tally.epochs⟩ := by
          simp [ownStatement, hcounts, htally]
        rw [noteIn_of_ownStatement start hown, List.filterMap_cons_some hown]
        simp only [Option.isNone_some, Bool.and_false, Bool.false_or]
        split_ifs with hrank
        · refine (ih ⟨leaf.index, false, tally.epochs⟩).imp_right ?_
          rintro ⟨hany, s, hs, hmem, hle, hall⟩
          exact ⟨hany, s, hs, .inr (List.mem_cons.2 hmem), hrank.le.trans hle,
            List.forall_mem_cons.2 ⟨hle, hall⟩⟩
        · refine (ih start).imp_right ?_
          rintro ⟨hany, s, hs, hmem, hle, hall⟩
          exact ⟨hany, s, hs, hmem.imp_right (List.mem_cons_of_mem _), hle,
            List.forall_mem_cons.2 ⟨(not_lt.1 hrank).trans hle, hall⟩⟩

end Slot

theorem eq_nil_of_rank_le (h : s.rank ≤ noStatement.rank) : s.epochs = [] := by
  cases hepochs : s.epochs with
  | nil => rfl
  | cons e rest =>
    obtain ⟨e', he', -⟩ := Statement.head_le h (e := e) (by rw [hepochs]; rfl)
    cases he'

theorem eq_of_rank_eq (hindices : (leaves.map (·.index)).Nodup) {s s' : Statement}
    (hs : s ∈ ownStatements leaves master) (hs' : s' ∈ ownStatements leaves master)
    (h : s.rank = s'.rank) : s = s' := by
  obtain ⟨leaf, hleaf, -, hown⟩ := mem_ownStatements.1 hs
  obtain ⟨leaf', hleaf', -, hown'⟩ := mem_ownStatements.1 hs'
  have hindex : s.index = s'.index := (Prod.mk.inj (Prod.mk.inj h).2).1
  rw [(ownStatement_eq_some hown).1, (ownStatement_eq_some hown').1] at hindex
  obtain rfl := List.inj_on_of_nodup_map hindices hleaf hleaf' hindex
  exact Option.some.inj (hown.symm.trans hown')

/-- The slot that a master's leaves fold into holds its newest statement. -/
theorem slotTally_eq_masterTally (hindices : (leaves.map (·.index)).Nodup) :
    slotTally epoch ((leaves.filter (·.master = some master)).foldl
        (fun slot leaf => leaf.noteIn slot) (some noStatement)) =
      masterTally (leaves.map (·.withoutCarried)) master epoch := by
  have hunreadable : unreadableOwn leaves master =
      (leaves.filter (·.master = some master)).any
        (fun l => l.commitWritten && l.declares && l.tally.isNone) := by
    rw [unreadableOwn, List.any_filter]
    refine congrArg leaves.any (funext fun leaf => ?_)
    cases leaf.commitWritten <;> cases leaf.declares <;> simp
  rw [masterTally, candidates_withoutCarried, unreadableOwn_withoutCarried, hunreadable]
  rcases foldl_noteIn (leaves.filter (·.master = some master)) noStatement with
    ⟨hany, hfold⟩ | ⟨hany, s, hfold, hmem, hstart, hall⟩
  · rw [hfold, if_pos hany]
    rfl
  · rw [hfold, if_neg (by simp [hany]), slotTally]
    cases hnewest : newest (ownStatements leaves master) with
    | none =>
      have hs : s = noStatement := by
        refine hmem.resolve_right fun hmem => ?_
        obtain ⟨best, hbest, -⟩ := exists_newest hmem
        cases hnewest.symm.trans hbest
      simp [hs, noStatement, wellOrdered]
    | some best =>
      have hbest := mem_of_newest hnewest
      have hepochs : s.epochs = best.epochs := by
        rcases hmem with rfl | hmem
        · rw [eq_nil_of_rank_le (hall best hbest)]
          rfl
        · obtain ⟨best', hbest', hle⟩ := exists_newest hmem
          obtain rfl := Option.some.inj (hnewest.symm.trans hbest')
          rw [eq_of_rank_eq hindices hmem hbest (le_antisymm hle (hall best hbest))]
      obtain ⟨leaf, -, -, hown⟩ := mem_ownStatements.1 hbest
      simp only [hepochs, (ownStatement_eq_some hown).2]
      cases wellOrdered best.epochs epoch <;> rfl

/-- For a master with a leaf in the tree, the pass gives what the observers' rule reads with the
carried lists left out. -/
theorem ownTallies_eq_masterTally (leaves : List LeafRecord)
    (hindices : (leaves.map (·.index)).Nodup) (master : String)
    (hleaf : ∃ leaf ∈ leaves, leaf.master = some master) (epoch : Nat) :
    (ownTallies leaves epoch)[master]? =
      some (masterTally (leaves.map (·.withoutCarried)) master epoch) := by
  obtain ⟨hslot, hmem⟩ := foldl_noteLeaf master leaves ∅
  rw [← slotTally_eq_masterTally hindices, ownTallies, Std.ExtTreeMap.getElem?_map]
  have hin : master ∈ leaves.foldl noteLeaf ∅ := hmem.2 (.inr hleaf)
  rw [Std.ExtTreeMap.getD_empty] at hslot
  rw [← hslot, Std.ExtTreeMap.getElem?_eq_some_getD hin]
  rfl

def twoDevices : List LeafRecord :=
  [⟨0, ⟨some ⟨"d0", "m"⟩, true, some (Tally.mk 1 [4, 2] [("n", [3])]).encode⟩, true⟩,
    ⟨1, ⟨some ⟨"d1", "m"⟩, true, some (Tally.mk 2 [7] []).encode⟩, true⟩]

theorem ownTallies_eq_masterTally_twoDevices :
    (twoDevices.map (·.index)).Nodup ∧ (ownTallies twoDevices 9)["m"]? =
      some (masterTally (twoDevices.map (·.withoutCarried)) "m" 9) :=
  ⟨by decide, ownTallies_eq_masterTally twoDevices (by decide) "m"
    ⟨_, List.mem_cons_self, rfl⟩ 9⟩

end Hollow.Mls
