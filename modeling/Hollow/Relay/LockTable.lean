import Hollow.Relay.FairShareIndexes
import Hollow.Relay.JoinLocks

/-! The table of join locks over any calls: its records are those of its ledger, and every call
leaves them within the byte budget. -/

namespace Hollow.Relay

open Hollow.Crdt (LockLink)

namespace JoinLocks

/-- The chain of a record, used now. -/
def get (s : JoinLocks) (key : String) : Option (List LockLink) × JoinLocks :=
  match s.records[key]? with
  | none => (none, s)
  | some links => (some links, { s with ledger := s.ledger.touch key })

/-- Restores a record from a snapshot. -/
def restore (s : JoinLocks) (key : String) (links : List LockLink) (share : Nat) : JoinLocks :=
  if links.isEmpty || links.length > Crdt.maxChain then s
  else
    let s := { s with
      records := s.records.insert key links
      ledger := s.ledger.put key share (recordBytes key links) }
    enforceBudget s.ledger.entries.length s

end JoinLocks

inductive LockCall where
  | get (key : String)
  | put (server owner : String) (submitted : List LockLink) (share : Nat)
  | restore (key : String) (links : List LockLink) (share : Nat)

def JoinLocks.call (c : LockCrypto) (s : JoinLocks) : LockCall → JoinLocks
  | .get key => (s.get key).2
  | .put server owner submitted share => (s.put c server owner submitted share).2.2
  | .restore key links share => s.restore key links share

/-- The records are those of the ledger, each at the bytes it takes, and ledger operations made the
ledger. -/
structure JoinLocks.Mirrors (s : JoinLocks) : Prop where
  records : ∀ key bytes, s.records[key]?.map (recordBytes key) = some bytes ↔
    ∃ e ∈ s.ledger.entries, e.key = key ∧ e.weight = bytes
  ledger : ∃ ops : List (LedgerOp String), s.ledger = ops.foldl FairShare.apply {}

section Calls

variable {c : LockCrypto} {s : JoinLocks} {key : String} {links : List LockLink} {share : Nat}

theorem JoinLocks.Mirrors.sound (h : s.Mirrors) : s.ledger.Sound := by
  obtain ⟨ops, hops⟩ := h.ledger
  rw [hops]
  exact (IndexedShare.run_recount ops FairShare.sound_empty).2

theorem JoinLocks.Mirrors.step (h : s.Mirrors) (op : LedgerOp String) :
    ∃ ops : List (LedgerOp String), s.ledger.apply op = ops.foldl FairShare.apply {} := by
  obtain ⟨ops, hops⟩ := h.ledger
  exact ⟨ops ++ [op], by rw [hops, List.foldl_append]; rfl⟩

theorem JoinLocks.Mirrors.drop (h : s.Mirrors) :
    JoinLocks.Mirrors { s with records := s.records.erase key, ledger := s.ledger.remove key } where
  records := by
    intro key' bytes
    simp only [FairShare.mem_remove]
    by_cases hkey : key' = key
    · subst hkey
      simp only [Std.ExtTreeMap.getElem?_erase_self, Option.map_none, reduceCtorEq, false_iff]
      rintro ⟨e, ⟨-, hne⟩, hkey, -⟩
      exact hne hkey
    · have hne : key ≠ key' := fun h => hkey h.symm
      simp only [Std.ExtTreeMap.getElem?_erase, compare_eq_iff_eq, hne, if_false,
        h.records key' bytes]
      constructor
      · rintro ⟨e, he, rfl, hbytes⟩
        exact ⟨e, ⟨he, hkey⟩, rfl, hbytes⟩
      · rintro ⟨e, ⟨he, -⟩, hentry⟩
        exact ⟨e, he, hentry⟩
  ledger := h.step (.remove key)

theorem JoinLocks.Mirrors.add (h : s.Mirrors) :
    JoinLocks.Mirrors { s with
      records := s.records.insert key links
      ledger := s.ledger.put key share (recordBytes key links) } where
  records := by
    intro key' bytes
    simp only [FairShare.mem_put]
    by_cases hkey : key' = key
    · subst hkey
      simp only [Std.ExtTreeMap.getElem?_insert_self, Option.map_some, Option.some.injEq]
      constructor
      · exact fun hbytes => ⟨_, .inr rfl, rfl, hbytes⟩
      · rintro ⟨e, ⟨-, hne⟩ | rfl, hkey, hbytes⟩
        · exact absurd hkey hne
        · exact hbytes
    · have hne : key ≠ key' := fun h => hkey h.symm
      simp only [Std.ExtTreeMap.getElem?_insert, compare_eq_iff_eq, hne, if_false,
        h.records key' bytes]
      constructor
      · rintro ⟨e, he, rfl, hbytes⟩
        exact ⟨e, .inl ⟨he, hkey⟩, rfl, hbytes⟩
      · rintro ⟨e, ⟨he, -⟩ | rfl, rfl, hbytes⟩
        · exact ⟨e, he, rfl, hbytes⟩
        · exact absurd rfl hkey
  ledger := h.step (.put key share _)

theorem JoinLocks.Mirrors.use (h : s.Mirrors) :
    JoinLocks.Mirrors { s with ledger := s.ledger.touch key } where
  records := by
    intro key' bytes
    rw [h.records key' bytes, FairShare.touch]
    split_ifs with hheld
    · simp only [List.mem_map]
      constructor
      · rintro ⟨e, he, rfl, rfl⟩
        refine ⟨_, ⟨e, he, rfl⟩, ?_⟩
        split_ifs <;> exact ⟨rfl, rfl⟩
      · rintro ⟨_, ⟨e, he, rfl⟩, rfl, rfl⟩
        refine ⟨e, he, ?_⟩
        split_ifs <;> exact ⟨rfl, rfl⟩
    · rfl
  ledger := h.step (.touch key)

/-- Enough rounds bring the ledger under the budget. -/
theorem enforceBudget_within {rounds : Nat} (h : s.Mirrors)
    (hrounds : s.ledger.entries.length ≤ rounds) :
    (s.enforceBudget rounds).Mirrors ∧ (s.enforceBudget rounds).budget = s.budget ∧
      (s.enforceBudget rounds).ledger.total ≤ s.budget := by
  induction rounds generalizing s with
  | zero =>
    have hempty : s.ledger.entries = [] := List.length_eq_zero_iff.mp (Nat.le_zero.mp hrounds)
    exact ⟨h, rfl, by simp [JoinLocks.enforceBudget, FairShare.total, hempty]⟩
  | succ rounds ih =>
    rw [JoinLocks.enforceBudget]
    split_ifs with hover
    · cases hvictim : s.ledger.victim with
      | none =>
        rw [FairShare.victim_eq_scan, FairShare.scan_eq_none] at hvictim
        simp [FairShare.total, hvictim] at hover
      | some key =>
        obtain ⟨e, hpicks, rfl⟩ := FairShare.picks_of_scan hvictim
        have hsize := h.sound.size_remove hpicks.mem
        refine ih h.drop ?_
        simp only [FairShare.size] at hsize
        simp only
        omega
    · exact ⟨h, rfl, not_lt.mp hover⟩

structure JoinLocks.Kept (budget : Nat) (s : JoinLocks) : Prop where
  mirrors : s.Mirrors
  total : s.ledger.total ≤ budget
  same : s.budget = budget

variable {budget : Nat}

theorem JoinLocks.Kept.use (h : s.Kept budget) :
    JoinLocks.Kept budget { s with ledger := s.ledger.touch key } :=
  ⟨h.mirrors.use, FairShare.total_touch.trans_le h.total, h.same⟩

theorem JoinLocks.Kept.add (h : s.Kept budget) :
    let s' := { s with
      records := s.records.insert key links
      ledger := s.ledger.put key share (recordBytes key links) }
    JoinLocks.Kept budget (JoinLocks.enforceBudget s'.ledger.entries.length s') := by
  intro s'
  obtain ⟨hmirrors, hbudget, htotal⟩ := enforceBudget_within h.mirrors.add le_rfl
  exact ⟨hmirrors, htotal.trans h.same.le, hbudget.trans h.same⟩

theorem JoinLocks.Kept.call (h : s.Kept budget) (call : LockCall) :
    (s.call c call).Kept budget := by
  cases call with
  | get key =>
    simp only [JoinLocks.call, JoinLocks.get]
    cases s.records[key]? with
    | none => exact h
    | some links => exact h.use
  | put server owner submitted share =>
    rcases put_state c server owner s submitted share with hsame | ⟨next, -, hkeep⟩
    · rw [JoinLocks.call, hsame]
      exact h
    · rw [JoinLocks.call, hkeep, JoinLocks.keep]
      split_ifs
      · exact h.use
      · exact h.add
  | restore key links share =>
    rw [JoinLocks.call, JoinLocks.restore]
    split_ifs
    · exact h
    · exact h.add

theorem joinLocks_kept (calls : List LockCall) (h : s.Kept budget) :
    (calls.foldl (JoinLocks.call c) s).Kept budget := by
  induction calls generalizing s with
  | nil => exact h
  | cons call calls ih => exact ih (h.call call)

/-- The ledger's totals, indexes and victims are those of its entries after any operations, and the
table of join locks keeps a record for each of the ledger's keys, weighed by its bytes, and the
budget over any calls. -/
theorem ledger_exact :
    (∀ (κ : Type) [LinearOrder κ] (ops : List (LedgerOp κ)),
      (ops.foldl IndexedShare.apply {}).Exact (ops.foldl FairShare.apply {})) ∧
    ∀ (c : LockCrypto) (budget : Nat) (calls : List LockCall),
      (calls.foldl (JoinLocks.call c) { budget }).Kept budget := by
  refine ⟨fun κ _ ops => IndexedShare.run_exact ops, fun c budget calls => ?_⟩
  refine joinLocks_kept calls ⟨⟨fun key bytes => ?_, [], rfl⟩, Nat.zero_le _, rfl⟩
  simp

end Calls

end Hollow.Relay
