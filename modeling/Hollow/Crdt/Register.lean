import Hollow.Crdt.LockState

/-! Last-writer-wins registers and the maps of them that a server state is made of. A hash map of
the source is an ordered map here: nothing in the code depends on the order its entries come in
except where a comment says so. -/

namespace Hollow.Crdt

abbrev Map (V : Type) : Type := Std.ExtTreeMap String V

/-- A last-writer-wins register. The priority is metadata that no merge reads; lifting a ban or a
mute does. -/
structure AdminLwwReg (V : Type) where
  value : V
  priority : Nat
  hlc : HlcTimestamp
deriving DecidableEq

namespace AdminLwwReg

variable {V : Type}

def merge (r other : AdminLwwReg V) : AdminLwwReg V :=
  if other.hlc > r.hlc then other else r

def clampHlc (r : AdminLwwReg V) (maxMs : Nat) : AdminLwwReg V :=
  { r with hlc := r.hlc.clampHlc maxMs }

@[simp] theorem merge_self (r : AdminLwwReg V) : r.merge r = r := by simp [merge]

@[simp] theorem clampHlc_value (r : AdminLwwReg V) (maxMs : Nat) :
    (r.clampHlc maxMs).value = r.value := rfl

theorem merge_eq_or (r other : AdminLwwReg V) : r.merge other = r ∨ r.merge other = other := by
  unfold merge
  split
  · exact .inr rfl
  · exact .inl rfl

end AdminLwwReg

namespace Map

variable {V : Type}

/-- The entry of a key, made where there is none, merged with a write. -/
def mergeAt (m : Map (AdminLwwReg V)) (k : String) (write : AdminLwwReg V) :
    Map (AdminLwwReg V) :=
  m.insert k ((m[k]?.getD write).merge write)

def clampHlcs (m : Map (AdminLwwReg V)) (maxMs : Nat) : Map (AdminLwwReg V) :=
  m.map fun _ r => r.clampHlc maxMs

theorem getElem?_insert (m : Map V) (k a : String) (v : V) :
    (m.insert k v)[a]? = if k = a then some v else m[a]? := by
  simp [Std.ExtTreeMap.getElem?_insert]

theorem getElem?_erase (m : Map V) (k a : String) :
    (m.erase k)[a]? = if k = a then none else m[a]? := by
  simp [Std.ExtTreeMap.getElem?_erase]

theorem getElem?_insertIfNew (m : Map V) (k a : String) (v : V) :
    (m.insertIfNew k v)[a]? = if k = a then some (m[k]?.getD v) else m[a]? := by
  rw [Std.ExtTreeMap.getElem?_insertIfNew]
  by_cases hk : k = a
  · subst hk
    by_cases hm : k ∈ m <;> simp [hm]
  · simp [hk]

theorem getElem?_modify (m : Map V) (k a : String) (f : V → V) :
    (m.modify k f)[a]? = if k = a then m[k]?.map f else m[a]? := by
  simp [Std.ExtTreeMap.getElem?_modify]

theorem getElem?_filter (m : Map V) (f : String → V → Bool) (a : String) :
    (m.filter f)[a]? = m[a]?.filter (f a) := by
  rw [Std.ExtTreeMap.getElem?_filter]
  simp [Std.ExtTreeMap.getKey_eq, Option.pfilter_eq_filter]

theorem getElem?_map {W : Type} (m : Map V) (f : String → V → W) (a : String) :
    (m.map f)[a]? = m[a]?.map (f a) :=
  Std.ExtTreeMap.getElem?_map

theorem contains_iff (m : Map V) (a : String) : m.contains a ↔ ∃ v, m[a]? = some v := by
  rw [Std.ExtTreeMap.contains_eq_isSome_getElem?, Option.isSome_iff_exists]

theorem contains_insert (m : Map V) (k a : String) (v : V) :
    (m.insert k v).contains a = (decide (k = a) || m.contains a) := by
  by_cases hk : k = a <;> simp [Std.ExtTreeMap.contains_insert, hk]

theorem contains_insertIfNew (m : Map V) (k a : String) (v : V) :
    (m.insertIfNew k v).contains a = (decide (k = a) || m.contains a) := by
  by_cases hk : k = a <;> simp [Std.ExtTreeMap.contains_insertIfNew, hk]

theorem contains_erase (m : Map V) (k a : String) :
    (m.erase k).contains a = (decide (k ≠ a) && m.contains a) := by
  by_cases hk : k = a <;> simp [Std.ExtTreeMap.contains_erase, hk]

theorem getElem?_mergeAt (m : Map (AdminLwwReg V)) (k a : String) (write : AdminLwwReg V) :
    (mergeAt m k write)[a]? =
      if k = a then some ((m[k]?.getD write).merge write) else m[a]? :=
  getElem?_insert m k a _

/-- A register after a merge is the one held before or the one written. -/
theorem mergeAt_cases {m : Map (AdminLwwReg V)} {k a : String} {write r : AdminLwwReg V}
    (h : (mergeAt m k write)[a]? = some r) : m[a]? = some r ∨ (k = a ∧ r = write) := by
  rw [getElem?_mergeAt] at h
  split at h
  · rename_i hk
    subst hk
    cases hm : m[k]? with
    | none => simp_all
    | some old =>
      rcases old.merge_eq_or write with hw | hw <;> simp_all
  · exact .inl h

end Map

end Hollow.Crdt
