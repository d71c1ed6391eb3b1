import Hollow.Crdt.Rules

/-! What the anchor makes of the fold: who holds the owner role, and that the owner pin never moves
once set. -/

namespace Hollow.Crdt

namespace Snapshot

variable {w : World} {s t : Snapshot} {op : CrdtOp}

theorem currentOwner_eq_none_iff :
    s.currentOwner = none ↔ ∀ (p : String) (r), s.roles[p]? = some r → r.value ≠ .owner := by
  simp only [currentOwner, Option.map_eq_none_iff, List.find?_eq_none, Prod.forall,
    Std.ExtTreeMap.mem_toList_iff_getElem?_eq_some, beq_iff_eq, ne_eq]

theorem role_of_currentOwner {p : String} (h : s.currentOwner = some p) :
    ∃ r, s.roles[p]? = some r ∧ r.value = .owner := by
  simp only [currentOwner, Option.map_eq_some_iff] at h
  obtain ⟨⟨q, r⟩, hfind, rfl⟩ := h
  refine ⟨r, ?_, by simpa using List.find?_some hfind⟩
  exact Std.ExtTreeMap.mem_toList_iff_getElem?_eq_some.mp (List.mem_of_find?_eq_some hfind)

theorem mem_owners_iff {p : String} :
    p ∈ s.owners ↔ ∃ r, s.roles[p]? = some r ∧ r.value = .owner := by
  simp only [owners, List.mem_map, List.mem_filter, Prod.exists, beq_iff_eq,
    Std.ExtTreeMap.mem_toList_iff_getElem?_eq_some]
  constructor
  · rintro ⟨q, r, hr, rfl⟩
    exact ⟨r, hr⟩
  · rintro ⟨r, hr⟩
    exact ⟨p, r, hr, rfl⟩

/-- The state a rebuild starts from: nothing materialized and no checkpoint. -/
def IsReset (s : Snapshot) : Prop := s.toMaterialized = {} ∧ s.checkpointHlc = none

theorem isReset_skeleton {serverId : String} : (skeleton serverId).IsReset := ⟨rfl, rfl⟩

theorem IsReset.currentOwner (h : s.IsReset) : s.currentOwner = none := by
  rw [currentOwner_eq_none_iff]
  intro p r hr
  simp [h.1] at hr

/-- An allowed op leaves the pinned owner as it was, checkpoints and foundings included. -/
theorem ownerPin_applyPayload {p : String} (hpin : s.ownerPin = some p)
    (hallowed : s.opAllowed w op) : (s.applyPayload w op).ownerPin = some p := by
  rcases applyPayload_cases w s op with h | ⟨_, _, _, -, -, h⟩ | ⟨state, covers, base, hp, -, h⟩ |
    ⟨-, -, h⟩
  · rw [h, hpin]
  · rw [h, seedFounder_ownerPin, hpin]
    rfl
  · rw [opAllowed_of_checkpoint hp, checkpointAllowed_iff] at hallowed
    have howner : s.anchorOwner = some p := by simp [anchorOwner, hpin]
    have hauthor := hallowed.2.2
    simp only [howner] at hauthor
    rw [h, hauthor]
    rfl
  · rw [h]
    exact hpin

end Snapshot

end Hollow.Crdt
