import Hollow.Mls.Past

/-! The rows of one past epoch, which a save leaves as a late frame finds them, and what a save
holds and leaves on disk. -/

namespace Hollow.Mls.Past

open Dict StableSort

variable {unpack : Bytes → Option (List (Bytes × Bytes))}

section LayOver

variable {values : Rows} {rows : List (Bytes × Bytes)} {k v : Bytes}

theorem lookup_layRow_of_ne (values : Rows) (r : Bytes × Bytes) (hne : k ≠ r.1) :
    (if r.2 = [] then values.erase r.1 else values.insert r.1 r.2).lookup k = values.lookup k := by
  split_ifs
  · exact AList.lookup_erase_ne hne
  · exact AList.lookup_insert_ne hne

theorem lookup_layOver_of_not_mem (h : ∀ v, (k, v) ∉ rows) :
    (layOver values rows).lookup k = values.lookup k :=
  lookup_foldl_of_not_mem lookup_layRow_of_ne h

theorem lookup_layOver_of_mem (h : (k, v) ∈ rows) (hone : ∀ w, (k, w) ∈ rows → w = v) :
    (layOver values rows).lookup k = if v = [] then none else some v := by
  refine lookup_foldl_of_mem lookup_layRow_of_ne (fun values => ?_) h hone
  split_ifs
  · exact AList.lookup_erase _ _
  · exact AList.lookup_insert _

end LayOver

theorem lookup_stored (p : PastEpoch) (k : Bytes) :
    (p.stored unpack).lookup k =
      match p.overrides.lookup k with
      | some v => if v = [] then none else some v
      | none => (extend ∅ ((unpack p.packed).getD []) : Rows).lookup k := by
  rw [PastEpoch.stored]
  cases hk : p.overrides.lookup k with
  | none =>
    refine lookup_layOver_of_not_mem fun v hv => ?_
    rw [mem_pairs, hk] at hv
    cases hv
  | some v =>
    refine lookup_layOver_of_mem (mem_pairs.mpr hk) fun w hw => ?_
    rw [mem_pairs, hk] at hw
    exact (Option.some_inj.mp hw).symm

/-- The unpacked store differs from the rows it was unpacked from where it was written. -/
structure OpenPast.Fits (base : Rows) (o : OpenPast) : Prop where
  packed : packedKey ∉ o.dirty
  clean : ∀ k ∉ o.dirty, o.values.lookup k = base.lookup k
  filled : ∀ k ∈ o.dirty, o.values.lookup k ≠ some []

theorem OpenPast.Fits.write {base : Rows} {o : OpenPast} (h : o.Fits base)
    {row : Bytes × Option Bytes} (hkey : row.1 ≠ packedKey) (hvalue : row.2 ≠ some []) :
    (o.write row).Fits base := by
  obtain ⟨key, value⟩ := row
  have hsame : ((o.write (key, value)).values).lookup key = value := by
    cases value with
    | none => exact AList.lookup_erase _ _
    | some v => exact AList.lookup_insert _
  have hother : ∀ k ≠ key, ((o.write (key, value)).values).lookup k = o.values.lookup k := by
    intro k hk
    cases value with
    | none => exact AList.lookup_erase_ne hk
    | some v => exact AList.lookup_insert_ne hk
  refine ⟨?_, fun k hk => ?_, fun k hk => ?_⟩
  · intro hmem
    rcases List.mem_insert_iff.mp hmem with heq | hmem
    · exact hkey heq.symm
    · exact h.packed hmem
  · have hk := fun hm => hk (List.mem_insert_iff.mpr hm)
    rw [hother k fun heq => hk (.inl heq)]
    exact h.clean k fun hm => hk (.inr hm)
  · by_cases heq : k = key
    · rw [heq, hsame]
      exact hvalue
    · rw [hother k heq]
      exact h.filled k ((List.mem_insert_iff.mp hk).resolve_left heq)

namespace PastEpoch

structure Sound (unpack : Bytes → Option (List (Bytes × Bytes))) (p : PastEpoch) : Prop where
  packed : p.overrides.lookup packedKey = none
  opened : ∀ o, p.opened = some o → o.Fits (p.stored unpack)

variable {p : PastEpoch} {now : Nat}

theorem Sound.slot (h : p.Sound unpack) : (p.slot unpack now).Fits (p.stored unpack) := by
  cases hp : p.opened with
  | none =>
    rw [PastEpoch.slot, hp]
    exact ⟨List.not_mem_nil, fun _ _ => rfl, fun k hk => absurd hk List.not_mem_nil⟩
  | some o =>
    rw [PastEpoch.slot, hp]
    have ho := h.opened o hp
    exact ⟨ho.packed, ho.clean, ho.filled⟩

/-- Opening a past epoch and writing to it leaves it sound. -/
theorem Sound.open_ (h : p.Sound unpack) {writes : List (Bytes × Option Bytes)}
    (hwrites : ∀ row ∈ writes, row.1 ≠ packedKey ∧ row.2 ≠ some []) :
    (p.open_ unpack now writes).Sound unpack where
  packed := h.packed
  opened o ho := by
    cases ho
    have hfits : ∀ (o : OpenPast), o.Fits (p.stored unpack) →
        (writes.foldl OpenPast.write o).Fits (p.stored unpack) := by
      clear h
      induction writes with
      | nil => exact fun o ho => ho
      | cons row writes ih =>
        intro o ho
        obtain ⟨hkey, hvalue⟩ := hwrites row List.mem_cons_self
        exact ih (fun r hr => hwrites r (List.mem_cons_of_mem row hr)) _ (ho.write hkey hvalue)
    exact hfits _ h.slot

theorem lookup_overrides_taken (now : Nat) (k : Bytes) :
    (p.taken now).overrides.lookup k =
      match p.opened with
      | some o => if k ∈ o.dirty then some ((o.values.lookup k).getD []) else p.overrides.lookup k
      | none => p.overrides.lookup k := by
  change (p.overrides.extend p.changed).lookup k = _
  rw [changed]
  cases p.opened with
  | none => rfl
  | some o =>
    dsimp only
    split_ifs with hk
    · exact lookup_extend_map_of_mem _ hk
    · exact lookup_extend_map_of_not_mem _ hk

theorem Sound.lookup_stored_taken (h : p.Sound unpack) (now : Nat) (k : Bytes) :
    ((p.taken now).stored unpack).lookup k = p.rows unpack k := by
  rw [lookup_stored, lookup_overrides_taken, rows]
  cases hp : p.opened with
  | none => exact (lookup_stored p k).symm
  | some o =>
    have ho := h.opened o hp
    dsimp only
    by_cases hk : k ∈ o.dirty
    · rw [if_pos hk]
      dsimp only
      cases hv : o.values.lookup k with
      | none => rfl
      | some v =>
        refine if_neg fun hnil => ho.filled k hk ?_
        rw [hv]
        exact congrArg some hnil
    · rw [if_neg hk, ho.clean k hk, lookup_stored]
      rfl

theorem Sound.taken (h : p.Sound unpack) : (p.taken now).Sound unpack where
  packed := by
    rw [lookup_overrides_taken]
    cases hp : p.opened with
    | none => exact h.packed
    | some o =>
      dsimp only
      rw [if_neg (h.opened o hp).packed]
      exact h.packed
  opened o ho := by
    have hrows := h.lookup_stored_taken now
    rw [PastEpoch.taken] at ho
    cases hp : p.opened with
    | none => simp [hp] at ho
    | some o' =>
      simp only [hp] at ho
      split_ifs at ho
      cases ho
      refine ⟨List.not_mem_nil, fun k _ => ?_, fun k hk => absurd hk List.not_mem_nil⟩
      rw [hrows, rows, hp]

theorem Sound.rows_taken (h : p.Sound unpack) (now : Nat) :
    (p.taken now).rows unpack = p.rows unpack := by
  funext k
  rw [← h.lookup_stored_taken now k, rows]
  cases hp : (p.taken now).opened with
  | none => rfl
  | some o =>
    -- a store that stays open has no change left to take
    have hdirty : o.dirty = [] := by
      rw [PastEpoch.taken] at hp
      cases ho : p.opened with
      | none => simp [ho] at hp
      | some o' =>
        simp only [ho] at hp
        split_ifs at hp
        cases hp
        rfl
    exact (h.taken.opened o hp).clean k (hdirty ▸ List.not_mem_nil)

theorem stored_congr {q : PastEpoch} (hpacked : p.packed = q.packed)
    (hoverrides : ∀ k, p.overrides.lookup k = q.overrides.lookup k) (k : Bytes) :
    (p.stored unpack).lookup k = (q.stored unpack).lookup k := by
  rw [lookup_stored, lookup_stored, hpacked, hoverrides]

end PastEpoch

namespace Disk

variable {disk : Disk} {scope : Scope} {save : MlsSave}

theorem lookup_clear_of_mem {scopes : List Scope} (h : scope ∈ scopes) :
    (disk.clear scopes).lookup scope = none := by
  rw [clear]
  induction scopes using List.reverseRecOn with
  | nil => cases h
  | append_singleton scopes s ih =>
    rw [List.foldl_concat]
    by_cases hs : scope = s
    · rw [hs]
      exact AList.lookup_erase _ _
    · rw [AList.lookup_erase_ne hs]
      exact ih ((List.mem_append.mp h).resolve_right fun hm => hs (List.mem_singleton.mp hm))

theorem lookup_clear_of_not_mem {scopes : List Scope} (h : scope ∉ scopes) :
    (disk.clear scopes).lookup scope = disk.lookup scope := by
  rw [clear]
  induction scopes using List.reverseRecOn with
  | nil => rfl
  | append_singleton scopes s ih =>
    rw [List.mem_append, not_or, List.mem_singleton] at h
    rw [List.foldl_concat, AList.lookup_erase_ne h.2]
    exact ih h.1

theorem lookup_emptied (h : scope ∈ save.cleared ∨ disk.lookup scope = none) :
    (disk.clear (disk.emptied save)).lookup scope = none := by
  by_cases hs : scope ∈ disk.emptied save
  · exact lookup_clear_of_mem hs
  · rw [lookup_clear_of_not_mem hs]
    exact h.resolve_left fun hm => hs (List.mem_append_right _ hm)

theorem lookup_put_ne {row : Scope × Bytes × Bytes} (h : scope ≠ row.1) :
    (disk.put row).lookup scope = disk.lookup scope := AList.lookup_insert_ne h

theorem rowsOf_put_self (row : Scope × Bytes × Bytes) :
    (disk.put row).rowsOf row.1 = (disk.rowsOf row.1).insert row.2.1 row.2.2 := by
  rw [rowsOf, put, AList.lookup_insert]
  rfl

theorem lookup_putAll_of_not_mem {rows : List (Scope × Bytes × Bytes)}
    (h : ∀ r, (scope, r) ∉ rows) : (rows.foldl put disk).lookup scope = disk.lookup scope := by
  induction rows generalizing disk with
  | nil => rfl
  | cons row rows ih =>
    rw [List.foldl_cons, ih fun r hr => h r (List.mem_cons_of_mem row hr)]
    exact lookup_put_ne fun heq => h row.2 (heq ▸ List.mem_cons_self)

theorem rowsOf_putAll (rows : List (Scope × Bytes × Bytes)) :
    (rows.foldl put disk).rowsOf scope =
      (disk.rowsOf scope).extend ((rows.filter (·.1 = scope)).map (·.2)) := by
  induction rows generalizing disk with
  | nil => rfl
  | cons row rows ih =>
    rw [List.foldl_cons, ih]
    by_cases hs : row.1 = scope
    · subst hs
      rw [rowsOf_put_self, List.filter_cons_of_pos (by simp), List.map_cons, extend, extend,
        List.foldl_cons]
    · have hrows : (disk.put row).rowsOf scope = disk.rowsOf scope := by
        rw [rowsOf, lookup_put_ne (Ne.symm hs), rowsOf]
      rw [hrows, List.filter_cons_of_neg (by simpa using hs)]

theorem lookup_write_of_fresh (hrows : ∀ r, (scope, r) ∉ save.rows)
    (h : scope ∈ save.cleared ∨ disk.lookup scope = none) :
    (disk.write save).lookup scope = none := by
  rw [write, lookup_putAll_of_not_mem hrows, lookup_emptied h]

theorem rowsOf_write_of_fresh (h : scope ∈ save.cleared ∨ disk.lookup scope = none) :
    (disk.write save).rowsOf scope =
      extend ∅ ((save.rows.filter (·.1 = scope)).map (·.2)) := by
  rw [write, rowsOf_putAll, rowsOf, lookup_emptied h]
  rfl

theorem rowsOf_write_of_kept (hcleared : scope ∉ save.cleared) (hretain : save.retainOnly = none) :
    (disk.write save).rowsOf scope =
      (disk.rowsOf scope).extend ((save.rows.filter (·.1 = scope)).map (·.2)) := by
  have hs : scope ∉ disk.emptied save := by
    rw [emptied, hretain]
    exact hcleared
  rw [write, rowsOf_putAll, rowsOf, lookup_clear_of_not_mem hs]
  rfl

end Disk

namespace PastEpochs

variable {past : PastEpochs} {g : String} {e : Nat} {whole : Bool}

theorem mem_ring_iff {p : PastEpoch} :
    p ∈ past.ring g ↔ ∃ ring, (g, ring) ∈ past.held.pairs ∧ p ∈ ring := by
  rw [ring]
  cases h : past.held.lookup g with
  | none =>
    constructor
    · intro hp
      cases hp
    · rintro ⟨ring, hring, _⟩
      rw [mem_pairs, h] at hring
      cases hring
  | some ring =>
    constructor
    · exact fun hp => ⟨ring, mem_pairs.mpr h, hp⟩
    · rintro ⟨ring', hring, hp⟩
      rw [mem_pairs, h] at hring
      cases hring
      exact hp

theorem mem_save_rows {r : Bytes × Bytes} :
    ((g, e), r) ∈ (past.save whole).rows ↔
      ∃ p ∈ past.ring g, p.epoch = e ∧ r ∈ p.savedRows whole := by
  simp only [save, List.mem_flatMap, List.mem_map, Prod.mk.injEq, mem_ring_iff]
  constructor
  · rintro ⟨⟨g', ring⟩, hring, p, hp, r', hr', ⟨rfl, rfl⟩, rfl⟩
    exact ⟨p, ⟨ring, hring, hp⟩, rfl, hr'⟩
  · rintro ⟨p, ⟨ring, hring, hp⟩, rfl, hr⟩
    exact ⟨(g, ring), hring, p, hp, r, hr, ⟨rfl, rfl⟩, rfl⟩

theorem mem_heldScopes :
    (g, e) ∈ past.held.pairs.flatMap (fun g => g.2.map fun p => (g.1, p.epoch)) ↔
      e ∈ past.epochs g := by
  simp only [epochs, List.mem_flatMap, List.mem_map, Prod.mk.injEq, mem_ring_iff]
  constructor
  · rintro ⟨⟨g', ring⟩, hring, p, hp, rfl, rfl⟩
    exact ⟨p, ⟨ring, hring, hp⟩, rfl⟩
  · rintro ⟨p, ⟨ring, hring, hp⟩, rfl⟩
    exact ⟨(g, ring), hring, p, hp, rfl, rfl⟩

theorem ring_taken (now : Nat) : (past.taken now).ring g = (past.ring g).map (·.taken now) := by
  rw [ring, ring, taken]
  cases h : past.held.lookup g with
  | none =>
    rw [lookup_extend_of_not_mem]
    · rfl
    · intro v hv
      obtain ⟨⟨g', ring⟩, hring, heq⟩ := List.mem_map.mp hv
      cases heq
      rw [mem_pairs, h] at hring
      cases hring
  | some r =>
    rw [lookup_extend_of_mem (v := r.map (·.taken now))
      (List.mem_map.mpr ⟨(g, r), mem_pairs.mpr h, rfl⟩)]
    · rfl
    · intro w hw
      obtain ⟨⟨g', ring⟩, hring, heq⟩ := List.mem_map.mp hw
      cases heq
      rw [mem_pairs, h] at hring
      cases hring
      rfl

end PastEpochs

end Hollow.Mls.Past
