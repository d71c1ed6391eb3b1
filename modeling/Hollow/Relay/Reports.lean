import Mathlib
import Hollow.Lib.Dict
import Hollow.Relay.FairShare

/-! User reports (`reports.cpp`). Each report is charged to the address share it came from; past the
byte budget the share that holds the most gives up its least recently used report. A share that
holds no more than its part of the table loses nothing to the others. -/

namespace Hollow.Relay.Reports

/-- What one entry counts. -/
structure Held where
  target : String
  category : String
  n : Nat

/-- Every entry costs the same: two copies of a fingerprint, a target, the longest category and the
maps. -/
def entryBytes : Nat := 384 + 2 * 64 + 64 + 16

structure ReportsState where
  /-- The reports by their fingerprints. -/
  held : Dict String Held := ∅
  ledger : FairShare String := {}
  budget : Nat
  /-- Per target and category. -/
  counts : String → String → Nat := fun _ _ => 0
  dirty : Bool := false

namespace ReportsState

def setCount (s : ReportsState) (h : Held) (n : Nat) : ReportsState :=
  let category := Function.update (s.counts h.target) h.category n
  { s with counts := Function.update s.counts h.target category }

def count (s : ReportsState) (h : Held) (add : Bool) : ReportsState :=
  if h.n = 0 then s
  else if add then s.setCount h (s.counts h.target h.category + h.n)
  else s.setCount h (s.counts h.target h.category - min (s.counts h.target h.category) h.n)

def hold (s : ReportsState) (key : String) (h : Held) (share : Nat) : ReportsState :=
  if key ∈ s.held then s
  else
    let s := { s with held := s.held.insert key h }.count h true
    { s with ledger := s.ledger.put key share entryBytes }

def drop (s : ReportsState) (key : String) : ReportsState :=
  match s.held.lookup key with
  | none => s
  | some h =>
    let s := s.count h false
    { s with held := s.held.erase key, ledger := s.ledger.remove key }

def victim (s : ReportsState) : Option String → Option String
  | some spare => s.ledger.victimExcept spare
  | none => s.ledger.victim

/-- Evicts down to the budget, in at most `fuel` turns, never `spare`. -/
def trim (spare : Option String) : Nat → ReportsState → ReportsState
  | 0, s => s
  | fuel + 1, s =>
    if s.ledger.total ≤ s.budget then s
    else
      match s.victim spare with
      | none => s
      | some v => trim spare fuel { s.drop v with dirty := true }

end ReportsState

structure Report where
  reporter : String
  target : String
  category : String
  share : Nat

section Adds

-- the keyed hash of a reporter, a target and a category
variable (fingerprint : String → String → String → String)

def Report.key (r : Report) : String := fingerprint r.reporter r.target r.category

/-- The table with a new report in it, before anything gives way. -/
def ReportsState.entered (s : ReportsState) (r : Report) : ReportsState :=
  s.hold (r.key fingerprint) ⟨r.target, r.category, 1⟩ r.share

/-- Whether the report was new, and the table after it. -/
def ReportsState.add (s : ReportsState) (r : Report) : Bool × ReportsState :=
  if r.key fingerprint ∈ s.held then
    (false, { s with ledger := s.ledger.touch (r.key fingerprint) })
  else
    let s := s.entered fingerprint r
    let s := s.trim (some (r.key fingerprint)) s.ledger.size
    (true, { s with dirty := true })

end Adds

/-- The table a relay starts with: the reports of its file, oldest first, and the counts it carries
without their fingerprints. -/
def load (budget : Nat) (reports : List (String × Held × Nat)) (carried : List Held) :
    ReportsState :=
  let s := reports.foldl (fun (s : ReportsState) r => s.hold r.1 r.2.1 r.2.2) { budget }
  let s := carried.foldl (fun (s : ReportsState) h => s.count h true) s
  s.trim none s.ledger.size

/-- The reports are those of the ledger, each at the same cost. -/
structure Sound (s : ReportsState) : Prop where
  ledger : s.ledger.Sound
  weight : ∀ e ∈ s.ledger.entries, e.weight = entryBytes
  held : ∀ key, key ∈ s.held ↔ ∃ e ∈ s.ledger.entries, e.key = key

section Steps

variable {s : ReportsState} {key : String} {h : Held} {share : Nat} {add : Bool}

@[simp] theorem count_held : (s.count h add).held = s.held := by
  rw [ReportsState.count]
  split_ifs <;> rfl

@[simp] theorem count_ledger : (s.count h add).ledger = s.ledger := by
  rw [ReportsState.count]
  split_ifs <;> rfl

@[simp] theorem count_budget : (s.count h add).budget = s.budget := by
  rw [ReportsState.count]
  split_ifs <;> rfl

theorem hold_of_mem (hkey : key ∈ s.held) : s.hold key h share = s := if_pos hkey

theorem hold_of_new (hkey : key ∉ s.held) :
    (s.hold key h share).held = s.held.insert key h ∧
      (s.hold key h share).ledger = s.ledger.put key share entryBytes := by
  rw [ReportsState.hold, if_neg hkey]
  simp

theorem hold_budget : (s.hold key h share).budget = s.budget := by
  rw [ReportsState.hold]
  split_ifs
  · rfl
  · simp

theorem Sound.hold (hs : Sound s) : Sound (s.hold key h share) := by
  by_cases hkey : key ∈ s.held
  · rwa [hold_of_mem hkey]
  obtain ⟨hheld, hledger⟩ := @hold_of_new s key h share hkey
  refine ⟨?_, ?_, fun key' => ?_⟩
  · rw [hledger]
    exact hs.ledger.put
  · rw [hledger]
    intro e he
    rcases FairShare.mem_put.mp he with ⟨he, -⟩ | rfl
    · exact hs.weight e he
    · rfl
  · rw [hheld, hledger, AList.mem_insert, hs.held]
    simp only [FairShare.mem_put]
    constructor
    · rintro (rfl | ⟨e, he, rfl⟩)
      · exact ⟨_, .inr rfl, rfl⟩
      · exact ⟨e, .inl ⟨he, fun hsame => hkey (hsame ▸ (hs.held _).mpr ⟨e, he, rfl⟩)⟩, rfl⟩
    · rintro ⟨e, ⟨he, -⟩ | rfl, rfl⟩
      · exact .inr ⟨e, he, rfl⟩
      · exact .inl rfl

theorem drop_of_mem (hkey : key ∈ s.held) :
    (s.drop key).held = s.held.erase key ∧ (s.drop key).ledger = s.ledger.remove key ∧
      (s.drop key).budget = s.budget := by
  obtain ⟨h, hh⟩ := Option.isSome_iff_exists.mp (AList.lookup_isSome.mpr hkey)
  rw [ReportsState.drop, hh]
  simp

theorem Sound.drop (hs : Sound s) (hkey : key ∈ s.held) : Sound (s.drop key) := by
  obtain ⟨hheld, hledger, -⟩ := drop_of_mem hkey
  refine ⟨?_, ?_, fun key' => ?_⟩
  · rw [hledger]
    exact hs.ledger.remove
  · rw [hledger]
    exact fun e he => hs.weight e (FairShare.mem_remove.mp he).1
  · rw [hheld, hledger, AList.mem_erase, hs.held]
    simp only [FairShare.mem_remove]
    constructor
    · rintro ⟨hne, e, he, rfl⟩
      exact ⟨e, ⟨he, hne⟩, rfl⟩
    · rintro ⟨e, ⟨he, hne⟩, rfl⟩
      exact ⟨hne, e, he, rfl⟩

end Steps

def entriesOf (f : FairShare String) (share : Nat) : Nat := (f.entries.map (·.share)).count share

def sharesOf (f : FairShare String) : Nat := (f.entries.map (·.share)).toFinset.card

/-- The share holds no more than its part of a table of so many entries. -/
def Fits (f : FairShare String) (share capacity : Nat) : Prop :=
  entriesOf f share ≤ capacity / sharesOf f

instance {f : FairShare String} {share capacity : Nat} : Decidable (Fits f share capacity) :=
  inferInstanceAs (Decidable (_ ≤ _))

section Shares

variable {f f' : FairShare String} {share capacity : Nat} {spare : Option String}
  {e : Entry String}

theorem held_eq (hweight : ∀ e ∈ f.entries, e.weight = entryBytes) :
    f.held share = entriesOf f share * entryBytes := by
  have hsame : (f.entries.filter (·.share = share)).map (·.weight) =
      List.replicate (entriesOf f share) entryBytes := by
    rw [List.eq_replicate_iff]
    constructor
    · rw [List.length_map, entriesOf, List.count, List.countP_map, List.countP_eq_length_filter]
      congr 2
    · intro w hw
      obtain ⟨e, he, rfl⟩ := List.mem_map.mp hw
      exact hweight e (List.mem_filter.mp he).1
  rw [FairShare.held, hsame, List.sum_replicate, smul_eq_mul]

theorem total_eq (hweight : ∀ e ∈ f.entries, e.weight = entryBytes) :
    f.total = f.size * entryBytes := by
  have hsame : f.entries.map (·.weight) = List.replicate f.size entryBytes := by
    rw [List.eq_replicate_iff]
    refine ⟨by simp [FairShare.size], fun w hw => ?_⟩
    obtain ⟨e, he, rfl⟩ := List.mem_map.mp hw
    exact hweight e he
  rw [FairShare.total, hsame, List.sum_replicate, smul_eq_mul]

theorem entriesOf_pos (he : e ∈ f.entries) : 0 < entriesOf f e.share :=
  List.count_pos_iff.mpr (List.mem_map_of_mem he)

theorem size_eq_sum : f.size = ∑ s ∈ (f.entries.map (·.share)).toFinset, entriesOf f s := by
  rw [FairShare.size, ← List.length_map (f := fun e : Entry String => e.share),
    ← List.sum_toFinset_count_eq_length]
  rfl

theorem entriesOf_le_one (hf : f.Sound) {key : String}
    (h : ∀ e ∈ f.entries, e.share = share → e.key = key) : entriesOf f share ≤ 1 := by
  rw [entriesOf, List.count, List.countP_map, List.countP_eq_length_filter]
  have hnodup := (List.Nodup.of_map _ hf.keys).filter fun e => e.share == share
  refine (List.toFinset_card_of_nodup hnodup).symm.trans_le (Finset.card_le_one.mpr ?_)
  intro e he e' he'
  rw [List.mem_toFinset, List.mem_filter, beq_iff_eq] at he he'
  exact hf.key_inj he.1 he'.1 ((h e he.1 he.2).trans (h e' he'.1 he'.2).symm)

theorem share_ne_of_picks (hf : f.Sound) (hweight : ∀ e ∈ f.entries, e.weight = entryBytes)
    (hfits : Fits f share capacity) (hover : capacity < f.size) (hheld : 0 < entriesOf f share)
    {others : List (Entry String)} {key : String}
    (hspared : ∀ e ∈ f.entries, e ∉ others → e.key = key)
    (hpicks : f.Picks others e) : e.share ≠ share := by
  rintro rfl
  have hmost : ∀ s ∈ (f.entries.map (·.share)).toFinset, entriesOf f s ≤ entriesOf f e.share := by
    intro s hs
    by_cases hother : ∃ e' ∈ others, e'.share = s
    · obtain ⟨e', he', rfl⟩ := hother
      have hle := Prod.Lex.monotone_fst _ _ (hpicks.heaviest e' he')
      simp only [ofLex_toLex] at hle
      rw [held_eq hweight, held_eq hweight] at hle
      exact Nat.le_of_mul_le_mul_right hle (by decide)
    · have hone : ∀ e' ∈ f.entries, e'.share = s → e'.key = key := fun e' he' hshare =>
        hspared e' he' fun h => hother ⟨e', h, hshare⟩
      exact (entriesOf_le_one hf hone).trans hheld
  have hsum : f.size ≤ sharesOf f * entriesOf f e.share := by
    rw [size_eq_sum, sharesOf, ← smul_eq_mul]
    exact Finset.sum_le_card_nsmul _ _ _ hmost
  have hpart : sharesOf f * entriesOf f e.share ≤ capacity :=
    (Nat.mul_le_mul_left _ hfits).trans (Nat.mul_div_le capacity (sharesOf f))
  omega

theorem Fits.remove (hfits : Fits f share capacity) {key : String}
    (hheld : 0 < entriesOf (f.remove key) share) : Fits (f.remove key) share capacity := by
  have hsub : ((f.remove key).entries.map (·.share)).Sublist (f.entries.map (·.share)) :=
    List.filter_sublist.map _
  have hshares : sharesOf (f.remove key) ≤ sharesOf f :=
    Finset.card_le_card fun s hs => List.mem_toFinset.mpr (hsub.subset (List.mem_toFinset.mp hs))
  have hpos : 0 < sharesOf (f.remove key) :=
    Finset.card_pos.mpr ⟨share, List.mem_toFinset.mpr (List.count_pos_iff.mp hheld)⟩
  exact (hsub.count_le share).trans (hfits.trans (Nat.div_le_div_left hshares hpos))

end Shares

section Trim

variable {s : ReportsState} {spare : Option String} {fuel share : Nat}

/-- The entries that may give way. -/
def others (f : FairShare String) : Option String → List (Entry String)
  | some key => f.entries.filter (·.key ≠ key)
  | none => f.entries

theorem victim_eq_scan : s.victim spare = s.ledger.scan (others s.ledger spare) := by
  cases spare <;> rfl

theorem key_of_not_mem_others {f : FairShare String} {e : Entry String} (he : e ∈ f.entries)
    (h : e ∉ others f spare) : e.key = spare.getD "" := by
  cases spare with
  | none => exact absurd he h
  | some key =>
    by_contra hne
    exact h (List.mem_filter.mpr ⟨he, decide_eq_true hne⟩)

theorem others_subset {f : FairShare String} : others f spare ⊆ f.entries := by
  cases spare with
  | none => exact List.Subset.refl _
  | some key => exact List.filter_subset_self _

theorem trim_succ (hs : Sound s) : s.trim spare (fuel + 1) = s ∧
      (s.ledger.total ≤ s.budget ∨ others s.ledger spare = []) ∨
    s.budget < s.ledger.total ∧ ∃ e, s.ledger.Picks (others s.ledger spare) e ∧ e.key ∈ s.held ∧
      s.trim spare (fuel + 1) =
        ReportsState.trim spare fuel { s.drop e.key with dirty := true } := by
  have hturn : s.trim spare (fuel + 1) = if s.ledger.total ≤ s.budget then s else
      match s.victim spare with
      | none => s
      | some v => ReportsState.trim spare fuel { s.drop v with dirty := true } := rfl
  rw [hturn]
  by_cases htotal : s.ledger.total ≤ s.budget
  · rw [if_pos htotal]
    exact .inl ⟨rfl, .inl htotal⟩
  · rw [if_neg htotal, victim_eq_scan]
    cases hscan : s.ledger.scan (others s.ledger spare) with
    | none => exact .inl ⟨rfl, .inr (FairShare.scan_eq_none.mp hscan)⟩
    | some v =>
      obtain ⟨e, hpicks, rfl⟩ := FairShare.picks_of_scan hscan
      refine .inr ⟨not_le.mp htotal, e, hpicks, ?_, rfl⟩
      exact (hs.held _).mpr ⟨e, others_subset hpicks.mem, rfl⟩

theorem Sound.dirty (hs : Sound s) (dirty : Bool) : Sound { s with dirty } :=
  ⟨hs.ledger, hs.weight, hs.held⟩

theorem trim_within (hs : Sound s) (hfuel : s.ledger.size ≤ fuel) :
    Sound (s.trim spare fuel) ∧ (s.trim spare fuel).budget = s.budget ∧
      ((s.trim spare fuel).ledger.total ≤ s.budget ∨
        ∀ e ∈ (s.trim spare fuel).ledger.entries, e.key = spare.getD "") := by
  induction fuel generalizing s with
  | zero =>
    refine ⟨hs, rfl, .inl ?_⟩
    have hzero : s.ledger.size = 0 := Nat.le_zero.mp hfuel
    rw [ReportsState.trim, total_eq hs.weight, hzero, Nat.zero_mul]
    exact Nat.zero_le _
  | succ fuel ih =>
    rcases @trim_succ s spare fuel hs with ⟨hstop, hend⟩ | ⟨-, e, hpicks, hkey, hgo⟩
    · rw [hstop]
      refine ⟨hs, rfl, hend.imp_right fun hnone e he => key_of_not_mem_others he ?_⟩
      rw [hnone]
      exact List.not_mem_nil
    · rw [hgo]
      obtain ⟨-, hledger, hbudget⟩ := drop_of_mem hkey
      have hsize := hs.ledger.size_remove (others_subset hpicks.mem)
      have hdrop := (hs.drop hkey).dirty true
      have hrest := ih hdrop (by simp only [hledger]; omega)
      simpa only [hbudget] using hrest

/-- A share within its part loses nothing to the trim. -/
theorem trim_keeps (hs : Sound s) (hfits : Fits s.ledger share (s.budget / entryBytes))
    {e : Entry String} (he : e ∈ s.ledger.entries) (hshare : e.share = share) :
    e ∈ (s.trim spare fuel).ledger.entries := by
  induction fuel generalizing s with
  | zero => exact he
  | succ fuel ih =>
    rcases @trim_succ s spare fuel hs with ⟨hstop, -⟩ | ⟨hover, v, hpicks, hkey, hgo⟩
    · rwa [hstop]
    · rw [hgo]
      obtain ⟨-, hledger, hbudget⟩ := drop_of_mem hkey
      have hheld : 0 < entriesOf s.ledger share := hshare ▸ entriesOf_pos he
      have hcapacity : s.budget / entryBytes < s.ledger.size := by
        rw [Nat.div_lt_iff_lt_mul (by decide), ← total_eq hs.weight]
        exact hover
      have hne : v.share ≠ share :=
        share_ne_of_picks hs.ledger hs.weight hfits hcapacity hheld
          (fun _ he' hnot => key_of_not_mem_others he' hnot) hpicks
      have hstays : e ∈ (s.ledger.remove v.key).entries := by
        refine FairShare.mem_remove.mpr ⟨he, fun hsame => hne ?_⟩
        rw [← hs.ledger.key_inj he (others_subset hpicks.mem) hsame, hshare]
      have hfits' : Fits (s.ledger.remove v.key) share (s.budget / entryBytes) :=
        hfits.remove (hshare ▸ entriesOf_pos hstays)
      rw [← hledger] at hstays hfits'
      rw [← hbudget] at hfits'
      exact ih ((hs.drop hkey).dirty true) hfits' hstays

end Trim

def Charged (s : ReportsState) (key : String) (share : Nat) : Prop :=
  key ∈ s.held ∧ ∃ e ∈ s.ledger.entries, e.key = key ∧ e.share = share

/-- A table within its budget, but for the one report that is over it alone. -/
structure Settled (s : ReportsState) : Prop where
  sound : Sound s
  within : s.ledger.total ≤ s.budget ∨ ∃ key, ∀ e ∈ s.ledger.entries, e.key = key

section Add

variable {fingerprint : String → String → String → String} {s : ReportsState} {r : Report}

theorem Sound.charged (hs : Sound s) {e : Entry String} (he : e ∈ s.ledger.entries) :
    Charged s e.key e.share :=
  ⟨(hs.held _).mpr ⟨e, he, rfl⟩, e, he, rfl, rfl⟩

theorem add_of_mem (hkey : r.key fingerprint ∈ s.held) : (s.add fingerprint r).2 =
    { s with ledger := s.ledger.touch (r.key fingerprint) } := by
  rw [ReportsState.add, if_pos hkey]

theorem add_of_new (hkey : r.key fingerprint ∉ s.held) : (s.add fingerprint r).2 =
    { (s.entered fingerprint r).trim (some (r.key fingerprint))
      (s.entered fingerprint r).ledger.size with dirty := true } := by
  rw [ReportsState.add, if_neg hkey]

theorem mem_touch_row {key key' : String} {share weight : Nat} :
    (∃ e ∈ (s.ledger.touch key).entries, e.key = key' ∧ e.share = share ∧ e.weight = weight) ↔
      ∃ e ∈ s.ledger.entries, e.key = key' ∧ e.share = share ∧ e.weight = weight := by
  have hrows : (s.ledger.touch key).entries.map (fun e => (e.key, e.share, e.weight)) =
      s.ledger.entries.map fun e => (e.key, e.share, e.weight) :=
    FairShare.touch_map fun _ _ => rfl
  have hmem := Iff.of_eq (congrArg ((key', share, weight) ∈ ·) hrows)
  simpa only [List.mem_map, Prod.mk.injEq] using hmem

theorem Sound.touch (hs : Sound s) {key : String} :
    Sound { s with ledger := s.ledger.touch key } := by
  refine ⟨hs.ledger.touch, fun e he => ?_, fun key' => (hs.held key').trans ?_⟩
  · obtain ⟨e', he', -, -, hweight⟩ := mem_touch_row.mp ⟨e, he, rfl, rfl, rfl⟩
    rw [← hweight]
    exact hs.weight e' he'
  · constructor
    · rintro ⟨e, he, rfl⟩
      obtain ⟨e', he', hkey, -⟩ := mem_touch_row.mpr ⟨e, he, rfl, rfl, rfl⟩
      exact ⟨e', he', hkey⟩
    · rintro ⟨e, he, rfl⟩
      obtain ⟨e', he', hkey, -⟩ := mem_touch_row.mp ⟨e, he, rfl, rfl, rfl⟩
      exact ⟨e', he', hkey⟩

theorem Settled.within_add (hs : Settled s) : Sound (s.add fingerprint r).2 ∧
    (s.add fingerprint r).2.budget = s.budget ∧
    ((s.add fingerprint r).2.ledger.total ≤ s.budget ∨
      ∀ e ∈ (s.add fingerprint r).2.ledger.entries, e.key = r.key fingerprint) := by
  by_cases hkey : r.key fingerprint ∈ s.held
  · rw [add_of_mem hkey]
    refine ⟨hs.sound.touch, rfl, ?_⟩
    simp only [FairShare.total_touch]
    refine hs.within.imp_right ?_
    rintro ⟨key, hone⟩ e he
    obtain ⟨e', he', hsame, -⟩ := mem_touch_row.mp ⟨e, he, rfl, rfl, rfl⟩
    obtain ⟨e'', he'', hnew⟩ := (hs.sound.held _).mp hkey
    rw [← hsame, ← hnew, hone e' he', hone e'' he'']
  · rw [add_of_new hkey]
    obtain ⟨hsound, hbudget, hend⟩ := @trim_within (s.entered fingerprint r)
      (some (r.key fingerprint)) _ hs.sound.hold le_rfl
    have hsame : (s.entered fingerprint r).budget = s.budget := hold_budget
    refine ⟨hsound.dirty true, hbudget.trans hsame, ?_⟩
    rwa [hsame] at hend

theorem Settled.add (hs : Settled s) : Settled (s.add fingerprint r).2 := by
  obtain ⟨hsound, hbudget, hwithin⟩ := @Settled.within_add fingerprint s r hs
  exact ⟨hsound, hbudget ▸ hwithin.imp_right fun h => ⟨_, h⟩⟩

theorem Settled.charged_add (hs : Settled s) {key : String} {share : Nat}
    (hfits : Fits (s.entered fingerprint r).ledger share (s.budget / entryBytes))
    (hcharged : Charged s key share) : Charged (s.add fingerprint r).2 key share := by
  obtain ⟨-, e, he, rfl, rfl⟩ := hcharged
  by_cases hkey : r.key fingerprint ∈ s.held
  · rw [add_of_mem hkey]
    obtain ⟨e', he', hsame, hshare, -⟩ := mem_touch_row.mpr ⟨e, he, rfl, rfl, rfl⟩
    exact hsame ▸ hshare ▸ hs.sound.touch.charged he'
  · have hsound := (@Settled.within_add fingerprint s r hs).1
    rw [add_of_new hkey] at hsound ⊢
    have hin : e ∈ (s.entered fingerprint r).ledger.entries := by
      rw [ReportsState.entered, (hold_of_new hkey).2]
      refine FairShare.mem_put.mpr (.inl ⟨he, ?_⟩)
      rintro hnew
      exact hkey (hnew ▸ (hs.sound.held _).mpr ⟨e, he, rfl⟩)
    have hsame : (s.entered fingerprint r).budget = s.budget := hold_budget
    exact hsound.charged (trim_keeps hs.sound.hold (hsame ▸ hfits) hin rfl)

end Add

section Start

variable {budget : Nat} {saved : List (String × Held × Nat)} {carried : List Held}

theorem Sound.of_ledger {s s' : ReportsState} (hs : Sound s) (hheld : s'.held = s.held)
    (hledger : s'.ledger = s.ledger) : Sound s' := by
  refine ⟨?_, ?_, ?_⟩
  · exact hledger ▸ hs.ledger
  · exact hledger ▸ hs.weight
  · exact hheld ▸ hledger ▸ hs.held

/-- A restart loads a table within its budget, but for a report over it alone. -/
theorem settled_load : Settled (load budget saved carried) ∧
    (load budget saved carried).budget = budget := by
  have hheld : ∀ s : ReportsState, Sound s ∧ s.budget = budget →
      Sound (saved.foldl (fun (s : ReportsState) r => s.hold r.1 r.2.1 r.2.2) s) ∧
        (saved.foldl (fun (s : ReportsState) r => s.hold r.1 r.2.1 r.2.2) s).budget = budget := by
    intro s hs
    exact List.foldlRecOn (motive := fun s => Sound s ∧ s.budget = budget) saved _ hs
      fun s hs r _ => ⟨hs.1.hold, hold_budget.trans hs.2⟩
  have hcounted : ∀ s : ReportsState, Sound s ∧ s.budget = budget →
      Sound (carried.foldl (fun (s : ReportsState) h => s.count h true) s) ∧
        (carried.foldl (fun (s : ReportsState) h => s.count h true) s).budget = budget := by
    intro s hs
    exact List.foldlRecOn (motive := fun s => Sound s ∧ s.budget = budget) carried _ hs
      fun s hs h _ => ⟨hs.1.of_ledger count_held count_ledger, count_budget.trans hs.2⟩
  have hempty : Sound { budget } := ⟨FairShare.sound_empty, by simp, by simp⟩
  obtain ⟨hs, hbudget⟩ := hcounted _ (hheld _ ⟨hempty, rfl⟩)
  obtain ⟨hsound, hsame, hend⟩ := @trim_within _ none _ hs le_rfl
  refine ⟨⟨hsound, ?_⟩, hsame.trans hbudget⟩
  rw [load, hsame]
  exact hend.imp_right fun hone => ⟨_, hone⟩

end Start

section Run

variable (fingerprint : String → String → String → String)

def run (s : ReportsState) (reports : List Report) : ReportsState :=
  reports.foldl (fun (s : ReportsState) r => (s.add fingerprint r).2) s

/-- With each report in, before anything gives way, the share holds no more than its part of the
table. -/
def FitsThroughout (share : Nat) : ReportsState → List Report → Prop
  | _, [] => True
  | s, r :: reports =>
    Fits (s.entered fingerprint r).ledger share (s.budget / entryBytes) ∧
      FitsThroughout share (s.add fingerprint r).2 reports

variable {fingerprint} {s : ReportsState} {reports : List Report}

theorem Settled.run (hs : Settled s) : Settled (run fingerprint s reports) ∧
    (run fingerprint s reports).budget = s.budget :=
  List.foldlRecOn (motive := fun s' => Settled s' ∧ s'.budget = s.budget) reports _ ⟨hs, rfl⟩
    fun _ hs' _ _ => ⟨hs'.1.add, hs'.1.within_add.2.1.trans hs'.2⟩

theorem Settled.charged_run (hs : Settled s) {key : String} {share : Nat}
    (hfits : FitsThroughout fingerprint share s reports) (hcharged : Charged s key share) :
    Charged (Reports.run fingerprint s reports) key share := by
  induction reports generalizing s with
  | nil => exact hcharged
  | cons r reports ih =>
    exact ih hs.add hfits.2 (hs.charged_add hfits.1 hcharged)

/-- A flood of reports evicts only its own. -/
theorem flood_evicts_own (budget : Nat) (saved : List (String × Held × Nat)) (carried : List Held) :
    (∀ before r, let s := Reports.run fingerprint (load budget saved carried) (before ++ [r])
      s.ledger.total ≤ budget ∨ ∀ e ∈ s.ledger.entries, e.key = r.key fingerprint) ∧
    ∀ before after key share, let s := Reports.run fingerprint (load budget saved carried) before
      Charged s key share → FitsThroughout fingerprint share s after →
        Charged (Reports.run fingerprint s after) key share := by
  obtain ⟨hload, hbudget⟩ := @settled_load budget saved carried
  constructor
  · intro before r
    have hs := @Settled.run fingerprint _ before hload
    have hwithin := (@Settled.within_add fingerprint _ r hs.1).2.2
    rw [hs.2, hbudget] at hwithin
    simpa [Reports.run] using hwithin
  · intro before after key share s hcharged hfits
    exact (@Settled.run fingerprint _ before hload).1.charged_run hfits hcharged

/-- A table of two keeps the one report of a share while another sends three. -/
theorem flood_evicts_own_three :
    let fingerprint := fun reporter target category => reporter ++ target ++ category
    let s := Reports.run fingerprint (load (2 * entryBytes) [] []) [⟨"a", "t", "spam", 1⟩]
    let flood := [⟨"x", "t", "spam", 9⟩, ⟨"y", "t", "spam", 9⟩, ⟨"z", "t", "spam", 9⟩]
    (Reports.run fingerprint s flood).ledger.entries.map (·.key) = ["atspam", "ztspam"] ∧
      Charged (Reports.run fingerprint s flood) "atspam" 1 := by
  refine ⟨by decide +kernel, (flood_evicts_own _ [] []).2 _ _ _ _ ?_ ?_⟩
  · exact ⟨by decide +kernel, _, List.mem_singleton.mpr rfl, by decide +kernel, by decide +kernel⟩
  · exact ⟨by decide +kernel, by decide +kernel, by decide +kernel, trivial⟩

end Run

end Hollow.Relay.Reports
