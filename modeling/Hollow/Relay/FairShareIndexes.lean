import Hollow.Lib.OrderedScan
import Hollow.Relay.FairShare

/-! The ledger as `fair_share.h` keeps it: beside the entries, what each share holds with its
entries by their last use, and the shares by what they hold, every operation changing them in place.
Over any operations the indexes are those recounted from the entries, so that the two choices of a
victim are the naive scans. -/

namespace Hollow.Relay

/-- What the ledger keeps of a key. -/
structure ShareEntry where
  share : Nat
  weight : Nat
  tick : Nat
deriving DecidableEq

@[ext] structure ShareUse (κ : Type) where
  held : Nat := 0
  byUse : Finset (Nat ×ₗ κ) := ∅

/-- Maps are functions; `shares_[share]` makes an empty one. -/
@[ext] structure IndexedShare (κ : Type) where
  entries : κ → Option ShareEntry := fun _ => none
  shares : Nat → Option (ShareUse κ) := fun _ => none
  byHeld : Finset (Nat ×ₗ Nat) := ∅
  tick : Nat := 0
  total : Nat := 0

namespace IndexedShare

variable {κ : Type} [LinearOrder κ]

def link (f : IndexedShare κ) (key : κ) (e : ShareEntry) : IndexedShare κ :=
  let s := (f.shares e.share).getD {}
  let byHeld := if s.byUse ≠ ∅ then f.byHeld.erase (toLex (s.held, e.share)) else f.byHeld
  let s := { held := s.held + e.weight, byUse := insert (toLex (e.tick, key)) s.byUse }
  { f with
    shares := Function.update f.shares e.share (some s)
    byHeld := insert (toLex (s.held, e.share)) byHeld
    total := f.total + e.weight }

def unlink (f : IndexedShare κ) (key : κ) (e : ShareEntry) : IndexedShare κ :=
  let s := (f.shares e.share).getD {}
  let byHeld := f.byHeld.erase (toLex (s.held, e.share))
  let s := { held := s.held - e.weight, byUse := s.byUse.erase (toLex (e.tick, key)) }
  let f := { f with total := f.total - e.weight }
  if s.byUse = ∅ then { f with shares := Function.update f.shares e.share none, byHeld }
  else
    { f with
      shares := Function.update f.shares e.share (some s)
      byHeld := insert (toLex (s.held, e.share)) byHeld }

def put (f : IndexedShare κ) (key : κ) (share weight : Nat) : IndexedShare κ :=
  let f := match f.entries key with
    | some e => f.unlink key e
    | none => f
  let e := { share, weight, tick := f.tick + 1 }
  { f with entries := Function.update f.entries key (some e), tick := f.tick + 1 }.link key e

def touch (f : IndexedShare κ) (key : κ) : IndexedShare κ :=
  match f.entries key with
  | none => f
  | some e =>
    let s := (f.shares e.share).getD {}
    let byUse := s.byUse.erase (toLex (e.tick, key))
    { f with
      entries := Function.update f.entries key (some { e with tick := f.tick + 1 })
      shares := Function.update f.shares e.share
        (some { s with byUse := insert (toLex (f.tick + 1, key)) byUse })
      tick := f.tick + 1 }

def reweigh (f : IndexedShare κ) (key : κ) (weight : Nat) : IndexedShare κ :=
  match f.entries key with
  | none => f
  | some e =>
    let s := (f.shares e.share).getD {}
    let byHeld := f.byHeld.erase (toLex (s.held, e.share))
    let s := { s with held := s.held - e.weight + weight }
    { f with
      entries := Function.update f.entries key (some { e with weight })
      shares := Function.update f.shares e.share (some s)
      byHeld := insert (toLex (s.held, e.share)) byHeld
      total := f.total - e.weight + weight }

def remove (f : IndexedShare κ) (key : κ) : IndexedShare κ :=
  match f.entries key with
  | none => f
  | some e =>
    let f := f.unlink key e
    { f with entries := Function.update f.entries key none }

def uses (f : IndexedShare κ) (share : Nat) : List κ :=
  (((f.shares share).getD {}).byUse.sort (· ≤ ·)).map fun use => (ofLex use).2

def heaviestFirst (f : IndexedShare κ) : List Nat :=
  (f.byHeld.sort (· ≥ ·)).map fun h => (ofLex h).2

def victim (f : IndexedShare κ) : Option κ := do
  let share ← f.heaviestFirst.head?
  (f.uses share).head?

def victimExcept (f : IndexedShare κ) (spare : κ) : Option κ :=
  f.heaviestFirst.findSome? fun share => (f.uses share).find? (· ≠ spare)

def useOf (g : FairShare κ) (share : Nat) : ShareUse κ where
  held := g.held share
  byUse := ((g.entries.filter (·.share = share)).map fun e => toLex (e.tick, e.key)).toFinset

def recount (g : FairShare κ) : IndexedShare κ where
  entries key := (g.entries.find? (·.key = key)).map fun e => ⟨e.share, e.weight, e.tick⟩
  shares share := if (useOf g share).byUse = ∅ then none else some (useOf g share)
  byHeld := (g.entries.map fun e => toLex (g.held e.share, e.share)).toFinset
  tick := g.tick
  total := g.total

section Recount

variable {g g' : FairShare κ} {key : κ} {share weight : Nat} {e : Entry κ}

theorem mem_byUse {use : Nat ×ₗ κ} : use ∈ (useOf g share).byUse ↔
    ∃ e ∈ g.entries, e.share = share ∧ toLex (e.tick, e.key) = use := by
  simp [useOf, and_assoc]

theorem byUse_eq_empty : (useOf g share).byUse = ∅ ↔ ∀ e ∈ g.entries, e.share ≠ share := by
  rw [Finset.eq_empty_iff_forall_notMem]
  refine ⟨fun h e he hshare => h _ (mem_byUse.mpr ⟨e, he, hshare, rfl⟩), fun h use huse => ?_⟩
  obtain ⟨e, he, hshare, -⟩ := mem_byUse.mp huse
  exact h e he hshare

theorem getD_shares : ((recount g).shares share).getD {} = useOf g share := by
  by_cases hempty : (useOf g share).byUse = ∅
  · have hnone : g.entries.filter (·.share = share) = [] :=
      List.filter_eq_nil_iff.mpr fun e he => by simpa using byUse_eq_empty.mp hempty e he
    have hheld : (useOf g share).held = 0 := by simp [useOf, FairShare.held, hnone]
    have huse : useOf g share = {} := by
      cases hu : useOf g share with
      | mk held byUse =>
        rw [hu] at hempty hheld
        rw [← hempty, ← hheld]
    simp [recount, huse]
  · simp [recount, hempty]

theorem mem_byHeld {x : Nat ×ₗ Nat} : x ∈ (recount g).byHeld ↔
    (useOf g (ofLex x).2).byUse ≠ ∅ ∧ (ofLex x).1 = (useOf g (ofLex x).2).held := by
  rw [ne_eq, byUse_eq_empty]
  simp only [recount, List.mem_toFinset, List.mem_map, not_forall, not_not]
  constructor
  · rintro ⟨e, he, rfl⟩
    exact ⟨⟨e, he, rfl⟩, rfl⟩
  · rintro ⟨⟨e, he, hshare⟩, hheld⟩
    refine ⟨e, he, ?_⟩
    rw [hshare]
    exact congrArg toLex (Prod.ext hheld.symm rfl)

theorem mem_heldBy (he : e ∈ g.entries) :
    toLex ((useOf g e.share).held, e.share) ∈ (recount g).byHeld :=
  mem_byHeld.mpr ⟨fun h => byUse_eq_empty.mp h e he rfl, rfl⟩

theorem mem_uses (he : e ∈ g.entries) : toLex (e.tick, e.key) ∈ (useOf g e.share).byUse :=
  mem_byUse.mpr ⟨e, he, rfl, rfl⟩

section Changed

variable {u : ShareUse κ} (h : ∀ s, useOf g' s = if share = s then u else useOf g s)

include h

theorem byHeld_changed : (recount g').byHeld =
    if u.byUse = ∅ then (recount g).byHeld.erase (toLex ((useOf g share).held, share))
    else insert (toLex (u.held, share))
      ((recount g).byHeld.erase (toLex ((useOf g share).held, share))) := by
  ext x
  rw [mem_byHeld, h]
  by_cases hx : share = (ofLex x).2
  · have hgone : x ∉ (recount g).byHeld.erase (toLex ((useOf g share).held, share)) := by
      rw [Finset.mem_erase, mem_byHeld, hx]
      rintro ⟨hne, -, hheld⟩
      exact hne (congrArg toLex (Prod.ext hheld rfl))
    rw [if_pos hx]
    split_ifs with hempty
    · simp [hempty, hgone]
    · have hsame : x = toLex (u.held, share) ↔ (ofLex x).1 = u.held :=
        ⟨fun h => by rw [h]; rfl, fun h => congrArg toLex (Prod.ext h hx.symm)⟩
      simp [hempty, hgone, hsame]
  · have hne : ∀ held, x ≠ toLex (held, share) := by
      rintro held rfl
      exact hx rfl
    rw [if_neg hx, ← mem_byHeld]
    split_ifs <;> simp [hne]

theorem shares_changed : (recount g').shares = Function.update (recount g).shares share
    (if u.byUse = ∅ then none else some u) := by
  funext s
  by_cases hs : s = share
  · subst hs
    rw [Function.update_self]
    simp [recount, h]
  · rw [Function.update_of_ne hs]
    simp [recount, h s, Ne.symm hs]

end Changed

variable {entries : List (Entry κ)} {t : Nat} {ok : κ → Bool}

theorem useOf_append {t' s : Nat} :
    useOf ⟨entries ++ [e], t'⟩ s = if e.share = s then
      { held := (useOf ⟨entries, t⟩ e.share).held + e.weight
        byUse := insert (toLex (e.tick, e.key)) (useOf ⟨entries, t⟩ e.share).byUse }
      else useOf ⟨entries, t⟩ s := by
  by_cases hs : e.share = s
  · subst hs
    simp only [useOf, FairShare.held, List.filter_append, if_true]
    congr 1
    · simp
    · ext use
      simp
  · simp [useOf, FairShare.held, List.filter_append, hs]

theorem useOf_perm {entries' : List (Entry κ)} {u s : Nat} (h : entries.Perm entries') :
    useOf ⟨entries, t⟩ s = useOf ⟨entries', u⟩ s := by
  refine ShareUse.ext ?_ ?_
  · exact ((h.filter _).map _).sum_eq
  · exact List.toFinset_eq_of_perm _ _ ((h.filter _).map _)

theorem link_recount {t' : Nat} {all : κ → Option ShareEntry} :
    { recount ⟨entries, t⟩ with entries := all, tick := t' }.link e.key
        ⟨e.share, e.weight, e.tick⟩ =
      { recount ⟨entries ++ [e], t'⟩ with entries := all } := by
  have huse : ∀ s, useOf ⟨entries ++ [e], t'⟩ s = _ := fun s => useOf_append (t := t)
  have htotal : (FairShare.mk entries t).total + e.weight =
      (FairShare.mk (entries ++ [e]) t').total := by
    simp [FairShare.total]
  simp only [link, getD_shares]
  rw [shares_changed huse, byHeld_changed huse]
  simp only [Finset.insert_ne_empty, if_false]
  refine IndexedShare.ext rfl rfl ?_ rfl htotal
  dsimp only
  split_ifs with hempty
  · rfl
  · -- a share without entries is not among the shares
    rw [Finset.erase_eq_of_notMem]
    rw [mem_byHeld]
    exact fun h => h.1 (not_not.mp hempty)

section Sound

variable (hg : g.Sound)

include hg

theorem recount_entries {c : ShareEntry} : (recount g).entries key = some c ↔
    ∃ e ∈ g.entries, e.key = key ∧ ⟨e.share, e.weight, e.tick⟩ = c := by
  simp only [recount, Option.map_eq_some_iff]
  constructor
  · rintro ⟨e, he, hc⟩
    exact ⟨e, List.mem_of_find?_eq_some he, by simpa using List.find?_some he, hc⟩
  · rintro ⟨e, he, rfl, hc⟩
    refine ⟨e, ?_, hc⟩
    cases hfind : g.entries.find? (·.key = e.key) with
    | none => simpa using List.find?_eq_none.mp hfind e he
    | some e' =>
      have hkey : e'.key = e.key := by simpa using List.find?_some hfind
      rw [hg.key_inj (List.mem_of_find?_eq_some hfind) he hkey]

theorem key_ne_of_entries_eq_none (h : (recount g).entries key = none) :
    ∀ e ∈ g.entries, e.key ≠ key := by
  intro e he hkey
  have := (recount_entries hg).mpr ⟨e, he, hkey, rfl⟩
  rw [h] at this
  cases this

/-- The entries are kept up by what becomes of one key. -/
theorem update_entries (hg' : g'.Sound) {o : Option ShareEntry} (hkey : ∀ c, o = some c ↔
      ∃ e ∈ g'.entries, e.key = key ∧ ⟨e.share, e.weight, e.tick⟩ = c)
    (hrest : ∀ e, e.key ≠ key → (e ∈ g'.entries ↔ e ∈ g.entries)) :
    Function.update (recount g).entries key o = (recount g').entries := by
  funext key'
  refine Option.ext fun c => ?_
  rw [recount_entries hg']
  by_cases hk : key' = key
  · rw [hk, Function.update_self, hkey]
  · rw [Function.update_of_ne hk, recount_entries hg]
    constructor
    · rintro ⟨e, he, rfl, hc⟩
      exact ⟨e, (hrest e hk).mpr he, rfl, hc⟩
    · rintro ⟨e, he, rfl, hc⟩
      exact ⟨e, (hrest e hk).mp he, rfl, hc⟩

section Entry

variable (he : e ∈ g.entries)

include he

theorem useOf_remove {s : Nat} : useOf (g.remove e.key) s = if e.share = s then
      { held := (useOf g e.share).held - e.weight
        byUse := (useOf g e.share).byUse.erase (toLex (e.tick, e.key)) }
      else useOf g s := by
  have hheld := hg.held_remove (s := s) he
  have huses : (useOf (g.remove e.key) s).byUse =
      (useOf g s).byUse.erase (toLex (e.tick, e.key)) := by
    ext use
    rw [Finset.mem_erase, mem_byUse, mem_byUse]
    constructor
    · rintro ⟨e', he', hshare, rfl⟩
      obtain ⟨he', hkey⟩ := FairShare.mem_remove.mp he'
      exact ⟨fun h => hkey (congrArg (fun p => (ofLex p).2) h), e', he', hshare, rfl⟩
    · rintro ⟨hne, e', he', hshare, rfl⟩
      refine ⟨e', FairShare.mem_remove.mpr ⟨he', fun hkey => ?_⟩, hshare, rfl⟩
      exact hne (by rw [hg.key_inj he' he hkey])
  split_ifs at hheld ⊢ with hs
  · subst hs
    exact ShareUse.ext (Nat.eq_sub_of_add_eq hheld) huses
  · refine ShareUse.ext hheld ?_
    rw [huses, Finset.erase_eq_of_notMem]
    rw [mem_byUse]
    rintro ⟨e', he', hshare, huse⟩
    have hkey : e'.key = e.key := congrArg (fun p => (ofLex p).2) huse
    exact hs (hg.key_inj he' he hkey ▸ hshare)

theorem unlink_recount : (recount g).unlink e.key ⟨e.share, e.weight, e.tick⟩ =
    { recount (g.remove e.key) with entries := (recount g).entries } := by
  have huse := fun s => useOf_remove hg he (s := s)
  have htotal : g.total - e.weight = (g.remove e.key).total :=
    Nat.sub_eq_of_eq_add (hg.total_remove he).symm
  simp only [unlink, getD_shares]
  rw [shares_changed huse, byHeld_changed huse]
  split_ifs
  · exact IndexedShare.ext rfl rfl rfl rfl htotal
  · exact IndexedShare.ext rfl rfl rfl rfl htotal

theorem perm_change (c : Entry κ → Entry κ) :
    (g.entries.map fun x => if x.key = e.key then c x else x).Perm
      ((g.remove e.key).entries ++ [c e]) := by
  have hrest : ((g.remove e.key).entries.map fun x => if x.key = e.key then c x else x) =
      (g.remove e.key).entries := by
    refine (List.map_congr_left fun x hx => ?_).trans (List.map_id _)
    exact if_neg (FairShare.mem_remove.mp hx).2
  have hperm := (hg.perm_remove he).map fun x => if x.key = e.key then c x else x
  rw [List.map_cons, if_pos rfl, hrest] at hperm
  exact hperm.trans (List.perm_append_singleton _ _).symm

theorem useOf_change {c : Entry κ → Entry κ} {s : Nat} (hshare : (c e).share = e.share) :
    useOf ⟨g.entries.map fun x => if x.key = e.key then c x else x, t⟩ s =
      if e.share = s then
        { held := (useOf g e.share).held - e.weight + (c e).weight
          byUse := insert (toLex ((c e).tick, (c e).key))
            ((useOf g e.share).byUse.erase (toLex (e.tick, e.key))) }
      else useOf g s := by
  have hremove : ∀ s, useOf ⟨(g.remove e.key).entries, g.tick⟩ s = _ := fun s => useOf_remove hg he
  rw [useOf_perm (u := t) (perm_change hg he c), useOf_append (t := g.tick), hremove, hremove,
    hshare, if_pos rfl]
  split_ifs <;> rfl

theorem entries_change {c : Entry κ → Entry κ} (hkey : ∀ x, (c x).key = x.key)
    (hsound : FairShare.Sound ⟨g.entries.map fun x => if x.key = e.key then c x else x, t⟩) :
    Function.update (recount g).entries e.key (some ⟨(c e).share, (c e).weight, (c e).tick⟩) =
      (recount ⟨g.entries.map fun x => if x.key = e.key then c x else x, t⟩).entries := by
  have hmem := fun x => (perm_change hg he c).mem_iff (a := x)
  simp only [List.mem_append, List.mem_singleton, FairShare.mem_remove] at hmem
  refine update_entries hg hsound (fun d => ?_) fun x hx => ?_
  · simp only [hmem]
    constructor
    · rintro ⟨⟩
      exact ⟨c e, .inr rfl, hkey e, rfl⟩
    · rintro ⟨x, ⟨-, hne⟩ | rfl, hxkey, rfl⟩
      · exact absurd hxkey hne
      · rfl
  · rw [hmem]
    exact ⟨fun h => (h.resolve_right fun heq => hx (heq ▸ hkey e)).1, fun h => .inl ⟨h, hx⟩⟩

end Entry

theorem put_recount : (recount g).put key share weight = recount (g.put key share weight) := by
  have hentries : Function.update (recount g).entries key (some ⟨share, weight, g.tick + 1⟩) =
      (recount (g.put key share weight)).entries := by
    refine update_entries hg hg.put (fun c => ?_) fun x hx => ?_
    · simp only [FairShare.mem_put]
      constructor
      · rintro ⟨⟩
        exact ⟨_, .inr rfl, rfl, rfl⟩
      · rintro ⟨e, ⟨-, hne⟩ | rfl, hkey, rfl⟩
        · exact absurd hkey hne
        · rfl
    · rw [FairShare.mem_put]
      exact ⟨fun h => (h.resolve_right fun heq => hx (heq ▸ rfl)).1, fun h => .inl ⟨h, hx⟩⟩
  have hfresh : (match (recount g).entries key with
      | some e => (recount g).unlink key e
      | none => recount g) = { recount (g.remove key) with entries := (recount g).entries } := by
    cases hheld : (recount g).entries key with
    | none => rw [FairShare.remove_of_not_mem (key_ne_of_entries_eq_none hg hheld)]
    | some c =>
      obtain ⟨e, he, rfl, rfl⟩ := (recount_entries hg).mp hheld
      exact unlink_recount hg he
  rw [put, hfresh]
  exact (link_recount (e := ⟨key, share, weight, g.tick + 1⟩)).trans
    (IndexedShare.ext hentries rfl rfl rfl rfl)

theorem remove_recount : (recount g).remove key = recount (g.remove key) := by
  rw [remove]
  cases hheld : (recount g).entries key with
  | none => rw [FairShare.remove_of_not_mem (key_ne_of_entries_eq_none hg hheld)]
  | some c =>
    obtain ⟨e, he, rfl, rfl⟩ := (recount_entries hg).mp hheld
    simp only [unlink_recount hg he]
    refine IndexedShare.ext (update_entries hg hg.remove (fun c => ?_) fun x hx => ?_)
      rfl rfl rfl rfl
    · simp only [FairShare.mem_remove]
      constructor
      · rintro ⟨⟩
      · rintro ⟨x, ⟨-, hne⟩, hsame, -⟩
        exact absurd hsame hne
    · rw [FairShare.mem_remove, and_iff_left hx]

theorem touch_recount : (recount g).touch key = recount (g.touch key) := by
  rw [touch]
  cases hheld : (recount g).entries key with
  | none =>
    have hnot : ¬ g.contains key := by
      rw [FairShare.contains_iff]
      exact fun ⟨e, he, hkey⟩ => key_ne_of_entries_eq_none hg hheld e he hkey
    rw [FairShare.touch, if_neg hnot]
  | some c =>
    obtain ⟨e, he, rfl, rfl⟩ := (recount_entries hg).mp hheld
    have htouch : g.touch e.key =
        ⟨g.entries.map fun x => if x.key = e.key then { x with tick := g.tick + 1 } else x,
          g.tick + 1⟩ := by
      rw [FairShare.touch, if_pos (FairShare.contains_iff.mpr ⟨e, he, rfl⟩)]
    have huse : ∀ s, useOf (g.touch e.key) s = if e.share = s then
        { held := (useOf g e.share).held
          byUse := insert (toLex (g.tick + 1, e.key))
            ((useOf g e.share).byUse.erase (toLex (e.tick, e.key))) }
        else useOf g s := by
      intro s
      rw [htouch, useOf_change hg he rfl]
      dsimp only
      rw [Nat.sub_add_cancel (show e.weight ≤ (useOf g e.share).held from FairShare.le_held he)]
    simp only [getD_shares]
    refine IndexedShare.ext ?_ ?_ ?_ (by rw [htouch]; rfl) FairShare.total_touch.symm
    · have hsound : (g.touch e.key).Sound := hg.touch
      rw [htouch] at hsound ⊢
      exact entries_change hg he (c := fun x => { x with tick := g.tick + 1 }) (fun _ => rfl) hsound
    · rw [shares_changed huse]
      simp only [Finset.insert_ne_empty, if_false]
      rfl
    · rw [byHeld_changed huse]
      simp [Finset.insert_erase (mem_heldBy he)]

theorem reweigh_recount : (recount g).reweigh key weight = recount (g.reweigh key weight) := by
  rw [reweigh]
  cases hheld : (recount g).entries key with
  | none =>
    have hnot := key_ne_of_entries_eq_none hg hheld
    have hsame :
        g.entries.map (fun x => if x.key = key then { x with weight } else x) = g.entries :=
      (List.map_congr_left fun x hx => if_neg (hnot x hx)).trans (List.map_id _)
    rw [FairShare.reweigh, hsame]
  | some c =>
    obtain ⟨e, he, rfl, rfl⟩ := (recount_entries hg).mp hheld
    have huse : ∀ s, useOf (g.reweigh e.key weight) s = if e.share = s then
        { useOf g e.share with held := (useOf g e.share).held - e.weight + weight }
        else useOf g s := by
      intro s
      rw [FairShare.reweigh, useOf_change hg he rfl]
      dsimp only
      rw [Finset.insert_erase (mem_uses he)]
    have htotal : g.total - e.weight + weight = (g.reweigh e.key weight).total := by
      have hsum := ((perm_change hg he fun x => { x with weight }).map (·.weight)).sum_eq
      rw [List.map_append, List.sum_append, List.map_singleton, List.sum_singleton] at hsum
      rw [← hg.total_remove he, Nat.add_sub_cancel]
      exact hsum.symm
    have hne : (useOf g e.share).byUse ≠ ∅ := Finset.ne_empty_of_mem (mem_uses he)
    simp only [getD_shares]
    refine IndexedShare.ext ?_ ?_ ?_ rfl htotal
    · exact entries_change hg he (c := fun x => { x with weight }) (fun _ => rfl) hg.reweigh
    · rw [shares_changed huse]
      simp [hne]
    · rw [byHeld_changed huse]
      simp [hne]

end Sound

def firstUse (f : IndexedShare κ) (ok : κ → Bool) : Option κ :=
  f.heaviestFirst.findSome? fun share => (f.uses share).find? ok

theorem firstUse_eq {f : IndexedShare κ} : f.firstUse ok =
    (f.byHeld.sort (· ≥ ·)).findSome? fun h =>
      ((((f.shares (ofLex h).2).getD {}).byUse.sort (· ≤ ·)).find? fun use => ok (ofLex use).2).map
        fun use => (ofLex use).2 := by
  simp only [firstUse, heaviestFirst, uses, List.findSome?_map, List.find?_map, Function.comp_def]

theorem firstUse_picks (h : (recount g).firstUse ok = some key) :
    ∃ e, g.Picks (g.entries.filter fun e => ok e.key) e ∧ e.key = key := by
  rw [firstUse_eq] at h
  obtain ⟨x, hx, hkey, hmost⟩ := OrderedScan.findSome?_sort_ge h
  simp only [getD_shares] at hkey hmost
  obtain ⟨use, huse, rfl⟩ := Option.map_eq_some_iff.mp hkey
  obtain ⟨hmem, hok, hfirst⟩ := OrderedScan.find?_sort_le huse
  obtain ⟨e, he, hshare, rfl⟩ := mem_byUse.mp hmem
  have hx' : x = toLex (g.held e.share, e.share) := by
    rw [hshare]
    exact congrArg toLex (Prod.ext (mem_byHeld.mp hx).2 rfl)
  refine ⟨e, ⟨List.mem_filter.mpr ⟨he, hok⟩, fun e' he' => ?_, fun e' he' hsame => ?_⟩, rfl⟩
  · obtain ⟨he', hok'⟩ := List.mem_filter.mp he'
    have hle := hmost _ (mem_heldBy he') ?_
    · rw [hx'] at hle
      exact hle
    · rw [Option.isSome_map, List.find?_isSome]
      exact ⟨_, (Finset.mem_sort _).mpr (mem_uses he'), hok'⟩
  · obtain ⟨he', hok'⟩ := List.mem_filter.mp he'
    have hle := hfirst (toLex (e'.tick, e'.key)) (mem_byUse.mpr ⟨e', he', hsame.trans hshare, rfl⟩)
      hok'
    exact (Prod.Lex.toLex_le_toLex.mp hle).elim le_of_lt fun h => h.1.le

theorem firstUse_eq_none (h : (recount g).firstUse ok = none) :
    (g.entries.filter fun e => ok e.key) = [] := by
  rw [firstUse_eq, List.findSome?_eq_none_iff] at h
  refine List.filter_eq_nil_iff.mpr fun e he hok => ?_
  have hnone := h _ ((Finset.mem_sort _).mpr (mem_heldBy he))
  simp only [getD_shares, Option.map_eq_none_iff, List.find?_eq_none] at hnone
  exact hnone _ ((Finset.mem_sort _).mpr (mem_uses he)) hok

theorem firstUse_recount (hg : g.Sound) (ok : κ → Bool) :
    (recount g).firstUse ok = g.scan (g.entries.filter fun e => ok e.key) := by
  cases h : (recount g).firstUse ok with
  | none => exact (FairShare.scan_eq_none.mpr (firstUse_eq_none h)).symm
  | some key =>
    exact ((FairShare.scan_eq_some hg (List.filter_subset_self _)).mpr (firstUse_picks h)).symm

theorem uses_ne_nil (h : share ∈ (recount g).heaviestFirst) : (recount g).uses share ≠ [] := by
  obtain ⟨x, hx, rfl⟩ := List.mem_map.mp h
  obtain ⟨use, huse⟩ := Finset.nonempty_iff_ne_empty.mpr
    (mem_byHeld.mp ((Finset.mem_sort _).mp hx)).1
  rw [uses, getD_shares]
  exact List.ne_nil_of_mem (List.mem_map_of_mem ((Finset.mem_sort _).mpr huse))

theorem victim_recount (hg : g.Sound) : (recount g).victim = g.victim := by
  have hfirst : (recount g).victim = (recount g).firstUse fun _ => true := by
    rw [victim, firstUse]
    have huses : ∀ share ∈ (recount g).heaviestFirst, (recount g).uses share ≠ [] :=
      fun _ => uses_ne_nil
    cases hshares : (recount g).heaviestFirst with
    | nil => rfl
    | cons share shares =>
      rw [hshares] at huses
      cases hfirst : (recount g).uses share with
      | nil => exact absurd hfirst (huses share List.mem_cons_self)
      | cons key keys => simp [hfirst]
  rw [hfirst, firstUse_recount hg, FairShare.victim_eq_scan]
  simp

theorem victimExcept_recount (hg : g.Sound) :
    (recount g).victimExcept key = g.victimExcept key :=
  firstUse_recount hg _

end Recount

end IndexedShare

inductive LedgerOp (κ : Type) where
  | put (key : κ) (share weight : Nat)
  | touch (key : κ)
  | reweigh (key : κ) (weight : Nat)
  | remove (key : κ)

section Run

variable {κ : Type} [LinearOrder κ]

def FairShare.apply (g : FairShare κ) : LedgerOp κ → FairShare κ
  | .put key share weight => g.put key share weight
  | .touch key => g.touch key
  | .reweigh key weight => g.reweigh key weight
  | .remove key => g.remove key

def IndexedShare.apply (f : IndexedShare κ) : LedgerOp κ → IndexedShare κ
  | .put key share weight => f.put key share weight
  | .touch key => f.touch key
  | .reweigh key weight => f.reweigh key weight
  | .remove key => f.remove key

structure IndexedShare.Exact (f : IndexedShare κ) (g : FairShare κ) : Prop where
  sound : g.Sound
  entries : ∀ key c, f.entries key = some c ↔
    ∃ e ∈ g.entries, e.key = key ∧ ⟨e.share, e.weight, e.tick⟩ = c
  total : f.total = (g.entries.map (·.weight)).sum
  shares : ∀ share u, f.shares share = some u ↔ (∃ e ∈ g.entries, e.share = share) ∧
    u.held = ((g.entries.filter (·.share = share)).map (·.weight)).sum ∧
    ∀ use, use ∈ u.byUse ↔ ∃ e ∈ g.entries, e.share = share ∧ toLex (e.tick, e.key) = use
  byHeld : ∀ x, x ∈ f.byHeld ↔
    ∃ e ∈ g.entries, x = toLex (((f.shares e.share).getD {}).held, e.share)
  victim : f.victim = g.victim
  victimExcept : ∀ spare, f.victimExcept spare = g.victimExcept spare

variable {g : FairShare κ}

theorem IndexedShare.exact_recount (hg : g.Sound) :
    (IndexedShare.recount g).Exact g where
  sound := hg
  entries := fun _ _ => recount_entries hg
  total := rfl
  shares := by
    intro share u
    have hsome : (∃ e ∈ g.entries, e.share = share) ↔ (useOf g share).byUse ≠ ∅ := by
      rw [ne_eq, byUse_eq_empty]
      simp
    simp only [hsome, ← mem_byUse]
    constructor
    · intro h
      have hne : (useOf g share).byUse ≠ ∅ := fun hempty => by simp [recount, hempty] at h
      obtain rfl : useOf g share = u := by simpa [recount, hne] using h
      exact ⟨hne, rfl, fun _ => Iff.rfl⟩
    · rintro ⟨hne, hheld, huses⟩
      have hu : useOf g share = u :=
        ShareUse.ext hheld.symm (Finset.ext fun use => (huses use).symm)
      exact (if_neg hne).trans (congrArg some hu)
  byHeld := by
    intro x
    simp only [getD_shares]
    simp [recount, useOf, eq_comm]
  victim := victim_recount hg
  victimExcept := fun _ => victimExcept_recount hg

theorem IndexedShare.apply_recount (hg : g.Sound) (op : LedgerOp κ) :
    (recount g).apply op = recount (g.apply op) ∧ (g.apply op).Sound := by
  cases op with
  | put key share weight => exact ⟨put_recount hg, hg.put⟩
  | touch key => exact ⟨touch_recount hg, hg.touch⟩
  | reweigh key weight => exact ⟨reweigh_recount hg, hg.reweigh⟩
  | remove key => exact ⟨remove_recount hg, hg.remove⟩

theorem IndexedShare.run_recount (ops : List (LedgerOp κ)) (hg : g.Sound) :
    ops.foldl apply (recount g) = recount (ops.foldl FairShare.apply g) ∧
      (ops.foldl FairShare.apply g).Sound := by
  induction ops generalizing g with
  | nil => exact ⟨rfl, hg⟩
  | cons op ops ih =>
    obtain ⟨hstep, hsound⟩ := apply_recount hg op
    rw [List.foldl_cons, List.foldl_cons, hstep]
    exact ih hsound

theorem IndexedShare.recount_empty : recount ({} : FairShare κ) = {} := by
  refine IndexedShare.ext rfl ?_ rfl rfl rfl
  funext share
  simp [recount, useOf]

/-- Whatever the operations, the indexes kept in place are those of the entries. -/
theorem IndexedShare.run_exact (ops : List (LedgerOp κ)) :
    (ops.foldl IndexedShare.apply {}).Exact (ops.foldl FairShare.apply {}) := by
  obtain ⟨hrun, hsound⟩ := run_recount ops FairShare.sound_empty
  rw [recount_empty] at hrun
  rw [hrun]
  exact exact_recount hsound

end Run

end Hollow.Relay
