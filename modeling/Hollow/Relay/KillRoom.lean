import Mathlib
import Hollow.Relay.KillList

/-! What a deposit makes room with: past its own cap an issuer's oldest entry, past a target's or
the list's cap an entry of a share that holds the most there. -/

namespace Hollow.Relay.KillList

variable {k k' : KillList} {target t : String} {e e' : Entry} {issuer : String} {d : Deposit}
  {storedAt : Int}

theorem mem_slots_push : e ∈ (k.push d storedAt).slots t ↔
    e ∈ k.slots t ∨ t = d.target ∧ e = d.entry storedAt (k.nextSeq + 1) := by
  by_cases h : t = d.target
  · subst h
    simp [push, slots]
  · simp [push, slots, Dict.bucket_setBucket_ne h, h]

theorem slots_push : (k.push d storedAt).slots d.target =
    k.slots d.target ++ [d.entry storedAt (k.nextSeq + 1)] :=
  Dict.bucket_setBucket

theorem slots_push_ne (h : t ≠ d.target) : (k.push d storedAt).slots t = k.slots t :=
  Dict.bucket_setBucket_ne h

theorem Mirrors.push (hk : Mirrors k) (hown : ∀ e ∈ k.slots d.target, e.issuer ≠ d.issuer)
    (hnamed : d.target ≠ "") : Mirrors (k.push d storedAt) := by
  have hnew : ∀ t, ∀ e ∈ k.slots t, e.seq ≠ k.nextSeq + 1 := fun t e he h =>
    absurd (hk.recent t e he) (by omega)
  refine ⟨hk.filled.setBucket, fun t e he => ?_, fun t => ?_, fun t t' e he e' he' hsame => ?_,
    fun t e he => ?_, hk.issuing.setBucket, fun i => ?_, fun i t => ?_, fun seq t => ?_,
    hk.ledger.put, fun seq share weight => ?_⟩
  · rcases mem_slots_push.mp he with he | ⟨rfl, -⟩
    · exact hk.named t e he
    · exact hnamed
  · by_cases h : t = d.target
    · subst h
      rw [slots_push, List.map_append, List.nodup_append]
      refine ⟨hk.single _, List.nodup_singleton _, ?_⟩
      simp only [List.mem_map, List.map_cons, List.map_nil, List.mem_singleton]
      rintro _ ⟨e, he, rfl⟩ _ rfl
      exact hown e he
    · rw [slots_push_ne h]
      exact hk.single t
  · rcases mem_slots_push.mp he with he | ⟨rfl, rfl⟩ <;>
      rcases mem_slots_push.mp he' with he' | ⟨rfl, rfl⟩
    · exact hk.seqs t t' e he e' he' hsame
    · exact absurd hsame (hnew t e he)
    · exact absurd hsame.symm (hnew t' e' he')
    · exact ⟨rfl, rfl⟩
  · rcases mem_slots_push.mp he with he | ⟨rfl, rfl⟩
    · exact (hk.recent t e he).trans (Nat.le_succ _)
    · exact le_rfl
  · by_cases h : i = d.issuer
    · subst h
      simp only [KillList.push, Dict.bucket_setBucket]
      exact (hk.distinct _).insert
    · simp only [KillList.push, Dict.bucket_setBucket_ne h]
      exact hk.distinct i
  · simp only [mem_slots_push]
    by_cases h : i = d.issuer
    · subst h
      simp only [KillList.push, Dict.bucket_setBucket, List.mem_insert_iff, hk.issuers]
      constructor
      · rintro (rfl | ⟨e, he, hi⟩)
        · exact ⟨_, .inr ⟨rfl, rfl⟩, rfl⟩
        · exact ⟨e, .inl he, hi⟩
      · rintro ⟨e, he | ⟨rfl, rfl⟩, hi⟩
        · exact .inr ⟨e, he, hi⟩
        · exact .inl rfl
    · simp only [KillList.push, Dict.bucket_setBucket_ne h, hk.issuers]
      constructor
      · rintro ⟨e, he, hi⟩
        exact ⟨e, .inl he, hi⟩
      · rintro ⟨e, he | ⟨rfl, rfl⟩, hi⟩
        · exact ⟨e, he, hi⟩
        · exact absurd hi.symm h
  · have hindex : (k.push d storedAt).targetOf = k.targetOf.insert (k.nextSeq + 1) d.target := rfl
    simp only [mem_slots_push, hindex]
    by_cases h : seq = k.nextSeq + 1
    · subst h
      rw [AList.lookup_insert, Option.some_inj]
      constructor
      · rintro rfl
        exact ⟨_, .inr ⟨rfl, rfl⟩, rfl⟩
      · rintro ⟨e, he | ⟨rfl, rfl⟩, hseq⟩
        · exact absurd hseq (hnew t e he)
        · rfl
    · rw [AList.lookup_insert_ne h, hk.targets]
      constructor
      · rintro ⟨e, he, hseq⟩
        exact ⟨e, .inl he, hseq⟩
      · rintro ⟨e, he | ⟨rfl, rfl⟩, rfl⟩
        · exact ⟨e, he, rfl⟩
        · exact absurd rfl h
  · have hput : (k.push d storedAt).ledger = k.ledger.put (k.nextSeq + 1) d.share 1 := rfl
    rw [hput, FairShare.lists_put, hk.listed]
    simp only [mem_slots_push]
    constructor
    · rintro (⟨⟨rfl, t, e, he, hrow⟩, -⟩ | ⟨rfl, rfl, rfl⟩)
      · exact ⟨rfl, t, e, .inl he, hrow⟩
      · exact ⟨rfl, d.target, _, .inr ⟨rfl, rfl⟩, rfl, rfl⟩
    · rintro ⟨rfl, t, e, he | ⟨rfl, rfl⟩, rfl, rfl⟩
      · exact .inl ⟨⟨rfl, t, e, he, rfl, rfl⟩, hnew t e he⟩
      · exact .inr ⟨rfl, rfl, rfl⟩

theorem mem_slots_drop {seq : Nat} : e ∈ (k.drop target seq).slots t ↔
    e ∈ k.slots t ∧ ¬ (t = target ∧ e.seq = seq) := by
  rw [drop, mem_slots_removeIf]
  simp

theorem length_lt_of_sublist {α : Type} {l l' : List α} {a : α} (hsub : l'.Sublist l) (ha : a ∈ l)
    (hnot : a ∉ l') : l'.length < l.length :=
  lt_of_le_of_ne hsub.length_le fun h => hnot (hsub.eq_of_length h ▸ ha)

theorem Mirrors.drop (hk : Mirrors k) (he : e ∈ k.slots t) :
    Mirrors (k.drop t e.seq) ∧ Shrinks k (k.drop t e.seq) ∧
      (∀ t', ∀ e' ∈ k.slots t', e' ≠ e → e' ∈ (k.drop t e.seq).slots t') ∧
      ((k.drop t e.seq).slots t).length < (k.slots t).length ∧
      (k.drop t e.seq).issuerCount e.issuer < k.issuerCount e.issuer ∧
      (k.drop t e.seq).ledger.size < k.ledger.size := by
  have hm : Mirrors (k.drop t e.seq) := hk.removeIf
  have hs : Shrinks k (k.drop t e.seq) := shrinks_removeIf
  have hgone : ∀ t', ∀ e' ∈ (k.drop t e.seq).slots t', e'.seq ≠ e.seq := by
    intro t' e' he' hseq
    obtain ⟨he', hnot⟩ := mem_slots_drop.mp he'
    exact hnot ⟨(hk.seqs _ _ e' he' e he hseq).1, hseq⟩
  refine ⟨hm, hs, ?_, ?_, ?_, ?_⟩
  · intro t' e' he' hne
    exact mem_slots_drop.mpr ⟨he', fun h => hne (hk.seqs _ _ e' he' e he h.2).2⟩
  · exact length_lt_of_sublist (hs.slots t) he fun h => hgone t e h rfl
  · refine length_lt_of_sublist (hs.issuers _) ((hk.issuers _ t).mpr ⟨e, he, rfl⟩) fun h => ?_
    obtain ⟨e', he', hsame⟩ := (hm.issuers _ t).mp h
    have he'' := mem_slots_drop.mp he'
    obtain rfl := List.inj_on_of_nodup_map (hk.single t) he''.1 he hsame
    exact hgone t e' he' rfl
  · obtain ⟨x, hx, hkey, -⟩ := (hk.listed _ _ 1).mpr ⟨rfl, t, e, he, rfl, rfl⟩
    refine length_lt_of_sublist hs.ledger hx fun h => ?_
    obtain ⟨-, t', e', he', hseq, -⟩ := (hm.listed _ _ _).mp ⟨x, h, rfl, rfl, rfl⟩
    exact hgone t' e' he' (hseq.trans hkey)

theorem evictOldestOf_cases (hk : Mirrors k) :
    k.evictOldestOf issuer = k ∧ k.byIssuer.bucket issuer = [] ∨
      ∃ t, ∃ e ∈ k.slots t, e.issuer = issuer ∧ k.evictOldestOf issuer = k.drop t e.seq := by
  rw [evictOldestOf]
  cases hmin : ((k.byIssuer.bucket issuer).filterMap fun target =>
      (k.slot target issuer).map fun e => (target, e.seq)).argmin (·.2) with
  | none =>
    refine .inl ⟨rfl, List.eq_nil_iff_forall_not_mem.mpr fun t ht => ?_⟩
    obtain ⟨e, he, hissuer⟩ := (hk.issuers issuer t).mp ht
    have hnone := List.filterMap_eq_nil_iff.mp (List.argmin_eq_none.mp hmin) t ht
    rw [Option.map_eq_none_iff, slot, List.find?_eq_none] at hnone
    exact hnone e he (decide_eq_true hissuer)
  | some own =>
    obtain ⟨t, ht, hown⟩ := List.mem_filterMap.mp (List.argmin_mem hmin)
    obtain ⟨e, he, rfl⟩ := Option.map_eq_some_iff.mp hown
    have hmem := List.mem_of_find?_eq_some he
    have hfilled : t.isEmpty = false := by
      rw [Bool.eq_false_iff, Ne, String.isEmpty_iff]
      exact hk.named t e hmem
    have hissuer : e.issuer = issuer := by simpa using List.find?_some he
    refine .inr ⟨t, e, hmem, hissuer, ?_⟩
    simp [hfilled]

def heldBy (list : List Entry) (share : Nat) : Nat := (list.map (·.share)).count share

/-- The tally holds each share's count and the largest of them. -/
theorem tally_spec (list : List Entry) : (tally list).1 = heldBy list ∧
    (∀ share, heldBy list share ≤ (tally list).2) ∧
    (list = [] ∨ ∃ e ∈ list, heldBy list e.share = (tally list).2) := by
  induction list using List.reverseRecOn with
  | nil => exact ⟨rfl, fun _ => le_rfl, .inl rfl⟩
  | append_singleton list e ih =>
    obtain ⟨hheld, hmost, hsome⟩ := ih
    have htally : tally (list ++ [e]) = (Function.update (tally list).1 e.share
        ((tally list).1 e.share + 1), max (tally list).2 ((tally list).1 e.share + 1)) := by
      simp [tally]
    have hcount : ∀ share, heldBy (list ++ [e]) share =
        heldBy list share + if e.share = share then 1 else 0 := by
      intro share
      simp [heldBy, List.count_singleton, beq_iff_eq]
    simp only [htally, hheld]
    refine ⟨?_, fun share => ?_, .inr ?_⟩
    · funext share
      rw [hcount, Function.update_apply]
      by_cases h : e.share = share
      · subst h
        simp
      · simp [h, Ne.symm h]
    · rw [hcount]
      have := hmost share
      by_cases h : e.share = share
      · subst h
        simp
      · simp [h, this]
    · rcases le_or_gt (tally list).2 (heldBy list e.share + 1) with hle | hlt
      · refine ⟨e, by simp, ?_⟩
        rw [hcount, if_pos rfl, max_eq_right hle]
      · rcases hsome with rfl | ⟨e', he', hsome⟩
        · exact absurd hlt (Nat.not_lt_zero _)
        · have hne : e.share ≠ e'.share := fun h => by rw [h] at hlt; omega
          refine ⟨e', List.mem_append_left _ he', ?_⟩
          rw [hcount, if_neg hne, max_eq_left hlt.le]
          exact hsome

theorem evictHeaviestAt_cases : k.evictHeaviestAt target = k ∧ k.slots target = [] ∨
    ∃ e ∈ k.slots target, k.evictHeaviestAt target = k.drop target e.seq ∧
      ∀ share, heldBy (k.slots target) share ≤ heldBy (k.slots target) e.share := by
  obtain ⟨hheld, hmost, hsome⟩ := tally_spec (k.slots target)
  rw [evictHeaviestAt]
  simp only [hheld]
  cases hmin : ((k.slots target).filter fun e =>
      heldBy (k.slots target) e.share = (tally (k.slots target)).2).argmin (·.seq) with
  | none =>
    refine .inl ⟨rfl, hsome.resolve_right ?_⟩
    rintro ⟨e, he, hheaviest⟩
    have hnone := List.filter_eq_nil_iff.mp (List.argmin_eq_none.mp hmin) e he
    exact hnone (decide_eq_true hheaviest)
  | some e =>
    obtain ⟨he, hheaviest⟩ := List.mem_filter.mp (List.argmin_mem hmin)
    refine .inr ⟨e, he, rfl, fun share => ?_⟩
    rw [of_decide_eq_true hheaviest]
    exact hmost share

theorem makeRoom_succ (hk : Mirrors k) (fuel : Nat) :
    k.ledger.size < maxEntries ∧ k.makeRoom (fuel + 1) = k ∨
      maxEntries ≤ k.ledger.size ∧ ∃ t, ∃ e ∈ k.slots t,
        k.makeRoom (fuel + 1) = (k.drop t e.seq).makeRoom fuel ∧
          ∀ share, k.ledger.held share ≤ k.ledger.held e.share := by
  rw [makeRoom]
  by_cases hsize : k.ledger.size < maxEntries
  · exact .inl ⟨hsize, if_pos hsize⟩
  · rw [if_neg hsize]
    cases hvictim : k.ledger.victim with
    | none =>
      have hempty := FairShare.scan_eq_none.mp hvictim
      exact absurd (by simp [FairShare.size, hempty, maxEntries]) hsize
    | some victim =>
      obtain ⟨x, hx, rfl⟩ := FairShare.picks_of_scan hvictim
      obtain ⟨-, t, e, he, hseq, hshare⟩ := (hk.listed _ _ _).mp ⟨x, hx.mem, rfl, rfl, rfl⟩
      have htarget := (hk.targets x.key t).mpr ⟨e, he, hseq⟩
      refine .inr ⟨not_lt.mp hsize, t, e, he, ?_, fun share => ?_⟩
      · simp only [htarget, hseq]
      · rw [hshare]
        exact hx.held_le share

theorem makeRoom_of_lt (hsize : k.ledger.size < maxEntries) (fuel : Nat) : k.makeRoom fuel = k := by
  cases fuel with
  | zero => rfl
  | succ fuel => exact if_pos hsize

theorem Mirrors.makeRoom (hk : Mirrors k) {fuel : Nat} (hfuel : k.ledger.size ≤ fuel) :
    Mirrors (k.makeRoom fuel) ∧ Shrinks k (k.makeRoom fuel) ∧
      (k.makeRoom fuel).ledger.size < maxEntries := by
  induction fuel generalizing k with
  | zero => exact ⟨hk, .refl k, (Nat.le_zero.mp hfuel).trans_lt (by decide)⟩
  | succ fuel ih =>
    rcases makeRoom_succ hk fuel with ⟨hsize, hstop⟩ | ⟨-, t, e, he, hgo, -⟩
    · rw [hstop]
      exact ⟨hk, .refl k, hsize⟩
    · rw [hgo]
      obtain ⟨hm, hs, -, -, -, hsize⟩ := hk.drop he
      obtain ⟨hm', hs', hsize'⟩ := ih hm (by omega)
      exact ⟨hm', hs.trans hs', hsize'⟩

theorem ownRoom_spec (hk : Mirrors k) :
    Mirrors (k.ownRoom issuer) ∧ Shrinks k (k.ownRoom issuer) ∧
      (k.issuerCount issuer ≤ maxEntriesPerIssuer →
        (k.ownRoom issuer).issuerCount issuer < maxEntriesPerIssuer) ∧
      ∀ t, ∀ e ∈ k.slots t, e.issuer ≠ issuer → e ∈ (k.ownRoom issuer).slots t := by
  rw [ownRoom]
  split_ifs with hfull
  · rcases @evictOldestOf_cases k issuer hk with ⟨-, hnone⟩ | ⟨t, e, he, rfl, hdrop⟩
    · simp [issuerCount, hnone, maxEntriesPerIssuer] at hfull
    · rw [hdrop]
      obtain ⟨hm, hs, hrest, -, hcount, -⟩ := hk.drop he
      refine ⟨hm, hs, fun hle => hcount.trans_le hle, fun t' e' he' hne => ?_⟩
      exact hrest t' e' he' fun h => hne (h ▸ rfl)
  · exact ⟨hk, .refl k, fun _ => not_le.mp hfull, fun t e he _ => he⟩

theorem targetRoom_spec (hk : Mirrors k) :
    Mirrors (k.targetRoom target) ∧ Shrinks k (k.targetRoom target) ∧
      ((k.slots target).length ≤ maxIssuersPerTarget →
        ((k.targetRoom target).slots target).length < maxIssuersPerTarget) ∧
      ∀ t, ∀ e ∈ k.slots t, e ∉ (k.targetRoom target).slots t →
        t = target ∧ maxIssuersPerTarget ≤ (k.slots target).length ∧
          ∀ share, heldBy (k.slots target) share ≤ heldBy (k.slots target) e.share := by
  rw [targetRoom]
  split_ifs with hfull
  · rcases @evictHeaviestAt_cases k target with ⟨-, hnone⟩ | ⟨e, he, hdrop, hheaviest⟩
    · simp [hnone, maxIssuersPerTarget] at hfull
    · rw [hdrop]
      obtain ⟨hm, hs, hrest, hlength, -⟩ := hk.drop he
      refine ⟨hm, hs, fun hle => hlength.trans_le hle, fun t' e' he' hgone => ?_⟩
      obtain rfl : e' = e := not_not.mp fun hne => hgone (hrest t' e' he' hne)
      exact ⟨(hk.seqs _ _ e' he' e' he rfl).1, hfull, hheaviest⟩
  · exact ⟨hk, .refl k, fun _ => not_le.mp hfull, fun t e he hgone => absurd he hgone⟩

theorem listRoom_spec (hk : Mirrors k) :
    Mirrors k.listRoom ∧ Shrinks k k.listRoom ∧ k.listRoom.ledger.size < maxEntries ∧
      (k.ledger.size ≤ maxEntries → ∀ t, ∀ e ∈ k.slots t, e ∉ k.listRoom.slots t →
        maxEntries ≤ k.ledger.size ∧ ∀ share, k.ledger.held share ≤ k.ledger.held e.share) := by
  obtain ⟨hm, hs, hsize⟩ := hk.makeRoom (le_refl k.ledger.size)
  refine ⟨hm, hs, hsize, fun hle t e he hgone => ?_⟩
  rw [listRoom] at hgone
  cases hfuel : k.ledger.size with
  | zero =>
    rw [hfuel] at hgone
    exact absurd he hgone
  | succ fuel =>
    rw [hfuel] at hgone
    rcases makeRoom_succ hk fuel with ⟨-, hstop⟩ | ⟨hfull, t', e', he', hgo, hheaviest⟩
    · rw [hstop] at hgone
      exact absurd he hgone
    · -- one turn is enough, so the entry is the one that turn dropped
      obtain ⟨-, -, hrest, -, -, hless⟩ := hk.drop he'
      rw [hgo, makeRoom_of_lt (hless.trans_le hle)] at hgone
      obtain rfl : e = e' := not_not.mp fun hne => hgone (hrest t e he hne)
      exact ⟨hfuel ▸ hfull, hheaviest⟩

structure Caps (k : KillList) : Prop where
  issuer : ∀ i, k.issuerCount i ≤ maxEntriesPerIssuer
  target : ∀ t, (k.slots t).length ≤ maxIssuersPerTarget
  list : k.ledger.size ≤ maxEntries

theorem Caps.shrinks (hk : Caps k) (h : Shrinks k k') : Caps k' :=
  ⟨fun i => (h.issuers i).length_le.trans (hk.issuer i),
    fun t => (h.slots t).length_le.trans (hk.target t), h.ledger.length_le.trans hk.list⟩

theorem Caps.push (hk : Caps k) (hissuer : k.issuerCount d.issuer < maxEntriesPerIssuer)
    (htarget : (k.slots d.target).length < maxIssuersPerTarget)
    (hlist : k.ledger.size < maxEntries) : Caps (k.push d storedAt) where
  issuer := fun i => by
    by_cases h : i = d.issuer
    · subst h
      simp only [issuerCount, KillList.push, Dict.bucket_setBucket]
      rw [issuerCount] at hissuer
      rw [List.length_insert]
      split_ifs <;> omega
    · simp only [issuerCount, KillList.push, Dict.bucket_setBucket_ne h]
      exact hk.issuer i
  target := fun t => by
    by_cases h : t = d.target
    · subst h
      rw [slots_push, List.length_append]
      exact htarget
    · rw [slots_push_ne h]
      exact hk.target t
  list := by
    have hle : (k.ledger.remove (k.nextSeq + 1)).size ≤ k.ledger.size :=
      List.length_filter_le _ _
    simp only [KillList.push, FairShare.size, FairShare.put, List.length_append,
      List.length_singleton] at hle ⊢
    exact (Nat.succ_le_succ hle).trans hlist

/-- The cap that takes the entry `e` of `t` for the deposit `d`: a full target's, by what the shares
hold of that target, or else a full list's, by what they hold of the list. -/
def GivesWay (k : KillList) (d : Deposit) (t : String) (e : Entry) : Prop :=
  if maxIssuersPerTarget ≤ (k.slots d.target).length then
    t = d.target ∧ heldBy (k.slots t) d.share ≤ heldBy (k.slots t) e.share
  else
    maxEntries ≤ k.ledger.size ∧ k.ledger.held d.share ≤ k.ledger.held e.share

/-- What a new entry does to the list. -/
structure Inserted (k : KillList) (d : Deposit) (storedAt : Int) (k' : KillList) : Prop where
  mirrors : Mirrors k'
  caps : Caps k'
  proven : k'.proven = k.proven
  provenLedger : k'.provenLedger = k.provenLedger
  entries : ∀ t, ∀ e ∈ k'.slots t, e ∈ k.slots t ∨ ∃ seq, e = d.entry storedAt seq
  fair : ∀ t, ∀ e ∈ k.slots t, e.issuer ≠ d.issuer → e ∉ k'.slots t → GivesWay k d t e

/-- A list that lost entries but no row of its ledger lost no slot either. -/
theorem length_slots_of_ledger_eq (hk : Mirrors k) (hm : Mirrors k') (hs : Shrinks k k')
    (hsame : k'.ledger.entries = k.ledger.entries) : (k.slots t).length ≤ (k'.slots t).length := by
  have hsub : k.slots t ⊆ k'.slots t := by
    intro e he
    obtain ⟨x, hx, hrow⟩ := (hk.listed _ _ _).mpr ⟨rfl, t, e, he, rfl, rfl⟩
    obtain ⟨-, t', e', he', hseq, -⟩ := (hm.listed _ _ _).mp ⟨x, hsame ▸ hx, hrow⟩
    obtain ⟨rfl, rfl⟩ := hk.seqs t' t e' ((hs.slots t').subset he') e he hseq
    exact he'
  exact ((hk.single t).of_map _).subperm hsub |>.length_le

/-- An insert stays within the caps and drops another's entry only where that is fair. -/
theorem insert_spec (hk : Mirrors k) (hcaps : Caps k) (hnamed : d.target ≠ "") :
    Inserted k d storedAt (k.insert d storedAt) := by
  rw [insert]
  have hm₁ := @Mirrors.removeIf d.target k (·.issuer = d.issuer) hk
  have hs₁ := @shrinks_removeIf d.target k (·.issuer = d.issuer)
  have hown₁ : ∀ e ∈ (k.removeIf d.target (·.issuer = d.issuer)).2.slots d.target,
      e.issuer ≠ d.issuer := fun e he h =>
    (mem_slots_removeIf.mp he).2 ⟨rfl, decide_eq_true h⟩
  have hkeep₁ : ∀ t, ∀ e ∈ k.slots t, e.issuer ≠ d.issuer →
      e ∈ (k.removeIf d.target (·.issuer = d.issuer)).2.slots t := fun t e he hne =>
    mem_slots_removeIf.mpr ⟨he, fun h => hne (of_decide_eq_true h.2)⟩
  generalize (k.removeIf d.target (·.issuer = d.issuer)).2 = k₁ at *
  obtain ⟨hm₂, hs₂, hcount, hkeep₂⟩ := @ownRoom_spec k₁ d.issuer hm₁
  replace hcount := hcount ((hcaps.shrinks hs₁).issuer _)
  generalize k₁.ownRoom d.issuer = k₂ at *
  obtain ⟨hm₃, hs₃, hlength, hkeep₃⟩ := @targetRoom_spec k₂ d.target hm₂
  have hs₀₂ := hs₁.trans hs₂
  replace hlength := hlength ((hcaps.shrinks hs₀₂).target _)
  generalize k₂.targetRoom d.target = k₃ at *
  obtain ⟨hm₄, hs₄, hsize, hkeep₄⟩ := @listRoom_spec k₃ hm₃
  have hs₀₃ := hs₀₂.trans hs₃
  replace hkeep₄ := hkeep₄ (hcaps.shrinks hs₀₃).list
  generalize k₃.listRoom = k₄ at *
  have hs₂₄ := hs₃.trans hs₄
  have hs := hs₀₂.trans hs₂₄
  refine ⟨hm₄.push ?_ hnamed, (hcaps.shrinks hs).push ?_ ?_ hsize, hs.proven, hs.provenLedger,
    ?_, ?_⟩
  · exact fun e he => hown₁ e (((hs₂.trans hs₂₄).slots _).subset he)
  · exact (hs₂₄.issuers _).length_le.trans_lt hcount
  · exact (hs₄.slots _).length_le.trans_lt hlength
  · intro t e he
    rcases mem_slots_push.mp he with he | ⟨-, rfl⟩
    · exact .inl ((hs.slots t).subset he)
    · exact .inr ⟨_, rfl⟩
  · intro t e he hne hgone
    have he₂ := hkeep₂ t e (hkeep₁ t e he hne) hne
    by_cases he₃ : e ∈ k₃.slots t
    · have he₄ : e ∉ k₄.slots t := fun h => hgone (mem_slots_push.mpr (.inl h))
      obtain ⟨hfull, hheaviest⟩ := hkeep₄ t e he₃ he₄
      -- a list at its cap is still the one before the deposit
      have hsame := hs₀₃.ledger.eq_of_length_le (hcaps.list.trans hfull)
      have hheld : ∀ share, k₃.ledger.held share = k.ledger.held share := fun share => by
        rw [FairShare.held, FairShare.held, hsame]
      have hkept := @length_slots_of_ledger_eq k k₃ d.target hk hm₃ hs₀₃ hsame
      rw [GivesWay, if_neg (by omega)]
      exact ⟨hfull.trans hs₀₃.ledger.length_le, hheld d.share ▸ hheld e.share ▸ hheaviest d.share⟩
    · obtain ⟨rfl, hfull, hheaviest⟩ := hkeep₃ t e he₂ he₃
      have hsame := (hs₀₂.slots d.target).eq_of_length_le ((hcaps.target _).trans hfull)
      rw [GivesWay, if_pos (hsame ▸ hfull)]
      exact ⟨rfl, hsame ▸ hheaviest d.share⟩

end Hollow.Relay.KillList
