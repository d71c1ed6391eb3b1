import Mathlib
import Hollow.Relay.SendLedger

/-! The send ledger's table and victim orders are recounts of its sockets, and what the sweep and
a fan-out close. -/

namespace Hollow.Relay.SendBudget.Ledger

variable {κ : Type} [LinearOrder κ] {l l' : Ledger κ} {k : κ} {u u₀ : Use} {s : Nat} {r : Rank κ}

/-- The table and the orders are those of the sockets. -/
structure Exact (l : Ledger κ) : Prop where
  sound : l.table.Sound
  listed : ∀ k share w, l.table.Lists k share w ↔
    ∃ u, l.uses.lookup k = some u ∧ u.share = share ∧ u.weight = w
  used : ∀ k u, l.uses.lookup k = some u →
    0 < u.weight ∧ u.ranked ∧ u.rankAt = u.progressAt ∧ u.rankWeight = u.weight
  order : ∀ s r, r ∈ l.order s ↔ ∃ u, l.uses.lookup r.key = some u ∧ u.share = s ∧
    r.at_ = u.progressAt ∧ r.weight = u.weight

/-- `u` is the use of `k`, changed in what it holds, or a new one. -/
def Follows (l : Ledger κ) (k : κ) (u : Use) : Prop :=
  (∃ u₀, l.uses.lookup k = some u₀ ∧ u.share = u₀.share ∧ u.ranked = u₀.ranked ∧
    u.rankAt = u₀.rankAt ∧ u.rankWeight = u₀.rankWeight) ∨
  l.uses.lookup k = none ∧ u.ranked = false

theorem exact_empty (limits : Limits) : Exact ({ limits } : Ledger κ) where
  sound := FairShare.sound_empty
  listed := by simp [FairShare.Lists]
  used := by simp
  order := by simp

@[simp] theorem unrank_table : (l.unrank k u).table = l.table := by
  rw [unrank]
  split_ifs <;> rfl

@[simp] theorem unrank_uses : (l.unrank k u).uses = l.uses := by
  rw [unrank]
  split_ifs <;> rfl

theorem order_unrank (table : FairShare κ) :
    ({ l with table }.unrank k u).order = (l.unrank k u).order := by
  rw [unrank, unrank]
  split_ifs <;> rfl

theorem mem_unrank (hl : Exact l) (hu : l.Follows k u) :
    r ∈ (l.unrank k u).order s ↔ r ∈ l.order s ∧ r.key ≠ k := by
  rcases hu with ⟨u₀, hu₀, hshare, hranked, hat, hweight⟩ | ⟨hnone, hranked⟩
  · obtain ⟨-, hranked₀, hat₀, hweight₀⟩ := hl.used k u₀ hu₀
    -- what is erased is the one rank of `k`
    have hone : ∀ s r, r ∈ l.order s → r.key = k →
        s = u.share ∧ r = ⟨u.rankAt, u.rankWeight, k⟩ := by
      rintro s ⟨at_, w, _⟩ hr rfl
      obtain ⟨u', hu', rfl, rfl, rfl⟩ := (hl.order s _).mp hr
      rw [hu₀, Option.some_inj] at hu'
      subst hu'
      exact ⟨hshare.symm, by rw [hat, hweight, hat₀, hweight₀]⟩
    rw [unrank, if_pos (hranked.trans hranked₀)]
    by_cases hs : s = u.share
    · subst hs
      simp only [Function.update_self, Finset.mem_erase]
      constructor
      · exact fun h => ⟨h.2, fun hkey => h.1 (hone _ r h.2 hkey).2⟩
      · rintro ⟨hr, hkey⟩
        exact ⟨by rintro rfl; exact hkey rfl, hr⟩
    · simp only [Function.update_of_ne hs]
      exact ⟨fun h => ⟨h, fun hkey => hs (hone s r h hkey).1⟩, fun h => h.1⟩
  · rw [unrank, if_neg (by simp [hranked])]
    refine ⟨fun h => ⟨h, ?_⟩, fun h => h.1⟩
    rintro rfl
    obtain ⟨u', hu', -⟩ := (hl.order s r).mp h
    rw [hnone] at hu'
    cases hu'

theorem Exact.without (hl : Exact l) (htable : l'.table = l.table.remove k)
    (huses : ∀ k', l'.uses.lookup k' = if k' = k then none else l.uses.lookup k')
    (horder : ∀ s r, r ∈ l'.order s ↔ r ∈ l.order s ∧ r.key ≠ k) : Exact l' where
  sound := htable ▸ hl.sound.remove
  listed := fun k' share w => by
    rw [htable, huses, FairShare.lists_remove, hl.listed]
    by_cases h : k' = k <;> simp [h]
  used := fun k' u hu => by
    rw [huses] at hu
    split_ifs at hu
    exact hl.used k' u hu
  order := fun s r => by
    rw [horder, huses, hl.order]
    by_cases h : r.key = k <;> simp [h]

theorem Exact.with_ (hl : Exact l) (hsound : l'.table.Sound)
    (htable : ∀ k' share w, l'.table.Lists k' share w ↔
      l.table.Lists k' share w ∧ k' ≠ k ∨ k' = k ∧ share = u.share ∧ w = u.weight)
    (huses : l'.uses = l.uses.insert k u)
    (hused : 0 < u.weight ∧ u.ranked ∧ u.rankAt = u.progressAt ∧ u.rankWeight = u.weight)
    (horder : ∀ s r, r ∈ l'.order s ↔ r ∈ l.order s ∧ r.key ≠ k ∨
      s = u.share ∧ r = ⟨u.progressAt, u.weight, k⟩) : Exact l' where
  sound := hsound
  listed := fun k' share w => by
    rw [htable, huses, hl.listed]
    by_cases h : k' = k
    · subst h
      simp [eq_comm]
    · simp [AList.lookup_insert_ne h, h]
  used := fun k' u' hu' => by
    rw [huses] at hu'
    by_cases h : k' = k
    · subst h
      rw [AList.lookup_insert, Option.some_inj] at hu'
      exact hu' ▸ hused
    · exact hl.used k' u' (AList.lookup_insert_ne h ▸ hu')
  order := fun s r => by
    rw [horder, huses, hl.order]
    by_cases h : r.key = k
    · subst h
      simp [Rank.ext_iff, eq_comm]
    · have hne : r ≠ ⟨u.progressAt, u.weight, k⟩ := fun heq => h (congrArg Rank.key heq)
      simp [AList.lookup_insert_ne h, h, hne]

theorem Exact.contains (hl : Exact l) : l.table.contains k ↔ ∃ u, l.uses.lookup k = some u := by
  rw [FairShare.contains_iff]
  constructor
  · rintro ⟨e, he, rfl⟩
    obtain ⟨u, hu, -⟩ := (hl.listed _ _ _).mp ⟨e, he, rfl, rfl, rfl⟩
    exact ⟨u, hu⟩
  · rintro ⟨u, hu⟩
    obtain ⟨e, he, hkey, -⟩ := (hl.listed _ _ _).mpr ⟨u, hu, rfl, rfl⟩
    exact ⟨e, he, hkey⟩

theorem Exact.lists_weigh (hl : Exact l) (hu : l.Follows k u) :
    let table := if l.table.contains k then l.table.reweigh k u.weight
      else l.table.put k u.share u.weight
    table.Sound ∧ ∀ k' share w, table.Lists k' share w ↔
      l.table.Lists k' share w ∧ k' ≠ k ∨ k' = k ∧ share = u.share ∧ w = u.weight := by
  by_cases hheld : l.table.contains k
  · simp only [hheld, if_true]
    refine ⟨hl.sound.reweigh, fun k' share w => FairShare.lists_reweigh.trans (or_congr_right ?_)⟩
    refine and_congr_right ?_
    rintro rfl
    obtain ⟨u₁, hu₁⟩ := hl.contains.mp hheld
    rcases hu with ⟨u₀, hu₀, hshare, -⟩ | ⟨hnone, -⟩
    · simp only [hl.listed, hu₀, Option.some_inj, exists_eq_left', hshare]
      constructor
      · rintro ⟨rfl, w', rfl, -⟩
        exact ⟨rfl, rfl⟩
      · rintro ⟨rfl, rfl⟩
        exact ⟨rfl, _, rfl, rfl⟩
    · rw [hnone] at hu₁
      cases hu₁
  · simp only [hheld, if_false, Bool.false_eq_true]
    exact ⟨hl.sound.put, fun k' share w => FairShare.lists_put⟩

theorem Exact.settle (hl : Exact l) (hu : l.Follows k u) : Exact (l.settle k u) := by
  rw [Ledger.settle]
  by_cases hw : u.weight = 0
  · rw [if_pos hw]
    refine hl.without rfl (fun k' => ?_) fun s r => mem_unrank hl hu
    split_ifs with h
    · subst h
      exact AList.lookup_erase _ _
    · exact AList.lookup_erase_ne h
  · rw [if_neg hw]
    obtain ⟨hsound, hlists⟩ := hl.lists_weigh hu
    simp only at hsound hlists ⊢
    generalize (if l.table.contains k then l.table.reweigh k u.weight
      else l.table.put k u.share u.weight) = table at *
    have hused : 0 < u.weight := Nat.pos_of_ne_zero hw
    refine hl.with_ (k := k)
      (u := { u with ranked := true, rankAt := u.progressAt, rankWeight := u.weight })
      ?_ ?_ ?_ ⟨hused, rfl, rfl, rfl⟩ fun s r => ?_
    · simpa [rank] using hsound
    · intro k' share w
      have htable : ({ l with table }.rank k u).table = table := by simp [rank]
      rw [htable]
      exact hlists k' share w
    · simp [rank]
    · rw [← mem_unrank hl hu, ← order_unrank table, rank]
      by_cases hs : s = u.share
      · subst hs
        simp only [Function.update_self, Finset.mem_insert, true_and]
        exact or_comm
      · simp only [Function.update_of_ne hs, hs, false_and, or_false]

theorem follows_of_use {amount share : Nat} {now : Int} (h : l.use k amount share now = some u)
    {u' : Use} (hshare : u'.share = u.share) (hranked : u'.ranked = u.ranked)
    (hat : u'.rankAt = u.rankAt) (hweight : u'.rankWeight = u.rankWeight) : l.Follows k u' := by
  rw [use] at h
  cases hu : l.uses.lookup k with
  | some u₀ =>
    rw [hu, Option.some_inj] at h
    subst h
    exact .inl ⟨u₀, hu, hshare, hranked, hat, hweight⟩
  | none =>
    rw [hu] at h
    simp only at h
    split_ifs at h
    rw [Option.some_inj] at h
    exact .inr ⟨hu, by rw [hranked, ← h]⟩

theorem drain_keeps (u : Use) (amount : Nat) (now : Int) :
    (u.drain amount now).share = u.share ∧ (u.drain amount now).ranked = u.ranked ∧
      (u.drain amount now).rankAt = u.rankAt ∧ (u.drain amount now).rankWeight = u.rankWeight := by
  simp only [Use.drain]
  split_ifs <;> simp

theorem fill_keeps (u : Use) (held filled messages : Nat) (now : Int) :
    let u' := u.fill held filled messages now
    u'.share = u.share ∧ u'.ranked = u.ranked ∧ u'.rankAt = u.rankAt ∧
      u'.rankWeight = u.rankWeight := by
  simp only [Use.fill]
  split_ifs <;> simp

theorem Exact.out (hl : Exact l) (k : κ) (amount : Nat) (now : Int) (share : Nat) :
    Exact (l.out k amount now share) := by
  rw [Ledger.out]
  cases hu : l.use k amount share now with
  | none => exact hl
  | some u =>
    obtain ⟨hshare, hranked, hat, hweight⟩ := drain_keeps u amount now
    exact hl.settle (follows_of_use hu hshare hranked hat hweight)

theorem Exact.in_ (hl : Exact l) (k : κ) (held filled messages : Nat) (now : Int) (share : Nat) :
    Exact (l.in_ k held filled messages now share) := by
  rw [Ledger.in_]
  cases hu : l.use k held share now with
  | none => exact hl
  | some u =>
    obtain ⟨hshare, hranked, hat, hweight⟩ := fill_keeps u held filled messages now
    exact hl.settle (follows_of_use hu hshare hranked hat hweight)

theorem forget_table : (l.forget k).table = l.table.remove k := by
  rw [forget]
  cases l.uses.lookup k <;> simp

@[simp] theorem forget_limits : (l.forget k).limits = l.limits := by
  rw [forget]
  cases l.uses.lookup k with
  | none => rfl
  | some u =>
    simp only [unrank]
    split_ifs <;> rfl

theorem lookup_forget (k' : κ) :
    (l.forget k).uses.lookup k' = if k' = k then none else l.uses.lookup k' := by
  rw [forget]
  cases hu : l.uses.lookup k with
  | none =>
    by_cases h : k' = k
    · subst h
      simp [hu]
    · simp [h]
  | some u =>
    by_cases h : k' = k
    · subst h
      simp
    · simp [h]

theorem Exact.forget (hl : Exact l) (k : κ) : Exact (l.forget k) := by
  refine hl.without forget_table lookup_forget fun s r => ?_
  rw [Ledger.forget]
  cases hu : l.uses.lookup k with
  | none =>
    refine ⟨fun h => ⟨h, ?_⟩, fun h => h.1⟩
    rintro rfl
    obtain ⟨u, hu', -⟩ := (hl.order s r).mp h
    rw [hu] at hu'
    cases hu'
  | some u => exact mem_unrank hl (.inl ⟨u, hu, rfl, rfl, rfl, rfl⟩)

/-- The socket is the least recently progressed of the share that holds the most. -/
structure Stalest (l : Ledger κ) (k : κ) (u : Use) : Prop where
  held : l.uses.lookup k = some u
  heaviest : ∀ share, l.table.held share ≤ l.table.held u.share
  oldest : ∀ k' u', l.uses.lookup k' = some u' → u'.share = u.share →
    u.progressAt ≤ u'.progressAt

theorem shareOf_eq {f : FairShare κ} (hf : f.Sound) {e : Entry κ} (he : e ∈ f.entries) :
    f.shareOf e.key = some e.share := by
  cases hfind : f.entries.find? (·.key = e.key) with
  | none => exact absurd (decide_eq_true rfl) (List.find?_eq_none.mp hfind e he)
  | some e' =>
    have hkey : e'.key = e.key := by simpa using List.find?_some hfind
    rw [FairShare.shareOf, hfind, hf.key_inj (List.mem_of_find?_eq_some hfind) he hkey]
    rfl

/-- The next to be closed is the stalest socket of the heaviest share. -/
theorem heaviest_cases (hl : Exact l) :
    l.heaviest = none ∧ l.table.entries = [] ∨
      ∃ k u, l.heaviest = some u.share ∧ l.first u.share = some k ∧ l.table.contains k ∧
        l.Stalest k u := by
  cases hvictim : l.table.victim with
  | none =>
    refine .inl ⟨?_, FairShare.scan_eq_none.mp hvictim⟩
    rw [heaviest, hvictim]
    rfl
  | some v =>
    obtain ⟨e, hpicks, rfl⟩ := FairShare.picks_of_scan hvictim
    obtain ⟨u, hu, hshare, -⟩ := (hl.listed _ _ _).mp ⟨e, hpicks.mem, rfl, rfl, rfl⟩
    have hheaviest : l.heaviest = some e.share := by
      rw [heaviest, hvictim]
      exact shareOf_eq hl.sound hpicks.mem
    have hrank := (hl.order e.share ⟨u.progressAt, u.weight, e.key⟩).mpr ⟨u, hu, hshare, rfl, rfl⟩
    cases hfirst : ((l.order e.share).sort (· ≤ ·)).head? with
    | none =>
      rw [List.head?_eq_none_iff] at hfirst
      have := (Finset.mem_sort (· ≤ ·)).mpr hrank
      rw [hfirst] at this
      cases this
    | some r =>
      obtain ⟨rest, hsort⟩ := List.head?_eq_some_iff.mp hfirst
      have hmem : r ∈ l.order e.share :=
        (Finset.mem_sort (· ≤ ·)).mp (hsort ▸ List.mem_cons_self)
      have hleast : ∀ r' ∈ l.order e.share, r ≤ r' := by
        intro r' hr'
        have hsorted := Finset.pairwise_sort (l.order e.share) (· ≤ ·)
        rw [← Finset.mem_sort (· ≤ ·)] at hr'
        rw [hsort] at hsorted hr'
        rcases List.mem_cons.mp hr' with rfl | hr'
        · exact le_rfl
        · exact (List.pairwise_cons.mp hsorted).1 r' hr'
      obtain ⟨u', hu', hshare', hat, -⟩ := (hl.order _ r).mp hmem
      refine .inr ⟨r.key, u', by rw [hshare']; exact hheaviest, ?_, hl.contains.mpr ⟨u', hu'⟩, hu',
        fun share => ?_, fun k'' u'' hu'' hsame => ?_⟩
      · rw [first, hshare', hfirst]
        rfl
      · rw [hshare']
        exact hpicks.held_le share
      · have hin := (hl.order e.share ⟨u''.progressAt, u''.weight, k''⟩).mpr
          ⟨u'', hu'', hsame.trans hshare', rfl, rfl⟩
        rw [← hat]
        exact Rank.at_le (hleast _ hin)

/-- The sockets closed one after another, each the stalest of what was left. -/
def ClosedInTurn : Ledger κ → List κ → Prop
  | _, [] => True
  | l, k :: closed => (∃ u, l.Stalest k u) ∧ ClosedInTurn (l.forget k) closed

theorem size_forget (hl : Exact l) (hk : l.table.contains k) :
    (l.forget k).table.size + 1 = l.table.size := by
  obtain ⟨e, he, rfl⟩ := FairShare.contains_iff.mp hk
  rw [forget_table]
  exact hl.sound.size_remove he

theorem overBudgetLoop_spec (hl : Exact l) {fuel : Nat} (hfuel : l.table.size < fuel) :
    (overBudgetLoop fuel l).2 = (overBudgetLoop fuel l).1.foldl forget l ∧
      Exact (overBudgetLoop fuel l).2 ∧ (overBudgetLoop fuel l).2.limits = l.limits ∧
      l.ClosedInTurn (overBudgetLoop fuel l).1 ∧
      ((overBudgetLoop fuel l).2.table.entries = [] ∨
        ∃ h, (overBudgetLoop fuel l).2.Settled h ∧
          ∀ share, (overBudgetLoop fuel l).2.table.held share ≤
            (overBudgetLoop fuel l).2.table.held h) := by
  induction fuel generalizing l with
  | zero => exact absurd hfuel (Nat.not_lt_zero _)
  | succ fuel ih =>
    rw [overBudgetLoop]
    rcases heaviest_cases hl with ⟨hnone, hempty⟩ | ⟨k, u, hheaviest, hfirst, hcontains, hstalest⟩
    · rw [hnone]
      exact ⟨rfl, hl, rfl, trivial, .inl hempty⟩
    · simp only [hheaviest]
      by_cases hsettled : l.Settled u.share
      · rw [if_pos hsettled]
        exact ⟨rfl, hl, rfl, trivial, .inr ⟨u.share, hsettled, hstalest.heaviest⟩⟩
      · have hsize := size_forget hl hcontains
        obtain ⟨hfold, hexact, hlimits, hturn, hend⟩ := ih (hl.forget k) (by omega)
        simp only [if_neg hsettled, hfirst, hcontains, Bool.not_true, Bool.false_eq_true, if_false]
        exact ⟨hfold, hexact, hlimits.trans forget_limits, ⟨⟨u, hstalest⟩, hturn⟩, hend⟩

/-- What a fan-out closes for its room: sockets in turn, and not its sender in its own share. -/
structure Admitted (l : Ledger κ) (bytes : Nat) (sender : κ) (ownShare : Nat)
    (result : Admit × List κ × Ledger κ) : Prop where
  rest : result.2.2 = result.2.1.foldl forget l
  inTurn : l.ClosedInTurn result.2.1
  exact_ : Exact result.2.2
  limits : result.2.2.limits = l.limits
  fits : result.1 = .pass → result.2.2.total + bytes ≤ l.limits.limit
  spares : (∀ u, l.uses.lookup sender = some u → u.share = ownShare) → sender ∉ result.2.1

section Admit

variable (hl : Exact l) (bytes : Nat) (sender : κ) (ownShare : Nat)
include hl

theorem admitted_nil {answer : Admit} (hfits : answer = .pass → l.total + bytes ≤ l.limits.limit) :
    l.Admitted bytes sender ownShare (answer, [], l) :=
  ⟨rfl, trivial, hl, rfl, hfits, fun _ => List.not_mem_nil⟩

theorem admitLoop_spec {fuel : Nat} (hfuel : l.table.size < fuel) :
    l.Admitted bytes sender ownShare (admitLoop bytes sender ownShare fuel l) := by
  induction fuel generalizing l with
  | zero => exact absurd hfuel (Nat.not_lt_zero _)
  | succ fuel ih =>
    rw [admitLoop]
    have htrip : l.Admitted bytes sender ownShare (.trip, [], l) := admitted_nil hl _ _ _ nofun
    by_cases hfits : l.total + bytes ≤ l.limits.limit
    · rw [if_pos hfits]
      exact admitted_nil hl bytes sender ownShare fun _ => hfits
    · rcases heaviest_cases hl with ⟨hnone, -⟩ | ⟨k, u, hheaviest, hfirst, hcontains, hstalest⟩
      · simpa only [if_neg hfits, hnone] using htrip
      · simp only [if_neg hfits, hheaviest, hfirst, hcontains, Bool.not_true, Bool.false_or,
          decide_eq_true_eq]
        by_cases hown : u.share = ownShare ∧ k = sender
        · simpa only [if_pos hown] using htrip
        · simp only [if_neg hown]
          have hsize := size_forget hl hcontains
          obtain ⟨hfold, hturn, hexact, hlimits, hpass, hsender⟩ := ih (hl.forget k) (by omega)
          rw [forget_limits] at hlimits hpass
          refine ⟨hfold, ⟨⟨u, hstalest⟩, hturn⟩, hexact, hlimits, hpass, fun hshare => ?_⟩
          rw [List.mem_cons, not_or]
          constructor
          · rintro rfl
            exact hown ⟨hshare u hstalest.held, rfl⟩
          · refine hsender fun u' hu' => hshare u' ?_
            rw [lookup_forget] at hu'
            split_ifs at hu'
            exact hu'

theorem admitFanout_spec :
    l.Admitted bytes sender ownShare (l.admitFanout bytes sender ownShare) := by
  rw [admitFanout]
  split_ifs
  · exact admitted_nil hl bytes sender ownShare nofun
  · exact admitLoop_spec hl bytes sender ownShare (Nat.lt_succ_self l.table.size)

end Admit

inductive Op (κ : Type)
  | out (k : κ) (amount : Nat) (now : Int) (share : Nat)
  | in_ (k : κ) (held filled messages : Nat) (now : Int) (share : Nat)
  | forget (k : κ)
  | admitFanout (bytes : Nat) (sender : κ) (ownShare : Nat)
  | overBudget

def apply (l : Ledger κ) : Op κ → Ledger κ
  | .out k amount now share => l.out k amount now share
  | .in_ k held filled messages now share => l.in_ k held filled messages now share
  | .forget k => l.forget k
  | .admitFanout bytes sender ownShare => (l.admitFanout bytes sender ownShare).2.2
  | .overBudget => l.overBudget.2

def run (l : Ledger κ) (ops : List (Op κ)) : Ledger κ := ops.foldl apply l

@[simp] theorem settle_limits : (l.settle k u).limits = l.limits := by
  rw [settle]
  split_ifs <;> simp only [rank, unrank] <;> split_ifs <;> rfl

theorem Exact.apply (hl : Exact l) (op : Op κ) :
    Exact (l.apply op) ∧ (l.apply op).limits = l.limits := by
  cases op with
  | out k amount now share =>
    refine ⟨hl.out k amount now share, ?_⟩
    rw [Ledger.apply, Ledger.out]
    cases l.use k amount share now <;> simp
  | in_ k held filled messages now share =>
    refine ⟨hl.in_ k held filled messages now share, ?_⟩
    rw [Ledger.apply, Ledger.in_]
    cases l.use k held share now <;> simp
  | forget k => exact ⟨hl.forget k, forget_limits⟩
  | admitFanout bytes sender ownShare =>
    have hadmitted := admitFanout_spec hl bytes sender ownShare
    exact ⟨hadmitted.exact_, hadmitted.limits⟩
  | overBudget =>
    obtain ⟨-, hexact, hlimits, -⟩ := overBudgetLoop_spec hl (Nat.lt_succ_self l.table.size)
    exact ⟨hexact, hlimits⟩

theorem Exact.run (hl : Exact l) (ops : List (Op κ)) :
    Exact (l.run ops) ∧ (l.run ops).limits = l.limits :=
  List.foldlRecOn (motive := fun l' => Exact l' ∧ l'.limits = l.limits) ops _ ⟨hl, rfl⟩
    fun _ hl' op _ => ⟨(hl'.1.apply op).1, (hl'.1.apply op).2.trans hl'.2⟩

/-- The table and the orders, counted again from the sockets. -/
structure Recounted (l : Ledger κ) : Prop where
  total : l.total = (l.uses.pairs.map fun p => p.2.out + p.2.in_).sum
  held : ∀ share, l.table.held share =
    ((l.uses.pairs.filter (·.2.share = share)).map fun p => p.2.out + p.2.in_).sum
  order : ∀ share, l.order share = ((l.uses.pairs.filter (·.2.share = share)).map fun p =>
    ⟨p.2.progressAt, p.2.weight, p.1⟩).toFinset

/-- The indexes are what recounting the table would give. -/
theorem Exact.recounted (hl : Exact l) : Recounted l := by
  have hnodup : (l.uses.pairs.map fun p => (p.1, p.2.share, p.2.weight)).Nodup := by
    refine List.Nodup.of_map (fun r : κ × Nat × Nat => r.1) ?_
    rw [List.map_map]
    exact Dict.nodup_keys_pairs l.uses
  have hperm := hl.sound.rows_perm hnodup fun k share w => by
    rw [hl.listed, List.mem_map]
    constructor
    · rintro ⟨u, hu, rfl, rfl⟩
      exact ⟨(k, u), Dict.mem_pairs.mpr hu, rfl⟩
    · rintro ⟨⟨k', u⟩, hu, heq⟩
      cases heq
      exact ⟨u, Dict.mem_pairs.mp hu, rfl, rfl⟩
  refine ⟨?_, fun share => ?_, fun share => Finset.ext fun r => ?_⟩
  · have hsum := (hperm.map (·.2.2)).sum_eq
    rw [List.map_map, List.map_map] at hsum
    exact hsum
  · have hsum := ((hperm.filter (·.2.1 = share)).map (·.2.2)).sum_eq
    rw [List.filter_map, List.filter_map, List.map_map, List.map_map] at hsum
    exact hsum
  · rw [hl.order, List.mem_toFinset, List.mem_map]
    constructor
    · rintro ⟨u, hu, hshare, hat, hweight⟩
      refine ⟨(r.key, u), List.mem_filter.mpr ⟨Dict.mem_pairs.mpr hu, decide_eq_true hshare⟩, ?_⟩
      exact Rank.ext hat.symm hweight.symm rfl
    · rintro ⟨⟨k, u⟩, hu, rfl⟩
      obtain ⟨hu, hshare⟩ := List.mem_filter.mp hu
      exact ⟨u, Dict.mem_pairs.mp hu, of_decide_eq_true hshare, rfl, rfl⟩

/-- What the sweep closes, and what it leaves. -/
structure Swept (l : Ledger κ) (closed : List κ) (l' : Ledger κ) : Prop where
  rest : l' = closed.foldl forget l
  inTurn : l.ClosedInTurn closed
  total : l'.total ≤ l.limits.limit
  shares : l'.pressed 0 → ∀ share, l'.table.held share ≤ l.limits.shareCap

theorem Exact.swept (hl : Exact l) : l.Swept l.overBudget.1 l.overBudget.2 := by
  obtain ⟨hfold, -, hlimits, hturn, hend⟩ :=
    overBudgetLoop_spec hl (Nat.lt_succ_self l.table.size)
  rcases hend with hempty | ⟨h, hsettled, hheaviest⟩
  · have hnone : l.overBudget.2.table.entries = [] := hempty
    refine ⟨hfold, hturn, ?_, fun _ share => ?_⟩
    · simp [total, FairShare.total, hnone]
    · simp [FairShare.held, hnone]
  · rw [Settled, hlimits] at hsettled
    refine ⟨hfold, hturn, hsettled.1, fun hpressed share => ?_⟩
    exact (hheaviest share).trans (hsettled.2.resolve_left (not_not.mpr hpressed))

/-- In every run the table and the orders are recounts, the sweep closes the stalest socket of the
heaviest share in turn until the budget and the shares are within their lines, and a fan-out from a
socket in its own share never closes it. -/
theorem send_ledger_exact (limits : Limits) (ops : List (Op κ)) :
    let l := ({ limits } : Ledger κ).run ops
    l.Recounted ∧ l.Swept l.overBudget.1 l.overBudget.2 ∧
      ∀ bytes sender ownShare, (∀ u, l.uses.lookup sender = some u → u.share = ownShare) →
        sender ∉ (l.admitFanout bytes sender ownShare).2.1 := by
  intro l
  have hl : Exact l := ((exact_empty limits).run ops).1
  refine ⟨hl.recounted, hl.swept, fun bytes sender ownShare hown => ?_⟩
  exact (admitFanout_spec hl bytes sender ownShare).spares hown

/-- A sender that is next in its own share trips. -/
theorem send_ledger_exact_own :
    ((({} : Ledger Nat).run [.out 1 10 0 5]).admitFanout minLimit 1 5).1 = .trip ∧
      1 ∉ ((({} : Ledger Nat).run [.out 1 10 0 5]).admitFanout minLimit 1 5).2.1 := by
  refine ⟨by decide +kernel, (send_ledger_exact {} [.out 1 10 0 5]).2.2 minLimit 1 5 ?_⟩
  intro u hu
  have hshare : ((({} : Ledger Nat).run [.out 1 10 0 5]).uses.lookup 1).map (·.share) = some 5 := by
    decide +kernel
  rw [hu] at hshare
  exact Option.some_inj.mp hshare

/-- A sender named with a share its bytes are not charged to is closed. -/
theorem misnamed_sender_closed :
    let l := ({} : Ledger Nat).run [.out 1 10 0 5]
    (l.admitFanout minLimit 1 6).2.1 = [1] := by
  decide +kernel

end Hollow.Relay.SendBudget.Ledger
