import Hollow.Identity.Finality
import Hollow.Relay.Roster

/-! The relay's roster rules are the client's: on every roster, pair of rosters and clock that does
not overflow, both give the same statements in the same order and the same members. -/

namespace Hollow.Relay.Rosters

open Hollow.Identity
open StableSort (sortBy keyLe)

section Vectors

variable {α : Type} [LinearOrder α] {v : List α} {cap : Nat}

theorem sortUnique_eq : sortUnique v = sortSet v := by
  have hsorted : (sortBy id v).Pairwise (· ≤ ·) := StableSort.sorted_sortBy
  exact hsorted.destutter_eq_dedup

omit [LinearOrder α] in
theorem resized_eq : resized v cap = v.take cap := by
  rw [resized]
  split_ifs with h
  · rfl
  · rw [List.take_of_length_le (by omega)]

theorem sortCap_eq : sortCap v cap = Identity.sortCap v cap := by
  rw [sortCap, resized_eq, sortUnique_eq, Identity.sortCap]

theorem pushUnique_eq {v' : List α} : pushUnique v v' = Identity.pushUnique v v' := sortUnique_eq

omit [LinearOrder α] in
theorem stableSort_eq {κ : Type} [LinearOrder κ] {key : α → κ} {less : α → α → Bool}
    (h : ∀ a ∈ v, ∀ b ∈ v, less a b ↔ key a < key b) : stableSort less v = sortBy key v := by
  have hmap := List.map_insertionSort (r := fun a b => less b a = false) (s := keyLe key) id v
    fun a ha b hb => by
      rw [← Bool.not_eq_true, h b hb a ha, not_lt]
      rfl
  simpa [stableSort, sortBy] using hmap

theorem lessBy_iff {κ : Type} [LinearOrder κ] {key : α → κ} {a b : α} :
    lessBy key a b ↔ toLex (key a, a) < toLex (key b, b) := by
  rw [lessBy, Prod.Lex.toLex_lt_toLex]
  split_ifs with hkey
  · simp [hkey]
  · have hkey : key a = key b := not_not.1 hkey
    simp [hkey]

theorem stableSort_lessBy {κ : Type} [LinearOrder κ] {key : α → κ} :
    stableSort (lessBy key) v = sortBy (fun a => toLex (key a, a)) v :=
  stableSort_eq fun _ _ _ _ => lessBy_iff

theorem sortBy_of_sorted {κ : Type} [LinearOrder κ] {key : α → κ} (h : v.Pairwise (· < ·)) :
    sortBy key v = sortBy (fun a => toLex (key a, a)) v :=
  StableSort.sortBy_eq_sortBy_toLex h

section Insert

variable {β : Type} {l : List β} {f : β → α} {s : Finset α} {a : α}

theorem mem_foldl_insert :
    a ∈ l.foldl (fun s b => insert (f b) s) s ↔ a ∈ s ∨ ∃ b ∈ l, f b = a := by
  induction l generalizing s with
  | nil => simp
  | cons b l ih =>
    rw [List.foldl_cons, ih, Finset.mem_insert]
    simp only [List.mem_cons, exists_eq_or_imp, eq_comm (a := a)]
    tauto

theorem mem_foldl_insert_if {p : β → Prop} [DecidablePred p] :
    a ∈ l.foldl (fun s b => if p b then insert (f b) s else s) s ↔
      a ∈ s ∨ ∃ b ∈ l, p b ∧ f b = a := by
  have hfilter : (l.filter (p ·)).foldl (fun s b => insert (f b) s) s = _ := List.foldl_filter
  simp only [decide_eq_true_eq] at hfilter
  rw [← hfilter, mem_foldl_insert]
  simp [and_assoc]

end Insert

end Vectors

section Base

variable {w : Checks} {r : Roster}

theorem newestAt_eq {first : Recovery} {rest : List Recovery} :
    ((first :: rest).map (·.atMs)).max? = some (newestAt first (first :: rest)) := by
  rw [List.map_cons, List.max?_cons', List.foldl_map, newestAt, List.foldl_cons, max_self]

theorem foldl_addTie {id : Recovery → String} {at_ : Int} {recoveries : List Recovery}
    {scan : Bool × Current} :
    recoveries.foldl (addTie id at_) scan =
      (recoveries.filter (·.atMs = at_)).foldl (addTie id at_) scan := by
  rw [List.foldl_filter]
  congr
  funext scan rec
  by_cases hat : rec.atMs = at_
  · simp [hat]
  · simp [addTie, hat]

theorem addTie_gathers {id : Recovery → String} {at_ : Int} {ties : List Recovery}
    (h : ∀ rec ∈ ties, rec.atMs = at_) {base : String} {keep : Finset String} {noWait : Bool} :
    ties.foldl (addTie id at_) (false, ⟨base, at_, keep, noWait⟩) =
      (false, ⟨(ties.map id).foldl min base, at_, keep ∪ (ties.flatMap (·.keep)).toFinset,
        noWait || ties.any (·.noWait)⟩) := by
  induction ties generalizing base keep noWait with
  | nil => simp
  | cons rec ties ih =>
    have hstep : addTie id at_ (false, ⟨base, at_, keep, noWait⟩) rec =
        (false, ⟨min base (id rec), at_, keep ∪ rec.keep.toFinset, noWait || rec.noWait⟩) := by
      have hat := h rec List.mem_cons_self
      simp only [addTie, hat, ne_eq, not_true_eq_false, if_false, Bool.false_eq_true, false_or]
      rcases lt_or_ge (id rec) base with hlt | hge
      · rw [if_pos hlt, min_eq_right hlt.le]
      · rw [if_neg (not_lt.2 hge), min_eq_left hge]
    rw [List.foldl_cons, hstep, ih fun rec hrec => h rec (List.mem_cons_of_mem _ hrec)]
    simp [Finset.union_assoc, Bool.or_assoc]

/-- The scan that keeps the least id of the ties finds the client's current recovery. -/
theorem currentRecovery_eq : currentRecovery w r = r.currentRecovery w := by
  rw [currentRecovery, Roster.currentRecovery]
  cases hrecoveries : r.recoveries with
  | nil => simp
  | cons first rest =>
    have hmax : ((first :: rest).map (·.atMs)).max? = _ := newestAt_eq
    rw [hmax]
    dsimp only
    rw [foldl_addTie]
    have hties : ∀ rec ∈ (first :: rest).filter (·.atMs = newestAt first (first :: rest)),
        rec.atMs = newestAt first (first :: rest) := fun rec hrec => by
      simpa using (List.mem_filter.1 hrec).2
    have hne : (first :: rest).filter (·.atMs = newestAt first (first :: rest)) ≠ [] := by
      obtain ⟨rec, hrec, hat⟩ := List.mem_map.1 (List.max?_mem hmax)
      exact List.ne_nil_of_mem (List.mem_filter.2 ⟨hrec, by simpa using hat⟩)
    generalize newestAt first (first :: rest) = at_ at *
    cases hfilter : (first :: rest).filter (·.atMs = at_) with
    | nil => exact absurd hfilter hne
    | cons tie ties =>
      rw [hfilter] at hties
      have hat := hties tie List.mem_cons_self
      have hstep : addTie (baseId w r.master r.rPub) at_ (true, ⟨"", at_, ∅, false⟩) tie =
          (false, ⟨baseId w r.master r.rPub tie, at_, tie.keep.toFinset, tie.noWait⟩) := by
        simp [addTie, hat]
      rw [List.foldl_cons, hstep,
        addTie_gathers fun rec hrec => hties rec (List.mem_cons_of_mem _ hrec)]
      simp [List.min?_cons', -List.min?_cons]

theorem base_eq : base w r = r.base w := by
  rw [base, Roster.base, currentRecovery_eq]
  cases r.currentRecovery w <;> rfl

theorem consented_eq : consented r = r.consented := by
  ext device
  rw [consented, mem_foldl_insert, mem_consented]
  simp

theorem baseRoots_eq : baseRoots w r = r.baseRoots w := by
  ext device
  rw [baseRoots, Roster.baseRoots, currentRecovery_eq]
  cases r.currentRecovery w with
  | some c => simp [mem_foldl_insert_if, and_assoc]
  | none => simp [mem_foldl_insert]

end Base

section Ranks

variable {w : Checks} {r : Roster} {tier : Nat} {device : String}

theorem mem_vouchees {voucher : String} : device ∈ vouchees r voucher ↔
    ∃ v ∈ r.admitting, v.voucher = voucher ∧ v.device = device := by
  rw [vouchees, mem_foldl_insert_if, consented_eq]
  simp only [Finset.notMem_empty, false_or, Roster.admitting, List.mem_filter, decide_eq_true_eq,
    and_assoc]

theorem isSome_step_rank {c : Climb} : ((c.step r tier).rank device).isSome ↔
    device ∈ c.frontier ∨ (c.rank device).isSome := by
  rw [Climb.step]
  by_cases h : device ∈ c.frontier
  · simp [h]
  · simp [h]

theorem step_frontier {c : Climb} {ranked : Finset String}
    (hranked : ∀ device, device ∈ ranked ↔ (c.rank device).isSome) :
    (c.step r tier).frontier =
      Reach.nextLevel Vouch.voucher Vouch.device r.admitting (ranked ∪ c.frontier) c.frontier := by
  ext device
  rw [Reach.mem_nextLevel]
  have hfresh : ((c.step r tier).rank device).isNone ↔ device ∉ ranked ∪ c.frontier := by
    have hsome : ((c.step r tier).rank device).isSome ↔ _ := isSome_step_rank
    rw [Finset.mem_union, hranked, or_comm, ← hsome]
    simp
  rw [← hfresh]
  simp only [Climb.step, Finset.mem_filter, Finset.mem_biUnion, mem_vouchees]
  refine and_congr_left fun _ => ⟨?_, ?_⟩
  · rintro ⟨voucher, hvoucher, v, hv, rfl, hdevice⟩
    exact ⟨v, hv, hvoucher, hdevice⟩
  · rintro ⟨v, hv, hvoucher, hdevice⟩
    exact ⟨v.voucher, hvoucher, v, hv, rfl, hdevice⟩

/-- Climbing the tree of vouches level by level ranks as the search by levels does. -/
theorem rank_run {fuel : Nat} {c : Climb} {ranked : Finset String}
    (hranked : ∀ device, device ∈ ranked ↔ (c.rank device).isSome)
    (hfresh : ∀ device ∈ c.frontier, device ∉ ranked) :
    (Climb.run r tier fuel c).rank device = (c.rank device).or
      ((Reach.levelOf (Reach.levels Vouch.voucher Vouch.device r.admitting fuel ranked c.frontier)
        device).map fun n => (tier, c.depth + n)) := by
  induction fuel generalizing c ranked with
  | zero => simp [Climb.run, Reach.levels, Reach.levelOf]
  | succ fuel ih =>
    rw [Climb.run, Reach.levels]
    split_ifs with hempty
    · simp [Reach.levelOf]
    · have hranked' : ∀ device, device ∈ ranked ∪ c.frontier ↔
          ((c.step r tier).rank device).isSome := fun device => by
        rw [isSome_step_rank, Finset.mem_union, hranked, or_comm]
      rw [ih hranked' fun device hmem => ?_, step_frontier hranked]
      · rw [Reach.levelOf, Reach.levelOf, List.findIdx?_cons, Climb.step]
        by_cases hmem : device ∈ c.frontier
        · have hnone : c.rank device = none := by
            have := hfresh device hmem
            rw [hranked] at this
            simpa using this
          simp [hmem, hnone]
        · simp [hmem, Function.comp_def, Nat.add_assoc, Nat.add_comm 1]
      · rw [step_frontier hranked] at hmem
        exact (Reach.mem_nextLevel.1 hmem).2

theorem climb_eq {seed ranked : Finset String} {rank : String → Option (Nat × Nat)}
    (hranked : ∀ device, device ∈ ranked ↔ (rank device).isSome) :
    climb r tier seed rank device = (rank device).or
      ((Reach.levelOf (Reach.search Vouch.voucher Vouch.device r.admitting ranked seed) device).map
        fun n => (tier, n)) := by
  have hseed : (seed.filter fun device => (rank device).isNone) = seed \ ranked := by
    ext device
    rw [Finset.mem_filter, Finset.mem_sdiff, hranked]
    simp
  have hadmitting : r.vouches.filter (·.device ∈ consented r) = r.admitting := by
    rw [consented_eq, Roster.admitting]
  rw [climb, hseed, hadmitting, rank_run hranked fun device hmem => (Finset.mem_sdiff.1 hmem).2]
  simp [Reach.search]

theorem mem_foldr_union_iff {levels : List (Finset String)} :
    device ∈ levels.foldr (· ∪ ·) ∅ ↔ (Reach.levelOf levels device).isSome := by
  rw [mem_foldr_union, Reach.levelOf, List.findIdx?_isSome, List.any_eq_true]
  simp

theorem joining_eq : (r.pendings.foldl (fun out p =>
    if p.device ∈ consented r then insert p.device out else out) ∅) = r.joining := by
  ext device
  rw [mem_foldl_insert_if, consented_eq]
  simp only [Finset.notMem_empty, false_or, Roster.joining, Finset.mem_filter, List.mem_toFinset,
    List.mem_map]
  constructor
  · rintro ⟨p, hp, hconsented, rfl⟩
    exact ⟨⟨p, hp, rfl⟩, hconsented⟩
  · rintro ⟨⟨p, hp, rfl⟩, hconsented⟩
    exact ⟨p, hp, hconsented, rfl⟩

/-- Climbing level by level ranks a device by the client's breadth-first search. -/
theorem standing_eq : standing w r = r.rank w := by
  funext device
  have hseed : (baseRoots w r).filter (· ∈ consented r) = r.seeds w := by
    rw [baseRoots_eq, consented_eq, Roster.seeds]
  have hrooted : ∀ device, climb r 0 (r.seeds w) (fun _ => none) device =
      (Reach.levelOf (r.rankedLevels w).1 device).map fun n => (0, n) := fun device => by
    have hnone : ∀ device : String, device ∈ (∅ : Finset String) ↔
        (none : Option (Nat × Nat)).isSome := by simp
    rw [climb_eq hnone]
    rfl
  have hranked : ∀ device, device ∈ (r.rankedLevels w).1.foldr (· ∪ ·) ∅ ↔
      (climb r 0 (r.seeds w) (fun _ => none) device).isSome := fun device => by
    rw [hrooted, Option.isSome_map, mem_foldr_union_iff]
  rw [standing, joining_eq, hseed, climb_eq hranked, hrooted, Roster.rank, Roster.standing]
  have hjoined : Reach.search Vouch.voucher Vouch.device r.admitting
      ((r.rankedLevels w).1.foldr (· ∪ ·) ∅) r.joining = (r.rankedLevels w).2 := rfl
  rw [hjoined]
  cases Reach.levelOf (r.rankedLevels w).1 device with
  | some n => rfl
  | none => cases Reach.levelOf (r.rankedLevels w).2 device <;> rfl

end Ranks

section Compaction

variable {w : Checks} {r : Roster} {stand : String → WithBot Rank}

theorem newest_eq : newest r = r.newest := by
  rw [newest, Roster.newest]
  cases hrecoveries : r.recoveries with
  | nil => simp [sortCap_eq]
  | cons first rest =>
    rw [newestAt_eq]
    simp [sortCap_eq]

theorem settled_eq : settled w r = r.settled w := by
  rw [settled, Roster.settled, newest_eq, Roster.inBase, base_eq, Roster.base, currentRecovery_eq]
  cases r.newest.currentRecovery w <;> simp [sortCap_eq]

theorem foldl_addVouch {stands : String → Bool}
    (hstands : ∀ device, stands device ↔ stand device ≠ ⊥)
    {vouches tree rest : List Vouch} {best : Finset String} {seen : List String}
    (hseen : ∀ device, device ∈ best ↔ device ∈ seen) :
    (vouches.foldl (addVouch stand) (tree, rest, best)).1 =
        tree ++ (splitBest stands seen vouches).1 ∧
      (vouches.foldl (addVouch stand) (tree, rest, best)).2.1 =
        rest ++ (splitBest stands seen vouches).2 := by
  induction vouches generalizing tree rest best seen with
  | nil => simp [splitBest]
  | cons v vouches ih =>
    have hcond : (stands v.device && v.device ∉ seen) = true ↔
        stand v.device ≠ ⊥ ∧ v.device ∉ best := by
      rw [Bool.and_eq_true, hstands, decide_eq_true_eq, hseen]
    rw [List.foldl_cons, splitBest, addVouch]
    by_cases h : stand v.device ≠ ⊥ ∧ v.device ∉ best
    · rw [if_pos h, if_pos (hcond.2 h)]
      have hseen' : ∀ device, device ∈ insert v.device best ↔ device ∈ v.device :: seen := by
        simp [hseen]
      exact ⟨(ih hseen').1.trans (by simp), (ih hseen').2⟩
    · rw [if_neg h, if_neg (hcond.not.2 h)]
      exact ⟨(ih hseen).1, (ih hseen).2.trans (by simp)⟩

theorem stands_iff_rank {device : String} : r.stands w device ↔ r.rank w device ≠ ⊥ :=
  Option.isSome_iff_ne_none

theorem keptVouches_eq : keptVouches (r.rank w) r.vouches = r.keptVouches w := by
  have hfilter : r.vouches.filter (r.rank w ·.voucher ≠ ⊥) =
      r.vouches.filter (r.stands w ·.voucher) :=
    List.filter_congr fun v _ => by rw [Bool.eq_iff_iff, decide_eq_true_eq, stands_iff_rank]
  rw [keptVouches, Roster.keptVouches, stableSort_lessBy, sortUnique_eq, hfilter, resized_eq]
  have hsplit : ((r.rankedVouches w).foldl (addVouch (r.rank w)) ([], [], ∅)).1 =
        [] ++ (splitBest (r.stands w) [] (r.rankedVouches w)).1 ∧
      ((r.rankedVouches w).foldl (addVouch (r.rank w)) ([], [], ∅)).2.1 =
        [] ++ (splitBest (r.stands w) [] (r.rankedVouches w)).2 :=
    foldl_addVouch (fun _ => stands_iff_rank) (by simp)
  rw [List.nil_append, List.nil_append] at hsplit
  rw [← hsplit.1, ← hsplit.2, Roster.rankedVouches]

theorem keptRemovals_eq : keptRemovals (r.rank w) r.removals = r.keptRemovals w := by
  have hfilter : r.removals.filter (r.rank w ·.remover ≠ ⊥) =
      r.removals.filter (r.stands w ·.remover) :=
    List.filter_congr fun v _ => by rw [Bool.eq_iff_iff, decide_eq_true_eq, stands_iff_rank]
  rw [keptRemovals, Roster.keptRemovals, stableSort_lessBy, sortUnique_eq, hfilter, resized_eq]
  rfl

theorem mentioned_eq : mentioned r = r.mentioned := by
  have hkeep : ∀ (l : List Recovery) (out : Finset String) (device : String),
      device ∈ l.foldl (fun out x => out ∪ x.keep.toFinset) out ↔
        device ∈ out ∨ ∃ x ∈ l, device ∈ x.keep := by
    intro l
    induction l with
    | nil => simp
    | cons x l ih => simp [ih, or_assoc]
  ext device
  simp only [mentioned, mem_foldl_insert, hkeep, Roster.mentioned, List.mem_toFinset,
    List.mem_append, List.mem_flatMap, List.mem_map, Finset.notMem_empty, false_or]

theorem klass_eq {named : Finset String} : klass stand named = consentClass stand named := by
  funext k
  rw [klass, consentClass]
  cases hstand : stand k.device with
  | bot => simp
  | coe rank => exact if_pos (WithBot.coe_ne_bot)

theorem foldl_addConsent {klass : Consent → Lex (Nat × WithBot Rank)}
    (hklass : ∀ k, (ofLex (klass k)).1 ≤ 2) {consents keep : List Consent} {unnamed : Nat} :
    (consents.foldl (addConsent klass) (keep, unnamed)).1 =
      keep ++ retainNamed (fun k => (ofLex (klass k)).1 < 2) unnamed consents := by
  induction consents generalizing keep unnamed with
  | nil => simp [retainNamed]
  | cons k consents ih =>
    have hle := hklass k
    rw [List.foldl_cons, addConsent, retainNamed]
    by_cases hnamed : (ofLex (klass k)).1 = 2
    · simp only [hnamed, if_true, lt_self_iff_false, decide_false, Bool.false_eq_true, if_false]
      by_cases hroom : unnamed + 1 ≤ maxUnnamedConsents
      · rw [if_neg (by omega), if_pos hroom, ih]
        simp
      · rw [if_pos (by omega), if_neg hroom, ih]
    · have hlt : (ofLex (klass k)).1 < 2 := by omega
      simp only [hnamed, hlt, if_false, decide_true, if_true]
      rw [ih]
      simp

theorem keptConsents_eq {named : Finset String} {consents : List Consent} :
    keptConsents stand named consents = Identity.keptConsents stand named consents := by
  have hklass : ∀ k, (ofLex (consentClass stand named k)).1 ≤ 2 := fun k => by
    rw [consentClass]
    split
    · simp
    · split_ifs <;> simp
  rw [keptConsents, Identity.keptConsents, klass_eq, stableSort_lessBy, resized_eq,
    foldl_addConsent hklass, List.nil_append]

/-- One pass over sorted vectors compacts as the client's filters do. -/
theorem compacted_eq : compacted w r = r.compacted w := by
  rw [compacted, Roster.compacted, settled_eq, standing_eq]
  simp only [keptVouches_eq, keptRemovals_eq, mentioned_eq, keptConsents_eq]

end Compaction

/-- The signatures of a roster's statements verify for `master`. -/
structure Knows (w : Checks) (master : String) (known : Roster) : Prop where
  recoveries : ∀ rec ∈ known.recoveries,
    let payload := recoveryPayload master known.rPub rec.atMs rec.keep rec.noWait
    w.verifyByKey known.rPub payload rec.sigR ∧ w.verifyBy master payload rec.sigM
  phraseAdmits : ∀ p ∈ known.phraseAdmits,
    let payload := phraseAdmitPayload master known.rPub p.atMs p.device
    w.verifyByKey known.rPub payload p.sigR ∧ w.verifyBy master payload p.sigM
  consents : ∀ c ∈ known.consents, w.verifyBy c.device (consentPayload master c.device) c.sig
  vouches : ∀ v ∈ known.vouches, w.verifyBy v.voucher (vouchPayload master v.base v.device) v.sig
  pendings : ∀ p ∈ known.pendings, w.verifyBy master (pendingPayload master p.base p.device) p.sigM
  legacy : ∀ l ∈ known.legacy, w.verifyBy master (legacyPayload master l.device) l.sigM
  removals : ∀ x ∈ known.removals,
    w.verifyBy x.remover (removalPayload master x.base x.device x.keepVouched) x.sig

section Checking

variable {w : Checks} {r : Roster} {now : Int} {known : Option Roster}

theorem saturatingAdd_eq {a b : Int} (hmin : i64Min ≤ a + b) (hmax : a + b ≤ i64Max) :
    saturatingAdd a b = a + b := by
  rw [saturatingAdd, min_eq_right hmax, max_eq_right hmin]

theorem filter_gated {α : Type} {l : List α} {p q : α → Bool} {gate : Bool}
    (h : ∀ a ∈ l, q a ↔ gate ∧ p a) : l.filter q = if gate then l.filter p else [] := by
  cases gate with
  | true => exact List.filter_congr fun a ha => by rw [Bool.eq_iff_iff, h a ha]; simp
  | false => exact List.filter_eq_nil_iff.2 fun a ha => by simpa using h a ha

theorem known_or_iff {known : Option Roster} {p : Roster → Bool} {q : Prop}
    (h : ∀ k, known = some k → p k → q) : (known.any p = true ∨ q) ↔ q := by
  cases known with
  | none => simp
  | some k => simpa using h k rfl

variable (hmin : i64Min ≤ now + maxFutureSkewMs) (hmax : now + maxFutureSkewMs ≤ i64Max)
  (hknown : ∀ k, known = some k → Knows w r.master k)
include hmin hmax

theorem fresh_eq {atMs : Int} : fresh (some now) atMs = decide (atMs ≤ now + maxFutureSkewMs) := by
  rw [fresh, Option.all_some, saturatingAdd_eq hmin hmax]

include hknown

theorem accepted_recoveries :
    (accepted w r now known).recoveries = (r.accepted w (some now)).recoveries := by
  refine filter_gated fun rec _ => ?_
  rw [recoveryVerifies, fresh_eq hmin hmax, sortUnique_eq]
  simp only [decide_eq_true_eq, Bool.and_eq_true, Bool.not_eq_true', List.isEmpty_eq_false_iff]
  constructor
  · rintro ⟨⟨hfresh, hkeep, hne, hlength, hkeys⟩, hsigned⟩
    rw [known_or_iff fun k hk hrec => ?_] at hsigned
    · exact ⟨w.isRecoveryKey_of_verifyByKey _ _ _ hsigned.1,
        ⟨⟨⟨⟨⟨hfresh, hkeep⟩, hne⟩, hlength⟩, hkeys⟩, hsigned.1⟩, hsigned.2⟩
    · rw [Option.filter_eq_some_iff, decide_eq_true_eq] at hk
      rw [hkeep, ← hk.2]
      exact (hknown k hk.1).recoveries rec (by simpa using hrec)
  · rintro ⟨-, ⟨⟨⟨⟨⟨hfresh, hkeep⟩, hne⟩, hlength⟩, hkeys⟩, hsigR⟩, hsigM⟩
    exact ⟨⟨hfresh, hkeep, hne, hlength, hkeys⟩, .inr ⟨hsigR, hsigM⟩⟩

theorem accepted_phraseAdmits :
    (accepted w r now known).phraseAdmits = (r.accepted w (some now)).phraseAdmits := by
  refine filter_gated fun p _ => ?_
  rw [phraseAdmitVerifies, fresh_eq hmin hmax]
  simp only [decide_eq_true_eq, Bool.and_eq_true]
  constructor
  · rintro ⟨⟨hfresh, hkey⟩, hsigned⟩
    rw [known_or_iff fun k hk hp => ?_] at hsigned
    · exact ⟨w.isRecoveryKey_of_verifyByKey _ _ _ hsigned.1, ⟨⟨hfresh, hkey⟩, hsigned.1⟩, hsigned.2⟩
    · rw [Option.filter_eq_some_iff, decide_eq_true_eq] at hk
      rw [← hk.2]
      exact (hknown k hk.1).phraseAdmits p (by simpa using hp)
  · rintro ⟨-, ⟨⟨hfresh, hkey⟩, hsigR⟩, hsigM⟩
    exact ⟨⟨hfresh, hkey⟩, .inr ⟨hsigR, hsigM⟩⟩

omit hmin hmax in
theorem accepted_removals :
    (accepted w r now known).removals = (r.accepted w (some now)).removals := by
  refine List.filter_congr fun x _ => ?_
  rw [Bool.eq_iff_iff, removalVerifies, sortUnique_eq]
  simp only [decide_eq_true_eq, Bool.and_eq_true]
  constructor
  · rintro ⟨⟨hbase, hkey, hkeep, hlength, hkeys⟩, hsigned⟩
    rw [known_or_iff fun k hk hx => ?_] at hsigned
    · exact ⟨⟨⟨⟨⟨hbase, hkey⟩, hkeep⟩, hlength⟩, hkeys⟩, hsigned⟩
    · rw [hkeep]
      exact (hknown k hk).removals x (by simpa using hx)
  · rintro ⟨⟨⟨⟨⟨hbase, hkey⟩, hkeep⟩, hlength⟩, hkeys⟩, hsigned⟩
    exact ⟨⟨hbase, hkey, hkeep, hlength, hkeys⟩, .inr hsigned⟩

/-- What the relay has checked before and skips would pass the client's checks. -/
theorem accepted_eq : accepted w r now known = r.accepted w (some now) := by
  have hrecoveries := accepted_recoveries hmin hmax hknown
  have hadmits := accepted_phraseAdmits hmin hmax hknown
  refine Roster.ext rfl ?_ hrecoveries hadmits ?_ ?_ ?_ ?_ (accepted_removals hknown)
  · have hrPub : (r.accepted w (some now)).rPub =
        if (r.accepted w (some now)).recoveries ≠ [] ∨ (r.accepted w (some now)).phraseAdmits ≠ []
        then r.rPub else "" := by
      simp [Roster.accepted]
    rw [hrPub, ← hrecoveries, ← hadmits]
    rfl
  · refine List.filter_congr fun c _ => ?_
    rw [consentVerifies, Bool.eq_iff_iff, decide_eq_true_eq]
    exact known_or_iff fun k hk hc => (hknown k hk).consents c (by simpa using hc)
  · refine List.filter_congr fun v _ => ?_
    rw [vouchVerifies, Bool.eq_iff_iff, decide_eq_true_eq,
      known_or_iff fun k hk hv => (hknown k hk).vouches v (by simpa using hv)]
    simp [and_assoc]
  · refine List.filter_congr fun p _ => ?_
    rw [pendingVerifies, Bool.eq_iff_iff, decide_eq_true_eq,
      known_or_iff fun k hk hp => (hknown k hk).pendings p (by simpa using hp)]
    simp [and_assoc]
  · refine List.filter_congr fun l _ => ?_
    rw [legacyVerifies, Bool.eq_iff_iff, decide_eq_true_eq,
      known_or_iff fun k hk hl => (hknown k hk).legacy l (by simpa using hl)]
    simp

theorem verified_eq : verified w r now known = r.checked w (some now) := by
  rw [verified, Roster.checked, accepted_eq hmin hmax hknown, compacted_eq]
  split_ifs <;> rfl

end Checking

section Merging

variable {w : Checks} {r incoming : Roster}

theorem merged_eq : merged w r incoming = r.merged w incoming := by
  rw [merged, Roster.merged, Roster.joined]
  split_ifs with hmaster hkey
  · rfl
  all_goals simp [compacted_eq, pushUnique_eq, hkey]

theorem trim_eq {base : String} {kept : List Pending} : trim r base kept = r.trimmed base kept := by
  rw [trim, Roster.trimmed]
  congr 2
  funext p
  simp [imp_iff_not_or]

theorem mergedByFirstSight_eq {firstSeen : String → String → Option Int} :
    mergedByFirstSight w r incoming firstSeen = r.mergedByFirstSight w incoming firstSeen := by
  have hasks : ∀ base, sortUnique (r.pendings.filter (·.base = base) ++
      incoming.pendings.filter (·.base = base)) = r.asks incoming base := fun base => by
    rw [sortUnique_eq, Roster.asks, List.filter_append]
  have hsort : ∀ (seen : Pending → Int) (base : String),
      stableSort (fun x y => seen x < seen y) (r.asks incoming base) =
        sortBy (fun p => toLex (seen p, p)) (r.asks incoming base) := fun seen base => by
    have hsorted : (r.asks incoming base).Pairwise (· < ·) := pairwise_sortSet
    rw [stableSort_eq fun _ _ _ _ => decide_eq_true_iff, sortBy_of_sorted hsorted]
  rw [mergedByFirstSight, Roster.mergedByFirstSight]
  simp only [merged_eq, base_eq, hasks, hsort, trim_eq]

end Merging

section Fold

variable {w : Checks} {r : Roster} {vs : List Vouch} {ok : Vouch → Bool} {set : Finset String}

theorem sweep_eq : sweep ok vs set = Reach.pass Vouch.voucher Vouch.device (vs.filter ok) set := by
  rw [sweep, Reach.pass, List.foldl_filter]
  congr 1
  funext set v
  by_cases hvoucher : v.voucher ∈ set <;> by_cases hok : ok v <;> simp [hvoucher, hok]

theorem grow_eq_passes {fuel : Nat} : grow ok vs fuel set =
    Reach.passes Vouch.voucher Vouch.device (vs.filter ok) fuel set := by
  induction fuel generalizing set with
  | zero => rfl
  | succ fuel ih => simp only [grow, Reach.passes, sweep_eq, ih]

theorem grow_eq : grow ok vs (vs.length + 1) set = vouchClosure (vs.filter ok) set := by
  ext device
  rw [grow_eq_passes, vouchClosure, Reach.mem_closure,
    Reach.mem_passes (Nat.lt_succ_of_le (List.length_filter_le _ _))]

theorem addRemoval_eq {removed : String → Option String} {kept : String → Option (Finset String)}
    {x : Removal} : addRemoval (removed, kept) x = (noteRemoved removed x, noteKept kept x) := by
  rw [addRemoval, noteRemoved, noteKept]
  congr 1
  · cases removed x.device <;> rfl
  · cases kept x.device with
    | none => rfl
    | some keep =>
      congr 2

theorem foldl_addRemoval {removals : List Removal} {counts : Removal → Bool}
    {removed : String → Option String} {kept : String → Option (Finset String)} :
    removals.foldl (fun acc x => if counts x then addRemoval acc x else acc) (removed, kept) =
      ((removals.filter counts).foldl noteRemoved removed,
        (removals.filter counts).foldl noteKept kept) := by
  induction removals generalizing removed kept with
  | nil => rfl
  | cons x removals ih =>
    rw [List.foldl_cons]
    by_cases hx : counts x
    · rw [if_pos hx, addRemoval_eq, ih, List.filter_cons_of_pos hx]
      rfl
    · rw [if_neg hx, ih, List.filter_cons_of_neg hx]

theorem grow_all : grow (fun _ => true) vs (vs.length + 1) set = vouchClosure vs set := by
  rw [grow_eq, List.filter_true]

theorem refused_eq : (r.removals.foldl (fun out x =>
    if x.base = r.base w ∧ x.remover ∈ r.founded w then insert x.device out else out) ∅) =
      r.refused w := by
  ext device
  rw [mem_foldl_insert_if, mem_refused]
  simp [and_assoc]

section Clock

variable {firstSeen : String → Option Int} {now : Int} (hnow : now < i64Max)
  (hseen : ∀ device seen, firstSeen device = some seen → i64Min ≤ seen)
include hnow hseen

theorem any_le_eq_hasMatured {device : String} :
    (firstSeen device).any (· ≤ now - pendingMaturityMs) = hasMatured firstSeen now device := by
  rw [hasMatured]
  cases hdevice : firstSeen device with
  | none => rfl
  | some seen =>
    have hmin := hseen device seen hdevice
    have hmaturity : 0 < pendingMaturityMs := by decide
    rw [Option.any_some, Option.any_some, saturatingAdd, decide_eq_decide]
    omega

theorem matured_eq :
    ((r.scopePendings w).foldl (fun out p =>
      if r.noWait w ∨ p.device ∈ r.refused w then out
      else if (firstSeen p.device).any (· ≤ now - pendingMaturityMs) then insert p.device out
      else out) ∅) = r.matured w firstSeen now := by
  have hstep : (fun (out : Finset String) (p : Pending) =>
      if r.noWait w ∨ p.device ∈ r.refused w then out
      else if (firstSeen p.device).any (· ≤ now - pendingMaturityMs) then insert p.device out
      else out) = fun out p =>
        if r.noWait w = false ∧ p.device ∉ r.refused w ∧ hasMatured firstSeen now p.device
        then insert p.device out else out := by
    funext out p
    rw [any_le_eq_hasMatured hnow hseen]
    by_cases hwait : r.noWait w <;> by_cases hrefused : p.device ∈ r.refused w <;>
      simp [hwait, hrefused]
  ext device
  rw [hstep, mem_foldl_insert_if, mem_matured]
  simp only [Finset.notMem_empty, false_or]
  constructor
  · rintro ⟨p, hp, hcond, rfl⟩
    exact ⟨⟨p, hp, rfl⟩, hcond⟩
  · rintro ⟨⟨p, hp, rfl⟩, hcond⟩
    exact ⟨p, hp, hcond, rfl⟩

omit hnow hseen in
/-- The removals counted in one pass are those the fold counts. -/
theorem counted_eq : (r.removals.foldl (fun acc x =>
      if x.base ≠ r.base w ∨ x.remover ∉ (r.scope w firstSeen now).rooted then acc
      else if x.device ∉ (r.scope w firstSeen now).rooted ∧
        x.device ∉ ((r.scopePendings w).map (·.device)).toFinset then acc
      else addRemoval acc x) (fun _ => none, fun _ => none)) =
    (removedBy (r.countingRemovals w firstSeen now),
      keptBy (r.countingRemovals w firstSeen now)) := by
  rw [removedBy, keptBy, Roster.countingRemovals, Roster.countingRemovalsIn, ← foldl_addRemoval]
  congr 1
  funext acc x
  have hscope : (r.scope w firstSeen now).pendings = r.scopePendings w ∧
      (r.scope w firstSeen now).base = r.base w := ⟨rfl, rfl⟩
  rw [hscope.1, hscope.2]
  by_cases hbase : x.base = r.base w <;>
    by_cases hremover : x.remover ∈ (r.scope w firstSeen now).rooted <;>
    by_cases hdevice : x.device ∈ (r.scope w firstSeen now).rooted <;>
    by_cases hasked : x.device ∈ ((r.scopePendings w).map (·.device)).toFinset <;>
    simp only [hbase, hremover, hdevice, hasked, ne_eq, not_true_eq_false, not_false_eq_true,
      or_true, or_false, and_true, and_false, and_self, or_self, if_true, if_false, decide_true,
      decide_false, Bool.false_eq_true]

/-- The relay's sweeps reach the client's closures, and its removals count as the client's do. -/
theorem fold_eq : fold w r firstSeen now = r.fold w firstSeen now := by
  have hroots : (baseRoots w r).filter (· ∈ r.consented) = r.seeds w := by
    rw [baseRoots_eq, Roster.seeds]
  have hasked : ((r.scopePendings w).foldl (fun out p => insert p.device out) ∅) =
      ((r.scopePendings w).map (·.device)).toFinset := by
    ext device
    rw [mem_foldl_insert]
    simp
  have hok : ∀ removals, (fun v : Vouch => if (removedBy removals v.voucher).isNone then true
      else (keptBy removals v.voucher).any (v.device ∈ ·)) =
      voucherOk removals := fun removals => by
    funext v
    rw [voucherOk]
    by_cases hnone : (removedBy removals v.voucher).isNone <;> simp [hnone]
  have hvouches : (r.vouches.filter fun v => v.base = r.base w ∧ v.device ∈ r.consented) =
      r.scopeVouches w := rfl
  have hpendings : (r.pendings.filter fun p => p.base = r.base w ∧ p.device ∈ r.consented) =
      r.scopePendings w := rfl
  have hfounded : vouchClosure (r.scopeVouches w) (r.seeds w) = r.founded w := rfl
  have hnoWait : (r.currentRecovery w).any (·.noWait) = r.noWait w := rfl
  have hrooted : vouchClosure (r.scopeVouches w) (r.seeds w ∪ r.matured w firstSeen now) =
      (r.scope w firstSeen now).rooted := rfl
  rw [fold]
  simp only [consented_eq, currentRecovery_eq, base_eq, hroots, hvouches, hpendings, grow_all,
    hfounded, hnoWait, refused_eq, matured_eq hnow hseen, hrooted, hasked, counted_eq, hok]
  rw [grow_eq]
  rfl

end Clock

/-- On every roster, pair of rosters and clock that does not overflow the relay and the client give
the same. -/
theorem roster_agrees {firstSeen : String → Option Int} {now : Int} {incoming : Roster}
    {known : Option Roster}
    (hmin : i64Min ≤ now - pendingMaturityMs) (hmax : now + maxFutureSkewMs ≤ i64Max)
    (hseen : ∀ device seen, firstSeen device = some seen → i64Min ≤ seen)
    (hknown : ∀ k, known = some k → Knows w r.master k) :
    verified w r now known = r.checked w (some now) ∧
    compacted w r = r.compacted w ∧
    merged w r incoming = r.merged w incoming ∧
    (∀ seenBy, mergedByFirstSight w r incoming seenBy = r.mergedByFirstSight w incoming seenBy) ∧
    fold w r firstSeen now = r.fold w firstSeen now := by
  have hmaturity : 0 < pendingMaturityMs := by decide
  have hskew : 0 < maxFutureSkewMs := by decide
  exact ⟨verified_eq (by omega) hmax hknown, compacted_eq, merged_eq,
    fun _ => mergedByFirstSight_eq, fold_eq (by omega) hseen⟩

theorem roster_agrees_returned :
    verified sampleChecks returnedSample 0 none = returnedSample.checked sampleChecks (some 0) ∧
    compacted sampleChecks returnedSample = returnedSample.compacted sampleChecks ∧
    merged sampleChecks returnedSample removedSample =
      returnedSample.merged sampleChecks removedSample ∧
    (∀ seenBy, mergedByFirstSight sampleChecks returnedSample removedSample seenBy =
      returnedSample.mergedByFirstSight sampleChecks removedSample seenBy) ∧
    fold sampleChecks returnedSample (fun _ => some 0) 0 =
      returnedSample.fold sampleChecks (fun _ => some 0) 0 :=
  roster_agrees (by decide) (by decide) (by simp [i64Min]) (by simp)

end Fold

end Hollow.Relay.Rosters
