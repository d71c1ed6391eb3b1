import Hollow.Files.Relay

/-! What gives way to a new relay stream. -/

namespace Hollow.Files

variable {streams : List RelayEntry} {a : RelayAsk} {byCount : Bool} {l kept : List RelayKept}
  {rank : RelayRank} {gone picks displaced : List Nat} {q : Nat}

def RelayKept.weight (byCount : Bool) (k : RelayKept) : Nat := if byCount then 1 else k.bytes

def held (byCount : Bool) (l : List RelayKept) (asker : String) : Nat :=
  ((l.filter (·.asker = asker)).map (·.weight byCount)).sum

theorem foldl_share (l : List RelayKept) {x : Nat} (y : Nat) (hx : x < 2 ^ 64) :
    l.foldl (fun s k => ((s.1 + if byCount then 1 else k.bytes) % 2 ^ 64, max s.2 k.seq)) (x, y) =
      ((x + (l.map (·.weight byCount)).sum) % 2 ^ 64, (l.map (·.seq)).foldl max y) := by
  induction l generalizing x y with
  | nil =>
    rw [List.map_nil, List.sum_nil, Nat.add_zero, Nat.mod_eq_of_lt hx]
    rfl
  | cons k l ih =>
    rw [List.foldl_cons, ih _ (Nat.mod_lt _ (by decide)), List.map_cons, List.map_cons,
      List.sum_cons, List.foldl_cons, Nat.mod_add_mod, ← Nat.add_assoc]
    rfl

theorem share_fst (asker : String) : (share byCount l asker).1 = held byCount l asker % 2 ^ 64 := by
  rw [share, foldl_share _ _ (by decide), Nat.zero_add, held]

theorem share_snd (asker : String) : (share byCount l asker).2 =
    ((l.filter (·.asker = asker)).map (·.seq)).foldl max 0 := by
  rw [share, foldl_share _ _ (by decide)]

theorem foldl_max_spec (l : List Nat) (y : Nat) :
    l.foldl max y ∈ y :: l ∧ ∀ x ∈ y :: l, x ≤ l.foldl max y :=
  List.max?_eq_some_iff.1 List.max?_cons'

theorem le_share (byCount : Bool) {k : RelayKept} (hk : k ∈ l) :
    k.seq ≤ (share byCount l k.asker).2 := by
  rw [share_snd]
  refine (foldl_max_spec _ _).2 _ (List.mem_cons_of_mem _ (List.mem_map_of_mem ?_))
  exact List.mem_filter.2 ⟨hk, decide_eq_true rfl⟩

theorem share_mem (byCount : Bool) {k : RelayKept} (hk : k ∈ l) :
    ∃ k' ∈ l, k'.asker = k.asker ∧ k'.seq = (share byCount l k.asker).2 := by
  have hle := le_share byCount hk
  rw [share_snd] at hle ⊢
  rcases List.mem_cons.1 (foldl_max_spec ((l.filter (·.asker = k.asker)).map (·.seq)) 0).1 with
    h | h
  · exact ⟨k, hk, rfl, by omega⟩
  · obtain ⟨k', hk', hseq⟩ := List.mem_map.1 h
    obtain ⟨hmem, hasker⟩ := List.mem_filter.1 hk'
    exact ⟨k', hmem, of_decide_eq_true hasker, hseq⟩

/-- The heaviest share is sought among the streams of the lowest rank. -/
theorem heaviest_spec (byCount : Bool) (rank : RelayRank) (hne : kept ≠ []) :
    ∃ k ∈ kept, (∀ k' ∈ kept, k.rank ≤ k'.rank) ∧
      (heaviest byCount rank kept = (share byCount (kept.filter (·.rank = k.rank)) k.asker).2) ∧
      ∀ k' ∈ kept, k'.rank = k.rank →
        toLex (share byCount (kept.filter (·.rank = k.rank)) k'.asker) ≤
          toLex (share byCount (kept.filter (·.rank = k.rank)) k.asker) := by
  obtain ⟨low, hlow⟩ : ∃ low, (kept.map (·.rank)).min? = some low := by
    refine Option.isSome_iff_exists.1 (List.isSome_min?_of_ne_nil ?_)
    simpa using hne
  obtain ⟨hmem, hmin⟩ := List.min?_eq_some_iff.1 hlow
  obtain ⟨k₀, hk₀, hrank₀⟩ := List.mem_map.1 hmem
  set lowest := kept.filter (·.rank = low) with hlowest
  set shares := (lowest.map (·.asker)).dedup.map (share byCount lowest) with hshares
  have hshare : ∀ k ∈ kept, k.rank = low → share byCount lowest k.asker ∈ shares := by
    intro k hk hrank
    refine List.mem_map.2 ⟨k.asker, List.mem_dedup.2 (List.mem_map.2 ⟨k, ?_, rfl⟩), rfl⟩
    exact List.mem_filter.2 ⟨hk, decide_eq_true hrank⟩
  obtain ⟨best, hbest⟩ : ∃ best, shares.argmax toLex = some best := by
    refine Option.ne_none_iff_exists'.1 fun hnone => ?_
    have := hshare k₀ hk₀ hrank₀
    rw [List.argmax_eq_none.1 hnone] at this
    cases this
  obtain ⟨asker, hasker, hshareOf⟩ := List.mem_map.1 (List.argmax_mem hbest)
  obtain ⟨k, hklow, rfl⟩ := List.mem_map.1 (List.mem_dedup.1 hasker)
  obtain ⟨hk, hrank⟩ := List.mem_filter.1 hklow
  obtain rfl : k.rank = low := of_decide_eq_true hrank
  refine ⟨k, hk, fun k' hk' => hmin _ (List.mem_map_of_mem hk'), ?_, fun k' hk' hrank' => ?_⟩
  · rw [heaviest, hlow, Option.getD_some, ← hlowest, ← hshares, hbest, hshareOf]
    rfl
  · rw [← hlowest, hshareOf]
    exact List.le_of_mem_argmax (hshare k' hk' hrank') hbest

/-- The streams that are left and the newcomer, once some are gone. -/
def moment (streams : List RelayEntry) (a : RelayAsk) (gone : List Nat) : List RelayKept :=
  ((capped streams).filter (·.seq ∉ gone)).map RelayEntry.kept ++ [a.kept]

def Fits (kept : List RelayKept) : Prop :=
  kept.length ≤ maxRelayStreams ∧ (kept.length < 2 ∨ staged kept ≤ relayStagedBytes)

instance (kept : List RelayKept) : Decidable (Fits kept) := by unfold Fits; infer_instance

/-- The loop's picks, one after the other, once some streams are gone. -/
inductive Picks (streams : List RelayEntry) (a : RelayAsk) : List Nat → List Nat → Prop
  | fits {gone : List Nat} (h : Fits (moment streams a gone)) : Picks streams a gone []
  | pick {gone picks : List Nat} {q : Nat} (h : ¬ Fits (moment streams a gone))
      (hq : heaviest (overCount (moment streams a gone)) a.rank (moment streams a gone) = q)
      (hne : q ≠ newcomer) (rest : Picks streams a (gone ++ [q]) picks) :
      Picks streams a gone (q :: picks)

theorem moment_ne_nil (streams : List RelayEntry) (a : RelayAsk) (gone : List Nat) :
    moment streams a gone ≠ [] := by
  simp [moment]

theorem moment_filter (hq : q ≠ newcomer) :
    (moment streams a gone).filter (·.seq ≠ q) = moment streams a (gone ++ [q]) := by
  have hself : [a.kept].filter (·.seq ≠ q) = [a.kept] := by
    simp [RelayAsk.kept, Ne.symm hq]
  rw [moment, moment, List.filter_append, hself, List.filter_map, List.filter_filter]
  congr 2
  refine List.filter_congr fun s _ => ?_
  by_cases hs : s.seq = q <;> simp [RelayEntry.kept, hs]

theorem fits_iff : (!overCount kept && (kept.length < 2 || staged kept ≤ relayStagedBytes)) = true ↔
    Fits kept := by
  simp [Fits, overCount]

theorem relayLoop_eq_ok {fuel : Nat}
    (h : relayLoop a.rank fuel (moment streams a gone) gone = .ok displaced) :
    ∃ picks, displaced = gone ++ picks ∧ Picks streams a gone picks := by
  induction fuel generalizing gone with
  | zero => cases h
  | succ fuel ih =>
    simp only [relayLoop, fits_iff] at h
    split_ifs at h with hfits hbusy
    · exact ⟨[], by rw [List.append_nil, Except.ok.inj h], .fits hfits⟩
    · rw [moment_filter hbusy] at h
      obtain ⟨picks, rfl, hpicks⟩ := ih h
      exact ⟨_ :: picks, by simp, .pick hfits rfl hbusy hpicks⟩

theorem relayPlan_eq_ok (hrank : a.rank ≠ .own) (h : relayPlan streams a = .ok displaced) :
    ∃ gone picks, relayOlder streams a.id = .ok gone ∧ displaced = gone ++ picks ∧
      Picks streams a gone picks := by
  rw [relayPlan] at h
  split at h
  · cases h
  rename_i gone holder
  rw [if_neg hrank] at h
  dsimp only at h
  split_ifs at h
  obtain ⟨picks, hdisplaced, hpicks⟩ := relayLoop_eq_ok h
  exact ⟨gone, picks, holder, hdisplaced, hpicks⟩

theorem relayOlder_eq_ok {id : String} (h : relayOlder streams id = .ok gone) :
    gone = [] ∧ (∀ s ∈ streams, s.id ≠ id) ∨
      ∃ s ∈ streams, gone = [s.seq] ∧ s.id = id ∧ s.stale = true := by
  rw [relayOlder] at h
  split at h
  · rename_i running hfind
    split_ifs at h with hstale
    have hid := List.find?_some hfind
    exact .inr ⟨running, List.mem_of_find?_eq_some hfind, (Except.ok.inj h).symm,
      of_decide_eq_true hid, hstale⟩
  · rename_i hfind
    exact .inl ⟨(Except.ok.inj h).symm, by simpa using hfind⟩

theorem Picks.final (h : Picks streams a gone picks) : Fits (moment streams a (gone ++ picks)) := by
  induction h with
  | fits h => rwa [List.append_nil]
  | pick _ _ _ _ ih => rwa [List.append_assoc] at ih

/-- The stream the loop takes next, once some are gone. -/
def Picked (streams : List RelayEntry) (a : RelayAsk) (gone : List Nat) (q : Nat) : Prop :=
  heaviest (overCount (moment streams a gone)) a.rank (moment streams a gone) = q ∧ q ≠ newcomer

theorem Picks.split {before later : List Nat} (h : Picks streams a gone (before ++ q :: later)) :
    Picked streams a (gone ++ before) q := by
  induction before generalizing gone with
  | nil =>
    cases h with
    | pick h hq hne rest =>
      rw [List.append_nil]
      exact ⟨hq, hne⟩
  | cons p before ih =>
    cases h with
    | pick h hq hne rest =>
      have hrest := ih rest
      rwa [List.append_assoc] at hrest

def stagedBytes (l : List RelayEntry) : Nat := (l.map (·.bytes)).sum

/-- The caps on the streams outside our identity. -/
structure Within (streams : List RelayEntry) : Prop where
  count : (capped streams).length ≤ maxRelayStreams
  staged : stagedBytes (capped streams) ≤ relayStagedBytes ∨ (capped streams).length ≤ 1

structure Numbered (streams : List RelayEntry) : Prop where
  distinct : (streams.map (·.seq)).Nodup
  word : ∀ s ∈ streams, s.seq ≤ newcomer

/-- The stream is an older one of the id asked for, and its device no longer takes it. -/
def Older (a : RelayAsk) (s : RelayEntry) : Prop := s.id = a.id ∧ s.stale = true

theorem Numbered.eq_of_seq (h : Numbered streams) {s t : RelayEntry} (hs : s ∈ streams)
    (ht : t ∈ streams) (hseq : s.seq = t.seq) : s = t :=
  List.inj_on_of_nodup_map h.distinct hs ht hseq

theorem mem_moment {k : RelayKept} : k ∈ moment streams a gone ↔
    (∃ s ∈ streams, s.seq ∉ gone ∧ s.rank ≠ .own ∧ s.kept = k) ∨ k = a.kept := by
  simp [moment, capped, and_assoc]

theorem seq_le_newcomer (h : Numbered streams) {k : RelayKept} (hk : k ∈ moment streams a gone) :
    k.seq ≤ newcomer := by
  rcases mem_moment.1 hk with ⟨s, hs, -, -, rfl⟩ | rfl
  · exact h.word s hs
  · exact Nat.le_refl _

/-- What the newcomer's asker and another asker hold at a moment, within one rank. -/
def heldAt (streams : List RelayEntry) (a : RelayAsk) (gone : List Nat) (rank : RelayRank)
    (asker : String) : Nat :=
  held (overCount (moment streams a gone))
    ((moment streams a gone).filter (·.rank = rank)) asker

theorem share_newcomer (h : Numbered streams) (a : RelayAsk) (gone : List Nat) (byCount : Bool) :
    (share byCount ((moment streams a gone).filter (·.rank = a.rank)) a.asker).2 = newcomer := by
  have hmem : a.kept ∈ (moment streams a gone).filter (·.rank = a.rank) :=
    List.mem_filter.2 ⟨mem_moment.2 (.inr rfl), decide_eq_true rfl⟩
  refine Nat.le_antisymm ?_ (le_share byCount hmem)
  obtain ⟨k, hk, -, hseq⟩ := share_mem byCount hmem
  rw [show a.asker = a.kept.asker from rfl, ← hseq]
  exact seq_le_newcomer h (List.mem_filter.1 hk).1

/-- The loop takes a stream of the lowest rank, from an asker that holds the most of it. -/
theorem Picked.spec (h : Picked streams a gone q) :
    ∃ s ∈ streams, s.seq = q ∧ s.rank ≠ .own ∧ s.seq ∉ gone ∧
      (∀ k ∈ moment streams a gone, s.rank ≤ k.rank) ∧
      ∀ k ∈ moment streams a gone, k.rank = s.rank →
        heldAt streams a gone s.rank k.asker % 2 ^ 64 <
            heldAt streams a gone s.rank s.asker % 2 ^ 64 ∨
          heldAt streams a gone s.rank k.asker % 2 ^ 64 =
              heldAt streams a gone s.rank s.asker % 2 ^ 64 ∧
            (share (overCount (moment streams a gone))
              ((moment streams a gone).filter (·.rank = s.rank)) k.asker).2 ≤ q := by
  obtain ⟨k, hk, hlow, hnewest, hmost⟩ := heaviest_spec (overCount (moment streams a gone)) a.rank
    (moment_ne_nil streams a gone)
  have hkmem : k ∈ (moment streams a gone).filter (·.rank = k.rank) :=
    List.mem_filter.2 ⟨hk, decide_eq_true rfl⟩
  obtain ⟨k', hk', hasker, hseq⟩ := share_mem (overCount (moment streams a gone)) hkmem
  obtain ⟨hk', hrank⟩ := List.mem_filter.1 hk'
  have hrank : k'.rank = k.rank := of_decide_eq_true hrank
  rw [← hnewest, h.1] at hseq
  rcases mem_moment.1 hk' with ⟨s, hs, hgone, hown, rfl⟩ | rfl
  · have hrank : s.rank = k.rank := hrank
    have hasker : s.asker = k.asker := hasker
    refine ⟨s, hs, hseq, hown, hgone, fun k' hk' => hrank ▸ hlow k' hk', fun k' hk' hrank' => ?_⟩
    rw [hrank] at hrank' ⊢
    have hle := Prod.Lex.toLex_le_toLex.1 (hmost k' hk' hrank')
    rwa [share_fst, share_fst, ← hnewest, h.1, ← hasker] at hle
  · exact absurd hseq.symm h.2

def toShare (byCount : Bool) (rank : RelayRank) (asker : String) (k : RelayKept) : Nat :=
  if k.rank = rank ∧ k.asker = asker then k.weight byCount else 0

theorem held_filter (asker : String) :
    held byCount (l.filter (·.rank = rank)) asker = (l.map (toShare byCount rank asker)).sum := by
  rw [held, List.filter_filter]
  induction l with
  | nil => rfl
  | cons k l ih =>
    rw [List.map_cons, List.sum_cons, ← ih]
    by_cases hk : k.rank = rank ∧ k.asker = asker
    · rw [List.filter_cons_of_pos (by simp [hk.1, hk.2]), List.map_cons, List.sum_cons, toShare,
        if_pos hk]
    · rw [List.filter_cons_of_neg (by simpa [and_comm] using hk), toShare, if_neg hk, Nat.zero_add]

theorem sum_moment (f : RelayKept → Nat) : ((moment streams a gone).map f).sum =
    (((capped streams).filter (·.seq ∉ gone)).map (fun s => f s.kept)).sum + f a.kept := by
  rw [moment, List.map_append, List.sum_append, List.map_map]
  simp [Function.comp_def]

theorem sum_filter_le {α : Type} (l : List α) (p : α → Bool) (f : α → Nat) :
    ((l.filter p).map f).sum ≤ (l.map f).sum :=
  (List.filter_sublist.map f).sum_le_sum fun _ _ => Nat.zero_le _

theorem sum_filter_split {α : Type} (l : List α) (p : α → Bool) (f : α → Nat) :
    (l.map f).sum = ((l.filter p).map f).sum + ((l.filter (!p ·)).map f).sum := by
  rw [← List.sum_append, ← List.map_append]
  exact ((List.filter_append_perm p l).map f).sum_eq.symm

/-- The bytes of the streams and of the newcomer fit a word together. -/
def InWords (streams : List RelayEntry) (a : RelayAsk) : Prop :=
  stagedBytes (capped streams) + a.bytes < 2 ^ 64

theorem sum_bytes_moment (h : InWords streams a) :
    ((moment streams a gone).map (·.bytes)).sum < 2 ^ 64 := by
  rw [sum_moment]
  exact (Nat.add_le_add_right (sum_filter_le _ _ _) _).trans_lt h

theorem staged_moment (h : InWords streams a) :
    staged (moment streams a gone) = ((moment streams a gone).map (·.bytes)).sum :=
  Nat.mod_eq_of_lt (sum_bytes_moment h)

theorem sum_toShare_le (rank : RelayRank) (asker : String) :
    (l.map (toShare byCount rank asker)).sum ≤ (l.map (·.weight byCount)).sum := by
  refine List.sum_le_sum fun k _ => ?_
  unfold toShare
  split_ifs
  · exact Nat.le_refl _
  · exact Nat.zero_le _

theorem length_moment_le (hwithin : Within streams) :
    (moment streams a gone).length ≤ maxRelayStreams + 1 := by
  have hle := (capped streams).length_filter_le (·.seq ∉ gone)
  rw [moment, List.length_append, List.length_map, List.length_singleton]
  exact Nat.add_le_add_right (hle.trans hwithin.count) 1

theorem held_lt (hlen : l.length ≤ maxRelayStreams + 1) (hsum : (l.map (·.bytes)).sum < 2 ^ 64)
    (byCount : Bool) (rank : RelayRank) (asker : String) :
    held byCount (l.filter (·.rank = rank)) asker < 2 ^ 64 := by
  rw [held_filter]
  refine (sum_toShare_le _ _).trans_lt ?_
  cases byCount with
  | true =>
    simp only [RelayKept.weight, if_true, List.map_const', List.sum_replicate, smul_eq_mul, mul_one]
    exact hlen.trans_lt (by decide)
  | false => exact hsum

theorem heldAt_lt (hwithin : Within streams) (h : InWords streams a) (gone : List Nat)
    (rank : RelayRank) (asker : String) : heldAt streams a gone rank asker < 2 ^ 64 :=
  held_lt (length_moment_le hwithin) (sum_bytes_moment h) _ _ _

/-- Within the newcomer's rank, what gives way is from an asker that holds more than its own. -/
theorem Picked.lt (hnum : Numbered streams) (hwithin : Within streams) (h : InWords streams a)
    (hpick : Picked streams a gone q) {s : RelayEntry} (hs : s ∈ streams) (hseq : s.seq = q)
    (hrank : s.rank = a.rank) :
    heldAt streams a gone a.rank a.asker < heldAt streams a gone a.rank s.asker := by
  obtain ⟨s', hs', hseq', -, -, -, hmost⟩ := hpick.spec
  obtain rfl := hnum.eq_of_seq hs hs' (hseq.trans hseq'.symm)
  have hlex := hmost a.kept (mem_moment.2 (.inr rfl)) hrank.symm
  rw [hrank, show a.kept.asker = a.asker from rfl, share_newcomer hnum a gone,
    Nat.mod_eq_of_lt (heldAt_lt hwithin h _ _ _),
    Nat.mod_eq_of_lt (heldAt_lt hwithin h _ _ _)] at hlex
  have hle := hnum.word s hs
  have hne := hpick.2
  omega

def placed (streams : List RelayEntry) (displaced : List Nat) (new : RelayEntry) :
    List RelayEntry :=
  streams.filter (·.seq ∉ displaced) ++ [new]

/-- An asker does not get a displaced stream back from the newcomer: the stream ranks below it, or
it is the only one of its id and the last of its asker's to give way, to the staged bytes or as the
last one of all. -/
def Settles (streams : List RelayEntry) (a : RelayAsk) (before later : List Nat) (s : RelayEntry) :
    Prop :=
  s.rank < a.rank ∨
    (∀ t ∈ streams, t.id = s.id → t = s) ∧ (∀ t ∈ streams, t.seq ∈ later → t.asker ≠ s.asker) ∧
      ((moment streams a before).length ≤ maxRelayStreams ∨ later = [])

structure Fair (streams : List RelayEntry) (a : RelayAsk) (new : RelayEntry)
    (displaced : List Nat) : Prop where
  within : Within (placed streams displaced new)
  gaveWay : ∀ before q later, displaced = before ++ q :: later → ∀ s ∈ streams, s.seq = q →
    Older a s ∨ s.rank ≠ .own ∧ s.rank ≤ a.rank ∧ (s.rank = a.rank →
      heldAt streams a before a.rank a.asker < heldAt streams a before a.rank s.asker)
  settled : ∀ before later, ∀ s ∈ streams, displaced = before ++ s.seq :: later →
    Settles streams a before later s → ∀ again,
      relayPlan (placed streams displaced new) s.ask = .ok again → new.seq ∉ again

theorem capped_placed {new : RelayEntry} (hrank : new.rank ≠ .own) :
    capped (placed streams displaced new) =
      (capped streams).filter (·.seq ∉ displaced) ++ [new] := by
  rw [placed, capped, List.filter_append, capped, List.filter_filter, List.filter_filter]
  congr 1
  · exact List.filter_congr fun _ _ => Bool.and_comm _ _
  · simp [hrank]

theorem within_placed {new : RelayEntry} (hrank : new.rank ≠ .own) (hbytes : new.bytes = a.bytes)
    (hwords : InWords streams a) (h : Fits (moment streams a displaced)) :
    Within (placed streams displaced new) := by
  have hlen : (capped (placed streams displaced new)).length =
      (moment streams a displaced).length := by
    rw [capped_placed hrank, moment]
    simp
  have hsum : stagedBytes (capped (placed streams displaced new)) =
      ((moment streams a displaced).map (·.bytes)).sum := by
    rw [capped_placed hrank, sum_moment, stagedBytes, List.map_append, List.sum_append]
    simp [RelayEntry.kept, RelayAsk.kept, hbytes]
  refine ⟨hlen ▸ h.1, ?_⟩
  rw [hlen, hsum, ← staged_moment hwords]
  rcases h.2 with hfew | hfit
  · exact .inr (by omega)
  · exact .inl hfit

theorem relayPlan_gaveWay (hnum : Numbered streams) (hrank : a.rank ≠ .own)
    (hplan : relayPlan streams a = .ok displaced) {before later : List Nat}
    (hsplit : displaced = before ++ q :: later) {s : RelayEntry} (hs : s ∈ streams)
    (hseq : s.seq = q) :
    Older a s ∨
      s.rank ≠ .own ∧ s.seq ∉ before ∧ s.rank ≤ a.rank ∧ Picked streams a before q := by
  obtain ⟨gone, picks, holder, rfl, hpicks⟩ := relayPlan_eq_ok hrank hplan
  have hloop : ∀ before', before = gone ++ before' → picks = before' ++ q :: later → Older a s ∨
      s.rank ≠ .own ∧ s.seq ∉ before ∧ s.rank ≤ a.rank ∧ Picked streams a before q := by
    rintro before' rfl rfl
    obtain ⟨s', hs', hseq', hown, hgone, hlow, -⟩ := hpicks.split.spec
    obtain rfl := hnum.eq_of_seq hs hs' (hseq.trans hseq'.symm)
    exact .inr ⟨hown, hgone, hlow _ (mem_moment.2 (.inr rfl)), hpicks.split⟩
  rcases relayOlder_eq_ok holder with ⟨rfl, -⟩ | ⟨t, ht, rfl, hid, hstale⟩
  · exact hloop before rfl hsplit
  · cases before with
    | nil =>
      obtain ⟨hq, -⟩ := List.cons.inj hsplit
      obtain rfl := hnum.eq_of_seq hs ht (hseq.trans hq.symm)
      exact .inl ⟨hid, hstale⟩
    | cons p before =>
      obtain ⟨rfl, hpicks'⟩ := List.cons.inj hsplit
      exact hloop before rfl hpicks'

variable {before later : List Nat} {s new : RelayEntry}

/-- What the streams displaced behind `s` add to a sum. -/
def laterSum (streams : List RelayEntry) (before later : List Nat) (s : RelayEntry)
    (f : RelayEntry → Nat) : Nat :=
  (((capped streams).filter fun t =>
    t.seq ∉ before ∧ t.seq ≠ s.seq ∧ t.seq ∈ later).map f).sum

theorem laterSum_nil (f : RelayEntry → Nat) : laterSum streams before [] s f = 0 := by
  simp [laterSum]

theorem laterSum_eq_zero {f : RelayEntry → Nat} (h : ∀ t ∈ streams, t.seq ∈ later → f t = 0) :
    laterSum streams before later s f = 0 := by
  rw [laterSum, List.sum_eq_zero_iff]
  intro n hn
  obtain ⟨t, ht, rfl⟩ := List.mem_map.1 hn
  obtain ⟨hcapped, hlater⟩ := List.mem_filter.1 ht
  exact h t (List.mem_filter.1 hcapped).1 (of_decide_eq_true hlater).2.2

theorem Numbered.placed (h : Numbered streams) (displaced : List Nat)
    (hfresh : ∀ s ∈ streams, s.seq ≠ new.seq) (hword : new.seq ≤ newcomer) :
    Numbered (placed streams displaced new) := by
  refine ⟨?_, fun t ht => ?_⟩
  · rw [Files.placed, List.map_append, List.map_singleton]
    refine List.Nodup.append (h.distinct.sublist (List.filter_sublist.map _))
      (List.nodup_singleton _) fun q hq hnew => ?_
    obtain ⟨t, ht, rfl⟩ := List.mem_map.1 hq
    exact hfresh t (List.mem_filter.1 ht).1 (List.mem_singleton.1 hnew)
  · rcases List.mem_append.1 ht with ht | ht
    · exact h.word t (List.mem_filter.1 ht).1
    · exact List.mem_singleton.1 ht ▸ hword

section Again

variable (hnum : Numbered streams) (hs : s ∈ streams) (hown : s.rank ≠ .own)
  (hbefore : s.seq ∉ before)

include hnum hs hown hbefore

theorem sum_before (later : List Nat) (f : RelayEntry → Nat) :
    (((capped streams).filter (·.seq ∉ before)).map f).sum =
      (((capped streams).filter (·.seq ∉ before ++ s.seq :: later)).map f).sum + f s +
        laterSum streams before later s f := by
  set l := (capped streams).filter (·.seq ∉ before) with hl
  have hmem : s ∈ l := by simp [hl, capped, hs, hown, hbefore]
  have hnodup : l.Nodup :=
    ((hnum.distinct.of_map _).filter _).filter _
  have hperm : (l.map f).sum = f s + ((l.erase s).map f).sum := by
    rw [((List.perm_cons_erase hmem).map f).sum_eq, List.map_cons, List.sum_cons]
  rw [hperm, hnodup.erase_eq_filter, sum_filter_split (l.filter _) (·.seq ∉ later), laterSum, hl,
    List.filter_filter, List.filter_filter, List.filter_filter, List.filter_filter]
  have hne : ∀ t ∈ capped streams, t ≠ s ↔ t.seq ≠ s.seq := by
    intro t ht
    have ht := (List.mem_filter.1 ht).1
    exact not_congr ⟨congrArg _, hnum.eq_of_seq ht hs⟩
  have hrest : (capped streams).filter (fun t =>
        decide (t.seq ∉ later) && t != s && decide (t.seq ∉ before)) =
      (capped streams).filter (·.seq ∉ before ++ s.seq :: later) := by
    refine List.filter_congr fun t ht => ?_
    rw [Bool.eq_iff_iff]
    simp [hne t ht]
    tauto
  have hlater : (capped streams).filter (fun t =>
        !decide (t.seq ∉ later) && t != s && decide (t.seq ∉ before)) =
      (capped streams).filter (fun t => t.seq ∉ before ∧ t.seq ≠ s.seq ∧ t.seq ∈ later) := by
    refine List.filter_congr fun t ht => ?_
    rw [Bool.eq_iff_iff]
    simp [hne t ht]
    tauto
  rw [hrest, hlater]
  omega

variable {after : List RelayEntry} (hnew : new.rank ≠ .own)
  (hafter : after = placed streams (before ++ s.seq :: later) new)

include hnew hafter

theorem sum_again (f : RelayKept → Nat) (hself : f s.ask.kept = f s.kept)
    (hother : f new.kept = f a.kept) :
    ((moment after s.ask []).map f).sum +
        laterSum streams before later s (fun t => f t.kept) =
      ((moment streams a before).map f).sum := by
  have hall : ∀ l : List RelayEntry, l.filter (·.seq ∉ []) = l := by simp
  rw [sum_moment, sum_moment, hafter, capped_placed hnew, hall, List.map_append, List.sum_append,
    sum_before hnum hs hown hbefore later, hself]
  simp only [List.map_cons, List.map_nil, List.sum_cons, List.sum_nil, hother]
  omega

variable (hlast : (moment streams a before).length ≤ maxRelayStreams ∨ later = [])

include hlast

theorem overCount_again :
    overCount (moment after s.ask []) = overCount (moment streams a before) := by
  have hlen := sum_again (a := a) hnum hs hown hbefore hnew hafter (fun _ => 1) rfl rfl
  simp only [List.map_const', List.sum_replicate, smul_eq_mul, mul_one] at hlen
  rw [overCount, overCount, decide_eq_decide]
  rcases hlast with hle | rfl
  · omega
  · rw [laterSum_nil] at hlen
    omega

theorem heldAt_again (hask : new.ask = a) (rank : RelayRank) (asker : String) :
    heldAt after s.ask [] rank asker +
        laterSum streams before later s
          (fun t => toShare (overCount (moment streams a before)) rank asker t.kept) =
      heldAt streams a before rank asker := by
  rw [heldAt, heldAt, held_filter, held_filter,
    overCount_again hnum hs hown hbefore hnew hafter hlast]
  subst hask
  exact sum_again hnum hs hown hbefore hnew hafter _ rfl rfl

/-- A stream that settles is not given back: on its next ask the loop turns the ask away. -/
theorem not_picked_again (hwithin : Within streams) (hwords : InWords streams a)
    (hnum' : Numbered after) (hask : new.ask = a) (hpick : Picked streams a before s.seq)
    (hlater : ∀ t ∈ streams, t.seq ∈ later → t.asker ≠ s.asker) :
    ¬ Picked after s.ask [] q := by
  intro hagain
  obtain ⟨s', hs', hseq', -, -, hlow, hmost⟩ := hpick.spec
  obtain rfl := hnum.eq_of_seq hs hs' hseq'.symm
  obtain ⟨t, ht, hseq, htown, -, hlow', hmost'⟩ := hagain.spec
  -- the pick of the second ask was there at the first one, or is the newcomer of then
  obtain ⟨k, hk, hkrank, hkasker⟩ :
      ∃ k ∈ moment streams a before, k.rank = t.rank ∧ k.asker = t.asker := by
    rw [hafter] at ht
    rcases List.mem_append.1 ht with ht | ht
    · obtain ⟨ht, hgone⟩ := List.mem_filter.1 ht
      have hgone : t.seq ∉ before := fun h =>
        of_decide_eq_true hgone (List.mem_append_left _ h)
      exact ⟨t.kept, mem_moment.2 (.inl ⟨t, ht, hgone, htown, rfl⟩), rfl, rfl⟩
    · obtain rfl := List.mem_singleton.1 ht
      exact ⟨a.kept, mem_moment.2 (.inr rfl), hask ▸ rfl, hask ▸ rfl⟩
  have hself : s.ask.kept ∈ moment after s.ask [] := mem_moment.2 (.inr rfl)
  have htrank : t.rank = s.rank := le_antisymm (hlow' _ hself) (hkrank ▸ hlow k hk)
  have hqle : q ≤ newcomer := hseq ▸ hnum'.word t ht
  have hlt : heldAt after s.ask [] s.rank s.asker % 2 ^ 64 <
      heldAt after s.ask [] s.rank t.asker % 2 ^ 64 := by
    have hshare := share_newcomer hnum' s.ask [] (overCount (moment after s.ask []))
    have hcases := hmost' _ hself htrank.symm
    rw [htrank] at hcases
    rcases hcases with hlt | ⟨-, hnewest⟩
    · exact hlt
    · exact absurd (hqle.antisymm (hshare.symm.trans_le hnewest)) hagain.2
  have hle := hmost k hk (hkrank.trans htrank)
  have hsum := heldAt_again hnum hs hown hbefore hnew hafter hlast hask s.rank
  have hmine := hsum s.asker
  have htheirs := hsum t.asker
  have hnone : laterSum streams before later s
      (fun t => toShare (overCount (moment streams a before)) s.rank s.asker t.kept) = 0 :=
    laterSum_eq_zero fun t ht hmem => if_neg fun h => hlater t ht hmem h.2
  have hmine' := heldAt_lt hwithin hwords before s.rank s.asker
  have htheirs' := heldAt_lt hwithin hwords before s.rank t.asker
  rw [hkasker] at hle
  rw [Nat.mod_eq_of_lt hmine', Nat.mod_eq_of_lt htheirs'] at hle
  rw [Nat.mod_eq_of_lt (by omega), Nat.mod_eq_of_lt (by omega)] at hlt
  omega

end Again

/-- A displaced stream that asks again does not displace the one it made way for. -/
theorem not_mem_again (hnum : Numbered streams) (hwithin : Within streams)
    (hwords : InWords streams a) (hfresh : ∀ s ∈ streams, s.seq ≠ new.seq)
    (hword : new.seq ≤ newcomer) (hnew : new.ask = a) (hlive : new.stale = false)
    (hrank : a.rank ≠ .own) (hplan : relayPlan streams a = .ok (before ++ s.seq :: later))
    (hs : s ∈ streams) (hsettles : Settles streams a before later s) {again : List Nat}
    (hagain : relayPlan (placed streams (before ++ s.seq :: later) new) s.ask = .ok again) :
    new.seq ∉ again := by
  subst hnew
  intro hmem
  have hnum' := hnum.placed (before ++ s.seq :: later) hfresh hword
  have hmemNew : new ∈ placed streams (before ++ s.seq :: later) new :=
    List.mem_append_right _ (List.mem_singleton_self _)
  obtain ⟨front, back, hsplit⟩ := List.append_of_mem hmem
  rcases lt_or_ge s.rank new.rank with hlt | hge
  · have hown : s.ask.rank ≠ .own := fun h => by
      rw [show s.rank = RelayRank.own from h] at hlt
      revert hlt
      cases new.rank <;> decide
    rcases relayPlan_gaveWay hnum' hown hagain hsplit hmemNew rfl with hold | ⟨-, -, hle, -⟩
    · rw [hold.2] at hlive
      cases hlive
    · exact absurd hlt (not_lt.2 hle)
  obtain ⟨hid, hlater, hlast⟩ := hsettles.resolve_left (not_lt.2 hge)
  -- no stream of the id is left that would give way first
  have hold : relayOlder (placed streams (before ++ s.seq :: later) new) s.id = .ok [] ∧
      new.id ≠ s.id := by
    rw [relayPlan] at hagain
    split at hagain
    · cases hagain
    rename_i gone holder
    rcases relayOlder_eq_ok holder with ⟨rfl, hnone⟩ | ⟨t, ht, -, htid, hstale⟩
    · exact ⟨holder, hnone new hmemNew⟩
    · rcases List.mem_append.1 ht with ht | ht
      · obtain ⟨ht, hgone⟩ := List.mem_filter.1 ht
        obtain rfl := hid t ht htid
        exact absurd (List.mem_append_right _ List.mem_cons_self) (of_decide_eq_true hgone)
      · obtain rfl := List.mem_singleton.1 ht
        rw [hlive] at hstale
        cases hstale
  rcases relayPlan_gaveWay hnum hrank hplan rfl hs rfl with
    holder | ⟨hown, hbefore, hle, hpick⟩
  · exact hold.2 holder.1.symm
  obtain ⟨gone, picks, holder, rfl, hpicks⟩ := relayPlan_eq_ok hown hagain
  obtain rfl : gone = [] := (Except.ok.inj (hold.1.symm.trans holder)).symm
  cases hpicks with
  | fits h => cases hmem
  | pick h hq hqne rest =>
    exact not_picked_again hnum hs hown hbefore hrank rfl hlast hwithin hwords hnum' rfl hpick
      hlater ⟨hq, hqne⟩

/-- What gives way to a stream keeps the caps, and its asker does not take the place back. -/
theorem relayPlan_fair (streams : List RelayEntry) (a : RelayAsk) (target : String) (seq : Nat)
    (displaced : List Nat) (hnum : Numbered streams) (hwithin : Within streams)
    (hwords : InWords streams a) (hfresh : ∀ s ∈ streams, s.seq ≠ seq) (hword : seq ≤ newcomer)
    (hrank : a.rank ≠ .own) (hplan : relayPlan streams a = .ok displaced) :
    Fair streams a (a.entry target seq) displaced := by
  refine ⟨?_, fun before q later hsplit s hs hseq => ?_, ?_⟩
  · obtain ⟨gone, picks, -, rfl, hpicks⟩ := relayPlan_eq_ok hrank hplan
    exact within_placed hrank rfl hwords hpicks.final
  · rcases relayPlan_gaveWay hnum hrank hplan hsplit hs hseq with hold | ⟨hown, -, hle, hpick⟩
    · exact .inl hold
    · exact .inr ⟨hown, hle, fun hsame => hpick.lt hnum hwithin hwords hs hseq hsame⟩
  · rintro before later s hs rfl hsettles again hagain
    exact not_mem_again hnum hwithin hwords hfresh hword rfl rfl hrank hplan hs hsettles hagain

/-- Streams of one rank, in parts of 4456448 bytes; the bound is 64 of them. -/
def sampleStreams : List RelayEntry :=
  [⟨1, "a", "x", "x", .guest, 7 * 4456448, false⟩, ⟨2, "b", "x", "x", .guest, 12 * 4456448, false⟩,
    ⟨3, "c", "x", "x", .guest, 3 * 4456448, false⟩, ⟨4, "d", "y", "y", .guest, 14 * 4456448, false⟩,
    ⟨5, "e", "z", "z", .guest, 14 * 4456448, false⟩,
    ⟨6, "f", "w", "w", .guest, 14 * 4456448, false⟩]

def sampleAsk : RelayAsk := ⟨"g", "n", .guest, 15 * 4456448⟩

theorem numbered_sampleStreams : Numbered sampleStreams := ⟨by decide, by decide⟩

theorem within_sampleStreams : Within sampleStreams := ⟨by decide, .inl (by decide)⟩

theorem relayPlan_fair_sample : relayPlan sampleStreams sampleAsk = .ok [3, 2] ∧
    Fair sampleStreams sampleAsk (sampleAsk.entry "n" 7) [3, 2] :=
  have hplan : relayPlan sampleStreams sampleAsk = .ok [3, 2] := by decide +kernel
  ⟨hplan, relayPlan_fair sampleStreams sampleAsk "n" 7 [3, 2] numbered_sampleStreams
    within_sampleStreams (by unfold InWords; decide) (by decide) (by decide) (by decide) hplan⟩

/-- A full list: `x` and `y` run two streams each, and sixty others one. -/
def fullStreams : List RelayEntry :=
  (List.range 60).map (fun i =>
      let name := String.ofList (List.replicate (i + 1) 'o')
      ⟨i + 1, name, name, name, .guest, if i < 33 then 4456448 else 0, false⟩) ++
    [⟨61, "a", "y", "y", .guest, 13 * 4456448, false⟩,
      ⟨62, "b", "y", "y", .guest, 14 * 4456448, false⟩,
      ⟨63, "c", "x", "x", .guest, 4456448, false⟩,
      ⟨64, "d", "x", "x", .guest, 3 * 4456448, false⟩]

def fullAsk : RelayAsk := ⟨"e", "n", .guest, 16 * 4456448⟩

/-- Two streams of one id, the first of them stale. -/
def twinStreams : List RelayEntry :=
  [⟨1, "c", "x", "x", .guest, 2 * 4456448, true⟩, ⟨2, "c", "x", "x", .guest, 13 * 4456448, false⟩,
    ⟨3, "d", "y", "y", .guest, 12 * 4456448, false⟩,
    ⟨4, "e", "z", "z", .guest, 12 * 4456448, false⟩,
    ⟨5, "f", "w", "w", .guest, 12 * 4456448, false⟩,
    ⟨6, "h", "v", "v", .guest, 12 * 4456448, false⟩]

/-- A stream that its asker asks for again displaces the newcomer: when a newer one of the asker
gave way before it, when it gave way to the count and another one to the bytes, and when it was not
the only one of its id. An own stream gives way to an ask for its id. The sum of bytes wraps. -/
theorem relayPlan_churns :
    (relayPlan sampleStreams sampleAsk = .ok [3, 2] ∧
      relayPlan (placed sampleStreams [3, 2] (sampleAsk.entry "n" 7))
        ⟨"c", "x", .guest, 3 * 4456448⟩ = .ok [7]) ∧
    (Numbered fullStreams ∧ Within fullStreams ∧ relayPlan fullStreams fullAsk = .ok [64, 62] ∧
      relayPlan (placed fullStreams [64, 62] (fullAsk.entry "n" 65))
        ⟨"d", "x", .guest, 3 * 4456448⟩ = .ok [65]) ∧
    (Numbered twinStreams ∧ Within twinStreams ∧
      relayPlan twinStreams ⟨"g", "n", .guest, 14 * 4456448⟩ = .ok [2] ∧
      relayPlan (placed twinStreams [2] ⟨7, "g", "n", "n", .guest, 14 * 4456448, false⟩)
        ⟨"c", "x", .guest, 13 * 4456448⟩ = .ok [1, 7]) ∧
    relayPlan [⟨1, "a", "x", "x", .own, 1, true⟩] ⟨"a", "x", .member, 1⟩ = .ok [1] ∧
    (Within [⟨1, "a", "x", "x", .guest, 2 ^ 64 - 1, false⟩] ∧
      relayPlan [⟨1, "a", "x", "x", .guest, 2 ^ 64 - 1, false⟩] ⟨"b", "y", .guest, 2⟩ = .ok [] ∧
      ¬ Within [⟨1, "a", "x", "x", .guest, 2 ^ 64 - 1, false⟩,
        ⟨2, "b", "y", "y", .guest, 2, false⟩]) := by
  refine ⟨⟨by decide +kernel, by decide +kernel⟩, ⟨⟨by decide +kernel, by decide +kernel⟩,
    ⟨by decide +kernel, .inl (by decide +kernel)⟩, by decide +kernel, by decide +kernel⟩,
    ⟨⟨by decide, by decide⟩, ⟨by decide, .inl (by decide)⟩, by decide +kernel, by decide +kernel⟩,
    by decide +kernel, ⟨by decide, .inr (by decide)⟩, by decide +kernel, fun h => ?_⟩
  exact absurd h.staged (by decide)

end Hollow.Files
