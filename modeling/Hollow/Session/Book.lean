import Mathlib
import Hollow.Lib.Dict
import Hollow.Lib.OrderedScan

/-! Which session gives way when the session table is full, and which grace slot when an address
is (`session.h`, `session_bounds.h`): a book kept beside the sessions as they change, so that
neither choice walks the table. `Sessions` is the record without the book; over any operations the
book holds what the record holds, and both choices are those of a naive scan of the record. -/

namespace Hollow.Session

/-- A session whose turn to give way comes first: in grace before live, then the earlier into
grace. -/
abbrev BookRank := Bool ×ₗ Nat

namespace BookRank

def mk (live : Bool) (order : Nat) : BookRank := toLex (live, order)

def live (r : BookRank) : Bool := (ofLex r).1

def order (r : BookRank) : Nat := (ofLex r).2

end BookRank

structure Place where
  share : Nat
  rank : BookRank
  ip : String

abbrev Member := BookRank ×ₗ String

/-- A share's place among shares: by how many sessions it holds, then by how soon its first session
would give way. -/
abbrev CountKey := Nat ×ₗ Bool ×ₗ Nat ×ₗ Nat

def uint64Max : Nat := 2 ^ 64 - 1

def keyOf (size : Nat) (first : BookRank) (share : Nat) : CountKey :=
  let order := if first.live then 0 else uint64Max - first.order
  toLex (size, toLex (!first.live, toLex (order, share)))

def shareOf (key : CountKey) : Nat := (ofLex (ofLex (ofLex key).2).2).2

def firstMember (m : Finset Member) : Option Member := (m.sort (· ≤ ·)).head?

def countKey (share : Nat) (m : Finset Member) : CountKey :=
  keyOf m.card (((firstMember m).map fun x => (ofLex x).1).getD (.mk true 0)) share

structure Book where
  places : Dict String Place := ∅
  shares : Nat → Finset Member := fun _ => ∅
  byCount : Finset CountKey := ∅
  byIp : String → Finset (Nat ×ₗ String) := fun _ => ∅
  nextOrder : Nat := 0

namespace Book

def size (b : Book) : Nat := b.places.keys.length

def holdsSlot (p : Place) : Bool := !p.rank.live && !p.ip.isEmpty

def link (b : Book) (peer : String) (p : Place) : Book :=
  let m := b.shares p.share
  let byCount := if m = ∅ then b.byCount else b.byCount.erase (countKey p.share m)
  let m := insert (toLex (p.rank, peer)) m
  let slots := insert (toLex (p.rank.order, peer)) (b.byIp p.ip)
  { b with
    shares := Function.update b.shares p.share m
    byCount := insert (countKey p.share m) byCount
    byIp := if holdsSlot p then Function.update b.byIp p.ip slots else b.byIp }

def unlink (b : Book) (peer : String) (p : Place) : Book :=
  let m := b.shares p.share
  let byCount := b.byCount.erase (countKey p.share m)
  let m := m.erase (toLex (p.rank, peer))
  let slots := (b.byIp p.ip).erase (toLex (p.rank.order, peer))
  { b with
    shares := Function.update b.shares p.share m
    byCount := if m = ∅ then byCount else insert (countKey p.share m) byCount
    byIp := if holdsSlot p then Function.update b.byIp p.ip slots else b.byIp }

def drop (b : Book) (peer : String) : Book :=
  match b.places.lookup peer with
  | none => b
  | some p => { b.unlink peer p with places := b.places.erase peer }

def add (b : Book) (peer : String) (share : Nat) : Book :=
  let b := b.drop peer
  let p := { share, rank := .mk true 0, ip := "" }
  { b with places := b.places.insert peer p }.link peer p

/-- The session went into grace, holding a slot of the address `ip` ("" for none). -/
def toGrace (b : Book) (peer ip : String) : Book :=
  match b.places.lookup peer with
  | none => b
  | some p =>
    let b := b.unlink peer p
    let p := { p with rank := .mk false (b.nextOrder + 1), ip }
    { b with places := b.places.insert peer p, nextOrder := b.nextOrder + 1 }.link peer p

def toLive (b : Book) (peer : String) : Book :=
  match b.places.lookup peer with
  | none => b
  | some p =>
    if p.rank.live then b
    else
      let b := b.unlink peer p
      let p := { p with rank := .mk true 0, ip := "" }
      { b with places := b.places.insert peer p }.link peer p

/-- The session the table cap ends for a newcomer of `share`: the share that holds the most gives
one up, the newcomer counted and a tie going against the newcomer's own. -/
def tableVictim (b : Book) (share : Nat) : Option String := do
  let top ← (b.byCount.sort (· ≥ ·)).head?
  let most := (ofLex top).1
  let heaviest := shareOf top
  let own := b.shares share
  let pick := if own ≠ ∅ ∧ heaviest ≠ share ∧ most ≤ own.card + 1 then share else heaviest
  let first ← firstMember (b.shares pick)
  return (ofLex first).2

/-- The grace slot of an address that is closest to its end, but for the device that logs in. -/
def graceSlotVictim (b : Book) (ip except : String) : Option String :=
  (((b.byIp ip).sort (· ≤ ·)).find? fun x => (ofLex x).2 ≠ except).map fun x => (ofLex x).2

end Book

section Naive

variable (places : Dict String Place)

def ofShare (share : Nat) : List (String × Place) := places.pairs.filter (·.2.share = share)

def firstOfShare (share : Nat) : Option (String × Place) :=
  (ofShare places share).argmin fun p => (toLex (p.2.rank, p.1) : Member)

def shareKey (share : Nat) : CountKey :=
  keyOf (ofShare places share).length
    (((firstOfShare places share).map (·.2.rank)).getD (.mk true 0)) share

def naiveTableVictim (share : Nat) : Option String := do
  let heaviest ← (places.pairs.map (·.2.share)).argmax (shareKey places)
  let own := ofShare places share
  let most := (ofShare places heaviest).length
  let pick := if own ≠ [] ∧ heaviest ≠ share ∧ most ≤ own.length + 1 then share else heaviest
  let first ← firstOfShare places pick
  return first.1

def naiveGraceVictim (ip except : String) : Option String :=
  ((places.pairs.filter fun p => !p.2.rank.live && p.2.ip = ip && ip ≠ "" && p.1 ≠ except).argmin
    fun p => (toLex (p.2.rank.order, p.1) : Nat ×ₗ String)).map (·.1)

end Naive

namespace Book

def Counts (shares : Nat → Finset Member) (byCount : Finset CountKey) : Prop :=
  ∀ c, c ∈ byCount ↔ ∃ s, shares s ≠ ∅ ∧ c = countKey s (shares s)

/-- The indexes hold just the sessions of `w`. -/
structure Mirrors (w : Dict String Place) (b : Book) : Prop where
  shares : ∀ s (m : Member), m ∈ b.shares s ↔
    ∃ p, w.lookup (ofLex m).2 = some p ∧ p.share = s ∧ p.rank = (ofLex m).1
  counts : Counts b.shares b.byCount
  ips : ∀ ip x, x ∈ b.byIp ip ↔ ip ≠ "" ∧ ∃ p, w.lookup (ofLex x).2 = some p ∧
    p.rank.live = false ∧ p.rank.order = (ofLex x).1 ∧ p.ip = ip

section Link

variable {w : Dict String Place} {b : Book} {peer : String} {p : Place}

theorem Counts.update {shares : Nat → Finset Member} {byCount : Finset CountKey}
    (h : Counts shares byCount) (s : Nat) (m : Finset Member) :
    Counts (Function.update shares s m)
      (if m = ∅ then byCount.erase (countKey s (shares s))
        else insert (countKey s m) (byCount.erase (countKey s (shares s)))) := by
  have hoff : ∀ c, c ∈ byCount.erase (countKey s (shares s)) ↔
      ∃ s', s' ≠ s ∧ shares s' ≠ ∅ ∧ c = countKey s' (shares s') := by
    intro c
    rw [Finset.mem_erase, h c]
    constructor
    · rintro ⟨hne, s', hfull, rfl⟩
      exact ⟨s', by rintro rfl; exact hne rfl, hfull, rfl⟩
    · rintro ⟨s', hs', hfull, rfl⟩
      exact ⟨fun heq => hs' (congrArg shareOf heq), s', hfull, rfl⟩
  intro c
  have hsplit : (∃ s', Function.update shares s m s' ≠ ∅ ∧
      c = countKey s' (Function.update shares s m s')) ↔
      (m ≠ ∅ ∧ c = countKey s m) ∨
        ∃ s', s' ≠ s ∧ shares s' ≠ ∅ ∧ c = countKey s' (shares s') := by
    constructor
    · rintro ⟨s', hfull, hc⟩
      by_cases hs : s' = s
      · subst hs
        rw [Function.update_self] at hfull hc
        exact .inl ⟨hfull, hc⟩
      · rw [Function.update_of_ne hs] at hfull hc
        exact .inr ⟨s', hs, hfull, hc⟩
    · rintro (⟨hfull, hc⟩ | ⟨s', hs, hfull, hc⟩)
      · exact ⟨s, by rwa [Function.update_self], by rwa [Function.update_self]⟩
      · exact ⟨s', by rwa [Function.update_of_ne hs], by rwa [Function.update_of_ne hs]⟩
  rw [hsplit, ← hoff]
  split_ifs with hm
  · simp [hm]
  · simp [hm]

theorem Counts.erase_of_empty {shares : Nat → Finset Member} {byCount : Finset CountKey}
    (h : Counts shares byCount) {s : Nat} (hs : shares s = ∅) :
    byCount.erase (countKey s (shares s)) = byCount := by
  refine Finset.erase_eq_of_notMem fun hmem => ?_
  obtain ⟨s', hfull, heq⟩ := (h _).mp hmem
  obtain rfl : s = s' := congrArg shareOf heq
  exact hfull hs

theorem holdsSlot_iff : holdsSlot p ↔ p.rank.live = false ∧ p.ip ≠ "" := by
  simp [holdsSlot]

theorem mem_unlink_byIp {ip : String} {x : Nat ×ₗ String} : x ∈ (b.unlink peer p).byIp ip ↔
    x ∈ b.byIp ip ∧ ¬ (holdsSlot p ∧ ip = p.ip ∧ x = toLex (p.rank.order, peer)) := by
  simp only [Book.unlink]
  by_cases h : holdsSlot p
  · rw [if_pos h]
    by_cases hip : ip = p.ip
    · subst hip
      simp [h, and_comm]
    · simp [hip]
  · simp [h]

theorem Mirrors.unlink (hb : Mirrors w b) (hp : w.lookup peer = some p) :
    Mirrors (w.erase peer) (b.unlink peer p) := by
  refine ⟨fun s m => ?_, ?_, fun ip x => ?_⟩
  · have hgone : m ∈ (b.unlink peer p).shares s ↔ m ∈ b.shares s ∧ (ofLex m).2 ≠ peer := by
      have hone : m ∈ b.shares s → (ofLex m).2 = peer → s = p.share ∧ m = toLex (p.rank, peer) := by
        intro hm hpeer
        obtain ⟨p', hp', hshare, hrank⟩ := (hb.shares s m).mp hm
        rw [hpeer, hp, Option.some_inj] at hp'
        subst hp'
        exact ⟨hshare.symm, congrArg toLex (Prod.ext hrank.symm hpeer)⟩
      simp only [Book.unlink]
      by_cases hs : s = p.share
      · subst hs
        rw [Function.update_self, Finset.mem_erase]
        constructor
        · exact fun h => ⟨h.2, fun hpeer => h.1 (hone h.2 hpeer).2⟩
        · exact fun h => ⟨by rintro rfl; exact h.2 rfl, h.1⟩
      · rw [Function.update_of_ne hs]
        exact ⟨fun h => ⟨h, fun hpeer => hs (hone h hpeer).1⟩, fun h => h.1⟩
    rw [hgone, hb.shares]
    by_cases hpeer : (ofLex m).2 = peer
    · rw [hpeer, AList.lookup_erase]
      simp
    · simp [hpeer, AList.lookup_erase_ne hpeer]
  · exact hb.counts.update _ _
  · rw [mem_unlink_byIp, hb.ips]
    by_cases hpeer : (ofLex x).2 = peer
    · rw [hpeer, hp, AList.lookup_erase]
      simp only [Option.some_inj, exists_eq_left', reduceCtorEq, false_and, exists_false, and_false,
        iff_false, not_and]
      rintro ⟨hne, hlive, horder, rfl⟩ hother
      exact hother (holdsSlot_iff.mpr ⟨hlive, hne⟩) rfl
        (congrArg toLex (Prod.ext horder.symm hpeer))
    · have hx : x ≠ toLex (p.rank.order, peer) := by
        rintro rfl
        exact hpeer rfl
      simp [hx, AList.lookup_erase_ne hpeer]

theorem mem_link_byIp {ip : String} {x : Nat ×ₗ String} : x ∈ (b.link peer p).byIp ip ↔
    x ∈ b.byIp ip ∨ holdsSlot p ∧ ip = p.ip ∧ x = toLex (p.rank.order, peer) := by
  simp only [Book.link]
  by_cases h : holdsSlot p
  · rw [if_pos h]
    by_cases hip : ip = p.ip
    · subst hip
      simp [h, or_comm]
    · simp [hip]
  · simp [h]

theorem Mirrors.link (hb : Mirrors w b) (hpeer : w.lookup peer = none) :
    Mirrors (w.insert peer p) (b.link peer p) := by
  refine ⟨fun s m => ?_, ?_, fun ip x => ?_⟩
  · have hmem : m ∈ (b.link peer p).shares s ↔
        m ∈ b.shares s ∨ s = p.share ∧ m = toLex (p.rank, peer) := by
      simp only [Book.link]
      by_cases hs : s = p.share
      · subst hs
        simp [or_comm]
      · simp [hs]
    rw [hmem, hb.shares]
    by_cases hm : (ofLex m).2 = peer
    · have hsame : m = toLex (p.rank, peer) ↔ p.rank = (ofLex m).1 :=
        ⟨fun h => by rw [h]; rfl, fun h => congrArg toLex (Prod.ext h.symm hm)⟩
      rw [hm, hpeer, AList.lookup_insert]
      simp only [reduceCtorEq, false_and, exists_false, false_or, Option.some_inj, exists_eq_left',
        hsame]
      exact and_congr_left fun _ => eq_comm
    · have hne : m ≠ toLex (p.rank, peer) := by
        rintro rfl
        exact hm rfl
      simp [hne, AList.lookup_insert_ne hm]
  · have hcounts := hb.counts.update p.share (insert (toLex (p.rank, peer)) (b.shares p.share))
    rw [if_neg (Finset.insert_ne_empty _ _)] at hcounts
    simp only [Book.link]
    by_cases hempty : b.shares p.share = ∅
    · rw [hb.counts.erase_of_empty hempty] at hcounts
      rwa [if_pos hempty]
    · rwa [if_neg hempty]
  · rw [mem_link_byIp, hb.ips]
    by_cases hx : (ofLex x).2 = peer
    · have hsame : x = toLex (p.rank.order, peer) ↔ p.rank.order = (ofLex x).1 :=
        ⟨fun h => by rw [h]; rfl, fun h => congrArg toLex (Prod.ext h.symm hx)⟩
      rw [hx, hpeer, AList.lookup_insert]
      simp only [reduceCtorEq, false_and, exists_false, and_false, false_or, Option.some_inj,
        exists_eq_left', hsame, holdsSlot_iff]
      constructor
      · rintro ⟨⟨hlive, hip⟩, rfl, horder⟩
        exact ⟨hip, hlive, horder, rfl⟩
      · rintro ⟨hip, hlive, horder, rfl⟩
        exact ⟨⟨hlive, hip⟩, rfl, horder⟩
    · have hne : x ≠ toLex (p.rank.order, peer) := by
        rintro rfl
        exact hx rfl
      simp [hne, AList.lookup_insert_ne hx]

theorem Mirrors.congr {w' : Dict String Place} {b' : Book} (hb : Mirrors w b)
    (hw : ∀ k, w.lookup k = w'.lookup k) (hshares : b'.shares = b.shares)
    (hcount : b'.byCount = b.byCount) (hip : b'.byIp = b.byIp) : Mirrors w' b' where
  shares := fun s m => by rw [hshares, hb.shares, hw]
  counts := by rw [hshares, hcount]; exact hb.counts
  ips := fun ip x => by rw [hip, hb.ips, hw]

end Link

abbrev Exact (b : Book) : Prop := Mirrors b.places b

variable {b : Book} {peer ip : String} {share : Nat}

theorem exact_empty : Exact {} where
  shares := by simp
  counts := by simp [Counts]
  ips := by simp

theorem places_drop (peer : String) (k : String) :
    (b.drop peer).places.lookup k = if k = peer then none else b.places.lookup k := by
  rw [drop]
  cases hp : b.places.lookup peer with
  | none =>
    split_ifs with h
    · rw [h, hp]
    · rfl
  | some p => exact Dict.lookup_erase_ite _ _ _

theorem Exact.drop (hb : Exact b) (peer : String) : Exact (b.drop peer) := by
  rw [Book.drop]
  cases hp : b.places.lookup peer with
  | none => exact hb
  | some p => exact (hb.unlink hp).congr (fun _ => rfl) rfl rfl rfl

theorem Mirrors.enter {w : Dict String Place} (hb : Mirrors w b) (hpeer : w.lookup peer = none)
    (hw : ∀ k, k ≠ peer → w.lookup k = b.places.lookup k) (p : Place) (n : Nat) :
    Exact ({ b with places := b.places.insert peer p, nextOrder := n }.link peer p) := by
  have hb' : Mirrors w { b with places := b.places.insert peer p, nextOrder := n } :=
    hb.congr (fun _ => rfl) rfl rfl rfl
  refine (hb'.link hpeer).congr (fun k => ?_) rfl rfl rfl
  have hplaces : ({ b with places := b.places.insert peer p, nextOrder := n }.link peer p).places =
      b.places.insert peer p := rfl
  rw [hplaces]
  by_cases hk : k = peer
  · rw [hk, AList.lookup_insert, AList.lookup_insert]
  · rw [AList.lookup_insert_ne hk, AList.lookup_insert_ne hk, hw k hk]

theorem Exact.add (hb : Exact b) (peer : String) (share : Nat) : Exact (b.add peer share) :=
  (hb.drop peer).enter (by rw [places_drop, if_pos rfl]) (fun _ _ => rfl) _ _

theorem Exact.replace (hb : Exact b) {p : Place} (hp : b.places.lookup peer = some p) (p' : Place)
    (n : Nat) : Exact ({ b.unlink peer p with
      places := b.places.insert peer p', nextOrder := n }.link peer p') :=
  (hb.unlink hp).enter (AList.lookup_erase _ _) (fun _ hk => AList.lookup_erase_ne hk) p' n

theorem Exact.toGrace (hb : Exact b) (peer ip : String) : Exact (b.toGrace peer ip) := by
  rw [Book.toGrace]
  cases hp : b.places.lookup peer with
  | none => exact hb
  | some p => exact hb.replace hp _ _

theorem Exact.toLive (hb : Exact b) (peer : String) : Exact (b.toLive peer) := by
  rw [Book.toLive]
  cases hp : b.places.lookup peer with
  | none => exact hb
  | some p =>
    simp only
    split_ifs
    · exact hb
    · exact hb.replace hp _ _

variable {w : Dict String Place}

theorem mem_ofShare {k : String} {p : Place} :
    (k, p) ∈ ofShare w share ↔ w.lookup k = some p ∧ p.share = share := by
  rw [ofShare, List.mem_filter, Dict.mem_pairs, decide_eq_true_eq]

section Choices

variable (hb : Mirrors w b)
include hb

theorem Mirrors.shares_eq (share : Nat) : b.shares share =
    ((ofShare w share).map fun p => (toLex (p.2.rank, p.1) : Member)).toFinset := by
  ext m
  rw [hb.shares, List.mem_toFinset, List.mem_map]
  constructor
  · rintro ⟨p, hp, hshare, hrank⟩
    exact ⟨((ofLex m).2, p), mem_ofShare.mpr ⟨hp, hshare⟩, congrArg toLex (Prod.ext hrank rfl)⟩
  · rintro ⟨⟨k, p⟩, hp, rfl⟩
    obtain ⟨hp, hshare⟩ := mem_ofShare.mp hp
    exact ⟨p, hp, hshare, rfl⟩

theorem Mirrors.card_shares (share : Nat) :
    (b.shares share).card = (ofShare w share).length := by
  have hnodup : ((ofShare w share).map fun p => (toLex (p.2.rank, p.1) : Member)).Nodup := by
    refine List.Nodup.of_map (fun m : Member => (ofLex m).2) ?_
    rw [List.map_map]
    exact (Dict.nodup_keys_pairs w).sublist (List.filter_sublist.map _)
  rw [hb.shares_eq, List.toFinset_card_of_nodup hnodup, List.length_map]

theorem Mirrors.firstMember_eq (share : Nat) : firstMember (b.shares share) =
    (firstOfShare w share).map fun p => toLex (p.2.rank, p.1) := by
  have hhead : ∀ l : List Member, l.head? = l.find? fun _ => true := by
    intro l
    cases l <;> rfl
  rw [firstMember, hb.shares_eq, hhead, OrderedScan.find?_sort_map, List.filter_true, firstOfShare]

theorem Mirrors.countKey_eq (share : Nat) :
    countKey share (b.shares share) = shareKey w share := by
  rw [countKey, shareKey, hb.card_shares, hb.firstMember_eq, Option.map_map]
  rfl

theorem Mirrors.shares_ne_empty (share : Nat) :
    b.shares share ≠ ∅ ↔ ofShare w share ≠ [] := by
  rw [ne_eq, ne_eq, ← Finset.card_eq_zero, hb.card_shares, List.length_eq_zero_iff]

theorem Mirrors.byCount_eq : b.byCount =
    ((w.pairs.map (·.2.share)).map (shareKey w)).toFinset := by
  ext c
  rw [hb.counts c, List.mem_toFinset, List.mem_map]
  constructor
  · rintro ⟨s, hfull, rfl⟩
    obtain ⟨⟨k, p⟩, hmem⟩ := List.exists_mem_of_ne_nil _ ((hb.shares_ne_empty s).mp hfull)
    obtain ⟨hp, rfl⟩ := mem_ofShare.mp hmem
    exact ⟨p.share, List.mem_map.mpr ⟨(k, p), Dict.mem_pairs.mpr hp, rfl⟩, (hb.countKey_eq _).symm⟩
  · rintro ⟨s, hs, rfl⟩
    obtain ⟨⟨k, p⟩, hp, rfl⟩ := List.mem_map.mp hs
    refine ⟨p.share, (hb.shares_ne_empty _).mpr ?_, (hb.countKey_eq _).symm⟩
    exact List.ne_nil_of_mem (mem_ofShare.mpr ⟨Dict.mem_pairs.mp hp, rfl⟩)

/-- The table cap ends what a scan of the sessions would end. -/
theorem Mirrors.tableVictim_eq (share : Nat) :
    b.tableVictim share = naiveTableVictim w share := by
  rw [tableVictim, naiveTableVictim, hb.byCount_eq, OrderedScan.head?_sort_ge_map]
  cases hmax : (w.pairs.map (·.2.share)).argmax (shareKey w) with
  | none => rfl
  | some heaviest =>
    have hmost : (ofLex (shareKey w heaviest)).1 = (ofShare w heaviest).length := rfl
    have hshare : shareOf (shareKey w heaviest) = heaviest := rfl
    simp only [Option.map_some, Option.bind_eq_bind, Option.bind_some, hmost, hshare,
      hb.card_shares, hb.shares_ne_empty, hb.firstMember_eq]
    cases firstOfShare w _ <;> rfl

theorem Mirrors.byIp_eq (ip : String) : b.byIp ip =
    ((w.pairs.filter fun p => !p.2.rank.live && p.2.ip = ip && ip ≠ "").map fun p =>
      (toLex (p.2.rank.order, p.1) : Nat ×ₗ String)).toFinset := by
  ext x
  rw [hb.ips, List.mem_toFinset, List.mem_map]
  simp only [List.mem_filter, Bool.and_eq_true, Bool.not_eq_true', decide_eq_true_eq]
  constructor
  · rintro ⟨hne, p, hp, hlive, horder, hip⟩
    exact ⟨((ofLex x).2, p), ⟨Dict.mem_pairs.mpr hp, ⟨hlive, hip⟩, hne⟩,
      congrArg toLex (Prod.ext horder rfl)⟩
  · rintro ⟨⟨k, p⟩, ⟨hp, ⟨hlive, hip⟩, hne⟩, rfl⟩
    exact ⟨hne, p, Dict.mem_pairs.mp hp, hlive, rfl, hip⟩

/-- The slot an address gives up is the one a scan of its sessions in grace would. -/
theorem Mirrors.graceSlotVictim_eq (ip except : String) :
    b.graceSlotVictim ip except = naiveGraceVictim w ip except := by
  rw [graceSlotVictim, naiveGraceVictim, hb.byIp_eq, OrderedScan.find?_sort_map, List.filter_filter,
    Option.map_map]
  have hkeep : (fun p : String × Place => decide (p.1 ≠ except) &&
      (!p.2.rank.live && p.2.ip = ip && ip ≠ "")) =
      fun p => !p.2.rank.live && p.2.ip = ip && ip ≠ "" && p.1 ≠ except := by
    funext p
    exact Bool.and_comm _ _
  exact congrArg (fun keep => ((w.pairs.filter keep).argmin fun p =>
    (toLex (p.2.rank.order, p.1) : Nat ×ₗ String)).map (·.1)) hkeep

end Choices

inductive Op
  | add (peer : String) (share : Nat)
  | toGrace (peer ip : String)
  | toLive (peer : String)
  | drop (peer : String)

def apply (b : Book) : Op → Book
  | .add peer share => b.add peer share
  | .toGrace peer ip => b.toGrace peer ip
  | .toLive peer => b.toLive peer
  | .drop peer => b.drop peer

def run (b : Book) (ops : List Op) : Book := ops.foldl apply b

end Book

/-- The sessions with no book beside them, and how often one went into grace: the plain record
that the naive scans read. -/
structure Sessions where
  all : Dict String Place := ∅
  moves : Nat := 0

namespace Sessions

def apply (s : Sessions) : Book.Op → Sessions
  | .add peer share => { s with all := s.all.insert peer { share, rank := .mk true 0, ip := "" } }
  | .toGrace peer ip =>
    match s.all.lookup peer with
    | none => s
    | some p =>
      { all := s.all.insert peer { p with rank := .mk false (s.moves + 1), ip }
        moves := s.moves + 1 }
  | .toLive peer =>
    match s.all.lookup peer with
    | none => s
    | some p => { s with all := s.all.insert peer { p with rank := .mk true 0, ip := "" } }
  | .drop peer => { s with all := s.all.erase peer }

def run (s : Sessions) (ops : List Book.Op) : Sessions := ops.foldl apply s

end Sessions

/-- The book holds the sessions of the plain record, each at its rank, and mirrors them in its
indexes. -/
structure Follows (s : Sessions) (b : Book) : Prop where
  exact_ : b.Exact
  places : ∀ k, b.places.lookup k = s.all.lookup k
  moves : b.nextOrder = s.moves
  live : ∀ k p, s.all.lookup k = some p → p.rank.live = true →
    p = { p with rank := .mk true 0, ip := "" }

namespace Follows

variable {s : Sessions} {b : Book}

theorem empty : Follows {} {} := ⟨Book.exact_empty, fun _ => rfl, rfl, by simp⟩

theorem mirrors (h : Follows s b) : b.Mirrors s.all := h.exact_.congr h.places rfl rfl rfl

/-- One session is put at a place, in the record and in the book. -/
theorem put (h : Follows s b) {b' : Book} {peer : String} {p : Place} {moves : Nat}
    (hexact : b'.Exact)
    (hplaces : ∀ k, b'.places.lookup k = if k = peer then some p else b.places.lookup k)
    (hmoves : b'.nextOrder = moves)
    (hlive : p.rank.live = true → p = { p with rank := .mk true 0, ip := "" }) :
    Follows { all := s.all.insert peer p, moves } b' := by
  refine ⟨hexact, fun k => ?_, hmoves, fun k q hq hq' => ?_⟩
  · rw [hplaces, Dict.lookup_insert_ite, h.places]
  · simp only [Dict.lookup_insert_ite] at hq
    split_ifs at hq
    · cases hq
      exact hlive hq'
    · exact h.live k q hq hq'

/-- The indexed book follows the naive table through every operation. -/
theorem apply (h : Follows s b) (op : Book.Op) : Follows (s.apply op) (b.apply op) := by
  cases op with
  | add peer share =>
    refine h.put (h.exact_.add peer share) (fun k => ?_) ?_ fun _ => rfl
    · refine (Dict.lookup_insert_ite _ _ _ _).trans ?_
      rw [Book.places_drop]
      split_ifs <;> rfl
    · refine Eq.trans ?_ h.moves
      simp only [Book.apply, Book.add, Book.link, Book.drop]
      split <;> rfl
  | toGrace peer ip =>
    have hexact := h.exact_.toGrace peer ip
    simp only [Book.apply, Sessions.apply, Book.toGrace, h.places] at hexact ⊢
    cases hp : s.all.lookup peer with
    | none => exact h
    | some p =>
      simp only [hp] at hexact ⊢
      rw [← h.moves]
      exact h.put hexact (fun k => Dict.lookup_insert_ite _ _ _ _) rfl (by rintro ⟨⟩)
  | toLive peer =>
    have hexact := h.exact_.toLive peer
    simp only [Book.apply, Sessions.apply, Book.toLive, h.places] at hexact ⊢
    cases hp : s.all.lookup peer with
    | none => exact h
    | some p =>
      simp only [hp] at hexact ⊢
      split_ifs at hexact ⊢ with hlive
      · -- a live session already stands where the record puts it
        refine h.put hexact (fun k => ?_) h.moves fun _ => rfl
        split_ifs with hk
        · rw [hk, h.places, hp, ← h.live peer p hp hlive]
        · rfl
      · exact h.put hexact (fun k => Dict.lookup_insert_ite _ _ _ _) h.moves fun _ => rfl
  | drop peer =>
    have hnext : (b.drop peer).nextOrder = b.nextOrder := by
      rw [Book.drop]
      split <;> rfl
    refine ⟨h.exact_.drop peer, fun k => ?_, hnext.trans h.moves, fun k p hp => ?_⟩
    · rw [Book.apply, Book.places_drop, h.places]
      exact (Dict.lookup_erase_ite _ _ _).symm
    · simp only [Sessions.apply, Dict.lookup_erase_ite] at hp
      split_ifs at hp
      exact h.live k p hp

theorem run (ops : List Book.Op) : Follows (Sessions.run {} ops) (Book.run {} ops) := by
  induction ops using List.reverseRecOn with
  | nil => exact empty
  | append_singleton ops op ih =>
    rw [Sessions.run, Book.run, List.foldl_concat, List.foldl_concat]
    exact ih.apply op

end Follows

end Hollow.Session
