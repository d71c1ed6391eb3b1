import Hollow.Crdt.Register
import Hollow.Relay.LockChain

/-! The lock chain a member republishes. `chain` goes up by number and never asks whether a link
extends the one before it, so a fork can make it one the relay refuses. Where every step keeps the
locks in one line (`Orderly`), each state reached publishes a chain that passes and ends at the
newest door (`publishes_of_orderly`). -/

namespace Hollow.Crdt

open JoinLockState

open Relay (chainFrom chainFrom_iff)

def maxByKey {α κ : Type} [LinearOrder κ] (key : α → κ) (l : List α) : Option α :=
  l.foldl (fun best a => if best.all fun b => key b ≤ key a then some a else best) none

/-- The owner a whole chain speaks for: an owner-signed first link, each later one a successor or a
newer owner-signed link. -/
def verifyChain (c : Crypto) (serverId : String) (links : List LockLink)
    (expectedOwner : Option String) : Option String :=
  match links with
  | [] => none
  | first :: rest => do
    guard (links.length ≤ maxChain)
    let owner ← baseOwner c serverId first
    guard (expectedOwner.all (· = owner))
    guard (chainFrom (fun prev next =>
      if next.isBase then prev.n < next.n && baseOwner c serverId next = some owner
      else extendsLink c serverId prev next) first rest)
    return owner

namespace JoinLockState

variable (s : JoinLockState)

/-- The door of the greatest number, the smaller public half on a tie. -/
def newest : Option (String × Door) :=
  maxByKey (fun e => toLex (e.2.n, OrderDual.toDual e.1)) s.doors.toList

def holdsDoor (door : String) : Bool := s.doors.contains door

/-- The next lock after number `n`: one we hold the door of where there are several. -/
def nextLink (n : Nat) : Option LockLink :=
  maxByKey (fun l => s.holdsDoor l.door) (s.links.filter fun l => !l.isBase && l.n == n + 1)

def linksAfter : Nat → Nat → List LockLink
  | 0, _ => []
  | fuel + 1, n =>
    match s.nextLink n with
    | none => []
    | some next => next :: linksAfter fuel next.n

/-- The chain we republish, from the newest owner-signed link. -/
def chain : List LockLink :=
  match maxByKey LockLink.n (s.links.filter LockLink.isBase) with
  | none => []
  | some base => base :: s.linksAfter (maxChain - 1) base.n

end JoinLockState

/-- One op of a lock, with the owner its link is judged by, or a pruning. -/
inductive LockStep where
  | link (link : LockLink) (door : Option String) (grants : Std.ExtTreeMap String String)
      (hlc : HlcTimestamp) (owner : String)
  | prune

namespace LockStep

def allowed (c : Crypto) (serverId : String) (s : JoinLockState) : LockStep → Bool
  | link l _ _ _ owner => s.linkAllowed c serverId l owner
  | prune => true

def perform (c : Crypto) (s : JoinLockState) : LockStep → JoinLockState
  | link l door grants hlc _ => s.apply c l door grants hlc
  | prune => s.prune

end LockStep

/-- States reached from the empty one by steps that are allowed and meet a condition. -/
inductive LockReached (c : Crypto) (serverId : String) (ok : JoinLockState → LockStep → Prop) :
    JoinLockState → Prop where
  | empty : LockReached c serverId ok {}
  | step {s : JoinLockState} {a : LockStep} : LockReached c serverId ok s →
      a.allowed c serverId s = true → ok s a → LockReached c serverId ok (a.perform c s)

/-- A state whose chain is empty, or passes and ends at the newest door. -/
def Publishes (c : Crypto) (serverId : String) (s : JoinLockState) : Prop :=
  s.chain = [] ∨ (verifyChain c serverId s.chain none).isSome = true ∧
    ∃ tip secret, s.chain.getLast? = some tip ∧ s.newest = some (tip.door, ⟨tip.n, secret⟩)

/-- A step that keeps the locks in one line: no other lock of its number is held, no later lock has
its door, and a lock past all held ones comes with its door's secret. -/
def Orderly (c : Crypto) (s : JoinLockState) : LockStep → Prop
  | .link l door _ _ _ =>
    (∀ a ∈ s.links, a.n = l.n → a.door = l.door ∧ a.change = l.change) ∧
      (∀ a ∈ s.links, l.n < a.n → a.door ≠ l.door) ∧
      ((∀ a ∈ s.links, a.n < l.n) → door.any (doorMatches c · l) = true)
  | .prune => True

instance (c : Crypto) (s : JoinLockState) : DecidablePred (Orderly c s)
  | .link l door _ _ _ => inferInstanceAs (Decidable
      ((∀ a ∈ s.links, a.n = l.n → a.door = l.door ∧ a.change = l.change) ∧
        (∀ a ∈ s.links, l.n < a.n → a.door ≠ l.door) ∧
        ((∀ a ∈ s.links, a.n < l.n) → door.any (doorMatches c · l) = true)))
  | .prune => inferInstanceAs (Decidable True)

section MaxByKey

variable {α κ : Type} [LinearOrder κ] {key : α → κ} {l : List α} {a : α}

theorem maxByKey_append_singleton (l : List α) (a : α) : maxByKey key (l ++ [a]) =
    if (maxByKey key l).all fun b => key b ≤ key a then some a else maxByKey key l := by
  rw [maxByKey, List.foldl_append]
  rfl

theorem maxByKey_spec (key : α → κ) (l : List α) : (maxByKey key l = none ∧ l = []) ∨
    ∃ a, maxByKey key l = some a ∧ a ∈ l ∧ ∀ b ∈ l, key b ≤ key a := by
  induction l using List.reverseRecOn with
  | nil => exact .inl ⟨rfl, rfl⟩
  | append_singleton l a ih =>
    right
    rw [maxByKey_append_singleton]
    rcases ih with ⟨hnone, rfl⟩ | ⟨b, hb, hmem, hmax⟩
    · exact ⟨a, by rw [hnone]; rfl, by simp, by simp⟩
    · rw [hb, Option.all_some]
      by_cases hle : key b ≤ key a
      · refine ⟨a, by simp [hle], by simp, fun x hx => ?_⟩
        rcases List.mem_append.1 hx with hx | hx
        · exact (hmax x hx).trans hle
        · rw [List.mem_singleton.1 hx]
      · refine ⟨b, by simp [hle], List.mem_append_left _ hmem, fun x hx => ?_⟩
        rcases List.mem_append.1 hx with hx | hx
        · exact hmax x hx
        · rw [List.mem_singleton.1 hx]
          exact (not_le.1 hle).le

theorem maxByKey_eq_none (h : maxByKey key l = none) : l = [] := by
  rcases maxByKey_spec key l with ⟨-, hnil⟩ | ⟨a, ha, -⟩
  · exact hnil
  · rw [h] at ha
    cases ha

theorem maxByKey_eq_some (h : maxByKey key l = some a) : a ∈ l ∧ ∀ b ∈ l, key b ≤ key a := by
  rcases maxByKey_spec key l with ⟨hnone, -⟩ | ⟨b, hb, hmem, hmax⟩
  · rw [h] at hnone
    cases hnone
  · obtain rfl := Option.some.inj (h.symm.trans hb)
    exact ⟨hmem, hmax⟩

end MaxByKey

def placeLink (links : List LockLink) (link : LockLink) : List LockLink :=
  links.takeWhile (fun l => l.n ≤ link.n) ++ link :: links.dropWhile (fun l => l.n ≤ link.n)

def pruneLinks (links : List LockLink) : List LockLink :=
  let kept : List LockLink := match ((links.filter LockLink.isBase).map LockLink.n).max? with
    | some baseN => links.filter fun l => baseN ≤ l.n
    | none => links
  kept.drop (kept.length - maxChain)

theorem JoinLockState.prune_links (s : JoinLockState) : s.prune.links = pruneLinks s.links := by
  unfold prune pruneLinks
  dsimp only
  cases ((s.links.filter LockLink.isBase).map LockLink.n).max? <;>
    cases (s.doors.toList.map fun d => d.2.n).max? <;> dsimp only

variable {c : Crypto} {serverId : String} {links links' : List LockLink} {l : LockLink}

variable {a : LockLink} {doors : Doors} {pub : String} {door : Option String}

theorem placeLink_perm : (placeLink links l).Perm (l :: links) := by
  refine List.perm_middle.trans ?_
  rw [List.takeWhile_append_dropWhile]

theorem mem_placeLink : a ∈ placeLink links l ↔ a = l ∨ a ∈ links :=
  placeLink_perm.mem_iff.trans List.mem_cons

abbrev Ascending (links : List LockLink) : Prop := links.Pairwise fun a b => a.n ≤ b.n

theorem placeLink_of_lt (hl : ∀ a ∈ links, l.n < a.n) : placeLink links l = l :: links := by
  cases links with
  | nil => rfl
  | cons a links =>
    have := hl a List.mem_cons_self
    simp [placeLink, Nat.not_le.2 this]

theorem Ascending.place (h : Ascending links) (l : LockLink) :
    Ascending (placeLink links l) := by
  induction links with
  | nil => simp [placeLink]
  | cons a links ih =>
    obtain ⟨ha, hlinks⟩ := List.pairwise_cons.1 h
    by_cases hle : a.n ≤ l.n
    · have hcons : placeLink (a :: links) l = a :: placeLink links l := by
        simp [placeLink, hle]
      rw [hcons]
      refine List.pairwise_cons.2 ⟨fun b hb => ?_, ih hlinks⟩
      rcases mem_placeLink.1 hb with rfl | hb
      · exact hle
      · exact ha b hb
    · have hlt : ∀ b ∈ a :: links, l.n < b.n :=
        List.forall_mem_cons.2 ⟨by omega, fun b hb => (not_le.1 hle).trans_le (ha b hb)⟩
      rw [placeLink_of_lt hlt]
      exact List.pairwise_cons.2 ⟨fun b hb => (hlt b hb).le, h⟩

theorem filter_suffix {α : Type} {p : α → Bool} {as : List α}
    (h : as.Pairwise fun a b => p a = true → p b = true) : as.filter p <:+ as := by
  induction as with
  | nil => exact List.suffix_rfl
  | cons a as ih =>
    obtain ⟨ha, has⟩ := List.pairwise_cons.1 h
    by_cases hp : p a = true
    · have hall : (a :: as).filter p = a :: as := by
        rw [List.filter_eq_self]
        exact List.forall_mem_cons.2 ⟨hp, fun b hb => ha b hb hp⟩
      rw [hall]
    · rw [List.filter_cons_of_neg hp]
      exact (ih has).trans (List.suffix_cons a as)

theorem max_base_cases (links : List LockLink) :
    (((links.filter LockLink.isBase).map LockLink.n).max? = none ∧
        ∀ b ∈ links, b.isBase = false) ∨
      ∃ b ∈ links, b.isBase = true ∧ (∀ a ∈ links, a.isBase = true → a.n ≤ b.n) ∧
        ((links.filter LockLink.isBase).map LockLink.n).max? = some b.n := by
  cases hmax : ((links.filter LockLink.isBase).map LockLink.n).max? with
  | none =>
    left
    refine ⟨rfl, fun b hb => ?_⟩
    have hnil := List.map_eq_nil_iff.1 (List.max?_eq_none_iff.1 hmax)
    simpa using List.filter_eq_nil_iff.1 hnil b hb
  | some n =>
    right
    obtain ⟨hmem, hle⟩ := List.max?_eq_some_iff.1 hmax
    obtain ⟨b, hb, rfl⟩ := List.mem_map.1 hmem
    obtain ⟨hb, hbase⟩ := List.mem_filter.1 hb
    refine ⟨b, hb, hbase, fun a ha habase => ?_, rfl⟩
    exact hle a.n (List.mem_map_of_mem (List.mem_filter.2 ⟨ha, habase⟩))

/-- Pruning keeps a suffix that still has a base or fills the chain's length. -/
theorem pruneLinks_spec (h : Ascending links) :
    pruneLinks links <:+ links ∧ (links ≠ [] → pruneLinks links ≠ []) ∧
      (pruneLinks links).length ≤ maxChain ∧
      ((∃ b ∈ links, b.isBase = true) ∨ links = [] ∨ maxChain ≤ links.length →
        (∃ b ∈ pruneLinks links, b.isBase = true) ∨ pruneLinks links = [] ∨
          maxChain ≤ (pruneLinks links).length) := by
  -- The part from the newest owner-signed link on, before the list is cut to its limit.
  have hkept : ∃ kept, kept <:+ links ∧ (links ≠ [] → kept ≠ []) ∧
      pruneLinks links = kept.drop (kept.length - maxChain) ∧
      ((∃ b ∈ kept, b.isBase = true) ∨ kept = links ∧ ∀ b ∈ links, b.isBase = false) := by
    rcases max_base_cases links with ⟨hmax, hnone⟩ | ⟨b, hb, hbase, -, hmax⟩
    · refine ⟨links, List.suffix_rfl, id, ?_, .inr ⟨rfl, hnone⟩⟩
      rw [pruneLinks, hmax]
    · have hmem : b ∈ links.filter fun l => b.n ≤ l.n := List.mem_filter.2 ⟨hb, by simp⟩
      refine ⟨links.filter fun l => b.n ≤ l.n, ?_, fun _ => List.ne_nil_of_mem hmem, ?_,
        .inl ⟨b, hmem, hbase⟩⟩
      · refine filter_suffix (h.imp fun hle hb => ?_)
        simp only [decide_eq_true_eq] at hb ⊢
        exact hb.trans hle
      · rw [pruneLinks, hmax]
  obtain ⟨kept, hsuffix, hne, heq, hbased⟩ := hkept
  rw [heq]
  have hlength : (kept.drop (kept.length - maxChain)).length = min kept.length maxChain := by
    rw [List.length_drop]
    omega
  refine ⟨(List.drop_suffix _ _).trans hsuffix, fun hlinks hnil => ?_, by omega, fun hfull => ?_⟩
  · rw [hnil] at hlength
    have := List.length_pos_iff.2 (hne hlinks)
    simp only [List.length_nil, maxChain] at hlength
    omega
  · by_cases hlong : maxChain ≤ kept.length
    · exact .inr (.inr (by omega))
    · have hdrop : kept.length - maxChain = 0 := by omega
      rw [hdrop, List.drop_zero]
      rcases hbased with hbase | ⟨rfl, hnone⟩
      · exact .inl hbase
      · rcases hfull with ⟨b, hb, hbase⟩ | hnil | hlength
        · rw [hnone b hb] at hbase
          cases hbase
        · exact .inr (.inl hnil)
        · omega

/-- Links of consecutive numbers, one lock to a number, each successor signed by every link of the
number before it. -/
structure Line (c : Crypto) (serverId : String) (links : List LockLink) : Prop where
  ascending : Ascending links
  noFork : ∀ a ∈ links, ∀ b ∈ links, a.n = b.n → a.door = b.door ∧ a.change = b.change
  noGap : ∀ a ∈ links, ∀ b ∈ links, ∀ n, a.n ≤ n → n ≤ b.n → ∃ l ∈ links, l.n = n
  bases : ∀ b ∈ links, b.isBase = true → (baseOwner c serverId b).isSome = true
  successors : ∀ a ∈ links, ∀ b ∈ links, a.n + 1 = b.n → b.isBase = false →
    extendsLink c serverId a b = true
  /-- Only the limit on the links takes the owner's one away. -/
  based : (∃ b ∈ links, b.isBase = true) ∨ links = [] ∨ maxChain ≤ links.length

theorem extendsLink_congr {a' b : LockLink} (hn : a.n = a'.n) (hchange : a.change = a'.change) :
    extendsLink c serverId a b = extendsLink c serverId a' b := by
  rw [extendsLink, extendsLink, hn, hchange]

/-- A link above one that is kept comes after it. -/
theorem mem_pruneLinks_of_lt {b : LockLink} (h : Ascending links) (ha : a ∈ pruneLinks links)
    (hb : b ∈ links) (hlt : a.n < b.n) : b ∈ pruneLinks links := by
  obtain ⟨before, hsplit⟩ := (pruneLinks_spec h).1
  rw [← hsplit] at hb h
  rcases List.mem_append.1 hb with hb | hb
  · have := (List.pairwise_append.1 h).2.2 b hb a ha
    omega
  · exact hb

theorem Line.pruned (h : Line c serverId links) : Line c serverId (pruneLinks links) := by
  obtain ⟨hsuffix, -, -, hbased⟩ := pruneLinks_spec h.ascending
  have hmem : ∀ a ∈ pruneLinks links, a ∈ links := fun a ha => hsuffix.subset ha
  refine ⟨h.ascending.sublist hsuffix.sublist,
    fun a ha b hb => h.noFork a (hmem a ha) b (hmem b hb),
    fun a ha b hb n hle hge => ?_, fun b hb => h.bases b (hmem b hb),
    fun a ha b hb => h.successors a (hmem a ha) b (hmem b hb), hbased h.based⟩
  rcases hle.eq_or_lt with rfl | hlt
  · exact ⟨a, ha, rfl⟩
  · obtain ⟨x, hx, rfl⟩ := h.noGap a (hmem a ha) b (hmem b hb) n hle hge
    exact ⟨x, mem_pruneLinks_of_lt h.ascending ha hx hlt, rfl⟩

theorem line_singleton (hbase : (baseOwner c serverId l).isSome = true) (hl : l.isBase = true) :
    Line c serverId [l] where
  ascending := List.pairwise_singleton _ _
  noFork := by simp
  noGap := by
    intro a ha b hb n hle hge
    rw [List.mem_singleton.1 ha] at hle
    rw [List.mem_singleton.1 hb] at hge
    exact ⟨l, List.mem_singleton_self l, by omega⟩
  bases := by simp [hbase]
  successors := by
    intro a ha b hb hn
    rw [List.mem_singleton.1 ha, List.mem_singleton.1 hb] at hn
    omega
  based := .inl ⟨l, List.mem_singleton_self l, hl⟩

theorem pruneLinks_placeLink_of_gt (hbase : l.isBase = true) (hl : ∀ a ∈ links, a.n < l.n) :
    pruneLinks (placeLink links l) = [l] := by
  have hplace : placeLink links l = links ++ [l] := by
    have hall : ∀ a ∈ links, decide (a.n ≤ l.n) = true := fun a ha => by simpa using (hl a ha).le
    rw [placeLink, List.takeWhile_eq_self_iff.2 hall, List.dropWhile_eq_nil_iff.2 hall]
  rw [hplace]
  rcases max_base_cases (links ++ [l]) with ⟨-, hnone⟩ | ⟨b, hb, -, hmax, heq⟩
  · have := hnone l (by simp)
    rw [hbase] at this
    cases this
  · have hb : b = l := by
      have := hmax l (by simp) hbase
      rcases List.mem_append.1 hb with hb | hb
      · have := hl b hb
        omega
      · exact List.mem_singleton.1 hb
    have hfilter : ((links ++ [l]).filter fun a => l.n ≤ a.n) = [l] := by
      rw [List.filter_append, List.filter_eq_nil_iff.2, List.nil_append]
      · simp
      · intro a ha
        have := hl a ha
        simpa using this
    rw [pruneLinks, heq, hb]
    dsimp only
    rw [hfilter]
    simp [maxChain]

theorem pruneLinks_placeLink_of_lt (hbased : (∃ b ∈ links, b.isBase = true) ∨
      maxChain ≤ links.length) (hbase : l.isBase = true) (hl : ∀ a ∈ links, l.n < a.n) :
    pruneLinks (placeLink links l) = pruneLinks links := by
  rw [placeLink_of_lt hl, pruneLinks, List.filter_cons_of_pos hbase, List.map_cons,
    List.max?_cons, pruneLinks]
  rcases max_base_cases links with ⟨hmax, hnone⟩ | ⟨b, hb, -, -, hmax⟩
  · have hlong : maxChain ≤ links.length := by
      rcases hbased with ⟨b, hb, hbbase⟩ | hlong
      · rw [hnone b hb] at hbbase
        cases hbbase
      · exact hlong
    have hall : ((l :: links).filter fun a => l.n ≤ a.n) = l :: links := by
      rw [List.filter_eq_self]
      refine List.forall_mem_cons.2 ⟨by simp, fun a ha => ?_⟩
      simpa using (hl a ha).le
    rw [hmax]
    dsimp only [Option.elim]
    rw [hall, List.length_cons, Nat.succ_sub hlong, List.drop_succ_cons]
  · rw [hmax]
    dsimp only [Option.elim]
    rw [max_eq_right (hl b hb).le, List.filter_cons_of_neg (by simpa using hl b hb)]

theorem n_of_extendsLink {b : LockLink} (h : extendsLink c serverId a b = true) :
    a.n + 1 = b.n ∧ b.isBase = false := by
  simp only [extendsLink, Bool.and_eq_true, Bool.not_eq_true', beq_iff_eq] at h
  exact ⟨h.1.2, h.1.1.1.1⟩

section Place

variable (h : Line c serverId links)
  (hfork : ∀ a ∈ links, a.n = l.n → a.door = l.door ∧ a.change = l.change)
  (hbase : l.isBase = true → (baseOwner c serverId l).isSome = true)
  (hsucc : l.isBase = false → ∃ a ∈ links, extendsLink c serverId a l = true)

include h hfork hbase hsucc

/-- A link of a number that is held, or of the next one, keeps the line. -/
theorem Line.place (hnear : ∃ a ∈ links, a.n ≤ l.n ∧ l.n ≤ a.n + 1) :
    Line c serverId (placeLink links l) := by
  obtain ⟨y, hy, hyl, hly⟩ := hnear
  have hheld : ∀ a ∈ links, a ∈ placeLink links l := fun a ha => mem_placeLink.2 (.inr ha)
  have hother : ∀ a ∈ placeLink links l, a.n ≠ l.n → a ∈ links := by
    intro a ha hne
    exact (mem_placeLink.1 ha).resolve_left fun heq => hne (heq ▸ rfl)
  refine ⟨h.ascending.place l, ?_, ?_, ?_, ?_, ?_⟩
  · intro a ha b hb hn
    rcases mem_placeLink.1 ha with rfl | ha' <;> rcases mem_placeLink.1 hb with rfl | hb'
    · exact ⟨rfl, rfl⟩
    · exact (hfork b hb' hn.symm).imp Eq.symm Eq.symm
    · exact hfork a ha' hn
    · exact h.noFork a ha' b hb' hn
  · intro a ha b hb n hle hge
    rcases Nat.lt_trichotomy n l.n with hlt | rfl | hgt
    · obtain ⟨x, hx, hxn⟩ := h.noGap a (hother a ha (by omega)) y hy n hle (by omega)
      exact ⟨x, hheld x hx, hxn⟩
    · exact ⟨l, mem_placeLink.2 (.inl rfl), rfl⟩
    · obtain ⟨x, hx, hxn⟩ := h.noGap y hy b (hother b hb (by omega)) n (by omega) hge
      exact ⟨x, hheld x hx, hxn⟩
  · intro b hb hbbase
    rcases mem_placeLink.1 hb with rfl | hb
    · exact hbase hbbase
    · exact h.bases b hb hbbase
  · intro a ha b hb hn hsigned
    rcases mem_placeLink.1 hb with rfl | hb'
    · obtain ⟨x, hx, hxb⟩ := hsucc hsigned
      have hxa : x.n = a.n := by
        have := (n_of_extendsLink hxb).1
        omega
      rw [← extendsLink_congr hxa (h.noFork x hx a (hother a ha (by omega)) hxa).2]
      exact hxb
    · rcases mem_placeLink.1 ha with rfl | ha'
      · obtain ⟨x, hx, hxn⟩ := h.noGap y hy b hb' a.n hyl (by omega)
        rw [← extendsLink_congr hxn (hfork x hx hxn).2]
        exact h.successors x hx b hb' (by omega) hsigned
      · exact h.successors a ha' b hb' hn hsigned
  · rcases h.based with ⟨b, hb, hbbase⟩ | rfl | hlong
    · exact .inl ⟨b, hheld b hb, hbbase⟩
    · cases hy
    · exact .inr (.inr (hlong.trans (placeLink_perm.length_eq ▸ Nat.le_succ _)))

theorem Line.placed : Line c serverId (pruneLinks (placeLink links l)) := by
  by_cases hnear : ∃ a ∈ links, a.n ≤ l.n ∧ l.n ≤ a.n + 1
  · exact (h.place hfork hbase hsucc hnear).pruned
  have hl : l.isBase = true := by
    by_contra hsigned
    obtain ⟨a, ha, hal⟩ := hsucc (by simpa using hsigned)
    have := (n_of_extendsLink hal).1
    exact hnear ⟨a, ha, by omega, by omega⟩
  by_cases habove : ∀ a ∈ links, a.n < l.n
  · rw [pruneLinks_placeLink_of_gt hl habove]
    exact line_singleton (hbase hl) hl
  · -- A base below some link and of no held number is below them all.
    obtain ⟨b, hb, hle⟩ : ∃ b ∈ links, l.n ≤ b.n := by simpa using habove
    have hbelow : ∀ a ∈ links, l.n < a.n := by
      intro a ha
      by_contra hge
      obtain ⟨x, hx, hxn⟩ := h.noGap a ha b hb l.n (by omega) hle
      exact hnear ⟨x, hx, by omega, by omega⟩
    have hbased : (∃ b ∈ links, b.isBase = true) ∨ maxChain ≤ links.length := by
      rcases h.based with hbased | rfl | hlong
      · exact .inl hbased
      · cases hb
      · exact .inr hlong
    rw [pruneLinks_placeLink_of_lt hbased hl hbelow]
    exact h.pruned

end Place

abbrev Doors : Type := Std.ExtTreeMap String Door

/-- The doors with that of a link, where an op brings its secret. -/
def addDoor (c : Crypto) (doors : Doors) (l : LockLink) (door : Option String) : Doors :=
  match door.filter (doorMatches c · l) with
  | some secret => doors.insert l.door ⟨l.n, secret⟩
  | none => doors

def pruneDoors (doors : Doors) : Doors :=
  match (doors.toList.map fun d => d.2.n).max? with
  | none => doors
  | some top => doors.filter fun _ d => top - doorsKept ≤ d.n

theorem JoinLockState.prune_doors (s : JoinLockState) : s.prune.doors = pruneDoors s.doors := by
  unfold prune pruneDoors
  dsimp only
  cases (s.doors.toList.map fun d => d.2.n).max? <;> dsimp only

theorem JoinLockState.apply_links (s : JoinLockState) (door : Option String)
    (grants : Std.ExtTreeMap String String) (hlc : HlcTimestamp) :
    (s.apply c l door grants hlc).links =
      pruneLinks (if s.links.contains l then s.links else placeLink s.links l) := by
  unfold apply placeLink
  dsimp only
  rw [prune_links]
  dsimp only
  cases door.filter (doorMatches c · l) <;> split_ifs <;> dsimp only

theorem JoinLockState.apply_doors (s : JoinLockState) (door : Option String)
    (grants : Std.ExtTreeMap String String) (hlc : HlcTimestamp) :
    (s.apply c l door grants hlc).doors = pruneDoors (addDoor c s.doors l door) := by
  unfold apply addDoor
  dsimp only
  rw [prune_doors]
  dsimp only
  cases door.filter (doorMatches c · l) <;> split_ifs <;> dsimp only

theorem of_pruneDoors {d : Door} (h : (pruneDoors doors)[pub]? = some d) :
    doors[pub]? = some d := by
  unfold pruneDoors at h
  split at h
  · exact h
  · rw [Map.getElem?_filter] at h
    exact (Option.filter_eq_some_iff.1 h).1

theorem pruneDoors_of_newest {d : Door} (h : doors[pub]? = some d)
    (hmax : ∀ (p : String) (e : Door), doors[p]? = some e → e.n ≤ d.n) :
    (pruneDoors doors)[pub]? = some d := by
  unfold pruneDoors
  split
  · exact h
  · rename_i top htop
    obtain ⟨hmem, -⟩ := List.max?_eq_some_iff.1 htop
    obtain ⟨⟨p, e⟩, he, rfl⟩ := List.mem_map.1 hmem
    have hle := hmax p e (Std.ExtTreeMap.mem_toList_iff_getElem?_eq_some.1 he)
    rw [Map.getElem?_filter, h, Option.filter_some, if_pos]
    simp only [decide_eq_true_eq]
    omega

def Tops (links : List LockLink) (l : LockLink) : Prop :=
  l ∈ links ∧ ∀ a ∈ links, a.n ≤ l.n

theorem exists_tops (hne : links ≠ []) : ∃ l, Tops links l := by
  rcases maxByKey_spec LockLink.n links with ⟨-, hnil⟩ | ⟨l, -, hl, hmax⟩
  · exact absurd hnil hne
  · exact ⟨l, hl, hmax⟩

theorem tops_of_pruneLinks (h : Ascending links) (hl : Tops (pruneLinks links) l) :
    Tops links l := by
  refine ⟨(pruneLinks_spec h).1.subset hl.1, fun a ha => ?_⟩
  by_contra hlt
  exact hlt (hl.2 a (mem_pruneLinks_of_lt h hl.1 ha (by omega)))

/-- The newest lock's door is held, and no other of its number or above. -/
structure Opens (links : List LockLink) (doors : Doors) : Prop where
  empty : links = [] → ∀ pub : String, doors[pub]? = none
  held : ∀ l, Tops links l → ∃ secret, doors[l.door]? = some ⟨l.n, secret⟩
  newest : ∀ l, Tops links l → ∀ (pub : String) (d : Door), doors[pub]? = some d →
    d.n < l.n ∨ d.n = l.n ∧ pub = l.door

theorem Opens.pruned (h : Opens links doors) (hasc : Ascending links) :
    Opens (pruneLinks links) (pruneDoors doors) where
  empty := by
    intro hnil pub
    have hlinks : links = [] := by
      by_contra hne
      exact (pruneLinks_spec hasc).2.1 hne hnil
    refine Option.eq_none_iff_forall_ne_some.2 fun d hd => ?_
    cases (of_pruneDoors hd).symm.trans (h.empty hlinks pub)
  held := by
    intro l hl
    have hl := tops_of_pruneLinks hasc hl
    obtain ⟨secret, hsecret⟩ := h.held l hl
    refine ⟨secret, pruneDoors_of_newest hsecret fun p e he => ?_⟩
    rcases h.newest l hl p e he with hlt | ⟨heq, -⟩
    · exact hlt.le
    · exact heq.le
  newest := by
    intro l hl pub d hd
    exact h.newest l (tops_of_pruneLinks hasc hl) pub d (of_pruneDoors hd)

theorem getElem?_addDoor {d : Door} (h : (addDoor c doors l door)[pub]? = some d) :
    doors[pub]? = some d ∨ d.n = l.n ∧ pub = l.door := by
  unfold addDoor at h
  split at h
  · rw [Map.getElem?_insert] at h
    split_ifs at h with hpub
    · exact .inr ⟨(Option.some.inj h) ▸ rfl, hpub.symm⟩
    · exact .inl h
  · exact .inl h

theorem addDoor_door {n : Nat} {secret : String} (h : doors[pub]? = some ⟨n, secret⟩)
    (hn : pub = l.door → l.n = n) :
    ∃ secret, (addDoor c doors l door)[pub]? = some ⟨n, secret⟩ := by
  unfold addDoor
  split
  · rename_i new _
    rw [Map.getElem?_insert]
    split_ifs with hpub
    · exact ⟨new, by rw [hn hpub.symm]⟩
    · exact ⟨secret, h⟩
  · exact ⟨secret, h⟩

theorem addDoor_matching (h : door.any (doorMatches c · l) = true) :
    ∃ secret, (addDoor c doors l door)[l.door]? = some ⟨l.n, secret⟩ := by
  cases door with
  | none => cases h
  | some secret =>
    refine ⟨secret, ?_⟩
    have hfilter : (some secret).filter (doorMatches c · l) = some secret := by
      rw [Option.filter_some, if_pos (by simpa using h)]
    rw [addDoor, hfilter]
    dsimp only
    rw [Map.getElem?_insert, if_pos rfl]

theorem Opens.add (h : Opens links doors) (hlinks' : ∀ a, a ∈ links' ↔ a = l ∨ a ∈ links)
    (hfork : ∀ a ∈ links, a.n = l.n → a.door = l.door ∧ a.change = l.change)
    (hdoor : ∀ a ∈ links, l.n < a.n → a.door ≠ l.door)
    (hsecret : (∀ a ∈ links, a.n < l.n) → door.any (doorMatches c · l) = true) :
    Opens links' (addDoor c doors l door) := by
  -- The newest lock is the op's own, or one that was the newest before.
  have hcases : ∀ t, Tops links' t → (t = l ∧ ∀ a ∈ links, a.n < l.n) ∨
      ∃ u, Tops links u ∧ u.n = t.n ∧ u.door = t.door ∧ l.n ≤ u.n := by
    intro t ht
    have hle := ht.2 l ((hlinks' l).2 (.inl rfl))
    rcases (hlinks' t).1 ht.1 with rfl | hmem
    · by_cases habove : ∀ a ∈ links, a.n < t.n
      · exact .inl ⟨rfl, habove⟩
      · obtain ⟨a, ha, hge⟩ : ∃ a ∈ links, t.n ≤ a.n := by simpa using habove
        have heq : a.n = t.n := le_antisymm (ht.2 a ((hlinks' a).2 (.inr ha))) hge
        refine .inr ⟨a, ⟨ha, fun b hb => ?_⟩, heq, (hfork a ha heq).1, heq.ge⟩
        exact (ht.2 b ((hlinks' b).2 (.inr hb))).trans hge
    · exact .inr ⟨t, ⟨hmem, fun b hb => ht.2 b ((hlinks' b).2 (.inr hb))⟩, rfl, rfl, hle⟩
  constructor
  · intro hnil
    have : l ∈ links' := (hlinks' l).2 (.inl rfl)
    rw [hnil] at this
    cases this
  · intro t ht
    rcases hcases t ht with ⟨rfl, habove⟩ | ⟨u, hu, hn, hpub, hle⟩
    · exact addDoor_matching (hsecret habove)
    · obtain ⟨secret, hheld⟩ := h.held u hu
      rw [← hpub, ← hn]
      refine addDoor_door hheld fun heq => ?_
      by_contra hne
      exact hdoor u hu.1 (by omega) heq
  · intro t ht pub d hd
    rcases hcases t ht with ⟨rfl, habove⟩ | ⟨u, hu, hn, hpub, hle⟩
    · rcases getElem?_addDoor hd with hold | hnew
      · left
        by_cases hnil : links = []
        · rw [h.empty hnil] at hold
          cases hold
        · obtain ⟨u, hu⟩ := exists_tops hnil
          have := habove u hu.1
          rcases h.newest u hu pub d hold with hlt | ⟨heq, -⟩ <;> omega
      · exact .inr hnew
    · rw [← hn, ← hpub]
      rcases getElem?_addDoor hd with hold | ⟨hdn, rfl⟩
      · exact h.newest u hu pub d hold
      · rcases hle.eq_or_lt with heq | hlt
        · exact .inr ⟨by omega, (hfork u hu.1 heq.symm).1.symm⟩
        · exact .inl (by omega)

theorem verifyChain_isSome {first : LockLink} {rest : List LockLink}
    (hlength : (first :: rest).length ≤ maxChain)
    (hbase : (baseOwner c serverId first).isSome = true)
    (hchain : (first :: rest).IsChain fun a b => extendsLink c serverId a b = true) :
    (verifyChain c serverId (first :: rest) none).isSome = true := by
  obtain ⟨owner, howner⟩ := Option.isSome_iff_exists.1 hbase
  have hfollows : chainFrom (fun prev next =>
      if next.isBase then prev.n < next.n && baseOwner c serverId next = some owner
      else extendsLink c serverId prev next) first rest = true := by
    rw [chainFrom_iff]
    refine hchain.imp fun a b hab => ?_
    rw [(n_of_extendsLink hab).2, if_neg Bool.false_ne_true]
    exact hab
  rw [verifyChain]
  rw [List.length_cons] at hlength
  simp [Nat.lt_of_succ_le hlength, howner, hfollows]

variable {s : JoinLockState}

theorem nextLink_eq_some {n : Nat} {next : LockLink} (h : s.nextLink n = some next) :
    next ∈ s.links ∧ next.isBase = false ∧ next.n = n + 1 := by
  obtain ⟨hmem, -⟩ := maxByKey_eq_some h
  obtain ⟨hmem, hnext⟩ := List.mem_filter.1 hmem
  simp only [Bool.and_eq_true, Bool.not_eq_true', beq_iff_eq] at hnext
  exact ⟨hmem, hnext⟩

theorem nextLink_eq_none {n : Nat} (h : s.nextLink n = none) (ha : a ∈ s.links)
    (hbase : a.isBase = false) : a.n ≠ n + 1 := by
  intro hn
  have hnil := List.filter_eq_nil_iff.1 (maxByKey_eq_none h) a ha
  simp [hbase, hn] at hnil

theorem length_linksAfter_le (fuel n : Nat) : (s.linksAfter fuel n).length ≤ fuel := by
  induction fuel generalizing n with
  | zero => simp [linksAfter]
  | succ fuel ih =>
    rw [linksAfter]
    split
    · simp
    · rw [List.length_cons]
      have := ih ‹LockLink›.n
      omega

theorem linksAfter_spec (h : Line c serverId s.links) {fuel : Nat} (ha : a ∈ s.links)
    (hbases : ∀ b ∈ s.links, b.isBase = true → b.n ≤ a.n)
    (hfuel : ∀ b ∈ s.links, b.n ≤ a.n + fuel) :
    (a :: s.linksAfter fuel a.n).IsChain (fun a b => extendsLink c serverId a b = true) ∧
      ∃ tip, (a :: s.linksAfter fuel a.n).getLast? = some tip ∧ Tops s.links tip := by
  induction fuel generalizing a with
  | zero =>
    rw [linksAfter]
    exact ⟨List.isChain_singleton _, a, rfl, ha, fun b hb => hfuel b hb⟩
  | succ fuel ih =>
    rw [linksAfter]
    cases hnext : s.nextLink a.n with
    | none =>
      refine ⟨List.isChain_singleton _, a, rfl, ha, fun b hb => ?_⟩
      by_contra hlt
      obtain ⟨x, hx, hxn⟩ := h.noGap a ha b hb (a.n + 1) (by omega) (by omega)
      refine nextLink_eq_none hnext hx ?_ hxn
      by_contra hbase
      have := hbases x hx (by simpa using hbase)
      omega
    | some next =>
      obtain ⟨hmem, hsigned, hn⟩ := nextLink_eq_some hnext
      have hrest := ih hmem (fun b hb hbase => by have := hbases b hb hbase; omega)
        (fun b hb => by have := hfuel b hb; omega)
      obtain ⟨hchain, tip, htip, htops⟩ := hrest
      refine ⟨List.isChain_cons_cons.2 ⟨?_, hchain⟩, tip, ?_, htops⟩
      · exact h.successors a ha next hmem hn.symm hsigned
      · rw [List.getLast?_cons_cons]
        exact htip

theorem Line.n_le_add_length (h : Line c serverId links) {b : LockLink} (ha : a ∈ links)
    (hb : b ∈ links) : b.n + 1 ≤ a.n + links.length := by
  have hsub : Finset.Icc a.n b.n ⊆ (links.map LockLink.n).toFinset := by
    intro n hn
    obtain ⟨hle, hge⟩ := Finset.mem_Icc.1 hn
    obtain ⟨x, hx, rfl⟩ := h.noGap a ha b hb n hle hge
    exact List.mem_toFinset.2 (List.mem_map_of_mem hx)
  have hcard := (Finset.card_le_card hsub).trans (List.toFinset_card_le _)
  rw [Nat.card_Icc, List.length_map] at hcard
  omega

/-- What an orderly run keeps. -/
structure Kept (c : Crypto) (serverId : String) (s : JoinLockState) : Prop where
  line : Line c serverId s.links
  short : s.links.length ≤ maxChain
  opens : Opens s.links s.doors

/-- Locks kept in one line are published as a chain that verifies and ends at the newest. -/
theorem Kept.publishes (h : Kept c serverId s) : Publishes c serverId s := by
  cases hbase : maxByKey LockLink.n (s.links.filter LockLink.isBase) with
  | none =>
    left
    rw [chain, hbase]
  | some base =>
    have hchain : s.chain = base :: s.linksAfter (maxChain - 1) base.n := by
      rw [chain, hbase]
    obtain ⟨hmem, hmax⟩ := maxByKey_eq_some hbase
    obtain ⟨hmem, hisBase⟩ := List.mem_filter.1 hmem
    have hbases : ∀ b ∈ s.links, b.isBase = true → b.n ≤ base.n := fun b hb hbb =>
      hmax b (List.mem_filter.2 ⟨hb, hbb⟩)
    have hfuel : ∀ b ∈ s.links, b.n ≤ base.n + (maxChain - 1) := by
      intro b hb
      have := h.line.n_le_add_length hmem hb
      have := h.short
      omega
    obtain ⟨hextends, tip, htip, htops⟩ := linksAfter_spec h.line hmem hbases hfuel
    refine .inr ⟨?_, tip, ?_⟩
    · rw [hchain]
      refine verifyChain_isSome ?_ (h.line.bases base hmem hisBase) hextends
      have := length_linksAfter_le (s := s) (maxChain - 1) base.n
      rw [List.length_cons]
      simp only [maxChain] at this ⊢
      omega
    · obtain ⟨secret, hheld⟩ := h.opens.held tip htops
      refine ⟨secret, by rw [hchain, htip], ?_⟩
      rw [newest]
      rcases maxByKey_spec (fun e : String × Door => toLex (e.2.n, OrderDual.toDual e.1))
        s.doors.toList with ⟨-, hnil⟩ | ⟨⟨pub, d⟩, hd, hdmem, hdmax⟩
      · have := Std.ExtTreeMap.mem_toList_iff_getElem?_eq_some.2 hheld
        rw [hnil] at this
        cases this
      · have hpub := Std.ExtTreeMap.mem_toList_iff_getElem?_eq_some.1 hdmem
        have hle := hdmax _ (Std.ExtTreeMap.mem_toList_iff_getElem?_eq_some.2 hheld)
        have heq : pub = tip.door := by
          rcases h.opens.newest tip htops pub d hpub with hlt | ⟨-, heq⟩
          · rcases Prod.Lex.toLex_le_toLex.1 hle with hgt | ⟨hsame, -⟩
            · exact absurd hgt (by simp only; omega)
            · simp only at hsame
              omega
          · exact heq
        rw [hd, heq]
        rw [heq, hheld] at hpub
        rw [← Option.some.inj hpub]

/-- An orderly op leaves the locks in one line. -/
theorem Kept.step (h : Kept c serverId s) {a : LockStep} (hallowed : a.allowed c serverId s = true)
    (horderly : Orderly c s a) : Kept c serverId (a.perform c s) := by
  cases a with
  | prune =>
    rw [LockStep.perform]
    refine ⟨?_, ?_, ?_⟩
    · rw [prune_links]
      exact h.line.pruned
    · rw [prune_links]
      exact (pruneLinks_spec h.line.ascending).2.2.1
    · rw [prune_links, prune_doors]
      exact h.opens.pruned h.line.ascending
  | link l door grants hlc owner =>
    obtain ⟨hfork, hdoor, hsecret⟩ := horderly
    rw [LockStep.perform]
    have hasc : Ascending (if s.links.contains l then s.links else placeLink s.links l) := by
      split_ifs
      · exact h.line.ascending
      · exact h.line.ascending.place l
    refine ⟨?_, ?_, ?_⟩
    · rw [apply_links]
      by_cases hheld : s.links.contains l = true
      · rw [if_pos hheld]
        exact h.line.pruned
      · rw [if_neg hheld]
        rw [LockStep.allowed, linkAllowed, if_neg hheld] at hallowed
        refine h.line.placed hfork (fun hbase => ?_) (fun hbase => ?_)
        · rw [if_pos hbase, beq_iff_eq] at hallowed
          rw [hallowed]
          rfl
        · rw [hbase, if_neg Bool.false_ne_true, List.any_eq_true] at hallowed
          exact hallowed
    · rw [apply_links]
      exact (pruneLinks_spec hasc).2.2.1
    · rw [apply_links, apply_doors]
      refine Opens.pruned (h.opens.add (fun a => ?_) hfork hdoor hsecret) hasc
      split_ifs with hheld
      · refine ⟨.inr, ?_⟩
        rintro (rfl | ha)
        · simpa using hheld
        · exact ha
      · exact mem_placeLink

/-- In every run whose ops keep the locks in one line, each state reached publishes a chain that
passes and ends at the newest door, or none. -/
theorem publishes_of_orderly (c : Crypto) (serverId : String) (s : JoinLockState)
    (h : LockReached c serverId (Orderly c) s) : Publishes c serverId s := by
  suffices hkept : Kept c serverId s from hkept.publishes
  induction h with
  | empty =>
    refine ⟨⟨List.Pairwise.nil, by simp, by simp, by simp, by simp, .inr (.inl rfl)⟩, by simp, ?_⟩
    exact ⟨fun _ _ => Std.ExtTreeMap.getElem?_empty, by simp [Tops], by simp [Tops]⟩
  | step _ hallowed horderly ih => exact ih.step hallowed horderly

/-- Signatures that are the key's own text, and doors named by their secret's first letter. -/
def sampleLockCrypto : Crypto where
  peerIdOf key := some key
  verifies pk sig _ := sig == pk
  deriveServerId _ _ := ""
  isKey _ := true
  isBase64 _ _ := true
  doorKey door := some door
  publicOf secret := String.ofList (secret.toList.take 1)

def sampleSecret (name : Char) : String := String.ofList (List.replicate 64 name)

/-- A lock with its door, signed by the key before it or by the owner. -/
def sampleLock (n : Nat) (name : Char) (sig : String) (owner : Option String) : LockStep :=
  .link ⟨n, name.toString, "key-" ++ name.toString, sig, owner, none⟩
    (some (sampleSecret name)) ∅ (.zero "ann") "owner"

def sampleBase : LockStep := sampleLock 0 '0' "owner" (some "owner")

/-- A base and two successors, each behind a door of its own, published as they are. -/
theorem publishes_of_orderly_successor : Publishes sampleLockCrypto "srv"
    ((sampleLock 2 '2' "key-1" none).perform sampleLockCrypto
      ((sampleLock 1 '1' "key-0" none).perform sampleLockCrypto
        (sampleBase.perform sampleLockCrypto {}))) := by
  refine publishes_of_orderly _ _ _ (.step (.step (.step .empty ?_ ?_) ?_ ?_) ?_ ?_) <;>
    decide +kernel

/-- Two locks of number 1 and a successor of the first: `chain` takes the second. -/
def forkedLocks : JoinLockState :=
  (sampleLock 2 '2' "key-a" none).perform sampleLockCrypto
    ((sampleLock 1 'b' "key-0" none).perform sampleLockCrypto
      ((sampleLock 1 'a' "key-0" none).perform sampleLockCrypto
        (sampleBase.perform sampleLockCrypto {})))

/-- Of two locks with one number `chain` takes the last, which the next need not extend. -/
theorem not_publishes : LockReached sampleLockCrypto "srv" (fun _ _ => True) forkedLocks ∧
    ¬ Publishes sampleLockCrypto "srv" forkedLocks := by
  constructor
  · refine .step (.step (.step (.step .empty ?_ trivial) ?_ trivial) ?_ trivial) ?_ trivial <;>
      decide +kernel
  · have hne : forkedLocks.chain ≠ [] := by decide +kernel
    have hnone : verifyChain sampleLockCrypto "srv" forkedLocks.chain none = none := by
      decide +kernel
    rintro (hnil | ⟨hsome, -⟩)
    · exact hne hnil
    · rw [hnone] at hsome
      cases hsome

end Hollow.Crdt
