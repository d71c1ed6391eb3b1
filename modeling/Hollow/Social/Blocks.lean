import Mathlib.Data.Finset.Basic
import Hollow.Crdt.Register

/-! The blocks and lifted blocks that one user's devices share. A device keeps the stamp of the
first block it took and not that of a later one, so a lifting between the two undoes both;
`blocks_agree_iff` says for which sets of entries every device ends alike. -/

namespace Hollow.Social

open Crdt (Map)

def maxSharedRemovals : Nat := 256

/-- A block of a person, or its lifting, as devices of one identity tell each other. -/
structure BlockEntry where
  peerId : String
  blocked : Bool
  stamp : Int
deriving DecidableEq

/-- The rows of `blocked_peers`, and the settings that remember when a block was lifted. -/
structure BlockStore where
  blockedPeers : Map Int := ∅
  lifted : Map Int := ∅

namespace BlockStore

def blockPeerAt (s : BlockStore) (master : String) (stamp : Int) : BlockStore :=
  { s with blockedPeers := s.blockedPeers.insertIfNew master stamp }

def blockLiftedAt (s : BlockStore) (master : String) : Int := s.lifted.getD master 0

/-- A later lifting already noted keeps its time. -/
def unblockPeerAt (s : BlockStore) (master : String) (stamp : Int) : BlockStore where
  blockedPeers := s.blockedPeers.erase master
  lifted := s.lifted.insert master (max stamp (s.blockLiftedAt master))

def isBlocked (s : BlockStore) (master : String) : Prop := master ∈ s.blockedPeers

end BlockStore

section Take

variable (resolve : String → String) (localMaster : String)

def sameIdentity (a b : String) : Bool := a = b || resolve a = resolve b

/-- Whether entries about the person are taken: the user's own ids and an empty one are not. -/
def takesAbout (master : String) : Bool :=
  master ≠ "" && !sameIdentity resolve master localMaster

/-- The newest word on each person so far. A block wins a tie. -/
def noteNewest (ceiling : Int) (newest : Map (Bool × Int)) (entry : BlockEntry) :
    Map (Bool × Int) :=
  let master := resolve entry.peerId
  if entry.stamp ≤ 0 || !takesAbout resolve localMaster master then newest
  else
    let stamp := min entry.stamp ceiling
    if newest[master]?.all fun w => w.2 < stamp || (w.2 = stamp && entry.blocked) then
      newest.insert master (entry.blocked, stamp)
    else newest

/-- One person's newest word, against the rows held before the list was taken. -/
def takeWord (held : Map Int) (s : BlockStore) (w : String × Bool × Int) : BlockStore :=
  let (master, blocked, stamp) := w
  if blocked then
    if held[master]?.isNone && s.blockLiftedAt master ≤ stamp then s.blockPeerAt master stamp else s
  else if held[master]?.all (· < stamp) then s.unblockPeerAt master stamp
  else s

def takeSiblingBlocks (s : BlockStore) (blocks : List BlockEntry) (ceiling : Int) : BlockStore :=
  let newest := (blocks.take maxSharedRemovals).foldl (noteNewest resolve localMaster ceiling) ∅
  newest.toList.foldl (takeWord s.blockedPeers) s

/-- A list one device sends another, with the ceiling in force when it arrives. -/
structure Shared where
  blocks : List BlockEntry
  ceiling : Int

def takeAll (s : BlockStore) (lists : List Shared) : BlockStore :=
  lists.foldl (fun s l => takeSiblingBlocks resolve localMaster s l.blocks l.ceiling) s

end Take

variable {resolve : String → String} {localMaster person : String}

/-- What a store says of one person: since when it is blocked, and when a block was last lifted. -/
structure Word where
  since : Option Int
  lifted : Int
deriving DecidableEq

def BlockStore.word (s : BlockStore) (person : String) : Word :=
  ⟨s.blockedPeers[person]?, s.blockLiftedAt person⟩

/-- What the newest of a list does to a person's word. -/
def Word.take (v : Word) (w : Bool × Int) : Word :=
  if w.1 then if v.since.isNone && v.lifted ≤ w.2 then ⟨some w.2, v.lifted⟩ else v
  else if v.since.all (· < w.2) then ⟨none, max w.2 v.lifted⟩
  else v

variable {s : BlockStore} {held : Map Int} {ceiling : Int} {blocks : List BlockEntry}
  {lists : List Shared} {v : Word} {es : List BlockEntry}

theorem BlockStore.word_blockPeerAt (hnew : s.blockedPeers[person]? = none) (stamp : Int) :
    (s.blockPeerAt person stamp).word person = ⟨some stamp, s.blockLiftedAt person⟩ := by
  have hmem : person ∉ s.blockedPeers := by
    rw [← Std.ExtTreeMap.isSome_getElem?_iff_mem, hnew]
    simp
  rw [word, blockPeerAt, Std.ExtTreeMap.getElem?_insertIfNew, if_pos ⟨by simp, hmem⟩]
  rfl

theorem BlockStore.word_unblockPeerAt (s : BlockStore) (stamp : Int) :
    (s.unblockPeerAt person stamp).word person =
      ⟨none, max stamp (s.blockLiftedAt person)⟩ := by
  simp [word, unblockPeerAt, blockLiftedAt]

theorem word_takeWord_self {w : Bool × Int} (hheld : held[person]? = s.blockedPeers[person]?) :
    (takeWord held s (person, w)).word person = (s.word person).take w := by
  have hsince : (s.word person).since = held[person]? := hheld.symm
  have hlifted : (s.word person).lifted = s.blockLiftedAt person := rfl
  rw [takeWord, Word.take, hsince, hlifted]
  split_ifs with hblock hland hlift
  · have hnone : s.blockedPeers[person]? = none := by
      rw [← hheld]
      simpa using (Bool.and_eq_true_iff.1 hland).1
    exact BlockStore.word_blockPeerAt hnone w.2
  · rfl
  · exact BlockStore.word_unblockPeerAt s w.2
  · rfl

theorem word_takeWord_other {w : String × Bool × Int} (hne : w.1 ≠ person) :
    (takeWord held s w).word person = s.word person := by
  obtain ⟨master, blocked, stamp⟩ := w
  have hne : master ≠ person := hne
  unfold takeWord
  dsimp only
  split_ifs
  · simp [BlockStore.word, BlockStore.blockPeerAt, BlockStore.blockLiftedAt,
      Std.ExtTreeMap.getElem?_insertIfNew, hne]
  · rfl
  · simp [BlockStore.word, BlockStore.unblockPeerAt, BlockStore.blockLiftedAt,
      Std.ExtTreeMap.getElem?_erase, Std.ExtTreeMap.getD_insert, hne]
  · rfl

theorem word_foldl_of_not_mem {words : List (String × Bool × Int)} (h : ∀ w ∈ words, w.1 ≠ person)
    (s : BlockStore) : (words.foldl (takeWord held) s).word person = s.word person := by
  induction words generalizing s with
  | nil => rfl
  | cons w words ih =>
    obtain ⟨hw, hwords⟩ := List.forall_mem_cons.1 h
    rw [List.foldl_cons, ih hwords, word_takeWord_other hw]

theorem word_foldl_of_mem {words : List (String × Bool × Int)} {w : Bool × Int}
    (hdistinct : (words.map Prod.fst).Nodup) (hmem : (person, w) ∈ words)
    (hheld : held[person]? = s.blockedPeers[person]?) :
    (words.foldl (takeWord held) s).word person = (s.word person).take w := by
  induction words generalizing s with
  | nil => cases hmem
  | cons a words ih =>
    rw [List.map_cons, List.nodup_cons] at hdistinct
    rw [List.foldl_cons]
    rcases List.mem_cons.1 hmem with rfl | hmem
    · rw [word_foldl_of_not_mem, word_takeWord_self hheld]
      intro b hb heq
      exact hdistinct.1 (List.mem_map.2 ⟨b, hb, heq⟩)
    · have hne : a.1 ≠ person := fun heq => hdistinct.1 (List.mem_map.2 ⟨_, hmem, heq.symm⟩)
      have hframe : (takeWord held s a).word person = s.word person := word_takeWord_other hne
      have hrow : (takeWord held s a).blockedPeers[person]? = s.blockedPeers[person]? :=
        congrArg Word.since hframe
      rw [ih hdistinct.2 hmem (hheld.trans hrow.symm), hframe]

/-- Entries by stamp, a block after a lifting of its stamp. -/
def wordKey (w : Bool × Int) : Lex (Int × Bool) := toLex (w.2, w.1)

theorem wordKey_le_iff {a b : Bool × Int} :
    wordKey a ≤ wordKey b ↔ a.2 < b.2 ∨ a.2 = b.2 ∧ a.1 ≤ b.1 := Prod.Lex.toLex_le_toLex

def about (resolve : String → String) (person : String) (blocks : List BlockEntry) :
    List BlockEntry :=
  blocks.filter fun e => resolve e.peerId = person

def BlockEntry.word (e : BlockEntry) : Bool × Int := (e.blocked, e.stamp)

def newer (best : Option (Bool × Int)) (e : BlockEntry) : Option (Bool × Int) :=
  match best with
  | none => some e.word
  | some w => if wordKey w ≤ wordKey e.word then some e.word else some w

theorem noteNewest_other {newest : Map (Bool × Int)} {entry : BlockEntry}
    (hne : resolve entry.peerId ≠ person) :
    (noteNewest resolve localMaster ceiling newest entry)[person]? = newest[person]? := by
  rw [noteNewest]
  dsimp only
  split_ifs
  · rfl
  · simp [Std.ExtTreeMap.getElem?_insert, hne]
  · rfl

section Takes

variable (htakes : takesAbout resolve localMaster person = true)
include htakes

theorem noteNewest_self {newest : Map (Bool × Int)} {entry : BlockEntry}
    (hperson : resolve entry.peerId = person) (hpos : 0 < entry.stamp)
    (hceiling : entry.stamp ≤ ceiling) :
    (noteNewest resolve localMaster ceiling newest entry)[person]? =
      newer newest[person]? entry := by
  have hcounts : (entry.stamp ≤ 0 || !takesAbout resolve localMaster (resolve entry.peerId)) =
      false := by
    simp [hperson, htakes, hpos]
  unfold noteNewest newer
  dsimp only
  rw [hcounts, hperson, min_eq_left hceiling]
  cases hword : newest[person]? with
  | none => simp [BlockEntry.word]
  | some w =>
    have hiff : (w.2 < entry.stamp || (w.2 = entry.stamp && entry.blocked)) = true ∨
        w = entry.word ↔ wordKey w ≤ wordKey entry.word := by
      rw [wordKey_le_iff]
      obtain ⟨b, t⟩ := w
      cases b <;> cases hb : entry.blocked <;> simp [BlockEntry.word, hb]
    by_cases hbest : (w.2 < entry.stamp || (w.2 = entry.stamp && entry.blocked)) = true
    · have hle := hiff.1 (.inl hbest)
      simp only [Option.all_some, hbest, if_true, if_pos hle, Bool.false_eq_true, if_false,
        Std.ExtTreeMap.getElem?_insert_self]
      rfl
    · by_cases heq : w = entry.word
      · simp [hbest, hword, ← heq]
      · have hnot : ¬ wordKey w ≤ wordKey entry.word := fun h => (hiff.2 h).elim hbest heq
        simp [hbest, hword, hnot]

theorem foldl_noteNewest
    (hwithin : ∀ e ∈ about resolve person blocks, 0 < e.stamp ∧ e.stamp ≤ ceiling)
    (newest : Map (Bool × Int)) :
    (blocks.foldl (noteNewest resolve localMaster ceiling) newest)[person]? =
      (about resolve person blocks).foldl newer newest[person]? := by
  induction blocks generalizing newest with
  | nil => rfl
  | cons e blocks ih =>
    rw [List.foldl_cons]
    by_cases hperson : resolve e.peerId = person
    · have habout : about resolve person (e :: blocks) = e :: about resolve person blocks := by
        simp [about, hperson]
      rw [habout] at hwithin ⊢
      obtain ⟨⟨hpos, hceiling⟩, hrest⟩ := List.forall_mem_cons.1 hwithin
      rw [ih hrest, List.foldl_cons, noteNewest_self htakes hperson hpos hceiling]
    · have habout : about resolve person (e :: blocks) = about resolve person blocks := by
        simp [about, hperson]
      rw [habout] at hwithin ⊢
      rw [ih hwithin, noteNewest_other hperson]

/-- The newest word of a list of entries. -/
structure Newest (entries : List BlockEntry) (w : Bool × Int) : Prop where
  mem : ∃ e ∈ entries, e.word = w
  ge : ∀ e ∈ entries, wordKey e.word ≤ wordKey w

omit htakes in
theorem foldl_newest (e : BlockEntry) (entries : List BlockEntry) :
    ∃ w, entries.foldl newer (some e.word) = some w ∧ Newest (e :: entries) w := by
  induction entries generalizing e with
  | nil => exact ⟨_, rfl, ⟨e, List.mem_cons_self, rfl⟩, by simp⟩
  | cons next entries ih =>
    rw [List.foldl_cons, newer]
    split_ifs with hle
    · obtain ⟨w, hw, ⟨a, ha, hword⟩, hge⟩ := ih next
      exact ⟨w, hw, ⟨a, List.mem_cons_of_mem _ ha, hword⟩,
        List.forall_mem_cons.2 ⟨hle.trans (hge next List.mem_cons_self), hge⟩⟩
    · obtain ⟨w, hw, ⟨a, ha, hword⟩, hge⟩ := ih e
      obtain ⟨hge, hrest⟩ := List.forall_mem_cons.1 hge
      exact ⟨w, hw, ⟨a, by grind, hword⟩, List.forall_mem_cons.2
        ⟨hge, List.forall_mem_cons.2 ⟨(not_le.1 hle).le.trans hge, hrest⟩⟩⟩

/-- A list does to a person's word what its newest entry about it does. -/
theorem word_takeSiblingBlocks (s : BlockStore) (hlimit : blocks.length ≤ maxSharedRemovals)
    (hwithin : ∀ e ∈ about resolve person blocks, 0 < e.stamp ∧ e.stamp ≤ ceiling) :
    (about resolve person blocks = [] ∧
        (takeSiblingBlocks resolve localMaster s blocks ceiling).word person = s.word person) ∨
      ∃ w, Newest (about resolve person blocks) w ∧
        (takeSiblingBlocks resolve localMaster s blocks ceiling).word person =
          (s.word person).take w := by
  rw [takeSiblingBlocks, List.take_of_length_le hlimit]
  have hfold := foldl_noteNewest htakes hwithin ∅
  rw [Std.ExtTreeMap.getElem?_empty] at hfold
  cases habout : about resolve person blocks with
  | nil =>
    rw [habout] at hfold
    refine .inl ⟨rfl, word_foldl_of_not_mem (fun w hw heq => ?_) s⟩
    have hsome := Std.ExtTreeMap.mem_toList_iff_getElem?_eq_some.1 hw
    rw [heq, hfold] at hsome
    cases hsome
  | cons e entries =>
    rw [habout, List.foldl_cons] at hfold
    obtain ⟨w, hw, hnewest⟩ := foldl_newest e entries
    refine .inr ⟨w, hnewest, word_foldl_of_mem ?_
      (Std.ExtTreeMap.mem_toList_iff_getElem?_eq_some.2 (hfold.trans hw)) rfl⟩
    refine List.pairwise_map.2 (Std.ExtTreeMap.distinct_keys_toList.imp fun hne heq => hne ?_)
    exact Std.LawfulEqCmp.compare_eq_iff_eq.2 heq

end Takes

theorem word_takeSiblingBlocks_own (htakes : takesAbout resolve localMaster person = false) :
    (takeSiblingBlocks resolve localMaster s blocks ceiling).word person = s.word person := by
  have hnone : ∀ (entries : List BlockEntry) (newest : Map (Bool × Int)), newest[person]? = none →
      (entries.foldl (noteNewest resolve localMaster ceiling) newest)[person]? = none := by
    intro entries
    induction entries with
    | nil => exact fun _ h => h
    | cons e entries ih =>
      intro newest h
      refine ih _ ?_
      by_cases hperson : resolve e.peerId = person
      · simp [noteNewest, hperson, htakes, h]
      · rw [noteNewest_other hperson, h]
  rw [takeSiblingBlocks]
  refine word_foldl_of_not_mem (fun w hw heq => ?_) s
  have hsome := Std.ExtTreeMap.mem_toList_iff_getElem?_eq_some.1 hw
  rw [heq, hnone _ _ Std.ExtTreeMap.getElem?_empty] at hsome
  cases hsome

/-- A delivery of entries about a person: lists within the limit, cut by no ceiling, with just
these entries about it among whatever they say of others. -/
structure Delivers (resolve : String → String) (person : String) (entries : Finset BlockEntry)
    (lists : List Shared) : Prop where
  limit : ∀ l ∈ lists, l.blocks.length ≤ maxSharedRemovals
  ceiling : ∀ l ∈ lists, ∀ e ∈ about resolve person l.blocks, e.stamp ≤ l.ceiling
  entries : ∀ e, e ∈ entries ↔ ∃ l ∈ lists, e ∈ about resolve person l.blocks

/-- The entry with the greatest stamp is a block, a block winning a tie. -/
def BlockStands (entries : Finset BlockEntry) : Prop :=
  ∃ e ∈ entries, e.blocked = true ∧ ∀ e' ∈ entries, e'.stamp ≤ e.stamp

theorem isBlocked_iff : s.isBlocked person ↔ (s.word person).since.isSome = true :=
  Std.ExtTreeMap.isSome_getElem?_iff_mem.symm

/-- A list within the limits, whose entries about a person are of a set. -/
structure Shared.Tells (resolve : String → String) (person : String) (entries : Finset BlockEntry)
    (l : Shared) : Prop where
  limit : l.blocks.length ≤ maxSharedRemovals
  within : ∀ e ∈ about resolve person l.blocks, 0 < e.stamp ∧ e.stamp ≤ l.ceiling
  mem : ∀ e ∈ about resolve person l.blocks, e ∈ entries

variable {entries : Finset BlockEntry}

theorem Delivers.tells (h : Delivers resolve person entries lists)
    (hpos : ∀ e ∈ entries, 0 < e.stamp) : ∀ l ∈ lists, l.Tells resolve person entries :=
  fun l hl =>
    have hmem : ∀ e ∈ about resolve person l.blocks, e ∈ entries := fun e he =>
      (h.entries e).2 ⟨l, hl, he⟩
    ⟨h.limit l hl, fun e he => ⟨hpos e (hmem e he), h.ceiling l hl e he⟩, hmem⟩

section Takes

variable (htakes : takesAbout resolve localMaster person = true)
include htakes

theorem word_takeAll {inv : Word → Prop}
    (hstep : ∀ v w, inv v → (∃ e ∈ entries, e.word = w) → inv (v.take w))
    (hlists : ∀ l ∈ lists, l.Tells resolve person entries)
    (hs : inv (s.word person)) : inv ((takeAll resolve localMaster s lists).word person) := by
  induction lists generalizing s with
  | nil => exact hs
  | cons l lists ih =>
    obtain ⟨hl, hlists⟩ := List.forall_mem_cons.1 hlists
    refine ih hlists ?_
    rcases word_takeSiblingBlocks htakes s hl.limit hl.within with ⟨-, hsame⟩ | ⟨w, hnewest, hw⟩
    · rw [hsame]
      exact hs
    · obtain ⟨e, he, rfl⟩ := hnewest.mem
      rw [hw]
      exact hstep _ _ hs ⟨e, hl.mem e he, rfl⟩

/-- What taking a word at least as new as an entry brings about, and later words keep, holds after
every delivery of that entry. -/
theorem word_takeAll_of_mem (hpos : ∀ e ∈ entries, 0 < e.stamp) (inv done : Word → Prop)
    (hstep : ∀ v w, inv v → (∃ e ∈ entries, e.word = w) → inv (v.take w)) {top : BlockEntry}
    (htop : ∀ v w, inv v → (∃ e ∈ entries, e.word = w) → wordKey top.word ≤ wordKey w →
      done (v.take w))
    (hdone : ∀ v w, inv v → done v → (∃ e ∈ entries, e.word = w) → done (v.take w))
    (hlists : Delivers resolve person entries lists) (hmem : top ∈ entries)
    (hs : inv (BlockStore.word {} person)) :
    done ((takeAll resolve localMaster {} lists).word person) := by
  obtain ⟨l, hl, htop'⟩ := (hlists.entries top).1 hmem
  have htells := hlists.tells hpos
  obtain ⟨before, after, rfl⟩ := List.append_of_mem hl
  obtain ⟨htold, hrest⟩ := List.forall_mem_append.1 htells
  obtain ⟨hlist, hafter⟩ := List.forall_mem_cons.1 hrest
  have hbefore := word_takeAll htakes hstep htold hs
  have hsplit : takeAll resolve localMaster {} (before ++ l :: after) =
      takeAll resolve localMaster (takeSiblingBlocks resolve localMaster
        (takeAll resolve localMaster {} before) l.blocks l.ceiling) after := by
    rw [takeAll, takeAll, takeAll, List.foldl_append, List.foldl_cons]
  have hboth : ∀ v w, inv v ∧ done v → (∃ e ∈ entries, e.word = w) →
      inv (v.take w) ∧ done (v.take w) :=
    fun v w hv hw => ⟨hstep v w hv.1 hw, hdone v w hv.1 hv.2 hw⟩
  rw [hsplit]
  refine (word_takeAll htakes hboth hafter ?_).2
  rcases word_takeSiblingBlocks htakes (takeAll resolve localMaster {} before) hlist.limit
      hlist.within with ⟨hnil, -⟩ | ⟨w, hnewest, hw⟩
  · rw [hnil] at htop'
    cases htop'
  · obtain ⟨e, he, rfl⟩ := hnewest.mem
    rw [hw]
    exact ⟨hstep _ _ hbefore ⟨e, hlist.mem e he, rfl⟩,
      htop _ _ hbefore ⟨e, hlist.mem e he, rfl⟩ (hnewest.ge top htop')⟩

end Takes

variable {e : BlockEntry}

theorem Word.take_block (h : e.blocked = true) : v.take e.word =
    if v.since.isNone && v.lifted ≤ e.stamp then ⟨some e.stamp, v.lifted⟩ else v := by
  simp [Word.take, BlockEntry.word, h]

theorem Word.take_lifting (h : e.blocked = false) : v.take e.word =
    if v.since.all (· < e.stamp) then ⟨none, max e.stamp v.lifted⟩ else v := by
  simp [Word.take, BlockEntry.word, h]

theorem word_empty : BlockStore.word {} person = ⟨none, 0⟩ := by
  simp [BlockStore.word, BlockStore.blockLiftedAt]

/-- A word under which no lifting of the set undoes a block. -/
structure Firm (entries : Finset BlockEntry) (v : Word) : Prop where
  lifted : ∀ b ∈ entries, b.blocked = true → v.lifted ≤ b.stamp
  since : ∀ t, v.since = some t → ∃ b ∈ entries, b.blocked = true ∧ b.stamp = t

theorem Firm.take (hbelow : ∀ b ∈ entries, ∀ l ∈ entries, b.blocked = true → l.blocked = false →
      l.stamp ≤ b.stamp) (hv : Firm entries v) (he : e ∈ entries) :
    Firm entries (v.take e.word) ∧ (v.since.isSome = true ∨ e.blocked = true →
      (v.take e.word).since.isSome = true) := by
  cases hblocked : e.blocked with
  | true =>
    rw [Word.take_block hblocked]
    split_ifs with hland
    · refine ⟨⟨hv.lifted, fun t ht => ?_⟩, fun _ => rfl⟩
      exact ⟨e, he, hblocked, Option.some.inj ht⟩
    · refine ⟨hv, fun _ => ?_⟩
      cases hsince : v.since with
      | none => simp [hsince, hv.lifted e he hblocked] at hland
      | some t => rfl
  | false =>
    rw [Word.take_lifting hblocked]
    cases hsince : v.since with
    | none =>
      refine ⟨⟨fun b hb hbb => ?_, by simp⟩, by simp⟩
      exact max_le (hbelow b hb e he hbb hblocked) (hv.lifted b hb hbb)
    | some t =>
      obtain ⟨b, hb, hbb, rfl⟩ := hv.since t hsince
      have hnot : ¬ b.stamp < e.stamp := not_lt.2 (hbelow b hb e he hbb hblocked)
      simpa [hnot, hsince] using hv

section Stands

variable (htakes : takesAbout resolve localMaster person = true)
  (hpos : ∀ e ∈ entries, 0 < e.stamp)
include htakes hpos

/-- Where no lifting is newer than a block, a newest block stands after every delivery. -/
theorem isBlocked_of_stands
    (hbelow : ∀ b ∈ entries, ∀ l ∈ entries, b.blocked = true → l.blocked = false →
      l.stamp ≤ b.stamp) (hstands : BlockStands entries)
    (hlists : Delivers resolve person entries lists) :
    (takeAll resolve localMaster {} lists).isBlocked person := by
  obtain ⟨top, hmem, hblocked, hmax⟩ := hstands
  rw [isBlocked_iff]
  have hstep : ∀ v w, Firm entries v → (∃ e ∈ entries, e.word = w) → Firm entries (v.take w) := by
    rintro v w hv ⟨e, he, rfl⟩
    exact (hv.take hbelow he).1
  refine word_takeAll_of_mem htakes hpos (Firm entries) (fun v => v.since.isSome = true) hstep ?_ ?_
    hlists hmem ?_
  · rintro v w hv ⟨e, he, rfl⟩ hle
    refine (hv.take hbelow he).2 (.inr ?_)
    -- The newest entry has the stamp of the greatest block, and so is a block.
    rw [wordKey_le_iff] at hle
    rcases hle with hlt | ⟨-, hle⟩
    · exact absurd (hmax e he) (not_le.2 hlt)
    · have htop : top.word.1 = true := hblocked
      rw [htop] at hle
      exact Bool.eq_true_of_true_le hle
  · rintro v w hv hdone ⟨e, he, rfl⟩
    exact (hv.take hbelow he).2 (.inl hdone)
  · rw [word_empty]
    exact ⟨fun b hb _ => (hpos b hb).le, by simp⟩

/-- A lifting newer than every block undoes them in every delivery. -/
theorem not_isBlocked_of_lifting {top : BlockEntry} (hmem : top ∈ entries)
    (hmax : ∀ e ∈ entries, e.stamp ≤ top.stamp)
    (hblocks : ∀ e ∈ entries, e.blocked = true → e.stamp < top.stamp)
    (hlists : Delivers resolve person entries lists) :
    ¬ (takeAll resolve localMaster {} lists).isBlocked person := by
  rw [isBlocked_iff]
  have hend : ∀ v : Word, v.since = none ∧ top.stamp ≤ v.lifted → ¬ v.since.isSome = true := by
    rintro v ⟨hnone, -⟩
    simp [hnone]
  refine hend _ (word_takeAll_of_mem htakes hpos (fun v => ∀ t, v.since = some t → t < top.stamp)
    (fun v => v.since = none ∧ top.stamp ≤ v.lifted) ?_ ?_ ?_ hlists hmem ?_)
  · rintro v w hv ⟨e, he, rfl⟩ t ht
    cases hblocked : e.blocked with
    | true =>
      rw [Word.take_block hblocked] at ht
      split_ifs at ht
      · obtain rfl := Option.some.inj ht
        exact hblocks e he hblocked
      · exact hv t ht
    | false =>
      rw [Word.take_lifting hblocked] at ht
      split_ifs at ht
      exact hv t ht
  · rintro v w hv ⟨e, he, rfl⟩ hle
    have hstamp : e.stamp = top.stamp := by
      refine le_antisymm (hmax e he) ?_
      rcases wordKey_le_iff.1 hle with hlt | ⟨heq, -⟩
      · exact hlt.le
      · exact heq.le
    have hlifting : e.blocked = false := by
      by_contra hblocked
      exact absurd (hblocks e he (by simpa using hblocked)) (by omega)
    have hall : v.since.all (· < e.stamp) = true := by
      cases hsince : v.since with
      | none => rfl
      | some t => simpa [hstamp] using hv t hsince
    rw [Word.take_lifting hlifting, if_pos hall]
    exact ⟨rfl, hstamp ▸ le_max_left _ _⟩
  · rintro v w - ⟨hnone, hlifted⟩ ⟨e, he, rfl⟩
    cases hblocked : e.blocked with
    | true =>
      have hlate : ¬ v.lifted ≤ e.stamp := not_le.2 ((hblocks e he hblocked).trans_le hlifted)
      rw [Word.take_block hblocked]
      simp [hlate, hnone, hlifted]
    | false =>
      rw [Word.take_lifting hblocked]
      simp [hnone, hlifted]
  · rw [word_empty]
    simp

end Stands

def singles (es : List BlockEntry) : List Shared := es.map fun e => ⟨[e], e.stamp⟩

theorem delivers_singles (es : List BlockEntry) (hmem : ∀ e, e ∈ entries ↔ e ∈ es)
    (habout : ∀ e ∈ entries, resolve e.peerId = person) :
    Delivers resolve person entries (singles es) where
  limit := by simp [singles, maxSharedRemovals]
  ceiling := by
    intro l hl e he
    obtain ⟨a, -, rfl⟩ := List.mem_map.1 hl
    obtain rfl := List.mem_singleton.1 (List.mem_filter.1 he).1
    exact le_rfl
  entries := by
    intro e
    constructor
    · intro he
      exact ⟨_, List.mem_map_of_mem ((hmem e).1 he), by simp [about, habout e he]⟩
    · rintro ⟨l, hl, he⟩
      obtain ⟨a, ha, rfl⟩ := List.mem_map.1 hl
      obtain rfl := List.mem_singleton.1 (List.mem_filter.1 he).1
      exact (hmem e).2 ha

theorem word_takeAll_singles (htakes : takesAbout resolve localMaster person = true)
    (hes : ∀ e ∈ es, resolve e.peerId = person ∧ 0 < e.stamp) (s : BlockStore) :
    (takeAll resolve localMaster s (singles es)).word person =
      es.foldl (fun v e => v.take e.word) (s.word person) := by
  induction es generalizing s with
  | nil => rfl
  | cons e es ih =>
    obtain ⟨⟨hperson, hpos⟩, hes⟩ := List.forall_mem_cons.1 hes
    have habout : about resolve person [e] = [e] := by simp [about, hperson]
    have hfirst : (takeSiblingBlocks resolve localMaster s [e] e.stamp).word person =
        (s.word person).take e.word := by
      have hwithin : ∀ a ∈ about resolve person [e], 0 < a.stamp ∧ a.stamp ≤ e.stamp := by
        simp [habout, hpos]
      rcases word_takeSiblingBlocks htakes s (by simp [maxSharedRemovals]) hwithin with
        ⟨hnil, -⟩ | ⟨w, hnewest, hw⟩
      · simp [habout] at hnil
      · obtain ⟨a, ha, rfl⟩ := hnewest.mem
        rw [habout, List.mem_singleton] at ha
        rw [hw, ha]
    exact (ih hes _).trans (by rw [hfirst, List.foldl_cons])

theorem foldl_blocks (hes : ∀ e ∈ es, e.blocked = true) (hv : v.since.isSome = true) :
    es.foldl (fun v e => v.take e.word) v = v := by
  induction es with
  | nil => rfl
  | cons e es ih =>
    obtain ⟨he, hes⟩ := List.forall_mem_cons.1 hes
    have hsame : v.take e.word = v := by
      obtain ⟨t, ht⟩ := Option.isSome_iff_exists.1 hv
      simp [Word.take, BlockEntry.word, he, ht]
    rw [List.foldl_cons, hsame, ih hes]

theorem foldl_liftings (hes : ∀ e ∈ es, e.blocked = false)
    (hv : ∀ t, v.since = some t → ∃ l ∈ es, t < l.stamp) :
    (es.foldl (fun v e => v.take e.word) v).since = none := by
  induction es generalizing v with
  | nil =>
    rw [Option.eq_none_iff_forall_ne_some]
    intro t ht
    obtain ⟨l, hl, -⟩ := hv t ht
    cases hl
  | cons e es ih =>
    obtain ⟨he, hes⟩ := List.forall_mem_cons.1 hes
    refine ih hes fun t ht => ?_
    beta_reduce at ht
    rw [Word.take_lifting he] at ht
    split_ifs at ht with hlands
    obtain ⟨l, hl, hlt⟩ := hv t ht
    rcases List.mem_cons.1 hl with rfl | hl
    · simp [ht, hlt] at hlands
    · exact ⟨l, hl, hlt⟩

theorem not_isBlocked_of_earlyBlock (htakes : takesAbout resolve localMaster person = true)
    (habout : ∀ e ∈ entries, resolve e.peerId = person) (hpos : ∀ e ∈ entries, 0 < e.stamp)
    {b l : BlockEntry} (hb : b ∈ entries) (hl : l ∈ entries) (hblock : b.blocked = true)
    (hlift : l.blocked = false) (hlt : b.stamp < l.stamp) :
    ∃ lists, Delivers resolve person entries lists ∧
      ¬ (takeAll resolve localMaster {} lists).isBlocked person := by
  let blocks := entries.toList.filter (·.blocked)
  let liftings := entries.toList.filter (!·.blocked)
  have hmem : ∀ e, e ∈ entries ↔ e ∈ b :: (blocks ++ liftings) := by
    intro e
    simp only [blocks, liftings, List.mem_cons, List.mem_append, List.mem_filter,
      Finset.mem_toList]
    cases hblocked : e.blocked <;> grind
  refine ⟨_, delivers_singles _ hmem habout, ?_⟩
  have hes : ∀ e ∈ b :: (blocks ++ liftings), resolve e.peerId = person ∧ 0 < e.stamp :=
    fun e he => ⟨habout e ((hmem e).2 he), hpos e ((hmem e).2 he)⟩
  have hfirst : (BlockStore.word {} person).take b.word = ⟨some b.stamp, 0⟩ := by
    simp [word_empty, Word.take, BlockEntry.word, hblock, (hpos b hb).le]
  rw [isBlocked_iff, word_takeAll_singles htakes hes, List.foldl_cons, List.foldl_append, hfirst,
    foldl_blocks (fun e he => (List.mem_filter.1 he).2) rfl, foldl_liftings]
  · simp
  · intro e he
    simpa using (List.mem_filter.1 he).2
  · rintro t ⟨⟩
    exact ⟨l, by simp [liftings, hl, hlift], hlt⟩

theorem not_isBlocked_of_untaken (htakes : takesAbout resolve localMaster person = false)
    (lists : List Shared) : ¬ (takeAll resolve localMaster {} lists).isBlocked person := by
  have hsame : ∀ s, (takeAll resolve localMaster s lists).word person = s.word person := by
    induction lists with
    | nil => exact fun _ => rfl
    | cons l lists ih => exact fun s => (ih _).trans (word_takeSiblingBlocks_own htakes)
  rw [isBlocked_iff, hsame, word_empty]
  simp

/-- Every delivery ends blocked just when the newest entry is a block, if and only if entries about
the person are taken and no lifting is newer than a block, wherever the newest entry is a block. -/
theorem blocks_agree_iff (resolve : String → String) (localMaster person : String)
    (entries : Finset BlockEntry) (habout : ∀ e ∈ entries, resolve e.peerId = person)
    (hpos : ∀ e ∈ entries, 0 < e.stamp) :
    (∀ lists, Delivers resolve person entries lists →
        ((takeAll resolve localMaster {} lists).isBlocked person ↔ BlockStands entries)) ↔
      (BlockStands entries → takesAbout resolve localMaster person = true ∧
        ∀ b ∈ entries, ∀ l ∈ entries, b.blocked = true → l.blocked = false →
          l.stamp ≤ b.stamp) := by
  constructor
  · intro hagree hstands
    by_cases htakes : takesAbout resolve localMaster person = true
    · refine ⟨htakes, fun b hb l hl hblock hlift => ?_⟩
      by_contra hlt
      obtain ⟨lists, hlists, hnot⟩ := not_isBlocked_of_earlyBlock htakes habout hpos hb hl hblock
        hlift (not_le.1 hlt)
      exact hnot ((hagree lists hlists).2 hstands)
    · have hlists : Delivers resolve person entries (singles entries.toList) :=
        delivers_singles _ (fun e => Finset.mem_toList.symm) habout
      exact absurd ((hagree _ hlists).2 hstands)
        (not_isBlocked_of_untaken (by simpa using htakes) _)
  · intro hcondition lists hlists
    by_cases hstands : BlockStands entries
    · obtain ⟨htakes, hbelow⟩ := hcondition hstands
      exact iff_of_true (isBlocked_of_stands htakes hpos hbelow hstands hlists) hstands
    · refine iff_of_false ?_ hstands
      by_cases htakes : takesAbout resolve localMaster person = true
      · rcases entries.eq_empty_or_nonempty with rfl | hne
        · have hnone : ((takeAll resolve localMaster {} lists).word person).since = none := by
            have hstep : ∀ (v : Word) (w : Bool × Int), v.since = none →
                (∃ e ∈ (∅ : Finset BlockEntry), e.word = w) → (v.take w).since = none := by simp
            exact word_takeAll htakes hstep (hlists.tells hpos) (by rw [word_empty])
          rw [isBlocked_iff, hnone]
          simp
        · obtain ⟨top, hmem, hmax⟩ := entries.exists_max_image BlockEntry.stamp hne
          refine not_isBlocked_of_lifting htakes hpos hmem hmax (fun e he hblocked => ?_) hlists
          refine lt_of_le_of_ne (hmax e he) fun heq => hstands ⟨e, he, hblocked, ?_⟩
          exact heq ▸ hmax
      · exact not_isBlocked_of_untaken (by simpa using htakes) _

/-- Lifted at 4, and blocked at 9 and at 12. -/
def settledEntries : Finset BlockEntry := {⟨"ann", true, 9⟩, ⟨"ann", true, 12⟩, ⟨"ann", false, 4⟩}

theorem blocks_agree_lifted_first : BlockStands settledEntries ∧
    ∀ lists, Delivers id "ann" settledEntries lists →
      (takeAll id "me" {} lists).isBlocked "ann" := by
  have hstands : BlockStands settledEntries := ⟨⟨"ann", true, 12⟩, by decide⟩
  have hagree := (blocks_agree_iff id "me" "ann" settledEntries (by decide) (by decide)).2
    fun _ => ⟨by decide, by decide⟩
  exact ⟨hstands, fun lists hlists => (hagree lists hlists).2 hstands⟩

/-- Blocked at 1, again at 5 elsewhere, and lifted at 3. -/
def overtakenEntries : Finset BlockEntry := {⟨"ann", true, 1⟩, ⟨"ann", true, 5⟩, ⟨"ann", false, 3⟩}

/-- Taken in that order, the block at 5 is not kept and the lifting at 3 undoes the one at 1. -/
theorem not_blocks_agree : BlockStands overtakenEntries ∧ ∃ lists,
    Delivers id "ann" overtakenEntries lists ∧ ¬ (takeAll id "me" {} lists).isBlocked "ann" := by
  refine ⟨⟨⟨"ann", true, 5⟩, by decide⟩, ?_⟩
  refine ⟨_, delivers_singles
    [⟨"ann", true, 1⟩, ⟨"ann", true, 5⟩, ⟨"ann", false, 3⟩] ?_ (by decide), ?_⟩
  · simp [overtakenEntries]
  · rw [isBlocked_iff]
    decide +kernel

end Hollow.Social
