import Hollow.Store.SyncPage

/-! Paging through the history of a direct conversation. The asker follows `dm_next_page_since`
from page to page; `dmPaging_complete` says what has been served when it ends. -/

namespace Hollow.Store

def getDmMessagesSince (rows : List StoredMessage) (peerId : String) (since : Int) (limit : Nat) :
    List StoredMessage :=
  history rows
    (fun m => m.place = peerId && m.isMine && (since ≤ m.timestamp || atOrAfter m.updatedAt since))
    limit

/-- The rows of both directions after `since`, and those changed at or after it. -/
def getDmMessagesForSibling (rows : List StoredMessage) (peerId : String) (since : Int)
    (limit : Nat) : List StoredMessage :=
  history rows
    (fun m => m.place = peerId && (since < m.timestamp || atOrAfter m.updatedAt since)) limit

def dmNextPageSince (items : List DmSyncItem) (strict : Bool) : Option Int :=
  match (items.map (·.ts)).max? with
  | none => none
  | some last =>
    let since := if strict then last - 1 else last
    let servedAgain (m : DmSyncItem) : Bool :=
      (if strict then since < m.ts else since ≤ m.ts) ||
        (max m.editedAt m.hiddenAt).any (since ≤ ·)
    if items.all servedAgain then none else some since

/-- The answering device: its rows, the deletions it can prove, the conversation that is asked for,
and whether both directions are. -/
structure DmAnswerer where
  rows : List StoredMessage
  proofs : DeletionProofs
  peerId : String
  strict : Bool

namespace DmAnswerer

variable (d : DmAnswerer)

def eligible (m : StoredMessage) : Bool := m.place = d.peerId && (d.strict || m.isMine)

def qualifies (since : Int) (m : StoredMessage) : Bool :=
  d.eligible m &&
    ((if d.strict then since < m.timestamp else since ≤ m.timestamp) ||
      atOrAfter m.updatedAt since)

def query (since : Int) : List StoredMessage :=
  if d.strict then getDmMessagesForSibling d.rows d.peerId since pageLimit
  else getDmMessagesSince d.rows d.peerId since pageLimit

def page (since : Int) : SyncPage Bool := buildDmSyncItems d.proofs (d.query since)

def hasMore (since : Int) : Bool :=
  (d.page since).truncated || pageLimit ≤ (d.page since).items.length

def served (since : Int) : List StoredMessage :=
  (packRows syncPreviewBudgetBytes 0 (d.query since)).1

def next (since : Int) : Option Int :=
  if d.hasMore since then dmNextPageSince (d.page since).items d.strict else none

/-- The asks from `since` on, up to the one after which paging ends. -/
inductive Chain (d : DmAnswerer) : Int → List Int → Int → Prop where
  | last {since : Int} : d.next since = none → Chain d since [since] since
  | more {since since' last : Int} {asks : List Int} : d.next since = some since' →
      Chain d since' asks last → Chain d since (since :: asks) last

variable {d} {since since' last : Int} {asks : List Int} {m : StoredMessage}

theorem query_eq : d.query since = history d.rows (d.qualifies since) pageLimit := by
  unfold query qualifies eligible getDmMessagesForSibling getDmMessagesSince
  cases d.strict <;> simp [Bool.and_assoc]

theorem items_page : (d.page since).items =
    (d.served since).map (syncItem d.proofs (·.isMine)) := rfl

theorem le_length_served (h : d.hasMore since = true) :
    minItemsBeforeTruncation ≤ (d.served since).length := by
  rw [hasMore, Bool.or_eq_true, items_page, List.length_map, decide_eq_true_eq] at h
  rcases h with htruncated | hfull
  · simpa [served] using le_length_packRows htruncated
  · exact le_trans (by decide) hfull

theorem served_prefix : d.served since <+: d.query since := packRows_prefix _ _ _

theorem served_subset (hm : m ∈ d.served since) : m ∈ d.rows ∧ d.qualifies since m := by
  have hquery := served_prefix.subset hm
  rw [query_eq] at hquery
  exact mem_of_mem_history hquery

theorem mem_served_of_not_hasMore (h : d.hasMore since = false) (hm : m ∈ d.rows)
    (hq : d.qualifies since m) : m ∈ d.served since := by
  rw [hasMore, Bool.or_eq_false_iff, items_page, List.length_map, decide_eq_false_iff_not] at h
  have hall : d.served since = d.query since := packRows_of_not_truncated h.1
  rw [hall, query_eq] at h ⊢
  exact mem_history_of_length_lt (not_le.1 h.2) hm hq

theorem timestamp_le_of_not_mem_served (hm : m ∈ d.rows) (hq : d.qualifies since m)
    (hout : m ∉ d.served since) {m' : StoredMessage} (hm' : m' ∈ d.served since) :
    m'.timestamp ≤ m.timestamp := by
  have hprefix : d.served since <+:
      StableSort.sortBy StoredRow.historyKey (d.rows.filter (d.qualifies since)) := by
    refine served_prefix.trans ?_
    rw [query_eq]
    exact history_prefix
  refine StoredRow.timestamp_le (StableSort.key_le_of_prefix StableSort.sorted_sortBy hprefix ?_
    hout hm')
  exact StableSort.mem_sortBy.2 (List.mem_filter.2 ⟨hm, hq⟩)

def changedAt (d : DmAnswerer) (m : StoredMessage) : Option Int :=
  max m.editedAt (deletionProofFields d.proofs m.hiddenAt m.messageId).1

def servedAgain (d : DmAnswerer) (since : Int) (m : StoredMessage) : Bool :=
  (if d.strict then since < m.timestamp else since ≤ m.timestamp) ||
    (d.changedAt m).any (since ≤ ·)

/-- Where the ask after a page that ends at `last` starts. -/
def nextSince (d : DmAnswerer) (last : Int) : Int := if d.strict then last - 1 else last

theorem dmNextPageSince_page (d : DmAnswerer) (since : Int) :
    dmNextPageSince (d.page since).items d.strict =
      match ((d.served since).map (·.timestamp)).max? with
      | none => none
      | some last =>
        if (d.served since).all (d.servedAgain (d.nextSince last)) then none
        else some (d.nextSince last) := by
  rw [dmNextPageSince, items_page, List.map_map]
  have hmap : ((·.ts) ∘ syncItem d.proofs (·.isMine) : StoredMessage → Int) = (·.timestamp) := rfl
  rw [hmap]
  cases ((d.served since).map (·.timestamp)).max? with
  | none => rfl
  | some last => simp only [List.all_map]; rfl

def EndsAt (d : DmAnswerer) (since last : Int) : Prop :=
  (∀ m ∈ d.served since, m.timestamp ≤ last) ∧ ∃ m ∈ d.served since, m.timestamp = last

theorem endsAt_of_max? {last : Int}
    (h : ((d.served since).map (·.timestamp)).max? = some last) : d.EndsAt since last := by
  obtain ⟨hmem, hle⟩ := List.max?_eq_some_iff.1 h
  exact ⟨fun m hm => hle _ (List.mem_map_of_mem hm), List.mem_map.1 hmem⟩

theorem next_eq_some (h : d.next since = some since') :
    ∃ last, d.EndsAt since last ∧ since' = d.nextSince last ∧
      ∃ m ∈ d.served since, d.servedAgain since' m = false := by
  rw [next] at h
  split_ifs at h with hmore
  rw [dmNextPageSince_page] at h
  cases hmax : ((d.served since).map (·.timestamp)).max? with
  | none => simp [hmax] at h
  | some last =>
    simp only [hmax] at h
    split_ifs at h with hall
    obtain rfl := Option.some_inj.1 h
    simp only [List.all_eq_true, not_forall, Bool.not_eq_true] at hall
    obtain ⟨m, hm, hfresh⟩ := hall
    exact ⟨last, endsAt_of_max? hmax, rfl, m, hm, hfresh⟩

theorem next_eq_none (h : d.next since = none) (hmore : d.hasMore since = true) :
    ∃ last, d.EndsAt since last ∧ ∀ m ∈ d.served since, d.servedAgain (d.nextSince last) m := by
  rw [next, if_pos hmore, dmNextPageSince_page] at h
  cases hmax : ((d.served since).map (·.timestamp)).max? with
  | none =>
    have hempty : d.served since = [] := by simpa using hmax
    have hle := le_length_served hmore
    simp [hempty, minItemsBeforeTruncation] at hle
  | some last =>
    simp only [hmax] at h
    split_ifs at h with hall
    exact ⟨last, endsAt_of_max? hmax, List.all_eq_true.1 hall⟩

theorem qualifies_next (h : d.next since = some since') (hm : m ∈ d.rows)
    (hq : d.qualifies since m) (hout : m ∉ d.served since) : d.qualifies since' m := by
  obtain ⟨last, ⟨-, m', hm', hlast⟩, rfl, -⟩ := next_eq_some h
  have hle := timestamp_le_of_not_mem_served hm hq hout hm'
  rw [qualifies, Bool.and_eq_true] at hq ⊢
  refine ⟨hq.1, ?_⟩
  rw [nextSince]
  cases d.strict <;> simp <;> left <;> omega

/-- A row is never changed later than the edit or deletion it is served with. -/
def ChangesShown (d : DmAnswerer) : Prop :=
  ∀ m ∈ d.rows, ∀ u, m.updatedAt = some u → (d.changedAt m).any (u ≤ ·) = true

/-- The next ask starts later. -/
theorem lt_next (hshown : d.ChangesShown) (h : d.next since = some since') : since < since' := by
  obtain ⟨last, -, -, m, hm, hfresh⟩ := next_eq_some h
  obtain ⟨hrow, hq⟩ := served_subset hm
  rw [servedAgain, Bool.or_eq_false_iff] at hfresh
  rw [qualifies, Bool.and_eq_true, Bool.or_eq_true] at hq
  rcases hq.2 with hsent | hchanged
  · have hbefore := hfresh.1
    cases hstrict : d.strict <;> simp [hstrict] at hsent hbefore <;> omega
  · cases hu : m.updatedAt with
    | none => simp [hu, atOrAfter] at hchanged
    | some u =>
      have hshown := hshown m hrow u hu
      cases hc : d.changedAt m with
      | none => simp [hc] at hshown
      | some c =>
        have hlate := hfresh.2
        simp only [hu, hc, atOrAfter, Option.any_some, decide_eq_true_eq, decide_eq_false_iff_not]
          at hchanged hshown hlate
        omega

theorem Chain.served_or (h : d.Chain since asks last) (hm : m ∈ d.rows) (hq : d.qualifies since m) :
    (∃ s ∈ asks, m ∈ d.served s) ∨ (d.qualifies last m ∧ m ∉ d.served last) := by
  induction h with
  | @last since _ =>
    by_cases hserved : m ∈ d.served since
    · exact .inl ⟨since, by simp, hserved⟩
    · exact .inr ⟨hq, hserved⟩
  | @more since since' last asks hnext _ ih =>
    by_cases hserved : m ∈ d.served since
    · exact .inl ⟨since, by simp, hserved⟩
    · rcases ih (qualifies_next hnext hm hq hserved) with ⟨s, hs, hserved⟩ | hleft
      · exact .inl ⟨s, by simp [hs], hserved⟩
      · exact .inr hleft

theorem Chain.next_last (h : d.Chain since asks last) : d.next last = none := by
  induction h with
  | last h => exact h
  | more _ _ ih => exact ih

/-- Paging ends: each ask moves on while something is left. -/
theorem exists_chain (hshown : d.ChangesShown) (since : Int) :
    ∃ asks last, d.Chain since asks last := by
  obtain ⟨top, htop⟩ : ∃ top : Int, ∀ m ∈ d.rows, m.timestamp ≤ top := by
    obtain ⟨top, htop⟩ := (d.rows.map (·.timestamp)).toFinset.bddAbove
    exact ⟨top, fun m hm => htop (by simpa using ⟨m, hm, rfl⟩)⟩
  -- Each ask starts later than the last one and none starts after the newest row.
  induction hleft : (top - since).toNat using Nat.strong_induction_on generalizing since with
  | _ left ih =>
    cases hnext : d.next since with
    | none => exact ⟨_, _, .last hnext⟩
    | some since' =>
      have hlt := lt_next hshown hnext
      have hle : since' ≤ top := by
        obtain ⟨last, ⟨-, m, hm, rfl⟩, rfl, -⟩ := next_eq_some hnext
        have := htop m (served_subset hm).1
        rw [nextSince]
        split_ifs <;> omega
      obtain ⟨asks, last, hchain⟩ := ih _ (by omega) since' rfl
      exact ⟨_, _, .more hnext hchain⟩

/-- The rows sent at `t`, and the older ones edited or deleted since. -/
def crowd (d : DmAnswerer) (t : Int) : List StoredMessage :=
  d.rows.filter fun m => d.eligible m &&
    (m.timestamp = t || (m.timestamp < t && (d.changedAt m).any (d.nextSince t ≤ ·)))

theorem length_served_le_crowd {last : Int} (hend : d.EndsAt since last)
    (hall : ∀ m ∈ d.served since, d.servedAgain (d.nextSince last) m) :
    (d.served since).length ≤ (d.crowd last).length := by
  have hsubperm : (d.served since).Subperm d.rows := by
    refine served_prefix.sublist.subperm.trans ?_
    rw [query_eq]
    refine .trans history_prefix.sublist.subperm ?_
    exact StableSort.sortBy_perm.subperm.trans List.filter_sublist.subperm
  rw [crowd, ← List.countP_eq_length_filter]
  refine le_trans (List.countP_eq_length.2 fun m hm => ?_).ge (hsubperm.countP_le _)
  have heligible := (served_subset hm).2
  rw [qualifies, Bool.and_eq_true] at heligible
  have hagain := hall m hm
  have hle := hend.1 m hm
  rw [servedAgain, Bool.or_eq_true] at hagain
  simp only [heligible.1, Bool.true_and, Bool.or_eq_true, Bool.and_eq_true, decide_eq_true_eq]
  rcases hagain with hsent | hchanged
  · left
    rw [nextSince] at hsent
    cases hstrict : d.strict <;> simp [hstrict] at hsent <;> omega
  · rcases hle.eq_or_lt with heq | hlt
    · exact .inl heq
    · exact .inr ⟨hlt, hchanged⟩

end DmAnswerer

open DmAnswerer in
/-- Paging ends. When it has ended, what the first ask qualifies was served, unless the last page
has more to come and would be served again as a whole; then only rows at or after its end are left.
That never happens where no 50 rows crowd around a time. -/
theorem dmPaging_complete (d : DmAnswerer) (since : Int) :
    (d.ChangesShown → ∃ asks last, d.Chain since asks last) ∧
      ∀ asks last, d.Chain since asks last →
        (∀ m ∈ d.rows, d.qualifies since m → (∃ s ∈ asks, m ∈ d.served s) ∨
          (d.hasMore last ∧ ∀ m' ∈ d.served last, m'.timestamp ≤ m.timestamp)) ∧
        ((∀ t, (d.crowd t).length < minItemsBeforeTruncation) →
          ∀ m ∈ d.rows, d.qualifies since m → ∃ s ∈ asks, m ∈ d.served s) := by
  refine ⟨fun hshown => exists_chain hshown since, fun asks last hchain =>
    ⟨fun m hm hq => ?_, fun hcrowd m hm hq => ?_⟩⟩
  · rcases hchain.served_or hm hq with hserved | ⟨hq', hout⟩
    · exact .inl hserved
    · refine .inr ⟨?_, fun m' => timestamp_le_of_not_mem_served hm hq' hout⟩
      by_contra hmore
      exact hout (mem_served_of_not_hasMore (by simpa using hmore) hm hq')
  · rcases hchain.served_or hm hq with hserved | ⟨hq', hout⟩
    · exact hserved
    · cases hmore : d.hasMore last with
      | false => exact absurd (mem_served_of_not_hasMore hmore hm hq') hout
      | true =>
        obtain ⟨t, hend, hall⟩ := next_eq_none hchain.next_last hmore
        have hlong := (le_length_served hmore).trans (length_served_le_crowd hend hall)
        exact absurd (hcrowd t) (not_lt.2 hlong)

/-- Our message of millisecond `t`, edited at 1000. -/
def editedRow (t : Nat) : StoredMessage :=
  { place := "p", text := "", isMine := true, timestamp := t, editedAt := some 1000
    updatedAt := some 1000 }

def editedLater (n : Nat) : DmAnswerer where
  rows := (List.range n).map editedRow
  proofs _ := none
  peerId := "p"
  strict := false

theorem count_range_cast_le (n : Nat) (t : Int) : ((List.range n).map Nat.cast).count t ≤ 1 :=
  List.nodup_iff_count_le_one.1 (List.nodup_range.map Nat.cast_injective) t

theorem changesShown_editedLater (n : Nat) : (editedLater n).ChangesShown := by
  intro m hm u hu
  obtain ⟨t, -, rfl⟩ := List.mem_map.1 hm
  obtain rfl : 1000 = u := Option.some_inj.1 hu
  rfl

/-- The same messages, none of them edited. -/
def neverEdited (n : Nat) : DmAnswerer :=
  { editedLater n with
    rows := (List.range n).map fun t => { editedRow t with editedAt := none, updatedAt := none } }

/-- Of 201 messages the first page serves 200, and the second one the last. -/
theorem dmPaging_complete_neverEdited :
    (neverEdited 201).Chain 0 [0, 199] 199 ∧
      (∃ asks last, (neverEdited 201).Chain 0 asks last) ∧
      ∀ m ∈ (neverEdited 201).rows, (neverEdited 201).qualifies 0 m →
        ∃ s ∈ [0, 199], m ∈ (neverEdited 201).served s := by
  have hchain : (neverEdited 201).Chain 0 [0, 199] 199 :=
    .more (by decide +kernel) (.last (by decide +kernel))
  obtain ⟨hends, hcomplete⟩ := dmPaging_complete (neverEdited 201) 0
  refine ⟨hchain, hends fun m hm u hu => ?_, (hcomplete _ _ hchain).2 fun t => ?_⟩
  · obtain ⟨t, -, rfl⟩ := List.mem_map.1 hm
    cases hu
  · have hsent : ((neverEdited 201).crowd t).length ≤ ((List.range 201).map Nat.cast).count t := by
      rw [DmAnswerer.crowd, ← List.countP_eq_length_filter, List.count, List.countP_map,
        neverEdited, List.countP_map]
      refine List.countP_mono_left fun i _ hi => ?_
      simp only [Function.comp_apply, Bool.and_eq_true, Bool.or_eq_true] at hi
      rcases hi.2 with hsame | ⟨-, hchanged⟩
      · have hsame : (i : Int) = t := of_decide_eq_true hsame
        simpa using hsame
      · cases hchanged
    exact (hsent.trans (count_range_cast_le 201 t)).trans_lt (by decide)

/-- Of 201 messages edited after the last of them was sent the first page serves 200. All of them
would be served again, so paging ends there and the last message is not served. -/
theorem not_dmPaging_complete_editedLater :
    (∀ t, ((editedLater 201).rows.map (·.timestamp)).count t < 50) ∧
      (editedLater 201).ChangesShown ∧
      ∃ m ∈ (editedLater 201).rows, (editedLater 201).qualifies 0 m ∧
        ∀ asks last, (editedLater 201).Chain 0 asks last →
          ∀ s ∈ asks, m ∉ (editedLater 201).served s := by
  refine ⟨fun t => ?_, changesShown_editedLater 201, editedRow 200, ?_, by decide, ?_⟩
  · rw [editedLater, List.map_map]
    exact (count_range_cast_le 201 t).trans_lt (by decide)
  · exact List.mem_map_of_mem (by simp)
  · intro asks last hchain s hs
    have hend : (editedLater 201).next 0 = none := by decide +kernel
    have hout : editedRow 200 ∉ (editedLater 201).served 0 := by decide +kernel
    cases hchain with
    | last _ => rwa [List.mem_singleton.1 hs]
    | more hnext _ => rw [hend] at hnext; cases hnext

end Hollow.Store
