import Hollow.Mls.Rate

/-! What the rate rule bounds over a whole chain of commits. The tree states the master's last
charges as long as they count (`Tracks`): every commit that could change what it states is judged
against the tree before it. `rateCap_holds` needs that last condition, as
`not_rateCap_droppedTally` shows. -/

namespace Hollow.Mls

open Crdt (saturatingAdd u64Max)

section Bound

variable {isOwner : String → Bool} {g g' : Group} {c : Commit} {who : LeafIdentity}
  {master : String} {s : Statement} {charged : List Nat} {history : List Nat}

/-- Every commit that charges the master, and every one that rewrites a leaf of the master or a leaf
which states a history of it before or after, is judged by the rule; and the leaf it writes carries
a tally. -/
structure Judged (isOwner : String → Bool) (master : String) (g : Group) (c : Commit)
    (who : LeafIdentity) : Prop where
  charge : chargesMaster (g.input c who) master = true → judges isOwner (g.input c who) = true
  rewrite : ∀ node, c.path = some node →
    who.master = master ∨ (c.written node).Tells master ∨
      (∃ l ∈ g.leaves, l.index = c.committer ∧ l.Tells master) →
    judges isOwner (g.input c who) = true ∧ (leafTally node).isSome

/-- No history of the master names, as its newest, an epoch that is still to come. -/
def Past (master : String) (g : Group) : Prop :=
  ∀ s ∈ statements g.leaves master, ∀ e, s.epochs.head? = some e → e < g.epoch

/-- The history that counts may be one of the master with this epoch as its newest. -/
def StatedAt (master : String) (g : Group) (e : Nat) : Prop :=
  ∃ s ∈ candidates g.leaves master g.epoch, s.epochs.head? = some e

/-- The tree keeps track of the master's charges as long as they count. -/
structure Tracks (master : String) (charged : List Nat) (g : Group) : Prop where
  past : Past master g
  sorted : (g.epoch :: charged).Pairwise (· > ·)
  le_newest : ∀ e ∈ charged.head?, ∀ s ∈ statements g.leaves master, ∀ h,
    s.epochs.head? = some h → h ≤ e
  entries : ∀ e ∈ charged.head?, ∀ s ∈ statements g.leaves master, s.epochs.head? = some e →
    ∀ i < capCommits, ∀ e', charged[i]? = some e' → g.epoch < e' + capEpochs →
      s.epochs[i]? = some e'
  stated : ∀ e ∈ charged.head?, g.epoch < e + capEpochs → StatedAt master g e

theorem tracks_start (h : Past master g) : Tracks master [] g :=
  ⟨h, by simp, by simp, by simp, by simp⟩

theorem Tracks.exists_newest (h : Tracks master charged g) {e : Nat} (he : e ∈ charged.head?)
    (hrecent : g.epoch < e + capEpochs) :
    ∃ s, newest (candidates g.leaves master g.epoch) = some s ∧ s.epochs.head? = some e := by
  obtain ⟨s, hs, hhead⟩ := h.stated e he hrecent
  obtain ⟨best, hbest, hrank⟩ := Mls.exists_newest hs
  obtain ⟨e', hhead', hle⟩ := Statement.head_le hrank hhead
  have hge := h.le_newest e he best (mem_candidates.1 (mem_of_newest hbest)).1 e' hhead'
  exact ⟨best, hbest, by rw [hhead', le_antisymm hge hle]⟩

theorem Tracks.head_ge (h : Tracks master charged g) {i e : Nat} (he : charged[i]? = some e) :
    ∃ e' ∈ charged.head?, e ≤ e' := by
  have hmem := List.mem_of_getElem? he
  have hsorted := h.sorted.of_cons
  cases charged with
  | nil => cases hmem
  | cons e' rest =>
    refine ⟨e', rfl, ?_⟩
    rcases List.mem_cons.1 hmem with rfl | hmem
    · exact le_rfl
    · exact (List.rel_of_pairwise_cons hsorted hmem).le

theorem epochs_of_newest (hhistory : masterTally g.leaves master g.epoch = .list history)
    (hs : newest (candidates g.leaves master g.epoch) = some s) : s.epochs = history := by
  rcases masterTally_eq_list hhistory with ⟨hempty, -⟩ | ⟨s', hs', rfl, -⟩
  · rw [hempty] at hs
    cases hs
  · cases hs.symm.trans hs'
    rfl

theorem Tracks.history_entries (h : Tracks master charged g)
    (hhistory : masterTally g.leaves master g.epoch = .list history) {i e : Nat}
    (hi : i < capCommits) (he : charged[i]? = some e) (hrecent : g.epoch < e + capEpochs) :
    history[i]? = some e := by
  obtain ⟨newestCharge, hnewest, hle⟩ := h.head_ge he
  obtain ⟨s, hs, hhead⟩ := h.exists_newest hnewest (by omega)
  rw [← epochs_of_newest hhistory hs]
  exact h.entries newestCharge hnewest s (mem_candidates.1 (mem_of_newest hs)).1 hhead i hi e he
    hrecent

theorem lt_saturatingAdd {a b e : Nat} (he : e < u64Max) : e < saturatingAdd a b ↔ e < a + b := by
  rw [saturatingAdd, lt_min_iff]
  omega

/-- A commit the cap lets through comes a whole window after the third last charge. -/
theorem Tracks.third_le (h : Tracks master charged g) (hepoch : g.epoch < u64Max)
    (hcap : capped (masterTally g.leaves master g.epoch) g.epoch = false) {e : Nat}
    (he : charged[capCommits - 1]? = some e) : e + capEpochs ≤ g.epoch := by
  by_contra hlt
  cases hhistory : masterTally g.leaves master g.epoch with
  | unreadable =>
    rw [hhistory] at hcap
    cases hcap
  | list history =>
    have hentry := h.history_entries hhistory (by decide) he (not_le.1 hlt)
    rw [hhistory, capped, hentry, Option.any_some, decide_eq_false_iff_not,
      lt_saturatingAdd hepoch] at hcap
    omega

def Known (master : String) (g : Group) (epochs : List Nat) : Prop :=
  wellOrdered epochs g.epoch = true ∧
    (epochs = [] ∨ ∃ s ∈ statements g.leaves master, s.epochs = epochs)

theorem known_of_masterTally (h : masterTally g.leaves master g.epoch = .list history) :
    Known master g history := by
  rcases masterTally_eq_list h with ⟨-, rfl⟩ | ⟨s, hs, rfl, hordered⟩
  · exact ⟨rfl, .inl rfl⟩
  · exact ⟨hordered, .inr ⟨s, (mem_candidates.1 (mem_of_newest hs)).1, rfl⟩⟩

/-- What a judged leaf says of a master is its history with the charge, if the commit charges it,
and one that is known otherwise. -/
structure Says (master : String) (g : Group) (c : Commit) (who : LeafIdentity)
    (epochs : List Nat) : Prop where
  charged : chargesMaster (g.input c who) master = true → ∃ history,
    masterTally g.leaves master g.epoch = .list history ∧
      epochs = Tally.afterCounted history g.epoch
  uncharged : chargesMaster (g.input c who) master = false → Known master g epochs

theorem chargesMaster_self (h : who.master = master) :
    chargesMaster (g.input c who) master = (charges (g.input c who)).committer := by
  have hself : master ∉ (charges (g.input c who)).repaired := h ▸ not_mem_repaired_self
  have hcommitter : (g.input c who).committer.master = master := h
  simp [chargesMaster, hcommitter, hself]

theorem chargesMaster_other (h : who.master ≠ master) :
    chargesMaster (g.input c who) master =
      decide (master ∈ (charges (g.input c who)).repaired) := by
  have hcommitter : (g.input c who).committer.master ≠ master := h
  simp [chargesMaster, hcommitter]

section States

variable {tally : Tally} (hstates : States (g.input c who) tally)
include hstates

theorem masterTally_own (hmaster : who.master = master)
    (huncharged : chargesMaster (g.input c who) master = false) :
    masterTally g.leaves master g.epoch = .list tally.epochs := by
  obtain ⟨history, hread, hepochs⟩ := hstates.own
  rw [chargesMaster_self hmaster] at huncharged
  rw [if_neg (by simp [huncharged])] at hepochs
  rw [hepochs]
  exact hmaster ▸ readHistory_eq_ok hread

theorem says_own (hmaster : who.master = master) : Says master g c who tally.epochs := by
  refine ⟨fun hcharged => ?_, fun huncharged =>
    known_of_masterTally (masterTally_own hstates hmaster huncharged)⟩
  obtain ⟨history, hread, hepochs⟩ := hstates.own
  rw [chargesMaster_self hmaster] at hcharged
  rw [if_pos hcharged] at hepochs
  exact ⟨history, hmaster ▸ readHistory_eq_ok hread, hepochs⟩

theorem says_carried {list : List Nat} (hmem : (master, list) ∈ tally.carried) :
    Says master g c who list := by
  by_cases hrepaired : master ∈ (charges (g.input c who)).repaired
  · obtain ⟨history, hread, hcarried⟩ := hstates.repaired master hrepaired
    refine ⟨fun _ => ⟨history, readHistory_eq_ok hread, (hcarried list).1 hmem⟩,
      fun huncharged => ?_⟩
    simp [chargesMaster, hrepaired] at huncharged
  · obtain ⟨hne, hordered, hstated⟩ :=
      priorCarried_spec ((hstates.kept master hrepaired list).1 hmem)
    refine ⟨fun hcharged => ?_, fun _ => ⟨hordered, .inr hstated⟩⟩
    rw [chargesMaster_other hne.symm, decide_eq_true_eq] at hcharged
    exact absurd hcharged hrepaired

end States

section Step

variable (haccepted : Accepted isOwner g c who)
include haccepted

theorem Accepted.states {node : LeafNode} {tally : Tally}
    (hjudges : judges isOwner (g.input c who) = true) (hpath : c.path = some node)
    (htally : leafTally node = some tally) : States (g.input c who) tally := by
  refine states_of_rateRefusal hjudges ?_
  have hrate := haccepted.rate
  rwa [hpath, Option.map_some, htally] at hrate

theorem Accepted.master_written {node : LeafNode} (hpath : c.path = some node) :
    (c.written node).master = some who.master := by
  have hidentity : node.identity = some who := haccepted.path_same node hpath
  simp [LeafRecord.master, LeafRecord.identity, Commit.written, hidentity]

variable (hjudged : Judged isOwner master g c who)
include hjudged

/-- A charge that was accepted is stated on the leaf the commit writes. -/
theorem states_of_charged (hcharged : chargesMaster (g.input c who) master = true) :
    ∃ node tally, c.path = some node ∧ leafTally node = some tally ∧
      States (g.input c who) tally := by
  have hjudges := hjudged.charge hcharged
  obtain ⟨tally, hstated⟩ :=
    exists_stated_of_charges hjudges (any_of_chargesMaster hcharged) haccepted.rate
  obtain ⟨node, hpath, htally⟩ := Option.map_eq_some_iff.1 hstated
  exact ⟨node, tally, hpath, htally, haccepted.states hjudges hpath htally⟩

theorem says_of_written {node : LeafNode} (hpath : c.path = some node)
    (hs : s ∈ (c.written node).statements master) : Says master g c who s.epochs := by
  obtain ⟨hjudges, -⟩ := hjudged.rewrite node hpath (.inr (.inl (List.ne_nil_of_mem hs)))
  obtain ⟨-, tally, htally, hown | ⟨list, hmem, rfl⟩⟩ := LeafRecord.mem_statements.1 hs
  · obtain ⟨hmaster, rfl⟩ := hown
    have hstates := haccepted.states hjudges hpath htally
    exact says_own hstates (Option.some.inj ((haccepted.master_written hpath).symm.trans hmaster))
  · exact says_carried (haccepted.states hjudges hpath htally) hmem

variable (hmerged : Merged g c g')
include hmerged

/-- A commit that does not charge the master leaves its newest charge stated. -/
theorem stated_uncharged (h : Tracks master charged g) (hkeeps : KeepsNewest master g c who)
    (huncharged : chargesMaster (g.input c who) master = false) {e : Nat}
    (he : e ∈ charged.head?) (hrecent : g.epoch + 1 < e + capEpochs) : StatedAt master g' e := by
  obtain ⟨s, hnewest, hhead⟩ := h.exists_newest he (by omega)
  obtain ⟨hs, hordered⟩ := mem_candidates.1 (mem_of_newest hnewest)
  have hepoch : g.epoch ≤ g'.epoch := by rw [hmerged.epoch]; omega
  -- The master's own leaf restates what the tree says of it.
  have hself {node : LeafNode} (hpath : c.path = some node) (hmaster : who.master = master) :
      StatedAt master g' e := by
    obtain ⟨hjudges, hsome⟩ := hjudged.rewrite node hpath (.inl hmaster)
    obtain ⟨tally, htally⟩ := Option.isSome_iff_exists.1 hsome
    have hstates := haccepted.states hjudges hpath htally
    refine ⟨⟨c.committer, false, tally.epochs⟩, mem_candidates.2 ⟨?_, by simp⟩, ?_⟩
    · refine mem_statements_of_written haccepted hmerged hpath (LeafRecord.mem_statements.2
        ⟨rfl, tally, htally, .inl ⟨hmaster ▸ haccepted.master_written hpath, rfl⟩⟩)
    · rwa [epochs_of_newest (masterTally_own hstates hmaster huncharged) hnewest] at hhead
  by_cases hremoves : s.index ∈ c.removes
  · have hmaster : who.master = master := by
      by_contra hne
      exact hkeeps hne s hnewest hremoves
    obtain ⟨node, hpath⟩ := Option.isSome_iff_exists.1
      (haccepted.path_of_removes (.inr (List.ne_nil_of_mem hremoves)))
    exact hself hpath hmaster
  · by_cases hrewrites : s.index = c.committer ∧ c.path ≠ none
    · obtain ⟨hindex, hpath⟩ := hrewrites
      obtain ⟨node, hpath⟩ := Option.ne_none_iff_exists'.1 hpath
      by_cases hmaster : who.master = master
      · exact hself hpath hmaster
      · -- The committer's leaf carries the history, so its next leaf keeps it.
        obtain ⟨l, hl, hs⟩ := List.mem_flatMap.1 hs
        obtain ⟨l', hl', hindex', hwho⟩ := haccepted.committer
        obtain ⟨hwritten, old, hold, hstate⟩ := LeafRecord.mem_statements.1 hs
        have hindexl : s.index = l.index := by
          obtain ⟨-, rfl⟩ | ⟨list, -, rfl⟩ := hstate <;> rfl
        have hleaf : l = l' :=
          List.inj_on_of_nodup_map g.indices hl hl' (by rw [← hindexl, hindex, hindex'])
        subst hleaf
        obtain ⟨hjudges, hsome⟩ := hjudged.rewrite node hpath
          (.inr (.inr ⟨l, hl, hindex', List.ne_nil_of_mem hs⟩))
        obtain ⟨tally, htally⟩ := Option.isSome_iff_exists.1 hsome
        obtain ⟨hown, -⟩ | ⟨list, hcarried, rfl⟩ := hstate
        · exact absurd (by simpa [LeafRecord.master, hwho] using hown) hmaster
        · have hrepaired : master ∉ (charges (g.input c who)).repaired := by
            rw [chargesMaster_other hmaster] at huncharged
            simpa using huncharged
          have hkept := ((haccepted.states hjudges hpath htally).kept master hrepaired list).2
            (mem_priorCarried hl hwho hwritten hold hcarried (Ne.symm hmaster) (hordered rfl) hhead
              ((lt_saturatingAdd haccepted.epoch_lt).2 (by omega)))
          refine ⟨⟨c.committer, true, list⟩,
            mem_candidates.2 ⟨?_, fun _ => wellOrdered_mono (hordered rfl) hepoch⟩, hhead⟩
          exact mem_statements_of_written haccepted hmerged hpath
            (LeafRecord.mem_statements.2 ⟨rfl, tally, htally, .inr ⟨list, hkept, rfl⟩⟩)
    · refine ⟨s, mem_candidates.2 ⟨mem_statements_of_kept hmerged hs hremoves fun hindex => ?_,
        fun hcarried => wellOrdered_mono (hordered hcarried) hepoch⟩, hhead⟩
      by_contra hpath
      exact hrewrites ⟨hindex, hpath⟩

theorem stated_charged (hcharged : chargesMaster (g.input c who) master = true) :
    StatedAt master g' g.epoch := by
  obtain ⟨node, tally, hpath, htally, hstates⟩ := states_of_charged haccepted hjudged hcharged
  have hstatement {carried : Bool} {epochs : List Nat}
      (hs : ⟨c.committer, carried, epochs⟩ ∈ (c.written node).statements master) :
      StatedAt master g' g.epoch := by
    obtain ⟨history, hhistory, hepochs⟩ :=
      (says_of_written haccepted hjudged hpath hs).charged hcharged
    refine ⟨_, mem_candidates.2 ⟨mem_statements_of_written haccepted hmerged hpath hs,
      fun _ => ?_⟩, ?_⟩
    · rw [hmerged.epoch, hepochs]
      exact wellOrdered_afterCounted (known_of_masterTally hhistory).1
    · rw [hepochs]
      rfl
  by_cases hmaster : who.master = master
  · exact hstatement (LeafRecord.mem_statements.2
      ⟨rfl, tally, htally, .inl ⟨hmaster ▸ haccepted.master_written hpath, rfl⟩⟩)
  · rw [chargesMaster_other hmaster, decide_eq_true_eq] at hcharged
    obtain ⟨history, -, hcarried⟩ := hstates.repaired master hcharged
    exact hstatement (LeafRecord.mem_statements.2
      ⟨rfl, tally, htally, .inr ⟨_, (hcarried _).2 rfl, rfl⟩⟩)

theorem Tracks.step_uncharged (h : Tracks master charged g) (hkeeps : KeepsNewest master g c who)
    (huncharged : chargesMaster (g.input c who) master = false) : Tracks master charged g' := by
  -- Whatever the tree says afterwards, it said before.
  have hknown {s : Statement} (hs : s ∈ statements g'.leaves master) {e : Nat}
      (he : s.epochs.head? = some e) : ∃ s' ∈ statements g.leaves master, s'.epochs = s.epochs := by
    rcases mem_statements_merged hmerged hs with hs | ⟨node, hpath, hs⟩
    · exact ⟨s, hs, rfl⟩
    · rcases ((says_of_written haccepted hjudged hpath hs).uncharged huncharged).2 with hnil | hs
      · rw [hnil] at he
        cases he
      · exact hs
  refine ⟨fun s hs e he => ?_, ?_, fun e he s hs h' hh => ?_, fun e he s hs hh i hi e' he' hr => ?_,
    fun e he hrecent => ?_⟩
  · obtain ⟨s', hs', heq⟩ := hknown hs he
    have hlt := h.past s' hs' e (by rw [heq, he])
    rw [hmerged.epoch]
    omega
  · obtain ⟨hlt, hsorted⟩ := List.pairwise_cons.1 h.sorted
    refine List.pairwise_cons.2 ⟨fun e he => ?_, hsorted⟩
    have := hlt e he
    rw [hmerged.epoch]
    omega
  · obtain ⟨s', hs', heq⟩ := hknown hs hh
    exact h.le_newest e he s' hs' h' (by rw [heq, hh])
  · obtain ⟨s', hs', heq⟩ := hknown hs hh
    rw [hmerged.epoch] at hr
    rw [← heq]
    exact h.entries e he s' hs' (by rw [heq, hh]) i hi e' he' (by omega)
  · rw [hmerged.epoch] at hrecent
    exact stated_uncharged haccepted hjudged hmerged h hkeeps huncharged he hrecent

/-- A charged commit joins the epochs that the tallies of the group track. -/
theorem Tracks.step_charged (h : Tracks master charged g)
    (hcharged : chargesMaster (g.input c who) master = true) :
    Tracks master (g.epoch :: charged) g' := by
  -- A statement of the tree afterwards is older than the charge or lists it first.
  have hnew {s : Statement} (hs : s ∈ statements g'.leaves master) :
      (∀ e, s.epochs.head? = some e → e < g.epoch) ∨
        ∃ history, masterTally g.leaves master g.epoch = .list history ∧
          s.epochs = Tally.afterCounted history g.epoch := by
    rcases mem_statements_merged hmerged hs with hs | ⟨node, hpath, hs⟩
    · exact .inl (h.past s hs)
    · exact .inr ((says_of_written haccepted hjudged hpath hs).charged hcharged)
  have hle {s : Statement} (hs : s ∈ statements g'.leaves master) {e : Nat}
      (he : s.epochs.head? = some e) : e ≤ g.epoch := by
    rcases hnew hs with hlt | ⟨history, -, heq⟩
    · exact (hlt e he).le
    · rw [heq] at he
      exact (Option.some.inj he).ge
  refine ⟨fun s hs e he => ?_, ?_, fun e he s hs h' hh => ?_, fun e he s hs hh i hi e' he' hr => ?_,
    fun e he _ => ?_⟩
  · rw [hmerged.epoch]
    exact Nat.lt_succ_of_le (hle hs he)
  · refine List.pairwise_cons.2 ⟨fun e he => ?_, h.sorted⟩
    rw [hmerged.epoch]
    rcases List.mem_cons.1 he with rfl | he
    · exact Nat.lt_succ_self _
    · exact (List.rel_of_pairwise_cons h.sorted he).trans (Nat.lt_succ_self _)
  · cases he
    exact hle hs hh
  · cases he
    rcases hnew hs with hlt | ⟨history, hhistory, heq⟩
    · exact absurd (hlt _ hh) (lt_irrefl _)
    · have htake : (Tally.afterCounted history g.epoch)[i]? = (g.epoch :: history)[i]? :=
        List.getElem?_take_of_lt hi
      rw [heq, htake]
      rw [hmerged.epoch] at hr
      cases i with
      | zero => exact he'
      | succ i =>
        rw [List.getElem?_cons_succ] at he' ⊢
        exact h.history_entries hhistory (by omega) he' (by omega)
  · cases he
    exact stated_charged haccepted hjudged hmerged hcharged

end Step

/-- Four charges span at least `CAP_EPOCHS` epochs. -/
def Spaced (charged : List Nat) : Prop :=
  ∀ a b c d, List.Sublist [a, b, c, d] charged → d + capEpochs ≤ a

theorem Spaced.cons (h : Spaced charged) (htracks : Tracks master charged g)
    (hthird : ∀ e, charged[capCommits - 1]? = some e → e + capEpochs ≤ g.epoch) :
    Spaced (g.epoch :: charged) := by
  intro a b c d hsub
  rcases List.sublist_cons_iff.1 hsub with hsub | ⟨r, hr, hsub⟩
  · exact h a b c d hsub
  · cases hr
    -- The last of three charges is at or before the third last.
    have hd : d ∈ charged.drop 2 := (hsub.drop 2).subset (by simp)
    have hlength : 2 < charged.length := hsub.length_le
    have hthird := hthird charged[2] (List.getElem?_eq_getElem hlength)
    rw [List.drop_eq_getElem_cons hlength] at hd
    rcases List.mem_cons.1 hd with rfl | hd
    · exact hthird
    · have hsorted := htracks.sorted.of_cons.drop (i := 2)
      rw [List.drop_eq_getElem_cons hlength] at hsorted
      have hlt := List.rel_of_pairwise_cons hsorted hd
      omega

/-- Along a chain the tree tracks the charges, and they keep their distance. -/
theorem Chain.tracks (hstart : Past master g) (h : Chain isOwner master
      (fun g c who => KeepsNewest master g c who ∧ Judged isOwner master g c who) g charged g') :
    Tracks master charged g' ∧ Spaced charged := by
  induction h with
  | start => exact ⟨tracks_start hstart, fun a b c d hsub => by cases hsub⟩
  | commit _ haccepted hok hmerged ih =>
    obtain ⟨htracks, hspaced⟩ := ih
    split_ifs with hcharged
    · refine ⟨htracks.step_charged haccepted hok.2 hmerged hcharged, hspaced.cons htracks ?_⟩
      intro e he
      obtain ⟨node, tally, -, -, hstates⟩ := states_of_charged haccepted hok.2 hcharged
      exact htracks.third_le haccepted.epoch_lt (not_capped_of_charges hstates.within hcharged) he
    · exact ⟨htracks.step_uncharged haccepted hok.2 hmerged hok.1 (by simpa using hcharged),
        hspaced⟩

theorem withinCap_of_spaced (h : Spaced charged) : WithinCap charged := by
  intro first
  by_contra hlt
  rcases hinside : charged.filter fun e => first ≤ e && e < first + capEpochs with
    _ | ⟨a, _ | ⟨b, _ | ⟨c, _ | ⟨d, rest⟩⟩⟩⟩ <;> rw [hinside] at hlt
  iterate 4 exact absurd (by simp [capCommits, tallyDepth]) hlt
  · have hsub : List.Sublist [a, b, c, d] charged := by
      have hprefix : List.Sublist [a, b, c, d] (a :: b :: c :: d :: rest) :=
        List.sublist_append_left [a, b, c, d] rest
      rw [← hinside] at hprefix
      exact hprefix.trans List.filter_sublist
    have hmem (e : Nat) (he : e ∈ a :: b :: c :: d :: rest) :
        first ≤ e ∧ e < first + capEpochs := by
      rw [← hinside] at he
      simpa using (List.mem_filter.1 he).2
    have hspan := h a b c d hsub
    have ha := hmem a (by simp)
    have hd := hmem d (by simp)
    omega

/-- The cap holds over every chain whose commits are judged wherever a history of the master is at
stake, from a tree whose histories of it are past. -/
theorem rateCap_holds (isOwner : String → Bool) (master : String) (g g' : Group)
    (charged : List Nat) (hstart : Past master g) (h : Chain isOwner master
      (fun g c who => KeepsNewest master g c who ∧ Judged isOwner master g c who) g charged g') :
    WithinCap charged :=
  withinCap_of_spaced (h.tracks hstart).2

end Bound

section Small

/-- A leaf node of `device`, certified by `master`, that declares the capability. -/
def declaring (device master : String) (extension : Option (List UInt8)) : LeafNode :=
  ⟨some ⟨device, master⟩, true, extension⟩

def tallied (device master : String) (epochs : List Nat) : LeafNode :=
  declaring device master (some (Tally.encode ⟨1, epochs, []⟩))

/-- The owner, a member `m` and a member `n`, each with one device and an empty tally. -/
def smallGroup : Group where
  epoch := 10
  leaves := [⟨0, tallied "o1" "owner" [], true⟩, ⟨1, tallied "m1" "m" [], true⟩,
    ⟨2, tallied "n1" "n" [], true⟩]
  indices := by decide
  identities := by decide

def ownsSmall (master : String) : Bool := master = "owner"

theorem past_smallGroup : Past "m" smallGroup := by
  have hempty : ∀ s ∈ statements smallGroup.leaves "m", s.epochs = [] := by decide +kernel
  intro s hs e he
  rw [hempty s hs] at he
  cases he

/-- The epochs from 10 on, newest first. -/
def stated (k : Nat) : List Nat := (List.range k).reverse.map (10 + ·)

def countedUpdate (k : Nat) : Commit := ⟨1, [], [], some (tallied "m1" "m" (stated (k + 1)))⟩

/-- The group after `k` updates of `m`, each one counted. -/
def updatedGroup (k : Nat) : Group where
  epoch := 10 + k
  leaves := [⟨0, tallied "o1" "owner" [], true⟩, ⟨1, tallied "m1" "m" (stated k), true⟩,
    ⟨2, tallied "n1" "n" [], true⟩]
  indices := by simp
  identities := by simp [tallied, declaring, LeafRecord.identity]

theorem accepted_countedUpdate {k : Nat} (hk : k < 3) :
    Accepted ownsSmall (updatedGroup k) (countedUpdate k) ⟨"m1", "m"⟩ where
  committer := ⟨⟨1, tallied "m1" "m" (stated k), true⟩, by simp [updatedGroup], rfl, rfl⟩
  rate := by interval_cases k <;> decide +kernel
  ratchet := by interval_cases k <;> decide
  adds_bound := by interval_cases k <;> decide
  path_same := by rintro node ⟨⟩; rfl
  not_removed := by interval_cases k <;> decide
  path_of_removes _ := rfl
  epoch_lt := by interval_cases k <;> decide

theorem judged_countedUpdate {k : Nat} (hk : k < 3) :
    Judged ownsSmall "m" (updatedGroup k) (countedUpdate k) ⟨"m1", "m"⟩ where
  charge _ := by interval_cases k <;> decide +kernel
  rewrite := by
    rintro node ⟨⟩ -
    interval_cases k <;> decide +kernel

theorem chain_countedUpdate {k : Nat} (hk : k ≤ 3) :
    Chain ownsSmall "m" (fun g c who => KeepsNewest "m" g c who ∧ Judged ownsSmall "m" g c who)
      smallGroup (stated k) (updatedGroup k) := by
  induction k with
  | zero => exact .start smallGroup
  | succ k ih =>
    have hstated : stated (k + 1) = (10 + k) :: stated k := by simp [stated, List.range_succ]
    rw [hstated]
    have hk : k < 3 := by omega
    refine .commit (ih hk.le) (accepted_countedUpdate hk)
      ⟨fun hne => absurd rfl hne, judged_countedUpdate hk⟩ ⟨rfl, ?_⟩
    interval_cases k <;> decide +kernel

/-- Three updates running, which is all the cap allows. -/
theorem rateCap_holds_countedUpdate :
    Past "m" smallGroup ∧
    Chain ownsSmall "m"
      (fun g c who => KeepsNewest "m" g c who ∧ Judged ownsSmall "m" g c who) smallGroup
      [12, 11, 10] (updatedGroup 3) ∧
    WithinCap [12, 11, 10] :=
  ⟨past_smallGroup, chain_countedUpdate le_rfl,
    rateCap_holds ownsSmall "m" smallGroup _ _ past_smallGroup (chain_countedUpdate le_rfl)⟩

/-- `n` seats a new member's device and writes itself a leaf without a tally. -/
def droppingCommit : Commit :=
  ⟨2, [(3, tallied "q1" "q" [])], [], some (declaring "n1" "n" none)⟩

/-- The group after that commit, at any later epoch: an update of `m` leaves the leaves alone. -/
def droppedGroup (epoch : Nat) : Group where
  epoch
  leaves := droppingCommit.leavesAfter smallGroup.leaves
  indices := by decide
  identities := by decide

/-- `m` updates its own leaf and leaves its tally empty. -/
def silentUpdate : Commit := ⟨1, [], [], some (tallied "m1" "m" [])⟩

theorem accepted_droppingCommit :
    Accepted ownsSmall smallGroup droppingCommit ⟨"n1", "n"⟩ where
  committer := by decide
  rate := by decide +kernel
  ratchet := by decide
  adds_bound := by decide
  path_same := by rintro node ⟨⟩; rfl
  not_removed := by decide
  path_of_removes _ := rfl
  epoch_lt := by decide

theorem accepted_silentUpdate {epoch : Nat} (hepoch : epoch < u64Max) :
    Accepted ownsSmall (droppedGroup epoch) silentUpdate ⟨"m1", "m"⟩ where
  committer := by
    have hleaf : ∃ leaf ∈ droppingCommit.leavesAfter smallGroup.leaves,
        leaf.index = silentUpdate.committer ∧ leaf.identity = some ⟨"m1", "m"⟩ := by decide
    exact hleaf
  rate := by
    have hoff : othersAllCapable (droppingCommit.leavesAfter smallGroup.leaves) "m" = false := by
      decide +kernel
    have hjudges : judges ownsSmall ((droppedGroup epoch).input silentUpdate ⟨"m1", "m"⟩) =
        (!ownsSmall "m" && othersAllCapable (droppingCommit.leavesAfter smallGroup.leaves) "m") :=
      rfl
    rw [rateRefusal, hjudges, hoff, Bool.and_false]
    rfl
  ratchet := by
    have hnone : silentUpdate.undeclared = [] := by decide
    simp [hnone]
  adds_bound := by decide
  path_same := by rintro node ⟨⟩; rfl
  not_removed := by decide
  path_of_removes _ := rfl
  epoch_lt := hepoch

theorem chain_silentUpdate {charged : List Nat} {epoch : Nat} (hepoch : epoch < u64Max)
    (h : Chain ownsSmall "m" (KeepsNewest "m") smallGroup charged (droppedGroup epoch)) :
    Chain ownsSmall "m" (KeepsNewest "m") smallGroup (epoch :: charged)
      (droppedGroup (epoch + 1)) := by
  have hleaves : silentUpdate.leavesAfter (droppedGroup epoch).leaves =
      droppingCommit.leavesAfter smallGroup.leaves := by
    change silentUpdate.leavesAfter (droppingCommit.leavesAfter smallGroup.leaves) = _
    decide +kernel
  exact .commit h (accepted_silentUpdate hepoch) (fun hne => absurd rfl hne) ⟨rfl, hleaves.symm⟩

/-- Every leaf carries a tally to begin with, and no leaf is ever removed; yet `m` is charged in
four epochs running. -/
theorem not_rateCap_droppedTally :
    (∀ l ∈ smallGroup.leaves, l.capable) ∧ ownsSmall "m" = false ∧ Past "m" smallGroup ∧
      ∃ charged g', Chain ownsSmall "m" (KeepsNewest "m") smallGroup charged g' ∧
        ¬ WithinCap charged := by
  refine ⟨by decide +kernel, rfl, past_smallGroup, [14, 13, 12, 11], droppedGroup 15, ?_, ?_⟩
  · have hdropped : Chain ownsSmall "m" (KeepsNewest "m") smallGroup [] (droppedGroup 11) :=
      .commit (.start _) accepted_droppingCommit (fun _ _ _ => by simp [droppingCommit])
        ⟨rfl, rfl⟩
    exact chain_silentUpdate (by decide) (chain_silentUpdate (by decide)
      (chain_silentUpdate (by decide) (chain_silentUpdate (by decide) hdropped)))
  · intro hcap
    have hfour := hcap 11
    revert hfour
    decide

end Small

end Hollow.Mls
