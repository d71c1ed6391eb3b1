import Mathlib.Data.Finset.Card
import Mathlib.Data.Finset.Dedup

/-! Emoji reactions (`add_reaction`, `remove_reaction`) under any delivery of a set of adds and
removals. The row of a reaction keeps the stamp of the first add that arrived, so a removal between
two adds can take away what the later one should have kept; `reactions_agree_iff` says for which
sets every delivery ends the same. -/

namespace Hollow.Store

/-- A row of `message_reactions` (stamped `added_at`) or of `reaction_removals` (`removed_at`). -/
structure ReactionMark where
  messageId : String
  emoji : String
  peerId : String
  stamp : Int
  signature : Option String := none
  publicKey : Option String := none
deriving DecidableEq

/-- The columns of `UNIQUE(message_id, emoji, peer_id)`. -/
def ReactionMark.key (r : ReactionMark) : String × String × String :=
  (r.messageId, r.emoji, r.peerId)

structure ReactionStore where
  reactions : List ReactionMark := []
  removals : List ReactionMark := []
deriving DecidableEq

namespace ReactionStore

def otherEmojis (s : ReactionStore) (r : ReactionMark) : Nat :=
  ((s.reactions.filter fun x =>
    x.messageId = r.messageId ∧ x.peerId = r.peerId ∧ x.emoji ≠ r.emoji).map
      (·.emoji)).dedup.length

def addReaction (s : ReactionStore) (r : ReactionMark) : Bool × ReactionStore :=
  if 3 ≤ s.otherEmojis r then (false, s)
  else if s.removals.any fun x => x.key = r.key ∧ r.stamp ≤ x.stamp then (false, s)
  -- `INSERT OR IGNORE`: the row that is there keeps its own stamp.
  else if s.reactions.any fun x => x.key = r.key then (false, s)
  else (true, { s with reactions := s.reactions ++ [r] })

def removeReaction (s : ReactionStore) (r : ReactionMark) : Bool × ReactionStore :=
  let kept := s.reactions.filter fun x => ¬(x.key = r.key ∧ x.stamp ≤ r.stamp)
  (kept.length < s.reactions.length, { reactions := kept, removals := s.removals ++ [r] })

end ReactionStore

structure ReactionEvent where
  isAdd : Bool
  mark : ReactionMark
deriving DecidableEq

namespace ReactionStore

def apply (s : ReactionStore) (ev : ReactionEvent) : ReactionStore :=
  if ev.isAdd then (s.addReaction ev.mark).2 else (s.removeReaction ev.mark).2

def applyAll (s : ReactionStore) (es : List ReactionEvent) : ReactionStore := es.foldl apply s

def Shows (s : ReactionStore) (k : String × String × String) : Prop :=
  ∃ x ∈ s.reactions, x.key = k

instance (s : ReactionStore) (k : String × String × String) : Decidable (s.Shows k) :=
  inferInstanceAs (Decidable (∃ _ ∈ _, _))

def Untouched (s : ReactionStore) (messageId : String) : Prop :=
  (∀ x ∈ s.reactions, x.messageId ≠ messageId) ∧ ∀ x ∈ s.removals, x.messageId ≠ messageId

variable {s : ReactionStore} {r : ReactionMark} {k : String × String × String}

theorem addReaction_cases (s : ReactionStore) (r : ReactionMark) :
    ((s.addReaction r).2 = s ∧ (3 ≤ s.otherEmojis r ∨
        (∃ x ∈ s.removals, x.key = r.key ∧ r.stamp ≤ x.stamp) ∨ s.Shows r.key)) ∨
      ((s.addReaction r).2 = { s with reactions := s.reactions ++ [r] } ∧
        (∀ x ∈ s.removals, x.key = r.key → x.stamp < r.stamp) ∧ ¬s.Shows r.key) := by
  unfold addReaction
  split_ifs with hlimit hremoved hpresent
  · exact .inl ⟨rfl, .inl hlimit⟩
  · exact .inl ⟨rfl, .inr (.inl (by simpa using hremoved))⟩
  · exact .inl ⟨rfl, .inr (.inr (by simpa [Shows] using hpresent))⟩
  · refine .inr ⟨rfl, fun x hx hkey => ?_, by simpa [Shows] using hpresent⟩
    by_contra hstamp
    exact hremoved (by simpa using ⟨x, hx, hkey, by omega⟩)

theorem mem_removeReaction {x : ReactionMark} :
    x ∈ (s.removeReaction r).2.reactions ↔
      x ∈ s.reactions ∧ (x.key = r.key → r.stamp < x.stamp) := by
  simp [removeReaction, imp_iff_not_or]

/-- The rows of the message after the events `done`: each is an add that outranks every removal
so far, and its removals are those of `done`. -/
structure Traced (messageId : String) (done : List ReactionEvent) (s : ReactionStore) :
    Prop where
  added : ∀ x ∈ s.reactions, x.messageId = messageId → ⟨true, x⟩ ∈ done
  removed : ∀ x, x.messageId = messageId → (x ∈ s.removals ↔ ⟨false, x⟩ ∈ done)
  outranks : ∀ x ∈ s.reactions, x.messageId = messageId → ∀ y ∈ s.removals, y.key = x.key →
    y.stamp < x.stamp

variable {messageId : String} {done : List ReactionEvent}

theorem Untouched.traced (h : s.Untouched messageId) : Traced messageId [] s where
  added x hx hid := absurd hid (h.1 x hx)
  removed x hid := by simpa using fun hx => h.2 x hx hid
  outranks x hx hid := absurd hid (h.1 x hx)

section Step

variable (h : Traced messageId done s)
include h

theorem Traced.skip (r : ReactionMark) : Traced messageId (done ++ [⟨true, r⟩]) s where
  added x hx hid := List.mem_append_left _ (h.added x hx hid)
  removed x hid := by simp [h.removed x hid]
  outranks := h.outranks

theorem Traced.insert (houtranks : ∀ x ∈ s.removals, x.key = r.key → x.stamp < r.stamp) :
    Traced messageId (done ++ [⟨true, r⟩]) { s with reactions := s.reactions ++ [r] } where
  added x hx hid := by
    rcases List.mem_append.1 hx with hx | hx
    · exact List.mem_append_left _ (h.added x hx hid)
    · rw [List.mem_singleton.1 hx]
      simp
  removed := (h.skip r).removed
  outranks x hx hid := by
    rcases List.mem_append.1 hx with hx | hx
    · exact h.outranks x hx hid
    · rwa [List.mem_singleton.1 hx]

theorem Traced.remove (r : ReactionMark) :
    Traced messageId (done ++ [⟨false, r⟩]) (s.removeReaction r).2 where
  added x hx hid := List.mem_append_left _ (h.added x (mem_removeReaction.1 hx).1 hid)
  removed x hid := by simp [removeReaction, h.removed x hid]
  outranks x hx hid y hy hkey := by
    obtain ⟨hx, hkept⟩ := mem_removeReaction.1 hx
    rcases List.mem_append.1 hy with hy | hy
    · exact h.outranks x hx hid y hy hkey
    · rw [List.mem_singleton.1 hy] at hkey ⊢
      exact hkept hkey.symm

theorem Traced.outranks_of_mem {x : ReactionMark} (hx : x ∈ s.reactions)
    (hid : x.messageId = messageId) :
    ∀ ev ∈ done, ev.isAdd = false → ev.mark.key = x.key → ev.mark.stamp < x.stamp := by
  rintro ⟨isAdd, y⟩ hev rfl hkey
  exact h.outranks x hx hid y ((h.removed y ((congrArg Prod.fst hkey).trans hid)).2 hev) hkey

theorem Traced.apply (ev : ReactionEvent) :
    Traced messageId (done ++ [ev]) (s.apply ev) := by
  obtain ⟨isAdd, r⟩ := ev
  cases isAdd with
  | false => exact h.remove r
  | true =>
    rcases addReaction_cases s r with ⟨hsame, -⟩ | ⟨hinsert, houtranks, -⟩
    · simpa [ReactionStore.apply, hsame] using h.skip r
    · simpa [ReactionStore.apply, hinsert] using h.insert houtranks

theorem Traced.applyAll (es : List ReactionEvent) :
    Traced messageId (done ++ es) (s.applyAll es) := by
  induction es generalizing s done with
  | nil => simpa [ReactionStore.applyAll] using h
  | cons ev es ih => simpa [ReactionStore.applyAll] using ih (h.apply ev)

end Step

end ReactionStore

def emojisOf (events : Finset ReactionEvent) (peerId : String) : Finset String :=
  (events.filter fun ev => ev.isAdd ∧ ev.mark.peerId = peerId).image (·.mark.emoji)

def Outranks (events : Finset ReactionEvent) (ev : ReactionEvent) : Prop :=
  ∀ ev' ∈ events, ev'.isAdd = false → ev'.mark.key = ev.mark.key → ev'.mark.stamp < ev.mark.stamp

instance (events : Finset ReactionEvent) (ev : ReactionEvent) : Decidable (Outranks events ev) :=
  inferInstanceAs (Decidable (∀ _ ∈ _, _))

/-- Some add of the reaction is later than every removal of it. -/
def Stands (events : Finset ReactionEvent) (k : String × String × String) : Prop :=
  ∃ ev ∈ events, ev.isAdd = true ∧ ev.mark.key = k ∧ Outranks events ev

instance (events : Finset ReactionEvent) (k : String × String × String) :
    Decidable (Stands events k) :=
  inferInstanceAs (Decidable (∃ _ ∈ _, _))

section Delivery

open ReactionStore

variable {events : Finset ReactionEvent} {s : ReactionStore} {messageId : String}
  {done es : List ReactionEvent} {k : String × String × String} {ev : ReactionEvent}

theorem stands_of_shows (h : Traced messageId done s) (hdone : ∀ ev, ev ∈ done ↔ ev ∈ events)
    (hk : k.1 = messageId) (hshows : s.Shows k) : Stands events k := by
  obtain ⟨x, hx, rfl⟩ := hshows
  refine ⟨⟨true, x⟩, (hdone _).1 (h.added x hx hk), rfl, rfl, fun ev hev => ?_⟩
  exact h.outranks_of_mem hx hk ev ((hdone ev).2 hev)

section Kept

variable (h : Traced messageId done s) (hdone : ∀ ev ∈ done, ev ∈ events)
include h hdone

section Few

variable (hthree : ∀ peerId, (emojisOf events peerId).card ≤ 3)
include hthree

/-- Peers of at most three emojis never meet the cap. -/
theorem otherEmojis_lt (hev : ev ∈ events) (hadd : ev.isAdd = true)
    (hid : ev.mark.messageId = messageId) : s.otherEmojis ev.mark < 3 := by
  have hsubset : ((s.reactions.filter fun x => x.messageId = ev.mark.messageId ∧
      x.peerId = ev.mark.peerId ∧ x.emoji ≠ ev.mark.emoji).map (·.emoji)).toFinset ⊆
        (emojisOf events ev.mark.peerId).erase ev.mark.emoji := by
    intro emoji hemoji
    simp only [List.mem_toFinset, List.mem_map, List.mem_filter, decide_eq_true_eq] at hemoji
    obtain ⟨x, ⟨hx, hxid, hpeer, hother⟩, rfl⟩ := hemoji
    have hxadd := hdone _ (h.added x hx (hxid.trans hid))
    exact Finset.mem_erase.2 ⟨hother, Finset.mem_image.2
      ⟨⟨true, x⟩, Finset.mem_filter.2 ⟨hxadd, rfl, hpeer⟩, rfl⟩⟩
  have hmem : ev.mark.emoji ∈ emojisOf events ev.mark.peerId :=
    Finset.mem_image.2 ⟨ev, Finset.mem_filter.2 ⟨hev, hadd, rfl⟩, rfl⟩
  have hcard := Finset.card_le_card hsubset
  rw [List.card_toFinset, Finset.card_erase_of_mem hmem] at hcard
  have hle := hthree ev.mark.peerId
  have hpos := Finset.card_pos.2 ⟨_, hmem⟩
  exact lt_of_le_of_lt hcard (by omega)

omit hthree in
theorem shows_apply (hk : k.1 = messageId)
    (hall : ∀ ev ∈ events, ev.isAdd = true → ev.mark.key = k → Outranks events ev)
    (hev : ev ∈ events) (hshows : s.Shows k) : (s.apply ev).Shows k := by
  obtain ⟨isAdd, r⟩ := ev
  obtain ⟨x, hx, hxk⟩ := hshows
  cases isAdd with
  | false =>
    refine ⟨x, mem_removeReaction.2 ⟨hx, fun hkey => ?_⟩, hxk⟩
    have hxid : x.messageId = messageId := by rw [← hk, ← hxk]; rfl
    exact hall ⟨true, x⟩ (hdone _ (h.added x hx hxid)) rfl hxk ⟨false, r⟩ hev rfl hkey.symm
  | true =>
    rcases addReaction_cases s r with ⟨hsame, -⟩ | ⟨hinsert, -⟩
    · exact ⟨x, by simpa [ReactionStore.apply, hsame] using hx, hxk⟩
    · exact ⟨x, by simp [ReactionStore.apply, hinsert, hx], hxk⟩

theorem shows_apply_add (hev : ev ∈ events) (hadd : ev.isAdd = true)
    (hid : ev.mark.messageId = messageId) (houtranks : Outranks events ev) :
    (s.apply ev).Shows ev.mark.key := by
  rw [ReactionStore.apply, if_pos hadd]
  rcases addReaction_cases s ev.mark with ⟨hsame, hlimit | hremoved | hshows⟩ | ⟨hinsert, -⟩
  · exact absurd hlimit (by simpa using otherEmojis_lt h hdone hthree hev hadd hid)
  · obtain ⟨x, hx, hkey, hstamp⟩ := hremoved
    have hxid : x.messageId = messageId := by
      rw [← hid]
      exact congrArg Prod.fst hkey
    have := houtranks ⟨false, x⟩ (hdone _ ((h.removed x hxid).1 hx)) rfl hkey
    exact absurd hstamp (by simpa using this)
  · rwa [hsame]
  · rw [hinsert]
    exact ⟨ev.mark, by simp, rfl⟩

/-- A reaction none of whose adds is overruled is shown once it was added. -/
theorem shows_applyAll (hk : k.1 = messageId)
    (hall : ∀ ev ∈ events, ev.isAdd = true → ev.mark.key = k → Outranks events ev)
    (hes : ∀ ev ∈ es, ev ∈ events)
    (hstart : s.Shows k ∨ ∃ ev ∈ es, ev.isAdd = true ∧ ev.mark.key = k) :
    (s.applyAll es).Shows k := by
  induction es generalizing s done with
  | nil =>
    rcases hstart with hshows | ⟨ev, hev, -⟩
    · exact hshows
    · cases hev
  | cons ev es ih =>
    have hmem : ev ∈ events := hes ev (by simp)
    have hdone' : ∀ a ∈ done ++ [ev], a ∈ events := by
      intro a ha
      rcases List.mem_append.1 ha with ha | ha
      · exact hdone a ha
      · rwa [List.mem_singleton.1 ha]
    refine ih (h.apply ev) hdone' (fun a ha => hes a (by simp [ha])) ?_
    rcases hstart with hshows | ⟨a, ha, hadd, hkey⟩
    · exact .inl (shows_apply h hdone hk hall hmem hshows)
    · rcases List.mem_cons.1 ha with rfl | ha
      · refine .inl (hkey ▸ shows_apply_add h hdone hthree hmem hadd ?_ (hall a hmem hadd hkey))
        rw [← hk, ← hkey]
        rfl
      · exact .inr ⟨a, ha, hadd, hkey⟩

end Few

end Kept

theorem mem_of_applyAll_removes (hes : ∀ ev ∈ es, ev.isAdd = false) {x : ReactionMark}
    (hx : x ∈ (s.applyAll es).reactions) : x ∈ s.reactions := by
  induction es generalizing s with
  | nil => exact hx
  | cons ev es ih =>
    have happly : s.apply ev = (s.removeReaction ev.mark).2 := by
      rw [ReactionStore.apply, if_neg (by simp [hes ev (by simp)])]
    rw [ReactionStore.applyAll, List.foldl_cons, happly] at hx
    exact (mem_removeReaction.1 (ih (fun a ha => hes a (by simp [ha])) hx)).1

theorem stamp_applyAll_adds {stamp : Int} (hshows : s.Shows k)
    (hstamp : ∀ x ∈ s.reactions, x.key = k → x.stamp = stamp) (hes : ∀ ev ∈ es, ev.isAdd = true) :
    ∀ x ∈ (s.applyAll es).reactions, x.key = k → x.stamp = stamp := by
  induction es generalizing s with
  | nil => exact hstamp
  | cons ev es ih =>
    have hrest : ∀ a ∈ es, a.isAdd = true := fun a ha => hes a (by simp [ha])
    have happly : s.apply ev = (s.addReaction ev.mark).2 := by
      rw [ReactionStore.apply, if_pos (hes ev (by simp))]
    rw [ReactionStore.applyAll, List.foldl_cons, happly]
    rcases addReaction_cases s ev.mark with ⟨hsame, -⟩ | ⟨hinsert, -, hnew⟩
    · rw [hsame]
      exact ih hshows hstamp hrest
    · rw [hinsert]
      have hother : ev.mark.key ≠ k := fun hkey => hnew (hkey ▸ hshows)
      obtain ⟨x, hx, hxk⟩ := hshows
      refine ih ⟨x, by simp [hx], hxk⟩ (fun y hy hyk => ?_) hrest
      rcases List.mem_append.1 hy with hy | hy
      · exact hstamp y hy hyk
      · rw [List.mem_singleton.1 hy] at hyk
        exact absurd hyk hother

/-- The adds of a set behind one of them, then its removals. -/
noncomputable def addsFirst (events : Finset ReactionEvent) (first : ReactionEvent) :
    List ReactionEvent :=
  (first :: events.toList.filter (·.isAdd)) ++ events.toList.filter (!·.isAdd)

theorem mem_addsFirst {first : ReactionEvent} (hfirst : first ∈ events) (ev : ReactionEvent) :
    ev ∈ addsFirst events first ↔ ev ∈ events := by
  simp only [addsFirst, List.mem_append, List.mem_cons, List.mem_filter, Finset.mem_toList]
  constructor
  · rintro ((rfl | hev) | hev)
    exacts [hfirst, hev.1, hev.1]
  · intro hev
    cases hadd : ev.isAdd <;> simp [hev]

theorem apply_first (hfresh : s.Untouched messageId) (hid : ev.mark.messageId = messageId)
    (hadd : ev.isAdd = true) :
    (s.apply ev).Shows ev.mark.key ∧
      ∀ x ∈ (s.apply ev).reactions, x.key = ev.mark.key → x.stamp = ev.mark.stamp := by
  constructor
  · have hnone : ∀ a ∈ ([] : List ReactionEvent), a ∈ ({ev} : Finset ReactionEvent) := by simp
    refine shows_apply_add hfresh.traced hnone (fun peerId => ?_) (by simp) hadd hid ?_
    · have hle := Finset.card_le_card (Finset.filter_subset
        (fun ev => ev.isAdd ∧ ev.mark.peerId = peerId) {ev})
      exact Finset.card_image_le.trans (hle.trans (by simp))
    · simp [Outranks, hadd]
  · intro x hx hkey
    have hxid : x.messageId = messageId := (congrArg Prod.fst hkey).trans hid
    have hmem := (hfresh.traced.apply ev).added x hx hxid
    rw [List.nil_append, List.mem_singleton] at hmem
    rw [← hmem]

/-- The older add first, then every add, then every removal: the reaction is lost. -/
theorem not_shows_addsFirst (hfresh : s.Untouched messageId) (hev : ev ∈ events)
    (hid : ev.mark.messageId = messageId) (hadd : ev.isAdd = true)
    (hoverruled : ¬Outranks events ev) : ¬(s.applyAll (addsFirst events ev)).Shows ev.mark.key := by
  rintro ⟨x, hx, hkey⟩
  have hrun := hfresh.traced.applyAll (addsFirst events ev)
  have hstamp : x.stamp = ev.mark.stamp := by
    obtain ⟨hshows, hfirst⟩ := apply_first hfresh hid hadd
    rw [addsFirst, ReactionStore.applyAll, List.foldl_append, List.foldl_cons] at hx
    have hx' := mem_of_applyAll_removes (fun a ha => by simpa using (List.mem_filter.1 ha).2) hx
    exact stamp_applyAll_adds hshows hfirst (fun a ha => (List.mem_filter.1 ha).2) x hx' hkey
  refine hoverruled fun ev' hev' hremoval hkey' => ?_
  rw [← hstamp]
  exact hrun.outranks_of_mem hx ((congrArg Prod.fst hkey).trans hid) ev'
    ((mem_addsFirst hev ev').2 hev') hremoval (hkey'.trans hkey.symm)

end Delivery

/-- Every delivery shows the reaction exactly when it stands, if and only if a reaction that stands
has no add that a removal overrules. -/
theorem reactions_agree_iff {s : ReactionStore} {messageId : String}
    (hfresh : s.Untouched messageId) {events : Finset ReactionEvent}
    (hid : ∀ ev ∈ events, ev.mark.messageId = messageId)
    (hthree : ∀ peerId, (emojisOf events peerId).card ≤ 3) (emoji peerId : String) :
    (∀ es : List ReactionEvent, (∀ ev, ev ∈ es ↔ ev ∈ events) →
        ((s.applyAll es).Shows (messageId, emoji, peerId) ↔
          Stands events (messageId, emoji, peerId))) ↔
      (Stands events (messageId, emoji, peerId) →
        ∀ ev ∈ events, ev.isAdd = true → ev.mark.key = (messageId, emoji, peerId) →
          Outranks events ev) := by
  constructor
  · intro h hstands ev hev hadd hkey
    by_contra hoverruled
    refine not_shows_addsFirst hfresh hev (hid ev hev) hadd hoverruled ?_
    rw [hkey]
    exact (h _ (mem_addsFirst hev)).2 hstands
  · intro h es hes
    have hrun := hfresh.traced.applyAll es
    refine ⟨stands_of_shows hrun hes rfl, fun hstands => ?_⟩
    obtain ⟨ev, hev, hadd, hkey, -⟩ := id hstands
    exact shows_applyAll hfresh.traced (by simp) hthree rfl (h hstands) (fun a => (hes a).1)
      (.inr ⟨ev, (hes ev).2 hev, hadd, hkey⟩)

def reactionAt (isAdd : Bool) (stamp : Int) : ReactionEvent :=
  ⟨isAdd, { messageId := "m", emoji := "+1", peerId := "p", stamp }⟩

theorem reactions_agree_removed :
    ReactionStore.Untouched {} "m" ∧ ∀ es : List ReactionEvent,
      (∀ ev, ev ∈ es ↔ ev ∈ ({reactionAt true 1, reactionAt false 3} : Finset ReactionEvent)) →
        ((ReactionStore.applyAll {} es).Shows ("m", "+1", "p") ↔
          Stands {reactionAt true 1, reactionAt false 3} ("m", "+1", "p")) :=
  have hfresh : ReactionStore.Untouched {} "m" := by simp [ReactionStore.Untouched]
  ⟨hfresh, (reactions_agree_iff hfresh (by decide)
    (fun peerId => (Finset.card_image_le.trans (Finset.card_filter_le _ _)).trans (by decide))
    "+1" "p").2 (by decide)⟩

/-- Added at 1, taken away at 3 and added again at 5: a device that gets both adds before the
removal shows nothing. -/
theorem not_reactions_agree_readded :
    ¬ ∀ es : List ReactionEvent,
      (∀ ev, ev ∈ es ↔ ev ∈ ({reactionAt true 1, reactionAt false 3, reactionAt true 5} :
          Finset ReactionEvent)) →
        ((ReactionStore.applyAll {} es).Shows ("m", "+1", "p") ↔
          Stands {reactionAt true 1, reactionAt false 3, reactionAt true 5} ("m", "+1", "p")) := by
  intro h
  have hrun := h [reactionAt true 1, reactionAt true 5, reactionAt false 3]
    (by simp [or_comm, or_left_comm])
  exact absurd hrun (by decide)

end Hollow.Store
