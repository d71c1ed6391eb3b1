import Mathlib

/-! The ring a relay keeps of the frames a device has not acked. Its entries cover every number
after the last ack once, in order: a real frame its own number, a tombstone the run of frames
evicted there. What the ring stands for is the list of those numbers' contents, and every operation
is read off it. -/

namespace Hollow.Session

/-- An entry of the ring: a frame with its bytes, or a tombstone for `gap` frames up to `seq`. -/
structure Frame (β : Type) where
  seq : Nat
  gap : Nat
  bytes : Option β
  /-- The sender's address share. -/
  share : Nat

structure Ring (β : Type) where
  entries : List (Frame β)
  sent : Nat
  acked : Nat

inductive Down (β : Type) where
  | data (bytes : β)
  | gap (n : Nat)
  | ack (h : Nat)
  | hbAck (h : Nat)
  | resumed (h : Nat)

def frameWeightOverhead : Nat := 1024
def ringMaxBytes : Nat := 8 * 1024 * 1024
def ringMaxFrames : Nat := 4096
def mergeNear : Nat := 32
def compactSlack : Nat := 64

variable {β : Type}

namespace Frame

def tombstone (f : Frame β) : Bool := f.gap ≠ 0

def firstOf (f : Frame β) : Nat := if f.tombstone then f.seq - f.gap + 1 else f.seq

end Frame

namespace Ring

def empty : Ring β := ⟨[], 0, 0⟩

def push (r : Ring β) (bytes : β) (share : Nat) : Ring β :=
  { r with entries := r.entries ++ [⟨r.sent + 1, 0, some bytes, share⟩], sent := r.sent + 1 }

/-- A tombstone next to the tombstone at the end joins it. -/
def addMerged (out : List (Frame β)) (f : Frame β) : List (Frame β) :=
  match out.getLast? with
  | some last =>
    if f.tombstone && last.tombstone then
      out.dropLast ++ [{ last with seq := f.seq, gap := last.gap + f.gap }]
    else out ++ [f]
  | none => out ++ [f]

def pushGap (r : Ring β) : Ring β :=
  { r with entries := addMerged r.entries ⟨r.sent + 1, 1, none, 0⟩, sent := r.sent + 1 }

def canResumeFrom (r : Ring β) (h : Nat) : Bool := r.acked ≤ h && h ≤ r.sent

/-- The entries whose numbers reach past `h`. -/
def after (h : Nat) (entries : List (Frame β)) : List (Frame β) :=
  entries.dropWhile fun f => f.seq ≤ h

/-- A tombstone in front keeps its numbers past `h`. -/
def trimFront (h : Nat) : List (Frame β) → List (Frame β)
  | [] => []
  | t :: entries =>
    if t.tombstone && t.firstOf ≤ h then { t with gap := t.seq - h } :: entries else t :: entries

/-- The device holds every frame up to `h`; a number out of range changes nothing. -/
def ack (r : Ring β) (h : Nat) : Ring β × Bool :=
  if r.canResumeFrom h then
    ({ r with entries := trimFront h (after h r.entries), acked := h }, true)
  else (r, false)

def gapFrames (run : Nat) : List (Down β) := if run = 0 then [] else [.gap run]

/-- What is written again after `h`: each run of tombstones as one gap. -/
def replayFrom (h run : Nat) : List (Frame β) → List (Down β)
  | [] => gapFrames run
  | f :: entries =>
    if f.tombstone then replayFrom h (run + if h < f.firstOf then f.gap else f.seq - h) entries
    else gapFrames run ++ f.bytes.toList.map .data ++ replayFrom h 0 entries

def replayAfter (r : Ring β) (h : Nat) : List (Down β) := replayFrom h 0 (after h r.entries)

def realFrames (r : Ring β) : List (Frame β) := r.entries.filter fun f => !f.tombstone

def bytes (size : β → Nat) (r : Ring β) : Nat :=
  (r.realFrames.map fun f => (f.bytes.map size).getD 0).sum

def nearEnd (length i : Nat) : Bool := i < mergeNear || length - i ≤ mergeNear

/-- Two tombstones side by side become one where the erase moves few entries. -/
def mergePair (entries : List (Frame β)) (i : Nat) : List (Frame β) :=
  match entries.drop i with
  | a :: b :: rest =>
    if a.tombstone && b.tombstone && nearEnd entries.length i then
      entries.take i ++ { b with gap := b.gap + a.gap } :: rest
    else entries
  | _ => entries

/-- Every run of adjacent tombstones becomes one entry. -/
def compact (entries : List (Frame β)) : List (Frame β) := entries.foldl addMerged []

/-- Entry `i` becomes a tombstone, merged into a run beside it where that is cheap. -/
def bury (r : Ring β) (i : Nat) : Ring β :=
  let entries := r.entries.modify i fun f => { seq := f.seq, gap := 1, bytes := none, share := 0 }
  let entries := mergePair entries i
  let entries := if 0 < i then mergePair entries (i - 1) else entries
  let tombs := entries.countP Frame.tombstone
  { r with
    entries := if entries.length - tombs + compactSlack < tombs then compact entries else entries }

/-- What a share holds here: its weight, then how old its oldest frame is. The source keeps these
keys in `by_weight_` as frames come and go; here they are read off the entries. -/
def weightKey (size : β → Nat) (r : Ring β) (share : Nat) : Nat ×ₗ Nat ×ₗ Nat :=
  let held := r.realFrames.filter (·.share = share)
  toLex ((held.map fun f => (f.bytes.map size).getD 0 + frameWeightOverhead).sum,
    toLex (2 ^ 64 - 1 - (held.head?.map (·.seq)).getD 0, share))

/-- The oldest frame of the share that holds the most becomes a tombstone. -/
def evictOne (size : β → Nat) (r : Ring β) : Option (Ring β) :=
  ((r.realFrames.map (·.share)).argmax (r.weightKey size)).bind fun share =>
    (r.entries.findIdx? fun f => !f.tombstone && f.share = share).map r.bury

def overCaps (size : β → Nat) (r : Ring β) : Bool :=
  ringMaxBytes < r.bytes size || ringMaxFrames < r.realFrames.length

/-- Evicts until the ring is within its caps; each eviction leaves one real frame fewer. -/
def enforceFuel (size : β → Nat) : Nat → Ring β → Ring β
  | 0, r => r
  | n + 1, r =>
    if r.overCaps size then
      match r.evictOne size with
      | some r => enforceFuel size n r
      | none => r
    else r

def enforce (size : β → Nat) (r : Ring β) : Ring β := enforceFuel size r.realFrames.length r

/-- A frame larger than the ring is counted as a tombstone. -/
def ringPush (size : β → Nat) (r : Ring β) (bytes : β) (share : Nat) : Ring β :=
  if ringMaxBytes < size bytes then r.pushGap else (r.push bytes share).enforce size

end Ring

/-- The contents of the numbers an entry covers. -/
def Frame.expand (f : Frame β) : List (Option β) :=
  if f.gap = 0 then [f.bytes] else List.replicate f.gap none

def contents (entries : List (Frame β)) : List (Option β) := entries.flatMap Frame.expand

/-- The entries cover the numbers from `lo` to `hi`, in order. -/
def Covers (lo : Nat) : List (Frame β) → Nat → Prop
  | [], hi => lo = hi
  | f :: entries, hi => f.seq = lo + f.expand.length ∧ Covers f.seq entries hi

/-- A real frame has its bytes, a tombstone none. -/
def Frame.WellFormed (f : Frame β) : Prop := f.bytes.isSome ↔ f.gap = 0

structure Ring.Sound (r : Ring β) : Prop where
  covers : Covers r.acked r.entries r.sent
  wellFormed : ∀ f ∈ r.entries, f.WellFormed

abbrev Masks (before after : List (Option β)) : Prop :=
  List.Forall₂ (fun a b => b = a ∨ b = none) before after

/-- The stream a device reads off a socket. -/
def stream (written : List (Down β)) : List (Option β) :=
  written.flatMap fun
    | .data bytes => [some bytes]
    | .gap n => List.replicate n none
    | _ => []

variable {lo mid hi h : Nat} {f a b : Frame β} {entries xs ys : List (Frame β)}

@[simp] theorem contents_nil : contents ([] : List (Frame β)) = [] := rfl

@[simp] theorem contents_cons : contents (f :: entries) = f.expand ++ contents entries := rfl

@[simp] theorem contents_append : contents (xs ++ ys) = contents xs ++ contents ys := by
  simp [contents]

@[simp] theorem stream_nil : stream ([] : List (Down β)) = [] := rfl

@[simp] theorem stream_data (bytes : β) (written : List (Down β)) :
    stream (.data bytes :: written) = some bytes :: stream written := rfl

@[simp] theorem stream_append (xs ys : List (Down β)) :
    stream (xs ++ ys) = stream xs ++ stream ys := by
  simp [stream]

theorem covers_append : Covers lo (xs ++ ys) hi ↔ ∃ mid, Covers lo xs mid ∧ Covers mid ys hi := by
  induction xs generalizing lo with
  | nil =>
    refine ⟨fun h => ⟨lo, rfl, h⟩, ?_⟩
    rintro ⟨_, rfl, h⟩
    exact h
  | cons f xs ih =>
    simp only [List.cons_append, Covers, ih]
    constructor
    · rintro ⟨hf, mid, hxs, hys⟩
      exact ⟨mid, ⟨hf, hxs⟩, hys⟩
    · rintro ⟨mid, ⟨hf, hxs⟩, hys⟩
      exact ⟨hf, mid, hxs, hys⟩

theorem Covers.length (h : Covers lo entries hi) : lo + (contents entries).length = hi := by
  induction entries generalizing lo with
  | nil => exact h
  | cons f entries ih =>
    obtain ⟨hf, hrest⟩ := h
    have := ih hrest
    simp only [contents_cons, List.length_append]
    omega

theorem Frame.expand_of_tombstone (h : f.tombstone) : f.expand = List.replicate f.gap none := by
  simp only [tombstone, ne_eq, decide_not, Bool.not_eq_true', decide_eq_false_iff_not] at h
  rw [expand, if_neg h]

theorem Frame.tombstone_iff : f.tombstone = true ↔ f.gap ≠ 0 := by simp [tombstone]

theorem Frame.expand_pos (f : Frame β) : 0 < f.expand.length := by
  unfold Frame.expand
  split_ifs with h
  · exact Nat.one_pos
  · simpa using Nat.pos_of_ne_zero h

theorem Masks.refl (l : List (Option β)) : Masks l l := List.forall₂_same.2 fun _ _ => .inl rfl

theorem Masks.trans {l m n : List (Option β)} (hlm : Masks l m) (hmn : Masks m n) : Masks l n := by
  induction hlm generalizing n with
  | nil => exact hmn
  | cons hab _ ih =>
    cases hmn with
    | cons hbc hrest =>
      refine .cons ?_ (ih hrest)
      rcases hbc with rfl | rfl
      · exact hab
      · exact .inr rfl

/-- The same numbers with the same contents, told by other entries. -/
structure Same (xs ys : List (Frame β)) : Prop where
  contents : contents ys = contents xs
  covers : ∀ {lo hi}, Covers lo xs hi → Covers lo ys hi
  wellFormed : (∀ f ∈ xs, f.WellFormed) → ∀ f ∈ ys, f.WellFormed
  real : ys.filter (fun f => !f.tombstone) = xs.filter fun f => !f.tombstone

theorem Same.refl : Same xs xs := ⟨rfl, id, id, rfl⟩

theorem Same.trans {zs : List (Frame β)} (hxy : Same xs ys) (hyz : Same ys zs) : Same xs zs :=
  ⟨hyz.contents.trans hxy.contents, hyz.covers ∘ hxy.covers, hyz.wellFormed ∘ hxy.wellFormed,
    hyz.real.trans hxy.real⟩

/-- Two tombstones side by side may be told as one. -/
theorem Same.merge {t : Frame β} (ha : a.tombstone) (hb : b.tombstone)
    (hgap : t.gap = a.gap + b.gap) (hseq : t.seq = b.seq)
    (hbytes : t.bytes = a.bytes ∨ t.bytes = b.bytes) :
    Same (xs ++ a :: b :: ys) (xs ++ t :: ys) := by
  have hta : a.gap ≠ 0 := Frame.tombstone_iff.1 ha
  have htb : b.gap ≠ 0 := Frame.tombstone_iff.1 hb
  have ht : t.tombstone := Frame.tombstone_iff.2 (by omega)
  have hexpand : t.expand = a.expand ++ b.expand := by
    rw [Frame.expand_of_tombstone ha, Frame.expand_of_tombstone hb, Frame.expand_of_tombstone ht,
      List.replicate_append_replicate, hgap]
  refine ⟨?_, ?_, ?_, ?_⟩
  · simp [hexpand]
  · intro lo hi h
    obtain ⟨mid, hxs, hseqa, hseqb, hys⟩ := covers_append.1 h
    refine covers_append.2 ⟨mid, hxs, ?_, hseq ▸ hys⟩
    rw [hseq, hexpand, List.length_append, hseqb, hseqa]
    omega
  · intro h f hf
    have hwa : a.WellFormed := h a (by simp)
    have hwb : b.WellFormed := h b (by simp)
    rcases List.mem_append.1 hf with hf | hf
    · exact h f (List.mem_append_left _ hf)
    · rcases List.mem_cons.1 hf with rfl | hf
      · unfold Frame.WellFormed at *
        grind
      · exact h f (List.mem_append_right _ (List.mem_cons_of_mem _ (List.mem_cons_of_mem _ hf)))
  · simp [ha, hb, ht]

theorem same_mergePair (entries : List (Frame β)) (i : Nat) :
    Same entries (Ring.mergePair entries i) := by
  unfold Ring.mergePair
  split
  · rename_i a b rest hdrop
    split_ifs with h
    · simp only [Bool.and_eq_true] at h
      have hsame : Same (entries.take i ++ a :: b :: rest)
          (entries.take i ++ { b with gap := b.gap + a.gap } :: rest) :=
        .merge h.1.1 h.1.2 (Nat.add_comm ..) rfl (.inr rfl)
      rwa [← hdrop, List.take_append_drop] at hsame
    · exact .refl
  · exact .refl

theorem same_addMerged (out : List (Frame β)) (f : Frame β) (entries : List (Frame β)) :
    Same (out ++ f :: entries) (Ring.addMerged out f ++ entries) := by
  unfold Ring.addMerged
  split
  · rename_i last hlast
    split_ifs with h
    · obtain ⟨init, rfl⟩ := List.getLast?_eq_some_iff.1 hlast
      simp only [Bool.and_eq_true] at h
      have hmerge : Same (init ++ last :: f :: entries)
          (init ++ { last with seq := f.seq, gap := last.gap + f.gap } :: entries) :=
        .merge h.2 h.1 rfl rfl (.inl rfl)
      simpa using hmerge
    · simpa using Same.refl
  · simpa using Same.refl

theorem same_compact (entries : List (Frame β)) : Same entries (Ring.compact entries) := by
  -- the entries already folded stand in front of those to come
  suffices h : ∀ out, Same (out ++ entries) (entries.foldl Ring.addMerged out) from h []
  induction entries with
  | nil =>
    intro out
    rw [List.append_nil]
    exact .refl
  | cons f entries ih => exact fun out => (same_addMerged out f entries).trans (ih _)

namespace Ring

variable {r : Ring β}

theorem Sound.length (h : r.Sound) : r.acked + (contents r.entries).length = r.sent :=
  h.covers.length

theorem sound_empty : (empty : Ring β).Sound := ⟨rfl, by simp [empty]⟩

theorem Sound.append (hr : r.Sound) {f : Frame β} (hseq : f.seq = r.sent + f.expand.length)
    (hf : f.WellFormed) : Sound { r with entries := r.entries ++ [f], sent := f.seq } := by
  refine ⟨covers_append.2 ⟨r.sent, hr.covers, hseq, rfl⟩, fun g hg => ?_⟩
  rcases List.mem_append.1 hg with hg | hg
  · exact hr.wellFormed g hg
  · rw [List.mem_singleton] at hg
    exact hg ▸ hf

theorem Sound.push (hr : r.Sound) (b : β) (share : Nat) : (r.push b share).Sound :=
  hr.append (f := ⟨r.sent + 1, 0, some b, share⟩) rfl (by simp [Frame.WellFormed])

theorem contents_push (b : β) (share : Nat) :
    contents (r.push b share).entries = contents r.entries ++ [some b] := by
  simp [Ring.push, Frame.expand]

theorem same_pushGap : Same (r.entries ++ [⟨r.sent + 1, 1, none, 0⟩]) r.pushGap.entries := by
  simpa [pushGap] using same_addMerged r.entries ⟨r.sent + 1, 1, none, 0⟩ []

theorem Sound.pushGap (hr : r.Sound) : r.pushGap.Sound := by
  have happend := hr.append (f := ⟨r.sent + 1, 1, none, 0⟩) rfl (by simp [Frame.WellFormed])
  exact ⟨same_pushGap.covers happend.covers, same_pushGap.wellFormed happend.wellFormed⟩

theorem contents_pushGap : contents r.pushGap.entries = contents r.entries ++ [none] := by
  simp [same_pushGap.contents, Frame.expand]

/-- An ack leaves the contents of the numbers past it. -/
theorem covers_trimFront {entries : List (Frame β)} {lo hi h : Nat} (hc : Covers lo entries hi)
    (hw : ∀ f ∈ entries, f.WellFormed) (hlo : lo ≤ h) (hhi : h ≤ hi) :
    Covers h (trimFront h (after h entries)) hi ∧
      contents (trimFront h (after h entries)) = (contents entries).drop (h - lo) ∧
      ∀ f ∈ trimFront h (after h entries), f.WellFormed := by
  induction entries generalizing lo with
  | nil =>
    have : lo = hi := hc
    simp [after, trimFront, Covers]
    omega
  | cons f entries ih =>
    obtain ⟨hf, hrest⟩ := hc
    by_cases hseq : f.seq ≤ h
    · -- the entry is acked whole
      have hafter : after h (f :: entries) = after h entries := by simp [after, hseq]
      obtain ⟨hcov, hcont, hwf⟩ := ih hrest (fun g hg => hw g (List.mem_cons_of_mem _ hg)) hseq
      rw [hafter]
      refine ⟨hcov, ?_, hwf⟩
      rw [hcont, contents_cons, List.drop_append,
        List.drop_eq_nil_of_le (by omega : f.expand.length ≤ h - lo), List.nil_append]
      congr 1
      omega
    · have hafter : after h (f :: entries) = f :: entries := by simp [after, hseq]
      rw [hafter, trimFront]
      split_ifs with htrim
      · -- the ack ends inside a tombstone's run
        simp only [Bool.and_eq_true, Frame.firstOf] at htrim
        have hgap := Frame.tombstone_iff.1 htrim.1
        have hexp := Frame.expand_of_tombstone htrim.1
        rw [hexp, List.length_replicate] at hf
        have htrim' : Frame.expand { f with gap := f.seq - h } =
            List.replicate (f.seq - h) none := by
          unfold Frame.expand
          rw [if_neg (by simp; omega)]
        refine ⟨⟨?_, hrest⟩, ?_, ?_⟩
        · rw [htrim', List.length_replicate]
          simp only
          omega
        · rw [contents_cons, contents_cons, htrim', hexp, List.drop_append_of_le_length
            (by rw [List.length_replicate]; omega), List.drop_replicate]
          congr 2
          omega
        · intro g hg
          rcases List.mem_cons.1 hg with rfl | hg
          · have := hw f List.mem_cons_self
            simp only [Frame.WellFormed] at this ⊢
            grind
          · exact hw g (List.mem_cons_of_mem _ hg)
      · -- the ack ends right in front of the entry
        have hlo' : h = lo := by
          by_cases ht : f.tombstone
          · have hexp := Frame.expand_of_tombstone ht
            rw [hexp, List.length_replicate] at hf
            simp only [ht, Bool.true_and, decide_eq_true_eq, Frame.firstOf, if_true] at htrim
            omega
          · have hgap : f.gap = 0 := by simpa [Frame.tombstone] using ht
            have : f.expand.length = 1 := by simp [Frame.expand, hgap]
            omega
        subst hlo'
        exact ⟨⟨hf, hrest⟩, by simp, hw⟩

theorem canResumeFrom_iff {h : Nat} : r.canResumeFrom h = true ↔ r.acked ≤ h ∧ h ≤ r.sent := by
  simp [canResumeFrom]

theorem ack_sent (h : Nat) : (r.ack h).1.sent = r.sent := by
  unfold ack
  split_ifs <;> rfl

theorem Sound.ack (hr : r.Sound) (h : Nat) : (r.ack h).1.Sound := by
  unfold Ring.ack
  split_ifs with hin
  · obtain ⟨hlo, hhi⟩ := canResumeFrom_iff.1 hin
    obtain ⟨hcov, -, hwf⟩ := covers_trimFront hr.covers hr.wellFormed hlo hhi
    exact ⟨hcov, hwf⟩
  · exact hr

theorem ack_cases (hr : r.Sound) (h : Nat) :
    (r.ack h).1 = r ∨ (r.acked ≤ h ∧ h ≤ r.sent ∧ (r.ack h).1.acked = h ∧
      contents (r.ack h).1.entries = (contents r.entries).drop (h - r.acked)) := by
  unfold Ring.ack
  split_ifs with hin
  · obtain ⟨hlo, hhi⟩ := canResumeFrom_iff.1 hin
    exact .inr ⟨hlo, hhi, rfl, (covers_trimFront hr.covers hr.wellFormed hlo hhi).2.1⟩
  · exact .inl rfl

theorem stream_gapFrames (run : Nat) :
    stream (gapFrames run : List (Down β)) = List.replicate run none := by
  unfold gapFrames
  split_ifs with h
  · simp [h]
  · simp [stream]

theorem stream_replayFrom {entries : List (Frame β)} {lo hi h : Nat} (hc : Covers lo entries hi)
    (hw : ∀ f ∈ entries, f.WellFormed) (hlo : h ≤ lo) (run : Nat) :
    stream (replayFrom h run entries) = List.replicate run none ++ contents entries := by
  induction entries generalizing lo run with
  | nil => simp [replayFrom, stream_gapFrames]
  | cons f entries ih =>
    obtain ⟨hf, hrest⟩ := hc
    have hpos := Frame.expand_pos f
    have hrun := ih hrest (fun g hg => hw g (List.mem_cons_of_mem _ hg)) (by omega)
    by_cases ht : f.tombstone
    · have hexp := Frame.expand_of_tombstone ht
      have hfirst : h < f.firstOf := by
        rw [hexp, List.length_replicate] at hf
        simp only [Frame.firstOf, ht, if_true]
        omega
      simp only [replayFrom, ht, if_true, hfirst, hrun, contents_cons, hexp]
      rw [← List.append_assoc, List.replicate_append_replicate]
    · have hgap : f.gap = 0 := by simpa [Frame.tombstone] using ht
      obtain ⟨b, hb⟩ := Option.isSome_iff_exists.1 ((hw f List.mem_cons_self).2 hgap)
      simp [replayFrom, ht, hrun, hb, stream_gapFrames, Frame.expand, hgap]

/-- A device that resumes from the last ack reads off the socket what the ring stands for. -/
theorem stream_replayAfter (hr : r.Sound) :
    stream (r.replayAfter r.acked) = contents r.entries := by
  have hafter : after r.acked r.entries = r.entries := by
    cases hentries : r.entries with
    | nil => rfl
    | cons f entries =>
      have hcov := hr.covers
      rw [hentries] at hcov
      have := Frame.expand_pos f
      have : ¬ f.seq ≤ r.acked := by
        have := hcov.1
        omega
      simp [after, this]
  rw [replayAfter, hafter, stream_replayFrom hr.covers hr.wellFormed le_rfl]
  simp

/-- What an eviction may do to a ring: some of the numbers it holds go. -/
structure Evicts (r r' : Ring β) : Prop where
  sent : r'.sent = r.sent
  acked : r'.acked = r.acked
  sound : r'.Sound
  masks : Masks (contents r.entries) (contents r'.entries)

theorem Evicts.refl (hr : r.Sound) : r.Evicts r := ⟨rfl, rfl, hr, Masks.refl _⟩

theorem Evicts.trans {r' r'' : Ring β} (h : r.Evicts r') (h' : r'.Evicts r'') : r.Evicts r'' :=
  ⟨h'.sent.trans h.sent, h'.acked.trans h.acked, h'.sound, Masks.trans h.masks h'.masks⟩

theorem Evicts.of_same {entries : List (Frame β)} (hr : r.Sound) (h : Same r.entries entries) :
    r.Evicts { r with entries := entries } :=
  ⟨rfl, rfl, ⟨h.covers hr.covers, h.wellFormed hr.wellFormed⟩, h.contents ▸ Masks.refl _⟩

/-- Entry `i` made a tombstone, before any merge. -/
def sunk (r : Ring β) (i : Nat) (f : Frame β) : List (Frame β) :=
  r.entries.take i ++
    { seq := f.seq, gap := 1, bytes := none, share := 0 } :: r.entries.drop (i + 1)

section Bury

variable {i : Nat} {f : Frame β}

theorem entries_eq_of_getElem? (hi : r.entries[i]? = some f) :
    r.entries = r.entries.take i ++ f :: r.entries.drop (i + 1) := by
  obtain ⟨hlt, rfl⟩ := List.getElem?_eq_some_iff.1 hi
  rw [List.getElem_cons_drop, List.take_append_drop]

theorem same_bury (hi : r.entries[i]? = some f) : Same (r.sunk i f) (r.bury i).entries := by
  obtain ⟨hlt, hget⟩ := List.getElem?_eq_some_iff.1 hi
  have hmod : r.entries.modify i (fun f => { seq := f.seq, gap := 1, bytes := none, share := 0 }) =
      r.sunk i f := by
    rw [List.modify_eq_take_cons_drop hlt, hget, sunk]
  simp only [bury, hmod]
  refine (same_mergePair _ i).trans ?_
  split_ifs
  · exact (same_mergePair _ _).trans (same_compact _)
  · exact same_mergePair _ _
  · exact same_compact _
  · exact .refl

/-- A frame that is buried loses its contents, and no other does. -/
theorem evicts_bury (hr : r.Sound) (hi : r.entries[i]? = some f) (hf : f.tombstone = false) :
    r.Evicts (r.bury i) := by
  have hgap : f.gap = 0 := by simpa [Frame.tombstone] using hf
  have hexp : f.expand = [f.bytes] := by simp [Frame.expand, hgap]
  have hsplit := entries_eq_of_getElem? hi
  have hsunk : r.Evicts { r with entries := r.sunk i f } := by
    refine ⟨rfl, rfl, ⟨?_, ?_⟩, ?_⟩
    · have hcov := hr.covers
      rw [hsplit] at hcov
      obtain ⟨mid, hpre, hseq, hpost⟩ := covers_append.1 hcov
      rw [hexp] at hseq
      exact covers_append.2 ⟨mid, hpre, hseq, hpost⟩
    · intro g hg
      rcases List.mem_append.1 hg with hg | hg
      · exact hr.wellFormed g (List.mem_of_mem_take hg)
      · rcases List.mem_cons.1 hg with rfl | hg
        · simp [Frame.WellFormed]
        · exact hr.wellFormed g (List.mem_of_mem_drop hg)
    · nth_rewrite 1 [hsplit]
      simp only [sunk, contents_append, contents_cons, hexp]
      exact List.rel_append (Masks.refl _) (.cons (.inr rfl) (Masks.refl _))
  exact hsunk.trans (Evicts.of_same hsunk.sound (same_bury hi))

theorem realFrames_bury (hi : r.entries[i]? = some f) (hf : f.tombstone = false) :
    ∃ before after, r.realFrames = before ++ f :: after ∧
      (r.bury i).realFrames = before ++ after := by
  have hreal : r.realFrames = _ := congrArg (List.filter _) (entries_eq_of_getElem? hi)
  rw [List.filter_append, List.filter_cons_of_pos (by simp [hf])] at hreal
  refine ⟨_, _, hreal, ?_⟩
  rw [realFrames, (same_bury hi).real, sunk, List.filter_append,
    List.filter_cons_of_neg (by simp [Frame.tombstone])]

end Bury

section Enforce

variable (size : β → Nat)

theorem evictOne_eq_some {r' : Ring β} (h : r.evictOne size = some r') :
    ∃ i f, r.entries[i]? = some f ∧ f.tombstone = false ∧ r' = r.bury i := by
  obtain ⟨share, -, hfind⟩ := Option.bind_eq_some_iff.1 h
  obtain ⟨i, hi, rfl⟩ := Option.map_eq_some_iff.1 hfind
  obtain ⟨hlt, hp, -⟩ := List.findIdx?_eq_some_iff_getElem.1 hi
  simp only [Bool.and_eq_true, Bool.not_eq_true'] at hp
  exact ⟨i, _, List.getElem?_eq_getElem hlt, hp.1, rfl⟩

theorem evicts_enforceFuel (n : Nat) (hr : r.Sound) : r.Evicts (enforceFuel size n r) := by
  induction n generalizing r with
  | zero => exact .refl hr
  | succ n ih =>
    unfold enforceFuel
    split_ifs with hover
    · split
      · rename_i r' hr'
        obtain ⟨i, f, hi, hf, rfl⟩ := evictOne_eq_some size hr'
        have hbury := evicts_bury hr hi hf
        exact hbury.trans (ih hbury.sound)
      · exact .refl hr
    · exact .refl hr

theorem evicts_enforce (hr : r.Sound) : r.Evicts (r.enforce size) := evicts_enforceFuel size _ hr

/-- A push adds the frame's number, at the price of contents already held. -/
theorem ringPush_spec (hr : r.Sound) (b : β) (share : Nat) :
    (r.ringPush size b share).sent = r.sent + 1 ∧ (r.ringPush size b share).acked = r.acked ∧
      (r.ringPush size b share).Sound ∧
      Masks (contents r.entries ++ [some b]) (contents (r.ringPush size b share).entries) := by
  unfold ringPush
  split_ifs
  · refine ⟨rfl, rfl, hr.pushGap, ?_⟩
    rw [contents_pushGap]
    exact List.rel_append (Masks.refl _) (.cons (.inr rfl) .nil)
  · have h := evicts_enforce size (hr.push b share)
    refine ⟨h.sent, h.acked, h.sound, ?_⟩
    rw [← contents_push b share]
    exact h.masks

theorem overCaps_of_sublist {r' : Ring β} (h : r'.realFrames.Sublist r.realFrames)
    (hr : r.overCaps size = false) : r'.overCaps size = false := by
  have hbytes : r'.bytes size ≤ r.bytes size := (h.map _).sum_le_sum (by simp)
  have hlength := h.length_le
  simp only [overCaps, Bool.or_eq_false_iff, decide_eq_false_iff_not] at hr ⊢
  omega

theorem evictOne_isSome (h : r.realFrames ≠ []) : (r.evictOne size).isSome := by
  obtain ⟨share, hshare⟩ := Option.ne_none_iff_exists'.1 fun hnone :
      (r.realFrames.map (·.share)).argmax (r.weightKey size) = none =>
    h (List.map_eq_nil_iff.1 (List.argmax_eq_none.1 hnone))
  obtain ⟨f, hf, hfs⟩ := List.mem_map.1 (List.argmax_mem hshare)
  obtain ⟨hmem, hreal⟩ := List.mem_filter.1 hf
  rw [evictOne, hshare, Option.bind_some, Option.isSome_map, List.findIdx?_isSome]
  exact List.any_eq_true.2 ⟨f, hmem, by simpa [hfs] using hreal⟩

/-- As many rounds as there are real frames are enough. -/
theorem overCaps_enforceFuel (n : Nat) (hn : r.realFrames.length ≤ n) :
    (enforceFuel size n r).overCaps size = false := by
  induction n generalizing r with
  | zero =>
    have hnil : r.realFrames = [] := List.length_eq_zero_iff.1 (Nat.le_zero.1 hn)
    simp [enforceFuel, overCaps, bytes, hnil]
  | succ n ih =>
    unfold enforceFuel
    split_ifs with hover
    · have hne : r.realFrames ≠ [] := by
        rintro hnil
        simp [overCaps, bytes, hnil] at hover
      obtain ⟨r', hr'⟩ := Option.isSome_iff_exists.1 (evictOne_isSome size hne)
      rw [hr']
      obtain ⟨i, f, hi, hf, rfl⟩ := evictOne_eq_some size hr'
      obtain ⟨before, after, hreal, hburied⟩ := realFrames_bury hi hf
      refine ih ?_
      rw [hreal] at hn
      rw [hburied]
      simp only [List.length_append, List.length_cons] at hn ⊢
      omega
    · simpa using hover

theorem overCaps_ringPush (hr : r.overCaps size = false) (b : β) (share : Nat) :
    (r.ringPush size b share).overCaps size = false := by
  unfold ringPush
  split_ifs
  · refine overCaps_of_sublist size ?_ hr
    rw [realFrames, same_pushGap.real]
    simp [realFrames, Frame.tombstone]
  · exact overCaps_enforceFuel size _ le_rfl

theorem realFrames_ack (h : Nat) : (r.ack h).1.realFrames.Sublist r.realFrames := by
  unfold ack
  split_ifs
  swap
  · exact List.Sublist.refl _
  have hhead := List.head?_dropWhile_not (fun f : Frame β => decide (f.seq ≤ h)) r.entries
  have hafter : (after h r.entries).Sublist r.entries := (List.dropWhile_suffix _).sublist
  rw [← after] at hhead
  cases hentries : after h r.entries with
  | nil => simp [realFrames, trimFront]
  | cons t entries =>
    rw [hentries] at hhead hafter
    rw [trimFront]
    split_ifs
    · have hgap : t.seq - h ≠ 0 := by simpa [Nat.sub_eq_zero_iff_le] using hhead
      rw [realFrames, List.filter_cons_of_neg (by simpa [Frame.tombstone] using hgap)]
      exact ((List.sublist_cons_self t entries).trans hafter).filter _
    · exact hafter.filter _

end Enforce

end Ring

end Hollow.Session
