import Hollow.Frames.Seal

/-! The guard against repeated live frames. A sight is kept until its frame would be refused as
stale, in memory and in the store. After a restart the stored sights come back at once, late or not
at all; until they do, only frames stamped before the start are refused. A frame stamped ahead of
the clock can be acted on, and then again after such a restart. -/

namespace Hollow.Frames

open Identity (i64Max i64Min saturatingAdd)

def maxSeenPerSender : Nat := 16384

structure Row where
  sender : String
  nonce : Bytes
  expiresMs : Int
deriving DecidableEq

/-- What the channel the rows come on holds. -/
inductive Answer where
  | empty
  | sent (rows : List Row)
  | closed

structure Loading where
  bootMs : Int
  rows : Option Answer

structure ReplayGuard where
  seen : String → List (Bytes × Int) := fun _ => []
  loading : Option Loading := none

/-- Whether a row read at a time is still worth keeping. -/
def Row.InWindow (nowMs : Int) (r : Row) : Prop :=
  nowMs ≤ r.expiresMs ∧ r.expiresMs ≤ saturatingAdd nowMs (2 * liveSkewMs)

instance (nowMs : Int) (r : Row) : Decidable (r.InWindow nowMs) :=
  inferInstanceAs (Decidable (_ ∧ _))

namespace ReplayGuard

/-- `entry(nonce).or_insert(expires)`. -/
def orInsert (seen : List (Bytes × Int)) (nonce : Bytes) (expiresMs : Int) : List (Bytes × Int) :=
  match seen.lookup nonce with
  | some _ => seen
  | none => (nonce, expiresMs) :: seen

/-- `insert(nonce, expires)`. -/
def insert (seen : List (Bytes × Int)) (nonce : Bytes) (expiresMs : Int) : List (Bytes × Int) :=
  (nonce, expiresMs) :: seen.filter (·.1 ≠ nonce)

def retain (nowMs : Int) (seen : List (Bytes × Int)) : List (Bytes × Int) :=
  seen.filter (nowMs ≤ ·.2)

def mergeRow (nowMs : Int) (seen : String → List (Bytes × Int)) (r : Row) :
    String → List (Bytes × Int) :=
  if r.nonce.length = nonceLen ∧ r.InWindow nowMs ∧
      (seen r.sender).length < maxSeenPerSender then
    Function.update seen r.sender (orInsert (seen r.sender) r.nonce r.expiresMs)
  else seen

def merge (g : ReplayGuard) (rows : List Row) (nowMs : Int) : ReplayGuard :=
  { g with seen := rows.foldl (mergeRow nowMs) g.seen }

def settle (g : ReplayGuard) (nowMs : Int) : ReplayGuard :=
  match g.loading with
  | some ⟨_, some (.sent rows)⟩ => merge { g with loading := none } rows nowMs
  | some ⟨bootMs, some .closed⟩ => { g with loading := some ⟨bootMs, none⟩ }
  | _ => g

def firstSight (g : ReplayGuard) (sender : String) (nonce : Bytes) (tsMs nowMs : Int) :
    ReplayGuard × Option Row :=
  let g := g.settle nowMs
  if g.loading.any (tsMs < ·.bootMs) then (g, none)
  else
    let seen := g.seen sender
    let seen := if maxSeenPerSender ≤ seen.length then retain nowMs seen else seen
    if maxSeenPerSender ≤ seen.length then
      ({ g with seen := Function.update g.seen sender seen }, none)
    else
      let expiresMs := saturatingAdd tsMs liveSkewMs
      ({ g with seen := Function.update g.seen sender (insert seen nonce expiresMs) },
        if (seen.lookup nonce).isNone then some ⟨sender, nonce, expiresMs⟩ else none)

def prune (g : ReplayGuard) (nowMs : Int) : ReplayGuard :=
  let g := g.settle nowMs
  { g with seen := fun sender => retain nowMs (g.seen sender) }

def persisted (rows : List Row) (nowMs : Int) : ReplayGuard := merge {} rows nowMs

def startLoading (rows : Option Answer) (bootMs : Int) : ReplayGuard :=
  { loading := some ⟨bootMs, rows⟩ }

end ReplayGuard

/-- How the stored rows reach a guard that starts. -/
inductive Arrival where
  | atStart
  | late
  | unread

/-- The guard of the running process, the stored rows, and those the store read for it. -/
structure Device where
  guard : ReplayGuard := {}
  stored : List Row := []
  asked : List Row := []

inductive Event where
  | frame (bytes : Bytes) (sender room : String) (delivery : Delivery)
  | prune
  | restart (rows : Arrival)
  | rowsArrive
  | rowsLost

structure Sight where
  sender : String
  nonce : Bytes
  tsMs : Int
deriving DecidableEq

namespace Device

variable (w : Crypto)

def onFrame (d : Device) (nowMs : Int) (bytes : Bytes) (sender room : String)
    (delivery : Delivery) : Device × Option Sight :=
  match openFrame w bytes sender room delivery nowMs with
  | .error _ => (d, none)
  | .ok o =>
    if isStale o.tsMs nowMs then (d, none)
    else
      match d.guard.firstSight sender o.nonce o.tsMs nowMs with
      | (guard, none) => ({ d with guard }, none)
      | (guard, some row) =>
        -- `INSERT OR IGNORE` under the key of sender and nonce
        let stored := if d.stored.any (fun r => r.sender = sender ∧ r.nonce = o.nonce) then d.stored
          else d.stored ++ [row]
        ({ d with guard, stored }, some ⟨sender, o.nonce, o.tsMs⟩)

def restart (d : Device) (nowMs : Int) (arrival : Arrival) : Device :=
  let asked := d.stored.filter (·.InWindow nowMs)
  match arrival with
  | .atStart => { d with guard := .persisted asked nowMs, asked }
  | .late => { d with guard := .startLoading (some .empty) nowMs, asked }
  | .unread => { d with guard := .startLoading none nowMs, asked }

/-- The store answers a guard that still waits on its channel. -/
def answer (d : Device) (a : Answer) : Device :=
  match d.guard.loading with
  | some ⟨bootMs, some .empty⟩ =>
    { d with guard := { d.guard with loading := some ⟨bootMs, some a⟩ } }
  | _ => d

def step (d : Device) (nowMs : Int) : Event → Device × Option Sight
  | .frame bytes sender room delivery => d.onFrame w nowMs bytes sender room delivery
  | .prune =>
    ({ d with guard := d.guard.prune nowMs, stored := d.stored.filter (·.InWindow nowMs) }, none)
  | .restart rows => (d.restart nowMs rows, none)
  | .rowsArrive => (d.answer (.sent d.asked), none)
  | .rowsLost => (d.answer .closed, none)

/-- A device and the frames it acted on, newest first, after events and their times. -/
def run : Device × List Sight → List (Int × Event) → Device × List Sight
  | s, [] => s
  | (d, acted), (nowMs, e) :: events =>
    let (d, sight) := d.step w nowMs e
    run (d, sight.toList ++ acted) events

theorem run_cons (d : Device) (acted : List Sight) (nowMs : Int) (e : Event)
    (events : List (Int × Event)) : run w (d, acted) ((nowMs, e) :: events) =
      run w ((d.step w nowMs e).1, (d.step w nowMs e).2.toList ++ acted) events := rfl

end Device

namespace ReplayGuard

variable {seen : List (Bytes × Int)} {nonce nonce' : Bytes} {e nowMs : Int}

theorem mem_of_lookup (h : seen.lookup nonce = some e) : (nonce, e) ∈ seen := by
  obtain ⟨before, after, rfl, -⟩ := List.lookup_eq_some_iff.1 h
  exact List.mem_append_right _ List.mem_cons_self

theorem lookup_filter {keep : Bytes × Int → Bool} (h : seen.lookup nonce = some e)
    (hkeep : keep (nonce, e) = true) : (seen.filter keep).lookup nonce = some e := by
  obtain ⟨before, after, rfl, hbefore⟩ := List.lookup_eq_some_iff.1 h
  refine List.lookup_eq_some_iff.2 ⟨before.filter keep, after.filter keep, ?_, ?_⟩
  · rw [List.filter_append, List.filter_cons_of_pos hkeep]
  · exact fun p hp => hbefore p (List.mem_of_mem_filter hp)

theorem lookup_insert_self : (insert seen nonce e).lookup nonce = some e := by
  simp [insert]

theorem lookup_insert_ne (hne : nonce' ≠ nonce) (h : seen.lookup nonce' = some e) (e' : Int) :
    (insert seen nonce e').lookup nonce' = some e := by
  rw [insert, List.lookup_cons, beq_false_of_ne hne]
  exact lookup_filter h (by simpa using hne)

variable {p : Bytes × Int}

theorem mem_insert (h : p ∈ insert seen nonce e) : p = (nonce, e) ∨ p ∈ seen := by
  rcases List.mem_cons.1 h with rfl | h
  · exact .inl rfl
  · exact .inr (List.mem_of_mem_filter h)

theorem lookup_retain (h : seen.lookup nonce = some e) (he : nowMs ≤ e) :
    (retain nowMs seen).lookup nonce = some e :=
  lookup_filter h (by simpa using he)

theorem lookup_orInsert (h : seen.lookup nonce = some e) (nonce' : Bytes) (e' : Int) :
    (orInsert seen nonce' e').lookup nonce = some e := by
  rw [orInsert]
  split
  · exact h
  · next hnone =>
    have hne : nonce ≠ nonce' := by
      rintro rfl
      rw [h] at hnone
      cases hnone
    rw [List.lookup_cons, beq_false_of_ne hne]
    exact h

theorem lookup_orInsert_self : ((orInsert seen nonce e).lookup nonce).isSome := by
  rw [orInsert]
  split
  · next h => rw [h]; rfl
  · simp

theorem length_orInsert_le : (orInsert seen nonce e).length ≤ seen.length + 1 := by
  rw [orInsert]
  split <;> simp

theorem mem_orInsert (h : p ∈ orInsert seen nonce e) : p = (nonce, e) ∨ p ∈ seen := by
  rw [orInsert] at h
  split at h
  · exact .inr h
  · exact List.mem_cons.1 h

variable {tables : String → List (Bytes × Int)} {r : Row} {sender : String}

theorem mergeRow_cases (nowMs : Int) (tables : String → List (Bytes × Int)) (r : Row)
    (sender : String) : mergeRow nowMs tables r sender = tables sender ∨
      r.sender = sender ∧ r.InWindow nowMs ∧
        mergeRow nowMs tables r sender = orInsert (tables sender) r.nonce r.expiresMs := by
  rw [mergeRow]
  split
  · next h =>
    by_cases hs : sender = r.sender
    · subst hs
      exact .inr ⟨rfl, h.2.1, Function.update_self ..⟩
    · exact .inl (Function.update_of_ne hs ..)
  · exact .inl rfl

theorem lookup_mergeRow (h : (tables sender).lookup nonce = some e) (r : Row) :
    (mergeRow nowMs tables r sender).lookup nonce = some e := by
  rcases mergeRow_cases nowMs tables r sender with hsame | ⟨-, -, hnew⟩
  · rwa [hsame]
  · rw [hnew]
    exact lookup_orInsert h _ _

theorem mem_mergeRow (h : p ∈ mergeRow nowMs tables r sender) :
    p ∈ tables sender ∨ r = ⟨sender, p.1, p.2⟩ := by
  rcases mergeRow_cases nowMs tables r sender with hsame | ⟨rfl, -, hnew⟩
  · exact .inl (hsame ▸ h)
  · rcases mem_orInsert (hnew ▸ h) with rfl | h
    · exact .inr rfl
    · exact .inl h

def due (nowMs : Int) (sender : String) (rows : List Row) : List Row :=
  rows.filter fun r => r.sender = sender ∧ r.InWindow nowMs

def Fits (g : ReplayGuard) (rows : List Row) (nowMs : Int) : Prop :=
  ∀ sender, (g.seen sender).length + (due nowMs sender rows).length ≤ maxSeenPerSender

theorem length_mergeRow_le (nowMs : Int) (tables : String → List (Bytes × Int)) (r : Row)
    (sender : String) : (mergeRow nowMs tables r sender).length ≤
      (tables sender).length + (due nowMs sender [r]).length := by
  rcases mergeRow_cases nowMs tables r sender with hsame | ⟨rfl, hwindow, hnew⟩
  · rw [hsame]
    omega
  · rw [hnew]
    simpa [due, hwindow] using length_orInsert_le

theorem lookup_merge (rows : List Row) (h : (tables sender).lookup nonce = some e) :
    (rows.foldl (mergeRow nowMs) tables sender).lookup nonce = some e := by
  induction rows generalizing tables with
  | nil => exact h
  | cons r rows ih => exact ih (lookup_mergeRow h r)

theorem mem_merge {rows : List Row} (h : p ∈ rows.foldl (mergeRow nowMs) tables sender) :
    p ∈ tables sender ∨ ⟨sender, p.1, p.2⟩ ∈ rows := by
  induction rows generalizing tables with
  | nil => exact .inl h
  | cons r rows ih =>
    rcases ih h with h | h
    · rcases mem_mergeRow h with h | rfl
      · exact .inl h
      · exact .inr List.mem_cons_self
    · exact .inr (List.mem_cons_of_mem _ h)

/-- Where all rows fit, each row in its window is in the merged tables. -/
theorem lookup_merge_of_mem {rows : List Row}
    (hfits : ∀ sender, (tables sender).length + (due nowMs sender rows).length ≤ maxSeenPerSender)
    (hr : r ∈ rows) (hnonce : r.nonce.length = nonceLen) (hwindow : r.InWindow nowMs) :
    ((rows.foldl (mergeRow nowMs) tables r.sender).lookup r.nonce).isSome := by
  induction rows generalizing tables with
  | nil => cases hr
  | cons r' rows ih =>
    have hcons : ∀ sender, (due nowMs sender (r' :: rows)).length =
        (due nowMs sender [r']).length + (due nowMs sender rows).length := by
      intro sender
      simp only [due, ← List.length_append, ← List.filter_append, List.singleton_append]
    rcases List.mem_cons.1 hr with rfl | hr
    · have hroom : (tables r.sender).length < maxSeenPerSender := by
        have hdue : (due nowMs r.sender [r]).length = 1 := by simp [due, hwindow]
        have := hfits r.sender
        rw [hcons, hdue] at this
        omega
      have hself : ((mergeRow nowMs tables r r.sender).lookup r.nonce).isSome := by
        rw [mergeRow, if_pos ⟨hnonce, hwindow, hroom⟩, Function.update_self]
        exact lookup_orInsert_self
      obtain ⟨e, he⟩ := Option.isSome_iff_exists.1 hself
      exact Option.isSome_iff_exists.2 ⟨e, lookup_merge rows he⟩
    · refine ih (fun sender => ?_) hr
      have := length_mergeRow_le nowMs tables r' sender
      have := hfits sender
      rw [hcons] at this
      omega

end ReplayGuard

open ReplayGuard

def Sight.expiresMs (s : Sight) : Int := saturatingAdd s.tsMs liveSkewMs

def Sight.row (s : Sight) : Row := ⟨s.sender, s.nonce, s.expiresMs⟩

/-- Every frame acted on that is not stale yet is stored, and is refused again: it is in the table,
or stored rows are awaited that hold it and it is stamped before the start. -/
structure Guarded (d : Device) (acted : List Sight) (nowMs : Int) : Prop where
  shaped : ∀ s ∈ acted, s.nonce.length = nonceLen ∧
    s.expiresMs ≤ saturatingAdd nowMs (2 * liveSkewMs)
  stored : ∀ s ∈ acted, nowMs ≤ s.expiresMs → s.row ∈ d.stored
  held : ∀ s ∈ acted, nowMs ≤ s.expiresMs →
    ((d.guard.seen s.sender).lookup s.nonce).isSome ∨
      ∃ l, d.guard.loading = some l ∧ s.tsMs < l.bootMs ∧ s.row ∈ d.asked
  seen_known : ∀ sender, ∀ p ∈ d.guard.seen sender, ∃ s ∈ acted, s.row = ⟨sender, p.1, p.2⟩
  stored_known : ∀ r ∈ d.stored, ∃ s ∈ acted, s.row = r
  asked_known : ∀ r ∈ d.asked, ∃ s ∈ acted, s.row = r
  sent : ∀ bootMs rows, d.guard.loading = some ⟨bootMs, some (.sent rows)⟩ → rows = d.asked

/-- Two of the frames acted on that share sender and nonce are one. -/
def Distinct (acted : List Sight) : Prop :=
  ∀ s ∈ acted, ∀ t ∈ acted, s.sender = t.sender → s.nonce = t.nonce → s = t

namespace Guarded

variable {d : Device} {acted : List Sight} {c nowMs : Int} {s : Sight}

theorem mono (h : Guarded d acted c) (hc : c ≤ nowMs) : Guarded d acted nowMs where
  shaped s hs := by
    have hle : saturatingAdd c (2 * liveSkewMs) ≤ saturatingAdd nowMs (2 * liveSkewMs) := by
      unfold saturatingAdd
      omega
    exact ⟨(h.shaped s hs).1, (h.shaped s hs).2.trans hle⟩
  stored s hs he := h.stored s hs (hc.trans he)
  held s hs he := h.held s hs (hc.trans he)
  seen_known := h.seen_known
  stored_known := h.stored_known
  asked_known := h.asked_known
  sent := h.sent

variable (h : Guarded d acted nowMs)
include h

theorem inWindow (hs : s ∈ acted) (he : nowMs ≤ s.expiresMs) : s.row.InWindow nowMs :=
  ⟨he, (h.shaped s hs).2⟩

/-- A restart that reads the stored rows, or comes after all that was acted on, stays guarded. -/
theorem restart {arrival : Arrival} (hcovered : match arrival with
      | .atStart => Fits {} d.stored nowMs
      | _ => ∀ s ∈ acted, s.tsMs < nowMs) :
    Guarded (d.restart nowMs arrival) acted nowMs := by
  have hasked : ∀ s ∈ acted, nowMs ≤ s.expiresMs →
      s.row ∈ d.stored.filter (·.InWindow nowMs) := fun s hs he =>
    List.mem_filter.2 ⟨h.stored s hs he, by simpa using h.inWindow hs he⟩
  have hknown : ∀ r ∈ d.stored.filter (·.InWindow nowMs), ∃ s ∈ acted, s.row = r := fun r hr =>
    h.stored_known r (List.mem_of_mem_filter hr)
  cases arrival with
  | atStart =>
    refine { h with held := ?_, seen_known := ?_, asked_known := hknown, sent := ?_ }
    · intro s hs he
      refine .inl (lookup_merge_of_mem (fun sender => ?_) (hasked s hs he)
        (h.shaped s hs).1 (h.inWindow hs he))
      have hdue : due nowMs sender (d.stored.filter (·.InWindow nowMs)) =
          due nowMs sender d.stored := by
        simp [due, List.filter_filter]
      rw [hdue]
      exact hcovered sender
    · intro sender p hp
      rcases mem_merge hp with hp | hp
      · cases hp
      · exact hknown _ hp
    · intro _ _ hsent
      cases hsent
  | late | unread =>
    refine { h with held := ?_, seen_known := ?_, asked_known := hknown, sent := ?_ }
    · exact fun s hs he => .inr ⟨_, rfl, hcovered s hs, hasked s hs he⟩
    · exact fun _ p hp => nomatch hp
    · exact fun _ _ hsent => nomatch hsent

theorem reload {bootMs : Int} {rows rows' : Option Answer}
    (hloading : d.guard.loading = some ⟨bootMs, rows⟩)
    (hsent : ∀ sent, rows' = some (.sent sent) → sent = d.asked) :
    Guarded { d with guard := { d.guard with loading := some ⟨bootMs, rows'⟩ } } acted nowMs := by
  refine { h with held := fun s hs he => ?_, sent := fun _ sent hrows => ?_ }
  · rcases h.held s hs he with hseen | ⟨l, hl, hts, hrow⟩
    · exact .inl hseen
    · cases hloading.symm.trans hl
      exact .inr ⟨_, rfl, hts, hrow⟩
  · cases hrows
    exact hsent sent rfl

theorem answer {a : Answer} (ha : ∀ rows, a = .sent rows → rows = d.asked) :
    Guarded (d.answer a) acted nowMs := by
  unfold Device.answer
  split
  · next bootMs hloading =>
    exact h.reload hloading fun rows hrows => ha rows (Option.some.inj hrows)
  · exact h

variable (hone : Distinct acted)
include hone

theorem lookup (hs : s ∈ acted) (hseen : ((d.guard.seen s.sender).lookup s.nonce).isSome) :
    (d.guard.seen s.sender).lookup s.nonce = some s.expiresMs := by
  obtain ⟨e, he⟩ := Option.isSome_iff_exists.1 hseen
  obtain ⟨t, ht, htrow⟩ := h.seen_known _ _ (mem_of_lookup he)
  simp only [Sight.row, Row.mk.injEq] at htrow
  obtain rfl := hone t ht s hs htrow.1 htrow.2.1
  rw [he, htrow.2.2]

theorem settle (hfits : ∀ bootMs rows, d.guard.loading = some ⟨bootMs, some (.sent rows)⟩ →
      d.guard.Fits rows nowMs) :
    Guarded { d with guard := d.guard.settle nowMs } acted nowMs := by
  unfold ReplayGuard.settle
  split
  · next bootMs rows hloading =>
    obtain rfl := h.sent _ _ hloading
    refine { h with held := ?_, seen_known := ?_, sent := ?_ }
    · intro s hs he
      left
      rcases h.held s hs he with hseen | ⟨l, -, -, hrow⟩
      · exact Option.isSome_iff_exists.2
          ⟨_, lookup_merge d.asked (h.lookup hone hs hseen)⟩
      · exact lookup_merge_of_mem (hfits _ _ hloading) hrow (h.shaped s hs).1
          (h.inWindow hs he)
    · intro sender p hp
      rcases mem_merge hp with hp | hp
      · exact h.seen_known sender p hp
      · exact h.asked_known _ hp
    · intro _ _ hnone
      cases hnone
  · next bootMs hloading => exact h.reload hloading fun _ hrows => nomatch hrows
  · exact h

theorem retable {tables : String → List (Bytes × Int)} (hkeep : ∀ s ∈ acted, nowMs ≤ s.expiresMs →
      (d.guard.seen s.sender).lookup s.nonce = some s.expiresMs →
      ((tables s.sender).lookup s.nonce).isSome)
    (hknown : ∀ sender, ∀ p ∈ tables sender, ∃ s ∈ acted, s.row = ⟨sender, p.1, p.2⟩) :
    Guarded { d with guard := { d.guard with seen := tables } } acted nowMs :=
  { h with
    held := fun s hs he =>
      (h.held s hs he).imp_left fun hseen => hkeep s hs he (h.lookup hone hs hseen)
    seen_known := hknown }

theorem retain : Guarded { d with guard := { d.guard with
    seen := fun sender => ReplayGuard.retain nowMs (d.guard.seen sender) } } acted nowMs := by
  refine h.retable hone ?_ fun sender p hp => h.seen_known sender p (List.mem_of_mem_filter hp)
  exact fun s _ he hseen =>
    Option.isSome_iff_exists.2 ⟨_, lookup_retain hseen he⟩

theorem prune (hfits : ∀ bootMs rows, d.guard.loading = some ⟨bootMs, some (.sent rows)⟩ →
      d.guard.Fits rows nowMs) :
    Guarded { d with
      guard := d.guard.prune nowMs
      stored := d.stored.filter (·.InWindow nowMs) } acted nowMs := by
  have hg := (h.settle hone hfits).retain hone
  refine { hg with stored := ?_, stored_known := ?_ }
  · exact fun s hs he =>
      List.mem_filter.2 ⟨hg.stored s hs he, by simpa using hg.inWindow hs he⟩
  · exact fun r hr => hg.stored_known r (List.mem_of_mem_filter hr)

end Guarded

variable {tsMs : Int} {bytes : Bytes} {delivery : Delivery} {room sender : String}

theorem le_expires_of_not_isStale {nowMs : Int} (hnow : I64 nowMs)
    (h : ¬ isStale tsMs nowMs = true) : nowMs ≤ saturatingAdd tsMs liveSkewMs := by
  rw [isStale, decide_eq_true_eq, not_lt] at h
  simp only [I64, saturatingSub, saturatingAdd, i64Max, i64Min, liveSkewMs] at *
  omega

theorem expires_le {nowMs : Int} (hnow : I64 nowMs) (h : tsMs ≤ wrapping (nowMs + liveSkewMs)) :
    saturatingAdd tsMs liveSkewMs ≤ saturatingAdd nowMs (2 * liveSkewMs) := by
  have hwrap : wrapping (nowMs + liveSkewMs) ≤ nowMs + liveSkewMs :=
    wrapping_le (hnow.1.trans (by simp [liveSkewMs]))
  simp only [saturatingAdd]
  omega

/-- A sender's table, as it was or without what is stale. -/
def ReplayGuard.Kept (g : ReplayGuard) (nowMs : Int) (sender : String)
    (seen : List (Bytes × Int)) : Prop :=
  seen = g.seen sender ∨ seen = retain nowMs (g.seen sender)

/-- The tables after a frame is put in, whether or not it was there. -/
def ReplayGuard.noteIn (g : ReplayGuard) (s : Sight) (seen : List (Bytes × Int)) : ReplayGuard :=
  { g with seen := Function.update g.seen s.sender (insert seen s.nonce s.expiresMs) }

/-- What the guard makes of a frame once it took the rows that had arrived. -/
inductive Judged (g : ReplayGuard) (s : Sight) (nowMs : Int) : ReplayGuard × Option Row → Prop
  | refused (h : g.loading.any (s.tsMs < ·.bootMs) = true) : Judged g s nowMs (g, none)
  | full (seen : List (Bytes × Int))
      (hseen : g.Kept nowMs s.sender seen) :
      Judged g s nowMs ({ g with seen := Function.update g.seen s.sender seen }, none)
  | noted (seen : List (Bytes × Int)) (h : ¬ g.loading.any (s.tsMs < ·.bootMs) = true)
      (hseen : g.Kept nowMs s.sender seen) :
      Judged g s nowMs
        (g.noteIn s seen, if (seen.lookup s.nonce).isNone then some s.row else none)

theorem judged_firstSight (g : ReplayGuard) (s : Sight) (nowMs : Int) :
    Judged (g.settle nowMs) s nowMs (g.firstSight s.sender s.nonce s.tsMs nowMs) := by
  unfold firstSight
  extract_lets g' seen kept expires
  have hkept : g'.Kept nowMs s.sender kept := by
    by_cases hfull : maxSeenPerSender ≤ seen.length
    · exact .inr (if_pos hfull)
    · exact .inl (if_neg hfull)
  split
  · next h => exact .refused h
  · next h =>
    split
    · exact .full kept hkept
    · exact .noted kept h hkept

namespace Guarded

variable {d : Device} {acted : List Sight} {nowMs : Int} {s : Sight} {seen : List (Bytes × Int)}

variable {sender : String}

theorem mem_kept {p : Bytes × Int} (hseen : d.guard.Kept nowMs sender seen) (hp : p ∈ seen) :
    p ∈ d.guard.seen sender := by
  rcases hseen with rfl | rfl
  · exact hp
  · exact List.mem_of_mem_filter hp

theorem mem_noteIn {p : Bytes × Int} (hseen : d.guard.Kept nowMs s.sender seen)
    (hp : p ∈ (d.guard.noteIn s seen).seen sender) :
    p ∈ d.guard.seen sender ∨ s.row = ⟨sender, p.1, p.2⟩ := by
  simp only [noteIn] at hp
  by_cases hst : sender = s.sender
  · subst hst
    rw [Function.update_self] at hp
    rcases mem_insert hp with rfl | hp
    · exact .inr rfl
    · exact .inl (mem_kept hseen hp)
  · rw [Function.update_of_ne hst] at hp
    exact .inl hp

variable (h : Guarded d acted nowMs)
include h

theorem not_stored (hone : Distinct (s :: acted)) (hs : s ∉ acted) :
    ¬ d.stored.any (fun r => r.sender = s.sender ∧ r.nonce = s.nonce) = true := by
  intro hany
  obtain ⟨r, hr, hkey⟩ := List.any_eq_true.1 hany
  obtain ⟨t, ht, rfl⟩ := h.stored_known r hr
  have hkey : t.sender = s.sender ∧ t.nonce = s.nonce := of_decide_eq_true hkey
  have heq := hone t (List.mem_cons_of_mem _ ht) s List.mem_cons_self hkey.1 hkey.2
  exact hs (heq ▸ ht)

variable (hone : Distinct acted)
include hone

theorem lookup_kept {t : Sight} (ht : t ∈ acted)
    (he : nowMs ≤ t.expiresMs) (hlook : ((d.guard.seen t.sender).lookup t.nonce).isSome)
    (hseen : d.guard.Kept nowMs t.sender seen) :
    seen.lookup t.nonce = some t.expiresMs := by
  have hself := h.lookup hone ht hlook
  rcases hseen with rfl | rfl
  · exact hself
  · exact lookup_retain hself he

theorem full (hseen : d.guard.Kept nowMs sender seen) :
    Guarded { d with guard := { d.guard with seen := Function.update d.guard.seen sender seen } }
      acted nowMs := by
  refine h.retable hone ?_ ?_
  · intro t ht he hlook
    by_cases hs : t.sender = sender
    · subst hs
      rw [Function.update_self, h.lookup_kept hone ht he (by rw [hlook]; rfl) hseen]
      rfl
    · rw [Function.update_of_ne hs, hlook]
      rfl
  · intro sender' p hp
    by_cases hs : sender' = sender
    · subst hs
      rw [Function.update_self] at hp
      exact h.seen_known _ p (mem_kept hseen hp)
    · rw [Function.update_of_ne hs] at hp
      exact h.seen_known _ p hp

theorem lookup_noteIn {t : Sight} (ht : t ∈ acted) (he : nowMs ≤ t.expiresMs)
    (hlook : (d.guard.seen t.sender).lookup t.nonce = some t.expiresMs)
    (hseen : d.guard.Kept nowMs s.sender seen) :
    (((d.guard.noteIn s seen).seen t.sender).lookup t.nonce).isSome := by
  simp only [noteIn]
  by_cases hst : t.sender = s.sender
  · rw [hst, Function.update_self]
    by_cases hnonce : t.nonce = s.nonce
    · rw [hnonce, lookup_insert_self]
      rfl
    · have hkept := h.lookup_kept hone ht he (by rw [hlook]; rfl) (hst ▸ hseen)
      rw [lookup_insert_ne hnonce hkept]
      rfl
  · rw [Function.update_of_ne hst, hlook]
    rfl

theorem repeated (hs : s ∈ acted) (hseen : d.guard.Kept nowMs s.sender seen) :
    Guarded { d with guard := d.guard.noteIn s seen } acted nowMs := by
  refine h.retable hone (fun t ht he hlook => h.lookup_noteIn hone ht he hlook hseen) ?_
  intro sender p hp
  rcases mem_noteIn hseen hp with hp | hrow
  · exact h.seen_known sender p hp
  · exact ⟨s, hs, hrow⟩

theorem sighted {stored : List Row}
    (hshaped : s.nonce.length = nonceLen ∧ s.expiresMs ≤ saturatingAdd nowMs (2 * liveSkewMs))
    (hstored : ∀ r, r ∈ stored ↔ r ∈ d.stored ∨ r = s.row)
    (hseen : d.guard.Kept nowMs s.sender seen) :
    Guarded { d with guard := d.guard.noteIn s seen, stored } (s :: acted) nowMs where
  shaped := List.forall_mem_cons.2 ⟨hshaped, h.shaped⟩
  stored := by
    refine List.forall_mem_cons.2 ⟨fun _ => (hstored _).2 (.inr rfl), fun t ht he => ?_⟩
    exact (hstored _).2 (.inl (h.stored t ht he))
  held := by
    refine List.forall_mem_cons.2 ⟨fun _ => .inl ?_, fun t ht he => ?_⟩
    · simp only [noteIn, Function.update_self, lookup_insert_self]
      rfl
    · exact (h.held t ht he).imp_left fun hlook =>
        h.lookup_noteIn hone ht he (h.lookup hone ht hlook) hseen
  seen_known sender p hp := by
    rcases mem_noteIn hseen hp with hp | hrow
    · obtain ⟨t, ht, htrow⟩ := h.seen_known sender p hp
      exact ⟨t, List.mem_cons_of_mem _ ht, htrow⟩
    · exact ⟨s, List.mem_cons_self, hrow⟩
  stored_known r hr := by
    rcases (hstored r).1 hr with hr | rfl
    · obtain ⟨t, ht, htrow⟩ := h.stored_known r hr
      exact ⟨t, List.mem_cons_of_mem _ ht, htrow⟩
    · exact ⟨s, List.mem_cons_self, rfl⟩
  asked_known r hr := by
    obtain ⟨t, ht, htrow⟩ := h.asked_known r hr
    exact ⟨t, List.mem_cons_of_mem _ ht, htrow⟩
  sent := h.sent

theorem not_first (he : nowMs ≤ s.expiresMs)
    (hloaded : ¬ d.guard.loading.any (s.tsMs < ·.bootMs) = true)
    (hseen : d.guard.Kept nowMs s.sender seen)
    (hnone : seen.lookup s.nonce = none) : s ∉ acted := by
  intro hs
  rcases h.held s hs he with hlook | ⟨l, hl, hts, -⟩
  · rw [h.lookup_kept hone hs he hlook hseen] at hnone
    cases hnone
  · rw [hl] at hloaded
    exact hloaded (by simpa using hts)

end Guarded

namespace Device

variable {w : Crypto} {d : Device} {acted : List Sight} {nowMs : Int}

/-- What a device makes of a frame the guard has judged. -/
def acts (d : Device) (s : Sight) : ReplayGuard × Option Row → Device × Option Sight
  | (guard, none) => ({ d with guard }, none)
  | (guard, some row) =>
    ({ d with
      guard
      stored := if d.stored.any (fun r => r.sender = s.sender ∧ r.nonce = s.nonce) then d.stored
        else d.stored ++ [row] }, some s)

theorem onFrame_cases (bytes : Bytes) (sender room : String) (delivery : Delivery) :
    d.onFrame w nowMs bytes sender room delivery = (d, none) ∨
    ∃ o, openFrame w bytes sender room delivery nowMs = .ok o ∧ ¬ isStale o.tsMs nowMs = true ∧
      d.onFrame w nowMs bytes sender room delivery =
        d.acts ⟨sender, o.nonce, o.tsMs⟩ (d.guard.firstSight sender o.nonce o.tsMs nowMs) := by
  unfold Device.onFrame
  split
  · exact .inl rfl
  · next o ho =>
    by_cases hstale : isStale o.tsMs nowMs = true
    · exact .inl (if_pos hstale)
    · rw [if_neg hstale]
      refine .inr ⟨o, ho, hstale, ?_⟩
      split <;> next hg => rw [hg, acts]

end Device

def Shows (w : Crypto) (e : Int × Event) (s : Sight) : Prop :=
  ∃ bytes room delivery o, e.2 = .frame bytes s.sender room delivery ∧
    openFrame w bytes s.sender room delivery e.1 = .ok o ∧ s = ⟨s.sender, o.nonce, o.tsMs⟩

/-- No sender signs two frames with one nonce, as far as the frames of a run show. -/
def SignsOnce (w : Crypto) (events : List (Int × Event)) : Prop :=
  ∀ e ∈ events, ∀ f ∈ events, ∀ s t, Shows w e s → Shows w f t →
    s.sender = t.sender → s.nonce = t.nonce → s = t

def Clocked (events : List (Int × Event)) : Prop :=
  events.Pairwise (·.1 ≤ ·.1) ∧ ∀ e ∈ events, I64 e.1

/-- The stored rows cover what was acted on: there is room for the rows that arrive, and when they
are not there at the start, every frame acted on is stamped before it. -/
def Covered (d : Device) (acted : List Sight) (nowMs : Int) : Event → Prop
  | .restart .atStart => Fits {} d.stored nowMs
  | .restart _ => ∀ s ∈ acted, s.tsMs < nowMs
  | .frame _ _ _ _ | .prune => ∀ bootMs rows,
    d.guard.loading = some ⟨bootMs, some (.sent rows)⟩ → d.guard.Fits rows nowMs
  | .rowsArrive | .rowsLost => True

def CoveredRun (w : Crypto) : Device × List Sight → List (Int × Event) → Prop
  | _, [] => True
  | (d, acted), (nowMs, e) :: events =>
    Covered d acted nowMs e ∧
      CoveredRun w ((d.step w nowMs e).1, (d.step w nowMs e).2.toList ++ acted) events

variable {w : Crypto} {d : Device} {acted : List Sight} {nowMs : Int}

/-- A frame that is acted on joins the guarded ones, and the others stay guarded. -/
theorem Guarded.onFrame (h : Guarded d acted nowMs) (hnow : I64 nowMs) (hone : Distinct acted)
    (hshown : ∀ s, Shows w (nowMs, .frame bytes sender room delivery) s → Distinct (s :: acted))
    (hfits : Covered d acted nowMs (.frame bytes sender room delivery)) :
    let out := d.onFrame w nowMs bytes sender room delivery
    Guarded out.1 (out.2.toList ++ acted) nowMs ∧ ∀ s ∈ out.2, s ∉ acted := by
  rcases d.onFrame_cases bytes sender room delivery with hsame | ⟨o, ho, hstale, hacts⟩
  · rw [hsame]
    exact ⟨h, fun s hs => nomatch hs⟩
  · obtain ⟨hnonce, hts⟩ := openFrame_ok ho
    let s : Sight := ⟨sender, o.nonce, o.tsMs⟩
    have hone' : Distinct (s :: acted) := hshown s ⟨bytes, room, delivery, o, rfl, ho, rfl⟩
    have he : nowMs ≤ s.expiresMs := le_expires_of_not_isStale hnow hstale
    have hset := h.settle hone hfits
    have hjudged := judged_firstSight d.guard s nowMs
    rw [hacts]
    generalize d.guard.firstSight sender o.nonce o.tsMs nowMs = judged at hjudged
    cases hjudged with
    | refused hload => exact ⟨hset, fun s hs => nomatch hs⟩
    | full seen hseen => exact ⟨hset.full hone hseen, fun s hs => nomatch hs⟩
    | noted seen hload hseen =>
      cases hlook : seen.lookup s.nonce with
      | some e =>
        -- the table has the nonce, so the frame is one acted on before
        obtain ⟨t, ht, htrow⟩ := hset.seen_known _ _
          (Guarded.mem_kept hseen (mem_of_lookup hlook))
        simp only [Sight.row, Row.mk.injEq] at htrow
        have hts : t = s :=
          hone' t (List.mem_cons_of_mem _ ht) s List.mem_cons_self htrow.1 htrow.2.1
        exact ⟨hset.repeated hone (hts ▸ ht) hseen, fun s hs => nomatch hs⟩
      | none =>
        have hnew : s ∉ acted := hset.not_first hone he hload hseen hlook
        rw [Option.isNone_none, if_pos rfl, Device.acts, if_neg (h.not_stored hone' hnew)]
        refine ⟨hset.sighted hone ⟨hnonce, expires_le hnow hts⟩ (by simp) hseen, fun t ht => ?_⟩
        obtain rfl := Option.mem_some_iff.1 ht
        exact hnew

/-- One event keeps what was acted on refused, and acts on nothing acted on before. -/
theorem Guarded.step (h : Guarded d acted nowMs) (hnow : I64 nowMs) (hone : Distinct acted)
    {e : Event} (hshown : ∀ s, Shows w (nowMs, e) s → Distinct (s :: acted))
    (hcovered : Covered d acted nowMs e) :
    Guarded (d.step w nowMs e).1 ((d.step w nowMs e).2.toList ++ acted) nowMs ∧
      ∀ s ∈ (d.step w nowMs e).2, s ∉ acted := by
  cases e with
  | frame bytes sender room delivery => exact h.onFrame hnow hone hshown hcovered
  | prune => exact ⟨h.prune hone hcovered, fun s hs => nomatch hs⟩
  | restart rows =>
    refine ⟨h.restart ?_, fun s hs => nomatch hs⟩
    cases rows <;> exact hcovered
  | rowsArrive =>
    exact ⟨h.answer (fun rows hrows => (Answer.sent.inj hrows).symm), fun s hs => nomatch hs⟩
  | rowsLost => exact ⟨h.answer (fun rows hrows => nomatch hrows), fun s hs => nomatch hs⟩

theorem step_shows {e : Event} {s : Sight} (h : s ∈ (d.step w nowMs e).2) :
    Shows w (nowMs, e) s := by
  cases e with
  | frame bytes sender room delivery =>
    simp only [Device.step] at h
    rcases d.onFrame_cases bytes sender room delivery with hsame | ⟨o, ho, -, hacts⟩
    · rw [hsame] at h
      cases h
    · rw [hacts, Device.acts.eq_def] at h
      split at h <;> cases h
      exact ⟨bytes, room, delivery, o, rfl, ho, rfl⟩
  | prune => cases h
  | restart rows => cases h
  | rowsArrive => cases h
  | rowsLost => cases h

/-- Over a covered run nothing is acted on twice, from any state that guards what it acted on. -/
theorem run_nodup {shown : Sight → Prop}
    (hone : ∀ s t, shown s → shown t → s.sender = t.sender → s.nonce = t.nonce → s = t)
    (events : List (Int × Event)) (hshown : ∀ e ∈ events, ∀ s, Shows w e s → shown s)
    (hclock : Clocked events) {c : Int} (hc : ∀ e ∈ events, c ≤ e.1)
    (h : Guarded d acted c) (hacted : ∀ s ∈ acted, shown s) (hnodup : acted.Nodup)
    (hcovered : CoveredRun w (d, acted) events) : (Device.run w (d, acted) events).2.Nodup := by
  induction events generalizing d acted c with
  | nil => exact hnodup
  | cons e events ih =>
    obtain ⟨nowMs, e⟩ := e
    obtain ⟨hsorted, hi64⟩ := hclock
    obtain ⟨hnext, hsorted⟩ := List.pairwise_cons.1 hsorted
    have hnow : c ≤ nowMs := hc _ List.mem_cons_self
    have hdistinct : Distinct acted := fun s hs t ht => hone s t (hacted s hs) (hacted t ht)
    have hsee : ∀ s, Shows w (nowMs, e) s → shown s := hshown _ List.mem_cons_self
    have hstep := (h.mono hnow).step (hi64 _ List.mem_cons_self) hdistinct
      (fun s hs t ht u hu => hone t u
        (List.forall_mem_cons.2 ⟨hsee s hs, hacted⟩ t ht)
        (List.forall_mem_cons.2 ⟨hsee s hs, hacted⟩ u hu)) hcovered.1
    rw [Device.run_cons]
    refine ih (fun f hf => hshown f (List.mem_cons_of_mem _ hf))
      ⟨hsorted, fun f hf => hi64 f (List.mem_cons_of_mem _ hf)⟩ (fun f hf => hnext f hf) hstep.1
      ?_ ?_ hcovered.2
    · intro s hs
      rcases List.mem_append.1 hs with hs | hs
      · exact hsee s (step_shows (Option.mem_toList.1 hs))
      · exact hacted s hs
    · cases hsight : (d.step w nowMs e).2 with
      | none => exact hnodup
      | some s => exact List.nodup_cons.2 ⟨hstep.2 s hsight, hnodup⟩

theorem guarded_new (c : Int) : Guarded {} [] c where
  shaped _ hs := nomatch hs
  stored _ hs := nomatch hs
  held _ hs := nomatch hs
  seen_known _ _ hp := nomatch hp
  stored_known _ hr := nomatch hr
  asked_known _ hr := nomatch hr
  sent _ _ h := nomatch h

/-- In a run whose stored rows cover what was acted on, no frame is acted on twice. -/
theorem acted_once (w : Crypto) (events : List (Int × Event)) (hclock : Clocked events)
    (hsigns : SignsOnce w events) (hcovered : CoveredRun w ({}, []) events) :
    (Device.run w ({}, []) events).2.Nodup := by
  have hone : ∀ s t, (∃ e ∈ events, Shows w e s) → (∃ e ∈ events, Shows w e t) →
      s.sender = t.sender → s.nonce = t.nonce → s = t := by
    rintro s t ⟨e, he, hs⟩ ⟨f, hf, ht⟩
    exact hsigns e he f hf s t hs ht
  exact run_nodup hone events (fun e he s hs => ⟨e, he, hs⟩) hclock (fun e he => (hclock.2 e he).1)
    (guarded_new i64Min) (fun s hs => nomatch hs) List.nodup_nil hcovered

theorem shows_frame {s : Sight} :
    Shows w (nowMs, .frame bytes sender room delivery) s ↔
      ∃ o, openFrame w bytes sender room delivery nowMs = .ok o ∧
        s = ⟨sender, o.nonce, o.tsMs⟩ := by
  constructor
  · rintro ⟨_, _, _, o, he, ho, hs⟩
    cases he
    exact ⟨o, ho, hs⟩
  · rintro ⟨o, ho, rfl⟩
    exact ⟨bytes, room, delivery, o, rfl, ho, rfl⟩

def lobbyFrame (tsMs : Int) : Bytes :=
  sealAt openKeys (fun _ => List.replicate sigLen 0) "lobby" routeRoom tsMs
    (List.replicate nonceLen 0) []

def aroundRestart (tsMs : Int) (restart : List (Int × Event)) : List (Int × Event) :=
  (0, .frame (lobbyFrame tsMs) "alice" "lobby" .room) :: restart ++
    [(600, .frame (lobbyFrame tsMs) "alice" "lobby" .room)]

instance (n : Int) : Decidable (I64 n) := inferInstanceAs (Decidable (_ ∧ _))

theorem openFrame_lobbyFrame {nowMs : Int} (hts : I64 tsMs)
    (hnow : tsMs ≤ wrapping (nowMs + liveSkewMs)) :
    openFrame openKeys (lobbyFrame tsMs) "alice" "lobby" .room nowMs =
      .ok ⟨tsMs, List.replicate nonceLen 0, []⟩ :=
  openFrame_sealAt (show openKeys.pubkeyFromPeerId "alice" = some () from rfl) rfl
    (fun _ => List.length_replicate) (by decide) rfl hts List.length_replicate hnow

theorem signsOnce_aroundRestart {restart : List (Int × Event)} (hts : I64 tsMs)
    (hahead : tsMs ≤ 300000) (hquiet : ∀ e ∈ restart, ∀ bytes sender room delivery,
      e.2 ≠ .frame bytes sender room delivery) :
    SignsOnce openKeys (aroundRestart tsMs restart) := by
  have hshows : ∀ e ∈ aroundRestart tsMs restart, ∀ s, Shows openKeys e s →
      s = ⟨"alice", List.replicate nonceLen 0, tsMs⟩ := by
    intro e he s hs
    simp only [aroundRestart, List.cons_append, List.mem_cons, List.mem_append, List.not_mem_nil,
      or_false] at he
    rcases he with rfl | he | rfl
    · obtain ⟨o, ho, rfl⟩ := shows_frame.1 hs
      rw [openFrame_lobbyFrame hts (hahead.trans (by decide))] at ho
      rw [← Except.ok.inj ho]
    · obtain ⟨bytes, room, delivery, _, hframe, -⟩ := hs
      exact absurd hframe (hquiet e he _ _ _ _)
    · obtain ⟨o, ho, rfl⟩ := shows_frame.1 hs
      rw [openFrame_lobbyFrame hts (hahead.trans (by decide))] at ho
      rw [← Except.ok.inj ho]
  intro e he f hf s t hs ht _ _
  rw [hshows e he s hs, hshows f hf t ht]

theorem clocked_aroundRestart {restart : List (Int × Event)}
    (htimes : restart.map (·.1) = [20, 25] ∨ restart.map (·.1) = [500]) :
    Clocked (aroundRestart tsMs restart) := by
  have hmap : (aroundRestart tsMs restart).map (·.1) = 0 :: restart.map (·.1) ++ [600] := by
    simp [aroundRestart]
  have hsorted : ((aroundRestart tsMs restart).map (·.1)).Pairwise (· ≤ ·) ∧
      ∀ t ∈ (aroundRestart tsMs restart).map (·.1), 0 ≤ t ∧ t ≤ 600 := by
    rw [hmap]
    rcases htimes with h | h <;> rw [h] <;> decide
  refine ⟨List.pairwise_map.1 hsorted.1, fun e he => ?_⟩
  have := hsorted.2 e.1 (List.mem_map_of_mem he)
  simp only [I64, i64Min, i64Max]
  omega

theorem covered_rowsArrive {bootMs : Int} (hsmall : d.stored.length ≤ maxSeenPerSender) :
    Covered ((d.restart bootMs .late).answer (.sent (d.restart bootMs .late).asked)) acted nowMs
      (.frame bytes sender room delivery) := by
  intro bootMs rows hrows sender
  cases hrows
  have hasked : (d.restart bootMs .late).asked.length ≤ d.stored.length := List.length_filter_le _ _
  have hdue : (due nowMs sender (d.restart bootMs .late).asked).length ≤
      (d.restart bootMs .late).asked.length := List.length_filter_le _ _
  exact (Nat.zero_add _).trans_le (hdue.trans (hasked.trans hsmall))

/-- Rows that come late are merged in time to refuse a repeat. -/
theorem acted_once_late_rows :
    (Device.run openKeys ({}, []) (aroundRestart 0 [(20, .restart .late), (25, .rowsArrive)])).2 =
      [⟨"alice", List.replicate nonceLen 0, 0⟩] ∧
    (Device.run openKeys ({}, [])
      (aroundRestart 0 [(20, .restart .late), (25, .rowsArrive)])).2.Nodup := by
  refine ⟨by decide +kernel, acted_once _ _ (clocked_aroundRestart (.inl rfl))
    (signsOnce_aroundRestart (by decide +kernel) (by decide) ?_) ⟨?_, ?_, trivial, ?_, trivial⟩⟩
  · simp
  · exact fun _ _ h => nomatch h
  · show ∀ s ∈ (_ : List Sight), s.tsMs < 20
    decide +kernel
  · exact covered_rowsArrive (by decide +kernel)

/-- A frame stamped ahead of the clock is acted on again after a restart that finds no rows. -/
theorem not_acted_once : ¬ ∀ (w : Crypto) (events : List (Int × Event)), Clocked events →
    SignsOnce w events → (Device.run w ({}, []) events).2.Nodup := by
  intro h
  refine absurd (h openKeys (aroundRestart 1000 [(500, .restart .unread)])
    (clocked_aroundRestart (.inr rfl)) (signsOnce_aroundRestart ?_ ?_ ?_)) ?_
  · decide +kernel
  · decide
  · simp
  · decide +kernel

end Hollow.Frames
