import Mathlib
import Hollow.Session.Book

/-! The session table beside its book (`session_bounds.h`, `ws_handler.cpp`): after every operation
the book's places are the table's sessions, each with its share, state and address, so that
`makeRoom` ends the sessions a scan of the table would end and leaves room for the newcomer. -/

namespace Hollow.Session

/-- A session as the table's choices see it: in grace until an end, at the address whose slot it
holds. -/
structure Seat where
  share : Nat
  graceUntil : Option Nat
  ip : String

structure Table where
  sessions : Dict String Seat := ∅
  book : Book := {}

section Naive

variable {w : Dict String Place}

theorem firstOfShare_spec {pick : Nat} (h : ofShare w pick ≠ []) :
    ∃ k p, firstOfShare w pick = some (k, p) ∧ w.lookup k = some p := by
  cases hfirst : firstOfShare w pick with
  | none => exact absurd (List.argmin_eq_none.mp hfirst) h
  | some e => exact ⟨e.1, e.2, rfl, (Book.mem_ofShare.mp (List.argmin_mem hfirst)).1⟩

theorem naiveTableVictim_spec (w : Dict String Place) (share : Nat) :
    (naiveTableVictim w share = none ∧ w.keys.length = 0) ∨
      ∃ v, naiveTableVictim w share = some v ∧ v ∈ w := by
  rw [naiveTableVictim]
  cases hmax : (w.pairs.map (·.2.share)).argmax (shareKey w) with
  | none =>
    have hnil : w.entries = [] := by
      simpa [List.argmax_eq_none, Dict.pairs] using hmax
    exact .inl ⟨rfl, by rw [AList.keys, hnil]; rfl⟩
  | some heaviest =>
    have hheavy : ofShare w heaviest ≠ [] := by
      obtain ⟨⟨k, p⟩, hp, rfl⟩ := List.mem_map.mp (List.argmax_mem hmax)
      exact List.ne_nil_of_mem (Book.mem_ofShare.mpr ⟨Dict.mem_pairs.mp hp, rfl⟩)
    have hpick : ∀ c : Prop, [Decidable c] →
        ofShare w (if ofShare w share ≠ [] ∧ c then share else heaviest) ≠ [] := by
      intro c _
      split_ifs with hc
      · exact hc.1
      · exact hheavy
    obtain ⟨k, p, hfirst, hk⟩ := firstOfShare_spec (hpick (heaviest ≠ share ∧
      (ofShare w heaviest).length ≤ (ofShare w share).length + 1))
    refine .inr ⟨k, ?_, AList.lookup_isSome.mp (by rw [hk]; rfl)⟩
    simp only [Option.bind_eq_bind, Option.bind_some, hfirst]
    rfl

/-- The sessions a scan ends one after another until one more than are left is within `max`. -/
def naiveRoom (max share : Nat) : (held : Nat) → Dict String Place → List String
  | 0, _ => []
  | held + 1, w =>
    if max < held + 2 then
      match naiveTableVictim w share with
      | none => []
      | some victim => victim :: naiveRoom max share held (w.erase victim)
    else []

theorem length_keys_erase {β : Type} (d : Dict String β) (k : String) :
    (d.erase k).keys.length = d.keys.length - if k ∈ d then 1 else 0 := by
  rw [AList.keys_erase, List.length_erase]
  simp only [← AList.mem_keys]
  split_ifs <;> rfl

/-- What the scan ends is distinct, comes from the sessions, and is as much as the cap asks. -/
theorem naiveRoom_spec (max share : Nat) {n : Nat} (hn : w.keys.length = n) :
    (naiveRoom max share n w).Nodup ∧ (∀ v ∈ naiveRoom max share n w, v ∈ w) ∧
      (naiveRoom max share n w).length = min (n + 1 - max) n := by
  induction n generalizing w with
  | zero => simp [naiveRoom]
  | succ n ih =>
    rw [naiveRoom]
    split_ifs with hover
    · rcases naiveTableVictim_spec w share with ⟨-, hzero⟩ | ⟨v, hsome, hv⟩
      · omega
      · have hsize : (w.erase v).keys.length = n := by
          rw [length_keys_erase, hn, if_pos hv]
          rfl
        obtain ⟨hnodup, hlisted, hlength⟩ := ih hsize
        rw [hsome]
        refine ⟨?_, ?_, ?_⟩
        · exact List.nodup_cons.mpr ⟨fun h => (AList.mem_erase.mp (hlisted v h)).1 rfl, hnodup⟩
        · exact List.forall_mem_cons.mpr ⟨hv, fun k hk => (AList.mem_erase.mp (hlisted k hk)).2⟩
        · rw [List.length_cons, hlength]
          omega
    · refine ⟨List.nodup_nil, by simp, ?_⟩
      rw [List.length_nil]
      omega

end Naive

/-- The loop of `makeRoom`: the sessions it ends, and the book without them. -/
def gather (max share : Nat) : (fuel held : Nat) → Book → List String × Book
  | 0, _, b => ([], b)
  | fuel + 1, held, b =>
    if max < held + 1 then
      match b.tableVictim share with
      | none => ([], b)
      | some victim =>
        let rest := gather max share fuel (held - 1) (b.drop victim)
        (victim :: rest.1, rest.2)
    else ([], b)

/-- The loop ends what a scan of the sessions would, and drops just that from the book. -/
theorem gather_eq {s : Sessions} {b : Book} (h : Follows s b) (max share n : Nat) :
    (gather max share n n b).1 = naiveRoom max share n s.all ∧
      (gather max share n n b).2 = b.run ((gather max share n n b).1.map .drop) := by
  induction n generalizing s b with
  | zero => exact ⟨rfl, rfl⟩
  | succ n ih =>
    rw [gather, naiveRoom, h.mirrors.tableVictim_eq]
    split_ifs
    · cases naiveTableVictim s.all share with
      | none => exact ⟨rfl, rfl⟩
      | some v =>
        obtain ⟨hout, hbook⟩ := ih (h.apply (.drop v))
        exact ⟨congrArg (v :: ·) hout, hbook⟩
    · exact ⟨rfl, rfl⟩

namespace Table

/-- The book made again from the table: the sessions in grace in the order of their ends. -/
def rebuild (t : Table) : Book :=
  let book := t.sessions.pairs.foldl (fun (b : Book) e => b.add e.1 e.2.share) {}
  let grace := t.sessions.pairs.filterMap fun e =>
    e.2.graceUntil.map fun ends => ((toLex (ends, e.1) : Nat ×ₗ String), e.2.ip)
  (grace.mergeSort fun x y => x.1 ≤ y.1).foldl (fun b x => b.toGrace (ofLex x.1).2 x.2) book

def bookOf (t : Table) : Book :=
  if t.book.size = t.sessions.keys.length then t.book else t.rebuild

/-- The sessions that end before one is minted for `peer`; the book counts `peer` from here on. -/
def makeRoom (t : Table) (share : Nat) (peer : String) (max : Nat) : List String × Book :=
  let book := t.bookOf.drop peer
  let held := t.sessions.keys.length - if peer ∈ t.sessions then 1 else 0
  let r := gather max share book.size held book
  (r.1, r.2.add peer share)

/-- `end_session`: the ring hands off, which drops the session from the book, and its slot is
freed. -/
def endSession (t : Table) (peer : String) : Table :=
  if peer ∈ t.sessions then
    { sessions := t.sessions.erase peer, book := (t.book.drop peer).toLive peer }
  else t

def mintSession (t : Table) (peer : String) (share max : Nat) : Table :=
  let room := t.makeRoom share peer max
  let t := room.1.foldl endSession { t with book := room.2 }
  { t with sessions := t.sessions.insert peer { share, graceUntil := none, ip := "" } }

/-- `enter_grace`: the session keeps the slot of its address, or none in a breaker pause. -/
def enterGrace (t : Table) (peer ip : String) (ends : Nat) : Table :=
  match t.sessions.lookup peer with
  | none => t
  | some s =>
    { sessions := t.sessions.insert peer { s with graceUntil := some ends, ip }
      book := (t.book.toLive peer).toGrace peer ip }

/-- The session resumes on a socket that holds a slot of its own (`release_ip_slot`). -/
def resume (t : Table) (peer : String) : Table :=
  match t.sessions.lookup peer with
  | none => t
  | some s =>
    { sessions := t.sessions.insert peer { s with graceUntil := none, ip := "" }
      book := t.book.toLive peer }

/-- A session comes back from the snapshot (`place`), unless the device has one. -/
def place (t : Table) (peer : String) (share ends : Nat) : Table :=
  if peer ∈ t.sessions then t
  else
    { sessions := t.sessions.insert peer { share, graceUntil := some ends, ip := "" }
      book := (t.book.add peer share).toGrace peer "" }

inductive Op
  | mint (peer : String) (share max : Nat)
  | grace (peer ip : String) (ends : Nat)
  | resume (peer : String)
  | finish (peer : String)
  | place (peer : String) (share ends : Nat)

def apply (t : Table) : Op → Table
  | .mint peer share max => t.mintSession peer share max
  | .grace peer ip ends => t.enterGrace peer ip ends
  | .resume peer => t.resume peer
  | .finish peer => t.endSession peer
  | .place peer share ends => t.place peer share ends

def run (t : Table) (ops : List Op) : Table := ops.foldl apply t

end Table

/-- Share, whether live, and the address whose slot is held. -/
abbrev View := Nat × Bool × String

def Place.view (p : Place) : View := (p.share, p.rank.live, p.ip)

def Seat.view (s : Seat) : View := (s.share, s.graceUntil.isNone, s.ip)

namespace Book.Op

def peer : Book.Op → String
  | .add peer _ => peer
  | .toGrace peer _ => peer
  | .toLive peer => peer
  | .drop peer => peer

/-- What an operation makes of the session it names. -/
def seat : Book.Op → Option View → Option View
  | .add _ share, _ => some (share, true, "")
  | .toGrace _ ip, v => v.map fun v => (v.1, false, ip)
  | .toLive _, v => v.map fun v => (v.1, true, "")
  | .drop _, _ => none

end Book.Op

namespace Sessions

def view (s : Sessions) (k : String) : Option View := (s.all.lookup k).map Place.view

theorem view_apply (s : Sessions) (op : Book.Op) (k : String) :
    (s.apply op).view k = if k = op.peer then op.seat (s.view k) else s.view k := by
  split_ifs with hk
  · subst hk
    cases op with
    | add peer share =>
      simp [Sessions.apply, view, Book.Op.peer, Book.Op.seat, Place.view, BookRank.mk,
        BookRank.live]
    | toGrace peer _ | toLive peer =>
      simp only [Sessions.apply, view, Book.Op.peer, Book.Op.seat]
      cases hp : s.all.lookup peer with
      | none => simp [hp]
      | some p => simp [Place.view, BookRank.mk, BookRank.live]
    | drop peer => simp [Sessions.apply, view, Book.Op.peer, Book.Op.seat]
  · refine congrArg (Option.map Place.view) ?_
    cases op with
    | add peer share => exact AList.lookup_insert_ne hk
    | toGrace | toLive =>
      rw [Sessions.apply]
      split
      · rfl
      · exact AList.lookup_insert_ne hk
    | drop peer => exact AList.lookup_erase_ne hk

theorem view_run_drop (s : Sessions) (out : List String) (k : String) :
    (s.run (out.map .drop)).view k = if k ∈ out then none else s.view k := by
  induction out generalizing s with
  | nil => rfl
  | cons v out ih =>
    have hrun : s.run ((v :: out).map .drop) = (s.apply (.drop v)).run (out.map .drop) := rfl
    rw [hrun, ih, view_apply]
    by_cases hout : k ∈ out
    · simp [hout]
    · by_cases hv : k = v <;> simp [hout, hv, Book.Op.peer, Book.Op.seat]

end Sessions

namespace Table

variable {t : Table} {trace : List Book.Op}

/-- The book is what the operations of `trace` made of it, and their record shows every session as
the table has it. -/
structure Traced (t : Table) (trace : List Book.Op) : Prop where
  book : t.book = Book.run {} trace
  seats : ∀ k, (Sessions.run {} trace).view k = (t.sessions.lookup k).map Seat.view

def InStep (t : Table) : Prop := ∃ trace, t.Traced trace

variable (h : t.Traced trace)
include h

theorem Traced.extend {t' : Table} (ops : List Book.Op)
    (hbook : t'.book = t.book.run ops) (hseats : ∀ k, ((Sessions.run {} trace).run ops).view k =
      (t'.sessions.lookup k).map Seat.view) : t'.Traced (trace ++ ops) := by
  refine ⟨?_, fun k => ?_⟩
  · rw [hbook, h.book, Book.run, Book.run, Book.run, List.foldl_append]
  · rw [← hseats, Sessions.run, Sessions.run, Sessions.run, List.foldl_append]

theorem Traced.follows : Follows (Sessions.run {} trace) t.book :=
  h.book ▸ .run trace

theorem Traced.mem (k : String) :
    k ∈ (Sessions.run {} trace).all ↔ k ∈ t.sessions := by
  have hsome := congrArg Option.isSome (h.seats k)
  rw [Sessions.view, Option.isSome_map, Option.isSome_map] at hsome
  rw [← AList.lookup_isSome, ← AList.lookup_isSome, hsome]

omit h in
theorem length_keys_eq {β γ : Type} {d : Dict String β} {e : Dict String γ}
    (h : ∀ k, k ∈ d ↔ k ∈ e) : d.keys.length = e.keys.length := by
  refine List.Perm.length_eq ?_
  refine (List.perm_ext_iff_of_nodup d.keys_nodup e.keys_nodup).mpr fun k => ?_
  rw [← AList.mem_keys, ← AList.mem_keys, h]

omit h in
theorem mem_of_follows {s : Sessions} {b : Book} (h : Follows s b) (k : String) :
    k ∈ b.places ↔ k ∈ s.all := by
  rw [← AList.lookup_isSome, h.places, AList.lookup_isSome]

/-- The operations on the book of a table that makes room. -/
def roomTrace (t : Table) (share : Nat) (peer : String) (max : Nat) : List Book.Op :=
  .drop peer :: (t.makeRoom share peer max).1.map .drop ++ [.add peer share]

section Room

variable (share : Nat) (peer : String) (max : Nat)

/-- What makes room ends what a scan of the table would, and drops just that from the book. -/
theorem Traced.makeRoom_eq :
    (t.makeRoom share peer max).1 = naiveRoom max share (t.sessions.erase peer).keys.length
        ((Sessions.run {} trace).all.erase peer) ∧
      (t.makeRoom share peer max).2 = t.book.run (t.roomTrace share peer max) := by
  have hbook : t.bookOf = t.book := if_pos (length_keys_eq fun k =>
    (mem_of_follows h.follows k).trans (h.mem k))
  have hdrop : Follows ((Sessions.run {} trace).apply (.drop peer)) (t.book.drop peer) :=
    h.follows.apply (.drop peer)
  have hsize : (t.book.drop peer).size = (t.sessions.erase peer).keys.length := by
    refine length_keys_eq fun k => (mem_of_follows hdrop k).trans ?_
    rw [AList.mem_erase, ← h.mem]
    exact AList.mem_erase
  obtain ⟨hout, hrest⟩ := gather_eq hdrop max share (t.sessions.erase peer).keys.length
  generalize hr : gather max share (t.sessions.erase peer).keys.length
    (t.sessions.erase peer).keys.length (t.book.drop peer) = r at hout hrest
  have hroom : t.makeRoom share peer max = (r.1, r.2.add peer share) := by
    rw [makeRoom, hbook, ← length_keys_erase, hsize, hr]
  rw [roomTrace, hroom]
  refine ⟨hout, ?_⟩
  rw [hrest, Book.run, Book.run, List.cons_append, List.foldl_cons, List.foldl_concat]
  rfl

theorem Traced.view_room (k : String) :
    ((Sessions.run {} trace).run (t.roomTrace share peer max)).view k =
      if k = peer then some (share, true, "")
      else if k ∈ (t.makeRoom share peer max).1 then none
      else (t.sessions.lookup k).map Seat.view := by
  have hrun : (Sessions.run {} trace).run (t.roomTrace share peer max) =
      ((((Sessions.run {} trace).apply (.drop peer)).run
        ((t.makeRoom share peer max).1.map .drop)).apply (.add peer share)) := by
    rw [roomTrace, Sessions.run, List.cons_append, List.foldl_cons, List.foldl_concat]
    rfl
  rw [hrun, Sessions.view_apply, Sessions.view_run_drop, Sessions.view_apply, ← h.seats]
  split_ifs <;> simp_all [Book.Op.peer, Book.Op.seat]

/-- Distinct sessions of other devices end, as many as are over the cap with the newcomer
counted. -/
theorem Traced.makeRoom_spec :
    let others := t.sessions.erase peer
    let out := (t.makeRoom share peer max).1
    out.Nodup ∧ (∀ v ∈ out, v ∈ others) ∧
      out.length = min (others.keys.length + 1 - max) others.keys.length := by
  have hmem : ∀ k, k ∈ (Sessions.run {} trace).all.erase peer ↔ k ∈ t.sessions.erase peer := by
    intro k
    rw [AList.mem_erase, AList.mem_erase, h.mem]
  obtain ⟨hnodup, hlisted, hlength⟩ := naiveRoom_spec max share (length_keys_eq hmem)
  simp only [(h.makeRoom_eq share peer max).1]
  exact ⟨hnodup, fun v hv => (hmem v).mp (hlisted v hv), hlength⟩

omit h in
theorem foldl_endSession (victims : List String) (t : Table)
    (hout : ∀ v ∈ victims, t.book.places.lookup v = none) :
    (victims.foldl endSession t).book = t.book ∧
      ∀ k, (victims.foldl endSession t).sessions.lookup k =
        if k ∈ victims then none else t.sessions.lookup k := by
  induction victims generalizing t with
  | nil => exact ⟨rfl, fun k => rfl⟩
  | cons v victims ih =>
    have hv := hout v List.mem_cons_self
    have hone : (t.endSession v).book = t.book ∧
        ∀ k, (t.endSession v).sessions.lookup k =
          if k = v then none else t.sessions.lookup k := by
      rw [endSession]
      split_ifs with hin
      · refine ⟨?_, fun k => Dict.lookup_erase_ite _ _ _⟩
        simp [Book.drop, hv, Book.toLive]
      · refine ⟨rfl, fun k => ?_⟩
        split_ifs with hk
        · rw [hk, AList.lookup_eq_none.mpr hin]
        · rfl
    obtain ⟨hbook, hsessions⟩ := ih (t.endSession v) fun w hw => by
      rw [hone.1]
      exact hout w (List.mem_cons_of_mem v hw)
    refine ⟨hbook.trans hone.1, fun k => ?_⟩
    rw [List.foldl_cons, hsessions, hone.2]
    by_cases hk : k = v <;> by_cases hin : k ∈ victims <;> simp [hk, hin]

/-- Minting ends just the sessions it makes room by, and seats the new peer. -/
theorem Traced.mintSession :
    (∀ k, (t.mintSession peer share max).sessions.lookup k =
      if k = peer then some { share, graceUntil := none, ip := "" }
      else if k ∈ (t.makeRoom share peer max).1 then none else t.sessions.lookup k) ∧
    (t.mintSession peer share max).Traced (trace ++ t.roomTrace share peer max) := by
  have hroom := (h.makeRoom_eq share peer max).2
  have hview := h.view_room share peer max
  have hfollows : Follows ((Sessions.run {} trace).run (t.roomTrace share peer max))
      (t.makeRoom share peer max).2 := by
    rw [hroom, h.book, Sessions.run, Sessions.run, Book.run, Book.run, ← List.foldl_append,
      ← List.foldl_append]
    exact .run _
  obtain ⟨hbook, hsessions⟩ := foldl_endSession (t.makeRoom share peer max).1
    { t with book := (t.makeRoom share peer max).2 } fun v hv => by
      -- what the room ends is another device's, and its record is gone
      have hother := (AList.mem_erase.mp ((h.makeRoom_spec share peer max).2.1 v hv)).1
      have hgone := hview v
      rw [if_neg hother, if_pos hv, Sessions.view, Option.map_eq_none_iff] at hgone
      exact (hfollows.places v).trans hgone
  have hlookup : ∀ k, (t.mintSession peer share max).sessions.lookup k =
      if k = peer then some { share, graceUntil := none, ip := "" }
      else if k ∈ (t.makeRoom share peer max).1 then none else t.sessions.lookup k := by
    intro k
    refine (Dict.lookup_insert_ite _ _ _ _).trans ?_
    rw [hsessions]
  refine ⟨hlookup, h.extend _ (hbook.trans hroom) fun k => ?_⟩
  rw [hview, hlookup]
  split_ifs <;> rfl

/-- The table with the newcomer is within the cap, or holds the newcomer alone. -/
theorem Traced.length_mintSession :
    (t.mintSession peer share max).sessions.keys.length ≤ Nat.max max 1 := by
  obtain ⟨hnodup, hothers, hlength⟩ := h.makeRoom_spec share peer max
  have hkeys : (t.mintSession peer share max).sessions.keys.toFinset =
      insert peer
        ((t.sessions.erase peer).keys.toFinset \ (t.makeRoom share peer max).1.toFinset) := by
    ext k
    rw [List.mem_toFinset, ← AList.mem_keys, ← AList.lookup_isSome,
      (h.mintSession share peer max).1, Finset.mem_insert, Finset.mem_sdiff, List.mem_toFinset,
      List.mem_toFinset, ← AList.mem_keys, AList.mem_erase, ← AList.lookup_isSome]
    split_ifs <;> simp [*]
  have hsub : (t.makeRoom share peer max).1.toFinset ⊆ (t.sessions.erase peer).keys.toFinset := by
    intro v hv
    rw [List.mem_toFinset] at hv ⊢
    exact AList.mem_keys.mp (hothers v hv)
  have hcard := Finset.card_insert_le peer
    ((t.sessions.erase peer).keys.toFinset \ (t.makeRoom share peer max).1.toFinset)
  rw [← hkeys, Finset.card_sdiff_of_subset hsub, List.toFinset_card_of_nodup (AList.keys_nodup _),
    List.toFinset_card_of_nodup (AList.keys_nodup _), List.toFinset_card_of_nodup hnodup,
    hlength] at hcard
  refine hcard.trans ?_
  have hmax : Nat.max max 1 = Max.max max 1 := rfl
  rw [hmax]
  omega

end Room

theorem Traced.reseat {peer : String} {s : Seat} (ops : List Book.Op)
    (hseat : ∀ k, ((Sessions.run {} trace).run ops).view k =
      if k = peer then some s.view else (Sessions.run {} trace).view k) :
    InStep { sessions := t.sessions.insert peer s, book := t.book.run ops } := by
  refine ⟨_, h.extend ops rfl fun k => ?_⟩
  rw [hseat, Dict.lookup_insert_ite, h.seats]
  split_ifs <;> rfl

omit h in
/-- The sessions and the book stay those of one trace of operations. -/
theorem InStep.apply (ht : t.InStep) (op : Op) : (t.apply op).InStep := by
  obtain ⟨trace, h⟩ := ht
  have htwo : ∀ (s : Sessions) (a b : Book.Op) (k : String), (s.run [a, b]).view k =
      if k = b.peer then b.seat ((s.apply a).view k) else (s.apply a).view k :=
    fun s a b k => (s.apply a).view_apply b k
  cases op with
  | mint peer share max => exact ⟨_, (h.mintSession share peer max).2⟩
  | grace peer ip ends =>
    simp only [Table.apply, enterGrace]
    split
    · exact ⟨trace, h⟩
    · next s hs =>
      refine h.reseat [.toLive peer, .toGrace peer ip] fun k => ?_
      rw [htwo, Sessions.view_apply, h.seats]
      by_cases hk : k = peer
      · subst hk
        simp [hs, Book.Op.peer, Book.Op.seat, Seat.view]
      · simp [hk, Book.Op.peer]
  | resume peer =>
    simp only [Table.apply, Table.resume]
    split
    · exact ⟨trace, h⟩
    · next s hs =>
      refine h.reseat [.toLive peer] fun k => ?_
      show ((Sessions.run {} trace).apply (.toLive peer)).view k = _
      rw [Sessions.view_apply, h.seats]
      by_cases hk : k = peer
      · subst hk
        simp [hs, Book.Op.peer, Book.Op.seat, Seat.view]
      · simp [hk, Book.Op.peer]
  | finish peer =>
    simp only [Table.apply, endSession]
    split_ifs with hin
    · refine ⟨_, h.extend [.drop peer, .toLive peer] rfl fun k => ?_⟩
      rw [htwo, Sessions.view_apply, h.seats, Dict.lookup_erase_ite]
      by_cases hk : k = peer <;> simp [hk, Book.Op.peer, Book.Op.seat]
    · exact ⟨trace, h⟩
  | place peer share ends =>
    simp only [Table.apply, Table.place]
    split_ifs
    · exact ⟨trace, h⟩
    · refine h.reseat [.add peer share, .toGrace peer ""] fun k => ?_
      rw [htwo, Sessions.view_apply]
      by_cases hk : k = peer <;> simp [hk, Book.Op.peer, Book.Op.seat, Seat.view]

omit h in
/-- After any operations the book follows the table. -/
theorem inStep_run (ops : List Op) : (run {} ops).InStep :=
  List.foldlRecOn (motive := InStep) ops _ ⟨[], rfl, fun _ => rfl⟩ fun _ ht op _ => ht.apply op

end Table

/-- After any operations on the book, both its choices are those of a scan over the plain record of
the sessions. After any operations on the table its book records every session with the share,
state and address the table has for it, so that `makeRoom` ends, for any cap, what a scan would end
one after another: distinct sessions of other devices, as many as are over the cap with the
newcomer counted. The table with the newcomer is then within the cap (or holds the newcomer
alone). -/
theorem book_picks_right_victims :
    (∀ (ops : List Book.Op) (share : Nat) (ip except : String),
      let b := Book.run {} ops
      let s := Sessions.run {} ops
      b.tableVictim share = naiveTableVictim s.all share ∧
        b.graceSlotVictim ip except = naiveGraceVictim s.all ip except) ∧
    ∀ (ops : List Table.Op) (peer : String) (share max : Nat),
      let t := Table.run {} ops
      let others := t.sessions.erase peer
      let out := (t.makeRoom share peer max).1
      (∃ trace, t.book = Book.run {} trace ∧
        (∀ k, (Sessions.run {} trace).view k = (t.sessions.lookup k).map Seat.view) ∧
        out = naiveRoom max share others.keys.length ((Sessions.run {} trace).all.erase peer)) ∧
      out.Nodup ∧ (∀ v ∈ out, v ∈ others) ∧
        out.length = min (others.keys.length + 1 - max) others.keys.length ∧
        (t.mintSession peer share max).sessions.keys.length ≤ Nat.max max 1 := by
  constructor
  · intro ops share ip except
    have hb := (Follows.run ops).mirrors
    exact ⟨hb.tableVictim_eq share, hb.graceSlotVictim_eq ip except⟩
  · intro ops peer share max
    obtain ⟨trace, h⟩ := Table.inStep_run ops
    obtain ⟨hnodup, hothers, hlength⟩ := h.makeRoom_spec share peer max
    exact ⟨⟨trace, h.book, h.seats, (h.makeRoom_eq share peer max).1⟩, hnodup, hothers, hlength,
      h.length_mintSession share peer max⟩

end Hollow.Session
