import Mathlib
import Hollow.Lib.Buckets
import Hollow.Relay.FairShare

/-! Destroy orders parked for devices that are away (`kill_list.h`). An order the target's own
phrase stands behind waits in the target's proven slot; every other blob waits in its issuer's slot
for the target, and past a cap the share that holds the most pays. -/

namespace Hollow.Relay

namespace KillList

def maxBlobBytes : Nat := 2048
def maxEntriesPerIssuer : Nat := 64
def maxIssuersPerTarget : Nat := 8
def maxEntries : Nat := 10000
def maxProven : Nat := 10000
def maxAgeSecs : Int := 365 * 86400
def maxFutureMs : Int := 10 * 60 * 1000

structure Entry where
  blob : String
  /-- The signer's clock. -/
  issuedAtMs : Int
  /-- In nanoseconds of the relay's steady clock. -/
  storedAt : Int
  issuer : String
  /-- Deposit order. -/
  seq : Nat
  share : Nat
deriving DecidableEq

structure Deposit where
  target : String
  issuer : String
  share : Nat
  blob : String
  issuedAtMs : Int
deriving DecidableEq

def Deposit.entry (d : Deposit) (storedAt : Int) (seq : Nat) : Entry :=
  { blob := d.blob, issuedAtMs := d.issuedAtMs, storedAt
    issuer := d.issuer, seq, share := d.share }

def Deposit.fits (d : Deposit) : Bool :=
  !d.target.isEmpty && !d.blob.isEmpty && d.blob.utf8ByteSize ≤ maxBlobBytes

end KillList

structure KillList where
  /-- By target. -/
  entries : Dict String (List KillList.Entry) := ∅
  /-- The targets an issuer holds entries for. -/
  byIssuer : Dict String (List String) := ∅
  /-- Every entry by `seq`. -/
  ledger : FairShare Nat := {}
  targetOf : Dict Nat String := ∅
  nextSeq : Nat := 0
  /-- The newest proven order of a target. -/
  proven : Dict String KillList.Entry := ∅
  provenLedger : FairShare String := {}

namespace KillList

def size (k : KillList) : Nat := k.ledger.size + k.proven.keys.length

def issuerCount (k : KillList) (issuer : String) : Nat := (k.byIssuer.bucket issuer).length

def slots (k : KillList) (target : String) : List Entry := k.entries.bucket target

def slot (k : KillList) (target issuer : String) : Option Entry :=
  (k.slots target).find? (·.issuer = issuer)

def forget (target : String) (k : KillList) (e : Entry) : KillList :=
  { k with
    ledger := k.ledger.remove e.seq
    targetOf := k.targetOf.erase e.seq
    byIssuer := k.byIssuer.setBucket e.issuer ((k.byIssuer.bucket e.issuer).erase target) }

def removeIf (k : KillList) (target : String) (pred : Entry → Bool) : Bool × KillList :=
  let list := k.slots target
  let rest := list.filter (!pred ·)
  let k := (list.filter pred).foldl (forget target) k
  (rest.length < list.length, { k with entries := k.entries.setBucket target rest })

def drop (k : KillList) (target : String) (seq : Nat) : KillList :=
  (k.removeIf target (·.seq = seq)).2

/-- How many slots each share holds, and the most any does. -/
def tally (list : List Entry) : (Nat → Nat) × Nat :=
  list.foldl (fun (t : (Nat → Nat) × Nat) e =>
    let n := t.1 e.share + 1
    (Function.update t.1 e.share n, max t.2 n)) (fun _ => 0, 0)

/-- A full target drops the oldest entry of a share that holds the most of its slots. -/
def evictHeaviestAt (k : KillList) (target : String) : KillList :=
  let list := k.slots target
  match (list.filter fun e => (tally list).1 e.share = (tally list).2).argmin (·.seq) with
  | none => k
  | some victim => k.drop target victim.seq

def evictOldestOf (k : KillList) (issuer : String) : KillList :=
  let own := (k.byIssuer.bucket issuer).filterMap fun target =>
    (k.slot target issuer).map fun e => (target, e.seq)
  match own.argmin (·.2) with
  | none => k
  | some (oldest, best) => if oldest.isEmpty then k else k.drop oldest best

/-- Drops list-wide victims until one more entry fits. -/
def makeRoom : Nat → KillList → KillList
  | 0, k => k
  | fuel + 1, k =>
    if k.ledger.size < maxEntries then k
    else
      match k.ledger.victim with
      | none => k
      | some victim =>
        match k.targetOf.lookup victim with
        | none => k
        | some target => makeRoom fuel (k.drop target victim)

def push (k : KillList) (d : Deposit) (storedAt : Int) : KillList :=
  let seq := k.nextSeq + 1
  { k with
    nextSeq := seq
    entries := k.entries.setBucket d.target (k.slots d.target ++ [d.entry storedAt seq])
    byIssuer := k.byIssuer.setBucket d.issuer ((k.byIssuer.bucket d.issuer).insert d.target)
    ledger := k.ledger.put seq d.share 1
    targetOf := k.targetOf.insert seq d.target }

def ownRoom (k : KillList) (issuer : String) : KillList :=
  if maxEntriesPerIssuer ≤ k.issuerCount issuer then k.evictOldestOf issuer else k

def targetRoom (k : KillList) (target : String) : KillList :=
  if maxIssuersPerTarget ≤ (k.slots target).length then k.evictHeaviestAt target else k

def listRoom (k : KillList) : KillList := k.makeRoom k.ledger.size

def insert (k : KillList) (d : Deposit) (storedAt : Int) : KillList :=
  let k := (k.removeIf d.target (·.issuer = d.issuer)).2
  (((k.ownRoom d.issuer).targetRoom d.target).listRoom).push d storedAt

def dropProven (k : KillList) (target : String) : Bool × KillList :=
  (target ∈ k.proven,
    { k with provenLedger := k.provenLedger.remove target, proven := k.proven.erase target })

def trimProven : Nat → KillList → KillList
  | 0, k => k
  | fuel + 1, k =>
    if k.provenLedger.size ≤ maxProven then k
    else
      match k.provenLedger.victim with
      | none => k
      | some victim => trimProven fuel (k.dropProven victim).2

def putProven (k : KillList) (d : Deposit) (storedAt : Int) : KillList :=
  let seq := k.nextSeq + 1
  { k with
    nextSeq := seq
    proven := k.proven.insert d.target (d.entry storedAt seq)
    provenLedger := k.provenLedger.put d.target d.share 1 }

def insertProven (k : KillList) (d : Deposit) (storedAt : Int) : KillList :=
  let k := k.putProven d storedAt
  k.trimProven k.provenLedger.size

def deposit (k : KillList) (d : Deposit) (now nowWallMs : Int) : Bool × KillList :=
  if !d.fits then (false, k)
  else if nowWallMs + maxFutureMs < d.issuedAtMs then (false, k)
  else if (k.slot d.target d.issuer).any (d.issuedAtMs ≤ ·.issuedAtMs) then (false, k)
  else (true, k.insert d now)

def depositProven (k : KillList) (d : Deposit) (now nowWallMs : Int) : Bool × KillList :=
  if !d.fits then (false, k)
  else if nowWallMs + maxFutureMs < d.issuedAtMs then (false, k)
  else if (k.proven.lookup d.target).any (d.issuedAtMs ≤ ·.issuedAtMs) then (false, k)
  else (true, k.insertProven d now)

def restore (k : KillList) (d : Deposit) (storedAt : Int) : KillList :=
  if !d.fits then k else k.insert d storedAt

def restoreProven (k : KillList) (d : Deposit) (storedAt : Int) : KillList :=
  if !d.fits then k else k.insertProven d storedAt

/-- The target's own bare ack, after its wipe. -/
def ack (k : KillList) (target : String) : Bool × KillList :=
  let (any, k) := k.dropProven target
  if target ∈ k.entries then
    let k := (k.slots target).foldl (forget target) k
    (true, { k with entries := k.entries.erase target })
  else (any, k)

/-- The target's ack for the one signal it turned away. -/
def ackOne (k : KillList) (target issuer : String) (issuedAtMs : Int) : Bool × KillList :=
  let names := fun e : Entry => e.issuer = issuer ∧ e.issuedAtMs = issuedAtMs
  let (any, k) :=
    if (k.proven.lookup target).any (names ·) then k.dropProven target else (false, k)
  let (removed, k) := k.removeIf target (names ·)
  (removed || any, k)

def aged (now : Int) (e : Entry) : Bool := maxAgeSecs ≤ (now - e.storedAt).tdiv 1000000000

def sweepTarget (now : Int) (k : KillList) (target : String) : KillList :=
  let k := (k.removeIf target (aged now)).2
  if (k.proven.lookup target).any (aged now) then (k.dropProven target).2 else k

def sweep (k : KillList) (now : Int) : Nat × KillList :=
  let aged := k.proven.pairs.filter fun p => aged now p.2
  (k.entries.keys ++ aged.map (·.1)).foldl (fun (s : Nat × KillList) target =>
    let k := sweepTarget now s.2 target
    (s.1 + (s.2.size - k.size), k)) (0, k)

/-- The indexes are those of the entries. -/
structure Mirrors (k : KillList) : Prop where
  filled : k.entries.NoEmpty
  named : ∀ t, ∀ e ∈ k.slots t, t ≠ ""
  single : ∀ t, ((k.slots t).map (·.issuer)).Nodup
  seqs : ∀ t t', ∀ e ∈ k.slots t, ∀ e' ∈ k.slots t', e.seq = e'.seq → t = t' ∧ e = e'
  recent : ∀ t, ∀ e ∈ k.slots t, e.seq ≤ k.nextSeq
  issuing : k.byIssuer.NoEmpty
  distinct : ∀ i, (k.byIssuer.bucket i).Nodup
  issuers : ∀ i t, t ∈ k.byIssuer.bucket i ↔ ∃ e ∈ k.slots t, e.issuer = i
  targets : ∀ seq t, k.targetOf.lookup seq = some t ↔ ∃ e ∈ k.slots t, e.seq = seq
  ledger : k.ledger.Sound
  listed : ∀ seq share weight, k.ledger.Lists seq share weight ↔
    weight = 1 ∧ ∃ t, ∃ e ∈ k.slots t, e.seq = seq ∧ e.share = share

/-- `k'` is `k` less some entries that were forgotten, but for the entries themselves. -/
structure Forgotten (target : String) (gone : List Entry) (k k' : KillList) : Prop where
  entries : k'.entries = k.entries
  nextSeq : k'.nextSeq = k.nextSeq
  proven : k'.proven = k.proven
  provenLedger : k'.provenLedger = k.provenLedger
  sound : k.ledger.Sound → k'.ledger.Sound
  listed : k'.ledger.entries.Sublist k.ledger.entries
  ledger : ∀ x, x ∈ k'.ledger.entries ↔ x ∈ k.ledger.entries ∧ ∀ e ∈ gone, x.key ≠ e.seq
  targets : ∀ seq t, k'.targetOf.lookup seq = some t ↔
    k.targetOf.lookup seq = some t ∧ ∀ e ∈ gone, seq ≠ e.seq
  issuing : k.byIssuer.NoEmpty → k'.byIssuer.NoEmpty
  held : ∀ i, (k'.byIssuer.bucket i).Sublist (k.byIssuer.bucket i)
  issuers : (∀ i, (k.byIssuer.bucket i).Nodup) → ∀ i t, t ∈ k'.byIssuer.bucket i ↔
    t ∈ k.byIssuer.bucket i ∧ ¬ (t = target ∧ ∃ e ∈ gone, e.issuer = i)

section Forget

variable {target : String} {k k' : KillList}

theorem forgotten_nil : Forgotten target [] k k := by
  constructor <;> simp

theorem forgotten_one (e : Entry) : Forgotten target [e] k (forget target k e) where
  entries := rfl
  nextSeq := rfl
  proven := rfl
  provenLedger := rfl
  sound := fun h => h.remove
  listed := List.filter_sublist
  ledger := fun x => by
    simp only [List.mem_singleton, forall_eq]
    exact FairShare.mem_remove
  targets := fun seq t => by
    simp only [List.mem_singleton, forall_eq, forget]
    by_cases h : seq = e.seq
    · subst h
      simp
    · simp [h]
  issuing := fun h => h.setBucket
  held := fun i => by
    by_cases h : i = e.issuer
    · subst h
      simp only [forget, Dict.bucket_setBucket]
      exact List.erase_sublist
    · simp only [forget, Dict.bucket_setBucket_ne h]
      exact List.Sublist.refl _
  issuers := fun hnodup i t => by
    by_cases h : i = e.issuer
    · subst h
      simp only [forget, Dict.bucket_setBucket, (hnodup _).mem_erase_iff]
      simp [and_comm]
    · simp [forget, Dict.bucket_setBucket_ne h, Ne.symm h]

theorem Forgotten.trans {e : Entry} {gone : List Entry} (h : Forgotten target [e] k k')
    {k'' : KillList} (h' : Forgotten target gone k' k'') : Forgotten target (e :: gone) k k'' where
  entries := h'.entries.trans h.entries
  nextSeq := h'.nextSeq.trans h.nextSeq
  proven := h'.proven.trans h.proven
  provenLedger := h'.provenLedger.trans h.provenLedger
  sound := fun hs => h'.sound (h.sound hs)
  listed := h'.listed.trans h.listed
  ledger := fun x => by
    rw [h'.ledger, h.ledger, List.forall_mem_singleton, List.forall_mem_cons, and_assoc]
  targets := fun seq t => by
    rw [h'.targets, h.targets, List.forall_mem_singleton, List.forall_mem_cons, and_assoc]
  issuing := fun hs => h'.issuing (h.issuing hs)
  held := fun i => (h'.held i).trans (h.held i)
  issuers := fun hnodup i t => by
    rw [h'.issuers (fun i => (hnodup i).sublist (h.held i)), h.issuers hnodup]
    simp only [List.mem_cons, List.not_mem_nil, or_false, exists_eq_left, exists_eq_or_imp]
    rw [and_assoc, ← not_or, ← and_or_left]

theorem forgotten_foldl (gone : List Entry) :
    Forgotten target gone k (gone.foldl (forget target) k) := by
  induction gone generalizing k with
  | nil => exact forgotten_nil
  | cons e gone ih => exact (forgotten_one e).trans ih

end Forget

/-- `k'` is `k` less some entries; the proven slots are the same. -/
structure Shrinks (k k' : KillList) : Prop where
  slots : ∀ t, (k'.slots t).Sublist (k.slots t)
  issuers : ∀ i, (k'.byIssuer.bucket i).Sublist (k.byIssuer.bucket i)
  ledger : k'.ledger.entries.Sublist k.ledger.entries
  nextSeq : k'.nextSeq = k.nextSeq
  proven : k'.proven = k.proven
  provenLedger : k'.provenLedger = k.provenLedger

theorem Shrinks.refl (k : KillList) : Shrinks k k :=
  ⟨fun _ => .refl _, fun _ => .refl _, .refl _, rfl, rfl, rfl⟩

theorem Shrinks.trans {k k' k'' : KillList} (h : Shrinks k k') (h' : Shrinks k' k'') :
    Shrinks k k'' :=
  ⟨fun t => (h'.slots t).trans (h.slots t), fun i => (h'.issuers i).trans (h.issuers i),
    h'.ledger.trans h.ledger, h'.nextSeq.trans h.nextSeq, h'.proven.trans h.proven,
    h'.provenLedger.trans h.provenLedger⟩

section RemoveIf

variable {target t : String} {k : KillList} {pred : Entry → Bool} {e : Entry}

theorem slots_removeIf : (k.removeIf target pred).2.slots target =
    (k.slots target).filter (!pred ·) :=
  Dict.bucket_setBucket

theorem slots_removeIf_ne (h : t ≠ target) : (k.removeIf target pred).2.slots t = k.slots t := by
  refine (Dict.bucket_setBucket_ne h).trans ?_
  rw [(forgotten_foldl _).entries, slots]

theorem mem_slots_removeIf : e ∈ (k.removeIf target pred).2.slots t ↔
    e ∈ k.slots t ∧ ¬ (t = target ∧ pred e) := by
  by_cases h : t = target
  · subst h
    rw [slots_removeIf, List.mem_filter]
    simp
  · simp [slots_removeIf_ne h, h]

theorem shrinks_removeIf : Shrinks k (k.removeIf target pred).2 where
  slots := fun t => by
    by_cases h : t = target
    · subst h
      rw [slots_removeIf]
      exact List.filter_sublist
    · rw [slots_removeIf_ne h]
  issuers := (forgotten_foldl _).held
  ledger := (forgotten_foldl _).listed
  nextSeq := (forgotten_foldl _).nextSeq
  proven := (forgotten_foldl _).proven
  provenLedger := (forgotten_foldl _).provenLedger

/-- Removing entries of a target keeps every index a mirror of the slots. -/
theorem Mirrors.removeIf (hk : Mirrors k) : Mirrors (k.removeIf target pred).2 := by
  have hf := @forgotten_foldl target k ((k.slots target).filter pred)
  have hsub := @shrinks_removeIf target k pred
  refine ⟨?_, ?_, fun t => ?_, ?_, ?_, ?_, fun i => ?_, ?_, ?_, ?_, ?_⟩
  · exact Dict.NoEmpty.setBucket (hf.entries ▸ hk.filled)
  · exact fun t e he => hk.named t e (mem_slots_removeIf.mp he).1
  · exact (hk.single t).sublist ((hsub.slots t).map _)
  · exact fun t t' e he e' he' => hk.seqs t t' e (mem_slots_removeIf.mp he).1 e'
      (mem_slots_removeIf.mp he').1
  · intro t e he
    rw [hsub.nextSeq]
    exact hk.recent t e (mem_slots_removeIf.mp he).1
  · exact hf.issuing hk.issuing
  · exact (hk.distinct i).sublist (hsub.issuers i)
  · intro i t
    refine (hf.issuers hk.distinct i t).trans ?_
    rw [hk.issuers]
    simp only [mem_slots_removeIf, List.mem_filter]
    constructor
    · rintro ⟨⟨e, he, rfl⟩, hnot⟩
      exact ⟨e, ⟨he, fun h => hnot ⟨h.1, e, ⟨h.1 ▸ he, h.2⟩, rfl⟩⟩, rfl⟩
    · rintro ⟨e, ⟨he, hstays⟩, rfl⟩
      refine ⟨⟨e, he, rfl⟩, ?_⟩
      rintro ⟨rfl, e', ⟨he', hpred⟩, hsame⟩
      obtain rfl := List.inj_on_of_nodup_map (hk.single t) he' he hsame
      exact hstays ⟨rfl, hpred⟩
  · intro seq t
    refine (hf.targets seq t).trans ?_
    rw [hk.targets]
    simp only [mem_slots_removeIf, List.mem_filter]
    constructor
    · rintro ⟨⟨e, he, rfl⟩, hnot⟩
      exact ⟨e, ⟨he, fun h => hnot e ⟨h.1 ▸ he, h.2⟩ rfl⟩, rfl⟩
    · rintro ⟨e, ⟨he, hstays⟩, rfl⟩
      refine ⟨⟨e, he, rfl⟩, fun e' he' hsame => ?_⟩
      obtain ⟨rfl, rfl⟩ := hk.seqs _ _ e he e' he'.1 hsame
      exact hstays ⟨rfl, he'.2⟩
  · exact hf.sound hk.ledger
  · intro seq share weight
    have hlists : (k.removeIf target pred).2.ledger.Lists seq share weight ↔
        k.ledger.Lists seq share weight ∧ ∀ e ∈ (k.slots target).filter pred, seq ≠ e.seq := by
      constructor
      · rintro ⟨x, hx, rfl, rfl, rfl⟩
        exact ⟨⟨x, ((hf.ledger x).mp hx).1, rfl, rfl, rfl⟩, ((hf.ledger x).mp hx).2⟩
      · rintro ⟨⟨x, hx, rfl, rfl, rfl⟩, hnot⟩
        exact ⟨x, (hf.ledger x).mpr ⟨hx, hnot⟩, rfl, rfl, rfl⟩
    rw [hlists, hk.listed]
    simp only [mem_slots_removeIf, List.mem_filter]
    constructor
    · rintro ⟨⟨rfl, t, e, he, rfl, rfl⟩, hnot⟩
      exact ⟨rfl, t, e, ⟨he, fun h => hnot e ⟨h.1 ▸ he, h.2⟩ rfl⟩, rfl, rfl⟩
    · rintro ⟨rfl, t, e, ⟨he, hstays⟩, rfl, rfl⟩
      refine ⟨⟨rfl, t, e, he, rfl, rfl⟩, fun e' he' hsame => ?_⟩
      obtain ⟨rfl, rfl⟩ := hk.seqs _ _ e he e' he'.1 hsame
      exact hstays ⟨rfl, he'.2⟩

end RemoveIf

end KillList
end Hollow.Relay
