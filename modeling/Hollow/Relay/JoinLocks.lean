import Hollow.Relay.LockChain
import Hollow.Relay.FairShare

/-! The table of join lock chains a relay keeps, charged to the shares of those who last changed
them. `lockChain_moves_forward` is about whole runs of puts, with arbitrary bodies, to one record.
-/

namespace Hollow.Relay

open Hollow.Crdt (LockLink isGenesisId isLowercaseHexDigit)

/-- A legacy 32-hex id or a self-certifying 40-hex one. -/
def isServerIdShape (id : String) : Bool :=
  (id.utf8ByteSize = 32 || id.utf8ByteSize = 40) && id.toList.all isLowercaseHexDigit

def isBase58btcChar (c : Char) : Bool :=
  ('1' ≤ c && c ≤ '9') || ('A' ≤ c && c ≤ 'H') || ('J' ≤ c && c ≤ 'N') || ('P' ≤ c && c ≤ 'Z') ||
    ('a' ≤ c && c ≤ 'k') || ('m' ≤ c && c ≤ 'z')

def isPeerIdShape (id : String) : Bool :=
  40 ≤ id.utf8ByteSize && id.utf8ByteSize ≤ 64 && id.toList.all isBase58btcChar

def recordKey (server owner : String) : String :=
  if isGenesisId server then server else server ++ "|" ++ owner

/-- `sizeof(LockLink)`: a 64-bit number, five strings and two flags. -/
def sizeofLockLink : Nat := 176

def maxBytes : Nat := 128 * 1024 * 1024

def recordBytes (key : String) (links : List LockLink) : Nat :=
  256 + key.utf8ByteSize + (links.map fun l =>
    sizeofLockLink + 64 + l.door.utf8ByteSize + l.change.utf8ByteSize + l.sig.utf8ByteSize +
      (l.owner.getD "").utf8ByteSize + (l.nonce.getD "").utf8ByteSize).sum

structure JoinLocks where
  budget : Nat := maxBytes
  records : Std.ExtTreeMap String (List LockLink) := ∅
  ledger : FairShare String := {}

namespace JoinLocks

/-- Records give way until the ledger is within the budget; each round drops one entry. -/
def enforceBudget : Nat → JoinLocks → JoinLocks
  | 0, s => s
  | rounds + 1, s =>
    if s.budget < s.ledger.total then
      match s.ledger.victim with
      | none => s
      | some key =>
        enforceBudget rounds
          { s with records := s.records.erase key, ledger := s.ledger.remove key }
    else s

/-- The table with `next` as the chain of a record, charged to `share` if it is new. -/
def keep (s : JoinLocks) (key : String) (next : List LockLink) (share : Nat) : JoinLocks :=
  if s.records[key]? = some next then { s with ledger := s.ledger.touch key }
  else
    let s := { s with
      records := s.records.insert key next
      ledger := s.ledger.put key share (recordBytes key next) }
    enforceBudget s.ledger.entries.length s

def put (s : JoinLocks) (c : LockCrypto) (server owner : String) (submitted : List LockLink)
    (share : Nat) : Bool × List LockLink × JoinLocks :=
  let key := recordKey server owner
  let stored := (s.records[key]?).getD []
  match submitted.head?, submitted.getLast? with
  | some first, some newest =>
    if first.isBase && !isGenesisId server && baseOwner c server first ≠ some owner then
      (false, stored, s)
    else match relayPut c server stored submitted with
      | none => (false, stored, s)
      | some next =>
        let s := s.keep key next share
        match s.records[key]? with
        | none => (false, [], s)
        | some current => (current.getLast?.any (sameLock · newest), current, s)
  | _, _ => (false, stored, s)

def chain (s : JoinLocks) (key : String) : List LockLink := (s.records[key]?).getD []

end JoinLocks

/-- A record key names a server id, and an owner that is a peer id or absent. -/
def lockKeyShape (server owner : String) : Bool :=
  isServerIdShape server && (owner.isEmpty || isPeerIdShape owner)

structure LockPut where
  owner : String
  links : List LockLink
  share : Nat

/-- `handle_lock_put`, past the JSON: a body of more links than a chain holds is not read. -/
def handleLockPut (c : LockCrypto) (server : String) (s : JoinLocks) (p : LockPut) : JoinLocks :=
  if lockKeyShape server p.owner && p.links.length ≤ Crdt.maxChain then
    (s.put c server p.owner p.links p.share).2.2
  else s

def lockRun (c : LockCrypto) (server : String) (puts : List LockPut) : JoinLocks :=
  puts.foldl (handleLockPut c server) {}

section Record

variable {c : LockCrypto} {server owner key : String} {s : JoinLocks}

theorem wellFormed_of_baseOwner {l : LockLink} (h : baseOwner c server l = some owner) :
    wellFormed l = true := by
  by_contra hbad
  cases hl : l.owner with
  | none => simp [baseOwner, hl] at h
  | some k => simp [baseOwner, hl, hbad] at h

theorem wellFormed_of_follows {a b : LockLink} (h : follows c server owner a b = true) :
    wellFormed b = true := by
  rw [follows] at h
  split_ifs at h
  · simp only [Bool.and_eq_true, decide_eq_true_eq] at h
    exact wellFormed_of_baseOwner h.2
  · simp only [extendsLink, Bool.and_eq_true] at h
    exact h.1.1.1.2

theorem wellFormed_of_mem {first l : LockLink} {rest : List LockLink}
    (hfirst : wellFormed first = true)
    (h : (first :: rest).IsChain (fun a b => follows c server owner a b = true))
    (hl : l ∈ first :: rest) : wellFormed l = true := by
  induction rest generalizing first with
  | nil => rwa [List.mem_singleton.1 hl]
  | cons next rest ih =>
    rw [List.isChain_cons_cons] at h
    rcases List.mem_cons.1 hl with rfl | hl
    · exact hfirst
    · exact ih (wellFormed_of_follows h.1) h.2 hl

theorem linkBytes_le {l : LockLink} (h : wellFormed l = true) :
    sizeofLockLink + 64 + l.door.utf8ByteSize + l.change.utf8ByteSize + l.sig.utf8ByteSize +
      (l.owner.getD "").utf8ByteSize + (l.nonce.getD "").utf8ByteSize ≤ 1000 := by
  simp only [wellFormed, keyShape, Bool.and_eq_true, decide_eq_true_eq] at h
  obtain ⟨⟨⟨⟨⟨⟨-, hdoor, -⟩, hchange, -⟩, hsig, -⟩, howner⟩, hnonce⟩, -⟩ := h
  have howner : (l.owner.getD "").utf8ByteSize ≤ 48 := by
    cases hl : l.owner with
    | none => simp
    | some k =>
      simp only [hl, keyShape, Option.all_some, Bool.and_eq_true, decide_eq_true_eq] at howner
      exact howner.1.le
  have hnonce : (l.nonce.getD "").utf8ByteSize ≤ 64 := by
    cases hl : l.nonce with
    | none => simp
    | some k =>
      simp only [hl, Option.all_some, Bool.and_eq_true, decide_eq_true_eq] at hnonce
      exact hnonce.1
  rw [sizeofLockLink]
  omega

/-- The record of a chain that verifies is within the size a record may have. -/
theorem recordBytes_le {links : List LockLink} (h : verifyChain c server links = some owner)
    (hkey : key.utf8ByteSize ≤ 105) : recordBytes key links ≤ maxBytes := by
  cases links with
  | nil => cases h
  | cons first rest =>
    obtain ⟨hlength, hfirst, hchain⟩ := verifyChain_eq_some.1 h
    have hsum := List.sum_le_card_nsmul ((first :: rest).map fun l =>
      sizeofLockLink + 64 + l.door.utf8ByteSize + l.change.utf8ByteSize + l.sig.utf8ByteSize +
        (l.owner.getD "").utf8ByteSize + (l.nonce.getD "").utf8ByteSize) 1000 (by
      intro n hn
      obtain ⟨l, hl, rfl⟩ := List.mem_map.1 hn
      exact linkBytes_le (wellFormed_of_mem (wellFormed_of_baseOwner hfirst) hchain hl))
    rw [List.length_map, smul_eq_mul] at hsum
    rw [recordBytes, maxBytes]
    rw [Crdt.maxChain] at hlength
    omega

theorem recordKey_le (h : lockKeyShape server owner = true) :
    (recordKey server owner).utf8ByteSize ≤ 105 := by
  simp only [lockKeyShape, isServerIdShape, isPeerIdShape, Bool.and_eq_true, Bool.or_eq_true,
    decide_eq_true_eq] at h
  have howner : owner.utf8ByteSize ≤ 64 := by
    rcases h.2 with hempty | hshape
    · have : owner = "" := by simpa using hempty
      simp [this]
    · exact hshape.1.2
  rw [recordKey]
  split_ifs
  · omega
  · rw [String.utf8ByteSize_append, String.utf8ByteSize_append]
    have : ("|" : String).utf8ByteSize = 1 := rfl
    omega

/-- The table holds no other record than that of the key. -/
structure Single (c : LockCrypto) (server key : String) (s : JoinLocks) : Prop where
  budget : s.budget = maxBytes
  entries : ∀ e ∈ s.ledger.entries, e.key = key
  chain : s.chain key = [] ∨ ∃ owner, verifyChain c server (s.chain key) = some owner

theorem Taken.verifies {stored submitted next : List LockLink}
    (h : Taken c server stored submitted next)
    (hstored : stored = [] ∨ ∃ owner, verifyChain c server stored = some owner) :
    ∃ owner, verifyChain c server next = some owner := by
  rcases hstored with rfl | ⟨owner, hstored⟩
  · cases h with
    | append htip => cases htip
    | first _ hchain => exact ⟨_, hchain⟩
    | forward hbase => cases hbase
    | compact hbase => cases hbase
    | unchanged htip => cases htip
  · exact ⟨owner, (h.moves hstored).1⟩

variable {f : FairShare String}

theorem total_put_of_single (h : ∀ e ∈ f.entries, e.key = key) (share weight : Nat) :
    (f.put key share weight).total = weight := by
  have hempty : f.entries.filter (·.key ≠ key) = [] := by
    rw [List.filter_eq_nil_iff]
    intro e he
    simpa using h e he
  rw [FairShare.total, FairShare.put, FairShare.remove, hempty]
  simp

theorem enforceBudget_of_le {rounds : Nat} (h : s.ledger.total ≤ s.budget) :
    s.enforceBudget rounds = s := by
  cases rounds with
  | zero => rfl
  | succ rounds => rw [JoinLocks.enforceBudget, if_neg (not_lt.2 h)]

theorem mem_put_entries {share weight : Nat} {e : Entry String} (h : ∀ e ∈ f.entries, e.key = key)
    (he : e ∈ (f.put key share weight).entries) : e.key = key := by
  rcases List.mem_append.1 he with he | he
  · exact h e (List.mem_filter.1 he).1
  · rw [List.mem_singleton.1 he]

theorem mem_touch_entries {e : Entry String} (h : ∀ e ∈ f.entries, e.key = key)
    (he : e ∈ (f.touch key).entries) : e.key = key := by
  rw [FairShare.touch] at he
  split_ifs at he
  · obtain ⟨e', he', rfl⟩ := List.mem_map.1 he
    split_ifs <;> exact h e' he'
  · exact h e he

theorem Single.keep (hs : Single c server key s) (hsize : key.utf8ByteSize ≤ 105)
    {next : List LockLink} (hnext : verifyChain c server next = some owner) (share : Nat) :
    Single c server key (s.keep key next share) ∧ (s.keep key next share).chain key = next := by
  rw [JoinLocks.keep]
  split_ifs with hheld
  · have hchain : s.chain key = next := by rw [JoinLocks.chain, hheld]; rfl
    exact ⟨⟨hs.budget, fun e he => mem_touch_entries hs.entries he, hs.chain⟩, hchain⟩
  · have hle := recordBytes_le hnext hsize
    rw [enforceBudget_of_le (by simpa [total_put_of_single hs.entries, hs.budget] using hle)]
    have hchain : ((s.records.insert key next)[key]?).getD [] = next := by simp
    refine ⟨⟨hs.budget, fun e he => mem_put_entries hs.entries he, .inr ⟨owner, ?_⟩⟩, hchain⟩
    rwa [JoinLocks.chain, hchain]

theorem put_state (c : LockCrypto) (server owner : String) (s : JoinLocks)
    (submitted : List LockLink) (share : Nat) :
    (s.put c server owner submitted share).2.2 = s ∨
      ∃ next, relayPut c server (s.chain (recordKey server owner)) submitted = some next ∧
        (s.put c server owner submitted share).2.2 =
          s.keep (recordKey server owner) next share := by
  unfold JoinLocks.put
  dsimp only
  split
  case h_2 => exact .inl rfl
  split
  · exact .inl rfl
  · split
    · exact .inl rfl
    · rename_i next hput
      refine .inr ⟨next, hput, ?_⟩
      split <;> rfl

theorem Single.put (hs : Single c server key s) (hkey : recordKey server owner = key)
    (hsize : key.utf8ByteSize ≤ 105) (submitted : List LockLink) (share : Nat) :
    Single c server key (s.put c server owner submitted share).2.2 ∧
      ((s.put c server owner submitted share).2.2.chain key = s.chain key ∨
        Taken c server (s.chain key) submitted
          ((s.put c server owner submitted share).2.2.chain key)) := by
  rcases put_state c server owner s submitted share with
    hsame | ⟨next, hput, hstate⟩
  · rw [hsame]
    exact ⟨hs, .inl rfl⟩
  · rw [hkey] at hput hstate
    have htaken := taken_of_relayPut hput
    obtain ⟨owner', hnext⟩ := htaken.verifies hs.chain
    obtain ⟨hsingle, hchain⟩ := hs.keep hsize hnext share
    rw [hstate, hchain]
    exact ⟨hsingle, .inr htaken⟩

end Record

section Run

variable {c : LockCrypto} {server key : String}

theorem lockRun_append (before after : List LockPut) :
    lockRun c server (before ++ after) =
      after.foldl (handleLockPut c server) (lockRun c server before) :=
  List.foldl_append

variable {s : JoinLocks}

theorem Single.handleLockPut (hs : Single c server key s) {p : LockPut}
    (hkey : recordKey server p.owner = key) :
    Single c server key (handleLockPut c server s p) ∧
      ((handleLockPut c server s p).chain key = s.chain key ∨
        Taken c server (s.chain key) p.links ((handleLockPut c server s p).chain key)) := by
  rw [Relay.handleLockPut]
  split_ifs with hshape
  · rw [Bool.and_eq_true] at hshape
    exact hs.put hkey (hkey ▸ recordKey_le hshape.1) p.links p.share
  · exact ⟨hs, .inl rfl⟩

theorem single_lockRun {puts : List LockPut} (h : ∀ p ∈ puts, recordKey server p.owner = key) :
    Single c server key (lockRun c server puts) := by
  induction puts using List.reverseRecOn with
  | nil => exact ⟨rfl, by simp [lockRun], .inl (by simp [lockRun, JoinLocks.chain])⟩
  | append_singleton puts p ih =>
    rw [lockRun_append]
    exact ((ih fun q hq => h q (by simp [hq])).handleLockPut (h p (by simp))).1

theorem moves_handleLockPut {owner : String} (hs : Single c server key s) {p : LockPut}
    (hkey : recordKey server p.owner = key)
    (howner : verifyChain c server (s.chain key) = some owner) :
    verifyChain c server ((handleLockPut c server s p).chain key) = some owner ∧
      ∃ tip tip', Moves c server (s.chain key) ((handleLockPut c server s p).chain key)
        tip tip' := by
  rcases (hs.handleLockPut hkey).2 with hsame | htaken
  · have hmem : s.chain key ≠ [] := by
      intro hempty
      rw [hempty] at howner
      cases howner
    obtain ⟨tip, htip⟩ := Option.isSome_iff_exists.1 (List.getLast?_isSome.2 hmem)
    rw [hsame]
    exact ⟨howner, tip, tip, htip, htip, le_rfl, .inl (by simp [sameLock])⟩
  · exact htaken.moves howner

/-- No run of deposits changes a chain's owner or takes its number back. -/
theorem keeps_owner_and_number {owner : String} {tip : LockLink} (hs : Single c server key s)
    {after : List LockPut} (hafter : ∀ p ∈ after, recordKey server p.owner = key)
    (howner : verifyChain c server (s.chain key) = some owner)
    (htip : (s.chain key).getLast? = some tip) :
    verifyChain c server ((after.foldl (handleLockPut c server) s).chain key) = some owner ∧
      ∃ tip', ((after.foldl (handleLockPut c server) s).chain key).getLast? = some tip' ∧
        tip.n ≤ tip'.n := by
  induction after generalizing s tip with
  | nil => exact ⟨howner, tip, htip, le_rfl⟩
  | cons p after ih =>
    have hkey := hafter p (by simp)
    obtain ⟨howner', old, new, hmoves⟩ := moves_handleLockPut hs hkey howner
    obtain rfl : tip = old := Option.some_inj.1 (htip.symm.trans hmoves.old)
    obtain ⟨howner'', tip', htip', hle⟩ :=
      ih (hs.handleLockPut hkey).1 (fun q hq => hafter q (by simp [hq])) howner' hmoves.new
    exact ⟨howner'', tip', htip', hmoves.le.trans hle⟩

end Run

/-- After any puts to one record its chain passes and is within the cap; from any point of the run
to any later one the owner stays and the newest number does not fall; and each put leaves the newest
lock as it is, reaches the new one by successors, or rests on an owner-signed link past it. -/
theorem lockChain_moves_forward (c : LockCrypto) (server key : String) {puts : List LockPut}
    (hroom : ∀ p ∈ puts, recordKey server p.owner = key) :
    let chain := fun puts => (lockRun c server puts).chain key
    (chain puts = [] ∨ ∃ owner, verifyChain c server (chain puts) = some owner ∧
        (chain puts).length ≤ Crdt.maxChain) ∧
      (∀ before after owner tip, puts = before ++ after →
        verifyChain c server (chain before) = some owner → (chain before).getLast? = some tip →
          verifyChain c server (chain puts) = some owner ∧
            ∃ tip', (chain puts).getLast? = some tip' ∧ tip.n ≤ tip'.n) ∧
      (∀ before p, puts = before ++ [p] → chain before ≠ [] →
        ∃ tip tip', Moves c server (chain before) (chain puts) tip tip') := by
  intro chain
  refine ⟨?_, ?_, ?_⟩
  · rcases (single_lockRun (c := c) hroom).chain with hempty | ⟨owner, howner⟩
    · exact .inl hempty
    · refine .inr ⟨owner, howner, ?_⟩
      cases hchain : chain puts with
      | nil => simp
      | cons first rest =>
        have howner : verifyChain c server (chain puts) = some owner := howner
        rw [hchain] at howner
        exact (verifyChain_eq_some.1 howner).1
  · rintro before after owner tip rfl howner htip
    have hs := single_lockRun (c := c) fun p hp => hroom p (List.mem_append_left after hp)
    dsimp only [chain]
    rw [lockRun_append]
    exact keeps_owner_and_number hs (fun p hp => hroom p (List.mem_append_right before hp)) howner
      htip
  · rintro before p rfl hne
    have hs := single_lockRun (c := c) fun q hq => hroom q (List.mem_append_left [p] hq)
    obtain ⟨owner, howner⟩ := hs.chain.resolve_left hne
    dsimp only [chain]
    rw [lockRun_append]
    exact (moves_handleLockPut hs (hroom p (by simp)) howner).2

def sampleServer : String := String.ofList (List.replicate 40 'a')

/-- A crypto that takes every signature. -/
def trusting : LockCrypto where
  verify _ _ _ := true
  peerId _ := some "o"
  genesisId _ _ := sampleServer

def filled (size : Nat) : String := String.ofList (List.replicate size 'A')

def sampleLink (n : Nat) (base : Bool) : LockLink where
  n
  door := filled 43
  change := filled 48
  sig := filled 88
  owner := if base then some (filled 48) else none
  nonce := if base then some "" else none

def samplePuts : List LockPut :=
  [⟨"", [sampleLink 1 true], 0⟩, ⟨"", [sampleLink 2 false], 0⟩]

theorem lockChain_moves_forward_sample :
    ∃ tip tip', Moves trusting sampleServer
      ((lockRun trusting sampleServer (samplePuts.take 1)).chain sampleServer)
      ((lockRun trusting sampleServer samplePuts).chain sampleServer) tip tip' := by
  have hroom : ∀ p ∈ samplePuts, recordKey sampleServer p.owner = sampleServer := by
    decide +kernel
  exact (lockChain_moves_forward trusting sampleServer sampleServer hroom).2.2
    (samplePuts.take 1) _ rfl (by decide +kernel)

end Hollow.Relay
