import Hollow.Crdt.LockState

/-! The relay's rules for a join lock chain: when a chain passes, and when an offered one is taken.
The relay takes a new lock only when the change key of the current one signed it, or the owner
signed a link past it. -/

namespace Hollow.Relay

open Hollow.Crdt (LockLink isGenesisId isHexDigit maxN)

/-- The three crypto operations the rules rest on. -/
structure LockCrypto where
  verify : (key sig msg : String) → Bool
  /-- The peer id a protobuf-encoded key derives, if it is one. -/
  peerId : (key : String) → Option String
  genesisId : (owner nonce : String) → String

/-- Standard base64 of 64 bytes ends in exactly "==". -/
def b64Chars (s : String) (urlSafe : Bool) : Bool :=
  s.toList.zipIdx.all fun (c, i) =>
    c.isAlphanum || (if urlSafe then c = '-' || c = '_' else c = '+' || c = '/') ||
      (!urlSafe && c = '=' && s.utf8ByteSize ≤ i + 2 && s.utf8ByteSize = 88)

def keyShape (k : String) : Bool := k.utf8ByteSize = 48 && b64Chars k false

def wellFormed (l : LockLink) : Bool :=
  l.n ≤ maxN && (l.door.utf8ByteSize = 43 && b64Chars l.door true) && keyShape l.change &&
    (l.sig.utf8ByteSize = 88 && b64Chars l.sig false) && l.owner.all keyShape &&
    l.nonce.all (fun n => n.utf8ByteSize ≤ 64 && n.toList.all isHexDigit) &&
    (l.owner.isSome || l.nonce.isNone)

def sameLock (l o : LockLink) : Bool := l.n = o.n && l.door = o.door && l.change = o.change

section Rules

variable (c : LockCrypto) (server : String)

def baseOwner (l : LockLink) : Option String := do
  let key ← l.owner
  guard (wellFormed l)
  let owner ← c.peerId key
  guard (!isGenesisId server || l.nonce.any fun nonce => c.genesisId owner nonce = server)
  guard (c.verify key l.sig (l.payload server))
  return owner

def extendsLink (prev next : LockLink) : Bool :=
  !next.isBase && wellFormed next && prev.n < maxN && next.n = prev.n + 1 &&
    c.verify prev.change next.sig (next.payload server)

/-- Each link stands in the relation to the one before it. -/
def chainFrom (r : LockLink → LockLink → Bool) : LockLink → List LockLink → Bool
  | _, [] => true
  | prev, next :: rest => r prev next && chainFrom r next rest

/-- A later link of a chain of `owner`: a successor, or a newer owner-signed link. -/
def follows (owner : String) (prev next : LockLink) : Bool :=
  if next.isBase then prev.n < next.n && baseOwner c server next = some owner
  else extendsLink c server prev next

/-- The owner a whole chain speaks for. -/
def verifyChain : List LockLink → Option String
  | [] => none
  | first :: rest => do
    guard (rest.length + 1 ≤ Crdt.maxChain)
    let owner ← baseOwner c server first
    guard (chainFrom (follows c server owner) first rest)
    return owner

/-- The chain held after `submitted` is offered against `stored`, if it is taken. -/
def relayPut (stored submitted : List LockLink) : Option (List LockLink) :=
  match submitted.head?, submitted.getLast? with
  | some first, some newest =>
    if !first.isBase then
      match stored.getLast? with
      | none => none
      | some tip =>
        if !chainFrom (extendsLink c server) tip submitted then none
        else if Crdt.maxChain < stored.length + submitted.length then none
        else some (stored ++ submitted)
    else
      match verifyChain c server submitted, stored.head?, stored.getLast? with
      | none, _, _ => none
      | some owner, some base, some tip =>
        if baseOwner c server base ≠ some owner then none
        else if tip.n < newest.n then
          let continues := submitted.any (sameLock · tip)
          let reset := (submitted.reverse.find? LockLink.isBase).any (tip.n < ·.n)
          if continues || reset then some submitted else none
        else if sameLock newest tip then
          some (if submitted.length < stored.length then submitted else stored)
        else none
      | some _, _, _ => some submitted
  | _, _ => none

end Rules

section Chains

variable {c : LockCrypto} {server owner : String}

variable {links : List LockLink} {first : LockLink} {rest : List LockLink} {b : LockLink}
  {stored : List LockLink}

theorem chainFrom_iff {r : LockLink → LockLink → Bool} {prev : LockLink} :
    chainFrom r prev links = true ↔ (prev :: links).IsChain (fun a b => r a b = true) := by
  induction links generalizing prev with
  | nil => simp [chainFrom]
  | cons next rest ih => simp [chainFrom, ih]

theorem verifyChain_eq_some :
    verifyChain c server (first :: rest) = some owner ↔
      (first :: rest).length ≤ Crdt.maxChain ∧ baseOwner c server first = some owner ∧
        (first :: rest).IsChain (fun a b => follows c server owner a b = true) := by
  rw [← chainFrom_iff, verifyChain]
  by_cases hlength : rest.length + 1 ≤ Crdt.maxChain
  · cases hbase : baseOwner c server first with
    | none => simp [hlength]
    | some o =>
      by_cases hchain : chainFrom (follows c server o) first rest = true
      · simp [hlength, hchain]
        rintro rfl
        exact hchain
      · simp [hlength, hchain]
        rintro rfl
        simpa using hchain
  · simp [hlength]

theorem isBase_of_baseOwner {l : LockLink} (h : baseOwner c server l = some owner) :
    l.isBase = true := by
  cases hl : l.owner with
  | none => simp [baseOwner, hl] at h
  | some key => simp [LockLink.isBase, hl]

theorem n_lt_of_follows {a : LockLink} (h : follows c server owner a b = true) : a.n < b.n := by
  rw [follows] at h
  split_ifs at h with hbase
  · simp only [Bool.and_eq_true, decide_eq_true_eq] at h
    exact h.1
  · simp only [extendsLink, Bool.and_eq_true, decide_eq_true_eq] at h
    omega

theorem isChain_extends {l : LockLink}
    (h : (l :: links).IsChain (fun a b => follows c server owner a b = true))
    (hnone : ∀ b ∈ links, b.isBase = false) :
    (l :: links).IsChain (fun a b => extendsLink c server a b = true) := by
  induction links generalizing l with
  | nil => exact List.isChain_singleton _
  | cons b links ih =>
    rw [List.isChain_cons_cons] at h ⊢
    have hb := hnone b (by simp)
    refine ⟨?_, ih h.2 fun x hx => hnone x (by simp [hx])⟩
    simpa [follows, hb] using h.1

theorem follows_of_extendsLink (owner : String) {a : LockLink}
    (h : extendsLink c server a b = true) : follows c server owner a b = true := by
  have hbase : b.isBase = false := by
    simp only [extendsLink, Bool.and_eq_true, Bool.not_eq_true'] at h
    exact h.1.1.1.1
  simpa [follows, hbase] using h

theorem n_pairwise (h : links.IsChain (fun a b => follows c server owner a b = true)) :
    links.Pairwise (fun a b => a.n < b.n) := by
  have htrans : IsTrans LockLink fun a b => a.n < b.n := ⟨fun _ _ _ => Nat.lt_trans⟩
  exact List.isChain_iff_pairwise.1 (h.imp fun _ _ => n_lt_of_follows)

theorem baseOwner_of_mem {l : LockLink} (h : verifyChain c server (first :: rest) = some owner)
    (hl : l ∈ first :: rest) (hbase : l.isBase = true) : baseOwner c server l = some owner := by
  obtain ⟨-, hfirst, hchain⟩ := verifyChain_eq_some.1 h
  rcases List.mem_cons.1 hl with rfl | hl
  · exact hfirst
  · clear hfirst h
    induction rest generalizing first with
    | nil => cases hl
    | cons next rest ih =>
      rw [List.isChain_cons_cons] at hchain
      rcases List.mem_cons.1 hl with rfl | hl
      · have hfollows := hchain.1
        simp only [follows, hbase, if_true, Bool.and_eq_true, decide_eq_true_eq] at hfollows
        exact hfollows.2
      · exact ih (by simp [hl]) hchain.2 hl

theorem exists_last_base (h : verifyChain c server (first :: rest) = some owner)
    (hb : (first :: rest).reverse.find? LockLink.isBase = some b) :
    ∃ before links, first :: rest = before ++ b :: links ∧ baseOwner c server b = some owner ∧
      (∀ l ∈ before, l.n < b.n) ∧
        (b :: links).IsChain (fun a b => extendsLink c server a b = true) := by
  obtain ⟨hbase, after, before, hsplit, hnone⟩ := List.find?_eq_some_iff_append.1 hb
  have hsplit : first :: rest = before.reverse ++ b :: after.reverse := by
    have := congrArg List.reverse hsplit
    simpa using this
  obtain ⟨-, -, hchain⟩ := verifyChain_eq_some.1 h
  have hpairwise := n_pairwise hchain
  rw [hsplit] at hchain hpairwise
  refine ⟨before.reverse, after.reverse, hsplit, baseOwner_of_mem h (by simp [hsplit]) hbase,
    fun l hl => (List.pairwise_append.1 hpairwise).2.2 l hl b (by simp), ?_⟩
  refine isChain_extends (hchain.right_of_append) fun l hl => ?_
  simpa using hnone l (by simpa using hl)

/-- The lock `tip'` is reached from `tip` by links that each extend the one before. -/
def Reaches (c : LockCrypto) (server : String) (tip tip' : LockLink) : Prop :=
  ∃ links, (tip :: links).IsChain (fun a b => extendsLink c server a b = true) ∧
    (tip :: links).getLast? = some tip'

def RestsPast (c : LockCrypto) (server : String) (n : Nat) (chain : List LockLink) : Prop :=
  ∃ before base links, chain = before ++ base :: links ∧ (baseOwner c server base).isSome ∧
    n < base.n ∧ (base :: links).IsChain (fun a b => extendsLink c server a b = true)

structure Moves (c : LockCrypto) (server : String) (stored next : List LockLink)
    (tip tip' : LockLink) : Prop where
  old : stored.getLast? = some tip
  new : next.getLast? = some tip'
  le : tip.n ≤ tip'.n
  by_rule : sameLock tip' tip = true ∨ Reaches c server tip tip' ∨ RestsPast c server tip.n next

theorem extendsLink_congr {a a' : LockLink} (h : sameLock a a' = true) :
    extendsLink c server a b = extendsLink c server a' b := by
  simp only [sameLock, Bool.and_eq_true, decide_eq_true_eq] at h
  rw [extendsLink, extendsLink, h.1.1, h.2]

theorem reaches_of_continues {tip newest : LockLink}
    (h : verifyChain c server (first :: rest) = some owner)
    (hb : (first :: rest).reverse.find? LockLink.isBase = some b) (hle : b.n ≤ tip.n)
    (hnewest : (first :: rest).getLast? = some newest) (hlt : tip.n < newest.n)
    (hcontinues : (first :: rest).any (sameLock · tip) = true) : Reaches c server tip newest := by
  obtain ⟨before, links, hsplit, -, hbelow, hextends⟩ := exists_last_base h hb
  obtain ⟨l, hl, hsame⟩ := List.any_eq_true.1 hcontinues
  have hn : l.n = tip.n := by
    simp only [sameLock, Bool.and_eq_true, decide_eq_true_eq] at hsame
    exact hsame.1.1
  have hmem : l ∈ b :: links := by
    rw [hsplit, List.mem_append] at hl
    rcases hl with hl | hl
    · have := hbelow l hl
      omega
    · exact hl
  obtain ⟨skipped, links', hlinks⟩ := List.append_of_mem hmem
  rw [hlinks] at hextends
  have hchain := hextends.right_of_append
  have hlast : (l :: links').getLast? = some newest := by
    rw [hsplit, hlinks] at hnewest
    simpa using hnewest
  cases links' with
  | nil =>
    simp only [List.getLast?_singleton, Option.some_inj] at hlast
    rw [hlast] at hn
    omega
  | cons next links' =>
    refine ⟨next :: links', ?_, by simpa using hlast⟩
    rw [List.isChain_cons_cons] at hchain ⊢
    exact ⟨(extendsLink_congr hsame).symm.trans hchain.1, hchain.2⟩

theorem verifyChain_append {tip : LockLink} (h : verifyChain c server stored = some owner)
    (htip : stored.getLast? = some tip) (hlinks : chainFrom (extendsLink c server) tip links = true)
    (hlength : stored.length + links.length ≤ Crdt.maxChain) :
    verifyChain c server (stored ++ links) = some owner := by
  cases stored with
  | nil => cases htip
  | cons first rest =>
    obtain ⟨-, hfirst, hchain⟩ := verifyChain_eq_some.1 h
    rw [List.cons_append, verifyChain_eq_some]
    refine ⟨by simp only [List.length_cons, List.length_append] at hlength ⊢; omega, hfirst, ?_⟩
    have hext := (chainFrom_iff.1 hlinks).imp fun _ _ => follows_of_extendsLink owner
    rw [← List.cons_append, List.isChain_append]
    refine ⟨hchain, hext.tail, fun a ha b hb => ?_⟩
    rw [htip] at ha
    obtain rfl := Option.mem_some_iff.1 ha
    cases links with
    | nil => cases hb
    | cons next links =>
      obtain rfl := Option.mem_some_iff.1 hb
      exact (List.isChain_cons_cons.1 hext).1

inductive Taken (c : LockCrypto) (server : String) (stored submitted : List LockLink) :
    List LockLink → Prop where
  | append {tip newest : LockLink} (htip : stored.getLast? = some tip)
      (hnewest : submitted.getLast? = some newest)
      (hlinks : chainFrom (extendsLink c server) tip submitted = true)
      (hlength : stored.length + submitted.length ≤ Crdt.maxChain) :
      Taken c server stored submitted (stored ++ submitted)
  | first {owner : String} (hstored : stored = [])
      (hchain : verifyChain c server submitted = some owner) :
      Taken c server stored submitted submitted
  | forward {owner : String} {base tip newest : LockLink} (hbase : stored.head? = some base)
      (htip : stored.getLast? = some tip) (hnewest : submitted.getLast? = some newest)
      (hchain : verifyChain c server submitted = some owner)
      (howner : baseOwner c server base = some owner) (hlt : tip.n < newest.n)
      (hrule : submitted.any (sameLock · tip) = true ∨
        (submitted.reverse.find? LockLink.isBase).any (tip.n < ·.n) = true) :
      Taken c server stored submitted submitted
  | compact {owner : String} {base tip newest : LockLink} (hbase : stored.head? = some base)
      (htip : stored.getLast? = some tip) (hnewest : submitted.getLast? = some newest)
      (hchain : verifyChain c server submitted = some owner)
      (howner : baseOwner c server base = some owner) (hsame : sameLock newest tip = true) :
      Taken c server stored submitted submitted
  | unchanged {newest tip : LockLink} (htip : stored.getLast? = some tip)
      (hsame : sameLock newest tip = true) : Taken c server stored submitted stored

/-- The ways in which the relay takes a submitted chain. -/
theorem taken_of_relayPut {submitted next : List LockLink}
    (h : relayPut c server stored submitted = some next) :
    Taken c server stored submitted next := by
  unfold relayPut at h
  split at h
  case h_2 => cases h
  rename_i first newest hfirst hnewest
  by_cases hnext : first.isBase = true
  · rw [if_neg (by simp [hnext])] at h
    split at h
    · cases h
    · rename_i owner base tip hchain hbase htip
      by_cases howner : baseOwner c server base = some owner
      · rw [if_neg (not_not.2 howner)] at h
        by_cases hlt : tip.n < newest.n
        · rw [if_pos hlt] at h
          dsimp only at h
          split at h
          · rename_i hrule
            obtain rfl := Option.some_inj.1 h
            exact .forward hbase htip hnewest hchain howner hlt (Bool.or_eq_true _ _ ▸ hrule)
          · cases h
        · rw [if_neg hlt] at h
          split_ifs at h with hsame hshorter
          · obtain rfl := Option.some_inj.1 h
            exact .compact hbase htip hnewest hchain howner hsame
          · obtain rfl := Option.some_inj.1 h
            exact .unchanged htip hsame
      · rw [if_pos howner] at h
        cases h
    · rename_i owner hchain hnone
      obtain rfl := Option.some_inj.1 h
      refine .first ?_ hchain
      cases hstored : stored with
      | nil => rfl
      | cons base rest =>
        exact (hnone base ((base :: rest).getLast (by simp)) (by simp [hstored])
          (by rw [hstored]; exact List.getLast?_eq_some_getLast (by simp))).elim
  · rw [if_pos (by simp [hnext])] at h
    split at h
    · cases h
    · rename_i tip htip
      split_ifs at h with hlinks hlength
      obtain rfl := Option.some_inj.1 h
      exact .append htip hnewest (by simpa using hlinks) (not_lt.1 hlength)

/-- A chain that is taken keeps the owner and moves the tip forward. -/
theorem Taken.moves {submitted next : List LockLink} (h : Taken c server stored submitted next)
    (hstored : verifyChain c server stored = some owner) :
    verifyChain c server next = some owner ∧ ∃ tip tip', Moves c server stored next tip tip' := by
  have hsame_owner : ∀ {base : LockLink} {owner' : String}, stored.head? = some base →
      baseOwner c server base = some owner' → owner' = owner := by
    intro base owner' hbase howner
    cases stored with
    | nil => cases hbase
    | cons first rest =>
      obtain rfl := Option.some_inj.1 hbase
      rw [(verifyChain_eq_some.1 hstored).2.1] at howner
      exact (Option.some_inj.1 howner).symm
  cases h with
  | @append tip newest htip hnewest hlinks hlength =>
    refine ⟨verifyChain_append hstored htip hlinks hlength, tip, newest, htip, ?_, ?_, ?_⟩
    · cases submitted with
      | nil => cases hnewest
      | cons first rest => simpa using hnewest
    · have hpairwise := n_pairwise ((chainFrom_iff.1 hlinks).imp fun _ _ =>
        follows_of_extendsLink owner)
      exact ((List.pairwise_cons.1 hpairwise).1 newest (List.mem_of_getLast? hnewest)).le
    · refine .inr (.inl ⟨submitted, chainFrom_iff.1 hlinks, ?_⟩)
      rw [List.getLast?_cons, hnewest]
      rfl
  | first hempty =>
    rw [hempty] at hstored
    cases hstored
  | @forward owner' base tip newest hbase htip hnewest hchain howner hlt hrule =>
    obtain rfl := hsame_owner hbase howner
    refine ⟨hchain, tip, newest, htip, hnewest, hlt.le, .inr ?_⟩
    cases submitted with
    | nil => cases hnewest
    | cons first rest =>
      have hfirst := isBase_of_baseOwner (verifyChain_eq_some.1 hchain).2.1
      obtain ⟨b, hb⟩ := Option.isSome_iff_exists.1
        (List.find?_isSome.2 ⟨first, by simp, hfirst⟩ :
          ((first :: rest).reverse.find? LockLink.isBase).isSome)
      by_cases hpast : tip.n < b.n
      · obtain ⟨before, links, hsplit, hbowner, -, hextends⟩ := exists_last_base hchain hb
        exact .inr ⟨before, b, links, hsplit, by simp [hbowner], hpast, hextends⟩
      · refine .inl (reaches_of_continues hchain hb (not_lt.1 hpast) hnewest hlt ?_)
        rcases hrule with hcontinues | hreset
        · exact hcontinues
        · rw [hb] at hreset
          exact absurd (by simpa using hreset) hpast
  | @compact owner' base tip newest hbase htip hnewest hchain howner hsame =>
    obtain rfl := hsame_owner hbase howner
    refine ⟨hchain, tip, newest, htip, hnewest, ?_, .inl hsame⟩
    simp only [sameLock, Bool.and_eq_true, decide_eq_true_eq] at hsame
    exact hsame.1.1.ge
  | @unchanged newest tip htip =>
    exact ⟨hstored, tip, tip, htip, htip, le_rfl, .inl (by simp [sameLock])⟩

end Chains

end Hollow.Relay
