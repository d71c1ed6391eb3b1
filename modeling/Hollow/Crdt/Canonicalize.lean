import Hollow.Crdt.Anchored
import Hollow.Lib.Rekey

/-! The cleanup that folds what a legacy server keyed by a device id into the master identity. A
master without a role adopts one of its devices' roles in the same call that lets their bans and
mutes land on it, judged by the roles of before; `keepsPower_iff` says for which states that moves
no power. -/

namespace Hollow.Crdt

open Rekey

/-- The order each map's keys are gone through, which a hash map leaves open. -/
structure KeyOrders where
  members : List String
  roles : List String
  nicknames : List String
  twitchUsernames : List String
  storagePledges : List String
  bannedMembers : List String
  mutedMembers : List String
  channelGrants : String → List String
  labelAssignments : List String

structure KeyOrders.Of (o : KeyOrders) (s : Snapshot) : Prop where
  members : Enumerates o.members s.members
  roles : Enumerates o.roles s.roles
  nicknames : Enumerates o.nicknames s.nicknames
  twitchUsernames : Enumerates o.twitchUsernames s.twitchUsernames
  storagePledges : Enumerates o.storagePledges s.storagePledges
  bannedMembers : Enumerates o.bannedMembers s.bannedMembers
  mutedMembers : Enumerates o.mutedMembers s.mutedMembers
  channelGrants : ∀ (channel : String) (regs : Map (AdminLwwReg Nat)),
    s.channelGrants[channel]? = some regs → Enumerates (o.channelGrants channel) regs
  labelAssignments : Enumerates o.labelAssignments s.labelAssignments

section Definitions

variable {V : Type} (resolve : String → String)

def foldLww (keys : List String) (m : Map (AdminLwwReg V)) : Map (AdminLwwReg V) × Bool :=
  moveKeys resolve (fun _ own reg => some ((own.map (·.merge reg)).getD reg)) keys m

/-- Registers that carry authority land only on a master that has none. -/
def adoptLww (mayLand : String → V → Bool) (keys : List String) (m : Map (AdminLwwReg V)) :
    Map (AdminLwwReg V) × Bool :=
  moveKeys resolve (adopt fun master reg => mayLand master reg.value) keys m

/-- An existing entry of the master stays, and a device's entry is renamed. -/
def foldMembers (keys : List String) (m : Map MemberInfo) : Map MemberInfo × Bool :=
  moveKeys resolve (fun master own info => some (own.getD { info with peerId := master })) keys m

def foldLabels (keys : List String) (m : Map (List String)) : Map (List String) × Bool :=
  moveKeys resolve (fun _ own labels =>
    some (labels.foldl (fun entry l => if entry.contains l then entry else entry ++ [l])
      (own.getD []))) keys m

namespace Snapshot

/-- Whether a master's role, as of before the call, is below moderator. -/
def belowModerator (s : Snapshot) (master : String) : Bool :=
  s.roles[master]?.all fun reg => reg.value.priority < MemberRole.moderator.priority

def canonicalizeMembers (o : KeyOrders) (s : Snapshot) : Snapshot × Bool :=
  let members := foldMembers resolve o.members s.members
  let owner := s.currentOwner
  let roles := adoptLww resolve (fun m role => owner ≠ some m && role ≠ .owner) o.roles s.roles
  let nicknames := foldLww resolve o.nicknames s.nicknames
  let twitchUsernames := foldLww resolve o.twitchUsernames s.twitchUsernames
  let storagePledges := foldLww resolve o.storagePledges s.storagePledges
  let bannedMembers :=
    adoptLww resolve (fun m _ => s.belowModerator m) o.bannedMembers s.bannedMembers
  let mutedMembers := adoptLww resolve (fun m _ => s.belowModerator m) o.mutedMembers s.mutedMembers
  let channelGrants :=
    s.channelGrants.map fun channel regs => foldLww resolve (o.channelGrants channel) regs
  let labelAssignments := foldLabels resolve o.labelAssignments s.labelAssignments
  ({ s with
      members := members.1
      roles := roles.1
      nicknames := nicknames.1
      twitchUsernames := twitchUsernames.1
      storagePledges := storagePledges.1
      bannedMembers := bannedMembers.1
      mutedMembers := mutedMembers.1
      channelGrants := channelGrants.map fun _ regs => regs.1
      labelAssignments := labelAssignments.1 },
    members.2 || roles.2 || nicknames.2 || twitchUsernames.2 || storagePledges.2 ||
      bannedMembers.2 || mutedMembers.2 || channelGrants.toList.any (·.2.2) || labelAssignments.2)

end Snapshot

end Definitions

def Canonicalized {V : Type} (resolve : String → String) (m : Map V) : Prop :=
  ∀ k : String, resolve k ≠ k → m[k]? = none

/-- Every register left under a device is one the cleanup keeps on purpose: the master has its own,
or the register may not land there. -/
def KeptOnPurpose {V : Type} (resolve : String → String) (mayLand : String → V → Bool)
    (m : Map (AdminLwwReg V)) : Prop :=
  ∀ (k : String) (reg : AdminLwwReg V), resolve k ≠ k → m[k]? = some reg →
    m[resolve k]?.isSome = true ∨ mayLand (resolve k) reg.value = false

/-- Registers are new only at masters that end below moderator. -/
def LandsBelow {V : Type} (before after : Map (AdminLwwReg V))
    (roles : Map (AdminLwwReg MemberRole)) : Prop :=
  ∀ (m : String), before[m]? = none → after[m]?.isSome = true →
    roles[m]?.all (fun reg => reg.value.priority < MemberRole.moderator.priority) = true

structure KeepsPower (resolve : String → String) (s t : Snapshot) : Prop where
  /-- The registers of value owner are the same, under the same ids. -/
  owner : ∀ (k : String) (reg : AdminLwwReg MemberRole), reg.value = .owner →
    (t.roles[k]? = some reg ↔ s.roles[k]? = some reg)
  members : Canonicalized resolve t.members
  nicknames : Canonicalized resolve t.nicknames
  twitchUsernames : Canonicalized resolve t.twitchUsernames
  storagePledges : Canonicalized resolve t.storagePledges
  channelGrants : ∀ (channel : String) (regs : Map (AdminLwwReg Nat)),
    t.channelGrants[channel]? = some regs → Canonicalized resolve regs
  labelAssignments : Canonicalized resolve t.labelAssignments
  roles : KeptOnPurpose resolve (fun m role => s.currentOwner ≠ some m && role ≠ .owner) t.roles
  bans : KeptOnPurpose resolve (fun m _ => s.belowModerator m) t.bannedMembers
  mutes : KeptOnPurpose resolve (fun m _ => s.belowModerator m) t.mutedMembers
  newBans : LandsBelow s.bannedMembers t.bannedMembers t.roles
  newMutes : LandsBelow s.mutedMembers t.mutedMembers t.roles

/-- A master that can adopt the role of a moderator or an admin from a device. -/
def CanRise (resolve : String → String) (s : Snapshot) (m : String) : Prop :=
  s.roles[m]? = none ∧ ∃ (d : String) (reg : AdminLwwReg MemberRole), d ≠ m ∧ resolve d = m ∧
    s.roles[d]? = some reg ∧ reg.value ≠ .owner ∧
    MemberRole.moderator.priority ≤ reg.value.priority

def CanAdopt {V : Type} (resolve : String → String) (regs : Map (AdminLwwReg V)) (m : String) :
    Prop :=
  regs[m]? = none ∧ ∃ d : String, d ≠ m ∧ resolve d = m ∧ regs[d]?.isSome = true

variable {V : Type} {resolve : String → String} {s : Snapshot} {o : KeyOrders} {keys : List String}
  {regs : Map (AdminLwwReg V)} {mayLand : String → V → Bool} {m : String}

section Idempotent

variable (hidem : ∀ k, resolve (resolve k) = resolve k)
include hidem

theorem keptOnPurpose_adoptLww (hkeys : Enumerates keys regs) :
    KeptOnPurpose resolve mayLand (adoptLww resolve mayLand keys regs).1 := by
  intro k reg hk hkept
  have hmem : k ∈ keys := by
    rw [hkeys.mem, ← Std.ExtTreeMap.isSome_getElem?_iff_mem, of_alias_moveKeys hidem hk hkept]
    rfl
  obtain ⟨own, hrefused, hown⟩ := kept_moveKeys hidem hk hmem hkept
  unfold adopt at hrefused
  split_ifs at hrefused with hland
  cases own with
  | some _ => exact .inl (hown rfl)
  | none => exact .inr (by simpa using hland)

theorem adoptLww_cases (hnodup : keys.Nodup) {reg : AdminLwwReg V}
    (hreg : (adoptLww resolve mayLand keys regs).1[m]? = some reg) :
    regs[m]? = some reg ∨ regs[m]? = none ∧ ∃ d : String, d ≠ m ∧ resolve d = m ∧
      regs[d]? = some reg ∧ mayLand m reg.value = true := by
  by_cases hm : resolve m = m
  · rw [adoptLww, name_adopt hidem hnodup hm] at hreg
    rcases Option.or_eq_some_iff.1 hreg with hown | ⟨hnone, hfound⟩
    · exact .inl hown
    · obtain ⟨d, -, hoffer⟩ := List.exists_of_findSome?_eq_some hfound
      unfold offer at hoffer
      split_ifs at hoffer with hdevice
      obtain ⟨hd, hland⟩ := Option.filter_eq_some_iff.1 hoffer
      exact .inr ⟨hnone, d, hdevice.1, hdevice.2, hd, hland⟩
  · exact .inl (of_alias_moveKeys hidem hm hreg)

theorem adoptLww_of_some (hnodup : keys.Nodup) (hm : resolve m = m) {reg : AdminLwwReg V}
    (hreg : regs[m]? = some reg) : (adoptLww resolve mayLand keys regs).1[m]? = some reg := by
  rw [adoptLww, name_adopt hidem hnodup hm, hreg]
  rfl

theorem canAdopt_of_adoptLww (hnodup : keys.Nodup) (hnone : regs[m]? = none)
    (hsome : (adoptLww resolve mayLand keys regs).1[m]?.isSome = true) :
    CanAdopt resolve regs m ∧ resolve m = m ∧ ∃ v, mayLand m v = true := by
  obtain ⟨reg, hreg⟩ := Option.isSome_iff_exists.1 hsome
  rcases adoptLww_cases hidem hnodup hreg with hold | ⟨-, d, hne, hd, hdreg, hland⟩
  · rw [hnone] at hold
    cases hold
  · exact ⟨⟨hnone, d, hne, hd, by rw [hdreg]; rfl⟩, hd ▸ hidem d, _, hland⟩

theorem owner_adoptLww (hnodup : keys.Nodup) {roles : Map (AdminLwwReg MemberRole)}
    {mayLand : String → MemberRole → Bool} (howner : ∀ m, mayLand m .owner = false) {k : String}
    {reg : AdminLwwReg MemberRole} (hreg : reg.value = .owner) :
    (adoptLww resolve mayLand keys roles).1[k]? = some reg ↔ roles[k]? = some reg := by
  constructor
  · intro hafter
    rcases adoptLww_cases hidem hnodup hafter with hold | ⟨-, d, -, -, -, hland⟩
    · exact hold
    · rw [hreg, howner] at hland
      cases hland
  · intro hbefore
    by_cases hk : resolve k = k
    · exact adoptLww_of_some hidem hnodup hk hbefore
    · refine refused_moveKeys hidem hk hbefore fun own => ?_
      simp [adopt, hreg, howner]

theorem landsBelow_adoptLww (hnodup : keys.Nodup) {roleKeys : List String} (hroles : roleKeys.Nodup)
    {mayRise : String → MemberRole → Bool} (howner : ∀ m, mayRise m .owner = false)
    (hapart : ∀ m, CanRise resolve s m → ¬ CanAdopt resolve regs m) :
    LandsBelow regs (adoptLww resolve (fun m _ => s.belowModerator m) keys regs).1
      (adoptLww resolve mayRise roleKeys s.roles).1 := by
  intro m hnone hsome
  obtain ⟨hadopt, hm, -, hbelow⟩ := canAdopt_of_adoptLww hidem hnodup hnone hsome
  cases hrole : (adoptLww resolve mayRise roleKeys s.roles).1[m]? with
  | none => rfl
  | some reg =>
    rcases adoptLww_cases hidem hroles hrole with hold | ⟨hfree, d, hne, hd, hdreg, hland⟩
    · simpa [Snapshot.belowModerator, hold] using hbelow
    · rw [Option.all_some, decide_eq_true_eq]
      by_contra hrank
      refine hapart m ⟨hfree, d, reg, hne, hd, hdreg, fun hreg => ?_, not_lt.1 hrank⟩ hadopt
      rw [hreg, howner] at hland
      cases hland

theorem canonicalized_foldLww (hkeys : Enumerates keys regs) :
    Canonicalized resolve (foldLww resolve keys regs).1 :=
  fun _ hk => not_mem_moveKeys hidem (fun _ _ _ => rfl) hkeys hk

/-- Only where bans and mutes land is left to the run; the rest the move keeps by itself. -/
theorem keepsPower_of_landsBelow (ho : o.Of s)
    (hbans : LandsBelow s.bannedMembers (s.canonicalizeMembers resolve o).1.bannedMembers
      (s.canonicalizeMembers resolve o).1.roles)
    (hmutes : LandsBelow s.mutedMembers (s.canonicalizeMembers resolve o).1.mutedMembers
      (s.canonicalizeMembers resolve o).1.roles) :
    KeepsPower resolve s (s.canonicalizeMembers resolve o).1 where
  owner _ _ hreg := owner_adoptLww hidem ho.roles.nodup (by simp) hreg
  members _ hk := not_mem_moveKeys hidem (fun _ _ _ => rfl) ho.members hk
  nicknames := canonicalized_foldLww hidem ho.nicknames
  twitchUsernames := canonicalized_foldLww hidem ho.twitchUsernames
  storagePledges := canonicalized_foldLww hidem ho.storagePledges
  channelGrants := by
    intro channel regs hregs
    rw [Snapshot.canonicalizeMembers, Map.getElem?_map, Map.getElem?_map, Option.map_map] at hregs
    obtain ⟨before, hbefore, rfl⟩ := Option.map_eq_some_iff.1 hregs
    exact canonicalized_foldLww hidem (ho.channelGrants channel before hbefore)
  labelAssignments _ hk := not_mem_moveKeys hidem (fun _ _ _ => rfl) ho.labelAssignments hk
  roles := keptOnPurpose_adoptLww hidem ho.roles
  bans := keptOnPurpose_adoptLww hidem ho.bannedMembers
  mutes := keptOnPurpose_adoptLww hidem ho.mutedMembers
  newBans := hbans
  newMutes := hmutes

end Idempotent

theorem enumerates_first {m : Map V} {d : String} (hd : d ∈ m) :
    Enumerates (d :: m.keys.erase d) m := by
  have hmem : d ∈ m.keys := Std.ExtTreeMap.mem_keys.2 hd
  have hperm : (d :: m.keys.erase d).Perm m.keys := (List.perm_cons_erase hmem).symm
  exact ⟨hperm.nodup_iff.2 (enumerates_keys m).nodup, fun k =>
    hperm.mem_iff.trans ((enumerates_keys m).mem k)⟩

/-- The keys of every map by id, but a device first among the roles. -/
def ordersFrom (s : Snapshot) (d : String) : KeyOrders where
  members := s.members.keys
  roles := d :: s.roles.keys.erase d
  nicknames := s.nicknames.keys
  twitchUsernames := s.twitchUsernames.keys
  storagePledges := s.storagePledges.keys
  bannedMembers := s.bannedMembers.keys
  mutedMembers := s.mutedMembers.keys
  channelGrants channel := (s.channelGrants.getD channel ∅).keys
  labelAssignments := s.labelAssignments.keys

theorem ordersFrom_of {d : String} (hd : d ∈ s.roles) : (ordersFrom s d).Of s where
  members := enumerates_keys _
  roles := enumerates_first hd
  nicknames := enumerates_keys _
  twitchUsernames := enumerates_keys _
  storagePledges := enumerates_keys _
  bannedMembers := enumerates_keys _
  mutedMembers := enumerates_keys _
  channelGrants channel regs hregs := by
    have hget : s.channelGrants.getD channel ∅ = regs := by
      rw [Std.ExtTreeMap.getD_eq_getD_getElem?, hregs]
      rfl
    exact hget ▸ enumerates_keys (s.channelGrants.getD channel ∅)
  labelAssignments := enumerates_keys _

/-- Bans and mutes are judged by the roles before the move, so one lands on a master to whom a
device brings a moderator's role. -/
theorem not_landsBelow (hidem : ∀ k, resolve (resolve k) = resolve k) (hkeys : Enumerates keys regs)
    {d : String} {roleKeys : List String} {role : AdminLwwReg MemberRole}
    (hnodup : (d :: roleKeys).Nodup) (hfree : s.roles[m]? = none) (hne : d ≠ m)
    (hd : resolve d = m) (hrole : s.roles[d]? = some role) (howner : role.value ≠ .owner)
    (hrank : MemberRole.moderator.priority ≤ role.value.priority)
    (hadopt : CanAdopt resolve regs m) :
    ¬ LandsBelow regs (adoptLww resolve (fun m _ => s.belowModerator m) keys regs).1
      (adoptLww resolve (fun m role => s.currentOwner ≠ some m && role ≠ .owner) (d :: roleKeys)
        s.roles).1 := by
  intro hlands
  obtain ⟨hnone, e, hem, he, hsome⟩ := hadopt
  have hm : resolve m = m := hd ▸ hidem d
  have hnotOwner : s.currentOwner ≠ some m := by
    intro hcurrent
    obtain ⟨reg, hreg, -⟩ := Snapshot.role_of_currentOwner hcurrent
    rw [hfree] at hreg
    cases hreg
  have hrisen : (adoptLww resolve (fun m role => s.currentOwner ≠ some m && role ≠ .owner)
      (d :: roleKeys) s.roles).1[m]? = some role := by
    have hoffer : offer resolve (fun m (reg : AdminLwwReg MemberRole) =>
        s.currentOwner ≠ some m && reg.value ≠ .owner) s.roles m d = some role := by
      simp [offer, hne, hd, hrole, hnotOwner, howner]
    rw [adoptLww, name_adopt hidem hnodup hm, hfree, List.findSome?_cons, hoffer]
    rfl
  have hlanded : (adoptLww resolve (fun m _ => s.belowModerator m) keys regs).1[m]?.isSome =
      true := by
    obtain ⟨reg, hreg⟩ := Option.isSome_iff_exists.1 hsome
    rw [adoptLww, name_adopt hidem hkeys.nodup hm, hnone, Option.none_or,
      List.findSome?_isSome_iff]
    refine ⟨e, ?_, ?_⟩
    · rw [hkeys.mem, ← Std.ExtTreeMap.isSome_getElem?_iff_mem, hsome]
    · simp [offer, hem, he, hreg, Snapshot.belowModerator, hfree]
  have hbelow := hlands m hnone hlanded
  rw [hrisen, Option.all_some, decide_eq_true_eq] at hbelow
  omega

/-- Canonicalizing moves no power, in every order its maps may yield their keys, if and only if no
master can adopt a moderator's role together with a ban or a mute. -/
theorem keepsPower_iff (resolve : String → String)
    (hidem : ∀ k, resolve (resolve k) = resolve k) (s : Snapshot) :
    (∀ o : KeyOrders, o.Of s → KeepsPower resolve s (s.canonicalizeMembers resolve o).1) ↔
      ∀ m, CanRise resolve s m →
        ¬ CanAdopt resolve s.bannedMembers m ∧ ¬ CanAdopt resolve s.mutedMembers m := by
  constructor
  · rintro hkeeps m ⟨hfree, d, role, hne, hd, hrole, howner, hrank⟩
    have hmem : d ∈ s.roles := by
      rw [← Std.ExtTreeMap.isSome_getElem?_iff_mem, hrole]
      rfl
    have hof := ordersFrom_of hmem
    have hpower := hkeeps _ hof
    exact ⟨fun hban => not_landsBelow hidem hof.bannedMembers hof.roles.nodup hfree hne hd hrole
        howner hrank hban hpower.newBans,
      fun hmute => not_landsBelow hidem hof.mutedMembers hof.roles.nodup hfree hne hd hrole howner
        hrank hmute hpower.newMutes⟩
  · intro hapart o ho
    refine keepsPower_of_landsBelow hidem ho ?_ ?_
    · exact landsBelow_adoptLww hidem ho.bannedMembers.nodup ho.roles.nodup (by simp)
        fun m hrise => (hapart m hrise).1
    · exact landsBelow_adoptLww hidem ho.mutedMembers.nodup ho.roles.nodup (by simp)
        fun m hrise => (hapart m hrise).2

def phoneOf (id : String) : String := if id = "phone" then "ann" else id

theorem phoneOf_phoneOf (id : String) : phoneOf (phoneOf id) = phoneOf id := by
  unfold phoneOf
  split_ifs <;> simp_all

def phoneServer (role : MemberRole) : Snapshot :=
  { Snapshot.skeleton "srv" with
    roles := (∅ : Map _).insert "phone" ⟨role, 0, .zero "bob"⟩
    bannedMembers := (∅ : Map _).insert "phone" ⟨true, 0, .zero "bob"⟩ }

/-- A banned device without a rank lands its ban on the master, and no power moves. -/
theorem keepsPower_of_bannedMember :
    (phoneServer .member).roles["phone"]?.isSome = true ∧
      (∀ o : KeyOrders, o.Of (phoneServer .member) →
        KeepsPower phoneOf (phoneServer .member)
          ((phoneServer .member).canonicalizeMembers phoneOf o).1) := by
  refine ⟨by decide +kernel, (keepsPower_iff phoneOf phoneOf_phoneOf _).2 ?_⟩
  rintro m ⟨-, d, role, hne, hd, hrole, -, hrank⟩
  have hmember : role = ⟨.member, 0, .zero "bob"⟩ := by
    simp only [phoneServer, Map.getElem?_insert, Std.ExtTreeMap.getElem?_empty] at hrole
    split_ifs at hrole
    exact (Option.some.inj hrole).symm
  rw [hmember] at hrank
  exact absurd hrank (by decide)

/-- A banned moderator's phone: its master ends up a banned moderator. -/
theorem not_keepsPower : ∃ o : KeyOrders, o.Of (phoneServer .moderator) ∧
    ¬ KeepsPower phoneOf (phoneServer .moderator)
      ((phoneServer .moderator).canonicalizeMembers phoneOf o).1 := by
  have hmem : "phone" ∈ (phoneServer .moderator).roles := by decide +kernel
  refine ⟨ordersFrom _ "phone", ordersFrom_of hmem, fun hkeeps => ?_⟩
  have hbelow := hkeeps.newBans "ann" (by decide +kernel) (by decide +kernel)
  revert hbelow
  decide +kernel

end Hollow.Crdt
