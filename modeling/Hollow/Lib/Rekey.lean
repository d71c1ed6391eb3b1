import Mathlib

/-! Moving the entries of a map from aliases to the names they stand for, one key after another in
any order. What an entry does to the one under its name is a parameter, which may also refuse it. -/

namespace Rekey

variable {κ V : Type} [Ord κ] [Std.TransOrd κ] [Std.LawfulEqOrd κ] [DecidableEq κ]

section Definitions

variable (resolve : κ → κ) (combine : κ → Option V → V → Option V)

/-- The map with the entry of an alias moved, `none` where it stays. -/
def moveKey (m : Std.ExtTreeMap κ V) (k : κ) : Option (Std.ExtTreeMap κ V) :=
  let name := resolve k
  if name = k then none
  else m[k]?.bind fun v => (combine name m[name]? v).map fun w => (m.erase k).insert name w

def moveKeys : List κ → Std.ExtTreeMap κ V → Std.ExtTreeMap κ V × Bool
  | [], m => (m, false)
  | k :: keys, m =>
    match moveKey resolve combine m k with
    | none => moveKeys keys m
    | some moved => ((moveKeys keys moved).1, true)

/-- An entry lands where the name has none and it may. -/
def adopt (mayLand : κ → V → Bool) : κ → Option V → V → Option V :=
  fun name own v => if own.isNone && mayLand name v then some v else none

/-- The keys of a map, each once, in some order. -/
structure Enumerates (keys : List κ) (m : Std.ExtTreeMap κ V) : Prop where
  nodup : keys.Nodup
  mem : ∀ k, k ∈ keys ↔ k ∈ m

end Definitions

variable {resolve : κ → κ} {combine : κ → Option V → V → Option V} {m m' : Std.ExtTreeMap κ V}
  {k x : κ} {keys : List κ} {v : V}

omit [DecidableEq κ] in
theorem enumerates_keys (m : Std.ExtTreeMap κ V) : Enumerates m.keys m where
  nodup := Std.ExtTreeMap.nodup_keys
  mem _ := Std.ExtTreeMap.mem_keys

theorem moveKey_eq_some (h : moveKey resolve combine m k = some m') :
    resolve k ≠ k ∧ ∃ v w, m[k]? = some v ∧ combine (resolve k) m[resolve k]? v = some w ∧
      ∀ x : κ, m'[x]? = if resolve k = x then some w else if k = x then none else m[x]? := by
  unfold moveKey at h
  dsimp only at h
  split_ifs at h with hname
  obtain ⟨v, hv, h⟩ := Option.bind_eq_some_iff.1 h
  obtain ⟨w, hw, rfl⟩ := Option.map_eq_some_iff.1 h
  refine ⟨hname, v, w, hv, hw, fun x => ?_⟩
  simp [Std.ExtTreeMap.getElem?_insert, Std.ExtTreeMap.getElem?_erase]

omit [Std.LawfulEqOrd κ] in
theorem moveKey_eq_none (h : moveKey resolve combine m k = none) (hname : resolve k ≠ k)
    (hv : m[k]? = some v) : combine (resolve k) m[resolve k]? v = none := by
  unfold moveKey at h
  dsimp only at h
  rw [if_neg hname, hv, Option.bind_some, Option.map_eq_none_iff] at h
  exact h

theorem alias_moveKey (hidem : ∀ k, resolve (resolve k) = resolve k) (hx : resolve x ≠ x)
    (h : moveKey resolve combine m k = some m') : m'[x]? = if k = x then none else m[x]? := by
  obtain ⟨-, v, w, -, -, hm⟩ := moveKey_eq_some h
  have hne : resolve k ≠ x := fun heq => hx (heq ▸ hidem k)
  rw [hm, if_neg hne]

theorem name_moveKey (hx : resolve x = x) (hsome : m[x]?.isSome = true)
    (h : moveKey resolve combine m k = some m') : m'[x]?.isSome = true := by
  obtain ⟨hname, v, w, -, -, hm⟩ := moveKey_eq_some h
  have hne : k ≠ x := fun heq => hname (heq ▸ hx)
  rw [hm, if_neg hne]
  split_ifs
  · rfl
  · exact hsome

omit [Std.LawfulEqOrd κ] in
theorem moveKeys_cons : (moveKeys resolve combine (k :: keys) m).1 =
    (moveKeys resolve combine keys ((moveKey resolve combine m k).getD m)).1 := by
  rw [moveKeys]
  cases moveKey resolve combine m k <;> rfl

theorem name_moveKeys (hx : resolve x = x) (hsome : m[x]?.isSome = true) :
    (moveKeys resolve combine keys m).1[x]?.isSome = true := by
  induction keys generalizing m with
  | nil => exact hsome
  | cons k keys ih =>
    rw [moveKeys_cons]
    cases h : moveKey resolve combine m k with
    | none => exact ih hsome
    | some moved => exact ih (name_moveKey hx hsome h)

section Idempotent

variable (hidem : ∀ k, resolve (resolve k) = resolve k)
include hidem

theorem alias_moveKeys (hx : resolve x ≠ x) : (moveKeys resolve combine keys m).1[x]? = none ∨
      (moveKeys resolve combine keys m).1[x]? = m[x]? := by
  induction keys generalizing m with
  | nil => exact .inr rfl
  | cons k keys ih =>
    rw [moveKeys_cons]
    cases h : moveKey resolve combine m k with
    | none => exact ih
    | some moved =>
      rw [Option.getD_some]
      have hmoved := alias_moveKey hidem hx h
      split_ifs at hmoved
      · exact .inl ((ih).elim id fun heq => heq.trans hmoved)
      · exact hmoved ▸ ih

theorem of_alias_moveKeys (hx : resolve x ≠ x)
    (hkept : (moveKeys resolve combine keys m).1[x]? = some v) : m[x]? = some v := by
  rcases alias_moveKeys hidem hx with hnone | hsame
  · rw [hnone] at hkept
    cases hkept
  · exact hsame.symm.trans hkept

theorem kept_moveKeys (hx : resolve x ≠ x) (hmem : x ∈ keys)
    (hkept : (moveKeys resolve combine keys m).1[x]? = some v) :
    ∃ own, combine (resolve x) own v = none ∧
      (own.isSome = true → (moveKeys resolve combine keys m).1[resolve x]?.isSome = true) := by
  induction keys generalizing m with
  | nil => cases hmem
  | cons k keys ih =>
    rw [moveKeys_cons] at hkept ⊢
    by_cases hin : x ∈ keys
    · exact ih hin hkept
    · obtain rfl := (List.mem_cons.1 hmem).resolve_right hin
      have hv := of_alias_moveKeys hidem hx hkept
      cases h : moveKey resolve combine m x with
      | none =>
        rw [h] at hv
        exact ⟨_, moveKey_eq_none h hx hv, name_moveKeys (hidem x)⟩
      | some moved =>
        rw [h, Option.getD_some, alias_moveKey hidem hx h, if_pos rfl] at hv
        cases hv

theorem refused_moveKeys (hx : resolve x ≠ x) (hv : m[x]? = some v)
    (hrefused : ∀ own, combine (resolve x) own v = none) :
    (moveKeys resolve combine keys m).1[x]? = some v := by
  induction keys generalizing m with
  | nil => exact hv
  | cons k keys ih =>
    rw [moveKeys_cons]
    cases h : moveKey resolve combine m k with
    | none => exact ih hv
    | some moved =>
      refine ih ?_
      have hne : k ≠ x := by
        rintro rfl
        obtain ⟨-, a, w, ha, hw, -⟩ := moveKey_eq_some h
        obtain rfl := Option.some.inj (hv.symm.trans ha)
        rw [hrefused] at hw
        cases hw
      rw [Option.getD_some, alias_moveKey hidem hx h, if_neg hne, hv]

/-- When every move lands, no alias is left. -/
theorem not_mem_moveKeys (htotal : ∀ name own v, (combine name own v).isSome = true)
    (hkeys : Enumerates keys m) (hx : resolve x ≠ x) :
    (moveKeys resolve combine keys m).1[x]? = none := by
  cases hkept : (moveKeys resolve combine keys m).1[x]? with
  | none => rfl
  | some v =>
    have hmem : x ∈ keys := by
      rw [hkeys.mem, ← Std.ExtTreeMap.isSome_getElem?_iff_mem, of_alias_moveKeys hidem hx hkept]
      rfl
    obtain ⟨own, hrefused, -⟩ := kept_moveKeys hidem hx hmem hkept
    have hsome := htotal (resolve x) own v
    rw [hrefused] at hsome
    cases hsome

end Idempotent

variable {mayLand : κ → V → Bool}

/-- The entry a name could adopt from a key. -/
def offer (resolve : κ → κ) (mayLand : κ → V → Bool) (m : Std.ExtTreeMap κ V) (x d : κ) :
    Option V :=
  if d ≠ x ∧ resolve d = x then m[d]?.filter (mayLand x) else none

theorem findSome?_congr {α β : Type} {f g : α → Option β} {l : List α} (h : ∀ a ∈ l, f a = g a) :
    l.findSome? f = l.findSome? g := by
  induction l with
  | nil => rfl
  | cons a l ih =>
    obtain ⟨ha, hl⟩ := List.forall_mem_cons.1 h
    rw [List.findSome?_cons, List.findSome?_cons, ha, ih hl]

/-- A name ends with its own value, else with the first one offered to it. -/
theorem name_adopt (hidem : ∀ k, resolve (resolve k) = resolve k) (hnodup : keys.Nodup)
    (hx : resolve x = x) : (moveKeys resolve (adopt mayLand) keys m).1[x]? =
      m[x]?.or (keys.findSome? (offer resolve mayLand m x)) := by
  induction keys generalizing m with
  | nil => simp [moveKeys]
  | cons k keys ih =>
    obtain ⟨hk, hkeys⟩ := List.nodup_cons.1 hnodup
    rw [moveKeys_cons, List.findSome?_cons]
    cases h : moveKey resolve (adopt mayLand) m k with
    | none =>
      rw [Option.getD_none, ih hkeys]
      have hoffer : m[x]?.isSome = true ∨ offer resolve mayLand m x k = none := by
        unfold offer
        split_ifs with hdevice
        · cases hv : m[k]? with
          | none => exact .inr rfl
          | some v =>
            have hrefused := moveKey_eq_none h (hdevice.2 ▸ hdevice.1.symm) hv
            rw [hdevice.2, adopt] at hrefused
            cases hown : m[x]? with
            | some _ => exact .inl rfl
            | none => simpa [hown] using hrefused
        · exact .inr rfl
      rcases hoffer with hsome | hnone
      · obtain ⟨own, hown⟩ := Option.isSome_iff_exists.1 hsome
        rw [hown]
        rfl
      · rw [hnone]
    | some moved =>
      obtain ⟨hname, v, w, hv, hw, hm⟩ := moveKey_eq_some h
      have hland : m[resolve k]? = none ∧ mayLand (resolve k) v = true ∧ v = w := by
        unfold adopt at hw
        split_ifs at hw with hland
        simpa [← Option.some.inj hw] using hland
      rw [Option.getD_some, ih hkeys]
      by_cases hto : resolve k = x
      · have hoffer : offer resolve mayLand m x k = some w := by
          have hne : k ≠ x := fun heq => hname (hto.trans heq.symm)
          rw [offer, if_pos ⟨hne, hto⟩, hv, Option.filter_some, ← hto, hland.2.1, hland.2.2]
          rfl
        rw [hm, if_pos hto, hoffer, ← hto, hland.1]
        rfl
      · have hne : k ≠ x := fun heq => hname (heq ▸ hx)
        have hoffer : offer resolve mayLand m x k = none := by
          rw [offer, if_neg fun hdevice => hto hdevice.2]
        have hrest : ∀ d ∈ keys, offer resolve mayLand moved x d = offer resolve mayLand m x d := by
          intro d hd
          unfold offer
          split_ifs with hdevice
          · have hdk : k ≠ d := fun heq => hk (heq ▸ hd)
            have hdn : resolve k ≠ d := fun heq => hdevice.1 (by
              rw [← hdevice.2, ← heq, hidem k])
            rw [hm, if_neg hdn, if_neg hdk]
          · rfl
        rw [hm, if_neg hto, if_neg hne, hoffer, findSome?_congr hrest]

end Rekey
