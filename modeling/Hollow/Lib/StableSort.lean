import Mathlib

/-! Stable sorting of a list by a key. Two sorted lists are equal when, for every key, they hold the
elements of that key in the same order; that is how the lemmas below compare sorts. -/

namespace StableSort

variable {α κ : Type*} [LinearOrder κ]

def keyLe (key : α → κ) (a b : α) : Prop := key a ≤ key b

instance (key : α → κ) : DecidableRel (keyLe key) := fun a b =>
  inferInstanceAs (Decidable (key a ≤ key b))

instance (key : α → κ) : Std.Total (keyLe key) := ⟨fun a b => le_total (key a) (key b)⟩

instance (key : α → κ) : IsTrans α (keyLe key) := ⟨fun _ _ _ => le_trans⟩

def sortBy (key : α → κ) (l : List α) : List α := l.insertionSort (keyLe key)

/-- A new element in front of the first of the same or a greater key. -/
def insertBy (key : α → κ) (a : α) (l : List α) : List α := l.orderedInsert (keyLe key) a

variable {key : α → κ} {l l' : List α} {a : α} {k : κ}

theorem sortBy_perm : (sortBy key l).Perm l := List.perm_insertionSort _ l

@[simp] theorem mem_sortBy : a ∈ sortBy key l ↔ a ∈ l := sortBy_perm.mem_iff

theorem sorted_sortBy : (sortBy key l).Pairwise (keyLe key) := List.pairwise_insertionSort _ l

theorem sortBy_eq_self (h : l.Pairwise (keyLe key)) : sortBy key l = l :=
  h.insertionSort_eq

theorem insertBy_perm : (insertBy key a l).Perm (a :: l) := List.perm_orderedInsert _ a l

@[simp] theorem mem_insertBy {b : α} : b ∈ insertBy key a l ↔ b = a ∨ b ∈ l := by
  simp [insertBy]

theorem sorted_insertBy (h : l.Pairwise (keyLe key)) : (insertBy key a l).Pairwise (keyLe key) :=
  h.orderedInsert a l

theorem filter_insertBy (p : α → Bool) (h : l.Pairwise (keyLe key)) :
    (insertBy key a l).filter p = if p a then insertBy key a (l.filter p) else l.filter p := by
  induction l with
  | nil => by_cases hp : p a <;> simp [insertBy, hp]
  | cons b l ih =>
    obtain ⟨hb, hl⟩ := List.pairwise_cons.mp h
    rw [insertBy, List.orderedInsert_cons]
    by_cases hab : keyLe key a b
    · rw [if_pos hab]
      by_cases hp : p a
      · rw [if_pos hp, List.filter_cons_of_pos hp]
        -- every kept element has a key of at least that of `b`, so `a` goes in front
        have hle : ∀ c ∈ (b :: l).filter p, keyLe key a c := by
          intro c hc
          rcases List.mem_cons.mp (List.mem_filter.mp hc).1 with rfl | hc
          · exact hab
          · exact le_trans hab (hb c hc)
        cases hf : (b :: l).filter p with
        | nil => rfl
        | cons c rest =>
          rw [insertBy, List.orderedInsert_cons, if_pos (hle c (by simp [hf]))]
      · rw [if_neg hp, List.filter_cons_of_neg hp]
    · rw [if_neg hab]
      have ih := ih hl
      rw [insertBy] at ih
      by_cases hpb : p b
      · rw [List.filter_cons_of_pos hpb, ih, List.filter_cons_of_pos hpb]
        by_cases hp : p a
        · rw [if_pos hp, if_pos hp, insertBy, insertBy, List.orderedInsert_cons, if_neg hab]
        · rw [if_neg hp, if_neg hp]
      · rw [List.filter_cons_of_neg hpb, ih, List.filter_cons_of_neg hpb]

theorem filter_sortBy (p : α → Bool) : (sortBy key l).filter p = sortBy key (l.filter p) := by
  induction l with
  | nil => rfl
  | cons a l ih =>
    have hcons : sortBy key (a :: l) = insertBy key a (sortBy key l) := rfl
    rw [hcons, filter_insertBy p sorted_sortBy, ih]
    by_cases hp : p a
    · rw [if_pos hp, List.filter_cons_of_pos hp]
      rfl
    · rw [if_neg hp, List.filter_cons_of_neg hp]

theorem filter_key_sortBy : (sortBy key l).filter (key · = k) = l.filter (key · = k) := by
  rw [filter_sortBy]
  refine sortBy_eq_self (List.pairwise_of_forall_mem_list fun a ha b hb => ?_)
  have ha := of_decide_eq_true (List.mem_filter.mp ha).2
  have hb := of_decide_eq_true (List.mem_filter.mp hb).2
  exact (ha.trans hb.symm).le

theorem eq_of_filter_key_eq (h : l.Pairwise (keyLe key)) (h' : l'.Pairwise (keyLe key))
    (hkeys : ∀ k, l.filter (key · = k) = l'.filter (key · = k)) : l = l' := by
  induction l generalizing l' with
  | nil =>
    cases l' with
    | nil => rfl
    | cons b l' => simpa using hkeys (key b)
  | cons a l ih =>
    cases l' with
    | nil => simpa using hkeys (key a)
    | cons b l' =>
      obtain ⟨ha, hl⟩ := List.pairwise_cons.mp h
      obtain ⟨hb, hl'⟩ := List.pairwise_cons.mp h'
      have hmem : a ∈ b :: l' := by
        have : a ∈ (b :: l').filter (key · = key a) := by rw [← hkeys]; simp
        exact (List.mem_filter.mp this).1
      have hmem' : b ∈ a :: l := by
        have : b ∈ (a :: l).filter (key · = key b) := by rw [hkeys]; simp
        exact (List.mem_filter.mp this).1
      have hkey : key a = key b := by
        refine le_antisymm ?_ ?_
        · rcases List.mem_cons.mp hmem' with rfl | hmem'
          · exact le_rfl
          · exact ha b hmem'
        · rcases List.mem_cons.mp hmem with rfl | hmem
          · exact le_rfl
          · exact hb a hmem
      have hhead := hkeys (key a)
      rw [List.filter_cons_of_pos (by simp), List.filter_cons_of_pos (by simp [hkey])] at hhead
      obtain ⟨rfl, -⟩ := List.cons.inj hhead
      refine congrArg _ (ih hl hl' fun k => ?_)
      have htail := hkeys k
      by_cases hk : key a = k
      · rw [List.filter_cons_of_pos (by simp [hk]), List.filter_cons_of_pos (by simp [hk])] at htail
        exact (List.cons.inj htail).2
      · rwa [List.filter_cons_of_neg (by simp [hk]),
          List.filter_cons_of_neg (by simp [hk])] at htail

/-- A list in the order of `tie` is sorted by `key` as by the pair of both. -/
theorem sortBy_eq_sortBy_toLex {ν : Type*} [LinearOrder ν] {tie : α → ν}
    (h : l.Pairwise (tie · < tie ·)) : sortBy key l = sortBy (fun a => toLex (key a, tie a)) l := by
  have hsorted : (sortBy (fun a => toLex (key a, tie a)) l).Pairwise (keyLe key) :=
    sorted_sortBy.imp fun {a b} hle =>
      Prod.Lex.monotone_fst (toLex (key a, tie a)) (toLex (key b, tie b)) hle
  refine eq_of_filter_key_eq sorted_sortBy hsorted fun k => ?_
  rw [filter_key_sortBy, filter_sortBy, sortBy_eq_self]
  -- The elements of one key are already in the order of `tie`.
  refine (h.filter _).imp_of_mem fun {a b} ha hb htie => ?_
  have ha : key a = k := by simpa using (List.mem_filter.1 ha).2
  have hb : key b = k := by simpa using (List.mem_filter.1 hb).2
  exact Prod.Lex.toLex_le_toLex.2 (.inr ⟨ha.trans hb.symm, htie.le⟩)

theorem sortBy_eq_of_perm (h : l.Perm l') (hinj : ∀ a ∈ l, ∀ b ∈ l, key a = key b → a = b) :
    sortBy key l = sortBy key l' := by
  have hperm : (sortBy key l).Perm (sortBy key l') :=
    sortBy_perm.trans (h.trans sortBy_perm.symm)
  refine hperm.eq_of_pairwise (fun a b ha hb hab hba => ?_) sorted_sortBy sorted_sortBy
  exact hinj a (mem_sortBy.mp ha) b (h.mem_iff.mpr (mem_sortBy.mp hb)) (le_antisymm hab hba)

variable {p : α → Bool} {n : Nat}

theorem filter_append_filter_not (h : l.Pairwise (keyLe key))
    (hp : ∀ a ∈ l, ∀ b ∈ l, p a → ¬ p b → key a < key b) :
    l.filter p ++ l.filter (fun a => ¬ p a) = l := by
  induction l with
  | nil => rfl
  | cons a l ih =>
    obtain ⟨ha, hl⟩ := List.pairwise_cons.mp h
    have ih := ih hl fun b hb c hc => hp b (by simp [hb]) c (by simp [hc])
    by_cases hpa : p a
    · rw [List.filter_cons_of_pos hpa, List.filter_cons_of_neg (by simpa using hpa),
        List.cons_append, ih]
    · have hrest : ∀ b ∈ l, ¬ p b := fun b hb hpb =>
        absurd (hp b (by simp [hb]) a (by simp) hpb hpa) (not_lt.mpr (ha b hb))
      have hnone : l.filter p = [] := List.filter_eq_nil_iff.mpr hrest
      rw [List.filter_cons_of_neg hpa, List.filter_cons_of_pos (by simpa using hpa), hnone,
        List.nil_append, List.filter_eq_self.mpr]
      intro b hb
      simpa using hrest b hb

theorem mem_take_filter (h : a ∈ l.take n) (hp : p a) : a ∈ (l.filter p).take n := by
  have hsplit : l.filter p = (l.take n).filter p ++ (l.drop n).filter p := by
    rw [← List.filter_append, List.take_append_drop]
  have hlength : ((l.take n).filter p).length ≤ n :=
    (List.length_filter_le _ _).trans (List.length_take_le _ _)
  rw [hsplit, List.take_append]
  refine List.mem_append_left _ ?_
  rw [List.take_of_length_le hlength]
  exact List.mem_filter.mpr ⟨h, hp⟩

theorem mem_take_of_filter (h : l.Pairwise (keyLe key))
    (hp : ∀ a ∈ l, ∀ b ∈ l, p a → ¬ p b → key a < key b) (ha : a ∈ (l.filter p).take n) :
    a ∈ l.take n := by
  rw [← filter_append_filter_not h hp, List.take_append]
  exact List.mem_append_left _ ha

theorem key_le_of_prefix {p : List α} {b : α} (h : l.Pairwise (keyLe key)) (hp : p <+: l)
    (ha : a ∈ l) (hout : a ∉ p) (hb : b ∈ p) : key b ≤ key a := by
  obtain ⟨rest, rfl⟩ := hp
  rcases List.mem_append.mp ha with ha | ha
  · exact absurd ha hout
  · exact (List.pairwise_append.mp h).2.2 b hb a ha

theorem take_sortBy_of_first {u : List α} (hinj : ∀ a ∈ l, ∀ b ∈ l, key a = key b → a = b)
    (hl : l.Nodup) (hu : u.Nodup) (hsub : u ⊆ l) (hfirst : ∀ a ∈ (sortBy key l).take n, a ∈ u) :
    (sortBy key u).take n = (sortBy key l).take n := by
  classical
  have hperm : u.Perm (l.filter (· ∈ u)) :=
    (List.perm_ext_iff_of_nodup hu (hl.filter _)).mpr fun a => by
      simpa using fun ha => hsub ha
  have hsort : sortBy key u = (sortBy key l).filter (· ∈ u) := by
    rw [filter_sortBy]
    exact sortBy_eq_of_perm hperm fun a ha b hb => hinj a (hsub ha) b (hsub hb)
  have hkept : ((sortBy key l).take n).filter (· ∈ u) = (sortBy key l).take n :=
    List.filter_eq_self.mpr fun a ha => by simpa using hfirst a ha
  rw [hsort]
  nth_rewrite 1 [← List.take_append_drop n (sortBy key l)]
  rw [List.filter_append, hkept, List.take_append]
  by_cases hlength : n ≤ (sortBy key l).length
  · simp [List.length_take_of_le hlength]
  · rw [List.drop_eq_nil_of_le (le_of_not_ge hlength)]
    simp

theorem sorted_lt_sortBy (hnodup : l.Nodup) (hinj : ∀ a b, key a = key b → a = b) :
    (sortBy key l).Pairwise (key · < key ·) := by
  have hne : (sortBy key l).Pairwise (· ≠ ·) := sortBy_perm.nodup_iff.mpr hnodup
  exact (sorted_sortBy.and hne).imp fun {a b} h => lt_of_le_of_ne h.1 fun hkey =>
    h.2 (hinj a b hkey)

theorem mem_take_iff_length (h : l.Pairwise (key · < key ·)) :
    a ∈ l.take n ↔ a ∈ l ∧ (l.filter (key · < key a)).length < n := by
  induction l generalizing n with
  | nil => simp
  | cons b l ih =>
    obtain ⟨hb, hl⟩ := List.pairwise_cons.mp h
    cases n with
    | zero => simp
    | succ n =>
      rw [List.take_succ_cons, List.mem_cons, List.mem_cons, ih hl]
      by_cases hab : a = b
      · subst hab
        have hnone : l.filter (key · < key a) = [] :=
          List.filter_eq_nil_iff.mpr fun c hc => by simpa using (hb c hc).le
        simp [hnone]
      · refine (or_iff_right hab).trans ((and_congr_right fun hmem => ?_).trans
          (and_congr_left' (or_iff_right hab).symm))
        simp [hb a hmem]

theorem mem_take_iff [DecidableEq α] {s : Finset α} (h : l.Pairwise (key · < key ·))
    (hs : ∀ a, a ∈ l ↔ a ∈ s) : a ∈ l.take n ↔ a ∈ s ∧ (s.filter (key · < key a)).card < n := by
  have hnodup : l.Nodup := h.imp fun {a b} hlt (heq : a = b) => hlt.ne (congrArg key heq)
  have hcard : (s.filter (key · < key a)).card = (l.filter (key · < key a)).length := by
    rw [← List.toFinset_card_of_nodup (hnodup.filter _)]
    congr 1
    ext b
    simp [hs]
  rw [hcard, ← hs]
  exact mem_take_iff_length h

theorem rel_of_key_lt {R : α → α → Prop} {b : α} (h : l.Pairwise (keyLe key)) (hR : l.Pairwise R)
    (ha : a ∈ l) (hb : b ∈ l) (hlt : key a < key b) : R a b := by
  obtain ⟨s, t, rfl⟩ := List.append_of_mem ha
  rcases List.mem_append.mp hb with hb | hb
  · have hle : key b ≤ key a := (List.pairwise_append.mp h).2.2 b hb a List.mem_cons_self
    exact absurd hlt (not_lt.mpr hle)
  rcases List.mem_cons.mp hb with rfl | hb
  · exact absurd hlt (lt_irrefl _)
  · exact List.rel_of_pairwise_cons (List.pairwise_append.mp hR).2.1 hb

theorem take_sortBy_eq_iff {κ' : Type*} [LinearOrder κ'] {key' : α → κ'} (hnodup : l.Nodup)
    (hinj : ∀ a ∈ l, ∀ b ∈ l, key a = key b → a = b)
    (hinj' : ∀ a ∈ l, ∀ b ∈ l, key' a = key' b → a = b) :
    (sortBy key' l).take n = (sortBy key l).take n ↔
      ∀ a ∈ (sortBy key l).take n, ∀ b ∈ l, key a < key b → key' a < key' b := by
  have hmem {a} (ha : a ∈ sortBy key l) : a ∈ l := mem_sortBy.mp ha
  have hsorted : (sortBy key l).Pairwise fun a b => a ∈ l ∧ b ∈ l ∧ key a < key b := by
    have hne : (sortBy key l).Pairwise (· ≠ ·) := sortBy_perm.nodup_iff.mpr hnodup
    refine (sorted_sortBy.and hne).imp_of_mem fun {a b} ha hb h => ⟨hmem ha, hmem hb, ?_⟩
    exact lt_of_le_of_ne h.1 fun hkey => h.2 (hinj a (hmem ha) b (hmem hb) hkey)
  constructor
  · intro heq a ha b hb hlt
    have hal := hmem (List.mem_of_mem_take ha)
    refine lt_of_le_of_ne ?_ fun hkey => hlt.ne (congrArg key (hinj' a hal b hb hkey))
    by_cases hin : b ∈ (sortBy key l).take n
    · have hsorted' : ((sortBy key l).take n).Pairwise (keyLe key') :=
        heq ▸ sorted_sortBy.take
      have hrel : keyLe key' a b := rel_of_key_lt sorted_sortBy.take hsorted' ha hin hlt
      exact hrel
    · exact key_le_of_prefix sorted_sortBy (heq ▸ List.take_prefix n _) (mem_sortBy.mpr hb) hin ha
  · intro h
    set first := (sortBy key l).take n with hfirst
    set rest := (sortBy key l).drop n with hrest
    have hsplit : first ++ rest = sortBy key l := List.take_append_drop n _
    obtain ⟨hhead, -, hcross⟩ := List.pairwise_append.mp (hsplit ▸ hsorted)
    have hwhole : (first ++ sortBy key' rest).Pairwise (keyLe key') := by
      refine List.pairwise_append.mpr ⟨?_, sorted_sortBy, fun a ha b hb => ?_⟩
      · exact hhead.imp_of_mem fun {a b} ha _ hab => (h a ha b hab.2.1 hab.2.2).le
      · have hab := hcross a ha b (mem_sortBy.mp hb)
        exact (h a ha b hab.2.1 hab.2.2).le
    have hperm : l.Perm (first ++ sortBy key' rest) := by
      have hl : (first ++ rest).Perm l := hsplit ▸ sortBy_perm
      exact hl.symm.trans ((List.Perm.refl _).append sortBy_perm.symm)
    rw [sortBy_eq_of_perm hperm hinj', sortBy_eq_self hwhole]
    rcases Nat.le_total n (sortBy key l).length with hle | hle
    · rw [List.take_append_of_le_length (by rw [hfirst, List.length_take_of_le hle]),
        hfirst, List.take_take, Nat.min_self]
    · have hnil : rest = [] := List.drop_eq_nil_of_le hle
      rw [hnil, List.take_of_length_le]
      · exact List.append_nil _
      · have hempty : sortBy key' ([] : List α) = [] := rfl
        rw [hempty, List.append_nil, hfirst]
        exact List.length_take_le _ _

end StableSort
