import Mathlib

/-! Reachability over a finite list of edges: the set closed under them, found by passes until one
adds nothing, and the levels of a breadth-first search. Both are described by `Walk`. -/

namespace Reach

variable {α ε : Type*} [DecidableEq α] (src dst : ε → α)

/-- Nodes reached from the seeds over exactly `n` edges. -/
inductive Walk (es : List ε) (seeds : Finset α) : Nat → α → Prop where
  | seed {a : α} : a ∈ seeds → Walk es seeds 0 a
  | step {n : Nat} {e : ε} : Walk es seeds n (src e) → e ∈ es → Walk es seeds (n + 1) (dst e)

/-- Nodes reached from the seeds. -/
def Reaches (es : List ε) (seeds : Finset α) (a : α) : Prop := ∃ n, Walk src dst es seeds n a

/-- `n` is the distance of a node from the seeds. -/
structure Depth (es : List ε) (seeds : Finset α) (a : α) (n : Nat) : Prop where
  walk : Walk src dst es seeds n a
  least : ∀ m < n, ¬ Walk src dst es seeds m a

/-- One pass over the edges; each may use what those before it added. -/
def pass (es : List ε) (s : Finset α) : Finset α :=
  es.foldl (fun s e => if src e ∈ s then insert (dst e) s else s) s

/-- Passes until one adds nothing, or `fuel` of them. -/
def passes (es : List ε) : Nat → Finset α → Finset α
  | 0, s => s
  | fuel + 1, s =>
    let s' := pass src dst es s
    if s'.card = s.card then s' else passes es fuel s'

/-- The seeds and all that is reached from them. -/
def closure (es : List ε) (s : Finset α) : Finset α := passes src dst es (es.length + 1) s

/-- The nodes one edge past the frontier that have no level yet. -/
def nextLevel (es : List ε) (ranked frontier : Finset α) : Finset α :=
  ((es.filter (src · ∈ frontier)).map dst).toFinset \ ranked

/-- The levels of a breadth-first search, until one is empty. -/
def levels (es : List ε) : Nat → Finset α → Finset α → List (Finset α)
  | 0, _, _ => []
  | fuel + 1, ranked, frontier =>
    if frontier = ∅ then []
    else frontier :: levels es fuel (ranked ∪ frontier)
      (nextLevel src dst es (ranked ∪ frontier) frontier)

/-- The levels of a search that starts from the seeds not ranked before. -/
def search (es : List ε) (ranked seeds : Finset α) : List (Finset α) :=
  levels src dst es (es.length + 1) ranked (seeds \ ranked)

def levelOf (ls : List (Finset α)) (a : α) : Option Nat := ls.findIdx? (a ∈ ·)

section

variable {src dst} {es es' : List ε} {s t seeds seeds' : Finset α} {a b : α} {n m : Nat}

omit [DecidableEq α] in
theorem Walk.mono (h : Walk src dst es seeds n a) (hes : es ⊆ es') (hseeds : seeds ⊆ seeds') :
    Walk src dst es' seeds' n a := by
  induction h with
  | seed h => exact .seed (hseeds h)
  | step _ he ih => exact .step ih (hes he)

omit [DecidableEq α] in
theorem Reaches.mono (h : Reaches src dst es seeds a) (hes : es ⊆ es') (hseeds : seeds ⊆ seeds') :
    Reaches src dst es' seeds' a := by
  obtain ⟨n, hn⟩ := h
  exact ⟨n, hn.mono hes hseeds⟩

omit [DecidableEq α] in
theorem reaches_seed (h : a ∈ seeds) : Reaches src dst es seeds a := ⟨0, .seed h⟩

omit [DecidableEq α] in
theorem Reaches.step {e : ε} (h : Reaches src dst es seeds (src e)) (he : e ∈ es) :
    Reaches src dst es seeds (dst e) := by
  obtain ⟨n, hn⟩ := h
  exact ⟨n + 1, .step hn he⟩

omit [DecidableEq α] in
theorem Reaches.induct {p : α → Prop} (h : Reaches src dst es seeds a) (hseed : ∀ a ∈ seeds, p a)
    (hstep : ∀ e ∈ es, Reaches src dst es seeds (src e) → p (src e) → p (dst e)) : p a := by
  obtain ⟨n, hn⟩ := h
  induction hn with
  | seed h => exact hseed _ h
  | step hwalk he ih => exact hstep _ he ⟨_, hwalk⟩ ih

omit [DecidableEq α] in
theorem Reaches.exists_seed (h : Reaches src dst es seeds a) :
    ∃ b ∈ seeds, Reaches src dst es {b} a :=
  h.induct (p := fun a => ∃ b ∈ seeds, Reaches src dst es {b} a)
    (fun b hb => ⟨b, hb, reaches_seed (Finset.mem_singleton_self b)⟩)
    fun _ he _ ⟨b, hb, hreach⟩ => ⟨b, hb, hreach.step he⟩

omit [DecidableEq α] in
theorem Reaches.mem_of_no_edge (h : Reaches src dst es seeds a) (hedge : ∀ e ∈ es, dst e ≠ a) :
    a ∈ seeds := by
  obtain ⟨n, hn⟩ := h
  cases hn with
  | seed hseed => exact hseed
  | step _ he => exact absurd rfl (hedge _ he)

omit [DecidableEq α] in
theorem Reaches.transfer {p : α → Prop} (h : Reaches src dst es seeds a) (hseed : ∀ a ∈ seeds, p a)
    (hstep : ∀ e ∈ es, p (src e) → e ∈ es' ∧ p (dst e)) : Reaches src dst es' seeds a ∧ p a :=
  h.induct (p := fun a => Reaches src dst es' seeds a ∧ p a)
    (fun _ ha => ⟨reaches_seed ha, hseed _ ha⟩)
    fun _ he _ ⟨hreach, hp⟩ => ⟨hreach.step (hstep _ he hp).1, (hstep _ he hp).2⟩

omit [DecidableEq α] in
theorem Depth.unique (h : Depth src dst es seeds a n) (h' : Depth src dst es seeds a m) :
    n = m := by
  rcases lt_trichotomy n m with hlt | heq | hlt
  · exact absurd h.walk (h'.least n hlt)
  · exact heq
  · exact absurd h'.walk (h.least m hlt)

omit [DecidableEq α] in
theorem depth_iff : Depth src dst es seeds a n ↔
    Walk src dst es seeds n a ∧ ∀ m < n, ¬ Walk src dst es seeds m a :=
  ⟨fun h => ⟨h.walk, h.least⟩, fun h => ⟨h.1, h.2⟩⟩

omit [DecidableEq α] in
theorem exists_depth (h : Reaches src dst es seeds a) : ∃ n, Depth src dst es seeds a n := by
  classical
  exact ⟨Nat.find h, Nat.find_spec h, fun m hm => Nat.find_min h hm⟩

omit [DecidableEq α] in
theorem Depth.pred (h : Depth src dst es seeds a (n + 1)) :
    ∃ e ∈ es, dst e = a ∧ Depth src dst es seeds (src e) n := by
  obtain ⟨hwalk, hleast⟩ := h
  cases hwalk with
  | step hwalk he =>
    exact ⟨_, he, rfl, hwalk, fun m hm hwalk' => hleast (m + 1) (by omega) (.step hwalk' he)⟩

/-- A shortest walk is no longer than the list of edges. -/
theorem Depth.le_length (h : Depth src dst es seeds a n) : n ≤ es.length := by
  have hnodes : ∀ n a, Depth src dst es seeds a n → ∃ s : Finset α,
      s ⊆ (es.map dst).toFinset ∧ s.card = n ∧ ∀ b ∈ s, ∃ m ≤ n, Depth src dst es seeds b m := by
    intro n
    induction n with
    | zero => exact fun a _ => ⟨∅, by simp⟩
    | succ n ih =>
      intro a h
      obtain ⟨e, he, rfl, hpred⟩ := h.pred
      obtain ⟨s, hsub, hcard, hdepth⟩ := ih _ hpred
      have hnew : dst e ∉ s := fun hmem => by
        obtain ⟨m, hm, hdepth⟩ := hdepth _ hmem
        have := hdepth.unique h
        omega
      refine ⟨insert (dst e) s, Finset.insert_subset ?_ hsub,
        by rw [Finset.card_insert_of_notMem hnew, hcard], fun b hb => ?_⟩
      · exact List.mem_toFinset.2 (List.mem_map_of_mem he)
      · rcases Finset.mem_insert.1 hb with rfl | hb
        · exact ⟨n + 1, le_rfl, h⟩
        · obtain ⟨m, hm, hdepth⟩ := hdepth b hb
          exact ⟨m, by omega, hdepth⟩
  obtain ⟨s, hsub, rfl, -⟩ := hnodes n a h
  calc s.card ≤ (es.map dst).toFinset.card := Finset.card_le_card hsub
    _ ≤ (es.map dst).length := List.toFinset_card_le _
    _ = es.length := List.length_map ..

omit [DecidableEq α] in
theorem Walk.transfer (h : Walk src dst es seeds n a)
    (hstep : ∀ e ∈ es, Reaches src dst es seeds (src e) → e ∈ es') :
    Walk src dst es' seeds n a := by
  induction h with
  | seed h => exact .seed h
  | @step n e hwalk he ih => exact .step ih (hstep e he ⟨n, hwalk⟩)

omit [DecidableEq α] in
theorem Walk.old_or_through {x : α} (h : Walk src dst es' seeds n a)
    (hold : ∀ e ∈ es', Reaches src dst es seeds (src e) → src e ≠ x → e ∈ es) :
    Walk src dst es seeds n a ∨ ∃ m ≤ n, Walk src dst es seeds m x ∧ (m < n ∨ a = x) := by
  classical
  induction h with
  | seed h => exact .inl (.seed h)
  | @step n e _ he ih =>
    rcases ih with hwalk | ⟨m, hm, hwalk, -⟩
    · by_cases hx : src e = x
      · exact .inr ⟨n, by omega, hx ▸ hwalk, .inl (by omega)⟩
      · exact .inl (.step hwalk (hold e he ⟨n, hwalk⟩ hx))
    · exact .inr ⟨m, by omega, hwalk, .inl (by omega)⟩

omit [DecidableEq α] in
theorem Depth.old {x : α} (h : Depth src dst es' seeds a n)
    (hold : ∀ e ∈ es', Reaches src dst es seeds (src e) → src e ≠ x → e ∈ es)
    (hnear : ∀ m, Walk src dst es seeds m x → n ≤ m ∧ (m = n → a ≠ x)) :
    Walk src dst es seeds n a := by
  rcases h.walk.old_or_through hold with hwalk | ⟨m, hm, hwalk, hlt | rfl⟩
  · exact hwalk
  · exact absurd (hnear m hwalk).1 (by omega)
  · exact absurd rfl ((hnear m hwalk).2 (le_antisymm hm (hnear m hwalk).1))

theorem subset_pass : s ⊆ pass src dst es s := by
  induction es generalizing s with
  | nil => exact Finset.Subset.refl _
  | cons e es ih =>
    rw [pass, List.foldl_cons]
    split_ifs
    · exact (Finset.subset_insert _ _).trans ih
    · exact ih

theorem dst_mem_pass {e : ε} (he : e ∈ es) (h : src e ∈ s) : dst e ∈ pass src dst es s := by
  induction es generalizing s with
  | nil => cases he
  | cons e' es ih =>
    rw [pass, List.foldl_cons]
    rcases List.mem_cons.1 he with rfl | he
    · rw [if_pos h]
      exact subset_pass (Finset.mem_insert_self _ _)
    · refine ih he ?_
      split_ifs
      · exact Finset.mem_insert_of_mem h
      · exact h

theorem pass_subset : pass src dst es s ⊆ s ∪ (es.map dst).toFinset := by
  have hpass : ∀ part ⊆ es, ∀ t ⊆ s ∪ (es.map dst).toFinset,
      pass src dst part t ⊆ s ∪ (es.map dst).toFinset := by
    intro part
    induction part with
    | nil => exact fun _ t ht => ht
    | cons e part ih =>
      intro hpart t ht
      rw [pass, List.foldl_cons]
      refine ih (List.subset_of_cons_subset hpart) _ ?_
      split_ifs
      · refine Finset.insert_subset (Finset.mem_union_right _ ?_) ht
        exact List.mem_toFinset.2 (List.mem_map_of_mem (hpart List.mem_cons_self))
      · exact ht
  exact hpass es (List.Subset.refl _) s Finset.subset_union_left

theorem reaches_of_mem_pass (hs : ∀ a ∈ s, Reaches src dst es seeds a)
    (h : a ∈ pass src dst es s) : Reaches src dst es seeds a := by
  have hpass : ∀ part ⊆ es, ∀ s : Finset α, (∀ a ∈ s, Reaches src dst es seeds a) →
      ∀ a ∈ pass src dst part s, Reaches src dst es seeds a := by
    intro part
    induction part with
    | nil => exact fun _ s hs => hs
    | cons e part ih =>
      intro hpart s hs
      rw [pass, List.foldl_cons]
      refine ih (List.subset_of_cons_subset hpart) _ ?_
      split_ifs with hsrc
      · intro b hb
        rcases Finset.mem_insert.1 hb with rfl | hb
        · exact (hs _ hsrc).step (hpart List.mem_cons_self)
        · exact hs b hb
      · exact hs
  exact hpass es (List.Subset.refl _) s hs a h

theorem reaches_of_mem_passes {fuel : Nat} (hs : ∀ a ∈ s, Reaches src dst es seeds a)
    (h : a ∈ passes src dst es fuel s) : Reaches src dst es seeds a := by
  induction fuel generalizing s with
  | zero => exact hs a h
  | succ fuel ih =>
    rw [passes] at h
    have hpass : ∀ b ∈ pass src dst es s, Reaches src dst es seeds b :=
      fun b hb => reaches_of_mem_pass hs hb
    split_ifs at h
    · exact hpass a h
    · exact ih hpass h

theorem subset_passes {fuel : Nat} : s ⊆ passes src dst es fuel s := by
  induction fuel generalizing s with
  | zero => exact Finset.Subset.refl _
  | succ fuel ih =>
    rw [passes]
    split_ifs
    · exact subset_pass
    · exact subset_pass.trans ih

/-- Enough passes close the set under every edge. -/
theorem passes_closed {fuel : Nat} (hfuel : (s ∪ (es.map dst).toFinset).card < s.card + fuel)
    {e : ε} (he : e ∈ es) (h : src e ∈ passes src dst es fuel s) :
    dst e ∈ passes src dst es fuel s := by
  induction fuel generalizing s with
  | zero =>
    have hle : s.card ≤ (s ∪ (es.map dst).toFinset).card :=
      Finset.card_le_card Finset.subset_union_left
    omega
  | succ fuel ih =>
    rw [passes] at h ⊢
    split_ifs at h ⊢ with hcard
    · have hsame : s = pass src dst es s := Finset.eq_of_subset_of_card_le subset_pass hcard.le
      rw [← hsame] at h
      exact dst_mem_pass he h
    · refine ih ?_ h
      have hlt : s.card < (pass src dst es s).card :=
        lt_of_le_of_ne (Finset.card_le_card subset_pass) (Ne.symm hcard)
      have hunion : pass src dst es s ∪ (es.map dst).toFinset = s ∪ (es.map dst).toFinset := by
        apply Finset.Subset.antisymm
        · exact Finset.union_subset pass_subset Finset.subset_union_right
        · exact Finset.union_subset_union_left subset_pass
      rw [hunion]
      omega

theorem mem_passes {fuel : Nat} (hfuel : es.length < fuel) :
    a ∈ passes src dst es fuel s ↔ Reaches src dst es s a := by
  constructor
  · exact reaches_of_mem_passes fun a ha => reaches_seed ha
  · intro h
    refine h.induct (fun a ha => subset_passes ha) fun e he _ hsrc => passes_closed ?_ he hsrc
    have hcard : (s ∪ (es.map dst).toFinset).card ≤ s.card + es.length :=
      calc (s ∪ (es.map dst).toFinset).card ≤ s.card + (es.map dst).toFinset.card :=
            Finset.card_union_le _ _
        _ ≤ s.card + (es.map dst).length := Nat.add_le_add_left (List.toFinset_card_le _) _
        _ = s.card + es.length := by rw [List.length_map]
    omega

theorem mem_closure : a ∈ closure src dst es s ↔ Reaches src dst es s a :=
  mem_passes (Nat.lt_succ_self _)

theorem mem_nextLevel : a ∈ nextLevel src dst es s t ↔
    (∃ e ∈ es, src e ∈ t ∧ dst e = a) ∧ a ∉ s := by
  simp [nextLevel, and_assoc]

theorem mem_levels {ranked₀ ranked frontier : Finset α} {fuel k : Nat}
    (hclosed : ∀ e ∈ es, src e ∈ ranked₀ → dst e ∈ ranked₀)
    (hranked : ∀ a, a ∈ ranked ↔ a ∈ ranked₀ ∨ ∃ m < k, Walk src dst es seeds m a)
    (hfrontier : ∀ a, a ∈ frontier ↔ a ∉ ranked₀ ∧ Depth src dst es seeds a k) (hn : n < fuel) :
    (∃ level, (levels src dst es fuel ranked frontier)[n]? = some level ∧ a ∈ level) ↔
      a ∉ ranked₀ ∧ Depth src dst es seeds a (k + n) := by
  induction fuel generalizing ranked frontier k n with
  | zero => omega
  | succ fuel ih =>
    rw [levels]
    split_ifs with hempty
    · -- Nothing is farther than an empty level.
      simp only [List.getElem?_nil, reduceCtorEq, false_and, exists_false, false_iff, not_and]
      intro ha hdepth
      have hfar : ∀ m a, a ∉ ranked₀ → ¬ Depth src dst es seeds a (k + m) := by
        intro m
        induction m with
        | zero =>
          intro a ha hdepth
          have := (hfrontier a).2 ⟨ha, hdepth⟩
          simp [hempty] at this
        | succ m ih =>
          intro a ha hdepth
          obtain ⟨e, he, rfl, hpred⟩ := hdepth.pred
          exact ih (src e) (fun hsrc => ha (hclosed e he hsrc)) hpred
      exact hfar n a ha hdepth
    · cases n with
      | zero => simp [hfrontier]
      | succ n =>
        rw [List.getElem?_cons_succ, show k + (n + 1) = k + 1 + n by omega]
        refine ih ?_ ?_ (by omega)
        · intro a
          rw [Finset.mem_union, hranked, hfrontier]
          constructor
          · rintro ((ha | ⟨m, hm, hwalk⟩) | ⟨ha, hdepth⟩)
            · exact .inl ha
            · exact .inr ⟨m, by omega, hwalk⟩
            · exact .inr ⟨k, by omega, hdepth.walk⟩
          · rintro (ha | ⟨m, hm, hwalk⟩)
            · exact .inl (.inl ha)
            · by_cases ha : a ∈ ranked₀
              · exact .inl (.inl ha)
              · by_cases hnear : ∃ m < k, Walk src dst es seeds m a
                · exact .inl (.inr hnear)
                · push Not at hnear
                  have hmk : m = k := by
                    by_contra hne
                    exact hnear m (by omega) hwalk
                  exact .inr ⟨ha, hmk ▸ hwalk, hnear⟩
        · intro a
          rw [mem_nextLevel, Finset.mem_union, hranked, not_or, not_or]
          constructor
          · rintro ⟨⟨e, he, hsrc, rfl⟩, ⟨ha, hnear⟩, hnot⟩
            push Not at hnear
            obtain ⟨-, hdepth⟩ := (hfrontier _).1 hsrc
            refine ⟨ha, .step hdepth.walk he, fun m hm hwalk => ?_⟩
            rcases Nat.lt_succ_iff_lt_or_eq.1 hm with hlt | rfl
            · exact hnear m hlt hwalk
            · exact hnot ((hfrontier _).2 ⟨ha, hwalk, hnear⟩)
          · rintro ⟨ha, hdepth⟩
            obtain ⟨e, he, rfl, hpred⟩ := hdepth.pred
            refine ⟨⟨e, he, (hfrontier _).2 ⟨fun hsrc => ha (hclosed e he hsrc), hpred⟩, rfl⟩,
              ⟨ha, ?_⟩, ?_⟩
            · rintro ⟨m, hm, hwalk⟩
              exact hdepth.least m (by omega) hwalk
            · intro hmem
              exact hdepth.least k (by omega) ((hfrontier _).1 hmem).2.walk

/-- The search finds an element at the length of its shortest walk, and only reached ones. -/
theorem levelOf_search {ranked : Finset α} (hclosed : ∀ e ∈ es, src e ∈ ranked → dst e ∈ ranked) :
    levelOf (search src dst es ranked seeds) a = some n ↔
      a ∉ ranked ∧ Depth src dst es seeds a n := by
  have hspec : ∀ n, (∃ level, (search src dst es ranked seeds)[n]? = some level ∧ a ∈ level) ↔
      a ∉ ranked ∧ Depth src dst es seeds a n := by
    intro n
    by_cases hn : n < es.length + 1
    · refine (mem_levels (k := 0) hclosed (by simp) (fun a => ?_) hn).trans (by rw [Nat.zero_add])
      rw [Finset.mem_sdiff, and_comm]
      refine and_congr_right fun _ => ⟨fun h => ⟨.seed h, by simp⟩, fun h => ?_⟩
      cases h.walk with
      | seed h => exact h
    · constructor
      · rintro ⟨level, hlevel, -⟩
        have hlength : ∀ fuel ranked frontier,
            (levels src dst es fuel ranked frontier).length ≤ fuel := by
          intro fuel
          induction fuel with
          | zero => simp [levels]
          | succ fuel ih =>
            intro ranked frontier
            rw [levels]
            split_ifs
            · simp
            · simpa using ih _ _
        have hlt := (List.getElem?_eq_some_iff.1 hlevel).1
        exact absurd (hlt.trans_le (hlength _ _ _)) hn
      · rintro ⟨-, hdepth⟩
        exact absurd (Nat.lt_succ_of_le hdepth.le_length) hn
  rw [← hspec, levelOf, List.findIdx?_eq_some_iff_getElem]
  constructor
  · rintro ⟨hlt, hmem, -⟩
    exact ⟨_, List.getElem?_eq_getElem hlt, by simpa using hmem⟩
  · rintro ⟨level, hlevel, hmem⟩
    obtain ⟨hlt, rfl⟩ := List.getElem?_eq_some_iff.1 hlevel
    refine ⟨hlt, by simpa using hmem, fun m hm => ?_⟩
    have hdepth := ((hspec n).1 ⟨_, hlevel, hmem⟩).2
    intro hmem'
    have hmem' := of_decide_eq_true hmem'
    have hdepth' := ((hspec m).1 ⟨_, List.getElem?_eq_getElem (by omega), hmem'⟩).2
    have := hdepth.unique hdepth'
    omega

end

end Reach
