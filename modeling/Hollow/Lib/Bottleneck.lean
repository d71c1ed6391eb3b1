import Hollow.Lib.StableSort

/-! Bottleneck distances over a finite graph: for each node the least, over the walks that reach it
from a seeded node, of the greatest weight on the walk, its seed included. A search with a heap that
keeps stale entries finds them; they are the greatest solution of the equation each node has in
terms of the nodes with an edge to it. -/

namespace Bottleneck

open StableSort

variable {α τ : Type} [LinearOrder τ]

/-- A node is reached with a greatest weight. -/
inductive Walk (seed : α → WithTop τ) (out : α → List (τ × α)) : α → τ → Prop where
  | seed {a : α} {t : τ} : seed a = t → Walk seed out a t
  | step {a b : α} {t w : τ} : Walk seed out a t → (w, b) ∈ out a → Walk seed out b (max w t)

/-- The least weight each node is reached with, `⊤` for a node that no walk reaches. -/
structure Distances (seed : α → WithTop τ) (out : α → List (τ × α)) (pos : α → WithTop τ) :
    Prop where
  walk : ∀ a (t : τ), pos a = t → Walk seed out a t
  le : ∀ a (t : τ), Walk seed out a t → pos a ≤ t

namespace Distances

variable {seed : α → WithTop τ} {out out' : α → List (τ × α)} {pos pos' : α → WithTop τ} {a b : α}

section Least

variable (h : Distances seed out pos)
include h

theorem le_seed (a : α) : pos a ≤ seed a := by
  cases hs : seed a with
  | top => exact le_top
  | coe t => exact h.le a t (.seed hs)

theorem le_edge {w : τ} (he : (w, b) ∈ out a) : pos b ≤ max ↑w (pos a) := by
  cases hp : pos a with
  | top => simp
  | coe t =>
    rw [← WithTop.coe_max]
    exact h.le b _ (.step (h.walk a t hp) he)

theorem eq_seed_or_edge (hb : pos b ≠ ⊤) :
    pos b = seed b ∨ ∃ a w, (w, b) ∈ out a ∧ pos b = max ↑w (pos a) := by
  obtain ⟨t, ht⟩ := WithTop.ne_top_iff_exists.1 hb
  cases h.walk b t ht.symm with
  | seed hs => exact .inl (ht.symm.trans hs.symm)
  | @step a _ u w hwalk he =>
    refine .inr ⟨a, w, he, le_antisymm (h.le_edge he) ?_⟩
    rw [← ht, WithTop.coe_max]
    exact max_le_max le_rfl (h.le a u hwalk)

theorem greatest {p : α → WithTop τ} (hseed : ∀ a, p a ≤ seed a)
    (hedge : ∀ a w b, (w, b) ∈ out a → p b ≤ max ↑w (p a)) (a : α) : p a ≤ pos a := by
  have hwalk : ∀ a (t : τ), Walk seed out a t → p a ≤ t := by
    intro a t hwalk
    induction hwalk with
    | seed ht => exact (hseed _).trans ht.le
    | step _ he ih =>
      rw [WithTop.coe_max]
      exact (hedge _ _ _ he).trans (max_le_max le_rfl ih)
  cases hp : pos a with
  | top => exact le_top
  | coe t => exact hwalk a t (h.walk a t hp)

theorem mono (h' : Distances seed out' pos')
    (hedge : ∀ a w b, (w, b) ∈ out a → ∃ w' ≤ w, (w', b) ∈ out' a) (a : α) : pos' a ≤ pos a := by
  refine h.greatest h'.le_seed (fun a w b he => ?_) a
  obtain ⟨w', hw, he'⟩ := hedge a w b he
  exact (h'.le_edge he').trans (max_le_max (WithTop.coe_le_coe.2 hw) le_rfl)

end Least

end Distances

variable [LinearOrder α]

structure Search (α τ : Type) where
  pos : α → WithTop τ
  settled : Finset α
  /-- Nodes by the position they were pushed with, the least first. -/
  heap : List (Lex (WithTop τ × α))

def Search.push (s : Search α τ) (p : WithTop τ) (a : α) : Search α τ :=
  { s with pos := Function.update s.pos a p, heap := insertBy id (toLex (p, a)) s.heap }

def relax (t : τ) (s : Search α τ) (e : τ × α) : Search α τ :=
  let candidate : WithTop τ := ↑(max e.1 t)
  if candidate < s.pos e.2 then s.push candidate e.2 else s

/-- Nodes settle in the order of their positions; an entry of a settled or since moved node is
skipped. -/
def search (out : α → List (τ × α)) : Nat → Search α τ → Search α τ
  | 0, s => s
  | fuel + 1, s =>
    match s.heap with
    | [] => s
    | entry :: heap =>
      let (p, a) := ofLex entry
      let popped := { s with heap, settled := insert a s.settled }
      if a ∈ s.settled ∨ s.pos a ≠ p then search out fuel popped
      else
        match p with
        | none => popped
        | some t => search out fuel ((out a).foldl (relax t) popped)

/-- Every node at its seed, the seeded ones in the heap. -/
def start (seed : α → WithTop τ) (nodes : List α) : Search α τ where
  pos := seed
  settled := ∅
  heap := sortBy id ((nodes.filter (seed · ≠ ⊤)).map fun a => toLex (seed a, a))

variable {seed : α → WithTop τ} {out : α → List (τ × α)} {s : Search α τ} {a b : α} {t : τ}

/-- What holds while a node's edges are relaxed. -/
structure Core (seed : α → WithTop τ) (out : α → List (τ × α)) (s : Search α τ) : Prop where
  sound : ∀ a (t : τ), s.pos a = t → Walk seed out a t
  seeds : ∀ a, s.pos a ≤ seed a
  sorted : s.heap.Pairwise (keyLe id)
  heap : ∀ e ∈ s.heap, s.pos (ofLex e).2 ≤ (ofLex e).1
  finite : ∀ e ∈ s.heap, (ofLex e).1 ≠ ⊤
  waiting : ∀ a, a ∉ s.settled → s.pos a ≠ ⊤ → toLex (s.pos a, a) ∈ s.heap
  below : ∀ a ∈ s.settled, ∀ e ∈ s.heap, s.pos a ≤ (ofLex e).1

/-- The edges of settled nodes are relaxed. -/
structure Inv (seed : α → WithTop τ) (out : α → List (τ × α)) (s : Search α τ) : Prop
    extends Core seed out s where
  relaxed : ∀ a ∈ s.settled, ∀ e ∈ out a, s.pos e.2 ≤ max ↑e.1 (s.pos a)

/-- What one or more relaxations from a node at `t` change. -/
structure Relaxes (t : τ) (es : List (τ × α)) (s s' : Search α τ) : Prop where
  settled : s'.settled = s.settled
  le : ∀ b, s'.pos b ≤ s.pos b
  fixed : ∀ b, s.pos b ≤ t → s'.pos b = s.pos b
  edges : ∀ e ∈ es, s'.pos e.2 ≤ ↑(max e.1 t)
  length : s'.heap.length ≤ s.heap.length + es.length

theorem Core.relax (h : Core seed out s) (ha : Walk seed out a t)
    (hsettled : ∀ c ∈ s.settled, s.pos c ≤ t) {e : τ × α} (he : e ∈ out a) :
    Core seed out (relax t s e) ∧ Relaxes t [e] s (relax t s e) := by
  unfold Bottleneck.relax
  dsimp only
  split_ifs with hlt
  · have hne : ∀ c : α, s.pos c ≤ t → c ≠ e.2 := by
      rintro c hc rfl
      have hmax : (t : WithTop τ) ≤ ↑(max e.1 t) := WithTop.coe_le_coe.2 (le_max_right _ _)
      exact absurd (hmax.trans_lt hlt) (not_lt.2 hc)
    have hpos : ∀ c, c ≠ e.2 → (s.push ↑(max e.1 t) e.2).pos c = s.pos c := fun c hc =>
      Function.update_of_ne hc _ _
    have hself : (s.push ↑(max e.1 t) e.2).pos e.2 = ↑(max e.1 t) := Function.update_self _ _ _
    have hle : ∀ c, (s.push ↑(max e.1 t) e.2).pos c ≤ s.pos c := by
      intro c
      by_cases hc : c = e.2
      · rw [hc, hself]
        exact hlt.le
      · rw [hpos c hc]
    have hmem : ∀ x, x ∈ (s.push ↑(max e.1 t) e.2).heap ↔
        x = toLex (↑(max e.1 t), e.2) ∨ x ∈ s.heap := fun x => mem_insertBy
    refine ⟨⟨?_, ?_, ?_, ?_, ?_, ?_, ?_⟩, ⟨rfl, hle, fun b hb => hpos b (hne b hb), ?_, ?_⟩⟩
    · intro c u hc
      by_cases hce : c = e.2
      · rw [hce, hself, WithTop.coe_inj] at hc
        rw [hce, ← hc]
        exact .step ha he
      · rw [hpos c hce] at hc
        exact h.sound c u hc
    · exact fun c => (hle c).trans (h.seeds c)
    · exact sorted_insertBy h.sorted
    · intro x hx
      rcases (hmem x).1 hx with rfl | hx
      · exact hself.le
      · exact (hle _).trans (h.heap x hx)
    · intro x hx
      rcases (hmem x).1 hx with rfl | hx
      · exact WithTop.coe_ne_top
      · exact h.finite x hx
    · intro c hc htop
      rw [hmem]
      by_cases hce : c = e.2
      · left
        rw [hce, hself]
      · rw [hpos c hce] at htop ⊢
        exact .inr (h.waiting c hc htop)
    · intro c hc x hx
      rw [hpos c (hne c (hsettled c hc))]
      rcases (hmem x).1 hx with rfl | hx
      · exact (hsettled c hc).trans (WithTop.coe_le_coe.2 (le_max_right _ _))
      · exact h.below c hc x hx
    · intro x hx
      rw [List.mem_singleton.1 hx, hself]
    · exact insertBy_perm.length_eq.le
  · refine ⟨h, rfl, fun _ => le_rfl, fun _ _ => rfl, fun x hx => ?_, by simp⟩
    rw [List.mem_singleton.1 hx]
    exact not_lt.1 hlt

theorem Core.relaxAll (h : Core seed out s) (ha : Walk seed out a t)
    (hsettled : ∀ c ∈ s.settled, s.pos c ≤ t) {es : List (τ × α)} (hes : ∀ e ∈ es, e ∈ out a) :
    Core seed out (es.foldl (Bottleneck.relax t) s) ∧
      Relaxes t es s (es.foldl (Bottleneck.relax t) s) := by
  induction es generalizing s with
  | nil => exact ⟨h, rfl, fun _ => le_rfl, fun _ _ => rfl, by simp, by simp⟩
  | cons e es ih =>
    obtain ⟨he, hes⟩ := List.forall_mem_cons.1 hes
    obtain ⟨hcore, hfirst⟩ := h.relax ha hsettled he
    have hsettled' : ∀ c ∈ (Bottleneck.relax t s e).settled,
        (Bottleneck.relax t s e).pos c ≤ t := by
      intro c hc
      rw [hfirst.settled] at hc
      exact (hfirst.le c).trans (hsettled c hc)
    obtain ⟨hcore', hrest⟩ := ih hcore hsettled' hes
    rw [List.foldl_cons]
    refine ⟨hcore', hrest.settled.trans hfirst.settled, fun b => (hrest.le b).trans (hfirst.le b),
      fun b hb => ?_, ?_, ?_⟩
    · have hb' := hfirst.fixed b hb
      rw [hrest.fixed b (hb'.le.trans hb), hb']
    · refine List.forall_mem_cons.2 ⟨?_, hrest.edges⟩
      exact (hrest.le _).trans (hfirst.edges e (List.mem_singleton_self e))
    · have h1 := hrest.length
      have h2 := hfirst.length
      rw [List.length_singleton] at h2
      rw [List.length_cons]
      omega

/-- The entries and edges still to be gone through. -/
def work (nodes : Finset α) (out : α → List (τ × α)) (s : Search α τ) : Nat :=
  s.heap.length + ∑ a ∈ nodes \ s.settled, (out a).length

variable {entry : Lex (WithTop τ × α)} {heap : List (Lex (WithTop τ × α))}

theorem Inv.drop (h : Inv seed out s) (hheap : s.heap = entry :: heap)
    (ha : (ofLex entry).2 ∈ s.settled) :
    Inv seed out { s with heap, settled := insert (ofLex entry).2 s.settled } := by
  have hmem : ∀ e ∈ heap, e ∈ s.heap := fun e he => hheap ▸ List.mem_cons_of_mem _ he
  have hsettled : insert (ofLex entry).2 s.settled = s.settled := Finset.insert_eq_self.2 ha
  rw [hsettled]
  refine ⟨⟨h.sound, h.seeds, ?_, fun e he => h.heap e (hmem e he),
    fun e he => h.finite e (hmem e he), fun c hc htop => ?_,
    fun c hc e he => h.below c hc e (hmem e he)⟩, h.relaxed⟩
  · have hsorted := h.sorted
    rw [hheap] at hsorted
    exact (List.pairwise_cons.1 hsorted).2
  · have hin := h.waiting c hc htop
    rw [hheap] at hin
    refine (List.mem_cons.1 hin).resolve_left ?_
    rintro rfl
    exact hc ha

theorem Inv.pos_eq (h : Inv seed out s) (hheap : s.heap = entry :: heap)
    (ha : (ofLex entry).2 ∉ s.settled) : s.pos (ofLex entry).2 = (ofLex entry).1 := by
  have hfirst : entry ∈ s.heap := hheap ▸ List.mem_cons_self
  have hle := h.heap entry hfirst
  refine le_antisymm hle ?_
  have hin := h.waiting _ ha (ne_top_of_le_ne_top (h.finite entry hfirst) hle)
  rw [hheap] at hin
  rcases List.mem_cons.1 hin with heq | hin
  · rw [← heq]
    rfl
  · have hsorted := h.sorted
    rw [hheap] at hsorted
    have hlex : entry ≤ toLex (s.pos (ofLex entry).2, (ofLex entry).2) :=
      (List.pairwise_cons.1 hsorted).1 _ hin
    exact Prod.Lex.monotone_fst _ _ hlex

theorem Inv.settle (h : Inv seed out s) (hheap : s.heap = entry :: heap)
    (ha : (ofLex entry).2 ∉ s.settled) (ht : (ofLex entry).1 = ↑t) :
    Inv seed out ((out (ofLex entry).2).foldl (relax t)
        { s with heap, settled := insert (ofLex entry).2 s.settled }) ∧
      Relaxes t (out (ofLex entry).2) { s with heap, settled := insert (ofLex entry).2 s.settled }
        ((out (ofLex entry).2).foldl (relax t)
          { s with heap, settled := insert (ofLex entry).2 s.settled }) := by
  have hpos : s.pos (ofLex entry).2 = ↑t := (h.pos_eq hheap ha).trans ht
  have hfirst : entry ∈ s.heap := hheap ▸ List.mem_cons_self
  have hmem : ∀ e ∈ heap, e ∈ s.heap := fun e he => hheap ▸ List.mem_cons_of_mem _ he
  have hsorted := h.sorted
  rw [hheap] at hsorted
  obtain ⟨hleast, hsorted⟩ := List.pairwise_cons.1 hsorted
  have habove : ∀ e ∈ heap, ↑t ≤ (ofLex e).1 := by
    intro e he
    rw [← ht]
    rcases Prod.Lex.le_iff.1 (hleast e he) with hlt | ⟨heq, -⟩
    · exact hlt.le
    · exact heq.le
  have hsettled : ∀ c ∈ insert (ofLex entry).2 s.settled, s.pos c ≤ t := by
    intro c hc
    rcases Finset.mem_insert.1 hc with rfl | hc
    · exact hpos.le
    · exact (h.below c hc entry hfirst).trans ht.le
  have hcore : Core seed out { s with heap, settled := insert (ofLex entry).2 s.settled } := by
    refine ⟨h.sound, h.seeds, hsorted, fun e he => h.heap e (hmem e he),
      fun e he => h.finite e (hmem e he), fun c hc htop => ?_, fun c hc e he => ?_⟩
    · obtain ⟨hne, hc⟩ := not_or.1 (mt Finset.mem_insert.2 hc)
      have hin := h.waiting c hc htop
      rw [hheap] at hin
      refine (List.mem_cons.1 hin).resolve_left ?_
      rintro rfl
      exact hne rfl
    · exact (hsettled c hc).trans (habove e he)
  obtain ⟨hcore', hrelaxes⟩ := hcore.relaxAll (h.sound _ t hpos) hsettled fun e he => he
  refine ⟨⟨hcore', fun c hc e he => ?_⟩, hrelaxes⟩
  rw [hrelaxes.settled] at hc
  rw [hrelaxes.fixed c (hsettled c hc)]
  rcases Finset.mem_insert.1 hc with rfl | hc
  · rw [hpos, ← WithTop.coe_max]
    exact hrelaxes.edges e he
  · exact (hrelaxes.le _).trans (h.relaxed c hc e he)

/-- With fuel for every entry and edge the search empties the heap and keeps the invariant. -/
theorem Inv.search {nodes : Finset α} (hout : ∀ a ∉ nodes, out a = []) {fuel : Nat}
    (h : Inv seed out s) (hfuel : work nodes out s ≤ fuel) :
    Inv seed out (search out fuel s) ∧ (search out fuel s).heap = [] := by
  induction fuel generalizing s with
  | zero =>
    refine ⟨h, List.eq_nil_of_length_eq_zero ?_⟩
    unfold work at hfuel
    rw [Bottleneck.search]
    omega
  | succ fuel ih =>
    rw [Bottleneck.search]
    cases hheap : s.heap with
    | nil => exact ⟨h, hheap⟩
    | cons entry heap =>
      dsimp only
      unfold work at hfuel
      rw [hheap, List.length_cons] at hfuel
      by_cases ha : (ofLex entry).2 ∈ s.settled
      · rw [if_pos (.inl ha)]
        refine ih (h.drop hheap ha) ?_
        unfold work
        rw [Finset.insert_eq_self.2 ha]
        dsimp only
        omega
      · rw [if_neg (by simp [ha, h.pos_eq hheap ha])]
        cases hp : (ofLex entry).1 with
        | top => exact absurd hp (h.finite entry (hheap ▸ List.mem_cons_self))
        | coe t =>
          obtain ⟨hinv, hrelaxes⟩ := h.settle hheap ha hp
          refine ih hinv ?_
          have hlength := hrelaxes.length
          unfold work
          rw [hrelaxes.settled]
          dsimp only at hlength ⊢
          -- The edges of the node leave the sum of what is left.
          have hsum : (∑ b ∈ nodes \ insert (ofLex entry).2 s.settled, (out b).length) +
              (out (ofLex entry).2).length = ∑ b ∈ nodes \ s.settled, (out b).length := by
            by_cases hnode : (ofLex entry).2 ∈ nodes
            · rw [Finset.sdiff_insert]
              exact Finset.sum_erase_add _ _ (Finset.mem_sdiff.2 ⟨hnode, ha⟩)
            · rw [hout _ hnode, List.length_nil, Nat.add_zero, Finset.sdiff_insert,
                Finset.erase_eq_of_notMem fun hin => hnode (Finset.mem_sdiff.1 hin).1]
          omega

theorem inv_start {nodes : List α} (hseed : ∀ a, seed a ≠ ⊤ → a ∈ nodes) :
    Inv seed out (start seed nodes) where
  sound _ _ ht := .seed ht
  seeds _ := le_rfl
  sorted := sorted_sortBy
  heap e he := by
    obtain ⟨a, -, rfl⟩ := List.mem_map.1 (mem_sortBy.1 he)
    exact le_rfl
  finite e he := by
    obtain ⟨a, ha, rfl⟩ := List.mem_map.1 (mem_sortBy.1 he)
    simpa using (List.mem_filter.1 ha).2
  waiting a _ htop := by
    refine mem_sortBy.2 (List.mem_map.2 ⟨a, List.mem_filter.2 ⟨hseed a htop, ?_⟩, rfl⟩)
    exact decide_eq_true htop
  below a ha := by simp [start] at ha
  relaxed a ha := by simp [start] at ha

/-- The search computes the least bottleneck over all walks from the seeds. -/
theorem distances_search {nodes : List α} (hnodup : nodes.Nodup)
    (hseed : ∀ a, seed a ≠ ⊤ → a ∈ nodes) (hout : ∀ a ∉ nodes, out a = []) {fuel : Nat}
    (hfuel : nodes.length + (nodes.map fun a => (out a).length).sum ≤ fuel) :
    Distances seed out (search out fuel (start seed nodes)).pos := by
  have hwork : work nodes.toFinset out (start seed nodes) ≤ fuel := by
    refine le_trans ?_ hfuel
    unfold work start
    dsimp only
    rw [sortBy_perm.length_eq, List.length_map, Finset.sdiff_empty, List.sum_toFinset _ hnodup]
    exact Nat.add_le_add_right (List.length_filter_le _ _) _
  obtain ⟨hinv, hheap⟩ := (inv_start hseed).search
    (fun a ha => hout a (by simpa using ha)) hwork
  refine ⟨hinv.sound, fun a t hwalk => ?_⟩
  induction hwalk with
  | seed ht => exact (hinv.seeds _).trans ht.le
  | @step a b t w _ he ih =>
    -- A node that a walk reaches has left the heap, so its edges are relaxed.
    have hsettled : a ∈ (search out fuel (start seed nodes)).settled := by
      by_contra hnot
      have hin := hinv.waiting a hnot (ne_top_of_le_ne_top WithTop.coe_ne_top ih)
      rw [hheap] at hin
      cases hin
    refine (hinv.relaxed a hsettled (w, b) he).trans ?_
    rw [WithTop.coe_max]
    exact max_le_max le_rfl ih

end Bottleneck
