import Mathlib.Combinatorics.SimpleGraph.Connectivity.Connected
import Mathlib.Data.List.Nodup
import Mathlib.Data.List.TakeWhile
import Mathlib.Data.Set.Card
import Mathlib.Logic.Relation

/-!
# Growing a spanning forest

A graph search records the vertices in the order in which it reaches them,
each with the vertex it was reached from, or `none` where it starts a new
tree. `Grows adj l` says that `l` is such a record: a tree is extended along
an edge of `adj`, and a new one is started only when the vertices recorded so
far are closed under `adj`.

* `Grows.nodup`, `Grows.parent_mem` — vertices are recorded once, parents
  first;
* `Grows.exists_root` — every vertex is reachable from a root;
* `Grows.tree` — a tree holds what is reachable from its root without the vertices
  of the earlier trees, also in a directed graph;
* `Grows.root_unique` — in an undirected graph no root is reachable from
  another one;
* `Grows.card_components` — hence there are as many roots as connected
  components;
* `Grows.root_iff_least` — and they are the least vertices of their components
  when trees are started in increasing order.
-/

universe u v

namespace SpanningForest

variable {α : Type u} {adj : α → α → Prop}

/-- The vertices recorded. -/
def nodes (l : List (α × Option α)) : List α := l.map Prod.fst

/-- Edges do not leave the vertices recorded. -/
def Closed (adj : α → α → Prop) (l : List (α × Option α)) : Prop :=
  ∀ p ∈ nodes l, ∀ c, adj p c → c ∈ nodes l

/-- The records of a search of the graph `adj`. -/
inductive Grows (adj : α → α → Prop) : List (α × Option α) → Prop
  | nil : Grows adj []
  | root {l : List (α × Option α)} {c : α} :
      Grows adj l → Closed adj l → c ∉ nodes l → Grows adj (l ++ [(c, none)])
  | child {l : List (α × Option α)} {c p : α} :
      Grows adj l → p ∈ nodes l → adj p c → c ∉ nodes l → Grows adj (l ++ [(c, some p)])

@[simp] theorem nodes_nil : nodes ([] : List (α × Option α)) = [] := rfl

@[simp] theorem nodes_concat (l : List (α × Option α)) (e : α × Option α) :
    nodes (l ++ [e]) = nodes l ++ [e.1] := by
  simp [nodes]

theorem closed_nil : Closed adj [] := fun _ hp => absurd hp List.not_mem_nil

theorem mem_nodes_of_mem {l : List (α × Option α)} {e : α × Option α} (he : e ∈ l) :
    e.1 ∈ nodes l :=
  List.mem_map_of_mem he

theorem nodup_concat {l : List α} {c : α} (hl : l.Nodup) (hc : c ∉ l) : (l ++ [c]).Nodup := by
  refine List.nodup_append.mpr ⟨hl, List.nodup_singleton c, fun a ha b hb => ?_⟩
  rw [List.mem_singleton.mp hb]
  exact fun h => hc (h ▸ ha)

theorem Grows.nodup {l : List (α × Option α)} (h : Grows adj l) : (nodes l).Nodup := by
  induction h with
  | nil => exact List.nodup_nil
  | root _ _ hc ih => rw [nodes_concat]; exact nodup_concat ih hc
  | child _ _ _ hc ih => rw [nodes_concat]; exact nodup_concat ih hc

/-- An entry of a list that has grown by one is the new one, or it was there before. -/
theorem concat_eq_split {β : Type*} {l pre post : List β} {x y : β}
    (h : l ++ [x] = pre ++ y :: post) : (l = pre ∧ x = y) ∨ ∃ post', l = pre ++ y :: post' := by
  rcases List.eq_nil_or_concat post with rfl | ⟨post', z, rfl⟩
  · obtain ⟨rfl, hlast⟩ := List.append_inj' h rfl
    exact Or.inl ⟨rfl, List.singleton_inj.mp hlast⟩
  · rw [List.concat_eq_append, ← List.cons_append, ← List.append_assoc] at h
    exact Or.inr ⟨post', (List.append_inj' h rfl).1⟩

/-- A parent is recorded before its children, and the edge is in the graph. -/
theorem Grows.parent_mem {l : List (α × Option α)} (h : Grows adj l) :
    ∀ pre c p post, l = pre ++ (c, some p) :: post → p ∈ nodes pre ∧ adj p c := by
  induction h with
  | nil =>
    intro pre c p post hl
    simp at hl
  | @root l c _ _ _ ih =>
    intro pre c' p' post hl
    rcases concat_eq_split hl with ⟨-, hlast⟩ | ⟨post', hl⟩
    · simp at hlast
    · exact ih pre c' p' post' hl
  | @child l c p _ hp hadj _ ih =>
    intro pre c' p' post hl
    rcases concat_eq_split hl with ⟨rfl, hlast⟩ | ⟨post', hl⟩
    · simp only [Prod.mk.injEq, Option.some.injEq] at hlast
      obtain ⟨rfl, rfl⟩ := hlast
      exact ⟨hp, hadj⟩
    · exact ih pre c' p' post' hl

theorem Closed.reach {l : List (α × Option α)} (h : Closed adj l) {a b : α}
    (ha : a ∈ nodes l) (hab : Relation.ReflTransGen adj a b) : b ∈ nodes l := by
  induction hab with
  | refl => exact ha
  | tail _ hbc ih => exact h _ ih _ hbc

/-- Every vertex recorded is reachable from a root. -/
theorem Grows.exists_root {l : List (α × Option α)} (h : Grows adj l) :
    ∀ v ∈ nodes l, ∃ c, (c, none) ∈ l ∧ Relation.ReflTransGen adj c v := by
  induction h with
  | nil => exact fun v hv => absurd hv List.not_mem_nil
  | @root l c _ _ _ ih =>
    intro v hv
    rw [nodes_concat, List.mem_append, List.mem_singleton] at hv
    rcases hv with hv | rfl
    · obtain ⟨r, hr, hrv⟩ := ih v hv
      exact ⟨r, List.mem_append_left _ hr, hrv⟩
    · exact ⟨v, by simp, Relation.ReflTransGen.refl⟩
  | @child l c p _ hp hadj _ ih =>
    intro v hv
    rw [nodes_concat, List.mem_append, List.mem_singleton] at hv
    rcases hv with hv | rfl
    · obtain ⟨r, hr, hrv⟩ := ih v hv
      exact ⟨r, List.mem_append_left _ hr, hrv⟩
    · obtain ⟨r, hr, hrp⟩ := ih p hp
      exact ⟨r, List.mem_append_left _ hr, hrp.tail hadj⟩

/-- A tree is started when the vertices recorded are closed. -/
theorem Grows.root_closed {l : List (α × Option α)} (h : Grows adj l) :
    ∀ pre c post, l = pre ++ (c, none) :: post → Closed adj pre := by
  induction h with
  | nil =>
    intro pre c post hl
    simp at hl
  | @root l c _ hclosed _ ih =>
    intro pre c' post hl
    rcases concat_eq_split hl with ⟨rfl, -⟩ | ⟨post', hl⟩
    · exact hclosed
    · exact ih pre c' post' hl
  | @child l c p _ _ _ _ ih =>
    intro pre c' post hl
    rcases concat_eq_split hl with ⟨-, hlast⟩ | ⟨post', hl⟩
    · simp at hlast
    · exact ih pre c' post' hl

/-- The vertices recorded before a tree do not occur in it. -/
theorem Grows.not_mem_before {l : List (α × Option α)} (h : Grows adj l)
    {pre post : List (α × Option α)} {e : α × Option α} (hl : l = pre ++ e :: post) :
    e.1 ∉ nodes pre := fun hmem => by
  have hnodup := h.nodup
  rw [hl, nodes, List.map_append, List.nodup_append] at hnodup
  exact hnodup.2.2 e.1 hmem e.1 List.mem_cons_self rfl

/-- The records up to the next root. -/
theorem split_at_root (post : List (α × Option α)) :
    ∃ tree rest, post = tree ++ rest ∧ (∀ e ∈ tree, e.2 ≠ none) ∧ ∀ e ∈ rest.head?, e.2 = none := by
  refine ⟨post.takeWhile (·.2.isSome), post.dropWhile (·.2.isSome),
    List.takeWhile_append_dropWhile.symm, fun e he => ?_, fun e he => ?_⟩
  · have hsome := List.mem_takeWhile_imp he
    exact Option.isSome_iff_ne_none.mp hsome
  · have hhead := List.head?_dropWhile_not (fun e : α × Option α => e.2.isSome) post
    rw [Option.mem_def.mp he] at hhead
    exact Option.isNone_iff_eq_none.mp (Option.isSome_eq_false_iff.mp hhead)

/-- **A tree** of the records is the block from its root to the next one. Parents do not leave
it, and it holds the vertices reachable from the root without those recorded before. -/
theorem Grows.tree {l : List (α × Option α)} (h : Grows adj l) (hclosed : Closed adj l)
    {pre post : List (α × Option α)} {c : α} (hl : l = pre ++ (c, none) :: post) :
    ∃ tree rest, post = tree ++ rest ∧ (∀ e ∈ rest.head?, e.2 = none) ∧
      (∀ e ∈ tree, ∃ p ∈ nodes ((c, none) :: tree), e.2 = some p) ∧
      ∀ v, v ∈ nodes ((c, none) :: tree) ↔
        Relation.ReflTransGen (fun a b => adj a b ∧ b ∉ nodes pre) c v := by
  obtain ⟨tree, rest, rfl, htree, hrest⟩ := split_at_root post
  have hbefore : Closed adj pre := h.root_closed pre c _ hl
  -- a parent in an earlier tree would have had its child recorded there
  have hparent : ∀ t e t', tree = t ++ e :: t' → ∃ p ∈ nodes ((c, none) :: t),
      e.2 = some p ∧ adj p e.1 ∧ e.1 ∉ nodes pre := by
    rintro t ⟨v, q⟩ t' rfl
    obtain ⟨p, rfl⟩ := Option.ne_none_iff_exists'.mp (htree (v, q) (by simp))
    have hsplit : l = (pre ++ (c, none) :: t) ++ (v, some p) :: (t' ++ rest) := by simp [hl]
    obtain ⟨hp, hadj⟩ := h.parent_mem _ _ _ _ hsplit
    have hv : v ∉ nodes pre := fun hmem => h.not_mem_before hsplit (by
      rw [nodes, List.map_append]
      exact List.mem_append_left _ hmem)
    rw [nodes, List.map_append, List.mem_append] at hp
    exact ⟨p, hp.resolve_left fun hmem => hv (hbefore p hmem v hadj), rfl, hadj, hv⟩
  have hafter : Closed adj (pre ++ (c, none) :: tree) := by
    cases rest with
    | nil =>
      rw [List.append_nil] at hl
      exact hl ▸ hclosed
    | cons d rest =>
      obtain ⟨d, q⟩ := d
      obtain rfl : q = none := hrest (d, q) rfl
      exact h.root_closed _ d rest (by simp [hl])
  refine ⟨tree, rest, rfl, hrest, fun e he => ?_, fun v => ⟨?_, fun hreach => ?_⟩⟩
  · obtain ⟨t, t', rfl⟩ := List.append_of_mem he
    obtain ⟨p, hp, hpar, -⟩ := hparent t e t' rfl
    refine ⟨p, ?_, hpar⟩
    rw [← List.cons_append, nodes, List.map_append]
    exact List.mem_append_left _ hp
  · suffices hall : ∀ t t', tree = t ++ t' → ∀ v ∈ nodes ((c, none) :: t),
        Relation.ReflTransGen (fun a b => adj a b ∧ b ∉ nodes pre) c v from
      hall tree [] (List.append_nil tree).symm v
    intro t
    induction t using List.reverseRecOn with
    | nil =>
      intro t' _ v hv
      rw [List.mem_singleton.mp hv]
    | append_singleton t e ih =>
      intro t' ht v hv
      rw [List.append_assoc, List.singleton_append] at ht
      rw [← List.cons_append, nodes_concat, List.mem_append, List.mem_singleton] at hv
      rcases hv with hv | rfl
      · exact ih (e :: t') ht v hv
      · obtain ⟨p, hp, -, hadj, hnew⟩ := hparent t e t' ht
        exact (ih (e :: t') ht p hp).tail ⟨hadj, hnew⟩
  · induction hreach with
    | refl => exact List.mem_cons_self
    | @tail a b _ hstep ih =>
      have hb := hafter a (by
        rw [nodes, List.map_append]
        exact List.mem_append_right _ ih) b hstep.1
      rw [nodes, List.map_append, List.mem_append] at hb
      exact hb.resolve_left hstep.2

/-- In an undirected graph paths can be walked back. -/
theorem reach_symm (hsymm : ∀ a b, adj a b → adj b a) {a b : α}
    (hab : Relation.ReflTransGen adj a b) : Relation.ReflTransGen adj b a := by
  have : Std.Symm adj := ⟨hsymm⟩
  exact symm hab

/-- In an undirected graph a root is not reachable from another root. -/
theorem Grows.root_unique {l : List (α × Option α)} (h : Grows adj l)
    (hsymm : ∀ a b, adj a b → adj b a) :
    ∀ a b, (a, none) ∈ l → (b, none) ∈ l → Relation.ReflTransGen adj a b → a = b := by
  induction h with
  | nil => exact fun a b ha => absurd ha List.not_mem_nil
  | @root l c _ hclosed hc ih =>
    intro a b ha hb hab
    rw [List.mem_append, List.mem_singleton, Prod.mk.injEq] at ha hb
    rcases ha with ha | ⟨rfl, -⟩
    · rcases hb with hb | ⟨rfl, -⟩
      · exact ih a b ha hb hab
      · exact absurd (hclosed.reach (mem_nodes_of_mem ha) hab) hc
    · rcases hb with hb | ⟨rfl, -⟩
      · exact absurd (hclosed.reach (mem_nodes_of_mem hb) (reach_symm hsymm hab)) hc
      · rfl
  | @child l c p _ _ _ _ ih =>
    intro a b ha hb hab
    rw [List.mem_append, List.mem_singleton, Prod.mk.injEq] at ha hb
    rcases ha with ha | ⟨-, ha⟩
    · rcases hb with hb | ⟨-, hb⟩
      · exact ih a b ha hb hab
      · cases hb
    · cases ha

/-- In an undirected graph in which one vertex reaches all that are recorded there is a single
root. -/
theorem Grows.one_root {l : List (α × Option α)} (h : Grows adj l)
    (hsymm : ∀ a b, adj a b → adj b a) {a : α} (ha : a ∈ nodes l)
    (hall : ∀ b ∈ nodes l, Relation.ReflTransGen adj a b) :
    l.countP (fun e => e.2.isNone) = 1 := by
  obtain ⟨r, hr, hra⟩ := h.exists_root a ha
  have hnodup : (l.filter fun e => e.2.isNone).Nodup :=
    (List.Nodup.of_map _ h.nodup).sublist List.filter_sublist
  have hperm : (l.filter fun e => e.2.isNone).Perm [(r, none)] := by
    refine (List.perm_ext_iff_of_nodup hnodup (List.nodup_singleton _)).mpr fun e => ?_
    rw [List.mem_filter, List.mem_singleton, Option.isNone_iff_eq_none]
    constructor
    · rintro ⟨he, hnone⟩
      obtain ⟨s, p⟩ := e
      obtain rfl : p = none := hnone
      rw [h.root_unique hsymm r s hr he (hra.trans (hall s (mem_nodes_of_mem he)))]
    · rintro rfl
      exact ⟨hr, rfl⟩
  rw [List.countP_eq_length_filter, hperm.length_eq]
  rfl

/-- Edges between equal vertices, and those of vertices not recorded, do not matter. -/
theorem Grows.mono {adj' : α → α → Prop} {l : List (α × Option α)} (h : Grows adj l)
    (hsub : ∀ a b, adj' a b → adj a b)
    (hkeep : ∀ a ∈ nodes l, ∀ b ∈ nodes l, a ≠ b → adj a b → adj' a b) : Grows adj' l := by
  induction h with
  | nil => exact Grows.nil
  | @root l c _ hclosed hc ih =>
    refine Grows.root (ih fun a ha b hb => hkeep a ?_ b ?_)
      (fun p hp c' hpc => hclosed p hp c' (hsub _ _ hpc)) hc
    · rw [nodes_concat]; exact List.mem_append_left _ ha
    · rw [nodes_concat]; exact List.mem_append_left _ hb
  | @child l c p _ hp hadj hc ih =>
    refine Grows.child (ih fun a ha b hb => hkeep a ?_ b ?_) hp (hkeep p ?_ c ?_ ?_ hadj) hc
    · rw [nodes_concat]; exact List.mem_append_left _ ha
    · rw [nodes_concat]; exact List.mem_append_left _ hb
    · rw [nodes_concat]; exact List.mem_append_left _ hp
    · rw [nodes_concat]; simp
    · exact fun he => hc (he ▸ hp)

/-- When no root is reachable from a smaller vertex, the roots are the least vertices
of their components. -/
theorem Grows.root_iff_least [LinearOrder α] {l : List (α × Option α)} (h : Grows adj l)
    (hsymm : ∀ a b, adj a b → adj b a)
    (hroots : ∀ c, (c, none) ∈ l → ∀ u < c, ¬ Relation.ReflTransGen adj u c) {v : α}
    (hv : v ∈ nodes l) : (v, none) ∈ l ↔ ∀ u, Relation.ReflTransGen adj v u → v ≤ u := by
  constructor
  · intro hroot u hvu
    by_contra hlt
    exact hroots v hroot u (not_le.mp hlt) (reach_symm hsymm hvu)
  · intro hleast
    obtain ⟨c, hc, hcv⟩ := h.exists_root v hv
    rcases (hleast c (reach_symm hsymm hcv)).lt_or_eq with hlt | rfl
    · exact absurd (reach_symm hsymm hcv) (hroots c hc v hlt)
    · exact hc

/-- The number of root entries is the number of roots. -/
theorem card_roots {V : Type v} {f : V → α} (hf : Function.Injective f)
    {l : List (α × Option α)} (hnd : (nodes l).Nodup) (hsub : ∀ a ∈ nodes l, ∃ v, f v = a) :
    Nat.card { v : V // (f v, none) ∈ l } = l.countP fun e => e.2.isNone := by
  classical
  let roots : Finset α := ((l.filter fun e => e.2.isNone).map Prod.fst).toFinset
  have hmem : ∀ a, a ∈ roots ↔ (a, none) ∈ l := by
    intro a
    simp only [roots, List.mem_toFinset, List.mem_map, List.mem_filter]
    constructor
    · rintro ⟨⟨c, p⟩, ⟨hl, hp⟩, rfl⟩
      obtain rfl : p = none := Option.isNone_iff_eq_none.mp hp
      exact hl
    · exact fun ha => ⟨(a, none), ⟨ha, rfl⟩, rfl⟩
  have hcard : roots.card = l.countP fun e => e.2.isNone := by
    rw [List.toFinset_card_of_nodup, List.length_map, List.countP_eq_length_filter]
    exact hnd.sublist (List.filter_sublist.map Prod.fst)
  let g : { v : V // (f v, none) ∈ l } → roots := fun v => ⟨f v.1, (hmem _).mpr v.2⟩
  have hg : Function.Bijective g := by
    constructor
    · intro v w hvw
      exact Subtype.ext (hf (congrArg Subtype.val hvw))
    · rintro ⟨a, ha⟩
      have hal := (hmem a).mp ha
      obtain ⟨v, rfl⟩ := hsub a (mem_nodes_of_mem hal)
      exact ⟨⟨v, hal⟩, rfl⟩
  rw [← hcard, Nat.card_congr (Equiv.ofBijective g hg), Nat.card_eq_fintype_card,
    Fintype.card_coe]

/-- Reachability in the image of a graph is reachability in the graph. -/
theorem reflTransGen_iff {V : Type v} {G : SimpleGraph V} {f : V → α} (hf : Function.Injective f)
    (v w : V) : Relation.ReflTransGen (fun a b => ∃ v w, f v = a ∧ f w = b ∧ G.Adj v w) (f v) (f w) ↔
      G.Reachable v w := by
  rw [SimpleGraph.reachable_iff_reflTransGen]
  constructor
  · intro hvw
    generalize hb : f w = b at hvw
    induction hvw generalizing w with
    | refl => rw [hf hb]
    | tail _ hbc ih =>
      obtain ⟨x, y, rfl, rfl, hadj⟩ := hbc
      rw [hf hb]
      exact (ih x rfl).tail hadj
  · intro hvw
    induction hvw with
    | refl => exact Relation.ReflTransGen.refl
    | @tail x y _ hxy ih => exact ih.tail ⟨x, y, rfl, rfl, hxy⟩

/-- **Roots and components.** A search that records all vertices of an
undirected graph starts one tree for each connected component. -/
theorem Grows.card_components {V : Type v} {G : SimpleGraph V} {f : V → α}
    (hf : Function.Injective f) {l : List (α × Option α)}
    (h : Grows (fun a b => ∃ v w, f v = a ∧ f w = b ∧ G.Adj v w) l)
    (hcover : ∀ v, f v ∈ nodes l) (hsub : ∀ a ∈ nodes l, ∃ v, f v = a) :
    Nat.card G.ConnectedComponent = l.countP fun e => e.2.isNone := by
  have hsymm : ∀ a b, (∃ v w, f v = a ∧ f w = b ∧ G.Adj v w) →
      ∃ v w, f v = b ∧ f w = a ∧ G.Adj v w := by
    rintro a b ⟨v, w, hv, hw, hadj⟩
    exact ⟨w, v, hw, hv, hadj.symm⟩
  rw [← card_roots hf h.nodup hsub]
  let g : { v : V // (f v, none) ∈ l } → G.ConnectedComponent :=
    fun v => G.connectedComponentMk v.1
  refine (Nat.card_congr (Equiv.ofBijective g ⟨?_, ?_⟩)).symm
  · intro v w hvw
    have := (reflTransGen_iff hf v.1 w.1).mpr (SimpleGraph.ConnectedComponent.exact hvw)
    exact Subtype.ext (hf (h.root_unique hsymm _ _ v.2 w.2 this))
  · intro c
    induction c using SimpleGraph.ConnectedComponent.ind with
    | _ v =>
      obtain ⟨r, hr, hrv⟩ := h.exists_root (f v) (hcover v)
      obtain ⟨w, rfl⟩ := hsub r (mem_nodes_of_mem hr)
      exact ⟨⟨w, hr⟩, SimpleGraph.ConnectedComponent.sound ((reflTransGen_iff hf w v).mp hrv)⟩

end SpanningForest
