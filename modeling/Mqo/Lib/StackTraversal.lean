import Mathlib.Data.List.Nodup
import Mathlib.Data.List.Perm.Basic
import Mathlib.Data.Fintype.Card
import Mathlib.Data.Set.Finite.Basic
import Mathlib.Order.WellFounded
import Mathlib.Logic.Relation

/-!
# Stack traversals

An explicit-stack depth-first traversal pops an item, emits it, and pushes
the items below it, first one on top. `Emits next stack out` says that the
traversal that starts from `stack` ends, having emitted `out`; the traversal
keeps no visited marks.

General facts:

* `emits_append`, `emits_split` — a traversal from a concatenated stack is
  the traversals from its parts, one after the other;
* `emits_block` — the items below an item are emitted directly after it;
* `exists_emits_iff_acc` — the traversal ends exactly when no infinite chain
  of items starts in the stack;
* `acc_iff_no_cycle` — over a finite set of items, exactly when no cycle can
  be reached.

For a forest given as a list of pairs (child, parent), `next` lists the
pairs whose parent is the child popped. When every child occurs once and
every node is connected to a root (`Rooted`), the traversal ends and emits a
permutation of the pairs in topological order (`emits_forest`), which keeps the
order of the pairs with one parent (`withParent_emits`).
-/

universe u

namespace StackTraversal

section General

variable {γ : Type u} {next : γ → List γ}

/-- The traversal from a stack ends and emits the second list. -/
inductive Emits (next : γ → List γ) : List γ → List γ → Prop
  | nil : Emits next [] []
  | pop {x : γ} {rest out : List γ} :
      Emits next (next x ++ rest) out → Emits next (x :: rest) (x :: out)

theorem emits_append {s t o o' : List γ} (hs : Emits next s o) (ht : Emits next t o') :
    Emits next (s ++ t) (o ++ o') := by
  induction hs with
  | nil => exact ht
  | @pop x rest out _ ih =>
    rw [List.append_assoc] at ih
    exact Emits.pop ih

theorem emits_split {u o : List γ} (h : Emits next u o) :
    ∀ {s t : List γ}, u = s ++ t →
      ∃ x y, o = x ++ y ∧ Emits next s x ∧ Emits next t y := by
  induction h with
  | nil =>
    intro s t hu
    obtain ⟨rfl, rfl⟩ := List.append_eq_nil_iff.mp hu.symm
    exact ⟨[], [], rfl, Emits.nil, Emits.nil⟩
  | @pop x rest out hout ih =>
    intro s t hu
    cases s with
    | nil =>
      rw [List.nil_append] at hu
      subst hu
      exact ⟨[], x :: out, rfl, Emits.nil, Emits.pop hout⟩
    | cons a s =>
      rw [List.cons_append, List.cons.injEq] at hu
      obtain ⟨rfl, rfl⟩ := hu
      obtain ⟨p, q, rfl, hp, hq⟩ := ih (s := next x ++ s) (t := t) (by simp)
      exact ⟨x :: p, q, rfl, Emits.pop hp, hq⟩

/-- After an item, the items below it are emitted next, and then the rest of the stack. -/
theorem emits_suffix {s o : List γ} (h : Emits next s o) :
    ∀ {pre : List γ} {x : γ} {post : List γ}, o = pre ++ x :: post →
      ∃ rest, Emits next (next x ++ rest) post := by
  induction h with
  | nil =>
    intro pre x post ho
    simp at ho
  | @pop y rest out hout ih =>
    intro pre x post ho
    cases pre with
    | nil =>
      rw [List.nil_append, List.cons.injEq] at ho
      obtain ⟨rfl, rfl⟩ := ho
      exact ⟨rest, hout⟩
    | cons z pre =>
      rw [List.cons_append, List.cons.injEq] at ho
      exact ih ho.2

/-- The items of the stack are emitted in the order in which they lie there. -/
theorem emits_sublist {s o : List γ} (h : Emits next s o) : s.Sublist o := by
  induction h with
  | nil => exact List.Sublist.slnil
  | @pop x rest out _ ih =>
    exact ((List.sublist_append_right (next x) rest).trans ih).cons_cons x

/-- The item on top is emitted first. -/
theorem emits_head {s o : List γ} (h : Emits next s o) : o.head? = s.head? := by
  cases h with
  | nil => rfl
  | pop _ => rfl

/-- `y` lies below `x`. -/
def Below (next : γ → List γ) (y x : γ) : Prop := y ∈ next x

/-- Exactly the items at or below an item of the stack are emitted. -/
theorem mem_emits {s o : List γ} (h : Emits next s o) {y : γ} :
    y ∈ o ↔ ∃ x ∈ s, Relation.ReflTransGen (Below next) y x := by
  induction h with
  | nil => simp
  | @pop x rest out _ ih =>
    rw [List.mem_cons, ih]
    constructor
    · rintro (rfl | ⟨z, hz, hyz⟩)
      · exact ⟨y, List.mem_cons_self, Relation.ReflTransGen.refl⟩
      · rcases List.mem_append.mp hz with hz | hz
        · exact ⟨x, List.mem_cons_self, hyz.tail hz⟩
        · exact ⟨z, List.mem_cons_of_mem _ hz, hyz⟩
    · rintro ⟨z, hz, hyz⟩
      rcases List.mem_cons.mp hz with rfl | hz
      · rcases Relation.ReflTransGen.cases_tail hyz with rfl | ⟨w, hyw, hwz⟩
        · exact Or.inl rfl
        · exact Or.inr ⟨w, List.mem_append_left _ hwz, hyw⟩
      · exact Or.inr ⟨z, List.mem_append_right _ hz, hyz⟩

/-- **Preorder.** The items below an item occupy the block that follows it. -/
theorem emits_block {s o : List γ} (h : Emits next s o) {pre : List γ} {x : γ} {post : List γ}
    (ho : o = pre ++ x :: post) :
    ∃ block rest, post = block ++ rest ∧ ∀ y, y ∈ block ↔ Relation.TransGen (Below next) y x := by
  obtain ⟨stack, hpost⟩ := emits_suffix h ho
  obtain ⟨block, rest, rfl, hblock, -⟩ := emits_split hpost rfl
  refine ⟨block, rest, rfl, fun y => ?_⟩
  rw [mem_emits hblock, Relation.TransGen.tail'_iff]
  exact exists_congr fun _ => and_comm

theorem exists_emits_of_acc {x : γ} (h : Acc (Below next) x) : ∃ o, Emits next [x] o := by
  induction h with
  | intro x _ ih =>
    -- the items below `x` have finite traversals, hence so has their concatenation
    have hlist : ∀ l : List γ, (∀ y ∈ l, y ∈ next x) → ∃ o, Emits next l o := by
      intro l
      induction l with
      | nil => exact fun _ => ⟨[], Emits.nil⟩
      | cons y l ihl =>
        intro hl
        obtain ⟨o, ho⟩ := ih y (hl y List.mem_cons_self)
        obtain ⟨o', ho'⟩ := ihl fun z hz => hl z (List.mem_cons_of_mem _ hz)
        exact ⟨o ++ o', emits_append (s := [y]) ho ho'⟩
    obtain ⟨o, ho⟩ := hlist (next x) fun _ hy => hy
    exact ⟨x :: o, Emits.pop (by rwa [List.append_nil])⟩

theorem acc_of_emits {s o : List γ} (h : Emits next s o) : ∀ x ∈ s, Acc (Below next) x := by
  induction h with
  | nil => exact fun x hx => absurd hx List.not_mem_nil
  | @pop x rest out _ ih =>
    intro y hy
    rcases List.mem_cons.mp hy with rfl | hy
    · exact Acc.intro y fun z hz => ih z (List.mem_append_left _ hz)
    · exact ih y (List.mem_append_right _ hy)

/-- The traversal ends exactly when every item of the stack is well-founded
for `Below`. -/
theorem exists_emits_iff_acc {s : List γ} :
    (∃ o, Emits next s o) ↔ ∀ x ∈ s, Acc (Below next) x := by
  constructor
  · rintro ⟨o, ho⟩
    exact acc_of_emits ho
  · intro h
    induction s with
    | nil => exact ⟨[], Emits.nil⟩
    | cons x s ih =>
      obtain ⟨o, ho⟩ := exists_emits_of_acc (h x List.mem_cons_self)
      obtain ⟨o', ho'⟩ := ih fun y hy => h y (List.mem_cons_of_mem _ hy)
      exact ⟨o ++ o', emits_append (s := [x]) ho ho'⟩

end General

/-- Over a finite set that contains all items below its members, an item is
well-founded exactly when no cycle is reachable from it. -/
theorem acc_iff_no_cycle {γ : Type u} {r : γ → γ → Prop} {S : Set γ} (hS : S.Finite)
    (hclosed : ∀ x ∈ S, ∀ y, r y x → y ∈ S) {x : γ} (hx : x ∈ S) :
    Acc r x ↔ ¬ ∃ y, Relation.ReflTransGen (fun a b => r b a) x y ∧ Relation.TransGen r y y := by
  constructor
  · rintro hacc ⟨y, hxy, hyy⟩
    have hy : Acc r y := by
      clear hyy
      induction hxy with
      | refl => exact hacc
      | tail _ hbc ih => exact ih.inv hbc
    have hirr : ∀ z, Acc (Relation.TransGen r) z → ¬ Relation.TransGen r z z := by
      intro z hz
      induction hz with
      | intro z _ ih => exact fun h => ih z h h
    exact hirr y hy.transGen hyy
  · intro hno
    -- on the finite set of items reachable from `x` the relation is transitive and irreflexive
    let T : Set γ := { y | Relation.ReflTransGen (fun a b => r b a) x y }
    have hTS : T ⊆ S := by
      intro y hy
      replace hy : Relation.ReflTransGen (fun a b => r b a) x y := hy
      induction hy with
      | refl => exact hx
      | tail _ hbc ih => exact hclosed _ ih _ hbc
    have hfin : Finite T := (hS.subset hTS).to_subtype
    let R : T → T → Prop := fun a b => Relation.TransGen r a.1 b.1
    have htrans : IsTrans T R := ⟨fun _ _ _ hab hbc => hab.trans hbc⟩
    have hirr : Std.Irrefl R := ⟨fun a ha => hno ⟨a.1, a.2, ha⟩⟩
    have hwf : WellFounded R := Finite.wellFounded_of_trans_of_irrefl R
    have hall : ∀ a : T, Acc r a.1 := by
      intro a
      induction hwf.apply a with
      | intro a _ ih =>
        refine Acc.intro a.1 fun y hy => ?_
        exact ih ⟨y, Relation.ReflTransGen.tail a.2 hy⟩ (Relation.TransGen.single hy)
    exact hall ⟨x, Relation.ReflTransGen.refl⟩

-- ---------------------------------------------------------------------------
-- Forests as lists of (child, parent) pairs
-- ---------------------------------------------------------------------------

section Forest

variable {α : Type u} [DecidableEq α]

/-- The pairs whose parent is `p`, in the order of the list. -/
def withParent (edges : List (α × α)) (p : α) : List (α × α) :=
  edges.filter fun e => e.2 = p

theorem mem_withParent {edges : List (α × α)} {p : α} {e : α × α} :
    e ∈ withParent edges p ↔ e ∈ edges ∧ e.2 = p := by
  simp [withParent]

/-- The items pushed when a pair is popped. -/
def childEdges (edges : List (α × α)) (e : α × α) : List (α × α) := withParent edges e.1

/-- Every parent is the root marker `r` or the child of an earlier pair. -/
def Topological (r : α) (l : List (α × α)) : Prop :=
  ∀ pre x post, l = pre ++ x :: post → x.2 = r ∨ x.2 ∈ pre.map Prod.fst

/-- Following parents from the node reaches the root marker. -/
inductive Rooted (r : α) (edges : List (α × α)) : α → Prop
  | root {c : α} : (c, r) ∈ edges → Rooted r edges c
  | child {c p : α} : (c, p) ∈ edges → Rooted r edges p → Rooted r edges c

omit [DecidableEq α] in
theorem topological_nil (r : α) : Topological r ([] : List (α × α)) := by
  intro pre x post h
  simp at h

omit [DecidableEq α] in
/-- What holds of each element and those before it holds in a list with one more
element, when it holds of that one. -/
theorem forall_split_concat {γ : Type u} {P : List γ → γ → Prop} {l : List γ} {x : γ}
    (hl : ∀ pre y post, l = pre ++ y :: post → P pre y) (hx : P l x) :
    ∀ pre y post, l ++ [x] = pre ++ y :: post → P pre y := by
  intro pre y post h
  rcases List.eq_nil_or_concat post with rfl | ⟨post', z, rfl⟩
  · obtain ⟨rfl, hxy⟩ := List.append_inj' h rfl
    rw [List.singleton_inj] at hxy
    exact hxy ▸ hx
  · rw [List.concat_eq_append, ← List.cons_append, ← List.append_assoc] at h
    exact hl pre y post' (List.append_inj' h rfl).1

omit [DecidableEq α] in
theorem topological_concat {r : α} {l : List (α × α)} {x : α × α} (hl : Topological r l)
    (hx : x.2 = r ∨ x.2 ∈ l.map Prod.fst) : Topological r (l ++ [x]) :=
  forall_split_concat (P := fun (pre : List (α × α)) y => y.2 = r ∨ y.2 ∈ pre.map Prod.fst) hl hx

omit [DecidableEq α] in
theorem Topological.of_append {r : α} {l l' : List (α × α)} (h : Topological r (l ++ l')) :
    Topological r l :=
  fun pre x post hl => h pre x (post ++ l') (by simp [hl])

omit [DecidableEq α] in
/-- Topological lists can be put one after the other. -/
theorem Topological.append {r : α} {l l' : List (α × α)} (hl : Topological r l)
    (hl' : Topological r l') : Topological r (l ++ l') := by
  induction l' using List.reverseRecOn with
  | nil => simpa using hl
  | append_singleton l' x ih =>
    rw [← List.append_assoc]
    refine topological_concat (ih hl'.of_append) ?_
    rcases hl' l' x [] rfl with h | h
    · exact Or.inl h
    · exact Or.inr (by rw [List.map_append]; exact List.mem_append_right _ h)

omit [DecidableEq α] in
theorem Topological.mem {r : α} {l : List (α × α)} (h : Topological r l) {x : α × α}
    (hx : x ∈ l) : x.2 = r ∨ x.2 ∈ l.map Prod.fst := by
  obtain ⟨pre, post, rfl⟩ := List.append_of_mem hx
  rcases h pre x post rfl with hr | hp
  · exact Or.inl hr
  · exact Or.inr (by rw [List.map_append]; exact List.mem_append_left _ hp)

omit [DecidableEq α] in
/-- In a topological list every node is connected to a root. -/
theorem Topological.rooted {r : α} {l : List (α × α)} (h : Topological r l) :
    ∀ x ∈ l, Rooted r l x.1 := by
  suffices hpre : ∀ n pre post, pre.length = n → l = pre ++ post → ∀ x ∈ pre, Rooted r l x.1 from
    hpre _ l [] rfl (by simp)
  intro n
  induction n with
  | zero =>
    intro pre post hlen _ x hx
    rw [List.length_eq_zero_iff.mp hlen] at hx
    cases hx
  | succ n ih =>
    intro pre post hlen hl x hx
    rcases List.eq_nil_or_concat pre with rfl | ⟨pre', y, rfl⟩
    · cases hx
    · rw [List.concat_eq_append] at hl hx hlen
      have hl' : l = pre' ++ y :: post := by simpa using hl
      have ih' := ih pre' (y :: post) (by simpa using hlen) hl'
      rcases List.mem_append.mp hx with hx | hx
      · exact ih' x hx
      · rw [List.mem_singleton] at hx
        subst hx
        have hmem : (x.1, x.2) ∈ l := by simp [hl']
        rcases h pre' x post hl' with hr | hp
        · exact Rooted.root (hr ▸ hmem)
        · obtain ⟨z, hz, hzx⟩ := List.mem_map.mp hp
          exact Rooted.child hmem (hzx ▸ ih' z hz)

omit [DecidableEq α] in
theorem Rooted.mono {r : α} {l l' : List (α × α)} (hsub : ∀ x ∈ l, x ∈ l') {c : α}
    (h : Rooted r l c) : Rooted r l' c := by
  induction h with
  | root hc => exact Rooted.root (hsub _ hc)
  | child hc _ ih => exact Rooted.child (hsub _ hc) ih

omit [DecidableEq α] in
/-- A pair is determined by its child. -/
theorem eq_of_fst_eq {edges : List (α × α)} (hnd : (edges.map Prod.fst).Nodup) {x y : α × α}
    (hx : x ∈ edges) (hy : y ∈ edges) (h : x.1 = y.1) : x = y :=
  List.inj_on_of_nodup_map hnd hx hy h

/-- What holds of the pairs emitted and the stack while a forest is traversed. -/
structure Frontier (r : α) (edges out stack : List (α × α)) : Prop where
  sub    : ∀ x ∈ out ++ stack, x ∈ edges
  nodup  : ((out ++ stack).map Prod.fst).Nodup
  topo   : Topological r out
  pend   : ∀ x ∈ stack, x.2 = r ∨ x.2 ∈ out.map Prod.fst
  closed : ∀ x ∈ out, ∀ y ∈ edges, y.2 = x.1 → y ∈ out ++ stack
  roots  : ∀ y ∈ edges, y.2 = r → y ∈ out ++ stack

variable {r : α} {edges : List (α × α)}

theorem frontier_init (hnd : (edges.map Prod.fst).Nodup) :
    Frontier r edges [] (withParent edges r) where
  sub _ hx := (mem_withParent.mp hx).1
  nodup := hnd.sublist (List.filter_sublist.map Prod.fst)
  topo := topological_nil r
  pend _ hx := Or.inl (mem_withParent.mp hx).2
  closed _ hx := absurd hx List.not_mem_nil
  roots _ hy hr := mem_withParent.mpr ⟨hy, hr⟩

/-- One step: the pair on top is emitted and the pairs below it are pushed. -/
theorem frontier_step (hnd : (edges.map Prod.fst).Nodup) (hr : r ∉ edges.map Prod.fst)
    {out rest : List (α × α)} {x : α × α} (h : Frontier r edges out (x :: rest)) :
    Frontier r edges (out ++ [x]) (childEdges edges x ++ rest) := by
  have hxe : x ∈ edges := h.sub x (by simp)
  have hx : x.2 = r ∨ x.2 ∈ out.map Prod.fst := h.pend x List.mem_cons_self
  -- `x` has not been emitted before, so none of the pairs below it has been pushed before
  have hxout : x.1 ∉ out.map Prod.fst := by
    have := h.nodup
    rw [List.map_append, List.nodup_append] at this
    exact fun hm => this.2.2 _ hm x.1 (by simp) rfl
  have hfresh : ∀ z ∈ out ++ x :: rest, z.2 ≠ x.1 := by
    intro z hz hzx
    have hzp : z.2 = r ∨ z.2 ∈ out.map Prod.fst := by
      rcases List.mem_append.mp hz with hz | hz
      · exact h.topo.mem hz
      · exact h.pend z hz
    rcases hzp with hzr | hzo
    · exact hr (List.mem_map.mpr ⟨x, hxe, by rw [← hzx, hzr]⟩)
    · exact hxout (hzx ▸ hzo)
  have hperm : (out ++ [x] ++ (childEdges edges x ++ rest)).Perm
      (childEdges edges x ++ (out ++ x :: rest)) := by
    rw [← List.append_assoc, ← List.append_assoc]
    refine (List.perm_append_comm.append_right rest).trans ?_
    simp
  refine ⟨?_, ?_, topological_concat h.topo hx, ?_, ?_, ?_⟩
  · intro z hz
    rcases List.mem_append.mp (hperm.mem_iff.mp hz) with hz | hz
    · exact (mem_withParent.mp hz).1
    · exact h.sub z hz
  · rw [(hperm.map Prod.fst).nodup_iff, List.map_append, List.nodup_append]
    refine ⟨hnd.sublist (List.filter_sublist.map Prod.fst), h.nodup, ?_⟩
    intro a ha b hb hab
    obtain ⟨y, hy, rfl⟩ := List.mem_map.mp ha
    obtain ⟨z, hz, rfl⟩ := List.mem_map.mp hb
    have hye := mem_withParent.mp hy
    have hyz := eq_of_fst_eq hnd hye.1 (h.sub z hz) hab
    exact hfresh z hz (hyz ▸ hye.2)
  · intro z hz
    rcases List.mem_append.mp hz with hz | hz
    · exact Or.inr (by rw [(mem_withParent.mp hz).2]; simp)
    · rcases h.pend z (List.mem_cons_of_mem _ hz) with hzr | hzo
      · exact Or.inl hzr
      · exact Or.inr (by rw [List.map_append]; exact List.mem_append_left _ hzo)
  · intro z hz y hy hyz
    refine hperm.mem_iff.mpr (List.mem_append.mpr ?_)
    rcases List.mem_append.mp hz with hz | hz
    · exact Or.inr (h.closed z hz y hy hyz)
    · rw [List.mem_singleton] at hz
      exact Or.inl (mem_withParent.mpr ⟨hy, hz ▸ hyz⟩)
  · intro y hy hyr
    exact hperm.mem_iff.mpr (List.mem_append_right _ (h.roots y hy hyr))

/-- The traversal from any frontier ends, in a frontier with an empty stack. -/
theorem frontier_emits (hnd : (edges.map Prod.fst).Nodup) (hr : r ∉ edges.map Prod.fst) :
    ∀ (n : ℕ) (out stack : List (α × α)), edges.length - out.length = n →
      Frontier r edges out stack →
      ∃ o, Emits (childEdges edges) stack o ∧ Frontier r edges (out ++ o) [] := by
  intro n
  induction n using Nat.strong_induction_on with
  | _ n ih =>
    intro out stack hn h
    cases stack with
    | nil => exact ⟨[], Emits.nil, by simpa using h⟩
    | cons x rest =>
      have hlen : (out ++ x :: rest).length ≤ edges.length := by
        have hnd' : (out ++ x :: rest).Nodup := List.Nodup.of_map _ h.nodup
        exact (hnd'.subperm h.sub).length_le
      simp only [List.length_append, List.length_cons] at hlen
      obtain ⟨o, ho, hf⟩ := ih (edges.length - (out ++ [x]).length) (by simp; omega)
        (out ++ [x]) _ rfl (frontier_step hnd hr h)
      exact ⟨x :: o, Emits.pop ho, by simpa using hf⟩

/-- **Traversal of a forest.** When every child occurs once, the root marker
is no child, and every node is connected to a root, the traversal from the
root pairs ends and emits a permutation of the pairs, parents first. -/
theorem emits_forest (hnd : (edges.map Prod.fst).Nodup) (hr : r ∉ edges.map Prod.fst)
    (hrooted : ∀ x ∈ edges, Rooted r edges x.1) :
    ∃ out, Emits (childEdges edges) (withParent edges r) out ∧ out.Perm edges ∧
      Topological r out := by
  obtain ⟨out, hout, hf⟩ := frontier_emits hnd hr _ [] _ rfl (frontier_init hnd)
  rw [List.nil_append] at hf
  refine ⟨out, hout, ?_, hf.topo⟩
  have hnd' : (out.map Prod.fst).Nodup := by simpa using hf.nodup
  rw [List.perm_ext_iff_of_nodup (List.Nodup.of_map _ hnd') (List.Nodup.of_map _ hnd)]
  -- every pair is emitted, by induction on its connection to a root
  have hall : ∀ c, Rooted r edges c → ∀ x ∈ edges, x.1 = c → x ∈ out := by
    intro c hc
    induction hc with
    | @root c hc =>
      intro x hx hxc
      have := eq_of_fst_eq hnd hx hc hxc
      subst this
      simpa using hf.roots _ hc rfl
    | @child c p hc hp ih =>
      intro x hx hxc
      have := eq_of_fst_eq hnd hx hc hxc
      subst this
      have hpe : ∃ z ∈ edges, z.1 = p := by
        cases hp with
        | root h => exact ⟨_, h, rfl⟩
        | child h _ => exact ⟨_, h, rfl⟩
      obtain ⟨z, hz, hzp⟩ := hpe
      simpa using hf.closed z (ih z hz hzp) _ hc hzp.symm
  intro x
  exact ⟨fun hx => hf.sub x (by simpa using hx), fun hx => hall x.1 (hrooted x hx) x hx rfl⟩

omit [DecidableEq α] in
/-- In a forest the parent of a pair is the root marker or a child. -/
theorem Rooted.parent_mem (hnd : (edges.map Prod.fst).Nodup) {x : α × α} (hx : x ∈ edges)
    (h : Rooted r edges x.1) : x.2 = r ∨ x.2 ∈ edges.map Prod.fst := by
  cases h with
  | root hr => exact Or.inl (by rw [eq_of_fst_eq hnd hx hr rfl])
  | @child _ p hc hp =>
    rw [eq_of_fst_eq hnd hx hc rfl]
    cases hp with
    | root h => exact Or.inr (List.mem_map_of_mem h)
    | child h _ => exact Or.inr (List.mem_map_of_mem h)

/-- The traversal emits the pairs with one parent in the order of the list. -/
theorem withParent_emits (hnd : (edges.map Prod.fst).Nodup)
    (hrooted : ∀ x ∈ edges, Rooted r edges x.1) {out : List (α × α)}
    (h : Emits (childEdges edges) (withParent edges r) out) (hperm : out.Perm edges) (p : α) :
    withParent out p = withParent edges p := by
  have hlen : (withParent edges p).length = (withParent out p).length :=
    (hperm.filter _).length_eq.symm
  -- it is enough that the pairs with parent `p` are emitted in their order
  suffices hsub : (withParent edges p).Sublist out by
    have hfilter := hsub.filter fun e => e.2 = p
    rw [withParent, List.filter_filter] at hfilter
    simp only [Bool.and_self] at hfilter
    exact (hfilter.eq_of_length hlen).symm
  by_cases hpr : p = r
  · exact hpr ▸ emits_sublist h
  · by_cases hchild : p ∈ edges.map Prod.fst
    · obtain ⟨x, hx, rfl⟩ := List.mem_map.mp hchild
      obtain ⟨pre, post, hout⟩ := List.append_of_mem (hperm.mem_iff.mpr hx)
      obtain ⟨rest, hpost⟩ := emits_suffix h hout
      have hbelow : (childEdges edges x).Sublist post :=
        (List.sublist_append_left _ rest).trans (emits_sublist hpost)
      rw [hout]
      exact (hbelow.cons x).trans (List.sublist_append_right pre _)
    · have hnil : withParent edges p = [] := by
        rw [withParent, List.filter_eq_nil_iff]
        intro e he hep
        rw [decide_eq_true_eq] at hep
        subst hep
        exact ((hrooted e he).parent_mem hnd he).elim hpr hchild
      rw [hnil]
      exact List.nil_sublist out

end Forest

end StackTraversal
