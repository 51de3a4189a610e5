import Mathlib.Data.List.TakeWhile
import Mqo.Build.NsgPrune
import Mqo.Search.NsgRecall

/-!
# MQO — linking an NSG graph

`Link` and `InterInsert` of `nsg/src/index_nsg.cpp`. The links of each node lie in `R`
places of `cut_graph_`, closed by a place whose distance is -1. After the links of all
nodes have been chosen, each is also entered at its other end; a list without a free
place is chosen anew, and then written over the old one, whose rest is left standing.

A metric that takes the value -1, as the inner product may, ends a list early. What is
in front of the end are links with their distances all the same.

* `linkNodes_listed` — the links that are chosen, in any order of the threads;
* `CutInv.linkBack`, `Mutual.linkBack` — what entering a link at its other end keeps;
* `link_returns` — the lists after linking: for a metric that is never -1, each link is there
  in both directions, or its other end has all its places taken.
-/

namespace Mqo.Build.Nsg

open Prog Search.Nsg GreedySelect

variable {K V : Type} [LinearOrder K] [One K] [Neg K]

-- ---------------------------------------------------------------------------
-- The places
-- ---------------------------------------------------------------------------

/-- `std::sort` by distance, for `SimpleNeighbor`. -/
structure SimpleSorting (K : Type) [LinearOrder K] where
  sort : List (SimpleNeighbor K) → List (SimpleNeighbor K)
  perm : ∀ l, (sort l).Perm l
  sorted : ∀ l, (sort l).Pairwise fun a b => a.distance ≤ b.distance

/-- `cut_graph_`: the places of each node. -/
abbrev CutGraph (K : Type) := ℕ → ℕ → SimpleNeighbor K

/-- What the loops that stop at a distance of -1 see of the places of a node. -/
def listed (R : ℕ) (slots : ℕ → SimpleNeighbor K) : List (SimpleNeighbor K) :=
  ((List.range R).map slots).takeWhile fun p => p.distance ≠ -1

/-- Writing `result` to the first places of a node. -/
def overwrite (cut : CutGraph K) (q : ℕ) (result : List (SimpleNeighbor K)) : CutGraph K :=
  Function.update cut q fun t => result.getD t (cut q t)

/-- `[t].distance = -1` -/
def close (cut : CutGraph K) (q t : ℕ) : CutGraph K :=
  Function.update cut q (Function.update (cut q) t { cut q t with distance := -1 })

/-- The end of `sync_prune`. -/
def writeLinks (R : ℕ) (cut : CutGraph K) (q : ℕ) (result : List (SimpleNeighbor K)) :
    CutGraph K :=
  let cut := overwrite cut q result
  if result.length < R then close cut q result.length else cut

/-- The place `t` taken by `sn`, with an end behind it. -/
def append (R : ℕ) (cut : CutGraph K) (q t : ℕ) (sn : SimpleNeighbor K) : CutGraph K :=
  let cut := Function.update cut q (Function.update (cut q) t sn)
  if t + 1 < R then close cut q (t + 1) else cut

-- ---------------------------------------------------------------------------
-- Linking
-- ---------------------------------------------------------------------------

/-- One pass of `InterInsert`: the link `src` of `n` is entered at its other end. -/
def linkBack (T : SimpleSorting K) (d : ℕ → ℕ → K) (R n : ℕ) (cut : CutGraph K)
    (src : SimpleNeighbor K) : CutGraph K :=
  let sn : SimpleNeighbor K := ⟨n, src.distance⟩
  let des := src.id
  let des_pool := listed R (cut des)
  if des_pool.any fun p => n = p.id then cut
  else
    let temp_pool := des_pool ++ [sn]
    if R < temp_pool.length then
      match T.sort temp_pool with
      | [] => cut
      | p :: rest => overwrite cut des (select (occludes d) R [p] rest)
    else
      -- the first place with a distance of -1 is the one behind those listed
      append R cut des des_pool.length sn

/-- `InterInsert(n, range, locks, cut_graph_)`, from the given places on. -/
def interInsert (T : SimpleSorting K) (d : ℕ → ℕ → K) (R n : ℕ) : List ℕ → CutGraph K → CutGraph K
  | [], cut => cut
  | i :: places, cut =>
    if (cut n i).distance = -1 then cut
    else interInsert T d R n places (linkBack T d R n cut (cut n i))

/-- One pass of the first loop of `Link`: the links of `n`. -/
def linkNode [Zero K] (index : IndexNSG) (S : Sorting K) (D : Distance V K) (data : ℕ → V)
    (L R C n : ℕ) (rng : ℕ → ℕ) : Run (List (SimpleNeighbor K)) := do
  let c ← getNeighborsFlags index S D data (data n) L rng
  syncPrune index S D data R C n c.fullset c.flags

/-- The first loop of `Link`. The threads take the nodes in some order, and each writes to the
places of its own node only; `rng n` is what `rand()` returns to the thread that has
node `n`. -/
def linkNodes [Zero K] (index : IndexNSG) (S : Sorting K) (D : Distance V K) (data : ℕ → V)
    (L R C : ℕ) (order : List ℕ) (rng : ℕ → ℕ → ℕ) (cut : CutGraph K) : Run (CutGraph K) :=
  order.foldlM (fun cut n => do
    let result ← linkNode index S D data L R C n (rng n)
    pure (writeLinks R cut n result)) cut

/-- `Link(parameters, cut_graph_)`. The second loop is not in a parallel region, and so is
run by one thread. -/
def link [Zero K] (index : IndexNSG) (S : Sorting K) (T : SimpleSorting K) (D : Distance V K)
    (data : ℕ → V) (L R C : ℕ) (order : List ℕ) (rng : ℕ → ℕ → ℕ) (cut : CutGraph K) :
    Run (CutGraph K) := do
  let cut ← linkNodes index S D data L R C order rng cut
  pure ((List.range index.nd).foldl (fun cut n =>
    interInsert T (fun a b => D.compare (data a) (data b)) R n (List.range R) cut) cut)

-- ---------------------------------------------------------------------------
-- The list of a node
-- ---------------------------------------------------------------------------

section Listed

variable {R : ℕ} {slots : ℕ → SimpleNeighbor K}

theorem length_listed_le (R : ℕ) (slots : ℕ → SimpleNeighbor K) : (listed R slots).length ≤ R := by
  have hprefix : listed R slots <+: (List.range R).map slots := List.takeWhile_prefix _
  simpa using hprefix.length_le

/-- The places that are listed are the first ones. -/
theorem listed_eq_map (R : ℕ) (slots : ℕ → SimpleNeighbor K) :
    listed R slots = (List.range (listed R slots).length).map slots := by
  have hprefix : listed R slots <+: (List.range R).map slots := List.takeWhile_prefix _
  rw [List.prefix_iff_eq_take.mp hprefix, ← List.map_take, List.take_range, List.length_map,
    List.length_range, Nat.min_eq_left (length_listed_le R slots)]

/-- A list behind which there is an end, or no place. -/
theorem listed_of_end {l : List (SimpleNeighbor K)} (hlen : l.length ≤ R)
    (hslots : ∀ t (h : t < l.length), slots t = l[t])
    (hend : l.length < R → (slots l.length).distance = -1) :
    listed R slots = l.takeWhile fun p => p.distance ≠ -1 := by
  have hmap : (List.range l.length).map slots = l :=
    List.ext_getElem (by simp) fun t _ ht => by simpa using hslots t ht
  unfold listed
  rcases Nat.lt_or_eq_of_le hlen with hlt | heq
  · obtain ⟨k, rfl⟩ := Nat.exists_eq_add_of_lt hlt
    rw [Nat.add_assoc, List.range_add, List.map_append, hmap, List.range_succ_eq_map, List.map_cons,
      List.map_cons, Nat.add_zero, List.takeWhile_append, List.takeWhile_cons_of_neg (by simp [hend hlt])]
    split
    · next hall =>
      rw [List.append_nil]
      exact ((List.takeWhile_prefix _).eq_of_length hall).symm
    · rfl
  · rw [← heq, hmap]

/-- Without a distance of -1 in it, the list is listed as a whole. -/
theorem listed_of_ne {l : List (SimpleNeighbor K)} (hlen : l.length ≤ R)
    (hslots : ∀ t (h : t < l.length), slots t = l[t])
    (hend : l.length < R → (slots l.length).distance = -1) (hne : ∀ p ∈ l, p.distance ≠ -1) :
    listed R slots = l := by
  rw [listed_of_end hlen hslots hend]
  exact List.takeWhile_eq_self_iff.mpr fun p hp => decide_eq_true (hne p hp)

theorem listed_ne {p : SimpleNeighbor K} (hp : p ∈ listed R slots) : p.distance ≠ -1 := by
  simpa using List.mem_takeWhile_imp hp

/-- The place behind those listed is an end. -/
theorem end_of_listed (h : (listed R slots).length < R) :
    (slots (listed R slots).length).distance = -1 := by
  have hsplit : listed R slots ++ ((List.range R).map slots).dropWhile (fun p => p.distance ≠ -1) =
      (List.range R).map slots := List.takeWhile_append_dropWhile
  cases hrest : ((List.range R).map slots).dropWhile fun p => p.distance ≠ -1 with
  | nil =>
    have hlen := congrArg List.length hsplit
    rw [hrest, List.append_nil, List.length_map, List.length_range] at hlen
    omega
  | cons p rest =>
    have hp : p.distance = -1 := by
      have hhead := List.head_dropWhile_not (fun p : SimpleNeighbor K => decide (p.distance ≠ -1))
        (l := (List.range R).map slots) (by rw [hrest]; exact List.cons_ne_nil _ _)
      simp only [hrest, List.head_cons] at hhead
      simpa using hhead
    have hget : ((List.range R).map slots)[(listed R slots).length]? = some p := by
      rw [← hsplit, hrest, List.getElem?_append_right (le_refl _), Nat.sub_self]
      rfl
    rw [List.getElem?_map, List.getElem?_range h, Option.map_some, Option.some.injEq] at hget
    rw [hget]
    exact hp

/-- What is listed lies in the places. -/
theorem exists_of_mem_listed {p : SimpleNeighbor K} (hp : p ∈ listed R slots) :
    ∃ t < (listed R slots).length, p = slots t := by
  rw [listed_eq_map R slots] at hp
  obtain ⟨t, ht, rfl⟩ := List.mem_map.mp hp
  exact ⟨t, List.mem_range.mp ht, rfl⟩

theorem listed_getElem {t : ℕ} (ht : t < (listed R slots).length) : (listed R slots)[t] = slots t := by
  have hget := congrArg (fun l : List (SimpleNeighbor K) => l[t]?) (listed_eq_map R slots)
  simpa [ht] using hget

theorem slot_mem_listed {t : ℕ} (ht : t < (listed R slots).length) : slots t ∈ listed R slots := by
  rw [← listed_getElem ht]
  exact List.getElem_mem ht

end Listed

-- ---------------------------------------------------------------------------
-- Links with their distances
-- ---------------------------------------------------------------------------

/-- A link of `q`: a node with its distance. -/
def IsLink (d : ℕ → ℕ → K) (nd q : ℕ) (p : SimpleNeighbor K) : Prop :=
  p.id < nd ∧ p.distance = d q p.id

/-- The first place of `q` has a link, and what is listed are links. -/
structure HasLinks (d : ℕ → ℕ → K) (nd R q : ℕ) (slots : ℕ → SimpleNeighbor K) : Prop where
  first  : IsLink d nd q (slots 0)
  listed : ∀ p ∈ listed R slots, IsLink d nd q p

/-- Every node has links. -/
def CutInv (d : ℕ → ℕ → K) (nd R : ℕ) (cut : CutGraph K) : Prop :=
  ∀ q < nd, HasLinks d nd R q (cut q)

section Places

variable {d : ℕ → ℕ → K} {nd R : ℕ} {cut : CutGraph K}

omit [LinearOrder K] [One K] [Neg K] in
theorem overwrite_slot (cut : CutGraph K) (q : ℕ) (result : List (SimpleNeighbor K)) {t : ℕ} :
    overwrite cut q result q t = result.getD t (cut q t) := by
  rw [overwrite, Function.update_self]

/-- **Writing the links of a node.** -/
theorem listed_writeLinks (cut : CutGraph K) (q : ℕ) {result : List (SimpleNeighbor K)}
    (hlen : result.length ≤ R) :
    listed R (writeLinks R cut q result q) = result.takeWhile fun p => p.distance ≠ -1 := by
  refine listed_of_end hlen (fun t ht => ?_) fun hlt => ?_
  · unfold writeLinks
    split
    · rw [close, Function.update_self, Function.update_of_ne (by omega), overwrite_slot,
        List.getD_eq_getElem _ _ ht]
    · rw [overwrite_slot, List.getD_eq_getElem _ _ ht]
  · rw [writeLinks, if_pos hlt, close, Function.update_self, Function.update_self]

omit [LinearOrder K] [One K] [Neg K] in
theorem overwrite_of_ne (cut : CutGraph K) {q q' : ℕ} (h : q' ≠ q)
    (result : List (SimpleNeighbor K)) : overwrite cut q result q' = cut q' := by
  rw [overwrite, Function.update_of_ne h]

omit [LinearOrder K] in
theorem writeLinks_of_ne (cut : CutGraph K) {q q' : ℕ} (h : q' ≠ q)
    (result : List (SimpleNeighbor K)) : writeLinks R cut q result q' = cut q' := by
  unfold writeLinks
  split
  · rw [close, Function.update_of_ne h, overwrite_of_ne cut h]
  · rw [overwrite_of_ne cut h]

/-- What entering the link `src` of `n` at its other end does there: `n` is listed already,
it is put behind the list, or the list, which was full, is chosen anew. -/
inductive LinkedBack (d : ℕ → ℕ → K) (R n : ℕ) (cut : CutGraph K) (src : SimpleNeighbor K) :
    CutGraph K → Prop
  | present : (∃ p ∈ listed R (cut src.id), p.id = n) → LinkedBack d R n cut src cut
  | appended (cut' : CutGraph K) : (¬ ∃ p ∈ listed R (cut src.id), p.id = n) →
      (∀ q, q ≠ src.id → cut' q = cut q) →
      (listed R (cut src.id)).length < R →
      (∀ t < (listed R (cut src.id)).length, cut' src.id t = cut src.id t) →
      cut' src.id (listed R (cut src.id)).length = ⟨n, src.distance⟩ →
      listed R (cut' src.id) =
        (listed R (cut src.id) ++ [(⟨n, src.distance⟩ : SimpleNeighbor K)]).takeWhile
          (fun p => p.distance ≠ -1) →
      LinkedBack d R n cut src cut'
  | chosen (cut' : CutGraph K) : (¬ ∃ p ∈ listed R (cut src.id), p.id = n) →
      (∀ q, q ≠ src.id → cut' q = cut q) →
      (listed R (cut src.id)).length = R →
      (∀ t < R, cut' src.id t ∈ listed R (cut src.id) ++ [(⟨n, src.distance⟩ : SimpleNeighbor K)]) →
      LinkedBack d R n cut src cut'

omit [LinearOrder K] in
theorem append_of_ne (cut : CutGraph K) {q q' : ℕ} (h : q' ≠ q) (t : ℕ) (sn : SimpleNeighbor K) :
    append R cut q t sn q' = cut q' := by
  unfold append
  split
  · rw [close, Function.update_of_ne h, Function.update_of_ne h]
  · rw [Function.update_of_ne h]

omit [LinearOrder K] in
theorem append_slot (cut : CutGraph K) (q t : ℕ) (sn : SimpleNeighbor K) :
    (∀ i < t, append R cut q t sn q i = cut q i) ∧ append R cut q t sn q t = sn ∧
      (t + 1 < R → (append R cut q t sn q (t + 1)).distance = -1) := by
  unfold append
  split
  · refine ⟨fun i hi => ?_, ?_, fun _ => ?_⟩
    · rw [close, Function.update_self, Function.update_of_ne (by omega), Function.update_self,
        Function.update_of_ne (by omega)]
    · rw [close, Function.update_self, Function.update_of_ne (by omega), Function.update_self,
        Function.update_self]
    · rw [close, Function.update_self, Function.update_self]
  · next hlast =>
    refine ⟨fun i hi => ?_, ?_, fun h => absurd h hlast⟩
    · rw [Function.update_self, Function.update_of_ne (by omega)]
    · rw [Function.update_self, Function.update_self]

/-- **Entering a link at its other end.** -/
theorem linkBack_spec (T : SimpleSorting K) (d : ℕ → ℕ → K) (R n : ℕ) (cut : CutGraph K)
    (src : SimpleNeighbor K) : LinkedBack d R n cut src (linkBack T d R n cut src) := by
  unfold linkBack
  dsimp only
  split
  · next hdup =>
    obtain ⟨p, hp, heq⟩ := List.any_eq_true.mp hdup
    exact .present ⟨p, hp, (of_decide_eq_true heq).symm⟩
  · next hdup =>
    have hle := length_listed_le R (cut src.id)
    have habsent : ¬ ∃ p ∈ listed R (cut src.id), p.id = n := fun ⟨p, hp, heq⟩ =>
      hdup (List.any_eq_true.mpr ⟨p, hp, decide_eq_true heq.symm⟩)
    split
    · next hfull =>
      rw [List.length_append, List.length_singleton] at hfull
      have hlen : (listed R (cut src.id)).length = R := by omega
      have hperm := T.perm (listed R (cut src.id) ++ [(⟨n, src.distance⟩ : SimpleNeighbor K)])
      cases hsort : T.sort (listed R (cut src.id) ++ [(⟨n, src.distance⟩ : SimpleNeighbor K)]) with
      | nil => simp [hsort] at hperm
      | cons p rest =>
        refine .chosen _ habsent (fun q hq => overwrite_of_ne cut hq _) hlen fun t ht => ?_
        dsimp only
        rw [overwrite_slot]
        by_cases htr : t < (select (occludes d) R [p] rest).length
        · rw [List.getD_eq_getElem _ _ htr]
          refine hperm.subset ?_
          rw [hsort]
          exact (select_sublist rest [p]).subset (List.getElem_mem htr)
        · rw [List.getD_eq_default _ _ (not_lt.mp htr)]
          exact List.mem_append_left _ (slot_mem_listed (hlen.symm ▸ ht))
    · next hfree =>
      rw [List.length_append, List.length_singleton, not_lt] at hfree
      obtain ⟨hbefore, hat, hend⟩ := append_slot (R := R) cut src.id (listed R (cut src.id)).length
        ⟨n, src.distance⟩
      refine .appended (append R cut src.id (listed R (cut src.id)).length ⟨n, src.distance⟩) habsent
        (fun q hq => append_of_ne cut hq _ _) hfree hbefore hat (listed_of_end ?_ (fun t ht => ?_) ?_)
      · rwa [List.length_append, List.length_singleton]
      · rw [List.length_append, List.length_singleton] at ht
        rcases Nat.lt_or_eq_of_le (Nat.le_of_lt_succ ht) with hlt | rfl
        · rw [hbefore t hlt, List.getElem_append_left hlt]
          exact (listed_getElem hlt).symm
        · rw [hat, List.getElem_concat_length rfl]
      · rw [List.length_append, List.length_singleton]
        exact hend

/-- Links that are written are links. -/
theorem hasLinks_writeLinks (cut : CutGraph K) {q : ℕ} {result : List (SimpleNeighbor K)}
    (hne : result ≠ []) (hlen : result.length ≤ R) (hlinks : ∀ p ∈ result, IsLink d nd q p) :
    HasLinks d nd R q (writeLinks R cut q result q) where
  first := by
    obtain ⟨p, rest, rfl⟩ := List.exists_cons_of_ne_nil hne
    have hslot : writeLinks R cut q (p :: rest) q 0 = p := by
      unfold writeLinks
      split
      · rw [close, Function.update_self, Function.update_of_ne (by simp), overwrite_slot]
        rfl
      · rw [overwrite_slot]
        rfl
    rw [hslot]
    exact hlinks p List.mem_cons_self
  listed p hp := by
    rw [listed_writeLinks cut q hlen] at hp
    exact hlinks p ((List.takeWhile_prefix _).subset hp)

section Symmetric

variable (hsymm : ∀ a b, d a b = d b a)

include hsymm

omit [LinearOrder K] [One K] [Neg K] in
/-- The other end of a link. -/
theorem IsLink.symm {n : ℕ} {src : SimpleNeighbor K} (h : IsLink d nd n src) (hn : n < nd) :
    IsLink d nd src.id ⟨n, src.distance⟩ :=
  ⟨hn, h.2.trans (hsymm n src.id)⟩

/-- **One pass** of `InterInsert` keeps what is listed links. -/
theorem CutInv.linkBack (h : CutInv d nd R cut) {n : ℕ} (hn : n < nd) {src : SimpleNeighbor K}
    (hsrc : IsLink d nd n src) {cut' : CutGraph K} (hback : LinkedBack d R n cut src cut')
    (hR : 1 ≤ R) : CutInv d nd R cut' := by
  have hsn := hsrc.symm hsymm hn
  have hdes := h src.id hsrc.1
  have hmem : ∀ p ∈ listed R (cut src.id) ++ [(⟨n, src.distance⟩ : SimpleNeighbor K)],
      IsLink d nd src.id p := by
    intro p hp
    rcases List.mem_append.mp hp with hp | hp
    · exact hdes.listed p hp
    · rw [List.mem_singleton.mp hp]
      exact hsn
  -- only the places of the other end change
  suffices hsuff : (∀ q, q ≠ src.id → cut' q = cut q) ∧ HasLinks d nd R src.id (cut' src.id) by
    intro q hq
    by_cases heq : q = src.id
    · exact heq ▸ hsuff.2
    · exact hsuff.1 q heq ▸ h q hq
  cases hback with
  | present _ => exact ⟨fun _ _ => rfl, hdes⟩
  | appended cut' _ hother hlt hbefore hat hlisted =>
    refine ⟨hother, ?_, fun p hp => ?_⟩
    · rcases Nat.eq_zero_or_pos (listed R (cut src.id)).length with hzero | hpos
      · rw [← hzero, hat]
        exact hsn
      · rw [hbefore 0 hpos]
        exact hdes.first
    · rw [hlisted] at hp
      exact hmem p ((List.takeWhile_prefix _).subset hp)
  | chosen cut' _ hother hlen hslots =>
    refine ⟨hother, hmem _ (hslots 0 hR), fun p hp => ?_⟩
    obtain ⟨t, ht, rfl⟩ := exists_of_mem_listed hp
    exact hmem _ (hslots t (ht.trans_le (length_listed_le R _)))

-- ---------------------------------------------------------------------------
-- Links in both directions
-- ---------------------------------------------------------------------------

/-- `u` is listed for `q`. -/
def Has (R : ℕ) (cut : CutGraph K) (q u : ℕ) : Prop := ∃ p ∈ listed R (cut q), p.id = u

/-- All places of `u` are listed. -/
def Full (R : ℕ) (cut : CutGraph K) (u : ℕ) : Prop := (listed R (cut u)).length = R

/-- The links of the nodes in `P` are there in the other direction too, or the other end is
full. -/
def Mutual (R : ℕ) (cut : CutGraph K) (P : ℕ → Prop) : Prop :=
  ∀ q, P q → ∀ u, Has R cut q u → Has R cut u q ∨ Full R cut u

variable (hne : ∀ a < nd, ∀ b < nd, d a b ≠ -1)

include hne

/-- For a metric that is never -1, a pass lists `n` at the other end or leaves it full,
and loses a link there only if it is. -/
theorem LinkedBack.has {n : ℕ} (hn : n < nd) {src : SimpleNeighbor K}
    (hsrc : IsLink d nd n src) {cut' : CutGraph K} (hback : LinkedBack d R n cut src cut') :
    (∀ q, q ≠ src.id → cut' q = cut q) ∧
      (Has R cut' src.id n ∨ Full R cut' src.id) ∧
      (∀ v u, Has R cut v u ∨ Full R cut v → Has R cut' v u ∨ Full R cut' v) ∧
      ∀ u, Has R cut' src.id u → Has R cut src.id u ∨ u = n := by
  have hsn := hsrc.symm hsymm hn
  have hlink : ∀ p ∈ listed R (cut src.id) ++ [(⟨n, src.distance⟩ : SimpleNeighbor K)],
      p.distance ≠ -1 := by
    intro p hp
    rcases List.mem_append.mp hp with hp | hp
    · exact listed_ne hp
    · rw [List.mem_singleton.mp hp, hsn.2]
      exact hne _ hsrc.1 _ hn
  have hids : ∀ p ∈ listed R (cut src.id) ++ [(⟨n, src.distance⟩ : SimpleNeighbor K)],
      Has R cut src.id p.id ∨ p.id = n := by
    intro p hp
    rcases List.mem_append.mp hp with hp | hp
    · exact Or.inl ⟨p, hp, rfl⟩
    · rw [List.mem_singleton.mp hp]
      exact Or.inr rfl
  -- other lists do not change
  suffices hsuff : (∀ q, q ≠ src.id → cut' q = cut q) ∧
      (Has R cut' src.id n ∨ Full R cut' src.id) ∧
      (∀ u, Has R cut src.id u ∨ Full R cut src.id → Has R cut' src.id u ∨ Full R cut' src.id) ∧
      ∀ u, Has R cut' src.id u → Has R cut src.id u ∨ u = n by
    obtain ⟨hother, hnew, hkept, hold⟩ := hsuff
    refine ⟨hother, hnew, fun v u hv => ?_, hold⟩
    by_cases heq : v = src.id
    · subst heq
      exact hkept u hv
    · unfold Has Full
      rw [hother v heq]
      exact hv
  cases hback with
  | present hpresent => exact ⟨fun _ _ => rfl, Or.inl hpresent, fun _ hu => hu, fun _ hu => Or.inl hu⟩
  | appended cut' _ hother hlt hbefore hat hlisted =>
    have hall : listed R (cut' src.id) = listed R (cut src.id) ++ [⟨n, src.distance⟩] := by
      rw [hlisted]
      exact List.takeWhile_eq_self_iff.mpr fun p hp => decide_eq_true (hlink p hp)
    refine ⟨hother, Or.inl ⟨⟨n, src.distance⟩, by rw [hall]; simp, rfl⟩, fun u hu => ?_,
      fun u ⟨p, hp, heq⟩ => ?_⟩
    · obtain ⟨p, hp, heq⟩ := hu.resolve_right hlt.ne
      exact Or.inl ⟨p, by rw [hall]; exact List.mem_append_left _ hp, heq⟩
    · rw [hall] at hp
      exact heq ▸ hids p hp
  | chosen cut' _ hother hlen hslots =>
    have hall : listed R (cut' src.id) = (List.range R).map (cut' src.id) := by
      refine listed_of_ne (by simp) (fun t ht => by simp) (fun hlt => ?_) fun p hp => ?_
      · simp at hlt
      · obtain ⟨t, ht, rfl⟩ := List.mem_map.mp hp
        exact hlink _ (hslots t (List.mem_range.mp ht))
    have hfull : Full R cut' src.id := by
      rw [Full, hall, List.length_map, List.length_range]
    refine ⟨hother, Or.inr hfull, fun _ _ => Or.inr hfull, fun u ⟨p, hp, heq⟩ => ?_⟩
    obtain ⟨t, ht, rfl⟩ := exists_of_mem_listed hp
    exact heq ▸ hids _ (hslots t (ht.trans_le (length_listed_le R _)))

/-- **One pass** keeps links mutual. -/
theorem Mutual.linkBack {P : ℕ → Prop} (hmutual : Mutual R cut P) {n : ℕ}
    (hn : n < nd) {src : SimpleNeighbor K} (hsrc : IsLink d nd n src) (hhas : Has R cut n src.id)
    {cut' : CutGraph K} (hback : LinkedBack d R n cut src cut') : Mutual R cut' P := by
  obtain ⟨hother, -, hstays, hids⟩ := hback.has hsymm hne hn hsrc
  intro q hq u hu
  by_cases heq : q = src.id
  · subst heq
    rcases hids u hu with hold | rfl
    · exact hstays u src.id (hmutual _ hq u hold)
    · exact hstays u src.id (Or.inl hhas)
  · refine hstays u q (hmutual q hq u ?_)
    unfold Has at hu ⊢
    rw [← hother q heq]
    exact hu

end Symmetric

-- ---------------------------------------------------------------------------
-- All links of a node
-- ---------------------------------------------------------------------------

/-- A link of `n` to itself is listed already: its own places do not change. -/
theorem linkBack_self (T : SimpleSorting K) {n i : ℕ} (hi : i < (listed R (cut n)).length) :
    linkBack T d R n cut (cut n i) n = cut n := by
  have hback := linkBack_spec T d R n cut (cut n i)
  by_cases heq : (cut n i).id = n
  · have hhas : ∃ p ∈ listed R (cut (cut n i).id), p.id = n :=
      ⟨cut n i, by rw [heq]; exact slot_mem_listed hi, heq⟩
    generalize linkBack T d R n cut (cut n i) = cut' at hback ⊢
    cases hback with
    | present _ => rfl
    | appended cut' habsent => exact absurd hhas habsent
    | chosen cut' habsent => exact absurd hhas habsent
  · generalize linkBack T d R n cut (cut n i) = cut' at hback ⊢
    cases hback with
    | present _ => rfl
    | appended cut' _ hother => exact hother n (Ne.symm heq)
    | chosen cut' _ hother => exact hother n (Ne.symm heq)

/-- **The loop of `InterInsert`** goes through the list of `n`, which stays as it is. -/
theorem interInsert_rule (T : SimpleSorting K) {n : ℕ} (slots : ℕ → SimpleNeighbor K)
    (J : ℕ → CutGraph K → Prop)
    (hstep : ∀ i cut, i < (listed R slots).length → cut n = slots → J i cut →
      J (i + 1) (linkBack T d R n cut (slots i))) (k : ℕ) {i : ℕ} (hi : i + k = R)
    (hle : i ≤ (listed R slots).length) (hcut : cut n = slots) (hJ : J i cut) :
    interInsert T d R n (List.range' i k) cut n = slots ∧
      J (listed R slots).length (interInsert T d R n (List.range' i k) cut) := by
  induction k generalizing i cut with
  | zero =>
    have heq : i = (listed R slots).length :=
      Nat.le_antisymm hle ((length_listed_le R slots).trans_eq (by omega))
    exact ⟨hcut, heq ▸ hJ⟩
  | succ k ih =>
    rw [List.range'_succ, interInsert, hcut]
    split
    · next hend =>
      -- an end is behind the list
      have heq : i = (listed R slots).length := by
        refine Nat.le_antisymm hle (not_lt.mp fun hlt => ?_)
        exact listed_ne (slot_mem_listed hlt) hend
      exact ⟨hcut, heq ▸ hJ⟩
    · next hne =>
      have hlt : i < (listed R slots).length := by
        refine lt_of_le_of_ne hle fun heq => hne ?_
        rw [heq]
        exact end_of_listed (by omega)
      refine ih (by omega) hlt ?_ (hstep i cut hlt hcut hJ)
      rw [← hcut]
      exact linkBack_self T (by rw [hcut]; exact hlt)

end Places

-- ---------------------------------------------------------------------------
-- The links of all nodes
-- ---------------------------------------------------------------------------

section Linking

variable [Zero K] (index : IndexNSG) (S : Sorting K) (T : SimpleSorting K) (D : Distance V K)
  (data : ℕ → V) {L R : ℕ}

/-- The distance of two points. -/
def pointDistance (D : Distance V K) (data : ℕ → V) (a b : ℕ) : K := D.compare (data a) (data b)

omit [LinearOrder K] [One K] [Neg K] [Zero K] in
theorem pointDistance_symm (a b : ℕ) : pointDistance D data a b = pointDistance D data b a :=
  D.compare_comm _ _

/-- The links `result` of `n`, and the sorted candidates `pool` that they are chosen from: all
that the search for `n` evaluates, and its neighbours in the kNN graph. -/
structure Chosen (index : IndexNSG) (S : Sorting K) (D : Distance V K) (data : ℕ → V) (L R C n : ℕ)
    (rng : ℕ → ℕ) (pool result : List (SimpleNeighbor K)) : Prop where
  sorted    : pool.Pairwise fun a b => a.distance ≤ b.distance
  isLink    : ∀ p ∈ pool, IsLink (pointDistance D data) index.nd n p
  evaluated : ∀ c, Returns (getNeighborsFlags index S D data (data n) L rng) c →
    ∀ id, c.flags id = true → ∃ p ∈ pool, p.id = id
  knn       : ∀ id ∈ index.final_graph n, ∃ p ∈ pool, p.id = id
  rule      : LinkRule (pointDistance D data) R C n pool result

section Chosen

variable (hL : 2 ≤ L) (hLnd : L ≤ index.nd) (hR : 1 ≤ R) (C : ℕ)

include hL hLnd hR

omit [One K] [Neg K] in
/-- **The links of a node** follow the rule. -/
theorem linkNode_rule {n : ℕ} (hn : n < index.nd) {rng : ℕ → ℕ} (hrng : Covers index.nd rng) :
    ∃ pool result, Returns (linkNode index S D data L R C n rng) result ∧
      Chosen index S D data L R C n rng pool result := by
  obtain ⟨c, hret, hc, -, hcollected⟩ :=
    getNeighborsWith_returns true index S D data (data n) (by omega) hLnd hrng
  obtain ⟨hlen, hflags⟩ := hcollected rfl
  obtain ⟨pool, result, hprune, hperm, hsorted, hrule⟩ :=
    syncPrune_returns index S D data hR C n (hL.trans hlen) c.flags
  have hevaluated : ∀ id, c.flags id = true → ∃ p ∈ pool, p.id = id := by
    intro id hid
    obtain ⟨nn, hnn, rfl⟩ := List.mem_map.mp (hflags id hid)
    exact ⟨⟨nn.id, nn.distance⟩, hperm.mem_iff.mpr (List.mem_append_left _
      (List.mem_map_of_mem (f := fun nn => (⟨nn.id, nn.distance⟩ : SimpleNeighbor K)) hnn)), rfl⟩
  refine ⟨pool, result, hret.bind hprune, hsorted, fun p hp => ?_, fun c' hc' => ?_,
    fun id hid => ?_, hrule⟩
  · rcases List.mem_append.mp (hperm.mem_iff.mp hp) with hp | hp
    · obtain ⟨nn, hnn, rfl⟩ := List.mem_map.mp hp
      exact hc.entry nn hnn
    · obtain ⟨id, hid, rfl⟩ := List.mem_map.mp hp
      exact ⟨index.graph_lt n hn id (List.mem_filter.mp hid).1, rfl⟩
  · rw [hc'.unique hret]
    exact hevaluated
  · by_cases hflag : c.flags id = true
    · exact hevaluated id hflag
    · refine ⟨⟨id, D.compare (data n) (data id)⟩, hperm.mem_iff.mpr (List.mem_append_right _ ?_), rfl⟩
      refine List.mem_map_of_mem (f := fun id => (⟨id, D.compare (data n) (data id)⟩ : SimpleNeighbor K))
        (List.mem_filter.mpr ⟨hid, ?_⟩)
      simpa using hflag

variable {order : List ℕ} (horder : order.Perm (List.range index.nd)) {rng : ℕ → ℕ → ℕ}
  (hrng : ∀ n < index.nd, Covers index.nd (rng n)) (cut : CutGraph K)

include horder hrng

/-- **The first loop**: whatever the order, a node has the places that its own thread has written. -/
theorem linkNodes_written : ∃ cut', Returns (linkNodes index S D data L R C order rng cut) cut' ∧
    ∀ n < index.nd, ∃ before pool result, Chosen index S D data L R C n (rng n) pool result ∧
      cut' n = writeLinks R before n result n := by
  let Written : List ℕ → CutGraph K → Prop := fun pre cut => ∀ n ∈ pre,
    ∃ before pool result, Chosen index S D data L R C n (rng n) pool result ∧
      cut n = writeLinks R before n result n
  have hstep : ∀ pre n post cut, order = pre ++ n :: post → Written pre cut →
      ∃ cut', Returns (do
        let result ← linkNode index S D data L R C n (rng n)
        pure (writeLinks R cut n result)) cut' ∧ Written (pre ++ [n]) cut' := by
    intro pre n post cut hsplit hpre
    have hn : n < index.nd := List.mem_range.mp (horder.subset (by rw [hsplit]; simp))
    obtain ⟨pool, result, hret, hchosen⟩ := linkNode_rule index S D data hL hLnd hR C hn (hrng n hn)
    refine ⟨writeLinks R cut n result, hret.bind (returns_pure _), fun q hq => ?_⟩
    by_cases heq : q = n
    · rw [heq]
      exact ⟨cut, pool, result, hchosen, rfl⟩
    · rw [writeLinks_of_ne cut heq]
      rcases List.mem_append.mp hq with hq | hq
      · exact hpre q hq
      · exact absurd (List.mem_singleton.mp hq) heq
  obtain ⟨cut', hret, hwritten⟩ := foldlM_returns Written hstep (s := cut)
    (fun q hq => absurd hq List.not_mem_nil)
  exact ⟨cut', hret, fun n hn => hwritten n (horder.mem_iff.mpr (List.mem_range.mpr hn))⟩

/-- Every node has links. -/
theorem linkNodes_returns : ∃ cut', Returns (linkNodes index S D data L R C order rng cut) cut' ∧
    CutInv (pointDistance D data) index.nd R cut' := by
  obtain ⟨cut', hret, hwritten⟩ :=
    linkNodes_written index S D data hL hLnd hR C horder hrng cut
  refine ⟨cut', hret, fun n hn => ?_⟩
  obtain ⟨before, pool, result, hchosen, hslots⟩ := hwritten n hn
  obtain ⟨p, rest, hcons, -⟩ := hchosen.rule.closest
  rw [hslots]
  exact hasLinks_writeLinks before (by rw [hcons]; exact List.cons_ne_nil _ _) hchosen.rule.length
    fun p hp => hchosen.isLink p (hchosen.rule.sublist.subset hp)

end Chosen

omit [Zero K] in
/-- One call of `InterInsert`. -/
theorem interInsert_inv {d : ℕ → ℕ → K} {nd : ℕ} (hsymm : ∀ a b, d a b = d b a) (hR : 1 ≤ R)
    {cut : CutGraph K} (h : CutInv d nd R cut) {n : ℕ} (hn : n < nd) :
    CutInv d nd R (interInsert T d R n (List.range R) cut) ∧
      ((∀ a < nd, ∀ b < nd, d a b ≠ -1) → Mutual R cut (· < n) →
        Mutual R (interInsert T d R n (List.range R) cut) (· < n + 1)) := by
  -- the links of `n` that have been gone through are there in the other direction
  obtain ⟨hsame, hinv, hdone⟩ := interInsert_rule (d := d) T (n := n) (cut n)
    (fun i cut' => CutInv d nd R cut' ∧ ((∀ a < nd, ∀ b < nd, d a b ≠ -1) → Mutual R cut (· < n) →
      Mutual R cut' (· < n) ∧
        ∀ j < i, Has R cut' (cut n j).id n ∨ Full R cut' (cut n j).id))
    (fun i cut' hi hslots hJ => by
      have hlisted : cut n i ∈ listed R (cut' n) := by
        rw [hslots]
        exact slot_mem_listed hi
      have hsrc : IsLink d nd n (cut n i) := (hJ.1 n hn).listed _ hlisted
      have hback := linkBack_spec T d R n cut' (cut n i)
      refine ⟨hJ.1.linkBack hsymm hn hsrc hback hR, fun hne hmutual => ?_⟩
      obtain ⟨hmutual', hbefore⟩ := hJ.2 hne hmutual
      obtain ⟨-, hnew, hstays, -⟩ := hback.has hsymm hne hn hsrc
      refine ⟨hmutual'.linkBack hsymm hne hn hsrc ⟨cut n i, hlisted, rfl⟩ hback, fun j hj => ?_⟩
      rcases Nat.lt_or_eq_of_le (Nat.le_of_lt_succ hj) with hlt | rfl
      · exact hstays _ _ (hbefore j hlt)
      · exact hnew)
    R (Nat.zero_add R) (Nat.zero_le _) rfl
    ⟨h, fun _ hmutual => ⟨hmutual, fun j hj => absurd hj (Nat.not_lt_zero j)⟩⟩
  rw [← List.range_eq_range'] at hsame hinv hdone
  refine ⟨hinv, fun hne hmutual q hq u hu => ?_⟩
  obtain ⟨hbefore, hlinks⟩ := hdone hne hmutual
  rcases Nat.lt_or_eq_of_le (Nat.le_of_lt_succ hq) with hlt | rfl
  · exact hbefore q hlt u hu
  · obtain ⟨p, hp, rfl⟩ := hu
    rw [hsame] at hp
    obtain ⟨j, hj, rfl⟩ := exists_of_mem_listed hp
    exact hlinks j hj

omit [Zero K] in
/-- The second loop: links stay links, and become mutual. -/
theorem interInsertAll_inv {d : ℕ → ℕ → K} {nd : ℕ} (hsymm : ∀ a b, d a b = d b a) (hR : 1 ≤ R)
    {cut : CutGraph K} (h : CutInv d nd R cut) {k : ℕ} (hk : k ≤ nd) :
    CutInv d nd R ((List.range k).foldl (fun cut n => interInsert T d R n (List.range R) cut) cut) ∧
      ((∀ a < nd, ∀ b < nd, d a b ≠ -1) → Mutual R ((List.range k).foldl (fun cut n =>
        interInsert T d R n (List.range R) cut) cut) (· < k)) := by
  induction k with
  | zero => exact ⟨h, fun _ q hq => absurd hq (Nat.not_lt_zero q)⟩
  | succ k ih =>
    obtain ⟨hinv, hmutual⟩ := ih (by omega)
    obtain ⟨hinv', hmutual'⟩ := interInsert_inv T hsymm hR hinv (n := k) (by omega)
    rw [List.range_succ, List.foldl_append, List.foldl_cons, List.foldl_nil]
    exact ⟨hinv', fun hne => hmutual' hne (hmutual hne)⟩

/-- **Linking.** It ends where `rand()` covers all ids, and then what is listed for a node are
links with their distances. For a metric that is never -1 each node has at least one,
and each link is there in both directions, or its other end is full. -/
theorem link_returns (hL : 2 ≤ L) (hLnd : L ≤ index.nd) (hR : 1 ≤ R) (C : ℕ) {order : List ℕ}
    (horder : order.Perm (List.range index.nd)) {rng : ℕ → ℕ → ℕ}
    (hrng : ∀ n < index.nd, Covers index.nd (rng n)) (cut : CutGraph K) :
    ∃ cut', Returns (link index S T D data L R C order rng cut) cut' ∧
      CutInv (pointDistance D data) index.nd R cut' ∧
      ((∀ a < index.nd, ∀ b < index.nd, D.compare (data a) (data b) ≠ -1) →
        (∀ q < index.nd, listed R (cut' q) ≠ []) ∧ Mutual R cut' (· < index.nd)) := by
  obtain ⟨cut₁, hret, hinv⟩ := linkNodes_returns index S D data hL hLnd hR C horder hrng cut
  obtain ⟨hinv', hmutual⟩ := interInsertAll_inv T (pointDistance_symm D data) hR hinv
    (le_refl index.nd)
  refine ⟨_, hret.bind (returns_pure _), hinv', fun hne => ⟨fun q hq hnil => ?_, hmutual hne⟩⟩
  -- the first place would be the end
  have hend := end_of_listed (lt_of_eq_of_lt (congrArg List.length hnil) hR)
  rw [hnil, List.length_nil] at hend
  obtain ⟨hlt, hdist⟩ := (hinv' q hq).first
  exact hne q hq _ hlt (hdist.symm.trans hend)

end Linking

end Mqo.Build.Nsg
