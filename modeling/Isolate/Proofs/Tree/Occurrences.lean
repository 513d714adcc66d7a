import Isolate.Expr.Traversal
import Mathlib.Data.List.Basic

/-!
# What a traversal visits

An expression may occur at several places of a tree, so what is visited are occurrences: a node with its position, which
holds the numbers of the operands on the way down to it. `Expr.occurrences` lists all of them in the order of visits.
It is given by two properties: a node is listed at a position just if it is there (`Expr.mem_occurrences_iff`), and of
two positions the one that comes first in the order of visits is listed first (`Expr.pairwise_occurrences`). As no
position comes before itself, each is listed once.

* `Expr.visited_eq_filter`: what is visited within a reach are the occurrences that the reach covers by their depths.
* `Expr.visited_levels`: a traversal within a number of levels is the full one, cut by depth.
-/

namespace Isolate

/-- A node at a place of a tree. The position holds the numbers of the operands on the way down. -/
structure Occurrence where
  position : List Nat
  node : Expr

namespace Occurrence

/-- How far down the node is. -/
def depth (o : Occurrence) : Nat := o.position.length

/-- What occurs in an operand, as it occurs in the tree. -/
def under (i : Nat) (o : Occurrence) : Occurrence := ⟨i :: o.position, o.node⟩

@[simp] theorem depth_under (i : Nat) (o : Occurrence) : (o.under i).depth = o.depth + 1 := rfl

@[simp] theorem node_under (i : Nat) (o : Occurrence) : (o.under i).node = o.node := rfl

end Occurrence

/-! ## The order of visits -/

namespace Visiting

variable {order : Visiting}

/-- Is the first position visited before the second? Operands are visited from left to right, each with all that is
below it. A node comes before its operands from the top down, and after them from the bottom up. -/
def Before (order : Visiting) : List Nat → List Nat → Prop
  | [], [] => False
  | [], _ :: _ => order = .topDown
  | _ :: _, [] => order = .bottomUp
  | i :: p, j :: q => i < j ∨ i = j ∧ order.Before p q

theorem not_before_self (p : List Nat) : ¬ order.Before p p := by
  induction p with
  | nil => exact id
  | cons i p ih => simp [Before, ih]

/-- Puts a node and what is below it into the order of visits. -/
def place (order : Visiting) (here : α) (below : List α) : List α :=
  match order with
  | .topDown => here :: below
  | .bottomUp => below ++ [here]

theorem map_place (f : α → β) (here : α) (below : List α) :
    (order.place here below).map f = order.place (f here) (below.map f) := by
  cases order <;> simp [place]

theorem filter_place (p : α → Bool) {here : α} (h : p here = true) (below : List α) :
    (order.place here below).filter p = order.place here (below.filter p) := by
  cases order <;> simp [place, h]

theorem mem_place {here a : α} {below : List α} : a ∈ order.place here below ↔ a = here ∨ a ∈ below := by
  cases order <;> simp [place, or_comm]

theorem pairwise_place {R : α → α → Prop} {here : α} {below : List α} :
    (order.place here below).Pairwise R ↔
      below.Pairwise R ∧ ∀ a ∈ below, (order = .topDown → R here a) ∧ (order = .bottomUp → R a here) := by
  cases order <;> simp [place, List.pairwise_append, and_comm]

end Visiting

/-! ## Occurrences -/

namespace Expr

variable {order : Visiting} {e : Expr}

/-- The node at a position. -/
def at? : List Nat → Expr → Option Expr
  | [], e => some e
  | i :: p, e => e.children[i]?.bind (at? p)

/-- All occurrences in a tree, in the order of visits. -/
def occurrences (order : Visiting) (e : Expr) : List Occurrence := e.fold fun e b =>
  order.place ⟨[], e⟩ (b.children.zipIdx.flatMap fun (os, i) => os.map (Occurrence.under i))

/-- The occurrences below the top. -/
def occurrencesBelow (order : Visiting) (e : Expr) : List Occurrence :=
  e.children.zipIdx.flatMap fun (a, i) => (a.occurrences order).map (Occurrence.under i)

theorem occurrences_eq (order : Visiting) (e : Expr) :
    e.occurrences order = order.place ⟨[], e⟩ (e.occurrencesBelow order) := by
  rw [occurrences, fold_eq, Shape.children_map, List.zipIdx_map, List.flatMap_map]
  rfl

theorem mem_occurrencesBelow_iff {o : Occurrence} : o ∈ e.occurrencesBelow order ↔
    ∃ i p a, e.children[i]? = some a ∧ ⟨p, o.node⟩ ∈ a.occurrences order ∧ o.position = i :: p := by
  simp only [occurrencesBelow, List.mem_flatMap, List.mem_map, Prod.exists, List.mem_zipIdx_iff_getElem?]
  constructor
  · rintro ⟨a, i, ha, o', ho', rfl⟩
    exact ⟨i, o'.position, a, ha, ho', rfl⟩
  · rintro ⟨i, p, a, ha, ho', hp⟩
    refine ⟨a, i, ha, ⟨p, o.node⟩, ho', ?_⟩
    rw [Occurrence.under, ← hp]

/-- **A node is listed at a position just if it is there.** -/
theorem mem_occurrences_iff {p : List Nat} {a : Expr} : ⟨p, a⟩ ∈ e.occurrences order ↔ e.at? p = some a := by
  induction e using Expr.induction generalizing p with
  | h e ih =>
    rw [occurrences_eq, Visiting.mem_place, mem_occurrencesBelow_iff]
    cases p with
    | nil => simp [at?, eq_comm]
    | cons i p =>
      simp only [Occurrence.mk.injEq, reduceCtorEq, false_and, false_or, List.cons.injEq, at?, Option.bind_eq_some_iff]
      constructor
      · rintro ⟨_, _, b, hb, hocc, rfl, rfl⟩
        exact ⟨b, hb, (ih b (List.mem_of_getElem? hb)).mp hocc⟩
      · rintro ⟨b, hb, hat⟩
        exact ⟨i, p, b, hb, (ih b (List.mem_of_getElem? hb)).mpr hat, rfl, rfl⟩

/-- **The occurrences are listed in the order of visits.** -/
theorem pairwise_occurrences (order : Visiting) (e : Expr) :
    (e.occurrences order).Pairwise fun o o' => order.Before o.position o'.position := by
  induction e using Expr.induction with
  | h e ih =>
    rw [occurrences_eq, Visiting.pairwise_place]
    constructor
    · -- Operands with smaller numbers come first, and within one operand it is as it is there.
      have hindex : e.children.zipIdx.Pairwise fun x y => x.2 < y.2 := by
        simp [List.pairwise_iff_getElem]
      refine List.pairwise_flatMap.mpr ⟨fun x hx => ?_, hindex.imp fun hlt o ho o' ho' => ?_⟩
      · rw [List.pairwise_map]
        exact (ih x.1 (List.mem_of_getElem? (List.mem_zipIdx_iff_getElem?.mp hx))).imp fun h => .inr ⟨rfl, h⟩
      · obtain ⟨_, -, rfl⟩ := List.mem_map.mp ho
        obtain ⟨_, -, rfl⟩ := List.mem_map.mp ho'
        exact .inl hlt
    · intro o ho
      obtain ⟨i, p, a, -, -, hp⟩ := mem_occurrencesBelow_iff.mp ho
      rw [hp]
      exact ⟨id, id⟩

example : ((Expr.mul (.call "sin" [.var "y"]) (.number 1)).occurrences .topDown).map Occurrence.position =
    [[], [0], [0, 0], [1]] := rfl

example : ((Expr.mul (.call "sin" [.var "y"]) (.number 1)).occurrences .bottomUp).map Occurrence.position =
    [[0, 0], [0], [1], []] := rfl

/-- Each occurrence is listed once. -/
theorem nodup_positions (order : Visiting) (e : Expr) : ((e.occurrences order).map Occurrence.position).Nodup := by
  refine (List.pairwise_map.mpr (pairwise_occurrences order e)).imp fun hbefore heq => ?_
  exact Visiting.not_before_self _ (heq ▸ hbefore)

end Expr

/-! ## What is within reach -/

/-- Is a node at this depth within reach? -/
def Reach.covers : Reach → Nat → Bool
  | .all, _ => true
  | .levels n, d => d ≤ n

namespace Reach

variable {reach r : Reach}

theorem covers_zero (reach : Reach) : reach.covers 0 = true := by cases reach <;> simp [covers]

theorem covers_succ_of_none (h : reach.below? = none) (d : Nat) : reach.covers (d + 1) = false := by
  cases reach with
  | all => cases h
  | levels n =>
    cases n with
    | zero => simp [covers]
    | succ n => cases h

theorem covers_succ_of_some (h : reach.below? = some r) (d : Nat) : reach.covers (d + 1) = r.covers d := by
  cases reach with
  | all =>
    cases h
    rfl
  | levels n =>
    cases n with
    | zero => cases h
    | succ n =>
      cases h
      simp [covers]

end Reach

namespace Expr

variable {order : Visiting} {reach r : Reach} {e : Expr}

theorem visited_of_none (h : reach.below? = none) : e.visited order reach = order.place e [] := by
  rw [visited_eq]
  simp only [visitStep, h]
  rfl

theorem visited_of_some (h : reach.below? = some r) :
    e.visited order reach = order.place e (e.children.flatMap (visited order r)) := by
  rw [visited_eq]
  simp only [visitStep, h, Shape.children_map, List.flatMap_map]
  rfl

/-- Below the top, everything is one level further down than in the operand. -/
theorem map_filter_occurrencesBelow (p : Nat → Bool) :
    ((e.occurrencesBelow order).filter fun o => p o.depth).map Occurrence.node =
      e.children.flatMap fun a => ((a.occurrences order).filter fun o => p (o.depth + 1)).map Occurrence.node := by
  have hunder : ∀ (i : Nat) (os : List Occurrence),
      ((os.map (Occurrence.under i)).filter fun o => p o.depth).map Occurrence.node =
        (os.filter fun o => p (o.depth + 1)).map Occurrence.node := fun i os => by
    simp [List.filter_map, Function.comp_def]
  rw [occurrencesBelow, List.filter_flatMap, List.map_flatMap]
  simp only [hunder]
  conv_rhs => rw [← List.zipIdx_map_fst 0 e.children, List.flatMap_map]

/-- **What is visited within a reach are the occurrences that it covers.** -/
theorem visited_eq_filter (order : Visiting) (reach : Reach) (e : Expr) :
    e.visited order reach = ((e.occurrences order).filter fun o => reach.covers o.depth).map Occurrence.node := by
  induction e using Expr.induction generalizing reach with
  | h e ih =>
    have htop : reach.covers (Occurrence.depth ⟨[], e⟩) = true := reach.covers_zero
    rw [occurrences_eq, Visiting.filter_place (fun o : Occurrence => reach.covers o.depth) htop, Visiting.map_place,
      map_filter_occurrencesBelow]
    cases h : reach.below? with
    | none =>
      rw [visited_of_none h]
      refine congrArg (order.place e) (List.flatMap_eq_nil_iff.mpr fun a _ => ?_).symm
      simp [Reach.covers_succ_of_none h]
    | some r =>
      rw [visited_of_some h]
      simp only [Reach.covers_succ_of_some h]
      exact congrArg (order.place e) (List.flatMap_congr fun a ha => ih a ha r)

/-- **A traversal within a number of levels is the full traversal, cut by depth.** The full one lists every occurrence
once, parents before what is below them or after it, as the order of visits has it. A negative number of levels counts
as zero. -/
theorem visited_levels (order : Visiting) (e : Expr) :
    e.visited order (.ofLevels none) = (e.occurrences order).map Occurrence.node ∧
    (∀ n : Int, e.visited order (.ofLevels (some n)) =
      ((e.occurrences order).filter fun o => (o.depth : Int) ≤ max n 0).map Occurrence.node) ∧
    (∀ p a, ⟨p, a⟩ ∈ e.occurrences order ↔ e.at? p = some a) ∧
    ((e.occurrences order).Pairwise fun o o' => order.Before o.position o'.position) ∧
    ((e.occurrences order).map Occurrence.position).Nodup := by
  refine ⟨?_, fun n => ?_, fun p a => mem_occurrences_iff, pairwise_occurrences order e, nodup_positions order e⟩
  · rw [Reach.ofLevels, visited_eq_filter]
    simp [Reach.covers]
  · have hcovers : ∀ d : Nat, (Reach.levels n.toNat).covers d = decide ((d : Int) ≤ max n 0) := fun d => by
      rw [Reach.covers, decide_eq_decide]
      omega
    rw [Reach.ofLevels, visited_eq_filter]
    simp only [hcovers]

end Expr

end Isolate
