import Isolate.Proofs.Reordering.Gathered

/-!
# Sorting keys

Expressions and ratios can be sorted by keys. A `Key` is a number, a text or a list of keys; keys of different kinds
cannot be compared, and lists only if the first items that differ can (`Key.compare?`).

The key of an expression (`Expr.key`) holds its sign, the kind of its node and then what the node holds. Where the kinds
of two nodes differ, numbers tell (`Shape.compareItems?_keys_of_rank_ne`), and nothing is reached that could not be
compared. So the keys of any two expressions can be compared, and they compare as the expressions do
(`Expr.compare?_key`). Equal keys are those that compare as equal (`Key.compare?_eq_iff`), hence a key tells exactly the
form.

* `Key.Orders`: keys put things in a total order.
* `Key.Orders.mergeSort_eq_iff`: lists have the same keys once they are sorted just if one list is a permutation of the
  other.
* `Key.orders_exprs_ratios`: the keys of expressions and ratios.
-/

namespace Isolate

/-- What things are sorted by. -/
inductive Key where
  | number (q : Rat)
  | text (s : String)
  | list (items : List Key)

/-! ## Comparing keys -/

namespace Key

/-- The second comparison counts where the first finds no difference; elsewhere it need not even be possible. -/
def orElse : Option Ordering → Option Ordering → Option Ordering
  | some .eq, y => y
  | x, _ => x

@[simp] theorem orElse_some (x y : Ordering) : orElse (some x) (some y) = some (x.then y) := by cases x <;> rfl

@[simp] theorem orElse_eq (x : Option Ordering) : orElse x (some .eq) = x := by rcases x with _ | _ | _ | _ <;> rfl

theorem orElse_eq_iff {x y : Option Ordering} : orElse x y = some .eq ↔ x = some .eq ∧ y = some .eq := by
  rcases x with _ | _ | _ | _ <;> simp [orElse]

mutual

/-- Numbers compare by value, texts by code point, and lists by the first items that differ, a list before its own
continuations. -/
def compare? : Key → Key → Option Ordering
  | .number p, .number q => some (compareRat p q)
  | .text s, .text t => some (Ord.compare s t)
  | .list ks, .list ls => compareItems? ks ls
  | _, _ => none

def compareItems? : List Key → List Key → Option Ordering
  | [], [] => some .eq
  | [], _ :: _ => some .lt
  | _ :: _, [] => some .gt
  | k :: ks, l :: ls => orElse (compare? k l) (compareItems? ks ls)

end

mutual

/-- Equal keys are those that compare as equal. -/
theorem compare?_eq_iff : ∀ k l : Key, compare? k l = some .eq ↔ k = l
  | .number p, l => by cases l <;> simp [compare?, Expr.compareRat_eq_iff]
  | .text s, l => by cases l <;> simp [compare?]
  | .list ks, l => by cases l <;> simp [compare?, compareItems?_eq_iff ks]

theorem compareItems?_eq_iff : ∀ ks ls : List Key, compareItems? ks ls = some .eq ↔ ks = ls
  | [], ls => by cases ls <;> simp [compareItems?]
  | k :: ks, ls => by cases ls <;> simp [compareItems?, orElse_eq_iff, compare?_eq_iff k, compareItems?_eq_iff ks]

end

/-- Items of different kinds cannot be compared, but they need not be where earlier items differ. -/
example : compare? (.list [.number 0, .text "x"]) (.list [.number 0, .number 2]) = none ∧
    compare? (.list [.number 0, .text "x"]) (.list [.number 1, .number 2]) = some .lt := by decide +kernel

theorem compareItems?_singleton (k l : Key) : compareItems? [k] [l] = compare? k l := by
  rw [compareItems?, compareItems?, orElse_eq]

theorem compareItems?_cons_self (k : Key) (ks ls : List Key) :
    compareItems? (k :: ks) (k :: ls) = compareItems? ks ls := by
  rw [compareItems?, (compare?_eq_iff k k).mpr rfl, orElse]

theorem compareRat_natCast (m n : Nat) : compareRat m n = Ord.compare m n := by
  have h : compareRat m n = Ord.compare (m : Rat) n := rfl
  rw [h]
  rcases lt_trichotomy m n with h | rfl | h
  · rw [compare_lt_iff_lt.mpr h, compare_lt_iff_lt.mpr (by exact_mod_cast h)]
  · simp
  · rw [compare_gt_iff_gt.mpr h, compare_gt_iff_gt.mpr (by exact_mod_cast h)]

/-- Can the keys be compared, and does the first sort no later than the second? -/
def le (k l : Key) : Bool := (k.compare? l).any Ordering.isLE

end Key

/-! ## Keys of expressions and ratios -/

/-- The key of a ratio, from those of its factors. -/
def Key.ofRatio (t : Ratio Key) : Key := .list [.list t.numerator, .list t.denominator]

/-- What a node holds, from the keys of its operands. -/
def Shape.contents : Shape Key → List Key
  | .number v => [.number v]
  | .var n => [.text n]
  | .power b e => [b, e]
  | .modulo a b => [a, b]
  | .factorial a => [a]
  | .call n as => [.text n, .list as]
  | .sum ts => ts.map Key.ofRatio

/-- What a node adds to the key of an expression: whether it is a sum, and then what it holds, with the kind of the node
in front if it is none. -/
def Shape.keys (b : Shape Key) : List Key :=
  match b with
  | .sum _ => [.number 1, .list b.contents]
  | _ => [.number 0, .list (.number b.rank :: b.contents)]

/-- The key of an expression: its sign, and then its node. -/
def Expr.key (e : Expr) : Key := e.fold fun e b => .list (.number e.sign.rank :: b.keys)

/-- The key of a ratio: its numerator, and then its denominator. -/
def Ratio.key (t : Ratio Expr) : Key := .ofRatio (t.map Expr.key)

namespace Shape

open Key (compareItems?)

/-- Nodes of one kind compare by what they hold. -/
theorem compareItems?_keys_of_rank_eq {b c : Shape Key} (h : b.rank = c.rank) :
    compareItems? b.keys c.keys = compareItems? b.contents c.contents := by
  have hsingle : ∀ b c : Shape Key, b.rank = c.rank →
      compareItems? [.number 0, .list (.number b.rank :: b.contents)]
        [.number 0, .list (.number c.rank :: c.contents)] = compareItems? b.contents c.contents := fun b c h => by
    rw [Key.compareItems?_cons_self, Key.compareItems?_singleton, Key.compare?, h, Key.compareItems?_cons_self]
  cases b <;> cases c <;> simp only [rank, Nat.reduceEqDiff] at h
  case sum.sum ts us =>
    rw [keys, keys, Key.compareItems?_cons_self, Key.compareItems?_singleton, Key.compare?]
  all_goals exact hsingle _ _ rfl

/-- Where the kinds of nodes differ, numbers tell. -/
theorem compareItems?_keys_of_rank_ne {b c : Shape Key} (h : b.rank ≠ c.rank) :
    compareItems? b.keys c.keys = some (Ord.compare b.rank c.rank) := by
  cases b <;> cases c <;> simp only [rank, ne_eq, not_true_eq_false] at h <;> rfl

end Shape

namespace Expr

open Key (compareItems?)

theorem key_eq (e : Expr) : e.key = .list (.number e.sign.rank :: (e.shape.map key).keys) := by rw [key, fold_eq]; rfl

mutual

/-- **The keys of any two expressions can be compared**, and compare as the expressions do. -/
theorem compare?_key : ∀ a b : Expr, a.key.compare? b.key = some (compare a b)
  | ⟨s, b, _⟩, ⟨t, c, _⟩ => by
    have hnode : compareItems? (b.map key).keys (c.map key).keys = some (compareShape b c) := by
      by_cases h : b.rank = c.rank
      · rw [Shape.compareItems?_keys_of_rank_eq (by rw [rank_map, rank_map, h]), compareItems?_contents b c h]
      · rw [Shape.compareItems?_keys_of_rank_ne (by rwa [rank_map, rank_map]), rank_map, rank_map,
          compareShape_of_rank_ne h]
    rw [key_eq, key_eq, Key.compare?, compareItems?, Key.compare?, Key.compareRat_natCast, hnode, Key.orElse_some,
      compare]

theorem compareItems?_contents : ∀ b c : Shape Expr, b.rank = c.rank →
    compareItems? (b.map key).contents (c.map key).contents = some (compareShape b c)
  | .number v, c, h => by
    cases c <;> simp only [Shape.rank, Nat.reduceEqDiff] at h
    simp [Shape.map, Shape.contents, compareItems?, Key.compare?, compareShape]
  | .var m, c, h => by
    cases c <;> simp only [Shape.rank, Nat.reduceEqDiff] at h
    simp [Shape.map, Shape.contents, compareItems?, Key.compare?, compareShape]
  | .power a b, c, h => by
    cases c <;> simp only [Shape.rank, Nat.reduceEqDiff] at h
    simp [Shape.map, Shape.contents, compareItems?, compareShape, compare?_key a, compare?_key b]
  | .modulo a b, c, h => by
    cases c <;> simp only [Shape.rank, Nat.reduceEqDiff] at h
    simp [Shape.map, Shape.contents, compareItems?, compareShape, compare?_key a, compare?_key b]
  | .factorial a, c, h => by
    cases c <;> simp only [Shape.rank, Nat.reduceEqDiff] at h
    simp [Shape.map, Shape.contents, compareItems?, compareShape, compare?_key a]
  | .call m as, c, h => by
    cases c <;> simp only [Shape.rank, Nat.reduceEqDiff] at h
    simp [Shape.map, Shape.contents, compareItems?, Key.compare?, compareShape, compareItems?_factors as]
  | .sum ts, c, h => by
    cases c <;> simp only [Shape.rank, Nat.reduceEqDiff] at h
    simp [Shape.map, Shape.contents, compareShape, compareItems?_terms ts]

theorem compareItems?_factors : ∀ as bs : List Expr,
    compareItems? (as.map key) (bs.map key) = some (compareFactors as bs)
  | [], bs => by cases bs <;> simp [compareItems?, compareFactors]
  | a :: as, bs => by
    cases bs <;> simp [compareItems?, compareFactors, compare?_key a, compareItems?_factors as]

theorem compareItems?_terms : ∀ ts us : List (Ratio Expr),
    compareItems? (ts.map (Key.ofRatio ∘ Ratio.map key)) (us.map (Key.ofRatio ∘ Ratio.map key)) =
      some (compareTerms ts us)
  | [], us => by cases us <;> simp [compareItems?, compareTerms]
  | ⟨a, b⟩ :: ts, [] => by simp [compareItems?, compareTerms]
  | ⟨a, b⟩ :: ts, ⟨c, d⟩ :: us => by
    simp [compareItems?, Key.compare?, Key.ofRatio, Ratio.map, compareTerms, compareItems?_factors a,
      compareItems?_factors b, compareItems?_terms ts]

end

theorem compare_eq_iff_beq (a b : Expr) : compare a b = .eq ↔ (a == b) = true :=
  (compare_eq_iff a b).trans (beq_iff a b).symm

end Expr

namespace Ratio

theorem compare?_key (r t : Ratio Expr) : r.key.compare? t.key = some (compare r t) := by
  simp [key, Key.ofRatio, map, compare, Key.compare?, Key.compareItems?, Expr.compareItems?_factors]

theorem fit_compare (r t u : Ratio Expr) : Fit (compare r t) (compare t u) (compare r u) :=
  (Expr.fit_compareFactors ..).lex fun _ _ => Expr.fit_compareFactors ..

theorem compare_eq_iff_beq (r t : Ratio Expr) : compare r t = .eq ↔ (r == t) = true := by
  have hfactors : ∀ as bs : List Expr, Expr.compareFactors as bs = .eq ↔ (as == bs) = true := fun as bs =>
    (Expr.compareFactors_eq_iff as bs).trans ⟨Monomial.beq_of_map_bare, Monomial.map_bare_of_beq⟩
  rw [compare, Ordering.then_eq_eq, hfactors, hfactors]
  exact (Bool.and_eq_true_iff (x := r.numerator == t.numerator) (y := r.denominator == t.denominator)).symm

end Ratio

/-! ## Sorting by keys -/

/-- The keys put things in a total order, which is the order that `compare` gives, up to the equality `==`. -/
structure Key.Orders [BEq α] (key : α → Key) (compare : α → α → Ordering) : Prop where
  /-- Any two keys can be compared. -/
  comparable (a b : α) : (key a).compare? (key b) = some (compare a b)
  /-- The key tells exactly what is equal. -/
  eq_iff (a b : α) : key a = key b ↔ (a == b) = true
  antisymm (a b : α) : (key a).le (key b) = true → (key b).le (key a) = true → key a = key b
  trans (a b c : α) : (key a).le (key b) = true → (key b).le (key c) = true → (key a).le (key c) = true
  total (a b : α) : (key a).le (key b) = true ∨ (key b).le (key a) = true

namespace Key.Orders

variable [BEq α] {key : α → Key} {compare : α → α → Ordering}

/-- Keys of which any two can be compared order what they are the keys of if the comparisons fit together. -/
theorem of_fit (hkey : ∀ a b, (key a).compare? (key b) = some (compare a b))
    (heq : ∀ a b, compare a b = .eq ↔ (a == b) = true)
    (hfit : ∀ a b c, Fit (compare a b) (compare b c) (compare a c)) : Orders key compare := by
  have hle : ∀ a b, (key a).le (key b) = (compare a b).isLE := fun a b => by rw [le, hkey, Option.any_some]
  have hkeyeq : ∀ a b, key a = key b ↔ compare a b = .eq := fun a b => by
    rw [← compare?_eq_iff, hkey, Option.some.injEq]
  have hswap : ∀ a b, compare b a = (compare a b).swap := fun a b => by
    have h := hfit a b a
    rw [(hkeyeq a a).mp rfl] at h
    exact h.swap_eq
  refine ⟨hkey, fun a b => (hkeyeq a b).trans (heq a b), fun a b => ?_, fun a b c => ?_, fun a b => ?_⟩
  · rw [hle, hle, hkeyeq, hswap a b]
    cases compare a b <;> simp
  · rw [hle, hle, hle]
    exact (hfit a b c).isLE
  · rw [hle, hle, hswap a b]
    cases compare a b <;> simp

variable (h : Orders key compare)
include h

theorem pairwise_mergeSort (as : List α) : ((as.map key).mergeSort le).Pairwise fun k l => k.le l = true := by
  have hmap : (as.mergeSort fun a b => (key a).le (key b)).map key = (as.map key).mergeSort le :=
    List.map_mergeSort fun _ _ _ _ => rfl
  rw [← hmap, List.pairwise_map]
  exact List.pairwise_mergeSort h.trans (fun a b => Bool.or_eq_true_iff.mpr (h.total a b)) as

/-- **Lists have the same keys once they are sorted just if one list is a permutation of the other**, up to equality. -/
theorem mergeSort_eq_iff (as bs : List α) :
    (as.map key).mergeSort le = (bs.map key).mergeSort le ↔ Corr (fun a b => (a == b) = true) as bs := by
  have hcorr : Corr (fun a b => (a == b) = true) as bs ↔ (as.map key).Perm (bs.map key) := by
    simp only [← h.eq_iff, corr_iff_perm]
  rw [hcorr]
  constructor
  · intro hsorted
    exact (List.mergeSort_perm _ le).symm.trans (.trans (.of_eq hsorted) (List.mergeSort_perm _ le))
  · intro hperm
    refine List.Perm.eq_of_pairwise (fun k l hk hl hkl hlk => ?_) (h.pairwise_mergeSort as) (h.pairwise_mergeSort bs)
      ((List.mergeSort_perm _ le).trans (hperm.trans (List.mergeSort_perm _ le).symm))
    obtain ⟨a, -, rfl⟩ := List.mem_map.mp ((List.mergeSort_perm _ le).mem_iff.mp hk)
    obtain ⟨b, -, rfl⟩ := List.mem_map.mp ((List.mergeSort_perm _ le).mem_iff.mp hl)
    exact h.antisymm a b hkl hlk

/-- What is sorted in order is sorted by its keys. -/
theorem map_mergeSort (as : List α) :
    (as.mergeSort fun a b => (compare a b).isLE).map key = (as.map key).mergeSort le :=
  List.map_mergeSort fun a _ b _ => by rw [le, h.comparable, Option.any_some]

end Key.Orders

/-- **Keys order expressions and ratios.** The keys of any two expressions can be compared, as can those of any two
ratios; they are the same just where the form is, and their order is total. Hence lists of expressions have the same
keys once they are sorted just if one list is, up to the form of its items, a permutation of the other. Sorting in the
order of expressions is sorting by keys. -/
theorem Key.orders_exprs_ratios :
    Key.Orders Expr.key Expr.compare ∧ Key.Orders Ratio.key Ratio.compare ∧
    (∀ as bs : List Expr, (as.map Expr.key).mergeSort Key.le = (bs.map Expr.key).mergeSort Key.le ↔
      Corr (fun a b => (a == b) = true) as bs) ∧
    ∀ as : List Expr, (Monomial.sortFactors as).map Expr.key = (as.map Expr.key).mergeSort Key.le := by
  have hexprs : Key.Orders Expr.key Expr.compare := .of_fit Expr.compare?_key Expr.compare_eq_iff_beq Expr.fit_compare
  have hratios : Key.Orders Ratio.key Ratio.compare :=
    .of_fit Ratio.compare?_key Ratio.compare_eq_iff_beq Ratio.fit_compare
  exact ⟨hexprs, hratios, hexprs.mergeSort_eq_iff, hexprs.map_mergeSort⟩

end Isolate
