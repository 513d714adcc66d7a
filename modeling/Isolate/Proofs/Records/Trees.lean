import Isolate.Expr.Encoding
import Isolate.Expr.Order
import Isolate.Proofs.Isolating.Found
import Isolate.Proofs.Records.Numerals
import Mathlib

/-!
# Trees read back from their records

A record has one entry for the node, and the reader comes to this entry whatever the node is. It therefore reads a node
whose operands it reads (`Expr.ofJsonWithin_toJson_succ`), and as records are nested no deeper than their depth says, it
reads every tree (`Expr.ofJson_toJson`). What an analysis noted is not written, so it is the bare tree that comes back.

* `Equation.ofJson_toJson`: the same of equations.
* `records_faithful`: both, and that trees with one record are the same but for their analyses.
-/

namespace Isolate

/-! ## Depth of records -/

namespace Json

theorem depth_le_of_mem_items {v : Json} {vs : List Json} (h : v ∈ vs) : v.depth ≤ depthItems vs := by
  induction vs with
  | nil => cases h
  | cons w vs ih =>
    rw [depthItems]
    rcases List.mem_cons.mp h with rfl | h
    · exact Nat.le_max_left ..
    · exact (ih h).trans (Nat.le_max_right ..)

theorem depth_le_of_mem_entries {key : String} {v : Json} {es : List (String × Json)} (h : (key, v) ∈ es) :
    v.depth ≤ depthEntries es := by
  induction es with
  | nil => cases h
  | cons e es ih =>
    rw [depthEntries]
    rcases List.mem_cons.mp h with rfl | h
    · exact Nat.le_max_left ..
    · exact (ih h).trans (Nat.le_max_right ..)

theorem depth_lt_array {v : Json} {vs : List Json} (h : v ∈ vs) : v.depth < (array vs).depth := by
  have := depth_le_of_mem_items h
  rw [depth]
  omega

theorem depth_lt_object {v : Json} {es : List (String × Json)} (key : String) (h : (key, v) ∈ es) :
    v.depth < (object es).depth := by
  have := depth_le_of_mem_entries h
  rw [depth]
  omega

end Json

theorem Ratio.depth_lt_toJson {r : Ratio Json} {v : Json} (h : v ∈ r.factors) : v.depth < r.toJson.depth := by
  rcases List.mem_append.mp h with h | h
  · exact (Json.depth_lt_array h).trans (Json.depth_lt_object "numerator" (by simp))
  · exact (Json.depth_lt_array h).trans (Json.depth_lt_object "denominator" (by simp))

/-- An operand's record is inside the entry. -/
theorem Shape.depth_lt_toEntry {b : Shape Json} {v : Json} (h : v ∈ b.children) : v.depth < b.toEntry.2.depth := by
  cases b with
  | number q => cases h
  | var n => cases h
  | power a c =>
    rcases List.mem_cons.mp h with rfl | h
    · exact Json.depth_lt_object "base" (by simp)
    · obtain rfl := List.mem_singleton.mp h
      exact Json.depth_lt_object "power" (by simp)
  | modulo a c =>
    rcases List.mem_cons.mp h with rfl | h
    · exact Json.depth_lt_object "lhs" (by simp)
    · obtain rfl := List.mem_singleton.mp h
      exact Json.depth_lt_object "rhs" (by simp)
  | factorial a =>
    obtain rfl := List.mem_singleton.mp h
    exact Json.depth_lt_object "child" (by simp)
  | call n as =>
    have hv : v ∈ as := h
    exact (Json.depth_lt_array hv).trans (Json.depth_lt_object "arguments" (by simp))
  | sum ts =>
    obtain ⟨t, ht, hv⟩ := List.mem_flatMap.mp h
    exact (Ratio.depth_lt_toJson hv).trans (Json.depth_lt_array (List.mem_map_of_mem ht))

/-! ## Reading what was written -/

/-- A list is read item by item. -/
theorem mapM_map_eq_ok {read : β → Except Fault γ} {write : α → β} {f : α → γ} {as : List α}
    (h : ∀ a ∈ as, read (write a) = .ok (f a)) : (as.map write).mapM read = .ok (as.map f) := by
  induction as with
  | nil => rfl
  | cons a as ih =>
    obtain ⟨ha, has⟩ := List.forall_mem_cons.mp h
    rw [List.map_cons, List.mapM_cons, ha, ih has]
    rfl

namespace Expr

variable {e : Expr} {fuel : Nat}

theorem toJson_eq (e : Expr) :
    e.toJson = .object [("sign", .string e.sign.text), (e.shape.map toJson).toEntry] := fold_eq ..

/-- An operand's record is inside the record. -/
theorem depth_lt_toJson {a : Expr} (h : a ∈ e.children) : a.toJson.depth < e.toJson.depth := by
  have hentry : a.toJson.depth < (e.shape.map toJson).toEntry.2.depth :=
    Shape.depth_lt_toEntry (by rw [Shape.children_map]; exact List.mem_map_of_mem h)
  rw [toJson_eq e]
  exact hentry.trans (Json.depth_lt_object (e.shape.map toJson).toEntry.1 (by simp))

/-- Terms are read if their factors are. -/
theorem readTerms_toJson (read : Json → Except Fault Expr) {ts : List (Ratio Expr)}
    (h : ∀ t ∈ ts, ∀ a ∈ t.factors, read a.toJson = .ok a.bare) :
    ((ts.map (Ratio.map toJson)).map Ratio.toJson).mapM (fun t => do
      return (⟨← (← t.getList "numerator").mapM read, ← (← t.getList "denominator").mapM read⟩ : Ratio Expr)) =
      .ok (ts.map (Ratio.map bare)) := by
  rw [List.map_map]
  refine mapM_map_eq_ok fun t ht => ?_
  have hn : (t.numerator.map toJson).mapM read = .ok (t.numerator.map bare) :=
    mapM_map_eq_ok fun a ha => h t ht a (List.mem_append_left _ ha)
  have hd : (t.denominator.map toJson).mapM read = .ok (t.denominator.map bare) :=
    mapM_map_eq_ok fun a ha => h t ht a (List.mem_append_right _ ha)
  simp [Ratio.map, Ratio.toJson, Json.getList, List.lookup, Json.members, ok_bind, hn, hd]

/-- A node is read if its operands are. -/
theorem ofJsonWithin_toJson_succ (h : ∀ a ∈ e.children, ofJsonWithin fuel a.toJson = .ok a.bare) :
    ofJsonWithin (fuel + 1) e.toJson = .ok e.bare := by
  have hsign : ∀ rest, Sign.ofRecord (.object (("sign", .string e.sign.text) :: rest)) = .ok e.sign := fun rest => by
    simp [Sign.ofRecord, List.lookup]
  rw [toJson_eq, bare_eq, ofJsonWithin, hsign]
  obtain ⟨s, b, c⟩ := e
  cases b with
  | number q => simp [Shape.map, Shape.toEntry, Json.get?, List.lookup, Number.ofJson, Number.ofText_text, ok_bind]
  | var n => simp [Shape.map, Shape.toEntry, Json.get?, List.lookup, Json.text, ok_bind]
  | power a d =>
    have ha : ofJsonWithin fuel a.toJson = .ok a.bare := h a (by simp [children, Shape.children])
    have hd : ofJsonWithin fuel d.toJson = .ok d.bare := h d (by simp [children, Shape.children])
    simp [Shape.map, Shape.toEntry, Json.get?, List.lookup, Json.get, ok_bind, ha, hd]
  | modulo a d =>
    have ha : ofJsonWithin fuel a.toJson = .ok a.bare := h a (by simp [children, Shape.children])
    have hd : ofJsonWithin fuel d.toJson = .ok d.bare := h d (by simp [children, Shape.children])
    simp [Shape.map, Shape.toEntry, Json.get?, List.lookup, Json.get, ok_bind, ha, hd]
  | factorial a =>
    have ha : ofJsonWithin fuel a.toJson = .ok a.bare := h a (by simp [children, Shape.children])
    simp [Shape.map, Shape.toEntry, Json.get?, List.lookup, Json.get, ok_bind, ha]
  | call n as =>
    have has : (as.map toJson).mapM (ofJsonWithin fuel) = .ok (as.map bare) := mapM_map_eq_ok h
    simp [Shape.map, Shape.toEntry, Json.get?, List.lookup, Json.get, Json.getList, Json.members, Json.text, ok_bind, has]
  | sum ts =>
    have hts := readTerms_toJson (ofJsonWithin fuel) fun t ht a ha => h a (List.mem_flatMap.mpr ⟨t, ht, ha⟩)
    simp [-bind_pure_comp, -List.mapM_map, -List.map_map, Shape.map, Shape.toEntry, Json.get?, List.lookup,
      Json.members, ok_bind, hts]
    rfl

/-- The record of a tree is read as the tree without analyses, if it may be nested deeply enough. -/
theorem ofJsonWithin_toJson (h : e.toJson.depth ≤ fuel) : ofJsonWithin fuel e.toJson = .ok e.bare := by
  induction e using Expr.induction generalizing fuel with
  | h e ih =>
    cases fuel with
    | zero =>
      rw [toJson_eq, Json.depth] at h
      omega
    | succ fuel => exact ofJsonWithin_toJson_succ fun a ha => ih a ha (by have := depth_lt_toJson ha; omega)

/-- **The record of a tree is read as the tree without analyses.** -/
theorem ofJson_toJson (e : Expr) : ofJson e.toJson = .ok e.bare := ofJsonWithin_toJson le_rfl

/-- A recursion that does not look at analyses gives the same for the bare tree. -/
theorem fold_bare {f : Expr → Shape α → α} (hf : ∀ e b, f e.bare b = f e b) (e : Expr) : e.bare.fold f = e.fold f := by
  induction e using Expr.induction with
  | h e ih =>
    have hshape : e.shape.map (fold f ∘ bare) = e.shape.map (fold f) := Shape.map_congr ih
    rw [fold_eq, fold_eq, hf, bare_eq, Shape.map_map, hshape]

/-- A record does not show analyses. -/
theorem toJson_bare (e : Expr) : e.bare.toJson = e.toJson := fold_bare (fun e b => by rw [bare_eq]) e

end Expr

namespace Equation

/-- **The record of an equation is read as the equation without analyses.** -/
theorem ofJson_toJson (q : Equation) : ofJson q.toJson = .ok q.bare := by
  have hsides : (q.sides.map Expr.toJson).mapM Expr.ofJson = .ok (q.sides.map Expr.bare) :=
    mapM_map_eq_ok fun e _ => Expr.ofJson_toJson e
  rw [ofJson, toJson]
  simp [-List.mapM_map, Json.getList, List.lookup, Json.members, ok_bind, hsides, bare]

theorem toJson_bare (q : Equation) : q.bare.toJson = q.toJson := by
  simp only [toJson, bare, List.map_map, Function.comp_def, Expr.toJson_bare]

end Equation

/-- **Nothing but analyses is lost in a record.** A tree is read back from its record, and so is an equation; trees,
and equations, have one record exactly if they are the same but for their analyses. -/
theorem records_faithful :
    (∀ e : Expr, Expr.ofJson e.toJson = .ok e.bare) ∧
    (∀ q : Equation, Equation.ofJson q.toJson = .ok q.bare) ∧
    (∀ a b : Expr, a.toJson = b.toJson ↔ a.bare = b.bare) ∧
    (∀ p q : Equation, p.toJson = q.toJson ↔ p.bare = q.bare) := by
  refine ⟨Expr.ofJson_toJson, Equation.ofJson_toJson, fun a b => ⟨fun h => ?_, fun h => ?_⟩,
    fun p q => ⟨fun h => ?_, fun h => ?_⟩⟩
  · have hread : (Except.ok a.bare : Except Fault Expr) = .ok b.bare := by
      rw [← Expr.ofJson_toJson a, h, Expr.ofJson_toJson b]
    exact Except.ok.inj hread
  · rw [← Expr.toJson_bare a, h, Expr.toJson_bare b]
  · have hread : (Except.ok p.bare : Except Fault Equation) = .ok q.bare := by
      rw [← Equation.ofJson_toJson p, h, Equation.ofJson_toJson q]
    exact Except.ok.inj hread
  · rw [← Equation.toJson_bare p, h, Equation.toJson_bare q]

end Isolate
