import Isolate.Proofs.Writing.Legible
import Mathlib.Tactic.Choose

/-!
# Texts that mean what they were written for

The usual form of an expression, read by the usual grammar, has the meaning of the expression, as numbers, names,
operators, terms and sums of terms are legible if their operands are.

There is one place where a text is not read as it was written. A divisor that stands alone is written as a factor, and a
product of several factors needs no brackets as a factor; but behind a bar, what follows the first factor is read as
standing above it. So such divisors are left out (`Shape.IsClosed`).

* `Expr.text_reads`: the text has one reading, and this has the meaning of the expression.
-/

namespace Isolate

/-- Numbers are not negative, and names are names. -/
def Shape.IsSpelled : Shape α → Prop
  | number v => 0 ≤ v
  | var n | call n _ => IsName n
  | _ => True

instance : DecidablePred (Shape.IsSpelled : Shape α → Prop)
  | .number v => inferInstanceAs (Decidable (0 ≤ v))
  | .var n | .call n _ => inferInstanceAs (Decidable (IsName n))
  | .power _ _ | .modulo _ _ | .factorial _ | .sum _ => inferInstanceAs (Decidable True)

/-- No divisor that stands alone is written as several factors side by side. -/
def Shape.IsClosed : Shape Expr → Prop
  | sum ts => ∀ t ∈ ts, t.denominator.length = 1 → ∀ d ∈ t.denominator, d.isBareProduct = false
  | _ => True

instance : DecidablePred Shape.IsClosed
  | .sum ts => inferInstanceAs
    (Decidable (∀ t ∈ ts, t.denominator.length = 1 → ∀ d ∈ t.denominator, d.isBareProduct = false))
  | .number _ | .var _ | .power _ _ | .modulo _ _ | .factorial _ | .call _ _ => inferInstanceAs (Decidable True)

namespace Expr

variable {e : Expr} {I : Interpretation}

/-! ## Numbers and names -/

theorem lexemes_text_number {v : Rat} (hv : 0 ≤ v) : lexemes (Number.text v) =
    if v.den = 1 then [.numeral v.num.toNat] else [.numeral v.num.toNat, .over, .numeral v.den] := by
  obtain ⟨n, hn⟩ := Int.eq_ofNat_of_zero_le (Rat.num_nonneg.mpr hv)
  have hnum : toString v.num = n.repr := by
    rw [hn]
    rfl
  rw [Number.text, hnum, hn]
  split
  · exact lexemes_repr n
  · show lexemes (n.repr ++ "/" ++ v.den.repr) = _
    rw [lexemes_between (by decide) (by decide), lexemes_repr, lexemes_repr]
    rfl

theorem isLegible_number {v : Rat} (hshape : e.shape = .number v) (hv : 0 ≤ v) : e.IsLegible := by
  have hbody := lexemes_text_number hv
  rw [show Number.text v = e.body by rw [body, hshape]; rfl] at hbody
  have hkeeps : ∀ I, e.abs.Keeps I (number v) := fun I => keeps_of_shape rfl hshape
  have hnum : ((v.num.toNat : Nat) : Rat) = v.num := by
    have := Rat.num_nonneg.mpr hv
    exact_mod_cast congrArg (Int.cast : Int → Rat) (Int.toNat_of_nonneg this)
  by_cases hden : v.den = 1
  · have hatom : e.abs.ReadsAs .atom (lexemes e.body) := by
      rw [hbody, if_pos hden]
      refine ⟨_, .numeral _, fun I => ?_⟩
      rw [hnum, Rat.coe_int_num_of_den_eq_one hden]
      exact hkeeps I
    exact isLegible_of_atom hatom
  · have hchain : e.abs.ChainsAs (lexemes e.body) := by
      rw [hbody, if_neg hden]
      refine ⟨_, .div (.signed (.ofPower (.ofFactorial (.ofAtom (.numeral _)))))
        (.ofPower (.ofFactorial (.ofAtom (.numeral _)))), fun I => (hkeeps I).trans fun _ => ⟨?_, ?_⟩⟩
      · refine isDefined_div.mpr ⟨isDefined_number .., isDefined_number .., ?_⟩
        rw [value_number]
        exact_mod_cast v.den_nz
      · rw [value_div, value_number, value_number, value_number, hnum, Rat.num_div_den]
    refine isLegible_of_body (fun _ => hchain.sum) (fun _ => hchain) (fun hcompound => ?_) fun hatom => ?_
    · simp [hshape, Shape.isCompound, hden] at hcompound
    · simp [hshape, Shape.isAtom, hden] at hatom

theorem isLegible_var {n : String} (hshape : e.shape = .var n) (hn : IsName n) : e.IsLegible := by
  have hatom : e.abs.ReadsAs .atom (lexemes e.body) := by
    rw [body, hshape, Shape.map, Shape.text, lexemes_name hn]
    exact ⟨_, .var n, fun I => keeps_of_shape rfl hshape⟩
  exact isLegible_of_atom hatom

/-! ## Operators -/

/-- Operands of a node that are read by themselves, read in the node. -/
theorem exists_operands {l : Level} {f : Expr → String} {b : Shape Expr} (hshape : e.shape = b)
    (h : ∀ a ∈ e.children, a.ReadsAs l (lexemes (f a))) :
    ∃ g : Expr → Expr, (∀ a ∈ b.children, Reads l (lexemes (f a)) (g a)) ∧
      ∀ I, e.abs.Keeps I (ofShape (b.map g)) := by
  subst hshape
  choose! g hg using h
  exact ⟨g, fun a ha => (hg a ha).1, fun I => keeps_map (e := e.abs) fun a ha => (hg a ha).2 I⟩

theorem isLegible_power {b x : Expr} (hshape : e.shape = .power b x) (h : ∀ a ∈ e.children, a.IsLegible) :
    e.IsLegible := by
  obtain ⟨g, hg, hkeeps⟩ := exists_operands hshape fun a ha => (h a ha).operand
  have hbody : lexemes e.body = lexemes b.piece.operand ++ .caret :: lexemes x.piece.operand := by
    rw [body, hshape]
    show lexemes (b.piece.operand ++ "^" ++ x.piece.operand) = _
    rw [lexemes_between (by decide) (by decide), List.append_assoc]
    rfl
  have hpower : Reads .power (lexemes e.body) ((g b).pow (g x)) := by
    rw [hbody]
    exact .power (.ofAtom (hg b (by simp [Shape.children]))) (.ofFactorial (.ofAtom (hg x (by simp [Shape.children]))))
  exact isLegible_of_signed ⟨_, .ofPower hpower, hkeeps⟩ (by rw [hshape]; rfl)

theorem isLegible_modulo {a b : Expr} (hshape : e.shape = .modulo a b) (h : ∀ a ∈ e.children, a.IsLegible) :
    e.IsLegible := by
  obtain ⟨g, hg, hkeeps⟩ := exists_operands hshape fun a ha => (h a ha).operand
  have hbody : lexemes e.body = lexemes a.piece.operand ++ .percent :: lexemes b.piece.operand := by
    rw [body, hshape]
    show lexemes (a.piece.operand ++ " % " ++ b.piece.operand) = _
    rw [lexemes_between (by decide) (by decide), List.append_assoc]
    rfl
  have hsigned : ∀ c ∈ [a, b], Reads .signed (lexemes c.piece.operand) (g c) := fun c hc =>
    .ofPower (.ofFactorial (.ofAtom (hg c hc)))
  have hproduct : Reads .product (lexemes e.body) (.ofShape (.modulo (g a) (g b))) := by
    rw [hbody]
    exact .modulo (.ofSigned (hsigned a (by simp))) (hsigned b (by simp))
  exact isLegible_of_loose ⟨_, .ofProduct hproduct, hkeeps⟩ (by rw [hshape]; rfl)

theorem isLegible_factorial {a : Expr} (hshape : e.shape = .factorial a) (h : ∀ a ∈ e.children, a.IsLegible) :
    e.IsLegible := by
  obtain ⟨g, hg, hkeeps⟩ := exists_operands hshape fun a ha => (h a ha).operand
  have hbody : lexemes e.body = lexemes a.piece.operand ++ [.bang] := by
    rw [body, hshape]
    exact lexemes_append_breaks (by decide)
  have hfactorial : Reads .factorial (lexemes e.body) (.ofShape (.factorial (g a))) := by
    rw [hbody]
    exact .factorial (.ofAtom (hg a (by simp [Shape.children])))
  exact isLegible_of_signed ⟨_, .ofPower (.ofFactorial hfactorial), hkeeps⟩ (by rw [hshape]; rfl)

/-- The texts of arguments, with commas between them. -/
theorem lexemes_intercalate (ss : List String) :
    lexemes (", ".intercalate ss) = [Lexeme.comma].intercalate (ss.map lexemes) := by
  induction ss with
  | nil => rfl
  | cons s ss ih =>
    cases ss with
    | nil => simp
    | cons t ss =>
      rw [String.intercalate_cons_cons, lexemes_between (by decide) (by decide), ih, List.map_cons, List.map_cons,
        List.map_cons, List.intercalate_cons_cons]
      rfl

theorem isLegible_call {n : String} {as : List Expr} (hshape : e.shape = .call n as) (hn : IsName n)
    (h : ∀ a ∈ e.children, a.IsLegible) : e.IsLegible := by
  obtain ⟨g, hg, hkeeps⟩ := exists_operands hshape fun a ha => (h a ha).sum
  have hbody : lexemes e.body =
      .name n :: .opening :: ([Lexeme.comma].intercalate ((as.map fun a => (lexemes a.text, g a)).map Prod.fst) ++
        [.closing]) := by
    rw [body, hshape]
    show lexemes (n ++ "(" ++ ", ".intercalate ((as.map piece).map Piece.text) ++ ")") = _
    rw [lexemes_append_breaks (by decide), lexemes_between (by decide) (by decide), lexemes_name hn,
      lexemes_intercalate, List.map_map, List.map_map, List.map_map]
    rfl
  have hcall : Reads .atom (lexemes e.body) (.call n (as.map g)) := by
    have hargs : ∀ p ∈ as.map fun a => (lexemes a.text, g a), Reads .sum p.1 p.2 := List.forall_mem_map.mpr hg
    have hread := Reads.call n hargs
    rwa [← hbody, List.map_map] at hread
  exact isLegible_of_atom ⟨_, hcall, hkeeps⟩

/-! ## Terms -/

theorem isDefined_term {t : Ratio Expr} : (sum [t]).IsDefined I ↔
    (∀ n ∈ t.numerator, n.IsDefined I) ∧ ∀ d ∈ t.denominator, d.IsDefined I ∧ d.value I ≠ 0 := by
  rw [sum, ofShape, isDefined_sum, List.forall_mem_singleton, Ratio.isDefined_iff]

theorem value_term (t : Ratio Expr) : (sum [t]).value I =
    product (t.numerator.map (value I)) / product (t.denominator.map (value I)) := by
  rw [sum, ofShape, value_sum, List.map_singleton, total_cons, total_nil, add_zero]
  rfl

theorem value_factors (ns : List Expr) : (sum [⟨ns, []⟩]).value I = product (ns.map (value I)) := by
  rw [value_term, List.map_nil, product_nil, div_one]

theorem keeps_factor (f : Expr) : (sum [⟨[f], []⟩]).Keeps I f := fun hd => by
  refine ⟨(isDefined_term.mp hd).1 f List.mem_cons_self, ?_⟩
  rw [value_factors, List.map_singleton, product_cons, product_nil, mul_one]

theorem keeps_factors (f : Expr) (fs : List Expr) : (sum [⟨f :: fs, []⟩]).Keeps I (f.mul (sum [⟨fs, []⟩])) := fun hd => by
  obtain ⟨hf, hfs⟩ := List.forall_mem_cons.mp (isDefined_term.mp hd).1
  refine ⟨isDefined_mul.mpr ⟨hf, isDefined_term.mpr ⟨hfs, List.forall_mem_nil _⟩⟩, ?_⟩
  rw [value_mul, value_factors, value_factors, List.map_cons, product_cons]

theorem keeps_quotient (ns ds : List Expr) :
    (sum [⟨ns, ds⟩]).Keeps I ((sum [⟨ns, []⟩]).div (sum [⟨ds, []⟩])) := fun hd => by
  obtain ⟨hns, hds⟩ := isDefined_term.mp hd
  have hne : (sum [⟨ds, []⟩]).value I ≠ 0 := by
    rw [value_factors, product_ne_zero, List.forall_mem_map]
    exact fun d hmem => (hds d hmem).2
  refine ⟨isDefined_div.mpr ⟨isDefined_term.mpr ⟨hns, List.forall_mem_nil _⟩,
    isDefined_term.mpr ⟨fun d hmem => (hds d hmem).1, List.forall_mem_nil _⟩, hne⟩, ?_⟩
  rw [value_div, value_factors, value_factors, value_term]

/-- Factors side by side. -/
theorem chainsAs_factors {ns : List Expr} (hne : ns ≠ []) (h : ∀ n ∈ ns, n.IsLegible) :
    (sum [⟨ns, []⟩]).ChainsAs (lexemes (" * ".intercalate (ns.map fun n => n.piece.factor))) := by
  induction ns with
  | nil => exact absurd rfl hne
  | cons n ns ih =>
    obtain ⟨hn, hns⟩ := List.forall_mem_cons.mp h
    cases ns with
    | nil =>
      rw [List.map_singleton, String.intercalate_singleton]
      exact hn.factor.of_keeps fun I => keeps_factor n
    | cons m ns =>
      have hrest := hn.factor.mul (ih (List.cons_ne_nil m ns) hns)
      rw [List.map_cons, List.map_cons, String.intercalate_cons_cons, lexemes_between (by decide) (by decide),
        List.append_assoc]
      exact hrest.of_keeps fun I => keeps_factors n (m :: ns)

/-- Factors leave no empty text. -/
theorem text_factors {ns : List Expr} (hne : ns ≠ []) (h : ∀ n ∈ ns, n.IsLegible) :
    Ratio.text (⟨ns.map piece, []⟩ : Ratio Piece) = " * ".intercalate (ns.map fun n => n.piece.factor) := by
  have hempty : " * ".intercalate ((ns.map piece).map Piece.factor) ≠ "" := fun hempty => by
    rw [List.map_map] at hempty
    exact (chainsAs_factors hne h).ne_nil ((congrArg lexemes hempty).trans rfl)
  have htext : Ratio.text (⟨ns.map piece, []⟩ : Ratio Piece) = " * ".intercalate ((ns.map piece).map Piece.factor) :=
    if_neg (mt String.isEmpty_iff.mp hempty)
  rw [htext, List.map_map]
  rfl

theorem keeps_one : (sum [⟨[], []⟩]).Keeps I (number 1) := fun _ => by
  refine ⟨isDefined_number .., ?_⟩
  rw [value_factors, value_number]
  rfl

/-- What stands above the bar. -/
theorem chainsAs_numerator {ns : List Expr} (h : ∀ n ∈ ns, n.IsLegible) :
    (sum [⟨ns, []⟩]).ChainsAs (lexemes (Ratio.text (⟨ns.map piece, []⟩ : Ratio Piece))) := by
  cases ns with
  | nil => exact ⟨number 1, .signed (.ofPower (.ofFactorial (.ofAtom (.numeral 1)))), fun I => keeps_one⟩
  | cons n ns =>
    rw [text_factors (List.cons_ne_nil n ns) h]
    exact chainsAs_factors (List.cons_ne_nil n ns) h

/-- **A term is a chain**, if its divisor is not several factors side by side without brackets. -/
theorem chainsAs_term {t : Ratio Expr} (h : ∀ a ∈ t.factors, a.IsLegible)
    (hclosed : t.denominator.length = 1 → ∀ d ∈ t.denominator, d.isBareProduct = false) :
    (sum [t]).ChainsAs (lexemes (t.map piece).text) := by
  obtain ⟨ns, ds⟩ := t
  have hns := chainsAs_numerator fun n hn => h n (List.mem_append_left _ hn)
  have hds : ∀ d ∈ ds, d.IsLegible := fun d hd => h d (List.mem_append_right _ hd)
  match ds with
  | [] => exact hns
  | [d] =>
    have htext : (Ratio.map piece ⟨ns, [d]⟩).text =
        Ratio.text (⟨ns.map piece, []⟩ : Ratio Piece) ++ " / " ++ d.piece.factor := rfl
    have hd : (sum [⟨[d], []⟩]).ReadsAs .signed (lexemes d.piece.factor) :=
      ((hds d List.mem_cons_self).divisor (hclosed rfl d List.mem_cons_self)).of_keeps fun I => keeps_factor d
    rw [htext, lexemes_between (by decide) (by decide), List.append_assoc]
    exact (hns.div hd).of_keeps fun I => keeps_quotient ns [d]
  | d :: d' :: ds =>
    have htext : (Ratio.map piece ⟨ns, d :: d' :: ds⟩).text =
        Ratio.text (⟨ns.map piece, []⟩ : Ratio Piece) ++ " / " ++
          Piece.bracketed (" * ".intercalate (((d :: d' :: ds).map piece).map Piece.factor)) := rfl
    have hproduct := (chainsAs_factors (List.cons_ne_nil d (d' :: ds)) hds).sum.group.signed
    rw [htext, lexemes_between (by decide) (by decide), lexemes_bracketed, List.append_assoc, List.map_map]
    exact (hns.div hproduct).of_keeps fun I => keeps_quotient ns (d :: d' :: ds)

/-! ## Sums -/

theorem keeps_sum_append (ts : List (Ratio Expr)) (t : Ratio Expr) :
    (sum (ts ++ [t])).Keeps I ((sum ts).add (sum [t])) := fun hd => by
  rw [isDefined_add, value_add]
  simp only [sum, ofShape, isDefined_sum, value_sum] at hd ⊢
  refine ⟨List.forall_mem_append.mp hd, ?_⟩
  simp only [Sign.apply, List.map_append, total_append]

/-- A term behind a sum. Its minus, if it has one, is the operator. -/
theorem readsAs_textBehind {ts : List (Ratio Expr)} {t : Ratio Expr} {s : String}
    (hs : (sum ts).ReadsAs .sum (lexemes s)) (ht : (sum [t]).ChainsAs (lexemes (t.map piece).text)) :
    (sum (ts ++ [t])).ReadsAs .sum (lexemes (s ++ (t.map piece).textBehind)) := by
  unfold Ratio.textBehind
  split
  · rename_i rest hrest
    have hminus : lexemes (t.map piece).text = .minus :: lexemes (String.ofList rest) := by
      rw [lexemes, hrest, lexemes, String.toList_ofList]
      rfl
    rw [hminus] at ht
    rw [← String.append_assoc, lexemes_between (by decide) (by decide), List.append_assoc]
    refine (hs.sub ht.of_minus).of_keeps fun I => ?_
    rw [sub, neg_neg]
    exact keeps_sum_append ts t
  · rw [String.ofList_toList, ← String.append_assoc, lexemes_between (by decide) (by decide), List.append_assoc]
    exact (hs.add ht).of_keeps fun I => keeps_sum_append ts t

/-- Terms behind a sum, one after the other. -/
theorem readsAs_join {ts us : List (Ratio Expr)} {s : String} (hs : (sum ts).ReadsAs .sum (lexemes s))
    (hus : ∀ u ∈ us, (sum [u]).ChainsAs (lexemes (u.map piece).text)) :
    (sum (ts ++ us)).ReadsAs .sum (lexemes (s ++ String.join (us.map fun u => (u.map piece).textBehind))) := by
  induction us generalizing ts s with
  | nil => simpa using hs
  | cons u us ih =>
    obtain ⟨hu, hus⟩ := List.forall_mem_cons.mp hus
    have hrest := ih (readsAs_textBehind hs hu) hus
    rw [List.append_assoc, List.singleton_append] at hrest
    rwa [List.map_cons, String.join_cons, ← String.append_assoc]

/-- A term that is one factor. -/
theorem readsAs_signed_term {t : Ratio Expr} (h : ∀ a ∈ t.factors, a.IsLegible) (hden : t.denominator = [])
    (hbare : (sum [t]).isBareProduct = false) : (sum [t]).ReadsAs .signed (lexemes (t.map piece).text) := by
  obtain ⟨ns, ds⟩ := t
  obtain rfl : ds = [] := hden
  rw [isBareProduct_eq] at hbare
  match ns with
  | [] => exact ⟨number 1, .ofPower (.ofFactorial (.ofAtom (.numeral 1))), fun I => keeps_one⟩
  | [n] =>
    have htext := text_factors (List.cons_ne_nil n []) fun m hm => h m (List.mem_append_left _ hm)
    rw [List.map_singleton, List.map_singleton, String.intercalate_singleton] at htext
    have hn : n.ReadsAs .signed (lexemes n.piece.factor) := (h n List.mem_cons_self).divisor hbare
    rw [← htext] at hn
    exact hn.of_keeps fun I => keeps_factor n
  | n :: m :: ns => cases hbare

theorem isLegible_sum {ts : List (Ratio Expr)} (hshape : e.shape = .sum ts) (hclosed : e.shape.IsClosed)
    (h : ∀ a ∈ e.children, a.IsLegible) : e.IsLegible := by
  rw [hshape] at hclosed
  have hkeeps : ∀ I, e.abs.Keeps I (sum ts) := fun I => keeps_of_shape rfl hshape
  have hlegible : ∀ t ∈ ts, ∀ a ∈ t.factors, a.IsLegible := fun t ht a ha => by
    refine h a ?_
    rw [children, hshape]
    exact List.mem_flatMap.mpr ⟨t, ht, ha⟩
  have hterms : ∀ t ∈ ts, (sum [t]).ChainsAs (lexemes (t.map piece).text) := fun t ht =>
    chainsAs_term (hlegible t ht) (hclosed t ht)
  rcases ts with _ | ⟨t, _ | ⟨u, ts⟩⟩
  · have hbody : e.body = "0" := by
      rw [body, hshape]
      rfl
    refine isLegible_of_atom ?_
    rw [hbody]
    refine ⟨number 0, .numeral 0, fun I => (hkeeps I).trans fun _ => ⟨isDefined_number .., ?_⟩⟩
    rw [value_number, sum, ofShape, value_sum]
    rfl
  · have hbody : e.body = (t.map piece).text := by
      rw [body, hshape]
      exact String.append_empty
    have ht := hterms t List.mem_cons_self
    rw [← hbody] at ht
    refine isLegible_of_body (fun _ => (ht.of_keeps hkeeps).sum) (fun _ => ht.of_keeps hkeeps)
      (fun hcompound hbare => ?_) fun hatom => ?_
    · have hden : t.denominator = [] := by simpa [hshape, Shape.isCompound] using hcompound
      have hbare' : (sum [t]).isBareProduct = false := by
        rw [isBareProduct_eq, hshape] at hbare
        rwa [isBareProduct_eq]
      rw [hbody]
      exact (readsAs_signed_term (hlegible t List.mem_cons_self) hden hbare').of_keeps hkeeps
    · rw [hshape] at hatom
      cases hatom
  · have hbody : e.body = (t.map piece).text ++ String.join ((u :: ts).map fun u => (u.map piece).textBehind) := by
      rw [body, hshape]
      show _ ++ String.join (((u :: ts).map (Ratio.map piece)).map Ratio.textBehind) = _
      rw [List.map_map]
      rfl
    obtain ⟨ht, hts⟩ := List.forall_mem_cons.mp hterms
    have hsum : e.abs.ReadsAs .sum (lexemes e.body) := by
      rw [hbody]
      exact (readsAs_join ht.sum hts).of_keeps hkeeps
    exact isLegible_of_loose hsum (by rw [hshape]; simp [Shape.isLoose])

/-! ## Whole texts -/

/-- The text of an expression is legible. -/
theorem isLegible (hspelled : e.Everywhere fun a => a.shape.IsSpelled) (hclosed : e.Everywhere fun a => a.shape.IsClosed) :
    e.IsLegible := by
  induction e using Expr.induction with
  | h e ih =>
    obtain ⟨hspell, hspelled⟩ := everywhere_iff.mp hspelled
    obtain ⟨hclose, hclosed⟩ := everywhere_iff.mp hclosed
    have h : ∀ a ∈ e.children, a.IsLegible := fun a ha => ih a ha (hspelled a ha) (hclosed a ha)
    cases hshape : e.shape with
    | number v =>
      rw [hshape] at hspell
      exact isLegible_number hshape hspell
    | var n =>
      rw [hshape] at hspell
      exact isLegible_var hshape hspell
    | power b x => exact isLegible_power hshape h
    | modulo a b => exact isLegible_modulo hshape h
    | factorial a => exact isLegible_factorial hshape h
    | call n as =>
      rw [hshape] at hspell
      exact isLegible_call hshape hspell h
    | sum ts => exact isLegible_sum hshape hclose h

/-- **The text of an expression has one reading, and this has the meaning of the expression**, if no divisor that
stands alone is written as several factors side by side. -/
theorem text_reads (e : Expr) (hspelled : e.Everywhere fun a => a.shape.IsSpelled)
    (hclosed : e.Everywhere fun a => a.shape.IsClosed) :
    ∃ r, (∀ r', Reads .sum (lexemes e.text) r' ↔ r' = r) ∧
      ∀ I, e.IsDefined I → r.IsDefined I ∧ r.value I = e.value I := by
  obtain ⟨r, hr, hkeeps⟩ := (isLegible hspelled hclosed).sum
  refine ⟨r, fun r' => ⟨fun hr' => hr'.unique hr, ?_⟩, hkeeps⟩
  rintro rfl
  exact hr

/-- Divisors, minus signs and brackets in one text: `x / (a * b) - f(-x, 3/4)^2`. -/
theorem text_reads_quotientMinusPower :
    ∃ e : Expr, e.text = "x / (a * b) - f(-x, 3/4)^2" ∧ (e.Everywhere fun a => a.shape.IsSpelled) ∧
      (e.Everywhere fun a => a.shape.IsClosed) ∧ ∃ r, (∀ r', Reads .sum (lexemes e.text) r' ↔ r' = r) ∧
        ∀ I, e.IsDefined I → r.IsDefined I ∧ r.value I = e.value I := by
  have hspelled : (sum [⟨[var "x"], [var "a", var "b"]⟩,
      .of (((call "f" [(var "x").neg, number (3 / 4)]).pow (number 2)).neg)]).Everywhere fun a => a.shape.IsSpelled := by
    decide +kernel
  exact ⟨_, by decide +kernel, hspelled, by decide +kernel, text_reads _ hspelled (by decide +kernel)⟩

/-- **A divisor that is a product is read apart.** The quotient of `x` and the product of `a` and `b` is written as
`x / a * b`, and this has one reading only, which is a multiple of `b`. -/
theorem text_misread_productDivisor :
    ∃ e : Expr, e.text = "x / a * b" ∧ (e.Everywhere fun a => a.shape.IsSpelled) ∧
      (∀ r, Reads .sum (lexemes e.text) r ↔ r = ((var "x").div (var "a")).mul (var "b")) ∧
        ∃ I, e.IsDefined I ∧ (((var "x").div (var "a")).mul (var "b")).value I ≠ e.value I := by
  have htext : ((var "x").div ((var "a").mul (var "b"))).text = "x / a * b" := by decide
  have hsigned : ∀ n, Reads .signed [.name n] (var n) := fun n => .ofPower (.ofFactorial (.ofAtom (.var n)))
  have hread : Reads .sum [.name "x", .over, .name "a", .times, .name "b"] (((var "x").div (var "a")).mul (var "b")) :=
    .ofProduct (.mul (.div (.ofSigned (hsigned "x")) (hsigned "a")) (hsigned "b"))
  refine ⟨(var "x").div ((var "a").mul (var "b")), htext, by decide, fun r => ?_, ⟨fun _ => 2, fun _ _ => 0,
    fun _ _ => 0, fun _ _ => 0, fun _ => 0⟩, ?_, ?_⟩
  · rw [htext, show lexemes "x / a * b" = [.name "x", .over, .name "a", .times, .name "b"] by decide]
    exact ⟨fun h => h.unique hread, fun h => h ▸ hread⟩
  · refine isDefined_div.mpr ⟨isDefined_var .., isDefined_mul.mpr ⟨isDefined_var .., isDefined_var ..⟩, ?_⟩
    rw [value_mul, value_eq]
    decide +kernel
  · simp only [value_mul, value_div]
    decide +kernel

end Expr

end Isolate
