import Isolate.Proofs.Isolating.Inversion
import Mathlib

/-!
# Placeholders of use

A configuration is made only with a placeholder that has `{name}` in it (`Config.Made.accepted`). This does not make the
placeholder a template of use: the braces may be doubled ones, and what else it has in it may be no template at all.

A template that is put together from parts (`Template.Part`) with fields that take any name (`Part.isSound`) is filled
part by part (`Template.fill_parts`). The name stays whole in it unless there are doubled braces in the template
(`Template.exists_isWhole`).

* `Config.Made.applyInverse_placeholder`: with such a placeholder, an isolation step never fails for the template, and
  the inverse of a function without a known one is called by a name that has the name of the function in it.
-/

namespace Isolate

/-! ## Lists with a mark -/

section Marks

variable {α : Type} {x : α} {a b l r : List α}

/-- A mark that is not in the first of two lists is in the second. -/
theorem exists_of_append_eq (h : a ++ b = l ++ x :: r) (hx : x ∉ a) : ∃ m, l = a ++ m ∧ b = m ++ x :: r := by
  rcases List.append_eq_append_iff.mp h with ⟨m, hl, hb⟩ | ⟨m, ha, hr⟩
  · exact ⟨m, hl, hb⟩
  · cases m with
    | nil => exact ⟨[], by simpa using ha.symm, by simpa using hr.symm⟩
    | cons y m =>
      obtain ⟨rfl, -⟩ := List.cons.inj hr
      exact absurd (ha ▸ List.mem_append_right l List.mem_cons_self) hx

end Marks

/-! ## Configurations -/

theorem Settings.holds_iff {word : List Char} (cs : List Char) : holds word cs = true ↔ word <:+: cs := by
  induction cs with
  | nil => simp [holds]
  | cons c cs ih => rw [holds, Bool.or_eq_true, List.isPrefixOf_iff_prefix, ih, List.infix_cons_iff]

theorem Settings.accepted_of_check {s : Settings} {c : Config} (h : s.check = .ok c) :
    "\x7bname\x7d".toList <:+: c.placeholder.toList := by
  unfold check at h
  split at h
  · cases h
  · split at h
    · cases h
    · split at h
      · cases h
      · split at h
        · cases h
        · split at h
          · rename_i hholds
            cases h
            exact (holds_iff _).mp hholds
          · cases h

/-- A configuration as it can be made: from settings, from an environment, or by new values for the knobs of another. -/
inductive Config.Made : Config → Prop
  | given {s : Settings} {c : Config} (hc : s.check = .ok c) : Made c
  | environment {value? : String → Option String} {s : Settings} {c : Config} (hs : Settings.ofEnvironment value? = .ok s)
      (hc : s.check = .ok c) : Made c
  | override {c d : Config} {o : Overrides} (hc : Made c) (hd : c.override o = .ok d) : Made d

/-- **The placeholder of a configuration has `{name}` in it.** -/
theorem Config.Made.accepted {c : Config} (h : c.Made) : "\x7bname\x7d".toList <:+: c.placeholder.toList := by
  cases h with
  | given hc => exact Settings.accepted_of_check hc
  | environment _ hc => exact Settings.accepted_of_check hc
  | override _ hd => exact Settings.accepted_of_check hd

/-! ## Parts of templates -/

namespace Template

/-- A part of a template: a character, which is doubled if it is a brace, or a field for the name. -/
inductive Part where
  | plain (c : Char)
  | field (conversion : Option Char) (spec : Option (List Char))
  deriving DecidableEq, Repr

namespace Part

/-- What a field has behind its key. -/
def tail (conversion : Option Char) (spec : Option (List Char)) : List Char :=
  conversion.elim [] (fun c => ['!', c]) ++ (spec.elim [] (':' :: ·) ++ ['\x7d'])

/-- A part as it is written. -/
def text : Part → List Char
  | plain c => if c = '\x7b' ∨ c = '\x7d' then [c, c] else [c]
  | field conversion spec => '\x7b' :: ("name".toList ++ tail conversion spec)

/-- Does it take any name? The specification of a field has no fields in it. -/
def isSound : Part → Bool
  | plain _ => true
  | field conversion spec => conversion.all (['s', 'r', 'a'].contains ·) &&
      spec.all fun cs => !cs.contains '\x7b' && !cs.contains '\x7d' && (Layout.ofSpec? cs).isSome

/-- Does the whole name stay in it? -/
def isWhole : Part → Bool
  | plain _ => false
  | field conversion spec =>
    conversion.all (· = 's') && spec.all fun cs => ((Layout.ofSpec? cs).bind (·.longest)).isNone

/-- What becomes of it with a name. -/
def filled (name : List Char) : Part → List Char
  | plain c => [c]
  | field conversion spec =>
    ((Layout.ofSpec? (spec.getD [])).getD {}).apply ((convert name conversion).toOption.getD [])

end Part

variable {name : String} {conversion : Option Char} {spec : Option (List Char)} {parts : List Part} {p : Part}
  {expand : List Char → Except Fault (List Char)} {fuel : Nat} {cs rest : List Char}

/-- A field takes any name just if its conversion is known and its specification, without braces, is one. -/
theorem Part.isSound_field : (field conversion spec).isSound = true ↔
    (∀ c ∈ conversion, c = 's' ∨ c = 'r' ∨ c = 'a') ∧
      ∀ cs ∈ spec, '\x7b' ∉ cs ∧ '\x7d' ∉ cs ∧ (Layout.ofSpec? cs).isSome = true := by
  cases conversion <;> cases spec <;> simp [isSound, and_assoc]

/-! ## Reading a field -/

theorem readSpec_of_plain (ho : '\x7b' ∉ cs) (hc : '\x7d' ∉ cs) (rest : List Char) :
    readSpec 0 (cs ++ '\x7d' :: rest) = .ok (cs, rest) := by
  induction cs with
  | nil => rfl
  | cons c cs ih =>
    obtain ⟨hco, ho⟩ := not_or.mp (mt List.mem_cons.mpr ho)
    obtain ⟨hcc, hc⟩ := not_or.mp (mt List.mem_cons.mpr hc)
    rw [List.cons_append, readSpec]
    simp [Ne.symm hco, Ne.symm hcc, ih ho hc, Except.map]

theorem readField_tail (h : (Part.field conversion spec).isSound = true) (rest : List Char) :
    readField ("name".toList ++ Part.tail conversion spec ++ rest) =
      .ok (⟨"name".toList, conversion, spec.getD []⟩, rest) := by
  obtain ⟨-, hspec⟩ := Part.isSound_field.mp h
  cases spec with
  | none => cases conversion <;> rfl
  | some cs =>
    obtain ⟨ho, hc, -⟩ := hspec cs rfl
    have hread := readSpec_of_plain ho hc rest
    cases conversion with
    | none =>
      show (readSpec 0 (cs ++ ['\x7d'] ++ rest) >>= fun read => .ok ((⟨"name".toList, none, read.1⟩ : Field), read.2)) = _
      rw [List.append_assoc, List.singleton_append, hread]
      rfl
    | some c =>
      show (readSpec 0 (cs ++ ['\x7d'] ++ rest) >>= fun read => .ok ((⟨"name".toList, some c, read.1⟩ : Field), read.2)) = _
      rw [List.append_assoc, List.singleton_append, hread]
      rfl

/-! ## Filling -/

theorem fillWith_cons_of_ne {c : Char} (ho : c ≠ '\x7b') (hc : c ≠ '\x7d') (rest : List Char) :
    fillWith name expand (fuel + 1) (c :: rest) = (fillWith name expand fuel rest).map (c :: ·) := by
  rw [fillWith] <;> simp [ho, hc]

/-- A text without braces is left as it is. -/
theorem fillWith_of_plain (ho : '\x7b' ∉ cs) (hc : '\x7d' ∉ cs) (hfuel : cs.length < fuel) :
    fillWith name expand fuel cs = .ok cs := by
  induction cs generalizing fuel with
  | nil => cases fuel <;> rfl
  | cons c cs ih =>
    obtain ⟨hco, ho⟩ := not_or.mp (mt List.mem_cons.mpr ho)
    obtain ⟨hcc, hc⟩ := not_or.mp (mt List.mem_cons.mpr hc)
    obtain ⟨fuel, rfl⟩ := Nat.exists_eq_add_one.mpr (Nat.zero_lt_of_lt hfuel)
    rw [fillWith_cons_of_ne (Ne.symm hco) (Ne.symm hcc), ih ho hc (Nat.lt_of_succ_lt_succ hfuel)]
    rfl

theorem convert_of_isSound (h : (Part.field conversion spec).isSound = true) (cs : List Char) :
    convert cs conversion = .ok ((convert cs conversion).toOption.getD []) := by
  obtain ⟨hconversion, -⟩ := Part.isSound_field.mp h
  have hok : ∃ v, convert cs conversion = .ok v := by
    cases conversion with
    | none => exact ⟨_, rfl⟩
    | some c => rcases hconversion c rfl with rfl | rfl | rfl <;> exact ⟨_, rfl⟩
  obtain ⟨v, hv⟩ := hok
  rw [hv]
  rfl

theorem layOut_of_isSound (h : (Part.field conversion spec).isSound = true) (cs : List Char) :
    layOut cs (spec.getD []) = .ok (((Layout.ofSpec? (spec.getD [])).getD {}).apply cs) := by
  obtain ⟨-, hspec⟩ := Part.isSound_field.mp h
  cases spec with
  | none => rfl
  | some spec =>
    obtain ⟨l, hl⟩ := Option.isSome_iff_exists.mp (hspec spec rfl).2.2
    simp only [layOut, Option.getD_some, hl]

theorem fillSpec_of_isSound (h : (Part.field conversion spec).isSound = true) :
    fillSpec name (spec.getD []) = .ok (spec.getD []) := by
  obtain ⟨-, hspec⟩ := Part.isSound_field.mp h
  cases spec with
  | none => rfl
  | some spec =>
    obtain ⟨ho, hc, -⟩ := hspec spec rfl
    exact fillWith_of_plain ho hc (Nat.lt_succ_self _)

/-- The name is what a field refers to. -/
theorem value_name (name : String) : value name "name".toList = .ok name.toList := rfl

/-- **A part in front of a template** is filled by itself. -/
theorem fillWith_part (h : p.isSound = true) (rest : List Char) :
    fillWith name (fillSpec name) (fuel + 1) (p.text ++ rest) =
      (fillWith name (fillSpec name) fuel rest).map (p.filled name.toList ++ ·) := by
  cases p with
  | plain c =>
    by_cases hbrace : c = '\x7b' ∨ c = '\x7d'
    · rw [Part.text, if_pos hbrace]
      rcases hbrace with rfl | rfl <;> rfl
    · rw [Part.text, if_neg hbrace]
      obtain ⟨ho, hc⟩ := not_or.mp hbrace
      exact fillWith_cons_of_ne ho hc rest
  | field conversion spec =>
    show (do
      let read ← readField ("name".toList ++ Part.tail conversion spec ++ rest)
      let text ← convert (← value name read.1.key) read.1.conversion
      let text ← layOut text (← fillSpec name read.1.spec)
      return text ++ (← fillWith name (fillSpec name) fuel read.2) : Except Fault (List Char)) = _
    rw [readField_tail h]
    show (do
      let text ← convert (← value name "name".toList) conversion
      let text ← layOut text (← fillSpec name (spec.getD []))
      return text ++ (← fillWith name (fillSpec name) fuel rest) : Except Fault (List Char)) = _
    simp only [value_name, ok_bind, fillSpec_of_isSound h]
    rw [convert_of_isSound h, ok_bind, layOut_of_isSound h, ok_bind]
    rfl

theorem fillWith_parts (h : ∀ p ∈ parts, p.isSound = true) (hfuel : parts.length < fuel) :
    fillWith name (fillSpec name) fuel (parts.flatMap Part.text) = .ok (parts.flatMap (Part.filled name.toList)) := by
  obtain ⟨fuel, rfl⟩ := Nat.exists_eq_add_one.mpr (Nat.zero_lt_of_lt hfuel)
  induction parts generalizing fuel with
  | nil => rfl
  | cons p parts ih =>
    obtain ⟨hp, hparts⟩ := List.forall_mem_cons.mp h
    obtain ⟨fuel, rfl⟩ := Nat.exists_eq_add_one.mpr (Nat.zero_lt_of_lt (Nat.lt_of_succ_lt_succ hfuel))
    rw [List.flatMap_cons, fillWith_part hp, ih hparts fuel (Nat.lt_of_succ_lt_succ hfuel)]
    rfl

theorem Part.text_ne_nil (p : Part) : p.text ≠ [] := by
  cases p with
  | plain c =>
    rw [text]
    split <;> exact List.cons_ne_nil _ _
  | field conversion spec => exact List.cons_ne_nil _ _

theorem length_le_of_parts (parts : List Part) : parts.length ≤ (parts.flatMap Part.text).length := by
  induction parts with
  | nil => rfl
  | cons p parts ih =>
    have := List.length_pos_iff.mpr p.text_ne_nil
    rw [List.flatMap_cons, List.length_append, List.length_cons]
    omega

/-- **A template is filled part by part.** -/
theorem fill_parts {template : String} (htemplate : template.toList = parts.flatMap Part.text)
    (h : ∀ p ∈ parts, p.isSound = true) (name : String) :
    fill template name = .ok (String.ofList (parts.flatMap (Part.filled name.toList))) := by
  have hfuel : parts.length < template.length + 1 := by
    rw [← String.length_toList, htemplate]
    exact Nat.lt_succ_of_le (length_le_of_parts parts)
  rw [fill, htemplate, fillWith_parts h hfuel]
  rfl

/-! ## The name in a template -/

theorem Layout.infix_apply {l : Layout} (h : l.longest = none) (cs : List Char) : cs <:+: l.apply cs := by
  rw [apply, h]
  exact List.infix_append _ _ _

/-- A field in which the whole name stays. -/
theorem Part.infix_filled (hwhole : p.isWhole = true) (name : List Char) : name <:+: p.filled name := by
  cases p with
  | plain c => cases hwhole
  | field conversion spec =>
    obtain ⟨hconversion, hspec⟩ := Bool.and_eq_true_iff.mp hwhole
    have hconvert : convert name conversion = .ok name := by
      cases conversion with
      | none => rfl
      | some c =>
        obtain rfl : c = 's' := by simpa using hconversion
        rfl
    have hlongest : ((Layout.ofSpec? (spec.getD [])).getD {}).longest = none := by
      cases spec with
      | none => rfl
      | some cs =>
        have hnone : ((Layout.ofSpec? cs).bind (·.longest)).isNone = true := hspec
        rw [Option.getD_some]
        cases hl : Layout.ofSpec? cs with
        | none => rfl
        | some l => simpa [hl] using hnone
    rw [filled, hconvert]
    exact Layout.infix_apply hlongest name

theorem infix_filled_parts (hp : p ∈ parts) (hwhole : p.isWhole = true) (name : List Char) :
    name <:+: parts.flatMap (Part.filled name) := by
  obtain ⟨before, after, rfl⟩ := List.append_of_mem hp
  rw [List.flatMap_append, List.flatMap_cons]
  exact (Part.infix_filled hwhole name).trans ⟨_, _, (List.append_assoc _ _ _)⟩

/-- A field that takes any name has one opening brace. -/
theorem Part.not_mem_tail (h : (field conversion spec).isSound = true) :
    '\x7b' ∉ "name".toList ++ tail conversion spec := by
  obtain ⟨hconversion, hspec⟩ := isSound_field.mp h
  have hname : '\x7b' ∉ "name".toList := by decide
  have hconversion : '\x7b' ∉ conversion.elim [] fun c => ['!', c] := by
    cases conversion with
    | none => exact List.not_mem_nil
    | some c => rcases hconversion c rfl with rfl | rfl | rfl <;> decide
  have hspec : '\x7b' ∉ spec.elim [] (':' :: ·) := by
    cases spec with
    | none => exact List.not_mem_nil
    | some cs => simpa using (hspec cs rfl).1
  simp only [tail, List.mem_append, not_or]
  exact ⟨hname, hconversion, hspec, by decide⟩

/-- Where no opening brace is doubled, such a brace opens a field. -/
theorem exists_field_of_open (hsound : ∀ p ∈ parts, p.isSound = true) (hbrace : .plain '\x7b' ∉ parts) {l r : List Char}
    (h : parts.flatMap Part.text = l ++ '\x7b' :: r) : ∃ conversion spec after, .field conversion spec ∈ parts ∧
      r = "name".toList ++ Part.tail conversion spec ++ after := by
  induction parts generalizing l with
  | nil => simp at h
  | cons p parts ih =>
    obtain ⟨hp, hparts⟩ := List.forall_mem_cons.mp hsound
    obtain ⟨hne, hbrace⟩ := not_or.mp (mt List.mem_cons.mpr hbrace)
    -- The brace is not in the rest of `p`, so it is in what comes after `p`.
    have hrest : ∀ {body l : List Char}, '\x7b' ∉ body → body ++ parts.flatMap Part.text = l ++ '\x7b' :: r →
        ∃ conversion spec after, .field conversion spec ∈ p :: parts ∧
          r = "name".toList ++ Part.tail conversion spec ++ after := by
      intro body l hbody hl
      obtain ⟨m, -, hm⟩ := exists_of_append_eq hl hbody
      obtain ⟨conversion, spec, after, hmem, hr⟩ := ih hparts hbrace hm
      exact ⟨conversion, spec, after, List.mem_cons_of_mem p hmem, hr⟩
    cases p with
    | plain c =>
      refine hrest ?_ h
      rw [Part.text]
      split <;> simpa using fun hc => hne (congrArg Part.plain hc)
    | field conversion spec =>
      cases l with
      | nil => exact ⟨conversion, spec, _, List.mem_cons_self, (List.cons.inj h).2.symm⟩
      | cons c l => exact hrest (Part.not_mem_tail hp) (List.cons.inj h).2

/-- **A template with `{name}` in it keeps the name whole**, unless opening braces are doubled in it. -/
theorem exists_isWhole (hsound : ∀ p ∈ parts, p.isSound = true) (hbrace : .plain '\x7b' ∉ parts)
    (h : "\x7bname\x7d".toList <:+: parts.flatMap Part.text) : ∃ p ∈ parts, p.isWhole = true := by
  obtain ⟨l, r, hlr⟩ := h
  have hword : "\x7bname\x7d".toList = '\x7b' :: ("name".toList ++ ['\x7d']) := rfl
  rw [List.append_assoc, hword, List.cons_append, List.append_assoc] at hlr
  obtain ⟨conversion, spec, after, hmem, hr⟩ := exists_field_of_open hsound hbrace hlr.symm
  refine ⟨_, hmem, ?_⟩
  rw [List.append_assoc] at hr
  have htail : '\x7d' :: r = Part.tail conversion spec ++ after := List.append_cancel_left hr
  cases conversion with
  | some c => cases htail
  | none =>
    cases spec with
    | some cs => cases htail
    | none => rfl

end Template

/-! ## Isolation steps -/

namespace Equation

variable {c : Config} {parts : List Template.Part}

/-- A function without a known inverse is undone by the name that the template makes. -/
theorem applyInverse_call {first : Bool} {a b x : Expr} {f inverse template : String} {target : Option String}
    (hfill : Template.fill template f = .ok inverse) (hshape : a.shape = .call f [x])
    (hunknown : knownInverses.lookup f = none) (hfew : a.survey.vars.length ≤ 1) (ha : a.analyze = a)
    (hb : b.analyze = b) (hold : a.holds target = true) (hfirst : first = false → b.holds target = false) :
    (sided first a b).applyInverse template target =
      .ok ⟨sided first x (.call inverse [⟨b.sign * a.sign, b.shape, none⟩]), [],
        [⟨.warning, .inversion, s!"no inverse known for {f}(); using {inverse}() as a placeholder"⟩]⟩ := by
  have hshaped : Expr.invertShape template a.shape = .ok (some ⟨.undo inverse f false, []⟩) := by
    rw [hshape, Expr.invertShape, Expr.invertCall, if_neg (by simp), hunknown, hfill]
    rfl
  have hpeel : (Step.undo inverse f false).peel a = .ok x := by
    simp only [Step.peel, hshape]
  rw [applyInverse_sided ha hb hold hfirst, if_neg (Nat.not_lt.mpr hfew), Expr.inversion_of_found ha hshaped, ok_bind]
  simp only [hpeel, ok_bind]
  rfl

/-- **A placeholder of use.** Let the placeholder of a configuration be put together from parts that take any name, and
let the name stay whole in one of them if opening braces are doubled. Then an isolation step at analysed sides never fails
for the placeholder, and where it undoes a function without a known inverse, it calls the inverse by a name that has the
name of the function in it. -/
theorem applyInverse_placeholder (hc : c.Made) (hparts : c.placeholder.toList = parts.flatMap Template.Part.text)
    (hsound : ∀ p ∈ parts, p.isSound = true) (hbrace : .plain '\x7b' ∈ parts → ∃ p ∈ parts, p.isWhole = true) :
    (∀ (q : Equation) target fault, q.analyze = q → q.applyInverse c.placeholder target = .error fault →
      fault.isSolverFault = true) ∧
    ∀ first (a b : Expr) f x target, a.shape = .call f [x] → knownInverses.lookup f = none →
      a.survey.vars.length ≤ 1 → a.analyze = a → b.analyze = b → a.holds target = true →
      (first = false → b.holds target = false) →
      ∃ inverse, (sided first a b).applyInverse c.placeholder target =
          .ok ⟨sided first x (.call inverse [⟨b.sign * a.sign, b.shape, none⟩]), [],
            [⟨.warning, .inversion, s!"no inverse known for {f}(); using {inverse}() as a placeholder"⟩]⟩ ∧
        f.toList <:+: inverse.toList := by
  have hfill := Template.fill_parts hparts hsound
  constructor
  · intro q target fault hq h
    by_cases hlen : q.sides.length = 2
    · have hisolates := isolates_applyInverse c.placeholder target hlen hq
      rw [h] at hisolates
      cases hisolates with
      | refused hfault =>
        rcases hfault with hskippable | ⟨name, hname⟩
        · cases fault <;> first | rfl | cases hskippable
        · rw [hfill name] at hname
          cases hname
    · rw [applyInverse, if_pos hlen] at h
      cases h
      rfl
  · intro first a b f x target hshape hunknown hfew ha hb hold hfirst
    obtain ⟨p, hp, hwhole⟩ : ∃ p ∈ parts, p.isWhole = true := by
      by_cases hdoubled : .plain '\x7b' ∈ parts
      · exact hbrace hdoubled
      · exact Template.exists_isWhole hsound hdoubled (hparts ▸ hc.accepted)
    refine ⟨_, applyInverse_call (hfill f) hshape hunknown hfew ha hb hold hfirst, ?_⟩
    rw [String.toList_ofList]
    exact Template.infix_filled_parts hp hwhole f.toList

/-- The equation `f(x) = 2`. -/
def unknownCall : Equation := sided true (Expr.call "f" [.var "x"]).analyze (Expr.number 2).analyze

/-- The name between doubled braces, `f` in braces for `f`. -/
theorem applyInverse_placeholder_braced : ∃ c : Config, c.placeholder = "\x7b\x7b\x7bname\x7d\x7d\x7d" ∧ c.Made ∧
    (∀ fault, unknownCall.applyInverse c.placeholder (some "x") = .error fault → fault.isSolverFault = true) ∧
    ∃ inverse done, unknownCall.applyInverse c.placeholder (some "x") = .ok done ∧
      done.equation = ⟨[(Expr.var "x").analyze, .call inverse [.number 2]]⟩ ∧ "f".toList <:+: inverse.toList := by
  have hmade : Config.Made { Config.default with placeholder := "\x7b\x7b\x7bname\x7d\x7d\x7d" } :=
    .given (s := { placeholder := "\x7b\x7b\x7bname\x7d\x7d\x7d" }) (by cbv)
  have hparts : "\x7b\x7b\x7bname\x7d\x7d\x7d".toList =
      [.plain '\x7b', .field none none, .plain '\x7d'].flatMap Template.Part.text := by decide
  obtain ⟨hfault, hcall⟩ := applyInverse_placeholder hmade hparts (by decide) (by decide)
  refine ⟨_, rfl, hmade, fun fault => hfault unknownCall _ fault (by cbv), ?_⟩
  obtain ⟨inverse, hdone, hinfix⟩ := hcall true (Expr.call "f" [.var "x"]).analyze (Expr.number 2).analyze "f"
    (Expr.var "x").analyze (some "x") (by cbv) (by cbv) (by cbv) (by cbv) (by cbv) (by cbv) (by simp)
  exact ⟨inverse, _, hdone, rfl, hinfix⟩

/-- **A placeholder may be of no use**: the braces around the name may be doubled ones, which are read as braces, and an
opening brace may stand alone. -/
theorem applyInverse_placeholder_useless :
    (∃ c : Config, c.placeholder = "\x7b\x7bname\x7d\x7d" ∧ c.Made ∧
      (unknownCall.applyInverse c.placeholder (some "x")).map (·.equation) =
        .ok ⟨[(Expr.var "x").analyze, .call "\x7bname\x7d" [.number 2]]⟩ ∧
      ¬"f".toList <:+: "\x7bname\x7d".toList) ∧
    ∃ c : Config, c.placeholder = "\x7bname\x7d\x7b" ∧ c.Made ∧
      unknownCall.applyInverse c.placeholder (some "x") = .error (.template .strayOpen) := by
  refine ⟨⟨{ Config.default with placeholder := "\x7b\x7bname\x7d\x7d" }, rfl, ?_, by cbv, by decide⟩,
    { Config.default with placeholder := "\x7bname\x7d\x7b" }, rfl, ?_, by cbv⟩
  · exact .given (s := { placeholder := "\x7b\x7bname\x7d\x7d" }) (by cbv)
  · exact .given (s := { placeholder := "\x7bname\x7d\x7b" }) (by cbv)

end Equation

end Isolate
