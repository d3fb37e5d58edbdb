import MiniML.Proofs.Grammar.HintText
import MiniML.Proofs.Ty.Rename
import MiniML.Proofs.Ty.Wide
import MiniML.Proofs.Typing.Derivation

/-!
# Types as annotations

A type is written as an annotation once its variables have names. The two have one
text, if the type has no tuple of less than two items and no error type; and if the
names tell the variables apart, the type is what the annotation says.

The names that `normalized` gives are type variables to the lexer, however many
there are, and they tell the variables of the type apart.

Results:
* `text_hint`: the text of a type is that of its annotation.
* `fits_hint`: a type is what its annotation says.
* `isTypeVar_letterName`, `letterName_injective`: the names of variables in a text.
-/
namespace MiniML.Ty

variable {name : TyVar → String} {t : Ty}

mutual
/-- The annotation that a type is written as, with the given names for its variables. -/
def hint (name : TyVar → String) : Ty → Hint
  | .var v => .var (name v)
  | .fn a b => .fn (hint name a) (hint name b)
  | .tuple ts => .tuple (hintItems name ts)
  | .prim p => .prim p
  | .error => .wildcard
/-- The annotations that the items of a tuple are written as. -/
def hintItems (name : TyVar → String) : List Ty → List Hint
  | [] => []
  | t :: ts => hint name t :: hintItems name ts
end

theorem hintItems_eq (name : TyVar → String) (ts : List Ty) :
    hintItems name ts = ts.map (hint name) := by
  induction ts <;> simp_all [hintItems]

theorem isFn_hint (t : Ty) : (t.hint name).isFn = t.isFn := by
  cases t <;> rfl

theorem isTuple_hint (t : Ty) : (t.hint name).isTuple = t.isTuple := by
  cases t <;> rfl

/-- The text of a type is that of its annotation. -/
theorem text_hint (herr : t.errorFree = true) (hwide : t.wide = true) :
    (t.hint name).text = t.text name := by
  induction t with
  | var v => rfl
  | fn a b ha hb =>
    obtain ⟨herra, herrb⟩ := errorFree_fn.mp herr
    obtain ⟨hwidea, hwideb⟩ := wide_fn.mp hwide
    rw [hint, Hint.text, text, ha herra hwidea, hb herrb hwideb, isFn_hint]
  | tuple ts ih =>
    obtain ⟨hlen, hts⟩ := wide_tuple.mp hwide
    have hitems {us : List Ty} (h : ∀ u ∈ us, (u.hint name).text = u.text name) :
        Hint.itemTexts (hintItems name us) = itemTexts name us := by
      induction us with
      | nil => rfl
      | cons u us ihs =>
        obtain ⟨hu, hus⟩ := List.forall_mem_cons.mp h
        rw [hintItems, Hint.itemTexts, itemTexts, hu, ihs hus, isFn_hint, isTuple_hint]
    have hempty : ts.isEmpty = false := by
      cases ts with
      | nil => cases hlen
      | cons t ts => rfl
    rw [hint, Hint.text, text, hempty,
      hitems fun u hu => ih u hu (errorFree_tuple.mp herr u hu) (hts u hu)]
    rfl
  | prim p => rfl
  | error => cases herr

theorem denotable_hint (hwide : t.wide = true) : (t.hint name).Denotable := by
  induction t with
  | var v => exact .var _
  | fn a b ha hb => exact .fn (ha (wide_fn.mp hwide).1) (hb (wide_fn.mp hwide).2)
  | tuple ts ih =>
    obtain ⟨hlen, hts⟩ := wide_tuple.mp hwide
    rw [hint, hintItems_eq]
    exact .tuple (by rwa [List.length_map]) (List.forall_mem_map.mpr fun u hu => ih u hu (hts u hu))
  | prim p => exact .prim p
  | error => exact .wildcard

theorem vars_hint (t : Ty) : (t.hint name).vars = t.leaves.map name := by
  induction t with
  | var v => rfl
  | fn a b ha hb => rw [hint, Hint.vars, ha, hb, leaves_fn, List.map_append]
  | tuple ts ih =>
    rw [hint, Hint.vars, Hint.varsItems_eq, hintItems_eq, leaves_tuple, List.flatMap_map,
      List.map_flatMap]
    exact List.flatMap_congr ih
  | prim p => rfl
  | error => rfl

/-- A type is what its annotation says, if each name means the variable that has it. -/
theorem fits_hint {names : String → Ty} (h : ∀ v ∈ t.leaves, names (name v) = .var v) :
    (t.hint name).Fits names t := by
  induction t with
  | var v => exact (h v (List.mem_singleton_self v)).symm
  | fn a b ha hb =>
    rw [leaves_fn] at h
    exact ⟨a, b, rfl, ha fun v hv => h v (List.mem_append_left _ hv),
      hb fun v hv => h v (List.mem_append_right _ hv)⟩
  | tuple ts ih =>
    refine ⟨ts, rfl, ?_⟩
    rw [leaves_tuple] at h
    have hall : ∀ u ∈ ts, (u.hint name).Fits names u := fun u hu =>
      ih u hu fun v hv => h v (List.mem_flatMap.mpr ⟨u, hu, hv⟩)
    clear ih h
    induction ts with
    | nil => rfl
    | cons u us ihs =>
      obtain ⟨hu, hus⟩ := List.forall_mem_cons.mp hall
      exact ⟨u, us, rfl, hu, ihs hus⟩
  | prim p => rfl
  | error => trivial

/-! ## Names by letters -/

theorem toList_letterName (i : Nat) : (letterName i).toList =
    '\'' :: Char.ofNat (97 + i % 26) :: if i < 26 then [] else Nat.toDigits 10 (i / 26) := by
  unfold letterName
  split
  · simp
  · simp [Nat.repr_eq_ofList_toDigits]

theorem isTypeVar_letterName (i : Nat) : Lexeme.IsTypeVar (letterName i) := by
  have hsmall : ∀ k < 26, Lexeme.isSmall (Char.ofNat (97 + k)) := by decide
  refine Lexeme.isTypeVar_iff.mpr
    ⟨_, _, toList_letterName i, hsmall _ (Nat.mod_lt i (by decide)), fun c hc => ?_⟩
  split at hc
  · cases hc
  · have hdigit : Lexeme.isDigit c := Nat.isDigit_of_mem_toDigits (by decide) (Nat.le_refl 10) hc
    simp [Lexeme.isNameChar, hdigit]

theorem letterName_injective : letterName.Injective := by
  intro i j h
  have hlists := congrArg String.toList h
  rw [toList_letterName, toList_letterName] at hlists
  obtain ⟨hletter, hdigits⟩ := List.cons.inj (List.cons.inj hlists).2
  have hmod : i % 26 = j % 26 := by
    have hinj : ∀ k < 26, ∀ l < 26, Char.ofNat (97 + k) = Char.ofNat (97 + l) → k = l := by decide
    exact hinj _ (Nat.mod_lt i (by decide)) _ (Nat.mod_lt j (by decide)) hletter
  have hdiv : i / 26 = j / 26 := by
    split at hdigits <;> split at hdigits
    · omega
    · exact absurd hdigits.symm Nat.toDigits_ne_nil
    · exact absurd hdigits Nat.toDigits_ne_nil
    · calc
        i / 26 = Nat.ofDigitChars 10 (Nat.toDigits 10 (i / 26)) 0 := Nat.ofDigitChars_ten_toDigits.symm
        _ = Nat.ofDigitChars 10 (Nat.toDigits 10 (j / 26)) 0 := by rw [hdigits]
        _ = j / 26 := Nat.ofDigitChars_ten_toDigits
  rw [← Nat.div_add_mod i 26, ← Nat.div_add_mod j 26, hdiv, hmod]

/-! ## The annotation that a type reads as -/

/-- The annotation with the text of a type, its variables named as `normalized` does. -/
def normalHint (t : Ty) : Hint := t.hint fun v => letterName (t.vars.idxOf v)

/-- The text of a type can be read as an annotation. -/
theorem parse_normalized (herr : t.errorFree = true) (hwide : t.wide = true) :
    ∃ tokens c, Token.lex t.normalized = .ok tokens ∧
      Grammar.hint (.ofTokens tokens) = .ok t.normalHint c ∧ c.rest = [] := by
  have htext : t.normalHint.text = t.normalized := text_hint herr hwide
  rw [← htext]
  refine Hint.parse_text (denotable_hint hwide) fun x hx => ?_
  rw [normalHint, vars_hint] at hx
  obtain ⟨v, -, rfl⟩ := List.mem_map.mp hx
  exact isTypeVar_letterName _

/-- A type is what the annotation says that it reads as. -/
theorem annotated_normalHint (t : Ty) : Annotated (some t.normalHint) t := by
  rintro _ ⟨⟩
  -- a name means the variable that has it
  let meaning (x : String) : Ty :=
    ((t.leaves.find? fun v => letterName (t.vars.idxOf v) = x).map Ty.var).getD .error
  refine ⟨meaning, fits_hint fun v hv => ?_⟩
  obtain ⟨w, hw⟩ : ∃ w, (t.leaves.find? fun u =>
      letterName (t.vars.idxOf u) = letterName (t.vars.idxOf v)) = some w := by
    rw [← Option.isSome_iff_exists, List.find?_isSome]
    exact ⟨v, hv, decide_eq_true rfl⟩
  have hsame : letterName (t.vars.idxOf w) = letterName (t.vars.idxOf v) := by
    simpa using List.find?_some hw
  have hmem : w ∈ t.vars := List.mem_eraseDups.mpr (List.mem_of_find?_eq_some hw)
  obtain rfl := (List.idxOf_inj hmem).mp (letterName_injective hsame)
  show Option.getD (Option.map Ty.var (t.leaves.find? _)) .error = _
  rw [hw]
  rfl

end MiniML.Ty
