import Mathlib.Algebra.Group.End
import Mathlib.Data.Fintype.Sum
import Mathlib.Data.List.GetD
import MiniML.Proofs.Ty.AsHint

/-!
# A type is known from its text

Where a type stands in a text, it can be told how far it goes and which type it is. A
whole type goes up to the end or to the parenthesis that closes around it, a type
without an arrow up to an arrow too, and an item up to a star too. So `Known` is shown
for the three positions together, by induction on the type: a whole type is known from
the row of its items and what is behind an arrow, a row from its items one by one, and
an item from the whole type in its parentheses, or from a word without spaces and
parentheses. Only a tuple with one item cannot be told from that item.

Results:
* `text_inj`: types with one text are the same, if the names of variables are told apart.
* `exists_perm_of_normalized_eq`: types with one normalized text differ by a permutation
  of their variables.
* `normalized_eq_iff`: this is when they have one.
-/
namespace MiniML

namespace Ty

open Lexeme (Ends)

variable {name : TyVar → String} {a b t u : Ty} {ts us : List Ty} {r s : List Char}

mutual
/-- Whether no tuple has exactly one item. -/
def singleFree : Ty → Bool
  | .var _ | .prim _ | .error => true
  | .fn a b => singleFree a && singleFree b
  | .tuple ts => ts.length != 1 && singleFreeItems ts
/-- Whether no tuple in a list of types has exactly one item. -/
def singleFreeItems : List Ty → Bool
  | [] => true
  | t :: ts => singleFree t && singleFreeItems ts
end

@[simp] theorem singleFree_fn :
    (fn a b).singleFree = true ↔ a.singleFree = true ∧ b.singleFree = true :=
  Bool.and_eq_true_iff

@[simp] theorem singleFree_tuple :
    (tuple ts).singleFree = true ↔ ts.length ≠ 1 ∧ ∀ t ∈ ts, t.singleFree = true := by
  have h : ∀ us, singleFreeItems us = true ↔ ∀ t ∈ us, t.singleFree = true := by
    intro us
    induction us with
    | nil => simp [singleFreeItems]
    | cons u us ih => simp [singleFreeItems, ih]
  rw [singleFree, Bool.and_eq_true, bne_iff_ne, h]

@[simp] theorem singleFree_rename (ρ : TyVar → TyVar) (t : Ty) :
    (t.rename ρ).singleFree = true ↔ t.singleFree = true := by
  induction t with
  | var v => rfl
  | fn a b ha hb => simp only [rename_fn, singleFree_fn, ha, hb]
  | tuple ts ih =>
    rw [rename_tuple, singleFree_tuple, singleFree_tuple, List.length_map, List.forall_mem_map]
    exact and_congr_right fun _ => forall₂_congr ih
  | prim p => rfl
  | error => rfl

/-! ## The characters of a text -/

/-- The characters of a type. -/
def chars (name : TyVar → String) (t : Ty) : List Char := (t.text name).toList

/-- The characters of an item. -/
def itemChars (name : TyVar → String) (t : Ty) : List Char :=
  (if t.isFn || t.isTuple then parens (t.text name) else t.text name).toList

/-- The characters of the items behind the first one. -/
def moreChars (name : TyVar → String) (ts : List Ty) : List Char :=
  ts.flatMap fun t => ' ' :: '*' :: ' ' :: itemChars name t

/-- The characters of a row of items. -/
def rowChars (name : TyVar → String) : List Ty → List Char
  | [] => ['(', ')']
  | t :: ts => itemChars name t ++ moreChars name ts

/-- The items in front of an arrow. -/
def factors : Ty → List Ty
  | .tuple ts => ts
  | t => [t]

theorem factors_inj (ht : t.singleFree = true) (hu : u.singleFree = true)
    (h : t.factors = u.factors) : t = u := by
  have hlen {ts : List Ty} {u : Ty} (hts : (tuple ts).singleFree = true) (h : ts = [u]) : False :=
    (singleFree_tuple.mp hts).1 (by rw [h]; rfl)
  cases t <;> cases u <;> first
    | exact congrArg tuple h
    | exact (hlen ht h).elim
    | exact (hlen hu h.symm).elim
    | exact (List.cons.inj h).1

theorem toList_parens (x : String) : (parens x).toList = '(' :: (x.toList ++ [')']) := by
  simp [parens]

theorem itemChars_of_wrapped (h : (t.isFn || t.isTuple) = true) :
    itemChars name t = '(' :: (chars name t ++ [')']) := by
  rw [itemChars, if_pos h, toList_parens, chars]

theorem itemChars_of_word (h : (t.isFn || t.isTuple) = false) :
    itemChars name t = chars name t := by
  rw [itemChars, if_neg (by simp [h]), chars]

theorem chars_tuple (ts : List Ty) : chars name (.tuple ts) = rowChars name ts := by
  have hrow (t : Ty) (ts : List Ty) :
      (" * ".intercalate (itemTexts name (t :: ts))).toList = rowChars name (t :: ts) := by
    induction ts generalizing t with
    | nil =>
      rw [itemTexts, itemTexts, String.intercalate_singleton]
      exact (List.append_nil _).symm
    | cons u us ih =>
      rw [itemTexts, itemTexts, String.intercalate_cons_cons, ← itemTexts, String.toList_append,
        String.toList_append, ih, List.append_assoc]
      rfl
  rw [chars, text]
  cases ts with
  | nil => exact (by decide : "()".toList = ['(', ')'])
  | cons t ts => exact hrow t ts

theorem rowChars_factors (t : Ty) : rowChars name t.factors =
    if t.isFn then '(' :: (chars name t ++ [')']) else chars name t := by
  cases t with
  | fn a b => exact (List.append_nil _).trans (itemChars_of_wrapped rfl)
  | tuple ts => exact (chars_tuple ts).symm
  | _ => exact (List.append_nil _).trans (itemChars_of_word rfl)

theorem chars_of_not_fn (h : t.isFn = false) : chars name t = rowChars name t.factors := by
  rw [rowChars_factors, h]
  rfl

theorem chars_fn (a b : Ty) : chars name (.fn a b) =
    rowChars name a.factors ++ ' ' :: '-' :: '>' :: ' ' :: chars name b := by
  rw [rowChars_factors, chars, text, String.toList_append, String.toList_append, List.append_assoc]
  cases a.isFn with
  | true => exact congrArg (· ++ _) (toList_parens _)
  | false => rfl

/-! ## Words

A type that is never in parentheses is a word: it has no spaces and no parentheses. -/

/-- Names that tell variables apart and are read as type variables. -/
structure Naming (name : TyVar → String) : Prop where
  injective : name.Injective
  isTypeVar : ∀ v, Lexeme.IsTypeVar (name v)

/-- Characters of words. -/
def isPlain (c : Char) : Bool := c != ' ' && c != '(' && c != ')'

theorem isPlain_of_nameChar {c : Char} (h : Lexeme.isNameChar c) : isPlain c := by
  rw [isPlain, Bool.and_eq_true, Bool.and_eq_true, bne_iff_ne, bne_iff_ne, bne_iff_ne]
  refine ⟨⟨?_, ?_⟩, ?_⟩ <;> rintro rfl <;> exact absurd h (by decide)

theorem plain_of_word (hname : Naming name) (h : (t.isFn || t.isTuple) = false) :
    chars name t ≠ [] ∧ ∀ c ∈ chars name t, isPlain c := by
  cases t with
  | var v =>
    obtain ⟨c, ws, hv, hc, hws⟩ := Lexeme.isTypeVar_iff.mp (hname.isTypeVar v)
    have hc : Lexeme.isNameChar c := by simp [Lexeme.isNameChar, Lexeme.letter_of_small hc]
    have hrest : ∀ d ∈ c :: ws, Lexeme.isNameChar d := List.forall_mem_cons.mpr ⟨hc, hws⟩
    rw [show chars name (.var v) = '\'' :: c :: ws from hv]
    exact ⟨List.cons_ne_nil _ _,
      List.forall_mem_cons.mpr ⟨rfl, fun d hd => isPlain_of_nameChar (hrest d hd)⟩⟩
  | prim p =>
    have hall : p.name.toList ≠ [] ∧ p.name.toList.all isPlain = true := by cases p <;> decide
    exact ⟨hall.1, List.all_eq_true.mp hall.2⟩
  | error =>
    have hall : "<error>".toList ≠ [] ∧ "<error>".toList.all isPlain = true := by decide
    exact ⟨hall.1, List.all_eq_true.mp hall.2⟩
  | fn a b => cases h
  | tuple ts => cases h

theorem head_of_word (hname : Naming name) (h : (t.isFn || t.isTuple) = false) :
    ∃ c ws, chars name t = c :: ws ∧ isPlain c := by
  obtain ⟨hne, hplain⟩ := plain_of_word hname h
  obtain ⟨c, ws, hc⟩ := List.exists_cons_of_ne_nil hne
  exact ⟨c, ws, hc, hplain c (hc ▸ List.mem_cons_self)⟩

/-- A word does not begin with a parenthesis. -/
theorem word_ne_open (hname : Naming name) (h : (t.isFn || t.isTuple) = false) :
    chars name t ++ r ≠ '(' :: s := by
  obtain ⟨c, ws, hc, hplain⟩ := head_of_word hname h
  intro heq
  rw [hc] at heq
  obtain ⟨rfl, -⟩ := List.cons.inj heq
  exact absurd hplain (by decide)

theorem word_inj (hname : Naming name) (ht : (t.isFn || t.isTuple) = false)
    (hu : (u.isFn || u.isTuple) = false) (h : chars name t = chars name u) : t = u := by
  have htext : t.text name = u.text name := String.toList_inj.mp h
  -- only the names of variables begin with an apostrophe
  have hvar (v : TyVar) (x : String) (hx : x.toList.head? ≠ some '\'') : name v ≠ x := by
    rintro rfl
    obtain ⟨c, ws, hv, -⟩ := Lexeme.isTypeVar_iff.mp (hname.isTypeVar v)
    exact hx (by rw [hv]; rfl)
  have hprim (p : Prim) : p.name.toList.head? ≠ some '\'' ∧ p.name ≠ "<error>" := by
    cases p <;> decide
  have herror : "<error>".toList.head? ≠ some '\'' := by decide
  cases t with
  | fn a b => cases ht
  | tuple ts => cases ht
  | var v =>
    cases u with
    | var w => exact congrArg var (hname.injective htext)
    | prim p => exact absurd htext (hvar v _ (hprim p).1)
    | error => exact absurd htext (hvar v _ herror)
    | fn a b => cases hu
    | tuple ts => cases hu
  | prim p =>
    cases u with
    | var v => exact absurd htext.symm (hvar v _ (hprim p).1)
    | prim q =>
      have hsame := congrArg Prim.ofName? (show p.name = q.name from htext)
      rw [Prim.ofName?_name, Prim.ofName?_name] at hsame
      exact congrArg prim (Option.some.inj hsame)
    | error => exact absurd htext (hprim p).2
    | fn a b => cases hu
    | tuple ts => cases hu
  | error =>
    cases u with
    | var v => exact absurd htext.symm (hvar v _ herror)
    | prim p => exact absurd htext.symm (hprim p).2
    | error => rfl
    | fn a b => cases hu
    | tuple ts => cases hu

/-! ## What stands behind a type -/

/-- Behind a whole type stands nothing, or the parenthesis that closes around it. -/
def Closes (r : List Char) : Prop := ∀ c ∈ r.head?, c = ')'

/-- Behind a type without an arrow there may be an arrow too. -/
def Turns (r : List Char) : Prop := Closes r ∨ ∃ x, r = ' ' :: '-' :: '>' :: ' ' :: x

theorem closes_paren : Closes (')' :: r) := fun _ hc => (Option.some.inj hc).symm

theorem not_closes_space : ¬ Closes (' ' :: r) := fun h => absurd (h ' ' rfl) (by decide)

theorem not_turns_star : ¬ Turns (' ' :: '*' :: r) := by
  rintro (h | ⟨x, h⟩)
  · exact not_closes_space h
  · exact absurd (List.cons.inj (List.cons.inj h).2).1 (by decide)

theorem Turns.ends (h : Turns r) : Ends r := by
  rcases h with h | ⟨x, rfl⟩
  · exact fun c hc => .inr (h c hc)
  · exact Lexeme.ends_cons (.inl rfl)

theorem ends_moreChars (hr : Turns r) (ts : List Ty) : Ends (moreChars name ts ++ r) := by
  cases ts with
  | nil => exact hr.ends
  | cons t ts => exact Lexeme.ends_cons (.inl rfl)

/-- A type is known from the characters that it has in some position, whatever stands
behind it: no other type has the same there. -/
def Known (print : Ty → List Char) (Behind : List Char → Prop) (t : Ty) : Prop :=
  ∀ ⦃u : Ty⦄ ⦃r s : List Char⦄, u.singleFree = true → Behind r → Behind s →
    print t ++ r = print u ++ s → t = u ∧ r = s

theorem known_item (hname : Naming name)
    (h : (t.isFn || t.isTuple) = true → Known (chars name) Closes t) :
    Known (itemChars name) Ends t := by
  intro u r s hu hr hs heq
  cases ht : t.isFn || t.isTuple with
  | true =>
    cases hu' : u.isFn || u.isTuple with
    | false =>
      rw [itemChars_of_wrapped ht, itemChars_of_word hu'] at heq
      exact (word_ne_open hname hu' heq.symm).elim
    | true =>
      rw [itemChars_of_wrapped ht, itemChars_of_wrapped hu', List.cons_append, List.cons_append,
        List.append_assoc, List.append_assoc] at heq
      obtain ⟨htu, hrs⟩ := h ht hu closes_paren closes_paren (List.cons.inj heq).2
      exact ⟨htu, (List.cons.inj hrs).2⟩
  | false =>
    cases hu' : u.isFn || u.isTuple with
    | true =>
      rw [itemChars_of_word ht, itemChars_of_wrapped hu'] at heq
      exact (word_ne_open hname ht heq).elim
    | false =>
      rw [itemChars_of_word ht, itemChars_of_word hu'] at heq
      have hlen := congrArg (Lexeme.run isPlain) heq
      rw [Lexeme.run_ends (plain_of_word hname ht).2 hr rfl rfl,
        Lexeme.run_ends (plain_of_word hname hu').2 hs rfl rfl] at hlen
      obtain ⟨hchars, hrs⟩ := List.append_inj heq hlen
      exact ⟨word_inj hname ht hu' hchars, hrs⟩

/-! ## Rows of items -/

theorem known_more (hts : ∀ t ∈ ts, Known (itemChars name) Ends t)
    (hus : ∀ u ∈ us, u.singleFree = true) (hr : Turns r) (hs : Turns s)
    (h : moreChars name ts ++ r = moreChars name us ++ s) : ts = us ∧ r = s := by
  induction ts generalizing us with
  | nil =>
    cases us with
    | nil => exact ⟨rfl, h⟩
    | cons u us =>
      obtain rfl : r = _ := h
      exact absurd hr not_turns_star
  | cons t ts ih =>
    cases us with
    | nil =>
      obtain rfl : s = _ := h.symm
      exact absurd hs not_turns_star
    | cons u us =>
      obtain ⟨ht, hts⟩ := List.forall_mem_cons.mp hts
      obtain ⟨hu, hmore⟩ := List.forall_mem_cons.mp hus
      simp only [moreChars, List.flatMap_cons, List.cons_append, List.cons.injEq, true_and,
        List.append_assoc] at h
      obtain ⟨rfl, hrest⟩ := ht hu (ends_moreChars hr ts) (ends_moreChars hs us) h
      obtain ⟨rfl, hrs⟩ := ih hts hmore hrest
      exact ⟨rfl, hrs⟩

/-- Nothing is closed where a type begins. -/
theorem not_closes_chars (hname : Naming name) (t : Ty) (r : List Char) :
    ¬ Closes (chars name t ++ r) := by
  have hopen (r : List Char) : ¬ Closes ('(' :: r) := fun h => absurd (h '(' rfl) (by decide)
  have hword {t : Ty} (ht : (t.isFn || t.isTuple) = false) (r : List Char) :
      ¬ Closes (chars name t ++ r) := by
    obtain ⟨c, ws, hc, hplain⟩ := head_of_word hname ht
    rw [hc]
    intro h
    obtain rfl := h c rfl
    exact absurd hplain (by decide)
  induction t generalizing r with
  | fn a b ha hb =>
    rw [chars_fn, rowChars_factors]
    split
    · exact hopen _
    · rw [List.append_assoc]
      exact ha _
  | tuple ts ih =>
    rw [chars_tuple]
    cases ts with
    | nil => exact hopen _
    | cons t ts =>
      rw [rowChars, List.append_assoc]
      cases ht : t.isFn || t.isTuple with
      | true =>
        rw [itemChars_of_wrapped ht]
        exact hopen _
      | false =>
        rw [itemChars_of_word ht]
        exact ih t List.mem_cons_self _
  | var v => exact hword rfl r
  | prim p => exact hword rfl r
  | error => exact hword rfl r

theorem known_row (hname : Naming name) (hts : ∀ t ∈ ts, Known (itemChars name) Ends t)
    (hus : ∀ u ∈ us, u.singleFree = true) (hr : Turns r) (hs : Turns s)
    (h : rowChars name ts ++ r = rowChars name us ++ s) : ts = us ∧ r = s := by
  -- an item is no pair of parentheses with nothing between them
  have hempty {u : Ty} {us : List Ty} {r s : List Char}
      (h : '(' :: ')' :: r = rowChars name (u :: us) ++ s) : False := by
    rw [rowChars, List.append_assoc] at h
    cases hu : u.isFn || u.isTuple with
    | true =>
      rw [itemChars_of_wrapped hu, List.cons_append, List.append_assoc] at h
      have hclose : Closes (')' :: r) := closes_paren
      rw [(List.cons.inj h).2] at hclose
      exact not_closes_chars hname u _ hclose
    | false =>
      rw [itemChars_of_word hu] at h
      exact word_ne_open hname hu h.symm
  cases ts with
  | nil =>
    cases us with
    | nil => exact ⟨rfl, (List.cons.inj (List.cons.inj h).2).2⟩
    | cons u us => exact (hempty h).elim
  | cons t ts =>
    cases us with
    | nil => exact (hempty h.symm).elim
    | cons u us =>
      obtain ⟨ht, hts⟩ := List.forall_mem_cons.mp hts
      obtain ⟨hu, hmore⟩ := List.forall_mem_cons.mp hus
      rw [rowChars, rowChars, List.append_assoc, List.append_assoc] at h
      obtain ⟨rfl, hrest⟩ := ht hu (ends_moreChars hr ts) (ends_moreChars hs us) h
      obtain ⟨rfl, hrs⟩ := known_more hts hmore hr hs hrest
      exact ⟨rfl, hrs⟩

/-! ## Whole types -/

theorem isFn_eq_false_or (t : Ty) : t.isFn = false ∨ ∃ a b, t = .fn a b := by
  cases t with
  | fn a b => exact .inr ⟨a, b, rfl⟩
  | _ => exact .inl rfl

theorem known_factors (hname : Naming name) (ht : t.singleFree = true)
    (h : ∀ f ∈ t.factors, Known (itemChars name) Ends f) :
    Known (fun t => rowChars name t.factors) Turns t := by
  intro u r s hu hr hs heq
  have hfactors : ∀ f ∈ u.factors, f.singleFree = true := by
    cases u with
    | tuple us => exact (singleFree_tuple.mp hu).2
    | _ => exact List.forall_mem_singleton.mpr hu
  obtain ⟨htu, hrs⟩ := known_row hname h hfactors hr hs heq
  exact ⟨factors_inj ht hu htu, hrs⟩

theorem known_of_not_fn (hfn : t.isFn = false)
    (ht : Known (fun t => rowChars name t.factors) Turns t) : Known (chars name) Closes t := by
  intro u r s hu hr hs heq
  rw [chars_of_not_fn hfn] at heq
  obtain hu' | ⟨c, d, rfl⟩ := u.isFn_eq_false_or
  · rw [chars_of_not_fn hu'] at heq
    exact ht hu (.inl hr) (.inl hs) heq
  · rw [chars_fn, List.append_assoc] at heq
    obtain ⟨-, rfl⟩ := ht (singleFree_fn.mp hu).1 (.inl hr) (.inr ⟨_, rfl⟩) heq
    exact absurd hr not_closes_space

theorem known_fn (ha : Known (fun t => rowChars name t.factors) Turns a)
    (hb : Known (chars name) Closes b) : Known (chars name) Closes (.fn a b) := by
  intro u r s hu hr hs heq
  rw [chars_fn, List.append_assoc] at heq
  obtain hu' | ⟨c, d, rfl⟩ := u.isFn_eq_false_or
  · rw [chars_of_not_fn hu'] at heq
    obtain ⟨-, rfl⟩ := ha hu (.inr ⟨_, rfl⟩) (.inl hs) heq
    exact absurd hs not_closes_space
  · obtain ⟨hc, hd⟩ := singleFree_fn.mp hu
    rw [chars_fn, List.append_assoc] at heq
    obtain ⟨rfl, hrest⟩ := ha hc (.inr ⟨_, rfl⟩) (.inr ⟨_, rfl⟩) heq
    simp only [List.cons.injEq, true_and] at hrest
    obtain ⟨rfl, hrs⟩ := hb hd hr hs hrest
    exact ⟨rfl, hrs⟩

/-- A type is known in front of an arrow and as a whole. -/
theorem known (hname : Naming name) (ht : t.singleFree = true) :
    Known (fun t => rowChars name t.factors) Turns t ∧ Known (chars name) Closes t := by
  have hword {t : Ty} (hw : (t.isFn || t.isTuple) = false) (hfactors : t.factors = [t])
      (hfree : t.singleFree = true) :
      Known (fun t => rowChars name t.factors) Turns t ∧ Known (chars name) Closes t := by
    have hitem : ∀ f ∈ t.factors, Known (itemChars name) Ends f := by
      rw [hfactors]
      exact List.forall_mem_singleton.mpr
        (known_item hname fun h => absurd (hw.symm.trans h) Bool.false_ne_true)
    have hrow := known_factors hname hfree hitem
    exact ⟨hrow, known_of_not_fn (Bool.or_eq_false_iff.mp hw).1 hrow⟩
  induction t with
  | var v => exact hword rfl rfl rfl
  | prim p => exact hword rfl rfl rfl
  | error => exact hword rfl rfl rfl
  | fn a b ha hb =>
    obtain ⟨hfa, hfb⟩ := singleFree_fn.mp ht
    have hwhole := known_fn (ha hfa).1 (hb hfb).2
    have hitem := List.forall_mem_singleton.mpr (known_item hname fun _ => hwhole)
    exact ⟨known_factors hname ht hitem, hwhole⟩
  | tuple ts ih =>
    have hitems : ∀ f ∈ ts, Known (itemChars name) Ends f := fun f hf =>
      known_item hname fun _ => (ih f hf ((singleFree_tuple.mp ht).2 f hf)).2
    have hrow := known_factors hname ht hitems
    exact ⟨hrow, known_of_not_fn rfl hrow⟩

/-- Types with one text are the same. -/
theorem text_inj (hname : Naming name) (ht : t.singleFree = true) (hu : u.singleFree = true)
    (h : t.text name = u.text name) : t = u := by
  have hnil : Closes [] := nofun
  exact ((known hname ht).2 hu hnil hnil (congrArg (·.toList ++ []) h)).1

end Ty

/-! ## Permutations -/

/-- A renaming of finitely many variables that tells them apart goes on to a permutation
that moves no more than these and those that they become. -/
theorem exists_perm_of_injOn {f : TyVar → TyVar} {vs ws : List TyVar}
    (hmaps : ∀ v ∈ vs, f v ∈ ws) (hinj : ∀ v ∈ vs, ∀ w ∈ vs, f v = f w → v = w) :
    ∃ π : Equiv.Perm TyVar, (∀ v ∈ vs, π v = f v) ∧ ∀ v, v ∉ vs → v ∉ ws → π v = v := by
  let all : Finset TyVar := (vs ++ ws).toFinset
  let moved : Finset all := Finset.univ.filter fun v => v.1 ∈ vs
  have hmem {v : TyVar} (hv : v ∈ vs) : v ∈ all := by simp [all, hv]
  have himage : moved.image (fun v => f v.1) ⊆ all := by
    intro w hw
    obtain ⟨v, hv, rfl⟩ := Finset.mem_image.mp hw
    simp [all, hmaps v.1 (Finset.mem_filter.mp hv).2]
  have hon : Set.InjOn (fun v : all => f v.1) moved := by
    intro v hv w hw h
    exact Subtype.ext (hinj _ (Finset.mem_filter.mp hv).2 _ (Finset.mem_filter.mp hw).2 h)
  obtain ⟨g, hg⟩ := Finset.exists_equiv_extend_of_card_eq (Fintype.card_coe all) himage hon
  refine ⟨Equiv.Perm.ofSubtype g, fun v hv => ?_, fun v hv hw => ?_⟩
  · rw [Equiv.Perm.ofSubtype_apply_of_mem g (hmem hv)]
    exact hg ⟨v, hmem hv⟩ (Finset.mem_filter.mpr ⟨Finset.mem_univ _, hv⟩)
  · exact Equiv.Perm.ofSubtype_apply_of_not_mem g (by simp [all, hv, hw])

namespace Ty

variable {t u : Ty}

/-- Types that are renamed to each other differ by a permutation of their variables. -/
theorem exists_perm_of_rename {f g : TyVar → TyVar} (hu : t.rename f = u) (ht : u.rename g = t) :
    ∃ π : Equiv.Perm TyVar, t.rename π = u ∧ ∀ v, v ∉ t.leaves → v ∉ u.leaves → π v = v := by
  have hback : ∀ v ∈ t.leaves, g (f v) = v := by
    rw [← hu, rename_rename] at ht
    intro v hv
    exact var.inj (subst_eq_subst_iff.mp (ht.trans (rename_id t).symm) v hv)
  have hmaps : ∀ v ∈ t.leaves, f v ∈ u.leaves := by
    rw [← hu, leaves_rename]
    exact fun v hv => List.mem_map_of_mem hv
  obtain ⟨π, hπ, hfix⟩ := exists_perm_of_injOn hmaps fun v hv w hw h => by
    rw [← hback v hv, h, hback w hw]
  exact ⟨π, (rename_congr hπ).trans hu, hfix⟩

/-! ## Variables in order of appearance -/

/-- A type with its variables numbered in the order of their first appearance. -/
def numbered (t : Ty) : Ty := t.rename fun v => t.vars.idxOf v

theorem text_numbered (t : Ty) : t.numbered.text letterName = t.normalized :=
  text_rename letterName t

/-- The variables tell which type was numbered. -/
theorem rename_numbered (t : Ty) : t.numbered.rename (t.vars.getD · 0) = t := by
  rw [numbered, rename_rename]
  refine rename_eq_self fun v hv => ?_
  have hmem : v ∈ t.vars := List.mem_eraseDups.mpr hv
  rw [List.getD_eq_getElem _ _ (List.idxOf_lt_length_of_mem hmem), List.getElem_idxOf]

/-- Types with one normalized text differ by a permutation that moves their variables only. -/
theorem exists_perm_of_normalized_eq (ht : t.singleFree = true) (hu : u.singleFree = true)
    (h : t.normalized = u.normalized) : ∃ π : Equiv.Perm TyVar, t.rename π = u ∧
      ∀ v, v ∉ t.leaves → v ∉ u.leaves → π v = v := by
  have hnaming : Naming letterName := ⟨letterName_injective, isTypeVar_letterName⟩
  rw [← text_numbered, ← text_numbered] at h
  have hsame : t.numbered = u.numbered :=
    text_inj hnaming ((singleFree_rename _ t).mpr ht) ((singleFree_rename _ u).mpr hu) h
  have hto := u.rename_numbered
  have hfrom := t.rename_numbered
  rw [← hsame, numbered, rename_rename] at hto
  rw [hsame, numbered, rename_rename] at hfrom
  exact exists_perm_of_rename hto hfrom

/-- Normalized text identifies a type up to its variables' names: it is the same for two
types without tuples of one item just if a permutation of variables takes one to the
other. -/
theorem normalized_eq_iff (ht : t.singleFree = true) (hu : u.singleFree = true) :
    t.normalized = u.normalized ↔ ∃ π : Equiv.Perm TyVar, t.rename π = u := by
  constructor
  · intro h
    obtain ⟨π, hπ, -⟩ := exists_perm_of_normalized_eq ht hu h
    exact ⟨π, hπ⟩
  · rintro ⟨π, rfl⟩
    exact (normalized_rename π.injective t).symm

/-- Variable 3 is one variable of the first type and another one of the second. In the
third type it is both. -/
theorem normalized_eq_iff_three :
    let type (v w : TyVar) : Ty :=
      .fn (.tuple [.var v, .error]) (.fn (.tuple []) (.fn (.var w) (.var v)))
    (type 7 3).singleFree = true ∧ (type 3 9).singleFree = true ∧ (type 3 3).singleFree = true ∧
      (type 7 3).normalized = "'a * <error> -> () -> 'b -> 'a" ∧
      (type 7 3).normalized = (type 3 9).normalized ∧
      (∃ π : Equiv.Perm TyVar, (type 7 3).rename π = type 3 9) ∧
      ¬ ∃ π : Equiv.Perm TyVar, (type 7 3).rename π = type 3 3 := by
  intro type
  have hsame : (type 7 3).normalized = (type 3 9).normalized := by decide
  have hother : (type 7 3).normalized ≠ (type 3 3).normalized := by decide
  refine ⟨rfl, rfl, rfl, by decide, hsame, ?_, ?_⟩
  · exact (normalized_eq_iff rfl rfl).mp hsame
  · exact fun h => hother ((normalized_eq_iff rfl rfl).mpr h)

end Ty
end MiniML
