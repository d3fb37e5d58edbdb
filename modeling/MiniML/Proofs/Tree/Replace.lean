import MiniML.Proofs.Typing.Slots

/-!
# Parts of a tree

The immediate parts of a tree are numbered from left to right. A part has a
place: a list of numbers, each the number of a part in the part before. The
part at a place may be replaced by another tree (`Expr.replaceAt?`), which
leaves everything around it as it is, whatever the slots of the tree hold
(`Expr.replaceAt?_mapTypes`).
-/
namespace MiniML

/-- A part of a tree, and what the tree is with another one in its place. -/
structure Expr.Part where
  tree : Expr
  put : Expr → Expr

namespace Expr

/-- The immediate part of a number. Patterns and annotations are no parts. -/
def part? : Expr → Nat → Option Part
  | .tuple es m, i => es[i]?.map fun e => ⟨e, fun e => .tuple (es.set i e) m⟩
  | .unary op e m, 0 => some ⟨e, fun e => .unary op e m⟩
  | .binary op l r m, 0 => some ⟨l, fun l => .binary op l r m⟩
  | .binary op l r m, 1 => some ⟨r, fun r => .binary op l r m⟩
  | .app f es m, 0 => some ⟨f, fun f => .app f es m⟩
  | .app f es m, i + 1 => es[i]?.map fun e => ⟨e, fun e => .app f (es.set i e) m⟩
  | .cond t y n m, 0 => some ⟨t, fun t => .cond t y n m⟩
  | .cond t y n m, 1 => some ⟨y, fun y => .cond t y n m⟩
  | .cond t y n m, 2 => n.map fun n => ⟨n, fun n => .cond t y (some n) m⟩
  | .cases e as m, 0 => some ⟨e, fun e => .cases e as m⟩
  | .cases e as m, i + 1 =>
    as[i]?.map fun a => ⟨a.body, fun b => .cases e (as.set i (.mk a.pattern b a.span)) m⟩
  | .bind n h v b m, 0 => some ⟨v, fun v => .bind n h v b m⟩
  | .bind n h v b m, 1 => b.map fun b => ⟨b, fun b => .bind n h v (some b) m⟩
  | .lam n ps h b r m, 0 => some ⟨b, fun b => .lam n ps h b r m⟩
  | .lam n ps h b r m, 1 => r.map fun r => ⟨r, fun r => .lam n ps h b (some r) m⟩
  | _, _ => none

/-- The tree with `r` in place of the part at a place, if there is one. -/
def replaceAt? (e : Expr) (place : List Nat) (r : Expr) : Option Expr :=
  match place with
  | [] => some r
  | i :: place => do
    let q ← e.part? i
    return q.put (← q.tree.replaceAt? place r)

mutual
/-- The names in a tree, where they are bound and where they are used. -/
def names : Expr → List String
  | .const _ _ => []
  | .ident n => [n.text]
  | .tuple es _ => namesAll es
  | .unary _ e _ => names e
  | .binary _ l r _ => names l ++ names r
  | .app f es _ => names f ++ namesAll es
  | .cond t y n _ => names t ++ names y ++ namesOption n
  | .cases e as _ => names e ++ namesArms as
  | .bind n _ v b _ => n.text :: (names v ++ namesOption b)
  | .lam n ps _ b r _ =>
    n.toList.map Name.text ++ ps.flatMap Pattern.names ++ names b ++ namesOption r
/-- The names in a list of trees. -/
def namesAll : List Expr → List String
  | [] => []
  | e :: es => names e ++ namesAll es
/-- The names in a part that may be missing. -/
def namesOption : Option Expr → List String
  | none => []
  | some e => names e
/-- The names in a list of alternatives. -/
def namesArms : List Arm → List String
  | [] => []
  | .mk p e _ :: as => p.names ++ names e ++ namesArms as
end

/-! ## Names -/

theorem namesAll_eq (es : List Expr) : namesAll es = es.flatMap names := by
  induction es <;> simp_all [namesAll]

theorem namesOption_eq (o : Option Expr) : namesOption o = o.toList.flatMap names := by
  cases o <;> simp [namesOption]

theorem namesArms_eq (as : List Arm) :
    namesArms as = as.flatMap fun a => a.pattern.names ++ a.body.names := by
  induction as with
  | nil => rfl
  | cons a as ih =>
    obtain ⟨p, e, s⟩ := a
    rw [namesArms, ih]
    rfl

theorem names_mapTypes (f : Ty → Ty) (e : Expr) : (e.mapTypes f).names = e.names := by
  have hopt : ∀ o : Option Expr, (∀ e ∈ o, (e.mapTypes f).names = e.names) →
      (o.map (mapTypes f)).toList.flatMap names = o.toList.flatMap names := by
    rintro (_ | e) h
    · rfl
    · simp [h e rfl]
  induction e with
  | const l m => rfl
  | ident n => rfl
  | tuple es m ih =>
    simp only [mapTypes, names, mapTypesAll_eq, namesAll_eq, List.flatMap_map, List.flatMap_congr ih]
  | unary op e m ih => simp only [mapTypes, names, ih]
  | binary op l r m hl hr => simp only [mapTypes, names, hl, hr]
  | app g es m hg ih =>
    simp only [mapTypes, names, mapTypesAll_eq, namesAll_eq, List.flatMap_map, hg,
      List.flatMap_congr ih]
  | cond t y n m ht hy hn =>
    simp only [mapTypes, names, mapTypesOption_eq, namesOption_eq, ht, hy, hopt n hn]
  | cases e as m he has =>
    simp only [mapTypes, names, mapTypesArms_eq, namesArms_eq, List.flatMap_map, he]
    refine congrArg (e.names ++ ·) (List.flatMap_congr fun a ha => ?_)
    show (a.pattern.mapTypes f).names ++ (a.body.mapTypes f).names = _
    rw [Pattern.mapTypes_names, has a ha]
  | bind n h v b m hv hb =>
    simp only [mapTypes, names, mapTypesOption_eq, namesOption_eq, hv, hopt b hb, Name.typed_text]
  | lam n ps h b r m hb hr =>
    have hn : (n.map fun n => n.typed (f n.mark.ty)).toList.map Name.text =
        n.toList.map Name.text := by cases n <;> rfl
    simp only [mapTypes, names, mapTypesOption_eq, namesOption_eq, Pattern.mapTypesItems_eq,
      List.flatMap_map, hn, hb, hopt r hr, Pattern.mapTypes_names]

/-- The names do not depend on the slots. -/
theorem names_of_blank {d e : Expr} (h : d.blank = e.blank) : d.names = e.names := by
  rw [← names_mapTypes (fun _ => .error) d, ← names_mapTypes (fun _ => .error) e]
  exact congrArg names h

theorem declared?_mem_names {e : Expr} {n : Name} (h : e.declared? = some n) : n.text ∈ e.names := by
  cases e with
  | bind m k v b s =>
    cases b with
    | none =>
      cases h
      simp [names]
    | some b => cases h
  | lam m ps k b r s =>
    cases r with
    | none =>
      obtain rfl : m = some n := h
      simp [names]
    | some r => cases h
  | _ => cases h

/-! ## Parts -/

/-- `q'` is the part `q` of a tree with other slots. -/
def Part.Mapped (f : Ty → Ty) (q q' : Part) : Prop :=
  q'.tree = q.tree.mapTypes f ∧ ∀ d : Expr, q'.put (d.mapTypes f) = (q.put d).mapTypes f

theorem Part.mapped_item {f : Ty → Ty} (g g' : List Expr → Expr)
    (h : ∀ es : List Expr, g' (es.map (mapTypes f)) = (g es).mapTypes f) (es : List Expr) (i : Nat) :
    Option.Rel (Part.Mapped f) (es[i]?.map fun e => ⟨e, fun e => g (es.set i e)⟩)
      ((es.map (mapTypes f))[i]?.map fun e => ⟨e, fun e => g' ((es.map (mapTypes f)).set i e)⟩) := by
  rw [List.getElem?_map]
  cases es[i]? with
  | none => exact .none
  | some e =>
    refine .some ⟨rfl, fun d => ?_⟩
    show g' ((es.map (mapTypes f)).set i (d.mapTypes f)) = _
    rw [← List.map_set, h]

/-- A tree with other slots has the same parts, with other slots. -/
theorem part?_mapTypes (f : Ty → Ty) (e : Expr) (i : Nat) :
    Option.Rel (Part.Mapped f) (e.part? i) ((e.mapTypes f).part? i) := by
  cases e with
  | const l m => exact .none
  | ident n => exact .none
  | tuple es m =>
    simp only [mapTypes, mapTypesAll_eq]
    exact Part.mapped_item (tuple · m) (tuple · (m.typed (f m.ty)))
      (fun es => by rw [mapTypes, mapTypesAll_eq]) es i
  | unary op e m =>
    match i with
    | 0 => exact .some ⟨rfl, fun _ => rfl⟩
    | _ + 1 => exact .none
  | binary op l r m =>
    match i with
    | 0 => exact .some ⟨rfl, fun _ => rfl⟩
    | 1 => exact .some ⟨rfl, fun _ => rfl⟩
    | _ + 2 => exact .none
  | app g es m =>
    match i with
    | 0 => exact .some ⟨rfl, fun _ => rfl⟩
    | i + 1 =>
      simp only [mapTypes, mapTypesAll_eq]
      exact Part.mapped_item (app g · m) (app (g.mapTypes f) · (m.typed (f m.ty)))
        (fun es => by rw [mapTypes, mapTypesAll_eq]) es i
  | cond t y n m =>
    match i with
    | 0 => exact .some ⟨rfl, fun _ => rfl⟩
    | 1 => exact .some ⟨rfl, fun _ => rfl⟩
    | 2 =>
      cases n with
      | none => exact .none
      | some n => exact .some ⟨rfl, fun _ => rfl⟩
    | _ + 3 => exact .none
  | cases e as m =>
    match i with
    | 0 => exact .some ⟨rfl, fun _ => rfl⟩
    | i + 1 =>
      simp only [mapTypes, mapTypesArms_eq, part?, List.getElem?_map]
      cases as[i]? with
      | none => exact .none
      | some a =>
        refine .some ⟨rfl, fun d => ?_⟩
        show cases (e.mapTypes f) ((as.map (Arm.mapTypes f)).set i
          (Arm.mapTypes f (.mk a.pattern d a.span))) _ = _
        rw [← List.map_set, mapTypes, mapTypesArms_eq]
  | bind n h v b m =>
    match i with
    | 0 => exact .some ⟨rfl, fun _ => rfl⟩
    | 1 =>
      cases b with
      | none => exact .none
      | some b => exact .some ⟨rfl, fun _ => rfl⟩
    | _ + 2 => exact .none
  | lam n ps h b r m =>
    match i with
    | 0 => exact .some ⟨rfl, fun _ => rfl⟩
    | 1 =>
      cases r with
      | none => exact .none
      | some r => exact .some ⟨rfl, fun _ => rfl⟩
    | _ + 2 => exact .none

/-- To replace a part of a tree with other slots is to replace it first. -/
theorem replaceAt?_mapTypes (f : Ty → Ty) (e : Expr) (place : List Nat) (r : Expr) :
    (e.mapTypes f).replaceAt? place (r.mapTypes f) = (e.replaceAt? place r).map (mapTypes f) := by
  induction place generalizing e with
  | nil => rfl
  | cons i place ih =>
    have hpart := part?_mapTypes f e i
    simp only [replaceAt?]
    cases hq : e.part? i with
    | none =>
      rw [hq] at hpart
      generalize (e.mapTypes f).part? i = o at hpart
      cases hpart
      rfl
    | some q =>
      rw [hq] at hpart
      generalize (e.mapTypes f).part? i = o at hpart
      cases hpart with
      | @some _ q' h =>
        simp only [Option.bind_eq_bind, Option.bind_some, h.1, ih]
        cases q.tree.replaceAt? place r with
        | none => rfl
        | some d => exact congrArg some (h.2 d)

/-- Trees that differ in their slots only still do when a part is replaced. -/
theorem exists_replaceAt? {r d e d' : Expr} {place : List Nat} (h : d.replaceAt? place r = some e)
    (hd : d'.blank = d.blank) : ∃ e', d'.replaceAt? place r = some e' ∧ e'.blank = e.blank := by
  have hb := replaceAt?_mapTypes (fun _ => .error) d place r
  have hb' := replaceAt?_mapTypes (fun _ => .error) d' place r
  rw [h, Option.map_some] at hb
  rw [show d'.mapTypes (fun _ => .error) = d.mapTypes fun _ => .error from hd, hb,
    eq_comm, Option.map_eq_some_iff] at hb'
  exact hb'

theorem replaceAt?_cons {e e' r : Expr} {i : Nat} {place : List Nat} :
    e.replaceAt? (i :: place) r = some e' ↔
      ∃ q d, e.part? i = some q ∧ q.tree.replaceAt? place r = some d ∧ q.put d = e' := by
  simp [replaceAt?, Option.bind_eq_some_iff]

/-- The names in a part are in the tree. -/
theorem Part.names_subset {e : Expr} {i : Nat} {q : Part} (h : e.part? i = some q) :
    q.tree.names ⊆ e.names := by
  intro x hx
  cases e with
  | const l m => cases h
  | ident n => cases h
  | tuple es m =>
    obtain ⟨e, he, rfl⟩ := Option.map_eq_some_iff.mp h
    simpa [names, namesAll_eq] using ⟨e, List.mem_of_getElem? he, hx⟩
  | unary op e m =>
    match i with
    | 0 => cases h; simpa [names] using hx
  | binary op l r m =>
    match i with
    | 0 => cases h; simpa [names] using .inl hx
    | 1 => cases h; simpa [names] using .inr hx
  | app g es m =>
    match i with
    | 0 => cases h; simpa [names] using .inl hx
    | i + 1 =>
      obtain ⟨e, he, rfl⟩ := Option.map_eq_some_iff.mp h
      simpa [names, namesAll_eq] using .inr ⟨e, List.mem_of_getElem? he, hx⟩
  | cond t y n m =>
    match i with
    | 0 => cases h; simpa [names] using .inl hx
    | 1 => cases h; simpa [names] using .inr (.inl hx)
    | 2 =>
      obtain ⟨n, rfl, rfl⟩ := Option.map_eq_some_iff.mp h
      simpa [names, namesOption] using .inr (.inr hx)
  | cases e as m =>
    match i with
    | 0 => cases h; simpa [names] using .inl hx
    | i + 1 =>
      obtain ⟨a, ha, rfl⟩ := Option.map_eq_some_iff.mp h
      simpa [names, namesArms_eq] using .inr ⟨a, List.mem_of_getElem? ha, .inr hx⟩
  | bind n k v b m =>
    match i with
    | 0 => cases h; simpa [names] using .inr (.inl hx)
    | 1 =>
      obtain ⟨b, rfl, rfl⟩ := Option.map_eq_some_iff.mp h
      simpa [names, namesOption] using .inr (.inr hx)
  | lam n ps k b r m =>
    match i with
    | 0 => cases h; simpa [names] using .inr (.inr (.inl hx))
    | 1 =>
      obtain ⟨r, rfl, rfl⟩ := Option.map_eq_some_iff.mp h
      simpa [names, namesOption] using .inr (.inr (.inr hx))

/-- With another part a tree still declares the same name, and is as much of a
function. -/
theorem Part.put_same {e : Expr} {i : Nat} {q : Part} (h : e.part? i = some q) (d : Expr) :
    (q.put d).declared? = e.declared? ∧ Infer.neverFunction (q.put d) = Infer.neverFunction e := by
  cases e with
  | const l m => cases h
  | ident n => cases h
  | tuple es m =>
    obtain ⟨e, -, rfl⟩ := Option.map_eq_some_iff.mp h
    exact ⟨rfl, rfl⟩
  | unary op e m =>
    match i with
    | 0 => cases h; exact ⟨rfl, rfl⟩
  | binary op l r m =>
    match i with
    | 0 => cases h; exact ⟨rfl, rfl⟩
    | 1 => cases h; exact ⟨rfl, rfl⟩
  | app g es m =>
    match i with
    | 0 => cases h; exact ⟨rfl, rfl⟩
    | i + 1 =>
      obtain ⟨e, -, rfl⟩ := Option.map_eq_some_iff.mp h
      exact ⟨rfl, rfl⟩
  | cond t y n m =>
    match i with
    | 0 => cases h; exact ⟨rfl, rfl⟩
    | 1 => cases h; exact ⟨rfl, rfl⟩
    | 2 =>
      obtain ⟨n, -, rfl⟩ := Option.map_eq_some_iff.mp h
      exact ⟨rfl, rfl⟩
  | cases e as m =>
    match i with
    | 0 => cases h; exact ⟨rfl, rfl⟩
    | i + 1 =>
      obtain ⟨a, -, rfl⟩ := Option.map_eq_some_iff.mp h
      exact ⟨rfl, rfl⟩
  | bind n k v b m =>
    match i with
    | 0 =>
      cases h
      cases b <;> exact ⟨rfl, rfl⟩
    | 1 =>
      obtain ⟨b, rfl, rfl⟩ := Option.map_eq_some_iff.mp h
      exact ⟨rfl, rfl⟩
  | lam n ps k b r m =>
    match i with
    | 0 =>
      cases h
      cases r <;> exact ⟨rfl, rfl⟩
    | 1 =>
      obtain ⟨r, rfl, rfl⟩ := Option.map_eq_some_iff.mp h
      exact ⟨rfl, rfl⟩

/-- To replace a proper part keeps the name that is declared. -/
theorem declared?_replaceAt? {e e' r : Expr} {place : List Nat} (hplace : place ≠ [])
    (h : e.replaceAt? place r = some e') : e'.declared? = e.declared? := by
  obtain ⟨i, place, rfl⟩ := List.exists_cons_of_ne_nil hplace
  obtain ⟨q, d, hq, -, rfl⟩ := replaceAt?_cons.mp h
  exact (Part.put_same hq d).1

end Expr
end MiniML
