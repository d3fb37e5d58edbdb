import MiniML.Proofs.Tree.Replace

/-!
# Trees without some of their annotations

An annotation stands at a binding or at a function, and its place is that of
its node. `Expr.unhint drop` leaves out the annotations at the places in `drop`
and keeps those at all others (`Expr.hintAt?_unhint`).
-/
namespace MiniML
namespace Expr

/-- The places of a set that lie in the part of a number, seen from that part. -/
def placesIn (drop : List Nat → Bool) (i : Nat) : List Nat → Bool := fun place => drop (i :: place)

mutual
/-- The tree without the annotations at the places in `drop`. -/
def unhint (drop : List Nat → Bool) : Expr → Expr
  | .const l m => .const l m
  | .ident n => .ident n
  | .tuple es m => .tuple (unhintAll drop 0 es) m
  | .unary op e m => .unary op (unhint (placesIn drop 0) e) m
  | .binary op l r m => .binary op (unhint (placesIn drop 0) l) (unhint (placesIn drop 1) r) m
  | .app f es m => .app (unhint (placesIn drop 0) f) (unhintAll drop 1 es) m
  | .cond t y n m =>
    .cond (unhint (placesIn drop 0) t) (unhint (placesIn drop 1) y)
      (unhintOption (placesIn drop 2) n) m
  | .cases e as m => .cases (unhint (placesIn drop 0) e) (unhintArms drop 1 as) m
  | .bind n h v b m =>
    .bind n (if drop [] then none else h) (unhint (placesIn drop 0) v)
      (unhintOption (placesIn drop 1) b) m
  | .lam n ps h b r m =>
    .lam n ps (if drop [] then none else h) (unhint (placesIn drop 0) b)
      (unhintOption (placesIn drop 1) r) m
/-- The same in the trees of a list, which are parts from number `i` on. -/
def unhintAll (drop : List Nat → Bool) (i : Nat) : List Expr → List Expr
  | [] => []
  | e :: es => unhint (placesIn drop i) e :: unhintAll drop (i + 1) es
/-- The same in a part that may be missing. -/
def unhintOption (drop : List Nat → Bool) : Option Expr → Option Expr
  | none => none
  | some e => some (unhint drop e)
/-- The same in the bodies of alternatives, which are parts from number `i` on. -/
def unhintArms (drop : List Nat → Bool) (i : Nat) : List Arm → List Arm
  | [] => []
  | .mk p e s :: as => .mk p (unhint (placesIn drop i) e) s :: unhintArms drop (i + 1) as
end

/-- The annotation of a node, if it has one. -/
def hint? : Expr → Option Hint
  | .bind _ h _ _ _ | .lam _ _ h _ _ _ => h
  | _ => none

/-- The annotation at a place of a tree, if there is one. -/
def hintAt? (e : Expr) : List Nat → Option Hint
  | [] => e.hint?
  | i :: place => do
    let q ← e.part? i
    q.tree.hintAt? place

variable {drop : List Nat → Bool}

theorem unhintOption_eq (o : Option Expr) : unhintOption drop o = o.map (unhint drop) := by
  cases o <;> rfl

theorem getElem?_unhintAll (es : List Expr) (i j : Nat) :
    (unhintAll drop i es)[j]? = es[j]?.map (unhint (placesIn drop (i + j))) := by
  induction es generalizing i j with
  | nil => rfl
  | cons e es ih =>
    cases j with
    | zero => rfl
    | succ j =>
      rw [unhintAll, List.getElem?_cons_succ, ih, List.getElem?_cons_succ, Nat.add_right_comm,
        Nat.add_assoc]

theorem getElem?_unhintArms (as : List Arm) (i j : Nat) :
    (unhintArms drop i as)[j]? = as[j]?.map fun a =>
      .mk a.pattern (unhint (placesIn drop (i + j)) a.body) a.span := by
  induction as generalizing i j with
  | nil => rfl
  | cons a as ih =>
    obtain ⟨p, e, s⟩ := a
    cases j with
    | zero => rfl
    | succ j =>
      rw [unhintArms, List.getElem?_cons_succ, ih, List.getElem?_cons_succ, Nat.add_right_comm,
        Nat.add_assoc]

theorem hint?_unhint (e : Expr) :
    (e.unhint drop).hint? = if drop [] then none else e.hint? := by
  cases e <;> simp [unhint, hint?]

/-- The parts of a tree, without the annotations in them. -/
theorem part?_unhint (e : Expr) (i : Nat) :
    ((e.unhint drop).part? i).map Part.tree =
      (e.part? i).map fun q => q.tree.unhint (placesIn drop i) := by
  cases e with
  | const l m => rfl
  | ident n => rfl
  | tuple es m =>
    simp only [unhint, part?, getElem?_unhintAll, Option.map_map, Function.comp_def, Nat.zero_add]
  | unary op e m => rcases i with _ | i <;> rfl
  | binary op l r m => rcases i with _ | _ | i <;> rfl
  | app f es m =>
    rcases i with _ | i
    · rfl
    · simp only [unhint, part?, getElem?_unhintAll, Option.map_map, Function.comp_def,
        Nat.add_comm 1 i]
  | cond t y n m =>
    rcases i with _ | _ | _ | i
    · rfl
    · rfl
    · cases n <;> rfl
    · rfl
  | cases e as m =>
    rcases i with _ | i
    · rfl
    · simp only [unhint, part?, getElem?_unhintArms, Option.map_map, Function.comp_def,
        Nat.add_comm 1 i, Arm.body]
  | bind n h v b m =>
    rcases i with _ | _ | i
    · rfl
    · cases b <;> rfl
    · rfl
  | lam n ps h b r m =>
    rcases i with _ | _ | i
    · rfl
    · cases r <;> rfl
    · rfl

/-- What is dropped is gone, and everything else stays. -/
theorem hintAt?_unhint (e : Expr) (place : List Nat) :
    (e.unhint drop).hintAt? place = if drop place then none else e.hintAt? place := by
  induction place generalizing e drop with
  | nil => exact hint?_unhint e
  | cons i place ih =>
    have hpart : ((e.unhint drop).part? i).map Part.tree = _ := part?_unhint e i
    simp only [hintAt?]
    cases hq : e.part? i with
    | none =>
      rw [hq, Option.map_none, Option.map_eq_none_iff] at hpart
      rw [hpart]
      exact (ite_self _).symm
    | some q =>
      rw [hq, Option.map_some, Option.map_eq_some_iff] at hpart
      obtain ⟨q', hq', htree⟩ := hpart
      rw [hq']
      show q'.tree.hintAt? place = if drop (i :: place) then none else q.tree.hintAt? place
      rw [htree, ih]
      rfl

theorem neverFunction_unhint (e : Expr) :
    Infer.neverFunction (e.unhint drop) = Infer.neverFunction e := by
  cases e <;> rfl

theorem declared?_unhint (e : Expr) : (e.unhint drop).declared? = e.declared? := by
  cases e with
  | bind n h v b m => cases b <;> rfl
  | lam n ps h b r m => cases r <;> rfl
  | _ => rfl

end Expr
end MiniML
