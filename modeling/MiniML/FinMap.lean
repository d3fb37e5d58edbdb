/-!
# Finite maps

A finite map is an association list whose keys are distinct. Only look-ups
are observable: `insert` puts the new entry in front, so listings that must
be stable sort the entries first.

Results:
* `get?_insert`, `get?_erase`, `get?_mapValues`, `get?_override`: what each
  operation does to a look-up.
-/
namespace MiniML

variable {κ α : Type} [DecidableEq κ]

/-- A finite map as a list of entries with distinct keys. -/
structure FinMap (κ α : Type) [DecidableEq κ] where
  entries : List (κ × α)
  nodup : (entries.map Prod.fst).Nodup

namespace FinMap

/-- The map without entries. -/
def empty : FinMap κ α := ⟨[], .nil⟩

instance : Inhabited (FinMap κ α) := ⟨empty⟩

/-- The value of the first entry at a key. -/
def look (k : κ) : List (κ × α) → Option α
  | [] => none
  | (j, a) :: es => if k = j then some a else look k es

/-- The value at a key. -/
def get? (m : FinMap κ α) (k : κ) : Option α := look k m.entries

/-- Whether a key has an entry. -/
def contains (m : FinMap κ α) (k : κ) : Bool := (m.get? k).isSome

/-- The number of entries. -/
def size (m : FinMap κ α) : Nat := m.entries.length

/-- Whether there is no entry. -/
def isEmpty (m : FinMap κ α) : Bool := m.entries.isEmpty

/-- The keys, in the order of the entries. -/
def keys (m : FinMap κ α) : List κ := m.entries.map Prod.fst

/-- The values, in the order of the entries. -/
def values (m : FinMap κ α) : List α := m.entries.map Prod.snd

omit [DecidableEq κ] in
theorem nodup_filter {p : κ × α → Bool} {es : List (κ × α)}
    (h : (es.map Prod.fst).Nodup) : ((es.filter p).map Prod.fst).Nodup :=
  h.sublist (List.filter_sublist.map _)

/-- Forget a key. -/
def erase (m : FinMap κ α) (k : κ) : FinMap κ α where
  entries := m.entries.filter (fun e => e.1 ≠ k)
  nodup := nodup_filter m.nodup

/-- Bind a key, over any earlier value. -/
def insert (m : FinMap κ α) (k : κ) (a : α) : FinMap κ α where
  entries := (k, a) :: (m.erase k).entries
  nodup := by
    refine List.nodup_cons.mpr ⟨?_, (m.erase k).nodup⟩
    simp [erase]

/-- The map with one entry. -/
def singleton (k : κ) (a : α) : FinMap κ α := empty.insert k a

/-- Change every value. -/
def mapValues (f : α → α) (m : FinMap κ α) : FinMap κ α where
  entries := m.entries.map fun e => (e.1, f e.2)
  nodup := by
    have h := m.nodup
    simpa [List.map_map, Function.comp_def] using h

/-- Bind the entries of a list from left to right, so that later ones win. -/
def insertMany (m : FinMap κ α) (es : List (κ × α)) : FinMap κ α :=
  es.foldl (fun acc e => acc.insert e.1 e.2) m

/-- The map of a list of entries; of two entries at one key the later wins. -/
def ofList (es : List (κ × α)) : FinMap κ α := empty.insertMany es

theorem look_eq_none {k : κ} {es : List (κ × α)} (h : look k es = none) (a : α) :
    (k, a) ∉ es := by
  induction es with
  | nil => simp
  | cons e es ih =>
    obtain ⟨j, b⟩ := e
    by_cases hk : k = j <;> simp_all [look]

/-- All entries of `top`, and those of `m` at other keys. -/
def override (m top : FinMap κ α) : FinMap κ α where
  entries := top.entries ++ m.entries.filter fun e => !top.contains e.1
  nodup := by
    rw [List.map_append, List.nodup_append]
    refine ⟨top.nodup, nodup_filter m.nodup, ?_⟩
    intro a ha b hb hab
    subst hab
    obtain ⟨⟨k, v⟩, hk, rfl⟩ := List.mem_map.mp hb
    obtain ⟨⟨k', w⟩, hw, rfl⟩ := List.mem_map.mp ha
    have hc := (List.mem_filter.mp hk).2
    exact look_eq_none (by simpa [contains, get?] using hc) w hw

/-! ## Look-ups -/

@[simp] theorem get?_empty (k : κ) : (empty : FinMap κ α).get? k = none := rfl

theorem look_filter_ne (es : List (κ × α)) (k l : κ) :
    look l (es.filter fun e => e.1 ≠ k) = if l = k then none else look l es := by
  induction es with
  | nil => simp [look]
  | cons e es ih =>
    obtain ⟨j, a⟩ := e
    by_cases hj : j = k <;> by_cases hl : l = k <;> by_cases hlj : l = j <;>
      simp_all [look]

theorem get?_erase (m : FinMap κ α) (k l : κ) :
    (m.erase k).get? l = if l = k then none else m.get? l :=
  look_filter_ne m.entries k l

theorem get?_insert (m : FinMap κ α) (k : κ) (a : α) (l : κ) :
    (m.insert k a).get? l = if l = k then some a else m.get? l := by
  have h := get?_erase m k l
  by_cases hl : l = k
  · simp [insert, get?, look, hl]
  · rw [if_neg hl] at h ⊢
    simpa [insert, get?, look, hl] using h

theorem get?_singleton (k : κ) (a : α) (l : κ) :
    (singleton k a).get? l = if l = k then some a else none := by
  simp [singleton, get?_insert]

theorem get?_mapValues (f : α → α) (m : FinMap κ α) (k : κ) :
    (m.mapValues f).get? k = (m.get? k).map f := by
  obtain ⟨es, h⟩ := m
  simp only [mapValues, get?]
  clear h
  induction es with
  | nil => rfl
  | cons e es ih => by_cases hk : k = e.1 <;> simp_all [look]

theorem get?_override (m top : FinMap κ α) (k : κ) :
    (m.override top).get? k = (top.get? k).or (m.get? k) := by
  have happ : ∀ es fs : List (κ × α), look k (es ++ fs) = (look k es).or (look k fs) := by
    intro es fs
    induction es with
    | nil => simp [look]
    | cons e es ih => by_cases hk : k = e.1 <;> simp_all [look]
  have hfil : ∀ es : List (κ × α), top.get? k = none →
      look k (es.filter fun e => !top.contains e.1) = look k es := by
    intro es htop
    induction es with
    | nil => rfl
    | cons e es ih =>
      obtain ⟨j, a⟩ := e
      by_cases hk : k = j
      · subst hk; simp [contains, htop, look]
      · by_cases hc : top.contains j <;> simp_all [look]
  show look k (top.entries ++ _) = _
  rw [happ]
  cases h : top.get? k with
  | some a => rw [show look k top.entries = some a from h]; rfl
  | none =>
    rw [show look k top.entries = none from h]
    exact hfil m.entries h

end FinMap
end MiniML
