import ShaderAlgebra.Failure

/-!
# A registry of definitions

A registry is a log of definitions.  Each entry has a key, its category and its
name, and a body; a key is entered once and its body never changes.  Beside the
log stands an index, which tells for a key where its entry is, and a registry
carries the proof that its index is that of its log.  `find?` is the view by
which everything else is said: `add` and `insert` extend it at an absent key and
leave it alone at a present one.
-/

namespace ShaderAlgebra

/-- One definition in a registry. -/
structure Entry (β : Type) where
  category : Category
  name : String
  body : β
deriving DecidableEq, Repr

/-- What an entry is looked up by. -/
def Entry.key {β : Type} (e : Entry β) : Category × String :=
  (e.category, e.name)

/-- Where the entries of a log stand, by their keys, the latest first. -/
def Entry.places {β : Type} (entries : List (Entry β)) : List ((Category × String) × Nat) :=
  (entries.zipIdx.map fun place => (place.1.key, place.2)).reverse

/-- One more entry stands behind the others. -/
theorem Entry.places_concat {β : Type} (entries : List (Entry β)) (e : Entry β) :
    places (entries ++ [e]) = (e.key, entries.length) :: places entries := by
  simp [places, List.zipIdx_append]

theorem Entry.mem_places {β : Type} {entries : List (Entry β)} {key : Category × String} {i : Nat} :
    (key, i) ∈ places entries ↔ ∃ e, entries[i]? = some e ∧ e.key = key := by
  simp [places, List.mem_zipIdx_iff_getElem?]

/-- Definitions in the order in which they were entered, with an index of their places. -/
structure Registry (β : Type) where
  entries : List (Entry β)
  index : List ((Category × String) × Nat) := Entry.places entries
  agrees : index = Entry.places entries := by rfl
deriving DecidableEq, Repr

/-- Whether a definition was entered, or its key was already there. -/
inductive Emission where
  | generated
  | alreadyPresent
deriving DecidableEq, Repr

namespace Registry

variable {β : Type}

/-- The registry without entries. -/
def empty : Registry β :=
  { entries := [] }

instance : Inhabited (Registry β) :=
  ⟨empty⟩

/-- A registry is determined by its entries. -/
theorem eq_of_entries {r r' : Registry β} (h : r.entries = r'.entries) : r = r' := by
  obtain ⟨entries, index, agrees⟩ := r
  obtain ⟨entries', index', agrees'⟩ := r'
  subst agrees agrees'
  cases h
  rfl

/-- Whether an entry stands under a key. -/
def keyed (category : Category) (name : String) (e : Entry β) : Bool :=
  e.category == category && e.name == name

theorem keyed_iff {category : Category} {name : String} {e : Entry β} :
    keyed category name e ↔ e.key = (category, name) := by
  simp [keyed, Entry.key]

/-- The body under a key: that of the entry to which the index points. -/
def find? (r : Registry β) (category : Category) (name : String) : Option β := do
  let i ← r.index.lookup (category, name)
  let e ← r.entries[i]?
  return e.body

/-- Whether a key is present. -/
def contains (r : Registry β) (category : Category) (name : String) : Bool :=
  (r.index.lookup (category, name)).isSome

/-- **A key is present exactly when an entry stands under it.** -/
theorem contains_eq_any (r : Registry β) (category : Category) (name : String) :
    r.contains category name = r.entries.any (keyed category name) := by
  rw [contains, r.agrees, Bool.eq_iff_iff, List.lookup_isSome_iff, List.any_eq_true]
  constructor
  · rintro ⟨⟨key, i⟩, hmem, hkey⟩
    obtain ⟨e, he, rfl⟩ := Entry.mem_places.1 hmem
    exact ⟨e, List.mem_of_getElem? he, keyed_iff.2 (beq_iff_eq.1 hkey).symm⟩
  · rintro ⟨e, he, hkey⟩
    obtain ⟨i, hi⟩ := List.getElem?_of_mem he
    exact ⟨(e.key, i), Entry.mem_places.2 ⟨e, hi, rfl⟩, beq_iff_eq.2 (keyed_iff.1 hkey).symm⟩

/-- The number of entries. -/
def size (r : Registry β) : Nat :=
  r.entries.length

/-- Enters a definition at the end, and its place in the index. -/
def push (r : Registry β) (category : Category) (name : String) (body : β) : Registry β where
  entries := r.entries ++ [⟨category, name, body⟩]
  index := ((category, name), r.entries.length) :: r.index
  agrees := by rw [Entry.places_concat, r.agrees]; rfl

@[simp] theorem push_entries (r : Registry β) (category : Category) (name : String) (body : β) :
    (r.push category name body).entries = r.entries ++ [⟨category, name, body⟩] :=
  rfl

/-- Enters the definition that `make` yields, unless the key is present: `make` is run only if it
is not. -/
def addM {m : Type → Type} [Monad m] (r : Registry β) (category : Category) (name : String)
    (make : Unit → m β) : m (Emission × Registry β) := do
  if r.contains category name then
    return (.alreadyPresent, r)
  else
    let body ← make ()
    return (.generated, r.push category name body)

/-- Enters the definition that `make` gives, unless the key is present. -/
def add (r : Registry β) (category : Category) (name : String) (make : Unit → β) :
    Emission × Registry β :=
  Id.run (r.addM category name make)

theorem add_eq (r : Registry β) (category : Category) (name : String) (make : Unit → β) :
    r.add category name make =
      if r.contains category name then (.alreadyPresent, r)
      else (.generated, r.push category name (make ())) := by
  unfold add addM
  split <;> rfl

/-- Enters a definition.  A key may be entered again with the same body only. -/
def insert [DecidableEq β] (r : Registry β) (category : Category) (name : String) (body : β) :
    Except Failure (Emission × Registry β) :=
  match r.find? category name with
  | none => .ok (.generated, r.push category name body)
  | some known =>
    if known = body then .ok (.alreadyPresent, r) else .error (.conflict category name)

/-- The bodies of one category, in order. -/
def bodies (r : Registry β) (category : Category) : List β :=
  (r.entries.filter (·.category = category)).map (·.body)

/-- The text of all definitions, one a line: structs first, then functions. -/
def header (text : β → String) (r : Registry β) : String :=
  (r.bodies .struct ++ r.bodies .function).foldl (fun out body => out ++ text body ++ "\n") ""

end Registry
end ShaderAlgebra
