/-
JSON values, as far as records of programs and settings need them: numbers are integers. Members of an object keep
their order, and a name may occur twice.

A record is read from an object with the members it names, or from the array of their values in order.
-/

namespace AliasLang

/-- A JSON value. -/
inductive Json where
  | null
  | bool (value : Bool)
  | num (value : Int)
  | str (value : String)
  | arr (items : List Json)
  | obj (members : List (String × Json))
deriving Inhabited

namespace Json

/-- A natural number as a value. -/
def ofNat (n : Nat) : Json := .num n

/-- A text that may be missing. -/
def ofText? : Option String → Json
  | some s => .str s
  | none => .null

/-- The member `name` of a record with the given members. -/
def member? (names : List String) (name : String) : Json → Option Json
  | .obj members => members.lookup name
  | .arr items => if items.length = names.length then (names.idxOf? name).bind (items[·]?) else none
  | _ => none

/-- A text. -/
def text? : Json → Option String
  | .str s => some s
  | _ => none

/-- The name of a case: a text, or the place of the name among `cases`, counted from zero. -/
def caseName? (cases : List String) : Json → Option String
  | .str name => some name
  | .num (.ofNat n) => cases[n]?
  | _ => none

/-- The case of a record with a tag, which `name?` reads, and what is left to read of the record. In an array the tag
comes first. -/
def tagged? (name? : Json → Option String) (tag : String) : Json → Option (String × Json)
  | .obj members => ((members.lookup tag).bind name?).map (·, .obj members)
  | .arr (first :: rest) => (name? first).map (·, .arr rest)
  | _ => none

/-- A truth value. -/
def flag? : Json → Option Bool
  | .bool b => some b
  | _ => none

/-- A number from `least` to `most`. -/
def number? (least most : Int) : Json → Option Int
  | .num n => if least ≤ n && n ≤ most then some n else none
  | _ => none

/-- The items of an array. -/
def items? : Json → Option (List Json)
  | .arr items => some items
  | _ => none

/-- Reads a value with `read`, unless there is none. -/
def optional? {α : Type} (read : Json → Option α) : Option Json → Option (Option α)
  | none => some none
  | some .null => some none
  | some j => (read j).map some

/-! ## Parts are smaller -/

theorem sizeOf_lookup_lt {name : String} {members : List (String × Json)} {v : Json}
    (h : members.lookup name = some v) : sizeOf v < sizeOf (Json.obj members) := by
  have key : sizeOf v < sizeOf members := by
    induction members with
    | nil => simp at h
    | cons m rest ih =>
      obtain ⟨k, w⟩ := m
      simp only [List.lookup_cons] at h
      split at h
      · cases h; simp; omega
      · have := ih h; simp; omega
  simp; omega

theorem sizeOf_item_lt {items : List Json} {v : Json} (h : v ∈ items) : sizeOf v < sizeOf (Json.arr items) := by
  have := List.sizeOf_lt_of_mem h
  simp; omega

theorem sizeOf_member_lt {names : List String} {name : String} {j v : Json}
    (h : j.member? names name = some v) : sizeOf v < sizeOf j := by
  cases j with
  | obj members => exact sizeOf_lookup_lt h
  | arr items =>
    simp only [member?] at h
    split at h
    · obtain ⟨i, _, hi⟩ := Option.bind_eq_some_iff.mp h
      exact sizeOf_item_lt (List.mem_of_getElem? hi)
    · cases h
  | _ => simp [member?] at h

theorem sizeOf_tagged_le {name? : Json → Option String} {tag name : String} {j k : Json}
    (h : j.tagged? name? tag = some (name, k)) : sizeOf k ≤ sizeOf j := by
  unfold tagged? at h
  split at h
  · obtain ⟨_, _, e⟩ := Option.map_eq_some_iff.mp h
    cases e
    exact Nat.le_refl _
  · obtain ⟨_, _, e⟩ := Option.map_eq_some_iff.mp h
    cases e
    simp
  · cases h

theorem sizeOf_items_lt {j : Json} {items : List Json} (h : j.items? = some items) : ∀ v ∈ items, sizeOf v < sizeOf j := by
  intro v hv
  cases j with
  | arr xs => simp only [items?, Option.some.injEq] at h; exact sizeOf_item_lt (h ▸ hv)
  | _ => simp [items?] at h

end Json
end AliasLang
