/-
Sets of keys that remember the order in which the keys came.
-/

namespace AliasLang.Command

/-- Distinct keys, in the order of their first insertion. -/
structure Keys where
  toList : List String
  nodup : toList.Nodup
deriving DecidableEq

namespace Keys

/-- No keys. -/
def empty : Keys := ⟨[], List.nodup_nil⟩

instance : Inhabited Keys := ⟨empty⟩

/-- Whether there are no keys. -/
def isEmpty (ks : Keys) : Bool := ks.toList.isEmpty

/-- Adds a key at the end, unless it is there. -/
def insert (ks : Keys) (key : String) : Keys :=
  if h : key ∈ ks.toList then ks
  else ⟨ks.toList ++ [key], by
    rw [List.nodup_append]
    refine ⟨ks.nodup, by simp, ?_⟩
    intro a ha b hb
    simp only [List.mem_singleton] at hb
    subst hb
    intro e
    exact h (e ▸ ha)⟩

/-- Adds the keys of `other` in their order. -/
def union (ks other : Keys) : Keys :=
  other.toList.foldl insert ks

theorem toList_insert (ks : Keys) (key : String) :
    (ks.insert key).toList = if key ∈ ks.toList then ks.toList else ks.toList ++ [key] := by
  unfold insert; split <;> rfl

end Keys
end AliasLang.Command
