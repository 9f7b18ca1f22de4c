/-
Reasoning about compilations. `runFrom` is the answer of a compilation and the trace it leaves, from any trace before
it, and `Meets` says of a compilation what holds of its result, and that no failure of it is a defect of the compiler.
-/
import AliasLang.Command.Compile

namespace AliasLang.Command

variable {α β : Type}

/-- The answer of a compilation after the trace `t`, and the trace it leaves. -/
def runFrom (c : Compile α) (t : Trace) : Except Error α × Trace := (ExceptT.run c).run t

@[simp] theorem runFrom_pure (a : α) (t : Trace) : runFrom (pure a) t = (.ok a, t) := rfl

@[simp] theorem runFrom_throw (e : Error) (t : Trace) : runFrom (throw e : Compile α) t = (.error e, t) := rfl

/-- A compilation goes on after a success with the trace that it left. -/
theorem runFrom_bind (c : Compile α) (f : α → Compile β) (t : Trace) :
    runFrom (c >>= f) t = match runFrom c t with
      | (.ok a, t') => runFrom (f a) t'
      | (.error e, t') => (.error e, t') := by
  show (ExceptT.run (c >>= f)).run t = _
  simp only [ExceptT.run_bind, StateT.run_bind, runFrom]
  rcases (ExceptT.run c).run t with ⟨_ | _, _⟩ <;> rfl

theorem runFrom_bind_ok {c : Compile α} {f : α → Compile β} {t t' : Trace} {b : β}
    (h : runFrom (c >>= f) t = (.ok b, t')) :
    ∃ a t₁, runFrom c t = (.ok a, t₁) ∧ runFrom (f a) t₁ = (.ok b, t') := by
  rw [runFrom_bind] at h
  rcases hc : runFrom c t with ⟨_ | a, t₁⟩
  · rw [hc] at h
    cases h
  · rw [hc] at h
    exact ⟨a, t₁, rfl, h⟩

theorem exists_ok_of_isOk {c : Compile α} {t : Trace} (h : (runFrom c t).1.isOk = true) :
    ∃ a t', runFrom c t = (.ok a, t') := by
  rcases hc : runFrom c t with ⟨e | a, t'⟩
  · rw [hc] at h
    cases h
  · exact ⟨a, t', rfl⟩

theorem exists_ok_of_map {c : Compile α} {t : Trace} {g : α → β} {b : β}
    (h : (runFrom c t).1.toOption.map g = some b) : ∃ a t', runFrom c t = (.ok a, t') ∧ g a = b := by
  rcases hc : runFrom c t with ⟨e | a, t'⟩
  · rw [hc] at h
    cases h
  · rw [hc] at h
    exact ⟨a, t', rfl, Option.some.inj h⟩

/-! ## What compilations meet -/

/-- Every result has the property, and every failure is an error in the input. -/
def Meets (c : Compile α) (P : α → Prop) : Prop :=
  ∀ t, match (runFrom c t).1 with
    | .ok a => P a
    | .error e => e.isInternal = false

theorem Meets.ok {c : Compile α} {P : α → Prop} (h : Meets c P) {t t' : Trace} {a : α}
    (hc : runFrom c t = (.ok a, t')) : P a := by
  have ht := h t
  rw [hc] at ht
  exact ht

theorem Meets.pure {P : α → Prop} {a : α} (h : P a) : Meets (Pure.pure a) P := fun _ => h

theorem Meets.throw {P : α → Prop} {e : Error} (h : e.isInternal = false) : Meets (throw e) P := fun _ => h

theorem Meets.bind {c : Compile α} {f : α → Compile β} {P : α → Prop} {Q : β → Prop} (hc : Meets c P)
    (hf : ∀ a, P a → Meets (f a) Q) : Meets (c >>= f) Q := by
  intro t
  have ht := hc t
  rw [runFrom_bind]
  rcases hr : runFrom c t with ⟨e | a, t'⟩
  · rw [hr] at ht
    exact ht
  · rw [hr] at ht
    exact hf a ht t'

theorem Meets.ite {p : Prop} [Decidable p] {c d : Compile α} {P : α → Prop} (hc : p → Meets c P)
    (hd : ¬p → Meets d P) : Meets (if p then c else d) P := by
  by_cases h : p
  · rw [if_pos h]
    exact hc h
  · rw [if_neg h]
    exact hd h

/-! ## Collaborators -/

theorem fetch_meets (co : Collaborators) (id : Gist.Id) : Meets (fetch co id) fun _ => True := fun _ => trivial

theorem transform_meets (co : Collaborators) (options : Script.Options) (script : String) :
    Meets (transform co options script) fun answer => answer = co.transform options script := fun _ => rfl

theorem draw_meets (co : Collaborators) : Meets (draw co) fun _ => True := fun _ => trivial

theorem assembled_meets (co : Collaborators) (scope : Scope) (commands : List String) :
    Meets (assembled co scope commands) fun _ => True := by
  unfold assembled
  split
  · exact .pure trivial
  · exact .ite (fun _ => .bind (draw_meets co) fun _ _ => .pure trivial) fun _ => .pure trivial

end AliasLang.Command
