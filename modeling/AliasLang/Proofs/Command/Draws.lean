/-
What a compilation takes from those before it. Of the trace it finds, all that counts is how many markers were drawn,
and where markers are numbered not even that. So a part of a program compiles to the same wherever it stands, up to the
markers that are drawn for it.
-/
import AliasLang.Proofs.Command.Body

namespace AliasLang.Command

open Program

section
variable {α β : Type} {mode : DelimiterMode} {c d : Compile α}

/-- The same markers are drawn after both traces. Where they are numbered, none is. -/
def SameDraws (mode : DelimiterMode) (t t' : Trace) : Prop := mode = .numbered ∨ t.drawn = t'.drawn

/-- Nothing but the draws before it counts for the compilation: neither for its answer, nor for the draws after it. -/
def DrawsDecide (mode : DelimiterMode) (c : Compile α) : Prop :=
  ∀ t t', SameDraws mode t t' →
    (runFrom c t).1 = (runFrom c t').1 ∧ SameDraws mode (runFrom c t).2 (runFrom c t').2

theorem SameDraws.symm {t t' : Trace} (h : SameDraws mode t t') : SameDraws mode t' t := h.imp_right Eq.symm

/-- What succeeds after one trace succeeds in the same way after the other. -/
theorem DrawsDecide.again (h : DrawsDecide mode c) {t t' t₁ : Trace} {a : α} (hdraws : SameDraws mode t t')
    (hrun : runFrom c t = (.ok a, t₁)) : ∃ t₂, runFrom c t' = (.ok a, t₂) ∧ SameDraws mode t₁ t₂ := by
  obtain ⟨hanswer, hafter⟩ := h t t' hdraws
  rw [hrun] at hanswer hafter
  exact ⟨(runFrom c t').2, Prod.ext hanswer.symm rfl, hafter⟩

theorem DrawsDecide.pure (a : α) : DrawsDecide mode (Pure.pure a) := fun _ _ h => ⟨rfl, h⟩

theorem DrawsDecide.throw (e : Error) : DrawsDecide mode (throw e : Compile α) := fun _ _ h => ⟨rfl, h⟩

theorem DrawsDecide.bind {f : α → Compile β} (hc : DrawsDecide mode c) (hf : ∀ a, DrawsDecide mode (f a)) :
    DrawsDecide mode (c >>= f) := by
  intro t t' h
  obtain ⟨hanswer, hdraws⟩ := hc t t' h
  rw [runFrom_bind, runFrom_bind]
  generalize runFrom c t = r, runFrom c t' = r' at hanswer hdraws
  obtain ⟨answer, t₁⟩ := r
  obtain ⟨_, t₂⟩ := r'
  obtain rfl : answer = _ := hanswer
  cases answer with
  | error e => exact ⟨rfl, hdraws⟩
  | ok a => exact hf a t₁ t₂ hdraws

theorem DrawsDecide.ite {b : Prop} [Decidable b] (hc : b → DrawsDecide mode c) (hd : ¬b → DrawsDecide mode d) :
    DrawsDecide mode (if b then c else d) := by
  by_cases h : b
  · rw [if_pos h]
    exact hc h
  · rw [if_neg h]
    exact hd h

end

/-! ## Parts that draw nothing -/

variable (co : Collaborators) (mode : DelimiterMode) (scope : Scope)

theorem fetch_drawsDecide (id : Gist.Id) : DrawsDecide mode (fetch co id) := fun _ _ h => ⟨rfl, h⟩

theorem transform_drawsDecide (options : Script.Options) (script : String) :
    DrawsDecide mode (transform co options script) := fun _ _ h => ⟨rfl, h⟩

theorem importedText_drawsDecide (a : ScriptAction) : DrawsDecide mode (importedText co a) := by
  unfold importedText
  split
  · exact .pure _
  · split
    · exact .throw _
    · refine .bind (fetch_drawsDecide co mode _) fun answer => ?_
      cases answer with
      | error e => exact .throw _
      | ok content => exact .pure _

theorem compileScript_drawsDecide (a : ScriptAction) : DrawsDecide mode (compileScript co scope a) := by
  unfold compileScript
  refine .bind (importedText_drawsDecide co mode a) fun imported => ?_
  refine .bind (transform_drawsDecide co mode _ _) fun answer => ?_
  cases answer with
  | error reason => exact .throw _
  | ok output =>
    dsimp only
    split
    · exact .throw _
    · exact .pure _

theorem compileSimple_drawsDecide (a : Simple) : DrawsDecide mode (compileSimple co scope a) := by
  cases a with
  | script a => exact compileScript_drawsDecide co mode scope a
  | commands l => exact .pure _
  | say literal span => cases literal <;> exact .pure _
  | call c =>
    obtain ⟨user, target, span⟩ := c
    cases user <;> exact .pure _

theorem compileRetrieve_drawsDecide (r : Retrieve) : DrawsDecide mode (compileRetrieve scope r) := by
  cases r with
  | key key isLocal span => exact .pure _
  | argument literal span => exact .ite (fun _ => .throw _) fun _ => .pure _

theorem compileStep_drawsDecide (s : Step) : DrawsDecide mode (compileStep co scope s) := by
  cases s with
  | store s => exact .pure _
  | action a => exact compileSimple_drawsDecide co mode scope a

theorem compileChain_drawsDecide (links : List Link) : DrawsDecide mode (compileChain co scope links) := by
  induction links with
  | nil => exact .pure _
  | cons l rest ih => exact .bind (compileStep_drawsDecide co mode scope l.step) fun _ => .bind ih fun _ => .pure _

theorem compileExecute_drawsDecide (e : Execute) : DrawsDecide mode (compileExecute co scope e) := by
  have hrest : ∀ f : Fragment, DrawsDecide mode (do
      let action ← compileSimple co scope e.action
      return f ++ action ++ (← compileChain co scope e.chain)) := fun f =>
    .bind (compileSimple_drawsDecide co mode scope e.action) fun _ =>
      .bind (compileChain_drawsDecide co mode scope e.chain) fun _ => .pure _
  unfold compileExecute
  cases e.retrieve with
  | none => exact hrest .empty
  | some r => exact .bind (compileRetrieve_drawsDecide mode scope r) hrest

/-! ## Parts that may draw -/

/-- A marker is drawn only in the randomized mode, where the draws before it are the same. -/
theorem assembled_drawsDecide (commands : List String) : DrawsDecide scope.delimiter (assembled co scope commands) := by
  unfold assembled
  split
  · exact .pure _
  · refine .ite (fun hrandom => ?_) fun _ => .pure _
    refine .bind (fun t t' h => ?_) fun _ => .pure _
    have hdrawn : t.drawn = t'.drawn := h.resolve_left fun hnumbered => by rw [hrandom] at hnumbered; cases hnumbered
    refine ⟨?_, .inr ?_⟩
    · exact congrArg (Except.ok ∘ co.draw) hdrawn
    · exact congrArg (· + 1) hdrawn

theorem sameDraws_nested {t t' : Trace} :
    SameDraws scope.nested.delimiter t t' ↔ SameDraws scope.delimiter t t' := by
  have hmode : scope.nested.delimiter = .numbered ↔ scope.delimiter = .numbered := by
    unfold Scope.nested
    cases scope.delimiter <;> simp
  rw [SameDraws, SameDraws, hmode]

/-- Below numbered markers there are numbered ones, and below the others drawn ones. -/
theorem drawsDecide_nested {α : Type} {c : Compile α} :
    DrawsDecide scope.nested.delimiter c ↔ DrawsDecide scope.delimiter c := by
  simp only [DrawsDecide, sameDraws_nested]

theorem compileRoot_drawsDecide (body : Body)
    (h : DrawsDecide scope.delimiter (compileActions co scope body.actions)) :
    DrawsDecide scope.delimiter (compileRoot co scope body) := by
  unfold compileRoot
  refine .ite (fun _ => .throw _) fun _ => .bind h fun fragments => ?_
  exact .ite (fun _ => .throw _) fun _ => .pure _

mutual

theorem compileAction_drawsDecide (scope : Scope) : ∀ a : Action,
    DrawsDecide scope.delimiter (compileAction co scope a)
  | .execute e => by
    rw [compileAction]
    exact compileExecute_drawsDecide co _ scope e
  | .compiled actions bodySpan links span => by
    rw [compileAction_compiled]
    have hbody := compileRoot_drawsDecide co scope.nested ⟨actions, bodySpan⟩
      (compileActions_drawsDecide scope.nested actions)
    refine .bind ((drawsDecide_nested scope).mp hbody) fun inner => ?_
    refine .bind ((drawsDecide_nested scope).mp (assembled_drawsDecide co scope.nested _)) fun pipeline => ?_
    exact .bind (compileChain_drawsDecide co _ scope _) fun _ => .pure _

theorem compileActions_drawsDecide (scope : Scope) : ∀ actions : List Action,
    DrawsDecide scope.delimiter (compileActions co scope actions)
  | [] => by
    rw [compileActions]
    exact .pure _
  | a :: rest => by
    rw [compileActions]
    refine .bind (compileAction_drawsDecide scope a) fun _ => ?_
    exact .bind (compileActions_drawsDecide scope rest) fun _ => .pure _

end

theorem compileAlias_drawsDecide (settings : Settings) (a : Alias) :
    DrawsDecide settings.delimiter (compileAlias co settings a) := by
  refine .bind (compileRoot_drawsDecide co (.ofAlias a settings) a.body (compileActions_drawsDecide co _ _)) fun f => ?_
  refine .ite (fun _ => .throw _) fun _ => ?_
  exact .bind (assembled_drawsDecide co (.ofAlias a settings) f.commands) fun _ => .pure _

end AliasLang.Command
