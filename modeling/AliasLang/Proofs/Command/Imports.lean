/-
What fetching has to do with a compilation. Of all that could be fetched, only the imports of the part that is compiled
count: where they are the same, the part compiles to the same and asks for the same.
-/
import AliasLang.Proofs.Command.Success
import AliasLang.Proofs.Program.Entry

namespace AliasLang.Command

open Program

/-- A way to get scripts by their ids. -/
abbrev Fetcher := Gist.Id → Except Gist.FetchError String

/-- The two ways give the same for what the scripts import. -/
def SameImports (fetch fetch' : Fetcher) (scripts : List ScriptAction) : Prop :=
  ∀ s ∈ scripts, ∀ i ∈ s.imported, ∀ id, Gist.Id.ofText i.id = .ok id → fetch id = fetch' id

theorem SameImports.subset {fetch fetch' : Fetcher} {scripts scripts' : List ScriptAction}
    (h : SameImports fetch fetch' scripts) (hsub : scripts' ⊆ scripts) : SameImports fetch fetch' scripts' :=
  fun s hs => h s (hsub hs)

variable {co : Collaborators} {fetch' : Fetcher} (scope : Scope)

theorem importedText_congr {a : ScriptAction} (h : SameImports co.fetch fetch' [a]) :
    importedText co a = importedText { co with fetch := fetch' } a := by
  unfold importedText
  cases hi : a.imported with
  | none => rfl
  | some i =>
    dsimp only
    cases hid : Gist.Id.ofText i.id with
    | error fault => rfl
    | ok id =>
      have hsame : co.fetch id = fetch' id := h a List.mem_cons_self i hi id hid
      simp only [fetch, hsame]

theorem compileScript_congr {a : ScriptAction} (h : SameImports co.fetch fetch' [a]) :
    compileScript co scope a = compileScript { co with fetch := fetch' } scope a := by
  unfold compileScript
  rw [importedText_congr h]
  rfl

theorem compileSimple_congr {a : Simple} (h : SameImports co.fetch fetch' a.scripts) :
    compileSimple co scope a = compileSimple { co with fetch := fetch' } scope a := by
  cases a with
  | script s => exact compileScript_congr scope h
  | commands l => rfl
  | say literal span => cases literal <;> rfl
  | call c => rfl

theorem compileStep_congr {s : Step} (h : SameImports co.fetch fetch' s.scripts) :
    compileStep co scope s = compileStep { co with fetch := fetch' } scope s := by
  cases s with
  | store s => rfl
  | action a => exact compileSimple_congr scope h

theorem compileChain_congr {links : List Link} (h : SameImports co.fetch fetch' (chainScripts links)) :
    compileChain co scope links = compileChain { co with fetch := fetch' } scope links := by
  induction links with
  | nil => rfl
  | cons l rest ih =>
    rw [chainScripts, List.flatMap_cons] at h
    rw [compileChain, compileChain, compileStep_congr scope (h.subset (List.subset_append_left _ _)),
      ih (h.subset (List.subset_append_right _ _))]

theorem compileExecute_congr {e : Execute} (h : SameImports co.fetch fetch' (Action.execute e).scripts) :
    compileExecute co scope e = compileExecute { co with fetch := fetch' } scope e := by
  rw [Action.scripts] at h
  rw [compileExecute, compileExecute, compileSimple_congr scope (h.subset (List.subset_append_left _ _)),
    compileChain_congr scope (h.subset (List.subset_append_right _ _))]

theorem compileRoot_congr (body : Body)
    (h : compileActions co scope body.actions = compileActions { co with fetch := fetch' } scope body.actions) :
    compileRoot co scope body = compileRoot { co with fetch := fetch' } scope body := by
  rw [compileRoot, compileRoot, h]

mutual

theorem compileAction_congr (scope : Scope) : ∀ {a : Action}, SameImports co.fetch fetch' a.scripts →
    compileAction co scope a = compileAction { co with fetch := fetch' } scope a
  | .execute e, h => by
    rw [compileAction, compileAction]
    exact compileExecute_congr scope h
  | .compiled actions bodySpan chain span, h => by
    rw [Action.scripts] at h
    have hbody := compileRoot_congr scope.nested ⟨actions, bodySpan⟩
      (compileActions_congr scope.nested (h.subset (List.subset_append_left _ _)))
    rw [compileAction_compiled, compileAction_compiled, hbody]
    refine congrArg _ (funext fun inner => congrArg _ (funext fun pipeline => ?_))
    have hchain := h.subset (List.subset_append_right _ (chainScripts chain))
    rw [← chainScripts_embedPipeline scope inner (Quoting.embedded pipeline) chain] at hchain
    dsimp only
    rw [compileChain_congr scope hchain]

theorem compileActions_congr (scope : Scope) : ∀ {actions : List Action},
    SameImports co.fetch fetch' (actionsScripts actions) →
      compileActions co scope actions = compileActions { co with fetch := fetch' } scope actions
  | [], _ => by rw [compileActions, compileActions]
  | a :: rest, h => by
    rw [actionsScripts] at h
    rw [compileActions, compileActions, compileAction_congr scope (h.subset (List.subset_append_left _ _)),
      compileActions_congr scope (h.subset (List.subset_append_right _ _))]

end

section
variable (settings : Settings)

theorem compileAlias_congr {a : Alias} (h : SameImports co.fetch fetch' a.scripts) :
    compileAlias co settings a = compileAlias { co with fetch := fetch' } settings a := by
  rw [compileAlias, compileAlias, compileRoot_congr _ a.body (compileActions_congr _ h)]
  rfl

theorem mapM_compileAlias_congr {aliases : List Alias}
    (h : SameImports co.fetch fetch' (aliases.flatMap Alias.scripts)) :
    aliases.mapM (compileAlias co settings) = aliases.mapM (compileAlias { co with fetch := fetch' } settings) := by
  induction aliases with
  | nil => rw [List.mapM_nil, List.mapM_nil]
  | cons a rest ih =>
    rw [List.flatMap_cons] at h
    rw [List.mapM_cons, List.mapM_cons, compileAlias_congr settings (h.subset (List.subset_append_left _ _)),
      ih (h.subset (List.subset_append_right _ _))]

variable {p : Program} (h : SameImports co.fetch fetch' (p.aliases.flatMap Alias.scripts))

include h

theorem compileAll_congr : compileAll co settings p = compileAll { co with fetch := fetch' } settings p := by
  rw [compileAll, compileAll, mapM_compileAlias_congr settings h]

theorem compileEntry_congr : compileEntry co settings p = compileEntry { co with fetch := fetch' } settings p := by
  rw [compileEntry, compileEntry]
  cases hentry : p.selectEntry with
  | error e =>
    have hnone : ∀ f : Alias → Compile CompiledAlias, (checked (.error e) >>= f) = throw (.semantic e) := fun _ => rfl
    rw [hnone, hnone]
  | ok a =>
    have hone : ∀ f : Alias → Compile CompiledAlias, (checked (.ok a) >>= f) = f a := pure_bind a
    have hscripts : a.scripts ⊆ p.aliases.flatMap Alias.scripts :=
      fun s hs => List.mem_flatMap.mpr ⟨a, selectEntry_mem hentry, hs⟩
    rw [hone, hone, compileAlias_congr settings (h.subset hscripts)]

end

end AliasLang.Command
