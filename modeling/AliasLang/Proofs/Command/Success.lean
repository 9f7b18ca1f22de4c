/-
When an alias compiles. The condition is read off the program: every body does something, argument literals stand
outside of blocks, and each script is resolved and transformed without an error. It is exact, because the compiler
looks at every part once and no part can fail for a reason that lies in another one.

What a part gives matters for the body around it only as far as it gives a command or none, so that is all the
induction carries along.
-/
import AliasLang.Program.Scripts
import AliasLang.Proofs.Command.Body

namespace AliasLang.Program

/-! ## Parts that give a command -/

/-- All but saying nothing and running no command. -/
def Simple.contributes : Simple → Bool
  | .say none _ => false
  | .commands l => !l.commands.isEmpty
  | _ => true

def Step.contributes : Step → Bool
  | .store _ => true
  | .action a => a.contributes

def Action.contributes : Action → Bool
  | .execute e => e.retrieve.isSome || (e.action.contributes || e.chain.any (·.step.contributes))
  | .compiled _ _ _ _ => true

/-- An action that retrieves an argument literal. -/
def Action.takesArgument : Action → Bool
  | .execute ⟨some (.argument _ _), _, _, _⟩ => true
  | _ => false

mutual

/-- The bodies of the blocks in an action, at any depth. -/
def Action.blocks : Action → List (List Action)
  | .execute _ => []
  | .compiled actions _ _ _ => actions :: actionsBlocks actions

def actionsBlocks : List Action → List (List Action)
  | [] => []
  | a :: rest => a.blocks ++ actionsBlocks rest

end

end AliasLang.Program

namespace AliasLang.Command

open Program

/-! ## Compilations that succeed under a condition -/

section
variable {α β : Type} {c d : Compile α} {p q : Prop} {P : α → Prop} {Q : β → Prop}

/-- The compilation succeeds if and only if `p`, and every result has the property. -/
def Decides (c : Compile α) (p : Prop) (P : α → Prop) : Prop :=
  ∀ t, match (runFrom c t).1 with
    | .ok a => p ∧ P a
    | .error _ => ¬p

theorem Decides.isOk_iff (h : Decides c p P) (t : Trace) : (runFrom c t).1.isOk = true ↔ p := by
  have ht := h t
  cases hr : (runFrom c t).1 with
  | error e =>
    rw [hr] at ht
    exact iff_of_false Bool.false_ne_true ht
  | ok a =>
    rw [hr] at ht
    exact iff_of_true rfl ht.1

theorem Decides.pure {a : α} (hp : p) (h : P a) : Decides (Pure.pure a) p P := fun _ => ⟨hp, h⟩

theorem Decides.throw {e : Error} (hp : ¬p) : Decides (throw e) p P := fun _ => hp

theorem Decides.congr (h : Decides c p P) (hpq : p ↔ q) : Decides c q P := by
  rwa [← propext hpq]

theorem Decides.bind {f : α → Compile β} (hc : Decides c p P) (hf : ∀ a, P a → Decides (f a) q Q) :
    Decides (c >>= f) (p ∧ q) Q := by
  intro t
  have ht := hc t
  rw [runFrom_bind]
  rcases hr : runFrom c t with ⟨e | a, t'⟩
  · rw [hr] at ht
    exact fun hpq => ht hpq.1
  · rw [hr] at ht
    have ht' := hf a ht.2 t'
    dsimp only
    cases hr' : (runFrom (f a) t').1 with
    | error e =>
      rw [hr'] at ht'
      exact fun hpq => ht' hpq.2
    | ok b =>
      rw [hr'] at ht'
      exact ⟨⟨ht.1, ht'.1⟩, ht'.2⟩

/-- What always succeeds leaves the decision to what comes after it. -/
theorem Decides.bind_true {f : α → Compile β} (hc : Decides c True P) (hf : ∀ a, P a → Decides (f a) q Q) :
    Decides (c >>= f) q Q :=
  (hc.bind hf).congr ⟨And.right, fun h => ⟨trivial, h⟩⟩

theorem Decides.bind_pure {f : α → β} (hc : Decides c p P) (hf : ∀ a, P a → Q (f a)) :
    Decides (c >>= fun a => Pure.pure (f a)) p Q :=
  (hc.bind fun a ha => .pure trivial (hf a ha)).congr ⟨And.left, fun h => ⟨h, trivial⟩⟩

theorem Decides.ite {b : Prop} [Decidable b] (hc : b → Decides c p P) (hd : ¬b → Decides d p P) :
    Decides (if b then c else d) p P := by
  by_cases h : b
  · rw [if_pos h]
    exact hc h
  · rw [if_neg h]
    exact hd h

theorem Decides.meets {P' : α → Prop} (h : Decides c p P) (hm : Meets c P') : Meets c P := by
  intro t
  have ht := h t
  have hm := hm t
  cases hr : (runFrom c t).1 with
  | error e =>
    rw [hr] at hm
    exact hm
  | ok a =>
    rw [hr] at ht
    exact ht.2

theorem Decides.and_meets {P' : α → Prop} (h : Decides c p P) (hm : Meets c P') :
    Decides c p fun a => P a ∧ P' a := by
  intro t
  have ht := h t
  have hm := hm t
  cases hr : (runFrom c t).1 with
  | error e =>
    rw [hr] at ht
    exact ht
  | ok a =>
    rw [hr] at ht hm
    exact ⟨ht.1, ht.2, hm⟩

end

/-! ## Scripts -/

theorem text_ofText {text : String} {id : Gist.Id} (h : Gist.Id.ofText text = .ok id) : id.text = text := by
  unfold Gist.Id.ofText at h
  split at h
  · split at h <;> cases h
    rfl
  · cases h

/-- The text that an import stands for in front of the script: nothing, or what is fetched by a valid id, with a line
feed after it unless it ends with one. -/
inductive Resolves (co : Collaborators) : Option ImportRef → String → Prop
  | absent : Resolves co none ""
  | fetched {i : ImportRef} {id : Gist.Id} {content : String} (hid : Gist.Id.ofText i.id = .ok id)
      (hfetch : co.fetch id = .ok content) :
      Resolves co (some i) (if content.toList.getLast? = some '\n' then content else content ++ "\n")

theorem Resolves.unique {co : Collaborators} {i : Option ImportRef} {text text' : String} (h : Resolves co i text)
    (h' : Resolves co i text') : text = text' := by
  cases h with
  | absent =>
    cases h'
    rfl
  | fetched hid hfetch =>
    cases h' with
    | fetched hid' hfetch' =>
      rw [hid] at hid'
      cases hid'
      rw [hfetch] at hfetch'
      cases hfetch'
      rfl

/-- The script is transformed without an error, after the preamble and its import. -/
def Accepts (co : Collaborators) (scope : Scope) (a : ScriptAction) : Prop :=
  ∃ imported output, Resolves co a.imported imported ∧
    co.transform (Script.Options.forEmbedding scope.minifyScript)
      (Script.preamble scope.keyPrefix ++ imported ++ a.script.unescaped) = .ok output ∧
    ∀ d ∈ output.diagnostics, d.severity ≠ .error

variable (co : Collaborators) (scope : Scope)

theorem importedText_decides (a : ScriptAction) :
    Decides (importedText co a) (∃ text, Resolves co a.imported text) (Resolves co a.imported) := by
  unfold importedText
  cases hi : a.imported with
  | none => exact .pure ⟨_, .absent⟩ .absent
  | some i =>
    dsimp only
    cases hid : Gist.Id.ofText i.id with
    | error fault =>
      refine .throw ?_
      rintro ⟨text, h⟩
      cases h with
      | fetched hid' =>
        rw [hid] at hid'
        cases hid'
    | ok id =>
      have hfetch : Decides (fetch co id) True fun answer => answer = co.fetch id := fun _ => ⟨trivial, rfl⟩
      refine hfetch.bind_true fun answer hanswer => ?_
      subst hanswer
      cases hf : co.fetch id with
      | error e =>
        refine .throw ?_
        rintro ⟨text, h⟩
        cases h with
        | fetched hid' hfetch' =>
          rw [hid] at hid'
          cases hid'
          rw [hf] at hfetch'
          cases hfetch'
      | ok content => exact .pure ⟨_, .fetched hid hf⟩ (.fetched hid hf)

/-- The first error among the remarks, if there is one, decides. -/
theorem compileScript_decides (a : ScriptAction) :
    Decides (compileScript co scope a) (Accepts co scope a) fun f => f.isEmpty = false := by
  unfold compileScript
  refine ((importedText_decides co a).bind (q := Accepts co scope a) fun imported himported => ?_).congr
    ⟨And.right, fun h => ⟨h.imp fun _ h => h.choose_spec.1, h⟩⟩
  -- The text is determined by the import, so acceptance speaks of this one.
  have haccepts : Accepts co scope a ↔ ∃ output, co.transform (Script.Options.forEmbedding scope.minifyScript)
      (Script.preamble scope.keyPrefix ++ imported ++ a.script.unescaped) = .ok output ∧
      ∀ d ∈ output.diagnostics, d.severity ≠ .error := by
    constructor
    · rintro ⟨imported', output, hresolves, h⟩
      obtain rfl := himported.unique hresolves
      exact ⟨output, h⟩
    · rintro ⟨output, h⟩
      exact ⟨imported, output, himported, h⟩
  have htransform : ∀ options script, Decides (transform co options script) True
      fun answer => answer = co.transform options script := fun _ _ _ => ⟨trivial, rfl⟩
  refine (htransform _ _).bind_true fun answer hanswer => ?_
  rw [haccepts]
  subst hanswer
  split
  · rename_i reason hfails
    refine .throw ?_
    rintro ⟨output, h, -⟩
    rw [hfails] at h
    cases h
  · rename_i output hok
    split
    · rename_i d hfind
      refine .throw ?_
      rintro ⟨output', h, hno⟩
      rw [hok] at h
      cases h
      have herror : d.isError = true := List.find?_some hfind
      exact hno d (List.mem_of_find?_eq_some hfind) (of_decide_eq_true herror)
    · rename_i hfind
      refine .pure ⟨output, hok, fun d hd herror => ?_⟩ rfl
      have hno := List.find?_eq_none.mp hfind d hd
      exact hno (decide_eq_true herror)

/-! ## Actions that run something -/

theorem Fragment.isEmpty_append (f g : Fragment) : (f ++ g).isEmpty = (f.isEmpty && g.isEmpty) := by
  show (f.commands ++ g.commands).isEmpty = _
  rw [Bool.eq_iff_iff]
  simp [Fragment.isEmpty]

theorem compileSimple_decides (a : Simple) :
    Decides (compileSimple co scope a) (∀ s ∈ a.scripts, Accepts co scope s) fun f => f.isEmpty = !a.contributes := by
  cases a with
  | script s => exact (compileScript_decides co scope s).congr List.forall_mem_singleton.symm
  | commands l => exact .pure (by simp [Simple.scripts]) (Bool.not_not _).symm
  | say literal span => cases literal <;> exact .pure (by simp [Simple.scripts]) rfl
  | call c =>
    obtain ⟨user, target, span⟩ := c
    cases user <;> exact .pure (by simp [Simple.scripts]) rfl

theorem compileStep_decides (s : Step) :
    Decides (compileStep co scope s) (∀ a ∈ s.scripts, Accepts co scope a) fun f => f.isEmpty = !s.contributes := by
  cases s with
  | store s =>
    refine .pure (by simp [Step.scripts]) ?_
    simp [Fragment.isEmpty, Fragment.push, Step.contributes]
  | action a => exact compileSimple_decides co scope a

theorem compileChain_decides (links : List Link) :
    Decides (compileChain co scope links) (∀ a ∈ chainScripts links, Accepts co scope a)
      fun f => f.isEmpty = !links.any (·.step.contributes) := by
  induction links with
  | nil => exact .pure (by simp [chainScripts]) rfl
  | cons l rest ih =>
    rw [compileChain]
    have hrest : ∀ f : Fragment, f.isEmpty = !l.step.contributes →
        Decides (do return f ++ (← compileChain co scope rest)) (∀ a ∈ chainScripts rest, Accepts co scope a)
          fun f => f.isEmpty = !(l :: rest).any (·.step.contributes) := by
      intro f hf
      refine ih.bind_pure fun g hg => ?_
      rw [Fragment.isEmpty_append, hf, hg, List.any_cons, Bool.not_or]
    refine ((compileStep_decides co scope l.step).bind hrest).congr ?_
    simp only [chainScripts, List.flatMap_cons, List.forall_mem_append]

theorem compileRetrieve_decides (r : Retrieve) :
    Decides (compileRetrieve scope r) (scope.disallowArguments = true → ∀ literal span, r ≠ .argument literal span)
      fun f => f.isEmpty = false := by
  cases r with
  | key key isLocal span => exact .pure (by simp) rfl
  | argument literal span =>
    refine .ite (fun h => .throw fun hno => hno h literal span rfl) fun h => .pure (fun h' => absurd h' h) rfl

theorem compileExecute_decides (e : Execute) :
    Decides (compileExecute co scope e)
      ((scope.disallowArguments = true → (Action.execute e).takesArgument = false) ∧
        ∀ a ∈ (Action.execute e).scripts, Accepts co scope a)
      fun f => f.isEmpty = !(Action.execute e).contributes := by
  obtain ⟨retrieve, action, links, span⟩ := e
  have hscripts : (∀ a ∈ action.scripts, Accepts co scope a) ∧ (∀ a ∈ chainScripts links, Accepts co scope a) ↔
      ∀ a ∈ (Action.execute ⟨retrieve, action, links, span⟩).scripts, Accepts co scope a := by
    simp only [Action.scripts, List.forall_mem_append]
  -- What comes after the retrieval, which gives a command if there is one.
  have hrest : ∀ f : Fragment, f.isEmpty = !retrieve.isSome → Decides (do
      let action ← compileSimple co scope action
      return f ++ action ++ (← compileChain co scope links))
      (∀ a ∈ (Action.execute ⟨retrieve, action, links, span⟩).scripts, Accepts co scope a)
      fun f => f.isEmpty = !(Action.execute ⟨retrieve, action, links, span⟩).contributes := by
    intro f hf
    refine ((compileSimple_decides co scope action).bind fun g hg => ?_).congr hscripts
    refine (compileChain_decides co scope links).bind_pure fun h hh => ?_
    rw [Fragment.isEmpty_append, Fragment.isEmpty_append, hf, hg, hh, Action.contributes, Bool.not_or, Bool.not_or,
      Bool.and_assoc]
  unfold compileExecute
  cases retrieve with
  | none => exact (hrest .empty rfl).congr ⟨fun h => ⟨fun _ => rfl, h⟩, And.right⟩
  | some r =>
    refine ((compileRetrieve_decides scope r).bind hrest).congr (and_congr_left fun _ => ?_)
    refine imp_congr_right fun _ => ?_
    cases r with
    | key key isLocal keySpan => exact iff_of_true (by simp) rfl
    | argument literal literalSpan =>
      exact iff_of_false (fun h => h literal literalSpan rfl) (by simp [Action.takesArgument])

/-! ## Bodies -/

/-- A body that does something. -/
def DoesSomething (actions : List Action) : Prop := actions ≠ [] ∧ ∃ a ∈ actions, a.contributes = true

/-- What the actions of a body need to compile in a scope, apart from doing something. -/
structure Compilable (actions : List Action) : Prop where
  blocks : ∀ body ∈ actionsBlocks actions, DoesSomething body
  here : scope.disallowArguments = true → ∀ a ∈ actions, a.takesArgument = false
  inBlocks : ∀ body ∈ actionsBlocks actions, ∀ a ∈ body, a.takesArgument = false
  scripts : ∀ s ∈ actionsScripts actions, Accepts co scope s

theorem compilable_cons {a : Action} {rest : List Action} :
    Compilable co scope (a :: rest) ↔ Compilable co scope [a] ∧ Compilable co scope rest := by
  constructor
  · rintro ⟨hblocks, hhere, hin, hscripts⟩
    simp only [actionsBlocks, actionsScripts, List.forall_mem_append, List.forall_mem_cons] at hblocks hhere hin hscripts
    refine ⟨⟨?_, fun h => ?_, ?_, ?_⟩, hblocks.2, fun h => (hhere h).2, hin.2, hscripts.2⟩
    · simpa [actionsBlocks] using hblocks.1
    · simpa using (hhere h).1
    · simpa [actionsBlocks] using hin.1
    · simpa [actionsScripts] using hscripts.1
  · rintro ⟨⟨hblocks, hhere, hin, hscripts⟩, h⟩
    simp only [actionsBlocks, actionsScripts, List.append_nil, List.forall_mem_singleton] at hblocks hhere hin hscripts
    refine ⟨?_, fun hd => ?_, ?_, ?_⟩ <;>
      simp only [actionsBlocks, actionsScripts, List.forall_mem_append, List.forall_mem_cons]
    · exact ⟨hblocks, h.blocks⟩
    · exact ⟨hhere hd, h.here hd⟩
    · exact ⟨hin, h.inBlocks⟩
    · exact ⟨hscripts, h.scripts⟩

theorem compilable_execute {e : Execute} : Compilable co scope [.execute e] ↔
    (scope.disallowArguments = true → (Action.execute e).takesArgument = false) ∧
      ∀ s ∈ (Action.execute e).scripts, Accepts co scope s := by
  constructor
  · rintro ⟨-, hhere, -, hscripts⟩
    simp only [actionsScripts, List.append_nil, List.forall_mem_singleton] at hhere hscripts
    exact ⟨hhere, hscripts⟩
  · rintro ⟨hhere, hscripts⟩
    refine ⟨by simp [actionsBlocks, Action.blocks], ?_, by simp [actionsBlocks, Action.blocks], ?_⟩
    · simpa using hhere
    · simpa [actionsScripts] using hscripts

/-- A block needs its body to do something, and of its actions what they need in a nested scope. -/
theorem compilable_block {actions : List Action} {bodySpan : Source.Span} {links : List Link} {span : Source.Span} :
    Compilable co scope [.compiled actions bodySpan links span] ↔
      (Compilable co scope.nested actions ∧ DoesSomething actions) ∧ ∀ s ∈ chainScripts links, Accepts co scope s := by
  constructor
  · rintro ⟨hblocks, -, hin, hscripts⟩
    simp only [actionsBlocks, Action.blocks, actionsScripts, Action.scripts, List.append_nil, List.forall_mem_cons,
      List.forall_mem_append] at hblocks hin hscripts
    exact ⟨⟨⟨hblocks.2, fun _ => hin.1, hin.2, hscripts.1⟩, hblocks.1⟩, hscripts.2⟩
  · rintro ⟨⟨⟨hblocks, hhere, hin, hscripts⟩, hdoes⟩, hchain⟩
    refine ⟨?_, fun _ => by simp [Action.takesArgument], ?_, ?_⟩ <;>
      simp only [actionsBlocks, Action.blocks, actionsScripts, Action.scripts, List.append_nil, List.forall_mem_cons,
        List.forall_mem_append]
    · exact ⟨hdoes, hblocks⟩
    · exact ⟨hhere rfl, hin⟩
    · exact ⟨hscripts, hchain⟩

theorem Fragment.isEmpty_join (f g : Fragment) : (f.join g).isEmpty = (f.isEmpty && g.isEmpty) := by
  unfold Fragment.join
  split
  · rename_i h
    simp only [Bool.and_eq_true, Bool.not_eq_true'] at h
    simp only [Fragment.isEmpty_append, h.1, Bool.and_false]
  · exact Fragment.isEmpty_append f g

theorem Fragment.isEmpty_foldl_join (fragments : List Fragment) : ∀ f : Fragment,
    (fragments.foldl Fragment.join f).isEmpty = (f.isEmpty && fragments.all Fragment.isEmpty) := by
  induction fragments with
  | nil => simp
  | cons g fragments ih =>
    intro f
    rw [List.foldl_cons, ih, Fragment.isEmpty_join, List.all_cons, Bool.and_assoc]

/-- The fragments give a command where the actions do. -/
def Matches (actions : List Action) (fragments : List Fragment) : Prop :=
  fragments.map Fragment.isEmpty = actions.map fun a => !a.contributes

theorem Matches.isEmpty_joinAll {actions : List Action} {fragments : List Fragment} (h : Matches actions fragments) :
    (Fragment.joinAll fragments).isEmpty = false ↔ ∃ a ∈ actions, a.contributes = true := by
  have hall : fragments.all Fragment.isEmpty = actions.all fun a => !a.contributes := by
    have hid := congrArg (List.all · id) h
    simpa only [List.all_map, Function.comp_def, id] using hid
  rw [Fragment.joinAll, Fragment.isEmpty_foldl_join, hall]
  simp [Fragment.isEmpty, Fragment.empty]

theorem isEmpty_discharge {f : Fragment} (h : f.isEmpty = false) : (discharge scope f).isEmpty = false := by
  unfold discharge
  split
  · exact h
  · simp [Fragment.isEmpty]

theorem compileBody_decides {actions : List Action} {fragments : List Fragment} (h : Matches actions fragments)
    (span : Source.Span) :
    Decides (compileBody scope span fragments) (∃ a ∈ actions, a.contributes = true) fun f => f.isEmpty = false := by
  unfold compileBody
  rw [← h.isEmpty_joinAll]
  refine .ite (fun hempty => .throw ?_) fun hempty => ?_
  · rw [hempty]
    exact Bool.noConfusion
  · rw [Bool.not_eq_true] at hempty
    exact .pure hempty (isEmpty_discharge scope hempty)

/-- A body compiles when its actions do and it does something. -/
theorem compileRoot_decides {actions : List Action} (span : Source.Span)
    (h : Decides (compileActions co scope actions) (Compilable co scope actions) (Matches actions)) :
    Decides (compileRoot co scope ⟨actions, span⟩) (Compilable co scope actions ∧ DoesSomething actions)
      fun f => f.isEmpty = false := by
  unfold compileRoot
  refine .ite (fun hempty => .throw ?_) fun hne => ?_
  · rintro ⟨-, hdoes, -⟩
    exact hdoes (List.isEmpty_iff.mp hempty)
  · have hactions : actions ≠ [] := fun he => hne (List.isEmpty_iff.mpr he)
    refine (h.bind fun fragments hmatches => compileBody_decides scope hmatches span).congr ?_
    exact and_congr_right fun _ => ⟨fun hc => ⟨hactions, hc⟩, And.right⟩

theorem assembled_decides (commands : List String) : Decides (assembled co scope commands) True fun _ => True := by
  unfold assembled
  have hdraw : Decides (draw co) True fun _ => True := fun _ => ⟨trivial, trivial⟩
  split
  · exact .pure trivial trivial
  · exact .ite (fun _ => hdraw.bind_pure fun _ _ => trivial) fun _ => .pure trivial trivial

/-- The store that a block takes for itself has no script. -/
theorem chainScripts_embedPipeline (inner : Fragment) (embedded : String) (links : List Link) :
    chainScripts (embedPipeline scope inner embedded links).2 = chainScripts links := by
  unfold embedPipeline
  split
  · rfl
  · rfl

mutual

theorem compileAction_decides (scope : Scope) : ∀ a : Action,
    Decides (compileAction co scope a) (Compilable co scope [a]) fun f => f.isEmpty = !a.contributes
  | .execute e => by
    rw [compileAction]
    exact (compileExecute_decides co scope e).congr (compilable_execute co scope).symm
  | .compiled actions bodySpan links span => by
    rw [compileAction_compiled]
    have hbody := compileRoot_decides co scope.nested bodySpan (compileActions_decides scope.nested actions)
    refine (hbody.bind (q := ∀ s ∈ chainScripts links, Accepts co scope s) fun inner _ => ?_).congr
      (compilable_block co scope).symm
    refine (assembled_decides co scope.nested _).bind_true fun pipeline _ => ?_
    have hcommands := embedPipeline_commands scope inner (Quoting.embedded pipeline) links
    have hscripts := chainScripts_embedPipeline scope inner (Quoting.embedded pipeline) links
    rcases hembed : embedPipeline scope inner (Quoting.embedded pipeline) links with ⟨fragment, rest⟩
    rw [hembed] at hcommands hscripts
    rw [← hscripts]
    refine (compileChain_decides co scope rest).bind_pure fun f _ => ?_
    rw [Fragment.isEmpty_append, Fragment.isEmpty, hcommands]
    rfl

theorem compileActions_decides (scope : Scope) : ∀ actions : List Action,
    Decides (compileActions co scope actions) (Compilable co scope actions) (Matches actions)
  | [] => by
    rw [compileActions]
    exact .pure ⟨by simp [actionsBlocks], by simp, by simp [actionsBlocks], by simp [actionsScripts]⟩ rfl
  | a :: rest => by
    rw [compileActions]
    refine ((compileAction_decides scope a).bind fun f hf => ?_).congr (compilable_cons co scope).symm
    exact (compileActions_decides scope rest).bind_pure fun fragments hrest => congrArg₂ List.cons hf hrest

end

/-! ## Aliases -/

theorem compileAlias_decides (settings : Settings) (a : Alias) :
    Decides (compileAlias co settings a)
      (Compilable co (.ofAlias a settings) a.body.actions ∧ DoesSomething a.body.actions) fun _ => True := by
  have hroot := compileRoot_decides co (.ofAlias a settings) a.body.span (compileActions_decides co _ a.body.actions)
  have hkeys := compileRoot_meets co (rfl : (Scope.ofAlias a settings).keepTempKeys = false) a.body
  refine ((hroot.and_meets hkeys).bind (q := True) fun f hf => ?_).congr ⟨And.left, fun h => ⟨h, trivial⟩⟩
  unfold finishAlias
  rw [hf.2]
  exact (assembled_decides co _ _).bind_pure fun _ _ => trivial

theorem takesArgument_eq_false_iff {a : Action} : a.takesArgument = false ↔
    ∀ e literal span, a = .execute e → e.retrieve ≠ some (.argument literal span) := by
  constructor
  · rintro h ⟨retrieve, action, links, span⟩ literal literalSpan rfl he
    cases he
    cases h
  · intro h
    cases a with
    | compiled => rfl
    | execute e =>
      obtain ⟨retrieve, action, links, span⟩ := e
      rcases retrieve with _ | (_ | ⟨literal, literalSpan⟩)
      · rfl
      · rfl
      · exact absurd rfl (h _ literal literalSpan rfl)

/-- **When an alias compiles.** Whatever was asked of the collaborators before, it does if and only if its body and the
bodies of its blocks all have actions, one of which gives a command; no action in a block retrieves an argument literal;
and every script has a valid import that is fetched, or none, and is transformed without a failure and without an error
among the remarks. -/
theorem alias_compiles_iff (settings : Settings) (a : Alias) (t : Trace) :
    (runFrom (compileAlias co settings a) t).1.isOk = true ↔
      (∀ body ∈ a.body.actions :: actionsBlocks a.body.actions,
        body ≠ [] ∧ ∃ action ∈ body, action.contributes = true) ∧
      (∀ body ∈ actionsBlocks a.body.actions, ∀ e literal span, .execute e ∈ body →
        e.retrieve ≠ some (.argument literal span)) ∧
      ∀ s ∈ a.scripts, Accepts co (.ofAlias a settings) s := by
  rw [(compileAlias_decides co settings a).isOk_iff t]
  constructor
  · rintro ⟨⟨hblocks, -, hin, hscripts⟩, hdoes⟩
    refine ⟨List.forall_mem_cons.mpr ⟨hdoes, hblocks⟩, fun body hbody e literal span he => ?_, hscripts⟩
    exact takesArgument_eq_false_iff.mp (hin body hbody _ he) e literal span rfl
  · rintro ⟨hbodies, hin, hscripts⟩
    obtain ⟨hdoes, hblocks⟩ := List.forall_mem_cons.mp hbodies
    refine ⟨⟨hblocks, fun h => Bool.noConfusion h, fun body hbody action haction => ?_, hscripts⟩, hdoes⟩
    refine takesArgument_eq_false_iff.mpr fun e literal span he => ?_
    subst he
    exact hin body hbody e literal span haction

end AliasLang.Command
