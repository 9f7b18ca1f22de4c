/-
Places are not compiled. A program and the same program without its places compile alike: the same is asked of the
collaborators in the same order, and results and errors differ in nothing but their own places. This is shown part by
part along the compiler, each part against itself without places.

A source text and its canonical layout parse to programs that are equal without places, so formatting a source text
never changes what it compiles to.
-/
import AliasLang.Proofs.Command.Body
import AliasLang.Proofs.Program.Layout

namespace AliasLang

open Source (Span)

/-! ## Errors without places -/

def SemanticError.erase : SemanticError → SemanticError
  | .duplicateAlias name _ => .duplicateAlias name .origin
  | .multipleEntrypoints _ => .multipleEntrypoints .origin
  | .unknownEntrypoint name _ => .unknownEntrypoint name .origin
  | .missingEntrypoint count _ => .missingEntrypoint count .origin
  | .emptyBody _ => .emptyBody .origin
  | .noCommands _ => .noCommands .origin
  | .argumentNotAllowed literal _ => .argumentNotAllowed literal .origin
  | .invalidImportId id reason _ => .invalidImportId id reason .origin

def CollaboratorError.erase : CollaboratorError → CollaboratorError
  | .fetch id error _ => .fetch id error .origin
  | .script message _ => .script message .origin
  | .transformFailed reason _ => .transformFailed reason .origin

/-- An error without its place: its kind, and what its message says. -/
def Error.erase : Error → Error
  | .lex e => .lex { e with span := .origin }
  | .parse e => .parse { e with span := .origin }
  | .semantic e => .semantic e.erase
  | .unclearedKeys name keys => .unclearedKeys name keys
  | .collaborator e => .collaborator e.erase

/-! ## Entries -/

namespace Program

def Entry.erase (e : Entry) : Entry := ⟨e.name, .origin⟩

def Alias.erase (a : Alias) : Alias := ⟨a.name, a.keyPrefix, ⟨eraseActions a.body.actions, .origin⟩, .origin⟩

/-- The answer of a check without places. -/
def eraseChecked {α β : Type} (erase : α → β) : Except SemanticError α → Except SemanticError β
  | .ok a => .ok (erase a)
  | .error e => .error e.erase

theorem aliases_erase (p : Program) : p.erase.aliases = p.aliases.map Alias.erase := by
  simp only [aliases, erase, List.filterMap_map, List.map_filterMap]
  congr 1
  funext d
  cases d <;> rfl

theorem checkDeclarations_erase (ds : List Declaration) : ∀ (as : List Alias) (e : Option Entry),
    checkDeclarations (as.map Alias.erase) (e.map Entry.erase) (ds.map Declaration.erase) =
      eraseChecked (Option.map Entry.erase) (checkDeclarations as e ds) := by
  induction ds with
  | nil => exact fun as e => rfl
  | cons d ds ih =>
    intro as e
    rw [List.map_cons]
    cases d with
    | entry d =>
      cases e with
      | none => exact ih as (some d)
      | some e => rfl
    | define a =>
      have hany : (as.map Alias.erase).any (·.name = a.name) = as.any (·.name = a.name) := by
        rw [List.any_map]
        rfl
      simp only [Declaration.erase, checkDeclarations, hany]
      split
      · rfl
      · exact ih (a :: as) e

theorem find?_erase (p : Program) (name : String) : p.erase.find? name = (p.find? name).map Alias.erase := by
  rw [Program.find?, aliases_erase, List.find?_map]
  rfl

theorem check_erase (p : Program) :
    p.erase.check = eraseChecked (Option.map fun found => (found.1.erase, found.2.erase)) p.check := by
  unfold check
  have hchecked := checkDeclarations_erase p.declarations [] none
  rw [show p.erase.declarations = p.declarations.map Declaration.erase from rfl]
  rw [List.map_nil, Option.map_none] at hchecked
  rw [hchecked]
  rcases checkDeclarations [] none p.declarations with e | _ | entry
  · rfl
  · rfl
  · simp only [eraseChecked, Option.map_some, find?_erase]
    rw [show entry.erase.name = entry.name from rfl]
    cases p.find? entry.name <;> rfl

theorem selectEntry_erase (p : Program) : p.erase.selectEntry = eraseChecked Alias.erase p.selectEntry := by
  unfold selectEntry
  rw [check_erase, aliases_erase]
  rcases p.check with e | _ | ⟨entry, a⟩
  · rfl
  · simp only [eraseChecked, Option.map_none]
    have hmissing : ((p.erase.declarations.head?.map Declaration.span).getD .origin) = Span.origin := by
      rw [show p.erase.declarations = p.declarations.map Declaration.erase from rfl]
      cases p.declarations with
      | nil => rfl
      | cons d ds => cases d <;> rfl
    rw [hmissing]
    rcases p.aliases with _ | ⟨a, _ | ⟨b, as⟩⟩
    · rfl
    · rfl
    · simp [SemanticError.erase]
  · rfl

end Program

namespace Command

open Program

/-! ## Compilations up to places -/

def eraseWarnings (warnings : List Warning) : List Warning := warnings.map fun w => ⟨w.message, .origin⟩

def Fragment.erase (f : Fragment) : Fragment := { f with warnings := eraseWarnings f.warnings }

/-- A compiled alias without places: its name, its command, and the messages of its warnings. -/
def CompiledAlias.erase (a : CompiledAlias) : CompiledAlias := { a with warnings := eraseWarnings a.warnings }

section
variable {α β : Type}

/-- The answer of a compilation without places, and the trace it leaves. -/
def eraseRun (erase : α → β) (r : Except Error α × Trace) : Except Error β × Trace :=
  (match r.1 with
    | .ok a => .ok (erase a)
    | .error e => .error e.erase, r.2)

/-- After every trace, the two compilations leave the same trace and give the same answer but for places. -/
def Alike (erase : α → β) (c d : Compile α) : Prop :=
  ∀ t, eraseRun erase (runFrom c t) = eraseRun erase (runFrom d t)

end

section
variable {α α' β β' : Type} {erase : α → α'} {erase' : β → β'} {c d : Compile α}

theorem Alike.refl (erase : α → α') (c : Compile α) : Alike erase c c := fun _ => rfl

theorem Alike.through {c' : Compile α} (h : Alike erase c d) (h' : Alike erase c' d) : Alike erase c c' :=
  fun t => (h t).trans (h' t).symm

theorem Alike.pure {a b : α} (h : erase a = erase b) : Alike erase (Pure.pure a) (Pure.pure b) := by
  intro t
  simp only [runFrom_pure, eraseRun, h]

theorem Alike.throw {e e' : Error} (h : e.erase = e'.erase) : Alike erase (throw e) (throw e') := by
  intro t
  simp only [runFrom_throw, eraseRun, h]

theorem Alike.bind {f g : α → Compile β} (hc : Alike erase c d)
    (hf : ∀ a b, erase a = erase b → Alike erase' (f a) (g b)) : Alike erase' (c >>= f) (d >>= g) := by
  intro t
  have ht := hc t
  rw [runFrom_bind, runFrom_bind]
  generalize runFrom c t = r, runFrom d t = r' at ht
  rcases r with ⟨e | a, t₁⟩ <;> rcases r' with ⟨e' | b, t₂⟩ <;>
    simp only [eraseRun, Prod.mk.injEq, Except.ok.injEq, Except.error.injEq, reduceCtorEq, false_and] at ht
  · simp only [eraseRun, ht.1, ht.2]
  · obtain ⟨hab, rfl⟩ := ht
    exact hf a b hab t₁

/-- What does not depend on places can come before anything. -/
theorem Alike.bind_same {f g : α → Compile β} (c : Compile α) (hf : ∀ a, Alike erase' (f a) (g a)) :
    Alike erase' (c >>= f) (c >>= g) := by
  refine (Alike.refl id c).bind fun a b hab => ?_
  obtain rfl : a = b := hab
  exact hf a

end

/-! ## Fragments -/

theorem eraseWarnings_append (a b : List Warning) : eraseWarnings (a ++ b) = eraseWarnings a ++ eraseWarnings b :=
  List.map_append

theorem Fragment.erase_eq_iff {f g : Fragment} : f.erase = g.erase ↔
    f.commands = g.commands ∧ f.tempKeys = g.tempKeys ∧ eraseWarnings f.warnings = eraseWarnings g.warnings := by
  simp only [Fragment.erase, Fragment.mk.injEq]

theorem Fragment.erase_append {f f' g g' : Fragment} (hf : f.erase = f'.erase) (hg : g.erase = g'.erase) :
    (f ++ g).erase = (f' ++ g').erase := by
  obtain ⟨hcommands, hkeys, hwarnings⟩ := erase_eq_iff.mp hf
  obtain ⟨hcommands', hkeys', hwarnings'⟩ := erase_eq_iff.mp hg
  refine erase_eq_iff.mpr ⟨?_, ?_, ?_⟩
  · exact congrArg₂ (· ++ ·) hcommands hcommands'
  · exact congrArg₂ Keys.union hkeys hkeys'
  · show eraseWarnings (f.warnings ++ g.warnings) = eraseWarnings (f'.warnings ++ g'.warnings)
    rw [eraseWarnings_append, eraseWarnings_append, hwarnings, hwarnings']

theorem Fragment.erase_join {f f' g g' : Fragment} (hf : f.erase = f'.erase) (hg : g.erase = g'.erase) :
    (f.join g).erase = (f'.join g').erase := by
  obtain ⟨hcommands, hkeys, hwarnings⟩ := erase_eq_iff.mp hf
  have hcommands' := (erase_eq_iff.mp hg).1
  have hempty : (!g.isEmpty && !f.isEmpty) = (!g'.isEmpty && !f'.isEmpty) := by
    simp only [isEmpty, hcommands, hcommands']
  unfold join
  rw [hempty]
  split
  · refine erase_append (erase_eq_iff.mpr ⟨?_, hkeys, hwarnings⟩) hg
    rw [hcommands]
  · exact erase_append hf hg

theorem Fragment.erase_foldl_join {fs gs : List Fragment} (h : fs.map erase = gs.map erase) :
    ∀ {f g : Fragment}, f.erase = g.erase → (fs.foldl join f).erase = (gs.foldl join g).erase := by
  induction fs generalizing gs with
  | nil =>
    intro f g hfg
    rw [List.map_nil, eq_comm, List.map_eq_nil_iff] at h
    subst h
    exact hfg
  | cons f' fs ih =>
    intro f g hfg
    obtain ⟨g', gs, rfl, hfirst, hrest⟩ := List.map_eq_cons_iff.mp h.symm
    exact ih hrest.symm (erase_join hfg hfirst.symm)

/-! ## Parts of a program -/

variable (co : Collaborators) (scope : Scope)

/-- A script action without its places. -/
def eraseScript (a : ScriptAction) : ScriptAction :=
  ⟨a.imported.map fun i => ⟨i.id, .origin⟩, ⟨a.script.raw, .origin⟩, .origin⟩

theorem importedText_alike (a : ScriptAction) : Alike id (importedText co a) (importedText co (eraseScript a)) := by
  obtain ⟨imported, script, span⟩ := a
  unfold importedText
  cases imported with
  | none => exact .refl id _
  | some i =>
    simp only [eraseScript, Option.map_some]
    cases Gist.Id.ofText i.id with
    | error fault => exact .throw rfl
    | ok id =>
      refine .bind_same _ fun answer => ?_
      cases answer with
      | error e => exact .throw rfl
      | ok content => exact .refl _ _

/-- The places of remarks are the only thing for which the place of a script is used. -/
theorem compileScript_alike (a : ScriptAction) :
    Alike Fragment.erase (compileScript co scope a) (compileScript co scope (eraseScript a)) := by
  unfold compileScript
  refine (importedText_alike co a).bind fun imported imported' himported => ?_
  obtain rfl : imported = imported' := himported
  rw [show (eraseScript a).script.unescaped = a.script.unescaped from rfl]
  refine .bind_same _ fun answer => ?_
  cases answer with
  | error reason => exact .throw rfl
  | ok output =>
    dsimp only
    cases output.diagnostics.find? (·.isError) with
    | some d => exact .throw rfl
    | none =>
      refine .pure (Fragment.erase_eq_iff.mpr ⟨rfl, rfl, ?_⟩)
      simp only [eraseWarnings, List.map_map, Function.comp_def]

theorem compileSimple_alike (a : Simple) :
    Alike Fragment.erase (compileSimple co scope a) (compileSimple co scope a.erase) := by
  cases a with
  | script a => exact compileScript_alike co scope a
  | commands l => exact .refl _ _
  | say literal span => cases literal <;> exact .refl _ _
  | call c => exact .refl _ _

theorem compileRetrieve_alike (r : Retrieve) :
    Alike Fragment.erase (compileRetrieve scope r) (compileRetrieve scope r.erase) := by
  cases r with
  | key key isLocal span => exact .refl _ _
  | argument literal span =>
    simp only [Retrieve.erase, compileRetrieve]
    split
    · exact .throw rfl
    · exact .refl _ _

theorem compileStep_alike (s : Step) :
    Alike Fragment.erase (compileStep co scope s) (compileStep co scope s.erase) := by
  cases s with
  | store s => exact .refl _ _
  | action a => exact compileSimple_alike co scope a

theorem compileChain_alike (links : List Link) :
    Alike Fragment.erase (compileChain co scope links) (compileChain co scope (eraseChain links)) := by
  induction links with
  | nil => exact .refl _ _
  | cons l rest ih =>
    rw [eraseChain, List.map_cons, ← eraseChain, compileChain, compileChain]
    refine (compileStep_alike co scope l.step).bind fun f f' hf => ?_
    exact ih.bind fun g g' hg => .pure (Fragment.erase_append hf hg)

theorem compileExecute_alike (e : Execute) :
    Alike Fragment.erase (compileExecute co scope e) (compileExecute co scope e.erase) := by
  obtain ⟨retrieve, action, links, span⟩ := e
  have hrest : ∀ r r' : Fragment, r.erase = r'.erase → Alike Fragment.erase
      (do let f ← compileSimple co scope action; return r ++ f ++ (← compileChain co scope links))
      (do let f ← compileSimple co scope action.erase; return r' ++ f ++ (← compileChain co scope (eraseChain links))) := by
    intro r r' hr
    refine (compileSimple_alike co scope action).bind fun f f' hf => ?_
    refine (compileChain_alike co scope links).bind fun g g' hg => .pure ?_
    exact Fragment.erase_append (Fragment.erase_append hr hf) hg
  unfold compileExecute
  cases retrieve with
  | none => exact hrest .empty .empty rfl
  | some r => exact (compileRetrieve_alike scope r).bind hrest

/-! ## Bodies -/

theorem discharge_erase {f f' : Fragment} (h : f.erase = f'.erase) :
    (discharge scope f).erase = (discharge scope f').erase := by
  obtain ⟨hcommands, hkeys, hwarnings⟩ := Fragment.erase_eq_iff.mp h
  unfold discharge
  rw [hkeys]
  split
  · exact h
  · refine Fragment.erase_eq_iff.mpr ⟨?_, rfl, hwarnings⟩
    rw [hcommands]

theorem compileBody_alike {fs gs : List Fragment} (h : fs.map Fragment.erase = gs.map Fragment.erase)
    (span span' : Span) : Alike Fragment.erase (compileBody scope span fs) (compileBody scope span' gs) := by
  have hjoined : (Fragment.joinAll fs).erase = (Fragment.joinAll gs).erase := Fragment.erase_foldl_join h rfl
  have hempty : (Fragment.joinAll fs).isEmpty = (Fragment.joinAll gs).isEmpty := by
    rw [Fragment.isEmpty, Fragment.isEmpty, (Fragment.erase_eq_iff.mp hjoined).1]
  unfold compileBody
  dsimp only
  rw [hempty]
  split
  · exact .throw rfl
  · exact .pure (discharge_erase scope hjoined)

theorem compileRoot_alike (body body' : Body) (hempty : body.actions.isEmpty = body'.actions.isEmpty)
    (h : Alike (List.map Fragment.erase) (compileActions co scope body.actions)
      (compileActions co scope body'.actions)) :
    Alike Fragment.erase (compileRoot co scope body) (compileRoot co scope body') := by
  unfold compileRoot
  rw [hempty]
  split
  · exact .throw rfl
  · exact h.bind fun fs gs hfs => compileBody_alike scope hfs _ _

/-- A block embeds alike, and leaves over the same links but for places. -/
theorem embedPipeline_alike {f f' : Fragment} (h : f.erase = f'.erase) (embedded : String) (links : List Link) :
    (embedPipeline scope f embedded links).1.erase = (embedPipeline scope f' embedded (eraseChain links)).1.erase ∧
      (embedPipeline scope f' embedded (eraseChain links)).2 =
        eraseChain (embedPipeline scope f embedded links).2 := by
  obtain ⟨-, hkeys, hwarnings⟩ := Fragment.erase_eq_iff.mp h
  rcases links with _ | ⟨⟨_ | _, span⟩, rest⟩
  · exact ⟨Fragment.erase_eq_iff.mpr ⟨rfl, hkeys, hwarnings⟩, rfl⟩
  · rename_i s
    refine ⟨Fragment.erase_eq_iff.mpr ?_, rfl⟩
    simp only [embedPipeline, eraseChain, List.map_cons, Step.erase, register, Fragment.push, Fragment.addKey, hkeys]
    split
    · exact ⟨rfl, rfl, hwarnings⟩
    · exact ⟨rfl, rfl, hwarnings⟩
  · exact ⟨Fragment.erase_eq_iff.mpr ⟨rfl, hkeys, hwarnings⟩, rfl⟩

theorem isEmpty_eraseActions (actions : List Action) : (eraseActions actions).isEmpty = actions.isEmpty := by
  cases actions <;> rfl

mutual

theorem compileAction_alike (scope : Scope) : ∀ a : Action,
    Alike Fragment.erase (compileAction co scope a) (compileAction co scope a.erase)
  | .execute e => by
    rw [Action.erase, compileAction, compileAction]
    exact compileExecute_alike co scope e
  | .compiled actions bodySpan links span => by
    rw [Action.erase, compileAction_compiled, compileAction_compiled]
    have hbody := compileRoot_alike co scope.nested ⟨actions, bodySpan⟩
      ⟨eraseActions actions, .origin⟩ (isEmpty_eraseActions actions).symm
      (compileActions_alike scope.nested actions)
    refine hbody.bind fun f f' hf => ?_
    rw [(Fragment.erase_eq_iff.mp hf).1]
    refine .bind_same _ fun pipeline => ?_
    obtain ⟨hfragment, hlinks⟩ := embedPipeline_alike scope hf (Quoting.embedded pipeline) links
    rcases hembed : embedPipeline scope f (Quoting.embedded pipeline) links with ⟨g, rest⟩
    rcases hembed' : embedPipeline scope f' (Quoting.embedded pipeline) (eraseChain links) with ⟨g', rest'⟩
    rw [hembed, hembed'] at hfragment hlinks
    obtain rfl : rest' = eraseChain rest := hlinks
    exact (compileChain_alike co scope rest).bind fun h h' hh => .pure (Fragment.erase_append hfragment hh)

theorem compileActions_alike (scope : Scope) : ∀ actions : List Action,
    Alike (List.map Fragment.erase) (compileActions co scope actions) (compileActions co scope (eraseActions actions))
  | [] => .refl _ _
  | a :: rest => by
    rw [eraseActions, compileActions, compileActions]
    refine (compileAction_alike scope a).bind fun f f' hf => ?_
    refine (compileActions_alike scope rest).bind fun fs fs' hfs => .pure ?_
    rw [List.map_cons, List.map_cons, hf, hfs]

end

/-! ## Aliases and programs -/

variable (settings : Settings)

theorem compileAlias_alike (a : Alias) :
    Alike CompiledAlias.erase (compileAlias co settings a) (compileAlias co settings a.erase) := by
  have hroot := compileRoot_alike co (.ofAlias a settings) a.body a.erase.body
    (isEmpty_eraseActions a.body.actions).symm (compileActions_alike co _ a.body.actions)
  refine hroot.bind fun f f' hf => ?_
  obtain ⟨hcommands, hkeys, hwarnings⟩ := Fragment.erase_eq_iff.mp hf
  unfold finishAlias
  rw [hcommands, hkeys]
  split
  · exact .throw rfl
  · refine .bind_same _ fun command => .pure ?_
    simp only [CompiledAlias.erase, hwarnings]
    rfl

theorem mapM_compileAlias_alike (as : List Alias) :
    Alike (List.map CompiledAlias.erase) (as.mapM (compileAlias co settings))
      ((as.map Alias.erase).mapM (compileAlias co settings)) := by
  induction as with
  | nil => exact .refl _ _
  | cons a as ih =>
    rw [List.map_cons, List.mapM_cons, List.mapM_cons]
    refine (compileAlias_alike co settings a).bind fun b b' hb => ih.bind fun bs bs' hbs => .pure ?_
    rw [List.map_cons, List.map_cons, hb, hbs]

/-- The entry is selected by name, and an error of the selection is the same but for its place. -/
theorem compileEntry_alike (p : Program) :
    Alike CompiledAlias.erase (compileEntry co settings p) (compileEntry co settings p.erase) := by
  unfold compileEntry
  rw [selectEntry_erase]
  cases p.selectEntry with
  | error e =>
    refine .throw ?_
    cases e <;> rfl
  | ok a => exact compileAlias_alike co settings a

theorem compileAll_alike (p : Program) :
    Alike (List.map CompiledAlias.erase) (compileAll co settings p) (compileAll co settings p.erase) := by
  unfold compileAll
  rw [check_erase, aliases_erase]
  cases p.check with
  | error e =>
    refine .throw ?_
    cases e <;> rfl
  | ok found => exact mapM_compileAlias_alike co settings p.aliases

/-! ## Layouts -/

/-- A text with the tokens of a program is read as that program. -/
theorem parse_of_lexes {text : String} {ks : List Token.Kind} {p : Program} (h : Token.Lexes text.toList ks)
    (hd : Grammar.Derives p ks) (hn : NestsWithin maxNesting p) : ∃ q, parse text = .ok q ∧ q.erase = p := by
  obtain ⟨front, span, htokens, hkinds, hend⟩ := tokenize_of_lexes h
  rw [← hkinds] at hd
  obtain ⟨q, hq, herase⟩ := ofTokens_complete hend span hd hn
  exact ⟨q, parse_eq_ok.mpr ⟨_, htokens, hq⟩, herase⟩

/-- A program that was read has a layout with its tokens. -/
theorem layout_lexes_of_parse {source : String} {p : Program} (h : parse source = .ok p) :
    ∃ ks, Token.Lexes p.layout.toList ks ∧ Grammar.Derives p.erase ks ∧ NestsWithin maxNesting p.erase := by
  obtain ⟨tokens, htokens, hp⟩ := parse_eq_ok.mp h
  obtain ⟨front, span, rfl, hend, hprintable⟩ := tokenize_front htokens
  obtain ⟨hderives, hnests⟩ := ofTokens_sound hend hp
  refine ⟨_, ?_, hderives, nestsWithin_erase.mpr hnests⟩
  rw [← layout_erase]
  exact layout_lexes hderives (List.forall_mem_map.mpr hprintable)

/-- **Formatting never changes what is compiled.** For every source text that parses, its canonical layout parses, too.
Under all settings and with the same collaborators, the two programs ask the same of the collaborators. Their entry
aliases either both compile, to the same name, command and messages of warnings, or both fail with the same error; and
so do all their aliases in order. Only places may differ. -/
theorem formatting_keeps_compilation {source : String} {p : Program} (h : parse source = .ok p) :
    ∃ text q, format source = .ok text ∧ parse text = .ok q ∧
      eraseRun CompiledAlias.erase (run (compileEntry co settings q)) =
        eraseRun CompiledAlias.erase (run (compileEntry co settings p)) ∧
      eraseRun (List.map CompiledAlias.erase) (run (compileAll co settings q)) =
        eraseRun (List.map CompiledAlias.erase) (run (compileAll co settings p)) := by
  obtain ⟨ks, hlexes, hderives, hnests⟩ := layout_lexes_of_parse h
  obtain ⟨q, hq, herase⟩ := parse_of_lexes hlexes hderives hnests
  have hentry := compileEntry_alike co settings q
  have hall := compileAll_alike co settings q
  rw [herase] at hentry hall
  refine ⟨p.layout, q, by rw [format, h]; rfl, hq, ?_, ?_⟩
  · exact hentry.through (compileEntry_alike co settings p) {}
  · exact hall.through (compileAll_alike co settings p) {}

/-- A source text with a comment, an escape, a nested block with a script, and a chain on two lines. -/
def spacedSource : String :=
  "# one\nalias  aa get compiled\tjs```return \\`x\\````end->say\"\\u00e9\"\n->set temp \"k\"end"

/-- Its program. -/
def spacedProgram : Program :=
  ⟨[.define ⟨"aa", none, ⟨[.compiled
      [.execute ⟨none, .script ⟨none, ⟨"return \\`x\\`", .origin⟩, .origin⟩, [], .origin⟩] .origin
      [⟨.action (.say (some "é") .origin), .origin⟩, ⟨.store ⟨"k", true, false, .origin⟩, .origin⟩] .origin], .origin⟩,
    .origin⟩]⟩

/-- The text parses as that program, without places. -/
def spacedParse : {p // (parse spacedSource).map erase = .ok p} := ⟨spacedProgram, by decide +kernel⟩

/-- Its layout compiles like it where markers of blocks are drawn. -/
theorem spaced_source_compiles_alike :
    ∃ p text q, parse spacedSource = .ok p ∧ p.erase = spacedProgram ∧ format spacedSource = .ok text ∧
      parse text = .ok q ∧
      eraseRun CompiledAlias.erase (run (compileEntry (standalone toString) { delimiter := .fixed } q)) =
        eraseRun CompiledAlias.erase (run (compileEntry (standalone toString) { delimiter := .fixed } p)) := by
  obtain ⟨p, hp, herase⟩ := Token.map_eq_ok spacedParse.2
  obtain ⟨text, q, htext, hq, hentry, -⟩ := formatting_keeps_compilation (standalone toString) { delimiter := .fixed } hp
  exact ⟨p, text, q, hp, herase, htext, hq, hentry⟩

end Command
end AliasLang
