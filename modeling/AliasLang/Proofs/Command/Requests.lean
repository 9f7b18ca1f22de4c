/-
What is asked of the collaborators. A compilation works through the scripts of its part of the program in source order:
for each of them it fetches the import, if there is one, and has the script transformed behind the preamble and the
import. A failure leaves the rest of the scripts alone. `Progress` says how far a compilation came, and `Works` that a
compilation asks for nothing but that progress.
-/
import AliasLang.Command.Program
import AliasLang.Proofs.Command.Success
import Mathlib.Data.List.Forall2

namespace AliasLang.Command

open Program

/-! ## Scripts and what they need -/

/-- The scripts of some aliases in source order, each with the key prefix of its alias. -/
def scriptsOf (aliases : List Alias) : List (String × ScriptAction) :=
  aliases.flatMap fun a => a.scripts.map fun s => (a.keyPrefix.getD "", s)

/-- The ids that some scripts import. -/
def importIds (work : List (String × ScriptAction)) : List String :=
  work.filterMap fun w => w.2.imported.map (·.id)

/-- What the transformer is given for a script: the preamble, what the import stands for, and the script itself. -/
def IsInput (co : Collaborators) (options : Script.Options) (w : String × ScriptAction)
    (call : String × Script.Options) : Prop :=
  ∃ imported, Resolves co w.2.imported imported ∧
    call = (Script.preamble w.1 ++ imported ++ w.2.script.unescaped, options)

/-- How far a compilation came with its scripts, and what it fetched and had transformed on the way. It is done, or it
stopped: before a script, or between the fetch for a script and its transformation. -/
inductive Progress (co : Collaborators) (options : Script.Options) :
    List (String × ScriptAction) → Bool → List Gist.Id → List (String × Script.Options) → Prop
  | done : Progress co options [] true [] []
  | stopped (work : List (String × ScriptAction)) : Progress co options work false [] []
  | fetched {w : String × ScriptAction} (work : List (String × ScriptAction)) {id : Gist.Id}
      (hid : w.2.imported.map (·.id) = some id.text) : Progress co options (w :: work) false [id] []
  | script {w : String × ScriptAction} {work : List (String × ScriptAction)} {ok : Bool} {ids ids' : List Gist.Id}
      {call : String × Script.Options} {calls : List (String × Script.Options)}
      (hids : ids.map Gist.Id.text = (w.2.imported.map (·.id)).toList) (hcall : IsInput co options w call)
      (hrest : Progress co options work ok ids' calls) :
      Progress co options (w :: work) ok (ids ++ ids') (call :: calls)

namespace Progress

variable {co : Collaborators} {options : Script.Options} {work work' : List (String × ScriptAction)} {ok : Bool}
  {ids ids' : List Gist.Id} {calls calls' : List (String × Script.Options)}

theorem append (h : Progress co options work true ids calls) (h' : Progress co options work' ok ids' calls') :
    Progress co options (work ++ work') ok (ids ++ ids') (calls ++ calls') := by
  generalize htrue : true = finished at h
  induction h with
  | done => exact h'
  | stopped | fetched => cases htrue
  | script hids hcall hrest ih =>
    rw [List.append_assoc]
    exact .script hids hcall (ih htrue)

theorem cut (h : Progress co options work false ids calls) (work' : List (String × ScriptAction)) :
    Progress co options (work ++ work') false ids calls := by
  generalize hfalse : false = finished at h
  induction h with
  | done => cases hfalse
  | stopped work => exact .stopped _
  | fetched work hid => exact .fetched _ hid
  | script hids hcall hrest ih => exact .script hids hcall (ih hfalse)

theorem importIds_cons (w : String × ScriptAction) (work : List (String × ScriptAction)) :
    importIds (w :: work) = (w.2.imported.map (·.id)).toList ++ importIds work := by
  unfold importIds
  cases h : w.2.imported <;> simp [h]

theorem importIds_eq (h : Progress co options work true ids calls) : ids.map Gist.Id.text = importIds work := by
  generalize htrue : true = finished at h
  induction h with
  | done => rfl
  | stopped | fetched => cases htrue
  | script hids hcall hrest ih => rw [List.map_append, hids, ih htrue, importIds_cons]

theorem inputs (h : Progress co options work true ids calls) : List.Forall₂ (IsInput co options) work calls := by
  generalize htrue : true = finished at h
  induction h with
  | done => exact .nil
  | stopped | fetched => cases htrue
  | script hids hcall hrest ih => exact .cons hcall (ih htrue)

theorem importIds_prefix (h : Progress co options work ok ids calls) : ids.map Gist.Id.text <+: importIds work := by
  induction h with
  | done => exact List.prefix_rfl
  | stopped => exact List.nil_prefix
  | fetched work hid =>
    rw [importIds_cons, hid]
    exact List.prefix_append _ _
  | script hids hcall hrest ih =>
    rw [List.map_append, hids, importIds_cons]
    exact (List.prefix_append_right_inj _).mpr ih

theorem inputs_prefix (h : Progress co options work ok ids calls) :
    ∃ begun, begun <+: work ∧ List.Forall₂ (IsInput co options) begun calls := by
  induction h with
  | done | stopped | fetched => exact ⟨[], List.nil_prefix, .nil⟩
  | @script w work ok ids ids' call calls hids hcall hrest ih =>
    obtain ⟨begun, hbegun, hcalls⟩ := ih
    exact ⟨w :: begun, List.cons_prefix_cons.mpr ⟨rfl, hbegun⟩, .cons hcall hcalls⟩

end Progress

/-! ## Compilations that work through scripts -/

/-- The compilation makes progress with these scripts and asks for nothing else. -/
def Works {α : Type} (co : Collaborators) (options : Script.Options) (c : Compile α)
    (work : List (String × ScriptAction)) : Prop :=
  ∀ t, ∃ ids calls, Progress co options work (runFrom c t).1.isOk ids calls ∧
    (runFrom c t).2.fetched = t.fetched ++ ids ∧ (runFrom c t).2.transformed = t.transformed ++ calls

section
variable {α β : Type} {co : Collaborators} {options : Script.Options} {c d : Compile α}
  {work work' : List (String × ScriptAction)}

theorem Works.pure (a : α) : Works co options (Pure.pure a : Compile α) [] := by
  intro t
  exact ⟨[], [], .done, (List.append_nil _).symm, (List.append_nil _).symm⟩

theorem Works.throw (e : Error) : Works co options (throw e : Compile α) work := by
  intro t
  exact ⟨[], [], .stopped work, (List.append_nil _).symm, (List.append_nil _).symm⟩

theorem Works.bind {f : α → Compile β} (hc : Works co options c work) (hf : ∀ a, Works co options (f a) work') :
    Works co options (c >>= f) (work ++ work') := by
  intro t
  obtain ⟨ids, calls, hprogress, hids, hcalls⟩ := hc t
  rw [runFrom_bind]
  rcases hr : runFrom c t with ⟨e | a, t'⟩
  · rw [hr] at hprogress hids hcalls
    exact ⟨ids, calls, hprogress.cut work', hids, hcalls⟩
  · rw [hr] at hprogress hids hcalls
    obtain ⟨ids', calls', hprogress', hids', hcalls'⟩ := hf a t'
    refine ⟨ids ++ ids', calls ++ calls', hprogress.append hprogress', ?_, ?_⟩
    · rw [← List.append_assoc, ← hids]
      exact hids'
    · rw [← List.append_assoc, ← hcalls]
      exact hcalls'

theorem Works.bind_pure {f : α → β} (hc : Works co options c work) :
    Works co options (c >>= fun a => Pure.pure (f a)) work := by
  have h := hc.bind fun a => Works.pure (f a)
  rwa [List.append_nil] at h

theorem Works.ite {b : Prop} [Decidable b] (hc : b → Works co options c work) (hd : ¬b → Works co options d work) :
    Works co options (if b then c else d) work := by
  by_cases h : b
  · rw [if_pos h]
    exact hc h
  · rw [if_neg h]
    exact hd h

end

variable (co : Collaborators) (scope : Scope)

/-- What a scope asks the transformer to do. -/
abbrev Scope.transformation : Script.Options := Script.Options.forEmbedding scope.minifyScript

/-- Scripts in a scope. -/
abbrev Scope.work (scripts : List ScriptAction) : List (String × ScriptAction) :=
  scripts.map fun s => (scope.keyPrefix, s)

/-- Whatever comes of a transformation, the script has been handed on. -/
theorem runFrom_fetch (id : Gist.Id) (t : Trace) :
    runFrom (fetch co id) t = (.ok (co.fetch id), { t with fetched := t.fetched ++ [id] }) := rfl

theorem runFrom_transform (options : Script.Options) (script : String) (t : Trace) :
    runFrom (transform co options script) t =
      (.ok (co.transform options script), { t with transformed := t.transformed ++ [(script, options)] }) := rfl

theorem compileScript_transformed (a : ScriptAction) {imported : String} {t t' : Trace}
    (h : runFrom (importedText co a) t = (.ok imported, t')) :
    (runFrom (compileScript co scope a) t).2 = { t' with transformed := t'.transformed ++
      [(Script.preamble scope.keyPrefix ++ imported ++ a.script.unescaped, scope.transformation)] } := by
  unfold compileScript
  rw [runFrom_bind, h]
  dsimp only
  rw [runFrom_bind, runFrom_transform]
  dsimp only
  split
  · rfl
  · split <;> rfl

/-- An import is refused before it is fetched, or it is fetched and fails, or it is resolved. -/
theorem importedText_cases (a : ScriptAction) (t : Trace) :
    (∃ e, runFrom (importedText co a) t = (.error e, t)) ∨
      (∃ e id, a.imported.map (·.id) = some (Gist.Id.text id) ∧
        runFrom (importedText co a) t = (.error e, { t with fetched := t.fetched ++ [id] })) ∨
      ∃ text ids, Resolves co a.imported text ∧ ids.map Gist.Id.text = (a.imported.map (·.id)).toList ∧
        runFrom (importedText co a) t = (.ok text, { t with fetched := t.fetched ++ ids }) := by
  unfold importedText
  cases a.imported with
  | none => exact .inr (.inr ⟨"", [], .absent, rfl, by simp⟩)
  | some i =>
    dsimp only
    cases hid : Gist.Id.ofText i.id with
    | error fault => exact .inl ⟨_, rfl⟩
    | ok id =>
      have htext : i.id = id.text := (text_ofText hid).symm
      dsimp only
      rw [runFrom_bind, runFrom_fetch]
      dsimp only
      cases hfetch : co.fetch id with
      | error e => exact .inr (.inl ⟨_, id, congrArg some htext, rfl⟩)
      | ok content => exact .inr (.inr ⟨_, [id], .fetched hid hfetch, by simp [htext], rfl⟩)

theorem compileScript_works (a : ScriptAction) :
    Works co scope.transformation (compileScript co scope a) (scope.work [a]) := by
  intro t
  rcases importedText_cases co a t with ⟨e, h⟩ | ⟨e, id, hid, h⟩ | ⟨text, ids, htext, hids, h⟩
  · have hrun : runFrom (compileScript co scope a) t = (.error e, t) := by
      unfold compileScript
      rw [runFrom_bind, h]
    rw [hrun]
    exact ⟨[], [], .stopped _, (List.append_nil _).symm, (List.append_nil _).symm⟩
  · have hrun : runFrom (compileScript co scope a) t = (.error e, { t with fetched := t.fetched ++ [id] }) := by
      unfold compileScript
      rw [runFrom_bind, h]
    rw [hrun]
    exact ⟨[id], [], .fetched [] hid, rfl, (List.append_nil _).symm⟩
  · have htrace := compileScript_transformed co scope a h
    rw [htrace]
    refine ⟨ids ++ [], [_], .script hids ⟨text, htext, rfl⟩ ?_, by simp, rfl⟩
    cases (runFrom (compileScript co scope a) t).1.isOk with
    | true => exact .done
    | false => exact .stopped []

/-! ## Actions -/

theorem compileSimple_works (a : Simple) :
    Works co scope.transformation (compileSimple co scope a) (scope.work a.scripts) := by
  cases a with
  | script s => exact compileScript_works co scope s
  | commands l => exact .pure _
  | say literal span => cases literal <;> exact .pure _
  | call c =>
    obtain ⟨user, target, span⟩ := c
    cases user <;> exact .pure _

theorem compileStep_works (s : Step) :
    Works co scope.transformation (compileStep co scope s) (scope.work s.scripts) := by
  cases s with
  | store s => exact .pure _
  | action a => exact compileSimple_works co scope a

theorem compileChain_works (links : List Link) :
    Works co scope.transformation (compileChain co scope links) (scope.work (chainScripts links)) := by
  induction links with
  | nil => exact .pure _
  | cons l rest ih =>
    have hsplit : scope.work (chainScripts (l :: rest)) =
        scope.work l.step.scripts ++ scope.work (chainScripts rest) := by
      simp [chainScripts]
    rw [compileChain, hsplit]
    exact (compileStep_works co scope l.step).bind fun first => ih.bind_pure

theorem compileRetrieve_works (options : Script.Options) (r : Retrieve) :
    Works co options (compileRetrieve scope r) [] := by
  cases r with
  | key key isLocal span => exact .pure _
  | argument literal span => exact .ite (fun _ => .throw _) fun _ => .pure _

theorem compileExecute_works (e : Execute) :
    Works co scope.transformation (compileExecute co scope e) (scope.work (Action.execute e).scripts) := by
  obtain ⟨retrieve, action, links, span⟩ := e
  have hrest : ∀ f : Fragment, Works co scope.transformation (do
      let action ← compileSimple co scope action
      return f ++ action ++ (← compileChain co scope links))
      (scope.work (Action.execute ⟨retrieve, action, links, span⟩).scripts) := by
    intro f
    rw [Action.scripts, Scope.work, List.map_append]
    exact (compileSimple_works co scope action).bind fun g => (compileChain_works co scope links).bind_pure
  unfold compileExecute
  cases retrieve with
  | none => exact hrest .empty
  | some r => exact (compileRetrieve_works co scope _ r).bind hrest

theorem compileBody_works (options : Script.Options) (span : Source.Span) (fragments : List Fragment) :
    Works co options (compileBody scope span fragments) [] :=
  .ite (fun _ => .throw _) fun _ => .pure _

theorem assembled_works (options : Script.Options) (commands : List String) :
    Works co options (assembled co scope commands) [] := by
  have hdraw : Works co options (draw co) [] := by
    intro t
    exact ⟨[], [], .done, (List.append_nil _).symm, (List.append_nil _).symm⟩
  unfold assembled
  split
  · exact .pure _
  · exact .ite (fun _ => hdraw.bind_pure) fun _ => .pure _

theorem compileRoot_works {actions : List Action} (span : Source.Span)
    (h : Works co scope.transformation (compileActions co scope actions) (scope.work (actionsScripts actions))) :
    Works co scope.transformation (compileRoot co scope ⟨actions, span⟩) (scope.work (actionsScripts actions)) := by
  unfold compileRoot
  refine .ite (fun _ => .throw _) fun _ => ?_
  have hbody := h.bind fun fragments => compileBody_works co scope scope.transformation span fragments
  rwa [List.append_nil] at hbody

mutual

/-- A nested body has the key prefix and the options of the scope around it. -/
theorem compileAction_works (scope : Scope) : ∀ a : Action,
    Works co scope.transformation (compileAction co scope a) (scope.work a.scripts)
  | .execute e => by
    rw [compileAction]
    exact compileExecute_works co scope e
  | .compiled actions bodySpan links span => by
    have hbody : Works co scope.transformation (compileRoot co scope.nested ⟨actions, bodySpan⟩)
        (scope.work (actionsScripts actions)) :=
      compileRoot_works co scope.nested bodySpan (compileActions_works scope.nested actions)
    rw [compileAction_compiled, Action.scripts, Scope.work, List.map_append]
    refine hbody.bind fun inner => ?_
    refine (assembled_works co scope.nested _ _).bind fun pipeline => ?_
    have hscripts := chainScripts_embedPipeline scope inner (Quoting.embedded pipeline) links
    rcases hembed : embedPipeline scope inner (Quoting.embedded pipeline) links with ⟨fragment, rest⟩
    rw [hembed] at hscripts
    rw [← hscripts]
    exact (compileChain_works co scope rest).bind_pure

theorem compileActions_works (scope : Scope) : ∀ actions : List Action,
    Works co scope.transformation (compileActions co scope actions) (scope.work (actionsScripts actions))
  | [] => by
    rw [compileActions]
    exact .pure _
  | a :: rest => by
    rw [compileActions, actionsScripts, Scope.work, List.map_append]
    exact (compileAction_works scope a).bind fun first => (compileActions_works scope rest).bind_pure

end

/-! ## Aliases and programs -/

/-- What every script of a program is transformed with. -/
abbrev transformationOf (settings : Settings) : Script.Options := Script.Options.forEmbedding settings.minifyScript

theorem compileAlias_works (settings : Settings) (a : Alias) :
    Works co (transformationOf settings) (compileAlias co settings a) (scriptsOf [a]) := by
  have hroot := compileRoot_works co (.ofAlias a settings) a.body.span (compileActions_works co _ a.body.actions)
  have hfinish : ∀ f, Works co (transformationOf settings)
      (finishAlias co settings (.ofAlias a settings) a.name f) [] := by
    intro f
    unfold finishAlias
    exact .ite (fun _ => .throw _) fun _ => (assembled_works co _ _ _).bind_pure
  have h := hroot.bind hfinish
  have hwork : scriptsOf [a] = (Scope.ofAlias a settings).work (actionsScripts a.body.actions) ++ [] := by
    simp [scriptsOf, Alias.scripts, Scope.ofAlias]
  rw [hwork]
  exact h

theorem mapM_compileAlias_works (settings : Settings) (aliases : List Alias) :
    Works co (transformationOf settings) (aliases.mapM (compileAlias co settings)) (scriptsOf aliases) := by
  induction aliases with
  | nil => exact .pure _
  | cons a aliases ih =>
    have hsplit : scriptsOf (a :: aliases) = scriptsOf [a] ++ scriptsOf aliases := by simp [scriptsOf]
    rw [List.mapM_cons, hsplit]
    exact (compileAlias_works co settings a).bind fun first => ih.bind_pure

theorem hexadecimal_cases {id : String} (h : Gist.isHexadecimal id = true) :
    ∀ c ∈ id.toList, '0' ≤ c ∧ c ≤ '9' ∨ 'a' ≤ c ∧ c ≤ 'f' ∨ 'A' ≤ c ∧ c ≤ 'F' := by
  intro c hc
  have hvalue := List.all_eq_true.mp h c hc
  unfold Text.hexValue? at hvalue
  split at hvalue
  · rename_i hdigit
    have hrange := (Bool.and_eq_true _ _).mp hdigit
    exact .inl ⟨of_decide_eq_true hrange.1, of_decide_eq_true hrange.2⟩
  · split at hvalue
    · rename_i hlower
      exact .inr (.inl (by simpa using hlower))
    · split at hvalue
      · rename_i hupper
        exact .inr (.inr (by simpa using hupper))
      · cases hvalue

/-- What the compilation of some aliases asks of the collaborators: everything in order when it succeeds, and the front
of that when it fails. -/
structure Asks {α : Type} (settings : Settings) (aliases : List Alias) (answer : Except Error α × Trace) : Prop where
  fetchesAll : answer.1.isOk = true → answer.2.fetched.map Gist.Id.text = importIds (scriptsOf aliases)
  validIds : answer.1.isOk = true → ∀ id ∈ importIds (scriptsOf aliases), id ≠ "" ∧ ∀ c ∈ id.toList,
    '0' ≤ c ∧ c ≤ '9' ∨ 'a' ≤ c ∧ c ≤ 'f' ∨ 'A' ≤ c ∧ c ≤ 'F'
  transformsAll : answer.1.isOk = true →
    List.Forall₂ (IsInput co (transformationOf settings)) (scriptsOf aliases) answer.2.transformed
  fetchesInOrder : answer.2.fetched.map Gist.Id.text <+: importIds (scriptsOf aliases)
  transformsInOrder : ∃ begun, begun <+: scriptsOf aliases ∧
    List.Forall₂ (IsInput co (transformationOf settings)) begun answer.2.transformed

theorem Works.asks {α : Type} {settings : Settings} {aliases : List Alias} {c : Compile α}
    (h : Works co (transformationOf settings) c (scriptsOf aliases)) : Asks co settings aliases (run c) := by
  obtain ⟨ids, calls, hprogress, hids, hcalls⟩ := h {}
  have hfetched : (run c).2.fetched = ids := hids
  have htransformed : (run c).2.transformed = calls := hcalls
  change Progress co _ _ (run c).1.isOk ids calls at hprogress
  have hall : (run c).1.isOk = true → ids.map Gist.Id.text = importIds (scriptsOf aliases) := by
    intro hok
    rw [hok] at hprogress
    exact hprogress.importIds_eq
  refine ⟨?_, fun hok text htext => ?_, fun hok => ?_, ?_, ?_⟩
  · rwa [hfetched]
  · rw [← hall hok] at htext
    obtain ⟨id, -, rfl⟩ := List.mem_map.mp htext
    exact ⟨id.nonempty, hexadecimal_cases id.hexadecimal⟩
  · rw [hok] at hprogress
    rw [htransformed]
    exact hprogress.inputs
  · rw [hfetched]
    exact hprogress.importIds_prefix
  · rw [htransformed]
    exact hprogress.inputs_prefix

/-- **Each script is asked for once, in source order.** When the declarations of a program fail their check, the
collaborators are asked for nothing. Otherwise the compilation of the entry alias asks for the scripts of that alias,
and the compilation of all aliases for those of all: the imports are fetched and the scripts transformed one after the
other, each behind the preamble and its import on lines of its own, all of them if it succeeds, and up to some point if
it fails. -/
theorem collaborators_asked_in_order (settings : Settings) (p : Program) :
    match p.check with
    | .error e => run (compileEntry co settings p) = (.error (.semantic e), {}) ∧
        run (compileAll co settings p) = (.error (.semantic e), {})
    | .ok _ =>
        (match p.selectEntry with
          | .error e => run (compileEntry co settings p) = (.error (.semantic e), {})
          | .ok a => Asks co settings [a] (run (compileEntry co settings p))) ∧
        Asks co settings p.aliases (run (compileAll co settings p)) := by
  cases hcheck : p.check with
  | error e =>
    refine ⟨?_, ?_⟩
    · unfold compileEntry selectEntry
      rw [hcheck]
      rfl
    · unfold compileAll
      rw [hcheck]
      rfl
  | ok found =>
    refine ⟨?_, ?_⟩
    · unfold compileEntry
      cases p.selectEntry with
      | error e => rfl
      | ok a => exact (compileAlias_works co settings a).asks
    · unfold compileAll
      rw [hcheck]
      exact (mapM_compileAlias_works co settings p.aliases).asks

/-- A script with an import. -/
def importingScript : ScriptAction := ⟨some ⟨"A1b2", .origin⟩, ⟨"f(\\`x\\`)", .origin⟩, .origin⟩

/-- A script without one. -/
def plainScript : ScriptAction := ⟨none, ⟨"g()", .origin⟩, .origin⟩

/-- An alias that runs the one in a block, and the other after it. -/
def importingAlias : Alias :=
  ⟨"importing", some "p.",
    ⟨[.compiled [.execute ⟨none, .script importingScript, [], .origin⟩] .origin [] .origin,
      .execute ⟨none, .script plainScript, [], .origin⟩], .origin⟩, .origin⟩

/-- The import ends without a line feed, and gets one. -/
theorem importing_alias_asks :
    let co : Collaborators := ⟨fun _ => .ok "let f", fun _ script => .ok ⟨script, []⟩, toString⟩
    let answer := run (compileAll co {} ⟨[.define importingAlias]⟩)
    answer.1.isOk = true ∧ answer.2.fetched.map Gist.Id.text = ["A1b2"] ∧
      answer.2.transformed = [(Script.preamble "p." ++ "let f\n" ++ "f(`x`)", transformationOf {}),
        (Script.preamble "p." ++ "g()", transformationOf {})] := by
  intro co answer
  have hok : answer.1.isOk = true := by decide
  have hasks : Asks co {} [importingAlias] answer := (collaborators_asked_in_order co {} ⟨[.define importingAlias]⟩).2
  have hscripts : scriptsOf [importingAlias] = [("p.", importingScript), ("p.", plainScript)] := rfl
  have hinputs := hasks.transformsAll hok
  rw [hscripts] at hinputs
  obtain ⟨first, later, ⟨imported, himported, rfl⟩, hlater, hcalls⟩ := List.forall₂_cons_left_iff.mp hinputs
  obtain ⟨second, none, ⟨absent, habsent, rfl⟩, hnone, rfl⟩ := List.forall₂_cons_left_iff.mp hlater
  obtain rfl := List.forall₂_nil_left_iff.mp hnone
  have hid : Gist.Id.ofText "A1b2" = .ok ⟨"A1b2", by decide, by decide⟩ := rfl
  have hended : imported = if "let f".toList.getLast? = some '\n' then "let f" else "let f" ++ "\n" :=
    himported.unique (.fetched hid rfl)
  have himported : imported = "let f\n" := hended.trans (by decide)
  have habsent : absent = "" := habsent.unique .absent
  have hfirst : importingScript.script.unescaped = "f(`x`)" := by decide +kernel
  have hsecond : plainScript.script.unescaped = "g()" := by decide +kernel
  refine ⟨hok, hasks.fetchesAll hok, ?_⟩
  rw [hcalls, himported, habsent, hfirst, hsecond, String.append_empty]

end AliasLang.Command
