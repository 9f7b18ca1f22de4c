/-
Where the commands of a body come from. Each of them is written by one part of the body, is a barrier, or deletes the
temporary keys. Those that run code do one job each, and the keys that a job names are resolved keys of the body.

From this follows which parameters end where they should. Code and pipelines are quoted so that they always do. A key
is only safe if it is well quoted as it stands.
-/
import AliasLang.Proofs.Command.Body
import AliasLang.Proofs.Command.Quoting
import Mathlib.Logic.Relation

namespace AliasLang.Command

open Program
open Quoting (WellQuoted readParameter? wellQuoted_append_escaped_iff wellQuoted_key_iff wellQuoted_parameter
  wellQuoted_embedded wellQuoted_iff_readParameter?)
open Relation (ReflTransGen)

/-! ## Jobs -/

/-- What a script command does. -/
inductive Job where
  | retrieve (key : String)
  | store (key : String)
  | give (pipeline : String)
  | storePipeline (key pipeline : String)
  | delete (keys : List String)
  | run (code : String)

namespace Job

def command (scope : Scope) : Job → String
  | retrieve key => retrieveCommand scope key
  | store key => storeCommand scope key
  | give pipeline => literalCommand scope (Quoting.embedded pipeline)
  | storePipeline key pipeline => storeLiteralCommand scope key (Quoting.embedded pipeline)
  | delete keys => dischargeCommand scope keys
  | run code => scriptCommand scope (Quoting.parameter ("(()=>\x7b" ++ code ++ "\x7d)();"))

/-- The keys that the job names. -/
def keys : Job → List String
  | retrieve key | store key | storePipeline key _ => [key]
  | delete keys => keys
  | give _ | run _ => []

end Job

theorem wellQuoted_keyLiteral_append (key : String) (rest : List Char) :
    WellQuoted ((keyLiteral key).toList ++ rest) ↔ WellQuoted key.toList ∧ WellQuoted rest := by
  have hopen : WellQuoted "\\\"".toList := by decide
  have happ : (keyLiteral key).toList ++ rest =
      "\\\"".toList ++ ((Quoting.key key).toList ++ '\\' :: '"' :: rest) := by simp [keyLiteral]
  rw [happ, hopen.append_iff, wellQuoted_append_escaped_iff, wellQuoted_key_iff]

theorem wellQuoted_deletions_append (keys : List String) (rest : List Char) :
    WellQuoted ((String.join (keys.map fun key => "customData.set(" ++ keyLiteral key ++ ",undefined);")).toList ++ rest) ↔
      (∀ key ∈ keys, WellQuoted key.toList) ∧ WellQuoted rest := by
  have hset : WellQuoted "customData.set(".toList := by decide
  have hundefined : WellQuoted ",undefined);".toList := by decide
  induction keys with
  | nil => simp
  | cons key keys ih =>
    rw [String.toList_join] at ih ⊢
    simp only [List.map_cons, List.flatMap_cons, String.toList_append, List.append_assoc, List.forall_mem_cons]
    rw [hset.append_iff, wellQuoted_keyLiteral_append, hundefined.append_iff, and_assoc]
    exact and_congr_right fun _ => ih

/-- The parameter of a script command is well quoted if and only if the keys it names are. -/
theorem Job.exists_code (scope : Scope) (job : Job) : ∃ code, job.command scope = scriptCommand scope code ∧
    (WellQuoted code.toList ↔ ∀ key ∈ job.keys, WellQuoted key.toList) := by
  -- The texts around keys and literals are well quoted, so only the keys decide.
  have hget : WellQuoted "customData.get(".toList := by decide
  have hset : WellQuoted "customData.set(".toList := by decide
  have hspaced : WellQuoted " customData.set(".toList := by decide
  have hcomma : WellQuoted ",'".toList := by decide
  have hquote : WellQuoted " '".toList := by decide
  cases job with
  | retrieve key =>
    refine ⟨_, rfl, ?_⟩
    simp only [String.toList_append, List.append_assoc]
    rw [hget.append_iff, wellQuoted_keyLiteral_append, and_iff_left (by decide)]
    simp [keys]
  | store key =>
    refine ⟨_, rfl, ?_⟩
    simp only [String.toList_append, List.append_assoc]
    rw [hset.append_iff, wellQuoted_keyLiteral_append, and_iff_left (by decide)]
    simp [keys]
  | give pipeline =>
    refine ⟨_, rfl, iff_of_true ?_ (by simp [keys])⟩
    simp only [String.toList_append, List.append_assoc]
    rw [hquote.append_iff, (wellQuoted_embedded pipeline).append_iff]
    decide
  | storePipeline key pipeline =>
    refine ⟨_, rfl, ?_⟩
    simp only [String.toList_append, List.append_assoc]
    rw [hspaced.append_iff, wellQuoted_keyLiteral_append, hcomma.append_iff, (wellQuoted_embedded pipeline).append_iff,
      and_iff_left (by decide)]
    simp [keys]
  | delete keys =>
    refine ⟨_, rfl, ?_⟩
    rw [String.toList_append, wellQuoted_deletions_append, and_iff_left (by decide)]
    rfl
  | run code => exact ⟨_, rfl, iff_of_true (wellQuoted_parameter _) (by simp [keys])⟩

/-! ## Commands of steps -/

/-- The steps of an action, without those in the body of a block. -/
def stepsOf : Action → List Step
  | .execute e => .action e.action :: e.chain.map (·.step)
  | .compiled _ _ chain _ => chain.map (·.step)

/-- The commands of a step that run no code. -/
inductive Spoken : Step → String → Prop
  | listed {l : CommandList} {c : String} (h : c ∈ l.commands) : Spoken (.action (.commands l)) c
  | said (text : String) (span : Source.Span) : Spoken (.action (.say (some text) span)) ("abb say " ++ text)
  | tried {call : Call} {user : String} (h : call.user = some user) :
      Spoken (.action (.call call)) s!"alias try @{user} {call.target}"
  | called {call : Call} (h : call.user = none) : Spoken (.action (.call call)) s!"$ {call.target}"

/-- The jobs of a step. -/
inductive StepDoes (co : Collaborators) (scope : Scope) : Step → Job → Prop
  | store (s : Store) : StepDoes co scope (.store s) (.store (scope.resolveKey s.key s.isLocal))
  | run {a : ScriptAction} {imported : String} {output : Script.Output}
      (h : co.transform (Script.Options.forEmbedding scope.minifyScript)
        (Script.preamble scope.keyPrefix ++ imported ++ a.script.unescaped) = .ok output) :
      StepDoes co scope (.action (.script a)) (.run output.code)

def StepGives (co : Collaborators) (scope : Scope) (s : Step) (c : String) : Prop :=
  Spoken s c ∨ ∃ job, StepDoes co scope s job ∧ c = job.command scope

section Steps

variable (co : Collaborators) (scope : Scope)

theorem compileScript_gives (a : ScriptAction) :
    Meets (compileScript co scope a) fun f => ∀ c ∈ f.commands, StepGives co scope (.action (.script a)) c := by
  unfold compileScript
  refine .bind (importedText_meets co a) fun imported _ => ?_
  refine .bind (transform_meets co _ _) fun answer hanswer => ?_
  split
  · exact .throw rfl
  · rename_i output
    split
    · exact .throw rfl
    · refine .pure fun c hc => .inr ⟨.run output.code, .run hanswer.symm, ?_⟩
      exact List.mem_singleton.mp hc

theorem compileSimple_gives (a : Simple) :
    Meets (compileSimple co scope a) fun f => ∀ c ∈ f.commands, StepGives co scope (.action a) c := by
  unfold compileSimple
  split
  · exact compileScript_gives co scope _
  · exact .pure fun c hc => .inl (.listed hc)
  · refine .pure fun c hc => .inl ?_
    obtain rfl := List.mem_singleton.mp hc
    exact .said _ _
  · exact .pure fun c hc => absurd hc List.not_mem_nil
  · split
    · rename_i huser
      refine .pure fun c hc => .inl ?_
      obtain rfl := List.mem_singleton.mp hc
      exact .tried huser
    · rename_i huser
      refine .pure fun c hc => .inl ?_
      obtain rfl := List.mem_singleton.mp hc
      exact .called huser

theorem compileStep_gives (s : Step) :
    Meets (compileStep co scope s) fun f => ∀ c ∈ f.commands, StepGives co scope s c := by
  cases s with
  | store s =>
    refine .pure fun c hc => .inr ⟨_, .store s, ?_⟩
    have hnil : (register scope s .empty).commands = [] := by
      unfold register
      split <;> rfl
    rw [Fragment.push, hnil] at hc
    exact List.mem_singleton.mp hc
  | action a => exact compileSimple_gives co scope a

theorem compileChain_gives (links : List Link) :
    Meets (compileChain co scope links) fun f => ∀ c ∈ f.commands, ∃ l ∈ links, StepGives co scope l.step c := by
  induction links with
  | nil => exact .pure fun c hc => absurd hc List.not_mem_nil
  | cons l rest ih =>
    rw [compileChain]
    refine .bind (compileStep_gives co scope l.step) fun f hf => .bind ih fun g hg => .pure fun c hc => ?_
    rcases List.mem_append.mp hc with hc | hc
    · exact ⟨l, List.mem_cons_self, hf c hc⟩
    · obtain ⟨l', hl', hc⟩ := hg c hc
      exact ⟨l', List.mem_cons_of_mem l hl', hc⟩

/-- The command of a retrieval. -/
def retrievalText (scope : Scope) : Retrieve → String
  | .key key isLocal _ => retrieveCommand scope (scope.resolveKey key isLocal)
  | .argument literal _ => "abb say " ++ literal.raw

theorem compileRetrieve_gives (r : Retrieve) :
    Meets (compileRetrieve scope r) fun f => f.commands = [retrievalText scope r] := by
  unfold compileRetrieve
  split
  · exact .pure rfl
  · exact .ite (fun _ => .throw rfl) fun _ => .pure rfl

theorem compileExecute_gives (e : Execute) :
    Meets (compileExecute co scope e) fun f => ∀ c ∈ f.commands,
      (∃ r, e.retrieve = some r ∧ c = retrievalText scope r) ∨ ∃ s ∈ stepsOf (.execute e), StepGives co scope s c := by
  have hrest : ∀ retrieved : Fragment,
      (∀ c ∈ retrieved.commands, ∃ r, e.retrieve = some r ∧ c = retrievalText scope r) →
        Meets (do
          let action ← compileSimple co scope e.action
          return retrieved ++ action ++ (← compileChain co scope e.chain)) fun f => ∀ c ∈ f.commands,
            (∃ r, e.retrieve = some r ∧ c = retrievalText scope r) ∨
              ∃ s ∈ stepsOf (.execute e), StepGives co scope s c := by
    intro retrieved hretrieved
    refine .bind (compileSimple_gives co scope e.action) fun action haction =>
      .bind (compileChain_gives co scope e.chain) fun chain hchain => .pure fun c hc => ?_
    rcases List.mem_append.mp hc with hc | hc
    · rcases List.mem_append.mp hc with hc | hc
      · exact .inl (hretrieved c hc)
      · exact .inr ⟨_, List.mem_cons_self, haction c hc⟩
    · obtain ⟨l, hl, hc⟩ := hchain c hc
      exact .inr ⟨l.step, List.mem_cons_of_mem _ (List.mem_map_of_mem hl), hc⟩
  unfold compileExecute
  split
  · rename_i r hr
    refine .bind (compileRetrieve_gives scope r) fun retrieved hretrieved => hrest retrieved fun c hc => ?_
    rw [hretrieved] at hc
    exact ⟨r, hr, List.mem_singleton.mp hc⟩
  · exact hrest .empty fun c hc => absurd hc List.not_mem_nil

end Steps

/-! ## Commands of bodies -/

variable {co : Collaborators}

/-- The commands of some actions that run no code. -/
inductive Plain (actions : List Action) : String → Prop
  | barrier {c : String} (h : c ∈ Fragment.barrier) : Plain actions c
  | step {a : Action} {s : Step} {c : String} (ha : a ∈ actions) (hs : s ∈ stepsOf a) (h : Spoken s c) :
      Plain actions c
  | argument {e : Execute} {literal : Token.ArgLiteral} {span : Source.Span} (he : .execute e ∈ actions)
      (hr : e.retrieve = some (.argument literal span)) : Plain actions ("abb say " ++ literal.raw)

namespace BodyRun

/-- The jobs of a body. A block gives the text of the run that is enclosed for it, or stores it if a store comes right
after the block. -/
inductive Does (r : BodyRun co) : Job → Prop
  | step {a : Action} {s : Step} {job : Job} (ha : a ∈ r.body.actions) (hs : s ∈ stepsOf a)
      (h : StepDoes co r.scope s job) : Does r job
  | retrieve {e : Execute} {key : String} {isLocal : Bool} {span : Source.Span} (he : .execute e ∈ r.body.actions)
      (hr : e.retrieve = some (.key key isLocal span)) : Does r (.retrieve (r.scope.resolveKey key isLocal))
  | give {inner : BodyRun co} {pipeline : String} (h : r.Encloses inner) (hgives : inner.Gives pipeline) :
      Does r (.give pipeline)
  | storePipeline {inner : BodyRun co} {pipeline : String} {s : Store} {storeSpan span : Source.Span} {rest : List Link}
      (h : r.Encloses inner) (hgives : inner.Gives pipeline)
      (hs : .compiled inner.body.actions inner.body.span (⟨.store s, storeSpan⟩ :: rest) span ∈ r.body.actions) :
      Does r (.storePipeline (r.scope.resolveKey s.key s.isLocal) pipeline)
  | delete (h : r.scope.keepTempKeys = false) :
      Does r (.delete (resolvedKeys r.scope (tempStores r.body.actions)).eraseDups)

/-- The command is one that runs no code, or it does a job of the body. -/
def Origin (r : BodyRun co) (c : String) : Prop :=
  Plain r.body.actions c ∨ ∃ job, r.Does job ∧ c = job.command r.scope

theorem Origin.of_step {r : BodyRun co} {a : Action} {s : Step} {c : String} (ha : a ∈ r.body.actions)
    (hs : s ∈ stepsOf a) (h : StepGives co r.scope s c) : r.Origin c := by
  rcases h with h | ⟨job, hjob, rfl⟩
  · exact .inl (.step ha hs h)
  · exact .inr ⟨job, .step ha hs hjob, rfl⟩

theorem origin_of_execute {r : BodyRun co} {e : Execute} (he : .execute e ∈ r.body.actions) {t t' : Trace}
    {f : Fragment} (h : runFrom (compileExecute co r.scope e) t = (.ok f, t')) {c : String} (hc : c ∈ f.commands) :
    r.Origin c := by
  rcases (compileExecute_gives co r.scope e).ok h c hc with ⟨retrieval, hr, rfl⟩ | ⟨s, hs, hc⟩
  · cases retrieval with
    | key key isLocal span => exact .inr ⟨_, .retrieve he hr, rfl⟩
    | argument literal span => exact .inl (.argument he hr)
  · exact .of_step he hs hc

theorem origin_of_block {r inner : BodyRun co} {pipeline : String} {chain : List Link} {span : Source.Span}
    (hencloses : r.Encloses inner) (hgives : inner.Gives pipeline)
    (hblock : .compiled inner.body.actions inner.body.span chain span ∈ r.body.actions) :
    r.Origin (blockCommand r.scope (Quoting.embedded pipeline) chain) := by
  unfold blockCommand
  split
  · exact .inr ⟨_, .storePipeline hencloses hgives hblock, rfl⟩
  · exact .inr ⟨_, .give hencloses hgives, rfl⟩

/-- What an action compiles to after the ones before it. -/
theorem origin_of_action {r : BodyRun co} {earlier later : List Action} {a : Action} {fragments : List Fragment}
    {t t' : Trace} {f : Fragment} (hactions : r.body.actions = earlier ++ a :: later)
    (hearlier : runFrom (compileActions co r.scope earlier) r.before = (.ok fragments, t))
    (h : runFrom (compileAction co r.scope a) t = (.ok f, t')) {c : String} (hc : c ∈ f.commands) : r.Origin c := by
  have ha : a ∈ r.body.actions := by simp [hactions]
  cases a with
  | execute e =>
    rw [compileAction] at h
    exact origin_of_execute ha h hc
  | compiled actions bodySpan chain span =>
    obtain ⟨inner, pipeline, hgives, hblock⟩ := compileAction_compiled_ok h
    obtain ⟨rest, links, t₁, t₂, hcommands, hlinks, hrest⟩ := hblock.commands_eq
    rw [hcommands, ← blockCommand_eq] at hc
    rcases List.mem_cons.mp hc with rfl | hc
    · have hencloses : r.Encloses inner := by
        refine ⟨earlier, chain, span, later, fragments, ?_, hblock.scope_eq, ?_⟩
        · rw [hactions, hblock.body_eq]
        · rw [hblock.before_eq]
          exact hearlier
      apply origin_of_block hencloses hgives
      rw [hblock.body_eq]
      exact ha
    · obtain ⟨l, hl, hc⟩ := (compileChain_gives co r.scope links).ok hrest c hc
      exact .of_step ha (List.mem_map_of_mem (hlinks l hl)) hc

/-- Every command of a body has its origin in the body. -/
theorem origin (r : BodyRun co) {c : String} (hc : c ∈ r.fragment.commands) : r.Origin c := by
  obtain ⟨fragments, hfragments, hfragment⟩ := r.fragments_ok
  have hkeys : Holds r.scope (tempStores r.body.actions) (Fragment.joinAll fragments) :=
    (compileActions_meets co r.scope r.body.actions).ok hfragments (holds_nil rfl : Holds r.scope [] .empty)
  -- Joining adds barriers only, and the deletion comes after it.
  have hjoined : ∀ c ∈ (Fragment.joinAll fragments).commands, r.Origin c := by
    intro c hc
    rcases Fragment.mem_foldl_join fragments hc with hc | hc | ⟨f, hf, hc⟩
    · cases hc
    · exact .inl (.barrier hc)
    · obtain ⟨earlier, a, later, fa, t₁, t₂, hactions, hearlier, ha⟩ := compileActions_mem_ok hfragments hf
      exact origin_of_action hactions hearlier ha hc
  rw [hfragment] at hc
  cases hkeep : r.scope.keepTempKeys with
  | true =>
    have hsame : discharge r.scope (Fragment.joinAll fragments) = Fragment.joinAll fragments := by
      simp [discharge, hkeep]
    rw [hsame] at hc
    exact hjoined c hc
  | false =>
    rw [discharge_commands hkeep hkeys] at hc
    rcases List.mem_append.mp hc with hc | hc
    · exact hjoined c hc
    · split at hc
      · cases hc
      · exact .inr ⟨_, .delete hkeep, List.mem_singleton.mp hc⟩

end BodyRun

/-! ## Ends of parameters -/

/-- Every command of the body and of all enclosed ones runs no code or does some job: it is `js`, the option for errors
if the scope has it, and `function:` with the code of the job in quotes. This parameter is well quoted if and only if
the keys of the job are, and if and only if reading it stops at the quote after it. -/
def KeysDecideParameters (root : BodyRun co) : Prop :=
  ∀ r, ReflTransGen BodyRun.Encloses root r → ∀ c ∈ r.fragment.commands,
    Plain r.body.actions c ∨ ∃ job code, r.Does job ∧ c = job.command r.scope ∧
      c = "js " ++ (if r.scope.errorInfo then "errorInfo:true " else "") ++ "function:\"" ++ code ++ "\"" ∧
        (WellQuoted code.toList ↔ ∀ key ∈ job.keys, WellQuoted key.toList) ∧
          (WellQuoted code.toList ↔ ∀ rest, readParameter? (code.toList ++ '"' :: rest) = some (code.toList, rest))

/-- **Keys decide where parameters end.** This holds of the body of every alias that compiles, so only a key that is not
well quoted can end a parameter at another place than its last quote. -/
theorem parameters_end_iff_keys_well_quoted {settings : Settings} {a : Alias} {t t' : Trace} {out : CompiledAlias}
    (h : runFrom (compileAlias co settings a) t = (.ok out, t')) :
    ∃ (root : BodyRun co) (text : String), root.IsRoot settings a t ∧ root.Gives text ∧
      out.command = s!"$alias {settings.verb.text} {a.name} {text}" ∧ KeysDecideParameters root := by
  obtain ⟨root, text, hroot, hgives, hcommand⟩ := compileAlias_ok h
  refine ⟨root, text, hroot, hgives, hcommand, fun r _ c hc => ?_⟩
  rcases r.origin hc with hplain | ⟨job, hjob, rfl⟩
  · exact .inl hplain
  · obtain ⟨code, hcode, hkeys⟩ := job.exists_code r.scope
    refine .inr ⟨job, code, hjob, rfl, hcode, hkeys, fun hquoted rest => ?_, fun hends => ?_⟩
    · exact (wellQuoted_iff_readParameter? rest code.toList).mp hquoted
    · exact (wellQuoted_iff_readParameter? [] code.toList).mpr (hends [])

/-- An alias whose prefix escapes the quote at the start of its local key. -/
def escapingAlias : Alias :=
  ⟨"escaping", some "\\",
    ⟨[.compiled [.execute ⟨some (.key "\"k" true .origin), .say none .origin, storing "\"k" true, .origin⟩] .origin
      (storing "k" false) .origin], .origin⟩, .origin⟩

/-- Its body deletes the two keys at its end. The first one is well quoted behind its prefix, so the parameter of this
command is read as a whole. -/
theorem escaping_alias_keys_decide :
    let code := "customData.set(\\\"\\\\\\\"k\\\",undefined);customData.set(\\\"k\\\",undefined);(args||[]).join(' ')"
    ∃ out t', runFrom (compileAlias (standalone fun _ => "") {} escapingAlias) {} = (.ok out, t') ∧
      ∃ (root : BodyRun (standalone fun _ => "")) (text : String), root.IsRoot {} escapingAlias {} ∧ root.Gives text ∧
        out.command = s!"$alias addedit escaping {text}" ∧ KeysDecideParameters root ∧
          root.fragment.commands.getLast? = some ("js errorInfo:true function:\"" ++ code ++ "\"") ∧
            WellQuoted code.toList ∧ readParameter? (code.toList ++ ['"']) = some (code.toList, []) := by
  intro code
  obtain ⟨out, t', hrun⟩ : ∃ out t',
      runFrom (compileAlias (standalone fun _ => "") {} escapingAlias) {} = (.ok out, t') :=
    exists_ok_of_isOk (by decide)
  obtain ⟨root, text, hroot, hgives, hcommand, hkeys⟩ := parameters_end_iff_keys_well_quoted hrun
  have hlast : (runFrom (compileRoot (standalone fun _ => "") (.ofAlias escapingAlias {}) escapingAlias.body)
      {}).1.toOption.bind (·.commands.getLast?) = some ("js errorInfo:true function:\"" ++ code ++ "\"") := by decide
  have hquoted : WellQuoted code.toList := by decide
  rw [← hroot.scope_eq, ← hroot.body_eq, ← hroot.before_eq, root.runs] at hlast
  exact ⟨out, t', hrun, root, text, hroot, hgives, hcommand, hkeys, hlast, hquoted,
    (wellQuoted_iff_readParameter? [] code.toList).mp hquoted⟩

/-- An alias that reads a key. -/
def retrievingAlias (key : String) : Alias :=
  ⟨"reading", none, ⟨[.execute ⟨some (.key key false .origin), .say none .origin, [], .origin⟩], .origin⟩, .origin⟩

/-- A key that ends with a backslash ends the parameter at the quote after it, and so does a quote in a key. -/
theorem key_ends_parameter_early :
    (∃ t', runFrom (compileAlias (standalone fun _ => "") {} (retrievingAlias "k\\")) {} =
        (.ok ⟨"reading", "$alias addedit reading js errorInfo:true function:\"customData.get(\\\"k\\\\\")\"", []⟩, t') ∧
      ¬ WellQuoted "customData.get(\\\"k\\\\\")".toList ∧
        readParameter? "customData.get(\\\"k\\\\\")\"".toList =
          some ("customData.get(\\\"k\\\\".toList, ")\"".toList)) ∧
    ∃ t', runFrom (compileAlias (standalone fun _ => "") {} (retrievingAlias "a\"b")) {} =
        (.ok ⟨"reading",
          "$alias addedit reading js errorInfo:true function:\"customData.get(\\\"a\\\\\"b\\\")\"", []⟩, t') ∧
      ¬ WellQuoted "customData.get(\\\"a\\\\\"b\\\")".toList ∧
        readParameter? "customData.get(\\\"a\\\\\"b\\\")\"".toList =
          some ("customData.get(\\\"a\\\\".toList, "b\\\")\"".toList) :=
  ⟨⟨_, rfl, by decide, by decide⟩, ⟨_, rfl, by decide, by decide⟩⟩

end AliasLang.Command
