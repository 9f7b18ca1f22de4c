/-
Line breaks in the commands of aliases. Scripts and the pipelines of blocks lose their line breaks when they are quoted.
String literals do not: the commands that the body of an alias runs, what it says and the keys it names stand in the
command of the alias with all the line breaks they have. From inside a block only temporary keys get there, which are
deleted at the end of the alias by a command of its own.
-/
import AliasLang.Proofs.Command.Characters
import AliasLang.Proofs.Command.Embedding
import AliasLang.Proofs.Command.Entry
import AliasLang.Proofs.Command.Throughout
import AliasLang.Proofs.Program.Names

namespace AliasLang.Command

open Program
open Quoting (isBreak)

/-! ## Texts on one line -/

/-- No line ends in the text. -/
def OneLine (s : String) : Prop := ∀ c ∈ s.toList, isBreak c = false

instance (s : String) : Decidable (OneLine s) :=
  List.decidableBAll (fun c => isBreak c = false) s.toList

theorem foreign_isBreak : Foreign isBreak := by
  intro c hc
  exact isBreak_eq_false_of (by decide) (by decide) hc

theorem oneLine_append {a b : String} : OneLine (a ++ b) ↔ OneLine a ∧ OneLine b := Text.lacks_append

theorem oneLine_of_isWord {s : String} (h : Token.IsWord s) : OneLine s :=
  fun c hc => isBreak_eq_false_of (by decide) (by decide) (h c hc)

theorem oneLine_pipeline {marker : String} (hmarker : OneLine marker) {commands : List String} :
    OneLine (pipeline marker commands) ↔ ∀ c ∈ commands, OneLine c := lacks_pipeline foreign_isBreak hmarker

/-! ## Quoted texts -/

theorem isBreak_of_mem_parameterChar {c d : Char} (h : d ∈ Quoting.parameterChar c) : isBreak d = false := by
  unfold Quoting.parameterChar at h
  split at h
  · revert d
    simp [isBreak]
  split at h
  · revert d
    simp [isBreak]
  split at h
  · cases h
  · rename_i hbreak
    rw [List.mem_singleton.mp h]
    simpa [isBreak] using hbreak

theorem isBreak_of_mem_embeddedChar {c d : Char} (h : d ∈ Quoting.embeddedChar c) : isBreak d = false := by
  unfold Quoting.embeddedChar at h
  split at h
  · revert d
    simp [isBreak]
  · exact isBreak_of_mem_parameterChar h

theorem oneLine_parameter (code : String) : OneLine (Quoting.parameter code) := by
  intro d hd
  rw [Quoting.parameter, Quoting.substitute, String.toList_ofList] at hd
  obtain ⟨c, -, hdc⟩ := List.mem_flatMap.mp hd
  exact isBreak_of_mem_parameterChar hdc

theorem oneLine_embedded (pipeline : String) : OneLine (Quoting.embedded pipeline) :=
  lacks_embedded_of foreign_isBreak fun _ _ _ hd => isBreak_of_mem_embeddedChar hd

/-! ## Script commands -/

section

variable (scope : Scope)

theorem oneLine_scriptCommand {code : String} : OneLine (scriptCommand scope code) ↔ OneLine code :=
  lacks_scriptCommand scope foreign_isBreak

theorem oneLine_retrieveCommand {key : String} : OneLine (retrieveCommand scope key) ↔ OneLine key :=
  lacks_retrieveCommand scope foreign_isBreak

theorem oneLine_storeCommand {key : String} : OneLine (storeCommand scope key) ↔ OneLine key :=
  lacks_storeCommand scope foreign_isBreak

theorem oneLine_literalCommand {embedded : String} (h : OneLine embedded) :
    OneLine (literalCommand scope embedded) :=
  (lacks_literalCommand scope foreign_isBreak).mpr h

theorem oneLine_storeLiteralCommand {key embedded : String} (h : OneLine embedded) :
    OneLine (storeLiteralCommand scope key embedded) ↔ OneLine key :=
  (lacks_storeLiteralCommand scope foreign_isBreak).trans (and_iff_left h)

theorem oneLine_dischargeCommand {keys : List String} :
    OneLine (dischargeCommand scope keys) ↔ ∀ key ∈ keys, OneLine key := by
  have hargs : OneLine "(args||[]).join(' ')" := by decide
  rw [dischargeCommand, oneLine_scriptCommand, oneLine_append, and_iff_left hargs]
  exact lacks_deletions foreign_isBreak

end

/-! ## Texts that commands show -/

/-- The string literals of a simple action that its commands show. -/
def simpleTexts : Simple → List String
  | .commands l => l.commands
  | .say literal _ => literal.toList
  | .script _ | .call _ => []

def stepTexts (scope : Scope) : Step → List String
  | .store s => [scope.resolveKey s.key s.isLocal]
  | .action a => simpleTexts a

def chainTexts (scope : Scope) (chain : List Link) : List String := chain.flatMap (stepTexts scope ·.step)

def retrieveTexts (scope : Scope) : Retrieve → List String
  | .key key isLocal _ => [scope.resolveKey key isLocal]
  | .argument _ _ => []

/-- The string literals and resolved keys that the commands of an action show. Of a block these are only the ones after
its body. -/
def actionTexts (scope : Scope) : Action → List String
  | .execute e => e.retrieve.toList.flatMap (retrieveTexts scope) ++ (simpleTexts e.action ++ chainTexts scope e.chain)
  | .compiled _ _ chain _ => chainTexts scope chain

/-- What the command of an alias shows: the texts of its actions, and the temporary keys of the whole tree. -/
def shownTexts (settings : Settings) (a : Alias) : List String :=
  a.body.actions.flatMap (actionTexts (.ofAlias a settings)) ++
    resolvedKeys (.ofAlias a settings) (tempStores a.body.actions)

/-- The commands hold a line break if and only if one of the texts does. -/
def BreaksAs (texts : List String) (f : Fragment) : Prop :=
  (∀ c ∈ f.commands, OneLine c) ↔ ∀ s ∈ texts, OneLine s

theorem breaksAs_nil {f : Fragment} (h : ∀ c ∈ f.commands, OneLine c) : BreaksAs [] f :=
  iff_of_true h (by simp)

theorem breaksAs_single {f : Fragment} {command text : String} (hf : f.commands = [command])
    (h : OneLine command ↔ OneLine text) : BreaksAs [text] f :=
  throughout_single hf (h.trans List.forall_mem_singleton.symm)

theorem BreaksAs.append {a b : List String} {f g : Fragment} (hf : BreaksAs a f) (hg : BreaksAs b g) :
    BreaksAs (a ++ b) (f ++ g) :=
  (Throughout.append hf hg).congr List.forall_mem_append.symm

variable (co : Collaborators) (scope : Scope)

theorem compileScript_breaks (a : ScriptAction) : Meets (compileScript co scope a) (BreaksAs []) := by
  unfold compileScript
  refine .bind (importedText_meets co a) fun imported _ => ?_
  refine .bind (transform_meets co _ _) fun answer _ => ?_
  split
  · exact .throw rfl
  · split
    · exact .throw rfl
    · refine .pure (breaksAs_nil ?_)
      rw [List.forall_mem_singleton, oneLine_scriptCommand]
      exact oneLine_parameter _

/-- Names are words, so only literals can break the line. -/
theorem compileSimple_breaks {a : Simple} (hnames : ∀ name ∈ a.names, OneLine name) :
    Meets (compileSimple co scope a) (BreaksAs (simpleTexts a)) := by
  unfold compileSimple
  split
  · exact compileScript_breaks co scope _
  · exact .pure Iff.rfl
  · rename_i text span
    have hsay : OneLine "abb say " := by decide
    refine .pure (breaksAs_single rfl ?_)
    rw [oneLine_append, and_iff_right hsay]
  · exact .pure (breaksAs_nil (by simp [Fragment.empty]))
  · rename_i c
    rw [Simple.names, List.forall_mem_append, List.forall_mem_singleton] at hnames
    have htry : OneLine "alias try @" := by decide
    have hcall : OneLine "$ " := by decide
    split
    · rename_i user huser
      rw [huser, Option.toList_some, List.forall_mem_singleton] at hnames
      refine .pure (breaksAs_nil ?_)
      show ∀ text ∈ ["alias try @" ++ user ++ " " ++ c.target], OneLine text
      rw [List.forall_mem_singleton, oneLine_append, oneLine_append, oneLine_append]
      exact ⟨⟨⟨htry, hnames.1⟩, by decide⟩, hnames.2⟩
    · refine .pure (breaksAs_nil ?_)
      show ∀ text ∈ ["$ " ++ c.target], OneLine text
      rw [List.forall_mem_singleton, oneLine_append]
      exact ⟨hcall, hnames.2⟩

theorem compileRetrieve_breaks {r : Retrieve} (hnames : ∀ name ∈ r.names, OneLine name) :
    Meets (compileRetrieve scope r) (BreaksAs (retrieveTexts scope r)) := by
  cases r with
  | key key isLocal span => exact .pure (breaksAs_single rfl (oneLine_retrieveCommand scope))
  | argument literal span =>
    rw [Retrieve.names, List.forall_mem_singleton] at hnames
    refine .ite (fun _ => .throw rfl) fun _ => .pure (breaksAs_nil ?_)
    show ∀ c ∈ ["abb say " ++ literal.raw], OneLine c
    rw [List.forall_mem_singleton, oneLine_append]
    exact ⟨by decide, hnames⟩

theorem compileStep_breaks {s : Step} (hnames : ∀ name ∈ s.names, OneLine name) :
    Meets (compileStep co scope s) (BreaksAs (stepTexts scope s)) := by
  cases s with
  | store s =>
    exact compileStore_throughout co scope ((oneLine_storeCommand scope).trans List.forall_mem_singleton.symm)
  | action a => exact compileSimple_breaks co scope hnames

theorem compileLinks_breaks {links : List Link} (hnames : ∀ name ∈ chainNames links, OneLine name) :
    ∀ l ∈ links, Meets (compileStep co scope l.step) (BreaksAs (stepTexts scope l.step)) := by
  intro l hl
  refine compileStep_breaks co scope fun name hname => hnames name ?_
  exact List.mem_flatMap.mpr ⟨l, hl, hname⟩

theorem compileChain_breaks {links : List Link} (hnames : ∀ name ∈ chainNames links, OneLine name) :
    Meets (compileChain co scope links) (BreaksAs (chainTexts scope links)) :=
  (compileChain_throughout co scope (compileLinks_breaks co scope hnames)).imp fun _ hf =>
    Throughout.congr hf List.forall_mem_flatMap.symm

theorem compileExecute_breaks {e : Execute} (hnames : ∀ name ∈ (Action.execute e).names, OneLine name) :
    Meets (compileExecute co scope e) (BreaksAs (actionTexts scope (.execute e))) := by
  rw [Action.names, List.forall_mem_append, List.forall_mem_append] at hnames
  obtain ⟨hretrieve, haction, hchain⟩ := hnames
  have hparts := compileExecute_throughout co scope (e := e) (fun r hr => compileRetrieve_breaks scope fun name hname =>
    hretrieve name (List.mem_flatMap.mpr ⟨r, by simp [hr], hname⟩)) (compileSimple_breaks co scope haction)
    (compileLinks_breaks co scope hchain)
  refine hparts.imp fun f hf => Throughout.congr hf ?_
  simp only [actionTexts, chainTexts, List.forall_mem_append, List.forall_mem_flatMap, Option.mem_toList]

/-- The command of a block shows the key of a store right after it; the other links are still to come. -/
theorem embedPipeline_breaks (inner : Fragment) {embedded : String} (h : OneLine embedded) (chain : List Link) :
    ∃ passed, passed ++ chainTexts scope (embedPipeline scope inner embedded chain).2 = chainTexts scope chain ∧
      BreaksAs passed (embedPipeline scope inner embedded chain).1 := by
  unfold embedPipeline
  split
  · rename_i s span rest
    refine ⟨[scope.resolveKey s.key s.isLocal], rfl, breaksAs_single ?_ (oneLine_storeLiteralCommand scope h)⟩
    show (register scope s _).commands ++ _ = _
    rw [commands_register]
    rfl
  · refine ⟨[], rfl, breaksAs_nil ?_⟩
    rw [List.forall_mem_singleton]
    exact oneLine_literalCommand scope h

theorem compileRoot_ends (body : Body) : Meets (compileRoot co scope body) fun _ => True := by
  unfold compileRoot
  refine .ite (fun _ => .throw rfl) fun _ => .bind (compileActions_meets co scope body.actions) fun fragments _ => ?_
  exact .ite (fun _ => .throw rfl) fun _ => .pure trivial

/-- The body of a block does not matter: its pipeline stands on one line in the literal. -/
theorem compileAction_breaks {a : Action} (hnames : ∀ name ∈ a.names, OneLine name) :
    Meets (compileAction co scope a) (BreaksAs (actionTexts scope a)) := by
  cases a with
  | execute e =>
    rw [compileAction]
    exact compileExecute_breaks co scope hnames
  | compiled actions bodySpan chain span =>
    rw [Action.names, List.forall_mem_append] at hnames
    rw [compileAction_compiled, actionTexts]
    refine .bind (compileRoot_ends co scope.nested _) fun inner _ => ?_
    refine .bind (assembled_meets co scope.nested inner.commands) fun pipeline _ => ?_
    obtain ⟨passed, hpassed, hfragment⟩ := embedPipeline_breaks scope inner (oneLine_embedded pipeline) chain
    have hlinks : ∀ name ∈ chainNames (embedPipeline scope inner (Quoting.embedded pipeline) chain).2,
        OneLine name := by
      intro name hname
      obtain ⟨l, hl, hname⟩ := List.mem_flatMap.mp hname
      exact hnames.2 name (List.mem_flatMap.mpr ⟨l, mem_embedPipeline_links hl, hname⟩)
    refine .bind (compileChain_breaks co scope hlinks) fun rest hrest => .pure ?_
    rw [← hpassed]
    exact hfragment.append hrest

theorem compileActions_breaks : ∀ {actions : List Action}, (∀ name ∈ actionsNames actions, OneLine name) →
    Meets (compileActions co scope actions) fun fragments =>
      (∀ f ∈ fragments, ∀ c ∈ f.commands, OneLine c) ↔ ∀ s ∈ actions.flatMap (actionTexts scope), OneLine s
  | [], _ => by
    rw [compileActions]
    exact .pure (by simp)
  | a :: rest, hnames => by
    rw [actionsNames, List.forall_mem_append] at hnames
    rw [compileActions]
    refine .bind (compileAction_breaks co scope hnames.1) fun f hf => ?_
    refine .bind (compileActions_breaks hnames.2) fun fragments hfragments => .pure ?_
    rw [List.forall_mem_cons, List.flatMap_cons, List.forall_mem_append]
    exact and_congr hf hfragments

/-! ## Texts of bodies -/

/-- Barriers have no line breaks. -/
theorem oneLine_joinAll {fragments : List Fragment} :
    (∀ c ∈ (Fragment.joinAll fragments).commands, OneLine c) ↔ ∀ f ∈ fragments, ∀ c ∈ f.commands, OneLine c := by
  have hbarrier : ∀ c ∈ Fragment.barrier, OneLine c := by
    rw [Fragment.barrier, List.forall_mem_cons, List.forall_mem_singleton]
    exact ⟨by decide, by decide⟩
  exact forall_joinAll hbarrier

theorem pipelined?_false (commands : List String) :
    pipelined? false commands = if commands.length = 1 then none else some commands :=
  match commands with
  | [] | [_] => rfl
  | c :: d :: rest => by simp [pipelined?]

variable {co}

namespace BodyRun

theorem commands_oneLine (r : BodyRun co) (hroot : r.scope.keepTempKeys = false)
    (hnames : ∀ name ∈ actionsNames r.body.actions, OneLine name) :
    (∀ c ∈ r.fragment.commands, OneLine c) ↔
      ∀ s ∈ r.body.actions.flatMap (actionTexts r.scope) ++ resolvedKeys r.scope (tempStores r.body.actions),
        OneLine s := by
  obtain ⟨fragments, hfragments, hfragment⟩ := r.fragments_ok
  have hkeys : Holds r.scope (tempStores r.body.actions) (Fragment.joinAll fragments) :=
    (compileActions_meets co _ _).ok hfragments (holds_nil rfl : Holds _ [] .empty)
  have hdeleted : (∀ c ∈ if tempStores r.body.actions = [] then []
      else [dischargeCommand r.scope (resolvedKeys r.scope (tempStores r.body.actions)).eraseDups], OneLine c) ↔
      ∀ s ∈ resolvedKeys r.scope (tempStores r.body.actions), OneLine s := by
    split
    · rename_i hnone
      simp [hnone, resolvedKeys]
    · simp only [List.forall_mem_singleton, oneLine_dischargeCommand, List.mem_eraseDups]
  rw [hfragment, discharge_commands hroot hkeys, List.forall_mem_append, List.forall_mem_append, oneLine_joinAll,
    (compileActions_breaks co r.scope hnames).ok hfragments, hdeleted]

/-- Markers have no line breaks, so the text of a body has one only where a command has. -/
theorem Gives.oneLine_iff {r : BodyRun co} (hdraw : ∀ n, OneLine (co.draw n)) (hforce : r.scope.forcePipe = false)
    {text : String} (h : r.Gives text) : OneLine text ↔ ∀ c ∈ r.fragment.commands, OneLine c := by
  obtain ⟨t, h⟩ := h
  unfold assembled at h
  rw [hforce, pipelined?_false] at h
  by_cases hone : r.fragment.commands.length = 1
  · obtain ⟨command, hcommand⟩ := List.length_eq_one_iff.mp hone
    rw [if_pos hone, hcommand] at h
    cases h
    rw [hcommand, List.forall_mem_singleton]
    rfl
  · rw [if_neg hone] at h
    dsimp only at h
    split at h
    · rename_i hmode
      obtain ⟨drawn, t₁, hdrawn, h⟩ := runFrom_bind_ok h
      cases h
      cases hdrawn
      rw [oneLine_pipeline]
      rw [hmode]
      exact hdraw _
    · rename_i hmode
      cases h
      rw [oneLine_pipeline]
      cases hd : r.scope.delimiter with
      | fixed => exact isBreak_text .bare
      | numbered => exact isBreak_text _
      | randomized => exact absurd hd hmode

end BodyRun

theorem compileAlias_oneLine {settings : Settings} {a : Alias} (hdraw : ∀ n, OneLine (co.draw n))
    (hnames : ∀ name ∈ a.names, OneLine name) {t t' : Trace} {out : CompiledAlias}
    (h : runFrom (compileAlias co settings a) t = (.ok out, t')) :
    OneLine out.command ↔ ∀ s ∈ shownTexts settings a, OneLine s := by
  rw [Alias.names, List.forall_mem_cons] at hnames
  obtain ⟨⟨scope, body, before, fragment, after, hruns⟩, text, ⟨rfl, rfl, rfl⟩, hgives, hcommand⟩ := compileAlias_ok h
  have hverb : OneLine settings.verb.text := by cases settings.verb <;> decide
  have hfront : OneLine ("$alias " ++ settings.verb.text ++ " " ++ a.name ++ " ") := by
    simp only [oneLine_append]
    exact ⟨⟨⟨⟨by decide, hverb⟩, by decide⟩, hnames.1⟩, by decide⟩
  have hsplit : out.command = "$alias " ++ settings.verb.text ++ " " ++ a.name ++ " " ++ text := hcommand
  rw [hsplit, oneLine_append, and_iff_right hfront, hgives.oneLine_iff hdraw rfl]
  exact BodyRun.commands_oneLine _ rfl hnames.2

/-! ## Programs -/

/-- **A command breaks where a literal or a key of its alias does.** In a program that was read, and with markers drawn
on one line, the command of an alias holds a line break if and only if one of its shown texts does: a command, a said
text or a resolved key of its own actions, or a temporary key of the whole tree. What scripts, imports and the bodies of
blocks hold does not matter. -/
theorem command_breaks_iff_shown_text_does {source : String} {p : Program} (hp : parse source = .ok p)
    (hdraw : ∀ n, OneLine (co.draw n)) (settings : Settings) :
    (∀ out t, run (compileEntry co settings p) = (.ok out, t) →
      ∃ a, p.selectEntry = .ok a ∧ (OneLine out.command ↔ ∀ s ∈ shownTexts settings a, OneLine s)) ∧
    ∀ outs t, run (compileAll co settings p) = (.ok outs, t) →
      List.Forall₂ (fun a out => OneLine out.command ↔ ∀ s ∈ shownTexts settings a, OneLine s) p.aliases outs := by
  have hnames : ∀ a ∈ p.aliases, ∀ name ∈ a.names, OneLine name :=
    fun a ha name hname => oneLine_of_isWord (alias_names_of_parse hp ha name hname)
  constructor
  · intro out t h
    obtain ⟨a, ha, hrun⟩ := compileEntry_ok h
    exact ⟨a, ha, compileAlias_oneLine hdraw (hnames a (selectEntry_mem ha)) hrun⟩
  · intro outs t h
    refine ((List.forall₂_and_left _ _).mpr ⟨hnames, compileAll_ok h⟩).imp ?_
    rintro a out ⟨hname, t₁, t₂, hrun⟩
    exact compileAlias_oneLine hdraw hname hrun

theorem oneLine_series (start n : Nat) : OneLine (Marker.series start n) := lacks_drawn foreign_isBreak _

/-- A line break in a block whose pipeline is stored under a temporary key. -/
def breakingSource : String := "alias aa get compiled say \"x\\ny\" end -> set temp \"k\" end"

/-- Its alias. -/
def breakingAlias : Alias :=
  ⟨"aa", none,
    ⟨[.compiled [.execute ⟨none, .say (some "x\ny") ⟨22, 32, 1, 23⟩, [], ⟨22, 32, 1, 23⟩⟩] ⟨22, 32, 1, 23⟩
      [⟨.store ⟨"k", true, false, ⟨40, 52, 1, 41⟩⟩, ⟨40, 52, 1, 41⟩⟩] ⟨9, 52, 1, 10⟩], ⟨9, 52, 1, 10⟩⟩,
    ⟨0, 56, 1, 1⟩⟩

/-- It compiles to one line: the key is all of it that the command shows. -/
theorem break_inside_block_is_dropped :
    ∃ p out t, parse breakingSource = .ok p ∧
      run (compileEntry (standalone (Marker.series 0)) {} p) = (.ok out, t) ∧ OneLine out.command := by
  have hparse : parse breakingSource = .ok ⟨[.define breakingAlias]⟩ := by decide +kernel
  have hdraw : ∀ n, OneLine ((standalone (Marker.series 0)).draw n) := oneLine_series 0
  have hruns : (run (compileEntry (standalone (Marker.series 0)) {} ⟨[.define breakingAlias]⟩)).1.isOk = true := by
    decide +kernel
  rcases hrun : run (compileEntry (standalone (Marker.series 0)) {} ⟨[.define breakingAlias]⟩) with ⟨e | out, t⟩
  · rw [hrun] at hruns
    cases hruns
  · obtain ⟨a, ha, hbreaks⟩ := (command_breaks_iff_shown_text_does hparse hdraw {}).1 out t hrun
    cases ha
    refine ⟨_, out, t, hparse, hrun, hbreaks.mpr ?_⟩
    show ∀ s ∈ ["k", "k"], OneLine s
    rw [List.forall_mem_cons, List.forall_mem_singleton]
    exact ⟨by decide, by decide⟩

/-- A line break in a command that is run stays. -/
theorem break_in_literal_stays :
    compileSource "alias aa exec \"x\\ny\" end" = .ok "$alias addedit aa x\ny" ∧
      ¬ OneLine "$alias addedit aa x\ny" := by
  refine ⟨by decide +kernel, by decide⟩

end AliasLang.Command
