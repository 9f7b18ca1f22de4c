/-
Runs of bodies. The body of an alias and that of a block are compiled in the same way, only under different scopes, and
a run records one such compilation. It encloses the runs of the blocks among its actions: each of them leaves a script
command in it that holds the text of the enclosed pipeline.
-/
import AliasLang.Proofs.Command.Pipeline
import AliasLang.Proofs.Command.TempKeys

namespace AliasLang.Command

open Program

/-! ## Commands of joined fragments -/

namespace Fragment

theorem commands_join (f g : Fragment) :
    (f.join g).commands = f.commands ++ ((if !g.isEmpty && !f.isEmpty then barrier else []) ++ g.commands) := by
  unfold join
  split
  · exact List.append_assoc _ _ _
  · rfl

theorem mem_foldl_join {c : String} (fragments : List Fragment) : ∀ {g : Fragment},
    c ∈ (fragments.foldl join g).commands → c ∈ g.commands ∨ c ∈ barrier ∨ ∃ f ∈ fragments, c ∈ f.commands := by
  induction fragments with
  | nil => exact fun h => .inl h
  | cons f fragments ih =>
    intro g h
    rcases ih h with h | h | ⟨f', hf', h⟩
    · rw [commands_join, List.mem_append, List.mem_append] at h
      rcases h with h | h | h
      · exact .inl h
      · split at h
        · exact .inr (.inl h)
        · cases h
      · exact .inr (.inr ⟨f, List.mem_cons_self, h⟩)
    · exact .inr (.inl h)
    · exact .inr (.inr ⟨f', List.mem_cons_of_mem f hf', h⟩)

theorem mem_foldl_join_left {c : String} (fragments : List Fragment) : ∀ {g : Fragment},
    c ∈ g.commands → c ∈ (fragments.foldl join g).commands := by
  induction fragments with
  | nil => exact id
  | cons f fragments ih =>
    intro g h
    apply ih
    rw [commands_join]
    exact List.mem_append_left _ h

theorem mem_joinAll {c : String} {fragments : List Fragment} {f : Fragment} (hf : f ∈ fragments) (h : c ∈ f.commands) :
    c ∈ (joinAll fragments).commands := by
  obtain ⟨before, after, rfl⟩ := List.append_of_mem hf
  rw [joinAll, List.foldl_append, List.foldl_cons]
  apply mem_foldl_join_left
  rw [commands_join]
  simp [h]

end Fragment

theorem mem_discharge {c : String} (scope : Scope) {f : Fragment} (h : c ∈ f.commands) :
    c ∈ (discharge scope f).commands := by
  unfold discharge
  split
  · exact h
  · exact List.mem_append_left _ h

/-! ## Runs -/

/-- A body that compiles: under which scope, after which trace, to which fragment, and the trace it leaves. -/
structure BodyRun (co : Collaborators) where
  scope : Scope
  body : Body
  before : Trace
  fragment : Fragment
  after : Trace
  runs : runFrom (compileRoot co scope body) before = (.ok fragment, after)

variable {co : Collaborators}

namespace BodyRun

/-- The text that the commands of the body are put together to. -/
def Gives (r : BodyRun co) (text : String) : Prop :=
  ∃ t, runFrom (assembled co r.scope r.fragment.commands) r.after = (.ok text, t)

/-- The text is what the commands assemble to with some drawn marker, which only counts in a mode that draws one. -/
theorem Gives.eq_assemble {r : BodyRun co} {text : String} (h : r.Gives text) :
    ∃ drawn, text = assemble r.scope.delimiter drawn r.scope.forcePipe r.fragment.commands := by
  obtain ⟨t, h⟩ := h
  unfold assembled at h
  unfold assemble
  cases hpiped : pipelined? r.scope.forcePipe r.fragment.commands with
  | none =>
    rw [hpiped] at h
    cases h
    exact ⟨"", rfl⟩
  | some piped =>
    simp only [hpiped] at h
    split at h
    · obtain ⟨drawn, t₁, -, h⟩ := runFrom_bind_ok h
      cases h
      exact ⟨drawn, rfl⟩
    · cases h
      exact ⟨"", rfl⟩

/-- `inner` runs the body of a block among the actions of `outer`, after the trace that the actions before it leave. -/
def Encloses (outer inner : BodyRun co) : Prop :=
  ∃ earlier chain span later fragments,
    outer.body.actions = earlier ++ .compiled inner.body.actions inner.body.span chain span :: later ∧
      inner.scope = outer.scope.nested ∧
        runFrom (compileActions co outer.scope earlier) outer.before = (.ok fragments, inner.before)

theorem commands_ne_nil (r : BodyRun co) : r.fragment.commands ≠ [] := by
  have hmeets : Meets (compileRoot co r.scope r.body) fun f => f.commands ≠ [] := by
    unfold compileRoot
    refine .ite (fun _ => .throw rfl) fun _ => .bind (compileActions_meets co _ _) fun fragments _ => ?_
    unfold compileBody
    refine .ite (fun _ => .throw rfl) fun hjoined => .pure ?_
    obtain ⟨c, hc⟩ : ∃ c, c ∈ (Fragment.joinAll fragments).commands := by
      apply List.exists_mem_of_ne_nil
      simpa [Fragment.isEmpty] using hjoined
    exact List.ne_nil_of_mem (mem_discharge r.scope hc)
  exact hmeets.ok r.runs

end BodyRun

/-! ## Blocks -/

/-- The script command of a block: it stores its literal if a store comes right after the body. -/
def blockCommand (scope : Scope) (literal : String) : List Link → String
  | ⟨.store s, _⟩ :: _ => storeLiteralCommand scope (scope.resolveKey s.key s.isLocal) literal
  | _ => literalCommand scope literal

/-- The script in that command, with the literal between single quotes. -/
def blockScript (scope : Scope) (literal : String) : List Link → String
  | ⟨.store s, _⟩ :: _ =>
    " customData.set(\\\"" ++ writtenKey (scope.resolveKey s.key s.isLocal) ++ "\\\",'" ++ literal ++ "') "
  | _ => " '" ++ literal ++ "' "

theorem blockCommand_eq (scope : Scope) (literal : String) (chain : List Link) :
    blockCommand scope literal chain = "js " ++ (if scope.errorInfo then "errorInfo:true " else "") ++ "function:\"" ++
      blockScript scope literal chain ++ "\"" := by
  show _ = scriptCommand scope (blockScript scope literal chain)
  unfold blockCommand blockScript
  split
  · refine congrArg (scriptCommand scope) (String.toList_inj.mp ?_)
    rw [keyLiteral_eq]
    simp
  · rfl

theorem embedPipeline_commands (scope : Scope) (inner : Fragment) (embedded : String) (chain : List Link) :
    (embedPipeline scope inner embedded chain).1.commands = [blockCommand scope embedded chain] := by
  unfold embedPipeline
  split
  · rename_i s span rest
    simp only [register, Fragment.push, blockCommand]
    split <;> rfl
  · rename_i h
    rw [blockCommand]
    exact h

/-- A block compiles its body as an alias does its own, and then the links after it. -/
theorem compileAction_compiled (scope : Scope) (actions : List Action) (bodySpan : Source.Span) (chain : List Link)
    (span : Source.Span) :
    compileAction co scope (.compiled actions bodySpan chain span) = (do
      let inner ← compileRoot co scope.nested ⟨actions, bodySpan⟩
      let pipeline ← assembled co scope.nested inner.commands
      let (fragment, links) := embedPipeline scope inner (Quoting.embedded pipeline) chain
      return fragment ++ (← compileChain co scope links)) := by
  rw [compileAction, compileRoot]
  split
  · rfl
  · simp only [bind_assoc]

theorem mem_embedPipeline_links {scope : Scope} {inner : Fragment} {embedded : String} {chain : List Link} {l : Link}
    (h : l ∈ (embedPipeline scope inner embedded chain).2) : l ∈ chain := by
  unfold embedPipeline at h
  split at h
  · exact List.mem_cons_of_mem _ h
  · exact h

/-- The parts of a block that compiles after the trace `t`: `inner` runs its body, and the first command of its fragment
runs a script that holds `literal`. The other commands are those of links of its chain. -/
structure IsBlock (scope : Scope) (body : Body) (chain : List Link) (t : Trace) (f : Fragment) (inner : BodyRun co)
    (literal : String) : Prop where
  scope_eq : inner.scope = scope.nested
  body_eq : inner.body = body
  before_eq : inner.before = t
  commands_eq : ∃ rest links t₁ t₂,
    f.commands = ("js " ++ (if scope.errorInfo then "errorInfo:true " else "") ++ "function:\"" ++
      blockScript scope literal chain ++ "\"") :: rest.commands ∧
    (∀ l ∈ links, l ∈ chain) ∧ runFrom (compileChain co scope links) t₁ = (.ok rest, t₂)

theorem compileAction_compiled_ok {scope : Scope} {actions : List Action} {bodySpan : Source.Span} {chain : List Link}
    {span : Source.Span} {t t' : Trace} {f : Fragment}
    (h : runFrom (compileAction co scope (.compiled actions bodySpan chain span)) t = (.ok f, t')) :
    ∃ (inner : BodyRun co) (pipeline : String), inner.Gives pipeline ∧
      IsBlock scope ⟨actions, bodySpan⟩ chain t f inner (Quoting.embedded pipeline) := by
  rw [compileAction_compiled] at h
  obtain ⟨inner, t₁, hinner, h⟩ := runFrom_bind_ok h
  obtain ⟨pipeline, t₂, hpipeline, h⟩ := runFrom_bind_ok h
  have hcommands := embedPipeline_commands scope inner (Quoting.embedded pipeline) chain
  have hlinks : ∀ l ∈ (embedPipeline scope inner (Quoting.embedded pipeline) chain).2, l ∈ chain :=
    fun l hl => mem_embedPipeline_links hl
  rcases hembed : embedPipeline scope inner (Quoting.embedded pipeline) chain with ⟨fragment, links⟩
  rw [hembed] at h hcommands hlinks
  obtain ⟨rest, t₃, hrest, h⟩ := runFrom_bind_ok h
  refine ⟨⟨scope.nested, ⟨actions, bodySpan⟩, t, inner, t₁, hinner⟩, pipeline, ⟨t₂, hpipeline⟩, rfl, rfl, rfl,
    rest, links, t₂, t₃, ?_, hlinks, hrest⟩
  cases h
  show fragment.commands ++ rest.commands = _
  rw [hcommands, ← blockCommand_eq]
  rfl

/-- The actions of a body run one after the other. -/
theorem compileActions_cons_ok {scope : Scope} {a : Action} {rest : List Action} {t t' : Trace}
    {fragments : List Fragment} :
    runFrom (compileActions co scope (a :: rest)) t = (.ok fragments, t') ↔
      ∃ f more t₁, runFrom (compileAction co scope a) t = (.ok f, t₁) ∧
        runFrom (compileActions co scope rest) t₁ = (.ok more, t') ∧ fragments = f :: more := by
  rw [compileActions]
  constructor
  · intro h
    obtain ⟨f, t₁, hf, h⟩ := runFrom_bind_ok h
    obtain ⟨more, t₂, hmore, h⟩ := runFrom_bind_ok h
    cases h
    exact ⟨f, more, t₁, hf, hmore, rfl⟩
  · rintro ⟨f, more, t₁, hf, hmore, rfl⟩
    rw [runFrom_bind, hf]
    simp only [runFrom_bind, hmore, runFrom_pure]

theorem compileActions_append_ok {scope : Scope} {b : List Action} {t' : Trace} : ∀ {a : List Action} {t : Trace}
    {fragments : List Fragment}, runFrom (compileActions co scope (a ++ b)) t = (.ok fragments, t') →
    ∃ fa fb t₁, runFrom (compileActions co scope a) t = (.ok fa, t₁) ∧
      runFrom (compileActions co scope b) t₁ = (.ok fb, t') ∧ fragments = fa ++ fb
  | [], t, fragments, h => by
    rw [compileActions]
    exact ⟨[], fragments, t, rfl, h, rfl⟩
  | action :: a, t, fragments, h => by
    obtain ⟨f, more, t₁, hf, hmore, rfl⟩ := compileActions_cons_ok.mp h
    obtain ⟨fa, fb, t₂, ha, hb, rfl⟩ := compileActions_append_ok hmore
    exact ⟨f :: fa, fb, t₂, compileActions_cons_ok.mpr ⟨f, fa, t₁, hf, ha, rfl⟩, hb, rfl⟩

/-- A fragment of a body is that of one of its actions, after the ones before it. -/
theorem compileActions_mem_ok {scope : Scope} {f : Fragment} {t' : Trace} : ∀ {actions : List Action} {t : Trace}
    {fragments : List Fragment}, runFrom (compileActions co scope actions) t = (.ok fragments, t') → f ∈ fragments →
    ∃ earlier a later fa t₁ t₂, actions = earlier ++ a :: later ∧
      runFrom (compileActions co scope earlier) t = (.ok fa, t₁) ∧ runFrom (compileAction co scope a) t₁ = (.ok f, t₂)
  | [], t, fragments, h, hf => by
    rw [compileActions] at h
    cases h
    cases hf
  | a :: rest, t, fragments, h, hf => by
    obtain ⟨first, more, t₁, hfirst, hmore, rfl⟩ := compileActions_cons_ok.mp h
    rcases List.mem_cons.mp hf with rfl | hf
    · exact ⟨[], a, rest, [], t, t₁, rfl, by rw [compileActions]; rfl, hfirst⟩
    · obtain ⟨earlier, b, later, fa, t₂, t₃, rfl, hearlier, hb⟩ := compileActions_mem_ok hmore hf
      exact ⟨a :: earlier, b, later, first :: fa, t₂, t₃, rfl,
        compileActions_cons_ok.mpr ⟨first, fa, t₁, hfirst, hearlier, rfl⟩, hb⟩

namespace BodyRun

/-- What a run gives is determined by where it starts. -/
theorem eq_of_start {r s : BodyRun co} (hscope : r.scope = s.scope) (hbody : r.body = s.body)
    (hbefore : r.before = s.before) : r = s := by
  obtain ⟨scope, body, before, fragment, after, hr⟩ := r
  obtain ⟨_, _, _, fragment', after', hs⟩ := s
  obtain ⟨rfl, rfl, rfl⟩ : scope = _ ∧ body = _ ∧ before = _ := ⟨hscope, hbody, hbefore⟩
  have hsame := hr.symm.trans hs
  cases hsame
  rfl

/-- The fragment of a run is what its body compiles to. -/
theorem fragment_eq {r : BodyRun co} {scope : Scope} {body : Body} {t : Trace} {f : Fragment} (hscope : r.scope = scope)
    (hbody : r.body = body) (hbefore : r.before = t) (h : (runFrom (compileRoot co scope body) t).1 = .ok f) :
    r.fragment = f := by
  rw [← hscope, ← hbody, ← hbefore, r.runs] at h
  exact Except.ok.inj h

theorem Gives.unique {r : BodyRun co} {a b : String} (ha : r.Gives a) (hb : r.Gives b) : a = b := by
  obtain ⟨ta, ha⟩ := ha
  obtain ⟨tb, hb⟩ := hb
  have hsame := ha.symm.trans hb
  cases hsame
  rfl

theorem fragments_ok (r : BodyRun co) :
    ∃ fragments, runFrom (compileActions co r.scope r.body.actions) r.before = (.ok fragments, r.after) ∧
      r.fragment = discharge r.scope (Fragment.joinAll fragments) :=
  compileRoot_ok co r.scope r.runs

/-- Every block among the actions of a run has a run that is enclosed in it. -/
theorem exists_encloses (outer : BodyRun co) {earlier later : List Action} {actions : List Action}
    {bodySpan span : Source.Span} {chain : List Link}
    (h : outer.body.actions = earlier ++ .compiled actions bodySpan chain span :: later) :
    ∃ inner, Encloses outer inner ∧ inner.body = ⟨actions, bodySpan⟩ := by
  obtain ⟨fragments, hfragments, -⟩ := outer.fragments_ok
  rw [h] at hfragments
  obtain ⟨fa, fb, t₁, ha, hb, -⟩ := compileActions_append_ok hfragments
  obtain ⟨f, more, t₂, hf, -, -⟩ := compileActions_cons_ok.mp hb
  obtain ⟨inner, pipeline, -, hblock⟩ := compileAction_compiled_ok hf
  refine ⟨inner, ⟨earlier, chain, span, later, fa, ?_, hblock.scope_eq, ?_⟩, hblock.body_eq⟩
  · rw [h, hblock.body_eq]
  · rw [hblock.before_eq]
    exact ha

theorem Encloses.scope_eq {outer inner : BodyRun co} (h : Encloses outer inner) : inner.scope = outer.scope.nested := by
  obtain ⟨_, _, _, _, _, -, hscope, -⟩ := h
  exact hscope

/-- The run of a block leaves a command in the run around it: the literal with the text of its pipeline. -/
theorem Encloses.command {outer inner : BodyRun co} (h : Encloses outer inner) :
    ∃ pipeline chain, inner.Gives pipeline ∧
      blockCommand outer.scope (Quoting.embedded pipeline) chain ∈ outer.fragment.commands := by
  obtain ⟨earlier, chain, span, later, fragments, hactions, hscope, hbefore⟩ := h
  obtain ⟨all, hall, hfragment⟩ := outer.fragments_ok
  rw [hactions] at hall
  obtain ⟨fa, fb, t₁, ha, hb, rfl⟩ := compileActions_append_ok hall
  obtain rfl : t₁ = inner.before := by
    rw [hbefore] at ha
    cases ha
    rfl
  obtain ⟨f, more, t₂, hf, -, rfl⟩ := compileActions_cons_ok.mp hb
  -- The run found here and `inner` start at the same place, so they are one.
  obtain ⟨run, pipeline, hgives, hblock⟩ := compileAction_compiled_ok hf
  obtain rfl : run = inner := eq_of_start (hblock.scope_eq.trans hscope.symm) hblock.body_eq hblock.before_eq
  obtain ⟨rest, links, t₃, t₄, hcommands, -⟩ := hblock.commands_eq
  refine ⟨pipeline, chain, hgives, ?_⟩
  rw [hfragment]
  apply mem_discharge
  apply Fragment.mem_joinAll (List.mem_append_right fa List.mem_cons_self)
  rw [hcommands, ← blockCommand_eq]
  exact List.mem_cons_self

/-- The run of the body of an alias. -/
structure IsRoot (root : BodyRun co) (settings : Settings) (a : Alias) (t : Trace) : Prop where
  scope_eq : root.scope = .ofAlias a settings
  body_eq : root.body = a.body
  before_eq : root.before = t

end BodyRun

/-- An alias compiles to the text of its body. -/
theorem compileAlias_ok {settings : Settings} {a : Alias} {t t' : Trace} {out : CompiledAlias}
    (h : runFrom (compileAlias co settings a) t = (.ok out, t')) :
    ∃ (root : BodyRun co) (text : String), root.IsRoot settings a t ∧ root.Gives text ∧
      out.command = s!"$alias {settings.verb.text} {a.name} {text}" := by
  unfold compileAlias at h
  obtain ⟨f, t₁, hf, h⟩ := runFrom_bind_ok h
  unfold finishAlias at h
  split at h
  · cases h
  · obtain ⟨text, t₂, htext, h⟩ := runFrom_bind_ok h
    cases h
    exact ⟨⟨.ofAlias a settings, a.body, t, f, t₁, hf⟩, text, ⟨rfl, rfl, rfl⟩, ⟨_, htext⟩, rfl⟩

end AliasLang.Command
