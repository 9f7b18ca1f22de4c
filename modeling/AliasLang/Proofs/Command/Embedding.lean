/-
Embedded pipelines. The literal that a block leaves in its script command stands for the text of the nested pipeline
without its line breaks. The marker of that pipeline was chosen before the line breaks went: removing one can bring the
two halves of the marker together, and the text then splits into more commands than the pipeline had.
-/
import AliasLang.Proofs.Command.Body
import AliasLang.Proofs.Command.Quoting

namespace AliasLang.Command

open Program Quoting Text

variable {co : Collaborators}

/-! ## Texts of nested bodies -/

namespace BodyRun

/-- A nested body becomes a pipeline, even one with a single command. -/
theorem pipelined?_forced (r : BodyRun co) (hforce : r.scope.forcePipe = true) :
    pipelined? r.scope.forcePipe r.fragment.commands = some (pipedCommands r.fragment.commands) := by
  apply pipelined?_eq_some
  have hpos : 0 < r.fragment.commands.length := List.length_pos_of_ne_nil r.commands_ne_nil
  by_cases hone : r.fragment.commands.length = 1
  · exact .inr ⟨hone, hforce⟩
  · exact .inl (by omega)

theorem Gives.eq_pipeline {r : BodyRun co} {text : String} (h : r.Gives text) {commands : List String}
    (hpiped : pipelined? r.scope.forcePipe r.fragment.commands = some commands) :
    ∃ drawn, text = pipeline (markerText r.scope.delimiter drawn commands) commands := by
  obtain ⟨drawn, rfl⟩ := h.eq_assemble
  refine ⟨drawn, ?_⟩
  simp only [assemble, hpiped]

theorem Gives.eq_numbered {r : BodyRun co} {text : String} (h : r.Gives text)
    (hmode : r.scope.delimiter = .numbered) {commands : List String}
    (hpiped : pipelined? r.scope.forcePipe r.fragment.commands = some commands) :
    text = pipeline (Marker.choose commands).text commands := by
  obtain ⟨drawn, rfl⟩ := h.eq_pipeline hpiped
  rw [hmode]
  rfl

end BodyRun

theorem pipeline_eq_pipe (marker : String) (commands : List String) :
    ∃ rest, pipeline marker commands = "pipe " ++ rest := by
  refine ⟨"_char:" ++ marker ++ " " ++ (" " ++ marker ++ " ").intercalate commands, ?_⟩
  apply String.toList_inj.mp
  simp [pipeline]

theorem BodyRun.Gives.eq_pipe {r : BodyRun co} (hforce : r.scope.forcePipe = true) {text : String}
    (h : r.Gives text) : ∃ rest, text = "pipe " ++ rest := by
  obtain ⟨drawn, rfl⟩ := h.eq_pipeline (r.pipelined?_forced hforce)
  exact pipeline_eq_pipe _ _

/-- **An embedded pipeline reads back.** Where a block compiles, under any scope, its first command runs a script with a
literal between single quotes. It stands for the text of the nested pipeline without its leading word and without line
breaks. No option is seen in it, and every double quote in it is escaped. -/
theorem embedded_pipeline_reads_back {scope : Scope} {actions : List Action} {bodySpan : Source.Span}
    {chain : List Link} {span : Source.Span} {t t' : Trace} {f : Fragment}
    (h : runFrom (compileAction co scope (.compiled actions bodySpan chain span)) t = (.ok f, t')) :
    ∃ (inner : BodyRun co) (text literal : String), IsBlock scope ⟨actions, bodySpan⟩ chain t f inner literal ∧
      inner.Gives ("pipe " ++ text) ∧ readLiterals? ("'" ++ literal ++ "'") = some (withoutBreaks text) ∧
        NoOptions literal.toList ∧ QuotesEscaped literal.toList := by
  obtain ⟨inner, pipeline, hgives, hblock⟩ := compileAction_compiled_ok h
  obtain ⟨text, rfl⟩ := hgives.eq_pipe (by rw [hblock.scope_eq]; rfl)
  exact ⟨inner, text, _, hblock, hgives, readLiterals?_embedded text, noOptions_embedded text,
    (wellQuoted_embedded _).1⟩

/-- The scope of an alias with default settings. -/
def plainScope : Scope := .ofAlias ⟨"outer", none, ⟨[], .origin⟩, .origin⟩ {}

/-- An action that runs one command. -/
def running (command : String) : Action :=
  .execute ⟨none, .commands ⟨.exec, [command], .origin⟩, [], .origin⟩

/-- A block with quotes, backslashes, colons and line breaks in its command. -/
def quotingBlock : Action := .compiled [running "it's \"a\":b\\\r\n\\:c"] .origin [] .origin

/-- The literal in the command of a block is the only text that can stand there. -/
theorem IsBlock.literal_eq {scope : Scope} {body : Body} {chain : List Link} {t : Trace} {f : Fragment}
    {inner : BodyRun co} {literal other before after : String} (h : IsBlock scope body chain t f inner literal)
    (hscript : ∀ text, "js " ++ (if scope.errorInfo then "errorInfo:true " else "") ++ "function:\"" ++
      blockScript scope text chain ++ "\"" = before ++ text ++ after)
    (hcommands : f.commands.head? = some (before ++ other ++ after)) : literal = other := by
  obtain ⟨rest, links, t₁, t₂, hfirst, -⟩ := h.commands_eq
  rw [hfirst, hscript, List.head?_cons, Option.some.injEq, String.append_left_inj, String.append_right_inj] at hcommands
  exact hcommands

/-- The block in another one, whose literal is stored. -/
theorem quotes_in_nested_block_read_back :
    let literal := "_char'+':|0| null |0| js errorInfo'+':true function'+':\\\" " ++
      "\\'_char\\'+\\':| null | it\\\\\\'s \\\\\\\"a\\\\\\\":b\\\\\\\\\\\\\\\\:c\\' \\\""
    let read := "_char:|0| null |0| js errorInfo:true function:\" '_char'+':| null | it\\'s \\\"a\\\":b\\\\\\\\:c' \""
    ∃ f t', runFrom (compileAction (standalone fun _ => "") plainScope
        (.compiled [quotingBlock] .origin (storing "k" true) .origin)) {} = (.ok f, t') ∧
      f.commands = ["js errorInfo:true function:\" customData.set(\\\"k\\\",'" ++ literal ++ "') \""] ∧
      ∃ (inner : BodyRun (standalone fun _ => "")) (text : String),
        IsBlock plainScope ⟨[quotingBlock], .origin⟩ (storing "k" true) {} f inner literal ∧
          inner.Gives ("pipe " ++ text) ∧ withoutBreaks text = read ∧ readLiterals? ("'" ++ literal ++ "'") = some read ∧
            NoOptions literal.toList ∧ QuotesEscaped literal.toList := by
  intro literal read
  have hruns : (runFrom (compileAction (standalone fun _ => "") plainScope
      (.compiled [quotingBlock] .origin (storing "k" true) .origin)) {}).1.toOption.map Fragment.commands =
        some ["js errorInfo:true function:\" customData.set(\\\"k\\\",'" ++ literal ++ "') \""] := by decide +kernel
  have hread : readLiterals? ("'" ++ literal ++ "'") = some read := by decide +kernel
  have hkey : writtenKey (plainScope.resolveKey "k" true) = "k" := by decide
  have hscript : ∀ text, "js " ++ (if plainScope.errorInfo then "errorInfo:true " else "") ++ "function:\"" ++
      blockScript plainScope text (storing "k" true) ++ "\"" =
        "js errorInfo:true function:\" customData.set(\\\"k\\\",'" ++ text ++ "') \"" := by
    intro text
    apply String.toList_inj.mp
    unfold blockScript storing
    dsimp only
    rw [hkey]
    simp [plainScope, Scope.ofAlias]
  obtain ⟨f, t', h, hcommands⟩ := exists_ok_of_map hruns
  obtain ⟨inner, text, found, hblock, hgives, hfound, hoptions, hquotes⟩ := embedded_pipeline_reads_back h
  obtain rfl : found = literal := hblock.literal_eq hscript (by rw [hcommands]; rfl)
  have htext : withoutBreaks text = read := Option.some.inj (hfound.symm.trans hread)
  exact ⟨f, t', h, hcommands, inner, text, hblock, hgives, htext, hread, hoptions, hquotes⟩

/-! ## Splitting embedded pipelines -/

theorem withoutBreaks_append (a b : String) : withoutBreaks (a ++ b) = withoutBreaks a ++ withoutBreaks b := by
  simp [withoutBreaks]

theorem filter_intercalate (p : Char → Bool) (sep : List Char) (parts : List (List Char)) :
    (sep.intercalate parts).filter p = (sep.filter p).intercalate (parts.map (List.filter p)) := by
  induction parts with
  | nil => simp
  | cons part parts ih =>
    cases parts with
    | nil => simp
    | cons next parts => simp_all [List.intercalate_cons_cons]

/-- Line breaks go from each command of a pipeline by itself, if the marker holds none. -/
theorem withoutBreaks_pipeline {marker : String} (hmarker : ∀ c ∈ marker.toList, isBreak c = false)
    (commands : List String) :
    withoutBreaks (pipeline marker commands) = pipeline marker (commands.map withoutBreaks) := by
  have hkept : marker.toList.filter (!isBreak ·) = marker.toList := by
    rw [List.filter_eq_self]
    simpa using hmarker
  have hspaced : (spaced marker.toList).filter (!isBreak ·) = spaced marker.toList := by
    rw [spaced, List.filter_cons_of_pos (by decide), List.filter_append, hkept, List.filter_cons_of_pos (by decide)]
    rfl
  have hhead : pipelineHead.toList.filter (!isBreak ·) = pipelineHead.toList := by decide
  apply String.toList_inj.mp
  rw [withoutBreaks, String.toList_ofList, toList_pipeline, toList_pipeline, List.filter_append, List.filter_append,
    hhead, hkept, List.filter_cons_of_pos (by decide), filter_intercalate, hspaced, List.map_map, List.map_map]
  congr 5
  funext command
  simp [withoutBreaks]

theorem isBreak_eq_false_of {p : Char → Bool} (hfeed : p '\n' = false) (hreturn : p '\r' = false) {c : Char}
    (h : p c = true) : isBreak c = false := by
  by_contra hbreak
  rw [Bool.not_eq_false, isBreak, Bool.or_eq_true, decide_eq_true_eq, decide_eq_true_eq] at hbreak
  rcases hbreak with rfl | rfl
  · exact absurd h (by rw [hfeed]; decide)
  · exact absurd h (by rw [hreturn]; decide)

theorem isBreak_text (m : Marker) : ∀ c ∈ m.text.toList, isBreak c = false := by
  intro c hc
  rcases bar_or_digit_of_mem_text hc with rfl | hdigit
  · decide
  · exact isBreak_eq_false_of (by decide) (by decide) (Marker.isDecimalDigit_of_isDigit hdigit)

/-- Removing line breaks leaves groups alone, which hold none. -/
theorem Marker.Unreadable.filter_breaks {cs : List Char} (h : Marker.Unreadable cs) :
    Marker.Unreadable (cs.filter (!isBreak ·)) := by
  induction h with
  | plain h => exact .plain fun hbar => h (List.mem_of_mem_filter hbar)
  | @group before digits rest hb hne hd hn _ ih =>
    have hdigits : digits.filter (!isBreak ·) = digits := by
      rw [List.filter_eq_self]
      intro d hmem
      rw [isBreak_eq_false_of (by decide) (by decide) (hd d hmem)]
      rfl
    rw [List.filter_append, List.filter_cons_of_pos (by decide), List.filter_append, hdigits,
      List.filter_cons_of_pos (by decide)]
    exact .group (fun hbar => hb (List.mem_of_mem_filter hbar)) hne hd hn ih

/-- The numbered marker of some commands can be in their way only if a line break is removed from inside it. -/
theorem exists_completed_of_not_separable {commands : List String}
    (h : ¬ Separable (Marker.choose commands).text.toList (commands.map fun c => (withoutBreaks c).toList)) :
    ∃ n, Marker.choose commands = .numbered n ∧ ∃ c ∈ commands,
      ¬ (Marker.choose commands).text.toList <:+: c.toList ∧
        (Marker.choose commands).text.toList <:+: (withoutBreaks c).toList := by
  obtain ⟨c, hc, hnot⟩ : ∃ c ∈ commands,
      ¬ IsClear (Marker.choose commands).text.toList (withoutBreaks c).toList := by
    by_contra hno
    push Not at hno
    apply h
    apply separable_of_isClear
    simpa using hno
  cases hm : Marker.choose commands with
  | bare =>
    -- All bars belong to groups, and these hold no line break that could be removed.
    rw [hm] at hnot
    have hclear := (choose_eq_bare_iff.mp hm c hc).filter_breaks.isClear
    rw [← String.toList_ofList (l := c.toList.filter _)] at hclear
    exact absurd hclear hnot
  | numbered n =>
    rw [hm] at hnot
    refine ⟨n, rfl, c, hc, not_infix_of_choose hm hc, ?_⟩
    by_contra hin
    apply hnot
    exact isClear_of_not_infix hin

theorem map_ofList_eq_iff {pieces : List (List Char)} {texts : List String} :
    pieces.map String.ofList = texts ↔ pieces = texts.map String.toList := by
  constructor
  · rintro rfl
    simp [Function.comp_def]
  · rintro rfl
    simp [Function.comp_def]

/-- What is read from a numbered pipeline whose line breaks were removed. -/
theorem readPipeline?_withoutBreaks {commands : List String} (hne : commands ≠ []) :
    ∃ pieces, readPipeline? (withoutBreaks (pipeline (Marker.choose commands).text commands)) =
        some ((Marker.choose commands).text, pieces) ∧
      (pieces = commands.map withoutBreaks ↔
        Separable (Marker.choose commands).text.toList (commands.map fun c => (withoutBreaks c).toList)) := by
  have hsp := space_not_mem_text (Marker.choose commands)
  rw [withoutBreaks_pipeline (isBreak_text _), readPipeline?_split hsp]
  refine ⟨_, rfl, ?_⟩
  rw [map_ofList_eq_iff, splitAll_intercalate_iff hsp (by simpa using hne), List.map_map]
  rfl

/-- **Where an embedded pipeline still has its commands.** In numbered mode the text that the literal of a block stands
for is a pipeline with the marker of the nested one. It splits into the nested commands without their line breaks if and
only if the marker stands between spaces in none of them, the space after a command that is not the last one included.
Where it does, it is a number between bars that one of the commands holds only without its line breaks. -/
theorem embedded_commands_split_iff {scope : Scope} (hmode : scope.delimiter = .numbered) {actions : List Action}
    {bodySpan : Source.Span} {chain : List Link} {span : Source.Span} {t t' : Trace} {f : Fragment}
    (h : runFrom (compileAction co scope (.compiled actions bodySpan chain span)) t = (.ok f, t')) :
    ∃ (inner : BodyRun co) (text literal : String) (marker : Marker) (commands pieces : List String),
      IsBlock scope ⟨actions, bodySpan⟩ chain t f inner literal ∧
        commands = pipedCommands inner.fragment.commands ∧ inner.Gives (pipeline marker.text commands) ∧
          readLiterals? ("'" ++ literal ++ "'") = some text ∧
            readPipeline? ("pipe " ++ text) = some (marker.text, pieces) ∧
              (pieces = commands.map withoutBreaks ↔
                Separable marker.text.toList (commands.map fun c => (withoutBreaks c).toList)) ∧
              (pieces ≠ commands.map withoutBreaks → ∃ n, marker = .numbered n ∧ ∃ c ∈ commands,
                ¬ marker.text.toList <:+: c.toList ∧ marker.text.toList <:+: (withoutBreaks c).toList) := by
  obtain ⟨inner, text, hgives, hblock⟩ := compileAction_compiled_ok h
  have hnumbered : inner.scope.delimiter = .numbered := by
    rw [hblock.scope_eq]
    simp [Scope.nested, hmode]
  have htext := hgives.eq_numbered hnumbered (inner.pipelined?_forced (by rw [hblock.scope_eq]; rfl))
  obtain ⟨rest, hrest⟩ := pipeline_eq_pipe (Marker.choose (pipedCommands inner.fragment.commands)).text
    (pipedCommands inner.fragment.commands)
  obtain rfl : text = "pipe " ++ rest := htext.trans hrest
  obtain ⟨pieces, hpieces, hiff⟩ := readPipeline?_withoutBreaks (pipedCommands_ne_nil inner.commands_ne_nil)
  rw [hrest, withoutBreaks_append] at hpieces
  refine ⟨inner, withoutBreaks rest, _, _, _, pieces, hblock, rfl, ?_, readLiterals?_embedded rest, hpieces, hiff,
    fun hne => exists_completed_of_not_separable (mt hiff.mpr hne)⟩
  rw [hrest]
  exact hgives

/-- A command with bars and a line break that stay apart from the marker. -/
theorem broken_bars_split_back :
    plainScope.delimiter = .numbered ∧ ∃ f t', runFrom (compileAction (standalone fun _ => "") plainScope
        (.compiled [running "x |1\n| y"] .origin [] .origin)) {} = (.ok f, t') ∧
      f.commands = ["js errorInfo:true function:\" '_char'+':|0| null |0| x |1| y' \""] ∧
      ∃ (inner : BodyRun (standalone fun _ => "")) (marker : Marker),
        IsBlock plainScope ⟨[running "x |1\n| y"], .origin⟩ [] {} f inner "_char'+':|0| null |0| x |1| y" ∧
          inner.fragment.commands = ["x |1\n| y"] ∧ marker.text = "|0|" ∧
            inner.Gives (pipeline marker.text ["null", "x |1\n| y"]) ∧
              readLiterals? "'_char'+':|0| null |0| x |1| y'" = some "_char:|0| null |0| x |1| y" ∧
                readPipeline? "pipe _char:|0| null |0| x |1| y" = some ("|0|", ["null", "x |1| y"]) ∧
                  ["null", "x |1| y"] = ["null", "x |1\n| y"].map withoutBreaks ∧
                    Separable "|0|".toList (["null", "x |1\n| y"].map fun c => (withoutBreaks c).toList) := by
  have hruns : (runFrom (compileAction (standalone fun _ => "") plainScope
      (.compiled [running "x |1\n| y"] .origin [] .origin)) {}).1.toOption.map Fragment.commands =
        some ["js errorInfo:true function:\" '_char'+':|0| null |0| x |1| y' \""] := by decide +kernel
  have hscript : ∀ text, "js " ++ (if plainScope.errorInfo then "errorInfo:true " else "") ++ "function:\"" ++
      blockScript plainScope text [] ++ "\"" = "js errorInfo:true function:\" '" ++ text ++ "' \"" := by
    intro text
    apply String.toList_inj.mp
    unfold blockScript
    simp [plainScope, Scope.ofAlias]
  obtain ⟨f, t', h, hcommands⟩ := exists_ok_of_map hruns
  obtain ⟨inner, text, literal, marker, commands, pieces, hblock, hpiped, hgives, hread, hpieces, hiff, -⟩ :=
    embedded_commands_split_iff rfl h
  obtain rfl : literal = "_char'+':|0| null |0| x |1| y" := hblock.literal_eq hscript (by rw [hcommands]; rfl)
  have hlisted : inner.fragment = .ofCommands ["x |1\n| y"] :=
    BodyRun.fragment_eq hblock.scope_eq hblock.body_eq hblock.before_eq rfl
  obtain rfl : commands = ["null", "x |1\n| y"] := by
    rw [hpiped, hlisted]
    rfl
  have hliteral : readLiterals? "'_char'+':|0| null |0| x |1| y'" = some "_char:|0| null |0| x |1| y" := by
    decide +kernel
  have hsplit : readPipeline? "pipe _char:|0| null |0| x |1| y" = some ("|0|", ["null", "x |1| y"]) := by
    decide +kernel
  obtain rfl : text = "_char:|0| null |0| x |1| y" := Option.some.inj (hread.symm.trans hliteral)
  obtain ⟨hmarker, rfl⟩ := Prod.mk.inj (Option.some.inj (hpieces.symm.trans hsplit))
  have hkept : ["null", "x |1| y"] = ["null", "x |1\n| y"].map withoutBreaks := by decide +kernel
  have hseparable := hiff.mp hkept
  rw [hmarker] at hseparable
  exact ⟨rfl, f, t', h, hcommands, inner, marker, hblock, congrArg Fragment.commands hlisted, hmarker, hgives, hliteral,
    hsplit, hkept, hseparable⟩

/-- The marker of this block is `|0|`, and the command holds it between spaces once its line break is gone: the text
splits into three commands, not into the null command and the one that was nested. -/
theorem rejoined_marker_splits_command :
    (runFrom (compileAction (standalone fun _ => "") plainScope
        (.compiled [running "x |0\n| y"] .origin [] .origin)) {}).1.toOption.map Fragment.commands =
          some ["js errorInfo:true function:\" '_char'+':|0| null |0| x |0| y' \""] ∧
      readLiterals? "'_char'+':|0| null |0| x |0| y'" = some "_char:|0| null |0| x |0| y" ∧
      readPipeline? "pipe _char:|0| null |0| x |0| y" = some ("|0|", ["null", "x", "y"]) ∧
      ["null", "x", "y"] ≠ ["null", "x |0\n| y"].map withoutBreaks := by
  refine ⟨by decide +kernel, by decide +kernel, by decide +kernel, by decide +kernel⟩

end AliasLang.Command
