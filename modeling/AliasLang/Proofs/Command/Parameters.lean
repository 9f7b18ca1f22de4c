/-
Code in the parameters of commands. It is quoted by three replacements one after the other: of backslashes, of double
quotes, and of line breaks, which are dropped. The quotes get backslashes after the backslashes were doubled, and line
breaks go when all is escaped, so taking the quoting back gives the code again, on one line.
-/
import AliasLang.Proofs.Command.LineBreaks
import AliasLang.Proofs.Command.Success

namespace AliasLang.Command

namespace Quoting

/-! ## Taking quoting back -/

/-- Reads quoted code. A backslash stands before the backslash or the double quote that it denotes. Nothing else has
one before it, and no double quote is without one. -/
def unquote? : List Char → Option (List Char)
  | [] => some []
  | '\\' :: c :: cs => if c = '\\' || c = '"' then (unquote? cs).map (c :: ·) else none
  | c :: cs => if c = '\\' || c = '"' then none else (unquote? cs).map (c :: ·)

/-- The code that the text of a parameter stands for. -/
def unquoted? (text : String) : Option String := (unquote? text.toList).map String.ofList

theorem unquote?_escaped {c : Char} (cs : List Char) (h : c = '\\' ∨ c = '"') :
    unquote? ('\\' :: c :: cs) = (unquote? cs).map (c :: ·) := by
  rw [unquote?, if_pos (by simpa using h)]

theorem unquote?_plain {c : Char} (cs : List Char) (hslash : c ≠ '\\') (hquote : c ≠ '"') :
    unquote? (c :: cs) = (unquote? cs).map (c :: ·) := by
  rw [unquote?]
  · simp [hslash, hquote]
  · simp [hslash]

theorem parameterChar_plain {c : Char} (hslash : c ≠ '\\') (hquote : c ≠ '"') :
    parameterChar c = if isBreak c then [] else [c] := by
  rw [parameterChar, if_neg hslash, if_neg hquote]
  rfl

/-- What is written for a character is read as it, and a line break is not written. -/
theorem unquote?_parameterChar (c : Char) (cs : List Char) :
    unquote? (parameterChar c ++ cs) = if isBreak c then unquote? cs else (unquote? cs).map (c :: ·) := by
  by_cases hslash : c = '\\'
  · subst hslash
    exact unquote?_escaped cs (.inl rfl)
  by_cases hquote : c = '"'
  · subst hquote
    exact unquote?_escaped cs (.inr rfl)
  rw [parameterChar_plain hslash hquote]
  split
  · rfl
  · exact unquote?_plain cs hslash hquote

theorem unquote?_flatMap_parameterChar (cs : List Char) :
    unquote? (cs.flatMap parameterChar) = some (cs.filter (!isBreak ·)) := by
  induction cs with
  | nil => rfl
  | cons c cs ih =>
    rw [List.flatMap_cons, unquote?_parameterChar, ih, List.filter_cons]
    cases isBreak c <;> rfl

theorem unquoted?_parameter (code : String) : unquoted? (parameter code) = some (withoutBreaks code) := by
  rw [unquoted?, parameter, substitute, String.toList_ofList, unquote?_flatMap_parameterChar]
  rfl

/-- A text on one line that is read as code is what quoting the code gives. -/
theorem eq_flatMap_of_unquote? {text : List Char} (hline : ∀ c ∈ text, isBreak c = false) {code : List Char}
    (h : unquote? text = some code) : text = code.flatMap parameterChar := by
  fun_induction unquote? text generalizing code with
  | case1 =>
    cases h
    rfl
  | case2 c cs hc ih =>
    obtain ⟨code, hcode, rfl⟩ := Option.map_eq_some_iff.mp h
    rw [List.forall_mem_cons, List.forall_mem_cons] at hline
    rw [List.flatMap_cons, ← ih hline.2.2 hcode]
    obtain rfl | rfl : c = '\\' ∨ c = '"' := by simpa using hc
    · rfl
    · rfl
  | case3 => cases h
  | case4 => cases h
  | case5 c cs _ hc ih =>
    obtain ⟨code, hcode, rfl⟩ := Option.map_eq_some_iff.mp h
    rw [List.forall_mem_cons] at hline
    obtain ⟨hslash, hquote⟩ : c ≠ '\\' ∧ c ≠ '"' := by simpa using hc
    rw [List.flatMap_cons, ← ih hline.2 hcode, parameterChar_plain hslash hquote, hline.1]
    rfl

theorem eq_parameter_of_unquoted? {text code : String} (hline : OneLine text)
    (h : unquoted? text = some (withoutBreaks code)) : text = parameter code := by
  obtain ⟨cs, hcs, htext⟩ := Option.map_eq_some_iff.mp h
  -- both texts are what quoting writes for the code that they are read as
  obtain ⟨ds, hds, hcode⟩ := Option.map_eq_some_iff.mp (unquoted?_parameter code)
  obtain rfl : cs = ds := String.ofList_injective (htext.trans hcode.symm)
  apply String.toList_injective
  rw [eq_flatMap_of_unquote? hline hcs, eq_flatMap_of_unquote? (oneLine_parameter code) hds]

/-! ## The three replacements -/

/-- Replaces the characters of a kind by a text. -/
def replace (kind : Char → Bool) (written : List Char) (s : String) : String :=
  substitute (fun c => if kind c then written else [c]) s

/-- Replaces backslashes, then double quotes, then line breaks. -/
def replaceThrice (code : String) : String :=
  replace isBreak [] (replace (· = '"') ['\\', '"'] (replace (· = '\\') ['\\', '\\'] code))

theorem parameter_eq_replaceThrice (code : String) : parameter code = replaceThrice code := by
  simp only [parameter, replaceThrice, replace, substitute, String.toList_ofList, List.flatMap_assoc]
  congr 1
  refine List.flatMap_congr fun c _ => ?_
  by_cases hslash : c = '\\'
  · subst hslash
    rfl
  by_cases hquote : c = '"'
  · subst hquote
    rfl
  simp [parameterChar_plain, hslash, hquote]

end Quoting

open Program
open Quoting (WellQuoted readParameter? wellQuoted_parameter wellQuoted_iff_readParameter? withoutBreaks
  replaceThrice unquoted? unquoted?_parameter)

/-! ## Scripts -/

variable {co : Collaborators} {scope : Scope}

theorem compileScript_ok {a : ScriptAction} {t t' : Trace} {f : Fragment}
    (h : runFrom (compileScript co scope a) t = (.ok f, t')) :
    ∃ imported output, Resolves co a.imported imported ∧
      co.transform (Script.Options.forEmbedding scope.minifyScript)
        (Script.preamble scope.keyPrefix ++ imported ++ a.script.unescaped) = .ok output ∧
      f.commands = [scriptCommand scope (Quoting.parameter ("(()=>\x7b" ++ output.code ++ "\x7d)();"))] := by
  unfold compileScript at h
  obtain ⟨imported, t₁, himported, h⟩ := runFrom_bind_ok h
  obtain ⟨answer, t₂, hanswer, h⟩ := runFrom_bind_ok h
  have hresolves := importedText_decides co a t
  rw [himported] at hresolves
  have htransform := (transform_meets co _ _).ok hanswer
  split at h
  · cases h
  · rename_i output
    split at h
    · cases h
    · cases h
      exact ⟨imported, output, hresolves.2, htransform.symm, rfl⟩

/-- **Quoted code reads back.** The text for a parameter is what three replacements leave. It is on one line, each
double quote in it is behind an odd number of backslashes, and it ends with an even number of them. It is read as the
code without its line breaks, and no other text on one line is. So the command for a script is `js`, the option for
errors if the scope has it, and `function:` with a parameter in quotes. Reading the parameter ends at the last quote,
and gives the function around what the script was transformed to, without line breaks. -/
theorem parameter_reads_back_as_code :
    (∀ code, Quoting.parameter code = replaceThrice code ∧
      OneLine (Quoting.parameter code) ∧ WellQuoted (Quoting.parameter code).toList ∧
      unquoted? (Quoting.parameter code) = some (withoutBreaks code) ∧
      ∀ text, OneLine text → unquoted? text = some (withoutBreaks code) → text = Quoting.parameter code) ∧
    ∀ co scope a t f t', runFrom (compileScript co scope a) t = (.ok f, t') →
      ∃ imported output p, Resolves co a.imported imported ∧
        co.transform (Script.Options.forEmbedding scope.minifyScript)
          (Script.preamble scope.keyPrefix ++ imported ++ a.script.unescaped) = .ok output ∧
        f.commands = ["js " ++ (if scope.errorInfo then "errorInfo:true " else "") ++ "function:\"" ++ p ++ "\""] ∧
        readParameter? (p.toList ++ ['"']) = some (p.toList, []) ∧
        unquoted? p = some (withoutBreaks ("(()=>\x7b" ++ output.code ++ "\x7d)();")) := by
  refine ⟨fun code => ⟨Quoting.parameter_eq_replaceThrice code, oneLine_parameter code, wellQuoted_parameter code,
    unquoted?_parameter code, fun text => Quoting.eq_parameter_of_unquoted?⟩, ?_⟩
  intro co scope a t f t' h
  obtain ⟨imported, output, hresolves, htransform, hcommands⟩ := compileScript_ok h
  exact ⟨imported, output, _, hresolves, htransform, hcommands,
    (wellQuoted_iff_readParameter? [] _).mp (wellQuoted_parameter _), unquoted?_parameter _⟩

/-- A script with quotes behind backslashes, and with line breaks. -/
def escapingScript : ScriptAction := ⟨none, ⟨"return \"a\\\"b\\\\\"\r\n+1", .origin⟩, .origin⟩

/-- Collaborators that leave scripts as they are. -/
def unchanging : Collaborators := ⟨Gist.importsDisabled, fun _ script => .ok ⟨script, []⟩, toString⟩

/-- The parameter of its command is read as the script, with the preamble before it. -/
theorem escaping_script_reads_back :
    let scope : Scope := ⟨"aa", "aa.", .numbered, false, true, false, true, false⟩
    ∃ f t' p, runFrom (compileScript unchanging scope escapingScript) {} = (.ok f, t') ∧
      f.commands = ["js errorInfo:true function:\"" ++ p ++ "\""] ∧
      unquoted? p = some (withoutBreaks ("(()=>\x7b" ++ (Script.preamble "aa." ++
        "return \"a\\\"b\\\\\"\r\n+1") ++ "\x7d)();")) := by
  intro scope
  have haccepts : Accepts unchanging scope escapingScript := ⟨"", _, .absent, rfl, by simp⟩
  obtain ⟨f, t', hrun⟩ := exists_ok_of_isOk (((compileScript_decides unchanging scope _).isOk_iff {}).mpr haccepts)
  obtain ⟨imported, output, p, hresolves, htransform, hcommands, -, hread⟩ :=
    parameter_reads_back_as_code.2 unchanging scope escapingScript {} f t' hrun
  have hscript : escapingScript.script.unescaped = "return \"a\\\"b\\\\\"\r\n+1" := by decide +kernel
  have houtput := Except.ok.inj htransform
  obtain rfl := hresolves.unique .absent
  rw [← houtput, String.append_empty, hscript] at hread
  exact ⟨f, t', p, hrun, hcommands, hread⟩

end AliasLang.Command
