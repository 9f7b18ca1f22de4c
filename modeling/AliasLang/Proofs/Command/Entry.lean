/-
The entry of a program, compiled alone and among all aliases. What is compiled before an alias changes nothing but the
markers that are drawn for it, so where markers are numbered an alias compiles to one command wherever it stands.
-/
import AliasLang.Command.Program
import AliasLang.Proofs.Command.Draws
import AliasLang.Proofs.Program.Entry
import Mathlib.Data.List.Forall2

namespace AliasLang.Command

open Program

variable {co : Collaborators} {settings : Settings}

theorem compileEntry_ok {p : Program} {t t' : Trace} {out : CompiledAlias}
    (h : runFrom (compileEntry co settings p) t = (.ok out, t')) :
    ∃ a, p.selectEntry = .ok a ∧ runFrom (compileAlias co settings a) t = (.ok out, t') := by
  unfold compileEntry at h
  cases hentry : p.selectEntry with
  | error e =>
    rw [hentry] at h
    cases h
  | ok a =>
    rw [hentry] at h
    exact ⟨a, rfl, h⟩

theorem runFrom_compileEntry {p : Program} {a : Alias} (h : p.selectEntry = .ok a) (t : Trace) :
    runFrom (compileEntry co settings p) t = runFrom (compileAlias co settings a) t := by
  unfold compileEntry
  rw [h]
  rfl

theorem mapM_compileAlias_ok {t' : Trace} : ∀ {aliases : List Alias} {t : Trace}
    {outs : List CompiledAlias}, runFrom (aliases.mapM (compileAlias co settings)) t = (.ok outs, t') →
    List.Forall₂ (fun a out => ∃ t₁ t₂, runFrom (compileAlias co settings a) t₁ = (.ok out, t₂)) aliases outs
  | [], t, outs, h => by
    cases h
    exact .nil
  | a :: rest, t, outs, h => by
    rw [List.mapM_cons] at h
    obtain ⟨out, t₁, hout, h⟩ := runFrom_bind_ok h
    obtain ⟨more, t₂, hmore, h⟩ := runFrom_bind_ok h
    cases h
    exact .cons ⟨t, t₁, hout⟩ (mapM_compileAlias_ok hmore)

theorem compileAll_ok {p : Program} {t t' : Trace} {outs : List CompiledAlias}
    (h : runFrom (compileAll co settings p) t = (.ok outs, t')) :
    List.Forall₂ (fun a out => ∃ t₁ t₂, runFrom (compileAlias co settings a) t₁ = (.ok out, t₂)) p.aliases outs := by
  unfold compileAll at h
  obtain ⟨checked, t₁, -, h⟩ := runFrom_bind_ok h
  exact mapM_compileAlias_ok h

theorem compileAlias_name {a : Alias} {t t' : Trace} {out : CompiledAlias}
    (h : runFrom (compileAlias co settings a) t = (.ok out, t')) : out.name = a.name := by
  unfold compileAlias at h
  obtain ⟨f, t₁, -, h⟩ := runFrom_bind_ok h
  unfold finishAlias at h
  split at h
  · cases h
  · obtain ⟨text, t₂, -, h⟩ := runFrom_bind_ok h
    cases h
    rfl

/-- Where markers are numbered, an alias that compiles after others compiles to the same by itself. -/
theorem compileAlias_alone (hmode : settings.delimiter = .numbered) {a : Alias} {t t' : Trace} {out : CompiledAlias}
    (h : runFrom (compileAlias co settings a) t = (.ok out, t')) :
    (run (compileAlias co settings a)).1 = .ok out := by
  obtain ⟨t₂, hrun, -⟩ := (compileAlias_drawsDecide co settings a).again (.inl hmode) h
  exact congrArg Prod.fst (hrun : runFrom _ {} = _)

theorem compileAll_names {p : Program} {t t' : Trace} {outs : List CompiledAlias}
    (h : runFrom (compileAll co settings p) t = (.ok outs, t')) : outs.map (·.name) = p.aliases.map (·.name) := by
  have hnames := (compileAll_ok h).imp fun a out ⟨t₁, t₂, hrun⟩ => compileAlias_name hrun
  rw [eq_comm, ← List.forall₂_eq_eq_eq, List.forall₂_map_left_iff, List.forall₂_map_right_iff]
  exact hnames.imp fun _ _ => Eq.symm

/-- Distinct names pick single elements. -/
theorem filter_name_eq {outs : List CompiledAlias} (h : (outs.map (·.name)).Nodup) {out : CompiledAlias}
    (hout : out ∈ outs) : outs.filter (·.name = out.name) = [out] := by
  obtain ⟨front, rest, rfl⟩ := List.append_of_mem hout
  rw [List.map_append, List.map_cons, List.nodup_middle, List.nodup_cons, ← List.map_append, List.mem_map] at h
  have hothers : ∀ other ∈ front ++ rest, ¬ other.name = out.name := fun other hmem hname => h.1 ⟨other, hmem, hname⟩
  rw [List.forall_mem_append] at hothers
  rw [List.filter_append, List.filter_cons_of_pos (by simp), List.filter_eq_nil_iff.mpr (by simpa using hothers.1),
    List.filter_eq_nil_iff.mpr (by simpa using hothers.2), List.nil_append]

/-- **The entry is selected by its name.** A program has a selected alias exactly when its alias names are distinct, it
has at most one entry, and either that entry names the alias or there is no entry and no other alias. It does not
matter where the entry stands. Otherwise the first repetition in file order is blamed, and only when there is none the
entry that is unknown or missing. Where markers are numbered, the selected alias compiles to what it is compiled to
among all aliases, when they all compile. -/
theorem entry_selected_and_compiled (p : Program) :
    (∀ a, p.selectEntry = .ok a ↔ p.Distinct ∧ p.Designates a) ∧
    (∀ err, p.selectEntry = .error err ↔ p.BlamesRepetition err ∨ p.Distinct ∧ p.LacksEntry err) ∧
    ∀ (co : Collaborators) (settings : Settings) (a : Alias) (outs : List CompiledAlias),
      settings.delimiter = .numbered → p.selectEntry = .ok a → (run (compileAll co settings p)).1 = .ok outs →
      ∃ (i : Nat) (out : CompiledAlias), p.aliases[i]? = some a ∧ outs[i]? = some out ∧
        outs.filter (·.name = a.name) = [out] ∧ (run (compileEntry co settings p)).1 = .ok out := by
  refine ⟨fun a => selectEntry_ok_iff, fun err => selectEntry_error_iff, ?_⟩
  intro co settings a outs hmode hselect hall
  have hrun : runFrom (compileAll co settings p) {} = (.ok outs, (run (compileAll co settings p)).2) :=
    Prod.ext hall rfl
  -- the selected alias is one of all, and its command stands at the same place
  obtain ⟨i, hi, rfl⟩ := List.getElem_of_mem (selectEntry_mem hselect)
  have hi' : i < outs.length := (compileAll_ok hrun).length_eq ▸ hi
  obtain ⟨t, t', hcompiles⟩ := (compileAll_ok hrun).get hi hi'
  rw [List.get_eq_getElem, List.get_eq_getElem] at hcompiles
  refine ⟨i, outs[i], List.getElem?_eq_getElem hi, List.getElem?_eq_getElem hi', ?_, ?_⟩
  · rw [← compileAlias_name hcompiles]
    refine filter_name_eq ?_ (List.getElem_mem hi')
    rw [compileAll_names hrun]
    exact (selectEntry_ok_iff.mp hselect).1.1
  · have halone : (runFrom (compileEntry co settings p) {}).1 = .ok outs[i] := by
      rw [runFrom_compileEntry hselect]
      exact compileAlias_alone hmode hcompiles
    exact halone

/-- An alias that says two things. -/
def sayingTwice : Alias :=
  ⟨"bb", none, ⟨[.execute ⟨none, .say (some "y") .origin, [], .origin⟩,
    .execute ⟨none, .say (some "|0| z") .origin, [], .origin⟩], .origin⟩, .origin⟩

/-- The entry stands before the alias it names, after another one. -/
def entryBetween : Program :=
  ⟨[.define ⟨"aa", none, ⟨[.execute ⟨none, .say (some "x") .origin, [], .origin⟩], .origin⟩, .origin⟩,
    .entry ⟨"bb", .origin⟩, .define sayingTwice]⟩

/-- It compiles to the one command of that name among all. -/
theorem entry_compiles_as_later_alias :
    entryBetween.selectEntry = .ok sayingTwice ∧
    ∃ outs out, (run (compileAll (standalone toString) {} entryBetween)).1 = .ok outs ∧
      outs.filter (·.name = "bb") = [out] ∧
      (run (compileEntry (standalone toString) {} entryBetween)).1 = .ok out := by
  obtain ⟨hselect, -, hcompiled⟩ := entry_selected_and_compiled entryBetween
  have hnames : entryBetween.Distinct := by decide
  have hentry : entryBetween.selectEntry = .ok sayingTwice :=
    (hselect sayingTwice).mpr ⟨hnames, .inl ⟨⟨"bb", .origin⟩, by decide, rfl, mem_aliases.mpr (by simp [entryBetween])⟩⟩
  have hruns : (run (compileAll (standalone toString) {} entryBetween)).1.isOk = true := by decide
  refine ⟨hentry, ?_⟩
  cases hall : (run (compileAll (standalone toString) {} entryBetween)).1 with
  | error e =>
    rw [hall] at hruns
    cases hruns
  | ok outs =>
    obtain ⟨i, out, -, -, hfilter, hout⟩ := hcompiled (standalone toString) {} sayingTwice outs rfl hentry hall
    exact ⟨outs, out, rfl, hfilter, hout⟩

end AliasLang.Command
