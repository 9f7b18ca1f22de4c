/-
Which alias is the entry of a program. The check goes through the declarations once and stops at the first one that
repeats a name or an entry. What it has kept until then are the aliases and the entry of the declarations before, so
the order of the declarations matters only for which repetition is blamed.
-/
import AliasLang.Program.Entry
import Mathlib.Data.List.Induction
import Mathlib.Data.List.Nodup

namespace AliasLang.Program

open Source (Span)

/-! ## Repetitions -/

/-- The declaration names an alias again, or is a further entry, after those before it. -/
def Declaration.Repeats (before : List Declaration) : Declaration → Prop
  | .entry _ => ∃ e, .entry e ∈ before
  | .define a => ∃ b, .define b ∈ before ∧ b.name = a.name

/-- No declaration repeats anything. -/
def Unrepeated (ds : List Declaration) : Prop :=
  ∀ before d after, ds = before ++ d :: after → ¬ d.Repeats before

/-- The error that blames a declaration for a repetition. -/
def Declaration.repetition : Declaration → SemanticError
  | .entry e => .multipleEntrypoints e.span
  | .define a => .duplicateAlias a.name a.span

theorem unrepeated_nil : Unrepeated [] := by
  intro before d after h
  simp at h

theorem unrepeated_concat {ds : List Declaration} {d : Declaration} :
    Unrepeated (ds ++ [d]) ↔ Unrepeated ds ∧ ¬ d.Repeats ds := by
  constructor
  · intro h
    refine ⟨fun before d' after hds => h before d' (after ++ [d]) (by simp [hds]), h ds d [] rfl⟩
  · rintro ⟨hds, hd⟩ before d' after heq
    rcases List.eq_nil_or_concat after with rfl | ⟨front, last, rfl⟩
    · obtain ⟨rfl, rfl⟩ : ds = before ∧ d = d' := by simpa using List.append_inj' heq rfl
      exact hd
    · refine hds before d' front ?_
      have hsplit : ds ++ [d] = (before ++ d' :: front) ++ [last] := by simpa using heq
      exact (List.append_inj' hsplit rfl).1

/-- There is a first declaration that repeats something, unless none does. -/
theorem unrepeated_or_first (ds : List Declaration) :
    Unrepeated ds ∨ ∃ before d after, ds = before ++ d :: after ∧ Unrepeated before ∧ d.Repeats before := by
  induction ds using List.reverseRecOn with
  | nil => exact .inl unrepeated_nil
  | append_singleton ds d ih =>
    rcases ih with hds | ⟨before, d', after, rfl, hbefore, hd'⟩
    · by_cases hd : d.Repeats ds
      · exact .inr ⟨ds, d, [], rfl, hds, hd⟩
      · exact .inl (unrepeated_concat.mpr ⟨hds, hd⟩)
    · exact .inr ⟨before, d', after ++ [d], by simp, hbefore, hd'⟩

/-! ## Aliases and entries of declarations -/

theorem mem_aliases {p : Program} {a : Alias} : a ∈ p.aliases ↔ .define a ∈ p.declarations := by
  rw [aliases, List.mem_filterMap]
  constructor
  · rintro ⟨_ | b, hd, heq⟩
    · cases heq
    · cases heq
      exact hd
  · exact fun h => ⟨_, h, rfl⟩

theorem mem_entries {p : Program} {e : Entry} : e ∈ p.entries ↔ .entry e ∈ p.declarations := by
  rw [entries, List.mem_filterMap]
  constructor
  · rintro ⟨e' | _, hd, heq⟩
    · cases heq
      exact hd
    · cases heq
  · exact fun h => ⟨_, h, rfl⟩

theorem aliases_append (ds ds' : List Declaration) :
    aliases ⟨ds ++ ds'⟩ = aliases ⟨ds⟩ ++ aliases ⟨ds'⟩ := List.filterMap_append

theorem entries_append (ds ds' : List Declaration) :
    entries ⟨ds ++ ds'⟩ = entries ⟨ds⟩ ++ entries ⟨ds'⟩ := List.filterMap_append

/-- Distinct names of aliases, and at most one entry. -/
def Distinct (p : Program) : Prop := (p.aliases.map (·.name)).Nodup ∧ p.entries.length ≤ 1

instance (p : Program) : Decidable p.Distinct := inferInstanceAs (Decidable (_ ∧ _))

theorem repeats_entry_iff {ds : List Declaration} {e : Entry} :
    (Declaration.entry e).Repeats ds ↔ entries ⟨ds⟩ ≠ [] := by
  constructor
  · rintro ⟨e', he'⟩
    exact List.ne_nil_of_mem (mem_entries.mpr he')
  · intro h
    obtain ⟨e', he'⟩ := List.exists_mem_of_ne_nil _ h
    exact ⟨e', mem_entries.mp he'⟩

theorem repeats_define_iff {ds : List Declaration} {a : Alias} :
    (Declaration.define a).Repeats ds ↔ a.name ∈ (aliases ⟨ds⟩).map (·.name) := by
  rw [List.mem_map]
  exact exists_congr fun b => and_congr_left fun _ => mem_aliases.symm

theorem unrepeated_iff_distinct (ds : List Declaration) : Unrepeated ds ↔ Distinct ⟨ds⟩ := by
  induction ds using List.reverseRecOn with
  | nil => exact iff_of_true unrepeated_nil ⟨List.nodup_nil, Nat.zero_le 1⟩
  | append_singleton ds d ih =>
    rw [unrepeated_concat, ih, Distinct, Distinct, aliases_append, entries_append]
    cases d with
    | entry e =>
      have haliases : aliases ⟨[.entry e]⟩ = [] := rfl
      have hentries : entries ⟨[.entry e]⟩ = [e] := rfl
      have hlength : (entries ⟨ds⟩).length ≤ 1 ∧ entries ⟨ds⟩ = [] ↔ (entries ⟨ds⟩ ++ [e]).length ≤ 1 := by
        rw [← List.length_eq_zero_iff, List.length_append, List.length_singleton]
        omega
      rw [repeats_entry_iff, not_not, haliases, hentries, List.append_nil, ← hlength, and_assoc]
    | define a =>
      have haliases : aliases ⟨[.define a]⟩ = [a] := rfl
      have hentries : entries ⟨[.define a]⟩ = [] := rfl
      rw [repeats_define_iff, haliases, hentries, List.append_nil, List.map_append, List.map_singleton,
        ← List.concat_eq_append, List.nodup_concat]
      tauto

/-! ## The check -/

/-- What the check answers on declarations after others, in which it found no repetition. -/
def checkAfter (before ds : List Declaration) : Except SemanticError (Option Entry) :=
  checkDeclarations (aliases ⟨before⟩).reverse (entries ⟨before⟩).head? ds

/-- A repetition ends the check. -/
theorem checkAfter_repeated {before : List Declaration} {d : Declaration} (h : d.Repeats before)
    (after : List Declaration) : checkAfter before (d :: after) = .error d.repetition := by
  cases d with
  | entry e =>
    obtain ⟨e', es, hentries⟩ := List.exists_cons_of_ne_nil (repeats_entry_iff.mp h)
    rw [checkAfter, hentries]
    rfl
  | define a =>
    obtain ⟨b, hb, hname⟩ := List.mem_map.mp (repeats_define_iff.mp h)
    have hany : (aliases ⟨before⟩).reverse.any (·.name = a.name) = true :=
      List.any_eq_true.mpr ⟨b, List.mem_reverse.mpr hb, decide_eq_true hname⟩
    rw [checkAfter, checkDeclarations, if_pos hany]
    rfl

/-- A declaration that repeats nothing is kept. -/
theorem checkAfter_new {before : List Declaration} {d : Declaration} (h : ¬ d.Repeats before)
    (after : List Declaration) : checkAfter before (d :: after) = checkAfter (before ++ [d]) after := by
  rw [checkAfter, checkAfter, aliases_append, entries_append]
  cases d with
  | entry e =>
    rw [repeats_entry_iff, not_not] at h
    have haliases : aliases ⟨[.entry e]⟩ = [] := rfl
    rw [h, haliases, List.append_nil]
    rfl
  | define a =>
    have hany : ¬ (aliases ⟨before⟩).reverse.any (·.name = a.name) = true := by
      rw [repeats_define_iff, List.mem_map] at h
      simpa using h
    have haliases : aliases ⟨[.define a]⟩ = [a] := rfl
    have hentries : entries ⟨[.define a]⟩ = [] := rfl
    rw [checkDeclarations, if_neg hany, haliases, hentries, List.append_nil, List.reverse_append]
    rfl

theorem checkAfter_append {front : List Declaration} (h : Unrepeated front) (after : List Declaration) :
    checkAfter [] (front ++ after) = checkAfter front after := by
  -- from the end, since a declaration is compared with those before it
  induction front using List.reverseRecOn generalizing after with
  | nil => rfl
  | append_singleton front d ih =>
    obtain ⟨hfront, hd⟩ := unrepeated_concat.mp h
    rw [List.append_assoc, ih hfront, List.singleton_append, checkAfter_new hd]

/-! ## The selected alias -/

/-- The error for the first declaration that repeats something. -/
def BlamesRepetition (p : Program) (err : SemanticError) : Prop :=
  ∃ before d after, p.declarations = before ++ d :: after ∧ Unrepeated before ∧ d.Repeats before ∧
    err = d.repetition

/-- An entry names the alias, or there is no entry and no other alias. -/
def Designates (p : Program) (a : Alias) : Prop :=
  (∃ e ∈ p.entries, e.name = a.name ∧ a ∈ p.aliases) ∨ p.entries = [] ∧ p.aliases = [a]

/-- The error for an entry that names no alias, or for a missing entry. -/
def LacksEntry (p : Program) (err : SemanticError) : Prop :=
  (∃ e ∈ p.entries, (∀ a ∈ p.aliases, a.name ≠ e.name) ∧ err = .unknownEntrypoint e.name e.span) ∨
    p.entries = [] ∧ p.aliases.length ≠ 1 ∧
      err = .missingEntrypoint p.aliases.length ((p.declarations.head?.map Declaration.span).getD .origin)

theorem selectEntry_of_blamesRepetition {p : Program} {err : SemanticError} (h : p.BlamesRepetition err) :
    p.selectEntry = .error err := by
  obtain ⟨before, d, after, hp, hbefore, hd, rfl⟩ := h
  have hcheck : checkDeclarations [] none p.declarations = .error d.repetition := by
    rw [hp]
    exact (checkAfter_append hbefore _).trans (checkAfter_repeated hd after)
  rw [selectEntry, check, hcheck]

theorem checkDeclarations_of_distinct {p : Program} (h : p.Distinct) :
    checkDeclarations [] none p.declarations = .ok p.entries.head? := by
  have hrun := checkAfter_append ((unrepeated_iff_distinct p.declarations).mpr h) []
  rw [List.append_nil] at hrun
  exact hrun

theorem entries_of_distinct {p : Program} (h : p.Distinct) {e : Entry} (he : e ∈ p.entries) : p.entries = [e] := by
  obtain ⟨e', hentries⟩ := List.length_eq_one_iff.mp (Nat.le_antisymm h.2 (List.length_pos_of_mem he))
  rw [hentries, List.mem_singleton] at he
  rw [hentries, he]

theorem find?_name_eq_some {p : Program} (h : p.Distinct) {a : Alias} {name : String} :
    p.find? name = some a ↔ name = a.name ∧ a ∈ p.aliases := by
  constructor
  · intro hfind
    have hname : a.name = name := by simpa using List.find?_some hfind
    exact ⟨hname.symm, List.mem_of_find?_eq_some hfind⟩
  · rintro ⟨rfl, ha⟩
    cases hfind : p.find? a.name with
    | none => exact absurd (List.find?_eq_none.mp hfind a ha) (by simp)
    | some b =>
      have hname : b.name = a.name := by simpa using List.find?_some hfind
      rw [List.inj_on_of_nodup_map h.1 (List.mem_of_find?_eq_some hfind) ha hname]

theorem selectEntry_of_designates {p : Program} {a : Alias} (h : p.Distinct) (ha : p.Designates a) :
    p.selectEntry = .ok a := by
  rw [selectEntry, check, checkDeclarations_of_distinct h]
  rcases ha with ⟨e, he, hname⟩ | ⟨hentries, haliases⟩
  · simp only [entries_of_distinct h he, List.head?_cons, (find?_name_eq_some h).mpr hname]
  · simp only [hentries, List.head?_nil, haliases]

theorem selectEntry_of_lacksEntry {p : Program} {err : SemanticError} (h : p.Distinct) (herr : p.LacksEntry err) :
    p.selectEntry = .error err := by
  rw [selectEntry, check, checkDeclarations_of_distinct h]
  rcases herr with ⟨e, he, hnone, rfl⟩ | ⟨hentries, hlength, rfl⟩
  · have hfind : p.find? e.name = none := List.find?_eq_none.mpr fun a ha => by simpa using hnone a ha
    simp only [entries_of_distinct h he, List.head?_cons, hfind]
  · simp only [hentries, List.head?_nil]
    split
    · rename_i b haliases
      exact absurd (congrArg List.length haliases) hlength
    · rfl

theorem designates_or_lacksEntry (p : Program) : (∃ a, p.Designates a) ∨ ∃ err, p.LacksEntry err := by
  rcases hentries : p.entries with _ | ⟨e, es⟩
  · by_cases hlength : p.aliases.length = 1
    · obtain ⟨a, ha⟩ := List.length_eq_one_iff.mp hlength
      exact .inl ⟨a, .inr ⟨hentries, ha⟩⟩
    · exact .inr ⟨_, .inr ⟨hentries, hlength, rfl⟩⟩
  · have he : e ∈ p.entries := by simp [hentries]
    by_cases hnamed : ∃ a ∈ p.aliases, a.name = e.name
    · obtain ⟨a, ha, hname⟩ := hnamed
      exact .inl ⟨a, .inl ⟨e, he, hname.symm, ha⟩⟩
    · exact .inr ⟨_, .inl ⟨e, he, fun a ha hname => hnamed ⟨a, ha, hname⟩, rfl⟩⟩

/-- The three answers. -/
theorem selectEntry_cases (p : Program) :
    (∃ err, p.BlamesRepetition err ∧ p.selectEntry = .error err) ∨
    p.Distinct ∧ ((∃ a, p.Designates a ∧ p.selectEntry = .ok a) ∨
      ∃ err, p.LacksEntry err ∧ p.selectEntry = .error err) := by
  rcases unrepeated_or_first p.declarations with h | ⟨before, d, after, hp, hbefore, hd⟩
  · have hdistinct : p.Distinct := (unrepeated_iff_distinct _).mp h
    refine .inr ⟨hdistinct, (designates_or_lacksEntry p).imp ?_ ?_⟩
    · exact fun ⟨a, ha⟩ => ⟨a, ha, selectEntry_of_designates hdistinct ha⟩
    · exact fun ⟨err, herr⟩ => ⟨err, herr, selectEntry_of_lacksEntry hdistinct herr⟩
  · have herr : p.BlamesRepetition d.repetition := ⟨before, d, after, hp, hbefore, hd, rfl⟩
    exact .inl ⟨_, herr, selectEntry_of_blamesRepetition herr⟩

theorem selectEntry_ok_iff {p : Program} {a : Alias} :
    p.selectEntry = .ok a ↔ p.Distinct ∧ p.Designates a := by
  refine ⟨fun hselect => ?_, fun ⟨h, ha⟩ => selectEntry_of_designates h ha⟩
  rcases selectEntry_cases p with ⟨err, -, heq⟩ | ⟨h, ⟨b, hb, heq⟩ | ⟨err, -, heq⟩⟩
  · cases hselect.symm.trans heq
  · cases hselect.symm.trans heq
    exact ⟨h, hb⟩
  · cases hselect.symm.trans heq

theorem selectEntry_error_iff {p : Program} {err : SemanticError} :
    p.selectEntry = .error err ↔ p.BlamesRepetition err ∨ p.Distinct ∧ p.LacksEntry err := by
  constructor
  · intro hselect
    rcases selectEntry_cases p with ⟨err', herr, heq⟩ | ⟨h, ⟨b, -, heq⟩ | ⟨err', herr, heq⟩⟩
    · cases hselect.symm.trans heq
      exact .inl herr
    · cases hselect.symm.trans heq
    · cases hselect.symm.trans heq
      exact .inr ⟨h, herr⟩
  · rintro (herr | ⟨h, herr⟩)
    · exact selectEntry_of_blamesRepetition herr
    · exact selectEntry_of_lacksEntry h herr

theorem selectEntry_mem {p : Program} {a : Alias} (h : p.selectEntry = .ok a) : a ∈ p.aliases := by
  obtain ⟨-, ⟨e, -, -, ha⟩ | ⟨-, ha⟩⟩ := selectEntry_ok_iff.mp h
  · exact ha
  · exact ha ▸ List.mem_singleton_self a

end AliasLang.Program
