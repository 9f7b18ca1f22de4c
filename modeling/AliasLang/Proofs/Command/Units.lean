/-
Bodies as the units of their actions. The fragment of a body is determined by what its actions compile to when each is
compiled by itself: those that have commands stand in order with a barrier between every two neighbours, silent ones
leave no trace among the commands, and keys and warnings are collected from all. The parts of one action follow each
other without a barrier.
-/
import AliasLang.Proofs.Command.Draws
import AliasLang.Proofs.Command.Success

namespace AliasLang.Command

open Program

/-! ## Keys -/

namespace Keys

theorem toList_ofList_of_nodup {keys : List String} (h : keys.Nodup) : (ofList keys).toList = keys := by
  induction keys using List.reverseRecOn with
  | nil => rfl
  | append_singleton keys key ih =>
    obtain ⟨hkeys, -, hkey⟩ := List.nodup_append.mp h
    have hnew : key ∉ keys := fun hmem => hkey key hmem key List.mem_cons_self rfl
    rw [ofList_concat, toList_insert, ih hkeys, if_neg hnew]

@[simp] theorem ofList_toList (ks : Keys) : ofList ks.toList = ks := ext (toList_ofList_of_nodup ks.nodup)

theorem union_eq_ofList (ks other : Keys) : ks.union other = ofList (ks.toList ++ other.toList) := by
  rw [← union_ofList, ofList_toList, ofList_toList]

/-- Keys that were collected before can be collected again. -/
theorem union_ofList_right (ks : Keys) (keys : List String) : ks.union (ofList keys) = ofList (ks.toList ++ keys) := by
  rw [← union_ofList, ofList_toList]

end Keys

/-! ## Units put together -/

/-- The keys that some units leave to be deleted, each where it occurs first. -/
def pendingKeys (units : List Fragment) : List String := (units.flatMap (·.tempKeys.toList)).eraseDups

namespace Fragment

theorem ext_toList {f g : Fragment} (hcommands : f.commands = g.commands)
    (hkeys : f.tempKeys.toList = g.tempKeys.toList) (hwarnings : f.warnings = g.warnings) : f = g := by
  obtain ⟨commands, keys, warnings⟩ := f
  obtain rfl : commands = _ := hcommands
  obtain rfl : keys = _ := Keys.ext hkeys
  obtain rfl : warnings = _ := hwarnings
  rfl

/-- Units one after the other. -/
def concat (units : List Fragment) : Fragment :=
  ⟨units.flatMap (·.commands), .ofList (units.flatMap (·.tempKeys.toList)), units.flatMap (·.warnings)⟩

theorem concat_cons (f : Fragment) (units : List Fragment) : concat (f :: units) = f ++ concat units := by
  show _ = (⟨_, f.tempKeys.union (Keys.ofList _), _⟩ : Fragment)
  rw [Keys.union_ofList_right]
  rfl

theorem empty_append (f : Fragment) : empty ++ f = f :=
  ext_toList rfl (congrArg Keys.toList (Keys.ofList_toList f.tempKeys)) rfl

theorem append_assoc (f g h : Fragment) : f ++ g ++ h = f ++ (g ++ h) := by
  have hkeys : (f.tempKeys.union g.tempKeys).union h.tempKeys = f.tempKeys.union (g.tempKeys.union h.tempKeys) := by
    rw [Keys.union_eq_ofList g.tempKeys, Keys.union_ofList_right, ← List.append_assoc, ← Keys.union_ofList,
      ← Keys.union_eq_ofList, Keys.ofList_toList]
  exact ext_toList (List.append_assoc _ _ _) (congrArg Keys.toList hkeys) (List.append_assoc _ _ _)

/-- The commands of some units with the pair `abb say`, `null` between every two neighbours that have any. -/
def separated (units : List Fragment) : List String :=
  ["abb say", "null"].intercalate ((units.map (·.commands)).filter (· ≠ []))

/-- A unit that is joined to what came before might as well stand next to it. -/
theorem separated_join (f g : Fragment) (units : List Fragment) :
    separated (f.join g :: units) = separated (f :: g :: units) := by
  simp only [separated, List.map_cons, commands_join, isEmpty, barrier]
  generalize (units.map (·.commands)) = rest
  -- joining writes a barrier only when both have commands
  by_cases hf : f.commands = []
  · simp [hf]
  · by_cases hg : g.commands = []
    · simp [hf, hg]
    · have hboth : f.commands ++ (["abb say", "null"] ++ g.commands) ≠ [] := by simp [hf]
      have hbarrier : (!g.commands.isEmpty && !f.commands.isEmpty) = true := by simp [hf, hg]
      simp only [hbarrier, if_true, ne_eq, List.filter_cons, hboth, hf, hg, not_false_eq_true, decide_true]
      cases rest.filter (¬ · = []) <;> simp

theorem tempKeys_join (f g : Fragment) : (f.join g).tempKeys = f.tempKeys.union g.tempKeys := by
  unfold join
  split <;> rfl

theorem warnings_join (f g : Fragment) : (f.join g).warnings = f.warnings ++ g.warnings := by
  unfold join
  split <;> rfl

/-- Units with barriers between them. -/
def spread (units : List Fragment) : Fragment :=
  ⟨separated units, .ofList (units.flatMap (·.tempKeys.toList)), units.flatMap (·.warnings)⟩

theorem spread_join (f g : Fragment) (units : List Fragment) :
    spread (f.join g :: units) = spread (f :: g :: units) := by
  have hkeys : Keys.ofList ((f.join g).tempKeys.toList ++ units.flatMap (·.tempKeys.toList)) =
      .ofList (f.tempKeys.toList ++ (g.tempKeys.toList ++ units.flatMap (·.tempKeys.toList))) := by
    rw [tempKeys_join, ← List.append_assoc, Keys.union_eq_ofList, ← Keys.union_ofList, Keys.ofList_toList,
      Keys.union_ofList]
  simp only [spread, separated_join, List.flatMap_cons, warnings_join, List.append_assoc, hkeys]

theorem foldl_join (units : List Fragment) : ∀ f : Fragment, units.foldl join f = spread (f :: units) := by
  induction units with
  | nil =>
    intro f
    refine ext_toList ?_ ?_ ?_
    · by_cases hf : f.commands = [] <;> simp [spread, separated, hf]
    · simp [spread]
    · simp [spread]
  | cons g units ih =>
    intro f
    -- what has been joined so far counts as one unit
    rw [List.foldl_cons, ih, spread_join]

theorem joinAll_eq_spread (units : List Fragment) : joinAll units = spread units := by
  rw [joinAll, foldl_join]
  rfl

end Fragment

/-! ## Parts compiled by themselves -/

/-- The parts compile to these units, each by itself: what the other parts asked of the collaborators is not known to
it, and of their draws only the number. -/
inductive Separately : Nat → List (Compile Fragment) → List Fragment → Prop
  | nil (drawn : Nat) : Separately drawn [] []
  | cons {drawn : Nat} {part : Compile Fragment} {unit : Fragment} {t : Trace} {parts : List (Compile Fragment)}
      {units : List Fragment} (hpart : runFrom part { drawn := drawn } = (.ok unit, t))
      (hparts : Separately t.drawn parts units) : Separately drawn (part :: parts) (unit :: units)

/-- The parts one after the other. -/
def inOrder : List (Compile Fragment) → Compile (List Fragment)
  | [] => return []
  | part :: parts => do
    let unit ← part
    return unit :: (← inOrder parts)

/-- Parts that follow each other do not get in each other's way. -/
theorem inOrder_ok_iff {mode : DelimiterMode} {parts : List (Compile Fragment)} (h : ∀ c ∈ parts, DrawsDecide mode c) :
    ∀ {t : Trace} {drawn : Nat} {units : List Fragment}, SameDraws mode t { drawn := drawn } →
      ((∃ t', runFrom (inOrder parts) t = (.ok units, t')) ↔ Separately drawn parts units) := by
  induction parts with
  | nil =>
    intro t drawn units _
    constructor
    · rintro ⟨t', hrun⟩
      cases hrun
      exact .nil drawn
    · rintro ⟨⟩
      exact ⟨t, rfl⟩
  | cons part parts ih =>
    rw [List.forall_mem_cons] at h
    intro t drawn units hdraws
    rw [inOrder]
    constructor
    · rintro ⟨t', hrun⟩
      obtain ⟨unit, t₁, hpart, hrun⟩ := runFrom_bind_ok hrun
      obtain ⟨more, t₂, hmore, hrun⟩ := runFrom_bind_ok hrun
      cases hrun
      -- the next part starts after the same draws as it does by itself
      obtain ⟨t₃, halone, hafter⟩ := h.1.again hdraws hpart
      exact .cons halone ((ih h.2 hafter).mp ⟨_, hmore⟩)
    · intro hunits
      cases hunits with
      | cons halone hparts =>
        obtain ⟨t₁, hpart, hafter⟩ := h.1.again hdraws.symm halone
        obtain ⟨t₂, hmore⟩ := (ih h.2 hafter.symm).mpr hparts
        refine ⟨t₂, ?_⟩
        rw [runFrom_bind, hpart]
        dsimp only
        rw [runFrom_bind, hmore]
        rfl

/-! ## Bodies -/

section
variable (co : Collaborators) (scope : Scope)

theorem compileActions_eq_inOrder (actions : List Action) :
    compileActions co scope actions = inOrder (actions.map (compileAction co scope)) := by
  induction actions with
  | nil => rw [compileActions, List.map_nil, inOrder]
  | cons a rest ih => rw [compileActions, List.map_cons, inOrder, ih]

/-- A deletion is due at the end of the body. -/
def DischargeDue (units : List Fragment) : Prop := scope.keepTempKeys = false ∧ pendingKeys units ≠ []

instance (units : List Fragment) : Decidable (DischargeDue scope units) := inferInstanceAs (Decidable (_ ∧ _))

/-- The fragment of a body whose actions have these units. Between every two neighbours among those that have commands
stands one pair of commands, and at the end the deletion of the keys if one is due. -/
structure IsBodyOf (units : List Fragment) (f : Fragment) : Prop where
  commands : f.commands = ["abb say", "null"].intercalate ((units.map (·.commands)).filter (· ≠ [])) ++
    if DischargeDue scope units then
      ["js " ++ (if scope.errorInfo then "errorInfo:true " else "") ++ "function:\"" ++
        (String.join ((pendingKeys units).map deletion) ++ "(args||[]).join(' ')") ++ "\""]
    else []
  tempKeys : f.tempKeys.toList = if DischargeDue scope units then [] else pendingKeys units
  warnings : f.warnings = units.flatMap (·.warnings)

theorem isBodyOf_discharge (units : List Fragment) :
    IsBodyOf scope units (discharge scope (Fragment.joinAll units)) := by
  have hkeys : (Fragment.spread units).tempKeys.toList = pendingKeys units := Keys.toList_ofList _
  have hkept : (scope.keepTempKeys || (Fragment.spread units).tempKeys.isEmpty) = true ↔
      ¬ DischargeDue scope units := by
    simp only [Keys.isEmpty, hkeys, DischargeDue, Bool.or_eq_true, List.isEmpty_iff, not_and_or, Bool.not_eq_false,
      not_not]
  rw [Fragment.joinAll_eq_spread, discharge]
  by_cases hdue : DischargeDue scope units
  · rw [if_neg (fun h => hkept.mp h hdue)]
    exact ⟨by rw [if_pos hdue, hkeys, dischargeCommand_eq]; rfl, by rw [if_pos hdue]; rfl, rfl⟩
  · rw [if_pos (hkept.mpr hdue)]
    exact ⟨by rw [if_neg hdue, List.append_nil]; rfl, by rw [if_neg hdue, hkeys], rfl⟩

theorem isBodyOf_iff {units : List Fragment} {f : Fragment} :
    IsBodyOf scope units f ↔ f = discharge scope (Fragment.joinAll units) := by
  have hbody := isBodyOf_discharge scope units
  constructor
  · rintro ⟨hcommands, hkeys, hwarnings⟩
    refine Fragment.ext_toList ?_ ?_ ?_
    · rw [hcommands, hbody.commands]
    · rw [hkeys, hbody.tempKeys]
    · rw [hwarnings, hbody.warnings]
  · rintro rfl
    exact hbody

theorem isEmpty_joinAll_eq_false {units : List Fragment} :
    (Fragment.joinAll units).isEmpty = false ↔ ∃ u ∈ units, u.commands ≠ [] := by
  rw [Fragment.joinAll, Fragment.isEmpty_foldl_join]
  simp [Fragment.isEmpty, Fragment.empty]

theorem compileBody_ok_iff {span : Source.Span} {units : List Fragment} {t : Trace} {f : Fragment} :
    (runFrom (compileBody scope span units) t).1 = .ok f ↔ (∃ u ∈ units, u.commands ≠ []) ∧ IsBodyOf scope units f := by
  rw [← isEmpty_joinAll_eq_false, isBodyOf_iff, compileBody]
  dsimp only
  cases (Fragment.joinAll units).isEmpty with
  | true => exact iff_of_false (fun h => by cases h) fun h => by cases h.1
  | false => exact ⟨fun h => ⟨rfl, (Except.ok.inj h).symm⟩, fun h => congrArg Except.ok h.2.symm⟩

/-- A body compiles if its actions do and one of them gives a command. -/
theorem compileRoot_ok_iff {body : Body} {t : Trace} {f : Fragment} :
    (runFrom (compileRoot co scope body) t).1 = .ok f ↔
      ∃ units, (∃ t', runFrom (compileActions co scope body.actions) t = (.ok units, t')) ∧
        (∃ u ∈ units, u.commands ≠ []) ∧ IsBodyOf scope units f := by
  rw [compileRoot]
  split
  · rename_i hempty
    refine iff_of_false (fun h => by cases h) ?_
    rintro ⟨units, ⟨t', hrun⟩, ⟨u, hu, -⟩, -⟩
    rw [List.isEmpty_iff.mp hempty, compileActions] at hrun
    cases hrun
    cases hu
  · rw [runFrom_bind]
    rcases runFrom (compileActions co scope body.actions) t with ⟨e | units, t'⟩
    · refine iff_of_false (fun h => by cases h) ?_
      rintro ⟨units, ⟨t', hrun⟩, -⟩
      cases hrun
    · rw [compileBody_ok_iff]
      constructor
      · exact fun h => ⟨units, ⟨t', rfl⟩, h⟩
      · rintro ⟨units', ⟨t'', hrun⟩, h⟩
        cases hrun
        exact h

/-! ## Actions that run something -/

/-- The parts of an action that runs something, in order: what it retrieves, what it runs, and the links after that. -/
def executeParts (e : Execute) : List (Compile Fragment) :=
  e.retrieve.toList.map (compileRetrieve scope) ++
    compileSimple co scope e.action :: e.chain.map (fun l => compileStep co scope l.step)

theorem compileChain_eq_inOrder (links : List Link) :
    compileChain co scope links =
      Fragment.concat <$> inOrder (links.map fun l => compileStep co scope l.step) := by
  induction links with
  | nil => rfl
  | cons l rest ih =>
    simp only [compileChain, ih, List.map_cons, inOrder, map_bind, map_pure, bind_map_left, Fragment.concat_cons]

theorem compileExecute_eq_inOrder (e : Execute) :
    compileExecute co scope e = Fragment.concat <$> inOrder (executeParts co scope e) := by
  obtain ⟨retrieve, action, links, span⟩ := e
  have hrest : ∀ f : Fragment, (do
      let g ← compileSimple co scope action
      return f ++ g ++ (← compileChain co scope links)) =
      (fun units => f ++ Fragment.concat units) <$>
        inOrder (compileSimple co scope action :: links.map fun l => compileStep co scope l.step) := by
    intro f
    simp only [compileChain_eq_inOrder, inOrder, map_bind, map_pure, bind_map_left, Fragment.concat_cons,
      Fragment.append_assoc]
  unfold compileExecute executeParts
  cases retrieve with
  | none =>
    refine (hrest .empty).trans ?_
    simp only [Fragment.empty_append, Option.toList_none, List.map_nil, List.nil_append]
  | some r =>
    simp only [hrest, Option.toList_some, List.map_cons, List.map_nil, List.singleton_append, inOrder, map_bind,
      map_pure, bind_assoc, pure_bind, Fragment.concat_cons]

theorem executeParts_drawsDecide (e : Execute) : ∀ c ∈ executeParts co scope e, DrawsDecide scope.delimiter c := by
  rw [executeParts, List.forall_mem_append, List.forall_mem_cons, List.forall_mem_map, List.forall_mem_map]
  exact ⟨fun r _ => compileRetrieve_drawsDecide _ scope r, compileSimple_drawsDecide co _ scope e.action,
    fun l _ => compileStep_drawsDecide co _ scope l.step⟩

theorem compileExecute_ok_iff {e : Execute} {t : Trace} {f : Fragment} :
    (runFrom (compileExecute co scope e) t).1 = .ok f ↔
      ∃ units, (∃ t', runFrom (inOrder (executeParts co scope e)) t = (.ok units, t')) ∧ f = Fragment.concat units := by
  rw [compileExecute_eq_inOrder, map_eq_pure_bind, runFrom_bind]
  rcases runFrom (inOrder (executeParts co scope e)) t with ⟨e | units, t'⟩
  · refine iff_of_false (fun h => by cases h) ?_
    rintro ⟨units, ⟨t', hrun⟩, -⟩
    cases hrun
  · constructor
    · exact fun h => ⟨units, ⟨t', rfl⟩, (Except.ok.inj h).symm⟩
    · rintro ⟨units', ⟨t'', hrun⟩, rfl⟩
      cases hrun
      rfl

theorem eq_concat_iff {units : List Fragment} {f : Fragment} : f = Fragment.concat units ↔
    f.commands = units.flatMap (·.commands) ∧ f.tempKeys.toList = pendingKeys units ∧
      f.warnings = units.flatMap (·.warnings) := by
  have hkeys : (Fragment.concat units).tempKeys.toList = pendingKeys units := Keys.toList_ofList _
  rw [← hkeys]
  constructor
  · rintro rfl
    exact ⟨rfl, rfl, rfl⟩
  · rintro ⟨hcommands, hkeys, hwarnings⟩
    exact Fragment.ext_toList hcommands hkeys hwarnings

/-- **A body is made of the units of its actions.** Under every scope and after every trace, a body compiles to `f` if
and only if its actions compile, each by itself, to units that make up `f`: one of them gives a command; the commands of
`f` are those of the units in order, with `abb say` and `null` between every two neighbours among the units that have
any, and at the end the deletion if one is due; the keys are those of the units, each where it occurs first; and the
warnings are those of the units in order. In the same way an action that runs something compiles to what its parts
compile to by themselves, one after the other and with nothing between them. -/
theorem body_made_of_separate_units :
    (∀ body t f, (runFrom (compileRoot co scope body) t).1 = .ok f ↔
      ∃ units, Separately t.drawn (body.actions.map (compileAction co scope)) units ∧
        (∃ u ∈ units, u.commands ≠ []) ∧ IsBodyOf scope units f) ∧
    ∀ e t f, (runFrom (compileExecute co scope e) t).1 = .ok f ↔
      ∃ units, Separately t.drawn (executeParts co scope e) units ∧
        f.commands = units.flatMap (·.commands) ∧ f.tempKeys.toList = pendingKeys units ∧
          f.warnings = units.flatMap (·.warnings) := by
  constructor
  · intro body t f
    have hactions : ∀ c ∈ body.actions.map (compileAction co scope), DrawsDecide scope.delimiter c :=
      List.forall_mem_map.mpr fun a _ => compileAction_drawsDecide co scope a
    rw [compileRoot_ok_iff, compileActions_eq_inOrder]
    simp only [inOrder_ok_iff hactions (.inr rfl : SameDraws scope.delimiter t { drawn := t.drawn })]
  · intro e t f
    rw [compileExecute_ok_iff]
    simp only [inOrder_ok_iff (executeParts_drawsDecide co scope e)
      (.inr rfl : SameDraws scope.delimiter t { drawn := t.drawn }), eq_concat_iff]

end

/-- Silent units leave no barrier, wherever they stand. -/
example : (Fragment.joinAll [.empty, .command "a", .empty, .empty, .ofCommands ["b", "c"], .empty]).commands =
    ["a", "abb say", "null", "b", "c"] := by
  decide

end AliasLang.Command
