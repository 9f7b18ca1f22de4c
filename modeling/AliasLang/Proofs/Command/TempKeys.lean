/-
The life of temporary keys. The keys of a fragment are those of the temporary stores of the part it was compiled from,
in source order and each one once; a nested body hands its keys on and deletes none, and the body of an alias deletes
all of them with one command at its end. So no key is left over when the alias is finished.
-/
import AliasLang.Command.Program
import AliasLang.Proofs.Command.Run
import Mathlib.Data.List.Induction

namespace AliasLang.Command

open Program

/-! ## Keys in the order of their first insertion -/

namespace Keys

theorem ext {ks other : Keys} (h : ks.toList = other.toList) : ks = other := by
  cases ks
  cases other
  cases h
  rfl

/-- The keys of a list, each one where it occurs first. -/
def ofList (keys : List String) : Keys := keys.foldl insert .empty

theorem mem_insert {ks : Keys} {key k : String} : k ∈ (ks.insert key).toList ↔ k ∈ ks.toList ∨ k = key := by
  rw [toList_insert]
  split
  · rename_i h
    refine ⟨Or.inl, fun hk => hk.elim id ?_⟩
    rintro rfl
    exact h
  · simp

theorem insert_of_mem {ks : Keys} {key : String} (h : key ∈ ks.toList) : ks.insert key = ks :=
  ext (by rw [toList_insert, if_pos h])

theorem mem_foldl_insert {k : String} (keys : List String) : ∀ ks : Keys,
    k ∈ (keys.foldl insert ks).toList ↔ k ∈ ks.toList ∨ k ∈ keys := by
  induction keys with
  | nil => simp
  | cons key keys ih =>
    intro ks
    rw [List.foldl_cons, ih, mem_insert, List.mem_cons, or_assoc]

theorem mem_ofList {k : String} {keys : List String} : k ∈ (ofList keys).toList ↔ k ∈ keys := by
  rw [ofList, mem_foldl_insert]
  simp [empty]

theorem ofList_concat (keys : List String) (key : String) : ofList (keys ++ [key]) = (ofList keys).insert key := by
  rw [ofList, List.foldl_append]
  rfl

/-- A repeated key changes nothing, so the keys of a list can stand for the list. -/
theorem foldl_insert_ofList (keys : List String) (ks : Keys) :
    (ofList keys).toList.foldl insert ks = keys.foldl insert ks := by
  induction keys using List.reverseRecOn with
  | nil => rfl
  | append_singleton keys key ih =>
    rw [ofList_concat, toList_insert, List.foldl_append]
    split
    · rename_i h
      rw [ih]
      exact (insert_of_mem ((mem_foldl_insert keys ks).mpr (.inr (mem_ofList.mp h)))).symm
    · rw [List.foldl_append, ih]

theorem union_ofList (keys other : List String) : (ofList keys).union (ofList other) = ofList (keys ++ other) := by
  rw [union, foldl_insert_ofList, ofList, ofList, List.foldl_append]

theorem toList_ofList (keys : List String) : (ofList keys).toList = keys.eraseDups := by
  induction keys using List.reverseRecOn with
  | nil => rfl
  | append_singleton keys key ih =>
    rw [ofList_concat, toList_insert, ih, List.eraseDups_append]
    by_cases h : key ∈ keys
    · simp [List.removeAll, h]
    · simp [List.removeAll, h, List.eraseDups_cons]

theorem isEmpty_ofList {keys : List String} : (ofList keys).isEmpty = true ↔ keys = [] := by
  rw [isEmpty, List.isEmpty_iff, List.eq_nil_iff_forall_not_mem, List.eq_nil_iff_forall_not_mem]
  simp only [mem_ofList]

end Keys

/-! ## Temporary stores of a program -/

/-- The temporary stores of a chain, in order. -/
def tempStoresOfChain : List Link → List Store
  | [] => []
  | ⟨.store s, _⟩ :: rest => if s.isTemp then s :: tempStoresOfChain rest else tempStoresOfChain rest
  | ⟨.action _, _⟩ :: rest => tempStoresOfChain rest

mutual

/-- The temporary stores of an action, in source order: those of a nested body come before the ones after it. -/
def tempStoresOfAction : Action → List Store
  | .execute e => tempStoresOfChain e.chain
  | .compiled actions _ chain _ => tempStores actions ++ tempStoresOfChain chain

/-- The temporary stores of some actions, in source order. -/
def tempStores : List Action → List Store
  | [] => []
  | a :: rest => tempStoresOfAction a ++ tempStores rest

end

/-- The keys of some stores, as the script commands know them: with the prefix if and only if the store is local. -/
def resolvedKeys (scope : Scope) (stores : List Store) : List String :=
  stores.map fun s => scope.resolveKey s.key s.isLocal

theorem resolvedKeys_append (scope : Scope) (a b : List Store) :
    resolvedKeys scope (a ++ b) = resolvedKeys scope a ++ resolvedKeys scope b := List.map_append

/-- The fragment has the keys of the stores. -/
def Holds (scope : Scope) (stores : List Store) (f : Fragment) : Prop :=
  f.tempKeys = Keys.ofList (resolvedKeys scope stores)

/-- Nested bodies resolve keys as the body around them does. -/
theorem Holds.of_nested {scope : Scope} {stores : List Store} {f : Fragment} (h : Holds scope.nested stores f) :
    Holds scope stores f := h

theorem holds_nil {scope : Scope} {f : Fragment} (h : f.tempKeys = .empty) : Holds scope [] f := h

theorem Holds.append {scope : Scope} {a b : List Store} {f g : Fragment} (hf : Holds scope a f) (hg : Holds scope b g) :
    Holds scope (a ++ b) (f ++ g) := by
  show f.tempKeys.union g.tempKeys = _
  rw [hf, hg, Keys.union_ofList, resolvedKeys_append]

theorem Holds.push {scope : Scope} {a : List Store} {f : Fragment} (h : Holds scope a f) (text : String) :
    Holds scope a (f.push text) := h

theorem Holds.join {scope : Scope} {a b : List Store} {f g : Fragment} (hf : Holds scope a f) (hg : Holds scope b g) :
    Holds scope (a ++ b) (f.join g) := by
  unfold Fragment.join
  split
  · exact Holds.append (show Holds scope a ⟨f.commands ++ Fragment.barrier, f.tempKeys, f.warnings⟩ from hf) hg
  · exact hf.append hg

/-- A store adds its key if it is temporary. -/
theorem Holds.register {scope : Scope} {a : List Store} {f : Fragment} (h : Holds scope a f) (s : Store) :
    Holds scope (a ++ if s.isTemp then [s] else []) (register scope s f) := by
  unfold Command.register
  split
  · show f.tempKeys.insert _ = _
    rw [h, resolvedKeys_append, ← Keys.ofList_concat]
    rfl
  · rw [List.append_nil]
    exact h

/-! ## Keys of compiled parts -/

variable (co : Collaborators) (scope : Scope)

theorem importedText_meets (a : ScriptAction) : Meets (importedText co a) fun _ => True := by
  unfold importedText
  split
  · exact .pure trivial
  · split
    · exact .throw rfl
    · refine .bind (fetch_meets co _) fun answer _ => ?_
      split
      · exact .throw rfl
      · exact .pure trivial

theorem compileScript_meets (a : ScriptAction) : Meets (compileScript co scope a) (Holds scope []) := by
  unfold compileScript
  refine .bind (importedText_meets co a) fun imported _ => ?_
  refine .bind (transform_meets co _ _) fun answer _ => ?_
  split
  · exact .throw rfl
  · split
    · exact .throw rfl
    · exact .pure (holds_nil rfl)

/-- Only stores have keys. -/
theorem compileSimple_meets (a : Simple) : Meets (compileSimple co scope a) (Holds scope []) := by
  unfold compileSimple
  split
  · exact compileScript_meets co scope _
  · exact .pure (holds_nil rfl)
  · exact .pure (holds_nil rfl)
  · exact .pure (holds_nil rfl)
  · split
    · exact .pure (holds_nil rfl)
    · exact .pure (holds_nil rfl)

theorem compileRetrieve_meets (r : Retrieve) : Meets (compileRetrieve scope r) (Holds scope []) := by
  unfold compileRetrieve
  split
  · exact .pure (holds_nil rfl)
  · exact .ite (fun _ => .throw rfl) fun _ => .pure (holds_nil rfl)

theorem tempStoresOfChain_store (s : Store) (span : Source.Span) (rest : List Link) :
    tempStoresOfChain (⟨.store s, span⟩ :: rest) = (if s.isTemp then [s] else []) ++ tempStoresOfChain rest := by
  rw [tempStoresOfChain]
  split <;> rfl

theorem compileChain_meets (links : List Link) :
    Meets (compileChain co scope links) (Holds scope (tempStoresOfChain links)) := by
  induction links with
  | nil => exact .pure (holds_nil rfl)
  | cons l rest ih =>
    obtain ⟨step, span⟩ := l
    rw [compileChain]
    cases step with
    | store s =>
      rw [tempStoresOfChain_store]
      have hstore : Meets (compileStep co scope (.store s)) (Holds scope (if s.isTemp then [s] else [])) :=
        .pure (((holds_nil rfl : Holds scope [] .empty).register s).push _)
      exact .bind hstore fun f hf => .bind ih fun g hg => .pure (hf.append hg)
    | action a =>
      exact .bind (compileSimple_meets co scope a) fun f hf => .bind ih fun g hg => .pure (hf.append hg)

theorem compileExecute_meets (e : Execute) :
    Meets (compileExecute co scope e) (Holds scope (tempStoresOfChain e.chain)) := by
  have hrest : ∀ retrieved, Holds scope [] retrieved → Meets (do
      let action ← compileSimple co scope e.action
      return retrieved ++ action ++ (← compileChain co scope e.chain)) (Holds scope (tempStoresOfChain e.chain)) :=
    fun retrieved hr => .bind (compileSimple_meets co scope e.action) fun action ha =>
      .bind (compileChain_meets co scope e.chain) fun chain hc => .pure ((hr.append ha).append hc)
  unfold compileExecute
  split
  · exact .bind (compileRetrieve_meets scope _) hrest
  · exact hrest .empty (holds_nil rfl)

/-- A nested body keeps what its actions give, and nothing is deleted after it. -/
theorem discharge_nested (f : Fragment) : discharge scope.nested f = f := rfl

/-- The body of an alias has no keys left. -/
theorem discharge_root {scope : Scope} (h : scope.keepTempKeys = false) (f : Fragment) :
    (discharge scope f).tempKeys = .empty := by
  unfold discharge
  rw [h, Bool.false_or]
  split
  · rename_i hempty
    exact Keys.ext (List.isEmpty_iff.mp hempty)
  · rfl

/-- The keys of a nested body come before that of a store right after it; the other stores are still to come. -/
theorem embedPipeline_holds {stores : List Store} {inner : Fragment} (h : Holds scope stores inner) (embedded : String)
    (chain : List Link) :
    ∃ passed, passed ++ tempStoresOfChain (embedPipeline scope inner embedded chain).2 = tempStoresOfChain chain ∧
      Holds scope (stores ++ passed) (embedPipeline scope inner embedded chain).1 := by
  unfold embedPipeline
  split
  · rename_i s span rest
    have hkeys : Holds scope stores ⟨[], inner.tempKeys, inner.warnings⟩ := h
    exact ⟨_, (tempStoresOfChain_store s span rest).symm, (hkeys.register s).push _⟩
  · refine ⟨[], rfl, ?_⟩
    rw [List.append_nil]
    exact h

theorem compileBody_nested_meets {stores : List Store} (span : Source.Span) {fragments : List Fragment}
    (h : Holds scope stores (Fragment.joinAll fragments)) :
    Meets (compileBody scope.nested span fragments) (Holds scope stores) := by
  unfold compileBody
  simp only [discharge_nested]
  exact .ite (fun _ => .throw rfl) fun _ => .pure h

mutual

theorem compileAction_meets (scope : Scope) : ∀ a : Action,
    Meets (compileAction co scope a) (Holds scope (tempStoresOfAction a))
  | .execute e => by
    rw [compileAction, tempStoresOfAction]
    exact compileExecute_meets co scope e
  | .compiled actions bodySpan chain _ => by
    rw [compileAction, tempStoresOfAction]
    refine .ite (fun _ => .throw rfl) fun _ => ?_
    refine .bind (compileActions_meets scope.nested actions) fun fragments hfragments => ?_
    have hjoined : Holds scope (tempStores actions) (Fragment.joinAll fragments) :=
      (hfragments (holds_nil rfl : Holds scope.nested [] .empty)).of_nested
    refine .bind (compileBody_nested_meets scope bodySpan hjoined) fun inner hinner => ?_
    refine .bind (assembled_meets co scope.nested inner.commands) fun pipeline _ => ?_
    obtain ⟨passed, hpassed, hfragment⟩ := embedPipeline_holds scope hinner (Quoting.embedded pipeline) chain
    refine .bind (compileChain_meets co scope _) fun rest hrest => .pure ?_
    rw [← hpassed, ← List.append_assoc]
    exact hfragment.append hrest

/-- Joined after what holds some keys, the fragments add those of their actions. -/
theorem compileActions_meets (scope : Scope) : ∀ actions : List Action,
    Meets (compileActions co scope actions) fun fragments => ∀ {before : List Store} {f : Fragment},
      Holds scope before f → Holds scope (before ++ tempStores actions) (fragments.foldl Fragment.join f)
  | [] => by
    rw [compileActions]
    refine .pure fun hf => ?_
    rw [tempStores, List.append_nil]
    exact hf
  | a :: rest => by
    rw [compileActions]
    refine .bind (compileAction_meets scope a) fun g hg => ?_
    refine .bind (compileActions_meets scope rest) fun fragments hrest => .pure fun hf => ?_
    rw [tempStores, ← List.append_assoc]
    exact hrest (hf.join hg)

end

/-! ## Bodies of aliases and blocks -/

/-- A block whose body is no more than the joined fragments of its actions: nothing is deleted after them. -/
def undischargedBlock (actions : List Action) (bodySpan : Source.Span) (chain : List Link) : Compile Fragment := do
  if actions.isEmpty then throw (.semantic (.emptyBody bodySpan))
  let joined := Fragment.joinAll (← compileActions co scope.nested actions)
  if joined.isEmpty then throw (.semantic (.noCommands bodySpan))
  let pipeline ← assembled co scope.nested joined.commands
  let (fragment, links) := embedPipeline scope joined (Quoting.embedded pipeline) chain
  return fragment ++ (← compileChain co scope links)

theorem compileAction_block (actions : List Action) (bodySpan : Source.Span) (chain : List Link) (span : Source.Span) :
    compileAction co scope (.compiled actions bodySpan chain span) =
      undischargedBlock co scope actions bodySpan chain := by
  rw [compileAction, undischargedBlock]
  split
  · rfl
  · refine congrArg _ (funext fun fragments => ?_)
    unfold compileBody
    dsimp only
    split <;> rfl

theorem compileBody_ok {span : Source.Span} {fragments : List Fragment} {t t' : Trace} {f : Fragment}
    (h : runFrom (compileBody scope span fragments) t = (.ok f, t')) :
    f = discharge scope (Fragment.joinAll fragments) ∧ t' = t := by
  unfold compileBody at h
  dsimp only at h
  split at h
  · cases h
  · cases h
    exact ⟨rfl, rfl⟩

theorem compileRoot_ok {body : Body} {t t' : Trace} {f : Fragment}
    (h : runFrom (compileRoot co scope body) t = (.ok f, t')) :
    ∃ fragments, runFrom (compileActions co scope body.actions) t = (.ok fragments, t') ∧
      f = discharge scope (Fragment.joinAll fragments) := by
  unfold compileRoot at h
  split at h
  · cases h
  · obtain ⟨fragments, t₁, hfragments, hbody⟩ := runFrom_bind_ok h
    obtain ⟨rfl, rfl⟩ := compileBody_ok scope hbody
    exact ⟨fragments, hfragments, rfl⟩

/-- A key as it stands in the parameter of a command: each double quote has two backslashes before it. -/
def writtenKey (key : String) : String :=
  String.ofList (key.toList.flatMap fun c => if c = '"' then ['\\', '\\', '"'] else [c])

theorem keyLiteral_eq (key : String) : keyLiteral key = "\\\"" ++ writtenKey key ++ "\\\"" := rfl

/-- The code that deletes a key, in the parameter of a command. -/
def deletion (key : String) : String := "customData.set(\\\"" ++ writtenKey key ++ "\\\",undefined);"

theorem deletion_eq (key : String) : "customData.set(" ++ keyLiteral key ++ ",undefined);" = deletion key := by
  rw [keyLiteral_eq]
  unfold deletion
  apply String.toList_inj.mp
  simp

/-- The text of the command that deletes keys, one after the other, and hands the arguments on. -/
theorem dischargeCommand_eq (scope : Scope) (keys : List String) :
    dischargeCommand scope keys = "js " ++ (if scope.errorInfo then "errorInfo:true " else "") ++ "function:\"" ++
      (String.join (keys.map deletion) ++ "(args||[]).join(' ')") ++ "\"" := by
  simp only [dischargeCommand, scriptCommand, deletion_eq]

/-- The body of an alias ends with one deletion of all its keys, if it has any. -/
theorem discharge_commands {scope : Scope} (hroot : scope.keepTempKeys = false) {stores : List Store} {f : Fragment}
    (h : Holds scope stores f) :
    (discharge scope f).commands = f.commands ++
      if stores = [] then [] else [dischargeCommand scope (resolvedKeys scope stores).eraseDups] := by
  have hempty : f.tempKeys.isEmpty = true ↔ stores = [] := by
    rw [h, Keys.isEmpty_ofList, resolvedKeys, List.map_eq_nil_iff]
  unfold discharge
  rw [hroot, Bool.false_or]
  by_cases hs : stores = []
  · rw [if_pos (hempty.mpr hs), if_pos hs, List.append_nil]
  · rw [if_neg (mt hempty.mp hs), if_neg hs, h, Keys.toList_ofList]

theorem compileRoot_meets {scope : Scope} (hroot : scope.keepTempKeys = false) (body : Body) :
    Meets (compileRoot co scope body) fun f => f.tempKeys = .empty := by
  unfold compileRoot
  refine .ite (fun _ => .throw rfl) fun _ => .bind (compileActions_meets co scope body.actions) fun fragments _ => ?_
  unfold compileBody
  exact .ite (fun _ => .throw rfl) fun _ => .pure (discharge_root hroot _)

theorem compileAlias_meets (settings : Settings) (a : Alias) : Meets (compileAlias co settings a) fun _ => True := by
  refine .bind (compileRoot_meets co rfl a.body) fun f hf => ?_
  unfold finishAlias
  rw [hf]
  exact .bind (assembled_meets co _ _) fun _ _ => .pure trivial

/-- **Temporary keys are deleted once, at the end of their alias.** No alias fails because a key was left over. Where
the body compiles, its commands are those of its actions, followed by one deletion if and only if there is a temporary
store anywhere in the tree. Its script deletes every distinct key, one after the other in the order in which the stores
first name them, and a key has the prefix of the alias before it if and only if the store is local. No block deletes
anything: its body is its actions joined, with nothing after them. -/
theorem temp_keys_deleted_once (settings : Settings) (a : Alias) :
    (∀ t name keys, (runFrom (compileAlias co settings a) t).1 ≠ .error (.unclearedKeys name keys)) ∧
    (∀ t t' f, runFrom (compileRoot co (.ofAlias a settings) a.body) t = (.ok f, t') →
      ∃ fragments, runFrom (compileActions co (.ofAlias a settings) a.body.actions) t = (.ok fragments, t') ∧
        let keys := (tempStores a.body.actions).map fun s => if s.isLocal then a.keyPrefix.getD "" ++ s.key else s.key
        f.commands = (Fragment.joinAll fragments).commands ++
          if tempStores a.body.actions = [] then []
          else ["js " ++ (if settings.errorInfo then "errorInfo:true " else "") ++ "function:\"" ++
            (String.join (keys.eraseDups.map deletion) ++ "(args||[]).join(' ')") ++ "\""]) ∧
    ∀ scope actions bodySpan chain span, compileAction co scope (.compiled actions bodySpan chain span) =
      undischargedBlock co scope actions bodySpan chain := by
  refine ⟨fun t name keys he => ?_, fun t t' f h => ?_, fun scope => compileAction_block co scope⟩
  · have hmeets := compileAlias_meets co settings a t
    rw [he] at hmeets
    cases hmeets
  · obtain ⟨fragments, hfragments, rfl⟩ := compileRoot_ok co _ h
    refine ⟨fragments, hfragments, ?_⟩
    have hholds := (compileActions_meets co _ a.body.actions).ok hfragments (holds_nil rfl : Holds _ [] .empty)
    have hcommands := discharge_commands rfl hholds
    rw [dischargeCommand_eq] at hcommands
    exact hcommands

/-- A temporary store. -/
def storing (key : String) (isLocal : Bool) : List Link := [⟨.store ⟨key, true, isLocal, .origin⟩, .origin⟩]

/-- An alias that stores the local key `k` in a nested block, the key `k` after it, and the local one once more. -/
def storingAlias : Alias :=
  ⟨"thrice", some "p-",
    ⟨[.compiled [.execute ⟨none, .call ⟨none, "inner", .origin⟩, storing "k" true, .origin⟩] .origin (storing "k" false)
        .origin,
      .execute ⟨none, .say none .origin, storing "k" true, .origin⟩], .origin⟩, .origin⟩

/-- Its body compiles and ends with one deletion of the two keys, that of the block first. -/
theorem thrice_storing_alias_deletes :
    ∃ f t' fragments,
      runFrom (compileRoot (standalone fun _ => "") (.ofAlias storingAlias {}) storingAlias.body) {} = (.ok f, t') ∧
        f.commands = (Fragment.joinAll fragments).commands ++
          ["js errorInfo:true function:\"customData.set(\\\"p-k\\\",undefined);" ++
            "customData.set(\\\"k\\\",undefined);(args||[]).join(' ')\""] := by
  have hruns : (runFrom (compileRoot (standalone fun _ => "") (.ofAlias storingAlias {}) storingAlias.body) {}).1.isOk
      = true := by decide
  rcases hrun : runFrom (compileRoot (standalone fun _ => "") (.ofAlias storingAlias {}) storingAlias.body) {} with
    ⟨e | f, t'⟩
  · rw [hrun] at hruns
    cases hruns
  · obtain ⟨fragments, -, hcommands⟩ := (temp_keys_deleted_once (standalone fun _ => "") {} storingAlias).2.1 _ _ _ hrun
    exact ⟨f, t', fragments, rfl, hcommands.trans (congrArg _ (by decide))⟩

end AliasLang.Command
