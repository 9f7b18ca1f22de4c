/-
Where the parser stops. Each production looks one token ahead and blames the token after a viable prefix: tokens that
some sentence of the production starts with. At `get` the parser looks two tokens ahead, to tell a block from a
retrieval, but it never blames a `get` for what follows it.
-/
import AliasLang.Proofs.Program.Lookahead
import AliasLang.Proofs.Program.ParserGrammar
import Mathlib.Data.List.Basic

namespace AliasLang.Program

open Source (Span)
open Token (Kind Keyword)
open Grammar

/-! ## Sentences without an end of input -/

theorem Grammar.Ident.ne_endOfInput {name : String} {k : Kind} (h : Ident name k) : k ≠ .endOfInput := by
  cases h <;> simp

theorem Grammar.flag_no_end (k : Keyword) (b : Bool) : .endOfInput ∉ flag k b := by
  cases b <;> simp [flag]

theorem Grammar.SimpleForm.no_end {a : Simple} {ks : List Kind} (h : SimpleForm a ks) : .endOfInput ∉ ks := by
  cases h with
  | script raw hi => cases hi <;> simp
  | commands word first further => simp [Grammar.furtherCommands]
  | sayNothing => simp
  | say text => simp
  | call ht => simpa using ht.ne_endOfInput.symm
  | callOf user ht => simpa using ht.ne_endOfInput.symm

theorem Grammar.ChainForm.no_end {links : List Link} {ks : List Kind} (h : ChainForm links ks) : .endOfInput ∉ ks := by
  induction h with
  | nothing => simp
  | store key isTemp isLocal => simp [flag_no_end]
  | action ha _ ih => simp [ha.no_end, ih]

theorem Grammar.RetrieveForm.no_end {r : Retrieve} {ks : List Kind} (h : RetrieveForm r ks) : .endOfInput ∉ ks := by
  cases h with
  | key key isLocal => simp [flag_no_end]
  | argument literal => simp

mutual

theorem Grammar.ActionForm.no_end : ∀ {a : Action} {ks : List Kind}, ActionForm a ks → .endOfInput ∉ ks
  | _, _, .execute ha hc => by simp [ha.no_end, hc.no_end]
  | _, _, .retrieved hr ha hc => by simp [hr.no_end, ha.no_end, hc.no_end]
  | _, _, .compiled hb hc => by simp [Grammar.BodyForm.no_end hb, hc.no_end]

theorem Grammar.BodyForm.no_end : ∀ {as : List Action} {ks : List Kind}, BodyForm as ks → .endOfInput ∉ ks
  | _, _, .nil => by simp
  | _, _, .cons ha hr => by simp [Grammar.ActionForm.no_end ha, Grammar.BodyForm.no_end hr]

end

theorem Grammar.DeclarationsForm.no_end {ds : List Declaration} {ks : List Kind} (h : DeclarationsForm ds ks) :
    .endOfInput ∉ ks := by
  induction h with
  | nil => simp
  | cons hd _ ih =>
    refine List.not_mem_append ?_ ih
    cases hd with
    | entry hn => simpa using hn.ne_endOfInput.symm
    | define hn hp hb => cases hp <;> simp [hn.ne_endOfInput.symm, hb.no_end]

/-! ## Viable prefixes -/

/-- Some sentence of the form starts with `xs`. -/
def Viable {α : Type} (form : α → List Kind → Prop) (xs : List Kind) : Prop := ∃ a ks, form a ks ∧ xs <+: ks

/-- A form that stands inside another one, after `pre`. -/
theorem Viable.inside {α β : Type} {form : α → List Kind → Prop} {outer : β → List Kind → Prop} (pre : List Kind)
    (h : ∀ a ks, form a ks → Viable outer (pre ++ ks)) {xs : List Kind} (hxs : Viable form xs) :
    Viable outer (pre ++ xs) := by
  obtain ⟨a, ks, ha, hks⟩ := hxs
  obtain ⟨b, js, hb, hjs⟩ := h a ks ha
  exact ⟨b, js, hb, ((List.prefix_append_right_inj pre).mpr hks).trans hjs⟩

/-! ## Simple actions -/

section
variable {s : Stream} {span : Span}

theorem scriptAction_diagnoses :
    Diagnoses (fun s => Reading.outcome (scriptAction span s))
      (fun xs => Viable SimpleForm (.keyword .js :: xs)) s := by
  simp only [scriptAction, outcome_reading_andThen, outcome_toReading, outcome_taking_andThen, outcome_done]
  refine .takeFlag fun isImport t => ?_
  cases isImport with
  | false =>
    simp only [scriptAction.importRef, Bool.false_eq_true, if_false, outcome_done, ok_bind]
    refine .take (fun _ => ⟨_, _, .script "" .absent, [.script ""], rfl⟩) fun k raw scriptSpan u hk _ => ?_
    dsimp only
    exact .pure _
  | true =>
    simp only [scriptAction.importRef, if_true, outcome_toReading, outcome_taking_andThen, outcome_done, bind_assoc,
      ok_bind]
    refine .take (fun _ => ⟨_, _, .script "" (.present ""), [.string "", .script ""], rfl⟩) fun k id idSpan u hk _ => ?_
    obtain rfl := stringValue?_eq_some hk
    dsimp only
    refine .take (fun _ => ⟨_, _, .script "" (.present id), [.script ""], rfl⟩) fun k raw scriptSpan v hk _ => ?_
    dsimp only
    exact .pure _

theorem furtherCommands_diagnoses :
    Diagnoses (fun s => Reading.outcome (Program.furtherCommands s))
      (Viable fun cs ks => ks = Grammar.furtherCommands cs) s := by
  induction hn : s.size using Nat.strongRecOn generalizing s with
  | _ n ih =>
    subst hn
    simp only [funext outcome_furtherCommands]
    refine .takeOptional (fun _ => .pure []) fun k a barSpan t hk ht => ?_
    obtain rfl := eq_of_exactly hk
    dsimp only
    refine .take (fun _ => ⟨[""], _, rfl, [.string ""], rfl⟩) fun k c cSpan u hk hu => ?_
    obtain rfl := stringValue?_eq_some hk
    dsimp only
    refine .bind (Diagnoses.mono (ih u.size (by omega) rfl) fun xs hxs => ?_) fun cs v xs _ _ => ?_
    · exact hxs.inside [.bar, .string c] fun cs ks h => ⟨c :: cs, _, rfl, [], by simp [h, Grammar.furtherCommands]⟩
    · dsimp only
      exact .pure _

theorem commandList_diagnoses {word : CommandWord} :
    Diagnoses (fun s => Reading.outcome (commandList word span s))
      (fun xs => Viable SimpleForm (.keyword (commandKeyword word) :: xs)) s := by
  simp only [commandList, outcome_reading_andThen, outcome_toReading, outcome_taking_andThen, outcome_done]
  refine .take (fun _ => ⟨_, _, .commands word "" [], [.string ""], rfl⟩) fun k first firstSpan t hk _ => ?_
  obtain rfl := stringValue?_eq_some hk
  dsimp only
  refine .bind (furtherCommands_diagnoses.mono fun xs hxs => ?_) fun cs v xs _ _ => ?_
  · exact hxs.inside [.keyword (commandKeyword word), .string first] fun cs ks h =>
      ⟨_, _, .commands word first cs, [], by simp [h]⟩
  · dsimp only
    exact .pure _

theorem sayAction_diagnoses {K : List Kind → Prop} :
    Diagnoses (fun s => Reading.outcome (sayAction span s)) K s := by
  simp only [sayAction, outcome_reading_andThen, outcome_done]
  refine .takeOptional (fun _ => ?_) fun _ _ _ _ _ _ => ?_
  · dsimp only
    exact .pure _
  · dsimp only
    exact .pure _

theorem callAction_diagnoses :
    Diagnoses (fun s => Reading.outcome (callAction span s))
      (fun xs => Viable SimpleForm (.keyword .call :: xs)) s := by
  simp only [callAction, outcome_reading_andThen, outcome_toReading, outcome_taking_andThen, outcome_done]
  refine .takeOptional (fun _ => ?_) fun k user userSpan t hk _ => ?_
  · dsimp only
    refine .take (fun _ => ⟨_, _, .call (.identifier ""), [.identifier ""], rfl⟩) fun _ _ _ _ _ _ => ?_
    dsimp only
    exact .pure _
  · obtain rfl := userName?_eq_some hk
    dsimp only
    refine .take (fun _ => ⟨_, _, .callOf user (.identifier ""), [.identifier ""], rfl⟩) fun _ _ _ _ _ _ => ?_
    dsimp only
    exact .pure _

theorem simpleAction_diagnoses {production : Production} :
    Diagnoses (fun s => Taking.outcome (simpleAction production s)) (Viable SimpleForm) s := by
  simp only [simpleAction, outcome_taking_andThen]
  refine .take (fun _ => ⟨_, _, .sayNothing, [.keyword .say], rfl⟩) fun k word span t hk _ => ?_
  obtain rfl := simpleWord?_eq_some.mp hk
  cases word with
  | script => exact scriptAction_diagnoses
  | commands word => exact commandList_diagnoses
  | say => exact sayAction_diagnoses
  | call => exact callAction_diagnoses

end

/-! ## Chains -/

section
variable {s : Stream} {span : Span}

theorem storeLink_diagnoses :
    Diagnoses (fun s => Reading.outcome (storeLink span s))
      (fun xs => Viable ChainForm (.arrow :: .keyword .set :: xs)) s := by
  simp only [storeLink, outcome_reading_andThen, outcome_toReading, outcome_taking_andThen, apply_ite Reading.outcome,
    outcome_done, outcome_reading_error]
  refine .takeFlag fun isTemp t => ?_
  dsimp only
  refine .takeFlag fun isLocal u => ?_
  dsimp only
  refine .take (fun _ => ⟨_, _, .store "" isTemp isLocal, [.string ""], by simp⟩) fun k key keySpan v hk _ => ?_
  obtain rfl := stringValue?_eq_some hk
  dsimp only
  refine .ite (fun token => token.kind = .arrow) (fun _ => ?_) fun _ => ?_
  · exact .unmet _ _ ⟨_, _, .store key isTemp isLocal, [], by simp⟩
  · refine .seeing (fun _ last v => .ok ((⟨.store ⟨key, isTemp, isLocal, span.join keySpan⟩,
      span.join (last.getD span)⟩ : Link), v)) ?_
    exact .pure _

theorem chain_diagnoses : Diagnoses (fun s => Reading.outcome (chain s)) (Viable ChainForm) s := by
  induction hn : s.size using Nat.strongRecOn generalizing s with
  | _ n ih =>
    subst hn
    simp only [funext outcome_chain]
    refine .takeOptional (fun _ => .pure []) fun k a arrowSpan t hk ht => ?_
    obtain rfl := eq_of_exactly hk
    dsimp only
    -- the place of the first token of the link goes into the answer
    refine .seeing (fun token _ t => if t.current.kind = .keyword .set then
        Taking.outcome (takeKind (.keyword .set) .continued t) >>= fun word =>
          Reading.outcome (storeLink token.span word.2) >>= fun link => .ok ([link.1], link.2)
      else
        Taking.outcome (simpleAction .continued t) >>= fun a =>
          Reading.outcome (chain a.2) >>= fun rest =>
            .ok (actionLink token.span (a.2.lastSpan token.span) a.1 rest.1 :: rest.1, rest.2)) ?_
    refine .ite (fun token => token.kind = .keyword .set) (fun hset => ?_) fun hset => ?_
    · refine .take (fun _ => ⟨_, _, .store "" false false, [.keyword .set, .string ""], rfl⟩)
        fun k a setSpan u hk _ => ?_
      obtain rfl := eq_of_exactly hk
      dsimp only
      refine .bind storeLink_diagnoses fun link v xs _ _ => ?_
      dsimp only
      exact .pure _
    · refine .bind (simpleAction_diagnoses.mono fun xs hxs => ?_) fun a u xs ha hxs => ?_
      · exact hxs.inside [.arrow] fun a ks h => ⟨_, _, .action h .nothing, [], by simp⟩
      obtain ⟨ks, hks, hform⟩ := simpleAction_sound ha
      obtain rfl : xs = ks := List.append_cancel_right (hxs.symm.trans hks)
      have hu := Taking.shorter ha
      dsimp only
      refine .seeing (fun _ last u => Reading.outcome (chain u) >>= fun rest =>
        .ok (actionLink t.current.span (last.getD t.current.span) a rest.1 :: rest.1, rest.2)) ?_
      refine .bind (Diagnoses.mono (ih u.size (by omega) rfl) fun ys hys => ?_) fun rest v ys _ _ => ?_
      · exact hys.inside (.arrow :: xs) fun links js h => ⟨_, _, .action hform h, [], by simp⟩
      · dsimp only
        exact .pure _

end

/-! ## Actions and bodies -/

/-- An action with room for `room` nested blocks. -/
def ActionWithin (room : Nat) (a : Action) (ks : List Kind) : Prop := ActionForm a ks ∧ a.nesting ≤ room

/-- Actions with room for `room` nested blocks. -/
def BodyWithin (room : Nat) (actions : List Action) (ks : List Kind) : Prop :=
  BodyForm actions ks ∧ nestingOf actions ≤ room

/-- A declaration that nests no deeper than the parser has room for. -/
def DeclarationWithin (d : Declaration) (ks : List Kind) : Prop := DeclarationForm d ks ∧ d.nesting ≤ maxNesting

section
variable {s : Stream} {room : Nat}

/-- What follows a retrieval `pre`, or nothing. -/
theorem executed_diagnoses (room : Nat) {retrieve : Option Retrieve} {span : Span} (pre : List Kind)
    (hpre : ∀ {a ks links js}, SimpleForm a ks → ChainForm links js → Viable (ActionWithin room) (pre ++ (ks ++ js))) :
    Diagnoses (fun s => Taking.outcome (simpleAction .execute s) >>= fun a =>
        Reading.outcome (chain a.2) >>= fun links =>
          .ok (Action.execute ⟨retrieve, a.1, links.1, span.join (chainEnd a.1.span links.1)⟩, links.2))
      (fun xs => Viable (ActionWithin room) (pre ++ xs)) s := by
  refine .bind (simpleAction_diagnoses.mono fun xs hxs => ?_) fun a t xs ha hxs => ?_
  · refine hxs.inside pre fun a ks h => ?_
    have hviable := hpre h .nothing
    rwa [List.append_nil] at hviable
  obtain ⟨ks, hks, hform⟩ := simpleAction_sound ha
  obtain rfl : xs = ks := List.append_cancel_right (hxs.symm.trans hks)
  dsimp only
  refine .bind (chain_diagnoses.mono fun ys hys => ?_) fun links u ys _ _ => ?_
  · have hviable := hys.inside (pre ++ xs) fun links js hc => by
      rw [List.append_assoc]
      exact hpre hform hc
    rwa [List.append_assoc] at hviable
  · dsimp only
    exact .pure _

theorem executeAction_diagnoses :
    Diagnoses (fun s => Taking.outcome (executeAction s))
      (fun xs => (xs = [] → s.current.kind ≠ .keyword .get) ∧ Viable (ActionWithin room) xs) s := by
  simp only [funext outcome_executeAction]
  refine .seeing (fun token _ s => Reading.outcome (retrieval s) >>= fun retrieve =>
    Taking.outcome (simpleAction .execute retrieve.2) >>= fun a =>
      Reading.outcome (chain a.2) >>= fun links =>
        .ok (Action.execute ⟨retrieve.1, a.1, links.1, token.span.join (chainEnd a.1.span links.1)⟩, links.2)) ?_
  simp only [retrieval, outcome_reading_andThen, bind_assoc]
  refine .takeOptional (fun _ => ?_) fun k literal span t hk _ => ?_
  · simp only [outcome_reading_andThen, bind_assoc]
    refine .takeOptional (fun hget => ?_) fun k a span t hk _ => ?_
    · -- no retrieval
      simp only [outcome_done, ok_bind]
      refine Diagnoses.mono (executed_diagnoses room [] fun ha hc =>
        ⟨_, _, ⟨.execute ha hc, Nat.zero_le _⟩, List.prefix_rfl⟩) fun xs hxs => ?_
      refine ⟨fun _ hkind => ?_, hxs⟩
      obtain ⟨ks, hks⟩ := kinds_eq_cons_of_current hkind (by decide)
      have hnone := hget (.keyword .get) (by rw [hks]; rfl)
      rw [exactly_self] at hnone
      cases hnone
    · obtain rfl := eq_of_exactly hk
      simp only [outcome_reading_andThen, outcome_toReading, outcome_taking_andThen, bind_assoc, retrieval.arrowAfter,
        outcome_done, ok_bind]
      refine .takeFlag fun isLocal u => ?_
      dsimp only
      refine .take (fun _ => ⟨by simp, _, _, ⟨.retrieved (.key "" isLocal) .sayNothing .nothing, Nat.zero_le _⟩,
        [.string "", .arrow, .keyword .say], by simp⟩) fun k key keySpan v hk _ => ?_
      obtain rfl := stringValue?_eq_some hk
      dsimp only
      refine .take (fun _ => ⟨by simp, _, _, ⟨.retrieved (.key key isLocal) .sayNothing .nothing, Nat.zero_le _⟩,
        [.arrow, .keyword .say], by simp⟩) fun k a arrowSpan w hk _ => ?_
      obtain rfl := eq_of_exactly hk
      dsimp only
      refine Diagnoses.mono (executed_diagnoses room (.keyword .get :: (flag .local_ isLocal ++ [.string key, .arrow]))
        fun ha hc => ⟨_, _, ⟨.retrieved (.key key isLocal) ha hc, Nat.zero_le _⟩, [], by simp⟩)
        fun xs hxs => ⟨by simp, ?_⟩
      simpa using hxs
  · obtain rfl := argumentLiteral?_eq_some hk
    simp only [retrieval.arrowAfter, outcome_toReading, outcome_taking_andThen, outcome_done, bind_assoc, ok_bind]
    refine .take (fun _ => ⟨by simp, _, _, ⟨.retrieved (.argument literal) .sayNothing .nothing, Nat.zero_le _⟩,
      [.arrow, .keyword .say], rfl⟩) fun k a arrowSpan u hk _ => ?_
    obtain rfl := eq_of_exactly hk
    dsimp only
    exact Diagnoses.mono (executed_diagnoses room [.argument literal, .arrow] fun ha hc =>
      ⟨_, _, ⟨.retrieved (.argument literal) ha hc, Nat.zero_le _⟩, List.prefix_rfl⟩) fun xs hxs => ⟨by simp, hxs⟩

theorem actionsUntilEnd_diagnoses {action : (s : Stream) → Taking Action s} {production : Production}
    (hact : ∀ s, Diagnoses (fun s => Taking.outcome (action s)) (Viable (ActionWithin room)) s)
    (hsound : ∀ {s t a}, Taking.outcome (action s) = .ok (a, t) →
      ∃ ks, s.kinds = ks ++ t.kinds ∧ ActionForm a.erase ks ∧ a.nesting ≤ room) :
    Diagnoses (fun s => Reading.outcome (actionsUntilEnd action production s)) (Viable (BodyWithin room)) s := by
  induction hn : s.size using Nat.strongRecOn generalizing s with
  | _ n ih =>
    subst hn
    simp only [funext (outcome_actionsUntilEnd action production)]
    refine .ite (fun token => token.kind = .keyword .end_) (fun _ => .pure []) fun _ => ?_
    refine .ite (fun token => (!startsAction token.kind) = true) (fun _ => ?_) fun _ => ?_
    · exact .unmet _ _ ⟨_, _, ⟨.nil, Nat.zero_le _⟩, List.prefix_rfl⟩
    refine .bind ((hact s).mono fun xs hxs => ?_) fun a t xs ha hxs => ?_
    · refine hxs.inside [] fun a ks ⟨h, hnest⟩ => ⟨[a], _, ⟨.cons h .nil, ?_⟩, [], by simp⟩
      simpa [nestingOf] using hnest
    obtain ⟨ks, hks, hform, hnest⟩ := hsound ha
    obtain rfl : xs = ks := List.append_cancel_right (hxs.symm.trans hks)
    have ht := Taking.shorter ha
    dsimp only
    refine .bind (Diagnoses.mono (ih t.size ht rfl) fun ys hys => ?_) fun rest u ys _ _ => ?_
    · refine hys.inside xs fun rest js ⟨h, hrest⟩ => ⟨_, _, ⟨.cons hform h, ?_⟩, [], by simp⟩
      rw [nestingOf, Action.nesting_erase]
      omega
    · dsimp only
      exact .pure _

theorem bodyOf_diagnoses {action : (s : Stream) → Taking Action s} {production : Production}
    (hact : ∀ s, Diagnoses (fun s => Taking.outcome (action s)) (Viable (ActionWithin room)) s)
    (hsound : ∀ {s t a}, Taking.outcome (action s) = .ok (a, t) →
      ∃ ks, s.kinds = ks ++ t.kinds ∧ ActionForm a.erase ks ∧ a.nesting ≤ room) :
    Diagnoses (fun s => Reading.outcome (bodyOf action production s)) (Viable (BodyWithin room)) s := by
  simp only [bodyOf, outcome_reading_andThen, outcome_done]
  refine .seeing (fun token _ s => Reading.outcome (actionsUntilEnd action production s) >>= fun p =>
    .ok ((⟨p.1, token.span.join (if p.1.isEmpty then token.span else p.2.lastSpan token.span)⟩ : Body), p.2)) ?_
  refine .bind (actionsUntilEnd_diagnoses hact hsound) fun actions t xs _ _ => ?_
  refine .seeing (fun _ last t => .ok ((⟨actions, s.current.span.join
    (if actions.isEmpty then s.current.span else last.getD s.current.span)⟩ : Body), t)) ?_
  exact .pure _

/-! ### Two tokens ahead -/

theorem startsCompiled_eq_false (h : s.current.kind ≠ .keyword .get) : startsCompiled s = false := by
  unfold startsCompiled
  split
  · rename_i t u rest hp
    rw [Stream.current, hp, List.headD_cons] at h
    simp [h]
  · rfl

/-- Whether a block comes next shows in the token that is taken and in the one after it. -/
theorem Repeats.startsCompiled {s t s' t' : Stream} {front : List Token} (hs : Follows s front t)
    (hr : Repeats s front t s' t') (h : front.map Token.kind = [] → s.current.kind ≠ .keyword .get) :
    Program.startsCompiled s' = Program.startsCompiled s := by
  match front, hs, hr, h with
  | [], hs, hr, h =>
    have hkind := h rfl
    rw [startsCompiled_eq_false hkind, startsCompiled_eq_false (hr.current hs ▸ hkind)]
  | [token], hs, hr, _ =>
    have hp := hs.pending
    have hp' := hr.follows.pending
    have hhead := hr.sees.head
    unfold Program.startsCompiled
    rw [hp, hp']
    cases ht : t.pending <;> cases ht' : t'.pending <;> simp_all
  | token :: second :: rest, hs, hr, _ =>
    unfold Program.startsCompiled
    rw [hs.pending, hr.follows.pending]
    rfl

/-- A choice between a block and another action, of which neither blames the `get` in front of it. -/
theorem Diagnoses.ifCompiled {P Q : (s : Stream) → Taking Action s} {K : List Kind → Prop}
    (hP : Program.startsCompiled s = true → Diagnoses (fun s => Taking.outcome (P s))
      (fun xs => (xs = [] → s.current.kind ≠ .keyword .get) ∧ K xs) s)
    (hQ : Program.startsCompiled s = false → Diagnoses (fun s => Taking.outcome (Q s))
      (fun xs => (xs = [] → s.current.kind ≠ .keyword .get) ∧ K xs) s) :
    Diagnoses (fun s => Taking.outcome (if Program.startsCompiled s then P s else Q s)) K s := by
  -- the choice is made once for `s`, and the streams that repeat it make the same one
  obtain ⟨R, hR, hdiagnoses⟩ : ∃ R : (s : Stream) → Taking Action s,
      (∀ s', Program.startsCompiled s' = Program.startsCompiled s →
        (if Program.startsCompiled s' then P s' else Q s') = R s') ∧
      Diagnoses (fun s => Taking.outcome (R s)) (fun xs => (xs = [] → s.current.kind ≠ .keyword .get) ∧ K xs) s := by
    cases hs : Program.startsCompiled s with
    | true => exact ⟨P, fun s' h => if_pos h, hP hs⟩
    | false => exact ⟨Q, fun s' h => if_neg (by simp [h]), hQ hs⟩
  refine .of_agree _ hdiagnoses (fun hok hfollows hnil => ?_) (by rw [hR s rfl]) fun hfollows htaken hr => ?_
  · have hshorter := Taking.shorter hok
    rw [Stream.size, Stream.size, hfollows.pending, List.map_eq_nil_iff.mp hnil] at hshorter
    exact absurd hshorter (Nat.lt_irrefl _)
  · rw [hR _ (hr.startsCompiled hfollows htaken)]

/-- **Actions blame a token after a viable prefix**, at every depth of nesting. -/
theorem action_diagnoses : ∀ (room : Nat) (s : Stream),
    Diagnoses (fun s => Taking.outcome (action room s)) (Viable (ActionWithin room)) s
  | 0, s => by
    simp only [action]
    exact .ifCompiled (fun _ => .limit fun _ => rfl) fun _ => executeAction_diagnoses
  | room + 1, s => by
    simp only [action]
    refine .ifCompiled (fun hs => ?_) fun _ => executeAction_diagnoses
    obtain ⟨ks, hks⟩ := startsCompiled_iff.mp hs
    simp only [outcome_taking_andThen, outcome_toReading, outcome_reading_andThen, outcome_done]
    refine .take (fun hget => ?_) fun k a getSpan t hk _ => ?_
    · have hnone := hget (.keyword .get) (by rw [hks]; rfl)
      rw [exactly_self] at hnone
      cases hnone
    obtain rfl := eq_of_exactly hk
    dsimp only
    refine .take (fun _ => ⟨by simp, _, _, ⟨.compiled .nil .nothing, Nat.succ_le_succ (Nat.zero_le _)⟩,
      [.keyword .compiled, .keyword .end_], rfl⟩) fun k a wordSpan u hk _ => ?_
    obtain rfl := eq_of_exactly hk
    dsimp only
    refine .bind ((bodyOf_diagnoses (action_diagnoses room) action_sound).mono fun xs hxs => ⟨by simp, ?_⟩)
      fun body v xs hbody hxs => ?_
    · exact hxs.inside [.keyword .get, .keyword .compiled] fun actions ks h =>
        ⟨_, _, ⟨.compiled h.1 .nothing, Nat.succ_le_succ h.2⟩, [.keyword .end_], by simp⟩
    obtain ⟨bs, hbs, hform, hnest⟩ := bodyOf_sound action_sound hbody
    obtain rfl : xs = bs := List.append_cancel_right (hxs.symm.trans hbs)
    rw [← nestingOf_eraseActions] at hnest
    dsimp only
    refine .take (fun _ => ⟨by simp, _, _, ⟨.compiled hform .nothing, Nat.succ_le_succ hnest⟩, [.keyword .end_],
      by simp⟩) fun k a endSpan w hk _ => ?_
    obtain rfl := eq_of_exactly hk
    dsimp only
    refine .bind (chain_diagnoses.mono fun ys hys => ⟨by simp, ?_⟩) fun links w ys _ _ => ?_
    · have hviable : Viable (ActionWithin (room + 1))
          ((.keyword .get :: .keyword .compiled :: (xs ++ [.keyword .end_])) ++ ys) :=
        hys.inside _ fun links js h => ⟨_, _, ⟨.compiled hform h, Nat.succ_le_succ hnest⟩, [], by simp⟩
      simpa using hviable
    · dsimp only
      exact .pure _

end

/-! ## Declarations -/

section
variable {s : Stream}

/-- What follows the name and the prefix of an alias. -/
theorem defined_diagnoses {name : String} {keyPrefix : Option String} {span : Span} {k : Kind} {ps : List Kind}
    (hn : Ident name k) (hp : Prefixed keyPrefix ps) :
    Diagnoses (fun s => Reading.outcome (bodyOf (action maxNesting) .definition s) >>= fun body =>
        Taking.outcome (takeKind (.keyword .end_) .definition body.2) >>= fun stop =>
          .ok (Declaration.define ⟨name, keyPrefix, body.1, span.join stop.1.2⟩, stop.2))
      (fun xs => Viable DeclarationWithin (.keyword .alias_ :: k :: (ps ++ xs))) s := by
  refine .bind ((bodyOf_diagnoses (action_diagnoses maxNesting) action_sound).mono fun xs hxs => ?_)
    fun body t xs hbody hxs => ?_
  · exact hxs.inside (.keyword .alias_ :: k :: ps) fun actions ks ⟨h, hnest⟩ =>
      ⟨_, _, ⟨.define hn hp h, hnest⟩, [.keyword .end_], by simp⟩
  obtain ⟨bs, hbs, hform, hnest⟩ := bodyOf_sound action_sound hbody
  obtain rfl : xs = bs := List.append_cancel_right (hxs.symm.trans hbs)
  rw [← nestingOf_eraseActions] at hnest
  dsimp only
  refine .take (fun _ => ⟨_, _, ⟨.define hn hp hform, hnest⟩, [.keyword .end_], by simp⟩) fun _ _ _ _ _ _ => ?_
  dsimp only
  exact .pure _

theorem definition_diagnoses {span : Span} :
    Diagnoses (fun s => Reading.outcome (definition span s))
      (fun xs => Viable DeclarationWithin (.keyword .alias_ :: xs)) s := by
  simp only [definition, outcome_taking_andThen, outcome_toReading, outcome_reading_andThen, outcome_done]
  refine .take (fun _ => ⟨_, _, ⟨.define (.identifier "") .absent .nil, Nat.zero_le _⟩,
    [.identifier "", .keyword .end_], rfl⟩) fun k name nameSpan t hk _ => ?_
  have hname := nameText?_eq_some.mp hk
  dsimp only
  refine .takeFlag fun isPrefixed u => ?_
  cases isPrefixed with
  | false =>
    simp only [definition.prefixValue, Bool.false_eq_true, if_false, outcome_done, ok_bind]
    exact defined_diagnoses hname .absent
  | true =>
    simp only [definition.prefixValue, if_true, outcome_toReading, outcome_taking_andThen, outcome_done, bind_assoc,
      ok_bind]
    refine .take (fun _ => ⟨_, _, ⟨.define hname (.present "") .nil, Nat.zero_le _⟩, [.string "", .keyword .end_], rfl⟩)
      fun k value valueSpan v hk _ => ?_
    obtain rfl := stringValue?_eq_some hk
    exact defined_diagnoses hname (.present value)

theorem declaration_diagnoses :
    Diagnoses (fun s => Taking.outcome (declaration s)) (Viable DeclarationWithin) s := by
  simp only [declaration, outcome_taking_andThen]
  refine .take (fun _ => ⟨_, _, ⟨.entry (.identifier ""), Nat.zero_le _⟩, [.keyword .entry, .identifier ""], rfl⟩)
    fun k isEntry span t hk _ => ?_
  obtain rfl := declarationWord?_eq_some.mp hk
  cases isEntry with
  | true =>
    simp only [if_true, outcome_toReading, outcome_taking_andThen, outcome_done]
    refine .take (fun _ => ⟨_, _, ⟨.entry (.identifier ""), Nat.zero_le _⟩, [.identifier ""], rfl⟩)
      fun _ _ _ _ _ _ => ?_
    dsimp only
    exact .pure _
  | false =>
    simp only [Bool.false_eq_true, if_false]
    exact definition_diagnoses

/-- A program that nests no deeper than the parser has room for. -/
def DeclarationsWithin (ds : List Declaration) (ks : List Kind) : Prop :=
  DeclarationsForm ds ks ∧ ∀ d ∈ ds, d.nesting ≤ maxNesting

/-- **Programs blame a token after a viable prefix.** -/
theorem allDeclarations_blames : Blames allDeclarations (Viable DeclarationsWithin) s := by
  induction hn : s.size using Nat.strongRecOn generalizing s with
  | _ n ih =>
    subst hn
    have hmore : Blames (fun s => Taking.outcome (declaration s) >>= fun d => allDeclarations d.2 >>= fun rest =>
        .ok (d.1 :: rest)) (Viable DeclarationsWithin) s := by
      refine .bind (declaration_diagnoses.mono fun xs hxs => ?_) fun d t xs hd hxs => ?_
      · refine hxs.inside [] fun d ks ⟨h, hnest⟩ => ⟨[d], _, ⟨.cons h .nil, ?_⟩, [], by simp⟩
        simpa using hnest
      obtain ⟨ks, hks, hform, hnest⟩ := declaration_sound hd
      obtain rfl : xs = ks := List.append_cancel_right (hxs.symm.trans hks)
      have ht := Taking.shorter hd
      have hrest := Blames.mono (ih t.size ht rfl) fun ys hys =>
        (hys.inside xs fun rest js ⟨h, hnests⟩ => ⟨_, _, ⟨.cons hform h, List.forall_mem_cons.mpr
          ⟨by rwa [Declaration.nesting_erase], hnests⟩⟩, List.prefix_rfl⟩ : Viable DeclarationsWithin (xs ++ ys))
      exact hrest.map (d :: ·)
    by_cases hnil : s.pending = []
    · intro e he
      rw [allDeclarations_eq, hnil] at he
      cases he
    · have hunfold : ∀ s' : Stream, s'.pending.head? = s.pending.head? → allDeclarations s' =
          Taking.outcome (declaration s') >>= fun d => allDeclarations d.2 >>= fun rest => .ok (d.1 :: rest) := by
        intro s' hhead
        rw [← List.head?_eq_none_iff, ← hhead, List.head?_eq_none_iff, ← List.isEmpty_iff] at hnil
        rw [allDeclarations_eq, if_neg hnil]
      refine .of_agree (fun _ => True) (hmore.mono fun _ hK => ⟨trivial, hK⟩) (hunfold s rfl) fun hfollows _ hr => ?_
      exact hunfold _ (hr.sameStart hfollows).head.symm

end

/-! ## Whole lists of tokens -/

theorem ofTokens_eq_error {tokens : List Token} {e : ParseError} :
    ofTokens tokens = .error e ↔ allDeclarations (Stream.ofTokens tokens) = .error e := by
  unfold ofTokens
  cases allDeclarations (Stream.ofTokens tokens) <;> simp [Except.map]

theorem stream_ofTokens_end {front : List Token} (h : ∀ t ∈ front, t.kind ≠ .endOfInput) (endSpan : Span)
    (rest : List Token) : Stream.ofTokens (front ++ ⟨.endOfInput, endSpan⟩ :: rest) = ⟨front, endSpan, none⟩ := by
  simp only [Stream.ofTokens, List.takeWhile_append_of_pos fun t ht => decide_eq_true (h t ht)]
  simp

theorem pending_ofTokens_append {front : List Token} (h : ∀ t ∈ front, t.kind ≠ .endOfInput) (rest : List Token) :
    (Stream.ofTokens (front ++ rest)).pending = front ++ (Stream.ofTokens rest).pending :=
  List.takeWhile_append_of_pos fun t ht => decide_eq_true (h t ht)

section
variable {front taken : List Token} {endSpan : Span} {t : Stream}

/-- The next token of a stream stands in the list after those that were taken. -/
theorem Follows.tokens_eq (ht : Follows ⟨front, endSpan, none⟩ taken t) :
    ∃ rest, front ++ [⟨.endOfInput, endSpan⟩] = taken ++ t.current :: rest := by
  obtain rfl : front = taken ++ t.pending := ht.pending
  have hend : t.endSpan = endSpan := ht.endSpan
  cases hp : t.pending with
  | nil => exact ⟨[], by simp [Stream.current, hp, hend]⟩
  | cons token rest => exact ⟨rest ++ [⟨.endOfInput, endSpan⟩], by simp [Stream.current, hp]⟩

/-- A list that starts with the tokens taken and the next one repeats them. -/
theorem Follows.repeats (h : ∀ t ∈ front, t.kind ≠ .endOfInput) (ht : Follows ⟨front, endSpan, none⟩ taken t)
    (rest : List Token) :
    ∃ t', Repeats ⟨front, endSpan, none⟩ taken t (Stream.ofTokens (taken ++ t.current :: rest)) t' := by
  have hfront : front = taken ++ t.pending := ht.pending
  have hend : t.endSpan = endSpan := ht.endSpan
  have htaken : ∀ u ∈ taken, u.kind ≠ .endOfInput := fun u hu => h u (by simp [hfront, hu])
  cases hp : t.pending with
  | nil =>
    -- the end of input is the next token, and the two streams are one
    have hcurrent : t.current = ⟨.endOfInput, endSpan⟩ := by simp [Stream.current, hp, hend]
    obtain rfl : front = taken := by simpa [hp] using hfront
    rw [hcurrent, stream_ofTokens_end h]
    exact ⟨t, ht, rfl, rfl, fun _ => rfl⟩
  | cons token later =>
    have hcurrent : t.current = token := by simp [Stream.current, hp]
    have htoken : token.kind ≠ .endOfInput := h token (by simp [hfront, hp])
    have hpending : (Stream.ofTokens (token :: rest)).pending = token :: (Stream.ofTokens rest).pending :=
      pending_ofTokens_append (List.forall_mem_singleton.mpr htoken) rest
    rw [hcurrent]
    refine ⟨⟨(Stream.ofTokens (token :: rest)).pending, _, t.last⟩, ⟨?_, rfl, ht.last⟩, rfl, ?_, fun hnil => ?_⟩
    · exact pending_ofTokens_append htaken (token :: rest)
    · rw [hp, hpending]
      rfl
    · rw [hp] at hnil
      cases hnil

/-- A sentence that starts with the tokens taken completes them. -/
theorem completed_of_within (htaken : ∀ t ∈ taken, t.kind ≠ .endOfInput) {ds : List Declaration} {ys : List Kind}
    (h : DeclarationsWithin ds (taken.map Token.kind ++ ys)) (endSpan : Span) :
    ∃ more p, (∀ t ∈ more, t.kind ≠ .endOfInput) ∧ ofTokens (taken ++ more ++ [⟨.endOfInput, endSpan⟩]) = .ok p := by
  let more : List Token := ys.map fun k => ⟨k, .origin⟩
  have hmore : ∀ u ∈ more, u.kind ≠ .endOfInput := by
    intro u hu heq
    obtain ⟨k, hk, rfl⟩ := List.mem_map.mp hu
    obtain rfl : k = .endOfInput := heq
    exact h.1.no_end (List.mem_append_right _ hk)
  have hderives : Derives ⟨ds⟩ ((taken ++ more).map Token.kind) := by
    simpa [more, Derives, Function.comp_def] using h.1
  obtain ⟨q, hq, -⟩ := ofTokens_complete (List.forall_mem_append.mpr ⟨htaken, hmore⟩) endSpan hderives h.2
  exact ⟨more, q, hmore, hq⟩

end

/-- **A parse error reports the first offending token.** For a list of tokens whose only end of input is its last token,
an error other than the limit of nesting has the place of one of the tokens and names it as found. The tokens before it
can be completed to a list that is read, and every list that starts with them and it fails with the same error. -/
theorem parse_error_blames_first_offender {tokens front : List Token} {endSpan : Span}
    (htokens : tokens = front ++ [⟨.endOfInput, endSpan⟩]) (h : ∀ t ∈ front, t.kind ≠ .endOfInput) {e : ParseError}
    (he : ofTokens tokens = .error e) (hlimit : e.expected ≠ .lessNesting) :
    ∃ i token, tokens[i]? = some token ∧ e.found = .token token.kind ∧ e.span = token.span ∧
      (∃ more p, (∀ t ∈ more, t.kind ≠ .endOfInput) ∧
        ofTokens (tokens.take i ++ more ++ [⟨.endOfInput, endSpan⟩]) = .ok p) ∧
      ∀ other : List Token, other.take (i + 1) = tokens.take (i + 1) → ofTokens other = .error e := by
  subst htokens
  have hstream := stream_ofTokens_end h endSpan []
  rw [ofTokens_eq_error, hstream] at he
  obtain ⟨taken, t, production, expected, hfollows, rfl, ⟨ds, ks, hwithin, ys, rfl⟩, hrepeat⟩ :=
    allDeclarations_blames e he hlimit
  have htaken : ∀ u ∈ taken, u.kind ≠ .endOfInput := fun u hu => h u (by
    rw [show front = taken ++ t.pending from hfollows.pending]
    exact List.mem_append_left _ hu)
  obtain ⟨rest, hrest⟩ := hfollows.tokens_eq
  refine ⟨taken.length, t.current, by simp [hrest], rfl, rfl, ?_, fun other hother => ?_⟩
  · rw [hrest, List.take_left]
    exact completed_of_within htaken hwithin endSpan
  · have hsplit : other = taken ++ t.current :: other.drop (taken.length + 1) := by
      calc other = other.take (taken.length + 1) ++ other.drop (taken.length + 1) := (List.take_append_drop _ _).symm
        _ = taken ++ t.current :: other.drop (taken.length + 1) := by
          simp [hother, hrest, List.take_append, List.take_of_length_le]
    obtain ⟨t', hr⟩ := hfollows.repeats h (other.drop (taken.length + 1))
    rw [ofTokens_eq_error, hsplit]
    exact hrepeat _ t' hr

/-- `alias a get compiled get "k" say end end`, in which `->` is missing before `say`. -/
def arrowlessTokens : List Token :=
  [.keyword .alias_, .identifier "a", .keyword .get, .keyword .compiled, .keyword .get, .string "k", .keyword .say,
    .keyword .end_, .keyword .end_].mapIdx fun i kind => ⟨kind, .point ⟨2 * i, 0, 2 * i⟩⟩

/-- Its error: `say` stands at offset 12. -/
def arrowlessError : ParseError := ⟨.execute, .token .arrow, .token (.keyword .say), .point ⟨12, 0, 12⟩⟩

/-- They are refused with it. -/
def arrowlessRefusal : {e // ofTokens (arrowlessTokens ++ [⟨.endOfInput, .origin⟩]) = .error e} :=
  ⟨arrowlessError, by decide +kernel⟩

/-- The six tokens before `say` can be completed, and the seven with it always fail in this way. -/
theorem missing_arrow_blames_next_token :
    (∀ t ∈ arrowlessTokens, t.kind ≠ .endOfInput) ∧
    ofTokens (arrowlessTokens ++ [⟨.endOfInput, .origin⟩]) = .error arrowlessError ∧
    arrowlessError.expected ≠ .lessNesting ∧
    (∃ more p, (∀ t ∈ more, t.kind ≠ .endOfInput) ∧
      ofTokens (arrowlessTokens.take 6 ++ more ++ [⟨.endOfInput, .origin⟩]) = .ok p) ∧
    ∀ other : List Token, other.take 7 = arrowlessTokens.take 7 → ofTokens other = .error arrowlessError := by
  have hfront : ∀ t ∈ arrowlessTokens, t.kind ≠ .endOfInput := by decide
  have herror : ofTokens (arrowlessTokens ++ [⟨.endOfInput, .origin⟩]) = .error arrowlessError := arrowlessRefusal.2
  have hlimit : arrowlessError.expected ≠ .lessNesting := by decide
  obtain ⟨i, token, htoken, -, hspan, hcomplete, hrepeat⟩ :=
    parse_error_blames_first_offender rfl hfront herror hlimit
  have hsix : ∀ i < 10, ((arrowlessTokens ++ [⟨.endOfInput, .origin⟩])[i]?.map Token.span) = some arrowlessError.span →
      i = 6 := by decide
  obtain ⟨hlt, -⟩ := List.getElem?_eq_some_iff.mp htoken
  obtain rfl := hsix i hlt (by rw [htoken, hspan]; rfl)
  exact ⟨hfront, herror, hlimit, hcomplete, hrepeat⟩

end AliasLang.Program
