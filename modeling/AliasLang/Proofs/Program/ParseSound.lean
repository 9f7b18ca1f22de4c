/-
The parser accepts sentences of the grammar only: what a parser takes from the stream derives the value it answers,
once the places are taken out of it. The one induction that is not over the tokens is on the room that is left for
nesting, which also bounds how deep the answer nests.
-/
import AliasLang.Proofs.Program.Grammar
import AliasLang.Proofs.Program.Outcome

namespace AliasLang.Program

open Source (Span)
open Token (Kind Keyword)
open Grammar

/-! ## Single tokens -/

theorem takeKind_sound {k : Kind} {production : Production} {s t : Stream} {u : Unit × Span}
    (h : Taking.outcome (takeKind k production s) = .ok (u, t)) : s.kinds = k :: t.kinds := by
  obtain ⟨k', hk, hf⟩ := outcome_take_ok h
  rw [hk, eq_of_exactly hf]

theorem takeFlag_sound {k : Keyword} {s t : Stream} {b : Bool} (h : Reading.outcome (takeFlag k s) = .ok (b, t)) :
    s.kinds = flag k b ++ t.kinds := by
  simp only [takeFlag, outcome_reading_andThen, outcome_done, bind_eq_ok] at h
  obtain ⟨⟨o, u⟩, ho, he⟩ := h
  cases he
  rcases outcome_takeOptional_ok ho with ⟨rfl, rfl⟩ | ⟨k', a, span, rfl, hs, hf⟩
  · rfl
  · rw [hs, eq_of_exactly hf]
    rfl

theorem stringValue?_eq_some {k : Kind} {v : String} (h : stringValue? k = some v) : k = .string v := by
  cases k <;> simp_all [stringValue?]

theorem userName?_eq_some {k : Kind} {v : String} (h : userName? k = some v) : k = .user v := by
  cases k <;> simp_all [userName?]

theorem scriptText?_eq_some {k : Kind} {v : String} (h : scriptText? k = some v) : k = .script v := by
  cases k <;> simp_all [scriptText?]

theorem argumentLiteral?_eq_some {k : Kind} {v : Token.ArgLiteral} (h : argumentLiteral? k = some v) :
    k = .argument v := by
  cases k <;> simp_all [argumentLiteral?]

theorem nameText?_eq_some {k : Kind} {v : String} : nameText? k = some v ↔ Ident v k := by
  constructor
  · intro h
    cases k with
    | keyword k => cases h; exact .keyword k
    | identifier name => cases h; exact .identifier _
    | _ => cases h
  · intro h
    cases h <;> rfl

theorem takeString_sound {production : Production} {s t : Stream} {v : String} {span : Span}
    (h : Taking.outcome (takeString production s) = .ok ((v, span), t)) : s.kinds = .string v :: t.kinds := by
  obtain ⟨k, hk, hf⟩ := outcome_take_ok h
  rw [hk, stringValue?_eq_some hf]

theorem takeName_sound {production : Production} {s t : Stream} {v : String} {span : Span}
    (h : Taking.outcome (takeName production s) = .ok ((v, span), t)) : ∃ k, s.kinds = k :: t.kinds ∧ Ident v k := by
  obtain ⟨k, hk, hf⟩ := outcome_take_ok h
  exact ⟨k, hk, nameText?_eq_some.mp hf⟩

/-! ## Simple actions -/

theorem importRef_sound {b : Bool} {s t : Stream} {i : Option ImportRef}
    (h : Reading.outcome (scriptAction.importRef b s) = .ok (i, t)) :
    ∃ ks, flag .import_ b ++ s.kinds = ks ++ t.kinds ∧ Imported (i.map fun i => ⟨i.id, .origin⟩) ks := by
  cases b with
  | false =>
    cases h
    exact ⟨[], rfl, .absent⟩
  | true =>
    simp only [scriptAction.importRef, ↓reduceIte, outcome_toReading, outcome_taking_andThen, outcome_done,
      bind_eq_ok] at h
    obtain ⟨⟨⟨id, span⟩, u⟩, hu, he⟩ := h
    cases he
    exact ⟨_, by rw [takeString_sound hu]; rfl, .present id⟩

theorem scriptAction_sound {span : Span} {s t : Stream} {a : Simple}
    (h : Reading.outcome (scriptAction span s) = .ok (a, t)) :
    ∃ ks, s.kinds = ks ++ t.kinds ∧ SimpleForm a.erase (.keyword .js :: ks) := by
  simp only [scriptAction, outcome_reading_andThen, outcome_toReading, outcome_taking_andThen, outcome_done,
    bind_eq_ok] at h
  obtain ⟨⟨b, s₁⟩, h₁, ⟨i, s₂⟩, h₂, ⟨⟨raw, rawSpan⟩, s₃⟩, h₃, he⟩ := h
  cases he
  obtain ⟨k, hk, hf⟩ := outcome_take_ok h₃
  obtain ⟨is, his, hi⟩ := importRef_sound h₂
  refine ⟨is ++ [Kind.script raw], ?_, SimpleForm.script raw hi⟩
  rw [takeFlag_sound h₁, his, hk, scriptText?_eq_some hf]
  simp

theorem furtherCommands_sound {s t : Stream} {cs : List (String × Span)}
    (h : Reading.outcome (Program.furtherCommands s) = .ok (cs, t)) :
    s.kinds = Grammar.furtherCommands (cs.map Prod.fst) ++ t.kinds := by
  fun_induction Program.furtherCommands s generalizing cs with
  | case1 s e he => cases h
  | case2 s u hle ho =>
    cases h
    rcases outcome_takeOptional_ok (outcome_of_reading ho) with ⟨-, rfl⟩ | ⟨k, a, span, hn, -, -⟩
    · rfl
    · cases hn
  | case3 => cases h
  | case4 => cases h
  | case5 s x u hle ho c v hlt hc ds w hle' hd ih =>
    cases h
    rcases outcome_takeOptional_ok (outcome_of_reading ho) with ⟨hn, -⟩ | ⟨k, a, span, -, hs, hf⟩
    · cases hn
    · obtain ⟨command, commandSpan⟩ := c
      rw [hs, eq_of_exactly hf, takeString_sound (outcome_of_taking hc), ih (outcome_of_reading hd)]
      rfl

theorem commandList_sound {word : CommandWord} {span : Span} {s t : Stream} {a : Simple}
    (h : Reading.outcome (commandList word span s) = .ok (a, t)) :
    ∃ ks, s.kinds = ks ++ t.kinds ∧ SimpleForm a.erase (.keyword (commandKeyword word) :: ks) := by
  simp only [commandList, outcome_reading_andThen, outcome_toReading, outcome_taking_andThen, outcome_done,
    bind_eq_ok] at h
  obtain ⟨⟨⟨first, firstSpan⟩, s₁⟩, h₁, ⟨further, s₂⟩, h₂, he⟩ := h
  cases he
  refine ⟨Kind.string first :: Grammar.furtherCommands (further.map Prod.fst), ?_, SimpleForm.commands word first _⟩
  rw [takeString_sound h₁, furtherCommands_sound h₂]
  rfl

theorem sayAction_sound {span : Span} {s t : Stream} {a : Simple}
    (h : Reading.outcome (sayAction span s) = .ok (a, t)) :
    ∃ ks, s.kinds = ks ++ t.kinds ∧ SimpleForm a.erase (.keyword .say :: ks) := by
  simp only [sayAction, outcome_reading_andThen, outcome_done, bind_eq_ok] at h
  obtain ⟨⟨literal, s₁⟩, h₁, he⟩ := h
  cases he
  rcases outcome_takeOptional_ok h₁ with ⟨rfl, rfl⟩ | ⟨k, text, textSpan, rfl, hs, hf⟩
  · exact ⟨[], rfl, SimpleForm.sayNothing⟩
  · exact ⟨[k], hs, by rw [stringValue?_eq_some hf]; exact SimpleForm.say text⟩

theorem callAction_sound {span : Span} {s t : Stream} {a : Simple}
    (h : Reading.outcome (callAction span s) = .ok (a, t)) :
    ∃ ks, s.kinds = ks ++ t.kinds ∧ SimpleForm a.erase (.keyword .call :: ks) := by
  simp only [callAction, outcome_reading_andThen, outcome_toReading, outcome_taking_andThen, outcome_done,
    bind_eq_ok] at h
  obtain ⟨⟨user, s₁⟩, h₁, ⟨⟨target, targetSpan⟩, s₂⟩, h₂, he⟩ := h
  cases he
  obtain ⟨k, hk, ht⟩ := takeName_sound h₂
  rcases outcome_takeOptional_ok h₁ with ⟨rfl, rfl⟩ | ⟨k', name, nameSpan, rfl, hs, hf⟩
  · exact ⟨[k], hk, SimpleForm.call ht⟩
  · refine ⟨[.user name, k], ?_, SimpleForm.callOf name ht⟩
    rw [hs, hk, userName?_eq_some hf]
    rfl

/-- The keyword of the word that starts a simple action. -/
def SimpleWord.keyword : SimpleWord → Keyword
  | .script => .js
  | .commands word => commandKeyword word
  | .say => .say
  | .call => .call

theorem simpleWord?_eq_some {k : Kind} {w : SimpleWord} : simpleWord? k = some w ↔ k = .keyword w.keyword := by
  constructor
  · intro h
    cases k with
    | keyword k => cases k <;> cases h <;> rfl
    | _ => cases h
  · rintro rfl
    rcases w with _ | (_ | _) | _ | _ <;> rfl

theorem simpleAction_sound {production : Production} {s t : Stream} {a : Simple}
    (h : Taking.outcome (simpleAction production s) = .ok (a, t)) :
    ∃ ks, s.kinds = ks ++ t.kinds ∧ SimpleForm a.erase ks := by
  simp only [simpleAction, outcome_taking_andThen, bind_eq_ok] at h
  obtain ⟨⟨⟨word, span⟩, s₁⟩, h₁, h₂⟩ := h
  obtain ⟨k, hk, hf⟩ := outcome_take_ok h₁
  rw [simpleWord?_eq_some] at hf
  subst hf
  have hrest : ∃ ks, s₁.kinds = ks ++ t.kinds ∧ SimpleForm a.erase (.keyword word.keyword :: ks) := by
    cases word with
    | script => exact scriptAction_sound h₂
    | commands word => exact commandList_sound h₂
    | say => exact sayAction_sound h₂
    | call => exact callAction_sound h₂
  obtain ⟨ks, hks, ha⟩ := hrest
  exact ⟨.keyword word.keyword :: ks, by rw [hk, hks]; rfl, ha⟩

/-! ## Chains -/

theorem storeLink_sound {span : Span} {s t : Stream} {l : Link}
    (h : Reading.outcome (storeLink span s) = .ok (l, t)) :
    ∃ ks, s.kinds = ks ++ t.kinds ∧ ChainForm (eraseChain [l]) (.arrow :: .keyword .set :: ks) := by
  simp only [storeLink, outcome_reading_andThen, outcome_toReading, outcome_taking_andThen, bind_eq_ok] at h
  obtain ⟨⟨isTemp, s₁⟩, h₁, ⟨isLocal, s₂⟩, h₂, ⟨⟨key, keySpan⟩, s₃⟩, h₃, h₄⟩ := h
  split at h₄
  · cases h₄
  · cases h₄
    refine ⟨_, ?_, ChainForm.store key isTemp isLocal⟩
    rw [takeFlag_sound h₁, takeFlag_sound h₂, takeString_sound h₃]
    simp

theorem chain_sound {s t : Stream} {links : List Link} (h : Reading.outcome (chain s) = .ok (links, t)) :
    ∃ ks, s.kinds = ks ++ t.kinds ∧ ChainForm (eraseChain links) ks := by
  fun_induction chain s generalizing links with
  | case1 => cases h
  | case2 s u hle ho =>
    cases h
    rcases outcome_takeOptional_ok (outcome_of_reading ho) with ⟨-, rfl⟩ | ⟨k, a, span, hn, -, -⟩
    · exact ⟨[], rfl, .nothing⟩
    · cases hn
  | case3 => cases h
  | case4 s x u hle ho span hset link v hlt =>
    rename_i hl
    cases h
    rcases outcome_takeOptional_ok (outcome_of_reading ho) with ⟨hn, -⟩ | ⟨k, a, arrowSpan, -, hs, hf⟩
    · cases hn
    · have hl' := outcome_of_taking hl
      simp only [outcome_taking_andThen, bind_eq_ok] at hl'
      obtain ⟨⟨w, s₁⟩, h₁, h₂⟩ := hl'
      obtain ⟨ks, hks, hc⟩ := storeLink_sound h₂
      refine ⟨_, ?_, hc⟩
      rw [hs, eq_of_exactly hf, takeKind_sound h₁, hks]
      rfl
  | case5 => cases h
  | case6 => cases h
  | case7 s x u hle ho span hset action v hlt ha rest w hle' hr =>
    rename_i ih
    cases h
    rcases outcome_takeOptional_ok (outcome_of_reading ho) with ⟨hn, -⟩ | ⟨k, a, arrowSpan, -, hs, hf⟩
    · cases hn
    · obtain ⟨ks, hks, hform⟩ := simpleAction_sound (outcome_of_taking ha)
      obtain ⟨js, hjs, hc⟩ := ih (outcome_of_reading hr)
      refine ⟨_, ?_, ChainForm.action hform hc⟩
      rw [hs, eq_of_exactly hf, hks, hjs]
      simp

/-! ## Actions and bodies -/

theorem arrowAfter_sound {r : Retrieve} {s t : Stream} {o : Option Retrieve}
    (h : Reading.outcome (retrieval.arrowAfter r s) = .ok (o, t)) : o = some r ∧ s.kinds = .arrow :: t.kinds := by
  simp only [retrieval.arrowAfter, outcome_toReading, outcome_taking_andThen, outcome_done, bind_eq_ok] at h
  obtain ⟨⟨u, s₁⟩, h₁, he⟩ := h
  cases he
  exact ⟨rfl, takeKind_sound h₁⟩

theorem retrieval_sound {s t : Stream} {o : Option Retrieve} (h : Reading.outcome (retrieval s) = .ok (o, t)) :
    (o = none ∧ t = s) ∨ ∃ r rs, o = some r ∧ RetrieveForm r.erase rs ∧ s.kinds = rs ++ .arrow :: t.kinds := by
  simp only [retrieval, outcome_reading_andThen, bind_eq_ok] at h
  obtain ⟨⟨argument, s₁⟩, h₁, h⟩ := h
  rcases outcome_takeOptional_ok h₁ with ⟨rfl, rfl⟩ | ⟨k, literal, span, rfl, hs, hf⟩
  · simp only [outcome_reading_andThen, bind_eq_ok] at h
    obtain ⟨⟨get, s₂⟩, h₂, h⟩ := h
    rcases outcome_takeOptional_ok h₂ with ⟨rfl, rfl⟩ | ⟨k, u, span, rfl, hs, hf⟩
    · cases h
      exact .inl ⟨rfl, rfl⟩
    · simp only [outcome_reading_andThen, outcome_toReading, outcome_taking_andThen, bind_eq_ok] at h
      obtain ⟨⟨isLocal, s₃⟩, h₃, ⟨⟨key, keySpan⟩, s₄⟩, h₄, h⟩ := h
      obtain ⟨rfl, harrow⟩ := arrowAfter_sound h
      refine .inr ⟨_, _, rfl, RetrieveForm.key key isLocal, ?_⟩
      rw [hs, eq_of_exactly hf, takeFlag_sound h₃, takeString_sound h₄, harrow]
      simp
  · obtain ⟨rfl, harrow⟩ := arrowAfter_sound h
    refine .inr ⟨_, _, rfl, RetrieveForm.argument literal, ?_⟩
    rw [hs, argumentLiteral?_eq_some hf, harrow]
    rfl

theorem executeAction_sound {s t : Stream} {a : Action} (h : Taking.outcome (executeAction s) = .ok (a, t)) :
    ∃ ks, s.kinds = ks ++ t.kinds ∧ ActionForm a.erase ks ∧ a.nesting = 0 := by
  simp only [outcome_executeAction, bind_eq_ok] at h
  obtain ⟨⟨retrieve, s₁⟩, h₁, ⟨action, s₂⟩, h₂, ⟨links, s₃⟩, h₃, he⟩ := h
  cases he
  obtain ⟨ks, hks, ha⟩ := simpleAction_sound h₂
  obtain ⟨js, hjs, hc⟩ := chain_sound h₃
  rcases retrieval_sound h₁ with ⟨rfl, rfl⟩ | ⟨r, rs, rfl, hr, hrs⟩
  · exact ⟨ks ++ js, by rw [hks, hjs, List.append_assoc], ActionForm.execute ha hc, rfl⟩
  · refine ⟨rs ++ .arrow :: (ks ++ js), ?_, ActionForm.retrieved hr ha hc, rfl⟩
    rw [hrs, hks, hjs]
    simp

/-- A body is as sound as the parser of its actions. -/
theorem actionsUntilEnd_sound {action : (s : Stream) → Taking Action s} {production : Production} {depth : Nat}
    (hact : ∀ {s t a}, Taking.outcome (action s) = .ok (a, t) →
      ∃ ks, s.kinds = ks ++ t.kinds ∧ ActionForm a.erase ks ∧ a.nesting ≤ depth)
    {s t : Stream} {as : List Action} (h : Reading.outcome (actionsUntilEnd action production s) = .ok (as, t)) :
    ∃ ks, s.kinds = ks ++ t.kinds ∧ BodyForm (eraseActions as) ks ∧ nestingOf as ≤ depth := by
  fun_induction actionsUntilEnd action production s generalizing as with
  | case1 s hend =>
    cases h
    exact ⟨[], rfl, .nil, Nat.zero_le _⟩
  | case2 => cases h
  | case3 => cases h
  | case4 => cases h
  | case5 s hend hstart a u hlt ha rest v hle hr ih =>
    cases h
    obtain ⟨ks, hks, hform, hn⟩ := hact (outcome_of_taking ha)
    obtain ⟨js, hjs, hbody, hn'⟩ := ih (outcome_of_reading hr)
    refine ⟨ks ++ js, by rw [hks, hjs, List.append_assoc], .cons hform hbody, ?_⟩
    exact Nat.max_le.mpr ⟨hn, hn'⟩

theorem bodyOf_sound {action : (s : Stream) → Taking Action s} {production : Production} {depth : Nat}
    (hact : ∀ {s t a}, Taking.outcome (action s) = .ok (a, t) →
      ∃ ks, s.kinds = ks ++ t.kinds ∧ ActionForm a.erase ks ∧ a.nesting ≤ depth)
    {s t : Stream} {body : Body} (h : Reading.outcome (bodyOf action production s) = .ok (body, t)) :
    ∃ ks, s.kinds = ks ++ t.kinds ∧ BodyForm (eraseActions body.actions) ks ∧ nestingOf body.actions ≤ depth := by
  simp only [bodyOf, outcome_reading_andThen, outcome_done, bind_eq_ok] at h
  obtain ⟨⟨as, s₁⟩, h₁, he⟩ := h
  cases he
  exact actionsUntilEnd_sound hact h₁

/-- **Actions are sentences of the grammar**, and they nest no deeper than there is room. -/
theorem action_sound : ∀ {room : Nat} {s t : Stream} {a : Action}, Taking.outcome (action room s) = .ok (a, t) →
    ∃ ks, s.kinds = ks ++ t.kinds ∧ ActionForm a.erase ks ∧ a.nesting ≤ room
  | 0, s, t, a, h => by
    rw [action] at h
    split at h
    · cases h
    · obtain ⟨ks, hks, ha, hn⟩ := executeAction_sound h
      exact ⟨ks, hks, ha, Nat.le_of_eq hn⟩
  | room + 1, s, t, a, h => by
    rw [action] at h
    split at h
    · simp only [outcome_taking_andThen, outcome_toReading, outcome_reading_andThen, outcome_done, bind_eq_ok] at h
      obtain ⟨⟨get, s₁⟩, h₁, ⟨word, s₂⟩, h₂, ⟨body, s₃⟩, h₃, ⟨stop, s₄⟩, h₄, ⟨links, s₅⟩, h₅, he⟩ := h
      cases he
      obtain ⟨ks, hks, hbody, hn⟩ := bodyOf_sound action_sound h₃
      obtain ⟨js, hjs, hc⟩ := chain_sound h₅
      refine ⟨_, ?_, ActionForm.compiled hbody hc, Nat.succ_le_succ hn⟩
      rw [takeKind_sound h₁, takeKind_sound h₂, hks, takeKind_sound h₄, hjs]
      simp
    · obtain ⟨ks, hks, ha, hn⟩ := executeAction_sound h
      exact ⟨ks, hks, ha, by rw [hn]; exact Nat.zero_le _⟩

/-! ## Declarations -/

theorem prefixValue_sound {b : Bool} {s t : Stream} {o : Option String}
    (h : Reading.outcome (definition.prefixValue b s) = .ok (o, t)) :
    ∃ ks, flag .prefixed b ++ s.kinds = ks ++ t.kinds ∧ Prefixed o ks := by
  cases b with
  | false =>
    cases h
    exact ⟨[], rfl, .absent⟩
  | true =>
    simp only [definition.prefixValue, ↓reduceIte, outcome_toReading, outcome_taking_andThen, outcome_done,
      bind_eq_ok] at h
    obtain ⟨⟨⟨value, span⟩, u⟩, hu, he⟩ := h
    cases he
    exact ⟨_, by rw [takeString_sound hu]; rfl, .present value⟩

theorem definition_sound {span : Span} {s t : Stream} {d : Declaration}
    (h : Reading.outcome (definition span s) = .ok (d, t)) :
    ∃ ks, s.kinds = ks ++ t.kinds ∧ DeclarationForm d.erase (.keyword .alias_ :: ks) ∧ d.nesting ≤ maxNesting := by
  simp only [definition, outcome_taking_andThen, outcome_toReading, outcome_reading_andThen, outcome_done,
    bind_eq_ok] at h
  obtain ⟨⟨⟨name, nameSpan⟩, s₁⟩, h₁, ⟨isPrefixed, s₂⟩, h₂, ⟨keyPrefix, s₃⟩, h₃, ⟨body, s₄⟩, h₄, ⟨stop, s₅⟩, h₅, he⟩ :=
    h
  cases he
  obtain ⟨k, hk, hn⟩ := takeName_sound h₁
  obtain ⟨ps, hps, hp⟩ := prefixValue_sound h₃
  obtain ⟨ks, hks, hbody, hnest⟩ := bodyOf_sound action_sound h₄
  refine ⟨_, ?_, DeclarationForm.define hn hp hbody, hnest⟩
  rw [hk, takeFlag_sound h₂, hps, hks, takeKind_sound h₅]
  simp

theorem declarationWord?_eq_some {k : Kind} {isEntry : Bool} :
    declarationWord? k = some isEntry ↔ k = .keyword (if isEntry then .entry else .alias_) := by
  constructor
  · intro h
    cases k with
    | keyword k => cases k <;> cases h <;> rfl
    | _ => cases h
  · rintro rfl
    cases isEntry <;> rfl

theorem declaration_sound {s t : Stream} {d : Declaration} (h : Taking.outcome (declaration s) = .ok (d, t)) :
    ∃ ks, s.kinds = ks ++ t.kinds ∧ DeclarationForm d.erase ks ∧ d.nesting ≤ maxNesting := by
  simp only [declaration, outcome_taking_andThen, bind_eq_ok] at h
  obtain ⟨⟨⟨isEntry, span⟩, s₁⟩, h₁, h₂⟩ := h
  obtain ⟨k, hk, hf⟩ := outcome_take_ok h₁
  rw [declarationWord?_eq_some] at hf
  subst hf
  cases isEntry with
  | true =>
    simp only [↓reduceIte, outcome_toReading, outcome_taking_andThen, outcome_done, bind_eq_ok] at h₂
    obtain ⟨⟨⟨name, nameSpan⟩, s₂⟩, h₃, he⟩ := h₂
    cases he
    obtain ⟨k', hk', hn⟩ := takeName_sound h₃
    exact ⟨_, by rw [hk, hk']; rfl, DeclarationForm.entry hn, Nat.zero_le _⟩
  | false =>
    obtain ⟨ks, hks, hform, hn⟩ := definition_sound h₂
    exact ⟨_, by rw [hk, hks]; rfl, hform, hn⟩

theorem allDeclarations_sound {s : Stream} {ds : List Declaration} (h : allDeclarations s = .ok ds) :
    DeclarationsForm (ds.map Declaration.erase) s.kinds ∧ ∀ d ∈ ds, d.nesting ≤ maxNesting := by
  fun_induction allDeclarations s generalizing ds with
  | case1 s hnil =>
    cases h
    rw [List.isEmpty_iff] at hnil
    rw [Stream.kinds, hnil]
    exact ⟨.nil, by simp⟩
  | case2 => cases h
  | case3 => cases h
  | case4 s hne d t hlt hd rest hr ih =>
    cases h
    obtain ⟨ks, hks, hform, hn⟩ := declaration_sound (outcome_of_taking hd)
    obtain ⟨hforms, hns⟩ := ih hr
    rw [hks]
    exact ⟨.cons hform hforms, List.forall_mem_cons.mpr ⟨hn, hns⟩⟩

end AliasLang.Program
