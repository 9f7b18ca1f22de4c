/-
The parser accepts every sentence of the grammar whose blocks nest within the limit. A parser that stops as soon as it
can must be told what may follow: after a simple action neither a bar nor a string literal, which it would take, and
after a chain no arrow. In a program an action is followed by another one or by `end`, so this is always so.
-/
import AliasLang.Proofs.Program.ParseSound

namespace AliasLang.Program

open Source (Span)
open Token (Kind Keyword)
open Grammar

/-! ## Answers -/

section
variable {α β : Type}

/-- The parser succeeds, with the tokens `rest` left and a value such that `P`. -/
def Answers (r : Except ParseError (α × Stream)) (rest : List Kind) (P : α → Prop) : Prop :=
  ∃ a t, r = .ok (a, t) ∧ t.kinds = rest ∧ P a

theorem answers_ok {a : α} {t : Stream} {rest : List Kind} {P : α → Prop} (hk : t.kinds = rest) (ha : P a) :
    Answers (.ok (a, t)) rest P :=
  ⟨a, t, rfl, hk, ha⟩

theorem Answers.bind {r : Except ParseError (α × Stream)} {f : α × Stream → Except ParseError (β × Stream)}
    {ks rest : List Kind} {P : α → Prop} {Q : β → Prop} (hr : Answers r ks P)
    (hf : ∀ a t, t.kinds = ks → P a → Answers (f (a, t)) rest Q) : Answers (r >>= f) rest Q := by
  obtain ⟨a, t, rfl, hk, ha⟩ := hr
  exact hf a t hk ha

end

/-- A simple action can end before these tokens. -/
def EndsSimple (ks : List Kind) : Prop := ∀ k, ks.head? = some k → k ≠ .bar ∧ stringValue? k = none

/-- An action can end before these tokens. -/
def EndsAction (ks : List Kind) : Prop := EndsSimple ks ∧ ks.head? ≠ some .arrow

/-! ## Single tokens -/

section
variable {s : Stream} {rest : List Kind}

theorem take_answers {α : Type} {f : Kind → Option α} {k : Kind} {a : α} (hs : s.kinds = k :: rest)
    (hf : f k = some a) (production : Production) (expected : Expected) :
    Answers (Taking.outcome (take f production expected s)) rest fun p => p.1 = a := by
  obtain ⟨span, t, ht, hk⟩ := outcome_take_of_kinds hs hf production expected
  exact ⟨(a, span), t, ht, hk, rfl⟩

theorem takeOptional_answers {α : Type} {f : Kind → Option α} {k : Kind} {a : α} (hs : s.kinds = k :: rest)
    (hf : f k = some a) : Answers (Reading.outcome (takeOptional f s)) rest fun o => o.map Prod.fst = some a := by
  obtain ⟨span, t, ht, hk⟩ := outcome_takeOptional_of_kinds hs hf
  exact ⟨some (a, span), t, ht, hk, rfl⟩

theorem takeOptional_answers_none {α : Type} {f : Kind → Option α}
    (h : ∀ k, s.kinds.head? = some k → f k = none) :
    Answers (Reading.outcome (takeOptional f s)) s.kinds fun o => o = none :=
  ⟨none, s, outcome_takeOptional_none h, rfl, rfl⟩

theorem takeKind_answers {k : Kind} (hs : s.kinds = k :: rest) (production : Production) :
    Answers (Taking.outcome (takeKind k production s)) rest fun _ => True := by
  obtain ⟨span, t, ht, hk⟩ := outcome_take_of_kinds hs (exactly_self k) production (.token k)
  exact ⟨((), span), t, ht, hk, trivial⟩

theorem exactly_none_of_head {k : Kind} {ks : List Kind} (h : ks.head? ≠ some k) :
    ∀ k', ks.head? = some k' → exactly k k' = none := by
  intro k' hk'
  apply exactly_eq_none
  rintro rfl
  exact h hk'

theorem takeFlag_answers {k : Keyword} {b : Bool} (hs : s.kinds = flag k b ++ rest)
    (hr : rest.head? ≠ some (.keyword k)) : Answers (Reading.outcome (takeFlag k s)) rest fun b' => b' = b := by
  simp only [takeFlag, outcome_reading_andThen, outcome_done]
  cases b with
  | true =>
    refine (takeOptional_answers hs (exactly_self (.keyword k))).bind fun o t hk ho => answers_ok hk ?_
    obtain ⟨p, rfl, -⟩ := Option.map_eq_some_iff.mp ho
    rfl
  | false =>
    have hs' : s.kinds = rest := hs
    rw [← hs'] at hr ⊢
    refine (takeOptional_answers_none (exactly_none_of_head hr)).bind fun o t hk ho => answers_ok hk ?_
    rw [ho]
    rfl

theorem takeString_answers {v : String} (hs : s.kinds = .string v :: rest) (production : Production) :
    Answers (Taking.outcome (takeString production s)) rest fun p => p.1 = v :=
  take_answers hs (show stringValue? (.string v) = some v from rfl) production .string

theorem takeName_answers {v : String} {k : Kind} (hn : Ident v k) (hs : s.kinds = k :: rest)
    (production : Production) : Answers (Taking.outcome (takeName production s)) rest fun p => p.1 = v :=
  take_answers hs (nameText?_eq_some.mpr hn) production .name

end

/-! ## Simple actions -/

section
variable {s : Stream} {rest : List Kind}

theorem importRef_answers {i : Option ImportRef} {is : List Kind} (hi : Imported i is) (hs : s.kinds = is ++ rest)
    (hr : rest.head? ≠ some (.keyword .import_)) :
    Answers (Reading.outcome (takeFlag .import_ s) >>= fun p => Reading.outcome (scriptAction.importRef p.1 p.2)) rest
      fun j => j.map (fun r => (⟨r.id, .origin⟩ : ImportRef)) = i := by
  cases hi with
  | absent =>
    refine (@takeFlag_answers _ _ _ false hs hr).bind fun b t hk hb => ?_
    subst hb
    exact answers_ok hk rfl
  | present id =>
    refine (@takeFlag_answers _ (.string id :: rest) _ true hs (by simp)).bind fun b t hk hb => ?_
    subst hb
    simp only [scriptAction.importRef, ↓reduceIte, outcome_toReading, outcome_taking_andThen, outcome_done]
    refine (takeString_answers hk _).bind fun p u hu hp => answers_ok hu ?_
    rw [Option.map_some, hp]

theorem scriptAction_answers {i : Option ImportRef} {is : List Kind} {raw : String} (hi : Imported i is)
    (hs : s.kinds = is ++ .script raw :: rest) (span : Span) :
    Answers (Reading.outcome (scriptAction span s)) rest fun a =>
      a.erase = .script ⟨i, ⟨raw, .origin⟩, .origin⟩ := by
  simp only [scriptAction, outcome_reading_andThen, outcome_toReading, outcome_taking_andThen, outcome_done]
  rw [← bind_assoc]
  refine (importRef_answers hi hs (by simp)).bind fun j t hk hj => ?_
  refine (take_answers hk (show scriptText? (.script raw) = some raw from rfl) _ _).bind fun p u hu hp => ?_
  refine answers_ok hu ?_
  rw [Simple.erase, hj, hp]

theorem furtherCommands_answers : ∀ {cs : List String} {s : Stream}, s.kinds = Grammar.furtherCommands cs ++ rest →
    rest.head? ≠ some .bar →
      Answers (Reading.outcome (Program.furtherCommands s)) rest fun ds => ds.map Prod.fst = cs
  | [], s, hs, hr => by
    have hs' : s.kinds = rest := hs
    rw [outcome_furtherCommands]
    rw [← hs'] at hr ⊢
    refine (takeOptional_answers_none (exactly_none_of_head hr)).bind fun o t hk ho => ?_
    subst ho
    exact answers_ok hk rfl
  | c :: cs, s, hs, hr => by
    rw [outcome_furtherCommands]
    refine (takeOptional_answers hs (exactly_self .bar)).bind fun o t hk ho => ?_
    obtain ⟨p, rfl, -⟩ := Option.map_eq_some_iff.mp ho
    refine (takeString_answers hk _).bind fun first u hu hfirst => ?_
    refine (furtherCommands_answers hu hr).bind fun ds v hv hds => answers_ok hv ?_
    rw [List.map_cons, hfirst, hds]

theorem commandList_answers {first : String} {further : List String}
    (hs : s.kinds = .string first :: (Grammar.furtherCommands further ++ rest)) (hr : EndsSimple rest)
    (word : CommandWord) (span : Span) :
    Answers (Reading.outcome (commandList word span s)) rest fun a =>
      a.erase = .commands ⟨word, first :: further, .origin⟩ := by
  simp only [commandList, outcome_reading_andThen, outcome_toReading, outcome_taking_andThen, outcome_done]
  refine (takeString_answers hs _).bind fun p t hk hp => ?_
  refine (furtherCommands_answers hk fun h => (hr _ h).1 rfl).bind fun ds u hu hds => answers_ok hu ?_
  rw [Simple.erase, hp, hds]

theorem sayAction_answers {literal : Option String} (hs : s.kinds = literal.toList.map Kind.string ++ rest)
    (hr : EndsSimple rest) (span : Span) :
    Answers (Reading.outcome (sayAction span s)) rest fun a => a.erase = .say literal .origin := by
  simp only [sayAction, outcome_reading_andThen, outcome_done]
  cases literal with
  | none =>
    have hs' : s.kinds = rest := hs
    rw [← hs'] at hr ⊢
    refine (takeOptional_answers_none fun k hk => (hr k hk).2).bind fun o t hk ho => answers_ok hk ?_
    rw [Simple.erase, ho, Option.map_none]
  | some text =>
    refine (takeOptional_answers hs (show stringValue? (.string text) = some text from rfl)).bind
      fun o t hk ho => answers_ok hk ?_
    rw [Simple.erase, ho]

theorem callAction_answers {user : Option String} {target : String} {k : Kind} (hn : Ident target k)
    (hs : s.kinds = user.toList.map Kind.user ++ k :: rest) (span : Span) :
    Answers (Reading.outcome (callAction span s)) rest fun a => a.erase = .call ⟨user, target, .origin⟩ := by
  simp only [callAction, outcome_reading_andThen, outcome_toReading, outcome_taking_andThen, outcome_done]
  have huser : Answers (Reading.outcome (takeOptional userName? s)) (k :: rest) fun o => o.map Prod.fst = user := by
    cases user with
    | none =>
      have hs' : s.kinds = k :: rest := hs
      have hno : ∀ k', s.kinds.head? = some k' → userName? k' = none := by
        intro k' hk'
        obtain rfl : k = k' := by simpa [hs'] using hk'
        cases hn <;> rfl
      exact ⟨none, s, outcome_takeOptional_none hno, hs', rfl⟩
    | some user => exact takeOptional_answers hs rfl
  refine huser.bind fun o t hk ho => ?_
  refine (takeName_answers hn hk _).bind fun p u hu hp => answers_ok hu ?_
  rw [Simple.erase, ho, hp]

theorem simpleAction_answers {a : Simple} {ks : List Kind} (h : SimpleForm a ks) (hs : s.kinds = ks ++ rest)
    (hr : EndsSimple rest) (production : Production) :
    Answers (Taking.outcome (simpleAction production s)) rest fun b => b.erase = a := by
  have hword : ∀ (w : SimpleWord) {js : List Kind}, s.kinds = .keyword w.keyword :: js →
      Answers (Taking.outcome (take simpleWord? production .simpleAction s)) js fun p => p.1 = w :=
    fun w _ hk => take_answers hk (simpleWord?_eq_some.mpr rfl) production .simpleAction
  simp only [simpleAction, outcome_taking_andThen]
  cases h with
  | script raw hi =>
    refine (hword .script hs).bind fun found t hk hw => ?_
    obtain ⟨w, span⟩ := found
    subst hw
    exact scriptAction_answers hi (by simpa using hk) span
  | commands word first further =>
    refine (hword (.commands word) hs).bind fun found t hk hw => ?_
    obtain ⟨w, span⟩ := found
    subst hw
    exact commandList_answers hk hr word span
  | sayNothing =>
    refine (hword .say hs).bind fun found t hk hw => ?_
    obtain ⟨w, span⟩ := found
    subst hw
    exact @sayAction_answers _ _ none hk hr span
  | say text =>
    refine (hword .say hs).bind fun found t hk hw => ?_
    obtain ⟨w, span⟩ := found
    subst hw
    exact @sayAction_answers _ _ (some text) hk hr span
  | call hn =>
    refine (hword .call hs).bind fun found t hk hw => ?_
    obtain ⟨w, span⟩ := found
    subst hw
    exact @callAction_answers _ _ none _ _ hn hk span
  | callOf user hn =>
    refine (hword .call hs).bind fun found t hk hw => ?_
    obtain ⟨w, span⟩ := found
    subst hw
    exact @callAction_answers _ _ (some user) _ _ hn hk span

end

/-! ## Chains -/

/-- A simple action can be followed by a chain. -/
theorem Grammar.ChainForm.endsSimple {links : List Link} {js rest : List Kind} (h : ChainForm links js)
    (hr : EndsAction rest) : EndsSimple (js ++ rest) := by
  cases h with
  | nothing => exact hr.1
  | store key isTemp isLocal =>
    intro k hk
    cases hk
    exact ⟨by simp, rfl⟩
  | action ha hc =>
    intro k hk
    cases hk
    exact ⟨by simp, rfl⟩

theorem storeLink_answers {key : String} {isTemp isLocal : Bool} {s : Stream} {rest : List Kind}
    (hs : s.kinds = flag .temp isTemp ++ (flag .local_ isLocal ++ .string key :: rest))
    (hr : rest.head? ≠ some .arrow) (span : Span) :
    Answers (Reading.outcome (storeLink span s)) rest fun l =>
      l.step.erase = .store ⟨key, isTemp, isLocal, .origin⟩ := by
  simp only [storeLink, outcome_reading_andThen, outcome_toReading, outcome_taking_andThen]
  have htemp : (flag .local_ isLocal ++ Kind.string key :: rest).head? ≠ some (.keyword .temp) := by
    cases isLocal <;> simp [flag]
  refine (takeFlag_answers hs htemp).bind fun b t hk hb => ?_
  refine (takeFlag_answers hk (by simp)).bind fun b' u hu hb' => ?_
  refine (takeString_answers hu _).bind fun p v hv hp => ?_
  have hcur : v.current.kind ≠ .arrow := by
    intro hc
    obtain ⟨ks, hks⟩ := kinds_eq_cons_of_current hc (by simp)
    rw [hv] at hks
    rw [hks] at hr
    exact hr rfl
  simp only [if_neg hcur, outcome_done]
  refine answers_ok hv ?_
  rw [Step.erase, hp, hb, hb']

theorem Grammar.SimpleForm.head {a : Simple} {ks : List Kind} (h : SimpleForm a ks) :
    ∃ w : SimpleWord, ∃ js, ks = .keyword w.keyword :: js := by
  cases h with
  | script raw hi => exact ⟨.script, _, rfl⟩
  | commands word first further => exact ⟨.commands word, _, rfl⟩
  | sayNothing => exact ⟨.say, _, rfl⟩
  | say text => exact ⟨.say, _, rfl⟩
  | call hn => exact ⟨.call, _, rfl⟩
  | callOf user hn => exact ⟨.call, _, rfl⟩

theorem SimpleWord.keyword_ne (w : SimpleWord) :
    w.keyword ≠ .set ∧ w.keyword ≠ .get ∧ w.keyword ≠ .end_ ∧ w.keyword ≠ .prefixed := by
  rcases w with _ | (_ | _) | _ | _ <;> simp [SimpleWord.keyword, commandKeyword]

theorem chain_answers {links : List Link} {ks : List Kind} (h : ChainForm links ks) :
    ∀ {s : Stream} {rest : List Kind}, s.kinds = ks ++ rest → EndsAction rest →
      Answers (Reading.outcome (chain s)) rest fun ls => eraseChain ls = links := by
  induction h with
  | nothing =>
    intro s rest hs hr
    have hs' : s.kinds = rest := hs
    rw [outcome_chain]
    rw [← hs'] at hr ⊢
    refine (takeOptional_answers_none (exactly_none_of_head hr.2)).bind fun o t hk ho => ?_
    subst ho
    exact answers_ok hk rfl
  | store key isTemp isLocal =>
    intro s rest hs hr
    rw [outcome_chain]
    refine (takeOptional_answers hs (exactly_self .arrow)).bind fun o t hk ho => ?_
    obtain ⟨p, rfl, -⟩ := Option.map_eq_some_iff.mp ho
    simp only [if_pos (current_kind_of_cons hk)]
    refine (takeKind_answers hk _).bind fun w u hu _ => ?_
    refine (storeLink_answers (by simpa using hu) hr.2 _).bind fun l v hv hl => answers_ok hv ?_
    rw [eraseChain, List.map_singleton, hl]
  | action ha hc ih =>
    intro s rest hs hr
    rw [outcome_chain]
    refine (takeOptional_answers hs (exactly_self .arrow)).bind fun o t hk ho => ?_
    obtain ⟨p, rfl, -⟩ := Option.map_eq_some_iff.mp ho
    have hset : t.current.kind ≠ .keyword .set := by
      obtain ⟨w, js, rfl⟩ := ha.head
      rw [current_kind_of_cons hk]
      intro he
      exact w.keyword_ne.1 (Kind.keyword.inj he)
    simp only [if_neg hset]
    refine (simpleAction_answers ha (by simpa using hk) (hc.endsSimple hr) _).bind fun b u hu hb => ?_
    refine (ih hu hr).bind fun ls v hv hls => answers_ok hv ?_
    rw [eraseChain, List.map_cons, ← eraseChain, hls, actionLink, Step.erase, hb]

/-! ## Actions and bodies -/

theorem startsCompiled_iff {s : Stream} :
    startsCompiled s = true ↔ ∃ ks, s.kinds = .keyword .get :: .keyword .compiled :: ks := by
  unfold startsCompiled Stream.kinds
  split
  · rename_i t u rest hp
    simp [hp]
  · rename_i hno
    constructor
    · intro h
      cases h
    · rintro ⟨ks, hks⟩
      obtain ⟨t, rest, hp, -, hrest⟩ := List.map_eq_cons_iff.mp hks
      obtain ⟨u, rest', hp', -, -⟩ := List.map_eq_cons_iff.mp hrest
      exact absurd (hp.trans (by rw [hp'])) (hno t u rest')

theorem retrieval_answers_none {a : Simple} {ks : List Kind} (ha : SimpleForm a ks) {s : Stream} {rest : List Kind}
    (hs : s.kinds = ks ++ rest) : Answers (Reading.outcome (retrieval s)) (ks ++ rest) fun o => o = none := by
  obtain ⟨w, js, rfl⟩ := ha.head
  simp only [retrieval, outcome_reading_andThen]
  have harg : ∀ k, s.kinds.head? = some k → argumentLiteral? k = none := by
    intro k hk
    rw [hs] at hk
    cases hk
    rfl
  rw [← hs]
  refine (takeOptional_answers_none harg).bind fun o t hk ho => ?_
  subst ho
  have hget : t.kinds.head? ≠ some (.keyword .get) := by
    rw [hk, hs]
    intro he
    exact w.keyword_ne.2.1 (Kind.keyword.inj (Option.some.inj he))
  simp only [outcome_reading_andThen]
  rw [← hk]
  refine (takeOptional_answers_none (exactly_none_of_head hget)).bind fun o u hu ho => ?_
  subst ho
  exact answers_ok hu rfl

theorem arrowAfter_answers {r : Retrieve} {s : Stream} {rest : List Kind} (hs : s.kinds = .arrow :: rest) :
    Answers (Reading.outcome (retrieval.arrowAfter r s)) rest fun o => o = some r := by
  simp only [retrieval.arrowAfter, outcome_toReading, outcome_taking_andThen, outcome_done]
  exact (takeKind_answers hs _).bind fun w t hk _ => answers_ok hk rfl

theorem retrieval_answers {r : Retrieve} {rs : List Kind} (hr : RetrieveForm r rs) {s : Stream} {rest : List Kind}
    (hs : s.kinds = rs ++ .arrow :: rest) :
    Answers (Reading.outcome (retrieval s)) rest fun o => o.map Retrieve.erase = some r := by
  simp only [retrieval, outcome_reading_andThen]
  cases hr with
  | argument literal =>
    refine (takeOptional_answers hs (show argumentLiteral? (.argument literal) = some literal from rfl)).bind
      fun o t hk ho => ?_
    obtain ⟨⟨l, span⟩, rfl, rfl⟩ := Option.map_eq_some_iff.mp ho
    obtain ⟨o, u, ho, hu, rfl⟩ := @arrowAfter_answers (.argument l span) t _ hk
    exact ⟨_, u, ho, hu, rfl⟩
  | key key isLocal =>
    have harg : ∀ k, s.kinds.head? = some k → argumentLiteral? k = none := by
      intro k hk
      rw [hs] at hk
      cases hk
      rfl
    refine (takeOptional_answers_none harg).bind fun o t hk ho => ?_
    subst ho
    simp only [outcome_reading_andThen]
    refine (takeOptional_answers (hk.trans hs) (exactly_self (.keyword .get))).bind fun o u hu ho => ?_
    obtain ⟨⟨w, span⟩, rfl, -⟩ := Option.map_eq_some_iff.mp ho
    simp only [outcome_reading_andThen, outcome_toReading, outcome_taking_andThen]
    refine (@takeFlag_answers _ (.string key :: .arrow :: rest) _ isLocal (by simpa using hu) (by simp)).bind
      fun b v hv hb => ?_
    refine (takeString_answers hv _).bind fun found x hx hp => ?_
    obtain ⟨k, stop⟩ := found
    obtain ⟨o, y, ho, hy, rfl⟩ := @arrowAfter_answers (.key k b (span.join stop)) x _ hx
    subst hb
    obtain rfl : k = key := hp
    exact ⟨_, y, ho, hy, rfl⟩

theorem executeAction_answers {r : Option Retrieve} {a : Simple} {links : List Link} {ks js rest : List Kind}
    {s : Stream} (hr : Answers (Reading.outcome (retrieval s)) (ks ++ (js ++ rest)) fun o => o.map Retrieve.erase = r)
    (ha : SimpleForm a ks) (hc : ChainForm links js) (he : EndsAction rest) :
    Answers (Taking.outcome (executeAction s)) rest fun b => b.erase = .execute ⟨r, a, links, .origin⟩ := by
  rw [outcome_executeAction]
  refine hr.bind fun o t hk ho => ?_
  refine (simpleAction_answers ha hk (hc.endsSimple he) _).bind fun b u hu hb => ?_
  refine (chain_answers hc hu he).bind fun ls v hv hls => answers_ok hv ?_
  rw [Action.erase, Execute.erase, ho, hb, hls]

/-- An action starts with a token that starts actions, and before it another action can end. -/
theorem Grammar.ActionForm.head {a : Action} {ks : List Kind} (h : ActionForm a ks) :
    ∃ k js, ks = k :: js ∧ startsAction k = true := by
  cases h with
  | execute ha hc =>
    obtain ⟨w, js, rfl⟩ := ha.head
    refine ⟨_, _, rfl, ?_⟩
    rcases w with _ | (_ | _) | _ | _ <;> rfl
  | retrieved hr ha hc =>
    cases hr with
    | key key isLocal => exact ⟨_, _, rfl, rfl⟩
    | argument literal => exact ⟨_, _, rfl, rfl⟩
  | compiled hb hc => exact ⟨_, _, rfl, rfl⟩

theorem endsAction_of_startsAction {k : Kind} {ks : List Kind} (h : startsAction k = true) : EndsAction (k :: ks) := by
  refine ⟨fun k' hk' => ?_, ?_⟩
  · cases hk'
    cases k <;> simp_all [startsAction, stringValue?]
  · intro he
    cases he
    cases h

theorem endsAction_end (ks : List Kind) : EndsAction (.keyword .end_ :: ks) := by
  refine ⟨fun k hk => ?_, by simp⟩
  cases hk
  exact ⟨by simp, rfl⟩

theorem Grammar.BodyForm.endsAction {as : List Action} {ks : List Kind} (h : BodyForm as ks) (rest : List Kind) :
    EndsAction (ks ++ .keyword .end_ :: rest) := by
  cases h with
  | nil => exact endsAction_end rest
  | cons ha hr =>
    obtain ⟨k, js, rfl, hk⟩ := ha.head
    exact endsAction_of_startsAction hk

/-- A body is read completely when its actions are. -/
theorem actionsUntilEnd_answers {action : (s : Stream) → Taking Action s} {depth : Nat}
    (hact : ∀ {a ks}, ActionForm a ks → a.nesting ≤ depth → ∀ {s rest}, s.kinds = ks ++ rest → EndsAction rest →
      Answers (Taking.outcome (action s)) rest fun b => b.erase = a) (production : Production) (rest : List Kind) :
    ∀ {as : List Action} {ks : List Kind}, BodyForm as ks → nestingOf as ≤ depth → ∀ {s : Stream},
      s.kinds = ks ++ .keyword .end_ :: rest →
        Answers (Reading.outcome (actionsUntilEnd action production s)) (.keyword .end_ :: rest) fun bs =>
          eraseActions bs = as
  | [], _, h, _, s, hs => by
    cases h
    rw [outcome_actionsUntilEnd, if_pos (current_kind_of_cons hs)]
    exact answers_ok hs rfl
  | a :: as, _, h, hn, s, hs => by
    cases h with
    | cons ha hr =>
      obtain ⟨hna, hnas⟩ := Nat.max_le.mp hn
      obtain ⟨k, js, rfl, hk⟩ := ha.head
      have hcur : s.current.kind = k := current_kind_of_cons hs
      have hend : k ≠ .keyword .end_ := by
        rintro rfl
        cases hk
      rw [outcome_actionsUntilEnd, hcur, if_neg hend, hk]
      simp only [Bool.not_true, Bool.false_eq_true, ↓reduceIte]
      refine (hact ha hna (by simpa using hs) (BodyForm.endsAction hr rest)).bind fun b t ht hb => ?_
      refine (actionsUntilEnd_answers hact production rest hr hnas ht).bind fun bs u hu hbs => answers_ok hu ?_
      rw [eraseActions, hb, hbs]

theorem bodyOf_answers {action : (s : Stream) → Taking Action s} {depth : Nat}
    (hact : ∀ {a ks}, ActionForm a ks → a.nesting ≤ depth → ∀ {s rest}, s.kinds = ks ++ rest → EndsAction rest →
      Answers (Taking.outcome (action s)) rest fun b => b.erase = a) (production : Production)
    {as : List Action} {ks rest : List Kind} (h : BodyForm as ks) (hn : nestingOf as ≤ depth) {s : Stream}
    (hs : s.kinds = ks ++ .keyword .end_ :: rest) :
    Answers (Reading.outcome (bodyOf action production s)) (.keyword .end_ :: rest) fun body =>
      eraseActions body.actions = as := by
  simp only [bodyOf, outcome_reading_andThen, outcome_done]
  exact (actionsUntilEnd_answers hact production rest h hn hs).bind fun bs t ht hbs => answers_ok ht hbs

/-- An action that runs something is read whatever the room. -/
theorem executed_answers {a : Action} {ks : List Kind} (h : ActionForm a ks) (hn : a.nesting = 0) {s : Stream}
    {rest : List Kind} (hs : s.kinds = ks ++ rest) (he : EndsAction rest) :
    startsCompiled s = false ∧ Answers (Taking.outcome (executeAction s)) rest fun b => b.erase = a := by
  rw [← Bool.not_eq_true, startsCompiled_iff]
  cases h with
  | execute ha hc =>
    rw [List.append_assoc] at hs
    refine ⟨?_, executeAction_answers ?_ ha hc he⟩
    · rintro ⟨ks', hks'⟩
      obtain ⟨w, js, rfl⟩ := ha.head
      rw [hs] at hks'
      exact w.keyword_ne.2.1 (Kind.keyword.inj (List.cons.inj hks').1)
    · obtain ⟨o, t, ho, ht, rfl⟩ := retrieval_answers_none ha hs
      exact ⟨none, t, ho, ht, rfl⟩
  | retrieved hr ha hc =>
    rw [List.append_assoc, List.cons_append, List.append_assoc] at hs
    refine ⟨?_, executeAction_answers (retrieval_answers hr hs) ha hc he⟩
    rintro ⟨ks', hks'⟩
    rw [hs] at hks'
    cases hr with
    | argument literal => cases hks'
    | key key isLocal => cases isLocal <;> cases hks'
  | compiled hb hc => cases hn

/-- **Every sentence that nests within the room is read.** -/
theorem action_answers : ∀ {room : Nat} {a : Action} {ks : List Kind}, ActionForm a ks → a.nesting ≤ room →
    ∀ {s : Stream} {rest : List Kind}, s.kinds = ks ++ rest → EndsAction rest →
      Answers (Taking.outcome (action room s)) rest fun b => b.erase = a
  | 0, a, ks, h, hn, s, rest, hs, he => by
    obtain ⟨hno, hans⟩ := executed_answers h (Nat.le_zero.mp hn) hs he
    rw [action, hno]
    exact hans
  | room + 1, .execute e, ks, h, hn, s, rest, hs, he => by
    obtain ⟨hno, hans⟩ := executed_answers h rfl hs he
    rw [action, hno]
    exact hans
  | room + 1, .compiled actions bodySpan links span, ks, h, hn, s, rest, hs, he => by
    cases h with
    | @compiled _ _ ks js hb hc =>
      have hstart : startsCompiled s = true := startsCompiled_iff.mpr ⟨_, hs⟩
      rw [action, if_pos hstart]
      simp only [outcome_taking_andThen, outcome_toReading, outcome_reading_andThen, outcome_done]
      refine (takeKind_answers hs _).bind fun p t ht _ => ?_
      refine (takeKind_answers ht _).bind fun p' u hu _ => ?_
      refine (bodyOf_answers action_answers _ hb (Nat.le_of_succ_le_succ hn) (by simpa using hu)).bind
        fun body v hv hbody => ?_
      refine (takeKind_answers hv _).bind fun p'' w hw _ => ?_
      refine (chain_answers hc hw he).bind fun ls x hx hls => answers_ok hx ?_
      rw [Action.erase, hbody, hls]

/-! ## Declarations -/

theorem prefixValue_answers {o : Option String} {ps : List Kind} (hp : Prefixed o ps) {s : Stream} {rest : List Kind}
    (hs : s.kinds = ps ++ rest) (hr : rest.head? ≠ some (.keyword .prefixed)) :
    Answers (Reading.outcome (takeFlag .prefixed s) >>= fun p => Reading.outcome (definition.prefixValue p.1 p.2)) rest
      fun o' => o' = o := by
  cases hp with
  | absent =>
    refine (@takeFlag_answers _ _ _ false hs hr).bind fun b t hk hb => ?_
    subst hb
    exact answers_ok hk rfl
  | present value =>
    refine (@takeFlag_answers _ (.string value :: rest) _ true hs (by simp)).bind fun b t hk hb => ?_
    subst hb
    simp only [definition.prefixValue, ↓reduceIte, outcome_toReading, outcome_taking_andThen, outcome_done]
    refine (takeString_answers hk _).bind fun p u hu hp => answers_ok hu ?_
    rw [hp]

theorem Grammar.BodyForm.not_prefixed {as : List Action} {ks : List Kind} (h : BodyForm as ks) (rest : List Kind) :
    (ks ++ .keyword .end_ :: rest).head? ≠ some (.keyword .prefixed) := by
  cases h with
  | nil => simp
  | cons ha hr =>
    obtain ⟨k, js, rfl, hk⟩ := ha.head
    intro he
    cases he
    cases hk

theorem declaration_answers {d : Declaration} {ks : List Kind} (h : DeclarationForm d ks) (hn : d.nesting ≤ maxNesting)
    {s : Stream} {rest : List Kind} (hs : s.kinds = ks ++ rest) :
    Answers (Taking.outcome (declaration s)) rest fun e => e.erase = d := by
  have hword : ∀ (isEntry : Bool) {js : List Kind},
      s.kinds = .keyword (if isEntry then .entry else .alias_) :: js →
        Answers (Taking.outcome (take declarationWord? .declaration .declaration s)) js fun p => p.1 = isEntry :=
    fun isEntry _ hk => take_answers hk (declarationWord?_eq_some.mpr rfl) .declaration .declaration
  simp only [declaration, outcome_taking_andThen]
  cases h with
  | entry hname =>
    refine (hword true hs).bind fun found t ht hb => ?_
    obtain ⟨b, span⟩ := found
    subst hb
    simp only [↓reduceIte, outcome_toReading, outcome_taking_andThen, outcome_done]
    refine (takeName_answers hname ht _).bind fun p u hu hp => answers_ok hu ?_
    rw [Declaration.erase, hp]
  | define hname hp hb =>
    refine (hword false hs).bind fun found t ht hb' => ?_
    obtain ⟨b, span⟩ := found
    subst hb'
    simp only [Bool.false_eq_true, ↓reduceIte, definition, outcome_taking_andThen, outcome_toReading,
      outcome_reading_andThen, outcome_done]
    refine (takeName_answers hname ht _).bind fun p u hu hname' => ?_
    rw [← bind_assoc]
    refine (prefixValue_answers hp (by simpa using hu) (BodyForm.not_prefixed hb rest)).bind fun o v hv ho => ?_
    refine (bodyOf_answers action_answers _ hb hn hv).bind fun body w hw hbody => ?_
    refine (takeKind_answers hw _).bind fun stop x hx _ => answers_ok hx ?_
    rw [Declaration.erase, hname', ho, hbody]

theorem allDeclarations_complete {ds : List Declaration} {ks : List Kind} (h : DeclarationsForm ds ks)
    (hn : ∀ d ∈ ds, d.nesting ≤ maxNesting) :
    ∀ {s : Stream}, s.kinds = ks → ∃ es, allDeclarations s = .ok es ∧ es.map Declaration.erase = ds := by
  induction h with
  | nil =>
    intro s hs
    have hp : s.pending = [] := List.map_eq_nil_iff.mp hs
    exact ⟨[], by rw [allDeclarations_eq, hp]; rfl, rfl⟩
  | cons hd hr ih =>
    intro s hs
    obtain ⟨hn, hns⟩ := List.forall_mem_cons.mp hn
    have hne : s.pending.isEmpty = false := by
      rw [List.isEmpty_eq_false_iff]
      intro hp
      rw [Stream.kinds, hp] at hs
      cases hd <;> cases hs
    obtain ⟨e, t, he, ht, herase⟩ := declaration_answers hd hn hs
    obtain ⟨es, hes, hmap⟩ := ih hns ht
    refine ⟨e :: es, ?_, by rw [List.map_cons, herase, hmap]⟩
    rw [allDeclarations_eq, hne, he, ok_bind, hes]
    rfl

end AliasLang.Program
