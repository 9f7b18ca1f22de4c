/-
The parser gives every part its place. Which tokens a parser takes and what it makes of their kinds is known; here the
spans that it puts together, from the next token, the token taken last and the spans of parts, are shown to be the
stretches of these tokens. All this is about tokens in order: `Span.join` looks at both ends.
-/
import AliasLang.Proofs.Program.Placement
import AliasLang.Proofs.Program.ScriptPlace
import Mathlib.Data.List.Basic

namespace AliasLang.Program

open Source (Span)
open Token (Kind Keyword InOrder spanOf)
open Grammar

section
variable {α : Type} {s t : Stream} {ts : List Token}

/-! ## Tokens that were taken -/

theorem Follows.inOrder (h : Follows s ts t) (hs : InOrder s.pending) : InOrder ts := (h.pending ▸ hs).left

theorem Follows.inOrder_rest (h : Follows s ts t) (hs : InOrder s.pending) : InOrder t.pending :=
  (h.pending ▸ hs).right

theorem Follows.map_kind (h : Follows s ts t) {ks : List Kind} (hks : s.kinds = ks ++ t.kinds) :
    ts.map Token.kind = ks :=
  List.append_cancel_right (h.kinds.symm.trans hks)

theorem Follows.tokens_unique {us : List Token} (h : Follows s ts t) (h' : Follows s us t) : ts = us :=
  List.append_cancel_right (h.pending.symm.trans h'.pending)

theorem Follows.current {first : Token} (h : Follows s (first :: ts) t) : s.current = first := by
  rw [Stream.current, h.pending]
  rfl

theorem Follows.last_concat {last : Token} (h : Follows s (ts ++ [last]) t) : t.last = some last.span := by
  rw [h.last, List.getLast?_concat]
  rfl

theorem Follows.last_singleton {token : Token} (h : Follows s [token] t) : t.last = some token.span := h.last

theorem Follows.exists_last (h : Follows s ts t) (hne : ts ≠ []) :
    ∃ last, [last] <:+ ts ∧ t.last = some last.span := by
  obtain ⟨front, last, rfl⟩ := (List.eq_nil_or_concat' ts).resolve_left hne
  exact ⟨last, List.suffix_append front [last], h.last_concat⟩

/-- Joining the first token with the last one gives the stretch of what was taken. -/
theorem Follows.join (h : Follows s ts t) (hs : InOrder s.pending) (hne : ts ≠ []) {stop : Span}
    (hstop : t.last = some stop) : s.current.span.join stop = spanOf ts := by
  obtain ⟨last, hsuffix, hlast⟩ := h.exists_last hne
  obtain rfl : last.span = stop := Option.some.inj (hlast.symm.trans hstop)
  obtain ⟨first, rest, rfl⟩ := List.exists_cons_of_ne_nil hne
  rw [h.current]
  exact (h.inOrder hs).join_spanOf hsuffix (List.cons_ne_nil last [])

theorem takeKind_follows {k : Kind} {production : Production} {u : Unit × Span}
    (h : Taking.outcome (takeKind k production s) = .ok (u, t)) :
    ∃ token, token.kind = k ∧ token.span = u.2 ∧ Follows s [token] t := by
  obtain ⟨token, hf, hspan, hfollows⟩ := take_follows h
  exact ⟨token, eq_of_exactly hf, hspan, hfollows⟩

theorem takeFlag_follows {k : Keyword} {b : Bool} (h : Reading.outcome (takeFlag k s) = .ok (b, t)) :
    ∃ ts, ts.map Token.kind = flag k b ∧ Follows s ts t := by
  obtain ⟨ts, hts, -⟩ := takeFlag_steady b t h
  exact ⟨ts, hts.map_kind (takeFlag_sound h), hts⟩

/-! ## Simple actions -/

theorem importRef_follows {b : Bool} {i : Option ImportRef}
    (h : Reading.outcome (scriptAction.importRef b s) = .ok (i, t)) :
    Follows s (i.map fun i => (⟨.string i.id, i.span⟩ : Token)).toList t := by
  cases b with
  | false =>
    cases h
    exact .refl s
  | true =>
    simp only [scriptAction.importRef, ↓reduceIte, outcome_toReading, outcome_taking_andThen, outcome_done,
      bind_eq_ok] at h
    obtain ⟨⟨⟨id, span⟩, u⟩, hu, he⟩ := h
    cases he
    obtain ⟨token, hf, rfl, hfollows⟩ := take_follows hu
    show Follows s [⟨.string id, token.span⟩] u
    rw [← stringValue?_eq_some hf]
    exact hfollows

/-- A script action ends with the tokens of its parts. -/
theorem scriptAction_follows {span : Span} {a : Simple} (h : Reading.outcome (scriptAction span s) = .ok (a, t)) :
    ∃ script front, a = .script script ∧ Follows s (front ++ script.tokens) t ∧
      script.span = span.join script.script.span := by
  simp only [scriptAction, outcome_reading_andThen, outcome_toReading, outcome_taking_andThen, outcome_done,
    bind_eq_ok] at h
  obtain ⟨⟨b, s₁⟩, h₁, ⟨i, s₂⟩, h₂, ⟨⟨raw, rawSpan⟩, s₃⟩, h₃, he⟩ := h
  cases he
  obtain ⟨front, -, hfront⟩ := takeFlag_follows h₁
  obtain ⟨token, hf, rfl, hscript⟩ := take_follows h₃
  refine ⟨_, front, rfl, hfront.trans ((importRef_follows h₂).trans ?_), rfl⟩
  rw [← scriptText?_eq_some hf]
  exact hscript

theorem furtherCommands_last {cs : List (String × Span)}
    (h : Reading.outcome (Program.furtherCommands s) = .ok (cs, t)) :
    t.last = (cs.getLast?.map Prod.snd).or s.last := by
  fun_induction Program.furtherCommands s generalizing cs with
  | case1 s e he => cases h
  | case2 s u hle ho =>
    cases h
    rcases takeOptional_follows (outcome_of_reading ho) with ⟨-, rfl⟩ | ⟨token, a, hn, -, -⟩
    · rfl
    · cases hn
  | case3 => cases h
  | case4 => cases h
  | case5 s x u hle ho c v hlt hc ds w hle' hd ih =>
    cases h
    obtain ⟨command, commandSpan⟩ := c
    obtain ⟨token, -, rfl, hfollows⟩ := take_follows (outcome_of_taking hc)
    rw [ih (outcome_of_reading hd), hfollows.last_singleton, List.getLast?_cons]
    cases ds.getLast? <;> rfl

/-- A simple action has the place from its first token to its last one, and the parts of a script action come last. -/
theorem simpleAction_span {production : Production} {a : Simple}
    (h : Taking.outcome (simpleAction production s) = .ok (a, t)) :
    ∃ stop, t.last = some stop ∧ a.span = s.current.span.join stop ∧
      ∀ script, a = .script script → ∃ front, Follows s (front ++ script.tokens) t := by
  simp only [simpleAction, outcome_taking_andThen, bind_eq_ok] at h
  obtain ⟨⟨⟨word, span⟩, s₁⟩, h₁, h₂⟩ := h
  obtain ⟨token, -, rfl, hword⟩ := take_follows h₁
  rw [hword.current]
  cases word with
  | script =>
    obtain ⟨script, front, rfl, hfollows, hspan⟩ := scriptAction_follows h₂
    refine ⟨script.script.span, ?_, hspan, ?_⟩
    · rw [ScriptAction.tokens, ← List.append_assoc] at hfollows
      exact hfollows.last_concat
    · rintro _ ⟨⟩
      exact ⟨token :: front, hword.trans hfollows⟩
  | commands word =>
    simp only [commandList, outcome_reading_andThen, outcome_toReading, outcome_taking_andThen, outcome_done,
      bind_eq_ok] at h₂
    obtain ⟨⟨⟨first, firstSpan⟩, s₂⟩, hfirst, ⟨further, s₃⟩, hfurther, he⟩ := h₂
    cases he
    obtain ⟨command, -, rfl, hcommand⟩ := take_follows hfirst
    refine ⟨_, ?_, rfl, fun _ he => by cases he⟩
    rw [furtherCommands_last hfurther, hcommand.last_singleton]
    cases further.getLast? <;> rfl
  | say =>
    simp only [sayAction, outcome_reading_andThen, outcome_done, bind_eq_ok] at h₂
    obtain ⟨⟨literal, s₂⟩, hliteral, he⟩ := h₂
    cases he
    rcases takeOptional_follows hliteral with ⟨rfl, rfl⟩ | ⟨text, value, rfl, -, htext⟩
    · exact ⟨_, hword.last_singleton, rfl, fun _ he => by cases he⟩
    · exact ⟨_, htext.last_singleton, rfl, fun _ he => by cases he⟩
  | call =>
    simp only [callAction, outcome_reading_andThen, outcome_toReading, outcome_taking_andThen, outcome_done,
      bind_eq_ok] at h₂
    obtain ⟨⟨user, s₂⟩, -, ⟨⟨target, targetSpan⟩, s₃⟩, htarget, he⟩ := h₂
    cases he
    obtain ⟨name, -, rfl, hname⟩ := take_follows htarget
    exact ⟨_, hname.last_singleton, rfl, fun _ he => by cases he⟩

theorem simpleAction_at {production : Production} {a : Simple} (hs : InOrder s.pending)
    (h : Taking.outcome (simpleAction production s) = .ok (a, t)) : ∃ ts, Follows s ts t ∧ SimpleAt a ts := by
  -- the tokens that were taken, and what their kinds derive, are known without the places
  obtain ⟨ts, hts, -⟩ := simpleAction_diagnoses.steady a t h
  obtain ⟨ks, hks, hform⟩ := simpleAction_sound h
  obtain ⟨stop, hlast, hspan, hscript⟩ := simpleAction_span h
  rw [← hts.map_kind hks] at hform
  have hne : ts ≠ [] := by
    rintro rfl
    exact hform.ne_nil rfl
  refine ⟨ts, hts, hform, hspan.trans (hts.join hs hne hlast), fun script ha => ?_⟩
  obtain ⟨front, hfront⟩ := hscript script ha
  exact ⟨front, hfront.tokens_unique hts⟩

/-! ## Chains -/

/-- What ends with a chain goes to the end of its first link, or, if there is none, of the tokens before it. -/
theorem ChainAt.join {links : List Link} {later : List Token} (hc : ChainAt links later) {front us : List Token}
    (h : Follows s (front ++ later) t) (hs : InOrder s.pending) (hus : us <:+ front) (hne : us ≠ []) :
    s.current.span.join (chainEnd (spanOf us) links) = spanOf (front ++ later) := by
  obtain ⟨first, front, rfl⟩ := List.exists_cons_of_ne_nil (hus.ne_nil hne)
  have hord : InOrder (first :: front ++ later) := h.inOrder hs
  rw [Follows.current h]
  cases hc with
  | nothing =>
    rw [List.append_nil] at hord ⊢
    exact hord.join_spanOf hus hne
  | @store arrow rest key isTemp isLocal harrow hrest =>
    have hsuffix : rest <:+ first :: front ++ arrow :: rest := ⟨first :: front ++ [arrow], by simp⟩
    refine hord.join_spanOf hsuffix ?_
    rintro rfl
    cases hrest
  | @action arrow a chain step rest harrow ha hc =>
    have hsuffix : step ++ rest <:+ first :: front ++ arrow :: (step ++ rest) := ⟨first :: front ++ [arrow], by simp⟩
    exact hord.join_spanOf hsuffix (by simp [ha.ne_nil])

/-- The rest of a store, after `set`. -/
theorem storeLink_follows {span : Span} {l : Link} (h : Reading.outcome (storeLink span s) = .ok (l, t)) :
    ∃ ts key isTemp isLocal stop, Follows s ts t ∧
      ts.map Token.kind = flag .temp isTemp ++ (flag .local_ isLocal ++ [.string key]) ∧ t.last = some stop ∧
      l = ⟨.store ⟨key, isTemp, isLocal, span.join stop⟩, span.join stop⟩ := by
  simp only [storeLink, outcome_reading_andThen, outcome_toReading, outcome_taking_andThen, bind_eq_ok] at h
  obtain ⟨⟨isTemp, s₁⟩, h₁, ⟨isLocal, s₂⟩, h₂, ⟨⟨key, keySpan⟩, s₃⟩, h₃, h₄⟩ := h
  split at h₄
  · cases h₄
  · cases h₄
    obtain ⟨temps, htemps, hfollows₁⟩ := takeFlag_follows h₁
    obtain ⟨locals, hlocals, hfollows₂⟩ := takeFlag_follows h₂
    obtain ⟨token, hf, rfl, hfollows₃⟩ := take_follows h₃
    refine ⟨_, key, isTemp, isLocal, token.span, hfollows₁.trans (hfollows₂.trans hfollows₃), ?_,
      hfollows₃.last_singleton, ?_⟩
    · simp [htemps, hlocals, stringValue?_eq_some hf]
    · rw [Stream.lastSpan, hfollows₃.last_singleton]
      rfl

theorem chain_at {links : List Link} (hs : InOrder s.pending) (h : Reading.outcome (chain s) = .ok (links, t)) :
    ∃ ts, Follows s ts t ∧ ChainAt links ts := by
  induction hn : s.size using Nat.strongRecOn generalizing s links with
  | _ n ih =>
    subst hn
    rw [outcome_chain, bind_eq_ok] at h
    obtain ⟨⟨arrow, s₁⟩, h₁, h⟩ := h
    have hlonger := Reading.notLonger h₁
    rcases takeOptional_follows h₁ with ⟨rfl, rfl⟩ | ⟨token, u, rfl, hf, harrow⟩
    · cases h
      exact ⟨[], .refl s₁, .nothing⟩
    · have hs₁ := harrow.inOrder_rest hs
      dsimp only at h
      split at h
      · -- a store ends the chain: its link and its step have the same tokens
        simp only [bind_eq_ok] at h
        obtain ⟨⟨word, s₂⟩, h₂, ⟨link, s₃⟩, h₃, he⟩ := h
        cases he
        obtain ⟨set, hset, -, hfollows⟩ := takeKind_follows h₂
        obtain ⟨ts, key, isTemp, isLocal, stop, hts, hkinds, hlast, rfl⟩ := storeLink_follows h₃
        have hall := hfollows.trans hts
        rw [hall.join hs₁ (by simp) hlast]
        refine ⟨token :: ([set] ++ ts), harrow.trans hall, .store (eq_of_exactly hf) ?_⟩
        simp [hset, hkinds]
      · simp only [bind_eq_ok] at h
        obtain ⟨⟨a, s₂⟩, h₂, ⟨rest, s₃⟩, h₃, he⟩ := h
        cases he
        have hshorter := Taking.shorter h₂
        obtain ⟨ts, hts, ha⟩ := simpleAction_at hs₁ h₂
        obtain ⟨us, hus, hc⟩ := ih s₂.size (by omega) (hts.inOrder_rest hs₁) h₃ rfl
        have hall := hts.trans hus
        refine ⟨token :: (ts ++ us), harrow.trans hall, ?_⟩
        -- the link goes on to the end of the links after it
        have hlink : actionLink s₁.current.span (s₂.lastSpan s₁.current.span) a rest =
            ⟨.action a, spanOf (ts ++ us)⟩ := by
          obtain ⟨last, hsuffix, hlast⟩ := hts.exists_last ha.ne_nil
          rw [Stream.lastSpan, hlast]
          exact congrArg _ (hc.join hall hs₁ hsuffix (List.cons_ne_nil last []))
        rw [hlink]
        exact .action (eq_of_exactly hf) ha hc

/-! ## Actions and bodies -/

theorem arrowAfter_follows {r : Retrieve} {o : Option Retrieve}
    (h : Reading.outcome (retrieval.arrowAfter r s) = .ok (o, t)) :
    o = some r ∧ ∃ arrow, arrow.kind = .arrow ∧ Follows s [arrow] t := by
  simp only [retrieval.arrowAfter, outcome_toReading, outcome_taking_andThen, outcome_done, bind_eq_ok] at h
  obtain ⟨⟨u, s₁⟩, h₁, he⟩ := h
  cases he
  obtain ⟨arrow, harrow, -, hfollows⟩ := takeKind_follows h₁
  exact ⟨rfl, arrow, harrow, hfollows⟩

theorem retrieval_at {o : Option Retrieve} (hs : InOrder s.pending)
    (h : Reading.outcome (retrieval s) = .ok (o, t)) :
    (o = none ∧ t = s) ∨
      ∃ r rs arrow, o = some r ∧ RetrieveAt r rs ∧ arrow.kind = .arrow ∧ Follows s (rs ++ [arrow]) t := by
  simp only [retrieval, outcome_reading_andThen, bind_eq_ok] at h
  obtain ⟨⟨argument, s₁⟩, h₁, h⟩ := h
  rcases takeOptional_follows h₁ with ⟨rfl, rfl⟩ | ⟨token, literal, rfl, hf, htoken⟩
  · simp only [outcome_reading_andThen, bind_eq_ok] at h
    obtain ⟨⟨get, s₂⟩, h₂, h⟩ := h
    rcases takeOptional_follows h₂ with ⟨rfl, rfl⟩ | ⟨token, u, rfl, hf, htoken⟩
    · cases h
      exact .inl ⟨rfl, rfl⟩
    · simp only [outcome_reading_andThen, outcome_toReading, outcome_taking_andThen, bind_eq_ok] at h
      obtain ⟨⟨isLocal, s₃⟩, h₃, ⟨⟨key, keySpan⟩, s₄⟩, h₄, h⟩ := h
      obtain ⟨rfl, arrow, harrow, hfollows⟩ := arrowAfter_follows h
      obtain ⟨locals, hlocals, hflag⟩ := takeFlag_follows h₃
      obtain ⟨keyToken, hkey, rfl, hkeyToken⟩ := take_follows h₄
      have hall := htoken.trans (hflag.trans hkeyToken)
      refine .inr ⟨_, [token] ++ (locals ++ [keyToken]), arrow, rfl, ⟨?_, ?_⟩, harrow, hall.trans hfollows⟩
      · have hform := RetrieveForm.key key isLocal
        simpa [Retrieve.erase, eq_of_exactly hf, hlocals, stringValue?_eq_some hkey] using hform
      · have hspan := hall.join hs (by simp) hkeyToken.last_singleton
        rw [← hspan, Follows.current hall]
        rfl
  · obtain ⟨rfl, arrow, harrow, hfollows⟩ := arrowAfter_follows h
    refine .inr ⟨_, [token], arrow, rfl, ⟨?_, rfl⟩, harrow, htoken.trans hfollows⟩
    have hform := RetrieveForm.argument literal
    simpa [Retrieve.erase, argumentLiteral?_eq_some hf] using hform

theorem executeAction_at {a : Action} (hs : InOrder s.pending)
    (h : Taking.outcome (executeAction s) = .ok (a, t)) : ∃ ts, Follows s ts t ∧ ActionAt a ts := by
  simp only [outcome_executeAction, bind_eq_ok] at h
  obtain ⟨⟨retrieve, s₁⟩, h₁, ⟨action, s₂⟩, h₂, ⟨links, s₃⟩, h₃, he⟩ := h
  cases he
  rcases retrieval_at hs h₁ with ⟨rfl, rfl⟩ | ⟨r, rs, arrow, rfl, hr, harrow, hrs⟩
  · obtain ⟨ts, hts, ha⟩ := simpleAction_at hs h₂
    obtain ⟨us, hus, hc⟩ := chain_at (hts.inOrder_rest hs) h₃
    have hall := hts.trans hus
    refine ⟨ts ++ us, hall, ?_⟩
    rw [ha.span, hc.join hall hs (List.suffix_refl ts) ha.ne_nil]
    exact .execute ha hc
  · have hs₁ := hrs.inOrder_rest hs
    obtain ⟨ts, hts, ha⟩ := simpleAction_at hs₁ h₂
    obtain ⟨us, hus, hc⟩ := chain_at (hts.inOrder_rest hs₁) h₃
    have hall := (hrs.trans hts).trans hus
    have hsame : rs ++ [arrow] ++ ts ++ us = rs ++ arrow :: (ts ++ us) := by simp
    refine ⟨rs ++ arrow :: (ts ++ us), hsame ▸ hall, ?_⟩
    rw [ha.span, hc.join hall hs (List.suffix_append _ ts) ha.ne_nil, hsame]
    exact .retrieved hr harrow ha hc

/-- A body is placed as well as the parser of its actions places them; an `end` follows. -/
theorem actionsUntilEnd_at {action : (s : Stream) → Taking Action s} {production : Production}
    (hact : ∀ {s t a}, InOrder s.pending → Taking.outcome (action s) = .ok (a, t) →
      ∃ ts, Follows s ts t ∧ ActionAt a ts)
    {actions : List Action} (hs : InOrder s.pending)
    (h : Reading.outcome (actionsUntilEnd action production s) = .ok (actions, t)) :
    ∃ ts, Follows s ts t ∧ BodyAt actions ts := by
  induction hn : s.size using Nat.strongRecOn generalizing s actions with
  | _ n ih =>
    subst hn
    rw [outcome_actionsUntilEnd] at h
    split at h
    · cases h
      exact ⟨[], .refl t, .nil⟩
    split at h
    · cases h
    simp only [bind_eq_ok] at h
    obtain ⟨⟨a, s₁⟩, h₁, ⟨rest, s₂⟩, h₂, he⟩ := h
    cases he
    obtain ⟨ts, hts, ha⟩ := hact hs h₁
    obtain ⟨us, hus, hr⟩ := ih s₁.size (Taking.shorter h₁) (hts.inOrder_rest hs) h₂ rfl
    exact ⟨ts ++ us, hts.trans hus, .cons ha hr⟩

/-- An empty body has the place of the token that follows it. -/
theorem bodyOf_at {action : (s : Stream) → Taking Action s} {production : Production}
    (hact : ∀ {s t a}, InOrder s.pending → Taking.outcome (action s) = .ok (a, t) →
      ∃ ts, Follows s ts t ∧ ActionAt a ts)
    {body : Body} (hs : InOrder s.pending) (h : Reading.outcome (bodyOf action production s) = .ok (body, t)) :
    ∃ ts, Follows s ts t ∧ BodyAt body.actions ts ∧ body.span = bodySpan ts t.current := by
  simp only [bodyOf, outcome_reading_andThen, outcome_done, bind_eq_ok] at h
  obtain ⟨⟨actions, s₁⟩, h₁, he⟩ := h
  cases he
  obtain ⟨ts, hts, hb⟩ := actionsUntilEnd_at hact hs h₁
  refine ⟨ts, hts, hb, ?_⟩
  cases hb with
  | nil =>
    -- no token was taken, so the token that follows is the one that was next
    obtain rfl : s₁ = s := hts.unique (.refl s)
    exact Span.join_self _
  | @cons a rest us vs ha hr =>
    have hne : us ++ vs ≠ [] := by simp [ha.ne_nil]
    obtain ⟨last, -, hlast⟩ := hts.exists_last hne
    have hspan := hts.join hs hne hlast
    obtain ⟨first, later, hfirst⟩ := List.exists_cons_of_ne_nil hne
    rw [hfirst] at hspan ⊢
    simp only [List.isEmpty_cons, Bool.false_eq_true, if_false, Stream.lastSpan, hlast, Option.getD_some]
    exact hspan

/-- Every action has its place, whatever room there is. -/
theorem action_at : ∀ {room : Nat} {s t : Stream} {a : Action}, InOrder s.pending →
    Taking.outcome (action room s) = .ok (a, t) → ∃ ts, Follows s ts t ∧ ActionAt a ts
  | 0, s, t, a, hs, h => by
    rw [action] at h
    split at h
    · cases h
    · exact executeAction_at hs h
  | room + 1, s, t, a, hs, h => by
    rw [action] at h
    split at h
    · simp only [outcome_taking_andThen, outcome_toReading, outcome_reading_andThen, outcome_done, bind_eq_ok] at h
      obtain ⟨⟨getWord, s₁⟩, h₁, ⟨_, s₂⟩, h₂, ⟨body, s₃⟩, h₃, ⟨⟨_, stopSpan⟩, s₄⟩, h₄, ⟨links, s₅⟩, h₅, he⟩ := h
      cases he
      obtain ⟨get, hget, hgetSpan, hfollows₁⟩ := takeKind_follows h₁
      obtain ⟨word, hword, -, hfollows₂⟩ := takeKind_follows h₂
      have hs₂ := hfollows₂.inOrder_rest (hfollows₁.inOrder_rest hs)
      obtain ⟨ts, hts, hb, hspan⟩ := bodyOf_at action_at hs₂ h₃
      have hs₃ := hts.inOrder_rest hs₂
      obtain ⟨stop, hstop, rfl, hfollows₄⟩ := takeKind_follows h₄
      obtain ⟨us, hus, hc⟩ := chain_at (hfollows₄.inOrder_rest hs₃) h₅
      have hall := (((hfollows₁.trans hfollows₂).trans hts).trans hfollows₄).trans hus
      have hsame : [get] ++ [word] ++ ts ++ [stop] ++ us = get :: word :: (ts ++ stop :: us) := by simp
      refine ⟨_, hsame ▸ hall, ?_⟩
      have hjoin := hc.join hall hs (List.suffix_append _ [stop]) (List.cons_ne_nil stop [])
      rw [hsame, hfollows₁.current, Token.spanOf_singleton] at hjoin
      dsimp only
      rw [hspan, hfollows₄.current, ← hgetSpan, hjoin]
      exact .compiled hget hword hstop hb hc
    · exact executeAction_at hs h

/-! ## Declarations -/

theorem prefixValue_follows {b : Bool} {o : Option String}
    (h : Reading.outcome (definition.prefixValue b s) = .ok (o, t)) {flags : List Token}
    (hflags : flags.map Token.kind = flag .prefixed b) :
    ∃ ts, Follows s ts t ∧ Prefixed o ((flags ++ ts).map Token.kind) := by
  obtain ⟨ts, hts, -⟩ := prefixValue_steady o t h
  obtain ⟨ks, hks, hform⟩ := prefixValue_sound h
  have hkinds : (flags ++ ts).map Token.kind ++ t.kinds = ks ++ t.kinds := by
    rw [List.map_append, List.append_assoc, ← hts.kinds, hflags, hks]
  exact ⟨ts, hts, List.append_cancel_right hkinds ▸ hform⟩

theorem declaration_at {d : Declaration} (hs : InOrder s.pending)
    (h : Taking.outcome (declaration s) = .ok (d, t)) : ∃ ts, Follows s ts t ∧ DeclarationAt d ts := by
  simp only [declaration, outcome_taking_andThen, bind_eq_ok] at h
  obtain ⟨⟨⟨isEntry, span⟩, s₁⟩, h₁, h₂⟩ := h
  obtain ⟨word, hword, rfl, hfollows₁⟩ := take_follows h₁
  rw [declarationWord?_eq_some] at hword
  have hs₁ := hfollows₁.inOrder_rest hs
  cases isEntry with
  | true =>
    simp only [if_true, outcome_toReading, outcome_taking_andThen, outcome_done, bind_eq_ok] at h₂
    obtain ⟨⟨⟨name, nameSpan⟩, s₂⟩, h₂, he⟩ := h₂
    cases he
    obtain ⟨token, hname, rfl, hfollows₂⟩ := take_follows h₂
    have hall := hfollows₁.trans hfollows₂
    refine ⟨_, hall, ?_⟩
    have hjoin := hall.join hs (by simp) hfollows₂.last_singleton
    rw [hfollows₁.current] at hjoin
    dsimp only
    rw [hjoin]
    exact .entry hword (nameText?_eq_some.mp hname)
  | false =>
    simp only [Bool.false_eq_true, if_false, definition, outcome_taking_andThen, outcome_toReading,
      outcome_reading_andThen, outcome_done, bind_eq_ok] at h₂
    obtain ⟨⟨⟨name, nameSpan⟩, s₂⟩, h₂, ⟨isPrefixed, s₃⟩, h₃, ⟨keyPrefix, s₄⟩, h₄, ⟨body, s₅⟩, h₅, ⟨⟨u, stopSpan⟩, s₆⟩,
      h₆, he⟩ := h₂
    cases he
    obtain ⟨token, hname, -, hfollows₂⟩ := take_follows h₂
    obtain ⟨flags, hflags, hfollows₃⟩ := takeFlag_follows h₃
    obtain ⟨values, hfollows₄, hp⟩ := prefixValue_follows h₄ hflags
    have hhead := hfollows₁.trans (hfollows₂.trans (hfollows₃.trans hfollows₄))
    have hs₄ := hhead.inOrder_rest hs
    obtain ⟨ts, hts, hb, hspan⟩ := bodyOf_at action_at hs₄ h₅
    obtain ⟨stop, hstop, rfl, hfollows₆⟩ := takeKind_follows h₆
    have hall := hhead.trans (hts.trans hfollows₆)
    have hsame : [word] ++ ([token] ++ (flags ++ values)) ++ (ts ++ [stop]) =
        word :: token :: ((flags ++ values) ++ (ts ++ [stop])) := by simp
    refine ⟨_, hsame ▸ hall, ?_⟩
    have hjoin := hall.join hs (by simp) hfollows₆.last_singleton
    rw [hsame, hfollows₁.current] at hjoin
    dsimp only
    obtain ⟨actions, bodySpan⟩ := body
    dsimp only at hspan hb ⊢
    rw [hspan, hfollows₆.current, hjoin]
    exact .define hword (nameText?_eq_some.mp hname) hp hb hstop

/-- **The parser gives every part of a program the place of its tokens.** -/
theorem allDeclarations_at {ds : List Declaration} (hs : InOrder s.pending) (h : allDeclarations s = .ok ds) :
    DeclarationsAt ds s.pending := by
  induction hn : s.size using Nat.strongRecOn generalizing s ds with
  | _ n ih =>
    subst hn
    rw [allDeclarations_eq] at h
    split at h
    · rename_i hnil
      cases h
      rw [List.isEmpty_iff.mp hnil]
      exact .nil
    simp only [bind_eq_ok] at h
    obtain ⟨⟨d, s₁⟩, h₁, rest, h₂, he⟩ := h
    cases he
    obtain ⟨ts, hts, hd⟩ := declaration_at hs h₁
    have hrest := ih s₁.size (Taking.shorter h₁) (hts.inOrder_rest hs) h₂ rfl
    rw [hts.pending]
    exact .cons hd hrest

end

end AliasLang.Program
