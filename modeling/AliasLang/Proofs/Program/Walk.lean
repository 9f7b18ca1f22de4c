/-
Walks end where the parsers on streams do. A cursor stands in front of a stream if the tokens from its position on, up
to the first end of input, are those of the stream. From such a cursor each walk has the answer of its parser, and the
cursor where it ends stands in front of what the parser leaves, with the same number of open blocks. Between a call and
the next one inside of it at least one token is taken, so calls that may nest deeper than there are tokens left always
end. And as the position of a cursor and the number of tokens left add up to the position of the end of input, no walk
gets beyond that.
-/
import AliasLang.Proofs.Program.Cursor
import AliasLang.Proofs.Program.Lookahead

namespace AliasLang.Program

open Source (Span)
open Token (Kind Keyword)

/-! ## Cursors in front of streams -/

namespace Cursor

/-- The tokens `front` were passed, and the stream is left up to the first end of input. -/
structure Passed (c : Cursor) (front : List Token) (s : Stream) : Prop where
  tokens : ∃ more, c.tokens = front ++ (s.pending ++ ⟨.endOfInput, s.endSpan⟩ :: more)
  pos : c.pos = front.length
  ordinary : ∀ t ∈ front ++ s.pending, t.kind ≠ .endOfInput
  last : s.last = front.getLast?.map Token.span

/-- The cursor stands in front of the stream. -/
def Stands (c : Cursor) (s : Stream) : Prop := ∃ front, Passed c front s

/-- From `c` to `c'` the cursor has not moved back, and all blocks that were opened are closed again. -/
structure Reaches (c c' : Cursor) : Prop where
  tokens : c'.tokens = c.tokens
  depth : c'.depth = c.depth
  pos : c.pos ≤ c'.pos

theorem Reaches.refl (c : Cursor) : Reaches c c := ⟨rfl, rfl, Nat.le_refl _⟩

theorem Reaches.trans {c c' c'' : Cursor} (h : Reaches c c') (h' : Reaches c' c'') : Reaches c c'' :=
  ⟨h'.tokens.trans h.tokens, h'.depth.trans h.depth, Nat.le_trans h.pos h'.pos⟩

theorem Reaches.stop {c c' : Cursor} (h : Reaches c c') : c'.stop = c.stop := by
  rw [Cursor.stop, Cursor.stop, h.tokens]

namespace Stands

variable {c : Cursor} {s : Stream}

theorem current (h : Stands c s) : c.tokens[c.pos]? = some s.current := by
  obtain ⟨front, ⟨more, htokens⟩, hpos, -, -⟩ := h
  rw [htokens, hpos, List.getElem?_append_right (Nat.le_refl _), Nat.sub_self, Stream.current]
  cases s.pending with
  | nil => rfl
  | cons t rest => rfl

/-- The second token is told from the first one and the kind of the one after it. -/
theorem startsCompiled_iff (h : Stands c s) :
    startsCompiled s = true ↔
      s.current.kind = .keyword .get ∧ c.tokens[c.pos + 1]?.map Token.kind = some (.keyword .compiled) := by
  obtain ⟨front, ⟨more, htokens⟩, hpos, -, -⟩ := h
  rw [htokens, hpos, List.getElem?_append_right (Nat.le_add_right _ _), Nat.add_sub_cancel_left, Stream.current,
    startsCompiled]
  rcases s.pending with _ | ⟨t, _ | ⟨u, rest⟩⟩ <;> simp

/-- The position and the number of tokens left add up to the position of the first end of input. -/
theorem pos_add_size (h : Stands c s) : c.pos + s.size = c.stop := by
  obtain ⟨front, ⟨more, htokens⟩, hpos, hordinary, -⟩ := h
  have hnone : (front ++ s.pending).findIdx (·.kind = .endOfInput) = (front ++ s.pending).length :=
    List.findIdx_eq_length.mpr fun t ht => decide_eq_false (hordinary t ht)
  rw [stop, htokens, ← List.append_assoc, List.findIdx_append, hnone, if_neg (Nat.lt_irrefl _)]
  simp [List.findIdx_cons, hpos, Stream.size]

theorem stop_lt (h : Stands c s) : c.stop < c.tokens.length := by
  have hsum := h.pos_add_size
  obtain ⟨front, ⟨more, htokens⟩, hpos, -, -⟩ := h
  rw [htokens]
  simp [Stream.size] at hsum ⊢
  omega

theorem advance (h : Stands c s) {token : Token} {rest : List Token} (hp : s.pending = token :: rest) :
    Stands { c with pos := c.pos + 1 } ⟨rest, s.endSpan, some token.span⟩ := by
  obtain ⟨front, ⟨more, htokens⟩, hpos, hordinary, -⟩ := h
  refine ⟨front ++ [token], ⟨more, ?_⟩, ?_, ?_, ?_⟩
  · rw [htokens, hp]
    simp
  · simp [hpos]
  · rw [hp] at hordinary
    simpa using hordinary
  · simp

theorem withDepth (h : Stands c s) (n : Nat) : Stands { c with depth := n } s := by
  obtain ⟨front, htokens, hpos, hordinary, hlast⟩ := h
  exact ⟨front, htokens, hpos, hordinary, hlast⟩

end Stands
end Cursor

namespace Walk

/-! ## Walks that answer as parsers do -/

section
variable {α β : Type} {w : Walk α} {f : α → Walk β} {c c' : Cursor} {s : Stream}

theorem runFrom_get (c : Cursor) : runFrom get c = some (.ok c, c) := rfl

theorem runFrom_bind_ok {a : α} (h : runFrom w c = some (.ok a, c')) : runFrom (w >>= f) c = runFrom (f a) c' := by
  unfold runFrom at h ⊢
  rw [ExceptT.run_bind, StateT.run_bind, h]
  rfl

theorem runFrom_bind_error {e : ParseError} (h : runFrom w c = some (.error e, c')) :
    runFrom (w >>= f) c = some (.error e, c') := by
  unfold runFrom at h ⊢
  rw [ExceptT.run_bind, StateT.run_bind, h]
  rfl

/-- From the cursor the walk has this answer, and it ends in front of the stream that is left. After an error that may
be any stream. -/
inductive Mirrors (w : Walk α) (c : Cursor) : Except ParseError (α × Stream) → Prop
  | ok {a : α} {t : Stream} {c' : Cursor} (runs : runFrom w c = some (.ok a, c')) (stands : c'.Stands t)
      (reaches : c.Reaches c') : Mirrors w c (.ok (a, t))
  | error {e : ParseError} {t : Stream} {c' : Cursor} (runs : runFrom w c = some (.error e, c')) (stands : c'.Stands t)
      (reaches : c.Reaches c') : Mirrors w c (.error e)

theorem Mirrors.pure (h : c.Stands s) (a : α) : Mirrors (pure a) c (.ok (a, s)) := .ok rfl h (.refl c)

theorem Mirrors.bind {r : Except ParseError (α × Stream)} {q : α × Stream → Except ParseError (β × Stream)}
    (hw : Mirrors w c r)
    (hf : ∀ a t c', r = .ok (a, t) → c.Reaches c' → c'.Stands t → Mirrors (f a) c' (q (a, t))) :
    Mirrors (w >>= f) c (r >>= q) := by
  cases hw with
  | error hruns hstands hreaches => exact .error (runFrom_bind_error hruns) hstands hreaches
  | ok hruns hstands hreaches =>
    have hrest := hf _ _ _ rfl hreaches hstands
    rw [ok_bind]
    cases hq : q _ with
    | error e =>
      rw [hq] at hrest
      cases hrest with
      | error hruns' hstands' hreaches' =>
        exact .error ((runFrom_bind_ok hruns).trans hruns') hstands' (hreaches.trans hreaches')
    | ok p =>
      rw [hq] at hrest
      cases hrest with
      | ok hruns' hstands' hreaches' =>
        exact .ok ((runFrom_bind_ok hruns).trans hruns') hstands' (hreaches.trans hreaches')

/-- A walk that only looks leaves the cursor where it is. -/
theorem Mirrors.look {a : α} {r : Except ParseError (β × Stream)} (hw : runFrom w c = some (.ok a, c))
    (hf : Mirrors (f a) c r) : Mirrors (w >>= f) c r := by
  cases hf with
  | error hruns hstands hreaches => exact .error ((runFrom_bind_ok hw).trans hruns) hstands hreaches
  | ok hruns hstands hreaches => exact .ok ((runFrom_bind_ok hw).trans hruns) hstands hreaches

end

/-! ## Single tokens -/

section
variable {α : Type} {f : Kind → Option α} {production : Production} {expected : Expected} {c : Cursor} {s : Stream}

theorem runFrom_current (h : c.Stands s) : runFrom current c = some (.ok s.current, c) := by
  show (c.tokens[c.pos]?.map fun t => (Except.ok t, c)) = _
  rw [h.current]
  rfl

theorem runFrom_previousSpan (h : c.Stands s) : runFrom previousSpan c = some (.ok s.last, c) := by
  obtain ⟨front, ⟨more, htokens⟩, hpos, -, hlast⟩ := h
  obtain ⟨tokens, pos, depth⟩ := c
  dsimp only at htokens hpos
  rw [hlast]
  rcases List.eq_nil_or_concat front with rfl | ⟨before, token, rfl⟩
  · subst hpos
    rfl
  · rw [List.length_concat] at hpos
    subst htokens hpos
    show ((_ : List Token)[before.length]?.map fun t => (Except.ok (some t.span), _)) = _
    simp

theorem runFrom_secondKind (c : Cursor) :
    runFrom secondKind c = some (.ok (c.tokens[c.pos + 1]?.map Token.kind), c) := rfl

theorem runFrom_advance (h : c.Stands s) {token : Token} {rest : List Token} (hp : s.pending = token :: rest) :
    runFrom advance c = some (.ok (), { c with pos := c.pos + 1 }) := by
  obtain ⟨front, -, -, hordinary, -⟩ := id h
  have hkind : s.current.kind ≠ .endOfInput := by
    rw [Stream.current, hp]
    exact hordinary token (by simp [hp])
  unfold advance
  rw [runFrom_bind_ok (runFrom_current h), if_neg hkind]
  rfl

theorem unmet_mirrors (h : c.Stands s) :
    Mirrors (unmet production expected : Walk α) c (.error (s.unmet production expected)) := by
  refine .error ?_ h (.refl c)
  unfold unmet
  rw [runFrom_bind_ok (runFrom_current h)]
  rfl

/-- A kind that is refused at the end of input is refused by the token at the cursor if the stream has none. -/
theorem refused_current (hf : f .endOfInput = none) (hr : Refuses f s) : f s.current.kind = none := by
  cases hp : s.pending with
  | nil =>
    rw [Stream.current, hp]
    exact hf
  | cons token rest =>
    rw [Stream.current, hp]
    exact hr token.kind (by rw [kinds_of_pending_cons hp]; rfl)

theorem current_accepted {token : Token} {rest : List Token} (hp : s.pending = token :: rest) : s.current = token := by
  rw [Stream.current, hp]
  rfl

theorem accept_mirrors (hf : f .endOfInput = none) (h : c.Stands s) :
    Mirrors (accept f production expected) c (Taking.outcome (take f production expected s)) := by
  unfold accept
  refine .look (runFrom_current h) ?_
  rcases refuses_or_accepts f s with hr | ⟨token, rest, a, hp, ha⟩
  · rw [outcome_take_refused hr, refused_current hf hr]
    exact unmet_mirrors h
  · rw [outcome_take_accepted hp ha, current_accepted hp, ha]
    exact .ok (runFrom_bind_ok (runFrom_advance h hp)) (h.advance hp) ⟨rfl, rfl, Nat.le_succ _⟩

theorem acceptOptional_mirrors (hf : f .endOfInput = none) (h : c.Stands s) :
    Mirrors (acceptOptional f) c (Reading.outcome (takeOptional f s)) := by
  unfold acceptOptional
  refine .look (runFrom_current h) ?_
  rcases refuses_or_accepts f s with hr | ⟨token, rest, a, hp, ha⟩
  · rw [outcome_takeOptional_none hr, refused_current hf hr]
    exact .pure h none
  · rw [outcome_takeOptional_accepted hp ha, current_accepted hp, ha]
    exact .ok (runFrom_bind_ok (runFrom_advance h hp)) (h.advance hp) ⟨rfl, rfl, Nat.le_succ _⟩

theorem acceptKind_mirrors {kind : Kind} (hk : kind ≠ .endOfInput) (h : c.Stands s) :
    Mirrors (acceptKind kind production) c (Taking.outcome (takeKind kind production s)) :=
  accept_mirrors (exactly_eq_none hk.symm) h

theorem acceptFlag_mirrors (keyword : Keyword) (h : c.Stands s) :
    Mirrors (acceptFlag keyword) c (Reading.outcome (takeFlag keyword s)) := by
  unfold acceptFlag takeFlag
  rw [outcome_reading_andThen]
  exact .bind (acceptOptional_mirrors rfl h) fun found t c₁ _ _ h₁ => .pure h₁ _

theorem acceptString_mirrors (h : c.Stands s) :
    Mirrors (acceptString production) c (Taking.outcome (takeString production s)) := accept_mirrors rfl h

theorem acceptName_mirrors (h : c.Stands s) :
    Mirrors (acceptName production) c (Taking.outcome (takeName production s)) := accept_mirrors rfl h

end

/-! ## Simple actions -/

section
variable {calls : Nat} {c : Cursor} {s : Stream}

theorem importRef_mirrors (hasImport : Bool) (h : c.Stands s) :
    Mirrors (importRef hasImport) c (Reading.outcome (scriptAction.importRef hasImport s)) := by
  cases hasImport with
  | false => exact .pure h none
  | true =>
    unfold importRef scriptAction.importRef
    rw [if_pos rfl, if_pos rfl, outcome_toReading, outcome_taking_andThen]
    exact .bind (acceptString_mirrors h) fun value t c₁ _ _ h₁ => .pure h₁ _

theorem scriptRest_mirrors (span : Span) (h : c.Stands s) :
    Mirrors (scriptRest span) c (Reading.outcome (scriptAction span s)) := by
  unfold scriptRest scriptAction
  simp only [outcome_reading_andThen, outcome_toReading, outcome_taking_andThen]
  refine .bind (acceptFlag_mirrors .import_ h) fun hasImport t c₁ _ _ h₁ => ?_
  refine .bind (importRef_mirrors hasImport h₁) fun imported u c₂ _ _ h₂ => ?_
  exact .bind (accept_mirrors rfl h₂) fun script v c₃ _ _ h₃ => .pure h₃ _

/-- A bar and a command are taken before the next call. -/
theorem bars_mirrors {calls : Nat} {c : Cursor} {s : Stream} (hn : s.size < calls) (h : c.Stands s) :
    Mirrors (bars calls) c (Reading.outcome (furtherCommands s)) := by
  induction calls generalizing c s with
  | zero => exact absurd hn (Nat.not_lt_zero _)
  | succ calls ih =>
    rw [bars, outcome_furtherCommands]
    refine .bind (acceptOptional_mirrors rfl h) fun bar t c₁ ht _ h₁ => ?_
    cases bar with
    | none => exact .pure h₁ _
    | some _ =>
      refine .bind (acceptString_mirrors h₁) fun command u c₂ hu _ h₂ => ?_
      have hshorter : u.size < s.size := Nat.lt_of_lt_of_le (Taking.shorter hu) (Reading.notLonger ht)
      have hn₂ : u.size < calls := by omega
      exact .bind (ih hn₂ h₂) fun further v c₃ _ _ h₃ => .pure h₃ _

theorem commandsRest_mirrors (word : CommandWord) (span : Span) (hn : s.size < calls) (h : c.Stands s) :
    Mirrors (commandsRest calls word span) c (Reading.outcome (commandList word span s)) := by
  unfold commandsRest commandList
  simp only [outcome_reading_andThen, outcome_toReading, outcome_taking_andThen]
  refine .bind (acceptString_mirrors h) fun first t c₁ ht _ h₁ => ?_
  have hn₁ : t.size < calls := Nat.lt_trans (Taking.shorter ht) hn
  exact .bind (bars_mirrors hn₁ h₁) fun further u c₂ _ _ h₂ => .pure h₂ _

theorem sayRest_mirrors (span : Span) (h : c.Stands s) :
    Mirrors (sayRest span) c (Reading.outcome (sayAction span s)) := by
  unfold sayRest sayAction
  rw [outcome_reading_andThen]
  exact .bind (acceptOptional_mirrors rfl h) fun literal t c₁ _ _ h₁ => .pure h₁ _

theorem callRest_mirrors (span : Span) (h : c.Stands s) :
    Mirrors (callRest span) c (Reading.outcome (callAction span s)) := by
  unfold callRest callAction
  simp only [outcome_reading_andThen, outcome_toReading, outcome_taking_andThen]
  refine .bind (acceptOptional_mirrors rfl h) fun user t c₁ _ _ h₁ => ?_
  exact .bind (acceptName_mirrors h₁) fun target u c₂ _ _ h₂ => .pure h₂ _

theorem simple_mirrors (production : Production) (hn : s.size < calls) (h : c.Stands s) :
    Mirrors (simple calls production) c (Taking.outcome (simpleAction production s)) := by
  unfold simple simpleAction
  rw [outcome_taking_andThen]
  refine .bind (accept_mirrors rfl h) fun word t c₁ ht _ h₁ => ?_
  have hn₁ : t.size < calls := Nat.lt_trans (Taking.shorter ht) hn
  obtain ⟨word, span⟩ := word
  cases word with
  | script => exact scriptRest_mirrors span h₁
  | commands word => exact commandsRest_mirrors word span hn₁ h₁
  | say => exact sayRest_mirrors span h₁
  | call => exact callRest_mirrors span h₁

/-! ## Chains -/

theorem storeRest_mirrors (span : Span) (h : c.Stands s) :
    Mirrors (storeRest span) c (Reading.outcome (storeLink span s)) := by
  unfold storeRest storeLink
  simp only [outcome_reading_andThen, outcome_toReading, outcome_taking_andThen]
  refine .bind (acceptFlag_mirrors .temp h) fun isTemp t c₁ _ _ h₁ => ?_
  refine .bind (acceptFlag_mirrors .local_ h₁) fun isLocal u c₂ _ _ h₂ => ?_
  refine .bind (acceptString_mirrors h₂) fun key v c₃ _ _ h₃ => ?_
  refine .look (runFrom_current h₃) ?_
  dsimp only
  split
  · exact unmet_mirrors h₃
  · exact .look (runFrom_previousSpan h₃) (.pure h₃ _)

/-- What the links after an arrow are, by a parser. -/
def linksOutcome (s : Stream) : Except ParseError (List Link × Stream) :=
  let span := s.current.span
  if s.current.kind = .keyword .set then
    Taking.outcome (takeKind (.keyword .set) .continued s) >>= fun word =>
      Reading.outcome (storeLink span word.2) >>= fun link => .ok ([link.1], link.2)
  else
    Taking.outcome (simpleAction .continued s) >>= fun a =>
      Reading.outcome (chain a.2) >>= fun rest =>
        .ok (actionLink span (a.2.lastSpan span) a.1 rest.1 :: rest.1, rest.2)

theorem continued_mirrors {w : Walk (List Link)} (hn : s.size < calls) (h : c.Stands s)
    (hrest : ∀ t c', t.size < s.size → c'.Stands t → Mirrors w c' (Reading.outcome (chain t))) :
    Mirrors (continued w calls) c (linksOutcome s) := by
  unfold continued linksOutcome
  refine .look (runFrom_current h) ?_
  split
  · refine .bind (acceptKind_mirrors (by decide) h) fun word t c₁ _ _ h₁ => ?_
    exact .bind (storeRest_mirrors _ h₁) fun link u c₂ _ _ h₂ => .pure h₂ _
  · refine .bind (simple_mirrors .continued hn h) fun action t c₁ ht _ h₁ => ?_
    refine .look (runFrom_previousSpan h₁) ?_
    exact .bind (hrest t c₁ (Taking.shorter ht) h₁) fun rest u c₂ _ _ h₂ => .pure h₂ _

/-- The action of a step is taken before the next call. -/
theorem continuation_mirrors {calls : Nat} {c : Cursor} {s : Stream} (hn : s.size < calls) (h : c.Stands s) :
    Mirrors (continuation calls) c (Reading.outcome (chain s)) := by
  induction calls generalizing c s with
  | zero => exact absurd hn (Nat.not_lt_zero _)
  | succ calls ih =>
    rw [continuation, outcome_chain]
    refine .bind (acceptOptional_mirrors rfl h) fun arrow t c₁ ht _ h₁ => ?_
    have hn₁ : t.size < calls + 1 := Nat.lt_of_le_of_lt (Reading.notLonger ht) hn
    cases arrow with
    | none => exact .pure h₁ _
    | some _ =>
      exact continued_mirrors hn₁ h₁ fun u c' hu h' => ih (Nat.lt_of_lt_of_le hu (Nat.le_of_lt_succ hn₁)) h'

/-! ## Actions and bodies -/

theorem arrowAfter_mirrors (retrieve : Retrieve) (h : c.Stands s) :
    Mirrors (arrowAfter retrieve) c (Reading.outcome (retrieval.arrowAfter retrieve s)) := by
  unfold arrowAfter retrieval.arrowAfter
  rw [outcome_toReading, outcome_taking_andThen]
  exact .bind (acceptKind_mirrors (by decide) h) fun _ t c₁ _ _ h₁ => .pure h₁ _

theorem retrieval_mirrors (h : c.Stands s) : Mirrors retrieval c (Reading.outcome (Program.retrieval s)) := by
  unfold retrieval Program.retrieval
  rw [outcome_reading_andThen]
  refine .bind (acceptOptional_mirrors rfl h) fun argument t c₁ _ _ h₁ => ?_
  cases argument with
  | some argument => exact arrowAfter_mirrors _ h₁
  | none =>
    dsimp only
    rw [outcome_reading_andThen]
    refine .bind (acceptOptional_mirrors rfl h₁) fun get u c₂ _ _ h₂ => ?_
    cases get with
    | none => exact .pure h₂ none
    | some get =>
      simp only [outcome_reading_andThen, outcome_toReading, outcome_taking_andThen]
      refine .bind (acceptFlag_mirrors .local_ h₂) fun isLocal v c₃ _ _ h₃ => ?_
      exact .bind (acceptString_mirrors h₃) fun key x c₄ _ _ h₄ => arrowAfter_mirrors _ h₄

theorem execute_mirrors (hn : s.size < calls) (h : c.Stands s) :
    Mirrors (execute calls) c (Taking.outcome (executeAction s)) := by
  rw [execute, outcome_executeAction]
  refine .look (runFrom_current h) ?_
  refine .bind (retrieval_mirrors h) fun retrieve t c₁ ht _ h₁ => ?_
  have hn₁ : t.size < calls := Nat.lt_of_le_of_lt (Reading.notLonger ht) hn
  refine .bind (simple_mirrors .execute hn₁ h₁) fun action u c₂ hu _ h₂ => ?_
  have hn₂ : u.size < calls := Nat.lt_trans (Taking.shorter hu) hn₁
  exact .bind (continuation_mirrors hn₂ h₂) fun links v c₃ _ _ h₃ => .pure h₃ _

end

/-- Where `d` blocks are open and less than `bound` tokens are left, the walk has the answers of the parser. -/
def MirrorsBelow (bound d : Nat) (w : Walk Action) (read : (s : Stream) → Taking Action s) : Prop :=
  ∀ ⦃c : Cursor⦄ ⦃s : Stream⦄, s.size < bound → c.depth = d → c.Stands s → Mirrors w c (Taking.outcome (read s))

section
variable {bound calls d : Nat} {w : Walk Action} {read : (s : Stream) → Taking Action s} {c : Cursor} {s : Stream}

/-- An action is taken before the next call. -/
theorem actions_mirrors (production : Production) (hread : MirrorsBelow bound d w read) {calls : Nat} {c : Cursor}
    {s : Stream} (hn : s.size < calls) (hb : s.size < bound) (hd : c.depth = d) (h : c.Stands s) :
    Mirrors (actions w production calls) c (Reading.outcome (actionsUntilEnd read production s)) := by
  induction calls generalizing c s with
  | zero => exact absurd hn (Nat.not_lt_zero _)
  | succ calls ih =>
    rw [actions, outcome_actionsUntilEnd]
    refine .look (runFrom_current h) ?_
    split
    · exact .pure h []
    · split
      · exact unmet_mirrors h
      · refine .bind (hread hb hd h) fun first t c₁ ht hreaches h₁ => ?_
        have hshorter : t.size < s.size := Taking.shorter ht
        have hn₁ : t.size < calls := by omega
        have hd₁ : c₁.depth = d := hreaches.depth.trans hd
        exact .bind (ih hn₁ (Nat.lt_trans hshorter hb) hd₁ h₁) fun rest u c₂ _ _ h₂ => .pure h₂ _

theorem body_mirrors (production : Production) (hread : MirrorsBelow bound d w read) (hn : s.size < calls)
    (hb : s.size < bound) (hd : c.depth = d) (h : c.Stands s) :
    Mirrors (body w production calls) c (Reading.outcome (bodyOf read production s)) := by
  rw [body, bodyOf, outcome_reading_andThen]
  refine .look (runFrom_current h) ?_
  refine .bind (actions_mirrors production hread hn hb hd h) fun actions t c₁ _ _ h₁ => ?_
  exact .look (runFrom_previousSpan h₁) (.pure h₁ _)

/-- The count of open blocks goes back, also after an error. -/
theorem nested_mirrors {α : Type} {w : Walk α} {r : Except ParseError (α × Stream)}
    (hw : Mirrors w { c with depth := c.depth + 1 } r) : Mirrors (nested w) c r := by
  have hopen : runFrom (modify fun c : Cursor => { c with depth := c.depth + 1 }) c =
      some (.ok (), { c with depth := c.depth + 1 }) := rfl
  have hanswer : ∀ {answer : Except ParseError α} {c' : Cursor},
      runFrom w { c with depth := c.depth + 1 } = some (answer, c') →
        runFrom (nested w) c = runFrom (liftExcept answer) { c' with depth := c'.depth - 1 } := by
    intro answer c' hruns
    have hinner : runFrom (ExceptT.lift w.run) { c with depth := c.depth + 1 } = some (.ok answer, c') := by
      unfold runFrom at hruns ⊢
      rw [ExceptT.run_lift, StateT.run_map, hruns]
      rfl
    rw [nested, runFrom_bind_ok hopen, runFrom_bind_ok hinner]
    exact runFrom_bind_ok rfl
  cases hw with
  | error hruns hstands hreaches =>
    refine .error (hanswer hruns) (hstands.withDepth _) ⟨hreaches.tokens, ?_, hreaches.pos⟩
    rw [hreaches.depth]
    rfl
  | ok hruns hstands hreaches =>
    refine .ok (hanswer hruns) (hstands.withDepth _) ⟨hreaches.tokens, ?_, hreaches.pos⟩
    rw [hreaches.depth]
    rfl

theorem pending_of_startsCompiled (h : startsCompiled s = true) :
    ∃ t u rest, s.pending = t :: u :: rest ∧ t.kind = .keyword .get ∧ u.kind = .keyword .compiled := by
  unfold startsCompiled at h
  split at h
  · rename_i t u rest hp
    rw [Bool.and_eq_true, decide_eq_true_eq, decide_eq_true_eq] at h
    exact ⟨t, u, rest, hp, h⟩
  · cases h

/-- What a block is, by parsers, with room for `room` blocks. -/
def blockOutcome (room : Nat) (s : Stream) : Except ParseError (Action × Stream) :=
  Taking.outcome (takeKind (.keyword .get) .compiled s) >>= fun get =>
    Taking.outcome (takeKind (.keyword .compiled) .compiled get.2) >>= fun compiled =>
      match room with
      | 0 => .error ⟨.compiled, .lessNesting, .deeperNesting, get.1.2⟩
      | room + 1 =>
        Reading.outcome (bodyOf (Program.action room) .compiled compiled.2) >>= fun body =>
          Taking.outcome (takeKind (.keyword .end_) .compiled body.2) >>= fun stop =>
            Reading.outcome (chain stop.2) >>= fun links =>
              .ok (.compiled body.1.actions body.1.span links.1 (get.1.2.join (chainEnd stop.1.2 links.1)), links.2)

theorem outcome_action (room : Nat) (s : Stream) :
    Taking.outcome (Program.action room s) =
      if startsCompiled s then blockOutcome room s else Taking.outcome (executeAction s) := by
  cases room with
  | zero =>
    rw [Program.action]
    split
    · rename_i hs
      -- The two words are there, so only the room is missing.
      obtain ⟨first, second, rest, hp, hget, hcompiled⟩ := pending_of_startsCompiled hs
      have hfirst : Taking.outcome (takeKind (.keyword .get) .compiled s) =
          .ok (((), first.span), ⟨second :: rest, s.endSpan, some first.span⟩) :=
        outcome_take_accepted hp (by rw [hget]; exact exactly_self _)
      have hsecond : Taking.outcome (takeKind (.keyword .compiled) .compiled
          ⟨second :: rest, s.endSpan, some first.span⟩) =
          .ok (((), second.span), ⟨rest, s.endSpan, some second.span⟩) :=
        outcome_take_accepted rfl (by rw [hcompiled]; exact exactly_self _)
      rw [blockOutcome, hfirst, ok_bind, hsecond, ok_bind, current_accepted hp]
      rfl
    · rfl
  | succ room =>
    rw [Program.action]
    split
    · simp only [outcome_reading_andThen, outcome_toReading, outcome_taking_andThen, blockOutcome]
      rfl
    · rfl

/-- Two words are taken before the body of a block. -/
theorem block_mirrors (hn : s.size < calls) (hb : s.size ≤ bound)
    (hread : MirrorsBelow bound (c.depth + 1) w (Program.action (maxNesting - (c.depth + 1)))) (h : c.Stands s) :
    Mirrors (block w calls) c (blockOutcome (maxNesting - c.depth) s) := by
  unfold block blockOutcome
  refine .bind (acceptKind_mirrors (by decide) h) fun word t c₁ ht hreaches₁ h₁ => ?_
  refine .bind (acceptKind_mirrors (by decide) h₁) fun _ u c₂ hu hreaches₂ h₂ => ?_
  have hu' : u.size < s.size := Nat.lt_trans (Taking.shorter hu) (Taking.shorter ht)
  have hdepth : c₂.depth = c.depth := (hreaches₁.trans hreaches₂).depth
  refine .look (runFrom_get c₂) ?_
  cases hroom : maxNesting - c.depth with
  | zero =>
    rw [if_pos (by omega)]
    exact .error rfl h₂ (.refl c₂)
  | succ room =>
    rw [if_neg (by omega)]
    rw [show maxNesting - (c.depth + 1) = room by omega] at hread
    have hbody := body_mirrors .compiled hread (Nat.lt_trans hu' hn) (Nat.lt_of_lt_of_le hu' hb)
      (congrArg (· + 1) hdepth) (h₂.withDepth (c₂.depth + 1))
    refine .bind (nested_mirrors hbody) fun body v c₃ hv _ h₃ => ?_
    refine .bind (acceptKind_mirrors (by decide) h₃) fun stop x c₄ hx _ h₄ => ?_
    have hx' : x.size < u.size := Nat.lt_of_lt_of_le (Taking.shorter hx) (Reading.notLonger hv)
    exact .bind (continuation_mirrors (Nat.lt_trans hx' (Nat.lt_trans hu' hn)) h₄) fun links y c₅ _ _ h₅ => .pure h₅ _

/-- An action has the room that is left at the cursor. -/
theorem action_mirrors (calls d : Nat) : MirrorsBelow calls d (action calls) (Program.action (maxNesting - d)) := by
  induction calls generalizing d with
  | zero => exact fun _ _ hn _ _ => absurd hn (Nat.not_lt_zero _)
  | succ calls ih =>
    rintro c s hn rfl h
    rw [action, outcome_action]
    refine .look (runFrom_current h) (.look (runFrom_secondKind c) ?_)
    by_cases hs : startsCompiled s = true
    · rw [if_pos hs, if_pos (h.startsCompiled_iff.mp hs)]
      exact block_mirrors hn (Nat.le_of_lt_succ hn) (ih (c.depth + 1)) h
    · rw [if_neg hs, if_neg (mt h.startsCompiled_iff.mpr hs)]
      exact execute_mirrors hn h

/-! ## Declarations -/

theorem prefixValue_mirrors (isPrefixed : Bool) (h : c.Stands s) :
    Mirrors (prefixValue isPrefixed) c (Reading.outcome (definition.prefixValue isPrefixed s)) := by
  cases isPrefixed with
  | false => exact .pure h none
  | true =>
    unfold prefixValue definition.prefixValue
    rw [if_pos rfl, if_pos rfl, outcome_toReading, outcome_taking_andThen]
    exact .bind (acceptString_mirrors h) fun value t c₁ _ _ h₁ => .pure h₁ _

/-- What a definition is, by parsers, with room for `room` blocks. -/
def definitionOutcome (room : Nat) (span : Span) (s : Stream) : Except ParseError (Declaration × Stream) :=
  Taking.outcome (takeName .definition s) >>= fun name =>
    Reading.outcome (takeFlag .prefixed name.2) >>= fun isPrefixed =>
      Reading.outcome (definition.prefixValue isPrefixed.1 isPrefixed.2) >>= fun keyPrefix =>
        Reading.outcome (bodyOf (Program.action room) .definition keyPrefix.2) >>= fun body =>
          Taking.outcome (takeKind (.keyword .end_) .definition body.2) >>= fun stop =>
            .ok (.define ⟨name.1.1, keyPrefix.1, body.1, span.join stop.1.2⟩, stop.2)

def declarationOutcome (room : Nat) (s : Stream) : Except ParseError (Declaration × Stream) :=
  Taking.outcome (take declarationWord? .declaration .declaration s) >>= fun word =>
    if word.1.1 then
      Taking.outcome (takeName .declaration word.2) >>= fun name =>
        .ok (.entry ⟨name.1.1, word.1.2.join name.1.2⟩, name.2)
    else definitionOutcome room word.1.2 word.2

theorem outcome_declaration (s : Stream) :
    Taking.outcome (Program.declaration s) = declarationOutcome maxNesting s := by
  unfold Program.declaration declarationOutcome
  rw [outcome_taking_andThen]
  refine congrArg _ (funext fun word => ?_)
  obtain ⟨⟨isEntry, span⟩, t⟩ := word
  cases isEntry with
  | true =>
    dsimp only
    rw [if_pos rfl, if_pos rfl, outcome_toReading, outcome_taking_andThen]
    rfl
  | false =>
    show Reading.outcome (Program.definition span t) = definitionOutcome maxNesting span t
    unfold Program.definition definitionOutcome
    simp only [outcome_reading_andThen, outcome_toReading, outcome_taking_andThen]
    rfl

theorem definition_mirrors (span : Span) (hn : s.size < calls) (h : c.Stands s) :
    Mirrors (definition calls span) c (definitionOutcome (maxNesting - c.depth) span s) := by
  unfold definition definitionOutcome
  refine .bind (acceptName_mirrors h) fun name t c₁ ht hreaches₁ h₁ => ?_
  refine .bind (acceptFlag_mirrors .prefixed h₁) fun isPrefixed u c₂ hu hreaches₂ h₂ => ?_
  refine .bind (prefixValue_mirrors isPrefixed h₂) fun keyPrefix v c₃ hv hreaches₃ h₃ => ?_
  have hdepth : c₃.depth = c.depth := ((hreaches₁.trans hreaches₂).trans hreaches₃).depth
  have hn₃ : v.size < calls := by
    have ht' : t.size < s.size := Taking.shorter ht
    have hu' : u.size ≤ t.size := Reading.notLonger hu
    have hv' : v.size ≤ u.size := Reading.notLonger hv
    omega
  refine .bind (body_mirrors .definition (action_mirrors calls c.depth) hn₃ hn₃ hdepth h₃) fun body x c₄ _ _ h₄ => ?_
  exact .bind (acceptKind_mirrors (by decide) h₄) fun stop y c₅ _ _ h₅ => .pure h₅ _

theorem declaration_mirrors (hn : s.size < calls) (h : c.Stands s) :
    Mirrors (declaration calls) c (declarationOutcome (maxNesting - c.depth) s) := by
  unfold declaration declarationOutcome
  refine .bind (accept_mirrors rfl h) fun word t c₁ ht hreaches h₁ => ?_
  obtain ⟨isEntry, span⟩ := word
  cases isEntry with
  | true => exact .bind (acceptName_mirrors h₁) fun name u c₂ _ _ h₂ => .pure h₂ _
  | false =>
    rw [← hreaches.depth]
    exact definition_mirrors span (Nat.lt_trans (Taking.shorter ht) hn) h₁

theorem pending_isEmpty_iff (h : c.Stands s) : s.pending.isEmpty = true ↔ s.current.kind = .endOfInput := by
  obtain ⟨front, -, -, hordinary, -⟩ := h
  cases hp : s.pending with
  | nil => simp [Stream.current, hp]
  | cons token rest =>
    rw [current_accepted hp]
    exact iff_of_false Bool.false_ne_true (hordinary token (by simp [hp]))

/-- All declarations, and where their walk ends. A declaration is taken before the next call. -/
theorem declarations_end {calls : Nat} {c : Cursor} {s : Stream} (hn : s.size < calls) (hd : c.depth = 0)
    (h : c.Stands s) :
    ∃ c' t, runFrom (declarations calls) c = some (allDeclarations s, c') ∧ c'.Stands t ∧ c.Reaches c' := by
  induction calls generalizing c s with
  | zero => exact absurd hn (Nat.not_lt_zero _)
  | succ calls ih =>
    rw [declarations, runFrom_bind_ok (runFrom_current h), allDeclarations_eq]
    by_cases hend : s.current.kind = .endOfInput
    · rw [if_pos hend, if_pos ((pending_isEmpty_iff h).mpr hend)]
      exact ⟨c, s, rfl, h, .refl c⟩
    · rw [if_neg hend, if_neg (mt (pending_isEmpty_iff h).mp hend), outcome_declaration]
      have hfirst : Mirrors (declaration (calls + 1)) c (declarationOutcome maxNesting s) := by
        have hmirrors := declaration_mirrors hn h
        rwa [hd] at hmirrors
      cases hr : declarationOutcome maxNesting s with
      | error e =>
        rw [hr] at hfirst
        cases hfirst with
        | @error _ t c' hruns hstands hreaches => exact ⟨c', t, runFrom_bind_error hruns, hstands, hreaches⟩
      | ok p =>
        rw [hr] at hfirst
        cases hfirst with
        | @ok first t c₁ hruns hstands hreaches =>
          have hshorter : t.size < s.size := Taking.shorter ((outcome_declaration s).trans hr)
          obtain ⟨c', u, hrest, hstands', hreaches'⟩ := ih (by omega) (hreaches.depth.trans hd) hstands
          refine ⟨c', u, ?_, hstands', hreaches.trans hreaches'⟩
          rw [runFrom_bind_ok hruns, ok_bind]
          cases hds : allDeclarations t with
          | error e =>
            rw [hds] at hrest
            exact runFrom_bind_error hrest
          | ok rest =>
            rw [hds] at hrest
            rw [runFrom_bind_ok hrest]
            rfl

end

end Walk

end AliasLang.Program
