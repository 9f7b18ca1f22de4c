/-
What a parser answers, without the evidence that it took tokens: a value and the stream after it, or the error. Each
combinator has one equation here, and each parser of a single token says exactly when it succeeds; the later modules
work with these and with the kinds of the pending tokens only.
-/
import AliasLang.Program.Parse

namespace AliasLang.Program

open Source (Span)
open Token (Kind Keyword)

/-- The kinds of the tokens that are left. -/
def Stream.kinds (s : Stream) : List Kind := s.pending.map Token.kind

/-- The answer of a parser that takes a token. -/
def Taking.outcome {α : Type} {s : Stream} (r : Taking α s) : Except ParseError (α × Stream) :=
  match r with
  | .error e => .error e
  | .ok p => .ok (p.value, p.rest)

/-- The answer of a parser that may take no token. -/
def Reading.outcome {α : Type} {s : Stream} (r : Reading α s) : Except ParseError (α × Stream) :=
  match r with
  | .error e => .error e
  | .ok p => .ok (p.value, p.rest)

/-! ## Combinators -/

theorem bind_eq_ok {ε α β : Type} {x : Except ε α} {f : α → Except ε β} {b : β} :
    x >>= f = .ok b ↔ ∃ a, x = .ok a ∧ f a = .ok b := by
  cases x <;> simp [bind, Except.bind]

@[simp] theorem ok_bind {ε α β : Type} (a : α) (f : α → Except ε β) : (Except.ok a >>= f) = f a := rfl

@[simp] theorem error_bind {ε α β : Type} (e : ε) (f : α → Except ε β) : (Except.error e >>= f) = .error e := rfl

section
variable {α β : Type} {s : Stream}

@[simp] theorem outcome_taking_error (e : ParseError) : Taking.outcome (.error e : Taking α s) = .error e := rfl

@[simp] theorem outcome_reading_error (e : ParseError) : Reading.outcome (.error e : Reading α s) = .error e := rfl

@[simp] theorem outcome_taking_ok (p : Parsed α s) : Taking.outcome (.ok p : Taking α s) = .ok (p.value, p.rest) := rfl

@[simp] theorem outcome_reading_ok (p : Reached α s) :
    Reading.outcome (.ok p : Reading α s) = .ok (p.value, p.rest) := rfl

theorem outcome_of_taking {r : Taking α s} {a : α} {t : Stream} {h : t.size < s.size} (hr : r = .ok ⟨a, t, h⟩) :
    Taking.outcome r = .ok (a, t) := by
  rw [hr]
  rfl

theorem outcome_of_reading {r : Reading α s} {a : α} {t : Stream} {h : t.size ≤ s.size} (hr : r = .ok ⟨a, t, h⟩) :
    Reading.outcome r = .ok (a, t) := by
  rw [hr]
  rfl

@[simp] theorem outcome_done (a : α) : Reading.outcome (done s a) = .ok (a, s) := rfl

@[simp] theorem outcome_toReading (r : Taking α s) :
    Reading.outcome (Taking.toReading r) = Taking.outcome r := by
  cases r with
  | error e => rfl
  | ok p => rfl

@[simp] theorem outcome_taking_andThen (r : Taking α s) (f : α → (t : Stream) → Reading β t) :
    Taking.outcome (Taking.andThen r f) = Taking.outcome r >>= fun p => Reading.outcome (f p.1 p.2) := by
  cases r with
  | error e => rfl
  | ok p =>
    obtain ⟨a, t, h⟩ := p
    simp only [Taking.andThen, outcome_taking_ok, ok_bind]
    cases f a t with
    | error e => rfl
    | ok q => rfl

@[simp] theorem outcome_reading_andThen (r : Reading α s) (f : α → (t : Stream) → Reading β t) :
    Reading.outcome (Reading.andThen r f) = Reading.outcome r >>= fun p => Reading.outcome (f p.1 p.2) := by
  cases r with
  | error e => rfl
  | ok p =>
    obtain ⟨a, t, h⟩ := p
    simp only [Reading.andThen, outcome_reading_ok, ok_bind]
    cases f a t with
    | error e => rfl
    | ok q => rfl

end

/-! ## Single tokens -/

section
variable {α : Type} {f : Kind → Option α} {production : Production} {expected : Expected} {s t : Stream}

theorem kinds_of_pending_cons {token : Token} {rest : List Token} (h : s.pending = token :: rest) :
    s.kinds = token.kind :: rest.map Token.kind := by
  rw [Stream.kinds, h, List.map_cons]

theorem pending_of_kinds_cons {k : Kind} {ks : List Kind} (h : s.kinds = k :: ks) :
    ∃ token rest, s.pending = token :: rest ∧ token.kind = k ∧ rest.map Token.kind = ks := by
  obtain ⟨token, rest, hp, hk, hr⟩ := List.map_eq_cons_iff.mp h
  exact ⟨token, rest, hp, hk, hr⟩

theorem current_kind_of_cons {k : Kind} {ks : List Kind} (h : s.kinds = k :: ks) : s.current.kind = k := by
  obtain ⟨token, rest, hp, hk, -⟩ := pending_of_kinds_cons h
  rw [Stream.current, hp, List.headD_cons, hk]

theorem current_kind_of_nil (h : s.kinds = []) : s.current.kind = .endOfInput := by
  have hp : s.pending = [] := List.map_eq_nil_iff.mp h
  rw [Stream.current, hp]
  rfl

theorem kinds_eq_cons_of_current {k : Kind} (h : s.current.kind = k) (hk : k ≠ .endOfInput) :
    ∃ ks, s.kinds = k :: ks := by
  cases hs : s.kinds with
  | nil => exact absurd (h.symm.trans (current_kind_of_nil hs)) hk
  | cons k' ks =>
    obtain rfl : k' = k := (current_kind_of_cons hs).symm.trans h
    exact ⟨ks, rfl⟩

/-- A token is taken exactly when its kind is accepted. -/
theorem outcome_take_ok {a : α} {span : Span} (h : Taking.outcome (take f production expected s) = .ok ((a, span), t)) :
    ∃ k, s.kinds = k :: t.kinds ∧ f k = some a := by
  unfold take at h
  split at h
  · cases h
  · rename_i token rest hp
    split at h
    · cases h
    · rename_i b hf
      cases h
      exact ⟨token.kind, kinds_of_pending_cons hp, hf⟩

theorem outcome_take_accepted {token : Token} {rest : List Token} {a : α} (hp : s.pending = token :: rest)
    (hf : f token.kind = some a) :
    Taking.outcome (take f production expected s) = .ok ((a, token.span), ⟨rest, s.endSpan, some token.span⟩) := by
  unfold take
  split
  · rename_i hnil
    rw [hp] at hnil
    cases hnil
  · rename_i token' rest' hp'
    rw [hp] at hp'
    cases hp'
    split
    · rename_i hnone
      rw [hf] at hnone
      cases hnone
    · rename_i b hb
      rw [hf] at hb
      cases hb
      rfl

theorem outcome_take_of_kinds {k : Kind} {ks : List Kind} {a : α} (hs : s.kinds = k :: ks) (hf : f k = some a)
    (production : Production) (expected : Expected) :
    ∃ span t, Taking.outcome (take f production expected s) = .ok ((a, span), t) ∧ t.kinds = ks := by
  obtain ⟨token, rest, hp, rfl, rfl⟩ := pending_of_kinds_cons hs
  exact ⟨token.span, ⟨rest, s.endSpan, some token.span⟩, outcome_take_accepted hp hf, rfl⟩

theorem outcome_takeOptional_ok {o : Option (α × Span)} (h : Reading.outcome (takeOptional f s) = .ok (o, t)) :
    (o = none ∧ t = s) ∨ ∃ k a span, o = some (a, span) ∧ s.kinds = k :: t.kinds ∧ f k = some a := by
  unfold takeOptional at h
  split at h
  · cases h
    exact .inl ⟨rfl, rfl⟩
  · rename_i token rest hp
    split at h
    · cases h
      exact .inl ⟨rfl, rfl⟩
    · rename_i a hf
      cases h
      exact .inr ⟨token.kind, a, token.span, rfl, kinds_of_pending_cons hp, hf⟩

theorem outcome_takeOptional_accepted {token : Token} {rest : List Token} {a : α} (hp : s.pending = token :: rest)
    (hf : f token.kind = some a) :
    Reading.outcome (takeOptional f s) = .ok (some (a, token.span), ⟨rest, s.endSpan, some token.span⟩) := by
  unfold takeOptional
  split
  · rename_i hnil
    rw [hp] at hnil
    cases hnil
  · rename_i token' rest' hp'
    rw [hp] at hp'
    cases hp'
    split
    · rename_i hnone
      rw [hf] at hnone
      cases hnone
    · rename_i b hb
      rw [hf] at hb
      cases hb
      rfl

theorem outcome_takeOptional_of_kinds {k : Kind} {ks : List Kind} {a : α} (hs : s.kinds = k :: ks)
    (hf : f k = some a) :
    ∃ span t, Reading.outcome (takeOptional f s) = .ok (some (a, span), t) ∧ t.kinds = ks := by
  obtain ⟨token, rest, hp, rfl, rfl⟩ := pending_of_kinds_cons hs
  exact ⟨token.span, ⟨rest, s.endSpan, some token.span⟩, outcome_takeOptional_accepted hp hf, rfl⟩

/-- No token is taken when the next one is not accepted. -/
theorem outcome_takeOptional_none (h : ∀ k, s.kinds.head? = some k → f k = none) :
    Reading.outcome (takeOptional f s) = .ok (none, s) := by
  unfold takeOptional
  split
  · rfl
  · rename_i token rest hp
    have hk : f token.kind = none := h token.kind (by rw [kinds_of_pending_cons hp]; rfl)
    split
    · rfl
    · rename_i a ha
      rw [hk] at ha
      cases ha

end

theorem exactly_self (k : Kind) : exactly k k = some () := if_pos rfl

theorem exactly_eq_none {k k' : Kind} (h : k' ≠ k) : exactly k k' = none := if_neg h

theorem eq_of_exactly {k k' : Kind} {u : Unit} (h : exactly k k' = some u) : k' = k := by
  unfold exactly at h
  split at h
  · assumption
  · cases h

/-! ## Loops and actions -/

theorem outcome_furtherCommands (s : Stream) :
    Reading.outcome (furtherCommands s) =
      Reading.outcome (takeOptional (exactly .bar) s) >>= fun bar =>
        match bar.1 with
        | none => .ok ([], bar.2)
        | some _ =>
          Taking.outcome (takeString .simple bar.2) >>= fun first =>
            Reading.outcome (furtherCommands first.2) >>= fun further => .ok (first.1 :: further.1, further.2) := by
  rw [furtherCommands]
  cases takeOptional (exactly .bar) s with
  | error e => rfl
  | ok bar =>
    obtain ⟨_ | _, t, h⟩ := bar
    · rfl
    · simp only [outcome_reading_ok, ok_bind]
      cases takeString .simple t with
      | error e => rfl
      | ok first =>
        obtain ⟨c, u, h'⟩ := first
        simp only [outcome_taking_ok, ok_bind]
        cases furtherCommands u <;> rfl

theorem outcome_chain (s : Stream) :
    Reading.outcome (chain s) =
      Reading.outcome (takeOptional (exactly .arrow) s) >>= fun arrow =>
        match arrow.1 with
        | none => .ok ([], arrow.2)
        | some _ =>
          let span := arrow.2.current.span
          if arrow.2.current.kind = .keyword .set then
            Taking.outcome (takeKind (.keyword .set) .continued arrow.2) >>= fun word =>
              Reading.outcome (storeLink span word.2) >>= fun link => .ok ([link.1], link.2)
          else
            Taking.outcome (simpleAction .continued arrow.2) >>= fun a =>
              Reading.outcome (chain a.2) >>= fun rest =>
                .ok (actionLink span (a.2.lastSpan span) a.1 rest.1 :: rest.1, rest.2) := by
  rw [chain]
  cases takeOptional (exactly .arrow) s with
  | error e => rfl
  | ok arrow =>
    obtain ⟨_ | _, t, h⟩ := arrow
    · rfl
    · simp only [outcome_reading_ok, ok_bind]
      split
      · rw [← bind_assoc, ← outcome_taking_andThen (takeKind (.keyword .set) .continued t)
          fun _ u => storeLink t.current.span u]
        cases Taking.andThen (takeKind (.keyword .set) .continued t) fun _ u => storeLink t.current.span u <;> rfl
      · cases simpleAction .continued t with
        | error e => rfl
        | ok a =>
          obtain ⟨a, u, h'⟩ := a
          simp only [outcome_taking_ok, ok_bind]
          cases chain u <;> rfl

theorem outcome_executeAction (s : Stream) :
    Taking.outcome (executeAction s) =
      Reading.outcome (retrieval s) >>= fun retrieve =>
        Taking.outcome (simpleAction .execute retrieve.2) >>= fun a =>
          Reading.outcome (chain a.2) >>= fun links =>
            .ok (.execute ⟨retrieve.1, a.1, links.1, s.current.span.join (chainEnd a.1.span links.1)⟩, links.2) := by
  rw [executeAction]
  cases retrieval s with
  | error e => rfl
  | ok retrieve =>
    obtain ⟨retrieve, t, h⟩ := retrieve
    simp only [Taking.andThen, outcome_reading_ok, ok_bind]
    cases simpleAction .execute t with
    | error e => rfl
    | ok a =>
      obtain ⟨a, u, h'⟩ := a
      simp only [Reading.andThen, outcome_taking_ok, ok_bind]
      cases chain u <;> rfl

theorem outcome_actionsUntilEnd (action : (s : Stream) → Taking Action s) (production : Production) (s : Stream) :
    Reading.outcome (actionsUntilEnd action production s) =
      if s.current.kind = .keyword .end_ then .ok ([], s)
      else if !startsAction s.current.kind then .error (s.unmet production .actionOrEnd)
      else
        Taking.outcome (action s) >>= fun a =>
          Reading.outcome (actionsUntilEnd action production a.2) >>= fun rest => .ok (a.1 :: rest.1, rest.2) := by
  rw [actionsUntilEnd]
  split
  · rfl
  · split
    · rfl
    · cases action s with
      | error e => rfl
      | ok a =>
        obtain ⟨a, t, h⟩ := a
        simp only [outcome_taking_ok, ok_bind]
        cases actionsUntilEnd action production t <;> rfl

theorem allDeclarations_eq (s : Stream) :
    allDeclarations s =
      if s.pending.isEmpty then .ok []
      else
        Taking.outcome (declaration s) >>= fun d => allDeclarations d.2 >>= fun rest => .ok (d.1 :: rest) := by
  rw [allDeclarations]
  split
  · rfl
  · cases declaration s with
    | error e => rfl
    | ok d =>
      obtain ⟨d, t, h⟩ := d
      simp only [outcome_taking_ok, ok_bind]
      cases allDeclarations t <;> rfl

end AliasLang.Program
