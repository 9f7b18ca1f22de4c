/-
How far a parser looks. A parser that succeeds depends on the tokens it takes and on the one after them; a parser that
fails depends on the tokens before the one it blames, and on that one. This is stated of one stream at a time and of all
streams that repeat those tokens, so that it can be put together along the binds of a parser and along the recursion of
a loop.

With the failure comes what was taken until then: `K` says of these tokens that the part of the grammar can still be
completed after them. After some tokens `xs`, the rest of the part has to do this for `K (xs ++ ·)`.
-/
import AliasLang.Proofs.Program.ParseSound

namespace AliasLang.Program

open Source (Span)
open Token (Kind Keyword)

/-! ## Streams that repeat one another -/

/-- `t` is what is left of `s` after the tokens `front`. -/
structure Follows (s : Stream) (front : List Token) (t : Stream) : Prop where
  pending : s.pending = front ++ t.pending
  endSpan : t.endSpan = s.endSpan
  last : t.last = (front.getLast?.map Token.span).or s.last

/-- The next token is the same, and at the end of input the place of the end. -/
structure SeesSame (s s' : Stream) : Prop where
  head : s.pending.head? = s'.pending.head?
  stop : s.pending = [] → s.endSpan = s'.endSpan

/-- `s'` starts with the tokens that lead from `s` to `t`, and with the one that `t` has next. -/
structure Repeats (s : Stream) (front : List Token) (t s' t' : Stream) : Prop where
  follows : Follows s' front t'
  last : s'.last = s.last
  sees : SeesSame t t'

theorem Stream.ext {s t : Stream} (hp : s.pending = t.pending) (he : s.endSpan = t.endSpan) (hl : s.last = t.last) :
    s = t := by
  cases s
  cases t
  simp_all

theorem Follows.refl (s : Stream) : Follows s [] s := ⟨rfl, rfl, rfl⟩

theorem Follows.trans {s t u : Stream} {a b : List Token} (h : Follows s a t) (h' : Follows t b u) :
    Follows s (a ++ b) u := by
  refine ⟨?_, h'.endSpan.trans h.endSpan, ?_⟩
  · rw [h.pending, h'.pending, List.append_assoc]
  · rw [h'.last, h.last, List.getLast?_append]
    cases b.getLast? <;> simp

theorem Follows.unique {s t t' : Stream} {front : List Token} (h : Follows s front t) (h' : Follows s front t') :
    t = t' :=
  Stream.ext (List.append_cancel_left (h.pending.symm.trans h'.pending)) (h.endSpan.trans h'.endSpan.symm)
    (h.last.trans h'.last.symm)

theorem Follows.split {s u : Stream} {a b : List Token} (h : Follows s (a ++ b) u) :
    ∃ t, Follows s a t ∧ Follows t b u := by
  refine ⟨⟨b ++ u.pending, s.endSpan, (a.getLast?.map Token.span).or s.last⟩, ⟨?_, rfl, rfl⟩, rfl, h.endSpan, ?_⟩
  · rw [h.pending, List.append_assoc]
  · rw [h.last, List.getLast?_append]
    cases b.getLast? <;> simp

theorem Follows.kinds {s t : Stream} {front : List Token} (h : Follows s front t) :
    s.kinds = front.map Token.kind ++ t.kinds := by
  rw [Stream.kinds, h.pending, List.map_append]
  rfl

theorem follows_of_pending {s : Stream} {token : Token} {rest : List Token} (h : s.pending = token :: rest) :
    Follows s [token] ⟨rest, s.endSpan, some token.span⟩ := ⟨h, rfl, rfl⟩

theorem SeesSame.current {s s' : Stream} (h : SeesSame s s') : s.current = s'.current := by
  unfold Stream.current
  cases hp : s.pending with
  | nil =>
    have hp' : s'.pending = [] := List.head?_eq_none_iff.mp (h.head.symm.trans (by rw [hp]; rfl))
    rw [hp', h.stop hp]
  | cons token rest =>
    obtain ⟨rest', hp'⟩ := List.head?_eq_some_iff.mp (h.head.symm.trans (by rw [hp]; rfl))
    rw [hp']
    rfl

/-- Tokens that both streams take are also the next ones they see. -/
theorem SeesSame.before {t t' u u' : Stream} {front : List Token} (h : Follows t front u) (h' : Follows t' front u')
    (hu : SeesSame u u') : SeesSame t t' := by
  cases front with
  | nil =>
    refine ⟨?_, fun hp => ?_⟩
    · rw [h.pending, h'.pending]
      exact hu.head
    · rw [← h.endSpan, ← h'.endSpan]
      exact hu.stop (by rw [h.pending] at hp; exact hp)
  | cons token front =>
    refine ⟨by rw [h.pending, h'.pending]; rfl, fun hp => ?_⟩
    rw [h.pending] at hp
    cases hp

theorem Repeats.split {s t u s' u' : Stream} {a b : List Token} (ha : Follows s a t) (hb : Follows t b u)
    (h : Repeats s (a ++ b) u s' u') : ∃ t', Repeats s a t s' t' ∧ Repeats t b u t' u' := by
  obtain ⟨t', ha', hb'⟩ := h.follows.split
  have hlast : t'.last = t.last := by rw [ha'.last, ha.last, h.last]
  exact ⟨t', ⟨ha', h.last, .before hb hb' h.sees⟩, hb', hlast, h.sees⟩

theorem Repeats.sameStart {s t s' t' : Stream} {front : List Token} (hs : Follows s front t)
    (h : Repeats s front t s' t') : SeesSame s s' := .before hs h.follows h.sees

theorem Repeats.current {s t s' t' : Stream} {front : List Token} (hs : Follows s front t)
    (h : Repeats s front t s' t') : s.current = s'.current := (h.sameStart hs).current

/-! ## Parsers that look one token ahead -/

/-- A parser by its answers. -/
abbrev Parser (α : Type) := Stream → Except ParseError (α × Stream)

section
variable {α β γ : Type}

/-- If the parser succeeds, then in the same way on every stream that repeats what it took and the token after it. -/
def Steady (P : Parser α) (s : Stream) : Prop :=
  ∀ a t, P s = .ok (a, t) →
    ∃ front, Follows s front t ∧ ∀ s' t', Repeats s front t s' t' → P s' = .ok (a, t')

/-- If the parser fails, it blames the token after some that `K` holds of, and it fails in the same way on every stream
that repeats them. The limit of nesting apart, which is no fault of a token. -/
def Blames (P : Stream → Except ParseError γ) (K : List Kind → Prop) (s : Stream) : Prop :=
  ∀ e, P s = .error e → e.expected ≠ .lessNesting →
    ∃ front t production expected, Follows s front t ∧ e = t.unmet production expected ∧ K (front.map Token.kind) ∧
      ∀ s' t', Repeats s front t s' t' → P s' = .error e

structure Diagnoses (P : Parser α) (K : List Kind → Prop) (s : Stream) : Prop where
  steady : Steady P s
  blames : Blames P K s

variable {P : Parser α} {K L : List Kind → Prop} {s : Stream}

theorem Blames.mono {P : Stream → Except ParseError γ} (h : Blames P K s) (hKL : ∀ xs, K xs → L xs) : Blames P L s := by
  intro e he hlimit
  obtain ⟨front, t, production, expected, hfollows, hunmet, hK, hrepeat⟩ := h e he hlimit
  exact ⟨front, t, production, expected, hfollows, hunmet, hKL _ hK, hrepeat⟩

theorem Diagnoses.mono (h : Diagnoses P K s) (hKL : ∀ xs, K xs → L xs) : Diagnoses P L s :=
  ⟨h.steady, h.blames.mono hKL⟩

theorem Diagnoses.pure (a : α) : Diagnoses (fun s => .ok (a, s)) K s := by
  refine ⟨fun b t h => ?_, fun e he => by cases he⟩
  cases h
  refine ⟨[], .refl s, fun s' t' hr => ?_⟩
  rw [(Follows.refl s').unique hr.follows]

/-- Finding the next token where something else is needed. -/
theorem Diagnoses.unmet (production : Production) (expected : Expected) (hK : K []) :
    Diagnoses (fun s => (.error (s.unmet production expected) : Except ParseError (α × Stream))) K s := by
  refine ⟨fun b t h => (by cases h), fun e he _ => ?_⟩
  cases he
  refine ⟨[], s, production, expected, .refl s, rfl, hK, fun s' t' hr => ?_⟩
  obtain rfl : s' = t' := (Follows.refl s').unique hr.follows
  rw [Stream.unmet, Stream.unmet, hr.sees.current]

/-- A parser blames as another one does that it agrees with on the stream and on all that repeat it. What the other one
has taken may matter for that: `G` tells of it. -/
theorem Blames.of_agree {P R : Stream → Except ParseError γ} (G : List Kind → Prop)
    (hR : Blames R (fun xs => G xs ∧ K xs) s) (hs : P s = R s)
    (hagree : ∀ {front t s' t'}, Follows s front t → G (front.map Token.kind) → Repeats s front t s' t' → P s' = R s') :
    Blames P K s := by
  intro e he hlimit
  rw [hs] at he
  obtain ⟨front, t, production, expected, hfollows, hunmet, ⟨hG, hK⟩, hrepeat⟩ := hR e he hlimit
  refine ⟨front, t, production, expected, hfollows, hunmet, hK, fun s' t' hr => ?_⟩
  rw [hagree hfollows hG hr]
  exact hrepeat s' t' hr

theorem Diagnoses.of_agree {R : Parser α} (G : List Kind → Prop) (hR : Diagnoses R (fun xs => G xs ∧ K xs) s)
    (hG : ∀ {a front t}, R s = .ok (a, t) → Follows s front t → G (front.map Token.kind)) (hs : P s = R s)
    (hagree : ∀ {front t s' t'}, Follows s front t → G (front.map Token.kind) → Repeats s front t s' t' → P s' = R s') :
    Diagnoses P K s := by
  refine ⟨fun a t ha => ?_, hR.blames.of_agree G hs hagree⟩
  rw [hs] at ha
  obtain ⟨front, hfollows, hrepeat⟩ := hR.steady a t ha
  refine ⟨front, hfollows, fun s' t' hr => ?_⟩
  rw [hagree hfollows (hG ha hfollows) hr]
  exact hrepeat s' t' hr

/-- An answer may depend on the next token and on the place of the last one. -/
theorem Diagnoses.seeing (F : Token → Option Span → Parser α) (h : Diagnoses (F s.current s.last) K s) :
    Diagnoses (fun s => F s.current s.last s) K s := by
  refine .of_agree (fun _ => True) (h.mono fun _ hK => ⟨trivial, hK⟩) (fun _ _ => trivial) rfl fun hfollows _ hr => ?_
  simp only [← hr.current hfollows, hr.last]

/-- A choice that the next token makes. -/
theorem Diagnoses.ite (p : Token → Prop) [DecidablePred p] {Q : Parser α} (hP : p s.current → Diagnoses P K s)
    (hQ : ¬p s.current → Diagnoses Q K s) : Diagnoses (fun s => if p s.current then P s else Q s) K s := by
  refine Diagnoses.seeing (fun token _ s => if p token then P s else Q s) ?_
  by_cases h : p s.current
  · simpa only [h, if_true] using hP h
  · simpa only [h, if_false] using hQ h

/-- The limit of nesting is not blamed on a token. -/
theorem Diagnoses.limit {e : Stream → ParseError} (h : ∀ s, (e s).expected = .lessNesting) :
    Diagnoses (fun s => (.error (e s) : Except ParseError (α × Stream))) K s := by
  refine ⟨fun a t ha => (by cases ha), fun e' he hlimit => ?_⟩
  cases he
  exact absurd (h s) hlimit

theorem Steady.bind {f : α × Stream → Except ParseError (β × Stream)} (hP : Steady P s)
    (hf : ∀ a t, P s = .ok (a, t) → Steady (fun t => f (a, t)) t) : Steady (fun s => P s >>= f) s := by
  intro b u hb
  obtain ⟨⟨a, t⟩, hPs, hfa⟩ := bind_eq_ok.mp hb
  obtain ⟨front, hfollows, hrepeat⟩ := hP a t hPs
  obtain ⟨front', hfollows', hrepeat'⟩ := hf a t hPs b u hfa
  refine ⟨front ++ front', hfollows.trans hfollows', fun s' u' hr => ?_⟩
  obtain ⟨t', hr₁, hr₂⟩ := hr.split hfollows hfollows'
  simp only [hrepeat s' t' hr₁, ok_bind]
  exact hrepeat' t' u' hr₂

theorem Blames.bind {f : α × Stream → Except ParseError γ} (hP : Diagnoses P K s)
    (hf : ∀ a t xs, P s = .ok (a, t) → s.kinds = xs ++ t.kinds →
      Blames (fun t => f (a, t)) (fun ys => K (xs ++ ys)) t) :
    Blames (fun s => P s >>= f) K s := by
  intro e he hlimit
  cases hPs : P s with
  | error e' =>
    -- The first parser fails, and with it the whole.
    simp only [hPs, error_bind, Except.error.injEq] at he
    subst he
    obtain ⟨front, t, production, expected, hfollows, hunmet, hK, hrepeat⟩ := hP.blames e' hPs hlimit
    refine ⟨front, t, production, expected, hfollows, hunmet, hK, fun s' t' hr => ?_⟩
    simp only [hrepeat s' t' hr, error_bind]
  | ok p =>
    obtain ⟨a, t⟩ := p
    simp only [hPs, ok_bind] at he
    obtain ⟨front, hfollows, hrepeat⟩ := hP.steady a t hPs
    obtain ⟨front', u, production, expected, hfollows', hunmet, hK, hrepeat'⟩ :=
      hf a t (front.map Token.kind) hPs hfollows.kinds e he hlimit
    refine ⟨front ++ front', u, production, expected, hfollows.trans hfollows', hunmet, ?_, fun s' u' hr => ?_⟩
    · rw [List.map_append]
      exact hK
    · obtain ⟨t', hr₁, hr₂⟩ := hr.split hfollows hfollows'
      simp only [hrepeat s' t' hr₁, ok_bind]
      exact hrepeat' t' u' hr₂

theorem Diagnoses.bind {f : α × Stream → Except ParseError (β × Stream)} (hP : Diagnoses P K s)
    (hf : ∀ a t xs, P s = .ok (a, t) → s.kinds = xs ++ t.kinds →
      Diagnoses (fun t => f (a, t)) (fun ys => K (xs ++ ys)) t) : Diagnoses (fun s => P s >>= f) K s := by
  refine ⟨.bind hP.steady fun a t hPs => ?_, .bind hP fun a t xs hPs hxs => (hf a t xs hPs hxs).blames⟩
  obtain ⟨front, hfollows, -⟩ := hP.steady a t hPs
  exact (hf a t _ hPs hfollows.kinds).steady

theorem Blames.map {P : Stream → Except ParseError γ} (hP : Blames P K s) (f : γ → β) :
    Blames (fun s => P s >>= fun c => .ok (f c)) K s := by
  intro e he hlimit
  cases hPs : P s with
  | error e' =>
    simp only [hPs, error_bind, Except.error.injEq] at he
    subst he
    obtain ⟨front, t, production, expected, hfollows, hunmet, hK, hrepeat⟩ := hP e' hPs hlimit
    refine ⟨front, t, production, expected, hfollows, hunmet, hK, fun s' t' hr => ?_⟩
    simp only [hrepeat s' t' hr, error_bind]
  | ok c =>
    simp only [hPs, ok_bind] at he
    cases he

end

/-! ## Single tokens -/

/-- The next token is not one that `f` accepts. -/
def Refuses {α : Type} (f : Kind → Option α) (s : Stream) : Prop := ∀ k, s.kinds.head? = some k → f k = none

section
variable {α β : Type} {f : Kind → Option α} {production : Production} {expected : Expected} {K : List Kind → Prop}
  {s : Stream}

theorem Taking.shorter {r : Taking α s} {a : α} {t : Stream} (h : Taking.outcome r = .ok (a, t)) : t.size < s.size := by
  cases r with
  | error e => cases h
  | ok p => cases h; exact p.shorter

theorem Reading.notLonger {r : Reading α s} {a : α} {t : Stream} (h : Reading.outcome r = .ok (a, t)) :
    t.size ≤ s.size := by
  cases r with
  | error e => cases h
  | ok p => cases h; exact p.notLonger

theorem SeesSame.refuses {s' : Stream} (h : SeesSame s s') (hf : Refuses f s) : Refuses f s' := by
  intro k hk
  refine hf k ?_
  rw [Stream.kinds, List.head?_map] at hk ⊢
  rw [h.head, hk]

theorem outcome_take_refused (h : Refuses f s) :
    Taking.outcome (take f production expected s) = .error (s.unmet production expected) := by
  unfold take
  split
  · rfl
  · rename_i token rest hp
    have hk : f token.kind = none := h token.kind (by rw [kinds_of_pending_cons hp]; rfl)
    split
    · rfl
    · rename_i a ha
      rw [hk] at ha
      cases ha

/-- The next token is refused, or it is there and accepted. -/
theorem refuses_or_accepts (f : Kind → Option α) (s : Stream) :
    Refuses f s ∨ ∃ token rest a, s.pending = token :: rest ∧ f token.kind = some a := by
  cases hp : s.pending with
  | nil =>
    refine .inl fun k hk => ?_
    rw [Stream.kinds, hp] at hk
    cases hk
  | cons token rest =>
    cases hf : f token.kind with
    | some a => exact .inr ⟨token, rest, a, rfl, hf⟩
    | none =>
      refine .inl fun k hk => ?_
      rw [kinds_of_pending_cons hp] at hk
      cases hk
      exact hf

theorem Follows.singleton {t : Stream} {token : Token} (h : Follows s [token] t) :
    ∃ rest, s.pending = token :: rest ∧ t = ⟨rest, s.endSpan, some token.span⟩ :=
  ⟨t.pending, h.pending, Stream.ext rfl h.endSpan h.last⟩

/-- A token that is taken comes first. -/
theorem take_follows {t : Stream} {a : α} {span : Span}
    (h : Taking.outcome (take f production expected s) = .ok ((a, span), t)) :
    ∃ token, f token.kind = some a ∧ token.span = span ∧ Follows s [token] t := by
  rcases refuses_or_accepts f s with hf | ⟨token, rest, b, hp, hf⟩
  · rw [outcome_take_refused hf] at h
    cases h
  · rw [outcome_take_accepted hp hf] at h
    cases h
    exact ⟨token, hf, rfl, follows_of_pending hp⟩

theorem takeOptional_follows {t : Stream} {o : Option (α × Span)}
    (h : Reading.outcome (takeOptional f s) = .ok (o, t)) :
    (o = none ∧ t = s) ∨ ∃ token a, o = some (a, token.span) ∧ f token.kind = some a ∧ Follows s [token] t := by
  rcases refuses_or_accepts f s with hf | ⟨token, rest, b, hp, hf⟩
  · rw [outcome_takeOptional_none hf] at h
    cases h
    exact .inl ⟨rfl, rfl⟩
  · rw [outcome_takeOptional_accepted hp hf] at h
    cases h
    exact .inr ⟨token, b, rfl, hf, follows_of_pending hp⟩

/-- Taking a token that is there does not look further. -/
theorem take_diagnoses (hK : Refuses f s → K []) :
    Diagnoses (fun s => Taking.outcome (take f production expected s)) K s := by
  rcases refuses_or_accepts f s with hf | ⟨token, rest, a, hp, hf⟩
  · refine ⟨fun a t ha => ?_, fun e he _ => ?_⟩
    · simp only [outcome_take_refused hf] at ha
      cases ha
    · simp only [outcome_take_refused hf] at he
      cases he
      refine ⟨[], s, production, expected, .refl s, rfl, hK hf, fun s' t' hr => ?_⟩
      obtain rfl : s' = t' := (Follows.refl s').unique hr.follows
      simp only [outcome_take_refused (hr.sees.refuses hf), Stream.unmet, hr.sees.current]
  · refine ⟨fun b t hb => ?_, fun e he _ => ?_⟩
    · simp only [outcome_take_accepted hp hf] at hb
      cases hb
      refine ⟨[token], follows_of_pending hp, fun s' t' hr => ?_⟩
      obtain ⟨rest', hp', rfl⟩ := hr.follows.singleton
      exact outcome_take_accepted hp' hf
    · simp only [outcome_take_accepted hp hf] at he
      cases he

theorem takeOptional_diagnoses : Diagnoses (fun s => Reading.outcome (takeOptional f s)) K s := by
  rcases refuses_or_accepts f s with hf | ⟨token, rest, a, hp, hf⟩
  · refine ⟨fun a t ha => ?_, fun e he _ => ?_⟩
    · simp only [outcome_takeOptional_none hf] at ha
      cases ha
      refine ⟨[], .refl s, fun s' t' hr => ?_⟩
      obtain rfl : s' = t' := (Follows.refl s').unique hr.follows
      exact outcome_takeOptional_none (hr.sees.refuses hf)
    · simp only [outcome_takeOptional_none hf] at he
      cases he
  · refine ⟨fun b t hb => ?_, fun e he _ => ?_⟩
    · simp only [outcome_takeOptional_accepted hp hf] at hb
      cases hb
      refine ⟨[token], follows_of_pending hp, fun s' t' hr => ?_⟩
      obtain ⟨rest', hp', rfl⟩ := hr.follows.singleton
      exact outcome_takeOptional_accepted hp' hf
    · simp only [outcome_takeOptional_accepted hp hf] at he
      cases he

/-- Taking a token and going on. -/
theorem Diagnoses.take {g : (α × Span) × Stream → Except ParseError (β × Stream)} (hK : Refuses f s → K [])
    (hg : ∀ k a span t, f k = some a → t.size < s.size →
      Diagnoses (fun t => g ((a, span), t)) (fun ys => K (k :: ys)) t) :
    Diagnoses (fun s => Taking.outcome (Program.take f production expected s) >>= g) K s := by
  refine (take_diagnoses hK).bind fun p t xs ht hxs => ?_
  obtain ⟨k, hk, hf⟩ := outcome_take_ok ht
  obtain rfl : xs = [k] := List.append_cancel_right (hxs.symm.trans hk)
  exact hg k p.1 p.2 t hf (Taking.shorter ht)

/-- Taking a token that may be absent and going on. -/
theorem Diagnoses.takeOptional {g : Option (α × Span) × Stream → Except ParseError (β × Stream)}
    (hnone : Refuses f s → Diagnoses (fun t => g (none, t)) K s)
    (hsome : ∀ k a span t, f k = some a → t.size < s.size →
      Diagnoses (fun t => g (some (a, span), t)) (fun ys => K (k :: ys)) t) :
    Diagnoses (fun s => Reading.outcome (Program.takeOptional f s) >>= g) K s := by
  refine takeOptional_diagnoses.bind fun o t xs ho hxs => ?_
  rcases refuses_or_accepts f s with hf | ⟨token, rest, a, hp, hf⟩
  · simp only [outcome_takeOptional_none hf] at ho
    cases ho
    obtain rfl : xs = [] := List.append_cancel_right (hxs.symm.trans (List.nil_append _).symm)
    exact hnone hf
  · simp only [outcome_takeOptional_accepted hp hf] at ho
    cases ho
    have hk := kinds_of_pending_cons hp
    obtain rfl : xs = [token.kind] := List.append_cancel_right (hxs.symm.trans hk)
    exact hsome token.kind a token.span _ hf (by simp [Stream.size, hp])

/-- A keyword that may be absent. -/
theorem Diagnoses.takeFlag {keyword : Keyword} {g : Bool × Stream → Except ParseError (β × Stream)}
    (hg : ∀ b t, Diagnoses (fun t => g (b, t)) (fun ys => K (Grammar.flag keyword b ++ ys)) t) :
    Diagnoses (fun s => Reading.outcome (Program.takeFlag keyword s) >>= g) K s := by
  simp only [Program.takeFlag, outcome_reading_andThen, outcome_done, bind_assoc, ok_bind]
  refine .takeOptional (fun _ => hg false s) fun k a span t hk _ => ?_
  obtain rfl := eq_of_exactly hk
  exact hg true t

end

end AliasLang.Program
