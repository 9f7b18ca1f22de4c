/-
What holds of all commands of a part. A property of commands holds throughout the fragment of an action if and only if
it does so in each of its steps. A statement about all commands of an action is therefore proved of single steps, and
put together here once for every property.
-/
import AliasLang.Proofs.Command.Body

namespace AliasLang.Command

open Program

theorem Meets.imp {α : Type} {c : Compile α} {P Q : α → Prop} (h : Meets c P) (hPQ : ∀ a, P a → Q a) : Meets c Q := by
  intro t
  have ht := h t
  cases hr : (runFrom c t).1 with
  | error e =>
    rw [hr] at ht
    exact ht
  | ok a =>
    rw [hr] at ht
    exact hPQ a ht

/-- All commands of the fragment have the property if and only if `q`. -/
def Throughout (P : String → Prop) (q : Prop) (f : Fragment) : Prop := (∀ c ∈ f.commands, P c) ↔ q

section
variable {P : String → Prop} {p q : Prop} {f g : Fragment}

theorem throughout_nil (h : f.commands = []) (hq : q) : Throughout P q f := by
  rw [Throughout, h]
  exact iff_of_true (fun c hc => absurd hc List.not_mem_nil) hq

theorem throughout_single {c : String} (h : f.commands = [c]) (hq : P c ↔ q) : Throughout P q f := by
  rw [Throughout, h, List.forall_mem_singleton]
  exact hq

theorem Throughout.congr (h : Throughout P p f) (hpq : p ↔ q) : Throughout P q f := h.trans hpq

theorem Throughout.append (hf : Throughout P p f) (hg : Throughout P q g) : Throughout P (p ∧ q) (f ++ g) := by
  show (∀ c ∈ f.commands ++ g.commands, P c) ↔ _
  rw [List.forall_mem_append]
  exact and_congr hf hg

/-- The commands of joined fragments are theirs, with barriers in between. -/
theorem forall_joinAll {fragments : List Fragment} (hbarrier : ∀ c ∈ Fragment.barrier, P c) :
    (∀ c ∈ (Fragment.joinAll fragments).commands, P c) ↔ ∀ f ∈ fragments, ∀ c ∈ f.commands, P c := by
  refine ⟨fun h f hf c hc => h c (Fragment.mem_joinAll hf hc), fun h c hc => ?_⟩
  rcases Fragment.mem_foldl_join fragments hc with hc | hc | ⟨f, hf, hc⟩
  · cases hc
  · exact hbarrier c hc
  · exact h f hf c hc

end

variable (co : Collaborators) (scope : Scope) {P : String → Prop}

theorem commands_register (s : Store) (f : Fragment) : (register scope s f).commands = f.commands := by
  unfold register
  split <;> rfl

theorem compileStore_throughout {s : Store} {q : Prop}
    (h : P (storeCommand scope (scope.resolveKey s.key s.isLocal)) ↔ q) :
    Meets (compileStep co scope (.store s)) (Throughout P q) := by
  refine .pure (throughout_single ?_ h)
  show (register scope s .empty).commands ++ _ = _
  rw [commands_register]
  rfl

theorem compileChain_throughout {q : Link → Prop} {links : List Link}
    (h : ∀ l ∈ links, Meets (compileStep co scope l.step) (Throughout P (q l))) :
    Meets (compileChain co scope links) (Throughout P (∀ l ∈ links, q l)) := by
  induction links with
  | nil => exact .pure (throughout_nil rfl fun l hl => absurd hl List.not_mem_nil)
  | cons l rest ih =>
    rw [List.forall_mem_cons] at h
    rw [compileChain]
    refine .bind h.1 fun f hf => .bind (ih h.2) fun g hg => .pure ((hf.append hg).congr ?_)
    exact List.forall_mem_cons.symm

theorem compileExecute_throughout {qr : Retrieve → Prop} {qa : Prop} {qc : Link → Prop} {e : Execute}
    (hretrieve : ∀ r, e.retrieve = some r → Meets (compileRetrieve scope r) (Throughout P (qr r)))
    (haction : Meets (compileSimple co scope e.action) (Throughout P qa))
    (hchain : ∀ l ∈ e.chain, Meets (compileStep co scope l.step) (Throughout P (qc l))) :
    Meets (compileExecute co scope e)
      (Throughout P ((∀ r, e.retrieve = some r → qr r) ∧ qa ∧ ∀ l ∈ e.chain, qc l)) := by
  have hrest : ∀ {p : Prop} {retrieved : Fragment}, Throughout P p retrieved → Meets (do
      let action ← compileSimple co scope e.action
      return retrieved ++ action ++ (← compileChain co scope e.chain))
      (Throughout P (p ∧ qa ∧ ∀ l ∈ e.chain, qc l)) := by
    intro p retrieved hr
    refine .bind haction fun action ha => .bind (compileChain_throughout co scope hchain) fun chain hc => .pure ?_
    exact ((hr.append ha).append hc).congr and_assoc
  unfold compileExecute
  split
  · rename_i r hr
    refine .bind (hretrieve r hr) fun retrieved hretrieved => ?_
    have hone : qr r ↔ ∀ r', some r = some r' → qr r' := by simp
    rw [hr]
    exact hrest (hretrieved.congr hone)
  · rename_i hr
    rw [hr]
    exact hrest (throughout_nil rfl fun r he => nomatch he)

end AliasLang.Command
