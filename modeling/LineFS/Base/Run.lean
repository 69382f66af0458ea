import Mathlib.Data.List.Forall2

/-! Executions of a partial step function. `Reach` has the states that an execution reaches whose steps all
meet a condition; `Any` excludes nothing. The computable `run` of a list of actions produces members of
`Reach`. Two runs are compared step by step. A step taken under a guard gives the guard back, and a history
that a step extends has what it had and the one addition. -/
namespace LineFS.Base

universe u v
variable {σ : Type u} {α : Type v} {step : σ → α → Option σ} {ok : σ → α → Prop} {s t r : σ}

inductive Reach (step : σ → α → Option σ) (ok : σ → α → Prop) (s : σ) : σ → Prop where
  | start : Reach step ok s s
  | next {t r a} (before : Reach step ok s t) (allowed : ok t a) (taken : step t a = some r) :
      Reach step ok s r

def Any : σ → α → Prop := fun _ _ => True

def run (step : σ → α → Option σ) : σ → List α → Option σ
  | s, [] => some s
  | s, a::as => (step s a).bind fun t => run step t as

def guarded (step : σ → α → Option σ) (ok : σ → α → Prop) [∀ s a, Decidable (ok s a)]
    (s : σ) (a : α) : Option σ := if ok s a then step s a else none

theorem ifTaken {p : Prop} [Decidable p] (h : (if p then some s else none) = some t) : p ∧ t = s := by
  obtain ⟨guard,same⟩ := Option.ite_none_right_eq_some.mp h
  exact ⟨guard,(Option.some.inj same).symm⟩

theorem unlessTaken {p : Prop} [Decidable p] (h : (if p then none else some s) = some t) : ¬p ∧ t = s := by
  obtain ⟨guard,same⟩ := Option.ite_none_left_eq_some.mp h
  exact ⟨guard,(Option.some.inj same).symm⟩

theorem memSnoc {x y : α} {xs : List α} (h : x ∈ xs ++ [y]) : x ∈ xs ∨ x = y :=
  (List.mem_append.mp h).imp_right List.mem_singleton.mp

theorem reachInvariant (inv : σ → Prop) (first : inv s)
    (kept : ∀ t a r, inv t → ok t a → step t a = some r → inv r) (h : Reach step ok s t) : inv t := by
  induction h with
  | start => exact first
  | next _ allowed taken ih => exact kept _ _ _ ih allowed taken

theorem reachTrans (first : Reach step ok s t) (second : Reach step ok t r) : Reach step ok s r := by
  induction second with
  | start => exact first
  | next _ allowed taken ih => exact .next ih allowed taken

theorem reachWeaken {more : σ → α → Prop} (weaker : ∀ s a, ok s a → more s a) (h : Reach step ok s t) : Reach step more s t := by
  induction h with
  | start => exact .start
  | next _ allowed taken ih => exact .next ih (weaker _ _ allowed) taken

theorem runAllowed {as : List α} (allowed : ∀ a ∈ as, ∀ s, ok s a) (h : run step s as = some t) :
    Reach step ok s t := by
  induction as generalizing s with
  | nil => cases h; exact .start
  | cons a as ih =>
    simp only [run,Option.bind_eq_some_iff] at h
    obtain ⟨m,taken,rest⟩ := h
    have later : ∀ b ∈ as, ∀ s, ok s b := fun b mem => allowed b (.tail a mem)
    exact reachTrans (.next .start (allowed a (.head _) s) taken) (ih later rest)

theorem runReach {as : List α} (h : run step s as = some t) : Reach step Any s t :=
  runAllowed (fun _ _ _ => trivial) h

theorem runGuarded [∀ s a, Decidable (ok s a)] {as : List α} (h : run (guarded step ok) s as = some t) : Reach step ok s t := by
  have reached := runReach h
  clear h
  induction reached with
  | start => exact .start
  | next _ _ taken ih =>
    obtain ⟨allowed,taken⟩ := Option.ite_none_right_eq_some.mp taken
    exact .next ih allowed taken

theorem traceAny {P : σ → Prop} [DecidablePred P] (as : List α) (seen : (run step s as).any fun t => P t) :
    ∃ t, Reach step Any s t ∧ P t := by
  obtain ⟨t,ran,holds⟩ := (Option.any_eq_true _ _).mp seen
  exact ⟨t,runReach ran,of_decide_eq_true holds⟩

theorem traceReach {P : σ → Prop} [DecidablePred P] [∀ s a, Decidable (ok s a)] (as : List α)
    (seen : (run (guarded step ok) s as).any fun t => P t) : ∃ t, Reach step ok s t ∧ P t := by
  obtain ⟨t,ran,holds⟩ := (Option.any_eq_true _ _).mp seen
  exact ⟨t,runGuarded ran,of_decide_eq_true holds⟩

theorem runTwin {τ : Type*} {β : Type*} {other : τ → β → Option τ} [∀ s a, Decidable (ok s a)] {R : σ → τ → Prop} {alike : α → β → Prop}
    (kept : ∀ s t a b s', R s t → ok s a → alike a b → step s a = some s' → ∃ t', other t b = some t' ∧ R s' t')
    {as : List α} {bs : List β} {t : τ} (similar : List.Forall₂ alike as bs) (related : R s t)
    (ran : run (guarded step ok) s as = some r) : ∃ q, run other t bs = some q ∧ R r q := by
  induction similar generalizing s t with
  | nil =>
    cases ran
    exact ⟨t,rfl,related⟩
  | @cons a b as bs first _ ih =>
    simp only [run,Option.bind_eq_some_iff] at ran
    obtain ⟨m,taken,rest⟩ := ran
    obtain ⟨allowed,taken⟩ := Option.ite_none_right_eq_some.mp taken
    obtain ⟨m',taken',near⟩ := kept s t a b m related allowed first taken
    obtain ⟨q,ran',last⟩ := ih near rest
    exact ⟨q,by simp only [run,taken',Option.bind_some,ran'],last⟩

theorem runFollows {τ : Type*} {other : τ → α → Option τ} [∀ s a, Decidable (ok s a)] {R : σ → τ → Prop}
    (follows : ∀ s t a s', R s t → ok s a → step s a = some s' → ∃ t', other t a = some t' ∧ R s' t')
    {as : List α} {t : τ} (related : R s t) (ran : run (guarded step ok) s as = some r) :
    ∃ q, run other t as = some q ∧ R r q := by
  have same : List.Forall₂ Eq as as := List.forall₂_refl as
  refine runTwin (fun s t a b s' near allowed equal taken => ?_) same related ran
  subst equal
  exact follows s t a s' near allowed taken

end LineFS.Base
