import LineFS.Base.Run

/-! Systems whose actions each concern one key. When the part of the state that
belongs to the action's key follows a small system and the parts of the other
keys stay, a run of the whole system is one run of the small system for each key,
on the actions of that key. -/
namespace LineFS.Base

universe u v w x
variable {σ : Type u} {α : Type v} {κ : Type w} {β : Type x} [DecidableEq κ]

def ofKey (key : α → κ) (k : κ) (as : List α) : List α := as.filter fun a => key a == k

theorem ofKeySame {key : α → κ} {k : κ} {a : α} (as : List α) (same : key a = k) :
    ofKey key k (a::as) = a::ofKey key k as := by simp [ofKey,same]

theorem ofKeyOther {key : α → κ} {k : κ} {a : α} (as : List α) (other : key a ≠ k) :
    ofKey key k (a::as) = ofKey key k as := by simp [ofKey,other]

theorem ofKeyAppend (key : α → κ) (k : κ) (as bs : List α) :
    ofKey key k (as ++ bs) = ofKey key k as ++ ofKey key k bs := List.filter_append ..

structure Simulates (step : σ → α → Option σ) (small : β → α → Option β) (key : α → κ)
    (view : σ → κ → β) (inv : σ → Prop) : Prop where
  follows : ∀ s a b, inv s → small (view s (key a)) a = some b →
    ∃ t, step s a = some t ∧ inv t ∧ view t (key a) = b ∧ ∀ k, key a ≠ k → view t k = view s k

theorem runAppend {step : σ → α → Option σ} (s : σ) (as bs : List α) :
    run step s (as ++ bs) = (run step s as).bind fun t => run step t bs := by
  induction as generalizing s with
  | nil => rfl
  | cons a as ih =>
    cases h : step s a with
    | none => simp [run,h]
    | some t => simp [run,h,ih]

theorem runKeyed {step : σ → α → Option σ} {small : β → α → Option β} {key : α → κ}
    {view : σ → κ → β} {inv : σ → Prop} (sim : Simulates step small key view inv) {s : σ} {as : List α}
    (good : inv s) (each : ∀ k, ∃ b, run small (view s k) (ofKey key k as) = some b) :
    ∃ t, run step s as = some t ∧ inv t ∧ ∀ k, run small (view s k) (ofKey key k as) = some (view t k) := by
  induction as generalizing s with
  | nil => exact ⟨s,rfl,good,fun _ => rfl⟩
  | cons a as ih =>
    obtain ⟨final,whole⟩ := each (key a)
    rw [ofKeySame as rfl] at whole
    obtain ⟨b,first,_⟩ := Option.bind_eq_some_iff.mp whole
    obtain ⟨t,taken,after,moved,stay⟩ := sim.follows s a b good first
    have shift (k : κ) : run small (view s k) (ofKey key k (a::as)) = run small (view t k) (ofKey key k as) := by
      by_cases same : key a = k
      · subst same
        rw [ofKeySame as rfl,moved]
        simp only [run,first,Option.bind_some]
      · rw [ofKeyOther as same,stay k same]
    obtain ⟨r,rest,last,views⟩ := ih after fun k => by rw [← shift k]; exact each k
    refine ⟨r,?_,last,fun k => by rw [shift k]; exact views k⟩
    simp only [run,taken,Option.bind_some,rest]

end LineFS.Base
