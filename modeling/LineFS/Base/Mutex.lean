import Mathlib.Data.List.Basic
import Mathlib.Logic.Function.Basic

/-! Locks and what their users do with them. A history is `Paired` when acquisitions and releases alternate,
each release by the thread that acquired the lock. `Disciplined` ties the owners to the places of the
threads, where `holds` says which locks a thread has. -/
namespace LineFS.Base

inductive LockEvent (τ : Type) where
  | acquire (t : τ)
  | release (t : τ)
  deriving DecidableEq, Repr

def Paired {τ : Type} : Option τ → List (LockEvent τ) → Option τ → Prop
  | o,[],o' => o = o'
  | o,.acquire t::es,o' => o = none ∧ Paired (some t) es o'
  | o,.release t::es,o' => o = some t ∧ Paired none es o'

structure Locks (ι τ : Type) where
  owner : ι → Option τ
  history : ι → List (LockEvent τ)

section Paired
variable {τ : Type} {t : τ} {o : Option τ} {es : List (LockEvent τ)}

theorem pairedAcquire (paired : Paired o es none) : Paired o (es ++ [.acquire t]) (some t) := by
  induction es generalizing o with
  | nil => exact ⟨paired,rfl⟩
  | cons e es ih => cases e <;> exact ⟨paired.1,ih paired.2⟩

theorem pairedRelease (paired : Paired o es (some t)) : Paired o (es ++ [.release t]) none := by
  induction es generalizing o with
  | nil => exact ⟨paired,rfl⟩
  | cons e es ih => cases e <;> exact ⟨paired.1,ih paired.2⟩

end Paired

section Locks
variable {ι τ π : Type} [DecidableEq ι] [DecidableEq τ]

def Locks.free : Locks ι τ := ⟨fun _ => none,fun _ => []⟩

def Locks.acquire (ls : Locks ι τ) (l : ι) (t : τ) : Option (Locks ι τ) :=
  if (ls.owner l).isNone then
    some ⟨Function.update ls.owner l (some t),Function.update ls.history l (ls.history l ++ [.acquire t])⟩
  else none

def Locks.release (ls : Locks ι τ) (l : ι) (t : τ) : Locks ι τ :=
  ⟨Function.update ls.owner l none,Function.update ls.history l (ls.history l ++ [.release t])⟩

structure Disciplined (holds : π → ι → Prop) (ls : Locks ι τ) (place : τ → π) : Prop where
  owned : ∀ l t, ls.owner l = some t ↔ holds (place t) l
  paired : ∀ l, Paired none (ls.history l) (ls.owner l)

variable {holds : π → ι → Prop} {ls ls' : Locks ι τ} {place : τ → π} {next : π} {l : ι} {t : τ}

omit [DecidableEq ι] [DecidableEq τ] in
theorem disciplinedFree {start : π} (nothing : ∀ l, ¬holds start l) :
    Disciplined holds (Locks.free : Locks ι τ) fun _ => start :=
  ⟨fun l _ => ⟨nofun,fun held => absurd held (nothing l)⟩,fun _ => rfl⟩

omit [DecidableEq ι] in
theorem disciplinedMove (ok : Disciplined holds ls place) (same : ∀ k, holds next k ↔ holds (place t) k) :
    Disciplined holds ls (Function.update place t next) := by
  refine ⟨fun k u => ?_,ok.paired⟩
  rcases eq_or_ne u t with rfl | other
  · simp [same,ok.owned]
  · simp [other,ok.owned]

theorem disciplinedAcquire (ok : Disciplined holds ls place) (taken : ls.acquire l t = some ls')
    (more : ∀ k, holds next k ↔ holds (place t) k ∨ k = l) : Disciplined holds ls' (Function.update place t next) := by
  obtain ⟨isNone,taken⟩ := Option.ite_none_right_eq_some.mp taken
  have empty := Option.isNone_iff_eq_none.mp isNone
  have nobody (u : τ) : ¬holds (place u) l := fun held => by
    have owner := (ok.owned l u).mpr held
    rw [empty] at owner
    cases owner
  cases taken
  refine ⟨fun k u => ?_,fun k => ?_⟩
  · rcases eq_or_ne k l with rfl | elsewhere <;> rcases eq_or_ne u t with rfl | other
    · simp [more]
    · simp [other,nobody,other.symm]
    · simp [more,elsewhere,ok.owned]
    · simp [elsewhere,other,ok.owned]
  · rcases eq_or_ne k l with rfl | elsewhere
    · simpa using pairedAcquire (empty ▸ ok.paired k)
    · simpa [elsewhere] using ok.paired k

theorem disciplinedRelease (ok : Disciplined holds ls place) (held : holds (place t) l)
    (less : ∀ k, holds next k ↔ holds (place t) k ∧ k ≠ l) :
    Disciplined holds (ls.release l t) (Function.update place t next) := by
  have owner := (ok.owned l t).mpr held
  have nobody {u : τ} (other : u ≠ t) : ¬holds (place u) l := fun also => by
    have same := (ok.owned l u).mpr also
    rw [owner] at same
    exact other (Option.some.inj same).symm
  refine ⟨fun k u => ?_,fun k => ?_⟩
  · rcases eq_or_ne k l with rfl | elsewhere <;> rcases eq_or_ne u t with rfl | other
    · simp [Locks.release,less]
    · simp [Locks.release,other,nobody other]
    · simp [Locks.release,less,elsewhere,ok.owned]
    · simp [Locks.release,elsewhere,other,ok.owned]
  · rcases eq_or_ne k l with rfl | elsewhere
    · simpa [Locks.release] using pairedRelease (owner ▸ ok.paired k)
    · simpa [Locks.release,elsewhere] using ok.paired k

end Locks
end LineFS.Base
