import Mathlib.Logic.Function.Basic
import Mathlib.Logic.Relation

/-!
# Interleaving machines

A shared-memory program is modelled as a *machine*: a set of initial states and, for every
worker, a partial step function that performs that worker's next atomic step (`none` when
the worker is blocked or has stopped). An interleaving is the list of the workers in the
order in which they take their steps.

* **`Machine.runVia`** executes one interleaving; it computes, so a concrete schedule can be
  evaluated.
* **`Machine.ReachableVia`** collects the states reached by interleavings whose every step
  satisfies a side condition; `Machine.Reachable` is the unconditional case.
* **`ReachableVia.invariant`** is the induction every safety proof goes through: a property
  that holds initially and is kept by every step holds in every reachable state. For a property
  that holds from some state of the run on it is `LeadsTo.invariant`.

Operations that a worker runs to completion are sequences of atomic steps over a program
counter; `Control` is the result of one of these steps, and `Completes` is the effect of an
operation that runs with nothing interleaved.
-/

namespace Interleaving

/-- After an atomic step an operation either continues at a program counter or returns. -/
inductive Control (P R : Type) where
  | goto (pc : P)
  | ret (r : R)

section Operation

variable {S P R : Type} (step : S → P → Option (S × Control P R))

/-- The operation, entered at `pc` in state `s` and run with nothing interleaved, returns `r` in
state `s'`. -/
inductive Completes : S → P → S → R → Prop where
  | ret {s s' : S} {pc : P} {r : R} (h : step s pc = some (s', .ret r)) : Completes s pc s' r
  | goto {s t s' : S} {pc pc' : P} {r : R} (h : step s pc = some (t, .goto pc'))
      (hrest : Completes t pc' s' r) : Completes s pc s' r

/-- Run an operation for at most the given number of steps. -/
def complete : Nat → S → P → Option (S × R)
  | 0, _, _ => none
  | fuel + 1, s, pc =>
    match step s pc with
    | none => none
    | some (s', .ret r) => some (s', r)
    | some (s', .goto pc') => complete fuel s' pc'

theorem completes_of_complete {step : S → P → Option (S × Control P R)} {s' : S} {r : R} :
    ∀ {fuel : Nat} {s : S} {pc : P}, complete step fuel s pc = some (s', r) →
      Completes step s pc s' r
  | 0, _, _, h => by cases h
  | fuel + 1, s, pc, h => by
    unfold complete at h
    split at h
    · cases h
    · next s₁ r₁ hstep =>
      obtain ⟨rfl, rfl⟩ : s₁ = s' ∧ r₁ = r := by simpa using h
      exact .ret hstep
    · next hstep => exact .goto hstep (completes_of_complete h)

/-- An operation that runs alone has one outcome. -/
theorem Completes.unique {step : S → P → Option (S × Control P R)} {s s₁ s₂ : S} {pc : P}
    {r₁ r₂ : R} (h₁ : Completes step s pc s₁ r₁) (h₂ : Completes step s pc s₂ r₂) :
    s₁ = s₂ ∧ r₁ = r₂ := by
  induction h₁ with
  | ret h =>
    cases h₂ with
    | ret h' =>
      rw [h] at h'
      simpa using h'
    | goto h' _ =>
      rw [h] at h'
      simp at h'
  | goto h _ ih =>
    cases h₂ with
    | ret h' =>
      rw [h] at h'
      simp at h'
    | goto h' hrest =>
      rw [h] at h'
      obtain ⟨rfl, rfl⟩ : _ = _ ∧ _ = _ := by simpa using h'
      exact ih hrest

end Operation

/-- A machine over states `S`, stepped by workers `W`. -/
structure Machine (S W : Type) where
  init : S → Prop
  step : W → S → Option S

namespace Machine

variable {S W : Type} (M : Machine S W)

/-- Execute the interleaving `ws` from `s`; `none` as soon as a scheduled worker cannot step or
a step does not satisfy `C`. -/
def runVia (C : W → S → Bool) : List W → S → Option S
  | [], s => some s
  | w :: ws, s => if C w s then (M.step w s).bind (runVia C ws) else none

/-- Execute the interleaving `ws` from `s`. -/
abbrev run : List W → S → Option S := M.runVia fun _ _ => true

/-- The states reached from an initial state by steps that all satisfy `C`, a condition on
the worker about to step and the state before the step. -/
inductive ReachableVia (C : W → S → Prop) : S → Prop where
  | init {s : S} (h : M.init s) : ReachableVia C s
  | step {s s' : S} (w : W) (hs : ReachableVia C s) (hC : C w s) (h : M.step w s = some s') :
      ReachableVia C s'

/-- The states reached by any interleaving. -/
abbrev Reachable : S → Prop := M.ReachableVia fun _ _ => True

variable {M}

/-- A run condition may be dropped or weakened. -/
theorem ReachableVia.mono {C D : W → S → Prop} (hCD : ∀ w s, C w s → D w s) {s : S}
    (h : M.ReachableVia C s) : M.ReachableVia D s := by
  induction h with
  | init h => exact .init h
  | step w _ hC h ih => exact .step w ih (hCD w _ hC) h

theorem ReachableVia.reachable {C : W → S → Prop} {s : S} (h : M.ReachableVia C s) :
    M.Reachable s :=
  h.mono fun _ _ _ => trivial

/-- **The invariant rule.** What holds initially and is kept by every step that meets the run
condition holds in every state reached. The step may use that its source is reachable. -/
theorem ReachableVia.invariant {C : W → S → Prop} {P : S → Prop}
    (hinit : ∀ s, M.init s → P s)
    (hstep : ∀ w s s', M.ReachableVia C s → C w s → M.step w s = some s' → P s → P s')
    {s : S} (h : M.ReachableVia C s) : P s := by
  induction h with
  | init h => exact hinit _ h
  | step w hs hC h ih => exact hstep w _ _ hs hC h ih

/-- A state leads to another by steps that all satisfy `C`. -/
def LeadsTo (M : Machine S W) (C : W → S → Prop) : S → S → Prop :=
  Relation.ReflTransGen fun s s' => ∃ w, C w s ∧ M.step w s = some s'

theorem LeadsTo.mono {C D : W → S → Prop} (hCD : ∀ w s, C w s → D w s) {s s' : S}
    (h : M.LeadsTo C s s') : M.LeadsTo D s s' := by
  induction h with
  | refl => exact .refl
  | tail _ hone ih =>
    obtain ⟨w, hC, hone⟩ := hone
    exact .tail ih ⟨w, hCD w _ hC, hone⟩

/-- **The invariant rule from a reachable state on.** -/
theorem LeadsTo.invariant {C : W → S → Prop} {P : S → Prop} {s s' : S} (h : M.LeadsTo C s s')
    (hs : M.ReachableVia C s) (hP : P s)
    (hstep : ∀ w t t', M.ReachableVia C t → C w t → M.step w t = some t' → P t → P t') :
    M.ReachableVia C s' ∧ P s' := by
  induction h with
  | refl => exact ⟨hs, hP⟩
  | tail _ hone ih =>
    obtain ⟨w, hC, hone⟩ := hone
    exact ⟨.step w ih.1 hC hone, hstep w _ _ ih.1 hC hone ih.2⟩

/-- **The rule of the end state.** The steps of a run meet what follows from where the run leads. -/
theorem ReachableVia.toward {C D : W → S → Prop} {s : S} (h : M.ReachableVia C s)
    (hD : ∀ w t t', M.ReachableVia C t → C w t → M.step w t = some t' → M.LeadsTo C t' s → D w t) :
    M.ReachableVia D s := by
  -- generalized over the end, which each step of the induction moves back
  suffices hgeneral : ∀ {t : S}, M.ReachableVia C t → M.LeadsTo C t s → M.ReachableVia D t from
    hgeneral h .refl
  intro t ht
  induction ht with
  | init h₀ => exact fun _ => .init h₀
  | step w ht hC hone ih =>
    intro hlead
    exact .step w (ih (.head ⟨w, hC, hone⟩ hlead)) (hD w _ _ ht hC hone hlead) hone

/-- A run leads to the state it ends in. -/
theorem leadsTo_of_run {C : W → S → Bool} {s' : S} :
    ∀ {ws : List W} {s : S}, M.runVia C ws s = some s' → M.LeadsTo (fun w s => C w s = true) s s'
  | [], s, h => by
    cases h
    exact .refl
  | w :: ws, s, h => by
    unfold runVia at h
    split at h
    · next hC =>
      obtain ⟨t, ht, hrest⟩ := Option.bind_eq_some_iff.mp h
      exact .head ⟨w, hC, ht⟩ (leadsTo_of_run hrest)
    · cases h

/-- A run executed from a reachable state ends in a reachable state. -/
theorem ReachableVia.run {C : W → S → Bool} {s s' : S} (hs : M.ReachableVia (fun w s => C w s) s) :
    ∀ {ws : List W}, M.runVia C ws s = some s' → M.ReachableVia (fun w s => C w s) s' := by
  intro ws
  induction ws generalizing s with
  | nil =>
    intro h
    cases h
    exact hs
  | cons w ws ih =>
    intro h
    unfold runVia at h
    split at h
    · next hC =>
      obtain ⟨t, ht, hrest⟩ := Option.bind_eq_some_iff.mp h
      exact ih (.step w hs hC ht) hrest
    · cases h

theorem reachable_run {s s' : S} (hs : M.Reachable s) {ws : List W} (h : M.run ws s = some s') :
    M.Reachable s' :=
  ((hs.mono fun _ _ _ => rfl).run h).reachable

/-- A property that a run can be evaluated to end in holds in some reachable state. -/
theorem exists_reachable_of_run {C : W → S → Bool} {s : S} (hs : M.init s) {ws : List W}
    {p : S → Bool} (h : (M.runVia C ws s).any p = true) :
    ∃ s', M.ReachableVia (fun w s => C w s) s' ∧ p s' = true := by
  obtain ⟨s', hrun, hp⟩ := (Option.any_eq_true p _).mp h
  exact ⟨s', (ReachableVia.init hs).run hrun, hp⟩

/-- With one worker, a run that cannot go on ends in one state. -/
theorem run_unique {v : W} (honly : ∀ w s, w ≠ v → M.step w s = none) {ws₁ : List W} :
    ∀ {ws₂ : List W} {s s₁ s₂ : S}, M.run ws₁ s = some s₁ → M.run ws₂ s = some s₂ →
      (∀ w, M.step w s₁ = none) → (∀ w, M.step w s₂ = none) → s₁ = s₂ := by
  induction ws₁ with
  | nil =>
    intro ws₂ s s₁ s₂ h₁ h₂ hstuck₁ _
    cases h₁
    cases ws₂ with
    | nil => exact Option.some.inj h₂
    | cons w ws₂ =>
      have h₂ : (M.step w s).bind (M.run ws₂) = some s₂ := h₂
      rw [hstuck₁ w] at h₂
      cases h₂
  | cons w₁ ws₁ ih =>
    intro ws₂ s s₁ s₂ h₁ h₂ hstuck₁ hstuck₂
    obtain ⟨t₁, hstep₁, hrest₁⟩ := Option.bind_eq_some_iff.mp
      (show (M.step w₁ s).bind (M.run ws₁) = some s₁ from h₁)
    cases ws₂ with
    | nil =>
      cases h₂
      rw [hstuck₂ w₁] at hstep₁
      cases hstep₁
    | cons w₂ ws₂ =>
      obtain ⟨t₂, hstep₂, hrest₂⟩ := Option.bind_eq_some_iff.mp
        (show (M.step w₂ s).bind (M.run ws₂) = some s₂ from h₂)
      have hone : ∀ w t, M.step w s = some t → w = v := by
        intro w t hstep
        by_contra hne
        rw [honly w s hne] at hstep
        cases hstep
      rw [hone w₁ t₁ hstep₁, ← hone w₂ t₂ hstep₂, hstep₂] at hstep₁
      cases hstep₁
      exact ih hrest₁ hrest₂ hstuck₁ hstuck₂

/-- Every step of the interleaving meets `C`. -/
def Meets (M : Machine S W) (C : W → S → Prop) : List W → S → Prop
  | [], _ => True
  | w :: ws, s => C w s ∧ ∀ s', M.step w s = some s' → Meets M C ws s'

/-- A run whose steps meet a condition ends in a state reached that way. -/
theorem Meets.run {C : W → S → Prop} {ws : List W} : ∀ {s s' : S}, M.Meets C ws s →
    M.ReachableVia C s → M.run ws s = some s' → M.ReachableVia C s' := by
  induction ws with
  | nil =>
    intro s s' _ hs h
    cases h
    exact hs
  | cons w ws ih =>
    rintro s s' ⟨hC, hmeets⟩ hs h
    obtain ⟨t, hstep, hrest⟩ := Option.bind_eq_some_iff.mp (show (M.step w s).bind (M.run ws) = _ from h)
    exact ih (hmeets t hstep) (.step w hs hC hstep) hrest

/-- A run that is executed with the condition checked meets it. -/
theorem meets_of_runVia {C : W → S → Bool} {D : W → S → Prop} (hCD : ∀ w s, C w s = true → D w s)
    {ws : List W} : ∀ {s s' : S}, M.runVia C ws s = some s' → M.Meets D ws s := by
  induction ws with
  | nil => exact fun _ => trivial
  | cons w ws ih =>
    intro s s' h
    unfold runVia at h
    split at h
    · next hC =>
      obtain ⟨t, hstep, hrest⟩ := Option.bind_eq_some_iff.mp h
      refine ⟨hCD w s hC, fun t' ht' => ?_⟩
      obtain rfl := Option.some.inj (hstep.symm.trans ht')
      exact ih hrest
    · cases h

/-- **The simulation rule.** Two runs under one interleaving stay related, and end for the same
workers, if single steps do. -/
theorem run_rel {R : S → S → Prop}
    (hstep : ∀ w s t, M.Reachable s → R s t → Option.Rel R (M.step w s) (M.step w t)) (ws : List W) :
    ∀ {s t : S}, M.Reachable s → R s t → Option.Rel R (M.run ws s) (M.run ws t) := by
  induction ws with
  | nil => exact fun _ hR => .some hR
  | cons w ws ih =>
    intro s t hs hR
    show Option.Rel R ((M.step w s).bind (M.run ws)) ((M.step w t).bind (M.run ws))
    have hone := hstep w s t hs hR
    cases hs' : M.step w s with
    | none =>
      rw [hs'] at hone
      cases ht' : M.step w t with
      | none => exact .none
      | some t' =>
        rw [ht'] at hone
        cases hone
    | some s' =>
      rw [hs'] at hone
      cases ht' : M.step w t with
      | none =>
        rw [ht'] at hone
        cases hone
      | some t' =>
        rw [ht'] at hone
        cases hone with
        | some hR' => exact ih (.step w hs trivial hs') hR'

end Machine

end Interleaving
