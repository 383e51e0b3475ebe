import Pevm.Lib.Machine

/-!
# Simulations

A machine whose every step another machine answers with some of its own, possibly none, keeping a
relation between their states. The relation then holds along whole runs (`LeadsTo.simulated`). The
run of the second machine is an interleaving of its workers (`exists_run`).
-/

namespace Interleaving.Machine

variable {S S' W W' : Type} {M : Machine S W} {N : Machine S' W'}

/-- From related states each step of `M` that meets `C` is answered by a run of `N`. -/
def Simulates (M : Machine S W) (C : W → S → Prop) (N : Machine S' W') (R : S → S' → Prop) : Prop :=
  ∀ w t t' s, C w t → M.step w t = some t' → R t s →
    ∃ s', N.LeadsTo (fun _ _ => True) s s' ∧ R t' s'

/-- **The simulation rule with stuttering.** -/
theorem LeadsTo.simulated {C : W → S → Prop} {R : S → S' → Prop} (hsim : Simulates M C N R)
    {t t' : S} {s : S'} (h : M.LeadsTo C t t') (hR : R t s) :
    ∃ s', N.LeadsTo (fun _ _ => True) s s' ∧ R t' s' := by
  induction h with
  | refl => exact ⟨s, .refl, hR⟩
  | tail _ hone ih =>
    obtain ⟨s₁, hlead, hR₁⟩ := ih
    obtain ⟨w, hC, hstep⟩ := hone
    obtain ⟨s₂, hlead', hR₂⟩ := hsim w _ _ s₁ hC hstep hR₁
    exact ⟨s₂, hlead.trans hlead', hR₂⟩

/-- A run leads to its end by steps of the workers it schedules. -/
theorem leadsTo_of_forall {C : W → Prop} {s' : S} {ws : List W} (hC : ∀ w ∈ ws, C w) :
    ∀ {s : S}, M.run ws s = some s' → M.LeadsTo (fun w _ => C w) s s' := by
  induction ws with
  | nil =>
    intro s h
    cases h
    exact .refl
  | cons w ws ih =>
    intro s h
    obtain ⟨t, hstep, hrest⟩ := Option.bind_eq_some_iff.mp (show (M.step w s).bind (M.run ws) = _ from h)
    exact .head ⟨w, hC w List.mem_cons_self, hstep⟩
      (ih (fun w' hw' => hC w' (List.mem_cons_of_mem _ hw')) hrest)

/-- What a state leads to is the end of an interleaving. -/
theorem exists_run {C : W → S → Prop} {s s' : S} (h : M.LeadsTo C s s') :
    ∃ ws, M.run ws s = some s' := by
  induction h using Relation.ReflTransGen.head_induction_on with
  | refl => exact ⟨[], rfl⟩
  | head hone _ ih =>
    obtain ⟨w, -, hstep⟩ := hone
    obtain ⟨ws, hrun⟩ := ih
    refine ⟨w :: ws, ?_⟩
    show (M.step w _).bind (M.run ws) = some s'
    rw [hstep]
    exact hrun

end Interleaving.Machine
