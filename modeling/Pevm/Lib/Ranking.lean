import Pevm.Lib.Machine
import Mathlib.Data.DFinsupp.WellFounded

/-!
# Ranked machines

Termination under every interleaving. Each of finitely many workers has a rank in a well-founded
order, its own steps lower the rank and no step of another worker raises it (`Ranked`). Then every
run ends (`Ranked.acc`), whichever worker is scheduled next, and it ends in a state in which no
worker can step (`Ranked.exists_end`).
-/

namespace Interleaving.Machine

variable {S : Type} {α : Type*} [Preorder α] {M : Machine S Nat} {n : Nat} {I : S → Prop}
  {rank : Nat → S → α}

/-- Only the workers below `n` step, and in the states of `I`, which no step leaves, a step lowers
the rank of its worker and raises none. -/
structure Ranked (M : Machine S Nat) (n : Nat) (I : S → Prop) (rank : Nat → S → α) : Prop where
  bound : ∀ {w s s'}, M.step w s = some s' → w < n
  keeps : ∀ {w s s'}, I s → M.step w s = some s' → I s'
  lowers : ∀ {w s s'}, I s → M.step w s = some s' → rank w s' < rank w s
  others : ∀ {w w' s s'}, I s → M.step w s = some s' → w' ≠ w → rank w' s' ≤ rank w' s

/-- The ranks of all workers. -/
def ranks (n : Nat) (rank : Nat → S → α) (s : S) : Fin n → α :=
  fun w => rank w s

theorem Ranked.ranks_lt (h : M.Ranked n I rank) {w : Nat} {s s' : S} (hs : I s)
    (hstep : M.step w s = some s') : ranks n rank s' < ranks n rank s := by
  refine Pi.lt_def.mpr ⟨fun w' => ?_, ⟨w, h.bound hstep⟩, h.lowers hs hstep⟩
  by_cases hw : (w' : Nat) = w
  · show rank w' s' ≤ rank w' s
    rw [hw]
    exact (h.lowers hs hstep).le
  · exact h.others hs hstep hw

variable [WellFoundedLT α]

/-- **Every run ends.** -/
theorem Ranked.acc (h : M.Ranked n I rank) {s : S} (hs : I s) :
    Acc (fun s' s => ∃ w, M.step w s = some s') s := by
  have hwf : WellFounded fun f g : Fin n → α => f < g := wellFounded_lt
  -- by the ranks of the workers, generalized over the states that have them
  induction hranks : ranks n rank s using hwf.induction generalizing s with
  | _ f ih =>
    subst hranks
    refine ⟨s, ?_⟩
    rintro s' ⟨w, hstep⟩
    exact ih _ (h.ranks_lt hs hstep) (h.keeps hs hstep) rfl

/-- There is no infinite run. -/
theorem Ranked.no_infinite_run (h : M.Ranked n I rank) {run : Nat → S} (hs : I (run 0)) :
    ¬ ∀ k, ∃ w, M.step w (run k) = some (run (k + 1)) := by
  intro hrun
  suffices hacc : ∀ {s : S}, Acc (fun s' s => ∃ w, M.step w s = some s') s → ∀ k, run k ≠ s from
    hacc (h.acc hs) 0 rfl
  intro s hacc
  induction hacc with
  | intro s _ ih =>
    rintro k rfl
    exact ih _ (hrun k) (k + 1) rfl

/-- **A run can be brought to its end**: the state leads to one in which no worker can step. -/
theorem Ranked.exists_end (h : M.Ranked n I rank) {s : S} (hs : I s) :
    ∃ s', M.LeadsTo (fun _ _ => True) s s' ∧ I s' ∧ ∀ w, M.step w s' = none := by
  induction h.acc hs with
  | intro s _ ih =>
    by_cases hend : ∀ w, M.step w s = none
    · exact ⟨s, .refl, hs, hend⟩
    · obtain ⟨w, hw⟩ := not_forall.mp hend
      obtain ⟨t, ht⟩ := Option.ne_none_iff_exists'.mp hw
      obtain ⟨s', hlead, hI, hstuck⟩ := ih t ⟨w, ht⟩ (h.keeps hs ht)
      exact ⟨s', .head ⟨w, trivial, ht⟩ hlead, hI, hstuck⟩

end Interleaving.Machine
