import Icesee.Lib.Machine
import Mathlib.Data.List.Induction

/-!
Machines whose actions commute.

If any two actions that are both enabled can be taken in either order, with the same
result, the order of the actions does not matter: where one run ends, every other run ends
too, after the same actions in another order (`run_extends`). So to say that all runs of
such a machine come to an end it is enough to give one of them (`canEnd_iff`).
-/

namespace Machine

variable {σ α : Type} (step : σ → α → Option σ)

/-- Enabled actions do not disable each other, and their order does not matter. -/
def Commutes : Prop :=
  ∀ s a b s₁ s₂, a ≠ b → step s a = some s₁ → step s b = some s₂ →
    ∃ t, step s₁ b = some t ∧ step s₂ a = some t

/-- No action is enabled. -/
def Stopped (s : σ) : Prop := ∀ a, step s a = none

/-- Some run ends in a state with the property. -/
def CanEnd (final : σ → Prop) (s : σ) : Prop := ∃ as t, run step s as = some t ∧ final t

/-- Every run can be continued until it ends in a state with the property. -/
def AlwaysEnds (final : σ → Prop) (s : σ) : Prop :=
  ∀ as t, run step s as = some t → CanEnd step final t

variable {step} {s s' t u : σ} {a : α} {as bs : List α}

/-- **Runs with their actions**: a property of the actions so far and the state. -/
theorem run_induction (P : List α → σ → Prop) (hs : P [] s)
    (hstep : ∀ as t a u, run step s as = some t → P as t → step t a = some u → P (as ++ [a]) u)
    (h : run step s as = some t) : P as t := by
  induction as using List.reverseRecOn generalizing t with
  | nil =>
      obtain rfl := Option.some.inj h
      exact hs
  | append_singleton as a ih =>
      rw [run_append] at h
      obtain ⟨u, hu, hlast⟩ := Option.bind_eq_some_iff.mp h
      obtain ⟨v, hv, hnil⟩ := run_cons_eq_some.mp hlast
      obtain rfl := Option.some.inj hnil
      exact hstep as u a v hu (ih hu) hv

/-- An enabled action belongs to every run that stops, and it can be taken first. -/
lemma run_cons_of_enabled (hcomm : Commutes step) (ht : Stopped step t)
    (has : run step s as = some t) (ha : step s a = some s') :
    ∃ cs, run step s' cs = some t ∧ (a :: cs).Perm as := by
  induction as generalizing s s' with
  | nil =>
      obtain rfl := Option.some.inj has
      exact absurd ha (by simp [ht a])
  | cons b as ih =>
      obtain ⟨s₁, hb, hrest⟩ := run_cons_eq_some.mp has
      by_cases hab : a = b
      · subst hab
        obtain rfl := Option.some.inj (ha.symm.trans hb)
        exact ⟨as, hrest, List.Perm.refl _⟩
      · obtain ⟨u, hu₁, hu₂⟩ := hcomm s b a s₁ s' (Ne.symm hab) hb ha
        obtain ⟨cs, hcs, hperm⟩ := ih hrest hu₁
        exact ⟨b :: cs, by rw [run_cons_of_eq hu₂, hcs],
          (List.Perm.swap b a cs).trans (hperm.cons b)⟩

/-- **Runs meet**: where one run stops, every other run can be continued to the same state,
and all in all it takes the same actions. -/
theorem run_extends (hcomm : Commutes step) (ht : Stopped step t)
    (has : run step s as = some t) (hbs : run step s bs = some u) :
    ∃ cs, run step u cs = some t ∧ (bs ++ cs).Perm as := by
  induction bs generalizing s as with
  | nil =>
      obtain rfl := Option.some.inj hbs
      exact ⟨as, has, List.Perm.refl _⟩
  | cons b bs ih =>
      obtain ⟨s₁, hb, hrest⟩ := run_cons_eq_some.mp hbs
      obtain ⟨as', has', hperm⟩ := run_cons_of_enabled hcomm ht has hb
      obtain ⟨cs, hcs, hperm'⟩ := ih has' hrest
      exact ⟨cs, hcs, (hperm'.cons b).trans hperm⟩

variable {final : σ → Prop}

lemma canEnd_of_final (h : final s) : CanEnd step final s := ⟨[], s, rfl, h⟩

lemma canEnd_mono {p q : σ → Prop} (h : ∀ t, p t → q t) (hs : CanEnd step p s) :
    CanEnd step q s := by
  obtain ⟨as, t, has, ht⟩ := hs
  exact ⟨as, t, has, h t ht⟩

/-- An enabled action leads away from no end. -/
lemma canEnd_step (hcomm : Commutes step) (hfinal : ∀ t, final t → Stopped step t)
    (ha : step s a = some s') : CanEnd step final s ↔ CanEnd step final s' := by
  constructor
  · rintro ⟨as, t, has, ht⟩
    obtain ⟨cs, hcs, -⟩ := run_cons_of_enabled hcomm (hfinal t ht) has ha
    exact ⟨cs, t, hcs, ht⟩
  · rintro ⟨as, t, has, ht⟩
    exact ⟨a :: as, t, by rw [run_cons_of_eq ha, has], ht⟩

/-- **One run or all**: some run ends exactly if every run can be continued to its end. -/
theorem canEnd_iff (hcomm : Commutes step) (hfinal : ∀ t, final t → Stopped step t) :
    CanEnd step final s ↔ AlwaysEnds step final s := by
  constructor
  · rintro ⟨as, t, has, ht⟩ bs u hbs
    obtain ⟨cs, hcs, -⟩ := run_extends hcomm (hfinal t ht) has hbs
    exact ⟨cs, t, hcs, ht⟩
  · exact fun h => h [] s rfl

/-- No run ends if an invariant excludes it. -/
lemma not_canEnd_of_invariant (inv : σ → Prop)
    (hstep : ∀ s a s', inv s → step s a = some s' → inv s') (hs : inv s)
    (hfinal : ∀ t, inv t → ¬ final t) : ¬ CanEnd step final s := by
  rintro ⟨as, t, has, ht⟩
  have hg : Guarded step (fun _ _ => True) s as :=
    guarded_of_forall (p := fun _ => True) fun _ _ => trivial
  exact hfinal t (run_invariant inv (fun s a s' hi _ => hstep s a s' hi) hs hg has) ht

end Machine
