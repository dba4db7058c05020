/-
  Runs of labelled transition systems.

  A run is a list of labels between two states. An invariant of the steps holds after every run,
  and a forward simulation of the steps turns every run into a run of the other system with the
  same labels. `P` restricts the labels, as an assumption on the environment.
-/
import Mathlib.Algebra.Ring.Nat
import Mathlib.Data.List.Basic

namespace LTS

variable {σ τ ℓ : Type}

/-- The runs of `step`, with their labels. -/
inductive Run (step : σ → ℓ → σ → Prop) : σ → List ℓ → σ → Prop
  | refl (s : σ) : Run step s [] s
  | snoc {s s1 s2 : σ} {ls : List ℓ} {l : ℓ} :
      Run step s ls s1 → step s1 l s2 → Run step s (ls ++ [l]) s2

variable {step : σ → ℓ → σ → Prop} {step' : τ → ℓ → τ → Prop}

theorem Run.trans {s s1 s2 : σ} {ls ms : List ℓ} (h : Run step s ls s1) (h' : Run step s1 ms s2) :
    Run step s (ls ++ ms) s2 := by
  induction h' with
  | refl => simpa using h
  | snoc _ hstep ih =>
    rw [← List.append_assoc]
    exact ih.snoc hstep

theorem Run.cons {s s1 s2 : σ} {ls : List ℓ} {l : ℓ} (hstep : step s l s1)
    (h : Run step s1 ls s2) : Run step s (l :: ls) s2 :=
  ((Run.refl s).snoc hstep).trans h

/-- The last step of a run. -/
theorem Run.last {s s' : σ} {ls : List ℓ} {l : ℓ} (h : Run step s (ls ++ [l]) s') :
    ∃ s1, Run step s ls s1 ∧ step s1 l s' := by
  generalize hls : ls ++ [l] = ms at h
  cases h with
  | refl => simp at hls
  | snoc hrun hstep =>
    obtain ⟨rfl, hl⟩ := List.append_inj' hls rfl
    obtain rfl := List.singleton_inj.mp hl
    exact ⟨_, hrun, hstep⟩

theorem Run.eq_of_nil {s s' : σ} (h : Run step s [] s') : s = s' := by
  generalize hls : [] = ls at h
  cases h with
  | refl => rfl
  | snoc _ _ => simp at hls

/-- What each label determines of the next state, the labels of a run determine of its end. -/
theorem Run.unique {f : σ → τ}
    (hstep : ∀ s1 s2 l s1' s2', f s1 = f s2 → step s1 l s1' → step s2 l s2' → f s1' = f s2')
    {s s1 s2 : σ} {ls : List ℓ} (h1 : Run step s ls s1) (h2 : Run step s ls s2) :
    f s1 = f s2 := by
  induction h1 generalizing s2 with
  | refl => rw [h2.eq_of_nil]
  | snoc _ hlast ih =>
    obtain ⟨s2', hrun2, hlast2⟩ := h2.last
    exact hstep _ _ _ _ _ (ih hrun2) hlast hlast2

/-- A run can be stopped in between. -/
theorem Run.split {s s' : σ} {ms ks : List ℓ} (h : Run step s (ms ++ ks) s') :
    ∃ s1, Run step s ms s1 ∧ Run step s1 ks s' := by
  generalize hls : ms ++ ks = ls at h
  induction h generalizing ks with
  | refl =>
    obtain ⟨rfl, rfl⟩ := List.append_eq_nil_iff.mp hls
    exact ⟨s, .refl s, .refl s⟩
  | snoc hrun hstep ih =>
    rcases List.eq_nil_or_concat' ks with rfl | ⟨ks, k, rfl⟩
    · rw [List.append_nil] at hls
      subst hls
      exact ⟨_, hrun.snoc hstep, .refl _⟩
    · rw [← List.append_assoc] at hls
      obtain ⟨hpre, hk⟩ := List.append_inj' hls rfl
      obtain rfl := List.singleton_inj.mp hk
      obtain ⟨s1, hfirst, hlast⟩ := ih hpre
      exact ⟨s1, hfirst, hlast.snoc hstep⟩

/-- The step at a label of a run. -/
theorem Run.stepAt {s s' : σ} {ms ks : List ℓ} {l : ℓ} (h : Run step s (ms ++ l :: ks) s') :
    ∃ s1 s2, Run step s ms s1 ∧ step s1 l s2 := by
  rw [List.append_cons] at h
  obtain ⟨s2, h, -⟩ := h.split
  obtain ⟨s1, hfirst, hstep⟩ := h.last
  exact ⟨s1, s2, hfirst, hstep⟩

/-- A property the steps keep holds after every run. -/
theorem Run.invariant {I : σ → Prop} {P : ℓ → Prop}
    (hkeep : ∀ s l s', I s → P l → step s l s' → I s') {s s' : σ} {ls : List ℓ} (hs : I s)
    (hrun : Run step s ls s') (hP : ∀ l ∈ ls, P l) : I s' := by
  induction hrun with
  | refl => exact hs
  | snoc _ hstep ih =>
    refine hkeep _ _ _ (ih fun l hl => hP l (List.mem_append_left _ hl)) (hP _ ?_) hstep
    exact List.mem_append_right _ (List.mem_singleton_self _)

/-- An invariant that refers to the labels so far. -/
theorem Run.traced {I : List ℓ → σ → Prop}
    (hkeep : ∀ ls s l s', I ls s → step s l s' → I (ls ++ [l]) s') {s s' : σ} {ls : List ℓ}
    (hs : I [] s) (hrun : Run step s ls s') : I ls s' := by
  induction hrun with
  | refl => exact hs
  | snoc _ hstep ih => exact hkeep _ _ _ _ ih hstep

/-- The potential method: if the potential pays for what the cost of a step is over its credit, then
    the initial potential and the credits pay for every run. -/
theorem Run.amortized {I : σ → Prop} {potential : σ → Nat} {cost credit : ℓ → Nat}
    (hstep : ∀ s l s', I s → step s l s' →
      I s' ∧ cost l + potential s' ≤ potential s + credit l) {s s' : σ} {ls : List ℓ} (hs : I s)
    (hrun : Run step s ls s') :
    I s' ∧ (ls.map cost).sum + potential s' ≤ potential s + (ls.map credit).sum := by
  induction hrun with
  | refl => exact ⟨hs, Nat.le_of_eq (Nat.add_comm _ _)⟩
  | snoc _ hlast ih =>
    obtain ⟨hi, hsum⟩ := ih
    obtain ⟨hi', hpays⟩ := hstep _ _ _ hi hlast
    refine ⟨hi', ?_⟩
    simp only [List.map_append, List.sum_append, List.map_cons, List.map_nil, List.sum_singleton]
    omega

/-- A countdown: each step gets done what is waited for, or lowers what is left by at least its cost.
    The steps before it is done cost no more than there is at first. -/
theorem Run.countdown {I : σ → Prop} {D : σ → ℓ → σ → Prop} {P : ℓ → Prop} {left : σ → Nat}
    {cost : ℓ → Nat}
    (hstep : ∀ s l s', I s → P l → step s l s' →
      D s l s' ∨ (I s' ∧ left s' + cost l ≤ left s)) {s s' : σ} {ls : List ℓ} (hs : I s)
    (hrun : Run step s ls s') (hP : ∀ l ∈ ls, P l) :
    (∃ pre l post s1 s2, ls = pre ++ l :: post ∧ Run step s pre s1 ∧ step s1 l s2 ∧
        Run step s2 post s' ∧ I s1 ∧ D s1 l s2 ∧ left s1 + (pre.map cost).sum ≤ left s) ∨
      (I s' ∧ left s' + (ls.map cost).sum ≤ left s) := by
  induction hrun with
  | refl => exact Or.inr ⟨hs, Nat.le_refl _⟩
  | @snoc s1 s2 ls l hrun hlast ih =>
    rcases ih fun l hl => hP l (List.mem_append_left _ hl) with
      ⟨pre, l', post, t1, t2, rfl, hpre, hstep', hpost, hdone⟩ | ⟨hi, hle⟩
    · exact Or.inl ⟨pre, l', post ++ [l], t1, t2, by rw [List.append_assoc]; rfl, hpre, hstep',
        hpost.snoc hlast, hdone⟩
    · have hl : P l := hP l (List.mem_append_right _ (List.mem_singleton_self l))
      rcases hstep _ _ _ hi hl hlast with hdone | ⟨hi', hle'⟩
      · exact Or.inl ⟨ls, l, [], s1, s2, rfl, hrun, hlast, .refl s2, hi, hdone, hle⟩
      · refine Or.inr ⟨hi', ?_⟩
        simp only [List.map_append, List.sum_append, List.map_cons, List.map_nil,
          List.sum_singleton]
        omega

/-- A preorder on states that every step respects relates the ends of every run. -/
theorem Run.related {I : σ → Prop} {r : σ → σ → Prop} (hrefl : ∀ s, r s s)
    (htrans : ∀ s s1 s2, r s s1 → r s1 s2 → r s s2)
    (hkeep : ∀ s l s', I s → step s l s' → I s' ∧ r s s') {s s' : σ} {ls : List ℓ} (hs : I s)
    (hrun : Run step s ls s') : I s' ∧ r s s' := by
  induction hrun with
  | refl => exact ⟨hs, hrefl _⟩
  | snoc _ hstep ih =>
    obtain ⟨hi, hle⟩ := ih
    obtain ⟨hi', hle'⟩ := hkeep _ _ _ hi hstep
    exact ⟨hi', htrans _ _ _ hle hle'⟩

/-- A forward simulation of the steps is one of the runs. -/
theorem Run.simulate {R : σ → τ → Prop} {P : ℓ → Prop}
    (hsim : ∀ s a l s', R s a → P l → step s l s' → ∃ a', step' a l a' ∧ R s' a') {s s' : σ}
    {a : τ} {ls : List ℓ} (hs : R s a) (hrun : Run step s ls s') (hP : ∀ l ∈ ls, P l) :
    ∃ a', Run step' a ls a' ∧ R s' a' := by
  induction hrun with
  | refl => exact ⟨a, .refl a, hs⟩
  | snoc _ hstep ih =>
    obtain ⟨a1, hrun1, hs1⟩ := ih fun l hl => hP l (List.mem_append_left _ hl)
    obtain ⟨a2, hstep2, hs2⟩ :=
      hsim _ _ _ _ hs1 (hP _ (List.mem_append_right _ (List.mem_singleton_self _))) hstep
    exact ⟨a2, hrun1.snoc hstep2, hs2⟩

/-- If each step is a run of another system, with labels of its own, so is each run. -/
theorem Run.simulate_runs {ℓ' : Type} {steps : τ → ℓ' → τ → Prop} {R : σ → τ → Prop}
    (hsim : ∀ s a l s', R s a → step s l s' → ∃ ms a', Run steps a ms a' ∧ R s' a') {s s' : σ}
    {a : τ} {ls : List ℓ} (hs : R s a) (hrun : Run step s ls s') :
    ∃ ms a', Run steps a ms a' ∧ R s' a' := by
  induction hrun with
  | refl => exact ⟨[], a, .refl a, hs⟩
  | snoc _ hstep ih =>
    obtain ⟨ms1, a1, hrun1, hs1⟩ := ih
    obtain ⟨ms2, a2, hrun2, hs2⟩ := hsim _ _ _ _ hs1 hstep
    exact ⟨ms1 ++ ms2, a2, hrun1.trans hrun2, hs2⟩

/-- A simulation in which only some steps are seen, each as a step of the other system. -/
theorem Run.simulate_seen {ℓ' : Type} {steps : τ → ℓ' → τ → Prop} {seen : ℓ → Option ℓ'}
    {R : σ → τ → Prop} {P : ℓ → Prop}
    (hsim : ∀ s a l s', R s a → P l → step s l s' → ∃ a', Run steps a (seen l).toList a' ∧ R s' a')
    {s s' : σ} {a : τ} {ls : List ℓ} (hs : R s a) (hrun : Run step s ls s') (hP : ∀ l ∈ ls, P l) :
    ∃ a', Run steps a (ls.filterMap seen) a' ∧ R s' a' := by
  induction hrun with
  | refl => exact ⟨a, .refl a, hs⟩
  | @snoc _ _ ls l _ hstep ih =>
    obtain ⟨a1, hrun1, hs1⟩ := ih fun l hl => hP l (List.mem_append_left _ hl)
    obtain ⟨a2, hrun2, hs2⟩ :=
      hsim _ _ _ _ hs1 (hP _ (List.mem_append_right _ (List.mem_singleton_self _))) hstep
    have hlast : [l].filterMap seen = (seen l).toList := by
      cases h : seen l with
      | none => exact List.filterMap_cons_none h
      | some l' => exact List.filterMap_cons_some h
    refine ⟨a2, ?_, hs2⟩
    rw [List.filterMap_append, hlast]
    exact hrun1.trans hrun2

/-- A simulation of some of the steps: each is taken by the other system too, or left out. The steps
    that `K` picks are taken. -/
theorem Run.project {R : σ → τ → Prop} {K : ℓ → Bool} {s s' : σ} {a : τ} {ls : List ℓ}
    (hrun : Run step s ls s') (hs : R s a)
    (hsim : ∀ pre l post s1 s2 a1, ls = pre ++ l :: post → Run step s pre s1 → step s1 l s2 →
      R s1 a1 → (∃ a2, step' a1 l a2 ∧ R s2 a2) ∨ (K l = false ∧ R s2 a1)) :
    ∃ ls' a', ls'.Sublist ls ∧ ls'.filter K = ls.filter K ∧ Run step' a ls' a' ∧ R s' a' := by
  induction hrun with
  | refl => exact ⟨[], a, List.Sublist.refl [], rfl, .refl a, hs⟩
  | @snoc s1 s2 ls l hrun hstep ih =>
    obtain ⟨ls', a1, hsub, hmust, hrun', hs1⟩ := ih fun pre l' post t1 t2 b heq =>
      hsim pre l' (post ++ [l]) t1 t2 b (by rw [heq, List.append_assoc, List.cons_append])
    rcases hsim ls l [] s1 s2 a1 rfl hrun hstep hs1 with ⟨a2, hstep', hs2⟩ | ⟨hl, hs2⟩
    · refine ⟨ls' ++ [l], a2, hsub.append (List.Sublist.refl [l]), ?_, hrun'.snoc hstep', hs2⟩
      rw [List.filter_append, List.filter_append, hmust]
    · refine ⟨ls', a1, hsub.trans (List.sublist_append_left ls [l]), ?_, hrun', hs2⟩
      rw [List.filter_append, hmust, List.filter_cons_of_neg (by simp [hl]), List.filter_nil,
        List.append_nil]

end LTS
