import Mathlib.Algebra.Order.BigOperators.Group.Finset
import Mathlib.Data.Nat.Count
import Mathlib.Order.Interval.Finset.Nat

/-! # Events that keep others out for a while

Of some events those are taken that no taken one keeps out, the first ones first. A reset
between two events ends the dead time of the earlier one. -/
namespace DeadTime

/-- `t` falls into the `d` cycles after `u`, with no reset from one to the other. -/
def KeptOut (d : ℕ) (rstN : ℕ → Bool) (u t : ℕ) : Prop :=
  u < t ∧ t < u + d ∧ ∀ r, u ≤ r → r ≤ t → rstN r = true

/-- Of the events `P` those in `Q` are taken. -/
def Greedy (d : ℕ) (rstN : ℕ → Bool) (P Q : ℕ → Prop) : Prop :=
  ∀ t, Q t ↔ P t ∧ ∀ u, KeptOut d rstN u t → ¬ Q u

def NoneKeptOut (d : ℕ) (rstN : ℕ → Bool) (R : ℕ → Prop) : Prop :=
  ∀ u t, R u → R t → ¬ KeptOut d rstN u t

variable {d : ℕ} {rstN : ℕ → Bool} {P Q R : ℕ → Prop}

theorem Greedy.noneKeptOut (h : Greedy d rstN P Q) : NoneKeptOut d rstN Q := by
  intro u t hu ht hout
  exact ((h t).mp ht).2 u hout hu

theorem Greedy.unique (h : Greedy d rstN P Q) (h' : Greedy d rstN P R) (t : ℕ) : Q t ↔ R t := by
  induction t using Nat.strong_induction_on with
  | _ t ih =>
    rw [h t, h' t]
    apply and_congr_right
    intro _
    apply forall_congr'
    intro u
    apply imp_congr_right
    intro hout
    exact not_congr (ih u hout.1)

/-- An event is taken or one that is taken keeps it out. -/
theorem Greedy.covers (h : Greedy d rstN P Q) {t : ℕ} (ht : P t) :
    Q t ∨ ∃ u, KeptOut d rstN u t ∧ Q u := by
  by_cases hq : Q t
  · exact Or.inl hq
  · rw [h t, not_and] at hq
    have hout := hq ht
    push Not at hout
    exact Or.inr hout

open Classical in
/-- The taken event that an event counts for: itself or the one that keeps it out. -/
noncomputable def chosen (d : ℕ) (rstN : ℕ → Bool) (Q : ℕ → Prop) (t : ℕ) : ℕ :=
  if h : ∃ u, KeptOut d rstN u t ∧ Q u then h.choose else t

theorem Greedy.chosen_taken (h : Greedy d rstN P Q) {t : ℕ} (ht : P t) :
    Q (chosen d rstN Q t) := by
  by_cases hu : ∃ u, KeptOut d rstN u t ∧ Q u
  · rw [chosen, dif_pos hu]
    exact hu.choose_spec.2
  · rw [chosen, dif_neg hu]
    exact (h.covers ht).resolve_right hu

theorem chosen_cases (d : ℕ) (rstN : ℕ → Bool) (Q : ℕ → Prop) (t : ℕ) :
    chosen d rstN Q t = t ∨ KeptOut d rstN (chosen d rstN Q t) t := by
  by_cases hu : ∃ u, KeptOut d rstN u t ∧ Q u
  · rw [chosen, dif_pos hu]
    exact Or.inr hu.choose_spec.1
  · rw [chosen, dif_neg hu]
    exact Or.inl rfl

theorem chosen_le (d : ℕ) (rstN : ℕ → Bool) (Q : ℕ → Prop) (t : ℕ) :
    chosen d rstN Q t ≤ t := by
  rcases chosen_cases d rstN Q t with h | h
  · exact h.le
  · exact h.1.le

theorem lt_chosen_add (hd : 0 < d) (t : ℕ) : t < chosen d rstN Q t + d := by
  rcases chosen_cases d rstN Q t with h | h
  · omega
  · exact h.2.1

theorem keptOut_of_chosen_eq (hd : 0 < d) {t u : ℕ} (htu : t < u)
    (heq : chosen d rstN Q t = chosen d rstN Q u) : KeptOut d rstN t u := by
  have hle := chosen_le d rstN Q t
  have hlt := @lt_chosen_add d rstN Q hd u
  refine ⟨htu, by omega, ?_⟩
  intro r htr hru
  rcases chosen_cases d rstN Q u with h | h
  · omega
  · exact h.2.2 r (by omega) hru

/-- No choice of events that keep none of each other out has more of them. -/
theorem Greedy.count_max [DecidablePred Q] [DecidablePred R] (h : Greedy d rstN P Q)
    (hd : 0 < d) (hsub : ∀ t, R t → P t) (hout : NoneKeptOut d rstN R) (n : ℕ) :
    Nat.count R n ≤ Nat.count Q n := by
  rw [Nat.count_eq_card_filter_range, Nat.count_eq_card_filter_range]
  apply Finset.card_le_card_of_injOn (chosen d rstN Q)
  · intro t ht
    obtain ⟨htn, hr⟩ := Finset.mem_filter.mp ht
    apply Finset.mem_filter.mpr
    refine ⟨?_, h.chosen_taken (hsub t hr)⟩
    exact Finset.mem_range.mpr ((chosen_le d rstN Q t).trans_lt (Finset.mem_range.mp htn))
  · intro t ht u hu heq
    have hrt := (Finset.mem_filter.mp ht).2
    have hru := (Finset.mem_filter.mp hu).2
    rcases Nat.lt_trichotomy t u with hlt | rfl | hlt
    · exact absurd (keptOut_of_chosen_eq hd hlt heq) (hout t u hrt hru)
    · rfl
    · exact absurd (keptOut_of_chosen_eq hd hlt heq.symm) (hout u t hru hrt)

/-- Each event taken keeps out fewer than `d` others. -/
theorem Greedy.count_le_mul [DecidablePred P] [DecidablePred Q] (h : Greedy d rstN P Q)
    (hd : 0 < d) (n : ℕ) : Nat.count P n ≤ d * Nat.count Q n := by
  rw [Nat.count_eq_card_filter_range, Nat.count_eq_card_filter_range]
  apply Finset.card_le_mul_card_image_of_maps_to (f := chosen d rstN Q)
  · intro t ht
    obtain ⟨htn, hp⟩ := Finset.mem_filter.mp ht
    apply Finset.mem_filter.mpr
    refine ⟨?_, h.chosen_taken hp⟩
    exact Finset.mem_range.mpr ((chosen_le d rstN Q t).trans_lt (Finset.mem_range.mp htn))
  · intro q _
    have hsub : {t ∈ {t ∈ Finset.range n | P t} | chosen d rstN Q t = q} ⊆
        Finset.Ico q (q + d) := by
      intro t ht
      have heq := (Finset.mem_filter.mp ht).2
      have hle := chosen_le d rstN Q t
      have hlt := @lt_chosen_add d rstN Q hd t
      exact Finset.mem_Ico.mpr ⟨by omega, by omega⟩
    have hcard := Finset.card_le_card hsub
    rwa [Nat.card_Ico, Nat.add_sub_cancel_left] at hcard

section Scan
variable {β : Type*}

def scan (d free : ℕ) : List (ℕ × β) → List (ℕ × β)
  | [] => []
  | e :: l => if free ≤ e.1 then e :: scan d (e.1 + d) l else scan d free l

theorem scan_sublist (d free : ℕ) (l : List (ℕ × β)) : (scan d free l).Sublist l := by
  induction l generalizing free with
  | nil => exact List.Sublist.slnil
  | cons e l ih =>
    rw [scan]
    by_cases hfree : free ≤ e.1
    · rw [if_pos hfree]
      exact (ih _).cons_cons e
    · rw [if_neg hfree]
      exact (ih _).cons e

def At (l : List (ℕ × β)) (t : ℕ) : Prop := ∃ e ∈ l, e.1 = t

theorem at_cons {e : ℕ × β} {l : List (ℕ × β)} {t : ℕ} : At (e :: l) t ↔ e.1 = t ∨ At l t := by
  simp [At]

theorem at_scan_iff {l : List (ℕ × β)} (hs : l.Pairwise fun a b => a.1 < b.1) (free t : ℕ) :
    At (scan d free l) t ↔
      At l t ∧ free ≤ t ∧ ∀ u < t, t < u + d → ¬ At (scan d free l) u := by
  induction l generalizing free with
  | nil => simp [scan, At]
  | cons e l ih =>
    obtain ⟨he, hs⟩ := List.pairwise_cons.mp hs
    have hlater : ∀ u, At l u → e.1 < u := by
      rintro u ⟨c, hc, rfl⟩
      exact he c hc
    have hsub : ∀ f u, At (scan d f l) u → At l u := by
      rintro f u ⟨c, hc, hu⟩
      exact ⟨c, (scan_sublist d f l).subset hc, hu⟩
    rw [scan]
    by_cases hfree : free ≤ e.1
    · rw [if_pos hfree]
      simp only [at_cons]
      constructor
      · intro h
        rcases h with rfl | h
        · refine ⟨Or.inl rfl, hfree, ?_⟩
          intro u hu _ hat
          rcases hat with rfl | hat
          · exact Nat.lt_irrefl _ hu
          · exact absurd hu (hlater u (hsub _ u hat)).not_gt
        · obtain ⟨hl, hge, hnone⟩ := (ih hs _).mp h
          refine ⟨Or.inr hl, by omega, ?_⟩
          intro u hu hud hat
          rcases hat with rfl | hat
          · omega
          · exact hnone u hu hud hat
      · rintro ⟨hat, _, hnone⟩
        rcases hat with heq | hl
        · exact Or.inl heq
        · refine Or.inr ((ih hs _).mpr ⟨hl, ?_, fun u hu hud h => hnone u hu hud (Or.inr h)⟩)
          by_contra hlt
          exact hnone e.1 (hlater t hl) (by omega) (Or.inl rfl)
    · rw [if_neg hfree, ih hs]
      apply and_congr_left
      rintro ⟨hge, _⟩
      have hne : ¬ e.1 = t := by
        rintro rfl
        exact hfree hge
      rw [at_cons, or_iff_right hne]

theorem scan_greedy {l : List (ℕ × β)} (hs : l.Pairwise fun a b => a.1 < b.1) :
    Greedy d (fun _ => true) (At l) (At (scan d 0 l)) := by
  intro t
  rw [at_scan_iff hs]
  simp only [Nat.zero_le, true_and, KeptOut, implies_true, and_true, and_imp]

end Scan

end DeadTime
