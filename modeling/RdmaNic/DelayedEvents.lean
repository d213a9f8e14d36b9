import Mathlib.Data.Nat.Count

/-! # Events at a fixed delay after other events

Events are predicates on cycles. Counting is over the cycles before a bound. -/
namespace DelayedEvents

variable {P Q R : ℕ → Prop} {j k d : ℕ}

/-- `Q` happens exactly `k` cycles after each `P` and at no other time. -/
def Follows (k : ℕ) (P Q : ℕ → Prop) : Prop := ∀ t, Q t ↔ ∃ p, t = p + k ∧ P p

def Spaced (d : ℕ) (P : ℕ → Prop) : Prop := ∀ t u, P t → P u → t < u → t + d ≤ u

def IsNth (P : ℕ → Prop) [DecidablePred P] (i t : ℕ) : Prop := P t ∧ Nat.count P t = i

theorem follows_one (h0 : ¬ Q 0) (hs : ∀ t, Q (t + 1) ↔ P t) : Follows 1 P Q := by
  intro t
  cases t with
  | zero => exact ⟨fun h => absurd h h0, fun ⟨p, hp, _⟩ => by omega⟩
  | succ t =>
    rw [hs]
    constructor
    · intro h; exact ⟨t, rfl, h⟩
    · intro h
      rcases h with ⟨p, hp, h⟩
      obtain rfl : t = p := by omega
      exact h

theorem Follows.trans (h : Follows j P Q) (g : Follows k Q R) : Follows (j + k) P R := by
  intro t
  constructor
  · intro hr
    obtain ⟨q, rfl, hq⟩ := (g t).mp hr
    obtain ⟨p, rfl, hp⟩ := (h q).mp hq
    exact ⟨p, by omega, hp⟩
  · intro h
    rcases h with ⟨p, rfl, hp⟩
    exact (g _).mpr ⟨p + j, by omega, (h _).mpr ⟨p, rfl, hp⟩⟩

theorem Follows.at (h : Follows k P Q) (t : ℕ) : Q (t + k) ↔ P t := by
  rw [h]
  constructor
  · intro h
    rcases h with ⟨p, hp, hP⟩
    obtain rfl : t = p := by omega
    exact hP
  · intro hP; exact ⟨t, rfl, hP⟩

theorem Follows.not_before (h : Follows k P Q) {t : ℕ} (ht : t < k) : ¬ Q t := by
  intro hq
  obtain ⟨p, rfl, _⟩ := (h t).mp hq
  omega

section Counting
variable [DecidablePred P] [DecidablePred Q]

theorem Follows.count_add (h : Follows k P Q) (n : ℕ) :
    Nat.count Q (n + k) = Nat.count P n := by
  induction n with
  | zero =>
    rw [Nat.zero_add, Nat.count_zero, Nat.count_iff_forall_not]
    exact fun t ht => h.not_before ht
  | succ n ih =>
    rw [Nat.succ_add, Nat.count_succ, ih, Nat.count_succ]
    simp only [h.at]

theorem Follows.count (h : Follows k P Q) (n : ℕ) :
    Nat.count Q n = Nat.count P (n - k) := by
  rcases le_total k n with hk | hk
  · obtain ⟨m, rfl⟩ := Nat.exists_eq_add_of_le' hk
    rw [h.count_add, Nat.add_sub_cancel]
  · rw [Nat.sub_eq_zero_of_le hk, Nat.count_zero, Nat.count_iff_forall_not]
    exact fun t ht => h.not_before (by omega)

theorem Follows.isNth (h : Follows k P Q) (i t : ℕ) :
    IsNth Q i t ↔ ∃ p, t = p + k ∧ IsNth P i p := by
  constructor
  · intro h
    rcases h with ⟨hq, hc⟩
    obtain ⟨p, rfl, hp⟩ := (h t).mp hq
    exact ⟨p, rfl, hp, by rw [← hc, h.count_add]⟩
  · intro h
    rcases h with ⟨p, rfl, hp, hc⟩
    exact ⟨(h.at p).mpr hp, by rw [h.count_add, hc]⟩

theorem Spaced.count_window (h : Spaced d P) (n : ℕ) :
    Nat.count P (n + d) ≤ Nat.count P n + 1 := by
  have aux : ∀ w, w ≤ d → Nat.count P (n + w) ≤ Nat.count P n ∨
      (Nat.count P (n + w) = Nat.count P n + 1 ∧ ∃ t, n ≤ t ∧ t < n + w ∧ P t) := by
    intro w
    induction w with
    | zero => intro _; exact Or.inl le_rfl
    | succ w ih =>
      intro hw
      rw [← Nat.add_assoc, Nat.count_succ]
      by_cases hp : P (n + w)
      · rcases ih (by omega) with hc | ⟨_, t, hnt, htw, ht⟩
        · have := Nat.count_monotone P (Nat.le_add_right n w)
          exact Or.inr ⟨by rw [if_pos hp]; omega, n + w, by omega, by omega, hp⟩
        · have := h t (n + w) ht hp htw
          omega
      · rw [if_neg hp]
        rcases ih (by omega) with hc | ⟨hc, t, hnt, htw, ht⟩
        · exact Or.inl hc
        · exact Or.inr ⟨hc, t, hnt, by omega, ht⟩
  rcases aux d le_rfl with hc | ⟨hc, _⟩ <;> omega

theorem Spaced.count_windows (h : Spaced d P) (n m : ℕ) :
    Nat.count P (n + m * d) ≤ Nat.count P n + m := by
  induction m with
  | zero => simp
  | succ m ih =>
    have := h.count_window (n + m * d)
    rw [Nat.succ_mul, ← Nat.add_assoc]
    omega

/-- Fewer events are equally many exactly when none is missing. -/
theorem count_eq_iff_of_imp (h : ∀ t, P t → Q t) (n : ℕ) :
    Nat.count P n = Nat.count Q n ↔ ∀ t < n, Q t → P t := by
  induction n with
  | zero => simp
  | succ n ih =>
    have hle : Nat.count P n ≤ Nat.count Q n := Nat.count_mono_left fun t _ => h t
    rw [Nat.count_succ, Nat.count_succ, Nat.forall_lt_succ_right, ← ih]
    by_cases hq : Q n
    · by_cases hp : P n
      · simp [hp, hq]
      · simp only [hp, hq, if_true, if_false]
        constructor
        · intro he; omega
        · intro h
          rcases h with ⟨_, hf⟩
          exact absurd (hf trivial) id
    · have hp : ¬ P n := fun hp => hq (h n hp)
      simp [hp, hq]

end Counting

end DelayedEvents
