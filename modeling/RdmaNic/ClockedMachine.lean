import Mathlib.Data.Nat.Notation

/-! # Synchronous machines with an asynchronous active-low reset

A design is its reset values and the values one clock edge loads. Cycle `t` is
the one sampled at the `t`-th edge, so a run gives the registers before each edge. -/
namespace ClockedMachine

variable {σ τ ι κ : Type*}

structure Machine (σ ι : Type*) where
  initial : σ
  next : σ → ι → σ

/-- A block `always @(posedge clk or negedge rst_n)` at a clock edge. -/
def Machine.posedge (m : Machine σ ι) (rstN : Bool) (s : σ) (i : ι) : σ :=
  if rstN then m.next s i else m.initial

def Machine.run (m : Machine σ ι) (rstN : ℕ → Bool) (ins : ℕ → ι) : ℕ → σ
  | 0 => m.initial
  | n + 1 => m.posedge (rstN n) (m.run rstN ins n) (ins n)

/-- The registers as a cycle shows them: a low reset has cleared them before the edge. -/
def Machine.sampled (m : Machine σ ι) (rstN : ℕ → Bool) (ins : ℕ → ι) (n : ℕ) : σ :=
  if rstN n then m.run rstN ins n else m.initial

def Machine.runHigh (m : Machine σ ι) (ins : ℕ → ι) : ℕ → σ := m.run (fun _ => true) ins

@[simp] theorem runHigh_zero (m : Machine σ ι) (ins : ℕ → ι) :
    m.runHigh ins 0 = m.initial := rfl

@[simp] theorem runHigh_succ (m : Machine σ ι) (ins : ℕ → ι) (n : ℕ) :
    m.runHigh ins (n + 1) = m.next (m.runHigh ins n) (ins n) := rfl

theorem run_invariant (m : Machine σ ι) (I : σ → Prop) (h0 : I m.initial)
    (hs : ∀ s i, I s → I (m.next s i)) (rstN : ℕ → Bool) (ins : ℕ → ι) (n : ℕ) :
    I (m.run rstN ins n) := by
  induction n with
  | zero => exact h0
  | succ n ih =>
    rw [Machine.run, Machine.posedge]
    cases rstN n with
    | false => exact h0
    | true => exact hs _ _ ih

theorem sampled_zero (m : Machine σ ι) (rstN : ℕ → Bool) (ins : ℕ → ι) :
    m.sampled rstN ins 0 = m.initial := by
  simp only [Machine.sampled, Machine.run, ite_self]

/-- What a cycle shows follows from what the one before showed, unless either is a reset. -/
theorem sampled_succ (m : Machine σ ι) (rstN : ℕ → Bool) (ins : ℕ → ι) (n : ℕ) :
    m.sampled rstN ins (n + 1) =
      if rstN n && rstN (n + 1) then m.next (m.sampled rstN ins n) (ins n) else m.initial := by
  simp only [Machine.sampled, Machine.run, Machine.posedge]
  by_cases h : rstN n = true <;> by_cases h' : rstN (n + 1) = true <;> simp [h, h']

theorem sampled_invariant (m : Machine σ ι) (I : σ → Prop) (h0 : I m.initial)
    (hs : ∀ s i, I s → I (m.next s i)) (rstN : ℕ → Bool) (ins : ℕ → ι) (n : ℕ) :
    I (m.sampled rstN ins n) := by
  rw [Machine.sampled]
  by_cases h : rstN n = true
  · rw [if_pos h]
    exact run_invariant m I h0 hs rstN ins n
  · rw [if_neg h]
    exact h0

theorem sampled_related (m : Machine σ ι) (R : σ → σ → Prop) (I : ι → ι → Prop)
    (h0 : R m.initial m.initial) (hs : ∀ s s' i i', R s s' → I i i' → R (m.next s i) (m.next s' i'))
    {rstN rstN' : ℕ → Bool} {ins ins' : ℕ → ι} {n : ℕ} (hr : ∀ t ≤ n, rstN t = rstN' t)
    (hi : ∀ t < n, I (ins t) (ins' t)) :
    R (m.sampled rstN ins n) (m.sampled rstN' ins' n) := by
  induction n with
  | zero => simpa only [sampled_zero] using h0
  | succ n ih =>
    have hn := ih (fun t ht => hr t (Nat.le_succ_of_le ht)) fun t ht => hi t (Nat.lt_succ_of_lt ht)
    rw [sampled_succ, sampled_succ, ← hr n (Nat.le_succ n), ← hr (n + 1) (Nat.le_refl _)]
    by_cases h : (rstN n && rstN (n + 1)) = true
    · rw [if_pos h, if_pos h]
      exact hs _ _ _ _ hn (hi n (Nat.lt_succ_self n))
    · rw [if_neg h, if_neg h]
      exact h0

/-- Nothing came before cycle `s`, or a reset cycle did. -/
def EpochStart (rstN : ℕ → Bool) (s : ℕ) : Prop := s = 0 ∨ ∃ r, s = r + 1 ∧ rstN r = false

theorem exists_epoch {rstN : ℕ → Bool} {t : ℕ} (h : rstN t = true) :
    ∃ s k, EpochStart rstN s ∧ t = s + k ∧ ∀ j ≤ k, rstN (s + j) = true := by
  induction t with
  | zero =>
    refine ⟨0, 0, Or.inl rfl, rfl, ?_⟩
    intro j hj
    obtain rfl := Nat.le_zero.mp hj
    exact h
  | succ t ih =>
    by_cases ht : rstN t = true
    · obtain ⟨s, k, hs, rfl, hk⟩ := ih ht
      refine ⟨s, k + 1, hs, rfl, ?_⟩
      intro j hj
      rcases Nat.le_succ_iff.mp hj with hj | rfl
      · exact hk j hj
      · exact h
    · refine ⟨t + 1, 0, Or.inr ⟨t, rfl, Bool.eq_false_iff.mpr ht⟩, rfl, ?_⟩
      intro j hj
      obtain rfl := Nat.le_zero.mp hj
      exact h

/-- Until the next reset the run from the epoch's start is one from power-up. -/
theorem sampled_epoch (m : Machine σ ι) {rstN : ℕ → Bool} {ins : ℕ → ι} {s k : ℕ}
    (hs : EpochStart rstN s) (hk : ∀ j ≤ k, rstN (s + j) = true) :
    m.sampled rstN ins (s + k) = m.runHigh (fun t => ins (s + t)) k := by
  induction k with
  | zero =>
    rcases hs with rfl | ⟨r, rfl, hr⟩
    · exact sampled_zero m rstN ins
    · simp only [Nat.add_zero, sampled_succ, hr, Bool.false_and, runHigh_zero]
      rfl
  | succ k ih =>
    have hstep := sampled_succ m rstN ins (s + k)
    have hprev := ih fun j hj => hk j (Nat.le_succ_of_le hj)
    simp only [hk k (Nat.le_succ k), Nat.add_assoc, hk (k + 1) (Nat.le_refl _), Bool.and_self,
      if_true, hprev] at hstep
    exact hstep

/-- An epoch that is awake from `p` to `p + k` started no later than `p`. -/
theorem epoch_start_le {rstN : ℕ → Bool} {s t p k : ℕ} (hs : EpochStart rstN s)
    (hp : ∀ j ≤ k, rstN (p + j) = true) (ht : s + t = p + k) : s ≤ p := by
  rcases hs with rfl | ⟨r, rfl, hr⟩
  · exact Nat.zero_le p
  · apply Nat.le_of_not_lt
    intro hlt
    have hawake := hp (r - p) (by omega)
    have heq : p + (r - p) = r := by omega
    simp only [heq, hr, Bool.false_eq_true] at hawake

/-- A submodule inside a design runs as it does alone, on the wires it is given. -/
theorem run_component (m : Machine σ ι) (c : Machine τ κ) (part : σ → τ) (wire : σ → ι → κ)
    (h0 : part m.initial = c.initial)
    (hs : ∀ s i, part (m.next s i) = c.next (part s) (wire s i))
    (rstN : ℕ → Bool) (ins : ℕ → ι) (n : ℕ) :
    part (m.run rstN ins n) = c.run rstN (fun t => wire (m.run rstN ins t) (ins t)) n := by
  induction n with
  | zero => exact h0
  | succ n ih =>
    simp only [Machine.run, Machine.posedge]
    cases rstN n with
    | false => exact h0
    | true => rw [if_pos rfl, if_pos rfl, hs, ih]

theorem sampled_component (m : Machine σ ι) (c : Machine τ κ) (part : σ → τ) (wire : σ → ι → κ)
    (h0 : part m.initial = c.initial)
    (hs : ∀ s i, part (m.next s i) = c.next (part s) (wire s i))
    (rstN : ℕ → Bool) (ins : ℕ → ι) (n : ℕ) :
    part (m.sampled rstN ins n) =
      c.sampled rstN (fun t => wire (m.sampled rstN ins t) (ins t)) n := by
  induction n with
  | zero => simpa only [sampled_zero] using h0
  | succ n ih =>
    rw [sampled_succ, sampled_succ, apply_ite part, hs, h0, ih]

theorem runHigh_component (m : Machine σ ι) (c : Machine τ κ) (part : σ → τ) (wire : σ → ι → κ)
    (h0 : part m.initial = c.initial)
    (hs : ∀ s i, part (m.next s i) = c.next (part s) (wire s i)) (ins : ℕ → ι) (n : ℕ) :
    part (m.runHigh ins n) = c.runHigh (fun t => wire (m.runHigh ins t) (ins t)) n :=
  run_component m c part wire h0 hs (fun _ => true) ins n

def Machine.runFrom (m : Machine σ ι) (s : σ) (ins : ℕ → ι) : ℕ → σ
  | 0 => s
  | n + 1 => m.next (m.runFrom s ins n) (ins n)

theorem runFrom_initial (m : Machine σ ι) (ins : ℕ → ι) (n : ℕ) :
    m.runFrom m.initial ins n = m.runHigh ins n := by
  induction n with
  | zero => rfl
  | succ n ih => rw [Machine.runFrom, ih, runHigh_succ]

theorem runFrom_related (m : Machine σ ι) (R : σ → σ → Prop)
    (hs : ∀ s s' i, R s s' → R (m.next s i) (m.next s' i)) {s s' : σ} {ins : ℕ → ι} {k : ℕ}
    (hk : R (m.runFrom s ins k) (m.runFrom s' ins k)) :
    ∀ t ≥ k, R (m.runFrom s ins t) (m.runFrom s' ins t) := by
  intro t ht
  induction ht with
  | refl => exact hk
  | step _ ih => exact hs _ _ _ ih

structure Simulates (m : Machine σ ι) (spec : Machine τ κ) (view : ι → κ)
    (R : σ → τ → Prop) : Prop where
  initial : R m.initial spec.initial
  next : ∀ s s' i, R s s' → R (m.next s i) (spec.next s' (view i))

theorem Simulates.sampled {m : Machine σ ι} {spec : Machine τ κ} {view : ι → κ}
    {R : σ → τ → Prop} (h : Simulates m spec view R) (rstN : ℕ → Bool) (ins : ℕ → ι) (n : ℕ) :
    R (m.sampled rstN ins n) (spec.sampled rstN (fun t => view (ins t)) n) := by
  induction n with
  | zero =>
    rw [sampled_zero, sampled_zero]
    exact h.initial
  | succ n ih =>
    rw [sampled_succ, sampled_succ]
    by_cases hr : (rstN n && rstN (n + 1)) = true
    · rw [if_pos hr, if_pos hr]
      exact h.next _ _ _ ih
    · rw [if_neg hr, if_neg hr]
      exact h.initial

theorem Simulates.runFrom {m : Machine σ ι} {spec : Machine τ κ} {view : ι → κ}
    {R : σ → τ → Prop} (h : Simulates m spec view R) {s : σ} {s' : τ} (hs : R s s')
    (ins : ℕ → ι) (n : ℕ) : R (m.runFrom s ins n) (spec.runFrom s' (fun t => view (ins t)) n) := by
  induction n with
  | zero => exact hs
  | succ n ih => exact h.next _ _ _ ih

end ClockedMachine
