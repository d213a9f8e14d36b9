import Mathlib.Data.List.Pairwise
import Mathlib.Data.Nat.Count
import RdmaNic.ClockedMachine
import RdmaNic.DeadTime

/-! # A server with a dead time and a latency

A request that is taken keeps the server from taking another for a while and is done a fixed
time later, so several may be in flight. A reset drops them all. -/
namespace JobServer
open ClockedMachine DeadTime

variable {ι ω : Type*}

/-- A request in flight: how many cycles ago it was taken, and what it delivers. -/
structure Job (ω : Type*) where
  age : ℕ
  word : ω
  deriving DecidableEq, Repr

/-- The word is read from the input of the cycle after the one of the request. -/
structure Spec (ι ω : Type*) where
  dead : ℕ
  latency : ℕ
  dead_pos : 0 < dead
  latency_pos : 0 < latency
  request : ι → Bool
  word : ι → ω

structure InFlight (S : Spec ι ω) where
  jobs : List (Job ω)
  spaced : jobs.Pairwise fun a b => b.age + S.dead ≤ a.age
  aged : ∀ j ∈ jobs, 1 ≤ j.age ∧ j.age ≤ S.latency

variable {S : Spec ι ω}

def InFlight.none : InFlight S where
  jobs := []
  spaced := List.Pairwise.nil
  aged := fun _ hj => absurd hj List.not_mem_nil

def Ready (f : InFlight S) : Prop := ∀ j ∈ f.jobs, S.dead ≤ j.age

def Takes (f : InFlight S) (i : ι) : Prop := S.request i = true ∧ Ready f

def Has (f : InFlight S) (k : ℕ) : Prop := ∃ j ∈ f.jobs, j.age = k

instance (f : InFlight S) : Decidable (Ready f) :=
  inferInstanceAs (Decidable (∀ j ∈ f.jobs, _ ≤ _))

instance (f : InFlight S) (i : ι) : Decidable (Takes f i) := inferInstanceAs (Decidable (_ ∧ _))

instance (f : InFlight S) (k : ℕ) : Decidable (Has f k) :=
  inferInstanceAs (Decidable (∃ j ∈ f.jobs, _ = _))

def grow (S : Spec ι ω) (i : ι) (j : Job ω) : Job ω :=
  ⟨j.age + 1, if j.age = 1 then S.word i else j.word⟩

def kept (f : InFlight S) : List (Job ω) := f.jobs.filter fun j => j.age < S.latency

theorem mem_kept {f : InFlight S} {j : Job ω} : j ∈ kept f ↔ j ∈ f.jobs ∧ j.age < S.latency := by
  rw [kept, List.mem_filter, decide_eq_true_eq]

def taken (f : InFlight S) (i : ι) : List (Job ω) := if Takes f i then [⟨1, S.word i⟩] else []

theorem mem_taken {f : InFlight S} {i : ι} {j : Job ω} :
    j ∈ taken f i ↔ Takes f i ∧ j = ⟨1, S.word i⟩ := by
  by_cases h : Takes f i <;> simp [taken, h]

theorem next_spaced (f : InFlight S) (i : ι) :
    ((kept f).map (grow S i) ++ taken f i).Pairwise fun a b => b.age + S.dead ≤ a.age := by
  rw [List.pairwise_append]
  refine ⟨?_, ?_, ?_⟩
  · rw [List.pairwise_map]
    apply (f.spaced.filter _).imp
    intro a b hab
    simp only [grow]
    omega
  · by_cases h : Takes f i <;> simp [taken, h]
  · intro a ha b hb
    obtain ⟨j, hj, rfl⟩ := List.mem_map.mp ha
    obtain ⟨htakes, rfl⟩ := mem_taken.mp hb
    have hdead := htakes.2 j (mem_kept.mp hj).1
    simp only [grow]
    omega

theorem next_aged (f : InFlight S) (i : ι) :
    ∀ j ∈ (kept f).map (grow S i) ++ taken f i, 1 ≤ j.age ∧ j.age ≤ S.latency := by
  intro j hj
  rcases List.mem_append.mp hj with hj | hj
  · obtain ⟨j', hj', rfl⟩ := List.mem_map.mp hj
    have hage := (mem_kept.mp hj').2
    simp only [grow]
    omega
  · obtain ⟨_, rfl⟩ := mem_taken.mp hj
    exact ⟨le_rfl, S.latency_pos⟩

def server (S : Spec ι ω) : Machine (InFlight S) ι where
  initial := .none
  next f i := ⟨(kept f).map (grow S i) ++ taken f i, next_spaced f i, next_aged f i⟩

theorem mem_next {f : InFlight S} {i : ι} {j : Job ω} : j ∈ ((server S).next f i).jobs ↔
    (∃ j' ∈ f.jobs, j'.age < S.latency ∧ j = grow S i j') ∨
      (Takes f i ∧ j = ⟨1, S.word i⟩) := by
  simp only [server, List.mem_append, List.mem_map, mem_kept, mem_taken, and_assoc, eq_comm]

theorem has_one_next (f : InFlight S) (i : ι) : Has ((server S).next f i) 1 ↔ Takes f i := by
  simp only [Has, mem_next]
  constructor
  · intro h
    rcases h with ⟨j, ⟨j', hj', _, rfl⟩ | ⟨htakes, rfl⟩, hage⟩
    · have hpos := (f.aged j' hj').1
      simp only [grow] at hage
      omega
    · exact htakes
  · intro h
    exact ⟨_, Or.inr ⟨h, rfl⟩, rfl⟩

theorem has_succ_next (f : InFlight S) (i : ι) {k : ℕ} (hk : 0 < k) (hl : k < S.latency) :
    Has ((server S).next f i) (k + 1) ↔ Has f k := by
  simp only [Has, mem_next]
  constructor
  · intro h
    rcases h with ⟨j, ⟨j', hj', _, rfl⟩ | ⟨_, rfl⟩, hage⟩
    · exact ⟨j', hj', Nat.succ_inj.mp hage⟩
    · simp only at hage
      omega
  · intro h
    rcases h with ⟨j, hj, rfl⟩
    exact ⟨_, Or.inl ⟨j, hj, hl, rfl⟩, rfl⟩

theorem grown_of_next {f : InFlight S} {i : ι} {j : Job ω} (hj : j ∈ ((server S).next f i).jobs)
    {k : ℕ} (hk : 0 < k) (hage : j.age = k + 1) :
    ∃ j' ∈ f.jobs, j'.age = k ∧ j = grow S i j' := by
  rcases mem_next.mp hj with ⟨j', hj', _, rfl⟩ | ⟨_, rfl⟩
  · exact ⟨j', hj', Nat.succ_inj.mp hage, rfl⟩
  · simp only at hage
    omega

theorem age_of_oldest {l : List (Job ω)} {a : Job ω} {d : ℕ}
    (hs : (a :: l).Pairwise fun a b => b.age + d ≤ a.age) (hage : ∀ j ∈ a :: l, 1 ≤ j.age) :
    1 + l.length * d ≤ a.age := by
  induction l generalizing a with
  | nil => simpa using hage a List.mem_cons_self
  | cons b l ih =>
    obtain ⟨ha, hs⟩ := List.pairwise_cons.mp hs
    have hb := ih hs fun j hj => hage j (List.mem_cons_of_mem a hj)
    have hab := ha b List.mem_cons_self
    rw [List.length_cons, Nat.succ_mul]
    omega

theorem load_lt (f : InFlight S) : f.jobs.length * S.dead < S.latency + S.dead := by
  obtain ⟨jobs, spaced, aged⟩ := f
  have hpos := S.latency_pos
  cases jobs with
  | nil =>
    rw [List.length_nil, Nat.zero_mul]
    omega
  | cons a l =>
    have hold := age_of_oldest spaced fun j hj => (aged j hj).1
    have hlat := (aged a List.mem_cons_self).2
    rw [List.length_cons, Nat.succ_mul]
    omega

/-- Only the oldest one can be at the end of its latency. -/
theorem length_kept (f : InFlight S) :
    (kept f).length + (if Has f S.latency then 1 else 0) = f.jobs.length := by
  obtain ⟨jobs, spaced, aged⟩ := f
  simp only [kept, Has]
  cases jobs with
  | nil => simp
  | cons a l =>
    have hpos := S.dead_pos
    have ha := (aged a List.mem_cons_self).2
    have hyoung : ∀ j ∈ l, j.age < S.latency := by
      intro j hj
      have hlt := (List.pairwise_cons.mp spaced).1 j hj
      omega
    have hl : l.filter (fun j => decide (j.age < S.latency)) = l := by
      apply List.filter_eq_self.mpr
      intro j hj
      exact decide_eq_true (hyoung j hj)
    have hnone : ¬ ∃ j ∈ l, j.age = S.latency := by
      intro h
      rcases h with ⟨j, hj, hage⟩
      exact absurd hage (hyoung j hj).ne
    by_cases hlt : a.age < S.latency
    · simp [hlt, hl, hnone, hlt.ne]
    · simp [hl, le_antisymm ha (Nat.not_lt.mp hlt)]

theorem length_next (f : InFlight S) (i : ι) :
    ((server S).next f i).jobs.length + (if Has f S.latency then 1 else 0) =
      f.jobs.length + (if Takes f i then 1 else 0) := by
  have hkept := length_kept f
  have htaken : (taken f i).length = if Takes f i then 1 else 0 := by
    by_cases h : Takes f i <;> simp [taken, h]
  simp only [server, List.length_append, List.length_map, htaken]
  omega

section Runs
variable (S) (rstN : ℕ → Bool) (ins : ℕ → ι)

def flightAt (t : ℕ) : InFlight S := (server S).sampled rstN ins t

def TakenAt (t : ℕ) : Prop := rstN t = true ∧ Takes (flightAt S rstN ins t) (ins t)

def DoneAt (t : ℕ) : Prop := Has (flightAt S rstN ins t) S.latency

instance : DecidablePred (TakenAt S rstN ins) := fun _ => inferInstanceAs (Decidable (_ ∧ _))
instance : DecidablePred (DoneAt S rstN ins) := fun t =>
  inferInstanceAs (Decidable (Has (flightAt S rstN ins t) S.latency))

/-- How many are in flight at the edge before cycle `n`, before a reset of that cycle. -/
def load (n : ℕ) : ℕ := ((server S).run rstN ins n).jobs.length

def dropped : ℕ → ℕ
  | 0 => 0
  | n + 1 => dropped n + if rstN n then 0 else load S rstN ins n

def Falls : ℕ → Prop
  | 0 => False
  | t + 1 => rstN t = true ∧ rstN (t + 1) = false

instance : DecidablePred (Falls rstN)
  | 0 => inferInstanceAs (Decidable False)
  | _ + 1 => inferInstanceAs (Decidable (_ ∧ _))

variable {S rstN ins}

theorem flightAt_of_high {t : ℕ} (h : rstN t = true) :
    flightAt S rstN ins t = (server S).run rstN ins t := if_pos h

theorem flightAt_of_low {t : ℕ} (h : rstN t = false) : flightAt S rstN ins t = .none :=
  if_neg (by simp [h])

theorem load_succ_of_low {n : ℕ} (h : rstN n = false) : load S rstN ins (n + 1) = 0 := by
  simp only [load, Machine.run, Machine.posedge, h]
  rfl

/-- Every request that is taken gets done, is still in flight, or was dropped by a reset. -/
theorem taken_ledger (n : ℕ) : Nat.count (TakenAt S rstN ins) n =
    Nat.count (DoneAt S rstN ins) n + load S rstN ins n + dropped S rstN ins n := by
  induction n with
  | zero => rfl
  | succ n ih =>
    rw [Nat.count_succ, Nat.count_succ, ih, dropped]
    by_cases hr : rstN n = true
    · have hstep := length_next ((server S).run rstN ins n) (ins n)
      simp only [TakenAt, DoneAt, flightAt_of_high hr, hr, true_and, if_true, load, Machine.run,
        Machine.posedge]
      omega
    · rw [Bool.not_eq_true] at hr
      have hdone : ¬ DoneAt S rstN ins n := by
        rw [DoneAt, flightAt_of_low hr]
        simp [Has, InFlight.none]
      simp only [TakenAt, hr, Bool.false_eq_true, false_and, hdone, if_false, load_succ_of_low hr]
      omega

theorem dropped_le {m : ℕ} (hm : ∀ f : InFlight S, f.jobs.length ≤ m) (n : ℕ) :
    dropped S rstN ins n ≤ m * Nat.count (Falls rstN) n := by
  induction n with
  | zero => exact Nat.zero_le _
  | succ n ih =>
    rw [dropped, Nat.count_succ, Nat.mul_add]
    apply Nat.add_le_add ih
    by_cases hr : rstN n = true
    · rw [if_pos hr]
      exact Nat.zero_le _
    · rw [if_neg hr]
      rw [Bool.not_eq_true] at hr
      cases n with
      | zero => exact Nat.zero_le _
      | succ t =>
        by_cases ht : rstN t = true
        · have hfall : Falls rstN (t + 1) := ⟨ht, hr⟩
          rw [if_pos hfall, Nat.mul_one]
          exact hm _
        · rw [Bool.not_eq_true] at ht
          rw [load_succ_of_low ht]
          exact Nat.zero_le _

variable (S ins) in
def jobOf (p a : ℕ) : Job ω := ⟨a, S.word (ins (p + min (a - 1) 1))⟩

theorem grow_jobOf {p a : ℕ} (ha : 1 ≤ a) :
    grow S (ins (p + a)) (jobOf S ins p a) = jobOf S ins p (a + 1) := by
  by_cases hone : a = 1
  · simp [grow, jobOf, hone]
  · have hread : min (a - 1) 1 = 1 := by omega
    have hread' : min a 1 = 1 := by omega
    simp [grow, jobOf, hone, hread, hread']

def Flying (S : Spec ι ω) (rstN : ℕ → Bool) (ins : ℕ → ι) (p a : ℕ) : Prop :=
  1 ≤ a ∧ a ≤ S.latency ∧ TakenAt S rstN ins p ∧ ∀ k ≤ a, rstN (p + k) = true

theorem flying_one {p : ℕ} :
    Flying S rstN ins p 1 ↔ TakenAt S rstN ins p ∧ rstN (p + 1) = true := by
  constructor
  · rintro ⟨_, _, hp, hk⟩
    exact ⟨hp, hk 1 le_rfl⟩
  · rintro ⟨hp, hr⟩
    refine ⟨le_rfl, S.latency_pos, hp, ?_⟩
    intro k hk
    rcases Nat.le_one_iff_eq_zero_or_eq_one.mp hk with rfl | rfl
    · exact hp.1
    · exact hr

theorem flying_succ {p a : ℕ} (ha : 1 ≤ a) : Flying S rstN ins p (a + 1) ↔
    Flying S rstN ins p a ∧ a < S.latency ∧ rstN (p + a + 1) = true := by
  constructor
  · rintro ⟨_, hle, hp, hk⟩
    exact ⟨⟨ha, Nat.le_of_succ_le hle, hp, fun k hka => hk k (Nat.le_succ_of_le hka)⟩, hle,
      hk (a + 1) le_rfl⟩
  · rintro ⟨⟨_, _, hp, hk⟩, hlt, hr⟩
    refine ⟨Nat.succ_pos a, hlt, hp, ?_⟩
    intro k hka
    rcases Nat.le_succ_iff.mp hka with hka | rfl
    · exact hk k hka
    · exact hr

/-- What is in flight: the requests taken within the latency, with no reset since. -/
theorem mem_flightAt {t : ℕ} {j : Job ω} : j ∈ (flightAt S rstN ins t).jobs ↔
    ∃ p a, t = p + a ∧ Flying S rstN ins p a ∧ j = jobOf S ins p a := by
  induction t generalizing j with
  | zero =>
    rw [flightAt, sampled_zero]
    constructor
    · intro h
      cases h
    · rintro ⟨p, a, hp, hfly, _⟩
      have hpos := hfly.1
      omega
  | succ t ih =>
    rw [flightAt, sampled_succ]
    by_cases hr : (rstN t && rstN (t + 1)) = true
    · rw [if_pos hr, mem_next]
      rw [Bool.and_eq_true] at hr
      constructor
      · intro h
        rcases h with ⟨j', hj', hlt, rfl⟩ | ⟨htakes, rfl⟩
        · obtain ⟨p, a, rfl, hfly, rfl⟩ := ih.mp hj'
          exact ⟨p, a + 1, rfl, (flying_succ hfly.1).mpr ⟨hfly, hlt, hr.2⟩, grow_jobOf hfly.1⟩
        · exact ⟨t, 1, rfl, flying_one.mpr ⟨⟨hr.1, htakes⟩, hr.2⟩, rfl⟩
      · rintro ⟨p, a, hp, hfly, rfl⟩
        have hpos := hfly.1
        by_cases hone : a = 1
        · subst hone
          obtain rfl : t = p := Nat.succ_inj.mp hp
          exact Or.inr ⟨(flying_one.mp hfly).1.2, rfl⟩
        · obtain ⟨b, rfl⟩ : ∃ b, a = b + 1 := ⟨a - 1, by omega⟩
          obtain rfl : t = p + b := Nat.succ_inj.mp hp
          have hb : 1 ≤ b := by omega
          obtain ⟨hprev, hlt, _⟩ := (flying_succ hb).mp hfly
          exact Or.inl ⟨_, ih.mpr ⟨p, b, rfl, hprev, rfl⟩, hlt, (grow_jobOf hb).symm⟩
    · rw [if_neg hr]
      constructor
      · intro h
        cases h
      · rintro ⟨p, a, hp, ⟨hpos, _, _, hk⟩, _⟩
        obtain ⟨b, rfl⟩ := Nat.exists_eq_add_of_le' hpos
        obtain rfl : t = p + b := Nat.succ_inj.mp hp
        have hprev := hk b (Nat.le_succ b)
        have hlast := hk (b + 1) le_rfl
        simp only [← Nat.add_assoc] at hlast
        simp only [hprev, hlast, Bool.and_self, not_true_eq_false] at hr

theorem doneAt_iff {t : ℕ} : DoneAt S rstN ins t ↔
    ∃ p, t = p + S.latency ∧ TakenAt S rstN ins p ∧ ∀ k ≤ S.latency, rstN (p + k) = true := by
  simp only [DoneAt, Has, mem_flightAt]
  constructor
  · rintro ⟨_, ⟨p, a, rfl, ⟨_, _, hp, hk⟩, rfl⟩, hage⟩
    obtain rfl : a = S.latency := hage
    exact ⟨p, rfl, hp, hk⟩
  · rintro ⟨p, rfl, hp, hk⟩
    exact ⟨_, ⟨p, _, rfl, ⟨S.latency_pos, le_rfl, hp, hk⟩, rfl⟩, rfl⟩

theorem ready_flightAt (h : S.dead ≤ S.latency + 1) {t : ℕ} (hr : rstN t = true) :
    Ready (flightAt S rstN ins t) ↔
      ∀ p, KeptOut S.dead rstN p t → ¬ TakenAt S rstN ins p := by
  constructor
  · rintro hready p ⟨hpt, htd, hk⟩ hp
    obtain ⟨a, rfl⟩ := Nat.exists_eq_add_of_lt hpt
    have hfly : Flying S rstN ins p (a + 1) :=
      ⟨Nat.succ_pos a, by omega, hp, fun k hka => hk _ (Nat.le_add_right p k) (by omega)⟩
    have hdead := hready _ (mem_flightAt.mpr ⟨p, a + 1, rfl, hfly, rfl⟩)
    simp only [jobOf] at hdead
    omega
  · intro hnone j hj
    obtain ⟨p, a, rfl, ⟨hpos, _, hp, hk⟩, rfl⟩ := mem_flightAt.mp hj
    by_contra hlt
    rw [Nat.not_le] at hlt
    simp only [jobOf] at hlt
    refine hnone p ⟨by omega, by omega, ?_⟩ hp
    intro r hpr hra
    obtain ⟨k, rfl⟩ := Nat.exists_eq_add_of_le hpr
    exact hk k (by omega)

/-- Requests are taken as they come, but for those in the dead time of one taken. -/
theorem taken_greedy (h : S.dead ≤ S.latency + 1) : Greedy S.dead rstN
    (fun t => rstN t = true ∧ S.request (ins t) = true) (TakenAt S rstN ins) := by
  intro t
  rw [TakenAt, Takes, and_assoc]
  apply and_congr_right
  intro hr
  apply and_congr_right
  intro _
  exact ready_flightAt h hr

end Runs

end JobServer
