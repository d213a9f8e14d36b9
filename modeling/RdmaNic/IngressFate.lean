import RdmaNic.IngressPath
import RdmaNic.TxOrigin

/-! # What becomes of each beat of the two ports

Resets may come in any cycle. A beat is dropped by one, loses the mux to the host, is refused
by the scheduler or comes out of it, and the ports and the resets alone say which. -/
namespace IngressFate
open ClockedMachine PortSignals RdmaTop IngressPath SchedPackets TxOrigin

inductive Fate where
  | reset
  | overridden
  | refused
  | forwarded
  deriving DecidableEq, Repr

section Runs
variable (rstN : ℕ → Bool) (ins : ℕ → TopIn)

/-- The beat of that cycle is not in the design with the others of its cycle: a reset comes
before the edge at which it would be output. -/
def Dropped (src : Source) (u : ℕ) : Prop := ∃ k ≤ src.latency + 1, rstN (u + k) = false

def Overridden (src : Source) (u : ℕ) : Prop := src = .rx ∧ (ins (u + 1)).host.valid = true

instance (src : Source) (u : ℕ) : Decidable (Dropped rstN src u) :=
  inferInstanceAs (Decidable (∃ k ≤ src.latency + 1, rstN (u + k) = false))

instance (src : Source) (u : ℕ) : Decidable (Overridden ins src u) :=
  inferInstanceAs (Decidable (_ ∧ _))

def fate (src : Source) (u : ℕ) : Option Fate :=
  if (port ins src u).valid then
    if Dropped rstN src u then some .reset
    else if Overridden ins src u then some .overridden
    else if taken rstN (muxAt rstN ins) (u + src.latency) then some .forwarded
    else some .refused
  else none

/-- The beat is what the mux shows, in the cycle it gets there. -/
def Reaches (src : Source) (u : ℕ) : Prop :=
  (port ins src u).valid = true ∧ ¬ Dropped rstN src u ∧ ¬ Overridden ins src u

variable {rstN ins}

theorem fate_cases (src : Source) (u : ℕ) :
    (fate rstN ins src u = none ∧ (port ins src u).valid = false) ∨
    (fate rstN ins src u = some .reset ∧ (port ins src u).valid = true ∧ Dropped rstN src u) ∨
    (fate rstN ins src u = some .overridden ∧ (port ins src u).valid = true ∧
      Overridden ins src u) ∨
    (fate rstN ins src u = some .refused ∧ Reaches rstN ins src u ∧
      taken rstN (muxAt rstN ins) (u + src.latency) = false) ∨
    (fate rstN ins src u = some .forwarded ∧ Reaches rstN ins src u ∧
      taken rstN (muxAt rstN ins) (u + src.latency) = true) := by
  unfold fate Reaches
  by_cases hv : (port ins src u).valid = true
  · by_cases hd : Dropped rstN src u
    · simp [hv, hd]
    · by_cases ho : Overridden ins src u
      · simp [hv, hd, ho]
      · by_cases ht : taken rstN (muxAt rstN ins) (u + src.latency) = true <;> simp [hv, hd, ho, ht]
  · simp [hv]

theorem fate_forwarded {src : Source} {u : ℕ} : fate rstN ins src u = some .forwarded ↔
    Reaches rstN ins src u ∧ taken rstN (muxAt rstN ins) (u + src.latency) = true := by
  rcases @fate_cases rstN ins src u with ⟨hf, hv⟩ | ⟨hf, _, hd⟩ | ⟨hf, _, ho⟩ | ⟨hf, _, ht⟩ |
    ⟨hf, hreach, ht⟩
  · simp [hf, Reaches, hv]
  · simp [hf, Reaches, hd]
  · simp [hf, Reaches, ho]
  · simp [hf, ht]
  · simp [hf, hreach, ht]

theorem fate_refused {src : Source} {u : ℕ} : fate rstN ins src u = some .refused ↔
    Reaches rstN ins src u ∧ taken rstN (muxAt rstN ins) (u + src.latency) = false := by
  rcases @fate_cases rstN ins src u with ⟨hf, hv⟩ | ⟨hf, _, hd⟩ | ⟨hf, _, ho⟩ | ⟨hf, hreach, ht⟩ |
    ⟨hf, _, ht⟩
  · simp [hf, Reaches, hv]
  · simp [hf, Reaches, hd]
  · simp [hf, Reaches, ho]
  · simp [hf, hreach, ht]
  · simp [hf, ht]

theorem overridden_of_fate {src : Source} {u : ℕ} (h : fate rstN ins src u = some .overridden) :
    Overridden ins src u := by
  rcases @fate_cases rstN ins src u with ⟨hf, _⟩ | ⟨hf, _⟩ | ⟨_, _, ho⟩ | ⟨hf, _⟩ | ⟨hf, _⟩
  · simp [hf] at h
  · simp [hf] at h
  · exact ho
  · simp [hf] at h
  · simp [hf] at h

theorem not_dropped {src : Source} {u : ℕ} :
    ¬ Dropped rstN src u ↔ ∀ k ≤ src.latency + 1, rstN (u + k) = true := by
  simp only [Dropped, not_exists, not_and, Bool.not_eq_false]

theorem arb_beat (host2qp rx2qp : PortCycle) :
    (arb host2qp rx2qp).beat = host2qp.beat.or rx2qp.beat := by
  unfold arb PortCycle.beat
  by_cases hv : host2qp.valid = true <;> simp [hv]

theorem muxAt_zero : (muxAt rstN ins 0).beat = (ins 0).host.beat := by
  rw [muxAt, arb_beat]
  exact Option.or_none

theorem muxAt_succ {t : ℕ} (ht : rstN (t + 1) = true) :
    (muxAt rstN ins (t + 1)).beat =
      (ins (t + 1)).host.beat.or (if rstN t then (ins t).rx.beat else none) := by
  rw [muxAt, arb_beat, ht, Bool.and_true]
  by_cases hr : rstN t = true
  · rw [if_pos hr, if_pos hr]
  · rw [if_neg hr, if_neg hr]
    rfl

theorem valid_of_beat {c : PortCycle} {b : BitVec 64 × Bool} (h : c.beat = some b) :
    c.valid = true := by
  obtain ⟨d, l⟩ := b
  exact (beat_eq_some.mp h).1

theorem reaches_host_iff {u : ℕ} (hm : rstN u = true) (hs : rstN (u + 1) = true) :
    Reaches rstN ins .host u ↔ (ins u).host.valid = true := by
  have hkept : ¬ Dropped rstN .host u := by
    rw [not_dropped]
    intro k hk
    rcases Nat.le_one_iff_eq_zero_or_eq_one.mp hk with rfl | rfl
    · exact hm
    · exact hs
  constructor
  · intro h
    exact h.1
  · intro hv
    refine ⟨hv, hkept, ?_⟩
    rintro ⟨hsrc, _⟩
    cases hsrc

theorem reaches_rx_iff {t : ℕ} (hm : rstN (t + 1) = true) (hs : rstN (t + 2) = true) :
    Reaches rstN ins .rx t ↔
      (ins (t + 1)).host.valid = false ∧ rstN t = true ∧ (ins t).rx.valid = true := by
  constructor
  · rintro ⟨hv, hd, ho⟩
    refine ⟨?_, not_dropped.mp hd 0 (Nat.zero_le _), hv⟩
    rw [← Bool.not_eq_true]
    intro hhost
    exact ho ⟨rfl, hhost⟩
  · rintro ⟨hhost, hr, hv⟩
    refine ⟨hv, ?_, ?_⟩
    · rw [not_dropped]
      intro k hk
      obtain rfl | rfl | rfl : k = 0 ∨ k = 1 ∨ k = 2 := by
        change k ≤ 2 at hk
        omega
      · exact hr
      · exact hm
      · exact hs
    · rintro ⟨_, hover⟩
      rw [hhost] at hover
      cases hover

/-- The mux shows a beat of one of the ports, the rx one a cycle late. -/
theorem muxAt_beat {m : ℕ} (hm : rstN m = true) (hs : rstN (m + 1) = true)
    {b : BitVec 64 × Bool} : (muxAt rstN ins m).beat = some b ↔
      ∃ src u, m = u + src.latency ∧ Reaches rstN ins src u ∧ (port ins src u).beat = some b := by
  have hfront : (ins m).host.beat = some b → ∃ src u, m = u + src.latency ∧
      Reaches rstN ins src u ∧ (port ins src u).beat = some b := by
    intro hb
    exact ⟨.host, m, rfl, (reaches_host_iff hm hs).mpr (valid_of_beat hb), hb⟩
  cases m with
  | zero =>
    rw [muxAt_zero]
    refine ⟨hfront, ?_⟩
    rintro ⟨src, u, hu, _, hb⟩
    cases src with
    | host =>
      obtain rfl : u = 0 := hu.symm
      exact hb
    | rx => cases hu
  | succ t =>
    rw [muxAt_succ hm, Option.or_eq_some_iff, Option.ite_none_right_eq_some]
    constructor
    · rintro (hb | ⟨hnone, hr, hb⟩)
      · exact hfront hb
      · have hidle := beat_eq_none.mp hnone
        exact ⟨.rx, t, rfl, (reaches_rx_iff hm hs).mpr ⟨hidle, hr, valid_of_beat hb⟩, hb⟩
    · rintro ⟨src, u, hu, hreach, hb⟩
      cases src with
      | host =>
        obtain rfl : t + 1 = u := hu
        exact Or.inl hb
      | rx =>
        obtain rfl : t = u := Nat.succ_inj.mp hu
        obtain ⟨hidle, hr, _⟩ := (reaches_rx_iff hm hs).mp hreach
        exact Or.inr ⟨beat_eq_none.mpr hidle, hr, hb⟩

theorem reaches_unique {src src' : Source} {u u' : ℕ} (h : Reaches rstN ins src u)
    (h' : Reaches rstN ins src' u') (heq : u + src.latency = u' + src'.latency) :
    (src, u) = (src', u') := by
  cases src with
  | host =>
    cases src' with
    | host =>
      obtain rfl : u = u' := heq
      rfl
    | rx =>
      obtain rfl : u = u' + 1 := heq
      exact absurd ⟨rfl, h.1⟩ h'.2.2
  | rx =>
    cases src' with
    | host =>
      obtain rfl : u + 1 = u' := heq
      exact absurd ⟨rfl, h'.1⟩ h.2.2
    | rx =>
      obtain rfl : u = u' := Nat.succ_inj.mp heq
      rfl

/-- The scheduler's output is made of the forwarded beats, each a fixed time later. -/
theorem sch2txAt_beat {t : ℕ} {b : BitVec 64 × Bool} : (sch2txAt rstN ins t).beat = some b ↔
    ∃ src u, t = u + src.latency + 1 ∧ fate rstN ins src u = some .forwarded ∧
      (port ins src u).beat = some b := by
  cases t with
  | zero =>
    rw [sch2txAt, topAt, sampled_zero]
    constructor
    · intro h
      cases h
    · rintro ⟨src, u, hu, _⟩
      omega
  | succ t =>
    by_cases hr : rstN t = true ∧ rstN (t + 1) = true
    · rw [sch2tx_beat hr.1 hr.2, Option.ite_none_right_eq_some, muxAt_beat hr.1 hr.2]
      constructor
      · rintro ⟨ht, src, u, rfl, hreach, hb⟩
        exact ⟨src, u, rfl, fate_forwarded.mpr ⟨hreach, ht⟩, hb⟩
      · rintro ⟨src, u, hu, hf, hb⟩
        obtain rfl : t = u + src.latency := Nat.succ_inj.mp hu
        obtain ⟨hreach, ht⟩ := fate_forwarded.mp hf
        exact ⟨ht, src, u, rfl, hreach, hb⟩
    · have hcleared : sch2txAt rstN ins (t + 1) = rdmaTop.initial.sched.out := by
        rw [sch2txAt, topAt, sampled_succ, if_neg]
        rwa [Bool.and_eq_true]
      rw [hcleared]
      constructor
      · intro h
        cases h
      · rintro ⟨src, u, hu, hf, _⟩
        obtain rfl : t = u + src.latency := Nat.succ_inj.mp hu
        have hhigh := not_dropped.mp (fate_forwarded.mp hf).1.2.1
        exact absurd ⟨hhigh _ (Nat.le_succ _), hhigh _ le_rfl⟩ hr

/-- The beat the mux showed the cycle before was forwarded and was a last one. -/
theorem afterTakenLast_iff {m : ℕ} (hm : rstN m = true) :
    afterTakenLast rstN (muxAt rstN ins) m = true ↔ ∃ src u, u + src.latency + 1 = m ∧
      fate rstN ins src u = some .forwarded ∧ (port ins src u).last = true := by
  cases m with
  | zero =>
    constructor
    · intro h
      cases h
    · rintro ⟨src, u, hu, _⟩
      cases hu
  | succ t =>
    rw [afterTakenLast, Bool.and_eq_true, Bool.and_eq_true]
    constructor
    · rintro ⟨⟨hr, ht⟩, hl⟩
      have hv : (muxAt rstN ins t).valid = true := by
        rw [taken_eq, Bool.and_eq_true] at ht
        exact ht.1
      have hb : (muxAt rstN ins t).beat = some ((muxAt rstN ins t).data, true) :=
        beat_eq_some.mpr ⟨hv, rfl, hl⟩
      obtain ⟨src, u, rfl, hreach, hb'⟩ := (muxAt_beat hr hm).mp hb
      exact ⟨src, u, rfl, fate_forwarded.mpr ⟨hreach, ht⟩, (beat_eq_some.mp hb').2.2⟩
    · rintro ⟨src, u, hu, hf, hl⟩
      obtain rfl : u + src.latency = t := Nat.succ_inj.mp hu
      obtain ⟨hreach, ht⟩ := fate_forwarded.mp hf
      have hr := not_dropped.mp hreach.2.1 _ (Nat.le_succ _)
      have hb := beat_eq_some.mpr ⟨hreach.1, rfl, hl⟩
      have hmux := (muxAt_beat hr hm).mpr ⟨src, u, rfl, hreach, hb⟩
      exact ⟨⟨hr, ht⟩, (beat_eq_some.mp hmux).2.2⟩

/-- A beat is refused when the beat before it at the mux was forwarded and was a last one. -/
theorem refused_iff {src : Source} {u : ℕ} : fate rstN ins src u = some .refused ↔
    Reaches rstN ins src u ∧ ∃ src' u', u' + src'.latency + 1 = u + src.latency ∧
      fate rstN ins src' u' = some .forwarded ∧ (port ins src' u').last = true := by
  rw [fate_refused]
  apply and_congr_right
  intro hreach
  have hhigh := not_dropped.mp hreach.2.1
  have hm : rstN (u + src.latency) = true := hhigh _ (Nat.le_succ _)
  have hb := beat_eq_some.mpr ⟨hreach.1, rfl, rfl⟩
  have hvalid : (muxAt rstN ins (u + src.latency)).valid = true :=
    valid_of_beat ((muxAt_beat hm (hhigh _ le_rfl)).mpr ⟨src, u, rfl, hreach, hb⟩)
  rw [taken_eq, hvalid, Bool.true_and, Bool.not_eq_false']
  exact afterTakenLast_iff hm

end Runs

section Counts
variable (rstN : ℕ → Bool) (ins : ℕ → TopIn)

def offered (src : Source) (n : ℕ) : ℕ := Nat.count (fun u => (port ins src u).valid = true) n

def tally (src : Source) (f : Fate) (n : ℕ) : ℕ :=
  Nat.count (fun u => fate rstN ins src u = some f) n

def emittedBefore (n : ℕ) : ℕ := Nat.count (fun t => (sch2txAt rstN ins t).valid = true) n

def LastOut (t : ℕ) : Prop :=
  (sch2txAt rstN ins t).valid = true ∧ (sch2txAt rstN ins t).last = true

instance : DecidablePred (LastOut rstN ins) := fun _ => inferInstanceAs (Decidable (_ ∧ _))

variable {rstN ins}

theorem offered_eq (src : Source) (n : ℕ) : offered ins src n =
    tally rstN ins src .reset n + tally rstN ins src .overridden n +
      tally rstN ins src .refused n + tally rstN ins src .forwarded n := by
  simp only [offered, tally]
  induction n with
  | zero => rfl
  | succ n ih =>
    simp only [Nat.count_succ, ih]
    rcases @fate_cases rstN ins src n with ⟨hf, hv⟩ | ⟨hf, hv, _⟩ | ⟨hf, hv, _⟩ | ⟨hf, ⟨hv, _⟩, _⟩ |
      ⟨hf, ⟨hv, _⟩, _⟩ <;> simp [hf, hv] <;> omega

theorem tally_host_overridden (n : ℕ) : tally rstN ins .host .overridden n = 0 := by
  apply Nat.count_of_forall_not
  intro u _ h
  cases (overridden_of_fate h).1

theorem overridden_le (n : ℕ) :
    tally rstN ins .rx .overridden n ≤ offered ins .host (n + 1) := by
  rw [offered, Nat.count_succ']
  apply (Nat.count_mono_left ?_).trans (Nat.le_add_right _ _)
  intro u _ h
  exact (overridden_of_fate h).2

theorem one_port {f g : Fate} (hf : f = .forwarded ∨ f = .refused)
    (hg : g = .forwarded ∨ g = .refused) {u : ℕ} (h : fate rstN ins .host (u + 1) = some f)
    (h' : fate rstN ins .rx u = some g) : False := by
  have hreach : Reaches rstN ins .host (u + 1) := by
    rcases hf with rfl | rfl
    · exact (fate_forwarded.mp h).1
    · exact (fate_refused.mp h).1
  have hreach' : Reaches rstN ins .rx u := by
    rcases hg with rfl | rfl
    · exact (fate_forwarded.mp h').1
    · exact (fate_refused.mp h').1
  cases reaches_unique hreach hreach' rfl

theorem sch2txAt_valid {t : ℕ} : (sch2txAt rstN ins t).valid = true ↔
    ∃ src u, t = u + src.latency + 1 ∧ fate rstN ins src u = some .forwarded := by
  constructor
  · intro hv
    obtain ⟨src, u, ht, hf, _⟩ := sch2txAt_beat.mp (beat_eq_some.mpr ⟨hv, rfl, rfl⟩)
    exact ⟨src, u, ht, hf⟩
  · rintro ⟨src, u, ht, hf⟩
    have hb := beat_eq_some.mpr ⟨(fate_forwarded.mp hf).1.1, rfl, rfl⟩
    exact valid_of_beat (sch2txAt_beat.mpr ⟨src, u, ht, hf, hb⟩)

theorem sch2txAt_valid_one :
    (sch2txAt rstN ins 1).valid = true ↔ fate rstN ins .host 0 = some .forwarded := by
  rw [sch2txAt_valid]
  constructor
  · rintro ⟨src, u, ht, hf⟩
    cases src with
    | host =>
      obtain rfl : 0 = u := Nat.succ_inj.mp ht
      exact hf
    | rx => cases ht
  · intro hf
    exact ⟨.host, 0, rfl, hf⟩

theorem sch2txAt_valid_two (n : ℕ) : (sch2txAt rstN ins (n + 2)).valid = true ↔
    fate rstN ins .host (n + 1) = some .forwarded ∨ fate rstN ins .rx n = some .forwarded := by
  rw [sch2txAt_valid]
  constructor
  · rintro ⟨src, u, ht, hf⟩
    cases src with
    | host =>
      obtain rfl : n + 1 = u := Nat.succ_inj.mp ht
      exact Or.inl hf
    | rx =>
      obtain rfl : n = u := Nat.succ_inj.mp (Nat.succ_inj.mp ht)
      exact Or.inr hf
  · rintro (hf | hf)
    · exact ⟨.host, n + 1, rfl, hf⟩
    · exact ⟨.rx, n, rfl, hf⟩

theorem emittedBefore_eq (n : ℕ) : emittedBefore rstN ins (n + 2) =
    tally rstN ins .host .forwarded (n + 1) + tally rstN ins .rx .forwarded n := by
  simp only [emittedBefore, tally]
  induction n with
  | zero =>
    have hzero : ¬ (sch2txAt rstN ins 0).valid = true := by
      rw [sch2txAt_valid]
      rintro ⟨src, u, ht, _⟩
      omega
    simp only [Nat.count_succ, Nat.count_zero, if_neg hzero, sch2txAt_valid_one]
    omega
  | succ n ih =>
    have hone := @one_port rstN ins .forwarded .forwarded (Or.inl rfl) (Or.inl rfl) n
    have hhost := Nat.count_succ (fun u => fate rstN ins .host u = some .forwarded) (n + 1)
    have hrx := Nat.count_succ (fun u => fate rstN ins .rx u = some .forwarded) n
    rw [Nat.count_succ, ih, hhost, hrx]
    simp only [sch2txAt_valid_two]
    by_cases hh : fate rstN ins .host (n + 1) = some .forwarded
    · have hr : ¬ fate rstN ins .rx n = some .forwarded := hone hh
      simp only [hh, hr, true_or, if_true, if_false]
      omega
    · by_cases hr : fate rstN ins .rx n = some .forwarded
      · simp only [hh, hr, or_true, if_true, if_false]
        omega
      · simp only [hh, hr, or_self, if_false]
        omega

/-- The beat ahead of a refused one comes out when that one is refused, and is a last one. -/
theorem last_of_refused {src : Source} {u : ℕ} (h : fate rstN ins src u = some .refused) :
    LastOut rstN ins (u + src.latency) := by
  obtain ⟨_, src', u', hu', hf, hl⟩ := refused_iff.mp h
  have hb := beat_eq_some.mpr ⟨(fate_forwarded.mp hf).1.1, rfl, hl⟩
  have hout := beat_eq_some.mp (sch2txAt_beat.mpr ⟨src', u', hu'.symm, hf, hb⟩)
  exact ⟨hout.1, hout.2.2⟩

theorem refused_le (n : ℕ) :
    tally rstN ins .host .refused (n + 1) + tally rstN ins .rx .refused n ≤
      Nat.count (LastOut rstN ins) (n + 1) := by
  simp only [tally]
  induction n with
  | zero =>
    rw [Nat.count_zero, Nat.add_zero]
    exact Nat.count_mono_left fun u _ h => last_of_refused h
  | succ n ih =>
    have hone := @one_port rstN ins .refused .refused (Or.inr rfl) (Or.inr rfl) n
    have hhost := Nat.count_succ (fun u => fate rstN ins .host u = some .refused) (n + 1)
    have hrx := Nat.count_succ (fun u => fate rstN ins .rx u = some .refused) n
    rw [hhost, hrx, Nat.count_succ (LastOut rstN ins) (n + 1)]
    by_cases hh : fate rstN ins .host (n + 1) = some .refused
    · have hr : ¬ fate rstN ins .rx n = some .refused := hone hh
      have hl : LastOut rstN ins (n + 1) := last_of_refused hh
      rw [if_pos hh, if_neg hr, if_pos hl]
      omega
    · by_cases hr : fate rstN ins .rx n = some .refused
      · have hl : LastOut rstN ins (n + 1) := last_of_refused hr
        rw [if_neg hh, if_pos hr, if_pos hl]
        omega
      · rw [if_neg hh, if_neg hr]
        omega

/-- The beats offered to the two ports are those the scheduler outputs, those refused, at
most one for each last beat output, those overridden, at most one for each beat of the host,
and those dropped by resets. -/
theorem beat_ledger (rstN : ℕ → Bool) (ins : ℕ → TopIn) (n : ℕ) :
    offered ins .host (n + 1) + offered ins .rx n = emittedBefore rstN ins (n + 2) +
      (tally rstN ins .host .refused (n + 1) + tally rstN ins .rx .refused n) +
      tally rstN ins .rx .overridden n +
      (tally rstN ins .host .reset (n + 1) + tally rstN ins .rx .reset n) ∧
    tally rstN ins .host .refused (n + 1) + tally rstN ins .rx .refused n ≤
      Nat.count (LastOut rstN ins) (n + 1) ∧
    tally rstN ins .rx .overridden n ≤ offered ins .host (n + 1) := by
  refine ⟨?_, refused_le n, overridden_le n⟩
  have hhost := @offered_eq rstN ins .host (n + 1)
  have hrx := @offered_eq rstN ins .rx n
  have hemit := @emittedBefore_eq rstN ins n
  have hnone := @tally_host_overridden rstN ins (n + 1)
  omega

end Counts

end IngressFate
