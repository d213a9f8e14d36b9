import RdmaNic.ClockedMachine
import RdmaNic.PortSignals

/-! # The scheduler `rdma_sched`

One registered stage with a three-state machine. In `S_DONE` the input is not read,
so the cycle after an accepted last beat loses whatever beat it carries. -/
namespace RdmaSched
open ClockedMachine PacketFraming PortSignals

/-- The four values of `reg [1:0] state`; the last is the `default` branch. -/
inductive FsmState where
  | sIdle
  | sForward
  | sDone
  | unused
  deriving DecidableEq, Repr

structure State where
  state : FsmState
  schedOutValid : Bool
  schedOutData : BitVec 64
  schedOutLast : Bool
  deriving DecidableEq, Repr

def rdmaSched : Machine State PortCycle where
  initial := ⟨.sIdle, false, 0, false⟩
  next s schedIn :=
    match s.state with
    | .sIdle =>
      if schedIn.valid then
        ⟨if schedIn.last then .sDone else .sForward, true, schedIn.data, schedIn.last⟩
      else { s with schedOutValid := false }
    | .sForward =>
      if schedIn.valid then
        ⟨if schedIn.last then .sDone else .sForward, true, schedIn.data, schedIn.last⟩
      else { s with schedOutValid := false }
    | .sDone => { s with schedOutValid := false, state := .sIdle }
    | .unused => { s with schedOutValid := false, state := .sIdle }

def State.out (s : State) : PortCycle := ⟨s.schedOutValid, s.schedOutData, s.schedOutLast⟩

def schedOut (ins : ℕ → PortCycle) (t : ℕ) : PortCycle := (rdmaSched.runHigh ins t).out

def Accepts (s : State) (i : PortCycle) : Prop :=
  i.valid = true ∧ (s.state = .sIdle ∨ s.state = .sForward)

instance (s : State) (i : PortCycle) : Decidable (Accepts s i) :=
  inferInstanceAs (Decidable (_ ∧ (_ ∨ _)))

theorem next_beat (s : State) (i : PortCycle) :
    (rdmaSched.next s i).out.beat = if Accepts s i then i.beat else none := by
  obtain ⟨fsm, v, d, l⟩ := s
  cases fsm <;> by_cases hv : i.valid = true <;>
    simp [rdmaSched, State.out, Accepts, PortCycle.beat, hv]

theorem next_done_iff (s : State) (i : PortCycle) :
    (rdmaSched.next s i).state = .sDone ↔ Accepts s i ∧ i.last = true := by
  obtain ⟨fsm, v, d, l⟩ := s
  cases fsm <;> by_cases hv : i.valid = true <;> by_cases hl : i.last = true <;>
    simp [rdmaSched, Accepts, hv, hl]

theorem next_state_used (s : State) (i : PortCycle) (hs : s.state ≠ .unused) :
    (rdmaSched.next s i).state ≠ .unused := by
  obtain ⟨fsm, v, d, l⟩ := s
  cases fsm <;> by_cases hv : i.valid = true <;> by_cases hl : i.last = true <;>
    simp_all [rdmaSched]

theorem accepts_of_used {s : State} {i : PortCycle} (hs : s.state ≠ .unused) :
    Accepts s i ↔ i.valid = true ∧ s.state ≠ .sDone := by
  simp only [Accepts]
  cases h : s.state <;> simp_all

section Runs
variable {ins : ℕ → PortCycle}

theorem accepts_iff (t : ℕ) : Accepts (rdmaSched.runHigh ins t) (ins t) ↔
    (ins t).valid = true ∧ (rdmaSched.runHigh ins t).state ≠ .sDone :=
  accepts_of_used (run_invariant rdmaSched _ (by decide) next_state_used _ ins t)

theorem schedOut_zero : (schedOut ins 0).beat = none := rfl

theorem schedOut_succ (t : ℕ) : (schedOut ins (t + 1)).beat =
    if Accepts (rdmaSched.runHigh ins t) (ins t) then (ins t).beat else none :=
  next_beat _ _

/-- `S_DONE` is exactly the cycle after an accepted last beat. -/
theorem run_done_iff (t : ℕ) : (rdmaSched.runHigh ins (t + 1)).state = .sDone ↔
    Accepts (rdmaSched.runHigh ins t) (ins t) ∧ (ins t).last = true :=
  next_done_iff _ _

theorem schedOut_of_accepts {t : ℕ}
    (h : (ins t).valid = true → Accepts (rdmaSched.runHigh ins t) (ins t)) :
    (schedOut ins (t + 1)).beat = (ins t).beat := by
  rw [schedOut_succ]
  by_cases hv : (ins t).valid = true
  · rw [if_pos (h hv)]
  · have hn : (ins t).beat = none := beat_eq_none.mpr (by simpa using hv)
    rw [hn, ite_self]

/-- No beat comes in the cycle after a last beat, among the first `n` cycles. -/
def GapAfterLast (ins : ℕ → PortCycle) (n : ℕ) : Prop :=
  ∀ t, t + 1 < n → (ins t).valid = true → (ins t).last = true → (ins (t + 1)).valid = false

def GapAfterAccepted (ins : ℕ → PortCycle) (n : ℕ) : Prop :=
  ∀ t, t + 1 < n → Accepts (rdmaSched.runHigh ins t) (ins t) → (ins t).last = true →
    (ins (t + 1)).valid = false

instance (n : ℕ) : Decidable (GapAfterAccepted ins n) :=
  decidable_of_iff (∀ t < n - 1, Accepts (rdmaSched.runHigh ins t) (ins t) →
      (ins t).last = true → (ins (t + 1)).valid = false)
    (forall_congr' fun t => imp_congr (by omega) Iff.rfl)

theorem accepted_gap_of_gap {n : ℕ} (h : GapAfterLast ins n) : GapAfterAccepted ins n :=
  fun t ht ha => h t ht ha.1

theorem forwarded_of_gap {n : ℕ} (h : GapAfterAccepted ins n) {t : ℕ} (ht : t < n) :
    (schedOut ins (t + 1)).beat = (ins t).beat := by
  refine schedOut_of_accepts fun hv => (accepts_iff t).mpr ⟨hv, ?_⟩
  cases t with
  | zero => simp [rdmaSched]
  | succ t =>
    intro hd
    obtain ⟨ha, hl⟩ := (run_done_iff t).mp hd
    rw [h t ht ha hl] at hv
    cases hv

theorem gap_of_forwarded {n : ℕ}
    (h : ∀ t < n, (schedOut ins (t + 1)).beat = (ins t).beat) : GapAfterLast ins n := by
  intro t ht hv hl
  have ha : Accepts (rdmaSched.runHigh ins t) (ins t) := by
    by_contra hna
    have hb := h t (by omega)
    rw [schedOut_succ, if_neg hna] at hb
    rw [beat_eq_none.mp hb.symm] at hv
    cases hv
  have hd := (run_done_iff t).mpr ⟨ha, hl⟩
  have hna : ¬ Accepts (rdmaSched.runHigh ins (t + 1)) (ins (t + 1)) :=
    fun hacc => ((accepts_iff (t + 1)).mp hacc).2 hd
  have hb := h (t + 1) ht
  rw [schedOut_succ, if_neg hna] at hb
  exact beat_eq_none.mp hb.symm

theorem forwarded_iff_gap (n : ℕ) :
    (∀ t < n, (schedOut ins (t + 1)).beat = (ins t).beat) ↔ GapAfterLast ins n :=
  ⟨gap_of_forwarded, fun h _ ht => forwarded_of_gap (accepted_gap_of_gap h) ht⟩

end Runs

/-- The output is the input one cycle later exactly on streams that leave a gap. -/
theorem sched_lossless_iff_gap (ins : ℕ → PortCycle) (n : ℕ) :
    (beatsBefore (schedOut ins) (n + 1) = beatsBefore ins n ↔ GapAfterLast ins n) ∧
    ((∀ t < n, (schedOut ins (t + 1)).beat = (ins t).beat) ↔ GapAfterLast ins n) := by
  refine ⟨?_, forwarded_iff_gap n⟩
  rw [← forwarded_iff_gap]
  refine valuesBefore_delay_iff schedOut_zero ?_
  intro t _
  rw [schedOut_succ]
  by_cases ha : Accepts (rdmaSched.runHigh ins t) (ins t)
  · exact Or.inr (if_pos ha)
  · exact Or.inl (if_neg ha)

def fixedSeqBeats (t : ℕ) : PortCycle :=
  match t with
  | 0 => ⟨true, 0x1000, false⟩
  | 1 => ⟨true, 0x1001, false⟩
  | 2 => ⟨true, 0x1002, false⟩
  | 3 => ⟨true, 0x1003, true⟩
  | 4 => ⟨true, 0x2000, false⟩
  | 5 => ⟨true, 0x2001, true⟩
  | _ => ⟨false, 0, false⟩

theorem fixed_seq_loses_a_beat :
    beatsBefore fixedSeqBeats 6 = [(0x1000, false), (0x1001, false), (0x1002, false),
      (0x1003, true), (0x2000, false), (0x2001, true)] ∧
    beatsBefore (schedOut fixedSeqBeats) 7 = [(0x1000, false), (0x1001, false), (0x1002, false),
      (0x1003, true), (0x2001, true)] ∧
    ¬ ∀ ins n, beatsBefore (schedOut ins) (n + 1) = beatsBefore ins n := by
  refine ⟨by decide, by decide, ?_⟩
  intro h
  exact absurd (h fixedSeqBeats 6) (by decide)

end RdmaSched
