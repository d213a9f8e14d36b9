import RdmaNic.DutInLoop

/-! # The monitor `rdma_complete_monitor` of the completion output

While its `main_phase` is open it writes an item at every edge. An item that says valid
follows, one edge later, the packet of one beat that the tx thread of `rdma_monitor` has
published. Nothing here objects to the end of that phase, and an unheld one ends at time 0. -/
namespace RdmaCompleteMonitor
open DelayedEvents PortSignals RdmaTop TxOrigin JobServer CommandServer RdmaMonitor DutInLoop

structure RdmaCompleteSeqItem where
  compValid : Bool
  deriving DecidableEq, Repr

def collectTransaction (compValid : Bool) : RdmaCompleteSeqItem := ⟨compValid⟩

/-- The items written to `ap` before cycle `n` by the loop of a `main_phase` that is held open
for the edges before `ends`. -/
def mainPhase (ends : ℕ) (monCb : ℕ → Bool) : ℕ → List RdmaCompleteSeqItem
  | 0 => []
  | n + 1 =>
    if n < ends then mainPhase ends monCb n ++ [collectTransaction (monCb n)]
    else mainPhase ends monCb n

theorem mainPhase_eq (ends : ℕ) (monCb : ℕ → Bool) (n : ℕ) :
    mainPhase ends monCb n = (List.range (min n ends)).map fun t => ⟨monCb t⟩ := by
  induction n with
  | zero => rw [Nat.zero_min]; rfl
  | succ n ih =>
    rw [mainPhase, ih]
    by_cases hn : n < ends
    · rw [if_pos hn, min_eq_left hn.le, min_eq_left hn, List.range_succ, List.map_append]
      rfl
    · rw [if_neg hn, min_eq_right (Nat.le_of_not_lt hn),
        min_eq_right (Nat.le_succ_of_le (Nat.le_of_not_lt hn))]

theorem count_valid (monCb : ℕ → Bool) (n : ℕ) :
    (((List.range n).map fun t => (⟨monCb t⟩ : RdmaCompleteSeqItem)).filter
      RdmaCompleteSeqItem.compValid).length = Nat.count (fun t => monCb t = true) n := by
  induction n with
  | zero => rfl
  | succ n ih =>
    rw [List.range_succ, List.map_append, List.filter_append, List.length_append, ih,
      Nat.count_succ]
    cases hv : monCb n <;> simp [hv]

section Dut
variable (rstN : ℕ → Bool) (ins : ℕ → TopIn)

def written (ends n : ℕ) : List RdmaCompleteSeqItem :=
  mainPhase ends (fun t => (topAt rstN ins t).compValid) n

/-- A packet is sent and a reset keeps its completion from the edge after. -/
def CutOff (t : ℕ) : Prop := SentAt rstN ins t ∧ rstN (t + 1) = false

instance : DecidablePred (CutOff rstN ins) := fun _ => inferInstanceAs (Decidable (_ ∧ _))

variable {rstN ins}

theorem completedAt_succ (t : ℕ) :
    CompletedAt rstN ins (t + 1) ↔ SentAt rstN ins t ∧ rstN (t + 1) = true := by
  rw [completedAt_accepted, sentAt_iff]
  constructor
  · rintro ⟨p, hp, hacc, hk⟩
    obtain rfl : t = p + 4 := Nat.succ_inj.mp hp
    exact ⟨⟨p, rfl, hacc, fun k hk4 => hk k (Nat.le_succ_of_le hk4)⟩, hk 5 le_rfl⟩
  · rintro ⟨⟨p, rfl, hacc, hk⟩, hr⟩
    refine ⟨p, rfl, hacc, ?_⟩
    intro k hk5
    rcases Nat.le_succ_iff.mp hk5 with hk4 | rfl
    · exact hk k hk4
    · exact hr

theorem not_completed_zero : ¬ CompletedAt rstN ins 0 := by
  intro h
  obtain ⟨p, hp, _⟩ := (completedAt_accepted rstN ins).mp h
  omega

theorem count_completed_succ (n : ℕ) : Nat.count (CompletedAt rstN ins) (n + 1) +
    Nat.count (CutOff rstN ins) n = Nat.count (SentAt rstN ins) n := by
  induction n with
  | zero => simp [Nat.count_succ, not_completed_zero]
  | succ n ih =>
    rw [Nat.count_succ (CutOff rstN ins), Nat.count_succ (SentAt rstN ins), ← ih, Nat.count_succ]
    simp only [completedAt_succ, CutOff]
    by_cases hs : SentAt rstN ins n
    · by_cases hr : rstN (n + 1) = true
      · simp [hs, hr]
        omega
      · simp [hs, hr]
        omega
    · simp only [hs, false_and, if_false]
      omega

end Dut

/-- With resets anywhere and the phase held open for the edges before `ends`, one item is
written at each of these and none later. It says valid exactly when a command was accepted
five cycles before with no reset since, and the valid items are as many as the packets that
the tx thread has published up to the edge before, less those that a reset cut off. -/
theorem completions_follow_packets (rstN : ℕ → Bool) (ins : ℕ → TopIn) (ends n : ℕ) :
    (written rstN ins ends n).length = min n ends ∧
    (∀ t < min n ends, ∃ item, (written rstN ins ends n)[t]? = some item ∧
      (item.compValid = true ↔
        ∃ p, t = p + 5 ∧ AcceptedAt rstN ins p ∧ ∀ k ≤ 5, rstN (p + k) = true)) ∧
    (n < ends → ((written rstN ins ends (n + 1)).filter RdmaCompleteSeqItem.compValid).length +
      Nat.count (CutOff rstN ins) n = (txPackets (dutSampled rstN ins) n).length) := by
  refine ⟨?_, ?_, ?_⟩
  · rw [written, mainPhase_eq, List.length_map, List.length_range]
  · intro t ht
    refine ⟨⟨(topAt rstN ins t).compValid⟩, ?_, completedAt_accepted rstN ins⟩
    rw [written, mainPhase_eq, List.getElem?_map, List.getElem?_range ht, Option.map_some]
  · intro hn
    rw [written, mainPhase_eq, min_eq_left hn, count_valid, length_sent]
    exact count_completed_succ n

/-- As `rdma_test` leaves it, the phase writes nothing. -/
example (rstN : ℕ → Bool) (ins : ℕ → TopIn) (n : ℕ) : written rstN ins 0 n = [] := by
  rw [written, mainPhase_eq, Nat.min_zero]
  rfl

end RdmaCompleteMonitor
