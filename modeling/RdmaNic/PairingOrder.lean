import RdmaNic.ScoreboardEpochs

/-! # The pairing under either order of the monitor threads

When every tx packet is complete only after its rx packet, the order in which the two
threads are resumed at an edge shows nowhere in the scoreboard at the end of that edge. -/
namespace PairingOrder
open InOrderChecker PortSignals StreamPairing UvmBase RdmaMonitor RdmaScb RdmaEnv
open ScoreboardEpochs

section Counts
variable (vif : ℕ → RdmaIf) (n : ℕ)

theorem length_published (port : RdmaIf → PortCycle) :
    (collect (fun t => (vif t).rstN) (fun t => port (vif t)) n).published.length =
      Nat.count (Completes vif port) n := by
  rw [published_values, length_valuesBefore]
  exact count_shown (fun _ => onPosedge_isSome _ _ _) n

theorem length_rxPackets : (rxPackets vif n).length = Nat.count (Completes vif RdmaIf.rx) n :=
  length_published vif n RdmaIf.rx

theorem length_txPackets : (txPackets vif n).length = Nat.count (Completes vif RdmaIf.tx) n :=
  length_published vif n RdmaIf.tx

/-- At no cycle are more tx packets complete than rx packets were before it. -/
def Causal : Prop := ∀ t < n,
  Nat.count (Completes vif RdmaIf.tx) (t + 1) ≤ Nat.count (Completes vif RdmaIf.rx) t

end Counts

instance (vif : ℕ → RdmaIf) (n : ℕ) : Decidable (Causal vif n) :=
  inferInstanceAs (Decidable (∀ t < n, _ ≤ _))

variable {vif : ℕ → RdmaIf} {n : ℕ}

/-- The latency covers both orders. -/
theorem Causal.not_overrun (h : Causal vif n) (o : Order) : ∀ t < n,
    ¬ Overrun o (fun m => (rxPackets vif m).length) (fun m => (txPackets vif m).length) t := by
  intro t ht
  have hle := h t ht
  rw [← length_rxPackets, ← length_txPackets] at hle
  cases o with
  | rxFirst =>
    have hmono : (rxPackets vif t).length ≤ (rxPackets vif (t + 1)).length := by
      rw [rxPackets_succ, List.length_append]
      exact Nat.le_add_right _ _
    exact Nat.not_lt.mpr (hle.trans hmono)
  | txFirst => exact Nat.not_lt.mpr hle

theorem Causal.covered (h : Causal vif n) (order : ℕ → Order) :
    Covered (callsBefore order vif n) :=
  (covered_callsBefore order vif n).mpr fun t ht => h.not_overrun (order t) t ht

/-- The packets of the two ports are paired position by position, and the rx packets with
no partner yet wait in order. -/
structure PairedInOrder (vif : ℕ → RdmaIf) (n : ℕ) (c : Checker RdmaTxn RdmaTxn) : Prop where
  compared : c.paired.length = (framedTxns (fun u => (vif u).tx) n).length
  partner : ∀ (k : ℕ) (a : RdmaTxn), (framedTxns (fun u => (vif u).tx) n)[k]? = some a →
    ∃ r e : RdmaTxn, (framedTxns (fun u => (vif u).rx) n)[k]? = some r ∧
      c.paired[k]? = some (a, e) ∧ e.beats = r.beats ∧ e.dataQ = r.dataQ
  waiting : c.pending = (framedTxns (fun u => (vif u).rx) n).drop
    (framedTxns (fun u => (vif u).tx) n).length

theorem observed_framed (order : ℕ → Order) (hr : ∀ t < n, (vif t).rstN = true) :
    observed (callsBefore order vif n) = framedTxns (fun u => (vif u).tx) n := by
  rw [observed_callsBefore, txPackets_eq hr]

theorem expected_framed (order : ℕ → Order) (hr : ∀ t < n, (vif t).rstN = true) :
    expected (callsBefore order vif n) = framedTxns (fun u => (vif u).rx) n := by
  rw [expected_callsBefore, rxPackets_eq hr]
  exact List.map_id _

def framedPairs (vif : ℕ → RdmaIf) (n : ℕ) : Checker RdmaTxn RdmaTxn where
  pending := (framedTxns (fun u => (vif u).rx) n).drop (framedTxns (fun u => (vif u).tx) n).length
  paired := (framedTxns (fun u => (vif u).tx) n).zip (framedTxns (fun u => (vif u).rx) n)

theorem Causal.run_calls (h : Causal vif n) (order : ℕ → Order)
    (hr : ∀ t < n, (vif t).rstN = true) :
    run (callsBefore order vif n) = some (framedPairs vif n) := by
  apply run_eq_some_iff.mpr
  refine ⟨h.covered order, ?_⟩
  rw [matched, observed_framed order hr, expected_framed order hr]
  rfl

theorem Causal.framedPairs_inOrder (h : Causal vif n) (hr : ∀ t < n, (vif t).rstN = true) :
    PairedInOrder vif n (framedPairs vif n) := by
  have hle := (h.covered fun _ => .rxFirst).observed_le
  rw [observed_framed _ hr, expected_framed _ hr] at hle
  refine ⟨?_, ?_, rfl⟩
  · rw [framedPairs, List.length_zip, Nat.min_eq_left hle]
  · intro k a ha
    have hk := (List.getElem?_eq_some_iff.mp ha).1.trans_le hle
    have hrx := List.getElem?_eq_getElem hk
    exact ⟨_, _, hrx, List.getElem?_zip_eq_some.mpr ⟨ha, hrx⟩, rfl, rfl⟩

/-- After any of its calls the queue holds the packets predicted so far less those
compared so far. -/
theorem Causal.queue_midway (h : Causal vif n) (compare : RdmaTxn → RdmaTxn → Bool)
    {order : ℕ → Order} (hr : ∀ t < n, (vif t).rstN = true) {pre : List ScbCall}
    (hpre : pre <+: callsBefore order vif n) :
    ∃ s, scbRun compare pre = .ok s ∧
      s.expQ = ((framedTxns (fun u => (vif u).rx) n).take (expected pre).length).drop
        (observed pre).length := by
  have hrun := run_eq_some_iff.mpr ⟨(h.covered order).mono hpre, rfl⟩
  refine ⟨shows compare (matched pre), ?_, ?_⟩
  · rw [scbRun_eq, hrun]
    rfl
  · rw [← expected_framed order hr]
    exact matched_prefix hpre

/-- However the threads are ordered at each edge, the run has no fatal report and leads to
the same pairs and the same packets waiting. -/
theorem pairing_any_order (compare : RdmaTxn → RdmaTxn → Bool) (vif : ℕ → RdmaIf) (n : ℕ)
    (hr : ∀ t < n, (vif t).rstN = true) (hc : Causal vif n) :
    ∃ c, PairedInOrder vif n c ∧ ∀ order : ℕ → Order,
      run (callsBefore order vif n) = some c ∧
      envRun compare order vif n =
        .ok ⟨(collectRx vif n).t, (collectTx vif n).t, shows compare c⟩ ∧
      ∀ pre, pre <+: callsBefore order vif n → ∃ s, scbRun compare pre = .ok s ∧
        s.expQ = ((framedTxns (fun u => (vif u).rx) n).take (expected pre).length).drop
          (observed pre).length := by
  refine ⟨framedPairs vif n, hc.framedPairs_inOrder hr, ?_⟩
  intro order
  refine ⟨hc.run_calls order hr, ?_, fun pre hpre => hc.queue_midway compare hr hpre⟩
  rw [envRun_calls, scbRun_eq, hc.run_calls order hr]
  rfl

def echoed (t : ℕ) : RdmaIf where
  rstN := true
  rx := ⟨t < 4, .ofNat 64 t, 1 ≤ t⟩
  tx := ⟨t == 1 || t == 2 || t == 4, if t = 1 then 0 else if t = 2 then 1 else 2, t != 1⟩

theorem echoed_any_order : ∃ c, PairedInOrder echoed 5 c ∧ ∀ order : ℕ → Order,
    run (callsBefore order echoed 5) = some c ∧
    envRun (uvmCompare rdmaTxnClass) order echoed 5 =
      .ok ⟨(collectRx echoed 5).t, (collectTx echoed 5).t, shows (uvmCompare rdmaTxnClass) c⟩ ∧
    ∀ pre, pre <+: callsBefore order echoed 5 →
      ∃ s, scbRun (uvmCompare rdmaTxnClass) pre = .ok s ∧
        s.expQ = ((framedTxns (fun u => (echoed u).rx) 5).take (expected pre).length).drop
          (observed pre).length :=
  pairing_any_order (uvmCompare rdmaTxnClass) echoed 5 (fun _ _ => rfl) (by decide)

end PairingOrder
