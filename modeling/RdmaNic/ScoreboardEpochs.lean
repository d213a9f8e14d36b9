import RdmaNic.RdmaEnv
import RdmaNic.StreamPairing

/-! # Which cycles a comparison of the scoreboard joins

Every transaction carries the cycle of its last beat through the queue, which does not look
at it. A reset drops the open packets of both threads and leaves the queue as it is. -/
namespace ScoreboardEpochs
open InOrderChecker PacketFraming StreamPairing PortSignals UvmBase RdmaMonitor RdmaScb RdmaEnv

abbrev StampedCall := Call (ℕ × RdmaTxn) (ℕ × RdmaTxn)

section Runs
variable (order : ℕ → Order) (vif : ℕ → RdmaIf)

def stampedCalls : ℕ → List StampedCall
  | 0 => []
  | n + 1 => stampedCalls n ++
      (edgeCalls (order n) (rxPublished vif n) (txPublished vif n)).map (Call.map (n, ·) (n, ·))

theorem stampedCalls_forget (n : ℕ) :
    (stampedCalls order vif n).map (Call.map Prod.snd Prod.snd) = callsBefore order vif n := by
  induction n with
  | zero => rfl
  | succ n ih =>
    rw [stampedCalls, List.map_append, ih, List.map_map, callsBefore]
    congr 1
    apply List.map_id''
    intro c
    cases c <;> rfl

def Completes (port : RdmaIf → PortCycle) (t : ℕ) : Prop :=
  (vif t).rstN = true ∧ (port (vif t)).valid = true ∧ (port (vif t)).last = true

instance (port : RdmaIf → PortCycle) : DecidablePred (Completes vif port) :=
  fun _ => inferInstanceAs (Decidable (_ ∧ _ ∧ _))

theorem onPosedge_isSome (t : RdmaTxn) (rstN : Bool) (c : PortCycle) :
    (onPosedge t rstN c).2.isSome = true ↔
      rstN = true ∧ c.valid = true ∧ c.last = true := by
  by_cases hr : rstN = true <;> by_cases hv : c.valid = true <;> by_cases hl : c.last = true <;>
    simp [onPosedge, hr, hv, hl]

theorem rx_shown (t : ℕ) : Shown (rxPublished vif) t ↔ Completes vif RdmaIf.rx t :=
  onPosedge_isSome _ _ _

theorem tx_shown (t : ℕ) : Shown (txPublished vif) t ↔ Completes vif RdmaIf.tx t :=
  onPosedge_isSome _ _ _

theorem observed_stamped (n : ℕ) :
    observed (stampedCalls order vif n) = eventsBefore (txPublished vif) n := by
  induction n with
  | zero => rfl
  | succ n ih =>
    have hedge : observed (edgeCalls (order n) (rxPublished vif n) (txPublished vif n)) =
        (txPublished vif n).toList := observed_edgeCalls [] _ _ _
    rw [stampedCalls, observed_append, ih, observed_map, hedge, eventsBefore_succ]
    cases txPublished vif n <;> rfl

theorem expected_stamped (n : ℕ) : expected (stampedCalls order vif n) =
    eventsBefore (fun t => (rxPublished vif t).map rmWrite) n := by
  induction n with
  | zero => rfl
  | succ n ih =>
    have hedge : expected (edgeCalls (order n) (rxPublished vif n) (txPublished vif n)) =
        (rxPublished vif n).toList.map rmWrite := expected_edgeCalls [] _ _ _
    rw [stampedCalls, expected_append, ih, expected_map, hedge, eventsBefore_succ]
    cases rxPublished vif n <;> rfl

theorem paired_stamped {c : Checker (ℕ × RdmaTxn) (ℕ × RdmaTxn)} {n : ℕ}
    (hc : run (stampedCalls order vif n) = some c) : c.paired =
      paired (txPublished vif) (fun t => (rxPublished vif t).map rmWrite) n := by
  rw [(run_eq_some_iff.mp hc).2, matched, observed_stamped, expected_stamped]
  rfl

theorem prediction_shown (t : ℕ) : Shown (fun t => (rxPublished vif t).map rmWrite) t ↔
    Completes vif RdmaIf.rx t := by
  rw [Shown, Option.isSome_map]
  exact rx_shown vif t

theorem txPublished_in_reset {r : ℕ} (hr : (vif r).rstN = false) : txPublished vif r = none := by
  rw [txPublished, hr]
  rfl

end Runs

/-- The comparisons of a run that ends with no fatal report join no packets across a reset
exactly when, at each reset after which a packet is sent, no received packet waits. -/
theorem epochs_separated_iff (compare : RdmaTxn → RdmaTxn → Bool) (order : ℕ → Order)
    (vif : ℕ → RdmaIf) (n : ℕ) (e : Env) (hrun : envRun compare order vif n = .ok e) :
    ∃ c, run (stampedCalls order vif n) = some c ∧
      e.scb = shows compare (c.map Prod.snd Prod.snd) ∧
      ((∀ p ∈ c.paired, ∀ r, p.2.1 < r → r < p.1.1 → ¬ (vif r).rstN = false) ↔
        ∀ r < n, (vif r).rstN = false → (∃ u < n, r < u ∧ Completes vif RdmaIf.tx u) →
          Nat.count (Completes vif RdmaIf.rx) r ≤ Nat.count (Completes vif RdmaIf.tx) r) := by
  rw [envRun_calls, scbRun_eq, ← stampedCalls_forget, run_map] at hrun
  cases hc : run (stampedCalls order vif n) with
  | none =>
    rw [hc] at hrun
    cases hrun
  | some c =>
    rw [hc] at hrun
    cases hrun
    refine ⟨c, rfl, rfl, ?_⟩
    have h := paired_within_iff (txPublished vif) (fun t => (rxPublished vif t).map rmWrite) n
      (fun r => (vif r).rstN = false) (fun r hr => txPublished_in_reset vif hr)
    simp only [tx_shown, count_shown (tx_shown vif), count_shown (prediction_shown vif)] at h
    rw [paired_stamped order vif hc]
    exact h

def resetBetween (t : ℕ) : RdmaIf where
  rstN := t != 1
  rx := ⟨t == 0 || t == 2, if t == 0 then 5 else 6, true⟩
  tx := ⟨t == 4, 6, true⟩

theorem reset_between_run :
    envRun (uvmCompare rdmaTxnClass) (fun _ => .rxFirst) resetBetween 5 =
      .ok ⟨.create, .create, ⟨[⟨1, [6]⟩], [txMatch]⟩⟩ := by decide

theorem reset_between_separated_iff :
    ∃ c, run (stampedCalls (fun _ => .rxFirst) resetBetween 5) = some c ∧
      (⟨[⟨1, [6]⟩], [txMatch]⟩ : Scb) =
        shows (uvmCompare rdmaTxnClass) (c.map Prod.snd Prod.snd) ∧
      ((∀ p ∈ c.paired, ∀ r, p.2.1 < r → r < p.1.1 → ¬ (resetBetween r).rstN = false) ↔
        ∀ r < 5, (resetBetween r).rstN = false →
          (∃ u < 5, r < u ∧ Completes resetBetween RdmaIf.tx u) →
          Nat.count (Completes resetBetween RdmaIf.rx) r ≤
            Nat.count (Completes resetBetween RdmaIf.tx) r) :=
  epochs_separated_iff _ _ _ 5 _ reset_between_run

theorem stale_prediction_compared :
    run (stampedCalls (fun _ => .rxFirst) resetBetween 5) =
      some ⟨[(2, ⟨1, [6]⟩)], [((4, ⟨1, [6]⟩), (0, ⟨1, [5]⟩))]⟩ ∧
    (resetBetween 1).rstN = false ∧
    ¬ ∀ c, run (stampedCalls (fun _ => .rxFirst) resetBetween 5) = some c →
      ∀ p ∈ c.paired, ∀ r, p.2.1 < r → r < p.1.1 → ¬ (resetBetween r).rstN = false := by
  have hrun : run (stampedCalls (fun _ => .rxFirst) resetBetween 5) =
      some ⟨[(2, ⟨1, [6]⟩)], [((4, ⟨1, [6]⟩), (0, ⟨1, [5]⟩))]⟩ := by decide
  refine ⟨hrun, rfl, ?_⟩
  intro h
  exact h _ hrun _ List.mem_cons_self 1 (by decide) (by decide) rfl

end ScoreboardEpochs
