import RdmaNic.CommandServer
import RdmaNic.PairingOrder

/-! # The environment around `rdma_top`, with resets at any time

The tx port carries one-beat packets, one for each command the parser accepted four cycles
before, and the comparison sees no content. So the verdict is one on two counts. -/
namespace DutInLoop
open ClockedMachine DelayedEvents PacketFraming PortSignals StreamPairing UvmBase RdmaTop
  TxOrigin CommandServer RdmaMonitor RdmaScb RdmaEnv ScoreboardEpochs PairingOrder

section Runs
variable (rstN : ℕ → Bool) (ins : ℕ → TopIn)

/-- What the monitor samples of `rdma_top`. -/
def dutSampled (t : ℕ) : RdmaIf := ⟨rstN t, (ins t).rx, (topAt rstN ins t).tx.port⟩

def SentAt (t : ℕ) : Prop := (topAt rstN ins t).tx.port.valid = true

instance : DecidablePred (SentAt rstN ins) := fun _ => inferInstanceAs (Decidable (_ = _))

variable {rstN ins}

theorem sentAt_iff {t : ℕ} : SentAt rstN ins t ↔
    ∃ p, t = p + 4 ∧ AcceptedAt rstN ins p ∧ ∀ k ≤ 4, rstN (p + k) = true := by
  constructor
  · intro hv
    obtain ⟨p, ht, ⟨hk, hidle, hcmd⟩, _⟩ := tx_beat_iff.mp (beat_eq_some.mpr ⟨hv, rfl, rfl⟩)
    exact ⟨p, ht, ⟨hk 0 (Nat.zero_le 4), hidle, hcmd⟩, hk⟩
  · rintro ⟨p, ht, ⟨_, hidle, hcmd⟩, hk⟩
    have hb := tx_beat_iff.mpr ⟨p, ht, ⟨hk, hidle, hcmd⟩, rfl⟩
    exact (beat_eq_some.mp hb).1

theorem last_of_sent {t : ℕ} (h : SentAt rstN ins t) :
    (topAt rstN ins t).tx.port.last = true := by
  obtain ⟨_, _, _, hb⟩ := tx_beat_iff.mp (beat_eq_some.mpr ⟨h, rfl, rfl⟩)
  exact congrArg Prod.snd hb

theorem high_of_sent {t : ℕ} (h : SentAt rstN ins t) : rstN t = true := by
  obtain ⟨p, rfl, _, hk⟩ := sentAt_iff.mp h
  exact hk 4 le_rfl

theorem completes_tx_iff {t : ℕ} :
    Completes (dutSampled rstN ins) RdmaIf.tx t ↔ SentAt rstN ins t := by
  constructor
  · intro h
    exact h.2.1
  · intro h
    exact ⟨high_of_sent h, h, last_of_sent h⟩

theorem count_sent (n : ℕ) : Nat.count (Completes (dutSampled rstN ins) RdmaIf.tx) n =
    Nat.count (SentAt rstN ins) n :=
  le_antisymm (Nat.count_mono_left fun _ _ => completes_tx_iff.mp)
    (Nat.count_mono_left fun _ _ => completes_tx_iff.mpr)

theorem collectTx_closed (n : ℕ) : (collectTx (dutSampled rstN ins) n).t = .create := by
  induction n with
  | zero => rfl
  | succ n ih =>
    change (onPosedge (collectTx (dutSampled rstN ins) n).t (rstN n)
      (topAt rstN ins n).tx.port).1 = .create
    rw [ih]
    by_cases hr : rstN n = true
    · by_cases hv : (topAt rstN ins n).tx.port.valid = true
      · simp [onPosedge, hr, hv, last_of_sent hv]
      · simp [onPosedge, hr, hv]
    · simp [onPosedge, hr]

theorem length_sent (n : ℕ) :
    (txPackets (dutSampled rstN ins) n).length = Nat.count (SentAt rstN ins) n :=
  (length_txPackets _ n).trans (count_sent n)

end Runs

theorem blind_verdicts {compare : RdmaTxn → RdmaTxn → Bool} (h : ComparesAs rdmaTxnClass compare)
    (ps : List (RdmaTxn × RdmaTxn)) :
    ps.map (verdict compare) = List.replicate ps.length txMatch := by
  rw [← List.map_const']
  apply List.map_congr_left
  intro p _
  rw [verdict, compare_blind h, if_pos rfl]

def oneOfEach (t : ℕ) : TopIn := ⟨quiet, ⟨t == 0, 5, true⟩, ⟨t == 1, 9⟩⟩

theorem no_sent {rstN : ℕ → Bool} {ins : ℕ → TopIn} {n : ℕ}
    (hcmd : ∀ t < n, (ins t).cmd.valid = false) : ∀ t < n, ¬ SentAt rstN ins t := by
  intro t ht h
  obtain ⟨p, rfl, ⟨_, _, hv⟩, _⟩ := sentAt_iff.mp h
  rw [hcmd p (by omega)] at hv
  cases hv

theorem silent {rstN : ℕ → Bool} {ins : ℕ → TopIn} {n m : ℕ}
    (hcmd : ∀ t < n, (ins t).cmd.valid = false) (hm : m ≤ n) :
    txPackets (dutSampled rstN ins) m = [] := by
  apply List.eq_nil_of_length_eq_zero
  rw [length_sent]
  exact Nat.count_of_forall_not fun t ht => no_sent hcmd t (ht.trans_le hm)

theorem envRun_silent {compare : RdmaTxn → RdmaTxn → Bool} {order : ℕ → Order}
    {vif : ℕ → RdmaIf} {n : ℕ} (h : ∀ m ≤ n, txPackets vif m = []) :
    envRun compare order vif n =
      .ok ⟨(collectRx vif n).t, (collectTx vif n).t, ⟨rxPackets vif n, []⟩⟩ := by
  apply (envRun_ok_iff compare order vif n _).mpr
  refine ⟨?_, rfl, rfl, ?_, ?_⟩
  · intro t ht
    cases order t with
    | rxFirst => simp [Overrun, h (t + 1) ht]
    | txFirst => simp [Overrun, h (t + 1) ht]
  · rw [h n le_rfl]
    exact (List.map_id'' rmWrite_eq _).symm
  · rw [h n le_rfl]
    rfl

/-- With the command nets low nothing the ports carry makes a run fail: no packet is ever
compared, whatever the comparison, and all that was received still waits at the end. -/
theorem silent_run_passes (compare : RdmaTxn → RdmaTxn → Bool) (order : ℕ → Order)
    (rstN : ℕ → Bool) (ins : ℕ → TopIn) (n : ℕ) (hcmd : ∀ t < n, (ins t).cmd.valid = false) :
    envRun compare order (dutSampled rstN ins) n =
      .ok ⟨(collectRx (dutSampled rstN ins) n).t, .create,
        ⟨rxPackets (dutSampled rstN ins) n, []⟩⟩ := by
  have hrun := @envRun_silent compare order (dutSampled rstN ins) n fun m hm => silent hcmd hm
  rwa [collectTx_closed] at hrun

theorem busy_ports_pass :
    envRun (fun _ _ => false) (fun _ => .txFirst)
      (dutSampled lateReset fun _ => ⟨⟨true, 1, true⟩, ⟨true, 2, true⟩, ⟨false, 0⟩⟩) 3 =
        .ok ⟨.create, .create, ⟨[⟨1, [2]⟩, ⟨1, [2]⟩, ⟨1, [2]⟩], []⟩⟩ :=
  silent_run_passes _ _ _ _ 3 fun _ _ => rfl

end DutInLoop
