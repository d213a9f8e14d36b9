import RdmaNic.CommandPath
import RdmaNic.SchedPackets

/-! # What can reach the tx port and the completion output

Resets may come in any cycle. Both outputs depend on the command nets alone, so a tx beat
agrees with the scheduler's only where the traffic happens to match the command. -/
namespace TxOrigin
open ClockedMachine PortSignals CmdParser RdmaTop CommandPath SchedPackets

structure TopOut where
  tx : PortCycle
  compValid : Bool
  deriving DecidableEq, Repr

section Runs
variable (rstN : ℕ → Bool) (ins : ℕ → TopIn)

def topAt (t : ℕ) : TopState := rdmaTop.sampled rstN ins t

def outputs (t : ℕ) : TopOut := ⟨(topAt rstN ins t).tx.port, (topAt rstN ins t).compValid⟩

def sch2txAt (t : ℕ) : PortCycle := (topAt rstN ins t).sched.out

end Runs

def SameCommandSide (s s' : TopState) : Prop :=
  s.parser = s'.parser ∧ s.tx = s'.tx ∧ s.compValid = s'.compValid

theorem next_sameCommandSide {s s' : TopState} {i i' : TopIn} (h : SameCommandSide s s')
    (hcmd : i.cmd = i'.cmd) : SameCommandSide (rdmaTop.next s i) (rdmaTop.next s' i') := by
  obtain ⟨hparser, htx, hcomp⟩ := h
  have hin : txIn s = txIn s' := by rw [txIn, txIn, hparser]
  refine ⟨?_, ?_, ?_⟩
  · exact congrArg₂ cmdParser.next hparser hcmd
  · exact congrArg₂ rdmaTx.next htx hin
  · exact congrArg₂ rdmaCompletion.next hcomp (congrArg TxState.txDone htx)

/-- Runs with the same resets and commands show the same outputs, whatever their ports
carry. -/
theorem outputs_of_commands (rstN rstN' : ℕ → Bool) (ins ins' : ℕ → TopIn) (n : ℕ)
    (hr : ∀ t ≤ n, rstN t = rstN' t) (hcmd : ∀ t ≤ n, (ins t).cmd = (ins' t).cmd) :
    ∀ t ≤ n, outputs rstN ins t = outputs rstN' ins' t := by
  intro t ht
  have hsame : SameCommandSide (topAt rstN ins t) (topAt rstN' ins' t) := by
    apply sampled_related rdmaTop SameCommandSide (fun i i' => i.cmd = i'.cmd)
    · exact ⟨rfl, rfl, rfl⟩
    · intro s s' i i' hs hi
      exact next_sameCommandSide hs hi
    · intro u hu
      exact hr u (hu.trans ht)
    · intro u hu
      exact hcmd u (hu.le.trans ht)
  rw [outputs, outputs, hsame.2.1, hsame.2.2]

def oneCommand (host rx : PortCycle) (t : ℕ) : TopIn := ⟨host, rx, ⟨t == 1, 7⟩⟩

def quiet : PortCycle := ⟨false, 0, false⟩

def lateReset (t : ℕ) : Bool := t != 7

theorem busy_ports_not_seen :
    (outputs lateReset (oneCommand ⟨true, 1, true⟩ ⟨true, 2, false⟩) 5).tx = ⟨true, 7, true⟩ ∧
    ∀ t ≤ 9, outputs lateReset (oneCommand ⟨true, 1, true⟩ ⟨true, 2, false⟩) t =
      outputs lateReset (oneCommand quiet quiet) t :=
  ⟨by decide, outputs_of_commands _ _ _ _ 9 (fun _ _ => rfl) (fun _ _ => rfl)⟩

section Beats
variable {rstN : ℕ → Bool} {ins : ℕ → TopIn}

variable (rstN ins) in
/-- The parser, out of reset for the cycles its command takes, picks a command up. -/
def PickedAt (p : ℕ) : Prop :=
  (∀ k ≤ 4, rstN (p + k) = true) ∧ (topAt rstN ins p).parser.state = .idle ∧
    (ins p).cmd.valid = true

theorem epoch_tx {s k : ℕ} (hs : EpochStart rstN s) (hk : ∀ j ≤ k, rstN (s + j) = true) :
    (topAt rstN ins (s + k)).tx.port = txPort (fun t => ins (s + t)) k :=
  congrArg (fun s => s.tx.port) (sampled_epoch rdmaTop hs hk)

theorem pickedAt_epoch {s q : ℕ} (hs : EpochStart rstN s)
    (hk : ∀ j ≤ q + 4, rstN (s + j) = true) :
    PickedAt rstN ins (s + q) ↔ Pick (cmdBus (fun t => ins (s + t))) q := by
  have hstate : topAt rstN ins (s + q) = rdmaTop.runHigh (fun t => ins (s + t)) q :=
    sampled_epoch rdmaTop hs fun j hj => hk j (by omega)
  have hpick : Pick (cmdBus (fun t => ins (s + t))) q ↔
      (topAt rstN ins (s + q)).parser.state = .idle ∧ (ins (s + q)).cmd.valid = true := by
    rw [hstate, run_cmdParser]
    exact Iff.rfl
  rw [hpick, PickedAt]
  apply and_iff_right
  intro k hk4
  rw [Nat.add_assoc]
  exact hk (q + k) (by omega)

/-- The tx beats are those of the commands picked four cycles before, with no reset since. -/
theorem tx_beat_iff {t : ℕ} {b : BitVec 64 × Bool} :
    (topAt rstN ins t).tx.port.beat = some b ↔
      ∃ p, t = p + 4 ∧ PickedAt rstN ins p ∧
        b = ((ins (p + 1)).cmd.data.extractLsb' 0 64, true) := by
  constructor
  · intro h
    have hr : rstN t = true := by
      by_contra hr
      rw [topAt, Machine.sampled, if_neg hr] at h
      cases h
    obtain ⟨s, k, hs, rfl, hk⟩ := exists_epoch hr
    rw [epoch_tx hs hk] at h
    obtain ⟨d, l⟩ := b
    obtain ⟨hv, rfl, rfl⟩ := beat_eq_some.mp h
    obtain ⟨q, rfl, hq⟩ := (tx_follows _ k).mp hv
    obtain ⟨hl, hd⟩ := tx_beat_at _ hq
    refine ⟨s + q, rfl, (pickedAt_epoch hs hk).mpr hq, ?_⟩
    rw [hl, hd]
    rfl
  · intro h
    rcases h with ⟨p, rfl, hp, rfl⟩
    obtain ⟨s, k, hs, heq, hk⟩ := exists_epoch (hp.1 4 le_rfl)
    obtain ⟨q, rfl⟩ := Nat.exists_eq_add_of_le (epoch_start_le hs hp.1 heq.symm)
    obtain rfl : k = q + 4 := by omega
    have hq := (pickedAt_epoch hs hk).mp hp
    obtain ⟨hl, hd⟩ := tx_beat_at _ hq
    rw [heq, epoch_tx hs hk]
    exact beat_eq_some.mpr ⟨(tx_follows _ _).mpr ⟨q, rfl, hq⟩, hd, hl⟩

variable (rstN ins) in
/-- The scheduler's input, from the ports: the host's beat, else the rx beat of the cycle
before unless a reset has dropped it. -/
def muxAt : ℕ → PortCycle
  | 0 => arb (ins 0).host rdmaRx.initial
  | t + 1 => arb (ins (t + 1)).host (if rstN t && rstN (t + 1) then (ins t).rx else rdmaRx.initial)

theorem qp2sch_at (t : ℕ) : qp2sch (topAt rstN ins t) (ins t) = muxAt rstN ins t := by
  have hrx : (topAt rstN ins t).rx = rdmaRx.sampled rstN (fun u => (ins u).rx) t :=
    sampled_component rdmaTop rdmaRx TopState.rx (fun _ i => i.rx) rfl (fun _ _ => rfl) rstN ins t
  rw [qp2sch, hrx]
  cases t with
  | zero => simp only [sampled_zero, muxAt, qpContext]
  | succ t => simp only [sampled_succ, muxAt, qpContext, rdmaRx]

theorem sch2tx_beat {t : ℕ} (ht : rstN t = true) (hs : rstN (t + 1) = true) :
    (sch2txAt rstN ins (t + 1)).beat =
      if taken rstN (muxAt rstN ins) t then (muxAt rstN ins t).beat else none := by
  have hsched : (topAt rstN ins (t + 1)).sched =
      RdmaSched.rdmaSched.sampled rstN (fun u => qp2sch (topAt rstN ins u) (ins u)) (t + 1) :=
    sampled_component rdmaTop RdmaSched.rdmaSched TopState.sched qp2sch rfl (fun _ _ => rfl) rstN
      ins (t + 1)
  simp only [qp2sch_at] at hsched
  rw [sch2txAt, hsched, sampled_out ht hs]

/-- Every tx beat was the scheduler's output of the cycle before exactly when each picked
command finds its own beat taken by the scheduler two cycles after the pick. -/
theorem tx_scheduled_iff (rstN : ℕ → Bool) (ins : ℕ → TopIn) (n : ℕ) :
    (∀ t ≤ n, ∀ b, (topAt rstN ins t).tx.port.beat = some b →
      ∃ u, t = u + 1 ∧ (sch2txAt rstN ins u).beat = some b) ↔
    ∀ p, p + 4 ≤ n → PickedAt rstN ins p → taken rstN (muxAt rstN ins) (p + 2) = true ∧
      (muxAt rstN ins (p + 2)).beat = some ((ins (p + 1)).cmd.data.extractLsb' 0 64, true) := by
  have hsched : ∀ p, PickedAt rstN ins p → ∀ b, (sch2txAt rstN ins (p + 3)).beat = some b ↔
      taken rstN (muxAt rstN ins) (p + 2) = true ∧ (muxAt rstN ins (p + 2)).beat = some b := by
    intro p hp b
    rw [sch2tx_beat (hp.1 2 (by decide)) (hp.1 3 (by decide)), Option.ite_none_right_eq_some]
  constructor
  · intro h p hpn hp
    obtain ⟨u, hu, hb⟩ := h (p + 4) hpn _ (tx_beat_iff.mpr ⟨p, rfl, hp, rfl⟩)
    obtain rfl : p + 3 = u := by omega
    exact (hsched p hp _).mp hb
  · intro h t ht b hb
    obtain ⟨p, rfl, hp, rfl⟩ := tx_beat_iff.mp hb
    exact ⟨p + 3, rfl, (hsched p hp _).mpr (h p ht hp)⟩

theorem unscheduled_beat :
    (topAt (fun _ => true) (oneCommand quiet quiet) 5).tx.port.beat = some (7, true) ∧
    (∀ u ≤ 5, (sch2txAt (fun _ => true) (oneCommand quiet quiet) u).beat = none) ∧
    ¬ ∀ t ≤ 5, ∀ b,
      (topAt (fun _ => true) (oneCommand quiet quiet) t).tx.port.beat = some b →
        ∃ u, t = u + 1 ∧ (sch2txAt (fun _ => true) (oneCommand quiet quiet) u).beat = some b := by
  have htx : (topAt (fun _ => true) (oneCommand quiet quiet) 5).tx.port.beat = some (7, true) := by
    decide
  have hsch : ∀ u ≤ 5, (sch2txAt (fun _ => true) (oneCommand quiet quiet) u).beat = none := by
    decide
  refine ⟨htx, hsch, ?_⟩
  intro h
  obtain ⟨u, hu, hb⟩ := h 5 le_rfl _ htx
  simp only [hsch u (by omega), reduceCtorEq] at hb

end Beats

end TxOrigin
