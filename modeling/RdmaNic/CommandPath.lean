import RdmaNic.RdmaTop

/-! # The command path: parser, transmitter and completion

A pick at cycle `p` shows as a TX beat at `p + 4` and as a completion at `p + 5`.
Picks are three cycles apart, so at most two of them are in flight. -/
namespace CommandPath
open ClockedMachine DelayedEvents PortSignals CmdParser RdmaTop

section Runs
variable (ins : ℕ → TopIn)

def cmdBus (t : ℕ) : CmdCycle := (ins t).cmd

def TxValid (t : ℕ) : Prop := (txPort ins t).valid = true

instance : DecidablePred (TxValid ins) := fun _ => inferInstanceAs (Decidable (_ = _))

theorem txValid_succ (t : ℕ) : TxValid ins (t + 1) ↔ CmdDone (cmdBus ins) t := by
  have h := run_cmdParser ins t
  unfold CmdDone cmdBus
  rw [← h]
  rfl

theorem txDone_eq_txValid (t : ℕ) :
    (rdmaTop.runHigh ins t).tx.txDone = (txPort ins t).valid := by
  cases t with
  | zero => rfl
  | succ t =>
    rw [txPort, runHigh_succ]
    exact Bool.and_true _

theorem compValid_succ (t : ℕ) : CompValid ins (t + 1) ↔ TxValid ins t := by
  rw [TxValid, ← txDone_eq_txValid]
  rfl

theorem tx_follows : Follows 4 (Pick (cmdBus ins)) (TxValid ins) := by
  refine (cmdDone_follows (cmdBus ins)).trans (follows_one ?_ (txValid_succ ins))
  intro h
  cases h

theorem comp_follows : Follows 5 (Pick (cmdBus ins)) (CompValid ins) := by
  refine (tx_follows ins).trans (follows_one ?_ (compValid_succ ins))
  intro h
  cases h

/-- The 64-bit port keeps the low half of `{opcode, addr, data[63:0]}`. -/
theorem frame_low_half (a : BitVec 8) (b : BitVec 56) (c : BitVec 64) :
    (a ++ b ++ c).setWidth 64 = c := by
  apply BitVec.eq_of_getLsbD_eq
  intro i hi
  rw [BitVec.getLsbD_setWidth, BitVec.getLsbD_append, if_pos hi]
  simp [hi]

theorem tx_beat_at {p : ℕ} (hp : Pick (cmdBus ins) p) :
    (txPort ins (p + 4)).last = true ∧
    (txPort ins (p + 4)).data = (cmdBus ins (p + 1)).data.extractLsb' 0 64 := by
  refine ⟨rfl, ?_⟩
  have hdata := data_at_pulse (cmdBus ins) hp
  unfold cmdBus at hdata
  rw [← run_cmdParser ins] at hdata
  have htx : (txPort ins (p + 4)).data = (txIn (rdmaTop.runHigh ins (p + 3))).data := rfl
  rw [htx, txIn, frame_low_half, hdata]
  exact BitVec.extractLsb'_extractLsb'_of_le (by decide)

/-- Command, beat and completion correspond one to one, in order: a beat four cycles
and a completion five cycles after each pick, the beat with the data of its own pick. -/
theorem command_beat_completion :
    (∀ t, TxValid ins t ↔ ∃ p, t = p + 4 ∧ Pick (cmdBus ins) p) ∧
    (∀ t, CompValid ins t ↔ ∃ p, t = p + 5 ∧ Pick (cmdBus ins) p) ∧
    (∀ p, Pick (cmdBus ins) p → (txPort ins (p + 4)).last = true ∧
      (txPort ins (p + 4)).data = (cmdBus ins (p + 1)).data.extractLsb' 0 64) ∧
    (∀ k t, IsNth (TxValid ins) k t ↔ ∃ p, t = p + 4 ∧ IsNth (Pick (cmdBus ins)) k p) ∧
    (∀ k t, IsNth (CompValid ins) k t ↔ ∃ p, t = p + 5 ∧ IsNth (Pick (cmdBus ins)) k p) ∧
    (∀ n, Nat.count (CompValid ins) n ≤ Nat.count (TxValid ins) n ∧
      Nat.count (TxValid ins) n ≤ Nat.count (Pick (cmdBus ins)) n ∧
      Nat.count (Pick (cmdBus ins)) n ≤ Nat.count (CompValid ins) n + 2) := by
  have htx := tx_follows ins
  have hcomp := comp_follows ins
  refine ⟨htx, hcomp, fun _ => tx_beat_at ins, htx.isNth, hcomp.isNth, fun n => ?_⟩
  have hmono := Nat.count_monotone (Pick (cmdBus ins))
  rw [htx.count, hcomp.count]
  refine ⟨hmono (by omega), hmono (by omega), ?_⟩
  -- six cycles hold at most two picks
  exact (hmono (by omega)).trans ((picks_spaced (cmdBus ins)).count_windows (n - 5) 2)

end Runs

end CommandPath
