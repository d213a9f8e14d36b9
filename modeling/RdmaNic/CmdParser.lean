import RdmaNic.ClockedMachine
import RdmaNic.DelayedEvents
import RdmaNic.PortSignals

/-! # The command parser `cmd_parser` and the driver of its port

A command is picked in `IDLE`, its fields are read one cycle later and `cmd_done`
pulses three cycles after the pick. `cmd_ready` is written by the reset branch only. -/
namespace CmdParser
open ClockedMachine DelayedEvents PortSignals

inductive FsmState where
  | idle
  | parse
  | done
  deriving DecidableEq, Repr

structure State where
  state : FsmState
  cmdReady : Bool
  opcode : BitVec 8
  addr : BitVec 56
  data : BitVec 128
  cmdDone : Bool
  deriving DecidableEq, Repr

def nextState (state : FsmState) (cmdValid : Bool) : FsmState :=
  match state with
  | .idle => if cmdValid then .parse else .idle
  | .parse => .done
  | .done => .idle

def cmdParser : Machine State CmdCycle where
  initial := ⟨.idle, true, 0, 0, 0, false⟩
  next s cmd :=
    match s.state with
    | .idle => { s with state := nextState s.state cmd.valid, cmdDone := false }
    | .parse =>
      { s with
        state := nextState s.state cmd.valid
        cmdDone := false
        opcode := cmd.data.extractLsb' 248 8
        addr := cmd.data.extractLsb' 192 56
        data := cmd.data.extractLsb' 0 128 }
    | .done => { s with state := nextState s.state cmd.valid, cmdDone := true }

@[ext] structure Fields where
  opcode : BitVec 8
  addr : BitVec 56
  data : BitVec 128
  deriving DecidableEq, Repr

def State.fields (s : State) : Fields := ⟨s.opcode, s.addr, s.data⟩

def fieldsOf (cmdData : BitVec 256) : Fields :=
  ⟨cmdData.extractLsb' 248 8, cmdData.extractLsb' 192 56, cmdData.extractLsb' 0 128⟩

section Runs
variable (cmds : ℕ → CmdCycle)

def Pick (t : ℕ) : Prop :=
  (cmdParser.runHigh cmds t).state = .idle ∧ (cmds t).valid = true

def CmdDone (t : ℕ) : Prop := (cmdParser.runHigh cmds t).cmdDone = true

def Transfer (t : ℕ) : Prop :=
  (cmds t).valid = true ∧ (cmdParser.runHigh cmds t).cmdReady = true

instance : DecidablePred (Pick cmds) := fun _ => inferInstanceAs (Decidable (_ ∧ _))
instance : DecidablePred (CmdDone cmds) := fun _ => inferInstanceAs (Decidable (_ = _))
instance : DecidablePred (Transfer cmds) := fun _ => inferInstanceAs (Decidable (_ ∧ _))

theorem next_state (s : State) (cmd : CmdCycle) :
    (cmdParser.next s cmd).state = nextState s.state cmd.valid := by
  obtain ⟨fsm, _⟩ := s
  cases fsm <;> rfl

theorem next_cmdDone (s : State) (cmd : CmdCycle) :
    (cmdParser.next s cmd).cmdDone = true ↔ s.state = .done := by
  obtain ⟨fsm, _⟩ := s
  cases fsm <;> simp [cmdParser]

theorem next_fields (s : State) (cmd : CmdCycle) : (cmdParser.next s cmd).fields =
    if s.state = .parse then fieldsOf cmd.data else s.fields := by
  obtain ⟨fsm, _⟩ := s
  cases fsm <;> rfl

theorem run_parse_iff (t : ℕ) :
    (cmdParser.runHigh cmds (t + 1)).state = .parse ↔ Pick cmds t := by
  rw [runHigh_succ, next_state, Pick]
  cases (cmdParser.runHigh cmds t).state <;> by_cases hv : (cmds t).valid = true <;>
    simp [nextState, hv]

theorem run_done_iff (t : ℕ) : (cmdParser.runHigh cmds (t + 1)).state = .done ↔
    (cmdParser.runHigh cmds t).state = .parse := by
  rw [runHigh_succ, next_state]
  cases (cmdParser.runHigh cmds t).state <;> by_cases hv : (cmds t).valid = true <;>
    simp [nextState, hv]

theorem run_cmdDone_iff (t : ℕ) :
    CmdDone cmds (t + 1) ↔ (cmdParser.runHigh cmds t).state = .done :=
  next_cmdDone _ _

theorem parse_follows :
    Follows 1 (Pick cmds) (fun t => (cmdParser.runHigh cmds t).state = .parse) :=
  follows_one (by simp [cmdParser]) (run_parse_iff cmds)

theorem done_follows :
    Follows 2 (Pick cmds) (fun t => (cmdParser.runHigh cmds t).state = .done) :=
  (parse_follows cmds).trans (follows_one (by simp [cmdParser]) (run_done_iff cmds))

/-- Each pick gives one pulse, three cycles later, and there is no other pulse. -/
theorem cmdDone_follows : Follows 3 (Pick cmds) (CmdDone cmds) :=
  (done_follows cmds).trans (follows_one (by simp [CmdDone, cmdParser]) (run_cmdDone_iff cmds))

theorem picks_spaced : Spaced 3 (Pick cmds) := by
  intro t u ht hu htu
  have hp := ((parse_follows cmds).at t).mpr ht
  have hd := ((done_follows cmds).at t).mpr ht
  by_contra hlt
  obtain rfl | rfl : u = t + 1 ∨ u = t + 2 := by omega
  · rw [hu.1] at hp; cases hp
  · rw [hu.1] at hd; cases hd

/-- When the pulse shows, the fields are those on the bus in the cycle after the pick. -/
theorem fields_at_pulse {t : ℕ} (ht : Pick cmds t) :
    (cmdParser.runHigh cmds (t + 3)).fields = fieldsOf (cmds (t + 1)).data := by
  have hp := ((parse_follows cmds).at t).mpr ht
  have hd := ((done_follows cmds).at t).mpr ht
  rw [runHigh_succ, next_fields, hd, if_neg (by decide), runHigh_succ, next_fields, if_pos hp]

theorem data_at_pulse {t : ℕ} (ht : Pick cmds t) :
    (cmdParser.runHigh cmds (t + 3)).data = (cmds (t + 1)).data.extractLsb' 0 128 :=
  congrArg Fields.data (fields_at_pulse cmds ht)

/-- The handshake output never leaves its reset value. -/
theorem ready_always (t : ℕ) : (cmdParser.runHigh cmds t).cmdReady = true := by
  refine run_invariant cmdParser (fun s => s.cmdReady = true) rfl ?_ _ cmds t
  intro s cmd hs
  obtain ⟨fsm, _⟩ := s
  cases fsm <;> exact hs

theorem transfer_iff (t : ℕ) : Transfer cmds t ↔ (cmds t).valid = true := by
  simp [Transfer, ready_always]

def SpacedBefore (n : ℕ) : Prop :=
  ∀ t u, (cmds t).valid = true → (cmds u).valid = true → t < u → u < n → t + 3 ≤ u

theorem picked_iff_spaced (n : ℕ) :
    (∀ t < n, (cmds t).valid = true → Pick cmds t) ↔ SpacedBefore cmds n := by
  constructor
  · intro h t u ht hu htu hun
    exact picks_spaced cmds t u (h t (by omega) ht) (h u hun hu) htu
  · intro h t ht hv
    refine ⟨?_, hv⟩
    cases hs : (cmdParser.runHigh cmds t).state with
    | idle => rfl
    | parse =>
      obtain ⟨p, rfl, hp⟩ := (parse_follows cmds t).mp hs
      have := h p _ hp.2 hv (by omega) ht
      omega
    | done =>
      obtain ⟨p, rfl, hp⟩ := (done_follows cmds t).mp hs
      have := h p _ hp.2 hv (by omega) ht
      omega

def HandshakeLossless (n : ℕ) : Prop :=
  Nat.count (CmdDone cmds) n = Nat.count (Transfer cmds) n

theorem lossless_iff_spaced {n m : ℕ} (hq : ∀ t, n ≤ t → t < m → (cmds t).valid = false)
    (hm : n + 4 ≤ m) : HandshakeLossless cmds m ↔ SpacedBefore cmds m := by
  have hcount : Nat.count (CmdDone cmds) m = Nat.count (Pick cmds) m := by
    rw [(cmdDone_follows cmds).count]
    obtain ⟨k, rfl⟩ : ∃ k, m = k + 3 := ⟨m - 3, by omega⟩
    rw [Nat.add_sub_cancel, Nat.count_add]
    have hz : Nat.count (fun i => Pick cmds (k + i)) 3 = 0 := by
      refine Nat.count_iff_forall_not.mpr ?_
      intro i hi hp
      have := hq (k + i) (by omega) (by omega)
      rw [hp.2] at this
      cases this
    rw [hz, Nat.add_zero]
  have himp : ∀ t, Pick cmds t → Transfer cmds t := fun t h => (transfer_iff cmds t).mpr h.2
  rw [HandshakeLossless, hcount, count_eq_iff_of_imp himp, ← picked_iff_spaced]
  simp only [transfer_iff]

end Runs

/-- `cmd_driver.drive_one` on the bus: valid for a cycle, then low with the data held. -/
def driveOne (pkt : BitVec 256) : List CmdCycle := [⟨true, pkt⟩, ⟨false, pkt⟩]

def drivenBus (lead : ℕ) (pkts : List (BitVec 256)) (t : ℕ) : CmdCycle :=
  if t < lead then ⟨false, 0⟩
  else (pkts.flatMap driveOne)[t - lead]?.getD ⟨false, pkts.getLast?.getD 0⟩

theorem driven_valid_iff (pkts : List (BitVec 256)) (last : BitVec 256) (i : ℕ) :
    ((pkts.flatMap driveOne)[i]?.getD ⟨false, last⟩).valid = true ↔
      ∃ k < pkts.length, i = 2 * k := by
  induction pkts generalizing i with
  | nil => simp
  | cons pkt pkts ih =>
    match i with
    | 0 => exact ⟨fun _ => ⟨0, by simp, rfl⟩, fun _ => rfl⟩
    | 1 =>
      constructor
      · intro h; cases h
      · intro h
        rcases h with ⟨k, _, hk⟩
        omega
    | i + 2 =>
      refine (ih i).trans ⟨?_, ?_⟩
      · intro h
        rcases h with ⟨k, hk, rfl⟩
        exact ⟨k + 1, Nat.succ_lt_succ hk, by omega⟩
      · intro h
        rcases h with ⟨k, hk, hi⟩
        rw [List.length_cons] at hk
        exact ⟨k - 1, by omega, by omega⟩

theorem drivenBus_valid_iff (lead : ℕ) (pkts : List (BitVec 256)) (t : ℕ) :
    (drivenBus lead pkts t).valid = true ↔ ∃ k < pkts.length, t = lead + 2 * k := by
  simp only [drivenBus]
  by_cases ht : t < lead
  · rw [if_pos ht]
    constructor
    · intro h; cases h
    · intro h
      rcases h with ⟨k, _, hk⟩
      omega
  · rw [if_neg ht, driven_valid_iff]
    constructor
    · intro h
      rcases h with ⟨k, hk, hi⟩
      exact ⟨k, hk, by omega⟩
    · intro h
      rcases h with ⟨k, hk, hi⟩
      exact ⟨k, hk, by omega⟩

theorem driven_quiet {lead : ℕ} {pkts : List (BitVec 256)} {t : ℕ}
    (ht : lead + 2 * pkts.length ≤ t) : (drivenBus lead pkts t).valid = false := by
  rw [← Bool.not_eq_true, drivenBus_valid_iff]
  intro h
  rcases h with ⟨k, hk, rfl⟩
  omega

theorem driven_spaced_iff {lead n : ℕ} {pkts : List (BitVec 256)}
    (hn : lead + 2 * pkts.length ≤ n) :
    SpacedBefore (drivenBus lead pkts) n ↔ pkts.length ≤ 1 := by
  constructor
  · intro h
    by_contra hlen
    have := h lead (lead + 2) ((drivenBus_valid_iff _ _ _).mpr ⟨0, by omega, rfl⟩)
      ((drivenBus_valid_iff _ _ _).mpr ⟨1, by omega, rfl⟩) (by omega) (by omega)
    omega
  · intro hlen t u ht hu htu _
    obtain ⟨k, hk, rfl⟩ := (drivenBus_valid_iff _ _ _).mp ht
    obtain ⟨j, hj, rfl⟩ := (drivenBus_valid_iff _ _ _).mp hu
    omega

/-- Every handshake gives a pulse exactly when the commands are three cycles apart;
the driver's own back-to-back stream meets that only with at most one command. -/
theorem handshake_lossless_iff_spaced (cmds : ℕ → CmdCycle) (n m : ℕ)
    (hq : ∀ t, n ≤ t → t < m → (cmds t).valid = false) (hm : n + 4 ≤ m)
    (lead : ℕ) (pkts : List (BitVec 256)) :
    (HandshakeLossless cmds m ↔ SpacedBefore cmds m) ∧
    (HandshakeLossless (drivenBus lead pkts) (lead + 2 * pkts.length + 4) ↔ pkts.length ≤ 1) := by
  refine ⟨lossless_iff_spaced cmds hq hm, ?_⟩
  rw [lossless_iff_spaced (drivenBus lead pkts) (n := lead + 2 * pkts.length)
    (fun t ht _ => driven_quiet ht) le_rfl, driven_spaced_iff (by omega)]

def closeCommands (t : ℕ) : CmdCycle := ⟨t == 0 || t == 3 || t == 5, BitVec.ofNat 256 t⟩

theorem close_commands_lossless_iff :
    (HandshakeLossless closeCommands 10 ↔ SpacedBefore closeCommands 10) ∧
    (HandshakeLossless (drivenBus 3 [7, 9]) 11 ↔ ([7, 9] : List (BitVec 256)).length ≤ 1) :=
  handshake_lossless_iff_spaced closeCommands 6 10 (by simp [closeCommands]; omega) (by decide)
    3 [7, 9]

/-- The ten commands of `cmd_seq` make ten handshakes and five pulses. -/
theorem cmd_seq_loses_commands :
    Nat.count (Transfer (drivenBus 1 (List.replicate 10 0))) 25 = 10 ∧
    Nat.count (CmdDone (drivenBus 1 (List.replicate 10 0))) 25 = 5 ∧
    ¬ ∀ lead pkts, HandshakeLossless (drivenBus lead pkts) (lead + 2 * pkts.length + 4) := by
  have ht : Nat.count (Transfer (drivenBus 1 (List.replicate 10 0))) 25 = 10 := by decide +kernel
  have hd : Nat.count (CmdDone (drivenBus 1 (List.replicate 10 0))) 25 = 5 := by decide +kernel
  refine ⟨ht, hd, ?_⟩
  intro h
  have hl := h 1 (List.replicate 10 0)
  rw [HandshakeLossless] at hl
  rw [List.length_replicate, ht, hd] at hl
  cases hl

end CmdParser
