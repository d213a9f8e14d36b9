import RdmaNic.CommandPath
import RdmaNic.JobServer
import RdmaNic.TxOrigin

/-! # The command side of `rdma_top` as a server of commands

A command keeps the parser busy for three cycles and completes after five, so two may be in
flight, and a reset may come at any time. The registers of parser, transmitter and completion
say no more than the ages of the commands in flight and the words they carry. -/
namespace CommandServer
open ClockedMachine DeadTime JobServer PortSignals CmdParser RdmaTop CommandPath TxOrigin

def commandSpec : Spec CmdCycle (BitVec 64) where
  dead := 3
  latency := 5
  dead_pos := by decide
  latency_pos := by decide
  request := CmdCycle.valid
  word cmd := cmd.data.extractLsb' 0 64

/-- What the registers hold of the commands in flight. -/
structure Represents (s : TopState) (f : InFlight commandSpec) : Prop where
  parse : s.parser.state = .parse ↔ Has f 1
  done : s.parser.state = .done ↔ Has f 2
  pulse : s.parser.cmdDone = true ↔ Has f 3
  held : ∀ j ∈ f.jobs, j.age = 2 ∨ j.age = 3 → s.parser.data.extractLsb' 0 64 = j.word
  sending : s.tx.txValid = true ↔ Has f 4
  sent : ∀ j ∈ f.jobs, j.age = 4 → s.tx.port = ⟨true, j.word, true⟩
  txDone : s.tx.txDone = true ↔ Has f 4
  completing : s.compValid = true ↔ Has f 5

theorem ready_iff (f : InFlight commandSpec) : Ready f ↔ ¬ Has f 1 ∧ ¬ Has f 2 := by
  constructor
  · intro h
    constructor
    · rintro ⟨j, hj, hage⟩
      have hdead : 3 ≤ j.age := h j hj
      omega
    · rintro ⟨j, hj, hage⟩
      have hdead : 3 ≤ j.age := h j hj
      omega
  · intro h j hj
    have hpos := (f.aged j hj).1
    have hone : j.age ≠ 1 := fun hage => h.1 ⟨j, hj, hage⟩
    have htwo : j.age ≠ 2 := fun hage => h.2 ⟨j, hj, hage⟩
    change 3 ≤ j.age
    omega

theorem Represents.idle {s : TopState} {f : InFlight commandSpec} (h : Represents s f) :
    s.parser.state = .idle ↔ Ready f := by
  rw [ready_iff, ← h.parse, ← h.done]
  cases s.parser.state <;> simp

theorem Represents.takes {s : TopState} {f : InFlight commandSpec} (h : Represents s f)
    (cmd : CmdCycle) : s.parser.state = .idle ∧ cmd.valid = true ↔ Takes f cmd := by
  rw [h.idle, and_comm]
  rfl

theorem next_parse_iff (s : State) (cmd : CmdCycle) :
    (cmdParser.next s cmd).state = .parse ↔ s.state = .idle ∧ cmd.valid = true := by
  rw [next_state]
  cases s.state <;> by_cases hv : cmd.valid = true <;> simp [nextState, hv]

theorem next_done_iff (s : State) (cmd : CmdCycle) :
    (cmdParser.next s cmd).state = .done ↔ s.state = .parse := by
  rw [next_state]
  cases s.state <;> by_cases hv : cmd.valid = true <;> simp [nextState, hv]

theorem next_data (s : State) (cmd : CmdCycle) : (cmdParser.next s cmd).data =
    if s.state = .parse then cmd.data.extractLsb' 0 128 else s.data := by
  have h := congrArg Fields.data (next_fields s cmd)
  rw [apply_ite Fields.data] at h
  exact h

/-- The word is taken off the bus one cycle after the command and stays for two. -/
theorem held_next {s : TopState} {f : InFlight commandSpec} (h : Represents s f) (i : TopIn) :
    ∀ j ∈ ((server commandSpec).next f i.cmd).jobs, j.age = 2 ∨ j.age = 3 →
      (cmdParser.next s.parser i.cmd).data.extractLsb' 0 64 = j.word := by
  intro j hj hage
  rw [next_data]
  rcases hage with hage | hage
  · obtain ⟨j', hj', hone, rfl⟩ := grown_of_next hj Nat.one_pos hage
    rw [if_pos (h.parse.mpr ⟨j', hj', hone⟩)]
    simp only [grow, hone, if_true]
    exact BitVec.extractLsb'_extractLsb'_of_le (by decide)
  · obtain ⟨j', hj', htwo, rfl⟩ := grown_of_next hj Nat.two_pos hage
    have hdone := h.done.mpr ⟨j', hj', htwo⟩
    rw [hdone, if_neg (by decide), h.held j' hj' (Or.inl htwo)]
    simp [grow, htwo]

theorem sent_next {s : TopState} {f : InFlight commandSpec} (h : Represents s f) (i : TopIn) :
    ∀ j ∈ ((server commandSpec).next f i.cmd).jobs, j.age = 4 →
      (rdmaTx.next s.tx (txIn s)).port = ⟨true, j.word, true⟩ := by
  intro j hj hage
  obtain ⟨j', hj', hthree, rfl⟩ := grown_of_next hj (by decide : 0 < 3) hage
  have hpulse := h.pulse.mpr ⟨j', hj', hthree⟩
  have hheld := h.held j' hj' (Or.inr hthree)
  simp only [rdmaTx, TxState.port, txIn, frame_low_half, hpulse, hheld, grow, hthree]
  rfl

theorem represents_next (s : TopState) (f : InFlight commandSpec) (i : TopIn)
    (h : Represents s f) :
    Represents (rdmaTop.next s i) ((server commandSpec).next f i.cmd) where
  parse := by
    rw [has_one_next, ← h.takes]
    exact next_parse_iff _ _
  done := by
    rw [has_succ_next _ _ Nat.one_pos (by decide), ← h.parse]
    exact next_done_iff _ _
  pulse := by
    rw [has_succ_next _ _ Nat.two_pos (by decide), ← h.done]
    exact next_cmdDone _ _
  held := held_next h i
  sending := by
    rw [has_succ_next _ _ (by decide) (by decide), ← h.pulse]
    rfl
  sent := sent_next h i
  txDone := by
    rw [has_succ_next _ _ (by decide) (by decide), ← h.pulse]
    exact Bool.eq_iff_iff.mp (Bool.and_true _)
  completing := by
    rw [has_succ_next _ _ (by decide) (by decide), ← h.txDone]
    rfl

theorem rdmaTop_simulates :
    Simulates rdmaTop (server commandSpec) TopIn.cmd Represents where
  initial := by constructor <;> simp [rdmaTop, cmdParser, rdmaTx, rdmaCompletion, server, Has,
    InFlight.none]
  next := represents_next

section Runs
variable (rstN : ℕ → Bool) (ins : ℕ → TopIn)

def commandsAt (t : ℕ) : InFlight commandSpec :=
  flightAt commandSpec rstN (fun u => (ins u).cmd) t

/-- The parser, out of reset, is handed a command while it waits for one. -/
def AcceptedAt (t : ℕ) : Prop :=
  rstN t = true ∧ (topAt rstN ins t).parser.state = .idle ∧ (ins t).cmd.valid = true

def CompletedAt (t : ℕ) : Prop := (topAt rstN ins t).compValid = true

instance : DecidablePred (AcceptedAt rstN ins) := fun _ => inferInstanceAs (Decidable (_ ∧ _))
instance : DecidablePred (CompletedAt rstN ins) := fun _ => inferInstanceAs (Decidable (_ = _))

theorem represents_at (t : ℕ) : Represents (topAt rstN ins t) (commandsAt rstN ins t) :=
  rdmaTop_simulates.sampled rstN ins t

theorem acceptedAt_iff (t : ℕ) : AcceptedAt rstN ins t ↔
    TakenAt commandSpec rstN (fun u => (ins u).cmd) t :=
  and_congr_right fun _ => (represents_at rstN ins t).takes (ins t).cmd

theorem completedAt_iff (t : ℕ) : CompletedAt rstN ins t ↔
    DoneAt commandSpec rstN (fun u => (ins u).cmd) t :=
  (represents_at rstN ins t).completing

theorem count_accepted (n : ℕ) : Nat.count (AcceptedAt rstN ins) n =
    Nat.count (TakenAt commandSpec rstN fun u => (ins u).cmd) n :=
  le_antisymm (Nat.count_mono_left fun t _ => (acceptedAt_iff rstN ins t).mp)
    (Nat.count_mono_left fun t _ => (acceptedAt_iff rstN ins t).mpr)

theorem count_completed (n : ℕ) : Nat.count (CompletedAt rstN ins) n =
    Nat.count (DoneAt commandSpec rstN fun u => (ins u).cmd) n :=
  le_antisymm (Nat.count_mono_left fun t _ => (completedAt_iff rstN ins t).mp)
    (Nat.count_mono_left fun t _ => (completedAt_iff rstN ins t).mpr)

theorem Represents.beat {s : TopState} {f : InFlight commandSpec} (h : Represents s f)
    (b : BitVec 64 × Bool) :
    s.tx.port.beat = some b ↔ ∃ j ∈ f.jobs, j.age = 4 ∧ b = (j.word, true) := by
  obtain ⟨d, l⟩ := b
  constructor
  · intro hb
    have hvalid : s.tx.txValid = true := (beat_eq_some.mp hb).1
    obtain ⟨j, hj, hage⟩ := h.sending.mp hvalid
    rw [h.sent j hj hage] at hb
    exact ⟨j, hj, hage, (Option.some_inj.mp hb).symm⟩
  · rintro ⟨j, hj, hage, hb⟩
    rw [h.sent j hj hage, hb]
    rfl

/-- With resets anywhere, the registers stand for the commands in flight: the tx port shows
the one of age 4, the completion reports the one of age 5 and the parser takes another one
as soon as all are of age 3. -/
theorem commands_refined (t : ℕ) :
    Represents (topAt rstN ins t) (commandsAt rstN ins t) ∧
    (∀ b, (topAt rstN ins t).tx.port.beat = some b ↔
      ∃ j ∈ (commandsAt rstN ins t).jobs, j.age = 4 ∧ b = (j.word, true)) ∧
    ((topAt rstN ins t).compValid = true ↔ ∃ j ∈ (commandsAt rstN ins t).jobs, j.age = 5) ∧
    ((topAt rstN ins t).parser.state = .idle ↔ ∀ j ∈ (commandsAt rstN ins t).jobs, 3 ≤ j.age) := by
  have h := represents_at rstN ins t
  exact ⟨h, h.beat, h.completing, h.idle⟩

theorem commands_le_two (f : InFlight commandSpec) : f.jobs.length ≤ 2 := by
  have hload : f.jobs.length * 3 < 5 + 3 := load_lt f
  omega

theorem completedAt_accepted {t : ℕ} : CompletedAt rstN ins t ↔
    ∃ p, t = p + 5 ∧ AcceptedAt rstN ins p ∧ ∀ k ≤ 5, rstN (p + k) = true := by
  rw [completedAt_iff, doneAt_iff]
  simp only [acceptedAt_iff]
  rfl

/-- A command completes five cycles after it was accepted unless a reset comes before, and
of the commands accepted all have completed but two in flight and two for each reset. -/
theorem command_ledger (n : ℕ) :
    (∀ t, CompletedAt rstN ins t ↔
      ∃ p, t = p + 5 ∧ AcceptedAt rstN ins p ∧ ∀ k ≤ 5, rstN (p + k) = true) ∧
    Nat.count (CompletedAt rstN ins) n ≤ Nat.count (AcceptedAt rstN ins) n ∧
    Nat.count (AcceptedAt rstN ins) n ≤
      Nat.count (CompletedAt rstN ins) n + 2 + 2 * Nat.count (Falls rstN) n := by
  have hledger := @taken_ledger _ _ commandSpec rstN (fun u => (ins u).cmd) n
  have hdropped := @dropped_le _ _ commandSpec rstN (fun u => (ins u).cmd) 2 commands_le_two n
  have hload : load commandSpec rstN (fun u => (ins u).cmd) n ≤ 2 := commands_le_two _
  rw [← count_accepted, ← count_completed] at hledger
  refine ⟨fun _ => completedAt_accepted rstN ins, ?_, ?_⟩
  · omega
  · omega

def OfferedAt (t : ℕ) : Prop := rstN t = true ∧ (ins t).cmd.valid = true

instance : DecidablePred (OfferedAt rstN ins) := fun _ => inferInstanceAs (Decidable (_ ∧ _))

theorem accepted_greedy : Greedy 3 rstN (OfferedAt rstN ins) (AcceptedAt rstN ins) := by
  intro t
  simp only [acceptedAt_iff]
  exact taken_greedy (by decide) t

/-- Of the commands offered, the parser accepts those that no accepted one keeps out for its
three cycles, so that none of them keeps out another. No choice of commands with this property
has more of them, and at least one in three is accepted. -/
theorem accepts_most (n : ℕ) :
    (∀ t, AcceptedAt rstN ins t ↔
      OfferedAt rstN ins t ∧ ∀ u, KeptOut 3 rstN u t → ¬ AcceptedAt rstN ins u) ∧
    (∀ Q, Greedy 3 rstN (OfferedAt rstN ins) Q → ∀ t, Q t ↔ AcceptedAt rstN ins t) ∧
    NoneKeptOut 3 rstN (AcceptedAt rstN ins) ∧
    (∀ (R : ℕ → Prop) [DecidablePred R], (∀ t, R t → OfferedAt rstN ins t) →
      NoneKeptOut 3 rstN R → Nat.count R n ≤ Nat.count (AcceptedAt rstN ins) n) ∧
    Nat.count (OfferedAt rstN ins) n ≤ 3 * Nat.count (AcceptedAt rstN ins) n := by
  have hgreedy := accepted_greedy rstN ins
  refine ⟨hgreedy, ?_, hgreedy.noneKeptOut, ?_, hgreedy.count_le_mul (by decide) n⟩
  · intro Q hQ t
    exact hQ.unique hgreedy t
  · intro R _ hsub hout
    exact hgreedy.count_max (by decide) hsub hout n

theorem acceptedAt_high (t : ℕ) : AcceptedAt (fun _ => true) ins t ↔ Pick (cmdBus ins) t := by
  have hstate : topAt (fun _ => true) ins t = rdmaTop.runHigh ins t := rfl
  rw [AcceptedAt, hstate, run_cmdParser]
  exact and_iff_right rfl

end Runs

end CommandServer
