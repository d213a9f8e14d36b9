import RdmaNic.CmdParser

/-! # The state register of `cmd_parser` as two bits

The three names of the enumeration leave one code of the register free. The `case` of the
next state has no default, so a parser that holds that code keeps it until it is reset. -/
namespace ParserEncoding
open ClockedMachine PortSignals CmdParser

/-- The registers, with `state` as the `logic [1:0]` it is. -/
structure BitState where
  state : BitVec 2
  cmdReady : Bool
  opcode : BitVec 8
  addr : BitVec 56
  data : BitVec 128
  cmdDone : Bool
  deriving DecidableEq, Repr

def code : FsmState → BitVec 2
  | .idle => 0
  | .parse => 1
  | .done => 2

/-- The `case` that follows `next_state = state`. -/
def nextCode (state : BitVec 2) (cmdValid : Bool) : BitVec 2 :=
  if state = code .idle then if cmdValid then code .parse else state
  else if state = code .parse then code .done
  else if state = code .done then code .idle
  else state

def cmdParserBits : Machine BitState CmdCycle where
  initial := ⟨code .idle, true, 0, 0, 0, false⟩
  next s cmd :=
    let s' := { s with state := nextCode s.state cmd.valid, cmdDone := false }
    if s.state = code .parse then
      { s' with
        opcode := cmd.data.extractLsb' 248 8
        addr := cmd.data.extractLsb' 192 56
        data := cmd.data.extractLsb' 0 128 }
    else if s.state = code .done then { s' with cmdDone := true }
    else s'

def Encodes (b : BitState) (s : State) : Prop :=
  b = ⟨code s.state, s.cmdReady, s.opcode, s.addr, s.data, s.cmdDone⟩

theorem encodes_next (b : BitState) (s : State) (cmd : CmdCycle) (h : Encodes b s) :
    Encodes (cmdParserBits.next b cmd) (cmdParser.next s cmd) := by
  obtain ⟨fsm, ready, opcode, addr, data, pulse⟩ := s
  obtain rfl := h
  cases fsm with
  | idle => cases hv : cmd.valid <;> simp [Encodes, cmdParserBits, cmdParser, code, nextCode,
      nextState, hv]
  | parse => simp [Encodes, cmdParserBits, cmdParser, code, nextCode, nextState]
  | done => simp [Encodes, cmdParserBits, cmdParser, code, nextCode, nextState]

theorem bits_simulate : Simulates cmdParserBits cmdParser id Encodes where
  initial := rfl
  next := encodes_next

def free : BitVec 2 := 3

theorem named_of_ne_free {b : BitVec 2} (h : b ≠ free) : ∃ fsm, b = code fsm := by
  have hcases : ∀ c : BitVec 2, c = code .idle ∨ c = code .parse ∨ c = code .done ∨ c = free := by
    decide
  rcases hcases b with hb | hb | hb | hb
  · exact ⟨_, hb⟩
  · exact ⟨_, hb⟩
  · exact ⟨_, hb⟩
  · exact absurd hb h

theorem next_free {b : BitState} (h : b.state = free) (cmd : CmdCycle) :
    (cmdParserBits.next b cmd).state = free ∧ (cmdParserBits.next b cmd).cmdDone = false := by
  obtain ⟨state, ready, opcode, addr, data, pulse⟩ := b
  obtain rfl : state = free := h
  simp [cmdParserBits, nextCode, code, free]

theorem trapped {b : BitState} (h : b.state = free) (cmds : ℕ → CmdCycle) (t : ℕ) :
    (cmdParserBits.runFrom b cmds t).state = free ∧
      (0 < t → (cmdParserBits.runFrom b cmds t).cmdDone = false) := by
  induction t with
  | zero => exact ⟨h, fun hpos => absurd hpos (Nat.lt_irrefl 0)⟩
  | succ t ih => exact ⟨(next_free ih.1 _).1, fun _ => (next_free ih.1 _).2⟩

theorem idle_of_named {b : BitState} {fsm : FsmState} (h : b.state = code fsm)
    {cmds : ℕ → CmdCycle} (hquiet : ∀ t < 2, (cmds t).valid = false) :
    (cmdParserBits.runFrom b cmds 2).state = code .idle := by
  have hnext : ∀ c cmd, (cmdParserBits.next c cmd).state = nextCode c.state cmd.valid := by
    intro c cmd
    simp only [cmdParserBits]
    by_cases hp : c.state = code .parse
    · rw [if_pos hp]
    · by_cases hd : c.state = code .done
      · rw [if_neg hp, if_pos hd]
      · rw [if_neg hp, if_neg hd]
  simp only [Machine.runFrom, hnext, h, hquiet 0 (by decide), hquiet 1 (by decide)]
  cases fsm <;> decide

/-- From reset on the two bits hold the code of the parser's state. From any other contents
the parser comes back without a reset exactly when the code has a name: the free one stays
for good, and gives no pulse. -/
theorem free_code_is_trap :
    (∀ rstN cmds t, Encodes (cmdParserBits.sampled rstN cmds t) (cmdParser.sampled rstN cmds t)) ∧
    (∀ b : BitState, (∀ cmds : ℕ → CmdCycle, (∀ t < 2, (cmds t).valid = false) →
      (cmdParserBits.runFrom b cmds 2).state = code .idle) ↔ b.state ≠ free) ∧
    (∀ b : BitState, b.state = free → ∀ cmds t, (cmdParserBits.runFrom b cmds t).state = free ∧
      (0 < t → (cmdParserBits.runFrom b cmds t).cmdDone = false)) := by
  refine ⟨bits_simulate.sampled, ?_, fun _ h cmds t => trapped h cmds t⟩
  intro b
  constructor
  · intro hback hfree
    have hidle := hback (fun _ => ⟨false, 0⟩) fun _ _ => rfl
    rw [(trapped hfree _ 2).1] at hidle
    exact absurd hidle (by decide)
  · intro hne cmds hquiet
    obtain ⟨fsm, hfsm⟩ := named_of_ne_free hne
    exact idle_of_named hfsm hquiet

end ParserEncoding
