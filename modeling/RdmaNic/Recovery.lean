import RdmaNic.CommandServer
import RdmaNic.IngressFate
import RdmaNic.ParserEncoding

/-! # Recovery of `rdma_top` from arbitrary register contents

Without a reset, two cycles with no command and no beat are enough: from the fifth cycle on
the beats and completions are those of a design that started from reset. The one exception is
the code of the parser's state register that has no name. -/
namespace Recovery
open ClockedMachine PortSignals CmdParser ParserEncoding RdmaSched RdmaTop CommandPath
  CommandServer IngressFate

structure ParserAgree (s s' : CmdParser.State) : Prop where
  state : s.state = s'.state
  word : s.state = .done → s.data = s'.data

structure PulseAgree (s s' : CmdParser.State) : Prop where
  pulse : s.cmdDone = s'.cmdDone
  word : s.cmdDone = true → s.data = s'.data

structure TxAgree (s s' : TxState) : Prop where
  beat : s.port.beat = s'.port.beat
  done : s.txDone = s'.txDone

structure SchedAgree (s s' : RdmaSched.State) : Prop where
  done : s.state = .sDone ↔ s'.state = .sDone
  used : s.state ≠ .unused
  used' : s'.state ≠ .unused

section Parser
variable {s s' : CmdParser.State}

theorem parserAgree_next (h : ParserAgree s s') (cmd : CmdCycle) :
    ParserAgree (cmdParser.next s cmd) (cmdParser.next s' cmd) := by
  constructor
  · simp only [next_state, h.state]
  · intro hdone
    have hparse := (next_done_iff s cmd).mp hdone
    have hparse' : s'.state = .parse := h.state ▸ hparse
    simp only [next_data, hparse, hparse', if_true]

theorem pulseAgree_next (h : ParserAgree s s') (cmd : CmdCycle) :
    PulseAgree (cmdParser.next s cmd) (cmdParser.next s' cmd) := by
  constructor
  · rw [Bool.eq_iff_iff, next_cmdDone, next_cmdDone, h.state]
  · intro hpulse
    have hdone := (next_cmdDone s cmd).mp hpulse
    have hdone' : s'.state = .done := h.state ▸ hdone
    simpa [next_data, hdone, hdone'] using h.word hdone

theorem idle_after_two (s : CmdParser.State) {c c' : CmdCycle} (hc : c.valid = false)
    (hc' : c'.valid = false) : (cmdParser.next (cmdParser.next s c) c').state = .idle := by
  rw [next_state, next_state, hc, hc']
  cases s.state <;> rfl

end Parser

theorem next_tx_beat (s : TopState) (i : TopIn) : (rdmaTop.next s i).tx.port.beat =
    if s.parser.cmdDone then some (s.parser.data.extractLsb' 0 64, true) else none := by
  have hport : (rdmaTop.next s i).tx.port =
      ⟨s.parser.cmdDone, s.parser.data.extractLsb' 0 64, true⟩ := by
    simp only [rdmaTop, rdmaTx, TxState.port, txIn, frame_low_half]
  rw [hport]
  rfl

theorem txAgree_next {s s' : TopState} (h : PulseAgree s.parser s'.parser) (i : TopIn) :
    TxAgree (rdmaTop.next s i).tx (rdmaTop.next s' i).tx := by
  constructor
  · rw [next_tx_beat, next_tx_beat, ← h.pulse]
    by_cases hp : s.parser.cmdDone = true
    · rw [if_pos hp, if_pos hp, h.word hp]
    · rw [if_neg hp, if_neg hp]
  · simp only [rdmaTop, rdmaTx, txIn, h.pulse]

section Sched
variable {s s' : RdmaSched.State} {i i' : PortCycle}

theorem accepts_agree (h : SchedAgree s s') (hi : i.beat = i'.beat) :
    Accepts s i ↔ Accepts s' i' := by
  have hv : i.valid = true ↔ i'.valid = true := by
    rw [← Bool.not_eq_false, ← Bool.not_eq_false, ← beat_eq_none, ← beat_eq_none, hi]
  rw [accepts_of_used h.used, accepts_of_used h.used', hv, ne_eq, ne_eq, h.done]

theorem schedAgree_next (h : SchedAgree s s') (hi : i.beat = i'.beat) :
    SchedAgree (rdmaSched.next s i) (rdmaSched.next s' i') := by
  refine ⟨?_, next_state_used s i h.used, next_state_used s' i' h.used'⟩
  rw [RdmaSched.next_done_iff, RdmaSched.next_done_iff, ← accepts_agree h hi]
  apply and_congr_right
  intro hacc
  have hb : i'.beat = some (i.data, i.last) := hi ▸ beat_eq_some.mpr ⟨hacc.1, rfl, rfl⟩
  rw [(beat_eq_some.mp hb).2.2]

theorem schedOut_next (h : SchedAgree s s') (hi : i.beat = i'.beat) :
    (rdmaSched.next s i).out.beat = (rdmaSched.next s' i').out.beat := by
  simp only [next_beat, accepts_agree h hi, hi]

theorem ready_after_idle (s : RdmaSched.State) (hi : i.valid = false) :
    (rdmaSched.next s i).state ≠ .sDone ∧ (rdmaSched.next s i).state ≠ .unused := by
  obtain ⟨fsm, v, d, l⟩ := s
  cases fsm <;> simp [rdmaSched, hi]

end Sched

def Quiet (i : TopIn) : Prop :=
  i.host.valid = false ∧ i.rx.valid = false ∧ i.cmd.valid = false

instance (i : TopIn) : Decidable (Quiet i) := inferInstanceAs (Decidable (_ ∧ _ ∧ _))

structure Synced (s s' : TopState) : Prop where
  parser : ParserAgree s.parser s'.parser
  sched : SchedAgree s.sched s'.sched
  rx : s.rx.beat = s'.rx.beat

theorem qp2sch_agree {s s' : TopState} (h : s.rx.beat = s'.rx.beat) (i : TopIn) :
    (qp2sch s i).beat = (qp2sch s' i).beat := by
  have hmux : (arb i.host s.rx).beat = (arb i.host s'.rx).beat := by
    rw [arb_beat, arb_beat, h]
  exact hmux

theorem synced_next (s s' : TopState) (i : TopIn) (h : Synced s s') :
    Synced (rdmaTop.next s i) (rdmaTop.next s' i) where
  parser := parserAgree_next h.parser i.cmd
  sched := schedAgree_next h.sched (qp2sch_agree h.rx i)
  rx := rfl

/-- What the design shows in a cycle: the tx beat, the completion and the scheduler's beat. -/
def shown (s : TopState) : Option (BitVec 64 × Bool) × Bool × Option (BitVec 64 × Bool) :=
  (s.tx.port.beat, s.compValid, s.sched.out.beat)

theorem shown_after_three {s s' : TopState} (h : Synced s s') (i j k : TopIn) :
    shown (rdmaTop.next (rdmaTop.next (rdmaTop.next s i) j) k) =
      shown (rdmaTop.next (rdmaTop.next (rdmaTop.next s' i) j) k) := by
  have hone := synced_next s s' i h
  have htwo := synced_next _ _ j hone
  have hpulse : PulseAgree (rdmaTop.next s i).parser (rdmaTop.next s' i).parser :=
    pulseAgree_next h.parser i.cmd
  have hpulse' : PulseAgree (rdmaTop.next (rdmaTop.next s i) j).parser
      (rdmaTop.next (rdmaTop.next s' i) j).parser := pulseAgree_next hone.parser j.cmd
  have htx := txAgree_next hpulse j
  have hbeat := (txAgree_next hpulse' k).beat
  have hout := schedOut_next htwo.sched (qp2sch_agree htwo.rx k)
  exact congrArg₂ Prod.mk hbeat (congrArg₂ Prod.mk htx.done hout)

theorem synced_after_two (s s' : TopState) {i j : TopIn} (hi : Quiet i) (hj : Quiet j) :
    Synced (rdmaTop.next (rdmaTop.next s i) j) (rdmaTop.next (rdmaTop.next s' i) j) := by
  have hidle : ∀ u : TopState, (qp2sch (rdmaTop.next u i) j).valid = false := by
    intro u
    change (j.host.valid || i.rx.valid) = false
    rw [hj.1, hi.2.1]
    rfl
  have hparser := idle_after_two s.parser hi.2.2 hj.2.2
  have hparser' := idle_after_two s'.parser hi.2.2 hj.2.2
  have hsched := ready_after_idle (rdmaTop.next s i).sched (hidle s)
  have hsched' := ready_after_idle (rdmaTop.next s' i).sched (hidle s')
  refine ⟨⟨hparser.trans hparser'.symm, ?_⟩, ⟨iff_of_false hsched.1 hsched'.1, hsched.2,
    hsched'.2⟩, rfl⟩
  intro hdone
  cases hparser.symm.trans hdone

theorem recovers (s : TopState) {ins : ℕ → TopIn} (hquiet : ∀ t < 2, Quiet (ins t)) :
    ∀ t ≥ 5, shown (rdmaTop.runFrom s ins t) = shown (rdmaTop.runFrom rdmaTop.initial ins t) := by
  have hsynced : ∀ t ≥ 2, Synced (rdmaTop.runFrom s ins t)
      (rdmaTop.runFrom rdmaTop.initial ins t) := by
    apply runFrom_related rdmaTop Synced synced_next
    exact synced_after_two s rdmaTop.initial (hquiet 0 (by decide)) (hquiet 1 (by decide))
  intro t ht
  obtain ⟨u, rfl⟩ := Nat.exists_eq_add_of_le' ht
  exact shown_after_three (hsynced (u + 2) (Nat.le_add_left 2 u)) _ _ _

/-- All registers, the state of the parser as the two bits it is. -/
structure Registers where
  rx : PortCycle
  sched : RdmaSched.State
  parser : BitState
  tx : TxState
  compValid : Bool
  deriving DecidableEq, Repr

def Registers.txIn (r : Registers) : PortCycle where
  valid := r.parser.cmdDone
  data := (r.parser.opcode ++ r.parser.addr ++ r.parser.data.extractLsb' 0 64).setWidth 64
  last := true

def Registers.shown (r : Registers) :
    Option (BitVec 64 × Bool) × Bool × Option (BitVec 64 × Bool) :=
  (r.tx.port.beat, r.compValid, r.sched.out.beat)

def rdmaTopBits : Machine Registers TopIn where
  initial := ⟨rdmaRx.initial, rdmaSched.initial, cmdParserBits.initial, rdmaTx.initial,
    rdmaCompletion.initial⟩
  next r i :=
    { rx := rdmaRx.next r.rx i.rx
      sched := rdmaSched.next r.sched (qpContext (arb i.host r.rx))
      parser := cmdParserBits.next r.parser i.cmd
      tx := rdmaTx.next r.tx r.txIn
      compValid := rdmaCompletion.next r.compValid r.tx.txDone }

structure Holds (r : Registers) (s : TopState) : Prop where
  rx : r.rx = s.rx
  sched : r.sched = s.sched
  parser : Encodes r.parser s.parser
  tx : r.tx = s.tx
  compValid : r.compValid = s.compValid

theorem holds_next (r : Registers) (s : TopState) (i : TopIn) (h : Holds r s) :
    Holds (rdmaTopBits.next r i) (rdmaTop.next s i) := by
  have htxIn : r.txIn = txIn s := by
    have hparser : r.parser = _ := h.parser
    rw [Registers.txIn, hparser]
    rfl
  constructor
  · exact congrArg (fun rx => rdmaRx.next rx i.rx) h.rx
  · simp only [rdmaTopBits, rdmaTop, qp2sch, h.sched, h.rx]
  · exact encodes_next _ _ _ h.parser
  · simp only [rdmaTopBits, rdmaTop, h.tx, htxIn]
  · simp only [rdmaTopBits, rdmaTop, h.compValid, h.tx]

theorem registers_simulate : Simulates rdmaTopBits rdmaTop id Holds where
  initial := ⟨rfl, rfl, rfl, rfl, rfl⟩
  next := holds_next

theorem Holds.shown {r : Registers} {s : TopState} (h : Holds r s) :
    r.shown = Recovery.shown s := by
  rw [Registers.shown, Recovery.shown, h.tx, h.compValid, h.sched]

theorem exists_held {r : Registers} (h : r.parser.state ≠ free) : ∃ s, Holds r s := by
  obtain ⟨fsm, hfsm⟩ := named_of_ne_free h
  refine ⟨⟨r.rx, r.sched, ⟨fsm, r.parser.cmdReady, r.parser.opcode, r.parser.addr,
    r.parser.data, r.parser.cmdDone⟩, r.tx, r.compValid⟩, rfl, rfl, ?_, rfl, rfl⟩
  rw [Encodes, ← hfsm]

theorem nothing_sent {r : Registers} (h : r.parser.state = free) (ins : ℕ → TopIn) (t : ℕ) :
    (rdmaTopBits.runFrom r ins (t + 2)).tx.port.beat = none := by
  have hparser : Simulates rdmaTopBits cmdParserBits TopIn.cmd fun r b => r.parser = b := by
    refine ⟨rfl, ?_⟩
    rintro r _ i rfl
    rfl
  have htrap := (trapped h (fun u => (ins u).cmd) (t + 1)).2 (Nat.succ_pos t)
  rw [← hparser.runFrom rfl ins (t + 1)] at htrap
  have hvalid : (rdmaTopBits.runFrom r ins (t + 2)).tx.port.valid =
      (rdmaTopBits.runFrom r ins (t + 1)).parser.cmdDone := rfl
  rw [beat_eq_none, hvalid, htrap]

def oneCommand (t : ℕ) : TopIn := ⟨⟨false, 0, false⟩, ⟨false, 0, false⟩, ⟨t == 2, 9⟩⟩

/-- From any register contents, two quiet cycles make the beats and the completions from the
fifth cycle on those of a run from reset, exactly when the parser does not hold the free code. -/
theorem two_quiet_cycles_recover (r : Registers) :
    (∀ ins : ℕ → TopIn, (∀ t < 2, Quiet (ins t)) → ∀ t ≥ 5,
      (rdmaTopBits.runFrom r ins t).shown = (rdmaTopBits.runHigh ins t).shown) ↔
    r.parser.state ≠ free := by
  constructor
  · intro hback hfree
    have hreset : (rdmaTopBits.runHigh oneCommand 6).tx.port.beat ≠ none := by decide
    have hshown := hback oneCommand (by decide) 6 (by decide)
    simp only [Registers.shown, Prod.mk.injEq] at hshown
    rw [← hshown.1] at hreset
    exact hreset (nothing_sent hfree oneCommand 4)
  · intro hne ins hquiet t ht
    obtain ⟨s, hs⟩ := exists_held hne
    have hfrom := (registers_simulate.runFrom hs ins t).shown
    have hreset := (registers_simulate.runFrom registers_simulate.initial ins t).shown
    rw [← runFrom_initial, hfrom, hreset]
    exact recovers s hquiet t ht

def scrambled : Registers where
  rx := ⟨true, 1, true⟩
  sched := ⟨.unused, true, 2, true⟩
  parser := ⟨code .done, false, 3, 4, 5, true⟩
  tx := ⟨true, 6, false, true⟩
  compValid := true

def afterQuiet (t : ℕ) : TopIn :=
  ⟨⟨t == 2, 7, true⟩, ⟨t == 4, 8, false⟩, ⟨t == 3, 9⟩⟩

theorem scrambled_recovers : scrambled.shown ≠ rdmaTopBits.initial.shown ∧
    ∀ t ≥ 5, (rdmaTopBits.runFrom scrambled afterQuiet t).shown =
      (rdmaTopBits.runHigh afterQuiet t).shown :=
  ⟨by decide, (two_quiet_cycles_recover scrambled).mpr (by decide) afterQuiet (by decide)⟩

end Recovery
