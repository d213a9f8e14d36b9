import RdmaNic.CmdParser
import RdmaNic.RdmaSched

/-! # The design `rdma_top`

Its submodules and their wiring. The scheduler's output goes nowhere: the transmitter
is fed by the parser, whose input nets the design declares and never drives. -/
namespace RdmaTop
open ClockedMachine PortSignals

def rdmaRx : Machine PortCycle PortCycle where
  initial := ⟨false, 0, false⟩
  next _ rx := rx

def qpContext (i : PortCycle) : PortCycle := ⟨i.valid, i.data, i.last⟩

structure TxState where
  txValid : Bool
  txData : BitVec 64
  txLast : Bool
  txDone : Bool
  deriving DecidableEq, Repr

def TxState.port (s : TxState) : PortCycle := ⟨s.txValid, s.txData, s.txLast⟩

def rdmaTx : Machine TxState PortCycle where
  initial := ⟨false, 0, false, false⟩
  next _ txIn :=
    { txValid := txIn.valid
      txData := txIn.data
      txLast := txIn.last
      txDone := txIn.valid && txIn.last }

def rdmaCompletion : Machine Bool Bool where
  initial := false
  next _ txDone := txDone

/-- The ports in one cycle, with the undriven nets `cmd_valid` and `cmd_data` as inputs. -/
structure TopIn where
  host : PortCycle
  rx : PortCycle
  cmd : CmdCycle
  deriving DecidableEq, Repr

structure TopState where
  rx : PortCycle
  sched : RdmaSched.State
  parser : CmdParser.State
  tx : TxState
  compValid : Bool
  deriving DecidableEq, Repr

def arb (host2qp rx2qp : PortCycle) : PortCycle where
  valid := host2qp.valid || rx2qp.valid
  data := if host2qp.valid then host2qp.data else rx2qp.data
  last := if host2qp.valid then host2qp.last else rx2qp.last

def qp2sch (s : TopState) (i : TopIn) : PortCycle := qpContext (arb i.host s.rx)

/-- The port connections of `u_tx`: a 128-bit expression on a 64-bit port. -/
def txIn (s : TopState) : PortCycle where
  valid := s.parser.cmdDone
  data := (s.parser.opcode ++ s.parser.addr ++ s.parser.data.extractLsb' 0 64).setWidth 64
  last := true

def rdmaTop : Machine TopState TopIn where
  initial := ⟨rdmaRx.initial, RdmaSched.rdmaSched.initial, CmdParser.cmdParser.initial,
    rdmaTx.initial, rdmaCompletion.initial⟩
  next s i :=
    { rx := rdmaRx.next s.rx i.rx
      sched := RdmaSched.rdmaSched.next s.sched (qp2sch s i)
      parser := CmdParser.cmdParser.next s.parser i.cmd
      tx := rdmaTx.next s.tx (txIn s)
      compValid := rdmaCompletion.next s.compValid s.tx.txDone }

section Runs
variable (ins : ℕ → TopIn)

def txPort (t : ℕ) : PortCycle := (rdmaTop.runHigh ins t).tx.port

def CompValid (t : ℕ) : Prop := (rdmaTop.runHigh ins t).compValid = true

instance : DecidablePred (CompValid ins) := fun _ => inferInstanceAs (Decidable (_ = _))

def schedInput (t : ℕ) : PortCycle := qp2sch (rdmaTop.runHigh ins t) (ins t)

def sch2tx (t : ℕ) : PortCycle := (rdmaTop.runHigh ins t).sched.out

theorem run_rx_zero : (rdmaTop.runHigh ins 0).rx.beat = none := rfl

theorem run_rx_succ (t : ℕ) : (rdmaTop.runHigh ins (t + 1)).rx = (ins t).rx := rfl

theorem run_sched (t : ℕ) : (rdmaTop.runHigh ins t).sched =
    RdmaSched.rdmaSched.runHigh (schedInput ins) t :=
  runHigh_component rdmaTop RdmaSched.rdmaSched TopState.sched qp2sch rfl (fun _ _ => rfl) ins t

theorem sch2tx_eq : sch2tx ins = RdmaSched.schedOut (schedInput ins) := by
  funext t
  rw [sch2tx, run_sched]
  rfl

theorem run_cmdParser (t : ℕ) : (rdmaTop.runHigh ins t).parser =
    CmdParser.cmdParser.runHigh (fun u => (ins u).cmd) t :=
  runHigh_component rdmaTop CmdParser.cmdParser TopState.parser (fun _ i => i.cmd) rfl
    (fun _ _ => rfl) ins t

/-- The beat at the scheduler's input: the host's, else the one `rdma_rx` holds. -/
theorem schedInput_beat (t : ℕ) : (schedInput ins t).beat =
    ((ins t).host.beat).or (rdmaTop.runHigh ins t).rx.beat := by
  unfold schedInput qp2sch qpContext arb PortCycle.beat
  by_cases hv : (ins t).host.valid = true <;> simp [hv]

end Runs

end RdmaTop
