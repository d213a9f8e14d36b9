import RdmaNic.RxArrivals

/-! # The driver `rdma_driver` without a wait between its items, against the monitor

The monitor undoes the driver but for the first beat of an item that comes between two edges.
In a row, only the first item can. -/
namespace RdmaDriver
open ClockingBlock PacketFraming PortSignals RdmaMonitor RdmaSeqItem RxArrivals

def sendAll (items : List RdmaSeqItem) : List (Op PortCycle) :=
  items.flatMap fun item => sendPacket item.beats item.base

/-- `run_phase` out of reset: the items come in a row after a first delay. -/
def runPhase (d : Delay) (items : List RdmaSeqItem) : List (Op PortCycle) :=
  .drive PortCycle.low :: (d.ops ++ sendAll items)

def rxBus (d : Delay) (items : List RdmaSeqItem) (t : ℕ) : PortCycle :=
  (Proc.start ⟨false, 0, false⟩ (runPhase d items)).busAt t

def allBeats (items : List RdmaSeqItem) : ℕ := (items.map fun item => item.beats.toNat).sum

theorem allBeats_cons (item : RdmaSeqItem) (items : List RdmaSeqItem) :
    allBeats (item :: items) = item.beats.toNat + allBeats items := List.sum_cons

theorem duration_inARow (d : Delay) (reqs : List RdmaSeqItem) :
    duration (inARow d reqs) ≤ d.edges + allBeats reqs := by
  cases reqs with
  | nil => simp [duration, servingEdges, inARow]
  | cons req reqs =>
    simp [duration, servingEdges, inARow, allBeats, Function.comp_def, Nat.add_assoc]

theorem serve_no_wait (items : List RdmaSeqItem) :
    serve (items.map fun item => (⟨0, false⟩, item)) = sendAll items := by
  simp [serve, serveAll, sendAll, Delay.ops, List.flatMap_map]

theorem rxBus_inARow (d : Delay) (item : RdmaSeqItem) (items : List RdmaSeqItem) :
    RxArrivals.rxBus (inARow d (item :: items)) = rxBus d (item :: items) := by
  funext t
  rw [rxBus, RxArrivals.rxBus, runPhase, RxArrivals.runPhase, inARow, serve_cons, serve_no_wait]
  rfl

def drivenIf (d : Delay) (items : List RdmaSeqItem) (tx : ℕ → PortCycle) (t : ℕ) : RdmaIf :=
  ⟨true, rxBus d items t, tx t⟩

/-- The monitor publishes the items as packets exactly when the first item reaches the
driver at an edge. -/
theorem monitor_undoes_driver_iff (items : List RdmaSeqItem) (hne : items ≠ [])
    (hs : ∀ item ∈ items, item.Sendable) (d : Delay) (tx : ℕ → PortCycle) (n : ℕ)
    (hn : d.edges + allBeats items ≤ n) :
    rxPackets (drivenIf d items tx) n = items.map txn ↔ d.AtEdge := by
  obtain ⟨item, items, rfl⟩ := List.exists_cons_of_ne_nil hne
  have hitems : ∀ i ∈ inARow d (item :: items), i.2.Sendable := inARow_items hs
  have hbus : ∀ t, (drivenIf d (item :: items) tx t).rx =
      RxArrivals.rxBus (inARow d (item :: items)) t :=
    fun t => congrFun (rxBus_inARow d item items).symm t
  have hheard := rxPackets_heard hitems (fun _ _ => rfl) hbus ((duration_inARow d _).trans hn)
  rw [hheard, ← inARow_txns d, packetsHeard_iff hitems, onTime_inARow]
  exact or_iff_right hne

def fixedSeq : List RdmaSeqItem := [⟨4, 0x1000⟩, ⟨2, 0x2000⟩]

theorem fixed_seq_undone_iff :
    rxPackets (drivenIf ⟨3, false⟩ fixedSeq idleTx) 9 = fixedSeq.map txn ↔
      Delay.AtEdge ⟨3, false⟩ :=
  monitor_undoes_driver_iff fixedSeq (by decide) (by decide) ⟨3, false⟩ idleTx 9 (by decide)

theorem fixed_seq_between_edges :
    (∀ item ∈ fixedSeq, item.Sendable) ∧
    fixedSeq.map txn = [⟨4, [0x1000, 0x1001, 0x1002, 0x1003]⟩, ⟨2, [0x2000, 0x2001]⟩] ∧
    rxPackets (drivenIf ⟨15, true⟩ fixedSeq idleTx) 21 =
      [⟨3, [0x1001, 0x1002, 0x1003]⟩, ⟨2, [0x2000, 0x2001]⟩] ∧
    rxPackets (drivenIf ⟨15, true⟩ fixedSeq idleTx) 21 ≠ fixedSeq.map txn := by
  have hpub : rxPackets (drivenIf ⟨15, true⟩ fixedSeq idleTx) 21 =
      [⟨3, [0x1001, 0x1002, 0x1003]⟩, ⟨2, [0x2000, 0x2001]⟩] := by decide +kernel
  refine ⟨by decide, by decide, hpub, ?_⟩
  rw [hpub]
  decide

end RdmaDriver
