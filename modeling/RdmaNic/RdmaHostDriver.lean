import RdmaNic.ClockingBlock
import RdmaNic.IngressPath

/-! # The driver `rdma_host_driver` of the host port, up to the scheduler

Each item is driven at one edge and cleared at the next, and the driver waits for another
edge before the next item. So a cycle with a beat is followed by one without. -/
namespace RdmaHostDriver
open ClockedMachine ClockingBlock PacketFraming PortSignals RdmaTop IngressPath

structure RdmaHostSeqItem where
  hostValid : Bool
  hostData : BitVec 64
  hostLast : Bool
  deriving DecidableEq, Repr

def RdmaHostSeqItem.cycle (tr : RdmaHostSeqItem) : PortCycle :=
  ⟨tr.hostValid, tr.hostData, tr.hostLast⟩

def driveTransaction (tr : RdmaHostSeqItem) : List (Op PortCycle) := pulse tr.cycle PortCycle.low

def serve (items : List (Delay × RdmaHostSeqItem)) : List (Op PortCycle) :=
  serveAll driveTransaction items

def runPhase (items : List (Delay × RdmaHostSeqItem)) : List (Op PortCycle) :=
  .drive (fun _ => ⟨false, 0, false⟩) :: serve items

def hostBus (items : List (Delay × RdmaHostSeqItem)) (t : ℕ) : PortCycle :=
  (Proc.start ⟨false, 0, false⟩ (runPhase items)).busAt t

section Bus
variable {bus : PortCycle} {items : List (Delay × RdmaHostSeqItem)}

theorem serve_cons (d : Delay) (tr : RdmaHostSeqItem) (items : List (Delay × RdmaHostSeqItem)) :
    serve ((d, tr) :: items) = d.ops ++ .waitEdge :: .drive (fun _ => tr.cycle) :: .waitEdge ::
      .drive PortCycle.low :: serve items := serveAll_cons driveTransaction d tr items

theorem hostBus_eq (items : List (Delay × RdmaHostSeqItem)) (t : ℕ) : hostBus items t =
    (Proc.edge ⟨⟨false, 0, false⟩, [], serve items⟩).busAt t := by
  have hstart : Proc.start ⟨false, 0, false⟩ (serve items) =
      Proc.edge ⟨⟨false, 0, false⟩, [], serve items⟩ := start_pulses _ _ _ items
  rw [← hstart]
  cases t with
  | zero => rfl
  | succ t =>
    have hedge : (Proc.start ⟨false, 0, false⟩ (runPhase items)).edge =
        (Proc.start ⟨false, 0, false⟩ (serve items)).edge :=
      (edge_due _ _ _).trans (edge_due _ _ _).symm
    exact congrArg (fun p => p.busAt t) hedge

def hostBeats (items : List (Delay × RdmaHostSeqItem)) : List (BitVec 64 × Bool) :=
  (items.filter fun item => item.2.hostValid).map fun item => (item.2.hostData, item.2.hostLast)

def duration (items : List (Delay × RdmaHostSeqItem)) : ℕ := servingEdges (fun _ => 2) items

theorem shown_serve (hlow : bus.beat = none) (n : ℕ) :
    (⟨bus, [], serve items⟩ : Proc PortCycle).shown PortCycle.beat (duration items + n) =
      hostBeats items := by
  induction items generalizing bus with
  | nil => exact shown_done hlow _
  | cons item items ih =>
    obtain ⟨d, tr⟩ := item
    have hlen : duration ((d, tr) :: items) + n = d.edges + (duration items + n + 1 + 1) := by
      rw [duration, servingEdges_cons, ← duration]
      omega
    have hclear := @ih tr.cycle.low rfl
    have hbeat : hostBeats ((d, tr) :: items) = tr.cycle.beat.toList ++ hostBeats items := by
      rw [hostBeats, List.filter_cons]
      by_cases hv : tr.hostValid = true <;>
        simp [hostBeats, RdmaHostSeqItem.cycle, PortCycle.beat, hv]
    rw [serve_cons, hlen, shown_delay hlow, shown_drive, shown_waitEdge, shown_drive, hclear, hbeat]

theorem hostBus_beats (items : List (Delay × RdmaHostSeqItem)) {n : ℕ}
    (hn : duration items ≤ n) : beatsBefore (hostBus items) n = hostBeats items := by
  obtain ⟨k, rfl⟩ := Nat.exists_eq_add_of_le hn
  have hbus : hostBus items = (Proc.edge ⟨⟨false, 0, false⟩, [], serve items⟩).busAt :=
    funext (hostBus_eq items)
  rw [hbus]
  exact shown_serve rfl k

inductive Phase : Proc PortCycle → Prop where
  | waiting (bus : PortCycle) (items : List (Delay × RdmaHostSeqItem)) :
      bus.valid = false → Phase ⟨bus, [], serve items⟩
  | picked (bus : PortCycle) (tr : RdmaHostSeqItem) (items : List (Delay × RdmaHostSeqItem)) :
      bus.valid = false →
        Phase ⟨bus, [], .drive (fun _ => tr.cycle) :: .waitEdge ::
          .drive PortCycle.low :: serve items⟩
  | showing (bus : PortCycle) (items : List (Delay × RdmaHostSeqItem)) :
      Phase ⟨bus, [], .drive PortCycle.low :: serve items⟩

theorem edge_waiting (hlow : bus.valid = false) (items : List (Delay × RdmaHostSeqItem)) :
    Phase (Proc.edge ⟨bus, [], serve items⟩) ∧
      (Proc.edge ⟨bus, [], serve items⟩).bus.valid = false := by
  cases items with
  | nil => exact ⟨Phase.waiting bus [] hlow, hlow⟩
  | cons item items =>
    obtain ⟨⟨edges, between⟩, tr⟩ := item
    rw [serve_cons]
    cases edges with
    | zero => cases between <;> exact ⟨Phase.picked bus tr items hlow, hlow⟩
    | succ k =>
      refine ⟨?_, hlow⟩
      have h := Phase.waiting bus ((⟨k, between⟩, tr) :: items) hlow
      rw [serve_cons] at h
      exact h

theorem edge_phase {p : Proc PortCycle} (h : Phase p) : Phase p.edge := by
  cases h with
  | waiting bus items hlow => exact (edge_waiting hlow items).1
  | picked bus tr items hlow => exact Phase.showing tr.cycle items
  | showing bus items => exact (@edge_waiting bus.low rfl items).1

/-- Only `showing` has a valid bus, and its edge clears it. -/
theorem clear_after_beat {p : Proc PortCycle} (h : Phase p) (hv : p.bus.valid = true) :
    p.edge.bus.valid = false := by
  cases h with
  | waiting bus items hlow =>
    simp only [hlow, Bool.false_eq_true] at hv
  | picked bus tr items hlow =>
    simp only [hlow, Bool.false_eq_true] at hv
  | showing bus items => exact (@edge_waiting bus.low rfl items).2

theorem phase_after {p : Proc PortCycle} (h : Phase p) (n : ℕ) : Phase (Proc.edge^[n] p) := by
  induction n with
  | zero => exact h
  | succ n ih =>
    rw [Function.iterate_succ_apply']
    exact edge_phase ih

theorem hostBus_gap (items : List (Delay × RdmaHostSeqItem)) {t : ℕ}
    (hv : (hostBus items t).valid = true) : (hostBus items (t + 1)).valid = false := by
  rw [hostBus_eq] at hv ⊢
  have hphase := phase_after (@edge_waiting ⟨false, 0, false⟩ rfl items).1 t
  rw [Proc.busAt, Function.iterate_succ_apply']
  exact clear_after_beat hphase hv

end Bus

/-- With the rx port idle the scheduler outputs the valid items, each once and in order. -/
theorem host_items_delivered (items : List (Delay × RdmaHostSeqItem)) (ins : ℕ → TopIn)
    (hhost : ∀ t, (ins t).host = hostBus items t) (hrx : ∀ t, (ins t).rx.valid = false)
    (n : ℕ) (hn : duration items ≤ n) :
    beatsBefore (sch2tx ins) (n + 1) = hostBeats items := by
  have hbeat : ∀ t, (schedInput ins t).beat = (hostBus items t).beat := by
    intro t
    have hstage : (rdmaTop.runHigh ins t).rx.beat = none := by
      cases t with
      | zero => rfl
      | succ t => exact beat_eq_none.mpr (hrx t)
    rw [schedInput_beat, hstage, Option.or_none, hhost]
  have hvalid : ∀ t, (schedInput ins t).valid = (hostBus items t).valid := by
    intro t
    rw [← isSome_beat, hbeat, isSome_beat]
  have hgap : RdmaSched.GapAfterLast (schedInput ins) n := by
    intro t _ hv _
    rw [hvalid] at hv ⊢
    exact hostBus_gap items hv
  rw [sch2tx_beats (RdmaSched.accepted_gap_of_gap hgap), ← hostBus_beats items hn]
  simp only [beatsBefore, hbeat]

def someItems : List (Delay × RdmaHostSeqItem) :=
  [(⟨1, true⟩, ⟨true, 5, true⟩), (⟨0, false⟩, ⟨true, 6, true⟩), (⟨0, false⟩, ⟨false, 7, false⟩),
    (⟨2, false⟩, ⟨true, 8, false⟩)]

def servedIns (t : ℕ) : TopIn := ⟨hostBus someItems t, ⟨false, 0, false⟩, ⟨false, 0⟩⟩

theorem some_items_delivered :
    hostBeats someItems = [(5, true), (6, true), (8, false)] ∧
    beatsBefore (sch2tx servedIns) 12 = hostBeats someItems :=
  ⟨by decide, host_items_delivered someItems servedIns (fun _ => rfl) (fun _ => rfl) 11 (by decide)⟩

end RdmaHostDriver
