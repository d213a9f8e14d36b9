import RdmaNic.RdmaHostDriver
import RdmaNic.RxForwarded

/-! # The two sequences of `rdma_test`, started at once

The host's only item reaches the mux in the cycle the first rx beat would, if that is shown,
and so stands right ahead of the other beats of the rx sequence. -/
namespace SharedStart
open ClockedMachine ClockingBlock PacketFraming PortSignals RdmaTop IngressPath RdmaSched
  Turnaround RdmaMonitor RdmaDriver RdmaSeqItem RdmaHostDriver RxArrivals RxForwarded

section Cycles
variable {bus : PortCycle} {req : RdmaSeqItem} {reqs : List RdmaSeqItem}

theorem hostBus_cycles (d : Delay) (tr : RdmaHostSeqItem) (m : ℕ) :
    cyclesBefore (hostBus [(d, tr)]) (d.edges + (m + 2)) =
      List.replicate d.edges none ++ none :: tr.cycle.beat :: List.replicate m none := by
  have hbus : hostBus [(d, tr)] =
      (Proc.edge ⟨⟨false, 0, false⟩, [], RdmaHostDriver.serve [(d, tr)]⟩).busAt :=
    funext (hostBus_eq [(d, tr)])
  have hitem : ∀ prog : List (Op PortCycle),
      (⟨⟨false, 0, false⟩, [], (if d.between then [.waitBetween] else []) ++ .waitEdge :: prog⟩ :
        Proc PortCycle).shown cycle (m + 2) =
      (⟨⟨false, 0, false⟩, [], .waitEdge :: prog⟩ : Proc PortCycle).shown cycle (m + 2) := by
    intro prog
    cases d.between with
    | false => rfl
    | true => exact shown_between_wait _
  have hdone := @cycles_done tr.cycle.low rfl m
  rw [hbus, RdmaHostDriver.serve_cons, Delay.ops, List.append_assoc]
  refine (cycles_waits rfl d.edges (m + 2)).trans (congrArg _ ?_)
  rw [hitem, shown_waitEdge, shown_drive, shown_waitEdge, shown_drive]
  exact congrArg (fun l => none :: tr.cycle.beat :: l) hdone

/-- The driver shows requests in a row without an idle cycle between them. -/
theorem cycles_sendAll (hs : ∀ req ∈ reqs, req.Sendable) (hlow : bus.valid = false) (k : ℕ) :
    (⟨bus, [], sendAll reqs⟩ : Proc PortCycle).shown cycle (allBeats reqs + k) =
      (reqs.flatMap sent).map some ++ List.replicate k none := by
  induction reqs generalizing bus with
  | nil =>
    have hlen : allBeats [] + k = k := Nat.zero_add k
    rw [hlen]
    exact cycles_done hlow k
  | cons req reqs ih =>
    rw [List.forall_mem_cons] at hs
    obtain ⟨bus', hlow', hshown⟩ := @shown_packet _ cycle _ hs.1 bus (sendAll reqs)
      (allBeats reqs + k)
    rw [allBeats_cons, Nat.add_assoc, sendAll, List.flatMap_cons, ← sendAll, hshown,
      cycles_of_beats, ih hs.2 hlow', List.flatMap_cons, List.map_append, List.append_assoc]

/-- Only the cycle of the first beat depends on where the driver gets its first request. -/
theorem rxBus_cycles (hs : ∀ r ∈ req :: reqs, r.Sendable) (d : Delay) (k : ℕ) : ∃ c,
    cyclesBefore (RxArrivals.rxBus (inARow d (req :: reqs)))
      (d.edges + (allBeats (req :: reqs) + k)) = List.replicate d.edges none ++ c ::
        ((req.sent.tail ++ reqs.flatMap sent).map some ++ List.replicate k none) := by
  have hstart : cyclesBefore (RdmaDriver.rxBus d (req :: reqs))
      (d.edges + (allBeats (req :: reqs) + k)) =
      (⟨⟨false, 0, false⟩, [], .waitBetween :: RdmaDriver.runPhase d (req :: reqs)⟩ :
        Proc PortCycle).shown cycle (d.edges + (allBeats (req :: reqs) + k)) := values_start _
  have hrest := (List.forall_mem_cons.mp hs).2
  obtain ⟨b, bs, hsent⟩ := exists_first (hs req List.mem_cons_self)
  rw [rxBus_inARow, hstart, RdmaDriver.runPhase, shown_start_drive rfl, shown_first, Delay.ops,
    List.append_assoc]
  by_cases hlate : (d.between || d.edges == 0) = true
  · obtain ⟨bus', hlow, hshown⟩ := @shown_packet_between _ cycle _ (hs req List.mem_cons_self)
      (PortCycle.low ⟨false, 0, false⟩) (sendAll reqs) (allBeats reqs + k)
    refine ⟨none, (cycles_waits rfl d.edges _).trans (congrArg _ ?_)⟩
    rw [if_pos hlate, allBeats_cons, Nat.add_assoc, sendAll, List.flatMap_cons, ← sendAll]
    refine hshown.trans ?_
    rw [cycles_of_beats, cycles_sendAll hrest hlow, List.map_append, List.append_assoc]
    rfl
  · refine ⟨some b, (cycles_waits rfl d.edges _).trans (congrArg _ ?_)⟩
    rw [if_neg hlate, List.nil_append, cycles_sendAll hs rfl, List.flatMap_cons, hsent]
    rfl

end Cycles

theorem values_some {β : Type*} (f : ℕ → β) (n : ℕ) :
    valuesBefore (fun t => some (f t)) n = (List.range n).map f :=
  congrFun List.filterMap_eq_map (List.range n)

theorem schedInput_cycles (ins : ℕ → TopIn) (n : ℕ) : cyclesBefore (schedInput ins) (n + 1) =
    (ins 0).host.beat ::
      List.zipWith Option.or (cyclesBefore (fun t => (ins t).host) (n + 1)).tail
        (cyclesBefore (fun t => (ins t).rx) n) := by
  have hzero : cycle (schedInput ins 0) = some (ins 0).host.beat := by
    rw [cycle, schedInput_beat, run_rx_zero, Option.or_none]
  have hsucc : (fun t => cycle (schedInput ins (t + 1))) = fun t =>
      some ((ins (t + 1)).host.beat.or (ins t).rx.beat) := by
    funext t
    rw [cycle, schedInput_beat, run_rx_succ]
  have hhost : (cyclesBefore (fun t => (ins t).host) (n + 1)).tail =
      (List.range n).map fun t => (ins (t + 1)).host.beat := by
    rw [cyclesBefore, valuesBefore_succ']
    exact values_some _ n
  have hrx : cyclesBefore (fun t => (ins t).rx) n = (List.range n).map fun t => (ins t).rx.beat :=
    values_some _ n
  rw [cyclesBefore, valuesBefore_succ', hzero, hsucc, hhost, hrx, values_some, List.zipWith_map,
    List.zipWith_self]
  rfl

theorem zipWith_idle {β : Type*} (l : List (Option β)) :
    List.zipWith Option.or (List.replicate l.length none) l = l := by
  induction l with
  | nil => rfl
  | cons c l ih => rw [List.length_cons, List.replicate_succ, List.zipWith_cons_cons, ih]; rfl

/-- What is shown of the requests after the first beat, packet by packet. -/
def afterFirst (req : RdmaSeqItem) (reqs : List RdmaSeqItem) : List (List (BitVec 64 × Bool)) :=
  (req.sent.tail :: reqs.map sent).filter fun f => !f.isEmpty

theorem afterFirst_flatten (req : RdmaSeqItem) (reqs : List RdmaSeqItem) :
    (afterFirst req reqs).flatten = req.sent.tail ++ reqs.flatMap sent := by
  rw [afterFirst, List.flatten_filter_not_isEmpty, List.flatten_cons, List.flatMap_def]

theorem afterFirst_closed {req : RdmaSeqItem} {reqs : List RdmaSeqItem}
    (hs : ∀ r ∈ req :: reqs, r.Sendable) :
    ∀ f ∈ afterFirst req reqs, ClosedFrame Prod.snd f := by
  rw [List.forall_mem_cons] at hs
  intro f hf
  obtain ⟨hf, hne⟩ := List.mem_filter.mp hf
  rw [Bool.not_eq_true', List.isEmpty_eq_false_iff] at hne
  rcases List.mem_cons.mp hf with rfl | hf
  · exact heardOf_closed (sent_closed hs.1) true hne
  · obtain ⟨r, hr, rfl⟩ := List.mem_map.mp hf
    exact sent_closed (hs.2 r hr)

theorem afterFirst_length {req : RdmaSeqItem} {reqs : List RdmaSeqItem} (h : req.Sendable) :
    (afterFirst req reqs).flatten.length + 1 = allBeats (req :: reqs) := by
  have hpos := h.1
  have hlen : (reqs.flatMap sent).length = allBeats reqs := by
    simp [List.length_flatMap, allBeats]
  rw [afterFirst_flatten, List.length_append, List.length_tail, length_sent, hlen, allBeats_cons]
  omega

/-- With a valid item of the host the mux shows that item and, right behind it, all beats of
the rx sequence but the first. -/
theorem mux_cycles {req : RdmaSeqItem} {reqs : List RdmaSeqItem}
    (hs : ∀ r ∈ req :: reqs, r.Sendable) {tr : RdmaHostSeqItem} (hv : tr.hostValid = true)
    {d : Delay} {ins : ℕ → TopIn}
    (hrx : ∀ t, (ins t).rx = RxArrivals.rxBus (inARow d (req :: reqs)) t)
    (hhost : ∀ t, (ins t).host = hostBus [(d, tr)] t) (k : ℕ) :
    cyclesBefore (schedInput ins) (d.edges + (allBeats (req :: reqs) + k) + 1) =
      none :: (List.replicate d.edges none ++ some (tr.hostData, tr.hostLast) ::
        ((afterFirst req reqs).flatten.map some ++ List.replicate k none)) := by
  obtain ⟨c, hrxCycles⟩ := rxBus_cycles hs d k
  rw [← afterFirst_flatten] at hrxCycles
  have hlen := @afterFirst_length req reqs (hs req List.mem_cons_self)
  generalize hshown : (afterFirst req reqs).flatten.map some ++ List.replicate k none = shown
    at hrxCycles ⊢
  have hcount : allBeats (req :: reqs) + k = shown.length + 1 := by
    rw [← hshown, List.length_append, List.length_map, List.length_replicate]
    omega
  have hbeat : tr.cycle.beat = some (tr.hostData, tr.hostLast) := beat_eq_some.mpr ⟨hv, rfl, rfl⟩
  have hidle : (ins 0).host.beat = none := by
    rw [hhost]
    rfl
  have hhostCycles := hostBus_cycles d tr shown.length
  rw [List.append_cons, ← List.replicate_succ', List.replicate_succ, List.cons_append, hbeat]
    at hhostCycles
  rw [schedInput_cycles, hidle, funext hhost, funext hrx, hrxCycles, hcount, Nat.add_assoc,
    hhostCycles, List.tail_cons, List.zipWith_append (by simp), List.zipWith_replicate,
    List.zipWith_cons_cons, zipWith_idle]
  simp

theorem afterFirst_ne_nil (req : RdmaSeqItem) (reqs : List RdmaSeqItem) :
    ∀ f ∈ afterFirst req reqs, f ≠ [] := by
  intro f hf
  have hne := (List.mem_filter.mp hf).2
  rwa [Bool.not_eq_true', List.isEmpty_eq_false_iff] at hne

/-- Started at once, a valid item of the host is ahead of the rx sequence, whose first beat is
lost. At the mux the other beats follow it without an idle cycle, and the scheduler takes all
of them exactly when they are at most one packet and none if the item is a last beat. -/
theorem host_item_first (req : RdmaSeqItem) (reqs : List RdmaSeqItem)
    (hs : ∀ r ∈ req :: reqs, r.Sendable) (tr : RdmaHostSeqItem) (hv : tr.hostValid = true)
    (d : Delay) (ins : ℕ → TopIn)
    (hrx : ∀ t, (ins t).rx = RxArrivals.rxBus (inARow d (req :: reqs)) t)
    (hhost : ∀ t, (ins t).host = hostBus [(d, tr)] t) (n : ℕ)
    (hn : d.edges + allBeats (req :: reqs) ≤ n) :
    cyclesBefore (schedInput ins) (n + 1) =
      none :: (List.replicate d.edges none ++ some (tr.hostData, tr.hostLast) ::
        ((afterFirst req reqs).flatten.map some ++
          List.replicate (n - (d.edges + allBeats (req :: reqs))) none)) ∧
    beatsBefore (sch2tx ins) (n + 2) = (tr.hostData, tr.hostLast) ::
      (takenOf tr.hostLast (afterFirst req reqs)).flatten ∧
    (beatsBefore (sch2tx ins) (n + 2) =
        (tr.hostData, tr.hostLast) :: (afterFirst req reqs).flatten ↔
      (afterFirst req reqs).length + tr.hostLast.toNat ≤ 1) := by
  obtain ⟨k, rfl⟩ := Nat.exists_eq_add_of_le hn
  have htaken := schedOut_taking (schedInput ins) (d.edges + allBeats (req :: reqs) + k + 1)
  have hcycles := mux_cycles hs hv hrx hhost k
  rw [← Nat.add_assoc] at hcycles
  have hout : beatsBefore (sch2tx ins) (d.edges + allBeats (req :: reqs) + k + 2) =
      (tr.hostData, tr.hostLast) :: (takenOf tr.hostLast (afterFirst req reqs)).flatten := by
    rw [sch2tx_eq]
    refine (congrArg Taken.values htaken).symm.trans ?_
    rw [hcycles, taking_cons, taking_append, step, taking_idle, taking_cons, taking_append,
      taking_idle]
    exact taking_frames [(tr.hostData, tr.hostLast)] tr.hostLast (afterFirst_closed hs)
  refine ⟨?_, hout, ?_⟩
  · rw [Nat.add_sub_cancel_left]
    exact hcycles
  · rw [hout, List.cons_inj_right]
    exact takenOf_eq_iff (afterFirst_ne_nil req reqs) tr.hostLast

def bothIns (t : ℕ) : TopIn :=
  ⟨hostBus [(⟨15, true⟩, ⟨true, 5, true⟩)] t,
    RxArrivals.rxBus (inARow ⟨15, true⟩ [⟨4, 0x1000⟩, ⟨2, 0x2000⟩]) t, ⟨false, 0⟩⟩

theorem fixed_seq_behind_item :
    (takenOf true (afterFirst ⟨4, 0x1000⟩ [⟨2, 0x2000⟩])).flatten =
      [(0x1002, false), (0x1003, true), (0x2001, true)] ∧
    cyclesBefore (schedInput bothIns) 22 =
      none :: (List.replicate 15 none ++ some (5, true) ::
        ((afterFirst ⟨4, 0x1000⟩ [⟨2, 0x2000⟩]).flatten.map some ++
          List.replicate (21 - (15 + allBeats [⟨4, 0x1000⟩, ⟨2, 0x2000⟩])) none)) ∧
    beatsBefore (sch2tx bothIns) 23 =
      (5, true) :: (takenOf true (afterFirst ⟨4, 0x1000⟩ [⟨2, 0x2000⟩])).flatten ∧
    (beatsBefore (sch2tx bothIns) 23 =
        (5, true) :: (afterFirst ⟨4, 0x1000⟩ [⟨2, 0x2000⟩]).flatten ↔
      (afterFirst ⟨4, 0x1000⟩ [⟨2, 0x2000⟩]).length + Bool.toNat true ≤ 1) :=
  ⟨by decide, host_item_first ⟨4, 0x1000⟩ [⟨2, 0x2000⟩] (by decide) ⟨true, 5, true⟩ rfl
    ⟨15, true⟩ bothIns (fun _ => rfl) (fun _ => rfl) 21 (by decide)⟩

end SharedStart
