import RdmaNic.SendPacket
import RdmaNic.Turnaround

/-! # The driver `rdma_driver` when it has to wait for its items

An item that comes between two edges finds its first beat overtaken: that beat takes effect
together with what the next edge drives. This holds for each item on its own. -/
namespace RxArrivals
open ClockingBlock PacketFraming PortSignals Turnaround RdmaMonitor RdmaDriver RdmaSeqItem

def serve (items : List (Delay × RdmaSeqItem)) : List (Op PortCycle) :=
  serveAll (fun item => sendPacket item.beats item.base) items

def runPhase (items : List (Delay × RdmaSeqItem)) : List (Op PortCycle) :=
  .drive PortCycle.low :: serve items

def rxBus (items : List (Delay × RdmaSeqItem)) (t : ℕ) : PortCycle :=
  (Proc.start ⟨false, 0, false⟩ (runPhase items)).busAt t

/-- What is heard of each item. The driver waits between two edges for its first item and
at an edge for the others. -/
def heard (between : Bool) : List (Delay × RdmaSeqItem) → List (List (BitVec 64 × Bool))
  | [] => []
  | (d, item) :: items =>
    (if d.between || (between && d.edges == 0) then item.sent.tail else item.sent) ::
      heard false items

def OnTime (items : List (Delay × RdmaSeqItem)) : Prop :=
  (∀ item ∈ items, item.1.between = false) ∧ ∀ item ∈ items.head?, 0 < item.1.edges

def duration (items : List (Delay × RdmaSeqItem)) : ℕ :=
  servingEdges (fun item => item.beats.toNat) items

theorem serve_cons (d : Delay) (item : RdmaSeqItem) (items : List (Delay × RdmaSeqItem)) :
    serve ((d, item) :: items) = d.ops ++ (sendPacket item.beats item.base ++ serve items) :=
  serveAll_cons (fun item : RdmaSeqItem => sendPacket item.beats item.base) d item items

theorem duration_cons (d : Delay) (item : RdmaSeqItem) (items : List (Delay × RdmaSeqItem)) :
    duration ((d, item) :: items) = d.edges + item.beats.toNat + duration items :=
  servingEdges_cons (fun item : RdmaSeqItem => item.beats.toNat) d item items

def inARow (d : Delay) : List RdmaSeqItem → List (Delay × RdmaSeqItem)
  | [] => []
  | item :: items => (d, item) :: items.map fun item => (⟨0, false⟩, item)

theorem onTime_inARow {d : Delay} {reqs : List RdmaSeqItem} :
    OnTime (inARow d reqs) ↔ reqs = [] ∨ d.AtEdge := by
  cases reqs with
  | nil => simp [OnTime, inARow]
  | cons req reqs => simp [OnTime, inARow, Delay.AtEdge, and_comm]

theorem inARow_items {P : RdmaSeqItem → Prop} {d : Delay} {reqs : List RdmaSeqItem}
    (h : ∀ req ∈ reqs, P req) : ∀ item ∈ inARow d reqs, P item.2 := by
  cases reqs with
  | nil => simp [inARow]
  | cons req reqs => simpa [inARow] using h

theorem inARow_txns (d : Delay) (reqs : List RdmaSeqItem) :
    ((inARow d reqs).map fun item => item.2.txn) = reqs.map txn := by
  cases reqs with
  | nil => rfl
  | cons req reqs => simp [inARow, Function.comp_def]

section Bus
variable {bus : PortCycle} {item : RdmaSeqItem} {items : List (Delay × RdmaSeqItem)}

theorem shown_item (h : item.Sendable) (hlow : bus.valid = false) (d : Delay)
    (rest : List (Op PortCycle)) (n : ℕ) : ∃ bus', bus'.valid = false ∧
      (⟨bus, [], d.ops ++ (sendPacket item.beats item.base ++ rest)⟩ :
        Proc PortCycle).shown PortCycle.beat (d.edges + (item.beats.toNat + n)) =
      (if d.between then item.sent.tail else item.sent) ++
        (⟨bus', [], rest⟩ : Proc PortCycle).shown PortCycle.beat n := by
  rw [Delay.ops, List.append_assoc, shown_waits (beat_eq_none.mpr hlow)]
  cases d.between with
  | false => exact shown_beats_at_edge h bus rest n
  | true => exact shown_beats_between h hlow rest n

theorem shown_serve (hs : ∀ item ∈ items, item.2.Sendable) (hlow : bus.valid = false) (n : ℕ) :
    (⟨bus, [], serve items⟩ : Proc PortCycle).shown PortCycle.beat (duration items + n) =
      (heard false items).flatten := by
  induction items generalizing bus with
  | nil => exact shown_done (beat_eq_none.mpr hlow) _
  | cons item items ih =>
    obtain ⟨d, item⟩ := item
    have hlen : duration ((d, item) :: items) + n =
        d.edges + (item.beats.toNat + (duration items + n)) := by
      rw [duration_cons]
      omega
    obtain ⟨bus', hlow', hshown⟩ := shown_item (hs _ List.mem_cons_self) hlow d (serve items)
      (duration items + n)
    have hrest := ih (fun i hi => hs i (List.mem_cons_of_mem _ hi)) hlow'
    rw [serve_cons, hlen, hshown, hrest, heard, Bool.false_and, Bool.or_false, List.flatten_cons]

theorem at_edge_iff {d : Delay} : d.AtEdge ↔ (d.between || (true && d.edges == 0)) = false := by
  simp [Delay.AtEdge, Nat.pos_iff_ne_zero, and_comm]

/-- The beats of all items, but for the first one of each item that comes between two edges. -/
theorem rxBus_beats (hs : ∀ item ∈ items, item.2.Sendable) {n : ℕ} (hn : duration items ≤ n) :
    beatsBefore (rxBus items) n = (heard true items).flatten := by
  obtain ⟨k, rfl⟩ := Nat.exists_eq_add_of_le hn
  have hstart : beatsBefore (rxBus items) (duration items + k) =
      (⟨⟨false, 0, false⟩, [], .waitBetween :: runPhase items⟩ :
        Proc PortCycle).shown PortCycle.beat (duration items + k) := values_start _
  rw [hstart, runPhase, shown_start_drive rfl]
  cases items with
  | nil => exact (shown_of_edge (edge_waitBetween _ []) _).trans (shown_done rfl _)
  | cons item items =>
    obtain ⟨d, item⟩ := item
    have hitem := hs _ List.mem_cons_self
    have hrest := fun i hi => hs i (List.mem_cons_of_mem _ hi)
    have hlen : duration ((d, item) :: items) + k =
        d.edges + (item.beats.toNat + (duration items + k)) := by
      rw [duration_cons]
      omega
    rw [serve_cons, hlen, shown_arrive rfl, heard, List.flatten_cons]
    by_cases hd : d.AtEdge
    · obtain ⟨bus', hlow, hshown⟩ := shown_beats_at_edge hitem (PortCycle.low ⟨false, 0, false⟩)
        (serve items) (duration items + k)
      have hcond : ¬ (d.between || true && d.edges == 0) = true := by
        rw [Bool.not_eq_true]
        exact at_edge_iff.mp hd
      rw [if_pos hd, hshown, shown_serve hrest hlow, if_neg hcond]
    · obtain ⟨bus', hlow, hshown⟩ := @shown_beats_between (PortCycle.low ⟨false, 0, false⟩) item
        hitem rfl (serve items) (duration items + k)
      have hcond : (d.between || true && d.edges == 0) = true := by
        rwa [at_edge_iff, Bool.not_eq_false] at hd
      rw [if_neg hd, hshown, shown_serve hrest hlow, if_pos hcond]

end Bus

section Heard
variable {items : List (Delay × RdmaSeqItem)}

def packetsHeard (items : List (Delay × RdmaSeqItem)) : List (List (BitVec 64 × Bool)) :=
  (heard true items).filter fun f => !f.isEmpty

def LeftOf (items : List (Delay × RdmaSeqItem)) (l : List (List (BitVec 64 × Bool))) : Prop :=
  List.Forall₂ (fun item f => ∃ deaf, f = heardOf deaf item.2.sent) items l

theorem LeftOf.closed {l : List (List (BitVec 64 × Bool))} (h : LeftOf items l)
    (hs : ∀ item ∈ items, item.2.Sendable) : ∀ f ∈ l, f ≠ [] → ClosedFrame Prod.snd f := by
  induction h with
  | nil => simp
  | cons hf _ ih =>
    obtain ⟨deaf, rfl⟩ := hf
    rw [List.forall_mem_cons] at hs ⊢
    exact ⟨heardOf_closed (sent_closed hs.1) deaf, ih hs.2⟩

theorem LeftOf.cut {l : List (List (BitVec 64 × Bool))} (h : LeftOf items l)
    (hs : ∀ item ∈ items, item.2.Sendable) :
    PacketFraming.cut Prod.snd l.flatten = ⟨l.filter fun f => !f.isEmpty, []⟩ := by
  have hflat : l.flatten = (l.filter fun f => !f.isEmpty).flatten :=
    List.flatten_filter_not_isEmpty.symm
  rw [hflat]
  apply cut_flatten
  intro f hf
  obtain ⟨hf, hne⟩ := List.mem_filter.mp hf
  apply h.closed hs f hf
  intro hnil
  simp [hnil] at hne

theorem LeftOf.length_le {l : List (List (BitVec 64 × Bool))} (h : LeftOf items l) :
    l.flatten.length ≤ (items.map fun item => item.2.beats.toNat).sum := by
  induction h with
  | nil => exact le_rfl
  | @cons item _ _ _ hf _ ih =>
    obtain ⟨deaf, rfl⟩ := hf
    have hle := heardOf_length_le deaf item.2.sent
    have hlen := length_sent item.2
    simp only [List.flatten_cons, List.length_append, List.map_cons, List.sum_cons]
    omega

theorem words_left (l : List (List (BitVec 64 × Bool))) :
    (((l.filter fun f => !f.isEmpty).map txnOf).map fun t => t.dataQ.length).sum =
      l.flatten.length := by
  have hflat : (l.filter fun f => !f.isEmpty).flatten = l.flatten :=
    List.flatten_filter_not_isEmpty
  rw [← hflat, List.length_flatten, List.map_map]
  simp [Function.comp_def, txnOf]

theorem words_sent (items : List (Delay × RdmaSeqItem)) :
    ((items.map fun item => item.2.txn).map fun t => t.dataQ.length).sum =
      (items.map fun item => item.2.beats.toNat).sum := by
  simp [Function.comp_def, txn]

theorem packets_all_left (hs : ∀ item ∈ items, item.2.Sendable) :
    ((items.map fun item => item.2.sent).filter fun f => !f.isEmpty).map txnOf =
      items.map fun item => item.2.txn := by
  rw [List.filter_eq_self.mpr, List.map_map]
  · apply List.map_congr_left
    intro item _
    exact txnOf_sent item.2
  · intro f hf
    obtain ⟨item, hi, rfl⟩ := List.mem_map.mp hf
    obtain ⟨b, bs, hsent⟩ := exists_first (hs item hi)
    rw [hsent]
    rfl

theorem heard_left (between : Bool) (items : List (Delay × RdmaSeqItem)) :
    LeftOf items (heard between items) := by
  induction items generalizing between with
  | nil => exact List.Forall₂.nil
  | cons item items ih => exact List.Forall₂.cons ⟨_, rfl⟩ (ih false)

theorem all_heard_iff (hs : ∀ item ∈ items, item.2.Sendable) (between : Bool) :
    (heard between items).flatten.length = (items.map fun item => item.2.beats.toNat).sum ↔
      (∀ item ∈ items, item.1.between = false) ∧
        (between = true → ∀ item ∈ items.head?, 0 < item.1.edges) := by
  induction items generalizing between with
  | nil => simp [heard]
  | cons item items ih =>
    obtain ⟨d, item⟩ := item
    have hrest := ih (fun i hi => hs i (List.mem_cons_of_mem _ hi)) false
    have hle := (heard_left false items).length_le
    have hpos := (hs _ List.mem_cons_self).1
    have hlen := length_sent item
    simp only [heard, List.flatten_cons, List.length_append, List.map_cons, List.sum_cons,
      List.forall_mem_cons, List.head?_cons, Option.mem_some_iff, forall_eq']
    simp only [Bool.false_eq_true, false_imp_iff, and_true] at hrest
    by_cases hc : (d.between || between && d.edges == 0) = true
    · rw [if_pos hc, List.length_tail]
      constructor
      · intro heq
        dsimp only at hpos
        omega
      · rintro ⟨⟨hb, _⟩, he⟩
        rw [hb, Bool.false_or, Bool.and_eq_true, beq_iff_eq] at hc
        exact absurd hc.2 (Nat.pos_iff_ne_zero.mp (he hc.1))
    · rw [if_neg hc]
      rw [Bool.or_eq_true, Bool.and_eq_true, beq_iff_eq, not_or, not_and, Bool.not_eq_true] at hc
      rw [hlen, Nat.add_left_cancel_iff, hrest]
      constructor
      · intro hall
        exact ⟨⟨hc.1, hall⟩, fun hb => Nat.pos_of_ne_zero (hc.2 hb)⟩
      · rintro ⟨⟨_, hall⟩, _⟩
        exact hall

theorem heard_on_time (hs : ∀ item ∈ items, item.1.between = false) {between : Bool}
    (hfirst : between = true → ∀ item ∈ items.head?, 0 < item.1.edges) :
    heard between items = items.map fun item => item.2.sent := by
  induction items generalizing between with
  | nil => rfl
  | cons item items ih =>
    obtain ⟨d, item⟩ := item
    have hd : d.between = false := hs _ List.mem_cons_self
    have hcond : ¬ (d.between || between && d.edges == 0) = true := by
      rw [hd, Bool.false_or, Bool.and_eq_true, beq_iff_eq, not_and]
      intro hb
      exact Nat.pos_iff_ne_zero.mp (hfirst hb _ rfl)
    have hrest : heard false items = items.map fun item => item.2.sent := by
      apply ih fun i hi => hs i (List.mem_cons_of_mem _ hi)
      intro hb
      cases hb
    rw [heard, if_neg hcond, hrest, List.map_cons]

theorem cut_rxBus (hs : ∀ item ∈ items, item.2.Sendable) {n : ℕ} (hn : duration items ≤ n) :
    cut Prod.snd (beatsBefore (rxBus items) n) = ⟨packetsHeard items, []⟩ := by
  rw [rxBus_beats hs hn]
  exact (heard_left true items).cut hs

theorem rxPackets_heard (hs : ∀ item ∈ items, item.2.Sendable) {vif : ℕ → RdmaIf} {n : ℕ}
    (hr : ∀ t < n, (vif t).rstN = true) (hrx : ∀ t, (vif t).rx = rxBus items t)
    (hn : duration items ≤ n) : rxPackets vif n = (packetsHeard items).map txnOf := by
  have hport : (fun t => (vif t).rx) = rxBus items := funext hrx
  rw [rxPackets_eq hr, framedTxns, hport, cut_rxBus hs hn]

theorem packetsHeard_iff (hs : ∀ item ∈ items, item.2.Sendable) :
    (packetsHeard items).map txnOf = items.map (fun item => item.2.txn) ↔ OnTime items := by
  have hwords := words_left (heard true items)
  rw [packetsHeard]
  constructor
  · intro heq
    rw [heq, words_sent] at hwords
    obtain ⟨hedge, hfirst⟩ := (all_heard_iff hs true).mp hwords.symm
    exact ⟨hedge, hfirst rfl⟩
  · intro h
    rw [heard_on_time h.1 fun _ => h.2, packets_all_left hs]

end Heard

def idleTx (_ : ℕ) : PortCycle := ⟨false, 0, false⟩

def drivenIf (items : List (Delay × RdmaSeqItem)) (tx : ℕ → PortCycle) (t : ℕ) : RdmaIf :=
  ⟨true, rxBus items t, tx t⟩

/-- Of each item the monitor publishes the packet, less its first beat if the item came
between two edges and then nothing of an item of one beat. It publishes the items as they
are exactly when all of them came at an edge. -/
theorem monitor_hears_items (items : List (Delay × RdmaSeqItem))
    (hs : ∀ item ∈ items, item.2.Sendable) (tx : ℕ → PortCycle) (n : ℕ)
    (hn : duration items ≤ n) :
    rxPackets (drivenIf items tx) n = (packetsHeard items).map txnOf ∧
    (rxPackets (drivenIf items tx) n = items.map (fun item => item.2.txn) ↔ OnTime items) := by
  have hpackets := @rxPackets_heard items hs (drivenIf items tx) n (fun _ _ => rfl)
    (fun _ => rfl) hn
  refine ⟨hpackets, ?_⟩
  rw [hpackets]
  exact packetsHeard_iff hs

def lateItems : List (Delay × RdmaSeqItem) :=
  [(⟨2, false⟩, ⟨2, 0x40⟩), (⟨1, true⟩, ⟨3, 0x80⟩), (⟨0, true⟩, ⟨1, 0xc0⟩),
    (⟨0, false⟩, ⟨1, 0x100⟩)]

theorem late_items_heard :
    (packetsHeard lateItems).map txnOf = [⟨2, [0x40, 0x41]⟩, ⟨2, [0x81, 0x82]⟩, ⟨1, [0x100]⟩] ∧
    rxPackets (drivenIf lateItems idleTx) 10 = (packetsHeard lateItems).map txnOf ∧
    (rxPackets (drivenIf lateItems idleTx) 10 = lateItems.map (fun item => item.2.txn) ↔
      OnTime lateItems) :=
  ⟨by decide, monitor_hears_items lateItems (by decide) idleTx 10 (by decide)⟩

end RxArrivals
