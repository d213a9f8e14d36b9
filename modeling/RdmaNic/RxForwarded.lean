import RdmaNic.EndToEnd
import RdmaNic.RdmaDriver
import RdmaNic.SchedPackets
import RdmaNic.Turnaround

/-! # From the driver `rdma_driver` through the scheduler

The driver puts the first beat of an item right behind the last one of the item before if it
need not wait for it. The monitor hears both, the scheduler takes one of them. -/
namespace RxForwarded
open ClockedMachine ClockingBlock PacketFraming PortSignals RdmaTop IngressPath RdmaSched
  SchedPackets Turnaround RdmaMonitor RdmaDriver RdmaSeqItem RxArrivals

/-- The view of a port that keeps the idle cycles. -/
def cycle (c : PortCycle) : Option (Option (BitVec 64 × Bool)) := some c.beat

def cyclesBefore (port : ℕ → PortCycle) (n : ℕ) : List (Option (BitVec 64 × Bool)) :=
  valuesBefore (fun t => cycle (port t)) n

theorem schedOut_taking (ins : ℕ → PortCycle) (n : ℕ) :
    taking Prod.snd ⟨[], false⟩ (cyclesBefore ins n) =
      ⟨beatsBefore (schedOut ins) (n + 1), afterTakenLast (fun _ => true) ins n⟩ := by
  induction n with
  | zero => rfl
  | succ n ih =>
    rw [cyclesBefore, valuesBefore_succ, taking_append, ← cyclesBefore, ih, beatsBefore,
      beatsBefore, valuesBefore_succ _ (n + 1), schedOut_taken, taken_eq, afterTakenLast, taken_eq,
      ← beatsBefore]
    by_cases hv : (ins n).valid = true
    · have hb : (ins n).beat = some ((ins n).data, (ins n).last) := beat_eq_some.mpr ⟨hv, rfl, rfl⟩
      cases ha : afterTakenLast (fun _ => true) ins n <;>
        simp [cycle, taking, step, hb, hv]
    · rw [Bool.not_eq_true] at hv
      simp [cycle, taking, step, beat_eq_none.mpr hv, hv]

/-- What is forwarded of each item; the scheduler may be deaf to the first beat of the next. -/
def forwarded (deaf : Bool) : List (Delay × RdmaSeqItem) → List (List (BitVec 64 × Bool))
  | [] => []
  | (d, item) :: items =>
    let f := heardOf (d.between || (deaf && d.edges == 0)) item.sent
    f :: forwarded (!f.isEmpty) items

section Bus
variable {bus : PortCycle} {item : RdmaSeqItem} {items : List (Delay × RdmaSeqItem)}
  {prog : List (Op PortCycle)}

theorem cycles_waits (hlow : bus.valid = false) (k n : ℕ) :
    (⟨bus, [], List.replicate k .waitEdge ++ prog⟩ : Proc PortCycle).shown cycle (k + n) =
      List.replicate k none ++ (⟨bus, [], prog⟩ : Proc PortCycle).shown cycle n := by
  induction k with
  | zero => simp
  | succ k ih =>
    rw [List.replicate_succ, List.cons_append, Nat.succ_add, shown_waitEdge, cycle,
      beat_eq_none.mpr hlow, ih]
    rfl

theorem cycles_done (hlow : bus.valid = false) (n : ℕ) :
    (⟨bus, [], []⟩ : Proc PortCycle).shown cycle n = List.replicate n none := by
  induction n with
  | zero => rfl
  | succ n ih =>
    have hedge : Proc.edge ⟨bus, [], []⟩ = ⟨bus, [], []⟩ := rfl
    rw [shown_succ, hedge, ih, cycle, beat_eq_none.mpr hlow]
    rfl

def takes (s : Taken (BitVec 64 × Bool)) (p : Proc PortCycle) (n : ℕ) :
    Taken (BitVec 64 × Bool) :=
  taking Prod.snd s (p.shown cycle n)

theorem takes_waits (hlow : bus.valid = false) (vs : List (BitVec 64 × Bool)) (deaf : Bool)
    (k n : ℕ) : takes ⟨vs, deaf⟩ ⟨bus, [], List.replicate k .waitEdge ++ prog⟩ (k + n) =
      takes ⟨vs, deaf && k == 0⟩ ⟨bus, [], prog⟩ n := by
  rw [takes, cycles_waits hlow, taking_append, taking_idle, takes]

theorem cycles_of_beats (l : List (BitVec 64 × Bool)) :
    (l.map beatCycle).filterMap cycle = l.map some := by
  have hcycle : cycle ∘ beatCycle = some ∘ some := funext fun b => by simp [cycle, beatCycle]
  rw [List.filterMap_map, hcycle, List.filterMap_eq_map]

theorem takes_packet (h : item.Sendable) (bus : PortCycle) (rest : List (Op PortCycle))
    (vs : List (BitVec 64 × Bool)) (deaf : Bool) (n : ℕ) : ∃ bus', bus'.valid = false ∧
      takes ⟨vs, deaf⟩ ⟨bus, [], sendPacket item.beats item.base ++ rest⟩
        (item.beats.toNat + n) =
      takes ⟨vs ++ heardOf deaf item.sent, !(heardOf deaf item.sent).isEmpty⟩
        ⟨bus', [], rest⟩ n := by
  obtain ⟨bus', hlow, hshown⟩ := @shown_packet _ cycle _ h bus rest n
  refine ⟨bus', hlow, ?_⟩
  rw [takes, hshown, cycles_of_beats, taking_append, taking_heardOf vs (sent_closed h) deaf,
    ← takes]

theorem takes_packet_between (h : item.Sendable) (hlow : bus.valid = false)
    (rest : List (Op PortCycle)) (vs : List (BitVec 64 × Bool)) (deaf : Bool) (n : ℕ) :
    ∃ bus', bus'.valid = false ∧
      takes ⟨vs, deaf⟩ ⟨bus, [], .waitBetween :: (sendPacket item.beats item.base ++ rest)⟩
        (item.beats.toNat + n) =
      takes ⟨vs ++ heardOf true item.sent, !(heardOf true item.sent).isEmpty⟩
        ⟨bus', [], rest⟩ n := by
  obtain ⟨bus', hlow', hshown⟩ := @shown_packet_between _ cycle _ h bus rest n
  refine ⟨bus', hlow', ?_⟩
  -- it leaves the stage as a first beat does that is not taken
  have htaken : taking Prod.snd ⟨vs, deaf⟩ (none :: item.sent.tail.map some) =
      taking Prod.snd ⟨vs, true⟩ (item.sent.map some) := by
    obtain ⟨b, bs, hsent⟩ := exists_first h
    rw [hsent]
    rfl
  rw [takes, hshown, cycles_of_beats, cycle, beat_eq_none.mpr hlow, ← List.append_assoc,
    taking_append]
  exact congrArg (fun s => taking Prod.snd s _)
    (htaken.trans (taking_heardOf vs (sent_closed h) true))

theorem takes_item (h : item.Sendable) (hlow : bus.valid = false) (d : Delay)
    (rest : List (Op PortCycle)) (vs : List (BitVec 64 × Bool)) (deaf : Bool) (n : ℕ) :
    ∃ bus', bus'.valid = false ∧
      takes ⟨vs, deaf⟩ ⟨bus, [], d.ops ++ (sendPacket item.beats item.base ++ rest)⟩
        (d.edges + (item.beats.toNat + n)) =
      takes ⟨vs ++ heardOf (d.between || (deaf && d.edges == 0)) item.sent,
        !(heardOf (d.between || (deaf && d.edges == 0)) item.sent).isEmpty⟩
        ⟨bus', [], rest⟩ n := by
  rw [Delay.ops, List.append_assoc, takes_waits hlow]
  cases d.between with
  | false => exact takes_packet h bus rest vs _ n
  | true => exact takes_packet_between h hlow rest vs _ n

theorem takes_done (hlow : bus.valid = false) (s : Taken (BitVec 64 × Bool)) (n : ℕ) :
    (takes s ⟨bus, [], []⟩ n).values = s.values := by
  rw [takes, cycles_done hlow, taking_idle]

theorem takes_serve (hs : ∀ item ∈ items, item.2.Sendable) (hlow : bus.valid = false)
    (vs : List (BitVec 64 × Bool)) (deaf : Bool) (n : ℕ) :
    (takes ⟨vs, deaf⟩ ⟨bus, [], serve items⟩ (duration items + n)).values =
      vs ++ (forwarded deaf items).flatten := by
  induction items generalizing bus vs deaf with
  | nil =>
    rw [forwarded, List.flatten_nil, List.append_nil]
    exact takes_done hlow ⟨vs, deaf⟩ _
  | cons item items ih =>
    obtain ⟨d, item⟩ := item
    have hlen : duration ((d, item) :: items) + n =
        d.edges + (item.beats.toNat + (duration items + n)) := by
      rw [duration_cons]
      omega
    obtain ⟨bus', hlow', htakes⟩ := takes_item (hs _ List.mem_cons_self) hlow d (serve items) vs
      deaf (duration items + n)
    have hrest := fun i hi => hs i (List.mem_cons_of_mem _ hi)
    rw [serve_cons, hlen, htakes, ih hrest hlow', forwarded, List.flatten_cons, List.append_assoc]

/-- The first item: without an edge to wait for, the driver is between two edges. -/
theorem shown_first {β : Type*} {view : PortCycle → Option β} (d : Delay) (n : ℕ) :
    (⟨bus, [], .waitBetween :: (d.ops ++ prog)⟩ : Proc PortCycle).shown view n =
      (⟨bus, [], Delay.ops ⟨d.edges, d.between || d.edges == 0⟩ ++ prog⟩ :
        Proc PortCycle).shown view n := by
  obtain ⟨edges, between⟩ := d
  cases edges with
  | zero =>
    cases between with
    | false => rfl
    | true => exact shown_between_twice n
  | succ k =>
    have hlate : (between || k + 1 == 0) = between := Bool.or_false between
    rw [hlate]
    exact shown_between_wait n

/-- The first item finds the scheduler free and may still lose its first beat. -/
theorem rxBus_taken (hs : ∀ item ∈ items, item.2.Sendable) {n : ℕ} (hn : duration items ≤ n) :
    (taking Prod.snd ⟨[], false⟩ (cyclesBefore (RxArrivals.rxBus items) n)).values =
      (forwarded true items).flatten := by
  obtain ⟨k, rfl⟩ := Nat.exists_eq_add_of_le hn
  have hstart : cyclesBefore (RxArrivals.rxBus items) (duration items + k) =
      (⟨⟨false, 0, false⟩, [], .waitBetween :: RxArrivals.runPhase items⟩ :
        Proc PortCycle).shown cycle (duration items + k) := values_start _
  rw [hstart, RxArrivals.runPhase, shown_start_drive rfl]
  cases items with
  | nil =>
    have hedge := @edge_waitBetween _ (PortCycle.low ⟨false, 0, false⟩) []
    exact (congrArg (fun l => (taking Prod.snd ⟨[], false⟩ l).values)
      (shown_of_edge hedge _)).trans (takes_done rfl ⟨[], false⟩ _)
  | cons item items =>
    obtain ⟨d, item⟩ := item
    have hrest := fun i hi => hs i (List.mem_cons_of_mem _ hi)
    have hlen : duration ((d, item) :: items) + k =
        d.edges + (item.beats.toNat + (duration items + k)) := by
      rw [duration_cons]
      omega
    obtain ⟨bus', hlow, htakes⟩ := @takes_item (PortCycle.low ⟨false, 0, false⟩) item
      (hs _ List.mem_cons_self) rfl ⟨d.edges, d.between || d.edges == 0⟩ (serve items) [] false
      (duration items + k)
    rw [serve_cons, shown_first, hlen, ← takes, htakes, takes_serve hrest hlow, forwarded,
      List.flatten_cons]
    simp

end Bus

section Compared
variable {items : List (Delay × RdmaSeqItem)}

def packetsForwarded (items : List (Delay × RdmaSeqItem)) : List (List (BitVec 64 × Bool)) :=
  (forwarded true items).filter fun f => !f.isEmpty

theorem forwarded_left (deaf : Bool) (items : List (Delay × RdmaSeqItem)) :
    LeftOf items (forwarded deaf items) := by
  induction items generalizing deaf with
  | nil => exact List.Forall₂.nil
  | cons item items ih => exact List.Forall₂.cons ⟨_, rfl⟩ (ih _)

theorem heardOf_sent {item : RdmaSeqItem} (h : item.Sendable) :
    heardOf false item.sent ≠ [] ∧
      (heardOf true item.sent).length + 1 = (heardOf false item.sent).length := by
  have hpos := h.1
  have hlen := length_sent item
  constructor
  · rw [← List.length_pos_iff]
    exact hlen.symm ▸ hpos
  · rw [heardOf, if_pos rfl, List.length_tail]
    exact Nat.sub_add_cancel (hlen.symm ▸ hpos)

theorem forwarded_at_edge {d : Delay} {item : RdmaSeqItem} (h : item.Sendable) (hd : d.AtEdge)
    (items : List (Delay × RdmaSeqItem)) :
    forwarded true ((d, item) :: items) = item.sent :: forwarded true items := by
  have hne : (!(heardOf false item.sent).isEmpty) = true := by
    simp [(heardOf_sent h).1]
  rw [forwarded, at_edge_iff.mp hd, hne]
  rfl

theorem all_forwarded_iff (hs : ∀ item ∈ items, item.2.Sendable) :
    (forwarded true items).flatten.length = (items.map fun item => item.2.beats.toNat).sum ↔
      ∀ item ∈ items, item.1.AtEdge := by
  induction items with
  | nil => simp [forwarded]
  | cons item items ih =>
    obtain ⟨d, item⟩ := item
    have hitem : item.Sendable := hs _ List.mem_cons_self
    have hrest := ih fun i hi => hs i (List.mem_cons_of_mem _ hi)
    rw [List.forall_mem_cons, List.map_cons, List.sum_cons]
    by_cases hd : d.AtEdge
    · rw [forwarded_at_edge hitem hd, List.flatten_cons, List.length_append, length_sent,
        Nat.add_left_cancel_iff, hrest]
      exact (and_iff_right hd).symm
    · have hlate : (d.between || (true && d.edges == 0)) = true := by
        rwa [at_edge_iff, Bool.not_eq_false] at hd
      have hle := (forwarded_left (!(heardOf true item.sent).isEmpty) items).length_le
      have hshort := (heardOf_sent hitem).2
      have hlen : (heardOf false item.sent).length = item.beats.toNat := length_sent item
      rw [forwarded, hlate, List.flatten_cons, List.length_append]
      simp only [hd, false_and, iff_false]
      omega

theorem forwarded_at_edges (hs : ∀ item ∈ items, item.2.Sendable)
    (h : ∀ item ∈ items, item.1.AtEdge) :
    forwarded true items = items.map fun item => item.2.sent := by
  induction items with
  | nil => rfl
  | cons item items ih =>
    rw [List.forall_mem_cons] at hs h
    rw [forwarded_at_edge hs.1 h.1, ih hs.2 h.2, List.map_cons]

/-- An item that is not waited for comes right behind what is heard of the item before. -/
def Clear (a b : (Delay × RdmaSeqItem) × List (BitVec 64 × Bool)) : Prop :=
  b.1.1 = ⟨0, false⟩ → a.2 = []

instance (a b : (Delay × RdmaSeqItem) × List (BitVec 64 × Bool)) : Decidable (Clear a b) :=
  inferInstanceAs (Decidable (_ → _))

def NoneBehind (items : List (Delay × RdmaSeqItem)) : Prop :=
  (items.zip (heard true items)).IsChain Clear

def NoneBehindFrom (deaf : Bool) (items : List (Delay × RdmaSeqItem)) : Prop :=
  (deaf = true → ∀ item ∈ items.head?, item.1 ≠ ⟨0, false⟩) ∧
    (items.zip (heard false items)).IsChain Clear

theorem clear_cons (item : Delay × RdmaSeqItem) (f : List (BitVec 64 × Bool))
    (items : List (Delay × RdmaSeqItem)) :
    ((item, f) :: items.zip (heard false items)).IsChain Clear ↔
      NoneBehindFrom (!f.isEmpty) items := by
  cases items with
  | nil => simp [NoneBehindFrom, heard]
  | cons next items =>
    obtain ⟨d, next⟩ := next
    rw [NoneBehindFrom, heard, List.zip_cons_cons, List.isChain_cons_cons]
    apply and_congr_left'
    cases f with
    | nil => simp [Clear]
    | cons b f => simp [Clear]

/-- A deaf stage misses a first beat if and only if it comes at once. -/
theorem head_forwarded {deaf : Bool} {d : Delay} (h : deaf = true → d ≠ ⟨0, false⟩) :
    (d.between || (deaf && d.edges == 0)) = (d.between || (false && d.edges == 0)) := by
  obtain ⟨edges, between⟩ := d
  cases between with
  | true => rfl
  | false =>
    cases deaf with
    | false => rfl
    | true =>
      have hne : edges ≠ 0 := by
        rintro rfl
        exact h rfl rfl
      simp [hne]

theorem heard_of_none_behind {deaf : Bool} (h : NoneBehindFrom deaf items) :
    forwarded deaf items = heard false items := by
  induction items generalizing deaf with
  | nil => rfl
  | cons item items ih =>
    obtain ⟨d, item⟩ := item
    obtain ⟨hhead, hchain⟩ := h
    have hsame := head_forwarded fun hdeaf => hhead hdeaf _ rfl
    have hrest := ih ((clear_cons _ _ _).mp hchain)
    rw [forwarded, hsame]
    exact congrArg _ hrest

theorem forwarded_length_le (deaf : Bool) (items : List (Delay × RdmaSeqItem)) :
    (forwarded deaf items).flatten.length ≤ (heard false items).flatten.length := by
  induction items generalizing deaf with
  | nil => exact le_rfl
  | cons item items ih =>
    obtain ⟨d, item⟩ := item
    have hhead : (heardOf (d.between || (deaf && d.edges == 0)) item.sent).length ≤
        (heardOf (d.between || (false && d.edges == 0)) item.sent).length := by
      cases d.between with
      | true => exact le_rfl
      | false => exact heardOf_length_le _ item.sent
    rw [forwarded, heard, List.flatten_cons, List.flatten_cons, List.length_append,
      List.length_append]
    exact Nat.add_le_add hhead (ih _)

theorem none_behind_of_length {deaf : Bool} (hs : ∀ item ∈ items, item.2.Sendable)
    (h : (forwarded deaf items).flatten.length = (heard false items).flatten.length) :
    NoneBehindFrom deaf items := by
  induction items generalizing deaf with
  | nil => simp [NoneBehindFrom, heard]
  | cons item items ih =>
    obtain ⟨d, item⟩ := item
    rw [List.forall_mem_cons] at hs
    have hclear : deaf = true → d ≠ ⟨0, false⟩ := by
      rintro rfl rfl
      have hshort : (heardOf true item.sent).length + 1 = (heardOf false item.sent).length :=
        (heardOf_sent hs.1).2
      have hle := forwarded_length_le (!(heardOf true item.sent).isEmpty) items
      have hlen : (heardOf true item.sent ++
          (forwarded (!(heardOf true item.sent).isEmpty) items).flatten).length =
          (heardOf false item.sent ++ (heard false items).flatten).length := h
      rw [List.length_append, List.length_append] at hlen
      omega
    rw [forwarded, head_forwarded hclear, heard, List.flatten_cons, List.flatten_cons,
      List.length_append, List.length_append] at h
    have hrest := ih hs.2 (Nat.add_left_cancel h)
    refine ⟨?_, (clear_cons _ _ _).mpr hrest⟩
    rintro hdeaf i ⟨⟩
    exact hclear hdeaf

/-- The scheduler takes all that the monitor hears exactly when none comes behind another. -/
theorem forwarded_heard_iff (hs : ∀ item ∈ items, item.2.Sendable) :
    ((forwarded true items).flatten.length = (heard true items).flatten.length ↔
      NoneBehind items) ∧ (NoneBehind items → forwarded true items = heard true items) := by
  cases items with
  | nil => simp [NoneBehind, forwarded, heard]
  | cons item items =>
    obtain ⟨d, item⟩ := item
    rw [List.forall_mem_cons] at hs
    have hbehind := clear_cons (d, item) (heardOf (d.between || (true && d.edges == 0)) item.sent)
      items
    have heq : NoneBehind ((d, item) :: items) →
        forwarded true ((d, item) :: items) = heard true ((d, item) :: items) := by
      intro h
      exact congrArg _ (heard_of_none_behind (hbehind.mp h))
    refine ⟨⟨?_, fun h => by rw [heq h]⟩, heq⟩
    intro h
    rw [forwarded, heard, List.flatten_cons, List.flatten_cons, List.length_append,
      List.length_append] at h
    exact hbehind.mpr (none_behind_of_length hs.2 (Nat.add_left_cancel h))

end Compared

theorem sch2tx_forwarded {items : List (Delay × RdmaSeqItem)}
    (hs : ∀ item ∈ items, item.2.Sendable) {ins : ℕ → TopIn}
    (hrx : ∀ t, (ins t).rx = RxArrivals.rxBus items t) (hhost : ∀ t, (ins t).host.valid = false)
    {n : ℕ} (hn : duration items ≤ n) :
    beatsBefore (sch2tx ins) (n + 2) = (forwarded true items).flatten := by
  have hzero : cycle (schedInput ins 0) = some none := by
    rw [cycle, schedInput_beat, beat_eq_none.mpr (hhost 0), run_rx_zero]
    rfl
  have hsucc : (fun t => cycle (schedInput ins (t + 1))) =
      fun t => cycle (RxArrivals.rxBus items t) := by
    funext t
    rw [cycle, schedInput_beat, beat_eq_none.mpr (hhost (t + 1)), run_rx_succ, hrx]
    rfl
  have hcycles : cyclesBefore (schedInput ins) (n + 1) =
      none :: cyclesBefore (RxArrivals.rxBus items) n := by
    rw [cyclesBefore, valuesBefore_succ', hzero, hsucc]
    rfl
  have htaken := schedOut_taking (schedInput ins) (n + 1)
  rw [hcycles] at htaken
  rw [sch2tx_eq]
  exact (congrArg Taken.values htaken).symm.trans (rxBus_taken hs hn)

/-- With the host idle the scheduler outputs the items in whole packets, each less its first
beat if that came between two edges or right behind a beat it took. They are the items exactly
when each one came at an edge and not at once, and what the reference model predicts exactly
when nothing was heard right behind another packet. -/
theorem rx_items_forwarded (items : List (Delay × RdmaSeqItem))
    (hs : ∀ item ∈ items, item.2.Sendable) (ins : ℕ → TopIn)
    (hrx : ∀ t, (ins t).rx = RxArrivals.rxBus items t) (hhost : ∀ t, (ins t).host.valid = false)
    (n : ℕ) (hn : duration items ≤ n) :
    cut Prod.snd (beatsBefore (sch2tx ins) (n + 2)) = ⟨packetsForwarded items, []⟩ ∧
    (framedTxns (sch2tx ins) (n + 2) = items.map (fun item => item.2.txn) ↔
      ∀ item ∈ items, item.1.AtEdge) ∧
    (framedTxns (sch2tx ins) (n + 2) = (rxPackets (dutIf ins) n).map rmWrite ↔
      NoneBehind items) := by
  have hcut : cut Prod.snd (beatsBefore (sch2tx ins) (n + 2)) = ⟨packetsForwarded items, []⟩ := by
    rw [sch2tx_forwarded hs hrx hhost hn]
    exact (forwarded_left true items).cut hs
  have hout : framedTxns (sch2tx ins) (n + 2) = (packetsForwarded items).map txnOf := by
    rw [framedTxns, hcut]
  have hpred : (rxPackets (dutIf ins) n).map rmWrite = (packetsHeard items).map txnOf := by
    have hid : (rxPackets (dutIf ins) n).map rmWrite = rxPackets (dutIf ins) n :=
      List.map_id'' rmWrite_eq _
    rw [hid]
    exact rxPackets_heard hs (fun _ _ => rfl) hrx hn
  have hwords := words_left (forwarded true items)
  refine ⟨hcut, ?_, ?_⟩
  · rw [hout, ← all_forwarded_iff hs, packetsForwarded]
    constructor
    · intro heq
      rw [← hwords, heq, words_sent]
    · intro hlen
      rw [forwarded_at_edges hs ((all_forwarded_iff hs).mp hlen), packets_all_left hs]
  · rw [hout, hpred, ← (forwarded_heard_iff hs).1, packetsForwarded, packetsHeard]
    constructor
    · intro heq
      rw [← hwords, heq, words_left]
    · intro hlen
      rw [(forwarded_heard_iff hs).2 ((forwarded_heard_iff hs).1.mp hlen)]

def fixedItems : List (Delay × RdmaSeqItem) := inARow ⟨3, false⟩ fixedSeq

def fixedIns (t : ℕ) : TopIn := ⟨⟨false, 0, false⟩, RxArrivals.rxBus fixedItems t, ⟨false, 0⟩⟩

theorem fixed_items_forwarded :
    (packetsForwarded fixedItems).map txnOf =
      [⟨4, [0x1000, 0x1001, 0x1002, 0x1003]⟩, ⟨1, [0x2001]⟩] ∧
    cut Prod.snd (beatsBefore (sch2tx fixedIns) 11) = ⟨packetsForwarded fixedItems, []⟩ ∧
    (framedTxns (sch2tx fixedIns) 11 = fixedItems.map (fun item => item.2.txn) ↔
      ∀ item ∈ fixedItems, item.1.AtEdge) ∧
    (framedTxns (sch2tx fixedIns) 11 = (rxPackets (dutIf fixedIns) 9).map rmWrite ↔
      NoneBehind fixedItems) :=
  ⟨by decide, rx_items_forwarded fixedItems (by decide) fixedIns (fun _ => rfl) (fun _ => rfl) 9
    (by decide)⟩

end RxForwarded
