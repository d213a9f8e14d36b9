import RdmaNic.CommandPath
import RdmaNic.IngressPath
import RdmaNic.RdmaMonitor

/-! # From the ports to what is predicted, to TX and to completions

The prediction knows the rx packets only, while the scheduler emits those of both ports. The
transmitter hears the command parser only, so without commands nothing is sent and nothing
completes, whatever the ports carry. -/
namespace EndToEnd
open DelayedEvents PacketFraming PacketPlacement PlacedPacket StreamMerge PortSignals
  CmdParser RdmaTop IngressPath CommandPath RdmaMonitor

section Runs
variable {ins : ℕ → TopIn}

theorem no_pick (hcmd : ∀ t, (ins t).cmd.valid = false) (t : ℕ) : ¬ Pick (cmdBus ins) t := by
  intro h
  rcases h with ⟨_, hv⟩
  simp only [cmdBus, hcmd, Bool.false_eq_true] at hv

theorem no_tx (hcmd : ∀ t, (ins t).cmd.valid = false) (t : ℕ) : ¬ TxValid ins t := by
  intro h
  obtain ⟨p, _, hp⟩ := (tx_follows ins t).mp h
  exact no_pick hcmd p hp

theorem no_completion (hcmd : ∀ t, (ins t).cmd.valid = false) (t : ℕ) : ¬ CompValid ins t := by
  intro h
  obtain ⟨p, _, hp⟩ := (comp_follows ins t).mp h
  exact no_pick hcmd p hp

theorem txPackets_silent (hcmd : ∀ t, (ins t).cmd.valid = false) (n : ℕ) :
    txPackets (dutIf ins) n = [] := by
  have hcarry : PortCarries (txPort ins) [] := by
    intro t b
    constructor
    · intro h
      exact absurd (beat_eq_some.mp h).1 (no_tx hcmd t)
    · intro h
      rcases h with ⟨p, hp, _⟩
      cases hp
  have htx := @txPackets_eq (dutIf ins) n fun _ _ => rfl
  rw [htx]
  apply framedTxns_carried hcarry
  · exact List.Pairwise.nil
  · intro p hp
    cases hp

theorem rxPackets_carried {ps : List Packet} (hrx : PortCarries (fun t => (ins t).rx) ps)
    (hs : ps.Pairwise (Before 1)) {n : ℕ} (hn : ∀ p ∈ ps, p.last < n) :
    rxPackets (dutIf ins) n = ps.map fun p => txnOf p.beats := by
  have h := @rxPackets_eq (dutIf ins) n fun _ _ => rfl
  rw [h]
  exact framedTxns_carried hrx (hs.imp (before_mono (Nat.zero_le 1))) hn

/-- With the host quiet the scheduler's output is what the reference model predicts: of
the path to TX only the last wire is missing. -/
theorem sch2tx_predicted {ps : List Packet} (hhost : ∀ t, (ins t).host.valid = false)
    (hrx : PortCarries (fun t => (ins t).rx) ps) (hs : ps.Pairwise (Before 1)) {n : ℕ}
    (hn : ∀ p ∈ ps, p.last + 2 < n) :
    framedTxns (sch2tx ins) n = (rxPackets (dutIf ins) n).map rmWrite := by
  have hbeat : ∀ t, (schedInput ins t).beat = (rdmaTop.runHigh ins t).rx.beat := by
    intro t
    rw [schedInput_beat, beat_eq_none.mpr (hhost t), Option.none_or]
  have hmux : PortCarries (schedInput ins) (ps.map (shift 1)) := by
    apply carries_delay hrx
    · rw [hbeat, run_rx_zero]
    · intro t
      rw [hbeat, run_rx_succ]
  have hout : cut Prod.snd (beatsBefore (sch2tx ins) n) = ⟨(ps.map (shift 1)).map beats, []⟩ := by
    apply sch2tx_packets hmux
    · exact List.Pairwise.map _ (fun _ _ => before_shift.mpr) hs
    · intro p hp
      obtain ⟨q, hq, rfl⟩ := List.mem_map.mp hp
      exact hn q hq
  have hlast : ∀ p ∈ ps, p.last < n := fun p hp => (Nat.le_add_right _ 2).trans_lt (hn p hp)
  rw [framedTxns, hout, rxPackets_carried hrx hs hlast, List.map_map, List.map_map, List.map_map]
  apply List.map_congr_left
  intro p _
  exact congrArg txnOf (beats_shift 1 p)

theorem host_idle {traffic : Source → List Packet} (h : Offers ins traffic)
    (hhost : traffic .host = []) (t : ℕ) : (ins t).host.valid = false := by
  have hcarry := h .host
  rw [hhost] at hcarry
  apply beat_eq_none.mp
  apply hcarry.idle_after
  intro p hp
  cases hp

theorem rx_in_order {traffic : Source → List Packet} (ha : (atMux traffic).Pairwise (Apart 1)) :
    (inOrder (traffic .rx)).Pairwise (Before 1) := by
  apply inOrder_before
  have hrx := List.pairwise_map.mp (List.pairwise_append.mp ha).2.1
  exact hrx.imp fun hpq => apart_shift.mp hpq

end Runs

/-- The predicted packets are those the scheduler emits exactly when the host sends none. -/
theorem mixed_traffic_predicted_iff (ins : ℕ → TopIn) (traffic : Source → List Packet)
    (h : Offers ins traffic) (ha : (atMux traffic).Pairwise (Apart 1)) (n : ℕ)
    (hn : ∀ p ∈ atMux traffic, p.last + 1 < n) :
    (rxPackets (dutIf ins) n).map rmWrite = framedTxns (sch2tx ins) n ↔
      traffic .host = [] := by
  have hrx : PortCarries (fun t => (ins t).rx) (inOrder (traffic .rx)) := carries_inOrder (h .rx)
  have hlast : ∀ p ∈ inOrder (traffic .rx), p.last + 2 < n := by
    intro p hp
    exact hn _ (List.mem_append_right _ (List.mem_map_of_mem (mem_inOrder.mp hp)))
  constructor
  · intro heq
    obtain ⟨hmux, hbefore⟩ := mux_in_order h ha
    have hout : cut Prod.snd (beatsBefore (sch2tx ins) n) =
        ⟨(inOrder (atMux traffic)).map beats, []⟩ := by
      apply sch2tx_packets hmux hbefore
      intro p hp
      exact hn p (mem_inOrder.mp hp)
    have hpred := rxPackets_carried hrx (rx_in_order ha)
      fun p hp => (Nat.le_add_right _ 2).trans_lt (hlast p hp)
    have hlen := congrArg List.length heq
    simp only [framedTxns, hout, hpred, List.length_map, inOrder, List.length_mergeSort, atMux,
      List.length_append] at hlen
    apply List.eq_nil_of_length_eq_zero
    omega
  · intro hhost
    exact (sch2tx_predicted (host_idle h hhost) hrx (rx_in_order ha) hlast).symm

theorem apart_traffic_predicted_iff :
    (rxPackets (dutIf (playing apartTraffic)) 8).map rmWrite =
      framedTxns (sch2tx (playing apartTraffic)) 8 ↔ apartTraffic .host = [] :=
  mixed_traffic_predicted_iff _ apartTraffic apart_traffic_offered (by decide) 8 (by decide)

theorem host_packet_not_predicted :
    Offers (playing apartTraffic) apartTraffic ∧ (atMux apartTraffic).Pairwise (Apart 1) ∧
    (∀ p ∈ atMux apartTraffic, p.last + 1 < 8) ∧
    framedTxns (sch2tx (playing apartTraffic)) 8 = [⟨2, [5, 6]⟩, ⟨2, [7, 8]⟩] ∧
    (rxPackets (dutIf (playing apartTraffic)) 8).map rmWrite = [⟨2, [7, 8]⟩] ∧
    (rxPackets (dutIf (playing apartTraffic)) 8).map rmWrite ≠
      framedTxns (sch2tx (playing apartTraffic)) 8 :=
  ⟨apart_traffic_offered, by decide, by decide, by decide, by decide, by decide⟩

/-- The sent packets are the received ones, as the reference model predicts, exactly when
no packet is received. -/
theorem tx_predicted_iff_no_packet (ins : ℕ → TopIn) (ps : List Packet)
    (hcmd : ∀ t, (ins t).cmd.valid = false) (hrx : PortCarries (fun t => (ins t).rx) ps)
    (hs : ps.Pairwise (Before 1)) (n : ℕ) (hn : ∀ p ∈ ps, p.last + 4 < n) :
    (txPackets (dutIf ins) n = rxPackets (dutIf ins) n ∧
      rxPackets (dutIf ins) n = (rxPackets (dutIf ins) n).map rmWrite) ↔ ps = [] := by
  have hpred : (rxPackets (dutIf ins) n).map rmWrite = rxPackets (dutIf ins) n :=
    List.map_id'' rmWrite_eq _
  have hlast : ∀ p ∈ ps, p.last < n := fun p hp => (Nat.le_add_right _ 4).trans_lt (hn p hp)
  rw [hpred, and_iff_left rfl, txPackets_silent hcmd, rxPackets_carried hrx hs hlast, eq_comm]
  exact List.map_eq_nil_iff

def only (src : Source) (ps : List Packet) : Source → List Packet := fun other =>
  if other = src then ps else []

theorem only_offered (src : Source) {ps : List Packet} (hs : ps.Pairwise (Before 0)) :
    Offers (playing (only src ps)) (only src ps) := by
  apply playing_offers
  intro other
  by_cases h : other = src
  · rwa [only, if_pos h]
  · rw [only, if_neg h]
    exact List.Pairwise.nil

def onePacket (src : Source) : Source → List Packet :=
  only src [⟨[(0, 0x1000)], (1, 0x1001), by decide⟩]

theorem one_packet_offered (src : Source) : Offers (playing (onePacket src)) (onePacket src) :=
  only_offered src (by decide)

def twoPackets (src : Source) : Source → List Packet :=
  only src [⟨[(0, 0x1000)], (1, 0x1001), by decide⟩, ⟨[], (3, 0x2000), by decide⟩]

theorem two_packets_offered (src : Source) : Offers (playing (twoPackets src)) (twoPackets src) :=
  only_offered src (by decide)

theorem received_packets_predicted_iff :
    (txPackets (dutIf (playing (twoPackets .rx))) 8 =
        rxPackets (dutIf (playing (twoPackets .rx))) 8 ∧
      rxPackets (dutIf (playing (twoPackets .rx))) 8 =
        (rxPackets (dutIf (playing (twoPackets .rx))) 8).map rmWrite) ↔ twoPackets .rx .rx = [] :=
  tx_predicted_iff_no_packet _ (twoPackets .rx .rx) (fun _ => rfl) (two_packets_offered .rx .rx)
    (by decide) 8 (by decide)

theorem received_packet_not_sent :
    (∀ t, (playing (onePacket .rx) t).host.valid = false) ∧
    (∀ t, (playing (onePacket .rx) t).cmd.valid = false) ∧
    PortCarries (port (playing (onePacket .rx)) .rx) (onePacket .rx .rx) ∧
    (∀ p ∈ onePacket .rx .rx, p.last + 4 < 6) ∧
    rxPackets (dutIf (playing (onePacket .rx))) 6 = [⟨2, [0x1000, 0x1001]⟩] ∧
    txPackets (dutIf (playing (onePacket .rx))) 6 = [] := by
  refine ⟨?_, ?_, one_packet_offered .rx .rx, by decide, by decide, by decide⟩
  · intro t; rfl
  · intro t; rfl

/-- Each host packet completes once and after its last beat exactly when the host sends
no packet. -/
theorem completed_once_iff_no_packet (ins : ℕ → TopIn) (ps : List Packet)
    (hcmd : ∀ t, (ins t).cmd.valid = false) (hhost : PortCarries (fun t => (ins t).host) ps)
    (hs : ps.Pairwise (Before 1)) (n : ℕ) (hn : ∀ p ∈ ps, p.last + 6 < n) :
    (Nat.count (CompValid ins) n = ps.length ∧
      ∀ k p t, ps[k]? = some p → IsNth (CompValid ins) k t → p.last < t) ↔ ps = [] := by
  have hcount : Nat.count (CompValid ins) n = 0 := by
    apply Nat.count_iff_forall_not.mpr
    intro t _
    exact no_completion hcmd t
  rw [hcount]
  constructor
  · intro h
    rcases h with ⟨hlen, _⟩
    exact List.length_eq_zero_iff.mp hlen.symm
  · rintro rfl
    refine ⟨rfl, ?_⟩
    intro k p t _ hk
    exact absurd hk.1 (no_completion hcmd t)

theorem host_packets_completed_iff :
    (Nat.count (CompValid (playing (twoPackets .host))) 10 = (twoPackets .host .host).length ∧
      ∀ k p t, (twoPackets .host .host)[k]? = some p →
        IsNth (CompValid (playing (twoPackets .host))) k t → p.last < t) ↔
      twoPackets .host .host = [] :=
  completed_once_iff_no_packet _ (twoPackets .host .host) (fun _ => rfl)
    (two_packets_offered .host .host) (by decide) 10 (by decide)

theorem host_packet_not_completed :
    (∀ t, (playing (onePacket .host) t).rx.valid = false) ∧
    (∀ t, (playing (onePacket .host) t).cmd.valid = false) ∧
    PortCarries (port (playing (onePacket .host)) .host) (onePacket .host .host) ∧
    (∀ p ∈ onePacket .host .host, p.last + 6 < 8) ∧ (onePacket .host .host).length = 1 ∧
    Nat.count (CompValid (playing (onePacket .host))) 8 = 0 := by
  refine ⟨?_, ?_, one_packet_offered .host .host, by decide, rfl, by decide⟩
  · intro t; rfl
  · intro t; rfl

end EndToEnd
