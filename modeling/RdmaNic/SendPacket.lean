import RdmaNic.ClockingBlock
import RdmaNic.RdmaMonitor

/-! # One packet of `rdma_driver` on the rx port

Its beats are shown one a cycle, and the last drive meets whatever comes at that edge, which
wins. So do the first two beats if the packet starts between two edges. -/
namespace RdmaDriver
open ClockingBlock PacketFraming PortSignals RdmaMonitor

structure RdmaSeqItem where
  beats : BitVec 32
  base : BitVec 64
  deriving DecidableEq, Repr

/-- `send_packet`, whose parameter `beats` is a signed `int`. -/
def sendPacket (beats : BitVec 32) (base : BitVec 64) : List (Op PortCycle) :=
  ((List.range beats.toInt.toNat).flatMap fun i =>
    [.drive fun _ => ⟨true, base + BitVec.ofNat 64 i, decide (BitVec.ofNat 32 i = beats - 1)⟩,
      .waitEdge]) ++ [.drive PortCycle.low]

namespace RdmaSeqItem

def Sendable (item : RdmaSeqItem) : Prop := 1 ≤ item.beats.toNat ∧ item.beats.toNat < 2 ^ 31

instance (item : RdmaSeqItem) : Decidable item.Sendable := inferInstanceAs (Decidable (_ ∧ _))

def sent (item : RdmaSeqItem) : List (BitVec 64 × Bool) :=
  (List.range item.beats.toNat).map fun i =>
    (item.base + BitVec.ofNat 64 i, decide (i + 1 = item.beats.toNat))

def txn (item : RdmaSeqItem) : RdmaTxn :=
  ⟨item.beats, (List.range item.beats.toNat).map fun i => item.base + BitVec.ofNat 64 i⟩

@[simp] theorem length_sent (item : RdmaSeqItem) : item.sent.length = item.beats.toNat := by
  simp [sent]

theorem txnOf_sent (item : RdmaSeqItem) : txnOf item.sent = item.txn := by
  simp [txnOf, txn, sent]

theorem sent_closed {item : RdmaSeqItem} (h : item.Sendable) : ClosedFrame Prod.snd item.sent := by
  obtain ⟨k, hk⟩ := Nat.exists_eq_add_of_le' h.1
  refine ⟨(List.range k).map fun i => (item.base + BitVec.ofNat 64 i, false),
    (item.base + BitVec.ofNat 64 k, true), ?_, rfl, ?_⟩
  · rw [sent, hk, List.range_succ, List.map_append]
    congr 1
    · apply List.map_congr_left
      intro i hi
      have hne : ¬ i + 1 = k + 1 := by
        have := List.mem_range.mp hi
        omega
      simp only [hne, decide_false]
    · simp
  · intro x hx
    obtain ⟨i, _, rfl⟩ := List.mem_map.mp hx
    rfl

end RdmaSeqItem

open RdmaSeqItem

def beatCycle (b : BitVec 64 × Bool) : PortCycle := .ofBeat (some b)

theorem sendPacket_eq {item : RdmaSeqItem} (h : item.Sendable) :
    sendPacket item.beats item.base = play (item.sent.map beatCycle) ++ [.drive PortCycle.low] := by
  have hint : item.beats.toInt.toNat = item.beats.toNat := by
    have := h.2
    rw [BitVec.toInt_eq_toNat_cond]
    simp only [show 2 * item.beats.toNat < 2 ^ 32 by omega, if_true, Int.toNat_natCast]
  rw [sendPacket, hint, play, sent, List.map_map, List.flatMap_map]
  congr 1
  apply List.flatMap_congr
  intro i hi
  have hi := List.mem_range.mp hi
  have hlast : BitVec.ofNat 32 i = item.beats - 1 ↔ i + 1 = item.beats.toNat := by
    have := h.1
    bv_omega
  simp only [hlast]
  rfl

section Packet
variable {β : Type*} {view : PortCycle → Option β} {bus : PortCycle} {item : RdmaSeqItem}

theorem exists_first (h : item.Sendable) : ∃ b bs, item.sent = b :: bs := by
  apply List.exists_cons_of_length_pos
  rw [length_sent]
  exact h.1

theorem shown_packet (h : item.Sendable) (bus : PortCycle) (rest : List (Op PortCycle)) (n : ℕ) :
    ∃ bus', bus'.valid = false ∧
      (⟨bus, [], sendPacket item.beats item.base ++ rest⟩ : Proc PortCycle).shown view
        (item.beats.toNat + n) = (item.sent.map beatCycle).filterMap view ++
          (⟨bus', [], rest⟩ : Proc PortCycle).shown view n := by
  obtain ⟨bus', hshown⟩ := @shown_play _ _ view (.drive PortCycle.low :: rest)
    (item.sent.map beatCycle) bus n
  refine ⟨bus'.low, rfl, ?_⟩
  rw [List.length_map, length_sent, shown_drive] at hshown
  rw [sendPacket_eq h, List.append_assoc]
  exact hshown

theorem shown_packet_between (h : item.Sendable) (bus : PortCycle) (rest : List (Op PortCycle))
    (n : ℕ) : ∃ bus', bus'.valid = false ∧
      (⟨bus, [], .waitBetween :: (sendPacket item.beats item.base ++ rest)⟩ :
        Proc PortCycle).shown view (item.beats.toNat + n) =
      (view bus).toList ++ ((item.sent.tail.map beatCycle).filterMap view ++
        (⟨bus', [], rest⟩ : Proc PortCycle).shown view n) := by
  obtain ⟨b, bs, hsent⟩ := exists_first h
  have hlen : item.beats.toNat + n = bs.length + n + 1 := by
    have hbeats := length_sent item
    rw [hsent, List.length_cons] at hbeats
    omega
  have hprog : sendPacket item.beats item.base ++ rest = .drive (fun _ => beatCycle b) ::
      .waitEdge :: (play (bs.map beatCycle) ++ .drive PortCycle.low :: rest) := by
    rw [sendPacket_eq h, hsent, List.append_assoc]
    rfl
  obtain ⟨bus', hshown⟩ := @shown_play _ _ view (.drive PortCycle.low :: rest)
    (bs.map beatCycle) (beatCycle b) n
  have hstart := @shown_due _ _ view bus (play (bs.map beatCycle) ++ .drive PortCycle.low :: rest)
    [fun _ => beatCycle b] (bs.length + n)
  refine ⟨bus'.low, rfl, ?_⟩
  rw [List.length_map, shown_drive] at hshown
  rw [hlen, shown_waitBetween, hprog, hsent]
  exact congrArg ((view bus).toList ++ ·) (hstart.trans hshown)

theorem beats_of_cycles (l : List (BitVec 64 × Bool)) :
    (l.map beatCycle).filterMap PortCycle.beat = l := by
  have hbeat : PortCycle.beat ∘ beatCycle = some := funext fun b => beat_ofBeat (some b)
  rw [List.filterMap_map, hbeat, List.filterMap_some]

theorem shown_beats_between (h : item.Sendable) (hlow : bus.valid = false)
    (rest : List (Op PortCycle)) (n : ℕ) : ∃ bus', bus'.valid = false ∧
      (⟨bus, [], .waitBetween :: (sendPacket item.beats item.base ++ rest)⟩ :
        Proc PortCycle).shown PortCycle.beat (item.beats.toNat + n) =
      item.sent.tail ++ (⟨bus', [], rest⟩ : Proc PortCycle).shown PortCycle.beat n := by
  obtain ⟨bus', hlow', hshown⟩ := @shown_packet_between _ PortCycle.beat _ h bus rest n
  rw [beat_eq_none.mpr hlow, beats_of_cycles] at hshown
  exact ⟨bus', hlow', hshown⟩

theorem shown_beats_at_edge (h : item.Sendable) (bus : PortCycle) (rest : List (Op PortCycle))
    (n : ℕ) : ∃ bus', bus'.valid = false ∧
      (⟨bus, [], sendPacket item.beats item.base ++ rest⟩ : Proc PortCycle).shown PortCycle.beat
        (item.beats.toNat + n) =
      item.sent ++ (⟨bus', [], rest⟩ : Proc PortCycle).shown PortCycle.beat n := by
  obtain ⟨bus', hlow, hshown⟩ := @shown_packet _ PortCycle.beat _ h bus rest n
  rw [beats_of_cycles] at hshown
  exact ⟨bus', hlow, hshown⟩

end Packet

end RdmaDriver
