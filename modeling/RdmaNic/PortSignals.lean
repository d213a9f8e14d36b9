import RdmaNic.PacketPlacement

/-! # The signals of the ports, as one clock edge samples them

Data and last mean nothing in a cycle whose valid is low. -/
namespace PortSignals
open PacketFraming PacketPlacement

structure PortCycle where
  valid : Bool
  data : BitVec 64
  last : Bool
  deriving DecidableEq, Repr

structure CmdCycle where
  valid : Bool
  data : BitVec 256
  deriving DecidableEq, Repr

abbrev Packet := PlacedPacket (BitVec 64)

def PortCycle.beat (c : PortCycle) : Option (BitVec 64 × Bool) :=
  if c.valid then some (c.data, c.last) else none

def PortCycle.ofBeat : Option (BitVec 64 × Bool) → PortCycle
  | none => ⟨false, 0, false⟩
  | some (d, l) => ⟨true, d, l⟩

/-- `valid <= 0` and `last <= 0`; the data stays. -/
def PortCycle.low (c : PortCycle) : PortCycle := { c with valid := false, last := false }

@[simp] theorem beat_ofBeat (b : Option (BitVec 64 × Bool)) : (PortCycle.ofBeat b).beat = b := by
  cases b <;> rfl

theorem beat_eq_none {c : PortCycle} : c.beat = none ↔ c.valid = false := by
  simp only [PortCycle.beat]
  by_cases hv : c.valid = true <;> simp [hv]

theorem beat_eq_some {c : PortCycle} {d : BitVec 64} {l : Bool} :
    c.beat = some (d, l) ↔ c.valid = true ∧ c.data = d ∧ c.last = l := by
  simp only [PortCycle.beat]
  by_cases hv : c.valid = true <;> simp [hv]

def beatsBefore (port : ℕ → PortCycle) (n : ℕ) : List (BitVec 64 × Bool) :=
  valuesBefore (fun t => (port t).beat) n

def PortCarries (port : ℕ → PortCycle) (ps : List Packet) : Prop :=
  Carries (fun t => (port t).beat) ps

def portOf (ps : List Packet) (t : ℕ) : PortCycle := .ofBeat (placedStream ps t)

theorem portOf_carries {ps : List Packet} (h : ps.Pairwise (Before 0)) :
    PortCarries (portOf ps) ps := by
  simp only [PortCarries, portOf]
  simp only [beat_ofBeat]
  exact placedStream_carries h

end PortSignals
