import RdmaNic.RdmaTop
import RdmaNic.StreamSegments

/-! # The monitor `rdma_monitor` and the reference model `rdma_rm`

Each monitor thread gathers the valid beats of its port and publishes a transaction at
every last beat. Over a run it publishes the frames of the beats it has seen, and a reset
makes it forget the open one. -/
namespace RdmaMonitor
open PacketFraming PacketPlacement PlacedPacket PortSignals StreamSegments RdmaTop

@[ext] structure RdmaTxn where
  beats : BitVec 32
  dataQ : List (BitVec 64)
  deriving DecidableEq, Repr

def RdmaTxn.create : RdmaTxn := ⟨0, []⟩

structure RdmaIf where
  rstN : Bool
  rx : PortCycle
  tx : PortCycle
  deriving DecidableEq, Repr

/-- A thread's open transaction and what it has written to its analysis port. -/
structure Thread where
  t : RdmaTxn
  published : List RdmaTxn
  deriving DecidableEq, Repr

/-- The loop body of both threads: the new open transaction and the one it publishes. -/
def onPosedge (t : RdmaTxn) (rstN : Bool) (c : PortCycle) : RdmaTxn × Option RdmaTxn :=
  if rstN then
    if c.valid then
      let dataQ := t.dataQ ++ [c.data]
      if c.last then (.create, some ⟨.ofNat 32 dataQ.length, dataQ⟩)
      else ({ t with dataQ := dataQ }, none)
    else (t, none)
  else (.create, none)

def Thread.posedge (s : Thread) (rstN : Bool) (c : PortCycle) : Thread :=
  let r := onPosedge s.t rstN c
  ⟨r.1, s.published ++ r.2.toList⟩

def collect (rstN : ℕ → Bool) (port : ℕ → PortCycle) : ℕ → Thread
  | 0 => ⟨.create, []⟩
  | n + 1 => (collect rstN port n).posedge (rstN n) (port n)

def collectRx (vif : ℕ → RdmaIf) : ℕ → Thread :=
  collect (fun t => (vif t).rstN) (fun t => (vif t).rx)

def collectTx (vif : ℕ → RdmaIf) : ℕ → Thread :=
  collect (fun t => (vif t).rstN) (fun t => (vif t).tx)

def rxPackets (vif : ℕ → RdmaIf) (n : ℕ) : List RdmaTxn := (collectRx vif n).published

def txPackets (vif : ℕ → RdmaIf) (n : ℕ) : List RdmaTxn := (collectTx vif n).published

/-- A thread has published what the loop body gave it in each cycle. -/
theorem published_values (rstN : ℕ → Bool) (port : ℕ → PortCycle) (n : ℕ) :
    (collect rstN port n).published =
      valuesBefore (fun t => (onPosedge (collect rstN port t).t (rstN t) (port t)).2) n := by
  induction n with
  | zero => rfl
  | succ n ih =>
    rw [valuesBefore_succ, ← ih]
    rfl

def rmWrite (rx : RdmaTxn) : RdmaTxn := { RdmaTxn.create with beats := rx.beats, dataQ := rx.dataQ }

theorem rmWrite_eq (rx : RdmaTxn) : rmWrite rx = rx := rfl

def txnOf (f : List (BitVec 64 × Bool)) : RdmaTxn := ⟨.ofNat 32 f.length, f.map Prod.fst⟩

def threadOf (c : Cut (BitVec 64 × Bool)) : Thread :=
  ⟨⟨0, c.rest.map Prod.fst⟩, c.frames.map txnOf⟩

theorem posedge_idle (s : Thread) {c : PortCycle} (hv : c.valid = false) :
    s.posedge true c = s := by
  simp [Thread.posedge, onPosedge, hv]

theorem posedge_beat (k : Cut (BitVec 64 × Bool)) {c : PortCycle} (hv : c.valid = true) :
    (threadOf k).posedge true c = threadOf (cutStep Prod.snd k (c.data, c.last)) := by
  by_cases hl : c.last = true
  · simp [Thread.posedge, onPosedge, threadOf, cutStep, txnOf, RdmaTxn.create, hv, hl]
  · simp [Thread.posedge, onPosedge, threadOf, cutStep, hv, hl]

theorem posedge_reset (k : Cut (BitVec 64 × Bool)) (c : PortCycle) :
    (threadOf k).posedge false c = threadOf ⟨k.frames, []⟩ := by
  simp [Thread.posedge, onPosedge, threadOf, RdmaTxn.create]

/-- A thread's state is the cut of the cycles its port has shown. -/
theorem collect_eq_cutCycles (rstN : ℕ → Bool) (port : ℕ → PortCycle) (n : ℕ) :
    collect rstN port n = threadOf
      (cutCycles (fun t => !rstN t) (fun t => (port t).beat) Prod.snd (List.range n)) := by
  induction n with
  | zero => rfl
  | succ n ih =>
    rw [collect, ih, List.range_succ, cutCycles_concat, cycleStep]
    by_cases hr : rstN n = true
    · simp only [hr, Bool.not_true, Bool.false_eq_true, if_false]
      by_cases hv : (port n).valid = true
      · rw [beat_eq_some.mpr ⟨hv, rfl, rfl⟩]
        exact posedge_beat _ hv
      · rw [Bool.not_eq_true] at hv
        rw [beat_eq_none.mpr hv]
        exact posedge_idle _ hv
    · rw [Bool.not_eq_true] at hr
      simp only [hr, Bool.not_false, if_true]
      exact posedge_reset _ _

theorem collect_eq_cut {rstN : ℕ → Bool} (port : ℕ → PortCycle) {n : ℕ}
    (hr : ∀ t < n, rstN t = true) :
    collect rstN port n = threadOf (cut Prod.snd (beatsBefore port n)) := by
  rw [collect_eq_cutCycles, cutCycles_of_no_reset]
  · rfl
  · intro t ht
    rw [hr t (List.mem_range.mp ht), Bool.not_true]

/-- The packets of a port before cycle `n`, each beat with its cycle: the cycles are split
at the resets and every stretch is cut after its last beats, its open frame dropped. -/
def portFrames (port : RdmaIf → PortCycle) (vif : ℕ → RdmaIf) (n : ℕ) :
    List (List (ℕ × BitVec 64 × Bool)) :=
  reassembled (fun t => !(vif t).rstN) (fun t => (port (vif t)).beat.map (t, ·)) lastFlag
    (List.range n)

theorem portFrames_sorted (port : RdmaIf → PortCycle) (vif : ℕ → RdmaIf) (n : ℕ) :
    Sorted (portFrames port vif n).flatten :=
  (eventsBefore_sorted (fun t => (port (vif t)).beat) n).sublist (reassembled_sublist _)

theorem portFrames_ne_nil {port : RdmaIf → PortCycle} {vif : ℕ → RdmaIf} {n : ℕ}
    {f : List (ℕ × BitVec 64 × Bool)} (hf : f ∈ portFrames port vif n) : f ≠ [] := by
  obtain ⟨body, b, rfl, _⟩ := reassembled_closed _ f hf
  exact List.append_ne_nil_of_right_ne_nil body (List.cons_ne_nil b [])

theorem collect_published (port : RdmaIf → PortCycle) (vif : ℕ → RdmaIf) (n : ℕ) :
    (collect (fun t => (vif t).rstN) (fun t => port (vif t)) n).published =
      (portFrames port vif n).map fun f => txnOf (f.map Prod.snd) := by
  have hunstamped : (fun t => (port (vif t)).beat) =
      fun t => ((port (vif t)).beat.map (t, ·)).map Prod.snd := by
    funext t
    cases (port (vif t)).beat <;> rfl
  rw [collect_eq_cutCycles, threadOf, cutCycles_frames, hunstamped, reassembled_map, List.map_map]
  rfl

theorem txnOf_beats {f : List (BitVec 64 × Bool)} (hf : f ≠ []) :
    (txnOf f).beats = .ofNat 32 (txnOf f).dataQ.length ∧
      ((txnOf f).dataQ.length < 2 ^ 32 → (txnOf f).beats.toNat = (txnOf f).dataQ.length) ∧
      1 ≤ (txnOf f).dataQ.length := by
  simp only [txnOf, List.length_map]
  refine ⟨trivial, ?_, List.length_pos_iff.mpr hf⟩
  intro hlt
  exact Nat.mod_eq_of_lt hlt

/-- Each thread publishes exactly the packets of its port, none of them empty. No two of
them share a beat: the beats of all, in a row, stand in the order of their cycles. -/
theorem published_exact (vif : ℕ → RdmaIf) (n : ℕ) :
    rxPackets vif n = ((portFrames RdmaIf.rx vif n).map fun f => txnOf (f.map Prod.snd)) ∧
    txPackets vif n = ((portFrames RdmaIf.tx vif n).map fun f => txnOf (f.map Prod.snd)) ∧
    (∀ t ∈ rxPackets vif n ++ txPackets vif n, t.beats = .ofNat 32 t.dataQ.length ∧
      (t.dataQ.length < 2 ^ 32 → t.beats.toNat = t.dataQ.length) ∧ 1 ≤ t.dataQ.length) ∧
    Sorted (portFrames RdmaIf.rx vif n).flatten ∧
    Sorted (portFrames RdmaIf.tx vif n).flatten := by
  have hrx : rxPackets vif n = _ := collect_published RdmaIf.rx vif n
  have htx : txPackets vif n = _ := collect_published RdmaIf.tx vif n
  refine ⟨hrx, htx, ?_, portFrames_sorted _ _ _, portFrames_sorted _ _ _⟩
  intro t ht
  rw [hrx, htx, ← List.map_append] at ht
  obtain ⟨f, hf, rfl⟩ := List.mem_map.mp ht
  have hne : f ≠ [] := by
    rcases List.mem_append.mp hf with hf | hf
    · exact portFrames_ne_nil hf
    · exact portFrames_ne_nil hf
  apply txnOf_beats
  rwa [Ne, List.map_eq_nil_iff]

def framedTxns (port : ℕ → PortCycle) (n : ℕ) : List RdmaTxn :=
  (cut Prod.snd (beatsBefore port n)).frames.map txnOf

theorem rxPackets_eq {vif : ℕ → RdmaIf} {n : ℕ} (hr : ∀ t < n, (vif t).rstN = true) :
    rxPackets vif n = framedTxns (fun t => (vif t).rx) n :=
  congrArg Thread.published (collect_eq_cut _ hr)

theorem txPackets_eq {vif : ℕ → RdmaIf} {n : ℕ} (hr : ∀ t < n, (vif t).rstN = true) :
    txPackets vif n = framedTxns (fun t => (vif t).tx) n :=
  congrArg Thread.published (collect_eq_cut _ hr)

theorem framedTxns_carried {port : ℕ → PortCycle} {ps : List Packet} (h : PortCarries port ps)
    (hs : ps.Pairwise (Before 0)) {n : ℕ} (hn : ∀ p ∈ ps, p.last < n) :
    framedTxns port n = ps.map fun p => txnOf p.beats := by
  simp only [framedTxns, beatsBefore]
  rw [carried_packets h hs hn, List.map_map]
  rfl

def dutIf (ins : ℕ → TopIn) (t : ℕ) : RdmaIf := ⟨true, (ins t).rx, txPort ins t⟩

end RdmaMonitor
