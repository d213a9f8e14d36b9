import RdmaNic.IngressFate
import RdmaNic.RdmaHostDriver
import RdmaNic.StreamPairing

/-! # The two ports when `rdma_host_driver` drives the host port

The driver leaves a cycle free after each of its beats. So the host never overrides two rx
beats in a row, and the scheduler refuses it only at the end of an rx packet. Resets and the
traffic of the rx port are free. -/
namespace PortContention
open ClockingBlock PortSignals RdmaTop IngressPath StreamPairing RdmaHostDriver IngressFate

variable {rstN : ℕ → Bool} {ins : ℕ → TopIn} {items : List (Delay × RdmaHostSeqItem)}

def RxEnds (rstN : ℕ → Bool) (ins : ℕ → TopIn) (u : ℕ) : Prop :=
  fate rstN ins .rx u = some .forwarded ∧ (port ins .rx u).last = true

instance : DecidablePred (RxEnds rstN ins) := fun _ => inferInstanceAs (Decidable (_ ∧ _))

theorem offered_host (hhost : ∀ t, (ins t).host = hostBus items t) {n : ℕ}
    (hn : duration items ≤ n) : offered ins .host n = (hostBeats items).length := by
  rw [← hostBus_beats items hn, beatsBefore, length_valuesBefore, offered]
  apply (count_shown _ n).symm
  intro t
  rw [Shown, isSome_beat, ← hhost]
  rfl

theorem offered_host_le (hhost : ∀ t, (ins t).host = hostBus items t) (n : ℕ) :
    offered ins .host n ≤ (hostBeats items).length := by
  rw [← offered_host hhost (Nat.le_add_left (duration items) n)]
  exact Nat.count_monotone _ (Nat.le_add_right _ _)

theorem not_overridden_twice (hhost : ∀ t, (ins t).host = hostBus items t) {u : ℕ}
    (h : fate rstN ins .rx u = some .overridden) :
    fate rstN ins .rx (u + 1) ≠ some .overridden := by
  intro h'
  have hv := (overridden_of_fate h).2
  have hv' := (overridden_of_fate h').2
  rw [hhost] at hv hv'
  rw [hostBus_gap items hv] at hv'
  cases hv'

/-- The beat ahead of a refused one of the host is not the host's own. -/
theorem host_refused_iff (hhost : ∀ t, (ins t).host = hostBus items t) (u : ℕ) :
    fate rstN ins .host u = some .refused ↔
      Reaches rstN ins .host u ∧ ∃ v, u = v + 2 ∧ RxEnds rstN ins v := by
  rw [refused_iff]
  apply and_congr_right
  intro hreach
  constructor
  · rintro ⟨src, v, hv, hf, hl⟩
    cases src with
    | host =>
      obtain rfl : v + 1 = u := hv
      have hown : (ins v).host.valid = true := (fate_forwarded.mp hf).1.1
      have hnext : (ins (v + 1)).host.valid = true := hreach.1
      rw [hhost] at hown hnext
      rw [hostBus_gap items hown] at hnext
      cases hnext
    | rx => exact ⟨v, hv.symm, hf, hl⟩
  · rintro ⟨v, rfl, hf, hl⟩
    exact ⟨.rx, v, rfl, hf, hl⟩

theorem host_refused_le (hhost : ∀ t, (ins t).host = hostBus items t) (n : ℕ) :
    tally rstN ins .host .refused (n + 2) ≤ Nat.count (RxEnds rstN ins) n := by
  have hnone : ∀ u < 2, fate rstN ins .host u ≠ some .refused := by
    intro u hu h
    obtain ⟨_, v, rfl, _⟩ := (host_refused_iff hhost u).mp h
    omega
  rw [tally, Nat.add_comm n 2, Nat.count_add, Nat.count_of_forall_not hnone, Nat.zero_add]
  apply Nat.count_mono_left
  intro u _ h
  obtain ⟨_, v, hv, hends⟩ := (host_refused_iff hhost _).mp h
  obtain rfl : u = v := by omega
  exact hends

def twoItems : List (Delay × RdmaHostSeqItem) :=
  [(⟨2, false⟩, ⟨true, 5, true⟩), (⟨0, false⟩, ⟨true, 6, true⟩)]

def busyRx (t : ℕ) : TopIn :=
  ⟨hostBus twoItems t, ⟨true, BitVec.ofNat 64 t, t % 2 == 1⟩, ⟨false, 0⟩⟩

end PortContention
