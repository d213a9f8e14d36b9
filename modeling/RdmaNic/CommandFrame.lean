import RdmaNic.CommandCapture
import RdmaNic.CommandPath

/-! # What of a command's frame is transmitted

The frame is `{opcode, addr, data[63:0]}`; the port of the transmitter is as wide as its
last part alone. -/
namespace CommandFrame
open DelayedEvents PacketFraming PacketPlacement PlacedPacket PortSignals CmdParser
  CommandCapture RdmaTop CommandPath

structure OneCommand (ins : ℕ → TopIn) (p : ℕ) (cmd : BitVec 256) : Prop where
  valid_iff : ∀ t, (ins t).cmd.valid = true ↔ t = p
  handed : (ins p).cmd.data = cmd
  held : (ins (p + 1)).cmd.data = cmd

def payload (cmd : BitVec 256) : BitVec 64 := (fieldsOf cmd).data.extractLsb' 0 64

def FrameDiffers (cmd cmd' : BitVec 256) : Prop :=
  (fieldsOf cmd).opcode ≠ (fieldsOf cmd').opcode ∨ (fieldsOf cmd).addr ≠ (fieldsOf cmd').addr ∨
    payload cmd ≠ payload cmd'

section Runs
variable {ins : ℕ → TopIn} {p : ℕ} {cmd : BitVec 256}

theorem OneCommand.presented (h : OneCommand ins p cmd) :
    Presented (cmdBus ins) [(p, cmd)] := by
  refine ⟨?_, ?_, ?_⟩
  · intro t
    simp [cmdBus, h.valid_iff, eq_comm]
  · simpa [cmdBus] using h.handed
  · simpa [cmdBus] using h.held

theorem pick_iff (h : OneCommand ins p cmd) (t : ℕ) : Pick (cmdBus ins) t ↔ t = p := by
  have hpick := pick_iff_presented (List.pairwise_singleton _ _) h.presented t
  simpa [eq_comm] using hpick

theorem tx_carries_payload (h : OneCommand ins p cmd) :
    PortCarries (txPort ins) [⟨[], (p + 4, payload cmd), List.pairwise_singleton _ _⟩] := by
  have hpick := pick_iff h
  obtain ⟨hlast, hdata⟩ := tx_beat_at ins ((hpick p).mpr rfl)
  have hpay : payload cmd = (cmdBus ins (p + 1)).data.extractLsb' 0 64 := by
    rw [cmdBus, h.held]
    exact BitVec.extractLsb'_extractLsb'_of_le (by decide)
  intro t b
  constructor
  · intro hb
    obtain ⟨d, l⟩ := b
    obtain ⟨hv, rfl, rfl⟩ := beat_eq_some.mp hb
    obtain ⟨q, rfl, hq⟩ := (tx_follows ins t).mp hv
    obtain rfl := (hpick q).mp hq
    rw [hlast, hdata, ← hpay]
    exact ⟨_, List.mem_singleton_self _, List.mem_singleton_self _⟩
  · intro hb
    rcases hb with ⟨q, hq, hm⟩
    rw [List.mem_singleton.mp hq] at hm
    cases List.mem_singleton.mp hm
    apply beat_eq_some.mpr
    exact ⟨(tx_follows ins _).mpr ⟨p, rfl, (hpick p).mpr rfl⟩, hdata.trans hpay.symm, hlast⟩

theorem tx_beats (h : OneCommand ins p cmd) {n : ℕ} (hn : p + 4 < n) :
    beatsBefore (txPort ins) n = [(payload cmd, true)] := by
  have hev := carried_events (tx_carries_payload h) (List.pairwise_singleton _ _)
    (n := n) (by simpa [last] using hn)
  have hval := eventsBefore_values (fun t => (txPort ins t).beat) n
  rw [hev] at hval
  exact hval.symm

end Runs

/-- Different frames show as different beats exactly when their low halves differ. -/
theorem frames_told_apart_iff (ins ins' : ℕ → TopIn) (p p' : ℕ) (cmd cmd' : BitVec 256)
    (h : OneCommand ins p cmd) (h' : OneCommand ins' p' cmd') (n n' : ℕ) (hn : p + 4 < n)
    (hn' : p' + 4 < n') :
    (FrameDiffers cmd cmd' → beatsBefore (txPort ins) n ≠ beatsBefore (txPort ins') n') ↔
      payload cmd ≠ payload cmd' ∨
        ((fieldsOf cmd).opcode = (fieldsOf cmd').opcode ∧
          (fieldsOf cmd).addr = (fieldsOf cmd').addr) := by
  have hbeats : beatsBefore (txPort ins) n = beatsBefore (txPort ins') n' ↔
      payload cmd = payload cmd' := by
    rw [tx_beats h hn, tx_beats h' hn']
    simp
  simp only [FrameDiffers, ne_eq, hbeats]
  by_cases hpay : payload cmd = payload cmd'
  · simp only [hpay, not_true_eq_false, or_false, imp_false, not_or, not_not, false_or]
  · simp only [hpay, not_false_eq_true, or_true, implies_true, true_or]

def sending (cmd : BitVec 256) (t : ℕ) : TopIn :=
  ⟨⟨false, 0, false⟩, ⟨false, 0, false⟩, ⟨t == 0, cmd⟩⟩

theorem sending_one (cmd : BitVec 256) : OneCommand (sending cmd) 0 cmd :=
  ⟨fun _ => beq_iff_eq, rfl, rfl⟩

theorem payloads_told_apart :
    (FrameDiffers 7 9 →
      beatsBefore (txPort (sending 7)) 5 ≠ beatsBefore (txPort (sending 9)) 5) ↔
      payload 7 ≠ payload 9 ∨ ((fieldsOf 7).opcode = (fieldsOf 9).opcode ∧
        (fieldsOf 7).addr = (fieldsOf 9).addr) :=
  frames_told_apart_iff _ _ 0 0 7 9 (sending_one 7) (sending_one 9) 5 5 (by decide) (by decide)

def opcodeOne : BitVec 256 := 0x0100000000000000000000000000000000000000000000000000000000000007

theorem opcode_not_transmitted :
    OneCommand (sending 7) 0 7 ∧ OneCommand (sending opcodeOne) 0 opcodeOne ∧
    (fieldsOf 7).opcode = 0 ∧ (fieldsOf opcodeOne).opcode = 1 ∧ FrameDiffers 7 opcodeOne ∧
    beatsBefore (txPort (sending 7)) 5 = beatsBefore (txPort (sending opcodeOne)) 5 := by
  have h0 : (fieldsOf 7).opcode = 0 := by decide
  have h1 : (fieldsOf opcodeOne).opcode = 1 := by decide
  refine ⟨sending_one _, sending_one _, h0, h1, ?_, by decide⟩
  apply Or.inl
  rw [h0, h1]
  decide

end CommandFrame
