import RdmaNic.CmdParser

/-! # Which command a pulse of the parser reports

The fields are read from the bus one cycle after the pick, so a pulse reports its own
command as long as the bus still holds it then. -/
namespace CommandCapture
open ClockedMachine DelayedEvents PortSignals CmdParser

/-- The commands appear in their cycles and stay for the next one; no other cycle is valid. -/
structure Presented (cmds : ℕ → CmdCycle) (l : List (ℕ × BitVec 256)) : Prop where
  valid_iff : ∀ t, (cmds t).valid = true ↔ ∃ c ∈ l, c.1 = t
  handed : ∀ c ∈ l, (cmds c.1).data = c.2
  held : ∀ c ∈ l, (cmds (c.1 + 1)).data = c.2

def WellSpaced (l : List (ℕ × BitVec 256)) : Prop := l.Pairwise (fun a b => a.1 + 3 ≤ b.1)

instance (l : List (ℕ × BitVec 256)) : Decidable (WellSpaced l) :=
  inferInstanceAs (Decidable (l.Pairwise _))

section Presentation
variable {cmds : ℕ → CmdCycle} {l : List (ℕ × BitVec 256)}

theorem WellSpaced.apart (hs : WellSpaced l) {a b : ℕ × BitVec 256} (ha : a ∈ l) (hb : b ∈ l)
    (hne : a ≠ b) : a.1 + 3 ≤ b.1 ∨ b.1 + 3 ≤ a.1 := by
  have hor : l.Pairwise (fun a b => a.1 + 3 ≤ b.1 ∨ b.1 + 3 ≤ a.1) := hs.imp Or.inl
  have hsymm : Std.Symm (fun a b : ℕ × BitVec 256 => a.1 + 3 ≤ b.1 ∨ b.1 + 3 ≤ a.1) :=
    ⟨fun _ _ => Or.symm⟩
  exact hor.forall ha hb hne

theorem WellSpaced.eq_of_cycle (hs : WellSpaced l) {a b : ℕ × BitVec 256} (ha : a ∈ l)
    (hb : b ∈ l) (hab : a.1 = b.1) : a = b := by
  by_contra hne
  rcases hs.apart ha hb hne with h | h <;> omega

theorem WellSpaced.spaced (hs : WellSpaced l) (h : Presented cmds l) (n : ℕ) :
    SpacedBefore cmds n := by
  intro t u ht hu htu _
  obtain ⟨a, ha, rfl⟩ := (h.valid_iff t).mp ht
  obtain ⟨b, hb, rfl⟩ := (h.valid_iff u).mp hu
  by_cases hab : a = b
  · rw [hab] at htu
    exact absurd htu (Nat.lt_irrefl _)
  · rcases hs.apart ha hb hab with h | h <;> omega

theorem pick_iff_presented (hs : WellSpaced l) (h : Presented cmds l) (t : ℕ) :
    Pick cmds t ↔ ∃ c ∈ l, c.1 = t := by
  rw [← h.valid_iff]
  constructor
  · exact And.right
  · exact (picked_iff_spaced cmds (t + 1)).mpr (hs.spaced h (t + 1)) t (Nat.lt_succ_self t)

end Presentation

/-- Commands at least three cycles apart give one pulse each, three cycles later and with
their own fields, and there is no other pulse. -/
theorem spaced_commands_delivered (cmds : ℕ → CmdCycle) (l : List (ℕ × BitVec 256))
    (h : Presented cmds l) (hs : WellSpaced l) :
    (∀ c ∈ l, CmdDone cmds (c.1 + 3) ∧
      (cmdParser.runHigh cmds (c.1 + 3)).fields = fieldsOf c.2) ∧
    (∀ t, CmdDone cmds t → ∃! c, c ∈ l ∧ t = c.1 + 3) := by
  have hpick := pick_iff_presented hs h
  constructor
  · intro c hc
    have hp : Pick cmds c.1 := (hpick c.1).mpr ⟨c, hc, rfl⟩
    refine ⟨((cmdDone_follows cmds).at c.1).mpr hp, ?_⟩
    rw [fields_at_pulse cmds hp, h.held c hc]
  · intro t ht
    obtain ⟨p, rfl, hp⟩ := (cmdDone_follows cmds t).mp ht
    obtain ⟨c, hc, rfl⟩ := (hpick p).mp hp
    refine ⟨c, ⟨hc, rfl⟩, ?_⟩
    intro b hb
    apply hs.eq_of_cycle hb.1 hc
    omega

def twoCommands : List (ℕ × BitVec 256) := [(1, 7), (4, 9)]

def twoCommandBus (t : ℕ) : CmdCycle := ⟨t == 1 || t == 4, if t < 3 then 7 else 9⟩

theorem two_commands_presented : Presented twoCommandBus twoCommands := by
  refine ⟨?_, by decide, by decide⟩
  intro t
  simp only [twoCommandBus, Bool.or_eq_true, beq_iff_eq]
  constructor
  · intro h
    rcases h with rfl | rfl
    · exact ⟨(1, 7), List.mem_cons_self, rfl⟩
    · exact ⟨(4, 9), List.mem_cons_of_mem _ List.mem_cons_self, rfl⟩
  · intro h
    rcases h with ⟨c, hc, rfl⟩
    rcases List.mem_cons.mp hc with rfl | hc
    · exact Or.inl rfl
    · rw [List.mem_singleton.mp hc]
      exact Or.inr rfl

theorem two_commands_delivered :
    (∀ c ∈ twoCommands, CmdDone twoCommandBus (c.1 + 3) ∧
      (cmdParser.runHigh twoCommandBus (c.1 + 3)).fields = fieldsOf c.2) ∧
    (∀ t, CmdDone twoCommandBus t → ∃! c, c ∈ twoCommands ∧ t = c.1 + 3) :=
  spaced_commands_delivered twoCommandBus twoCommands two_commands_presented (by decide)

/-- The fields the pulses before `n` report are those on the bus when the command was
handed over, exactly when the bus does not change them in the cycle after. -/
theorem captured_iff_held (cmds : ℕ → CmdCycle) (n : ℕ) :
    (∀ t < n, CmdDone cmds t → ∃ p, t = p + 3 ∧ Pick cmds p ∧ Transfer cmds p ∧
      (cmdParser.runHigh cmds t).fields = fieldsOf (cmds p).data) ↔
    ∀ p, p + 3 < n → Pick cmds p → fieldsOf (cmds (p + 1)).data = fieldsOf (cmds p).data := by
  constructor
  · intro h p hp hpick
    obtain ⟨q, hq, _, _, hf⟩ := h (p + 3) hp (((cmdDone_follows cmds).at p).mpr hpick)
    obtain rfl : p = q := by omega
    rw [← hf, fields_at_pulse cmds hpick]
  · intro h t ht hdone
    obtain ⟨p, rfl, hpick⟩ := (cmdDone_follows cmds t).mp hdone
    refine ⟨p, rfl, hpick, (transfer_iff cmds p).mpr hpick.2, ?_⟩
    rw [fields_at_pulse cmds hpick, h p ht hpick]

def changingBus (t : ℕ) : CmdCycle := ⟨t == 0, if t = 0 then 7 else 9⟩

theorem later_command_captured :
    Transfer changingBus 0 ∧ Pick changingBus 0 ∧ CmdDone changingBus 3 ∧
    (cmdParser.runHigh changingBus 3).fields = fieldsOf 9 ∧
    (cmdParser.runHigh changingBus 3).fields ≠ fieldsOf (changingBus 0).data ∧
    ¬ ∀ t < 4, CmdDone changingBus t → ∃ p, t = p + 3 ∧ Pick changingBus p ∧
      Transfer changingBus p ∧
      (cmdParser.runHigh changingBus t).fields = fieldsOf (changingBus p).data := by
  have hne : (cmdParser.runHigh changingBus 3).fields ≠ fieldsOf (changingBus 0).data := by decide
  refine ⟨by decide, by decide, by decide, by decide, hne, ?_⟩
  intro h
  obtain ⟨p, hp, _, _, hf⟩ := h 3 (by decide) (by decide)
  obtain rfl : 0 = p := by omega
  exact hne hf

end CommandCapture
