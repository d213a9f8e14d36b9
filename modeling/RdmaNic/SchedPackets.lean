import RdmaNic.PacketPlacement
import RdmaNic.RdmaSched

/-! # The effect of the scheduler on beats and on packets

Which beats it takes follows from the inputs alone: a valid beat is refused exactly when
the beat before it was a taken last beat. -/
namespace SchedPackets
open ClockedMachine PacketFraming PacketPlacement PlacedPacket PortSignals RdmaSched

abbrev StampedBeat := ℕ × BitVec 64 × Bool

/-- The scheduler takes the beat of this cycle; a reset forgets the beat before. -/
def taken (rstN : ℕ → Bool) (ins : ℕ → PortCycle) : ℕ → Bool
  | 0 => (ins 0).valid
  | t + 1 => (ins (t + 1)).valid && !(rstN t && taken rstN ins t && (ins t).last)

def afterTakenLast (rstN : ℕ → Bool) (ins : ℕ → PortCycle) : ℕ → Bool
  | 0 => false
  | t + 1 => rstN t && taken rstN ins t && (ins t).last

section Beats
variable {rstN : ℕ → Bool} {ins : ℕ → PortCycle}

theorem taken_eq (t : ℕ) :
    taken rstN ins t = ((ins t).valid && !afterTakenLast rstN ins t) := by
  cases t with
  | zero => exact (Bool.and_true _).symm
  | succ t => rfl

theorem accepts_iff_taken {t : ℕ} (ht : rstN t = true) :
    Accepts (rdmaSched.sampled rstN ins t) (ins t) ↔ taken rstN ins t = true := by
  have hused := sampled_invariant rdmaSched _ (by decide) next_state_used rstN ins
  induction t with
  | zero =>
    rw [sampled_zero, taken]
    exact and_iff_left (Or.inl rfl)
  | succ t ih =>
    rw [accepts_of_used (hused (t + 1)), taken, Bool.and_eq_true, Bool.not_eq_true',
      ← Bool.not_eq_true, sampled_succ]
    apply and_congr_right
    intro _
    by_cases hr : rstN t = true
    · simp only [hr, ht, Bool.and_self, if_true, Bool.true_and, Bool.and_eq_true]
      exact not_congr ((next_done_iff _ _).trans (and_congr_left' (ih hr)))
    · simp [hr, rdmaSched]

theorem sampled_out {t : ℕ} (ht : rstN t = true) (hs : rstN (t + 1) = true) :
    (rdmaSched.sampled rstN ins (t + 1)).out.beat =
      if taken rstN ins t then (ins t).beat else none := by
  rw [sampled_succ, ht, hs, Bool.and_self, if_pos rfl, next_beat]
  simp only [accepts_iff_taken ht]

variable (rstN ins) in
/-- What the scheduler keeps of an input packet: the first beat goes if it comes right
after a taken last beat. -/
def remaining (f : List StampedBeat) : List StampedBeat :=
  match f with
  | [] => []
  | e :: rest => if afterTakenLast rstN ins e.1 then rest else e :: rest

def framesOn (port : ℕ → PortCycle) (n : ℕ) : Cut StampedBeat :=
  cut lastFlag (eventsBefore (fun t => (port t).beat) n)

theorem frame_beat {n : ℕ} {f : List StampedBeat} (hf : f ∈ (framesOn ins n).frames)
    {e : StampedBeat} (he : e ∈ f) : e.1 < n ∧ (ins e.1).beat = some e.2 :=
  mem_eventsBefore.mp (mem_of_mem_frame hf he)

/-- Only the first beat of a packet can come right after a last beat. -/
theorem inner_not_after {n : ℕ} {e x : StampedBeat}
    {rest : List StampedBeat} (hf : e :: rest ∈ (framesOn ins n).frames)
    (hx : x ∈ rest) : afterTakenLast rstN ins x.1 = false := by
  have hxn := (frame_beat hf (List.mem_cons_of_mem e hx)).1
  by_contra hafter
  rw [Bool.not_eq_false] at hafter
  obtain ⟨t, b⟩ := x
  cases t with
  | zero => cases hafter
  | succ t =>
    rw [afterTakenLast, taken_eq] at hafter
    simp only [Bool.and_eq_true] at hafter
    have hy : (t, (ins t).data, true) ∈ eventsBefore (fun t => (ins t).beat) n :=
      mem_eventsBefore.mpr ⟨Nat.lt_of_succ_lt hxn, beat_eq_some.mpr ⟨hafter.1.2.1, rfl, hafter.2⟩⟩
    exact inner_not_after_last (eventsBefore_sorted _ n) hf hx hy rfl rfl

theorem remaining_eq_filter {n : ℕ} {f : List StampedBeat}
    (hf : f ∈ (framesOn ins n).frames) :
    f.filter (fun e => taken rstN ins e.1) = remaining rstN ins f := by
  cases f with
  | nil => rfl
  | cons e rest =>
    have hvalid : ∀ x ∈ e :: rest, (ins x.1).valid = true := fun x hx =>
      (beat_eq_some.mp (frame_beat hf hx).2).1
    have hrest : rest.filter (fun e => taken rstN ins e.1) = rest := by
      apply List.filter_eq_self.mpr
      intro x hx
      rw [taken_eq, hvalid x (List.mem_cons_of_mem e hx), inner_not_after hf hx]
      rfl
    rw [List.filter_cons, hrest, remaining, taken_eq, hvalid e List.mem_cons_self]
    cases afterTakenLast rstN ins e.1 <;> rfl

theorem remaining_or (f : List StampedBeat) :
    remaining rstN ins f = f ∨ remaining rstN ins f = f.tail := by
  cases f with
  | nil => exact Or.inl rfl
  | cons e rest =>
    by_cases ha : afterTakenLast rstN ins e.1 = true
    · exact Or.inr (if_pos ha)
    · exact Or.inl (if_neg ha)

theorem remaining_closed {n : ℕ} {f : List StampedBeat}
    (hf : f ∈ (framesOn ins n).frames) (hne : remaining rstN ins f ≠ []) :
    ClosedFrame lastFlag (remaining rstN ins f) := by
  have hc := cut_frames_closed _ _ hf
  rcases @remaining_or rstN ins f with heq | heq
  · rw [heq]
    exact hc
  · rw [heq] at hne ⊢
    cases f with
    | nil => exact absurd rfl hne
    | cons e rest => exact hc.of_cons hne

end Beats

section FromReset
variable (ins : ℕ → PortCycle)

def survivors (n : ℕ) : List (List StampedBeat) :=
  ((framesOn ins n).frames.map (remaining (fun _ => true) ins)).filter (fun f => !f.isEmpty)

theorem schedOut_taken (t : ℕ) : (schedOut ins (t + 1)).beat =
    if taken (fun _ => true) ins t then (ins t).beat else none :=
  @sampled_out (fun _ => true) ins t rfl rfl

theorem schedOut_events {n : ℕ} (h : (framesOn ins n).rest = []) :
    eventsBefore (fun t => (schedOut ins t).beat) (n + 1) =
      (survivors ins n).flatten.map (later 1) := by
  have hin := @cut_flatten_rest _ lastFlag (eventsBefore (fun t => (ins t).beat) n)
  rw [← framesOn, h, List.append_nil] at hin
  have hkept : (framesOn ins n).frames.map
      (fun f => f.filter (fun e => taken (fun _ => true) ins e.1)) =
        (framesOn ins n).frames.map (remaining (fun _ => true) ins) :=
    List.map_congr_left fun f hf => remaining_eq_filter hf
  rw [eventsBefore_delay schedOut_zero fun t _ => schedOut_taken ins t, eventsBefore_filter, ← hin,
    List.filter_flatten, hkept, survivors, List.flatten_filter_not_isEmpty]

theorem survivors_closed (n : ℕ) : ∀ f ∈ survivors ins n, ClosedFrame lastFlag f := by
  intro f hf
  obtain ⟨hf, hne⟩ := List.mem_filter.mp hf
  obtain ⟨g, hg, rfl⟩ := List.mem_map.mp hf
  apply remaining_closed hg
  intro hnil
  simp [hnil] at hne

theorem survivors_of_frames (n : ℕ) : ∃ kept, kept.Sublist (framesOn ins n).frames ∧
    List.Forall₂ (fun f g => g = f ∨ g = f.tail) kept (survivors ins n) := by
  rw [survivors]
  generalize (framesOn ins n).frames = frames
  induction frames with
  | nil => exact ⟨[], List.Sublist.refl _, List.Forall₂.nil⟩
  | cons f frames ih =>
    obtain ⟨kept, hsub, hall⟩ := ih
    have hf := @remaining_or (fun _ => true) ins f
    rw [List.map_cons, List.filter_cons]
    by_cases hne : (!(remaining (fun _ => true) ins f).isEmpty) = true
    · rw [if_pos hne]
      exact ⟨f :: kept, hsub.cons_cons f, hall.cons hf⟩
    · rw [if_neg hne]
      exact ⟨kept, hsub.cons f, hall⟩

/-- The last beat of an omitted packet is not forwarded, so a packet right after it is kept. -/
theorem after_omitted {n : ℕ} {f g : List StampedBeat}
    (hf : f ∈ (framesOn ins n).frames) (hg : g ∈ (framesOn ins n).frames)
    (hnil : remaining (fun _ => true) ins f = []) {e : StampedBeat} (he : e ∈ f)
    (hnext : g.head?.map Prod.fst = some (e.1 + 1)) : g ∈ survivors ins n := by
  have htaken : taken (fun _ => true) ins e.1 = false := by
    rw [← remaining_eq_filter hf, List.filter_eq_nil_iff] at hnil
    exact Bool.eq_false_iff.mpr (hnil e he)
  cases g with
  | nil => cases hnext
  | cons x rest =>
    have hx : x.1 = e.1 + 1 := Option.some_inj.mp hnext
    have hkeep : remaining (fun _ => true) ins (x :: rest) = x :: rest := by
      simp [remaining, hx, afterTakenLast, htaken]
    apply List.mem_filter.mpr
    exact ⟨List.mem_map.mpr ⟨_, hg, hkeep⟩, rfl⟩

/-- Of each packet of a stream of complete ones the scheduler forwards, a cycle later, all
beats but a first one that comes right after a forwarded last beat. -/
theorem packets_after_sched (n : ℕ) (h : (framesOn ins n).rest = []) :
    (∀ t, (schedOut ins (t + 1)).beat =
      if taken (fun _ => true) ins t then (ins t).beat else none) ∧
    framesOn (schedOut ins) (n + 1) = ⟨(survivors ins n).map (List.map (later 1)), []⟩ ∧
    (∃ kept, kept.Sublist (framesOn ins n).frames ∧
      List.Forall₂ (fun f g => g = f ∨ g = f.tail) kept (survivors ins n)) ∧
    (∀ f ∈ (framesOn ins n).frames, ∀ g ∈ (framesOn ins n).frames,
      remaining (fun _ => true) ins f = [] → ∀ e ∈ f,
        g.head?.map Prod.fst = some (e.1 + 1) → g ∈ survivors ins n) := by
  refine ⟨schedOut_taken ins, ?_, survivors_of_frames ins n, ?_⟩
  · have hcut : cut (fun e => lastFlag (later 1 e)) (survivors ins n).flatten =
        ⟨survivors ins n, []⟩ := cut_flatten (survivors_closed ins n)
    rw [framesOn, schedOut_events ins h, cut_map, hcut]
    rfl
  · intro f hf g hg hnil e he
    exact after_omitted ins hf hg hnil he

end FromReset

def burst (t : ℕ) : PortCycle :=
  match t with
  | 0 => ⟨true, 1, true⟩
  | 1 => ⟨true, 2, true⟩
  | 2 => ⟨true, 3, true⟩
  | 3 => ⟨true, 4, false⟩
  | 4 => ⟨true, 5, true⟩
  | _ => ⟨false, 0, false⟩

theorem burst_after_sched :
    survivors burst 5 = [[(0, 1, true)], [(2, 3, true)], [(4, 5, true)]] ∧
    (∀ t, (schedOut burst (t + 1)).beat =
      if taken (fun _ => true) burst t then (burst t).beat else none) ∧
    framesOn (schedOut burst) 6 = ⟨(survivors burst 5).map (List.map (later 1)), []⟩ ∧
    (∃ kept, kept.Sublist (framesOn burst 5).frames ∧
      List.Forall₂ (fun f g => g = f ∨ g = f.tail) kept (survivors burst 5)) ∧
    (∀ f ∈ (framesOn burst 5).frames, ∀ g ∈ (framesOn burst 5).frames,
      remaining (fun _ => true) burst f = [] → ∀ e ∈ f,
        g.head?.map Prod.fst = some (e.1 + 1) → g ∈ survivors burst 5) :=
  ⟨by decide, packets_after_sched burst 5 (by decide)⟩

end SchedPackets
