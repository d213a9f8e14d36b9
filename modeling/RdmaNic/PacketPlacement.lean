import RdmaNic.PacketFraming

/-! # Packets placed on the cycles of a stream

The placement fixes the cycle of each beat, so a packet may have idle cycles inside.
Gaps between packets are idle cycles between the last beat of one and the first of the next. -/
namespace PacketPlacement
open PacketFraming

variable {α : Type*}

/-- A nonempty packet and the cycles of its beats, in increasing order. -/
@[ext] structure PlacedPacket (α : Type*) where
  body : List (ℕ × α)
  final : ℕ × α
  increasing : Sorted (body ++ [final])

def lastFlag (e : ℕ × α × Bool) : Bool := e.2.2

namespace PlacedPacket

def first (p : PlacedPacket α) : ℕ := (p.body.head?.getD p.final).1

def last (p : PlacedPacket α) : ℕ := p.final.1

def stamped (p : PlacedPacket α) : List (ℕ × α × Bool) :=
  p.body.map (fun b => (b.1, b.2, false)) ++ [(p.final.1, p.final.2, true)]

def beats (p : PlacedPacket α) : List (α × Bool) := p.stamped.map Prod.snd

def shift (k : ℕ) (p : PlacedPacket α) : PlacedPacket α where
  body := p.body.map (later k)
  final := later k p.final
  increasing := by
    have h : Sorted ((p.body ++ [p.final]).map (later k)) :=
      List.Pairwise.map _ (fun a b hab => Nat.add_lt_add_right hab k) p.increasing
    simpa using h

theorem stamped_eq (p : PlacedPacket α) :
    p.stamped = (p.body ++ [p.final]).map (fun b => (b.1, b.2, decide (b.1 = p.last))) := by
  have h := p.increasing
  simp only [Sorted, List.pairwise_append, List.mem_singleton, forall_eq] at h
  rw [stamped, List.map_append, List.map_singleton]
  congr 1
  · refine List.map_congr_left fun b hb => ?_
    have hne : ¬ b.1 = p.last := Nat.ne_of_lt (h.2.2 b hb)
    simp only [hne, decide_false]
  · simp [last]

theorem stamped_sorted (p : PlacedPacket α) : Sorted p.stamped := by
  rw [stamped_eq]
  exact List.Pairwise.map _ (fun _ _ h => h) p.increasing

theorem stamped_shift (k : ℕ) (p : PlacedPacket α) :
    (p.shift k).stamped = p.stamped.map (later k) := by
  simp [stamped, shift, later]

theorem beats_shift (k : ℕ) (p : PlacedPacket α) : (p.shift k).beats = p.beats := by
  rw [beats, stamped_shift, List.map_map]
  rfl

theorem mem_stamped_shift {k t : ℕ} {b : α × Bool} {p : PlacedPacket α} :
    (t, b) ∈ (p.shift k).stamped ↔ ∃ u, t = u + k ∧ (u, b) ∈ p.stamped := by
  rw [stamped_shift, List.mem_map]
  constructor
  · intro h
    rcases h with ⟨⟨u, c⟩, hm, he⟩
    simp only [later, Prod.mk.injEq] at he
    obtain ⟨rfl, rfl⟩ := he
    exact ⟨u, rfl, hm⟩
  · intro h
    rcases h with ⟨u, rfl, hm⟩
    exact ⟨_, hm, rfl⟩

theorem shift_zero (p : PlacedPacket α) : p.shift 0 = p :=
  PlacedPacket.ext (List.map_id p.body) rfl

theorem first_shift (k : ℕ) (p : PlacedPacket α) : (p.shift k).first = p.first + k := by
  obtain ⟨body, final, _⟩ := p
  cases body <;> rfl

@[simp] theorem last_shift (k : ℕ) (p : PlacedPacket α) : (p.shift k).last = p.last + k := rfl

theorem stamped_closed (p : PlacedPacket α) : ClosedFrame lastFlag p.stamped := by
  refine ⟨_, _, rfl, rfl, ?_⟩
  intro x hx
  obtain ⟨b, _, rfl⟩ := List.mem_map.mp hx
  rfl

theorem last_mem (p : PlacedPacket α) : (p.last, p.final.2, true) ∈ p.stamped := by
  simp [stamped, last]

theorem first_mem (p : PlacedPacket α) : ∃ b, (p.first, b) ∈ p.stamped := by
  simp only [first, stamped]
  cases p.body with
  | nil => exact ⟨_, List.mem_append_right _ (List.mem_singleton_self _)⟩
  | cons b bs => exact ⟨_, List.mem_append_left _ List.mem_cons_self⟩

theorem within {p : PlacedPacket α} {t : ℕ} {b : α × Bool} (h : (t, b) ∈ p.stamped) :
    p.first ≤ t ∧ t ≤ p.last := by
  have hs := p.increasing
  rw [stamped_eq] at h
  obtain ⟨c, hc, he⟩ := List.mem_map.mp h
  obtain rfl : c.1 = t := congrArg Prod.fst he
  simp only [Sorted, List.pairwise_append, List.mem_singleton, forall_eq] at hs
  rcases List.mem_append.mp hc with hb | hf
  · refine ⟨?_, le_of_lt (hs.2.2 c hb)⟩
    simp only [first]
    cases hl : p.body with
    | nil => rw [hl] at hb; cases hb
    | cons a as =>
      rw [hl] at hb hs
      rcases List.mem_cons.mp hb with rfl | hb
      · exact le_rfl
      · exact le_of_lt ((List.pairwise_cons.mp hs.1).1 c hb)
  · obtain rfl := List.mem_singleton.mp hf
    refine ⟨?_, le_rfl⟩
    simp only [first]
    cases hl : p.body with
    | nil => exact le_rfl
    | cons a as => exact le_of_lt (hs.2.2 a (by rw [hl]; exact List.mem_cons_self))

theorem last_of_flag {p : PlacedPacket α} {t : ℕ} {d : α} (h : (t, d, true) ∈ p.stamped) :
    t = p.last := by
  rw [stamped_eq] at h
  obtain ⟨b, _, he⟩ := List.mem_map.mp h
  simp only [Prod.mk.injEq, decide_eq_true_eq] at he
  exact he.1.symm.trans he.2.2

theorem first_le_last (p : PlacedPacket α) : p.first ≤ p.last := (within p.last_mem).1

end PlacedPacket

open PlacedPacket

/-- `p` ends at least `gap` idle cycles before `q` starts. -/
def Before (gap : ℕ) (p q : PlacedPacket α) : Prop := p.last + gap < q.first

def Apart (gap : ℕ) (p q : PlacedPacket α) : Prop := Before gap p q ∨ Before gap q p

instance (gap : ℕ) (p q : PlacedPacket α) : Decidable (Before gap p q) :=
  inferInstanceAs (Decidable (_ < _))

instance (gap : ℕ) (p q : PlacedPacket α) : Decidable (Apart gap p q) :=
  inferInstanceAs (Decidable (_ ∨ _))

/-- The stream shows the beats of the packets and nothing else. -/
def Carries (f : ℕ → Option (α × Bool)) (ps : List (PlacedPacket α)) : Prop :=
  ∀ t b, f t = some b ↔ ∃ p ∈ ps, (t, b) ∈ p.stamped

theorem apart_symm {gap : ℕ} {p q : PlacedPacket α} (h : Apart gap p q) : Apart gap q p :=
  Or.symm h

instance (gap : ℕ) : Std.Symm (Apart gap : PlacedPacket α → PlacedPacket α → Prop) :=
  ⟨fun _ _ => apart_symm⟩

theorem before_mono {g h : ℕ} (hgh : g ≤ h) {p q : PlacedPacket α} (hb : Before h p q) :
    Before g p q := by
  unfold Before at *
  omega

theorem apart_mono {g h : ℕ} (hgh : g ≤ h) {p q : PlacedPacket α} (ha : Apart h p q) :
    Apart g p q :=
  ha.imp (before_mono hgh) (before_mono hgh)

theorem before_shift {gap k : ℕ} {p q : PlacedPacket α} :
    Before gap (p.shift k) (q.shift k) ↔ Before gap p q := by
  rw [Before, Before, last_shift, first_shift]
  omega

theorem apart_shift {gap k : ℕ} {p q : PlacedPacket α} :
    Apart gap (p.shift k) (q.shift k) ↔ Apart gap p q :=
  or_congr before_shift before_shift

theorem apart_no_common_cycle {gap : ℕ} {p q : PlacedPacket α} (h : Apart gap p q)
    {t : ℕ} {b c : α × Bool} (hp : (t, b) ∈ p.stamped) (hq : (t, c) ∈ q.stamped) : False := by
  have hpw := within hp
  have hqw := within hq
  simp only [Apart, Before] at h
  omega

theorem stamped_flatten_sorted {ps : List (PlacedPacket α)} (h : ps.Pairwise (Before 0)) :
    Sorted (ps.map stamped).flatten := by
  refine List.pairwise_flatten.mpr ⟨?_, ?_⟩
  · intro l hl
    obtain ⟨p, _, rfl⟩ := List.mem_map.mp hl
    exact p.stamped_sorted
  · refine List.Pairwise.map _ ?_ h
    intro p q hpq a ha b hb
    have hpw : a.1 ≤ p.last := (within ha).2
    have hqw : q.first ≤ b.1 := (within hb).1
    simp only [Before] at hpq
    omega

def placedStream (ps : List (PlacedPacket α)) (t : ℕ) : Option (α × Bool) :=
  ((ps.map stamped).flatten.find? (fun e => e.1 == t)).map Prod.snd

theorem placedStream_carries {ps : List (PlacedPacket α)} (h : ps.Pairwise (Before 0)) :
    Carries (placedStream ps) ps := by
  intro t b
  have hmem : (∃ p ∈ ps, (t, b) ∈ p.stamped) ↔ (t, b) ∈ (ps.map stamped).flatten := by
    simp only [List.mem_flatten, List.mem_map, exists_exists_and_eq_and]
  rw [hmem]
  have hs := stamped_flatten_sorted h
  simp only [placedStream]
  generalize (ps.map stamped).flatten = l at hs
  induction l with
  | nil => simp
  | cons e l ih =>
    obtain ⟨u, c⟩ := e
    obtain ⟨hlt, hs⟩ := List.pairwise_cons.mp hs
    by_cases hu : u = t
    · subst hu
      have hnot : (u, b) ∉ l := fun hm => lt_irrefl u (hlt _ hm)
      simp [hnot, eq_comm]
    · have hne : ¬ t = u := fun h => hu h.symm
      simpa [List.find?_cons, hu, hne] using ih hs

section Carried
variable {f : ℕ → Option (α × Bool)} {ps : List (PlacedPacket α)} {n : ℕ}

theorem Carries.idle_after (h : Carries f ps) {t : ℕ} (ht : ∀ p ∈ ps, p.last < t) :
    f t = none := by
  cases hb : f t with
  | none => rfl
  | some b =>
    obtain ⟨p, hp, hm⟩ := (h t b).mp hb
    have := ht p hp
    have := (within hm).2
    omega

theorem carried_events (h : Carries f ps) (hs : ps.Pairwise (Before 0))
    (hn : ∀ p ∈ ps, p.last < n) : eventsBefore f n = (ps.map stamped).flatten := by
  refine sorted_ext (eventsBefore_sorted f n) (stamped_flatten_sorted hs) ?_
  rintro ⟨t, b⟩
  rw [mem_eventsBefore, h t b, List.mem_flatten]
  constructor
  · intro h
    rcases h with ⟨_, p, hp, hm⟩
    exact ⟨_, List.mem_map_of_mem hp, hm⟩
  · intro h
    rcases h with ⟨_, hl, hm⟩
    obtain ⟨p, hp, rfl⟩ := List.mem_map.mp hl
    exact ⟨lt_of_le_of_lt (within hm).2 (hn p hp), p, hp, hm⟩

theorem carried_frames (h : Carries f ps) (hs : ps.Pairwise (Before 0))
    (hn : ∀ p ∈ ps, p.last < n) : cut lastFlag (eventsBefore f n) = ⟨ps.map stamped, []⟩ := by
  rw [carried_events h hs hn]
  refine cut_flatten ?_
  intro l hl
  obtain ⟨p, _, rfl⟩ := List.mem_map.mp hl
  exact p.stamped_closed

/-- The beats of such a stream, cut after each last beat, are the packets. -/
theorem carried_packets (h : Carries f ps) (hs : ps.Pairwise (Before 0))
    (hn : ∀ p ∈ ps, p.last < n) : cut Prod.snd (valuesBefore f n) = ⟨ps.map beats, []⟩ := by
  rw [← eventsBefore_values, cut_map]
  have hc := carried_frames h hs hn
  unfold lastFlag at hc
  rw [hc, List.map_map]
  rfl

end Carried

def inOrder (ps : List (PlacedPacket α)) : List (PlacedPacket α) :=
  ps.mergeSort (fun p q => decide (p.first ≤ q.first))

@[simp] theorem mem_inOrder {ps : List (PlacedPacket α)} {p : PlacedPacket α} :
    p ∈ inOrder ps ↔ p ∈ ps := (List.mergeSort_perm ps _).mem_iff

theorem carries_inOrder {f : ℕ → Option (α × Bool)} {ps : List (PlacedPacket α)}
    (h : Carries f ps) : Carries f (inOrder ps) := by
  intro t b
  simp only [mem_inOrder]
  exact h t b

theorem inOrder_before {gap : ℕ} {ps : List (PlacedPacket α)} (h : ps.Pairwise (Apart gap)) :
    (inOrder ps).Pairwise (Before gap) := by
  have hperm := List.mergeSort_perm ps (fun p q => decide (p.first ≤ q.first))
  have hapart : (inOrder ps).Pairwise (Apart gap) :=
    (hperm.pairwise_iff (fun {_ _} => apart_symm)).mpr h
  have hsort : (inOrder ps).Pairwise (fun p q => p.first ≤ q.first) := by
    have hs := @List.pairwise_mergeSort _ (fun p q : PlacedPacket α => decide (p.first ≤ q.first))
      (fun a b c hab hbc => by simp only [decide_eq_true_eq] at *; omega)
      (fun a b => by simp only [Bool.or_eq_true, decide_eq_true_eq]; omega) ps
    exact hs.imp fun hpq => of_decide_eq_true hpq
  refine hapart.imp₂ (fun p q hpq hle => ?_) hsort
  rcases hpq with hpq | hqp
  · exact hpq
  · have := q.first_le_last
    unfold Before at *
    omega

end PacketPlacement
