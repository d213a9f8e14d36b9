import RdmaNic.PacketPlacement

/-! # Delaying a stream and merging two streams by priority

The merge shows the first stream's beat when it has one. It is an interleaving of
both streams exactly when they never have a beat in the same cycle. -/
namespace StreamMerge
open PacketFraming PacketPlacement PlacedPacket

variable {α β : Type*}

/-- `m` holds the elements of `l` and `r`, each list's in its order. -/
inductive Interleaving : List β → List β → List β → Prop where
  | nil : Interleaving [] [] []
  | left {l r m} (b : β) : Interleaving l r m → Interleaving (l ++ [b]) r (m ++ [b])
  | right {l r m} (b : β) : Interleaving l r m → Interleaving l (r ++ [b]) (m ++ [b])

theorem Interleaving.length {l r m : List β} (h : Interleaving l r m) :
    m.length = l.length + r.length := by
  induction h with
  | nil => rfl
  | left b _ ih => simp only [List.length_append, ih]; omega
  | right b _ ih => simp only [List.length_append, ih]; omega

def priority (f g : ℕ → Option β) (t : ℕ) : Option β := (f t).or (g t)

def Collide (f g : ℕ → Option β) (t : ℕ) : Prop := (f t).isSome = true ∧ (g t).isSome = true

theorem priority_interleaving {f g : ℕ → Option β} {n : ℕ} (h : ∀ t < n, ¬ Collide f g t) :
    Interleaving (valuesBefore f n) (valuesBefore g n) (valuesBefore (priority f g) n) := by
  induction n with
  | zero => exact .nil
  | succ n ih =>
    have ih := ih fun t ht => h t (by omega)
    have hn := h n (by omega)
    rw [valuesBefore_succ, valuesBefore_succ, valuesBefore_succ]
    simp only [Collide] at hn
    cases hf : f n with
    | none => cases hg : g n with
      | none => simpa [priority, hf, hg] using ih
      | some b => simpa [priority, hf, hg] using ih.right b
    | some a => cases hg : g n with
      | none => simpa [priority, hf, hg] using ih.left a
      | some b => exact absurd ⟨by rw [hf]; rfl, by rw [hg]; rfl⟩ hn

theorem priority_length (f g : ℕ → Option β) (n : ℕ) :
    (valuesBefore (priority f g) n).length ≤
      (valuesBefore f n).length + (valuesBefore g n).length ∧
    ((valuesBefore (priority f g) n).length =
      (valuesBefore f n).length + (valuesBefore g n).length → ∀ t < n, ¬ Collide f g t) := by
  induction n with
  | zero => exact ⟨le_rfl, fun _ t ht => by omega⟩
  | succ n ih =>
    have hstep : (priority f g n).toList.length ≤ (f n).toList.length + (g n).toList.length ∧
        ((priority f g n).toList.length = (f n).toList.length + (g n).toList.length →
          ¬ Collide f g n) := by
      cases hf : f n <;> cases hg : g n <;> simp [priority, Collide, hf, hg]
    simp only [valuesBefore_succ, List.length_append]
    refine ⟨by omega, fun hl t ht => ?_⟩
    rcases Nat.lt_succ_iff_lt_or_eq.mp ht with ht | rfl
    · exact ih.2 (by omega) t ht
    · exact hstep.2 (by omega)

theorem priority_interleaving_iff (f g : ℕ → Option β) (n : ℕ) :
    Interleaving (valuesBefore f n) (valuesBefore g n) (valuesBefore (priority f g) n) ↔
      ∀ t < n, ¬ Collide f g t :=
  ⟨fun h => (priority_length f g n).2 h.length, priority_interleaving⟩

theorem carries_priority {f g : ℕ → Option (α × Bool)} {ps qs : List (PlacedPacket α)}
    (hf : Carries f ps) (hg : Carries g qs) (h : ∀ t, ¬ Collide f g t) :
    Carries (priority f g) (ps ++ qs) := by
  intro t b
  have hor : priority f g t = some b ↔ f t = some b ∨ g t = some b := by
    have ht := h t
    simp only [Collide] at ht
    cases hft : f t <;> cases hgt : g t <;> simp_all [priority]
  rw [hor, hf t b, hg t b]
  simp only [List.mem_append, or_and_right, exists_or]

theorem carries_delay {f g : ℕ → Option (α × Bool)} {ps : List (PlacedPacket α)}
    (hf : Carries f ps) (h0 : g 0 = none) (hs : ∀ t, g (t + 1) = f t) :
    Carries g (ps.map (shift 1)) := by
  intro t b
  simp only [List.mem_map, exists_exists_and_eq_and, mem_stamped_shift]
  cases t with
  | zero =>
    rw [h0]
    constructor
    · intro h; cases h
    · intro h
      rcases h with ⟨p, _, u, hu, _⟩
      omega
  | succ t =>
    rw [hs, hf t b]
    refine exists_congr fun p => and_congr_right fun _ => ?_
    constructor
    · intro h; exact ⟨t, rfl, h⟩
    · intro h
      rcases h with ⟨u, hu, hm⟩
      obtain rfl : t = u := by omega
      exact hm

theorem no_collision_of_apart {f g : ℕ → Option (α × Bool)} {ps qs : List (PlacedPacket α)}
    (hf : Carries f ps) (hg : Carries g qs) (h : ∀ p ∈ ps, ∀ q ∈ qs, Apart 0 p q) (t : ℕ) :
    ¬ Collide f g t := by
  intro h
  rcases h with ⟨hft, hgt⟩
  obtain ⟨b, hb⟩ := Option.isSome_iff_exists.mp hft
  obtain ⟨c, hc⟩ := Option.isSome_iff_exists.mp hgt
  obtain ⟨p, hp, hpm⟩ := (hf t b).mp hb
  obtain ⟨q, hq, hqm⟩ := (hg t c).mp hc
  exact apart_no_common_cycle (h p hp q hq) hpm hqm

end StreamMerge
