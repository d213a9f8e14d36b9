import Mathlib.Data.Nat.Count
import RdmaNic.PacketFraming

/-! # Pairing two streams event by event

The k-th event of one stream goes with the k-th event of the other, wherever they stand. -/
namespace StreamPairing
open PacketFraming

variable {α β : Type*} {f : ℕ → Option α} {g : ℕ → Option β} {n : ℕ}

def Shown (f : ℕ → Option α) (t : ℕ) : Prop := (f t).isSome = true

instance (f : ℕ → Option α) : DecidablePred (Shown f) :=
  fun _ => inferInstanceAs (Decidable (_ = _))

theorem shown_of_eq {t : ℕ} {a : α} (h : f t = some a) : Shown f t :=
  Option.isSome_of_eq_some h

theorem count_shown {P : ℕ → Prop} [DecidablePred P] (h : ∀ t, Shown f t ↔ P t) (n : ℕ) :
    Nat.count (Shown f) n = Nat.count P n := by
  apply le_antisymm
  · exact Nat.count_mono_left fun t _ => (h t).mp
  · exact Nat.count_mono_left fun t _ => (h t).mpr

def paired (f : ℕ → Option α) (g : ℕ → Option β) (n : ℕ) : List ((ℕ × α) × (ℕ × β)) :=
  (eventsBefore f n).zip (eventsBefore g n)

theorem eventsBefore_succ (f : ℕ → Option α) (n : ℕ) :
    eventsBefore f (n + 1) = eventsBefore f n ++ ((f n).map (n, ·)).toList :=
  valuesBefore_succ _ n

theorem length_eventsBefore (f : ℕ → Option α) (n : ℕ) :
    (eventsBefore f n).length = Nat.count (Shown f) n := by
  induction n with
  | zero => rfl
  | succ n ih =>
    rw [eventsBefore_succ, List.length_append, ih, Nat.count_succ]
    cases h : f n <;> simp [Shown, h]

theorem length_valuesBefore (f : ℕ → Option α) (n : ℕ) :
    (valuesBefore f n).length = Nat.count (Shown f) n := by
  rw [← eventsBefore_values, List.length_map, length_eventsBefore]

theorem eventsBefore_prefix (f : ℕ → Option α) {m : ℕ} (h : m ≤ n) :
    eventsBefore f m <+: eventsBefore f n := by
  induction h with
  | refl => exact List.prefix_refl _
  | step _ ih =>
    apply ih.trans
    rw [eventsBefore_succ]
    exact List.prefix_append _ _

theorem getElem?_eventsBefore {k t : ℕ} {a : α} : (eventsBefore f n)[k]? = some (t, a) ↔
    t < n ∧ f t = some a ∧ Nat.count (Shown f) t = k := by
  have hat : t < n ∧ f t = some a →
      (eventsBefore f n)[Nat.count (Shown f) t]? = some (t, a) := by
    intro h
    have hpre : eventsBefore f t ++ [(t, a)] <+: eventsBefore f n := by
      have hsucc := eventsBefore_prefix f (Nat.succ_le_of_lt h.1)
      rwa [Nat.succ_eq_add_one, eventsBefore_succ, h.2] at hsucc
    have hlen : Nat.count (Shown f) t < (eventsBefore f t ++ [(t, a)]).length := by
      simp [length_eventsBefore]
    rw [List.prefix_iff_getElem?.mp hpre _ hlen]
    simp [length_eventsBefore]
  constructor
  · intro h
    have hmem := mem_eventsBefore.mp (List.mem_of_getElem? h)
    refine ⟨hmem.1, hmem.2, ?_⟩
    have hk : k < (eventsBefore f n).length := (List.getElem?_eq_some_iff.mp h).1
    have hnodup : (eventsBefore f n).Nodup :=
      (eventsBefore_sorted f n).imp fun hab heq => absurd (congrArg Prod.fst heq) hab.ne
    exact ((List.getElem?_inj hk hnodup).mp (h.trans (hat hmem).symm)).symm
  · intro h
    rcases h with ⟨ht, ha, rfl⟩
    exact hat ⟨ht, ha⟩

theorem mem_paired {t u : ℕ} {a : α} {b : β} : ((u, a), (t, b)) ∈ paired f g n ↔
    (u < n ∧ f u = some a) ∧ (t < n ∧ g t = some b) ∧
      Nat.count (Shown f) u = Nat.count (Shown g) t := by
  simp only [paired, List.mem_iff_getElem?, List.getElem?_zip_eq_some, getElem?_eventsBefore]
  constructor
  · intro h
    rcases h with ⟨k, ⟨hu, ha, hk⟩, ht, hb, hk'⟩
    exact ⟨⟨hu, ha⟩, ⟨ht, hb⟩, hk.trans hk'.symm⟩
  · intro h
    rcases h with ⟨⟨hu, ha⟩, ⟨ht, hb⟩, hk⟩
    exact ⟨_, ⟨hu, ha, hk⟩, ht, hb, rfl⟩

theorem exists_nth {k : ℕ} (h : k < Nat.count (Shown f) n) :
    ∃ t a, t < n ∧ f t = some a ∧ Nat.count (Shown f) t = k := by
  rw [← length_eventsBefore] at h
  exact ⟨_, _, getElem?_eventsBefore.mp (List.getElem?_eq_getElem h)⟩

/-- No pair spans a barrier exactly when the second stream is not ahead of the first at a
barrier after which the first goes on. -/
theorem paired_within_iff (f : ℕ → Option α) (g : ℕ → Option β) (n : ℕ) (barrier : ℕ → Prop)
    (hf : ∀ r, barrier r → f r = none) :
    (∀ p ∈ paired f g n, ∀ r, p.2.1 < r → r < p.1.1 → ¬ barrier r) ↔
    ∀ r < n, barrier r → (∃ u < n, r < u ∧ Shown f u) →
      Nat.count (Shown g) r ≤ Nat.count (Shown f) r := by
  constructor
  · intro h r _ hr hnext
    obtain ⟨u, hun, hru, hu⟩ := hnext
    by_contra hlt
    rw [Nat.not_le] at hlt
    obtain ⟨t, b, htr, hb, ht⟩ := exists_nth hlt
    have hmore : Nat.count (Shown f) r < Nat.count (Shown f) n :=
      (Nat.count_monotone _ hru.le).trans_lt (Nat.count_strict_mono hu hun)
    obtain ⟨v, a, hvn, ha, hv⟩ := exists_nth hmore
    have hrv : r < v := by
      rcases lt_trichotomy r v with hrv | rfl | hvr
      · exact hrv
      · simp only [hf r hr, reduceCtorEq] at ha
      · exact absurd (Nat.count_strict_mono (shown_of_eq ha) hvr) (by omega)
    have hpair : ((v, a), (t, b)) ∈ paired f g n :=
      mem_paired.mpr ⟨⟨hvn, ha⟩, ⟨htr.trans (hrv.trans hvn), hb⟩, hv.trans ht.symm⟩
    exact h _ hpair r htr hrv hr
  · rintro h ⟨⟨u, a⟩, ⟨t, b⟩⟩ hp r htr hru hr
    obtain ⟨⟨hun, ha⟩, ⟨_, hb⟩, heq⟩ := mem_paired.mp hp
    have hle := h r (hru.trans hun) hr ⟨u, hun, hru, shown_of_eq ha⟩
    have hlt := Nat.count_strict_mono (shown_of_eq hb) htr
    have hmono : Nat.count (Shown f) r ≤ Nat.count (Shown f) u := Nat.count_monotone _ hru.le
    omega

end StreamPairing
