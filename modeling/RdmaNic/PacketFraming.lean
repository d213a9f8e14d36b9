import Mathlib.Data.List.Induction
import Mathlib.Data.List.Pairwise
import Mathlib.Data.List.Sort

/-! # Beats on a stream and the packets they form

A stream shows at most one beat a cycle. A packet placed on a stream is its beats
with their cycles; cutting after each last beat recovers the packets. -/
namespace PacketFraming

variable {α β γ : Type*}

def valuesBefore (f : ℕ → Option β) (n : ℕ) : List β := (List.range n).filterMap f

def eventsBefore (f : ℕ → Option β) (n : ℕ) : List (ℕ × β) :=
  valuesBefore (fun t => (f t).map (t, ·)) n

def later (k : ℕ) (e : ℕ × β) : ℕ × β := (e.1 + k, e.2)

@[simp] theorem valuesBefore_zero (f : ℕ → Option β) : valuesBefore f 0 = [] := rfl

theorem valuesBefore_succ (f : ℕ → Option β) (n : ℕ) :
    valuesBefore f (n + 1) = valuesBefore f n ++ (f n).toList := by
  cases h : f n <;> simp [valuesBefore, List.range_succ, h]

theorem valuesBefore_succ' (f : ℕ → Option β) (n : ℕ) :
    valuesBefore f (n + 1) = (f 0).toList ++ valuesBefore (fun t => f (t + 1)) n := by
  cases h : f 0 <;> simp [valuesBefore, List.range_succ_eq_map, List.filterMap_map, h]

theorem valuesBefore_delay {f g : ℕ → Option β} {n : ℕ} (h0 : g 0 = none)
    (hs : ∀ t < n, g (t + 1) = f t) : valuesBefore g (n + 1) = valuesBefore f n := by
  induction n with
  | zero => simp [valuesBefore_succ, h0]
  | succ n ih =>
    rw [valuesBefore_succ g, ih fun t ht => hs t (by omega), hs n (by omega),
      valuesBefore_succ f]

/-- A delayed stream that only drops values keeps them all exactly when it drops none. -/
theorem valuesBefore_delay_iff {f g : ℕ → Option β} {n : ℕ} (h0 : g 0 = none)
    (hs : ∀ t < n, g (t + 1) = none ∨ g (t + 1) = f t) :
    valuesBefore g (n + 1) = valuesBefore f n ↔ ∀ t < n, g (t + 1) = f t := by
  refine ⟨fun h => ?_, valuesBefore_delay h0⟩
  have aux : ∀ m ≤ n, (valuesBefore g (m + 1)).length ≤ (valuesBefore f m).length ∧
      ((valuesBefore g (m + 1)).length = (valuesBefore f m).length →
        ∀ t < m, g (t + 1) = f t) := by
    intro m
    induction m with
    | zero => intro _; exact ⟨by simp [valuesBefore_succ, h0], fun _ t ht => by omega⟩
    | succ m ih =>
      intro hm
      obtain ⟨hle, heq⟩ := ih (by omega)
      rw [valuesBefore_succ g, valuesBefore_succ f, List.length_append, List.length_append]
      have hstep : (g (m + 1)).toList.length ≤ (f m).toList.length ∧
          ((g (m + 1)).toList.length = (f m).toList.length → g (m + 1) = f m) := by
        rcases hs m (by omega) with hg | hg
        · cases hf : f m <;> simp [hg]
        · simp [hg]
      refine ⟨by omega, fun hl t ht => ?_⟩
      rcases Nat.lt_succ_iff_lt_or_eq.mp ht with ht | rfl
      · exact heq (by omega) t ht
      · exact hstep.2 (by omega)
  exact (aux n le_rfl).2 (congrArg List.length h)

theorem valuesBefore_map (φ : β → γ) (f : ℕ → Option β) (n : ℕ) :
    valuesBefore (fun t => (f t).map φ) n = (valuesBefore f n).map φ := by
  simp [valuesBefore, List.map_filterMap]

theorem eventsBefore_values (f : ℕ → Option β) (n : ℕ) :
    (eventsBefore f n).map Prod.snd = valuesBefore f n := by
  simp only [eventsBefore, valuesBefore, List.map_filterMap]
  congr 1
  funext t
  cases f t <;> rfl

theorem mem_eventsBefore {f : ℕ → Option β} {n t : ℕ} {b : β} :
    (t, b) ∈ eventsBefore f n ↔ t < n ∧ f t = some b := by
  simp only [eventsBefore, valuesBefore, List.mem_filterMap, List.mem_range,
    Option.map_eq_some_iff, Prod.mk.injEq]
  constructor
  · intro h
    rcases h with ⟨u, hu, c, hc, rfl, rfl⟩
    exact ⟨hu, hc⟩
  · intro h
    rcases h with ⟨ht, hb⟩
    exact ⟨t, ht, b, hb, rfl, rfl⟩

def Sorted (l : List (ℕ × β)) : Prop := l.Pairwise (fun a b => a.1 < b.1)

instance (l : List (ℕ × β)) : Decidable (Sorted l) :=
  inferInstanceAs (Decidable (l.Pairwise _))

theorem eventsBefore_sorted (f : ℕ → Option β) (n : ℕ) : Sorted (eventsBefore f n) := by
  refine List.Pairwise.filterMap _ ?_ List.pairwise_lt_range
  intro t u htu a ha b hb
  obtain ⟨_, _, rfl⟩ := Option.map_eq_some_iff.mp ha
  obtain ⟨_, _, rfl⟩ := Option.map_eq_some_iff.mp hb
  exact htu

theorem sorted_ext {l m : List (ℕ × β)} (hl : Sorted l) (hm : Sorted m)
    (h : ∀ e, e ∈ l ↔ e ∈ m) : l = m := by
  have : Std.Irrefl (fun a b : ℕ × β => a.1 < b.1) := ⟨fun a => lt_irrefl a.1⟩
  have : Std.Antisymm (fun a b : ℕ × β => a.1 < b.1) :=
    ⟨fun _ _ hab hba => absurd hab (lt_asymm hba)⟩
  exact List.Pairwise.eq_of_mem_iff hl hm h

theorem eventsBefore_delay {f g : ℕ → Option β} {n : ℕ} (h0 : g 0 = none)
    (hs : ∀ t < n, g (t + 1) = f t) :
    eventsBefore g (n + 1) = (eventsBefore f n).map (later 1) := by
  simp only [eventsBefore]
  rw [← valuesBefore_map]
  refine valuesBefore_delay (by rw [h0]; rfl) ?_
  intro t ht
  rw [hs t ht, Option.map_map]
  rfl

theorem eventsBefore_filter (keep : ℕ → Bool) (f : ℕ → Option β) (n : ℕ) :
    eventsBefore (fun t => if keep t then f t else none) n =
      (eventsBefore f n).filter (fun e => keep e.1) := by
  apply sorted_ext (eventsBefore_sorted _ n)
  · exact List.Pairwise.filter _ (eventsBefore_sorted f n)
  · intro e
    rw [mem_eventsBefore, List.mem_filter, mem_eventsBefore]
    by_cases hk : keep e.1 = true <;> simp [hk]

/-- The finished frames and the open one. -/
structure Cut (β : Type*) where
  frames : List (List β)
  rest : List β

def cutStep (isLast : β → Bool) (c : Cut β) (b : β) : Cut β :=
  if isLast b then ⟨c.frames ++ [c.rest ++ [b]], []⟩ else ⟨c.frames, c.rest ++ [b]⟩

def cut (isLast : β → Bool) (l : List β) : Cut β := l.foldl (cutStep isLast) ⟨[], []⟩

/-- One frame: its final beat is the only one marked last. -/
def ClosedFrame (isLast : β → Bool) (p : List β) : Prop :=
  ∃ body b, p = body ++ [b] ∧ isLast b = true ∧ ∀ x ∈ body, isLast x = false

variable {isLast : β → Bool}

theorem cut_concat (l : List β) (b : β) :
    cut isLast (l ++ [b]) = cutStep isLast (cut isLast l) b := by
  simp [cut, List.foldl_append]

/-- Cutting loses nothing and keeps the order. -/
theorem cut_flatten_rest (l : List β) :
    (cut isLast l).frames.flatten ++ (cut isLast l).rest = l := by
  induction l using List.reverseRecOn with
  | nil => rfl
  | append_singleton l b ih =>
    rw [cut_concat, cutStep]
    by_cases hb : isLast b = true <;> simp [hb, ← List.append_assoc, ih]

theorem cut_rest_open (l : List β) : ∀ x ∈ (cut isLast l).rest, isLast x = false := by
  induction l using List.reverseRecOn with
  | nil => intro x hx; cases hx
  | append_singleton l b ih =>
    rw [cut_concat, cutStep]
    by_cases hb : isLast b = true
    · rw [if_pos hb]; intro x hx; cases hx
    · rw [if_neg hb]
      intro x hx
      rcases List.mem_append.mp hx with hx | hx
      · exact ih x hx
      · obtain rfl := List.mem_singleton.mp hx
        simpa using hb

theorem cut_frames_closed (l : List β) :
    ∀ f ∈ (cut isLast l).frames, ClosedFrame isLast f := by
  induction l using List.reverseRecOn with
  | nil => intro f hf; cases hf
  | append_singleton l b ih =>
    rw [cut_concat, cutStep]
    by_cases hb : isLast b = true
    · rw [if_pos hb]
      intro f hf
      rcases List.mem_append.mp hf with hf | hf
      · exact ih f hf
      · rw [List.mem_singleton.mp hf]
        exact ⟨_, b, rfl, hb, cut_rest_open l⟩
    · rw [if_neg hb]
      exact ih

theorem ClosedFrame.of_cons {b : β} {l : List β} (h : ClosedFrame isLast (b :: l)) (hl : l ≠ []) :
    ClosedFrame isLast l := by
  obtain ⟨body, c, heq, hc, hbody⟩ := h
  cases body with
  | nil => exact absurd (List.cons.inj heq).2 hl
  | cons x body =>
    obtain ⟨_, rfl⟩ := List.cons.inj heq
    exact ⟨body, c, rfl, hc, fun y hy => hbody y (List.mem_cons_of_mem x hy)⟩

theorem mem_frame_of_last {l : List β} {b : β} (hb : b ∈ l) (hl : isLast b = true) :
    ∃ f ∈ (cut isLast l).frames, b ∈ f := by
  rw [← @cut_flatten_rest _ isLast l] at hb
  rcases List.mem_append.mp hb with hb | hb
  · exact List.mem_flatten.mp hb
  · rw [cut_rest_open l b hb] at hl
    cases hl

theorem mem_of_mem_frame {l f : List β} (hf : f ∈ (cut isLast l).frames) {b : β} (hb : b ∈ f) :
    b ∈ l := by
  rw [← @cut_flatten_rest _ isLast l]
  exact List.mem_append_left _ (List.mem_flatten.mpr ⟨f, hf, hb⟩)

section Timed
variable {isLast : ℕ × β → Bool} {l : List (ℕ × β)}

def FrameBefore (f g : List (ℕ × β)) : Prop := ∀ a ∈ f, ∀ b ∈ g, a.1 < b.1

theorem frames_sorted (h : Sorted l) : (∀ f ∈ (cut isLast l).frames, Sorted f) ∧
    (cut isLast l).frames.Pairwise FrameBefore := by
  rw [← @cut_flatten_rest _ isLast l] at h
  exact List.pairwise_flatten.mp (List.pairwise_append.mp h).1

theorem frames_ordered (h : Sorted l) {f g : List (ℕ × β)} (hf : f ∈ (cut isLast l).frames)
    (hg : g ∈ (cut isLast l).frames) (hne : f ≠ g) : FrameBefore f g ∨ FrameBefore g f := by
  have hor : (cut isLast l).frames.Pairwise (fun f g => FrameBefore f g ∨ FrameBefore g f) :=
    (frames_sorted h).2.imp Or.inl
  have hsymm : Std.Symm (fun f g : List (ℕ × β) => FrameBefore f g ∨ FrameBefore g f) :=
    ⟨fun _ _ => Or.symm⟩
  exact hor.forall hf hg hne

theorem ClosedFrame.le_last {f : List (ℕ × β)} (h : ClosedFrame isLast f) (hs : Sorted f)
    {x y : ℕ × β} (hx : x ∈ f) (hy : y ∈ f) (hl : isLast y = true) : x.1 ≤ y.1 := by
  obtain ⟨body, b, rfl, _, hbody⟩ := h
  rcases List.mem_append.mp hy with hy | hy
  · rw [hbody y hy] at hl
    cases hl
  · rw [List.mem_singleton.mp hy]
    rcases List.mem_append.mp hx with hx | hx
    · exact ((List.pairwise_append.mp hs).2.2 x hx b (List.mem_singleton_self b)).le
    · rw [List.mem_singleton.mp hx]

/-- Inside a frame no beat comes in the cycle after a last beat, of whatever frame. -/
theorem inner_not_after_last (h : Sorted l) {e x y : ℕ × β} {rest : List (ℕ × β)}
    (hf : e :: rest ∈ (cut isLast l).frames) (hx : x ∈ rest) (hy : y ∈ l)
    (hl : isLast y = true) : x.1 ≠ y.1 + 1 := by
  intro heq
  obtain ⟨g, hg, hyg⟩ := mem_frame_of_last hy hl
  have hsort := (frames_sorted h).1 _ hf
  have hex := (List.pairwise_cons.mp hsort).1 x hx
  have hxf : x ∈ e :: rest := List.mem_cons_of_mem e hx
  by_cases hfg : e :: rest = g
  · rw [← hfg] at hyg
    have := (cut_frames_closed l _ hf).le_last hsort hxf hyg hl
    omega
  · rcases frames_ordered h hf hg hfg with hlt | hlt
    · have := hlt x hxf y hyg
      omega
    · have := hlt y hyg e List.mem_cons_self
      omega

end Timed

theorem cut_append_body {l body : List β} (h : ∀ x ∈ body, isLast x = false) :
    cut isLast (l ++ body) = ⟨(cut isLast l).frames, (cut isLast l).rest ++ body⟩ := by
  induction body using List.reverseRecOn with
  | nil => simp
  | append_singleton body b ih =>
    rw [← List.append_assoc, cut_concat, ih fun x hx => h x (by simp [hx]), cutStep,
      h b (by simp)]
    simp

theorem cut_append_frame {l p : List β} (hp : ClosedFrame isLast p)
    (hr : (cut isLast l).rest = []) :
    cut isLast (l ++ p) = ⟨(cut isLast l).frames ++ [p], []⟩ := by
  obtain ⟨body, b, rfl, hb, hbody⟩ := hp
  rw [← List.append_assoc, cut_concat, cut_append_body hbody, cutStep, hb, hr]
  simp

theorem cut_flatten {ps : List (List β)} (h : ∀ p ∈ ps, ClosedFrame isLast p) :
    cut isLast ps.flatten = ⟨ps, []⟩ := by
  induction ps using List.reverseRecOn with
  | nil => rfl
  | append_singleton ps p ih =>
    have hps := ih fun q hq => h q (by simp [hq])
    rw [List.flatten_append, List.flatten_singleton,
      cut_append_frame (h p (by simp)) (by rw [hps]), hps]

theorem cut_map (φ : γ → β) (l : List γ) :
    cut isLast (l.map φ) = ⟨(cut (fun x => isLast (φ x)) l).frames.map (List.map φ),
      (cut (fun x => isLast (φ x)) l).rest.map φ⟩ := by
  induction l using List.reverseRecOn with
  | nil => rfl
  | append_singleton l b ih =>
    rw [List.map_append, List.map_singleton, cut_concat, ih, cut_concat]
    simp only [cutStep]
    by_cases hb : isLast (φ b) <;> simp [hb]

end PacketFraming
