import Mathlib.Data.List.Induction
import Mathlib.Data.Nat.Notation

/-! # Checking one stream against another, in order

Expected items wait in a queue and each actual item is paired with the oldest one that
waits. An actual item that finds the queue empty is an overrun. -/
namespace InOrderChecker

variable {ε α : Type*}

inductive Call (ε α : Type*) where
  | expect (e : ε)
  | observe (a : α)
  deriving DecidableEq, Repr

def expected : List (Call ε α) → List ε :=
  List.filterMap fun
    | .expect e => some e
    | .observe _ => none

def observed : List (Call ε α) → List α :=
  List.filterMap fun
    | .expect _ => none
    | .observe a => some a

structure Checker (ε α : Type*) where
  pending : List ε
  paired : List (α × ε)
  deriving DecidableEq, Repr

def step (s : Checker ε α) : Call ε α → Option (Checker ε α)
  | .expect e => some ⟨s.pending ++ [e], s.paired⟩
  | .observe a =>
    match s.pending with
    | [] => none
    | e :: q => some ⟨q, s.paired ++ [(a, e)]⟩

def run (calls : List (Call ε α)) : Option (Checker ε α) := calls.foldlM step ⟨[], []⟩

/-- Each actual item has an expected one before it to pair with. -/
def Covered (calls : List (Call ε α)) : Prop :=
  ∀ pre a, pre ++ [.observe a] <+: calls → (observed pre).length < (expected pre).length

def matched (calls : List (Call ε α)) : Checker ε α where
  pending := (expected calls).drop (observed calls).length
  paired := (observed calls).zip (expected calls)

variable {calls : List (Call ε α)}

theorem expected_append (calls more : List (Call ε α)) :
    expected (calls ++ more) = expected calls ++ expected more := List.filterMap_append

theorem observed_append (calls more : List (Call ε α)) :
    observed (calls ++ more) = observed calls ++ observed more := List.filterMap_append

@[simp] theorem expected_expect (e : ε) :
    expected (calls ++ [.expect e]) = expected calls ++ [e] := List.filterMap_append

@[simp] theorem expected_observe (a : α) :
    expected (calls ++ [.observe a]) = expected calls := by
  simp [expected]

@[simp] theorem observed_expect (e : ε) :
    observed (calls ++ [.expect e]) = observed calls := by
  simp [observed]

@[simp] theorem observed_observe (a : α) :
    observed (calls ++ [.observe a]) = observed calls ++ [a] := List.filterMap_append

theorem run_concat (c : Call ε α) : run (calls ++ [c]) = (run calls).bind (step · c) := by
  simp only [run]
  rw [List.foldlM_append]
  apply bind_congr
  intro s
  exact bind_pure (step s c)

theorem covered_nil : Covered ([] : List (Call ε α)) := by
  intro pre a h
  exact absurd (List.prefix_nil.mp h) (by simp)

theorem Covered.mono (h : Covered calls) {pre : List (Call ε α)} (hp : pre <+: calls) :
    Covered pre := by
  intro q a hq
  exact h q a (hq.trans hp)

theorem covered_expect (e : ε) : Covered (calls ++ [.expect e]) ↔ Covered calls := by
  constructor
  · intro h
    exact h.mono (List.prefix_append _ _)
  · intro h pre a hp
    rcases List.prefix_concat_iff.mp hp with heq | hp
    · cases (List.append_inj' heq rfl).2
    · exact h pre a hp

theorem covered_observe (a : α) : Covered (calls ++ [.observe a]) ↔
    Covered calls ∧ (observed calls).length < (expected calls).length := by
  constructor
  · intro h
    exact ⟨h.mono (List.prefix_append _ _), h calls a (List.prefix_refl _)⟩
  · rintro ⟨h, hlt⟩ pre b hp
    rcases List.prefix_concat_iff.mp hp with heq | hp
    · rw [(List.append_inj' heq rfl).1]
      exact hlt
    · exact h pre b hp

theorem Covered.observed_le (h : Covered calls) :
    (observed calls).length ≤ (expected calls).length := by
  induction calls using List.reverseRecOn with
  | nil => exact Nat.le_refl _
  | append_singleton calls c ih =>
    cases c with
    | expect e =>
      have hle := ih ((covered_expect e).mp h)
      rw [observed_expect, expected_expect, List.length_append]
      omega
    | observe a =>
      have hlt := ((covered_observe a).mp h).2
      rw [observed_observe, expected_observe, List.length_append]
      exact hlt

theorem matched_split (hle : (observed calls).length ≤ (expected calls).length) :
    ∃ done, expected calls = done ++ (matched calls).pending ∧
      done.length = (observed calls).length ∧
      (matched calls).paired = (observed calls).zip done := by
  refine ⟨(expected calls).take (observed calls).length, ?_, List.length_take_of_le hle, ?_⟩
  · exact (List.take_append_drop _ _).symm
  · have hzip := @List.zip_append _ _ (observed calls) []
      ((expected calls).take (observed calls).length)
      ((expected calls).drop (observed calls).length) (List.length_take_of_le hle).symm
    rw [List.append_nil, List.take_append_drop, List.zip_nil_left, List.append_nil] at hzip
    exact hzip

theorem matched_eq {done rest : List ε} (he : expected calls = done ++ rest)
    (hl : done.length = (observed calls).length) :
    matched calls = ⟨rest, (observed calls).zip done⟩ := by
  have hzip := @List.zip_append _ _ (observed calls) [] done rest hl.symm
  rw [List.append_nil, List.zip_nil_left, List.append_nil] at hzip
  rw [matched, he, hzip, List.drop_left' hl]

theorem matched_prefix {pre : List (Call ε α)} (hp : pre <+: calls) : (matched pre).pending =
    ((expected calls).take (expected pre).length).drop (observed pre).length := by
  have hpre : expected pre <+: expected calls := hp.filterMap _
  rw [matched, ← List.prefix_iff_eq_take.mp hpre]

theorem step_expect (h : Covered calls) (e : ε) :
    step (matched calls) (.expect e) = some (matched (calls ++ [.expect e])) := by
  obtain ⟨done, he, hl, hp⟩ := matched_split h.observed_le
  have he' : expected (calls ++ [.expect e]) = done ++ ((matched calls).pending ++ [e]) := by
    rw [expected_expect, ← List.append_assoc, ← he]
  have hl' : done.length = (observed (calls ++ [.expect e])).length := by
    rw [observed_expect, hl]
  rw [matched_eq he' hl', observed_expect, ← hp]
  rfl

theorem step_observe (h : Covered calls) (a : α) :
    step (matched calls) (.observe a) =
      if (observed calls).length < (expected calls).length then
        some (matched (calls ++ [.observe a])) else none := by
  obtain ⟨done, he, hl, hp⟩ := matched_split h.observed_le
  have hlen : (expected calls).length =
      (observed calls).length + (matched calls).pending.length := by
    rw [he, List.length_append, hl]
  cases hq : (matched calls).pending with
  | nil =>
    rw [hq, List.length_nil] at hlen
    rw [if_neg (by omega), step, hq]
  | cons e q =>
    rw [hq, List.length_cons] at hlen
    have he' : expected (calls ++ [.observe a]) = (done ++ [e]) ++ q := by
      rw [expected_observe, he, hq, List.append_assoc, List.singleton_append]
    have hl' : (done ++ [e]).length = (observed (calls ++ [.observe a])).length := by
      rw [observed_observe, List.length_append, List.length_append, hl]
      rfl
    rw [if_pos (by omega), step, hq, matched_eq he' hl', observed_observe,
      List.zip_append hl.symm, ← hp]
    rfl

theorem step_matched (h : Covered calls) {c : Call ε α} {s : Checker ε α} :
    step (matched calls) c = some s ↔ Covered (calls ++ [c]) ∧ s = matched (calls ++ [c]) := by
  cases c with
  | expect e =>
    rw [step_expect h, Option.some_inj, eq_comm]
    exact (and_iff_right ((covered_expect e).mpr h)).symm
  | observe a =>
    rw [step_observe h, covered_observe, and_iff_right h]
    by_cases hlt : (observed calls).length < (expected calls).length
    · rw [if_pos hlt, Option.some_inj, eq_comm]
      exact (and_iff_right hlt).symm
    · rw [if_neg hlt]
      simp [hlt]

/-- A run overruns unless it is covered, and pairs the items position by position. -/
theorem run_eq_some_iff {s : Checker ε α} :
    run calls = some s ↔ Covered calls ∧ s = matched calls := by
  induction calls using List.reverseRecOn generalizing s with
  | nil =>
    rw [and_iff_right covered_nil, eq_comm]
    exact Option.some_inj
  | append_singleton calls c ih =>
    rw [run_concat, Option.bind_eq_some_iff]
    constructor
    · intro h
      rcases h with ⟨r, hr, hs⟩
      obtain ⟨hc, rfl⟩ := ih.mp hr
      exact (step_matched hc).mp hs
    · intro h
      have hc : Covered calls := h.1.mono (List.prefix_append _ _)
      exact ⟨matched calls, ih.mpr ⟨hc, rfl⟩, (step_matched hc).mpr h⟩

section Relabelling
variable {ε' α' : Type*} (f : ε → ε') (g : α → α')

def Call.map : Call ε α → Call ε' α'
  | .expect e => .expect (f e)
  | .observe a => .observe (g a)

def Checker.map (s : Checker ε α) : Checker ε' α' :=
  ⟨s.pending.map f, s.paired.map (Prod.map g f)⟩

theorem expected_map (calls : List (Call ε α)) :
    expected (calls.map (Call.map f g)) = (expected calls).map f := by
  rw [expected, List.filterMap_map, expected, List.map_filterMap]
  congr 1
  funext c
  cases c <;> rfl

theorem observed_map (calls : List (Call ε α)) :
    observed (calls.map (Call.map f g)) = (observed calls).map g := by
  rw [observed, List.filterMap_map, observed, List.map_filterMap]
  congr 1
  funext c
  cases c <;> rfl

theorem step_map (s : Checker ε α) (c : Call ε α) :
    step (s.map f g) (c.map f g) = (step s c).map (Checker.map f g) := by
  obtain ⟨pending, paired⟩ := s
  cases c with
  | expect e => simp [step, Checker.map, Call.map]
  | observe a => cases pending <;> simp [step, Checker.map, Call.map]

theorem run_map (calls : List (Call ε α)) :
    run (calls.map (Call.map f g)) = (run calls).map (Checker.map f g) := by
  induction calls using List.reverseRecOn with
  | nil => rfl
  | append_singleton calls c ih =>
    rw [List.map_append, List.map_singleton, run_concat, ih, run_concat]
    cases run calls with
    | none => rfl
    | some s => exact step_map f g s c

end Relabelling

end InOrderChecker
