import RdmaNic.PacketFraming

/-! # A stage that is deaf for a cycle after each last value it takes

What it takes of a list of cycles, and of a frame played in such a list: all of it, or all
but the first value. -/
namespace Turnaround
open PacketFraming

variable {β : Type*} {isLast : β → Bool}

/-- The values taken, and whether the stage is deaf in the cycle to come. -/
structure Taken (β : Type*) where
  values : List β
  deaf : Bool

def step (isLast : β → Bool) (s : Taken β) (c : Option β) : Taken β :=
  match c with
  | none => ⟨s.values, false⟩
  | some b => if s.deaf then ⟨s.values, false⟩ else ⟨s.values ++ [b], isLast b⟩

def taking (isLast : β → Bool) (s : Taken β) (l : List (Option β)) : Taken β :=
  l.foldl (step isLast) s

theorem taking_append (s : Taken β) (l m : List (Option β)) :
    taking isLast s (l ++ m) = taking isLast (taking isLast s l) m := List.foldl_append

theorem taking_cons (s : Taken β) (c : Option β) (l : List (Option β)) :
    taking isLast s (c :: l) = taking isLast (step isLast s c) l := rfl

theorem taking_idle (s : Taken β) (k : ℕ) :
    taking isLast s (List.replicate k none) = ⟨s.values, s.deaf && k == 0⟩ := by
  induction k generalizing s with
  | zero => simp [taking]
  | succ k ih => simp [List.replicate_succ, taking_cons, step, ih]

theorem taking_body (vs body : List β) (h : ∀ x ∈ body, isLast x = false) :
    taking isLast ⟨vs, false⟩ (body.map some) = ⟨vs ++ body, false⟩ := by
  induction body generalizing vs with
  | nil => simp [taking]
  | cons x body ih =>
    have hx : isLast x = false := h x List.mem_cons_self
    have hrest := ih (vs ++ [x]) fun y hy => h y (List.mem_cons_of_mem x hy)
    rw [List.map_cons, taking_cons, step, if_neg Bool.false_ne_true, hx, hrest,
      List.append_assoc, List.singleton_append]

theorem taking_frame (vs : List β) {f : List β} (h : ClosedFrame isLast f) :
    taking isLast ⟨vs, false⟩ (f.map some) = ⟨vs ++ f, true⟩ := by
  obtain ⟨body, b, rfl, hb, hbody⟩ := h
  rw [List.map_append, taking_append, taking_body vs body hbody, List.map_singleton, taking_cons,
    step, if_neg Bool.false_ne_true, hb, List.append_assoc]
  rfl

/-- What it takes of a frame of which it may not hear the first value. -/
def heardOf (deaf : Bool) (f : List β) : List β := if deaf then f.tail else f

theorem heardOf_closed {f : List β} (h : ClosedFrame isLast f) (deaf : Bool)
    (hne : heardOf deaf f ≠ []) : ClosedFrame isLast (heardOf deaf f) := by
  cases deaf with
  | false => exact h
  | true =>
    cases f with
    | nil => exact absurd rfl hne
    | cons b f => exact h.of_cons hne

theorem heardOf_length_le (deaf : Bool) (f : List β) : (heardOf deaf f).length ≤ f.length := by
  cases deaf with
  | false => exact le_rfl
  | true => exact f.length_tail ▸ Nat.sub_le _ 1

theorem taking_heardOf (vs : List β) {f : List β} (h : ClosedFrame isLast f) (deaf : Bool) :
    taking isLast ⟨vs, deaf⟩ (f.map some) =
      ⟨vs ++ heardOf deaf f, !(heardOf deaf f).isEmpty⟩ := by
  cases f with
  | nil =>
    obtain ⟨body, b, hnil, _⟩ := h
    exact absurd hnil.symm (by simp)
  | cons b f =>
    cases deaf with
    | false => exact taking_frame vs h
    | true =>
      rw [List.map_cons, taking_cons, step, if_pos rfl]
      cases f with
      | nil => simp [heardOf, taking]
      | cons c f => exact taking_frame vs (h.of_cons (List.cons_ne_nil c f))

/-- What it takes of frames without an idle cycle between them. -/
def takenOf (deaf : Bool) : List (List β) → List (List β)
  | [] => []
  | f :: fs => heardOf deaf f :: takenOf (!(heardOf deaf f).isEmpty) fs

theorem taking_frames (vs : List β) (deaf : Bool) {fs : List (List β)}
    (h : ∀ f ∈ fs, ClosedFrame isLast f) :
    (taking isLast ⟨vs, deaf⟩ (fs.flatten.map some)).values =
      vs ++ (takenOf deaf fs).flatten := by
  induction fs generalizing vs deaf with
  | nil => exact (List.append_nil vs).symm
  | cons f fs ih =>
    rw [List.forall_mem_cons] at h
    rw [List.flatten_cons, List.map_append, taking_append, taking_heardOf vs h.1 deaf, ih _ _ h.2,
      takenOf, List.flatten_cons, List.append_assoc]

theorem takenOf_length_le (deaf : Bool) (fs : List (List β)) :
    (takenOf deaf fs).flatten.length ≤ fs.flatten.length := by
  induction fs generalizing deaf with
  | nil => exact le_rfl
  | cons f fs ih =>
    rw [takenOf, List.flatten_cons, List.flatten_cons, List.length_append, List.length_append]
    exact Nat.add_le_add (heardOf_length_le deaf f) (ih _)

/-- A frame that finds it deaf costs a value. -/
theorem takenOf_deaf_lt {f : List β} (hne : f ≠ []) (fs : List (List β)) :
    (takenOf true (f :: fs)).flatten.length < (f :: fs).flatten.length := by
  have hle := takenOf_length_le (!(heardOf true f).isEmpty) fs
  have hlt : (heardOf true f).length < f.length := by
    have hpos := List.length_pos_iff.mpr hne
    rw [heardOf, if_pos rfl, List.length_tail]
    omega
  rw [takenOf, List.flatten_cons, List.flatten_cons, List.length_append, List.length_append]
  omega

/-- Nothing is lost of one frame, or of none if it is deaf at first. -/
theorem takenOf_eq_iff {fs : List (List β)} (hne : ∀ f ∈ fs, f ≠ []) (deaf : Bool) :
    (takenOf deaf fs).flatten = fs.flatten ↔ fs.length + deaf.toNat ≤ 1 := by
  cases fs with
  | nil => cases deaf <;> simp [takenOf]
  | cons f fs =>
    rw [List.forall_mem_cons] at hne
    cases deaf with
    | true =>
      have hlt := takenOf_deaf_lt hne.1 fs
      constructor
      · intro h
        rw [h] at hlt
        exact absurd hlt (Nat.lt_irrefl _)
      · intro h
        simp at h
    | false =>
      have hnext : (!(heardOf false f).isEmpty) = true := by simp [heardOf, hne.1]
      rw [takenOf, hnext]
      cases fs with
      | nil => simp [takenOf, heardOf]
      | cons g fs =>
        have hlt := takenOf_deaf_lt (hne.2 g List.mem_cons_self) fs
        constructor
        · intro h
          have hrest := congrArg List.length (List.append_cancel_left h)
          exact absurd hrest hlt.ne
        · intro h
          simp at h

end Turnaround
