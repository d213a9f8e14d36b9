import RdmaNic.PacketFraming

/-! # Cutting a stream that resets

A reset drops the open frame. What is kept are the frames of the stretches between the
resets. -/
namespace StreamSegments
open PacketFraming

variable {σ β : Type*}

/-- The stretches between the resets, each cut on its own, without their open frames. -/
def reassembled (reset : σ → Bool) (beat : σ → Option β) (isLast : β → Bool) (l : List σ) :
    List (List β) :=
  (l.splitOnP reset).flatMap fun seg => (cut isLast (seg.filterMap beat)).frames

def cycleStep (reset : σ → Bool) (beat : σ → Option β) (isLast : β → Bool) (c : Cut β) (s : σ) :
    Cut β :=
  if reset s then ⟨c.frames, []⟩
  else
    match beat s with
    | none => c
    | some b => cutStep isLast c b

def cutCycles (reset : σ → Bool) (beat : σ → Option β) (isLast : β → Bool) (l : List σ) : Cut β :=
  l.foldl (cycleStep reset beat isLast) ⟨[], []⟩

variable {reset : σ → Bool} {beat : σ → Option β} {isLast : β → Bool}

theorem cutCycles_concat (l : List σ) (s : σ) : cutCycles reset beat isLast (l ++ [s]) =
    cycleStep reset beat isLast (cutCycles reset beat isLast l) s := List.foldl_concat _ _ _ _

theorem splitOnP_concat (l : List σ) {s : σ} (hs : reset s = false) :
    ∃ init seg, l.splitOnP reset = init ++ [seg] ∧
      (l ++ [s]).splitOnP reset = init ++ [seg ++ [s]] := by
  induction l with
  | nil => exact ⟨[], [], by simp, by simp [List.splitOnP_cons_eq_if_modifyHead, hs]⟩
  | cons x l ih =>
    obtain ⟨init, seg, hl, hls⟩ := ih
    rw [List.cons_append, List.splitOnP_cons_eq_if_modifyHead,
      List.splitOnP_cons_eq_if_modifyHead, hl, hls]
    by_cases hx : reset x = true
    · rw [if_pos hx, if_pos hx]
      exact ⟨[] :: init, seg, rfl, rfl⟩
    · rw [if_neg hx, if_neg hx]
      cases init with
      | nil => exact ⟨[], x :: seg, rfl, rfl⟩
      | cons i init => exact ⟨(x :: i) :: init, seg, rfl, rfl⟩

/-- The open frame is the one of the last stretch. -/
theorem cutCycles_eq (l : List σ) : ∃ init seg, l.splitOnP reset = init ++ [seg] ∧
    cutCycles reset beat isLast l =
      ⟨reassembled reset beat isLast l, (cut isLast (seg.filterMap beat)).rest⟩ := by
  induction l using List.reverseRecOn with
  | nil => exact ⟨[], [], by simp, by simp [cutCycles, reassembled, cut]⟩
  | append_singleton l s ih =>
    obtain ⟨init, seg, hl, hc⟩ := ih
    rw [cutCycles_concat, hc, cycleStep]
    by_cases hs : reset s = true
    · have hsplit : (l ++ [s]).splitOnP reset = l.splitOnP reset ++ [[]] :=
        List.splitOnP_append_cons l [] hs
      refine ⟨_, _, hsplit, ?_⟩
      simp [reassembled, hsplit, hs, cut]
    · rw [Bool.not_eq_true] at hs
      obtain ⟨init', seg', hl', hsplit⟩ := @splitOnP_concat _ reset l s hs
      obtain ⟨rfl, hseg⟩ := List.append_inj' (hl.symm.trans hl') rfl
      obtain rfl := List.singleton_inj.mp hseg
      refine ⟨init, seg ++ [s], hsplit, ?_⟩
      cases hb : beat s with
      | none => simp [reassembled, hsplit, hl, hs, hb]
      | some b =>
        have hcut : cut isLast ((seg ++ [s]).filterMap beat) =
            cutStep isLast (cut isLast (seg.filterMap beat)) b := by
          rw [List.filterMap_append, ← cut_concat]
          simp [hb]
        simp only [reassembled, hsplit, hl, hs, List.flatMap_append, List.flatMap_singleton, hcut]
        by_cases hlast : isLast b = true <;> simp [cutStep, hlast]

theorem cutCycles_frames (l : List σ) :
    (cutCycles reset beat isLast l).frames = reassembled reset beat isLast l := by
  obtain ⟨_, _, _, hc⟩ := @cutCycles_eq _ _ reset beat isLast l
  rw [hc]

theorem reassembled_closed (l : List σ) :
    ∀ f ∈ reassembled reset beat isLast l, ClosedFrame isLast f := by
  intro f hf
  obtain ⟨seg, _, hf⟩ := List.mem_flatMap.mp hf
  exact cut_frames_closed _ f hf

/-- No beat is used twice and none out of order. -/
theorem reassembled_sublist (l : List σ) :
    (reassembled reset beat isLast l).flatten.Sublist (l.filterMap beat) := by
  have aux : ((cutCycles reset beat isLast l).frames.flatten ++
      (cutCycles reset beat isLast l).rest).Sublist (l.filterMap beat) := by
    induction l using List.reverseRecOn with
    | nil => exact List.Sublist.refl _
    | append_singleton l s ih =>
      rw [cutCycles_concat, cycleStep, List.filterMap_append]
      by_cases hs : reset s = true
      · rw [if_pos hs, List.append_nil]
        exact (List.sublist_append_left _ _).trans (ih.trans (List.sublist_append_left _ _))
      · rw [if_neg hs]
        cases hb : beat s with
        | none => exact ih.trans (List.sublist_append_left _ _)
        | some b =>
          have hone : [s].filterMap beat = [b] := by simp [hb]
          rw [hone]
          simp only [cutStep]
          by_cases hlast : isLast b = true
          · simpa [hlast] using ih.append (List.Sublist.refl [b])
          · simpa [hlast] using ih.append (List.Sublist.refl [b])
  rw [← cutCycles_frames]
  exact (List.sublist_append_left _ _).trans aux

theorem cutCycles_of_no_reset {l : List σ} (h : ∀ s ∈ l, reset s = false) :
    cutCycles reset beat isLast l = cut isLast (l.filterMap beat) := by
  obtain ⟨init, seg, hl, hc⟩ := @cutCycles_eq _ _ reset beat isLast l
  have hsplit := List.splitOnP_eq_singleton h
  have hone : [] ++ [l] = init ++ [seg] := hsplit.symm.trans hl
  obtain ⟨rfl, hseg⟩ := List.append_inj' hone rfl
  obtain rfl := List.singleton_inj.mp hseg
  rw [hc, reassembled, hsplit, List.flatMap_singleton]

theorem reassembled_map {γ : Type*} (φ : β → γ) (isLast : γ → Bool) (l : List σ) :
    reassembled reset (fun s => (beat s).map φ) isLast l =
      (reassembled reset beat (fun b => isLast (φ b)) l).map (List.map φ) := by
  simp only [reassembled]
  rw [List.map_flatMap]
  congr 1
  funext seg
  rw [← List.map_filterMap, cut_map]

end StreamSegments
