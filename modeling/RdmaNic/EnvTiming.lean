import RdmaNic.RdmaEnv

/-! # What the environment makes of the timing of its ports

Resets and beats reach the two monitor threads in an order. The idle cycles between them do
not show in the verdict, and the order of the threads at an edge shows only where both ports
complete a packet. -/
namespace EnvTiming
open PacketFraming PortSignals UvmBase RdmaMonitor RdmaScb RdmaEnv

abbrev Beat := BitVec 64 × Bool

inductive Stimulus where
  | reset
  | rx (b : Beat)
  | tx (b : Beat)
  | both (o : Order) (rx tx : Beat)
  deriving DecidableEq, Repr

/-- The order is kept where both beats are last ones. -/
def ofBeats (o : Order) : Option Beat → Option Beat → Option Stimulus
  | none, none => none
  | some r, none => some (.rx r)
  | none, some t => some (.tx t)
  | some r, some t => some (.both (if r.2 && t.2 then o else .rxFirst) r t)

def stimulus (o : Order) (v : RdmaIf) : Option Stimulus :=
  if v.rstN then ofBeats o v.rx.beat v.tx.beat else some .reset

def stimuli (order : ℕ → Order) (vif : ℕ → RdmaIf) (n : ℕ) : List Stimulus :=
  valuesBefore (fun t => stimulus (order t) (vif t)) n

def Stimulus.cycle : Stimulus → Order × RdmaIf
  | .reset => (.rxFirst, ⟨false, .ofBeat none, .ofBeat none⟩)
  | .rx b => (.rxFirst, ⟨true, .ofBeat (some b), .ofBeat none⟩)
  | .tx b => (.rxFirst, ⟨true, .ofBeat none, .ofBeat (some b)⟩)
  | .both o r t => (o, ⟨true, .ofBeat (some r), .ofBeat (some t)⟩)

def react (compare : RdmaTxn → RdmaTxn → Bool) (e : Env) (s : Stimulus) : Except Report Env :=
  edge compare s.cycle.1 e s.cycle.2

theorem onPosedge_beat (t : RdmaTxn) (c : PortCycle) :
    onPosedge t true c = onPosedge t true (.ofBeat c.beat) := by
  by_cases hv : c.valid = true
  · have hb : c.beat = some (c.data, c.last) := beat_eq_some.mpr ⟨hv, rfl, rfl⟩
    simp [hb, onPosedge, PortCycle.ofBeat, hv]
  · rw [Bool.not_eq_true] at hv
    simp [beat_eq_none.mpr hv, onPosedge, PortCycle.ofBeat, hv]

theorem onPosedge_none (t : RdmaTxn) : onPosedge t true (.ofBeat none) = (t, none) := by
  simp [onPosedge, PortCycle.ofBeat]

theorem onPosedge_open (t : RdmaTxn) {b : Beat} (hl : b.2 = false) :
    (onPosedge t true (.ofBeat (some b))).2 = none := by
  obtain ⟨d, l⟩ := b
  obtain rfl : l = false := hl
  simp [onPosedge, PortCycle.ofBeat]

section Edge
variable (compare : RdmaTxn → RdmaTxn → Bool)

theorem edge_congr {o o' : Order} {v v' : RdmaIf} (e : Env)
    (hrx : onPosedge e.rxTxn v.rstN v.rx = onPosedge e.rxTxn v'.rstN v'.rx)
    (htx : onPosedge e.txTxn v.rstN v.tx = onPosedge e.txTxn v'.rstN v'.tx)
    (ho : o = o' ∨ (onPosedge e.rxTxn v'.rstN v'.rx).2 = none ∨
      (onPosedge e.txTxn v'.rstN v'.tx).2 = none) :
    edge compare o e v = edge compare o' e v' := by
  have hcalls : edgeCalls o (onPosedge e.rxTxn v'.rstN v'.rx).2
      (onPosedge e.txTxn v'.rstN v'.tx).2 = edgeCalls o' (onPosedge e.rxTxn v'.rstN v'.rx).2
      (onPosedge e.txTxn v'.rstN v'.tx).2 := by
    rcases ho with rfl | hnone | hnone
    · rfl
    · rw [hnone]
      cases o <;> cases o' <;> simp [edgeCalls, rxCalls]
    · rw [hnone]
      cases o <;> cases o' <;> simp [edgeCalls, txCalls]
  rw [edge_calls, edge_calls, hrx, htx, hcalls]

theorem edge_idle (o : Order) {v : RdmaIf} (hr : v.rstN = true) (hrx : v.rx.beat = none)
    (htx : v.tx.beat = none) (e : Env) : edge compare o e v = .ok e := by
  rw [edge_calls, hr, onPosedge_beat e.rxTxn, onPosedge_beat e.txTxn, hrx, htx, onPosedge_none,
    onPosedge_none]
  cases o <;> rfl

theorem edge_stimulus (o : Order) (v : RdmaIf) (e : Env) : edge compare o e v =
    (stimulus o v).elim (.ok e) (react compare e) := by
  by_cases hr : v.rstN = true
  · have hb : ∀ t c, onPosedge t v.rstN c = onPosedge t true (.ofBeat c.beat) := by
      intro t c
      rw [hr, onPosedge_beat]
    rw [stimulus, if_pos hr]
    cases hrx : v.rx.beat with
    | none =>
      cases htx : v.tx.beat with
      | none => exact edge_idle compare o hr hrx htx e
      | some t =>
        change edge compare o e v = react compare e (.tx t)
        apply edge_congr
        · rw [hb, hrx]
          rfl
        · rw [hb, htx]
          rfl
        · exact Or.inr (Or.inl (congrArg Prod.snd (onPosedge_none _)))
    | some r =>
      cases htx : v.tx.beat with
      | none =>
        change edge compare o e v = react compare e (.rx r)
        apply edge_congr
        · rw [hb, hrx]
          rfl
        · rw [hb, htx]
          rfl
        · exact Or.inr (Or.inr (congrArg Prod.snd (onPosedge_none _)))
      | some t =>
        change edge compare o e v =
          react compare e (.both (if r.2 && t.2 then o else .rxFirst) r t)
        apply edge_congr
        · rw [hb, hrx]
          rfl
        · rw [hb, htx]
          rfl
        · by_cases hlast : (r.2 && t.2) = true
          · exact Or.inl (if_pos hlast).symm
          · rw [Bool.and_eq_true, not_and_or, Bool.not_eq_true, Bool.not_eq_true] at hlast
            rcases hlast with hl | hl
            · exact Or.inr (Or.inl (onPosedge_open _ hl))
            · exact Or.inr (Or.inr (onPosedge_open _ hl))
  · rw [Bool.not_eq_true] at hr
    rw [stimulus, hr, if_neg (by decide)]
    change edge compare o e v = react compare e .reset
    apply edge_congr
    · rw [hr]
      rfl
    · rw [hr]
      rfl
    · exact Or.inr (Or.inl rfl)

theorem envRun_eq_fold (order : ℕ → Order) (vif : ℕ → RdmaIf) (n : ℕ) :
    envRun compare order vif n =
      (stimuli order vif n).foldlM (react compare) ⟨.create, .create, ⟨[], []⟩⟩ := by
  induction n with
  | zero => rfl
  | succ n ih =>
    rw [envRun, ih, stimuli, stimuli, valuesBefore_succ, List.foldlM_append]
    congr 1
    funext e
    rw [edge_stimulus]
    cases stimulus (order n) (vif n) with
    | none => rfl
    | some s => exact (bind_pure (react compare e s)).symm

end Edge

/-- Runs that bring the threads the same resets and beats in the same order end alike, with
the same reports, whatever the idle cycles in them, what the ports show while not valid, and
in which order the threads run at edges where not both ports complete a packet. -/
theorem idle_cycles_not_seen (compare : RdmaTxn → RdmaTxn → Bool) (order order' : ℕ → Order)
    (vif vif' : ℕ → RdmaIf) (n n' : ℕ) (h : stimuli order vif n = stimuli order' vif' n') :
    envRun compare order vif n = envRun compare order' vif' n' := by
  rw [envRun_eq_fold, envRun_eq_fold, h]

def prompt (t : ℕ) : RdmaIf := ⟨true, ⟨t == 0, 5, true⟩, ⟨t == 1, 5, true⟩⟩

def late (t : ℕ) : RdmaIf := ⟨true, ⟨t == 2, 5, t != 1⟩, ⟨t == 6, 5, t != 2⟩⟩

theorem late_as_prompt :
    envRun (uvmCompare rdmaTxnClass) (fun _ => .rxFirst) prompt 2 =
      envRun (uvmCompare rdmaTxnClass) (fun _ => .txFirst) late 8 :=
  idle_cycles_not_seen _ _ _ prompt late 2 8 (by decide)

end EnvTiming
