import RdmaNic.RdmaScb

/-! # The environment `rdma_env`: monitor, reference model and scoreboard

The rx thread feeds `rdma_rm` and through it `write_exp`, the tx thread feeds `write_act`.
Nothing looks at what still waits in `exp_q` when the run ends. -/
namespace RdmaEnv
open InOrderChecker PortSignals RdmaMonitor RdmaScb UvmBase

structure Env where
  rxTxn : RdmaTxn
  txTxn : RdmaTxn
  scb : Scb
  deriving DecidableEq, Repr

/-- Which of the two monitor threads the simulator resumes first at an edge. -/
inductive Order where
  | rxFirst
  | txFirst
  deriving DecidableEq, Repr

def rxThread (e : Env) (v : RdmaIf) : Env :=
  match onPosedge e.rxTxn v.rstN v.rx with
  | (t, none) => { e with rxTxn := t }
  | (t, some pkt) => { e with rxTxn := t, scb := writeExp e.scb (rmWrite pkt) }

section Runs
variable (compare : RdmaTxn → RdmaTxn → Bool) (order : ℕ → Order) (vif : ℕ → RdmaIf)

def txThread (e : Env) (v : RdmaIf) : Except Report Env :=
  match onPosedge e.txTxn v.rstN v.tx with
  | (t, none) => .ok { e with txTxn := t }
  | (t, some pkt) => (writeAct compare e.scb pkt).map fun scb => { e with txTxn := t, scb := scb }

def edge (o : Order) (e : Env) (v : RdmaIf) : Except Report Env :=
  match o with
  | .rxFirst => txThread compare (rxThread e v) v
  | .txFirst => (txThread compare e v).map fun e => rxThread e v

def envRun : ℕ → Except Report Env
  | 0 => .ok ⟨.create, .create, ⟨[], []⟩⟩
  | n + 1 => envRun n >>= fun e => edge compare (order n) e (vif n)

def rxCalls (published : Option RdmaTxn) : List ScbCall :=
  published.toList.map fun t => .expect (rmWrite t)

def txCalls (published : Option RdmaTxn) : List ScbCall := published.toList.map .observe

def edgeCalls (o : Order) (rxPub txPub : Option RdmaTxn) : List ScbCall :=
  match o with
  | .rxFirst => rxCalls rxPub ++ txCalls txPub
  | .txFirst => txCalls txPub ++ rxCalls rxPub

def rxPublished (n : ℕ) : Option RdmaTxn :=
  (onPosedge (collectRx vif n).t (vif n).rstN (vif n).rx).2

def txPublished (n : ℕ) : Option RdmaTxn :=
  (onPosedge (collectTx vif n).t (vif n).rstN (vif n).tx).2

def callsBefore : ℕ → List ScbCall
  | 0 => []
  | n + 1 => callsBefore n ++ edgeCalls (order n) (rxPublished vif n) (txPublished vif n)

theorem rxPackets_succ (n : ℕ) :
    rxPackets vif (n + 1) = rxPackets vif n ++ (rxPublished vif n).toList := rfl

theorem txPackets_succ (n : ℕ) :
    txPackets vif (n + 1) = txPackets vif n ++ (txPublished vif n).toList := rfl

theorem rxThread_calls (e : Env) (v : RdmaIf) : Except.ok (rxThread e v) =
    ((rxCalls (onPosedge e.rxTxn v.rstN v.rx).2).foldlM (scbCall compare) e.scb).map
      fun scb => { e with rxTxn := (onPosedge e.rxTxn v.rstN v.rx).1, scb := scb } := by
  simp only [rxThread]
  obtain ⟨t, published⟩ := onPosedge e.rxTxn v.rstN v.rx
  cases published <;> rfl

theorem txThread_calls (e : Env) (v : RdmaIf) : txThread compare e v =
    ((txCalls (onPosedge e.txTxn v.rstN v.tx).2).foldlM (scbCall compare) e.scb).map
      fun scb => { e with txTxn := (onPosedge e.txTxn v.rstN v.tx).1, scb := scb } := by
  simp only [txThread]
  obtain ⟨t, published⟩ := onPosedge e.txTxn v.rstN v.tx
  cases published with
  | none => rfl
  | some pkt =>
    have hone : (txCalls (some pkt)).foldlM (scbCall compare) e.scb =
        writeAct compare e.scb pkt := bind_pure (writeAct compare e.scb pkt)
    exact congrArg (Except.map _) hone.symm

theorem edge_calls (o : Order) (e : Env) (v : RdmaIf) :
    edge compare o e v =
      ((edgeCalls o (onPosedge e.rxTxn v.rstN v.rx).2 (onPosedge e.txTxn v.rstN v.tx).2).foldlM
        (scbCall compare) e.scb).map fun scb =>
          ⟨(onPosedge e.rxTxn v.rstN v.rx).1, (onPosedge e.txTxn v.rstN v.tx).1, scb⟩ := by
  cases o with
  | rxFirst =>
    have hedge : edge compare .rxFirst e v =
        Except.ok (rxThread e v) >>= fun e => txThread compare e v := rfl
    rw [hedge, rxThread_calls compare, edgeCalls, List.foldlM_append]
    cases (rxCalls (onPosedge e.rxTxn v.rstN v.rx).2).foldlM (scbCall compare) e.scb with
    | error r => rfl
    | ok scb => exact txThread_calls compare _ v
  | txFirst =>
    rw [edge, txThread_calls, edgeCalls, List.foldlM_append]
    cases (txCalls (onPosedge e.txTxn v.rstN v.tx).2).foldlM (scbCall compare) e.scb with
    | error r => rfl
    | ok scb => exact rxThread_calls compare _ v

theorem envRun_calls (n : ℕ) : envRun compare order vif n =
    (scbRun compare (callsBefore order vif n)).map fun scb =>
      ⟨(collectRx vif n).t, (collectTx vif n).t, scb⟩ := by
  induction n with
  | zero => rfl
  | succ n ih =>
    rw [envRun, ih, callsBefore, scbRun_append]
    cases scbRun compare (callsBefore order vif n) with
    | error r => rfl
    | ok scb => exact edge_calls compare (order n) _ (vif n)

theorem observed_rxCalls (calls : List ScbCall) (pub : Option RdmaTxn) :
    observed (calls ++ rxCalls pub) = observed calls := by
  cases pub <;> simp [rxCalls]

theorem expected_rxCalls (calls : List ScbCall) (pub : Option RdmaTxn) :
    expected (calls ++ rxCalls pub) = expected calls ++ pub.toList.map rmWrite := by
  cases pub <;> simp [rxCalls]

theorem observed_txCalls (calls : List ScbCall) (pub : Option RdmaTxn) :
    observed (calls ++ txCalls pub) = observed calls ++ pub.toList := by
  cases pub <;> simp [txCalls]

theorem expected_txCalls (calls : List ScbCall) (pub : Option RdmaTxn) :
    expected (calls ++ txCalls pub) = expected calls := by
  cases pub <;> simp [txCalls]

theorem observed_edgeCalls (calls : List ScbCall) (o : Order) (rxPub txPub : Option RdmaTxn) :
    observed (calls ++ edgeCalls o rxPub txPub) = observed calls ++ txPub.toList := by
  cases o with
  | rxFirst => rw [edgeCalls, ← List.append_assoc, observed_txCalls, observed_rxCalls]
  | txFirst => rw [edgeCalls, ← List.append_assoc, observed_rxCalls, observed_txCalls]

theorem expected_edgeCalls (calls : List ScbCall) (o : Order) (rxPub txPub : Option RdmaTxn) :
    expected (calls ++ edgeCalls o rxPub txPub) = expected calls ++ rxPub.toList.map rmWrite := by
  cases o with
  | rxFirst => rw [edgeCalls, ← List.append_assoc, expected_txCalls, expected_rxCalls]
  | txFirst => rw [edgeCalls, ← List.append_assoc, expected_rxCalls, expected_txCalls]

theorem observed_callsBefore (n : ℕ) :
    observed (callsBefore order vif n) = txPackets vif n := by
  induction n with
  | zero => rfl
  | succ n ih => rw [callsBefore, observed_edgeCalls, ih, txPackets_succ]

theorem expected_callsBefore (n : ℕ) :
    expected (callsBefore order vif n) = (rxPackets vif n).map rmWrite := by
  induction n with
  | zero => rfl
  | succ n ih => rw [callsBefore, expected_edgeCalls, ih, rxPackets_succ, List.map_append]

theorem covered_rxCalls {calls : List ScbCall} (pub : Option RdmaTxn) :
    Covered (calls ++ rxCalls pub) ↔ Covered calls := by
  cases pub with
  | none => rw [rxCalls, Option.toList_none, List.map_nil, List.append_nil]
  | some t => exact covered_expect _

theorem covered_txCalls {calls : List ScbCall} (pub : Option RdmaTxn) :
    Covered (calls ++ txCalls pub) ↔ Covered calls ∧
      (observed calls).length + pub.toList.length ≤ (expected calls).length := by
  cases pub with
  | none =>
    rw [txCalls, Option.toList_none, List.map_nil, List.append_nil]
    exact (and_iff_left_of_imp Covered.observed_le).symm
  | some t => exact covered_observe t

/-- By the end of this edge's tx thread more packets were sent than predicted. -/
def Overrun (o : Order) (received sent : ℕ → ℕ) (t : ℕ) : Prop :=
  match o with
  | .rxFirst => received (t + 1) < sent (t + 1)
  | .txFirst => received t < sent (t + 1)

theorem covered_callsBefore (n : ℕ) : Covered (callsBefore order vif n) ↔
    ∀ t < n, ¬ Overrun (order t) (fun m => (rxPackets vif m).length)
      (fun m => (txPackets vif m).length) t := by
  induction n with
  | zero => exact ⟨fun _ t ht => absurd ht (Nat.not_lt_zero t), fun _ => covered_nil⟩
  | succ n ih =>
    rw [Nat.forall_lt_succ_right, ← ih, callsBefore]
    cases order n with
    | rxFirst =>
      simp only [edgeCalls, Overrun, ← List.append_assoc, covered_txCalls, covered_rxCalls,
        observed_rxCalls, expected_rxCalls, observed_callsBefore, expected_callsBefore,
        rxPackets_succ, txPackets_succ, List.length_append, List.length_map, Nat.not_lt]
    | txFirst =>
      simp only [edgeCalls, Overrun, ← List.append_assoc, covered_rxCalls, covered_txCalls,
        observed_callsBefore, expected_callsBefore, txPackets_succ, List.length_append,
        List.length_map, Nat.not_lt]

theorem sent_le_received {n : ℕ} (h : ∀ t < n, ¬ Overrun (order t)
    (fun m => (rxPackets vif m).length) (fun m => (txPackets vif m).length) t) :
    (txPackets vif n).length ≤ (rxPackets vif n).length := by
  have hle := ((covered_callsBefore order vif n).mpr h).observed_le
  rwa [observed_callsBefore, expected_callsBefore, List.length_map] at hle

/-- A run reaches cycle `n` unless a tx packet overruns, having compared the k-th tx
packet with the k-th prediction. -/
theorem envRun_ok_iff (n : ℕ) (e : Env) : envRun compare order vif n = .ok e ↔
    (∀ t < n, ¬ Overrun (order t) (fun m => (rxPackets vif m).length)
      (fun m => (txPackets vif m).length) t) ∧
    e.rxTxn = (collectRx vif n).t ∧ e.txTxn = (collectTx vif n).t ∧
    e.scb.expQ = ((rxPackets vif n).map rmWrite).drop (txPackets vif n).length ∧
    e.scb.reports =
      ((txPackets vif n).zip ((rxPackets vif n).map rmWrite)).map (verdict compare) := by
  have hok : ∀ scb, scbRun compare (callsBefore order vif n) = .ok scb ↔ _ :=
    fun scb => scbRun_ok_iff compare
  simp only [covered_callsBefore, observed_callsBefore, expected_callsBefore] at hok
  rw [envRun_calls]
  constructor
  · intro h
    cases hs : scbRun compare (callsBefore order vif n) with
    | error r =>
      rw [hs] at h
      cases h
    | ok scb =>
      rw [hs] at h
      cases h
      obtain ⟨hc, hq, hr⟩ := (hok scb).mp hs
      exact ⟨hc, rfl, rfl, hq, hr⟩
  · intro h
    rcases h with ⟨hc, hrx, htx, hq, hr⟩
    rw [(hok e.scb).mpr ⟨hc, hq, hr⟩]
    obtain ⟨rxTxn, txTxn, scb⟩ := e
    subst hrx htx
    rfl

end Runs

def NoError (reports : List Report) : Prop :=
  ∀ r ∈ reports, r.severity ≠ .error ∧ r.severity ≠ .fatal

theorem verdict_noError (compare : RdmaTxn → RdmaTxn → Bool) (ps : List (RdmaTxn × RdmaTxn)) :
    NoError (ps.map (verdict compare)) ↔ ∀ p ∈ ps, compare p.1 p.2 = true := by
  simp only [NoError]
  rw [List.forall_mem_map]
  apply forall₂_congr
  intro p _
  simp only [verdict]
  by_cases h : compare p.1 p.2 = true
  · simp [h, txMatch]
  · simp [h, txMismatch]

def Mismatch (compare : RdmaTxn → RdmaTxn → Bool) (sent received : List RdmaTxn) : Prop :=
  ∃ p ∈ sent.zip (received.map rmWrite), compare p.1 p.2 = false

theorem noError_iff {compare : RdmaTxn → RdmaTxn → Bool} {order : ℕ → Order}
    {vif : ℕ → RdmaIf} {n : ℕ} {e : Env} (he : envRun compare order vif n = .ok e) :
    NoError e.scb.reports ↔ ¬ Mismatch compare (txPackets vif n) (rxPackets vif n) := by
  rw [((envRun_ok_iff compare order vif n e).mp he).2.2.2.2, verdict_noError]
  simp only [Mismatch, not_exists, not_and, Bool.not_eq_false]

theorem published_loss_iff (compare : RdmaTxn → RdmaTxn → Bool) (order : ℕ → Order)
    (vif : ℕ → RdmaIf) (n : ℕ) :
    (∀ e, envRun compare order vif n = .ok e → NoError e.scb.reports →
      (txPackets vif n).length = (rxPackets vif n).length ∧ e.scb.expQ = []) ↔
    (∃ t < n, Overrun (order t) (fun m => (rxPackets vif m).length)
      (fun m => (txPackets vif m).length) t) ∨
    Mismatch compare (txPackets vif n) (rxPackets vif n) ∨
    (rxPackets vif n).length ≤ (txPackets vif n).length := by
  have hok := envRun_ok_iff compare order vif n
  by_cases hov : ∃ t < n, Overrun (order t) (fun m => (rxPackets vif m).length)
      (fun m => (txPackets vif m).length) t
  · refine ⟨fun _ => Or.inl hov, fun _ e he _ => ?_⟩
    obtain ⟨t, ht, ho⟩ := hov
    exact absurd ho (((hok e).mp he).1 t ht)
  have hnone : ∀ t < n, ¬ Overrun (order t) (fun m => (rxPackets vif m).length)
      (fun m => (txPackets vif m).length) t := fun t ht ho => hov ⟨t, ht, ho⟩
  rw [or_iff_right hov]
  by_cases hmis : Mismatch compare (txPackets vif n) (rxPackets vif n)
  · refine ⟨fun _ => Or.inl hmis, fun _ e he hno => ?_⟩
    exact absurd hmis ((noError_iff he).mp hno)
  rw [or_iff_right hmis]
  constructor
  · intro h
    have hrun := (hok ⟨_, _, ⟨_, _⟩⟩).mpr ⟨hnone, rfl, rfl, rfl, rfl⟩
    exact (h _ hrun ((noError_iff hrun).mpr hmis)).1.ge
  · intro hge e he _
    refine ⟨le_antisymm (sent_le_received order vif hnone) hge, ?_⟩
    rw [((hok e).mp he).2.2.2.1]
    apply List.drop_of_length_le
    rwa [List.length_map]

theorem overrun_congr {o : Order} {f f' g g' : ℕ → ℕ} {n t : ℕ} (ht : t < n)
    (hf : ∀ m ≤ n, f m = f' m) (hg : ∀ m ≤ n, g m = g' m) :
    Overrun o f g t ↔ Overrun o f' g' t := by
  cases o with
  | rxFirst => rw [Overrun, Overrun, hf _ ht, hg _ ht]
  | txFirst => rw [Overrun, Overrun, hf _ ht.le, hg _ ht]

/-- An error-free run rules out losses exactly when it cannot be error-free anyway or
nothing was lost: what still waits is never looked at. -/
theorem loss_noticed_iff (compare : RdmaTxn → RdmaTxn → Bool) (order : ℕ → Order)
    (vif : ℕ → RdmaIf) (n : ℕ) (hr : ∀ t < n, (vif t).rstN = true) :
    (∀ e, envRun compare order vif n = .ok e → NoError e.scb.reports →
      (txPackets vif n).length = (rxPackets vif n).length ∧ e.scb.expQ = []) ↔
    (∃ t < n, Overrun (order t) (fun m => (framedTxns (fun u => (vif u).rx) m).length)
      (fun m => (framedTxns (fun u => (vif u).tx) m).length) t) ∨
    Mismatch compare (framedTxns (fun u => (vif u).tx) n) (framedTxns (fun u => (vif u).rx) n) ∨
    (framedTxns (fun u => (vif u).rx) n).length ≤
      (framedTxns (fun u => (vif u).tx) n).length := by
  have hrx : ∀ m ≤ n, rxPackets vif m = framedTxns (fun u => (vif u).rx) m :=
    fun m hm => rxPackets_eq fun t ht => hr t (ht.trans_le hm)
  have htx : ∀ m ≤ n, txPackets vif m = framedTxns (fun u => (vif u).tx) m :=
    fun m hm => txPackets_eq fun t ht => hr t (ht.trans_le hm)
  rw [published_loss_iff, hrx n le_rfl, htx n le_rfl]
  apply or_congr_left
  apply exists_congr
  intro t
  apply and_congr_right
  intro ht
  exact overrun_congr ht (fun m hm => congrArg List.length (hrx m hm))
    (fun m hm => congrArg List.length (htx m hm))

def silentTx (t : ℕ) : RdmaIf where
  rstN := true
  rx := ⟨t == 0, 0x1000, t == 0⟩
  tx := ⟨false, 0, false⟩

theorem silent_tx_noticed_iff :
    (∀ e, envRun (uvmCompare rdmaTxnClass) (fun _ => .rxFirst) silentTx 4 = .ok e →
      NoError e.scb.reports →
      (txPackets silentTx 4).length = (rxPackets silentTx 4).length ∧ e.scb.expQ = []) ↔
    (∃ t < 4, Overrun .rxFirst (fun m => (framedTxns (fun u => (silentTx u).rx) m).length)
      (fun m => (framedTxns (fun u => (silentTx u).tx) m).length) t) ∨
    Mismatch (uvmCompare rdmaTxnClass) (framedTxns (fun u => (silentTx u).tx) 4)
      (framedTxns (fun u => (silentTx u).rx) 4) ∨
    (framedTxns (fun u => (silentTx u).rx) 4).length ≤
      (framedTxns (fun u => (silentTx u).tx) 4).length :=
  loss_noticed_iff (uvmCompare rdmaTxnClass) (fun _ => .rxFirst) silentTx 4 fun _ _ => rfl

theorem silent_tx_passes :
    (∀ t, (silentTx t).rstN = true) ∧
    envRun (uvmCompare rdmaTxnClass) (fun _ => .rxFirst) silentTx 4 =
      .ok ⟨.create, .create, ⟨[⟨1, [0x1000]⟩], []⟩⟩ ∧
    NoError [] ∧ rxPackets silentTx 4 = [⟨1, [0x1000]⟩] ∧ txPackets silentTx 4 = [] := by
  refine ⟨fun _ => rfl, rfl, ?_, by decide, by decide⟩
  intro r hr
  cases hr

end RdmaEnv
