import RdmaNic.DutInLoop
import RdmaNic.RdmaDriver

/-! # A run of `rdma_test`: its sequences, the bench, the design and the environment

The bench holds the reset low for some edges and drives no command nets. The test starts its
sequence out of reset and its driver serves the requests in a row. -/
namespace RdmaTest
open ClockingBlock PacketFraming PortSignals RdmaTop RdmaMonitor RdmaDriver RdmaSeqItem RxArrivals
  UvmBase RdmaScb RdmaEnv DutInLoop

def Constrained (req : RdmaSeqItem) : Prop :=
  (1 ≤ req.beats.toNat ∧ req.beats.toNat ≤ 8) ∧ req.base % 64 = 0

instance (req : RdmaSeqItem) : Decidable (Constrained req) :=
  inferInstanceAs (Decidable ((_ ∧ _) ∧ _))

def randErr : Report := ⟨.fatal, "RAND_ERR", "randomize failed"⟩

def requests (make : ℕ → Except Report RdmaSeqItem) : ℕ → Except Report (List RdmaSeqItem)
  | 0 => .ok []
  | idx + 1 => do
    let reqs ← requests make idx
    let req ← make idx
    return reqs ++ [req]

/-- `rdma_base_seq.body`; `rdma_rand_seq` is this with `pkt_num` 5. -/
def baseBody (pktNum : BitVec 32) (randomize : ℕ → Option RdmaSeqItem) :
    Except Report (List RdmaSeqItem) :=
  requests (fun idx => match randomize idx with
    | some req => .ok req
    | none => .error randErr) pktNum.toInt.toNat

def fixedBody (pktNum : BitVec 32) : Except Report (List RdmaSeqItem) :=
  requests (fun idx => .ok (if idx = 0 then ⟨4, 0x1000⟩ else ⟨2, 0x2000⟩)) pktNum.toInt.toNat

example : fixedBody 2 = .ok fixedSeq := rfl

theorem requests_ok {make : ℕ → Except Report RdmaSeqItem} {P : RdmaSeqItem → Prop}
    (hmake : ∀ idx req, make idx = .ok req → P req) {n : ℕ} {reqs : List RdmaSeqItem}
    (h : requests make n = .ok reqs) : reqs.length = n ∧ ∀ req ∈ reqs, P req := by
  induction n generalizing reqs with
  | zero =>
    cases h
    simp
  | succ n ih =>
    rw [requests] at h
    cases hr : requests make n with
    | error r =>
      rw [hr] at h
      cases h
    | ok before =>
      cases hm : make n with
      | error r =>
        rw [hr, hm] at h
        cases h
      | ok req =>
        rw [hr, hm] at h
        cases h
        obtain ⟨hlen, hall⟩ := ih hr
        refine ⟨by rw [List.length_append, hlen]; rfl, ?_⟩
        intro other ho
        rcases List.mem_append.mp ho with ho | ho
        · exact hall other ho
        · rw [List.mem_singleton.mp ho]
          exact hmake n req hm

theorem constrained_sendable {req : RdmaSeqItem} (h : Constrained req) : req.Sendable :=
  ⟨h.1.1, h.1.2.trans_lt (by decide)⟩

theorem baseBody_ok {pktNum : BitVec 32} {randomize : ℕ → Option RdmaSeqItem}
    (hrand : ∀ idx req, randomize idx = some req → Constrained req) {reqs : List RdmaSeqItem}
    (h : baseBody pktNum randomize = .ok reqs) :
    reqs.length = pktNum.toInt.toNat ∧ ∀ req ∈ reqs, Constrained req := by
  apply requests_ok ?_ h
  intro idx req hreq
  cases hr : randomize idx with
  | none =>
    rw [hr] at hreq
    cases hreq
  | some other =>
    rw [hr] at hreq
    cases hreq
    exact hrand idx req hr

theorem fixedBody_ok {pktNum : BitVec 32} {reqs : List RdmaSeqItem}
    (h : fixedBody pktNum = .ok reqs) :
    reqs.length = pktNum.toInt.toNat ∧ ∀ req ∈ reqs, Constrained req := by
  apply requests_ok ?_ h
  intro idx req hreq
  cases hreq
  by_cases hidx : idx = 0
  · rw [if_pos hidx]
    decide
  · rw [if_neg hidx]
    decide

def benchReset (edges t : ℕ) : Bool := decide (edges ≤ t)

theorem collect_idle {port : ℕ → PortCycle} {edges : ℕ}
    (h : ∀ t < edges, (port t).valid = false) (rstN : ℕ → Bool) {n : ℕ} (hn : n ≤ edges) :
    collect rstN port n = ⟨.create, []⟩ := by
  induction n with
  | zero => rfl
  | succ n ih =>
    rw [collect, ih (Nat.le_of_succ_le hn)]
    cases rstN n <;> simp [Thread.posedge, onPosedge, h n hn]

theorem collect_benchReset {port : ℕ → PortCycle} {edges : ℕ}
    (h : ∀ t < edges, (port t).valid = false) (n : ℕ) :
    collect (benchReset edges) port n = collect (fun _ => true) port n := by
  induction n with
  | zero => rfl
  | succ n ih =>
    by_cases hn : edges ≤ n
    · have hhigh : benchReset edges n = true := decide_eq_true hn
      rw [collect, collect, ih, hhigh]
    · have hle : n + 1 ≤ edges := Nat.lt_of_not_le hn
      rw [collect_idle h _ hle, collect_idle h _ hle]

theorem rxBus_waiting (d : Delay) (reqs : List RdmaSeqItem) :
    beatsBefore (RxArrivals.rxBus (inARow d reqs)) d.edges = [] := by
  cases reqs with
  | nil =>
    have hnone : ∀ item ∈ ([] : List (Delay × RdmaSeqItem)), item.2.Sendable := by simp
    exact RxArrivals.rxBus_beats hnone (Nat.zero_le d.edges)
  | cons req reqs =>
    have hstart : beatsBefore (RxArrivals.rxBus (inARow d (req :: reqs))) (d.edges + 0) =
        (⟨⟨false, 0, false⟩, [], .waitBetween :: RxArrivals.runPhase (inARow d (req :: reqs))⟩ :
          Proc PortCycle).shown PortCycle.beat (d.edges + 0) := values_start _
    rw [RxArrivals.runPhase, shown_start_drive rfl, inARow, serve_cons, shown_arrive rfl] at hstart
    exact hstart

theorem rxBus_idle {d : Delay} {reqs : List RdmaSeqItem} {t : ℕ} (ht : t < d.edges) :
    (RxArrivals.rxBus (inARow d reqs) t).valid = false := by
  have hnil := List.filterMap_eq_nil_iff.mp (rxBus_waiting d reqs)
  exact beat_eq_none.mp (hnil t (List.mem_range.mpr ht))

theorem rxBus_beats_le (d : Delay) (reqs : List RdmaSeqItem) (n : ℕ) :
    (beatsBefore (RxArrivals.rxBus (inARow d reqs)) n).length ≤ n - d.edges := by
  induction n with
  | zero => exact Nat.zero_le _
  | succ n ih =>
    rw [beatsBefore, valuesBefore_succ, ← beatsBefore, List.length_append]
    by_cases hn : n < d.edges
    · rw [beat_eq_none.mpr (rxBus_idle hn), Option.toList_none, List.length_nil]
      omega
    · have hone : (RxArrivals.rxBus (inARow d reqs) n).beat.toList.length ≤ 1 := by
        cases (RxArrivals.rxBus (inARow d reqs) n).beat <;> simp
      omega

theorem framed_words_le (l : List (BitVec 64 × Bool)) :
    (((cut Prod.snd l).frames.map txnOf).map fun t => t.dataQ.length).sum ≤ l.length := by
  have hlen := congrArg List.length (@cut_flatten_rest _ Prod.snd l)
  simp only [List.length_append, List.length_flatten] at hlen
  simp only [List.map_map, Function.comp_def, txnOf, List.length_map]
  exact (Nat.le_add_right _ _).trans hlen.le

theorem requested_words (reqs : List RdmaSeqItem) :
    ((reqs.map txn).map fun t => t.dataQ.length).sum = allBeats reqs := by
  simp only [List.map_map, Function.comp_def, txn, List.length_map, List.length_range, allBeats]

theorem framed_heard {reqs : List RdmaSeqItem} (hs : ∀ req ∈ reqs, req.Sendable) {d : Delay}
    {n : ℕ} (hn : d.edges + allBeats reqs ≤ n) :
    framedTxns (RxArrivals.rxBus (inARow d reqs)) n = (packetsHeard (inARow d reqs)).map txnOf := by
  rw [framedTxns, cut_rxBus (inARow_items hs) ((duration_inARow d reqs).trans hn)]

/-- The packets are the requests once all of these have been driven, if the first came at an
edge. Before that there are too few words. -/
theorem framed_iff {reqs : List RdmaSeqItem} (hs : ∀ req ∈ reqs, req.Sendable) (d : Delay)
    (n : ℕ) : framedTxns (RxArrivals.rxBus (inARow d reqs)) n = reqs.map txn ↔
      reqs = [] ∨ d.AtEdge ∧ d.edges + allBeats reqs ≤ n := by
  by_cases hn : d.edges + allBeats reqs ≤ n
  · rw [framed_heard hs hn, ← inARow_txns d, packetsHeard_iff (inARow_items hs), onTime_inARow,
      and_iff_left hn]
  · cases reqs with
    | nil =>
      have hnone : ∀ item ∈ ([] : List (Delay × RdmaSeqItem)), item.2.Sendable := by simp
      rw [framedTxns, inARow, cut_rxBus hnone (Nat.zero_le n)]
      exact iff_of_true rfl (Or.inl rfl)
    | cons req reqs =>
      refine iff_of_false ?_ ?_
      · intro heq
        have hwords := framed_words_le (beatsBefore (RxArrivals.rxBus (inARow d (req :: reqs))) n)
        have hshown := rxBus_beats_le d (req :: reqs) n
        have hpos := (hs req List.mem_cons_self).1
        rw [← framedTxns, heq, requested_words] at hwords
        rw [allBeats_cons] at hwords hn
        omega
      · rintro (hnil | ⟨_, hle⟩)
        · cases hnil
        · exact hn hle

/-- The requests of a sequence that ends without a report. -/
def Served (reqs : List RdmaSeqItem) : Prop :=
  (∃ pktNum randomize, (∀ idx req, randomize idx = some req → Constrained req) ∧
    baseBody pktNum randomize = .ok reqs) ∨ ∃ pktNum, fixedBody pktNum = .ok reqs

theorem served_constrained {reqs : List RdmaSeqItem} (h : Served reqs) :
    ∀ req ∈ reqs, Constrained req := by
  rcases h with ⟨_, _, hrand, hbody⟩ | ⟨_, hbody⟩
  · exact (baseBody_ok hrand hbody).2
  · exact (fixedBody_ok hbody).2

theorem rxPackets_bench {reqs : List RdmaSeqItem} {d : Delay} {edges : ℕ}
    (hreset : edges ≤ d.edges) {ins : ℕ → TopIn}
    (hrx : ∀ t, (ins t).rx = RxArrivals.rxBus (inARow d reqs) t) (n : ℕ) :
    rxPackets (dutSampled (benchReset edges) ins) n =
      framedTxns (RxArrivals.rxBus (inARow d reqs)) n := by
  have hport : (fun t => (ins t).rx) = RxArrivals.rxBus (inARow d reqs) := funext hrx
  have hgathered : collectRx (dutSampled (benchReset edges) ins) n =
      collect (benchReset edges) (RxArrivals.rxBus (inARow d reqs)) n :=
    congrArg (fun port => collect (benchReset edges) port n) hport
  have hidle : ∀ t < edges, (RxArrivals.rxBus (inARow d reqs) t).valid = false :=
    fun t ht => rxBus_idle (ht.trans_le hreset)
  rw [rxPackets, hgathered, collect_benchReset hidle, collect_eq_cut _ fun _ _ => rfl]
  rfl

/-- The edges before the `$finish` of the bench: its clock has one every 10 ns, from 5 ns on,
and the time-out of 10000000 ps is 10000 ns. -/
def timeoutEdges : ℕ := 1000

/-- The number of edges of a run: it ends with its sequence or at the time-out. -/
def Ended (d : Delay) (reqs : List RdmaSeqItem) (n : ℕ) : Prop :=
  n ≤ timeoutEdges ∧ (n < timeoutEdges → d.edges + allBeats reqs ≤ n)

instance (d : Delay) (reqs : List RdmaSeqItem) (n : ℕ) : Decidable (Ended d reqs n) :=
  inferInstanceAs (Decidable (_ ∧ (_ → _)))

theorem through_iff {d : Delay} {reqs : List RdmaSeqItem} {n : ℕ} (h : Ended d reqs n) :
    d.edges + allBeats reqs ≤ n ↔ d.edges + allBeats reqs ≤ timeoutEdges := by
  obtain ⟨hle, hthrough⟩ := h
  constructor
  · intro hn
    exact hn.trans hle
  · intro htime
    rcases hle.lt_or_eq with hlt | rfl
    · exact hthrough hlt
    · exact htime

def testIns (t : ℕ) : TopIn :=
  ⟨⟨true, 5, true⟩, RxArrivals.rxBus (inARow ⟨15, true⟩ fixedSeq) t, ⟨false, 0⟩⟩

end RdmaTest
