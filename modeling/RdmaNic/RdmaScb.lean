import RdmaNic.InOrderChecker
import RdmaNic.RdmaMonitor
import RdmaNic.UvmBase

/-! # The scoreboard `rdma_scb`

It is an in-order checker whose verdict on each pair is `compare` of `rdma_txn`. -/
namespace RdmaScb
open InOrderChecker RdmaMonitor UvmBase

structure Scb where
  expQ : List RdmaTxn
  reports : List Report
  deriving DecidableEq, Repr

def unexpectedTx : Report := ⟨.fatal, "SCB", "Unexpected actual TX"⟩

def txMismatch : Report := ⟨.error, "SCB", "TX mismatch"⟩

def txMatch : Report := ⟨.info, "SCB", "TX match"⟩

/-- `rdma_txn` as it is registered: no field macros and no `do_compare`. -/
def rdmaTxnClass : ObjectClass RdmaTxn where
  typeName _ := "rdma_txn"
  fields := []
  doCompare _ _ := true

def writeExp (s : Scb) (t : RdmaTxn) : Scb := { s with expQ := s.expQ ++ [t] }

/-- A fatal report ends the simulation. -/
def writeAct (compare : RdmaTxn → RdmaTxn → Bool) (s : Scb) (t : RdmaTxn) : Except Report Scb :=
  match s.expQ with
  | [] => .error unexpectedTx
  | exp :: expQ =>
    .ok ⟨expQ, s.reports ++ [if compare t exp then txMatch else txMismatch]⟩

abbrev ScbCall := Call RdmaTxn RdmaTxn

section Calls
variable (compare : RdmaTxn → RdmaTxn → Bool)

def scbCall (s : Scb) : ScbCall → Except Report Scb
  | .expect t => .ok (writeExp s t)
  | .observe t => writeAct compare s t

def scbRun (calls : List ScbCall) : Except Report Scb := calls.foldlM (scbCall compare) ⟨[], []⟩

theorem scbRun_append (calls more : List ScbCall) : scbRun compare (calls ++ more) =
    scbRun compare calls >>= fun s => more.foldlM (scbCall compare) s := List.foldlM_append

def verdict (p : RdmaTxn × RdmaTxn) : Report := if compare p.1 p.2 then txMatch else txMismatch

def shows (c : Checker RdmaTxn RdmaTxn) : Scb := ⟨c.pending, c.paired.map (verdict compare)⟩

def reached : Option (Checker RdmaTxn RdmaTxn) → Except Report Scb
  | none => .error unexpectedTx
  | some c => .ok (shows compare c)

theorem scbCall_shows (c : Checker RdmaTxn RdmaTxn) (call : ScbCall) :
    scbCall compare (shows compare c) call = reached compare (step c call) := by
  cases call with
  | expect t => rfl
  | observe t =>
    obtain ⟨pending, paired⟩ := c
    cases pending with
    | nil => rfl
    | cons e q => simp [scbCall, writeAct, shows, reached, step, verdict]

/-- The scoreboard refines the checker. -/
theorem scbRun_eq (calls : List ScbCall) : scbRun compare calls = reached compare (run calls) := by
  induction calls using List.reverseRecOn with
  | nil => rfl
  | append_singleton calls call ih =>
    rw [scbRun_append, ih, run_concat]
    cases run calls with
    | none => rfl
    | some c => exact (bind_pure _).trans (scbCall_shows compare c call)

theorem scbRun_ok_iff {calls : List ScbCall} {s : Scb} : scbRun compare calls = .ok s ↔
    Covered calls ∧ s.expQ = (expected calls).drop (observed calls).length ∧
      s.reports = ((observed calls).zip (expected calls)).map (verdict compare) := by
  have hok : scbRun compare calls = .ok s ↔
      ∃ c, run calls = some c ∧ s = shows compare c := by
    rw [scbRun_eq]
    cases run calls with
    | none => simp [reached]
    | some c => simp [reached, eq_comm]
  rw [hok]
  constructor
  · intro h
    rcases h with ⟨c, hc, rfl⟩
    obtain ⟨hcov, rfl⟩ := run_eq_some_iff.mp hc
    exact ⟨hcov, rfl, rfl⟩
  · intro h
    rcases h with ⟨hcov, hq, hr⟩
    obtain ⟨expQ, reports⟩ := s
    subst hq hr
    exact ⟨matched calls, run_eq_some_iff.mpr ⟨hcov, rfl⟩, rfl⟩

end Calls

def SameContent (calls : List ScbCall) : Prop :=
  ∀ (k : ℕ) (a : RdmaTxn), (observed calls)[k]? = some a →
    ∃ e : RdmaTxn, (expected calls)[k]? = some e ∧ a.beats = e.beats ∧ a.dataQ = e.dataQ

theorem sameContent_iff (calls : List ScbCall) :
    SameContent calls ↔ observed calls <+: expected calls := by
  rw [List.prefix_iff_getElem?]
  constructor
  · intro h k hk
    obtain ⟨e, he, hb, hd⟩ := h k _ (List.getElem?_eq_getElem hk)
    rw [he, RdmaTxn.ext hb hd]
  · intro h k a ha
    obtain ⟨hk, rfl⟩ := List.getElem?_eq_some_iff.mp ha
    exact ⟨_, h k hk, rfl, rfl⟩

theorem compare_blind {compare : RdmaTxn → RdmaTxn → Bool}
    (h : ComparesAs rdmaTxnClass compare) (a e : RdmaTxn) : compare a e = true := by
  apply h.blind
  · intro _ _; rfl
  · rfl
  · intro _ _; rfl

/-- Every comparison is a match, so an error-free run vouches for the content exactly
when the actual transactions already are the expected ones. -/
theorem content_vouched_iff_equal (compare : RdmaTxn → RdmaTxn → Bool)
    (hcmp : ComparesAs rdmaTxnClass compare) (calls : List ScbCall) (s : Scb)
    (hrun : scbRun compare calls = .ok s) :
    (∀ r ∈ s.reports, r = txMatch) ∧
    ((txMismatch ∉ s.reports → SameContent calls) ↔ observed calls <+: expected calls) := by
  have hall : ∀ r ∈ s.reports, r = txMatch := by
    intro r hr
    rw [((scbRun_ok_iff compare).mp hrun).2.2] at hr
    obtain ⟨p, _, rfl⟩ := List.mem_map.mp hr
    rw [verdict, compare_blind hcmp, if_pos rfl]
  have hnone : txMismatch ∉ s.reports := by
    intro hm
    exact absurd (hall _ hm) (by decide)
  refine ⟨hall, ?_⟩
  rw [← sameContent_iff]
  exact forall_prop_of_true hnone

def someCalls : List ScbCall :=
  [.expect ⟨2, [1, 2]⟩, .expect ⟨1, [3]⟩, .observe ⟨2, [1, 2]⟩, .expect ⟨1, [4]⟩,
    .observe ⟨1, [5]⟩]

theorem some_calls_vouched_iff : (∀ r ∈ [txMatch, txMatch], r = txMatch) ∧
    ((txMismatch ∉ [txMatch, txMatch] → SameContent someCalls) ↔
      observed someCalls <+: expected someCalls) :=
  content_vouched_iff_equal (uvmCompare rdmaTxnClass) (uvmCompare_compares _) someCalls
    ⟨[⟨1, [4]⟩], [txMatch, txMatch]⟩ rfl

def oneBeatCalls (predicted sent : BitVec 64) : List ScbCall :=
  [.expect ⟨1, [predicted]⟩, .observe ⟨1, [sent]⟩]

theorem corrupted_beat_matches :
    scbRun (uvmCompare rdmaTxnClass) (oneBeatCalls 0x1000 0x2000) = .ok ⟨[], [txMatch]⟩ ∧
    ¬ SameContent (oneBeatCalls 0x1000 0x2000) := by
  refine ⟨rfl, ?_⟩
  rw [sameContent_iff]
  decide

end RdmaScb
