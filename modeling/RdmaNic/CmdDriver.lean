import RdmaNic.ClockingBlock
import RdmaNic.CommandFrame
import RdmaNic.CommandServer
import RdmaNic.StreamPairing

/-! # The driver `cmd_driver` of the command nets, up to the tx port and the completion

An item is on the nets one edge after the driver has waited for it, and the next one two
edges later or more. The parser is busy for three, so two items without a wait in between
are one too many. -/
namespace CmdDriver
open ClockedMachine ClockingBlock DeadTime DelayedEvents PacketFraming PortSignals StreamPairing
  CmdParser CommandCapture RdmaTop CommandPath CommandFrame CommandServer

variable {Item : Type*} (pack : Item → BitVec 256)

def lower (c : CmdCycle) : CmdCycle := { c with valid := false }

def driveOne (req : Item) : List (Op CmdCycle) := pulse ⟨true, pack req⟩ lower

def runPhase (items : List (Delay × Item)) : List (Op CmdCycle) := serveAll (driveOne pack) items

def commandBus (items : List (Delay × Item)) (t : ℕ) : CmdCycle :=
  (Proc.start ⟨false, 0⟩ (runPhase pack items)).busAt t

/-- The items on the nets, each with its cycle, of a driver free from cycle `t` on. -/
def commandsFrom (t : ℕ) : List (Delay × Item) → List (ℕ × BitVec 256)
  | [] => []
  | (d, req) :: items => (t + d.edges + 1, pack req) :: commandsFrom (t + d.edges + 2) items

def duration (items : List (Delay × Item)) : ℕ := servingEdges (fun _ => 2) items

/-- The items that get through: one that follows another without a wait does not. -/
def survivors (busy : Bool) : List (Delay × Item) → List Item
  | [] => []
  | (d, req) :: items =>
    if busy && d.edges == 0 then survivors false items else req :: survivors true items

section Nets
variable {pack}

theorem runPhase_cons (d : Delay) (req : Item) (items : List (Delay × Item)) :
    runPhase pack ((d, req) :: items) = d.ops ++ .waitEdge ::
      .drive (fun _ => ⟨true, pack req⟩) :: .waitEdge :: .drive lower :: runPhase pack items :=
  serveAll_cons (driveOne pack) d req items

theorem commandBus_eq (items : List (Delay × Item)) (t : ℕ) : commandBus pack items t =
    (Proc.edge ⟨⟨false, 0⟩, [], runPhase pack items⟩).busAt t :=
  congrArg (fun p => p.busAt t) (start_pulses (fun req => ⟨true, pack req⟩) lower ⟨false, 0⟩ items)

theorem edge_wait (bus : CmdCycle) (k : ℕ) (between : Bool) (req : Item)
    (items : List (Delay × Item)) :
    Proc.edge ⟨bus, [], runPhase pack ((⟨k + 1, between⟩, req) :: items)⟩ =
      ⟨bus, [], runPhase pack ((⟨k, between⟩, req) :: items)⟩ := by
  rw [runPhase_cons, runPhase_cons]
  rfl

theorem edge_go (bus : CmdCycle) (between : Bool) (req : Item) (items : List (Delay × Item)) :
    Proc.edge ⟨bus, [], runPhase pack ((⟨0, between⟩, req) :: items)⟩ =
      ⟨bus, [], .drive (fun _ => ⟨true, pack req⟩) :: .waitEdge :: .drive lower ::
        runPhase pack items⟩ := by
  rw [runPhase_cons]
  cases between <;> rfl

theorem edge_bus (bus : CmdCycle) (items : List (Delay × Item)) :
    (Proc.edge ⟨bus, [], runPhase pack items⟩).bus = bus := by
  cases items with
  | nil => rfl
  | cons item items =>
    obtain ⟨⟨edges, between⟩, req⟩ := item
    cases edges with
    | zero => rw [edge_go]
    | succ k => rw [edge_wait]

theorem busAt_done (bus : CmdCycle) (t : ℕ) :
    (⟨bus, [], []⟩ : Proc CmdCycle).busAt t = bus := by
  induction t with
  | zero => rfl
  | succ t ih => exact ih

theorem commandsFrom_gt {t : ℕ} {items : List (Delay × Item)} :
    ∀ c ∈ commandsFrom pack t items, t < c.1 := by
  induction items generalizing t with
  | nil => simp [commandsFrom]
  | cons item items ih =>
    obtain ⟨d, req⟩ := item
    intro c hc
    rcases List.mem_cons.mp hc with rfl | hc
    · exact Nat.lt_succ_of_le (Nat.le_add_right t d.edges)
    · have hlt := ih c hc
      omega

theorem commandsFrom_sorted (t : ℕ) (items : List (Delay × Item)) :
    Sorted (commandsFrom pack t items) := by
  induction items generalizing t with
  | nil => exact List.Pairwise.nil
  | cons item items ih =>
    obtain ⟨d, req⟩ := item
    apply List.pairwise_cons.mpr
    refine ⟨?_, ih _⟩
    intro c hc
    exact (Nat.lt_succ_self _).trans (commandsFrom_gt c hc)

theorem commandsFrom_lt {t : ℕ} {items : List (Delay × Item)} :
    ∀ c ∈ commandsFrom pack t items, c.1 < t + duration items := by
  induction items generalizing t with
  | nil => simp [commandsFrom]
  | cons item items ih =>
    obtain ⟨d, req⟩ := item
    have hdur : duration ((d, req) :: items) = d.edges + 2 + duration items :=
      servingEdges_cons (fun _ => 2) d req items
    intro c hc
    rcases List.mem_cons.mp hc with rfl | hc
    · change t + d.edges + 1 < t + duration ((d, req) :: items)
      omega
    · have hlt := ih c hc
      omega

theorem commandsFrom_wait (t k : ℕ) (between : Bool) (req : Item) (items : List (Delay × Item)) :
    commandsFrom pack t ((⟨k + 1, between⟩, req) :: items) =
      commandsFrom pack (t + 1) ((⟨k, between⟩, req) :: items) := by
  simp only [commandsFrom]
  have hk : t + (k + 1) = t + 1 + k := by omega
  rw [hk]

def Shows (c : CmdCycle) (l : List (ℕ × BitVec 256)) (t : ℕ) : Prop :=
  (c.valid = true ↔ At l t) ∧ ∀ e ∈ l, e.1 = t ∨ e.1 + 1 = t → c.data = e.2

theorem shows_before {bus : CmdCycle} (hlow : bus.valid = false) {t : ℕ}
    {l : List (ℕ × BitVec 256)} (hl : ∀ c ∈ l, t < c.1) : Shows bus l t := by
  refine ⟨?_, ?_⟩
  · rw [hlow]
    constructor
    · intro h
      cases h
    · rintro ⟨c, hc, rfl⟩
      exact absurd (hl c hc) (Nat.lt_irrefl _)
  · intro c hc ht
    have hlt := hl c hc
    omega

/-- Two cycles on, an item is seen only by the data it has left on the nets. -/
theorem shows_behind {c : CmdCycle} {between : Bool} {req : Item} {free t : ℕ}
    {items : List (Delay × Item)} (h : Shows c (commandsFrom pack (free + 2) items) (free + 2 + t))
    (hdata : t = 0 → c.data = pack req) :
    Shows c (commandsFrom pack free ((⟨0, between⟩, req) :: items)) (free + 2 + t) := by
  have hhead : ¬ free + 1 = free + 2 + t := by omega
  have hcons : At (commandsFrom pack free ((⟨0, between⟩, req) :: items)) (free + 2 + t) ↔
      At (commandsFrom pack (free + 2) items) (free + 2 + t) :=
    at_cons.trans (or_iff_right hhead)
  refine ⟨h.1.trans hcons.symm, ?_⟩
  intro e he het
  rcases List.mem_cons.mp he with rfl | he
  · apply hdata
    simp only [Nat.add_zero] at het
    omega
  · exact h.2 e he het

theorem nets_show (bus : CmdCycle) (hlow : bus.valid = false) (items : List (Delay × Item))
    (free t : ℕ) : Shows ((Proc.edge ⟨bus, [], runPhase pack items⟩).busAt t)
      (commandsFrom pack free items) (free + t) := by
  induction items generalizing bus free t with
  | nil =>
    have hbus : (Proc.edge ⟨bus, [], runPhase pack ([] : List (Delay × Item))⟩).busAt t = bus :=
      busAt_done bus t
    rw [hbus]
    apply shows_before hlow
    simp [commandsFrom]
  | cons item items ih =>
    obtain ⟨⟨edges, between⟩, req⟩ := item
    induction edges generalizing free t with
    | zero =>
      rw [edge_go]
      match t with
      | 0 => exact shows_before hlow commandsFrom_gt
      | 1 =>
        refine ⟨iff_of_true rfl ⟨_, List.mem_cons_self, rfl⟩, ?_⟩
        intro c hc ht
        rcases List.mem_cons.mp hc with rfl | hc
        · rfl
        · have hlt := commandsFrom_gt c hc
          omega
      | t + 2 =>
        have ht : free + (t + 2) = free + 2 + t := by omega
        rw [ht]
        apply shows_behind (ih (lower ⟨true, pack req⟩) rfl (free + 2) t)
        rintro rfl
        exact congrArg CmdCycle.data (edge_bus (lower ⟨true, pack req⟩) items)
    | succ k ihk =>
      rw [edge_wait, commandsFrom_wait]
      cases t with
      | zero =>
        apply shows_before hlow
        intro c hc
        exact (Nat.lt_succ_self _).trans (commandsFrom_gt c hc)
      | succ t =>
        have ht : free + (t + 1) = free + 1 + t := by omega
        rw [ht]
        exact ihk (free + 1) t

theorem commandBus_presented (items : List (Delay × Item)) :
    Presented (commandBus pack items) (commandsFrom pack 0 items) := by
  have hshow : ∀ t, Shows (commandBus pack items t) (commandsFrom pack 0 items) t := by
    intro t
    have h := @nets_show _ pack ⟨false, 0⟩ rfl items 0 t
    rwa [Nat.zero_add, ← commandBus_eq] at h
  refine ⟨fun t => (hshow t).1, ?_, ?_⟩
  · intro c hc
    exact (hshow c.1).2 c hc (Or.inl rfl)
  · intro c hc
    exact (hshow (c.1 + 1)).2 c hc (Or.inr rfl)

def backToBack (lead : ℕ) : List (BitVec 256) → List (Delay × BitVec 256)
  | [] => []
  | pkt :: pkts => (⟨lead, false⟩, pkt) :: pkts.map fun pkt => (⟨0, false⟩, pkt)

theorem nets_backToBack (pkts : List (BitVec 256)) (word : BitVec 256) (t : ℕ) :
    (Proc.edge ⟨⟨false, word⟩, [], runPhase id (backToBack 0 pkts)⟩).busAt (t + 1) =
      (pkts.flatMap CmdParser.driveOne)[t]?.getD ⟨false, pkts.getLast?.getD word⟩ := by
  induction pkts generalizing word t with
  | nil => exact busAt_done _ (t + 1)
  | cons pkt pkts ih =>
    have hrest : pkts.map (fun pkt => ((⟨0, false⟩, pkt) : Delay × BitVec 256)) =
        backToBack 0 pkts := by cases pkts <;> rfl
    have hlast : (pkt :: pkts).getLast?.getD word = pkts.getLast?.getD pkt := by
      cases pkts with
      | nil => rfl
      | cons p pkts => rw [List.getLast?_cons_cons, List.getLast?_cons, Option.getD_some,
          Option.getD_some]
    rw [backToBack, hrest, edge_go, hlast]
    match t with
    | 0 => rfl
    | 1 => exact edge_bus _ _
    | t + 2 => exact ih pkt t

/-- Without a wait between the items the nets are those of the driver's stream. -/
theorem commandBus_backToBack (lead : ℕ) (pkts : List (BitVec 256)) (t : ℕ) :
    commandBus id (backToBack lead pkts) t = drivenBus (lead + 1) pkts t := by
  rw [commandBus_eq, drivenBus]
  cases pkts with
  | nil =>
    have hbus : (Proc.edge ⟨⟨false, 0⟩, [], runPhase id (backToBack lead [])⟩).busAt t =
        ⟨false, 0⟩ := busAt_done _ t
    simpa using hbus
  | cons pkt pkts =>
    induction lead generalizing t with
    | zero =>
      cases t with
      | zero =>
        rw [if_pos Nat.one_pos]
        exact edge_bus _ _
      | succ t =>
        rw [if_neg (by omega), Nat.zero_add, Nat.add_sub_cancel, nets_backToBack]
    | succ k ih =>
      rw [backToBack, edge_wait]
      cases t with
      | zero =>
        rw [if_pos (Nat.succ_pos _)]
        rfl
      | succ t =>
        rw [Nat.add_sub_add_right]
        simp only [Nat.add_lt_add_iff_right]
        exact ih t

/-- Items without a wait between them: every handshake gives a pulse exactly when there is at
most one. -/
theorem backToBack_lossless_iff (lead : ℕ) (pkts : List (BitVec 256)) :
    HandshakeLossless (commandBus id (backToBack lead pkts)) (lead + 1 + 2 * pkts.length + 4) ↔
      pkts.length ≤ 1 := by
  have hbus : commandBus id (backToBack lead pkts) = drivenBus (lead + 1) pkts :=
    funext (commandBus_backToBack lead pkts)
  have hquiet : ∀ t, lead + 1 + 2 * pkts.length ≤ t → t < lead + 1 + 2 * pkts.length + 4 →
      (drivenBus (lead + 1) pkts t).valid = false := fun t ht _ => driven_quiet ht
  rw [hbus, lossless_iff_spaced _ hquiet le_rfl]
  exact driven_spaced_iff (Nat.le_add_right _ 4)

end Nets

theorem scan_commandsFrom (items : List (Delay × Item)) (t free : ℕ) (busy : Bool)
    (hbusy : busy = true → free = t + 2) (hfree : busy = false → free ≤ t + 1) :
    (scan 3 free (commandsFrom pack t items)).map Prod.snd = (survivors busy items).map pack := by
  induction items generalizing t free busy with
  | nil => rfl
  | cons item items ih =>
    obtain ⟨d, req⟩ := item
    rw [commandsFrom, scan, survivors]
    by_cases hlost : busy = true ∧ d.edges = 0
    · have hlate : ¬ free ≤ t + d.edges + 1 := by
        have hf := hbusy hlost.1
        omega
      have hcond : (busy && d.edges == 0) = true := by simp [hlost.1, hlost.2]
      rw [if_neg hlate, if_pos hcond]
      apply ih
      · intro h
        cases h
      · intro _
        have hf := hbusy hlost.1
        omega
    · have hready : free ≤ t + d.edges + 1 := by
        cases busy with
        | false =>
          have hf := hfree rfl
          omega
        | true =>
          have hf := hbusy rfl
          have hd : d.edges ≠ 0 := fun hd => hlost ⟨rfl, hd⟩
          omega
      have hcond : ¬ (busy && d.edges == 0) = true := by
        rwa [Bool.and_eq_true, beq_iff_eq]
      rw [if_pos hready, if_neg hcond, List.map_cons, List.map_cons]
      congr 1
      apply ih
      · intro _
        rfl
      · intro h
        cases h

theorem survivors_length_le (busy : Bool) (items : List (Delay × Item)) :
    (survivors busy items).length ≤ items.length := by
  induction items generalizing busy with
  | nil => exact le_rfl
  | cons item items ih =>
    obtain ⟨d, req⟩ := item
    rw [survivors, List.length_cons]
    by_cases hlost : (busy && d.edges == 0) = true
    · rw [if_pos hlost]
      exact (ih false).trans (Nat.le_succ _)
    · rw [if_neg hlost, List.length_cons]
      exact Nat.succ_le_succ (ih true)

theorem all_survive_iff (items : List (Delay × Item)) :
    (survivors true items).length = items.length ↔ ∀ item ∈ items, 0 < item.1.edges := by
  induction items with
  | nil => simp [survivors]
  | cons item items ih =>
    obtain ⟨d, req⟩ := item
    have hle := survivors_length_le false items
    rw [survivors, List.forall_mem_cons, ← ih, List.length_cons]
    by_cases hd : d.edges = 0
    · simp only [hd, beq_self_eq_true, Bool.and_self, if_true, Nat.lt_irrefl, false_and, iff_false]
      omega
    · simp only [Bool.true_and, beq_iff_eq, hd, if_false, List.length_cons,
        Nat.add_right_cancel_iff, Nat.pos_of_ne_zero hd, true_and]

/-- From a free parser on, none is lost exactly when each but the first has been waited for. -/
theorem none_lost_iff (items : List (Delay × Item)) :
    (survivors false items).length = items.length ↔
      ∀ item ∈ items.tail, 0 < item.1.edges := by
  cases items with
  | nil => simp [survivors]
  | cons item items =>
    obtain ⟨d, req⟩ := item
    rw [survivors, Bool.false_and, if_neg (by decide), List.length_cons, List.length_cons,
      Nat.add_right_cancel_iff, all_survive_iff, List.tail_cons]

section Served
variable {pack} {items : List (Delay × Item)} {ins : ℕ → TopIn}

theorem pick_iff_scanned (hcmd : ∀ t, (ins t).cmd = commandBus pack items t) (t : ℕ) :
    Pick (cmdBus ins) t ↔ At (scan 3 0 (commandsFrom pack 0 items)) t := by
  have hoffered : ∀ u, OfferedAt (fun _ => true) ins u ↔ At (commandsFrom pack 0 items) u := by
    intro u
    rw [OfferedAt, hcmd, and_iff_right rfl]
    exact (commandBus_presented items).valid_iff u
  have hgreedy := accepted_greedy (fun _ => true) ins
  have hscan := @scan_greedy 3 _ _ (@commandsFrom_sorted _ pack 0 items)
  rw [← acceptedAt_high]
  apply hgreedy.unique
  intro u
  rw [hoffered]
  exact hscan u

def sentAs (c : ℕ × BitVec 256) : ℕ × BitVec 64 × Bool := (c.1 + 4, payload c.2, true)

theorem mem_tx_events (hcmd : ∀ t, (ins t).cmd = commandBus pack items t)
    {t : ℕ} {b : BitVec 64 × Bool} : (txPort ins t).beat = some b ↔
      (t, b) ∈ (scan 3 0 (commandsFrom pack 0 items)).map sentAs := by
  have hsub := (scan_sublist 3 0 (commandsFrom pack 0 items)).subset
  have hpay : ∀ c ∈ commandsFrom pack 0 items,
      payload c.2 = (cmdBus ins (c.1 + 1)).data.extractLsb' 0 64 := by
    intro c hc
    rw [cmdBus, hcmd, (commandBus_presented items).held c hc]
    exact BitVec.extractLsb'_extractLsb'_of_le (by decide)
  rw [List.mem_map]
  constructor
  · intro hb
    obtain ⟨d, l⟩ := b
    obtain ⟨hv, rfl, rfl⟩ := beat_eq_some.mp hb
    obtain ⟨p, rfl, hp⟩ := (tx_follows ins t).mp hv
    obtain ⟨c, hc, rfl⟩ := (pick_iff_scanned hcmd p).mp hp
    obtain ⟨hlast, hdata⟩ := tx_beat_at ins hp
    refine ⟨c, hc, ?_⟩
    rw [sentAs, hlast, hdata, hpay c (hsub hc)]
  · rintro ⟨c, hc, heq⟩
    rw [sentAs, Prod.mk.injEq] at heq
    obtain ⟨rfl, rfl⟩ := heq
    have hp := (pick_iff_scanned hcmd c.1).mpr ⟨c, hc, rfl⟩
    obtain ⟨hlast, hdata⟩ := tx_beat_at ins hp
    apply beat_eq_some.mpr
    exact ⟨(tx_follows ins _).mpr ⟨c.1, rfl, hp⟩, by rw [hdata, hpay c (hsub hc)], hlast⟩

theorem tx_beats_served (hcmd : ∀ t, (ins t).cmd = commandBus pack items t) {n : ℕ}
    (hn : duration items + 4 ≤ n) : beatsBefore (txPort ins) n =
      (survivors false items).map fun req => (payload (pack req), true) := by
  have hsub := scan_sublist 3 0 (commandsFrom pack 0 items)
  have hscanned : Sorted ((scan 3 0 (commandsFrom pack 0 items)).map sentAs) := by
    apply List.Pairwise.map _ _ ((commandsFrom_sorted 0 items).sublist hsub)
    intro a b hab
    exact Nat.add_lt_add_right hab 4
  have hev : eventsBefore (fun t => (txPort ins t).beat) n =
      (scan 3 0 (commandsFrom pack 0 items)).map sentAs := by
    apply sorted_ext (eventsBefore_sorted _ n) hscanned
    rintro ⟨t, b⟩
    rw [mem_eventsBefore, mem_tx_events hcmd]
    apply and_iff_right_of_imp
    intro hmem
    obtain ⟨c, hc, heq⟩ := List.mem_map.mp hmem
    have hlt := commandsFrom_lt c (hsub.subset hc)
    have ht : c.1 + 4 = t := congrArg Prod.fst heq
    omega
  have hval := eventsBefore_values (fun t => (txPort ins t).beat) n
  have hkeys := scan_commandsFrom pack items 0 0 false (fun h => nomatch h) fun _ => Nat.zero_le 1
  have hfront : ∀ l : List (ℕ × BitVec 256), (l.map sentAs).map Prod.snd =
      (l.map Prod.snd).map fun pkt => (payload pkt, true) := by
    intro l
    rw [List.map_map, List.map_map]
    rfl
  rw [hev, hfront, hkeys, List.map_map] at hval
  exact hval.symm

theorem completions_served (hcmd : ∀ t, (ins t).cmd = commandBus pack items t) {n : ℕ}
    (hn : duration items + 5 ≤ n) :
    Nat.count (CompValid ins) n = (survivors false items).length := by
  obtain ⟨m, rfl⟩ : ∃ m, n = m + 1 := ⟨n - 1, by omega⟩
  have hfollows : Follows 1 (TxValid ins) (CompValid ins) :=
    follows_one (fun h => nomatch h) (compValid_succ ins)
  have hshown : ∀ t, Shown (fun t => (txPort ins t).beat) t ↔ TxValid ins t := by
    intro t
    rw [Shown, Option.isSome_iff_ne_none, ne_eq, beat_eq_none, Bool.not_eq_false]
    exact Iff.rfl
  rw [hfollows.count_add, ← count_shown hshown, ← length_valuesBefore]
  have hbeats := congrArg List.length (@tx_beats_served _ pack items ins hcmd m (by omega))
  rwa [List.length_map] at hbeats

end Served

/-- Whatever the ports do, the tx port shows the payloads of the items that got through, each
as a packet of one beat and in order, and they are all that completes. None is lost exactly
when the driver had to wait for each but the first. -/
theorem driven_commands_served (items : List (Delay × Item)) (ins : ℕ → TopIn)
    (hcmd : ∀ t, (ins t).cmd = commandBus pack items t) (n : ℕ) (hn : duration items + 5 ≤ n) :
    beatsBefore (txPort ins) n =
      (survivors false items).map (fun req => (payload (pack req), true)) ∧
    Nat.count (CompValid ins) n = (survivors false items).length ∧
    (Nat.count (CompValid ins) n = items.length ↔ ∀ item ∈ items.tail, 0 < item.1.edges) := by
  have hcomp := completions_served hcmd hn
  refine ⟨tx_beats_served hcmd (by omega), hcomp, ?_⟩
  rw [hcomp]
  exact none_lost_iff items

def someCommands : List (Delay × BitVec 256) :=
  [(⟨1, true⟩, 7), (⟨0, false⟩, 8), (⟨0, true⟩, 9), (⟨2, false⟩, 10)]

def commandIns (t : ℕ) : TopIn :=
  ⟨⟨true, 1, true⟩, ⟨true, 2, false⟩, commandBus id someCommands t⟩

theorem some_commands_served :
    survivors false someCommands = [7, 9, 10] ∧
    beatsBefore (txPort commandIns) 16 =
      (survivors false someCommands).map (fun req => (payload (id req), true)) ∧
    Nat.count (CompValid commandIns) 16 = (survivors false someCommands).length ∧
    (Nat.count (CompValid commandIns) 16 = someCommands.length ↔
      ∀ item ∈ someCommands.tail, 0 < item.1.edges) :=
  ⟨by decide, driven_commands_served id someCommands commandIns (fun _ => rfl) 16 (by decide)⟩

end CmdDriver
