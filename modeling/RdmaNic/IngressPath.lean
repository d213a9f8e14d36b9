import RdmaNic.RdmaTop
import RdmaNic.StreamMerge

/-! # The ingress path: both ports through the mux into the scheduler

The host port reaches the mux in the same cycle, the rx port one cycle later, and the
scheduler adds a cycle. The mux gives way to the host beat by beat and keeps no record
of which source has a packet open. -/
namespace IngressPath
open ClockedMachine PacketFraming PacketPlacement PlacedPacket StreamMerge PortSignals RdmaTop

inductive Source where
  | host
  | rx
  deriving DecidableEq, Repr

def Source.latency : Source → ℕ
  | .host => 0
  | .rx => 1

def port (ins : ℕ → TopIn) : Source → ℕ → PortCycle
  | .host, t => (ins t).host
  | .rx, t => (ins t).rx

def Offers (ins : ℕ → TopIn) (traffic : Source → List Packet) : Prop :=
  ∀ src, PortCarries (port ins src) (traffic src)

def atMux (traffic : Source → List Packet) : List Packet :=
  traffic .host ++ (traffic .rx).map (shift 1)

/-- An rx beat and the host beat of the next cycle meet at the mux. -/
def MuxCollision (ins : ℕ → TopIn) (t : ℕ) : Prop :=
  (port ins .rx t).valid = true ∧ (port ins .host (t + 1)).valid = true

section Mux
variable {ins : ℕ → TopIn} {traffic : Source → List Packet}

def playing (traffic : Source → List Packet) (t : ℕ) : TopIn :=
  ⟨portOf (traffic .host) t, portOf (traffic .rx) t, ⟨false, 0⟩⟩

theorem playing_offers (hs : ∀ src, (traffic src).Pairwise (Before 0)) :
    Offers (playing traffic) traffic := by
  intro src
  have h := portOf_carries (hs src)
  cases src <;> exact h

def apartTraffic : Source → List Packet
  | .host => [⟨[(0, 5)], (2, 6), by decide⟩]
  | .rx => [⟨[(4, 7)], (5, 8), by decide⟩]

theorem apart_traffic_offered : Offers (playing apartTraffic) apartTraffic :=
  playing_offers fun src => by cases src <;> decide

def rxStage (ins : ℕ → TopIn) (t : ℕ) : Option (BitVec 64 × Bool) :=
  (rdmaTop.runHigh ins t).rx.beat

theorem schedInput_priority (ins : ℕ → TopIn) : (fun t => (schedInput ins t).beat) =
    priority (fun t => (port ins .host t).beat) (rxStage ins) :=
  funext (schedInput_beat ins)

theorem isSome_beat (c : PortCycle) : c.beat.isSome = c.valid := by
  simp only [PortCycle.beat]
  by_cases hv : c.valid = true <;> simp [hv]

theorem collide_zero : ¬ Collide (fun t => (port ins .host t).beat) (rxStage ins) 0 :=
  fun h => absurd h.2 (by rw [rxStage, run_rx_zero]; decide)

theorem collide_succ (t : ℕ) :
    Collide (fun t => (port ins .host t).beat) (rxStage ins) (t + 1) ↔ MuxCollision ins t := by
  simp only [Collide, MuxCollision, rxStage, run_rx_succ, isSome_beat]
  exact and_comm

theorem no_collide_iff (n : ℕ) :
    (∀ t < n + 1, ¬ Collide (fun t => (port ins .host t).beat) (rxStage ins) t) ↔
      ∀ t < n, ¬ MuxCollision ins t := by
  rw [Nat.forall_lt_succ_left]
  simp only [collide_succ]
  exact and_iff_right collide_zero

theorem rxStage_carries (h : Offers ins traffic) :
    Carries (rxStage ins) ((traffic .rx).map (shift 1)) :=
  carries_delay (h .rx) rfl fun _ => rfl

theorem schedInput_carries (h : Offers ins traffic) (hc : ∀ t, ¬ MuxCollision ins t) :
    PortCarries (schedInput ins) (atMux traffic) := by
  simp only [PortCarries]
  rw [schedInput_priority]
  refine carries_priority (h .host) (rxStage_carries h) fun t => ?_
  exact (no_collide_iff t).mpr (fun u _ => hc u) t (Nat.lt_succ_self t)

theorem no_mux_collision_of_apart (h : Offers ins traffic)
    (ha : (atMux traffic).Pairwise (Apart 0)) (t : ℕ) : ¬ MuxCollision ins t := by
  rw [← collide_succ]
  refine no_collision_of_apart (h .host) (rxStage_carries h) ?_ (t + 1)
  exact (List.pairwise_append.mp ha).2.2

/-- The beats of both ports reach the scheduler, each once and in order for its port,
exactly when no rx beat meets a host beat. What the mux shows up to a cycle are the host
beats up to then and the rx beats of the cycles before. -/
theorem mux_conserves_iff_no_collision (ins : ℕ → TopIn) (n : ℕ) :
    Interleaving (beatsBefore (port ins .host) (n + 1)) (beatsBefore (port ins .rx) n)
      (beatsBefore (schedInput ins) (n + 1)) ↔ ∀ t < n, ¬ MuxCollision ins t := by
  have hrx : valuesBefore (rxStage ins) (n + 1) = beatsBefore (port ins .rx) n :=
    valuesBefore_delay (run_rx_zero ins) fun t _ => by rw [rxStage, run_rx_succ, port]
  unfold beatsBefore at hrx ⊢
  rw [← hrx, schedInput_priority, priority_interleaving_iff, no_collide_iff]

def collidingTraffic : Source → List Packet
  | .host => [⟨[], (1, 5), by decide⟩]
  | .rx => [⟨[], (0, 7), by decide⟩]

theorem colliding_beat_lost :
    beatsBefore (port (playing collidingTraffic) .host) 3 = [(5, true)] ∧
    beatsBefore (port (playing collidingTraffic) .rx) 2 = [(7, true)] ∧
    beatsBefore (schedInput (playing collidingTraffic)) 3 = [(5, true)] ∧
    ¬ Interleaving (beatsBefore (port (playing collidingTraffic) .host) 3)
      (beatsBefore (port (playing collidingTraffic) .rx) 2)
      (beatsBefore (schedInput (playing collidingTraffic)) 3) := by
  refine ⟨by decide, by decide, by decide, ?_⟩
  intro h
  exact absurd h.length (by decide)

theorem gap_of_apart {f : ℕ → PortCycle} {ps : List Packet} (h : PortCarries f ps)
    (ha : ps.Pairwise (Apart 1)) (n : ℕ) : RdmaSched.GapAfterLast f n := by
  intro t _ hv hl
  by_contra hv'
  rw [Bool.not_eq_false] at hv'
  obtain ⟨p, hp, hpm⟩ := (h t _).mp (beat_eq_some.mpr ⟨hv, rfl, hl⟩)
  obtain ⟨q, hq, hqm⟩ := (h (t + 1) _).mp (beat_eq_some.mpr ⟨hv', rfl, rfl⟩)
  have htp := last_of_flag hpm
  have hpw := within hpm
  have hqw := within hqm
  by_cases hpq : p = q
  · subst hpq; omega
  · have := ha.forall hp hq hpq
    simp only [Apart, Before] at this
    omega

theorem sch2tx_beats {m : ℕ} (hgap : RdmaSched.GapAfterAccepted (schedInput ins) m) :
    beatsBefore (sch2tx ins) (m + 1) = beatsBefore (schedInput ins) m := by
  rw [sch2tx_eq]
  exact valuesBefore_delay RdmaSched.schedOut_zero fun t ht => RdmaSched.forwarded_of_gap hgap ht

theorem sch2tx_packets {ps : List Packet} (h : PortCarries (schedInput ins) ps)
    (hs : ps.Pairwise (Before 1)) {n : ℕ} (hn : ∀ p ∈ ps, p.last + 1 < n) :
    cut Prod.snd (beatsBefore (sch2tx ins) n) = ⟨ps.map beats, []⟩ := by
  cases n with
  | zero =>
    have hnil : ps = [] :=
      List.eq_nil_iff_forall_not_mem.mpr fun p hp => absurd (hn p hp) (Nat.not_lt_zero _)
    rw [hnil]
    rfl
  | succ m =>
    have hgap := RdmaSched.accepted_gap_of_gap (gap_of_apart h (hs.imp Or.inl) m)
    rw [sch2tx_beats hgap]
    apply carried_packets h (hs.imp (before_mono (Nat.zero_le 1)))
    intro p hp
    exact Nat.lt_of_succ_lt_succ (hn p hp)

theorem mux_in_order (h : Offers ins traffic) (ha : (atMux traffic).Pairwise (Apart 1)) :
    PortCarries (schedInput ins) (inOrder (atMux traffic)) ∧
      (inOrder (atMux traffic)).Pairwise (Before 1) := by
  have ha0 := ha.imp (apart_mono (Nat.zero_le 1))
  have hmux := schedInput_carries h (no_mux_collision_of_apart h ha0)
  exact ⟨carries_inOrder hmux, inOrder_before ha⟩

/-- Packets that keep apart at the mux leave the scheduler intact, once each and in
the order of their intervals. -/
theorem scheduler_emits_packets (ins : ℕ → TopIn) (traffic : Source → List Packet)
    (h : Offers ins traffic) (ha : (atMux traffic).Pairwise (Apart 1)) (n : ℕ)
    (hn : ∀ p ∈ atMux traffic, p.last + 1 < n) :
    cut Prod.snd (beatsBefore (sch2tx ins) n) =
      ⟨(inOrder (atMux traffic)).map beats, []⟩ := by
  obtain ⟨hmux, hbefore⟩ := mux_in_order h ha
  apply sch2tx_packets hmux hbefore
  intro p hp
  exact hn p (mem_inOrder.mp hp)

theorem apart_traffic_emitted :
    cut Prod.snd (beatsBefore (sch2tx (playing apartTraffic)) 8) =
      ⟨(inOrder (atMux apartTraffic)).map beats, []⟩ :=
  scheduler_emits_packets _ apartTraffic apart_traffic_offered (by decide) 8 (by decide)

def emitted (ins : ℕ → TopIn) (n : ℕ) : List (List (ℕ × BitVec 64 × Bool)) :=
  (cut lastFlag (eventsBefore (fun t => (sch2tx ins t).beat) n)).frames

def IsPacketOf (traffic : Source → List Packet) (e : List (ℕ × BitVec 64 × Bool))
    (sp : Source × Packet) : Prop :=
  sp.2 ∈ traffic sp.1 ∧ e = (sp.2.shift (sp.1.latency + 1)).stamped

/-- Every emitted packet is made of the beats of exactly one packet of one source. -/
def Unmixed (ins : ℕ → TopIn) (traffic : Source → List Packet) (n : ℕ) : Prop :=
  ∀ e ∈ emitted ins n, ∃! sp, IsPacketOf traffic e sp

theorem mem_atMux {p : Packet} : p ∈ atMux traffic ↔
    ∃ sp : Source × Packet, sp.2 ∈ traffic sp.1 ∧ p = sp.2.shift sp.1.latency := by
  rw [atMux, List.mem_append, List.mem_map]
  constructor
  · intro h
    rcases h with hp | ⟨q, hq, rfl⟩
    · exact ⟨(.host, p), hp, (shift_zero p).symm⟩
    · exact ⟨(.rx, q), hq, rfl⟩
  · intro h
    rcases h with ⟨⟨src, q⟩, hq, rfl⟩
    cases src with
    | host => exact Or.inl (by rwa [Source.latency, shift_zero])
    | rx => exact Or.inr ⟨q, hq, rfl⟩

theorem stamped_one_later (sp : Source × Packet) :
    (sp.2.shift sp.1.latency).stamped.map (later 1) =
      (sp.2.shift (sp.1.latency + 1)).stamped := by
  rw [stamped_shift, stamped_shift, List.map_map]
  rfl

theorem later_injective {β : Type*} (k : ℕ) : Function.Injective (later k : ℕ × β → ℕ × β) := by
  rintro ⟨a, x⟩ ⟨b, y⟩ hab
  simp only [later, Prod.mk.injEq, Nat.add_right_cancel_iff] at hab
  exact Prod.ext hab.1 hab.2

theorem owner_unique (h : Offers ins traffic)
    (hs : ∀ src, (traffic src).Pairwise (Apart 0)) (hc : ∀ t, ¬ MuxCollision ins t)
    {a b : Source × Packet} (ha : a.2 ∈ traffic a.1) (hb : b.2 ∈ traffic b.1)
    {t : ℕ} {x y : BitVec 64 × Bool} (hx : (t, x) ∈ (a.2.shift a.1.latency).stamped)
    (hy : (t, y) ∈ (b.2.shift b.1.latency).stamped) : a = b := by
  obtain ⟨u, rfl, hu⟩ := mem_stamped_shift.mp hx
  obtain ⟨v, hv, hvm⟩ := mem_stamped_shift.mp hy
  have hua := (beat_eq_some.mp ((h a.1 u x).mpr ⟨a.2, ha, hu⟩)).1
  have hvb := (beat_eq_some.mp ((h b.1 v y).mpr ⟨b.2, hb, hvm⟩)).1
  obtain ⟨sa, p⟩ := a
  obtain ⟨sb, q⟩ := b
  by_cases hab : sa = sb
  · subst hab
    obtain rfl : u = v := Nat.add_right_cancel hv
    by_cases hpq : p = q
    · rw [hpq]
    · exact (apart_no_common_cycle ((hs sa).forall ha hb hpq) hu hvm).elim
  · cases sa <;> cases sb <;> simp only [Source.latency] at hv
    · exact absurd rfl hab
    · exact (hc v ⟨hvb, by rwa [← hv]⟩).elim
    · exact (hc u ⟨hua, by rwa [hv]⟩).elim
    · exact absurd rfl hab

theorem emitted_eq {m : ℕ} (hgap : RdmaSched.GapAfterAccepted (schedInput ins) m) :
    emitted ins (m + 1) = (cut lastFlag
      (eventsBefore (fun t => (schedInput ins t).beat) m)).frames.map (List.map (later 1)) := by
  have hout : eventsBefore (fun t => (sch2tx ins t).beat) (m + 1) =
      (eventsBefore (fun t => (schedInput ins t).beat) m).map (later 1) := by
    rw [sch2tx_eq]
    exact eventsBefore_delay RdmaSched.schedOut_zero
      fun t ht => RdmaSched.forwarded_of_gap hgap ht
  rw [emitted, hout, cut_map]
  rfl

theorem unmixed_of_apart (h : Offers ins traffic)
    (hs : ∀ src, (traffic src).Pairwise (Apart 0)) (hc : ∀ t, ¬ MuxCollision ins t) {m : ℕ}
    (hgap : RdmaSched.GapAfterAccepted (schedInput ins) m)
    (hn : ∀ p ∈ atMux traffic, p.last < m) (ha : (atMux traffic).Pairwise (Apart 0)) :
    Unmixed ins traffic (m + 1) := by
  intro e he
  have hframes := carried_frames (carries_inOrder (schedInput_carries h hc)) (inOrder_before ha)
    fun p hp => hn p (mem_inOrder.mp hp)
  rw [emitted_eq hgap, hframes] at he
  obtain ⟨f, hf, rfl⟩ := List.mem_map.mp he
  obtain ⟨p, hp, rfl⟩ := List.mem_map.mp hf
  obtain ⟨sp, hsp, rfl⟩ := mem_atMux.mp (mem_inOrder.mp hp)
  refine ⟨sp, ⟨hsp, stamped_one_later sp⟩, ?_⟩
  rintro sp' ⟨hsp', he'⟩
  rw [← stamped_one_later] at he'
  have heq := List.map_injective_iff.mpr (later_injective 1) he'
  have hlast := last_mem (sp.2.shift sp.1.latency)
  exact owner_unique h hs hc hsp' hsp (heq ▸ hlast) hlast

theorem frame_of_unmixed (h : Offers ins traffic)
    (hs : ∀ src, (traffic src).Pairwise (Apart 0)) (hc : ∀ t, ¬ MuxCollision ins t) {m : ℕ}
    (hgap : RdmaSched.GapAfterAccepted (schedInput ins) m)
    (hn : ∀ p ∈ atMux traffic, p.last < m) (hu : Unmixed ins traffic (m + 1))
    {sp : Source × Packet} (hsp : sp.2 ∈ traffic sp.1) :
    (sp.2.shift sp.1.latency).stamped ∈
      (cut lastFlag (eventsBefore (fun t => (schedInput ins t).beat) m)).frames := by
  have hp : sp.2.shift sp.1.latency ∈ atMux traffic := mem_atMux.mpr ⟨sp, hsp, rfl⟩
  have hlast := last_mem (sp.2.shift sp.1.latency)
  have hev : _ ∈ eventsBefore (fun t => (schedInput ins t).beat) m :=
    mem_eventsBefore.mpr ⟨hn _ hp, (schedInput_carries h hc _ _).mpr ⟨_, hp, hlast⟩⟩
  obtain ⟨f, hf, hmem⟩ := @mem_frame_of_last _ lastFlag _ _ hev rfl
  obtain ⟨sp', ⟨hsp', he⟩, _⟩ := hu _ (by
    rw [emitted_eq hgap]
    exact List.mem_map_of_mem hf)
  rw [← stamped_one_later] at he
  have hfeq := List.map_injective_iff.mpr (later_injective 1) he
  rw [hfeq] at hmem hf
  rw [owner_unique h hs hc hsp hsp' hlast hmem]
  exact hf

/-- Without losses, no emitted packet is mixed exactly when the intervals of host and
rx packets are disjoint at the mux. -/
theorem unmixed_iff_disjoint (ins : ℕ → TopIn) (traffic : Source → List Packet)
    (h : Offers ins traffic) (hs : ∀ src, (traffic src).Pairwise (Apart 0))
    (hc : ∀ t, ¬ MuxCollision ins t) (m : ℕ)
    (hgap : RdmaSched.GapAfterAccepted (schedInput ins) m)
    (hn : ∀ p ∈ atMux traffic, p.last < m) :
    Unmixed ins traffic (m + 1) ↔
      ∀ p ∈ traffic .host, ∀ q ∈ traffic .rx, Apart 0 p (q.shift 1) := by
  constructor
  · intro hu p hp q hq
    have hfp := @frame_of_unmixed _ _ h hs hc _ hgap hn hu (.host, p) hp
    have hfq := @frame_of_unmixed _ _ h hs hc _ hgap hn hu (.rx, q) hq
    have hne : (p.shift 0).stamped ≠ (q.shift 1).stamped := by
      intro heq
      have hlast := last_mem (p.shift 0)
      have hsrc : ((.host, p) : Source × Packet) = (.rx, q) :=
        owner_unique h hs hc hp hq hlast (heq ▸ hlast)
      cases hsrc
    obtain ⟨x, hx⟩ := first_mem (p.shift 0)
    obtain ⟨y, hy⟩ := first_mem (q.shift 1)
    rcases frames_ordered (eventsBefore_sorted _ m) hfp hfq hne with hlt | hlt
    · exact Or.inl (hlt _ (last_mem (p.shift 0)) _ hy)
    · have hqp := hlt _ (last_mem (q.shift 1)) _ hx
      rw [first_shift] at hqp
      exact Or.inr hqp
  · intro hd
    refine unmixed_of_apart h hs hc hgap hn (List.pairwise_append.mpr ⟨hs .host, ?_, ?_⟩)
    · exact List.Pairwise.map _ (fun _ _ => apart_shift.mpr) (hs .rx)
    · intro p hp q' hq'
      obtain ⟨q, hq, rfl⟩ := List.mem_map.mp hq'
      exact hd p hp q hq

theorem apart_traffic_unmixed :
    Unmixed (playing apartTraffic) apartTraffic 8 ↔
      ∀ p ∈ apartTraffic .host, ∀ q ∈ apartTraffic .rx, Apart 0 p (q.shift 1) :=
  unmixed_iff_disjoint _ apartTraffic apart_traffic_offered (fun src => by cases src <;> decide)
    (no_mux_collision_of_apart apart_traffic_offered (by decide)) 7 (by decide) (by decide)

def nestedTraffic : Source → List Packet
  | .host => [⟨[(0, 5)], (4, 6), by decide⟩]
  | .rx => [⟨[], (0, 7), by decide⟩]

theorem nested_traffic_mixed :
    Offers (playing nestedTraffic) nestedTraffic ∧
    (∀ src, (nestedTraffic src).Pairwise (Apart 0)) ∧
    (∀ t, ¬ MuxCollision (playing nestedTraffic) t) ∧
    RdmaSched.GapAfterAccepted (schedInput (playing nestedTraffic)) 5 ∧
    (∀ p ∈ atMux nestedTraffic, p.last < 5) ∧
    emitted (playing nestedTraffic) 6 = [[(1, 5, false), (2, 7, true)], [(5, 6, true)]] ∧
    ¬ Unmixed (playing nestedTraffic) nestedTraffic 6 := by
  have hoff : Offers (playing nestedTraffic) nestedTraffic :=
    playing_offers fun src => by cases src <;> decide
  have hem : emitted (playing nestedTraffic) 6 =
      [[(1, 5, false), (2, 7, true)], [(5, 6, true)]] := by decide
  refine ⟨hoff, fun src => by cases src <;> decide, ?_, by decide, by decide, hem, ?_⟩
  · rintro t ⟨hr, _⟩
    cases t with
    | zero => contradiction
    | succ t =>
      have hn := (hoff .rx).idle_after (t := t + 1) (by simp [nestedTraffic, last])
      rw [beat_eq_none] at hn
      rw [hn] at hr
      cases hr
  · intro hu
    obtain ⟨⟨src, p⟩, ⟨hp, he⟩, _⟩ := hu [(1, 5, false), (2, 7, true)] (by rw [hem]; simp)
    cases src <;> obtain rfl := List.mem_singleton.mp hp <;> exact absurd he (by decide)

end Mux

end IngressPath
