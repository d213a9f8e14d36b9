import Mathlib.Algebra.GroupWithZero.Nat
import Mathlib.Logic.Function.Iterate
import RdmaNic.PacketFraming

/-! # A process that drives signals through a clocking block

A drive made at a clock edge takes effect just after it, one made between edges just after
the next edge, and of several that take effect together the last one wins. The signals of
cycle `t` are those sampled at the `t`-th edge, before it changes them. -/
namespace ClockingBlock
open PacketFraming

variable {σ β : Type*}

/-- What a process does: drive signals, wait for the next edge as `@(cb)` does, or wait for
something that happens before the next edge. -/
inductive Op (σ : Type*) where
  | drive (f : σ → σ)
  | waitEdge
  | waitBetween

/-- The drives a process makes until it waits for an edge, and what it does then. -/
structure Burst (σ : Type*) where
  atEdge : List (σ → σ)
  afterEdge : List (σ → σ)
  rest : List (Op σ)

/-- A process runs on, being at an edge or between two. -/
def exec (between : Bool) : List (Op σ) → Burst σ
  | [] => ⟨[], [], []⟩
  | .drive f :: ops =>
    let b := exec between ops
    if between then { b with afterEdge := f :: b.afterEdge } else { b with atEdge := f :: b.atEdge }
  | .waitEdge :: ops => ⟨[], [], ops⟩
  | .waitBetween :: ops => exec true ops

/-- The signals, the drives that take effect at the next edge, and what the process does then. -/
structure Proc (σ : Type*) where
  bus : σ
  due : List (σ → σ)
  prog : List (Op σ)

def settle (bus : σ) (ds : List (σ → σ)) : σ := ds.foldl (fun b f => f b) bus

def Proc.edge (p : Proc σ) : Proc σ :=
  let b := exec false p.prog
  ⟨settle p.bus (p.due ++ b.atEdge), b.afterEdge, b.rest⟩

def Proc.start (bus : σ) (prog : List (Op σ)) : Proc σ :=
  let b := exec true prog
  ⟨bus, b.afterEdge, b.rest⟩

def Proc.busAt (p : Proc σ) (t : ℕ) : σ := (Proc.edge^[t] p).bus

theorem settle_append (bus : σ) (ds es : List (σ → σ)) :
    settle bus (ds ++ es) = settle (settle bus ds) es := List.foldl_append

theorem exec_between_atEdge (prog : List (Op σ)) : (exec true prog).atEdge = [] := by
  induction prog with
  | nil => rfl
  | cons op prog ih =>
    cases op with
    | drive f => exact ih
    | waitEdge => rfl
    | waitBetween => exact ih

section Edge
variable (bus : σ) (prog : List (Op σ))

theorem edge_due (due : List (σ → σ)) :
    Proc.edge ⟨bus, due, prog⟩ = Proc.edge ⟨settle bus due, [], prog⟩ := by
  simp only [Proc.edge, settle_append, List.nil_append]

theorem edge_drive (f : σ → σ) :
    Proc.edge ⟨bus, [], .drive f :: prog⟩ = Proc.edge ⟨f bus, [], prog⟩ := rfl

theorem edge_waitBetween :
    Proc.edge ⟨bus, [], .waitBetween :: prog⟩ = Proc.start bus prog := by
  simp only [Proc.edge, exec, exec_between_atEdge, Proc.start, List.nil_append]
  rfl

end Edge

/-- The values in the `n` cycles after the next edge. -/
def Proc.shown (view : σ → Option β) (p : Proc σ) (n : ℕ) : List β :=
  valuesBefore (fun t => view (p.edge.busAt t)) n

section Shown
variable {view : σ → Option β} {bus : σ} {prog : List (Op σ)} {n : ℕ}

theorem shown_succ (p : Proc σ) (n : ℕ) :
    p.shown view (n + 1) = (view p.edge.bus).toList ++ p.edge.shown view n :=
  valuesBefore_succ' _ n

theorem shown_of_edge {p q : Proc σ} (h : p.edge = q.edge) (n : ℕ) :
    p.shown view n = q.shown view n := by
  rw [Proc.shown, Proc.shown, h]

/-- Before the first edge a process is between two. -/
theorem values_start (n : ℕ) : valuesBefore (fun t => view ((Proc.start bus prog).busAt t)) n =
    (⟨bus, [], .waitBetween :: prog⟩ : Proc σ).shown view n := by
  rw [Proc.shown, edge_waitBetween]

theorem shown_due (due : List (σ → σ)) (n : ℕ) :
    (⟨bus, due, prog⟩ : Proc σ).shown view n =
      (⟨settle bus due, [], prog⟩ : Proc σ).shown view n :=
  shown_of_edge (edge_due bus prog due) n

theorem shown_drive (f : σ → σ) (n : ℕ) : (⟨bus, [], .drive f :: prog⟩ : Proc σ).shown view n =
    (⟨f bus, [], prog⟩ : Proc σ).shown view n :=
  shown_of_edge (edge_drive bus prog f) n

theorem shown_waitEdge (n : ℕ) : (⟨bus, [], .waitEdge :: prog⟩ : Proc σ).shown view (n + 1) =
    (view bus).toList ++ (⟨bus, [], prog⟩ : Proc σ).shown view n :=
  shown_succ _ n

theorem shown_waitBetween (n : ℕ) :
    (⟨bus, [], .waitBetween :: prog⟩ : Proc σ).shown view (n + 1) =
      (view bus).toList ++ (Proc.start bus prog).shown view n := by
  rw [shown_succ, edge_waitBetween]
  rfl

theorem shown_done (h : view bus = none) (n : ℕ) :
    (⟨bus, [], []⟩ : Proc σ).shown view n = [] := by
  induction n with
  | zero => rfl
  | succ n ih =>
    have hedge : Proc.edge ⟨bus, [], []⟩ = ⟨bus, [], []⟩ := rfl
    rw [shown_succ, hedge, ih, h]
    rfl

theorem shown_waits (h : view bus = none) (k n : ℕ) :
    (⟨bus, [], List.replicate k .waitEdge ++ prog⟩ : Proc σ).shown view (k + n) =
      (⟨bus, [], prog⟩ : Proc σ).shown view n := by
  induction k with
  | zero => rw [Nat.zero_add, List.replicate_zero, List.nil_append]
  | succ k ih =>
    rw [Nat.succ_add, List.replicate_succ, List.cons_append, shown_waitEdge, h, ih]
    rfl

/-- A drive that shows nothing, made by a process that has just started, may as well have
been made before. -/
theorem shown_start_drive {f : σ → σ} (h : view (f bus) = view bus) (n : ℕ) :
    (⟨bus, [], .waitBetween :: .drive f :: prog⟩ : Proc σ).shown view n =
      (⟨f bus, [], .waitBetween :: prog⟩ : Proc σ).shown view n := by
  cases n with
  | zero => rfl
  | succ n =>
    have hstart : (Proc.start bus (.drive f :: prog)).shown view n =
        (Proc.start (f bus) prog).shown view n :=
      (shown_due _ n).trans (shown_due _ n).symm
    rw [shown_waitBetween, shown_waitBetween, h, hstart]

def play (vs : List σ) : List (Op σ) := vs.flatMap fun v => [.drive fun _ => v, .waitEdge]

theorem shown_play (vs : List σ) (bus : σ) (n : ℕ) : ∃ bus',
    (⟨bus, [], play vs ++ prog⟩ : Proc σ).shown view (vs.length + n) =
      vs.filterMap view ++ (⟨bus', [], prog⟩ : Proc σ).shown view n := by
  induction vs generalizing bus with
  | nil => exact ⟨bus, by rw [List.length_nil, Nat.zero_add]; rfl⟩
  | cons v vs ih =>
    obtain ⟨bus', h⟩ := ih v
    refine ⟨bus', ?_⟩
    have hprog : play (v :: vs) ++ prog =
        .drive (fun _ => v) :: .waitEdge :: (play vs ++ prog) := rfl
    rw [hprog, shown_drive, List.length_cons, Nat.succ_add, shown_waitEdge, h, List.filterMap_cons]
    cases view v <;> rfl

end Shown

/-- What a process waits for comes after that many edges, at the last of them or later but
before the next one. -/
structure Delay where
  edges : ℕ
  between : Bool
  deriving DecidableEq, Repr

def Delay.ops (d : Delay) : List (Op σ) :=
  List.replicate d.edges .waitEdge ++ if d.between then [.waitBetween] else []

/-- A process that has just started hears of it at an edge. -/
def Delay.AtEdge (d : Delay) : Prop := 0 < d.edges ∧ d.between = false

instance (d : Delay) : Decidable d.AtEdge := inferInstanceAs (Decidable (_ ∧ _))

section Delays
variable {view : σ → Option β} {bus : σ} {prog : List (Op σ)}

theorem shown_between_wait (n : ℕ) :
    (⟨bus, [], .waitBetween :: .waitEdge :: prog⟩ : Proc σ).shown view n =
      (⟨bus, [], .waitEdge :: prog⟩ : Proc σ).shown view n :=
  shown_of_edge (edge_waitBetween bus _) n

theorem shown_between_twice (n : ℕ) :
    (⟨bus, [], .waitBetween :: .waitBetween :: prog⟩ : Proc σ).shown view n =
      (⟨bus, [], .waitBetween :: prog⟩ : Proc σ).shown view n :=
  shown_of_edge ((edge_waitBetween bus _).trans (edge_waitBetween bus _).symm) n

theorem shown_arrive (h : view bus = none) (d : Delay) (n : ℕ) :
    (⟨bus, [], .waitBetween :: (d.ops ++ prog)⟩ : Proc σ).shown view (d.edges + n) =
      (⟨bus, [], if d.AtEdge then prog else .waitBetween :: prog⟩ : Proc σ).shown view n := by
  obtain ⟨edges, between⟩ := d
  cases edges with
  | zero =>
    rw [Nat.zero_add, if_neg (fun hd : Delay.AtEdge _ => absurd hd.1 (Nat.lt_irrefl 0))]
    cases between with
    | false => rfl
    | true => exact shown_between_twice n
  | succ k =>
    have hops : .waitBetween :: ((Delay.mk (k + 1) between).ops ++ prog) =
        .waitBetween :: .waitEdge :: (List.replicate k .waitEdge ++
          ((if between then [.waitBetween] else []) ++ prog)) := by
      simp [Delay.ops, List.replicate_succ]
    rw [hops, shown_between_wait, Nat.succ_add, shown_waitEdge, h, shown_waits h]
    cases between with
    | false => rfl
    | true => rfl

theorem shown_delay (h : view bus = none) (d : Delay) (n : ℕ) :
    (⟨bus, [], d.ops ++ .waitEdge :: prog⟩ : Proc σ).shown view (d.edges + (n + 1)) =
      (⟨bus, [], prog⟩ : Proc σ).shown view n := by
  have hwait : (⟨bus, [], .waitEdge :: prog⟩ : Proc σ).shown view (n + 1) =
      (⟨bus, [], prog⟩ : Proc σ).shown view n := by
    rw [shown_waitEdge, h]
    rfl
  rw [Delay.ops, List.append_assoc, shown_waits h]
  cases d.between with
  | false => exact hwait
  | true => exact (shown_between_wait _).trans hwait

theorem start_delay (d : Delay) : Proc.start bus (d.ops ++ .waitEdge :: prog) =
    Proc.edge ⟨bus, [], d.ops ++ .waitEdge :: prog⟩ := by
  obtain ⟨edges, between⟩ := d
  cases edges with
  | zero => cases between <;> rfl
  | succ k => rfl

end Delays

section Serving
variable {Item : Type*}

/-- The loop of a driver: the wait for each item and its transaction. -/
def serveAll (transaction : Item → List (Op σ)) (items : List (Delay × Item)) : List (Op σ) :=
  items.flatMap fun item => item.1.ops ++ transaction item.2

theorem serveAll_cons (transaction : Item → List (Op σ)) (d : Delay) (item : Item)
    (items : List (Delay × Item)) : serveAll transaction ((d, item) :: items) =
      d.ops ++ (transaction item ++ serveAll transaction items) := by
  rw [serveAll, List.flatMap_cons, List.append_assoc]
  rfl

def servingEdges (edges : Item → ℕ) (items : List (Delay × Item)) : ℕ :=
  (items.map fun item => item.1.edges + edges item.2).sum

theorem servingEdges_cons (edges : Item → ℕ) (d : Delay) (item : Item)
    (items : List (Delay × Item)) : servingEdges edges ((d, item) :: items) =
      d.edges + edges item + servingEdges edges items := by
  simp only [servingEdges, List.map_cons, List.sum_cons]

/-- The transaction that shows a value for one cycle, from the next edge on. -/
def pulse (v : σ) (clear : σ → σ) : List (Op σ) :=
  [.waitEdge, .drive fun _ => v, .waitEdge, .drive clear]

theorem pulse_append (v : σ) (clear : σ → σ) (prog : List (Op σ)) : pulse v clear ++ prog =
    .waitEdge :: .drive (fun _ => v) :: .waitEdge :: .drive clear :: prog := rfl

theorem start_pulses (value : Item → σ) (clear : σ → σ) (bus : σ) (items : List (Delay × Item)) :
    Proc.start bus (serveAll (fun item => pulse (value item) clear) items) =
      Proc.edge ⟨bus, [], serveAll (fun item => pulse (value item) clear) items⟩ := by
  cases items with
  | nil => rfl
  | cons item items =>
    rw [serveAll_cons, pulse_append]
    exact start_delay item.1

end Serving

end ClockingBlock
