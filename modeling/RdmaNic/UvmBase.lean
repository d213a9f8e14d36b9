import Mathlib.Data.Nat.Notation

/-! # What checkers use of UVM: reports, and what the comparison of two objects looks at -/
namespace UvmBase

variable {α : Type*}

inductive Severity where
  | info | warning | error | fatal
  deriving DecidableEq, Repr

structure Report where
  severity : Severity
  id : String
  message : String
  deriving DecidableEq, Repr

/-- A class as `uvm_object::compare` sees it: its name, the fields registered with the
field macros (each with its own comparison) and its `do_compare`. -/
structure ObjectClass (α : Type*) where
  typeName : α → String
  fields : List (α → α → Bool)
  doCompare : α → α → Bool

def ComparesAs (c : ObjectClass α) (compare : α → α → Bool) : Prop :=
  ∀ a b, compare a b = true ↔
    c.typeName a = c.typeName b ∧ (∀ f ∈ c.fields, f a b = true) ∧ c.doCompare a b = true

def uvmCompare (c : ObjectClass α) (a b : α) : Bool :=
  decide (c.typeName a = c.typeName b) && c.fields.all (fun f => f a b) && c.doCompare a b

theorem uvmCompare_compares (c : ObjectClass α) : ComparesAs c (uvmCompare c) := by
  intro a b
  simp only [uvmCompare, Bool.and_eq_true, decide_eq_true_eq, List.all_eq_true, and_assoc]

theorem ComparesAs.blind {c : ObjectClass α} {compare : α → α → Bool} (h : ComparesAs c compare)
    (hname : ∀ a b, c.typeName a = c.typeName b) (hfields : c.fields = [])
    (hdo : ∀ a b, c.doCompare a b = true) (a b : α) : compare a b = true := by
  apply (h a b).mpr
  refine ⟨hname a b, ?_, hdo a b⟩
  intro f hf
  rw [hfields] at hf
  cases hf

end UvmBase
