import Mathlib.Control.Monad.Basic

namespace Prog

variable {Op : Type} {Res : Op → Type} {α β γ σ τ : Type}

-- How a run ends: `hung` is a loop that was given up, `stuck` an operation the machine refused.
inductive Outcome (Op σ α : Type) where
  | done (a : α)
  | stuck (o : Op) (s : σ)
  | hung

namespace Outcome

def bind : Outcome Op σ α → (α → Outcome Op σ β) → Outcome Op σ β
  | .done a, f => f a
  | .stuck o s, _ => .stuck o s
  | .hung, _ => .hung

def map (f : α → β) : Outcome Op σ α → Outcome Op σ β
  | .done a => .done (f a)
  | .stuck o s => .stuck o s
  | .hung => .hung

@[simp] theorem bind_done (a : α) (f : α → Outcome Op σ β) : (done a).bind f = f a := rfl

@[simp] theorem bind_stuck (o : Op) (s : σ) (f : α → Outcome Op σ β) :
    (stuck o s).bind f = .stuck o s := rfl

@[simp] theorem bind_hung (f : α → Outcome Op σ β) : (hung : Outcome Op σ α).bind f = .hung := rfl

@[simp] theorem map_done (f : α → β) (a : α) : (done a : Outcome Op σ α).map f = .done (f a) := rfl

theorem bind_assoc (x : Outcome Op σ α) (f : α → Outcome Op σ β) (g : β → Outcome Op σ γ) :
    (x.bind f).bind g = x.bind fun a => (f a).bind g := by
  cases x <;> rfl

def result : Outcome Op σ α → Option α
  | .done a => some a
  | .stuck _ _ => none
  | .hung => none

theorem result_eq_some {x : Outcome Op σ α} {a : α} : x.result = some a ↔ x = .done a := by
  cases x <;> simp [result]

-- The run returns with `Q`, or is refused an operation where `E` allows it.
def Ends (E : Op → σ → Prop) (Q : α → Prop) : Outcome Op σ α → Prop
  | .done a => Q a
  | .stuck o s => E o s
  | .hung => False

variable {E E' : Op → σ → Prop} {Q Q' : α → Prop}

@[simp] theorem ends_done (a : α) : (done a).Ends E Q ↔ Q a := Iff.rfl

@[simp] theorem ends_stuck (o : Op) (s : σ) : (stuck o s).Ends E Q ↔ E o s := Iff.rfl

@[simp] theorem ends_hung : (hung : Outcome Op σ α).Ends E Q ↔ False := Iff.rfl

theorem Ends.mono {x : Outcome Op σ α} (hx : x.Ends E Q) (hE : ∀ o s, E o s → E' o s)
    (hQ : ∀ a, Q a → Q' a) : x.Ends E' Q' := by
  cases x with
  | done a => exact hQ a hx
  | stuck o s => exact hE o s hx
  | hung => exact hx

theorem ends_bind (x : Outcome Op σ α) (f : α → Outcome Op σ β) {Q : β → Prop} :
    (x.bind f).Ends E Q ↔ x.Ends E fun a => (f a).Ends E Q := by
  cases x <;> rfl

theorem Ends.bind {x : Outcome Op σ α} {f : α → Outcome Op σ β} {Q : β → Prop} {P : α → Prop}
    (hx : x.Ends E P) (hf : ∀ a, P a → (f a).Ends E Q) : (x.bind f).Ends E Q :=
  (ends_bind x f).2 (hx.mono (fun _ _ h => h) hf)

theorem Ends.self {x : Outcome Op σ α} (hx : x.Ends E Q) : x.Ends E fun a => x = .done a ∧ Q a := by
  cases x with
  | done a => exact ⟨rfl,hx⟩
  | stuck o s => exact hx
  | hung => exact hx

-- The same of a run that may also be given up.
def Within (E : Op → σ → Prop) (Q : α → Prop) : Outcome Op σ α → Prop
  | .done a => Q a
  | .stuck o s => E o s
  | .hung => True

theorem Within.mono {x : Outcome Op σ α} (hx : x.Within E Q) (hE : ∀ o s, E o s → E' o s)
    (hQ : ∀ a, Q a → Q' a) : x.Within E' Q' := by
  cases x with
  | done a => exact hQ a hx
  | stuck o s => exact hE o s hx
  | hung => trivial

theorem Ends.within {x : Outcome Op σ α} (hx : x.Ends E Q) : x.Within E Q := by
  cases x with
  | done a => exact hx
  | stuck o s => exact hx
  | hung => exact hx.elim

theorem Ends.bind_congr {x : Outcome Op σ α} {f g : α → Outcome Op σ β} (hx : x.Ends E Q) (h : ∀ a, Q a → f a = g a) :
    x.bind f = x.bind g := by
  cases x with
  | done a => exact h a hx
  | stuck o s => rfl
  | hung => rfl

theorem within_bind (x : Outcome Op σ α) (f : α → Outcome Op σ β) {Q : β → Prop} :
    (x.bind f).Within E Q ↔ x.Within E fun a => (f a).Within E Q := by
  cases x <;> rfl

theorem within_map (x : Outcome Op σ α) (f : α → β) {Q : β → Prop} :
    (x.map f).Within E Q ↔ x.Within E fun a => Q (f a) := by
  cases x <;> rfl

end Outcome

end Prog

-- Programs over the operations `Op`.
inductive Prog (Op : Type) (Res : Op → Type) (α : Type) : Type where
  | ret (a : α)
  | hang
  | op (o : Op) (k : Res o → Prog Op Res α)

namespace Prog

variable {Op : Type} {Res : Op → Type} {α β γ σ τ : Type}

def bind : Prog Op Res α → (α → Prog Op Res β) → Prog Op Res β
  | .ret a, f => f a
  | .hang, _ => .hang
  | .op o k, f => .op o fun r => (k r).bind f

instance : Monad (Prog Op Res) where
  pure := .ret
  bind := bind

theorem pure_eq (a : α) : (pure a : Prog Op Res α) = .ret a := rfl

theorem bind_ret (p : Prog Op Res α) : p.bind .ret = p := by
  induction p with
  | ret a => rfl
  | hang => rfl
  | op o k ih => simp only [bind, ih]

theorem bind_assoc (p : Prog Op Res α) (f : α → Prog Op Res β) (g : β → Prog Op Res γ) :
    (p.bind f).bind g = p.bind fun a => (f a).bind g := by
  induction p with
  | ret a => rfl
  | hang => rfl
  | op o k ih => simp only [bind, ih]

instance : LawfulMonad (Prog Op Res) :=
  LawfulMonad.mk' _ (fun p => bind_ret p) (fun _ _ => rfl) (fun p f g => bind_assoc p f g)

def call (o : Op) : Prog Op Res (Res o) := .op o .ret

-- A machine answers an operation, or refuses it.
abbrev Machine (Op : Type) (Res : Op → Type) (σ : Type) : Type :=
  (o : Op) → σ → Option (Res o × σ)

def run (h : Machine Op Res σ) : Prog Op Res α → σ → Outcome Op σ (α × σ)
  | .ret a, s => .done (a, s)
  | .hang, _ => .hung
  | .op o k, s =>
      match h o s with
      | none => .stuck o s
      | some r => (k r.1).run h r.2

theorem run_bind (h : Machine Op Res σ) (p : Prog Op Res α) (f : α → Prog Op Res β) (s : σ) :
    (p.bind f).run h s = (p.run h s).bind fun r => (f r.1).run h r.2 := by
  induction p generalizing s with
  | ret a => rfl
  | hang => rfl
  | op o k ih =>
      simp only [bind, run]
      cases h o s with
      | none => rfl
      | some r => exact ih r.1 r.2

end Prog
