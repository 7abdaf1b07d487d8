import Btlib.Theory.Prog

-- What a program over a state leaves, whatever its operations are answered.
namespace Prog

variable {Op : Type} {Res : Op → Type} {α β σ τ : Type}

def Always (Q : α → Prop) : Prog Op Res α → Prop
  | .ret a => Q a
  | .hang => True
  | .op _ k => ∀ r, (k r).Always Q

theorem Always.mono {Q Q' : α → Prop} {p : Prog Op Res α} (hp : p.Always Q) (hQ : ∀ a, Q a → Q' a) :
    p.Always Q' := by
  induction p with
  | ret a => exact hQ a hp
  | hang => trivial
  | op o k ih => exact fun r => ih r (hp r)

theorem always_bind {R : β → Prop} (p : Prog Op Res α) (f : α → Prog Op Res β) :
    (p.bind f).Always R ↔ p.Always fun a => (f a).Always R := by
  induction p with
  | ret a => rfl
  | hang => rfl
  | op o k ih => exact forall_congr' ih

theorem Always.within {Q : α → Prop} {p : Prog Op Res α} (hp : p.Always Q) (h : Machine Op Res σ) (s : σ) :
    (p.run h s).Within (fun _ _ => True) fun r => Q r.1 := by
  induction p generalizing s with
  | ret a => exact hp
  | hang => trivial
  | op o k ih =>
      rw [run]
      cases h o s with
      | none => trivial
      | some r => exact ih r.1 (hp r.1) r.2

-- A relation between what is there before and after.
structure Drift (R : τ → τ → Prop) : Prop where
  refl : ∀ c, R c c
  trans : ∀ {c c' c''}, R c c' → R c' c'' → R c c''

def Carries (R : τ → τ → Prop) (x : StateT τ (Prog Op Res) α) : Prop := ∀ c, (x c).Always fun r => R c r.2

section Rules

variable {R : τ → τ → Prop} {x y : StateT τ (Prog Op Res) α} {f : α → StateT τ (Prog Op Res) β}

theorem Carries.bind (hR : Drift R) (hx : Carries R x) (hf : ∀ a, Carries R (f a)) : Carries R (x >>= f) := by
  intro c
  refine (always_bind _ _).2 ((hx c).mono fun r hr => ?_)
  exact (hf r.1 r.2).mono fun r' hr' => hR.trans hr hr'

theorem carries_pure (hR : Drift R) (a : α) : Carries R (pure a : StateT τ (Prog Op Res) α) := fun c => hR.refl c

theorem carries_get (hR : Drift R) : Carries R (get : StateT τ (Prog Op Res) τ) := fun c => hR.refl c

theorem carries_modify {f : τ → τ} (hf : ∀ c, R c (f c)) : Carries R (modify f : StateT τ (Prog Op Res) Unit) :=
  fun c => hf c

theorem Carries.ite {p : Prop} [Decidable p] (hx : Carries R x) (hy : Carries R y) :
    Carries R (if p then x else y) := by
  split
  · exact hx
  · exact hy

end Rules

end Prog
