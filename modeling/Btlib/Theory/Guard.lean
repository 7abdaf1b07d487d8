import Btlib.Theory.Prog

namespace Prog

variable {Op : Type} {Res : Op → Type} {α β σ τ : Type}

-- A protocol follows a program along every answer it admits, and asks `ok` of each operation.
structure Protocol (Op : Type) (Res : Op → Type) (τ : Type) where
  adm : (o : Op) → τ → Res o → Prop
  ok : Op → τ → Prop
  next : (o : Op) → τ → Res o → τ

def Guard (P : Protocol Op Res τ) (Q : α → τ → Prop) : Prog Op Res α → τ → Prop
  | .ret a, t => Q a t
  | .hang, _ => True
  | .op o k, t => P.ok o t ∧ ∀ r, P.adm o t r → (k r).Guard P Q (P.next o t r)

theorem Guard.mono {P : Protocol Op Res τ} {Q Q' : α → τ → Prop} {p : Prog Op Res α} {t : τ}
    (hp : p.Guard P Q t) (hQ : ∀ a t, Q a t → Q' a t) : p.Guard P Q' t := by
  induction p generalizing t with
  | ret a => exact hQ a t hp
  | hang => trivial
  | op o k ih => exact ⟨hp.1, fun r hr => ih r (hp.2 r hr)⟩

theorem guard_bind {P : Protocol Op Res τ} {R : β → τ → Prop} (p : Prog Op Res α)
    (f : α → Prog Op Res β) (t : τ) :
    (p.bind f).Guard P R t ↔ p.Guard P (fun a t => (f a).Guard P R t) t := by
  induction p generalizing t with
  | ret a => rfl
  | hang => rfl
  | op o k ih =>
      simp only [bind, Guard]
      exact and_congr_right fun _ => forall_congr' fun r => imp_congr_right fun _ => ih r _

-- What holds along more answers may be added.
theorem Guard.and {P P' : Protocol Op Res τ} {Q Q' : α → τ → Prop} {p : Prog Op Res α} {t : τ}
    (hp : p.Guard P Q t) (hp' : p.Guard P' Q' t) (hadm : ∀ o t r, P.adm o t r → P'.adm o t r)
    (hnext : ∀ o t r, P'.next o t r = P.next o t r) : p.Guard P (fun a t => Q a t ∧ Q' a t) t := by
  induction p generalizing t with
  | ret a => exact ⟨hp,hp'⟩
  | hang => trivial
  | op o k ih => exact ⟨hp.1,fun r hr => ih r (hp.2 r hr) (hnext o t r ▸ hp'.2 r (hadm o t r hr))⟩

section Soundness

variable {P : Protocol Op Res τ} {h : Machine Op Res σ} {R : σ → τ → Prop}

-- What ties a machine to a protocol: where it answers an operation that is allowed, the answer is
-- admitted; it refuses only where `E` says so.
def Follows (P : Protocol Op Res τ) (h : Machine Op Res σ) (R : σ → τ → Prop)
    (E : Op → σ → Prop) : Prop :=
  ∀ o s t, R s t → P.ok o t →
    match h o s with
    | none => E o s
    | some r => P.adm o t r.1 ∧ R r.2 (P.next o t r.1)

theorem Guard.within {E : Op → σ → Prop} {Q : α → τ → Prop} (hf : Follows P h R E)
    {p : Prog Op Res α} {s : σ} {t : τ} (hp : p.Guard P Q t) (hR : R s t) :
    (p.run h s).Within E fun r => ∃ t', R r.2 t' ∧ Q r.1 t' := by
  induction p generalizing s t with
  | ret a => exact ⟨t,hR,hp⟩
  | hang => trivial
  | op o k ih =>
      have ho := hf o s t hR hp.1
      rw [run]
      cases hr : h o s with
      | none =>
          rw [hr] at ho
          exact ho
      | some r =>
          rw [hr] at ho
          exact ih r.1 (hp.2 r.1 ho.1) ho.2

end Soundness

end Prog
