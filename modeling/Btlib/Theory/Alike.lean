import Btlib.Theory.Guard

-- Two programs over a state that cannot be told apart by what they ask.
namespace Prog

variable {Op : Type} {Res : Op → Type} {α β γ σ τ : Type}

-- They ask the same, and what they return is related by `Q`, whatever they are answered.
inductive Agree (Q : α → β → Prop) : Prog Op Res α → Prog Op Res β → Prop
  | ret {a : α} {b : β} (h : Q a b) : Agree Q (.ret a) (.ret b)
  | hang : Agree Q .hang .hang
  | op (o : Op) {k : Res o → Prog Op Res α} {k' : Res o → Prog Op Res β} (h : ∀ r, Agree Q (k r) (k' r)) :
      Agree Q (.op o k) (.op o k')

namespace Agree

variable {α' β' : Type} {Q : α → β → Prop} {Q' : α' → β' → Prop} {p : Prog Op Res α} {p' : Prog Op Res β}

theorem bind {f : α → Prog Op Res α'} {g : β → Prog Op Res β'} (hp : Agree Q p p')
    (hf : ∀ a b, Q a b → Agree Q' (f a) (g b)) : Agree Q' (p.bind f) (p'.bind g) := by
  induction hp with
  | ret h => exact hf _ _ h
  | hang => exact .hang
  | op o h ih => exact .op o ih

theorem mono {Q' : α → β → Prop} (hp : Agree Q p p') (hQ : ∀ a b, Q a b → Q' a b) : Agree Q' p p' := by
  induction hp with
  | ret h => exact .ret (hQ _ _ h)
  | hang => exact .hang
  | op o h ih => exact .op o ih

theorem self {Q : α → α → Prop} (p : Prog Op Res α) (hQ : ∀ a, Q a a) : Agree Q p p := by
  induction p with
  | ret a => exact .ret (hQ a)
  | hang => exact .hang
  | op o k ih => exact .op o ih

theorem run {f : α → γ} {g : β → γ} (hp : Agree Q p p') (h : Machine Op Res σ) (s : σ)
    (hQ : ∀ a b, Q a b → f a = g b) :
    ((p.run h s).map fun r => (f r.1, r.2)) = (p'.run h s).map fun r => (g r.1, r.2) := by
  induction hp generalizing s with
  | ret h => simp only [Prog.run, Outcome.map_done, hQ _ _ h]
  | hang => rfl
  | op o k ih =>
      simp only [Prog.run]
      cases h o s with
      | none => rfl
      | some r => exact ih r.1 r.2

theorem ends {E : Op → σ → Prop} {P : β × σ → Prop} (hp : Agree Q p p') (h : Machine Op Res σ) (s : σ)
    (hr : (p'.run h s).Ends E P) : (p.run h s).Ends E fun r => ∃ b, Q r.1 b ∧ P (b, r.2) := by
  induction hp generalizing s with
  | ret hQ => exact ⟨_,hQ,hr⟩
  | hang => exact hr
  | op o k ih =>
      rw [Prog.run] at hr ⊢
      cases ho : h o s with
      | none =>
          rw [ho] at hr
          exact hr
      | some r =>
          rw [ho] at hr
          exact ih r.1 r.2 hr

theorem guard {P : Protocol Op Res τ} {G : β → τ → Prop} {t : τ} (hp : Agree Q p p') (hg : p'.Guard P G t) :
    p.Guard P (fun a t => ∃ b, Q a b ∧ G b t) t := by
  induction hp generalizing t with
  | ret hQ => exact ⟨_,hQ,hg⟩
  | hang => trivial
  | op o k ih => exact ⟨hg.1,fun r hr => ih r (hg.2 r hr)⟩

end Agree

-- From related states `x` and `y` return the same, and related states again.
def Alike (R : τ → τ → Prop) (Q : α → τ → τ → Prop) (x y : StateT τ (Prog Op Res) α) : Prop :=
  ∀ c c', R c c' → Agree (fun r r' => r.1 = r'.1 ∧ Q r.1 r.2 r'.2) (x c) (y c')

section Rules

variable {R : τ → τ → Prop} {Q Q' : α → τ → τ → Prop} {P : β → τ → τ → Prop}
  {x y : StateT τ (Prog Op Res) α} {f g : α → StateT τ (Prog Op Res) β}

theorem Alike.bind (hx : Alike R Q x y) (hf : ∀ a, Alike (Q a) P (f a) (g a)) : Alike R P (x >>= f) (y >>= g) := by
  intro c c' hc
  refine (hx c c' hc).bind ?_
  rintro ⟨a,d⟩ ⟨_,d'⟩ ⟨rfl,hQ⟩
  exact hf a d d' hQ

theorem Alike.mono {R' : τ → τ → Prop} (hx : Alike R Q x y) (hR : ∀ c c', R' c c' → R c c')
    (hQ : ∀ a c c', Q a c c' → Q' a c c') : Alike R' Q' x y := fun c c' hc =>
  (hx c c' (hR c c' hc)).mono fun _ _ h => ⟨h.1,hQ _ _ _ h.2⟩

theorem Alike.self (x : StateT τ (Prog Op Res) α) (hQ : ∀ a c, Q a c c) : Alike Eq Q x x := by
  rintro c _ rfl
  exact .self _ fun r => ⟨rfl,hQ r.1 r.2⟩

theorem Alike.ite {p : Prop} [Decidable p] {x' y' : StateT τ (Prog Op Res) α} (hx : p → Alike R Q x x')
    (hy : ¬ p → Alike R Q y y') : Alike R Q (if p then x else y) (if p then x' else y') := by
  split
  · exact hx ‹_›
  · exact hy ‹_›

theorem alike_pure {a : α} (hQ : ∀ c c', R c c' → Q a c c') :
    Alike R Q (pure a : StateT τ (Prog Op Res) α) (pure a) :=
  fun c c' hc => .ret ⟨rfl,hQ c c' hc⟩

theorem alike_modify {Q : Unit → τ → τ → Prop} {f f' : τ → τ} (hf : ∀ c c', R c c' → Q () (f c) (f' c')) :
    Alike R Q (modify f : StateT τ (Prog Op Res) Unit) (modify f') := fun c c' hc => .ret ⟨rfl,hf c c' hc⟩

theorem alike_get {f g : τ → StateT τ (Prog Op Res) β} (hf : ∀ c c', R c c' → Alike R P (f c) (g c')) :
    Alike R P (get >>= f) (get >>= g) := fun c c' hc => hf c c' hc c c' hc

end Rules

end Prog
