import Btlib.Theory.Guard

namespace Prog

variable {Op : Type} {Res : Op → Type} {α σ δ τ τ' : Type}

section Both

-- Two protocols kept to at once.
def Protocol.both (P : Protocol Op Res τ) (P' : Protocol Op Res τ') : Protocol Op Res (τ × τ') where
  adm o t r := P.adm o t.1 r ∧ P'.adm o t.2 r
  ok o t := P.ok o t.1 ∧ P'.ok o t.2
  next o t r := (P.next o t.1 r, P'.next o t.2 r)

theorem Guard.both {P : Protocol Op Res τ} {P' : Protocol Op Res τ'} {Q : α → τ → Prop}
    {Q' : α → τ' → Prop} {p : Prog Op Res α} {t : τ} {t' : τ'} (hp : p.Guard P Q t)
    (hp' : p.Guard P' Q' t') : p.Guard (P.both P') (fun a t => Q a t.1 ∧ Q' a t.2) (t, t') := by
  induction p generalizing t t' with
  | ret a => exact ⟨hp,hp'⟩
  | hang => trivial
  | op o k ih => exact ⟨⟨hp.1,hp'.1⟩,fun r hr => ih r (hp.2 r hr.1) (hp'.2 r hr.2)⟩

theorem Guard.const {ω : Type} {P : Protocol Op Res τ} {Q : α → τ → Prop} {p : Prog Op Res α} {t : τ} (g : τ → ω)
    (hg : ∀ o t r, g (P.next o t r) = g t) (hp : p.Guard P Q t) : p.Guard P (fun a t' => Q a t' ∧ g t' = g t) t := by
  induction p generalizing t with
  | ret a => exact ⟨hp,rfl⟩
  | hang => trivial
  | op o k ih =>
      refine ⟨hp.1,fun r hr => (ih r (hp.2 r hr)).mono fun a t' h => ⟨h.1,h.2.trans (hg o t r)⟩⟩

end Both

namespace Outcome

-- A run goes back along runs of another machine: whatever that one is shown at the end, it has come to from
-- something that meets `I`. So too where the run is given up, or refused an operation that the other refuses.
def Retraces (E : Op → σ → Prop) (S : σ → δ → Prop) (N : Op → δ → Prop) (I : δ → Prop)
    (y : δ → Outcome Op δ (α × δ)) (Q : α × σ → Prop) : Outcome Op σ (α × σ) → Prop
  | .done r => Q r ∧ ∀ d', S r.2 d' → ∃ d, I d ∧ y d = .done (r.1, d')
  | .stuck o s => E o s ∧ ∀ d', S s d' → N o d' → ∃ d, I d ∧ y d = .stuck o d'
  | .hung => ∃ d, I d ∧ y d = .hung

variable {E : Op → σ → Prop} {F : Op → δ → Prop} {S : σ → δ → Prop} {N : Op → δ → Prop} {I : δ → Prop}
  {y : δ → Outcome Op δ (α × δ)} {Q Q' : α × σ → Prop} {x : Outcome Op σ (α × σ)}

theorem Retraces.mono (hx : x.Retraces E S N I y Q) (hQ : ∀ r, Q r → Q' r) : x.Retraces E S N I y Q' := by
  cases x with
  | done r => exact ⟨hQ r hx.1,hx.2⟩
  | stuck o s => exact hx
  | hung => exact hx

theorem Retraces.back {I' : δ → Prop} {y' : δ → Outcome Op δ (α × δ)} (hx : x.Retraces E S N I y Q)
    (hy : ∀ d, I d → ∃ d', I' d' ∧ y' d' = y d) : x.Retraces E S N I' y' Q := by
  cases x with
  | done r =>
      refine ⟨hx.1,fun d' hd' => ?_⟩
      obtain ⟨d,hd,hend⟩ := hx.2 d' hd'
      obtain ⟨d0,hd0,hstart⟩ := hy d hd
      exact ⟨d0,hd0,hstart.trans hend⟩
  | stuck o s =>
      refine ⟨hx.1,fun d' hd' hn => ?_⟩
      obtain ⟨d,hd,hend⟩ := hx.2 d' hd' hn
      obtain ⟨d0,hd0,hstart⟩ := hy d hd
      exact ⟨d0,hd0,hstart.trans hend⟩
  | hung =>
      obtain ⟨d,hd,hend⟩ := hx
      obtain ⟨d0,hd0,hstart⟩ := hy d hd
      exact ⟨d0,hd0,hstart.trans hend⟩

theorem Retraces.ends {P : α × δ → Prop} (hx : x.Retraces E S N I y Q) (hy : ∀ d, I d → (y d).Ends F P) :
    x.Ends (fun o s => E o s ∧ ∀ d, S s d → N o d → F o d) fun r => Q r ∧ ∀ d, S r.2 d → P (r.1, d) := by
  cases x with
  | done r =>
      refine ⟨hx.1,fun d' hd' => ?_⟩
      obtain ⟨d,hd,hyd⟩ := hx.2 d' hd'
      simpa [hyd] using hy d hd
  | stuck o s =>
      refine ⟨hx.1,fun d' hd' hn => ?_⟩
      obtain ⟨d,hd,hyd⟩ := hx.2 d' hd' hn
      simpa [hyd] using hy d hd
  | hung =>
      obtain ⟨d,hd,hyd⟩ := hx
      simpa [hyd] using hy d hd

end Outcome

section Mirror

variable {P : Protocol Op Res τ} {h : Machine Op Res σ} {g : Machine Op Res δ} {R : σ → τ → Prop}
  {S : σ → δ → Prop} {E : Op → σ → Prop}

-- What ties a machine to another by what it shows of it. What is shown later is what decides where the other
-- one was: it may hold things that the first has not met yet.
def Mirrors (P : Protocol Op Res τ) (h : Machine Op Res σ) (g : Machine Op Res δ) (R : σ → τ → Prop)
    (S : σ → δ → Prop) (E : Op → σ → Prop) : Prop :=
  ∀ o s t, R s t → P.ok o t →
    match h o s with
    | none => E o s
    | some r => P.adm o t r.1 ∧ R r.2 (P.next o t r.1) ∧
        ∀ d', S r.2 d' → ∃ d, S s d ∧ g o d = some (r.1, d')

-- Induction on the program, from the end of the run back to its start.
theorem Guard.retraces {Q : α → τ → Prop} (hm : Mirrors P h g R S E) (hshows : ∀ s, ∃ d, S s d)
    {p : Prog Op Res α} {s : σ} {t : τ} (hp : p.Guard P Q t) (hR : R s t) :
    (p.run h s).Retraces E S (fun o d => g o d = none) (S s) (p.run g) fun r => ∃ t', R r.2 t' ∧ Q r.1 t' := by
  induction p generalizing s t with
  | ret a => exact ⟨⟨t,hR,hp⟩,fun d' hd' => ⟨d',hd',rfl⟩⟩
  | hang =>
      obtain ⟨d,hd⟩ := hshows s
      exact ⟨d,hd,rfl⟩
  | op o k ih =>
      have ho := hm o s t hR hp.1
      rw [run]
      cases hr : h o s with
      | none =>
          rw [hr] at ho
          exact ⟨ho,fun d hd hn => ⟨d,hd,by rw [run, hn]⟩⟩
      | some r =>
          rw [hr] at ho
          obtain ⟨hadm,hnext,hback⟩ := ho
          have hback : ∀ d', S r.2 d' → ∃ d, S s d ∧ (op o k).run g d = (k r.1).run g d' := by
            intro d' hd'
            obtain ⟨d,hd,hg⟩ := hback d' hd'
            exact ⟨d,hd,by rw [run, hg]⟩
          exact (ih r.1 (hp.2 r.1 hadm) hnext).back hback

end Mirror

end Prog
